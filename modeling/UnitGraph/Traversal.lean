/-!
# Depth-first traversal with marks

An agenda lists things to do in order: visit an element, or leave a mark. Visiting an element that was
entered before does nothing; otherwise the element is entered and its own agenda is worked off before the
rest. The result is the list of events in the order in which they happen. Because marks stand inside the
agendas, one traversal yields both what happens before an element's successors and what happens after.
-/
namespace UnitGraph.Traversal

variable {α β : Type}

/-- One line of an agenda. -/
inductive Item (α β : Type) where
  | visit (a : α)
  | mark (b : β)
  deriving DecidableEq, Repr

/-- What a traversal reports. -/
inductive Event (α β : Type) where
  | entered (a : α)
  | marked (b : β)
  deriving DecidableEq, Repr

/-- The elements entered, in order. -/
def entered (events : List (Event α β)) : List α :=
  events.filterMap fun | .entered a => some a | .marked _ => none

/-- The marks met, in order. -/
def marks (events : List (Event α β)) : List β :=
  events.filterMap fun | .entered _ => none | .marked b => some b

/-- Works off an agenda line by line; each line sees the elements entered by the lines before it. -/
def inSequence (run : List α → Item α β → List (Event α β)) :
    List α → List (Item α β) → List (Event α β)
  | _, [] => []
  | seen, i :: rest =>
      let events := run seen i
      events ++ inSequence run ((entered events).reverse ++ seen) rest

/-- The elements that an agenda asks to visit. -/
def requested (items : List (Item α β)) : List α :=
  items.filterMap fun | .visit a => some a | .mark _ => none

@[simp] theorem requested_cons_visit (a : α) (items : List (Item α β)) :
    requested (.visit a :: items) = a :: requested items := rfl
@[simp] theorem requested_cons_mark (b : β) (items : List (Item α β)) :
    requested (.mark b :: items) = requested items := rfl
@[simp] theorem requested_append (xs ys : List (Item α β)) :
    requested (xs ++ ys) = requested xs ++ requested ys := List.filterMap_append ..
@[simp] theorem entered_nil : entered ([] : List (Event α β)) = [] := rfl
@[simp] theorem marks_nil : marks ([] : List (Event α β)) = [] := rfl
@[simp] theorem entered_append (xs ys : List (Event α β)) :
    entered (xs ++ ys) = entered xs ++ entered ys := List.filterMap_append ..
@[simp] theorem marks_append (xs ys : List (Event α β)) :
    marks (xs ++ ys) = marks xs ++ marks ys := List.filterMap_append ..
@[simp] theorem entered_cons_entered (a : α) (xs : List (Event α β)) :
    entered (.entered a :: xs) = a :: entered xs := rfl
@[simp] theorem entered_cons_marked (b : β) (xs : List (Event α β)) :
    entered (.marked b :: xs) = entered xs := rfl
@[simp] theorem marks_cons_entered (a : α) (xs : List (Event α β)) :
    marks (.entered a :: xs) = marks xs := rfl
@[simp] theorem marks_cons_marked (b : β) (xs : List (Event α β)) :
    marks (.marked b :: xs) = b :: marks xs := rfl

@[simp] theorem inSequence_nil (run : List α → Item α β → List (Event α β)) (seen : List α) :
    inSequence run seen [] = [] := rfl

theorem inSequence_append (run : List α → Item α β → List (Event α β)) (seen : List α)
    (xs ys : List (Item α β)) :
    inSequence run seen (xs ++ ys) = inSequence run seen xs ++
      inSequence run ((entered (inSequence run seen xs)).reverse ++ seen) ys := by
  induction xs generalizing seen with
  | nil => simp
  | cons i xs ih => simp [inSequence, ih]

variable [DecidableEq α]

/-- The events of one line, given the elements entered before it. The bound limits the depth; as every
level enters a new element, the number of elements is always enough. -/
def expand (agenda : α → List (Item α β)) : Nat → List α → Item α β → List (Event α β)
  | _, _, .mark b => [.marked b]
  | 0, _, .visit _ => []
  | n + 1, seen, .visit a =>
      if a ∈ seen then [] else .entered a :: inSequence (expand agenda n) (a :: seen) (agenda a)

/-- The events of an agenda, given the elements entered before it. The pool lists whatever can be entered;
its length bounds the depth. -/
def run (agenda : α → List (Item α β)) (pool seen : List α) (items : List (Item α β)) :
    List (Event α β) :=
  inSequence (expand agenda pool.length) seen items

/-- The events of an agenda from the beginning. -/
def traverse (agenda : α → List (Item α β)) (pool : List α) (items : List (Item α β)) :
    List (Event α β) :=
  run agenda pool [] items

@[simp] theorem expand_mark (agenda : α → List (Item α β)) (n : Nat) (seen : List α) (b : β) :
    expand agenda n seen (.mark b) = [.marked b] := by
  cases n <;> rfl

theorem expand_visit_seen (agenda : α → List (Item α β)) (n : Nat) {seen : List α} {a : α}
    (h : a ∈ seen) : expand agenda n seen (.visit a) = [] := by
  cases n <;> simp [expand, h]

end UnitGraph.Traversal
