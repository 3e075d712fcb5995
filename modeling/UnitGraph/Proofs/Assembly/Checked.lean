import UnitGraph.Assembly.Checked
import UnitGraph.Proofs.Source.Ledger
import UnitGraph.Proofs.Unit.Walks

/-!
# Checked access does not fault

On a unit in range, a walk that starts at a type of the table reads nothing but types and declarations of
the tables, so with every access checked it gives the plain answer. A claim only reads positions between the
slots of two locations, which the stream has.
-/
namespace UnitGraph.Checked

theorem ok_bind {α β : Type} (a : α) (f : α → Except Fault β) : (Except.ok a >>= f) = f a := rfl

theorem pure_eq_ok {α : Type} (a : α) : (pure a : Except Fault α) = .ok a := rfl

section Types

variable {u : SourceUnit}

theorem decl_eq {d : DeclId} {x : Decl} (h : u.decl? d = some x) : decl u d = .ok x := by
  rw [decl, h]
  rfl

theorem stmt_eq {s : StmtId} {x : Stmt} (h : u.stmt? s = some x) : stmt u s = .ok x := by
  rw [stmt, h]
  rfl

theorem type_eq {t : TypeId} {x : TypeEntry} (h : u.type? t = some x) : type u t = .ok x := by
  rw [type, h]
  rfl

/-- A type that the table has. -/
def Known (u : SourceUnit) (t : TypeId) : Prop := t.index < u.types.size

theorem Known.exists_entry {t : TypeId} (h : Known u t) :
    ∃ x, type u t = .ok x ∧ u.typeKind? t = some x.kind ∧ x ∈ u.types := by
  obtain ⟨x, hx⟩ := SourceUnit.exists_type h
  exact ⟨x, type_eq hx, by rw [SourceUnit.typeKind?, hx]; rfl, Array.mem_of_getElem? hx⟩

/-- A checked step gives the answer of the plain one, and where it leads is a type of the table. -/
def Agrees (u : SourceUnit) (step : TypeId → Except Fault (Option TypeId))
    (plain : TypeId → Option TypeId) : Prop :=
  ∀ t, Known u t → step t = .ok (plain t) ∧ ∀ t', plain t = some t' → Known u t'

theorem Agrees.follow {step : TypeId → Except Fault (Option TypeId)} {plain : TypeId → Option TypeId}
    (h : Agrees u step plain) (n : Nat) {t : TypeId} (ht : Known u t) :
    follow step n t = .ok (Chain.follow plain n t) ∧ Known u (Chain.follow plain n t) := by
  induction n generalizing t with
  | zero => exact ⟨rfl, ht⟩
  | succ n ih =>
      obtain ⟨hStep, hNext⟩ := h t ht
      rw [Checked.follow, Chain.follow, hStep, ok_bind]
      cases hp : plain t with
      | none => exact ⟨rfl, ht⟩
      | some t' => exact ih (hNext t' hp)

variable (h : u.InRange)
include h

theorem agrees_desugar : Agrees u (desugar u) u.desugar := by
  intro t ht
  refine ⟨?_, fun t' ht' => h.walkStep_lt (.sugar (SourceUnit.desugar_eq_some_iff.mp ht'))⟩
  obtain ⟨x, hType, hKind, _⟩ := ht.exists_entry
  rw [desugar, hType, ok_bind, SourceUnit.desugar, hKind]
  cases hk : x.kind with
  | typedef d =>
      obtain ⟨y, hy⟩ := SourceUnit.exists_decl (h.decl_lt hKind (d := d) (by rw [hk]; rfl))
      simp only [decl_eq hy, ok_bind, SourceUnit.underlying?, SourceUnit.declKind?, hy, Option.map_some]
      cases y.kind <;> rfl
  | _ => rfl

theorem findInSugar_eq {β : Type} (pick : TypeKind → Option β) (n : Nat) {t : TypeId} (ht : Known u t) :
    findInSugar u pick n t =
      .ok (Chain.findAlong u.desugar (fun t => (u.typeKind? t).bind pick) n t) := by
  induction n generalizing t with
  | zero => rfl
  | succ n ih =>
      obtain ⟨x, hType, hKind, _⟩ := ht.exists_entry
      obtain ⟨hStep, hNext⟩ := agrees_desugar h t ht
      rw [findInSugar, Chain.findAlong, hType, ok_bind, hKind, Option.bind_some]
      cases pick x.kind with
      | some b => rfl
      | none =>
          simp only [hStep, ok_bind]
          cases hd : u.desugar t with
          | none => rfl
          | some t' => exact ih (hNext t' hd)

theorem canonical_eq {t : TypeId} (ht : Known u t) :
    canonical u t = .ok (u.canonical t) ∧ Known u (u.canonical t) :=
  (agrees_desugar h).follow u.stepLimit ht

theorem agrees_pointee : Agrees u (pointee u) u.pointee := by
  intro t ht
  refine ⟨?_, fun t' ht' => h.walkStep_lt (.pointer (SourceUnit.typeKind?_of_pointee ht'))⟩
  obtain ⟨hCanonical, hKnown⟩ := canonical_eq h ht
  obtain ⟨x, hType, hKind, _⟩ := hKnown.exists_entry
  rw [pointee, hCanonical, ok_bind, hType, ok_bind, SourceUnit.pointee, hKind]
  cases x.kind <;> rfl

theorem stripPointers_eq {t : TypeId} (ht : Known u t) :
    stripPointers u t = .ok (u.stripPointers t) ∧ Known u (u.stripPointers t) :=
  (agrees_pointee h).follow u.stepLimit ht

theorem recordDecl?_eq {t : TypeId} (ht : Known u t) : recordDecl? u t = .ok (u.recordDecl? t) := by
  obtain ⟨hCanonical, hKnown⟩ := canonical_eq h ht
  obtain ⟨x, hType, hKind, _⟩ := hKnown.exists_entry
  rw [recordDecl?, hCanonical, ok_bind, hType, ok_bind, SourceUnit.recordDecl?, hKind]
  cases x.kind <;> rfl

omit h in
theorem recordDefinition_eq {d : DeclId} (hd : d.index < u.decls.size) :
    recordDefinition u d = .ok (u.recordDefinition d) := by
  obtain ⟨x, hx⟩ := SourceUnit.exists_decl hd
  rw [recordDefinition, decl_eq hx, ok_bind, SourceUnit.recordDefinition, SourceUnit.declKind?, hx,
    Option.map_some]
  cases x.kind with
  | record tag fields definition => cases definition <;> rfl
  | _ => rfl

theorem referencedRecord_eq {t : TypeId} (ht : Known u t) :
    referencedRecord u t = .ok (u.referencedRecord t) := by
  obtain ⟨hStrip, hKnown⟩ := stripPointers_eq h ht
  rw [referencedRecord, hStrip, ok_bind, recordDecl?_eq h hKnown, ok_bind, SourceUnit.referencedRecord]
  cases hr : u.recordDecl? (u.stripPointers t) with
  | none => rfl
  | some r =>
      simp only [recordDefinition_eq (h.recordDecl?_lt hr), Except.map_ok, Option.map_some]

theorem asTypedef_eq {t : TypeId} (ht : Known u t) : asTypedef u t = .ok (u.asTypedef t) :=
  findInSugar_eq h _ _ ht

theorem referencedAlias_eq {t : TypeId} (ht : Known u t) :
    referencedAlias u t = .ok (u.referencedAlias t) := by
  obtain ⟨hStrip, hKnown⟩ := stripPointers_eq h ht
  rw [referencedAlias, asTypedef_eq h ht, ok_bind, SourceUnit.referencedAlias]
  cases u.asTypedef t with
  | some d => rfl
  | none =>
      simp only [hStrip, ok_bind, asTypedef_eq h hKnown, Option.none_or]

theorem namedEnum_eq {t : TypeId} (ht : Known u t) : namedEnum u t = .ok (u.namedEnum t) :=
  findInSugar_eq h _ _ ht

omit h in
theorem spelling_eq {t : TypeId} (ht : Known u t) : spelling u t = .ok (u.spellingOf t) := by
  obtain ⟨x, hx⟩ := SourceUnit.exists_type ht
  simp only [spelling, type_eq hx, Except.map_ok, SourceUnit.spellingOf, hx, Option.map_some,
    Option.getD_some]

omit h in
theorem underlyingSpelling_eq {k : DeclKind} (ht : ∀ t, k.underlying? = some t → Known u t) :
    underlyingSpelling u k = .ok ((k.underlying?.map u.spellingOf).getD "") := by
  cases k with
  | typedef t => exact spelling_eq (ht t rfl)
  | _ => rfl

omit h in
theorem declaredSpelling_eq {t : Option TypeId} (ht : ∀ t', t = some t' → Known u t') :
    declaredSpelling u t = .ok ((t.map u.spellingOf).getD "") := by
  cases t with
  | none => rfl
  | some t => exact spelling_eq (ht t rfl)

omit h in
theorem functionPointer_eq_bind (t : TypeId) :
    u.functionPointer t = (u.pointee t).bind fun p => (u.findInSugar enclosed? p).bind fun inner =>
      (u.typeKind? (u.canonical inner)).bind signature? := by
  unfold SourceUnit.functionPointer
  refine congrArg (Option.bind (u.pointee t)) (funext fun p => ?_)
  refine congrArg (Option.bind (u.findInSugar enclosed? p)) (funext fun inner => ?_)
  cases u.typeKind? (u.canonical inner) with
  | none => rfl
  | some k => cases k <;> rfl

theorem functionPointer_eq {t : TypeId} (ht : Known u t) :
    functionPointer u t = .ok (u.functionPointer t) := by
  obtain ⟨hPointee, hKnown⟩ := agrees_pointee h t ht
  rw [functionPointer, hPointee, ok_bind, functionPointer_eq_bind]
  cases hp : u.pointee t with
  | none => rfl
  | some p =>
      have hInner : findInSugar u enclosed? u.stepLimit p = .ok (u.findInSugar enclosed? p) :=
        findInSugar_eq h _ _ (hKnown p hp)
      simp only [hInner, ok_bind, Option.bind_some]
      cases hi : u.findInSugar enclosed? p with
      | none => rfl
      | some inner =>
          obtain ⟨t', k, hk, hPick⟩ := SourceUnit.exists_of_findInSugar hi
          have hParen : u.typeKind? t' = some (.paren inner) := by
            unfold enclosed? at hPick
            split at hPick
            · cases hPick
              exact hk
            · cases hPick
          obtain ⟨hCanonical, hKnown⟩ := canonical_eq h (h.walkStep_lt (.sugar (.paren hParen)))
          obtain ⟨y, hType, hKind, _⟩ := hKnown.exists_entry
          simp only [hCanonical, hType, ok_bind, Option.bind_some, hKind, pure_eq_ok]

/-- The signature of a function pointer is made of types of the table. -/
theorem known_of_functionPointer {t : TypeId} {s : SourceUnit.Signature} (hs : u.functionPointer t = some s) :
    ∀ t' ∈ s.types, Known u t' := by
  rw [functionPointer_eq_bind] at hs
  obtain ⟨p, _, hs⟩ := Option.bind_eq_some_iff.mp hs
  obtain ⟨inner, _, hs⟩ := Option.bind_eq_some_iff.mp hs
  obtain ⟨k, hk, hs⟩ := Option.bind_eq_some_iff.mp hs
  obtain ⟨x, hx, rfl⟩ := SourceUnit.exists_mem_of_typeKind? hk
  intro t' ht'
  refine h.typeParts x hx t' ?_
  cases hKind : x.kind with
  | functionProto result params variadic =>
      rw [hKind] at hs
      cases hs
      exact ht'
  | _ =>
      rw [hKind] at hs
      cases hs

omit h in
theorem anyM_eq {α : Type} {f : α → Except Fault Bool} {g : α → Bool} {xs : List α}
    (hf : ∀ x ∈ xs, f x = .ok (g x)) : xs.anyM f = .ok (xs.any g) := by
  induction xs with
  | nil => rfl
  | cons x xs ih =>
      rw [List.anyM, hf x List.mem_cons_self, ok_bind, List.any_cons]
      cases g x with
      | true => rfl
      | false => exact ih fun y hy => hf y (List.mem_cons_of_mem x hy)

theorem isTypedefTarget_eq {d : DeclId} (hd : d.index < u.decls.size) :
    isTypedefTarget u d = .ok (u.isTypedefTarget d) := by
  rw [isTypedefTarget, recordDefinition_eq hd, ok_bind, SourceUnit.isTypedefTarget, ← Array.any_toList]
  refine anyM_eq fun x hx => ?_
  rw [isTypedefOf]
  cases hk : x.kind with
  | typedef t =>
      have ht : Known u t := h.declTypes x (Array.mem_toList_iff.mp hx) t (by simp [hk, DeclKind.underlying?])
      simp only [recordDecl?_eq h ht, ok_bind]
      cases hr : u.recordDecl? t with
      | none => rfl
      | some r => simp only [recordDefinition_eq (h.recordDecl?_lt hr), ok_bind, pure_eq_ok, Option.any_some]
  | _ => rfl

end Types

section Tokens

variable {l : Ledger}

/-- What is offered of a span: the stretch of the stream between its ends, less what may not be had. -/
theorem offered_eq_stretch (s : Span) (access : Access) :
    l.offered s access = ((l.tokens.drop s.first).take (s.last + 1 - s.first)).filter fun t =>
      access = .shared ∨ l.takenAt t.index = false := by
  rw [Ledger.offered_eq_filter, ← l.filter_tokens_between, List.filter_filter]
  refine List.filter_congr fun t _ => ?_
  simp [Span.mem_iff, Bool.and_comm]

theorem take_take {a b : Nat} (h : a ≤ b) : (l.take ⟨a, a⟩).take ⟨a + 1, b⟩ = l.take ⟨a, b⟩ := by
  have hEntries : ((l.take ⟨a, a⟩).take ⟨a + 1, b⟩).entries = (l.take ⟨a, b⟩).entries := by
    simp only [Ledger.take, List.map_map]
    refine List.map_congr_left fun e _ => ?_
    simp only [Function.comp_apply, Span.mem_iff]
    grind
  generalize (l.take ⟨a, a⟩).take ⟨a + 1, b⟩ = m at hEntries ⊢
  cases m
  cases hEntries
  rfl

/-- What is offered of a span is offered of its first position and then of those behind it. -/
theorem offered_eq_append {first n : Nat} {e : LedgerEntry} (he : l.entries[first]? = some e)
    (access : Access) : l.offered ⟨first, first + n⟩ access =
      (if access = .exclusive ∧ e.taken = true then [] else [e.token]) ++
        ((l.tokens.drop (first + 1)).take n).filter fun t =>
          access = .shared ∨ l.takenAt t.index = false := by
  have hToken : l.tokens[first]? = some e.token := by rw [Ledger.tokens, List.getElem?_map, he]; rfl
  obtain ⟨hlt, hGet⟩ := List.getElem?_eq_some_iff.mp hToken
  have hTaken : l.takenAt e.token.index = e.taken := by rw [Ledger.index_getElem? he, Ledger.takenAt, he]; rfl
  have hCount : first + n + 1 - first = n + 1 := by omega
  rw [offered_eq_stretch, hCount, List.drop_eq_getElem_cons hlt, hGet, List.take_succ_cons,
    List.filter_cons, hTaken]
  cases access <;> cases e.taken <;> rfl

theorem exists_entry_of_lt {i : Nat} (h : i < l.size) : ∃ e, l.entries[i]? = some e :=
  ⟨l.entries.get ⟨i, h⟩, List.getElem?_eq_getElem h⟩

theorem takenAt_take_of_lt {i k : Nat} (h : i < k) : (l.take ⟨i, i⟩).takenAt k = l.takenAt k := by
  rw [Bool.eq_iff_iff, Ledger.takenAt_take, Span.mem_iff]
  simp only
  constructor
  · rintro (hTaken | ⟨⟨_, hle⟩, _⟩)
    · exact hTaken
    · omega
  · exact Or.inl

/-- Positions from some place on, taken one after the other, are taken as the span that they make up. -/
theorem takeEach_eq (access : Access) (first n : Nat) (hn : first + n < l.size) :
    takeEach access (List.range' first (n + 1)) l =
      .ok (l.offered ⟨first, first + n⟩ access, l.take ⟨first, first + n⟩) := by
  induction n generalizing first l with
  | zero =>
      obtain ⟨e, he⟩ := exists_entry_of_lt (show first < l.size from hn)
      rw [offered_eq_append (n := 0) he, List.range'_succ, List.range'_zero, takeEach, he]
      simp only [Fault.unless, ok_bind, takeEach, pure_eq_ok, List.take_zero, List.filter_nil,
        List.append_nil, Nat.add_zero]
      split <;> rfl
  | succ n ih =>
      obtain ⟨e, he⟩ := exists_entry_of_lt (show first < l.size by omega)
      have hEnd : first + 1 + n = first + (n + 1) := by omega
      have hCount : first + (n + 1) + 1 - (first + 1) = n + 1 := by omega
      have hRest := ih (l := l.take ⟨first, first⟩) (first + 1) (by rw [Ledger.size_take]; omega)
      rw [hEnd, take_take (by omega), offered_eq_stretch, Ledger.tokens_take, hCount] at hRest
      -- the first position is not among the others, so that taking it makes no difference to them
      have hOthers : (((l.tokens.drop (first + 1)).take (n + 1)).filter fun t =>
            access = .shared ∨ (l.take ⟨first, first⟩).takenAt t.index = false) =
          ((l.tokens.drop (first + 1)).take (n + 1)).filter fun t =>
            access = .shared ∨ l.takenAt t.index = false := by
        refine List.filter_congr fun t ht => ?_
        obtain ⟨i, hi⟩ := List.getElem?_of_mem (List.mem_of_mem_take ht)
        rw [List.getElem?_drop] at hi
        have hIndex := Ledger.index_of_getElem?_tokens hi
        rw [takenAt_take_of_lt (show first < t.index by omega)]
      rw [hOthers] at hRest
      rw [List.range'_succ, takeEach, he, Fault.unless, ok_bind, hRest, ok_bind, offered_eq_append he]
      simp only [pure_eq_ok]
      split <;> rfl

theorem claim_eq (r : SourceRange) (access : Access) : claim l r access = .ok (l.claim r access) := by
  rw [claim, Ledger.claim]
  cases hs : l.resolve r with
  | error e => rfl
  | ok s =>
      obtain ⟨_, hLast, hle⟩ := Ledger.resolve_eq_ok_iff.mp hs
      obtain ⟨n, hn⟩ := Nat.exists_eq_add_of_le hle
      have hCount : s.last + 1 - s.first = n + 1 := by omega
      have hSpan : (⟨s.first, s.first + n⟩ : Span) = s := by rw [← hn]
      simp only [hCount]
      rw [takeEach_eq access s.first n (hn ▸ Ledger.slot?_lt_size hLast), hSpan]
      rfl

theorem tokenAt?_eq (location : Nat) : tokenAt? l location = .ok (l.tokenAt? location) := by
  rw [tokenAt?, Ledger.slot?]
  cases ht : l.tokenAt? location with
  | none => rfl
  | some t =>
      have hMem := (Ledger.tokenAt?_eq_some_iff.mp ht).1
      have hAt := Ledger.getElem?_tokens_index hMem
      rw [Ledger.tokens, List.getElem?_map, Option.map_eq_some_iff] at hAt
      obtain ⟨e, he, rfl⟩ := hAt
      simp only [Option.map_some, he]
      rfl

end Tokens

end UnitGraph.Checked
