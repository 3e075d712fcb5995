import UnitGraph.Proofs.Assembly.Tracks

/-!
# Actions that follow an agenda

An action follows an agenda if it never faults, gives one and the same result whenever it is run, and takes
an assembly that tracks a history to one that tracks what the agenda makes of it. Actions in sequence follow
agendas in sequence.
-/
namespace UnitGraph

/-- The entities that a declaration can be. -/
inductive Entity.Role (d : DeclId) : Entity → Prop
  | decl : Role d (.decl d)
  | record : Role d (.record d)
  | enum : Role d (.enum d)
  | typedef : Role d (.typedef d)
  | function (site : Nat) : Role d (.function site d)

/-- Whatever its role, a declaration claims its own range under its own name. -/
theorem Entity.Role.range_label {u : SourceUnit} {d : DeclId} {decl : Decl} {e : Entity} (h : Role d e)
    (hd : u.decl? d = some decl) : e.range? u = some decl.range ∧ e.label u = decl.name.text := by
  cases h <;> simp [range?, label, SourceUnit.nameOf, hd]

namespace Job

open Traversal Assembling

/-- The action does what the agenda says and has a fixed result. Its depth must be enough for all entities
that have not been entered yet. -/
def Follows (j : Job) (tops : List NodeId) (drafts : List (Entity × Node)) (depth : Nat) {α : Type}
    (act : Assembling α) (items : List (Item Entity Mark)) (x : α) : Prop :=
  ∀ h a, j.Tracks tops drafts h a → j.Reached (j.after h items) →
    j.entities.length < depth + (entered h).length →
    ∃ a', act a = .ok (x, a') ∧ j.Tracks tops drafts (j.after h items) a'

variable {j : Job} {tops : List NodeId} {drafts : List (Entity × Node)} {depth : Nat} {α β : Type}

theorem bind_run {act : Assembling α} {f : α → Assembling β} {x : α} {a a' : Assembly}
    (h : act a = .ok (x, a')) : (act >>= f) a = f x a' := by
  change act a >>= (fun p => f p.1 p.2) = f x a'
  rw [h]
  rfl

theorem lift_bind (x : α) (f : α → Assembling β) :
    ((liftM (Except.ok x : Except Fault α) : Assembling α) >>= f) = f x := rfl

namespace Follows

theorem pure (x : α) : j.Follows tops drafts depth (Pure.pure x) [] x := by
  intro h a ht _ _
  exact ⟨a, rfl, by rwa [after_nil]⟩

/-- There is nothing left to enter for which no depth is left. -/
theorem zero {act : Assembling α} {items : List (Item Entity Mark)} {x : α} :
    j.Follows tops drafts 0 act items x := by
  intro h a _ hr hDepth
  have := hr.before.length_le
  omega

theorem mono {depth' : Nat} (hle : depth' ≤ depth) {act : Assembling α} {items : List (Item Entity Mark)}
    {x : α} (hx : j.Follows tops drafts depth act items x) : j.Follows tops drafts depth' act items x := by
  intro h a ht hr hDepth
  exact hx h a ht hr (by omega)

theorem bind {act : Assembling α} {f : α → Assembling β} {xs ys : List (Item Entity Mark)} {x : α} {y : β}
    (hx : j.Follows tops drafts depth act xs x) (hy : j.Follows tops drafts depth (f x) ys y) :
    j.Follows tops drafts depth (act >>= f) (xs ++ ys) y := by
  intro h a ht hr hDepth
  rw [after_append] at hr ⊢
  obtain ⟨a₁, hRun₁, ht₁⟩ := hx h a ht hr.before hDepth
  have hMore : (entered h).length ≤ (entered (j.after h xs)).length := by
    rw [entered_after, List.length_append]
    exact Nat.le_add_right ..
  obtain ⟨a₂, hRun₂, ht₂⟩ := hy _ a₁ ht₁ hr (by omega)
  exact ⟨a₂, (bind_run hRun₁).trans hRun₂, ht₂⟩

/-- The result of an action that follows an agenda may be worked upon. -/
theorem map {act : Assembling α} {items : List (Item Entity Mark)} {x : α}
    (hx : j.Follows tops drafts depth act items x) (f : α → β) :
    j.Follows tops drafts depth (act >>= fun x => Pure.pure (f x)) items (f x) := by
  simpa using hx.bind (f := fun x => Pure.pure (f x)) (.pure (f x))

theorem mapM {f : α → Assembling β} {items : α → List (Item Entity Mark)} {g : α → β} {xs : List α}
    (hf : ∀ x ∈ xs, j.Follows tops drafts depth (f x) (items x) (g x)) :
    j.Follows tops drafts depth (xs.mapM f) (xs.flatMap items) (xs.map g) := by
  induction xs with
  | nil => exact .pure []
  | cons x xs ih =>
      have hTail := ih fun y hy => hf y (List.mem_cons_of_mem x hy)
      rw [List.mapM_cons, List.flatMap_cons, List.map_cons]
      exact (hf x List.mem_cons_self).bind (hTail.map _)

/-- Visits in sequence. -/
theorem mapM_visit {f : α → Assembling β} {e : α → Entity} {g : α → β} {xs : List α}
    (hf : ∀ x ∈ xs, j.Follows tops drafts depth (f x) [.visit (e x)] (g x)) :
    j.Follows tops drafts depth (xs.mapM f) (xs.map (.visit <| e ·)) (xs.map g) := by
  rw [List.map_eq_flatMap]
  exact mapM hf

theorem mapM_option {f : α → Assembling β} {e : α → Entity} {g : α → β} {x : Option α}
    (hf : ∀ y, x = some y → j.Follows tops drafts depth (f y) [.visit (e y)] (g y)) :
    j.Follows tops drafts depth (x.mapM f) (x.toList.map (.visit <| e ·)) (x.map g) := by
  cases x with
  | none => exact .pure none
  | some y => exact (hf y rfl).map some

/-- What an action reads may be replaced by what it finds on every assembly that is on track. -/
theorem of_run {act act' : Assembling α} {items : List (Item Entity Mark)} {x : α}
    (hRun : ∀ h a, j.Tracks tops drafts h a → act a = act' a)
    (hx : j.Follows tops drafts depth act' items x) : j.Follows tops drafts depth act items x := by
  intro h a ht hr hDepth
  rw [hRun h a ht]
  exact hx h a ht hr hDepth

end Follows

section Steps

variable {h : History} {a : Assembly}

/-- Looking up the token of a location works as on the ledger of the unit. -/
theorem tokenAt_run (ht : j.Tracks tops drafts h a) (location : Nat) (f : Option Token → Assembling α) :
    (do let token ← Checked.tokenAt? (← get).ledger location; f token : Assembling α) a =
      f (j.unit.ledger.tokenAt? location) a := by
  have hToken : a.ledger.tokenAt? location = j.unit.ledger.tokenAt? location := by
    rw [Ledger.tokenAt?_eq_find?, ht.tokens_ledger, ← Ledger.tokenAt?_eq_find?]
  change (Checked.tokenAt? a.ledger location >>= fun token => pure (token, a)) >>= (fun p => f p.1 p.2) = _
  rw [Checked.tokenAt?_eq, hToken]
  rfl

theorem claim_eq_match (r : SourceRange) (access : Access) (owner : String) (a : Assembly) :
    claim r access owner a = match a.ledger.claim r access with
      | .ok (tokens, rest) => .ok (tokens, { a with ledger := rest })
      | .error e => .ok ([], { a with diagnostics := a.diagnostics ++ [e.diagnostic owner r] }) := by
  change ((Checked.claim a.ledger r access >>= fun c => pure (c, a)) >>= fun p => _) = _
  rw [Checked.claim_eq]
  cases a.ledger.claim r access <;> rfl

theorem claim_run {e : Entity} {access : Access} {owner : String} (hAccess : e.access = access)
    (hOwner : e.label j.unit = owner) (r : SourceRange) (a : Assembly) :
    claim r access owner a =
      .ok (holdings [(j.unit.settleAt a.ledger r (.claim e)).1] e, a.settle j.unit r (.claim e)) := by
  subst hAccess hOwner
  rw [claim_eq_match, Assembly.settle, SourceUnit.settleAt]
  cases a.ledger.claim r e.access <;> simp [holdings, reports]

/-- What an entity is granted by its only claim. -/
theorem grant_eq_holdings (ht : j.Tracks tops drafts h a) {e : Entity} {r : SourceRange}
    (hRange : e.range? j.unit = some r) (hOnce : (marks j.events).count (.claim e) ≤ 1)
    (hr : j.Reached (h ++ [.marked (.claim e)])) :
    holdings [(j.unit.settleAt a.ledger r (.claim e)).1] e = holdings j.outcomes e := by
  rw [← held_of_claimed hOnce hr (by simp), ht.held_marked (m := .claim e) hRange,
    held_of_not_claimed (not_claimed_before hOnce hr), List.nil_append]

/-- An entity claims while its node is a draft. -/
theorem follows_claim {e : Entity} {r : SourceRange} {owner : String} {n : Node}
    (hOwn : j.claimsItself e = true) (hRange : e.range? j.unit = some r) (hOwner : e.label j.unit = owner) :
    j.Follows tops ((e, n) :: drafts) depth (claim r e.access owner) [.mark (.claim e)]
      (holdings j.outcomes e) := by
  intro h a ht hr _
  rw [after_mark] at hr ⊢
  have hGrant := grant_eq_holdings ht hRange (count_claim_of_claimsItself hOwn) hr
  refine ⟨_, by rw [claim_run rfl hOwner, hGrant], ht.mark hRange ?_ ?_⟩
  · intro e' hEq _
    cases hEq
    exact ⟨n, List.mem_cons_self⟩
  · intro d hEq
    cases hEq
    cases hOwn

/-- A function that is skipped gives its tokens away. -/
theorem follows_skip {d : DeclId} {decl : Decl} (hd : j.unit.decl? d = some decl) :
    j.Follows tops drafts depth (discard (claim decl.range .exclusive decl.name.text))
      [.mark (.skip d)] () := by
  intro h a ht _ _
  have hRange : j.unit.rangeOf (.skip d) = some decl.range := by simp [SourceUnit.rangeOf, hd]
  have hName : j.unit.nameOf d = decl.name.text := by simp [SourceUnit.nameOf, hd]
  have hRun : discard (claim decl.range .exclusive decl.name.text) a =
      .ok ((), a.settle j.unit decl.range (.skip d)) := by
    change (claim decl.range .exclusive decl.name.text a >>= fun p => pure ((), p.2)) = _
    rw [claim_eq_match, Assembly.settle, SourceUnit.settleAt, Ledger.discard, hName]
    cases a.ledger.claim decl.range .exclusive <;> simp [reports, Except.map]
  rw [after_mark]
  exact ⟨_, hRun, ht.mark hRange (fun e hEq => by cases hEq) (fun d hEq => by cases hEq)⟩

/-- A function without a flow graph is reported. -/
theorem follows_report {d : DeclId} {decl : Decl} (hd : j.unit.decl? d = some decl) (e : FlowError) :
    j.Follows tops drafts depth (report (e.diagnostic decl.name.text decl.range))
      [.mark (.noFlow d e)] () := by
  intro h a ht _ _
  have hRange : j.unit.rangeOf (.noFlow d e) = some decl.range := by simp [SourceUnit.rangeOf, hd]
  have hName : j.unit.nameOf d = decl.name.text := by simp [SourceUnit.nameOf, hd]
  have hRun : report (e.diagnostic decl.name.text decl.range) a =
      .ok ((), a.settle j.unit decl.range (.noFlow d e)) := by
    rw [Assembly.settle, SourceUnit.settleAt, hName]
    rfl
  rw [after_mark]
  exact ⟨_, hRun, ht.mark hRange (fun e hEq => by cases hEq) (fun d hEq => by cases hEq)⟩

theorem update_run {id : NodeId} {n : Node} (hGet : a.arena.get? id = some n) (f : Node → Node) :
    update id f a = .ok ((), { a with arena := a.arena.set id (f n) }) := by
  change ((Fault.unless _ (a.arena.get? id) >>= fun n => pure (n, a)) >>= fun p => _) = _
  rw [hGet]
  rfl

theorem build_run (e : Entity) (draft : Node) (rest : Assembling (Node → Node)) (a : Assembly) :
    build e draft rest a =
      (do
        let complete ← rest
        update ⟨a.arena.size⟩ complete
        pure ⟨a.arena.size⟩ : Assembling NodeId)
      { a with arena := a.arena.push draft, registry := a.registry.insert e ⟨a.arena.size⟩ } := rfl

theorem once_run_of_some {e : Entity} {id : NodeId} (h : a.registry.get? e = some id)
    (fresh : Assembling NodeId) : once e fresh a = .ok (id, a) := by
  rw [once, bind_run (show (get : Assembling Assembly) a = .ok (a, a) from rfl), h]
  rfl

theorem once_run_of_none {e : Entity} (h : a.registry.get? e = none) (fresh : Assembling NodeId) :
    once e fresh a = fresh a := by
  rw [once, bind_run (show (get : Assembling Assembly) a = .ok (a, a) from rfl), h]

/-- The node of an entity is there already, or it is built as a draft, and what completes it follows the
agenda of the entity. -/
theorem follows_once {e : Entity} {fresh : Assembling NodeId} {draft : Node}
    {rest : Assembling (Node → Node)} {complete : Node → Node} (he : e ∈ j.entities)
    (hFunction : isFunction e = false)
    (hFresh : ∀ h a, j.Tracks tops drafts h a → fresh a = build e draft rest a)
    (hRest : j.Follows tops ((e, draft) :: drafts) depth rest (j.agenda e) complete)
    (hNode : ∀ h, e ∉ entered h → j.Reached (j.after h [.visit e]) →
      (∀ d, .claim (.decl d) ∈ marks h → .decl d ∈ entered h) →
      complete draft = j.nodeOf j.idOf (j.held (j.after h [.visit e]) e) e) :
    j.Follows tops drafts (depth + 1) (once e fresh) [.visit e] (j.idOf e) := by
  intro h a ht hr hDepth
  have hRegistry := ht.registry e hFunction
  by_cases hs : e ∈ entered h
  · rw [if_pos hs] at hRegistry
    rw [after_visit_seen hs]
    exact ⟨a, once_run_of_some hRegistry fresh, ht⟩
  · rw [if_neg hs] at hRegistry
    have hClose := hNode h hs hr ht.claimed
    rw [once_run_of_none hRegistry, hFresh h a ht]
    rw [after_visit (mem_pool_of_mem_entities he) hs] at hr hClose ⊢
    have hNone : ∀ n, (e, n) ∉ drafts := fun n hn => hs (ht.draft e n hn).1
    -- the draft
    have hDraft : j.Tracks tops ((e, draft) :: drafts) (h ++ [.entered e])
        { a with arena := a.arena.push draft, registry := a.registry.insert e (j.idOf e) } := by
      refine ht.enter hr.before rfl ?_ (by simp [hFunction]) rfl
      intro e' _
      exact Registry.get?_insert hRegistry _ _
    -- the rest, which may come back to the draft
    obtain ⟨a', hRun, ht'⟩ := hRest _ _ hDraft hr (by simp; omega)
    obtain ⟨-, hGet⟩ := ht'.draft e draft List.mem_cons_self
    have hBuild : build e draft rest a =
        .ok (j.idOf e, { a' with arena := a'.arena.set (j.idOf e) (complete draft) }) := by
      rw [ht.idOf_new hr.before] at hRun hGet ⊢
      rw [build_run, bind_run hRun, bind_run (update_run hGet complete)]
      rfl
    refine ⟨_, hBuild, Tracks.close (e := e) ?_⟩
    rw [← hClose]
    exact ht'.rewrite hr hNone _

/-- The same for an entity that claims in its own agenda. -/
theorem follows_once_claiming {e : Entity} {fresh : Assembling NodeId} {draft : Node}
    {rest : Assembling (Node → Node)} {complete : Node → Node} (he : e ∈ j.entities)
    (hOwn : j.claimsItself e = true)
    (hFresh : ∀ h a, j.Tracks tops drafts h a → fresh a = build e draft rest a)
    (hRest : j.Follows tops ((e, draft) :: drafts) depth rest (j.agenda e) complete)
    (hNode : complete draft = j.nodeOf j.idOf (holdings j.outcomes e) e) :
    j.Follows tops drafts (depth + 1) (once e fresh) [.visit e] (j.idOf e) := by
  refine follows_once he ?_ hFresh hRest ?_
  · cases e with
    | function site d => cases hOwn
    | _ => rfl
  · intro h hs hr _
    rw [held_after_visit hOwn he hs hr, hNode]

end Steps

end Job

end UnitGraph
