import TypeInference.Proofs.Ty.Solution

/-!
# `Proofs.Ty.Persistence` — what every run does to a store

A run may stop at any point, and may have been given numbers that mean nothing. Even so a store only grows, and
no node is changed but an unbound variable that gets bound. `Persists` is this much and no more. What was seen of
the store is seen for ever: arrows, paths and shown constructors stay, and once all walks come to an end, a type has
the tree that it had, with trees for its variables.

An answer tells something about the store whenever there is one, also where a walk might not have come to an end.

## Contents
* `Persists`, with `Persists.allocate` and what it keeps, up to `Persists.tree_congr`;
* `shows_of_view`, `exists_shows_of_operator?`, `eq_true_of_isPinned` — answers are right whenever there are any.
-/

namespace TypeInference

open Relation

namespace Store

variable {s s' s'' : Store}

/-! ## Stores that only grow -/

/-- The store has grown, and no node has been changed but unbound variables. It asks for no well-formed store, and a
    run that stops half way has it as well. -/
structure Persists (s s' : Store) : Prop where
  size_le : s.size ≤ s'.size
  kept : ∀ {id node}, s.get id = .ok node → node ≠ .var none → s'.get id = .ok node

namespace Persists

theorem refl (s : Store) : Persists s s := ⟨Nat.le_refl _, fun hget _ => hget⟩

theorem trans (h : Persists s s') (h' : Persists s' s'') : Persists s s'' :=
  ⟨h.size_le.trans h'.size_le, fun hget hnode => h'.kept (h.kept hget hnode) hnode⟩

theorem allocate (s : Store) (node : Node) : Persists s (s.allocate node).2 :=
  ⟨by rw [size_allocate]; exact Nat.le_succ _, fun hget _ => (get_allocate_of_lt (lt_of_get hget)).trans hget⟩

/-! ## Arrows, paths and what is shown -/

theorem refers (h : Persists s s') {a b : TypeId} (hr : s.Refers a b) : s'.Refers a b := by
  obtain ⟨node, hget, hb⟩ := hr
  refine ⟨node, h.kept hget ?_, hb⟩
  rintro rfl
  simp [Node.refs] at hb

theorem reaches (h : Persists s s') {a b : TypeId} (hr : s.Reaches a b) : s'.Reaches a b :=
  ReflTransGen.mono (fun _ _ => h.refers) _ _ hr

/-- What is unbound in the end has always been, for no variable is ever unbound again while a store only grows. -/
theorem isUnbound_of_isUnbound (h : Persists s s') {v : TypeId} (hlt : v.index < s.size) (hv : s'.IsUnbound v) :
    s.IsUnbound v := by
  obtain ⟨node, hget⟩ := exists_get_iff.mpr hlt
  by_cases hnode : node = .var none
  · rwa [hnode] at hget
  · exact absurd (Except.ok.inj ((h.kept hget hnode).symm.trans hv)) hnode

/-- A constructor that is shown stays shown, at the same place and with the same components. This is why what an
    analysis has once found out about a type need not be asked again. -/
theorem shows_op (h : Persists s s') {a r : TypeId} {con : Constructor} {args : List TypeId}
    (hv : s.Shows a (.op r con args)) : s'.Shows a (.op r con args) := by
  generalize hview : View.op r con args = v at hv
  induction hv with
  | var _ => cases hview
  | op hr => cases hview; exact .op (h.kept hr (by simp))
  | bound hb _ ih => exact .bound (h.kept hb (by simp)) (ih hview)

/-! ## Trees and readings -/

/-- A type goes on having the tree of what it showed, though that tree may have changed with the store. -/
theorem tree_shows (h : Persists s s') (hg : s'.Grounded) {a : TypeId} {v : View} (hv : s.Shows a v) :
    s'.tree a = s'.tree v.id := by
  induction hv with
  | var _ | op _ => rfl
  | bound hb _ ih => rw [hg.tree_bound (h.kept hb (by simp)), ih]

/-- A reading of the later store reads the earlier one: later stores have more equations. A solution found at the
    end is therefore one for every moment before. -/
theorem reads (h : Persists s s') {reading : TypeId → Tree} (hreads : s'.Reads reading) : s.Reads reading where
  bound := fun hget => hreads.bound (h.kept hget (by simp))
  op := fun hget => hreads.op (h.kept hget (by simp))

/-- **A later tree is an instance of the earlier one**: its variables have given way to their trees in the later
    store. -/
theorem tree_eq_subst (h : Persists s s') (hs : s.Grounded) (hs' : s'.Grounded) {a : TypeId} (ha : a.index < s.size) :
    s'.tree a = (s.tree a).subst s'.tree :=
  (hs.value_eq (h.reads hs'.reads_tree) (fun _ _ => rfl) ha).symm

/-- Types that have one tree go on having one tree. -/
theorem tree_congr (h : Persists s s') (hs : s.Grounded) (hs' : s'.Grounded) {a b : TypeId} (ha : a.index < s.size)
    (hb : b.index < s.size) (heq : s.tree a = s.tree b) : s'.tree a = s'.tree b := by
  rw [h.tree_eq_subst hs hs' ha, h.tree_eq_subst hs hs' hb, heq]

end Persists

/-! ## Answers -/

/-- Where the walk along bindings ends there is no binding, and the type shows what stands there. It is not supposed
    that the walk ends, nor that the store is grounded. -/
theorem shows_of_rootWithin : ∀ {fuel : Nat} {a r : TypeId}, s.rootWithin fuel a = .ok r →
    (s.IsUnbound r ∨ ∃ con args, s.get r = .ok (.op con args)) ∧ ∀ v, s.Shows r v → s.Shows a v := by
  intro fuel
  induction fuel with
  | zero => intro a r h; cases h
  | succ fuel ih =>
    intro a r h
    cases hget : s.get a with
    | error fault => simp [rootWithin, binding?, hget] at h
    | ok node =>
      cases node with
      | op con args =>
        obtain rfl : a = r := by simpa [rootWithin, binding?, hget] using h
        exact ⟨.inr ⟨con, args, hget⟩, fun _ hv => hv⟩
      | var bound =>
        cases bound with
        | none =>
          obtain rfl : a = r := by simpa [rootWithin, binding?, hget] using h
          exact ⟨.inl hget, fun _ hv => hv⟩
        | some b =>
          obtain ⟨hend, hshows⟩ := ih (by simpa [rootWithin, binding?, hget] using h)
          exact ⟨hend, fun v hv => .bound hget (hshows v hv)⟩

/-- **A view that is answered is right**, also in a store of which nothing else is known. -/
theorem shows_of_view {a : TypeId} {v : View} (h : s.view a = .ok v) : s.Shows a v := by
  obtain ⟨r, hroot, h⟩ := exists_of_bind_eq_ok h
  obtain ⟨hend, hshows⟩ := shows_of_rootWithin hroot
  rcases hend with hunbound | ⟨con, args, hget⟩
  · rw [show s.get r = .ok (.var none) from hunbound] at h
    cases h
    exact hshows _ (.var hunbound)
  · rw [hget] at h
    cases h
    exact hshows _ (.op hget)

/-- A constructor that is answered is shown. -/
theorem exists_shows_of_operator? {a : TypeId} {con : Constructor} {args : List TypeId}
    (h : s.operator? a = .ok (some (con, args))) : ∃ r, s.Shows a (.op r con args) := by
  rw [operator?] at h
  cases hview : s.view a with
  | error fault => rw [hview] at h; cases h
  | ok v =>
    rw [hview] at h
    cases v with
    | var x => cases h
    | op r con args =>
      cases h
      exact ⟨r, shows_of_view hview⟩

/-- A constructor that is said to be there is shown, with some components. -/
theorem exists_shows_of_hasConstructor {a : TypeId} {con : Constructor} (h : s.hasConstructor con a = .ok true) :
    ∃ r args, s.Shows a (.op r con args) := by
  obtain ⟨v, hview, h⟩ := exists_of_bind_eq_ok h
  cases v with
  | var x => cases h
  | op r found args =>
    obtain rfl : found = con := of_decide_eq_true (Except.ok.inj h)
    exact ⟨r, args, shows_of_view hview⟩

/-! ## Answers that cannot be negative -/

/-- If one element makes the answer true, no answer is false. -/
theorem eq_true_of_anyM {α : Type} {f : α → Except Fault Bool} {x : α} (hx : ∀ b, f x = .ok b → b = true) :
    ∀ {xs : List α} {b : Bool}, x ∈ xs → xs.anyM f = .ok b → b = true
  | y :: ys, b, hmem, h => by
    rw [List.anyM] at h
    obtain ⟨found, hfound, h⟩ := exists_of_bind_eq_ok h
    cases found with
    | true => exact (Except.ok.inj h).symm
    | false =>
      rcases List.mem_cons.mp hmem with rfl | hmem
      · exact absurd (hx false hfound) Bool.false_ne_true
      · exact eq_true_of_anyM hx hmem h

/-- No answer denies an occurrence that is there. By induction on the fuel, along the path to the variable. -/
theorem eq_true_of_occursWithin {x : TypeId} (hx : s.IsUnbound x) : ∀ {fuel : Nat} {a : TypeId} {b : Bool},
    s.Reaches a x → s.occursWithin x fuel a = .ok b → b = true := by
  intro fuel
  induction fuel with
  | zero => intro a b _ h; cases h
  | succ fuel ih =>
    intro a b hr h
    obtain ⟨v, hview, h⟩ := exists_of_bind_eq_ok h
    have hv := shows_of_view hview
    cases v with
    | var y =>
      obtain rfl : x = y := eq_of_reaches_unbound hv.isUnbound (hv.reaches_of_reaches hx hr)
      exact (Except.ok.inj h).symm.trans (decide_eq_true rfl)
    | op r con args =>
      obtain ⟨arg, harg, hreaches⟩ := (hv.reaches_op_iff hx).mp hr
      exact eq_true_of_anyM (fun _ => ih hreaches) harg h

/-- **A variable of a pinned type is pinned**, if that is answered at all. This is the half that copying relies on
    when it leaves a variable alone. -/
theorem eq_true_of_isPinned {x p : TypeId} {pinned : List TypeId} {b : Bool} (hx : s.IsUnbound x)
    (hp : p ∈ pinned) (hr : s.Reaches p x) (h : s.isPinned pinned x = .ok b) : b = true :=
  eq_true_of_anyM (fun _ => eq_true_of_occursWithin hx hr) hp h

end Store

end TypeInference
