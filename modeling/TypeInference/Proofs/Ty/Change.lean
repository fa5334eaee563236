import TypeInference.Proofs.Ty.Confinement
import TypeInference.Proofs.Ty.Copy
import TypeInference.Proofs.Ty.PinnedCopy

/-!
# `Proofs.Ty.Change` — changes of a store, one after another

New variables, new constructors, copies and unifications are all that happens to a store, short of going back. What
each of them does is the same from far enough away: nodes are added, unbound variables are bound, and the trail
grows by just the variables that have been bound (`Accrues`). This holds of every store and of every number that a
change is given, if only the change comes to an end, and of a unification that clashes on the way as well.

A change that is given types of a store without dangling numbers and without cycles does come to an end, and leaves
such a store.

## Contents
* `Change`, `Change.run`, `Change.Inside` — the changes, what they do, and the types that they are given;
* `Store.Accrues`, `Change.accrues` — what every change keeps;
* `Grounded.exists_run`, `Store.Changes` — changes of a grounded store, and sequences of them.
-/

namespace TypeInference

/-! ## Changes -/

/-- What can be done to a store, short of going back. Bindings do not stand by themselves here, because the analysis
    makes none but by unification. -/
inductive Change
  | newVar
  | operator (con : Constructor) (args : List TypeId)
  /-- A copy of `ty` with new variables for those that are part of no type in `pinned`. -/
  | instantiate (pinned : List TypeId) (ty : TypeId)
  | unify (a b : TypeId)

namespace Change

/-- The store after a change. A unification that clashes is a change as well: what it has bound stays bound. -/
def run (s : Store) : Change → Except Fault Store
  | .newVar => .ok s.newVar.2
  | .operator con args => .ok (s.operator con args).2
  | .instantiate pinned ty => Prod.snd <$> s.instantiate pinned ty
  | .unify a b =>
    match Store.unify a b s with
    | .ok _ s' => .ok s'
    | .error (.failure _) s' => .ok s'
    | .error (.fault f) _ => .error f

/-- Every type that the change is given lies in the store. This is all that has to be asked for the change to come
    to an end. -/
def Inside (s : Store) : Change → Prop
  | .newVar => True
  | .operator _ args => ∀ a ∈ args, a.index < s.size
  | .instantiate pinned ty => (∀ p ∈ pinned, p.index < s.size) ∧ ty.index < s.size
  | .unify a b => a.index < s.size ∧ b.index < s.size

end Change

namespace Store

variable {s s' s'' : Store}

/-! ## What every change keeps -/

/-- Nodes and bindings have been added, and the trail has grown by variables that are bound: of the store, by just
    those that have been bound since. Variables that are newer may be on the trail as well; going back drops them
    anyway. -/
structure Accrues (s s' : Store) : Prop extends Persists s s' where
  trail : ∃ since, s'.trail = since ++ s.trail ∧ (∀ v ∈ since, s'.IsBound v) ∧
    ∀ v : TypeId, v.index < s.size → (v ∈ since ↔ s.IsUnbound v ∧ ¬ s'.IsUnbound v)

namespace Accrues

theorem refl (s : Store) : Accrues s s := ⟨.refl s, [], rfl, by simp, by simp⟩

theorem trans (h : Accrues s s') (h' : Accrues s' s'') : Accrues s s'' where
  toPersists := h.toPersists.trans h'.toPersists
  trail := by
    obtain ⟨first, htrail, hbound, hfirst⟩ := h.trail
    obtain ⟨second, htrail', hbound', hsecond⟩ := h'.trail
    refine ⟨second ++ first, by rw [htrail', htrail, List.append_assoc], fun v hv => ?_, fun v hlt => ?_⟩
    · rcases List.mem_append.mp hv with hv | hv
      · exact hbound' v hv
      · obtain ⟨target, hget⟩ := hbound v hv
        exact ⟨target, h'.kept hget (by simp)⟩
    · have hback := h.isUnbound_of_isUnbound hlt
      have hback' := h'.isUnbound_of_isUnbound (hlt.trans_le h.size_le)
      rw [List.mem_append, hfirst v hlt, hsecond v (hlt.trans_le h.size_le)]
      tauto

theorem allocate (s : Store) (node : Node) : Accrues s (s.allocate node).2 := by
  refine ⟨.allocate s node, [], rfl, by simp, fun v hlt => ?_⟩
  rw [IsUnbound, IsUnbound, get_allocate_of_lt hlt]
  simp

end Accrues

/-- Bindings inside a region are noted on the trail. -/
theorem Confined.accrues {region : Set TypeId} (h : Confined region s s') : Accrues s s' := by
  obtain ⟨since, htrail, -, hmem⟩ := h.trail
  refine ⟨h.persists, since, htrail, fun v hv => ((hmem v).mp hv).2, fun v _ => ?_⟩
  rw [hmem]
  refine and_congr_right fun hunbound => ?_
  rcases h.node v with hsame | ⟨-, hbound, -⟩
  · have hstill : s'.IsUnbound v := hsame.trans hunbound
    exact ⟨fun hbound => absurd hbound hstill.not_isBound, fun hnot => absurd hstill hnot⟩
  · exact ⟨fun _ hv => hv.not_isBound hbound, fun _ => hbound⟩

end Store

/-! ## One change -/

variable {s s' : Store} {change : Change}

/-- **Every change that ends** has added nodes and bindings, and has noted the bindings. A unification that clashes
    counts as ended: what it bound before the clash is on the trail. -/
theorem Change.accrues (h : change.run s = .ok s') : s.Accrues s' := by
  cases change with
  | newVar =>
    cases h
    exact .allocate _ _
  | operator con args =>
    cases h
    exact .allocate _ _
  | instantiate pinned ty =>
    cases hcopy : s.instantiate pinned ty with
    | error fault => rw [run, hcopy] at h; cases h
    | ok made =>
      rw [run, hcopy] at h
      cases h
      obtain ⟨⟨copy, c⟩, hrun, hmade⟩ := exists_of_bind_eq_ok hcopy
      cases hmade
      exact Copying.store_of_copyWithin .refl .trans .allocate hrun
  | unify a b =>
    -- All types together are a region.
    have hall : s.Closed Set.univ := fun _ _ => Set.mem_univ _
    have hstays := Store.unify_confined hall (Set.mem_univ a) (Set.mem_univ b)
    rw [run] at h
    cases hunify : Store.unify a b s with
    | ok _ final =>
      rw [hunify] at h
      cases h
      exact (hstays.ok hunify).1.accrues
    | error reason final =>
      rw [hunify] at h
      cases reason with
      | fault f => cases h
      | failure clash =>
        cases h
        exact (hstays.error hunify).1.accrues

namespace Store

/-- **A change that is given types of a grounded store** ends, in a grounded store. -/
theorem Grounded.exists_run (h : s.Grounded) (hinside : change.Inside s) :
    ∃ s', change.run s = .ok s' ∧ s'.Grounded := by
  cases change with
  | newVar => exact ⟨_, rfl, h.allocate (by simp [Node.refs])⟩
  | operator con args => exact ⟨_, rfl, h.allocate hinside⟩
  | instantiate pinned ty =>
    obtain ⟨copy, s', name, hrun, hrenews⟩ := h.instantiate_renews hinside.1 hinside.2
    exact ⟨s', by rw [Change.run, hrun]; rfl, hrenews.appends.grounded⟩
  | unify a b =>
    have hadds := h.unify_adds hinside.1 hinside.2
    cases hunify : unify a b s with
    | ok _ s' => exact ⟨s', by rw [Change.run, hunify], (hadds.ok hunify).1.grounded⟩
    | error reason s' =>
      obtain ⟨hassigns, hfailure, -⟩ := hadds.error hunify
      cases reason with
      | fault f => exact hfailure.elim
      | failure clash => exact ⟨s', by rw [Change.run, hunify], hassigns.grounded⟩

/-! ## Changes one after another -/

/-- The store `s'` comes from `s` by changes, each of which is given types of the store that it finds. -/
inductive Changes (s : Store) : Store → Prop
  | refl : Changes s s
  | next {s' s'' : Store} {change : Change} :
      Changes s s' → change.Inside s' → change.run s' = .ok s'' → Changes s s''

/-- **Changes of a grounded store** leave a grounded store, which has everything that there was. By induction on the
    sequence. -/
theorem Changes.grounded (h : Changes s s') (hs : s.Grounded) : s'.Grounded ∧ s.Accrues s' := by
  induction h with
  | refl => exact ⟨hs, .refl s⟩
  | next _ hinside hrun ih =>
    obtain ⟨found, hfound, hgrounded⟩ := ih.1.exists_run hinside
    cases hfound.symm.trans hrun
    exact ⟨hgrounded, ih.2.trans (Change.accrues hrun)⟩

end Store

end TypeInference
