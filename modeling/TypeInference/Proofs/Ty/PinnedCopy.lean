import TypeInference.Proofs.Ty.Instance

/-!
# `Proofs.Ty.PinnedCopy` — copies of pinned types

The copy of a pinned type shares every variable with it. If the copy is made at all, from whatever store, then the two
have one tree in every later store that has trees: nothing can tell them apart.

## Contents
* `exists_of_step`, `of_query` — copies that are made, step by step;
* `store_of_copyWithin` — what is true of new nodes is true of a copy;
* `Copying.IsShared`, `Copying.Copies` — what a copy has in common with the type, and what making it has done;
* `instantiate_persists`, `tree_of_instantiate` — copies, and copies of pinned types.
-/

namespace TypeInference

namespace Copying

open Store

variable {α β : Type} {pinned : List TypeId} {c c' c'' : Copying}

/-! ## Steps that have been made -/

theorem exists_of_step {m : Step α} {next : α → Step β} {b : β} (h : (m >>= next) c = .ok (b, c'')) :
    ∃ a c', m c = .ok (a, c') ∧ next a c' = .ok (b, c'') := by
  obtain ⟨⟨a, c'⟩, hm, hnext⟩ := exists_of_bind_eq_ok h
  exact ⟨a, c', hm, hnext⟩

theorem of_query {ask : Store → Except Fault α} {a : α} (h : query ask c = .ok (a, c')) :
    ask c.store = .ok a ∧ c' = c := by
  obtain ⟨a', hask, h⟩ := exists_of_bind_eq_ok (show (ask c.store >>= fun a => .ok (a, c)) = _ from h)
  cases h
  exact ⟨hask, rfl⟩

/-! ## Nodes are added -/

section Adding

variable {P : Store → Store → Prop} (hrefl : ∀ s, P s s) (htrans : ∀ {s s' s''}, P s s' → P s' s'' → P s s'')
  (hnew : ∀ s node, P s (s.allocate node).2)

include hrefl hnew in
/-- A variable gets a new copy, or has one. -/
theorem store_of_copyVar {x copy : TypeId} (h : copyVar x c = .ok (copy, c')) : P c.store c'.store := by
  cases hlookup : c.copies.lookup x with
  | some found =>
    cases (copyVar_of_some hlookup).symm.trans h
    exact hrefl _
  | none =>
    cases (copyVar_of_none hlookup).symm.trans h
    exact hnew _ _

include hrefl htrans in
theorem store_of_mapM {copyOne : TypeId → Step TypeId}
    (hcopy : ∀ {ty copy c c'}, copyOne ty c = .ok (copy, c') → P c.store c'.store) :
    ∀ {args copies : List TypeId} {c c' : Copying}, args.mapM copyOne c = .ok (copies, c') →
      P c.store c'.store := by
  intro args
  induction args with
  | nil =>
    intro copies c c' h
    cases h
    exact hrefl _
  | cons arg args ih =>
    intro copies c c' h
    rw [List.mapM_cons] at h
    obtain ⟨copy, c₁, hfirst, h⟩ := exists_of_step h
    obtain ⟨rest, c₂, hrest, h⟩ := exists_of_step h
    cases h
    exact htrans (hcopy hfirst) (ih hrest)

include hrefl htrans hnew in
/-- **Copying adds nodes**, from whatever store: what each new node keeps, a copy keeps. It is said for any relation
    `P` that is transitive, so persistence, and any other such fact, needs no induction of its own. -/
theorem store_of_copyWithin : ∀ {fuel : Nat} {ty copy : TypeId} {c c' : Copying},
    copyWithin pinned fuel ty c = .ok (copy, c') → P c.store c'.store := by
  intro fuel
  induction fuel with
  | zero => intro ty copy c c' h; cases h
  | succ fuel ih =>
    intro ty copy c c' h
    obtain ⟨v, c₁, hquery, h⟩ := exists_of_step h
    obtain ⟨-, rfl⟩ := of_query hquery
    cases v with
    | var x =>
      obtain ⟨pins, c₂, hquery, h⟩ := exists_of_step h
      obtain ⟨-, rfl⟩ := of_query hquery
      cases pins with
      | true =>
        cases h
        exact hrefl _
      | false => exact store_of_copyVar hrefl hnew h
    | op r con args =>
      cases args with
      | nil =>
        cases h
        exact hrefl _
      | cons arg rest =>
        obtain ⟨copies, c₂, hcopies, h⟩ := exists_of_step h
        cases h
        exact htrans (store_of_mapM hrefl htrans ih hcopies) (hnew _ _)

end Adding

theorem persists_of_copyWithin {fuel : Nat} {ty copy : TypeId} (h : copyWithin pinned fuel ty c = .ok (copy, c')) :
    c.store.Persists c'.store :=
  store_of_copyWithin .refl .trans .allocate h

/-! ## Copies of pinned types -/

/-- The copy has one tree with the type from now on, in every store that has trees. It is not said to be the same
    number: constructors are copied also where nothing below them is. -/
def IsShared (after : Store) (ty copy : TypeId) : Prop :=
  ∀ f : Store, f.Grounded → after.Persists f → copy.index < f.size ∧ f.tree copy = f.tree ty

theorem IsShared.mono {s s' : Store} {ty copy : TypeId} (h : IsShared s ty copy) (hs : s.Persists s') :
    IsShared s' ty copy :=
  fun f hf hpersists => h f hf (hs.trans hpersists)

theorem map_tree_of_shared {after f : Store} (hf : f.Grounded) (hpersists : after.Persists f)
    {args copies : List TypeId} (h : List.Forall₂ (IsShared after) args copies) :
    copies.map f.tree = args.map f.tree := by
  induction h with
  | nil => rfl
  | cons hone _ ih => rw [List.map_cons, List.map_cons, ih, (hone f hf hpersists).2]

/-- The type is part of a pinned type, and so are all its components. -/
def Shared (s : Store) (pinned : List TypeId) (ty : TypeId) : Prop := ∃ p ∈ pinned, s.Reaches p ty

/-- What a copy that is made has done, from whatever store and with whatever pinned types. -/
structure Copies (pinned : List TypeId) (c : Copying) (ty copy : TypeId) (c' : Copying) : Prop where
  persists : c.store.Persists c'.store
  shared : Shared c.store pinned ty → IsShared c'.store ty copy

/-- Components one after another; the copy of the first stays shared while the others are made. -/
theorem shared_of_mapM {fuel : Nat}
    (hcopy : ∀ {ty copy c c'}, copyWithin pinned fuel ty c = .ok (copy, c') → Shared c.store pinned ty →
      IsShared c'.store ty copy) :
    ∀ {args copies : List TypeId} {c c' : Copying}, args.mapM (copyWithin pinned fuel) c = .ok (copies, c') →
      (∀ arg ∈ args, Shared c.store pinned arg) → List.Forall₂ (IsShared c'.store) args copies := by
  intro args
  induction args with
  | nil =>
    intro copies c c' h _
    cases h
    exact .nil
  | cons arg args ih =>
    intro copies c c' h hall
    rw [List.mapM_cons] at h
    obtain ⟨copy, c₁, hfirst, h⟩ := exists_of_step h
    obtain ⟨rest, c₂, hrest, h⟩ := exists_of_step h
    cases h
    have hpersists : c₁.store.Persists c'.store :=
      store_of_mapM .refl .trans persists_of_copyWithin hrest
    refine .cons ((hcopy hfirst (hall arg List.mem_cons_self)).mono hpersists) (ih hrest fun a ha => ?_)
    obtain ⟨p, hp, hr⟩ := hall a (List.mem_cons_of_mem _ ha)
    exact ⟨p, hp, (persists_of_copyWithin hfirst).reaches hr⟩

/-- **The copy of a part of a pinned type** has one tree with it. By induction on the fuel: a variable of such a
    type is pinned and stands for itself, and a constructor is rebuilt around shared components. -/
theorem shared_of_copyWithin : ∀ {fuel : Nat} {ty copy : TypeId} {c c' : Copying},
    copyWithin pinned fuel ty c = .ok (copy, c') → Shared c.store pinned ty → IsShared c'.store ty copy := by
  intro fuel
  induction fuel with
  | zero => intro ty copy c c' h; cases h
  | succ fuel ih =>
    intro ty copy c c' h hshared
    obtain ⟨v, c₁, hquery, h⟩ := exists_of_step h
    obtain ⟨hview, rfl⟩ := of_query hquery
    have hv := shows_of_view hview
    obtain ⟨p, hp, hr⟩ := hshared
    cases v with
    | var x =>
      have hx := hv.isUnbound
      obtain ⟨pins, c₂, hquery, h⟩ := exists_of_step h
      obtain ⟨hpins, rfl⟩ := of_query hquery
      -- A variable of a pinned type is pinned.
      obtain rfl := eq_true_of_isPinned hx hp (hr.trans hv.reaches) hpins
      cases h
      exact fun f hf hpersists =>
        ⟨(lt_of_get hx).trans_le hpersists.size_le, (hpersists.tree_shows hf hv).symm⟩
    | op r con args =>
      cases args with
      | nil =>
        cases h
        exact fun f hf hpersists =>
          ⟨(lt_of_get hv.get_op).trans_le hpersists.size_le, (hpersists.tree_shows hf hv).symm⟩
      | cons arg rest =>
        obtain ⟨copies, c₂, hcopies, h⟩ := exists_of_step h
        obtain ⟨rfl, rfl⟩ : copy = (c₂.store.operator con copies).1 ∧
            c' = ⟨(c₂.store.operator con copies).2, c₂.copies⟩ := by
          cases h
          exact ⟨rfl, rfl⟩
        intro f hf hlater
        have hnew := (Persists.allocate c₂.store (.op con copies)).trans hlater
        have hall := shared_of_mapM ih hcopies fun a ha => ⟨p, hp, hr.trans (hv.reaches_arg ha)⟩
        have hpersists := (store_of_mapM .refl .trans persists_of_copyWithin hcopies).trans hnew
        have hget : f.get (c₂.store.operator con copies).1 = .ok (.op con copies) :=
          hlater.kept (get_allocate_self _ _) (by simp)
        have hold : f.get r = .ok (.op con (arg :: rest)) := hpersists.kept hv.get_op (by simp)
        refine ⟨lt_of_get hget, ?_⟩
        rw [hpersists.tree_shows hf hv, View.id, hf.tree_op hget, hf.tree_op hold, map_tree_of_shared hf hnew hall]

theorem copies_of_copyWithin {fuel : Nat} {ty copy : TypeId} (h : copyWithin pinned fuel ty c = .ok (copy, c')) :
    Copies pinned c ty copy c' :=
  ⟨persists_of_copyWithin h, shared_of_copyWithin h⟩

end Copying

namespace Store

variable {s s' : Store} {pinned : List TypeId} {ty copy : TypeId}

/-! ## Instances -/

theorem copies_of_instantiate (h : s.instantiate pinned ty = .ok (copy, s')) :
    ∃ c, c.store = s' ∧ Copying.Copies pinned ⟨s, []⟩ ty copy c := by
  obtain ⟨⟨copy', c⟩, hrun, h⟩ := exists_of_bind_eq_ok h
  cases h
  exact ⟨c, rfl, Copying.copies_of_copyWithin hrun⟩

/-- **Copying** lets the store persist, since nodes are only added. -/
theorem instantiate_persists (h : s.instantiate pinned ty = .ok (copy, s')) : s.Persists s' := by
  obtain ⟨c, rfl, hcopies⟩ := copies_of_instantiate h
  exact hcopies.persists

/-- **The copy of a pinned type** has one tree with it, in every later store that has trees. The variable of a
    parameter, for instance, is met again in each use of the parameter. -/
theorem tree_of_instantiate (h : s.instantiate pinned ty = .ok (copy, s')) (hpinned : ty ∈ pinned) {f : Store}
    (hf : f.Grounded) (hpersists : s'.Persists f) : copy.index < f.size ∧ f.tree copy = f.tree ty := by
  obtain ⟨c, rfl, hcopies⟩ := copies_of_instantiate h
  exact hcopies.shared ⟨ty, hpinned, .refl⟩ f hf hpersists

end Store

end TypeInference
