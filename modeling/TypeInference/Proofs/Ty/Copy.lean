import Mathlib.Data.Set.Function
import TypeInference.Proofs.Ty.Instance
import TypeInference.Proofs.Ty.Shift

/-!
# `Proofs.Ty.Copy` — a copy is the type under other variables

Copying a type adds nodes at the end of the store and changes nothing else. The tree of the copy is that of the
type with other names for its variables: a pinned variable keeps its name, and every other one gets a new name of
its own, the same at each of its places. Two copies of one type have therefore only pinned variables in common.

While a type is being copied, the list of copies is such a renaming as far as it goes (`Phase`); what has been
copied stays copied as the list gets longer (`Copied.later`).

## Contents
* `Appends` — stores that have got further nodes;
* `Phase`, `Copied` — copying on the way, and what has been copied;
* `Renews`, `Grounded.instantiate_renews` — one copy, when it is made;
* `Grounded.instantiate_apart` — two copies one after the other.
-/

namespace TypeInference

open Relation

namespace Store

variable {s s' s'' : Store}

/-! ## Further nodes -/

/-- Nodes have been added, and nothing else has happened. It is what a copy does to a store that is only known to be
    grounded. -/
structure Appends (s s' : Store) : Prop where
  grounded : s'.Grounded
  size_le : s.size ≤ s'.size
  get_eq : ∀ {id}, id.index < s.size → s'.get id = s.get id
  trail_eq : s'.trail = s.trail

namespace Appends

theorem refl (h : s.Grounded) : Appends s s := ⟨h, Nat.le_refl _, fun _ => rfl, rfl⟩

theorem trans (h : Appends s s') (h' : Appends s' s'') : Appends s s'' where
  grounded := h'.grounded
  size_le := h.size_le.trans h'.size_le
  get_eq := fun hid => (h'.get_eq (hid.trans_le h.size_le)).trans (h.get_eq hid)
  trail_eq := h'.trail_eq.trans h.trail_eq

theorem allocate (h : s.Grounded) {node : Node} (hnode : ∀ b ∈ node.refs, b.index < s.size) :
    Appends s (s.allocate node).2 where
  grounded := h.allocate hnode
  size_le := by rw [size_allocate]; exact Nat.le_succ _
  get_eq := get_allocate_of_lt
  trail_eq := trail_allocate s node

theorem newVar (h : s.Grounded) : Appends s s.newVar.2 := .allocate h (by simp [Node.refs])

theorem isUnbound (h : Appends s s') {v : TypeId} (hv : s.IsUnbound v) : s'.IsUnbound v :=
  (h.get_eq (lt_of_get hv)).trans hv

/-- A type shows what it showed, variables included, since none has been bound. -/
theorem shows (h : Appends s s') {a : TypeId} {v : View} (hv : s.Shows a v) : s'.Shows a v := by
  induction hv with
  | var hx => exact .var (h.isUnbound hx)
  | op hr => exact .op ((h.get_eq (lt_of_get hr)).trans hr)
  | bound hb _ ih => exact .bound ((h.get_eq (lt_of_get hb)).trans hb) ih

/-- Trees stay as they are, and not merely up to a replacement of variables. -/
theorem tree_eq (h : Appends s s') (hs : s.Grounded) {a : TypeId} (ha : a.index < s.size) :
    s'.tree a = s.tree a := by
  obtain ⟨rank, hrank, -⟩ := hs.exists_rank
  induction hn : rank a using Nat.strong_induction_on generalizing a with
  | _ n ih =>
    subst hn
    obtain ⟨v, hv, -⟩ := hs.exists_view ha
    cases v with
    | var x => rw [(h.shows hv).tree_var h.grounded, hv.tree_var hs]
    | op r con args =>
      rw [(h.shows hv).tree_op h.grounded, hv.tree_op hs]
      congr 1
      exact List.map_congr_left fun arg harg => ih _ (hv.rank_arg_lt hrank harg) (hv.arg_lt hs harg) rfl

/-- A type reaches the same unbound variables, so whether a variable is pinned does not change while a copy is being
    made. -/
theorem reaches_iff (h : Appends s s') (hs : s.Grounded) {a x : TypeId} (ha : a.index < s.size)
    (hx : s.IsUnbound x) : s'.Reaches a x ↔ s.Reaches a x := by
  have hold := hs.hasVar_tree_iff (x := x) ha
  have hnew := h.grounded.hasVar_tree_iff (x := x) (ha.trans_le h.size_le)
  rw [h.tree_eq hs ha, hold] at hnew
  constructor
  · exact fun hr => (hnew.mpr ⟨hr, h.isUnbound hx⟩).1
  · exact fun hr => (hnew.mp ⟨hr, hx⟩).1

end Appends

end Store

namespace Copying

open Store

variable {s : Store} {pinned : List TypeId} {c c' c'' : Copying}

/-! ## Copying on the way -/

/-- The name that a variable has in a copy: that of its own copy, or its old name if none is noted. -/
def nameOf (copies : List (TypeId × TypeId)) (v : TypeId) : TypeId := (copies.lookup v).getD v

/-- A phase of copying from the store `s`: the copies made so far are different new variables, one for each of some
    variables that are not pinned. The names in the copy are therefore different wherever those in the type are. -/
structure Phase (s : Store) (pinned : List TypeId) (c : Copying) : Prop where
  appends : Appends s c.store
  unpinned : ∀ {v w}, c.copies.lookup v = some w → v ∈ s.Unpinned pinned
  new : ∀ {v w}, c.copies.lookup v = some w → s.size ≤ w.index ∧ c.store.IsUnbound w
  injective : ∀ {v v' w}, c.copies.lookup v = some w → c.copies.lookup v' = some w → v = v'

/-- A later phase: nodes have been added, and the copies noted before are still noted. -/
structure Then (c c' : Copying) : Prop where
  appends : Appends c.store c'.store
  copies : ∀ {v w}, c.copies.lookup v = some w → c'.copies.lookup v = some w

theorem Then.trans (h : Then c c') (h' : Then c' c'') : Then c c'' :=
  ⟨h.appends.trans h'.appends, fun hv => h'.copies (h.copies hv)⟩

/-- The type has been copied: its variables that are not pinned have copies, and its tree is that of the copy under
    their names. All trees of the type are taken in the store from which the copying has started. -/
structure Copied (s : Store) (pinned : List TypeId) (c : Copying) (ty copy : TypeId) : Prop where
  lt : copy.index < c.store.size
  named : ∀ v, (s.tree ty).HasVar v → v ∈ s.Unpinned pinned → ∃ w, c.copies.lookup v = some w
  tree_eq : c.store.tree copy = (s.tree ty).rename (nameOf c.copies)

/-- A variable that may not be copied has no copy, and keeps its name. -/
theorem Phase.nameOf_eq (h : Phase s pinned c) {v : TypeId} (hv : v ∉ s.Unpinned pinned) : nameOf c.copies v = v := by
  cases hlookup : c.copies.lookup v with
  | none => simp [nameOf, hlookup]
  | some w => exact absurd (h.unpinned hlookup) hv

/-- **What has been copied stays copied.** The names of its variables are settled, and a longer list of copies
    changes no other name in its tree. -/
theorem Copied.later (hphase : Phase s pinned c) (hphase' : Phase s pinned c') (hthen : Then c c')
    {ty copy : TypeId} (h : Copied s pinned c ty copy) : Copied s pinned c' ty copy where
  lt := h.lt.trans_le hthen.appends.size_le
  named := fun v hv hmem => by
    obtain ⟨w, hw⟩ := h.named v hv hmem
    exact ⟨w, hthen.copies hw⟩
  tree_eq := by
    rw [hthen.appends.tree_eq hphase.appends.grounded h.lt, h.tree_eq, Tree.rename, Tree.rename]
    refine Tree.subst_congr _ fun v hv => ?_
    by_cases hmem : v ∈ s.Unpinned pinned
    · obtain ⟨w, hw⟩ := h.named v hv hmem
      simp [nameOf, hw, hthen.copies hw]
    · rw [hphase.nameOf_eq hmem, hphase'.nameOf_eq hmem]

/-! ### Variables and constructors -/

/-- A new variable is nobody's copy, because copies were there before. -/
theorem Phase.ne_newVar (hphase : Phase s pinned c) {v w : TypeId} (hw : c.copies.lookup v = some w) :
    w ≠ c.store.newVar.1 := by
  rintro rfl
  exact Nat.lt_irrefl _ (lt_of_get (hphase.new hw).2)

/-- **A variable that is not pinned** may be given a new variable for a copy. The list stays injective, for the new
    variable is nobody's copy yet. -/
theorem Phase.noting (hphase : Phase s pinned c) {x : TypeId} (hx : x ∈ s.Unpinned pinned) :
    Phase s pinned (c.noting x) := by
  have happends : Appends c.store c.store.newVar.2 := .newVar hphase.appends.grounded
  refine ⟨hphase.appends.trans happends, fun {v w} hw => ?unpinned, fun {v w} hw => ?new,
    fun {v v' w} hw hw' => ?injective⟩
  case unpinned =>
    rw [lookup_noting] at hw
    split at hw
    · next he => exact he ▸ hx
    · exact hphase.unpinned hw
  case new =>
    rw [lookup_noting] at hw
    split at hw
    · cases hw
      exact ⟨hphase.appends.size_le, get_allocate_self _ _⟩
    · exact ⟨(hphase.new hw).1, happends.isUnbound (hphase.new hw).2⟩
  case injective =>
    rw [lookup_noting] at hw hw'
    split at hw <;> split at hw'
    · next he he' => rw [he, he']
    · cases hw
      exact absurd rfl (hphase.ne_newVar hw')
    · cases hw'
      exact absurd rfl (hphase.ne_newVar hw)
    · exact hphase.injective hw hw'

/-- A variable that is not pinned gets a copy, or has one. Afterwards it has one in either case. -/
theorem copyVar_copies (hphase : Phase s pinned c) {x : TypeId} (hx : x ∈ s.Unpinned pinned) :
    ∃ copy c', copyVar x c = .ok (copy, c') ∧ Phase s pinned c' ∧ Then c c' ∧
      c'.copies.lookup x = some copy := by
  cases hlookup : c.copies.lookup x with
  | some copy =>
    exact ⟨copy, c, copyVar_of_some hlookup, hphase, ⟨.refl hphase.appends.grounded, id⟩, hlookup⟩
  | none =>
    have happends : Appends c.store c.store.newVar.2 := .newVar hphase.appends.grounded
    refine ⟨c.store.newVar.1, c.noting x, copyVar_of_none hlookup, hphase.noting hx,
      ⟨happends, lookup_noting_of_some hlookup⟩, ?_⟩
    rw [lookup_noting, if_pos rfl]

/-- Whether a variable is pinned is the same in every phase. -/
theorem Phase.isPinned_iff (hs : s.Grounded) (hphase : Phase s pinned c) (hpinned : ∀ p ∈ pinned, p.index < s.size)
    {x : TypeId} (hx : s.IsUnbound x) :
    (∃ p ∈ pinned, c.store.Reaches p x) ↔ x ∉ s.Unpinned pinned := by
  constructor
  · rintro ⟨p, hp, hr⟩ hmem
    exact hmem.2 p hp ((hphase.appends.reaches_iff hs (hpinned p hp) hx).mp hr)
  · intro hmem
    by_contra hno
    refine hmem ⟨hx, fun p hp hr => hno ⟨p, hp, ?_⟩⟩
    exact (hphase.appends.reaches_iff hs (hpinned p hp) hx).mpr hr

/-- **A pinned variable** is its own copy, so all copies of a type share it. -/
theorem Copied.of_pinned (hs : s.Grounded) (hphase : Phase s pinned c) {ty x : TypeId} (hv : s.Shows ty (.var x))
    (hx : x ∉ s.Unpinned pinned) : Copied s pinned c ty x where
  lt := lt_of_get (hphase.appends.isUnbound hv.isUnbound)
  named := fun v hvar hmem => by
    rw [hv.tree_var hs, Tree.hasVar_var] at hvar
    exact absurd (hvar ▸ hmem) hx
  tree_eq := by
    rw [hphase.appends.grounded.tree_var (hphase.appends.isUnbound hv.isUnbound), hv.tree_var hs, Tree.rename,
      Tree.subst_var, hphase.nameOf_eq hx]

/-- **A variable** has the copy that is noted for it. -/
theorem Copied.of_lookup (hs : s.Grounded) (hphase : Phase s pinned c) {ty x copy : TypeId} (hv : s.Shows ty (.var x))
    (hlookup : c.copies.lookup x = some copy) : Copied s pinned c ty copy where
  lt := lt_of_get (hphase.new hlookup).2
  named := fun v hvar _ => by
    rw [hv.tree_var hs, Tree.hasVar_var] at hvar
    exact ⟨copy, hvar ▸ hlookup⟩
  tree_eq := by
    rw [hphase.appends.grounded.tree_var (hphase.new hlookup).2, hv.tree_var hs, Tree.rename, Tree.subst_var, nameOf,
      hlookup, Option.getD_some]

/-- **A constructor without components** is its own copy, for no variable is below it. -/
theorem Copied.leaf (hs : s.Grounded) (hphase : Phase s pinned c) {ty r : TypeId} {con : Constructor}
    (hv : s.Shows ty (.op r con [])) : Copied s pinned c ty r := by
  have htree : s.tree ty = .app con [] := hv.tree_op hs
  have hr := (hphase.appends.get_eq (lt_of_get hv.get_op)).trans hv.get_op
  refine ⟨lt_of_get hr, fun v hvar => ?_, ?_⟩
  · rw [htree, Tree.hasVar_app] at hvar
    obtain ⟨t, ht, -⟩ := hvar
    cases ht
  · rw [hphase.appends.grounded.tree_op hr, htree]
    rfl

theorem map_tree_of_forall₂ {f : Store} {name : TypeId → TypeId} {args copies : List TypeId}
    (h : List.Forall₂ (fun arg copy => f.tree copy = (s.tree arg).rename name) args copies) :
    copies.map f.tree = (args.map s.tree).map (·.rename name) := by
  induction h with
  | nil => rfl
  | cons hone _ ih => rw [List.map_cons, List.map_cons, List.map_cons, ih, hone]

/-- Copies of components make a copy of the constructor, under the names that the components have been given. -/
theorem copyOp_copies (hs : s.Grounded) (hphase : Phase s pinned c) {ty r : TypeId} {con : Constructor}
    {args copies : List TypeId} (hv : s.Shows ty (.op r con args))
    (hcopies : List.Forall₂ (Copied s pinned c) args copies) :
    ∃ copy c', copyOp con copies c = .ok (copy, c') ∧ Phase s pinned c' ∧ Then c c' ∧
      Copied s pinned c' ty copy := by
  have hnode : ∀ b ∈ (Node.op con copies).refs, b.index < c.store.size := by
    intro b hb
    obtain ⟨arg, harg⟩ := exists_of_mem_copies hcopies hb
    exact harg.lt
  have happends : Appends c.store (c.store.operator con copies).2 := .allocate hphase.appends.grounded hnode
  have hphase' : Phase s pinned ⟨(c.store.operator con copies).2, c.copies⟩ :=
    ⟨hphase.appends.trans happends, hphase.unpinned,
      fun hw => ⟨(hphase.new hw).1, happends.isUnbound (hphase.new hw).2⟩, hphase.injective⟩
  have hthen : Then c ⟨(c.store.operator con copies).2, c.copies⟩ := ⟨happends, id⟩
  -- The copies of the components stay copies when the new node is added.
  have hall : List.Forall₂ (Copied s pinned ⟨(c.store.operator con copies).2, c.copies⟩) args copies :=
    hcopies.imp fun _ _ => Copied.later hphase hphase' hthen
  refine ⟨(c.store.operator con copies).1, ⟨(c.store.operator con copies).2, c.copies⟩, rfl, hphase', hthen, ?_,
    fun v hvar hmem => ?_, ?_⟩
  · show (c.store.operator con copies).1.index < (c.store.operator con copies).2.size
    simp [operator]
  · rw [hv.tree_op hs, Tree.hasVar_app] at hvar
    obtain ⟨t, ht, hvar⟩ := hvar
    obtain ⟨arg, harg, rfl⟩ := List.mem_map.mp ht
    obtain ⟨copy, hcopy⟩ := exists_of_mem_copies hcopies.flip harg
    exact hcopy.named v hvar hmem
  · have hop : (c.store.operator con copies).2.get (c.store.operator con copies).1 = .ok (.op con copies) :=
      get_allocate_self _ _
    have hmap := map_tree_of_forall₂ (hall.imp fun _ _ => Copied.tree_eq)
    show (c.store.operator con copies).2.tree (c.store.operator con copies).1 = _
    rw [happends.grounded.tree_op hop, hv.tree_op hs, hmap, Tree.rename, Tree.subst_app]
    rfl

/-! ### The whole walk -/

/-- Components one after another. A variable that two components share is met again, and has the same name in both
    copies. -/
theorem mapM_copies {fuel : Nat} {args : List TypeId}
    (hcopy : ∀ arg ∈ args, ∀ c, Phase s pinned c → ∃ copy c', copyWithin pinned fuel arg c = .ok (copy, c') ∧
      Phase s pinned c' ∧ Then c c' ∧ Copied s pinned c' arg copy) :
    ∀ c, Phase s pinned c → ∃ copies c', args.mapM (copyWithin pinned fuel) c = .ok (copies, c') ∧
      Phase s pinned c' ∧ Then c c' ∧ List.Forall₂ (Copied s pinned c') args copies := by
  induction args with
  | nil => intro c hphase; exact ⟨[], c, rfl, hphase, ⟨.refl hphase.appends.grounded, id⟩, .nil⟩
  | cons arg args ih =>
    intro c hphase
    obtain ⟨copy, c₁, hrun, hphase₁, hthen₁, hcopied⟩ := hcopy arg List.mem_cons_self c hphase
    obtain ⟨copies, c₂, hrun₂, hphase₂, hthen₂, hall⟩ :=
      ih (fun a ha => hcopy a (List.mem_cons_of_mem _ ha)) c₁ hphase₁
    refine ⟨copy :: copies, c₂, ?_, hphase₂, hthen₁.trans hthen₂,
      .cons (hcopied.later hphase₁ hphase₂ hthen₂) hall⟩
    rw [List.mapM_cons, step_of_ok hrun, step_of_ok hrun₂]
    rfl

/-- **A type is copied**, whatever has been copied before. By induction on the fuel, along the rank of the type in
    the store from which the copying has started. -/
theorem copyWithin_copies (hs : s.Grounded) (hpinned : ∀ p ∈ pinned, p.index < s.size) {rank : TypeId → Nat}
    (hrank : s.IsRank rank) : ∀ {fuel : Nat} {ty : TypeId}, ty.index < s.size → rank ty < fuel →
      ∀ c, Phase s pinned c → ∃ copy c', copyWithin pinned fuel ty c = .ok (copy, c') ∧ Phase s pinned c' ∧
        Then c c' ∧ Copied s pinned c' ty copy := by
  intro fuel
  induction fuel with
  | zero => intro ty _ hfuel; exact absurd hfuel (Nat.not_lt_zero _)
  | succ fuel ih =>
    intro ty hty hfuel c hphase
    have hgrounded := hphase.appends.grounded
    obtain ⟨v, hv, -⟩ := hs.exists_view hty
    have hview := (hphase.appends.shows hv).view_eq hgrounded
    have hlast : Then c c := ⟨.refl hgrounded, id⟩
    cases v with
    | var x =>
      have hx := hv.isUnbound
      obtain ⟨b, hb, hiff⟩ : ∃ b, c.store.isPinned pinned x = .ok b ∧
          (b = true ↔ ∃ p ∈ pinned, c.store.Reaches p x) :=
        hgrounded.isPinned_eq_ok (hphase.appends.isUnbound hx) fun p hp =>
          (hpinned p hp).trans_le hphase.appends.size_le
      -- Whether a variable is pinned is decided as in the store before the copy.
      have hpin : b = true ↔ x ∉ s.Unpinned pinned := hiff.trans (hphase.isPinned_iff hs hpinned hx)
      rw [copyWithin_var hview hb]
      cases b with
      | true => exact ⟨x, c, rfl, hphase, hlast, .of_pinned hs hphase hv (hpin.mp rfl)⟩
      | false =>
        have hmem : x ∈ s.Unpinned pinned := by
          by_contra hnot
          exact Bool.false_ne_true (hpin.mpr hnot)
        obtain ⟨copy, c', hrun, hphase', hthen, hlookup⟩ := copyVar_copies hphase hmem
        exact ⟨copy, c', hrun, hphase', hthen, .of_lookup hs hphase' hv hlookup⟩
    | op r con args =>
      cases args with
      | nil => exact ⟨r, c, copyWithin_leaf hview, hphase, hlast, .leaf hs hphase hv⟩
      | cons arg rest =>
        -- The components have smaller ranks, so the remaining steps are enough for them.
        obtain ⟨copies, c₁, hrun, hphase₁, hthen₁, hcopies⟩ := mapM_copies (fun a ha =>
          ih (hv.arg_lt hs ha) (by have := hv.rank_arg_lt hrank ha; omega)) c hphase
        obtain ⟨copy, c₂, hrun₂, hphase₂, hthen₂, hcopied⟩ := copyOp_copies hs hphase₁ hv hcopies
        exact ⟨copy, c₂, (copyWithin_op hview hrun).trans hrun₂, hphase₂, hthen₁.trans hthen₂, hcopied⟩

end Copying

namespace Store

variable {s s' : Store} {pinned : List TypeId} {ty copy : TypeId}

/-! ## One copy, and two -/

/-- What a copy leaves: further nodes, and a type whose tree is the copied one under other names. Variables that
    occur in a pinned type keep their names, all others have new ones of their own. -/
structure Renews (s : Store) (pinned : List TypeId) (ty copy : TypeId) (s' : Store) (name : TypeId → TypeId) :
    Prop where
  appends : Appends s s'
  lt : copy.index < s'.size
  tree_eq : s'.tree copy = (s.tree ty).rename name
  injOn : Set.InjOn name {v | (s.tree ty).HasVar v}
  kept : ∀ v, (s.tree ty).HasVar v → (∃ p ∈ pinned, (s.tree p).HasVar v) → name v = v
  renewed : ∀ v, (s.tree ty).HasVar v → (¬ ∃ p ∈ pinned, (s.tree p).HasVar v) →
    s.size ≤ (name v).index ∧ s'.IsUnbound (name v)

/-- A variable of a type is pinned, or is not; here the same is said of trees. -/
theorem Grounded.mem_unpinned_iff (h : s.Grounded) (hpinned : ∀ p ∈ pinned, p.index < s.size)
    (hty : ty.index < s.size) {v : TypeId} (hv : (s.tree ty).HasVar v) :
    v ∈ s.Unpinned pinned ↔ ¬ ∃ p ∈ pinned, (s.tree p).HasVar v := by
  have hunbound := ((h.hasVar_tree_iff hty).mp hv).2
  constructor
  · rintro ⟨-, hno⟩ ⟨p, hp, hvar⟩
    exact hno p hp ((h.hasVar_tree_iff (hpinned p hp)).mp hvar).1
  · intro hno
    exact ⟨hunbound, fun p hp hr => hno ⟨p, hp, (h.hasVar_tree_iff (hpinned p hp)).mpr ⟨hr, hunbound⟩⟩⟩

/-- **A copy is made**, and is the type under other variables. The list of copies at the end is the renaming. -/
theorem Grounded.instantiate_renews (h : s.Grounded) (hpinned : ∀ p ∈ pinned, p.index < s.size)
    (hty : ty.index < s.size) :
    ∃ copy s' name, s.instantiate pinned ty = .ok (copy, s') ∧ Renews s pinned ty copy s' name := by
  obtain ⟨rank, hrank, hle⟩ := h.exists_rank
  have hfuel : rank ty < s.pairBound := (hle ty).trans_lt s.size_lt_pairBound
  have hstart : Copying.Phase s pinned ⟨s, []⟩ := ⟨.refl h, by simp, by simp, by simp⟩
  obtain ⟨copy, c, hrun, hphase, -, hcopied⟩ := Copying.copyWithin_copies h hpinned hrank hty hfuel _ hstart
  have hrun' : s.instantiate pinned ty = .ok (copy, c.store) := by
    show (Copying.copyWithin pinned s.pairBound ty ⟨s, []⟩ >>= fun p => .ok (p.1, p.2.store)) = _
    rw [hrun]
    rfl
  -- A variable of the type has a copy, or keeps its name.
  have hname : ∀ v, (s.tree ty).HasVar v →
      (v ∈ s.Unpinned pinned ∧ c.copies.lookup v = some (Copying.nameOf c.copies v)) ∨
        (v ∉ s.Unpinned pinned ∧ Copying.nameOf c.copies v = v) := by
    intro v hv
    by_cases hmem : v ∈ s.Unpinned pinned
    · obtain ⟨w, hw⟩ := hcopied.named v hv hmem
      exact .inl ⟨hmem, by simp [Copying.nameOf, hw]⟩
    · exact .inr ⟨hmem, hphase.nameOf_eq hmem⟩
  refine ⟨copy, c.store, Copying.nameOf c.copies, hrun', hphase.appends, hcopied.lt, hcopied.tree_eq, ?_, ?_, ?_⟩
  · intro v hv w hw he
    have hlt : ∀ {u : TypeId}, (s.tree ty).HasVar u → u.index < s.size := fun hu =>
      lt_of_get ((h.hasVar_tree_iff hty).mp hu).2
    rcases hname v hv with ⟨-, hlookup⟩ | ⟨-, hkeep⟩ <;> rcases hname w hw with ⟨-, hlookup'⟩ | ⟨-, hkeep'⟩
    · exact hphase.injective hlookup (he ▸ hlookup')
    · -- New names are no names of old variables.
      exact absurd (hlt hw) (Nat.not_lt.mpr (hkeep' ▸ he ▸ (hphase.new hlookup).1))
    · exact absurd (hlt hv) (Nat.not_lt.mpr (hkeep ▸ he.symm ▸ (hphase.new hlookup').1))
    · exact hkeep.symm.trans (he.trans hkeep')
  · intro v hv hpin
    rcases hname v hv with ⟨hmem, -⟩ | ⟨-, hkeep⟩
    · exact absurd hpin ((h.mem_unpinned_iff hpinned hty hv).mp hmem)
    · exact hkeep
  · intro v hv hno
    rcases hname v hv with ⟨-, hlookup⟩ | ⟨hmem, -⟩
    · exact hphase.new hlookup
    · exact absurd ((h.mem_unpinned_iff hpinned hty hv).mpr hno) hmem

/-- A variable of a copy is one of a pinned type, or is new. -/
theorem Renews.hasVar {name : TypeId → TypeId} (h : Renews s pinned ty copy s' name) {w : TypeId}
    (hw : (s'.tree copy).HasVar w) :
    (∃ p ∈ pinned, (s.tree p).HasVar w) ∧ (s.tree ty).HasVar w ∨ s.size ≤ w.index := by
  rw [h.tree_eq, Tree.hasVar_rename] at hw
  obtain ⟨v, hv, rfl⟩ := hw
  by_cases hpin : ∃ p ∈ pinned, (s.tree p).HasVar v
  · left
    rw [h.kept v hv hpin]
    exact ⟨hpin, hv⟩
  · right
    exact (h.renewed v hv hpin).1

/-- **Copies rename exactly the variables that are not pinned**, and a second copy of the type has only pinned
    variables in common with the first. -/
theorem Grounded.instantiate_apart (h : s.Grounded) (hpinned : ∀ p ∈ pinned, p.index < s.size)
    (hty : ty.index < s.size) :
    ∃ copy s' name, s.instantiate pinned ty = .ok (copy, s') ∧ Renews s pinned ty copy s' name ∧
      ∃ copy' s'' name', s'.instantiate pinned ty = .ok (copy', s'') ∧ Renews s' pinned ty copy' s'' name' ∧
        ∀ v, (s''.tree copy).HasVar v → (s''.tree copy').HasVar v → ∃ p ∈ pinned, (s.tree p).HasVar v := by
  obtain ⟨copy, s', name, hrun, hrenews⟩ := h.instantiate_renews hpinned hty
  have hle := hrenews.appends.size_le
  have hgrounded := hrenews.appends.grounded
  have hpinned' : ∀ p ∈ pinned, p.index < s'.size := fun p hp => (hpinned p hp).trans_le hle
  obtain ⟨copy', s'', name', hrun', hrenews'⟩ := hgrounded.instantiate_renews hpinned' (hty.trans_le hle)
  refine ⟨copy, s', name, hrun, hrenews, copy', s'', name', hrun', hrenews', fun v hv hv' => ?_⟩
  rw [hrenews'.appends.tree_eq hgrounded hrenews.lt] at hv
  rcases hrenews'.hasVar hv' with ⟨⟨p, hp, hvar⟩, -⟩ | hnew
  · rw [hrenews.appends.tree_eq h (hpinned p hp)] at hvar
    exact ⟨p, hp, hvar⟩
  · -- A variable of the first copy is older than the second copy.
    have hold := lt_of_get ((hgrounded.hasVar_tree_iff hrenews.lt).mp hv).2
    exact absurd hold (Nat.not_lt.mpr hnew)

/-- A function from a variable to a list of two variables at once, through a binding, and a pinned list of one of
    them. -/
def pinnedFunction : Store where
  nodes := initial.nodes ++
    #[.var none, .var none, .var (some ⟨4⟩), .op .map [⟨6⟩, ⟨5⟩], .op .function [⟨4⟩, ⟨7⟩], .op .list [⟨5⟩]]
  trail := [⟨6⟩]

theorem grounded_pinnedFunction : pinnedFunction.Grounded := grounded_of_descending (by decide)

/-- Two copies of the function are made; the variable of the pinned list stands for itself in both. -/
theorem instantiate_apart_pinnedFunction :
    ∃ copy s' copy' s'', pinnedFunction.instantiate [⟨9⟩] ⟨8⟩ = .ok (copy, s') ∧
      s'.instantiate [⟨9⟩] ⟨8⟩ = .ok (copy', s'') ∧ (s'.tree copy).HasVar ⟨5⟩ ∧
      ∀ v, (s''.tree copy).HasVar v → (s''.tree copy').HasVar v →
        ∃ p ∈ [(⟨9⟩ : TypeId)], (pinnedFunction.tree p).HasVar v := by
  have hpinned : ∀ p ∈ [(⟨9⟩ : TypeId)], p.index < pinnedFunction.size := by decide
  have hty : (⟨8⟩ : TypeId).index < pinnedFunction.size := by decide
  obtain ⟨copy, s', name, hrun, hrenews, copy', s'', name', hrun', -, hapart⟩ :=
    grounded_pinnedFunction.instantiate_apart hpinned hty
  have hfunction : pinnedFunction.tree ⟨8⟩ = .app .function [.var ⟨4⟩, .app .map [.var ⟨4⟩, .var ⟨5⟩]] := rfl
  have hpin : pinnedFunction.tree ⟨9⟩ = .app .list [.var ⟨5⟩] := rfl
  have hvar : (pinnedFunction.tree ⟨8⟩).HasVar ⟨5⟩ := by simp [hfunction]
  have hkept : name ⟨5⟩ = ⟨5⟩ := hrenews.kept _ hvar ⟨⟨9⟩, List.mem_singleton_self _, by simp [hpin]⟩
  refine ⟨copy, s', copy', s'', hrun, hrun', ?_, hapart⟩
  rw [hrenews.tree_eq, Tree.hasVar_rename]
  exact ⟨⟨5⟩, hvar, hkept⟩

end Store

end TypeInference
