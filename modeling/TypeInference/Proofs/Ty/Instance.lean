import TypeInference.Proofs.Ty.Evolution
import TypeInference.Ty.Instantiate

/-!
# `Proofs.Ty.Instance` — instances of polymorphic types

An instance of a type has the type's tree with the hidden variables renewed. The copy is compared with the
type not at once but in **every later store** (`IsCopy`): hidden variables stay unbound and their copies may
be bound, so the tree of the copy remains the tree of the type under a replacement of hidden variables,
however much the pinned variables that both share have been bound since.

Main statement: `instantiate_eq_ok`. A pinned type must be clear of the hidden variables, and every variable
of the copied type must be hidden or pinned; `instantiate_clear` drops the second condition by hiding every
variable that is not pinned.
-/

namespace TypeInference

open Relation

namespace Store

variable {s s' : Store} {hidden : Set TypeId}

/-! ## Growth without bindings -/

/-- The store has evolved without bindings. Copying only adds nodes, so every type of the store goes on showing what
    it showed. -/
structure Grows (hidden : Set TypeId) (s s' : Store) : Prop extends Evolves hidden s s' where
  unbound : ∀ {v}, s.IsUnbound v → s'.IsUnbound v

namespace Grows

theorem refl (h : s.WellFormed) : Grows hidden s s := ⟨.refl h, id⟩

theorem allocate (h : Grows hidden s s') {node : Node} (hfits : node.Fits)
    (hnode : ∀ b ∈ node.refs, b.index < s'.size) : Grows hidden s (s'.allocate node).2 :=
  ⟨h.toEvolves.trans (evolves_allocate h.wf hfits hnode), fun hv => by
    have hv' := h.unbound hv
    exact (get_allocate_of_lt (lt_of_get hv')).trans hv'⟩

theorem shows (h : Grows hidden s s') {a : TypeId} {v : View} (hv : s.Shows a v) : s'.Shows a v := by
  induction hv with
  | var hx => exact .var (h.unbound hx)
  | op hr => exact .op (h.kept hr (by simp))
  | bound hb _ ih => exact .bound (h.kept hb (by simp)) ih

end Grows

end Store

namespace Copying

open Store

variable {s : Store} {hidden : Set TypeId} {pinned : List TypeId}

/-! ### Stages and copies

Copying goes through a type and carries a list of the copies made so far, so that a variable met twice is copied
once. A *stage* is a point of this walk, and what is said of a copy is said for all later stages at once. -/

/-- What the variables of a copied type have become: the trees of their copies, and themselves where there is no
    copy. -/
def renewal (copies : List (TypeId × TypeId)) (f : Store) (v : TypeId) : Tree :=
  ((copies.lookup v).map f.tree).getD (.var v)

/-- A stage of copying from the store `s`: only hidden variables have copies, and these are clear. A walk starts at
    such a stage and leaves one behind. -/
structure Stage (hidden : Set TypeId) (s : Store) (c : Copying) : Prop where
  grows : Grows hidden s c.store
  copies : ∀ {v w}, c.copies.lookup v = some w → v ∈ hidden ∧ c.store.Clear hidden w

/-- A later stage: nodes have been added and copies noted, and no copy has been noted anew for a variable that had
    one. -/
structure Later (hidden : Set TypeId) (c c' : Copying) : Prop where
  evolves : Evolves hidden c.store c'.store
  copies : ∀ {v w}, c.copies.lookup v = some w → c'.copies.lookup v = some w

theorem Later.trans {c c' c'' : Copying} (h : Later hidden c c') (h' : Later hidden c' c'') :
    Later hidden c c'' :=
  ⟨h.evolves.trans h'.evolves, fun hv => h'.copies (h.copies hv)⟩

/-- **A copy**: from now on its tree is that of the type, with the copies in place of the hidden variables. The
    quantifiers over later stages and later stores are what makes this stable: nothing has to be said again when
    another component is copied, or when the analysis goes on. -/
def IsCopy (hidden : Set TypeId) (s : Store) (c : Copying) (ty copy : TypeId) : Prop :=
  c.store.Clear hidden copy ∧ ∀ c' f, Stage hidden s c' → Later hidden c c' → Evolves hidden c'.store f →
    f.tree copy = (f.tree ty).subst (renewal c'.copies f)

theorem IsCopy.later {c c' : Copying} (hs : Stage hidden s c) (hlater : Later hidden c c') {ty copy : TypeId}
    (h : IsCopy hidden s c ty copy) : IsCopy hidden s c' ty copy :=
  ⟨hlater.evolves.clear hs.grows.wf h.1, fun c'' f hs'' hlater'' hf => h.2 c'' f hs''
    (hlater.trans hlater'') hf⟩

/-- Variables that are not hidden are not renamed. -/
theorem Stage.renewal_eq {c : Copying} (h : Stage hidden s c) {v : TypeId} (hv : v ∉ hidden) (f : Store) :
    renewal c.copies f v = .var v := by
  cases hlookup : c.copies.lookup v with
  | none => simp [renewal, hlookup]
  | some w => exact absurd (h.copies hlookup).1 hv

/-- A tree without hidden variables is its own instance. Pinned types are such trees, which is why they may be
    shared. -/
theorem Stage.subst_renewal {c : Copying} (h : Stage hidden s c) {f : Store} (hwf : f.WellFormed) {a : TypeId}
    (ha : f.Clear hidden a) : (f.tree a).subst (renewal c.copies f) = f.tree a :=
  Tree.subst_eq_self fun v hv => h.renewal_eq (ha.2 v ((hwf.grounded.hasVar_tree_iff ha.1).mp hv).1) f

/-! ### Single steps -/

theorem step_of_ok {α β : Type} {m : Step α} {next : α → Step β} {c c' : Copying} {a : α}
    (h : m c = .ok (a, c')) : (m >>= next) c = next a c' := by
  show (m c >>= fun p => next p.1 p.2) = _
  rw [h]; rfl

theorem query_of_ok {α : Type} {ask : Store → Except Fault α} {c : Copying} {a : α} (h : ask c.store = .ok a) :
    query ask c = .ok (a, c) := by
  show (ask c.store >>= fun a => .ok (a, c)) = _
  rw [h]; rfl

/-! ### The walk over a type -/

section Walk

variable {fuel : Nat} {ty x r : TypeId} {con : Constructor} {c c' : Copying}

theorem copyWithin_var {b : Bool} (hview : c.store.view ty = .ok (.var x))
    (hpinned : c.store.isPinned pinned x = .ok b) :
    copyWithin pinned (fuel + 1) ty c = (if b then pure x else copyVar x) c := by
  rw [copyWithin, step_of_ok (query_of_ok hview)]
  exact step_of_ok (query_of_ok hpinned)

theorem copyWithin_leaf (hview : c.store.view ty = .ok (.op r con [])) :
    copyWithin pinned (fuel + 1) ty c = .ok (r, c) := by
  rw [copyWithin, step_of_ok (query_of_ok hview)]
  rfl

theorem copyWithin_op {arg : TypeId} {args copies : List TypeId}
    (hview : c.store.view ty = .ok (.op r con (arg :: args)))
    (hrun : (arg :: args).mapM (copyWithin pinned fuel) c = .ok (copies, c')) :
    copyWithin pinned (fuel + 1) ty c = copyOp con copies c' := by
  rw [copyWithin, step_of_ok (query_of_ok hview)]
  show ((arg :: args).mapM (copyWithin pinned fuel) >>= copyOp con) c = _
  rw [step_of_ok hrun]

end Walk

/-! ### The list of copies -/

section Noting

variable {c : Copying} {x v w : TypeId}

theorem lookup_cons (v x w : TypeId) (copies : List (TypeId × TypeId)) :
    List.lookup v ((x, w) :: copies) = if v = x then some w else copies.lookup v := by
  by_cases h : v = x
  · simp [h]
  · simp [List.lookup_cons, h, beq_eq_false_iff_ne.mpr h]

/-- The copying with a new variable, which is noted as the copy of `x`; every later occurrence of `x` finds it
    there. -/
def noting (c : Copying) (x : TypeId) : Copying :=
  ⟨c.store.newVar.2, (x, c.store.newVar.1) :: c.copies⟩

theorem lookup_noting (c : Copying) (x v : TypeId) :
    (c.noting x).copies.lookup v = if v = x then some c.store.newVar.1 else c.copies.lookup v :=
  lookup_cons v x _ c.copies

theorem lookup_noting_of_some (hnone : c.copies.lookup x = none) (hw : c.copies.lookup v = some w) :
    (c.noting x).copies.lookup v = some w := by
  rw [lookup_noting, if_neg, hw]
  rintro rfl
  rw [hnone] at hw
  cases hw

theorem copyVar_of_some (h : c.copies.lookup x = some w) : copyVar x c = .ok (w, c) := by
  have hget : (get : Step Copying) c = .ok (c, c) := rfl
  rw [copyVar, step_of_ok hget, h]
  rfl

theorem copyVar_of_none (h : c.copies.lookup x = none) : copyVar x c = .ok (c.store.newVar.1, c.noting x) := by
  have hget : (get : Step Copying) c = .ok (c, c) := rfl
  rw [copyVar, step_of_ok hget, h]
  rfl

end Noting

/-! ### Copies -/

/-- A hidden variable gets a copy, or has one. In either case the copy is the one noted for it afterwards. -/
theorem copyVar_eq_ok (hhidden : ∀ v ∈ hidden, s.IsUnbound v) {c : Copying} (hs : Stage hidden s c)
    {x : TypeId} (hmem : x ∈ hidden) :
    ∃ copy c', copyVar x c = .ok (copy, c') ∧ Stage hidden s c' ∧ Later hidden c c' ∧
      c'.copies.lookup x = some copy := by
  cases hlookup : c.copies.lookup x with
  | some copy => exact ⟨copy, c, copyVar_of_some hlookup, hs, ⟨.refl hs.grows.wf, id⟩, hlookup⟩
  | none =>
    -- The copy is a new variable, and hidden variables are old ones.
    have hnode : ∀ b ∈ (Node.var none).refs, b.index < c.store.size := by simp [Node.refs]
    have hrange : ∀ v ∈ hidden, v.index < c.store.size := fun v hv =>
      lt_of_get (hs.grows.unbound (hhidden v hv))
    have hevolves : Evolves hidden c.store (c.store.allocate (.var none)).2 :=
      evolves_allocate hs.grows.wf trivial hnode
    have hclear : (c.store.allocate (.var none)).2.Clear hidden (c.store.allocate (.var none)).1 :=
      clear_allocate hs.grows.wf hrange trivial (by simp [Node.refs])
    refine ⟨c.store.newVar.1, c.noting x, copyVar_of_none hlookup,
      ⟨hs.grows.allocate trivial hnode, fun {v w} hw => ?_⟩, ⟨hevolves, lookup_noting_of_some hlookup⟩, ?_⟩
    · rw [lookup_noting] at hw
      split at hw
      · next he => cases hw; exact ⟨he ▸ hmem, hclear⟩
      · exact ⟨(hs.copies hw).1, hevolves.clear hs.grows.wf (hs.copies hw).2⟩
    · rw [lookup_noting, if_pos rfl]

/-! ### What the walk meets -/

/-- **A pinned variable** stands for itself in the copy, and its tree has no hidden variable, however much it is
    bound later. -/
theorem pinned_isCopy (hwf : s.WellFormed) (hpinned : ∀ p ∈ pinned, s.Clear hidden p) {c : Copying}
    (hs : Stage hidden s c) {ty x p : TypeId} (hv : s.Shows ty (.var x)) (hp : p ∈ pinned)
    (hpx : c.store.Reaches p x) : IsCopy hidden s c ty x := by
  have hclear : c.store.Clear hidden x := (hs.grows.clear hwf (hpinned p hp)).reaches hs.grows.wf hpx
  refine ⟨hclear, fun c' f hs' hlater hf => ?_⟩
  have hf' : Evolves hidden s f := hs'.grows.toEvolves.trans hf
  rw [hf'.tree_shows hv, View.id]
  exact (hs'.subst_renewal hf.wf (hf.clear hs'.grows.wf (hlater.evolves.clear hs.grows.wf hclear))).symm

/-- **A hidden variable** has the copy that is noted for it. -/
theorem copyVar_isCopy {c : Copying} (hs : Stage hidden s c) {ty x copy : TypeId} (hv : s.Shows ty (.var x))
    (hlookup : c.copies.lookup x = some copy) : IsCopy hidden s c ty copy := by
  obtain ⟨hmem, hclear⟩ := hs.copies hlookup
  refine ⟨hclear, fun c' f hs' hlater hf => ?_⟩
  have hf' : Evolves hidden s f := hs'.grows.toEvolves.trans hf
  rw [hf'.tree_shows hv, View.id, hf.wf.grounded.tree_var (hf'.isUnbound hv.isUnbound hmem), Tree.subst_var,
    renewal, hlater.copies hlookup]
  rfl

/-- **A constructor without components** is shared, for no variable is below it. -/
theorem leaf_isCopy (hhidden : ∀ v ∈ hidden, s.IsUnbound v) {c : Copying} (hs : Stage hidden s c) {ty r : TypeId}
    {con : Constructor} (hv : s.Shows ty (.op r con [])) : IsCopy hidden s c ty r := by
  have hr := hv.get_op
  refine ⟨⟨hs.grows.lt (lt_of_get hr), fun w hw hmem => ?_⟩, fun c' f hs' hlater hf => ?_⟩
  · rcases hw.cases_head with rfl | ⟨b, ⟨node, hnode, hb⟩, -⟩
    · cases hr.symm.trans (hhidden _ hmem)
    · cases (hs.grows.kept hr (by simp)).symm.trans hnode
      cases hb
  · have hf' : Evolves hidden s f := hs'.grows.toEvolves.trans hf
    rw [hf'.tree_op hv, hf'.tree_op (.op hr)]
    simp

/-- Every copy is the copy of something, since the lists correspond member by member. -/
theorem exists_of_mem_copies {R : TypeId → TypeId → Prop} {args copies : List TypeId}
    (h : List.Forall₂ R args copies) {b : TypeId} (hb : b ∈ copies) : ∃ arg, R arg b := by
  induction h with
  | nil => cases hb
  | cons harg _ ih =>
    rcases List.mem_cons.mp hb with rfl | hb
    · exact ⟨_, harg⟩
    · exact ih hb

/-- Copies of components make a copy of the constructor. The constructor itself is a new node, which is clear as its
    components are. -/
theorem copyOp_isCopy (hhidden : ∀ v ∈ hidden, s.IsUnbound v) {c : Copying} (hs : Stage hidden s c)
    {ty r : TypeId} {con : Constructor} {args copies : List TypeId} (hv : s.Shows ty (.op r con args))
    (hcopies : List.Forall₂ (IsCopy hidden s c) args copies) :
    ∃ copy c', copyOp con copies c = .ok (copy, c') ∧ Stage hidden s c' ∧ Later hidden c c' ∧
      IsCopy hidden s c' ty copy := by
  have hclear : ∀ b ∈ (Node.op con copies).refs, c.store.Clear hidden b := by
    intro b hb
    obtain ⟨arg, harg⟩ := exists_of_mem_copies hcopies hb
    exact harg.1
  have hnode : ∀ b ∈ (Node.op con copies).refs, b.index < c.store.size := fun b hb => (hclear b hb).1
  have hrange : ∀ v ∈ hidden, v.index < c.store.size := fun v hv =>
    lt_of_get (hs.grows.unbound (hhidden v hv))
  have hfits : (Node.op con copies).Fits := by
    have hargs : con.Takes args.length := hs.grows.wf.fits (hs.grows.kept hv.get_op (by simp))
    rwa [hcopies.length_eq] at hargs
  have hevolves : Evolves hidden c.store (c.store.operator con copies).2 :=
    evolves_allocate hs.grows.wf hfits hnode
  refine ⟨(c.store.operator con copies).1, ⟨(c.store.operator con copies).2, c.copies⟩, rfl,
    ⟨hs.grows.allocate hfits hnode,
      fun hw => ⟨(hs.copies hw).1, hevolves.clear hs.grows.wf (hs.copies hw).2⟩⟩,
    ⟨hevolves, id⟩, clear_allocate hs.grows.wf hrange hfits hclear, fun c' f hs' hlater hf => ?_⟩
  -- In the later store the new node is there still, and the type still shows the old one.
  have hop : f.get (c.store.operator con copies).1 = .ok (.op con copies) :=
    hf.kept (hlater.evolves.kept (get_allocate_self _ _) (by simp)) (by simp)
  have hlater' : Later hidden c c' := ⟨hevolves.trans hlater.evolves, hlater.copies⟩
  have hf' : Evolves hidden s f := (hs'.grows.toEvolves).trans hf
  rw [hf.wf.grounded.tree_op hop, hf'.tree_op hv, Tree.subst_app, List.map_map, Tree.app.injEq]
  refine ⟨rfl, ?_⟩
  clear hv hclear hnode hfits hevolves hlater hop
  induction hcopies with
  | nil => rfl
  | cons harg _ ih => rw [List.map_cons, List.map_cons, ih, harg.2 c' f hs' hlater' hf]; rfl

/-! ### The whole walk -/

/-- Components one after another. Copies that have been made stay copies at the stages that follow. -/
theorem mapM_copyWithin {fuel : Nat} {args : List TypeId}
    (hcopy : ∀ arg ∈ args, ∀ c, Stage hidden s c → ∃ copy c', copyWithin pinned fuel arg c = .ok (copy, c') ∧
      Stage hidden s c' ∧ Later hidden c c' ∧ IsCopy hidden s c' arg copy) :
    ∀ c, Stage hidden s c → ∃ copies c', args.mapM (copyWithin pinned fuel) c = .ok (copies, c') ∧
      Stage hidden s c' ∧ Later hidden c c' ∧ List.Forall₂ (IsCopy hidden s c') args copies := by
  induction args with
  | nil => intro c hs; exact ⟨[], c, rfl, hs, ⟨.refl hs.grows.wf, id⟩, .nil⟩
  | cons arg args ih =>
    intro c hs
    obtain ⟨copy, c₁, hrun, hs₁, hlater₁, hiscopy⟩ := hcopy arg List.mem_cons_self c hs
    obtain ⟨copies, c₂, hrun₂, hs₂, hlater₂, hall⟩ :=
      ih (fun a ha => hcopy a (List.mem_cons_of_mem _ ha)) c₁ hs₁
    refine ⟨copy :: copies, c₂, ?_, hs₂, hlater₁.trans hlater₂, .cons (hiscopy.later hs₁ hlater₂) hall⟩
    rw [List.mapM_cons, step_of_ok hrun, step_of_ok hrun₂]
    rfl

/-- **A covered type is copied**, by induction on the fuel, which a component needs less of. The three lemmas above
    are its cases: a pinned variable, a hidden variable, and a constructor, with or without components. -/
theorem copyWithin_eq_ok (hwf : s.WellFormed) (hhidden : ∀ v ∈ hidden, s.IsUnbound v)
    (hpinned : ∀ p ∈ pinned, s.Clear hidden p) {rank : TypeId → Nat} (hrank : s.IsRank rank) :
    ∀ {fuel : Nat} {ty : TypeId}, s.Covered hidden pinned ty → rank ty < fuel → ∀ c, Stage hidden s c →
      ∃ copy c', copyWithin pinned fuel ty c = .ok (copy, c') ∧ Stage hidden s c' ∧ Later hidden c c' ∧
        IsCopy hidden s c' ty copy := by
  intro fuel
  induction fuel with
  | zero => intro ty _ hfuel; exact absurd hfuel (Nat.not_lt_zero _)
  | succ fuel ih =>
    intro ty hty hfuel c hs
    obtain ⟨v, hv, -⟩ := hwf.grounded.exists_view hty.1
    have hview := (hs.grows.shows hv).view_eq hs.grows.wf.grounded
    have hlast : Later hidden c c := ⟨.refl hs.grows.wf, id⟩
    cases v with
    | var x =>
      have hx := hv.isUnbound
      obtain ⟨b, hb, hiff⟩ : ∃ b, c.store.isPinned pinned x = .ok b ∧
          (b = true ↔ ∃ p ∈ pinned, c.store.Reaches p x) :=
        hs.grows.wf.grounded.isPinned_eq_ok (hs.grows.unbound hx) fun p hp => hs.grows.lt (hpinned p hp).lt
      rw [copyWithin_var hview hb]
      cases b with
      | true =>
        obtain ⟨p, hp, hpx⟩ := hiff.mp rfl
        exact ⟨x, c, rfl, hs, hlast, pinned_isCopy hwf hpinned hs hv hp hpx⟩
      | false =>
        -- A variable of a covered type that is not pinned is hidden.
        have hmem : x ∈ hidden := by
          rcases hty.2 x hv.reaches hx with hmem | ⟨p, hp, hpx⟩
          · exact hmem
          · exact absurd (hiff.mpr ⟨p, hp, hs.grows.reaches hpx⟩) Bool.false_ne_true
        obtain ⟨copy, c', hrun, hs', hlater, hlookup⟩ := copyVar_eq_ok hhidden hs hmem
        exact ⟨copy, c', hrun, hs', hlater, copyVar_isCopy hs' hv hlookup⟩
    | op r con args =>
      cases args with
      | nil => exact ⟨r, c, copyWithin_leaf hview, hs, hlast, leaf_isCopy hhidden hs hv⟩
      | cons arg rest =>
        have hargs : ∀ a ∈ arg :: rest, ∀ c, Stage hidden s c →
            ∃ copy c', copyWithin pinned fuel a c = .ok (copy, c') ∧ Stage hidden s c' ∧ Later hidden c c' ∧
              IsCopy hidden s c' a copy := fun a ha =>
          ih ⟨hv.arg_lt hwf.grounded ha, fun w hw => hty.2 w ((hv.reaches_arg ha).trans hw)⟩
            (by have := hv.rank_arg_lt hrank ha; omega)
        obtain ⟨copies, c₁, hrun, hs₁, hlater₁, hcopies⟩ := mapM_copyWithin hargs c hs
        obtain ⟨copy, c₂, hrun₂, hs₂, hlater₂, hiscopy⟩ := copyOp_isCopy hhidden hs₁ hv hcopies
        exact ⟨copy, c₂, (copyWithin_op hview hrun).trans hrun₂, hs₂, hlater₁.trans hlater₂, hiscopy⟩

end Copying

namespace Store

variable {s : Store} {hidden : Set TypeId} {pinned : List TypeId}

/-! ## Instances -/

/-- **An instance of a covered type**: in every later store its tree is that of the type, with hidden variables
    replaced by trees. Pinned variables are not replaced, so what is later learned of them holds of the instance as
    well. -/
theorem WellFormed.instantiate_eq_ok (hwf : s.WellFormed) (hhidden : ∀ v ∈ hidden, s.IsUnbound v)
    (hpinned : ∀ p ∈ pinned, s.Clear hidden p) {ty : TypeId} (hty : s.Covered hidden pinned ty) :
    ∃ copy s', s.instantiate pinned ty = .ok (copy, s') ∧ Grows hidden s s' ∧ s'.Clear hidden copy ∧
      ∀ f, Evolves hidden s' f →
        ∃ σ : TypeId → Tree, (∀ v, v ∉ hidden → σ v = .var v) ∧ f.tree copy = (f.tree ty).subst σ := by
  obtain ⟨rank, hrank, hle⟩ := hwf.grounded.exists_rank
  have hfuel : rank ty < s.pairBound := (hle ty).trans_lt s.size_lt_pairBound
  have hstart : Copying.Stage hidden s ⟨s, []⟩ := ⟨.refl hwf, by simp⟩
  obtain ⟨copy, c, hrun, hs, hlater, hclear, hcopy⟩ :=
    Copying.copyWithin_eq_ok hwf hhidden hpinned hrank hty hfuel _ hstart
  refine ⟨copy, c.store, ?_, hs.grows, hclear, fun f hf => ?_⟩
  · show (Copying.copyWithin pinned s.pairBound ty ⟨s, []⟩ >>= fun p => .ok (p.1, p.2.store)) = _
    rw [hrun]; rfl
  · exact ⟨_, fun v hv => hs.renewal_eq hv f, hcopy c f hs ⟨.refl hs.grows.wf, id⟩ hf⟩

/-! ## Hiding whatever is not pinned -/

/-- The unbound variables that are part of no pinned type. Hiding all of them makes every type covered. -/
def Unpinned (s : Store) (pinned : List TypeId) : Set TypeId :=
  {v | s.IsUnbound v ∧ ∀ p ∈ pinned, ¬ s.Reaches p v}

/-- Pinned types are clear of the variables that are not pinned. -/
theorem clear_unpinned {p : TypeId} (hp : p.index < s.size) (hmem : p ∈ pinned) :
    s.Clear (s.Unpinned pinned) p :=
  ⟨hp, fun _ hr hv => hv.2 p hmem hr⟩

/-- With all variables hidden that are not pinned, every type is covered. -/
theorem covered_unpinned {a : TypeId} (ha : a.index < s.size) : s.Covered (s.Unpinned pinned) pinned a := by
  refine ⟨ha, fun v _ hv => ?_⟩
  by_cases h : ∃ p ∈ pinned, s.Reaches p v
  · exact .inr h
  · exact .inl ⟨hv, fun p hp hr => h ⟨p, hp, hr⟩⟩

/-- Hidden variables are not pinned, when pinned types are clear of them. -/
theorem subset_unpinned (hhidden : ∀ v ∈ hidden, s.IsUnbound v) (hpinned : ∀ p ∈ pinned, s.Clear hidden p) :
    hidden ⊆ s.Unpinned pinned :=
  fun v hv => ⟨hhidden v hv, fun p hp hr => (hpinned p hp).2 v hr hv⟩

/-- **An instance is clear of the hidden variables**, whatever the copied type is, so the use of a polymorphic name
    never binds a variable of its type. -/
theorem WellFormed.instantiate_clear (hwf : s.WellFormed) (hhidden : ∀ v ∈ hidden, s.IsUnbound v)
    (hpinned : ∀ p ∈ pinned, s.Clear hidden p) {ty : TypeId} (hty : ty.index < s.size) :
    ∃ copy s', s.instantiate pinned ty = .ok (copy, s') ∧ Evolves hidden s s' ∧ s'.Clear hidden copy := by
  have hsub := subset_unpinned hhidden hpinned
  have hall : ∀ p ∈ pinned, s.Clear (s.Unpinned pinned) p := fun p hp => clear_unpinned (hpinned p hp).lt hp
  obtain ⟨copy, s', hrun, hgrows, hclear, -⟩ :=
    hwf.instantiate_eq_ok (fun v hv => hv.1) hall (covered_unpinned hty)
  exact ⟨copy, s', hrun, hgrows.toEvolves.mono hsub, hclear.mono hsub⟩

end Store

end TypeInference
