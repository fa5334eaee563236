import Mathlib.Data.Set.Basic
import TypeInference.Proofs.Ty.Persistence

/-!
# `Proofs.Ty.Evolution` — what becomes of a store

A store changes in two ways only: a node is added, or an unbound variable is bound. `Evolves` collects what
every sequence of such changes keeps: nodes stay as they are unless they are unbound variables, the store
stays well-formed, and the trail grows by exactly the variables that were bound.

`Evolves` also watches over a set of *hidden* variables. A type is `Clear` of them when it reaches none.
Bindings are made between clear types only, so hidden variables stay unbound and clear types stay clear,
whatever happens elsewhere in the store. This is what keeps the variables of a polymorphic type apart from
the uses of the type.

## Contents
* `Clear`, `Covered` — types without hidden variables; types whose variables are hidden or pinned;
* `Evolves` and what it keeps, up to `tree_eq_subst`: the later tree is an instance of the earlier one;
* `evolves_allocate`, `evolves_bind` — the two changes.
-/

namespace TypeInference

open Relation

namespace Store

variable {s s' s'' : Store} {hidden : Set TypeId}

/-! ## Hidden variables -/

/-- The type lies in the store and reaches no hidden variable. All that an analysis binds is clear, so hidden
    variables are never drawn into a binding. -/
def Clear (s : Store) (hidden : Set TypeId) (a : TypeId) : Prop :=
  a.index < s.size ∧ ∀ v, s.Reaches a v → v ∉ hidden

/-- Every unbound variable of the type is hidden, or part of a pinned type. Of such a type all that may change later
    changes with the pinned types, and the rest is free to be copied. -/
def Covered (s : Store) (hidden : Set TypeId) (pinned : List TypeId) (a : TypeId) : Prop :=
  a.index < s.size ∧ ∀ v, s.Reaches a v → s.IsUnbound v → v ∈ hidden ∨ ∃ p ∈ pinned, s.Reaches p v

theorem Clear.lt {a : TypeId} (h : s.Clear hidden a) : a.index < s.size := h.1

theorem Clear.reaches {a b : TypeId} (hwf : s.WellFormed) (h : s.Clear hidden a) (hr : s.Reaches a b) :
    s.Clear hidden b :=
  ⟨hwf.grounded.reaches_lt h.1 hr, fun v hv => h.2 v (hr.trans hv)⟩

theorem Clear.not_mem {a : TypeId} (h : s.Clear hidden a) : a ∉ hidden := h.2 a .refl

theorem Clear.mono {hidden' : Set TypeId} {a : TypeId} (hsub : hidden' ⊆ hidden) (h : s.Clear hidden a) :
    s.Clear hidden' a :=
  ⟨h.1, fun v hv hmem => h.2 v hv (hsub hmem)⟩

theorem Covered.mono {pinned pinned' : List TypeId} {a : TypeId} (hsub : pinned ⊆ pinned')
    (h : s.Covered hidden pinned a) : s.Covered hidden pinned' a :=
  ⟨h.1, fun v hr hv => (h.2 v hr hv).imp_right fun ⟨p, hp, hpv⟩ => ⟨p, hsub hp, hpv⟩⟩

theorem covered_of_mem {pinned : List TypeId} {a : TypeId} (ha : a.index < s.size) (hmem : a ∈ pinned) :
    s.Covered hidden pinned a :=
  ⟨ha, fun _ hr _ => .inr ⟨a, hmem, hr⟩⟩

/-! ## Evolution -/

/-- `s'` comes from `s` by new nodes and by bindings between clear types. The fields say what any number of such
    changes leaves true, so the relation is closed under sequence, and the trail says exactly which variables have
    been bound. -/
structure Evolves (hidden : Set TypeId) (s s' : Store) : Prop where
  wf : s'.WellFormed
  size_le : s.size ≤ s'.size
  kept : ∀ {id node}, s.get id = .ok node → node ≠ .var none → s'.get id = .ok node
  var : ∀ {id}, s.IsUnbound id → ∃ binding, s'.get id = .ok (.var binding)
  boundClear : ∀ {id}, s.IsUnbound id → ¬ s'.IsUnbound id → s'.Clear hidden id
  trail : ∃ since, s'.trail = since ++ s.trail ∧
    ∀ id : TypeId, id.index < s.size → (id ∈ since ↔ s.IsUnbound id ∧ ¬ s'.IsUnbound id)

namespace Evolves

theorem refl (h : s.WellFormed) : Evolves hidden s s where
  wf := h
  size_le := Nat.le_refl _
  kept := fun hget _ => hget
  var := fun hv => ⟨_, hv⟩
  boundClear := fun hv hnv => absurd hv hnv
  trail := ⟨[], rfl, by simp⟩

theorem lt (h : Evolves hidden s s') {a : TypeId} (ha : a.index < s.size) : a.index < s'.size :=
  ha.trans_le h.size_le

theorem persists (h : Evolves hidden s s') : Persists s s' := ⟨h.size_le, h.kept⟩

theorem refers (h : Evolves hidden s s') {a b : TypeId} (hr : s.Refers a b) : s'.Refers a b :=
  h.persists.refers hr

theorem reaches (h : Evolves hidden s s') {a b : TypeId} (hr : s.Reaches a b) : s'.Reaches a b :=
  h.persists.reaches hr

/-- What is unbound in the end has always been. -/
theorem isUnbound_of_isUnbound (h : Evolves hidden s s') {v : TypeId} (hlt : v.index < s.size)
    (hv : s'.IsUnbound v) : s.IsUnbound v :=
  h.persists.isUnbound_of_isUnbound hlt hv

/-! ### Hidden variables stay apart -/

/-- An arrow that is new leaves a new node or a variable that has been bound meanwhile; all other arrows have been
    there before. -/
theorem refers_of_refers (h : Evolves hidden s s') {a b : TypeId} (hlt : a.index < s.size)
    (hr : s'.Refers a b) : s.Refers a b ∨ s.IsUnbound a ∧ ¬ s'.IsUnbound a := by
  obtain ⟨node, hget⟩ := exists_get_iff.mpr hlt
  by_cases hnode : node = .var none
  · exact .inr ⟨by rwa [hnode] at hget, fun hv => not_refers_of_unbound hv hr⟩
  · obtain ⟨node', hget', hb⟩ := hr
    cases (h.kept hget hnode).symm.trans hget'
    exact .inl ⟨node, hget, hb⟩

/-- **Clear types stay clear.** A path to a hidden variable in the later store would pass a variable bound
    meanwhile, and that one was bound to something clear. -/
theorem clear (hwf : s.WellFormed) (h : Evolves hidden s s') {a : TypeId} (ha : s.Clear hidden a) :
    s'.Clear hidden a := by
  refine ⟨h.lt ha.1, fun v hr => ?_⟩
  -- Every type on the path is clear: it was so before, or it has been bound and is so now.
  have hpath : s.Clear hidden v ∨ s'.Clear hidden v := by
    induction hr with
    | refl => exact .inl ha
    | tail _ hstep ih =>
      rcases ih with hb | hb
      · rcases h.refers_of_refers hb.1 hstep with hold | ⟨hv, hnv⟩
        · exact .inl (hb.reaches hwf (.single hold))
        · exact .inr ((h.boundClear hv hnv).reaches h.wf (.single hstep))
      · exact .inr (hb.reaches h.wf (.single hstep))
  exact hpath.elim Clear.not_mem Clear.not_mem

/-- Hidden variables stay unbound, because a variable that gets bound is clear and a hidden variable does not avoid
    itself. -/
theorem isUnbound (h : Evolves hidden s s') {v : TypeId} (hv : s.IsUnbound v) (hmem : v ∈ hidden) :
    s'.IsUnbound v := by
  by_contra hnv
  exact (h.boundClear hv hnv).not_mem hmem

theorem trans (h : Evolves hidden s s') (h' : Evolves hidden s' s'') :
    Evolves hidden s s'' where
  wf := h'.wf
  size_le := h.size_le.trans h'.size_le
  kept := fun hget hnode => h'.kept (h.kept hget hnode) hnode
  var := fun {id} hv => by
    by_cases hv' : s'.IsUnbound id
    · exact h'.var hv'
    · obtain ⟨binding, hget⟩ := h.var hv
      refine ⟨binding, h'.kept hget ?_⟩
      rintro he
      cases he
      exact hv' hget
  boundClear := fun {id} hv hnv => by
    by_cases hv' : s'.IsUnbound id
    · exact h'.boundClear hv' hnv
    · exact h'.clear h.wf (h.boundClear hv hv')
  trail := by
    obtain ⟨first, htrail, hfirst⟩ := h.trail
    obtain ⟨second, htrail', hsecond⟩ := h'.trail
    refine ⟨second ++ first, by rw [htrail', htrail, List.append_assoc], fun id hlt => ?_⟩
    have hback := h.isUnbound_of_isUnbound (v := id) hlt
    have hback' := h'.isUnbound_of_isUnbound (v := id) (h.lt hlt)
    rw [List.mem_append, hfirst id hlt, hsecond id (h.lt hlt)]
    tauto

theorem mono {hidden' : Set TypeId} (hsub : hidden' ⊆ hidden) (h : Evolves hidden s s') :
    Evolves hidden' s s' where
  wf := h.wf
  size_le := h.size_le
  kept := h.kept
  var := h.var
  boundClear := fun hv hnv => (h.boundClear hv hnv).mono hsub
  trail := h.trail

/-- **Covered types stay covered.** A variable that gets bound is replaced by others; if it was part of a pinned
    type they are parts of that type now, and hidden variables are not bound at all. -/
theorem covered (hwf : s.WellFormed) (h : Evolves hidden s s') {pinned : List TypeId} {a : TypeId}
    (ha : s.Covered hidden pinned a) : s'.Covered hidden pinned a := by
  -- A type on a path from `a` is covered as it was, or a pinned type reaches it by now.
  have hpath : ∀ v, s'.Reaches a v → s.Covered hidden pinned v ∨ ∃ p ∈ pinned, s'.Reaches p v := by
    intro v hr
    induction hr with
    | refl => exact .inl ha
    | @tail b c _ hstep ih =>
      rcases ih with hb | ⟨p, hp, hpb⟩
      · rcases h.refers_of_refers hb.1 hstep with hold | ⟨hub, hnub⟩
        · exact .inl ⟨hwf.inRange hold, fun u hu => hb.2 u (hu.head hold)⟩
        · rcases hb.2 b .refl hub with hmem | ⟨p, hp, hpb⟩
          · exact absurd (h.isUnbound hub hmem) hnub
          · exact .inr ⟨p, hp, (h.reaches hpb).tail hstep⟩
      · exact .inr ⟨p, hp, hpb.tail hstep⟩
  refine ⟨h.lt ha.1, fun v hr hv => ?_⟩
  rcases hpath v hr with hc | hp
  · rcases hc.2 v .refl (h.isUnbound_of_isUnbound hc.1 hv) with hmem | ⟨p, hp, hpv⟩
    · exact .inl hmem
    · exact .inr ⟨p, hp, h.reaches hpv⟩
  · exact .inr hp

/-! ### Trees -/

theorem shows_op (h : Evolves hidden s s') {a r : TypeId} {con : Constructor} {args : List TypeId}
    (hv : s.Shows a (.op r con args)) : s'.Shows a (.op r con args) :=
  h.persists.shows_op hv

theorem tree_shows (h : Evolves hidden s s') {a : TypeId} {v : View} (hv : s.Shows a v) :
    s'.tree a = s'.tree v.id :=
  h.persists.tree_shows h.wf.grounded hv

/-- A constructor that was shown stays at the root of the tree. -/
theorem tree_op (h : Evolves hidden s s') {a r : TypeId} {con : Constructor} {args : List TypeId}
    (hv : s.Shows a (.op r con args)) : s'.tree a = .app con (args.map s'.tree) :=
  (h.shows_op hv).tree_op h.wf.grounded

/-- **A later tree is an instance of the earlier one**: its variables have given way to their trees. -/
theorem tree_eq_subst (hwf : s.WellFormed) (h : Evolves hidden s s') {a : TypeId} (ha : a.index < s.size) :
    s'.tree a = (s.tree a).subst s'.tree :=
  h.persists.tree_eq_subst hwf.grounded h.wf.grounded ha

/-- Types that have one tree go on having one tree. -/
theorem tree_congr (hwf : s.WellFormed) (h : Evolves hidden s s') {a b : TypeId} (ha : a.index < s.size)
    (hb : b.index < s.size) (heq : s.tree a = s.tree b) : s'.tree a = s'.tree b :=
  h.persists.tree_congr hwf.grounded h.wf.grounded ha hb heq

end Evolves

/-! ## The first store -/

/-- The nodes of the first store are primitive types. -/
theorem initial_get_ne_var {id : TypeId} {binding : Option TypeId} : initial.get id ≠ .ok (.var binding) := by
  obtain ⟨i⟩ := id
  match i with
  | 0 | 1 | 2 | 3 => simp [get, initial]
  | i + 4 => simp [get, initial]

/-- A store begins well-formed: its nodes are the primitive types, which have no components. -/
theorem wellFormed_initial : initial.WellFormed := by
  have hnone : ∀ a b, ¬ initial.Refers a b := by
    rintro ⟨i⟩ b ⟨node, hget, hb⟩
    match i with
    | 0 | 1 | 2 | 3 => obtain rfl := Except.ok.inj hget; cases hb
    | i + 4 => simp [get, initial] at hget
  refine ⟨fun hr => absurd hr (hnone _ _), fun a => ?_, by simp [initial], List.nodup_nil, fun _ _ h => h, ?_⟩
  · exact @IsRank.acyclic _ (fun _ => 0) (fun hr => absurd hr (hnone _ _)) a
  · rintro ⟨i⟩ node hget
    match i with
    | 0 | 1 | 2 | 3 => obtain rfl := Except.ok.inj hget; rfl
    | i + 4 => simp [get, initial] at hget

/-! ## The first change: a new node -/

/-- What a store holds after a node has been added: the node at the end, and before it what it held. -/
theorem get_allocate (s : Store) (node : Node) (id : TypeId) :
    (s.allocate node).2.get id = if id.index = s.size then .ok node else s.get id := by
  by_cases h : id.index = s.size
  · rw [if_pos h, ← get_allocate_self s node, ← h]
  · rw [if_neg h]
    simp only [get, allocate, Array.getElem?_push, if_neg (show id.index ≠ s.nodes.size from h)]

/-- **A new node whose components are there** closes no cycle. Nothing refers to the new number yet, so no path
    comes back to it. -/
theorem Grounded.allocate (h : s.Grounded) {node : Node} (hnode : ∀ b ∈ node.refs, b.index < s.size) :
    (s.allocate node).2.Grounded := by
  have hcases : ∀ {a b}, (s.allocate node).2.Refers a b →
      (a.index = s.size ∧ b ∈ node.refs) ∨ (a.index ≠ s.size ∧ s.Refers a b) := by
    rintro a b ⟨found, hget, hb⟩
    rw [get_allocate] at hget
    split at hget
    · next ha => cases hget; exact .inl ⟨ha, hb⟩
    · next ha => exact .inr ⟨ha, found, hget, hb⟩
  obtain ⟨rank, hrank, hle⟩ := h.exists_rank
  refine ⟨fun {a b} hr => ?_, fun a => ?_⟩
  · rw [size_allocate]
    rcases hcases hr with ⟨_, hb⟩ | ⟨_, hr⟩
    · exact (hnode b hb).trans (Nat.lt_succ_self _)
    · exact (h.inRange hr).trans (Nat.lt_succ_self _)
  · -- The new node stands above all others.
    refine @IsRank.acyclic _ (fun x => if x.index = s.size then s.size + 1 else rank x) ?_ a
    intro a b hr
    have hb : b.index < s.size := by
      rcases hcases hr with ⟨_, hb⟩ | ⟨_, hr⟩
      · exact hnode b hb
      · exact h.inRange hr
    rcases hcases hr with ⟨ha, _⟩ | ⟨ha, hr⟩
    · simp only [ha, hb.ne, ↓reduceIte]
      exact Nat.lt_succ_of_le (hle b)
    · simp only [ha, hb.ne, ↓reduceIte]
      exact hrank hr

/-- A new node whose components are there keeps a store well-formed. -/
theorem WellFormed.allocate (h : s.WellFormed) {node : Node} (hfits : node.Fits)
    (hnode : ∀ b ∈ node.refs, b.index < s.size) : (s.allocate node).2.WellFormed := by
  have hkeep : ∀ {id found}, s.get id = .ok found → (s.allocate node).2.get id = .ok found := by
    intro id found hget
    rw [get_allocate, if_neg (lt_of_get hget).ne]
    exact hget
  obtain ⟨hrange, hacyclic⟩ := h.grounded.allocate hnode
  refine ⟨hrange, hacyclic, fun v hv => ?_, h.trailNodup, fun id found hget => ?_, fun hget => ?_⟩
  · obtain ⟨target, hget⟩ := h.trailBound v hv
    exact ⟨target, hkeep hget⟩
  · exact hkeep (h.primitives id found hget)
  · rw [get_allocate] at hget
    split at hget
    · cases hget; exact hfits
    · exact h.fits hget

/-- **A new node** is a step of evolution, whatever is hidden. -/
theorem evolves_allocate (h : s.WellFormed) {node : Node} (hfits : node.Fits)
    (hnode : ∀ b ∈ node.refs, b.index < s.size) : Evolves hidden s (s.allocate node).2 where
  wf := h.allocate hfits hnode
  size_le := by rw [size_allocate]; exact Nat.le_succ _
  kept := fun hget _ => (get_allocate_of_lt (lt_of_get hget)).trans hget
  var := fun hv => ⟨_, (get_allocate_of_lt (lt_of_get hv)).trans hv⟩
  boundClear := fun hv hnv => absurd ((get_allocate_of_lt (lt_of_get hv)).trans hv) hnv
  trail := ⟨[], rfl, fun id hlt => by
    have : (s.allocate node).2.IsUnbound id ↔ s.IsUnbound id := by
      rw [IsUnbound, get_allocate_of_lt hlt, IsUnbound]
    simp [this]⟩

/-- A new node is clear if its components are, because no hidden variable is new. -/
theorem clear_allocate (h : s.WellFormed) (hhidden : ∀ v ∈ hidden, v.index < s.size) {node : Node}
    (hfits : node.Fits) (hnode : ∀ b ∈ node.refs, s.Clear hidden b) :
    (s.allocate node).2.Clear hidden (s.allocate node).1 := by
  have hevolves : Evolves hidden s (s.allocate node).2 := evolves_allocate h hfits fun b hb => (hnode b hb).1
  refine ⟨by rw [allocate_fst, size_allocate]; exact Nat.lt_succ_self _, fun v hr hmem => ?_⟩
  rcases hr.cases_head with rfl | ⟨b, ⟨found, hget, hb⟩, hbv⟩
  · exact Nat.lt_irrefl _ (hhidden _ hmem)
  · rw [allocate_fst, get_allocate_self] at hget
    cases hget
    exact (hevolves.clear h (hnode b hb)).2 v hbv hmem

/-! ## The second change: a binding -/

theorem exists_bind {var target : TypeId} (hv : s.IsUnbound var) : ∃ s', s.bind var target = .ok s' :=
  ⟨_, bind_eq_ok_iff.mpr ⟨hv, rfl⟩⟩

/-- The arrows after a binding are the one from the variable to its target, and the old ones that leave other nodes. -/
theorem refers_of_bind {var target a b : TypeId} (hbind : s.bind var target = .ok s') :
    s'.Refers a b → (a = var ∧ b = target) ∨ (a ≠ var ∧ s.Refers a b) := by
  rintro ⟨node, hget, hb⟩
  by_cases ha : a = var
  · subst ha
    rw [get_of_bind_self hbind] at hget
    cases hget
    exact .inl ⟨rfl, by simpa [Node.refs] using hb⟩
  · rw [get_of_bind_ne hbind ha] at hget
    exact .inr ⟨ha, node, hget, hb⟩

/-- **A binding that passes the occurs check** closes no cycle. A cycle through the new arrow would lead from the
    target back to the variable along old arrows, and the check has denied that path. -/
theorem Grounded.bind (h : s.Grounded) {var target : TypeId} (hbind : s.bind var target = .ok s')
    (ht : target.index < s.size) (hno : ¬ s.Reaches target var) : s'.Grounded := by
  classical
  obtain ⟨rank, hrank, -⟩ := h.exists_rank
  refine ⟨fun {a b} hr => ?_, fun a => ?_⟩
  · rw [size_of_bind hbind]
    rcases refers_of_bind hbind hr with ⟨_, rfl⟩ | ⟨_, hr⟩
    · exact ht
    · exact h.inRange hr
  · -- Whatever reaches the variable is lifted above the target.
    refine @IsRank.acyclic _ (fun x => rank x + if s.Reaches x var then rank target + 1 else 0) ?_ a
    intro a b hr
    rcases refers_of_bind hbind hr with ⟨rfl, rfl⟩ | ⟨_, hr⟩
    · simp only [hno, ↓reduceIte, ReflTransGen.refl]
      omega
    · have hlt := hrank hr
      by_cases hb : s.Reaches b var
      · simp only [hb, hb.head hr, ↓reduceIte]
        omega
      · simp only [hb, ↓reduceIte]
        omega

/-- A binding that passes the occurs check keeps a store well-formed: the variable was unbound before, and hence is
    new on the trail. -/
theorem WellFormed.bind (h : s.WellFormed) {var target : TypeId} (hbind : s.bind var target = .ok s')
    (ht : target.index < s.size) (hno : ¬ s.Reaches target var) : s'.WellFormed := by
  have hv : s.IsUnbound var := (bind_eq_ok_iff.mp hbind).1
  have hne : ∀ {id found}, s.get id = .ok found → found ≠ .var none → id ≠ var := by
    rintro id found hget hfound rfl
    exact hfound (Except.ok.inj (hget.symm.trans hv))
  obtain ⟨hrange, hacyclic⟩ := h.grounded.bind hbind ht hno
  refine ⟨hrange, hacyclic, fun v hmem => ?_, ?_, fun id found hget => ?_, fun {id found} hget => ?_⟩
  · rw [(bind_eq_ok_iff.mp hbind).2] at hmem
    rcases List.mem_cons.mp hmem with rfl | hmem
    · exact ⟨target, get_of_bind_self hbind⟩
    · obtain ⟨found, hget⟩ := h.trailBound v hmem
      exact ⟨found, (get_of_bind_ne hbind (hne hget (by simp))).trans hget⟩
  · rw [(bind_eq_ok_iff.mp hbind).2]
    refine List.nodup_cons.mpr ⟨fun hmem => ?_, h.trailNodup⟩
    obtain ⟨found, hget⟩ := h.trailBound var hmem
    cases hv.symm.trans hget
  · have hget' := h.primitives id found hget
    refine (get_of_bind_ne hbind (hne hget' ?_)).trans hget'
    rintro rfl
    exact initial_get_ne_var hget
  · by_cases he : id = var
    · cases hget.symm.trans (he ▸ get_of_bind_self hbind)
      trivial
    · exact h.fits ((get_of_bind_ne hbind he).symm.trans hget)

/-- **A binding between clear types** is a step of evolution, the second of the two kinds. -/
theorem evolves_bind (h : s.WellFormed) {var target : TypeId} (hbind : s.bind var target = .ok s')
    (hvar : s.Clear hidden var) (ht : s.Clear hidden target) (hno : ¬ s.Reaches target var) :
    Evolves hidden s s' where
  wf := h.bind hbind ht.1 hno
  size_le := (size_of_bind hbind).ge
  kept := fun {id node} hget hnode => by
    refine (get_of_bind_ne hbind ?_).trans hget
    rintro rfl
    exact hnode (Except.ok.inj (hget.symm.trans (bind_eq_ok_iff.mp hbind).1))
  var := fun {id} hv => by
    by_cases he : id = var
    · exact ⟨_, he ▸ get_of_bind_self hbind⟩
    · exact ⟨_, (get_of_bind_ne hbind he).trans hv⟩
  boundClear := fun {id} hv hnv => by
    obtain rfl : id = var := by
      by_contra he
      exact hnv ((get_of_bind_ne hbind he).trans hv)
    -- Every path from the bound variable leads through the target, which is clear.
    have hpath : ∀ v, s'.Reaches id v → s.Clear hidden v := by
      intro v hr
      induction hr with
      | refl => exact hvar
      | tail _ hstep ih =>
        rcases refers_of_bind hbind hstep with ⟨_, rfl⟩ | ⟨_, hold⟩
        · exact ht
        · exact ih.reaches h (.single hold)
    exact ⟨(size_of_bind hbind).symm ▸ hvar.1, fun v hr => (hpath v hr).not_mem⟩
  trail := by
    refine ⟨[var], by rw [(bind_eq_ok_iff.mp hbind).2]; rfl, fun id _ => ?_⟩
    rw [List.mem_singleton]
    constructor
    · rintro rfl
      exact ⟨(bind_eq_ok_iff.mp hbind).1, fun hv => by cases hv.symm.trans (get_of_bind_self hbind)⟩
    · rintro ⟨hv, hnv⟩
      by_contra he
      exact hnv ((get_of_bind_ne hbind he).trans hv)

end Store

end TypeInference
