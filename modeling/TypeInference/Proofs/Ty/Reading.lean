import TypeInference.Proofs.Ty.Copy
import TypeInference.Proofs.Ty.Solution

/-!
# `Proofs.Ty.Reading` — readings of a store that has changed

A reading gives every type a tree. A later store says more, so its readings read the earlier store; and a reading
of the earlier store can be continued, because what has been added is read from its components. A new variable may
have any tree. A copy may have the tree of the copied type with other trees for its variables, as long as those of
the pinned types keep theirs: the variables of the copy are new, or are pinned.

## Contents
* `Store.Agree`, `Evolves.reads`, `Grows.reads` — readings of a store and of a later one;
* `Node.ReadAs`, `Reads.allocate` — a reading after a node has been added;
* `Renews.reads` — a reading after a type has been copied.
-/

namespace TypeInference

/-! ## Readings of later stores -/

namespace Store

variable {s s' : Store} {hidden : Set TypeId} {reading reading' reading'' : TypeId → Tree}

/-- The second reading gives the types of the store the trees that the first one gives them. They may differ outside
    the store, where new types will be. -/
def Agree (s : Store) (reading reading' : TypeId → Tree) : Prop :=
  ∀ a : TypeId, a.index < s.size → reading' a = reading a

theorem Agree.refl : s.Agree reading reading := fun _ _ => rfl

theorem Agree.trans (h : s.Agree reading reading') (hle : s.size ≤ s'.size)
    (h' : s'.Agree reading' reading'') : s.Agree reading reading'' :=
  fun a ha => (h' a (ha.trans_le hle)).trans (h a ha)

theorem Agree.map (h : s.Agree reading reading') {ids : List TypeId} (hids : ∀ a ∈ ids, a.index < s.size) :
    ids.map reading' = ids.map reading :=
  List.map_congr_left fun a ha => h a (hids a ha)

/-- Whether something is a reading depends on the types of the store only. -/
theorem Reads.agree (h : s.Reads reading) (hs : s.Grounded) (ha : s.Agree reading reading') :
    s.Reads reading' where
  bound := fun hget => by
    rw [ha _ (lt_of_get hget), ha _ (hs.inRange (refers_of_bound hget)), h.bound hget]
  op := fun {r con args} hget => by
    rw [ha _ (lt_of_get hget), h.op hget, ha.map fun b hb => hs.inRange (refers_of_op hget hb)]

/-- A reading of a later store reads the earlier one, which has fewer equations. -/
theorem Evolves.reads (hs : Evolves hidden s s') (h : s'.Reads reading) : s.Reads reading :=
  hs.persists.reads h

/-- **A reading is continued** to a store that has grown without bindings. New variables may have any trees, for
    nothing has been said of them. -/
theorem Grows.reads (hs : Grows hidden s s') (hwf : s.WellFormed) (h : s.Reads reading) :
    s'.Reads (s'.value reading) ∧ s.Agree reading (s'.value reading) := by
  have hreads := hs.wf.grounded.reads_value reading
  refine ⟨hreads, fun a ha => ?_⟩
  -- Both read the earlier store, and agree on its unbound variables.
  have hvalue : s.value reading a = s'.value reading a :=
    hwf.grounded.value_eq (hs.toEvolves.reads hreads)
      (fun v hv => (hs.wf.grounded.value_of_isUnbound (hs.unbound hv)).symm) ha
  rw [← hvalue, hwf.grounded.value_eq h (fun _ _ => rfl) ha]

/-- Primitive types are read as what they are, in every reading of every store that has evolved from the first. -/
theorem Reads.primitive (h : s.Reads reading) (hwf : s.WellFormed) {id : TypeId} {con : Constructor}
    (hid : initial.get id = .ok (.op con [])) : reading id = .app con [] :=
  h.op (hwf.primitives _ _ hid)

/-- The trees of a later store read the earlier one: what has come of a store is one of its solutions. -/
theorem Evolves.reads_tree (hs : Evolves hidden s s') : s.Reads s'.tree :=
  hs.reads hs.wf.grounded.reads_tree

/-- A reading stays one when variables of its trees are replaced, everywhere in the same way. -/
theorem Reads.subst (h : s.Reads reading) (σ : TypeId → Tree) : s.Reads fun a => (reading a).subst σ where
  bound := fun hget => by rw [h.bound hget]
  op := fun hget => by rw [h.op hget, Tree.subst_app, List.map_map]; rfl

end Store

/-! ## A further node -/

/-- The node has this tree when the types that it mentions are read as they are. -/
def Node.ReadAs (reading : TypeId → Tree) (t : Tree) : Node → Prop
  | .var none => True
  | .var (some target) => t = reading target
  | .op con args => t = .app con (args.map reading)

namespace Store

variable {s s' : Store} {reading : TypeId → Tree}

/-- **A new node** is read from the types that it mentions, and any tree will do for a new variable. -/
theorem Reads.allocate (h : s.Reads reading) (hs : s.Grounded) {node : Node}
    (hnode : ∀ b ∈ node.refs, b.index < s.size) {t : Tree} (ht : node.ReadAs reading t) :
    ∃ reading', (s.allocate node).2.Reads reading' ∧ s.Agree reading reading' ∧ reading' ⟨s.size⟩ = t := by
  let extended : TypeId → Tree := fun a => if a.index = s.size then t else reading a
  have hagree : s.Agree reading extended := fun a ha => if_neg ha.ne
  have hold := h.agree hs hagree
  have hself : ∀ {a : TypeId}, a.index = s.size → extended a = t := fun ha => if_pos ha
  refine ⟨extended, ⟨fun {v target} hget => ?_, fun {r con args} hget => ?_⟩, hagree, hself rfl⟩
  · rw [get_allocate] at hget
    split at hget
    · next hv =>
      cases hget
      have htarget : extended target = reading target := hagree target (hnode target (by simp [Node.refs]))
      rw [hself hv, htarget]
      exact ht
    · exact hold.bound hget
  · rw [get_allocate] at hget
    split at hget
    · next hr =>
      cases hget
      have hargs : args.map extended = args.map reading := hagree.map hnode
      rw [hself hr, hargs]
      exact ht
    · exact hold.op hget

/-! ## A copy -/

variable {pinned : List TypeId} {ty copy : TypeId} {name : TypeId → TypeId} {σ : TypeId → Tree}

/-- **A copy** may be read as the type with other trees for its variables, if those of the pinned types keep theirs.
    The variables of the copy that are not pinned are new, so no equation of the store is about them. -/
theorem Renews.reads (h : Renews s pinned ty copy s' name) (hs : s.Grounded) (hty : ty.index < s.size)
    (hpinned : ∀ p ∈ pinned, p.index < s.size) (hreads : s.Reads reading)
    (hσ : ∀ p ∈ pinned, ∀ v, (reading p).HasVar v → (reading ty).HasVar v → σ v = .var v) :
    ∃ reading', s'.Reads reading' ∧ s.Agree reading reading' ∧ reading' copy = (reading ty).subst σ := by
  classical
  have hvalue : ∀ {a : TypeId}, a.index < s.size → reading a = (s.tree a).subst reading := fun ha =>
    (hs.value_eq hreads (fun _ _ => rfl) ha).symm
  -- The new name of a variable gets the tree that the variable has after the replacement.
  let chosen : TypeId → Tree := fun w =>
    if hw : ∃ v, (s.tree ty).HasVar v ∧ s.size ≤ (name v).index ∧ name v = w then (reading hw.choose).subst σ
    else reading w
  have hold : ∀ {w : TypeId}, w.index < s.size → chosen w = reading w := by
    intro w hw
    refine dif_neg ?_
    rintro ⟨v, -, hle, rfl⟩
    exact absurd hw (Nat.not_lt.mpr hle)
  have hchosen : ∀ v, (s.tree ty).HasVar v → chosen (name v) = (reading v).subst σ := by
    intro v hv
    by_cases hpin : ∃ p ∈ pinned, (s.tree p).HasVar v
    · obtain ⟨p, hp, hvar⟩ := hpin
      rw [h.kept v hv ⟨p, hp, hvar⟩, hold (lt_of_get ((hs.hasVar_tree_iff hty).mp hv).2)]
      refine (Tree.subst_eq_self fun w hw => hσ p hp w ?_ ?_).symm
      · rw [hvalue (hpinned p hp), Tree.hasVar_subst]
        exact ⟨v, hvar, hw⟩
      · rw [hvalue hty, Tree.hasVar_subst]
        exact ⟨v, hv, hw⟩
    · have hnew : ∃ u, (s.tree ty).HasVar u ∧ s.size ≤ (name u).index ∧ name u = name v :=
        ⟨v, hv, (h.renewed v hv hpin).1, rfl⟩
      have hsame : hnew.choose = v := h.injOn hnew.choose_spec.1 hv hnew.choose_spec.2.2
      rw [show chosen (name v) = (reading hnew.choose).subst σ from dif_pos hnew, hsame]
  refine ⟨s'.value chosen, h.appends.grounded.reads_value chosen, fun a ha => ?_, ?_⟩
  · rw [value, h.appends.tree_eq hs ha, hvalue ha]
    exact Tree.subst_congr _ fun v hv => hold (lt_of_get ((hs.hasVar_tree_iff ha).mp hv).2)
  · rw [value, h.tree_eq, Tree.rename, Tree.subst_subst, hvalue hty, Tree.subst_subst]
    refine Tree.subst_congr _ fun v hv => ?_
    rw [Tree.subst_var, hchosen v hv]

end Store

end TypeInference
