import TypeInference.Proofs.Ty.Tree

/-!
# `Proofs.Ty.Solution` — what the variables of a store may stand for

The bindings of a store are equations: a bound variable stands for what it is bound to. A *solution* gives
every variable a finite tree such that all these equations hold. The leaves `Tree.var` of such a tree play no
part in the equations; they are constants, and a solution by trees of constructors alone is one without them.

A *reading* gives a tree to every type at once, variable or not, and agrees with every node. On a grounded
store a solution has exactly one reading, its `value`, and a reading is the value of a solution. Readings are
what proofs work with: a further binding is a further equation of a reading, and nothing has to be said about
the trees that it changes elsewhere.

## Contents
* `Store.value`, `Store.Solves` — the trees of types under an assignment, and solutions;
* `Store.Reads` — readings, with the sizes of their trees along paths;
* `Grounded.reads_value`, `Grounded.value_eq`, `Solves.value_var` — solutions are readings;
* `Store.Coincide`, `Grounded.coincide_iff` — what is equal in every reading.
-/

namespace TypeInference

open Relation

namespace Store

variable {s : Store} {σ : TypeId → Tree} {a b v : TypeId}

/-! ## Values, solutions and readings -/

/-- The tree of a type when every unbound variable has the tree that `σ` gives it. It is read off the tree of the
    type, and so does not care for what `σ` says of bound variables. -/
def value (s : Store) (σ : TypeId → Tree) (ty : TypeId) : Tree := (s.tree ty).subst σ

/-- The assignment gives each bound variable the tree of the type that the variable is bound to. Unbound variables
    are free to stand for anything. -/
def Solves (s : Store) (σ : TypeId → Tree) : Prop :=
  ∀ v target, s.get v = .ok (.var (some target)) → σ v = s.value σ target

/-- A tree for every type, which agrees with every node of the store. Numbers outside the store may be read as
    anything. -/
structure Reads (s : Store) (reading : TypeId → Tree) : Prop where
  bound : ∀ {v target}, s.get v = .ok (.var (some target)) → reading v = reading target
  op : ∀ {r con args}, s.get r = .ok (.op con args) → reading r = .app con (args.map reading)

/-! ## Readings -/

namespace Reads

variable {reading : TypeId → Tree}

theorem shows (h : s.Reads reading) {w : View} (hw : s.Shows a w) : reading a = reading w.id := by
  induction hw with
  | var _ | op _ => rfl
  | bound hget _ ih => rw [h.bound hget, ih]

/-- A component is read as a smaller tree than the constructor around it. -/
theorem sizeOf_lt (h : s.Reads reading) {con : Constructor} {args : List TypeId}
    (hget : s.get a = .ok (.op con args)) (hb : b ∈ args) : sizeOf (reading b) < sizeOf (reading a) := by
  have hmem := List.sizeOf_lt_of_mem (List.mem_map_of_mem (f := reading) hb)
  rw [h.op hget, Tree.app.sizeOf_spec]
  omega

/-- Trees do not grow along a path. -/
theorem sizeOf_le (h : s.Reads reading) (hr : s.Reaches a b) : sizeOf (reading b) ≤ sizeOf (reading a) := by
  induction hr with
  | refl => exact Nat.le_refl _
  | tail _ hstep ih =>
    obtain ⟨node, hget, hb⟩ := hstep
    refine le_trans ?_ ih
    cases node with
    | op con args => exact (h.sizeOf_lt hget hb).le
    | var binding =>
      obtain rfl : binding = some _ := by simpa [Node.refs] using hb
      exact (congrArg sizeOf (h.bound hget)).ge

/-- **No reading makes a variable equal to a type that it is a proper part of.** The tree of the variable would be
    smaller than itself. So where the occurs check refuses a binding, there was no solution to lose. -/
theorem ne_of_reaches (h : s.Reads reading) {con : Constructor} {args : List TypeId}
    (hget : s.get a = .ok (.op con args)) (hv : s.IsUnbound v) (hr : s.Reaches a v) :
    reading v ≠ reading a := by
  intro he
  rcases hr.cases_head with rfl | ⟨b, ⟨node, hnode, hb⟩, hbv⟩
  · cases hget.symm.trans hv
  · cases hget.symm.trans hnode
    have hlt := h.sizeOf_lt hget hb
    have hle := h.sizeOf_le hbv
    rw [he] at hle
    omega

end Reads

/-! ## Solutions are readings -/

/-- An assignment gives an unbound variable its own tree. -/
theorem Grounded.value_of_isUnbound (h : s.Grounded) (hv : s.IsUnbound v) : s.value σ v = σ v := by
  rw [value, h.tree_var hv, Tree.subst_var]

/-- A solution gives every variable, bound or not, its own tree; for bound variables this is what being a solution
    means. -/
theorem Solves.value_var (hσ : s.Solves σ) (h : s.Grounded) {binding : Option TypeId}
    (hv : s.get v = .ok (.var binding)) : s.value σ v = σ v := by
  cases binding with
  | none => exact h.value_of_isUnbound hv
  | some target => rw [hσ v target hv, value, h.tree_bound hv, value]

/-- **The values of types are a reading**, for any assignment whatever: bindings and constructors are respected
    since the trees of types respect them. -/
theorem Grounded.reads_value (h : s.Grounded) (σ : TypeId → Tree) : s.Reads (s.value σ) where
  bound := fun hget => by rw [value, h.tree_bound hget, value]
  op := fun hget => by
    rw [value, h.tree_op hget, Tree.subst_app, List.map_map]
    rfl

/-- **A reading is the value** of any assignment that agrees with it on unbound variables. By induction on the rank
    of the type. -/
theorem Grounded.value_eq (h : s.Grounded) {reading : TypeId → Tree} (hreads : s.Reads reading)
    (hσ : ∀ v, s.IsUnbound v → σ v = reading v) (ha : a.index < s.size) : s.value σ a = reading a := by
  obtain ⟨rank, hrank, -⟩ := h.exists_rank
  induction hn : rank a using Nat.strong_induction_on generalizing a with
  | _ n ih =>
    subst hn
    obtain ⟨w, hw, -⟩ := h.exists_view ha
    rw [hreads.shows hw, value, h.tree_shows hw]
    cases w with
    | var x => rw [View.id, h.tree_var hw.isUnbound, Tree.subst_var, hσ x hw.isUnbound]
    | op r con args =>
      rw [View.id, h.tree_op hw.get_op, Tree.subst_app, hreads.op hw.get_op, List.map_map]
      refine congrArg (Tree.app con) (List.map_congr_left fun arg harg => ?_)
      exact ih _ (hw.rank_arg_lt hrank harg) (hw.arg_lt h harg) rfl

/-- The trees of a store are a reading. -/
theorem Grounded.reads_tree (h : s.Grounded) : s.Reads s.tree := ⟨h.tree_bound, h.tree_op⟩

/-- An assignment that agrees with a reading on variables is a solution, so solutions and readings are two
    descriptions of one thing. -/
theorem Reads.solves {reading : TypeId → Tree} (hreads : s.Reads reading) (h : s.Grounded)
    (hσ : ∀ v binding, s.get v = .ok (.var binding) → σ v = reading v) : s.Solves σ := by
  intro v target hv
  rw [hσ v _ hv, hreads.bound hv]
  exact (h.value_eq hreads (fun u hu => hσ u none hu) (h.inRange (refers_of_bound hv))).symm

/-! ## What is equal in every reading -/

/-- Every reading gives both types one tree. For unification this is what has been made equal, whether or not the
    two stand at one node. -/
def Coincide (s : Store) (a b : TypeId) : Prop := ∀ reading, s.Reads reading → reading a = reading b

theorem Coincide.refl (s : Store) (a : TypeId) : s.Coincide a a := fun _ _ => rfl

theorem Coincide.symm (h : s.Coincide a b) : s.Coincide b a := fun reading hreads => (h reading hreads).symm

/-- **Types coincide when their trees are equal.** The trees of the store are themselves a reading, and every
    reading is an instance of it. -/
theorem Grounded.coincide_iff (h : s.Grounded) (ha : a.index < s.size) (hb : b.index < s.size) :
    s.Coincide a b ↔ s.tree a = s.tree b := by
  constructor
  · exact fun hcoincide => hcoincide s.tree h.reads_tree
  · intro heq reading hreads
    calc reading a = (s.tree a).subst reading := (h.value_eq hreads (fun _ _ => rfl) ha).symm
      _ = (s.tree b).subst reading := by rw [heq]
      _ = reading b := h.value_eq hreads (fun _ _ => rfl) hb

end Store

end TypeInference
