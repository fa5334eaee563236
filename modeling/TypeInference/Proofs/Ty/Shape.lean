import Mathlib.Data.Finset.Card
import Mathlib.Data.Finset.Range
import Mathlib.Logic.Relation
import TypeInference.Ty.View

/-!
# `Proofs.Ty.Shape` — well-formed stores

The nodes of a store form a graph: a bound variable points to what it is bound to, and a constructor to its
components. A store is *grounded* when every arrow ends inside the store and no path returns to its start. It
is *well-formed* when moreover the trail lists bound variables, each once, the primitive types stand where
they always stand, and every constructor has as many components as it takes.

A graph of finitely many nodes without cycles has a **rank**: a number for every node that falls along every
arrow and is bounded by the size of the store (`Grounded.exists_rank`). All walks of `Ty.View` go along
arrows, so the rank is what shows that they end within their bounds.

## Contents
* `Node.refs`, `Node.Fits`, `Store.Refers`, `Store.Reaches` — the arrows and paths of a store;
* `Store.WellFormed`, `Store.Grounded`, and the rank of a grounded store;
* `Store.Shows` — the view of a type as a relation, without bounds.
-/

namespace TypeInference

open Relation

/-! ## Arrows and well-formedness -/

/-- The types that a node mentions: what a variable is bound to, or the components of a constructor. -/
def Node.refs : Node → List TypeId
  | .var binding => binding.toList
  | .op _ args => args

/-- How many components a constructor takes. A tuple takes as many as it says, and a function at least one, its
    result, which stands behind the parameters. -/
def Constructor.Takes : Constructor → Nat → Prop
  | .number, count => count = 0
  | .bool, count => count = 0
  | .string, count => count = 0
  | .unit, count => count = 0
  | .list, count => count = 1
  | .map, count => count = 2
  | .tuple arity, count => count = arity
  | .function, count => 0 < count
  | .named _, count => count = 0

/-- A constructor has as many components as it takes. A variable fits in any case. -/
def Node.Fits : Node → Prop
  | .var _ => True
  | .op con args => con.Takes args.length

namespace Store

/-- `a` is bound to `b`, or is a constructor with the component `b`. -/
def Refers (s : Store) (a b : TypeId) : Prop := ∃ node, s.get a = .ok node ∧ b ∈ node.refs

/-- A path from `a` to `b`, possibly empty, along bindings and components. -/
abbrev Reaches (s : Store) : TypeId → TypeId → Prop := ReflTransGen s.Refers

/-- The number of an unbound variable. It is a property of the node itself: a variable bound to an unbound one is
    bound. -/
def IsUnbound (s : Store) (v : TypeId) : Prop := s.get v = .ok (.var none)

/-- A store that means something: see the head of this file. Every operation of the store is shown to keep to it,
    and inference starts from a store that has it. -/
structure WellFormed (s : Store) : Prop where
  inRange : ∀ {a b}, s.Refers a b → b.index < s.size
  acyclic : ∀ a, ¬ TransGen s.Refers a a
  trailBound : ∀ v ∈ s.trail, ∃ target, s.get v = .ok (.var (some target))
  trailNodup : s.trail.Nodup
  primitives : ∀ id node, initial.get id = .ok node → s.get id = .ok node
  fits : ∀ {id node}, s.get id = .ok node → node.Fits

/-- Every walk along the arrows of the store stays inside it and comes to an end. This is the part of
    well-formedness that the walks need, and the only part that most theorems ask for. -/
structure Grounded (s : Store) : Prop where
  inRange : ∀ {a b}, s.Refers a b → b.index < s.size
  acyclic : ∀ a, ¬ TransGen s.Refers a a

theorem WellFormed.grounded {s : Store} (h : s.WellFormed) : s.Grounded := ⟨h.inRange, h.acyclic⟩

/-! ## Nodes and arrows -/

/-- A number has a node exactly when it is below the size. Nodes are never removed, so such a number stays good. -/
theorem exists_get_iff {s : Store} {id : TypeId} : (∃ node, s.get id = .ok node) ↔ id.index < s.size := by
  simp only [get_eq_ok_iff]
  constructor
  · rintro ⟨node, h⟩
    exact (Array.getElem?_eq_some_iff.mp h).1
  · intro h
    exact ⟨_, Array.getElem?_eq_getElem h⟩

theorem lt_of_get {s : Store} {id : TypeId} {node : Node} (h : s.get id = .ok node) : id.index < s.size :=
  exists_get_iff.mp ⟨node, h⟩

theorem refers_of_bound {s : Store} {a b : TypeId} (h : s.get a = .ok (.var (some b))) : s.Refers a b :=
  ⟨_, h, by simp [Node.refs]⟩

theorem refers_of_op {s : Store} {a b : TypeId} {con : Constructor} {args : List TypeId}
    (h : s.get a = .ok (.op con args)) (hb : b ∈ args) : s.Refers a b :=
  ⟨_, h, hb⟩

/-! ## Paths -/

theorem not_refers_of_unbound {s : Store} {v b : TypeId} (h : s.IsUnbound v) : ¬ s.Refers v b := by
  rintro ⟨node, hget, hb⟩
  rw [h] at hget
  cases hget
  simp [Node.refs] at hb

/-- From an unbound variable there is only the empty path, so what an unbound variable reaches is itself. -/
theorem eq_of_reaches_unbound {s : Store} {v b : TypeId} (h : s.IsUnbound v) (hr : s.Reaches v b) :
    b = v := by
  rcases hr.cases_head with he | ⟨c, hc, _⟩
  · exact he.symm
  · exact absurd hc (not_refers_of_unbound h)

/-- A path that starts inside a grounded store stays inside, so no walk meets a number without a node. -/
theorem Grounded.reaches_lt {s : Store} (h : s.Grounded) {a b : TypeId} (ha : a.index < s.size)
    (hr : s.Reaches a b) : b.index < s.size := by
  rcases hr.cases_tail with he | ⟨c, _, hc⟩
  · exact he ▸ ha
  · exact h.inRange hc

/-! ## Ranks -/

/-- Numbers that fall along arrows, for bindings and components alike. -/
def IsRank (s : Store) (rank : TypeId → Nat) : Prop := ∀ {a b}, s.Refers a b → rank b < rank a

/-- A rank falls along every path with at least one arrow. -/
theorem IsRank.lt_of_transGen {s : Store} {rank : TypeId → Nat} (hrank : s.IsRank rank) {a b : TypeId}
    (h : TransGen s.Refers a b) : rank b < rank a := by
  induction h with
  | single h => exact hrank h
  | tail _ h ih => exact (hrank h).trans ih

/-- A rank never grows along a path. -/
theorem IsRank.le_of_reaches {s : Store} {rank : TypeId → Nat} (hrank : s.IsRank rank) {a b : TypeId}
    (h : s.Reaches a b) : rank b ≤ rank a := by
  induction h with
  | refl => exact Nat.le_refl _
  | tail _ h ih => exact (hrank h).le.trans ih

/-- Where there is a rank there is no cycle. -/
theorem IsRank.acyclic {s : Store} {rank : TypeId → Nat} (hrank : s.IsRank rank) (a : TypeId) :
    ¬ TransGen s.Refers a a :=
  fun h => Nat.lt_irrefl _ (hrank.lt_of_transGen h)

/-- A store in which arrows only lead to smaller numbers is grounded, since the numbers are a rank. It serves for
    stores that are given outright. -/
theorem grounded_of_descending {s : Store} (h : ∀ i : Fin s.nodes.size, ∀ b ∈ s.nodes[i].refs, b.index < i) :
    s.Grounded := by
  have hdescends : s.IsRank TypeId.index := by
    rintro a b ⟨node, hget, hb⟩
    obtain ⟨hlt, rfl⟩ := Array.getElem?_eq_some_iff.mp (get_eq_ok_iff.mp hget)
    exact h ⟨a.index, hlt⟩ b hb
  refine ⟨fun {a b} hr => (hdescends hr).trans ?_, hdescends.acyclic⟩
  obtain ⟨_, hget, -⟩ := hr
  exact lt_of_get hget

/-! ## The rank of a grounded store

The nodes below a node are fewer after every arrow: what is below the target is below the source, and the target is
below the source but, without cycles, not below itself. -/

open Classical in
/-- The numbers of the nodes below a node, itself not among them. There are finitely many, and fewer with every
    arrow. -/
noncomputable def below (s : Store) (a : TypeId) : Finset Nat :=
  (Finset.range s.size).filter fun i => TransGen s.Refers a ⟨i⟩

theorem mem_below {s : Store} {a : TypeId} {i : Nat} :
    i ∈ s.below a ↔ i < s.size ∧ TransGen s.Refers a ⟨i⟩ := by
  simp [below]

/-- **A grounded store has a rank bounded by its size**: the number of nodes below a node. The bounds with which the
    walks of `Ty.View` start are larger than the size, so a rank of this kind never uses them up. -/
theorem Grounded.exists_rank {s : Store} (h : s.Grounded) :
    ∃ rank : TypeId → Nat, s.IsRank rank ∧ ∀ a, rank a ≤ s.size := by
  refine ⟨fun a => (s.below a).card, fun {a b} hab => ?_, fun a => ?_⟩
  · -- What is below `b` is below `a`; `b` is below `a` too, and not below itself.
    refine Finset.card_lt_card (Finset.ssubset_iff_of_subset ?_ |>.mpr ⟨b.index, ?_, ?_⟩)
    · intro i hi
      rw [mem_below] at hi ⊢
      exact ⟨hi.1, TransGen.head hab hi.2⟩
    · exact mem_below.mpr ⟨h.inRange hab, TransGen.single hab⟩
    · intro hb
      exact h.acyclic b (mem_below.mp hb).2
  · classical
    calc (s.below a).card ≤ (Finset.range s.size).card := Finset.card_le_card (Finset.filter_subset _ _)
      _ = s.size := Finset.card_range _

/-! ## What a type shows -/

/-- What a type stands for once bindings are followed, said without a bound on the walk. In a grounded store it
    agrees with the view that the walk computes, but it needs no store to be grounded and no walk to end. -/
inductive Shows (s : Store) : TypeId → View → Prop
  | var {x : TypeId} : s.IsUnbound x → Shows s x (.var x)
  | op {r : TypeId} {con : Constructor} {args : List TypeId} :
      s.get r = .ok (.op con args) → Shows s r (.op r con args)
  | bound {a b : TypeId} {v : View} : s.get a = .ok (.var (some b)) → Shows s b v → Shows s a v

/-! ## What is known of a type that shows something -/

/-- The node shown is reached from the type, by a path of bindings alone. -/
theorem Shows.reaches {s : Store} {a : TypeId} {v : View} (h : s.Shows a v) : s.Reaches a v.id := by
  induction h with
  | var _ | op _ => exact ReflTransGen.refl
  | bound hget _ ih => exact ReflTransGen.head (refers_of_bound hget) ih

/-- A shown variable is unbound. -/
theorem Shows.isUnbound {s : Store} {a x : TypeId} (h : s.Shows a (.var x)) : s.IsUnbound x := by
  generalize hv : View.var x = v at h
  induction h with
  | var hx => cases hv; exact hx
  | op _ => cases hv
  | bound _ _ ih => exact ih hv

/-- A shown constructor is the node at which it stands. -/
theorem Shows.get_op {s : Store} {a r : TypeId} {con : Constructor} {args : List TypeId}
    (h : s.Shows a (.op r con args)) : s.get r = .ok (.op con args) := by
  generalize hv : View.op r con args = v at h
  induction h with
  | var _ => cases hv
  | op hr => cases hv; exact hr
  | bound _ _ ih => exact ih hv

theorem Shows.id {s : Store} {a : TypeId} {v : View} (h : s.Shows a v) : s.Shows v.id v := by
  cases v with
  | var x => exact .var h.isUnbound
  | op r con args => exact .op h.get_op

/-- A type shows one thing, since a node has at most one binding to follow. -/
theorem Shows.unique {s : Store} {a : TypeId} {v w : View} (hv : s.Shows a v) (hw : s.Shows a w) : v = w := by
  -- The node at `a` decides on both sides how the type is shown.
  induction hv with
  | var hx =>
    cases hw with
    | var _ => rfl
    | op hr => cases hr.symm.trans hx
    | bound hb _ => cases hb.symm.trans hx
  | op hr =>
    cases hw with
    | var hx => cases hr.symm.trans hx
    | op hr' => cases hr.symm.trans hr'; rfl
    | bound hb _ => cases hb.symm.trans hr
  | bound hb _ ih =>
    cases hw with
    | var hx => cases hb.symm.trans hx
    | op hr => cases hb.symm.trans hr
    | bound hb' hw => cases hb.symm.trans hb'; exact ih hw

end Store

end TypeInference
