import Mathlib.Logic.Equiv.Defs
import TypeInference.Proofs.Ty.Renaming

/-!
# `Proofs.Ty.Shift` — blocks of types that come in another order

When types are made earlier in one run than in another, the numbers of the two stores differ by whole blocks:
either the types from some number on stand later (`TypeId.shift`), or two adjacent blocks change places
(`TypeId.exchange`). Types that are merely in the way of others are foreign to them, provided that they have
been built from nothing but each other and the primitive types.

A store that is carried into another has the same trees, up to the names of variables.

## Contents
* `Tree.rename`, `Carries.tree_eq` — trees under other numbers;
* `TypeId.shift`, `TypeId.exchange` — the numbers of blocks that have moved;
* `Node.Built`, `exists_leap` — the renaming that leaps over a block of types.
-/

namespace TypeInference

/-! ## Trees -/

/-- The same tree with other names for its variables. Its constructors are what they were, so only a variable can
    show the difference. -/
def Tree.rename (f : TypeId → TypeId) (t : Tree) : Tree := t.subst fun v => .var (f v)

theorem Tree.hasVar_rename {f : TypeId → TypeId} {t : Tree} {w : TypeId} :
    (t.rename f).HasVar w ↔ ∃ v, t.HasVar v ∧ f v = w := by
  simp only [Tree.rename, Tree.hasVar_subst, Tree.hasVar_var, eq_comm]

/-- **A type stands for the same tree** under its other number, up to the names of variables. By induction on the
    rank: at each step both types show the same under other numbers. -/
theorem Renaming.Carries.tree_eq {ρ : Renaming} {s t : Store} (h : ρ.Carries s t) (hs : s.Grounded)
    (ht : t.Grounded) {a : TypeId} (ha : a.index < s.size) : t.tree (ρ a) = (s.tree a).rename ρ := by
  obtain ⟨rank, hrank, -⟩ := hs.exists_rank
  induction hn : rank a using Nat.strong_induction_on generalizing a with
  | _ n ih =>
    subst hn
    obtain ⟨node, hget⟩ := Store.exists_get_iff.mpr ha
    obtain ⟨v, hv, hview⟩ := hs.exists_view ha
    have hv' := (ht.view_eq_ok_iff (Store.lt_of_get (h.node hget))).mp (h.view hview)
    cases v with
    | var x => rw [hv'.tree_var ht, hv.tree_var hs, Tree.rename, Tree.subst_var]
    | op r con args =>
      rw [hv'.tree_op ht, hv.tree_op hs, Tree.rename, Tree.subst_app, List.map_map, List.map_map]
      congr 1
      exact List.map_congr_left fun arg harg => ih _ (hv.rank_arg_lt hrank harg) (hv.arg_lt hs harg) rfl

/-- **A variable is unbound** under its other number as well, and no other variable comes to be unbound. -/
theorem Renaming.Carries.isUnbound_iff {ρ : Renaming} {s t : Store} (h : ρ.Carries s t) (v : TypeId) :
    t.IsUnbound (ρ v) ↔ s.IsUnbound v := by
  by_cases hv : v.index < s.size
  · obtain ⟨node, hget⟩ := Store.exists_get_iff.mpr hv
    rw [Store.IsUnbound, Store.IsUnbound, h.node hget, hget]
    rcases node with (_ | target) | ⟨con, args⟩ <;> simp [Node.rename]
  · -- What is not there yet is there on neither side.
    have hnew : ρ v = ⟨t.size + (v.index - s.size)⟩ := by
      rw [← h.fresh, Nat.add_sub_cancel' (Nat.not_lt.mp hv)]
    constructor
    · intro hunbound
      exact absurd (Store.lt_of_get (hnew ▸ hunbound)) (Nat.not_lt.mpr (Nat.le_add_right _ _))
    · exact fun hunbound => absurd (Store.lt_of_get hunbound) hv

/-! ## Blocks that have moved -/

namespace TypeId

variable {n m : Nat} {id : TypeId}

/-- The numbers from `n` on are counted from `m` on, and those below `n` stay. With `n ≤ m` this leaves a gap from
    `n` to `m`. -/
def shift (n m : Nat) (id : TypeId) : TypeId := if id.index < n then id else ⟨m + (id.index - n)⟩

theorem shift_of_lt (h : id.index < n) : shift n m id = id := if_pos h

theorem shift_of_le (h : n ≤ id.index) : shift n m id = ⟨m + (id.index - n)⟩ := if_neg (Nat.not_lt.mpr h)

@[simp] theorem shift_self (n : Nat) (id : TypeId) : shift n n id = id := by
  unfold shift
  split
  · rfl
  · cases id; simp only [mk.injEq] at *; omega

theorem shift_add (n m count : Nat) : shift n m ⟨n + count⟩ = ⟨m + count⟩ := by
  rw [shift_of_le (Nat.le_add_right _ _), Nat.add_sub_cancel_left]

theorem shift_injective (h : n ≤ m) : Function.Injective (shift n m) := by
  rintro ⟨i⟩ ⟨j⟩ he
  unfold shift at he
  split_ifs at he <;> simp only [mk.injEq] at * <;> omega

/-- No number is shifted into the gap, which is the room for foreign types. -/
theorem shift_lt_or_le (n m : Nat) (id : TypeId) : (id.shift n m).index < n ∨ m ≤ (id.shift n m).index := by
  by_cases h : id.index < n
  · rw [shift_of_lt h]
    exact .inl h
  · rw [shift_of_le (Nat.not_lt.mp h)]
    exact .inr (Nat.le_add_right _ _)

/-! ## Two blocks that change places -/

/-- The first `n` numbers stay, the next `left` and the `right` after them change places, and what comes behind
    stays. -/
def exchange (n left right : Nat) (id : TypeId) : TypeId :=
  if id.index < n then id
  else if id.index < n + left then ⟨id.index + right⟩
  else if id.index < n + left + right then ⟨id.index - left⟩
  else id

theorem exchange_exchange (n left right : Nat) (id : TypeId) :
    exchange n right left (exchange n left right id) = id := by
  obtain ⟨i⟩ := id
  unfold exchange
  split_ifs <;> simp only [mk.injEq] at * <;> omega

/-- The exchange of blocks is a permutation, undone by the exchange of the same blocks in their new order. -/
def exchanging (n left right : Nat) : Equiv.Perm TypeId where
  toFun := exchange n left right
  invFun := exchange n right left
  left_inv := exchange_exchange n left right
  right_inv := exchange_exchange n right left

/-- As long as the right block is not looked at, the left one is shifted behind it. -/
theorem exchange_eq_shift {left right : Nat} (h : id.index < n + left) :
    exchange n left right id = shift n (n + right) id := by
  by_cases hn : id.index < n
  · rw [exchange, if_pos hn, shift_of_lt hn]
  · rw [exchange, if_neg hn, if_pos h, shift_of_le (Nat.not_lt.mp hn)]
    congr 1
    omega

/-- The right block comes before the left one. -/
theorem exchange_eq_shift' {left right : Nat} (h : n + left ≤ id.index) (h' : id.index < n + left + right) :
    exchange n left right id = shift (n + left) n id := by
  rw [exchange, if_neg (by omega), if_neg (by omega), if_pos h', shift_of_le h]
  congr 1
  omega

theorem exchange_of_le {left right : Nat} (h : n + left + right ≤ id.index) : exchange n left right id = id := by
  rw [exchange, if_neg (by omega), if_neg (by omega), if_neg (by omega)]

end TypeId

/-- A renaming with nothing foreign to it, for stores in which the same types have been made. -/
def Renaming.ofInjective (f : TypeId → TypeId) (hf : Function.Injective f)
    (hprimitive : ∀ {id : TypeId}, id.index < Store.initial.size → f id = id) : Renaming where
  apply := f
  foreign := fun _ => none
  depth := fun _ => 0
  injective := hf
  primitive := hprimitive
  foreign_var := fun h => nomatch h
  foreign_op := fun h => nomatch h

/-! ## Leaping over a block -/

/-- Only the numbers that the node mentions play a part. -/
theorem Node.rename_congr {f g : TypeId → TypeId} {node : Node} (h : ∀ a ∈ node.refs, f a = g a) :
    node.rename f = node.rename g := by
  cases node with
  | var binding =>
    cases binding with
    | none => rfl
    | some target => exact congrArg (fun a => Node.var (some a)) (h target (by simp [refs]))
  | op con args => exact congrArg (Node.op con) (List.map_congr_left h)

theorem Node.rename_id (node : Node) : node.rename id = node := by
  cases node with
  | var binding => cases binding <;> rfl
  | op con args => exact congrArg (Node.op con) (List.map_id args)

/-- Nothing is different if all components keep their numbers. -/
theorem Node.rename_eq_self {f : TypeId → TypeId} {node : Node} (h : ∀ a ∈ node.refs, f a = a) :
    node.rename f = node :=
  (rename_congr h).trans node.rename_id

/-! ## What can be leapt over -/

/-- The node is an unbound variable, or a constructor with components in `V`. A block of such nodes can be leapt
    over, whatever is done elsewhere. -/
def Node.Built (V : TypeId → Prop) : Node → Prop
  | .var binding => binding = none
  | .op _ args => ∀ a ∈ args, V a

/-- The type is a primitive one, or its number is not below `n`. What is built from such types alone was made
    without a look at the others. -/
def TypeId.Since (n : Nat) (id : TypeId) : Prop := id.index < Store.initial.size ∨ n ≤ id.index

theorem Node.Built.rename {V W : TypeId → Prop} {f : TypeId → TypeId} {node : Node} (h : node.Built V)
    (hf : ∀ a, V a → W (f a)) : (node.rename f).Built W := by
  cases node with
  | var binding =>
    obtain rfl : binding = none := h
    rfl
  | op con args =>
    intro b hb
    obtain ⟨a, ha, rfl⟩ := List.mem_map.mp hb
    exact hf a (h a ha)

/-- What is shifted from `n` on stands from `m` on. -/
theorem TypeId.Since.shift {n m : Nat} {id : TypeId} (h : id.Since n) (hn : Store.initial.size ≤ n) :
    (id.shift n m).Since m := by
  rcases h with hlt | hle
  · rw [shift_of_lt (hlt.trans_le hn)]
    exact .inl hlt
  · rw [shift_of_le hle]
    exact .inr (Nat.le_add_right _ _)

/-! ## The primitive types -/

theorem Store.WellFormed.initial_le {s : Store} (h : s.WellFormed) : Store.initial.size ≤ s.size :=
  lt_of_get (h.primitives .unit _ rfl)

/-- A primitive type has no components. -/
theorem Store.WellFormed.eq_op_nil {s : Store} (h : s.WellFormed) {id : TypeId} {node : Node}
    (hid : id.index < Store.initial.size) (hget : s.get id = .ok node) : ∃ con, node = .op con [] := by
  obtain ⟨first, hfirst⟩ := Store.exists_get_iff.mpr hid
  cases (h.primitives id first hfirst).symm.trans hget
  have hall : ∀ node ∈ Store.initial.nodes.toList, ∃ con, node = .op con [] := by
    simp [Store.initial]
  have hmem := Array.mem_of_getElem? (Store.get_eq_ok_iff.mp hfirst)
  exact hall node (by simpa using hmem)

/-! ## The renaming -/

/-- **The next types leap over the nodes from `n` on**, if those have been built from nothing but each other and the
    primitive types. These nodes are the foreign ones of the renaming, and their depth is a rank of the store. -/
theorem Store.WellFormed.exists_leap {t : Store} (h : t.WellFormed) {n : Nat} (hprimitive : Store.initial.size ≤ n)
    (hle : n ≤ t.size)
    (hbuilt : ∀ {id node}, n ≤ id.index → t.get id = .ok node → node.Built (TypeId.Since n)) :
    ∃ ρ : Renaming, ρ.apply = TypeId.shift n t.size ∧
      (∀ {id node}, ρ.foreign id = some node ↔ t.get id = .ok node ∧ id.Since n) ∧
      ∀ id, ρ.depth id ≤ t.size := by
  obtain ⟨rank, hrank, hbound⟩ := h.grounded.exists_rank
  classical
  have hforeign : ∀ {id node}, (if id.Since n then (t.get id).toOption else none) = some node ↔
      t.get id = .ok node ∧ id.Since n := by
    intro id node
    by_cases hsince : id.Since n
    · rw [if_pos hsince]
      cases t.get id <;> simp [Except.toOption, hsince]
    · simp [hsince]
  -- A rank of the store serves as the depth of foreign types.
  refine ⟨⟨TypeId.shift n t.size, fun id => if id.Since n then (t.get id).toOption else none, rank,
    TypeId.shift_injective hle, fun hid => TypeId.shift_of_lt (hid.trans_le hprimitive), ?foreign_var,
    ?foreign_op⟩, rfl, hforeign, hbound⟩
  case foreign_var =>
    intro id binding hid
    obtain ⟨hget, hsince⟩ := hforeign.mp hid
    rcases hsince with hlt | hn
    · obtain ⟨con, hnode⟩ := h.eq_op_nil hlt hget
      cases hnode
    · refine ⟨hbuilt hn hget, fun v he => ?_⟩
      -- A number between the two is taken by none that has leapt.
      rcases TypeId.shift_lt_or_le n t.size v with hlt | hge
      · exact absurd hn (Nat.not_le.mpr (he ▸ hlt))
      · exact absurd (Store.lt_of_get hget) (Nat.not_lt.mpr (he ▸ hge))
  case foreign_op =>
    intro id con args hid a ha
    obtain ⟨hget, hsince⟩ := hforeign.mp hid
    have hrefers := Store.refers_of_op hget ha
    refine ⟨?_, hrank hrefers⟩
    rcases hsince with hlt | hn
    · obtain ⟨con', hnode⟩ := h.eq_op_nil hlt hget
      cases hnode
      cases ha
    · obtain ⟨node, hnode⟩ := Store.exists_get_iff.mpr (h.inRange hrefers)
      exact ⟨node, hforeign.mpr ⟨hnode, hbuilt hn hget a ha⟩⟩

end TypeInference
