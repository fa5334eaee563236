import TypeInference.Proofs.Ty.Instance
import TypeInference.Proofs.Ty.Unification

/-!
# `Proofs.Ty.Renaming` — one store inside another, under other numbers

Two runs that make the same types in another order have stores that differ in the numbers only. A `Renaming`
says what each number of the one store is in the other, and which nodes only the other store has; those are
*foreign*. A store is **carried** into another when each of its nodes is there under its new number and the next
new type will get the next new number. Everything that can be asked of a type then has the same answer in both
stores, up to numbers, and everything that changes the one store changes the other alike: new types, bindings,
unification and copies.

Only what the first store answers is said of the second, so nothing has to be known about either store. Bounds
on walks play no part, because the second store is the larger one.

## Contents
* `Node.rename`, `View.rename` — the same node under other numbers;
* `Renaming`, `Renaming.Carries` — what is renamed, and stores that are carried over;
* `Carries.view`, `Carries.same`, `Carries.occurs`, `Carries.exists_display` — questions;
* `Renaming.Pins`, `Carries.isPinned` — pinned types, among which there may be foreign ones;
* `Carries.allocate`, `Carries.bind`, `unify_mirrors`, `Carries.instantiate` — changes.
-/

namespace TypeInference

/-! ## Nodes and views under other numbers -/

/-- The same node under other numbers: the constructor stays, and what it refers to is renamed. -/
def Node.rename (f : TypeId → TypeId) : Node → Node
  | .var binding => .var (binding.map f)
  | .op con args => .op con (args.map f)

/-- The same view under other numbers, its own and those of its components. -/
def View.rename (f : TypeId → TypeId) : View → View
  | .var id => .var (f id)
  | .op id con args => .op (f id) con (args.map f)

/-- What a node with this number looks like, if it is no bound variable. -/
@[simp] def Node.seenAs (id : TypeId) : Node → View
  | .var _ => .var id
  | .op con args => .op id con args

@[simp] theorem View.id_rename (f : TypeId → TypeId) (v : View) : (v.rename f).id = f v.id := by
  cases v <;> rfl

/-! ## Renamings -/

/-- The numbers that the types of one store have in another. Foreign nodes are nodes of the other store only: no
    foreign variable is the new name of anything, and foreign constructors have foreign components, which are
    less deep. -/
structure Renaming where
  apply : TypeId → TypeId
  foreign : TypeId → Option Node
  depth : TypeId → Nat
  injective : Function.Injective apply
  primitive : ∀ {id : TypeId}, id.index < Store.initial.size → apply id = id
  foreign_var : ∀ {id binding}, foreign id = some (.var binding) → binding = none ∧ ∀ v, apply v ≠ id
  foreign_op : ∀ {id con args}, foreign id = some (.op con args) →
    ∀ a ∈ args, (∃ node, foreign a = some node) ∧ depth a < depth id

instance : CoeFun Renaming fun _ => TypeId → TypeId := ⟨Renaming.apply⟩

namespace Renaming

/-- Each node of the first store is a node of the second under its new number, and the next new types correspond;
    the foreign nodes are there. `fresh` speaks of all numbers to come, so the relation survives every new type
    without a new renaming. -/
structure Carries (ρ : Renaming) (s t : Store) : Prop where
  node : ∀ {id node}, s.get id = .ok node → t.get (ρ id) = .ok (node.rename ρ)
  fresh : ∀ count, ρ ⟨s.size + count⟩ = ⟨t.size + count⟩
  size_le : s.size ≤ t.size
  foreign : ∀ {id node}, ρ.foreign id = some node → t.get id = .ok node ∧ ρ.depth id ≤ t.size

/-! ## Pinned types -/

/-- The pinned types of the second run are those of the first and foreign ones, in any order. Foreign types have no
    variable in common with renamed ones, so they pin nothing that matters to the first run. -/
inductive Pins (ρ : Renaming) : List TypeId → List TypeId → Prop
  | nil : Pins ρ [] []
  | image {p : TypeId} {pinned pinned' : List TypeId} : Pins ρ pinned pinned' →
      Pins ρ (p :: pinned) (ρ p :: pinned')
  | foreign {q : TypeId} {pinned pinned' : List TypeId} : (∃ node, ρ.foreign q = some node) →
      Pins ρ pinned pinned' → Pins ρ pinned (q :: pinned')

namespace Pins

variable {ρ : Renaming} {pinned pinned' more more' : List TypeId}

theorem append (h : ρ.Pins pinned pinned') (h' : ρ.Pins more more') :
    ρ.Pins (pinned ++ more) (pinned' ++ more') := by
  induction h with
  | nil => exact h'
  | image _ ih => exact .image ih
  | foreign hq _ ih => exact .foreign hq ih

theorem map (ρ : Renaming) : ∀ pinned : List TypeId, ρ.Pins pinned (pinned.map ρ)
  | [] => .nil
  | _ :: rest => .image (map ρ rest)

theorem ofForeign {extra : List TypeId} (h : ∀ q ∈ extra, ∃ node, ρ.foreign q = some node) :
    ρ.Pins [] extra := by
  induction extra with
  | nil => exact .nil
  | cons q extra ih => exact .foreign (h q List.mem_cons_self) (ih fun p hp => h p (List.mem_cons_of_mem _ hp))

end Pins

end Renaming

/-! ## Lists of questions under other numbers -/

theorem List.mapM_map_eq_ok {α α' β β' : Type} {k : α → α'} {f : α → Except Fault β} {f' : α' → Except Fault β'} :
    ∀ {xs : List α} {ys : List β}, (∀ x ∈ xs, ∀ y, f x = .ok y → ∃ y', f' (k x) = .ok y') →
      xs.mapM f = .ok ys → ∃ ys', (xs.map k).mapM f' = .ok ys'
  | [], _, _, _ => ⟨[], rfl⟩
  | x :: xs, ys, h, hrun => by
    rw [List.mapM_cons] at hrun
    obtain ⟨y, hy, hrun⟩ := exists_of_bind_eq_ok hrun
    obtain ⟨rest, hrest, -⟩ := exists_of_bind_eq_ok hrun
    obtain ⟨y', hy'⟩ := h x List.mem_cons_self y hy
    obtain ⟨rest', hrest'⟩ := List.mapM_map_eq_ok (fun z hz => h z (List.mem_cons_of_mem _ hz)) hrest
    exact ⟨y' :: rest', by simp [hy', hrest']⟩

theorem List.anyM_map_eq_ok {α α' : Type} {k : α → α'} {f : α → Except Fault Bool} {f' : α' → Except Fault Bool}
    {b : Bool} : ∀ {xs : List α}, (∀ x ∈ xs, ∀ b, f x = .ok b → f' (k x) = .ok b) →
      xs.anyM f = .ok b → (xs.map k).anyM f' = .ok b
  | [], _, hrun => hrun
  | x :: xs, h, hrun => by
    rw [List.anyM] at hrun
    obtain ⟨y, hy, hrun⟩ := exists_of_bind_eq_ok hrun
    rw [List.map_cons, List.anyM, h x List.mem_cons_self y hy]
    cases y with
    | true => exact hrun
    | false => exact List.anyM_map_eq_ok (fun z hz => h z (List.mem_cons_of_mem _ hz)) hrun

theorem List.allM_map_eq_ok {α α' : Type} {k : α → α'} {f : α → Except Fault Bool} {f' : α' → Except Fault Bool}
    {b : Bool} {xs : List α} (h : ∀ x ∈ xs, ∀ b, f x = .ok b → f' (k x) = .ok b) (hrun : xs.allM f = .ok b) :
    (xs.map k).allM f' = .ok b := by
  have hnot : ∀ x ∈ xs, ∀ b, (!·) <$> f x = .ok b → (!·) <$> f' (k x) = .ok b := by
    intro x hx b hb
    obtain ⟨a, ha, rfl⟩ := exists_of_map_eq_ok hb
    rw [h x hx a ha, Except.map_ok]
  rw [List.allM_eq_not_anyM_not] at hrun ⊢
  obtain ⟨a, ha, rfl⟩ := exists_of_map_eq_ok hrun
  have hany : (xs.map k).anyM (fun y => (!·) <$> f' y) = .ok a := List.anyM_map_eq_ok hnot ha
  rw [hany, Except.map_ok]

namespace Renaming.Carries

variable {ρ : Renaming} {s t : Store}

theorem walkBound_le (h : ρ.Carries s t) : s.walkBound ≤ t.walkBound := Nat.succ_le_succ h.size_le

theorem pairBound_le (h : ρ.Carries s t) : s.pairBound ≤ t.pairBound :=
  Nat.mul_le_mul (Nat.mul_le_mul h.walkBound_le h.walkBound_le) h.walkBound_le

/-! ## Questions -/

theorem binding? (h : ρ.Carries s t) {id : TypeId} {target : Option TypeId}
    (hs : s.binding? id = .ok target) : t.binding? (ρ id) = .ok (target.map ρ) := by
  obtain ⟨node, hget, hs⟩ := exists_of_bind_eq_ok hs
  rw [Store.binding?, h.node hget, ok_bind]
  cases node with
  | var binding => cases hs; rfl
  | op con args => cases hs; rfl

/-- The walk along bindings goes through the renamed numbers. The second bound may be larger, as the second store
    is. -/
theorem rootWithin (h : ρ.Carries s t) : ∀ {fuel fuel' : Nat} {id root : TypeId}, fuel ≤ fuel' →
    s.rootWithin fuel id = .ok root → t.rootWithin fuel' (ρ id) = .ok (ρ root) := by
  intro fuel
  induction fuel with
  | zero => rintro fuel' id root - ⟨⟩
  | succ fuel ih =>
    intro fuel' id root hle hs
    obtain ⟨fuel', rfl⟩ : ∃ n, fuel' = n + 1 := ⟨fuel' - 1, by omega⟩
    obtain ⟨target, hbinding, hs⟩ := exists_of_bind_eq_ok hs
    rw [Store.rootWithin, h.binding? hbinding, ok_bind]
    cases target with
    | none => cases hs; rfl
    | some target => exact ih (Nat.le_of_succ_le_succ hle) hs

/-- **The view of a type** is the same under other numbers. -/
theorem view (h : ρ.Carries s t) {id : TypeId} {v : View} (hs : s.view id = .ok v) :
    t.view (ρ id) = .ok (v.rename ρ) := by
  obtain ⟨root, hroot, hs⟩ := exists_of_bind_eq_ok hs
  obtain ⟨node, hget, hs⟩ := exists_of_bind_eq_ok hs
  have hroot' : t.root (ρ id) = .ok (ρ root) := h.rootWithin h.walkBound_le hroot
  rw [Store.view, hroot', ok_bind, h.node hget, ok_bind]
  cases node with
  | var binding => cases hs; rfl
  | op con args => cases hs; rfl

theorem operator? (h : ρ.Carries s t) {id : TypeId} {found : Option (Constructor × List TypeId)}
    (hs : s.operator? id = .ok found) :
    t.operator? (ρ id) = .ok (found.map fun parts => (parts.1, parts.2.map ρ)) := by
  rw [Store.operator?] at hs
  cases hview : s.view id with
  | error fault => rw [hview] at hs; cases hs
  | ok v =>
    rw [hview, Except.map_ok] at hs
    rw [Store.operator?, h.view hview, Except.map_ok]
    cases hs
    cases v <;> rfl

theorem hasConstructor (h : ρ.Carries s t) {con : Constructor} {id : TypeId} {b : Bool}
    (hs : s.hasConstructor con id = .ok b) : t.hasConstructor con (ρ id) = .ok b := by
  obtain ⟨v, hview, hs⟩ := exists_of_bind_eq_ok hs
  rw [Store.hasConstructor, h.view hview, ok_bind]
  cases v <;> exact hs

theorem zip_rename (f : TypeId → TypeId) (args args' : List TypeId) :
    (args.map f).zip (args'.map f) = (args.zip args').map fun pair => (f pair.1, f pair.2) := by
  rw [List.zip_map]
  rfl

/-- Types that are the same stay the same, and types that are not stay apart: numbers are only compared with each
    other, and the renaming is injective. -/
theorem sameWithin (h : ρ.Carries s t) : ∀ {fuel fuel' : Nat} {a b : TypeId} {r : Bool}, fuel ≤ fuel' →
    s.sameWithin fuel a b = .ok r → t.sameWithin fuel' (ρ a) (ρ b) = .ok r := by
  intro fuel
  induction fuel with
  | zero => rintro fuel' a b r - ⟨⟩
  | succ fuel ih =>
    intro fuel' a b r hle hs
    obtain ⟨fuel', rfl⟩ : ∃ n, fuel' = n + 1 := ⟨fuel' - 1, by omega⟩
    obtain ⟨v, hv, hs⟩ := exists_of_bind_eq_ok hs
    obtain ⟨w, hw, hs⟩ := exists_of_bind_eq_ok hs
    rw [Store.sameWithin, h.view hv, ok_bind, h.view hw, ok_bind]
    rcases v with x | ⟨_, con, args⟩ <;> rcases w with y | ⟨_, con', args'⟩
    case var.var => simpa [View.rename, ρ.injective.eq_iff] using hs
    case var.op => exact hs
    case op.var => exact hs
    case op.op =>
      simp only [View.rename, List.length_map] at hs ⊢
      split
      · next hcon =>
        rw [if_pos hcon] at hs
        rw [zip_rename]
        exact List.allM_map_eq_ok (fun pair _ b hb => ih (Nat.le_of_succ_le_succ hle) hb) hs
      · next hcon => rwa [if_neg hcon] at hs

theorem same (h : ρ.Carries s t) {a b : TypeId} {r : Bool} (hs : s.same a b = .ok r) :
    t.same (ρ a) (ρ b) = .ok r :=
  h.sameWithin h.pairBound_le hs

/-- A variable occurs where it did, and nowhere else. -/
theorem occursWithin (h : ρ.Carries s t) {var : TypeId} :
    ∀ {fuel fuel' : Nat} {ty : TypeId} {b : Bool}, fuel ≤ fuel' →
      s.occursWithin var fuel ty = .ok b → t.occursWithin (ρ var) fuel' (ρ ty) = .ok b := by
  intro fuel
  induction fuel with
  | zero => rintro fuel' ty b - ⟨⟩
  | succ fuel ih =>
    intro fuel' ty b hle hs
    obtain ⟨fuel', rfl⟩ : ∃ n, fuel' = n + 1 := ⟨fuel' - 1, by omega⟩
    obtain ⟨v, hv, hs⟩ := exists_of_bind_eq_ok hs
    rw [Store.occursWithin, h.view hv, ok_bind]
    cases v with
    | var x => simpa [View.rename, ρ.injective.eq_iff] using hs
    | op _ con args => exact List.anyM_map_eq_ok (fun arg _ b hb => ih (Nat.le_of_succ_le_succ hle) hb) hs

theorem occurs (h : ρ.Carries s t) {var ty : TypeId} {b : Bool} (hs : s.occurs var ty = .ok b) :
    t.occurs (ρ var) (ρ ty) = .ok b :=
  h.occursWithin h.walkBound_le hs

/-! ## Foreign types -/

/-- A foreign node is no bound variable, so it is its own view. -/
theorem view_foreign (h : ρ.Carries s t) {id : TypeId} {node : Node} (hforeign : ρ.foreign id = some node) :
    t.view id = .ok (node.seenAs id) := by
  have hget := (h.foreign hforeign).1
  have hbinding : t.binding? id = .ok none := by
    cases node with
    | var binding =>
      obtain rfl := (ρ.foreign_var hforeign).1
      simp [Store.binding?, hget]
    | op con args => simp [Store.binding?, hget]
  have hroot : t.root id = .ok id := by simp [Store.root, Store.walkBound, Store.rootWithin, hbinding]
  rw [Store.view, hroot, ok_bind, hget]
  cases node <;> rfl

/-- **No renamed variable is part of a foreign type.** By induction on the fuel, along the depth of foreign types,
    whose components are foreign themselves. -/
theorem occursWithin_foreign (h : ρ.Carries s t) {var : TypeId} : ∀ {fuel : Nat} {q : TypeId} {node : Node},
    ρ.foreign q = some node → ρ.depth q < fuel → t.occursWithin (ρ var) fuel q = .ok false := by
  intro fuel
  induction fuel with
  | zero => intro q node _ hfuel; exact absurd hfuel (Nat.not_lt_zero _)
  | succ fuel ih =>
    intro q node hforeign hfuel
    rw [Store.occursWithin, h.view_foreign hforeign, ok_bind]
    cases node with
    | var binding =>
      have hne : q ≠ ρ var := ((ρ.foreign_var hforeign).2 var).symm
      simp [hne]
    | op con args =>
      have hargs : ∀ a ∈ args, t.occursWithin (ρ var) fuel a = .ok false := by
        intro a ha
        obtain ⟨⟨node, hnode⟩, hdepth⟩ := ρ.foreign_op hforeign a ha
        exact ih hnode (by omega)
      clear hforeign
      induction args with
      | nil => rfl
      | cons a args ihargs =>
        have hrest := ihargs fun b hb => hargs b (List.mem_cons_of_mem _ hb)
        simpa [List.anyM, hargs a List.mem_cons_self] using hrest

/-- **The same variables are pinned.** The foreign types among the pinned ones are asked as well, and answer that
    they have nothing to do with the variable. -/
theorem isPinned (h : ρ.Carries s t) {pinned pinned' : List TypeId} (hpins : ρ.Pins pinned pinned')
    {var : TypeId} {b : Bool} (hs : s.isPinned pinned var = .ok b) : t.isPinned pinned' (ρ var) = .ok b := by
  induction hpins with
  | nil => exact hs
  | @image p pinned pinned' _ ih =>
    rw [Store.isPinned, List.anyM] at hs
    obtain ⟨found, hfound, hs⟩ := exists_of_bind_eq_ok hs
    rw [Store.isPinned, List.anyM, h.occurs hfound]
    cases found with
    | true => exact hs
    | false => exact ih hs
  | @foreign q pinned pinned' hq _ ih =>
    obtain ⟨node, hnode⟩ := hq
    have hoccurs : t.occurs (ρ var) q = .ok false :=
      h.occursWithin_foreign hnode (Nat.lt_succ_of_le (h.foreign hnode).2)
    rw [Store.isPinned, List.anyM, hoccurs]
    exact ih hs

/-! ## Texts -/

theorem exists_displayWithin (h : ρ.Carries s t) : ∀ {fuel fuel' : Nat} {ty : TypeId} {text : String},
    fuel ≤ fuel' → s.displayWithin fuel ty = .ok text → ∃ text', t.displayWithin fuel' (ρ ty) = .ok text' := by
  intro fuel
  induction fuel with
  | zero => rintro fuel' ty text - ⟨⟩
  | succ fuel ih =>
    intro fuel' ty text hle hs
    obtain ⟨fuel', rfl⟩ : ∃ n, fuel' = n + 1 := ⟨fuel' - 1, by omega⟩
    obtain ⟨v, hv, hs⟩ := exists_of_bind_eq_ok hs
    rw [Store.displayWithin, h.view hv, ok_bind]
    cases v with
    | var x => exact ⟨_, rfl⟩
    | op r con args =>
      have hshown : con.shown (args.map ρ) = (con.shown args).map ρ := by
        cases con with
        | map => rcases args with _ | ⟨_, _ | ⟨_, _ | ⟨_, _⟩⟩⟩ <;> rfl
        | _ => rfl
      cases htexts : (con.shown args).mapM (s.displayWithin fuel) with
      | error fault => simp only [htexts] at hs; cases hs
      | ok texts =>
        obtain ⟨texts', htexts'⟩ :=
          List.mapM_map_eq_ok (fun arg _ text htext => ih (Nat.le_of_succ_le_succ hle) htext) htexts
        exact ⟨con.display texts', by simp only [View.rename, hshown, htexts', Except.map_ok]⟩

/-- A type that has a text has one under its other number. The text need not be the same, for it shows the numbers
    of variables. -/
theorem exists_display (h : ρ.Carries s t) {ty : TypeId} {text : String} (hs : s.display ty = .ok text) :
    ∃ text', t.display (ρ ty) = .ok text' :=
  h.exists_displayWithin h.walkBound_le hs

/-! ## Changes -/

theorem next (h : ρ.Carries s t) : ρ ⟨s.size⟩ = ⟨t.size⟩ := h.fresh 0

/-- **A new node** on both sides. Its number is the next one, which the renaming already sends to the next one of
    the other store. -/
theorem allocate (h : ρ.Carries s t) (node : Node) :
    ρ.Carries (s.allocate node).2 (t.allocate (node.rename ρ)).2 where
  node := fun {id found} hget => by
    by_cases hlt : id.index < s.size
    · have hold := h.node ((Store.get_allocate_of_lt hlt).symm.trans hget)
      exact (Store.get_allocate_of_lt (Store.lt_of_get hold)).trans hold
    · have hle := Store.lt_of_get hget
      rw [Store.size_allocate] at hle
      obtain rfl : id = ⟨s.size⟩ := by cases id; simp only [TypeId.mk.injEq]; simp only at hlt hle; omega
      rw [Store.get_allocate_self] at hget
      cases hget
      rw [h.next, Store.get_allocate_self]
  fresh := fun count => by
    have hcount := h.fresh (1 + count)
    rwa [← Nat.add_assoc, ← Nat.add_assoc, ← Store.size_allocate s node,
      ← Store.size_allocate t (node.rename ρ)] at hcount
  size_le := by rw [Store.size_allocate, Store.size_allocate]; exact Nat.succ_le_succ h.size_le
  foreign := fun hforeign => by
    obtain ⟨hget, hdepth⟩ := h.foreign hforeign
    exact ⟨(Store.get_allocate_of_lt (Store.lt_of_get hget)).trans hget,
      hdepth.trans (by rw [Store.size_allocate]; exact Nat.le_succ _)⟩

/-- **A binding** on both sides, since the variable is unbound on both. -/
theorem bind (h : ρ.Carries s t) {var target : TypeId} {s' : Store} (hs : s.bind var target = .ok s') :
    ∃ t', t.bind (ρ var) (ρ target) = .ok t' ∧ ρ.Carries s' t' := by
  have hvar : t.get (ρ var) = .ok (.var none) := h.node (Store.bind_eq_ok_iff.mp hs).1
  obtain ⟨t', ht⟩ : ∃ t', t.bind (ρ var) (ρ target) = .ok t' := ⟨_, Store.bind_eq_ok_iff.mpr ⟨hvar, rfl⟩⟩
  have hsize := Store.size_of_bind hs
  have hsize' := Store.size_of_bind ht
  refine ⟨t', ht, fun {id node} hget => ?_, by rw [hsize, hsize']; exact h.fresh,
    by rw [hsize, hsize']; exact h.size_le, fun {id node} hforeign => ?_⟩
  · by_cases he : id = var
    · subst he
      rw [Store.get_of_bind_self hs] at hget
      cases hget
      exact Store.get_of_bind_self ht
    · rw [Store.get_of_bind_ne hs he] at hget
      rw [Store.get_of_bind_ne ht fun hρ => he (ρ.injective hρ)]
      exact h.node hget
  · obtain ⟨hget, hdepth⟩ := h.foreign hforeign
    have hne : id ≠ ρ var := by
      rintro rfl
      cases node with
      | var binding => exact (ρ.foreign_var hforeign).2 var rfl
      | op con args => cases hget.symm.trans hvar
    exact ⟨(Store.get_of_bind_ne ht hne).trans hget, by rwa [hsize']⟩

end Renaming.Carries

/-! ## Unification -/

namespace UnifyM

variable {ρ : Renaming}

/-! ### Single steps -/

theorem query_mirrors {α α' : Type} {ask : Store → Except Fault α} {ask' : Store → Except Fault α'}
    {Q : α → α' → Prop} (h : ∀ s t, ρ.Carries s t → ∀ a, ask s = .ok a → ∃ a', ask' t = .ok a' ∧ Q a a') :
    Mirrors ρ.Carries (query ask) (query ask') Q := by
  intro s t hst a s' hrun
  unfold query at hrun
  split at hrun
  · next found hfound =>
    cases hrun
    obtain ⟨a', ha', hQ⟩ := h s t hst a hfound
    exact ⟨a', t, by simp only [query, ha'], hst, hQ⟩
  · cases hrun

/-- A clash is no result, so it is mirrored by whatever the other run does. -/
theorem clash_mirrors {α α' : Type} {reason : String → String → Clash} {a b : TypeId} {m' : UnifyM α'}
    {Q : α → α' → Prop} : Mirrors ρ.Carries (clash reason a b) m' Q := by
  intro s t _ c s' hrun
  replace hrun : EStateM.bind (query (·.display a)) _ s = .ok c s' := hrun
  unfold EStateM.bind at hrun
  split at hrun
  · next left s₁ _ =>
    replace hrun : EStateM.bind (query (·.display b)) _ s₁ = .ok c s' := hrun
    unfold EStateM.bind at hrun
    split at hrun
    · cases hrun
    · cases hrun
  · cases hrun

theorem assign_mirrors (var target : TypeId) :
    Mirrors ρ.Carries (assign var target) (assign (ρ var) (ρ target)) fun _ _ => True := by
  intro s t hst a s' hrun
  unfold assign at hrun
  split at hrun
  · next s₁ hbind =>
    cases hrun
    obtain ⟨t', ht', hcarries⟩ := hst.bind hbind
    exact ⟨(), t', by simp only [assign, ht'], hcarries, trivial⟩
  · cases hrun

/-- The occurs check gives one answer on both sides; if it lets the first run bind the variable, it lets the second. -/
theorem solve_mirrors (var target : TypeId) :
    Mirrors ρ.Carries (solve var target) (solve (ρ var) (ρ target)) fun _ _ => True := by
  unfold solve
  by_cases he : var = target
  · rw [if_pos he, if_pos (congrArg ρ he)]
    exact .pure trivial
  · rw [if_neg he, if_neg fun hρ => he (ρ.injective hρ)]
    refine (query_mirrors (Q := (· = ·)) fun _ _ hst b hb => ⟨b, hst.occurs hb, rfl⟩).bind ?_
    rintro b _ rfl
    cases b with
    | true => exact clash_mirrors
    | false => exact assign_mirrors var target

/-! ### Components, and the recursion -/

theorem forM_mirrors {pairs : List (TypeId × TypeId)} {fuel fuel' : Nat}
    (h : ∀ a b : TypeId, Mirrors ρ.Carries (unifyWithin fuel a b) (unifyWithin fuel' (ρ a) (ρ b))
      fun _ _ => True) :
    Mirrors ρ.Carries (pairs.forM fun pair => unifyWithin fuel pair.1 pair.2)
      ((pairs.map fun pair => (ρ pair.1, ρ pair.2)).forM fun pair => unifyWithin fuel' pair.1 pair.2)
      fun _ _ => True := by
  induction pairs with
  | nil => exact .pure trivial
  | cons pair pairs ih => exact (h pair.1 pair.2).bind fun _ _ _ => ih

/-- By induction on the first bound. Both runs look at the same views, and so go through the same case. -/
theorem unifyWithin_mirrors : ∀ {fuel fuel' : Nat} (a b : TypeId), fuel ≤ fuel' →
    Mirrors ρ.Carries (unifyWithin fuel a b) (unifyWithin fuel' (ρ a) (ρ b)) fun _ _ => True := by
  intro fuel
  induction fuel with
  | zero => intro _ _ _ _; exact .throw
  | succ fuel ih =>
    intro fuel' a b hle
    obtain ⟨fuel', rfl⟩ : ∃ n, fuel' = n + 1 := ⟨fuel' - 1, by omega⟩
    have hview : ∀ id, Mirrors ρ.Carries (query (·.view id)) (query (·.view (ρ id)))
        fun v v' => v' = v.rename ρ :=
      fun id => query_mirrors fun _ _ hst _ hv => ⟨_, hst.view hv, rfl⟩
    unfold unifyWithin
    refine (hview a).bind ?_
    rintro v _ rfl
    refine (hview b).bind ?_
    rintro w _ rfl
    rcases v with x | ⟨left, con, args⟩
    case var =>
      have h := solve_mirrors (ρ := ρ) x w.id
      rwa [← View.id_rename ρ w] at h
    rcases w with y | ⟨right, con', args'⟩
    case op.var => exact solve_mirrors y left
    case op.op =>
      simp only [View.rename, List.length_map]
      split
      · rw [Renaming.Carries.zip_rename]
        exact forM_mirrors fun a b => ih a b (Nat.le_of_succ_le_succ hle)
      · exact clash_mirrors

end UnifyM

/-- **Unification** succeeds under other numbers, with corresponding bindings. -/
theorem Store.unify_mirrors {ρ : Renaming} (a b : TypeId) :
    Mirrors ρ.Carries (Store.unify a b) (Store.unify (ρ a) (ρ b)) fun _ _ => True :=
  fun s t hst => UnifyM.unifyWithin_mirrors a b hst.pairBound_le s t hst

/-! ## Copies -/

namespace Copying

variable {ρ : Renaming} {α α' β β' : Type}

/-- The stores are carried, and the copies made so far correspond, in the same order. -/
structure Carried (ρ : Renaming) (c d : Copying) : Prop where
  store : ρ.Carries c.store d.store
  copies : d.copies = c.copies.map fun entry => (ρ entry.1, ρ entry.2)

/-- Whenever the one step ends, the other ends alike. This is `Mirrors` for the steps of copying, which carry a list
    beside the store. -/
def Tracks (ρ : Renaming) (m : Step α) (m' : Step α') (Q : α → α' → Prop) : Prop :=
  ∀ c d, Carried ρ c d → ∀ a c', m c = .ok (a, c') → ∃ a' d', m' d = .ok (a', d') ∧ Carried ρ c' d' ∧ Q a a'

theorem Tracks.pure {a : α} {a' : α'} {Q : α → α' → Prop} (hQ : Q a a') :
    Tracks ρ (pure a) (pure a') Q := by
  rintro c d hcd b c' ⟨⟩
  exact ⟨a', d, rfl, hcd, hQ⟩

theorem Tracks.bind {m : Step α} {m' : Step α'} {next : α → Step β} {next' : α' → Step β'}
    {P : α → α' → Prop} {Q : β → β' → Prop} (h : Tracks ρ m m' P)
    (hnext : ∀ a a', P a a' → Tracks ρ (next a) (next' a') Q) : Tracks ρ (m >>= next) (m' >>= next') Q := by
  intro c d hcd b c'' hrun
  obtain ⟨⟨a, c'⟩, hm, hrun⟩ := exists_of_bind_eq_ok hrun
  obtain ⟨a', d', hm', hcd', hP⟩ := h c d hcd a c' hm
  rw [step_of_ok hm']
  exact hnext a a' hP c' d' hcd' b c'' hrun

theorem query_tracks {ask : Store → Except Fault α} {ask' : Store → Except Fault α'} {Q : α → α' → Prop}
    (h : ∀ s t, ρ.Carries s t → ∀ a, ask s = .ok a → ∃ a', ask' t = .ok a' ∧ Q a a') :
    Tracks ρ (query ask) (query ask') Q := by
  intro c d hcd a c' hrun
  cases hask : ask c.store with
  | error fault =>
    replace hrun : (ask c.store >>= fun a => .ok (a, c)) = .ok (a, c') := hrun
    rw [hask] at hrun
    cases hrun
  | ok found =>
    rw [query_of_ok hask] at hrun
    cases hrun
    obtain ⟨a', ha', hQ⟩ := h _ _ hcd.store _ hask
    exact ⟨a', d, query_of_ok ha', hcd, hQ⟩

/-- The copies under other numbers are found under the other number of the variable. -/
theorem lookup_map (copies : List (TypeId × TypeId)) (v : TypeId) :
    (copies.map fun entry => (ρ entry.1, ρ entry.2)).lookup (ρ v) = (copies.lookup v).map ρ := by
  induction copies with
  | nil => rfl
  | cons entry copies ih =>
    obtain ⟨x, w⟩ := entry
    rw [List.map_cons, lookup_cons, lookup_cons, ih]
    by_cases he : v = x
    · rw [if_pos he, if_pos (congrArg ρ he), Option.map_some]
    · rw [if_neg he, if_neg fun hρ => he (ρ.injective hρ)]

/-! ### What the walk meets -/

theorem copyVar_tracks (var : TypeId) :
    Tracks ρ (copyVar var) (copyVar (ρ var)) fun copy copy' => copy' = ρ copy := by
  intro c d hcd copy c' hrun
  have hlookup' : d.copies.lookup (ρ var) = (c.copies.lookup var).map ρ := by rw [hcd.copies, lookup_map]
  cases hlookup : c.copies.lookup var with
  | some found =>
    cases (copyVar_of_some hlookup).symm.trans hrun
    exact ⟨ρ copy, d, copyVar_of_some (by rw [hlookup', hlookup]; rfl), hcd, rfl⟩
  | none =>
    cases (copyVar_of_none hlookup).symm.trans hrun
    refine ⟨_, _, copyVar_of_none (by rw [hlookup', hlookup]; rfl), ⟨hcd.store.allocate (.var none), ?_⟩,
      hcd.store.next.symm⟩
    show (ρ var, (⟨d.store.size⟩ : TypeId)) :: d.copies = (c.noting var).copies.map _
    rw [noting, List.map_cons, ← hcd.copies, ← hcd.store.next]
    rfl

theorem copyOp_tracks (con : Constructor) (args : List TypeId) :
    Tracks ρ (copyOp con args) (copyOp con (args.map ρ)) fun copy copy' => copy' = ρ copy := by
  rintro c d hcd copy c' ⟨⟩
  exact ⟨_, _, rfl, ⟨hcd.store.allocate (.op con args), hcd.copies⟩, hcd.store.next.symm⟩

theorem mapM_tracks {f f' : TypeId → Step TypeId} : ∀ args : List TypeId,
    (∀ arg ∈ args, Tracks ρ (f arg) (f' (ρ arg)) fun copy copy' => copy' = ρ copy) →
      Tracks ρ (args.mapM f) ((args.map ρ).mapM f') fun copies copies' => copies' = copies.map ρ
  | [], _ => .pure rfl
  | arg :: args, h => by
    rw [List.map_cons, List.mapM_cons, List.mapM_cons]
    refine (h arg List.mem_cons_self).bind ?_
    rintro copy _ rfl
    refine (mapM_tracks args fun a ha => h a (List.mem_cons_of_mem _ ha)).bind ?_
    rintro copies _ rfl
    exact .pure rfl

/-! ### The whole walk -/

/-- By induction on the first bound. A variable is copied on both sides or on neither, because the same variables
    are pinned. -/
theorem copyWithin_tracks {pinned pinned' : List TypeId} (hpins : ρ.Pins pinned pinned') :
    ∀ {fuel fuel' : Nat} (ty : TypeId), fuel ≤ fuel' →
      Tracks ρ (copyWithin pinned fuel ty) (copyWithin pinned' fuel' (ρ ty)) fun copy copy' => copy' = ρ copy := by
  intro fuel
  induction fuel with
  | zero => rintro fuel' ty - c d - copy c' ⟨⟩
  | succ fuel ih =>
    intro fuel' ty hle
    obtain ⟨fuel', rfl⟩ : ∃ n, fuel' = n + 1 := ⟨fuel' - 1, by omega⟩
    have hview : Tracks ρ (query (·.view ty)) (query (·.view (ρ ty))) fun v v' => v' = v.rename ρ :=
      query_tracks fun _ _ hst _ hv => ⟨_, hst.view hv, rfl⟩
    unfold copyWithin
    refine hview.bind ?_
    rintro v _ rfl
    rcases v with x | ⟨r, con, _ | ⟨arg, args⟩⟩
    case var =>
      have hpinned : Tracks ρ (query (·.isPinned pinned x)) (query (·.isPinned pinned' (ρ x))) (· = ·) :=
        query_tracks fun _ _ hst b hb => ⟨b, hst.isPinned hpins hb, rfl⟩
      refine hpinned.bind ?_
      rintro b _ rfl
      cases b with
      | true => exact .pure rfl
      | false => exact copyVar_tracks x
    case op.nil => exact .pure rfl
    case op.cons =>
      have hargs := mapM_tracks (arg :: args) fun a _ => ih a (Nat.le_of_succ_le_succ hle)
      refine hargs.bind ?_
      rintro copies _ rfl
      exact copyOp_tracks con copies

end Copying

/-- **A copy** succeeds under other numbers, and shares the corresponding variables. -/
theorem Renaming.Carries.instantiate {ρ : Renaming} {s t s' : Store} (h : ρ.Carries s t)
    {pinned pinned' : List TypeId} (hpins : ρ.Pins pinned pinned') {ty copy : TypeId}
    (hs : s.instantiate pinned ty = .ok (copy, s')) :
    ∃ t', t.instantiate pinned' (ρ ty) = .ok (ρ copy, t') ∧ ρ.Carries s' t' := by
  obtain ⟨⟨found, c'⟩, hrun, hs⟩ := exists_of_bind_eq_ok hs
  cases hs
  obtain ⟨_, d', hrun', hcarried, rfl⟩ := Copying.copyWithin_tracks hpins ty h.pairBound_le
    ⟨s, []⟩ ⟨t, []⟩ ⟨h, rfl⟩ _ _ hrun
  refine ⟨d'.store, ?_, hcarried.store⟩
  show (Copying.copyWithin pinned' t.pairBound (ρ ty) ⟨t, []⟩ >>= _) = _
  rw [hrun']
  rfl

end TypeInference
