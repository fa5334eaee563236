import TypeInference.Proofs.Typing.Rules

/-!
# `Proofs.Typing.Monomorphic` — the typing rules of a language without generic names

Expressions whose names all stand for one type each have the usual rules of the simply typed lambda calculus.
They are said here with an *environment*, which gives names their trees, and without any arena: a lambda
guesses the trees of its parameters and adds them to the environment of its body.

The rules do not say how an access or an assignment is typed, and a written parameter type is not one of the
things that they look at; `Expr.Monomorphic` is the part of the language for which they are made.

## Contents
* `Environment`, `Environment.bind` — the trees of names, and the names of a parameter list;
* `HasType` — the rules;
* `Expr.Monomorphic`, `Expr.Free` — the part of the language, and the free names of an expression;
* `HasType.congr` — only the free names matter.
-/

namespace TypeInference

/-! ## Environments and rules -/

/-- The trees that names stand for. It says nothing of scopes: a name stands for one tree, wherever it is used. -/
abbrev Environment := String → Option Tree

/-- The names of a parameter list, in the order of the parameters. -/
def paramNames (params : List Param) : List String := params.map fun p => p.name.name

/-- The environment with these names in front of the others; the first of equal names counts. -/
def Environment.bind (Γ : Environment) (names : List String) (trees : List Tree) : Environment := fun name =>
  ((names.zip trees).lookup name).or (Γ name)

mutual

/-- The typing rules: in the environment, the expression can have the tree. An expression may have many trees, and
    which of them is the most general one is not said by the rules. -/
inductive HasType : Environment → Expr → Tree → Prop
  | number {Γ : Environment} {mark : Mark} : HasType Γ (.number mark) .number
  | string {Γ : Environment} {mark : Mark} {value : String} : HasType Γ (.string mark value) .string
  | bool {Γ : Environment} {mark : Mark} {value : Bool} : HasType Γ (.bool mark value) .bool
  | name {Γ : Environment} {mark : Mark} {id : Ident} {t : Tree} :
      Γ id.name = some t → HasType Γ (.name mark id) t
  | list {Γ : Environment} {mark : Mark} {items : List Expr} {element : Tree} :
      (∀ e ∈ items, HasType Γ e element) → HasType Γ (.list mark items) (.list element)
  | map {Γ : Environment} {mark : Mark} {entries : List (Expr × Expr)} {key value : Tree} :
      (∀ entry ∈ entries, HasType Γ entry.1 key) → (∀ entry ∈ entries, HasType Γ entry.2 value) →
      HasType Γ (.map mark entries) (.map key value)
  | tuple {Γ : Environment} {mark : Mark} {items : List Expr} {elements : List Tree} :
      HaveTypes Γ items elements → HasType Γ (.tuple mark items) (.tuple elements)
  | unary {Γ : Environment} {mark : Mark} {op : UnaryOp} {operand : Expr} :
      HasType Γ operand op.tree → HasType Γ (.unary mark op operand) op.tree
  | binary {Γ : Environment} {mark : Mark} {op : BinaryOp} {left right : Expr} {t : Tree} :
      HasType Γ left t → HasType Γ right t → (∀ u, op.operandTree? = some u → t = u) →
      HasType Γ (.binary mark op left right) op.resultTree
  | call {Γ : Environment} {mark : Mark} {callee : Expr} {args : List Expr} {params : List Tree}
      {result : Tree} :
      HasType Γ callee (.function params result) → HaveTypes Γ args params →
      HasType Γ (.call mark callee args) result
  | lambda {Γ : Environment} {mark : Mark} {own : Option ScopeId} {params : List Param} {body : Expr}
      {trees : List Tree} {result : Tree} :
      trees.length = params.length → HasType (Γ.bind (paramNames params) trees) body result →
      HasType Γ (.lambda mark own params body) (.function trees result)
  | when {Γ : Environment} {mark : Mark} {cond yes no : Expr} {t : Tree} :
      HasType Γ cond .bool → HasType Γ yes t → HasType Γ no t → HasType Γ (.when mark cond yes no) t

/-- Expressions side by side, each with its own tree. -/
inductive HaveTypes : Environment → List Expr → List Tree → Prop
  | nil {Γ : Environment} : HaveTypes Γ [] []
  | cons {Γ : Environment} {e : Expr} {rest : List Expr} {t : Tree} {trees : List Tree} :
      HasType Γ e t → HaveTypes Γ rest trees → HaveTypes Γ (e :: rest) (t :: trees)

end

/-! ## The part of the language -/

mutual

/-- The expression has no access, no assignment and no written parameter type. What an access gives depends on what
    is already known of the left side, and the other two read the arena. -/
def Expr.Monomorphic : Expr → Prop
  | .number _ | .string _ _ | .bool _ _ | .name _ _ => True
  | .list _ items | .tuple _ items => MonomorphicExprs items
  | .map _ entries => MonomorphicEntries entries
  | .access _ _ _ | .assign _ _ _ => False
  | .unary _ _ operand => operand.Monomorphic
  | .binary _ _ left right => left.Monomorphic ∧ right.Monomorphic
  | .call _ callee args => callee.Monomorphic ∧ MonomorphicExprs args
  | .lambda _ _ params body => (∀ p ∈ params, p.signature = none) ∧ body.Monomorphic
  | .when _ cond yes no => cond.Monomorphic ∧ yes.Monomorphic ∧ no.Monomorphic

def MonomorphicExprs : List Expr → Prop
  | [] => True
  | e :: rest => e.Monomorphic ∧ MonomorphicExprs rest

def MonomorphicEntries : List (Expr × Expr) → Prop
  | [] => True
  | (key, value) :: rest => key.Monomorphic ∧ value.Monomorphic ∧ MonomorphicEntries rest

end

mutual

/-- The name is used in the expression outside all lambdas with a parameter of that name. The target of an
    assignment counts as a use. -/
def Expr.Free (name : String) : Expr → Prop
  | .number _ | .string _ _ | .bool _ _ => False
  | .name _ id => id.name = name
  | .list _ items | .tuple _ items => FreeExprs name items
  | .map _ entries => FreeEntries name entries
  | .access _ left index => left.Free name ∨ index.Free name
  | .unary _ _ operand => operand.Free name
  | .binary _ _ left right => left.Free name ∨ right.Free name
  | .call _ callee args => callee.Free name ∨ FreeExprs name args
  | .lambda _ _ params body => name ∉ paramNames params ∧ body.Free name
  | .when _ cond yes no => cond.Free name ∨ yes.Free name ∨ no.Free name
  | .assign _ target value => target.name = name ∨ value.Free name

def FreeExprs (name : String) : List Expr → Prop
  | [] => False
  | e :: rest => e.Free name ∨ FreeExprs name rest

def FreeEntries (name : String) : List (Expr × Expr) → Prop
  | [] => False
  | (key, value) :: rest => key.Free name ∨ value.Free name ∨ FreeEntries name rest

end

/-! ## Only free names matter -/

variable {Γ Γ' : Environment}

theorem Environment.bind_of_mem {names : List String} {trees : List Tree} (h : trees.length = names.length)
    {name : String} (hmem : name ∈ names) : Γ.bind names trees name = Γ'.bind names trees name := by
  have hfound : ((names.zip trees).lookup name).isSome := by
    rw [List.lookup_isSome_iff]
    obtain ⟨i, hi, rfl⟩ := List.getElem_of_mem hmem
    have hi' : i < (names.zip trees).length := by simp [h, hi]
    exact ⟨_, List.getElem_mem hi', by simp⟩
  obtain ⟨t, ht⟩ := Option.isSome_iff_exists.mp hfound
  simp [Environment.bind, ht]

/-- Behind the names of the list, the rest of the environment is as before. -/
theorem Environment.bind_congr {names : List String} {trees : List Tree} (h : trees.length = names.length)
    {name : String} (heq : name ∉ names → Γ' name = Γ name) :
    Γ'.bind names trees name = Γ.bind names trees name := by
  by_cases hmem : name ∈ names
  · exact bind_of_mem h hmem
  · rw [Environment.bind, heq hmem, Environment.bind]

mutual

/-- **Environments that agree on the free names** of an expression give it the same trees. By recursion on the
    expression; under a lambda the names of the parameters are found in front, so only the other free names matter. -/
theorem HasType.congr : ∀ (e : Expr) {Γ Γ' : Environment} {t : Tree},
    (∀ name, e.Free name → Γ' name = Γ name) → HasType Γ e t → HasType Γ' e t
  | .number _, _, _, _, _, .number => .number
  | .string _ _, _, _, _, _, .string => .string
  | .bool _ _, _, _, _, _, .bool => .bool
  | .name _ id, _, _, _, hΓ, .name h => .name ((hΓ id.name rfl).trans h)
  | .list _ items, _, _, _, hΓ, .list h => .list (HasType.congrElements items hΓ h)
  | .map _ entries, _, _, _, hΓ, .map hk hv =>
    have h := HasType.congrEntries entries hΓ fun entry he => ⟨hk entry he, hv entry he⟩
    .map (fun entry he => (h entry he).1) fun entry he => (h entry he).2
  | .tuple _ items, _, _, _, hΓ, .tuple h => .tuple (HaveTypes.congr items hΓ h)
  | .unary _ _ operand, _, _, _, hΓ, .unary h => .unary (HasType.congr operand hΓ h)
  | .binary _ _ left right, _, _, _, hΓ, .binary hl hr ho =>
    .binary (HasType.congr left (fun x hx => hΓ x (.inl hx)) hl)
      (HasType.congr right (fun x hx => hΓ x (.inr hx)) hr) ho
  | .call _ callee args, _, _, _, hΓ, .call hc ha =>
    .call (HasType.congr callee (fun x hx => hΓ x (.inl hx)) hc)
      (HaveTypes.congr args (fun x hx => hΓ x (.inr hx)) ha)
  | .lambda _ _ params body, _, _, _, hΓ, .lambda hlength h =>
    .lambda hlength (HasType.congr body (fun x hx => Environment.bind_congr
      (by simpa [paramNames] using hlength) fun hnot => hΓ x ⟨hnot, hx⟩) h)
  | .when _ cond yes no, _, _, _, hΓ, .when hc hy hn =>
    .when (HasType.congr cond (fun x hx => hΓ x (.inl hx)) hc)
      (HasType.congr yes (fun x hx => hΓ x (.inr (.inl hx))) hy)
      (HasType.congr no (fun x hx => hΓ x (.inr (.inr hx))) hn)

theorem HaveTypes.congr : ∀ (items : List Expr) {Γ Γ' : Environment} {trees : List Tree},
    (∀ name, FreeExprs name items → Γ' name = Γ name) → HaveTypes Γ items trees → HaveTypes Γ' items trees
  | [], _, _, _, _, .nil => .nil
  | e :: rest, _, _, _, hΓ, .cons he hrest =>
    .cons (HasType.congr e (fun x hx => hΓ x (.inl hx)) he)
      (HaveTypes.congr rest (fun x hx => hΓ x (.inr hx)) hrest)

theorem HasType.congrElements : ∀ (items : List Expr) {Γ Γ' : Environment} {t : Tree},
    (∀ name, FreeExprs name items → Γ' name = Γ name) → (∀ e ∈ items, HasType Γ e t) →
      ∀ e ∈ items, HasType Γ' e t
  | [], _, _, _, _, _ => fun _ he => nomatch he
  | e :: rest, _, _, _, hΓ, h => by
    obtain ⟨he, hrest⟩ := List.forall_mem_cons.mp h
    exact List.forall_mem_cons.mpr ⟨HasType.congr e (fun x hx => hΓ x (.inl hx)) he,
      HasType.congrElements rest (fun x hx => hΓ x (.inr hx)) hrest⟩

theorem HasType.congrEntries : ∀ (entries : List (Expr × Expr)) {Γ Γ' : Environment} {k v : Tree},
    (∀ name, FreeEntries name entries → Γ' name = Γ name) →
      (∀ entry ∈ entries, HasType Γ entry.1 k ∧ HasType Γ entry.2 v) →
      ∀ entry ∈ entries, HasType Γ' entry.1 k ∧ HasType Γ' entry.2 v
  | [], _, _, _, _, _, _ => fun _ he => nomatch he
  | (key, value) :: rest, _, _, _, _, hΓ, h => by
    obtain ⟨⟨hk, hv⟩, hrest⟩ := List.forall_mem_cons.mp h
    exact List.forall_mem_cons.mpr ⟨⟨HasType.congr key (fun x hx => hΓ x (.inl hx)) hk,
      HasType.congr value (fun x hx => hΓ x (.inr (.inl hx))) hv⟩,
      HasType.congrEntries rest (fun x hx => hΓ x (.inr (.inr hx))) hrest⟩

end

/-! ## The rules read backwards -/

variable {t : Tree} {mark : Mark}

theorem hasType_name_iff {id : Ident} : HasType Γ (.name mark id) t ↔ Γ id.name = some t :=
  ⟨fun | .name h => h, .name⟩

theorem hasType_list_iff {items : List Expr} :
    HasType Γ (.list mark items) t ↔ ∃ element, (∀ e ∈ items, HasType Γ e element) ∧ t = .list element :=
  ⟨fun | .list h => ⟨_, h, rfl⟩, fun ⟨_, h, he⟩ => he ▸ .list h⟩

theorem hasType_map_iff {entries : List (Expr × Expr)} :
    HasType Γ (.map mark entries) t ↔ ∃ key value,
      (∀ entry ∈ entries, HasType Γ entry.1 key ∧ HasType Γ entry.2 value) ∧ t = .map key value :=
  ⟨fun | .map hk hv => ⟨_, _, fun entry he => ⟨hk entry he, hv entry he⟩, rfl⟩,
    fun ⟨_, _, h, he⟩ => he ▸ .map (fun entry he => (h entry he).1) fun entry he => (h entry he).2⟩

theorem hasType_tuple_iff {items : List Expr} :
    HasType Γ (.tuple mark items) t ↔ ∃ elements, HaveTypes Γ items elements ∧ t = .tuple elements :=
  ⟨fun | .tuple h => ⟨_, h, rfl⟩, fun ⟨_, h, he⟩ => he ▸ .tuple h⟩

theorem hasType_unary_iff {op : UnaryOp} {operand : Expr} :
    HasType Γ (.unary mark op operand) t ↔ HasType Γ operand op.tree ∧ t = op.tree :=
  ⟨fun | .unary h => ⟨h, rfl⟩, fun ⟨h, he⟩ => he ▸ .unary h⟩

theorem hasType_binary_iff {op : BinaryOp} {left right : Expr} :
    HasType Γ (.binary mark op left right) t ↔ ∃ u, HasType Γ left u ∧ HasType Γ right u ∧
      (∀ v, op.operandTree? = some v → u = v) ∧ t = op.resultTree :=
  ⟨fun | .binary hl hr ho => ⟨_, hl, hr, ho, rfl⟩, fun ⟨_, hl, hr, ho, he⟩ => he ▸ .binary hl hr ho⟩

theorem hasType_call_iff {callee : Expr} {args : List Expr} :
    HasType Γ (.call mark callee args) t ↔
      ∃ params, HasType Γ callee (.function params t) ∧ HaveTypes Γ args params :=
  ⟨fun | .call hc ha => ⟨_, hc, ha⟩, fun ⟨_, hc, ha⟩ => .call hc ha⟩

theorem hasType_lambda_iff {own : Option ScopeId} {params : List Param} {body : Expr} :
    HasType Γ (.lambda mark own params body) t ↔ ∃ trees result, trees.length = params.length ∧
      HasType (Γ.bind (paramNames params) trees) body result ∧ t = .function trees result :=
  ⟨fun | .lambda hl h => ⟨_, _, hl, h, rfl⟩, fun ⟨_, _, hl, h, he⟩ => he ▸ .lambda hl h⟩

theorem hasType_when_iff {cond yes no : Expr} :
    HasType Γ (.when mark cond yes no) t ↔ HasType Γ cond .bool ∧ HasType Γ yes t ∧ HasType Γ no t :=
  ⟨fun | .when hc hy hn => ⟨hc, hy, hn⟩, fun ⟨hc, hy, hn⟩ => .when hc hy hn⟩

theorem haveTypes_cons_iff {e : Expr} {rest : List Expr} {trees : List Tree} :
    HaveTypes Γ (e :: rest) trees ↔ ∃ u us, HasType Γ e u ∧ HaveTypes Γ rest us ∧ trees = u :: us :=
  ⟨fun | .cons he hrest => ⟨_, _, he, hrest, rfl⟩, fun ⟨_, _, he, hrest, heq⟩ => heq ▸ .cons he hrest⟩

end TypeInference
