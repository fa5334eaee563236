import TypeInference.Inference.Denotation
import TypeInference.Proofs.Scoping.Lexical

/-!
# `Proofs.Scoping.Mentions` — the names that a tree mentions, and what they have to be

A name is mentioned in five ways: as a value, as the target of an assignment, as a type, as the label of a jump, and
a `return` mentions, as it were, the function around it. What each has to be is said of the text alone. The names
around a place stand in layers, as in `Proofs.Scoping.Lexical`, but here a layer also knows whose label it is: a jump
has to stand inside the statement of the label that it names.

`mentions` goes through a tree and lists every mention with the layers around it. The signatures that a statement
declares are looked up in the scope that the statement stands in, ahead of all that is inside; those of the parameters
of a lambda are looked up in the scope of the lambda itself.

## Contents
* `Layer`, `declarationOf` — the names around a place, and the innermost declaration of a name;
* `Mention`, `Mention.Proper`, `Mention.refusal?` — what a mentioned name has to be, and the refusal if it is not;
* `Mention.proper_of_refusal?`, `Mention.not_proper_of_refusal?` — the two agree;
* `Expr.mentions`, `Stmt.mentions`, `Program.mentions` — all mentions in a tree.
-/

namespace TypeInference

open Scopes

/-! ## Layers -/

/-- The names of one scope around a place in the text: the scope, once it is recorded, the names, and the label
    whose statement the scope belongs to, if it is the scope of a label. -/
structure Layer where
  scope : Option ScopeId
  label : Option Ident
  table : Table
  deriving DecidableEq, Repr

/-- The innermost declaration of a name, and the layer it stands in. It is read off the layers alone, as looking up
    a name is read off the scopes. -/
def declarationOf (layers : List Layer) (name : String) : Option (Layer × Symbol) :=
  layers.findSome? fun layer => (layer.table.find? name).map (layer, ·)

/-- The only label among the names of the layer is its own, and there are no variants. So a name that is found there
    and means a label means the statement around. -/
structure Layer.Faithful (layer : Layer) : Prop where
  label : ∀ {name symbol}, layer.table.find? name = some symbol → symbol.kind = .label →
    ∃ label, layer.label = some label ∧ label.name = name ∧ symbol = .declared .label label.span
  variant : ∀ {name symbol}, layer.table.find? name = some symbol → symbol.kind ≠ .variant

theorem declarationOf_cons (layer : Layer) (layers : List Layer) (name : String) :
    declarationOf (layer :: layers) name =
      ((layer.table.find? name).map (layer, ·)).or (declarationOf layers name) := by
  rw [declarationOf, List.findSome?_cons]
  cases layer.table.find? name <;> rfl

/-- A declaration stands in the names of its layer, which is one of the layers. -/
theorem find?_of_declarationOf {layers : List Layer} {name : String} {layer : Layer} {symbol : Symbol}
    (h : declarationOf layers name = some (layer, symbol)) : layer ∈ layers ∧ layer.table.find? name = some symbol := by
  obtain ⟨found, hmem, hfound⟩ := List.exists_of_findSome?_eq_some h
  obtain ⟨symbol', hfind, heq⟩ := Option.map_eq_some_iff.mp hfound
  cases heq
  exact ⟨hmem, hfind⟩

/-- The first of the tables has the declaration's symbol. -/
theorem map_declarationOf (layers : List Layer) (name : String) :
    (declarationOf layers name).map Prod.snd = (layers.map Layer.table).findSome? (·.find? name) := by
  induction layers with
  | nil => rfl
  | cons layer layers ih =>
    rw [declarationOf_cons, List.map_cons, List.findSome?_cons]
    cases layer.table.find? name with
    | none => exact ih
    | some symbol => rfl

/-! ## Mentions -/

/-- A name that is mentioned, with the layers around it, innermost first; or a `return`, and whether it stands inside
    a function. -/
inductive Mention
  | value (name : Ident) (layers : List Layer)
  | target (name : Ident) (layers : List Layer)
  | type (name : Ident) (layers : List Layer)
  | jump (label : Ident) (layers : List Layer)
  | ret (span : Span) (inside : Bool)
  deriving DecidableEq, Repr

/-- What a mentioned name has to be: a value, a variable, a type, the label of a statement around, or, for a
    `return`, inside a function. -/
def Mention.Proper : Mention → Prop
  | .value name layers => ∃ layer symbol, declarationOf layers name.name = some (layer, symbol) ∧
      (symbol.kind = .var ∨ symbol.kind = .function)
  | .target name layers => ∃ layer symbol, declarationOf layers name.name = some (layer, symbol) ∧ symbol.kind = .var
  | .type name layers => (primitive? name.name).isSome ∨
      ∃ layer symbol, declarationOf layers name.name = some (layer, symbol) ∧ symbol.kind.isType = true
  | .jump name layers => ∃ layer symbol label, declarationOf layers name.name = some (layer, symbol) ∧
      layer.label = some label ∧ label.name = name.name ∧ symbol = .declared .label label.span
  | .ret _ inside => inside = true

/-- The refusal of a name that has to be of a kind that `fits`: it means nothing, or something else. -/
def nameRefusal? (layers : List Layer) (name : Ident) (fits : SymbolKind → Bool)
    (cause : SymbolKind → String → Cause) : Option Diagnostic :=
  match declarationOf layers name.name with
  | none => some ⟨.undefined name.name, name.span⟩
  | some (_, symbol) => if fits symbol.kind then none else some ⟨cause symbol.kind name.name, name.span⟩

/-- The refusal of a mention, if it is not what it has to be; it is placed where the name is written. -/
def Mention.refusal? : Mention → Option Diagnostic
  | .value name layers => nameRefusal? layers name SymbolKind.isValue .notAValue
  | .target name layers => nameRefusal? layers name (· = .var) .notAValue
  | .type name layers =>
    if (primitive? name.name).isSome then none else nameRefusal? layers name SymbolKind.isType .notAType
  | .jump name layers => nameRefusal? layers name (· = .label) .notALabel
  | .ret span inside => if inside then none else some ⟨.returnOutsideFunction, span⟩

/-- The layers around a mention, from the inside out. -/
def Mention.layers : Mention → List Layer
  | .value _ layers | .target _ layers | .type _ layers | .jump _ layers => layers
  | .ret _ _ => []

/-! ### Proper mentions are those that are not refused -/

/-- A cause that is about what a name means. The other causes are about types, about names declared twice, and about
    constants; they are not decided by the names around. -/
def Cause.IsAboutMention : Cause → Prop
  | .undefined _ | .notAValue _ _ | .notAType _ _ | .notALabel _ _ | .returnOutsideFunction => True
  | .duplicate _ _ | .immutableAssignment _ | .shadowsType _ | .missingScope | .mismatch _ _
  | .recursiveUnification _ _ | .nonNumericIndex _ | .indexKeyMismatch _ _ | .notIndexable _ | .operatorMismatch _ _
  | .binaryOperatorMismatch _ _ _ => False

section NameRefusal

variable {layers : List Layer} {name : Ident} {fits : SymbolKind → Bool} {cause : SymbolKind → String → Cause}

/-- A name is not refused if its declaration is of a kind that fits. -/
theorem nameRefusal?_eq_none_iff : nameRefusal? layers name fits cause = none ↔
    ∃ layer symbol, declarationOf layers name.name = some (layer, symbol) ∧ fits symbol.kind = true := by
  unfold nameRefusal?
  cases hdecl : declarationOf layers name.name with
  | none => simp
  | some found =>
    obtain ⟨layer, symbol⟩ := found
    simp

end NameRefusal

namespace Mention

variable {mention : Mention}

/-- **A mention that is not refused is proper.** Only for jumps the layers have to be faithful: the refusal looks at
    the kind of the symbol, and being proper is about the statement around. -/
theorem proper_of_refusal? (hfaithful : ∀ layer ∈ mention.layers, layer.Faithful) (h : mention.refusal? = none) :
    mention.Proper := by
  cases mention with
  | value name layers =>
    rw [refusal?, nameRefusal?_eq_none_iff] at h
    obtain ⟨layer, symbol, hdecl, hvalue⟩ := h
    obtain ⟨hmem, hfind⟩ := find?_of_declarationOf hdecl
    have hvariant := (hfaithful layer hmem).variant hfind
    refine ⟨layer, symbol, hdecl, ?_⟩
    revert hvariant hvalue
    cases symbol.kind <;> decide
  | target name layers =>
    rw [refusal?, nameRefusal?_eq_none_iff] at h
    obtain ⟨layer, symbol, hdecl, hvar⟩ := h
    exact ⟨layer, symbol, hdecl, of_decide_eq_true hvar⟩
  | type name layers =>
    rw [refusal?] at h
    split at h
    · next hprimitive => exact .inl hprimitive
    · exact .inr (nameRefusal?_eq_none_iff.mp h)
  | jump name layers =>
    rw [refusal?, nameRefusal?_eq_none_iff] at h
    obtain ⟨layer, symbol, hdecl, hkind⟩ := h
    obtain ⟨hmem, hfind⟩ := find?_of_declarationOf hdecl
    obtain ⟨label, hlabel, hname, hsymbol⟩ := (hfaithful layer hmem).label hfind (of_decide_eq_true hkind)
    exact ⟨layer, symbol, label, hdecl, hlabel, hname, hsymbol⟩
  | ret span inside =>
    cases inside with
    | true => rfl
    | false => cases h

/-- A proper mention is not refused, whatever the layers are. -/
theorem refusal?_of_proper (h : mention.Proper) : mention.refusal? = none := by
  cases mention with
  | value name layers =>
    obtain ⟨layer, symbol, hdecl, hkind⟩ := h
    rw [refusal?, nameRefusal?_eq_none_iff]
    refine ⟨layer, symbol, hdecl, ?_⟩
    rcases hkind with hkind | hkind <;> rw [hkind] <;> rfl
  | target name layers =>
    obtain ⟨layer, symbol, hdecl, hkind⟩ := h
    rw [refusal?, nameRefusal?_eq_none_iff]
    exact ⟨layer, symbol, hdecl, decide_eq_true hkind⟩
  | type name layers =>
    rw [refusal?, ite_eq_left_iff, Bool.not_eq_true, nameRefusal?_eq_none_iff]
    exact fun hnone => h.resolve_left (by simp [hnone])
  | jump name layers =>
    obtain ⟨layer, symbol, label, hdecl, -, -, rfl⟩ := h
    rw [refusal?, nameRefusal?_eq_none_iff]
    exact ⟨layer, _, hdecl, rfl⟩
  | ret span inside => exact if_pos h

/-- **A mention that is refused is not proper**, so the two definitions say the same. -/
theorem not_proper_of_refusal? {diagnostic : Diagnostic} (h : mention.refusal? = some diagnostic) :
    ¬ mention.Proper := by
  intro hproper
  rw [refusal?_of_proper hproper] at h
  cases h

end Mention

/-! ## Written names -/

mutual

/-- The names in a signature, from left to right, which is the order in which they are looked up. -/
def Signature.names : Signature → List Ident
  | .name id => [id]
  | .list _ element => element.names
  | .map _ key value => key.names ++ value.names
  | .tuple _ elements => namesOfAll elements
  | .function _ params result => namesOfAll params ++ result.names

/-- The names in signatures side by side, from left to right. -/
def namesOfAll : List Signature → List Ident
  | [] => []
  | signature :: rest => signature.names ++ namesOfAll rest

end

/-- The names in a signature that may be absent, of which there are none then. -/
def writtenNames : Option Signature → List Ident
  | none => []
  | some signature => signature.names

/-- The names in the signatures of parameters, from left to right. -/
def Param.writtenNames (params : List Param) : List Ident :=
  params.flatMap fun p => TypeInference.writtenNames p.signature

/-- The names in the signatures that a statement declares in the scope it stands in. -/
def Stmt.writtenNames : Stmt → List Ident
  | .vars _ _ defs => defs.flatMap fun d => TypeInference.writtenNames d.signature
  | .function _ _ params result _ => Param.writtenNames params ++ TypeInference.writtenNames result
  | .blueprint _ _ _ | .trait _ _ _ | .struct _ _ _ | .enum _ _ _ => []
  | .label _ _ _ | .block _ | .branch _ _ _ _ _ | .loop _ _ _ | .ret _ _ | .jump _ _ _ | .expr _ => []

/-- Names that are mentioned as types, all within the same layers. -/
def typeMentions (layers : List Layer) (names : List Ident) : List Mention := names.map (.type · layers)

/-! ## Trees -/

mutual

/-- The mentions in an expression. Inside a lambda there is one more layer, and the signatures of the parameters are
    looked up in it. -/
def Expr.mentions (layers : List Layer) : Expr → List Mention
  | .number _ => []
  | .string _ _ => []
  | .bool _ _ => []
  | .name _ id => [.value id layers]
  | .list _ items => exprsMentions layers items
  | .map _ entries => entriesMentions layers entries
  | .tuple _ items => exprsMentions layers items
  | .access _ left index => left.mentions layers ++ index.mentions layers
  | .unary _ _ operand => operand.mentions layers
  | .binary _ _ left right => left.mentions layers ++ right.mentions layers
  | .call _ callee args => callee.mentions layers ++ exprsMentions layers args
  | .lambda _ own params body =>
    typeMentions (⟨own, none, Param.frame params⟩ :: layers) (Param.writtenNames params) ++
      body.mentions (⟨own, none, Param.frame params⟩ :: layers)
  | .when _ cond yes no => cond.mentions layers ++ (yes.mentions layers ++ no.mentions layers)
  | .assign _ target value => .target target layers :: value.mentions layers

def exprsMentions (layers : List Layer) : List Expr → List Mention
  | [] => []
  | e :: rest => e.mentions layers ++ exprsMentions layers rest

def entriesMentions (layers : List Layer) : List (Expr × Expr) → List Mention
  | [] => []
  | (key, value) :: rest => key.mentions layers ++ (value.mentions layers ++ entriesMentions layers rest)

end

/-- The mentions in an expression that may be absent, of which there are none then. -/
def optionMentions (layers : List Layer) : Option Expr → List Mention
  | none => []
  | some e => e.mentions layers

/-- The mentions in the first values of variables, in the order of the definitions. -/
def defsMentions (layers : List Layer) : List VarDef → List Mention
  | [] => []
  | d :: rest => optionMentions layers d.value ++ defsMentions layers rest

/-- The mentions in the signatures that a list of statements declares in the scope it stands in. -/
def announcedMentions (layers : List Layer) (stmts : List Stmt) : List Mention :=
  typeMentions layers (stmts.flatMap Stmt.writtenNames)

mutual

/-- The mentions in a statement, apart from those in the signatures that it declares; `inside` tells whether it stands
    inside a function. -/
def Stmt.mentions (inside : Bool) (layers : List Layer) : Stmt → List Mention
  | .vars _ _ defs => defsMentions layers defs
  | .function mark _ params _ body => body.mentions true (⟨mark.scope, none, Param.frame params⟩ :: layers)
  | .blueprint _ _ body => body.mentions inside layers
  | .trait _ _ body => body.mentions inside layers
  | .struct _ _ fields => typeMentions layers (fields.flatMap fun f => f.signature.names)
  | .enum _ _ _ => []
  | .label mark name stmt =>
    announcedMentions (⟨mark.scope, some name, labelFrame name stmt⟩ :: layers) [stmt] ++
      stmt.mentions inside (⟨mark.scope, some name, labelFrame name stmt⟩ :: layers)
  | .block body => body.mentions inside layers
  | .branch _ cond body elifs none =>
    cond.mentions layers ++ (body.mentions inside layers ++ elifsMentions inside layers elifs)
  | .branch _ cond body elifs (some last) =>
    cond.mentions layers ++
      (body.mentions inside layers ++ (elifsMentions inside layers elifs ++ last.mentions inside layers))
  | .loop _ cond body => cond.mentions layers ++ body.mentions inside layers
  | .ret span value => .ret span inside :: optionMentions layers value
  | .jump _ _ label => label.toList.map (.jump · layers)
  | .expr e => e.mentions layers

def Block.mentions (inside : Bool) (layers : List Layer) : Block → List Mention
  | .mk mark stmts =>
    announcedMentions (⟨mark.scope, none, stmtsFrame stmts⟩ :: layers) stmts ++
      stmtsMentions inside (⟨mark.scope, none, stmtsFrame stmts⟩ :: layers) stmts

def stmtsMentions (inside : Bool) (layers : List Layer) : List Stmt → List Mention
  | [] => []
  | stmt :: rest => stmt.mentions inside layers ++ stmtsMentions inside layers rest

def elifsMentions (inside : Bool) (layers : List Layer) : List Elif → List Mention
  | [] => []
  | .mk _ cond body :: rest =>
    cond.mentions layers ++ (body.mentions inside layers ++ elifsMentions inside layers rest)

end

/-! ### Programs -/

/-- The outermost layer: what a program declares, on top of the names that the global scope `held`. -/
def Program.layer (held : Table) (program : Program) : Layer :=
  ⟨program.scope, none, held ++ stmtsFrame program.stmts⟩

/-- The mentions in a program: those in the signatures that it declares, and those inside its statements. -/
def Program.mentions (held : Table) (program : Program) : List Mention :=
  announcedMentions [program.layer held] program.stmts ++ stmtsMentions false [program.layer held] program.stmts

/-! ## Layers of scopes -/

/-- The scope has these layers around it, innermost first. The tables are those on the way out; what is added is the
    label that each layer belongs to. -/
structure Scopes.Layered (g : Scopes) (id : ScopeId) (layers : List Layer) : Prop where
  head : layers.head?.bind Layer.scope = some id
  chain : g.Chain id (layers.map Layer.table)
  faithful : ∀ layer ∈ layers, layer.Faithful

/-- The layers around a mention are those of a scope. -/
def Mention.Located (g : Scopes) : Mention → Prop
  | .value _ layers | .target _ layers | .type _ layers | .jump _ layers => ∃ id, g.Layered id layers
  | .ret _ _ => True

/-- The layers around a mention are faithful, because those of a scope are. -/
theorem Mention.Located.faithful {g : Scopes} {mention : Mention} (h : mention.Located g) :
    ∀ layer ∈ mention.layers, layer.Faithful := by
  cases mention with
  | value | target | type | jump =>
    obtain ⟨id, hlayered⟩ := h
    exact hlayered.faithful
  | ret span inside => exact List.forall_mem_nil _

/-- A scope that has been opened has one more layer around it. -/
theorem Scopes.Layered.opened {g : Scopes} {own parent : ScopeId} {layers : List Layer} {label : Option Ident}
    {symbols : List (Ident × Symbol)} {table : Table} (h : g.Layered parent layers)
    (hopened : g.Opened own parent symbols) (htable : entriesOf symbols = table)
    (hfaithful : (⟨some own, label, table⟩ : Layer).Faithful) : g.Layered own (⟨some own, label, table⟩ :: layers) where
  head := rfl
  chain := htable ▸ hopened.chain h.chain
  faithful := List.forall_mem_cons.mpr ⟨hfaithful, h.faithful⟩

/-! ## Faithful layers -/

/-- Names that statements and parameters declare are neither labels nor variants. -/
def SymbolKind.isDeclarable : SymbolKind → Bool
  | .var | .function | .blueprint | .struct | .enum | .trait => true
  | .label | .variant => false

/-- Such names make a faithful layer without a label. -/
theorem Layer.faithful_of_isDeclarable {scope : Option ScopeId} {table : Table}
    (h : ∀ {name symbol}, table.find? name = some symbol → symbol.kind.isDeclarable = true) :
    (⟨scope, none, table⟩ : Layer).Faithful where
  label := fun hfind hlabel => by
    have hdeclarable := h hfind
    rw [hlabel] at hdeclarable
    cases hdeclarable
  variant := fun hfind hvariant => by
    have hdeclarable := h hfind
    rw [hvariant] at hdeclarable
    cases hdeclarable

/-- A statement declares no label: a label is declared by the pass, in the scope that it opens. -/
theorem Stmt.isDeclarable_of_mem_symbols {stmt : Stmt} :
    ∀ entry ∈ stmt.symbols, entry.2.kind.isDeclarable = true := by
  intro entry hentry
  cases stmt with
  | vars span kind defs =>
    obtain ⟨d, -, rfl⟩ := List.mem_map.mp hentry
    rfl
  | function | blueprint | trait | struct | enum =>
    cases List.mem_singleton.mp hentry
    rfl
  | label | block | branch | loop | ret | jump | expr => cases hentry

theorem Layer.faithful_entriesOf {scope : Option ScopeId} {symbols : List (Ident × Symbol)}
    (h : ∀ entry ∈ symbols, entry.2.kind.isDeclarable = true) :
    (⟨scope, none, entriesOf symbols⟩ : Layer).Faithful := by
  refine Layer.faithful_of_isDeclarable fun hfind => ?_
  obtain ⟨entry, hentry, -, rfl⟩ := exists_of_find?_entriesOf hfind
  exact h entry hentry

theorem faithful_params (scope : Option ScopeId) (params : List Param) :
    (⟨scope, none, Param.frame params⟩ : Layer).Faithful := by
  rw [← entriesOf_params]
  refine Layer.faithful_entriesOf fun entry hentry => ?_
  obtain ⟨p, -, rfl⟩ := List.mem_map.mp hentry
  rfl

theorem faithful_stmts (scope : Option ScopeId) (stmts : List Stmt) :
    (⟨scope, none, stmtsFrame stmts⟩ : Layer).Faithful := by
  rw [← entriesOf_stmts]
  refine Layer.faithful_entriesOf fun entry hentry => ?_
  obtain ⟨stmt, -, hmem⟩ := List.mem_flatMap.mp hentry
  exact Stmt.isDeclarable_of_mem_symbols entry hmem

/-- The label comes first, so its name means the label. -/
theorem faithful_label (scope : Option ScopeId) (name : Ident) (stmt : Stmt) :
    (⟨scope, some name, labelFrame name stmt⟩ : Layer).Faithful := by
  have hcases : ∀ {key symbol}, (labelFrame name stmt).find? key = some symbol →
      (name.name = key ∧ symbol = .declared .label name.span) ∨ symbol.kind.isDeclarable = true := by
    intro key symbol hfind
    rw [labelFrame, Table.find?_cons] at hfind
    split at hfind
    · next he =>
      cases hfind
      exact .inl ⟨he, rfl⟩
    · rw [← entriesOf_stmt] at hfind
      obtain ⟨entry, hentry, -, rfl⟩ := exists_of_find?_entriesOf hfind
      exact .inr (Stmt.isDeclarable_of_mem_symbols entry hentry)
  refine ⟨fun hfind hlabel => ?_, fun hfind hvariant => ?_⟩ <;>
    rcases hcases hfind with ⟨hname, rfl⟩ | hdeclarable
  · exact ⟨name, rfl, hname, rfl⟩
  · rw [hlabel] at hdeclarable
    cases hdeclarable
  · cases hvariant
  · rw [hvariant] at hdeclarable
    cases hdeclarable

end TypeInference
