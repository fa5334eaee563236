import TypeInference.Inference.Statement

/-!
# `Proofs.Inference.Visit` — the expressions that inference comes by

Inference looks at every expression of a tree once, after the expressions inside it. A visit keeps what it found
there: the types that were pinned, the type it gave, and the states before and after. `visits` collects them along
a run; it follows the functions of inference step by step and leaves the work to them, so it says nothing about
types that they do not say. `nodes` lists the expressions in the same order without running anything.

Visits are only of interest for runs that end: where a run stops, the list breaks off.

## Contents
* `Expr.nodes`, `Stmt.nodes`, `Program.nodes` — the expressions of a tree;
* `Visit`, `InferM.after`, `InferM.visiting` — visits along a run;
* `Expr.visits`, `Stmt.visits`, `stmtsVisits` — the visits to a tree.
-/

namespace TypeInference

/-! ## The expressions of a tree -/

mutual

/-- An expression after all expressions inside it, which is the order in which inference comes away from them. -/
def Expr.nodes : Expr → List Expr
  | .number mark => [.number mark]
  | .string mark value => [.string mark value]
  | .bool mark value => [.bool mark value]
  | .name mark id => [.name mark id]
  | .list mark items => exprsNodes items ++ [.list mark items]
  | .map mark entries => entriesNodes entries ++ [.map mark entries]
  | .tuple mark items => exprsNodes items ++ [.tuple mark items]
  | .access mark left index => (left.nodes ++ index.nodes) ++ [.access mark left index]
  | .unary mark op operand => operand.nodes ++ [.unary mark op operand]
  | .binary mark op left right => (left.nodes ++ right.nodes) ++ [.binary mark op left right]
  | .call mark callee args => (callee.nodes ++ exprsNodes args) ++ [.call mark callee args]
  | .lambda mark own params body => body.nodes ++ [.lambda mark own params body]
  | .when mark cond yes no => (cond.nodes ++ (yes.nodes ++ no.nodes)) ++ [.when mark cond yes no]
  | .assign mark target value => value.nodes ++ [.assign mark target value]

def exprsNodes : List Expr → List Expr
  | [] => []
  | e :: rest => e.nodes ++ exprsNodes rest

def entriesNodes : List (Expr × Expr) → List Expr
  | [] => []
  | (key, value) :: rest => key.nodes ++ (value.nodes ++ entriesNodes rest)

end

/-- The expressions inside an expression, at whatever depth, without the expression itself. -/
def Expr.inner (e : Expr) : List Expr := e.nodes.dropLast

/-- The expressions of one that may be absent, of which there are none then. -/
def optionNodes : Option Expr → List Expr
  | none => []
  | some e => e.nodes

/-- The expressions of the first values of variables, in the order of the definitions. -/
def defsNodes : List VarDef → List Expr
  | [] => []
  | d :: rest => optionNodes d.value ++ defsNodes rest

mutual

/-- The expressions of a statement, those of the blocks inside included. -/
def Stmt.nodes : Stmt → List Expr
  | .vars _ _ defs => defsNodes defs
  | .function _ _ _ _ body => body.nodes
  | .blueprint _ _ body => body.nodes
  | .trait _ _ body => body.nodes
  | .struct _ _ _ => []
  | .enum _ _ _ => []
  | .label _ _ stmt => stmt.nodes
  | .block body => body.nodes
  | .branch _ cond body elifs none => cond.nodes ++ (body.nodes ++ elifsNodes elifs)
  | .branch _ cond body elifs (some last) => cond.nodes ++ (body.nodes ++ (elifsNodes elifs ++ last.nodes))
  | .loop _ cond body => cond.nodes ++ body.nodes
  | .ret _ value => optionNodes value
  | .jump _ _ _ => []
  | .expr e => e.nodes

def Block.nodes : Block → List Expr
  | .mk _ stmts => stmtsNodes stmts

def stmtsNodes : List Stmt → List Expr
  | [] => []
  | stmt :: rest => stmt.nodes ++ stmtsNodes rest

def elifsNodes : List Elif → List Expr
  | [] => []
  | .mk _ cond body :: rest => cond.nodes ++ (body.nodes ++ elifsNodes rest)

end

/-- The expressions of a program, at whatever depth, in the order in which inference comes by them. -/
def Program.nodes (program : Program) : List Expr := stmtsNodes program.stmts

/-! ## Visits -/

/-- One expression that inference has come by: with which types pinned and in which state, and the type and the
    state that it came away with. -/
structure Visit where
  expr : Expr
  pinned : List TypeId
  before : Inference
  type : TypeId
  after : Inference

namespace InferM

variable {α : Type}

/-- No visits, as for a step that looks at no expression. -/
def unvisited : Inference → List Visit := fun _ => []

/-- The visits of the rest, after a step without visits. The step is run to know the state in which the rest begins. -/
def after (m : InferM α) (rest : α → Inference → List Visit) : Inference → List Visit := fun s =>
  match m s with
  | .ok a s' => rest a s'
  | .error _ _ => []

/-- The visits of a step, and of the rest after it if the step ends. -/
def visiting (visits : Inference → List Visit) (m : InferM α) (rest : α → Inference → List Visit) :
    Inference → List Visit := fun s =>
  visits s ++ after m rest s

theorem after_of_ok {m : InferM α} {rest : α → Inference → List Visit} {s s' : Inference} {a : α}
    (h : m s = .ok a s') : after m rest s = rest a s' := by
  rw [after, h]

/-- The visits of a function's body, which are made while the function is open. -/
def inFrame (result : TypeId) (visits : Inference → List Visit) : Inference → List Visit := fun s =>
  visits { s with frames := ⟨result, false⟩ :: s.frames }

end InferM

open InferM

/-- The visit to an expression itself, if its inference ends. -/
def Expr.visit (pinned : List TypeId) (e : Expr) : Inference → List Visit := fun s =>
  match e.infer pinned s with
  | .ok ty s' => [⟨e, pinned, s, ty, s'⟩]
  | .error _ _ => []

/-! ### The visits to a tree

Here the functions of inference are gone through once more, for their visits. Every case runs the steps that
inference runs, so that the states are those of the run, and adds the visits of the parts where the parts are looked
at. -/

mutual

/-- The visits to an expression, those inside it first. The cases are those of `Expr.infer`, with the same steps in
    the same order. -/
def Expr.visits (pinned : List TypeId) (e : Expr) : Inference → List Visit := fun s =>
  after (requireScope e.mark) (fun scope =>
    match e with
    | .number _ => unvisited
    | .string _ _ => unvisited
    | .bool _ _ => unvisited
    | .name _ _ => unvisited
    | .list _ items => after (create Store.newVar) fun element => elementsVisits pinned element items
    | .map _ entries => after (create Store.newVar) fun key => after (create Store.newVar) fun value =>
      entriesVisits pinned key value entries
    | .tuple _ items => exprsVisits pinned items
    | .access _ left index => visiting (left.visits pinned) (left.infer pinned) fun _ => index.visits pinned
    | .unary _ _ operand => operand.visits pinned
    | .binary _ _ left right => visiting (left.visits pinned) (left.infer pinned) fun _ => right.visits pinned
    | .call _ callee args => visiting (callee.visits pinned) (callee.infer pinned) fun _ => exprsVisits pinned args
    | .lambda mark own params body => after (requireScope { mark with scope := own }) fun own =>
      after (typeParams own params) fun types => body.visits (pinned ++ types)
    | .when _ cond yes no => visiting (cond.visits pinned) (cond.infer pinned) fun ty =>
      after (unify cond.span ty .bool) fun _ =>
        visiting (yes.visits pinned) (yes.infer pinned) fun _ => no.visits pinned
    | .assign _ target value => after (assignable scope target) fun _ => value.visits pinned) s ++
  e.visit pinned s

/-- The visits to expressions side by side, each from the state that the one before it leaves. -/
def exprsVisits (pinned : List TypeId) : List Expr → Inference → List Visit
  | [] => unvisited
  | e :: rest => visiting (e.visits pinned) (e.infer pinned) fun _ => exprsVisits pinned rest

/-- The visits to the items of a list, between which the types of the items are unified. -/
def elementsVisits (pinned : List TypeId) (element : TypeId) : List Expr → Inference → List Visit
  | [] => unvisited
  | e :: rest => visiting (e.visits pinned) (e.infer pinned) fun ty => after (unify e.span element ty) fun _ =>
    elementsVisits pinned element rest

/-- The visits to the entries of a map, each key before its value. -/
def entriesVisits (pinned : List TypeId) (keyType valueType : TypeId) : List (Expr × Expr) → Inference → List Visit
  | [] => unvisited
  | (key, value) :: rest =>
    visiting (key.visits pinned) (key.infer pinned) fun ty => after (unify key.span keyType ty) fun _ =>
      visiting (value.visits pinned) (value.infer pinned) fun ty => after (unify value.span valueType ty) fun _ =>
        entriesVisits pinned keyType valueType rest

end

/-- The visits to an expression that may be absent, of which there are none then. -/
def optionVisits (pinned : List TypeId) : Option Expr → Inference → List Visit
  | none => unvisited
  | some e => e.visits pinned

/-- The visits to the first values of variables, in the order of the definitions. -/
def defsVisits (scope : ScopeId) (pinned : List TypeId) : List VarDef → Inference → List Visit
  | [] => unvisited
  | d :: rest => after (declaredType scope d.name.name) fun declared =>
    match d.value with
    | some value => visiting (value.visits pinned) (value.infer pinned) fun actual =>
      after (unify d.span declared actual) fun _ => defsVisits scope pinned rest
    | none => defsVisits scope pinned rest

mutual

/-- The visits to the expressions of a statement, in the order in which inference comes by them. -/
def Stmt.visits (scope : ScopeId) (pinned : List TypeId) : Stmt → Inference → List Visit
  | .vars _ _ defs => defsVisits scope pinned defs
  | .function mark name params _ body => after (requireScope mark) fun own =>
    after (declaredType scope name.name) fun ty => after (functionParts mark.span ty params.length) fun parts =>
      after (setParamTypes own params parts.1) fun _ => inFrame parts.2 (body.visits (pinned ++ [ty]))
  | .blueprint _ _ body => body.visits pinned
  | .trait _ _ body => body.visits pinned
  | .struct _ _ _ => unvisited
  | .enum _ _ _ => unvisited
  | .label mark _ stmt => after (requireScope mark) fun own => after (stmt.predeclare own) fun pins =>
    stmt.visits own (pinned ++ pins.all)
  | .block body => body.visits pinned
  | .branch _ cond body elifs none => visiting (cond.visits pinned) (inferCondition pinned cond) fun _ =>
    visiting (body.visits pinned) (body.infer pinned) fun _ => elifsVisits pinned elifs
  | .branch _ cond body elifs (some last) => visiting (cond.visits pinned) (inferCondition pinned cond) fun _ =>
    visiting (body.visits pinned) (body.infer pinned) fun _ =>
      visiting (elifsVisits pinned elifs) (inferElifs pinned elifs) fun _ => last.visits pinned
  | .loop _ cond body => visiting (cond.visits pinned) (inferCondition pinned cond) fun _ => body.visits pinned
  | .ret _ value => after expectedResult? fun _ => optionVisits pinned value
  | .jump _ _ _ => unvisited
  | .expr e => e.visits pinned

def Block.visits (pinned : List TypeId) : Block → Inference → List Visit
  | .mk mark stmts => after (requireScope mark) fun scope => after (predeclareAll scope stmts) fun pins =>
    stmtsVisits scope pinned pins stmts

def stmtsVisits (scope : ScopeId) (pinned : List TypeId) (pins : Pins) : List Stmt → Inference → List Visit
  | [] => unvisited
  | stmt :: rest => visiting (stmt.visits scope (pinned ++ pins.all)) (stmt.infer scope (pinned ++ pins.all)) fun _ =>
    after (stmt.settle scope pins) fun pins => stmtsVisits scope pinned pins rest

def elifsVisits (pinned : List TypeId) : List Elif → Inference → List Visit
  | [] => unvisited
  | .mk _ cond body :: rest => visiting (cond.visits pinned) (inferCondition pinned cond) fun _ =>
    visiting (body.visits pinned) (body.infer pinned) fun _ => elifsVisits pinned rest

end

end TypeInference
