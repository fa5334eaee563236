import TypeInference.Syntax.Mark
import TypeInference.Syntax.Operator
import TypeInference.Syntax.Signature
import TypeInference.Syntax.Expr
import TypeInference.Syntax.Stmt
import TypeInference.Ty.Node
import TypeInference.Fault
import TypeInference.Ty.Store
import TypeInference.Ty.Snapshot
import TypeInference.Ty.View
import TypeInference.Ty.Display
import TypeInference.Ty.Instantiate
import TypeInference.Ty.Unify
import TypeInference.Scope.Symbol
import TypeInference.Scope.Table
import TypeInference.Diagnostic
import TypeInference.Scope.Arena
import TypeInference.Scope.Declaration
import TypeInference.Inference.State
import TypeInference.Inference.Denotation
import TypeInference.Inference.Operation
import TypeInference.Inference.Expression
import TypeInference.Inference.Statement
import TypeInference.Scoping
import TypeInference.Session
import TypeInference.Proofs.Run
import TypeInference.Proofs.Ty.Shape
import TypeInference.Proofs.Ty.Walk
import TypeInference.Proofs.Ty.Tree
import TypeInference.Proofs.Ty.Display
import TypeInference.Proofs.Ty.Solution
import TypeInference.Proofs.Ty.Persistence
import TypeInference.Proofs.Ty.Evolution
import TypeInference.Proofs.Ty.Instance
import TypeInference.Proofs.Ty.Undo
import TypeInference.Proofs.Ty.Unification
import TypeInference.Proofs.Ty.MostGeneral
import TypeInference.Proofs.Ty.PinnedCopy
import TypeInference.Proofs.Ty.Renaming
import TypeInference.Proofs.Ty.Confinement
import TypeInference.Proofs.Ty.Shift
import TypeInference.Proofs.Ty.Copy
import TypeInference.Proofs.Ty.FirstClash
import TypeInference.Proofs.Ty.Change
import TypeInference.Proofs.Ty.Reading
import TypeInference.Proofs.Ty.Symmetry
import TypeInference.Proofs.Ty.Between
import TypeInference.Proofs.Ty.Rollback
import TypeInference.Proofs.Scope.Chain
import TypeInference.Proofs.Scope.Lexical
import TypeInference.Proofs.Scope.Relocation
import TypeInference.Proofs.Scope.Renaming
import TypeInference.Proofs.Scope.Growth
import TypeInference.Proofs.Scope.History
import TypeInference.Proofs.Typing.Rules
import TypeInference.Proofs.Typing.Monomorphic
import TypeInference.Proofs.Scoping.Placement
import TypeInference.Proofs.Scoping.Erasure
import TypeInference.Proofs.Scoping.Lexical
import TypeInference.Proofs.Scoping.Mentions
import TypeInference.Proofs.Scoping.Pass
import TypeInference.Proofs.Scoping.Annotation
import TypeInference.Proofs.Scoping.Oblivious
import TypeInference.Proofs.Scoping.Strict
import TypeInference.Proofs.Scoping.Redeclaration
import TypeInference.Proofs.Scoping.Relocation
import TypeInference.Proofs.Scoping.Uniform
import TypeInference.Proofs.Inference.Denotation
import TypeInference.Proofs.Inference.Guard
import TypeInference.Proofs.Inference.Parallel
import TypeInference.Proofs.Inference.Quiet
import TypeInference.Proofs.Inference.Visit
import TypeInference.Proofs.Inference.Embedding
import TypeInference.Proofs.Inference.Frames
import TypeInference.Proofs.Inference.Mentions
import TypeInference.Proofs.Inference.Steps
import TypeInference.Proofs.Inference.Track
import TypeInference.Proofs.Inference.Operation
import TypeInference.Proofs.Inference.Replay
import TypeInference.Proofs.Inference.Trace
import TypeInference.Proofs.Inference.Naming
import TypeInference.Proofs.Inference.Occurrence
import TypeInference.Proofs.Inference.Principal
import TypeInference.Proofs.Inference.Signature
import TypeInference.Proofs.Inference.Completeness
import TypeInference.Proofs.Inference.Expression
import TypeInference.Proofs.Inference.Filling
import TypeInference.Proofs.Inference.Predeclaration
import TypeInference.Proofs.Inference.Ahead
import TypeInference.Proofs.Inference.PrincipalType
import TypeInference.Proofs.Inference.Sharpen
import TypeInference.Proofs.Inference.Parts
import TypeInference.Proofs.Inference.Companion
import TypeInference.Proofs.Inference.Statement
import TypeInference.Proofs.Inference.EchoNaming
import TypeInference.Proofs.Inference.Indexing
import TypeInference.Proofs.Inference.Program
import TypeInference.Proofs.Inference.Echo
import TypeInference.Proofs.Inference.EchoStatement
import TypeInference.Proofs.Session.Analysis
import TypeInference.Proofs.Session.Reachable
import TypeInference.Proofs.Session.Course
import TypeInference.Proofs.Session.Lexical
import TypeInference.Proofs.Session.Past
import TypeInference.Proofs.Session.Polymorphism
import TypeInference.Proofs.Session.Typing
import TypeInference.Proofs.Session.Joint
import TypeInference.Proofs.Session.Mentions
import TypeInference.Proofs.Session.Parameters
import TypeInference.Proofs.Session.Redeclaration
import TypeInference.Proofs.Session.Scoping
import TypeInference.Proofs.Session.Visits
import TypeInference.Proofs.Session.Append
import TypeInference.Proofs.Session.Assignment
import TypeInference.Proofs.Session.Completion
import TypeInference.Proofs.Session.Nominal
import TypeInference.Proofs.Session.Sharing
import TypeInference.Proofs.Session.Recheck
