import TypeInference.Ty.Store

/-!
# `Ty.Snapshot` — going back to an earlier store

A snapshot notes how long the row of nodes and the trail were. Going back unbinds the variables that were
bound since, the newest first, and then drops the nodes that were added since. A snapshot can be used again
for as long as the trail has not become shorter than it was. Dropping the trail makes the bindings made so
far permanent.

## Contents
* `Snapshot`, `Store.snapshot` — the note, and how it is taken;
* `Store.rollback` — going back;
* `Store.commit` — making the bindings permanent.
-/

namespace TypeInference

/-! ## Going back -/

/-- The lengths of the row of nodes and of the trail at some time. Lengths are enough to go back by: nodes are only
    added at the end, and the trail knows which variables have been bound since. -/
structure Snapshot where
  size : Nat
  trail : Nat
  deriving DecidableEq, Repr

namespace Store

/-- Notes the present lengths, of the nodes and of the trail, to go back to. -/
def snapshot (s : Store) : Snapshot := ⟨s.size, s.trail.length⟩

/-- The nodes after the variable `id` has been unbound; a node that is no variable stays as it is. What the variable
    was bound to need not be known. -/
def unbind (nodes : Array Node) (id : TypeId) : Except Fault (Array Node) :=
  match nodes[id.index]? with
  | some (.var _) => .ok (nodes.setIfInBounds id.index (.var none))
  | some (.op _ _) => .ok nodes
  | none => .error (.danglingType id)

/-- Undoes the bindings and the additions made since a snapshot. The trail must not have become shorter than it was
    then: a snapshot from before a commit, or from a store that went back further, is refused as misuse. -/
def rollback (snap : Snapshot) (s : Store) : Except Fault Store := do
  if s.trail.length < snap.trail then
    throw (.shortTrail snap.trail s.trail.length)
  let since := s.trail.length - snap.trail
  let nodes ← (s.trail.take since).foldlM unbind s.nodes
  pure { nodes := nodes.take snap.size, trail := s.trail.drop since }

/-! ## Staying -/

/-- Makes the bindings so far permanent. Only the trail is dropped, so no type changes; but no later `rollback` can
    unbind a variable that was bound before. -/
def commit (s : Store) : Store := { s with trail := [] }

@[simp] theorem trail_commit (s : Store) : s.commit.trail = [] := rfl

end Store

end TypeInference
