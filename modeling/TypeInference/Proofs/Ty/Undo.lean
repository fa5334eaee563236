import TypeInference.Proofs.Ty.Evolution
import TypeInference.Ty.Snapshot

/-!
# `Proofs.Ty.Undo` — going back undoes every evolution, and a commit changes no type

A snapshot keeps two lengths only. That is enough: what has evolved from a store differs from it by the
variables at the front of the trail and by the nodes at the end, and `rollback` unbinds the former and drops
the latter. A commit drops the trail and nothing else.
-/

namespace TypeInference

namespace Store

variable {s s' : Store} {hidden : Set TypeId}

/-! ## Unbinding along the trail -/

/-- A prefix of an array holds what the array holds, up to its end. -/
theorem getElem?_take {α : Type} (xs : Array α) (n i : Nat) :
    (xs.take n)[i]? = if i < n then xs[i]? else none := by
  simp only [Array.take_eq_extract, Array.getElem?_extract, Nat.sub_zero, Nat.zero_add]
  split <;> split <;> first | rfl | omega | (rw [eq_comm, Array.getElem?_eq_none_iff]; omega)

/-- Unbinding variables one after another leaves exactly them unbound. By induction on the list; unbinding one
    variable leaves every other node as it was. -/
theorem foldlM_unbind {vars : List TypeId} : ∀ {nodes : Array Node},
    (∀ v ∈ vars, ∃ binding, nodes[v.index]? = some (.var binding)) →
      ∃ nodes', vars.foldlM unbind nodes = .ok nodes' ∧
        ∀ id : TypeId, nodes'[id.index]? = if id ∈ vars then some (.var none) else nodes[id.index]? := by
  induction vars with
  | nil => intro nodes _; exact ⟨nodes, rfl, by simp⟩
  | cons v vars ih =>
    intro nodes h
    obtain ⟨binding, hv⟩ := h v List.mem_cons_self
    obtain ⟨hlt, -⟩ := Array.getElem?_eq_some_iff.mp hv
    have hset : ∀ id : TypeId, (nodes.setIfInBounds v.index (.var none))[id.index]? =
        if id = v then some (.var none) else nodes[id.index]? := by
      intro id
      by_cases he : id = v
      · subst he; simp [hlt]
      · have hindex : v.index ≠ id.index := fun hi => he (by cases id; cases v; simp_all)
        simp [hindex, he]
    obtain ⟨nodes', hfold, hnodes'⟩ := @ih (nodes.setIfInBounds v.index (.var none)) fun w hw => by
      rw [hset]
      split
      · exact ⟨none, rfl⟩
      · exact h w (List.mem_cons_of_mem _ hw)
    refine ⟨nodes', by simp [unbind, hv, hfold], fun id => ?_⟩
    rw [hnodes', hset]
    by_cases hmem : id ∈ vars <;> by_cases he : id = v <;> simp [hmem, he]

/-! ## Rollback -/

/-- **Going back to a snapshot** gives the store of which it was taken, if every node that was not an unbound
    variable is still there, and the trail has grown by variables, among them just those of the store that have been
    bound. The nodes added since are dropped, so it does not matter what they are. -/
theorem rollback_eq_of_trail {since : List TypeId} (htrail : s'.trail = since ++ s.trail)
    (hvars : ∀ v ∈ since, ∃ binding, s'.get v = .ok (.var binding))
    (hsince : ∀ v : TypeId, v.index < s.size → (v ∈ since ↔ s.IsUnbound v ∧ ¬ s'.IsUnbound v))
    (hkept : ∀ {id node}, s.get id = .ok node → node ≠ .var none → s'.get id = .ok node) :
    s'.rollback s.snapshot = .ok s := by
  have hbindings : ∀ v ∈ since, ∃ binding, s'.nodes[v.index]? = some (.var binding) := fun v hv => by
    obtain ⟨binding, hget⟩ := hvars v hv
    exact ⟨binding, get_eq_ok_iff.mp hget⟩
  obtain ⟨nodes, hfold, hnodes⟩ := foldlM_unbind hbindings
  have hlength : s'.trail.length - s.trail.length = since.length := by rw [htrail]; simp
  have hnot : ¬ s'.trail.length < s.trail.length := by rw [htrail]; simp
  -- A node that is listed was unbound, an unbound one that is not listed still is, and others are kept.
  have htake : nodes.take s.size = s.nodes := by
    refine Array.ext_getElem? ?_
    intro i
    rw [getElem?_take]
    by_cases hi : i < s.size
    · obtain ⟨node, hget⟩ := exists_get_iff.mpr (show (TypeId.mk i).index < s.size from hi)
      rw [if_pos hi, hnodes ⟨i⟩, get_eq_ok_iff.mp hget]
      split
      · next hmem => rw [← get_eq_ok_iff.mp ((hsince ⟨i⟩ hi).mp hmem).1, get_eq_ok_iff.mp hget]
      · next hmem =>
        by_cases hnode : node = .var none
        · subst hnode
          by_contra hnv
          exact hmem ((hsince ⟨i⟩ hi).mpr ⟨hget, fun hv => hnv (get_eq_ok_iff.mp hv)⟩)
        · exact get_eq_ok_iff.mp (hkept hget hnode)
    · rw [if_neg hi, eq_comm, Array.getElem?_eq_none_iff]
      exact Nat.le_of_not_lt hi
  have hdrop : s'.trail.drop since.length = s.trail := by rw [htrail, List.drop_left]
  have hfront : s'.trail.take since.length = since := by rw [htrail, List.take_left]
  simp [rollback, snapshot, hnot, hlength, hfront, hfold, htake, hdrop]

/-- **What has evolved goes back** to what it was, whatever has become of it. The two lengths in the snapshot are
    enough, since evolution only adds at the two ends. -/
theorem Evolves.rollback_eq (h : Evolves hidden s s') : s'.rollback s.snapshot = .ok s := by
  obtain ⟨since, htrail, hsince⟩ := h.trail
  refine rollback_eq_of_trail htrail (fun v hv => ?_) hsince h.kept
  obtain ⟨target, hget⟩ := h.wf.trailBound v (htrail ▸ List.mem_append_left _ hv)
  exact ⟨some target, hget⟩

/-! ## Commit -/

theorem WellFormed.commit (h : s.WellFormed) : s.commit.WellFormed where
  inRange := h.inRange
  acyclic := h.acyclic
  trailBound := by simp
  trailNodup := List.nodup_nil
  primitives := h.primitives
  fits := h.fits

/-- A commit leaves every node alone, so all walks go as before. -/
theorem root_commit (s : Store) (id : TypeId) : s.commit.root id = s.root id := by
  have h : ∀ fuel id, s.commit.rootWithin fuel id = s.rootWithin fuel id := by
    intro fuel
    induction fuel with
    | zero => intro id; rfl
    | succ fuel ih =>
      intro id
      simp only [rootWithin, ih]
      rfl
  exact h _ _

theorem view_commit (s : Store) (id : TypeId) : s.commit.view id = s.view id := by
  simp only [view, root_commit]
  rfl

/-- **A commit changes no tree.** After it the bindings made so far can no longer be undone, but nothing can be seen
    of it in any type. -/
theorem tree_commit (s : Store) : s.commit.tree = s.tree := by
  have h : ∀ fuel, s.commit.treeWithin fuel = s.treeWithin fuel := by
    intro fuel
    induction fuel with
    | zero => rfl
    | succ fuel ih =>
      funext ty
      simp only [treeWithin, view_commit, ih]
  funext ty
  exact congrFun (h _) ty

end Store

end TypeInference
