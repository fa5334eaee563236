import TypeInference.Proofs.Ty.Change
import TypeInference.Proofs.Ty.Undo

/-!
# `Proofs.Ty.Rollback` — going back is exact, and a commit is final

On an excursion from a store, changes are made, snapshots are taken, and it is gone back to snapshots that are still
alive. Going back to a snapshot gives up those that have been taken after it: their lengths may be reached again by
other nodes and other bindings. The snapshots that are alive are therefore a stack, and it is kept here by the
stores of which they were taken.

Each store of the stack has only accrued nodes and bindings since (`Excursion.accrues`), so going back to its
snapshot gives just this store again. Nothing is asked of the stores, nor of the numbers that the changes are given,
as long as each change comes to an end; on a store without dangling numbers and cycles it does.

After a commit no snapshot need be alive. A variable that was bound by then is on no trail from now on, and lies
below every snapshot, so nothing ever unbinds or drops it.

## Contents
* `Excursion`, `Excursion.accrues` — what happens between a snapshot and the return to it;
* `Committed`, `Permanent` — what happens after a commit, and a binding that stays;
* `rollback_exact` — both statements.
-/

namespace TypeInference

namespace Store

variable {origin s s' : Store} {marks : List Store}

/-- What has accrued goes back, for the trail names just the variables to be unbound. -/
theorem Accrues.rollback_eq (h : Accrues s s') : s'.rollback s.snapshot = .ok s := by
  obtain ⟨since, htrail, hbound, hsince⟩ := h.trail
  refine rollback_eq_of_trail htrail (fun v hv => ?_) hsince h.kept
  obtain ⟨target, hget⟩ := hbound v hv
  exact ⟨some target, hget⟩

/-! ## Excursions -/

/-- An excursion from `origin` has come to `s`. The snapshots that are alive are those of `marks`, the newest
    first; the last is the snapshot of `origin`. -/
inductive Excursion (origin : Store) : Store → List Store → Prop
  | start : Excursion origin origin [origin]
  | change {s s' : Store} {marks : List Store} {change : Change} :
      Excursion origin s marks → change.run s = .ok s' → Excursion origin s' marks
  | mark {s : Store} {marks : List Store} : Excursion origin s marks → Excursion origin s (s :: marks)
  /-- It is gone back to the snapshot of `m`, which stays alive; newer ones are given up. -/
  | back {s s' m : Store} {newer older : List Store} :
      Excursion origin s (newer ++ m :: older) → s.rollback m.snapshot = .ok s' → Excursion origin s' (m :: older)

namespace Excursion

/-- The first snapshot is never given up. -/
theorem origin_mem (h : Excursion origin s marks) : origin ∈ marks := by
  suffices hlast : marks.getLast? = some origin from List.mem_of_getLast? hlast
  induction h with
  | start => rfl
  | change _ _ ih => exact ih
  | mark _ ih => rw [List.getLast?_cons, ih, Option.getD_some]
  | back _ _ ih => rwa [List.getLast?_append_cons] at ih

/-- **Each live snapshot's store has only accrued since**, first up to the next one, and then up to the present. By
    induction on the excursion; a return makes the store of the snapshot the present one. -/
theorem accrues (h : Excursion origin s marks) :
    (s :: marks).Pairwise fun later earlier => Accrues earlier later := by
  induction h with
  | start => exact List.pairwise_pair.mpr (.refl origin)
  | change _ hrun ih =>
    obtain ⟨hnow, hmarks⟩ := List.pairwise_cons.mp ih
    exact List.pairwise_cons.mpr ⟨fun m hm => (hnow m hm).trans (Change.accrues hrun), hmarks⟩
  | @mark s _ _ ih =>
    refine List.pairwise_cons.mpr ⟨fun m hm => ?_, ih⟩
    rcases List.mem_cons.mp hm with rfl | hm
    · exact .refl m
    · exact (List.pairwise_cons.mp ih).1 m hm
  | @back s s' m newer older _ hback ih =>
    obtain ⟨hnow, hmarks⟩ := List.pairwise_cons.mp ih
    -- The store is the one of the snapshot again.
    have hm : s.rollback m.snapshot = .ok m :=
      (hnow m (List.mem_append_right _ List.mem_cons_self)).rollback_eq
    obtain rfl : m = s' := Except.ok.inj (hm.symm.trans hback)
    obtain ⟨-, hrest, -⟩ := List.pairwise_append.mp hmarks
    refine List.pairwise_cons.mpr ⟨fun m' hm' => ?_, hrest⟩
    rcases List.mem_cons.mp hm' with rfl | hm'
    · exact .refl m'
    · exact (List.pairwise_cons.mp hrest).1 m' hm'

/-- **It can be gone back** to every live snapshot, and this gives its store. -/
theorem rollback_eq (h : Excursion origin s marks) {m : Store} (hm : m ∈ marks) :
    s.rollback m.snapshot = .ok m :=
  ((List.pairwise_cons.mp h.accrues).1 m hm).rollback_eq

end Excursion

/-! ## After a commit -/

/-- After `origin` has been committed, `s` has been reached, and `snaps` are all the snapshots taken since, alive or
    not. -/
inductive Committed (origin : Store) : Store → List Snapshot → Prop
  | commit : Committed origin origin.commit []
  | change {s s' : Store} {snaps : List Snapshot} {change : Change} :
      Committed origin s snaps → change.run s = .ok s' → Committed origin s' snaps
  | mark {s : Store} {snaps : List Snapshot} : Committed origin s snaps → Committed origin s (s.snapshot :: snaps)
  | back {s s' : Store} {snaps : List Snapshot} {snap : Snapshot} :
      Committed origin s snaps → snap ∈ snaps → s.rollback snap = .ok s' → Committed origin s' snaps
  | again {s : Store} {snaps : List Snapshot} : Committed origin s snaps → Committed origin s.commit snaps

/-- The variable is bound to the target, and nothing that can be gone back to lets it go: it is on no trail, and
    below every snapshot. -/
structure Permanent (v target : TypeId) (s : Store) (snaps : List Snapshot) : Prop where
  bound : s.get v = .ok (.var (some target))
  untracked : v ∉ s.trail
  below : ∀ snap ∈ snaps, v.index < snap.size

/-- Unbinding variables leaves the other nodes alone, whatever those variables were. -/
theorem getElem?_of_foldlM_unbind {v : TypeId} : ∀ {vars : List TypeId} {nodes nodes' : Array Node},
    vars.foldlM unbind nodes = .ok nodes' → v ∉ vars → nodes'[v.index]? = nodes[v.index]? := by
  intro vars
  induction vars with
  | nil => intro nodes nodes' h _; cases h; rfl
  | cons u vars ih =>
    intro nodes nodes' h hv
    rw [List.foldlM_cons] at h
    obtain ⟨nodes₁, hone, hrest⟩ := exists_of_bind_eq_ok h
    rw [ih hrest fun hmem => hv (List.mem_cons_of_mem _ hmem)]
    have hindex : u.index ≠ v.index := by
      intro he
      obtain rfl : u = v := by cases u; cases v; exact congrArg TypeId.mk he
      exact hv List.mem_cons_self
    unfold unbind at hone
    split at hone
    · cases hone
      simp [hindex]
    · cases hone
      rfl
    · cases hone

namespace Permanent

variable {v target : TypeId} {snaps : List Snapshot}

/-- A change binds no variable that is bound, so the variable comes on no trail. -/
theorem accrues (h : Permanent v target s snaps) (hs : s.Accrues s') : Permanent v target s' snaps where
  bound := hs.kept h.bound (by simp)
  untracked := by
    obtain ⟨since, htrail, -, hsince⟩ := hs.trail
    have hbound : ¬ s.IsUnbound v := fun hv => by cases hv.symm.trans h.bound
    rw [htrail, List.mem_append, hsince v (lt_of_get h.bound)]
    exact not_or.mpr ⟨fun hv => hbound hv.1, h.untracked⟩
  below := h.below

/-- Going back unbinds variables of the trail, and drops nodes above the snapshot; neither touches this one. -/
theorem rollback {snap : Snapshot} (h : Permanent v target s snaps) (hsnap : snap ∈ snaps)
    (hback : s.rollback snap = .ok s') : Permanent v target s' snaps := by
  unfold Store.rollback at hback
  split at hback
  · cases hback
  · obtain ⟨nodes, hfold, hback⟩ := exists_of_bind_eq_ok hback
    cases hback
    refine ⟨get_eq_ok_iff.mpr ?_, fun hmem => h.untracked (List.mem_of_mem_drop hmem), h.below⟩
    have hunbind := getElem?_of_foldlM_unbind hfold fun hmem => h.untracked (List.mem_of_mem_take hmem)
    show (nodes.take snap.size)[v.index]? = _
    rw [getElem?_take, if_pos (h.below snap hsnap), hunbind, get_eq_ok_iff.mp h.bound]

end Permanent

/-- **A binding that has been committed stays.** By induction on what has happened since, where every return is to a
    snapshot taken after the commit. -/
theorem Committed.permanent {snaps : List Snapshot} (h : Committed origin s snaps) {v target : TypeId}
    (hv : origin.get v = .ok (.var (some target))) : Permanent v target s snaps := by
  induction h with
  | commit => exact ⟨hv, by simp, by simp⟩
  | change _ hrun ih => exact ih.accrues (Change.accrues hrun)
  | mark _ ih =>
    refine ⟨ih.bound, ih.untracked, fun snap hsnap => ?_⟩
    rcases List.mem_cons.mp hsnap with rfl | hsnap
    · exact lt_of_get ih.bound
    · exact ih.below snap hsnap
  | back _ hsnap hback ih => exact ih.rollback hsnap hback
  | again _ ih => exact ⟨ih.bound, by simp, ih.below⟩

/-! ## Both together -/

/-- **Going back is exact.** Wherever an excursion has come to, it can be gone back to the store in which it began, and
    to that of every snapshot that is alive; the store is what it was, with its nodes, its bindings and its trail,
    and the excursion may go on. No change that is given types of a grounded store holds it up. What has been bound
    before a commit is never unbound, however much is gone back to snapshots that have been taken after it. -/
theorem rollback_exact (origin : Store) :
    (∀ s marks, Excursion origin s marks →
      s.rollback origin.snapshot = .ok origin ∧ (∀ m ∈ marks, s.rollback m.snapshot = .ok m) ∧
        (s.Grounded → ∀ change : Change, change.Inside s →
          ∃ s', change.run s = .ok s' ∧ s'.Grounded ∧ Excursion origin s' marks)) ∧
    ∀ s snaps, Committed origin s snaps → ∀ v target, origin.get v = .ok (.var (some target)) →
      s.get v = .ok (.var (some target)) := by
  refine ⟨fun s marks h => ⟨h.rollback_eq h.origin_mem, fun _ => h.rollback_eq, fun hs change hinside => ?_⟩,
    fun s snaps h v target hv => (h.permanent hv).bound⟩
  obtain ⟨s', hrun, hs'⟩ := hs.exists_run hinside
  exact ⟨s', hrun, hs', h.change hrun⟩

/-- Two maps that clash after their keys, and a variable that is bound to another. -/
def scratch : Store where
  nodes := initial.nodes ++
    #[.var none, .var none, .op .map [⟨4⟩, .number], .op .map [.string, .bool], .var (some ⟨5⟩)]
  trail := [⟨8⟩]

/-- The store after the clash: the key of the first map is bound. -/
def scratchClashed : Store where
  nodes := scratch.nodes.setIfInBounds 4 (.var (some .string))
  trail := [⟨4⟩, ⟨8⟩]

/-- The store after an old variable has been bound to a new one. -/
def scratchLent : Store where
  nodes := (scratchClashed.nodes.setIfInBounds 5 (.var (some ⟨9⟩))).push (.var none)
  trail := [⟨5⟩, ⟨4⟩, ⟨8⟩]

/-- An old variable is bound to a new one twice, with a return in between, and all of it after a clash. It can be gone
    back to the clash or to the beginning, and after the clash there can be another change. Had the store been committed
    first, the bound variable would stay bound when the clash is gone back. -/
theorem rollback_exact_scratch :
    Excursion scratch scratchLent [scratchClashed, scratch] ∧
      scratchLent.rollback scratchClashed.snapshot = .ok scratchClashed ∧
      scratchLent.rollback scratch.snapshot = .ok scratch ∧
      (∃ s', (Change.unify ⟨5⟩ ⟨6⟩).run scratchClashed = .ok s' ∧ Excursion scratch s' [scratchClashed, scratch]) ∧
      ∃ s snaps, Committed scratch s snaps ∧ snaps ≠ [] ∧ s.get ⟨8⟩ = .ok (.var (some ⟨5⟩)) := by
  have hclash : (Change.unify ⟨6⟩ ⟨7⟩).run scratch = .ok scratchClashed := by decide
  have hnew : Change.newVar.run scratchClashed = .ok scratchClashed.newVar.2 := rfl
  have hlend : (Change.unify ⟨5⟩ ⟨9⟩).run scratchClashed.newVar.2 = .ok scratchLent := by decide
  have hmarked : Excursion scratch scratchClashed [scratchClashed, scratch] := .mark (.change .start hclash)
  have hlent : Excursion scratch scratchLent [scratchClashed, scratch] :=
    .change (.change hmarked hnew) hlend
  have hreturned : Excursion scratch scratchClashed [scratchClashed, scratch] :=
    @Excursion.back _ _ _ _ [] _ hlent (by decide)
  have hagain : Excursion scratch scratchLent [scratchClashed, scratch] :=
    .change (.change hreturned hnew) hlend
  have hclashCommitted : (Change.unify ⟨6⟩ ⟨7⟩).run scratch.commit = .ok ⟨scratchClashed.nodes, [⟨4⟩]⟩ := by decide
  have hcommitted : Committed scratch scratch.commit [scratch.commit.snapshot] :=
    .back (.change (.mark .commit) hclashCommitted) List.mem_cons_self (by decide)
  have hgrounded : scratchClashed.Grounded := grounded_of_descending (by decide)
  have hinside : (Change.unify ⟨5⟩ ⟨6⟩).Inside scratchClashed := ⟨by decide, by decide⟩
  obtain ⟨hback, hmarks, -⟩ := (rollback_exact scratch).1 _ _ hagain
  obtain ⟨s', hnext, -, hexcursion⟩ := ((rollback_exact scratch).1 _ _ hreturned).2.2 hgrounded _ hinside
  exact ⟨hagain, hmarks _ List.mem_cons_self, hback, ⟨s', hnext, hexcursion⟩, _, _, hcommitted, List.cons_ne_nil _ _,
    (rollback_exact scratch).2 _ _ hcommitted _ _ rfl⟩

end Store

end TypeInference
