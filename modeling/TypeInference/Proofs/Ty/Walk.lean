import TypeInference.Proofs.Ty.Shape
import TypeInference.Ty.Display

/-!
# `Proofs.Ty.Walk` — walks through a grounded store come to an end

Every question of `Ty.View` and `Ty.Display` is a bounded walk. Each bound is larger than any rank, and the
rank falls with every step, so on a grounded store no walk stops early, and none meets a number outside
the store. What a walk answers is said here without bounds: `view` answers what a type shows, `occurs`
whether there is a path to the variable.

## Contents
* lists of questions (`allM`, `anyM`, `mapM`) that all have answers;
* `rootWithin_eq_ok`, `Grounded.view_eq_ok_iff`, `Grounded.exists_view` — what a type stands for;
* `occurs_eq_ok`, `isPinned_eq_ok` — occurrence is reachability;
* `exists_display` — every type has a text.
-/

namespace TypeInference

open Relation

/-! ## Answers in sequence -/

@[simp] theorem ok_bind {ε α β : Type} (a : α) (next : α → Except ε β) :
    (Except.ok a >>= next) = next a := rfl

@[simp] theorem error_bind {ε α β : Type} (e : ε) (next : α → Except ε β) :
    (Except.error e >>= next) = .error e := rfl

@[simp] theorem pure_eq_ok {ε α : Type} (a : α) : (pure a : Except ε α) = .ok a := rfl

/-- An answer in sequence comes from answers to all its parts. It is used where the answer is given; where it has to
    be found, the simp lemmas above compute it. -/
theorem exists_of_bind_eq_ok {ε α β : Type} {x : Except ε α} {next : α → Except ε β} {b : β}
    (h : (x >>= next) = .ok b) : ∃ a, x = .ok a ∧ next a = .ok b := by
  cases x with
  | ok a => exact ⟨a, rfl, h⟩
  | error e => cases h

/-- An answer that has been mapped comes from an answer to the question before. -/
theorem exists_of_map_eq_ok {ε α β : Type} {x : Except ε α} {f : α → β} {b : β} (h : f <$> x = .ok b) :
    ∃ a, x = .ok a ∧ f a = b := by
  cases x with
  | ok a => exact ⟨a, rfl, Except.ok.inj h⟩
  | error e => cases h

/-! ## Lists of questions -/

/-- When every question of a list has an answer, so has the list. -/
theorem List.exists_mapM_eq_ok {α β : Type} {f : α → Except Fault β} {xs : List α}
    (h : ∀ x ∈ xs, ∃ y, f x = .ok y) : ∃ ys, xs.mapM f = .ok ys := by
  induction xs with
  | nil => exact ⟨[], rfl⟩
  | cons x xs ih =>
    obtain ⟨y, hy⟩ := h x List.mem_cons_self
    obtain ⟨ys, hys⟩ := ih fun z hz => h z (List.mem_cons_of_mem _ hz)
    exact ⟨y :: ys, by simp [hy, hys]⟩

/-- When every question of a list has an answer that decides `P`, the list has one that decides whether `P` holds of
    some member, although the walk stops at the first such member. -/
theorem List.exists_anyM_eq_ok {α : Type} {f : α → Except Fault Bool} {P : α → Prop} {xs : List α}
    (h : ∀ x ∈ xs, ∃ b, f x = .ok b ∧ (b = true ↔ P x)) :
    ∃ b, xs.anyM f = .ok b ∧ (b = true ↔ ∃ x ∈ xs, P x) := by
  induction xs with
  | nil => exact ⟨false, rfl, by simp⟩
  | cons x xs ih =>
    obtain ⟨b, hb, hP⟩ := h x List.mem_cons_self
    obtain ⟨bs, hbs, hPs⟩ := ih fun z hz => h z (List.mem_cons_of_mem _ hz)
    cases b with
    | true => exact ⟨true, by simp [List.anyM, hb], by simp [hP.mp rfl]⟩
    | false =>
      have hx : ¬ P x := fun hx => Bool.false_ne_true (hP.mpr hx)
      exact ⟨bs, by simp [List.anyM, hb, hbs], by simp [hPs, hx]⟩

/-- All answers are positive if no answer to the contrary question is, so this follows from the lemma above it. -/
theorem List.exists_allM_eq_ok {α : Type} {f : α → Except Fault Bool} {P : α → Prop} {xs : List α}
    (h : ∀ x ∈ xs, ∃ b, f x = .ok b ∧ (b = true ↔ P x)) :
    ∃ b, xs.allM f = .ok b ∧ (b = true ↔ ∀ x ∈ xs, P x) := by
  have hnot : ∀ x ∈ xs, ∃ b, (!·) <$> f x = .ok b ∧ (b = true ↔ ¬ P x) := fun x hx => by
    obtain ⟨b, hb, hP⟩ := h x hx
    exact ⟨!b, by rw [hb, Except.map_ok], by rw [← hP, Bool.not_eq_true', Bool.not_eq_true]⟩
  obtain ⟨b, hany, hiff⟩ := List.exists_anyM_eq_ok hnot
  refine ⟨!b, by rw [List.allM_eq_not_anyM_not, hany, Except.map_ok], ?_⟩
  rw [Bool.not_eq_true', ← Bool.not_eq_true, hiff]
  push Not
  rfl

namespace Store

variable {s : Store}

/-! ## Following bindings -/

/-- The walk along bindings ends at the node that is shown. By induction on the fuel: a binding is an arrow, so the
    rank falls with it and stays below the fuel that is left. -/
theorem rootWithin_eq_ok (h : s.Grounded) {rank : TypeId → Nat} (hrank : s.IsRank rank) :
    ∀ {fuel : Nat} {a : TypeId}, a.index < s.size → rank a < fuel →
      ∃ v, s.Shows a v ∧ s.rootWithin fuel a = .ok v.id := by
  -- The rank falls with every binding, so it stays below the fuel.
  intro fuel
  induction fuel with
  | zero => intro a _ hfuel; exact absurd hfuel (Nat.not_lt_zero _)
  | succ fuel ih =>
    intro a ha hfuel
    obtain ⟨node, hget⟩ := exists_get_iff.mpr ha
    match node, hget with
    | .op con args, hget =>
      exact ⟨_, .op hget, by simp [rootWithin, binding?, hget, View.id]⟩
    | .var none, hget =>
      exact ⟨_, .var hget, by simp [rootWithin, binding?, hget, View.id]⟩
    | .var (some b), hget =>
      have hab := refers_of_bound hget
      obtain ⟨v, hv, hroot⟩ := ih (h.inRange hab) (by have := hrank hab; omega)
      exact ⟨v, .bound hget hv, by
        simp [rootWithin, binding?, hget, hroot]⟩

/-- Every type of a grounded store shows something, and `root` finds where: the size, with which the walk starts, is
    above every rank. -/
theorem Grounded.exists_shows (h : s.Grounded) {a : TypeId} (ha : a.index < s.size) :
    ∃ v, s.Shows a v ∧ s.root a = .ok v.id := by
  obtain ⟨rank, hrank, hle⟩ := h.exists_rank
  exact rootWithin_eq_ok h hrank ha (by have := hle a; simp only [walkBound]; omega)

/-- What shows something lies in the store, since its node has been looked up. -/
theorem Shows.lt {a : TypeId} {v : View} (hv : s.Shows a v) : a.index < s.size := by
  cases hv with
  | var hget | op hget | bound hget _ => exact lt_of_get hget

/-! ## Views -/

/-- What is shown is what the view of the type is: the walk ends at the node shown, and there the node is read off. -/
theorem Shows.view_eq (h : s.Grounded) {a : TypeId} {v : View} (hv : s.Shows a v) : s.view a = .ok v := by
  obtain ⟨w, hw, hroot⟩ := h.exists_shows hv.lt
  obtain rfl := hv.unique hw
  cases v with
  | var x =>
    have hx : s.get x = .ok (.var none) := hv.isUnbound
    simp [view, hroot, View.id, hx]
  | op r con args =>
    have hr := hv.get_op
    simp [view, hroot, View.id, hr]

/-- **The view of a type is what it shows.** From here on, proofs speak of `Shows` and leave walks and their bounds
    alone. -/
theorem Grounded.view_eq_ok_iff (h : s.Grounded) {a : TypeId} (ha : a.index < s.size) {v : View} :
    s.view a = .ok v ↔ s.Shows a v := by
  constructor
  · intro hv
    obtain ⟨w, hw, _⟩ := h.exists_shows ha
    rw [hw.view_eq h] at hv
    cases hv
    exact hw
  · exact fun hv => hv.view_eq h

/-- Every type inside a grounded store has a view. -/
theorem Grounded.exists_view (h : s.Grounded) {a : TypeId} (ha : a.index < s.size) :
    ∃ v, s.Shows a v ∧ s.view a = .ok v := by
  obtain ⟨v, hv, _⟩ := h.exists_shows ha
  exact ⟨v, hv, hv.view_eq h⟩

/-! ## Components of what is shown -/

/-- A component of what is shown is below the type in every rank, and inside the store. This is the measure of all
    recursions over types in the proofs. -/
theorem Shows.rank_arg_lt {rank : TypeId → Nat} (hrank : s.IsRank rank) {a r arg : TypeId}
    {con : Constructor} {args : List TypeId} (hv : s.Shows a (.op r con args)) (harg : arg ∈ args) :
    rank arg < rank a :=
  (hrank (refers_of_op hv.get_op harg)).trans_le (hrank.le_of_reaches hv.reaches)

theorem Shows.arg_lt (h : s.Grounded) {a r arg : TypeId} {con : Constructor} {args : List TypeId}
    (hv : s.Shows a (.op r con args)) (harg : arg ∈ args) : arg.index < s.size :=
  h.inRange (refers_of_op hv.get_op harg)

theorem Shows.reaches_arg {a r arg : TypeId} {con : Constructor} {args : List TypeId}
    (hv : s.Shows a (.op r con args)) (harg : arg ∈ args) : s.Reaches a arg :=
  hv.reaches.tail (refers_of_op hv.get_op harg)

/-- A path from a type to an unbound variable goes through the node that the type shows: bindings leave no choice of
    way, and an unbound variable cannot lie before their end. -/
theorem Shows.reaches_of_reaches {a : TypeId} {v : View} (hv : s.Shows a v) {x : TypeId} (hx : s.IsUnbound x)
    (hr : s.Reaches a x) : s.Reaches v.id x := by
  induction hv with
  | var _ | op _ => exact hr
  | bound hget _ ih =>
    -- The binding is the only arrow that leaves a bound variable.
    rcases hr.cases_head with rfl | ⟨c, ⟨node, hnode, hc⟩, hcx⟩
    · cases hget.symm.trans hx
    · cases hget.symm.trans hnode
      obtain rfl : c = _ := by simpa [Node.refs] using hc
      exact ih hcx

/-- The unbound variables below a constructor are those below its components, which is what the occurs check
    descends by. -/
theorem Shows.reaches_op_iff {a r : TypeId} {con : Constructor} {args : List TypeId}
    (hv : s.Shows a (.op r con args)) {x : TypeId} (hx : s.IsUnbound x) :
    s.Reaches a x ↔ ∃ arg ∈ args, s.Reaches arg x := by
  constructor
  · intro hr
    rcases (hv.reaches_of_reaches hx hr).cases_head with rfl | ⟨c, ⟨node, hnode, hc⟩, hcx⟩
    · cases hv.get_op.symm.trans hx
    · cases hv.get_op.symm.trans hnode
      exact ⟨c, hc, hcx⟩
  · rintro ⟨arg, harg, hr⟩
    exact (hv.reaches_arg harg).trans hr

/-! ## Occurrence -/

/-- The occurs check, with fuel above the rank, answers whether there is a path to the variable. By induction on the
    fuel, with one case for a variable and one for a constructor, where the components are asked in turn. -/
theorem occursWithin_eq_ok (h : s.Grounded) {rank : TypeId → Nat} (hrank : s.IsRank rank) {x : TypeId}
    (hx : s.IsUnbound x) :
    ∀ {fuel : Nat} {a : TypeId}, a.index < s.size → rank a < fuel →
      ∃ b, s.occursWithin x fuel a = .ok b ∧ (b = true ↔ s.Reaches a x) := by
  intro fuel
  induction fuel with
  | zero => intro a _ hfuel; exact absurd hfuel (Nat.not_lt_zero _)
  | succ fuel ih =>
    intro a ha hfuel
    obtain ⟨v, hv, hview⟩ := h.exists_view ha
    cases v with
    | var y =>
      refine ⟨decide (y = x), by simp [occursWithin, hview], ?_⟩
      rw [decide_eq_true_iff]
      constructor
      · rintro rfl; exact hv.reaches
      · intro hr
        exact (eq_of_reaches_unbound hv.isUnbound (hv.reaches_of_reaches hx hr)).symm
    | op r con args =>
      obtain ⟨b, hb, hiff⟩ := List.exists_anyM_eq_ok (f := s.occursWithin x fuel) fun arg harg =>
        ih (hv.arg_lt h harg) (by have := hv.rank_arg_lt hrank harg; omega)
      exact ⟨b, by simp [occursWithin, hview, hb], by rw [hiff, hv.reaches_op_iff hx]⟩

/-- **Occurrence is reachability.** The answer is always given, and it is positive exactly when binding `x` to `a`
    would close a cycle. -/
theorem Grounded.occurs_eq_ok (h : s.Grounded) {x a : TypeId} (hx : s.IsUnbound x) (ha : a.index < s.size) :
    ∃ b, s.occurs x a = .ok b ∧ (b = true ↔ s.Reaches a x) := by
  obtain ⟨rank, hrank, hle⟩ := h.exists_rank
  exact occursWithin_eq_ok h hrank hx ha (by have := hle a; simp only [walkBound]; omega)

/-- A variable is pinned exactly when a pinned type reaches it. `instantiate` copies the variables that are not. -/
theorem Grounded.isPinned_eq_ok (h : s.Grounded) {x : TypeId} {pinned : List TypeId} (hx : s.IsUnbound x)
    (hp : ∀ p ∈ pinned, p.index < s.size) :
    ∃ b, s.isPinned pinned x = .ok b ∧ (b = true ↔ ∃ p ∈ pinned, s.Reaches p x) :=
  List.exists_anyM_eq_ok fun p hmem => h.occurs_eq_ok hx (hp p hmem)

/-! ## Questions about the view -/

theorem Grounded.operator?_eq_ok (h : s.Grounded) {a : TypeId} (ha : a.index < s.size) :
    ∃ v, s.Shows a v ∧ s.operator? a = .ok v.operator? := by
  obtain ⟨v, hv, hview⟩ := h.exists_view ha
  exact ⟨v, hv, by simp [operator?, hview]⟩

theorem Shows.operator?_eq (h : s.Grounded) {a r : TypeId} {con : Constructor} {args : List TypeId}
    (hv : s.Shows a (.op r con args)) : s.operator? a = .ok (some (con, args)) := by
  rw [operator?, hv.view_eq h, Except.map_ok, View.operator?]

theorem Grounded.hasConstructor_eq_ok (h : s.Grounded) {a : TypeId} (ha : a.index < s.size)
    (con : Constructor) :
    ∃ b, s.hasConstructor con a = .ok b ∧ (b = true ↔ ∃ r args, s.Shows a (.op r con args)) := by
  obtain ⟨v, hv, hview⟩ := h.exists_view ha
  cases v with
  | var x =>
    refine ⟨false, by simp [hasConstructor, hview], ?_⟩
    simp only [Bool.false_eq_true, false_iff, not_exists]
    intro r args hop
    cases hv.unique hop
  | op r found args =>
    refine ⟨decide (con = found), by
      simp [hasConstructor, hview, eq_comm], ?_⟩
    rw [decide_eq_true_iff]
    constructor
    · rintro rfl; exact ⟨r, args, hv⟩
    · rintro ⟨r', args', hop⟩
      cases hv.unique hop
      rfl

/-! ## Texts -/

/-- The text of a type is found within fuel above its rank; the components of a constructor, whatever the text
    around them, have smaller ranks. -/
theorem exists_displayWithin (h : s.Grounded) {rank : TypeId → Nat} (hrank : s.IsRank rank) :
    ∀ {fuel : Nat} {a : TypeId}, a.index < s.size → rank a < fuel →
      ∃ text, s.displayWithin fuel a = .ok text := by
  intro fuel
  induction fuel with
  | zero => intro a _ hfuel; exact absurd hfuel (Nat.not_lt_zero _)
  | succ fuel ih =>
    intro a ha hfuel
    obtain ⟨v, hv, hview⟩ := h.exists_view ha
    cases v with
    | var y => exact ⟨_, by simp [displayWithin, hview]; rfl⟩
    | op r con args =>
      -- A text shows some of the components, and these are below the type.
      have hshown : ∀ arg ∈ con.shown args, arg ∈ args := by
        intro arg harg
        unfold Constructor.shown at harg
        split at harg
        · exact harg
        · cases harg
        · exact harg
      obtain ⟨texts, htexts⟩ := List.exists_mapM_eq_ok (f := s.displayWithin fuel) fun arg harg =>
        ih (hv.arg_lt h (hshown arg harg)) (by have := hv.rank_arg_lt hrank (hshown arg harg); omega)
      exact ⟨con.display texts, by
        simp [displayWithin, hview, htexts]⟩

/-- Every type of a grounded store has a text, so no message ever fails for want of one. -/
theorem Grounded.exists_display (h : s.Grounded) {a : TypeId} (ha : a.index < s.size) :
    ∃ text, s.display a = .ok text := by
  obtain ⟨rank, hrank, hle⟩ := h.exists_rank
  exact exists_displayWithin h hrank ha (by have := hle a; simp only [walkBound]; omega)

end Store

end TypeInference
