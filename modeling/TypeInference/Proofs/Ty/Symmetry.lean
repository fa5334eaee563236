import TypeInference.Proofs.Ty.FirstClash

/-!
# `Proofs.Ty.Symmetry` — unification does not tell left from right

If two types are unified from the left and from the right, two variables that meet are bound in opposite directions.
From then on the stores differ, and so does what later components show. But both stores have been given the same
equations, so they have the same readings (`Alike`), and a type of one may be exchanged for a type of the other that
every reading makes equal to it (`Coincide`): it shows a variable as well, or the same constructor around components
that may be exchanged in their turn.

Whether a unification succeeds is decided by the readings alone. For the kind of a clash the two runs are followed
side by side, each pair of components on the left against the same pair on the right, crosswise.

## Contents
* `Store.Alike` — stores with the same readings, and what they show;
* `Clash.isRecursive`, `UnifyM.Concur` — outcomes of one kind;
* `concur_of_solve`, `concur_of_forM`, `concur_of_unifyWithin` — two runs side by side;
* `Grounded.unify_symmetric` — the statement for `unify`.
-/

namespace TypeInference

namespace Store

variable {s s' : Store} {a b r : TypeId} {con : Constructor} {args : List TypeId}

/-! ## Stores that are alike -/

/-- Both stores have as many types and the same readings. They may have different nodes: one may have bound a
    variable to another, and the other store the second to the first. -/
structure Alike (s s' : Store) : Prop where
  left : s.Grounded
  right : s'.Grounded
  size_eq : s'.size = s.size
  reads_iff : ∀ reading, s.Reads reading ↔ s'.Reads reading

namespace Alike

theorem refl (h : s.Grounded) : Alike s s := ⟨h, h, rfl, fun _ => Iff.rfl⟩

theorem symm (h : Alike s s') : Alike s' s :=
  ⟨h.right, h.left, h.size_eq.symm, fun reading => (h.reads_iff reading).symm⟩

theorem coincide (h : Alike s s') (hab : s.Coincide a b) : s'.Coincide a b :=
  fun reading hreads => hab reading ((h.reads_iff reading).mpr hreads)

/-- **A constructor that one store shows** the other shows at every type that coincides, around components that
    coincide. Trees of constructors are equal only around equal components, in every reading. -/
theorem exists_shows_op (h : Alike s s') (hv : s.Shows a (.op r con args)) (hb : b.index < s.size)
    (hab : s.Coincide a b) : ∃ r' args', s'.Shows b (.op r' con args') ∧ List.Forall₂ s.Coincide args args' := by
  have hreads : s.Reads s'.tree := (h.reads_iff _).mpr h.right.reads_tree
  have htree : s'.tree b = .app con (args.map s'.tree) :=
    calc s'.tree b = s'.tree a := (hab _ hreads).symm
      _ = s'.tree r := hreads.shows hv
      _ = _ := hreads.op hv.get_op
  obtain ⟨w, hw, -⟩ := h.right.exists_view (h.size_eq ▸ hb)
  cases w with
  | var y =>
    rw [Shows.tree_var h.right hw] at htree
    cases htree
  | op r' con' args' =>
    rw [Shows.tree_op h.right hw, Tree.app.injEq] at htree
    obtain ⟨rfl, hmap⟩ := htree
    have hlength : args.length = args'.length := by simpa using (congrArg List.length hmap).symm
    refine ⟨r', args', hw, List.forall₂_iff_zip.mpr ⟨hlength, fun {c d} hpair => ?_⟩⟩
    obtain ⟨hc, hd⟩ := List.of_mem_zip hpair
    have htrees : s'.tree c = s'.tree d := (map_eq_map_iff_zip hlength).mp hmap.symm (c, d) hpair
    have hlt : c.index < s'.size := h.size_eq ▸ hv.arg_lt h.left hc
    exact h.symm.coincide ((h.right.coincide_iff hlt (hw.arg_lt h.right hd)).mpr htrees)

/-- **A variable that one store shows**: the other shows a variable at every type that coincides, for a constructor
    would be seen in every reading. -/
theorem exists_shows_var (h : Alike s s') {x : TypeId} (hv : s.Shows a (.var x)) (ha : a.index < s.size)
    (hb : b.index < s.size) (hab : s.Coincide a b) : ∃ y, s'.Shows b (.var y) := by
  obtain ⟨w, hw, -⟩ := h.right.exists_view (h.size_eq ▸ hb)
  cases w with
  | var y => exact ⟨y, hw⟩
  | op r' con args =>
    obtain ⟨r, args', hop, -⟩ := h.symm.exists_shows_op hw (h.size_eq ▸ ha) (h.coincide hab.symm)
    cases hv.unique hop

/-- Both stores answer alike whether two types are the same. -/
theorem exists_same_eq_ok (h : Alike s s') (ha : a.index < s.size) (hb : b.index < s.size) :
    ∃ equal, s.same a b = .ok equal ∧ s'.same a b = .ok equal := by
  obtain ⟨equal, hsame, hiff⟩ := h.left.same_eq_ok ha hb
  have ha' : a.index < s'.size := h.size_eq ▸ ha
  have hb' : b.index < s'.size := h.size_eq ▸ hb
  obtain ⟨equal', hsame', hiff'⟩ := h.right.same_eq_ok ha' hb'
  have htrees : s.tree a = s.tree b ↔ s'.tree a = s'.tree b := by
    rw [← h.left.coincide_iff ha hb, ← h.right.coincide_iff ha' hb']
    exact ⟨h.coincide, h.symm.coincide⟩
  refine ⟨equal, hsame, ?_⟩
  rw [hsame', Bool.eq_iff_iff.mpr (hiff'.trans (htrees.symm.trans hiff.symm))]

end Alike

end Store

/-! ## Kinds of clashes -/

/-- Whether a clash is about a variable that would have to contain itself. The other kind is one between
    constructors. -/
def Clash.isRecursive : Clash → Bool
  | .mismatch _ _ => false
  | .recursive _ _ => true

namespace UnifyM

open Store

variable {s s' : Store} {a b c d : TypeId}

/-! ## Outcomes of one kind -/

/-- Both runs have ended, in stores that are alike, or both have stopped with clashes of one kind. The texts of the
    clashes are left open, as the stores may show different variables. -/
inductive Concur : EStateM.Result (Halt Clash) Store Unit → EStateM.Result (Halt Clash) Store Unit → Prop
  | ok {s s' : Store} : Alike s s' → Concur (.ok () s) (.ok () s')
  | failure {clash clash' : Clash} {s s' : Store} :
      clash.isRecursive = clash'.isRecursive → Concur (.error (.failure clash) s) (.error (.failure clash') s')

/-- **One equation for both stores**: both runs end, or both stop, since whether a run ends is decided by the
    readings. Only the kind of a clash has to be compared. -/
theorem concur_of_adds (h : Alike s s') {m m' : UnifyM Unit} {condition condition' : (TypeId → Tree) → Prop}
    (hm : Adds s m condition) (hm' : Adds s' m' condition')
    (hiff : ∀ reading, s.Reads reading → (condition reading ↔ condition' reading))
    (hkind : ∀ clash s₁ clash' s₁', m s = .error (.failure clash) s₁ → m' s' = .error (.failure clash') s₁' →
      clash.isRecursive = clash'.isRecursive) : Concur (m s) (m' s') := by
  cases hrun : m s with
  | ok _ s₁ =>
    obtain ⟨hs, hadded⟩ := hm.ok hrun
    -- The trees that the types have in the end meet the condition.
    obtain ⟨hreads, hcondition⟩ := (hadded _).mp hs.grounded.reads_tree
    cases hrun' : m' s' with
    | ok _ s₁' =>
      obtain ⟨hs', hadded'⟩ := hm'.ok hrun'
      refine .ok ⟨hs.grounded, hs'.grounded, by rw [hs'.size_eq, h.size_eq, hs.size_eq], fun reading => ?_⟩
      rw [hadded, hadded', ← h.reads_iff]
      exact and_congr_right (hiff reading)
    | error reason s₁' =>
      obtain ⟨-, -, hnone⟩ := hm'.error hrun'
      exact absurd ((hiff _ hreads).mp hcondition) (hnone _ ((h.reads_iff _).mp hreads))
  | error reason s₁ =>
    obtain ⟨-, hfailure, hnone⟩ := hm.error hrun
    cases hrun' : m' s' with
    | ok _ s₁' =>
      obtain ⟨hs', hadded'⟩ := hm'.ok hrun'
      obtain ⟨hreads, hcondition⟩ := (hadded' _).mp hs'.grounded.reads_tree
      have hreads' := (h.reads_iff _).mpr hreads
      exact absurd ((hiff _ hreads').mpr hcondition) (hnone _ hreads')
    | error reason' s₁' =>
      obtain ⟨-, hfailure', -⟩ := hm'.error hrun'
      cases reason with
      | fault f => exact hfailure.elim
      | failure clash =>
        cases reason' with
        | fault f => exact hfailure'.elim
        | failure clash' => exact .failure (hkind _ _ _ _ hrun hrun')

/-- **A variable on either side**: the only clash there is recursive. -/
theorem concur_of_solve (h : Alike s s') {x y : TypeId} {v w : View} (hx : s.Shows a (.var x)) (hv : s.Shows b v)
    (hy : s'.Shows c (.var y)) (hw : s'.Shows d w) (hlt : v.id.index < s.size) (hlt' : w.id.index < s'.size)
    (hiff : ∀ reading, s.Reads reading → (reading a = reading b ↔ reading c = reading d)) :
    Concur (solve x v.id s) (solve y w.id s') := by
  refine concur_of_adds h (solve_adds h.left hx.isUnbound hv hlt) (solve_adds h.right hy.isUnbound hw hlt') ?_ ?_
  · intro reading hreads
    have hreads' := (h.reads_iff _).mp hreads
    have hvalues := hiff reading hreads
    rwa [hreads.shows hx, hreads.shows hv, hreads'.shows hy, hreads'.shows hw] at hvalues
  · intro clash s₁ clash' s₁' hrun hrun'
    obtain ⟨-, _, _, he, -⟩ := contains_of_solve h.left hx hv hlt hrun
    obtain ⟨-, _, _, he', -⟩ := contains_of_solve h.right hy hw hlt' hrun'
    cases he
    cases he'
    rfl

/-! ## Side by side -/

/-- The second pair coincides with the first one crosswise: its right side with the left, and its left side with the
    right. -/
def Crossed (s : Store) (pair pair' : TypeId × TypeId) : Prop :=
  s.Coincide pair.1 pair'.2 ∧ s.Coincide pair.2 pair'.1

/-- Components that coincide crosswise make pairs that do. -/
theorem crossed_zip {as bs : List TypeId} {cs ds : List TypeId} (hleft : List.Forall₂ s.Coincide as ds)
    (hright : List.Forall₂ s.Coincide bs cs) : List.Forall₂ (Crossed s) (as.zip bs) (cs.zip ds) := by
  induction hleft generalizing bs cs with
  | nil =>
    rw [List.zip_nil_left, List.zip_nil_right]
    exact .nil
  | cons hfirst _ ih =>
    cases hright with
    | nil => exact .nil
    | cons hsecond hrest => exact .cons ⟨hfirst, hsecond⟩ (ih hrest)

/-- Component pairs one after another, side by side. After each pair the stores are alike again, so the next pair
    may be compared in them. -/
theorem concur_of_forM {fuel depth : Nat}
    (hunify : ∀ {pair pair' : TypeId × TypeId} {s s' : Store}, Alike s s' → Crossed s pair pair' →
      Inside depth pair s → Inside depth pair' s' → s.size < depth + fuel →
      Concur (unifyWithin fuel pair.1 pair.2 s) (unifyWithin fuel pair'.1 pair'.2 s')) :
    ∀ {pairs pairs' : List (TypeId × TypeId)} {s s' : Store}, Alike s s' → List.Forall₂ (Crossed s) pairs pairs' →
      (∀ pair ∈ pairs, Inside depth pair s) → (∀ pair ∈ pairs', Inside depth pair s') → s.size < depth + fuel →
      Concur ((pairs.forM fun pair => unifyWithin fuel pair.1 pair.2) s)
        ((pairs'.forM fun pair => unifyWithin fuel pair.1 pair.2) s') := by
  intro pairs
  induction pairs with
  | nil =>
    intro pairs' s s' h hpairs _ _ _
    cases hpairs
    exact .ok h
  | cons pair pairs ih =>
    intro pairs' s s' h hpairs hinside hinside' hfuel
    obtain ⟨pair', rest, hfirst, hrest, rfl⟩ := List.forall₂_cons_left_iff.mp hpairs
    have hpair := hinside pair List.mem_cons_self
    have hpair' := hinside' pair' List.mem_cons_self
    have hone := hunify h hfirst hpair hpair' hfuel
    show Concur ((unifyWithin fuel pair.1 pair.2 >>= fun _ => _) s)
      ((unifyWithin fuel pair'.1 pair'.2 >>= fun _ => _) s')
    generalize hrun : unifyWithin fuel pair.1 pair.2 s = outcome at hone
    generalize hrun' : unifyWithin fuel pair'.1 pair'.2 s' = outcome' at hone
    cases hone with
    | failure hkind =>
      rw [run_bind_of_error hrun, run_bind_of_error hrun']
      exact .failure hkind
    | @ok s₁ s₁' h₁ =>
      rw [run_bind_of_ok hrun, run_bind_of_ok hrun']
      have hs := ((unifyWithin_adds h.left hpair hfuel).ok hrun).1
      have hs' := ((unifyWithin_adds h.right hpair' (h.size_eq ▸ hfuel)).ok hrun').1
      -- What has one tree in every reading has so when there are fewer of them.
      have hcrossed : List.Forall₂ (Crossed s₁) pairs rest := hrest.imp fun p q hpq =>
        ⟨fun reading hreads => hpq.1 reading (hs.persists.reads hreads),
          fun reading hreads => hpq.2 reading (hs.persists.reads hreads)⟩
      exact ih h₁ hcrossed (fun p hp => (hinside p (List.mem_cons_of_mem _ hp)).assigns hs)
        (fun p hp => (hinside' p (List.mem_cons_of_mem _ hp)).assigns hs') (hs.size_eq ▸ hfuel)

/-! ### The recursion -/

/-- **Two runs side by side**, the second on coinciding types from right to left. By induction on the fuel, with
    cases for what the first run sees; the second sees a variable or a constructor at the same places. -/
theorem concur_of_unifyWithin : ∀ {fuel depth : Nat} {pair pair' : TypeId × TypeId} {s s' : Store}, Alike s s' →
    Crossed s pair pair' → Inside depth pair s → Inside depth pair' s' → s.size < depth + fuel →
      Concur (unifyWithin fuel pair.1 pair.2 s) (unifyWithin fuel pair'.1 pair'.2 s') := by
  intro fuel
  induction fuel with
  | zero =>
    intro depth pair pair' s s' h _ hinside _ hfuel
    exact absurd (hinside.2.2.le_size h.left) (by omega)
  | succ fuel ih =>
    rintro depth ⟨a, b⟩ ⟨c, d⟩ s s' h ⟨had, hbc⟩ hinside hinside' hfuel
    have ha : a.index < s.size := hinside.1
    have hb : b.index < s.size := hinside.2.1
    have hc : c.index < s'.size := hinside'.1
    have hd : d.index < s'.size := hinside'.2.1
    obtain ⟨v, hv, hva⟩ := h.left.exists_view ha
    obtain ⟨w, hw, hwb⟩ := h.left.exists_view hb
    obtain ⟨w', hw', hwc⟩ := h.right.exists_view hc
    obtain ⟨v', hv', hvd⟩ := h.right.exists_view hd
    -- Whether the two sides are equal is the same question for both runs.
    have hsides : ∀ reading, s.Reads reading → (reading a = reading b ↔ reading d = reading c) := by
      intro reading hreads
      rw [had reading hreads, hbc reading hreads]
    rw [unifyWithin, run_bind_of_ok (query_of_ok hva), run_bind_of_ok (query_of_ok hwb), unifyWithin,
      run_bind_of_ok (query_of_ok hwc), run_bind_of_ok (query_of_ok hvd)]
    rcases v with x | ⟨r, con, args⟩
    case var =>
      obtain ⟨x', hx'⟩ := h.exists_shows_var hv ha (h.size_eq ▸ hd) had
      obtain rfl := hv'.unique hx'
      rcases w with y | ⟨r', con', args'⟩
      case var =>
        obtain ⟨y', hy'⟩ := h.exists_shows_var hw hb (h.size_eq ▸ hc) hbc
        obtain rfl := hw'.unique hy'
        -- Two variables: each run binds its left one, so they bind different ones.
        exact concur_of_solve h hv hw hw' hv' (lt_of_get hw.isUnbound) (lt_of_get hv'.isUnbound) fun reading hreads =>
          (hsides reading hreads).trans eq_comm
      case op =>
        obtain ⟨r'', args'', hop, -⟩ := h.exists_shows_op hw (h.size_eq ▸ hc) hbc
        obtain rfl := hw'.unique hop
        exact concur_of_solve h hv hw hv' hw' (lt_of_get hw.get_op) (lt_of_get hw'.get_op) hsides
    case op =>
      obtain ⟨r₁, args₁, hop₁, hargs₁⟩ := h.exists_shows_op hv (h.size_eq ▸ hd) had
      obtain rfl := hv'.unique hop₁
      rcases w with y | ⟨r', con', args'⟩
      case var =>
        obtain ⟨y', hy'⟩ := h.exists_shows_var hw hb (h.size_eq ▸ hc) hbc
        obtain rfl := hw'.unique hy'
        exact concur_of_solve h hw hv hw' hv' (lt_of_get hv.get_op) (lt_of_get hv'.get_op) fun reading hreads =>
          eq_comm.trans ((hsides reading hreads).trans eq_comm)
      case op =>
        obtain ⟨r₂, args₂, hop₂, hargs₂⟩ := h.exists_shows_op hw (h.size_eq ▸ hc) hbc
        obtain rfl := hw'.unique hop₂
        by_cases hcon : con = con' ∧ args.length = args'.length
        -- The same constructor on both sides: both runs go on with the components, each in its own order.
        · obtain ⟨rfl, hlength⟩ := hcon
          have hlength' : args₂.length = args₁.length := by rw [← hargs₁.length_eq, ← hargs₂.length_eq, hlength]
          simp only [hlength, hlength', and_self, ↓reduceIte]
          exact concur_of_forM ih h (crossed_zip hargs₁ hargs₂) (hinside.components h.left hv hw)
            (hinside'.components h.right hw' hv') (by omega)
        -- Different constructors: both runs clash here.
        · have hcon' : ¬ (con' = con ∧ args₂.length = args₁.length) := by
            rintro ⟨rfl, hlength⟩
            exact hcon ⟨rfl, by rw [hargs₁.length_eq, hargs₂.length_eq, hlength]⟩
          obtain ⟨_, _, -, -, hclash⟩ := exists_clash_eq_error h.left .mismatch hv.id.lt hw.id.lt
          obtain ⟨_, _, -, -, hclash'⟩ := exists_clash_eq_error h.right .mismatch hw'.id.lt hv'.id.lt
          simp only [hcon, hcon', ↓reduceIte]
          exact hclash ▸ hclash' ▸ .failure rfl

end UnifyM

namespace Store

variable {s : Store} {a b : TypeId}

/-! ## Both directions -/

/-- **Unification is symmetric**, down to the kind of clash: from one store, both directions end, or both clash over
    constructors, or both clash over a variable that would have to contain itself. If they end, the same types are
    equal afterwards. -/
theorem Grounded.unify_symmetric (h : s.Grounded) (ha : a.index < s.size) (hb : b.index < s.size) :
    (∃ s₁ s₂, unify a b s = .ok () s₁ ∧ unify b a s = .ok () s₂ ∧
        ∀ x y : TypeId, x.index < s.size → y.index < s.size →
          ∃ equal, s₁.same x y = .ok equal ∧ s₂.same x y = .ok equal) ∨
      (∃ left right s₁ left' right' s₂, unify a b s = .error (.failure (.mismatch left right)) s₁ ∧
        unify b a s = .error (.failure (.mismatch left' right')) s₂) ∨
      ∃ var text s₁ var' text' s₂, unify a b s = .error (.failure (.recursive var text)) s₁ ∧
        unify b a s = .error (.failure (.recursive var' text')) s₂ := by
  have hinside : UnifyM.Inside 0 (a, b) s := ⟨ha, hb, trivial⟩
  have hinside' : UnifyM.Inside 0 (b, a) s := ⟨hb, ha, trivial⟩
  have hcrossed : UnifyM.Crossed s (a, b) (b, a) := ⟨.refl s a, .refl s b⟩
  have hconcur : UnifyM.Concur (unify a b s) (unify b a s) :=
    UnifyM.concur_of_unifyWithin (.refl h) hcrossed hinside hinside'
      (s.size_lt_pairBound.trans_eq (Nat.zero_add _).symm)
  generalize hrun : unify a b s = outcome at hconcur ⊢
  generalize hrun' : unify b a s = outcome' at hconcur ⊢
  cases hconcur with
  | @ok s₁ s₂ halike =>
    have hsize : s₁.size = s.size := ((h.unify_adds ha hb).ok hrun).1.size_eq
    exact .inl ⟨s₁, s₂, rfl, rfl, fun x y hx hy => halike.exists_same_eq_ok (hsize ▸ hx) (hsize ▸ hy)⟩
  | @failure clash clash' s₁ s₂ hkind =>
    match clash, clash' with
    | .mismatch left right, .mismatch left' right' => exact .inr (.inl ⟨left, right, s₁, left', right', s₂, rfl, rfl⟩)
    | .recursive var text, .recursive var' text' => exact .inr (.inr ⟨var, text, s₁, var', text', s₂, rfl, rfl⟩)
    | .mismatch _ _, .recursive _ _ => cases hkind
    | .recursive _ _, .mismatch _ _ => cases hkind

/-- The keys of the two maps are variables, which are bound in opposite directions. -/
theorem unify_symmetric_twoMaps :
    ∃ s₁ s₂, unify ⟨6⟩ ⟨8⟩ twoMaps = .ok () s₁ ∧ unify ⟨8⟩ ⟨6⟩ twoMaps = .ok () s₂ ∧ s₁ ≠ s₂ ∧
      ∀ x y : TypeId, x.index < twoMaps.size → y.index < twoMaps.size →
        ∃ equal, s₁.same x y = .ok equal ∧ s₂.same x y = .ok equal := by
  have hruns : (match unify ⟨6⟩ ⟨8⟩ twoMaps, unify ⟨8⟩ ⟨6⟩ twoMaps with
      | .ok _ s₁, .ok _ s₂ => decide (s₁ ≠ s₂)
      | _, _ => false) = true := by
    decide +kernel
  rcases grounded_twoMaps.unify_symmetric (a := ⟨6⟩) (b := ⟨8⟩) (by decide) (by decide) with
    ⟨s₁, s₂, hrun, hrun', hsame⟩ | ⟨_, _, _, _, _, _, hrun, -⟩ | ⟨_, _, _, _, _, _, hrun, -⟩
  · rw [hrun, hrun'] at hruns
    exact ⟨s₁, s₂, hrun, hrun', of_decide_eq_true hruns, hsame⟩
  · rw [hrun] at hruns
    cases hruns
  · rw [hrun] at hruns
    cases hruns

end Store

end TypeInference
