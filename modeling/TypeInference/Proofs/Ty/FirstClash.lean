import TypeInference.Proofs.Ty.Confinement

/-!
# `Proofs.Ty.FirstClash` — a clash is reported where it is met first

A position in a type is a path of component numbers, which is followed through bindings. When unification stops,
there is a position that both types have, at which the reported clash stands; the types agree wherever a walk from
left to right comes earlier, and the constructors above the position agree as well.

The position is the way that the recursion has gone down. Nothing happens after the clash, so what was seen there
is still to be seen in the store that is left: displayed texts are those of this store, and the components on the
left, which had been made equal, still are. Types that are seen on the way down show the same constructors, because
bindings do not change constructors. A variable on the right takes the place of the left type, but `Clash.Tells`
does not say on which side the variable of a recursive clash is.

## Contents
* `Store.part?` — the component at a position;
* `Store.Contains`, `Clash.Tells`, `Store.ClashAt` — what a clash tells, and where it is;
* `ClashAt.component` — a clash in a component is one in the type;
* `Grounded.unify_firstClash` — every clash of a unification is the first.
-/

namespace TypeInference

namespace Store

/-! ## Clashes and their places -/

/-- The component at a position, if the type has it. Bindings are followed at every step, so a position is one of
    the tree that the type stands for. -/
def part? (s : Store) : List Nat → TypeId → Option TypeId
  | [], ty => some ty
  | i :: path, ty =>
    match s.operator? ty with
    | .ok (some (_, args)) => args[i]?.bind (s.part? path)
    | _ => none

/-- The type `x` stands for an unbound variable, `ty` for a constructor, and the variable is part of `ty`; these are
    their texts. -/
def Contains (s : Store) (var text : String) (x ty : TypeId) : Prop :=
  ∃ v con args, s.view x = .ok (.var v) ∧ s.operator? ty = .ok (some (con, args)) ∧ s.occurs v ty = .ok true ∧
    s.display x = .ok var ∧ s.display ty = .ok text

end Store

/-- What a clash says is true of the two types. The texts of a mismatch are not swapped; the variable of a
    recursive clash may be on either side. -/
def Clash.Tells (s : Store) (c d : TypeId) : Clash → Prop
  | .mismatch left right => ∃ con args con' args',
      s.operator? c = .ok (some (con, args)) ∧ s.operator? d = .ok (some (con', args')) ∧
        (con ≠ con' ∨ args.length ≠ args'.length) ∧ s.display c = .ok left ∧ s.display d = .ok right
  | .recursive var text => s.Contains var text c d ∨ s.Contains var text d c

namespace Store

/-- The types `a` and `b` clash at a position, and at none that comes earlier from left to right. Paths are ordered
    as words are, so a path comes after those that it continues. -/
structure ClashAt (s : Store) (a b : TypeId) (path : List Nat) (clash : Clash) : Prop where
  before : ∀ q, q < path → ¬ q <+: path →
    Option.Rel (fun c d => s.same c d = .ok true) (s.part? q a) (s.part? q b)
  above : ∀ q, q <+: path → q ≠ path → ∃ c d con args args', s.part? q a = some c ∧ s.part? q b = some d ∧
    s.operator? c = .ok (some (con, args)) ∧ s.operator? d = .ok (some (con, args')) ∧ args.length = args'.length
  here : ∃ c d, s.part? path a = some c ∧ s.part? path b = some d ∧ clash.Tells s c d

variable {s s' : Store} {a b r r' : TypeId} {con : Constructor} {args args' : List TypeId}

/-! ## Positions -/

theorem part?_cons (h : s.operator? a = .ok (some (con, args))) (i : Nat) (path : List Nat) :
    s.part? (i :: path) a = args[i]?.bind (s.part? path) := by
  simp only [part?, h]

/-- **Equal types are equal at every position**, and have the same positions. By induction on the path. -/
theorem rel_part?_of_tree_eq (h : s.Grounded) : ∀ (path : List Nat) {a b : TypeId}, a.index < s.size →
    b.index < s.size → s.tree a = s.tree b →
      Option.Rel (fun c d => s.same c d = .ok true) (s.part? path a) (s.part? path b)
  | [], a, b, ha, hb, heq => by
    obtain ⟨equal, hsame, hiff⟩ := h.same_eq_ok ha hb
    exact .some (hsame.trans (congrArg _ (hiff.mpr heq)))
  | i :: path, a, b, ha, hb, heq => by
    obtain ⟨v, hv, hop⟩ := h.operator?_eq_ok ha
    obtain ⟨w, hw, hop'⟩ := h.operator?_eq_ok hb
    match v, w with
    | .var x, .var y =>
      simp only [part?, hop, hop', View.operator?]
      exact .none
    | .var x, .op r' con' args' =>
      rw [Shows.tree_var h hv, Shows.tree_op h hw] at heq
      cases heq
    | .op r con args, .var y =>
      rw [Shows.tree_op h hv, Shows.tree_var h hw] at heq
      cases heq
    | .op r con args, .op r' con' args' =>
      rw [Shows.tree_op h hv, Shows.tree_op h hw, Tree.app.injEq] at heq
      -- Equal trees have equal components, at the first step of the path as well.
      have htrees : args[i]?.map s.tree = args'[i]?.map s.tree := by
        rw [← List.getElem?_map, heq.2, List.getElem?_map]
      rw [part?_cons hop, part?_cons hop']
      cases harg : args[i]? with
      | none =>
        rw [harg, Option.map_none, eq_comm, Option.map_eq_none_iff] at htrees
        rw [htrees]
        exact .none
      | some c =>
        rw [harg, Option.map_some, eq_comm, Option.map_eq_some_iff] at htrees
        obtain ⟨d, harg', htree⟩ := htrees
        rw [harg']
        exact rel_part?_of_tree_eq h path (hv.arg_lt h (List.mem_of_getElem? harg))
          (hw.arg_lt h (List.mem_of_getElem? harg')) htree.symm

namespace ClashAt

/-! ## Clashes along a path -/

/-- A clash of the types themselves, at the empty path; nothing comes before it and nothing is above it. -/
theorem root {clash : Clash} (h : clash.Tells s a b) : ClashAt s a b [] clash where
  before := fun q hq => absurd hq (List.not_lt_nil q)
  above := fun _ hq hne => absurd (List.prefix_nil.mp hq) hne
  here := ⟨a, b, rfl, rfl, h⟩

/-- **A clash in a component** is one in the type, if the constructors agree and the components on the left do. What
    comes earlier than the longer path is in a component on the left, or comes earlier in the component itself. -/
theorem component (h : s.Grounded) (hv : s.Shows a (.op r con args)) (hw : s.Shows b (.op r' con args'))
    (hlength : args.length = args'.length) {i : Nat} {c d : TypeId} (hc : args[i]? = some c)
    (hd : args'[i]? = some d)
    (hleft : ∀ j, j < i → ∀ x y, args[j]? = some x → args'[j]? = some y → s.tree x = s.tree y)
    {path : List Nat} {clash : Clash} (hclash : ClashAt s c d path clash) : ClashAt s a b (i :: path) clash := by
  have hop := hv.operator?_eq h
  have hop' := hw.operator?_eq h
  -- A path through the component goes on as a path from there.
  have hpart : ∀ q, s.part? (i :: q) a = s.part? q c ∧ s.part? (i :: q) b = s.part? q d := fun q =>
    ⟨by rw [part?_cons hop, hc, Option.bind_some], by rw [part?_cons hop', hd, Option.bind_some]⟩
  refine ⟨fun q hq hno => ?_, fun q hq hne => ?_, ?_⟩
  · cases q with
    | nil => exact absurd List.nil_prefix hno
    | cons j q =>
      rcases List.cons_lt_cons_iff.mp hq with hj | ⟨rfl, hrest⟩
      · -- A component on the left, or a part of it.
        have hlt : i < args.length := (List.getElem?_eq_some_iff.mp hc).1
        obtain ⟨x, hx⟩ : ∃ x, args[j]? = some x := ⟨_, List.getElem?_eq_some_iff.mpr ⟨hj.trans hlt, rfl⟩⟩
        obtain ⟨y, hy⟩ : ∃ y, args'[j]? = some y :=
          ⟨_, List.getElem?_eq_some_iff.mpr ⟨hlength ▸ hj.trans hlt, rfl⟩⟩
        rw [part?_cons hop, part?_cons hop', hx, hy]
        exact rel_part?_of_tree_eq h q (hv.arg_lt h (List.mem_of_getElem? hx)) (hw.arg_lt h (List.mem_of_getElem? hy))
          (hleft j hj x y hx hy)
      · rw [(hpart q).1, (hpart q).2]
        exact hclash.before q hrest fun hprefix => hno (List.cons_prefix_cons.mpr ⟨rfl, hprefix⟩)
  · cases q with
    | nil => exact ⟨a, b, con, args, args', rfl, rfl, hop, hop', hlength⟩
    | cons j q =>
      obtain ⟨rfl, hrest⟩ := List.cons_prefix_cons.mp hq
      rw [(hpart q).1, (hpart q).2]
      exact hclash.above q hrest fun he => hne (congrArg _ he)
  · rw [(hpart path).1, (hpart path).2]
    exact hclash.here

end ClashAt

/-! ## What a clash reports -/

/-- A type has the text of what it shows. -/
theorem Shows.display_eq (h : s.Grounded) {v : View} (hv : s.Shows a v) : s.display a = s.display v.id := by
  simp only [display, walkBound, displayWithin, hv.view_eq h, hv.id.view_eq h]

/-- A variable occurs in a type when it does in what the type shows. -/
theorem Shows.occurs_eq (h : s.Grounded) {v : View} (hv : s.Shows a v) (x : TypeId) :
    s.occurs x a = s.occurs x v.id := by
  simp only [occurs, walkBound, occursWithin, hv.view_eq h, hv.id.view_eq h]

end Store

namespace UnifyM

open Store

variable {s s' : Store} {a b : TypeId} {reason : Halt Clash}

/-- A clash names both types by their texts, and leaves the store alone. -/
theorem exists_clash_eq_error (h : s.Grounded) (makeClash : String → String → Clash) (ha : a.index < s.size)
    (hb : b.index < s.size) : ∃ left right, s.display a = .ok left ∧ s.display b = .ok right ∧
      (clash makeClash a b : UnifyM Unit) s = .error (.failure (makeClash left right)) s := by
  obtain ⟨left, hleft⟩ := h.exists_display ha
  obtain ⟨right, hright⟩ := h.exists_display hb
  refine ⟨left, right, hleft, hright, ?_⟩
  rw [clash, run_bind_of_ok (query_of_ok hleft), run_bind_of_ok (query_of_ok hright)]
  rfl

/-- **A refused variable** is part of the type on the other side, and this can still be seen in the store that is
    left. -/
theorem contains_of_solve (h : s.Grounded) {x : TypeId} {w : View} (hv : s.Shows a (.var x)) (hw : s.Shows b w)
    (hlt : w.id.index < s.size) (hrun : solve x w.id s = .error reason s') :
    s' = s ∧ ∃ var text, reason = .failure (.recursive var text) ∧ s.Contains var text a b := by
  have hx := hv.isUnbound
  obtain ⟨var, text, hvar, htext, hclash⟩ := exists_clash_eq_error h .recursive (lt_of_get hx) hlt
  obtain ⟨found, hfound, hiff⟩ := h.occurs_eq_ok hx hlt
  unfold solve at hrun
  by_cases he : x = w.id
  · rw [if_pos he] at hrun
    cases hrun
  rw [if_neg he, run_bind_of_ok (query_of_ok hfound)] at hrun
  cases found with
  | false =>
    obtain ⟨s₁, hbind⟩ : ∃ s₁, s.bind x w.id = .ok s₁ := exists_bind hx
    simp [assign, hbind] at hrun
  | true =>
    rw [if_pos rfl, hclash] at hrun
    cases hrun
    refine ⟨rfl, var, text, rfl, ?_⟩
    cases w with
    | var y => exact absurd (eq_of_reaches_unbound hw.isUnbound (hiff.mp rfl)) he
    | op r con args =>
      exact ⟨x, con, args, hv.view_eq h, hw.operator?_eq h, (hw.occurs_eq h x).trans hfound,
        (hv.display_eq h).trans hvar, (hw.display_eq h).trans htext⟩

/-! ## The way down to a clash -/

/-- **The first component pair that stops**: the pairs on its left have been made equal, and are still equal in the
    store that is left, since nothing that comes later takes an equation away. -/
theorem exists_of_forM_error {fuel depth : Nat} : ∀ {pairs : List (TypeId × TypeId)} {s : Store}, s.Grounded →
    (∀ pair ∈ pairs, Inside depth pair s) → s.size < depth + fuel →
    (pairs.forM fun pair => unifyWithin fuel pair.1 pair.2) s = .error reason s' →
      ∃ (i : Nat) (pair : TypeId × TypeId) (s₁ : Store), pairs[i]? = some pair ∧ Assigns s s₁ ∧ Inside depth pair s₁ ∧
        unifyWithin fuel pair.1 pair.2 s₁ = .error reason s' ∧
        ∀ j, j < i → ∀ earlier, pairs[j]? = some earlier → s'.tree earlier.1 = s'.tree earlier.2 := by
  intro pairs
  induction pairs with
  | nil => intro s _ _ _ hrun; cases hrun
  | cons pair pairs ih =>
    intro s h hpairs hfuel hrun
    have hpair := hpairs pair List.mem_cons_self
    replace hrun : (unifyWithin fuel pair.1 pair.2 >>= fun _ =>
        pairs.forM fun pair => unifyWithin fuel pair.1 pair.2) s = .error reason s' := hrun
    rcases exists_of_run_bind_error hrun with hfirst | ⟨_, s₁, hfirst, hrest⟩
    · exact ⟨0, pair, s, rfl, .refl h, hpair, hfirst, fun j hj => absurd hj (Nat.not_lt_zero j)⟩
    · obtain ⟨hs, hadded⟩ := (unifyWithin_adds h hpair hfuel).ok hfirst
      have hinside : ∀ p ∈ pairs, Inside depth p s₁ := fun p hp =>
        (hpairs p (List.mem_cons_of_mem _ hp)).assigns hs
      obtain ⟨i, stopped, s₂, hi, hs', hstopped, hstop, hleft⟩ := ih hs.grounded hinside (hs.size_eq ▸ hfuel) hrest
      refine ⟨i + 1, stopped, s₂, hi, hs.trans hs', hstopped, hstop, fun j hj earlier hearlier => ?_⟩
      cases j with
      | succ j => exact hleft j (Nat.lt_of_succ_lt_succ hj) earlier hearlier
      | zero =>
        -- The trees of the store that is left read the store in which the first pair was made equal.
        obtain rfl : pair = earlier := Option.some.inj hearlier
        have hfinal := ((unifyWithin_adds hs'.grounded hstopped (by
          rw [hs'.size_eq, hs.size_eq]; exact hfuel)).error hstop).1
        exact ((hadded _).mp ((hs'.trans hfinal).persists.reads hfinal.grounded.reads_tree)).2

/-- **A clash of `unifyWithin` is the first.** By induction on the fuel: either the two types clash themselves, or
    one pair of components stops, and then the clash found in it is moved up by one component number. -/
theorem clashAt_of_unifyWithin : ∀ {fuel depth : Nat} {a b : TypeId} {s : Store}, s.Grounded →
    Inside depth (a, b) s → s.size < depth + fuel → unifyWithin fuel a b s = .error reason s' →
      ∃ clash path, reason = .failure clash ∧ ClashAt s' a b path clash := by
  -- The induction is that of `unifyWithin_adds`; each level adds its component number to the path.
  intro fuel
  induction fuel with
  | zero =>
    intro depth a b s h hinside hfuel _
    exact absurd (hinside.2.2.le_size h) (by omega)
  | succ fuel ih =>
    intro depth a b s h hinside hfuel hrun
    have hs := ((unifyWithin_adds h hinside hfuel).error hrun).1
    have ha : a.index < s.size := hinside.1
    have hb : b.index < s.size := hinside.2.1
    obtain ⟨v, hv, hva⟩ := h.exists_view ha
    obtain ⟨w, hw, hwb⟩ := h.exists_view hb
    rw [unifyWithin, run_bind_of_ok (query_of_ok hva), run_bind_of_ok (query_of_ok hwb)] at hrun
    rcases v with x | ⟨r, con, args⟩
    case var =>
      obtain ⟨rfl, var, text, rfl, hcontains⟩ := contains_of_solve h hv hw (h.reaches_lt hb hw.reaches) hrun
      exact ⟨_, [], rfl, .root (.inl hcontains)⟩
    rcases w with y | ⟨r', con', args'⟩
    case op.var =>
      obtain ⟨rfl, var, text, rfl, hcontains⟩ := contains_of_solve h hw hv (h.reaches_lt ha hv.reaches) hrun
      exact ⟨_, [], rfl, .root (.inr hcontains)⟩
    case op.op =>
      by_cases hcon : con = con' ∧ args.length = args'.length
      · obtain ⟨rfl, hlength⟩ := hcon
        simp only [hlength, and_self, ↓reduceIte] at hrun
        obtain ⟨i, pair, s₁, hi, hs₁, hpair, hstop, hleft⟩ :=
          exists_of_forM_error h (hinside.components h hv hw) (by omega) hrun
        obtain ⟨clash, path, rfl, hclash⟩ := ih hs₁.grounded hpair (by rw [hs₁.size_eq]; omega) hstop
        obtain ⟨hc, hd⟩ := List.getElem?_zip_eq_some.mp hi
        refine ⟨clash, i :: path, rfl, hclash.component hs.grounded (hs.persists.shows_op hv)
          (hs.persists.shows_op hw) hlength hc hd fun j hj x y hx hy => ?_⟩
        exact hleft j hj (x, y) (List.getElem?_zip_eq_some.mpr ⟨hx, hy⟩)
      · simp only [hcon, ↓reduceIte] at hrun
        obtain ⟨left, right, hleft, hright, hclash⟩ := exists_clash_eq_error h .mismatch hv.id.lt hw.id.lt
        cases hclash.symm.trans hrun
        exact ⟨_, [], rfl, .root ⟨con, args, con', args', hv.operator?_eq h, hw.operator?_eq h,
          not_and_or.mp hcon, (hv.display_eq h).trans hleft, (hw.display_eq h).trans hright⟩⟩

end UnifyM

namespace Store

variable {s s' : Store} {a b : TypeId} {reason : Halt Clash}

/-! ## Unification -/

/-- **A unification that stops reports the first clash.** Seen in the store that is left, there is a position that
    both types have and at which the clash is what it says; all that comes earlier from left to right is equal on both
    sides, and the constructors around the position agree. -/
theorem Grounded.unify_firstClash (h : s.Grounded) (ha : a.index < s.size) (hb : b.index < s.size)
    (hrun : unify a b s = .error reason s') :
    ∃ clash path, reason = .failure clash ∧ ClashAt s' a b path clash := by
  have hinside : UnifyM.Inside 0 (a, b) s := ⟨ha, hb, trivial⟩
  exact UnifyM.clashAt_of_unifyWithin h hinside (s.size_lt_pairBound.trans_eq (Nat.zero_add _).symm) hrun

/-- Two maps: the keys are a string and a variable, the values a list of another variable and that variable. -/
def knottedMaps : Store where
  nodes := initial.nodes ++ #[.var none, .op .list [⟨4⟩], .op .map [.string, ⟨5⟩], .var none, .op .map [⟨7⟩, ⟨4⟩]]
  trail := []

theorem grounded_knottedMaps : knottedMaps.Grounded := grounded_of_descending (by decide)

/-- The keys are made equal, and the values clash: the variable on the right is part of the list on the left. -/
theorem unify_firstClash_knottedMaps :
    ∃ path s', unify ⟨6⟩ ⟨8⟩ knottedMaps = .error (.failure (.recursive "?4" "\x7b?4\x7d")) s' ∧
      ClashAt s' ⟨6⟩ ⟨8⟩ path (.recursive "?4" "\x7b?4\x7d") := by
  have hrun : (match unify ⟨6⟩ ⟨8⟩ knottedMaps with
      | .ok _ _ => none
      | .error reason _ => some reason) = some (.failure (.recursive "?4" "\x7b?4\x7d")) := by
    decide +kernel
  cases hunify : unify ⟨6⟩ ⟨8⟩ knottedMaps with
  | ok _ s' =>
    rw [hunify] at hrun
    cases hrun
  | error reason s' =>
    rw [hunify] at hrun
    obtain rfl := Option.some.inj hrun
    obtain ⟨clash, path, he, hclash⟩ := grounded_knottedMaps.unify_firstClash (by decide) (by decide) hunify
    cases he
    exact ⟨path, s', rfl, hclash⟩

end Store

end TypeInference
