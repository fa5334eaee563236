import TypeInference.Proofs.Inference.Companion
import TypeInference.Proofs.Ty.Change

/-!
# `Proofs.Inference.Indexing` — a check made once holds from then on

Indexing only looks, at a time when the types may be known in part, and what it has seen is never looked at again.
That is enough: a later store has everything that was seen. A constructor at the head of a type stays there with the
same components, and types that were equal stay equal, because a later tree is an instance of the earlier one
(`Persists.tree_congr`).

A refusal is no such matter, since a variable that is refused as an index may become a number later.

## Contents
* `Persists.operator?`, `Persists.hasConstructor`, `Persists.same` — what is seen is seen in every later store;
* `Persists.accesses` — an accepted index stays accepted;
* `Grounded.same_equivalence` — equality of types is an equivalence;
* `Grounded.indexing_stable` — the statement for sequences of changes.
-/

namespace TypeInference

namespace Store

variable {s s' : Store} {a b left index r : TypeId}

/-! ## Equality of types -/

/-- Equality of types says that their trees are equal, so it does not depend on how the types were made. -/
theorem Grounded.same_iff (h : s.Grounded) (ha : a.index < s.size) (hb : b.index < s.size) :
    s.same a b = .ok true ↔ s.tree a = s.tree b := by
  obtain ⟨equal, hequal, hiff⟩ := h.same_eq_ok ha hb
  rw [hequal, Except.ok.injEq, hiff]

/-- **Equality of types is an equivalence** on the types of a store, because it is equality of trees. -/
theorem Grounded.same_equivalence (h : s.Grounded) :
    Equivalence fun a b : {id : TypeId // id.index < s.size} => s.same a b = .ok true where
  refl a := (h.same_iff a.2 a.2).mpr rfl
  symm {a b} hab := (h.same_iff b.2 a.2).mpr ((h.same_iff a.2 b.2).mp hab).symm
  trans {a b c} hab hbc := (h.same_iff a.2 c.2).mpr (((h.same_iff a.2 b.2).mp hab).trans ((h.same_iff b.2 c.2).mp hbc))

/-- What is compared lies in the store, whatever the answer is. -/
theorem lt_of_same {equal : Bool} (h : s.same a b = .ok equal) : a.index < s.size ∧ b.index < s.size := by
  obtain ⟨fuel, hfuel⟩ : ∃ fuel, s.pairBound = fuel + 1 := ⟨s.pairBound - 1, by have := s.size_lt_pairBound; omega⟩
  rw [same, hfuel, sameWithin] at h
  obtain ⟨v, hv, h⟩ := exists_of_bind_eq_ok h
  obtain ⟨w, hw, -⟩ := exists_of_bind_eq_ok h
  exact ⟨(shows_of_view hv).lt, (shows_of_view hw).lt⟩

/-! ## What is seen stays -/

namespace Persists

/-- A constructor stays, with its components: only unbound variables are ever changed. -/
theorem operator? (h : Persists s s') (hs' : s'.Grounded) {con : Constructor} {args : List TypeId}
    (hop : s.operator? a = .ok (some (con, args))) : s'.operator? a = .ok (some (con, args)) := by
  obtain ⟨_, hv⟩ := exists_shows_of_operator? hop
  exact (h.shows_op hv).operator?_eq hs'

/-- A constructor that has been found is found again, as the head of the type it was found in. -/
theorem hasConstructor (h : Persists s s') (hs' : s'.Grounded) {con : Constructor}
    (hcon : s.hasConstructor con a = .ok true) : s'.hasConstructor con a = .ok true := by
  obtain ⟨r, args, hv⟩ := exists_shows_of_hasConstructor hcon
  have hv' := h.shows_op hv
  obtain ⟨found, hfound, hiff⟩ := hs'.hasConstructor_eq_ok hv'.lt con
  rw [hfound, hiff.mpr ⟨r, args, hv'⟩]

/-- **Equal types stay equal.** Their trees are instances of the earlier ones by the same substitution. -/
theorem same (h : Persists s s') (hs : s.Grounded) (hs' : s'.Grounded) (hsame : s.same a b = .ok true) :
    s'.same a b = .ok true := by
  obtain ⟨ha, hb⟩ := lt_of_same hsame
  have htrees := h.tree_congr hs hs' ha hb ((hs.same_iff ha hb).mp hsame)
  exact (hs'.same_iff (ha.trans_le h.size_le) (hb.trans_le h.size_le)).mpr htrees

/-- **An index that has been accepted** is accepted again, with the same component, in each of the three cases. -/
theorem accesses (h : Persists s s') (hs : s.Grounded) (hs' : s'.Grounded) (haccess : s.Accesses left index r) :
    s'.Accesses left index r := by
  cases haccess with
  | string hop => exact .string (h.operator? hs' hop)
  | list hop hnumber => exact .list (h.operator? hs' hop) (h.hasConstructor hs' hnumber)
  | map hop hkey => exact .map (h.operator? hs' hop) (h.same hs hs' hkey)

end Persists

/-- What indexing gives lies in the store: it is a primitive type or a component. -/
theorem Accesses.lt (h : s.Accesses left index r) (hs : s.Grounded) (hprimitives : initial.size ≤ s.size) :
    r.index < s.size := by
  cases h with
  | string _ => exact Nat.lt_of_lt_of_le (by decide) hprimitives
  | list hop _ =>
    obtain ⟨_, hv⟩ := exists_shows_of_operator? hop
    exact hv.arg_lt hs (by simp)
  | map hop _ =>
    obtain ⟨_, hv⟩ := exists_shows_of_operator? hop
    exact hv.arg_lt hs (by simp)

/-! ## Sequences of changes -/

/-- **An index check is never invalidated.** If it accepts two types, then it accepts them after any changes, clashes
    included, and gives the same component; types that were equal are equal still. Whether two types are equal always
    has an answer, which is that of their trees, and so equality is an equivalence. -/
theorem Grounded.indexing_stable (h : s.Grounded) (hprimitives : initial.size ≤ s.size) :
    (∀ s', Changes s s' →
      (∀ left index span indexSpan r, s.access left index span indexSpan = .ok r →
        (∀ span' indexSpan', s'.access left index span' indexSpan' = .ok r) ∧ s'.same r r = .ok true) ∧
      ∀ a b, s.same a b = .ok true → s'.same a b = .ok true) ∧
    (∀ a b : TypeId, a.index < s.size → b.index < s.size →
      ∃ equal, s.same a b = .ok equal ∧ (equal = true ↔ s.tree a = s.tree b)) ∧
    Equivalence fun a b : {id : TypeId // id.index < s.size} => s.same a b = .ok true := by
  refine ⟨fun s' hchanges => ?_, fun a b => h.same_eq_ok, h.same_equivalence⟩
  obtain ⟨hs', haccrues⟩ := hchanges.grounded h
  have hpersists := haccrues.toPersists
  refine ⟨fun left index span indexSpan r haccess => ?_, fun a b => hpersists.same h hs'⟩
  have haccesses := accesses_of_access_eq_ok haccess
  have hr := (haccesses.lt h hprimitives).trans_le hpersists.size_le
  exact ⟨fun _ _ => (hpersists.accesses h hs' haccesses).access_eq_ok, (hs'.same_iff hr hr).mpr rfl⟩

/-! ### A map whose keys become known -/

/-- A map whose keys have an unknown type, and another variable that is bound to it. -/
def openMap : Store where
  nodes := initial.nodes ++ #[.var none, .op .map [⟨4⟩, .bool], .var (some ⟨4⟩)]
  trail := [⟨6⟩]

/-- The same map, once its keys are known to be strings. -/
def stringMap : Store where
  nodes := openMap.nodes.setIfInBounds 4 (.var (some .string))
  trail := [⟨4⟩, ⟨6⟩]

/-- Its types have finite trees: each is built from types with smaller numbers. -/
theorem grounded_openMap : openMap.Grounded := grounded_of_descending (by decide)

/-- The variable is an index of the map before anything is known of it, and is one after the keys have been compared
    with the map itself, which clashes, and with strings. -/
theorem indexing_stable_openMap :
    openMap.access ⟨5⟩ ⟨6⟩ Span.origin Span.origin = .ok .bool ∧ Changes openMap stringMap ∧
      stringMap.access ⟨5⟩ ⟨6⟩ Span.origin Span.origin = .ok .bool ∧ stringMap.same ⟨6⟩ ⟨4⟩ = .ok true := by
  have hclash : (Change.unify ⟨4⟩ ⟨5⟩).run openMap = .ok openMap := by decide
  have hbind : (Change.unify ⟨4⟩ .string).run openMap = .ok stringMap := by decide
  have hself : (Change.unify ⟨4⟩ ⟨5⟩).Inside openMap := ⟨by decide, by decide⟩
  have hstring : (Change.unify ⟨4⟩ .string).Inside openMap := ⟨by decide, by decide⟩
  have hchanges : Changes openMap stringMap := .next (.next .refl hself hclash) hstring hbind
  have hopen : openMap.access ⟨5⟩ ⟨6⟩ Span.origin Span.origin = .ok .bool := by rfl
  obtain ⟨hafter, -, -⟩ := grounded_openMap.indexing_stable (by decide)
  obtain ⟨haccess, hsame⟩ := hafter stringMap hchanges
  exact ⟨hopen, hchanges, (haccess _ _ _ _ _ hopen).1 _ _, hsame _ _ (by decide)⟩

end Store

end TypeInference
