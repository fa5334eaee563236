import TypeInference.Proofs.Scope.Chain

/-!
# `Proofs.Scope.Lexical` — the tables on the way out of a scope

The way out of a scope meets one table after another. `Chain` lists them, the scope's own table first, and
says all that looking up a name depends on: what is found is the entry of the first table that has the name,
and `Innermost` is that condition, said of the list alone.

Main statement: `Chain.lookup_eq_ok`.
-/

namespace TypeInference

namespace Scopes

variable {g : Scopes} {id : ScopeId} {frames : List Table} {name : String}

/-! ## Chains of tables -/

/-- The tables on the way out of a scope, up to a scope with nothing around it. It is a relation, so it says nothing
    of scopes whose way out is broken or does not end. -/
inductive Chain (g : Scopes) : ScopeId → List Table → Prop
  | outermost {id : ScopeId} {table : Table} : g.scopeAt id = some ⟨none, table⟩ → Chain g id [table]
  | inside {id parent : ScopeId} {table : Table} {frames : List Table} :
      g.scopeAt id = some ⟨some parent, table⟩ → Chain g parent frames → Chain g id (table :: frames)

/-- What is found for a name is the entry of the first table that has one, in the scope of that table. The owner is
    described by its own chain, the rest of the list, so that no numbers have to be spoken of. -/
def Innermost (g : Scopes) (frames : List Table) (name : String) : Option (ScopeId × Symbol) → Prop
  | none => ∀ table ∈ frames, table.find? name = none
  | some (owner, symbol) => ∃ nearer table further, frames = nearer ++ table :: further ∧
      (∀ other ∈ nearer, other.find? name = none) ∧ table.find? name = some symbol ∧
        g.Chain owner (table :: further)

/-! ## What is found along a chain -/

theorem Innermost.pass {table : Table} (hnone : table.find? name = none) {found : Option (ScopeId × Symbol)}
    (h : g.Innermost frames name found) : g.Innermost (table :: frames) name found := by
  cases found with
  | none => exact List.forall_mem_cons.mpr ⟨hnone, h⟩
  | some found =>
    obtain ⟨nearer, other, further, rfl, hnearer, hother, hchain⟩ := h
    exact ⟨table :: nearer, other, further, rfl, List.forall_mem_cons.mpr ⟨hnone, hnearer⟩, hother, hchain⟩

/-- What is found is the first entry that a table has, so two scopes with one chain give a name the same symbol. -/
theorem Innermost.findSome?_eq {found : Option (ScopeId × Symbol)} (h : g.Innermost frames name found) :
    frames.findSome? (·.find? name) = found.map Prod.snd := by
  cases found with
  | none => exact List.findSome?_eq_none_iff.mpr h
  | some found =>
    obtain ⟨nearer, table, further, rfl, hnearer, hfound, -⟩ := h
    rw [List.findSome?_append, List.findSome?_eq_none_iff.mpr hnearer, List.findSome?_cons_of_isSome (by simp [hfound])]
    exact hfound

/-- By induction on the chain, with the recursion of looking up: the first table has the name, or it is passed over. -/
theorem Chain.lookupWithin_eq_ok (ho : g.Ordered) (h : g.Chain id frames) (name : String) :
    ∀ {fuel : Nat}, id.index < fuel →
      ∃ found, g.lookupWithin name fuel id = .ok found ∧ g.Innermost frames name found := by
  -- Numbers fall along the chain, so a scope's number bounds the steps that are left.
  induction h with
  | @outermost id table hscope =>
    intro fuel hfuel
    obtain ⟨fuel, rfl⟩ := Nat.exists_eq_succ_of_ne_zero (Nat.ne_zero_of_lt hfuel)
    have hget := get_eq_ok_iff_scopeAt.mpr hscope
    cases hfind : table.find? name with
    | some symbol =>
      refine ⟨some (id, symbol), by simp [lookupWithin, hget, hfind], [], table, [], rfl, ?_, hfind, ?_⟩
      · simp
      · exact .outermost hscope
    | none => exact ⟨none, by simp [lookupWithin, hget, hfind], by simpa [Innermost] using hfind⟩
  | @inside id parent table frames hscope hchain ih =>
    intro fuel hfuel
    obtain ⟨fuel, rfl⟩ := Nat.exists_eq_succ_of_ne_zero (Nat.ne_zero_of_lt hfuel)
    have hget := get_eq_ok_iff_scopeAt.mpr hscope
    have hlt : parent.index < id.index := ho id parent (by simp [parentOf, hscope])
    cases hfind : table.find? name with
    | some symbol =>
      refine ⟨some (id, symbol), by simp [lookupWithin, hget, hfind], [], table, frames, rfl, ?_, hfind, ?_⟩
      · simp
      · exact .inside hscope hchain
    | none =>
      obtain ⟨found, hfound, hinner⟩ := @ih fuel (by omega)
      exact ⟨found, by simp [lookupWithin, hget, hfind, hfound], hinner.pass hfind⟩

theorem Chain.lt (h : g.Chain id frames) : id.index < g.size := by
  cases h with
  | outermost hscope | inside hscope _ => exact lt_of_scopeAt hscope

/-- **Looking up a name** finds the innermost entry, or nothing when no table has one. -/
theorem Chain.lookup_eq_ok (ho : g.Ordered) (h : g.Chain id frames) (name : String) :
    ∃ found, g.lookup id name = .ok found ∧ g.Innermost frames name found :=
  h.lookupWithin_eq_ok ho name (Nat.lt_succ_of_lt h.lt)

end Scopes

end TypeInference
