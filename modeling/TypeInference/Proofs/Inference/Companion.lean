import TypeInference.Proofs.Inference.Parts
import TypeInference.Proofs.Scope.Relocation
import TypeInference.Proofs.Ty.Between

/-!
# `Proofs.Inference.Companion` — a run beside one that has ended

A program that has been accepted is looked at once more. The second run, the *companion*, stands in scopes at other
places and begins with a store that knows more, namely what the first run has found out. It is followed step by
step: at each stage of the first run, the companion's store lies between the store there and the store `F` with
which the first run ends. So the companion does what the first run did, and `F` shows that it cannot be refused.

The first run is not looked at from its beginning but from its end: a step is only followed when `F` is known to
come after it. A run is therefore taken apart into its steps first (`Allows.exists_of_run`), and the companion's
run is put together afterwards (`Echoed.bind`).

## Contents
* `Companion`, `Companion.Le`, `Beside` — companions, and where they stand;
* `Echoed` — a computation of the companion that ends beside the first run, with `Echoed.bind`;
* `Beside.create`, `Beside.unifyOr`, `Beside.instantiate`, `Beside.access` — steps on the store;
* `Beside.resolve`, `Beside.setType`, `Beside.declaredType` — steps on the scopes;
* `Beside.withFrame`, `Beside.markReturned` — steps on the open functions.
-/

namespace TypeInference

open Store Scopes InferM

/-! ## Two runs

The first run has ended; of the second one, everything that it is asked to do is to be shown to end. -/

/-- The state of the second run, and the types of the first run that are linked with types of the second. The links
    are no part of what is computed; they say what the two runs have in common. -/
structure Companion where
  links : Links
  state : Inference

/-- What a companion keeps: its links, its types, and the types that its names have. Everything else about it may
    change. -/
structure Companion.Le (w w' : Companion) : Prop where
  links : w.links ≤ w'.links
  size_le : w.state.types.size ≤ w'.state.types.size
  kept : ∀ {id name ty}, w.state.scopes.typeAt id name = some ty → w'.state.scopes.typeAt id name = some ty

namespace Companion.Le

variable {w w' w'' : Companion}

theorem refl (w : Companion) : w.Le w := ⟨le_rfl, le_rfl, id⟩

theorem trans (h : w.Le w') (h' : w'.Le w'') : w.Le w'' :=
  ⟨h.links.trans h'.links, h.size_le.trans h'.size_le, fun hty => h'.kept (h.kept hty)⟩

theorem link (h : w.Le w') {a b : TypeId} (hab : w.links a b) : w'.links a b := h.links a b hab

theorem all (h : w.Le w') {as bs : List TypeId} (hlinks : List.Forall₂ w.links as bs) :
    List.Forall₂ w'.links as bs :=
  Links.all_mono h.links hlinks

end Companion.Le

/-- The companion `w` stands beside the first run at `s`, which ends with the store `F`. Of the open functions,
    results are linked, and the companion knows of the same ones that they return. -/
structure Beside (R : Relocation) (F : Store) (s : Inference) (w : Companion) : Prop where
  types : Between w.links s.types w.state.types F
  scopes : R.Moved w.links s.scopes w.state.scopes
  frames : List.Forall₂ (fun frame frame' : Frame => w.links frame.result frame'.result ∧
    frame'.returned = frame.returned) s.frames w.state.frames

/-! ### Computations of the companion -/

/-- The companion's computation ends, beside the first run at `s`, with a result in `Q`. That it ends, and without a
    refusal, is part of what is said. -/
def Echoed {α : Type} (R : Relocation) (F : Store) (s : Inference) (w : Companion) (m : InferM α)
    (Q : Companion → α → Prop) : Prop :=
  ∃ a w', m w.state = .ok a w'.state ∧ w.Le w' ∧ Beside R F s w' ∧ Q w' a

variable {R : Relocation} {F : Store} {s s' s'' : Inference} {w w' : Companion} {α β : Type}

namespace Echoed

variable {m : InferM α} {next : α → InferM β} {Q Q' : Companion → α → Prop} {P : Companion → β → Prop}

theorem pure {a : α} (hb : Beside R F s w) (hQ : Q w a) : Echoed R F s w (pure a) Q :=
  ⟨a, w, rfl, .refl w, hb, hQ⟩

/-- Less may be said of the result. Links and types that the companion has kept may be used for it. -/
theorem mono (h : Echoed R F s w m Q) (hQ : ∀ w' a, w.Le w' → Q w' a → Q' w' a) : Echoed R F s w m Q' := by
  obtain ⟨a, w', hrun, hle, hb, hafter⟩ := h
  exact ⟨a, w', hrun, hle, hb, hQ w' a hle hafter⟩

/-- **One step, then the rest.** The first run has moved on to `s'` by the time the rest begins. -/
theorem bind (h : Echoed R F s w m Q)
    (hnext : ∀ a w', w.Le w' → Beside R F s w' → Q w' a → Echoed R F s' w' (next a) P) :
    Echoed R F s' w (m >>= next) P := by
  obtain ⟨a, w', hrun, hle, hb, hafter⟩ := h
  obtain ⟨b, w'', hrun', hle', hb', hafter'⟩ := hnext a w' hle hb hafter
  exact ⟨b, w'', (run_bind_of_ok hrun).trans hrun', hle.trans hle', hb', hafter'⟩

/-- A step that leaves the companion where it is, then the rest. -/
theorem skip {a : α} (hrun : m w.state = .ok a w.state) (h : Echoed R F s w (next a) P) :
    Echoed R F s w (m >>= next) P := by
  obtain ⟨b, w', hrun', hafter⟩ := h
  exact ⟨b, w', (run_bind_of_ok hrun).trans hrun', hafter⟩

end Echoed

/-- **A run that was allowed is taken apart** at its first step, with what the guard promises of the step. The first
    run is always taken apart in this way, as it is known to have ended. -/
theorem Guard.Allows.exists_of_run {G : Guard} {r : Bool} {m : InferM α} {next : α → InferM β}
    {Q : α → Inference → Prop} {b : β} (h : G.Allows r m s Q) (hrun : (m >>= next) s = .ok b s'') :
    ∃ a s', m s = .ok a s' ∧ G.Step r s s' ∧ Q a s' ∧ next a s' = .ok b s'' := by
  obtain ⟨a, s', hfirst, hrest⟩ := exists_of_run_bind hrun
  obtain ⟨hs, hQ⟩ := h.ok hfirst
  exact ⟨a, s', hfirst, hs, hQ, hrest⟩

/-! ## Access -/

/-- What is known of a type and of an index when the type has a component there. The three cases are those of the
    check, which asks for different things of the index. -/
inductive Store.Accesses (types : Store) (left index : TypeId) : TypeId → Prop
  | string {args : List TypeId} : types.operator? left = .ok (some (.string, args)) → Accesses types left index .string
  | list {element : TypeId} : types.operator? left = .ok (some (.list, [element])) →
      types.hasConstructor .number index = .ok true → Accesses types left index element
  | map {key value : TypeId} : types.operator? left = .ok (some (.map, [key, value])) →
      types.same index key = .ok true → Accesses types left index value

/-- A check that has given a component has found one of the three cases. -/
theorem Store.accesses_of_access_eq_ok {types : Store} {left index ty : TypeId} {span indexSpan : Span}
    (h : types.access left index span indexSpan = .ok ty) : types.Accesses left index ty := by
  obtain ⟨found, hfound, h⟩ := exists_of_bind_eq_ok h
  have hoperator := Halt.ofQuery_eq_ok.mp hfound
  have hrefused : ∀ {cause : String → Cause} {shown : TypeId} {place : Span},
      types.refuseShowing cause shown place ≠ .ok ty := by
    intro cause shown place hok
    obtain ⟨_, -, hok⟩ := exists_of_bind_eq_ok hok
    cases hok
  split at h
  · cases h
    exact .string hoperator
  · obtain ⟨isNumber, hnumber, h⟩ := exists_of_bind_eq_ok h
    cases isNumber with
    | true =>
      cases h
      exact .list hoperator (Halt.ofQuery_eq_ok.mp hnumber)
    | false => exact absurd h hrefused
  · obtain ⟨isKey, hkey, h⟩ := exists_of_bind_eq_ok h
    cases isKey with
    | true =>
      cases h
      exact .map hoperator (Halt.ofQuery_eq_ok.mp hkey)
    | false =>
      obtain ⟨_, -, h⟩ := exists_of_bind_eq_ok h
      exact absurd h hrefused
  · exact absurd h hrefused

/-- In each of the three cases the check gives the component, whatever the places for its messages are. -/
theorem Store.Accesses.access_eq_ok {types : Store} {left index ty : TypeId} {span indexSpan : Span}
    (h : types.Accesses left index ty) : types.access left index span indexSpan = .ok ty := by
  cases h with
  | string hoperator => simp [access, hoperator, Halt.ofQuery]
  | list hoperator hnumber => simp [access, hoperator, hnumber, Halt.ofQuery]
  | map hoperator hsame => simp [access, hoperator, hsame, Halt.ofQuery]

/-! ## New types -/

/-- A new constructor extends the store, by a step without bindings. -/
theorem evolves_of_operator {hidden : Set TypeId} (hwf : s.types.WellFormed) {con : Constructor} {args : List TypeId}
    {ty : TypeId} (hfits : con.Takes args.length) (hargs : ∀ a ∈ args, a.index < s.types.size)
    (hrun : InferM.create (Store.operator con args) s = .ok ty s') : Evolves hidden s.types s'.types := by
  cases hrun
  exact evolves_allocate hwf hfits hargs

theorem evolves_of_function {hidden : Set TypeId} (hwf : s.types.WellFormed) {params : List TypeId}
    {result ty : TypeId} (hparams : ∀ a ∈ params, a.index < s.types.size) (hresult : result.index < s.types.size)
    (hrun : InferM.create (Store.function params result) s = .ok ty s') : Evolves hidden s.types s'.types :=
  evolves_of_operator hwf (by simp [Constructor.Takes])
    (List.forall_mem_append.mpr ⟨hparams, List.forall_mem_singleton.mpr hresult⟩) hrun

namespace Beside

variable {hidden : Set TypeId} {a a' b b' ty ty' : TypeId} {u : Unit} {id : ScopeId} {name : String}

/-! ## The store -/

/-- The companion's store goes on lying between after its store has changed. Scopes and open functions are not
    touched, and links only get more. -/
theorem withTypes (hb : Beside R F s w) {types types' : Store} {links : Links} (hle : w.links ≤ links)
    (htypes : Between links types types' F) :
    Beside R F { s with types } ⟨links, { w.state with types := types' }⟩ where
  types := htypes
  scopes := hb.scopes.mono hle
  frames := hb.frames.imp fun _ _ h => ⟨hle _ _ h.1, h.2⟩

/-- A primitive type is linked with itself: it has the same number in both stores. -/
theorem primitive (hb : Beside R F s w) {node : Node} (hget : initial.get ty = .ok node) : w.links ty ty :=
  hb.types.primitive hget

/-- **A new type** on both sides. It is linked with its counterpart, which has the number that is next in the
    companion's store. -/
theorem create (hb : Beside R F s w) (hwf : s.types.WellFormed) {make make' : Store → TypeId × Store}
    {node node' : Node} (hmake : make s.types = s.types.allocate node)
    (hmake' : make' w.state.types = w.state.types.allocate node') (hnode : node.Linked w.links node')
    (hfits : node.Fits) (hrun : InferM.create make s = .ok ty s') (hF : Evolves hidden s'.types F) :
    Echoed R F s' w (InferM.create make') fun w' ty' => w'.links ty ty' ∧ ty' = ⟨w.state.types.size⟩ := by
  rw [create_run, hmake] at hrun
  cases hrun
  have hbetween := hb.types.allocate hwf hnode hfits hF
  refine ⟨_, ⟨w.links.add ⟨s.types.size⟩ ⟨w.state.types.size⟩,
    { w.state with types := (w.state.types.allocate node').2 }⟩, by rw [create_run, hmake']; rfl,
    ⟨Links.le_add, ?_, fun hty => hty⟩, hb.withTypes Links.le_add hbetween, Links.add_self, rfl⟩
  show w.state.types.size ≤ (w.state.types.allocate node').2.size
  rw [Store.size_allocate]
  exact Nat.le_succ _

/-! ### Types made on both sides -/

theorem newVar (hb : Beside R F s w) (hwf : s.types.WellFormed)
    (hrun : InferM.create Store.newVar s = .ok ty s') (hF : Evolves hidden s'.types F) :
    Echoed R F s' w (InferM.create Store.newVar) fun w' ty' => w'.links ty ty' :=
  (hb.create hwf rfl rfl .var trivial hrun hF).mono fun _ _ _ => And.left

/-- A new constructor is linked with one that has linked components. -/
theorem operator (hb : Beside R F s w) (hwf : s.types.WellFormed) {con : Constructor} {args args' : List TypeId}
    (hfits : con.Takes args.length) (hargs : List.Forall₂ w.links args args')
    (hrun : InferM.create (Store.operator con args) s = .ok ty s') (hF : Evolves hidden s'.types F) :
    Echoed R F s' w (InferM.create (Store.operator con args')) fun w' ty' => w'.links ty ty' :=
  (hb.create hwf rfl rfl (.op hargs) hfits hrun hF).mono fun _ _ _ => And.left

/-- A new function type is linked with one that has linked parts. -/
theorem function (hb : Beside R F s w) (hwf : s.types.WellFormed) {params params' : List TypeId}
    (hparams : List.Forall₂ w.links params params') (hresult : w.links a a')
    (hrun : InferM.create (Store.function params a) s = .ok ty s') (hF : Evolves hidden s'.types F) :
    Echoed R F s' w (InferM.create (Store.function params' a')) fun w' ty' => w'.links ty ty' :=
  hb.operator hwf (by simp [Constructor.Takes]) (List.rel_append hparams (.cons hresult .nil)) hrun hF

/-! ### Unification, instances and components -/

/-- **Unification** cannot be refused: the final store has the two types equal, so what the companion unifies with
    less knowledge has a solution. -/
theorem unifyOr (hb : Beside R F s w) (hwf : s.types.WellFormed) {refusal refusal' : Clash → Diagnostic}
    (ha : w.links a a') (hb' : w.links b b') (hrun : InferM.unifyOr refusal a b s = .ok u s')
    (hF : Evolves hidden s'.types F) :
    Echoed R F s' w (InferM.unifyOr refusal' a' b') fun _ _ => True := by
  obtain ⟨types, hunify, rfl⟩ := exists_of_unifyOr_eq_ok hrun
  obtain ⟨types', hunify', hsize, hbetween⟩ := hb.types.unify hwf ha hb' hunify hF
  exact ⟨(), ⟨w.links, { w.state with types := types' }⟩, unifyOr_of_ok hunify',
    ⟨le_rfl, hsize.ge, fun hty => hty⟩, hb.withTypes le_rfl hbetween, trivial⟩

/-- Unification with the usual refusal cannot be refused either. -/
theorem unify (hb : Beside R F s w) (hwf : s.types.WellFormed) {span span' : Span} (ha : w.links a a')
    (hb' : w.links b b') (hrun : InferM.unify span a b s = .ok u s') (hF : Evolves hidden s'.types F) :
    Echoed R F s' w (InferM.unify span' a' b') fun _ _ => True :=
  hb.unifyOr hwf ha hb' hrun hF

/-- **An instance** on both sides. The variables of the type are hidden or pinned, and pinned types are linked with
    pinned types, so the two instances are linked. -/
theorem instantiate {G : Guard} {pinned pinned' : List TypeId} (hb : Beside R F s w) (h : G.Admits s)
    (hpinned : ∀ p ∈ pinned, s.types.Clear G.hidden p) (hcovered : s.types.Covered G.hidden pinned a)
    (hpins : List.Forall₂ w.links pinned pinned') (ha : w.links a a')
    (hrun : InferM.instantiate pinned a s = .ok ty s') (hF : Evolves G.hidden s'.types F) :
    Echoed R F s' w (InferM.instantiate pinned' a') fun w' ty' => w'.links ty ty' := by
  obtain ⟨hs, -, -, hinstance⟩ := (h.instantiate (r := false) hpinned hcovered.1).ok hrun
  rw [instantiate_run] at hrun
  cases hcopy : s.types.instantiate pinned a with
  | error fault => rw [hcopy] at hrun; cases hrun
  | ok made =>
    rw [hcopy] at hrun
    cases hrun
    obtain ⟨copy', types', hcopy', hle, hbetween⟩ :=
      hb.types.instantiate h.wf ha hpins hpinned hcopy hs.types hF (hinstance hcovered F hF)
    refine ⟨copy', ⟨w.links.add made.1 copy', { w.state with types := types' }⟩,
      by rw [instantiate_run, hcopy']; rfl, ⟨Links.le_add, hle, fun hty => hty⟩, hb.withTypes Links.le_add hbetween,
      Links.add_self⟩

/-- **A component** that the first run has found is found, as linked types have linked components and equal ones
    have equal counterparts. -/
theorem access (hb : Beside R F s w) (hwf : s.types.WellFormed) {span span' indexSpan indexSpan' : Span}
    (ha : w.links a a') (hb' : w.links b b') (hrun : consult (·.access a b span indexSpan) s = .ok ty s')
    (hF : Evolves hidden s'.types F) :
    Echoed R F s' w (consult (·.access a' b' span' indexSpan')) fun w' ty' => w'.links ty ty' := by
  rw [consult_run] at hrun
  cases haccess : s.types.access a b span indexSpan with
  | error reason => rw [haccess] at hrun; cases hrun
  | ok found =>
    rw [haccess] at hrun
    cases hrun
    -- The companion knows the accessed type, and what the first run knows of the index.
    have hdone : ∀ {ty' links}, w.state.types.Accesses a' b' ty' → w.links ≤ links →
        Between links s.types w.state.types F → links ty ty' →
        Echoed R F s w (consult (·.access a' b' span' indexSpan')) fun w' ty' => w'.links ty ty' := by
      intro ty' links haccess' hle hbetween hlink
      refine ⟨ty', ⟨links, w.state⟩, ?_, ⟨hle, le_rfl, fun hty => hty⟩, hb.withTypes hle hbetween, hlink⟩
      rw [consult_run, haccess'.access_eq_ok]
      rfl
    cases accesses_of_access_eq_ok haccess with
    | string hoperator =>
      obtain ⟨args', links, hoperator', hle, hbetween, -⟩ := hb.types.operator? hwf hF ha hoperator
      exact hdone (.string hoperator') hle hbetween (hle _ _ (hb.types.primitive rfl))
    | list hoperator hnumber =>
      obtain ⟨args', links, hoperator', hle, hbetween, hargs⟩ := hb.types.operator? hwf hF ha hoperator
      obtain ⟨element', _, hlink, hnil, rfl⟩ := List.forall₂_cons_left_iff.mp hargs
      obtain rfl := List.forall₂_nil_left_iff.mp hnil
      exact hdone (.list hoperator' (hb.types.hasConstructor hwf hF hb' hnumber)) hle hbetween hlink
    | map hoperator hsame =>
      obtain ⟨args', links, hoperator', hle, hbetween, hargs⟩ := hb.types.operator? hwf hF ha hoperator
      obtain ⟨key', _, hkey, hrest, rfl⟩ := List.forall₂_cons_left_iff.mp hargs
      obtain ⟨value', _, hlink, hnil, rfl⟩ := List.forall₂_cons_left_iff.mp hrest
      obtain rfl := List.forall₂_nil_left_iff.mp hnil
      exact hdone (.map hoperator' (hbetween.same hwf (hle _ _ hb') hkey hsame)) hle hbetween hlink

/-! ## The scopes -/

/-- **A name** means what it means, in the scope that has moved. -/
theorem resolve (hb : Beside R F s w) {scope : ScopeId} {name : Ident} {owner : ScopeId} {symbol : Symbol}
    (hlookup : s.scopes.lookup scope name.name = .ok (some (owner, symbol))) :
    ∃ symbol', InferM.resolve (R.move scope) name w.state = .ok (R.move owner, symbol') w.state ∧
      R.Twins w.links owner name.name symbol symbol' := by
  obtain ⟨symbol', hlookup', htwins⟩ := hb.scopes.lookup hlookup
  refine ⟨symbol', ?_, htwins⟩
  rw [resolve_run, Scopes.resolve, hlookup']
  rfl

/-- **A change of a symbol** on both sides, which takes no type away and keeps the two symbols twins. -/
theorem update (hb : Beside R F s w) {change : Symbol → Symbol} (change' : Symbol → Symbol)
    (hrun : InferM.update id name change s = .ok u s')
    (hchange : ∀ {symbol symbol'}, R.Twins w.links id name symbol symbol' →
      R.Twins w.links id name (change symbol) (change' symbol'))
    (hkept : ∀ symbol' ty, w.state.scopes.symbolAt (R.move id) name = some symbol' → symbol'.ty = some ty →
      (change' symbol').ty = some ty) :
    Echoed R F s' w (InferM.update (R.move id) name change') fun w' _ =>
      w'.state.scopes.symbolAt (R.move id) name = (w.state.scopes.symbolAt (R.move id) name).map change' := by
  rw [update_run] at hrun
  cases hupdate : s.scopes.update id name change with
  | error fault => rw [hupdate] at hrun; cases hrun
  | ok scopes =>
    rw [hupdate] at hrun
    cases hrun
    obtain ⟨scopes', hupdate', hmoved⟩ := hb.scopes.update hchange hupdate
    refine ⟨(), ⟨w.links, { w.state with scopes := scopes' }⟩, by rw [update_run, hupdate']; rfl,
      ⟨le_rfl, le_rfl, fun {other key ty} hty => ?_⟩, ⟨hb.types, hmoved, hb.frames⟩,
      (symbolAt_of_update hupdate' _ _).trans (if_pos ⟨rfl, rfl⟩)⟩
    obtain ⟨symbol', hsymbol', hsty⟩ := Option.bind_eq_some_iff.mp hty
    show scopes'.typeAt other key = some ty
    rw [typeAt, symbolAt_of_update hupdate']
    split
    · next he =>
      obtain ⟨rfl, rfl⟩ := he
      rw [hsymbol', Option.map_some, Option.bind_some, hkept symbol' ty hsymbol' hsty]
    · exact hty

/-- **A name without a type** gets one. Since the two symbols are twins, the companion's has none either. -/
theorem setType (hb : Beside R F s w) {symbol : Symbol} (hsymbol : s.scopes.symbolAt id name = some symbol)
    (hnone : s.scopes.typeAt id name = none) (hty : w.links ty ty')
    (hrun : InferM.setType id name ty s = .ok u s') :
    Echoed R F s' w (InferM.setType (R.move id) name ty') fun w' _ =>
      w'.state.scopes.typeAt (R.move id) name = some ty' := by
  have hid := lt_of_symbolAt hsymbol
  have hnone' := none_of_rel (hb.scopes.typeAt hid name) hnone
  obtain ⟨symbol', hsymbol', -⟩ := exists_of_rel (hb.scopes.symbolAt hid name) hsymbol
  rw [InferM.setType] at hrun ⊢
  refine (hb.update ({ · with ty := some ty' }) hrun ?_ ?_).mono fun w' _ _ hafter => ?_
  · exact fun htwins => ⟨htwins.kind_eq, htwins.mutable_eq, htwins.initialized_eq, .some hty⟩
  · intro symbol'' old hsymbol'' hold
    rw [typeAt_of_symbolAt hsymbol'' hold] at hnone'
    cases hnone'
  · rw [typeAt, hafter, hsymbol']
    rfl

theorem setInitialized (hb : Beside R F s w)
    (hrun : InferM.update id name ({ · with initialized := true }) s = .ok u s') :
    Echoed R F s' w (InferM.update (R.move id) name ({ · with initialized := true })) fun _ _ => True := by
  refine (hb.update ({ · with initialized := true }) hrun ?_ ?_).mono fun _ _ _ _ => trivial
  · exact fun htwins => ⟨htwins.kind_eq, htwins.mutable_eq, fun _ => .inl rfl, htwins.ty⟩
  · exact fun _ _ _ hold => hold

/-- The type of a declared name is linked with that of the name in the scope that has moved. -/
theorem declaredType (hb : Beside R F s w) (hty : s.scopes.typeAt id name = some ty) :
    ∃ ty', InferM.declaredType (R.move id) name w.state = .ok ty' w.state ∧ w.links ty ty' := by
  obtain ⟨symbol, hsymbol, -⟩ := Option.bind_eq_some_iff.mp hty
  obtain ⟨ty', hty', hlink⟩ := hb.scopes.exists_typeAt hty
  exact ⟨ty', Guard.declaredType_eq_ok (hb.scopes.lt (lt_of_symbolAt hsymbol)) hty', hlink⟩

/-! ## The open functions -/

/-- What the innermost open function has to give back is linked with its counterpart. -/
theorem expectedResult (hb : Beside R F s w) {expected : TypeId} (hexpected : s.expected = some expected) :
    ∃ expected', expectedResult? w.state = .ok (some expected') w.state ∧ w.links expected expected' := by
  have hframes := hb.frames
  rw [Inference.expected] at hexpected
  cases hs : s.frames with
  | nil => rw [hs] at hexpected; cases hexpected
  | cons frame frames =>
    rw [hs] at hexpected hframes
    cases hexpected
    obtain ⟨frame', frames', hframe, -, he⟩ := List.forall₂_cons_left_iff.mp hframes
    refine ⟨frame'.result, ?_, hframe.1⟩
    show EStateM.Result.ok (w.state.frames.head?.map Frame.result) w.state = _
    rw [he]
    rfl

/-- The innermost open function returns, on both sides. -/
theorem markReturned (hb : Beside R F s w) (hrun : InferM.markReturned s = .ok u s') :
    Echoed R F s' w InferM.markReturned fun _ _ => True := by
  have hafter : ∀ t : Inference, InferM.markReturned t = .ok () { t with frames := returned t.frames } := by
    rintro ⟨types, scopes, _ | ⟨frame, frames⟩⟩ <;> rfl
  cases (hafter s).symm.trans hrun
  refine ⟨(), ⟨w.links, { w.state with frames := returned w.state.frames }⟩, hafter w.state,
    ⟨le_rfl, le_rfl, fun hty => hty⟩, ⟨hb.types, hb.scopes, ?_⟩, trivial⟩
  have hframes := hb.frames
  generalize s.frames = frames, w.state.frames = frames' at hframes
  cases hframes with
  | nil => exact .nil
  | cons hframe hrest => exact .cons ⟨hframe.1, rfl⟩ hrest

/-- **Inside a function** the companion is inside, too. The body is echoed with the two results in front, and
    whether it returned is the same for both. -/
theorem withFrame (hb : Beside R F s w) {result result' : TypeId} (hresult : w.links result result')
    {body body' : InferM α} {flag : Bool} (hrun : InferM.withFrame result body s = .ok flag s')
    (hbody : ∀ a inner, body { s with frames := ⟨result, false⟩ :: s.frames } = .ok a inner →
      s'.types = inner.types → Beside R F { s with frames := ⟨result, false⟩ :: s.frames }
        ⟨w.links, { w.state with frames := ⟨result', false⟩ :: w.state.frames }⟩ →
      Echoed R F inner ⟨w.links, { w.state with frames := ⟨result', false⟩ :: w.state.frames }⟩ body'
        fun _ _ => True) :
    Echoed R F s' w (InferM.withFrame result' body') fun _ flag' => flag' = flag := by
  rw [InferM.withFrame] at hrun
  cases hinner : body { s with frames := ⟨result, false⟩ :: s.frames } with
  | error reason inner => rw [hinner] at hrun; cases hrun
  | ok a inner =>
    rw [hinner] at hrun
    cases hrun
    obtain ⟨b, w', hrun', hle, hb', -⟩ := hbody a inner hinner rfl
      ⟨hb.types, hb.scopes, .cons ⟨hresult, rfl⟩ hb.frames⟩
    refine ⟨hasReturned w'.state.frames, ⟨w'.links, { w'.state with frames := w'.state.frames.tail }⟩,
      InferM.withFrame_of_ok hrun', ⟨hle.links, hle.size_le, hle.kept⟩, ⟨hb'.types, hb'.scopes, ?_⟩, ?_⟩
    · have hframes := hb'.frames
      show List.Forall₂ _ inner.frames.tail w'.state.frames.tail
      generalize inner.frames = frames, w'.state.frames = frames' at hframes
      cases hframes with
      | nil => exact .nil
      | cons _ hrest => exact hrest
    · have hframes := hb'.frames
      generalize inner.frames = frames, w'.state.frames = frames' at hframes
      cases hframes with
      | nil => rfl
      | cons hframe _ => exact hframe.2

end Beside

end TypeInference
