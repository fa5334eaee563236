import Mathlib
import TypeInference.Proofs.Ty.Tree

/-!
# `Proofs.Ty.Display` — the text of a type says which type it is

A displayed text is the text of the type's tree, and trees can be read back from their texts: the first character
tells a variable, a list, a function and a name apart from each other and from maps and tuples, the second one maps
from tuples, and every component ends where a comma, a colon or a closing bracket stands. The digits of a variable
and the characters of a name go on for as long as they can, so nothing that ends a component may be part of a name.

Reading back is said without a parser. A tree is *unambiguous* when its text, followed by anything that may follow a
component, is the text of no other tree followed by anything else that may.

## Contents
* `punctuation`, `LegibleName`, `Constructor.Legible`, `Store.Legible` — names and stores whose texts can be read;
* `Tree.text`, with one equation for each form of tree;
* `Tree.Legible`, `Tree.Unambiguous`, `Tree.Legible.unambiguous` — trees can be read back;
* `Grounded.display_eq` — the text of a type is that of its tree;
* `Grounded.display_eq_iff_same` — the main result.
-/

namespace TypeInference

/-! ## What can be read -/

/-- The characters with which components are opened and closed, and kept apart. A name that held one of them could
    end too early when it is read. -/
def punctuation : List Char := ['?', '\x7b', '\x7d', '#', '(', ')', '&', '<', '>', ',', ':']

/-- The characters before which a component can end. They are punctuation themselves, but only some of it: no
    component ends before an opening bracket. -/
def closers : List Char := [',', ':', '\x7d', ')', '>']

/-- A name that can be read: it is not empty, holds no punctuation, and is no name of a primitive type. Letters,
    digits and underscores make such names. -/
structure LegibleName (name : String) : Prop where
  nonempty : name ≠ ""
  plain : ∀ c ∈ name.toList, c ∉ punctuation
  apart : name ∉ ["Number", "Bool", "String", "Unit"]

/-- A constructor that can be read with so many components. The counts are those that constructors take, except that
    a named type may have any, for they are all displayed. -/
def Constructor.Legible : Constructor → Nat → Prop
  | .number, count | .bool, count | .string, count | .unit, count => count = 0
  | .list, count => count = 1
  | .map, count => count = 2
  | .tuple arity, count => count = arity
  | .function, count => 0 < count
  | .named name, _ => LegibleName name

/-- A node that can be read: a variable, or a constructor that can be read with so many components. -/
def Node.Legible : Node → Prop
  | .var _ => True
  | .op con args => con.Legible args.length

/-- All constructors of the store can be read. It is asked of the whole store, so that the condition does not depend
    on the type that is displayed. -/
def Store.Legible (s : Store) : Prop := ∀ {id : TypeId} {node : Node}, s.get id = .ok node → node.Legible

theorem legibleName_iff {name : String} : LegibleName name ↔ name ≠ "" ∧
    (name.toList.all fun c => decide (c ∉ punctuation)) = true ∧ name ∉ ["Number", "Bool", "String", "Unit"] := by
  simp only [List.all_eq_true, decide_eq_true_iff]
  exact ⟨fun h => ⟨h.nonempty, h.plain, h.apart⟩, fun ⟨hnonempty, hplain, hapart⟩ => ⟨hnonempty, hplain, hapart⟩⟩

instance (name : String) : Decidable (LegibleName name) := decidable_of_iff _ legibleName_iff.symm

instance : ∀ (con : Constructor) (count : Nat), Decidable (con.Legible count)
  | .number, count | .bool, count | .string, count | .unit, count => inferInstanceAs (Decidable (count = 0))
  | .list, count => inferInstanceAs (Decidable (count = 1))
  | .map, count => inferInstanceAs (Decidable (count = 2))
  | .tuple arity, count => inferInstanceAs (Decidable (count = arity))
  | .function, count => inferInstanceAs (Decidable (0 < count))
  | .named name, _ => inferInstanceAs (Decidable (LegibleName name))

instance : ∀ node : Node, Decidable node.Legible
  | .var _ => inferInstanceAs (Decidable True)
  | .op con args => inferInstanceAs (Decidable (con.Legible args.length))

/-- A store can be read if each of its nodes can. -/
theorem Store.legible_of_nodes {s : Store} (h : ∀ node ∈ s.nodes.toList, node.Legible) : s.Legible := by
  intro id node hget
  obtain ⟨hlt, rfl⟩ := Array.getElem?_eq_some_iff.mp (get_eq_ok_iff.mp hget)
  exact h _ (Array.getElem_mem_toList hlt)

/-- Letters, digits and underscores are no punctuation. -/
theorem not_mem_punctuation {c : Char} (h : c.isAlphanum = true ∨ c = '_') : c ∉ punctuation := by
  have hnone : (punctuation.all fun p => !p.isAlphanum && p != '_') = true := by decide
  intro hmem
  have hc := List.all_eq_true.mp hnone c hmem
  rw [Bool.and_eq_true, Bool.not_eq_true', bne_iff_ne] at hc
  rcases h with hletter | rfl
  · rw [hc.1] at hletter
    cases hletter
  · exact hc.2 rfl

/-- A text of letters and digits holds no punctuation. -/
theorem plain_of_letters {text : String} (h : text.toList.all Char.isAlphanum = true) :
    ∀ c ∈ text.toList, c ∉ punctuation := fun c hc =>
  not_mem_punctuation (.inl (List.all_eq_true.mp h c hc))

/-- A name of letters, digits and underscores can be read. -/
theorem LegibleName.of_alphanum {name : String} (hnonempty : name ≠ "")
    (hletters : ∀ c ∈ name.toList, c.isAlphanum = true ∨ c = '_')
    (hapart : name ∉ ["Number", "Bool", "String", "Unit"]) : LegibleName name :=
  ⟨hnonempty, fun c hc => not_mem_punctuation (hletters c hc), hapart⟩

/-! ## Where a run of characters ends -/

/-- What may follow a component: nothing, or a character before which components end. -/
def Ends (rest : List Char) : Prop := ∀ c ∈ rest.head?, c ∈ closers

theorem ends_nil : Ends [] := fun _ hc => nomatch hc

theorem ends_cons {c : Char} (hc : c ∈ closers) (rest : List Char) : Ends (c :: rest) := by
  rintro _ ⟨⟩
  exact hc

theorem Ends.head?_mem {rest : List Char} (h : Ends rest) : ∀ c ∈ rest.head?, c ∈ punctuation := by
  have hsub : closers ⊆ punctuation := by decide
  exact fun c hc => hsub (h c hc)

/-- Two runs of plain characters that are both followed by punctuation, or by nothing, end at the same place. This
    is how digits and names, which have no closing mark of their own, are told from what follows. -/
theorem append_inj_of_plain : ∀ {xs ys rest rest' : List Char}, (∀ c ∈ xs, c ∉ punctuation) →
    (∀ c ∈ ys, c ∉ punctuation) → (∀ c ∈ rest.head?, c ∈ punctuation) → (∀ c ∈ rest'.head?, c ∈ punctuation) →
    xs ++ rest = ys ++ rest' → xs = ys ∧ rest = rest'
  | [], [], _, _, _, _, _, _, h => ⟨rfl, h⟩
  | [], y :: ys, _, _, _, hys, hrest, _, h => by
    obtain rfl : _ = y :: (ys ++ _) := h
    exact absurd (hrest y rfl) (hys y List.mem_cons_self)
  | x :: xs, [], _, _, hxs, _, _, hrest', h => by
    obtain rfl : x :: (xs ++ _) = _ := h
    exact absurd (hrest' x rfl) (hxs x List.mem_cons_self)
  | x :: xs, y :: ys, _, _, hxs, hys, hrest, hrest', h => by
    obtain ⟨rfl, hmore⟩ := List.cons.inj h
    obtain ⟨rfl, hsame⟩ := append_inj_of_plain (fun c hc => hxs c (List.mem_cons_of_mem _ hc))
      (fun c hc => hys c (List.mem_cons_of_mem _ hc)) hrest hrest' hmore
    exact ⟨rfl, hsame⟩

/-- The digits of a number are no punctuation. -/
theorem plain_digits (n : Nat) : ∀ c ∈ (toString n).toList, c ∉ punctuation := by
  intro c hc
  replace hc : c ∈ n.repr.toList := hc
  rw [Nat.toList_repr] at hc
  have hdigit := Nat.isDigit_of_mem_toDigits (by decide) (by decide) hc
  exact not_mem_punctuation (.inl (by rw [Char.isAlphanum, hdigit, Bool.or_true]))

/-! ## The text of a tree -/

mutual

/-- The text of a tree, made by the same `Constructor.display` that makes the texts of types, so only variables and
    recursion are repeated here. -/
def Tree.text : Tree → String
  | .var v => "?" ++ toString v.index
  | .app con args => con.display (textsOf args)

/-- The texts of trees side by side, one for each tree. -/
def textsOf : List Tree → List String
  | [] => []
  | t :: ts => t.text :: textsOf ts

end

theorem textsOf_eq_map (ts : List Tree) : textsOf ts = ts.map Tree.text := by
  induction ts with
  | nil => rfl
  | cons t ts ih => rw [textsOf, ih, List.map_cons]

/-- The constructors that stand before their components: the primitive types, and the types that have names. All
    others are opened by punctuation. -/
def Constructor.IsWord : Constructor → Prop
  | .number | .bool | .string | .unit => True
  | .named name => LegibleName name
  | .list | .map | .tuple _ | .function => False

/-- Texts in a row after the first one, each of them after a comma. -/
def furtherTexts : List Tree → List Char
  | [] => []
  | t :: ts => ',' :: ' ' :: (t.text.toList ++ furtherTexts ts)

/-- Texts in a row, with commas between them and nothing at either end. -/
def rowText : List Tree → List Char
  | [] => []
  | t :: ts => t.text.toList ++ furtherTexts ts

/-- Components in angle brackets, unless there are none; then nothing is written. -/
def argsText : List Tree → List Char
  | [] => []
  | t :: ts => '<' :: (rowText (t :: ts) ++ ['>'])

/-! ## The text of each form of tree -/

theorem toList_commaSeparated : ∀ ts : List Tree, (commaSeparated (textsOf ts)).toList = rowText ts
  | [] => rfl
  | [t] => by
    rw [textsOf, textsOf, commaSeparated, String.intercalate_singleton, rowText, furtherTexts, List.append_nil]
  | t :: u :: ts => by
    have ih : (commaSeparated (textsOf (u :: ts))).toList = rowText (u :: ts) := toList_commaSeparated (u :: ts)
    rw [commaSeparated, textsOf] at ih
    rw [textsOf, textsOf, commaSeparated, String.intercalate_cons_cons, String.toList_append, String.toList_append, ih,
      rowText, rowText, furtherTexts, List.append_assoc]
    rfl

namespace Tree

theorem text_var (v : TypeId) : (var v).text.toList = '?' :: (toString v.index).toList := by
  rw [text, String.toList_append]
  rfl

theorem text_list (t : Tree) : (app .list [t]).text.toList = '\x7b' :: (t.text.toList ++ ['\x7d']) := by
  rw [text, Constructor.display, String.toList_append, String.toList_append, toList_commaSeparated, rowText,
    furtherTexts, List.append_nil]
  rfl

theorem text_map (key value : Tree) : (app .map [key, value]).text.toList =
    '#' :: '\x7b' :: (key.text.toList ++ ':' :: ' ' :: (value.text.toList ++ ['\x7d'])) := by
  rw [text, Constructor.display, textsOf, textsOf, textsOf, String.intercalate_cons_cons,
    String.intercalate_singleton]
  simp only [String.toList_append, List.append_assoc]
  rfl

theorem text_tuple (arity : Nat) (ts : List Tree) :
    (app (.tuple arity) ts).text.toList = '#' :: '(' :: (rowText ts ++ [')']) := by
  rw [text, Constructor.display, String.toList_append, String.toList_append, toList_commaSeparated]
  rfl

theorem text_function (params : List Tree) (result : Tree) : (app .function (params ++ [result])).text.toList =
    '&' :: '(' :: (rowText params ++ ')' :: ' ' :: '-' :: '>' :: ' ' :: result.text.toList) := by
  have htexts : textsOf (params ++ [result]) = textsOf params ++ [result.text] := by
    rw [textsOf_eq_map, textsOf_eq_map, List.map_append, List.map_singleton]
  rw [text, Constructor.display, htexts, List.dropLast_concat, List.getLast?_concat, Option.getD_some]
  simp only [String.toList_append, toList_commaSeparated, List.append_assoc]
  rfl

theorem text_word {con : Constructor} (hcon : con.IsWord) (ts : List Tree) :
    (app con ts).text.toList = con.text.toList ++ argsText ts := by
  have hdisplay : ∀ items, con.display items =
      if items.isEmpty then con.text else con.text ++ "<" ++ commaSeparated items ++ ">" := by
    cases con <;> first | exact fun _ => rfl | cases hcon
  rw [text, hdisplay]
  cases ts with
  | nil => exact (List.append_nil _).symm
  | cons t ts =>
    rw [textsOf, List.isEmpty_cons, if_neg Bool.false_ne_true, ← textsOf, argsText]
    simp only [String.toList_append, toList_commaSeparated, List.append_assoc]
    rfl

end Tree

/-! ## Words -/

namespace Constructor.IsWord

variable {con con' : Constructor}

/-- A word holds no punctuation. -/
theorem plain (h : con.IsWord) : ∀ c ∈ con.text.toList, c ∉ punctuation := by
  cases con with
  | named name => exact LegibleName.plain h
  | number | bool | string | unit => exact plain_of_letters (by decide)
  | list | map | tuple | function => cases h

/-- A word begins with a character that is no punctuation. -/
theorem exists_cons (h : con.IsWord) : ∃ c cs, con.text.toList = c :: cs ∧ c ∉ punctuation := by
  cases htext : con.text.toList with
  | cons c cs => exact ⟨c, cs, rfl, h.plain c (by rw [htext]; exact List.mem_cons_self)⟩
  | nil =>
    cases con with
    | named name => exact absurd (String.toList_eq_nil_iff.mp htext) (LegibleName.nonempty h)
    | number | bool | string | unit => simp [Constructor.text] at htext
    | list | map | tuple | function => cases h

/-- A word says which constructor it is the text of, because no name that can be read is the name of a primitive
    type. -/
theorem text_injective (h : con.IsWord) (h' : con'.IsWord) (heq : con.text = con'.text) : con = con' := by
  cases con with
  | number | bool | string | unit =>
    cases con' with
    | named name =>
      obtain rfl : _ = name := heq
      exact absurd (by decide) (LegibleName.apart h')
    | number | bool | string | unit => first | rfl | exact absurd heq (by decide)
    | list | map | tuple | function => cases h'
  | named name =>
    cases con' with
    | named name' => exact congrArg Constructor.named heq
    | number | bool | string | unit =>
      obtain rfl : name = _ := heq
      exact absurd (by decide) (LegibleName.apart h)
    | list | map | tuple | function => cases h'
  | list | map | tuple | function => cases h

end Constructor.IsWord

/-! ## Reading trees back -/

/-- A tree whose constructors have their right numbers of components, and names that can be read. -/
inductive Tree.Legible : Tree → Prop
  | var {v : TypeId} : Legible (.var v)
  | word {con : Constructor} {args : List Tree} : con.IsWord → (∀ arg ∈ args, Legible arg) → Legible (.app con args)
  | list {element : Tree} : Legible element → Legible (.app .list [element])
  | map {key value : Tree} : Legible key → Legible value → Legible (.app .map [key, value])
  | tuple {elements : List Tree} :
      (∀ element ∈ elements, Legible element) → Legible (.app (.tuple elements.length) elements)
  | function {params : List Tree} {result : Tree} :
      (∀ param ∈ params, Legible param) → Legible result → Legible (.app .function (params ++ [result]))

namespace Tree

/-! ## What it means to be read back -/

/-- The text of the tree, with something after it that may follow a component, is no other tree's text with
    something after it. What follows has to be part of the statement, for a component is read from the middle of a
    text. -/
def Unambiguous (t : Tree) : Prop :=
  ∀ {u : Tree} {rest rest' : List Char}, u.Legible → Ends rest → Ends rest' →
    t.text.toList ++ rest = u.text.toList ++ rest' → t = u ∧ rest = rest'

/-- What is opened by punctuation is not the text of a word, so words are told apart from all other trees by their
    first character. -/
theorem opening_ne_word {con : Constructor} (hcon : con.IsWord) {args : List Tree} {c : Char} (hc : c ∈ punctuation)
    {cs rest : List Char} : c :: cs ≠ (app con args).text.toList ++ rest := by
  obtain ⟨first, more, htext, hplain⟩ := hcon.exists_cons
  rw [text_word hcon, htext]
  intro heq
  exact hplain ((List.cons.inj heq).1 ▸ hc)

/-- The text of a tree does not begin with a character that ends a component, so a row that has ended is told from
    one that goes on. -/
theorem Legible.exists_cons {t : Tree} (h : t.Legible) : ∃ c cs, t.text.toList = c :: cs ∧ c ∉ closers := by
  cases h with
  | var => exact ⟨_, _, text_var _, by decide⟩
  | list _ => exact ⟨_, _, text_list _, by decide⟩
  | map _ _ => exact ⟨_, _, text_map _ _, by decide⟩
  | tuple _ => exact ⟨_, _, text_tuple _ _, by decide⟩
  | function _ _ => exact ⟨_, _, text_function _ _, by decide⟩
  | word hcon _ =>
    obtain ⟨first, more, htext, hplain⟩ := hcon.exists_cons
    have hsub : closers ⊆ punctuation := by decide
    exact ⟨first, _, by rw [text_word hcon, htext, List.cons_append], fun hmem => hplain (hsub hmem)⟩

/-! ## Rows of components

Maps, tuples and functions, and named types as well, write their components in a row that a bracket closes. -/

section Rows

variable {close : Char} {rest rest' : List Char}

/-- What follows a component in a row may follow it. -/
theorem ends_furtherTexts (hclose : close ∈ closers) (ts : List Tree) : Ends (furtherTexts ts ++ close :: rest) := by
  cases ts with
  | nil => exact ends_cons hclose _
  | cons t ts => exact ends_cons (by decide) _

/-- Further trees in a row can be read back up to the bracket that closes the row. The closing bracket is no comma,
    and so tells the end of the row from a further component. -/
theorem furtherTexts_inj (hclose : close ∈ closers) (hcomma : close ≠ ',') : ∀ {ts us : List Tree},
    (∀ t ∈ ts, t.Unambiguous) → (∀ u ∈ us, u.Legible) →
    furtherTexts ts ++ close :: rest = furtherTexts us ++ close :: rest' → ts = us ∧ rest = rest'
  | [], [], _, _, heq => ⟨rfl, (List.cons.inj heq).2⟩
  | [], _ :: _, _, _, heq => absurd (List.cons.inj heq).1 hcomma
  | _ :: _, [], _, _, heq => absurd (List.cons.inj heq).1.symm hcomma
  | t :: ts, u :: us, hts, hus, heq => by
    obtain ⟨ht, htail⟩ := List.forall_mem_cons.mp hts
    obtain ⟨hu, hutail⟩ := List.forall_mem_cons.mp hus
    simp only [furtherTexts, List.cons_append, List.append_assoc, List.cons.injEq, true_and] at heq
    obtain ⟨rfl, hmore⟩ := ht hu (ends_furtherTexts hclose ts) (ends_furtherTexts hclose us) heq
    obtain ⟨rfl, hsame⟩ := furtherTexts_inj hclose hcomma htail hutail hmore
    exact ⟨rfl, hsame⟩

/-- **Trees in a row** can be read back up to the bracket that closes the row, when each of them can be read back by
    itself. Maps, tuples, functions and named types all contain such rows. -/
theorem rowText_inj (hclose : close ∈ closers) (hcomma : close ≠ ',') {ts us : List Tree}
    (hts : ∀ t ∈ ts, t.Legible ∧ t.Unambiguous) (hus : ∀ u ∈ us, u.Legible)
    (heq : rowText ts ++ close :: rest = rowText us ++ close :: rest') : ts = us ∧ rest = rest' := by
  -- A row that is empty is closed at once, and no tree begins with a closing bracket.
  have hopen : ∀ {t : Tree} {cs cs' : List Char}, t.Legible → t.text.toList ++ cs ≠ close :: cs' := by
    intro t cs cs' ht hfirst
    obtain ⟨first, more, htext, hnot⟩ := ht.exists_cons
    rw [htext] at hfirst
    exact hnot ((List.cons.inj hfirst).1 ▸ hclose)
  cases ts with
  | nil =>
    cases us with
    | nil => exact ⟨rfl, (List.cons.inj heq).2⟩
    | cons u us =>
      rw [rowText, rowText, List.append_assoc] at heq
      exact absurd heq.symm (hopen (hus u List.mem_cons_self))
  | cons t ts =>
    obtain ⟨⟨hlegible, ht⟩, htail⟩ := List.forall_mem_cons.mp hts
    cases us with
    | nil =>
      rw [rowText, rowText, List.append_assoc] at heq
      exact absurd heq (hopen hlegible)
    | cons u us =>
      obtain ⟨hu, hutail⟩ := List.forall_mem_cons.mp hus
      rw [rowText, rowText, List.append_assoc, List.append_assoc] at heq
      obtain ⟨rfl, hmore⟩ := ht hu (ends_furtherTexts hclose ts) (ends_furtherTexts hclose us) heq
      obtain ⟨rfl, hsame⟩ := furtherTexts_inj hclose hcomma (fun v hv => (htail v hv).2) hutail hmore
      exact ⟨rfl, hsame⟩

/-- Components in angle brackets can be read back, also when there are none and the brackets are left out. -/
theorem argsText_inj {ts us : List Tree} (hts : ∀ t ∈ ts, t.Legible ∧ t.Unambiguous) (hus : ∀ u ∈ us, u.Legible)
    (hrest : Ends rest) (hrest' : Ends rest') (heq : argsText ts ++ rest = argsText us ++ rest') :
    ts = us ∧ rest = rest' := by
  have hangle : ∀ {cs rest : List Char}, Ends rest → rest ≠ '<' :: cs := by
    rintro cs _ h rfl
    exact absurd (h '<' rfl) (by decide)
  cases ts with
  | nil =>
    cases us with
    | nil => exact ⟨rfl, heq⟩
    | cons u us => exact absurd heq (hangle hrest)
  | cons t ts =>
    cases us with
    | nil => exact absurd heq.symm (hangle hrest')
    | cons u us =>
      simp only [argsText, List.cons_append, List.append_assoc, List.cons.injEq, true_and] at heq
      exact rowText_inj (by decide) (by decide) hts hus heq

/-- What follows a word is punctuation, or nothing. -/
theorem head?_argsText (ts : List Tree) (hrest : Ends rest) :
    ∀ c ∈ (argsText ts ++ rest).head?, c ∈ punctuation := by
  cases ts with
  | nil => exact hrest.head?_mem
  | cons t ts => rintro _ ⟨⟩; decide

end Rows

/-! ## Every form of tree -/

/-- **Trees can be read back from their texts.** By induction on the tree; in each case the other tree has to be of
    the same form, as its first characters show, and then the components are equal one by one. -/
theorem Legible.unambiguous {t : Tree} (h : t.Legible) : t.Unambiguous := by
  induction h with
  | @var v =>
    intro u rest rest' hu hrest hrest' heq
    rw [text_var] at heq
    cases hu with
    | var =>
      rw [text_var] at heq
      obtain ⟨hdigits, hsame⟩ := append_inj_of_plain (plain_digits _) (plain_digits _) hrest.head?_mem
        hrest'.head?_mem (List.cons.inj heq).2
      exact ⟨congrArg (Tree.var ⟨·⟩) (Nat.repr_inj.mp (String.toList_inj.mp hdigits)), hsame⟩
    -- A word does not begin with an opening sign, and the other forms begin with other ones.
    | word hcon _ => exact absurd heq (opening_ne_word hcon (by decide))
    | list _ => rw [text_list] at heq; cases heq
    | map _ _ => rw [text_map] at heq; cases heq
    | tuple _ => rw [text_tuple] at heq; cases heq
    | function _ _ => rw [text_function] at heq; cases heq
  | @list element _ ih =>
    intro u rest rest' hu hrest hrest' heq
    rw [text_list] at heq
    cases hu with
    | list hu =>
      simp only [text_list, List.cons_append, List.append_assoc, List.cons.injEq, true_and] at heq
      -- The text of the items is followed by the closing sign, so their trees are the same.
      obtain ⟨rfl, hclose⟩ := ih hu (ends_cons (by decide) _) (ends_cons (by decide) _) heq
      exact ⟨rfl, (List.cons.inj hclose).2⟩
    | word hcon _ => exact absurd heq (opening_ne_word hcon (by decide))
    | var => rw [text_var] at heq; cases heq
    | map _ _ => rw [text_map] at heq; cases heq
    | tuple _ => rw [text_tuple] at heq; cases heq
    | function _ _ => rw [text_function] at heq; cases heq
  | @map key value _ _ ihkey ihvalue =>
    intro u rest rest' hu hrest hrest' heq
    rw [text_map] at heq
    cases hu with
    | map hkey hvalue =>
      simp only [text_map, List.cons_append, List.append_assoc, List.cons.injEq, true_and] at heq
      obtain ⟨rfl, hmore⟩ := ihkey hkey (ends_cons (by decide) _) (ends_cons (by decide) _) heq
      simp only [List.cons.injEq, true_and] at hmore
      obtain ⟨rfl, hclose⟩ := ihvalue hvalue (ends_cons (by decide) _) (ends_cons (by decide) _) hmore
      exact ⟨rfl, (List.cons.inj hclose).2⟩
    | word hcon _ => exact absurd heq (opening_ne_word hcon (by decide))
    | var => rw [text_var] at heq; cases heq
    | list _ => rw [text_list] at heq; cases heq
    | tuple _ => rw [text_tuple] at heq; cases heq
    | function _ _ => rw [text_function] at heq; cases heq
  | @tuple elements hlegible ih =>
    intro u rest rest' hu hrest hrest' heq
    rw [text_tuple] at heq
    cases hu with
    | tuple hu =>
      simp only [text_tuple, List.cons_append, List.append_assoc, List.cons.injEq, true_and] at heq
      -- The elements are told apart one by one, by induction on the row.
      obtain ⟨rfl, hsame⟩ := rowText_inj (by decide) (by decide) (fun t ht => ⟨hlegible t ht, ih t ht⟩) hu heq
      exact ⟨rfl, hsame⟩
    | word hcon _ => exact absurd heq (opening_ne_word hcon (by decide))
    | var => rw [text_var] at heq; cases heq
    | list _ => rw [text_list] at heq; cases heq
    | map _ _ => rw [text_map] at heq; cases heq
    | function _ _ => rw [text_function] at heq; cases heq
  | @function params result hlegible _ ih ihresult =>
    intro u rest rest' hu hrest hrest' heq
    rw [text_function] at heq
    cases hu with
    | function hparams hresult =>
      simp only [text_function, List.cons_append, List.append_assoc, List.cons.injEq, true_and] at heq
      obtain ⟨rfl, hmore⟩ := rowText_inj (by decide) (by decide) (fun t ht => ⟨hlegible t ht, ih t ht⟩) hparams heq
      simp only [List.cons.injEq, true_and] at hmore
      obtain ⟨rfl, hsame⟩ := ihresult hresult hrest hrest' hmore
      exact ⟨rfl, hsame⟩
    | word hcon _ => exact absurd heq (opening_ne_word hcon (by decide))
    | var => rw [text_var] at heq; cases heq
    | list _ => rw [text_list] at heq; cases heq
    | map _ _ => rw [text_map] at heq; cases heq
    | tuple _ => rw [text_tuple] at heq; cases heq
  | @word con args hcon hlegible ih =>
    intro u rest rest' hu hrest hrest' heq
    cases hu with
    | word hcon' hargs =>
      rw [text_word hcon, text_word hcon', List.append_assoc, List.append_assoc] at heq
      -- A word ends where the first sign stands that is no part of a word, so both words are the same.
      obtain ⟨htext, hmore⟩ := append_inj_of_plain hcon.plain hcon'.plain (head?_argsText _ hrest)
        (head?_argsText _ hrest') heq
      obtain rfl := hcon.text_injective hcon' (String.toList_inj.mp htext)
      obtain ⟨rfl, hsame⟩ := argsText_inj (fun t ht => ⟨hlegible t ht, ih t ht⟩) hargs hrest hrest' hmore
      exact ⟨rfl, hsame⟩
    | var => rw [text_var] at heq; exact absurd heq.symm (opening_ne_word hcon (by decide))
    | list _ => rw [text_list] at heq; exact absurd heq.symm (opening_ne_word hcon (by decide))
    | map _ _ => rw [text_map] at heq; exact absurd heq.symm (opening_ne_word hcon (by decide))
    | tuple _ => rw [text_tuple] at heq; exact absurd heq.symm (opening_ne_word hcon (by decide))
    | function _ _ => rw [text_function] at heq; exact absurd heq.symm (opening_ne_word hcon (by decide))

/-- **Different trees have different texts.** -/
theorem Legible.text_inj {t u : Tree} (ht : t.Legible) (hu : u.Legible) : t.text = u.text ↔ t = u := by
  refine ⟨fun heq => (ht.unambiguous hu ends_nil ends_nil ?_).1, congrArg text⟩
  rw [heq]

end Tree

/-! ## The text of a type -/

/-- A constructor that can be read shows all its components. With too many of them some would be left out of the
    text, and different types would look alike. -/
theorem Constructor.Legible.shown_eq {con : Constructor} {args : List TypeId} (h : con.Legible args.length) :
    con.shown args = args := by
  unfold Constructor.shown
  split
  · rfl
  · next hpair =>
    obtain ⟨key, value, rfl⟩ := List.length_eq_two.mp h
    exact absurd rfl (hpair key value)
  · rfl

/-- A constructor that can be read, around trees that can be read. -/
theorem Constructor.Legible.tree {con : Constructor} {args : List Tree} (hcon : con.Legible args.length)
    (hargs : ∀ arg ∈ args, arg.Legible) : (Tree.app con args).Legible := by
  cases con with
  | number | bool | string | unit => exact .word trivial hargs
  | named name => exact .word hcon hargs
  | list =>
    obtain ⟨element, rfl⟩ := List.length_eq_one_iff.mp hcon
    exact .list (hargs element List.mem_cons_self)
  | map =>
    obtain ⟨key, value, rfl⟩ := List.length_eq_two.mp hcon
    exact .map (hargs key (by simp)) (hargs value (by simp))
  | tuple arity =>
    obtain rfl : args.length = arity := hcon
    exact .tuple hargs
  | function =>
    have hne : args ≠ [] := List.ne_nil_of_length_pos hcon
    rw [← List.dropLast_concat_getLast hne]
    exact .function (fun p hp => hargs p (List.mem_of_mem_dropLast hp)) (hargs _ (List.getLast_mem hne))

/-- When every question of a list has the answer `g`, the list has the list of these answers. -/
theorem List.mapM_eq_ok {α β : Type} {f : α → Except Fault β} {g : α → β} {xs : List α}
    (h : ∀ x ∈ xs, f x = .ok (g x)) : xs.mapM f = .ok (xs.map g) := by
  induction xs with
  | nil => rfl
  | cons x xs ih =>
    obtain ⟨hx, hxs⟩ := List.forall_mem_cons.mp h
    rw [List.mapM_cons, hx, ok_bind, ih hxs]
    rfl

namespace Store

variable {s : Store}

/-- With fuel above the rank of a type, its text is the text of its tree. By induction on the fuel, by the equations
    for the tree. -/
theorem displayWithin_eq_ok (h : s.Grounded) (hl : s.Legible) {rank : TypeId → Nat} (hrank : s.IsRank rank) :
    ∀ {fuel : Nat} {a : TypeId}, a.index < s.size → rank a < fuel →
      s.displayWithin fuel a = .ok (s.tree a).text := by
  intro fuel
  induction fuel with
  | zero => intro a _ hfuel; exact absurd hfuel (Nat.not_lt_zero _)
  | succ fuel ih =>
    intro a ha hfuel
    obtain ⟨v, hv, hview⟩ := h.exists_view ha
    cases v with
    | var x =>
      rw [displayWithin, hview, ok_bind, Shows.tree_var h hv, Tree.text]
      rfl
    | op r con args =>
      have htexts : args.mapM (s.displayWithin fuel) = .ok (args.map fun arg => (s.tree arg).text) :=
        List.mapM_eq_ok fun arg harg => ih (hv.arg_lt h harg) (by have := hv.rank_arg_lt hrank harg; omega)
      rw [displayWithin, hview, ok_bind, Shows.tree_op h hv, Tree.text, textsOf_eq_map, List.map_map]
      dsimp only
      rw [Constructor.Legible.shown_eq (hl hv.get_op), htexts]
      rfl

/-- **The text of a type** is the text of its tree, so bindings along the way cannot be seen in it. -/
theorem Grounded.display_eq (h : s.Grounded) (hl : s.Legible) {a : TypeId} (ha : a.index < s.size) :
    s.display a = .ok (s.tree a).text := by
  obtain ⟨rank, hrank, hle⟩ := h.exists_rank
  exact displayWithin_eq_ok h hl hrank ha (by have := hle a; simp only [walkBound]; omega)

/-- The trees of a store that can be read can be read: every constructor in a tree is a node of the store. -/
theorem Grounded.legible_tree (h : s.Grounded) (hl : s.Legible) {a : TypeId} (ha : a.index < s.size) :
    (s.tree a).Legible := by
  obtain ⟨rank, hrank, -⟩ := h.exists_rank
  induction hn : rank a using Nat.strong_induction_on generalizing a with
  | _ n ih =>
    subst hn
    obtain ⟨v, hv, -⟩ := h.exists_view ha
    cases v with
    | var x =>
      rw [Shows.tree_var h hv]
      exact .var
    | op r con args =>
      rw [Shows.tree_op h hv]
      refine Constructor.Legible.tree (by rw [List.length_map]; exact hl hv.get_op) fun t ht => ?_
      obtain ⟨arg, harg, rfl⟩ := List.mem_map.mp ht
      exact ih _ (hv.rank_arg_lt hrank harg) (hv.arg_lt h harg) rfl

/-- **The text of a type identifies the type**: any two types have texts, and the texts are equal exactly if the types
    are the same. -/
theorem Grounded.display_eq_iff_same (h : s.Grounded) (hl : s.Legible) {a b : TypeId} (ha : a.index < s.size)
    (hb : b.index < s.size) :
    ∃ left right r, s.display a = .ok left ∧ s.display b = .ok right ∧ s.same a b = .ok r ∧
      (left = right ↔ r = true) := by
  obtain ⟨r, hsame, hiff⟩ := h.same_eq_ok ha hb
  refine ⟨_, _, r, h.display_eq hl ha, h.display_eq hl hb, hsame, ?_⟩
  rw [(h.legible_tree hl ha).text_inj (h.legible_tree hl hb), hiff]

/-- A function of a map and a box to a pair, twice, once behind a bound variable and with another name in the box. -/
def printedFunctions : Store where
  nodes := #[.op .number [], .op .bool [], .op .string [], .op .unit [], .var none, .op .list [⟨4⟩],
    .op .map [⟨2⟩, ⟨5⟩], .op (.named "Box_1") [⟨4⟩, ⟨0⟩], .op (.tuple 2) [⟨1⟩, ⟨4⟩], .op .function [⟨6⟩, ⟨7⟩, ⟨8⟩],
    .op (.named "Box_2") [⟨4⟩, ⟨0⟩], .op .function [⟨6⟩, ⟨10⟩, ⟨8⟩], .var (some ⟨11⟩), .var (some ⟨9⟩)]
  trail := [⟨13⟩, ⟨12⟩]

/-- The two functions are displayed apart, and a bound variable as what it is bound to. -/
theorem display_eq_iff_same_printedFunctions :
    (∃ left right r, printedFunctions.display ⟨9⟩ = .ok left ∧ printedFunctions.display ⟨12⟩ = .ok right ∧
      printedFunctions.same ⟨9⟩ ⟨12⟩ = .ok r ∧ (left = right ↔ r = true)) ∧
    ∃ left right r, printedFunctions.display ⟨9⟩ = .ok left ∧ printedFunctions.display ⟨13⟩ = .ok right ∧
      printedFunctions.same ⟨9⟩ ⟨13⟩ = .ok r ∧ (left = right ↔ r = true) := by
  have hgrounded : printedFunctions.Grounded := grounded_of_descending (by decide)
  have hlegible : printedFunctions.Legible := legible_of_nodes (by decide +kernel)
  exact ⟨hgrounded.display_eq_iff_same hlegible (by decide) (by decide),
    hgrounded.display_eq_iff_same hlegible (by decide) (by decide)⟩

end Store

end TypeInference
