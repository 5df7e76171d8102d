import StackLisp.Proofs.Grammar
import StackLisp.Proofs.Numerals
import StackLisp.Proofs.Scanning

/-!
# Reading what was printed

What a text is read as prints as a text that is read as the same. The printed form of a value is
itself a phrase, `Value.phrase`, and it remains to follow that phrase through the scan and the
reading.

- `Phrase.legible_value`: what was read consists of parts that print as they are read. Among them
  are the symbols, which are known under their names in the table that the reading leaves;
- `Value.Legible.readsBack`: such a value is read back from its printed form, with equal numbers and
  strings, the same symbols and no new name;
- `readOne_print`: both together.
-/

namespace StackLisp

/-! ## The tokens of pieces of text -/

/-- Scanned by themselves, the characters give these tokens and leave no string or comment open. -/
structure Yields (cs : List Char) (ts : List Token) : Prop where
  settled : (cs.foldl Scan.step .start).Settled
  tokens : (cs.foldl Scan.step .start).tokens = ts

/-- Characters that are no delimiters are taken into an open atom. -/
theorem Scan.foldl_atom (start : Span) (reversed : List Char) (place : Span) (found : List Located)
    {cs : List Char} (h : ∀ c ∈ cs, isDelimiter c = false) :
    ∃ place', cs.foldl step ⟨.atom start reversed, place, found⟩ =
      ⟨.atom start (cs.reverse ++ reversed), place', found⟩ := by
  induction cs generalizing reversed place with
  | nil => exact ⟨place, rfl⟩
  | cons c cs ih =>
    obtain ⟨hc, hcs⟩ := List.forall_mem_cons.1 h
    obtain ⟨place', hend⟩ := ih (c :: reversed) (place.after c) hcs
    exact ⟨place', by simpa [step, hc] using hend⟩

/-- Characters other than the double quote are taken into an open string. -/
theorem Scan.foldl_string (start : Span) (reversed : List Char) (place : Span)
    (found : List Located) {cs : List Char} (h : '"' ∉ cs) :
    ∃ place', cs.foldl step ⟨.string start reversed, place, found⟩ =
      ⟨.string start (cs.reverse ++ reversed), place', found⟩ := by
  induction cs generalizing reversed place with
  | nil => exact ⟨place, rfl⟩
  | cons c cs ih =>
    obtain ⟨hc, hcs⟩ := not_or.1 (List.mem_cons.not.1 h)
    obtain ⟨place', hend⟩ := ih (c :: reversed) (place.after c) hcs
    exact ⟨place', by simpa [step, Ne.symm hc] using hend⟩

namespace Yields

/-- Where nothing is open, the characters add their tokens to those found before. -/
theorem foldl {cs : List Char} {ts : List Token} (h : Yields cs ts) {s : Scan}
    (hs : s.pending = .nothing) :
    (cs.foldl Scan.step s).Settled ∧ (cs.foldl Scan.step s).tokens = s.tokens ++ ts := by
  have hfollows := (Scan.follows_start hs).foldl (fun _ _ => trivial) cs
  exact ⟨hfollows.settled.2 h.settled, by rw [Scan.tokens_foldl hs, h.tokens]⟩

/-- A piece of text that starts with a delimiter may stand right behind another piece. -/
theorem append {cs ds : List Char} {c : Char} {ts us : List Token} (hcs : Yields cs ts)
    (hds : Yields (c :: ds) us) (hc : isDelimiter c = true) :
    Yields (cs ++ c :: ds) (ts ++ us) := by
  obtain ⟨s, hs⟩ : ∃ s, s = cs.foldl Scan.step .start := ⟨_, rfl⟩
  have hsettled : s.Settled := hs ▸ hcs.settled
  -- the delimiter closes an atom that was open, so the second piece finds nothing open
  have hfold : (cs ++ c :: ds).foldl Scan.step .start = (c :: ds).foldl Scan.step s.closeAtom := by
    rw [List.foldl_append, ← hs, List.foldl_cons, List.foldl_cons,
      Scan.step_of_settled hsettled hc, Scan.step_of_nothing hsettled]
  obtain ⟨hend, htokens⟩ := hds.foldl hsettled
  refine ⟨hfold ▸ hend, ?_⟩
  rw [hfold, htokens, Scan.tokens_closeAtom, hs, hcs.tokens]

/-- A piece of text behind a character that leaves nothing open. -/
theorem cons {cs : List Char} {c : Char} {ts us : List Token}
    (hc : (Scan.start.step c).pending = .nothing) (hus : (Scan.start.step c).tokens = us)
    (h : Yields cs ts) : Yields (c :: cs) (us ++ ts) := by
  obtain ⟨hend, htokens⟩ := h.foldl hc
  exact ⟨hend, by rw [List.foldl_cons, htokens, hus]⟩

/-- A run of characters that are no delimiters is an atom. -/
theorem atom {cs : List Char} (hne : cs ≠ []) (hcs : ∀ c ∈ cs, isDelimiter c = false) :
    Yields cs [.atom (String.ofList cs)] := by
  obtain ⟨c, cs, rfl⟩ := List.exists_cons_of_ne_nil hne
  obtain ⟨hc, hcs⟩ := List.forall_mem_cons.1 hcs
  have hfirst : Scan.start.step c = ⟨.atom .start [c], Span.start.after c, []⟩ := by
    simp_all [Scan.start, Scan.step, Scan.fresh, isDelimiter]
  obtain ⟨place, hend⟩ := Scan.foldl_atom .start [c] (Span.start.after c) [] hcs
  have hfold : (c :: cs).foldl Scan.step .start =
      ⟨.atom .start (cs.reverse ++ [c]), place, []⟩ := by
    rw [List.foldl_cons, hfirst, hend]
  constructor
  · rw [hfold]
    rfl
  · rw [hfold]
    simp [Scan.tokens, Scan.closeAtom]

/-- A text between double quotes is a string. -/
theorem string {cs : List Char} (h : '"' ∉ cs) :
    Yields ('"' :: (cs ++ ['"'])) [.string (String.ofList cs)] := by
  have hfirst : Scan.start.step '"' = ⟨.string .start [], Span.start.after '"', []⟩ := rfl
  obtain ⟨place, hend⟩ := Scan.foldl_string .start [] (Span.start.after '"') [] h
  have hfold : ('"' :: (cs ++ ['"'])).foldl Scan.step .start =
      ⟨.nothing, place.after '"', [⟨.string (String.ofList cs), .start⟩]⟩ := by
    rw [List.foldl_cons, hfirst, List.foldl_append, hend]
    simp [Scan.step]
  constructor
  · rw [hfold]
    rfl
  · rw [hfold]
    rfl

/-- The characters are a text with these tokens. -/
theorem scan {text : String} {ts : List Token} (h : Yields text.toList ts) :
    ∃ us, Token.scan text = .ok us ∧ us.map Located.token = ts := by
  have hfinish := Scan.finish_eq_ok_iff.2 ⟨h.settled.not_inString, rfl⟩
  exact ⟨_, hfinish, h.tokens⟩

end Yields

/-! ## Symbol tables -/

namespace SymbolTable

/-- A table that was made from the empty one by interning names and generating symbols. -/
inductive Made : SymbolTable → Prop
  | empty : Made .empty
  | intern {table : SymbolTable} (name : String) (h : Made table) : Made (table.intern name).2
  | gensym {table : SymbolTable} (stem : String) (h : Made table) : Made (table.gensym stem).2

/-- Every symbol in the table carries the name it is found by. -/
def Named (table : SymbolTable) : Prop :=
  ∀ name symbol, table.lookup name = some symbol → symbol.name = name

/-- The table is as well named as the other one, and what is known there is known here as the
same. -/
structure Extends (table table' : SymbolTable) : Prop where
  named : table.Named → table'.Named
  known : ∀ {name symbol}, table.lookup name = some symbol → table'.lookup name = some symbol

theorem name_intern {table : SymbolTable} (h : table.Named) (name : String) :
    (table.intern name).1.name = name := by
  cases hname : table.lookup name with
  | some symbol =>
    rw [intern_of_lookup hname]
    exact h name symbol hname
  | none => rw [(intern_new hname).1]

theorem Named.intern {table : SymbolTable} (h : table.Named) (name : String) :
    (table.intern name).2.Named := by
  intro other symbol hsymbol
  by_cases hname : other = name
  · subst hname
    rw [lookup_intern, Option.some.injEq] at hsymbol
    rw [← hsymbol, name_intern h]
  · rw [lookup_intern_of_ne table hname] at hsymbol
    exact h other symbol hsymbol

theorem Made.named {table : SymbolTable} (h : table.Made) : table.Named := by
  -- generating a symbol enters nothing
  induction h with
  | empty => simp [Named, SymbolTable.empty, lookup]
  | intern name _ ih => exact ih.intern name
  | gensym stem _ ih => exact ih

theorem Extends.refl (table : SymbolTable) : table.Extends table :=
  ⟨id, id⟩

theorem Extends.trans {a b c : SymbolTable} (hab : a.Extends b) (hbc : b.Extends c) :
    a.Extends c :=
  ⟨hbc.named ∘ hab.named, hbc.known ∘ hab.known⟩

theorem extends_intern (table : SymbolTable) (name : String) :
    table.Extends (table.intern name).2 := by
  refine ⟨fun h => h.intern name, fun {other symbol} h => ?_⟩
  by_cases hname : other = name
  · subst hname
    rw [intern_of_lookup h]
    exact h
  · rwa [lookup_intern_of_ne table hname]

end SymbolTable

/-! ## Numbers and symbols in values -/

/-- A float has all its bits as a number. -/
@[simp]
theorem Number.toFloat_ofFloat (x : Float) : (ofFloat x).toFloat = x :=
  Float.ofBits_toBits x

namespace Value

mutual

/-- The numbers in a value, from left to right. -/
def numbers : Value → List Float
  | .number n => [n.toFloat]
  | .list _ first others => first.numbers ++ numbersOf others
  | _ => []

/-- The numbers in some values. -/
def numbersOf : List Value → List Float
  | [] => []
  | v :: vs => v.numbers ++ numbersOf vs

end

mutual

/-- The symbols in a value, from left to right. -/
def symbols : Value → List Symbol
  | .symbol s => [s]
  | .list _ first others => first.symbols ++ symbolsOf others
  | _ => []

/-- The symbols in some values. -/
def symbolsOf : List Value → List Symbol
  | [] => []
  | v :: vs => v.symbols ++ symbolsOf vs

end

theorem mem_numbersOf {vs : List Value} {n : Float} :
    n ∈ numbersOf vs ↔ ∃ v ∈ vs, n ∈ v.numbers := by
  induction vs with
  | nil => simp [numbersOf]
  | cons v vs ih => simp [numbersOf, ih]

/-! ## Values that can be read back -/

/-- A finite number whose text, unless it is zero, is read as that number. -/
structure Recovered (n : Float) : Prop where
  isFinite : n.isFinite = true
  read : (n == 0) = false → Decimal.read? (numberStyle.render n).toList = some n

/-- An atom with this text is a symbol. -/
structure IsName (name : String) : Prop where
  ne_nil : name.toList ≠ []
  delimiters : ∀ c ∈ name.toList, isDelimiter c = false
  reserved : name.toList.head? ≠ some '#'
  literals : name ≠ "true" ∧ name ≠ "false" ∧ name ≠ "nil"
  number : Decimal.read? name.toList = none

/-- A value of at most `n` levels whose parts all print as they are read. -/
inductive Legible (table : SymbolTable) : Nat → Value → Prop
  | number {n : Nat} {x : Number} (h : Recovered x.toFloat) : Legible table (n + 1) (.number x)
  | symbol {n : Nat} {s : Symbol} (hname : IsName s.name) (h : table.lookup s.name = some s) :
      Legible table (n + 1) (.symbol s)
  | boolean {n : Nat} (b : Bool) : Legible table (n + 1) (.boolean b)
  | string {n : Nat} (ref : Ref) {text : String} (h : '"' ∉ text.toList) :
      Legible table (n + 1) (.string ref text)
  | nil {n : Nat} : Legible table (n + 1) .nil
  | list {n : Nat} (ref : Ref) {first : Value} {others : List Value}
      (hfirst : Legible table n first) (hothers : ∀ v ∈ others, Legible table n v) :
      Legible table (n + 1) (.list ref first others)

variable {table table' : SymbolTable} {n : Nat}

theorem Legible.mono {v : Value} (h : Legible table n v) (htable : table.Extends table') :
    Legible table' n v := by
  induction h with
  | number h => exact .number h
  | symbol hname h => exact .symbol hname (htable.known h)
  | boolean b => exact .boolean b
  | string ref h => exact .string ref h
  | nil => exact .nil
  | list ref _ _ ihfirst ihothers => exact .list ref ihfirst ihothers

theorem Legible.storeList {store : Store} {items : List Value}
    (h : ∀ v ∈ items, Legible table n v) : Legible table (n + 1) (store.list items).1 := by
  cases items with
  | nil => exact .nil
  | cons first others =>
    obtain ⟨hfirst, hothers⟩ := List.forall_mem_cons.1 h
    exact .list _ hfirst hothers

theorem numbers_storeList (store : Store) (items : List Value) :
    (store.list items).1.numbers = numbersOf items := by
  cases items <;> rfl

theorem symbols_storeList (store : Store) (items : List Value) :
    (store.list items).2.symbols = store.symbols := by
  cases items <;> rfl

end Value

namespace Phrase

/-! ## What was read is legible -/

theorem extends_atomValue (store : Store) (text : String) :
    store.symbols.Extends (atomValue store text).2.symbols := by
  refine atomValue_elim (fun made => store.symbols.Extends made.2.symbols) store text
    (fun _ => .refl _) (.refl _) (fun _ _ => .refl _) fun _ _ => ?_
  exact SymbolTable.extends_intern store.symbols text

mutual

/-- Only names are added to the table. -/
theorem extends_value (quote : Symbol) (store : Store) (p : Phrase) :
    store.symbols.Extends (p.value quote store).2.symbols := by
  cases p with
  | string text => exact .refl _
  | atom text => exact extends_atomValue store text
  | quoted inner => exact extends_value quote store inner
  | list items =>
    rw [value, Value.symbols_storeList]
    exact extends_valuesOf quote store items

theorem extends_valuesOf (quote : Symbol) (store : Store) (ps : List Phrase) :
    store.symbols.Extends (valuesOf quote store ps).2.symbols := by
  cases ps with
  | nil => exact .refl _
  | cons p ps => exact (extends_value quote store p).trans (extends_valuesOf quote _ ps)

end

open Value

theorem legible_atomValue {store : Store} {text : String} {n : Nat} (hnamed : store.symbols.Named)
    (hformed : (Token.atom text).WellFormed) (hplain : text.toList.head? ≠ some '#') :
    (∀ x ∈ (atomValue store text).1.numbers, Recovered x) →
      Legible (atomValue store text).2.symbols (n + 1) (atomValue store text).1 := by
  refine atomValue_elim (fun made => (∀ x ∈ made.1.numbers, Recovered x) →
    Legible made.2.symbols (n + 1) made.1) store text ?_ ?_ ?_ ?_
  · exact fun b _ => .boolean b
  · exact fun _ => .nil
  · intro x _ hnumbers
    exact .number (hnumbers _ (by simp [numbers]))
  · intro hliterals hread _
    -- the symbol has the name it was interned under, and is known by it
    have hname : (store.intern text).1.name = text := SymbolTable.name_intern hnamed text
    refine .symbol ?_ ?_
    · rw [hname]
      exact ⟨hformed.1, hformed.2, hplain, hliterals, hread⟩
    · rw [hname]
      exact SymbolTable.lookup_intern store.symbols text

theorem isName_quote : IsName "quote" :=
  ⟨by decide, by simp [isDelimiter, isBlank], by decide, by decide, by decide⟩

mutual

/-- The value of a phrase with the tokens of a text can be read back in the table it leaves. -/
theorem legible_value {quote : Symbol} {store : Store} {p : Phrase} {n : Nat}
    (hnamed : store.symbols.Named) (hquote : store.symbols.lookup "quote" = some quote)
    (hformed : ∀ t ∈ p.tokens, t.WellFormed) (hplain : Unreserved p.tokens) (hn : p.nesting ≤ n)
    (hnumbers : ∀ x ∈ (p.value quote store).1.numbers, Recovered x) :
    Legible (p.value quote store).2.symbols n (p.value quote store).1 := by
  obtain ⟨n, rfl⟩ : ∃ m, n = m + 1 := Nat.exists_eq_add_of_le' (p.one_le_nesting.trans hn)
  cases p with
  | string text => exact .string _ (hformed (.string text) (by simp [tokens]))
  | atom text =>
    exact legible_atomValue hnamed (hformed (.atom text) (by simp [tokens]))
      (hplain text (by simp [tokens])) hnumbers
  | quoted inner =>
    rw [nesting] at hn
    rw [value, numbers_storeList] at hnumbers
    have hinner := legible_value hnamed hquote (n := n)
      (fun t ht => hformed t (by simp [tokens, ht])) (unreserved_cons.1 hplain).2 (by omega)
      fun x hx => hnumbers x (mem_numbersOf.2 ⟨_, by simp, hx⟩)
    have hknown := (extends_value quote store inner).known hquote
    have hname : quote.name = "quote" := hnamed _ _ hquote
    -- a phrase has a level at least, so the name `quote` has one as well
    obtain ⟨n, rfl⟩ : ∃ m, n = m + 1 :=
      Nat.exists_eq_add_of_le' (inner.one_le_nesting.trans (by omega))
    rw [value, symbols_storeList]
    refine Legible.storeList (List.forall_mem_cons.2 ⟨.symbol ?_ ?_, by simpa using hinner⟩)
    · rw [hname]
      exact isName_quote
    · rw [hname]
      exact hknown
  | list items =>
    rw [nesting] at hn
    rw [value, numbers_storeList] at hnumbers
    rw [value, symbols_storeList]
    exact Legible.storeList (legible_valuesOf hnamed hquote
      (fun t ht => hformed t (by simp [tokens, ht]))
      (unreserved_append.1 (unreserved_cons.1 hplain).2).1 (by omega) hnumbers)

theorem legible_valuesOf {quote : Symbol} {store : Store} {ps : List Phrase} {n : Nat}
    (hnamed : store.symbols.Named) (hquote : store.symbols.lookup "quote" = some quote)
    (hformed : ∀ t ∈ tokensOf ps, t.WellFormed) (hplain : Unreserved (tokensOf ps))
    (hn : nestingOf ps ≤ n) (hnumbers : ∀ x ∈ numbersOf (valuesOf quote store ps).1, Recovered x) :
    ∀ v ∈ (valuesOf quote store ps).1, Legible (valuesOf quote store ps).2.symbols n v := by
  cases ps with
  | nil => exact List.forall_mem_nil _
  | cons p ps =>
    rw [nestingOf, Nat.max_le] at hn
    rw [tokensOf, unreserved_append] at hplain
    simp only [tokensOf, List.forall_mem_append] at hformed
    simp only [valuesOf, numbersOf, List.forall_mem_append] at hnumbers
    -- the first value was made before the others, and stays legible in the larger table
    have hextends := extends_value quote store p
    refine List.forall_mem_cons.2 ⟨?_, ?_⟩
    · exact (legible_value hnamed hquote hformed.1 hplain.1 hn.1 hnumbers.1).mono
        (extends_valuesOf quote _ ps)
    · exact legible_valuesOf (hextends.named hnamed) (hextends.known hquote) hformed.2 hplain.2 hn.2
        hnumbers.2

end

/-- What is read from a text can be read back in the table it leaves, where `quote` is known. -/
theorem legible_read {store : Store} {p : Phrase} {n : Nat} (hnamed : store.symbols.Named)
    (hformed : ∀ t ∈ p.tokens, t.WellFormed) (hplain : Unreserved p.tokens) (hn : p.nesting ≤ n)
    (hnumbers : ∀ x ∈ (p.read store).1.numbers, Recovered x) :
    ∃ quote, Legible (p.read store).2.symbols n (p.read store).1 ∧
      (p.read store).2.symbols.lookup "quote" = some quote := by
  have hquote : (store.intern "quote").2.symbols.lookup "quote" = some (store.intern "quote").1 :=
    SymbolTable.lookup_intern store.symbols "quote"
  exact ⟨_, legible_value (hnamed.intern "quote") hquote hformed hplain hn hnumbers,
    (extends_value _ _ p).known hquote⟩

end Phrase

namespace Value

open Phrase

/-! ## The phrase that a value prints as -/

mutual

theorem printOnto_eq (out : String) (v : Value) : printOnto out v = out ++ v.print := by
  unfold print
  cases v with
  | list ref first others =>
    rw [printOnto, printOnto, printOnto_eq (out ++ "("), printOnto_eq ("" ++ "("),
      printItemsOnto_eq _ others, printItemsOnto_eq ("" ++ "(" ++ first.print)]
    simp [String.append_assoc]
  | _ => simp [printOnto, String.append_assoc]

theorem printItemsOnto_eq (out : String) (vs : List Value) :
    printItemsOnto out vs = out ++ printItemsOnto "" vs := by
  cases vs with
  | nil => simp [printItemsOnto]
  | cons v vs =>
    rw [printItemsOnto, printItemsOnto, printOnto_eq (out ++ " "), printOnto_eq ("" ++ " "),
      printItemsOnto_eq _ vs, printItemsOnto_eq ("" ++ " " ++ v.print)]
    simp [String.append_assoc]

end

/-- The characters behind the first item of a printed list. -/
def printedTail : List Value → List Char
  | [] => [')']
  | v :: vs => ' ' :: (v.print.toList ++ printedTail vs)

theorem toList_print_list (ref : Ref) (first : Value) (others : List Value) :
    (Value.list ref first others).print.toList =
      '(' :: (first.print.toList ++ printedTail others) := by
  have htail : ∀ vs, (printItemsOnto "" vs ++ ")").toList = printedTail vs := by
    intro vs
    induction vs with
    | nil => rfl
    | cons v vs ih =>
      rw [printItemsOnto, printOnto_eq, printItemsOnto_eq, printedTail, ← ih]
      simp
  rw [print, printOnto, printOnto_eq, printItemsOnto_eq, ← htail]
  simp

mutual

/-- The phrase that a value prints as. -/
def phrase : Value → Phrase
  | .string _ text => .string text
  | .nil => .list []
  | .list _ first others => .list (first.phrase :: phrasesOf others)
  | v => .atom v.print

/-- The phrases that the items of a list print as. -/
def phrasesOf : List Value → List Phrase
  | [] => []
  | v :: vs => v.phrase :: phrasesOf vs

end

theorem phrasesOf_eq_map (vs : List Value) : phrasesOf vs = vs.map phrase := by
  induction vs with
  | nil => rfl
  | cons v vs ih => rw [phrasesOf, ih, List.map_cons]

/-! ## What is legible reads back -/

/-- A made value is equal to the given one and has the same symbols, and no name is new. -/
structure Again (table : SymbolTable) (v : Value) (made : Value × Store) : Prop where
  equal : made.1.equal v = true
  symbols : made.1.symbols = v.symbols
  table : made.2.symbols = table

/-- The printed form of a value is a phrase of at most `n` levels that stands for the value. -/
structure ReadsBack (table : SymbolTable) (n : Nat) (v : Value) : Prop where
  yields : Yields v.print.toList v.phrase.tokens
  unreserved : Unreserved v.phrase.tokens
  nesting_le : v.phrase.nesting ≤ n
  again : ∀ (quote : Symbol) (store : Store), store.symbols = table →
    Again table v (v.phrase.value quote store)

theorem ReadsBack.ofAtom {v : Value} (hphrase : v.phrase = .atom v.print)
    (hne : v.print.toList ≠ []) (hchars : ∀ c ∈ v.print.toList, isDelimiter c = false)
    (hplain : v.print.toList.head? ≠ some '#')
    (hagain : ∀ store : Store, store.symbols = table → Again table v (atomValue store v.print)) :
    ReadsBack table (n + 1) v := by
  constructor
  · rw [hphrase, tokens]
    simpa using Yields.atom hne hchars
  · rw [hphrase]
    simpa [Unreserved, tokens] using hplain
  · rw [hphrase, nesting]
    exact Nat.le_add_left 1 n
  · intro quote store hstore
    rw [hphrase]
    exact hagain store hstore

theorem again_boolean (b : Bool) {store : Store} (h : store.symbols = table) :
    Again table (.boolean b) (atomValue store (Value.boolean b).print) := by
  cases b <;> exact ⟨rfl, rfl, h⟩

theorem again_symbol {s : Symbol} (hname : IsName s.name) (hknown : table.lookup s.name = some s)
    {store : Store} (h : store.symbols = table) :
    Again table (.symbol s) (atomValue store (Value.symbol s).print) := by
  have hprint : (Value.symbol s).print = s.name := by simp [print, printOnto]
  have hintern : store.symbols.intern s.name = (s, table) := by
    rw [h]
    exact SymbolTable.intern_of_lookup hknown
  obtain ⟨htrue, hfalse, hnil⟩ := hname.literals
  have hvalue : atomValue store (Value.symbol s).print =
      (.symbol s, { store with symbols := table }) := by
    simp [hprint, atomValue, htrue, hfalse, hnil, hname.number, Store.intern, hintern]
  rw [hvalue]
  exact ⟨by simp [equal, identical], rfl, rfl⟩

end Value

namespace Decimal

theorem Numeric.isDelimiter {cs : List Char} (h : Numeric cs) :
    ∀ c ∈ cs, isDelimiter c = false := by
  intro c hc
  have hnumeric := h.numeric c hc
  by_contra hdelimiter
  simp only [StackLisp.isDelimiter, isBlank, Bool.not_eq_false, Bool.or_eq_true,
    decide_eq_true_eq] at hdelimiter
  rcases hdelimiter with (((((((rfl | rfl) | rfl) | rfl) | rfl) | rfl) | rfl) | rfl) | rfl
  all_goals simp [IsNumeric] at hnumeric

/-- A text of a number has no other characters. -/
theorem Numeric.ne {text other : String} (h : Numeric text.toList) {c : Char}
    (hc : c ∈ other.toList) (hother : ¬ IsNumeric c) : text ≠ other := by
  rintro rfl
  exact hother (h.numeric c hc)

end Decimal

namespace Value

open Phrase

/-- The text of a number is read as a number equal to it. -/
theorem Recovered.read_print {x : Float} (h : Recovered x) :
    ∃ y, Decimal.read? (numberStyle.render x).toList = some y ∧ (y == x) = true := by
  -- the text of a zero has lost its sign, but the zeros are equal
  cases hzero : x == 0 with
  | true =>
    rw [Decimal.render_of_beq_zero hzero]
    exact ⟨0, Decimal.read?_zero, Decimal.zero_beq hzero⟩
  | false =>
    refine ⟨x, h.read hzero, ?_⟩
    rw [Float.beq_self_iff]
    rintro rfl
    exact absurd h.isFinite (by decide)

theorem again_number {x : Number} (hx : Recovered x.toFloat) {store : Store}
    (h : store.symbols = table) :
    Again table (.number x) (atomValue store (Value.number x).print) := by
  have hprint : (Value.number x).print = numberStyle.render x.toFloat := by
    simp [print, printOnto]
  have hnumeric := Decimal.numeric_render hx.isFinite
  obtain ⟨y, hread, hequal⟩ := hx.read_print
  -- none of the literals is a text of digits
  have htrue : numberStyle.render x.toFloat ≠ "true" := hnumeric.ne (c := 't') (by decide)
    (by simp [Decimal.IsNumeric])
  have hfalse : numberStyle.render x.toFloat ≠ "false" := hnumeric.ne (c := 'f') (by decide)
    (by simp [Decimal.IsNumeric])
  have hnil : numberStyle.render x.toFloat ≠ "nil" := hnumeric.ne (c := 'n') (by decide)
    (by simp [Decimal.IsNumeric])
  have hvalue : atomValue store (Value.number x).print = (.number (.ofFloat y), store) := by
    simp [hprint, atomValue, htrue, hfalse, hnil, hread]
  rw [hvalue]
  exact ⟨by rwa [equal, Number.toFloat_ofFloat], rfl, h⟩

/-! ### Lists -/

theorem exists_printedTail (vs : List Value) :
    ∃ c cs, printedTail vs = c :: cs ∧ isDelimiter c = true := by
  cases vs with
  | nil => exact ⟨')', [], rfl, rfl⟩
  | cons v vs => exact ⟨' ', _, rfl, rfl⟩

theorem Yields.printedTail_behind {cs : List Char} {ts us : List Token} {vs : List Value}
    (hcs : Yields cs ts) (hvs : Yields (printedTail vs) us) :
    Yields (cs ++ printedTail vs) (ts ++ us) := by
  obtain ⟨c, ds, htail, hc⟩ := exists_printedTail vs
  rw [htail] at hvs ⊢
  exact hcs.append hvs hc

theorem yields_printedTail {vs : List Value}
    (h : ∀ v ∈ vs, Yields v.print.toList v.phrase.tokens) :
    Yields (printedTail vs) (tokensOf (phrasesOf vs) ++ [.rightParen]) := by
  induction vs with
  | nil => exact ⟨rfl, rfl⟩
  | cons v vs ih =>
    obtain ⟨hv, hvs⟩ := List.forall_mem_cons.1 h
    rw [printedTail, phrasesOf, tokensOf, List.append_assoc]
    have hspace : (Scan.start.step ' ').tokens = [] := rfl
    have hitem := (Yields.printedTail_behind hv (ih hvs)).cons rfl hspace
    exact hitem

theorem again_valuesOf {vs : List Value} (h : ∀ v ∈ vs, ReadsBack table n v) (quote : Symbol)
    {store : Store} (hstore : store.symbols = table) :
    equalLists (valuesOf quote store (phrasesOf vs)).1 vs = true ∧
      symbolsOf (valuesOf quote store (phrasesOf vs)).1 = symbolsOf vs ∧
      (valuesOf quote store (phrasesOf vs)).2.symbols = table := by
  induction vs generalizing store with
  | nil => exact ⟨by simp [phrasesOf, valuesOf, equalLists], rfl, hstore⟩
  | cons v vs ih =>
    obtain ⟨hv, hvs⟩ := List.forall_mem_cons.1 h
    have hfirst := hv.again quote store hstore
    obtain ⟨hequal, hsymbols, htable⟩ := ih hvs hfirst.table
    refine ⟨?_, ?_, htable⟩
    · simp only [phrasesOf, valuesOf, equalLists, hfirst.equal, hequal, Bool.and_true]
    · simp only [phrasesOf, valuesOf, symbolsOf, hfirst.symbols, hsymbols]

theorem ReadsBack.list {ref : Ref} {first : Value} {others : List Value}
    (hfirst : ReadsBack table n first) (hothers : ∀ v ∈ others, ReadsBack table n v) :
    ReadsBack table (n + 1) (.list ref first others) := by
  have hitems : ∀ p ∈ first.phrase :: phrasesOf others,
      p.nesting ≤ n ∧ Unreserved p.tokens := by
    rw [phrasesOf_eq_map, List.forall_mem_cons, List.forall_mem_map]
    exact ⟨⟨hfirst.nesting_le, hfirst.unreserved⟩, fun v hv =>
      ⟨(hothers v hv).nesting_le, (hothers v hv).unreserved⟩⟩
  constructor
  · rw [toList_print_list, phrase, tokens, tokensOf, List.append_assoc]
    have htail := yields_printedTail fun v hv => (hothers v hv).yields
    have hopen : (Scan.start.step '(').tokens = [.leftParen] := rfl
    exact (Yields.printedTail_behind hfirst.yields htail).cons rfl hopen
  · rw [phrase, tokens, unreserved_cons, unreserved_append]
    refine ⟨by simp [Unreserved], unreserved_tokensOf.2 fun p hp => (hitems p hp).2,
      by simp [Unreserved]⟩
  · rw [phrase, nesting]
    exact Nat.succ_le_succ (nestingOf_le_iff.2 fun p hp => (hitems p hp).1)
  · intro quote store hstore
    -- the first item leaves the table as it was, so the others find it that way
    have hmade := hfirst.again quote store hstore
    obtain ⟨hequal, hsymbols, htable⟩ := again_valuesOf hothers quote hmade.table
    refine ⟨?_, ?_, htable⟩
    · simp only [phrase, value, valuesOf, Store.list, equal, hmade.equal, hequal, Bool.and_true]
    · simp only [phrase, value, valuesOf, Store.list, symbols, hmade.symbols, hsymbols]

/-- Every legible value is read back from its printed form. -/
theorem Legible.readsBack {v : Value} (h : Legible table n v) : ReadsBack table n v := by
  -- numbers, symbols and booleans print as one atom; the others have delimiters of their own
  induction h with
  | @number n x hx =>
    have hprint : (Value.number x).print = numberStyle.render x.toFloat := by
      simp [print, printOnto]
    have hnumeric := Decimal.numeric_render hx.isFinite
    rw [← hprint] at hnumeric
    refine .ofAtom rfl ?_ hnumeric.isDelimiter ?_ fun _ => again_number hx
    · obtain ⟨c, hc, -⟩ := hnumeric.digit
      exact List.ne_nil_of_mem hc
    · intro hhead
      have hmem := hnumeric.numeric '#' (List.mem_of_mem_head? hhead)
      simp [Decimal.IsNumeric] at hmem
  | @symbol n s hname hknown =>
    have hprint : (Value.symbol s).print = s.name := by simp [print, printOnto]
    refine .ofAtom rfl ?_ ?_ ?_ fun _ => again_symbol hname hknown
    all_goals rw [hprint]
    · exact hname.ne_nil
    · exact hname.delimiters
    · exact hname.reserved
  | boolean b =>
    refine .ofAtom rfl ?_ ?_ ?_ fun _ => again_boolean b
    · cases b <;> decide
    · cases b <;> simp [print, printOnto, isDelimiter, isBlank]
    · cases b <;> decide
  | @string n ref text htext =>
    refine ⟨?_, by simp [phrase, tokens, Unreserved], Nat.le_add_left 1 _, fun _ _ hstore => ?_⟩
    · have hprint : (Value.string ref text).print.toList = '"' :: (text.toList ++ ['"']) := by
        simp [print, printOnto]
      rw [hprint, phrase, tokens]
      simpa using Yields.string htext
    · exact ⟨by simp [phrase, value, Store.string, equal], rfl, hstore⟩
  | nil =>
    refine ⟨⟨rfl, rfl⟩, by simp [phrase, tokens, tokensOf, Unreserved], Nat.le_add_left 1 _, ?_⟩
    exact fun _ _ hstore => ⟨rfl, rfl, hstore⟩
  | list ref _ _ ihfirst ihothers => exact .list ihfirst ihothers

end Value

namespace Datum

/-- The first datum of a text is read when its tokens start with a phrase. -/
theorem readOne_of_scan {store : Store} {text : String} {p : Phrase} {ts : List Located}
    (rest : List Located) (hscan : Token.scan text = .ok (ts ++ rest)) (hp : p.Spelt ts) :
    readOne store text = (.ok (p.read store).1, (p.read store).2) := by
  have hnext : next store (ts ++ rest) =
      some { result := .ok (p.read store).1, rest, store := (p.read store).2 } :=
    next_eq_ok_iff.2 ⟨p, ts, rfl, hp, rfl⟩
  rw [readOne, hscan]
  simp only [hnext]

/-- Where the first datum of a text is read, its tokens start with a phrase. -/
theorem scan_of_readOne {store after : Store} {text : String} {v : Value}
    (h : readOne store text = (.ok v, after)) :
    ∃ p ts rest, Token.scan text = .ok (ts ++ rest) ∧ Phrase.Spelt p ts ∧
      p.read store = (v, after) := by
  rw [readOne] at h
  cases hscan : Token.scan text with
  | error error => simp [hscan] at h
  | ok ts =>
    simp only [hscan] at h
    cases hnext : next store ts with
    | none => simp [hnext] at h
    | some reading =>
      obtain ⟨result, rest, store'⟩ := reading
      simp only [hnext, Prod.mk.injEq] at h
      obtain ⟨rfl, rfl⟩ := h
      obtain ⟨p, us, rfl, hp, hread⟩ := next_eq_ok_iff.1 hnext
      exact ⟨p, us, rest, rfl, hp, hread⟩

end Datum

open Value

/-- Printing undoes reading. When a datum is read from a text, with a symbol table that was made by
interning and generating symbols, and its numbers are finite, then its printed form is read in the
resulting table. What is read then is equal to the datum, its symbols are the very same ones, and no
name is new. Of the decimal texts of the numbers this takes only that those of numbers other than
zero are read as the same number. -/
theorem readOne_print {text : String} {store after : Store} {v : Value}
    (hmade : store.symbols.Made) (hread : Datum.readOne store text = (.ok v, after))
    (hfinite : ∀ x ∈ v.numbers, x.isFinite = true)
    (hdecimal : ∀ x ∈ v.numbers, (x == 0) = false →
      Decimal.read? (numberStyle.render x).toList = some x) :
    ∃ w last, Datum.readOne after v.print = (.ok w, last) ∧ w.equal v = true ∧
      w.symbols = v.symbols ∧ last.symbols = after.symbols := by
  obtain ⟨p, ts, rest, hscan, hp, hvalue⟩ := Datum.scan_of_readOne hread
  obtain rfl : (p.read store).1 = v := by rw [hvalue]
  obtain rfl : (p.read store).2 = after := by rw [hvalue]
  have hformed : ∀ t ∈ p.tokens, t.WellFormed := by
    rw [← hp.spelling, List.forall_mem_map]
    exact fun t ht => (Token.scan_sound hscan t (List.mem_append_left rest ht)).wellFormed
  obtain ⟨quote, hlegible, hquote⟩ := Phrase.legible_read hmade.named hformed hp.unreserved
    hp.nesting fun x hx => ⟨hfinite x hx, hdecimal x hx⟩
  -- the printed form has the tokens of a phrase, and no name in it is new
  have hback := hlegible.readsBack
  obtain ⟨us, hus, hspelling⟩ := hback.yields.scan
  have hsame : ((p.read store).2.intern "quote").2.symbols = (p.read store).2.symbols := by
    simp [Store.intern, SymbolTable.intern_of_lookup hquote]
  have hagain := hback.again ((p.read store).2.intern "quote").1 _ hsame
  have hspelt : Phrase.Spelt _ us := ⟨hspelling, hback.unreserved, hback.nesting_le⟩
  exact ⟨_, _, Datum.readOne_of_scan [] (by simpa using hus) hspelt, hagain.equal, hagain.symbols,
    hagain.table⟩

/-- A text with the quote shorthand, a fraction, a negative zero, a string and both spellings of the
empty list. -/
theorem readOne_print_nested :
    ∃ v after w last,
      Datum.readOne .empty "(f '(-1.5 \"a b\")nil () -0)" = (.ok v, after) ∧
      v.numbers = [-1.5, -0] ∧ Datum.readOne after v.print = (.ok w, last) ∧ w.equal v = true ∧
      w.symbols = v.symbols ∧ last.symbols = after.symbols := by
  let p : Phrase := .list [.atom "f", .quoted (.list [.atom "-1.5", .string "a b"]), .atom "nil",
    .list [], .atom "-0"]
  obtain ⟨ts, hscan, hts⟩ : ∃ ts, Token.scan "(f '(-1.5 \"a b\")nil () -0)" = .ok ts ∧
      ts.map Located.token = p.tokens := ⟨_, rfl, by decide +kernel⟩
  have hread := @Datum.readOne_of_scan .empty _ p ts [] (by simpa using hscan)
    ⟨hts, by simp [p, Phrase.tokens, Phrase.tokensOf, Phrase.Unreserved], by decide +kernel⟩
  have hnumbers : (p.read .empty).1.numbers = [-1.5, -0] := by decide +kernel
  obtain ⟨w, last, hback⟩ := readOne_print .empty hread (by rw [hnumbers]; decide +kernel)
    (by rw [hnumbers]; decide +kernel)
  exact ⟨_, _, w, last, hread, hnumbers, hback⟩

end StackLisp
