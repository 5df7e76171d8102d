import StackLisp.Proofs.Expressions
import StackLisp.Proofs.SymbolIdentity

/-!
# What is read is written so

Reading a phrase gives a value that is written as the phrase says: its symbols are known by their
names, and its strings stand at places that were not taken before.

- `SymbolTable.Made.eq_of_id_eq`: symbols that are known by different names have different numbers;
- `Phrase.written_value`: the value of a phrase is written so, by one lemma for each kind of phrase;
- `Phrase.exists_written`: so it is for a phrase that stands by itself.
-/

namespace StackLisp

/-! ## Tables that were made -/

namespace SymbolTable

variable {table : SymbolTable} {name other : String} {s s' : Symbol}

/-- What is known after interning a name was known before, or has the name and the next number. -/
theorem lookup_of_lookup_intern (h : (table.intern name).2.lookup other = some s) :
    table.lookup other = some s ∨ other = name ∧ s.id = table.nextId ∧
      (table.intern name).2.nextId = table.nextId + 1 := by
  obtain ⟨t, -, hintern⟩ | ⟨-, hsymbol, hnext, -⟩ := intern_cases table name
  · rw [hintern] at h
    exact .inl h
  · by_cases hname : other = name
    · rw [hname, lookup_intern, Option.some.injEq] at h
      exact .inr ⟨hname, by rw [← h, hsymbol], hnext⟩
    · rw [lookup_intern_of_ne table hname] at h
      exact .inl h

theorem nextId_le_intern (table : SymbolTable) (name : String) :
    table.nextId ≤ (table.intern name).2.nextId :=
  nextId_le_perform table (.intern name)

namespace Made

/-- What is known has a number that was given out. -/
theorem id_lt (h : table.Made) (hs : table.lookup name = some s) : s.id < table.nextId := by
  induction h with
  | empty => simp [SymbolTable.empty, lookup] at hs
  | @intern table made _ ih =>
    rcases lookup_of_lookup_intern hs with hs | ⟨-, hid, hnext⟩
    · exact (ih hs).trans_le (nextId_le_intern table made)
    · rw [hid, hnext]
      exact Nat.lt_succ_self _
  | gensym _ _ ih => exact (ih hs).trans (Nat.lt_succ_self _)

/-- Symbols that are known by different names have different numbers. -/
theorem eq_of_id_eq (h : table.Made) (hs : table.lookup name = some s)
    (hs' : table.lookup other = some s') (hid : s.id = s'.id) : name = other := by
  induction h with
  | empty => simp [SymbolTable.empty, lookup] at hs
  | @intern table made h ih =>
    rcases lookup_of_lookup_intern hs with hs | ⟨hname, hnew, -⟩ <;>
      rcases lookup_of_lookup_intern hs' with hs' | ⟨hname', hnew', -⟩
    · exact ih hs hs'
    · exact absurd (h.id_lt hs) (by omega)
    · exact absurd (h.id_lt hs') (by omega)
    · rw [hname, hname']
  | gensym _ _ ih => exact ih hs hs'

end Made

end SymbolTable

/-! ## Reading phrases -/

namespace Phrase

/-- How a store changes while phrases are read. -/
structure StoreReads (store store' : Store) : Prop where
  symbols : store.symbols.Extends store'.symbols
  made : store.symbols.Made → store'.symbols.Made
  ids : store.symbols.nextId ≤ store'.symbols.nextId
  refs : store.nextRef ≤ store'.nextRef

/-- With the right texts at the places that were taken between the two stores, whatever is at other
places and whatever else comes to be known, `P` holds. -/
def HoldsBetween (store store' : Store) (P : (Ref → Option String) → SymbolTable → Prop) : Prop :=
  ∃ texts : Ref → Option String,
    (∀ ref text, texts ref = some text → store.nextRef ≤ ref ∧ ref < store'.nextRef) ∧
    ∀ (texts' : Ref → Option String) (table : SymbolTable),
      (∀ ref, store.nextRef ≤ ref → ref < store'.nextRef → texts' ref = texts ref) →
      store'.symbols.Extends table → P texts' table

variable {a b c : Store}

namespace StoreReads

theorem refl (a : Store) : StoreReads a a :=
  ⟨.refl _, id, le_rfl, le_rfl⟩

theorem trans (h : StoreReads a b) (h' : StoreReads b c) : StoreReads a c :=
  ⟨h.symbols.trans h'.symbols, h'.made ∘ h.made, h.ids.trans h'.ids, h.refs.trans h'.refs⟩

theorem intern (a : Store) (name : String) : StoreReads a (a.intern name).2 :=
  ⟨SymbolTable.extends_intern _ _, .intern name, SymbolTable.nextId_le_intern _ _, le_rfl⟩

theorem object (a : Store) : StoreReads a { a with nextRef := a.nextRef + 1 } :=
  ⟨.refl _, id, le_rfl, Nat.le_succ _⟩

end StoreReads

namespace HoldsBetween

variable {P Q : (Ref → Option String) → SymbolTable → Prop}

theorem mono (h : HoldsBetween a b P)
    (hpq : ∀ texts table, b.symbols.Extends table → P texts table → Q texts table) :
    HoldsBetween a b Q := by
  obtain ⟨texts, hbetween, hp⟩ := h
  exact ⟨texts, hbetween, fun texts' table hagree hext => hpq _ _ hext (hp _ _ hagree hext)⟩

/-- What does not depend on texts holds of all of them. -/
theorem of_symbols (h : ∀ texts table, b.symbols.Extends table → P texts table) :
    HoldsBetween a b P := by
  refine ⟨fun _ => none, fun ref text href => ?_, fun texts table _ => h texts table⟩
  cases href

/-- What holds between stores in a row holds between the first and the last one. -/
theorem and (h : HoldsBetween a b P) (h' : HoldsBetween b c Q) (hab : StoreReads a b)
    (hbc : StoreReads b c) : HoldsBetween a c fun texts table => P texts table ∧ Q texts table := by
  obtain ⟨texts, hbetween, hp⟩ := h
  obtain ⟨others, hothers, hq⟩ := h'
  refine ⟨fun ref => if ref < b.nextRef then texts ref else others ref, fun ref text href => ?_,
    fun texts' table hagree hext => ⟨hp _ _ (fun ref hle hlt => ?_) (hbc.symbols.trans hext),
      hq _ _ (fun ref hle hlt => ?_) hext⟩⟩
  · dsimp only at href
    split at href
    · exact ⟨(hbetween _ _ href).1, (hbetween _ _ href).2.trans_le hbc.refs⟩
    · exact ⟨hab.refs.trans (hothers _ _ href).1, (hothers _ _ href).2⟩
  · exact (hagree ref hle (hlt.trans_le hbc.refs)).trans (if_pos hlt)
  · exact (hagree ref (hab.refs.trans hle) hlt).trans (if_neg hle.not_gt)

/-- The next place is taken by a string, or by something else. -/
theorem object (a : Store) (text? : Option String) :
    HoldsBetween a { a with nextRef := a.nextRef + 1 } fun texts _ =>
      texts a.nextRef = text? := by
  refine ⟨fun ref => if ref = a.nextRef then text? else none, fun ref text href => ?_,
    fun texts' table hagree _ => (hagree _ le_rfl (Nat.lt_succ_self _)).trans (if_pos rfl)⟩
  dsimp only at href
  split at href
  · next heq => exact heq ▸ ⟨le_rfl, Nat.lt_succ_self _⟩
  · cases href

/-- A list that is put together at last takes a place of its own. -/
theorem list {vs : List Value} {ps : List Phrase} (hab : StoreReads a b)
    (h : HoldsBetween a b fun texts table => List.Forall₂ (Value.Written texts table) vs ps) :
    HoldsBetween a (b.list vs).2 fun texts table =>
      (b.list vs).1.Written texts table (.list ps) := by
  cases vs with
  | nil =>
    refine h.mono fun texts table _ hvs => ?_
    cases hvs
    exact .nil
  | cons v vs =>
    refine (h.and (.object b none) hab (.object b)).mono fun texts table _ ⟨hvs, hnone⟩ => ?_
    cases hvs with
    | cons hv hvs => exact .list hnone hv hvs

end HoldsBetween

/-! ## The values of phrases -/

theorem reads_list (store : Store) (vs : List Value) : StoreReads store (store.list vs).2 := by
  cases vs with
  | nil => exact .refl store
  | cons v vs => exact .object store

theorem reads_atomValue (store : Store) (text : String) :
    StoreReads store (atomValue store text).2 :=
  atomValue_elim (fun made => StoreReads store made.2) store text (fun _ => .refl store)
    (.refl store) (fun _ _ => .refl store) fun _ _ => .intern store text

theorem written_atomValue (store : Store) (text : String) :
    HoldsBetween store (atomValue store text).2 fun texts table =>
      (atomValue store text).1.Written texts table (.atom text) := by
  rw [Expression.atomValue_eq]
  cases h : Expression.literal? text with
  | some v => exact .of_symbols fun _ _ _ => .literal h
  | none =>
    have hname : Expression.isName text = true := by rw [Expression.isName, h]; rfl
    exact .of_symbols fun texts table hext =>
      .symbol hname (hext.known (SymbolTable.lookup_intern _ _))

mutual

theorem reads_value (quote : Symbol) (store : Store) (p : Phrase) :
    StoreReads store (p.value quote store).2 := by
  cases p with
  | string text => exact .object store
  | atom text => exact reads_atomValue store text
  | quoted inner => exact (reads_value quote store inner).trans (reads_list _ _)
  | list items => exact (reads_valuesOf quote store items).trans (reads_list _ _)

theorem reads_valuesOf (quote : Symbol) (store : Store) (ps : List Phrase) :
    StoreReads store (valuesOf quote store ps).2 := by
  cases ps with
  | nil => exact .refl store
  | cons p ps => exact (reads_value quote store p).trans (reads_valuesOf quote _ ps)

end

mutual

/-- The value of a phrase is written so. -/
theorem written_value {quote : Symbol} {store : Store}
    (hquote : store.symbols.lookup "quote" = some quote) (p : Phrase) :
    HoldsBetween store (p.value quote store).2 fun texts table =>
      (p.value quote store).1.Written texts table p := by
  cases p with
  | string text => exact (HoldsBetween.object store text).mono fun _ _ _ => .string
  | atom text => exact written_atomValue store text
  | quoted inner =>
    have hreads := reads_value quote store inner
    exact ((written_value hquote inner).and (.object _ none) hreads (.object _)).mono
      fun texts table hext ⟨hv, hnone⟩ =>
        .quoted hnone (hext.known (hreads.symbols.known hquote)) hv
  | list items =>
    exact (written_valuesOf hquote items).list (reads_valuesOf quote store items)

/-- So are the values of phrases one after the other. -/
theorem written_valuesOf {quote : Symbol} {store : Store}
    (hquote : store.symbols.lookup "quote" = some quote) (ps : List Phrase) :
    HoldsBetween store (valuesOf quote store ps).2 fun texts table =>
      List.Forall₂ (Value.Written texts table) (valuesOf quote store ps).1 ps := by
  cases ps with
  | nil => exact .of_symbols fun _ _ _ => .nil
  | cons p ps =>
    have hreads := reads_value quote store p
    exact ((written_value hquote p).and
      (written_valuesOf (hreads.symbols.known hquote) ps) hreads (reads_valuesOf quote _ ps)).mono
      fun _ _ _ ⟨hv, hvs⟩ => .cons hv hvs

end

/-- A phrase that stands by itself is read as a value that is written so. -/
theorem exists_written (store : Store) (p : Phrase) :
    StoreReads store (p.read store).2 ∧ ∃ texts : Ref → Option String,
      (∀ ref text, texts ref = some text → ref < (p.read store).2.nextRef) ∧
      (p.read store).1.Written texts (p.read store).2.symbols p := by
  have hquote : (store.intern "quote").2.symbols.lookup "quote" = some (store.intern "quote").1 :=
    SymbolTable.lookup_intern _ _
  obtain ⟨texts, hbetween, hwritten⟩ := written_value hquote p
  exact ⟨(StoreReads.intern store "quote").trans (reads_value _ _ p), texts,
    fun ref text h => (hbetween ref text h).2, hwritten _ _ (fun _ _ _ => rfl) (.refl _)⟩

end Phrase

end StackLisp
