import Mathlib.Data.Finset.Card
import StackLisp.Symbol

/-!
# The identity of symbols

A symbol table is worked with for as long as an interpreter lives. Whatever is interned, looked up
and generated in whatever order, each symbol is made at one moment only, its origin, and all that is
given out later under its name is that same symbol. The keys of the names may come from any
`Interner` that is `Lawful`.

- `SymbolTable.Operation`, `SymbolTable.tableAfter`: operations on a table, one after the other;
- `SymbolTable.Gives`: what the operation at a place gives;
- `SymbolTable.Originates`: the operation at a place makes a symbol;
- `SymbolTable.Gives.origin`, `SymbolTable.Originates.unique`: every symbol has one origin;
- `SymbolTable.eq_of_generatedName_eq`: the names of generated symbols tell their serial numbers;
- `symbols_keep_identity`: the identity of symbols over whole runs.
-/

namespace StackLisp

namespace SymbolTable

/-! ## Serial numbers -/

/-- The number that a hexadecimal digit stands for. -/
def digitValue (c : Char) : Nat :=
  if c.isDigit then c.toNat - '0'.toNat else c.toNat - 'a'.toNat + 10

/-- The number that some hexadecimal digits stand for, after a number read before. -/
def hexValue (n : Nat) (digits : List Char) : Nat :=
  digits.foldl (fun n c => 16 * n + digitValue c) n

theorem hexValue_append (n : Nat) (ds es : List Char) :
    hexValue n (ds ++ es) = hexValue (hexValue n ds) es :=
  List.foldl_append

theorem digitValue_digitChar {n : Nat} (h : n < 16) : digitValue n.digitChar = n := by
  revert n
  decide

/-- The digits of a number stand for that number. -/
theorem hexValue_toDigits (n : Nat) : hexValue 0 (Nat.toDigits 16 n) = n := by
  induction n using Nat.strong_induction_on with
  | _ n ih =>
    rw [Nat.toDigits_eq_if (by decide)]
    split
    · next hlt => simp [hexValue, digitValue_digitChar hlt]
    · next hge =>
      have hmod : n % 16 < 16 := Nat.mod_lt _ (by decide)
      rw [hexValue_append, ih (n / 16) (by omega), hexValue, List.foldl_cons, List.foldl_nil,
        digitValue_digitChar hmod]
      omega

/-- Leading zeros count for nothing. -/
theorem hexValue_serial (n : UInt32) : hexValue 0 (serial n).toList = n.toNat := by
  have hzeros : ∀ count, hexValue 0 (List.replicate count '0') = 0 := by
    intro count
    induction count with
    | zero => rfl
    | succ count ih => exact ih
  rw [serial, String.toList_ofList, hexValue_append, hzeros, hexValue_toDigits]

theorem dash_not_mem_serial (n : UInt32) : '-' ∉ (serial n).toList := by
  have hdigits : ∀ m, '-' ∉ Nat.toDigits 16 m := by
    intro m
    induction m using Nat.strong_induction_on with
    | _ m ih =>
      rw [Nat.toDigits_eq_if (by decide)]
      split
      · simp
      · next hge => simpa using ih (m / 16) (by omega)
  simp [serial, hdigits n.toNat]

/-- The name of the symbol that is generated from a stem with a serial number. -/
def generatedName (stem : String) (n : UInt32) : String :=
  stem ++ "-" ++ serial n

/-- Whatever the stems, names of generated symbols tell their serial numbers: these follow the last
dash. -/
theorem eq_of_generatedName_eq {stem stem' : String} {m n : UInt32}
    (h : generatedName stem m = generatedName stem' n) : m = n := by
  have hsplit : ∀ (stem : String) (n : UInt32),
      ((generatedName stem n).toList.reverse.takeWhile (· ≠ '-')) = (serial n).toList.reverse := by
    intro stem n
    have hnone : ∀ c ∈ (serial n).toList.reverse, decide (c ≠ '-') = true := by
      intro c hc
      rw [List.mem_reverse] at hc
      exact decide_eq_true fun heq => dash_not_mem_serial n (heq ▸ hc)
    rw [generatedName, String.toList_append, String.toList_append, List.reverse_append,
      List.reverse_append, List.takeWhile_append_of_pos hnone]
    simp
  have hdigits : (serial m).toList = (serial n).toList := by
    rw [← List.reverse_inj, ← hsplit stem, ← hsplit stem', h]
  have hvalue := congrArg (hexValue 0) hdigits
  rw [hexValue_serial, hexValue_serial] at hvalue
  exact UInt32.toNat_inj.1 hvalue

variable {keys : Interner} [keys.Lawful]

/-! ## Operations -/

/-- What is done with a symbol table. -/
inductive Operation where
  | intern (name : String)
  | lookup (name : String)
  | gensym (stem : String)
deriving DecidableEq

/-- The symbol that an operation gives, if any, and the table afterwards. -/
def perform (table : SymbolTable keys) : Operation → Option Symbol × SymbolTable keys
  | .intern name => (some (table.intern name).1, (table.intern name).2)
  | .lookup name => (table.lookup name, table)
  | .gensym stem => (some (table.gensym stem).1, (table.gensym stem).2)

variable (keys) in
/-- The table after the first `i` of some operations on a new table. -/
def tableAfter (ops : List Operation) (i : Nat) : SymbolTable keys :=
  (ops.take i).foldl (fun table op => (table.perform op).2) empty

variable (keys) in
/-- The operation at place `i` gives the symbol. -/
structure Gives (ops : List Operation) (i : Nat) (op : Operation) (s : Symbol) : Prop where
  here : ops[i]? = some op
  answer : ((tableAfter keys ops i).perform op).1 = some s

/-- How many symbols were generated by the first `i` operations. -/
def generatedBefore (ops : List Operation) (i : Nat) : Nat :=
  (ops.take i).countP fun
    | .gensym _ => true
    | _ => false

/-- The names that were interned by the first `i` operations. -/
def internedBefore (ops : List Operation) (i : Nat) : Finset String :=
  ((ops.take i).filterMap fun
    | .intern name => some name
    | _ => none).toFinset

section Step

variable {table : SymbolTable keys} {name : String} {s : Symbol}

/-- Interning gives the symbol that the name has, or makes one with the next number. -/
theorem intern_cases (table : SymbolTable keys) (name : String) :
    (∃ s, table.lookup name = some s ∧ table.intern name = (s, table)) ∨
      table.lookup name = none ∧ (table.intern name).1 = ⟨table.nextId, name⟩ ∧
        (table.intern name).2.nextId = table.nextId + 1 ∧
        (table.intern name).2.size = table.size + 1 := by
  cases h : table.lookup name with
  | some s => exact .inl ⟨s, rfl, intern_of_lookup h⟩
  | none =>
    obtain ⟨hsymbol, -, hcanonical, hnext, -⟩ := intern_new h
    exact .inr ⟨rfl, hsymbol, hnext, by rw [size, hcanonical, Array.size_push, size]⟩

/-- No operation takes a symbol away from a name. -/
theorem lookup_perform (op : Operation) (h : table.lookup name = some s) :
    (table.perform op).2.lookup name = some s := by
  cases op with
  | intern other =>
    by_cases heq : name = other
    · subst heq
      rw [perform, intern_of_lookup h]
      exact h
    · rw [perform, lookup_intern_of_ne _ heq]
      exact h
  | lookup other => exact h
  | gensym stem => exact h

/-- A name comes to have a symbol only by being interned. -/
theorem lookup_of_perform {op : Operation} (h : (table.perform op).2.lookup name = some s) :
    table.lookup name = some s ∨
      op = .intern name ∧ table.lookup name = none ∧ (table.perform op).1 = some s := by
  cases op with
  | intern other =>
    rw [perform] at h
    by_cases heq : name = other
    · subst heq
      rw [lookup_intern] at h
      obtain ⟨t, ht, hintern⟩ | ⟨hfree, -⟩ := intern_cases table name
      · rw [hintern] at h
        exact .inl (ht.trans h)
      · exact .inr ⟨rfl, hfree, h⟩
    · rw [lookup_intern_of_ne _ heq] at h
      exact .inl h
  | lookup other => exact .inl h
  | gensym stem => exact .inl h

theorem nextId_le_perform (table : SymbolTable keys) (op : Operation) :
    table.nextId ≤ (table.perform op).2.nextId := by
  cases op with
  | intern name =>
    obtain ⟨s, -, hintern⟩ | ⟨-, -, hnext, -⟩ := intern_cases table name
    · rw [perform, hintern]
    · rw [perform, hnext]
      exact Nat.le_succ _
  | lookup name => exact le_rfl
  | gensym stem => exact Nat.le_succ _

end Step

/-! ## Runs -/

variable {ops : List Operation} {i j : Nat} {op op' : Operation} {name stem : String} {s t : Symbol}

theorem tableAfter_succ (h : ops[i]? = some op) :
    tableAfter keys ops (i + 1) = ((tableAfter keys ops i).perform op).2 := by
  rw [tableAfter, tableAfter, List.take_add_one, h, Option.toList_some, List.foldl_append,
    List.foldl_cons, List.foldl_nil]

theorem take_succ_of_none (h : ops[i]? = none) : ops.take (i + 1) = ops.take i := by
  rw [List.take_add_one, h, Option.toList_none, List.append_nil]

theorem tableAfter_of_none (h : ops[i]? = none) :
    tableAfter keys ops (i + 1) = tableAfter keys ops i := by
  rw [tableAfter, take_succ_of_none h, ← tableAfter]

theorem lookup_tableAfter (h : (tableAfter keys ops i).lookup name = some s) (hle : i ≤ j) :
    (tableAfter keys ops j).lookup name = some s := by
  induction j, hle using Nat.le_induction with
  | base => exact h
  | succ j _ ih =>
    cases hop : ops[j]? with
    | none => rwa [tableAfter_of_none hop]
    | some op =>
      rw [tableAfter_succ hop]
      exact lookup_perform op ih

variable (keys) in
theorem nextId_tableAfter (ops : List Operation) (hle : i ≤ j) :
    (tableAfter keys ops i).nextId ≤ (tableAfter keys ops j).nextId := by
  induction j, hle using Nat.le_induction with
  | base => exact le_rfl
  | succ j _ ih =>
    cases hop : ops[j]? with
    | none => rwa [tableAfter_of_none hop]
    | some op =>
      rw [tableAfter_succ hop]
      exact ih.trans (nextId_le_perform _ op)

/-- What was interned once is known by its name from then on. -/
theorem Gives.lookup (h : Gives keys ops i (.intern name) s) (hlt : i < j) :
    (tableAfter keys ops j).lookup name = some s := by
  have hfirst : (tableAfter keys ops (i + 1)).lookup name = some s := by
    rw [tableAfter_succ h.here, perform, lookup_intern]
    exact h.answer
  exact lookup_tableAfter hfirst hlt

/-- A name is interned to the same symbol every time. -/
theorem Gives.eq_of_intern (hs : Gives keys ops i (.intern name) s)
    (ht : Gives keys ops j (.intern name) t) : s = t := by
  have hlater : ∀ {i j : Nat} {s t : Symbol}, Gives keys ops i (.intern name) s →
      Gives keys ops j (.intern name) t → i < j → s = t := by
    intro i j s t hs ht hlt
    have hanswer := ht.answer
    rw [perform, intern_of_lookup (hs.lookup hlt)] at hanswer
    exact Option.some.inj hanswer
  rcases Nat.lt_trichotomy i j with hlt | rfl | hgt
  · exact hlater hs ht hlt
  · exact Option.some.inj (hs.answer.symm.trans ht.answer)
  · exact (hlater ht hs hgt).symm

/-! ## Origins -/

variable (keys) in
/-- The operation at place `i` makes the symbol: it takes the next number. -/
structure Originates (ops : List Operation) (i : Nat) (op : Operation) (s : Symbol) : Prop
    extends Gives keys ops i op s where
  id : s.id = (tableAfter keys ops i).nextId
  next : (tableAfter keys ops (i + 1)).nextId = s.id + 1

/-- Two operations that make symbols with the same number are the same. -/
theorem Originates.unique (hs : Originates keys ops i op s) (ht : Originates keys ops j op' t)
    (hid : s.id = t.id) : i = j := by
  -- the next number only grows, and it passes the one that is taken
  have hbefore : ∀ {i j : Nat} {op op' : Operation} {s t : Symbol}, Originates keys ops i op s →
      Originates keys ops j op' t → i < j → s.id < t.id := by
    intro i j op op' s t hs ht hlt
    have := nextId_tableAfter keys ops (Nat.succ_le_of_lt hlt)
    rw [hs.next, ← ht.id] at this
    exact this
  rcases Nat.lt_trichotomy i j with hlt | heq | hgt
  · exact absurd hid (hbefore hs ht hlt).ne
  · exact heq
  · exact absurd hid (hbefore ht hs hgt).ne'

theorem Gives.originates_gensym (h : Gives keys ops i (.gensym stem) s) :
    Originates keys ops i (.gensym stem) s := by
  have hs : ((tableAfter keys ops i).gensym stem).1 = s := Option.some.inj h.answer
  refine ⟨h, by rw [← hs]; rfl, ?_⟩
  rw [tableAfter_succ h.here, ← hs]
  rfl

/-- Interning a name that has no symbol yet makes one of that name. -/
theorem Gives.originates_intern (h : Gives keys ops i (.intern name) s)
    (hfree : (tableAfter keys ops i).lookup name = none) :
    Originates keys ops i (.intern name) s ∧ s.name = name := by
  have hs : ((tableAfter keys ops i).intern name).1 = s := Option.some.inj h.answer
  obtain ⟨t, ht, -⟩ | ⟨-, hmade, hnext, -⟩ := intern_cases (tableAfter keys ops i) name
  · rw [hfree] at ht
    cases ht
  · rw [hs] at hmade
    refine ⟨⟨h, by rw [hmade], ?_⟩, by rw [hmade]⟩
    rw [tableAfter_succ h.here, perform, hnext, hmade]

/-- The symbol of a name was made when the name was interned for the first time. -/
theorem exists_origin (h : (tableAfter keys ops i).lookup name = some s) :
    ∃ j < i, Originates keys ops j (.intern name) s ∧ s.name = name := by
  induction i with
  | zero => simp [tableAfter, lookup, empty] at h
  | succ i ih =>
    cases hop : ops[i]? with
    | none =>
      rw [tableAfter_of_none hop] at h
      obtain ⟨j, hlt, horigin⟩ := ih h
      exact ⟨j, hlt.trans (Nat.lt_succ_self i), horigin⟩
    | some op =>
      rw [tableAfter_succ hop] at h
      obtain hknown | ⟨rfl, hfree, hanswer⟩ := lookup_of_perform h
      · obtain ⟨j, hlt, horigin⟩ := ih hknown
        exact ⟨j, hlt.trans (Nat.lt_succ_self i), horigin⟩
      · exact ⟨i, Nat.lt_succ_self i, Gives.originates_intern ⟨hop, hanswer⟩ hfree⟩

/-- Every symbol that is given out under a name was made when the name was interned. -/
theorem Gives.origin (h : Gives keys ops i op s) (hop : op = .intern name ∨ op = .lookup name) :
    ∃ j, Originates keys ops j (.intern name) s ∧ s.name = name := by
  have hlookup : (tableAfter keys ops i).lookup name = some s →
      ∃ j, Originates keys ops j (.intern name) s ∧ s.name = name := fun hknown => by
    obtain ⟨j, -, horigin⟩ := exists_origin hknown
    exact ⟨j, horigin⟩
  rcases hop with rfl | rfl
  · cases hknown : (tableAfter keys ops i).lookup name with
    | none => exact ⟨i, h.originates_intern hknown⟩
    | some t =>
      have hanswer := h.answer
      rw [perform, intern_of_lookup hknown] at hanswer
      exact hlookup (hknown.trans hanswer)
  · exact hlookup h.answer

/-- Every symbol has an origin, at the operation that gives it if that generates symbols. -/
theorem Gives.exists_originates (h : Gives keys ops i op s) :
    ∃ j op', Originates keys ops j op' s ∧ ((∃ stem, op' = .gensym stem) → j = i) := by
  cases op with
  | intern name =>
    obtain ⟨j, horigin, -⟩ := h.origin (.inl rfl)
    exact ⟨j, _, horigin, by simp⟩
  | lookup name =>
    obtain ⟨j, horigin, -⟩ := h.origin (.inr rfl)
    exact ⟨j, _, horigin, by simp⟩
  | gensym stem => exact ⟨i, _, h.originates_gensym, fun _ => rfl⟩

/-- Symbols with the same number are the same. -/
theorem Gives.eq_of_id (hs : Gives keys ops i op s) (ht : Gives keys ops j op' t)
    (hid : s.id = t.id) : s = t := by
  -- both were made with this number, hence by one operation
  obtain ⟨m, opₘ, hm, -⟩ := hs.exists_originates
  obtain ⟨n, opₙ, hn, -⟩ := ht.exists_originates
  obtain rfl := hm.unique hn hid
  obtain rfl := Option.some.inj (hm.here.symm.trans hn.here)
  exact Option.some.inj (hm.answer.symm.trans hn.answer)

/-! ## Counts -/

variable (keys) in
theorem generated_tableAfter (ops : List Operation) (i : Nat) :
    (tableAfter keys ops i).generated = UInt32.ofNat (generatedBefore ops i) := by
  induction i with
  | zero => rfl
  | succ i ih =>
    cases hop : ops[i]? with
    | none =>
      rw [tableAfter_of_none hop, ih, generatedBefore, generatedBefore, take_succ_of_none hop]
    | some op =>
      rw [tableAfter_succ hop, generatedBefore, List.take_add_one, hop, Option.toList_some,
        List.countP_append, ← generatedBefore]
      -- interning and looking up generate nothing
      cases op with
      | intern name =>
        have hsame : ((tableAfter keys ops i).intern name).2.generated =
            (tableAfter keys ops i).generated := by
          cases hname : (tableAfter keys ops i).lookup name with
          | some s => rw [intern_of_lookup hname]
          | none => exact (intern_new hname).2.2.2.2
        simpa [perform, hsame] using ih
      | lookup name => simpa [perform] using ih
      | gensym stem => simp [perform, gensym, ih]

/-- A generated symbol is named by its stem and by how many were generated before. -/
theorem Gives.name_gensym (h : Gives keys ops i (.gensym stem) s) :
    s.name = generatedName stem (UInt32.ofNat (generatedBefore ops i)) := by
  rw [← Option.some.inj h.answer, ← generated_tableAfter keys]
  rfl

/-- Symbols that are generated later have a higher count. -/
theorem generatedBefore_lt (h : ops[i]? = some (.gensym stem)) (hlt : i < j) :
    generatedBefore ops i < generatedBefore ops j := by
  have hsucc : generatedBefore ops (i + 1) = generatedBefore ops i + 1 := by
    rw [generatedBefore, List.take_add_one, h, Option.toList_some, List.countP_append,
      ← generatedBefore]
    rfl
  have hmono : generatedBefore ops (i + 1) ≤ generatedBefore ops j :=
    (List.take_sublist_take_left (Nat.succ_le_of_lt hlt)).countP_le
  omega

theorem mem_internedBefore :
    name ∈ internedBefore ops i ↔ ∃ j < i, ops[j]? = some (.intern name) := by
  have hmem : name ∈ internedBefore ops i ↔ .intern name ∈ ops.take i := by
    rw [internedBefore, List.mem_toFinset, List.mem_filterMap]
    constructor
    · rintro ⟨op, hop, hname⟩
      split at hname
      · exact Option.some.inj hname ▸ hop
      · cases hname
    · exact fun hop => ⟨_, hop, rfl⟩
  simp only [hmem, List.mem_iff_getElem?, List.getElem?_take, Option.ite_none_right_eq_some]

variable (keys) in
theorem exists_gives_intern (h : ops[i]? = some (.intern name)) :
    ∃ s, Gives keys ops i (.intern name) s :=
  ⟨_, h, rfl⟩

/-- A name has the symbol that it was interned to before. -/
theorem lookup_tableAfter_iff :
    (tableAfter keys ops i).lookup name = some s ↔ ∃ j < i, Gives keys ops j (.intern name) s := by
  constructor
  · intro h
    obtain ⟨j, hlt, horigin, -⟩ := exists_origin h
    exact ⟨j, hlt, horigin.toGives⟩
  · rintro ⟨j, hlt, hs⟩
    exact hs.lookup hlt

/-- A name has a symbol if and only if it was interned. -/
theorem lookup_eq_none_iff :
    (tableAfter keys ops i).lookup name = none ↔ name ∉ internedBefore ops i := by
  rw [mem_internedBefore]
  constructor
  · rintro hnone ⟨j, hlt, hj⟩
    obtain ⟨s, hs⟩ := exists_gives_intern keys hj
    rw [hs.lookup hlt] at hnone
    cases hnone
  · intro hnot
    cases hknown : (tableAfter keys ops i).lookup name with
    | none => rfl
    | some s =>
      obtain ⟨j, hlt, horigin, -⟩ := exists_origin hknown
      exact absurd ⟨j, hlt, horigin.here⟩ hnot

/-- The table holds as many symbols as names were interned. -/
theorem size_tableAfter (ops : List Operation) (i : Nat) :
    (tableAfter keys ops i).size = (internedBefore ops i).card := by
  induction i with
  | zero => rfl
  | succ i ih =>
    cases hop : ops[i]? with
    | none =>
      rw [tableAfter_of_none hop, ih, internedBefore, internedBefore, take_succ_of_none hop]
    | some op =>
      rw [tableAfter_succ hop, internedBefore, List.take_add_one, hop, Option.toList_some,
        List.filterMap_append, List.toFinset_append, ← internedBefore]
      cases op with
      | intern name =>
        -- the set of names grows exactly when the table does
        obtain ⟨s, hs, hintern⟩ | ⟨hfree, -, -, hsize⟩ := intern_cases (tableAfter keys ops i) name
        · have hmem : name ∈ internedBefore ops i := by
            by_contra hnot
            rw [lookup_eq_none_iff.2 hnot] at hs
            cases hs
          rw [perform, hintern]
          simpa [hmem] using ih
        · rw [perform, hsize, ih]
          simp [Finset.card_insert_of_notMem (lookup_eq_none_iff.1 hfree), Finset.union_comm]
      | lookup name => simpa [perform] using ih
      | gensym stem => simpa [perform, gensym, size] using ih

end SymbolTable

open SymbolTable

/-- The identity of symbols over any sequence of operations on one table. Symbols are told apart by
their numbers. Interning always gives a symbol, and the same one exactly for the same name. Looking
a name up gives the symbol that the name was interned to before, or nothing if it was not, and
leaves the table alone. A generated symbol is given by no other operation, before or after. Symbols
have the names that they were made with. The table counts the names that were interned, and keeps
as many symbols as there are keys, each at the key of its name. The first `2 ^ 32` generated symbols
all have different names, whatever their stems. -/
theorem symbols_keep_identity (keys : Interner) [keys.Lawful] (ops : List Operation) :
    (∀ i j op op' s t, Gives keys ops i op s → Gives keys ops j op' t → (s.id = t.id ↔ s = t)) ∧
    (∀ i name, ops[i]? = some (.intern name) → ∃ s, Gives keys ops i (.intern name) s) ∧
    (∀ i j a b s t, Gives keys ops i (.intern a) s → Gives keys ops j (.intern b) t →
      (s = t ↔ a = b)) ∧
    (∀ i name, ops[i]? = some (.lookup name) →
      (∀ s, Gives keys ops i (.lookup name) s ↔ ∃ j < i, Gives keys ops j (.intern name) s) ∧
      ((∀ s, ¬ Gives keys ops i (.lookup name) s) ↔ ∀ j < i, ops[j]? ≠ some (.intern name)) ∧
      tableAfter keys ops (i + 1) = tableAfter keys ops i) ∧
    (∀ i stem, ops[i]? = some (.gensym stem) → ∃ g, Gives keys ops i (.gensym stem) g ∧
      ∀ j op s, Gives keys ops j op s → j ≠ i → s.id ≠ g.id) ∧
    (∀ i name s, Gives keys ops i (.intern name) s ∨ Gives keys ops i (.lookup name) s →
      s.name = name) ∧
    (∀ i stem g, Gives keys ops i (.gensym stem) g →
      g.name = stem ++ "-" ++ serial (UInt32.ofNat (generatedBefore ops i))) ∧
    (∀ i, (tableAfter keys ops i).size = (internedBefore ops i).card) ∧
    (∀ i, (tableAfter keys ops i).canonical.size = keys.size (tableAfter keys ops i).names ∧
      ∀ name s, (∃ j < i, Gives keys ops j (.intern name) s) ↔
        ∃ key, keys.get? (tableAfter keys ops i).names name = some key ∧
          (tableAfter keys ops i).canonical[key]? = some s) ∧
    ∀ i j stem stem' g g', Gives keys ops i (.gensym stem) g → Gives keys ops j (.gensym stem') g' →
      generatedBefore ops i < UInt32.size → generatedBefore ops j < UInt32.size → i ≠ j →
      g.name ≠ g'.name := by
  refine ⟨?_, fun i name => exists_gives_intern keys, ?_, ?_, ?_, ?_,
    fun i stem g => Gives.name_gensym, size_tableAfter ops, ?_, ?_⟩
  · exact fun i j op op' s t hs ht => ⟨hs.eq_of_id ht, fun h => h ▸ rfl⟩
  · intro i j a b s t hs ht
    constructor
    · rintro rfl
      -- one symbol has one origin, and there one name was interned
      obtain ⟨m, hm, -⟩ := hs.origin (.inl rfl)
      obtain ⟨n, hn, -⟩ := ht.origin (.inl rfl)
      obtain rfl := hm.unique hn rfl
      simpa using hm.here.symm.trans hn.here
    · rintro rfl
      exact hs.eq_of_intern ht
  · intro i name hi
    have hgives : ∀ s, Gives keys ops i (.lookup name) s ↔
        (tableAfter keys ops i).lookup name = some s := fun s =>
      ⟨fun h => h.answer, fun h => ⟨hi, h⟩⟩
    refine ⟨fun s => (hgives s).trans lookup_tableAfter_iff, ?_, tableAfter_succ hi⟩
    · simp only [hgives, ← Option.eq_none_iff_forall_ne_some, lookup_eq_none_iff,
        mem_internedBefore, not_exists, not_and, ne_eq]
  · intro i stem hi
    have hg : Gives keys ops i (.gensym stem) _ := ⟨hi, rfl⟩
    refine ⟨_, hg, ?_⟩
    intro j op s hs hne hid
    -- the only origin of the symbol is here, so the other operation generates it, too
    obtain ⟨m, op', hm, hhere⟩ := hs.exists_originates
    obtain rfl := hm.unique hg.originates_gensym hid
    have hop : op' = .gensym stem := Option.some.inj (hm.here.symm.trans hi)
    exact hne (hhere ⟨stem, hop⟩).symm
  · rintro i name s (hs | hs)
    · obtain ⟨j, -, hname⟩ := hs.origin (.inl rfl)
      exact hname
    · obtain ⟨j, -, hname⟩ := hs.origin (.inr rfl)
      exact hname
  · exact fun i => ⟨(tableAfter keys ops i).aligned.size_eq,
      fun name s => lookup_tableAfter_iff.symm.trans lookup_eq_some⟩
  · intro i j stem stem' g g' hg hg' hi hj hne heq
    -- below the limit, the counts are told by the serial numbers
    rw [hg.name_gensym, hg'.name_gensym] at heq
    have hserial := congrArg UInt32.toNat (eq_of_generatedName_eq heq)
    rw [UInt32.toNat_ofNat_of_lt' hi, UInt32.toNat_ofNat_of_lt' hj] at hserial
    rcases Nat.lt_or_gt_of_ne hne with hlt | hlt
    · exact (generatedBefore_lt hg.here hlt).ne hserial
    · exact (generatedBefore_lt hg'.here hlt).ne' hserial

/-- The name of a generated symbol is interned, which gives another symbol of the same name. -/
theorem symbols_keep_identity_generated : ∃ ops g s, Gives .hashed ops 0 (.gensym "g") g ∧
    Gives .hashed ops 1 (.intern "g-0000") s ∧ s.name = g.name ∧ s.id ≠ g.id := by
  obtain ⟨-, hintern, -, -, hgensym, hname, hgenerated, -⟩ :=
    symbols_keep_identity .hashed [.gensym "g", .intern "g-0000"]
  obtain ⟨g, hg, hother⟩ := hgensym 0 "g" rfl
  obtain ⟨s, hs⟩ := hintern 1 "g-0000" rfl
  refine ⟨_, g, s, hg, hs, ?_, hother 1 _ s hs Nat.one_ne_zero⟩
  rw [hname 1 _ s (.inl hs), hgenerated 0 _ g hg]
  decide +kernel

end StackLisp
