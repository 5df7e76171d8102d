import StackLisp.Compiler.Builder
import StackLisp.Proofs.Printing
import StackLisp.Proofs.Shapes

/-!
# The language of forms

Which values are forms of the language, said without the compiler, and what their code needs. A
`Form` is a value with its parts told apart; unlike the terms of compiled code, it keeps function
literals as they are written.

- `Value.Denotes k v f`: the value is written as the form is, when no macros are left in it;
- `Form.nesting`: how deep forms nest in a form, those in function literals included;
- `Form.Fits`: the functions in a form need no more words and constants than there can be.
-/

namespace StackLisp

/-! ## Grammar -/

/-- A form with its parts told apart. -/
inductive Form where
  /-- A value that stands for itself or was quoted. -/
  | constant (v : Value)
  | lookup (s : Symbol)
  | conditional (test consequent alternative : Form)
  | assignment (way : Assignment) (target : Symbol) (value : Form)
  | function (name : Option Symbol) (parameters : Parameters) (body : List Form)
  /-- A function and its arguments. -/
  | call (items : List Form)

/-- The value is written as the form is. Items that a special form has no use for may follow its
parts, and an alternative that is absent is the empty list. -/
inductive Value.Denotes (k : Keywords) : Value → Form → Prop
  | atom {v : Value} (hatom : v.IsAtom) (hsymbol : v.symbol? = none) : Denotes k v (.constant v)
  | lookup {s : Symbol} : Denotes k (.symbol s) (.lookup s)
  | quotation {ref : Ref} {head v : Value} {extra : List Value}
      (hhead : k.special? head = some .quotation) :
      Denotes k (.list ref head (v :: extra)) (.constant v)
  | conditional {ref : Ref} {head test consequent : Value} {extra : List Value} {t c a : Form}
      (hhead : k.special? head = some .conditional) (htest : Denotes k test t)
      (hthen : Denotes k consequent c) (helse : Denotes k (extra.headD .nil) a) :
      Denotes k (.list ref head (test :: consequent :: extra)) (.conditional t c a)
  | assignment {ref : Ref} {head value : Value} {way : Assignment} {target : Symbol}
      {extra : List Value} {f : Form} (hhead : k.special? head = some (.assignment way))
      (hvalue : Denotes k value f) :
      Denotes k (.list ref head (.symbol target :: value :: extra)) (.assignment way target f)
  | function {ref : Ref} {head listed : Value} (name : Option Symbol) {items body : List Value}
      {parameters : Parameters} {forms : List Form} (hhead : k.special? head = some .function)
      (hlisted : listed.items? = some items) (hnamed : parameters.Named k.rest items)
      (hbody : List.Forall₂ (Denotes k) body forms) :
      Denotes k (.list ref head ((name.map .symbol).toList ++ listed :: body))
        (.function name parameters forms)
  | call {ref : Ref} {head : Value} {args : List Value} {forms : List Form}
      (hhead : k.special? head = none) (hitems : List.Forall₂ (Denotes k) (head :: args) forms) :
      Denotes k (.list ref head args) (.call forms)

/-! ## Keywords -/

/-- The keywords are symbols of their names. -/
theorem Keywords.names_intern {store : Store} (h : store.symbols.Named) :
    (Keywords.intern store).1.function.name = "fn" ∧
    (Keywords.intern store).1.quote.name = "quote" ∧
    (Keywords.intern store).1.conditional.name = "if" ∧
    (Keywords.intern store).1.define.name = "def" ∧
    (Keywords.intern store).1.assign.name = "set!" := by
  have hname : ∀ {s : Store} (name : String), s.symbols.Named →
      (s.intern name).1.name = name ∧ (s.intern name).2.symbols.Named := fun name hs =>
    ⟨SymbolTable.name_intern hs name, hs.intern name⟩
  have h₁ := hname "fn" h
  have h₂ := hname "quote" h₁.2
  have h₃ := hname "if" h₂.2
  have h₄ := hname "def" h₃.2
  have h₅ := hname "set!" h₄.2
  simp only [Keywords.intern, h₁.1, h₂.1, h₃.1, h₄.1, h₅.1, and_self]

/-- A symbol with another name marks no special form. -/
theorem Keywords.isSpecial_of_name {store : Store} (h : store.symbols.Named) (s : Symbol)
    (hs : s.name ∉ ["fn", "quote", "if", "def", "set!"]) :
    (Keywords.intern store).1.isSpecial s = false := by
  obtain ⟨h₁, h₂, h₃, h₄, h₅⟩ := names_intern h
  have hne : ∀ {s' : Symbol} {name : String}, s'.name = name → s.name ≠ name → s ≠ s' := by
    rintro s' name rfl hname rfl
    exact hname rfl
  simp only [List.mem_cons, List.not_mem_nil, or_false, not_or] at hs
  simp only [isSpecial, Bool.or_eq_false_iff, decide_eq_false_iff_not]
  exact ⟨⟨⟨⟨hne h₁ hs.1, hne h₂ hs.2.1⟩, hne h₃ hs.2.2.1⟩, hne h₄ hs.2.2.2.1⟩, hne h₅ hs.2.2.2.2⟩

/-- The keywords of a store are told apart. -/
theorem Keywords.special?_intern {store : Store} (h : store.symbols.Named) :
    (Keywords.intern store).1.special? (.symbol (Keywords.intern store).1.conditional) =
      some .conditional ∧
    (Keywords.intern store).1.special? (.symbol (Keywords.intern store).1.assign) =
      some (.assignment .overwrite) := by
  obtain ⟨h₁, h₂, h₃, h₄, h₅⟩ := names_intern h
  have hne : ∀ {s s' : Symbol} {name name' : String}, s.name = name → s'.name = name' →
      name ≠ name' → s ≠ s' := by
    rintro s s' _ _ rfl rfl hname rfl
    exact hname rfl
  simp only [special?, hne h₃ h₁ (by decide), hne h₃ h₂ (by decide), hne h₅ h₁ (by decide),
    hne h₅ h₂ (by decide), hne h₅ h₃ (by decide), hne h₅ h₄ (by decide), if_true, if_false,
    and_self]

/-- Interning the keywords allocates nothing. -/
theorem Keywords.nextRef_intern (store : Store) :
    (Keywords.intern store).2.nextRef = store.nextRef := by
  have hsymbol : ∀ (s : Store) (name : String), (s.intern name).2.nextRef = s.nextRef :=
    fun _ _ => rfl
  simp only [Keywords.intern, hsymbol]

/-! ## Size -/

namespace Form

mutual

/-- How deep forms nest in a form, itself included. -/
def nesting : Form → Nat
  | .constant _ | .lookup _ => 1
  | .conditional test consequent alternative =>
    1 + max test.nesting (max consequent.nesting alternative.nesting)
  | .assignment _ _ value => 1 + value.nesting
  | .function _ _ body => 1 + nestingAll body
  | .call items => 1 + nestingAll items

/-- How deep forms nest in some forms. -/
def nestingAll : List Form → Nat
  | [] => 0
  | f :: fs => max f.nesting (nestingAll fs)

end

mutual

/-- How many words the code of a form takes. A function literal is one constant. -/
def words : Form → Nat
  | .constant _ => 2
  | .lookup _ => 3
  -- one jump over each branch
  | .conditional test consequent alternative =>
    test.words + 2 + (consequent.words + 2) + alternative.words
  | .assignment _ _ value => 2 + value.words + 1
  | .function _ _ _ => 3
  | .call items => wordsAll items + 2

/-- How many words the code of some forms takes. -/
def wordsAll : List Form → Nat
  | [] => 0
  | f :: fs => f.words + wordsAll fs

end

/-- How many words the code of a body takes, with one between its forms to drop a value. -/
def bodyWords : List Form → Nat
  | [] => 2
  | [f] => f.words
  | f :: g :: fs => f.words + 1 + bodyWords (g :: fs)

/-- How many words a function takes: word zero, its body and the return. -/
def functionWords (body : List Form) : Nat :=
  1 + bodyWords body + 1

end Form

/-- What a constant is found by among the constants of a function: its identity, or nothing for a
function literal, which is a new object and identical to no other constant. -/
abbrev Key := Option Identity

namespace Form

mutual

/-- The constants that the code of a form pushes, in order. -/
def keys : Form → List Key
  | .constant v => [some v.identity]
  | .lookup s => [some (.symbol s)]
  | .conditional test consequent alternative =>
    test.keys ++ (consequent.keys ++ alternative.keys)
  | .assignment _ target value => some (.symbol target) :: value.keys
  | .function _ _ _ => [none]
  | .call items => keysAll items

/-- The constants that the code of some forms pushes, in order. -/
def keysAll : List Form → List Key
  | [] => []
  | f :: fs => f.keys ++ keysAll fs

end

/-- The constants that the code of a body pushes; one without forms pushes the empty list. -/
def bodyKeys : List Form → List Key
  | [] => [some .nil]
  | fs => keysAll fs

end Form

namespace Key

/-- The index of a constant: its first place among those there are, or the next one. -/
def index (pool : List Key) : Key → Nat
  | some id => pool.idxOf (some id)
  | none => pool.length

/-- The places after a constant was pushed. -/
def grow (pool : List Key) : Key → List Key
  | some id => if some id ∈ pool then pool else pool ++ [some id]
  | none => pool ++ [none]

/-- The indexes of constants that are pushed one after the other. -/
def indexes : List Key → List Key → List Nat
  | _, [] => []
  | pool, s :: ss => index pool s :: indexes (grow pool s) ss

theorem indexes_append (pool ss ss' : List Key) :
    indexes pool (ss ++ ss') = indexes pool ss ++ indexes (ss.foldl grow pool) ss' := by
  induction ss generalizing pool with
  | nil => rfl
  | cons s ss ih => rw [List.cons_append, indexes, ih, indexes, List.cons_append, List.foldl_cons]

theorem length_grow_le (pool : List Key) (key : Key) :
    (grow pool key).length ≤ pool.length + 1 := by
  cases key with
  | none => simp [grow]
  | some id =>
    rw [grow]
    split <;> simp

theorem index_le (pool : List Key) (key : Key) : index pool key ≤ pool.length := by
  cases key with
  | none => exact le_rfl
  | some id => exact List.idxOf_le_length

/-- The places of parameters. -/
def ofParameters (parameters : Parameters) : List Key :=
  parameters.symbols.map fun s => some (.symbol s)

end Key

/-- Code can push all these constants: their indexes fit one word. -/
def Indexable (pool keys : List Key) : Prop :=
  ∀ i ∈ Key.indexes pool keys, i ≤ 65535

/-- A few more constants have indexes that fit one word. -/
theorem indexable_of_length_le {pool keys : List Key} (h : pool.length + keys.length ≤ 65536) :
    Indexable pool keys := by
  induction keys generalizing pool with
  | nil => exact fun i hi => absurd hi List.not_mem_nil
  | cons key keys ih =>
    rw [List.length_cons] at h
    have hgrown := Key.length_grow_le pool key
    have hindex := Key.index_le pool key
    rw [Indexable, Key.indexes, List.forall_mem_cons]
    exact ⟨by omega, ih (by omega)⟩

mutual

/-- No function literal in the form needs more words than a jump can address or a constant with an
index that does not fit one word. -/
def Form.Fits : Form → Prop
  | .constant _ | .lookup _ => True
  | .conditional test consequent alternative => test.Fits ∧ consequent.Fits ∧ alternative.Fits
  | .assignment _ _ value => value.Fits
  | .function _ parameters body =>
    Form.functionWords body ≤ 65535 ∧
      Indexable (Key.ofParameters parameters) (Form.bodyKeys body) ∧ Form.AllFit body
  | .call items => Form.AllFit items

/-- No function literal in the forms needs too much. -/
def Form.AllFit : List Form → Prop
  | [] => True
  | f :: fs => f.Fits ∧ Form.AllFit fs

end

end StackLisp
