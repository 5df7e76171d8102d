import StackLisp.Prelude
import StackLisp.Proofs.Expressions

/-!
# The prelude, definition by definition

The text of the prelude as syntax trees: every form of it defines one function or macro. The first
one, which defines `defmacro`, is written out, and all others are written with the macros before
them.

- `Definition`: a function or macro of the library;
- `Vocabulary.all`: the definitions of the prelude, in their order;
- `Vocabulary.scan_prelude`: the tokens of the prelude are those of the definitions.
-/

namespace StackLisp

/-- A function or a macro that is bound globally. -/
structure Definition where
  isMacro : Bool
  name : String
  signature : Signature
  body : Expression

/-- The definition as it is written with the macros for that. -/
def Definition.expression (d : Definition) : Expression :=
  .declare d.isMacro d.name d.signature d.body

namespace Vocabulary

/-- A call of what a name stands for. -/
abbrev use (name : String) (args : List Expression) : Expression :=
  .call (.lookup name) args

/-- A function with a fixed number of parameters. -/
abbrev function (name : String) (parameters : List String) (body : Expression) : Definition :=
  ⟨false, name, ⟨parameters, none⟩, body⟩

/-- A predicate that compares the type of its argument. -/
abbrev typeTest (name type : String) : Definition :=
  function name ["x"] (use "identical?" [use "type-of" [.lookup "x"], .symbol type])

def defMacro : Definition where
  isMacro := true
  name := "defmacro"
  signature := ⟨["name", "args"], "body"⟩
  body := use "list" [.symbol "def", .lookup "name", use "list" [.symbol "macro!",
    use "list*" [.symbol "fn", .lookup "name", .lookup "args", .lookup "body"]]]

def defn : Definition where
  isMacro := true
  name := "defn"
  signature := ⟨["name", "args"], "body"⟩
  body := use "list" [.symbol "def", .lookup "name",
    use "list*" [.symbol "fn", .lookup "name", .lookup "args", .lookup "body"]]

def isNil : Definition :=
  function "nil?" ["x"] (use "identical?" [.lookup "x", .constant "nil"])

def first : Definition :=
  function "first" ["l"] (.conditional (use "nil?" [.lookup "l"]) (.constant "nil")
    (use "nth" [.lookup "l", .constant "0"]))

def second : Definition :=
  function "second" ["l"] (use "first" [use "rest" [.lookup "l"]])

def map : Definition :=
  function "map" ["f", "l"] (.conditional (use "nil?" [.lookup "l"]) (.constant "nil")
    (use "cons" [use "f" [use "first" [.lookup "l"]],
      use "map" [.lookup "f", use "rest" [.lookup "l"]]]))

def filter : Definition :=
  function "filter" ["pred", "l"] (.conditional (use "nil?" [.lookup "l"]) (.constant "nil")
    (.conditional (use "pred" [use "first" [.lookup "l"]])
      (use "cons" [use "first" [.lookup "l"],
        use "filter" [.lookup "pred", use "rest" [.lookup "l"]]])
      (use "filter" [.lookup "pred", use "rest" [.lookup "l"]])))

def range : Definition :=
  function "range" ["from", "to"] (.conditional (use "<" [.lookup "from", .lookup "to"])
    (use "cons" [.lookup "from",
      use "range" [use "+" [.lookup "from", .constant "1"], .lookup "to"]])
    (.constant "nil"))

def letMacro : Definition where
  isMacro := true
  name := "let"
  signature := ⟨["bindings"], "body"⟩
  body := use "cons" [
    use "list*" [.symbol "fn", use "map" [.lookup "first", .lookup "bindings"], .lookup "body"],
    use "map" [.lookup "second", .lookup "bindings"]]

def letfn : Definition where
  isMacro := true
  name := "letfn"
  signature := ⟨["fns"], "body"⟩
  body := use "list*" [.symbol "let",
    use "map" [.function none ⟨["f"], none⟩
      (use "list" [use "first" [.lookup "f"], .constant "nil"]), .lookup "fns"],
    use "concat" [
      use "map" [.function none ⟨["f"], none⟩ (use "list" [.symbol "set!",
        use "first" [.lookup "f"], use "cons" [.symbol "fn", .lookup "f"]]), .lookup "fns"],
      .lookup "body"]]

/-- The branches of a conditional, of which one is the value of the first form, and the other what
is left of the forms. -/
def branches {α : Type} (keeps : Bool) (value others : α) : List α :=
  if keeps then [value, others] else [others, value]

/-- The macros `or` and `and`: a value that passes for true is kept, or what is left of the forms
is evaluated then. -/
def shortCircuit (name empty : String) (keeps : Bool) : Definition where
  isMacro := true
  name := name
  signature := ⟨[], "forms"⟩
  body := .conditional (use "nil?" [.lookup "forms"]) (.constant empty)
    (.conditional (use "nil?" [use "rest" [.lookup "forms"]]) (use "first" [.lookup "forms"])
      (.binding "g" (use "gensym" [.string name])
        (use "list" [.symbol "let",
          use "list" [use "list" [.lookup "g", use "first" [.lookup "forms"]]],
          use "list" (.symbol "if" :: .lookup "g" :: branches keeps (.lookup "g")
            (use "cons" [.symbol name, use "rest" [.lookup "forms"]]))])))

def orMacro : Definition :=
  shortCircuit "or" "nil" true

def andMacro : Definition :=
  shortCircuit "and" "true" false

/-- The definitions of the prelude, in their order. -/
def all : List Definition := [
  defMacro,
  defn,
  function "not" ["x"] (.conditional (.lookup "x") (.constant "false") (.constant "true")),
  isNil,
  typeTest "list?" "list",
  typeTest "number?" "number",
  typeTest "string?" "string",
  typeTest "symbol?" "symbol",
  typeTest "boolean?" "boolean",
  first,
  second,
  function "third" ["l"] (use "second" [use "rest" [.lookup "l"]]),
  function "fourth" ["l"] (use "third" [use "rest" [.lookup "l"]]),
  map,
  filter,
  range,
  ⟨true, "do", ⟨[], "body"⟩,
    use "list" [use "list*" [.symbol "fn", .constant "nil", .lookup "body"]]⟩,
  letMacro,
  letfn,
  orMacro,
  andMacro,
  ⟨true, "when", ⟨["test"], "body"⟩, use "list" [.symbol "if", .lookup "test",
    use "cons" [.symbol "do", .lookup "body"]]⟩]

/-- The forms of the prelude. The macro for defining macros is not there when it is defined
itself. -/
def forms : List Expression :=
  defMacro.expression.core :: all.tail.map Definition.expression

/-- How the prelude is written. -/
def phrases : List Phrase :=
  forms.map Expression.phrase

/-- The macros among the first `n` definitions. -/
def macros (n : Nat) : List String :=
  ((all.take n).filter Definition.isMacro).map Definition.name

/-- The names of the functions that go through a list item by item, and of those that they call. -/
def listNames : List String :=
  ["map", "filter", "nil?", "first", "identical?", "nth", "rest", "cons"]

theorem lt_of_mem_listNames {i : Nat} {d : Definition} (hd : all[i]? = some d)
    (hname : d.name ∈ listNames) : i < 15 := by
  have hall : all.zipIdx.all (fun p => p.1.name ∈ listNames → p.2 < 15) = true := by decide +kernel
  have hi := List.all_eq_true.1 hall (d, i) (List.mem_zipIdx_iff_getElem?.2 (by simpa using hd))
  exact of_decide_eq_true hi hname

/-- The names of the definitions are all different. -/
theorem name_ne {i j : Nat} {d d' : Definition} (hi : all[i]? = some d) (hj : all[j]? = some d')
    (hne : i ≠ j) : d.name ≠ d'.name := by
  have hnodup : (all.map Definition.name).Nodup := by decide +kernel
  intro hname
  have hi' : (all.map Definition.name)[i]? = some d.name := by rw [List.getElem?_map, hi]; rfl
  have hj' : (all.map Definition.name)[j]? = some d.name := by
    rw [List.getElem?_map, hj, hname]; rfl
  obtain ⟨hlt, -⟩ := List.getElem?_eq_some_iff.1 hi'
  exact hne ((List.getElem?_inj hlt hnodup).1 (hi'.trans hj'.symm))

/-- None of them is the name of a built-in function. -/
theorem name_builtin_ne (b : Builtin) {i : Nat} {d : Definition} (hd : all[i]? = some d) :
    b.name ≠ d.name := by
  have hall : ∀ name ∈ all.map Definition.name, b.name ≠ name := by cases b <;> decide +kernel
  exact hall _ (List.mem_map_of_mem (List.mem_of_getElem? hd))

theorem mem_macros {i n : Nat} {d : Definition} (hd : all[i]? = some d) (hi : i < n)
    (hkind : d.isMacro = true) : d.name ∈ macros n := by
  have hmem : d ∈ all.take n := List.mem_of_getElem? (by rw [List.getElem?_take_of_lt hi, hd])
  exact List.mem_map_of_mem (List.mem_filter.2 ⟨hmem, hkind⟩)

/-- A macro is among those that are defined before a place only if its own place is before that. -/
theorem lt_of_mem_macros {i n : Nat} {d : Definition} (hd : all[i]? = some d)
    (hname : d.name ∈ macros n) : i < n := by
  obtain ⟨d', hd', hsame⟩ := List.mem_map.1 hname
  obtain ⟨j, hj⟩ := List.getElem?_of_mem (List.mem_filter.1 hd').1
  obtain ⟨hlt, -⟩ := List.getElem?_eq_some_iff.1 hj
  have hjn : j < n := hlt.trans_le (List.length_take_le _ _)
  rw [List.getElem?_take_of_lt hjn] at hj
  by_contra hle
  exact name_ne hj hd (by omega) hsame

theorem macros_mono {m n : Nat} (h : m ≤ n) {name : String} (hname : name ∈ macros m) :
    name ∈ macros n := by
  obtain ⟨d, hd, rfl⟩ := List.mem_map.1 hname
  obtain ⟨hmem, hkind⟩ := List.mem_filter.1 hd
  exact List.mem_map_of_mem (List.mem_filter.2 ⟨(List.take_sublist_take_left h).subset hmem, hkind⟩)

/-- The macros have reserved names, and no special form is called so. -/
theorem reserved_of_mem_macros {n : Nat} {name : String} (hname : name ∈ macros n) :
    name ∈ Expression.reserved ∧ Special.ofName? name = none := by
  have hall : ∀ name ∈ macros all.length,
      name ∈ Expression.reserved ∧ Special.ofName? name = none := by decide +kernel
  rw [macros, List.take_length] at hall
  obtain ⟨d, hd, rfl⟩ := List.mem_map.1 hname
  obtain ⟨hmem, hkind⟩ := List.mem_filter.1 hd
  exact hall _ (List.mem_map_of_mem (List.mem_filter.2 ⟨List.mem_of_mem_take hmem, hkind⟩))

/-! ## The text of the prelude -/

theorem readable_phrases : ∀ p ∈ phrases, p.Readable := by
  have hunreserved : (Phrase.tokensOf phrases).all (fun
      | .atom text => text.toList.head? ≠ some '#'
      | _ => true) = true := by decide +kernel
  refine Phrase.forall_readable_iff.2 ⟨fun text h => ?_, by decide +kernel⟩
  simpa using List.all_eq_true.1 hunreserved _ h

set_option maxRecDepth 8192 in
/-- The tokens of the prelude are those of the definitions. -/
theorem scan_prelude : ∃ ts, Token.scan prelude = .ok ts ∧ Phrase.SpeltEach phrases ts := by
  have hscan : (Token.scan prelude).toOption.map (List.map Located.token) =
      some (Phrase.tokensOf phrases) := by
    -- the text is given to the kernel character by character
    rw [Token.scan, show prelude = String.ofList _ from rfl, String.toList_ofList]
    decide +kernel
  obtain ⟨ts, hts, hspelling⟩ := Option.map_eq_some_iff.1 hscan
  refine ⟨ts, ?_, Phrase.speltEach_iff.2 ⟨hspelling, readable_phrases⟩⟩
  cases h : Token.scan prelude with
  | error error =>
    rw [h] at hts
    cases hts
  | ok us =>
    rw [h] at hts
    exact congrArg Except.ok (Option.some.inj hts)

/-- Each form uses only the macros that are defined before it. -/
theorem wellNamed_forms {i : Nat} {x : Expression} (h : forms[i]? = some x) :
    x.wellNamed (macros i) = true := by
  have hall : forms.zipIdx.all (fun p => p.1.wellNamed (macros p.2)) = true := by decide +kernel
  exact List.all_eq_true.1 hall (x, i) (List.mem_zipIdx_iff_getElem?.2 (by simpa using h))

/-- What a form is after its outermost macro. -/
theorem core_forms {i : Nat} {x : Expression} (h : forms[i]? = some x) :
    ∃ d, all[i]? = some d ∧ x.core = d.expression.core := by
  cases i with
  | zero => exact ⟨defMacro, rfl, Option.some.inj h ▸ Expression.core_core _⟩
  | succ i =>
    rw [forms, List.getElem?_cons_succ, List.getElem?_map, Option.map_eq_some_iff] at h
    obtain ⟨d, hd, rfl⟩ := h
    exact ⟨d, hd, rfl⟩

end Vocabulary

end StackLisp
