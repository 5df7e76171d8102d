import Mathlib.Data.List.Basic
import StackLisp.Compiler.Shape

/-!
# The shapes of lists

What a list with items means, said without the compiler: which special form it is, if it is one,
and which of its items are the parts. The meaning that is read off a list is made of its items: the
parts that are evaluated, the value of a quotation, the parameters and the body of a function
literal.

- `Parameters.parse_eq_ok_iff`, `FunctionLiteral.parse_eq_ok_iff`, `Shape.ofItems_eq_ok_iff`: what
  is read off a list, in the terms of the grammar;
- `Shape.mem_of_mem_parts`: the parts to evaluate are items of the list;
- `FunctionLiteral.Complete`: a literal has a symbol for every parameter.
-/

namespace StackLisp

/-! ## Grammar -/

/-- The forms that are evaluated as parts of a form of this shape. -/
def Shape.parts : Shape → List Value
  | .function literal => literal.body
  | .quotation _ => []
  | .conditional test consequent alternative => [test, consequent, alternative]
  | .assignment _ _ value => [value]
  | .call callee args => callee :: args

/-- The value is not a list with items, so that it is a form without parts. -/
def Value.IsAtom : Value → Prop
  | .list _ _ _ => False
  | _ => True

/-- The special forms. -/
inductive Special where
  | function
  | quotation
  | conditional
  | assignment (way : Assignment)
deriving DecidableEq

/-- The special form that a list with this head is, if it is one. -/
def Keywords.special? (k : Keywords) : Value → Option Special
  | .symbol s =>
    if s = k.function then some .function
    else if s = k.quote then some .quotation
    else if s = k.conditional then some .conditional
    else if s = k.define then some (.assignment .define)
    else if s = k.assign then some (.assignment .overwrite)
    else none
  | _ => none

/-- The items name the parameters: they are symbols, and the first rest marker among them, if there
is one, stands before exactly one more. -/
inductive Parameters.Named (rest : Symbol) : List Value → Parameters → Prop
  | plain (symbols : List Symbol) (h : rest ∉ symbols) :
      Named rest (symbols.map .symbol) ⟨symbols, symbols.length, false⟩
  | collecting (symbols : List Symbol) (h : rest ∉ symbols) (last : Symbol) :
      Named rest (symbols.map .symbol ++ [.symbol rest, .symbol last])
        ⟨symbols ++ [last], symbols.length, true⟩

/-- The list has the shape, in the terms of the grammar. -/
def Shape.Of (k : Keywords) (head : Value) (others : List Value) : Shape → Prop
  | .function literal => k.special? head = some .function ∧ ∃ listed names,
      others = (literal.name.map .symbol).toList ++ listed :: literal.body ∧
        listed.items? = some names ∧ literal.parameters.Named k.rest names
  | .quotation v => k.special? head = some .quotation ∧ ∃ extra, others = v :: extra
  | .conditional test consequent alternative => k.special? head = some .conditional ∧
      ∃ extra, others = test :: consequent :: extra ∧ alternative = extra.headD .nil
  | .assignment way target value => k.special? head = some (.assignment way) ∧
      ∃ extra, others = .symbol target :: value :: extra
  | .call callee args => k.special? head = none ∧ callee = head ∧ args = others

/-! ## Reading lists -/

variable {k : Keywords}

theorem Value.expectSymbol_eq_ok_iff {v : Value} {s : Symbol} :
    v.expectSymbol = .ok s ↔ v = .symbol s := by
  cases v <;> simp [expectSymbol, symbol?]

namespace Parameters

variable {rest : Symbol} {items : List Value} {parameters : Parameters}

theorem named_nil_iff : Named rest [] parameters ↔ parameters = ⟨[], 0, false⟩ := by
  constructor
  · intro h
    -- `Named` has its items in the form `map`, which `cases` can only take apart by an equation
    generalize hitems : ([] : List Value) = items at h
    cases h with
    | plain symbols h =>
      obtain rfl := List.map_eq_nil_iff.1 hitems.symm
      rfl
    | collecting => simp at hitems
  · rintro rfl
    exact .plain [] List.not_mem_nil

/-- The first item is the rest marker with the collecting parameter behind it, or another parameter
with the further ones behind it. -/
theorem named_cons_iff {item : Value} :
    Named rest (item :: items) parameters ↔ ∃ s, item = .symbol s ∧
      (s = rest ∧ (∃ last, items = [.symbol last] ∧ parameters = ⟨[last], 0, true⟩) ∨
      s ≠ rest ∧ ∃ more, Named rest items more ∧
        parameters = ⟨s :: more.symbols, more.positional + 1, more.variadic⟩) := by
  constructor
  · intro h
    generalize hitems : item :: items = all at h
    -- the first of the items is a parameter, unless there is none before the marker
    cases h with
    | plain symbols h =>
      match symbols with
      | [] => cases hitems
      | s :: symbols =>
        obtain ⟨rfl, rfl⟩ := List.cons.inj hitems
        obtain ⟨hs, hsymbols⟩ := not_or.1 (List.mem_cons.not.1 h)
        exact ⟨s, rfl, .inr ⟨Ne.symm hs, _, .plain _ hsymbols, rfl⟩⟩
    | collecting symbols h last =>
      match symbols with
      | [] =>
        obtain ⟨rfl, rfl⟩ := List.cons.inj hitems
        exact ⟨rest, rfl, .inl ⟨rfl, last, rfl, rfl⟩⟩
      | s :: symbols =>
        obtain ⟨rfl, rfl⟩ := List.cons.inj hitems
        obtain ⟨hs, hsymbols⟩ := not_or.1 (List.mem_cons.not.1 h)
        exact ⟨s, rfl, .inr ⟨Ne.symm hs, _, .collecting _ hsymbols last, rfl⟩⟩
  · rintro ⟨s, rfl, ⟨rfl, last, rfl, rfl⟩ | ⟨hs, more, hmore, rfl⟩⟩
    · exact .collecting [] List.not_mem_nil last
    · cases hmore with
      | plain symbols h => exact .plain (s :: symbols) (by simp [Ne.symm hs, h])
      | collecting symbols h last =>
        exact .collecting (s :: symbols) (by simp [Ne.symm hs, h]) last

/-- Items that are not symbols name no parameters. -/
theorem parseOnto_ne_ok {reversed : List Symbol} {item : Value} (h : ∀ s, item ≠ .symbol s) :
    parseOnto rest reversed (item :: items) ≠ .ok parameters := by
  unfold parseOnto
  cases hitem : item.expectSymbol with
  | error e =>
    intro h
    cases h
  | ok s => exact absurd (Value.expectSymbol_eq_ok_iff.1 hitem) (h s)

/-- Behind the rest marker exactly one symbol is read. -/
theorem parseOnto_rest_eq_ok_iff {reversed : List Symbol} :
    parseOnto rest reversed (.symbol rest :: items) = .ok parameters ↔ ∃ last,
      items = [.symbol last] ∧
        parameters = ⟨reversed.reverse ++ [last], reversed.length, true⟩ := by
  unfold parseOnto
  simp only [Value.expectSymbol, Value.symbol?, bind, Except.bind, if_true]
  match items with
  | [] => simp [throw, throwThe, MonadExceptOf.throw]
  -- a symbol with nothing behind it, or else a complaint
  | last :: extra =>
    cases last with
    | symbol s => cases extra <;> simp [pure, Except.pure, eq_comm, throw, throwThe,
        MonadExceptOf.throw]
    | _ => simp

/-- Any other symbol is one more parameter. -/
theorem parseOnto_of_ne {reversed : List Symbol} {s : Symbol} (hs : s ≠ rest) :
    parseOnto rest reversed (.symbol s :: items) = parseOnto rest (s :: reversed) items := by
  conv_lhs => unfold parseOnto
  simp [Value.expectSymbol, Value.symbol?, hs, bind, Except.bind]

/-- Reading parameters behind others adds those that the items name. -/
theorem parseOnto_eq_ok_iff {reversed : List Symbol} :
    parseOnto rest reversed items = .ok parameters ↔ ∃ more, Named rest items more ∧
      parameters = ⟨reversed.reverse ++ more.symbols, reversed.length + more.positional,
        more.variadic⟩ := by
  induction items generalizing reversed with
  | nil => simp [parseOnto, named_nil_iff, eq_comm]
  -- the three ways to go on: the rest marker, another symbol, no symbol
  | cons item items ih =>
    by_cases hitem : ∃ s, item = .symbol s
    · obtain ⟨s, rfl⟩ := hitem
      by_cases hs : s = rest
      · subst hs
        simp [parseOnto_rest_eq_ok_iff, named_cons_iff]
      · rw [parseOnto_of_ne hs, ih]
        simp [named_cons_iff, hs, Nat.add_assoc, Nat.add_comm 1]
    · rw [not_exists] at hitem
      simp [named_cons_iff, hitem, parseOnto_ne_ok hitem]

/-- A parameter list is read if it names parameters. -/
theorem parse_eq_ok_iff : parse rest items = .ok parameters ↔ Named rest items parameters := by
  rw [parse, parseOnto_eq_ok_iff]
  simp

end Parameters

theorem FunctionLiteral.parseUnnamed_eq_ok_iff {name : Option Symbol} {items : List Value}
    {literal : FunctionLiteral} : parseUnnamed k name items = .ok literal ↔ ∃ listed names,
      literal.name = name ∧ items = listed :: literal.body ∧ listed.items? = some names ∧
        literal.parameters.Named k.rest names := by
  match items with
  | [] => simp [parseUnnamed]
  | listed :: body =>
    obtain ⟨given, parameters, forms⟩ := literal
    simp only [parseUnnamed, Value.expectList]
    cases hlisted : listed.items? with
    | none => simp [bind, Except.bind, hlisted]
    | some names =>
      cases hparse : Parameters.parse k.rest names with
      | error e =>
        -- were it named, it would have been read
        have hno : ¬ parameters.Named k.rest names := fun h => by
          rw [Parameters.parse_eq_ok_iff.2 h] at hparse
          cases hparse
        simp [bind, Except.bind, hparse, hlisted, hno]
      | ok p =>
        -- only what is read is named
        have hp : parameters.Named k.rest names ↔ p = parameters := by
          rw [← Parameters.parse_eq_ok_iff, hparse, Except.ok.injEq]
        simp only [bind, Except.bind, hparse, pure, Except.pure, Except.ok.injEq,
          FunctionLiteral.mk.injEq, List.cons.injEq]
        constructor
        · rintro ⟨rfl, rfl, rfl⟩
          exact ⟨listed, names, rfl, ⟨rfl, rfl⟩, hlisted, hp.2 rfl⟩
        · rintro ⟨_, _, rfl, ⟨rfl, rfl⟩, hitems, hnamed⟩
          obtain rfl := Option.some.inj (hlisted.symm.trans hitems)
          exact ⟨rfl, hp.1 hnamed, rfl⟩

/-- A function literal is read if a list that names parameters follows its name, if it has one. -/
theorem FunctionLiteral.parse_eq_ok_iff {items : List Value} {literal : FunctionLiteral} :
    parse k items = .ok literal ↔ ∃ listed names,
      items = (literal.name.map .symbol).toList ++ listed :: literal.body ∧
        listed.items? = some names ∧ literal.parameters.Named k.rest names := by
  obtain ⟨given, parameters, body⟩ := literal
  unfold parse
  split
  · rename_i name others
    rw [parseUnnamed_eq_ok_iff]
    cases given with
    | none =>
      -- a symbol is not a list, so it stands for the name
      constructor
      · rintro ⟨-, -, hname, -⟩
        cases hname
      · rintro ⟨listed, names, hitems, hlisted, -⟩
        obtain ⟨rfl, -⟩ := List.cons.inj hitems
        cases hlisted
    | some given => simp [eq_comm, and_assoc]
  -- no symbol comes first, so the literal has no name
  · rename_i hunnamed
    rw [parseUnnamed_eq_ok_iff]
    cases given with
    | none => simp
    | some given =>
      constructor
      · rintro ⟨-, -, hname, -⟩
        cases hname
      · rintro ⟨listed, names, hitems, -⟩
        exact absurd hitems (hunnamed given _)

/-- What is done with a list depends on the special form that it is. -/
theorem Shape.ofItems_eq (k : Keywords) (head : Value) (others : List Value) :
    ofItems k head others = match k.special? head with
      | some .function => (FunctionLiteral.parse k others).map .function
      | some .quotation => (part "quote" "an argument" others 0).map .quotation
      | some .conditional => ofConditional others
      | some (.assignment way) => ofAssignment way others
      | none => .ok (.call head others) := by
  cases head with
  | symbol s =>
    simp only [ofItems, Keywords.special?]
    split_ifs <;> rfl
  | _ => rfl

theorem Shape.ofConditional_eq_ok_iff {parts : List Value} {shape : Shape} :
    ofConditional parts = .ok shape ↔ ∃ test consequent extra,
      parts = test :: consequent :: extra ∧
        shape = .conditional test consequent (extra.headD .nil) := by
  match parts with
  | [] => simp [ofConditional, part, bind, Except.bind]
  | [test] => simp [ofConditional, part, bind, Except.bind]
  | test :: consequent :: extra =>
    have hread : ofConditional (test :: consequent :: extra) =
        .ok (.conditional test consequent (extra.headD .nil)) := by
      cases extra <;> rfl
    rw [hread]
    constructor
    · intro h
      exact ⟨test, consequent, extra, rfl, (Except.ok.inj h).symm⟩
    · rintro ⟨_, _, _, ⟨⟩, rfl⟩
      rfl

theorem Shape.ofAssignment_eq_ok_iff {way : Assignment} {parts : List Value} {shape : Shape} :
    ofAssignment way parts = .ok shape ↔ ∃ target value extra,
      parts = .symbol target :: value :: extra ∧ shape = .assignment way target value := by
  match parts with
  | [] => simp [ofAssignment, part, bind, Except.bind]
  | first :: others =>
    cases first with
    | symbol s =>
      cases others with
      | nil => simp [ofAssignment, part, bind, Except.bind, Value.expectSymbol, Value.symbol?]
      | cons value extra =>
        constructor
        · intro h
          exact ⟨s, value, extra, rfl, (Except.ok.inj h).symm⟩
        · rintro ⟨_, _, _, ⟨⟩, rfl⟩
          rfl
    | _ => simp [ofAssignment, part, bind, Except.bind, Value.expectSymbol, Value.symbol?]

theorem Shape.ofItems_eq_ok_iff {head : Value} {others : List Value} {shape : Shape} :
    ofItems k head others = .ok shape ↔ shape.Of k head others := by
  rw [ofItems_eq]
  constructor
  · intro h
    split at h
    · rename_i hspecial
      cases hparse : FunctionLiteral.parse k others with
      | error e =>
        rw [hparse] at h
        cases h
      | ok literal =>
        rw [hparse] at h
        obtain rfl := Except.ok.inj h
        exact ⟨hspecial, FunctionLiteral.parse_eq_ok_iff.1 hparse⟩
    · rename_i hspecial
      cases others with
      | nil => cases h
      | cons v extra =>
        obtain rfl := Except.ok.inj h
        exact ⟨hspecial, extra, rfl⟩
    · rename_i hspecial
      obtain ⟨test, consequent, extra, rfl, rfl⟩ := ofConditional_eq_ok_iff.1 h
      exact ⟨hspecial, extra, rfl, rfl⟩
    · rename_i way hspecial
      obtain ⟨target, value, extra, rfl, rfl⟩ := ofAssignment_eq_ok_iff.1 h
      exact ⟨hspecial, extra, rfl⟩
    · rename_i hspecial
      obtain rfl := Except.ok.inj h
      exact ⟨hspecial, rfl, rfl⟩
  · cases shape with
    | function literal =>
      rintro ⟨hspecial, hparse⟩
      rw [hspecial]
      simp only [FunctionLiteral.parse_eq_ok_iff.2 hparse]
      rfl
    | quotation v =>
      rintro ⟨hspecial, extra, rfl⟩
      rw [hspecial]
      rfl
    | conditional test consequent alternative =>
      rintro ⟨hspecial, extra, rfl, rfl⟩
      rw [hspecial]
      exact ofConditional_eq_ok_iff.2 ⟨test, consequent, extra, rfl, rfl⟩
    | assignment way target value =>
      rintro ⟨hspecial, extra, rfl⟩
      rw [hspecial]
      exact ofAssignment_eq_ok_iff.2 ⟨target, value, extra, rfl, rfl⟩
    | call callee args =>
      rintro ⟨hspecial, rfl, rfl⟩
      rw [hspecial]

theorem Keywords.special?_eq_function_iff {head : Value} :
    k.special? head = some .function ↔ head.symbol? = some k.function := by
  cases head with
  | symbol s =>
    simp only [Keywords.special?, Value.symbol?, Option.some.injEq]
    by_cases h : s = k.function
    · simp [h]
    · rw [if_neg h]
      simp only [h, iff_false]
      split_ifs <;> simp
  | _ => simp [Keywords.special?, Value.symbol?]

/-- A form is read as a function literal if it is a list of that shape. -/
theorem FunctionLiteral.ofForm_eq_ok_iff {v : Value} {literal : FunctionLiteral} :
    ofForm k v = .ok literal ↔ ∃ ref head others, v = .list ref head others ∧
      Shape.Of k head others (.function literal) := by
  cases v with
  | list ref head others =>
    have hread : ofForm k (.list ref head others) = if head.symbol? = some k.function then
        parse k others else .error (.malformed (.notFunction head.print)) := rfl
    rw [hread]
    by_cases hhead : head.symbol? = some k.function
    · have hspecial := Keywords.special?_eq_function_iff.2 hhead
      rw [if_pos hhead, parse_eq_ok_iff]
      constructor
      · exact fun h => ⟨ref, head, others, rfl, hspecial, h⟩
      · rintro ⟨_, _, _, ⟨⟩, -, h⟩
        exact h
    · rw [if_neg hhead]
      constructor
      · nofun
      · rintro ⟨_, _, _, ⟨⟩, hspecial, -⟩
        exact absurd (Keywords.special?_eq_function_iff.1 hspecial) hhead
  | nil =>
    constructor
    · intro h
      cases h
    · rintro ⟨_, _, _, ⟨⟩, -⟩
  | _ =>
    constructor
    · intro h
      cases h
    · rintro ⟨_, _, _, ⟨⟩, -⟩

/-! ## Parts -/

/-- Every parameter is named by a symbol. -/
def FunctionLiteral.Complete (literal : FunctionLiteral) : Prop :=
  literal.parameters.symbols.length =
    literal.parameters.positional + if literal.parameters.variadic then 1 else 0

/-- Parameters that items name are complete. -/
theorem Parameters.Named.complete {rest : Symbol} {items : List Value} {parameters : Parameters}
    (h : Named rest items parameters) :
    parameters.symbols.length = parameters.positional + if parameters.variadic then 1 else 0 := by
  cases h <;> simp

theorem FunctionLiteral.complete_thunk (body : List Value) : (thunk body).Complete := rfl

theorem Shape.complete_of_ofItems {head : Value} {others : List Value} {literal : FunctionLiteral}
    (h : Shape.ofItems k head others = .ok (.function literal)) : literal.Complete := by
  obtain ⟨-, _, _, -, -, hnamed⟩ := ofItems_eq_ok_iff.1 h
  exact hnamed.complete

theorem FunctionLiteral.complete_of_ofForm {form : Value} {literal : FunctionLiteral}
    (h : ofForm k form = .ok literal) : literal.Complete := by
  obtain ⟨_, _, _, -, hshape⟩ := ofForm_eq_ok_iff.1 h
  exact Shape.complete_of_ofItems (Shape.ofItems_eq_ok_iff.2 hshape)

/-- A quoted value is an item of its form. -/
theorem Shape.mem_of_quotation {head v : Value} {others : List Value}
    (h : Shape.ofItems k head others = .ok (.quotation v)) : v ∈ others := by
  obtain ⟨-, extra, rfl⟩ := ofItems_eq_ok_iff.1 h
  exact List.mem_cons_self

/-- The parts of a list's meaning are among its items; an alternative that is absent is the empty
list. -/
theorem Shape.mem_of_mem_parts {head part : Value} {others : List Value} {shape : Shape}
    (h : Shape.ofItems k head others = .ok shape) (hpart : part ∈ shape.parts) :
    part = .nil ∨ part ∈ head :: others := by
  have hshape := ofItems_eq_ok_iff.1 h
  cases shape with
  | function literal =>
    obtain ⟨-, listed, names, rfl, -⟩ := hshape
    exact .inr (by simp [show part ∈ literal.body from hpart])
  | quotation v => cases hpart
  | conditional test consequent alternative =>
    obtain ⟨-, extra, rfl, rfl⟩ := hshape
    simp only [Shape.parts, List.mem_cons, List.not_mem_nil, or_false] at hpart
    rcases hpart with rfl | rfl | rfl
    · exact .inr (by simp)
    · exact .inr (by simp)
    · cases extra with
      | nil => exact .inl rfl
      | cons v extra => exact .inr (by simp)
  | assignment way target value =>
    obtain ⟨-, extra, rfl⟩ := hshape
    obtain rfl : part = value := by simpa [Shape.parts] using hpart
    exact .inr (by simp)
  | call callee args =>
    obtain ⟨-, rfl, rfl⟩ := hshape
    exact .inr hpart

end StackLisp
