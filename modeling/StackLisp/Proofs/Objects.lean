import Mathlib.Data.Set.Insert
import Mathlib.Order.Defs.PartialOrder
import StackLisp.Value.Basic

/-!
# Objects

Strings, non-empty lists, functions and closures are objects, and an object has one content for as
long as it is there: it gets it when it is allocated, and no program can change it. So two values
that are one and the same are equal, as far as they are made of objects that were allocated.

- `Value.MadeOf`: all objects in a value are in a set;
- `Unambiguous`, `Value.eq_of_identity`: identity is equality on values that are made of objects
  with one content each;
- `Objects`: the objects that were made, with those that programs can get hold of, and how they
  become more.
-/

namespace StackLisp

namespace Value

/-- The first value is the second one, an item of it, or a constant that it refers to. -/
inductive PartOf (u : Value) : Value → Prop
  | self : PartOf u u
  | item {ref : Ref} {first v : Value} {others : List Value} : v ∈ first :: others → PartOf u v →
      PartOf u (.list ref first others)
  | constant {c : Closure} {v : Value} : v ∈ c.constants → PartOf u v → PartOf u (.closure c)

/-- The value was allocated. -/
def IsObject (v : Value) : Prop :=
  ∃ ref, v.identity = .object ref

/-- All objects in the value, itself included, are in the set. -/
def MadeOf (objects : Set Value) (v : Value) : Prop :=
  ∀ u : Value, u.PartOf v → u.IsObject → u ∈ objects

variable {objects more : Set Value} {u v : Value}

theorem MadeOf.mono (h : v.MadeOf objects) (hsub : objects ⊆ more) : v.MadeOf more :=
  fun u hpart hobject => hsub (h u hpart hobject)

/-- An object is among those that it is made of. -/
theorem MadeOf.mem (h : v.MadeOf objects) (hv : v.IsObject) : v ∈ objects :=
  h v .self hv

@[simp]
theorem madeOf_nil : Value.nil.MadeOf objects := by
  rintro _ ⟨⟩ ⟨ref, href⟩
  cases href

@[simp]
theorem madeOf_symbol (s : Symbol) : (Value.symbol s).MadeOf objects := by
  rintro _ ⟨⟩ ⟨ref, href⟩
  cases href

@[simp]
theorem madeOf_number (n : Number) : (Value.number n).MadeOf objects := by
  rintro _ ⟨⟩ ⟨ref, href⟩
  cases href

@[simp]
theorem madeOf_boolean (b : Bool) : (Value.boolean b).MadeOf objects := by
  rintro _ ⟨⟩ ⟨ref, href⟩
  cases href

theorem madeOf_string_iff {ref : Ref} {text : String} :
    (Value.string ref text).MadeOf objects ↔ .string ref text ∈ objects := by
  refine ⟨fun h => h.mem ⟨ref, rfl⟩, ?_⟩
  rintro h _ ⟨⟩ -
  exact h

theorem madeOf_intrinsic_iff {ref : Ref} {function : Intrinsic} :
    (Value.intrinsic ref function).MadeOf objects ↔ .intrinsic ref function ∈ objects := by
  refine ⟨fun h => h.mem ⟨ref, rfl⟩, ?_⟩
  rintro h _ ⟨⟩ -
  exact h

theorem madeOf_list_iff {ref : Ref} {first : Value} {others : List Value} :
    (Value.list ref first others).MadeOf objects ↔
      .list ref first others ∈ objects ∧ ∀ v ∈ first :: others, v.MadeOf objects := by
  refine ⟨fun h => ⟨h.mem ⟨ref, rfl⟩, fun v hv u hu => h u (.item hv hu)⟩, ?_⟩
  rintro ⟨h, hitems⟩ u (_ | ⟨hv, hu⟩) hobject
  · exact h
  · exact hitems _ hv u hu hobject

theorem madeOf_closure_iff {c : Closure} :
    (Value.closure c).MadeOf objects ↔
      .closure c ∈ objects ∧ ∀ v ∈ c.constants, v.MadeOf objects := by
  refine ⟨fun h => ⟨h.mem ⟨c.ref, rfl⟩, fun v hv u hu => h u (.constant hv hu)⟩, ?_⟩
  rintro ⟨h, hconstants⟩ u (_ | _ | ⟨hv, hu⟩) hobject
  · exact h
  · exact hconstants _ hv u hu hobject

/-- The items of a list are made of what the list is made of. -/
theorem MadeOf.items {items : List Value} (h : v.MadeOf objects) (hitems : v.items? = some items) :
    ∀ item ∈ items, item.MadeOf objects := by
  cases v <;> simp only [items?, Option.some.injEq, reduceCtorEq] at hitems
  · subst hitems
    simp
  · subst hitems
    exact (madeOf_list_iff.1 h).2

end Value

/-- Each object of the set has one content. -/
def Unambiguous (objects : Set Value) : Prop :=
  ∀ u ∈ objects, ∀ v ∈ objects, u.identity = v.identity → u = v

/-- One and the same value is equal to itself, where objects have one content each. -/
theorem Value.eq_of_identity {objects : Set Value} (h : Unambiguous objects) {u v : Value}
    (hu : u.MadeOf objects) (hv : v.MadeOf objects) (heq : u.identity = v.identity) : u = v := by
  by_cases hobject : v.IsObject
  · exact h u (hu.mem (hobject.imp fun _ href => heq.trans href)) v (hv.mem hobject) heq
  -- what is not allocated is its identity
  · cases v with
    | number n => cases u <;> simp_all [identity, Number.ext_iff]
    | symbol s => cases u <;> simp_all [identity]
    | boolean b => cases u <;> simp_all [identity]
    | nil => cases u <;> simp_all [identity]
    | string | list | intrinsic | closure => exact absurd ⟨_, rfl⟩ hobject

/-- The objects that were made, and those among them that programs can get hold of. The others are
functions inside one that is still being compiled. -/
structure Objects where
  made : Set Value
  known : Set Value
  known_subset : known ⊆ made
  isObject : ∀ v ∈ made, v.IsObject
  unambiguous : Unambiguous made

namespace Objects

/-- Nothing was made yet. -/
instance : EmptyCollection Objects :=
  ⟨∅, ∅, subset_rfl, fun _ hv => absurd hv (Set.notMem_empty _),
    fun _ hv => absurd hv (Set.notMem_empty _)⟩

/-- More objects are made. Programs get hold of new ones, but not of one that was hidden. -/
structure Grow (w w' : Objects) : Prop where
  made : w.made ⊆ w'.made
  known : w.known ⊆ w'.known
  hidden : ∀ v ∈ w.made, v ∈ w'.known → v ∈ w.known

instance : Preorder Objects where
  le := Grow
  le_refl _ := ⟨subset_rfl, subset_rfl, fun _ _ h => h⟩
  le_trans _ _ _ h h' :=
    ⟨h.made.trans h'.made, h.known.trans h'.known, fun v hv hknown =>
      h.hidden v hv (h'.hidden v (h.made hv) hknown)⟩

variable {w w' : Objects}

/-- All objects were allocated before the given one. -/
def Below (w : Objects) (next : Ref) : Prop :=
  ∀ v ∈ w.made, ∀ ref, v.identity = .object ref → ref < next

theorem Below.mono {next later : Ref} (h : w.Below next) (hle : next ≤ later) : w.Below later :=
  fun v hv ref href => (h v hv ref href).trans_le hle

theorem below_empty (next : Ref) : Below ∅ next :=
  fun _ hv => absurd hv (Set.notMem_empty _)

/-- The objects with one more that nobody knows yet. -/
def hide (w : Objects) (v : Value) (hv : v.IsObject)
    (hnew : ∀ u ∈ w.made, u.identity ≠ v.identity) : Objects where
  made := insert v w.made
  known := w.known
  known_subset := w.known_subset.trans (Set.subset_insert _ _)
  isObject := by
    rintro u (rfl | hu)
    · exact hv
    · exact w.isObject u hu
  unambiguous := by
    rintro u (rfl | hu) u' (rfl | hu') heq
    · rfl
    · exact absurd heq.symm (hnew u' hu')
    · exact absurd heq (hnew u hu)
    · exact w.unambiguous u hu u' hu' heq

/-- The later objects, of which those are known now that were made in between. -/
def reveal (w w' : Objects) : Objects where
  made := w'.made
  known := w'.known ∪ (w'.made \ w.made)
  known_subset := Set.union_subset w'.known_subset fun _ hv => hv.1
  isObject := w'.isObject
  unambiguous := w'.unambiguous

theorem le_reveal (h : w ≤ w') : w ≤ w.reveal w' where
  made := h.made
  known := h.known.trans Set.subset_union_left
  hidden v hv hknown := by
    rcases hknown with hknown | ⟨-, hnot⟩
    · exact h.hidden v hv hknown
    · exact absurd hv hnot

/-- What comes into reach becomes more with the objects. -/
theorem reveal_known_mono {w₀ : Objects} (h : w ≤ w') :
    (w₀.reveal w).known ⊆ (w₀.reveal w').known :=
  Set.union_subset_union h.known fun _ hv => ⟨h.made hv.1, hv.2⟩

/-- The object of the next allocation is a new one. -/
theorem Below.new {v : Value} {next : Ref} (h : w.Below next) (hv : v.identity = .object next) :
    ∀ u ∈ w.made, u.identity ≠ v.identity :=
  fun u hu heq => (h u hu next (heq.trans hv)).ne rfl

variable {v : Value} {next : Ref}

/-- A new object that nobody knows is allocated. -/
theorem Below.hide (h : w.Below next) (hv : v.identity = .object next) :
    ∃ w', w ≤ w' ∧ w'.Below (next + 1) ∧ w'.made = insert v w.made ∧ w'.known = w.known := by
  refine ⟨w.hide v ⟨next, hv⟩ (h.new hv), ⟨Set.subset_insert _ _, subset_rfl, fun _ _ => id⟩,
    ?_, rfl, rfl⟩
  rintro u (rfl | hu) ref href
  · obtain rfl := Identity.object.inj (hv.symm.trans href)
    exact Nat.lt_succ_self _
  · exact Nat.lt_succ_of_lt (h u hu ref href)

/-- A new object is allocated, and programs get hold of it. -/
theorem Below.add (h : w.Below next) (hv : v.identity = .object next) :
    ∃ w', w ≤ w' ∧ w'.Below (next + 1) ∧ v ∈ w'.known := by
  obtain ⟨w', hle, hbelow, hmade, -⟩ := h.hide hv
  exact ⟨w.reveal w', le_reveal hle, hbelow,
    .inr ⟨hmade ▸ Set.mem_insert _ _, fun hmem => h.new hv v hmem rfl⟩⟩

end Objects

/-- Programs can get hold of all objects in the value. -/
abbrev Value.KnownIn (v : Value) (w : Objects) : Prop :=
  v.MadeOf w.known

theorem Value.knownIn_symbol (w : Objects) (s : Symbol) : (Value.symbol s).KnownIn w :=
  madeOf_symbol s

theorem Value.knownIn_nil (w : Objects) : Value.nil.KnownIn w :=
  madeOf_nil

/-- One and the same known value is equal to itself. -/
theorem Value.KnownIn.eq_of_identity {w : Objects} {u v : Value} (hu : u.KnownIn w)
    (hv : v.KnownIn w) (h : u.identity = v.identity) : u = v :=
  Value.eq_of_identity w.unambiguous (hu.mono w.known_subset) (hv.mono w.known_subset) h

theorem Value.KnownIn.mono {w w' : Objects} {v : Value} (h : v.KnownIn w) (hw : w ≤ w') :
    v.KnownIn w' :=
  MadeOf.mono h hw.known

/-- A new list of known items is allocated. -/
theorem Objects.Below.addList {w : Objects} {next : Ref} {first : Value} {others : List Value}
    (h : w.Below next) (hitems : ∀ v ∈ first :: others, v.KnownIn w) :
    ∃ w', w ≤ w' ∧ w'.Below (next + 1) ∧ (Value.list next first others).KnownIn w' := by
  obtain ⟨w', hle, hbelow, hmem⟩ := h.add (v := .list next first others) rfl
  exact ⟨w', hle, hbelow, Value.madeOf_list_iff.2 ⟨hmem, fun v hv => (hitems v hv).mono hle⟩⟩

end StackLisp
