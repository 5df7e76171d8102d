import Mathlib.Order.MinMax
import StackLisp.Proofs.Computation
import StackLisp.Proofs.Shapes
import StackLisp.Proofs.Term

/-!
# What the compiler emits

Compiling a form adds to the function under construction the instructions of a term, which reads
the form part by part. Macros run while forms are compiled, and what is known about the values
that they see and give differs from use to use; a `Policy` collects what the compiler relies on.

- `Reads k expands same e form term e'`: the term reads the form, whose parts were expanded first;
- `compileForm_added`: a compiled form adds code for a term that reads it;
- `compileLiteral_compiled`: a compiled function literal is a closure without environment that
  implements a reading of the literal's body, and all literals inside it are such closures.
-/

namespace StackLisp

/-- A template belongs to a function literal. -/
structure FunctionLiteral.Heads (literal : FunctionLiteral) (template : Closure) : Prop where
  name : template.name = (literal.name.map (·.name)).getD "anonymous"
  positional : template.positional = literal.parameters.positional
  variadic : template.variadic = literal.parameters.variadic
  parameters : ∀ (i : Nat) (s : Symbol), literal.parameters.symbols[i]? = some s →
    template.constants[i]? = some (.symbol s)
  unbound : template.env = none

/-- The relation holds of the pairs of two lists one after the other, each time at the engine that
the pair before has left. -/
inductive InTurn {α β : Type} (R : Engine → α → β → Engine → Prop) :
    Engine → List α → List β → Engine → Prop
  | nil {e : Engine} : InTurn R e [] [] e
  | cons {e e₁ e' : Engine} {a : α} {b : β} {as : List α} {bs : List β} : R e a b e₁ →
      InTurn R e₁ as bs e' → InTurn R e (a :: as) (b :: bs) e'

theorem inTurn_cons {α β : Type} {R : Engine → α → β → Engine → Prop} {e e' : Engine} {a : α}
    {as : List α} {cs : List β} : InTurn R e (a :: as) cs e' ↔
      ∃ b bs e₁, R e a b e₁ ∧ InTurn R e₁ as bs e' ∧ cs = b :: bs := by
  constructor
  · rintro ⟨⟩
    exact ⟨_, _, _, by assumption, by assumption, rfl⟩
  · rintro ⟨b, bs, e₁, hb, hbs, rfl⟩
    exact .cons hb hbs

theorem InTurn.length_eq {α β : Type} {R : Engine → α → β → Engine → Prop} {e e' : Engine}
    {as : List α} {bs : List β} (h : InTurn R e as bs e') : as.length = bs.length := by
  induction h with
  | nil => rfl
  | cons _ _ ih => simp [ih]

/-- From one engine to another, the term reads a form: the form is first expanded, and then its
parts are read by its shape, in the order in which they are compiled. A function literal ends with
a new object, its template. Constants are read up to `same`, and a body without forms as the empty
list. -/
inductive Reads (k : Keywords) (expands : Engine → Value → Value → Engine → Prop)
    (same : Value → Value → Prop) : Engine → Value → Term → Engine → Prop
  | atom {e e' : Engine} {form v u : Value} : expands e form v e' → v.IsAtom → v.symbol? = none →
      same u v → Reads k expands same e form (.constant u) e'
  | lookup {e e' : Engine} {form : Value} {s : Symbol} : expands e form (.symbol s) e' →
      Reads k expands same e form (.lookup s) e'
  | quotation {e e' : Engine} {form head v u : Value} {ref : Ref} {others : List Value} :
      expands e form (.list ref head others) e' →
      Shape.ofItems k head others = .ok (.quotation v) →
      same u v → Reads k expands same e form (.constant u) e'
  | conditional {e e₁ e₂ e₃ e' : Engine} {form head test consequent alternative : Value}
      {ref : Ref} {others : List Value} {t c a : Term} :
      expands e form (.list ref head others) e₁ →
      Shape.ofItems k head others = .ok (.conditional test consequent alternative) →
      Reads k expands same e₁ test t e₂ → Reads k expands same e₂ consequent c e₃ →
      Reads k expands same e₃ alternative a e' →
      Reads k expands same e form (.conditional t c a) e'
  | assignment {e e₁ e' : Engine} {form head value : Value} {ref : Ref} {others : List Value}
      {way : Assignment} {target : Symbol} {t : Term} :
      expands e form (.list ref head others) e₁ →
      Shape.ofItems k head others = .ok (.assignment way target value) →
      Reads k expands same e₁ value t e' →
      Reads k expands same e form (.assignment way target t) e'
  | function {e e₁ e₂ : Engine} {form head : Value} {ref : Ref} {others : List Value}
      {literal : FunctionLiteral} {template : Closure} {body : List Term} :
      expands e form (.list ref head others) e₁ →
      Shape.ofItems k head others = .ok (.function literal) → literal.Heads template →
      template.Implements body → template.ref = e₂.store.nextRef → literal.body ≠ [] →
      InTurn (Reads k expands same) e₁ literal.body body e₂ →
      Reads k expands same e form (.function template) { e₂ with store := e₂.store.fresh.2 }
  | empty {e e₁ : Engine} {form head : Value} {ref : Ref} {others : List Value}
      {literal : FunctionLiteral} {template : Closure} {v : Value} :
      expands e form (.list ref head others) e₁ →
      Shape.ofItems k head others = .ok (.function literal) → literal.Heads template →
      template.Implements [.constant v] → template.ref = e₁.store.nextRef → literal.body = [] →
      same v .nil →
      Reads k expands same e form (.function template) { e₁ with store := e₁.store.fresh.2 }
  | call {e e₁ e₂ e' : Engine} {form head callee : Value} {ref : Ref} {others args : List Value}
      {t : Term} {ts : List Term} : expands e form (.list ref head others) e₁ →
      Shape.ofItems k head others = .ok (.call callee args) →
      Reads k expands same e₁ callee t e₂ → InTurn (Reads k expands same) e₂ args ts e' →
      Reads k expands same e form (.call t ts) e'

/-- The terms read the forms of a body; one without forms is the empty list. -/
def ReadsBody (k : Keywords) (expands : Engine → Value → Value → Engine → Prop)
    (same : Value → Value → Prop) (e : Engine) (forms : List Value) (body : List Term)
    (e' : Engine) : Prop :=
  (forms ≠ [] ∧ InTurn (Reads k expands same) e forms body e') ∨
    forms = [] ∧ e = e' ∧ ∃ v : Value, same v .nil ∧ body = [.constant v]

namespace Compiler

/-- What the compiler relies on about forms, values and macros. Forms and values are judged by what
is known of the engine, its world, and that only grows: the number of its environments, which
closures refer to, or the objects that programs can get hold of. -/
structure Policy (ev : Evaluator) (k : Keywords) where
  /-- What is known of an engine. -/
  World : Type
  [order : Preorder World]
  /-- An engine in which forms are compiled. -/
  state : World → Engine → Prop
  /-- A form that may be compiled. -/
  form : World → Value → Prop
  /-- A value that code may push. -/
  value : World → Value → Prop
  /-- What is known of two values with one identity. -/
  same : Value → Value → Prop
  /-- What an expansion may turn a form into. -/
  expands : Engine → Value → Value → Engine → Prop
  form_mono : ∀ {w w' v}, w ≤ w' → form w v → form w' v
  value_mono : ∀ {w w' v}, w ≤ w' → value w v → value w' v
  same_of_identity : ∀ {w e u v}, state w e → value w u → value w v → u.identity = v.identity →
    same u v
  parts : ∀ {w e v e' ref head others shape}, expands e v (.list ref head others) e' →
    form w (.list ref head others) → Shape.ofItems k head others = .ok shape →
    ∀ part ∈ shape.parts, form w part
  quoted : ∀ {w e v e' ref head others u}, expands e v (.list ref head others) e' →
    form w (.list ref head others) → Shape.ofItems k head others = .ok (.quotation u) → value w u
  atom : ∀ {w v}, form w v → v.IsAtom → value w v
  symbol : ∀ w s, value w (.symbol s)
  nil : ∀ w, value w .nil
  /-- New objects do not matter. -/
  fresh : ∀ {w} {e : Engine}, state w e → state w { e with store := e.store.fresh.2 }
  /-- Macros keep all this. -/
  expand : ∀ {w v e u e'}, state w e → form w v →
    expandWithin ev k ev.fuel v e = (.ok u, e') →
    ∃ w', w ≤ w' ∧ state w' e' ∧ form w' u ∧ expands e v u e'

attribute [instance] Policy.order

variable {ev : Evaluator} {k : Keywords} (π : Policy ev k)

/-! ## The builder -/

/-- Constants that may be shared are found at their places, and code may push them. -/
def Sound (w : π.World) (b : Builder) : Prop :=
  ∀ (id : Identity) (i : Nat), b.places[id]? = some i →
    ∃ v, b.constants[i]? = some v ∧ v.identity = id ∧ π.value w v

variable {π} {w w' w₁ w₂ : π.World}

theorem Sound.mono {b : Builder} (h : Sound π w b) (hw : w ≤ w') : Sound π w' b := by
  intro id i hi
  obtain ⟨v, hv, hid, hval⟩ := h id i hi
  exact ⟨v, hv, hid, π.value_mono hw hval⟩

theorem Sound.emit {b : Builder} (h : Sound π w b) (i : Instruction) : Sound π w (b.emit i) :=
  h

theorem Sound.relabel {b : Builder} (h : Sound π w b) (nextLabel : Nat) :
    Sound π w { b with nextLabel } :=
  h

/-- Adding a constant keeps the others in their places. -/
theorem extended_push (pool : Array Value) (v : Value) : Extended pool (pool.push v) := by
  intro i w hw
  obtain ⟨hi, rfl⟩ := Array.getElem?_eq_some_iff.1 hw
  rw [Array.getElem?_push_lt hi]

theorem Sound.push {b : Builder} (h : Sound π w b) {v : Value} (hv : π.value w v) :
    Sound π w (b.push v) := by
  intro id i hi
  simp only [Builder.push, Std.HashMap.getElem?_insertIfNew] at hi
  split at hi
  · rename_i hnew
    obtain rfl := Option.some.inj hi
    exact ⟨v, Array.getElem?_push_size, by simpa using hnew.1, hv⟩
  · obtain ⟨w, hw, hid, hval⟩ := h id i hi
    exact ⟨w, extended_push _ _ _ _ hw, hid, hval⟩

/-- Between the two builders, some instructions were added, and the engine is now `e'`. -/
structure Grown (π : Policy ev k) (own : List Instruction) (w : π.World) (b : Builder)
    (w' : π.World) (b' : Builder) (e' : Engine) : Prop where
  state : π.state w' e'
  world : w ≤ w'
  sound : Sound π w' b'
  pool : Extended b.constants b'.constants
  labels : b.nextLabel ≤ b'.nextLabel
  program : b'.program.toList = b.program.toList ++ own

theorem Grown.refl {b : Builder} {e : Engine} (hs : π.state w e) (hb : Sound π w b) :
    Grown π [] w b w b e where
  state := hs
  world := le_rfl
  sound := hb
  pool := .refl _
  labels := le_rfl
  program := by simp

theorem Grown.relabel {b : Builder} {e : Engine} (hs : π.state w e) (hb : Sound π w b)
    {nextLabel : Nat} (h : b.nextLabel ≤ nextLabel) :
    Grown π [] w b w { b with nextLabel } e where
  state := hs
  world := le_rfl
  sound := hb.relabel nextLabel
  pool := .refl _
  labels := h
  program := by simp

theorem Grown.trans {a c : List Instruction} {b b₁ b₂ : Builder} {e₁ e₂ : Engine}
    (h : Grown π a w b w₁ b₁ e₁) (h' : Grown π c w₁ b₁ w₂ b₂ e₂) :
    Grown π (a ++ c) w b w₂ b₂ e₂ where
  state := h'.state
  world := h.world.trans h'.world
  sound := h'.sound
  pool := h.pool.trans h'.pool
  labels := h.labels.trans h'.labels
  program := by simp [h'.program, h.program]

theorem Grown.emit {b b' : Builder} {e' : Engine} {own : List Instruction}
    (h : Grown π own w b w' b' e') (i : Instruction) :
    Grown π (own ++ [i]) w b w' (b'.emit i) e' where
  state := h.state
  world := h.world
  sound := h.sound.emit i
  pool := h.pool
  labels := h.labels
  program := by simp [Builder.emit, h.program]

/-- The labels of some instructions are distinct and were taken between two counts. -/
def Fresh (first last : Nat) (own : List Instruction) : Prop :=
  (labelIds own).Nodup ∧ ∀ id ∈ labelIds own, first ≤ id.toNat ∧ id.toNat < last

theorem fresh_of_labelIds_eq_nil {own : List Instruction} (h : labelIds own = [])
    (first last : Nat) : Fresh first last own := by
  simp [Fresh, h]

theorem Fresh.append {first middle last : Nat} {a c : List Instruction}
    (ha : Fresh first middle a) (hc : Fresh middle last c) (hf : first ≤ middle)
    (hl : middle ≤ last) : Fresh first last (a ++ c) := by
  constructor
  · rw [labelIds, List.filterMap_append, List.nodup_append]
    refine ⟨ha.1, hc.1, ?_⟩
    rintro id hid _ hid' rfl
    have := (ha.2 id hid).2
    have := (hc.2 id hid').1
    omega
  · intro id hid
    rw [labelIds, List.filterMap_append, List.mem_append] at hid
    rcases hid with hid | hid
    · have := ha.2 id hid
      omega
    · have := hc.2 id hid
      omega

/-- The template is a new object of an engine in which forms were compiled. -/
def IsNew (π : Policy ev k) (c : Closure) : Prop :=
  ∃ w e, π.state w e ∧ c.ref = e.store.nextRef

/-- The constants and templates of terms are fit for a world. -/
abbrev Fit (π : Policy ev k) (w : π.World) (terms : List Term) : Prop :=
  ∀ t ∈ terms, t.All (π.value w) fun c => c.Coded (π.value w) ∧ IsNew π c

/-- Terms stay fit. -/
theorem fit_mono (h : w ≤ w') {terms : List Term} (hfit : Fit π w terms) : Fit π w' terms := by
  intro t ht
  exact (hfit t ht).mono (fun _ => π.value_mono h) fun _ =>
    .imp_left (.mono fun _ => π.value_mono h)

/-- A function with a fit body is made of code through and through. -/
theorem Fit.coded {terms : List Term} {c : Closure} (hfit : Fit π w terms)
    (h : c.Implements terms) : c.Coded (π.value w) :=
  .intro h fun t ht => (hfit t ht).mono (fun _ => id) fun _ => And.left

/-- Between the two builders, code for the terms was added, and the engine is now `e'`. -/
def Added (π : Policy ev k) (terms : List Term) (w : π.World) (b : Builder) (w' : π.World)
    (b' : Builder) (e' : Engine) : Prop :=
  ∃ own, Grown π own w b w' b' e' ∧ Emits b'.constants terms own ∧
    Fresh b.nextLabel b'.nextLabel own ∧ Fit π w' terms

theorem Added.refl {b : Builder} {e : Engine} (hs : π.state w e) (hb : Sound π w b) :
    Added π [] w b w b e :=
  ⟨[], .refl hs hb, .nil, fresh_of_labelIds_eq_nil rfl _ _, fun _ h => nomatch h⟩

/-- Code for some terms and then for others is code for all of them. -/
theorem Added.trans {ts us : List Term} {b b₁ b₂ : Builder} {e₁ e₂ : Engine}
    (h : Added π ts w b w₁ b₁ e₁) (h' : Added π us w₁ b₁ w₂ b₂ e₂) :
    Added π (ts ++ us) w b w₂ b₂ e₂ := by
  obtain ⟨own, hg, hemits, hfresh, hfit⟩ := h
  obtain ⟨own', hg', hemits', hfresh', hfit'⟩ := h'
  refine ⟨own ++ own', hg.trans hg', (hemits.mono hg'.pool).append hemits',
    hfresh.append hfresh' hg.labels hg'.labels, ?_⟩
  intro t ht
  rcases List.mem_append.1 ht with ht | ht
  · exact fit_mono hg'.world hfit t ht
  · exact hfit' t ht

/-! ## Constants -/

theorem pushAt_eq_ok {b b' : Builder} {place : Nat} (h : b.pushAt place = .ok b') :
    b' = b.emit (.const place.toUInt16) ∧ place.toUInt16.toNat = place := by
  unfold Builder.pushAt at h
  split at h
  · cases h
  · obtain rfl := Except.ok.inj h
    exact ⟨rfl, UInt16.toNat_ofNat_of_lt' (by simp only [UInt16.size]; omega)⟩

/-- A constant is pushed from a place that holds a constant identical to it. -/
theorem grown_constant {e : Engine} {b b' : Builder} {v : Value} (hs : π.state w e)
    (hb : Sound π w b) (hv : π.value w v) (h : b.constant v = .ok b') :
    ∃ (i : UInt16) (u : Value), Grown π [.const i] w b w b' e ∧
      b'.constants[i.toNat]? = some u ∧ u.identity = v.identity ∧ π.value w u := by
  cases hi : b.places[v.identity]? with
  | some i =>
    simp only [Builder.constant, Builder.place, hi] at h
    obtain ⟨rfl, hat⟩ := pushAt_eq_ok h
    obtain ⟨u, hu, hid, hval⟩ := hb _ _ hi
    exact ⟨i.toUInt16, u, (Grown.refl hs hb).emit _, by rw [hat]; exact hu, hid, hval⟩
  | none =>
    simp only [Builder.constant, Builder.place, hi] at h
    obtain ⟨rfl, hat⟩ := pushAt_eq_ok h
    refine ⟨b.constants.size.toUInt16, v, ⟨hs, le_rfl, (hb.push hv).emit _, extended_push _ _,
      le_rfl, by simp [Builder.emit, Builder.push]⟩, ?_, rfl, hv⟩
    rw [hat]
    exact Array.getElem?_push_size

/-- A template is pushed from a place of its own. -/
theorem grown_template {e : Engine} {b b' : Builder} {c : Closure} (hs : π.state w e)
    (hb : Sound π w b) (h : b.template c = .ok b') :
    ∃ i : UInt16, Grown π [.const i] w b w b' e ∧
      b'.constants[i.toNat]? = some (.closure c) := by
  unfold Builder.template at h
  obtain ⟨rfl, hat⟩ := pushAt_eq_ok h
  refine ⟨b.constants.size.toUInt16, ⟨hs, le_rfl, Sound.emit ?_ _, extended_push _ _,
    le_rfl, by simp [Builder.emit]⟩, ?_⟩
  · intro id i hi
    obtain ⟨u, hu, hid, hval⟩ := hb id i hi
    exact ⟨u, extended_push _ _ _ _ hu, hid, hval⟩
  · rw [hat]
    exact Array.getElem?_push_size

/-! ## Forms -/

/-- A value that is identical to a symbol is that symbol. -/
theorem eq_symbol_of_identity {u : Value} {s : Symbol}
    (h : u.identity = (Value.symbol s).identity) : u = .symbol s := by
  cases u <;> simp [Value.identity] at h
  rw [h]

/-- A way of compiling forms adds to each builder the code of a term that reads the form. -/
def Compiles (π : Policy ev k) (compile : Value → Build Unit) : Prop :=
  ∀ {v : Value} {w : π.World} {b b' : Builder} {e e' : Engine}, π.state w e → Sound π w b →
    π.form w v → compile v b e = (.ok ((), b'), e') →
    ∃ t w', Reads k π.expands π.same e v t e' ∧ Added π [t] w b w' b' e'

variable {compile : Value → Build Unit} {b b' : Builder} {e e' : Engine}

theorem added_constant {v : Value} (hs : π.state w e) (hb : Sound π w b)
    (hv : π.value w v) (h : b.constant v = .ok b') :
    ∃ u : Value, π.same u v ∧ Added π [.constant u] w b w b' e := by
  obtain ⟨i, u, hg, hu, hid, hval⟩ := grown_constant hs hb hv h
  refine ⟨u, π.same_of_identity hs hval hv hid, [.const i], hg, .constant hu .nil,
    fresh_of_labelIds_eq_nil rfl _ _, ?_⟩
  simpa [Fit] using Term.All.constant hval

theorem added_lookup {s : Symbol} (hs : π.state w e) (hb : Sound π w b)
    (h : b.constant (.symbol s) = .ok b') : Added π [.lookup s] w b w (b'.emit .load) e := by
  obtain ⟨i, u, hg, hu, hid, -⟩ := grown_constant hs hb (π.symbol _ s) h
  obtain rfl := eq_symbol_of_identity hid
  refine ⟨[.const i, .load], hg.emit .load, .lookup hu .nil, fresh_of_labelIds_eq_nil rfl _ _, ?_⟩
  simpa [Fit] using Term.All.lookup

/-- A label is the number of labels taken before. -/
theorem label_eq_ok_iff {id : UInt16} (h : b.label = .ok (id, b')) :
    id.toNat = b.nextLabel ∧ b' = { b with nextLabel := b.nextLabel + 1 } := by
  unfold Builder.label at h
  split at h
  · cases h
  · simp only [Except.ok.injEq, Prod.mk.injEq] at h
    obtain ⟨rfl, rfl⟩ := h
    exact ⟨UInt16.toNat_ofNat_of_lt' (by simp only [UInt16.size]; omega), rfl⟩

/-- The labels of a conditional are its own two and those of its parts. -/
theorem labelIds_conditional (l m : UInt16) (a b c : List Instruction) :
    (labelIds (a ++ .jumpIfNot l :: (b ++ .jump m :: .label l :: (c ++ [.label m])))).Perm
      (l :: m :: labelIds (a ++ (b ++ c))) := by
  simp only [labelIds, List.filterMap_append, List.filterMap_cons, List.filterMap_nil]
  generalize a.filterMap _ = as
  generalize b.filterMap _ = bs
  generalize c.filterMap _ = cs
  have hl : (as ++ (bs ++ l :: (cs ++ [m]))).Perm (l :: (as ++ (bs ++ (cs ++ [m])))) := by
    rw [← List.append_assoc, ← List.append_assoc as]
    exact List.perm_middle
  refine hl.trans (List.Perm.cons l ?_)
  rw [← List.append_assoc bs, ← List.append_assoc as]
  exact List.perm_append_singleton m _

/-- Two labels and those taken after them are distinct. -/
theorem fresh_conditional {n last : Nat} {l m : UInt16} {a b c : List Instruction}
    (hl : l.toNat = n) (hm : m.toNat = n + 1) (hlast : n + 2 ≤ last)
    (h : Fresh (n + 2) last (a ++ (b ++ c))) :
    Fresh n last (a ++ .jumpIfNot l :: (b ++ .jump m :: .label l :: (c ++ [.label m]))) := by
  -- up to order, the labels are the two taken first and those of the parts
  have hperm := labelIds_conditional l m a b c
  have hlm : l ≠ m := by
    rintro rfl
    omega
  constructor
  · rw [hperm.nodup_iff, List.nodup_cons, List.nodup_cons, List.mem_cons, not_or]
    refine ⟨⟨hlm, fun hmem => ?_⟩, fun hmem => ?_, h.1⟩
    · have := (h.2 _ hmem).1
      omega
    · have := (h.2 _ hmem).1
      omega
  · intro id hid
    rcases List.mem_cons.1 (hperm.mem_iff.1 hid) with rfl | hid
    · omega
    · rcases List.mem_cons.1 hid with rfl | hid
      · omega
      · have := h.2 _ hid
        omega

/-- A conditional jumps over the branch that is not taken. -/
theorem compileConditional_added (hc : Compiles π compile) {test consequent alternative : Value}
    (hs : π.state w e) (hb : Sound π w b) (htest : π.form w test) (hthen : π.form w consequent)
    (helse : π.form w alternative)
    (h : compileConditional compile test consequent alternative b e = (.ok ((), b'), e')) :
    ∃ t c a e₁ e₂ w', Reads k π.expands π.same e test t e₁ ∧
      Reads k π.expands π.same e₁ consequent c e₂ ∧
      Reads k π.expands π.same e₂ alternative a e' ∧
      Added π [.conditional t c a] w b w' b' e' := by
  obtain ⟨l, m, _, _, b₃, b₄, b₅, e₃, e₄, hl, hm, ht, hthen', helse', rfl⟩ :=
    compileConditional_eq_ok.1 h
  obtain ⟨hlAt, rfl⟩ := label_eq_ok_iff hl
  obtain ⟨hmAt, rfl⟩ := label_eq_ok_iff hm
  obtain ⟨t, w₁, rt, o₁, g₁, em₁, f₁, fit₁⟩ := hc hs ((hb.relabel _).relabel _) htest ht
  obtain ⟨c, w₂, rc, o₂, g₂, em₂, f₂, fit₂⟩ := hc g₁.state (g₁.sound.emit _)
    (π.form_mono g₁.world hthen) hthen'
  obtain ⟨a, w₃, ra, o₃, g₃, em₃, f₃, fit₃⟩ := hc g₂.state ((g₂.sound.emit _).emit _)
    (π.form_mono (g₁.world.trans g₂.world) helse) helse'
  refine ⟨t, c, a, e₃, e₄, w₃, rt, rc, ra, o₁ ++ .jumpIfNot l :: (o₂ ++ .jump m :: .label l ::
    (o₃ ++ .label m :: [])), ?_, ?_, ?_, ?_⟩
  · have g₀ := Grown.relabel hs hb (Nat.le_add_right b.nextLabel 2)
    have := ((((((g₀.trans g₁).emit (.jumpIfNot l)).trans g₂).emit (.jump m)).emit
      (.label l)).trans g₃).emit (.label m)
    simpa using this
  · exact .conditional ((em₁.mono g₂.pool).mono g₃.pool) (em₂.mono g₃.pool) em₃ .nil
  · have := g₁.labels
    have := g₂.labels
    have := g₃.labels
    -- the parts take their labels one after the other, all behind the two of the conditional
    have hparts := f₁.append (f₂.append f₃ g₂.labels g₃.labels) g₁.labels
      (g₂.labels.trans g₃.labels)
    exact fresh_conditional hlAt hmAt (by simp [Builder.emit] at *; omega) hparts
  · have hfit := Term.All.conditional (fit_mono (g₂.world.trans g₃.world) fit₁ t (by simp))
      (fit_mono g₃.world fit₂ c (by simp)) (fit₃ a (by simp))
    simpa [Fit] using hfit

/-- Forms in a row are read one by one. -/
theorem forM_added (hc : Compiles π compile) {items : List Value} (hs : π.state w e)
    (hb : Sound π w b) (hitems : ∀ v ∈ items, π.form w v)
    (h : items.forM compile b e = (.ok ((), b'), e')) :
    ∃ ts w', InTurn (Reads k π.expands π.same) e items ts e' ∧ Added π ts w b w' b' e' := by
  induction items generalizing w b e with
  | nil =>
    obtain ⟨-, rfl, rfl⟩ := Build.pure_eq_ok.1 h
    exact ⟨[], w, .nil, .refl hs hb⟩
  | cons v items ih =>
    obtain ⟨_, b₁, e₁, hv, hrest⟩ := Build.bind_eq_ok.1 h
    rw [List.forall_mem_cons] at hitems
    obtain ⟨t, w₁, rt, ht⟩ := hc hs hb hitems.1 hv
    obtain ⟨own, hg, -⟩ := id ht
    obtain ⟨ts, w₂, rts, hts⟩ := ih hg.state hg.sound
      (fun u hu => π.form_mono hg.world (hitems.2 u hu)) hrest
    exact ⟨t :: ts, w₂, .cons rt rts, ht.trans hts⟩

/-- A call evaluates the function and its arguments from left to right. -/
theorem compileCall_added (hc : Compiles π compile) {callee : Value} {args : List Value}
    (hs : π.state w e) (hb : Sound π w b) (hitems : ∀ v ∈ callee :: args, π.form w v)
    (h : compileCall compile (callee :: args) args.length b e = (.ok ((), b'), e')) :
    ∃ t ts e₁ w', Reads k π.expands π.same e callee t e₁ ∧
      InTurn (Reads k π.expands π.same) e₁ args ts e' ∧ Added π [.call t ts] w b w' b' e' := by
  obtain ⟨b₁, hforM, hargc, rfl⟩ := compileCall_eq_ok.1 h
  obtain ⟨terms, w', rterms, own, hg, hemits, hfresh, hfit⟩ := forM_added hc hs hb hitems hforM
  obtain ⟨t, ts, e₁, rt, rts, rfl⟩ := inTurn_cons.1 rterms
  have hlength : args.length.toUInt16.toNat = ts.length := by
    rw [← rts.length_eq]
    exact UInt16.toNat_ofNat_of_lt' (by simp only [UInt16.size]; omega)
  have hcall : Emits b₁.constants [.call t ts] (own ++ [.call args.length.toUInt16]) :=
    .call hemits hlength .nil
  refine ⟨t, ts, e₁, w', rt, rts, own ++ [Instruction.call args.length.toUInt16], hg.emit _, hcall,
    ?_, ?_⟩
  · exact hfresh.append (fresh_of_labelIds_eq_nil rfl _ _) hg.labels le_rfl
  · rw [Fit, List.forall_mem_cons] at hfit
    simpa [Fit] using Term.All.call hfit.1 hfit.2

/-- An assignment pushes the symbol below the value. -/
theorem compileAssignment_added (hc : Compiles π compile) {way : Assignment} {target : Symbol}
    {value : Value} (hs : π.state w e) (hb : Sound π w b) (hform : π.form w value)
    (h : compileShape compile (.assignment way target value) b e = (.ok ((), b'), e')) :
    ∃ t w', Reads k π.expands π.same e value t e' ∧
      Added π [.assignment way target t] w b w' b' e' := by
  obtain ⟨b₁, b₂, hpush, hvalue, rfl⟩ := compileShape_assignment_eq_ok.1 h
  obtain ⟨i, u, hg, hu, hid, -⟩ := grown_constant hs hb (π.symbol _ target) hpush
  obtain rfl := eq_symbol_of_identity hid
  obtain ⟨t, w', rt, own, hg', hemits, hfresh, hfit⟩ := hc hg.state hg.sound hform hvalue
  have hassigned : Emits b₂.constants [.assignment way target t]
      (.const i :: (own ++ [way.instruction])) := .assignment (hg'.pool _ _ hu) hemits .nil
  have hids : labelIds (.const i :: (own ++ [way.instruction])) = labelIds own := by
    cases way <;> simp [labelIds, Assignment.instruction]
  refine ⟨t, w', rt, .const i :: (own ++ [way.instruction]), (hg.trans hg').emit _, hassigned, ?_,
    ?_⟩
  · rw [Fresh, hids]
    exact ⟨hfresh.1, fun id hid => ⟨hg.labels.trans (hfresh.2 id hid).1, (hfresh.2 id hid).2⟩⟩
  · simpa [Fit] using Term.All.assignment (hfit t (by simp))

/-! ## Function literals -/

/-- The forms of a body are read one by one, and each value but the last is dropped. -/
theorem compileBody_added (hc : Compiles π compile) {forms : List Value} {w : π.World}
    {b b' : Builder} {e e' : Engine} (hs : π.state w e) (hb : Sound π w b)
    (hforms : ∀ v ∈ forms, π.form w v)
    (h : compileBody compile forms b e = (.ok ((), b'), e')) :
    ∃ body own w', ReadsBody k π.expands π.same e forms body e' ∧ Grown π own w b w' b' e' ∧
      EmitsBody b'.constants body (own ++ [.ret]) ∧ Fresh b.nextLabel b'.nextLabel own ∧
      Fit π w' body := by
  match forms with
  | [] =>
    obtain ⟨hnil, rfl⟩ := constant_eq_ok.1 h
    obtain ⟨u, hu, own, hg, hemits, hfresh, hfit⟩ := added_constant hs hb (π.nil _) hnil
    exact ⟨_, own, w, .inr ⟨rfl, rfl, u, hu, rfl⟩, hg, .last hemits, hfresh, hfit⟩
  | [form] =>
    obtain ⟨t, w', rt, own, hg, hemits, hfresh, hfit⟩ := hc hs hb (hforms form (by simp)) h
    exact ⟨_, own, w', .inl ⟨by simp, .cons rt .nil⟩, hg, .last hemits, hfresh, hfit⟩
  | form :: next :: others =>
    rw [List.forall_mem_cons] at hforms
    obtain ⟨b₁, e₁, hform, hrest⟩ := compileBody_cons_eq_ok.1 h
    obtain ⟨t, w₁, rt, own, hg, hemits, hfresh, hfit⟩ := hc hs hb hforms.1 hform
    obtain ⟨body, more, w₂, rbody, hg', hemits', hfresh', hfit'⟩ := compileBody_added hc hg.state
      (hg.sound.emit .pop) (fun v hv => π.form_mono hg.world (hforms.2 v hv)) hrest
    -- a body with forms is not read as the empty list
    have rbody' : InTurn (Reads k π.expands π.same) e₁ (next :: others) body e' := by
      rcases rbody with ⟨-, h⟩ | ⟨h, -⟩
      · exact h
      · cases h
    refine ⟨t :: body, own ++ [.pop] ++ more, w₂, .inl ⟨by simp, .cons rt rbody'⟩,
      (hg.emit .pop).trans hg', ?_, ?_, ?_⟩
    · simpa using EmitsBody.cons (hemits.mono hg'.pool) hemits'
    · exact (hfresh.append (fresh_of_labelIds_eq_nil rfl _ _) hg.labels le_rfl).append hfresh'
        hg.labels hg'.labels
    · rw [Fit, List.forall_mem_cons]
      exact ⟨fit_mono hg'.world hfit t (by simp), hfit'⟩

theorem constants_foldl_push (symbols : List Symbol) (b : Builder) :
    (symbols.foldl (fun b s => b.push (.symbol s)) b).constants.toList =
      b.constants.toList ++ symbols.map .symbol := by
  induction symbols generalizing b with
  | nil => simp
  | cons s symbols ih =>
    rw [List.foldl_cons, ih]
    simp [Builder.push]

theorem sound_foldl_push (symbols : List Symbol) {b : Builder} (hb : Sound π w b) :
    Sound π w (symbols.foldl (fun b s => b.push (.symbol s)) b) := by
  induction symbols generalizing b with
  | nil => exact hb
  | cons s symbols ih => exact ih (hb.push (π.symbol w s))

theorem program_foldl_push (symbols : List Symbol) (b : Builder) :
    (symbols.foldl (fun b s => b.push (.symbol s)) b).program = b.program := by
  induction symbols generalizing b with
  | nil => rfl
  | cons s symbols ih => exact ih _

/-- A builder starts without code, with the parameters as its constants. -/
theorem sound_ofParameters (w : π.World) (symbols : List Symbol) :
    Sound π w (.ofParameters symbols) :=
  sound_foldl_push symbols (by simp [Sound])

theorem constants_ofParameters (symbols : List Symbol) {i : Nat} {s : Symbol}
    (h : symbols[i]? = some s) :
    (Builder.ofParameters symbols).constants[i]? = some (.symbol s) := by
  rw [← Array.getElem?_toList, Builder.ofParameters, constants_foldl_push]
  simp [h]

theorem program_ofParameters (symbols : List Symbol) :
    (Builder.ofParameters symbols).program.toList = [] := by
  rw [Builder.ofParameters, program_foldl_push]

/-- What is known about a function that was compiled from a literal. -/
structure Compiled (π : Policy ev k) (literal : FunctionLiteral) (w : π.World) (e : Engine)
    (c : Closure) (w' : π.World) (e' : Engine) : Prop where
  state : π.state w' e'
  world : w ≤ w'
  heads : literal.Heads c
  isNew : IsNew π c
  /-- Its template is the last object that was made. -/
  body : ∃ body e₁, ReadsBody k π.expands π.same e literal.body body e₁ ∧
    c.ref = e₁.store.nextRef ∧ e' = { e₁ with store := e₁.store.fresh.2 } ∧
    c.Implements body ∧ Fit π w' body

/-- The code of a function literal evaluates a reading of its body. -/
theorem compileBody_program (hc : Compiles π compile) {forms : List Value} {symbols : List Symbol}
    (hs : π.state w e) (hforms : ∀ v ∈ forms, π.form w v)
    (h : (do compileBody compile forms; emit .ret : Build Unit) (.ofParameters symbols) e =
      (.ok ((), b'), e')) :
    (∀ (i : Nat) (s : Symbol), symbols[i]? = some s → b'.constants[i]? = some (.symbol s)) ∧
    ∃ body w', π.state w' e' ∧ w ≤ w' ∧ ReadsBody k π.expands π.same e forms body e' ∧
      EmitsBody b'.constants body b'.program.toList ∧ (labelIds b'.program.toList).Nodup ∧
      Fit π w' body := by
  obtain ⟨_, b₁, e₁, hbody, hret⟩ := Build.bind_eq_ok.1 h
  obtain ⟨rfl, rfl⟩ := emit_eq_ok.1 hret
  obtain ⟨body, own, w', rbody, hg, hemits, hlabels, hfit⟩ := compileBody_added hc hs
    (sound_ofParameters _ _) hforms hbody
  have hprogram : (b₁.emit .ret).program.toList = own ++ [.ret] := by
    simp [Builder.emit, hg.program, program_ofParameters]
  have hids : labelIds (own ++ [.ret]) = labelIds own := by simp [labelIds]
  refine ⟨fun i s hi => hg.pool _ _ (constants_ofParameters _ hi), body, w', hg.state, hg.world,
    rbody, hprogram ▸ hemits, ?_, hfit⟩
  rw [hprogram, hids]
  exact hlabels.1

/-- A compiled function literal implements a reading of its body. -/
theorem compileLiteral_compiled (hc : Compiles π compile) {literal : FunctionLiteral} {c : Closure}
    (hcomplete : literal.Complete) (hs : π.state w e) (hforms : ∀ v ∈ literal.body, π.form w v)
    (h : compileLiteral compile literal e = (.ok c, e')) :
    ∃ w', Compiled π literal w e c w' e' := by
  obtain ⟨b, code, e₁, hbuild, hasm, rfl, rfl⟩ := compileLiteral_eq_ok.1 h
  obtain ⟨hparameters, body, w', hstate, hle, rbody, hemits, hids, hfit⟩ :=
    compileBody_program hc hs hforms hbuild
  refine ⟨w', π.fresh hstate, hle, ⟨?_, rfl, rfl, hparameters, rfl⟩, ⟨w', e₁, hstate, rfl⟩, body,
    e₁, rbody, rfl, rfl, ⟨⟨_, hasm, hemits, hids⟩, ?_⟩, hfit⟩
  · rw [templateOf]
    cases literal.name <;> rfl
  · intro i hi
    have hlt : i < literal.parameters.symbols.length := hcomplete ▸ hi
    exact ⟨_, hparameters i _ (List.getElem?_eq_getElem hlt)⟩

/-- A function literal pushes a template that implements a reading of its body. -/
theorem compileFunction_added (hc : Compiles π compile) {literal : FunctionLiteral}
    (hcomplete : literal.Complete) (hs : π.state w e) (hb : Sound π w b)
    (hforms : ∀ v ∈ literal.body, π.form w v)
    (h : compileShape compile (.function literal) b e = (.ok ((), b'), e')) :
    ∃ c body e₁ w', literal.Heads c ∧ c.Implements body ∧ c.ref = e₁.store.nextRef ∧
      ReadsBody k π.expands π.same e literal.body body e₁ ∧
      e' = { e₁ with store := e₁.store.fresh.2 } ∧ Added π [.function c] w b w' b' e' := by
  obtain ⟨c, b₁, hliteral, hpush, rfl⟩ := compileShape_function_eq_ok.1 h
  obtain ⟨w', hcompiled⟩ := compileLiteral_compiled hc hcomplete hs hforms hliteral
  obtain ⟨body, e₁, rbody, href, hend, himplements, hfit⟩ := hcompiled.body
  obtain ⟨i, hg, hi⟩ := grown_template hcompiled.state (hb.mono hcompiled.world) hpush
  have hemits : Emits b₁.constants [.function c] [.const i, .closure] := .function hi .nil
  refine ⟨c, body, e₁, w', hcompiled.heads, himplements, href, rbody, hend, [.const i, .closure],
    ?_, hemits, ?_, ?_⟩
  · exact { hg.emit .closure with world := hcompiled.world }
  · exact fresh_of_labelIds_eq_nil rfl _ _
  · simpa [Fit] using Term.All.function hcompiled.heads.unbound
      ⟨Fit.coded hfit himplements, hcompiled.isNew⟩

/-! ## Whole forms -/

/-- A list is read by its shape. -/
theorem compileShape_added (hc : Compiles π compile) {form head : Value} {ref : Ref}
    {others : List Value} {shape : Shape} {e₀ : Engine}
    (hexpands : π.expands e₀ form (.list ref head others) e)
    (hshape : Shape.ofItems k head others = .ok shape) (hs : π.state w e)
    (hb : Sound π w b) (hform : π.form w (.list ref head others))
    (h : compileShape compile shape b e = (.ok ((), b'), e')) :
    ∃ t w', Reads k π.expands π.same e₀ form t e' ∧ Added π [t] w b w' b' e' := by
  have hparts := π.parts hexpands hform hshape
  match shape with
  | .function literal =>
    obtain ⟨c, body, e₁, w', hheads, himplements, href, rbody, rfl, hadded⟩ :=
      compileFunction_added hc (Shape.complete_of_ofItems hshape) hs hb hparts h
    refine ⟨.function c, w', ?_, hadded⟩
    rcases rbody with ⟨hne, rbody⟩ | ⟨hnil, rfl, v, hv, rfl⟩
    · exact .function hexpands hshape hheads himplements href hne rbody
    · exact .empty hexpands hshape hheads himplements href hnil hv
  | .quotation v =>
    obtain ⟨hpush, rfl⟩ := constant_eq_ok.1 h
    obtain ⟨u, hu, hadded⟩ := added_constant hs hb (π.quoted hexpands hform hshape) hpush
    exact ⟨_, w, .quotation hexpands hshape hu, hadded⟩
  | .conditional test consequent alternative =>
    simp only [Shape.parts, List.forall_mem_cons] at hparts
    obtain ⟨t, c, a, e₁, e₂, w', rt, rc, ra, hadded⟩ := compileConditional_added hc hs hb hparts.1
      hparts.2.1 hparts.2.2.1 h
    exact ⟨_, w', .conditional hexpands hshape rt rc ra, hadded⟩
  | .assignment way target value =>
    obtain ⟨t, w', rt, hadded⟩ :=
      compileAssignment_added hc hs hb (hparts value (by simp [Shape.parts])) h
    exact ⟨_, w', .assignment hexpands hshape rt, hadded⟩
  | .call callee args =>
    obtain ⟨t, ts, e₁, w', rt, rts, hadded⟩ := compileCall_added hc hs hb hparts h
    exact ⟨_, w', .call hexpands hshape rt rts, hadded⟩

/-- A compiled form adds code for a term that reads it. -/
theorem compileForm_added (limit room : Nat) : Compiles π (compileForm ev k limit room) := by
  induction room with
  | zero =>
    intro v w b b' e e' _ _ _ h
    exact absurd h compileForm_zero_ne_ok
  | succ room ih =>
    intro v w b b' e e' hs hb hv h
    obtain ⟨u, e₁, hexpand, h⟩ := compileForm_succ_eq_ok.1 h
    obtain ⟨w₁, hle, hs₁, hu, hexpands⟩ := π.expand hs hv hexpand
    have hb₁ := hb.mono hle
    suffices ∃ t w', Reads k π.expands π.same e v t e' ∧ Added π [t] w₁ b w' b' e' by
      obtain ⟨t, w', rt, own, hg, hadded⟩ := this
      exact ⟨t, w', rt, own, { hg with world := hle.trans hg.world }, hadded⟩
    -- atoms push themselves, apart from symbols, which are looked up
    have hatom : u.IsAtom → u.symbol? = none → constant u b e₁ = (.ok ((), b'), e') →
        ∃ t w', Reads k π.expands π.same e v t e' ∧ Added π [t] w₁ b w' b' e' := by
      intro hu' hsymbol h
      obtain ⟨hpush, rfl⟩ := constant_eq_ok.1 h
      obtain ⟨c, hc, hadded⟩ := added_constant hs₁ hb₁ (π.atom hu hu') hpush
      exact ⟨_, w₁, .atom hexpands hu' hsymbol hc, hadded⟩
    cases u with
    | list ref head others =>
      obtain ⟨shape, hshape, hcompile⟩ := compileExpanded_list_eq_ok.1 h
      exact compileShape_added ih hexpands hshape hs₁ hb₁ hu hcompile
    | symbol s =>
      obtain ⟨b₂, hpush, rfl, rfl⟩ := compileExpanded_symbol_eq_ok.1 h
      exact ⟨_, w₁, .lookup hexpands, added_lookup hs₁ hb₁ hpush⟩
    | number n => exact hatom trivial rfl h
    | boolean n => exact hatom trivial rfl h
    | string ref text => exact hatom trivial rfl h
    | nil => exact hatom trivial rfl h
    | intrinsic ref function => exact hatom trivial rfl h
    | closure c => exact hatom trivial rfl h

/-- A function literal that is compiled on its own. -/
theorem compileTop_compiled {literal : FunctionLiteral} {c : Closure} {e e' : Engine}
    (hcomplete : literal.Complete) (hs : π.state w e) (hforms : ∀ v ∈ literal.body, π.form w v)
    (h : compileTop ev k literal e = (.ok c, e')) : ∃ w', Compiled π literal w e c w' e' := by
  rw [compileTop_run] at h
  exact compileLiteral_compiled (compileForm_added _ _) hcomplete hs hforms h

/-- A policy that asks for nothing: what an evaluator does to forms and values does not matter for
the code around them. -/
def Policy.lax (ev : Evaluator) (k : Keywords) : Policy ev k where
  World := Unit
  order := PUnit.instLinearOrder.toPartialOrder.toPreorder
  state _ _ := True
  form _ _ := True
  value _ _ := True
  same u v := u.identity = v.identity
  expands _ _ _ _ := True
  form_mono := by simp
  value_mono := by simp
  same_of_identity := by simp
  parts := by simp
  quoted := by simp
  atom := by simp
  symbol := by simp
  nil := by simp
  fresh := by simp
  expand := by simp

end Compiler

end StackLisp
