import StackLisp.Proofs.Demands

/-!
# Values up to identity

Two runs that do the same do not make the same objects: what one of them allocates has another
number in the other. A `Matching` says which objects of the one correspond to which of the other,
and things are alike when they agree up to that.

- `Value.Alike`, `Identity.Alike`, `Builder.Alike`: values, identities and builders that agree;
- `Builder.Alike.place`: alike constants are found at the same place among alike constants;
- `Parallel`: two engines in which a matching of objects makes sense;
- `PureMacros`: macros give alike forms for alike forms, wherever they are called.
-/

namespace StackLisp

/-! ## Values -/

/-- Which objects of one run correspond to which of another. -/
abbrev Matching := Ref → Ref → Prop

/-- No object corresponds to two. -/
def Matching.OneToOne (ρ : Matching) : Prop :=
  ∀ ⦃a b a' b'⦄, ρ a b → ρ a' b' → (a = a' ↔ b = b')

/-- The values agree up to the identity of the objects in them. -/
inductive Value.Alike (ρ : Matching) : Value → Value → Prop
  | number (n : Number) : Alike ρ (.number n) (.number n)
  | symbol (s : Symbol) : Alike ρ (.symbol s) (.symbol s)
  | boolean (b : Bool) : Alike ρ (.boolean b) (.boolean b)
  | string {a b : Ref} (text : String) (href : ρ a b) : Alike ρ (.string a text) (.string b text)
  | nil : Alike ρ .nil .nil
  | list {a b : Ref} {first first' : Value} {others others' : List Value} (href : ρ a b)
      (hfirst : Alike ρ first first') (hothers : List.Forall₂ (Alike ρ) others others') :
      Alike ρ (.list a first others) (.list b first' others')
  | intrinsic {a b : Ref} (function : Intrinsic) (href : ρ a b) :
      Alike ρ (.intrinsic a function) (.intrinsic b function)
  /-- Which environment a closure is bound to is left open. -/
  | closure {c c' : Closure} (href : ρ c.ref c'.ref) (hname : c.name = c'.name)
      (hcode : c.code = c'.code) (hpositional : c.positional = c'.positional)
      (hvariadic : c.variadic = c'.variadic)
      (hconstants : List.Forall₂ (Alike ρ) c.constants.toList c'.constants.toList) :
      Alike ρ (.closure c) (.closure c')

/-- Objects that correspond go on to correspond when there are more of them. -/
theorem Value.Alike.mono {ρ σ : Matching} (hσ : ∀ a b, ρ a b → σ a b) {v w : Value}
    (h : v.Alike ρ w) : v.Alike σ w := by
  -- the second motive is about the items of lists and the constants of closures
  refine @Value.Alike.rec ρ (fun v w _ => v.Alike σ w)
    (fun vs ws _ => List.Forall₂ (Alike σ) vs ws) ?_ ?_ ?_ ?_ ?_ ?_ ?_ ?_ ?_ ?_ v w h
  · exact .number
  · exact .symbol
  · exact .boolean
  · exact fun text href => .string text (hσ _ _ href)
  · exact .nil
  · exact fun href _ _ hfirst hothers => .list (hσ _ _ href) hfirst hothers
  · exact fun function href => .intrinsic function (hσ _ _ href)
  · exact fun href hname hcode hpositional hvariadic _ hconstants =>
      .closure (hσ _ _ href) hname hcode hpositional hvariadic hconstants
  · exact .nil
  · exact fun _ _ hv hvs => .cons hv hvs

/-- The identities agree up to the objects they stand for. -/
inductive Identity.Alike (ρ : Matching) : Identity → Identity → Prop
  | object {a b : Ref} (h : ρ a b) : Alike ρ (.object a) (.object b)
  | other {id : Identity} (h : ∀ a, id ≠ .object a) : Alike ρ id id

theorem Value.Alike.identity {ρ : Matching} {v w : Value} (h : v.Alike ρ w) :
    v.identity.Alike ρ w.identity := by
  cases h with
  | number | symbol | boolean | nil => exact .other nofun
  | string _ href => exact .object href
  | list href => exact .object href
  | intrinsic _ href => exact .object href
  | closure href => exact .object href

theorem Identity.Alike.eq_iff {ρ : Matching} (hρ : ρ.OneToOne) {i i' j j' : Identity}
    (hi : i.Alike ρ i') (hj : j.Alike ρ j') : i = j ↔ i' = j' := by
  cases hi with
  | object hi =>
    cases hj with
    | object hj => simpa using hρ hi hj
    | other hj => simp [(hj _).symm]
  | other hi =>
    cases hj with
    | object hj => simp [hi]
    | other hj => exact Iff.rfl

theorem Identity.Alike.mono {ρ σ : Matching} (hσ : ∀ a b, ρ a b → σ a b) {i j : Identity}
    (h : i.Alike ρ j) : i.Alike σ j := by
  cases h with
  | object h => exact .object (hσ _ _ h)
  | other h => exact .other h

/-- Whether values are one and the same is the same question for values alike to them. -/
theorem Value.Alike.identical_eq {ρ : Matching} (hρ : ρ.OneToOne) {v v' w w' : Value}
    (hv : v.Alike ρ v') (hw : w.Alike ρ w') : v.identical w = v'.identical w' := by
  rw [Value.identical, Value.identical]
  exact decide_eq_decide.2 (hv.identity.eq_iff hρ hw.identity)

/-! ## Builders -/

/-- The matching that lets any two objects correspond: values that are alike then are the same
apart from which objects they are made of. -/
def Matching.any : Matching :=
  fun _ _ => True

/-- The builders hold the same code and constants that agree, and find alike constants at the same
places. -/
structure Builder.Alike (ρ : Matching) (b b' : Builder) : Prop where
  program : b.program = b'.program
  nextLabel : b.nextLabel = b'.nextLabel
  constants : List.Forall₂ (Value.Alike .any) b.constants.toList b'.constants.toList
  there : ∀ (id : Identity) (i : Nat), b.places[id]? = some i →
    ∃ id', id.Alike ρ id' ∧ b'.places[id']? = some i
  back : ∀ (id' : Identity) (i : Nat), b'.places[id']? = some i →
    ∃ id : Identity, id.Alike ρ id' ∧ b.places[id]? = some i

namespace Builder.Alike

variable {ρ σ : Matching} {b b' : Builder}

theorem size (h : b.Alike ρ b') : b.constants.size = b'.constants.size := by
  simpa using h.constants.length_eq

theorem mono (h : b.Alike ρ b') (hσ : ∀ a b, ρ a b → σ a b) : b.Alike σ b' where
  program := h.program
  nextLabel := h.nextLabel
  constants := h.constants
  there id i hi := by
    obtain ⟨id', hid, hi'⟩ := h.there id i hi
    exact ⟨id', hid.mono hσ, hi'⟩
  back id' i hi := by
    obtain ⟨id, hid, hi'⟩ := h.back id' i hi
    exact ⟨id, hid.mono hσ, hi'⟩

theorem emit (h : b.Alike ρ b') (i : Instruction) : (b.emit i).Alike ρ (b'.emit i) where
  program := by rw [Builder.emit, Builder.emit, h.program]
  nextLabel := h.nextLabel
  constants := h.constants
  there := h.there
  back := h.back

theorem relabel (h : b.Alike ρ b') (nextLabel : Nat) :
    Builder.Alike ρ { b with nextLabel } { b' with nextLabel } where
  program := h.program
  nextLabel := rfl
  constants := h.constants
  there := h.there
  back := h.back

theorem forall₂_push {R : Value → Value → Prop} {cs cs' : Array Value} {v v' : Value}
    (h : List.Forall₂ R cs.toList cs'.toList) (hv : R v v') :
    List.Forall₂ R (cs.push v).toList (cs'.push v').toList := by
  rw [Array.toList_push, Array.toList_push]
  exact List.rel_append h (.cons hv .nil)

/-- Alike constants are found at the same place, or nowhere on either side. -/
theorem places_eq (h : b.Alike ρ b') (hρ : ρ.OneToOne) {id id' : Identity} (hid : id.Alike ρ id') :
    b.places[id]? = b'.places[id']? := by
  cases hi : b.places[id]? with
  -- what the other builder finds there is alike to `id` as well, so it is `id'`
  | some i =>
    obtain ⟨other, hother, hi'⟩ := h.there id i hi
    obtain rfl := (hid.eq_iff hρ hother).1 rfl
    exact hi'.symm
  | none =>
    cases hi' : b'.places[id']? with
    | none => rfl
    | some i =>
      obtain ⟨other, hother, hother'⟩ := h.back id' i hi'
      obtain rfl := (hid.eq_iff hρ hother).2 rfl
      rw [hi] at hother'
      cases hother'

theorem places_push {c : Builder} {v : Value} {id : Identity} :
    (c.push v).places[id]? =
      if v.identity = id then some (c.places[id]?.getD c.constants.size) else c.places[id]? := by
  simp only [Builder.push, Std.HashMap.getElem?_insertIfNew, Std.HashMap.mem_iff_isSome_getElem?]
  by_cases hid : v.identity = id
  · subst hid
    cases c.places[v.identity]? <;> simp
  · simp [hid]

/-- After alike constants were pushed, alike constants are still found at the same place. -/
theorem places_push_eq (h : b.Alike ρ b') (hρ : ρ.OneToOne) {v v' : Value} (hv : v.Alike ρ v')
    {id id' : Identity} (hid : id.Alike ρ id') :
    (b.push v).places[id]? = (b'.push v').places[id']? := by
  rw [places_push, places_push, h.places_eq hρ hid, h.size]
  exact if_congr (hv.identity.eq_iff hρ hid) rfl rfl

theorem push (h : b.Alike ρ b') (hρ : ρ.OneToOne) {v v' : Value} (hv : v.Alike ρ v') :
    (b.push v).Alike ρ (b'.push v') where
  program := h.program
  nextLabel := h.nextLabel
  constants := forall₂_push h.constants (hv.mono fun _ _ _ => trivial)
  -- what is found is the new constant or was found before, so there is something alike to it
  there id i hi := by
    obtain ⟨id', hid⟩ : ∃ id', id.Alike ρ id' := by
      by_cases hnew : v.identity = id
      · exact ⟨_, hnew ▸ hv.identity⟩
      · rw [places_push, if_neg hnew] at hi
        obtain ⟨id', hid, -⟩ := h.there id i hi
        exact ⟨id', hid⟩
    exact ⟨id', hid, (h.places_push_eq hρ hv hid).symm.trans hi⟩
  back id' i hi := by
    obtain ⟨id, hid⟩ : ∃ id : Identity, id.Alike ρ id' := by
      by_cases hnew : v'.identity = id'
      · exact ⟨_, hnew ▸ hv.identity⟩
      · rw [places_push, if_neg hnew] at hi
        obtain ⟨id, hid, -⟩ := h.back id' i hi
        exact ⟨id, hid⟩
    exact ⟨id, hid, (h.places_push_eq hρ hv hid).trans hi⟩

/-- A constant and one alike to it take the same place. -/
theorem place (h : b.Alike ρ b') (hρ : ρ.OneToOne) {v v' : Value} (hv : v.Alike ρ v') :
    (b.place v).1 = (b'.place v').1 ∧ (b.place v).2.Alike ρ (b'.place v').2 := by
  rw [Builder.place, Builder.place, h.places_eq hρ hv.identity]
  cases b'.places[v'.identity]? with
  | some i => exact ⟨rfl, h⟩
  | none => exact ⟨h.size, h.push hρ hv⟩

/-- Function literals take a place of their own on both sides. -/
theorem literal (h : b.Alike ρ b') {v v' : Value} (hv : v.Alike .any v') :
    Builder.Alike ρ { b with constants := b.constants.push v }
      { b' with constants := b'.constants.push v' } where
  program := h.program
  nextLabel := h.nextLabel
  constants := forall₂_push h.constants hv
  there := h.there
  back := h.back

/-- Symbols are the same in both runs. -/
theorem ofParameters (hρ : ρ.OneToOne) (symbols : List Symbol) :
    (Builder.ofParameters symbols).Alike ρ (Builder.ofParameters symbols) := by
  have hfoldl : ∀ b : Builder, b.Alike ρ b →
      (symbols.foldl (fun b s => b.push (.symbol s)) b).Alike ρ
        (symbols.foldl (fun b s => b.push (.symbol s)) b) := by
    induction symbols with
    | nil => exact fun _ hb => hb
    | cons s symbols ih => exact fun b hb => ih _ (hb.push hρ (.symbol s))
  exact hfoldl {} ⟨rfl, rfl, .nil, by simp, by simp⟩

end Builder.Alike

/-! ## Engines -/

/-- The engines are in states that macros may be called in, and the objects of the one that
correspond to objects of the other were all made before. What was there at the start corresponds to
itself. -/
structure Parallel (origin : Engine) (state : Engine → Prop) (ρ : Matching) (e e' : Engine) :
    Prop where
  left : state e
  right : state e'
  oneToOne : ρ.OneToOne
  made : ∀ a b, ρ a b → a < e.store.nextRef ∧ b < e'.store.nextRef
  old : ∀ a, a < origin.store.nextRef → ρ a a

/-- Both computations fail, or both give values, which are alike if the objects made meanwhile are
matched. -/
inductive AlikeOutcome (origin : Engine) (state : Engine → Prop) (ρ : Matching) :
    Except Stop Value × Engine → Except Stop Value × Engine → Prop
  | ok {v v' : Value} {e e' : Engine} (σ : Matching) (hσ : ∀ a b, ρ a b → σ a b)
      (hpar : Parallel origin state σ e e') (hv : v.Alike σ v') :
      AlikeOutcome origin state ρ (.ok v, e) (.ok v', e')
  | error {stop stop' : Stop} {e e' : Engine} :
      AlikeOutcome origin state ρ (.error stop, e) (.error stop', e')

/-- Macros act as pure functions of the forms they are called on: whenever they are called, alike
forms give alike forms or fail alike, and the global bindings stay as they were at the start. What
else the states in which they are called have in common is left open, but objects may be made in
them. -/
structure PureMacros (ev : Evaluator) (origin : Engine) (state : Engine → Prop) : Prop where
  start : state origin
  store : ∀ {e : Engine} {store : Store}, state e → e.store.nextRef ≤ store.nextRef →
    state { e with store }
  globals : ∀ {e : Engine}, state e → e.globals = origin.globals
  macros : ∀ {e : Engine}, state e → e.macros = origin.macros
  apply : ∀ {ρ : Matching} {e e' : Engine} {s : Symbol} {c : Closure} {args args' : List Value},
    Parallel origin state ρ e e' → origin.global? s = some (.closure c) →
    origin.isMacro c = true → List.Forall₂ (Value.Alike ρ) args args' →
    AlikeOutcome origin state ρ (ev.apply c args e) (ev.apply c args' e')

variable {origin : Engine} {state : Engine → Prop} {ρ σ : Matching} {e e' : Engine}

/-- The objects that exist at the start, each corresponding to itself. -/
def Engine.existing (e : Engine) : Matching :=
  fun a b => a = b ∧ a < e.store.nextRef

theorem AlikeOutcome.mono {o o' : Except Stop Value × Engine} (hσ : ∀ a b, ρ a b → σ a b)
    (h : AlikeOutcome origin state σ o o') : AlikeOutcome origin state ρ o o' := by
  cases h with
  | ok τ hτ hpar hv => exact .ok τ (fun a b hab => hτ a b (hσ a b hab)) hpar hv
  | error => exact .error

namespace Parallel

/-- Objects that only one of the runs makes correspond to none of the other. -/
theorem withStore {ev : Evaluator} (hpure : PureMacros ev origin state)
    (h : Parallel origin state ρ e e') {store store' : Store}
    (hstore : e.store.nextRef ≤ store.nextRef) (hstore' : e'.store.nextRef ≤ store'.nextRef) :
    Parallel origin state ρ { e with store } { e' with store := store' } where
  left := hpure.store h.left hstore
  right := hpure.store h.right hstore'
  oneToOne := h.oneToOne
  made a b hab := ⟨(h.made a b hab).1.trans_le hstore, (h.made a b hab).2.trans_le hstore'⟩
  old := h.old

theorem existing {ev : Evaluator} (hpure : PureMacros ev origin state) :
    Parallel origin state origin.existing origin origin where
  left := hpure.start
  right := hpure.start
  oneToOne := by
    rintro a _ a' _ ⟨rfl, -⟩ ⟨rfl, -⟩
    exact Iff.rfl
  made := by
    rintro a _ ⟨rfl, ha⟩
    exact ⟨ha, ha⟩
  old a ha := ⟨rfl, ha⟩

end Parallel

/-! ## Expansion -/

namespace Compiler

variable {ev : Evaluator} {k : Keywords}

/-- Alike forms call the same macro on alike forms, or none. -/
theorem macroCall?_alike (hpure : PureMacros ev origin state) (h : Parallel origin state ρ e e')
    {v v' : Value} (hv : v.Alike ρ v') :
    (macroCall? k e v = none ∧ macroCall? k e' v' = none) ∨
    ∃ s c args args', origin.global? s = some (.closure c) ∧ origin.isMacro c = true ∧
      List.Forall₂ (Value.Alike ρ) args args' ∧ macroCall? k e v = some (c, args) ∧
        macroCall? k e' v' = some (c, args') := by
  -- the bindings are those of the start on both sides, and the head is the same symbol
  have hglobal : ∀ {t : Engine}, state t → ∀ s, t.global? s = origin.global? s := fun ht s => by
    rw [Engine.global?, hpure.globals ht]
    rfl
  have hmacro : ∀ {t : Engine}, state t → ∀ c, t.isMacro c = origin.isMacro c := fun ht c => by
    rw [Engine.isMacro, hpure.macros ht]
    rfl
  cases hv with
  | @list _ _ first first' others others' href hfirst hothers =>
    cases hfirst with
    | symbol s =>
      simp only [macroCall?, hglobal h.left, hglobal h.right, hmacro h.left, hmacro h.right]
      by_cases hspecial : k.isSpecial s = true
      · simp [hspecial]
      · cases hs : origin.global? s with
        | none => simp
        | some w =>
          cases w with
          | closure c =>
            by_cases hc : origin.isMacro c = true
            · exact .inr ⟨s, c, others, others', hs, hc, hothers, by simp [hspecial, hc]⟩
            · exact .inl (by simp [hc])
          | _ => simp
    | _ => exact .inl ⟨rfl, rfl⟩
  | _ => exact .inl ⟨rfl, rfl⟩

theorem expandOnce_alike (hpure : PureMacros ev origin state) (h : Parallel origin state ρ e e')
    {v v' : Value} (hv : v.Alike ρ v') :
    AlikeOutcome origin state ρ (expandOnce ev k v e) (expandOnce ev k v' e') := by
  rw [expandOnce, expandOnce, Eval.bind_of_ok (Eval.get_run e), Eval.bind_of_ok (Eval.get_run e')]
  obtain ⟨hnone, hnone'⟩ | ⟨s, c, args, args', hs, hc, hargs, hcall, hcall'⟩ :=
    macroCall?_alike hpure h hv
  · rw [hnone, hnone']
    exact .ok ρ (fun _ _ h => h) h hv
  · rw [hcall, hcall']
    exact hpure.apply h hs hc hargs

/-- Alike forms are expanded alike. -/
theorem expandWithin_alike (hpure : PureMacros ev origin state) (k : Keywords) (fuel : Nat)
    {v v' : Value} (h : Parallel origin state ρ e e') (hv : v.Alike ρ v') :
    AlikeOutcome origin state ρ (expandWithin ev k fuel v e) (expandWithin ev k fuel v' e') := by
  induction fuel generalizing v v' ρ e e' with
  | zero => exact .error
  | succ fuel ih =>
    have honce := expandOnce_alike hpure h hv (k := k)
    rw [expandWithin, expandWithin]
    -- more objects may correspond after one step, and the rest goes on with those
    generalize hx : expandOnce ev k v e = x at honce
    generalize hx' : expandOnce ev k v' e' = x' at honce
    cases honce with
    | @ok w w' t t' σ hσ hpar hw =>
      rw [Eval.bind_of_ok hx, Eval.bind_of_ok hx',
        hw.identical_eq hpar.oneToOne (hv.mono hσ)]
      -- both runs stop here, or neither does
      by_cases hsame : w'.identical v' = true
      · rw [if_pos hsame, if_pos hsame]
        exact .ok σ hσ hpar hw
      · rw [if_neg hsame, if_neg hsame]
        exact (ih hpar hw).mono hσ
    | error =>
      rw [Eval.bind_of_error hx, Eval.bind_of_error hx']
      exact .error

end Compiler

end StackLisp
