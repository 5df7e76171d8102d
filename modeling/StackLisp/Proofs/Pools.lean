import StackLisp.Proofs.Allocation
import StackLisp.Proofs.Verified

/-!
# Constant pools under construction

The constants of a function are collected while its forms are compiled, with macros running in
between. A constant that is identical to one already there is found again at its place. Macros can
give back objects that they were given, that the engine holds, or that they make, but not a
function that was compiled just now and that nobody has seen: those constants need not be found.

- `Compiler.Tidy`: a builder without a constant too many, which each construct keeps tidy;
- `ClosureOf.Pooled`: a function whose constants are distinct and in use;
- `Compiler.compileTop_allocates`: functions are compiled to such closures, and programs get hold of
  them only then.
-/

namespace StackLisp

/-- From place `n` on, no value of the pool is identical to one before it. -/
def DistinctFrom (n : Nat) (pool : Array Value) : Prop :=
  ∀ ⦃i j : Nat⦄ ⦃v w : Value⦄, i < j → n ≤ j → pool[i]? = some v → pool[j]? = some w →
    v.identical w = false

/-- The pool of a function starts with its parameters. None of the constants after them is identical
to one before it, and the code pushes each of them. -/
structure ClosureOf.Pooled (c : Closure) : Prop where
  parameters : ∀ i < c.parameters, ∃ s, c.constants[i]? = some (.symbol s)
  distinct : DistinctFrom c.parameters c.constants
  pushed : ∃ listing, c.code.Lists 1 listing c.code.size ∧
    ∀ j, c.parameters ≤ j → j < c.constants.size →
      ∃ p place, (p, .const place) ∈ listing ∧ place.toNat = j

/-- The forms of a known function literal are known. -/
theorem FunctionLiteral.known_of_ofForm {k : Keywords} {w : Objects} {form : Value}
    {literal : FunctionLiteral} (hform : form.KnownIn w) (h : ofForm k form = .ok literal) :
    ∀ v ∈ literal.body, v.KnownIn w := by
  intro v hv
  obtain ⟨ref, head, others, rfl, hshape⟩ := ofForm_eq_ok_iff.1 h
  rcases Shape.mem_of_mem_parts (Shape.ofItems_eq_ok_iff.2 hshape) hv with rfl | hmem
  · exact Value.madeOf_nil
  · exact (Value.madeOf_list_iff.1 hform).2 v hmem

namespace Compiler

open Eval

variable {ev : Evaluator} {k : Keywords} {w₀ w w' : Objects} {v : Value}

/-! ## Expansion -/

theorem macroCall?_eq_some {e : Engine} {c : Closure} {args : List Value}
    (h : macroCall? k e v = some (c, args)) :
    (∃ s, e.global? s = some (.closure c)) ∧
      ∃ ref head, v = .list ref head args := by
  unfold macroCall? at h
  split at h
  · split at h
    · cases h
    · split at h
      · next hglobal =>
        split at h
        · obtain ⟨rfl, rfl⟩ := Prod.mk.inj (Option.some.inj h)
          exact ⟨⟨_, hglobal⟩, _, _, rfl⟩
        · cases h
      · cases h
  · cases h

/-- Macros are called with known arguments. -/
theorem allocates_expandOnce (hev : ev.Allocates) (hv : v.KnownIn w) :
    (expandOnce ev k v).Allocates w KnownResult := by
  refine .reading fun e he => ?_
  cases hcall : macroCall? k e v with
  | none => exact .pure hv
  | some call =>
    obtain ⟨c, args⟩ := call
    obtain ⟨⟨s, hglobal⟩, ref, head, rfl⟩ := macroCall?_eq_some hcall
    have hitems := (Value.madeOf_list_iff.1 hv).2
    exact hev.apply (he.globals hglobal) fun arg harg => hitems arg (List.mem_cons_of_mem _ harg)

/-- The expansion of a known form is known. -/
theorem allocates_expandWithin (hev : ev.Allocates) (fuel : Nat) (hv : v.KnownIn w) :
    (expandWithin ev k fuel v).Allocates w KnownResult := by
  induction fuel generalizing v w with
  | zero => exact .throw _
  | succ fuel ih =>
    refine .bind (allocates_expandOnce hev hv) fun w₁ u _ hu => ?_
    split
    · exact .pure hu
    · exact ih hu

/-! ## Tidy builders -/

/-- A pool stays distinct if a value is added that is identical to none in it. -/
theorem distinctFrom_push {n : Nat} {pool : Array Value} (h : DistinctFrom n pool) {v : Value}
    (hnew : n ≤ pool.size → ∀ u ∈ pool, u.identity ≠ v.identity) :
    DistinctFrom n (pool.push v) := by
  intro i j u w hij hj hi hw
  have hne : ¬ i = pool.size := by
    have := (Array.getElem?_eq_some_iff.1 hw).1
    rw [Array.size_push] at this
    omega
  rw [Array.getElem?_push, if_neg hne] at hi
  rw [Array.getElem?_push] at hw
  split at hw
  · next hsize =>
    obtain rfl := Option.some.inj hw
    simpa [Value.identical] using hnew (hsize ▸ hj) u (Array.mem_of_getElem? hi)
  · exact h hij hj hi hw

/-- The builder of a function with `n` parameters has no constant too many, and `T` holds of the
functions that its code binds to an environment. The objects in its constants are known, or they
are functions that were compiled since `w₀` and that nobody knows. -/
structure Tidy (T : Closure → Prop) (n : Nat) (w₀ w : Objects) (b : Builder) : Prop where
  /-- Constants are found again, but for compiled functions, which nobody knows. -/
  found : ∀ v ∈ b.constants, v.identity ∈ b.places ∨ v ∈ w.made ∧ v ∉ w.known
  made : ∀ v ∈ b.constants, v.KnownIn (w₀.reveal w)
  distinct : DistinctFrom n b.constants
  pushed : ∀ j, n ≤ j → j < b.constants.size →
    ∃ place : UInt16, place.toNat = j ∧ .const place ∈ b.program
  literals : ∀ i, b.program[i + 1]? = some .closure →
    ∃ place c, b.program[i]? = some (.const place) ∧
      b.constants[place.toNat]? = some (.closure c) ∧ T c

section

variable {T : Closure → Prop} {n : Nat} {b b' : Builder}

/-- A function that nobody knew stays unknown. -/
theorem Tidy.mono (h : Tidy T n w₀ w b) (hle : w ≤ w') : Tidy T n w₀ w' b where
  found v hv := (h.found v hv).imp_right fun ⟨hmade, hunknown⟩ =>
    ⟨hle.made hmade, fun hknown => hunknown (hle.hidden v hmade hknown)⟩
  made v hv := Value.MadeOf.mono (h.made v hv) (Objects.reveal_known_mono hle)
  distinct := h.distinct
  pushed := h.pushed
  literals := h.literals

theorem Tidy.relabel (h : Tidy T n w₀ w b) (nextLabel : Nat) :
    Tidy T n w₀ w { b with nextLabel } :=
  ⟨h.found, h.made, h.distinct, h.pushed, h.literals⟩

/-- Any instruction may follow, other than one that binds a function. -/
theorem Tidy.emit (h : Tidy T n w₀ w b) {i : Instruction} (hi : i ≠ .closure) :
    Tidy T n w₀ w (b.emit i) where
  found := h.found
  made := h.made
  distinct := h.distinct
  pushed j hj hlt := by
    obtain ⟨place, hplace, hmem⟩ := h.pushed j hj hlt
    exact ⟨place, hplace, Array.mem_push_of_mem _ hmem⟩
  literals m hm := by
    simp only [Builder.emit, Array.getElem?_push] at hm ⊢
    split at hm
    · exact absurd (Option.some.inj hm) hi
    · obtain ⟨place, c, hconst, hrest⟩ := h.literals m hm
      have hlt := (Array.getElem?_eq_some_iff.1 hconst).1
      exact ⟨place, c, by rw [if_neg hlt.ne]; exact hconst, hrest⟩

/-- A known constant is identical only to constants that can be found. -/
theorem Tidy.identity_ne (h : Tidy T n w₀ w b) (hv : v.KnownIn w) (hnew : v.identity ∉ b.places) :
    ∀ u ∈ b.constants, u.identity ≠ v.identity := by
  intro u hu heq
  rcases h.found u hu with hfound | ⟨hmade, hunknown⟩
  · exact hnew (heq ▸ hfound)
  · have hobject : v.IsObject := (w.isObject u hmade).imp fun _ href => heq.symm.trans href
    have hknown := hv.mem hobject
    exact hunknown (w.unambiguous u hmade v (w.known_subset hknown) heq ▸ hknown)

/-- A constant may be added if the code already pushes it and if it cannot be found. -/
theorem Tidy.push (h : Tidy T n w₀ w b) (hv : v.KnownIn w)
    (hnew : n ≤ b.constants.size → v.identity ∉ b.places)
    (hpushed : n ≤ b.constants.size →
      ∃ place : UInt16, place.toNat = b.constants.size ∧ .const place ∈ b.program) :
    Tidy T n w₀ w (b.push v) where
  found u hu := by
    simp only [Builder.push, Std.HashMap.mem_insertIfNew]
    rcases Array.mem_push.1 hu with hu | rfl
    · exact (h.found u hu).imp_left .inr
    · exact .inl (.inl (by simp))
  made u hu := by
    rcases Array.mem_push.1 hu with hu | rfl
    · exact h.made u hu
    · exact Value.MadeOf.mono hv Set.subset_union_left
  distinct := distinctFrom_push h.distinct fun hsize => h.identity_ne hv (hnew hsize)
  pushed j hj hlt := by
    simp only [Builder.push, Array.size_push] at hlt ⊢
    rcases Nat.lt_succ_iff_lt_or_eq.1 hlt with hlt | rfl
    · exact h.pushed j hj hlt
    · exact hpushed hj
  literals m hm := by
    obtain ⟨place, c, hconst, hc, hT⟩ := h.literals m hm
    exact ⟨place, c, hconst, extended_push _ _ _ _ hc, hT⟩

/-- The code that pushes a constant, which is shared if it can be. -/
theorem Tidy.constant (h : Tidy T n w₀ w b) (hv : v.KnownIn w) (hb : b.constant v = .ok b') :
    Tidy T n w₀ w b' := by
  cases hi : b.places[v.identity]? with
  | some i =>
    simp only [Builder.constant, Builder.place, hi] at hb
    obtain ⟨rfl, -⟩ := pushAt_eq_ok hb
    exact h.emit (by simp)
  | none =>
    simp only [Builder.constant, Builder.place, hi] at hb
    obtain ⟨rfl, hat⟩ := pushAt_eq_ok hb
    have hemit := h.emit (i := .const b.constants.size.toUInt16) (by simp)
    refine hemit.push hv (fun _ => ?_) fun _ => ⟨_, hat, Array.mem_push_self⟩
    rwa [Std.HashMap.mem_iff_isSome_getElem?, Option.not_isSome_iff_eq_none]

/-- The closure was made between the two worlds, and nobody knows it. -/
structure Hidden (w₀ w w' : Objects) (c : Closure) : Prop where
  made : .closure c ∈ w'.made
  new : .closure c ∉ w.made
  unknown : .closure c ∉ w'.known
  fit : (Value.closure c).KnownIn (w₀.reveal w')

/-- A function that was compiled just now is identical to no constant. -/
theorem Hidden.identity_ne {c : Closure} (hc : Hidden w₀ w w' c) (hle : w ≤ w')
    (h : Tidy T n w₀ w b) : ∀ u ∈ b.constants, u.identity ≠ (Value.closure c).identity := by
  intro u hu heq
  have hmade : u ∈ w.made := (Objects.reveal w₀ w).known_subset ((h.made u hu).mem ⟨c.ref, heq⟩)
  exact hc.new (w'.unambiguous u (hle.made hmade) _ hc.made heq ▸ hmade)

/-- The code that binds a function, which is an object of its own. -/
theorem Tidy.template (h : Tidy T n w₀ w b) (hle : w ≤ w') {c : Closure} (hc : Hidden w₀ w w' c)
    (hT : T c) (hb : b.template c = .ok b') : Tidy T n w₀ w' (b'.emit .closure) := by
  unfold Builder.template at hb
  obtain ⟨rfl, hat⟩ := pushAt_eq_ok hb
  have hmono := h.mono hle
  refine ⟨?_, ?_, ?_, ?_, ?_⟩
  · intro v hv
    rcases Array.mem_push.1 hv with hv | rfl
    · exact hmono.found v hv
    · exact .inr ⟨hc.made, hc.unknown⟩
  · intro v hv
    rcases Array.mem_push.1 hv with hv | rfl
    · exact hmono.made v hv
    · exact hc.fit
  · exact distinctFrom_push h.distinct fun _ => hc.identity_ne hle h
  · intro j hj hlt
    simp only [Builder.emit, Array.size_push] at hlt ⊢
    rcases Nat.lt_succ_iff_lt_or_eq.1 hlt with hlt | rfl
    · obtain ⟨place, hplace, hmem⟩ := h.pushed j hj hlt
      exact ⟨place, hplace, Array.mem_push_of_mem _ (Array.mem_push_of_mem _ hmem)⟩
    · exact ⟨_, hat, Array.mem_push_of_mem _ Array.mem_push_self⟩
  · intro m hm
    rcases Nat.lt_or_ge (m + 1) (b.program.size + 1) with hlt | hge
    -- the function was bound before
    · simp only [Builder.emit, Array.getElem?_push, Array.size_push] at hm
      rw [if_neg (by omega)] at hm
      split at hm
      · cases hm
      · obtain ⟨place, d, hconst, hd, hTd⟩ := h.literals m hm
        refine ⟨place, d, ?_, extended_push _ _ _ _ hd, hTd⟩
        have hlt' := (Array.getElem?_eq_some_iff.1 hconst).1
        simp only [Builder.emit, Array.getElem?_push, Array.size_push]
        rw [if_neg (by omega), if_neg (by omega)]
        exact hconst
    -- the function is bound by the last instruction
    · have hlt := (Array.getElem?_eq_some_iff.1 hm).1
      simp only [Builder.emit, Array.size_push] at hlt
      obtain rfl : m = b.program.size := by omega
      refine ⟨b.constants.size.toUInt16, c, ?_, ?_, hT⟩
      · simp only [Builder.emit, Array.getElem?_push, Array.size_push]
        rw [if_neg (by omega), if_pos trivial]
      · rw [hat]
        exact Array.getElem?_push_size

/-- Parameters may be added at any place that is kept for them, also twice. -/
theorem Tidy.foldl_push {symbols : List Symbol} (h : Tidy T n w₀ w b)
    (hsize : b.constants.size + symbols.length ≤ n) :
    Tidy T n w₀ w (symbols.foldl (fun b s => b.push (.symbol s)) b) := by
  induction symbols generalizing b with
  | nil => exact h
  | cons s symbols ih =>
    rw [List.length_cons] at hsize
    refine ih (h.push (Value.madeOf_symbol s) ?_ ?_) ?_
    · omega
    · omega
    · simp only [Builder.push, Array.size_push]
      omega

/-- A builder that holds nothing but parameters is tidy. -/
theorem tidy_ofParameters (w₀ w : Objects) (symbols : List Symbol) :
    Tidy T symbols.length w₀ w (.ofParameters symbols) := by
  refine Tidy.foldl_push ⟨?_, ?_, ?_, ?_, ?_⟩ (by simp)
  · simp
  · simp
  · intro i j v w _ _ hi _
    simp at hi
  · simp
  · simp

end

/-! ## Building -/

/-- The building step keeps the builder tidy and comes to new objects by allocation only. -/
def Tidies (T : Closure → Prop) (n : Nat) (w₀ w : Objects) {α : Type} (x : Build α) : Prop :=
  ∀ b, Tidy T n w₀ w b → (x b).Allocates w fun w' r => Tidy T n w₀ w' r.2

section

variable {T : Closure → Prop} {n : Nat} {α β : Type}

theorem Tidies.bind {x : Build α} {f : α → Build β} (hx : Tidies T n w₀ w x)
    (hf : ∀ w' a, w ≤ w' → Tidies T n w₀ w' (f a)) : Tidies T n w₀ w (x >>= f) :=
  fun b hb => Allocates.bind (f := fun r : α × Builder => f r.1 r.2) (hx b hb)
    fun w' r hle hr => hf w' r.1 hle r.2 hr

theorem tidies_emit {i : Instruction} (hi : i ≠ .closure) : Tidies T n w₀ w (emit i) :=
  fun _ hb => .pure (hb.emit hi)

theorem tidies_constant (hv : v.KnownIn w) : Tidies T n w₀ w (constant v) := fun _ hb =>
  .bind (P := fun w' b' => Tidy T n w₀ w' b') (.ofExcept fun _ => hb.constant hv)
    fun _ _ _ hb' => .pure hb'

theorem tidies_label : Tidies T n w₀ w label := fun _ hb => by
  refine .ofExcept fun r hr => ?_
  unfold Builder.label at hr
  split at hr
  · cases hr
  · cases hr
    exact hb.relabel _

theorem tidies_fail (error : Error) : Tidies T n w₀ w (liftM (Eval.fail error : Eval α)) :=
  fun _ _ => Allocates.throw (.fault error)

variable {compile : Value → Build Unit}

/-- A way of compiling forms keeps builders tidy. -/
def TidiesForms (T : Closure → Prop) (w₀ : Objects) (compile : Value → Build Unit) : Prop :=
  ∀ {n : Nat} {v : Value} {w : Objects}, w₀ ≤ w → v.KnownIn w → Tidies T n w₀ w (compile v)

theorem tidies_conditional (hc : TidiesForms T w₀ compile) {test consequent alternative : Value}
    (hle : w₀ ≤ w) (htest : test.KnownIn w) (hthen : consequent.KnownIn w)
    (helse : alternative.KnownIn w) :
    Tidies T n w₀ w (compileConditional compile test consequent alternative) := by
  refine tidies_label.bind fun w₁ l h₁ => tidies_label.bind fun w₂ m h₂ => ?_
  have hle₂ := h₁.trans h₂
  refine (hc (hle.trans hle₂) (htest.mono hle₂)).bind fun w₃ _ h₃ => ?_
  refine (tidies_emit (by simp)).bind fun w₄ _ h₄ => ?_
  have hle₄ := hle₂.trans (h₃.trans h₄)
  refine (hc (hle.trans hle₄) (hthen.mono hle₄)).bind fun w₅ _ h₅ => ?_
  refine (tidies_emit (by simp)).bind fun w₆ _ h₆ => (tidies_emit (by simp)).bind fun w₇ _ h₇ => ?_
  have hle₇ := hle₄.trans (h₅.trans (h₆.trans h₇))
  exact (hc (hle.trans hle₇) (helse.mono hle₇)).bind fun _ _ _ => tidies_emit (by simp)

theorem tidies_forM (hc : TidiesForms T w₀ compile) {items : List Value} (hle : w₀ ≤ w)
    (hitems : ∀ v ∈ items, v.KnownIn w) : Tidies T n w₀ w (items.forM compile) := by
  induction items generalizing w with
  | nil => exact fun _ hb => .pure hb
  | cons v items ih =>
    rw [List.forall_mem_cons] at hitems
    exact (hc hle hitems.1).bind fun w₁ _ h₁ =>
      ih (hle.trans h₁) fun u hu => (hitems.2 u hu).mono h₁

theorem tidies_call (hc : TidiesForms T w₀ compile) {items : List Value} {argc : Nat}
    (hle : w₀ ≤ w) (hitems : ∀ v ∈ items, v.KnownIn w) :
    Tidies T n w₀ w (compileCall compile items argc) := by
  refine (tidies_forM hc hle hitems).bind fun w₁ _ _ => ?_
  split
  · exact (tidies_fail _).bind fun _ _ _ => tidies_emit (by simp)
  · exact tidies_emit (by simp)

theorem tidies_body (hc : TidiesForms T w₀ compile) {forms : List Value} {w : Objects}
    (hle : w₀ ≤ w) (hforms : ∀ v ∈ forms, v.KnownIn w) :
    Tidies T n w₀ w (compileBody compile forms) := by
  match forms with
  | [] => exact tidies_constant Value.madeOf_nil
  | [form] => exact hc hle (hforms form (by simp))
  | form :: next :: others =>
    rw [List.forall_mem_cons] at hforms
    refine (hc hle hforms.1).bind fun w₁ _ h₁ => (tidies_emit (by simp)).bind fun w₂ _ h₂ => ?_
    exact tidies_body hc (hle.trans (h₁.trans h₂)) fun v hv => (hforms.2 v hv).mono (h₁.trans h₂)

end

/-! ## Function literals -/

/-- The instructions from one place of a program on can be read off the finished code. -/
theorem lists_of_assemble (before : List Instruction) {after : List Instruction} {code : Code}
    (h : Assembly.assemble (before ++ after) = .ok code) :
    ∃ listing, code.Lists (Assembly.length before) listing code.size ∧
      ∀ place, .const place ∈ after → ∃ p, (p, .const place) ∈ listing := by
  induction after generalizing before with
  | nil =>
    rw [List.append_nil] at h
    exact ⟨[], Assembly.size_assemble h ▸ .nil, by simp⟩
  | cons i after ih =>
    have hcode : before ++ i :: after = (before ++ [i]) ++ after := by simp
    obtain ⟨listing, hlists, hmem⟩ := ih (before ++ [i]) (hcode ▸ h)
    rw [Assembly.length_append_singleton] at hlists
    -- labels take no words, so they are not listed
    by_cases hlabel : ∃ id, i = .label id
    · obtain ⟨id, rfl⟩ := hlabel
      exact ⟨listing, hlists, by simpa using hmem⟩
    · rw [not_exists] at hlabel
      obtain ⟨j, hj, hdecode⟩ := Assembly.decode_assemble h hlabel
      have hwidth : j.width = i.size := by
        rw [← Instruction.length_words, Assembly.size_of_settled hlabel hj]
      refine ⟨(Assembly.length before, j) :: listing, .cons hdecode (hwidth ▸ hlists), ?_⟩
      intro place hplace
      rcases List.mem_cons.1 hplace with rfl | hplace
      · obtain rfl := Except.ok.inj hj
        exact ⟨_, List.mem_cons_self⟩
      · obtain ⟨p, hp⟩ := hmem place hplace
        exact ⟨p, List.mem_cons_of_mem _ hp⟩

/-- What holds of the functions that a program binds holds of those in its terms. -/
theorem all_of_emits {pool : Array Value} {terms : List Term} {program : List Instruction}
    {G : Value → Prop} {T U : Closure → Prop} (h : Emits pool terms program)
    (hall : ∀ t ∈ terms, t.All G T)
    (hU : ∀ place c, [.const place, .closure] <:+: program →
      pool[place.toNat]? = some (.closure c) → U c) : ∀ t ∈ terms, t.All G U := by
  -- the induction is on the emitted code: a pair inside a part of it is inside the whole
  have hpart : ∀ {part whole : List Instruction}, part <:+: whole →
      (∀ place c, [.const place, .closure] <:+: whole →
        pool[place.toNat]? = some (.closure c) → U c) →
      ∀ place c, [.const place, .closure] <:+: part →
        pool[place.toNat]? = some (.closure c) → U c :=
    fun hinfix hU place c hpair => hU place c (hpair.trans hinfix)
  induction h with
  | nil => simp
  | @constant i _ _ _ _ _ ih =>
    rw [List.forall_mem_cons] at hall ⊢
    cases hall.1 with
    | constant hv => exact ⟨.constant hv, ih hall.2 (hpart ⟨[.const i], [], by simp⟩ hU)⟩
  | @lookup i _ _ _ _ _ ih =>
    rw [List.forall_mem_cons] at hall ⊢
    exact ⟨.lookup, ih hall.2 (hpart ⟨[.const i, .load], [], by simp⟩ hU)⟩
  | @conditional _ _ _ _ otherwise done a b c after _ _ _ _ iha ihb ihc ih =>
    rw [List.forall_mem_cons] at hall ⊢
    cases hall.1 with
    | conditional ht hc he =>
      have ht' := iha (by simpa using ht) (hpart (List.prefix_append a _).isInfix hU)
      have hc' := ihb (by simpa using hc) (hpart ⟨a ++ [.jumpIfNot otherwise],
        .jump done :: .label otherwise :: (c ++ .label done :: after), by simp⟩ hU)
      have he' := ihc (by simpa using he) (hpart ⟨a ++ .jumpIfNot otherwise ::
        (b ++ [.jump done, .label otherwise]), .label done :: after, by simp⟩ hU)
      have hrest := ih hall.2 (hpart ⟨a ++ .jumpIfNot otherwise :: (b ++ .jump done ::
        .label otherwise :: (c ++ [.label done])), [], by simp⟩ hU)
      exact ⟨.conditional (ht' _ List.mem_cons_self) (hc' _ List.mem_cons_self)
        (he' _ List.mem_cons_self), hrest⟩
  | @assignment i way _ _ _ a after _ _ _ iha ih =>
    rw [List.forall_mem_cons] at hall ⊢
    cases hall.1 with
    | assignment hv =>
      have hv' := iha (by simpa using hv)
        (hpart ⟨[.const i], way.instruction :: after, by simp⟩ hU)
      have hrest := ih hall.2 (hpart ⟨.const i :: (a ++ [way.instruction]), [], by simp⟩ hU)
      exact ⟨.assignment (hv' _ List.mem_cons_self), hrest⟩
  | @function i d _ after hd _ ih =>
    rw [List.forall_mem_cons] at hall ⊢
    cases hall.1 with
    | function henv _ =>
      exact ⟨.function henv (hU i d ⟨[], after, by simp⟩ hd),
        ih hall.2 (hpart ⟨[.const i, .closure], [], by simp⟩ hU)⟩
  | @call n _ _ _ a _ _ _ _ iha ih =>
    rw [List.forall_mem_cons] at hall ⊢
    cases hall.1 with
    | call hf hargs =>
      have hitems := iha (List.forall_mem_cons.2 ⟨hf, hargs⟩)
        (hpart (List.prefix_append a _).isInfix hU)
      rw [List.forall_mem_cons] at hitems
      exact ⟨.call hitems.1 hitems.2, ih hall.2 (hpart ⟨a ++ [.call n], [], by simp⟩ hU)⟩

/-- The same for the code of a body. -/
theorem all_of_emitsBody {pool : Array Value} {body : List Term} {program : List Instruction}
    {G : Value → Prop} {T U : Closure → Prop} (h : EmitsBody pool body program)
    (hall : ∀ t ∈ body, t.All G T)
    (hU : ∀ place c, [.const place, .closure] <:+: program →
      pool[place.toNat]? = some (.closure c) → U c) : ∀ t ∈ body, t.All G U := by
  induction h with
  | last ha =>
    exact all_of_emits ha hall fun place c hpair =>
      hU place c (hpair.trans (List.prefix_append _ _).isInfix)
  | @cons t rest a b ha _ ih =>
    rw [List.forall_mem_cons] at hall ⊢
    have ht := all_of_emits ha (by simpa using hall.1) fun place c hpair =>
      hU place c (hpair.trans (List.prefix_append _ _).isInfix)
    exact ⟨ht t List.mem_cons_self, ih hall.2 fun place c hpair =>
      hU place c (hpair.trans ⟨a ++ [.pop], [], by simp⟩)⟩

variable {b : Builder} {c : Closure} {body : List Term} {G : Value → Prop} {T U : Closure → Prop}
  {n : Nat}

theorem Tidy.all (h : Tidy U n w₀ w b) (hemits : EmitsBody b.constants body b.program.toList)
    (hall : ∀ t ∈ body, t.All G T) : ∀ t ∈ body, t.All G U := by
  refine all_of_emitsBody hemits hall fun place d ⟨before, after, heq⟩ hd => ?_
  have hat : ∀ i : Nat, b.program[i]? = (before ++ [.const place, .closure] ++ after)[i]? := by
    simp [heq]
  obtain ⟨place', d', hconst, hd', hU⟩ := h.literals before.length (by simp [hat])
  obtain rfl : place = place' := by simpa [hat] using hconst
  rw [hd, Option.some.injEq, Value.closure.injEq] at hd'
  exact hd' ▸ hU

/-- The pool of the function, and those of the functions inside it, are in order. -/
def PooledWithin (c : Closure) : Prop :=
  ∀ d : Closure, d.Within c → d.Pooled

/-- A function that was built tidily has a pool in order. -/
theorem Tidy.pooled (h : Tidy PooledWithin n w₀ w b) (hn : n = c.parameters)
    (hpool : c.constants = b.constants)
    (hcode : Assembly.assemble b.program.toList = .ok c.code) (hc : c.Implements body)
    (hall : ∀ t ∈ body, t.All G PooledWithin) : PooledWithin c := by
  subst hn
  intro d hd
  cases hd with
  | refl =>
    refine ⟨hc.parameters, hpool ▸ h.distinct, ?_⟩
    obtain ⟨listing, hlists, hmem⟩ := lists_of_assemble [] hcode
    refine ⟨listing, hlists, fun j hj hlt => ?_⟩
    obtain ⟨place, hplace, hprogram⟩ := h.pushed j hj (hpool ▸ hlt)
    obtain ⟨p, hp⟩ := hmem place (Array.mem_toList_iff.2 hprogram)
    exact ⟨p, place, hp, hplace⟩
  | literal hwithin hlists hp hclosure hv => exact hc.template hall hlists hp hclosure hv d hwithin

variable {compile : Value → Build Unit}

/-- A function literal is compiled to an object that nobody knows, with pools in order. -/
theorem compileLiteral_hidden (hc : Compiles (.lax ev k) compile)
    (ht : TidiesForms PooledWithin w₀ compile) {literal : FunctionLiteral}
    (hcomplete : literal.Complete) (hle : w₀ ≤ w) (hbody : ∀ v ∈ literal.body, v.KnownIn w) :
    (compileLiteral compile literal).Allocates w fun w' c =>
      Hidden w₀ w w' c ∧ PooledWithin c := by
  let symbols := literal.parameters.symbols
  have htidied : Tidies PooledWithin symbols.length w₀ w
      (do compileBody compile literal.body; emit .ret : Build Unit) :=
    (tidies_body ht hle hbody).bind fun _ _ _ => tidies_emit (by simp)
  -- what was built is tidy, and it is the program of some body
  refine .bind (P := fun w' r => Tidy PooledWithin symbols.length w₀ w' r.2 ∧
      (∀ (i : Nat) (s : Symbol), symbols[i]? = some s → r.2.constants[i]? = some (.symbol s)) ∧
      ∃ body w'', EmitsBody r.2.constants body r.2.program.toList ∧
        (labelIds r.2.program.toList).Nodup ∧ Fit (.lax ev k) w'' body)
    ((htidied _ (tidy_ofParameters w₀ w symbols)).strengthen fun e e' w' r hrun _ htidy => ?_)
    fun w₁ r h₁ hr => ?_
  · obtain ⟨hparameters, body, w'', -, -, -, hemits, hids, hfit⟩ :=
      compileBody_program (w := ()) hc trivial (fun _ _ => trivial) hrun
    exact ⟨htidy, hparameters, body, w'', hemits, hids, hfit⟩
  obtain ⟨htidy, hparameters, body, w'', hemits, hids, hfit⟩ := hr
  refine .bind (P := fun _ code => Assembly.assemble r.2.program.toList = .ok code)
    (.ofExcept fun _ h => h) fun w₂ code h₂ hcode => ?_
  -- the template is the last object that is made
  refine .bind (P := fun w' ref => Hidden w₀ w w' (templateOf literal ref code r.2.constants))
    (.onStore fun s hs => ?_) fun w₃ ref _ hhidden => .pure ⟨hhidden, ?_⟩
  · obtain ⟨w', hle', hbelow, hmade, hknown⟩ :=
      hs.hide (v := .closure (templateOf literal s.nextRef code r.2.constants)) rfl
    have hfresh := fun hmem => hs.new (v := .closure
      (templateOf literal s.nextRef code r.2.constants)) rfl _ hmem rfl
    have hnew := fun hmem => hfresh ((h₁.trans h₂).made hmem)
    have hin : Value.closure (templateOf literal s.nextRef code r.2.constants) ∈ w'.made :=
      hmade ▸ Set.mem_insert _ _
    refine ⟨w', hle', hbelow, hin, hnew, fun hmem => hfresh (w₂.known_subset (hknown ▸ hmem)), ?_⟩
    refine Value.madeOf_closure_iff.2 ⟨.inr ⟨hin, fun hmem => hnew (hle.made hmem)⟩, fun v hv => ?_⟩
    exact (htidy.mono (h₂.trans hle')).made v hv
  · refine htidy.pooled hcomplete rfl hcode ⟨⟨_, hcode, hemits, hids⟩, fun i hi => ?_⟩
      (htidy.all hemits hfit)
    have hlt : i < symbols.length := hcomplete ▸ hi
    exact ⟨_, hparameters i _ (List.getElem?_eq_getElem hlt)⟩

/-- A function literal adds its template. -/
theorem tidies_function (hc : Compiles (.lax ev k) compile)
    (ht : TidiesForms PooledWithin w₀ compile) {literal : FunctionLiteral}
    (hcomplete : literal.Complete) (hle : w₀ ≤ w) (hbody : ∀ v ∈ literal.body, v.KnownIn w) :
    Tidies PooledWithin n w₀ w (compileShape compile (.function literal)) := by
  intro b hb
  rw [compileShape, Build.lift_bind]
  refine .bind (compileLiteral_hidden hc ht hcomplete hle hbody) fun w₁ c h₁ hhidden => ?_
  exact .bind (P := fun w' r => Tidy PooledWithin n w₀ w' (r.2.emit .closure))
    (.bind (P := fun w' b' => Tidy PooledWithin n w₀ w' (b'.emit .closure))
      (.ofExcept fun _ => hb.template h₁ hhidden.1 hhidden.2) fun _ _ _ h => .pure h)
    fun _ _ _ h => .pure h

/-! ## Forms -/

theorem tidies_shape (hc : Compiles (.lax ev k) compile)
    (ht : TidiesForms PooledWithin w₀ compile) {ref : Ref} {head : Value} {others : List Value}
    {shape : Shape} (hshape : Shape.ofItems k head others = .ok shape) (hle : w₀ ≤ w)
    (hform : (Value.list ref head others).KnownIn w) :
    Tidies PooledWithin n w₀ w (compileShape compile shape) := by
  have hitems := (Value.madeOf_list_iff.1 hform).2
  have hparts : ∀ part ∈ shape.parts, part.KnownIn w := by
    intro part hpart
    rcases Shape.mem_of_mem_parts hshape hpart with rfl | hmem
    · exact Value.madeOf_nil
    · exact hitems part hmem
  match shape with
  | .function literal =>
    exact tidies_function hc ht (Shape.complete_of_ofItems hshape) hle hparts
  | .quotation v =>
    exact tidies_constant (hitems v (List.mem_cons_of_mem _ (Shape.mem_of_quotation hshape)))
  | .conditional test consequent alternative =>
    simp only [Shape.parts, List.forall_mem_cons] at hparts
    exact tidies_conditional ht hle hparts.1 hparts.2.1 hparts.2.2.1
  | .assignment way target value =>
    refine (tidies_constant (Value.madeOf_symbol target)).bind fun w₁ _ h₁ => ?_
    refine (ht (hle.trans h₁) ((hparts value (by simp [Shape.parts])).mono h₁)).bind fun _ _ _ => ?_
    exact tidies_emit (by cases way <;> simp [Assignment.instruction])
  | .call callee args => exact tidies_call ht hle hparts

/-- Compiling forms keeps builders tidy. -/
theorem tidies_form (hev : ev.Allocates) (limit room : Nat) :
    TidiesForms PooledWithin w₀ (compileForm ev k limit room) := by
  induction room with
  | zero => exact fun _ _ => tidies_fail _
  | succ room ih =>
    intro n v w hle hv b hb
    rw [compileForm, Build.lift_bind]
    refine .bind (allocates_expandWithin hev ev.fuel hv) fun w₁ u h₁ hu => ?_
    have hb₁ := hb.mono h₁
    have hle₁ := hle.trans h₁
    cases u with
    | list ref head others =>
      dsimp only
      rw [Build.lift_bind]
      exact .bind (P := fun _ shape => Shape.ofItems k head others = .ok shape)
        (.ofExcept fun _ h => h) fun w₂ shape h₂ hshape =>
          tidies_shape (compileForm_added _ _) ih hshape (hle₁.trans h₂) (hu.mono h₂) b
            (hb₁.mono h₂)
    | symbol s =>
      exact (tidies_constant hu).bind (fun _ _ _ => tidies_emit (by simp)) b hb₁
    | _ => exact tidies_constant hu b hb₁

/-- A function that is compiled has pools in order, and programs get hold of it then. -/
theorem compileTop_allocates (hev : ev.Allocates) {literal : FunctionLiteral}
    (hcomplete : literal.Complete) (hbody : ∀ v ∈ literal.body, v.KnownIn w) :
    (compileTop ev k literal).Allocates w fun w' c =>
      (Value.closure c).KnownIn w' ∧ PooledWithin c := by
  refine .reading fun e _ => ?_
  refine (compileLiteral_hidden (compileForm_added _ _) (tidies_form hev _ _) hcomplete le_rfl
    hbody).reveal fun w' c _ hc => ⟨hc.1.fit, hc.2⟩

theorem allocates_keywords (w : Objects) :
    (Eval.onStore Keywords.intern).Allocates w AnyOutcome :=
  .onStore fun s hs => ⟨w, le_rfl, by rwa [Keywords.nextRef_intern], trivial⟩

/-- A form that is compiled as the body of a function. -/
theorem compileThunk_allocates (hev : ev.Allocates) (hv : v.KnownIn w) :
    (compileThunk ev v).Allocates w fun w' c => (Value.closure c).KnownIn w' ∧ PooledWithin c := by
  refine .bind (allocates_keywords w) fun w₁ k h₁ _ => compileTop_allocates hev rfl fun u hu => ?_
  obtain rfl := List.mem_singleton.1 hu
  exact hv.mono h₁

/-- A form that is compiled as a function literal. -/
theorem compileFunction_allocates (hev : ev.Allocates) (hv : v.KnownIn w) :
    (compileFunction ev v).Allocates w fun w' c =>
      (Value.closure c).KnownIn w' ∧ PooledWithin c := by
  refine .bind (allocates_keywords w) fun w₁ k h₁ _ => ?_
  refine .bind (P := fun _ literal => FunctionLiteral.ofForm k v = .ok literal)
    (.ofExcept fun _ h => h) fun w₂ literal h₂ hread => ?_
  exact compileTop_allocates hev (FunctionLiteral.complete_of_ofForm hread)
    (FunctionLiteral.known_of_ofForm (hv.mono (h₁.trans h₂)) hread)

end Compiler

end StackLisp
