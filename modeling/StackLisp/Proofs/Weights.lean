import StackLisp.Proofs.MacroCalls

/-!
# Room for the code of expressions

An expression has a weight, and if it is not too heavy, then the compiler has room for its code: no
limit of the compiler is exhausted.

- `Builder.HasRoom`: what is left for a function under construction;
- `Compiler.Takes`: a computation adds code, and takes no more room than it is said to;
- `Engine.Loaded.takes_written`: a written expression takes no more room than its weight.
-/

namespace StackLisp

/-! ## Room -/

/-- There is room for `m` more instructions, labels and constants. -/
structure Builder.HasRoom (m : Nat) (b : Builder) : Prop where
  words : Assembly.extent b.program.toList + 2 * m ≤ 65534
  labels : b.nextLabel + m ≤ 65535
  constants : ∃ pool, b.Holds pool ∧ pool.length + m ≤ 65536

theorem Builder.HasRoom.mono {m n : Nat} {b : Builder} (h : b.HasRoom n) (hmn : m ≤ n) :
    b.HasRoom m where
  words := by
    have := h.words
    omega
  labels := (Nat.add_le_add_left hmn _).trans h.labels
  constants := by
    obtain ⟨pool, hholds, hlength⟩ := h.constants
    exact ⟨pool, hholds, (Nat.add_le_add_left hmn _).trans hlength⟩

namespace Key

theorem length_foldl_grow_le (pool keys : List Key) :
    (keys.foldl grow pool).length ≤ pool.length + keys.length := by
  induction keys generalizing pool with
  | nil => exact le_rfl
  | cons key keys ih =>
    have := ih (grow pool key)
    have := length_grow_le pool key
    simp only [List.foldl_cons, List.length_cons]
    omega

end Key

namespace Compiler

/-- On engines of which `S` holds, the computation adds code and takes room for `m` at most. -/
def Takes (S : Engine → Prop) (m : Nat) (x : Build Unit) : Prop :=
  ∀ ⦃b : Builder⦄ ⦃e : Engine⦄ (left : Nat), S e → b.HasRoom (m + left) →
    ∃ b' e', x b e = (.ok ((), b'), e') ∧ S e' ∧ b'.HasRoom left

variable {S : Engine → Prop} {m n : Nat} {x y : Build Unit} {compile : Value → Build Unit}

theorem Takes.mono (h : Takes S m x) (hmn : m ≤ n) : Takes S n x :=
  fun _ _ left he hb => h left he (hb.mono (Nat.add_le_add_right hmn left))

theorem Takes.bind (hx : Takes S m x) (hy : Takes S n y) : Takes S (m + n) (x >>= fun _ => y) := by
  intro b e left he hb
  rw [Nat.add_assoc] at hb
  obtain ⟨b₁, e₁, hrun, he₁, hb₁⟩ := hx (n + left) he hb
  rw [Build.bind_of_ok hrun]
  exact hy left he₁ hb₁

/-- A small demand is met. -/
theorem takes_of_settles {d : Demand} (h : d.Settles S x) (hwords : d.words ≤ 2 * m)
    (hlabels : d.labels ≤ m) (hkeys : d.keys.length ≤ m) (hfits : d.fits) : Takes S m x := by
  intro b e left he hb
  obtain ⟨pool, hholds, hlength⟩ := hb.constants
  have hextent := hb.words
  have hnext := hb.labels
  obtain ⟨b', e', hrun, he', hmet⟩ | ⟨limit, e', -, hnot⟩ := h he hholds
  · refine ⟨b', e', hrun, he', ?_, ?_, _, hmet.holds, ?_⟩
    · rw [hmet.words]
      omega
    · rw [hmet.labels]
      omega
    · have := Key.length_foldl_grow_le pool d.keys
      omega
  · exact absurd ⟨by omega, by omega, indexable_of_length_le (by omega), hfits⟩ hnot

theorem takes_constant (v : Value) : Takes S 1 (constant v) :=
  takes_of_settles (Demand.settles_constant v) le_rfl (Nat.zero_le _) le_rfl trivial

theorem takes_emit (i : Instruction) : Takes S 1 (emit i) := by
  have hsize : i.size ≤ 2 := by
    cases i <;> simp [Instruction.size, Instruction.width, Instruction.opcode, Opcode.operands]
  exact takes_of_settles (Demand.settles_emit i i.size rfl) hsize (Nat.zero_le _) (Nat.zero_le _)
    trivial

theorem takes_template (c : Closure) : Takes S 1 (template c) :=
  takes_of_settles (Demand.settles_template c) le_rfl (Nat.zero_le _) le_rfl trivial

theorem takes_label {y : UInt16 → Build Unit} (hy : ∀ l, Takes S m (y l)) :
    Takes S (m + 1) (label >>= y) := by
  intro b e left he hb
  have hnext := hb.labels
  obtain ⟨pool, hholds, hlength⟩ := hb.constants
  have hwords := hb.words
  rw [Build.bind_of_ok (label_of_lt (by omega) e)]
  exact hy _ left he ⟨by simpa using by omega, by simpa using by omega,
    pool, ⟨hholds.size, hholds.places⟩, by omega⟩

/-! ## Constructs -/

theorem takes_conditional {test consequent alternative : Value} {t c a : Nat}
    (ht : Takes S t (compile test)) (hc : Takes S c (compile consequent))
    (ha : Takes S a (compile alternative)) :
    Takes S (t + c + a + 6) (compileConditional compile test consequent alternative) := by
  have hparts (otherwise done : UInt16) :=
    ht.bind ((takes_emit (.jumpIfNot otherwise)).bind
      (hc.bind ((takes_emit (.jump done)).bind
        ((takes_emit (.label otherwise)).bind
          (ha.bind (takes_emit (.label done)))))))
  exact (takes_label fun otherwise => takes_label (hparts otherwise)).mono (by omega)

theorem takes_assignment {way : Assignment} {target : Symbol} {value : Value}
    (h : Takes S m (compile value)) :
    Takes S (m + 2) (compileShape compile (.assignment way target value)) := by
  exact ((takes_constant (.symbol target)).bind (h.bind (takes_emit way.instruction))).mono
    (by omega)

theorem takes_forM {items : List Value} {ms : List Nat}
    (h : List.Forall₂ (fun v m => Takes S m (compile v)) items ms) :
    Takes S ms.sum (items.forM compile) := by
  induction h with
  | nil => exact fun b e left he hb => ⟨b, e, rfl, he, by simpa using hb⟩
  | cons hv _ ih => exact (hv.bind ih).mono (by simp)

theorem takes_call {callee : Value} {args : List Value} {ms : List Nat}
    (hlength : args.length ≤ 65535)
    (h : List.Forall₂ (fun v m => Takes S m (compile v)) (callee :: args) ms) :
    Takes S (ms.sum + 1) (compileCall compile (callee :: args) args.length) := by
  have hcall : compileCall compile (callee :: args) args.length = (do
      (callee :: args).forM compile
      emit (.call args.length.toUInt16)) := by
    rw [compileCall]
    simp only [if_neg (Nat.not_lt.2 hlength)]
  rw [hcall]
  exact (takes_forM h).bind (takes_emit _)

/-- A function literal has a builder of its own. -/
theorem exists_compileLiteral {ev : Evaluator} {k : Keywords} {literal : FunctionLiteral}
    {e : Engine} (hfresh : ∀ {e}, S e → S { e with store := e.store.fresh.2 }) (he : S e)
    (hc : Compiles (.lax ev k) compile) (hbody : Takes S m (compileBody compile literal.body))
    (hsmall : literal.parameters.symbols.length + m ≤ 30000) :
    ∃ c e', compileLiteral compile literal e = (.ok c, e') ∧ S e' := by
  -- the builder holds the parameters at first
  have hroom : (Builder.ofParameters literal.parameters.symbols).HasRoom (m + 1 + 0) := by
    refine ⟨?_, ?_, _, .ofParameters literal.parameters, ?_⟩
    · rw [program_ofParameters, Assembly.extent_nil]
      omega
    · rw [nextLabel_ofParameters]
      omega
    · rw [Key.ofParameters, List.length_map]
      omega
  obtain ⟨b, e₁, hrun, he₁, hb⟩ := (hbody.bind (takes_emit .ret)) 0 he hroom
  have hliteral := compileLiteral_run hrun
  have hlength : Assembly.length b.program.toList ≤ 65535 := by
    have := hb.words
    rw [Assembly.length_eq]
    omega
  obtain ⟨code, hcode⟩ := exists_code_of_body hc hrun hlength
  rw [hcode] at hliteral
  exact ⟨_, _, hliteral, hfresh he₁⟩

theorem takes_function {ev : Evaluator} {k : Keywords} {literal : FunctionLiteral}
    (hfresh : ∀ {e}, S e → S { e with store := e.store.fresh.2 })
    (hc : Compiles (.lax ev k) compile) (hbody : Takes S m (compileBody compile literal.body))
    (hsmall : literal.parameters.symbols.length + m ≤ 30000) :
    Takes S 2 (compileShape compile (.function literal)) := by
  intro b e left he hb
  obtain ⟨c, e₁, hrun, he₁⟩ := exists_compileLiteral hfresh he hc hbody hsmall
  rw [compileShape_function_of_ok hrun]
  exact ((takes_template c).bind (takes_emit .closure)) left he₁ hb

/-- A list takes the room of what it means. -/
theorem takes_list {k : Keywords} {ref : Ref} {head : Value} {others : List Value}
    {shape : Shape} (hshape : Shape.ofItems k head others = .ok shape)
    (h : Takes S m (compileShape compile shape)) :
    Takes S m (compileExpanded compile k (.list ref head others)) := by
  intro b e left he hb
  rw [compileExpanded_list (Shape.ofItems_eq_ok_iff.1 hshape)]
  exact h left he hb

end Compiler

/-! ## Weights -/

namespace Expression

mutual

/-- How much room the code of an expression takes at most, and how deep its parts nest at most. -/
def weight : Expression → Nat
  | .constant _ | .string _ | .symbol _ => 1
  | .lookup _ => 2
  | .conditional test consequent alternative =>
    test.weight + consequent.weight + alternative.weight + 6
  | .call callee args => callee.weight + weightAll args + 1
  | .function _ signature body => signature.names.length + body.weight + 2
  | .define _ value => value.weight + 2
  | .binding _ value body => body.weight + value.weight + 4
  | .declare _ _ signature body => signature.names.length + body.weight + 7

/-- The weight of expressions together. -/
def weightAll : List Expression → Nat
  | [] => 0
  | x :: xs => x.weight + weightAll xs

end

theorem weightAll_eq_sum (xs : List Expression) : weightAll xs = (xs.map weight).sum := by
  induction xs with
  | nil => rfl
  | cons x xs ih => rw [weightAll, ih, List.map_cons, List.sum_cons]

theorem weight_le_weightAll {x : Expression} {xs : List Expression} (h : x ∈ xs) :
    x.weight ≤ weightAll xs := by
  rw [weightAll_eq_sum]
  exact List.le_sum_of_mem (List.mem_map_of_mem h)

theorem weight_pos (x : Expression) : 0 < x.weight := by
  cases x <;> simp only [weight] <;> omega

theorem length_le_weightAll (xs : List Expression) : xs.length ≤ weightAll xs := by
  induction xs with
  | nil => exact le_rfl
  | cons x xs ih =>
    have := weight_pos x
    rw [weightAll, List.length_cons]
    omega

theorem weight_core_le (x : Expression) : x.core.weight ≤ x.weight := by
  cases x with
  | binding name value body =>
    simp only [core, weight, weightAll, Signature.names, Option.toList_none, List.append_nil,
      List.length_singleton]
    omega
  | declare isMacro name signature body =>
    cases isMacro <;> simp only [core, weight, weightAll] <;> omega
  | _ => exact le_rfl

end Expression

/-! ## Compiling written expressions -/

/-- Written arguments take as much room as they do one by one. -/
theorem Compiler.takes_all {S : Engine → Prop} {compile : Value → Build Unit} {table : SymbolTable}
    {xs : List Expression} {vs : List Value}
    (hvs : List.Forall₂ (Value.Written texts table) vs (Expression.phrases xs))
    (htakes : ∀ x ∈ xs, ∀ v : Value, v.Written texts table x.phrase →
      Takes S x.weight (compile v)) :
    List.Forall₂ (fun v m => Takes S m (compile v)) vs (xs.map Expression.weight) := by
  induction xs generalizing vs with
  | nil =>
    cases hvs
    exact .nil
  | cons x xs ih =>
    rw [List.forall_mem_cons] at htakes
    cases hvs with
    | cons hv hvs => exact .cons (htakes.1 _ hv) (ih hvs htakes.2)

/-- The engine gained something since, and no code is running. -/
def Engine.Since (e₀ e : Engine) : Prop :=
  e₀.Gains e ∧ e.Idle

theorem Engine.Since.fresh {e₀ e : Engine} (he : e₀.Since e) :
    e₀.Since { e with store := e.store.fresh.2 } :=
  ⟨he.1.trans (.object e), he.2.sp, he.2.frame, he.2.depth⟩

namespace Engine.Loaded

open Compiler Expression

variable {n : Nat} {e₀ : Engine} {k : Keywords} {texts : Ref → Option String}
  (h : e₀.Loaded n) (hk : k.Canonical e₀.store.symbols)
  (htexts : ∀ ref text, texts ref = some text → ref < e₀.store.nextRef)

include h hk htexts

omit h htexts in
/-- An expression whose outermost macro was applied takes no more room than its weight when its
parts do. -/
theorem takes_expanded (hn : e₀.store.symbols.Named) {compile : Value → Build Unit}
    {ev : Evaluator} (hcompiles : Compiles (.lax ev k) compile) {x : Expression}
    (hx : x.wellNamed (Vocabulary.macros n) = true) (hcore : x.core = x) {w : Value}
    (hw : w.Written texts e₀.store.symbols x.phrase) (hsmall : x.weight ≤ 30000)
    (hparts : ∀ {y : Expression} {v : Value}, y.wellNamed (Vocabulary.macros n) = true →
      v.Written texts e₀.store.symbols y.phrase → y.weight < x.weight →
      Takes e₀.Since y.weight (compile v)) :
    Takes e₀.Since x.weight (compileExpanded compile k w) := by
  cases x with
  | constant text =>
    -- literals are atoms; no literal is spelled like a name
    have hatom : w.IsAtom ∧ w.symbol? = none := by
      cases hw with
      | literal hv =>
        rcases literal?_cases hv with rfl | ⟨_, rfl⟩ | ⟨_, rfl⟩ <;> exact ⟨trivial, rfl⟩
      | symbol hname => simp [isName, Option.isSome_iff_ne_none.1 hx] at hname
    rw [compileExpanded_atom hatom.1 hatom.2]
    exact takes_constant w
  | string text =>
    cases hw
    exact takes_constant _
  | symbol name =>
    obtain ⟨ref, head, others, rfl⟩ : ∃ ref head others, w = .list ref head others := by
      cases hw
      exact ⟨_, _, _, rfl⟩
    obtain ⟨s, -, hshape⟩ := shape_symbol hk hn hx hw
    exact takes_list hshape (takes_constant _)
  | lookup name =>
    obtain ⟨s, rfl, -⟩ := hw.of_isName hx
    exact (takes_constant (.symbol s)).bind (takes_emit .load)
  | conditional test consequent alternative =>
    obtain ⟨⟨htest, hconsequent⟩, halternative⟩ := by
      simpa only [wellNamed, Bool.and_eq_true] using hx
    obtain ⟨ref, head, others, rfl, -⟩ := hw.of_list
    obtain ⟨t, c, a, ht, hc, ha, hshape⟩ := shape_conditional hk hn hw
    simp only [weight] at hparts
    exact takes_list hshape (takes_conditional (hparts htest ht (by omega))
      (hparts hconsequent hc (by omega)) (hparts halternative ha (by omega)))
  | call callee args =>
    obtain ⟨⟨hcallee, hname⟩, hargs⟩ := by simpa only [wellNamed, Bool.and_eq_true] using hx
    obtain ⟨ref, head, others, rfl, -⟩ := hw.of_list
    obtain ⟨hhead, hothers, hshape⟩ := shape_call hk hn hcallee hname hw
    simp only [weight] at hparts hsmall
    -- arguments are few enough to be counted, as each weighs something
    have hlength : others.length ≤ weightAll args := by
      rw [hothers.length_eq, phrases_eq_map, List.length_map]
      exact length_le_weightAll args
    have hitems := takes_all (.cons hhead hothers) fun y (hy : y ∈ callee :: args) v hv => by
      have hle := weight_le_weightAll hy
      rw [weightAll] at hle
      refine hparts ?_ hv (by omega)
      rcases List.mem_cons.1 hy with rfl | hy
      · exact hname
      · exact allWellNamed_iff.1 hargs y hy
    refine (takes_list hshape (takes_call (by omega) hitems)).mono ?_
    rw [← weightAll_eq_sum, weightAll, weight]
  | function name signature body =>
    obtain ⟨⟨hname, hsignature⟩, hbody⟩ := by simpa only [wellNamed, Bool.and_eq_true] using hx
    obtain ⟨ref, head, others, rfl, -⟩ := hw.of_list
    obtain ⟨literal, v, hshape, hv, hwritten, -, -, hsymbols⟩ :=
      shape_function hk hn hname hsignature hw
    simp only [weight] at hparts hsmall
    -- the body has a builder of its own, with the parameters in it from the start
    have hbody : Takes e₀.Since body.weight (compileBody compile literal.body) := by
      rw [hv]
      exact hparts hbody hwritten (by omega)
    have hsmall : literal.parameters.symbols.length + body.weight ≤ 30000 := by
      rw [← hsymbols.length_eq]
      omega
    refine (takes_list hshape (takes_function Since.fresh hcompiles hbody hsmall)).mono ?_
    rw [weight]
    omega
  | define name value =>
    obtain ⟨hname, hvalue⟩ := by simpa only [wellNamed, Bool.and_eq_true] using hx
    obtain ⟨ref, head, others, rfl, -⟩ := hw.of_list
    obtain ⟨s, v, -, hv, hshape⟩ := shape_define hk hn hname hw
    simp only [weight] at hparts
    exact takes_list hshape (takes_assignment (hparts hvalue hv (by omega)))
  | binding => cases hcore
  | declare isMacro => cases isMacro <;> cases hcore

/-- A written expression takes no more room than its weight. -/
theorem takes_written {fuel : Nat} (henough : Enough fuel e₀.limits) (limit : Nat) {room : Nat}
    {x : Expression} (hx : x.wellNamed (Vocabulary.macros n) = true) {v : Value}
    (hv : v.Written texts e₀.store.symbols x.phrase) (hroom : x.weight ≤ room)
    (hsmall : x.weight ≤ 30000) :
    Takes e₀.Since x.weight (compileForm (Machine.evaluator fuel) k limit room v) := by
  -- on the room, which the compiler counts down once for each form that it goes into
  induction room generalizing x v with
  | zero => exact absurd (weight_pos x) (by omega)
  | succ room ih =>
    intro b e left he hb
    obtain ⟨w, e₁, hrun, hw, hgains, hidle⟩ | ⟨hnot, -⟩ :=
      h.delivers_expandWithin hk he.1 he.2 htexts hx hv fuel
    · have hweight := weight_core_le x
      rw [compileForm_of_expand hrun]
      exact Takes.mono (takes_expanded hk h.made.named (compileForm_added limit room)
        (wellNamed_core hx) (core_core x) hw (by omega)
        fun hy hv' hlt => ih hy hv' (by omega) (by omega)) hweight left
          ⟨he.1.trans hgains, hidle⟩ hb
    · exact absurd henough hnot

end Engine.Loaded

/-- The forms of the prelude are light. -/
theorem Vocabulary.weight_forms_le {x : Expression} (h : x ∈ Vocabulary.forms) :
    x.weight ≤ 250 := by
  have hall : ∀ x ∈ Vocabulary.forms, x.weight ≤ 250 := by decide +kernel
  exact hall x h

end StackLisp
