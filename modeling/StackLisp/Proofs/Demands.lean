import Mathlib.Data.List.Forall2
import StackLisp.Proofs.Compiling
import StackLisp.Proofs.Language

/-!
# What compiled code asks for

Code for a form takes words, labels and places for constants, and there are only so many of each. A
`Demand` says how many, and a computation that adds code settles it: either all of it is added, or
the computation stops because a limit is exhausted.

- `Builder.Holds`: the constants of a builder, by what they are found by;
- `Demand.Settles`: a computation meets a demand, or the demand is too much;
- `Compiler.compileLiteral_cases`: a function literal is compiled if it fits;
- `Compiler.compileForm_settled`: without macros, so is each form of the language.
-/

namespace StackLisp

/-! ## The constants of a builder -/

/-- The constants of the builder are found by these keys, each at its first place. -/
structure Builder.Holds (b : Builder) (pool : List Key) : Prop where
  size : b.constants.size = pool.length
  places : ∀ id, b.places[id]? = if some id ∈ pool then some (pool.idxOf (some id)) else none

namespace Builder.Holds

variable {b b' : Builder} {pool : List Key}

theorem empty : Holds {} [] :=
  ⟨rfl, by simp⟩

theorem mem_iff (h : b.Holds pool) (id : Identity) : id ∈ b.places ↔ some id ∈ pool := by
  rw [Std.HashMap.mem_iff_isSome_getElem?, h.places]
  split <;> simp [*]

/-- A constant that is added without looking for it comes last, and is found there if it is new. -/
theorem push (h : b.Holds pool) (v : Value) : (b.push v).Holds (pool ++ [some v.identity]) := by
  refine ⟨by simp [Builder.push, h.size], fun id => ?_⟩
  simp only [Builder.push, Std.HashMap.getElem?_insertIfNew, h.mem_iff, h.places, h.size,
    List.idxOf_append]
  by_cases hid : v.identity = id
  -- what was found before keeps its place, since the table is only filled where it is empty
  · subst hid
    by_cases hold : some v.identity ∈ pool <;> simp [hold]
  · by_cases hold : some id ∈ pool <;> simp [hid, hold, Ne.symm hid]

/-- A function literal comes last, and nothing finds it. -/
theorem literal (h : b.Holds pool) (v : Value) :
    Holds { b with constants := b.constants.push v } (pool ++ [none]) := by
  refine ⟨by simp [h.size], fun id => ?_⟩
  rw [h.places]
  by_cases hold : some id ∈ pool <;> simp [hold, List.idxOf_append]

/-- A constant that is looked for is found at its index, and added if it is new. -/
theorem place (h : b.Holds pool) (v : Value) :
    ∃ b', b.place v = (Key.index pool (some v.identity), b') ∧
      b'.Holds (Key.grow pool (some v.identity)) ∧ b'.program = b.program ∧
        b'.nextLabel = b.nextLabel := by
  rw [Builder.place, h.places, Key.grow]
  by_cases hold : some v.identity ∈ pool
  · simp only [if_pos hold]
    exact ⟨b, rfl, h, rfl, rfl⟩
  · simp only [if_neg hold]
    refine ⟨_, ?_, h.push v, rfl, rfl⟩
    rw [Key.index, List.idxOf_of_notMem hold, h.size]

theorem ofParameters (parameters : Parameters) :
    (Builder.ofParameters parameters.symbols).Holds (Key.ofParameters parameters) := by
  -- for any builder, as the parameters are pushed one by one
  have hfoldl : ∀ (symbols : List Symbol) {b : Builder} {pool : List Key}, b.Holds pool →
      (symbols.foldl (fun b s => b.push (.symbol s)) b).Holds
        (pool ++ symbols.map fun s => some (.symbol s)) := by
    intro symbols
    induction symbols with
    | nil => intro b pool h; simpa using h
    | cons s symbols ih =>
      intro b pool h
      have := ih (h.push (.symbol s))
      simpa [Value.identity] using this
  exact hfoldl parameters.symbols empty

end Builder.Holds

/-! ## Labels -/

namespace Form

mutual

/-- How many labels the code of a form takes. -/
def labels : Form → Nat
  | .constant _ | .lookup _ | .function _ _ _ => 0
  | .conditional test consequent alternative =>
    test.labels + consequent.labels + alternative.labels + 2
  | .assignment _ _ value => value.labels
  | .call items => labelsAll items

/-- How many labels the code of some forms takes. -/
def labelsAll : List Form → Nat
  | [] => 0
  | f :: fs => f.labels + labelsAll fs

end

mutual

/-- A conditional has more words than labels, so labels never run out first. -/
theorem labels_le_words : (f : Form) → f.labels ≤ f.words
  | .constant _ | .lookup _ | .function _ _ _ => Nat.zero_le _
  | .conditional test consequent alternative => by
    have := labels_le_words test
    have := labels_le_words consequent
    have := labels_le_words alternative
    simp only [labels, words]
    omega
  | .assignment _ _ value => by
    have := labels_le_words value
    simp only [labels, words]
    omega
  | .call items => by
    have := labelsAll_le_wordsAll items
    simp only [labels, words]
    omega

theorem labelsAll_le_wordsAll : (fs : List Form) → labelsAll fs ≤ wordsAll fs
  | [] => Nat.zero_le _
  | f :: fs => Nat.add_le_add (labels_le_words f) (labelsAll_le_wordsAll fs)

end

theorem one_le_words (f : Form) : 1 ≤ f.words := by
  cases f <;> simp only [words] <;> omega

/-- Every argument has words of its own, so there are never too many arguments first. -/
theorem length_le_wordsAll : (fs : List Form) → fs.length ≤ wordsAll fs
  | [] => Nat.zero_le _
  | f :: fs => by
    have := one_le_words f
    have := length_le_wordsAll fs
    simp only [List.length_cons, wordsAll]
    omega

theorem wordsAll_le_bodyWords : (fs : List Form) → wordsAll fs ≤ bodyWords fs
  | [] => Nat.zero_le _
  | [f] => Nat.le_refl _
  | f :: g :: fs => by
    have := wordsAll_le_bodyWords (g :: fs)
    rw [wordsAll, bodyWords]
    omega

theorem one_le_nesting (f : Form) : 1 ≤ f.nesting := by
  cases f <;> simp only [nesting] <;> omega

end Form

/-! ## Demands -/

/-- No global value is a macro. -/
def Engine.NoMacros (e : Engine) : Prop :=
  ∀ (s : Symbol) (c : Closure), e.global? s = some (.closure c) → e.isMacro c = false

/-- What a computation that adds code asks for. -/
structure Demand where
  words : Nat
  labels : Nat
  /-- The constants that the code pushes. -/
  keys : List Key
  /-- The functions inside fit. -/
  fits : Prop

namespace Demand

/-- Two demands, one after the other. -/
def before (d d' : Demand) : Demand where
  words := d.words + d'.words
  labels := d.labels + d'.labels
  keys := d.keys ++ d'.keys
  fits := d.fits ∧ d'.fits

/-- The demand does not ask for too much. -/
structure Modest (d : Demand) (b : Builder) (pool : List Key) : Prop where
  words : d.words ≤ 65535
  labels : b.nextLabel + d.labels ≤ 65535
  keys : Indexable pool d.keys
  fits : d.fits

/-- Between the two builders, what was asked for was added. -/
structure Met (d : Demand) (pool : List Key) (b b' : Builder) : Prop where
  words : Assembly.extent b'.program.toList = Assembly.extent b.program.toList + d.words
  labels : b'.nextLabel = b.nextLabel + d.labels
  holds : b'.Holds (d.keys.foldl Key.grow pool)
  keys : Indexable pool d.keys
  fits : d.fits

/-- On engines of which `S` holds, the computation meets the demand, or says that it is too much. -/
def Settles (d : Demand) (S : Engine → Prop) (x : Compiler.Build Unit) : Prop :=
  ∀ ⦃b : Builder⦄ ⦃e : Engine⦄ ⦃pool : List Key⦄, S e → b.Holds pool →
    (∃ b' e', x b e = (.ok ((), b'), e') ∧ S e' ∧ d.Met pool b b') ∨
    ∃ limit e', x b e = (.error (.fault (.exhausted limit)), e') ∧ ¬ d.Modest b pool

open Compiler

variable {S : Engine → Prop} {d d' : Demand} {x y : Build Unit}

theorem indexable_append {pool keys keys' : List Key} :
    Indexable pool (keys ++ keys') ↔
      Indexable pool keys ∧ Indexable (keys.foldl Key.grow pool) keys' := by
  simp only [Indexable, Key.indexes_append, List.forall_mem_append]

/-- Computations in a row settle their demands in a row. -/
theorem Settles.bind (hx : d.Settles S x) (hy : d'.Settles S y) :
    (d.before d').Settles S (x >>= fun _ => y) := by
  intro b e pool he hb
  obtain ⟨b₁, e₁, hrun, he₁, hmet⟩ | ⟨limit, e₁, hrun, hnot⟩ := hx he hb
  · rw [Build.bind_of_ok hrun]
    -- the second one starts where the first one ended, with fewer labels and more constants
    obtain ⟨b₂, e₂, hrun', he₂, hmet'⟩ | ⟨limit, e₂, hrun', hnot⟩ := hy he₁ hmet.holds
    · refine .inl ⟨b₂, e₂, hrun', he₂, ?_, ?_, ?_, ?_, hmet.fits, hmet'.fits⟩
      · rw [hmet'.words, hmet.words, before, Nat.add_assoc]
      · rw [hmet'.labels, hmet.labels, before, Nat.add_assoc]
      · rw [before, List.foldl_append]
        exact hmet'.holds
      · exact indexable_append.2 ⟨hmet.keys, hmet'.keys⟩
    · refine .inr ⟨limit, e₂, hrun', fun hmodest => hnot ⟨?_, ?_, ?_, hmodest.fits.2⟩⟩
      · exact (Nat.le_add_left _ _).trans hmodest.words
      · have : b.nextLabel + (d.labels + d'.labels) ≤ 65535 := hmodest.labels
        rw [hmet.labels]
        omega
      · exact (indexable_append.1 hmodest.keys).2
  -- what is too much for the first one is too much for both
  · refine .inr ⟨limit, e₁, Build.bind_of_error hrun _, fun hmodest => hnot ⟨?_, ?_, ?_, ?_⟩⟩
    · exact (Nat.le_add_right _ _).trans hmodest.words
    · have : b.nextLabel + (d.labels + d'.labels) ≤ 65535 := hmodest.labels
      omega
    · exact (indexable_append.1 hmodest.keys).1
    · exact hmodest.fits.1

/-- A demand may be put in other words. -/
theorem Settles.congr (hx : d.Settles S x) (hwords : d.words = d'.words)
    (hlabels : d.labels = d'.labels) (hkeys : d.keys = d'.keys) (hfits : d.fits ↔ d'.fits) :
    d'.Settles S x := by
  obtain rfl : d = d' := by
    cases d
    cases d'
    simp_all
  exact hx

theorem settles_emit (i : Instruction) (size : Nat) (h : i.size = size) :
    (Demand.mk size 0 [] True).Settles S (emit i) := by
  intro b e pool he hb
  refine .inl ⟨_, _, rfl, he, ?_, rfl, ⟨hb.size, hb.places⟩, by simp [Indexable, Key.indexes],
    trivial⟩
  simp [Builder.emit, h]

/-- Pushing a constant from its index settles the demand for it. -/
theorem pushAt_cases {b b₁ : Builder} {pool : List Key} {key : Key}
    (hb : b₁.Holds (Key.grow pool key)) (hprogram : b₁.program = b.program)
    (hlabel : b₁.nextLabel = b.nextLabel) :
    (∃ b', b₁.pushAt (Key.index pool key) = .ok b' ∧ (Demand.mk 2 0 [key] True).Met pool b b') ∨
    b₁.pushAt (Key.index pool key) = .error (.exhausted .constants) ∧
      ¬ (Demand.mk 2 0 [key] True).Modest b pool := by
  rw [Builder.pushAt]
  by_cases hfar : 65535 < Key.index pool key
  · rw [if_pos hfar]
    refine .inr ⟨rfl, fun hmodest => ?_⟩
    have := hmodest.keys (Key.index pool key) (by simp [Key.indexes])
    omega
  · rw [if_neg hfar]
    refine .inl ⟨_, rfl, ?_, hlabel, ⟨hb.size, hb.places⟩, ?_, trivial⟩
    · simp [Builder.emit, hprogram, Instruction.size, Instruction.width, Instruction.opcode,
        Opcode.operands]
    · simpa [Indexable, Key.indexes] using hfar

theorem settles_constant (v : Value) :
    (Demand.mk 2 0 [some v.identity] True).Settles S (constant v) := by
  intro b e pool he hb
  obtain ⟨b₁, hplace, hb₁, hprogram, hlabel⟩ := hb.place v
  have hconstant : b.constant v = b₁.pushAt (Key.index pool (some v.identity)) := by
    rw [Builder.constant, hplace]
  obtain ⟨b', hok, hmet⟩ | ⟨herror, hnot⟩ := pushAt_cases hb₁ hprogram hlabel
  · exact .inl ⟨b', e, constant_eq_ok.2 ⟨hconstant.trans hok, rfl⟩, he, hmet⟩
  · refine .inr ⟨.constants, e, Eval.bind_of_error ?_ _, hnot⟩
    rw [hconstant, herror]
    rfl

theorem settles_template (c : Closure) : (Demand.mk 2 0 [none] True).Settles S (template c) := by
  intro b e pool he hb
  have hindex : Key.index pool none = b.constants.size := hb.size.symm
  obtain ⟨b', hok, hmet⟩ | ⟨herror, hnot⟩ :=
    @pushAt_cases b _ pool none (hb.literal (.closure c)) rfl rfl
  · rw [hindex] at hok
    exact .inl ⟨b', e, template_eq_ok.2 ⟨hok, rfl⟩, he, hmet⟩
  · rw [hindex] at herror
    refine .inr ⟨.constants, e, Eval.bind_of_error ?_ _, hnot⟩
    rw [Builder.template, herror]
    rfl

/-- Taking a label asks for one more. -/
theorem settles_label {y : UInt16 → Build Unit} (hy : ∀ l, d.Settles S (y l)) :
    ({ d with labels := d.labels + 1 } : Demand).Settles S (label >>= y) := by
  intro b e pool he hb
  rcases Nat.lt_or_ge b.nextLabel 65535 with hlt | hfull
  · have hb₁ : Builder.Holds { b with nextLabel := b.nextLabel + 1 } pool := ⟨hb.size, hb.places⟩
    rw [Build.bind_of_ok (label_of_lt hlt e)]
    obtain ⟨b', e', hrun, he', hmet⟩ | ⟨limit, e', hrun, hnot⟩ := hy b.nextLabel.toUInt16 he hb₁
    · refine .inl ⟨b', e', hrun, he', hmet.words, ?_, hmet.holds, hmet.keys, hmet.fits⟩
      have : b'.nextLabel = b.nextLabel + 1 + d.labels := hmet.labels
      simp only
      omega
    · refine .inr ⟨limit, e', hrun, fun hmodest => hnot ⟨hmodest.words, ?_, hmodest.keys,
        hmodest.fits⟩⟩
      have : b.nextLabel + (d.labels + 1) ≤ 65535 := hmodest.labels
      simp only
      omega
  · refine .inr ⟨.labels, e, Build.bind_of_error (label_of_le hfull e) _, fun hmodest => ?_⟩
    have : b.nextLabel + (d.labels + 1) ≤ 65535 := hmodest.labels
    omega

end Demand

/-! ## Forms -/

/-- What the code of a form asks for. -/
def Form.demand (f : Form) : Demand :=
  ⟨f.words, f.labels, f.keys, f.Fits⟩

/-- What the code of some forms in a row asks for. -/
def Form.demandAll (fs : List Form) : Demand :=
  ⟨wordsAll fs, labelsAll fs, keysAll fs, AllFit fs⟩

/-- What the code of a body asks for. -/
def Form.bodyDemand (fs : List Form) : Demand :=
  ⟨bodyWords fs, labelsAll fs, bodyKeys fs, AllFit fs⟩

namespace Compiler

open Demand (before settles_emit settles_constant settles_template settles_label)

variable {S : Engine → Prop} {compile : Value → Build Unit}

theorem nextLabel_ofParameters (symbols : List Symbol) :
    (Builder.ofParameters symbols).nextLabel = 0 := by
  have hfoldl : ∀ b : Builder,
      (symbols.foldl (fun b s => b.push (.symbol s)) b).nextLabel = b.nextLabel := by
    induction symbols with
    | nil => exact fun _ => rfl
    | cons s symbols ih => exact fun b => ih _
  exact hfoldl {}

/-- The compiler settles what the form asks for. -/
abbrev SettledBy (S : Engine → Prop) (compile : Value → Build Unit) (v : Value) (f : Form) : Prop :=
  f.demand.Settles S (compile v)

theorem settles_conditional {test consequent alternative : Value} {t c a : Form}
    (ht : SettledBy S compile test t) (hc : SettledBy S compile consequent c)
    (ha : SettledBy S compile alternative a) :
    (Form.conditional t c a).demand.Settles S
      (compileConditional compile test consequent alternative) := by
  -- in the order in which the compiler emits them, with a label counted where it is taken
  have hparts (otherwise done : UInt16) :=
    ht.bind ((settles_emit (.jumpIfNot otherwise) 2 rfl).bind
      (hc.bind ((settles_emit (.jump done) 2 rfl).bind
        ((settles_emit (.label otherwise) 0 rfl).bind
          (ha.bind (settles_emit (.label done) 0 rfl))))))
  refine (settles_label fun otherwise => settles_label (hparts otherwise)).congr ?_ ?_ ?_ ?_
  · simp only [before, Form.demand, Form.words]
    omega
  · simp only [before, Form.demand, Form.labels]
    omega
  · simp [before, Form.demand, Form.keys]
  · simp [before, Form.demand, Form.Fits]

theorem settles_assignment {way : Assignment} {target : Symbol} {value : Value} {f : Form}
    (h : SettledBy S compile value f) :
    (Form.assignment way target f).demand.Settles S
      (compileShape compile (.assignment way target value)) := by
  have hsize : way.instruction.size = 1 := by cases way <;> rfl
  have hparts := (settles_constant (.symbol target)).bind
    (h.bind (settles_emit way.instruction 1 hsize))
  refine hparts.congr ?_ ?_ ?_ ?_
  · simp only [before, Form.demand, Form.words]
    omega
  · simp [before, Form.demand, Form.labels]
  · simp [before, Form.demand, Form.keys, Value.identity]
  · simp [before, Form.demand, Form.Fits]

theorem settles_forM {items : List Value} {fs : List Form}
    (h : List.Forall₂ (SettledBy S compile) items fs) :
    (Form.demandAll fs).Settles S (items.forM compile) := by
  induction h with
  | nil =>
    intro b e pool he hb
    exact .inl ⟨b, e, rfl, he, rfl, rfl, hb, fun i hi => absurd hi List.not_mem_nil, trivial⟩
  | cons hv _ ih => exact (hv.bind ih).congr rfl rfl rfl Iff.rfl

theorem settles_call {callee : Value} {args : List Value} {fs : List Form}
    (h : List.Forall₂ (SettledBy S compile) (callee :: args) fs) :
    (Form.call fs).demand.Settles S (compileCall compile (callee :: args) args.length) := by
  by_cases hmany : 65535 < args.length
  -- so many arguments have too many words
  · have hlength : args.length < fs.length := by
      rw [← h.length_eq]
      exact Nat.lt_succ_self _
    have hwords : 65535 < (Form.call fs).words := by
      have := Form.length_le_wordsAll fs
      rw [Form.words]
      omega
    intro b e pool he hb
    have hnot : ¬ (Form.call fs).demand.Modest b pool := fun hmodest =>
      absurd hmodest.words (Nat.not_le_of_lt hwords)
    -- the arguments are compiled before they are counted, and may exhaust a limit themselves
    obtain ⟨b₁, e₁, hrun, -, -⟩ | ⟨limit, e₁, hrun, -⟩ := settles_forM h he hb
    · refine .inr ⟨.callArguments, e₁, ?_, hnot⟩
      rw [compileCall, Build.bind_of_ok hrun, if_pos hmany]
      rfl
    · exact .inr ⟨limit, e₁, Build.bind_of_error hrun _, hnot⟩
  · have hcall : compileCall compile (callee :: args) args.length = (do
        (callee :: args).forM compile
        emit (.call args.length.toUInt16)) := by
      rw [compileCall]
      simp only [if_neg hmany]
    rw [hcall]
    refine ((settles_forM h).bind (settles_emit _ 2 rfl)).congr rfl ?_ ?_ ?_
    · simp [before, Form.demand, Form.demandAll, Form.labels]
    · simp [before, Form.demand, Form.demandAll, Form.keys]
    · simp [before, Form.demand, Form.demandAll, Form.Fits]

theorem settles_body {items : List Value} {fs : List Form}
    (h : List.Forall₂ (SettledBy S compile) items fs) :
    (Form.bodyDemand fs).Settles S (compileBody compile items) := by
  match h with
  | .nil => exact settles_constant .nil
  | .cons hv .nil =>
    refine hv.congr rfl ?_ ?_ ?_
    · simp [Form.demand, Form.bodyDemand, Form.labelsAll]
    · simp [Form.demand, Form.bodyDemand, Form.bodyKeys, Form.keysAll]
    · simp [Form.demand, Form.bodyDemand, Form.AllFit]
  | .cons hv (.cons hw hothers) =>
    have hothers := settles_body (.cons hw hothers)
    refine (hv.bind ((settles_emit .pop 1 rfl).bind hothers)).congr ?_ ?_ ?_ ?_
    · simp only [before, Form.demand, Form.bodyDemand, Form.bodyWords]
      omega
    · simp [before, Form.demand, Form.bodyDemand, Form.labelsAll]
    · simp [before, Form.demand, Form.bodyDemand, Form.bodyKeys, Form.keysAll]
    · simp [before, Form.demand, Form.bodyDemand, Form.AllFit]

/-- What was compiled for a body can be written if it is short enough, as every jump has its
label. -/
theorem exists_code_of_body {ev : Evaluator} {k : Keywords} {forms : List Value}
    {symbols : List Symbol} {b : Builder} {e e₁ : Engine} (hc : Compiles (.lax ev k) compile)
    (hrun : (do compileBody compile forms; emit .ret : Build Unit) (.ofParameters symbols) e =
      (.ok ((), b), e₁)) (hshort : Assembly.length b.program.toList ≤ 65535) :
    ∃ code, Assembly.assemble b.program.toList = .ok code := by
  obtain ⟨-, body, -, -, -, -, hemits, -⟩ :=
    compileBody_program (w := ()) hc trivial (fun _ _ => trivial) hrun
  obtain ⟨code, hcode, -⟩ | ⟨id, hjump, hmissing, -⟩ := Assembly.assemble_cases hshort
  · exact ⟨code, hcode⟩
  · exact absurd (mem_labelIds.1 (hemits.jumpIds_subset (mem_jumpIds.2 hjump))) hmissing

/-- A function literal whose body settles is compiled if it fits. -/
theorem compileLiteral_cases {ev : Evaluator} {k : Keywords} (literal : FunctionLiteral)
    {fs : List Form} {e : Engine} (hfresh : ∀ {e}, S e → S { e with store := e.store.fresh.2 })
    (he : S e) (hc : Compiles (.lax ev k) compile)
    (h : List.Forall₂ (SettledBy S compile) literal.body fs) :
    (∃ c e', compileLiteral compile literal e = (.ok c, e') ∧ S e' ∧
      (Form.function literal.name literal.parameters fs).Fits) ∨
    ∃ limit e', compileLiteral compile literal e = (.error (.fault (.exhausted limit)), e') ∧
      ¬ (Form.function literal.name literal.parameters fs).Fits := by
  have hbuild := (settles_body h).bind (settles_emit .ret 1 rfl)
  obtain ⟨b, e₁, hrun, he₁, hmet⟩ | ⟨limit, e₁, hrun, hnot⟩ :=
    hbuild he (.ofParameters literal.parameters)
  · have hlength : Assembly.length b.program.toList = Form.functionWords fs := by
      rw [Assembly.length_eq, hmet.words, program_ofParameters, Assembly.extent_nil, Nat.zero_add]
      exact (Nat.add_assoc _ _ _).symm
    have hliteral := compileLiteral_run hrun
    by_cases hlong : 65535 < Form.functionWords fs
    · rw [Assembly.assemble_of_lt_length (hlength.symm ▸ hlong)] at hliteral
      exact .inr ⟨_, e₁, hliteral, fun hfits => absurd hfits.1 (Nat.not_le_of_lt hlong)⟩
    · have hkeys : Indexable (Key.ofParameters literal.parameters) (Form.bodyKeys fs) :=
        (Demand.indexable_append.1 hmet.keys).1
      have hshort := Nat.le_of_not_lt hlong
      obtain ⟨code, hcode⟩ := exists_code_of_body hc hrun (hlength.symm ▸ hshort)
      rw [hcode] at hliteral
      exact .inl ⟨_, _, hliteral, hfresh he₁, hshort, hkeys, hmet.fits.1⟩
  · refine .inr ⟨limit, e₁, Eval.bind_of_error hrun _, fun ⟨hwords, hkeys, hfits⟩ => hnot ?_⟩
    -- a function that fits asks for few labels, as it has few words
    have hlabels := (Form.labelsAll_le_wordsAll fs).trans (Form.wordsAll_le_bodyWords fs)
    rw [Form.functionWords] at hwords
    refine ⟨?_, ?_, ?_, hfits, trivial⟩
    · change Form.bodyWords fs + 1 ≤ 65535
      omega
    · change (Builder.ofParameters literal.parameters.symbols).nextLabel + Form.labelsAll fs ≤ 65535
      rw [nextLabel_ofParameters]
      omega
    · exact Demand.indexable_append.2 ⟨hkeys, fun i hi => absurd hi List.not_mem_nil⟩

theorem settles_function {ev : Evaluator} {k : Keywords} {literal : FunctionLiteral}
    {fs : List Form} (hfresh : ∀ {e}, S e → S { e with store := e.store.fresh.2 })
    (hc : Compiles (.lax ev k) compile)
    (h : List.Forall₂ (SettledBy S compile) literal.body fs) :
    (Form.function literal.name literal.parameters fs).demand.Settles S
      (compileShape compile (.function literal)) := by
  intro b e pool he hb
  obtain ⟨c, e₁, hrun, he₁, hfits⟩ | ⟨limit, e₁, hrun, hnot⟩ :=
    compileLiteral_cases literal hfresh he hc h
  · rw [compileShape_function_of_ok hrun]
    -- the code of the literal is in its closure, and only the closure is pushed
    have hpush := (settles_template (S := S) c).bind (settles_emit .closure 1 rfl)
    have hsettles : (Form.function literal.name literal.parameters fs).demand.Settles S _ :=
      hpush.congr rfl rfl rfl (by simp [before, Form.demand, hfits])
    exact hsettles he₁ hb
  · exact .inr ⟨limit, e₁, compileShape_function_of_error hrun b, fun hmodest =>
      hnot hmodest.fits⟩

/-! ## Expansion without macros -/

variable {ev : Evaluator} {k : Keywords}

theorem macroCall?_of_noMacros {e : Engine} (he : e.NoMacros) (form : Value) :
    macroCall? k e form = none := by
  unfold macroCall?
  split
  · split
    · rfl
    · split
      · rename_i hglobal
        rw [he _ _ hglobal]
        rfl
      · rfl
  · rfl

/-- A form that calls no macro is expanded to itself. -/
theorem expandWithin_of_noMacroCall {fuel : Nat} (hfuel : 0 < fuel) {e : Engine} {form : Value}
    (hnone : macroCall? k e form = none) : expandWithin ev k fuel form e = (.ok form, e) := by
  obtain ⟨fuel, rfl⟩ := Nat.exists_eq_add_of_lt hfuel
  have honce : expandOnce ev k form e = (.ok form, e) := by
    rw [expandOnce, Eval.bind_of_ok (Eval.get_run e), hnone]
    rfl
  rw [expandWithin, Eval.bind_of_ok honce, if_pos (Value.identical_refl form)]
  rfl

/-- Without macros a form is its own expansion. -/
theorem expandWithin_of_noMacros {fuel : Nat} (hfuel : 0 < fuel) {e : Engine} (he : e.NoMacros)
    (form : Value) : expandWithin ev k fuel form e = (.ok form, e) :=
  expandWithin_of_noMacroCall hfuel (macroCall?_of_noMacros he form)

theorem compileExpanded_atom {v : Value} (hatom : v.IsAtom) (hsymbol : v.symbol? = none) :
    compileExpanded compile k v = constant v := by
  cases v with
  | list => exact hatom.elim
  | symbol => cases hsymbol
  | _ => rfl

theorem compileExpanded_list {ref : Ref} {head : Value} {others : List Value} {shape : Shape}
    (h : shape.Of k head others) (b : Builder) (e : Engine) :
    compileExpanded compile k (.list ref head others) b e = compileShape compile shape b e :=
  Build.bind_of_ok (Build.lift_eq_ok.2
    ⟨Eval.ofExcept_eq_ok.2 ⟨Shape.ofItems_eq_ok_iff.2 h, rfl⟩, rfl⟩) _

/-- A form that is an atom and no symbol is a constant. -/
theorem compileForm_atom (hfuel : 0 < ev.fuel) {v : Value} (hatom : v.IsAtom)
    (hsymbol : v.symbol? = none) (limit room : Nat) :
    compileForm ev k limit (room + 1) v = constant v := by
  funext b e
  have hnone : macroCall? k e v = none := by
    cases v with
    | list => exact hatom.elim
    | _ => rfl
  rw [compileForm_of_expand (expandWithin_of_noMacroCall hfuel hnone),
    compileExpanded_atom hatom hsymbol]

/-- A function literal calls no macro. -/
theorem macroCall?_function (k : Keywords) (e : Engine) (ref : Ref) (others : List Value) :
    macroCall? k e (.list ref (.symbol k.function) others) = none := by
  simp [macroCall?, Keywords.isSpecial]

/-- A form that is a function literal pushes its function. -/
theorem compileForm_function (hfuel : 0 < ev.fuel) {ref : Ref} {limit room : Nat}
    {others : List Value} {literal : FunctionLiteral} {c : Closure} {b : Builder} {e e' : Engine}
    (h : (Shape.function literal).Of k (.symbol k.function) others)
    (hc : compileLiteral (compileForm ev k limit room) literal e = (.ok c, e'))
    (hsize : b.constants.size ≤ 65535) :
    compileForm ev k limit (room + 1) (.list ref (.symbol k.function) others) b e =
      (.ok ((), ({ b with constants := b.constants.push (.closure c) }.emit
        (.const b.constants.size.toUInt16)).emit .closure), e') := by
  have hnone := macroCall?_function k e ref others
  rw [compileForm_of_expand (expandWithin_of_noMacroCall hfuel hnone), compileExpanded_list h,
    compileShape_function_of_ok hc]
  refine Build.bind_eq_ok.2 ⟨(), _, _, template_eq_ok.2 ⟨?_, rfl⟩, rfl⟩
  simp [Builder.template, Builder.pushAt, hsize]

/-- A call of what another list gives pushes its items, and then the call is made. -/
theorem compileForm_call (hfuel : 0 < ev.fuel) {ref other : Ref} {limit room : Nat} {head : Value}
    {others args : List Value} {b b' : Builder} {e e' : Engine} (hargs : args.length ≤ 65535)
    (h : (Value.list other head others :: args).forM (compileForm ev k limit room) b e =
      (.ok ((), b'), e')) :
    compileForm ev k limit (room + 1) (.list ref (.list other head others) args) b e =
      (.ok ((), b'.emit (.call args.length.toUInt16)), e') := by
  have hshape : (Shape.call (.list other head others) args).Of k (.list other head others) args :=
    ⟨rfl, rfl, rfl⟩
  rw [compileForm_of_expand (expandWithin_of_noMacroCall hfuel rfl), compileExpanded_list hshape]
  exact compileCall_eq_ok.2 ⟨_, h, hargs, rfl⟩

theorem settles_lookup (s : Symbol) :
    (Form.lookup s).demand.Settles S (do constant (.symbol s); emit .load) :=
  ((settles_constant (.symbol s)).bind (settles_emit .load 1 rfl)).congr rfl rfl rfl
    (by simp [before, Form.demand, Form.Fits])

/-- What was denoted by items of less nesting settles one by one. -/
theorem forall₂_settled {room : Nat} {vs : List Value} {fs : List Form}
    (h : List.Forall₂ (Value.Denotes k) vs fs) (hroom : Form.nestingAll fs ≤ room)
    (hc : ∀ {v f}, v.Denotes k f → f.nesting ≤ room → SettledBy S compile v f) :
    List.Forall₂ (SettledBy S compile) vs fs := by
  induction h with
  | nil => exact .nil
  | cons hv _ ih =>
    rw [Form.nestingAll, Nat.max_le] at hroom
    exact .cons (hc hv hroom.1) (ih hroom.2)

/-- The compiler settles the demands of the forms of the language. -/
theorem compileForm_settled (hfuel : 0 < ev.fuel) {limit room : Nat} {v : Value} {f : Form}
    (h : v.Denotes k f) (hroom : f.nesting ≤ room) :
    SettledBy Engine.NoMacros (compileForm ev k limit room) v f := by
  -- on the room, which the compiler counts down once for each form that it goes into
  induction room generalizing v f with
  | zero => exact absurd (Form.one_le_nesting f) (by omega)
  | succ room ih =>
    have hc : Compiles (.lax ev k) (compileForm ev k limit room) := compileForm_added limit room
    -- nothing is expanded, as there are no macros
    suffices hexpanded : f.demand.Settles Engine.NoMacros
        (compileExpanded (compileForm ev k limit room) k v) by
      intro b e pool he hb
      rw [compileForm_of_expand (expandWithin_of_noMacros hfuel he v)]
      exact hexpanded he hb
    have hlist : ∀ {ref : Ref} {head : Value} {others : List Value} (shape : Shape),
        shape.Of k head others →
        f.demand.Settles Engine.NoMacros (compileShape (compileForm ev k limit room) shape) →
        f.demand.Settles Engine.NoMacros
          (compileExpanded (compileForm ev k limit room) k (.list ref head others)) := by
      intro ref head others shape hshape hsettles b e pool he hb
      rw [compileExpanded_list hshape]
      exact hsettles he hb
    cases h with
    | atom hatom hsymbol =>
      rw [compileExpanded_atom hatom hsymbol]
      exact settles_constant v
    | @lookup s => exact settles_lookup s
    | @quotation _ _ v extra hhead =>
      exact hlist (.quotation v) ⟨hhead, extra, rfl⟩ (settles_constant v)
    | @conditional _ _ _ _ extra _ _ _ hhead htest hthen helse =>
      simp only [Form.nesting] at hroom
      exact hlist (.conditional _ _ _) ⟨hhead, extra, rfl, rfl⟩
        (settles_conditional (ih htest (by omega)) (ih hthen (by omega)) (ih helse (by omega)))
    | @assignment _ _ _ way target extra _ hhead hvalue =>
      simp only [Form.nesting] at hroom
      exact hlist (.assignment _ _ _) ⟨hhead, extra, rfl⟩
        (settles_assignment (ih hvalue (by omega)))
    | @function _ _ listed name items body parameters fs hhead hlisted hnamed hbody =>
      simp only [Form.nesting] at hroom
      exact hlist (.function ⟨name, parameters, body⟩)
        ⟨hhead, listed, items, rfl, hlisted, hnamed⟩
        (settles_function id hc (forall₂_settled hbody (by omega) ih))
    | call hhead hitems =>
      simp only [Form.nesting] at hroom
      exact hlist (.call _ _) ⟨hhead, rfl, rfl⟩
        (settles_call (forall₂_settled hitems (by omega) ih))

theorem noMacros_withStore {e : Engine} (h : e.NoMacros) (store : Store) :
    Engine.NoMacros { e with store } :=
  fun s c => h s c

/-- A form of the language that fits is compiled. -/
theorem compileThunk_of_fits (hfuel : 0 < ev.fuel) {e : Engine} (he : e.NoMacros) {v : Value}
    {f : Form} (h : v.Denotes (Keywords.intern e.store).1 f)
    (hroom : f.nesting ≤ e.limits.maxCompileDepth)
    (hfits : (Form.function none ⟨[], 0, false⟩ [f]).Fits) :
    ∃ c e', compileThunk ev v e = (.ok c, e') := by
  rw [compileThunk_run, compileTop_run]
  have hsettled := @compileForm_settled ev _ hfuel e.limits.maxCompileDepth _ v f h hroom
  obtain ⟨c, e', hrun, -⟩ | ⟨-, -, -, hnot⟩ := compileLiteral_cases (.thunk [v]) id
    (noMacros_withStore he _) (compileForm_added _ _) (.cons hsettled .nil)
  · exact ⟨c, e', hrun⟩
  · exact absurd hfits hnot

/-! ## An example -/

/-- The form `((fn (x) (if x (set! x 2) x)) 1)`. -/
def assigning (k : Keywords) (x : Symbol) : Value :=
  .list 4 (.list 3 (.symbol k.function) [.list 2 (.symbol x) [], .list 1 (.symbol k.conditional)
    [.symbol x, .list 0 (.symbol k.assign) [.symbol x, .number (2 : Float)],
    .symbol x]]) [.number (1 : Float)]

/-- The form with its parts told apart. -/
def assigningForm (x : Symbol) : Form :=
  .call [.function none ⟨[x], 1, false⟩ [.conditional (.lookup x)
    (.assignment .overwrite x (.constant (.number (2 : Float)))) (.lookup x)],
    .constant (.number (1 : Float))]

theorem denotes_assigning {store : Store} (h : store.symbols.Named) {x : Symbol}
    (hx : x ≠ (Keywords.intern store).1.rest) :
    (assigning (Keywords.intern store).1 x).Denotes (Keywords.intern store).1
      (assigningForm x) := by
  obtain ⟨hconditional, hassign⟩ := Keywords.special?_intern h
  have hset : Value.Denotes (Keywords.intern store).1
      (.list 0 (.symbol (Keywords.intern store).1.assign) [.symbol x, .number (2 : Float)])
      (.assignment .overwrite x (.constant (.number (2 : Float)))) :=
    .assignment hassign (.atom trivial rfl)
  have hbody : Value.Denotes (Keywords.intern store).1
      (.list 1 (.symbol (Keywords.intern store).1.conditional) [.symbol x,
        .list 0 (.symbol (Keywords.intern store).1.assign) [.symbol x, .number (2 : Float)],
        .symbol x])
      (.conditional (.lookup x) (.assignment .overwrite x (.constant (.number (2 : Float))))
        (.lookup x)) :=
    .conditional hconditional .lookup hset .lookup
  exact .call rfl (.cons (.function none (Keywords.special?_eq_function_iff.2 rfl) rfl
    (.plain [x] (by simpa using hx.symm)) (.cons hbody .nil)) (.cons (.atom trivial rfl) .nil))

theorem fits_assigning (x : Symbol) :
    (Form.function none ⟨[], 0, false⟩ [assigningForm x]).Fits := by
  refine ⟨by simp [assigningForm, Form.functionWords, Form.bodyWords, Form.words, Form.wordsAll],
    indexable_of_length_le (by simp [Form.bodyKeys, Form.keysAll, assigningForm, Form.keys,
      Key.ofParameters]), ?_, trivial⟩
  refine ⟨⟨?_, ?_, ⟨trivial, trivial, trivial⟩, trivial⟩, trivial, trivial⟩
  · simp [Form.functionWords, Form.bodyWords, Form.words]
  · exact indexable_of_length_le (by simp [Form.bodyKeys, Form.keysAll, Form.keys,
      Key.ofParameters])

end Compiler

end StackLisp
