import StackLisp.Proofs.Block
import StackLisp.Proofs.Builtins
import StackLisp.Proofs.Emission
import StackLisp.Proofs.Roundtrip

/-!
# Compiling with evaluators that agree

The compiler asks an evaluator only to call macros, on forms that may be passed to them. So with
evaluators that agree it does the same, and what it compiles may be called.

- `Assembly.fine_assemble`: code for terms refers to no undefined label;
- `Compiler.Policy.proper`: compiling proper forms needs only proper values;
- `Compiler.agrees_compileThunk`: compiling a form agrees.
-/

namespace StackLisp

/-! ## Labels -/

/-- The labels that a program jumps to. -/
def jumpIds (program : List Instruction) : List UInt16 :=
  program.filterMap fun
    | .jump id | .jumpIfNot id => some id
    | _ => none

theorem mem_jumpIds {program : List Instruction} {id : UInt16} :
    id ∈ jumpIds program ↔ Assembly.JumpsTo program id := by
  constructor
  · intro h
    obtain ⟨i, hi, hid⟩ := List.mem_filterMap.1 h
    cases i <;> simp at hid <;> subst hid
    · exact .inl hi
    · exact .inr hi
  · rintro (h | h)
    · exact List.mem_filterMap.2 ⟨_, h, rfl⟩
    · exact List.mem_filterMap.2 ⟨_, h, rfl⟩

theorem jumpIds_append (a b : List Instruction) :
    jumpIds (a ++ b) = jumpIds a ++ jumpIds b :=
  List.filterMap_append

/-- Two parts that jump to their own labels do so together. -/
theorem jumpIds_append_subset {a b : List Instruction} (ha : jumpIds a ⊆ labelIds a)
    (hb : jumpIds b ⊆ labelIds b) : jumpIds (a ++ b) ⊆ labelIds (a ++ b) := by
  rw [jumpIds_append, labelIds_append]
  exact List.append_subset.2
    ⟨List.subset_append_of_subset_left _ ha, List.subset_append_of_subset_right _ hb⟩

/-- Code for terms jumps only to labels that it defines. -/
theorem Emits.jumpIds_subset {pool : Array Value} {terms : List Term} {program : List Instruction}
    (h : Emits pool terms program) : jumpIds program ⊆ labelIds program := by
  induction h with
  | nil => exact List.Subset.refl _
  | constant _ _ ih => exact ih
  | lookup _ _ ih => exact ih
  | function _ _ ih => exact ih
  | @conditional _ _ _ _ otherwise done a b c after _ _ _ _ iha ihb ihc ih =>
    -- both jumps lead to labels of the conditional itself; the parts bring their own
    refine jumpIds_append_subset iha fun id hid => ?_
    have hjumps : id = otherwise ∨ id ∈ jumpIds b ∨ id = done ∨ id ∈ jumpIds c ∨
        id ∈ jumpIds after := by
      simpa [jumpIds] using hid
    have hlabels : id ∈ labelIds b ∨ id = otherwise ∨ id ∈ labelIds c ∨ id = done ∨
        id ∈ labelIds after := by
      rcases hjumps with h | h | h | h | h
      · exact .inr (.inl h)
      · exact .inl (ihb h)
      · exact .inr (.inr (.inr (.inl h)))
      · exact .inr (.inr (.inl (ihc h)))
      · exact .inr (.inr (.inr (.inr (ih h))))
    simpa [labelIds] using hlabels
  | @assignment i way _ _ _ _ _ _ _ _ iha ih =>
    cases way
    · exact jumpIds_append_subset iha ih
    · exact jumpIds_append_subset iha ih
  | call _ _ _ iha ih => exact jumpIds_append_subset iha ih

theorem EmitsBody.jumpIds_subset {pool : Array Value} {body : List Term}
    {program : List Instruction} (h : EmitsBody pool body program) :
    jumpIds program ⊆ labelIds program := by
  induction h with
  | last h => exact jumpIds_append_subset h.jumpIds_subset (List.Subset.refl _)
  | cons h _ ih => exact jumpIds_append_subset h.jumpIds_subset ih

/-- A program that defines each label it jumps to is refused only if it is too long. -/
theorem Assembly.fine_assemble {program : List Instruction}
    (hjumps : jumpIds program ⊆ labelIds program) : Fine (fun _ => True) (assemble program) := by
  rcases Nat.lt_or_ge 65535 (length program) with hlong | hfits
  · rw [assemble_of_lt_length hlong]
    trivial
  · obtain ⟨code, hcode, -⟩ | ⟨id, hjump, hmissing, -⟩ := assemble_cases hfits
    · rw [hcode]
      trivial
    · exact absurd (mem_labelIds.1 (hjumps (mem_jumpIds.2 hjump))) hmissing

/-! ## What the compiler refuses -/

namespace Compiler

theorem fine_pushAt (b : Builder) (place : Nat) : Fine (fun _ => True) (b.pushAt place) := by
  unfold Builder.pushAt
  split <;> trivial

theorem fine_parseOnto (rest : Symbol) (reversed : List Symbol) (items : List Value) :
    Fine (fun _ => True) (Parameters.parseOnto rest reversed items) := by
  induction items generalizing reversed with
  | nil => trivial
  | cons item items ih =>
    refine (fine_expectSymbol item).bind fun symbol _ => ?_
    split
    · split
      · trivial
      · refine (fine_expectSymbol _).bind fun _ _ => ?_
        split <;> trivial
    · exact ih _

theorem fine_parse (k : Keywords) (items : List Value) :
    Fine (fun _ => True) (FunctionLiteral.parse k items) := by
  have hunnamed : ∀ (name : Option Symbol) (items : List Value),
      Fine (fun _ => True) (FunctionLiteral.parseUnnamed k name items) := by
    intro name items
    match items with
    | [] => trivial
    | parameters :: body =>
      exact (fine_expectItems parameters).bind fun _ _ =>
        (fine_parseOnto _ _ _).bind fun _ _ => trivial
  unfold FunctionLiteral.parse
  split <;> exact hunnamed _ _

theorem fine_ofForm [Unbound] {n : Nat} (k : Keywords) {form : Value} (h : form.Proper n) :
    Fine (fun literal => literal.Complete ∧ ∀ v ∈ literal.body, v.Proper n)
      (FunctionLiteral.ofForm k form) := by
  have hfine : Fine (fun _ => True) (FunctionLiteral.ofForm k form) := by
    refine (fine_expectItems form).bind fun items _ => ?_
    match items with
    | [] => trivial
    | head :: items =>
      dsimp only
      split
      · exact fine_parse k items
      · trivial
  refine hfine.self.mono fun literal hread => ⟨FunctionLiteral.complete_of_ofForm hread, ?_⟩
  intro v hv
  obtain ⟨ref, head, others, rfl, hshape⟩ := FunctionLiteral.ofForm_eq_ok_iff.1 hread
  rcases Shape.mem_of_mem_parts (Shape.ofItems_eq_ok_iff.2 hshape) hv with rfl | hmem
  · exact .nil
  · exact Value.proper_list_iff.1 h v hmem

/-- A list whose meaning cannot be read is at fault itself. -/
theorem fine_ofItems (k : Keywords) (head : Value) (others : List Value) :
    Fine (fun _ => True) (Shape.ofItems k head others) := by
  have hpart : ∀ form what place, Fine (fun _ => True) (Shape.part form what others place) := by
    intro form what place
    unfold Shape.part
    split <;> trivial
  have hassign : ∀ way, Fine (fun _ => True) (Shape.ofAssignment way others) := fun way =>
    (hpart _ _ _).bind fun _ _ => (fine_expectSymbol _).bind fun _ _ =>
      (hpart _ _ _).bind fun _ _ => trivial
  have hmap : ∀ {α : Type} {r : Except Error α} {f : α → Shape}, Fine (fun _ => True) r →
      Fine (fun _ => True) (r.map f) := by
    intro α r f h
    cases r <;> exact h
  rw [Shape.ofItems_eq]
  split
  · exact hmap (fine_parse k others)
  · exact hmap (hpart _ _ _)
  · exact (hpart _ _ _).bind fun _ _ => (hpart _ _ _).bind fun _ _ => trivial
  · exact hassign _
  · trivial

end Compiler

/-! ## Expansion -/

namespace Agrees

variable [Unbound] {κ : Leeway} {α : Type} {t : Engine}

/-- Some of the first followers may have no fuel at all. -/
theorem starve {X X' : Nat → Eval α} {y : Eval α} {Q : α → Engine → Prop}
    (h : Agrees κ t X y Q) (enough : Nat)
    (hx : ∀ i, X' i = X i ∨ i < enough ∧ ∀ s, Spent (X' i s).1) : Agrees κ t X' y Q := by
  refine ⟨h.safe, fun hs hf => ?_⟩
  obtain ⟨hspent, hends⟩ := h.tracks hs hf
  refine ⟨fun hy i hi s hlike => ?_, fun hy => ?_⟩
  · rcases hx i with heq | ⟨-, hnone⟩
    · rw [heq]
      exact hspent hy i hi s hlike
    · exact .inr (hnone s)
  · obtain ⟨enough', hends⟩ := hends hy
    refine ⟨max enough enough', fun i s hlike => ?_⟩
    rcases hx i with heq | ⟨hlt, hnone⟩
    · rw [heq]
      rcases hends i s hlike with h | ⟨hlt, h⟩ | h
      · exact .inl (h.mono (le_max_right _ _))
      · exact .inr (.inl ⟨lt_max_of_lt_right hlt, h⟩)
      · exact .inr (.inr h)
    · exact .inr (.inl ⟨lt_max_of_lt_left hlt, hnone s⟩)

/-- A leader without fuel is joined by followers without fuel. -/
theorem spent {X : Nat → Eval α} (hx : ∀ i ≤ κ.patience, ∀ s, Spent (X i s).1)
    (Q : α → Engine → Prop) : Agrees κ t X (throw .outOfFuel) Q where
  safe := fun hs _ => ⟨.refl t, hs, trivial⟩
  tracks _ _ := ⟨fun _ i hi s _ => .inr (hx i hi s), fun h => absurd rfl h⟩

end Agrees

namespace Compiler

open Eval

variable [Unbound] {κ : Leeway} {X : Nat → Evaluator} {y : Evaluator} {t : Engine} {k : Keywords}

theorem agrees_expandOnce (hev : Evaluator.Agree κ X y) (k : Keywords) {form : Value}
    (hform : form.Proper t.envs.size) :
    Agrees κ t (fun i => expandOnce (X i) k form) (expandOnce y k form) ProperResult := by
  refine .reading (fun _ _ _ _ _ _ => rfl) ?_
  refine .of_sound fun hs _ => ?_
  cases hcall : macroCall? k t form with
  | none => exact .pure fun _ => hform
  | some call =>
    obtain ⟨c, args⟩ := call
    -- the macro is a global value, and its arguments are items of the form
    obtain ⟨hc, hargs⟩ : (Value.closure c).Proper t.envs.size ∧
        ∀ v ∈ args, v.Proper t.envs.size := by
      unfold macroCall? at hcall
      split at hcall
      · split at hcall
        · cases hcall
        · split at hcall
          · rename_i hglobal
            split at hcall
            · cases hcall
              exact ⟨hs.globals hglobal, (List.forall_mem_cons.1 (Value.proper_list_iff.1 hform)).2⟩
            · cases hcall
          · cases hcall
      · cases hcall
    exact hev.apply hc.callable hargs

/-- Expansions agree, with fuels that agree. -/
theorem agrees_expandWithin (hev : Evaluator.Agree κ X y) (k : Keywords) {fuel : Nat}
    {fuels : Nat → Nat} (hfuel : ∃ enough, ∀ i, enough ≤ i → fuel ≤ fuels i)
    (hpatient : ∀ i ≤ κ.patience, fuels i ≤ fuel) {form : Value}
    (hform : form.Proper t.envs.size) :
    Agrees κ t (fun i => expandWithin (X i) k (fuels i) form) (expandWithin y k fuel form)
      ProperResult := by
  induction fuel generalizing fuels t form with
  | zero =>
    refine .spent (fun i hi s => ?_) _
    rw [Nat.le_zero.1 (hpatient i hi)]
    rfl
  | succ fuel ih =>
    obtain ⟨enough, hfuel⟩ := hfuel
    -- followers that have any fuel go the same way
    have hagrees : Agrees κ t (fun i => expandOnce (X i) k form >>= fun expanded =>
        if expanded.identical form then pure expanded
        else expandWithin (X i) k (fuels i - 1) expanded) (expandWithin y k (fuel + 1) form)
        ProperResult := by
      refine .bind (agrees_expandOnce hev k hform) fun expanded t' _ _ _ hexpanded => ?_
      split
      · exact .pure fun _ => hexpanded
      · refine ih ⟨enough, fun i hi => ?_⟩ (fun i hi => ?_) hexpanded
        · have := hfuel i hi
          omega
        · have := hpatient i hi
          omega
    refine hagrees.starve enough fun i => ?_
    cases hi : fuels i with
    | succ m => exact .inl rfl
    | zero =>
      refine .inr ⟨?_, fun s => rfl⟩
      by_contra hge
      have := hfuel i (Nat.le_of_not_lt hge)
      omega

/-- Compiling proper forms needs only that macros make proper values of proper values. -/
def Policy.proper (hev : Evaluator.Agree κ X y) (k : Keywords) : Policy y k where
  World := Nat
  state n e := e.Sound ∧ e.frame ≤ e.sp ∧ e.envs.size = n
  form n v := v.Proper n
  value n v := v.Proper n
  same u v := u.identity = v.identity
  expands _ _ _ _ := True
  form_mono hnm h := h.mono hnm
  value_mono hnm h := h.mono hnm
  same_of_identity _ _ _ h := h
  parts {_ _ _ _ _ _ _ _} _ hform hshape part hpart := by
    rcases Shape.mem_of_mem_parts hshape hpart with rfl | hmem
    · exact .nil
    · exact Value.proper_list_iff.1 hform part hmem
  quoted {_ _ _ _ _ _ _ _} _ hform hshape :=
    Value.proper_list_iff.1 hform _ (List.mem_cons_of_mem _ (Shape.mem_of_quotation hshape))
  atom hform _ := hform
  symbol _ s := .symbol s
  nil _ := .nil
  fresh hs := ⟨hs.1.withStore _, hs.2⟩
  expand {n v e u e'} hs hform h := by
    obtain ⟨hs, hframe, rfl⟩ := hs
    obtain ⟨hk, hs', hu⟩ := (agrees_expandWithin hev k hev.fuel hev.patient hform).safe hs hframe
    rw [h] at hk hs' hu
    exact ⟨e'.envs.size, hk.envs, ⟨hs', hk.frame_le hframe, rfl⟩, hu, trivial⟩

/-! ## Building -/

/-- Computations that add to a function under construction agree. -/
def AgreesBuild (κ : Leeway) {α : Type} (t : Engine) (b : Builder) (F : Nat → Build α)
    (f : Build α) (Q : α → Engine → Prop) : Prop :=
  Agrees κ t (fun i => F i b) (f b) fun r e => Q r.1 e

theorem AgreesBuild.bind {α β : Type} {b : Builder} {F : Nat → Build α} {f : Build α}
    {G : Nat → α → Build β} {g : α → Build β} {Q : α → Engine → Prop} {R : β → Engine → Prop}
    (hf : AgreesBuild κ t b F f Q)
    (hg : ∀ a b' t', t.Keeps t' → t'.Sound → Q a t' →
      AgreesBuild κ t' b' (fun i => G i a) (g a) R) :
    AgreesBuild κ t b (fun i => F i >>= G i) (f >>= g) R :=
  Agrees.bind (F := fun i (r : α × Builder) => G i r.1 r.2) (G := fun r => g r.1 r.2) hf
    fun r t' _ hk hs hq => hg r.1 r.2 t' hk hs hq

theorem AgreesBuild.lift {α : Type} {b : Builder} {F : Nat → Eval α} {f : Eval α}
    {Q : α → Engine → Prop} (h : Agrees κ t F f Q) :
    AgreesBuild κ t b (fun i => liftM (F i)) (liftM f) Q :=
  Agrees.bind (F := fun _ a => Pure.pure (a, b)) h fun _ _ _ _ _ hq => .pure fun _ => hq

theorem agrees_emit (b : Builder) (i : Instruction) :
    AgreesBuild κ t b (fun _ => emit i) (emit i) AnyResult :=
  Agrees.pure fun _ => trivial

theorem agrees_constant (b : Builder) (v : Value) :
    AgreesBuild κ t b (fun _ => constant v) (constant v) AnyResult :=
  Agrees.bind (Fine.agrees (fine_pushAt _ _)) fun _ _ _ _ _ _ => .pure fun _ => trivial

theorem agrees_template (b : Builder) (c : Closure) :
    AgreesBuild κ t b (fun _ => template c) (template c) AnyResult :=
  Agrees.bind (Fine.agrees (fine_pushAt _ _)) fun _ _ _ _ _ _ => .pure fun _ => trivial

theorem agrees_label (b : Builder) : AgreesBuild κ t b (fun _ => label) label AnyResult := by
  have hfine : Fine (fun _ => True) b.label := by
    unfold Builder.label
    split <;> trivial
  exact hfine.agrees

/-- Ways of compiling forms agree. -/
def AgreeOnForms (κ : Leeway) (C : Nat → Value → Build Unit) (c : Value → Build Unit) : Prop :=
  ∀ {t : Engine} {b : Builder} {v : Value}, v.Proper t.envs.size →
    AgreesBuild κ t b (fun i => C i v) (c v) AnyResult

variable {C : Nat → Value → Build Unit} {c : Value → Build Unit} {b : Builder}

theorem agrees_forM (hc : AgreeOnForms κ C c) {items : List Value}
    (h : ∀ v ∈ items, v.Proper t.envs.size) :
    AgreesBuild κ t b (fun i => items.forM (C i)) (items.forM c) AnyResult := by
  induction items generalizing t b with
  | nil => exact Agrees.pure fun _ => trivial
  | cons v items ih =>
    rw [List.forall_mem_cons] at h
    exact (hc h.1).bind fun _ _ _ hk _ _ => ih fun w hw => (h.2 w hw).mono hk.envs

theorem agrees_compileBody (hc : AgreeOnForms κ C c) {t : Engine} {b : Builder}
    {forms : List Value} (h : ∀ v ∈ forms, v.Proper t.envs.size) :
    AgreesBuild κ t b (fun i => compileBody (C i) forms) (compileBody c forms) AnyResult := by
  match forms with
  | [] => exact agrees_constant b .nil
  | [form] => exact hc (h form (by simp))
  | form :: next :: others =>
    rw [List.forall_mem_cons] at h
    refine (hc h.1).bind fun _ b₁ t₁ hk _ _ => ?_
    refine (agrees_emit b₁ .pop).bind fun _ b₂ t₂ hk' _ _ => ?_
    exact agrees_compileBody hc fun v hv => (h.2 v hv).mono (hk.trans hk').envs

theorem agrees_compileConditional (hc : AgreeOnForms κ C c) {test consequent alternative : Value}
    (ht : test.Proper t.envs.size) (hthen : consequent.Proper t.envs.size)
    (helse : alternative.Proper t.envs.size) :
    AgreesBuild κ t b (fun i => compileConditional (C i) test consequent alternative)
      (compileConditional c test consequent alternative) AnyResult := by
  refine (agrees_label b).bind fun l b₁ t₁ k₁ _ _ => ?_
  refine (agrees_label b₁).bind fun m b₂ t₂ k₂ _ _ => ?_
  refine (hc (ht.mono (k₁.trans k₂).envs)).bind fun _ b₃ t₃ k₃ _ _ => ?_
  refine (agrees_emit b₃ _).bind fun _ b₄ t₄ k₄ _ _ => ?_
  have k := (k₁.trans k₂).trans (k₃.trans k₄)
  refine (hc (hthen.mono k.envs)).bind fun _ b₅ t₅ k₅ _ _ => ?_
  refine (agrees_emit b₅ _).bind fun _ b₆ t₆ k₆ _ _ => ?_
  refine (agrees_emit b₆ _).bind fun _ b₇ t₇ k₇ _ _ => ?_
  have k := k.trans (k₅.trans (k₆.trans k₇))
  exact (hc (helse.mono k.envs)).bind fun _ b₈ t₈ _ _ _ => agrees_emit b₈ _

theorem agrees_compileCall (hc : AgreeOnForms κ C c) {items : List Value} (argc : Nat)
    (h : ∀ v ∈ items, v.Proper t.envs.size) :
    AgreesBuild κ t b (fun i => compileCall (C i) items argc) (compileCall c items argc)
      AnyResult := by
  refine (agrees_forM hc h).bind fun _ b₁ t₁ _ _ _ => ?_
  split
  · refine AgreesBuild.bind (Q := AnyResult) (.lift (.fail (by trivial) _)) ?_
    exact fun _ b₂ _ _ _ _ => agrees_emit b₂ _
  · exact agrees_emit b₁ _

/-! ## Forms -/

/-- What is compiled may be called, but is not bound yet. -/
def TemplateResult (c : Closure) (e : Engine) : Prop :=
  c.Callable e.envs.size ∧ c.env = none

theorem agrees_compileLiteral (hev : Evaluator.Agree κ X y) (hc : AgreeOnForms κ C c)
    (hcompiles : Compiles (Policy.proper hev k) c) {literal : FunctionLiteral}
    (hcomplete : literal.Complete) (h : ∀ v ∈ literal.body, v.Proper t.envs.size) :
    Agrees κ t (fun i => compileLiteral (C i) literal) (compileLiteral c literal)
      TemplateResult := by
  refine .of_sound fun hs hf => ?_
  -- the builds agree, and that the result is callable follows from the run
  refine Agrees.strengthen (Q := AnyResult) ?_ fun template t' _ _ hrun _ => ?_
  · have hbuild : AgreesBuild κ t (.ofParameters literal.parameters.symbols)
        (fun i => do compileBody (C i) literal.body; emit .ret)
        (do compileBody c literal.body; emit .ret) AnyResult :=
      (agrees_compileBody hc h).bind fun _ b₁ _ _ _ _ => agrees_emit b₁ .ret
    refine .bind hbuild fun r t' hrun _ _ _ => ?_
    obtain ⟨-, body, -, -, -, -, hemits, -⟩ :=
      compileBody_program hcompiles ⟨hs, hf, rfl⟩ h hrun
    refine .bind (Assembly.fine_assemble hemits.jumpIds_subset).agrees fun code _ _ _ _ _ => ?_
    refine .bind (Q := AnyResult) (.blind (.onStore _) (.onStore fun _ => trivial)) ?_
    exact fun _ _ _ _ _ _ => .pure fun _ => trivial
  · obtain ⟨n, hcompiled⟩ := compileLiteral_compiled hcompiles hcomplete ⟨hs, hf, rfl⟩ h hrun
    obtain ⟨body, -, -, -, -, himplements, hfit⟩ := hcompiled.body
    have hunbound := hcompiled.heads.unbound
    obtain ⟨-, -, rfl⟩ : t'.Sound ∧ t'.frame ≤ t'.sp ∧ t'.envs.size = n := hcompiled.state
    exact ⟨⟨Fit.coded hfit himplements, by simp [hunbound]⟩, hunbound⟩

theorem agrees_compileShape (hev : Evaluator.Agree κ X y) (hc : AgreeOnForms κ C c)
    (hcompiles : Compiles (Policy.proper hev k) c) {shape : Shape}
    (hcomplete : ∀ literal, shape = .function literal → literal.Complete)
    (h : ∀ v ∈ shape.parts, v.Proper t.envs.size) :
    AgreesBuild κ t b (fun i => compileShape (C i) shape) (compileShape c shape) AnyResult := by
  match shape with
  | .function literal =>
    refine AgreesBuild.bind (.lift (agrees_compileLiteral hev hc hcompiles (hcomplete literal rfl)
      h)) fun template b₁ _ _ _ _ => ?_
    exact (agrees_template b₁ template).bind fun _ b₂ _ _ _ _ => agrees_emit b₂ _
  | .quotation v => exact agrees_constant b v
  | .conditional test consequent alternative =>
    simp only [Shape.parts, List.forall_mem_cons] at h
    exact agrees_compileConditional hc h.1 h.2.1 h.2.2.1
  | .assignment way target value =>
    refine (agrees_constant b (.symbol target)).bind fun _ b₁ t₁ hk _ _ => ?_
    have hvalue := (h value (by simp [Shape.parts])).mono hk.envs
    exact (hc hvalue).bind fun _ b₂ _ _ _ _ => agrees_emit b₂ _
  | .call callee args => exact agrees_compileCall hc _ h

/-- Compiling a form agrees. -/
theorem agrees_compileForm (hev : Evaluator.Agree κ X y) (k : Keywords) (limit room : Nat) :
    AgreeOnForms κ (fun i => compileForm (X i) k limit room) (compileForm y k limit room) := by
  induction room with
  | zero =>
    intro t b v _
    exact AgreesBuild.lift (.fail (by trivial) _)
  | succ room ih =>
    intro t b v hv
    refine AgreesBuild.bind (.lift (agrees_expandWithin hev k hev.fuel hev.patient hv))
      fun expanded b₁ t₁ _ _ hexpanded => ?_
    have hcompiles : Compiles (Policy.proper hev k) (compileForm y k limit room) :=
      compileForm_added limit room
    cases expanded with
    | list ref head others =>
      refine AgreesBuild.bind (.lift (fine_ofItems k head others).self.agrees)
        fun shape b₂ t₂ hk _ hshape => ?_
      refine agrees_compileShape hev ih hcompiles ?_ fun part hpart => ?_
      · rintro literal rfl
        exact Shape.complete_of_ofItems hshape
      · rcases Shape.mem_of_mem_parts hshape hpart with rfl | hmem
        · exact .nil
        · exact (Value.proper_list_iff.1 hexpanded part hmem).mono hk.envs
    | symbol s =>
      exact (agrees_constant b₁ (.symbol s)).bind fun _ b₂ _ _ _ _ => agrees_emit b₂ .load
    | number | boolean | string | nil | intrinsic | closure => exact agrees_constant b₁ _

theorem agrees_compileTop (hev : Evaluator.Agree κ X y) (k : Keywords) {literal : FunctionLiteral}
    (hcomplete : literal.Complete) (h : ∀ v ∈ literal.body, v.Proper t.envs.size) :
    Agrees κ t (fun i => compileTop (X i) k literal) (compileTop y k literal) TemplateResult := by
  refine .reading (fun _ _ _ _ _ _ => rfl) ?_
  exact agrees_compileLiteral hev (agrees_compileForm hev k _ _) (compileForm_added _ _) hcomplete h

/-- Compiling a proper form as a function without parameters agrees. -/
theorem agrees_compileThunk (hev : Evaluator.Agree κ X y) {form : Value}
    (h : form.Proper t.envs.size) :
    Agrees κ t (fun i => compileThunk (X i) form) (compileThunk y form) TemplateResult := by
  refine .bind (Q := AnyResult) (.blind (.onStore _) (.onStore fun _ => trivial))
    fun k t' _ hk _ _ => ?_
  refine agrees_compileTop hev k (FunctionLiteral.complete_thunk _) fun v hv => ?_
  exact List.mem_singleton.1 hv ▸ h.mono hk.envs

/-- Compiling a proper form as a function literal agrees. -/
theorem agrees_compileFunction (hev : Evaluator.Agree κ X y) {form : Value}
    (h : form.Proper t.envs.size) :
    Agrees κ t (fun i => compileFunction (X i) form) (compileFunction y form) TemplateResult := by
  refine .bind (Q := AnyResult) (.blind (.onStore _) (.onStore fun _ => trivial))
    fun k t₁ _ hk _ _ => ?_
  refine .bind (fine_ofForm k (h.mono hk.envs)).agrees fun literal t₂ _ hk' _ hliteral => ?_
  exact agrees_compileTop hev k hliteral.1 fun v hv => (hliteral.2 v hv).mono hk'.envs

/-- Expanding a proper form agrees. -/
theorem agrees_expand (hev : Evaluator.Agree κ X y) {form : Value}
    (h : form.Proper t.envs.size) :
    Agrees κ t (fun i => expand (X i) form) (expand y form) ProperResult := by
  refine .bind (Q := AnyResult) (.blind (.onStore _) (.onStore fun _ => trivial))
    fun k t' _ hk _ _ => ?_
  exact agrees_expandWithin hev k hev.fuel hev.patient (h.mono hk.envs)

end Compiler

end StackLisp
