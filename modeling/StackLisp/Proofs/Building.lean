import StackLisp.Proofs.Concatenation
import StackLisp.Proofs.Definitions

/-!
# Building engines

An engine that is built with the prelude has all of its definitions.

- `Engine.Loaded.delivers_evalForm`: one form of the prelude loads one definition;
- `Engine.Loaded.delivers_loadTokens`: so do the forms one after the other;
- `Interpreter.build_cases`: with enough of everything an engine is built, and what is built has
  the whole library.
-/

namespace StackLisp

namespace Engine.Loaded

variable {n : Nat} {e : Engine} (h : e.Loaded n) (hidle : e.Idle)
include h hidle

/-- Evaluating the next form of the prelude loads the next definition. -/
theorem delivers_evalForm {x : Expression} (hx : Vocabulary.forms[n]? = some x)
    {texts : Ref → Option String}
    (htexts : ∀ ref text, texts ref = some text → ref < e.store.nextRef)
    {v : Value} (hv : v.Written texts e.store.symbols x.phrase) (fuel : Nat) :
    Delivers (Enough fuel e.limits)
      (fun _ r => r.Loaded (n + 1) ∧ r.Idle ∧ r.limits = e.limits ∧ 0 < r.limits.maxApplyDepth)
      (Machine.evalForm (Machine.evaluator fuel) v e) := by
  obtain ⟨d, hd, hcore⟩ := Vocabulary.core_forms hx
  have hsmall : x.weight ≤ 250 := Vocabulary.weight_forms_le (List.mem_of_getElem? hx)
  refine
    (h.delivers_compileThunk hidle htexts (Vocabulary.wellNamed_forms hx) hv hsmall fuel).bind ?_
  rintro c e' ⟨hsince, hc⟩
  exact h.delivers_apply hd hsince hcore hc fuel

/-- Loading what is left of the prelude loads all of its definitions. -/
theorem delivers_loadTokens (hn : n ≤ Vocabulary.phrases.length) {ts : List Located}
    (hts : Phrase.SpeltEach (Vocabulary.phrases.drop n) ts) (last : Value) (fuel : Nat) :
    Delivers (Enough fuel e.limits)
      (fun _ r => r.Loaded Vocabulary.phrases.length ∧ r.Idle ∧ r.limits = e.limits ∧
        (n < Vocabulary.phrases.length → 0 < r.limits.maxApplyDepth))
      (Machine.loadTokens (Machine.evaluator fuel) last ts e) := by
  -- along the phrases that are left, with one more definition loaded at each step
  generalize hps : Vocabulary.phrases.drop n = ps at hts
  induction hts generalizing n e last with
  | nil =>
    obtain rfl : n = Vocabulary.phrases.length := le_antisymm hn (List.drop_eq_nil_iff.1 hps)
    rw [Machine.loadTokens_nil]
    exact .of_ok ⟨h, hidle, rfl, fun hlt => absurd hlt (Nat.lt_irrefl _)⟩
  | @cons p ps ts us hp _ ih =>
    have hphrase : Vocabulary.phrases[n]? = some p := by
      rw [← Nat.add_zero n, ← List.getElem?_drop, hps]
      rfl
    obtain ⟨x, hx, rfl⟩ := Option.map_eq_some_iff.1 (List.getElem?_map.symm.trans hphrase)
    have hnext : Datum.next e.store (ts ++ us) = some {
        result := .ok (x.phrase.read e.store).1, rest := us, store := (x.phrase.read e.store).2 } :=
      Datum.next_eq_ok_iff.2 ⟨_, ts, rfl, hp, rfl⟩
    rw [Machine.loadTokens_of_form hnext rfl]
    obtain ⟨hreads, texts, htexts, hwritten⟩ := Phrase.exists_written e.store x.phrase
    have hread := h.gains (Gains.store hreads)
    refine (hread.delivers_evalForm ⟨hidle.sp, hidle.frame, hidle.depth⟩ hx htexts hwritten
      fuel).bind fun v r ⟨hloaded, hidle', hlimits, hdepth⟩ => ?_
    have hlt : n < Vocabulary.phrases.length := (List.getElem?_eq_some_iff.1 hphrase).1
    have hrest := ih hloaded hidle' hlt v (by rw [← List.tail_drop, hps, List.tail_cons])
    rw [hlimits] at hrest hdepth
    exact hrest.mono fun _ r' ⟨hall, hlast, hsame, _⟩ =>
      ⟨hall, hlast, hsame, fun _ => hsame.symm ▸ hdepth⟩

end Engine.Loaded

namespace Interpreter

/-- Registering functions changes neither the limits nor the stack. -/
theorem idle_foldl_register {e : Engine} (h : e.Idle) (functions : List Intrinsic) :
    (functions.foldl Engine.register e).Idle ∧
      (functions.foldl Engine.register e).limits = e.limits := by
  induction functions generalizing e with
  | nil => exact ⟨h, rfl⟩
  | cons f functions ih => exact ih (e := e.register f) ⟨h.sp, h.frame, h.depth⟩

theorem idle_bare (setup : Setup) (files : String → FileAnswer) :
    (bare setup files).Idle ∧ (bare setup files).limits = setup.limits := by
  rw [bare]
  split
  · exact idle_foldl_register ⟨rfl, rfl, rfl⟩ _
  · exact ⟨⟨rfl, rfl, rfl⟩, rfl⟩

/-- With enough of everything an engine is built, and what is built has the whole library. -/
theorem build_cases {setup : Setup} (hbuiltins : setup.builtins = true)
    (hprelude : setup.prelude = true) (files : String → FileAnswer) (fuel : Nat) :
    (∃ e, build fuel setup files = .ok e ∧ e.Loaded Vocabulary.phrases.length ∧ e.Idle ∧
        e.limits = setup.limits ∧ 0 < e.limits.maxApplyDepth) ∨
      ¬ Enough fuel setup.limits ∧ ∃ stop, build fuel setup files = .error stop := by
  obtain ⟨hidle, hlimits⟩ := idle_bare setup files
  obtain ⟨ts, hscan, hspelt⟩ := Vocabulary.scan_prelude
  have hloaded := Engine.Loaded.bare hbuiltins files
  rw [build, hbuiltins, hprelude, Bool.and_self, if_pos rfl]
  generalize bare setup files = e at hidle hlimits hloaded
  have hload : Machine.loadText (Machine.evaluator fuel) prelude e =
      Machine.loadTokens (Machine.evaluator fuel) .nil ts e := by
    rw [Machine.loadText, hscan, Eval.bind_of_ok (Eval.ofExcept_ok ts e)]
  rw [hload, ← hlimits]
  obtain ⟨v, r, hrun, hloaded', -, hlimits', hdepth⟩ | ⟨hnot, stop, r, hrun⟩ :=
    hloaded.delivers_loadTokens hidle (Nat.zero_le _) hspelt .nil fuel
  · rw [hrun]
    have hsome : 0 < Vocabulary.phrases.length := Nat.succ_pos _
    exact .inl ⟨_, rfl, hloaded'.of_core (t := r) rfl, ⟨rfl, rfl, rfl⟩, hlimits', hdepth hsome⟩
  · rw [hrun]
    exact .inr ⟨hnot, stop, rfl⟩

/-- What is built has the whole library. -/
theorem loaded_of_build {setup : Setup} (hbuiltins : setup.builtins = true)
    (hprelude : setup.prelude = true) {files : String → FileAnswer} {fuel : Nat} {e : Engine}
    (hbuild : build fuel setup files = .ok e) :
    e.Loaded Vocabulary.phrases.length ∧ e.Idle ∧ 0 < e.limits.maxApplyDepth := by
  obtain ⟨e', hbuild', hloaded, hidle, -, hdepth⟩ | ⟨-, stop, hbuild'⟩ :=
    build_cases hbuiltins hprelude files fuel
  · cases hbuild.symm.trans hbuild'
    exact ⟨hloaded, hidle, hdepth⟩
  · cases hbuild.symm.trans hbuild'

/-- A setup with a stack on which the prelude is loaded whatever its code does there. -/
def roomy : Setup := { limits := { maxSlots := 20000000 } }

theorem exists_build_roomy (files : String → FileAnswer) : ∃ e, build 301 roomy files = .ok e := by
  obtain ⟨e, hbuild, -⟩ | ⟨hnot, -⟩ := @build_cases roomy rfl rfl files 301
  · exact ⟨e, hbuild⟩
  · exact absurd ⟨by decide, by decide, by decide, by decide⟩ hnot

end Interpreter

end StackLisp
