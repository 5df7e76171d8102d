import StackLisp.Proofs.Reached

/-!
# Sessions never break the machine

A host program builds an interpreter, registers functions, evaluates texts, files and forms that it
has read, and resets, in any order. Whatever it evaluates, only such errors come out as a program
can be at fault for, and at no time in between is the machine in a state that it cannot go on from.

- `Session`: the engines that a host program comes by;
- `Requested`, `Occurs`: what is asked, and which machine states there are, in the course of
  sessions;
- `Session.reached`, `Requested.reached`, `Occurs.working`: all of these engines and machines are
  reached;
- `session_never_breaks`: neither a whole evaluation nor a single step of one breaks the machine.
-/

namespace StackLisp

open Eval

attribute [local instance] Unbound.never

/-! ## Sessions -/

/-- The engines that a host program comes by. It evaluates texts, files, and forms without closures,
such as those that it has read. The files that programs can load may change at any time. -/
inductive Session : Engine → Prop
  | bare (setup : Setup) (files : String → FileAnswer) : Session (Interpreter.bare setup files)
  | registerHost {e : Engine} (name : String) {function : HostFunction} : Session e →
      function.Behaves → Session (e.registerHost name function)
  | files {e : Engine} (files : String → FileAnswer) : Session e → Session { e with files }
  | takeOutput {e : Engine} : Session e → Session (Interpreter.takeOutput e).2
  | reset {e : Engine} : Session e → Session e.reset
  | read {e : Engine} (text : String) : Session e → Session (Interpreter.read text e).2
  | evalText {e : Engine} (fuel : Nat) (text : String) : Session e →
      Session (Interpreter.evalText fuel text e).2
  | evalFile {e : Engine} (fuel : Nat) (path : String) : Session e →
      Session (Interpreter.evalFile fuel path e).2
  | evalForm {e : Engine} (fuel : Nat) {form : Value} : Session e → form.Proper 0 →
      Session (Interpreter.evalForm fuel form e).2
  | loadText {e : Engine} (fuel : Nat) (text : String) : Session e →
      Session (Machine.loadText (Machine.evaluator fuel) text e).2

/-! ## What happens in sessions -/

mutual

/-- In the course of a session, the machine's evaluator is asked for something at an engine, when it
has a certain amount of fuel. -/
inductive Requested : (fuel : Nat) → Request → Engine → Prop
  | text {e t : Engine} {fuel : Nat} {text : String} {request : Request} : Session e →
      Asks (Machine.loadText · text) (Machine.evaluator fuel) e request t →
      Requested fuel request t
  | form {e t : Engine} {fuel : Nat} {form : Value} {request : Request} : Session e →
      form.Proper 0 → Asks (Machine.evalForm · form) (Machine.evaluator fuel) e request t →
      Requested fuel request t
  | file {e t : Engine} {fuel : Nat} {path : String} {request : Request} : Session e →
      Asks (Machine.loadFile · path) (Machine.evaluator fuel) e request t →
      Requested fuel request t
  /-- A file that a program loads. -/
  | load {e t : Engine} {fuel : Nat} {path : String} {request : Request} :
      Requested (fuel + 1) (.loadFile path) e →
      Asks (Machine.loadFile · path) (Machine.evaluator fuel) e request t →
      Requested fuel request t
  /-- An intrinsic function that a machine calls. -/
  | step {e t : Engine} {fuel home : Nat} {a : Activation} {request : Request} :
      Occurs fuel home e a →
      Asks (Machine.step · home a) (Machine.evaluator fuel) e request t →
      Requested fuel request t

/-- In the course of a session, there is a machine at work, with calls since frame pointer
`home`. -/
inductive Occurs : (fuel home : Nat) → Engine → Activation → Prop
  | start {e e' : Engine} {fuel : Nat} {c : Closure} {args : List Value} {a : Activation} :
      Requested (fuel + 1) (.apply c args) e → e.depth < e.limits.maxApplyDepth →
      Machine.start c args { e with depth := e.depth + 1 } = (.ok a, e') →
      Occurs fuel e.frame e' a
  | step {e e' : Engine} {fuel home : Nat} {a a' : Activation} : Occurs fuel home e a →
      Machine.step (Machine.evaluator fuel) home a e = (.ok (.running a'), e') →
      Occurs fuel home e' a'

end

/-- The engines of a session are reached. -/
theorem Session.reached {e : Engine} (h : Session e) : Reached e := by
  -- an evaluation that fails is a task and then a reset
  have hresetting : ∀ (task : Task) {fuel : Nat} {e : Engine}, Reached e →
      task.Allowed e.envs.size →
      Reached (Interpreter.resetting (task.run (Machine.evaluator fuel)) e).2 := by
    intro task fuel e he htask
    have hdone := he.done fuel task htask
    unfold Interpreter.resetting
    split
    all_goals
      rename_i heq
      rw [heq] at hdone
    · exact hdone
    · exact hdone.reset
  induction h with
  | bare setup files => exact .bare setup files
  | registerHost name _ hb ih => exact .registerHost name ih hb
  | files files _ ih => exact .files files ih
  | takeOutput _ ih => exact .takeOutput ih
  | reset _ ih => exact .reset ih
  | read text _ ih => exact .read text ih
  | evalText fuel text _ ih => exact hresetting (.loadText text) ih trivial
  | evalFile fuel path _ ih => exact hresetting (.loadFile path) ih trivial
  | @evalForm e fuel form _ hform ih =>
    exact hresetting (.evalForm form) ih (hform.mono (Nat.zero_le _))
  | loadText fuel text _ ih => exact .done fuel (.loadText text) ih trivial

/-- Code may be run on every engine of a session. -/
theorem Session.usable {e : Engine} (h : Session e) : e.Usable :=
  h.reached.usable

mutual

/-- Whatever is asked for in the course of a session is allowed, at an engine that is reached. -/
theorem Requested.reached {fuel : Nat} {request : Request} {t : Engine} :
    Requested fuel request t → Reached t ∧ request.Allowed t.envs.size
  | @Requested.text _ _ _ text _ he ha =>
    ⟨.asked (.loadText text) he.reached trivial ha,
      (Task.allowed_of_asks (.loadText text) he.usable trivial ha).2⟩
  | @Requested.form _ _ _ form _ he hform ha =>
    ⟨.asked (.evalForm form) he.reached (hform.mono (Nat.zero_le _)) ha,
      (Task.allowed_of_asks (.evalForm form) he.usable (hform.mono (Nat.zero_le _)) ha).2⟩
  | @Requested.file _ _ _ path _ he ha =>
    ⟨.asked (.loadFile path) he.reached trivial ha,
      (Task.allowed_of_asks (.loadFile path) he.usable trivial ha).2⟩
  | @Requested.load _ _ _ path _ he ha =>
    ⟨.asked (.loadFile path) he.reached.1 trivial ha,
      (Task.allowed_of_asks (.loadFile path) he.reached.1.usable trivial ha).2⟩
  | .step ho ha => by
    obtain ⟨floor, hcoherent, hroom⟩ := ho.working.coherent
    exact ⟨.stepAsked ho.working ha, (hcoherent.allowed_of_asks hroom ha).2⟩

/-- The machines in the course of a session are machines at work. -/
theorem Occurs.working {fuel home : Nat} {e : Engine} {a : Activation} :
    Occurs fuel home e a → Working fuel home e a
  | .start hr hdepth hstart => .start hr.reached.1 hr.reached.2.1 hr.reached.2.2 hdepth hstart
  | .step ho hstep => .step ho.working hstep

end

/-- Whatever is asked for in the course of a session is allowed. -/
theorem Requested.allowed {fuel : Nat} {request : Request} {t : Engine}
    (h : Requested fuel request t) : t.Usable ∧ request.Allowed t.envs.size :=
  ⟨h.reached.1.usable, h.reached.2⟩

/-- Every machine at work in the course of a session is coherent. -/
theorem Occurs.coherent {fuel home : Nat} {e : Engine} {a : Activation}
    (h : Occurs fuel home e a) : ∃ floor, Coherent home floor e a := by
  obtain ⟨floor, hcoherent, -⟩ := h.working.coherent
  exact ⟨floor, hcoherent⟩

/-! ## Nothing breaks -/

/-- The result is not an error that shows a broken machine. -/
def Unbroken {α : Type} (r : Except Stop α) : Prop :=
  ∀ stop, r = .error stop → stop.Tame

theorem Eval.Safe.unbroken {α : Type} {e : Engine} {x : Eval α} {Q : α → Engine → Prop}
    (h : x.Safe e Q) (he : e.Usable) : Unbroken (x e).1 := by
  intro stop heq
  obtain ⟨-, -, hq⟩ := h he.sound he.frame_le
  rw [heq] at hq
  exact hq

theorem unbroken_resetting {α : Type} {x : Eval α} {e : Engine} (h : Unbroken (x e).1) :
    Unbroken (Interpreter.resetting x e).1 := by
  unfold Interpreter.resetting
  split
  all_goals
    rename_i heq
    rw [heq] at h
    exact h

theorem Coherent.Leads.unbroken {home floor : Nat} {e : Engine}
    {o : Except Stop CallFrame.Progress × Engine} (h : Leads home floor e o) : Unbroken o.1 := by
  intro stop heq
  obtain ⟨r, e'⟩ := o
  cases heq
  exact h.2.2

theorem Requested.unbroken_start {fuel : Nat} {c : Closure} {args : List Value} {e : Engine}
    (h : Requested (fuel + 1) (.apply c args) e) :
    Unbroken (Machine.start c args { e with depth := e.depth + 1 }).1 := by
  obtain ⟨husable, hc, hargs⟩ := h.allowed
  have husable' := husable.withDepth (e.depth + 1)
  intro stop heq
  have hstart := Machine.start_coherent husable'.sound husable'.frame_le hc hargs
  rw [show Machine.start c args { e with depth := e.depth + 1 } = (.error stop, _) from
    Prod.ext heq rfl] at hstart
  exact hstart.2.2

/-- Building an interpreter starts a session. -/
theorem Session.build {fuel : Nat} {setup : Setup} {files : String → FileAnswer} {e : Engine}
    (h : Interpreter.build fuel setup files = .ok e) : Session e := by
  have hbare := Session.bare setup files
  unfold Interpreter.build at h
  dsimp only at h
  split at h
  · have hprelude := (hbare.loadText fuel StackLisp.prelude).reset
    split at h
    · rename_i heq
      rw [heq] at hprelude
      cases h
      exact hprelude
    · cases h
  · cases h
    exact hbare

theorem unbroken_build (fuel : Nat) (setup : Setup) (files : String → FileAnswer) :
    Unbroken (Interpreter.build fuel setup files) := by
  have hload := (Machine.agrees_loadText (Machine.safe_evaluator fuel).agree
    (Interpreter.bare setup files) StackLisp.prelude).safe.unbroken
    (Interpreter.usable_bare setup files)
  intro stop heq
  unfold Interpreter.build at heq
  dsimp only at heq
  split at heq
  · split at heq
    · cases heq
    · rename_i hrun
      cases heq
      rw [hrun] at hload
      exact hload stop rfl
  · cases heq

theorem unbroken_read (text : String) (e : Engine) : Unbroken (Interpreter.read text e).1 := by
  intro stop heq
  have hfine := Datum.fine_readOne 0 e.store text
  unfold Interpreter.read at heq
  split at heq
  · cases heq
  · rename_i hread
    cases heq
    rw [hread] at hfine
    exact hfine

/-- No evaluation in a session fails because of a broken machine, and neither does any start of a
call or any step of the machine on the way. -/
theorem session_never_breaks {e : Engine} (h : Session e) (fuel : Nat) :
    (∀ text, Unbroken (Interpreter.evalText fuel text e).1) ∧
    (∀ form : Value, form.Proper 0 → Unbroken (Interpreter.evalForm fuel form e).1) ∧
    (∀ path, Unbroken (Interpreter.evalFile fuel path e).1) ∧
    (∀ text, Unbroken (Machine.loadText (Machine.evaluator fuel) text e).1) ∧
    (∀ text, Unbroken (Interpreter.read text e).1 ∧
      ∀ form, (Interpreter.read text e).1 = .ok form → form.Proper 0) ∧
    (∀ setup files, Unbroken (Interpreter.build fuel setup files) ∧
      ∀ t, Interpreter.build fuel setup files = .ok t → Session t) ∧
    (∀ c args t, Requested (fuel + 1) (.apply c args) t →
      Unbroken (Machine.start c args { t with depth := t.depth + 1 }).1) ∧
    (∀ home t a, Occurs fuel home t a →
      Unbroken (Machine.step (Machine.evaluator fuel) home a t).1) := by
  have hev := (Machine.safe_evaluator fuel).agree
  have he := h.usable
  have hload : ∀ text, Unbroken (Machine.loadText (Machine.evaluator fuel) text e).1 :=
    fun text => (Machine.agrees_loadText hev e text).safe.unbroken he
  refine ⟨fun text => unbroken_resetting (hload text), fun form hform => unbroken_resetting ?_,
    fun path => unbroken_resetting ?_, hload,
    fun text => ⟨unbroken_read text e, fun form hread => ?_⟩,
    fun setup files => ⟨unbroken_build fuel setup files, fun _ => .build⟩,
    fun c args t ht => ht.unbroken_start, fun home t a ht => ?_⟩
  · exact (Machine.agrees_evalForm hev (hform.mono (Nat.zero_le _))).safe.unbroken he
  · exact (Machine.agrees_loadFile hev e path).safe.unbroken he
  · exact Interpreter.proper_of_read (Prod.ext hread rfl)
  · obtain ⟨floor, hcoherent⟩ := ht.coherent
    exact (Machine.step_coherent (Machine.safe_evaluator fuel) hcoherent).unbroken

/-- A session with a function of the host, which forgets its arguments. -/
theorem session_never_breaks_host : ∃ e, Session e ∧
    ∀ fuel text, Unbroken (Interpreter.evalText fuel text e).1 := by
  have hbehaves : (HostFunction.mk fun _ => pure .nil).Behaves := fun _ _ _ _ => .nil
  have hsession := (Session.bare {} fun _ => .unread).registerHost "forget" hbehaves
  exact ⟨_, hsession, fun fuel => (session_never_breaks hsession fuel).1⟩

end StackLisp
