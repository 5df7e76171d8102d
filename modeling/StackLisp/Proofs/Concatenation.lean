import StackLisp.Proofs.Balanced
import StackLisp.Proofs.Verified

/-!
# Loading texts one behind the other

A text is split into tokens as a whole, but its forms are read one by one, and each is evaluated
before the next one is read. So a text can be cut at the end of a line between two forms: loading
the first part and then the second part is loading the whole.

- `Datum.next_append`: a datum is read the same way when further tokens follow, unless it was
  unfinished;
- `Datum.next_down`: further down in a text, only the lines in the reader's complaints differ;
- `Machine.loadTokens_append`: tokens are loaded by loading a first part of them and then the rest;
- `loading_is_compositional`: the same of texts.
-/

namespace StackLisp

/-! ## Reading in front of further tokens -/

namespace Datum

variable {quote : Symbol} {store : Store} {levels : List Level}

/-- A reading that does not run out of tokens leaves those that follow alone. -/
theorem readWith_append {ts : List Located} (us : List Located)
    (h : ∀ what, (readWith quote store levels ts).result ≠ .error (.unfinished what)) :
    readWith quote store levels (ts ++ us) =
      { readWith quote store levels ts with
        rest := (readWith quote store levels ts).rest ++ us } := by
  induction ts generalizing store levels with
  | nil => exact absurd rfl (h (unfinished levels))
  | cons t rest ih =>
    rw [readWith] at h
    rw [List.cons_append, readWith, readWith]
    -- each token is taken with the same levels open, so only a further token can tell a difference
    cases hstep : step quote store levels t with
    | more inner after =>
      simp only [hstep] at h
      exact ih h
    | _ => rfl

/-- A datum is read the same way when further tokens follow. -/
theorem next_append {ts : List Located} {reading : Reading}
    (h : next store ts = some reading)
    (hresult : ∀ what, reading.result ≠ .error (.unfinished what)) (us : List Located) :
    next store (ts ++ us) = some { reading with rest := reading.rest ++ us } := by
  cases ts with
  | nil => cases h
  | cons t rest =>
    simp only [next, Option.some.injEq] at h
    subst h
    exact congrArg some (readWith_append us hresult)

end Datum

/-! ## Reading further down -/

/-- The same complaint about a text that starts some lines further down. Only the reader says where
something stands. -/
def Error.down (n : Nat) : Error → Error
  | .malformed (.strayClose place) => .malformed (.strayClose (place.down n))
  | .malformed (.reservedAtom atom place) => .malformed (.reservedAtom atom (place.down n))
  | error => error

namespace Datum

/-- A token has been taken some lines further down. -/
def Progress.down (n : Nat) : Progress → Progress
  | .failed error store => .failed (error.down n) store
  | .refused error store => .refused (error.down n) store
  | progress => progress

/-- A datum has been read some lines further down. -/
def Reading.down (n : Nat) (reading : Reading) : Reading :=
  { result := reading.result.mapError (Error.down n)
    rest := reading.rest.map (Located.down n)
    store := reading.store }

variable {quote : Symbol} {store : Store} {levels : List Level}

theorem down_settle (n : Nat) (quote : Symbol) (store : Store) (v : Value) (levels : List Level) :
    (settle quote store v levels).down n = settle quote store v levels := by
  obtain ⟨w, after, hdone⟩ | ⟨inner, after, hmore, -⟩ := settle_cases quote store v levels
  · rw [hdone]
    rfl
  · rw [hmore]
    rfl

theorem ofAtom_down (n : Nat) (store : Store) (atom : String) (place : Span) :
    ofAtom store atom (place.down n) = (ofAtom store atom place).mapError (Error.down n) := by
  unfold ofAtom
  repeat' split
  all_goals rfl

/-- What a token does to a reading depends on the token alone. Its place shows up in complaints
only. -/
theorem step_down (n : Nat) (t : Located) :
    step quote store levels (t.down n) = (step quote store levels t).down n := by
  have hstart : startDatum quote store levels (t.down n) =
      (startDatum quote store levels t).down n := by
    by_cases hdeep : maxDepth ≤ levels.length
    · simp [startDatum, hdeep, Progress.down, Error.down]
    -- only an atom looks at its place, which `ofAtom_down` deals with
    · rw [startDatum, startDatum, if_neg hdeep, if_neg hdeep,
        show (t.down n).token = t.token from rfl]
      cases ht : t.token with
      | leftParen | quote | rightParen => rfl
      | string text => exact (down_settle n _ _ _ _).symm
      | atom text =>
        dsimp only
        rw [show (t.down n).span = t.span.down n from rfl, ofAtom_down]
        cases ofAtom store text t.span with
        | error error => rfl
        | ok made => exact (down_settle n _ _ _ _).symm
  unfold step
  rw [show (t.down n).token = t.token from rfl]
  split
  · exact (down_settle n _ _ _ _).symm
  · exact hstart

theorem readWith_down (n : Nat) (quote : Symbol) (store : Store) (levels : List Level)
    (ts : List Located) :
    readWith quote store levels (ts.map (Located.down n)) =
      (readWith quote store levels ts).down n := by
  induction ts generalizing store levels with
  | nil => rfl
  | cons t rest ih =>
    rw [List.map_cons, readWith, step_down, readWith]
    cases step quote store levels t with
    | more inner after => exact ih after inner
    | _ => rfl

/-- Further down in a text the same data are read, and the same complaints are made about lines
further down. -/
theorem next_down (n : Nat) (store : Store) (ts : List Located) :
    next store (ts.map (Located.down n)) = (next store ts).map (Reading.down n) := by
  cases ts with
  | nil => rfl
  | cons t rest =>
    simp only [List.map_cons, next, Option.map_some, Option.some.injEq]
    exact readWith_down n _ _ [] (t :: rest)

theorem next_eq_none_iff {ts : List Located} : next store ts = none ↔ ts = [] := by
  cases ts <;> simp [next]

end Datum

/-! ## Loading tokens -/

namespace Machine

variable {ev : Evaluator} {last : Value} {ts : List Located} {e : Engine} {reading : Datum.Reading}

theorem loadTokens_nil (ev : Evaluator) (last : Value) (e : Engine) :
    loadTokens ev last [] e = (.ok last, e) := by
  unfold loadTokens
  rfl

/-- Tokens of which no datum can be read are not evaluated. -/
theorem loadTokens_of_error {error : Error} (h : Datum.next e.store ts = some reading)
    (hresult : reading.result = .error error) :
    loadTokens ev last ts e = (.error (.fault error), { e with store := reading.store }) := by
  have hread : readForm ts e = (.error (.fault error), { e with store := reading.store }) := by
    unfold readForm
    split
    · next hnone => cases h.symm.trans hnone
    · next found hfound =>
      obtain rfl := Option.some.inj (h.symm.trans hfound)
      rw [hresult]
  rw [loadTokens]
  exact Eval.bind_of_error hread _

/-- The first form is evaluated before the others are read. -/
theorem loadTokens_of_form {form : Value} (h : Datum.next e.store ts = some reading)
    (hresult : reading.result = .ok form) :
    loadTokens ev last ts e =
      (evalForm ev form >>= fun v => loadTokens ev v reading.rest)
        { e with store := reading.store } := by
  have hread : readForm ts e =
      (.ok (some (form, ⟨reading.rest, Datum.next_rest_length h⟩)),
        { e with store := reading.store }) := by
    unfold readForm
    split
    · next hnone => cases h.symm.trans hnone
    · next found hfound =>
      obtain rfl := Option.some.inj (h.symm.trans hfound)
      rw [hresult]
  rw [loadTokens]
  exact Eval.bind_of_ok hread _

/-- As soon as there is a form to evaluate, the value given for the lack of one does not matter. -/
theorem loadTokens_congr_last (h : ts ≠ []) (v w : Value) :
    loadTokens ev v ts e = loadTokens ev w ts e := by
  cases hnext : Datum.next e.store ts with
  | none => exact absurd (Datum.next_eq_none_iff.1 hnext) h
  | some reading =>
    cases hresult : reading.result with
    | error error => rw [loadTokens_of_error hnext hresult, loadTokens_of_error hnext hresult]
    | ok form => rw [loadTokens_of_form hnext hresult, loadTokens_of_form hnext hresult]

/-- Tokens are loaded by loading a first part of them, and then the rest with what that left. It
takes a first part that does not end in the middle of a datum. -/
theorem loadTokens_append {last : Value} {ts : List Located} {e : Engine} (us : List Located)
    (h : ∀ what, (loadTokens ev last ts e).1 ≠ .error (.fault (.unfinished what))) :
    loadTokens ev last (ts ++ us) e =
      (loadTokens ev last ts >>= fun v => loadTokens ev v us) e := by
  cases hnext : Datum.next e.store ts with
  | none =>
    obtain rfl := Datum.next_eq_none_iff.1 hnext
    rw [Eval.bind_of_ok (loadTokens_nil ev last e), List.nil_append]
  | some reading =>
    cases hresult : reading.result with
    | error error =>
      rw [loadTokens_of_error hnext hresult] at h
      -- the reader's complaint is what loading gives, so by assumption nothing was unfinished
      have hfinished : ∀ what, reading.result ≠ .error (.unfinished what) := by
        rintro what hwhat
        obtain rfl := Except.error.inj (hresult.symm.trans hwhat)
        exact h what rfl
      have hmore := Datum.next_append hnext hfinished us
      rw [Eval.bind_of_error (loadTokens_of_error hnext hresult), loadTokens_of_error hmore hresult]
    | ok form =>
      have hshorter := Datum.next_rest_length hnext
      have hmore := Datum.next_append hnext (by simp [hresult]) us
      rw [loadTokens_of_form hnext hresult] at h
      rw [loadTokens_of_form hmore hresult, Eval.bind_run, Eval.bind_run,
        loadTokens_of_form hnext hresult, Eval.bind_run]
      rw [Eval.bind_run] at h
      -- the form leaves the same engine on both sides, and the rest is loaded from there
      rcases hform : evalForm ev form { e with store := reading.store } with ⟨stop | v, e₁⟩
      · rfl
      -- `ts` gets shorter, since a form takes at least one token
      · simp only [hform] at h
        exact (loadTokens_append us h).trans (Eval.bind_run _ _ _)
termination_by ts.length

/-! ## Outcomes further down -/

/-- The outcomes are the same, except that a complaint of the reader may be about a line further
down. -/
structure SameFurtherDown (n : Nat) (o o' : Except Stop Value × Engine) : Prop where
  engine : o'.2 = o.2
  result : o'.1 = o.1 ∨
    ∃ error, o.1 = .error (.fault error) ∧ o'.1 = .error (.fault (error.down n))

/-- The forms do not know on which lines they stand. -/
theorem loadTokens_down (n : Nat) (ev : Evaluator) (last : Value) (ts : List Located)
    (e : Engine) :
    SameFurtherDown n (loadTokens ev last ts e)
      (loadTokens ev last (ts.map (Located.down n)) e) := by
  have hdown := Datum.next_down n e.store ts
  cases hnext : Datum.next e.store ts with
  | none =>
    obtain rfl := Datum.next_eq_none_iff.1 hnext
    exact ⟨rfl, .inl rfl⟩
  | some reading =>
    rw [hnext, Option.map_some] at hdown
    cases hresult : reading.result with
    | error error =>
      have hmoved : (reading.down n).result = .error (error.down n) := by
        rw [Datum.Reading.down, hresult]
        rfl
      rw [loadTokens_of_error hnext hresult, loadTokens_of_error hdown hmoved]
      exact ⟨rfl, .inr ⟨error, rfl, rfl⟩⟩
    | ok form =>
      have hshorter := Datum.next_rest_length hnext
      have hmoved : (reading.down n).result = .ok form := by
        rw [Datum.Reading.down, hresult]
        rfl
      rw [loadTokens_of_form hnext hresult, loadTokens_of_form hdown hmoved, Eval.bind_run,
        Eval.bind_run, show (reading.down n).store = reading.store from rfl]
      rcases evalForm ev form { e with store := reading.store } with ⟨stop | v, e₁⟩
      -- a form that stops the loading says nothing about places
      · exact ⟨rfl, .inl rfl⟩
      · exact loadTokens_down n ev v reading.rest e₁
termination_by ts.length

theorem loadText_of_scan {text : String} (h : Token.scan text = .ok ts) (ev : Evaluator)
    (e : Engine) : loadText ev text e = loadTokens ev .nil ts e := by
  rw [loadText, h]
  exact Eval.bind_of_ok (Eval.ofExcept_ok ts e) _

end Machine

open Machine

/-! ## An example -/

namespace Compiler

/-- The form `()` is compiled like an empty body. -/
theorem compileThunk_nil {ev : Evaluator} (hfuel : 0 < ev.fuel) (e : Engine) {room : Nat}
    (hroom : e.limits.maxCompileDepth = room + 1) :
    compileThunk ev .nil e =
      (.ok (emptyFunction (Keywords.intern e.store).2.nextRef),
        { e with store := (Keywords.intern e.store).2.fresh.2 }) := by
  rw [compileThunk_run, compileTop_run]
  -- named, since interning the keywords is not to be computed here
  generalize Keywords.intern e.store = interned
  obtain ⟨k, store⟩ := interned
  have hnil : compileBody (compileForm ev k (room + 1) (room + 1)) [.nil] =
      compileBody (compileForm ev k (room + 1) (room + 1)) [] :=
    compileForm_atom (v := .nil) hfuel trivial rfl _ _
  have hliteral : compileLiteral (compileForm ev k (room + 1) (room + 1)) (.thunk [.nil]) =
      compileLiteral (compileForm ev k (room + 1) (room + 1)) (.thunk []) := by
    simp only [compileLiteral, FunctionLiteral.thunk, hnil]
  simp only [hroom]
  rw [hliteral]
  exact compileLiteral_empty _ _

end Compiler

/-- An evaluator that answers every call with the same value. -/
def Evaluator.constantly (v : Value) : Evaluator :=
  { fuel := 1, apply := fun _ _ => pure v, loadFile := fun _ => pure v }

/-- A text with one form gives the value of that form. -/
theorem Machine.exists_loadText_nil (v : Value) :
    ∃ e', loadText (.constantly v) "nil" default = (.ok v, e') := by
  obtain ⟨e₁, he₁⟩ : ∃ e₁ : Engine, e₁ = { (default : Engine) with
    store := ((default : Engine).store.intern "quote").2 } := ⟨_, rfl⟩
  have hroom : e₁.limits.maxCompileDepth = 255 + 1 := by
    rw [he₁]
    rfl
  have hfuel : 0 < (Evaluator.constantly v).fuel := Nat.one_pos
  have hcompile := Compiler.compileThunk_nil hfuel e₁ hroom
  have hform : evalForm (.constantly v) .nil e₁ = (.ok v, _) := Eval.bind_of_ok hcompile _
  have hload : loadText (.constantly v) "nil" default =
      (evalForm (.constantly v) .nil >>= fun w => loadTokens (.constantly v) w []) e₁ := by
    rw [loadText_of_scan rfl, @loadTokens_of_form _ _ _ _ _ .nil rfl rfl, he₁]
    rfl
  exact ⟨_, hload.trans ((Eval.bind_of_ok hform _).trans (loadTokens_nil _ _ _))⟩

theorem Machine.loadText_strayClose (ev : Evaluator) (e : Engine) :
    loadText ev ")" e = (.error (.fault (.malformed (.strayClose .start))),
      { e with store := (e.store.intern "quote").2 }) := by
  have hread : Datum.next e.store [⟨.rightParen, .start⟩] =
      some { result := .error (.malformed (.strayClose .start)), rest := []
             store := (e.store.intern "quote").2 } := rfl
  rw [loadText_of_scan rfl]
  exact loadTokens_of_error hread rfl

/-! ## The whole of it -/

/-- Loading is compositional. Take a text whose tokens can be told, and another such text on the
lines behind it. If loading the first one gives a value, then loading both ends in the engine in
which loading the second one ends after it. It gives the same value, or that of the first text if
the second one holds no form, and it stops for the same reason, up to the line that the reader
complains about. If loading the first one stops, and not because something was unfinished, then
loading both stops in the same engine for the same reason, whatever the second text holds. -/
theorem loading_is_compositional {a b : String} {ts us : List Located}
    (ha : Token.scan a = .ok ts) (hb : Token.scan b = .ok us) (ev : Evaluator) (e : Engine) :
    (∀ v e', loadText ev a e = (.ok v, e') →
      (us = [] → loadText ev b e' = (.ok .nil, e') ∧
        loadText ev (a ++ "\n" ++ b) e = (.ok v, e')) ∧
      (us ≠ [] → SameFurtherDown (Token.lineCount a) (loadText ev b e')
        (loadText ev (a ++ "\n" ++ b) e))) ∧
    ∀ stop e', loadText ev a e = (.error stop, e') →
      (∀ what, stop ≠ .fault (.unfinished what)) →
      loadText ev (a ++ "\n" ++ b) e = (.error stop, e') := by
  have hab : Token.scan (a ++ "\n" ++ b) =
      .ok (ts ++ us.map (Located.down (Token.lineCount a))) := by
    rw [Token.scan_append_line ha, hb]
    rfl
  -- from here on it is about tokens, the second ones further down
  simp only [loadText_of_scan ha, loadText_of_scan hb, loadText_of_scan hab]
  constructor
  · intro v e' hload
    have happend : loadTokens ev .nil (ts ++ us.map (Located.down (Token.lineCount a))) e =
        loadTokens ev v (us.map (Located.down (Token.lineCount a))) e' := by
      rw [loadTokens_append _ (by simp [hload]), Eval.bind_of_ok hload]
    rw [happend]
    constructor
    · rintro rfl
      exact ⟨loadTokens_nil ev .nil e', loadTokens_nil ev v e'⟩
    · intro hne
      -- the second text starts over with `nil`, the whole goes on with `v`
      rw [loadTokens_congr_last (by simpa using hne) v .nil]
      exact loadTokens_down _ ev .nil us e'
  · intro stop e' hload hstop
    have hfinished : ∀ what, (loadTokens ev .nil ts e).1 ≠ .error (.fault (.unfinished what)) := by
      intro what hwhat
      rw [hload] at hwhat
      exact hstop what (Except.error.inj hwhat)
    rw [loadTokens_append _ hfinished, Eval.bind_of_error hload]

/-- Behind a form, which is evaluated, a stray parenthesis is the end of it. Before the form, it
keeps the form from being evaluated. -/
theorem loading_is_compositional_stray : ∃ e',
    loadText (.constantly (.boolean true)) "nil" default = (.ok (.boolean true), e') ∧
    SameFurtherDown 1 (.error (.fault (.malformed (.strayClose .start))),
        { e' with store := (e'.store.intern "quote").2 })
      (loadText (.constantly (.boolean true)) "nil\n)" default) ∧
    loadText (.constantly (.boolean true)) ")\nnil" default =
      (.error (.fault (.malformed (.strayClose .start))),
        { (default : Engine) with store := ((default : Engine).store.intern "quote").2 }) := by
  obtain ⟨e', hnil⟩ := exists_loadText_nil (.boolean true)
  have hclose : Token.scan ")" = .ok [⟨.rightParen, .start⟩] := rfl
  have hform : Token.scan "nil" = .ok [⟨.atom "nil", .start⟩] := rfl
  obtain ⟨hbehind, -⟩ := loading_is_compositional hform hclose (.constantly (.boolean true)) default
  obtain ⟨-, hbefore⟩ := loading_is_compositional hclose hform (.constantly (.boolean true)) default
  have hafter := (hbehind _ _ hnil).2 (by simp)
  rw [loadText_strayClose] at hafter
  exact ⟨e', hnil, hafter, hbefore _ _ (loadText_strayClose _ _) (by simp)⟩

end StackLisp
