import StackLisp.Proofs.Reassembly

/-!
# Cursors stay in the code

Any words can be read as code, from any position among the instructions, and a cursor can be asked
for whatever comes next and moved in any order. It never leaves the code.

- `Code.decode_cases`: an instruction that is decoded lies in the code as a whole;
- `Cursor.Orderly`: where a cursor stands, and what each request gives and does to it;
- `Cursor.orderly_serve`, `Cursor.orderly_after`: one request, and all requests;
- `Cursor.exists_stuck`: reading on and on comes to an end;
- `cursor_stays_in_bounds`: the whole of it.
-/

namespace StackLisp

/-- Decoding fails for a reason that lies in the words, or gives an instruction all of which is
there. -/
theorem Code.decode_cases (code : Code) (position : Nat) :
    (∃ cause, code.decode position = .error (.undecodable cause)) ∨
      ∃ i, code.decode position = .ok i ∧ code[position]? = some i.opcode.word ∧
        position + i.width ≤ code.size := by
  cases h : code.decode position with
  | error error =>
    refine .inl ?_
    rw [decode] at h
    grind
  | ok i =>
    have hdrop := drop_of_decode h
    have hwords : i.words = i.opcode.word :: i.operand?.toList := rfl
    refine .inr ⟨i, rfl, ?_, ?_⟩
    · rw [← Array.getElem?_toList, ← Nat.add_zero position, ← List.getElem?_drop, hdrop, hwords]
      rfl
    · have hlength := congrArg List.length hdrop
      rw [List.length_drop, List.length_append, Instruction.length_words] at hlength
      have hpos := i.width_pos
      simp only [List.length_drop, Array.length_toList] at hlength
      omega

namespace Cursor

/-- What a cursor can be asked for. -/
inductive Request where
  /-- The next instruction, if it may be executed. -/
  | next
  /-- The next instruction, whatever it is. -/
  | nextRaw
  /-- To go to another position. -/
  | seek (position : Nat)

/-- An instruction is asked for. -/
def Request.decodes : Request → Bool
  | .seek _ => false
  | _ => true

/-- What a request gives, and the cursor afterwards. -/
def serve (c : Cursor) : Request → Except Error (Option Instruction) × Cursor
  | .next => (c.next.1.map some, c.next.2)
  | .nextRaw => (c.nextRaw.1.map some, c.nextRaw.2)
  | .seek position => ((c.seek position).1.map fun _ => none, (c.seek position).2)

/-- The cursor after some requests, whatever they gave. -/
def after (c : Cursor) (requests : List Request) : Cursor :=
  requests.foldl (fun c request => (c.serve request).2) c

/-- A cursor stands before an instruction or at the end of the code, and goes where it should. -/
structure Orderly (c : Cursor) : Prop where
  pos : 1 ≤ c.position
  le_size : c.position ≤ c.code.size
  /-- It goes to any position before the end, and stays where it is if asked to go elsewhere. -/
  seek : ∀ p, c.seek p =
    if 1 ≤ p ∧ p < c.code.size then (.ok (), { c with position := p })
    else (.error (.undecodable (.seek p c.code.size)), c)
  /-- It stays before words that are no instruction, and passes every instruction as a whole, also
  one that it refuses because it may not be executed. -/
  decode : (∃ cause, c.nextRaw = (.error (.undecodable cause), c) ∧
      c.next = (.error (.undecodable cause), c)) ∨
    ∃ i, c.code[c.position]? = some i.opcode.word ∧
      c.nextRaw = (.ok i, { c with position := c.position + (1 + i.opcode.operands) }) ∧
      c.next = (if i.isReserved
        then .error (.inconsistent (.reservedOpcode i.opcode.name c.position)) else .ok i,
        { c with position := c.position + (1 + i.opcode.operands) })

/-- No instruction can be read here: the code ends, or its words are none. -/
def Stuck (c : Cursor) : Prop :=
  ∀ request : Request, request.decodes = true →
    ∃ cause, c.serve request = (.error (.undecodable cause), c)

variable {c : Cursor}

/-! ## One request -/

theorem orderly_of_bounds (hpos : 1 ≤ c.position) (hle : c.position ≤ c.code.size) :
    c.Orderly where
  pos := hpos
  le_size := hle
  seek p := by
    unfold Cursor.seek Code.seek
    by_cases hp : 1 ≤ p ∧ p < c.code.size
    · rw [if_pos hp, if_neg (by simp; omega)]
    · rw [if_neg hp, if_pos (by simp; omega)]
  decode := by
    rcases c.code.decode_cases c.position with ⟨cause, hdecode⟩ | ⟨i, hdecode, hword, -⟩
    · refine .inl ⟨cause, ?_, ?_⟩ <;> simp only [next, nextRaw, hdecode]
    · have hraw : c.nextRaw = (.ok i, { c with position := c.position + i.width }) := by
        rw [nextRaw, hdecode]
      refine .inr ⟨i, hword, hraw, ?_⟩
      rw [next, hraw]
      rfl

/-- A request leaves the cursor in the same code, at a position that is no less orderly. -/
theorem orderly_serve (h : c.Orderly) (request : Request) :
    (c.serve request).2.code = c.code ∧ (c.serve request).2.Orderly := by
  -- a position within the bounds is all that makes a cursor orderly
  suffices hserve : (c.serve request).2.code = c.code ∧ 1 ≤ (c.serve request).2.position ∧
      (c.serve request).2.position ≤ (c.serve request).2.code.size from
    ⟨hserve.1, orderly_of_bounds hserve.2.1 hserve.2.2⟩
  have hpos := h.pos
  have hle := h.le_size
  cases request with
  | seek p =>
    simp only [serve, h.seek p]
    split
    · next hp => exact ⟨rfl, hp.1, hp.2.le⟩
    · exact ⟨rfl, hpos, hle⟩
  | next | nextRaw =>
    rcases h.decode with ⟨cause, hraw, hnext⟩ | ⟨i, -, hraw, hnext⟩
    · simp only [serve, hraw, hnext]
      exact ⟨trivial, hpos, hle⟩
    · have hwidth : c.position + (1 + i.opcode.operands) ≤ c.code.size := by
        rcases c.code.decode_cases c.position with ⟨cause, hdecode⟩ | ⟨j, hdecode, -, hj⟩
        · simp [nextRaw, hdecode] at hraw
        · simp only [nextRaw, hdecode, Prod.mk.injEq, Except.ok.injEq] at hraw
          obtain ⟨rfl, -⟩ := hraw
          exact hj
      simp only [serve, hraw, hnext]
      exact ⟨trivial, by omega, hwidth⟩

/-- Where an instruction can be read, asking for it takes the cursor further. -/
theorem stuck_or_advances (h : c.Orderly) :
    c.Stuck ∨ ∀ request : Request, request.decodes = true →
      c.position < (c.serve request).2.position := by
  rcases h.decode with ⟨cause, hraw, hnext⟩ | ⟨i, -, hraw, hnext⟩
  · refine .inl fun request hdecodes => ⟨cause, ?_⟩
    cases request with
    | seek p => cases hdecodes
    | next => rw [serve, hnext]; rfl
    | nextRaw => rw [serve, hraw]; rfl
  · refine .inr fun request hdecodes => ?_
    cases request with
    | seek p => cases hdecodes
    | next => simp only [serve, hnext]; omega
    | nextRaw => simp only [serve, hraw]; omega

/-! ## All requests -/

theorem orderly_after (h : c.Orderly) (requests : List Request) :
    (c.after requests).code = c.code ∧ (c.after requests).Orderly := by
  induction requests generalizing c with
  | nil => exact ⟨rfl, h⟩
  | cons request requests ih =>
    obtain ⟨hcode, hserve⟩ := orderly_serve h request
    obtain ⟨hcode', hafter⟩ := ih hserve
    exact ⟨hcode'.trans hcode, hafter⟩

/-- Reading on and on, in whatever way, the cursor gets stuck: it takes at most one request for each
word that is left. -/
theorem exists_stuck (h : c.Orderly) {requests : Nat → Request}
    (hdecodes : ∀ n, (requests n).decodes = true) :
    ∃ n ≤ c.code.size - c.position, (c.after ((List.range n).map requests)).Stuck := by
  induction hleft : c.code.size - c.position using Nat.strong_induction_on generalizing c requests
    with
  | _ left ih =>
    rcases stuck_or_advances h with hstuck | hadvances
    · exact ⟨0, Nat.zero_le _, hstuck⟩
    · have hlt := hadvances (requests 0) (hdecodes 0)
      obtain ⟨hcode, hserve⟩ := orderly_serve h (requests 0)
      have hle := hserve.le_size
      rw [hcode] at hle
      obtain ⟨n, hn, hstuck⟩ := ih (c.code.size - (c.serve (requests 0)).2.position) (by omega)
        hserve (fun n => hdecodes (n + 1)) (by rw [hcode])
      refine ⟨n + 1, by omega, ?_⟩
      rw [List.range_succ_eq_map, List.map_cons, List.map_map]
      exact hstuck

end Cursor

open Cursor

/-- A cursor that was placed in some words stays between the first instruction and the end of the
words, whatever it is asked for. A failure to move and a failure to decode leave it where it is;
reading an instruction takes it past all words of that instruction, even when the instruction is
refused because it may not be executed; and instructions that are not refused are those that are
read without looking whether they may be executed. So reading on without moving comes to the end or
to words that are no instruction. -/
theorem cursor_stays_in_bounds {code : Code} {start : Nat} {c : Cursor}
    (h : Cursor.at? code start = .ok c) (requests : List Request) :
    (c.after requests).code = code ∧ (c.after requests).Orderly ∧
      ∀ further : Nat → Request, (∀ n, (further n).decodes = true) →
        ∃ n ≤ code.size - (c.after requests).position,
          ((c.after requests).after ((List.range n).map further)).Stuck := by
  obtain ⟨rfl, hpos, hlt⟩ : c = ⟨code, start⟩ ∧ 1 ≤ start ∧ start < code.size := by
    unfold Cursor.at? Code.seek at h
    split at h
    · cases h
    · next hinside =>
      cases h
      simp only [Bool.or_eq_true, decide_eq_true_eq, not_or, not_lt, not_le] at hinside
      exact ⟨rfl, hinside⟩
  have hstart : (⟨code, start⟩ : Cursor).Orderly := orderly_of_bounds hpos hlt.le
  obtain ⟨hcode, horderly⟩ := orderly_after hstart requests
  refine ⟨hcode, horderly, fun further hfurther => ?_⟩
  have hstuck := exists_stuck horderly hfurther
  rwa [hcode] at hstuck

/-- Words with an instruction that may not be executed, and one that lacks its operand. -/
theorem cursor_stays_in_bounds_truncated :
    Cursor.at? #[0, 13, 8] 1 = .ok ⟨#[0, 13, 8], 1⟩ ∧
      ((⟨#[0, 13, 8], 1⟩ : Cursor).after [.seek 3, .next, .seek 0]).position = 2 ∧
      ((⟨#[0, 13, 8], 1⟩ : Cursor).after [.seek 3, .next, .seek 0]).Orderly ∧
      (∀ n, ((fun _ => .nextRaw : Nat → Request) n).decodes = true) ∧
      ∃ n ≤ 1, (((⟨#[0, 13, 8], 1⟩ : Cursor).after [.seek 3, .next, .seek 0]).after
        ((List.range n).map fun _ => .nextRaw)).Stuck := by
  have hat : Cursor.at? #[0, 13, 8] 1 = .ok ⟨#[0, 13, 8], 1⟩ := rfl
  obtain ⟨-, horderly, hstuck⟩ := cursor_stays_in_bounds hat [.seek 3, .next, .seek 0]
  exact ⟨hat, rfl, horderly, fun _ => rfl, hstuck (fun _ => .nextRaw) fun _ => rfl⟩

end StackLisp
