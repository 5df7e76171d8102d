import StackLisp.Machine.Step
import StackLisp.Proofs.Blind
import StackLisp.Proofs.Proper

/-!
# Frames on the stack

The machine keeps the calls in progress as windows of one stack. A `Frame` is such a call as a
whole, and the stack spells out a list of frames.

- `height`: the slots that frames take;
- `Spelled`, `Engine.Holds`: the stack spells out the frames of the running calls;
- `Spelled.congr`, `Spelled.unique`: this depends on the slots in use only, which spell out one
  list of frames;
- `CallFrame.enclosing_eq`: the walk over the frames finds their environments;
- `Engine.Restacks`: engines that differ only by their stacks, above a floor.
-/

namespace StackLisp

/-- A call in progress. -/
structure Frame where
  /-- The function that runs. -/
  closure : Closure
  /-- The environment of the call. -/
  env : EnvId
  /-- The operands, the top one first. -/
  operands : List Value
  /-- Where the call goes on after the call that it makes. -/
  resume : Nat

/-- The call with other operands. -/
def Frame.withOperands (f : Frame) (operands : List Value) : Frame :=
  { f with operands }

/-- The slots that the frames take. -/
def height : List Frame → Nat
  | [] => 0
  | f :: rest => 4 + f.operands.length + height rest

/-- The slots from `base` on hold the operands, the first one on top. -/
def Spells (slots : Array Slot) (base : Nat) : List Value → Prop
  | [] => True
  | v :: operands => slots[base + operands.length]? = some (.value v) ∧ Spells slots base operands

/-- The slots from `floor` to `sp` spell out the frames, the innermost one last. The call that was
made at frame pointer `home` is the outermost one. -/
inductive Spelled (slots : Array Slot) (home floor : Nat) :
    List Frame → (frame sp : Nat) → Prop
  | nil : Spelled slots home floor [] home floor
  | cons {f : Frame} {rest : List Frame} {frame sp : Nat} :
      Spelled slots home floor rest frame sp →
      slots[sp]? = some (.value (.closure f.closure)) → slots[sp + 1]? = some (.env f.env) →
      slots[sp + 2]? = some (.int frame) → slots[sp + 3]? = some (.int f.resume) →
      Spells slots (sp + 4) f.operands → sp + 4 + f.closure.code.maxStack ≤ slots.size →
      Spelled slots home floor (f :: rest) (sp + 4) (sp + 4 + f.operands.length)

/-- The stack of the engine spells out the frames. -/
def Engine.Holds (home floor : Nat) (frames : List Frame) (e : Engine) : Prop :=
  Spelled e.stack.slots home floor frames e.frame e.sp

@[simp]
theorem height_nil : height [] = 0 := rfl

@[simp]
theorem height_cons (f : Frame) (rest : List Frame) :
    height (f :: rest) = 4 + f.operands.length + height rest := rfl

/-! ## Slots -/

variable {slots slots' : Array Slot} {base home floor frame sp : Nat} {frames : List Frame}

theorem Spells.congr {operands : List Value} (h : Spells slots base operands)
    (hs : ∀ i, base ≤ i → i < base + operands.length → ∀ slot, slots[i]? = some slot →
      slots'[i]? = some slot) : Spells slots' base operands := by
  induction operands with
  | nil => trivial
  | cons v operands ih =>
    refine ⟨hs _ (by omega) (by simp) _ h.1, ih h.2 fun i hle hi => hs i hle ?_⟩
    rw [List.length_cons]
    omega

/-- The slots hold one list of operands only. -/
theorem Spells.unique {xs ys : List Value} (hx : Spells slots base xs) (hy : Spells slots base ys)
    (hlength : xs.length = ys.length) : xs = ys := by
  induction xs generalizing ys with
  | nil => exact (List.length_eq_zero_iff.1 hlength.symm).symm
  | cons v xs ih =>
    cases ys with
    | nil => cases hlength
    | cons w ys =>
      have hrest := ih hx.2 hy.2 (Nat.succ.inj hlength)
      subst hrest
      cases hx.1.symm.trans hy.1
      rfl

theorem Spells.le_size {operands : List Value} (h : Spells slots base operands)
    (hbase : base ≤ slots.size) : base + operands.length ≤ slots.size := by
  cases operands with
  | nil => exact hbase
  | cons v operands => exact (Array.getElem?_eq_some_iff.1 h.1).1

theorem spells_append {xs ys : List Value} :
    Spells slots base (xs ++ ys) ↔ Spells slots (base + ys.length) xs ∧ Spells slots base ys := by
  induction xs with
  | nil => simp [Spells]
  | cons v xs ih =>
    rw [List.cons_append, Spells, Spells, ih, List.length_append, and_assoc]
    rw [show base + (xs.length + ys.length) = base + ys.length + xs.length by omega]

namespace Spelled

theorem floor_le (h : Spelled slots home floor frames frame sp) : floor ≤ sp := by
  induction h with
  | nil => exact le_rfl
  | cons => omega

/-- What the innermost frame looks like. -/
theorem inv {f : Frame} (h : Spelled slots home floor (f :: frames) frame sp) :
    ∃ caller base, frame = base + 4 ∧ sp = base + 4 + f.operands.length ∧
      Spelled slots home floor frames caller base ∧
      slots[base]? = some (.value (.closure f.closure)) ∧ slots[base + 1]? = some (.env f.env) ∧
      slots[base + 2]? = some (.int caller) ∧ slots[base + 3]? = some (.int f.resume) ∧
      Spells slots (base + 4) f.operands ∧ base + 4 + f.closure.code.maxStack ≤ slots.size := by
  cases h with
  | cons h hc he hf hr ho hm => exact ⟨_, _, rfl, rfl, h, hc, he, hf, hr, ho, hm⟩

/-- The frames depend on the slots in use only. -/
theorem congr (h : Spelled slots home floor frames frame sp)
    (hs : ∀ i < sp, ∀ slot, slots[i]? = some slot → slots'[i]? = some slot)
    (hsize : slots.size ≤ slots'.size) : Spelled slots' home floor frames frame sp := by
  induction h with
  | nil => exact .nil
  | cons _ hc he hf hr ho hm ih =>
    exact .cons (ih fun i hi => hs i (by omega)) (hs _ (by omega) _ hc) (hs _ (by omega) _ he)
      (hs _ (by omega) _ hf) (hs _ (by omega) _ hr) (ho.congr fun i _ hi => hs i (by omega))
      (hm.trans hsize)

theorem frame_le (h : Spelled slots home floor frames frame sp) (hhome : home ≤ floor) :
    frame ≤ sp := by
  cases h with
  | nil => exact hhome
  | cons => omega

theorem home_lt {f : Frame} (h : Spelled slots home floor (f :: frames) frame sp)
    (hhome : home ≤ floor) : home < frame := by
  cases h with
  | cons h =>
    have := h.floor_le
    omega

/-- The frames reach up to the stack pointer. -/
theorem sp_eq (h : Spelled slots home floor frames frame sp) : sp = floor + height frames := by
  induction h with
  | nil => rfl
  | cons _ _ _ _ _ _ _ ih =>
    rw [height_cons]
    omega

/-- How far the frames reach depends on them only. -/
theorem sp_unique {home' frame' sp' : Nat} (h : Spelled slots home floor frames frame sp)
    (h' : Spelled slots' home' floor frames frame' sp') : sp = sp' := by
  rw [h.sp_eq, h'.sp_eq]

/-- The slots spell out one list of frames only. -/
theorem unique {frames' : List Frame} (hhome : home ≤ floor)
    (h : Spelled slots home floor frames frame sp)
    (h' : Spelled slots home floor frames' frame sp) : frames = frames' := by
  induction h generalizing frames' with
  | nil =>
    cases frames' with
    | nil => rfl
    | cons => exact absurd (h'.home_lt hhome) (lt_irrefl _)
  | @cons f rest frame sp hrest hc he hl hr ho hm ih =>
    cases frames' with
    | nil =>
      have hlt := (Spelled.cons hrest hc he hl hr ho hm).home_lt hhome
      cases h'
      exact absurd hlt (lt_irrefl _)
    | cons g rest' =>
      -- the saved frame pointer fixes where the frames below end, and the induction those frames
      obtain ⟨caller, base, hframe, hsp, hrest', hc', he', hl', hr', ho', -⟩ := h'.inv
      obtain rfl : sp = base := Nat.add_right_cancel hframe
      cases hl.symm.trans hl'
      obtain rfl := ih hrest'
      have hoperands := ho.unique ho' (by omega)
      have hclosure := hc.symm.trans hc'
      have henv := he.symm.trans he'
      have hresume := hr.symm.trans hr'
      cases f
      cases g
      simp_all

/-- Each frame takes at least four slots. -/
theorem length_le (h : Spelled slots home floor frames frame sp) : 4 * frames.length ≤ sp := by
  induction h with
  | nil => exact Nat.zero_le _
  | cons =>
    rw [List.length_cons]
    omega

theorem length_le_size (h : Spelled slots home floor frames frame sp) :
    frames.length ≤ slots.size := by
  cases h with
  | nil => exact Nat.zero_le _
  | cons h _ _ _ hr =>
    obtain ⟨hlt, -⟩ := Array.getElem?_eq_some_iff.1 hr
    have := h.length_le
    rw [List.length_cons]
    omega

end Spelled

/-! ## Reading and filling slots -/

namespace Stack

variable {s : Stack} {i : Nat}

theorem value_of_slot {v : Value} (h : s.slots[i]? = some (.value v)) : s.value i = .ok v := by
  simp [value, read, h]

theorem env_of_slot {env : EnvId} (h : s.slots[i]? = some (.env env)) : s.env i = .ok env := by
  simp [Stack.env, read, h]

theorem int_of_slot {n : Nat} (h : s.slots[i]? = some (.int n)) : s.int i = .ok n := by
  simp [int, read, h]

theorem closure_of_slot {c : Closure} (h : s.slots[i]? = some (.value (.closure c))) :
    s.closure i = .ok c := by
  simp [Stack.closure, value_of_slot h]

theorem symbol_of_slot {x : Symbol} (h : s.slots[i]? = some (.value (.symbol x))) :
    s.symbol i = .ok x := by
  simp [Stack.symbol, value_of_slot h]

theorem collect_of_spells {args reversed : List Value} (h : Spells s.slots i args.reverse) :
    s.collect args.length i reversed = .ok (reversed.reverse ++ args) := by
  induction args generalizing i reversed with
  | nil => simp [collect]
  | cons v args ih =>
    rw [List.reverse_cons, spells_append] at h
    obtain ⟨hargs, hv, -⟩ := h
    rw [List.length_cons, collect, value_of_slot (i := i) hv]
    simpa using @ih (i + 1) (v :: reversed) hargs

/-- Slots that hold arguments are read in order. -/
theorem values_of_spells {args : List Value} (h : Spells s.slots i args.reverse) :
    s.values i (i + args.length) = .ok args := by
  rw [values, Nat.add_sub_cancel_left, collect_of_spells h]
  rfl

end Stack

namespace Engine

/-- The engine with one slot filled. -/
def fill (e : Engine) (i : Nat) (slot : Slot) : Engine :=
  { e with stack := { slots := e.stack.slots.setIfInBounds i slot } }

/-- The engine with a value on top of the stack. -/
def put (e : Engine) (i : Nat) (v : Value) : Engine :=
  { e.fill i (.value v) with sp := i + 1 }

/-- There are as many slots as needed, or the stack may grow to have them. -/
def Fits (e : Engine) (needed : Nat) : Prop :=
  needed ≤ e.stack.size ∨ needed ≤ e.limits.maxSlots

/-- The two engines differ only by their stacks, and not below `floor`. -/
structure Restacks (floor : Nat) (e e' : Engine) : Prop where
  core : e'.core = e.core
  slots : ∀ i < floor, ∀ slot, e.stack.slots[i]? = some slot → e'.stack.slots[i]? = some slot
  size : e.stack.size ≤ e'.stack.size
  /-- The stack does not grow beyond the limit. -/
  bound : e'.stack.size ≤ max e.stack.size e.limits.maxSlots

variable {e e' e'' : Engine} {i : Nat} {slot : Slot}

@[simp]
theorem fill_size : (e.fill i slot).stack.slots.size = e.stack.slots.size := by
  simp [fill]

theorem fill_self (h : i < e.stack.slots.size) :
    (e.fill i slot).stack.slots[i]? = some slot := by
  simp [fill, h]

theorem fill_other {j : Nat} (h : i ≠ j) :
    (e.fill i slot).stack.slots[j]? = e.stack.slots[j]? := by
  simp [fill, Array.getElem?_setIfInBounds_ne h]

theorem put_of_sp {v : Value} (h : e.sp = i + 1) : e.put i v = e.fill i (.value v) := by
  unfold put
  rw [← h]
  rfl

theorem Restacks.refl (floor : Nat) (e : Engine) : Restacks floor e e :=
  ⟨rfl, fun _ _ _ h => h, le_rfl, le_max_left _ _⟩

theorem Restacks.limits (h : Restacks floor e e') : e'.limits = e.limits :=
  Engine.limits_of_core h.core

theorem Restacks.envs (h : e.Restacks floor e') : e'.envs = e.envs :=
  Engine.congr_core Engine.envs (fun _ _ _ _ => rfl) h.core

theorem Restacks.retains (h : e.Restacks floor e') : e.Retains floor e' where
  limits := h.limits
  hosts := Engine.congr_core Engine.hosts (fun _ _ _ _ => rfl) h.core
  files := Engine.congr_core Engine.files (fun _ _ _ _ => rfl) h.core
  depth := Engine.congr_core Engine.depth (fun _ _ _ _ => rfl) h.core
  slots := h.slots
  size := h.size
  bound := h.bound
  envs := (congrArg Environments.size h.envs).ge
  linked hl := by
    rw [h.envs]
    exact hl

theorem Restacks.trans (h : Restacks floor e e') (h' : Restacks floor e' e'') :
    Restacks floor e e'' where
  core := h'.core.trans h.core
  slots i hi slot hs := h'.slots i hi slot (h.slots i hi slot hs)
  size := h.size.trans h'.size
  bound := by
    have hb := h'.bound
    rw [h.limits] at hb
    exact hb.trans (max_le h.bound (le_max_right _ _))

/-- Moving the pointers changes no slot. -/
theorem Restacks.move (floor : Nat) (e : Engine) (sp frame : Nat) :
    Restacks floor e { e with sp, frame } :=
  ⟨rfl, fun _ _ _ h => h, le_rfl, le_max_left _ _⟩

theorem Restacks.fill (e : Engine) (h : floor ≤ i) (slot : Slot) :
    Restacks floor e (e.fill i slot) where
  core := rfl
  slots j hj _ hs := (fill_other (by omega)).trans hs
  size := fill_size.ge
  bound := fill_size.le.trans (le_max_left _ _)

/-- How much stack there can be does not depend on how much there is. -/
theorem fits_iff (h : e.room.Lawful) {needed : Nat} :
    e.Fits needed ↔ needed ≤ max e.limits.initialSlots e.limits.maxSlots := by
  constructor
  · rintro (hsize | hlimit)
    · exact hsize.trans h.most
    · exact hlimit.trans (le_max_right _ _)
  · intro hle
    exact (le_max_iff.1 hle).imp_left fun hinitial => hinitial.trans h.least

/-- The slots of the innermost frame are there. -/
theorem Holds.sp_le {f : Frame} (h : e.Holds home floor (f :: frames)) : e.sp ≤ e.stack.size := by
  obtain ⟨caller, base, -, hsp, -, -, -, -, hresume, hoperands, -⟩ := h.inv
  rw [hsp]
  exact hoperands.le_size (Array.getElem?_eq_some_iff.1 hresume).1

/-- Code that runs outside the machine leaves the frames alone. -/
theorem Holds.keeps (h : e.Holds home floor frames) (hk : e.Keeps e') :
    e'.Holds home floor frames := by
  unfold Holds at *
  rw [hk.sp, hk.frame]
  exact Spelled.congr h hk.slots hk.size

end Engine

/-! ## The walk over the frames -/

/-- The walk over the frames finds their environments. -/
theorem CallFrame.enclosing_eq {s : Stack} (hhome : home ≤ floor)
    (h : Spelled s.slots home floor frames frame sp) {fuel : Nat} (hfuel : frames.length < fuel)
    (scopes : Array EnvId) :
    enclosing s home fuel frame scopes = .ok (scopes ++ (frames.map Frame.env).toArray) := by
  induction h generalizing fuel scopes with
  | nil =>
    obtain ⟨fuel, rfl⟩ := Nat.exists_eq_add_of_lt hfuel
    rw [enclosing, if_pos le_rfl]
    simp
  | @cons f rest frame sp h _ he hf _ _ _ ih =>
    obtain ⟨fuel, rfl⟩ := Nat.exists_eq_add_of_lt hfuel
    have hfloor := h.floor_le
    rw [enclosing, if_neg (by omega)]
    rw [show sp + 4 - header = sp + 1 from rfl, Stack.env_of_slot he]
    rw [show sp + 4 - 2 = sp + 2 from rfl, Stack.int_of_slot hf]
    simp only
    rw [ih (by rw [List.length_cons]; omega)]
    simp

end StackLisp
