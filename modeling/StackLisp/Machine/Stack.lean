import StackLisp.Value.Expect

/-!
# The operand stack

The machine keeps operands and frames on one stack of slots, addressed by index. A slot holds a
value, an environment or a whole number; reading it as another kind is an inconsistency. The stack
grows in large steps, up to a limit.

Operations that change the stack give it back also when they fail.
-/

namespace StackLisp

/-- The content of a place on the stack. -/
inductive Slot where
  | empty
  | value (v : Value)
  | env (id : EnvId)
  | int (n : Nat)
deriving Inhabited

/-- The name of a kind of content. -/
def Slot.kind : Slot → String
  | .empty => "empty"
  | .value _ => "value"
  | .env _ => "environment"
  | .int _ => "integer"

/-- The slots of the machine. -/
structure Stack where
  /-- The slots by index. -/
  slots : Array Slot
deriving Inhabited

namespace Stack

/-- A stack of empty slots. -/
def ofSize (size : Nat) : Stack :=
  { slots := Array.replicate size .empty }

/-- The number of slots. -/
def size (s : Stack) : Nat :=
  s.slots.size

/-- The size to grow to from `size` slots when `needed` are needed: room for 32 more, or half as
much again if that is more, within the limit. -/
def grownSize (size needed limit : Nat) : Nat :=
  min limit (max (needed + 32) (size + (size + 1) / 2))

/-- Add empty slots up to a size. -/
def extend (s : Stack) (size : Nat) : Stack :=
  { slots := s.slots ++ Array.replicate (size - s.slots.size) .empty }

/-- Make sure that there are at least `needed` slots. -/
def grow (s : Stack) (needed limit : Nat) : Except Error Unit × Stack :=
  if needed ≤ s.size then (.ok (), s)
  else if limit < needed then (.error (.exhausted (.stack needed limit)), s)
  else (.ok (), s.extend (grownSize s.size needed limit))

/-- Fill a slot. -/
def write (s : Stack) (index : Nat) (slot : Slot) : Except Error Unit × Stack :=
  if index < s.size then (.ok (), { slots := s.slots.setIfInBounds index slot })
  else (.error (.inconsistent (.stackWrite index s.size)), s)

/-- Filling a slot keeps the number of slots. -/
theorem size_write (s : Stack) (index : Nat) (slot : Slot) :
    (s.write index slot).2.size = s.size := by
  unfold write
  split <;> simp [size]

/-- Growing never takes slots away, also when the limit forbids it. -/
theorem size_le_grow (s : Stack) (needed limit : Nat) :
    s.size ≤ (s.grow needed limit).2.size := by
  unfold grow
  split
  · simp
  · split
    · simp
    · simp [extend, size]

/-- The content of a slot. -/
@[inline]
def read (s : Stack) (index : Nat) : Except Error Slot :=
  match s.slots[index]? with
  | some slot => .ok slot
  | none => .error (.inconsistent (.stackRead index s.size))

/-- The value in a slot. -/
@[inline]
def value (s : Stack) (index : Nat) : Except Error Value :=
  match s.read index with
  | .ok (.value v) => .ok v
  | .ok slot => .error (.inconsistent (.slotKind "value" index slot.kind))
  | .error e => .error e

/-- The environment in a slot. -/
@[inline]
def env (s : Stack) (index : Nat) : Except Error EnvId :=
  match s.read index with
  | .ok (.env id) => .ok id
  | .ok slot => .error (.inconsistent (.slotKind "environment" index slot.kind))
  | .error e => .error e

/-- The number in a slot. -/
@[inline]
def int (s : Stack) (index : Nat) : Except Error Nat :=
  match s.read index with
  | .ok (.int n) => .ok n
  | .ok slot => .error (.inconsistent (.slotKind "integer" index slot.kind))
  | .error e => .error e

/-- The closure in a slot. -/
def closure (s : Stack) (index : Nat) : Except Error Closure :=
  match s.value index with
  | .ok (.closure c) => .ok c
  | .ok v => .error (.inconsistent (.notClosure index v.typeName))
  | .error e => .error e

/-- The symbol in a slot. -/
def symbol (s : Stack) (index : Nat) : Except Error Symbol :=
  match s.value index with
  | .ok (.symbol symbol) => .ok symbol
  | .ok v => .error (.inconsistent (.notSymbol v.typeName))
  | .error e => .error e

/-- The values of `count` slots from `first` on, after those already collected in reverse. -/
def collect (s : Stack) : (count first : Nat) → (reversed : List Value) →
    Except Error (List Value)
  | 0, _, reversed => .ok reversed.reverse
  | count + 1, first, reversed =>
    match s.value first with
    | .ok v => collect s count (first + 1) (v :: reversed)
    | .error e => .error e

/-- The values of the slots from one index up to another, which is left out. -/
def values (s : Stack) (first last : Nat) : Except Error (List Value) :=
  s.collect (last - first) first []

end Stack

end StackLisp
