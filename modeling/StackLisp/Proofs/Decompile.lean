import StackLisp.Proofs.Block

/-!
# Reading code back as terms

Compiled code determines the terms it was compiled from. They are found by executing the code
symbolically, with terms in the place of values: a constant is pushed as a term, and every other
instruction makes one term of those on top. The two branches of a conditional are read on their
own, each from an empty stack.

- `Decompile.read`: the terms that a stretch of code leaves;
- `ClosureOf.terms`: the body that a closure was compiled from;
- `ClosureOf.Implements.terms_eq`: it is the only body that the closure implements.
-/

namespace StackLisp

namespace Decompile

/-- The term that an instruction without operand makes of the terms on top of the stack, with the
terms left. The values that are dropped between the terms of a body stay. -/
def combine : Instruction → List Term → Option (List Term)
  | .load, .constant (.symbol s) :: stack => some (.lookup s :: stack)
  | .define, value :: .constant (.symbol s) :: stack =>
    some (.assignment .define s value :: stack)
  | .store, value :: .constant (.symbol s) :: stack =>
    some (.assignment .overwrite s value :: stack)
  | .closure, .constant (.closure template) :: stack => some (.function template :: stack)
  | .pop, stack => some stack
  | .ret, stack => some stack
  | _, _ => none

/-- The terms on the stack at `q`, when code is executed from `p` on. Jumps lead forward. -/
def read (c : Closure) (p q : Nat) (stack : List Term) : Option (List Term) :=
  if _ : p < q then
    match c.code.decode p with
    | .ok (.const i) => c.constants[i.toNat]?.bind fun v => read c (p + 2) q (.constant v :: stack)
    | .ok (.call n) =>
      match stack.drop n.toNat with
      | callee :: others =>
        read c (p + 2) q (.call callee (stack.take n.toNat).reverse :: others)
      | [] => none
    | .ok (.jumpIfNot otherwise) =>
      match stack, c.code.decode (otherwise.toNat - 2) with
      | test :: stack, .ok (.jump done) =>
        if _ : p + 2 < otherwise.toNat ∧ otherwise.toNat ≤ done.toNat ∧ done.toNat ≤ q then
          match read c (p + 2) (otherwise.toNat - 2) [], read c otherwise.toNat done.toNat [] with
          | some [consequent], some [alternative] =>
            read c done.toNat q (.conditional test consequent alternative :: stack)
          | _, _ => none
        else none
      | _, _ => none
    | .ok i => (combine i stack).bind fun stack => read c (p + 1) q stack
    | .error _ => none
  else some stack
termination_by q - p

end Decompile

/-- The terms that the closure evaluates. -/
def ClosureOf.terms (c : Closure) : List Term :=
  ((Decompile.read c 1 c.code.size []).getD []).reverse

namespace Decompile

variable {c : Closure} {p q limit : Nat} {stack : List Term}

theorem read_self : read c p p stack = some stack := by
  rw [read, dif_neg (lt_irrefl p)]

theorem read_const {i : UInt16} {v : Value} (hlt : p < q) (hd : c.code.decode p = .ok (.const i))
    (hv : c.constants[i.toNat]? = some v) :
    read c p q stack = read c (p + 2) q (.constant v :: stack) := by
  rw [read, dif_pos hlt, hd]
  simp only [hv, Option.bind_some]

/-- An instruction without operand. -/
theorem read_combine {i : Instruction} {more : List Term} (hlt : p < q)
    (hd : c.code.decode p = .ok i) (hi : combine i stack = some more) :
    read c p q stack = read c (p + 1) q more := by
  rw [read, dif_pos hlt, hd]
  cases i with
  | const _ | call _ | jumpIfNot _ => simp [combine] at hi
  | _ => simp only [hi, Option.bind_some]

theorem read_call {n : UInt16} {callee : Term} {args : List Term} (hlt : p < q)
    (hd : c.code.decode p = .ok (.call n)) (hn : n.toNat = args.length) :
    read c p q (args.reverse ++ callee :: stack) =
      read c (p + 2) q (.call callee args :: stack) := by
  have hlength : args.reverse.length = n.toNat := by rw [List.length_reverse, hn]
  rw [read, dif_pos hlt, hd]
  simp only [← hlength, List.drop_left, List.take_left, List.reverse_reverse]

theorem read_conditional {r : Nat} {otherwise done : UInt16} {test consequent alternative : Term}
    (hd : c.code.decode p = .ok (.jumpIfNot otherwise)) (hotherwise : otherwise.toNat = r + 2)
    (hjump : c.code.decode r = .ok (.jump done)) (hlt : p < r) (hdone : r + 2 ≤ done.toNat)
    (hle : done.toNat ≤ q) (hconsequent : read c (p + 2) r [] = some [consequent])
    (halternative : read c (r + 2) done.toNat [] = some [alternative]) :
    read c p q (test :: stack) =
      read c done.toNat q (.conditional test consequent alternative :: stack) := by
  rw [read, dif_pos (by omega), hd]
  simp only [hotherwise, Nat.add_sub_cancel, hjump, hconsequent, halternative]
  rw [dif_pos (by omega)]

end Decompile

open Decompile

/-- Reading a block leaves the terms that it pushes the values of. -/
theorem Block.read_eq {c : Closure} {depth p q : Nat} {terms : List Term}
    (h : Block c depth p terms q) {limit : Nat} (hle : q ≤ limit) (stack : List Term) :
    read c p limit stack = read c q limit (terms.reverse ++ stack) := by
  -- reading a block pushes its terms; what was on the stack of terms is not looked at
  induction h generalizing limit stack with
  | nil => rfl
  | constant hd hv _ hrest ih =>
    have := hrest.le
    rw [read_const (by omega) hd hv, ih hle]
    simp
  | lookup hd hv _ hload hrest ih =>
    have := hrest.le
    rw [read_const (by omega) hd hv, read_combine (by omega) hload rfl, ih hle]
    simp
  | @conditional _ _ q r otherwise done test consequent alternative rest htest hjumpIfNot hthen
      hjump hotherwise helse e hrest iht ihc iha ih =>
    have := hthen.le
    have := helse.le
    have := hrest.le
    have hconsequent : read c (q + 2) r [] = some [consequent] :=
      (ihc le_rfl []).trans read_self
    have halternative : read c (r + 2) done.toNat [] = some [alternative] :=
      (iha le_rfl []).trans read_self
    rw [iht (by omega), List.reverse_singleton, List.singleton_append,
      read_conditional hjumpIfNot hotherwise hjump (by omega) (by omega) (by omega) hconsequent
        halternative, ih hle]
    simp
  | @assignment _ _ q e i way target value rest hd hv _ hvalue hway hrest ihv ih =>
    have := hvalue.le
    have := hrest.le
    have hcombine : combine way.instruction (value :: .constant (.symbol target) :: stack) =
        some (.assignment way target value :: stack) := by cases way <;> rfl
    rw [read_const (by omega) hd hv, ihv (by omega), List.reverse_singleton,
      List.singleton_append, read_combine (by omega) hway hcombine, ih hle]
    simp
  | function hd hv _ hclosure hrest ih =>
    have := hrest.le
    rw [read_const (by omega) hd hv, read_combine (by omega) hclosure rfl, ih hle]
    simp
  | @call _ _ q e n callee args rest hitems hcall hn hrest iht ih =>
    have := hrest.le
    rw [iht (by omega), List.reverse_cons, List.append_assoc, List.singleton_append,
      read_call (by omega) hcall hn, ih hle]
    simp

/-- Reading a body leaves its terms. -/
theorem Body.read_eq {c : Closure} {p : Nat} {body : List Term} (h : Body c p body)
    (stack : List Term) : read c p c.code.size stack = some (body.reverse ++ stack) := by
  induction h generalizing stack with
  | last hb hret hsize =>
    rw [hb.read_eq (by omega), read_combine (by omega) hret rfl, hsize, read_self]
  | cons hb hpop hrest ih =>
    have hlt := Code.lt_size_of_decode hpop
    rw [hb.read_eq hlt.le, read_combine hlt hpop rfl, ih]
    simp

/-- A closure that implements a body has the terms of that body. -/
theorem ClosureOf.Implements.terms_eq {c : Closure} {body : List Term} (h : c.Implements body) :
    c.terms = body := by
  rw [terms, h.body.read_eq]
  simp

end StackLisp
