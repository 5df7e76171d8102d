import StackLisp.Proofs.Block

/-!
# What code expects of the stack

Code that starts at some offset expects operands of a certain number and origin. `Ready` says that
it can run from there to its end with them: every instruction finds the operands it takes, pushes
only within the announced depth, jumps only forward, and exactly one operand is left to return.
Jumps lead forward only, so this is an inductive notion.

- `Block.ready`, `Body.ready`: code with the structure of terms is ready;
- `Ready.of_load`, `Ready.of_assign`, `Ready.of_closure`: the operands that these instructions look
  at come from constants.
-/

namespace StackLisp

/-- Where an operand comes from. -/
inductive Operand where
  /-- It is the constant at a place. -/
  | constant (place : Nat)
  /-- It is the value of a form. -/
  | result
deriving DecidableEq

/-- The code can run from an offset to its end with operands of the given origins, the top one
first. `G` holds of the constants that are pushed as values, `T` of the templates that are bound. -/
inductive Ready (c : Closure) (G : Value → Prop) (T : Closure → Prop) :
    Nat → List Operand → Prop
  | ret {p : Nat} : c.code.decode p = .ok .ret → p + 1 = c.code.size → Ready c G T p [.result]
  | pop {p : Nat} {operands : List Operand} : c.code.decode p = .ok .pop →
      Ready c G T (p + 1) operands → Ready c G T p (.result :: operands)
  /-- A constant is pushed as a value. -/
  | value {p : Nat} {i : UInt16} {v : Value} {operands : List Operand} :
      c.code.decode p = .ok (.const i) → c.constants[i.toNat]? = some v → G v →
      operands.length < c.code.maxStack → Ready c G T (p + 2) (.result :: operands) →
      Ready c G T p operands
  /-- A constant is pushed for an instruction further on that looks at it. -/
  | operand {p : Nat} {i : UInt16} {v : Value} {operands : List Operand} :
      c.code.decode p = .ok (.const i) → c.constants[i.toNat]? = some v →
      operands.length < c.code.maxStack →
      Ready c G T (p + 2) (.constant i.toNat :: operands) → Ready c G T p operands
  | load {p place : Nat} {s : Symbol} {operands : List Operand} : c.code.decode p = .ok .load →
      c.constants[place]? = some (.symbol s) → Ready c G T (p + 1) (.result :: operands) →
      Ready c G T p (.constant place :: operands)
  | assign {p place : Nat} {way : Assignment} {s : Symbol} {operands : List Operand} :
      c.code.decode p = .ok way.instruction → c.constants[place]? = some (.symbol s) →
      Ready c G T (p + 1) (.result :: operands) →
      Ready c G T p (.result :: .constant place :: operands)
  | closure {p place : Nat} {template : Closure} {operands : List Operand} :
      c.code.decode p = .ok .closure → c.constants[place]? = some (.closure template) →
      template.env = none → T template → Ready c G T (p + 1) (.result :: operands) →
      Ready c G T p (.constant place :: operands)
  | call {p : Nat} {n : UInt16} {operands : List Operand} : c.code.decode p = .ok (.call n) →
      Ready c G T (p + 2) (.result :: operands) →
      Ready c G T p (List.replicate (n.toNat + 1) .result ++ operands)
  | jump {p : Nat} {target : UInt16} {operands : List Operand} :
      c.code.decode p = .ok (.jump target) → p < target.toNat →
      Ready c G T target.toNat operands → Ready c G T p operands
  | jumpIfNot {p : Nat} {target : UInt16} {operands : List Operand} :
      c.code.decode p = .ok (.jumpIfNot target) → p < target.toNat →
      Ready c G T (p + 2) operands → Ready c G T target.toNat operands →
      Ready c G T p (.result :: operands)

variable {c : Closure} {G : Value → Prop} {T : Closure → Prop}

/-- A block runs with any operands below it, if what follows can run with its values on top. -/
theorem Block.ready {depth p q : Nat} {terms : List Term} (h : Block c depth p terms q)
    (hall : ∀ t ∈ terms, t.All G T) {operands : List Operand} (hdepth : operands.length = depth)
    (hnext : Ready c G T q (List.replicate terms.length .result ++ operands)) :
    Ready c G T p operands := by
  induction h generalizing operands with
  | nil => simpa using hnext
  | @constant _ _ _ i v rest hd hv hlt _ ih =>
    rw [List.forall_mem_cons] at hall
    obtain ⟨⟨hG⟩, hall⟩ := hall
    refine .value hd hv hG (by omega) (ih hall (by simp [hdepth]) ?_)
    rwa [List.length_cons, List.replicate_succ', List.append_assoc] at hnext
  | @lookup _ _ _ i s rest hd hs hlt hload _ ih =>
    rw [List.forall_mem_cons] at hall
    refine .operand hd hs (by omega) (.load hload hs (ih hall.2 (by simp [hdepth]) ?_))
    rwa [List.length_cons, List.replicate_succ', List.append_assoc] at hnext
  | @conditional depth p q r otherwise done _ _ _ rest ht hj hc hout hm ha e hr iht ihc iha ihr =>
    rw [List.forall_mem_cons] at hall
    obtain ⟨_ | _ | ⟨gt, gc, ga⟩, hall⟩ := hall
    -- both branches end where the rest starts, with one more value
    have hend : Ready c G T done.toNat (.result :: operands) := by
      refine ihr hall (by simp [hdepth]) ?_
      rwa [List.length_cons, List.replicate_succ', List.append_assoc] at hnext
    have hthen : Ready c G T (q + 2) operands :=
      ihc (by simpa using gc) hdepth (.jump hout (by have := ha.le; omega) hend)
    have helse : Ready c G T otherwise.toNat operands := by
      rw [hm]
      exact iha (by simpa using ga) hdepth hend
    exact iht (by simpa using gt) hdepth (.jumpIfNot hj (by have := hc.le; omega) hthen helse)
  | @assignment depth p q e i way s t rest hd hs hlt hv hway hr ihv ih =>
    rw [List.forall_mem_cons] at hall
    obtain ⟨_ | _ | _ | gv, hall⟩ := hall
    refine .operand hd hs (by omega) (ihv (by simpa using gv) (by simp [hdepth]) ?_)
    refine .assign hway hs (ih hall (by simp [hdepth]) ?_)
    rwa [List.length_cons, List.replicate_succ', List.append_assoc] at hnext
  | @function _ _ _ i d rest hd hs hlt hclosure _ ih =>
    rw [List.forall_mem_cons] at hall
    obtain ⟨_ | _ | _ | _ | ⟨he, hT⟩, hall⟩ := hall
    refine .operand hd hs (by omega) (.closure hclosure hs he hT
      (ih hall (by simp [hdepth]) ?_))
    rwa [List.length_cons, List.replicate_succ', List.append_assoc] at hnext
  | @call depth p q e n f args rest hitems hcall hn hr ihi ih =>
    rw [List.forall_mem_cons] at hall
    obtain ⟨_ | _ | _ | _ | _ | ⟨gf, gargs⟩, hall⟩ := hall
    have hend : Ready c G T (q + 2) (.result :: operands) := by
      refine ih hall (by simp [hdepth]) ?_
      rwa [List.length_cons, List.replicate_succ', List.append_assoc] at hnext
    refine ihi (List.forall_mem_cons.2 ⟨gf, gargs⟩) hdepth ?_
    rw [List.length_cons, ← hn]
    exact .call hcall hend

/-- The code of a body runs from its start without operands. -/
theorem Body.ready {p : Nat} {body : List Term} (h : Body c p body)
    (hall : ∀ t ∈ body, t.All G T) : Ready c G T p [] := by
  induction h with
  | last hb hret hsize => exact hb.ready hall rfl (.ret hret hsize)
  | cons hb hpop _ ih =>
    rw [List.forall_mem_cons] at hall
    exact hb.ready (by simpa using hall.1) rfl (.pop hpop (ih hall.2))

/-- The code of a closure runs from offset one without operands. -/
theorem ClosureOf.Implements.ready {body : List Term} (h : c.Implements body)
    (hall : ∀ t ∈ body, t.All G T) : Ready c G T 1 [] :=
  h.body.ready hall

/-! ## What an instruction expects -/

theorem Ready.eq_of_ret {p : Nat} {operands : List Operand} (h : Ready c G T p operands)
    (hd : c.code.decode p = .ok .ret) : operands = [.result] := by
  cases h with
  | ret => rfl
  | @assign _ _ way _ _ hd' => cases way <;> cases hd.symm.trans hd'
  | pop hd' | value hd' | operand hd' | load hd' | closure hd' | call hd' | jump hd'
  | jumpIfNot hd' => cases hd.symm.trans hd'

/-- A symbol that is looked up comes from a constant. -/
theorem Ready.of_load {p : Nat} {operands : List Operand} (h : Ready c G T p operands)
    (hd : c.code.decode p = .ok .load) : ∃ place s rest, operands = .constant place :: rest ∧
      c.constants[place]? = some (.symbol s) := by
  cases h with
  | load _ hs => exact ⟨_, _, _, rfl, hs⟩
  | @assign _ _ way _ _ hd' => cases way <;> cases hd.symm.trans hd'
  | pop hd' | value hd' | operand hd' | ret hd' | closure hd' | call hd' | jump hd'
  | jumpIfNot hd' => cases hd.symm.trans hd'

/-- A symbol that is assigned to comes from a constant. -/
theorem Ready.of_assign {p : Nat} {operands : List Operand} {way : Assignment}
    (h : Ready c G T p operands) (hd : c.code.decode p = .ok way.instruction) :
    ∃ place s rest, operands = .result :: .constant place :: rest ∧
      c.constants[place]? = some (.symbol s) := by
  cases h with
  | assign _ hs => exact ⟨_, _, _, rfl, hs⟩
  | pop hd' | value hd' | operand hd' | load hd' | ret hd' | closure hd' | call hd' | jump hd'
  | jumpIfNot hd' => cases way <;> cases hd.symm.trans hd'

/-- A function that is bound to an environment comes from a template. -/
theorem Ready.of_closure {p : Nat} {operands : List Operand} (h : Ready c G T p operands)
    (hd : c.code.decode p = .ok .closure) : ∃ place template rest,
      operands = .constant place :: rest ∧ c.constants[place]? = some (.closure template) ∧
      template.env = none ∧ T template := by
  cases h with
  | closure _ hv henv hT => exact ⟨_, _, _, rfl, hv, henv, hT⟩
  | @assign _ _ way _ _ hd' => cases way <;> cases hd.symm.trans hd'
  | pop hd' | value hd' | operand hd' | load hd' | ret hd' | call hd' | jump hd'
  | jumpIfNot hd' => cases hd.symm.trans hd'

end StackLisp
