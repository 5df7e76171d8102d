import Mathlib.Data.List.Forall2
import StackLisp.Machine.Load
import StackLisp.Proofs.Demands
import StackLisp.Proofs.Ready

/-!
# Verified code

A bytecode verifier looks at finished code only. It reads the instructions from offset one to the
end and follows every path that control can take, with the origins of the operands.

- `Code.Lists code p listing q`: the words from `p` to `q` are these instructions;
- `Flows c p operands`: some path leads from the start of a function to offset `p`, and leaves
  these operands there;
- `ClosureOf.Verified`: what the verifier demands of a function;
- `compiled_verified`: the compiler makes only such functions.
-/

namespace StackLisp

/-- The words from `p` up to `q` decode to the listed instructions, each with its offset. -/
inductive Code.Lists (code : Code) : (p : Nat) → List (Nat × Instruction) → (q : Nat) → Prop
  | nil {p : Nat} : Lists code p [] p
  | cons {p q : Nat} {i : Instruction} {rest : List (Nat × Instruction)} :
      code.decode p = .ok i → Lists code (p + i.width) rest q → Lists code p ((p, i) :: rest) q

namespace Instruction

/-- The offset that an instruction may jump to. -/
def target? : Instruction → Option Nat
  | .jump target | .jumpIfNot target => some target.toNat
  | _ => none

/-- The offsets at which control can go on after an instruction at `p`. -/
def successors (p : Nat) : Instruction → List Nat
  | .ret => []
  | .jump target => [target.toNat]
  | .jumpIfNot target => [p + 2, target.toNat]
  | i => [p + i.width]

/-- How many operands an instruction takes. -/
def takes : Instruction → Nat
  | .pop | .ret | .jumpIfNot _ | .load | .closure => 1
  | .define | .store => 2
  | .call argc => argc.toNat + 1
  | _ => 0

/-- The operands that an instruction leaves in place of those it took. -/
def gives : Instruction → List Operand
  | .const place => [.constant place.toNat]
  | .call _ | .load | .define | .store | .closure => [.result]
  | _ => []

end Instruction

/-- Control can reach the offset `p` from the start of the function, with operands of the given
origins, the top one first. -/
inductive Flows (c : Closure) : (p : Nat) → List Operand → Prop
  | start : Flows c 1 []
  | next {p q : Nat} {i : Instruction} {operands : List Operand} : Flows c p operands →
      c.code.decode p = .ok i → q ∈ i.successors p →
      Flows c q (i.gives ++ operands.drop i.takes)

/-- What a bytecode verifier demands of one function, given the listing of its code. -/
structure ClosureOf.Passes (c : Closure) (listing : List (Nat × Instruction)) : Prop where
  /-- The words from offset one to the end are the listing. -/
  decodes : c.code.Lists 1 listing c.code.size
  /-- No instruction is reserved. -/
  executable : ∀ x ∈ listing, x.2.isReserved = false
  /-- The last instruction returns, and no other does. -/
  returns : ∃ before p, listing = before ++ [(p, .ret)] ∧ ∀ x ∈ before, x.2 ≠ .ret
  /-- Jumps lead forward to an instruction. -/
  jumps : ∀ x ∈ listing, ∀ target, x.2.target? = some target →
    x.1 < target ∧ target < c.code.size ∧ ∃ i, (target, i) ∈ listing
  /-- Constants are pushed from places of the pool. -/
  constants : ∀ p place, (p, .const place) ∈ listing → place.toNat < c.constants.size
  /-- Control can reach every instruction. -/
  reached : ∀ x ∈ listing, ∃ operands, Flows c x.1 operands
  /-- Control stays among the instructions, and each finds the operands it takes. -/
  operands : ∀ {p operands}, Flows c p operands →
    ∃ i, (p, i) ∈ listing ∧ c.code.decode p = .ok i ∧ i.takes ≤ operands.length
  /-- The number of operands does not depend on the path. -/
  depth : ∀ {p a b}, Flows c p a → Flows c p b → a.length = b.length
  /-- There are never more operands than word zero announces. -/
  room : ∀ {p operands}, Flows c p operands → operands.length ≤ c.code.maxStack
  /-- Nothing but the result is left when the function returns. -/
  result : ∀ {p operands}, Flows c p operands → c.code.decode p = .ok .ret → operands.length = 1
  /-- A symbol that is looked up is a constant. -/
  load : ∀ {p operands}, Flows c p operands → c.code.decode p = .ok .load →
    ∃ place s rest, operands = .constant place :: rest ∧ c.constants[place]? = some (.symbol s)
  /-- So is a symbol that is assigned to. -/
  assign : ∀ {p operands way}, Flows c p operands →
    c.code.decode p = .ok (Assignment.instruction way) →
    ∃ top place s rest, operands = top :: .constant place :: rest ∧
      c.constants[place]? = some (.symbol s)
  /-- A function that is bound to an environment is a constant without one. -/
  closure : ∀ {p operands}, Flows c p operands → c.code.decode p = .ok .closure →
    ∃ place template rest, operands = .constant place :: rest ∧
      c.constants[place]? = some (.closure template) ∧ template.env = none
  /-- Arguments are bound to symbols. -/
  parameters : ∀ i < c.positional + (if c.variadic then 1 else 0),
    ∃ s, c.constants[i]? = some (.symbol s)

/-- A bytecode verifier accepts the function. -/
def ClosureOf.Verified (c : Closure) : Prop :=
  ∃ listing, c.Passes listing

/-- A function is itself, or was compiled for a function literal inside it: its template stands
among the constants and is pushed for a `closure` instruction. -/
inductive ClosureOf.Within : Closure → Closure → Prop
  | refl {c : Closure} : Within c c
  | literal {c d template : Closure} {listing : List (Nat × Instruction)} {p : Nat}
      {place : UInt16} : Within d template → c.code.Lists 1 listing c.code.size →
      (p, .const place) ∈ listing → c.code.decode (p + 2) = .ok .closure →
      c.constants[place.toNat]? = some (.closure template) → Within d c

/-! ## Listings -/

namespace Code.Lists

variable {code : Code} {p q r : Nat} {own more : List (Nat × Instruction)}

theorem append (h : Lists code p own q) (h' : Lists code q more r) :
    Lists code p (own ++ more) r := by
  induction h with
  | nil => exact h'
  | cons hd _ ih => exact .cons hd (ih h')

theorem single {i : Instruction} (h : code.decode p = .ok i) :
    Lists code p [(p, i)] (p + i.width) :=
  .cons h .nil

/-- A listing starts with an instruction at its first offset, unless it is empty. -/
theorem head (h : Lists code p own q) : (∃ i, (p, i) ∈ own) ∨ own = [] ∧ p = q := by
  cases h with
  | nil => exact .inr ⟨rfl, rfl⟩
  | cons => exact .inl ⟨_, List.mem_cons_self⟩

theorem decode (h : Lists code p own q) {x : Nat × Instruction} (hx : x ∈ own) :
    code.decode x.1 = .ok x.2 := by
  induction h with
  | nil => cases hx
  | cons hd _ ih =>
    rcases List.mem_cons.1 hx with rfl | hx
    · exact hd
    · exact ih hx

/-- An instruction is followed by another, or the listing ends behind it. -/
theorem following (h : Lists code p own q) {x : Nat × Instruction} (hx : x ∈ own) :
    x.1 + x.2.width = q ∨ ∃ i, (x.1 + x.2.width, i) ∈ own := by
  induction h with
  | nil => cases hx
  | cons _ hrest ih =>
    rcases List.mem_cons.1 hx with rfl | hx
    · rcases hrest.head with ⟨i, hi⟩ | ⟨-, heq⟩
      · exact .inr ⟨i, List.mem_cons_of_mem _ hi⟩
      · exact .inl heq
    · rcases ih hx with heq | ⟨i, hi⟩
      · exact .inl heq
      · exact .inr ⟨i, List.mem_cons_of_mem _ hi⟩

/-- Code has one listing. -/
theorem unique (h : Lists code p own code.size) (h' : Lists code p more code.size) :
    own = more := by
  have hend : ∀ i, code.decode code.size ≠ .ok i := by simp [Code.decode]
  generalize code.size = q at h h' hend
  induction h generalizing more with
  | nil =>
    cases h' with
    | nil => rfl
    | cons hd => exact absurd hd (hend _)
  | cons hd _ ih =>
    cases h' with
    | nil => exact absurd hd (hend _)
    | cons hd' h' =>
      obtain rfl := Except.ok.inj (hd.symm.trans hd')
      rw [ih h' hend]

end Code.Lists

section

variable {c : Closure}

/-- An instruction of a stretch of code that ends at `q` can be followed inside the stretch. -/
structure Followed (c : Closure) (own : List (Nat × Instruction)) (q : Nat)
    (x : Nat × Instruction) : Prop where
  executable : x.2.isReserved = false
  continues : x.2 ≠ .ret
  jump : ∀ target, x.2.target? = some target →
    x.1 < target ∧ (target = q ∨ ∃ i, (target, i) ∈ own)
  constant : ∀ place, x.2 = .const place → place.toNat < c.constants.size
  reached : ∃ operands, Flows c x.1 operands

/-- What can be followed inside a stretch can be followed inside a longer one. -/
theorem Followed.widen {own more : List (Nat × Instruction)} {q r : Nat} {x : Nat × Instruction}
    (h : Followed c own q x) (hown : ∀ y ∈ own, y ∈ more) (hq : q = r ∨ ∃ i, (q, i) ∈ more) :
    Followed c more r x := by
  refine { h with jump := fun target ht => ?_ }
  obtain ⟨hlt, rfl | ⟨i, hi⟩⟩ := h.jump target ht
  · exact ⟨hlt, hq⟩
  · exact ⟨hlt, .inr ⟨i, hown _ hi⟩⟩

/-- Code from `p` to `q` that can be followed from one end to the other. -/
structure Stretch (c : Closure) (p : Nat) (own : List (Nat × Instruction)) (q : Nat) : Prop where
  lists : c.code.Lists p own q
  followed : ∀ x ∈ own, Followed c own q x
  through : ∃ operands, Flows c q operands

theorem Stretch.append {p q r : Nat} {own more : List (Nat × Instruction)}
    (h : Stretch c p own q) (h' : Stretch c q more r) : Stretch c p (own ++ more) r where
  lists := h.lists.append h'.lists
  followed x hx := by
    rcases List.mem_append.1 hx with hx | hx
    · refine (h.followed x hx).widen (fun y hy => List.mem_append_left _ hy) ?_
      rcases h'.lists.head with ⟨i, hi⟩ | ⟨-, rfl⟩
      · exact .inr ⟨i, List.mem_append_right _ hi⟩
      · exact .inl rfl
    · exact (h'.followed x hx).widen (fun y hy => List.mem_append_right _ hy) (.inl rfl)
  through := h'.through

/-- An instruction that neither jumps nor returns is a stretch. -/
theorem Stretch.single {p : Nat} {i : Instruction} {operands : List Operand}
    (hf : Flows c p operands) (hd : c.code.decode p = .ok i) (hi : i.isReserved = false)
    (hnext : i.successors p = [p + i.width]) (ht : i.target? = none)
    (hc : ∀ place, i = .const place → place.toNat < c.constants.size) :
    Stretch c p [(p, i)] (p + i.width) where
  lists := .single hd
  followed x hx := by
    obtain rfl := List.mem_singleton.1 hx
    refine ⟨hi, ?_, by simp [ht], hc, _, hf⟩
    rintro rfl
    cases hnext
  through := ⟨_, hf.next hd (by simp [hnext])⟩

theorem lt_size_of_getElem? {pool : Array Value} {i : Nat} {v : Value} (h : pool[i]? = some v) :
    i < pool.size :=
  (Array.getElem?_eq_some_iff.1 h).1

theorem Stretch.constant {p : Nat} {place : UInt16} {v : Value}
    {operands : List Operand} (hf : Flows c p operands) (hd : c.code.decode p = .ok (.const place))
    (hv : c.constants[place.toNat]? = some v) :
    Stretch c p [(p, .const place)] (p + 2) := by
  refine .single hf hd rfl rfl rfl ?_
  rintro _ ⟨⟩
  exact lt_size_of_getElem? hv

/-- The code of a conditional can be followed if that of its parts can. -/
theorem Stretch.conditional {p q r : Nat} {otherwise done : UInt16}
    {a b d : List (Nat × Instruction)} (ha : Stretch c p a q)
    (hj : c.code.decode q = .ok (.jumpIfNot otherwise)) (hb : Stretch c (q + 2) b r)
    (hout : c.code.decode r = .ok (.jump done)) (hother : otherwise.toNat = r + 2)
    (hd : Stretch c (r + 2) d done.toNat) (hqr : q + 2 ≤ r) (hrd : r + 2 ≤ done.toNat) :
    Stretch c p (a ++ (q, .jumpIfNot otherwise) :: (b ++ (r, .jump done) :: d)) done.toNat := by
  obtain ⟨ops, hq⟩ := ha.through
  obtain ⟨ops', hr⟩ := hb.through
  refine ⟨ha.lists.append (.cons hj (hb.lists.append (.cons hout hd.lists))), ?_, hd.through⟩
  intro x hx
  simp only [List.mem_append, List.mem_cons] at hx
  obtain hx | rfl | hx | rfl | hx := hx
  · exact (ha.followed x hx).widen (by simp +contextual) (.inr ⟨.jumpIfNot otherwise, by simp⟩)
  · refine ⟨rfl, by simp, ?_, by simp, _, hq⟩
    rintro _ ⟨⟩
    -- the alternative starts behind the jump that ends the consequent
    rw [hother]
    refine ⟨by simp only; omega, ?_⟩
    rcases hd.lists.head with ⟨i, hi⟩ | ⟨-, heq⟩
    · exact .inr ⟨i, by simp [hi]⟩
    · exact .inl heq
  · exact (hb.followed x hx).widen (by simp +contextual) (.inr ⟨.jump done, by simp⟩)
  · refine ⟨rfl, by simp, ?_, by simp, _, hr⟩
    rintro _ ⟨⟩
    exact ⟨by simp only; omega, .inl rfl⟩
  · exact (hd.followed x hx).widen (by simp +contextual) (.inl rfl)

/-- Wherever control reaches `p`, the code from there to `q` can be followed. -/
def Traversable (c : Closure) (p q : Nat) : Prop :=
  ∀ ⦃operands : List Operand⦄, Flows c p operands → ∃ own, Stretch c p own q

namespace Traversable

variable {p q r : Nat}

theorem refl (c : Closure) (p : Nat) : Traversable c p p :=
  fun _ hf => ⟨[], .nil, by simp, _, hf⟩

theorem trans (h : Traversable c p q) (h' : Traversable c q r) : Traversable c p r := by
  intro operands hf
  obtain ⟨own, hown⟩ := h hf
  obtain ⟨_, hq⟩ := hown.through
  obtain ⟨more, hmore⟩ := h' hq
  exact ⟨own ++ more, hown.append hmore⟩

theorem single {i : Instruction} (hd : c.code.decode p = .ok i) (hi : i.isReserved = false)
    (hnext : i.successors p = [p + i.width]) (ht : i.target? = none)
    (hc : ∀ place, i ≠ .const place) : Traversable c p (p + i.width) :=
  fun _ hf => ⟨_, .single hf hd hi hnext ht fun place h => absurd h (hc place)⟩

theorem constant {place : UInt16} {v : Value} (hd : c.code.decode p = .ok (.const place))
    (hv : c.constants[place.toNat]? = some v) : Traversable c p (p + 2) :=
  fun _ hf => ⟨_, .constant hf hd hv⟩

theorem conditional {otherwise done : UInt16} (ht : Traversable c p q)
    (hj : c.code.decode q = .ok (.jumpIfNot otherwise)) (hc : Traversable c (q + 2) r)
    (hout : c.code.decode r = .ok (.jump done)) (hother : otherwise.toNat = r + 2)
    (ha : Traversable c (r + 2) done.toNat) (hqr : q + 2 ≤ r) (hrd : r + 2 ≤ done.toNat) :
    Traversable c p done.toNat := by
  intro operands hf
  obtain ⟨a, ha'⟩ := ht hf
  obtain ⟨_, hq⟩ := ha'.through
  -- the jump is taken or not, so both branches are reached
  obtain ⟨b, hb⟩ := hc (hq.next hj (by simp [Instruction.successors]))
  obtain ⟨d, hd⟩ := ha (hq.next hj (by simp [Instruction.successors, hother]))
  exact ⟨_, ha'.conditional hj hb hout hother hd hqr hrd⟩

end Traversable

/-- A block can be followed from its start to its end. -/
theorem Block.traversable {depth p q : Nat} {terms : List Term} (h : Block c depth p terms q) :
    Traversable c p q := by
  induction h with
  | nil => exact .refl c _
  | constant hd hv _ _ ih => exact (Traversable.constant hd hv).trans ih
  | lookup hd hs _ hload _ ih =>
    exact ((Traversable.constant hd hs).trans (.single hload rfl rfl rfl (by simp))).trans ih
  | conditional _ hj hc hout hother ha _ iht ihc iha ihr =>
    exact (iht.conditional hj ihc hout hother iha hc.le ha.le).trans ihr
  | @assignment _ _ q _ _ way _ _ _ hd hs _ _ hway _ ihv ih =>
    have hassign : Traversable c q (q + 1) := by
      cases way <;> exact .single hway rfl rfl rfl (by simp [Assignment.instruction])
    exact (((Traversable.constant hd hs).trans ihv).trans hassign).trans ih
  | function hd hs _ hclosure _ ih =>
    exact ((Traversable.constant hd hs).trans (.single hclosure rfl rfl rfl (by simp))).trans ih
  | call _ hcall _ _ ihi ih => exact (ihi.trans (.single hcall rfl rfl rfl (by simp))).trans ih

/-- The code of a body can be followed up to the instruction that returns, at its end. -/
theorem Body.traversable {p : Nat} {body : List Term} (h : Body c p body) :
    ∃ q, Traversable c p q ∧ c.code.decode q = .ok .ret ∧ q + 1 = c.code.size := by
  induction h with
  | last hb hret hsize => exact ⟨_, hb.traversable, hret, hsize⟩
  | cons hb hpop _ ih =>
    obtain ⟨q, hrest, hend⟩ := ih
    exact ⟨q, (hb.traversable.trans (.single hpop rfl rfl rfl (by simp))).trans hrest, hend⟩

/-! ## Operands -/

/-- An operand of the first origin serves where one of the second is expected. -/
def Operand.Serves (a b : Operand) : Prop :=
  b = .result ∨ a = b

/-- Operands that serve one by one. -/
abbrev Serve (a b : List Operand) : Prop :=
  List.Forall₂ Operand.Serves a b

theorem Operand.serves_refl (a : Operand) : a.Serves a :=
  .inr rfl

instance : Std.Refl Operand.Serves :=
  ⟨Operand.serves_refl⟩

theorem Operand.serves_result (a : Operand) : a.Serves .result :=
  .inl rfl

variable {G : Value → Prop} {T : Closure → Prop}

/-- An instruction at `p` finds the operands it takes, leaves no more than there is room for, and
what it leaves is expected wherever control can go on. -/
structure Fits (c : Closure) (G : Value → Prop) (T : Closure → Prop) (p : Nat) (i : Instruction)
    (operands : List Operand) : Prop where
  takes : i.takes ≤ operands.length
  room : operands.length ≤ c.code.maxStack →
    i.gives.length + (operands.length - i.takes) ≤ c.code.maxStack
  next : ∀ q ∈ i.successors p, ∃ expected, Ready c G T q expected ∧
    Serve (i.gives ++ operands.drop i.takes) expected

/-- An instruction that leaves one result in place of what it took fits where the result is
expected. -/
theorem Fits.of_result {p q : Nat} {i : Instruction} {operands rest : List Operand}
    (hgives : i.gives = [.result]) (hpos : 0 < i.takes) (hnext : i.successors p = [q])
    (htakes : i.takes ≤ operands.length) (hr : Ready c G T q (.result :: rest))
    (hs : Serve (operands.drop i.takes) rest) : Fits c G T p i operands where
  takes := htakes
  room h := by
    rw [hgives, List.length_singleton]
    omega
  next := by
    rw [hgives, hnext]
    exact List.forall_mem_singleton.2 ⟨_, hr, .cons (Operand.serves_refl _) hs⟩

/-- Operands that are expected at an offset fit the instruction there. -/
theorem Ready.fits {p : Nat} {expected : List Operand} (h : Ready c G T p expected)
    {i : Instruction} (hd : c.code.decode p = .ok i) {operands : List Operand}
    (hs : Serve operands expected) : Fits c G T p i operands := by
  have hlength := hs.length_eq
  -- what is ready knows the instruction; what it takes is split off the operands
  cases h with
  | ret hret =>
    obtain rfl := Except.ok.inj (hd.symm.trans hret)
    exact ⟨hlength.ge, fun h => by
      simp [Instruction.gives.eq_def, hlength, Instruction.takes.eq_def], fun _ hq => nomatch hq⟩
  | pop hpop hr =>
    obtain rfl := Except.ok.inj (hd.symm.trans hpop)
    obtain ⟨a, rest, -, hrest, rfl⟩ := List.forall₂_cons_right_iff.1 hs
    refine ⟨Nat.le_add_left _ _, fun h => by
      simp [Instruction.gives.eq_def, Instruction.takes.eq_def] at *; omega, ?_⟩
    exact List.forall_mem_singleton.2 ⟨_, hr, hrest⟩
  | value hconst hv _ hlt hr =>
    obtain rfl := Except.ok.inj (hd.symm.trans hconst)
    refine ⟨Nat.zero_le _, fun _ => by
      simp [Instruction.gives.eq_def, Instruction.takes.eq_def]; omega, ?_⟩
    exact List.forall_mem_singleton.2 ⟨_, hr, .cons (Operand.serves_result _) hs⟩
  | operand hconst hv hlt hr =>
    obtain rfl := Except.ok.inj (hd.symm.trans hconst)
    refine ⟨Nat.zero_le _, fun _ => by
      simp [Instruction.gives.eq_def, Instruction.takes.eq_def]; omega, ?_⟩
    exact List.forall_mem_singleton.2 ⟨_, hr, .cons (Operand.serves_refl _) hs⟩
  | load hload hv hr =>
    obtain rfl := Except.ok.inj (hd.symm.trans hload)
    obtain ⟨a, rest, -, hrest, rfl⟩ := List.forall₂_cons_right_iff.1 hs
    exact .of_result rfl Nat.one_pos rfl (Nat.le_add_left _ _) hr hrest
  | @assign _ _ way _ _ hway hv hr =>
    obtain rfl := Except.ok.inj (hd.symm.trans hway)
    obtain ⟨a, _, -, hs', rfl⟩ := List.forall₂_cons_right_iff.1 hs
    obtain ⟨b, rest, -, hrest, rfl⟩ := List.forall₂_cons_right_iff.1 hs'
    cases way <;> exact .of_result rfl Nat.two_pos rfl (Nat.le_add_left _ _) hr hrest
  | closure hclosure hv _ _ hr =>
    obtain rfl := Except.ok.inj (hd.symm.trans hclosure)
    obtain ⟨a, rest, -, hrest, rfl⟩ := List.forall₂_cons_right_iff.1 hs
    exact .of_result rfl Nat.one_pos rfl (Nat.le_add_left _ _) hr hrest
  | @call _ n below hcall hr =>
    obtain rfl := Except.ok.inj (hd.symm.trans hcall)
    have hbelow := List.forall₂_drop_append _ _ _ hs
    rw [List.length_replicate] at hbelow
    rw [List.length_append, List.length_replicate] at hlength
    exact .of_result rfl (Nat.succ_pos _) rfl ((Nat.le_add_right _ _).trans hlength.ge) hr hbelow
  | jump hjump _ hr =>
    obtain rfl := Except.ok.inj (hd.symm.trans hjump)
    exact ⟨Nat.zero_le _, fun h => by
      simpa [Instruction.gives.eq_def, Instruction.takes.eq_def] using h,
      List.forall_mem_singleton.2 ⟨_, hr, hs⟩⟩
  | jumpIfNot hjump _ hr hr' =>
    obtain rfl := Except.ok.inj (hd.symm.trans hjump)
    obtain ⟨a, rest, -, hrest, rfl⟩ := List.forall₂_cons_right_iff.1 hs
    refine ⟨Nat.le_add_left _ _, fun h => by
      simp [Instruction.gives.eq_def, Instruction.takes.eq_def] at *; omega, ?_⟩
    exact List.forall_mem_cons.2 ⟨⟨_, hr, hrest⟩, List.forall_mem_singleton.2 ⟨_, hr', hrest⟩⟩

/-- The operands that a path leaves at an offset are those expected there. -/
theorem Flows.ready (hready : Ready c G T 1 []) {p : Nat} {operands : List Operand}
    (h : Flows c p operands) : operands.length ≤ c.code.maxStack ∧
      ∃ expected, Ready c G T p expected ∧ Serve operands expected := by
  induction h with
  | start => exact ⟨Nat.zero_le _, [], hready, .nil⟩
  | next _ hd hq ih =>
    obtain ⟨hroom, expected, hexpected, hs⟩ := ih
    have hfits := hexpected.fits hd hs
    refine ⟨?_, hfits.next _ hq⟩
    rw [List.length_append, List.length_drop]
    exact hfits.room hroom

/-- An offset determines the number of operands. -/
theorem Ready.length_unique {p : Nat} {a b : List Operand} (ha : Ready c G T p a)
    (hb : Ready c G T p b) : a.length = b.length := by
  -- what follows the instruction has as many operands, whether it is reached from `a` or `b`
  have hfits : ∀ {i : Instruction} {p q : Nat} {b : List Operand}, Ready c G T p b →
      c.code.decode p = .ok i → q ∈ i.successors p → i.takes ≤ b.length ∧
      ∃ b', Ready c G T q b' ∧ b'.length = i.gives.length + (b.length - i.takes) := by
    intro i p q b hb hd hq
    have hfits := hb.fits hd (List.forall₂_refl b)
    obtain ⟨b', hb', hs⟩ := hfits.next q hq
    exact ⟨hfits.takes, b', hb', by simp [← hs.length_eq]⟩
  induction ha generalizing b with
  | ret hd => rw [hb.eq_of_ret hd]
  | @assign _ _ way _ _ hd _ _ ih =>
    have hnext : way.instruction.takes = 2 ∧ way.instruction.gives = [.result] ∧
        ∀ p, way.instruction.successors p = [p + 1] := by
      cases way <;> exact ⟨rfl, rfl, fun _ => rfl⟩
    obtain ⟨htakes, b', hb', hlength⟩ := hfits hb hd (hnext.2.2 _ ▸ List.mem_singleton_self _)
    have := ih hb'
    simp only [hnext.1, hnext.2.1, List.length_cons, List.length_nil] at *
    omega
  | jump hd _ _ ih =>
    obtain ⟨-, b', hb', hlength⟩ := hfits hb hd (List.mem_singleton.2 rfl)
    rw [ih hb', hlength]
    simp [Instruction.takes.eq_def, Instruction.gives.eq_def]
  | jumpIfNot hd _ _ _ ih _ =>
    obtain ⟨htakes, b', hb', hlength⟩ := hfits hb hd List.mem_cons_self
    have := ih hb'
    simp [Instruction.takes.eq_def, Instruction.gives.eq_def] at htakes hlength ⊢
    omega
  | call hd _ ih =>
    obtain ⟨htakes, b', hb', hlength⟩ := hfits hb hd (List.mem_singleton.2 rfl)
    have := ih hb'
    simp [Instruction.takes.eq_def, Instruction.gives.eq_def] at htakes hlength this ⊢
    omega
  | pop hd _ ih | value hd _ _ _ _ ih | operand hd _ _ _ ih | load hd _ _ ih
  | closure hd _ _ _ _ ih =>
    obtain ⟨htakes, b', hb', hlength⟩ := hfits hb hd (List.mem_singleton.2 rfl)
    have := ih hb'
    simp [Instruction.takes.eq_def, Instruction.gives.eq_def] at htakes hlength this ⊢
    omega

/-! ## Compiled functions -/

/-- An operand that is expected to be a constant is that constant. -/
theorem Serve.eq_constant {operands expected : List Operand} {place : Nat}
    (h : Serve operands (.constant place :: expected)) :
    ∃ rest, operands = .constant place :: rest ∧ Serve rest expected := by
  obtain ⟨a, rest, ⟨⟨⟩⟩ | rfl, hrest, heq⟩ := List.forall₂_cons_right_iff.1 h
  exact ⟨rest, heq, hrest⟩

/-- A stretch that ends with the return of the function is all that control can reach. -/
theorem Stretch.closed {own : List (Nat × Instruction)} {q : Nat} (h : Stretch c 1 own q)
    (hret : c.code.decode q = .ok .ret) {p : Nat} {operands : List Operand}
    (hf : Flows c p operands) : ∃ i, (p, i) ∈ own ++ [(q, .ret)] := by
  have hat : ∀ {p : Nat}, (p = q ∨ ∃ i, (p, i) ∈ own) → ∃ i, (p, i) ∈ own ++ [(q, .ret)] := by
    rintro p (rfl | ⟨i, hi⟩)
    · exact ⟨.ret, by simp⟩
    · exact ⟨i, List.mem_append_left _ hi⟩
  induction hf with
  | start =>
    rcases h.lists.head with hi | ⟨-, heq⟩
    · exact hat (.inr hi)
    · exact hat (.inl heq)
  | @next p target i _ _ hd hq ih =>
    obtain ⟨j, hj⟩ := ih
    rcases List.mem_append.1 hj with hj | hj
    · obtain rfl : j = i := Except.ok.inj ((h.lists.decode hj).symm.trans hd)
      have hfollowed := h.followed _ hj
      by_cases hjump : j.target? = some target
      · exact hat (hfollowed.jump target hjump).2
      · -- control that does not jump goes on with the next instruction
        have hnext : target = p + j.width := by
          cases j <;> simp_all [Instruction.successors, Instruction.target?, Instruction.width,
            Instruction.opcode, Opcode.operands, eq_comm]
        exact hnext ▸ hat (h.lists.following hj)
    · obtain ⟨rfl, rfl⟩ : p = q ∧ j = .ret := by simpa using hj
      cases Except.ok.inj (hret.symm.trans hd)
      cases hq

/-- A function whose code was assembled from terms passes the verifier. -/
theorem ClosureOf.Implements.verified {body : List Term} (h : c.Implements body)
    (hall : ∀ t ∈ body, t.All G T) : c.Verified := by
  have hready : Ready c G T 1 [] := h.ready hall
  obtain ⟨q, htraversable, hret, hsize⟩ := h.body.traversable
  obtain ⟨own, hown⟩ := htraversable .start
  have hlists : c.code.Lists 1 (own ++ [(q, .ret)]) c.code.size := by
    rw [← hsize]
    exact hown.lists.append (.single hret)
  -- all but the last instruction can be followed inside the stretch, and the last one returns
  have hin : ∀ {x}, x ∈ own ++ [(q, Instruction.ret)] →
      Followed c own q x ∨ x = (q, .ret) := by
    intro x hx
    rcases List.mem_append.1 hx with hx | hx
    · exact .inl (hown.followed x hx)
    · exact .inr (List.mem_singleton.1 hx)
  refine ⟨own ++ [(q, .ret)], {
    decodes := hlists
    executable := fun x hx => ?executable
    returns := ⟨own, q, rfl, fun x hx => (hown.followed x hx).continues⟩
    jumps := fun x hx target ht => ?jumps
    constants := fun p place hx => ?constants
    reached := fun x hx => ?reached
    operands := fun {p operands} hf => ?operands
    depth := fun {p a b} ha hb => ?depth
    room := fun hf => (hf.ready hready).1
    result := fun {p operands} hf hd => ?result
    load := fun {p operands} hf hd => ?load
    assign := fun {p operands way} hf hd => ?assign
    closure := fun {p operands} hf hd => ?closure
    parameters := h.parameters }⟩
  case executable =>
    rcases hin hx with hx | rfl
    · exact hx.executable
    · rfl
  case jumps =>
    rcases hin hx with hx | rfl
    · obtain ⟨hlt, rfl | ⟨i, hi⟩⟩ := hx.jump target ht
      · exact ⟨hlt, by omega, .ret, by simp⟩
      · exact ⟨hlt, Code.lt_size_of_decode (hown.lists.decode hi), i, List.mem_append_left _ hi⟩
    · cases ht
  case constants =>
    rcases hin hx with hx | hx
    · exact hx.constant place rfl
    · cases hx
  case reached =>
    rcases hin hx with hx | rfl
    · exact hx.reached
    · exact hown.through
  case operands =>
    obtain ⟨i, hi⟩ := hown.closed hret hf
    obtain ⟨-, expected, hexpected, hs⟩ := hf.ready hready
    have hd := hlists.decode hi
    exact ⟨i, hi, hd, (hexpected.fits hd hs).takes⟩
  case depth =>
    obtain ⟨-, expected, hexpected, hs⟩ := ha.ready hready
    obtain ⟨-, expected', hexpected', hs'⟩ := hb.ready hready
    rw [hs.length_eq, hs'.length_eq, hexpected.length_unique hexpected']
  case result =>
    obtain ⟨-, expected, hexpected, hs⟩ := hf.ready hready
    rw [hs.length_eq, hexpected.eq_of_ret hd]
    rfl
  case load =>
    obtain ⟨-, expected, hexpected, hs⟩ := hf.ready hready
    obtain ⟨place, s, rest, rfl, hv⟩ := hexpected.of_load hd
    obtain ⟨rest, rfl, -⟩ := hs.eq_constant
    exact ⟨place, s, rest, rfl, hv⟩
  case assign =>
    obtain ⟨-, expected, hexpected, hs⟩ := hf.ready hready
    obtain ⟨place, s, rest, rfl, hv⟩ := hexpected.of_assign hd
    obtain ⟨top, below, -, hbelow, rfl⟩ := List.forall₂_cons_right_iff.1 hs
    obtain ⟨rest, rfl, -⟩ := Serve.eq_constant hbelow
    exact ⟨top, place, s, rest, rfl, hv⟩
  case closure =>
    obtain ⟨-, expected, hexpected, hs⟩ := hf.ready hready
    obtain ⟨place, template, rest, rfl, hv, henv, -⟩ := hexpected.of_closure hd
    obtain ⟨rest, rfl, -⟩ := hs.eq_constant
    exact ⟨place, template, rest, rfl, hv, henv⟩

/-- The template that is pushed for a `closure` instruction belongs to a term. -/
theorem ClosureOf.Implements.template {body : List Term} (h : c.Implements body)
    (hall : ∀ t ∈ body, t.All G T) {listing : List (Nat × Instruction)} {p : Nat} {place : UInt16}
    {template : Closure} (hlists : c.code.Lists 1 listing c.code.size)
    (hp : (p, .const place) ∈ listing) (hd : c.code.decode (p + 2) = .ok .closure)
    (hv : c.constants[place.toNat]? = some (.closure template)) : T template := by
  obtain ⟨listing', hpasses⟩ := h.verified hall
  obtain rfl := hlists.unique hpasses.decodes
  obtain ⟨operands, hf⟩ := hpasses.reached _ hp
  have hnext := hf.next (hlists.decode hp) (List.mem_singleton.2 rfl)
  obtain ⟨-, expected, hexpected, hs⟩ := hnext.ready (h.ready hall)
  obtain ⟨place', template', rest, rfl, hv', -, hT⟩ := hexpected.of_closure hd
  obtain ⟨rest, heq, -⟩ := hs.eq_constant
  cases heq
  obtain rfl : template = template' := by
    rw [hv] at hv'
    injection hv' with hv'
    injection hv'
  exact hT

/-- A function that was compiled from terms, and all functions inside it, pass the verifier. -/
theorem ClosureOf.Coded.verified (hc : c.Coded G) {d : Closure} (hd : d.Within c) :
    d.Verified := by
  induction hd with
  | refl =>
    obtain ⟨himplements, hall⟩ := hc
    exact himplements.verified hall
  | literal _ hlists hp hclosure hv ih =>
    obtain ⟨himplements, hall⟩ := hc
    exact ih (himplements.template hall hlists hp hclosure hv)

end

/-- A complete function literal is compiled to verified functions. -/
theorem Compiler.compileTop_verified {ev : Evaluator} {k : Keywords} {literal : FunctionLiteral}
    {c d : Closure} {e e' : Engine} (hcomplete : literal.Complete)
    (h : compileTop ev k literal e = (.ok c, e')) (hd : d.Within c) : d.Verified := by
  obtain ⟨_, hcompiled⟩ : ∃ w', Compiled (.lax ev k) literal () e c w' e' :=
    compileTop_compiled hcomplete trivial (fun _ _ => trivial) h
  obtain ⟨body, -, -, -, -, himplements, hfit⟩ := hcompiled.body
  exact ClosureOf.Coded.verified (Fit.coded hfit himplements) hd

/-- Whatever macros do, the functions that the compiler makes of a form pass the verifier: the
one for the form itself and those for the function literals inside it. -/
theorem compiled_verified {ev : Evaluator} {form : Value} {c d : Closure} {e e' : Engine}
    (h : Compiler.compileFunction ev form e = (.ok c, e') ∨
      Compiler.compileThunk ev form e = (.ok c, e'))
    (hd : d.Within c) : d.Verified := by
  rcases h with h | h
  · obtain ⟨k, e₁, -, h⟩ := Eval.bind_eq_ok.1 h
    obtain ⟨literal, e₂, hread, htop⟩ := Eval.bind_eq_ok.1 h
    obtain ⟨hliteral, rfl⟩ := Eval.ofExcept_eq_ok.1 hread
    exact Compiler.compileTop_verified (FunctionLiteral.complete_of_ofForm hliteral) htop hd
  · obtain ⟨k, e₁, -, htop⟩ := Eval.bind_eq_ok.1 h
    exact Compiler.compileTop_verified (FunctionLiteral.complete_thunk _) htop hd

/-! ## An example -/

namespace Compiler

/-- What an empty body is compiled to. -/
def emptyFunction (ref : Ref) : Closure :=
  { ref, name := "anonymous", code := #[1, 8, 0, 3], positional := 0, variadic := false
    constants := #[.nil], env := none }

theorem compileLiteral_empty (compile : Value → Build Unit) (e : Engine) :
    compileLiteral compile (.thunk []) e =
      (.ok (emptyFunction e.store.nextRef), { e with store := e.store.fresh.2 }) := by
  have hconstant : ({} : Builder).constant .nil =
      .ok (({} : Builder).push .nil |>.emit (.const 0)) := by
    simp [Builder.constant, Builder.place, Builder.pushAt]
  have hbuild : (do compileBody compile []; emit .ret : Build Unit) (.ofParameters []) e =
      (.ok ((), (({} : Builder).push .nil |>.emit (.const 0)).emit .ret), e) :=
    Build.bind_eq_ok.2 ⟨(), _, e, constant_eq_ok.2 ⟨hconstant, rfl⟩, rfl⟩
  exact Eval.bind_of_ok hbuild _

/-- The form `(fn ())`. -/
def emptyLiteral (k : Keywords) : Value :=
  .list 0 (.symbol k.function) [.nil]

theorem shape_emptyLiteral (k : Keywords) :
    (Shape.function (.thunk [])).Of k (.symbol k.function) [.nil] :=
  ⟨Keywords.special?_eq_function_iff.2 rfl, .nil, [], rfl, rfl, .plain [] (by simp)⟩

/-- What the form `(fn ())` is compiled to. -/
def emptyThunk (ref : Ref) : Closure :=
  { ref := ref + 1, name := "anonymous", code := #[1, 8, 0, 12, 3], positional := 0
    variadic := false, constants := #[.closure (emptyFunction ref)], env := none }

theorem compileLiteral_emptyLiteral {ev : Evaluator} (hfuel : 0 < ev.fuel) (k : Keywords)
    (limit room : Nat) (e : Engine) :
    compileLiteral (compileForm ev k limit (room + 1)) (.thunk [emptyLiteral k]) e =
      (.ok (emptyThunk e.store.nextRef), { e with store := e.store.fresh.2.fresh.2 }) :=
  compileLiteral_form _ rfl (compileForm_function hfuel (shape_emptyLiteral k)
    (compileLiteral_empty _ e) (Nat.zero_le _)) rfl

theorem compileThunk_emptyLiteral {ev : Evaluator} (hfuel : 0 < ev.fuel) (e : Engine) {room : Nat}
    (hroom : e.limits.maxCompileDepth = room + 1) :
    compileThunk ev (emptyLiteral (Keywords.intern e.store).1) e =
      (.ok (emptyThunk (Keywords.intern e.store).2.nextRef),
        { e with store := (Keywords.intern e.store).2.fresh.2.fresh.2 }) := by
  rw [compileThunk_run, compileTop_run]
  -- named, since interning the keywords is not to be computed here
  generalize Keywords.intern e.store = interned
  obtain ⟨k, store⟩ := interned
  simp only [hroom]
  exact compileLiteral_emptyLiteral hfuel k (room + 1) room _

end Compiler

/-- A call of a function that tests its argument and assigns to it compiles, and both functions made
of it are verified. -/
theorem compiled_verified_assigning : ∃ form c e',
    Compiler.compileThunk (Machine.evaluator 2) form default = (.ok c, e') ∧
      ∀ d : Closure, d.Within c → d.Verified := by
  have hnamed : (default : Engine).store.symbols.Named := SymbolTable.Made.empty.named
  have hmacros : (default : Engine).NoMacros := by
    intro s c h
    cases (Globals.get?_empty s).symm.trans h
  have hfuel : 0 < (Machine.evaluator 2).fuel := Nat.one_pos
  obtain ⟨c, e', hc⟩ := Compiler.compileThunk_of_fits hfuel hmacros
    (Compiler.denotes_assigning hnamed (x := ⟨_ + 1, "x"⟩) fun h =>
      absurd (congrArg Symbol.id h) (Nat.succ_ne_self _)) (by decide) (Compiler.fits_assigning _)
  exact ⟨_, c, e', hc, fun d hd => compiled_verified (.inr hc) hd⟩

end StackLisp
