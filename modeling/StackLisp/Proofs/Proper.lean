import Mathlib.Order.MinMax
import StackLisp.Machine.CallFrame
import StackLisp.Proofs.Scopes
import StackLisp.Proofs.Shapes
import StackLisp.Proofs.Term

/-!
# Proper values and sound engines

What programs can put together: values whose closures were all compiled and bound to environments
that exist, and engines that hold only such values.

- `Value.Proper n`: the closures in a value are compiled and bound to one of `n` environments;
- `Engine.Sound`: all bindings are proper, environments link to older ones only, and host functions
  behave;
- `Engine.Keeps`: what stays as it was whenever code runs outside the machine;
- `Error.Tame`: the errors that a program can be at fault for.
-/

namespace StackLisp

/-- Whether closures count as values before they are bound to an environment. Code binds every
closure that it makes. Only a host program can pass one on that it has just compiled. -/
class Unbound where
  allowed : Prop

/-- All values are bound, as where a host program only evaluates texts and forms. -/
@[reducible]
def Unbound.never : Unbound := ⟨False⟩

/-- A host program may pass on what it has compiled. -/
@[reducible]
def Unbound.anywhere : Unbound := ⟨True⟩

/-- Every closure in the value was compiled and, unless it may be unbound, is bound to one of the
first `n` environments. -/
inductive Value.Proper [Unbound] (n : Nat) : Value → Prop
  | number (x : Number) : Proper n (.number x)
  | symbol (s : Symbol) : Proper n (.symbol s)
  | boolean (b : Bool) : Proper n (.boolean b)
  | string (ref : Ref) (text : String) : Proper n (.string ref text)
  | nil : Proper n .nil
  | list {ref : Ref} {first : Value} {others : List Value} : Proper n first →
      (∀ v ∈ others, Proper n v) → Proper n (.list ref first others)
  | intrinsic (ref : Ref) (function : Intrinsic) : Proper n (.intrinsic ref function)
  | closure {c : Closure} : (c.env = none → Unbound.allowed) → (∀ env ∈ c.env, env < n) →
      c.Coded (Value.Proper n) → Proper n (.closure c)

section

variable [Unbound]

/-- A value stays proper when there are more environments. -/
theorem Value.Proper.mono {n m : Nat} (hnm : n ≤ m) {v : Value} (h : v.Proper n) : v.Proper m := by
  -- the other motives are about the closures inside the value and the terms of their bodies
  refine @Value.Proper.rec _ n (fun v _ => v.Proper m) (fun c _ => c.Coded (Value.Proper m))
    (fun t _ => t.All (Value.Proper m) (ClosureOf.Coded (Value.Proper m)))
    .number .symbol .boolean .string .nil (fun _ _ h hs => .list h hs) .intrinsic
    (fun he hlt _ ih => .closure he (fun env h => (hlt env h).trans_le hnm) ih)
    (fun hi _ ih => .intro hi ih)
    (fun _ ih => .constant ih) .lookup (fun _ _ _ iha ihb ihc => .conditional iha ihb ihc)
    (fun _ ih => .assignment ih) (fun he _ ih => .function he ih)
    (fun _ _ ihf iha => .call ihf iha) v h

/-- A closure that may be called when there are `n` environments. One that is called from outside
the machine need not be bound to any. -/
structure ClosureOf.Callable (n : Nat) (c : Closure) : Prop where
  coded : c.Coded (Value.Proper n)
  env : ∀ env ∈ c.env, env < n

theorem ClosureOf.Callable.mono {n m : Nat} (hnm : n ≤ m) {c : Closure} (h : c.Callable n) :
    c.Callable m :=
  ⟨h.coded.mono fun _ => .mono hnm, fun env he => (h.env env he).trans_le hnm⟩

namespace Value

variable {n : Nat}

theorem proper_list_iff {ref : Ref} {first : Value} {others : List Value} :
    (Value.list ref first others).Proper n ↔ ∀ v ∈ first :: others, v.Proper n := by
  rw [List.forall_mem_cons]
  constructor
  · rintro ⟨⟩
    exact ⟨by assumption, by assumption⟩
  · exact fun h => .list h.1 h.2

theorem Proper.callable {c : Closure} (h : (Value.closure c).Proper n) : c.Callable n := by
  cases h with
  | closure _ henv hcoded => exact ⟨hcoded, henv⟩

/-- The items of a proper list are proper. -/
theorem Proper.items {v : Value} {items : List Value} (h : v.Proper n)
    (hitems : v.items? = some items) : ∀ item ∈ items, item.Proper n := by
  cases v <;> simp only [items?, Option.some.injEq, reduceCtorEq] at hitems
  · subst hitems
    simp
  · subst hitems
    exact proper_list_iff.1 h

end Value

/-- A list that is made of proper values is proper. -/
theorem Store.proper_list {n : Nat} (store : Store) {items : List Value}
    (h : ∀ v ∈ items, v.Proper n) : (store.list items).1.Proper n := by
  cases items with
  | nil => exact .nil
  | cons first others => exact Value.proper_list_iff.2 h

end

/-! ## Errors -/

/-- The error is not one of those that show a broken machine. -/
def Error.Tame : Error → Prop
  | .undecodable _ | .inconsistent _ => False
  | _ => True

/-- The computation did not stop because the machine is broken. -/
def Stop.Tame : Stop → Prop
  | .fault error => error.Tame
  | .outOfFuel | .awaits _ => True

/-! ## Engines -/

/-- A host function makes proper values of proper values and fails only with errors that are not
the machine's. -/
def HostFunction.Behaves [Unbound] (function : HostFunction) : Prop :=
  ∀ (n : Nat) (args : List Value) (store : Store), (∀ v ∈ args, v.Proper n) →
    match (function.call args).run store with
    | (.ok v, _) => v.Proper n
    | (.error error, _) => error.Tame

/-- All values that code can come across are proper. -/
structure Engine.Sound [Unbound] (e : Engine) : Prop where
  globals : ∀ {s v}, e.globals.get? s = some v → v.Proper e.envs.size
  bindings : ∀ {env s v}, (e.envs.bindings env).get? s = some v → v.Proper e.envs.size
  /-- An environment is enclosed by one that was there before it. -/
  older : e.envs.Older
  hosts : ∀ function ∈ e.hosts, function.Behaves

/-- What bears on how much stack code can have, and how many calls. -/
structure Room where
  limits : Limits
  stack : Stack
  /-- The first slot that is not in use. -/
  sp : Nat
  /-- How many calls from outside the machine are in progress. -/
  depth : Nat

def Engine.room (e : Engine) : Room :=
  { limits := e.limits, stack := e.stack, sp := e.sp, depth := e.depth }

/-- The stack has the size that it was made with, or has grown within the limit. -/
structure Room.Lawful (r : Room) : Prop where
  used : r.sp ≤ r.stack.size
  least : r.limits.initialSlots ≤ r.stack.size
  most : r.stack.size ≤ max r.limits.initialSlots r.limits.maxSlots

/-- How deep calls nest does not bear on the stack. -/
theorem Engine.lawful_withDepth {e : Engine} (h : e.room.Lawful) (depth : Nat) :
    (Engine.room { e with depth }).Lawful :=
  ⟨h.used, h.least, h.most⟩

/-- What stays as it was from one engine to another, the slots below `floor` among it. -/
structure Engine.Retains (floor : Nat) (e e' : Engine) : Prop where
  limits : e'.limits = e.limits
  hosts : e'.hosts = e.hosts
  files : e'.files = e.files
  depth : e'.depth = e.depth
  slots : ∀ i < floor, ∀ slot, e.stack.slots[i]? = some slot → e'.stack.slots[i]? = some slot
  size : e.stack.size ≤ e'.stack.size
  /-- The stack does not grow beyond the limit. -/
  bound : e'.stack.size ≤ max e.stack.size e.limits.maxSlots
  envs : e.envs.size ≤ e'.envs.size
  /-- Environments that are enclosed stay so. -/
  linked : ∀ {env}, (e.envs.next? env).isSome → (e'.envs.next? env).isSome

/-- What stays as it was whenever code runs outside the machine. -/
structure Engine.Keeps (e e' : Engine) : Prop extends Engine.Retains e.sp e e' where
  sp : e'.sp = e.sp
  frame : e'.frame = e.frame

namespace Engine

/-- Code that leaves the stack in use alone leaves it lawful. -/
theorem Retains.lawful {floor : Nat} {a b : Engine} (h : Retains floor a b)
    (ha : a.room.Lawful) (hsp : b.sp ≤ b.stack.size) : b.room.Lawful := by
  obtain ⟨-, hleast, hmost⟩ := ha
  have hlimits : b.room.limits = a.room.limits := h.limits
  refine ⟨hsp, ?_, ?_⟩
  · rw [hlimits]
    exact hleast.trans h.size
  · rw [hlimits]
    exact h.bound.trans (max_le hmost (le_max_right _ _))

theorem Retains.refl (floor : Nat) (e : Engine) : Retains floor e e where
  limits := rfl
  hosts := rfl
  files := rfl
  depth := rfl
  slots _ _ _ h := h
  size := le_rfl
  bound := le_max_left _ _
  envs := le_rfl
  linked h := h

theorem Retains.trans {floor : Nat} {a b c : Engine} (h : Retains floor a b)
    (h' : Retains floor b c) : Retains floor a c where
  limits := h'.limits.trans h.limits
  hosts := h'.hosts.trans h.hosts
  files := h'.files.trans h.files
  depth := h'.depth.trans h.depth
  slots i hi slot hs := h'.slots i hi slot (h.slots i hi slot hs)
  size := h.size.trans h'.size
  bound := by
    have hb := h'.bound
    rw [h.limits] at hb
    exact hb.trans (max_le h.bound (le_max_right _ _))
  envs := h.envs.trans h'.envs
  linked hl := h'.linked (h.linked hl)

theorem Retains.mono {floor low : Nat} {a b : Engine} (h : Retains floor a b) (hle : low ≤ floor) :
    Retains low a b :=
  { h with slots := fun i hi => h.slots i (hi.trans_le hle) }

theorem Keeps.refl (e : Engine) : Keeps e e :=
  ⟨.refl _ _, rfl, rfl⟩

theorem Keeps.trans {a b c : Engine} (h : Keeps a b) (h' : Keeps b c) : Keeps a c :=
  ⟨h.toRetains.trans (h.sp ▸ h'.toRetains), h'.sp.trans h.sp, h'.frame.trans h.frame⟩

theorem Keeps.lawful {a b : Engine} (h : Keeps a b) (ha : a.room.Lawful) : b.room.Lawful := by
  refine h.toRetains.lawful ha ?_
  rw [h.sp]
  exact ha.used.trans h.size

theorem Keeps.frame_le {a b : Engine} (h : Keeps a b) (hle : a.frame ≤ a.sp) : b.frame ≤ b.sp := by
  rw [h.frame, h.sp]
  exact hle

/-- Changes to symbols, objects, bindings, macros and output keep all the rest, as long as
environments stay and stay enclosed. -/
theorem Keeps.of_update {e e' : Engine}
    (h : e' = { e with
      store := e'.store, envs := e'.envs, globals := e'.globals, macros := e'.macros
      output := e'.output })
    (hsize : e.envs.size ≤ e'.envs.size)
    (hlinked : ∀ env, (e.envs.next? env).isSome → (e'.envs.next? env).isSome) : Keeps e e' := by
  rw [h]
  exact ⟨⟨rfl, rfl, rfl, rfl, fun _ _ _ h => h, le_rfl, le_max_left _ _, hsize, hlinked _⟩, rfl,
    rfl⟩

/-- Changes that leave the environments alone. -/
theorem Keeps.of_same_envs {e e' : Engine}
    (h : e' = { e with
      store := e'.store, globals := e'.globals, macros := e'.macros, output := e'.output }) :
    Keeps e e' := by
  refine .of_update (by rw [h]) ?_ ?_
  · rw [h]
  · rw [h]
    exact fun _ h => h

variable [Unbound] {e : Engine}

theorem Sound.withStore (h : e.Sound) (store : Store) : Sound { e with store } :=
  ⟨h.globals, h.bindings, h.older, h.hosts⟩

/-- A global binding of a proper value keeps an engine sound. -/
theorem Sound.define (h : e.Sound) {s : Symbol} {v : Value} (hv : v.Proper e.envs.size) :
    (e.define s v).Sound where
  globals := by
    intro s' v' hv'
    obtain rfl | hold := Globals.eq_or_of_get?_insert hv'
    · exact hv
    · exact h.globals hold
  bindings := h.bindings
  older := h.older
  hosts := h.hosts

/-- Overwriting a binding by a proper value keeps an engine sound. -/
theorem Sound.overwrite (h : e.Sound) (env : EnvId) {s : Symbol} {v : Value}
    (hv : v.Proper e.envs.size) : Sound { e with envs := e.envs.define env s v } where
  globals hv' := by
    rw [Environments.size_define]
    exact h.globals hv'
  bindings := by
    intro env' s' v' hv'
    rw [Environments.size_define]
    obtain rfl | hold := Environments.eq_or_of_bindings_define hv'
    · exact hv
    · exact h.bindings hold
  older env' next hn := h.older env' next (Environments.next?_define _ _ _ _ _ ▸ hn)
  hosts := h.hosts

/-- A new environment of proper bindings, enclosed by one that is there, keeps an engine sound. -/
theorem Sound.create (h : e.Sound) {bindings : Bindings} {next : Option EnvId}
    (hb : ∀ s v, bindings.get? s = some v → v.Proper e.envs.size)
    (hn : ∀ env ∈ next, env < e.envs.size) :
    Sound { e with envs := (e.envs.create bindings next).2 } where
  globals hv := by
    rw [Environments.size_create]
    exact (h.globals hv).mono (Nat.le_succ _)
  bindings := by
    intro env s v hv
    rw [Environments.bindings_create] at hv
    rw [Environments.size_create]
    split at hv
    · exact (hb s v hv).mono (Nat.le_succ _)
    · exact (h.bindings hv).mono (Nat.le_succ _)
  older := by
    intro env next' hn'
    -- only the new environment has a link that was not there
    rw [Environments.next?_create] at hn'
    split at hn'
    · rename_i heq
      exact heq ▸ hn next' hn'
    · exact h.older env next' hn'
  hosts := h.hosts

/-- Linking the environments of nested calls keeps an engine sound. -/
theorem Sound.linkUp (h : e.Sound) {scopes : List EnvId} (hs : scopes.Pairwise (· > ·)) :
    Sound { e with envs := linkUp e.envs scopes } where
  globals hv := by
    rw [size_linkUp]
    exact h.globals hv
  bindings hv := by
    rw [size_linkUp]
    rw [bindings_linkUp] at hv
    exact h.bindings hv
  older := older_linkUp h.older hs
  hosts := h.hosts

end Engine

end StackLisp
