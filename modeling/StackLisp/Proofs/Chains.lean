import StackLisp.Proofs.Reached

/-!
# Chains of environments

Environments are linked to those around them, and wherever a function literal is evaluated, links of
environments in use are set anew. Still, every link leads to an environment that was created before,
so that chains end, and so do the searches along them.

- `Environments.Search`: a search along the links, for as long as it takes;
- `Environments.exists_search`: where links lead to older environments, every search ends with what
  `Environments.resolve` gives;
- `links_lead_to_older`: they do so on every engine that is reached.
-/

namespace StackLisp

open Eval

attribute [local instance] Unbound.anywhere

namespace Environments

/-- A search for a symbol goes through the environments of a path, one link after the other, and
ends with the first binding or where there is no link. -/
inductive Search (envs : Environments) (symbol : Symbol) :
    EnvId → (path : List EnvId) → Option (EnvId × Value) → Prop
  | found {env : EnvId} {v : Value} : (envs.bindings env).get? symbol = some v →
      Search envs symbol env [env] (some (env, v))
  | onward {env next : EnvId} {path : List EnvId} {found : Option (EnvId × Value)} :
      (envs.bindings env).get? symbol = none → envs.next? env = some next →
      Search envs symbol next path found → Search envs symbol env (env :: path) found
  | ended {env : EnvId} : (envs.bindings env).get? symbol = none → envs.next? env = none →
      Search envs symbol env [env] none

/-- Where links lead to older environments, every search ends, and no environment is visited
twice. -/
theorem exists_search {envs : Environments} (ho : envs.Older) (env : EnvId) (symbol : Symbol) :
    ∃ path, envs.Search symbol env path (envs.resolve env symbol) ∧ path.Pairwise (· > ·) ∧
      ∀ other ∈ path, other ≤ env := by
  -- environments are numbered by age, so a link leads to one of which the claim is known
  induction env using Nat.strong_induction_on with
  | _ env ih =>
    rw [resolve_step ho]
    cases hget : (envs.bindings env).get? symbol with
    | some v => exact ⟨[env], .found hget, by simp, by simp⟩
    | none =>
      cases hnext : envs.next? env with
      | none => exact ⟨[env], .ended hget hnext, by simp, by simp⟩
      | some next =>
        have hlt : next < env := ho env next hnext
        obtain ⟨path, hsearch, hpath, hle⟩ := ih next hlt
        have hbelow : ∀ other ∈ path, other < env := fun other h => (hle other h).trans_lt hlt
        refine ⟨env :: path, .onward hget hnext hsearch, List.pairwise_cons.2 ⟨hbelow, hpath⟩, ?_⟩
        exact List.forall_mem_cons.2 ⟨le_rfl, fun other h => (hbelow other h).le⟩

end Environments

/-- The environments of the calls in progress, which the machine finds by walking over their
frames. -/
theorem Coherent.enclosing_eq {home floor : Nat} {e : Engine} {a : Activation}
    (h : Coherent home floor e a) : ∃ scopes : List EnvId,
      CallFrame.enclosing e.stack home (e.stack.size + 1) e.frame #[] = .ok scopes.toArray ∧
      scopes.Pairwise (· > ·) ∧ ∀ env ∈ scopes, env < e.envs.size := by
  obtain ⟨hhome, -, f, rest, -, hf, hgo⟩ := h
  -- every frame takes slots of its own, so the walk ends before its fuel does
  have hwalk := CallFrame.enclosing_eq hhome hf (Nat.lt_succ_of_le hf.length_le_size) #[]
  refine ⟨(f :: rest).map Frame.env, by simpa [Stack.size] using hwalk, hgo.scopes, ?_⟩
  have hinner := (List.pairwise_cons.1 hgo.scopes).1
  exact List.forall_mem_cons.2 ⟨hgo.env, fun env henv => (hinner env henv).trans hgo.env⟩

/-- On every engine that is reached, environments are linked to older ones, and all values hold
closures of environments that are there. Calls in progress have environments of their own, younger
from caller to call. Global bindings are no environment and seen from none. So every look-up and
every assignment is a search along the links that ends. -/
theorem links_lead_to_older {e : Engine} (he : Reached e) :
    (∀ env next, e.envs.next? env = some next → next < env ∧ env < e.envs.size) ∧
    (∀ symbol v, e.globals.get? symbol = some v → v.Proper e.envs.size) ∧
    (∀ env symbol v, (e.envs.bindings env).get? symbol = some v → v.Proper e.envs.size) ∧
    (∀ {fuel home : Nat} {a : Activation}, Working fuel home e a → ∃ scopes : List EnvId,
      CallFrame.enclosing e.stack home (e.stack.size + 1) e.frame #[] = .ok scopes.toArray ∧
      scopes.Pairwise (· > ·) ∧ ∀ env ∈ scopes, env < e.envs.size) ∧
    (∀ bound v env symbol, (e.define bound v).envs.get? env symbol = e.envs.get? env symbol) ∧
    ∀ env symbol, ∃ path found, e.envs.Search symbol env path found ∧ path.Pairwise (· > ·) ∧
      e.envs.get? env symbol = found.map (·.2) ∧
      ∀ v, e.envs.assign env symbol v = match found with
        | some (owner, _) => (true, e.envs.define owner symbol v)
        | none => (false, e.envs) := by
  have hsound := he.usable.sound
  refine ⟨fun env next h => ⟨hsound.older env next h, e.envs.lt_size_of_next? env h⟩,
    fun _ _ => hsound.globals, fun _ _ _ => hsound.bindings, fun hw => ?_, fun _ _ _ _ => rfl,
    fun env symbol => ?_⟩
  · obtain ⟨floor, hcoherent, -⟩ := hw.coherent
    exact hcoherent.enclosing_eq
  · obtain ⟨path, hsearch, hpath, -⟩ := Environments.exists_search hsound.older env symbol
    exact ⟨path, _, hsearch, hpath, rfl, fun _ => rfl⟩

/-- The function of the form `(fn ())` is called while another call of it is in progress, and this
time as if it was bound to the environment of that call. -/
theorem links_lead_to_older_bound : ∃ (e : Engine) (home : Nat) (a : Activation), Reached e ∧
    Working 2 home e a ∧ (∃ env next, e.envs.next? env = some next ∧ next < env) ∧
    (∃ scopes : List EnvId,
      CallFrame.enclosing e.stack home (e.stack.size + 1) e.frame #[] = .ok scopes.toArray ∧
      scopes.Pairwise (· > ·) ∧ ∀ env ∈ scopes, env < e.envs.size) ∧
    ∀ env symbol, ∃ path found, e.envs.Search symbol env path found ∧ path.Pairwise (· > ·) ∧
      e.envs.get? env symbol = found.map (·.2) := by
  obtain ⟨e, e₁, c, -, hc, ⟨hpositional, hvariadic, hmax⟩, ⟨hlimits, hsp, hdepth⟩, -, hstarted,
    hworking₁⟩ := Working.literal
  have he₁ : Reached e₁ := .working (hworking₁ 2)
  have hlimits₁ : e₁.limits = {} := hstarted.limits.trans hlimits
  have hsp₁ : e₁.sp = e.sp + 4 := hstarted.sp
  have hdepth₁ : e₁.depth = e.depth + 1 := hstarted.depth
  -- the same function, bound to the environment of the first call
  have hc₁ : ClosureOf.Callable e₁.envs.size { c with env := some e.envs.size } := by
    rw [hstarted.size_envs]
    exact ⟨(hc.coded.bind _ _).mono fun _ => .mono (Nat.le_succ _),
      fun env henv => Option.some.inj henv ▸ Nat.lt_succ_self _⟩
  obtain ⟨himplements₁, -⟩ := hc₁.coded
  obtain ⟨e₂, hstarted₂⟩ := exists_started (e := { e₁ with depth := e₁.depth + 1 }) himplements₁
    hpositional hvariadic (show e₁.sp + c.code.maxStack + 5 ≤ e₁.limits.maxSlots by
      rw [hsp₁, hsp, hmax, hlimits₁]
      decide)
  have hworking := hstarted₂.working he₁ hc₁
    (by rw [hdepth₁, hdepth, hlimits₁]; decide) 2
  have hreached : Reached e₂ := .working hworking
  obtain ⟨holder, -, -, hscopes, -, hsearch⟩ := links_lead_to_older hreached
  have hnext : e₂.envs.next? e₁.envs.size = some e.envs.size :=
    hstarted₂.next?
  refine ⟨e₂, _, _, hreached, hworking, ⟨_, _, hnext, (holder _ _ hnext).1⟩, hscopes hworking,
    fun env symbol => ?_⟩
  obtain ⟨path, found, hpath, hdescending, hget, -⟩ := hsearch env symbol
  exact ⟨path, found, hpath, hdescending, hget⟩

end StackLisp
