import Mathlib.Order.MinMax
import StackLisp.Machine.CallFrame

/-!
# Scopes

How the operations on environments change bindings and links, and what a search along the links
finds.

- `Environments.bindings_create` and its companions: each operation on the heap, environment by
  environment;
- `linkUp`: linking the environments of nested calls, as a recursion on their list, and
  `chain_eq`, which says that this is what `CallFrame.chain` does;
- `Environments.Older`: links lead to older environments only;
- `Environments.resolve_step`: a symbol is resolved in the environment itself or in the one around
  it.
-/

namespace StackLisp

namespace Environments

variable (envs : Environments) (env other : EnvId)

theorem bindings_create (bindings : Bindings) (next : Option EnvId) :
    (envs.create bindings next).2.bindings other =
      if other = envs.size then bindings else envs.bindings other := by
  unfold Environments.bindings create size
  simp only [Array.getElem?_push]
  by_cases h : other = envs.heap.size <;> simp [h]

theorem next?_create (bindings : Bindings) (next : Option EnvId) :
    (envs.create bindings next).2.next? other =
      if other = envs.size then next else envs.next? other := by
  unfold next? create size
  simp only [Array.getElem?_push]
  split <;> rfl

theorem bindings_define (symbol : Symbol) (value : Value) :
    (envs.define env symbol value).bindings other =
      if other = env ∧ env < envs.size then (envs.bindings env).insert symbol value
      else envs.bindings other := by
  unfold Environments.bindings define size
  simp only [Array.getElem?_modify]
  by_cases h : env = other
  · subst h
    by_cases hlt : env < envs.heap.size
    · simp [hlt]
    · simp [hlt]
  · simp [h, Ne.symm h]

/-- What is bound is the new value or was bound before. -/
theorem eq_or_of_bindings_define {envs : Environments} {env other : EnvId} {s t : Symbol}
    {v w : Value} (h : ((envs.define env s v).bindings other).get? t = some w) :
    w = v ∨ (envs.bindings other).get? t = some w := by
  rw [bindings_define] at h
  split at h
  · next heq => exact heq.1 ▸ Bindings.eq_or_of_get?_insert h
  · exact .inr h

theorem next?_define (symbol : Symbol) (value : Value) :
    (envs.define env symbol value).next? other = envs.next? other := by
  unfold next? define
  simp only [Array.getElem?_modify]
  split
  · cases envs.heap[other]? <;> rfl
  · rfl

theorem bindings_link (next : EnvId) :
    (envs.link env next).bindings other = envs.bindings other := by
  unfold Environments.bindings link
  simp only [Array.getElem?_modify]
  by_cases h : env = other
  · cases envs.heap[other]? <;> simp [h]
  · simp [h]

theorem next?_link (next : EnvId) :
    (envs.link env next).next? other =
      if other = env ∧ env < envs.size then some next else envs.next? other := by
  unfold next? link size
  simp only [Array.getElem?_modify]
  by_cases h : env = other
  · subst h
    by_cases hlt : env < envs.heap.size
    · simp [hlt]
    · simp [hlt]
  · simp [h, Ne.symm h]

theorem lt_size_of_next? {next : EnvId} (h : envs.next? env = some next) : env < envs.size := by
  by_contra hge
  rw [next?, Array.getElem?_eq_none (Nat.le_of_not_lt hge)] at h
  cases h

/-- A binding that a search finds is one of the environment that owns it. -/
theorem get?_of_resolveWithin {symbol : Symbol} {steps : Nat} {owner : EnvId} {v : Value}
    (h : envs.resolveWithin symbol steps env = some (owner, v)) :
    (envs.bindings owner).get? symbol = some v := by
  induction steps generalizing env with
  | zero => cases h
  | succ steps ih =>
    unfold resolveWithin at h
    split at h
    · cases h
    · rename_i e he
      split at h
      · rename_i value hv
        obtain ⟨rfl, rfl⟩ := Prod.mk.inj (Option.some.inj h)
        rw [Environments.bindings, he]
        exact hv
      · split at h
        · exact ih _ h
        · cases h

theorem get?_of_resolve {symbol : Symbol} {owner : EnvId} {v : Value}
    (h : envs.resolve env symbol = some (owner, v)) :
    (envs.bindings owner).get? symbol = some v :=
  envs.get?_of_resolveWithin env (envs.resolve_eq env symbol ▸ h)

/-- Every environment is enclosed by an older one, if by any. -/
def Older (envs : Environments) : Prop :=
  ∀ env next, envs.next? env = some next → next < env

section

variable {envs : Environments} {env inner outer : EnvId} {symbol : Symbol}

/-- Links lead to older environments, so a search ends after as many steps as there are
environments that are not younger. -/
theorem resolveWithin_eq (ho : envs.Older) {m n : Nat} (hm : env < m) (hn : env < n) :
    envs.resolveWithin symbol m env = envs.resolveWithin symbol n env := by
  induction m generalizing env n with
  | zero => cases hm
  | succ m ih =>
    obtain ⟨n, rfl⟩ := Nat.exists_eq_succ_of_ne_zero (Nat.ne_zero_of_lt hn)
    unfold resolveWithin
    split
    · rfl
    · rename_i e he
      split
      · rfl
      · split
        · rename_i next hnext
          have hlt : next < env := ho env next (by rw [next?, he]; exact hnext)
          exact ih (hlt.trans_le (Nat.le_of_lt_succ hm)) (hlt.trans_le (Nat.le_of_lt_succ hn))
        · rfl

/-- A symbol is resolved in the environment itself or in the one around it. -/
theorem resolve_step (ho : envs.Older) (env : EnvId) (symbol : Symbol) :
    envs.resolve env symbol = match (envs.bindings env).get? symbol with
      | some v => some (env, v)
      | none => (envs.next? env).bind fun next => envs.resolve next symbol := by
  rw [resolve_eq]
  by_cases hlt : env < envs.size
  · obtain ⟨n, hn⟩ := Nat.exists_eq_succ_of_ne_zero (Nat.ne_zero_of_lt hlt)
    obtain ⟨e, he⟩ : ∃ e, envs.heap[env]? = some e := ⟨_, Array.getElem?_eq_getElem hlt⟩
    have hnext : envs.next? env = e.next := by rw [next?, he]; rfl
    rw [hn, resolveWithin, he, bindings, he, hnext]
    dsimp only
    cases e.bindings.get? symbol with
    | some v => rfl
    | none =>
      cases h : e.next with
      | none => rfl
      | some next =>
        have hlt' : next < env := ho env next (hnext.trans h)
        -- the environment around is older, so the search from there needs no more steps
        rw [Option.bind_some, resolve_eq]
        exact resolveWithin_eq ho (hlt'.trans_le (Nat.le_of_lt_succ (hn ▸ hlt))) (hlt'.trans hlt)
  · have hnone : envs.heap[env]? = none := Array.getElem?_eq_none (Nat.le_of_not_lt hlt)
    rw [bindings, next?, hnone]
    cases envs.size with
    | zero => rfl
    | succ n =>
      rw [resolveWithin, hnone]
      rfl

theorem Older.link (ho : envs.Older) (hlt : outer < inner) : (envs.link inner outer).Older := by
  intro env next h
  rw [next?_link] at h
  split at h
  · rename_i heq
    obtain rfl := Option.some.inj h
    exact heq.1 ▸ hlt
  · exact ho env next h

end

end Environments

/-! ## Linking nested calls -/

/-- Link each environment of a list to the next one, up to the first of those that is linked
already. -/
def linkUp (envs : Environments) : List EnvId → Environments
  | env :: next :: others =>
    let envs := envs.link env next
    if (envs.next? next).isSome then envs else linkUp envs (next :: others)
  | _ => envs

/-- Calls are linked along the list of their environments. -/
theorem chain_eq (envs : Environments) (scopes : Array EnvId) (i : Nat) :
    CallFrame.chain envs scopes i = linkUp envs (scopes.toList.drop i) := by
  -- the list from a place on, as far as linking looks into it
  have hdrop : ∀ j, (h : j < scopes.size) →
      scopes.toList.drop j = scopes[j] :: scopes.toList.drop (j + 1) := fun j h => by
    rw [List.drop_eq_getElem_cons (by simpa using h), Array.getElem_toList]
  fun_induction CallFrame.chain envs scopes i with
  | case1 envs i h next linked hsome =>
    rw [hdrop i (by omega), hdrop (i + 1) h, linkUp, if_pos hsome]
  | case2 envs i h next linked hsome ih =>
    rw [ih, hdrop i (by omega), hdrop (i + 1) h, linkUp, if_neg hsome]
  | case3 envs i h =>
    by_cases hi : i < scopes.size
    · rw [hdrop i hi, List.drop_eq_nil_of_le (by simp; omega), linkUp]
      simp
    · rw [List.drop_eq_nil_of_le (by simp; omega), linkUp]
      simp

section

variable {envs : Environments} {scopes : List EnvId}

theorem size_linkUp : (linkUp envs scopes).size = envs.size := by
  fun_induction linkUp envs scopes with
  | case1 => exact Environments.size_link _ _ _
  | case2 _ _ _ _ _ _ ih => exact ih.trans (Environments.size_link _ _ _)
  | case3 => rfl

theorem bindings_linkUp (env : EnvId) : (linkUp envs scopes).bindings env = envs.bindings env := by
  fun_induction linkUp envs scopes with
  | case1 => exact Environments.bindings_link _ _ _ _
  | case2 _ _ _ _ _ _ ih => exact ih.trans (Environments.bindings_link _ _ _ _)
  | case3 => rfl

/-- Linking takes no link away. -/
theorem isSome_linkUp {env : EnvId} (h : (envs.next? env).isSome) :
    ((linkUp envs scopes).next? env).isSome := by
  have hlink : ∀ {envs : Environments} {a b : EnvId}, (envs.next? env).isSome →
      ((envs.link a b).next? env).isSome := by
    intro envs a b h
    rw [Environments.next?_link]
    split
    · rfl
    · exact h
  fun_induction linkUp envs scopes with
  | case1 => exact hlink h
  | case2 _ _ _ _ _ _ ih => exact ih (hlink h)
  | case3 => exact h

/-- Linking the environments of calls, which are older from call to caller, links to older
environments only. -/
theorem older_linkUp (ho : envs.Older) (hs : scopes.Pairwise (· > ·)) :
    (linkUp envs scopes).Older := by
  fun_induction linkUp envs scopes with
  | case1 => exact ho.link (List.rel_of_pairwise_cons hs List.mem_cons_self)
  | case2 _ _ _ _ _ _ ih =>
    exact ih (ho.link (List.rel_of_pairwise_cons hs List.mem_cons_self)) hs.of_cons
  | case3 => exact ho

end

end StackLisp
