import Mathlib.Data.Finset.Card
import Mathlib.Logic.Relation
import StackLisp.Proofs.Chains

/-!
# Assignments to the nearest binding

A look-up goes along the links of environments to the first one that binds the symbol, and an
assignment overwrites that binding. Environments share the scopes around them, so one assignment can
be seen from many of them. Nothing here depends on the age of environments: it is enough that the
links do not lead in a circle.

- `Environments.Acyclic`: no environment is enclosed by itself;
- `Environments.Acyclic.wellFounded`: links can then be followed to an end;
- `Environments.resolve_eq_of_search`: a look-up gives what a search along the links finds;
- `Environments.Search.define`: what a search finds after a binding was overwritten;
- `Reached.acyclic`: the environments of every engine that is reached are linked without cycles;
- `assignment_is_seen_through_owner`: which look-ups an assignment changes.
-/

namespace StackLisp

namespace Environments

open Relation

variable {envs : Environments} {env owner : EnvId} {symbol t : Symbol} {v old : Value}
  {path : List EnvId} {found : Option (EnvId × Value)}

/-! ## Links that lead to an end -/

/-- The inner environment is linked to the outer one. -/
def Linked (envs : Environments) (inner outer : EnvId) : Prop :=
  envs.next? inner = some outer

/-- No environment is enclosed by itself, over however many links. -/
def Acyclic (envs : Environments) : Prop :=
  ∀ env, ¬ TransGen envs.Linked env env

/-- There is no cycle if every link leads to an environment of a lower rank. -/
theorem acyclic_of_rank (rank : EnvId → Nat)
    (h : ∀ env next, envs.next? env = some next → rank next < rank env) : envs.Acyclic := by
  have hfall : ∀ {env outer : EnvId}, TransGen envs.Linked env outer → rank outer < rank env := by
    intro env outer hlinks
    induction hlinks with
    | single hlink => exact h _ _ hlink
    | tail _ hlink ih => exact (h _ _ hlink).trans ih
  exact fun env hcycle => lt_irrefl _ (hfall hcycle)

/-- Where there are no cycles, links can be followed only so far: each of them leads to an
environment from which fewer others are reached. -/
theorem Acyclic.wellFounded (h : envs.Acyclic) :
    WellFounded fun outer inner => envs.Linked inner outer := by
  classical
  -- the environments of the heap that are reached from one, itself included
  let reached (env : EnvId) : Finset EnvId :=
    (Finset.range envs.size).filter (ReflTransGen envs.Linked env)
  refine Subrelation.wf (r := fun outer inner => (reached outer).card < (reached inner).card)
    (fun {outer inner} hlink => Finset.card_lt_card ?_) (measure fun env => (reached env).card).wf
  have hinner : inner < envs.size := envs.lt_size_of_next? inner hlink
  refine Finset.ssubset_iff_of_subset ?_ |>.2 ⟨inner, ?_, ?_⟩
  · intro other hother
    simp only [reached, Finset.mem_filter] at hother ⊢
    exact ⟨hother.1, .head hlink hother.2⟩
  · simpa [reached] using ⟨hinner, ReflTransGen.refl⟩
  · intro hmem
    exact h inner (.head' hlink (Finset.mem_filter.1 hmem).2)

/-! ## Searches -/

/-- A search visits environments that are reached over links. -/
theorem Search.reaches (h : envs.Search symbol env path found) {other : EnvId}
    (hmem : other ∈ path) : ReflTransGen envs.Linked env other := by
  induction h with
  | found _ | ended _ _ => exact List.mem_singleton.1 hmem ▸ .refl
  | onward _ hnext _ ih =>
    rcases List.mem_cons.1 hmem with rfl | hmem
    · exact .refl
    · exact .head hnext (ih hmem)

/-- Where there are no cycles, no environment is visited twice. -/
theorem Search.nodup (ha : envs.Acyclic) (h : envs.Search symbol env path found) :
    path.Nodup := by
  induction h with
  | found _ | ended _ _ => exact List.nodup_singleton _
  | @onward env next path _ _ hnext hsearch ih =>
    have hnot : env ∉ path := fun hmem => ha env (.head' hnext (hsearch.reaches hmem))
    exact List.nodup_cons.2 ⟨hnot, ih⟩

/-- Where there are no cycles, every search ends. -/
theorem Acyclic.exists_search (ha : envs.Acyclic) (env : EnvId) (symbol : Symbol) :
    ∃ path found, envs.Search symbol env path found := by
  induction env using ha.wellFounded.induction with
  | _ env ih =>
    cases hget : (envs.bindings env).get? symbol with
    | some v => exact ⟨_, _, .found hget⟩
    | none =>
      cases hnext : envs.next? env with
      | none => exact ⟨_, _, .ended hget hnext⟩
      | some next =>
        obtain ⟨path, found, hsearch⟩ := ih next hnext
        exact ⟨_, _, .onward hget hnext hsearch⟩

/-- One step of a search with a bound on its length. -/
theorem resolveWithin_succ (envs : Environments) (symbol : Symbol) (steps : Nat) (env : EnvId) :
    envs.resolveWithin symbol (steps + 1) env = match (envs.bindings env).get? symbol with
      | some v => some (env, v)
      | none => (envs.next? env).bind (envs.resolveWithin symbol steps) := by
  rw [resolveWithin, bindings, next?]
  cases henv : envs.heap[env]? with
  | none => rfl
  | some e =>
    dsimp only [Option.bind_some]
    cases e.bindings.get? symbol with
    | some v => rfl
    | none => cases e.next <;> rfl

theorem resolveWithin_of_size_le (h : envs.size ≤ env) (symbol : Symbol) (steps : Nat) :
    envs.resolveWithin symbol steps env = none := by
  cases steps with
  | zero => rfl
  | succ steps => rw [resolveWithin, Array.getElem?_eq_none h]

theorem lt_size_of_get? (h : (envs.bindings env).get? symbol = some v) : env < envs.size := by
  by_contra hge
  rw [bindings, Array.getElem?_eq_none (Nat.le_of_not_lt hge)] at h
  cases h

/-- A search with a bound finds what a search finds, if there is one step for each environment of
the heap on its path. -/
theorem Search.resolveWithin_eq (h : envs.Search symbol env path found) {steps : Nat}
    (hsteps : (path.filter (· < envs.size)).length ≤ steps) :
    envs.resolveWithin symbol steps env = found := by
  -- along the search: a step is spent on each environment of the heap, and none beyond it
  induction h generalizing steps with
  | found hget =>
    have hlt := lt_size_of_get? hget
    cases steps with
    | zero => simp [hlt] at hsteps
    | succ steps => rw [resolveWithin_succ, hget]
  | onward hget hnext _ ih =>
    have hlt := envs.lt_size_of_next? _ hnext
    cases steps with
    | zero => simp [hlt] at hsteps
    | succ steps =>
      rw [resolveWithin_succ, hget, hnext]
      exact ih (by simpa [hlt] using hsteps)
  | @ended env hget hnext =>
    by_cases hlt : env < envs.size
    · cases steps with
      | zero => simp [hlt] at hsteps
      | succ steps =>
        rw [resolveWithin_succ, hget, hnext]
        rfl
    · exact resolveWithin_of_size_le (Nat.le_of_not_lt hlt) _ _

/-- A look-up gives what a search along the links finds. -/
theorem resolve_eq_of_search (ha : envs.Acyclic) (h : envs.Search symbol env path found) :
    envs.resolve env symbol = found := by
  rw [resolve_eq]
  refine h.resolveWithin_eq ?_
  -- no environment is visited twice, so those of the heap are no more than there are in it
  have hnodup := (h.nodup ha).filter (· < envs.size)
  have hsubset : (path.filter (· < envs.size)).toFinset ⊆ Finset.range envs.size := by
    intro other hother
    simpa using (List.mem_filter.1 (List.mem_toFinset.1 hother)).2
  have hcard := Finset.card_le_card hsubset
  rwa [List.toFinset_card_of_nodup hnodup, Finset.card_range] at hcard

/-! ## Overwriting a binding -/

/-- Seen from an environment, the nearest binding of the symbol is that of the owner. -/
def Owns (envs : Environments) (owner : EnvId) (symbol : Symbol) (env : EnvId) : Prop :=
  ∃ path old, envs.Search symbol env path (some (owner, old))

theorem Acyclic.define (ha : envs.Acyclic) (owner : EnvId) (symbol : Symbol) (v : Value) :
    (envs.define owner symbol v).Acyclic := by
  have hlinked : (envs.define owner symbol v).Linked = envs.Linked := by
    funext inner outer
    rw [Linked, next?_define, Linked]
  rw [Acyclic, hlinked]
  exact ha

theorem get?_bindings_define (h : owner < envs.size) (symbol : Symbol) (v : Value) (other : EnvId)
    (t : Symbol) :
    ((envs.define owner symbol v).bindings other).get? t =
      if other = owner ∧ t = symbol then some v else (envs.bindings other).get? t := by
  rw [bindings_define]
  by_cases heq : other = owner
  · subst heq
    rw [if_pos ⟨rfl, h⟩, Bindings.get?_insert]
    simp only [true_and, eq_comm]
  · rw [if_neg fun hand => heq hand.1, if_neg fun hand => heq hand.1]

/-- A search goes the same way after a binding was overwritten, and finds the new value if it ends
there. -/
theorem Search.define (hold : (envs.bindings owner).get? symbol = some old) (v : Value)
    (h : envs.Search t env path found) :
    (envs.define owner symbol v).Search t env path
      (found.map fun seen => (seen.1, if seen.1 = owner ∧ t = symbol then v else seen.2)) := by
  have hget := get?_bindings_define (lt_size_of_get? hold) symbol v
  -- where the search goes on there was no binding, so it is not the one that was overwritten
  have hfree : ∀ {env : EnvId}, (envs.bindings env).get? t = none →
      ((envs.define owner symbol v).bindings env).get? t = none := by
    intro env hnone
    rw [hget, if_neg ?_, hnone]
    rintro ⟨rfl, rfl⟩
    cases hnone.symm.trans hold
  induction h with
  | found hvalue =>
    refine .found ?_
    rw [hget, hvalue]
    split <;> rfl
  | onward hnone hnext _ ih => exact .onward (hfree hnone) ((next?_define ..).trans hnext) ih
  | ended hnone hnext => exact .ended (hfree hnone) ((next?_define ..).trans hnext)

end Environments

open Environments

/-- The environments of every engine that is reached are without cycles. -/
theorem Reached.acyclic [Unbound] {e : Engine} (he : Reached e) : e.envs.Acyclic :=
  acyclic_of_rank id he.usable.sound.older

/-- On a heap without cycles, an assignment succeeds exactly if a look-up does. It then overwrites
one binding, the nearest one, and nothing else. Afterwards the new value is seen for the symbol from
exactly those environments whose nearest binding of it was the same, and everything else is seen as
before. An assignment that fails changes nothing, and none changes a link. -/
theorem assignment_is_seen_through_owner {envs after : Environments} (ha : envs.Acyclic)
    {env : EnvId} {symbol : Symbol} {v : Value} {success : Bool}
    (hassign : envs.assign env symbol v = (success, after)) :
    (success = true ↔ (envs.get? env symbol).isSome) ∧
    (success = true → ∃ owner, envs.Owns owner symbol env ∧
      (∀ other t, (after.bindings other).get? t =
        if other = owner ∧ t = symbol then some v else (envs.bindings other).get? t) ∧
      ∀ other t,
        (t = symbol ∧ envs.Owns owner symbol other → after.get? other t = some v) ∧
        (¬ (t = symbol ∧ envs.Owns owner symbol other) →
          after.get? other t = envs.get? other t)) ∧
    (success = false → after = envs) ∧
    after.size = envs.size ∧ ∀ other, after.next? other = envs.next? other := by
  obtain ⟨path, found, hsearch⟩ := ha.exists_search env symbol
  have hresolve := resolve_eq_of_search ha hsearch
  rw [assign, hresolve] at hassign
  rw [get?, hresolve]
  cases found with
  | none =>
    obtain ⟨rfl, rfl⟩ := Prod.mk.inj hassign
    simp
  | some seen =>
    obtain ⟨owner, old⟩ := seen
    obtain ⟨rfl, rfl⟩ := Prod.mk.inj hassign
    have hold := envs.get?_of_resolve env hresolve
    have hafter := ha.define owner symbol v
    refine ⟨by simp, fun _ => ⟨owner, ⟨path, old, hsearch⟩,
      get?_bindings_define (lt_size_of_get? hold) symbol v, fun other t => ?_⟩, by simp,
      size_define .., fun other => next?_define ..⟩
    obtain ⟨path', found', hsearch'⟩ := ha.exists_search other t
    have hsearch'' := hsearch'.define hold v
    rw [get?, get?, resolve_eq_of_search hafter hsearch'', resolve_eq_of_search ha hsearch',
      Option.map_map]
    constructor
    · rintro ⟨rfl, path₁, old₁, howns⟩
      -- both searches are for the same symbol from the same environment
      obtain rfl : found' = some (owner, old₁) :=
        (resolve_eq_of_search ha hsearch').symm.trans (resolve_eq_of_search ha howns)
      simp
    · intro hnot
      cases found' with
      | none => rfl
      | some seen =>
        have hne : ¬ (seen.1 = owner ∧ t = symbol) := by
          rintro ⟨rfl, rfl⟩
          exact hnot ⟨rfl, path', seen.2, hsearch'⟩
        simp [hne]

/-- The environments `0` and `1` share the binding in `2`, which the first of them was linked to
when it was there already. Environment `3` has a binding of its own. -/
def Environments.sharing (symbol : Symbol) : Environments :=
  let envs := (empty.create [] none).2
  let envs := (envs.create [] (some 0)).2
  let envs := (envs.create [(symbol, .boolean false)] none).2
  let envs := (envs.create [(symbol, .boolean false)] (some 0)).2
  envs.link 0 2

theorem Environments.acyclic_sharing (symbol : Symbol) : (sharing symbol).Acyclic := by
  refine acyclic_of_rank (fun env => match env with | 0 => 1 | 2 => 0 | _ => 2) fun env next h => ?_
  match env with
  | 0 | 1 | 3 =>
    obtain rfl := Option.some.inj h
    decide
  | 2 => cases h
  | env + 4 =>
    rw [next?, Array.getElem?_eq_none (show 4 ≤ env + 4 from Nat.le_add_left 4 env)] at h
    cases h

/-- An assignment in environment `1` is seen from environment `0`, and not from environment `3`. The
link between `0` and `2` leads to the younger one. -/
theorem assignment_is_seen_through_owner_shared : ∃ (symbol : Symbol) (after : Environments),
    (sharing symbol).Acyclic ∧ ¬ (sharing symbol).Older ∧
    (sharing symbol).assign 1 symbol (.boolean true) = (true, after) ∧
    after.get? 0 symbol = some (.boolean true) ∧ after.get? 3 symbol = some (.boolean false) := by
  let symbol : Symbol := ⟨0, "x"⟩
  have ha := acyclic_sharing symbol
  have hzero : (sharing symbol).Search symbol 0 [0, 2] (some (2, .boolean false)) :=
    .onward rfl rfl (.found rfl)
  have hone : (sharing symbol).Search symbol 1 [1, 0, 2] (some (2, .boolean false)) :=
    .onward rfl rfl hzero
  have hthree : (sharing symbol).Search symbol 3 [3] (some (3, .boolean false)) := .found rfl
  obtain ⟨success, after, hassign⟩ : ∃ success after,
      (sharing symbol).assign 1 symbol (.boolean true) = (success, after) := ⟨_, _, rfl⟩
  obtain ⟨hiff, hsuccess, -⟩ := assignment_is_seen_through_owner ha hassign
  have htrue : success = true := by
    rw [hiff, get?, resolve_eq_of_search ha hone]
    rfl
  obtain ⟨owner, ⟨path, old, howns⟩, -, hseen⟩ := hsuccess htrue
  -- the owner is the environment that the look-up ends at
  have howner : some (owner, old) = some (2, .boolean false) :=
    (resolve_eq_of_search ha howns).symm.trans (resolve_eq_of_search ha hone)
  obtain ⟨rfl, -⟩ := Prod.mk.inj (Option.some.inj howner)
  refine ⟨symbol, after, ha, fun holder => ?_, htrue ▸ hassign, (hseen 0 symbol).1
    ⟨rfl, _, _, hzero⟩, ?_⟩
  · exact absurd (holder 0 2 rfl) (by decide)
  · rw [(hseen 3 symbol).2, get?, resolve_eq_of_search ha hthree, Option.map_some]
    rintro ⟨-, path', old', hsearch⟩
    cases (resolve_eq_of_search ha hsearch).symm.trans (resolve_eq_of_search ha hthree)

end StackLisp
