import StackLisp.Proofs.Outcomes

/-!
# How engines grow

What code may change, when it neither defines nor assigns anything.

- `Engine.Adds`: environments, objects and symbols were added;
- `Engine.Gains`: no macros were among the objects;
- `Engine.Grows`: macros may have been among them, but what was there was not made a macro;
- `Setting.gaining`, `Setting.growing`: code evaluated under these regimes;
- `Setting.steady`: code that may also call host functions, which can do anything to symbols and
  objects.
-/

namespace StackLisp

/-! ## Adding -/

/-- Between the two engines only environments, objects and symbols were added. -/
structure Engine.Adds (t t' : Engine) : Prop where
  limits : t'.limits = t.limits
  globals : t'.globals = t.globals
  kept : ∀ {env : EnvId} {scope : Environment}, t.envs.heap[env]? = some scope →
    t'.envs.heap[env]? = some scope
  symbols : t.store.symbols.Extends t'.store.symbols
  made : t.store.symbols.Made → t'.store.symbols.Made
  ids : t.store.symbols.nextId ≤ t'.store.symbols.nextId
  refs : t.store.nextRef ≤ t'.store.nextRef

/-- None of the new objects is a macro. -/
structure Engine.Gains (t t' : Engine) : Prop extends t.Adds t' where
  macros : t'.macros = t.macros

/-- Objects that were there are macros if and only if they were. -/
structure Engine.Grows (t t' : Engine) : Prop extends t.Adds t' where
  macros : ∀ ref < t.store.nextRef, ref ∈ t'.macros ↔ ref ∈ t.macros

namespace Engine

theorem Adds.refl (t : Engine) : t.Adds t where
  limits := rfl
  globals := rfl
  kept := id
  symbols := .refl _
  made := id
  ids := le_rfl
  refs := le_rfl

theorem Adds.trans {a b c : Engine} (h : a.Adds b) (h' : b.Adds c) : a.Adds c where
  limits := h'.limits.trans h.limits
  globals := h'.globals.trans h.globals
  kept henv := h'.kept (h.kept henv)
  symbols := h.symbols.trans h'.symbols
  made := h'.made ∘ h.made
  ids := h.ids.trans h'.ids
  refs := h.refs.trans h'.refs

namespace Gains

theorem refl (t : Engine) : t.Gains t :=
  ⟨.refl t, rfl⟩

theorem trans {a b c : Engine} (h : a.Gains b) (h' : b.Gains c) : a.Gains c :=
  ⟨h.toAdds.trans h'.toAdds, h'.macros.trans h.macros⟩

theorem grows {t t' : Engine} (h : t.Gains t') : t.Grows t' :=
  ⟨h.toAdds, fun _ _ => by rw [h.macros]⟩

variable (t : Engine)

/-- A new environment. -/
theorem create (bindings : Bindings) (next : Option EnvId) :
    t.Gains { t with envs := (t.envs.create bindings next).2 } where
  __ := refl t
  kept {env scope} henv := by
    obtain ⟨hlt, -⟩ := Array.getElem?_eq_some_iff.1 henv
    simpa [Environments.create, Array.getElem?_push, hlt.ne] using henv

/-- A new object. -/
theorem object : t.Gains { t with store := t.store.fresh.2 } where
  __ := refl t
  refs := Nat.le_succ _

theorem list (items : List Value) : t.Gains { t with store := (t.store.list items).2 } := by
  cases items with
  | nil => exact refl t
  | cons => exact object t

theorem gensym (stem : String) : t.Gains { t with store := (t.store.gensym stem).2 } where
  __ := refl t
  symbols := ⟨id, id⟩
  made hm := hm.gensym stem
  ids := Nat.le_succ _

end Gains

namespace Grows

theorem trans {a b c : Engine} (h : a.Grows b) (h' : b.Grows c) : a.Grows c :=
  ⟨h.toAdds.trans h'.toAdds, fun ref hlt =>
    (h'.macros ref (hlt.trans_le h.refs)).trans (h.macros ref hlt)⟩

/-- A new closure, which is a macro if another one is. -/
theorem bind (t : Engine) (c : Closure) : t.Grows { t with
    store := t.store.fresh.2
    macros := if t.isMacro c then t.macros.insert t.store.nextRef else t.macros } where
  __ := (Gains.object t).toAdds
  macros ref hlt := by
    split
    · rw [Std.HashSet.mem_insert, beq_iff_eq, or_iff_right hlt.ne']
    · exact Iff.rfl

end Grows

end Engine

/-- Engines that gain. -/
def Regime.gaining : Regime where
  allows := Engine.Gains
  refl := .refl
  trans := .trans
  limits h := h.limits
  kept h := h.kept

/-- Code that makes engines gain. -/
def Setting.gaining (ev : Evaluator) (table : SymbolTable) (named : table.Named) : Setting where
  regime := .gaining
  evaluator := ev
  table := table
  named := named
  low t := t.store.nextRef
  low_le _ := le_rfl
  low_mono h := h.refs
  globals h := h.globals
  creates := .create
  lists := .list
  generates := .gensym

/-- Engines that grow. -/
def Regime.growing : Regime where
  allows := Engine.Grows
  refl t := (Engine.Gains.refl t).grows
  trans := .trans
  limits h := h.limits
  kept h := h.kept

/-- Code that makes engines grow. -/
def Setting.growing (ev : Evaluator) (table : SymbolTable) (named : table.Named) : Setting where
  regime := .growing
  evaluator := ev
  table := table
  named := named
  low t := t.store.nextRef
  low_le _ := le_rfl
  low_mono h := h.refs
  globals h := h.globals
  creates t bindings next := (Engine.Gains.create t bindings next).grows
  lists t items := (Engine.Gains.list t items).grows
  generates t stem := (Engine.Gains.gensym t stem).grows

theorem Setting.growing_binds {ev : Evaluator} {table : SymbolTable} {named : table.Named} :
    (Setting.growing ev table named).Binds :=
  Engine.Grows.bind

/-! ## Calling host functions -/

/-- Between the two engines nothing has happened to bindings and functions. -/
structure Engine.Steady (t t' : Engine) : Prop where
  limits : t'.limits = t.limits
  globals : t'.globals = t.globals
  hosts : t'.hosts = t.hosts
  kept : ∀ {env : EnvId} {scope : Environment}, t.envs.heap[env]? = some scope →
    t'.envs.heap[env]? = some scope

/-- Engines in which nothing happens to bindings and functions. -/
def Regime.steady : Regime where
  allows := Engine.Steady
  refl _ := ⟨rfl, rfl, rfl, id⟩
  trans h h' := ⟨h'.limits.trans h.limits, h'.globals.trans h.globals, h'.hosts.trans h.hosts,
    fun henv => h'.kept (h.kept henv)⟩
  limits h := h.limits
  kept h := h.kept

/-- Code that may call host functions. -/
def Setting.steady (ev : Evaluator) (table : SymbolTable) (named : table.Named) : Setting where
  regime := .steady
  evaluator := ev
  table := table
  named := named
  low _ := 0
  low_le _ := Nat.zero_le _
  low_mono _ := le_rfl
  globals h := h.globals
  creates t bindings next := ⟨rfl, rfl, rfl, (Engine.Gains.create t bindings next).kept⟩
  lists _ _ := ⟨rfl, rfl, rfl, id⟩
  generates _ _ := ⟨rfl, rfl, rfl, id⟩

end StackLisp
