import StackLisp.Proofs.Applying
import StackLisp.Proofs.Demands
import StackLisp.Proofs.Loaded

/-!
# Calls of the library's macros

Which forms call a macro on an engine with the library, and what they are expanded to.

- `Engine.Loaded.macroCall?_eq_some`, `Engine.Loaded.macroCall?_eq_none`: the names of the loaded
  macros call them, and no other names call macros;
- `Engine.Loaded.delivers_expandWithin`: an expression that is written with the loaded macros is
  expanded to its core.
-/

namespace StackLisp

open Compiler

/-! ## Keywords -/

/-- The keywords are interned one after the other, and are the symbols of their names. -/
theorem Keywords.intern_cases (store : Store) :
    Phrase.StoreReads store (Keywords.intern store).2 ∧
      (Keywords.intern store).1.Canonical (Keywords.intern store).2.symbols := by
  have hintern : ∀ {a b : Store} {name : String} {s : Symbol}, a.intern name = (s, b) →
      b.symbols.lookup name = some s ∧ Phrase.StoreReads a b := by
    rintro a _ name _ ⟨⟩
    exact ⟨SymbolTable.lookup_intern a.symbols name, .intern a name⟩
  rw [Keywords.intern]
  cases hfunction : store.intern "fn" with | mk function a =>
  cases hquote : a.intern "quote" with | mk quote b =>
  cases hconditional : b.intern "if" with | mk conditional c =>
  cases hdefine : c.intern "def" with | mk define d =>
  cases hassign : d.intern "set!" with | mk assign e =>
  cases hrest : e.intern "&" with | mk rest f =>
  simp only [hquote, hconditional, hdefine, hassign, hrest]
  -- each name keeps its symbol while the later ones are interned
  have hef := (hintern hrest).2
  have hdf := (hintern hassign).2.trans hef
  have hcf := (hintern hdefine).2.trans hdf
  have hbf := (hintern hconditional).2.trans hcf
  have haf := (hintern hquote).2.trans hbf
  exact ⟨(hintern hfunction).2.trans haf, haf.symbols.known (hintern hfunction).1,
    hbf.symbols.known (hintern hquote).1, hcf.symbols.known (hintern hconditional).1,
    hdf.symbols.known (hintern hdefine).1, hef.symbols.known (hintern hassign).1,
    (hintern hrest).1⟩

theorem Keywords.isSpecial_eq (k : Keywords) (s : Symbol) :
    k.isSpecial s = (k.special? (.symbol s)).isSome := by
  simp only [isSpecial, special?]
  split_ifs <;> simp_all

/-! ## Which forms call macros -/

namespace Engine.Loaded

variable {n : Nat} {e : Engine} {k : Keywords} {s : Symbol} {ref : Ref} {args : List Value}

/-- A macro is called by its name. -/
theorem macroCall?_eq_some (h : e.Loaded n) (hk : k.Canonical e.store.symbols) {i : Nat}
    {d : Definition} (hd : Vocabulary.all[i]? = some d) (hi : i < n) (hkind : d.isMacro = true)
    {c : Closure} (hc : e.Knows e.store.symbols d.name (.closure c))
    (hs : e.store.symbols.lookup d.name = some s) :
    macroCall? k e (.list ref (.symbol s) args) = some (c, args) := by
  have hspecial : k.isSpecial s = false := by
    rw [Keywords.isSpecial_eq, hk.special?_eq h.made.named hs,
      (Vocabulary.reserved_of_mem_macros (Vocabulary.mem_macros hd hi hkind)).2]
    rfl
  obtain ⟨s', hs', hglobal⟩ := hc
  obtain rfl := Option.some.inj (hs.symm.trans hs')
  have hisMacro : e.isMacro c = true := by
    obtain ⟨c', ⟨s'', hs'', hglobal'⟩, hdefines⟩ := h.defines i d hd hi
    obtain rfl := Option.some.inj (hs.symm.trans hs'')
    obtain rfl := Value.closure.inj (Option.some.inj (hglobal.symm.trans hglobal'))
    rw [hdefines.isMacro, hkind]
  simp [macroCall?, hspecial, hglobal, hisMacro]

/-- Names that are not the names of macros call none. -/
theorem macroCall?_eq_none (h : e.Loaded n) {name : String} (hname : name ∉ Vocabulary.macros n)
    (hs : e.store.symbols.lookup name = some s) :
    macroCall? k e (.list ref (.symbol s) args) = none := by
  have hnot : ∀ c, e.global? s = some (.closure c) → e.isMacro c = false := by
    intro c hglobal
    by_contra hkind
    obtain ⟨name', hname', s', hs', hid⟩ := h.only s c hglobal (Bool.not_eq_false _ ▸ hkind)
    exact hname (h.made.eq_of_id_eq hs hs' hid.symm ▸ hname')
  rw [macroCall?]
  split
  · rfl
  · split
    · next c hglobal => rw [hnot c hglobal]; rfl
    · rfl

/-- The names of special forms call no macros. -/
theorem macroCall?_special (h : e.Loaded n) {name : String}
    (hspecial : Special.ofName? name ≠ none) (hs : e.store.symbols.lookup name = some s) :
    macroCall? k e (.list ref (.symbol s) args) = none :=
  h.macroCall?_eq_none (fun hname => hspecial (Vocabulary.reserved_of_mem_macros hname).2) hs

/-- A list that is written with the name of a special form in front calls no macro. -/
theorem macroCall?_keyword (h : e.Loaded n) {table : SymbolTable}
    (hext : table.Extends e.store.symbols) {texts : Ref → Option String} {name : String}
    {ps : List Phrase} {w : Value} (hname : name ∈ ["fn", "quote", "if", "def", "set!", "&"])
    (hspecial : Special.ofName? name ≠ none)
    (hw : w.Written texts table (.list (.atom name :: ps))) : macroCall? k e w = none := by
  obtain ⟨ref, head, others, rfl, -, hhead, -⟩ := hw.of_list
  obtain ⟨s, rfl, hs⟩ := hhead.of_isName (Expression.isName_keyword hname)
  exact h.macroCall?_special hspecial (hext.known hs)

/-- The core of an expression calls no macro. -/
theorem macroCall?_core (h : e.Loaded n) {table : SymbolTable}
    (hext : table.Extends e.store.symbols) {texts : Ref → Option String} {macros : List String}
    {x : Expression} (hx : x.wellNamed macros = true) {w : Value}
    (hw : w.Written texts table x.core.phrase) : macroCall? k e w = none := by
  have hcore := Expression.core_core x
  replace hx := Expression.wellNamed_core hx
  -- an expression that is its own core is written without macro calls
  generalize x.core = x at hcore hx hw
  cases x with
  | constant text =>
    cases hw with
    | literal hv => rcases Expression.literal?_cases hv with rfl | ⟨_, rfl⟩ | ⟨_, rfl⟩ <;> rfl
    | symbol => rfl
  | string text =>
    cases hw
    rfl
  | symbol name =>
    cases hw with
    | quoted _ hquote _ => exact h.macroCall?_special (by decide) (hext.known hquote)
  | lookup name =>
    obtain ⟨s, rfl, -⟩ := hw.of_isName hx
    rfl
  | conditional => exact h.macroCall?_keyword hext (by simp) (by decide) hw
  | call callee args =>
    obtain ⟨⟨hcallee, hname⟩, -⟩ := by simpa only [Expression.wellNamed, Bool.and_eq_true] using hx
    obtain ⟨ref, head, others, rfl, -, hhead, -⟩ := hw.of_list
    cases callee with
    | lookup name =>
      obtain ⟨s, rfl, hs⟩ := hhead.of_isName hname
      -- the names of macros are reserved, and a callee has none of them
      refine h.macroCall?_eq_none (fun hkind => ?_) (hext.known hs)
      simp only [Expression.isCallee, decide_eq_true_eq] at hcallee
      exact hcallee (Vocabulary.reserved_of_mem_macros hkind).1
    | function =>
      obtain ⟨_, _, _, rfl, -⟩ := hhead.of_list
      rfl
    | _ => cases hcallee
  | function => exact h.macroCall?_keyword hext (by simp) (by decide) hw
  | define => exact h.macroCall?_keyword hext (by simp) (by decide) hw
  | binding => cases hcore
  | declare isMacro => cases isMacro <;> cases hcore

end Engine.Loaded

/-! ## Expanding written expressions -/

/-- A list that was made since is written as a list. -/
theorem Setting.Lists.written {ev : Evaluator} {table table' : SymbolTable} {named : table.Named}
    {t : Engine} {texts : Ref → Option String} {items : List Value} {v : Value} {ps : List Phrase}
    (h : (Setting.gaining ev table named).Lists t items v)
    (htexts : ∀ ref text, texts ref = some text → ref < t.store.nextRef)
    (hitems : List.Forall₂ (Value.Written texts table') items ps) :
    v.Written texts table' (.list ps) := by
  cases v with
  | nil =>
    cases h.1
    cases hitems
    exact .nil
  | list ref first others =>
    cases h.1
    cases hitems with
    | cons hfirst hothers =>
      refine .list ?_ hfirst hothers
      cases htext : texts ref with
      | none => rfl
      | some text => exact absurd (htexts ref text htext) (Nat.not_lt.2 (h.2 ref rfl))
  | _ => cases h.1

namespace Library

variable {ev : Evaluator} {table : SymbolTable} {named : table.Named} {n : Nat} {t : Engine}
  {texts : Ref → Option String} (h : Library table n t)
  (htexts : ∀ ref text, texts ref = some text → ref < t.store.nextRef) {c : Closure}
  {args : List Value} {name : String}
include h htexts

/-- What `let` makes of written forms. -/
theorem serves_binding {value body : Expression} (hn : 18 ≤ n)
    (hc : t.Knows table "let" (.closure c))
    (hargs : List.Forall₂ (Value.Written texts table) args
      [.list [.list [.atom name, value.phrase]], body.phrase]) :
    (Setting.gaining ev table named).Serves t 273 c args
      (Meets fun w =>
        w.Written texts table (Expression.core (.binding name value body)).phrase) := by
  -- the form has one binding with one source, and a body
  obtain ⟨l, _, hl, hrest, rfl⟩ := List.forall₂_cons_right_iff.1 hargs
  obtain ⟨b, _, hb, hnil, rfl⟩ := List.forall₂_cons_right_iff.1 hrest
  cases hnil
  obtain ⟨bindings, hbindings, hitems⟩ := hl.items?
  obtain ⟨binding, _, hbinding, hnil, rfl⟩ := List.forall₂_cons_right_iff.1 hitems
  cases hnil
  obtain ⟨pair, hpair, hpaired⟩ := hbinding.items?
  obtain ⟨target, _, htarget, hsources, rfl⟩ := List.forall₂_cons_right_iff.1 hpaired
  obtain ⟨source, _, hsource, hnil, rfl⟩ := List.forall₂_cons_right_iff.1 hsources
  cases hnil
  obtain ⟨c', hknows, hhandles⟩ := letMacro (W := .gaining ev table named) h hn
  obtain rfl := Value.closure.inj (hc.unique hknows)
  refine (hhandles [b] hbindings (by simp [hpair])).outside.mono (by simp) fun r hr => ?_
  obtain ⟨w, rfl, fn, targets, literal, hfn, htargets, hliteral, hw⟩ := hr
  have hfnWritten : (Value.symbol fn).Written texts table (.atom "fn") :=
    .symbol (Expression.isName_keyword (by simp)) hfn
  simp only [List.map_cons, List.map_nil, targetOf, sourceOf, hpair, Option.getD_some,
    ListLibrary.firstOf, List.headD_cons, List.tail_cons] at htargets hw
  exact meets_ok.2 (hw.written htexts (.cons (hliteral.written htexts
    (.cons hfnWritten (.cons (htargets.written htexts (.cons htarget .nil)) (.cons hb .nil))))
    (.cons hsource .nil)))

/-- What the macros for definitions make of written forms. -/
theorem serves_declare {isMacro : Bool} {signature : Signature} {body : Expression}
    (hn : (if isMacro then 0 else 1) < n)
    (hc : t.Knows table (if isMacro then "defmacro" else "defn") (.closure c))
    (hargs : List.Forall₂ (Value.Written texts table) args
      [.atom name, .list signature.phrases, body.phrase]) :
    (Setting.gaining ev table named).Serves t 20 c args (Meets fun w =>
      w.Written texts table (Expression.core (.declare isMacro name signature body)).phrase) := by
  obtain ⟨target, _, htarget, hrest, rfl⟩ := List.forall₂_cons_right_iff.1 hargs
  obtain ⟨parameters, _, hparameters, hbodies, rfl⟩ := List.forall₂_cons_right_iff.1 hrest
  obtain ⟨b, _, hb, hnil, rfl⟩ := List.forall₂_cons_right_iff.1 hbodies
  cases hnil
  -- what the macro adds of its own are keywords, which are written as they are
  have hkeyword : ∀ {word : String} {s : Symbol}, word ∈ ["fn", "quote", "if", "def", "set!", "&"] →
      table.lookup word = some s → (Value.symbol s).Written texts table (.atom word) :=
    fun hword hs => .symbol (Expression.isName_keyword hword) hs
  cases isMacro with
  | false =>
    obtain ⟨c', hknows, hhandles⟩ := defn (W := .gaining ev table named) h hn
    obtain rfl := Value.closure.inj (hc.unique hknows)
    refine (hhandles target parameters [b]).outside.mono (by omega) fun r hr => ?_
    obtain ⟨w, rfl, def', fn, literal, hdef, hfn, hliteral, hw⟩ := hr
    exact meets_ok.2 (hw.written htexts (.cons (hkeyword (by simp) hdef) (.cons htarget (.cons
      (hliteral.written htexts (.cons (hkeyword (by simp) hfn)
        (.cons htarget (.cons hparameters (.cons hb .nil))))) .nil))))
  | true =>
    obtain ⟨c', hknows, hhandles⟩ := defMacro (W := .gaining ev table named) h (by omega)
    obtain rfl := Value.closure.inj (hc.unique hknows)
    refine (hhandles target parameters [b]).outside.mono le_rfl fun r hr => ?_
    obtain ⟨w, rfl, def', fn, mark, literal, marked, hdef, hfn, hmark, hliteral, hmarked, hw⟩ := hr
    exact meets_ok.2 (hw.written htexts (.cons (hkeyword (by simp) hdef) (.cons htarget (.cons
      (hmarked.written htexts (.cons (.symbol Expression.isName_macro hmark) (.cons
        (hliteral.written htexts (.cons (hkeyword (by simp) hfn)
          (.cons htarget (.cons hparameters (.cons hb .nil))))) .nil))) .nil))))

end Library

namespace Engine.Loaded

variable {n : Nat} {e₀ e : Engine} {k : Keywords} {texts : Ref → Option String}
  (h : e₀.Loaded n) (hk : k.Canonical e₀.store.symbols) (hg : e₀.Gains e) (hidle : e.Idle)
include h hk hg hidle

/-- A macro is applied to the forms behind its name. -/
theorem delivers_macro {m i : Nat} {d : Definition} (hd : Vocabulary.all[i]? = some d)
    (hkind : d.isMacro = true) (hname : d.name ∈ Vocabulary.macros n) {ref : Ref} {s : Symbol}
    {args : List Value} (hs : e₀.store.symbols.lookup d.name = some s) {Q : Value → Prop}
    (hm : m ≤ 280) (hargs : args.length ≤ stride)
    (hserves : ∀ (ev : Evaluator) (c : Closure) (t : Engine),
      t = { e with depth := e.depth + 1 } → t.Knows e₀.store.symbols d.name (.closure c) →
      Library e₀.store.symbols n t →
      (Setting.gaining ev e₀.store.symbols h.made.named).Serves t m c args (Meets Q))
    (fuel : Nat) :
    Delivers (Enough fuel e₀.limits) (fun w e' => Q w ∧ e.Gains e' ∧ e'.Idle)
      (expandOnce (Machine.evaluator fuel) k (.list ref (.symbol s) args) e) := by
  have hi := Vocabulary.lt_of_mem_macros hd hname
  obtain ⟨c, hknows, -⟩ := h.defines i d hd hi
  have hcall : macroCall? k e (.list ref (.symbol s) args) = some (c, args) :=
    (h.gains hg).macroCall?_eq_some (hk.mono hg.symbols) hd hi hkind (hg.knows hknows)
      (hg.symbols.known hs)
  -- the macro runs one level deeper, on an engine that has gained from the one it was loaded on
  have hgains : e₀.Gains { e with depth := e.depth + 1 } :=
    @Engine.Gains.of_core e₀ e _ e₀.depth (e.depth + 1) hg rfl
  have happlies : ∀ ev, (Setting.gaining ev e₀.store.symbols h.made.named).Serves
      { e with depth := e.depth + 1 } m c args (Meets Q) := fun ev =>
    hserves ev c _ rfl
      (Setting.knows (W := .gaining ev e₀.store.symbols h.made.named) hgains hknows)
      (Library.later (W := .gaining ev e₀.store.symbols h.made.named)
        (h.library (.refl _)) hgains)
  rw [expandOnce, Eval.bind_of_ok (Eval.get_run e), hcall, ← hg.limits]
  exact Setting.Serves.applies happlies hm hargs hidle fuel

/-- A written expression is turned into its core. -/
theorem delivers_expandOnce (htexts : ∀ ref text, texts ref = some text → ref < e₀.store.nextRef)
    {x : Expression} (hx : x.wellNamed (Vocabulary.macros n) = true) {v : Value}
    (hv : v.Written texts e₀.store.symbols x.phrase) (fuel : Nat) :
    Delivers (Enough fuel e₀.limits)
      (fun w e' => w.Written texts e₀.store.symbols x.core.phrase ∧ e.Gains e' ∧ e'.Idle)
      (expandOnce (Machine.evaluator fuel) k v e) := by
  have hlater : ∀ {t : Engine}, t = { e with depth := e.depth + 1 } →
      ∀ ref text, texts ref = some text → ref < t.store.nextRef := by
    rintro _ rfl ref text href
    exact (htexts ref text href).trans_le hg.refs
  -- what is written without a macro stays as it is
  have hnone : x.core = x → Delivers (Enough fuel e₀.limits)
      (fun w e' => w.Written texts e₀.store.symbols x.core.phrase ∧ e.Gains e' ∧ e'.Idle)
      (expandOnce (Machine.evaluator fuel) k v e) := by
    intro hcore
    rw [hcore]
    have hcall : macroCall? k e v = none :=
      (h.gains hg).macroCall?_core hg.symbols hx (hcore.symm ▸ hv)
    rw [expandOnce, Eval.bind_of_ok (Eval.get_run e), hcall]
    exact .of_ok ⟨hv, .refl e, hidle⟩
  cases x with
  | binding name value body =>
    obtain ⟨⟨⟨hkind, -⟩, -⟩, -⟩ := by
      simpa only [Expression.wellNamed, Bool.and_eq_true, decide_eq_true_eq] using hx
    obtain ⟨ref, head, args, rfl, -, hhead, hargs⟩ := hv.of_list
    obtain ⟨s, rfl, hs⟩ := hhead.of_isName (by decide +kernel)
    refine h.delivers_macro hk hg hidle (m := 273) (d := Vocabulary.letMacro) (i := 17) rfl rfl
      hkind hs (by omega) (by rw [hargs.length_eq]; simp [stride])
      (fun ev c t ht hknows hlibrary => ?_) fuel
    exact hlibrary.serves_binding (hlater ht) (Vocabulary.lt_of_mem_macros (i := 17) rfl hkind)
      hknows hargs
  | declare isMacro name signature body =>
    obtain ⟨⟨⟨hkind, -⟩, -⟩, -⟩ := by
      simpa only [Expression.wellNamed, Bool.and_eq_true, decide_eq_true_eq] using hx
    obtain ⟨ref, head, args, rfl, -, hhead, hargs⟩ := hv.of_list
    -- both macros take the same arguments
    have hlength : args.length ≤ stride := by rw [hargs.length_eq]; simp [stride]
    cases isMacro with
    | false =>
      obtain ⟨s, rfl, hs⟩ := hhead.of_isName (by decide +kernel)
      refine h.delivers_macro hk hg hidle (m := 20) (d := Vocabulary.defn) (i := 1) rfl rfl hkind
        hs (by omega) hlength (fun ev c t ht hknows hlibrary => ?_) fuel
      exact hlibrary.serves_declare (hlater ht) (Vocabulary.lt_of_mem_macros (i := 1) rfl hkind)
        hknows hargs
    | true =>
      obtain ⟨s, rfl, hs⟩ := hhead.of_isName (by decide +kernel)
      refine h.delivers_macro hk hg hidle (m := 20) (d := Vocabulary.defMacro) (i := 0) rfl rfl
        hkind hs (by omega) hlength (fun ev c t ht hknows hlibrary => ?_) fuel
      exact hlibrary.serves_declare (hlater ht) (Vocabulary.lt_of_mem_macros (i := 0) rfl hkind)
        hknows hargs
  | _ => exact hnone rfl

/-- A written expression is expanded to its core. -/
theorem delivers_expandWithin (htexts : ∀ ref text, texts ref = some text → ref < e₀.store.nextRef)
    {x : Expression} (hx : x.wellNamed (Vocabulary.macros n) = true) {v : Value}
    (hv : v.Written texts e₀.store.symbols x.phrase) (fuel : Nat) :
    Delivers (Enough fuel e₀.limits)
      (fun w e' => w.Written texts e₀.store.symbols x.core.phrase ∧ e.Gains e' ∧ e'.Idle)
      (expandWithin (Machine.evaluator fuel) k (Machine.evaluator fuel).fuel v e) := by
  cases fuel with
  | zero => exact .of_error fun henough => absurd henough.fuel (by omega)
  | succ fuel =>
    change Delivers _ _ (expandWithin (Machine.evaluator (fuel + 1)) k fuel v e)
    cases fuel with
    | zero => exact .of_error fun henough => absurd henough.fuel (by omega)
    | succ steps =>
      refine (h.delivers_expandOnce hk hg hidle htexts hx hv _).bind fun w e' hw => ?_
      -- the core is expanded to itself
      split
      · exact .of_ok hw
      · cases steps with
        | zero => exact .of_error fun henough => absurd henough.fuel (by omega)
        | succ steps =>
          have hgains := hg.trans hw.2.1
          have hnone := (h.gains hgains).macroCall?_core (k := k) hgains.symbols hx hw.1
          rw [expandWithin_of_noMacroCall (Nat.succ_pos steps) hnone]
          exact .of_ok hw

end Engine.Loaded

end StackLisp
