import Mathlib.Order.Defs.PartialOrder
import StackLisp.Builtin.Call
import StackLisp.Proofs.Proper
import StackLisp.Text.Datum

/-!
# Making values

The built-in functions and the reader put values together from those that they are given: they take
lists apart, and make strings and lists with a store. A property of values that this keeps is a
`Stock`. Stocks grow, as the objects that were made become more.

- `Fine`: a result has a property, or is an error that is not the machine's;
- `Stock.Makes`: a computation in a store ends with such a result, of values in stock;
- `Stock.makes_append` and its companions: so do the built-in functions;
- `Target.fine_resolve`: what a call comes down to gets values in stock;
- `Datum.next_stocked`, `Datum.readOne_stocked`: what is read is in stock.
-/

namespace StackLisp

variable {α β : Type}

/-! ## Results -/

/-- The result has a property, or is an error that is not the machine's. -/
def Fine (P : α → Prop) : Except Error α → Prop
  | .ok a => P a
  | .error error => error.Tame

theorem Fine.mono {P Q : α → Prop} {r : Except Error α} (h : Fine P r) (hpq : ∀ a, P a → Q a) :
    Fine Q r := by
  cases r with
  | error error => exact h
  | ok a => exact hpq a h

/-- A fine result is what it is. -/
theorem Fine.self {P : α → Prop} {r : Except Error α} (h : Fine P r) :
    Fine (fun a => r = .ok a) r := by
  cases r with
  | error error => exact h
  | ok a => rfl

theorem Fine.bind {P : α → Prop} {Q : β → Prop} {r : Except Error α} {f : α → Except Error β}
    (hr : Fine P r) (hf : ∀ a, P a → Fine Q (f a)) : Fine Q (r >>= f) := by
  cases r with
  | error error => exact hr
  | ok a => exact hf a hr

/-- Results that are fine one by one are fine together. -/
theorem Fine.mapM {P : β → Prop} {f : α → Except Error β} {items : List α}
    (h : ∀ a ∈ items, Fine P (f a)) : Fine (fun bs => ∀ b ∈ bs, P b) (items.mapM f) := by
  induction items with
  | nil => exact fun b hb => nomatch hb
  | cons a items ih =>
    rw [List.forall_mem_cons] at h
    rw [List.mapM_cons]
    refine h.1.bind fun b hb => (ih h.2).bind fun bs hbs => ?_
    exact List.forall_mem_cons.2 ⟨hb, hbs⟩

/-! ## Arguments -/

theorem fine_arity_check (function : String) (least : Nat) (most : Option Nat)
    (args : List Value) : Fine (fun _ => True) (Arity.check function least most args) := by
  unfold Arity.check
  split
  · trivial
  · split
    · split <;> trivial
    · trivial

theorem fine_expectNumber (v : Value) : Fine (fun _ => True) v.expectNumber := by
  unfold Value.expectNumber
  split <;> trivial

theorem fine_expectText (v : Value) : Fine (fun _ => True) v.expectText := by
  unfold Value.expectText
  split <;> trivial

theorem fine_expectSymbol (v : Value) : Fine (fun _ => True) v.expectSymbol := by
  unfold Value.expectSymbol
  split <;> trivial

theorem fine_expectClosure (v : Value) : Fine (fun c => v = .closure c) v.expectClosure := by
  unfold Value.expectClosure
  cases v <;> trivial

theorem fine_expectItems (v : Value) : Fine (fun items => v.items? = some items) v.expectList := by
  unfold Value.expectList
  split
  · assumption
  · trivial

theorem fine_position (number : Float) (length : Nat) :
    Fine (fun _ => True) (Sequence.position number length) := by
  unfold Sequence.position
  dsimp only
  split <;> trivial

theorem fine_numbers (args : List Value) :
    Fine (fun numbers => ∀ x ∈ numbers, True) (Numeric.numbers args) :=
  .mapM fun v _ => fine_expectNumber v

section

variable {P : Value → Prop} {function : String} {args : List Value}

theorem fine_arity_one (h : ∀ v ∈ args, P v) : Fine P (Arity.one function args) := by
  unfold Arity.one
  split
  · exact h _ (by simp)
  · trivial
  · trivial

theorem fine_arity_two (h : ∀ v ∈ args, P v) :
    Fine (fun p => P p.1 ∧ P p.2) (Arity.two function args) := by
  unfold Arity.two
  split
  · exact ⟨h _ (by simp), h _ (by simp)⟩
  · trivial
  · trivial
  · trivial

end

/-! ## Stocks -/

/-- The values that a computation may use. They can be taken apart and put together, also to new
strings and lists; those are in stock once they were made. -/
structure Stock where
  /-- What is known of the values in stock. -/
  World : Type
  [order : Preorder World]
  /-- A value in stock. -/
  value : World → Value → Prop
  /-- A store that can make more of them. -/
  store : World → Store → Prop
  value_mono : ∀ {w w' v}, w ≤ w' → value w v → value w' v
  number : ∀ w n, value w (.number n)
  boolean : ∀ w b, value w (.boolean b)
  symbol : ∀ w s, value w (.symbol s)
  nil : ∀ w, value w .nil
  items : ∀ {w v items}, value w v → v.items? = some items → ∀ item ∈ items, value w item
  /-- The symbols that were made do not matter. -/
  symbols : ∀ {w s} symbols, store w s → store w { s with symbols }
  string : ∀ {w s} text, store w s →
    ∃ w', w ≤ w' ∧ store w' (s.string text).2 ∧ value w' (s.string text).1
  list : ∀ {w s first others}, store w s → (∀ v ∈ first :: others, value w v) →
    ∃ w', w ≤ w' ∧ store w' (s.list (first :: others)).2 ∧ value w' (s.list (first :: others)).1

attribute [instance] Stock.order

namespace Stock

variable {σ : Stock} {w : σ.World}

/-- A list of values in stock is made, or found to be empty. -/
theorem list_of_items {s : Store} (hs : σ.store w s) {items : List Value}
    (h : ∀ v ∈ items, σ.value w v) :
    ∃ w', w ≤ w' ∧ σ.store w' (s.list items).2 ∧ σ.value w' (s.list items).1 := by
  cases items with
  | nil => exact ⟨w, le_rfl, hs, σ.nil w⟩
  | cons first others => exact σ.list hs h

/-- In a store that can make values in stock, the computation's result is fine, and so is the store
afterwards. -/
def Makes (σ : Stock) (w : σ.World) (P : σ.World → α → Prop) (m : Make α) : Prop :=
  ∀ s, σ.store w s → ∃ w', w ≤ w' ∧ σ.store w' (m.run s).2 ∧ Fine (P w') (m.run s).1

namespace Makes

variable {P : σ.World → α → Prop}

theorem pure {a : α} (h : P w a) : σ.Makes w P (Pure.pure a) :=
  fun _ hs => ⟨w, le_rfl, hs, h⟩

theorem throw {error : Error} (h : error.Tame) : σ.Makes w P (MonadExcept.throw error) :=
  fun _ hs => ⟨w, le_rfl, hs, h⟩

/-- A result that needs no store, and what is done with it. -/
theorem lift_bind {Q : β → Prop} {r : Except Error β} {f : β → Make α} (hr : Fine Q r)
    (hf : ∀ b, Q b → σ.Makes w P (f b)) : σ.Makes w P (liftM r >>= f) := by
  cases r with
  | error error => exact .throw hr
  | ok b => exact hf b hr

end Makes

/-! ## Numbers and comparisons -/

variable {args : List Value}

theorem fine_sum (w : σ.World) (args : List Value) : Fine (σ.value w) (Numeric.sum args) :=
  (fine_numbers args).bind fun _ _ => σ.number w _

theorem fine_difference (w : σ.World) (args : List Value) :
    Fine (σ.value w) (Numeric.difference args) := by
  refine (fine_numbers args).bind fun numbers _ => ?_
  split <;> exact σ.number w _

theorem fine_product (w : σ.World) (args : List Value) :
    Fine (σ.value w) (Numeric.product args) :=
  (fine_numbers args).bind fun _ _ => σ.number w _

theorem fine_quotient (w : σ.World) (args : List Value) :
    Fine (σ.value w) (Numeric.quotient args) := by
  refine (fine_arity_check _ _ _ _).bind fun _ _ => (fine_numbers args).bind fun numbers _ => ?_
  split <;> exact σ.number w _

theorem fine_compare (w : σ.World) (function : String) (holds : Float → Float → Bool)
    (args : List Value) : Fine (σ.value w) (Comparison.compare function holds args) :=
  (fine_arity_two fun _ _ => trivial).bind fun _ _ => (fine_expectNumber _).bind fun _ _ =>
    (fine_expectNumber _).bind fun _ _ => σ.boolean w _

theorem fine_areIdentical (w : σ.World) (args : List Value) :
    Fine (σ.value w) (Comparison.areIdentical args) :=
  (fine_arity_two fun _ _ => trivial).bind fun _ _ => σ.boolean w _

theorem fine_areEqual (w : σ.World) (args : List Value) :
    Fine (σ.value w) (Comparison.areEqual args) :=
  (fine_arity_two fun _ _ => trivial).bind fun _ _ => σ.boolean w _

/-! ## Lists, strings and names -/

theorem fine_expectList {v : Value} (h : σ.value w v) :
    Fine (fun items => ∀ item ∈ items, σ.value w item) v.expectList :=
  (fine_expectItems v).mono fun _ hitems => σ.items h hitems

theorem makes_makeString (text : String) : σ.Makes w σ.value (Sequence.makeString text) :=
  fun _ hs => σ.string text hs

theorem makes_makeList {items : List Value} (h : ∀ v ∈ items, σ.value w v) :
    σ.Makes w σ.value (Sequence.makeList items) :=
  fun _ hs => list_of_items hs h

theorem makes_cons (h : ∀ v ∈ args, σ.value w v) : σ.Makes w σ.value (Sequence.cons args) :=
  .lift_bind (fine_arity_two h) fun _ hp =>
    .lift_bind (fine_expectList hp.2) fun _ hitems =>
      makes_makeList (List.forall_mem_cons.2 ⟨hp.1, hitems⟩)

theorem makes_listStar (h : ∀ v ∈ args, σ.value w v) :
    σ.Makes w σ.value (Sequence.listStar args) := by
  refine .lift_bind (fine_arity_check _ _ _ _) fun _ _ => ?_
  split
  · rename_i last hlast
    refine .lift_bind (fine_expectList (h last (List.mem_of_getLast? hlast))) fun items hitems =>
      makes_makeList fun v hv => ?_
    -- an argument before the last one, or an item of that
    rcases List.mem_append.1 hv with hv | hv
    · exact h v (List.dropLast_subset _ hv)
    · exact hitems v hv
  · exact makes_makeList (by simp)

theorem makes_append (h : ∀ v ∈ args, σ.value w v) :
    σ.Makes w σ.value (Sequence.append args) := by
  refine .lift_bind (fine_arity_two h) fun p hp => ?_
  split
  · exact .lift_bind (fine_expectText _) fun _ _ => makes_makeString _
  · split
    · rename_i items hitems
      refine makes_makeList fun v hv => ?_
      rcases List.mem_append.1 hv with hv | hv
      · exact σ.items hp.1 hitems v hv
      · exact List.mem_singleton.1 hv ▸ hp.2
    · exact .throw (by trivial)

theorem makes_concat (h : ∀ v ∈ args, σ.value w v) :
    σ.Makes w σ.value (Sequence.concat args) := by
  -- the empty list is joined like other lists
  have hlists : σ.Makes w σ.value (do
      Sequence.makeList (← Sequence.allItems args).flatten) := by
    refine .lift_bind (.mapM fun v hv => fine_expectList (h v hv)) fun lists hl => ?_
    refine makes_makeList fun v hv => ?_
    obtain ⟨items, hitems, hv⟩ := List.mem_flatten.1 hv
    exact hl items hitems v hv
  refine .lift_bind (fine_arity_check _ _ _ _) fun _ _ => ?_
  split
  · exact .lift_bind (.mapM fun v _ => fine_expectText v) fun _ _ => makes_makeString _
  · exact hlists
  · exact hlists
  · exact .throw (by trivial)
  · exact makes_makeList (by simp)

theorem makes_nth (h : ∀ v ∈ args, σ.value w v) : σ.Makes w σ.value (Sequence.nth args) := by
  refine .lift_bind (fine_arity_two h) fun p hp => ?_
  refine .lift_bind (fine_expectNumber _) fun _ _ => ?_
  split
  · exact .lift_bind (fine_position _ _) fun _ _ => makes_makeString _
  · split
    · rename_i items hitems
      refine .lift_bind (fine_position _ _) fun i _ => .pure ?_
      rw [List.getD_eq_getElem?_getD]
      cases hi : items[i]? with
      | none => exact σ.nil w
      | some v => exact σ.items hp.1 hitems v (List.mem_of_getElem? hi)
    · exact .throw (by trivial)

theorem makes_rest (h : ∀ v ∈ args, σ.value w v) : σ.Makes w σ.value (Sequence.rest args) :=
  .lift_bind (fine_arity_one h) fun _ hv =>
    .lift_bind (fine_expectList hv) fun _ hitems =>
      makes_makeList fun v hv => hitems v (List.mem_of_mem_tail hv)

/-- A symbol is made without an allocation. -/
theorem makes_symbol (f : Store → Symbol × Store)
    (hf : ∀ s, ∃ symbols, (f s).2 = { s with symbols }) :
    σ.Makes w σ.value fun s => (.ok (.symbol (f s).1), (f s).2) := by
  intro s hs
  obtain ⟨symbols, heq⟩ := hf s
  refine ⟨w, le_rfl, ?_, σ.symbol w _⟩
  change σ.store w (f s).2
  rw [heq]
  exact σ.symbols symbols hs

theorem makes_typeSymbol (args : List Value) : σ.Makes w σ.value (Naming.typeSymbol args) :=
  .lift_bind (fine_arity_one fun _ _ => trivial) fun v _ =>
    makes_symbol (·.intern v.typeName) fun _ => ⟨_, rfl⟩

theorem makes_internName (args : List Value) : σ.Makes w σ.value (Naming.internName args) :=
  .lift_bind (fine_arity_one fun _ _ => trivial) fun _ _ =>
    .lift_bind (fine_expectText _) fun name _ => makes_symbol (·.intern name) fun _ => ⟨_, rfl⟩

theorem makes_freshSymbol (args : List Value) : σ.Makes w σ.value (Naming.freshSymbol args) := by
  refine .lift_bind (fine_arity_check _ _ _ _) fun _ _ => ?_
  dsimp only
  split
  · exact .lift_bind (fine_expectText _) fun stem _ =>
      makes_symbol (·.gensym stem) fun _ => ⟨_, rfl⟩
  · exact makes_symbol (·.gensym "gensym") fun _ => ⟨_, rfl⟩

end Stock

/-! ## Calls -/

namespace Target

variable {σ : Stock} {w : σ.World}

/-- What the call comes down to, and its arguments, are in stock. -/
def In (σ : Stock) (w : σ.World) : Target → Prop
  | .builtin _ args | .host _ _ args => ∀ v ∈ args, σ.value w v
  | .closure c args => σ.value w (.closure c) ∧ ∀ v ∈ args, σ.value w v

/-- Following applications leads to something in stock. -/
theorem fine_resolve (function : Intrinsic) {args : List Value} (h : ∀ v ∈ args, σ.value w v) :
    Fine (In σ w) (resolve function args) := by
  unfold resolve
  split
  · exact h
  · exact h
  · split
    · rename_i callee list
      split
      · trivial
      · rename_i items hitems
        -- the items of the list are the arguments of the function that is applied
        have hargs := σ.items (h list (by simp)) hitems
        have hsize := Value.sizeOf_items_lt callee list hitems
        cases callee with
        | intrinsic ref function => exact fine_resolve function hargs
        | closure c => exact ⟨h (.closure c) (by simp), hargs⟩
        | number | symbol | boolean | string | nil | list => trivial
    · trivial
    · trivial
    · trivial
termination_by sizeOf args

end Target

/-! ## Reading -/

theorem fine_scan (text : String) : Fine (fun _ => True) (Token.scan text) := by
  unfold Token.scan Scan.finish
  split <;> trivial

namespace Datum

variable {σ : Stock} {w : σ.World}

/-- The items of an open level are in stock. -/
def Level.In (σ : Stock) (w : σ.World) : Level → Prop
  | .list reversed => ∀ v ∈ reversed, σ.value w v
  | .quote => True

theorem Level.In.mono {w w' : σ.World} (hw : w ≤ w') {level : Level} (h : level.In σ w) :
    level.In σ w' := by
  cases level with
  | list reversed => exact fun v hv => σ.value_mono hw (h v hv)
  | quote => trivial

/-- A reading has come across values in stock only, and did not fail because of the machine. -/
def Progress.In (σ : Stock) (w : σ.World) : Progress → Prop
  | .done value store => σ.store w store ∧ σ.value w value
  | .more levels store => σ.store w store ∧ ∀ level ∈ levels, level.In σ w
  | .failed error store | .refused error store => σ.store w store ∧ error.Tame

theorem settle_stocked (quote : Symbol) {store : Store} {value : Value} {levels : List Level}
    (hs : σ.store w store) (hv : σ.value w value) (hl : ∀ level ∈ levels, level.In σ w) :
    ∃ w', w ≤ w' ∧ (settle quote store value levels).In σ w' := by
  induction levels generalizing store value w with
  | nil => exact ⟨w, le_rfl, hs, hv⟩
  | cons level outer ih =>
    rw [List.forall_mem_cons] at hl
    cases level with
    | list reversed =>
      exact ⟨w, le_rfl, hs, List.forall_mem_cons.2 ⟨List.forall_mem_cons.2 ⟨hv, hl.1⟩, hl.2⟩⟩
    | quote =>
      -- the quotation is a new list, which stands in the level outside
      have hitems : ∀ v ∈ [.symbol quote, value], σ.value w v :=
        List.forall_mem_cons.2 ⟨σ.symbol w quote, by simpa using hv⟩
      obtain ⟨w₁, hle, hs₁, hv₁⟩ := σ.list hs hitems
      obtain ⟨w₂, hle', hprogress⟩ := ih hs₁ hv₁ fun level hlevel => (hl.2 level hlevel).mono hle
      exact ⟨w₂, hle.trans hle', hprogress⟩

theorem fine_ofAtom {store : Store} (hs : σ.store w store) (atom : String) (place : Span) :
    Fine (fun r => σ.store w r.2 ∧ σ.value w r.1) (ofAtom store atom place) := by
  unfold ofAtom
  split
  · exact ⟨hs, σ.boolean w true⟩
  · split
    · exact ⟨hs, σ.boolean w false⟩
    · split
      · exact ⟨hs, σ.nil w⟩
      · split
        · trivial
        · split
          · exact ⟨hs, σ.number w _⟩
          · exact ⟨σ.symbols _ hs, σ.symbol w _⟩

theorem startDatum_stocked (quote : Symbol) {store : Store} {levels : List Level} (t : Located)
    (hs : σ.store w store) (hl : ∀ level ∈ levels, level.In σ w) :
    ∃ w', w ≤ w' ∧ (startDatum quote store levels t).In σ w' := by
  unfold startDatum
  split
  · exact ⟨w, le_rfl, hs, trivial⟩
  · split
    · exact ⟨w, le_rfl, hs, List.forall_mem_cons.2 ⟨fun v hv => (nomatch hv), hl⟩⟩
    · exact ⟨w, le_rfl, hs, List.forall_mem_cons.2 ⟨trivial, hl⟩⟩
    · exact ⟨w, le_rfl, hs, trivial⟩
    · rename_i text _
      obtain ⟨w₁, hle, hs₁, hv₁⟩ := σ.string text hs
      obtain ⟨w₂, hle', hprogress⟩ :=
        settle_stocked quote hs₁ hv₁ fun level hlevel => (hl level hlevel).mono hle
      exact ⟨w₂, hle.trans hle', hprogress⟩
    · rename_i atom _
      have hatom := fine_ofAtom hs atom t.span
      split
      · rename_i h
        rw [h] at hatom
        exact settle_stocked quote hatom.1 hatom.2 hl
      · rename_i h
        rw [h] at hatom
        exact ⟨w, le_rfl, hs, hatom⟩

/-- One token keeps to values in stock. -/
theorem step_stocked (quote : Symbol) {store : Store} {levels : List Level} (t : Located)
    (hs : σ.store w store) (hl : ∀ level ∈ levels, level.In σ w) :
    ∃ w', w ≤ w' ∧ (step quote store levels t).In σ w' := by
  unfold step
  split
  · rename_i reversed outer _
    rw [List.forall_mem_cons] at hl
    obtain ⟨w₁, hle, hs₁, hv₁⟩ := Stock.list_of_items hs fun v hv => hl.1 v (List.mem_reverse.1 hv)
    obtain ⟨w₂, hle', hprogress⟩ :=
      settle_stocked quote hs₁ hv₁ fun level hlevel => (hl.2 level hlevel).mono hle
    exact ⟨w₂, hle.trans hle', hprogress⟩
  · exact startDatum_stocked quote t hs hl

/-- Whatever is read is in stock. -/
theorem readWith_stocked (quote : Symbol) {store : Store} {levels : List Level}
    (tokens : List Located) (hs : σ.store w store) (hl : ∀ level ∈ levels, level.In σ w) :
    ∃ w', w ≤ w' ∧ σ.store w' (readWith quote store levels tokens).store ∧
      Fine (σ.value w') (readWith quote store levels tokens).result := by
  -- the open levels and the store are in stock before each token
  induction tokens generalizing store levels w with
  | nil => exact ⟨w, le_rfl, hs, trivial⟩
  | cons t rest ih =>
    obtain ⟨w₁, hle, hprogress⟩ := step_stocked quote t hs hl
    unfold readWith
    split
    all_goals
      rename_i h
      rw [h] at hprogress
    · exact ⟨w₁, hle, hprogress⟩
    · obtain ⟨w₂, hle', hread⟩ := ih hprogress.1 hprogress.2
      exact ⟨w₂, hle.trans hle', hread⟩
    · exact ⟨w₁, hle, hprogress⟩
    · exact ⟨w₁, hle, hprogress⟩

/-- The next datum of some tokens is in stock. -/
theorem next_stocked {store : Store} {tokens : List Located} {reading : Reading}
    (hs : σ.store w store) (h : next store tokens = some reading) :
    ∃ w', w ≤ w' ∧ σ.store w' reading.store ∧ Fine (σ.value w') reading.result := by
  cases tokens with
  | nil => cases h
  | cons t rest =>
    cases h
    exact readWith_stocked _ _ (σ.symbols _ hs) fun level hlevel => nomatch hlevel

/-- The first datum of a text is in stock. -/
theorem readOne_stocked {store : Store} (hs : σ.store w store) (text : String) :
    ∃ w', w ≤ w' ∧ σ.store w' (readOne store text).2 ∧
      Fine (σ.value w') (readOne store text).1 := by
  have hscan := fine_scan text
  unfold readOne
  split
  · rename_i h
    rw [h] at hscan
    exact ⟨w, le_rfl, hs, hscan⟩
  · split
    · exact ⟨w, le_rfl, hs, trivial⟩
    · rename_i h
      exact next_stocked hs h

end Datum

end StackLisp
