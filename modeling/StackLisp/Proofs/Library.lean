import StackLisp.Proofs.Outcomes
import StackLisp.Proofs.Vocabulary

/-!
# The functions of the library

What the functions and macros of the prelude come to, in engines where they are bound to what they
are names of. They are read as expressions, and each is followed through the calls that it makes.

- `Library`, `ListLibrary`: the names that are bound, of the whole library or of its functions on
  lists;
- `Setting.Replies.lists` and its neighbours: what the built-in functions reply;
- `ListLibrary.map_items`, `ListLibrary.filter_items`: a function applied item by item gives
  `Results` for all items, and those `Chosen` by them, errors included, by induction on the items;
- `Library.comes_literal`, `Library.defn`, `Library.defMacro`: the macros that define;
- `Library.letMacro`: `let` makes a call of a function literal;
- `Library.shortCircuit`: `and` and `or` bind the first operand to a new symbol.
-/

namespace StackLisp

/-- The names of the built-in functions, and of the first `n` definitions of the prelude, are bound
globally to what they are names of. -/
structure Library (table : SymbolTable) (n : Nat) (e : Engine) : Prop where
  builtin : ∀ b : Builtin, ∃ ref, e.Knows table b.name (.intrinsic ref (.builtin b))
  defines : ∀ (i : Nat) (d : Definition), Vocabulary.all[i]? = some d → i < n →
    ∃ c, e.Knows table d.name (.closure c) ∧
      FunctionOf table e.envs [] d.signature d.body c

/-- The names of the functions that go through lists are bound globally to what they are names
of. -/
structure ListLibrary (table : SymbolTable) (e : Engine) : Prop where
  builtin : ∀ b : Builtin, b.name ∈ Vocabulary.listNames →
    ∃ ref, e.Knows table b.name (.intrinsic ref (.builtin b))
  defines : ∀ (i : Nat) (d : Definition), Vocabulary.all[i]? = some d →
    d.name ∈ Vocabulary.listNames →
    ∃ c, e.Knows table d.name (.closure c) ∧ FunctionOf table e.envs [] d.signature d.body c

theorem Library.lists {table : SymbolTable} {n : Nat} {e : Engine} (h : Library table n e)
    (hn : 15 ≤ n) : ListLibrary table e where
  builtin b _ := h.builtin b
  defines i d hd hname := h.defines i d hd ((Vocabulary.lt_of_mem_listNames hd hname).trans_le hn)

/-- Calling a built-in function is calling what it is called after. -/
theorem Intrinsic.call_builtin (ev : Evaluator) (b : Builtin) (args : List Value) :
    (Intrinsic.builtin b).call ev args = b.call ev args := by
  rw [Intrinsic.call, Target.resolve]
  rfl

theorem Value.identical_nil (v : Value) : v.identical .nil = v.isNil := by
  cases v <;> simp [Value.identical, Value.identity, Value.isNil]

theorem Value.isNil_eq_isEmpty {v : Value} {items : List Value} (h : v.items? = some items) :
    v.isNil = items.isEmpty := by
  cases v <;> cases h <;> rfl

namespace Setting

variable {W : Setting} {t : Engine} {ref : Ref} {P : Except Error Value → Prop}

/-! ## Built-in functions -/

/-- A function that makes a list of some items. -/
theorem Replies.lists {b : Builtin} {args items : List Value}
    (hcall : b.call W.evaluator args = Eval.make (Sequence.makeList items))
    (h : ∀ v, W.Lists t items v → P (.ok v)) :
    W.Replies t 1 (.intrinsic ref (.builtin b)) args P :=
  .make ((Intrinsic.call_builtin _ _ _).trans hcall) (fun t' _ => W.lists t' items)
    fun _ hallows => h _ (lists_list hallows items)

theorem expectList_of_items? {l : Value} {items : List Value} (h : l.items? = some items) :
    l.expectList = .ok items := by
  rw [Value.expectList, h]

theorem Replies.cons {v l : Value} {items : List Value} (hl : l.items? = some items)
    (h : ∀ w, W.Lists t (v :: items) w → P (.ok w)) :
    W.Replies t 1 (.intrinsic ref (.builtin .cons)) [v, l] P := by
  have haction : Sequence.cons [v, l] =
      ((l.expectList : Make (List Value)) >>= fun items => Sequence.makeList (v :: items)) := rfl
  refine .lists (congrArg Eval.make ?_) h
  rw [haction, expectList_of_items? hl]
  rfl

theorem Replies.list {args : List Value} (h : ∀ w, W.Lists t args w → P (.ok w)) :
    W.Replies t 1 (.intrinsic ref (.builtin .list)) args P :=
  .lists rfl h

theorem Replies.listStar {v l : Value} (args : List Value) {items : List Value}
    (hl : l.items? = some items) (h : ∀ w, W.Lists t (v :: args ++ items) w → P (.ok w)) :
    W.Replies t 1 (.intrinsic ref (.builtin .listStar)) (v :: args ++ [l]) P := by
  have hcheck : Arity.check "list*" 2 none (v :: args ++ [l]) = .ok () := by
    rw [Arity.check, if_neg (by simp)]
  have haction : Sequence.listStar (v :: args ++ [l]) =
      ((l.expectList : Make (List Value)) >>= fun items =>
        Sequence.makeList (v :: args ++ items)) := by
    rw [Sequence.listStar, hcheck, List.getLast?_concat, List.dropLast_concat]
    rfl
  refine .lists (congrArg Eval.make ?_) h
  rw [haction, expectList_of_items? hl]
  rfl

theorem Replies.rest {l : Value} {items : List Value} (hl : l.items? = some items)
    (h : ∀ w, W.Lists t items.tail w → P (.ok w)) :
    W.Replies t 1 (.intrinsic ref (.builtin .rest)) [l] P := by
  have haction : Sequence.rest [l] =
      ((l.expectList : Make (List Value)) >>= fun items => Sequence.makeList items.tail) := rfl
  refine .lists (congrArg Eval.make ?_) h
  rw [haction, expectList_of_items? hl]
  rfl

theorem Replies.identical (v w : Value) :
    W.Replies t 1 (.intrinsic ref (.builtin .identical)) [v, w]
      (Meets (· = .boolean (v.identical w))) :=
  .ofExcept ((Intrinsic.call_builtin _ _ _).trans rfl) (meets_ok.2 rfl)

/-- The number zero is the place of the first item. -/
theorem position_zero {n : Nat} (h : 0 < n) : Sequence.position 0.0 n = .ok 0 := by
  have hwhole : (0.0 : Float).toUInt64 = 0 := rfl
  have hsame : ((0 : UInt64).toFloat == (0.0 : Float)) = true := by decide +kernel
  have hplace : (0 : UInt64).toNat = 0 := rfl
  simp only [Sequence.position, hwhole, hsame, hplace, Bool.true_and, decide_eq_true_eq, if_pos h]

theorem Replies.nth_zero {l v : Value} {others : List Value} (hl : l.items? = some (v :: others)) :
    W.Replies t 1 (.intrinsic ref (.builtin .nth)) [l, .number (.ofFloat 0.0)]
      (Meets (· = v)) := by
  have haction : Sequence.nth [l, .number (.ofFloat 0.0)] = pure v := by
    have hplace := position_zero (Nat.succ_pos others.length)
    cases l with
    | list _ first others' =>
      cases hl
      change ((Sequence.position 0.0 (others.length + 1) : Make Nat) >>= fun i =>
        pure ((v :: others).getD i .nil)) = _
      rw [hplace]
      rfl
    | _ => cases hl
  have hcall : (Intrinsic.builtin .nth).call W.evaluator [l, .number (.ofFloat 0.0)] =
      Eval.make (pure v) := (Intrinsic.call_builtin _ _ _).trans (congrArg Eval.make haction)
  exact .make hcall (fun t' _ => W.regime.refl t') fun _ _ => meets_ok.2 rfl

theorem Replies.gensym {stem : String} {r : Ref}
    (h : ∀ t', W.regime.allows t t' → P (.ok (.symbol (t'.store.gensym stem).1))) :
    W.Replies t 1 (.intrinsic ref (.builtin .gensym)) [.string r stem] P :=
  .make ((Intrinsic.call_builtin _ _ _).trans rfl) (fun t' _ => W.generates t' stem) h

end Setting

/-! ## Functions on lists -/

namespace ListLibrary

open Setting

variable {W : Setting} {t : Engine}

/-- The item of a list that `first` gives. -/
abbrev firstOf (items : List Value) : Value :=
  items.headD .nil

theorem literal?_nil : Expression.literal? "nil" = some .nil := rfl

theorem literal?_zero : Expression.literal? "0" = some (.number (.ofFloat 0.0)) := rfl

theorem isNil (h : ListLibrary W.table t) :
    ∃ f, t.Knows W.table "nil?" f ∧
      ∀ v, W.Replies t 8 f [v] (Meets (· = .boolean v.isNil)) := by
  obtain ⟨c, hknows, hc⟩ := h.defines 3 _ rfl (by decide)
  obtain ⟨ref, hidentical⟩ := h.builtin .identical (by decide)
  refine ⟨_, hknows, fun v => (Handles.fixed hc rfl rfl fun callers => ?_).inside⟩
  have hbody : W.Comes t _ callers [("x", v)] Vocabulary.isNil.body
      (Meets (· = .boolean (v.identical .nil))) :=
    .call₂ (.global rfl hidentical) (.seen rfl)
      (.constant literal?_nil) (by rintro _ _ rfl rfl; exact .identical _ _)
  rw [v.identical_nil] at hbody
  exact hbody

/-- What a call of `nil?` on a variable comes to. -/
theorem comes_isNil (h : ListLibrary W.table t) {vars : Variables}
    {callers : List EnvId} {name : String} {l : Value} {items : List Value}
    (hglobal : vars.lookup "nil?" = none) (hl : vars.lookup name = some l)
    (hitems : l.items? = some items) :
    W.Comes t 12 callers vars (Vocabulary.use "nil?" [.lookup name])
      (Meets (· = .boolean items.isEmpty)) := by
  obtain ⟨f, hknows, hreplies⟩ := h.isNil
  rw [← Value.isNil_eq_isEmpty hitems]
  have hcall : W.Comes t (2 + 2 + 8) callers vars (Vocabulary.use "nil?" [.lookup name]) _ :=
    .call₁ (.global hglobal hknows) (.seen hl)
      (by rintro v rfl; exact hreplies v)
  exact hcall

theorem first (h : ListLibrary W.table t) :
    ∃ f, t.Knows W.table "first" f ∧ ∀ {l : Value} {items : List Value}, l.items? = some items →
      W.Replies t 22 f [l] (Meets (· = firstOf items)) := by
  obtain ⟨c, hknows, hc⟩ := h.defines 9 _ rfl (by decide)
  obtain ⟨ref, hnth⟩ := h.builtin .nth (by decide)
  refine ⟨_, hknows, fun {l items} hl => (Handles.fixed hc rfl rfl fun callers => ?_).inside⟩
  -- `first` asks whether the list is empty and takes item zero if it is not
  have htest : W.Comes t 12 callers [("l", l)] (Vocabulary.use "nil?" [.lookup "l"])
      (Meets (· = .boolean items.isEmpty)) := h.comes_isNil rfl rfl hl
  have hbody : W.Comes t (12 + 6 + 2) callers [("l", l)] Vocabulary.first.body
      (Meets (· = firstOf items)) := by
    refine .conditional htest ?_ ?_
    · intro hempty
      obtain rfl := List.isEmpty_iff.1 hempty
      exact (Comes.constant literal?_nil).mono (by omega) fun _ => id
    · intro hempty
      obtain ⟨v, others, rfl⟩ := List.exists_cons_of_ne_nil fun hnil : items = [] => by
        rw [hnil] at hempty
        cases hempty
      have hcall : W.Comes t (2 + (2 + 1) + 1) callers [("l", l)]
          (Vocabulary.use "nth" [.lookup "l", .constant "0"]) (Meets (· = v)) :=
        .call₂ (.global rfl hnth) (.seen rfl)
          (.constant literal?_zero) (by rintro _ _ rfl rfl; exact .nth_zero hl)
      exact hcall
  exact hbody

/-- What a call of `first` on a variable comes to. -/
theorem comes_first (h : ListLibrary W.table t) {vars : Variables} {callers : List EnvId}
    {name : String} {l : Value} {items : List Value} (hglobal : vars.lookup "first" = none)
    (hl : vars.lookup name = some l) (hitems : l.items? = some items) :
    W.Comes t 26 callers vars (Vocabulary.use "first" [.lookup name])
      (Meets (· = firstOf items)) := by
  obtain ⟨f, hknows, hreplies⟩ := h.first
  have hcall : W.Comes t (2 + 2 + 22) callers vars (Vocabulary.use "first" [.lookup name]) _ :=
    .call₁ (.global hglobal hknows) (.seen hl) (by rintro v rfl; exact hreplies hitems)
  exact hcall

/-- What a call of `rest` on a variable comes to. -/
theorem comes_rest (h : ListLibrary W.table t) {vars : Variables} {callers : List EnvId}
    {name : String} {l : Value} {items : List Value} (hglobal : vars.lookup "rest" = none)
    (hl : vars.lookup name = some l) (hitems : l.items? = some items) :
    W.Comes t 5 callers vars (Vocabulary.use "rest" [.lookup name])
      (Meets (W.Lists t items.tail)) := by
  obtain ⟨ref, hrest⟩ := h.builtin .rest (by decide)
  have hcall : W.Comes t (2 + 2 + 1) callers vars (Vocabulary.use "rest" [.lookup name]) _ :=
    .call₁ (.global hglobal hrest) (.seen hl)
      (by rintro v rfl; exact .rest hitems fun _ => meets_ok.2)
  exact hcall

/-- The result is a list, made since, of values such as `S` allows, or an error that it allows. -/
def ListsResult (W : Setting) (t : Engine) (S : Except Error (List Value) → Prop) :
    Except Error Value → Prop
  | .ok w => ∃ vs, S (.ok vs) ∧ W.Lists t vs w
  | .error error => S (.error error)

/-- A call of a function with what is behind the first item. -/
theorem comes_onward (h : ListLibrary W.table t) {name param : String} {c : Closure}
    (hknows : t.Knows W.table name (.closure c)) {f v l : Value} {items : List Value}
    (hl : l.items? = some (v :: items)) {m : Nat} {P : Except Error Value → Prop}
    (hc : ∀ {others : Value}, others.items? = some items → W.Handles t m c [f, others] P)
    {callers : List EnvId} {vars : Variables} (hname : vars.lookup name = none)
    (hglobal : vars.lookup "rest" = none) (hparam : vars.lookup param = some f)
    (hlist : vars.lookup "l" = some l) :
    W.Comes t (m + 12) callers vars
      (Vocabulary.use name [.lookup param, Vocabulary.use "rest" [.lookup "l"]]) P := by
  have hcall : W.Comes t (2 + (2 + (5 + 0)) + (m + 2)) callers vars
      (Vocabulary.use name [.lookup param, Vocabulary.use "rest" [.lookup "l"]]) P :=
    .call₂ (.global hname hknows) (.seen hparam) (h.comes_rest hglobal hlist hl)
      (by rintro w others rfl hothers; exact (hc hothers.1).inside)
  exact hcall.mono (by omega) fun _ => id

/-- What a function comes to that gives the empty list for an empty list, when it is known what its
other branch comes to, given what the function does with the items behind the first. -/
theorem goes_through (h : ListLibrary W.table t) {param : String} {otherwise : Expression}
    {c : Closure}
    (hc : FunctionOf W.table t.envs [] ⟨[param, "l"], none⟩
      (.conditional (Vocabulary.use "nil?" [.lookup "l"]) (.constant "nil") otherwise) c)
    (hparam : param ≠ "nil?") {f : Value} (S : List Value → Except Error (List Value) → Prop)
    (hnil : S [] (.ok [])) {k : Nat} {items : List Value}
    (hcons : ∀ v ∈ items, ∀ {others : List Value} {l : Value} {m : Nat},
      l.items? = some (v :: others) →
      (∀ {rest : Value}, rest.items? = some others →
        W.Handles t m c [f, rest] (ListsResult W t (S others))) →
      ∀ callers, W.Comes t (m + k) callers [("l", l), (param, f)] otherwise
        (ListsResult W t (S (v :: others))))
    {l : Value} (hl : l.items? = some items) :
    W.Handles t (15 + items.length * (k + 14)) c [f, l] (ListsResult W t (S items)) := by
  have hglobal : ∀ l : Value, [("l", l), (param, f)].lookup "nil?" = none := fun l => by
    rw [List.lookup_cons, List.lookup_cons, beq_eq_false_iff_ne.2 hparam.symm]
    rfl
  -- on the items: the other branch is handed what the function does with the rest
  induction items generalizing l with
  | nil =>
    refine (Handles.fixed (n := 12 + 1 + 2) hc rfl rfl fun callers => ?_).mono (by simp) fun _ => id
    refine .conditional (h.comes_isNil (hglobal l) rfl hl) (fun _ => ?_)
      (fun hempty => nomatch hempty)
    refine (Comes.constant literal?_nil).mono le_rfl ?_
    rintro _ ⟨_, rfl, rfl⟩
    exact ⟨[], hnil, rfl, by rintro _ ⟨⟩⟩
  | cons v items ih =>
    rw [List.forall_mem_cons] at hcons
    refine (Handles.fixed (n := 12 + (15 + items.length * (k + 14) + k) + 2) hc rfl rfl
      fun callers => ?_).mono (by simp only [List.length_cons, Nat.succ_mul]; omega) fun _ => id
    exact .conditional (h.comes_isNil (hglobal l) rfl hl) (fun hempty => nomatch hempty)
      fun _ => hcons.1 hl (ih hcons.2) callers

/-! ### Applying a function to every item -/

/-- Something that gives for each item what `G` says, applied to the items in order, comes to these
results, or to the error of the first item that it fails for. -/
def Results (G : Value → Except Error Value → Prop) (items : List Value) :
    Except Error (List Value) → Prop
  | .ok results => List.Forall₂ (fun v r => G v (.ok r)) items results
  | .error error => ∃ before v behind, items = before ++ v :: behind ∧
      (∀ w ∈ before, ∃ r, G w (.ok r)) ∧ G v (.error error)

/-- The items with a result that passes for true. -/
def selected (items results : List Value) : List Value :=
  ((items.zip results).filter (·.2.isTruthy)).map (·.1)

/-- The outcome is the items for which there is a result that passes for true, or the error of the
first item for which there is none. -/
def Chosen (G : Value → Except Error Value → Prop) (items : List Value) :
    Except Error (List Value) → Prop
  | .ok vs => ∃ results, Results G items (.ok results) ∧ vs = selected items results
  | .error error => Results G items (.error error)

section

variable {G : Value → Except Error Value → Prop} {v r : Value} {items : List Value} {error : Error}

theorem Results.here (hv : G v (.error error)) : Results G (v :: items) (.error error) :=
  ⟨[], v, items, rfl, List.forall_mem_nil _, hv⟩

theorem Results.behind (hv : G v (.ok r)) (h : Results G items (.error error)) :
    Results G (v :: items) (.error error) := by
  obtain ⟨before, w, behind, rfl, hbefore, hw⟩ := h
  exact ⟨v :: before, w, behind, rfl, List.forall_mem_cons.2 ⟨⟨r, hv⟩, hbefore⟩, hw⟩

theorem Results.exists_fails (h : Results G items (.error error)) :
    ∃ v ∈ items, G v (.error error) := by
  obtain ⟨before, v, behind, rfl, -, hv⟩ := h
  exact ⟨v, List.mem_append_cons_self, hv⟩

theorem selected_cons (v r : Value) (items results : List Value) :
    selected (v :: items) (r :: results) =
      if r.isTruthy then v :: selected items results else selected items results := by
  rw [selected, List.zip_cons_cons, List.filter_cons]
  split <;> rfl

theorem Chosen.kept {vs : List Value} (hv : G v (.ok r)) (htruthy : r.isTruthy = true)
    (h : Chosen G items (.ok vs)) : Chosen G (v :: items) (.ok (v :: vs)) := by
  obtain ⟨results, hresults, rfl⟩ := h
  exact ⟨r :: results, .cons hv hresults, by rw [selected_cons, if_pos htruthy]⟩

theorem Chosen.passed {vs : List Value} (hv : G v (.ok r)) (hfalsy : r.isTruthy = false)
    (h : Chosen G items (.ok vs)) : Chosen G (v :: items) (.ok vs) := by
  obtain ⟨results, hresults, rfl⟩ := h
  exact ⟨r :: results, .cons hv hresults,
    by rw [selected_cons, if_neg (by rw [hfalsy]; exact Bool.false_ne_true)]⟩

/-- Where there is one result at most, it is among those. -/
theorem Results.eq_map {g : Value → Value} {results : List Value}
    (h : Results (fun v => Meets (· = g v)) items (.ok results)) : results = items.map g := by
  induction h with
  | nil => rfl
  | cons hv _ ih => rw [List.map_cons, ← ih, meets_ok.1 hv]

end

/-- What `map` does with a list, item by item. -/
theorem map_items (h : ListLibrary W.table t) {c : Closure}
    (hknows : t.Knows W.table "map" (.closure c))
    (hc : FunctionOf W.table t.envs [] Vocabulary.map.signature Vocabulary.map.body c)
    {f : Value} {G : Value → Except Error Value → Prop} {m : Nat} {items : List Value}
    (hf : ∀ v ∈ items, W.Replies t m f [v] (G v)) {l : Value} (hl : l.items? = some items) :
    W.Handles t (15 + items.length * (m + 80)) c [f, l] (ListsResult W t (Results G items)) := by
  obtain ⟨ref, hcons⟩ := h.builtin .cons (by decide)
  refine h.goes_through (k := m + 66) hc (by decide) (Results G) .nil ?_ hl
  intro v hv others l n hl hothers callers
  -- one round of the recursion, given the outcome of the next one
  have hmapped : W.Comes t (2 + 26 + m) callers [("l", l), ("f", f)]
      (Vocabulary.use "f" [Vocabulary.use "first" [.lookup "l"]]) (G v) :=
    .call₁ (.seen rfl) (h.comes_first rfl rfl hl) (by rintro w rfl; exact hf _ hv)
  have hcall : W.Comes t (2 + (2 + 26 + m + (n + 12 + 0)) + 1) callers
      [("l", l), ("f", f)]
      (Vocabulary.use "cons" [Vocabulary.use "f" [Vocabulary.use "first" [.lookup "l"]],
        Vocabulary.use "map" [.lookup "f", Vocabulary.use "rest" [.lookup "l"]]])
      (ListsResult W t (Results G (v :: others))) := by
    refine .call_pair (.global rfl hcons) hmapped
      (h.comes_onward hknows hl hothers rfl rfl rfl rfl) ?_ (fun error => Results.here)
      fun a error => Results.behind
    rintro a w ha ⟨vs, hvs, hw⟩
    exact .cons hw.1 fun u hu => ⟨a :: vs, .cons ha hvs, hu⟩
  exact hcall.mono (by omega) fun _ => id

theorem map (h : ListLibrary W.table t) :
    ∃ c : Closure, t.Knows W.table "map" (.closure c) ∧
      ∀ {f l : Value} {G : Value → Except Error Value → Prop} {m : Nat} {items : List Value},
        (∀ v ∈ items, W.Replies t m f [v] (G v)) → l.items? = some items →
        W.Handles t (15 + items.length * (m + 80)) c [f, l]
          (ListsResult W t (Results G items)) := by
  obtain ⟨c, hknows, hc⟩ := h.defines 13 _ rfl (by decide)
  exact ⟨c, hknows, fun hf hl => h.map_items hknows hc hf hl⟩

/-- What `filter` does with a list, item by item. -/
theorem filter_items (h : ListLibrary W.table t) {c : Closure}
    (hknows : t.Knows W.table "filter" (.closure c))
    (hc : FunctionOf W.table t.envs [] Vocabulary.filter.signature Vocabulary.filter.body c)
    {f : Value} {G : Value → Except Error Value → Prop} {m : Nat} {items : List Value}
    (hf : ∀ v ∈ items, W.Replies t m f [v] (G v)) {l : Value} (hl : l.items? = some items) :
    W.Handles t (15 + items.length * (m + 90)) c [f, l] (ListsResult W t (Chosen G items)) := by
  obtain ⟨ref, hcons⟩ := h.builtin .cons (by decide)
  -- one round of the recursion, given the outcome of the next one
  refine h.goes_through (k := m + 76) hc (by decide) (Chosen G) ⟨[], .nil, rfl⟩ ?_ hl
  intro v hv others l n hl hothers callers
  have hitem : W.Comes t 26 callers [("l", l), ("pred", f)]
      (Vocabulary.use "first" [.lookup "l"]) (Meets (· = v)) := h.comes_first rfl rfl hl
  have htest : W.Comes t (2 + 26 + m) callers [("l", l), ("pred", f)]
      (Vocabulary.use "pred" [Vocabulary.use "first" [.lookup "l"]]) (G v) :=
    .call₁ (.seen rfl) hitem (by rintro w rfl; exact hf _ hv)
  have honward : W.Comes t (n + 12) callers [("l", l), ("pred", f)]
      (Vocabulary.use "filter" [.lookup "pred", Vocabulary.use "rest" [.lookup "l"]])
      (ListsResult W t (Chosen G others)) :=
    h.comes_onward hknows hl hothers rfl rfl rfl rfl
  have hchoice : W.Comes t (2 + 26 + m + (2 + (26 + (n + 12 + 0)) + 1) + 2) callers
      [("l", l), ("pred", f)]
      (.conditional (Vocabulary.use "pred" [Vocabulary.use "first" [.lookup "l"]])
        (Vocabulary.use "cons" [Vocabulary.use "first" [.lookup "l"],
          Vocabulary.use "filter" [.lookup "pred", Vocabulary.use "rest" [.lookup "l"]]])
        (Vocabulary.use "filter" [.lookup "pred", Vocabulary.use "rest" [.lookup "l"]]))
      (ListsResult W t (Chosen G (v :: others))) := by
    refine .branch htest (fun r hr htruthy => ?_) (fun r hr hfalsy => ?_)
      fun error => Results.here
    · -- the item is put in front of those chosen from the others
      refine .call_pair (.global rfl hcons) hitem honward ?_
        (fun _ herror => absurd herror not_meets_error) fun a error _ => Results.behind hr
      rintro a w ha ⟨vs, hvs, hw⟩
      obtain rfl := meets_ok.1 ha
      exact .cons hw.1 fun u hu => ⟨_, .kept hr htruthy hvs, hu⟩
    -- the item is left out, so the outcome is that of the others
    · refine honward.mono (by omega) fun r' hr' => ?_
      cases r' with
      | error error => exact Results.behind hr hr'
      | ok w =>
        obtain ⟨vs, hvs, hw⟩ := hr'
        exact ⟨vs, .passed hr hfalsy hvs, hw⟩
  exact hchoice.mono (by omega) fun _ => id

end ListLibrary

namespace Library

open Setting ListLibrary

variable {W : Setting} {n : Nat} {t : Engine}

/-- The functions stay bound while code runs. -/
theorem later {t' : Engine} (h : Library W.table n t) (hallows : W.regime.allows t t') :
    Library W.table n t' where
  builtin b := by
    obtain ⟨ref, hknows⟩ := h.builtin b
    exact ⟨ref, knows hallows hknows⟩
  defines i d hd hi := by
    obtain ⟨c, hknows, hc⟩ := h.defines i d hd hi
    exact ⟨c, knows hallows hknows, hc.kept (W.regime.kept hallows)⟩

/-! ## Macros for definitions and bindings -/

/-- The function literal that the macros for definitions put together. -/
theorem comes_literal (h : Library W.table n t) {callers : List EnvId} {name parameters b : Value}
    {body : List Value} (hb : b.items? = some body) :
    W.Comes t 10 callers [("body", b), ("args", parameters), ("name", name)]
      (Vocabulary.use "list*" [.symbol "fn", .lookup "name", .lookup "args", .lookup "body"])
      (Meets fun w => ∃ fn, W.table.lookup "fn" = some fn ∧
        W.Lists t (.symbol fn :: name :: parameters :: body) w) := by
  obtain ⟨ref, hlistStar⟩ := h.builtin .listStar
  have hargs : W.ComeAll t _ callers [("body", b), ("args", parameters), ("name", name)]
      [.symbol "fn", .lookup "name", .lookup "args", .lookup "body"]
      (MeetAll [fun v => ∃ s, W.table.lookup "fn" = some s ∧ v = .symbol s, (· = name),
        (· = parameters), (· = b)]) :=
    .meets_cons (.symbol "fn") (.meets_cons (.seen rfl) (.meets_cons (.seen rfl)
      (.meets_cons (.seen rfl) .meets_nil)))
  refine .call_meets (k := 2) (n := 7) (m := 1) (.global rfl hlistStar) hargs fun vs hvs => ?_
  simp only [List.forall₂_cons_left_iff, List.forall₂_nil_left_iff] at hvs
  obtain ⟨_, _, ⟨fn, hfn, rfl⟩, ⟨name, _, rfl, ⟨parameters, _, rfl, ⟨_, _, rfl, rfl, rfl⟩, rfl⟩,
    rfl⟩, rfl⟩ := hvs
  exact .listStar [name, parameters] hb fun w hw => meets_ok.2 ⟨fn, hfn, hw⟩

/-- The macro `defn` defines a function by its literal. -/
theorem defn (h : Library W.table n t) (hn : 2 ≤ n) :
    ∃ c : Closure, t.Knows W.table "defn" (.closure c) ∧
      ∀ (name parameters : Value) (body : List Value),
        W.Handles t 16 c (name :: parameters :: body) (Meets fun w => ∃ def' fn literal,
          W.table.lookup "def" = some def' ∧ W.table.lookup "fn" = some fn ∧
          W.Lists t (.symbol fn :: name :: parameters :: body) literal ∧
          W.Lists t [.symbol def', name, literal] w) := by
  obtain ⟨c, hknows, hc⟩ := h.defines 1 _ rfl (by omega)
  obtain ⟨ref, hlist⟩ := h.builtin .list
  refine ⟨c, hknows, fun name parameters body => ?_⟩
  refine Handles.collecting [name, parameters] hc rfl rfl fun b callers hb => ?_
  -- the three items of the definition, from left to right
  have hargs : W.ComeAll t _ callers [("body", b), ("args", parameters), ("name", name)]
      [.symbol "def", .lookup "name",
        Vocabulary.use "list*" [.symbol "fn", .lookup "name", .lookup "args", .lookup "body"]]
      (MeetAll [fun v => ∃ s, W.table.lookup "def" = some s ∧ v = .symbol s, (· = name), _]) :=
    .meets_cons (.symbol "def") (.meets_cons (.seen rfl)
      (.meets_cons (h.comes_literal hb.1) .meets_nil))
  refine .call_meets (k := 2) (n := 13) (m := 1) (.global rfl hlist) hargs fun vs hvs => ?_
  simp only [List.forall₂_cons_left_iff, List.forall₂_nil_left_iff] at hvs
  obtain ⟨_, _, ⟨def', hdef, rfl⟩, ⟨name, _, rfl, ⟨literal, _, ⟨fn, hfn, hliteral⟩, rfl, rfl⟩, rfl⟩,
    rfl⟩ := hvs
  exact .list fun w hw => meets_ok.2 ⟨def', fn, literal, hdef, hfn, hliteral, hw⟩

/-- The macro `defmacro` defines a macro by its literal. -/
theorem defMacro (h : Library W.table n t) (hn : 1 ≤ n) :
    ∃ c : Closure, t.Knows W.table "defmacro" (.closure c) ∧
      ∀ (name parameters : Value) (body : List Value),
        W.Handles t 20 c (name :: parameters :: body) (Meets fun w =>
          ∃ def' fn macro' literal marked,
            W.table.lookup "def" = some def' ∧ W.table.lookup "fn" = some fn ∧
            W.table.lookup "macro!" = some macro' ∧
            W.Lists t (.symbol fn :: name :: parameters :: body) literal ∧
            W.Lists t [.symbol macro', literal] marked ∧
            W.Lists t [.symbol def', name, marked] w) := by
  obtain ⟨c, hknows, hc⟩ := h.defines 0 _ rfl (by omega)
  obtain ⟨ref, hlist⟩ := h.builtin .list
  refine ⟨c, hknows, fun name parameters body => ?_⟩
  refine Handles.collecting [name, parameters] hc rfl rfl fun b callers hb => ?_
  -- the last item marks the literal as a macro when it is evaluated
  have hmarked : W.Comes t (2 + (1 + (10 + 0)) + 1) callers
      [("body", b), ("args", parameters), ("name", name)]
      (Vocabulary.use "list" [.symbol "macro!",
        Vocabulary.use "list*" [.symbol "fn", .lookup "name", .lookup "args", .lookup "body"]])
      (Meets fun marked => ∃ fn macro' literal, W.table.lookup "fn" = some fn ∧
        W.table.lookup "macro!" = some macro' ∧
        W.Lists t (.symbol fn :: name :: parameters :: body) literal ∧
        W.Lists t [.symbol macro', literal] marked) := by
    refine .call₂ (.global rfl hlist) (.symbol "macro!") (h.comes_literal hb.1) ?_
    rintro _ literal ⟨macro', hkind, rfl⟩ ⟨fn, hfn, hliteral⟩
    exact .list fun w hw => meets_ok.2 ⟨fn, macro', literal, hfn, hkind, hliteral, hw⟩
  have hargs : W.ComeAll t _ callers [("body", b), ("args", parameters), ("name", name)]
      [.symbol "def", .lookup "name", _]
      (MeetAll [fun v => ∃ s, W.table.lookup "def" = some s ∧ v = .symbol s, (· = name), _]) :=
    .meets_cons (.symbol "def") (.meets_cons (.seen rfl) (.meets_cons hmarked .meets_nil))
  refine .call_meets (k := 2) (n := 17) (m := 1) (.global rfl hlist) hargs fun vs hvs => ?_
  simp only [List.forall₂_cons_left_iff, List.forall₂_nil_left_iff] at hvs
  obtain ⟨_, _, ⟨def', hdef, rfl⟩, ⟨name, _, rfl,
    ⟨marked, _, ⟨fn, macro', literal, hfn, hkind, hliteral, hmarked⟩, rfl, rfl⟩, rfl⟩, rfl⟩ := hvs
  exact .list fun w hw =>
    meets_ok.2 ⟨def', fn, macro', literal, marked, hdef, hfn, hkind, hliteral, hmarked, hw⟩

theorem second (h : Library W.table n t) (hn : 15 ≤ n) :
    ∃ f, t.Knows W.table "second" f ∧ ∀ {l : Value} {items : List Value}, l.items? = some items →
      W.Replies t 31 f [l] (Meets (· = firstOf items.tail)) := by
  obtain ⟨c, hknows, hc⟩ := h.defines 10 _ rfl (by omega)
  obtain ⟨f, hfirst, hreplies⟩ := (h.lists hn).first
  refine ⟨_, hknows, fun {l items} hl => (Handles.fixed hc rfl rfl fun callers => ?_).inside⟩
  have hbody : W.Comes t (2 + 5 + 22) callers [("l", l)] Vocabulary.second.body
      (Meets (· = firstOf items.tail)) :=
    .call₁ (.global rfl hfirst) ((h.lists hn).comes_rest rfl rfl hl) fun v hv => hreplies hv.1
  exact hbody

/-- Mapping a function that always gives a value. -/
theorem comes_map (h : Library W.table n t) (hn : 15 ≤ n) {vars : Variables}
    {callers : List EnvId} {name list : String} {f l : Value} {items : List Value}
    {g : Value → Value} {m : Nat} (hglobal : vars.lookup "map" = none)
    (hname : vars.lookup name = none) (hknows : t.Knows W.table name f)
    (hf : ∀ v ∈ items, W.Replies t m f [v] (Meets (· = g v)))
    (hl : vars.lookup list = some l) (hitems : l.items? = some items) :
    W.Comes t (2 + (2 + (2 + 0)) + (15 + items.length * (m + 80) + 2)) callers vars
      (Vocabulary.use "map" [.lookup name, .lookup list])
      (Meets (W.Lists t (items.map g))) := by
  obtain ⟨map, hmap, hmaps⟩ := (h.lists hn).map
  refine .call₂ (.global hglobal hmap) (.global hname hknows) (.seen hl) ?_
  rintro f l rfl rfl
  refine (hmaps hf hitems).inside.mono le_rfl fun r hr => ?_
  -- no item fails, and the results are known
  cases r with
  | error error =>
    obtain ⟨v, -, hfails⟩ := hr.exists_fails
    exact absurd hfails not_meets_error
  | ok w =>
    obtain ⟨results, hresults, hw⟩ := hr
    exact meets_ok.2 (hresults.eq_map ▸ hw)

/-- What is bound by a binding. -/
abbrev targetOf (binding : Value) : Value :=
  firstOf (binding.items?.getD [])

/-- What a binding binds it to. -/
abbrev sourceOf (binding : Value) : Value :=
  firstOf (binding.items?.getD []).tail

section

variable (h : Library W.table n t) (hn : 15 ≤ n) {callers : List EnvId} {l b : Value}
  {bindings body : List Value} (hl : l.items? = some bindings)
  (hbindings : ∀ b ∈ bindings, ∃ items, b.items? = some items)
include h hn hl hbindings

/-- The targets of the bindings. -/
theorem comes_targets : W.Comes t (23 + bindings.length * 102) callers
    [("body", b), ("bindings", l)] (Vocabulary.use "map" [.lookup "first", .lookup "bindings"])
    (Meets (W.Lists t (bindings.map targetOf))) := by
  obtain ⟨first, hknows, hfirst⟩ := (h.lists hn).first
  have htargets : ∀ b ∈ bindings, W.Replies t 22 first [b] (Meets (· = targetOf b)) := by
    intro b hb
    obtain ⟨items, hitems⟩ := hbindings b hb
    rw [targetOf, hitems]
    exact hfirst hitems
  exact (h.comes_map hn rfl rfl hknows htargets rfl hl).mono (by omega) fun _ => id

/-- The values that they are bound to. -/
theorem comes_sources : W.Comes t (23 + bindings.length * 111) callers
    [("body", b), ("bindings", l)] (Vocabulary.use "map" [.lookup "second", .lookup "bindings"])
    (Meets (W.Lists t (bindings.map sourceOf))) := by
  obtain ⟨second, hknows, hsecond⟩ := h.second hn
  have hsources : ∀ b ∈ bindings, W.Replies t 31 second [b] (Meets (· = sourceOf b)) := by
    intro b hb
    obtain ⟨items, hitems⟩ := hbindings b hb
    rw [sourceOf, hitems]
    exact hsecond hitems
  exact (h.comes_map hn rfl rfl hknows hsources rfl hl).mono (by omega) fun _ => id

/-- The function literal that has the targets for parameters. -/
theorem comes_letLiteral (hb : W.Lists t body b) : W.Comes t (29 + bindings.length * 102) callers
    [("body", b), ("bindings", l)]
    (Vocabulary.use "list*" [.symbol "fn",
      Vocabulary.use "map" [.lookup "first", .lookup "bindings"], .lookup "body"])
    (Meets fun literal => ∃ fn targets, W.table.lookup "fn" = some fn ∧
      W.Lists t (bindings.map targetOf) targets ∧
      W.Lists t (.symbol fn :: targets :: body) literal) := by
  obtain ⟨ref, hlistStar⟩ := h.builtin .listStar
  have hargs : W.ComeAll t _ callers [("body", b), ("bindings", l)]
      [.symbol "fn", Vocabulary.use "map" [.lookup "first", .lookup "bindings"], .lookup "body"]
      (MeetAll [fun v => ∃ s, W.table.lookup "fn" = some s ∧ v = .symbol s,
        W.Lists t (bindings.map targetOf), (· = b)]) :=
    .meets_cons (.symbol "fn") (.meets_cons (h.comes_targets hn hl hbindings)
      (.meets_cons (.seen rfl) .meets_nil))
  refine (Comes.call_meets (m := 1) (.global rfl hlistStar) hargs fun vs hvs => ?_).mono (by omega)
    fun _ => id
  simp only [List.forall₂_cons_left_iff, List.forall₂_nil_left_iff] at hvs
  obtain ⟨_, _, ⟨fn, hfn, rfl⟩, ⟨targets, _, hlists, ⟨_, _, rfl, rfl, rfl⟩, rfl⟩, rfl⟩ := hvs
  exact .listStar [targets] hb.1 fun w hw => meets_ok.2 ⟨fn, targets, hfn, hlists, hw⟩

end

/-- The macro `let` calls a function literal with the values of the bindings. -/
theorem letMacro (h : Library W.table n t) (hn : 18 ≤ n) :
    ∃ c : Closure, t.Knows W.table "let" (.closure c) ∧
      ∀ {l : Value} {bindings : List Value} (body : List Value), l.items? = some bindings →
        (∀ b ∈ bindings, ∃ items, b.items? = some items) →
        W.Handles t (60 + bindings.length * 213) c (l :: body) (Meets fun w =>
          ∃ fn targets literal, W.table.lookup "fn" = some fn ∧
            W.Lists t (bindings.map targetOf) targets ∧
            W.Lists t (.symbol fn :: targets :: body) literal ∧
            W.Lists t (literal :: bindings.map sourceOf) w) := by
  obtain ⟨c, hknows, hc⟩ := h.defines 17 _ rfl (by omega)
  obtain ⟨ref, hcons⟩ := h.builtin .cons
  refine ⟨c, hknows, fun {l bindings} body hl hbindings => ?_⟩
  -- targets and sources are collected one after the other, each by a walk over the bindings
  have hbody : ∀ b callers, W.Lists t body b →
      W.Comes t _ callers [("body", b), ("bindings", l)] Vocabulary.letMacro.body (Meets fun w =>
        ∃ fn targets literal, W.table.lookup "fn" = some fn ∧
          W.Lists t (bindings.map targetOf) targets ∧
          W.Lists t (.symbol fn :: targets :: body) literal ∧
          W.Lists t (literal :: bindings.map sourceOf) w) := fun b callers hb =>
    .call₂ (.global rfl hcons) (h.comes_letLiteral (by omega) hl hbindings hb)
      (h.comes_sources (by omega) hl hbindings) (by
        rintro literal sources ⟨fn, targets, hfn, htargets, hliteral⟩ hsources
        exact .cons hsources.1 fun w hw =>
          meets_ok.2 ⟨fn, targets, literal, hfn, htargets, hliteral, hw⟩)
  exact (Handles.collecting [l] hc rfl rfl hbody).mono (by omega) fun _ => id

/-! ## Macros that stop early -/

/-- What `or` and `and` make of a form and the others behind it: its value is bound to a new symbol,
and decides whether the others are evaluated. -/
def ShortCircuits (W : Setting) (t : Engine) (name : String) (keeps : Bool) (form : Value)
    (others : List Value) (w : Value) : Prop :=
  ∃ let' if' op g pair pairs rest conditional,
    W.table.lookup "let" = some let' ∧ W.table.lookup "if" = some if' ∧
    W.table.lookup name = some op ∧
    (∃ t₁, W.regime.allows t t₁ ∧ g = (t₁.store.gensym name).1) ∧
    W.Lists t [.symbol g, form] pair ∧ W.Lists t [pair] pairs ∧
    W.Lists t (.symbol op :: others) rest ∧
    W.Lists t (.symbol if' :: .symbol g :: Vocabulary.branches keeps (.symbol g) rest) conditional ∧
    W.Lists t [.symbol let', pairs, conditional] w

section

variable (h : Library W.table n t) (hn : 15 ≤ n) {callers : List EnvId} {name : String}
  {keeps : Bool} {l form : Value} {others : List Value} {g : Symbol}
  (hl : l.items? = some (form :: others))
include h hn hl

/-- The binding of the new symbol. -/
theorem comes_bindings : W.Comes t 34 callers [("g", .symbol g), ("forms", l)]
    (Vocabulary.use "list" [Vocabulary.use "list" [.lookup "g",
      Vocabulary.use "first" [.lookup "forms"]]])
    (Meets fun pairs => ∃ pair, W.Lists t [.symbol g, form] pair ∧ W.Lists t [pair] pairs) := by
  obtain ⟨ref, hlist⟩ := h.builtin .list
  have hpair : W.Comes t (2 + (2 + (26 + 0)) + 1) callers [("g", .symbol g), ("forms", l)]
      (Vocabulary.use "list" [.lookup "g", Vocabulary.use "first" [.lookup "forms"]])
      (Meets (W.Lists t [.symbol g, form])) :=
    .call₂ (.global rfl hlist) (.seen rfl) ((h.lists hn).comes_first rfl rfl hl)
      (by rintro _ form rfl rfl; exact .list fun _ => meets_ok.2)
  exact .call₁ (k := 2) (n := 31) (m := 1) (.global rfl hlist) hpair fun pair hpair =>
    .list fun _ hpairs => meets_ok.2 ⟨pair, hpair, hpairs⟩

variable (name) in
/-- The call of the macro with the other forms. -/
theorem comes_others : W.Comes t 9 callers [("g", .symbol g), ("forms", l)]
    (Vocabulary.use "cons" [.symbol name, Vocabulary.use "rest" [.lookup "forms"]])
    (Meets fun rest => ∃ op, W.table.lookup name = some op ∧
      W.Lists t (.symbol op :: others) rest) := by
  obtain ⟨ref, hcons⟩ := h.builtin .cons
  refine .call₂ (k := 2) (n := 1) (m := 1) (l := 5) (.global rfl hcons) (.symbol name)
    ((h.lists hn).comes_rest rfl rfl hl) ?_
  rintro _ l ⟨op, hop, rfl⟩ hl
  exact .cons hl.1 fun _ hw => meets_ok.2 ⟨op, hop, hw⟩

variable (name keeps) in
/-- The conditional that decides by the new symbol. -/
theorem comes_choice : W.Comes t 17 callers [("g", .symbol g), ("forms", l)]
    (Vocabulary.use "list" (.symbol "if" :: .lookup "g" ::
      Vocabulary.branches keeps (.lookup "g") (Vocabulary.use "cons" [.symbol name,
        Vocabulary.use "rest" [.lookup "forms"]])))
    (Meets fun v => ∃ if' op rest, W.table.lookup "if" = some if' ∧
      W.table.lookup name = some op ∧ W.Lists t (.symbol op :: others) rest ∧
      W.Lists t (.symbol if' :: .symbol g :: Vocabulary.branches keeps (.symbol g) rest) v) := by
  obtain ⟨ref, hlist⟩ := h.builtin .list
  -- the two branches are evaluated in the order that the macro gives them
  have hbranches : W.ComeAll t 14 callers [("g", .symbol g), ("forms", l)]
      (.symbol "if" :: .lookup "g" ::
        Vocabulary.branches keeps (.lookup "g") (Vocabulary.use "cons" [.symbol name,
          Vocabulary.use "rest" [.lookup "forms"]]))
      (MeetAll ((fun v => ∃ s, W.table.lookup "if" = some s ∧ v = .symbol s) :: (· = .symbol g) ::
        Vocabulary.branches keeps (· = .symbol g) fun rest => ∃ op,
          W.table.lookup name = some op ∧ W.Lists t (.symbol op :: others) rest)) := by
    cases keeps with
    | true =>
      exact .meets_cons (n := 1) (m := 13) (.symbol "if")
        (.meets_cons (n := 2) (m := 11) (.seen rfl)
          (.meets_cons (n := 2) (m := 9) (.seen rfl)
            (.meets_cons (n := 9) (m := 0) (h.comes_others hn name hl) .meets_nil)))
    | false =>
      exact .meets_cons (n := 1) (m := 13) (.symbol "if")
        (.meets_cons (n := 2) (m := 11) (.seen rfl)
          (.meets_cons (n := 9) (m := 2) (h.comes_others hn name hl)
            (.meets_cons (n := 2) (m := 0) (.seen rfl) .meets_nil)))
  refine .call_meets (k := 2) (n := 14) (m := 1) (.global rfl hlist) hbranches fun vs hvs => ?_
  obtain ⟨if', op, rest, hif, hop, hrest, rfl⟩ : ∃ if' op rest,
      W.table.lookup "if" = some if' ∧ W.table.lookup name = some op ∧
      W.Lists t (.symbol op :: others) rest ∧
      vs = .symbol if' :: .symbol g :: Vocabulary.branches keeps (.symbol g) rest := by
    cases keeps with
    | true =>
      obtain ⟨⟩ | ⟨⟨if', hif, rfl⟩, ⟨⟩ | ⟨rfl, ⟨⟩ | ⟨rfl, ⟨⟩ | ⟨⟨op, hop, hw⟩, ⟨⟩⟩⟩⟩⟩ := hvs
      exact ⟨if', op, _, hif, hop, hw, rfl⟩
    | false =>
      obtain ⟨⟩ | ⟨⟨if', hif, rfl⟩, ⟨⟩ | ⟨rfl, ⟨⟩ | ⟨⟨op, hop, hw⟩, ⟨⟩ | ⟨rfl, ⟨⟩⟩⟩⟩⟩ := hvs
      exact ⟨if', op, _, hif, hop, hw, rfl⟩
  exact .list fun w hw => meets_ok.2 ⟨if', op, rest, hif, hop, hrest, hw⟩

/-- The form that is put together where the new symbol is seen. -/
theorem comes_shortCircuit (hg : ∃ t₁, W.regime.allows t t₁ ∧ g = (t₁.store.gensym name).1) :
    W.Comes t 55 callers [("g", .symbol g), ("forms", l)]
      (Vocabulary.use "list" [.symbol "let",
        Vocabulary.use "list" [Vocabulary.use "list" [.lookup "g",
          Vocabulary.use "first" [.lookup "forms"]]],
        Vocabulary.use "list" (.symbol "if" :: .lookup "g" ::
          Vocabulary.branches keeps (.lookup "g") (Vocabulary.use "cons" [.symbol name,
            Vocabulary.use "rest" [.lookup "forms"]]))])
      (Meets (ShortCircuits W t name keeps form others)) := by
  obtain ⟨ref, hlist⟩ := h.builtin .list
  have hargs : W.ComeAll t _ callers [("g", .symbol g), ("forms", l)] [.symbol "let", _, _]
      (MeetAll [fun v => ∃ s, W.table.lookup "let" = some s ∧ v = .symbol s, _, _]) :=
    .meets_cons (.symbol "let") (.meets_cons (h.comes_bindings hn hl)
      (.meets_cons (h.comes_choice hn name keeps hl) .meets_nil))
  refine .call_meets (k := 2) (n := 52) (m := 1) (.global rfl hlist) hargs fun vs hvs => ?_
  simp only [List.forall₂_cons_left_iff, List.forall₂_nil_left_iff] at hvs
  obtain ⟨_, _, ⟨let', hlet, rfl⟩, ⟨pairs, _, ⟨pair, hpair, hpairs⟩, ⟨conditional, _,
    ⟨if', op, rest, hif, hop, hrest, hconditional⟩, rfl, rfl⟩, rfl⟩, rfl⟩ := hvs
  exact .list fun w hw => meets_ok.2 ⟨let', if', op, g, pair, pairs, rest, conditional, hlet, hif,
    hop, hg, hpair, hpairs, hrest, hconditional, hw⟩

end

/-- A call of `or` or `and` with two forms or more. -/
theorem shortCircuit (hW : W.Binds) (h : Library W.table n t) (hn : 15 ≤ n)
    {name empty : String} {keeps : Bool}
    {i : Nat} (hd : Vocabulary.all[i]? = some (Vocabulary.shortCircuit name empty keeps))
    (hi : i < n) :
    ∃ c : Closure, t.Knows W.table name (.closure c) ∧
      ∀ (form other : Value) (others : List Value),
        W.Serves t 94 c (form :: other :: others)
          (Meets (ShortCircuits W t name keeps form (other :: others))) := by
  obtain ⟨c, hknows, hc⟩ := h.defines i _ hd hi
  obtain ⟨isNil, hisNil, hreplies⟩ := (h.lists hn).isNil
  obtain ⟨ref, hgensym⟩ := h.builtin .gensym
  refine ⟨c, hknows, fun form other others => ?_⟩
  refine ⟨_, _, .collecting [] _ hc rfl rfl, ?_⟩
  rintro _ ⟨l, hl, rfl⟩
  -- there is a second form, so the rest of the list is not empty
  have htail : W.Comes t (2 + 5 + 8) [] [("forms", l)]
      (Vocabulary.use "nil?" [Vocabulary.use "rest" [.lookup "forms"]])
      (Meets (· = .boolean false)) :=
    .call₁ (.global rfl hisNil) ((h.lists hn).comes_rest rfl rfl hl.1)
      (fun w hw => by
        have hnot := Value.isNil_eq_isEmpty hw.1
        simp only [List.tail_cons, List.isEmpty_cons] at hnot
        exact hnot ▸ hreplies w)
  -- the symbol is made when the macro runs, so it is new to all forms that were read
  have hsymbol : W.Comes t (2 + 1 + 1) [] [("forms", l)] (Vocabulary.use "gensym" [.string name])
      (Meets fun v => ∃ g, (∃ t₁, W.regime.allows t t₁ ∧ g = (t₁.store.gensym name).1) ∧
        v = .symbol g) :=
    .call₁ (.global rfl hgensym) (.string name) (by
      rintro _ ⟨r, rfl⟩
      exact .gensym fun t' hallows => meets_ok.2 ⟨_, ⟨t', hallows, rfl⟩, rfl⟩)
  have hbound : W.Comes t _ [] [("forms", l)] (.binding "g" _ _)
      (Meets (ShortCircuits W t name keeps form (other :: others))) :=
    .binding hW hsymbol (by
      rintro _ callers ⟨g, hg, rfl⟩
      exact h.comes_shortCircuit hn hl.1 hg)
  refine .conditional (n := 12) (m := 80) ((h.lists hn).comes_isNil rfl rfl hl.1)
    (fun hempty => nomatch hempty) fun _ => ?_
  exact .conditional (n := 15) (m := 63) htail (fun hempty => nomatch hempty) fun _ => hbound

end Library

end StackLisp
