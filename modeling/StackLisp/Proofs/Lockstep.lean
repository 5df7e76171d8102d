import StackLisp.Proofs.Coherence
import StackLisp.Proofs.Loading

/-!
# Machines in lockstep

Two machines on stacks of their own that spell out the same frames do the same, step by step. What
else is on their stacks, above the frames and below them, does not matter, nor does how far the
stacks have grown: there is room on both for a call, or on neither.

- `Alike`: two computations ended alike;
- `Abreast`: two machines are at the same point;
- `Machine.step_abreast`, `Machine.run_abreast`: they stay so, step by step and up to the end;
- `Machine.agree_lockstep`: calls from outside do the same on either engine.
-/

namespace StackLisp

open Eval

/-- Two computations ended with the same result and, unless they ran out of fuel, on engines that
differ by their stacks only. -/
structure Alike {α : Type} (o o' : Except Stop α × Engine) : Prop where
  result : o.1 = o'.1
  core : ¬ Spent o'.1 → o.2.core = o'.2.core

/-- The stacks of two engines spell out the same frames. -/
def SameFrames (home home' floor : Nat) (s t : Engine) : Prop :=
  ∃ frames, s.Holds home floor frames ∧ t.Holds home' floor frames

/-- Followers must do what the leader does. Their stacks are used as far and have the same
limits. -/
def Leeway.lockstep : Leeway where
  exact := False
  excused _ _ _ _ := False
  patience := 0
  near r r' := r.limits = r'.limits ∧ r.sp = r'.sp ∧ r.Lawful ∧ r'.Lawful

variable {α β : Type} {home home' floor : Nat} {s t : Engine}

/-- Under the same limits there is the same core. -/
theorem Leeway.Like.core (h : Leeway.lockstep.Like s t) : s.core = t.core :=
  Engine.core_of_gist h.gist h.near.1

theorem SameFrames.sp_eq (h : SameFrames home home' floor s t) : s.sp = t.sp := by
  obtain ⟨frames, hs, ht⟩ := h
  exact Spelled.sp_unique hs ht

/-- What is done alike outside two stacks ends alike on them. -/
theorem Performs.alike {x x' : Eval β} {y y' : Eval α} {next : α → β} {frames : α → List Frame}
    (hx : Performs home floor s x y next frames) (hx' : Performs home' floor t x' y' next frames)
    (h : Alike (y s) (y' t)) :
    Alike (x s) (x' t) ∧ ∀ b, (x' t).1 = .ok b → SameFrames home home' floor (x s).2 (x' t).2 := by
  -- `x` and `x'` end as `y` and `y'` do, each on its own stack
  obtain ⟨hresult, hcore⟩ := h
  cases hy' : y' t with
  | mk r t₁ =>
    cases hy : y s with
    | mk r' s₁ =>
      rw [hy, hy'] at hresult hcore
      obtain rfl : r' = r := hresult
      cases r' with
      | ok a =>
        obtain ⟨s', hs, hrs, hfs⟩ := hx.ok hy
        obtain ⟨t', ht, hrt, hft⟩ := hx'.ok hy'
        rw [hs, ht]
        exact ⟨⟨rfl, fun _ => hrs.core.trans ((hcore nofun).trans hrt.core.symm)⟩,
          fun _ _ => ⟨_, hfs, hft⟩⟩
      | error stop =>
        obtain ⟨s', hs, hrs⟩ := hx.error hy
        obtain ⟨t', ht, hrt⟩ := hx'.error hy'
        rw [hs, ht]
        refine ⟨⟨rfl, fun hspent => ?_⟩, fun _ hok => nomatch hok⟩
        have hnot : ¬ Spent (Except.error stop : Except Stop α) := fun h => hspent (by cases h; rfl)
        exact hrs.core.trans ((hcore hnot).trans hrt.core.symm)

namespace Machine

section Enter

variable {c : Closure} {args : List Value}

theorem overflow_congr (hcore : s.core = t.core) (needed : Nat) :
    overflow needed s = overflow needed t :=
  Engine.congr_core (overflow needed) (fun _ _ _ _ => rfl) hcore

theorem fits_congr (hs : s.room.Lawful) (ht : t.room.Lawful) (hcore : s.core = t.core)
    (needed : Nat) : s.Fits needed ↔ t.Fits needed := by
  have hlimits : s.limits = t.limits := Engine.limits_of_core hcore
  rw [Engine.fits_iff hs, Engine.fits_iff ht, hlimits]

/-- Two calls of a closure start alike: there is room for both or for neither. -/
theorem enter_alike {x x' : Eval β} {next : EnvId → β} {frames : EnvId → List Frame}
    (hs : s.room.Lawful) (ht : t.room.Lawful) (hcore : s.core = t.core) (hsp : s.sp = t.sp)
    (hx : (¬ Admits c args s ∧ ∃ s', x s = (.error (overflow (demand c s.sp) s), s') ∧
        s.Restacks floor s') ∨
      Admits c args s ∧ Performs home floor s x (Reference.enter c args) next frames)
    (hx' : (¬ Admits c args t ∧ ∃ t', x' t = (.error (overflow (demand c t.sp) t), t') ∧
        t.Restacks floor t') ∨
      Admits c args t ∧ Performs home' floor t x' (Reference.enter c args) next frames) :
    Alike (x s) (x' t) ∧ ∀ b, (x' t).1 = .ok b → SameFrames home home' floor (x s).2 (x' t).2 := by
  -- a stack may grow up to the limit, so room does not depend on how far it has grown
  have hadmits : Admits c args s ↔ Admits c args t := by
    rw [Admits, Admits, hsp, fits_congr hs ht hcore]
  rcases hx with ⟨hno, s', hs', hrs⟩ | ⟨hyes, hx⟩
  · rcases hx' with ⟨-, t', ht', hrt⟩ | ⟨hyes, -⟩
    · rw [hs', ht', hsp, overflow_congr hcore]
      exact ⟨⟨rfl, fun _ => hrs.core.trans (hcore.trans hrt.core.symm)⟩, fun _ hok => by cases hok⟩
    · exact absurd (hadmits.2 hyes) hno
  · rcases hx' with ⟨hno, -⟩ | ⟨-, hx'⟩
    · exact absurd (hadmits.1 hyes) hno
    · obtain ⟨hresult, hcore'⟩ := (Reference.blind_enter c args).core_run hcore
      exact hx.alike hx' ⟨hresult, fun _ => hcore'⟩

/-- Calls from outside start alike. -/
theorem start_alike (h : Leeway.lockstep.Like s t) {body : List Term} (hc : c.Implements body) :
    Alike (start c args s) (start c args t) ∧ ∀ a, (start c args t).1 = .ok a →
      SameFrames s.frame t.frame t.sp (start c args s).2 (start c args t).2 := by
  have hcore := h.core
  obtain ⟨-, -, -, -, hsp, hrs, hrt⟩ := h
  obtain hsp : s.sp = t.sp := hsp
  have hfits := fits_congr hrs hrt hcore (t.sp + args.length + 1)
  have hpush := pushCall_run c args s
  rw [hsp] at hpush
  -- both stacks are full, or none of them is
  rcases hpush with ⟨hno, hfull⟩ | ⟨hyes, s₀, hpush, hrs₀, hprepared⟩
  · rcases pushCall_run c args t with ⟨-, hfull'⟩ | ⟨hyes, -⟩
    · rw [start, bind_of_error hfull, bind_of_error hfull', overflow_congr hcore]
      exact ⟨⟨rfl, fun _ => hcore⟩, fun _ hok => by cases hok⟩
    · exact absurd (hfits.2 hyes) hno
  · rcases pushCall_run c args t with ⟨hno, -⟩ | ⟨-, t₀, hpush', hrt₀, hprepared'⟩
    · exact absurd (hfits.1 hyes) hno
    · rw [start, bind_of_ok hpush, bind_of_ok hpush']
      exact enter_alike (hrs₀.retains.lawful hrs hprepared.sp_le)
        (hrt₀.retains.lawful hrt hprepared'.sp_le) (hrs₀.core.trans (hcore.trans hrt₀.core.symm))
        (hprepared.sp.trans hprepared'.sp.symm)
        ((performs_enter hc hprepared).imp_left fun h => ⟨h.1, s₀, h.2, .refl _ _⟩)
        ((performs_enter hc hprepared').imp_left fun h => ⟨h.1, t₀, h.2, .refl _ _⟩)

end Enter

end Machine

/-! ## Steps -/

variable [Unbound]

/-- Two machines are at the same point. -/
structure Abreast (home home' floor : Nat) (s t : Engine) (a : Activation) : Prop where
  follower : Coherent home floor s a
  leader : Coherent home' floor t a
  core : s.core = t.core
  frames : SameFrames home home' floor s t
  follower_room : s.room.Lawful
  leader_room : t.room.Lawful

theorem Abreast.like {a : Activation} (h : Abreast home home' floor s t a) :
    Leeway.lockstep.Like s t := by
  obtain ⟨hhome, -, f, rest, -, hf, -⟩ := h.follower
  exact ⟨Engine.gist_of_core h.core, hf.frame_le hhome, False.elim, Engine.limits_of_core h.core,
    h.frames.sp_eq, h.follower_room, h.leader_room⟩

namespace Machine

variable {κ : Leeway} {x y : Evaluator} {a : Activation}

/-- A step of machines that are abreast, with evaluators that agree. -/
theorem step_abreast (hev : Evaluator.Agree κ (fun _ => x) y)
    (hexcused : ∀ slots maxSlots sp stop, ¬ κ.excused slots maxSlots sp stop)
    (h : Abreast home home' floor s t a) (hlike : κ.Like s t) :
    Alike (step x home a s) (step y home' a t) ∧
      ∀ a', (step y home' a t).1 = .ok (.running a') →
        SameFrames home home' floor (step x home a s).2 (step y home' a t).2 := by
  obtain ⟨⟨hhome, -, -⟩, ⟨hhome', hsound, f, rest, hclosure, hft, hgo⟩, hcore, hframes, hrs,
    hrt⟩ := h
  have hsp := hframes.sp_eq
  -- a stack spells out one list of frames only, so the follower's frames are the leader's
  have hfs : s.Holds home floor (f :: rest) := by
    obtain ⟨frames, hs, ht⟩ := hframes
    exact Spelled.unique hhome' ht hft ▸ hs
  obtain ⟨c, p⟩ := a
  obtain rfl : c = f.closure := hclosure
  cases Course.of_canGoOn hgo with
  | act hagrees hperforms _ =>
    -- outside their stacks both do the same, and they put back the same operands
    have hdoes := hagrees hev
    have hframe := hft.frame_le hhome'
    have htogether := hdoes.together hexcused hsound hframe hlike
    have hs : Performs home floor s (step x home _) _ _ _ := hperforms hhome hfs fun hok => by
      rcases htogether with hfollows | ⟨hspent, -⟩
      · have hkeeps := hfollows.keeps
        rwa [hok] at hkeeps
      · rw [hok] at hspent
        cases hspent
    have ht : Performs home' floor t (step y home' _) _ _ _ :=
      hperforms hhome' hft fun hok => (hdoes.safe.of_ok hsound hframe hok).1
    obtain ⟨halike, hsame⟩ := hs.alike ht <| by
      rcases htogether with hfollows | ⟨hx, hy⟩
      · obtain ⟨hkeeps, -, -⟩ := hdoes.safe hsound hframe
        have hlimits := hfollows.keeps.limits.trans
          ((Engine.limits_of_core hcore).trans hkeeps.limits.symm)
        exact ⟨hfollows.result, fun _ => Engine.core_of_gist hfollows.like.gist hlimits⟩
      · exact ⟨hx.trans hy.symm, fun hnot => absurd hy hnot⟩
    exact ⟨halike, fun _ => hsame _⟩
  | call hd hoperands hn hc _ _ =>
    obtain ⟨⟨himplements, -⟩, -⟩ := hc.callable
    obtain ⟨halike, hsame⟩ := enter_alike hrs hrt hcore hsp
      (performs_call himplements hfs hd hoperands hn)
      (performs_call himplements hft hd hoperands hn)
    exact ⟨halike, fun _ => hsame _⟩
  | reject hrun _ =>
    rw [hrun hfs, hrun hft]
    exact ⟨⟨rfl, fun _ => hcore⟩, fun _ hok => nomatch hok⟩
  | ret hd hoperands _ =>
    cases rest with
    | nil =>
      rw [finish_run hfs hd hoperands, finish_run hft hd hoperands]
      exact ⟨⟨rfl, fun _ => hcore⟩, fun _ hok => nomatch hok⟩
    | cons g rest =>
      -- the caller resumes at the position that is spelled out on either stack
      have hresume := hgo.suspended g (List.mem_cons_self ..)
      have hs : Performs home floor s (step x home _) _ _ _ :=
        performs_return hhome hfs hd hoperands hresume.pos hresume.lt_size
      have ht : Performs home' floor t (step y home' _) _ _ _ :=
        performs_return hhome' hft hd hoperands hresume.pos hresume.lt_size
      obtain ⟨halike, hsame⟩ := hs.alike ht ⟨rfl, fun _ => hcore⟩
      exact ⟨halike, fun _ => hsame _⟩

/-! ## Runs -/

/-- Runs of machines that are abreast end alike. -/
theorem run_abreast (hev : Evaluator.Agree .lockstep (fun _ => y) y) (fuel : Nat)
    (h : Abreast home home' floor s t a) :
    Alike (run y home fuel a s) (run y home' fuel a t) := by
  induction fuel generalizing s t a with
  | zero => exact ⟨rfl, fun hspent => absurd rfl hspent⟩
  | succ fuel ih =>
    -- each machine stays coherent by itself, and the two stay alike together
    have hs := step_coherent hev.safe h.follower
    have ht := step_coherent hev.safe h.leader
    obtain ⟨⟨hresult, hcore⟩, hsame⟩ := step_abreast hev (fun _ _ _ _ => id) h h.like
    unfold run
    cases hstep : step y home a s with
    | mk r s' =>
      cases hstep' : step y home' a t with
      | mk r' t' =>
        rw [hstep, hstep'] at hresult hcore hsame
        rw [hstep] at hs
        rw [hstep'] at ht
        obtain rfl : r = r' := hresult
        rcases r with stop | ⟨a' | v⟩
        · exact ⟨rfl, fun hspent => hcore fun h => hspent (by cases h; rfl)⟩
        · obtain ⟨hrs, hs⟩ := hs
          obtain ⟨hrt, ht⟩ := ht
          exact ih ⟨hs, ht, hcore (by rintro ⟨⟩), hsame a' rfl,
            hrs.lawful h.follower_room hs.sp_le, hrt.lawful h.leader_room ht.sp_le⟩
        · exact ⟨rfl, fun _ => hcore (by rintro ⟨⟩)⟩

/-! ## Calls from outside -/

variable {c : Closure} {args : List Value}

/-- Calls from outside end alike. -/
theorem callWith_alike (hev : Evaluator.Agree .lockstep (fun _ => y) y) (fuel : Nat)
    (h : Leeway.lockstep.Like s t) (hs : t.Sound) (hframe : t.frame ≤ t.sp)
    (hc : c.Callable t.envs.size) (hargs : ∀ v ∈ args, v.Proper t.envs.size) :
    Alike (callWith y fuel c args s) (callWith y fuel c args t) := by
  have hcore := h.core
  obtain ⟨-, hframe', -, -, hsp, hrs, hrt⟩ := id h
  have henvs : s.envs = t.envs := Engine.congr_core Engine.envs (fun _ _ _ _ => rfl) hcore
  obtain ⟨himplements, -⟩ := hc.coded
  obtain ⟨⟨hresult, hcore'⟩, hsame⟩ := @start_alike s t c args h _ himplements
  have hfollower := start_coherent (hs.of_core hcore) hframe' (henvs ▸ hc) (henvs ▸ hargs)
  have hleader := start_coherent hs hframe hc hargs
  rw [callWith_run, callWith_run]
  -- both start alike, and from there the two runs go on step by step
  cases hstart : start c args s with
  | mk r s₁ =>
    cases hstart' : start c args t with
    | mk r' t₁ =>
      rw [hstart, hstart'] at hresult hcore' hsame
      rw [hstart] at hfollower
      rw [hstart'] at hleader
      obtain rfl : r = r' := hresult
      cases r with
      | error stop =>
        rw [bind_of_error hstart, bind_of_error hstart']
        exact ⟨rfl, fun hspent => hcore' fun h => hspent (by cases h; rfl)⟩
      | ok a =>
        rw [bind_of_ok hstart, bind_of_ok hstart']
        obtain ⟨hr, hcoherent⟩ := hfollower
        obtain ⟨hr', hcoherent'⟩ := hleader
        have hfloor : s.sp = t.sp := hsp
        rw [hfloor] at hcoherent
        exact run_abreast hev fuel ⟨hcoherent, hcoherent', hcore' nofun, hsame a rfl,
          hr.lawful hrs hcoherent.sp_le, hr'.lawful hrt hcoherent'.sp_le⟩

/-- So do calls that are counted. -/
theorem applyWith_alike (hev : Evaluator.Agree .lockstep (fun _ => y) y) (fuel : Nat)
    (h : Leeway.lockstep.Like s t) (hs : t.Sound) (hframe : t.frame ≤ t.sp)
    (hc : c.Callable t.envs.size) (hargs : ∀ v ∈ args, v.Proper t.envs.size) :
    Alike (applyWith y fuel c args s) (applyWith y fuel c args t) := by
  have hcore := h.core
  obtain ⟨hgist, hframe', -, hlimits, hsp, hrs, hrt⟩ := h
  obtain hlimits : s.limits = t.limits := hlimits
  have hdepth : s.depth = t.depth := Engine.congr_core Engine.depth (fun _ _ _ _ => rfl) hcore
  by_cases hdeep : t.limits.maxApplyDepth ≤ t.depth
  · rw [applyWith_of_deep y fuel c args (by rwa [hlimits, hdepth]),
      applyWith_of_deep y fuel c args hdeep, hlimits]
    exact ⟨rfl, fun _ => hcore⟩
  · rw [applyWith_run y fuel c args (by rwa [hlimits, hdepth]), applyWith_run y fuel c args hdeep,
      hdepth]
    have hs₀ : Engine.Sound { t with depth := t.depth + 1 } :=
      ⟨hs.globals, hs.bindings, hs.older, hs.hosts⟩
    have hcall := callWith_alike hev fuel
      ⟨Engine.gist_withDepth (t.depth + 1) hgist, hframe', False.elim, hlimits, hsp,
        Engine.lawful_withDepth hrs _, Engine.lawful_withDepth hrt _⟩ hs₀ hframe hc hargs
    exact ⟨hcall.result, fun hspent => Engine.core_withDepth t.depth (hcall.core hspent)⟩

end Machine

/-- A safe computation that ends alike on engines that are alike agrees with itself. -/
theorem Agrees.of_alike {x : Eval α} {Q : α → Engine → Prop}
    (hsafe : ∀ {s : Engine}, s.core = t.core → x.Safe s Q)
    (halike : t.Sound → t.frame ≤ t.sp → ∀ {s}, Leeway.lockstep.Like s t → Alike (x s) (x t)) :
    Agrees .lockstep t (fun _ => x) x Q := by
  refine ⟨hsafe rfl, fun hs hframe => ⟨fun hspent _ _ s hlike => .inr ?_, fun hnot =>
    ⟨0, fun _ s hlike => .inr (.inr ?_)⟩⟩⟩
  · exact (halike hs hframe hlike).result.trans hspent
  · obtain ⟨hresult, hcore⟩ := halike hs hframe hlike
    obtain ⟨hk, -, -⟩ := hsafe hlike.core (hs.of_core hlike.core) hlike.frame
    obtain ⟨hk', -, -⟩ := hsafe rfl hs hframe
    obtain ⟨hlimits, hsp, hrs, hrt⟩ := hlike.near
    exact ⟨hresult, ⟨Engine.gist_of_core (hcore hnot), hk.frame_le hlike.frame, False.elim,
      hk.limits.trans (hlimits.trans hk'.limits.symm), hk.sp.trans (hsp.trans hk'.sp.symm),
      hk.lawful hrs, hk'.lawful hrt⟩, hk⟩

/-- Computations that agree in lockstep end alike. -/
theorem Agrees.alike {x y : Eval α} {Q : α → Engine → Prop}
    (h : Agrees .lockstep t (fun _ => x) y Q) (hs : t.Sound) (hframe : t.frame ≤ t.sp)
    (hlike : Leeway.lockstep.Like s t) : Alike (x s) (y t) := by
  rcases h.together (fun _ _ _ _ => id) hs hframe hlike with hfollows | ⟨hx, hy⟩
  · exact ⟨hfollows.result, fun _ => hfollows.like.core⟩
  · exact ⟨hx.trans hy.symm, fun hnot => absurd hy hnot⟩

/-- The machine does the same on engines that differ only by what is on their stacks. -/
theorem Machine.agree_lockstep (fuel : Nat) :
    Evaluator.Agree .lockstep (fun _ => evaluator fuel) (evaluator fuel) := by
  induction fuel with
  | zero =>
    have hthrow : ∀ (t : Engine), Agrees .lockstep t (fun _ => throw .outOfFuel) (throw .outOfFuel)
        ProperResult := fun t => .blind (.throw _) fun hs _ => ⟨.refl _, hs, trivial⟩
    exact ⟨⟨0, fun _ _ => le_rfl⟩, fun _ _ => le_rfl, fun _ _ => hthrow _, fun t _ => hthrow t⟩
  | succ fuel ih =>
    refine ⟨⟨0, fun _ _ => le_rfl⟩, fun _ _ => le_rfl, fun {t c args} hc hargs => ?_,
      agrees_loadFile ih⟩
    refine .of_alike (fun {s} hcore => ?_) fun hs hframe s hlike =>
      applyWith_alike ih fuel hlike hs hframe hc hargs
    have henvs : s.envs = t.envs := Engine.congr_core Engine.envs (fun _ _ _ _ => rfl) hcore
    exact safe_applyWith ih.safe fuel (henvs ▸ hc) (henvs ▸ hargs)

end StackLisp
