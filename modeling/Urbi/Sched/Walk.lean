import Urbi.Sched.Lists

/-!
# What runs inside a walk

A walk over the watchers is a frame of the C stack: a step of the machine works on the topmost frames
and leaves the walk, and what is below it, alone.
-/

namespace Urbi.Sched

variable {c : Choice} {ks top : List CFrame} {k : CFrame} {inside : Sys → Prop} {σ₀ : Sys}
  {l : List Taken}

/-- Only its own turn takes the frame off the stack. -/
def CFrame.solid : CFrame → Bool
  | .run .. | .call .. | .step _ _ (.ran _) | .inline _ false => false
  | _ => true

def CFrame.isCall : CFrame → Bool
  | .call .. => true
  | _ => false

namespace Sys

open World

structure Goes (w : World) (st : List CFrame) (σ : Sys) : Prop where
  grows : Grows w σ.world
  stack : ∃ put, σ.stack = put ++ st

inductive Returns (w : World) : List CFrame → Sys → Prop
  | loop {f : CFrame} {st : List CFrame} {σ : Sys} (hf : f.solid = false) (hc : f.isCall = false)
      (h : Goes w st σ) : Returns w (f :: st) σ
  | call {s s' : StrandId} {sv : Option UStrandState} {p : Purpose} {v : Option Bool}
      {st : List CFrame} {w' : World} (h : Grows w w') :
      Returns w (.call s sv p :: st) ⟨w', .got s' p v :: st⟩

def Resumes (w : World) (st : List CFrame) (σ : Sys) : Prop := Goes w st σ ∨ Returns w st σ

section

variable {w w' : World} {st : List CFrame} {σ : Sys} {f : CFrame} {s : StrandId}
  {prev : Option StrandId} {g : Grant} {x : WatcherId}

namespace Goes

theorem here (h : Calm w w') : Goes w st ⟨w', st⟩ := ⟨h.grows, [], rfl⟩

theorem push (h : Calm w w') : Goes w st ⟨w', f :: st⟩ := ⟨h.grows, [f], rfl⟩

theorem refl : Goes w st ⟨w, st⟩ := here (.refl w)

theorem after (h : Goes w' st σ) (hw : Calm w w') : Goes w st σ := ⟨hw.then h.grows, h.stack⟩

theorem pop (h : Goes w (f :: st) σ) : Goes w st σ := by
  obtain ⟨put, hput⟩ := h.stack
  exact ⟨h.grows, put ++ [f], by rw [hput, List.append_assoc]; rfl⟩

end Goes

theorem Resumes.after (h : Resumes w' st σ) (hw : Calm w w') : Resumes w st σ := by
  rcases h with hgo | hret
  · exact .inl (hgo.after hw)
  · right
    cases hret with
    | loop hf hc hgo => exact .loop hf hc (hgo.after hw)
    | call hg => exact .call (hw.then hg)

/-! ## Walks -/

theorem grows_raise (w : World) : Grows w { w with draining := true } :=
  ⟨Nat.le_refl _, .refl _ _ _, fun _ => .refl _ _ _, fun _ _ => .refl _, fun _ h => h⟩

theorem Goes.raised (h : Goes { w with draining := true } st σ) : Goes w st σ :=
  ⟨(grows_raise w).trans h.grows fun _ _ => rfl, h.stack⟩

theorem grows_lower (w : World) (d : Bool) : Grows w (World.sweep { w with draining := d }) := by
  have hflag : Grows w { w with draining := d } :=
    ⟨Nat.le_refl _, .refl _ _ _, fun _ => .refl _ _ _, fun _ _ => .refl _, fun _ h => h⟩
  have hsweep := (Tends.sweep (w := { w with draining := d })).calm
  cases d with
  | true =>
    have hnone : World.sweep { w with draining := true } = { w with draining := true } := by
      unfold World.sweep
      exact if_pos rfl
    rw [hnone]
    exact hflag
  | false =>
    -- with the flag down afterwards, the lists may lose what they like
    have hnot : ¬ (w.draining = true ∧ (World.sweep { w with draining := false }).draining = true) :=
      fun h => by rw [hsweep.flag] at h; cases h.2
    refine ⟨hsweep.grows.nwatchers, hsweep.grows.all.mono (Nat.le_refl _) fun h => absurd h hnot,
      fun e => (hsweep.grows.subs e).mono (Nat.le_refl _) fun h => absurd h hnot,
      hsweep.grows.keeps, fun h => absurd h hnot⟩

theorem goes_startDrain (w : World) (st : List CFrame) : Goes w st (startDrain w st) := by
  unfold startDrain
  split
  · exact .refl
  · rename_i hidle
    have hdown : w.draining = false := by
      by_contra hd
      exact hidle (.inl (Bool.not_eq_false _ ▸ hd))
    have hnot : ∀ b, ¬ (w.draining = true ∧ b) := fun _ h => by rw [hdown] at h; cases h.1
    have hcount : Calm w { w with ndirty := 0 } :=
      ⟨⟨Nat.le_refl _, .refl _ _ _, fun _ => .refl _ _ _, fun _ _ => .refl _,
        fun h => absurd h (hnot _)⟩, rfl⟩
    exact ⟨(hcount.trans Tends.sweep.calm).then (grows_raise _), [_], rfl⟩

theorem calm_deliver (w : World) (e : EventId) : Calm w (deliver w e) := .of_watches rfl

theorem goes_startEmit (w : World) (e : EventId) (sync : Bool) (st : List CFrame) :
    Goes w st (startEmit w e sync st) := by
  unfold startEmit
  split
  · exact .here (calm_deliver w e)
  · exact ⟨grows_raise w, [_], rfl⟩

theorem Course.goes (h : Course w st σ) : Goes w st σ := by
  induction h with
  | here => exact .refl
  | tends ht _ ih => exact ih.after ht.calm
  | push _ _ ih => exact ih.pop
  | drain => exact goes_startDrain _ _
  | emit e sync => exact goes_startEmit _ e sync _

theorem goes_onSpare (w : World) (x : WatcherId) (p : Purpose) (g : Grant) (st : List CFrame) :
    Goes w st (onSpare w x p g st) := by
  obtain ⟨saved, h⟩ := Course.startCall (w.acquire (w.watcher x).realm (w.watcher x).tag).1
    w.sched.nstrands p g st
  exact h.goes.pop.after (Tends.acquire _ _).calm

theorem goes_runInline (w : World) (x : WatcherId) (has : Bool) (g : Grant) (st : List CFrame) :
    Goes w st (runInline w x has g st) := by
  unfold runInline
  split
  · exact goes_onSpare w x .body g st
  · exact .refl

theorem returnCall_eq (w : World) (s : StrandId) (saved : Option UStrandState) (p : Purpose) (v : Bool)
    (st : List CFrame) : ∃ w' v', Calm w w' ∧ returnCall w s saved p v st = ⟨w', .got s p v' :: st⟩ := by
  unfold returnCall
  split
  · exact ⟨w, none, .refl w, rfl⟩
  · refine ⟨_, some v, ?_, rfl⟩
    split
    · exact .refl w
    · exact .of_watches rfl

/-! ## Serving a watcher -/

theorem calm_spawnFor (w : World) (x : WatcherId) (has : Bool) (g : Grant) :
    Calm w (spawnFor w x has g).1 := by
  unfold spawnFor
  dsimp only
  split
  · split
    · exact .refl w
    · exact .refl w
    · exact (Tends.spawn _ _ _).calm
  · exact .refl w

theorem calm_note (w : World) (c : Option StrandId) (o : StrandId → Obs) :
    Calm w (c.elim w fun c => w.note (o c)) := by
  cases c <;> exact .of_watches rfl

theorem goes_fireWatcher (w : World) (x : WatcherId) (force : Bool) (g : Grant) (st : List CFrame) :
    Goes w st (fireWatcher w x force g st) := by
  have hfired := Calm.fired w x true
  have hspawn := hfired.trans (calm_spawnFor (w.setWatcher x fun r => { r with fired := true }) x
    (w.watcher x).body g)
  unfold fireWatcher
  dsimp only
  split
  · exact .push hfired
  split
  · exact (goes_runInline _ x _ g st).after hfired
  generalize spawnFor (w.setWatcher x fun r => { r with fired := true }) x (w.watcher x).body g = out
    at hspawn ⊢
  obtain ⟨w₁, c, refused⟩ := out
  refine .after ?_ hspawn
  dsimp only
  split
  · refine .after ?_ (.fired w₁ x (w.watcher x).fired)
    split
    · exact .here ((Calm.last _ x false).trans (.markDirty _))
    · exact .refl
  · refine .after ?_ (calm_note w₁ c (.bodyOf x))
    split
    · exact .here (.bodyStrand _ x c)
    · exact .refl

theorem goes_leaveWatcher (w : World) (x : WatcherId) (g : Grant) (st : List CFrame) :
    Goes w st (leaveWatcher w x g st) := by
  have hfired := Calm.fired w x false
  have hspawn := hfired.trans (calm_spawnFor (w.setWatcher x fun r => { r with fired := false }) x
    (w.watcher x).onleave g)
  unfold leaveWatcher
  dsimp only
  split
  · exact .refl
  split
  · exact (goes_runInline _ x _ g st).after hfired
  generalize spawnFor (w.setWatcher x fun r => { r with fired := false }) x (w.watcher x).onleave g = out
    at hspawn ⊢
  obtain ⟨w₁, c, refused⟩ := out
  refine .after ?_ (hspawn.trans (calm_note w₁ c (.elseOf x)))
  dsimp only
  split
  · exact .here ((Calm.fired _ x true).trans (.markDirty _))
  · exact .refl

theorem goes_edge (w : World) (x : WatcherId) (now : Bool) (g : Grant) (st : List CFrame) :
    Goes w st (edge w x now g st) := by
  unfold edge
  dsimp only
  split
  · exact .refl
  refine .after ?_ (.last w x now)
  split
  · split
    · exact .here ((Tends.lapse x).trans (.on _)).calm
    split
    · exact .refl
    · exact goes_fireWatcher _ x false g st
  split
  · split
    · exact .here (.leavePending _ x true)
    · exact goes_leaveWatcher _ x g st
  · exact .refl

theorem goes_bodyDone (w : World) (s : StrandId) (g : Grant) (st : List CFrame) :
    Goes w st (bodyDone w s g st) := by
  unfold bodyDone
  split
  · exact .refl
  · rename_i x _
    dsimp only
    refine .after ?_ (.bodyStrand w x none)
    split
    · exact .refl
    refine .after ?_ (.leavePending _ x false)
    split
    · exact .refl
    split
    · -- the else arm goes first, above the two frames
      exact .raised (goes_leaveWatcher _ x g _).pop.pop
    · exact .raised (Goes.pop (.push (.refl _)))

theorem goes_death (w : World) (s : StrandId) (g : Grant) (st : List CFrame) :
    Goes w st (bodyDone (w.onDeath s) s g st) :=
  (goes_bodyDone _ s g st).after (Tends.onDeath s).calm

theorem returns_finishRun {u : UStrandState} (h : finishRun w s u prev g st = some σ) :
    Returns w st σ := by
  have hset : Calm w { w.setStrand s (fun r => { r with state := u }) with current := prev } :=
    .of_watches rfl
  unfold finishRun at h
  split at h
  · cases h
    refine .loop rfl rfl (.after ?_ hset)
    split
    · exact (goes_death _ s g _).pop
    split
    · exact .push (.refl _)
    · exact .push (.of_watches rfl)
  · rename_i c stack
    cases h
    refine .loop rfl rfl (.after ?_ hset)
    split
    · exact (goes_death _ c g _).pop
    split
    · exact .refl
    · exact (Course.dispatch c).goes.pop
  · rename_i saved p stack
    cases h
    split
    · exact .call hset.grows
    · obtain ⟨w', v, hcalm, heq⟩ := returnCall_eq
        { w.setStrand s (fun r => { r with state := u }) with current := prev } s saved p true stack
      rw [heq]
      exact .call (hset.trans hcalm).grows
  · cases h

theorem Outcome.resumes (h : Outcome w st σ) : Resumes w st σ := by
  cases h with
  | goesOn hc => exact .inl hc.goes
  | leaves ht hf => exact .after (.inr (returns_finishRun hf)) ht.calm
  | @returns w' s s' saved saved' p v st ht =>
    obtain ⟨w₁, v', hcalm, heq⟩ := returnCall_eq w' s' saved' p v st
    rw [heq]
    exact .inr (.call (ht.calm.trans hcalm).grows)

/-! ## The frames of the runtime -/

theorem goes_visit (x : WatcherId) (rest : List WatcherId) :
    Goes w (.drain rest :: st) (drainTurn w g st (x :: rest)) := by
  unfold drainTurn
  dsimp only
  split
  · exact goes_onSpare w x _ g _
  · exact .refl

theorem goes_drainTurn (rest : List WatcherId) : Goes w st (drainTurn w g st rest) := by
  cases rest with
  | nil => exact ⟨grows_lower w false, [], rfl⟩
  | cons x rest => exact (goes_visit x rest).pop

theorem goes_subscriber (e : EventId) (sync before : Bool) (x : WatcherId) (rest : List WatcherId) :
    Goes w (.fan e sync rest before :: st) (fanTurn w e sync before g st (x :: rest)) := by
  unfold fanTurn
  dsimp only
  split
  · exact .refl
  split
  · exact .here ((Tends.lapse x).trans (.on _)).calm
  · exact goes_fireWatcher w x _ g _

theorem goes_fanTurn (e : EventId) (sync before : Bool) (rest : List WatcherId) :
    Goes w st (fanTurn w e sync before g st rest) := by
  cases rest with
  | nil =>
    have hflag := (calm_deliver (World.sweep { w with draining := before }) e)
    exact ⟨(grows_lower w before).trans hflag.grows fun _ hd => hflag.flag.symm.trans hd, [], rfl⟩
  | cons x rest => exact (goes_subscriber e sync before x rest).pop

theorem goes_gotTurn {v : Option Bool} {p : Purpose} (hp : p.ordinary = false)
    (h : gotTurn w s v g st p = some σ) : Goes w st σ := by
  have hnote : ∀ o, Calm w (w.note o) := fun _ => .of_watches rfl
  cases p with
  | plain | wait | body => cases hp
  | cond x =>
    dsimp only [gotTurn] at h
    split at h
    · cases h
      exact .here (Tends.lapse x).calm
    · cases h
      exact (goes_edge _ x _ g st).after (hnote _)
  | again x owed =>
    dsimp only [gotTurn] at h
    split at h
    · cases h
      exact .here (Tends.lapse x).calm
    rename_i now
    split at h
    · cases h
      exact .here (hnote _)
    cases h
    refine .after ?_ ((hnote (.found x now)).trans (.last _ x now))
    split
    · exact goes_fireWatcher _ x false g st
    split
    · exact .refl
    · exact goes_leaveWatcher _ x g st

end

inductive StackStep (w : World) : List CFrame → Sys → Prop
  | stay {st : List CFrame} {σ : Sys} (h : Goes w st σ) : StackStep w st σ
  | pop {f : CFrame} {st : List CFrame} {σ : Sys} (h : Resumes w st σ) : StackStep w (f :: st) σ
  | under {f : CFrame} {s : StrandId} {prev : Option StrandId} {st : List CFrame} {σ : Sys}
      (h : Resumes w st σ) : StackStep w (f :: .run s prev :: st) σ

section

variable {w w' : World} {st : List CFrame} {σ σ' : Sys} {g : Grant}

theorem step_stack (h : σ.step c = some σ') : StackStep σ.world σ.stack σ' := by
  obtain ⟨w, st⟩ := σ
  have hturn : Turn w c st σ' := .of_step h
  cases hturn with
  | stay hcourse => exact .stay hcourse.goes
  | pop _ ho => exact .pop ho.resumes
  | under _ ho => exact .under ho.resumes
  | drain => exact .pop (.inl (goes_drainTurn _))
  | fan => exact .pop (.inl (goes_fanTurn _ _ _ _))
  | again g =>
    refine .pop (.inl ?_)
    split
    · exact goes_onSpare w _ _ g _
    · exact .refl
  | done => exact .pop (.inl ⟨grows_lower w _, [], rfl⟩)
  | got _ hp hgot => exact .pop (.inl (goes_gotTurn hp hgot))

theorem Resumes.grows (h : Resumes w st σ) : Grows w σ.world := by
  rcases h with hgo | hret
  · exact hgo.grows
  · cases hret with
    | loop _ _ hgo => exact hgo.grows
    | call hg => exact hg

theorem StackStep.grows (h : StackStep w st σ) : Grows w σ.world := by
  cases h with
  | stay h | pop h | under h => exact h.grows

theorem Resumes.keep (h : Resumes w (top ++ k :: ks) σ) (hk : k.solid = true) :
    ∃ top', σ.stack = top' ++ k :: ks := by
  rcases h with hgo | hret
  · obtain ⟨put, hput⟩ := hgo.stack
    exact ⟨put ++ top, by rw [hput, List.append_assoc]⟩
  · cases top with
    | nil =>
      cases hret with
      | loop hf => rw [hk] at hf; cases hf
      | call => cases hk
    | cons f top =>
      cases hret with
      | loop _ _ hgo =>
        obtain ⟨put, hput⟩ := hgo.stack
        exact ⟨put ++ top, hput.trans (List.append_assoc ..).symm⟩
      | @call _ s' _ p v => exact ⟨.got s' p v :: top, rfl⟩

theorem StackStep.keep (h : StackStep w (top ++ k :: ks) σ) (htop : top ≠ [])
    (hk : k.solid = true) : ∃ top', σ.stack = top' ++ k :: ks := by
  cases top with
  | nil => exact absurd rfl htop
  | cons f top =>
    generalize hst : f :: top ++ k :: ks = st at h
    cases h with
    | stay h =>
      subst hst
      exact Resumes.keep (.inl h) hk
    | pop h =>
      cases hst
      exact h.keep hk
    | @under _ s prev st _ h =>
      cases top with
      | nil =>
        cases hst
        cases hk
      | cons f' top =>
        cases hst
        exact h.keep hk

theorem StackStep.keep_call {s : StrandId} {sv : Option UStrandState} {p : Purpose}
    (h : StackStep w (top ++ .call s sv p :: ks) σ) (htop : top ≠ []) :
    (∃ top', σ.stack = top' ++ .call s sv p :: ks) ∨ ∃ s' v, σ.stack = .got s' p v :: ks := by
  -- what stands on the call may put frames on it, or return to it
  have hres : ∀ top, Resumes w (top ++ .call s sv p :: ks) σ →
      (∃ top', σ.stack = top' ++ .call s sv p :: ks) ∨ ∃ s' v, σ.stack = .got s' p v :: ks := by
    intro top h
    rcases h with hgo | hret
    · obtain ⟨put, hput⟩ := hgo.stack
      exact .inl ⟨put ++ top, by rw [hput, List.append_assoc]⟩
    · cases top with
      | nil =>
        cases hret with
        | loop _ hc => cases hc
        | @call _ s' _ _ v => exact .inr ⟨s', v, rfl⟩
      | cons f top =>
        cases hret with
        | loop _ _ hgo =>
          obtain ⟨put, hput⟩ := hgo.stack
          exact .inl ⟨put ++ top, hput.trans (List.append_assoc ..).symm⟩
        | @call _ s' _ p v => exact .inl ⟨.got s' p v :: top, rfl⟩
  cases top with
  | nil => exact absurd rfl htop
  | cons f top =>
    generalize hst : f :: top ++ .call s sv p :: ks = st at h
    cases h with
    | stay h =>
      subst hst
      exact hres _ (.inl h)
    | pop h =>
      cases hst
      exact hres top h
    | @under _ s' prev st _ h =>
      cases top with
      | nil => cases hst
      | cons f' top =>
        cases hst
        exact hres top h

end

/-! ## Runs -/

def Reachable (t : TagId) (σ : Sys) : Prop := Runs (fun _ _ => true) (boot t) σ

structure Ordered (w : World) : Prop where
  all : w.all.Pairwise (· < ·) ∧ ∀ y ∈ w.all, y < w.nwatchers
  subs : ∀ e, (w.subs e).Pairwise (· < ·) ∧ ∀ y ∈ w.subs e, y < w.nwatchers

variable {t : TagId} {σ σ' : Sys}

theorem Ordered.grows {w w' : World} (h : Ordered w) (hg : Grows w w') : Ordered w' :=
  ⟨hg.all.sorted h.all.1 h.all.2 hg.nwatchers,
    fun e => (hg.subs e).sorted (h.subs e).1 (h.subs e).2 hg.nwatchers⟩

theorem Reachable.ordered (h : Reachable t σ) : Ordered σ.world := by
  induction h with
  | refl => exact ⟨⟨.nil, nofun⟩, fun _ => ⟨.nil, nofun⟩⟩
  | step _ c _ hstep ih => exact ih.grows (step_stack hstep).grows

/-- A watcher that no run installs fits every run, so this needs no condition on the run. -/
theorem Reachable.watching (h : Reachable t σ) {x : WatcherId} (hx : σ.world.nwatchers ≤ x) :
    Watching x σ := by
  induction h with
  | refl => exact .boot x t
  | @step σ σ' _ c _ hstep ih =>
    have hσ := ih ((step_stack hstep).grows.nwatchers.trans hx)
    refine hσ.step ?_ hstep
    unfold fits
    split
    · rename_i g
      have hknown : ∀ f st, σ.stack = f :: st → f.Knows σ.world :=
        fun f st hst => hσ.frames f (by rw [hst]; exact List.mem_cons_self)
      have hle : σ.world.nwatchers ≤ x := (step_stack hstep).grows.nwatchers.trans hx
      split
      · rename_i y _ _ hst
        have hy : y < σ.world.nwatchers := hknown _ _ hst
        have hne : y ≠ x := Nat.ne_of_lt (Nat.lt_of_lt_of_le hy hle)
        simp [hne]
      · rename_i y _ _ _ hst
        have hy : y < σ.world.nwatchers := hknown _ _ hst
        have hne : y ≠ x := Nat.ne_of_lt (Nat.lt_of_lt_of_le hy hle)
        simp [hne]
      · rfl
    · rfl

theorem Reachable.brackets (h : Reachable t σ) : Brackets σ.world.draining σ.stack :=
  (h.watching (Nat.le_refl _)).brackets

end Sys

def CFrame.walks : CFrame → Bool
  | .drain _ | .fan .. => true
  | _ => false

theorem Brackets.draining {d : Bool} {st : List CFrame} {f : CFrame}
    (h : Brackets d (top ++ f :: st)) (hf : f.walks = true) : d = true := by
  induction top generalizing d with
  | nil =>
    cases f with
    | drain | fan => exact h.1
    | _ => cases hf
  | cons f' top ih =>
    cases f' with
    | drain | fan | done => exact h.1
    | again => exact ih h.2
    | call s sv p | got s p v =>
      cases p with
      | cond | again => exact ih h.2
      | _ => exact ih h
    | _ => exact ih h

namespace Sys

variable {t : TagId} {σ σ' : Sys}

theorem Reachable.draining (h : Reachable t σ) {f : CFrame} (hf : f ∈ σ.stack)
    (hw : f.walks = true) : σ.world.draining = true := by
  obtain ⟨top, st, hst⟩ := List.append_of_mem hf
  have hb := h.brackets
  rw [hst] at hb
  exact hb.draining hw

structure Taken where
  before : Sys
  choice : Choice
  after : Sys

inductive Stretch (inside : Sys → Prop) (σ₀ : Sys) : List Taken → Sys → Prop
  | start : Stretch inside σ₀ [] σ₀
  | step {l : List Taken} {σ σ' : Sys} (h : Stretch inside σ₀ l σ) (hin : inside σ) {c : Choice}
      (hc : σ.step c = some σ') : Stretch inside σ₀ (l ++ [⟨σ, c, σ'⟩]) σ'

theorem Stretch.reachable (h : Stretch inside σ₀ l σ) (h₀ : Reachable t σ₀) : Reachable t σ := by
  induction h with
  | start => exact h₀
  | step _ _ hc ih => exact .step ih _ rfl hc

theorem Stretch.mem (h : Stretch inside σ₀ l σ) {p : Taken} (hp : p ∈ l) :
    inside p.before ∧ p.before.step p.choice = some p.after ∧
      ∃ l', Stretch inside σ₀ l' p.before := by
  induction h with
  | start => cases hp
  | step h hin hc ih =>
    rcases List.mem_append.mp hp with hp | hp
    · exact ih hp
    · rw [List.mem_singleton.mp hp]
      exact ⟨hin, hc, _, h⟩

def taken : Sys → List Choice → List Taken
  | _, [] => []
  | σ, c :: cs => (σ.step c).elim [] fun σ' => ⟨σ, c, σ'⟩ :: taken σ' cs

theorem Stretch.of_runAll {P : Sys → Choice → Bool} {cs : List Choice}
    (hP : ∀ σ c, P σ c = true → inside σ) (h : Stretch inside σ₀ l σ)
    (hrun : runAll P σ cs = some σ') : Stretch inside σ₀ (l ++ taken σ cs) σ' := by
  induction cs generalizing σ l with
  | nil =>
    cases hrun
    rw [taken, List.append_nil]
    exact h
  | cons c cs ih =>
    unfold runAll at hrun
    split at hrun
    · rename_i hin
      obtain ⟨σ₁, hc, hrest⟩ := Option.bind_eq_some_iff.mp hrun
      have hstretch := ih (h.step (hP σ c hin) hc) hrest
      rw [List.append_assoc] at hstretch
      rw [taken, hc]
      exact hstretch
    · cases hrun

end Sys

end Urbi.Sched
