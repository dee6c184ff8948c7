import Urbi.Sched.Walk

/-!
# Firing a watcher

What `uwatch_fire` and `uwatch_leave` come to for one watcher.  An inline closure needs a spare
strand, and is dropped when there is none.
-/

namespace Urbi.Sched

def UWatcher.takesSpare (r : UWatcher) : Bool :=
  r.mode == .atSync && r.body && !r.hostCb

def UWatcher.leavesInline (r : UWatcher) : Bool := r.mode == .atSync && r.onleave && r.fired

/-- The edge that a condition found to be `now` makes is answered inline. -/
def UWatcher.answersInline (r : UWatcher) (now : Bool) : Bool :=
  if now then !r.last && r.takesSpare else r.leavesInline

def CFrame.entered : CFrame → Bool
  | .run .. | .native .. => true
  | _ => false

/-- An inline closure gets its strand and is entered on it. -/
def Grant.inline (g : Grant) : Bool := g.spare && g.enters

namespace Sys

open World

/-- The host is called, the body runs inline right here, or a spawn of it is attempted, which may
find nothing to spawn, or no memory. -/
inductive Fires (w : World) (x : WatcherId) (g : Grant) (under : List CFrame) (σ : Sys) : Prop
  | calls (hhost : (w.watcher x).hostCb = true) (hafter : σ.stack = .host :: under)
  | runs (hbody : (w.watcher x).body = true) {f : CFrame} {s : StrandId}
      {saved : Option UStrandState} (hafter : σ.stack = f :: .call s saved .body :: under)
      (hin : f.entered = true) (htag : (σ.world.ambient s).tag = (w.watcher x).tag)
  | spawns (hmode : (w.watcher x).mode ≠ .atSync) (hbody : (w.watcher x).body = true)
      (hspawn : g.spawn = .spawned) (hafter : σ.stack = under)
      (hnoted : σ.world.trace = .bodyOf x w.sched.nstrands :: w.trace)
  | refused (hmode : (w.watcher x).mode ≠ .atSync) (hspawn : g.spawn = .refused)
      (hafter : σ.stack = under) (hretry : (w.watcher x).cond = true → σ.world.ndirty ≠ 0)
  | nothing (hbody : (w.watcher x).mode ≠ .atSync ∧ g.spawn = .nothing ∨
      (w.watcher x).body = false) (hafter : σ.stack = under)

def Wakes (w : World) (x : WatcherId) (under : List CFrame) (σ : Sys) : Prop :=
  σ = ⟨(w.setWatcher x fun y => { y with armed := false }).wakeAll (.watcher x), under⟩

inductive Leaves (w : World) (x : WatcherId) (g : Grant) (under : List CFrame) (σ : Sys) : Prop
  | unowed (hno : (w.watcher x).onleave = false ∨ (w.watcher x).fired = false)
      (hafter : σ.stack = under)
  | runs (honleave : (w.watcher x).onleave = true) {f : CFrame} {s : StrandId}
      {saved : Option UStrandState} (hafter : σ.stack = f :: .call s saved .body :: under)
      (hin : f.entered = true) (htag : (σ.world.ambient s).tag = (w.watcher x).tag)
  | spawns (honleave : (w.watcher x).onleave = true) (hspawn : g.spawn = .spawned)
      (hafter : σ.stack = under) (hnoted : σ.world.trace = .elseOf x w.sched.nstrands :: w.trace)
  | refused (hspawn : g.spawn = .refused) (hafter : σ.stack = under) (hretry : σ.world.ndirty ≠ 0)
  | nothing (hspawn : g.spawn = .nothing) (hafter : σ.stack = under)

/-- There is no edge, or the body is still in flight and its death is to act, or the watcher is
served. -/
inductive Acts (w : World) (x : WatcherId) (now : Bool) (g : Grant) (under : List CFrame) (σ : Sys) :
    Prop
  | steady (hnow : now = (w.watcher x).last) (hfired : now = true ∨ (w.watcher x).fired = false)
      (hafter : σ.stack = under)
  | wakes (hrise : now = true ∧ (w.watcher x).last = false)
      (hmode : (w.watcher x).mode = .waituntil)
      (hwake : Wakes (w.setWatcher x fun y => { y with last := now }) x under σ)
  | running (hrise : now = true ∧ (w.watcher x).last = false)
      (hbody : (w.watcher x).mode = .whenever ∧ (w.watcher x).bodyStrand.isSome)
      (hafter : σ.stack = under)
  | fires (hrise : now = true ∧ (w.watcher x).last = false)
      (hfire : Fires (w.setWatcher x fun y => { y with last := now }) x g under σ)
  | owes (hfall : now = false ∧ ((w.watcher x).last = true ∨ (w.watcher x).fired = true))
      (hbody : (w.watcher x).mode = .whenever ∧ (w.watcher x).bodyStrand.isSome)
      (hafter : σ.stack = under) (howed : (σ.world.watcher x).leavePending = true)
  | leaves (hfall : now = false ∧ ((w.watcher x).last = true ∨ (w.watcher x).fired = true))
      (hleave : Leaves (w.setWatcher x fun y => { y with last := now }) x g under σ)

section

variable {w : World} {x : WatcherId} {g : Grant} {under : List CFrame}

theorem markDirty_ne_zero (w : World) : w.markDirty.ndirty ≠ 0 := by
  unfold markDirty
  dsimp only
  split
  · omega
  · omega

theorem onSpare_stack (w : World) (x : WatcherId) (p : Purpose) (g : Grant) (under : List CFrame) :
    ∃ f saved, (onSpare w x p g under).stack = f :: .call w.sched.nstrands saved p :: under ∧
      f.entered = g.enters ∧
      ((onSpare w x p g under).world.ambient w.sched.nstrands).tag = (w.watcher x).tag := by
  unfold onSpare startCall
  dsimp only
  split
  · rename_i hno
    exact ⟨_, _, rfl, (Bool.not_eq_true _ ▸ hno).symm, by simp [acquire, setAmbient]⟩
  rename_i hin
  have hin : g.enters = true := not_not.mp hin
  split
  · exact ⟨_, _, rfl, hin.symm, by simp [acquire]⟩
  · exact ⟨_, _, rfl, hin.symm, by simp [acquire, setStrand, on]⟩

theorem runInline_stack (w : World) (x : WatcherId) (under : List CFrame) (h : g.spare = true) :
    ∃ f s saved, (runInline w x true g under).stack = f :: .call s saved .body :: under ∧
      f.entered = g.enters ∧
      ((runInline w x true g under).world.ambient s).tag = (w.watcher x).tag := by
  unfold runInline
  rw [Bool.true_and, if_pos h]
  obtain ⟨f, saved, hstack, hin, htag⟩ := onSpare_stack w x .body g under
  exact ⟨f, _, saved, hstack, hin, htag⟩

theorem runInline_dropped (h : g.spare = false) :
    runInline w x true g under = ⟨w, under⟩ := by
  unfold runInline
  rw [h]
  rfl

theorem spawnFor_spawned (hg : g.spawn = .spawned) :
    ∃ w', spawnFor w x true g = (w', some w.sched.nstrands, false) ∧ w'.trace = w.trace := by
  unfold spawnFor
  rw [if_pos rfl, hg]
  exact ⟨_, rfl, rfl⟩

theorem spawnFor_refused (hg : g.spawn = .refused) : spawnFor w x true g = (w, none, true) := by
  unfold spawnFor
  rw [if_pos rfl, hg]

theorem spawnFor_nothing {has : Bool} (h : g.spawn = .nothing ∨ has = false) :
    spawnFor w x has g = (w, none, false) := by
  unfold spawnFor
  cases has with
  | false => rfl
  | true => rw [if_pos rfl, h.resolve_right (by decide)]

theorem fires_spawned {force : Bool} (hhost : (w.watcher x).hostCb = false)
    (hmode : (w.watcher x).mode ≠ .atSync) (hforce : force = false) :
    Fires w x g under (fireWatcher w x force g under) := by
  subst hforce
  unfold fireWatcher
  simp only [hhost, Bool.false_eq_true, if_false, hmode, or_self]
  cases hbody : (w.watcher x).body with
  | false =>
    rw [spawnFor_nothing (.inr rfl)]
    exact .nothing (.inr hbody) rfl
  | true =>
    cases hg : g.spawn with
    | nothing =>
      rw [spawnFor_nothing (.inl hg)]
      exact .nothing (.inl ⟨hmode, hg⟩) rfl
    | refused =>
      rw [spawnFor_refused hg]
      refine .refused hmode hg rfl fun hcond => ?_
      simp only [if_true, hcond]
      exact markDirty_ne_zero _
    | spawned =>
      obtain ⟨w', heq, htrace⟩ :=
        spawnFor_spawned (w := w.setWatcher x fun r => { r with fired := true }) (x := x) hg
      rw [heq]
      refine .spawns hmode hbody hg rfl ?_
      have hnote : (w'.note (.bodyOf x w.sched.nstrands)).trace =
          .bodyOf x w.sched.nstrands :: w.trace := congrArg _ htrace
      split
      · rename_i h
        cases h
      · split
        · exact hnote
        · exact hnote

/-- An inline body that was not dropped is at its start. -/
theorem Fires.inline {σ : Sys} (h : Fires w x g under σ) (hhost : (w.watcher x).hostCb = false)
    (hmode : (w.watcher x).mode = .atSync) (hbody : (w.watcher x).body = true) :
    ∃ f s saved, σ.stack = f :: .call s saved .body :: under ∧ f.entered = true := by
  cases h with
  | calls h =>
    rw [hhost] at h
    cases h
  | runs _ hafter hin => exact ⟨_, _, _, hafter, hin⟩
  | spawns h | refused h => exact absurd hmode h
  | nothing h =>
    rcases h with ⟨h, -⟩ | h
    · exact absurd hmode h
    · rw [hbody] at h
      cases h

theorem fires_inline (hhost : (w.watcher x).hostCb = false) (hmode : (w.watcher x).mode = .atSync)
    (hbody : (w.watcher x).body = true) :
    Fires w x g under
      (runInline (w.setWatcher x fun r => { r with fired := true }) x true g under) ↔
        g.inline = true := by
  unfold Grant.inline
  cases hspare : g.spare with
  | false =>
    rw [runInline_dropped hspare]
    refine iff_of_false (fun h => ?_) Bool.false_ne_true
    -- nothing was put on the stack
    obtain ⟨f, s, saved, hstack, -⟩ := h.inline hhost hmode hbody
    have hlen := congrArg List.length hstack
    rw [List.length_cons, List.length_cons] at hlen
    dsimp only at hlen
    omega
  | true =>
    obtain ⟨f, s, saved, hstack, hin, htag⟩ := runInline_stack
      (w.setWatcher x fun r => { r with fired := true }) x under hspare
    rw [setWatcher_self] at htag
    rw [Bool.true_and, ← hin]
    refine ⟨fun h => ?_, fun h => .runs hbody hstack h htag⟩
    obtain ⟨f', s', saved', hstack', hin'⟩ := h.inline hhost hmode hbody
    rw [hstack] at hstack'
    cases hstack'
    exact hin'

theorem fires_fireWatcher {force : Bool} (hforce : force = true → (w.watcher x).mode = .atSync) :
    Fires w x g under (fireWatcher w x force g under) ↔
      ((w.watcher x).takesSpare = true → g.inline = true) := by
  by_cases hhost : (w.watcher x).hostCb = true
  · refine iff_of_true (.calls hhost ?_) (by simp [UWatcher.takesSpare, hhost])
    unfold fireWatcher
    rw [if_pos hhost]
  replace hhost : (w.watcher x).hostCb = false := Bool.eq_false_iff.mpr hhost
  by_cases hmode : (w.watcher x).mode = .atSync
  · have hinline : fireWatcher w x force g under =
        runInline (w.setWatcher x fun r => { r with fired := true }) x (w.watcher x).body g under := by
      unfold fireWatcher
      simp only [hhost, Bool.false_eq_true, if_false, hmode, true_or, if_true]
    rw [hinline]
    cases hbody : (w.watcher x).body with
    | false => exact iff_of_true (.nothing (.inr hbody) rfl) (by simp [UWatcher.takesSpare, hbody])
    | true =>
      rw [fires_inline hhost hmode hbody]
      simp [UWatcher.takesSpare, hmode, hbody, hhost]
  · exact iff_of_true (fires_spawned hhost hmode (by
      cases force with
      | false => rfl
      | true => exact absurd (hforce rfl) hmode)) (by simp [UWatcher.takesSpare, hmode])

theorem leaves_leaveWatcher (hinline : (w.watcher x).leavesInline = true → g.inline = true) :
    Leaves w x g under (leaveWatcher w x g under) := by
  unfold leaveWatcher
  dsimp only
  by_cases howed : (w.watcher x).onleave = true ∧ (w.watcher x).fired = true
  · obtain ⟨honleave, hfired⟩ := howed
    simp only [honleave, hfired, not_true_eq_false, or_self, if_false]
    by_cases hmode : (w.watcher x).mode = .atSync
    · rw [if_pos hmode]
      obtain ⟨hspare, henters⟩ := Bool.and_eq_true_iff.mp
        (hinline (by simp [UWatcher.leavesInline, hmode, honleave, hfired]))
      obtain ⟨f, s, saved, hstack, hin, htag⟩ := runInline_stack
        (w.setWatcher x fun r => { r with fired := false }) x under hspare
      rw [setWatcher_self] at htag
      exact .runs honleave hstack (hin.trans henters) htag
    · rw [if_neg hmode]
      cases hg : g.spawn with
      | nothing =>
        rw [spawnFor_nothing (.inl hg)]
        exact .nothing hg rfl
      | refused =>
        rw [spawnFor_refused hg]
        exact .refused hg rfl (markDirty_ne_zero _)
      | spawned =>
        obtain ⟨w', heq, htrace⟩ :=
          spawnFor_spawned (w := w.setWatcher x fun r => { r with fired := false }) (x := x) hg
        rw [heq]
        exact .spawns honleave hg rfl (congrArg _ htrace)
  · have hno : (w.watcher x).onleave = false ∨ (w.watcher x).fired = false := by
      rcases Bool.eq_false_or_eq_true (w.watcher x).onleave with h | h
      · exact .inr (Bool.eq_false_iff.mpr fun hf => howed ⟨h, hf⟩)
      · exact .inl h
    rw [if_pos]
    · exact .unowed hno rfl
    · simpa using hno

theorem acts_edge {now : Bool} (harmed : (w.watcher x).armed = true)
    (hinline : (w.watcher x).answersInline now = true → g.inline = true) :
    Acts w x now g under (edge w x now g under) := by
  have hlast : (w.setWatcher x fun y => { y with last := now }).watcher x =
      { w.watcher x with last := now } := setWatcher_self ..
  unfold edge
  dsimp only
  rw [if_neg (not_not.mpr harmed)]
  cases now with
  | true =>
    cases hwas : (w.watcher x).last with
    | true =>
      simp only [not_true_eq_false, and_false, if_false, false_and]
      exact .steady hwas.symm (.inl rfl) rfl
    | false =>
      have hrise : true = true ∧ (w.watcher x).last = false := ⟨rfl, hwas⟩
      simp only [Bool.false_eq_true, not_false_eq_true, and_true, if_true]
      split
      · rename_i hmode
        exact .wakes hrise hmode rfl
      split
      · rename_i hbody
        exact .running hrise hbody rfl
      · refine .fires hrise ((fires_fireWatcher fun h => absurd h Bool.false_ne_true).mpr fun h => ?_)
        rw [hlast] at h
        exact hinline (by rw [UWatcher.answersInline, if_pos rfl, hwas]; exact h)
  | false =>
    simp only [Bool.false_eq_true, false_and, if_false, not_false_eq_true, true_and]
    split
    · rename_i hfall
      split
      · rename_i hbody
        refine .owes ⟨rfl, hfall⟩ hbody rfl ?_
        dsimp only
        rw [setWatcher_self]
      · refine .leaves ⟨rfl, hfall⟩ (leaves_leaveWatcher fun h => ?_)
        rw [hlast] at h
        exact hinline h
    · rename_i hno
      rw [not_or, Bool.not_eq_true, Bool.not_eq_true] at hno
      exact .steady hno.1.symm (.inr hno.2) rfl

end

end Sys

end Urbi.Sched
