import Urbi.Sched.Firing

/-!
# Emissions

`uwatch_event_fired` visits the subscribers it began with, each once and in order, whatever script it
runs, and fires those armed at their turn, except where a body is to run inline and there is no spare
strand.
-/

namespace Urbi.Sched

variable {rest : List WatcherId} {c : Choice}

namespace Sys

open World

def Emitting (e : EventId) (sync prev : Bool) (base : List CFrame) (σ : Sys) : Prop :=
  ∃ top rest, σ.stack = top ++ .fan e sync rest prev :: base

def subscriber (base : List CFrame) (σ : Sys) : Option WatcherId :=
  match σ.stack with
  | .fan _ _ (x :: _) _ :: st => if st = base then some x else none
  | _ => none

def Served (w : World) (x : WatcherId) (g : Grant) (under : List CFrame) (σ : Sys) : Prop :=
  if ¬ (w.watcher x).armed then σ = ⟨w, under⟩
  else if (w.watcher x).mode = .once then Wakes w x under σ
  else Fires w x g under σ

/-- At the turn of an armed subscriber with an inline body there is a spare strand for it, and the
call of the body is granted its registers and its frame. -/
def Taken.spared (base : List CFrame) (p : Taken) : Bool :=
  match subscriber base p.before, p.choice with
  | some x, .next g =>
    !(p.before.world.watcher x).armed || !(p.before.world.watcher x).takesSpare || g.inline
  | _, _ => true

section

variable {w : World} {x : WatcherId} {g : Grant} {e : EventId} {sync prev : Bool}
  {under base st : List CFrame} {σ σ' : Sys}

/-! ## One turn -/

theorem subscriber_eq (h : σ.stack = .fan e sync (x :: rest) prev :: base) :
    subscriber base σ = some x := by
  unfold subscriber
  rw [h]
  exact if_pos rfl

theorem subscriber_end (h : σ.stack = .fan e sync [] prev :: base) : subscriber base σ = none := by
  unfold subscriber
  rw [h]

theorem subscriber_above {top : List CFrame} (htop : top ≠ [])
    (h : σ.stack = top ++ .fan e sync rest prev :: base) : subscriber base σ = none := by
  unfold subscriber
  cases top with
  | nil => exact absurd rfl htop
  | cons f top =>
    rw [h]
    split
    · rename_i hst
      rw [if_neg]
      intro hb
      -- what is below the frame on top holds the walk, and so is longer than `base`
      have hst : top ++ .fan e sync rest prev :: base = _ := (List.cons.inj hst).2
      have hlen := congrArg List.length hst
      rw [hb, List.length_append, List.length_cons] at hlen
      omega
    · rfl

theorem step_fan (h : σ.stack = .fan e sync rest prev :: st) (hc : σ.step c = some σ') :
    ∃ g, c = .next g ∧ σ' = fanTurn σ.world e sync prev g st rest := by
  obtain ⟨w, stack⟩ := σ
  subst h
  cases c with
  | next g =>
    cases hc
    exact ⟨g, rfl, rfl⟩
  | instr | fire | prim | emit | callback | hostCall | step | raise | back => cases hc

def Progress (e : EventId) (sync prev : Bool) (base : List CFrame) (xs done : List WatcherId)
    (σ : Sys) : Prop :=
  (∃ top rest, σ.stack = top ++ .fan e sync rest prev :: base ∧ done ++ rest = xs) ∨
    (σ.stack = base ∧ done = xs)

theorem Progress.step {xs done : List WatcherId} (h : Progress e sync prev base xs done σ)
    (hin : Emitting e sync prev base σ) (hc : σ.step c = some σ') :
    Progress e sync prev base xs (done ++ (subscriber base σ).toList) σ' := by
  rcases h with ⟨top, rest, hst, hxs⟩ | ⟨hst, -⟩
  · by_cases htop : top = []
    · subst htop
      obtain ⟨g, rfl, rfl⟩ := step_fan hst hc
      cases rest with
      | nil =>
        rw [subscriber_end hst]
        exact .inr ⟨rfl, by simpa using hxs⟩
      | cons x rest =>
        rw [subscriber_eq hst]
        have hgo : Goes σ.world (.fan e sync rest prev :: base)
            (fanTurn σ.world e sync prev g base (x :: rest)) := goes_subscriber e sync prev x rest
        obtain ⟨put, hput⟩ := hgo.stack
        exact .inl ⟨put, rest, hput, by simpa using hxs⟩
    · rw [subscriber_above htop hst]
      have hkeep := step_stack hc
      rw [hst] at hkeep
      obtain ⟨top', htop'⟩ := hkeep.keep htop rfl
      exact .inl ⟨top', rest, htop', by simpa using hxs⟩
  · -- the walk is over, and `base` is shorter than what it was on
    obtain ⟨top, rest, hst'⟩ := hin
    rw [hst] at hst'
    have hlen := congrArg List.length hst'
    rw [List.length_append, List.length_cons] at hlen
    omega

theorem Emitting.draining {t : TagId} (h : Reachable t σ) (hin : Emitting e sync prev base σ) :
    σ.world.draining = true := by
  obtain ⟨top, rest, hst⟩ := hin
  exact h.draining (hst ▸ List.mem_append_right _ List.mem_cons_self) rfl

end

def emits (e : EventId) (sync prev : Bool) (base : List CFrame) (σ : Sys) (_ : Choice) : Bool :=
  match σ.stack.drop (σ.stack.length - (base.length + 1)) with
  | .fan e' sync' _ prev' :: st => e' = e && sync' = sync && prev' = prev && st = base
  | _ => false

def installsAndEmits : List Choice :=
  let g : Grant := ⟨.spawned, true, true, false⟩
  [.hostCall 0 g, .instr (.install .atSync (some 0) true false true) g, .instr (.emits 0) g]

def emission : Sys := (runAll (fun _ _ => true) (boot 0) installsAndEmits).getD (boot 0)

/-- The mode of a watcher and the closures it has are fixed when it is installed, and one that has been
disarmed is never armed again: over any run, whatever the scripts do. -/
theorem watchers_keep {P : Sys → Choice → Bool} (h : Runs P σ₀ σ) :
    σ₀.world.nwatchers ≤ σ.world.nwatchers ∧
      ∀ x < σ₀.world.nwatchers, (σ₀.world.watcher x).Keeps (σ.world.watcher x) := by
  induction h with
  | refl => exact ⟨Nat.le_refl _, fun x _ => .refl _⟩
  | step _ c _ hstep ih =>
    have hg := (step_stack hstep).grows
    exact ⟨ih.1.trans hg.nwatchers, fun x hx => (ih.2 x hx).trans (hg.keeps x (hx.trans_le ih.1))⟩

theorem watchers_keep_emission :
    ∃ σ, Runs (fun _ _ => true) emission σ ∧ 0 < emission.world.nwatchers ∧
      (emission.world.watcher 0).Keeps (σ.world.watcher 0) := by
  obtain ⟨σ, hσ⟩ : ∃ σ, runAll (fun _ _ => true) emission
      [.next ⟨.spawned, true, true, false⟩, .instr (.ret true) ⟨.spawned, true, true, false⟩] = some σ := ⟨_, rfl⟩
  have hr := Runs.refl.of_runAll hσ
  exact ⟨σ, hr, by decide, (watchers_keep hr).2 0 (by decide)⟩

end Sys

end Urbi.Sched
