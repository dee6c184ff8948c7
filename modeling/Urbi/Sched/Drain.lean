import Urbi.Sched.Firing

/-!
# Drains

`uwatch_drain` clears the dirty count before its walk.  A spawn that is refused marks the set dirty
again; a refused spare strand does not: a condition that gets none to be evaluated on, and an inline
closure that gets none to run on, or whose call is refused, are forgotten.
-/

namespace Urbi.Sched

variable {rest : List WatcherId} {c : Choice} {s : StrandId}

namespace Sys

open World

def Draining (base : List CFrame) (σ : Sys) : Prop :=
  ∃ top rest, σ.stack = top ++ .drain rest :: base

def Taken.Answers (base : List CFrame) (x : WatcherId) (p : Taken) : Prop :=
  ∃ s now rest g, p.before.stack = .got s (.cond x) (some now) :: .drain rest :: base ∧
    p.choice = .next g ∧
    Acts (p.before.world.note (.found x now)) x now g (.drain rest :: base) p.after

def Taken.grants (base : List CFrame) (x : WatcherId) (p : Taken) : Bool :=
  let r := p.before.world.watcher x
  match p.before.stack, p.choice with
  | .drain (y :: _) :: st, .next g => !(y = x && st = base && r.armed && r.cond) || g.spare
  | .got _ (.cond y) (some now) :: .drain _ :: st, .next g =>
    !(y = x && st = base && r.armed && r.answersInline now) || g.inline
  | _, _ => true

def Settled (base : List CFrame) (x : WatcherId) (l : List Taken) (σ : Sys) : Prop :=
  (σ.world.watcher x).armed = false ∨ σ.world.ndirty ≠ 0 ∨ ∃ p ∈ l, p.Answers base x

inductive Stage (base : List CFrame) (x : WatcherId) (l : List Taken) (σ : Sys) : Prop
  | walking {top : List CFrame} {rest : List WatcherId} (hst : σ.stack = top ++ .drain rest :: base)
      (hx : x ∈ rest ∨ Settled base x l σ)
  | evaluating {top : List CFrame} {s : StrandId} {saved : Option UStrandState}
      {rest : List WatcherId}
      (hst : σ.stack = top ++ .call s saved (.cond x) :: .drain rest :: base)
  | found {s : StrandId} {v : Option Bool} {rest : List WatcherId}
      (hst : σ.stack = .got s (.cond x) v :: .drain rest :: base)
  | ended (hst : σ.stack = base) (hx : Settled base x l σ)

section

variable {w : World} {x : WatcherId} {g : Grant} {base st : List CFrame} {l : List Taken}
  {σ σ' : Sys} {t : TagId}

theorem sweep_ndirty (w : World) : (sweep w).ndirty = w.ndirty := by
  have hone : ∀ w y, (sweepOne w y).ndirty = w.ndirty := by
    intro w y
    unfold sweepOne
    split <;> rfl
  have hfold : ∀ (xs : List WatcherId) w, (xs.foldl sweepOne w).ndirty = w.ndirty := by
    intro xs
    induction xs with
    | nil => exact fun w => rfl
    | cons y ys ih => exact fun w => (ih (sweepOne w y)).trans (hone w y)
  unfold sweep
  split
  · rfl
  · exact hfold _ w

theorem step_drain (h : σ.stack = .drain rest :: st) (hc : σ.step c = some σ') :
    ∃ g, c = .next g ∧ σ' = drainTurn σ.world g st rest := by
  obtain ⟨w, stack⟩ := σ
  subst h
  cases c with
  | next g =>
    cases hc
    exact ⟨g, rfl, rfl⟩
  | instr | fire | prim | emit | callback | hostCall | step | raise | back => cases hc

theorem step_found {v : Option Bool} (h : σ.stack = .got s (.cond x) v :: st)
    (hc : σ.step c = some σ') :
    ∃ g, c = .next g ∧ gotTurn σ.world s v g st (.cond x) = some σ' := by
  obtain ⟨w, stack⟩ := σ
  subst h
  cases c with
  | next g => exact ⟨g, rfl, hc⟩
  | instr | fire | prim | emit | callback | hostCall | step | raise | back => cases hc

theorem step_call {saved : Option UStrandState} {p : Purpose}
    (h : σ.stack = .call s saved p :: st) : σ.step c = none := by
  obtain ⟨w, stack⟩ := σ
  subst h
  cases c <;> rfl

theorem Draining.draining (h : Reachable t σ) (hin : Draining base σ) :
    σ.world.draining = true := by
  obtain ⟨top, rest, hst⟩ := hin
  exact h.draining (hst ▸ List.mem_append_right _ List.mem_cons_self) rfl

theorem Settled.mono {l' : List Taken} (h : Settled base x l σ) (hx : x < σ.world.nwatchers)
    (hg : Grows σ.world σ'.world) (hdirty : σ.world.ndirty ≠ 0 → σ'.world.ndirty ≠ 0)
    (hl : ∀ p ∈ l, p ∈ l') : Settled base x l' σ' := by
  rcases h with harmed | hn | ⟨p, hp, hans⟩
  · refine .inl (Bool.eq_false_iff.mpr fun h => ?_)
    rw [(hg.keeps x hx).armed h] at harmed
    cases harmed
  · exact .inr (.inl (hdirty hn))
  · exact .inr (.inr ⟨p, hl p hp, hans⟩)

theorem Stage.step_walking {top : List CFrame} (hst : σ.stack = top ++ .drain rest :: base)
    (h : x ∈ rest ∨ Settled base x l σ) (hr : Reachable t σ) (hx : x < σ.world.nwatchers)
    (hcond : (σ.world.watcher x).cond = true) (hc : σ.step c = some σ')
    (hgrant : Taken.grants base x ⟨σ, c, σ'⟩ = true) : Stage base x (l ++ [⟨σ, c, σ'⟩]) σ' := by
  have hg := (step_stack hc).grows
  have hd : σ.world.draining = true := Draining.draining hr ⟨top, rest, hst⟩
  -- what was settled is still so while the walk is in progress
  have hstays : ∀ {top' rest'}, σ'.stack = top' ++ .drain rest' :: base → Settled base x l σ →
      Settled base x (l ++ [⟨σ, c, σ'⟩]) σ' := by
    intro top' rest' hst' hs
    have hd' : σ'.world.draining = true := Draining.draining (.step hr c rfl hc) ⟨top', rest', hst'⟩
    exact hs.mono hx hg (hg.ndirty ⟨hd, hd'⟩) fun p hp => List.mem_append_left _ hp
  by_cases htop : top = []
  · subst htop
    obtain ⟨g, rfl, rfl⟩ := step_drain hst hc
    cases rest with
    | nil =>
      refine .ended rfl ((h.resolve_left List.not_mem_nil).mono hx hg ?_
        fun p hp => List.mem_append_left _ hp)
      intro hn
      exact (sweep_ndirty _).symm ▸ hn
    | cons y rest =>
      have hgo : Goes σ.world (.drain rest :: base) (drainTurn σ.world g base (y :: rest)) :=
        goes_visit y rest
      obtain ⟨put, hput⟩ := hgo.stack
      by_cases hy : y = x
      · subst hy
        cases harmed : (σ.world.watcher y).armed with
        | false =>
          have hkeeps := (hg.keeps y hx).armed
          refine .walking hput (.inr (.inl (Bool.eq_false_iff.mpr fun h => ?_)))
          rw [harmed] at hkeeps
          cases hkeeps h
        | true =>
          have hspare : g.spare = true := by
            unfold Taken.grants at hgrant
            rw [hst] at hgrant
            simpa [harmed, hcond] using hgrant
          obtain ⟨f, saved, hcall, -, -⟩ := onSpare_stack σ.world y (.cond y) g (.drain rest :: base)
          have hst' : (drainTurn σ.world g base (y :: rest)).stack =
              [f] ++ .call σ.world.sched.nstrands saved (.cond y) :: .drain rest :: base := by
            unfold drainTurn
            dsimp only
            rw [harmed, hcond, hspare]
            exact hcall
          exact .evaluating hst'
      · refine .walking hput (h.imp (fun h => ?_) (hstays hput))
        exact (List.mem_cons.mp h).resolve_left (Ne.symm hy)
  · have hkeep := step_stack hc
    rw [hst] at hkeep
    obtain ⟨top', hst'⟩ := hkeep.keep htop rfl
    exact .walking hst' (h.imp_right (hstays hst'))

theorem Stage.step_found {v : Option Bool}
    (hst : σ.stack = .got s (.cond x) v :: .drain rest :: base) (hc : σ.step c = some σ')
    (hgrant : Taken.grants base x ⟨σ, c, σ'⟩ = true) : Stage base x (l ++ [⟨σ, c, σ'⟩]) σ' := by
  obtain ⟨g, rfl, hgot⟩ := Sys.step_found hst hc
  cases v with
  | none =>
    cases hgot
    have hst' : CFrame.drain rest :: base = [] ++ .drain rest :: base := rfl
    refine .walking hst' (.inr (.inl ?_))
    dsimp only
    rw [setWatcher_self]
  | some now =>
    cases hgot
    obtain ⟨put, hput⟩ := (goes_edge (σ.world.note (.found x now)) x now g (.drain rest :: base)).stack
    refine .walking hput (.inr ?_)
    cases harmed : (σ.world.watcher x).armed with
    | false =>
      -- cancelled while the condition ran
      left
      have hnote : ((σ.world.note (.found x now)).watcher x).armed = false := harmed
      unfold edge
      rw [if_pos (by rw [hnote]; exact Bool.false_ne_true)]
      exact hnote
    | true =>
      right; right
      refine ⟨_, List.mem_append_right _ List.mem_cons_self, s, now, rest, g, hst, rfl, ?_⟩
      refine acts_edge harmed fun hin => ?_
      unfold Taken.grants at hgrant
      rw [hst] at hgrant
      have hin' : (σ.world.watcher x).answersInline now = true := hin
      simpa [harmed, hin'] using hgrant

theorem Stage.step (h : Stage base x l σ) (hin : Draining base σ) (hr : Reachable t σ)
    (hx : x < σ.world.nwatchers) (hcond : (σ.world.watcher x).cond = true)
    (hc : σ.step c = some σ') (hgrant : Taken.grants base x ⟨σ, c, σ'⟩ = true) :
    Stage base x (l ++ [⟨σ, c, σ'⟩]) σ' := by
  cases h with
  | walking hst h => exact step_walking hst h hr hx hcond hc hgrant
  | @evaluating top s saved rest hst =>
    by_cases htop : top = []
    · subst htop
      rw [step_call hst] at hc
      cases hc
    · have hkeep := step_stack hc
      rw [hst] at hkeep
      rcases hkeep.keep_call htop with ⟨top', hst'⟩ | ⟨s', v, hst'⟩
      · exact .evaluating hst'
      · exact .found hst'
  | found hst => exact step_found hst hc hgrant
  | ended hst =>
    obtain ⟨top, rest, hst'⟩ := hin
    have hlen := congrArg List.length (hst.symm.trans hst')
    rw [List.length_append, List.length_cons] at hlen
    omega

theorem Stretch.stage {σ₀ : Sys} (h₀ : Reachable t σ₀) (hbegin : σ₀.stack = .drain σ₀.world.all :: base)
    (hx : x ∈ σ₀.world.all) (hcond : (σ₀.world.watcher x).cond = true)
    (h : Stretch (Draining base) σ₀ l σ) (hgrant : ∀ p ∈ l, p.grants base x = true) :
    Stage base x l σ ∧ x < σ.world.nwatchers ∧ (σ.world.watcher x).cond = true := by
  induction h with
  | start =>
    have hst : σ₀.stack = [] ++ .drain σ₀.world.all :: base := hbegin
    exact ⟨.walking hst (.inl hx), h₀.ordered.all.2 x hx, hcond⟩
  | step h hin hc ih =>
    obtain ⟨hstage, hlt, hcond⟩ := ih fun p hp => hgrant p (List.mem_append_left _ hp)
    have hg := (step_stack hc).grows
    refine ⟨hstage.step hin (h.reachable h₀) hlt hcond hc
      (hgrant _ (List.mem_append_right _ List.mem_cons_self)),
      Nat.lt_of_lt_of_le hlt hg.nwatchers, ?_⟩
    rw [(hg.keeps x hlt).cond]
    exact hcond

end

def drains (base : List CFrame) (σ : Sys) (_ : Choice) : Bool :=
  match σ.stack.drop (σ.stack.length - (base.length + 1)) with
  | .drain _ :: st => st = base
  | _ => false

end Sys

end Urbi.Sched
