import Urbi.Rt.Park
import Urbi.Rt.Outward

/-!
# Gates and cancelled strands

A stop clears the gate bits of the strand it marks and wakes it.  A later gate, a scope left on the
way or a wait in a finally body can park it again; otherwise a cancelled strand is never parked.
-/

namespace Urbi

variable {L : CodeBase}

/-! ## Outstanding stops and gate bits in the control part -/

def Ctl.Outstanding (κ : Ctl L) : Prop :=
  κ.unwind = .stop ∨ ∃ m ∈ κ.cleanup, m.savedUnwind = .stop

theorem Config.outstanding_iff {c : Config L} :
    c.outstanding = true ↔ c.strand.ctl.Outstanding := by
  simp only [Config.outstanding, Bool.or_eq_true, List.any_eq_true, decide_eq_true_eq]
  rfl

section Own

variable {flags : Nat → UInt8} {p q : Pos L} {κ κ' : Ctl L} {n : Note}

theorem did_outstanding (hdid : Did flags p κ n q κ') (h : κ'.Outstanding) : κ.Outstanding := by
  rcases h with hu' | ⟨m, hm, hsus⟩
  · by_cases hu : κ.unwind = .stop
    · exact .inl hu
    · obtain ⟨mark, rest, hc, hsv, -⟩ := did_restart hdid hu hu'
      exact .inr ⟨mark, by rw [hc]; exact .head _, hsv⟩
  · rcases did_stack hdid with hs | ⟨d, rest, hc, hs, -, hd⟩
    · exact .inr ⟨m, hs.subset hm, hsus⟩
    · rw [hc] at hm
      rcases List.mem_cons.mp hm with rfl | hm
      · rcases hd with hd | ⟨-, hu, -⟩
        · cases hd.symm.trans hsus
        · exact .inl (hu.symm.trans hsus)
      · exact .inr ⟨m, hs.subset hm, hsus⟩

inductive Recomputes : Pos L → Prop
  | tagPop : Recomputes (.code .tagPop)
  | leaveJump : Recomputes (.code .leaveJump)
  | leave (top : UCleanup L) : Recomputes (.code (.leave top))

theorem did_gates (hdid : Did flags p κ n q κ') :
    κ'.gates = κ.gates ∨ (∃ t, p = .code (.tagEnter t) ∧ κ'.gates = κ.gates ||| flags t) ∨
      (Recomputes p ∧ κ'.gates = κ.gateBits flags ∧ κ'.cleanup = κ.cleanup ∧ κ'.tag = κ.tag ∧
        (∀ top, p = .code (.leave top) → κ'.unwind = .none)) := by
  cases hdid with
  | entered _ => exact .inr (.inl ⟨_, rfl, rfl⟩)
  | left _ => exact .inr (.inr ⟨.tagPop, rfl, rfl, rfl, fun _ h => by cases h⟩)
  | leftJump => exact .inr (.inr ⟨.leaveJump, rfl, rfl, rfl, fun _ h => by cases h⟩)
  | landed _ _ => exact .inr (.inr ⟨.leave _, rfl, rfl, rfl, fun _ _ => rfl⟩)
  | _ => exact .inl rfl

theorem or_foldl_zero {flags : Nat → UInt8} {ts : List Nat} (h : ∀ t ∈ ts, flags t = 0) (g : UInt8) :
    ts.foldl (fun g t => g ||| flags t) g = g := by
  induction ts generalizing g with
  | nil => rfl
  | cons t ts ih =>
    rw [List.foldl_cons, h t (.head _), UInt8.or_zero]
    exact ih (fun t ht => h t (.tail _ ht)) g

def Ctl.clear (κ : Ctl L) (flags : Nat → UInt8) : Bool := κ.coveringTags.all fun t => flags t = 0

theorem Ctl.gateBits_of_clear (h : κ.clear flags = true) : κ.gateBits flags = 0 := by
  refine or_foldl_zero (fun t ht => ?_) 0
  exact of_decide_eq_true (List.all_eq_true.mp h t ht)

end Own

namespace Config

/-- A native parks the strand, or it waits for a child or a condition, or enters the scope of a
gated tag. -/
def waits (c : Config L) : Move L → Bool
  | .park _ => true
  | .exec o =>
    match nextArm c o with
    | some (s, _, .joinWait false) => s.mayDeschedule
    | _ => false
  | .finish v o =>
    match c.acts with
    | .out .waituntil _ :: _ => !v.truthy && c.strand.mayDeschedule && o.grant 0
    | .out (.tagEnter t) _ :: _ => c.flags t ≠ 0
    | _ => false
  | _ => false

/-- A gate is raised on a tag covering the strand, or the bits are recomputed while such a tag
carries a flag. -/
def regates (c : Config L) : Move L → Bool
  | .gateOn t _ _ => c.strand.covers t
  | .gateOff t bit _ =>
    c.strand.covers t && !c.strand.ctl.clear (Function.update c.flags t (c.flags t &&& ~~~bit))
  | .finish _ _ =>
    match c.acts with
    | .out .tagPop _ :: _ | .out .leaveJump _ :: _ => !c.strand.ctl.clear c.flags
    | .out (.leave _) _ :: _ =>
      (c.strand.cleanup.any fun m => m.savedUnwind = .stop) && !c.strand.ctl.clear c.flags
    | _ => false
  | _ => false

/-- A cancelled strand does not wait and is not gated again; a strand that stops itself holds no
gate and is not parked; a parked one is not called back into. -/
def ungated (c : Config L) (m : Move L) : Bool :=
  (!(c.outstanding || (marks c.strand m).isSome) || !(waits c m || regates c m)) &&
  (match m with
    | .stop _ true | .teardown _ true =>
      (marks c.strand m).isNone || (c.strand.state ≠ .parked && c.strand.gates = 0)
    | .invoke _ _ _ _ => c.strand.state ≠ .parked
    | _ => true)

/-! ## Who parks -/

section Steps

variable {c d : Config L} {m : Move L} {s : UStrand L} {rest : List (Act L)} {flags : Nat → UInt8}
  {b e : Option Nat}

theorem perform_parked {o : Oracle L} {f : UFrame L} {a : Arm L} {after : After L}
    (h : perform s o f a = some after) (hp : after.strand.state = .parked) :
    s.state = .parked ∨ (a = .joinWait false ∧ s.mayDeschedule = true) := by
  have hkeeps := perform_keeps h
  cases after with
  | go s' | walk s' | push s' k => exact .inl (hkeeps.symm.trans hp)
  | leave s' =>
    have hp : s'.state = .parked := hp
    cases a with
    | ret v =>
      have hret := s.completeReturn_state v
      simp only [perform, afterRet] at h
      split at h
      · cases h
      · split at h <;> cases h
        exact absurd hp (hret.2 ‹_›)
    | call a b c =>
      simp only [perform, afterCall] at h
      split at h
      · cases h
      · cases h
      · rename_i s'' hcall
        obtain ⟨g, stack, cap, -, -, rfl⟩ := doCall_eq hcall
        split at h <;> cases h
        exact .inl hp
    | joinWait finished =>
      simp only [perform] at h
      split at h
      · cases h
      · rename_i hfin
        rw [Bool.not_eq_true] at hfin
        split at h
        · exact .inr ⟨congrArg _ hfin, (UStrand.park_eq ‹_›).1⟩
        · cases h
    | _ =>
      -- the other arms stay in the loop
      simp only [perform, afterPop, afterResume] at h
      repeat' split at h
      all_goals cases h

theorem finishArm_waits {k : Cont L} {failed : Bool} {acts : List (Act L)} {o : Oracle L}
    {v : UValue L} (hp : (finishArm s flags o v k).strand.state = .parked) :
    s.state = .parked ∨ waits ⟨s, .out k failed :: acts, flags⟩ (.finish v o) = true := by
  have hkeeps := finishArm_keeps s flags o v k
  cases k with
  | waituntil =>
    unfold finishArm at hp hkeeps
    dsimp only at hp hkeeps
    split at hp
    · exact .inl hp
    · rename_i hcond
      rw [Bool.not_eq_true, Bool.or_eq_false_iff, Bool.not_eq_false'] at hcond
      split at hp
      · exact .inl hp
      · rename_i hgrant
        rw [Bool.not_eq_true, Bool.not_eq_false'] at hgrant
        exact .inr (by simp [waits, hcond.1, hcond.2, hgrant])
  | tagEnter t =>
    by_cases hf : flags t = 0
    · simp only [finishArm, hf, if_pos] at hp
      exact .inl hp
    · exact .inr (by simp [waits, hf])
  | yield =>
    unfold finishArm at hp
    dsimp only at hp
    split at hp
    · exact .inl hp
    · cases hp
  | native fi dst =>
    unfold finishArm at hp
    dsimp only at hp
    split at hp
    · exact .inl hp
    · exact .inl hp
  | eq want | less _ want _ _ => exact .inl (hkeeps.symm.trans hp)
  | getslot dst self => cases self <;> exact .inl hp
  | _ => exact .inl hp

theorem gates_of_enqueue (hst : s.state = .ready) (hp : s.enqueue.state = .parked) :
    s.gates ≠ 0 := by
  intro hg
  rw [UStrand.enqueue, if_neg (by rw [hst]; decide), if_neg (not_not.mpr hg)] at hp
  cases hp

theorem parked_of_step (hs : Unparked c.acts) (hm : fromOutside m = false)
    (hd : c.step m = some d) (hp : d.strand.state = .parked) :
    c.strand.state = .parked ∨ waits c m = true ∨ c.strand.gates ≠ 0 := by
  cases stepTo_of_step hd with
  | dispatch budget _ => cases (enterRun_running _ _ _ _).symm.trans hp
  | requeue hst =>
    exact .inr (.inr (gates_of_enqueue hst hp))
  | outside hout _ => cases (outside_eq_none hm).symm.trans hout
  | walk o => exact .inl (walkStep_parked (UStrand.turn_keeps _ o) hs.tail hp)
  | die o _ => cases leaveRun_parked hs.tail hp
  | exec o hfetch ha hnone hperform =>
    have hp := settle_parked hs.tail hp
    rcases perform_parked hperform hp with hp | ⟨rfl, hmay⟩
    · exact .inl ((UStrand.setPc_state _ _).symm.trans hp)
    · exact .inr (.inl (by simp only [waits, nextArm_eq hfetch ha hnone, hmay]))
  | returns v o => exact .inl hp
  | leftJump v o =>
    exact .inl (walkStep_parked (t := UStrand.afterLeaveJump _ _) rfl
      hs.tail.tail hp)
  | left v o =>
    exact .inl (walkStep_parked (UStrand.afterLeave_keeps _ _ _)
      hs.tail.tail hp)
  | finish v o hne hl =>
    have hp := settle_parked hs.tail.tail hp
    rcases finishArm_waits hp with hp | hw
    · exact .inl hp
    · exact .inr (.inl hw)
  | fail hfails hout =>
    rw [failOut_strand hout] at hp
    exact .inl (hfails.state.1.symm.trans hp)
  | invoke cl recv args o hmay => exact .inl (invoke_parked hp)
  | park want slot _ _ => exact .inr (.inl rfl)

/-! ## The invariant -/

structure Uncaged (c : Config L) : Prop where
  free : c.strand.ctl.Outstanding → c.strand.state ≠ .parked ∧ c.strand.gates = 0
  saved : Unparked c.acts

theorem ungated_of_outstanding (hq : ungated c m = true)
    (ho : c.strand.ctl.Outstanding) : waits c m = false ∧ regates c m = false := by
  simp only [ungated, outstanding_iff.mpr ho, Bool.true_or, Bool.not_true, Bool.false_or,
    Bool.and_eq_true, Bool.not_eq_true', Bool.or_eq_false_iff] at hq
  exact hq.1

theorem moved_uncaged {J : Judgement L} (hg : Good J c) (hk : CallsOk c.acts)
    (hm : fromOutside m = false) (hq : ungated c m = true) (h : Uncaged c)
    (hd : c.step m = some d) (ho : d.strand.ctl.Outstanding) :
    d.strand.state ≠ .parked ∧ d.strand.gates = 0 := by
  obtain ⟨n, hmoved⟩ := moved_of_step hg hk hm hd
  have ho' := did_outstanding hmoved.did ho
  obtain ⟨hst, hgates⟩ := h.free ho'
  obtain ⟨hwait, hregate⟩ := ungated_of_outstanding hq ho'
  refine ⟨fun hp => ?_, ?_⟩
  · rcases parked_of_step h.saved hm hd hp with hp | hw | hg
    · exact hst hp
    · cases hwait.symm.trans hw
    · exact hg hgates
  · rcases did_gates hmoved.did with hsame | ⟨t, hp, hor⟩ | ⟨hre, hbits, hclean, -, hserved⟩
    · exact hsame.trans hgates
    · obtain ⟨v, o, rest, rfl, hacts⟩ := finish_of_crossing rfl hp hm hd
      have hflag : c.flags t = 0 := by
        simp only [waits, hacts] at hwait
        simpa using hwait
      have hor : d.strand.gates = c.strand.gates ||| c.flags t := hor
      rw [hor, hgates, hflag]
      rfl
    · -- the tags that are left carry no flag
      refine hbits.trans (Ctl.gateBits_of_clear ?_)
      generalize hpos : posOf c.acts = p at hre
      cases hre with
      | tagPop | leaveJump =>
        obtain ⟨v, o, rest, rfl, hacts⟩ := finish_of_crossing rfl hpos hm hd
        simpa [regates, hacts] using hregate
      | leave top =>
        obtain ⟨v, o, rest, rfl, hacts⟩ := finish_of_crossing rfl hpos hm hd
        -- the stop served here is over; another one is suspended
        rcases ho with hu | ⟨mark, hmark, hsus⟩
        · cases (hserved top hpos).symm.trans hu
        · have hany : (c.strand.cleanup.any fun m => m.savedUnwind = .stop) = true := by
            rw [hclean] at hmark
            rw [List.any_eq_true]
            exact ⟨mark, hmark, decide_eq_true hsus⟩
          simpa [regates, hacts, hany] using hregate

theorem outside_uncaged {native : Bool} {m : Move L}
    (hout : outside c.strand c.flags native m = some (d.strand, d.flags))
    (hq : ungated c m = true) (h : Uncaged c) (ho : d.strand.ctl.Outstanding) :
    d.strand.state ≠ .parked ∧ d.strand.gates = 0 := by
  have hold : marks c.strand m = none →
      (c.strand.state ≠ .parked ∧ c.strand.gates = 0) ∧ regates c m = false := by
    intro hmark
    have hunwind := (outside_unmarked hout hmark).1
    have hclean : d.strand.ctl.cleanup = c.strand.ctl.cleanup := (outside_disturbed hout).cleanup
    have ho' : c.strand.ctl.Outstanding := by
      rcases ho with hu | ⟨mark, hm, hsus⟩
      · exact .inl (hunwind.symm.trans hu)
      · rw [hclean] at hm
        exact .inr ⟨mark, hm, hsus⟩
    exact ⟨h.free ho', (ungated_of_outstanding hq ho').2⟩
  obtain ⟨s', acts', flags'⟩ := d
  cases met_of_outside hout with
  | missed _ hmark => exact (hold hmark).1
  | self hc hm _ =>
    cases m with
    | stop t current | teardown root current =>
      cases hc
      simpa [hm] using (Bool.and_eq_true_iff.mp hq).2
    | _ => cases hc
  | other =>
    refine ⟨?_, rfl⟩
    dsimp only
    split
    · nofun
    · assumption
  | gateOn _ hcov _ => cases hcov.symm.trans (hold rfl).2
  | gateOff _ hcov hst =>
    obtain ⟨⟨hne, -⟩, hregate⟩ := hold rfl
    refine ⟨hst.elim (fun h => h ▸ hne) fun h => absurd h hne, ?_⟩
    exact Ctl.gateBits_of_clear (κ := c.strand.ctl) (by simpa [regates, hcov] using hregate)
  | apartOn | apartOff | awake => exact (hold rfl).1
  | wake hp _ => exact absurd hp (hold rfl).1.1

theorem step_uncaged {J : Judgement L} (hg : Good J c) (hk : CallsOk c.acts)
    (hq : ungated c m = true) (h : Uncaged c) (hd : c.step m = some d) : Uncaged d := by
  refine ⟨fun ho => ?_, step_saved h.saved ?_ hd⟩
  · cases hm : fromOutside m with
    | true =>
      obtain ⟨native, hout, -⟩ := outside_of_step hm hd
      exact outside_uncaged hout hq h ho
    | false => exact moved_uncaged hg hk hm hq h hd ho
  · rintro cl recv args o rfl
    simpa [ungated] using (Bool.and_eq_true_iff.mp hq).2

theorem initial_uncaged (hc : Initial c) : Uncaged c := by
  obtain ⟨hacts, hclean, hu⟩ := hc.atRest
  refine ⟨fun ho => ?_, fun st hst => absurd hst (by rcases hacts with h | h <;> simp [h])⟩
  rcases ho with ho | ⟨m, hm, -⟩
  · cases hu.symm.trans ho
  · have hm : m ∈ c.strand.cleanup := hm
    rw [hclean] at hm
    cases hm

/-- A gate never holds a cancelled strand: in a run where a strand with a stop outstanding is not
gated again and does not wait for anything, such a strand is never parked. -/
theorem cancelled_strand_not_parked {ms : List (Move L)} (hc : Initial c)
    (hr : RunIf ungated c ms d) (ho : d.outstanding = true) : d.strand.state ≠ .parked := by
  have hall : Uncaged d := by
    clear ho
    induction hr with
    | nil => exact initial_uncaged hc
    | snoc m hr hq hstep ih =>
      have hg := reachable_good (T := anyTyping L) hc hr.run
      exact step_uncaged hg (run_callsOk hc hr.run) hq ih hstep
  exact (hall.free (outstanding_iff.mp ho)).1

end Steps

end Config

def yieldInTag : List (Move L) := stopAtYield.take 5

theorem cancelled_strand_not_parked_taggedOnce :
    ∃ (c d : Config (codeOf taggedOnce)), strandOf taggedOnce [.tag 7] = some c ∧
      c.Run (yieldInTag ++ [.gateOn 7 1 false, .stop 7 false]) d ∧ d.outstanding = true ∧
      d.flags 7 = 1 ∧ d.strand.state ≠ .parked := by
  have hrun : ∃ c d : Config (codeOf taggedOnce), strandOf taggedOnce [.tag 7] = some c ∧
      c.stepsIf Config.ungated (yieldInTag ++ [.gateOn 7 1 false, .stop 7 false]) = some d ∧
      d.outstanding = true ∧ d.flags 7 = 1 := ⟨_, _, rfl, rfl, rfl, rfl⟩
  obtain ⟨c, d, hc, hd, ho, hf⟩ := hrun
  have hr := Config.runIf_of_stepsIf hd
  exact ⟨c, d, hc, hr.run, ho, hf,
    Config.cancelled_strand_not_parked (Config.uschedSpawn_initial hc) hr ho⟩

/-- The tag is blocked after it was stopped, and the strand parks with the stop still pending. -/
theorem gate_holds_cancelled_strand :
    ∃ (c d e : Config (codeOf taggedOnce)), strandOf taggedOnce [.tag 7] = some c ∧
      c.Run (yieldInTag ++ [.stop 7 false]) d ∧ d.strand.stopping (some 7) = true ∧
      d.strand.covers 7 = true ∧ d.step (.gateOn 7 1 false) = some e ∧
      e.strand.stopping (some 7) = true ∧ e.strand.state = .parked ∧
      ∀ budget, e.step (.dispatch budget) = none :=
  ⟨_, _, _, rfl, Config.run_of_steps rfl, rfl, rfl, rfl, rfl, rfl, fun _ => rfl⟩

end Urbi
