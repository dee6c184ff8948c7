import Urbi.Rt.Control

/-!
# Parked strands

Parking only sets the strand's state.  The arms of `CALL`, `JOIN_WAIT`, `INSTALL` and `SCOPE_TAG` look
at it when their C code is done; a strand parked by a native that an operator or a slot reached runs
on.
-/

namespace Urbi

variable {L : CodeBase} {s' : UStrand L}

namespace UStrand

/-! ## What leaves the state alone -/

@[simp] theorem setReg_state (s : UStrand L) (i : Nat) (v : UValue L) :
    (s.setReg i v).state = s.state := rfl

@[simp] theorem setRegs_state (s : UStrand L) (base : Nat) (ws : List (Nat × UValue L)) :
    (s.setRegs base ws).state = s.state := by
  obtain ⟨stack, h⟩ := s.setRegs_eq base ws
  rw [h]

@[simp] theorem setPc_state (s : UStrand L) (pc : Nat) : (s.setPc pc).state = s.state := by
  unfold setPc
  split <;> rfl

@[simp] theorem popFrame_state (s : UStrand L) : s.popFrame.state = s.state := by
  unfold popFrame
  split <;> rfl

theorem pushCleanup_state {s : UStrand L} {grant : Bool} {d : UCleanup L}
    (h : s.pushCleanup grant d = some s') : s'.state = s.state := by
  obtain ⟨cap, rfl⟩ := pushCleanup_eq h
  rfl

theorem completeReturn_state (s : UStrand L) (v : UValue L) :
    ((s.completeReturn v).2 = false → (s.completeReturn v).1.state = s.state) ∧
      ((s.completeReturn v).2 = true → (s.completeReturn v).1.state ≠ .parked) := by
  unfold completeReturn
  split
  · exact ⟨nofun, fun _ => nofun⟩
  · dsimp only
    split
    · exact ⟨nofun, fun _ => nofun⟩
    · split
      · exact ⟨nofun, fun _ => nofun⟩
      · refine ⟨fun _ => ?_, nofun⟩
        rw [setReg_state, popFrame_state]

/-! ## Turns of the walker -/

def Turn.KeepsState (s : UStrand L) : Turn L → Prop
  | .landed s' | .again s' | .leavingJump s' _ | .leaving s' _ => s'.state = s.state
  | .left s' => s'.state ≠ .parked

section

variable {s s₀ : UStrand L} (h : s.state = s₀.state) (top : UCleanup L)
include h

theorem runFinally_keeps (grant : Bool) (pc : Nat) {other : UStrand L}
    (ho : other.state = s₀.state) : (s.runFinally grant top pc other).KeepsState s₀ := by
  unfold runFinally
  split
  · exact ho
  · rename_i s' hpush
    show (setPc _ _).state = _
    rw [setPc_state]
    exact (pushCleanup_state hpush).trans h

theorem turnJump_keeps (grant : Bool) : (s.turnJump grant top).KeepsState s₀ := by
  unfold turnJump
  split
  · exact h
  · split
    · exact runFinally_keeps h top grant _ h
    · exact h

theorem turnPop_keeps (grant : Bool) : (s.turnPop grant top).KeepsState s₀ := by
  unfold turnPop
  split
  · exact h
  · split
    · exact h
    · split
      · exact runFinally_keeps h top grant _ h
      · split
        · exact (setPc_state _ _).trans h
        · exact h

theorem turnFatal_keeps : (s.turnFatal top).KeepsState s₀ := by
  unfold turnFatal
  split <;> exact h

end

theorem turnFrame_keeps (s : UStrand L) (o : Oracle L) (f : UFrame L) :
    (s.turnFrame o f).KeepsState s := by
  unfold turnFrame
  split
  · rfl
  · have hret := completeReturn_state { s with unwind := .none, transfer := .nil } s.transfer
    dsimp only
    split
    · exact hret.2 ‹_›
    · exact hret.1 (Bool.eq_false_iff.mpr ‹_›)
  · split
    · exact nofun
    · exact popFrame_state s

theorem turn_keeps (s : UStrand L) (o : Oracle L) : (s.turn o).KeepsState s := by
  unfold turn
  split
  · rfl
  · split
    · exact nofun
    · split
      · exact setPc_state _ _
      · split
        · split
          · dsimp only
            split
            · exact turnFatal_keeps rfl _
            · exact turnJump_keeps rfl _ _
            · exact turnPop_keeps rfl _ _
          · exact turnFrame_keeps s o _
        · exact turnFrame_keeps s o _

theorem afterLeave_keeps (s : UStrand L) (flags : Nat → UInt8) (top : UCleanup L) :
    (s.afterLeave flags top).KeepsState s := by
  unfold afterLeave
  split
  · exact setPc_state _ _
  · rfl

end UStrand

namespace Config

variable {c d : Config L} {m : Move L} {native w : Bool} {after : After L} {flags' : Nat → UInt8}
  {acts : List (Act L)} {k : Cont L}

/-! ## The condition -/

def underCall : List (Act L) → Bool
  | .out (.native _ _) _ :: _ => true
  | .out .callback _ :: rest => underCall rest
  | _ => false

def Halted (acts : List (Act L)) : Prop := acts = [] ∨ underCall acts = true

/-- Its own wait, a gate raised by its own code, a gate raised while it is queued. -/
def parks (c : Config L) : Move L → Bool
  | .park _ => true
  | .gateOn _ _ current => current || c.strand.state = .ready
  | _ => false

def goesOn : Move L → Bool
  | .raise _ | .miss _ | .fail | .invoke _ _ _ _ => true
  | _ => false

/-- Strands park only under a `CALL`, and C code whose strand is parked returns. -/
def parksUnderCall (c : Config L) (m : Move L) : Bool :=
  (!parks c m || c.acts.isEmpty || underCall c.acts) && !(c.strand.state = .parked && goesOn m)

theorem halted_of_parks (hq : parksUnderCall c m = true) (hp : parks c m = true) :
    Halted c.acts := by
  unfold parksUnderCall at hq
  rw [hp, Bool.and_eq_true, Bool.or_eq_true, Bool.or_eq_true, List.isEmpty_iff] at hq
  rcases hq.1 with (h | h) | h
  · cases h
  · exact .inl h
  · exact .inr h

theorem not_goesOn (hq : parksUnderCall c m = true) (hp : c.strand.state = .parked) :
    goesOn m = false := by
  unfold parksUnderCall at hq
  rw [hp, Bool.and_eq_true] at hq
  simpa using hq.2

def releases : Move L → Bool
  | .wake _ | .gateOff _ _ _ | .stop _ false | .teardown _ false => true
  | _ => false

def Unparked (acts : List (Act L)) : Prop := ∀ st, .call st ∈ acts → st ≠ .parked

theorem Unparked.tail {a : Act L} {rest : List (Act L)} (hs : Unparked (a :: rest)) :
    Unparked rest := fun st hst => hs st (.tail _ hst)

theorem Unparked.cons {a : Act L} {rest : List (Act L)} (ha : ∀ st, a = .call st → st ≠ .parked)
    (hs : Unparked rest) : Unparked (a :: rest) := by
  intro st hst
  rcases List.mem_cons.mp hst with hst | hst
  · exact ha st hst.symm
  · exact hs st hst

structure Halts (c : Config L) : Prop where
  halted : c.strand.state = .parked → Halted c.acts
  saved : Unparked c.acts

theorem halted_run {b e : Option Nat} {rest : List (Act L)} : ¬ Halted (.run b e w :: rest) := by
  rintro (h | h) <;> cases h

/-! ## Arms -/

/-- Nothing changes unless the arm hands the strand back, and then only a strand that may be
descheduled parks. -/
def After.KeepsState (s : UStrand L) : After L → Prop
  | .go s' | .walk s' | .push s' _ => s'.state = s.state
  | .leave s' => s'.state = .parked → s.state = .parked ∨ s.mayDeschedule = true

def After.strand : After L → UStrand L
  | .go s | .walk s | .leave s | .push s _ => s

theorem skipIf_state (s : UStrand L) (c : Bool) : (skipIf s c).state = s.state := by
  unfold skipIf
  split
  · rfl
  · exact UStrand.setPc_state _ _

section Arms

variable {s s₀ : UStrand L} {o : Oracle L} {f : UFrame L}

theorem afterPop_keeps (s : UStrand L) (o : Oracle L) (f : UFrame L) (a : Nat) :
    (afterPop s o f a).KeepsState s := by
  unfold afterPop
  dsimp only
  split
  · rfl
  · split
    · split <;> rfl
    · split
      · rfl
      · split
        · rfl
        · split
          · rfl
          · rename_i s' hpush
            obtain ⟨cap, rfl⟩ := UStrand.pushCleanup_eq hpush
            exact UStrand.setPc_state _ _

theorem afterResume_keeps (s : UStrand L) (o : Oracle L) : (afterResume s o).KeepsState s := by
  unfold afterResume
  split
  · rfl
  · split
    · rfl
    · dsimp only
      split
      · exact UStrand.setPc_state _ _
      · rfl

theorem afterRet_keeps (s : UStrand L) (v : UValue L) : (afterRet s v).KeepsState s := by
  have hret := s.completeReturn_state v
  unfold afterRet
  split
  · rfl
  · split
    · exact fun hp => absurd hp (hret.2 ‹_›)
    · exact hret.1 (Bool.eq_false_iff.mpr ‹_›)

theorem afterCall_keeps (s : UStrand L) (o : Oracle L) (f : UFrame L) (a b c : Nat) :
    (afterCall s o f a b c).KeepsState s := by
  unfold afterCall
  split
  · rfl
  · rfl
  · rename_i s' hcall
    have hst : s'.state = s.state := by
      obtain ⟨g, stack, cap, -, -, rfl⟩ := doCall_eq hcall
      rfl
    split
    · exact fun hp => .inl (hst.symm.trans hp)
    · exact hst

theorem perform_keeps {a : Arm L} (h : perform s o f a = some after) : after.KeepsState s := by
  cases a with
  | next writes skip => cases h; exact (UStrand.setPc_state _ _).trans (UStrand.setRegs_state _ _ _)
  | poke slot v => cases h; cases slot <;> rfl
  | jmp off =>
    simp only [perform, Option.ite_none_left_eq_some, Option.some.injEq] at h
    obtain ⟨-, rfl⟩ := h
    exact UStrand.setPc_state _ _
  | closed dst v words | raiseAt words which msg => cases h; exact UStrand.setPc_state _ _
  | ret v => cases h; exact afterRet_keeps s v
  | call a b c => cases h; exact afterCall_keeps s o f a b c
  | joinWait finished =>
    simp only [perform] at h
    split at h
    · cases h; rfl
    · split at h
      · rename_i s' hpark
        cases h
        exact fun _ => .inr (UStrand.park_eq hpark).1
      · cases h; rfl
  | pushTry flags handler =>
    simp only [perform] at h
    split at h
    · cases h; rfl
    · rename_i hpush
      cases h
      exact UStrand.pushCleanup_state hpush
  | pushTag t handler =>
    simp only [perform] at h
    split at h
    · cases h; rfl
    · rename_i s' hpush
      cases h
      have hst : s'.state = s.state := UStrand.pushCleanup_state hpush
      exact hst
  | scopePop a => cases h; exact afterPop_keeps s o f a
  | resume => cases h; exact afterResume_keeps s o
  | extarg _ | raise _ _ _ | throw _ | out _ | loadCatch _ | unwindTo _ _ => cases h; rfl

theorem finishArm_keeps (s : UStrand L) (flags : Nat → UInt8) (o : Oracle L) (v : UValue L)
    (k : Cont L) : (finishArm s flags o v k).KeepsState s := by
  cases k with
  | eq want | less _ want _ _ => exact skipIf_state s _
  | getslot dst self => cases self <;> rfl
  | native fi dst =>
    unfold finishArm
    dsimp only
    split
    · exact fun hp => .inl hp
    · rfl
  | waituntil =>
    unfold finishArm
    dsimp only
    split
    · rfl
    · rename_i hcond
      rw [Bool.not_eq_true, Bool.or_eq_false_iff, Bool.not_eq_false'] at hcond
      split
      · rfl
      · exact fun _ => .inr hcond.2
  | yield =>
    unfold finishArm
    dsimp only
    split
    · rfl
    · exact nofun
  | tagEnter t =>
    unfold finishArm
    dsimp only
    split
    · rfl
    · split
      · rename_i hpark
        exact fun _ => .inr (UStrand.park_eq hpark).1
      · rfl
  | _ => rfl

end Arms

section Steps

variable {J : Judgement L} {s : UStrand L} {rest : List (Act L)} {flags : Nat → UInt8}
  {b e : Option Nat}

/-! ## Who is parked after a step -/

theorem leaveRun_parked (hs : Unparked rest)
    (hp : (leaveRun s rest flags).strand.state = .parked) : s.state = .parked := by
  unfold leaveRun at hp
  split at hp
  · split at hp
    · exact hp
    · exact absurd hp (hs _ (.head _))
  · exact hp

theorem settle_parked (hs : Unparked rest)
    (hp : (settle b e rest flags after).strand.state = .parked) : after.strand.state = .parked := by
  cases after with
  | go s =>
    unfold settle at hp
    dsimp only at hp
    split at hp
    · cases leaveRun_parked hs hp
    · exact hp
  | walk s | push s k => exact hp
  | leave s => exact leaveRun_parked hs hp

theorem walkStep_parked {t : UStrand.Turn L} (hk : t.KeepsState s) (hs : Unparked rest)
    (hp : (walkStep b e rest flags t).strand.state = .parked) : s.state = .parked := by
  cases t with
  | landed s' | again s' | leavingJump s' _ | leaving s' top => exact hk.symm.trans hp
  | left s' => exact absurd (leaveRun_parked hs hp) hk

theorem failOut_strand (h : failOut s' flags k rest = some d) : d.strand = s' := by
  unfold failOut at h
  split at h <;> cases h <;> rfl

theorem enterRun_running (s : UStrand L) (b : Option Nat) (rest : List (Act L))
    (flags : Nat → UInt8) : (enterRun s b rest flags).strand.state = .running := by
  unfold enterRun
  split
  · rfl
  · split <;> rfl

theorem invoke_parked {cl : UClosure L} {recv : UValue L} {args : List (UValue L)}
    {o : Oracle L} (hp : (invoke s flags k rest cl recv args o).strand.state = .parked) :
    s.state = .parked := by
  unfold invoke at hp
  split at hp
  · split at hp <;> exact hp
  · dsimp only at hp
    split at hp
    · exact hp
    · split at hp
      · exact hp
      · split at hp
        · exact (UStrand.setRegs_state s _ _).symm.trans hp
        · exact (UStrand.setRegs_state s _ _).symm.trans hp
        · cases (enterRun_running _ _ _ _).symm.trans hp

theorem Restacked.unparked {acts' : List (Act L)} (h : Restacked (· ≠ .parked) acts acts')
    (hs : Unparked acts) : Unparked acts' := by
  induction h with
  | refl => exact hs
  | pop _ ih => exact ih.tail
  | push _ ha ih =>
    refine ih.cons ?_
    rintro st rfl
    cases ha
  | setFailed _ ih => exact ih.tail.cons nofun
  | callee _ _ hst ih => exact ih.cons hst

theorem step_saved (hs : Unparked c.acts)
    (hq : ∀ cl recv args o, m = .invoke cl recv args o → c.strand.state ≠ .parked)
    (hd : c.step m = some d) : Unparked d.acts :=
  (step_restacked hd hq).unparked hs

theorem leaveRun_halted (hs : Unparked rest) (h : s.state = .parked → rest = [])
    (hp : (leaveRun s rest flags).strand.state = .parked) :
    Halted (leaveRun s rest flags).acts := by
  rw [h (leaveRun_parked hs hp)]
  exact .inl rfl

theorem settle_halted (hk : after.KeepsState s) (hn : NumOk s rest)
    (hz : calls rest = 0 → rest = []) (hs : Unparked rest)
    -- a strand that was parked under the arm is handed back by it
    (hleave : s.state = .parked → ∃ s', after = .leave s')
    (hp : (settle b e rest flags after).strand.state = .parked) :
    Halted (settle b e rest flags after).acts := by
  have hafter := settle_parked hs hp
  cases after with
  | go s' | walk s' | push s' k =>
    obtain ⟨_, h⟩ := hleave (hk.symm.trans hafter)
    cases h
  | leave s' =>
    refine leaveRun_halted hs (fun hst => hz ?_) hp
    rcases hk hst with hpark | hmay
    · by_contra hne
      cases (hn.2 (Nat.pos_of_ne_zero hne)).symm.trans hpark
    · exact calls_eq_zero_of_may hn hmay

theorem Halts.run_ne (h : Halts ⟨s, .run b e w :: rest, flags⟩) : s.state ≠ .parked :=
  fun hp => halted_run (h.halted hp)

theorem perform_halted {f : UFrame L} {fs : List (UFrame L)} {σ c : List (UCleanup L)}
    (hcur : Current J s rest f fs σ c) (hn : NumOk s rest)
    (h : Halts ⟨s, .run b e false :: rest, flags⟩) {o : Oracle L} {g : UFrame L} {pc : Nat}
    {a : Arm L} (ha : perform (s.setPc pc) o g a = some after) {b' e' : Option Nat}
    (hp : (settle b' e' rest flags after).strand.state = .parked) :
    Halted (settle b' e' rest flags after).acts := by
  have hset : (s.setPc pc).state = s.state := UStrand.setPc_state _ _
  refine settle_halted (perform_keeps ha) (numOk_setPc.mpr hn) hcur.rest_nil h.saved.tail
    (fun hp => ?_) hp
  exact absurd (hset.symm.trans hp) h.run_ne

/-! ## Disturbances and C code -/

theorem outside_state (h : outside s flags native m = some (s', flags'))
    (hp : s'.state = .parked) (acts : List (Act L)) :
    s.state = .parked ∨ parks ⟨s, acts, flags⟩ m = true := by
  cases met_of_outside h with
  | missed | self | apartOn | apartOff | awake => exact .inl hp
  | other =>
    dsimp only at hp
    split at hp
    · cases hp
    · exact .inl hp
  | gateOn _ _ hst =>
    rcases hst with rfl | ⟨-, -, hready | hcur⟩
    · exact .inl hp
    · exact .inr (by simp [parks, hready])
    · exact .inr (by simp [parks, hcur])
  | gateOff _ _ hst => exact .inl (hst.elim (fun h => h.symm.trans hp) id)
  | wake hst _ => exact .inl hst

theorem Good.arm_ctx {failed : Bool} (hk : k ≠ .callback) (hl : leaving k = false)
    (hg : Good J ⟨s, .out k failed :: .run b e w :: rest, flags⟩) :
    NumOk s rest ∧ (calls rest = 0 → rest = []) := by
  refine ⟨hg.2.of_arm.1, fun hz => ?_⟩
  cases hg.1 with
  | leaveJump | leave => cases hl
  | out hst _ _ =>
    obtain ⟨f, fs, σ, c, b, e, rest, hacts, hcur, -⟩ := hst.of_arm hk
    cases hacts
    exact hcur.rest_nil hz

theorem Halts.under {failed : Bool} (hh : Halts ⟨s, .out k failed :: rest, flags⟩)
    (hp : s.state = .parked) : underCall (.out k failed :: rest) = true := by
  rcases hh.halted hp with h | h
  · cases h
  · exact h

theorem finishArm_parked {o : Oracle L} {v : UValue L} (hk : k ≠ .callback)
    (hu : underCall (.out k false :: rest) = true) (hp : s.state = .parked) :
    ∃ s', finishArm s flags o v k = .leave s' ∧ s'.state = .parked := by
  cases k with
  | native fi dst =>
    unfold finishArm
    dsimp only
    rw [if_pos (by rw [UStrand.setReg_state, hp]; decide)]
    exact ⟨_, rfl, hp⟩
  | callback => exact absurd rfl hk
  | _ => cases hu

theorem finish_halted {o : Oracle L} {v : UValue L} (hk : k ≠ .callback) (hl : leaving k = false)
    (hg : Good J ⟨s, .out k false :: .run b e w :: rest, flags⟩)
    (hh : Halts ⟨s, .out k false :: .run b e w :: rest, flags⟩)
    (hp : (settle b e rest flags (finishArm s flags o v k)).strand.state = .parked) :
    Halted (settle b e rest flags (finishArm s flags o v k)).acts := by
  obtain ⟨hn, hz⟩ := hg.arm_ctx hk hl
  refine settle_halted (finishArm_keeps s flags o v k) hn hz hh.saved.tail.tail (fun hp => ?_) hp
  obtain ⟨s', h, -⟩ := finishArm_parked (o := o) (v := v) hk (hh.under hp) hp
  exact ⟨s', h⟩

theorem Fails.state (h : Fails s k m s') : s'.state = s.state ∧ goesOn m = true := by
  cases h <;> exact ⟨rfl, rfl⟩

end Steps

theorem step_halts {T : Typing L} (hg : Good T.toJudgement c) (hq : parksUnderCall c m = true)
    (hh : Halts c) (hd : c.step m = some d) : Halts d := by
  refine ⟨fun hp => ?_, step_saved hh.saved ?_ hd⟩
  swap
  · rintro cl recv args o rfl hp
    cases not_goesOn hq hp
  cases stepTo_of_step hd with
  | dispatch budget _ => cases (enterRun_running _ _ _ _).symm.trans hp
  | requeue _ => exact .inl rfl
  | outside hout _ =>
    rcases outside_state hout hp _ with hp | hp
    · exact hh.halted hp
    · have hacts := halted_of_parks hq hp
      exact hacts
  | walk o => exact absurd (walkStep_parked (UStrand.turn_keeps _ o) hh.saved.tail hp) hh.run_ne
  | die o _ => cases leaveRun_parked hh.saved.tail hp
  | exec o hfetch _ _ hperform =>
    cases hg.1 with
    | fetch hcur _ _ _ =>
      have hn : NumOk _ _ := ⟨by simpa using hg.2.nboundary, by simpa using hg.2.running⟩
      exact perform_halted hcur hn hh hperform hp
    | empty hf _ _ =>
      unfold fetch at hfetch
      rw [hf] at hfetch
      cases hfetch
  | returns v o => exact .inr (hh.under hp)
  | leftJump v o =>
    cases hh.under (walkStep_parked (t := UStrand.afterLeaveJump _ _) rfl hh.saved.tail.tail hp)
  | left v o =>
    cases hh.under (walkStep_parked (UStrand.afterLeave_keeps _ _ _) hh.saved.tail.tail hp)
  | finish v o hk hl => exact finish_halted hk hl hg hh hp
  | fail hfails hout =>
    obtain ⟨hst, hon⟩ := hfails.state
    rw [failOut_strand hout] at hp
    rw [not_goesOn hq (hst.symm.trans hp)] at hon
    cases hon
  | invoke cl recv args o _ => cases not_goesOn hq (invoke_parked hp)
  | park want slot _ _ =>
    have hacts := halted_of_parks hq rfl
    exact hacts

theorem run_halts {ms : List (Move L)} (hc : Initial c) (hh : Halts c)
    (hr : RunIf parksUnderCall c ms d) : Halts d := by
  induction hr with
  | nil => exact hh
  | snoc m hr hq hstep ih =>
    exact step_halts (reachable_good (T := anyTyping L) hc hr.run) hq ih hstep

/-! ## Parked strands stay put -/

theorem outside_parked {s : UStrand L} {flags : Nat → UInt8}
    (h : outside s flags native m = some (s', flags')) (hp : s.state = .parked)
    (hw : releases m = false) : s'.state = .parked := by
  cases met_of_outside h with
  | missed | self | apartOn | apartOff | awake => exact hp
  | other hc _ =>
    cases m with
    | stop t current | teardown root current =>
      cases hc
      cases hw
    | _ => cases hc
  | gateOn _ _ hst => exact hst.elim (fun h => h.trans hp) fun h => h.1
  | gateOff | wake => cases hw

theorem step_parked {T : Typing L} (hg : Good T.toJudgement c) (hq : parksUnderCall c m = true)
    (hh : Halts c) (hp : c.strand.state = .parked) (hw : releases m = false)
    (hd : c.step m = some d) : d.strand.state = .parked := by
  cases stepTo_of_step hd with
  | dispatch budget hst | requeue hst => cases hst.symm.trans hp
  | outside hout _ => exact outside_parked hout hp hw
  | walk o | die o _ | exec o _ _ _ _ => exact absurd hp hh.run_ne
  | returns v o => exact hp
  | leftJump v o | left v o => cases hh.under hp
  | finish v o hk hl =>
    obtain ⟨hn, hz⟩ := hg.arm_ctx hk hl
    obtain ⟨s', h, hp'⟩ := finishArm_parked (o := o) (v := v) hk (hh.under hp) hp
    -- a strand inside a `uexec_call` would be running
    have hrest := hz (by
      by_contra hne
      cases (hn.2 (Nat.pos_of_ne_zero hne)).symm.trans hp)
    rw [h, hrest]
    exact hp'
  | fail hfails _ =>
    have hon := hfails.state.2
    rw [not_goesOn hq hp] at hon
    cases hon
  | invoke cl recv args o _ => cases not_goesOn hq hp
  | park want slot _ _ => rfl

theorem exec_run {o : Oracle L} (h : (c.step (.exec o)).isSome = true) :
    ∃ b e w rest, c.acts = .run b e w :: rest := by
  obtain ⟨s, acts, flags⟩ := c
  cases acts with
  | nil => cases h
  | cons a rest =>
    cases a with
    | run b e w => exact ⟨b, e, w, rest, rfl⟩
    | out k failed | call saved => cases h

theorem uschedSpawn_acts {o : Oracle L} {flags : Nat → UInt8} {cl : UClosure L}
    {tag : Option Nat} {recv : UValue L} {args : List (UValue L)}
    (h : uschedSpawn o flags cl tag recv args = some c) : c.acts = [] := by
  unfold uschedSpawn at h
  split at h
  · cases h
  · split at h
    · cases h
    · dsimp only at h
      split at h
      · cases h
      · cases h; rfl

/-- A parked strand stops: in a run where strands park only under a `CALL` and parked C code
returns, a strand that has become parked executes nothing until somebody releases it. -/
theorem parked_strand_stops {o : Oracle L} {flags : Nat → UInt8} {cl : UClosure L}
    {tag : Option Nat} {recv : UValue L} {args : List (UValue L)} {c d e : Config L}
    {ms ns : List (Move L)} (hc : uschedSpawn o flags cl tag recv args = some c)
    (hr : RunIf parksUnderCall c ms d) (hp : d.strand.state = .parked)
    (hr' : RunIf parksUnderCall d ns e) (hw : ∀ m ∈ ns, releases m = false) :
    e.strand.state = .parked ∧ ∀ o', e.step (.exec o') = none := by
  have hinit := uschedSpawn_initial hc
  have hacts := uschedSpawn_acts hc
  have hhalts : Halts d := by
    refine run_halts hinit ⟨fun _ => .inl hacts, ?_⟩ hr
    rw [hacts]
    exact nofun
  have hgood := reachable_good (T := anyTyping L) hinit hr.run
  -- parked, halted and of the right shape, all along the second run
  have hall : e.strand.state = .parked ∧ Halts e ∧ Good (anyTyping L).toJudgement e := by
    induction hr' with
    | nil => exact ⟨hp, hhalts, hgood⟩
    | snoc m _ hq hstep ih =>
      obtain ⟨hp', hh', hg'⟩ := ih fun m' hm' => hw m' (List.mem_append_left _ hm')
      have hm := hw m (List.mem_append_right _ (.head _))
      exact ⟨step_parked hg' hq hh' hp' hm hstep, step_halts hg' hq hh' hstep,
        step_good hg' hstep⟩
  obtain ⟨hpe, hhe, -⟩ := hall
  refine ⟨hpe, fun o' => ?_⟩
  cases hx : e.step (.exec o') with
  | none => rfl
  | some x =>
    obtain ⟨b, ext, w, rest, hrun⟩ := exec_run (by rw [hx]; rfl)
    have := hhe.halted hpe
    rw [hrun] at this
    exact absurd this halted_run

end Config

/-! ## Parking under a call and under an operator -/

def waits {L : CodeBase} (nargs : Nat) : UClosure L := ⟨1, .native nargs nargs, 0, some "wait"⟩

/-- `function (f) { f() }`. -/
def waiter : UProto :=
  .mk ⟨1, 0, 1, false, [], [uinstrEncAbc .move 1 0 0, uinstrEncAbc .call 1 1 0,
    uinstrEncAbc .ret 1 0 0], [1, 0, 0], [], []⟩ []

theorem parked_strand_stops_waiter :
    ∃ (c d e : Config (codeOf waiter)), strandOf waiter [.closure (waits 0)] = some c ∧
      c.Run [.dispatch 0, .exec Config.grantAll, .exec Config.grantAll, .park false] d ∧
      d.strand.state = .parked ∧ d.Run [.finish .nil Config.grantAll] e ∧
      e.strand.state = .parked ∧ ∀ o, e.step (.exec o) = none := by
  have hrun : ∃ c d e : Config (codeOf waiter), strandOf waiter [.closure (waits 0)] = some c ∧
      c.stepsIf Config.parksUnderCall
        [.dispatch 0, .exec Config.grantAll, .exec Config.grantAll, .park false] = some d ∧
      d.strand.state = .parked ∧
      d.stepsIf Config.parksUnderCall [.finish .nil Config.grantAll] = some e :=
    ⟨_, _, _, rfl, rfl, rfl, rfl⟩
  obtain ⟨c, d, e, hc, hd, hp, he⟩ := hrun
  have hd := Config.runIf_of_stepsIf hd
  have he := Config.runIf_of_stepsIf he
  exact ⟨c, d, e, hc, hd.run, hp, he.run,
    Config.parked_strand_stops hc hd hp he (by simp [Config.releases])⟩

/-- `function (o) { o + o }`. -/
def adder : UProto :=
  .mk ⟨1, 0, 1, false, [], [uinstrEncAbc .add 1 0 0, uinstrEncAbc .ret 1 0 0], [1, 0], [], []⟩ []

/-- The operand's `+` is a native that waits.  The strand parks under the `ADD`, nobody releases it,
and it goes on with the next instruction. -/
theorem parked_under_operator_runs_on :
    ∃ (c d e : Config (codeOf adder)), strandOf adder [.obj 7] = some c ∧
      c.Run [.dispatch 0, .exec Config.grantAll,
        .invoke (waits 1) (.obj 7) [.obj 7] Config.grantAll, .park false] d ∧
      d.strand.state = .parked ∧
      d.Run [.finish .nil Config.grantAll, .finish .nil Config.grantAll] e ∧
      e.strand.state = .parked ∧ (e.step (.exec Config.grantAll)).isSome = true :=
  ⟨_, _, _, rfl, Config.run_of_steps rfl, rfl, Config.run_of_steps rfl, rfl, rfl⟩

end Urbi
