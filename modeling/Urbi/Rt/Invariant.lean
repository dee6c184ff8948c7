import Urbi.Rt.Preserve
import Urbi.Rt.Steps

/-!
# The invariant of a run

What other strands and the C code of an arm do to a strand; with `Urbi.Rt.Preserve`, every run from a
fresh strand keeps the invariant.
-/

namespace Urbi

namespace Config

variable {L : CodeBase} {J : Judgement L} {T : Typing L} {mark : Option (UValue L)}
variable {s s' : UStrand L} {flags flags' : Nat → UInt8} {m : Move L} {acts rest : List (Act L)}
  {d : Config L} {f : UFrame L} {fs : List (UFrame L)} {σ c : List (UCleanup L)} {o : Oracle L}
  {k : Cont L} {failed : Bool} {b e : Option Nat}

/-! ## Disturbances -/

def markOf : Move L → Option (UValue L)
  | .stop t _ => some (.tag t)
  | .teardown root _ => some (root.elim .nil .tag)
  | _ => none

def marks (s : UStrand L) : Move L → Option (UValue L)
  | .stop t _ => if s.state = .dead ∨ s.covers t = false then none else some (.tag t)
  | .teardown root _ =>
    if s.state = .dead ∨ s.unwind ≠ .none then none else some (root.elim .nil .tag)
  | _ => none

def cancels : Move L → Option Bool
  | .stop _ current | .teardown _ current => some current
  | _ => none

inductive Met (s : UStrand L) (flags : Nat → UInt8) :
    Move L → UStrand L → (Nat → UInt8) → Prop
  | missed {m current} : cancels m = some current → marks s m = none → Met s flags m s flags
  | self {m v} : cancels m = some true → marks s m = some v → s.state ≠ .dead →
    Met s flags m { s with unwind := .stop, transfer := v } flags
  | other {m v} : cancels m = some false → marks s m = some v → s.state ≠ .dead →
    Met s flags m { s with unwind := .stop, transfer := v, gates := 0,
                           state := if s.state = .parked then .ready else s.state } flags
  | gateOn {t bit current st} : s.state ≠ .dead → s.covers t = true →
    st = s.state ∨ (st = .parked ∧ s.nboundary = 0 ∧ (s.state = .ready ∨ current = true)) →
    Met s flags (.gateOn t bit current) { s with gates := s.gates ||| bit, state := st }
      (Function.update flags t (flags t ||| bit))
  | gateOff {t bit waiting st} : s.state ≠ .dead → s.covers t = true →
    st = s.state ∨ s.state = .parked →
    Met s flags (.gateOff t bit waiting)
      { s with gates := s.gateBits (Function.update flags t (flags t &&& ~~~bit)), state := st }
      (Function.update flags t (flags t &&& ~~~bit))
  | apartOn {t bit current} : s.state = .dead ∨ s.covers t = false →
    Met s flags (.gateOn t bit current) s (Function.update flags t (flags t ||| bit))
  | apartOff {t bit waiting} : s.state = .dead ∨ s.covers t = false →
    Met s flags (.gateOff t bit waiting) s (Function.update flags t (flags t &&& ~~~bit))
  | wake {payload st v} : s.state = .parked → (s.unwind ≠ .none → v = s.transfer) →
    Met s flags (.wake payload) { s with state := st, transfer := v } flags
  | awake {payload} : Met s flags (.wake payload) s flags

theorem enqueue_eq (s : UStrand L) : ∃ st, s.enqueue = { s with state := st } ∧
    (s.state = .dead → st = .dead) := by
  unfold UStrand.enqueue
  split
  · exact ⟨s.state, rfl, id⟩
  · split <;> exact ⟨_, rfl, fun h => absurd h ‹_›⟩

/-- A wake changes the state of a parked strand, and the payload slot when nothing is pending. -/
theorem wake_eq (s : UStrand L) (payload : UValue L) : s.wake payload = s ∨
    (s.state = .parked ∧ ∃ st v, s.wake payload = { s with state := st, transfer := v } ∧
      (s.unwind ≠ .none → v = s.transfer)) := by
  unfold UStrand.wake
  split
  · exact .inl rfl
  · rename_i hst
    rw [not_not] at hst
    right
    refine ⟨hst, ?_⟩
    have hpay : ∃ v, s.deliver payload = { s with transfer := v } ∧
        (s.unwind ≠ .none → v = s.transfer) := by
      unfold UStrand.deliver
      split
      · exact ⟨s.transfer, rfl, fun _ => rfl⟩
      · split
        · rename_i hnone
          exact ⟨_, rfl, fun h => absurd hnone h⟩
        · exact ⟨s.transfer, rfl, fun _ => rfl⟩
    obtain ⟨v, hv, hkeep⟩ := hpay
    dsimp only
    rw [hv]
    split
    · exact ⟨s.state, v, rfl, hkeep⟩
    · obtain ⟨st, hq, -⟩ := enqueue_eq { s with transfer := v }
      exact ⟨st, v, hq, hkeep⟩

theorem met_of_outside {native : Bool} (h : outside s flags native m = some (s', flags')) :
    Met s flags m s' flags' := by
  have hmark : ∀ {m v current}, cancels m = some current → marks s m = some v → s.state ≠ .dead →
      Met s flags m (if current then { s with unwind := .stop, transfer := v }
        else { s with unwind := .stop, transfer := v, gates := 0 }.wake .nil) flags := by
    intro m v current hc hm hdead
    cases current with
    | true => exact .self hc hm hdead
    | false =>
      -- the gates are lifted first, so a parked strand wakes
      have hwake : { s with unwind := .stop, transfer := v, gates := 0 }.wake .nil =
          { s with unwind := .stop, transfer := v, gates := 0,
                   state := if s.state = .parked then .ready else s.state } := by
        by_cases hp : s.state = .parked <;>
          simp [UStrand.wake, UStrand.deliver, UStrand.enqueue, hp]
      rw [if_neg (by decide), hwake]
      exact .other hc hm hdead
  cases m <;> simp only [outside, reduceCtorEq, Option.ite_none_left_eq_some, Option.some.injEq,
    Prod.mk.injEq] at h
  case stop t current =>
    obtain ⟨-, rfl, rfl⟩ := h
    unfold UStrand.stop
    split
    · exact .missed rfl (if_pos ‹_›)
    · rename_i hno
      exact hmark rfl (if_neg hno) fun hd => hno (.inl hd)
  case teardown root current =>
    obtain ⟨-, rfl, rfl⟩ := h
    unfold UStrand.teardown
    split
    · exact .missed rfl (if_pos ‹_›)
    · rename_i hno
      exact hmark rfl (if_neg hno) fun hd => hno (.inl hd)
  case gateOn t bit current =>
    obtain ⟨-, rfl, rfl⟩ := h
    unfold UStrand.gateOn
    split
    · exact .apartOn ‹_›
    rename_i hno
    rw [not_or, Bool.not_eq_false] at hno
    dsimp only
    split
    · rename_i hcond
      cases hp : UStrand.park { s with gates := s.gates ||| bit } with
      | none => exact .gateOn hno.1 hno.2 (.inl rfl)
      | some s' =>
        obtain ⟨hmay, rfl⟩ := UStrand.park_eq hp
        exact .gateOn hno.1 hno.2 (.inr ⟨rfl, nboundary_of_may (s := s) hmay, hcond⟩)
    · exact .gateOn hno.1 hno.2 (.inl rfl)
  case gateOff t bit waiting =>
    obtain ⟨rfl, rfl⟩ := h
    unfold UStrand.gateOff
    split
    · exact .apartOff ‹_›
    rename_i hno
    rw [not_or, Bool.not_eq_false] at hno
    dsimp only
    split
    · rename_i hcond
      obtain ⟨st, hq, -⟩ := enqueue_eq { s with
        gates := s.gateBits (Function.update flags t (flags t &&& ~~~bit)) }
      rw [hq]
      exact .gateOff hno.1 hno.2 (.inr hcond.2.1)
    · exact .gateOff hno.1 hno.2 (.inl rfl)
  case wake payload =>
    obtain ⟨rfl, rfl⟩ := h
    rcases wake_eq s payload with hw | ⟨hp, st, v, hw, hv⟩ <;> rw [hw]
    · exact .awake
    · exact .wake hp hv

theorem markOf_of_marks {v : UValue L} (h : marks s m = some v) : markOf m = some v := by
  cases m <;> simp only [marks, markOf, Option.ite_none_left_eq_some, reduceCtorEq] at h ⊢
  case stop | teardown => exact h.2

structure Disturbed (mark : Option (UValue L)) (s s' : UStrand L) : Prop where
  frames : s'.frames = s.frames
  cleanup : s'.cleanup = s.cleanup
  nboundary : s'.nboundary = s.nboundary
  jumpDepth : s'.jumpDepth = s.jumpDepth
  unwind : (s'.unwind = .stop ∧ mark = some s'.transfer) ∨
    (s'.unwind = s.unwind ∧ (s.unwind ≠ .none → s'.transfer = s.transfer))
  dead : s.state = .dead → s' = s
  running : s.state = .running → s'.state = .running ∨ s.nboundary = 0

theorem Disturbed.refl (mark : Option (UValue L)) (s : UStrand L) : Disturbed mark s s :=
  ⟨rfl, rfl, rfl, rfl, .inr ⟨rfl, fun _ => rfl⟩, fun _ => rfl, .inl⟩

theorem Disturbed.keep {g : UInt8} {st : UStrandState} (hdead : s.state ≠ .dead)
    (hrun : s.state = .running → st = .running ∨ s.nboundary = 0) :
    Disturbed mark s { s with gates := g, state := st } :=
  ⟨rfl, rfl, rfl, rfl, .inr ⟨rfl, fun _ => rfl⟩, fun h => absurd h hdead, hrun⟩

theorem outside_disturbed {native : Bool} (h : outside s flags native m = some (s', flags')) :
    Disturbed (markOf m) s s' := by
  cases met_of_outside h with
  | missed | apartOn | apartOff | awake => exact .refl _ s
  | self _ hm hdead =>
    exact ⟨rfl, rfl, rfl, rfl, .inl ⟨rfl, markOf_of_marks hm⟩, fun h => absurd h hdead, .inl⟩
  | other _ hm hdead =>
    exact ⟨rfl, rfl, rfl, rfl, .inl ⟨rfl, markOf_of_marks hm⟩, fun h => absurd h hdead,
      fun hr => .inl (by simp [hr])⟩
  | gateOn hdead _ hst =>
    exact .keep hdead fun hr => hst.imp (fun h => h.trans hr) fun h => h.2.1
  | gateOff hdead _ hst =>
    refine .keep hdead fun hr => .inl ?_
    rcases hst with h | h
    · exact h.trans hr
    · cases h.symm.trans hr
  | wake hp hv =>
    exact ⟨rfl, rfl, rfl, rfl, .inr ⟨rfl, hv⟩, fun hd => (by cases hp.symm.trans hd),
      fun hr => (by cases hp.symm.trans hr)⟩

namespace Disturbed

variable (h : Disturbed mark s s')

include h

theorem calm (hc : Calm s) : Calm s' := by
  rcases h.unwind with ⟨hu, -⟩ | ⟨hu, -⟩
  · exact .inr hu
  · unfold Calm; rw [hu]; exact hc

theorem ne_jump (hj : s.unwind ≠ .jump) : s'.unwind ≠ .jump := by
  rcases h.unwind with ⟨hu, -⟩ | ⟨hu, -⟩
  · rw [hu]; decide
  · rw [hu]; exact hj

theorem ne_none (hn : s.unwind ≠ .none) : s'.unwind ≠ .none := by
  rcases h.unwind with ⟨hu, -⟩ | ⟨hu, -⟩
  · rw [hu]; decide
  · rw [hu]; exact hn

theorem jumpState {n : Nat} (hj : JumpState J s f σ n) : JumpState J s' f σ n := by
  intro hu'
  rcases h.unwind with ⟨hu, -⟩ | ⟨hu, htr⟩
  · rw [hu] at hu'; cases hu'
  · have hjump : s.unwind = .jump := hu.symm.trans hu'
    rw [h.jumpDepth, htr (by rw [hjump]; decide)]
    exact hj hjump

theorem bounded (hb : Bounded ⟨s, acts, flags⟩) : Bounded ⟨s', acts, flags'⟩ := by
  refine ⟨h.nboundary.trans hb.nboundary, fun hpos => ?_, hb.saved⟩
  rcases h.running (hb.running hpos) with hr | hz
  · exact hr
  · have hn : s.nboundary = calls acts := hb.nboundary
    have hpos : 0 < calls acts := hpos
    omega

theorem good (hacts : ∀ b e w rest, acts ≠ .run b e w :: rest)
    (hg : Good J ⟨s, acts, flags⟩) : Good J ⟨s', acts, flags'⟩ := by
  refine ⟨?_, h.bounded hg.2⟩
  cases hg.1 with
  | fetch | walk | drained | empty => exact absurd rfl (hacts _ _ _ _)
  | leaveJump hcur hne hpos hj hb he =>
    exact .leaveJump (hcur.congr h.frames h.cleanup) (h.ne_none hne) (h.jumpDepth ▸ hpos)
      (h.jumpDepth ▸ h.jumpState hj) hb he
  | leave hcur hne hnj hat hb he =>
    exact .leave (hcur.congr h.frames h.cleanup) (h.ne_none hne) (h.ne_jump hnj) hat hb he
  | out hst hcalm hnj =>
    refine .out ?_ (fun hf => h.calm (hcalm hf)) (h.ne_jump hnj)
    rw [h.frames, h.cleanup]
    exact hst
  | idle hst hcalm =>
    refine .idle ?_ (hcalm.imp h.calm (Or.imp (fun hd => ?_) h.frames.trans))
    · rw [h.frames, h.cleanup]
      exact hst
    · rwa [h.dead hd]

end Disturbed

/-! ## Entering a run -/

theorem calls_call (saved : UStrandState) (acts : List (Act L)) :
    calls (.call saved :: acts) = calls acts + 1 := List.countP_cons_of_pos rfl

@[simp] theorem calls_out (k : Cont L) (failed : Bool) (acts : List (Act L)) :
    calls (.out k failed :: acts) = calls acts := List.countP_cons_of_neg (by simp [isCall])

@[simp] theorem calls_run (b e : Option Nat) (w : Bool) (acts : List (Act L)) :
    calls (.run b e w :: acts) = calls acts := List.countP_cons_of_neg (by simp [isCall])

theorem enterRun_good (flags : Nat → UInt8) (hrest : J.rest none) (h : Current J s rest f fs σ c)
    (hat : J.Rests f.proto f.pc σ) (hcalm : Calm s) (hn : s.nboundary = calls rest)
    (hs : SavedOk rest) (hb : BudgetOk b rest) : Good J (enterRun s b rest flags) := by
  unfold enterRun
  split
  · rename_i hne
    exact ⟨.walk (h.congr rfl rfl) hne (JumpState.of_ne hcalm.ne_jump) hb hrest, hn, fun _ => rfl, hs⟩
  · split <;>
      exact ⟨.fetch (h.congr rfl rfl) (hat none hrest) hcalm hb, hn, fun _ => rfl, hs⟩

theorem enterRun_empty (flags : Nat → UInt8) (hrest : J.rest none) (hf : s.frames = [])
    (hc : s.cleanup = []) (hn : s.nboundary = 0) (hb : BudgetOk (L := L) b []) :
    Good J (enterRun s b [] flags) := by
  unfold enterRun
  split
  · exact ⟨.drained hf hc ‹_› hb hrest, hn, fun _ => rfl, trivial⟩
  · split <;> exact ⟨.empty hf hc hn, hn, fun _ => rfl, trivial⟩

theorem Stacked.of_idle (h : Stacked J (some false) s.frames s.cleanup []) :
    (s.frames = [] ∧ s.cleanup = []) ∨
      ∃ f fs σ c, Current J s [] f fs σ c ∧ J.Rests f.proto f.pc σ := by
  generalize hf : s.frames = frames at h
  generalize hc : s.cleanup = cleanup at h
  cases h with
  | bottom => exact .inl ⟨rfl, rfl⟩
  | caller hunder hidx howned hat =>
    exact .inr ⟨_, _, _, _, ⟨hf, hc, hunder, hidx, howned⟩, hat⟩

theorem dispatch_good (hrest : J.rest none) (hst : s.state ≠ .dead) (hg : Good J ⟨s, [], flags⟩)
    (budget : Nat) :
    Good J (enterRun { s with fastYields := 0 } (if budget = 0 then none else some budget) []
      flags) := by
  have hb : BudgetOk (L := L) (if budget = 0 then none else some budget) [] := by
    refine ⟨?_, fun h => absurd rfl h⟩
    split
    · exact nofun
    · intro h; exact absurd (Option.some.inj h) ‹_›
  have hn : s.nboundary = 0 := hg.2.nboundary
  cases hg.1 with
  | idle hstk hcalm =>
    rcases hstk.of_idle with ⟨hf, hc⟩ | ⟨f, fs, σ, c, hcur, hat⟩
    · exact enterRun_empty flags hrest hf hc hn hb
    · have hcalm : Calm s := by
        rcases hcalm with h | h | h
        · exact h
        · exact absurd h hst
        · rw [hcur.frames] at h; cases h
      exact enterRun_good flags hrest (hcur.congr rfl rfl) hat hcalm hn trivial hb

theorem budgetOf_of_ne {op : UOpcode} (hne : op ≠ .jmp) (w : UInt32) :
    budgetOf (some op) w b = b := by
  unfold budgetOf
  rw [if_neg]
  rintro ⟨h, -⟩
  exact hne (Option.some.inj h)

theorem budgetOf_jmp (hb : BudgetOk b rest) (w : UInt32) :
    BudgetOk (budgetOf (some .jmp) w b) rest ∨ (budgetOf (some .jmp) w b = some 0 ∧ rest = []) := by
  unfold budgetOf
  split
  · cases b with
    | none => exact .inl hb
    | some n =>
      have hrest : rest = [] := by
        by_contra hne
        cases hb.2 hne
      by_cases hz : n - 1 = 0
      · exact .inr ⟨by rw [Option.map_some, hz], hrest⟩
      · refine .inl ⟨fun h => hz (Option.some.inj h), fun h => absurd hrest h⟩
  · exact .inl hb

theorem fetch_eq {w : UInt32} (hf : s.frames = f :: fs)
    (hw : f.proto.val.block.instructions[f.pc]? = some w) : fetch s = some (f, w) := by
  unfold fetch
  rw [hf]
  dsimp only
  rw [hw]
  rfl

theorem of_fetch {g : UFrame L} {w : UInt32} (hf : s.frames = f :: fs) (h : fetch s = some (g, w)) :
    g = f ∧ f.proto.val.block.instructions[f.pc]? = some w := by
  unfold fetch at h
  rw [hf] at h
  simp only [Option.map_eq_some_iff, Prod.mk.injEq, existsAndEq, and_true] at h
  exact ⟨h.2.symm, h.1⟩

theorem exec_good {ext : Option Nat} (hroot : J.Rooted) (h : Current J s rest f fs σ c)
    (hat : J.ClosedAt f.proto f.pc ext σ) (hcalm : Calm s) (hn : NumOk s rest)
    (hs : SavedOk rest) (hb : BudgetOk b rest)
    (hd : StepTo ⟨s, .run b ext false :: rest, flags⟩ (.exec o) d) : Good J d := by
  have hcur := h.setPc (f.pc + 1)
  have hcalm' : Calm (s.setPc (f.pc + 1)) := calm_setPc.mpr hcalm
  have hn' : NumOk (s.setPc (f.pc + 1)) rest := numOk_setPc.mpr hn
  cases hd with
  | outside _ hacts => exact absurd rfl (hacts _ _ _ _)
  | die _ hf => cases h.frames.symm.trans hf
  | @exec _ _ _ _ _ g w a after _ hfetch harm hnone hperform =>
    obtain ⟨rfl, hw⟩ := of_fetch h.frames hfetch
    cases hop : uinstrOpcode w with
    | none =>
      obtain rfl := hnone hop
      cases hperform
      exact settle_good flags (throwError_ok hcur hn' (hat.unknown hw hop) .typeError _ false) hs hb
    | some op =>
      have hword : g.proto.word g.pc op w := ⟨hw, hop⟩
      have harm := harm op hop
      have hok := perform_ok hcur hn' hcalm' hroot rfl hat hword (armFor_arm rfl harm) hperform
      by_cases hjmp : op = .jmp
      · -- only a jump touches the slice
        subst hjmp
        rcases budgetOf_jmp hb w with hb' | ⟨hzero, rfl⟩
        · exact settle_good flags hok hs hb'
        · rw [hzero]
          cases harm
          simp only [perform, jmpTarget_eq, Option.ite_none_left_eq_some, Option.some.injEq,
            not_lt] at hperform
          obtain ⟨hnonneg, rfl⟩ := hperform
          exact settle_spent flags (hcur.setPc (verifiedJmpTarget g.pc w).toNat)
            (hat.jmp hword hnonneg) (calm_setPc.mpr hcalm') (numOk_setPc.mpr hn').1 _
      · rw [budgetOf_of_ne hjmp]
        exact settle_good flags hok hs hb

/-! ## C code -/

theorem Stacked.of_arm (h : Stacked J none s.frames s.cleanup (.out k failed :: acts))
    (hk : k ≠ .callback) :
    ∃ f fs σ c b e rest, acts = .run b e false :: rest ∧ Current J s rest f fs σ c ∧
      ArmTyped J f σ k ∧ leaving k = false ∧ (k = .yield → rest = []) ∧ BudgetOk b rest ∧
      J.rest e := by
  generalize hf : s.frames = frames at h
  generalize hc : s.cleanup = cleanup at h
  cases h with
  | arm hunder hidx howned harm _ hl hy hb he =>
    exact ⟨_, _, _, _, _, _, _, rfl, ⟨hf, hc, hunder, hidx, howned⟩, harm, hl, hy, hb, he⟩
  | callback _ | host => exact absurd rfl hk

theorem Stacked.of_callback
    (h : Stacked J none s.frames s.cleanup (.out .callback failed :: acts)) :
    (Stacked J none s.frames s.cleanup acts) ∨ (s.frames = [] ∧ s.cleanup = [] ∧ acts = []) := by
  generalize hf : s.frames = frames at h
  generalize hc : s.cleanup = cleanup at h
  cases h with
  | arm _ _ _ _ hk => exact absurd rfl hk
  | callback h => exact .inl h
  | host => exact .inr ⟨rfl, rfl, rfl⟩

theorem ArmTyped.at (h : ArmTyped J f σ k) : J.Rests f.proto f.pc σ := by
  unfold ArmTyped at h
  split at h
  · exact h.1
  · exact h.1
  · exact h

theorem skipIf_ok (h : Current J s rest f fs σ c) (hn : NumOk s rest) (hcalm : Calm s)
    (h₀ : J.Rests f.proto f.pc σ) (h₁ : J.Rests f.proto (f.pc + 1) σ) (he : J.rest e) (b : Bool) :
    AfterOk J rest e (.go (skipIf s b)) := by
  have hskip : skipIf s b = s.setPc (f.pc + if b then 1 else 0) := by
    simp only [skipIf, h.frames]
  rw [hskip]
  refine ⟨_, fs, σ, c, h.setPc _, ?_, calm_setPc.mpr hcalm, numOk_setPc.mpr hn⟩
  cases b
  · exact h₀ e he
  · exact h₁ e he

theorem finishArm_ok (h : Current J s rest f fs σ c) (harm : ArmTyped J f σ k)
    (hy : k = .yield → rest = []) (hn : NumOk s rest) (hcalm : Calm s) (he : J.rest e) (o : Oracle L)
    (v : UValue L) : AfterOk J rest e (finishArm s flags o v k) := by
  have hat := harm.at
  -- registers, gates and counters play no part
  have hgo : ∀ s' : UStrand L, s'.frames = s.frames → s'.cleanup = s.cleanup →
      s'.unwind = s.unwind → s'.nboundary = s.nboundary → s'.state = s.state →
      AfterOk J rest e (.go s') := by
    intro s' hf hc hu hb hst
    refine ⟨f, fs, σ, c, h.congr hf hc, hat e he, ?_, ?_⟩
    · unfold Calm; rw [hu]; exact hcalm
    · unfold NumOk; rw [hb, hst]; exact hn
  have hself : AfterOk J rest e (.go s) := hgo s rfl rfl rfl rfl rfl
  -- a run that hands the strand back under a `uexec_call` would not be running
  have hleave : ∀ s' : UStrand L, s'.frames = s.frames → s'.cleanup = s.cleanup →
      s'.unwind = s.unwind → s'.nboundary = s.nboundary → rest = [] →
      AfterOk J rest e (.leave s') := by
    rintro s' hf hc hu hb rfl
    refine ⟨(h.congr hf hc).suspend hat, .inl ?_, hb.trans hn.1⟩
    unfold Calm; rw [hu]; exact hcalm
  cases k with
  | binop op dst x y | neg dst x => exact hgo (s.setReg _ v) rfl rfl rfl rfl rfl
  | eq want | less strict want x y => exact skipIf_ok h hn hcalm harm.1 harm.2 he _
  | getslot dst self =>
    cases self with
    | none => exact hgo (s.setReg _ v) rfl rfl rfl rfl rfl
    | some recv => exact hgo ((s.setReg _ recv).setReg _ v) rfl rfl rfl rfl rfl
  | native fi dst =>
    simp only [finishArm]
    split
    · rename_i hst
      have hz : calls rest = 0 := by
        by_contra hne
        exact hst (hn.2 (Nat.pos_of_ne_zero hne))
      exact hleave (s.setReg _ v) rfl rfl rfl rfl (h.rest_nil hz)
    · exact hgo (s.setReg _ v) rfl rfl rfl rfl rfl
  | waituntil =>
    simp only [finishArm]
    split
    · exact hself
    · rename_i hcond
      rw [Bool.not_eq_true, Bool.or_eq_false_iff, Bool.not_eq_false'] at hcond
      split
      · exact throwError_ok h hn he _ _ _
      · exact parked_ok h hn hcalm hat hcond.2
  | yield =>
    simp only [finishArm]
    split
    · exact hgo { s with fastYields := s.fastYields + 1 } rfl rfl rfl rfl rfl
    · exact hleave { s with state := .ready } rfl rfl rfl rfl (hy rfl)
  | tagEnter t =>
    simp only [finishArm]
    split
    · exact hself
    · split
      · rename_i s' hpark
        obtain ⟨hmay, rfl⟩ := UStrand.park_eq hpark
        exact hleave _ rfl rfl rfl rfl (h.rest_nil (calls_eq_zero_of_may hn hmay))
      · exact hgo { s with gates := s.gates ||| flags t } rfl rfl rfl rfl rfl
  | tagPop => exact hgo { s with gates := s.gateBits flags } rfl rfl rfl rfl rfl
  | setslot | install | join | leaveJump | leave _ | callback => exact hself

theorem afterLeaveJump_ok (h : Current J s rest f fs σ c) (hn : NumOk s rest)
    (hne : s.unwind ≠ .none) (hj : JumpState J s f σ (s.jumpDepth - 1)) :
    TurnOk J rest (s.afterLeaveJump flags) := by
  refine again_ok (h.congr rfl rfl) hn hne fun hu => ?_
  obtain ⟨hlt, hland⟩ := hj hu
  exact ⟨by dsimp only; omega, hland⟩

theorem afterLeave_ok (h : Current J s rest f fs σ c) (hn : NumOk s rest) (hne : s.unwind ≠ .none)
    (hnj : s.unwind ≠ .jump) {top : UCleanup L} (hat : J.Rests f.proto top.onleavePc σ) :
    TurnOk J rest (s.afterLeave flags top) := by
  unfold UStrand.afterLeave
  split
  · have hcur : Current J { s with unwind := .none, transfer := .nil } rest f fs σ c :=
      h.congr rfl rfl
    dsimp only
    exact ⟨_, fs, σ, c, (hcur.setPc top.onleavePc).congr rfl rfl, hat, calm_setPc.mpr (.inl rfl),
      numOk_setPc.mpr hn⟩
  · exact again_ok h hn hne (JumpState.of_ne hnj)

theorem Bounded.of_arm {w : Bool} (h : Bounded ⟨s, .out k failed :: .run b e w :: rest, flags⟩) :
    NumOk s rest ∧ SavedOk rest := by
  refine ⟨⟨?_, ?_⟩, h.saved⟩
  · have := h.nboundary
    simpa using this
  · have := h.running
    simpa using this

theorem returns_good (hg : Good J ⟨s, .out .callback false :: acts, flags⟩) :
    Good J ⟨s, acts, flags⟩ := by
  have hbd := hg.2
  cases hg.1 with
  | out hst hcalm hnj =>
    rcases hst.of_callback with hst' | ⟨hf, hc, rfl⟩
    · obtain ⟨k', failed', rest', rfl⟩ := hst'.out
      exact ⟨.out hst' (fun _ => hcalm rfl) hnj, hbd.nboundary, hbd.running, hbd.saved⟩
    · refine ⟨.idle ?_ (.inl (hcalm rfl)), hbd.nboundary, hbd.running, hbd.saved⟩
      rw [hf, hc]
      exact .bottom

theorem finish_good {w : Bool} (hk : k ≠ .callback) (hl : leaving k = false)
    (hg : Good J ⟨s, .out k false :: .run b e w :: rest, flags⟩) (o : Oracle L) (v : UValue L) :
    Good J (settle b e rest flags (finishArm s flags o v k)) := by
  obtain ⟨hn, hs⟩ := hg.2.of_arm
  cases hg.1 with
  | leaveJump | leave => cases hl
  | out hst hcalm _ =>
    obtain ⟨f, fs, σ, c, b, e, rest, heq, hcur, harm, -, hy, hb, he⟩ := hst.of_arm hk
    cases heq
    exact settle_good flags (finishArm_ok hcur harm hy hn (hcalm rfl) he o v) hs hb

theorem failOut_arm (hk : k ≠ .callback) (b e : Option Nat) (w : Bool) :
    failOut s flags k (.run b e w :: rest) = some ⟨s, .run b e true :: rest, flags⟩ := by
  cases k <;> first | rfl | exact absurd rfl hk

theorem failOut_good (hg : Good J ⟨s, .out k failed :: acts, flags⟩) (hmay : mayRaise k = true)
    (hd : failOut s' flags k acts = some d) (hf : s'.frames = s.frames)
    (hc : s'.cleanup = s.cleanup) (hnb : s'.nboundary = s.nboundary)
    (hstate : s'.state = s.state) (hne : s'.unwind ≠ .none) (hnj : s'.unwind ≠ .jump) :
    Good J d := by
  have hbd := hg.2
  cases hg.1 with
  | leaveJump | leave => cases hmay
  | out hst _ _ =>
    by_cases hk : k = .callback
    · subst hk
      rcases hst.of_callback with hst' | ⟨hfr, hcl, rfl⟩
      · obtain ⟨k', failed', rest', rfl⟩ := hst'.out
        cases hd
        refine ⟨.out ?_ nofun hnj, hnb.trans hbd.nboundary, ?_, hbd.saved⟩
        · rw [hf, hc]
          exact hst'.setFailed true
        · intro hpos
          exact hstate.trans (hbd.running hpos)
      · cases hd
        refine ⟨.idle ?_ (.inr (.inr (hf.trans hfr))), hnb.trans hbd.nboundary, nofun, trivial⟩
        rw [hf, hc, hfr, hcl]
        exact .bottom
    · obtain ⟨f, fs, σ, c, b, e, rest, rfl, hcur, -, -, -, hb, he⟩ := hst.of_arm hk
      rw [failOut_arm hk] at hd
      cases hd
      obtain ⟨hn, hs⟩ := hbd.of_arm
      refine ⟨.walk (hcur.congr hf hc) hne (JumpState.of_ne hnj) hb he, hnb.trans hn.1, ?_, hs⟩
      intro hpos
      exact hstate.trans (hn.2 hpos)

theorem failed_good (hst : Stacked J none s.frames s.cleanup (.out k failed :: acts))
    (hbd : Bounded ⟨s, .out k failed :: acts, flags⟩) (o : Oracle L) (which : UErrorProto)
    (msg : String) (stack : Nat → UValue L) :
    Good J ⟨{ s with stack := stack }.throwError o which msg false, .out k true :: acts, flags⟩ :=
  ⟨.out (hst.setFailed true) nofun (by simp [UStrand.throwError]), hbd.nboundary,
    hbd.running, hbd.saved⟩

theorem enterCall_good (hroot : J.Rooted)
    (hst : Stacked J none s.frames s.cleanup (.out k false :: acts)) (hcalm : Calm s)
    (hbd : Bounded ⟨s, .out k false :: acts, flags⟩) {g : UFrame L} (hpc : g.pc = 0)
    (hg : g.isBoundary = true) (stack : Nat → UValue L) (cap : Nat) :
    Good J (enterRun { s with
      stack := stack, framesCap := cap, frames := g :: s.frames, nboundary := s.nboundary + 1 } none
        (.call s.state :: .out k false :: acts) flags) := by
  have hcur : Current J { s with
      stack := stack, framesCap := cap, frames := g :: s.frames, nboundary := s.nboundary + 1 }
      (.call s.state :: .out k false :: acts) g s.frames [] s.cleanup :=
    ⟨rfl, rfl, hg ▸ .enter hst, nofun, trivial⟩
  refine enterRun_good flags hroot.rest_none hcur (hpc ▸ hroot.start g.proto) hcalm ?_
    ⟨hbd.running, hbd.saved⟩ ⟨nofun, fun _ => rfl⟩
  rw [calls_call]
  show s.nboundary + 1 = _
  rw [hbd.nboundary]

theorem invoke_good (hroot : J.Rooted)
    (hst : Stacked J none s.frames s.cleanup (.out k false :: acts)) (hcalm : Calm s)
    (hbd : Bounded ⟨s, .out k false :: acts, flags⟩) (cl : UClosure L) (recv : UValue L)
    (args : List (UValue L)) (o : Oracle L) : Good J (invoke s flags k acts cl recv args o) := by
  unfold invoke
  split
  · split
    · exact failed_good hst hbd o _ _ s.stack
    · exact ⟨.out (.callback hst) (fun _ => hcalm) hcalm.ne_jump, hbd.nboundary, hbd.running,
        hbd.saved⟩
  · dsimp only
    split
    · exact failed_good hst hbd o _ _ s.stack
    · split
      · exact failed_good hst hbd o _ _ s.stack
      · -- the arguments land above the caller's window
        generalize args.zipIdx.map _ = ws
        obtain ⟨stack, hregs⟩ := s.setRegs_eq (callBase s) ws
        rw [hregs]
        split
        · exact failed_good hst hbd o _ _ stack
        · exact ⟨.out hst (fun _ => hcalm) hcalm.ne_jump, hbd.nboundary, hbd.running, hbd.saved⟩
        · rename_i s' henter
          obtain ⟨stack', cap, rfl⟩ := enterProto_eq henter
          exact enterCall_good hroot hst hcalm hbd rfl rfl stack' cap

/-! ## Steps and runs -/

theorem Shape.out_of_may (h : Shape J ⟨s, .out k failed :: acts, flags⟩)
    (hmay : mayInvoke k = true) :
    Stacked J none s.frames s.cleanup (.out k failed :: acts) ∧ (failed = false → Calm s) := by
  cases h with
  | leaveJump | leave => cases hmay
  | out hst hcalm _ => exact ⟨hst, hcalm⟩

theorem park_good (hk : isNative k = true) (hmay : s.mayDeschedule = true)
    (hg : Good J ⟨s, .out k false :: acts, flags⟩) (slot : Nat) :
    Good J ⟨{ s with resumeSlot := slot, state := .parked }, .out k false :: acts, flags⟩ := by
  have hcalls : calls (.out k false :: acts) = 0 :=
    hg.2.nboundary.symm.trans (nboundary_of_may hmay)
  refine ⟨?_, hg.2.nboundary, fun hpos => absurd hcalls (by exact hpos.ne'), hg.2.saved⟩
  cases hg.1 with
  | leaveJump | leave => cases hk
  | out hst hcalm hnj => exact .out hst hcalm hnj

theorem fails_good (hg : Good J ⟨s, .out k failed :: acts, flags⟩) (hf : Fails s k m s')
    (hd : failOut s' flags k acts = some d) : Good J d := by
  cases hf with
  | raise v hmay =>
    exact failOut_good hg hmay hd rfl rfl rfl rfl (by simp [UStrand.throwValue])
      (by simp [UStrand.throwValue])
  | miss o hmsg =>
    have hmay : mayRaise k = true := by
      cases k <;> first | rfl | cases hmsg
    exact failOut_good hg hmay hd rfl rfl rfl rfl (by simp [UStrand.throwError])
      (by simp [UStrand.throwError])
  | fail hne hmay =>
    have hnj : s.unwind ≠ .jump := by
      cases hg.1 with
      | leaveJump | leave => cases hmay
      | out _ _ hnj => exact hnj
    exact failOut_good hg hmay hd rfl rfl rfl rfl hne hnj

theorem requeue_good (hg : Good J ⟨s, [], flags⟩) : Good J ⟨s.enqueue, [], flags⟩ := by
  obtain ⟨st, hq, hdead⟩ := enqueue_eq s
  rw [hq]
  refine ⟨?_, hg.2.nboundary, nofun, trivial⟩
  cases hg.1 with
  | idle hst hcalm =>
    exact .idle hst (hcalm.imp_right (Or.imp_left hdead))

theorem die_good (hf : s.frames = []) (hc : s.cleanup = []) (hn : s.nboundary = 0) :
    Good J (leaveRun { s with state := .dead } [] flags) := by
  refine leaveRun_idle flags ⟨?_, .inr rfl, hn⟩
  show Stacked J (some false) s.frames s.cleanup []
  rw [hf, hc]
  exact .bottom

theorem walkRun_good (hg : Good J ⟨s, .run b e true :: rest, flags⟩) (o : Oracle L) :
    Good J (walkStep b e rest flags (s.turn o)) := by
  have hbd := hg.2
  cases hg.1 with
  | walk hcur hne hj hb he =>
    have hn : NumOk s rest := ⟨by simpa using hbd.nboundary, by simpa using hbd.running⟩
    exact walkStep_good flags (turn_ok hcur hn hne hj) hbd.saved hb he
  | drained hf hc hne _ _ =>
    have hturn : s.turn o = .left { s with state := .dead } := by
      simp only [UStrand.turn, if_neg hne, hf]
    rw [hturn]
    exact die_good hf hc hbd.nboundary

def ClosedHere (J : Judgement L) (c : Config L) : Prop :=
  ∀ {b ext rest f fs σ}, c.acts = .run b ext false :: rest → c.strand.frames = f :: fs →
    J.At f.proto f.pc ext σ → J.ClosedAt f.proto f.pc ext σ

theorem step_keeps (hroot : J.Rooted) {c : Config L} (hclosed : ClosedHere J c) (hg : Good J c)
    (hd : c.step m = some d) : Good J d := by
  have hstep := stepTo_of_step hd
  have hbd := hg.2
  cases hstep with
  | dispatch budget hst => exact dispatch_good hroot.rest_none (by rw [hst]; decide) hg budget
  | requeue _ => exact requeue_good hg
  | outside hout hacts => exact (outside_disturbed hout).good hacts hg
  | walk o => exact walkRun_good hg o
  | die o hf =>
    cases hg.1 with
    | fetch hcur => cases hcur.frames.symm.trans hf
    | empty _ hc hn => exact die_good hf hc hn
  | exec o hfetch harm hnone hperform =>
    cases hg.1 with
    | fetch hcur hat hcalm hb =>
      have hn : NumOk _ _ := ⟨by simpa using hbd.nboundary, by simpa using hbd.running⟩
      exact exec_good hroot hcur (hclosed rfl hcur.frames hat) hcalm hn hbd.saved hb
        (.exec o hfetch harm hnone hperform)
    | empty hf =>
      unfold fetch at hfetch
      rw [hf] at hfetch
      cases hfetch
  | returns v o => exact returns_good hg
  | leftJump v o =>
    cases hg.1 with
    | leaveJump hcur hne _ hj hb he =>
      obtain ⟨hn, hs⟩ := hbd.of_arm
      exact walkStep_good _ (afterLeaveJump_ok hcur hn hne hj) hs hb he
    | out hst => obtain ⟨_, _, _, _, _, _, _, -, -, -, hl, -⟩ := hst.of_arm nofun; cases hl
  | left v o =>
    cases hg.1 with
    | leave hcur hne hnj hat hb he =>
      obtain ⟨hn, hs⟩ := hbd.of_arm
      exact walkStep_good _ (afterLeave_ok hcur hn hne hnj hat) hs hb he
    | out hst => obtain ⟨_, _, _, _, _, _, _, -, -, -, hl, -⟩ := hst.of_arm nofun; cases hl
  | finish v o hk hl => exact finish_good hk hl hg o v
  | fail hfails hout => exact fails_good hg hfails hout
  | invoke cl recv args o hmay =>
    obtain ⟨hst, hcalm⟩ := hg.1.out_of_may hmay
    exact invoke_good hroot hst (hcalm rfl) hbd cl recv args o
  | park want slot hk hmay => exact park_good hk hmay hg slot

theorem step_good {c : Config L} (hg : Good T.toJudgement c) (hd : c.step m = some d) :
    Good T.toJudgement d :=
  step_keeps T.rooted (fun _ _ hat => T.closedAt hat) hg hd

theorem run_good {c : Config L} {ms : List (Move L)} (hg : Good T.toJudgement c)
    (hr : Run c ms d) : Good T.toJudgement d := by
  induction hr with
  | nil => exact hg
  | snoc m _ hstep ih => exact step_good ih hstep

theorem uschedSpawn_initial {cl : UClosure L} {tag : Option Nat} {recv : UValue L}
    {args : List (UValue L)} {c : Config L} (h : uschedSpawn o flags cl tag recv args = some c) :
    Initial c := by
  unfold uschedSpawn at h
  split at h
  · cases h
  · rename_i p hcode
    split at h
    · cases h
    · dsimp only at h
      generalize List.map _ args.zipIdx = ws at h
      obtain ⟨stack, hregs⟩ := UStrand.setRegs_eq { newStrand with tag := tag } 0 ws
      rw [hregs] at h
      split at h
      · cases h
      · rename_i s' hpush
        obtain ⟨stack', cap, rfl⟩ := UStrand.pushFrameArgs_eq hpush
        obtain ⟨stack'', hnargs⟩ := UStrand.storeNargs_eq
          { newStrand with
            tag := tag, stack := stack', framesCap := cap
            frames := [⟨cl, p, 0, 0, 0, false, recv⟩] } p 0 args.length
        have hnargs : UStrand.storeNargs { newStrand with
            tag := tag, stack := stack', framesCap := cap
            frames := ⟨cl, p, 0, 0, 0, false, recv⟩ :: (newStrand (L := L)).frames } p 0
            args.length = _ := hnargs
        rw [hnargs] at h
        cases h
        obtain ⟨st, hq, -⟩ := enqueue_eq { newStrand with
          tag := tag, stack := stack'', framesCap := cap
          frames := [⟨cl, p, 0, 0, 0, false, recv⟩], gates := (tag.map flags).getD 0 }
        refine .inl ⟨p, ?_, ?_, ?_, ?_, ?_⟩
        · rfl
        · exact ⟨⟨cl, p, 0, 0, 0, false, recv⟩, congrArg UStrand.frames hq, rfl, rfl, rfl⟩
        · exact congrArg UStrand.cleanup hq
        · exact congrArg UStrand.unwind hq
        · exact congrArg UStrand.nboundary hq

theorem initial_good (hroot : J.Rooted) {c : Config L} (hc : Initial c) : Good J c := by
  obtain ⟨s, acts, flags⟩ := c
  rcases hc with ⟨p, hp⟩ | hsp
  · obtain rfl : acts = [] := hp.acts
    obtain ⟨f, hf, rfl, hpc, hb⟩ := hp.frame
    have hf : s.frames = [f] := hf
    have hc : s.cleanup = [] := hp.cleanup
    refine ⟨.idle ?_ (.inl (.inl hp.unwind)), hp.nboundary, nofun, trivial⟩
    rw [hf, hc]
    have hbase : Stacked J (some f.isBoundary) [] [] [] := hb ▸ .bottom
    exact .caller (σ := []) hbase nofun trivial (hpc ▸ hroot.start f.proto)
  · obtain rfl : acts = [.out .callback false] := hsp.acts
    have hf : s.frames = [] := hsp.frames
    have hc : s.cleanup = [] := hsp.cleanup
    have hu : s.unwind = .none := hsp.unwind
    refine ⟨.out ?_ (fun _ => .inl hu) (by rw [hu]; decide), hsp.nboundary, ?_, trivial⟩
    · rw [hf, hc]
      exact .host
    · simp [calls, isCall]

theorem reachable_good {c : Config L} {ms : List (Move L)} (hc : Initial c) (hr : Run c ms d) :
    Good T.toJudgement d := run_good (initial_good T.rooted hc) hr

end Config

end Urbi
