import Urbi.Rt.Sound

/-!
# Joins behind their forks

The verifier pins every `JOIN_WAIT` to the word stored before it, a `FORK` in join mode.  Nothing keeps
a jump, a skip, a handler or the end of an upvalue prelude from arriving at the `JOIN_WAIT` itself;
those are the only other ways in.
-/

namespace Urbi

/-! ## Ways in -/

def joinsAt (p : UProto) (pc : Nat) : Bool :=
  (p.block.instructions[pc]?).bind uinstrOpcode = some .joinWait

/-- Control can come to a `JOIN_WAIT` other than by falling through to the next word. -/
def reachesJoin (p : UProto) (pc : Nat) (w : UInt32) : Bool :=
  match uinstrOpcode w with
  | some .jmp => joinsAt p (verifiedJmpTarget pc w).toNat
  | some .scopeTry | some .scopeTag | some .unwindTo => joinsAt p (uinstrBx w)
  -- a prelude word may look like a `FORK`
  | some .closure => joinsAt p (pc + 1 + preludeLen p.nested w)
  | some op => opMaySkip op w && joinsAt p (pc + 2)
  | none => false

def Config.joinClear {L : CodeBase} (c : Config L) (_ : Move L) : Bool :=
  match c.acts, Config.fetch c.strand with
  | .run _ _ false :: _, some (f, w) => !reachesJoin f.proto.val f.pc w
  | _, _ => true

section Words

variable {p : Fn loaded} {pc : Nat} {e : Option Nat} {op : UOpcode} {w : UInt32}

theorem joinsAt_iff : joinsAt p.val pc = true ↔ ∃ w, p.word pc .joinWait w := by
  simp only [joinsAt, decide_eq_true_eq, Option.bind_eq_some_iff]
  rfl

theorem AtInstr.fork_before (h : AtInstr p pc e) (hw : p.word pc .joinWait w) :
    ∃ k w', pc = k + 1 ∧ p.word k .fork w' ∧ uinstrC w' = uforkJoin ∧ uinstrB w' = uinstrA w := by
  have hinstr := (wellFormed_of_loaded p).shaped.instr pc w e h hw.1
  have hrule : followsJoiningFork (prevWord p.val.block pc) (uinstrA w) = true :=
    (hinstr.operands _ hw.2 (by decide)).abc rfl
  cases pc with
  | zero => cases hrule
  | succ k =>
    have hprev : prevWord p.val.block (k + 1) = p.val.block.instructions[k]? := rfl
    cases hk : p.val.block.instructions[k]? with
    | none => rw [hprev, hk] at hrule; cases hrule
    | some w' =>
      rw [hprev, hk] at hrule
      simp only [followsJoiningFork, Bool.and_eq_true, decide_eq_true_eq] at hrule
      exact ⟨k, w', rfl, ⟨hk, hrule.1.1⟩, hrule.1.2, hrule.2⟩

theorem AtInstr.next_not_join (hnext : AtInstr p (pc + 1) e) (hw : p.word pc op w)
    (hop : op ≠ .fork) : joinsAt p.val (pc + 1) = false := by
  rw [Bool.eq_false_iff]
  intro hj
  obtain ⟨w', hw'⟩ := joinsAt_iff.mp hj
  obtain ⟨k, w'', hk, hfork, -, -⟩ := hnext.fork_before hw'
  obtain rfl : pc = k := by omega
  have hsame : w = w'' := Option.some.inj (hw.1.symm.trans hfork.1)
  subst hsame
  exact hop (Option.some.inj (hw.2.symm.trans hfork.2))

end Words

/-! ## The judgement -/

def unjoined : Judgement loaded where
  At p pc ext _ := AtInstr p pc ext ∧ joinsAt p.val pc = false
  rest ext := ext = none
  strict := False

section Closed

variable {p : Fn loaded} {pc : Nat} {e : Option Nat} {op : UOpcode} {w : UInt32}
  {σ : List (UCleanup loaded)}

theorem AtInstr.rests_unjoined (h : AtInstr p pc none) (hj : joinsAt p.val pc = false)
    (σ : List (UCleanup loaded)) : unjoined.Rests p pc σ := by
  rintro _ rfl
  exact ⟨h, hj⟩

theorem unjoined_rooted : unjoined.Rooted := by
  refine ⟨rfl, fun p => (AtInstr.start p).rests_unjoined ?_ []⟩
  rw [Bool.eq_false_iff]
  intro hj
  obtain ⟨w, hw⟩ := joinsAt_iff.mp hj
  obtain ⟨k, -, hk, -⟩ := (AtInstr.start p).fork_before hw
  omega

theorem preludeLen_closure (hw : p.word pc .closure w) {child : UProto}
    (hchild : nestedAt p.val.nested (uinstrBx w) = some child) :
    preludeLen p.val.nested w = child.block.nupvals.toNat := by
  unfold preludeLen
  rw [if_pos hw.2, hchild]
  rfl

theorem AtInstr.rests_next (h : AtInstr p pc e) (hw : p.word pc op w) (hret : op ≠ .ret)
    (hx : op ≠ .extarg) (hc : op ≠ .closure) (hfork : op = .fork → joinsAt p.val (pc + 1) = false)
    (τ : List (UCleanup loaded)) : unjoined.Rests p (pc + 1) τ := by
  have hnext : AtInstr p (pc + 1) none := h.next hw hret hx hc
  apply hnext.rests_unjoined
  by_cases hop : op = .fork
  · exact hfork hop
  · exact hnext.next_not_join hw hop

theorem AtInstr.rests_skip (h : AtInstr p pc e) (hw : p.word pc op w) (hs : opMaySkip op w = true)
    (hclear : reachesJoin p.val pc w = false) : unjoined.Rests p (pc + 2) σ := by
  apply AtInstr.rests_unjoined ((h.transfer hw).skip hs)
  rw [reachesJoin, hw.2] at hclear
  cases op <;> first | exact absurd hs Bool.false_ne_true | simpa [hs] using hclear

theorem unjoined_closedAt (h : AtInstr p pc e)
    (hclear : ∀ {w}, p.val.block.instructions[pc]? = some w → reachesJoin p.val pc w = false)
    (hfork : ∀ {w}, p.word pc .fork w → joinsAt p.val (pc + 1) = false) :
    unjoined.ClosedAt p pc e σ := by
  have hloaded := loadedTyping.closedAt (σ := σ) h
  have hreach : ∀ {op w}, p.word pc op w → reachesJoin p.val pc w = false := fun hw => hclear hw.1
  have hnext : ∀ {op w}, p.word pc op w → op ≠ .ret → op ≠ .extarg → op ≠ .closure →
      ∀ τ, unjoined.Rests p (pc + 1) τ := by
    intro op w hw hret hx hc τ
    apply h.rests_next hw hret hx hc
    rintro rfl
    exact hfork hw
  refine ⟨hloaded.unknown, hloaded.keepsExt, ?next, ?skip, ?jmp, ?extarg, ?closure, ?scopeTry,
    ?scopeTag, ?scopePop, ?unwindTo⟩
  case next =>
    intro op w hw hf
    exact hnext hw (falls_ne hf).1 (falls_ne hf).2.1 (falls_ne hf).2.2 σ
  case skip => exact fun hw hs => h.rests_skip hw hs (hreach hw)
  case jmp =>
    intro w hw _
    have hto := hreach hw
    rw [reachesJoin, hw.2] at hto
    exact AtInstr.rests_unjoined ((h.transfer hw).jmp rfl).2 hto σ
  case extarg =>
    intro w hw
    have hat := h.extarg hw
    exact ⟨hat, hat.next_not_join hw (by decide)⟩
  case closure =>
    intro w child hw hchild
    have hto := hreach hw
    rw [reachesJoin, hw.2] at hto
    apply (h.closure hw hchild).rests_unjoined
    rw [← preludeLen_closure hw hchild]
    exact hto
  case scopeTry =>
    intro w d hw hkind hflags hpc
    have hto := hreach hw
    rw [reachesJoin, hw.2] at hto
    have hrun : d.running = false := by
      show d.flags.testBit 5 = false
      rw [hflags]
      exact h.scopeTry_flags hw
    refine ⟨hnext hw (by decide) (by decide) (by decide) _, entryOk_try hkind hrun ?_⟩
    rw [hpc]
    exact AtInstr.rests_unjoined ((h.transfer hw).handler rfl) hto
  case scopeTag =>
    intro w d hw hkind hflags hpc
    have hto := hreach hw
    rw [reachesJoin, hw.2] at hto
    refine ⟨hnext hw (by decide) (by decide) (by decide) _, entryOk_tag hkind hflags ?_⟩
    rw [hpc]
    exact AtInstr.rests_unjoined ((h.transfer hw).handler rfl) hto σ
  case scopePop =>
    intro w d τ _ hw _
    exact hnext hw (by decide) (by decide) (by decide) τ
  case unwindTo =>
    intro w hw
    have hto := hreach hw
    rw [reachesJoin, hw.2] at hto
    refine ⟨False.elim, fun _ => ?_⟩
    rw [jumpTarget_ofNat (uinstrBx_lt w)]
    exact AtInstr.rests_unjoined ((h.transfer hw).handler rfl) hto _

end Closed

namespace Config

structure AtJoin (s : UStrand loaded) (b : Option Nat) (rest : List (Act loaded))
    (f : UFrame loaded) (fs : List (UFrame loaded)) : Prop where
  current : ∃ σ c, Current unjoined s rest f fs σ c
  instr : AtInstr f.proto f.pc none
  joins : joinsAt f.proto.val f.pc = true
  calm : Calm s
  num : NumOk s rest
  saved : SavedOk rest
  budget : BudgetOk b rest

section Steps

variable {s : UStrand loaded} {b e : Option Nat} {rest : List (Act loaded)} {f : UFrame loaded}
  {fs : List (UFrame loaded)} {flags : Nat → UInt8} {o : Oracle loaded} {d : Config loaded}

theorem AtJoin.step (h : AtJoin s b rest f fs)
    (hd : step ⟨s, .run b none false :: rest, flags⟩ (.exec o) = some d) : Good unjoined d := by
  obtain ⟨σ, c, hcur⟩ := h.current
  obtain ⟨w, hw⟩ := joinsAt_iff.mp h.joins
  have hone : ∀ {w'}, f.proto.val.block.instructions[f.pc]? = some w' → w' = w :=
    fun hw' => Option.some.inj (hw'.symm.trans hw.1)
  refine exec_good unjoined_rooted hcur (unjoined_closedAt h.instr ?_ ?_) h.calm h.num h.saved
    h.budget (stepTo_of_step hd)
  · intro w' hw'
    rw [hone hw']
    unfold reachesJoin
    rw [hw.2]
    rfl
  · intro w' hw'
    obtain rfl := hone hw'.1
    cases hw.2.symm.trans hw'.2

theorem fork_cases {w : UInt32} (hf : s.frames = f :: fs) (hw : f.proto.word f.pc .fork w)
    (hd : dispatchStep s o b e rest flags = some d) :
    (∃ which msg, d = settle b e rest flags
        (.walk ((s.setPc (f.pc + 1)).throwError o which msg false))) ∨
      ∃ stack, d = settle b e rest flags
          (.go { s with frames := { f with pc := f.pc + 1 } :: fs, stack := stack }) ∧
        (uinstrC w = uforkJoin → stack (f.base + uinstrB w) = .strand o.id) := by
  have hset := UStrand.setPc_of_frames hf (f.pc + 1)
  unfold dispatchStep at hd
  rw [fetch_eq hf hw.1] at hd
  simp only [Option.bind_eq_bind, Option.bind_some, hw.2, arm, extOf, armOfFork,
    budgetOf_of_ne (by decide : UOpcode.fork ≠ .jmp)] at hd
  split at hd
  · split at hd
    · cases hd
      exact .inl ⟨_, _, rfl⟩
    · right
      simp only [perform, Option.bind_some, Option.pure_def, Option.some.injEq] at hd
      subst hd
      by_cases hc : uinstrC w = uforkJoin
      · refine ⟨Function.update s.stack (f.base + uinstrB w) (.strand o.id), ?_, fun _ => ?_⟩
        · rw [if_pos hc, hset]
          rfl
        · exact Function.update_self _ _ _
      · refine ⟨s.stack, ?_, fun h => absurd h hc⟩
        rw [if_neg hc, hset]
        rfl
  · cases hd
    exact .inl ⟨_, _, rfl⟩

structure Joining (c d : Config loaded) (f : UFrame loaded) : Prop where
  running : ∃ b rest, c.acts = .run b none false :: rest ∧ d.acts = c.acts
  fork : ∃ f' fs w w' id, c.strand.frames = f' :: fs ∧ d.strand.frames = f :: fs ∧
    f = { f' with pc := f'.pc + 1 } ∧ f.proto.word f'.pc .fork w' ∧ f.proto.word f.pc .joinWait w ∧
    uinstrC w' = uforkJoin ∧ uinstrB w' = uinstrA w ∧
    d.strand.stack (f.base + uinstrA w) = .strand id

theorem fork_step {w : UInt32} {σ c : List (UCleanup loaded)}
    (hcur : Current unjoined s rest f fs σ c) (hat : AtInstr f.proto f.pc e)
    (hw : f.proto.word f.pc .fork w) (hj : joinsAt f.proto.val (f.pc + 1) = true)
    (hcalm : Calm s) (hn : NumOk s rest) (hs : SavedOk rest) (hb : BudgetOk b rest)
    (hd : dispatchStep s o b e rest flags = some d) :
    Good unjoined d ∨ ∃ s' g, d = ⟨s', .run b none false :: rest, flags⟩ ∧
      AtJoin s' b rest g fs ∧ Joining ⟨s, .run b e false :: rest, flags⟩ d g := by
  obtain rfl : e = none := hat.noExt hw rfl
  have hset := UStrand.setPc_of_frames hcur.frames (f.pc + 1)
  have hcur' := hcur.setPc (f.pc + 1)
  rcases fork_cases hcur.frames hw hd with ⟨which, msg, rfl⟩ | ⟨stack, rfl, hreg⟩
  · left
    exact settle_good flags (throwError_ok hcur' (numOk_setPc.mpr hn) rfl which msg false) hs hb
  · right
    have hnext : AtInstr f.proto (f.pc + 1) none :=
      hat.next hw (by decide) (by decide) (by decide)
    -- the word before the join is the fork just executed
    obtain ⟨w', hw'⟩ := joinsAt_iff.mp hj
    obtain ⟨k, w'', hk, hfork, hc, hb'⟩ := hnext.fork_before hw'
    obtain rfl : f.pc = k := by omega
    obtain rfl : w'' = w := Option.some.inj (hfork.1.symm.trans hw.1)
    have hgo : ∀ t : UStrand loaded,
        settle b none rest flags (.go t) = ⟨t, .run b none false :: rest, flags⟩ := fun t => by
      unfold settle
      exact if_neg hb.1
    refine ⟨_, { f with pc := f.pc + 1 }, hgo _, ?_, ?_⟩
    · refine ⟨⟨σ, c, hcur'.congr ?_ ?_⟩, hnext, hj, hcalm, hn, hs, hb⟩
      · rw [hset]
      · rw [hset]
    · rw [hgo]
      refine ⟨⟨b, rest, rfl, rfl⟩, f, fs, w', w'', o.id, hcur.frames, rfl, rfl, hfork, hw', hc, hb',
        ?_⟩
      rw [← hb']
      exact hreg hc

end Steps

/-! ## Runs -/

def Joined (c d : Config loaded) : Prop :=
  ∃ s b rest f fs flags, d = ⟨s, .run b none false :: rest, flags⟩ ∧ AtJoin s b rest f fs ∧
    Joining c d f

theorem closedHere_unjoined {c : Config loaded} {m : Move loaded} (hclear : c.joinClear m = true)
    (hfork : ∀ {b e rest f fs w}, c.acts = .run b e false :: rest → c.strand.frames = f :: fs →
      f.proto.word f.pc .fork w → joinsAt f.proto.val (f.pc + 1) = false) :
    ClosedHere unjoined c := by
  intro b e rest f fs σ hacts hf hat
  refine unjoined_closedAt hat.1 (fun hw => ?_) (hfork hacts hf)
  unfold joinClear at hclear
  rw [hacts, fetch_eq hf hw] at hclear
  simpa using hclear

theorem step_unjoined {c d : Config loaded} {m : Move loaded} (hclear : c.joinClear m = true)
    (hg : Good unjoined c) (hd : c.step m = some d) : Good unjoined d ∨ Joined c d := by
  by_cases hfork : ∃ b e rest f fs w, c.acts = .run b e false :: rest ∧
      c.strand.frames = f :: fs ∧ f.proto.word f.pc .fork w ∧
      joinsAt f.proto.val (f.pc + 1) = true
  · obtain ⟨b, e, rest, f, fs, w, hacts, hf, hw, hj⟩ := hfork
    obtain ⟨s, acts, flags⟩ := c
    obtain rfl : acts = .run b e false :: rest := hacts
    have hf : s.frames = f :: fs := hf
    have hbd := hg.2
    cases hg.1 with
    | empty hnil => rw [hf] at hnil; cases hnil
    | fetch hcur hat hcalm hb =>
      obtain ⟨rfl, rfl⟩ := List.cons.inj (hf.symm.trans hcur.frames)
      have hn : NumOk s rest := ⟨by simpa using hbd.nboundary, by simpa using hbd.running⟩
      cases m with
      | exec o =>
        have hd : dispatchStep s o b e rest flags = some d := by
          simpa [step, hf] using hd
        rcases fork_step hcur hat.1 hw hj hcalm hn hbd.saved hb hd with
          hgood | ⟨s', g, heq, hjoin, hjoining⟩
        · exact .inl hgood
        · exact .inr ⟨s', b, rest, g, fs, flags, heq, hjoin, hjoining⟩
      | _ => cases hd
  · left
    refine step_keeps unjoined_rooted (closedHere_unjoined hclear ?_) hg hd
    intro b e rest f fs w hacts hf hw
    rw [Bool.eq_false_iff]
    exact fun hj => hfork ⟨b, e, rest, f, fs, w, hacts, hf, hw, hj⟩

theorem step_joined {p c d : Config loaded} {m : Move loaded} (hj : Joined p c)
    (hd : c.step m = some d) : Good unjoined d := by
  obtain ⟨s, b, rest, f, fs, flags, rfl, hat, -⟩ := hj
  cases m with
  | exec o => exact hat.step hd
  | _ => cases hd

theorem runIf_joinClear {c d : Config loaded} {ms : List (Move loaded)} (hc : Initial c)
    (hr : RunIf joinClear c ms d) : Good unjoined d ∨
      ∃ ms' m c', ms = ms' ++ [m] ∧ RunIf joinClear c ms' c' ∧ c'.step m = some d ∧ Joined c' d := by
  induction hr with
  | nil => exact .inl (initial_good unjoined_rooted hc)
  | @snoc ms d e m hrun hclear hstep ih =>
    rcases ih with hg | ⟨ms', m', c', -, -, -, hj⟩
    · rcases step_unjoined hclear hg hstep with hgood | hj
      · exact .inl hgood
      · exact .inr ⟨ms, m, d, rfl, hrun, hstep, hj⟩
    · exact .inl (step_joined hj hstep)

/-- Where no executed instruction reaches a `JOIN_WAIT` by a jump, a skip, a handler or the end of a
prelude, every dispatched `JOIN_WAIT` directly follows the execution of the fork whose handle it
reads. -/
theorem joinWait_behind_fork {c d : Config loaded} {ms : List (Move loaded)} (hc : Initial c)
    (hr : RunIf joinClear c ms d) {b e : Option Nat} {rest : List (Act loaded)}
    (hacts : d.acts = .run b e false :: rest) {f : UFrame loaded} {fs : List (UFrame loaded)}
    (hf : d.strand.frames = f :: fs) {w : UInt32} (hw : f.proto.word f.pc .joinWait w) :
    ∃ ms' o c', ms = ms' ++ [.exec o] ∧ Run c ms' c' ∧ c'.step (.exec o) = some d ∧
      Joining c' d f := by
  rcases runIf_joinClear hc hr with hg | ⟨ms', m, c', rfl, hrun, hstep, hj⟩
  · -- a run that stands at no `JOIN_WAIT`
    obtain ⟨s, acts, flags⟩ := d
    obtain rfl : acts = .run b e false :: rest := hacts
    have hf : s.frames = f :: fs := hf
    cases hg.1 with
    | empty hnil => rw [hf] at hnil; cases hnil
    | fetch hcur hat _ _ =>
      obtain ⟨rfl, -⟩ := List.cons.inj (hf.symm.trans hcur.frames)
      exact absurd (joinsAt_iff.mpr ⟨w, hw⟩) (by rw [hat.2]; decide)
  · obtain ⟨s, b', rest', g, gs, flags, rfl, hat, hjoining⟩ := hj
    obtain ⟨σ, cs, hcur⟩ := hat.current
    obtain ⟨rfl, -⟩ := List.cons.inj (hf.symm.trans hcur.frames)
    obtain ⟨b'', rest'', hrunning, -⟩ := hjoining.running
    obtain ⟨o, rfl⟩ : ∃ o, m = .exec o := by
      obtain ⟨s', acts', flags'⟩ := c'
      obtain rfl : acts' = _ := hrunning
      cases m with
      | exec o => exact ⟨o, rfl⟩
      | _ => cases hstep
    exact ⟨ms', o, c', rfl, hrun.run, hstep, hjoining⟩

theorem steps_snoc (c : Config loaded) (ms : List (Move loaded)) (m : Move loaded) :
    c.steps (ms ++ [m]) = (c.steps ms).bind (·.step m) := by
  induction ms generalizing c with
  | nil =>
    show (c.step m).bind some = c.step m
    cases c.step m <;> rfl
  | cons m' ms ih =>
    show ((c.step m').bind fun c => c.steps (ms ++ [m])) = _
    simp only [ih]
    exact (Option.bind_assoc _ _ _).symm

theorem steps_of_run {c d : Config loaded} {ms : List (Move loaded)} (h : Run c ms d) :
    c.steps ms = some d := by
  induction h with
  | nil => rfl
  | snoc m _ hstep ih => rw [steps_snoc, ih]; exact hstep

end Config

def overFork : Block :=
  ⟨1, 0, 0, true, [], [uinstrEncAbx .jmp 0 (ujmpBias + 1), uinstrEncAbc .fork 0 1 1,
    uinstrEncAbc .joinWait 1 0 0, uinstrEncAbc .ret 0 0 0], [1, 0, 0, 0], [], []⟩

theorem loaded_overFork : loaded.has (.mk overFork []) :=
  loaded_leaf ⟨by decide, by decide, by decide, by decide, by decide, by decide, by decide,
    by decide, by decide, by decide⟩ rfl rfl rfl (by decide)

def overForkStrand : Option (Config loaded) :=
  Config.uschedSpawn Config.grantAll (fun _ => 0)
    ⟨0, .proto ⟨.mk overFork [], loaded_overFork⟩, 0, none⟩ none .nil []

/-- A loaded function dispatches a `JOIN_WAIT` right behind a jump. -/
theorem joinWait_behind_jmp :
    ∃ (c d : Config loaded) (f : UFrame loaded) (w : UInt32), overForkStrand = some c ∧
      c.Initial ∧ c.Run [.dispatch 0, .exec Config.grantAll] d ∧
      d.acts = [.run none none false] ∧ d.strand.frames = [f] ∧ f.proto.word f.pc .joinWait w ∧
      ∀ ms' o c', [.dispatch 0, .exec Config.grantAll] = ms' ++ [.exec o] → c.Run ms' c' →
        ¬ Config.Joining c' d f := by
  have hrun : ∃ (c c₁ d : Config loaded) (f₁ f : UFrame loaded), overForkStrand = some c ∧
      c.steps [.dispatch 0] = some c₁ ∧ c.steps [.dispatch 0, .exec Config.grantAll] = some d ∧
      c₁.strand.frames = [f₁] ∧ f₁.pc = 0 ∧
      d.acts = [.run none none false] ∧ d.strand.frames = [f] ∧ f.pc = 2 ∧
      f.proto.val.block = overFork :=
    ⟨_, _, _, _, _, rfl, rfl, rfl, rfl, rfl, rfl, rfl, rfl, rfl⟩
  obtain ⟨c, c₁, d, f₁, f, hc, hc₁, hd, hf₁, hpc₁, hacts, hf, hpc, hcode⟩ := hrun
  refine ⟨c, d, f, uinstrEncAbc .joinWait 1 0 0, hc, Config.uschedSpawn_initial hc,
    Config.run_of_steps hd, hacts, hf, ?_, ?_⟩
  · unfold Fn.word
    rw [hcode, hpc]
    decide
  · intro ms' o c' hms hr hj
    have hms : [.dispatch 0] ++ [.exec Config.grantAll] = ms' ++ [.exec o] := hms
    obtain ⟨rfl, -⟩ := List.append_inj' hms rfl
    have hsame : c₁ = c' := Option.some.inj (hc₁.symm.trans (Config.steps_of_run hr))
    subst hsame
    -- the step before came from the first word
    obtain ⟨f', fs, -, -, -, hf', -, rfl, -⟩ := hj.fork
    obtain ⟨rfl, -⟩ := List.cons.inj (hf₁.symm.trans hf')
    rw [hpc₁] at hpc
    cases hpc

def forkJoin : Block :=
  ⟨1, 0, 1, false, [], [uinstrEncAbc .fork 0 1 1, uinstrEncAbc .joinWait 1 0 0,
    uinstrEncAbc .ret 0 0 0], [1, 0, 0], [], []⟩

theorem loaded_forkJoin : loaded.has (.mk forkJoin []) :=
  loaded_leaf ⟨by decide, by decide, by decide, by decide, by decide, by decide, by decide,
    by decide, by decide, by decide⟩ rfl rfl rfl (by decide)

def forkJoinClosure : UClosure loaded := ⟨0, .proto ⟨.mk forkJoin [], loaded_forkJoin⟩, 0, none⟩

def forkJoinStrand : Option (Config loaded) :=
  Config.uschedSpawn Config.grantAll (fun _ => 0) forkJoinClosure none .nil
    [.closure forkJoinClosure]

theorem joinWait_behind_fork_forkJoin :
    ∃ (c d : Config loaded) (f : UFrame loaded), forkJoinStrand = some c ∧
      c.RunIf Config.joinClear [.dispatch 0, .exec Config.grantAll] d ∧
      d.acts = [.run none none false] ∧ d.strand.frames = [f] ∧
      f.proto.word f.pc .joinWait (uinstrEncAbc .joinWait 1 0 0) ∧
      ∃ ms' o c', [.dispatch 0, .exec Config.grantAll] = ms' ++ [.exec o] ∧ c.Run ms' c' ∧
        c'.step (.exec o) = some d ∧ Config.Joining c' d f := by
  have hrun : ∃ (c d : Config loaded) (f : UFrame loaded), forkJoinStrand = some c ∧
      c.stepsIf Config.joinClear [.dispatch 0, .exec Config.grantAll] = some d ∧
      d.acts = [.run none none false] ∧ d.strand.frames = [f] ∧ f.pc = 1 ∧
      f.proto.val.block = forkJoin :=
    ⟨_, _, _, rfl, rfl, rfl, rfl, rfl, rfl⟩
  obtain ⟨c, d, f, hc, hd, hacts, hf, hpc, hcode⟩ := hrun
  have hr := Config.runIf_of_stepsIf hd
  have hw : f.proto.word f.pc .joinWait (uinstrEncAbc .joinWait 1 0 0) := by
    unfold Fn.word
    rw [hcode, hpc]
    decide
  exact ⟨c, d, f, hc, hr, hacts, hf, hw,
    Config.joinWait_behind_fork (Config.uschedSpawn_initial hc) hr hacts hf hw⟩

end Urbi
