import Urbi.Rt.Arms

/-!
# Every step keeps the shape

For any typing: from a configuration of the right shape every move leads to one.  `AfterOk` and
`TurnOk` say what each part of a step has to deliver.
-/

namespace Urbi

namespace Config

variable {L : CodeBase} {J : Judgement L}
variable {acts : List (Act L)} {d : UCleanup L} {ext : Option Nat} {n pc : Nat} {w : UInt32}
  {op : UOpcode} {grant : Bool}

/-! ## Under the top frame -/

variable {c : List (UCleanup L)} {fs : List (UFrame L)}

theorem Stacked.frame_lt {o : Option Bool}
    (h : Stacked J o fs c acts) : ∀ d ∈ c, d.frame < fs.length := by
  have happ : ∀ {f : UFrame L} {fs : List (UFrame L)} {σ c : List (UCleanup L)},
      (∀ d ∈ σ, d.frame = fs.length) → (∀ d ∈ c, d.frame < fs.length) →
      ∀ d ∈ σ ++ c, d.frame < (f :: fs).length := by
    intro f fs σ c hσ hc d hd
    rw [List.length_cons]
    rcases List.mem_append.mp hd with hd | hd
    · rw [hσ d hd]; omega
    · have := hc d hd; omega
  induction h with
  | bottom => simp
  | caller _ hidx _ _ ih | arm _ hidx _ _ _ _ _ _ _ ih => exact happ hidx ih
  | enter _ ih | callback _ ih => exact ih
  | host => simp

variable {rest : List (Act L)}

theorem Stacked.of_true (h : Stacked J (some true) fs c rest) :
    ∃ saved acts, rest = .call saved :: acts ∧ Stacked J none fs c acts := by
  cases h with
  | enter h => exact ⟨_, _, rfl, h⟩

theorem Stacked.calls_pos {b : Bool}
    (h : Stacked J (some b) fs c rest) (hne : rest ≠ []) : 0 < calls rest := by
  generalize ho : some b = o at h
  induction h generalizing b with
  | bottom => exact absurd rfl hne
  | caller _ _ _ _ ih => exact ih hne rfl
  | enter _ _ => exact List.countP_pos_iff.mpr ⟨_, .head _, rfl⟩
  | arm _ _ _ _ _ _ _ _ _ _ | callback _ _ | host => cases ho

theorem Stacked.out (h : Stacked J none fs c acts) :
    ∃ k failed rest, acts = .out k failed :: rest := by
  cases h with
  | arm | callback | host => exact ⟨_, _, _, rfl⟩

theorem Stacked.setFailed {k : Cont L} {failed : Bool}
    (h : Stacked J none fs c (.out k failed :: rest)) (failed' : Bool) :
    Stacked J none fs c (.out k failed' :: rest) := by
  cases h with
  | arm h₁ h₂ h₃ h₄ h₅ h₆ h₇ h₈ h₉ => exact .arm h₁ h₂ h₃ h₄ h₅ h₆ h₇ h₈ h₉
  | callback h => exact .callback h
  | host => exact .host

namespace Current

variable {s s' : UStrand L} {rest : List (Act L)} {f : UFrame L} {fs : List (UFrame L)}
  {σ c : List (UCleanup L)} (h : Current J s rest f fs σ c)

include h

theorem congr (hf : s'.frames = s.frames)
    (hc : s'.cleanup = s.cleanup) : Current J s' rest f fs σ c :=
  ⟨hf.trans h.frames, hc.trans h.cleanup, h.under, h.frameIdx, h.owned⟩

theorem setPc (pc : Nat) : Current J (s.setPc pc) rest { f with pc := pc } fs σ c := by
  rw [UStrand.setPc_of_frames h.frames]
  exact ⟨rfl, h.cleanup, h.under, h.frameIdx, h.owned⟩

theorem suspend (hat : J.Rests f.proto f.pc σ) :
    Stacked J (some false) s.frames s.cleanup rest := by
  rw [h.frames, h.cleanup]
  exact .caller h.under h.frameIdx h.owned hat

theorem enter (hat : J.Rests f.proto f.pc σ) {g : UFrame L}
    (hg : g.isBoundary = false) (hf : s'.frames = g :: s.frames) (hc : s'.cleanup = s.cleanup) :
    Current J s' rest g s.frames [] s.cleanup :=
  ⟨hf, hc, hg ▸ h.suspend hat, nofun, trivial⟩

theorem top_of_frame {ds : List (UCleanup L)}
    (hd : s.cleanup = d :: ds) (hle : fs.length ≤ d.frame) : ∃ σ', σ = d :: σ' ∧ ds = σ' ++ c := by
  have heq := h.cleanup.symm.trans hd
  cases σ with
  | nil =>
    have hmem : d ∈ c := by
      have : c = d :: ds := heq
      rw [this]
      exact .head _
    have := h.under.frame_lt d hmem
    omega
  | cons e σ' =>
    obtain ⟨rfl, htail⟩ := List.cons.inj heq
    exact ⟨σ', rfl, htail.symm⟩

theorem length : s.frames.length - 1 = fs.length := by
  rw [h.frames]
  rfl

theorem owns_none (hd : ∀ d ds, s.cleanup = d :: ds → d.frame < fs.length) : σ = [] := by
  cases σ with
  | nil => rfl
  | cons e σ' =>
    have hlt := hd e (σ' ++ c) h.cleanup
    rw [h.frameIdx e (.head _)] at hlt
    omega

theorem pop {σ' : List (UCleanup L)} (hσ : σ = d :: σ')
    (hf : s'.frames = s.frames) (hc : s'.cleanup = σ' ++ c) : Current J s' rest f fs σ' c := by
  subst hσ
  exact ⟨hf.trans h.frames, hc, h.under, fun e he => h.frameIdx e (.tail _ he), h.owned.2⟩

theorem push (hd : d.frame = fs.length)
    (hok : EntryOk J f.proto d σ) (hf : s'.frames = s.frames) (hc : s'.cleanup = d :: s.cleanup) :
    Current J s' rest f fs (d :: σ) c := by
  refine ⟨hf.trans h.frames, by rw [hc, h.cleanup]; rfl, h.under, fun e he => ?_, hok, h.owned⟩
  rcases List.mem_cons.mp he with rfl | he
  · exact hd
  · exact h.frameIdx e he

end Current

/-! ## Leaving a run -/

def NumOk (s : UStrand L) (rest : List (Act L)) : Prop :=
  s.nboundary = calls rest ∧ (0 < calls rest → s.state = .running)

theorem numOk_setPc {pc : Nat} : NumOk (s.setPc pc) rest ↔ NumOk s rest := by
  unfold UStrand.setPc
  split <;> rfl

theorem calm_setPc {pc : Nat} : Calm (s.setPc pc) ↔ Calm s := by
  unfold UStrand.setPc
  split <;> rfl

def LeaveOk (J : Judgement L) (s : UStrand L) : List (Act L) → Prop
  | [] =>
    Stacked J (some false) s.frames s.cleanup [] ∧ (Calm s ∨ s.state = .dead) ∧ s.nboundary = 0
  | .call _ :: acts =>
    Stacked J none s.frames s.cleanup acts ∧ s.unwind ≠ .jump ∧ s.state ≠ .parked ∧ NumOk s acts
  | _ => False

def Good (J : Judgement L) (c : Config L) : Prop := Shape J c ∧ Bounded c

variable {s : UStrand L}

theorem leaveRun_idle (flags : Nat → UInt8) (h : LeaveOk J s []) :
    Good J (leaveRun s [] flags) := by
  obtain ⟨hst, hcalm, hn⟩ := h
  have hcalls : ¬ 0 < calls ([] : List (Act L)) := by simp [calls]
  exact ⟨.idle hst (hcalm.imp_right .inl), hn, fun h => absurd h hcalls, trivial⟩

theorem leaveRun_call {saved : UStrandState} (flags : Nat → UInt8)
    (h : LeaveOk J s (.call saved :: acts)) (hs : SavedOk (.call saved :: acts)) :
    Good J (leaveRun s (.call saved :: acts) flags) := by
  obtain ⟨hst, hjump, -, hn, hrun⟩ := h
  obtain ⟨hsaved, hrest⟩ := hs
  obtain ⟨k, failed, rest, rfl⟩ := hst.out
  unfold leaveRun
  dsimp only
  split
  · exact ⟨.out (hst.setFailed true) nofun hjump, hn, hrun, hrest⟩
  · rename_i hcond
    have hnone : s.unwind = .none := by
      by_contra h
      exact hcond (.inl h)
    exact ⟨.out hst (fun _ => .inl hnone) hjump, hn, hsaved, hrest⟩

theorem leaveRun_good (flags : Nat → UInt8)
    (h : LeaveOk J s rest) (hs : SavedOk rest) : Good J (leaveRun s rest flags) := by
  cases rest with
  | nil => exact leaveRun_idle flags h
  | cons a acts =>
    cases a with
    | call saved => exact leaveRun_call flags h hs
    | run _ _ _ | out _ _ => exact absurd h id

def LandOk (J : Judgement L) (rest : List (Act L)) (s : UStrand L) : Prop :=
  ∃ f fs σ c, Current J s rest f fs σ c ∧ J.Rests f.proto f.pc σ ∧ Calm s ∧ NumOk s rest

def AfterOk (J : Judgement L) (rest : List (Act L)) (ext : Option Nat) : After L → Prop
  | .go s =>
    ∃ f fs σ c, Current J s rest f fs σ c ∧ J.At f.proto f.pc ext σ ∧ Calm s ∧ NumOk s rest
  | .walk s =>
    J.rest ext ∧ ∃ f fs σ c, Current J s rest f fs σ c ∧ s.unwind ≠ .none ∧
      JumpState J s f σ s.jumpDepth ∧ NumOk s rest
  | .leave s => LeaveOk J s rest
  | .push s k =>
    J.rest ext ∧ ∃ f fs σ c, Current J s rest f fs σ c ∧ ArmTyped J f σ k ∧ k ≠ .callback ∧
      leaving k = false ∧ (k = .yield → rest = []) ∧ Calm s ∧ NumOk s rest

theorem Current.land {f : UFrame L} {σ : List (UCleanup L)} (h : Current J s rest f fs σ c)
    (hat : J.Rests f.proto pc σ) (hcalm : Calm s) (hn : NumOk s rest) :
    LandOk J rest (s.setPc pc) :=
  ⟨_, fs, σ, c, h.setPc pc, hat, calm_setPc.mpr hcalm, numOk_setPc.mpr hn⟩

theorem LandOk.go (h : LandOk J rest s) (he : J.rest ext) : AfterOk J rest ext (.go s) := by
  obtain ⟨f, fs, σ, c, hcur, hat, hok⟩ := h
  exact ⟨f, fs, σ, c, hcur, hat ext he, hok⟩

theorem Calm.ne_jump (h : Calm s) : s.unwind ≠ .jump := by
  rcases h with h | h <;> rw [h] <;> decide

theorem settle_good {a : After L} {b : Option Nat} (flags : Nat → UInt8)
    (ha : AfterOk J rest ext a) (hs : SavedOk rest) (hb : BudgetOk b rest) :
    Good J (settle b ext rest flags a) := by
  cases a with
  | go s =>
    obtain ⟨f, fs, σ, c, hcur, hat, hcalm, hn, hrun⟩ := ha
    unfold settle
    dsimp only
    rw [if_neg hb.1]
    exact ⟨.fetch hcur hat hcalm hb, hn, hrun, hs⟩
  | walk s =>
    obtain ⟨he, f, fs, σ, c, hcur, hne, hjump, hn, hrun⟩ := ha
    exact ⟨.walk hcur hne hjump hb he, hn, hrun, hs⟩
  | leave s => exact leaveRun_good flags ha hs
  | push s k =>
    obtain ⟨he, f, fs, σ, c, hcur, harm, hk, hl, hy, hcalm, hn, hrun⟩ := ha
    refine ⟨.out ?_ (fun _ => hcalm) hcalm.ne_jump, hn, hrun, hs⟩
    rw [hcur.frames, hcur.cleanup]
    exact .arm hcur.under hcur.frameIdx hcur.owned harm hk hl hy hb he

theorem settle_spent {f : UFrame L} {σ : List (UCleanup L)}
    (flags : Nat → UInt8) (h : Current J s [] f fs σ c) (hat : J.Rests f.proto f.pc σ)
    (hcalm : Calm s) (hn : s.nboundary = 0) (e : Option Nat) :
    Good J (settle (some 0) e [] flags (.go s)) :=
  leaveRun_idle flags ⟨h.suspend hat, .inl hcalm, hn⟩

/-! ## Returning -/

section Return

variable {s : UStrand L} {rest : List (Act L)} {f : UFrame L} {fs : List (UFrame L)}
  {c : List (UCleanup L)}

theorem popFrame_eq (h : s.frames = f :: fs) : s.popFrame = { s with
      frames := fs, nboundary := if f.isBoundary then s.nboundary - 1 else s.nboundary } := by
  unfold UStrand.popFrame
  rw [h]

theorem Current.popFrame (h : Current J s rest f fs [] c) (hn : NumOk s rest) :
    (f.isBoundary = true ∧ ∃ saved acts, rest = .call saved :: acts ∧
      Stacked J none fs c acts ∧ s.nboundary - 1 = calls acts ∧
      (0 < calls acts → s.state = .running)) ∨
    (f.isBoundary = false ∧ fs = [] ∧ c = [] ∧ rest = []) ∨
    (f.isBoundary = false ∧ ∃ g gs σ c', fs = g :: gs ∧ c = σ ++ c' ∧
      Current J s.popFrame rest g gs σ c' ∧ J.Rests g.proto g.pc σ) := by
  have hunder := h.under
  cases hb : f.isBoundary with
  | true =>
    left
    rw [hb] at hunder
    obtain ⟨saved, acts, rfl, hst⟩ := hunder.of_true
    have hcalls : calls (.call saved :: acts) = calls acts + 1 := List.countP_cons_of_pos rfl
    refine ⟨rfl, saved, acts, rfl, hst, ?_, fun hpos => hn.2 (by omega)⟩
    have := hn.1
    omega
  | false =>
    right
    rw [hb] at hunder
    cases hunder with
    | bottom => exact .inl ⟨rfl, rfl, rfl, rfl⟩
    | caller hst hidx howned hat =>
      refine .inr ⟨rfl, _, _, _, _, rfl, rfl, ?_, hat⟩
      rw [popFrame_eq h.frames]
      exact ⟨rfl, h.cleanup, hst, hidx, howned⟩

theorem completeReturn_boundary (h : s.frames = f :: fs) (hb : f.isBoundary = true) (v : UValue L) :
    s.completeReturn v = ({ s.popFrame with result := v, state := .running }, true) := by
  unfold UStrand.completeReturn
  rw [h]
  exact if_pos hb

theorem completeReturn_last (h : s.frames = [f]) (hb : f.isBoundary = false) (v : UValue L) :
    s.completeReturn v = ({ s.popFrame with result := v, state := .dead }, true) := by
  unfold UStrand.completeReturn
  rw [h]
  exact if_neg (by rw [hb]; decide)

theorem completeReturn_caller {g : UFrame L} (h : s.frames = f :: g :: fs)
    (hb : f.isBoundary = false) (v : UValue L) :
    s.completeReturn v = (s.popFrame.setReg (g.base + f.retReg) v, false) := by
  unfold UStrand.completeReturn
  rw [h]
  exact if_neg (by rw [hb]; decide)

theorem completeReturn_ok (h : Current J s rest f fs [] c) (hn : NumOk s rest) (hcalm : Calm s)
    (v : UValue L) : if (s.completeReturn v).2 then LeaveOk J (s.completeReturn v).1 rest
    else LandOk J rest (s.completeReturn v).1 := by
  have hclean : s.cleanup = c := h.cleanup
  have hpop := popFrame_eq h.frames
  rcases h.popFrame hn with ⟨hb, saved, acts, rfl, hst, hnb, hrun⟩ | ⟨hb, rfl, rfl, rfl⟩ |
      ⟨hb, g, gs, σ, c', rfl, rfl, hcur, hat⟩
  · rw [completeReturn_boundary h.frames hb, hpop, if_pos hb]
    exact ⟨hclean ▸ hst, hcalm.ne_jump, nofun, hnb, fun _ => rfl⟩
  · rw [completeReturn_last h.frames hb, hpop, hb]
    exact ⟨hclean ▸ .bottom, .inr rfl, hn.1⟩
  · rw [completeReturn_caller h.frames hb]
    refine ⟨g, gs, σ, c', hcur.congr rfl rfl, hat, ?_, ?_⟩
    · rw [hpop]; exact hcalm
    · rw [hpop, hb]; exact hn

end Return

/-! ## The arms -/

section Perform

variable {s : UStrand L} {rest : List (Act L)} {f : UFrame L} {fs : List (UFrame L)}
  {σ c : List (UCleanup L)} {o : Oracle L} {e : Option Nat}

theorem nboundary_of_may (hmay : s.mayDeschedule = true) : s.nboundary = 0 := by
  unfold UStrand.mayDeschedule at hmay
  rw [Bool.and_eq_true, decide_eq_true_eq] at hmay
  exact hmay.2

theorem calls_eq_zero_of_may (hn : NumOk s rest) (hmay : s.mayDeschedule = true) :
    calls rest = 0 := hn.1.symm.trans (nboundary_of_may hmay)

theorem mark_ok {σ' : List (UCleanup L)} (hok : EntryOk J f.proto d σ') (hkind : d.kind = .try)
    (hrun : d.running = false) (hfin : d.hasFinally = true) {u : UUnwindKind} {v : UValue L}
    (hmark : MarkOk J f.proto (d.mark u v n) σ') :
    EntryOk J f.proto (d.mark u v n) σ' ∧ J.Rests f.proto d.handlerPc (d.mark u v n :: σ') := by
  have hrun' : (d.mark u v n).running = true := by
    show (d.flags ||| 0x20).testBit 5 = true
    rw [Nat.testBit_or, show Nat.testBit 0x20 5 = true by decide, Bool.or_true]
  unfold EntryOk at hok
  rw [hkind] at hok
  simp only [hrun, hfin, Bool.false_eq_true, if_false, if_true] at hok
  refine ⟨?_, hok u v n⟩
  unfold EntryOk
  have hkind' : (d.mark u v n).kind = .try := hkind
  rw [hkind']
  simp only [hrun', if_true]
  exact hmark

theorem jmpTarget_eq (pc : Nat) (w : UInt32) :
    ((pc + 1 : Nat) : Int) + ((uinstrBx w : Int) - ujmpBias) -
      (if (uinstrBx w : Int) - ujmpBias < 0 then 1 else 0) = verifiedJmpTarget pc w := by
  unfold verifiedJmpTarget
  push_cast
  split <;> split <;> omega

theorem rest_extOf {p : Fn L} (hroot : J.Rooted) (hat : J.ClosedAt p pc ext σ)
    (hw : p.word pc op w) (hne : op ≠ .extarg) : J.rest (extOf (some op) w ext) := by
  have hkeep := hat.keepsExt hw
  cases op <;> first | exact hroot.rest_none | exact hkeep rfl hne | exact absurd rfl hne

theorem falls_ne_extarg (h : falls op = true) : op ≠ .extarg := by
  rintro rfl
  cases h

variable (h : Current J s rest f fs σ c)

include h

theorem Current.rest_nil (hz : calls rest = 0) : rest = [] := by
  by_contra hne
  have := h.under.calls_pos hne
  omega

theorem Current.ownsEntry_eq (hown : ownsEntry s = false) : σ = [] := by
  refine h.owns_none fun d ds hd => ?_
  unfold ownsEntry at hown
  rw [hd, h.length, decide_eq_false_iff_not] at hown
  omega

variable (hn : NumOk s rest)

include hn

theorem walk_ok (he : J.rest e) {s' : UStrand L} (hf : s'.frames = s.frames)
    (hc : s'.cleanup = s.cleanup) (hb : s'.nboundary = s.nboundary)
    (hst : s'.state = s.state) (hne : s'.unwind ≠ .none) (hj : s'.unwind ≠ .jump) :
    AfterOk J rest e (.walk s') :=
  ⟨he, f, fs, σ, c, h.congr hf hc, hne, fun h => absurd h hj, hb.trans hn.1,
    fun hpos => hst.trans (hn.2 hpos)⟩

theorem throwError_ok (he : J.rest e) (which : UErrorProto) (msg : String) (pos : Bool) :
    AfterOk J rest e (.walk (s.throwError o which msg pos)) :=
  walk_ok h hn he rfl rfl rfl rfl (by simp [UStrand.throwError]) (by simp [UStrand.throwError])

theorem fatal_ok (he : J.rest e) (msg : String) : AfterOk J rest e (.walk (s.fatal o msg)) :=
  walk_ok h hn he rfl rfl rfl rfl (by simp [UStrand.fatal]) (by simp [UStrand.fatal])

variable (hcalm : Calm s)

include hcalm

theorem parked_ok (hat : J.Rests f.proto f.pc σ) (hmay : s.mayDeschedule = true) :
    AfterOk J rest e (.leave { s with state := .parked }) := by
  have hz := calls_eq_zero_of_may hn hmay
  obtain rfl := h.rest_nil hz
  exact ⟨h.suspend hat, .inl hcalm, hn.1⟩

theorem afterRet_ok (he : J.rest e) (v : UValue L) : AfterOk J rest e (afterRet s v) := by
  unfold afterRet
  cases hown : ownsEntry s with
  | true => exact walk_ok h hn he rfl rfl rfl rfl (by simp) (by simp)
  | false =>
    obtain rfl := h.ownsEntry_eq hown
    have hret := completeReturn_ok h hn hcalm v
    rw [if_neg (by decide)]
    by_cases hdone : (s.completeReturn v).2 = true
    · rw [if_pos hdone] at hret ⊢
      exact hret
    · rw [if_neg hdone] at hret ⊢
      exact hret.go he

theorem afterCall_ok (hroot : J.Rooted) (hat : J.Rests f.proto f.pc σ) (he : J.rest e)
    (a b cc : Nat) : AfterOk J rest e (afterCall s o f a b cc) := by
  unfold afterCall
  split
  · exact throwError_ok h hn he _ _ _
  · exact ⟨he, f, fs, σ, c, h, hat, nofun, rfl, nofun, hcalm, hn⟩
  · rename_i s' hcall
    obtain ⟨g, stack, cap, hpc, hg, rfl⟩ := doCall_eq hcall
    have henter : Current J { s with
        stack := stack, framesCap := cap, frames := g :: s.frames } rest g s.frames [] s.cleanup :=
      h.enter hat hg rfl rfl
    have hstart : J.Rests g.proto g.pc [] := hpc ▸ hroot.start g.proto
    split
    · rename_i hstate
      have hz : calls rest = 0 := by
        by_contra hne
        exact hstate (hn.2 (Nat.pos_of_ne_zero hne))
      obtain rfl := h.rest_nil hz
      exact ⟨henter.suspend hstart, .inl hcalm, hn.1⟩
    · exact ⟨g, s.frames, [], s.cleanup, henter, hstart e he, hcalm, hn⟩

theorem afterResume_ok (he : J.rest e) : AfterOk J rest e (afterResume s o) := by
  unfold afterResume
  split
  · exact fatal_ok h hn he _
  · rename_i m ms hm
    split
    · exact fatal_ok h hn he _
    · rename_i hcond
      have hrun : m.running = true := by
        cases hr : m.running
        · exact absurd (.inl hr) hcond
        · rfl
      have hframe : m.frame = fs.length := by
        by_contra hne
        exact hcond (.inr (h.length.symm ▸ hne))
      obtain ⟨σ', rfl, rfl⟩ := h.top_of_frame hm hframe.ge
      have hentry := h.owned.1
      -- a tag scope is never a marker
      have hmark : MarkOk J f.proto m σ' := by
        unfold EntryOk at hentry
        split at hentry
        · rw [hentry.1] at hrun; cases hrun
        · rwa [if_pos hrun] at hentry
      have hpop : Current J { s with cleanup := σ' ++ c } rest f fs σ' c := h.pop rfl rfl rfl
      dsimp only
      split
      · rename_i hnone
        exact (hpop.land (hmark.1 hnone) hcalm hn).go he
      · rename_i hsome
        refine ⟨he, f, fs, σ', c, hpop.congr rfl rfl, hsome, fun hjump => ?_, hn⟩
        have hjump : m.savedUnwind = .jump := hjump
        dsimp only
        rw [if_pos hjump]
        exact ⟨Nat.mod_lt _ (by decide), hmark.2 hjump⟩

theorem afterPop_ok (he : J.rest e) (hpc : f.pc = pc + 1) (hat : J.ClosedAt f.proto pc ext σ)
    (hw : f.proto.word pc .scopePop w) : AfterOk J rest e (afterPop s o f (uinstrA w)) := by
  unfold afterPop
  dsimp only
  split
  · exact fatal_ok h hn he _
  · rename_i d ds hd
    rw [h.length]
    split
    · rename_i htag
      split
      · exact fatal_ok h hn he _
      · rename_i hcond
        rw [not_or, not_not, not_not] at hcond
        obtain ⟨σ', rfl, rfl⟩ := h.top_of_frame hd hcond.2.ge
        have hmatch : PopMatches (uinstrA w) d := by
          unfold PopMatches; rw [if_pos htag]; exact hcond.1
        have hnext : J.Rests f.proto f.pc σ' := hpc ▸ hat.scopePop rfl hw hmatch
        exact ⟨he, f, fs, σ', c, h.pop rfl rfl rfl, hnext, nofun, rfl, nofun, hcalm, hn⟩
    · rename_i htag
      split
      · exact fatal_ok h hn he _
      · rename_i hcond
        rw [not_or, not_or, not_or, not_not, not_not] at hcond
        obtain ⟨hkind, hrun, hframe, hfin⟩ := hcond
        rw [Bool.not_eq_true] at hrun
        obtain ⟨σ', rfl, rfl⟩ := h.top_of_frame hd hframe.ge
        have hfin' : (uinstrA w).testBit 2 = true → d.hasFinally = true := fun hbit => by
          cases hf : d.hasFinally
          · exact absurd ⟨hbit, hf⟩ hfin
          · rfl
        have hmatch : PopMatches (uinstrA w) d := by
          unfold PopMatches; rw [if_neg htag]; exact ⟨hkind, hrun, hfin'⟩
        have hnext : J.Rests f.proto f.pc σ' := hpc ▸ hat.scopePop rfl hw hmatch
        have hpop : Current J { s with cleanup := σ' ++ c } rest f fs σ' c :=
          h.pop rfl rfl rfl
        split
        · exact ⟨f, fs, σ', c, hpop, hnext e he, hcalm, hn⟩
        · rename_i hbit
          rw [Bool.not_eq_false] at hbit
          obtain ⟨hentry, hhandler⟩ := mark_ok (u := .none) (v := .nil) (n := f.pc)
            h.owned.1 hkind hrun (hfin' hbit) ⟨fun _ => hnext, nofun⟩
          split
          · exact throwError_ok hpop hn he _ _ _
          · rename_i s' hpush
            obtain ⟨cap, rfl⟩ := UStrand.pushCleanup_eq hpush
            have hframe' : (d.mark .none .nil f.pc).frame = fs.length := h.frameIdx d (.head _)
            exact LandOk.go (Current.land (hpop.push hframe' hentry rfl rfl) hhandler hcalm hn) he

theorem perform_ok (hroot : J.Rooted) (hpc : f.pc = pc + 1) (hat : J.ClosedAt f.proto pc ext σ)
    (hw : f.proto.word pc op w) {a : Arm L} (ha : ArmFor f.proto.val s.mayDeschedule op w a)
    {after : After L} (hp : perform s o f a = some after) :
    AfterOk J rest (extOf (some op) w ext) after := by
  have hrest : op ≠ .extarg → J.rest (extOf (some op) w ext) := rest_extOf hroot hat hw
  have hfall : falls op = true → J.Rests f.proto f.pc σ := fun hf => hpc ▸ hat.next hw hf
  -- the top frame moved to `n`, with other registers and another transfer value
  have hgo : ∀ (s' : UStrand L) (n : Nat), s'.frames = s.frames → s'.cleanup = s.cleanup →
      s'.unwind = s.unwind → s'.nboundary = s.nboundary → s'.state = s.state →
      J.rest (extOf (some op) w ext) → J.Rests f.proto n σ →
      AfterOk J rest (extOf (some op) w ext) (.go (s'.setPc n)) := by
    intro s' n hf hc hu hb hst he hat'
    refine ((h.congr hf hc).land hat' ?_ ?_).go he
    · unfold Calm; rw [hu]; exact hcalm
    · unfold NumOk; rw [hb, hst]; exact hn
  cases a with
  | next writes skip =>
    cases hp
    have he := hrest (falls_ne_extarg ha.1)
    obtain ⟨stack, hst⟩ := s.setRegs_eq f.base writes
    rw [hst]
    apply hgo { s with stack := stack } _ rfl rfl rfl rfl rfl he
    cases skip with
    | false => exact hfall ha.1
    | true =>
      have := hat.skip hw (ha.2 rfl)
      rwa [show pc + 2 = f.pc + 1 by omega] at this
  | poke slot v =>
    cases hp
    have he := hrest (falls_ne_extarg ha)
    cases slot with
    | none => exact ⟨f, fs, σ, c, h, hfall ha _ he, hcalm, hn⟩
    | some i => exact ⟨f, fs, σ, c, h.congr rfl rfl, hfall ha _ he, hcalm, hn⟩
  | jmp off =>
    obtain ⟨rfl, rfl⟩ := ha
    have he := hrest (by decide)
    simp only [perform, hpc, jmpTarget_eq, Option.ite_none_left_eq_some, Option.some.injEq, not_lt] at hp
    obtain ⟨hnonneg, rfl⟩ := hp
    exact hgo s _ rfl rfl rfl rfl rfl he (hat.jmp hw hnonneg)
  | extarg bits =>
    cases hp
    obtain rfl := ha
    exact ⟨f, fs, σ, c, h, hpc ▸ hat.extarg hw, hcalm, hn⟩
  | closed dst v words =>
    obtain ⟨rfl, child, hchild, rfl⟩ := ha
    cases hp
    have he := hrest (by decide)
    have := hat.closure hw hchild
    rw [← hpc] at this
    exact hgo (s.setReg (f.base + dst) v) _ rfl rfl rfl rfl rfl he this
  | raise which msg pos =>
    cases hp
    exact throwError_ok h hn (hrest ha) _ _ _
  | raiseAt words which msg =>
    cases hp
    exact throwError_ok (h.setPc (f.pc + words)) (numOk_setPc.mpr hn) (hrest ha) _ _ _
  | throw v =>
    cases hp
    obtain rfl := ha
    exact walk_ok h hn (hrest (by decide)) rfl rfl rfl rfl (by simp [UStrand.throwValue])
      (by simp [UStrand.throwValue])
  | ret v =>
    cases hp
    obtain rfl := ha
    exact afterRet_ok h hn hcalm (hrest (by decide)) v
  | call a b cc =>
    cases hp
    have he := hrest (falls_ne_extarg ha)
    exact afterCall_ok h hn hcalm hroot (hfall ha) he a b cc
  | out k =>
    cases hp
    obtain ⟨hf, hk, hl, hmay, hskip⟩ := ha
    have he := hrest (falls_ne_extarg hf)
    refine ⟨he, f, fs, σ, c, h, ?_, hk, leaving_of_not_crossing hl, fun hy => ?_, hcalm, hn⟩
    on_goal 2 => exact h.rest_nil (calls_eq_zero_of_may hn (hmay hy))
    have hsecond : k.maySkip = true → J.Rests f.proto (f.pc + 1) σ := fun hm => by
      have := hat.skip hw (hskip hm)
      rwa [show pc + 2 = f.pc + 1 by omega] at this
    unfold ArmTyped
    split <;> first | exact hfall hf | exact ⟨hfall hf, hsecond rfl⟩
  | joinWait finished =>
    have he := hrest (falls_ne_extarg ha)
    unfold perform at hp
    dsimp only at hp
    split at hp
    · cases hp; exact ⟨f, fs, σ, c, h, hfall ha _ he, hcalm, hn⟩
    · split at hp
      · rename_i s' hpark
        cases hp
        obtain ⟨hmay, rfl⟩ := UStrand.park_eq hpark
        exact parked_ok h hn hcalm (hfall ha) hmay
      · cases hp
        exact ⟨he, f, fs, σ, c, h, hfall ha, nofun, rfl, nofun, hcalm, hn⟩
  | pushTry flags handler =>
    obtain ⟨rfl, rfl, rfl⟩ := ha
    have he := hrest (by decide)
    have hidx : (tryEntry s (uinstrA w) (uinstrBx w)).frame = fs.length := h.length
    obtain ⟨hnext, hentry⟩ :=
      hat.scopeTry (d := tryEntry s (uinstrA w) (uinstrBx w)) hw rfl rfl rfl
    unfold perform at hp
    dsimp only at hp
    split at hp
    · cases hp; exact throwError_ok h hn he _ _ _
    · rename_i s' hpush
      cases hp
      obtain ⟨cap, rfl⟩ := UStrand.pushCleanup_eq hpush
      have hat' : J.Rests f.proto f.pc (tryEntry s (uinstrA w) (uinstrBx w) :: σ) := hpc ▸ hnext
      exact ⟨f, fs, _, c, h.push hidx hentry rfl rfl, hat' _ he, hcalm, hn⟩
  | pushTag t handler =>
    obtain ⟨rfl, rfl⟩ := ha
    have he := hrest (by decide)
    have hidx : (tagEntry s t (uinstrBx w)).frame = fs.length := h.length
    obtain ⟨hnext, hentry⟩ :=
      hat.scopeTag (d := tagEntry s t (uinstrBx w)) hw rfl rfl rfl
    unfold perform at hp
    dsimp only at hp
    split at hp
    · cases hp; exact throwError_ok h hn he _ _ _
    · rename_i s' hpush
      cases hp
      obtain ⟨cap, rfl⟩ := UStrand.pushCleanup_eq hpush
      have hat' : J.Rests f.proto f.pc (tagEntry s t (uinstrBx w) :: σ) := hpc ▸ hnext
      exact ⟨he, f, fs, _, c, h.push hidx hentry rfl rfl, hat', nofun, rfl, nofun, hcalm, hn⟩
  | scopePop a =>
    obtain ⟨rfl, rfl⟩ := ha
    cases hp
    exact afterPop_ok h hn hcalm (hrest (by decide)) hpc hat hw
  | loadCatch dst =>
    cases hp
    have he := hrest (falls_ne_extarg ha)
    exact ⟨f, fs, σ, c, h.congr rfl rfl, hfall ha _ he, hcalm, hn⟩
  | resume =>
    cases hp
    obtain rfl := ha
    exact afterResume_ok h hn hcalm (hrest (by decide))
  | unwindTo depth target =>
    obtain ⟨rfl, rfl, rfl⟩ := ha
    cases hp
    have he := hrest (by decide)
    refine ⟨he, f, fs, σ, c, h.congr rfl rfl, by simp, fun _ => ⟨?_, hat.unwindTo hw⟩, hn⟩
    exact Nat.mod_lt _ (by decide)

end Perform

/-! ## The walker -/

def TurnOk (J : Judgement L) (rest : List (Act L)) : UStrand.Turn L → Prop
  | .landed s => LandOk J rest s
  | .left s => LeaveOk J s rest
  | .again s =>
    s.unwind ≠ .none ∧ NumOk s rest ∧
      ((∃ f fs σ c, Current J s rest f fs σ c ∧ JumpState J s f σ s.jumpDepth) ∨
        (s.frames = [] ∧ s.cleanup = [] ∧ rest = []))
  | .leavingJump s _ =>
    s.unwind ≠ .none ∧ NumOk s rest ∧ 1 ≤ s.jumpDepth ∧
      ∃ f fs σ c, Current J s rest f fs σ c ∧ JumpState J s f σ (s.jumpDepth - 1)
  | .leaving s top =>
    s.unwind ≠ .none ∧ s.unwind ≠ .jump ∧ NumOk s rest ∧
      ∃ f fs σ c, Current J s rest f fs σ c ∧ J.Rests f.proto top.onleavePc σ

theorem walkStep_good {b e : Option Nat} (flags : Nat → UInt8)
    {t : UStrand.Turn L} (ht : TurnOk J rest t) (hs : SavedOk rest) (hb : BudgetOk b rest)
    (he : J.rest e) : Good J (walkStep b e rest flags t) := by
  cases t with
  | landed s =>
    obtain ⟨f, fs, σ, c, hcur, hat, hcalm, hn, hrun⟩ := ht
    exact ⟨.fetch hcur (hat e he) hcalm hb, hn, hrun, hs⟩
  | left s => exact leaveRun_good flags ht hs
  | again s =>
    obtain ⟨hne, ⟨hn, hrun⟩, ⟨f, fs, σ, c, hcur, hjump⟩ | ⟨hf, hc, rfl⟩⟩ := ht
    · exact ⟨.walk hcur hne hjump hb he, hn, hrun, hs⟩
    · exact ⟨.drained hf hc hne hb he, hn, hrun, hs⟩
  | leavingJump s top =>
    obtain ⟨hne, ⟨hn, hrun⟩, hpos, f, fs, σ, c, hcur, hjump⟩ := ht
    exact ⟨.leaveJump hcur hne hpos hjump hb he, hn, hrun, hs⟩
  | leaving s top =>
    obtain ⟨hne, hnj, ⟨hn, hrun⟩, f, fs, σ, c, hcur, hat⟩ := ht
    exact ⟨.leave hcur hne hnj hat hb he, hn, hrun, hs⟩

section Walker

variable {s : UStrand L} {rest : List (Act L)} {f : UFrame L} {fs : List (UFrame L)}
  {σ c : List (UCleanup L)} {o : Oracle L}

theorem JumpState.of_ne (hj : s.unwind ≠ .jump) : JumpState J s f σ n :=
  fun h => absurd h hj

theorem UCleanup.try_of_ne (h : d.kind ≠ .tagScope) : d.kind = .try := by
  cases hk : d.kind with
  | «try» => rfl
  | tagScope => exact absurd hk h

theorem jumpOk_pop {p : Fn L} {v : UValue L} (h : JumpOk J p v n (d :: σ)) (hpos : 0 < n) :
    JumpOk J p v (n - 1) σ := by
  obtain ⟨m, rfl⟩ := Nat.exists_eq_succ_of_ne_zero hpos.ne'
  refine ⟨fun hs => ?_, fun hle => ?_⟩
  · have := h.1 hs
    rw [List.length_cons] at this
    omega
  · have := h.2 (by rw [List.length_cons]; omega)
    rwa [List.drop_succ_cons] at this

variable (h : Current J s rest f fs σ c) (hn : NumOk s rest)

include h hn

theorem again_ok (hne : s.unwind ≠ .none) (hj : JumpState J s f σ s.jumpDepth) :
    TurnOk J rest (.again s) :=
  ⟨hne, hn, .inl ⟨f, fs, σ, c, h, hj⟩⟩

theorem runFinally_ok (hframe : d.frame = fs.length) (hok : EntryOk J f.proto d σ) (hkind : d.kind = .try)
    (hrun : d.running = false) (hfin : d.hasFinally = true) {otherwise : UStrand L}
    (hmark : MarkOk J f.proto (d.mark s.unwind s.transfer n) σ)
    (helse : TurnOk J rest (.again otherwise)) :
    TurnOk J rest (s.runFinally grant d n otherwise) := by
  unfold UStrand.runFinally
  split
  · exact helse
  · rename_i s' hpush
    obtain ⟨cap, rfl⟩ := UStrand.pushCleanup_eq hpush
    obtain ⟨hentry, hhandler⟩ := mark_ok hok hkind hrun hfin hmark
    exact Current.land (h.push (d := d.mark _ _ n) hframe hentry rfl rfl) hhandler (.inl rfl) hn

theorem turnJump_ok (hframe : d.frame = fs.length) (hok : EntryOk J f.proto d σ) (hu : s.unwind = .jump)
    (hpos : 0 < s.jumpDepth) (hlt : s.jumpDepth < 2 ^ 8)
    (hjump : JumpOk J f.proto s.transfer (s.jumpDepth - 1) σ) :
    TurnOk J rest (s.turnJump grant d) := by
  have hne : s.unwind ≠ .none := by rw [hu]; decide
  have hdown : TurnOk J rest (.again { s with jumpDepth := s.jumpDepth - 1 }) :=
    again_ok (h.congr rfl rfl) hn hne fun _ => ⟨by dsimp only; omega, hjump⟩
  unfold UStrand.turnJump
  split
  · exact ⟨hne, hn, hpos, f, fs, σ, c, h.congr rfl rfl, fun _ => ⟨hlt, hjump⟩⟩
  · rename_i hkind
    have hkind := UCleanup.try_of_ne hkind
    split
    · rename_i hcond
      rw [Bool.and_eq_true, Bool.not_eq_true'] at hcond
      refine runFinally_ok h hn hframe hok hkind hcond.1 hcond.2 ⟨?_, fun _ => ?_⟩ hdown
      · intro hnone
        exact absurd hnone hne
      · have hmod : (s.jumpDepth - 1) % 2 ^ 8 = s.jumpDepth - 1 := Nat.mod_eq_of_lt (by omega)
        show JumpOk J f.proto s.transfer ((s.jumpDepth - 1) % 2 ^ 8) σ
        rwa [hmod]
    · exact hdown

theorem turnPop_ok (hframe : d.frame = fs.length) (hok : EntryOk J f.proto d σ) (hne : s.unwind ≠ .none)
    (hnj : s.unwind ≠ .jump) : TurnOk J rest (s.turnPop grant d) := by
  have hagain : TurnOk J rest (.again s) := again_ok h hn hne (JumpState.of_ne hnj)
  unfold UStrand.turnPop
  split
  · rename_i hkind
    unfold EntryOk at hok
    rw [hkind] at hok
    exact ⟨hne, hnj, hn, f, fs, σ, c, h.congr rfl rfl, hok.2⟩
  · rename_i hkind
    have hkind := UCleanup.try_of_ne hkind
    split
    · exact hagain
    · rename_i hrun
      rw [Bool.not_eq_true] at hrun
      split
      · rename_i hfin
        exact runFinally_ok h hn hframe hok hkind hrun hfin
          ⟨fun hnone => absurd hnone hne, fun hjump => absurd hjump hnj⟩ hagain
      · rename_i hfin
        split
        · rename_i hcatch
          unfold EntryOk at hok
          rw [hkind] at hok
          simp only [hrun, hfin, Bool.false_eq_true, if_false] at hok
          exact Current.land (h.congr rfl rfl) (hok hcatch.2) (.inl rfl) hn
        · exact hagain

omit h hn in
theorem turnFrame_ok (h : Current J s rest f fs [] c) (hn : NumOk s rest) (hne : s.unwind ≠ .none) :
    TurnOk J rest (s.turnFrame o f) := by
  unfold UStrand.turnFrame
  split
  · -- a jump never leaves its frame
    exact again_ok (h.congr rfl rfl) hn (by simp [UStrand.fatal])
      (JumpState.of_ne (by simp [UStrand.fatal]))
  · have hret := completeReturn_ok (s := { s with unwind := .none, transfer := .nil })
      (h.congr rfl rfl) hn (.inl rfl) s.transfer
    dsimp only
    split <;> rename_i hdone
    · rwa [if_pos hdone] at hret
    · rwa [if_neg hdone] at hret
  · rename_i hnj hnr
    have hclean : s.cleanup = c := h.cleanup
    have hpop := popFrame_eq h.frames
    rcases h.popFrame hn with ⟨hb, saved, acts, rfl, hst, hnb, hrun⟩ | ⟨hb, rfl, rfl, rfl⟩ |
        ⟨hb, g, gs, σ', c', rfl, rfl, hcur, hat⟩
    · rw [if_pos hb, hpop, if_pos hb]
      exact ⟨hclean ▸ hst, hnj, nofun, hnb, fun _ => rfl⟩
    · rw [if_neg (by rw [hb]; decide), hpop, hb]
      exact ⟨hne, hn, .inr ⟨rfl, hclean, rfl⟩⟩
    · rw [if_neg (by rw [hb]; decide)]
      have hne' : s.popFrame.unwind ≠ .none := by rw [hpop]; exact hne
      have hnj' : s.popFrame.unwind ≠ .jump := by rw [hpop]; exact hnj
      have hn' : NumOk s.popFrame rest := by rw [hpop, hb]; exact hn
      exact again_ok hcur hn' hne' (JumpState.of_ne hnj')

theorem turn_ok (hne : s.unwind ≠ .none) (hj : JumpState J s f σ s.jumpDepth) :
    TurnOk J rest (s.turn o) := by
  unfold UStrand.turn
  rw [if_neg hne]
  split
  · rename_i hnil
    cases h.frames.symm.trans hnil
  rename_i hfr
  obtain ⟨rfl, rfl⟩ := List.cons.inj (h.frames.symm.trans hfr)
  split
  · -- every entry the jump named is gone
    rename_i hcond
    obtain ⟨-, -, hland⟩ := hj hcond.1
    rw [hcond.2] at hland
    exact Current.land (h.congr rfl rfl) (hland (Nat.zero_le _)) (.inl rfl) hn
  · rename_i hdepth
    split
    · rename_i d ds hd
      split
      · rename_i hle
        obtain ⟨σ', rfl, rfl⟩ := h.top_of_frame hd hle
        have hpop : Current J { s with cleanup := σ' ++ c } rest f fs σ' c := h.pop rfl rfl rfl
        have hframe := h.frameIdx d (.head _)
        dsimp only
        split
        · rename_i hfatal
          have hnj : s.unwind ≠ .jump := by rw [hfatal]; decide
          unfold UStrand.turnFatal
          split
          · exact again_ok (hpop.congr rfl rfl) hn hne (JumpState.of_ne hnj)
          · exact again_ok hpop hn hne (JumpState.of_ne hnj)
        · rename_i hjump
          obtain ⟨hlt, hland⟩ := hj hjump
          have hpos : 0 < s.jumpDepth := by
            by_contra hz
            exact hdepth ⟨hjump, by omega⟩
          exact turnJump_ok hpop hn hframe h.owned.1 hjump hpos hlt (jumpOk_pop hland hpos)
        · rename_i hnj
          exact turnPop_ok hpop hn hframe h.owned.1 hne hnj
      · rename_i hlt
        have hσ : σ = [] := h.owns_none fun e es he => by
          rw [hd] at he
          cases he
          omega
        subst hσ
        exact turnFrame_ok h hn hne
    · rename_i hd
      have hσ : σ = [] := h.owns_none fun e es he => by rw [hd] at he; cases he
      subst hσ
      exact turnFrame_ok h hn hne

end Walker

end Config

end Urbi
