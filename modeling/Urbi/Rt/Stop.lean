import Urbi.Rt.Control

/-!
# Stopping a tag

A stop of `t` is a mark on the strand.  The walker leaves scopes from the top until it has left one of
`t`, and lands behind that one.  If `t` is open twice, the outer scope stays.
-/

namespace Urbi

variable {L : CodeBase}
variable {t : Nat} {c d : Config L} {top : UCleanup L} {m : Move L} {acts : List (Act L)}
  {k : Cont L} {failed : Bool}

/-! ## Scopes and suspended stops -/

def UCleanup.scopeOf (t : Nat) (d : UCleanup L) : Bool := d.kind = .tagScope && d.tag = some t

def scopes (t : Nat) (entries : List (UCleanup L)) : Nat := entries.countP (UCleanup.scopeOf t)

def UCleanup.Suspends (t : Nat) (d : UCleanup L) : Prop := d.savedUnwind = .stop ∧ d.saved = .tag t

theorem UCleanup.mark_scopeOf (d : UCleanup L) (t : Nat) (u : UUnwindKind) (v : UValue L)
    (pc : Nat) : (d.mark u v pc).scopeOf t = d.scopeOf t := rfl

def MarksOk : List (UCleanup L) → Prop
  | [] => True
  | d :: rest => (∀ t, d.Suspends t → scopes t rest ≤ 1) ∧ MarksOk rest

theorem scopes_le_of_suffix {xs ys : List (UCleanup L)} (h : xs <:+ ys) :
    scopes t xs ≤ scopes t ys := h.sublist.countP_le

theorem MarksOk.suffix {xs ys : List (UCleanup L)} (h : xs <:+ ys) (hy : MarksOk ys) :
    MarksOk xs := by
  induction ys with
  | nil =>
    rw [List.suffix_nil.mp h]
    trivial
  | cons d rest ih =>
    rcases List.suffix_cons_iff.mp h with rfl | h
    · exact hy
    · exact ih h hy.2

namespace Ctl

variable {κ κ' : Ctl L} {lv : List (UCleanup L)}

/-- `lv` are scopes the walker has popped but not yet left. -/
def StopOk (κ : Ctl L) (lv : List (UCleanup L)) : Prop :=
  MarksOk κ.cleanup ∧ ∀ t, κ.Stops t → scopes t (lv ++ κ.cleanup) ≤ 1

/-- The stop still is pending, or a finally body runs first, or no scope of `t` is open any more. -/
def Served (t : Nat) (κ : Ctl L) : Prop :=
  κ.unwind = .none →
    (∃ top rest, κ.cleanup = top :: rest ∧ top.Suspends t) ∨ scopes t κ.cleanup = 0

def StopStep (κ κ' : Ctl L) (lv : List (UCleanup L)) : Prop :=
  κ'.StopOk lv ∧ ∀ t, κ.Stops t → κ'.Served t

theorem StopOk.weaken (h : κ.StopOk lv) : κ.StopOk [] := by
  refine ⟨h.1, fun t ht => ?_⟩
  exact (scopes_le_of_suffix (List.suffix_append lv κ.cleanup)).trans (h.2 t ht)

theorem StopOk.popped (h : κ.StopOk lv) (hc : κ'.cleanup <:+ κ.cleanup)
    (hs : ∀ t, κ'.Stops t → κ.Stops t) (hn : κ.unwind = .stop → κ'.unwind ≠ .none) :
    StopStep κ κ' [] := by
  refine ⟨⟨h.1.suffix hc, fun t ht => ?_⟩, fun t ht hnone => absurd hnone (hn ht.1)⟩
  exact (scopes_le_of_suffix hc).trans (h.weaken.2 t (hs t ht))

theorem StopOk.kept (h : κ.StopOk lv) (hc : κ'.cleanup <:+ κ.cleanup) (hu : κ'.unwind = κ.unwind)
    (ht : κ'.transfer = κ.transfer) : StopStep κ κ' [] := by
  refine h.popped hc (fun t hst => ?_) fun hst => ?_
  · rw [Stops, hu, ht] at hst
    exact hst
  · rw [hu, hst]
    decide

theorem StopOk.replaced (h : κ.StopOk lv) (hc : κ'.cleanup <:+ κ.cleanup) (hn : κ'.unwind ≠ .none)
    (hs : κ'.unwind ≠ .stop) : StopStep κ κ' [] :=
  h.popped hc (fun _ ht => absurd ht.1 hs) fun _ => hn

theorem StopOk.quiet (h : κ.StopOk lv) (hc : κ'.cleanup <:+ κ.cleanup) (hs : κ.unwind ≠ .stop)
    (hs' : κ'.unwind ≠ .stop) : StopStep κ κ' [] :=
  h.popped hc (fun _ ht => absurd ht.1 hs') fun hst => absurd hst hs

theorem StopOk.pushed (h : κ.StopOk lv) {d : UCleanup L} {rest : List (UCleanup L)}
    (hr : rest <:+ κ.cleanup) (hc : κ'.cleanup = d :: rest) (hd : d.savedUnwind = .none)
    (hu : κ'.unwind = κ.unwind) (htr : κ'.transfer = κ.transfer)
    (hone : ∀ t, κ.Stops t → d.scopeOf t = true → scopes t rest = 0) : StopStep κ κ' [] := by
  refine ⟨⟨?_, fun t ht => ?_⟩, fun t ht hnone => ?_⟩
  · rw [hc]
    refine ⟨fun t hsus => ?_, h.1.suffix hr⟩
    rw [UCleanup.Suspends, hd] at hsus
    cases hsus.1
  · rw [Stops, hu, htr] at ht
    have hle := (scopes_le_of_suffix hr).trans (h.weaken.2 t ht)
    rw [hc]
    simp only [List.nil_append, scopes] at hle ⊢
    rw [List.countP_cons]
    split
    · rename_i hsc
      have := hone t ht hsc
      unfold scopes at this
      omega
    · omega
  · rw [hu, ht.1] at hnone
    cases hnone

end Ctl

theorem UCleanup.scopeOf_try {d : UCleanup L} (h : d.kind = .try) : d.scopeOf t = false := by
  simp [UCleanup.scopeOf, h]

def Pos.leaving : Pos L → List (UCleanup L)
  | .code (.leave top) => [top]
  | _ => []

theorem Pos.Plain.leaving {q : Pos L} (h : q.Plain) : q.leaving = [] := by
  cases q with
  | code k =>
    have hk := h k rfl
    cases k <;> first | rfl | cases hk
  | idle | fetch | walk => rfl

theorem Did.stopStep {flags : Nat → UInt8} {p q : Pos L} {κ κ' : Ctl L} {n : Note}
    (h : Did flags p κ n q κ') (hs : κ.StopOk p.leaving)
    (hkind : ∀ top ∈ p.leaving, top.kind = .tagScope)
    (hopen : ∀ t, n = .opens t → κ.Stops t → scopes t κ.cleanup = 0) :
    Ctl.StopStep κ κ' q.leaving ∧ ∀ top ∈ q.leaving, top.kind = .tagScope := by
  have plain : ∀ {q : Pos L} {κ' : Ctl L}, q.leaving = [] → Ctl.StopStep κ κ' [] →
      Ctl.StopStep κ κ' q.leaving ∧ ∀ top ∈ q.leaving, top.kind = .tagScope := by
    intro q κ' hq h
    rw [hq]
    exact ⟨h, nofun⟩
  have ne : ∀ {u : UUnwindKind}, κ.unwind = u → u ≠ .stop → κ.unwind ≠ .stop :=
    fun hu h => hu ▸ h
  have under : ∀ {top : UCleanup L} {rest}, κ.cleanup = top :: rest → rest <:+ κ.cleanup :=
    fun hc => hc ▸ List.suffix_cons _ _
  cases h with
  | same hkeep _ hq =>
    refine plain hq.leaving (hs.popped List.suffix_rfl (fun t ht => ⟨ht.1, ?_⟩) fun hst => ?_)
    · rw [← hkeep (ht.1 ▸ nofun)]
      exact ht.2
    · exact hst ▸ nofun
  | raise hcl hu hst _ hq =>
    refine plain hq.leaving (hs.replaced ?_ hu hst)
    rcases hcl with rfl | ⟨top, hc, -⟩
    · exact List.suffix_rfl
    · exact under hc
  | openTry htry hd hq =>
    refine plain hq.leaving (hs.pushed List.suffix_rfl rfl hd rfl rfl fun t _ hsc => ?_)
    cases (UCleanup.scopeOf_try htry).symm.trans hsc
  | @openTag κ d t hd htag hsaved _ _ =>
    refine plain rfl (hs.pushed List.suffix_rfl rfl hsaved rfl rfl fun t' ht' hsc => ?_)
    have htt : t = t' := by simpa [UCleanup.scopeOf, hd, htag] using hsc
    exact hopen t' (htt ▸ rfl) ht'
  | closeTry hc _ _ hq | resume hc _ _ hq =>
    exact plain hq.leaving (hs.kept (under hc) rfl rfl)
  | closeFinally hc htry _ hq =>
    -- this marker suspends nothing
    refine plain hq.leaving (hs.pushed (under hc) rfl rfl rfl rfl fun t _ hsc => ?_)
    rw [UCleanup.mark_scopeOf, UCleanup.scopeOf_try htry] at hsc
    cases hsc
  | closeTag hc _ => exact plain rfl (hs.kept (under hc) rfl rfl)
  | resumeUnwind hc _ hsaved =>
    -- the suspended stop is pending again
    refine plain rfl ⟨⟨hs.1.suffix (under hc), fun t ht => ?_⟩, fun t _ hnone => absurd hnone hsaved⟩
    have hm := hs.1
    rw [hc] at hm
    exact hm.1 t ht
  | loadCatch hq =>
    refine plain hq.leaving (hs.popped List.suffix_rfl (fun t ht => ?_) fun hst => ?_)
    · cases ht.2
    · exact hst ▸ nofun
  | landJump hu | lost hu => exact plain rfl (hs.quiet List.suffix_rfl (ne hu nofun) nofun)
  | «return» hu hq => exact plain hq.leaving (hs.quiet List.suffix_rfl (ne hu nofun) nofun)
  | pop _ hc _ => exact plain rfl (hs.kept (under hc) rfl rfl)
  | popFatal hu hc _ | leaveJump hu hc _ => exact plain rfl (hs.kept (under hc) rfl rfl)
  | caught hu hc _ _ => exact plain rfl (hs.quiet (under hc) (ne hu nofun) nofun)
  | @runFinally κ top rest pc hn _ hc _ _ =>
    -- the stop, if there was one, is kept in the marker
    have hp : κ.StopOk [] := hs
    refine plain rfl ⟨⟨⟨fun t hsus => ?_, hs.1.suffix (under hc)⟩, fun t ht => ?_⟩, fun t ht _ => ?_⟩
    · exact (scopes_le_of_suffix (under hc)).trans (hp.2 t hsus)
    · cases ht.1
    · exact .inl ⟨_, _, rfl, ht⟩
  | @leave κ top rest hn _ hc hk =>
    have hp : κ.StopOk [] := hs
    refine ⟨⟨⟨hs.1.suffix (under hc), fun t ht => ?_⟩, fun t _ hnone => absurd hnone hn⟩, ?_⟩
    · have hle := hp.2 t ht
      rwa [hc] at hle
    · intro d hd
      rw [List.mem_singleton.mp hd]
      exact hk
  | leftJump | passed _ => exact plain rfl (hs.kept List.suffix_rfl rfl rfl)
  | entered hq | left hq => exact plain hq.leaving (hs.kept List.suffix_rfl rfl rfl)
  | @landed κ top t htag hst =>
    refine plain rfl ⟨⟨hs.1, fun t ht => ?_⟩, fun t' ht' _ => .inr ?_⟩
    · cases ht.1
    · -- of the one scope of `t` there can be, `top` was it
      cases hst.2.symm.trans ht'.2
      have htop : top.scopeOf t = true := by
        simp [UCleanup.scopeOf, hkind top (.head _), htag]
      have hone := hs.2 t ht'
      show List.countP _ κ.cleanup = 0
      unfold scopes Pos.leaving at hone
      rw [List.singleton_append, List.countP_cons_of_pos htop] at hone
      omega

namespace Config

/-- A tag is open at most once when a stop of it is raised, and not opened again before the strand
gets to it. -/
def oneScope (c : Config L) (m : Move L) : Bool :=
  (match markOf m with
    | some (.tag t) => scopes t (leavingOf c.acts ++ c.strand.cleanup) ≤ 1
    | _ => true) &&
  (match opens c m with
    | some t => !c.strand.stopping (some t) || scopes t c.strand.cleanup = 0
    | none => true)

theorem one_of_mark (hq : oneScope c m = true) (hm : markOf m = some (.tag t)) :
    scopes t (leavingOf c.acts ++ c.strand.cleanup) ≤ 1 := by
  unfold oneScope at hq
  rw [hm, Bool.and_eq_true] at hq
  exact of_decide_eq_true hq.1

theorem none_of_opens (hq : oneScope c m = true) (ho : opens c m = some t)
    (hst : c.strand.stopping (some t) = true) : scopes t c.strand.cleanup = 0 := by
  unfold oneScope at hq
  rw [ho, Bool.and_eq_true] at hq
  have h := hq.2
  dsimp only at h
  rw [hst] at h
  simpa using h

/-! ## The invariant -/

theorem leavingOf_eq (acts : List (Act L)) : leavingOf acts = (posOf acts).leaving := by
  cases acts with
  | nil => rfl
  | cons a acts =>
    cases a with
    | out k _ => cases k <;> rfl
    | run _ _ w => cases w <;> rfl
    | call _ => rfl

structure StopInv (c : Config L) : Prop where
  ok : c.strand.ctl.StopOk (leavingOf c.acts)
  kind : ∀ top ∈ leavingOf c.acts, top.kind = .tagScope

def Reaches (c d : Config L) : Prop :=
  StopInv d ∧ ∀ t, c.strand.ctl.Stops t → d.strand.ctl.Served t

theorem Moved.reaches {n : Note} (hm : Moved c m n d) (hq : oneScope c m = true) (h : StopInv c) :
    Reaches c d := by
  obtain ⟨hok, hkind⟩ := h
  rw [leavingOf_eq] at hok hkind
  obtain ⟨hstep, hkind'⟩ := hm.did.stopStep hok hkind fun t hn hst =>
    none_of_opens hq (hm.opens t hn) (UStrand.stops_iff.mp hst)
  refine ⟨⟨?_, ?_⟩, hstep.2⟩
  · rw [leavingOf_eq]
    exact hstep.1
  · rw [leavingOf_eq]
    exact hkind'

theorem outside_reaches {native : Bool}
    (hout : outside c.strand c.flags native m = some (d.strand, d.flags)) (hacts : d.acts = c.acts)
    (hq : oneScope c m = true) (h : StopInv c) : Reaches c d := by
  have hdist := outside_disturbed hout
  have hcl : d.strand.ctl.cleanup = c.strand.ctl.cleanup := hdist.cleanup
  refine ⟨⟨⟨?_, fun t ht => ?_⟩, hacts ▸ h.kind⟩, fun t ht hnone => ?_⟩
  · rw [hcl]
    exact h.ok.1
  · rw [hacts, hcl]
    rcases hdist.unwind with ⟨-, hmark⟩ | ⟨hsame, hkeep⟩
    · -- a stop raised just now
      refine one_of_mark hq ?_
      rw [hmark]
      exact congrArg some ht.2
    · have hu : c.strand.unwind = .stop := hsame.symm.trans ht.1
      exact h.ok.2 t ⟨hu, (hkeep (hu ▸ nofun)).symm.trans ht.2⟩
  · rcases hdist.unwind with ⟨hu, -⟩ | ⟨hu, -⟩
    · cases hu.symm.trans hnone
    · cases (hu.trans ht.1).symm.trans hnone

theorem step_reaches {T : Typing L} (hg : Good T.toJudgement c) (hk : CallsOk c.acts)
    (hq : oneScope c m = true) (h : StopInv c) (hd : c.step m = some d) : Reaches c d := by
  rcases step_moved hg hk hd with ⟨n, hm⟩ | ⟨native, hout, hacts⟩
  · exact hm.reaches hq h
  · exact outside_reaches hout hacts hq h

theorem initial_stopInv (hc : Initial c) : StopInv c := by
  obtain ⟨hacts, hclean, -⟩ := hc.atRest
  have hclean : c.strand.ctl.cleanup = [] := hclean
  have hleaving : leavingOf c.acts = [] := by rcases hacts with h | h <;> rw [h] <;> rfl
  refine ⟨⟨?_, fun t _ => ?_⟩, ?_⟩
  · rw [hclean]
    trivial
  · rw [hclean, hleaving]
    exact Nat.zero_le 1
  · rw [hleaving]
    exact nofun

theorem run_stopInv {ms : List (Move L)} (hc : Initial c) (hr : RunIf oneScope c ms d) :
    StopInv d := by
  induction hr with
  | nil => exact initial_stopInv hc
  | snoc m hr hq hstep ih =>
    exact (step_reaches (reachable_good (T := anyTyping L) hc hr.run) (run_callsOk hc hr.run) hq ih
      hstep).1

/-- The strand has no frame left, or it goes on and no finally body has suspended the stop. -/
def Consumed (t : Nat) (s : UStrand L) : Prop :=
  s.frames = [] ∨ (s.unwind = .none ∧ ∀ top rest, s.cleanup = top :: rest → ¬ top.Suspends t)

theorem Stacked.cleanup_nil {J : Judgement L} {o : Option Bool} {c : List (UCleanup L)}
    (h : Stacked J o [] c acts) : c = [] := by
  generalize hf : ([] : List (UFrame L)) = fs at h
  induction h with
  | bottom => rfl
  | caller _ _ _ _ _ | arm _ _ _ _ _ _ _ _ _ _ => cases hf
  | enter _ ih | callback _ ih => exact ih hf
  | host => rfl

theorem Good.cleanup_nil {J : Judgement L} (hg : Good J c) (hf : c.strand.frames = []) :
    c.strand.cleanup = [] := by
  cases hg.1 with
  | fetch hcur _ _ _ | walk hcur _ _ _ _ | leaveJump hcur _ _ _ _ _ | leave hcur _ _ _ _ _ =>
    cases hcur.frames.symm.trans hf
  | drained _ hc _ _ _ | empty _ hc _ => exact hc
  | out hst _ _ | idle hst _ =>
    rw [hf] at hst
    exact hst.cleanup_nil

/-- Stopping a tag leaves its scope: in a run where a tag is open at most once when it is stopped,
no scope of it is open once the stop is consumed. -/
theorem stop_leaves_scope {c d e : Config L} {ms : List (Move L)} {m : Move L} {t : Nat}
    (hc : Initial c) (hr : RunIf oneScope c ms d) (hq : oneScope d m = true) (hd : d.step m = some e)
    (hpend : d.strand.stopping (some t) = true) (hcons : Consumed t e.strand) :
    scopes t e.strand.cleanup = 0 := by
  have hg := reachable_good (T := anyTyping L) hc hr.run
  have hreach := step_reaches hg (run_callsOk hc hr.run) hq (run_stopInv hc hr) hd
  rcases hcons with hf | ⟨hnone, htop⟩
  · rw [(step_good hg hd).cleanup_nil hf]
    rfl
  · rcases hreach.2 t (UStrand.stops_iff.mpr hpend) hnone with ⟨top, rest, hcl, hsus⟩ | hzero
    · exact absurd hsus (htop top rest hcl)
    · exact hzero

end Config

/-! ## One scope and two -/

def yieldAll : Oracle L := { Config.grantAll with flag := false }

/-- `function (t) { t: { yield } }`. -/
def taggedOnce : UProto :=
  .mk ⟨0, 0, 1, false, [], [uinstrEncAbx .scopeTag 0 3, uinstrEncAbc .yield 0 0 0,
    uinstrEncAbc .scopePop uscopePopTag 0 0, uinstrEncAbc .ret 0 0 0], [1, 0, 0, 0], [], []⟩ []

def stopAtYield : List (Move L) :=
  [.dispatch 0, .exec Config.grantAll, .finish .nil Config.grantAll, .exec Config.grantAll,
    .finish .nil yieldAll, .stop 7 false, .dispatch 0, .exec Config.grantAll]

theorem stop_leaves_scope_taggedOnce :
    ∃ (c d e : Config (codeOf taggedOnce)), strandOf taggedOnce [.tag 7] = some c ∧
      c.Run stopAtYield d ∧ d.step (.finish .nil Config.grantAll) = some e ∧
      d.strand.stopping (some 7) = true ∧ Config.Consumed 7 e.strand ∧
      scopes 7 e.strand.cleanup = 0 := by
  have hrun : ∃ c d e : Config (codeOf taggedOnce), strandOf taggedOnce [.tag 7] = some c ∧
      c.stepsIf Config.oneScope stopAtYield = some d ∧
      d.step (.finish .nil Config.grantAll) = some e ∧
      Config.oneScope d (.finish .nil Config.grantAll) = true ∧
      d.strand.stopping (some 7) = true ∧ e.strand.unwind = .none ∧ e.strand.cleanup = [] :=
    ⟨_, _, _, rfl, rfl, rfl, rfl, rfl, rfl, rfl⟩
  obtain ⟨c, d, e, hc, hd, he, hq, hpend, hnone, hcl⟩ := hrun
  have hcons : Config.Consumed 7 e.strand := by
    refine .inr ⟨hnone, fun top rest h => ?_⟩
    rw [hcl] at h
    cases h
  have hr := Config.runIf_of_stepsIf hd
  exact ⟨c, d, e, hc, hr.run, he, hpend, hcons,
    Config.stop_leaves_scope (Config.uschedSpawn_initial hc) hr hq he hpend hcons⟩

/-- `function (t) { t: { t: { yield }; nil } }`. -/
def taggedTwice : UProto :=
  .mk ⟨1, 0, 1, false, [], [uinstrEncAbx .scopeTag 0 6, uinstrEncAbx .scopeTag 0 4,
    uinstrEncAbc .yield 0 0 0, uinstrEncAbc .scopePop uscopePopTag 0 0, uinstrEncAbc .loadnil 1 0 0,
    uinstrEncAbc .scopePop uscopePopTag 0 0, uinstrEncAbc .ret 0 0 0], [1, 0, 0, 0, 0, 0, 0], [],
    []⟩ []

/-- The stop is consumed by the inner scope; the outer one is still open and its next statement
runs. -/
theorem stop_leaves_outer_scope_open :
    ∃ (c d e : Config (codeOf taggedTwice)) (f : UFrame (codeOf taggedTwice)),
      strandOf taggedTwice [.tag 7] = some c ∧
      c.Run ([.dispatch 0, .exec Config.grantAll, .finish .nil Config.grantAll] ++
        stopAtYield.tail) d ∧
      d.strand.stopping (some 7) = true ∧ d.step (.finish .nil Config.grantAll) = some e ∧
      Config.Consumed 7 e.strand ∧ scopes 7 e.strand.cleanup = 1 ∧ e.strand.frames = [f] ∧
      f.pc = 4 ∧ (e.step (.exec Config.grantAll)).isSome = true := by
  refine ⟨_, _, _, _, rfl, Config.run_of_steps rfl, rfl, rfl, .inr ⟨rfl, ?_⟩, rfl, rfl, rfl, rfl⟩
  rintro _ _ ⟨⟩ ⟨hsus, -⟩
  cases hsus

end Urbi
