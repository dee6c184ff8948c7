import Urbi.Rt.Pending

/-!
# Stops over runs

In runs where no stop is discarded and none is served further in than those it overtakes, a stopped
scope is left by the walker and by nothing else, and a strand that has consumed all its stops stands
behind the outermost scope stopped.
-/

namespace Urbi

variable {L : CodeBase}

theorem scoped_reach (v : UValue L) (S : List (UCleanup L)) : Scoped (reach v S) := by
  intro d hd
  have hserves : d.serves v = true := by
    have hnot := List.head?_dropWhile_not (fun d : UCleanup L => !d.serves v) S
    rw [Option.mem_def] at hd
    simp only [reach] at hd
    rw [hd] at hnot
    simpa using hnot
  cases v with
  | tag t =>
    simp only [UCleanup.serves, UCleanup.scopeOf, Bool.and_eq_true, decide_eq_true_eq] at hserves
    exact hserves.1
  | _ => cases hserves

namespace Config

variable {c d e : Config L} {m : Move L} {ms : List (Move L)} {C D : List (UCleanup L)}

/-! ## A stop against the strand's own control flow -/

theorem owes.under (h : c.owes D C) : D <:+ entries (posOf c.acts) c.strand.ctl := by
  cases h with
  | pending _ _ hin => exact hin
  | suspended hm _ _ hin =>
    exact ((hin.trans (List.suffix_cons _ _)).trans hm).trans (List.suffix_append _ _)

def Passes (P : Config L → Prop) (c : Config L) (ms : List (Move L)) : Prop :=
  ∃ xs ys x, ms = xs ++ ys ∧ Run c xs x ∧ P x

theorem Passes.snoc {P : Config L → Prop} (h : Passes P c ms) : Passes P c (ms ++ [m]) := by
  obtain ⟨xs, ys, x, hms, hrun, hx⟩ := h
  exact ⟨xs, ys ++ [m], x, by rw [hms, List.append_assoc], hrun, hx⟩

def trace (c : Config L) : List (Move L) → List (Config L)
  | [] => [c]
  | m :: ms => c :: ((c.step m).map (trace · ms)).getD []

theorem trace_of_run {xs : List (Move L)} (h : Run c xs d) (ys : List (Move L)) :
    ∃ pre, c.trace (xs ++ ys) = pre ++ d.trace ys := by
  induction h generalizing ys with
  | nil => exact ⟨[], rfl⟩
  | @snoc xs d e m _ hstep ih =>
    obtain ⟨pre, hpre⟩ := ih (m :: ys)
    refine ⟨pre ++ [d], ?_⟩
    rw [List.append_assoc, List.singleton_append, hpre]
    simp [trace, hstep]

theorem Passes.mem_trace {P : Config L → Prop} (h : Passes P c ms) : ∃ x ∈ c.trace ms, P x := by
  obtain ⟨xs, ys, x, rfl, hrun, hx⟩ := h
  obtain ⟨pre, hpre⟩ := trace_of_run hrun ys
  refine ⟨x, ?_, hx⟩
  rw [hpre]
  refine List.mem_append_right _ ?_
  cases ys <;> exact .head _

theorem leavingOf_of_pos {acts : List (Act L)} {top : UCleanup L}
    (h : posOf acts = .code (.leave top)) : leavingOf acts = [top] := by
  unfold posOf at h
  split at h
  · split at h <;> cases h
  · cases h
    rfl
  · cases h

/-- A pending stop survives the strand's own control flow: the scope it is to be served at stays on
the stack, with a stop outstanding that leaves it, until the walker leaves it for a stop. -/
theorem pending_stop_survives {ms' : List (Move L)} (hc : Initial c) (hr : RunIf outward c ms d)
    (hstop : d.strand.unwind = .stop) (hD : target (posOf d.acts) d.strand.ctl = D)
    (hr' : RunIf outward d ms' e) :
    (D <:+ entries (posOf e.acts) e.strand.ctl ∧ ∃ C, C <:+ D ∧ e.owes D C) ∨
      Passes (leaves D) d ms' := by
  have hscoped : Scoped D := hD ▸ scoped_reach _ _
  have htracked := runIf_tracked (initial_tracked hc) hr
  have hall : (∃ C, C <:+ D ∧ e.owes D C) ∨ Passes (leaves D) d ms' := by
    induction hr' with
    | nil => exact .inl ⟨D, List.suffix_rfl, .pending hstop hD (hD ▸ reach_suffix _ _)⟩
    | snoc m hr' hq hstep ih =>
      rcases ih with ⟨C, hC, ho⟩ | hpass
      · have htracked' := runIf_tracked htracked hr'
        rcases step_owes htracked' hq hstep hscoped ho with
          ⟨C', hC', ho'⟩ | hleft | ⟨hleft, hin, -⟩
        · exact .inl ⟨C', hC'.trans hC, ho'⟩
        · exact .inr ⟨_, [m], _, rfl, hr'.run, hleft⟩
        · -- the stop is served at `C`, which is no other scope than `D`
          have hCD : C = D := hC.eq_of_length_le hin.length_le
          exact .inr ⟨_, [m], _, rfl, hr'.run, hCD ▸ hleft⟩
      · exact .inr hpass.snoc
  rcases hall with ⟨C, hC, ho⟩ | hpass
  · exact .inl ⟨ho.under, C, hC, ho⟩
  · exact .inr hpass

end Config

theorem pending_stop_survives_taggedOnce :
    ∃ (c d e : Config (codeOf taggedOnce)) (top : UCleanup (codeOf taggedOnce)),
      strandOf taggedOnce [.tag 7] = some c ∧ c.Run (stopAtYield.take 6) d ∧
      d.strand.unwind = .stop ∧ target (Config.posOf d.acts) d.strand.ctl = [top] ∧
      e.strand.cleanup = [] ∧
      Config.Passes (Config.leaves [top]) d (stopAtYield.drop 6 ++ [.finish .nil Config.grantAll]) := by
  have hrun : ∃ (c d e : Config (codeOf taggedOnce)) (top : UCleanup (codeOf taggedOnce)),
      strandOf taggedOnce [.tag 7] = some c ∧
      c.stepsIf Config.outward (stopAtYield.take 6) = some d ∧ d.strand.unwind = .stop ∧
      target (Config.posOf d.acts) d.strand.ctl = [top] ∧
      d.stepsIf Config.outward (stopAtYield.drop 6 ++ [.finish .nil Config.grantAll]) = some e ∧
      e.strand.cleanup = [] ∧ (Config.posOf e.acts).popped = [] :=
    ⟨_, _, _, _, rfl, rfl, rfl, rfl, rfl, rfl, rfl⟩
  obtain ⟨c, d, e, top, hc, hd, hstop, htarget, he, hcl, hpop⟩ := hrun
  have hr := Config.runIf_of_stepsIf hd
  refine ⟨c, d, e, top, hc, hr.run, hstop, htarget, hcl, ?_⟩
  rcases Config.pending_stop_survives (Config.uschedSpawn_initial hc) hr hstop htarget
    (Config.runIf_of_stepsIf he) with ⟨hin, -⟩ | hpass
  · -- the scope is gone from the stack
    have hnil : entries (Config.posOf e.acts) e.strand.ctl = [] :=
      (entries_of_popped _ hpop).trans hcl
    rw [hnil] at hin
    cases List.suffix_nil.mp hin
  · exact hpass

/-- `function (t, o) { t: { try { o.x = o | throw o } catch (e) { } } | nil }`. -/
def caughtInScope : UProto :=
  .mk ⟨2, 0, 2, false, [], [uinstrEncAbx .scopeTag 0 8, uinstrEncAbx .scopeTry uscopeFHasCatch 6,
    uinstrEncAbc .setslot 1 1 0, uinstrEncAbc .throw 1 0 0, uinstrEncAbc .scopePop uscopePopTry 0 0,
    uinstrEncAbx .jmp 0 (ujmpBias + 1), uinstrEncAbc .loadCatchValue 2 0 0,
    uinstrEncAbc .scopePop uscopePopTag 0 0, uinstrEncAbc .loadnil 2 0 0, uinstrEncAbc .ret 2 0 0],
    [1, 0, 0, 0, 0, 0, 0, 0, 0, 0], [], [some [120]]⟩ []

def stopInWrite : List (Move L) :=
  [.dispatch 0, .exec Config.grantAll, .finish .nil Config.grantAll, .exec Config.grantAll,
    .exec Config.grantAll, .stop 7 false]

def throwAndCatch : List (Move L) :=
  [.finish .nil Config.grantAll, .exec Config.grantAll, .exec Config.grantAll,
    .exec Config.grantAll, .exec Config.grantAll, .finish .nil Config.grantAll,
    .exec Config.grantAll]

/-- The throw takes the cell the stop waits in: no walker leaves the scope for the stop, and the
statement behind the scope runs. -/
theorem throw_discards_stop :
    ∃ (c d e : Config (codeOf caughtInScope)) (top : UCleanup (codeOf caughtInScope))
      (f : UFrame (codeOf caughtInScope)),
      strandOf caughtInScope [.tag 7, .obj 9] = some c ∧ c.Run stopInWrite d ∧
      d.strand.unwind = .stop ∧ target (Config.posOf d.acts) d.strand.ctl = [top] ∧
      top.tag = some 7 ∧ d.Run throwAndCatch e ∧ e.strand.unwind = .none ∧ e.strand.cleanup = [] ∧
      e.strand.frames = [f] ∧ f.pc = 9 ∧ ¬ Config.Passes (Config.leaves [top]) d throwAndCatch := by
  refine ⟨_, _, _, _, _, rfl, Config.run_of_steps rfl, rfl, rfl, rfl, Config.run_of_steps rfl, rfl, rfl,
    rfl, rfl, fun hpass => ?_⟩
  -- nobody leaves anything in the whole run
  obtain ⟨x, hx, -, top', hpos, -⟩ := hpass.mem_trace
  have hnone := List.all_eq_true (p := fun x => (Config.leavingOf x.acts).isEmpty).mp rfl x hx
  rw [Config.leavingOf_of_pos hpos] at hnone
  cases hnone

namespace Config

variable {c d e : Config L} {m : Move L} {ms : List (Move L)} {C D : List (UCleanup L)}

/-! ## Several stops -/

def outstanding (c : Config L) : Bool :=
  c.strand.unwind = .stop || c.strand.cleanup.any fun m => m.savedUnwind = .stop

theorem owes.outstanding (h : c.owes D C) : c.outstanding = true := by
  unfold Config.outstanding
  cases h with
  | pending hu _ _ =>
    have hu : c.strand.unwind = .stop := hu
    simp [hu]
  | @suspended m R hm hsus _ _ =>
    have hmem : m ∈ c.strand.cleanup := hm.subset (.head _)
    simp only [Bool.or_eq_true, List.any_eq_true, decide_eq_true_eq]
    exact .inr ⟨m, hmem, hsus⟩

/-- The stops raised from the first one on until all are consumed, latest first. -/
inductive Episode (c : Config L) : List (List (UCleanup L)) → Config L → Prop
  | start {m : Move L} {d : Config L} {C : List (UCleanup L)} :
      c.outstanding = false → outward c m = true → c.step m = some d →
      raised c m = some C → Episode c [C] d
  | step {m : Move L} {R : List (List (UCleanup L))} {d e : Config L} : Episode c R d →
      d.outstanding = true → outward d m = true → d.step m = some e → Episode c ((raised d m).toList ++ R) e

def follow (R : List (List (UCleanup L))) (d : Config L) :
    List (Move L) → Option (List (List (UCleanup L)) × Config L)
  | [] => some (R, d)
  | m :: ms =>
    if d.outstanding && outward d m then
      (d.step m).bind fun e => follow ((raised d m).toList ++ R) e ms
    else none

theorem Episode.follow {R R' : List (List (UCleanup L))} (h : Episode c R d)
    (hf : Config.follow R d ms = some (R', e)) : Episode c R' e := by
  induction ms generalizing R d with
  | nil =>
    cases hf
    exact h
  | cons m ms ih =>
    unfold Config.follow at hf
    split at hf
    · rename_i hq
      rw [Bool.and_eq_true] at hq
      obtain ⟨d', hstep, hrest⟩ := Option.bind_eq_some_iff.mp hf
      exact ih (h.step hq.1 hq.2 hstep) hrest
    · cases hf

/-- Nothing else is owed, and of what is owed something leaves them all. -/
structure Accounts (R : List (List (UCleanup L))) (d : Config L) : Prop where
  known : ∀ C, d.owes [] C → C ∈ R
  least : ∃ C, d.owes [] C ∧ ∀ C' ∈ R, C <:+ C'

theorem scoped_nil : Scoped ([] : List (UCleanup L)) := nofun

theorem not_leaves_nil : ¬ c.leaves [] := by
  rintro ⟨-, top, -, h⟩
  cases h

theorem owes_of_step (h : Tracked c) (hq : outward c m = true) (hd : c.step m = some d)
    (ho : d.owes [] C) : raised c m = some C ∨ c.owes [] C := by
  rcases step_moved h.good h.calls hd with ⟨n, hmoved⟩ | ⟨native, hout, hacts⟩
  · refine .inr (owes_of_did hmoved.did (hmoved.keeps ?_) ho)
    simp only [outward, Bool.and_eq_true] at hq
    exact hq.1
  · obtain ⟨-, hclean, hcell⟩ := outside_pending hout hacts
    have hclean : d.strand.ctl.cleanup = c.strand.ctl.cleanup := hclean
    cases ho with
    | suspended hm hsus hC _ => exact .inr (.suspended (hclean ▸ hm) hsus hC List.nil_suffix)
    | pending hu hC _ =>
      rcases hcell with ⟨C', hC', -, htarget⟩ | ⟨-, hu', htarget⟩
      · exact .inl (hC'.trans (congrArg some (htarget.symm.trans hC)))
      · have hu : c.strand.unwind = .stop := hu'.symm.trans hu
        exact .inr (.pending hu ((htarget hu).symm.trans hC) List.nil_suffix)

theorem raised_target (hd : c.step m = some d) (hC : raised c m = some C) :
    d.strand.unwind = .stop ∧ target (posOf d.acts) d.strand.ctl = C := by
  obtain ⟨v, hv, -⟩ := Option.map_eq_some_iff.mp hC
  have hm : fromOutside m = true := by cases m <;> first | rfl | cases hv
  obtain ⟨native, hout, hacts⟩ := outside_of_step hm hd
  obtain ⟨-, -, ⟨C', hC', hu, htarget⟩ | ⟨hnone, -⟩⟩ := outside_pending hout hacts
  · exact ⟨hu, htarget.trans (Option.some.inj (hC'.symm.trans hC))⟩
  · cases hnone.symm.trans hC

theorem owes_of_raised (hd : c.step m = some d) (hC : raised c m = some C) : d.owes [] C := by
  obtain ⟨hu, htarget⟩ := raised_target hd hC
  exact .pending hu htarget List.nil_suffix

/-- A stop that has just been raised leaves what the suspended ones leave, or lands above them. -/
theorem comparable (h : Tracked c) {C' : List (UCleanup L)} (hu : c.strand.unwind = .stop)
    (hC : target (posOf c.acts) c.strand.ctl = C) (ho : c.owes [] C') : C' <:+ C ∨ C <:+ C' := by
  cases ho with
  | pending _ hC' _ => exact .inl ((hC'.symm.trans hC) ▸ List.suffix_rfl)
  | @suspended m R hm hsus hC' _ =>
    rcases h.pend.pending hu m R hm hsus with hin | hle
    · rw [hC] at hin
      rw [← hC']
      exact .inl (((reach_suffix m.saved R).trans (List.suffix_cons m R)).trans hin)
    · rw [hC, hC'] at hle
      exact .inr hle

structure Settled (R : List (List (UCleanup L))) (d : Config L) : Prop where
  clear : ∀ C, ¬ d.owes [] C
  landed : ∃ C ∈ R, (∀ C' ∈ R, C <:+ C') ∧ Landed C d

theorem Accounts.step {R : List (List (UCleanup L))} (ha : Accounts R d) (h : Tracked d)
    (hq : outward d m = true) (hstep : d.step m = some e) :
    Accounts ((raised d m).toList ++ R) e ∨ Settled ((raised d m).toList ++ R) e := by
  obtain ⟨C, ho, hleast⟩ := ha.least
  have hknown : ∀ C', e.owes [] C' → C' ∈ (raised d m).toList ++ R := by
    intro C' ho'
    rcases owes_of_step h hq hstep ho' with hC' | ho'
    · exact List.mem_append_left _ (by rw [hC']; exact .head _)
    · exact List.mem_append_right _ (ha.known C' ho')
  rcases step_owes h hq hstep scoped_nil ho with ⟨C', hC', ho'⟩ | hleft | ⟨-, -, hland⟩
  · refine .inl ⟨hknown, ?_⟩
    have hold : ∀ C'' ∈ R, C' <:+ C'' := fun C'' hC'' => hC'.trans (hleast C'' hC'')
    cases hr : raised d m with
    | none => exact ⟨C', ho', hold⟩
    | some C₁ =>
      -- of the new stop and the one that led so far, one leaves what the other leaves
      have ho₁ := owes_of_raised hstep hr
      obtain ⟨hu, htarget⟩ := raised_target hstep hr
      rcases comparable (step_tracked h hq hstep) hu htarget ho' with hle | hle
      · refine ⟨C', ho', fun C'' hC'' => ?_⟩
        rcases List.mem_cons.mp hC'' with rfl | hC''
        · exact hle
        · exact hold C'' hC''
      · refine ⟨C₁, ho₁, fun C'' hC'' => ?_⟩
        rcases List.mem_cons.mp hC'' with rfl | hC''
        · exact List.suffix_rfl
        · exact hle.trans (hold C'' hC'')
  · exact absurd hleft not_leaves_nil
  · have hnone : raised d m = none := by
      cases hr : raised d m with
      | none => rfl
      | some C₁ => cases hland.unwind.symm.trans (raised_target hstep hr).1
    rw [hnone]
    refine .inr ⟨fun C' ho' => ?_, C, ha.known C ho, hleast, hland⟩
    have hle : C <:+ C' := by
      have hmem := hknown C' ho'
      rw [hnone] at hmem
      exact hleast C' hmem
    cases ho' with
    | pending hu _ _ => cases hland.unwind.symm.trans hu
    | @suspended mark R' hm _ hC' _ =>
      -- a scope under the one served, against the choice of the latter
      obtain ⟨top, htop⟩ := hland.behind
      have hR' : C' <:+ R' := hC' ▸ reach_suffix _ _
      have h₁ := (hle.trans hR').length_le
      have h₂ : (mark :: R').length ≤ e.strand.cleanup.length := hm.length_le
      rw [htop, List.length_cons] at h₁
      rw [List.length_cons] at h₂
      omega

theorem owes_of_outstanding (h : c.outstanding = true) : ∃ C, c.owes [] C := by
  simp only [outstanding, Bool.or_eq_true, List.any_eq_true, decide_eq_true_eq] at h
  rcases h with hu | ⟨m, hm, hsus⟩
  · exact ⟨_, .pending hu rfl List.nil_suffix⟩
  · obtain ⟨S, R, hS⟩ := List.append_of_mem hm
    have hsuf : m :: R <:+ c.strand.cleanup := ⟨S, hS.symm⟩
    exact ⟨_, .suspended hsuf hsus rfl List.nil_suffix⟩

theorem Episode.accounts {R : List (List (UCleanup L))} (hc : Tracked c) (h : Episode c R d) :
    Tracked d ∧ (Accounts R d ∨ Settled R d) := by
  induction h with
  | start hclear hq hstep hC =>
    refine ⟨step_tracked hc hq hstep, .inl ⟨fun C' ho' => ?_, _, owes_of_raised hstep hC, ?_⟩⟩
    · rcases owes_of_step hc hq hstep ho' with hC' | ho'
      · cases hC.symm.trans hC'
        exact .head _
      · cases hclear.symm.trans ho'.outstanding
    · intro C' hC'
      rw [List.mem_singleton.mp hC']
  | step _ hout hq hstep ih =>
    obtain ⟨htracked, ha | hs⟩ := ih
    · exact ⟨step_tracked htracked hq hstep, ha.step htracked hq hstep⟩
    · obtain ⟨C, ho⟩ := owes_of_outstanding hout
      exact absurd ho (hs.clear C)

theorem Episode.settled {R : List (List (UCleanup L))} (hc : Tracked c) (h : Episode c R d)
    (hout : d.outstanding = false) : Settled R d := by
  rcases (h.accounts hc).2 with ha | hs
  · obtain ⟨C, ho, -⟩ := ha.least
    cases hout.symm.trans ho.outstanding
  · exact hs

/-- Stops are neither lost nor ordered: in a run where each is served no further in than those it
overtakes, a strand that has consumed all of them has left every scope that was to serve one, goes
on behind the outermost of these, and does so whatever the order they came in. -/
theorem stops_leave_outermost {c₀ d' : Config L} {R R' : List (List (UCleanup L))}
    (hc : Initial c₀) (hr : RunIf outward c₀ ms c)
    (h : Episode c R d) (hout : d.outstanding = false)
    (h' : Episode c R' d') (hout' : d'.outstanding = false) :
    (∀ C ∈ R, ¬ C <:+ d.strand.cleanup) ∧ (∃ C ∈ R, (∀ C' ∈ R, C <:+ C') ∧ Landed C d) ∧
      ((∀ C, C ∈ R ↔ C ∈ R') → d.strand.cleanup = d'.strand.cleanup) := by
  have htracked := runIf_tracked (initial_tracked hc) hr
  obtain ⟨-, C, hC, hleast, hland⟩ := h.settled htracked hout
  obtain ⟨-, C', hC', hleast', hland'⟩ := h'.settled htracked hout'
  refine ⟨fun C₁ hC₁ hin => ?_, ⟨C, hC, hleast, hland⟩, fun hsame => ?_⟩
  · obtain ⟨top, htop⟩ := hland.behind
    have hlen := ((hleast C₁ hC₁).trans hin).length_le
    rw [htop, List.length_cons] at hlen
    omega
  · have hle := hleast C' ((hsame C').mpr hC')
    have hge := hleast' C ((hsame C).mp hC)
    have heq : C = C' := hle.eq_of_length_le hge.length_le
    obtain ⟨top, htop⟩ := hland.behind
    obtain ⟨top', htop'⟩ := hland'.behind
    rw [htop, htop'] at heq
    exact (List.cons.inj heq).2

end Config

/-- `function (t, u) { t: { u: { yield }; nil } }`. -/
def nestedScopes : UProto :=
  .mk ⟨2, 0, 2, false, [], [uinstrEncAbx .scopeTag 0 6, uinstrEncAbx .scopeTag 1 4,
    uinstrEncAbc .yield 0 0 0, uinstrEncAbc .scopePop uscopePopTag 0 0, uinstrEncAbc .loadnil 2 0 0,
    uinstrEncAbc .scopePop uscopePopTag 0 0, uinstrEncAbc .ret 0 0 0], [1, 0, 0, 0, 0, 0, 0], [],
    []⟩ []

def yieldInside : List (Move L) :=
  [.dispatch 0, .exec Config.grantAll, .finish .nil Config.grantAll, .exec Config.grantAll,
    .finish .nil Config.grantAll, .exec Config.grantAll, .finish .nil yieldAll]

def leaveTwo : List (Move L) :=
  [.dispatch 0, .exec Config.grantAll, .finish .nil Config.grantAll, .exec Config.grantAll,
    .finish .nil Config.grantAll]

theorem stops_leave_outermost_nestedScopes :
    ∃ (c₀ c d d' : Config (codeOf nestedScopes)) (outer inner : List (UCleanup (codeOf nestedScopes))),
      strandOf nestedScopes [.tag 7, .tag 8] = some c₀ ∧ c₀.Run yieldInside c ∧
      c.Episode [outer, inner] d ∧ d.outstanding = false ∧
      c.Episode [outer, outer, inner] d' ∧ d'.outstanding = false ∧
      (∀ C ∈ [outer, inner], ¬ C <:+ d.strand.cleanup) ∧ d.strand.cleanup = d'.strand.cleanup := by
  have hrun : ∃ (c₀ c c₁ d d' : Config (codeOf nestedScopes))
      (outer inner : List (UCleanup (codeOf nestedScopes))),
      strandOf nestedScopes [.tag 7, .tag 8] = some c₀ ∧
      c₀.stepsIf Config.outward yieldInside = some c ∧ c.outstanding = false ∧
      Config.outward c (.stop 8 false) = true ∧ c.step (.stop 8 false) = some c₁ ∧
      c.raised (.stop 8 false) = some inner ∧
      Config.follow [inner] c₁ (.stop 7 false :: leaveTwo) = some ([outer, inner], d) ∧
      d.outstanding = false ∧
      Config.follow [inner] c₁ (.stop 7 false :: .stop 7 false :: leaveTwo) =
        some ([outer, outer, inner], d') ∧ d'.outstanding = false :=
    ⟨_, _, _, _, _, _, _, rfl, rfl, rfl, rfl, rfl, rfl, rfl, rfl, rfl, rfl⟩
  obtain ⟨c₀, c, c₁, d, d', outer, inner, hc₀, hc, hout, hq, hstep, hraised, hd, hd₀, hd', hd₀'⟩ :=
    hrun
  have hr := Config.runIf_of_stepsIf hc
  have hstart : c.Episode [inner] c₁ := .start hout hq hstep hraised
  have hend := hstart.follow hd
  have hend' := hstart.follow hd'
  obtain ⟨hleft, -, hsame⟩ :=
    Config.stops_leave_outermost (Config.uschedSpawn_initial hc₀) hr hend hd₀ hend' hd₀'
  exact ⟨c₀, c, d, d', outer, inner, hc₀, hr.run, hend, hd₀, hend', hd₀', hleft,
    hsame (by simp)⟩

/-- The stop of the inner scope overwrites that of the outer one.  The strand consumes it, its scope
of the other tag is still open and the next statement in it runs; in the other order the strand ends
up behind both scopes. -/
theorem stop_of_inner_loses_outer :
    ∃ (c₀ c d d' : Config (codeOf nestedScopes)) (f : UFrame (codeOf nestedScopes)),
      strandOf nestedScopes [.tag 7, .tag 8] = some c₀ ∧ c₀.Run yieldInside c ∧
      c.Run (.stop 7 false :: .stop 8 false :: leaveTwo.take 3) d ∧ d.outstanding = false ∧
      scopes 7 d.strand.cleanup = 1 ∧ d.strand.frames = [f] ∧ f.pc = 4 ∧
      (d.step (.exec Config.grantAll)).isSome = true ∧
      c.Run (.stop 8 false :: .stop 7 false :: leaveTwo) d' ∧ d'.outstanding = false ∧
      scopes 7 d'.strand.cleanup = 0 :=
  ⟨_, _, _, _, _, rfl, Config.run_of_steps rfl, Config.run_of_steps rfl, rfl, rfl, rfl, rfl, rfl,
    Config.run_of_steps rfl, rfl, rfl⟩

theorem Did.tail_suffix {flags : Nat → UInt8} {p q : Pos L} {κ κ' : Ctl L} {n : Note}
    (h : Did flags p κ n q κ') : κ.cleanup.tail <:+ κ'.cleanup := by
  cases h with
  | same | loadCatch | landJump | lost | «return» | leftJump | landed | passed | entered | left =>
    exact List.tail_suffix _
  | raise hcl =>
    rcases hcl with rfl | ⟨top, hc, -⟩
    · exact List.tail_suffix _
    · rw [hc]
      exact List.suffix_refl _
  | openTry | openTag => exact (List.tail_suffix _).trans (List.suffix_cons ..)
  | closeFinally hc | runFinally _ _ hc =>
    rw [hc]
    exact List.suffix_cons ..
  | closeTry hc | closeTag hc | resume hc | resumeUnwind hc | pop _ hc | popFatal _ hc
  | caught _ hc | leaveJump _ hc | leave _ _ hc =>
    rw [hc]
    exact List.suffix_refl _

namespace Config

variable {J : Judgement L} {c₀ c d : Config L} {ms ns : List (Move L)}

theorem step_tail_suffix {m : Move L} (hg : Good J c) (hk : CallsOk c.acts)
    (hd : c.step m = some d) : c.strand.cleanup.tail <:+ d.strand.cleanup := by
  rcases step_moved hg hk hd with ⟨n, hmoved⟩ | ⟨native, hout, -⟩
  · exact hmoved.did.tail_suffix
  · rw [(outside_disturbed hout).cleanup]
    exact List.tail_suffix _

/-- Whatever a strand does inside a scope, the entries under it stay as they are: calls, unwinds,
handlers and stops included, until the strand is down at them again. -/
theorem scopes_nest {low : List (UCleanup L)} (hc : Initial c₀) (hr : Run c₀ ms c)
    (hlow : low <:+ c.strand.cleanup)
    (hr' : RunIf (fun e _ => low.length < e.strand.cleanup.length) c ns d) :
    low <:+ d.strand.cleanup := by
  suffices h : (∃ ks, Run c₀ ks d) ∧ low <:+ d.strand.cleanup from h.2
  induction hr' with
  | nil => exact ⟨⟨ms, hr⟩, hlow⟩
  | @snoc _ e _ m _ hp hstep ih =>
    obtain ⟨⟨ks, hks⟩, hsuf⟩ := ih
    have htail := step_tail_suffix (reachable_good (T := anyTyping L) hc hks)
      (run_callsOk hc hks) hstep
    refine ⟨⟨_, .snoc m hks hstep⟩, List.IsSuffix.trans ?_ htail⟩
    refine List.suffix_of_suffix_length_le hsuf (List.tail_suffix _) ?_
    rw [List.length_tail]
    exact Nat.le_sub_one_of_lt (of_decide_eq_true hp)

end Config

/-- The inner scope is stopped and left. -/
theorem scopes_nest_nestedScopes :
    ∃ (c d : Config (codeOf nestedScopes)) (top e : UCleanup (codeOf nestedScopes)),
      c.strand.cleanup = [top, e] ∧ c.Run (.stop 8 false :: leaveTwo.take 2) d ∧
      d.strand.cleanup.length = 1 ∧ [e] <:+ d.strand.cleanup := by
  have hrun : ∃ (c₀ c d : Config (codeOf nestedScopes)) (top e : UCleanup (codeOf nestedScopes)),
      strandOf nestedScopes [.tag 7, .tag 8] = some c₀ ∧ c₀.steps yieldInside = some c ∧
      c.strand.cleanup = [top, e] ∧ c.stepsIf (fun d _ => [e].length < d.strand.cleanup.length)
        (.stop 8 false :: leaveTwo.take 2) = some d ∧ d.strand.cleanup.length = 1 :=
    ⟨_, _, _, _, _, rfl, rfl, rfl, rfl, rfl⟩
  obtain ⟨c₀, c, d, top, e, hc₀, hc, hcl, hd, hlen⟩ := hrun
  have hr := Config.runIf_of_stepsIf hd
  exact ⟨c, d, top, e, hcl, hr.run, hlen, Config.scopes_nest (Config.uschedSpawn_initial hc₀)
    (Config.run_of_steps hc) (by rw [hcl]; exact List.suffix_cons ..) hr⟩

end Urbi
