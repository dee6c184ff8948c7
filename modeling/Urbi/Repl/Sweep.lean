import Urbi.Repl.Dispatch

/-!
# The sweep

`urbi_repl_serve_step` reads from each session, writes what it has staged and drops it once it has
ended and has nothing left to send.  What the transport answers is a list of replies; behind them
every call reports an error.
-/

namespace Urbi.Repl

namespace UReplOutBuf

def reserves (o : UReplOutBuf) (granted : Bool) (need : Nat) : Bool :=
  o.buf.length + need ≤ o.cap || granted && o.buf.length + need ≤ o.grown need

def keep (o : UReplOutBuf) (granted : Bool) (bytes : List UInt8) : UReplOutBuf × Bool :=
  if o.reserves granted bytes.length then (o.append bytes, true) else ({ o with dropped := true }, false)

def stage (o : UReplOutBuf) (granted : Bool) (bytes : List UInt8) : UReplOutBuf × Bool :=
  (if o.cap < o.buf.length + bytes.length then o.compact else o).keep granted bytes

theorem nothing_fits : ([] : List UInt8).length ≤ 0 := Nat.le_refl 0

def reset (o : UReplOutBuf) : UReplOutBuf :=
  { o with buf := [], off := 0, off_le := nothing_fits, fill_le := Nat.zero_le _ }

def cleared (o : UReplOutBuf) : UReplOutBuf := { o.reset with dropped := false }

def advance (o : UReplOutBuf) (n : Nat) : UReplOutBuf :=
  { o with off := min (o.off + n) o.buf.length, off_le := Nat.min_le_right .. }

theorem advance_pending (o : UReplOutBuf) (n : Nat) :
    o.pending = o.pending.take n ++ (o.advance n).pending := by
  have hdrop : (o.advance n).pending = o.pending.drop n := by
    show o.buf.drop (min (o.off + n) o.buf.length) = (o.buf.drop o.off).drop n
    rw [List.drop_drop]
    rcases Nat.le_total (o.off + n) o.buf.length with h | h
    · rw [Nat.min_eq_left h]
    · rw [Nat.min_eq_right h, List.drop_length, List.drop_eq_nil_of_le h]
  rw [hdrop, List.take_append_drop]

theorem keep_pending (o : UReplOutBuf) (granted : Bool) (bytes : List UInt8) :
    (o.keep granted bytes).1.pending =
      o.pending ++ if (o.keep granted bytes).2 then bytes else [] := by
  unfold keep
  split
  · rename_i hroom
    have hfits : o.buf.length + bytes.length ≤ o.capLimit := by
      rw [reserves, Bool.or_eq_true, Bool.and_eq_true, decide_eq_true_iff, decide_eq_true_iff]
        at hroom
      rcases hroom with h | ⟨-, h⟩
      · exact Nat.le_trans h o.cap_le
      · exact Nat.le_trans h (o.grown_le _)
    exact append_pending hfits
  · exact (List.append_nil _).symm

theorem stage_pending (o : UReplOutBuf) (granted : Bool) (bytes : List UInt8) :
    (o.stage granted bytes).1.pending =
      o.pending ++ if (o.stage granted bytes).2 then bytes else [] := by
  unfold stage
  split
  · exact o.compact.keep_pending granted bytes
  · exact o.keep_pending granted bytes

end UReplOutBuf

/-! ## A session and its transport -/

structure Session where
  inbound : UReplSession
  out : UReplOutBuf
  replies : List (Chunk × Nat)
  sent : List UInt8
  log : List (List UInt8 × Bool)

@[irreducible] def droppedReport : List UInt8 :=
  (emitError 1024 0 (lit "output_dropped") (lit "output was lost: the client is not reading")).getD []

namespace Session

def push (s : Session) (e : Bool × List UInt8) : Session :=
  let r := s.out.stage e.1 e.2
  { s with out := r.1, log := s.log ++ [(e.2, r.2)] }

def writeLoop (s : Session) : List (Chunk × Nat) → Session
  | [] =>
    if s.out.pending = [] then { s with out := s.out.reset, replies := [] }
    else { s with inbound.ended := true, replies := [] }
  | r :: rs =>
    if s.out.pending = [] then { s with out := s.out.reset, replies := r :: rs }
    else if r.2 = 0 then { s with replies := rs }
    else
      writeLoop { s with out := s.out.advance r.2, sent := s.sent ++ s.out.pending.take r.2 } rs

def reportGap (granted : Bool) (s : Session) : Session :=
  if s.out.dropped ∧ s.out.pending = [] then
    { s with out := s.out.cleared }.push (granted, droppedReport)
  else s

def writeSweep (granted : Bool) (s : Session) : Session :=
  let s := s.reportGap granted
  s.writeLoop s.replies

/-! ## Envelopes stay whole -/

def Whole (s : Session) : Prop :=
  s.sent ++ s.out.pending = (s.log.filter Prod.snd).flatMap Prod.fst

theorem Whole.push {s : Session} (h : s.Whole) (e : Bool × List UInt8) : (s.push e).Whole := by
  show s.sent ++ (s.out.stage e.1 e.2).1.pending =
    ((s.log ++ [(e.2, (s.out.stage e.1 e.2).2)]).filter Prod.snd).flatMap Prod.fst
  rw [UReplOutBuf.stage_pending, ← List.append_assoc, h, List.filter_append, List.flatMap_append]
  cases (s.out.stage e.1 e.2).2 <;> simp

theorem Whole.reset {s s' : Session} (h : s.Whole) (hempty : s.out.pending = [])
    (hsent : s'.sent = s.sent) (hlog : s'.log = s.log) (hout : s'.out.pending = []) : s'.Whole := by
  unfold Whole
  rw [hsent, hlog, hout, ← hempty]
  exact h

theorem Whole.writeLoop {s : Session} (h : s.Whole) (rs : List (Chunk × Nat)) :
    (s.writeLoop rs).Whole := by
  induction rs generalizing s with
  | nil =>
    unfold Session.writeLoop
    split
    · rename_i hempty
      exact h.reset hempty rfl rfl rfl
    · exact h
  | cons r rs ih =>
    unfold Session.writeLoop
    split
    · rename_i hempty
      exact h.reset hempty rfl rfl rfl
    · split
      · exact h
      · apply ih
        show (s.sent ++ s.out.pending.take r.2) ++ (s.out.advance r.2).pending = _
        rw [List.append_assoc, ← UReplOutBuf.advance_pending]
        exact h

theorem Whole.writeSweep {s : Session} (h : s.Whole) (granted : Bool) :
    (s.writeSweep granted).Whole := by
  apply Whole.writeLoop
  unfold reportGap
  split
  · rename_i hgap
    apply Whole.push
    exact h.reset hgap.2 rfl rfl rfl
  · exact h

end Session

/-- An envelope is pushed, or a sweep writes, with the transport's replies to its calls. -/
inductive Staging where
  | push (granted : Bool) (bytes : List UInt8)
  | sweep (granted : Bool) (replies : List (Chunk × Nat))

def Session.stage (s : Session) : Staging → Session
  | .push granted bytes => s.push (granted, bytes)
  | .sweep granted replies => { s with replies }.writeSweep granted

def Session.fresh (capLimit : Nat) (replies : List (Chunk × Nat)) : Session where
  inbound := freshSession
  out := ⟨[], 0, 0, capLimit, false, UReplOutBuf.nothing_fits, UReplOutBuf.nothing_fits,
    Nat.zero_le _⟩
  replies
  sent := []
  log := []

theorem Session.Whole.run {s : Session} (h : s.Whole) (evs : List Staging) :
    (evs.foldl Session.stage s).Whole := by
  induction evs generalizing s with
  | nil => exact h
  | cons ev evs ih =>
    apply ih
    cases ev with
    | push granted bytes => exact h.push _
    | sweep granted replies =>
      have hset : ({ s with replies } : Session).Whole := h
      exact hset.writeSweep granted

/-- Every run of pushes and sweeps ends with the transport holding a prefix of the envelopes that
were kept; the rest of them is what is staged. -/
theorem staging_keeps_envelopes (capLimit : Nat) (evs : List Staging) :
    let s := evs.foldl Session.stage (Session.fresh capLimit [])
    s.sent <+: (s.log.filter Prod.snd).flatMap Prod.fst ∧
      s.sent ++ s.out.pending = (s.log.filter Prod.snd).flatMap Prod.fst := by
  have hfresh : (Session.fresh capLimit []).Whole := rfl
  have h := hfresh.run evs
  exact ⟨⟨_, h⟩, h⟩

/-! ## The serve step -/

section

variable {Req : Type} (parse : List UInt8 → Option Req)
  (respond : Session → Report Req → List (Bool × List UInt8))

namespace Session

def pushAll (s : Session) (es : List (Bool × List UInt8)) : Session := es.foldl push s

/-- The transport is asked unless the session has ended, and every line read is answered. -/
def readPart (s : Session) : Session :=
  if s.inbound.ended then s
  else
    let r := readSweep parse s.inbound (s.replies.head?.map Prod.fst)
    r.2.foldl (fun s report => s.pushAll (respond s report))
      { s with inbound := r.1, replies := s.replies.tail }

/-- None is a session destroyed. -/
def sweep (granted : Bool) (s : Session) : Option Session :=
  let s := (s.readPart parse respond).writeSweep granted
  if s.inbound.ended ∧ s.out.pending = [] then none else some s

end Session

def serveStep (granted : Session → Bool) (sessions : List Session) : List Session :=
  sessions.filterMap fun s => s.sweep parse respond (granted s)

/-! ## Dead peers -/

namespace Session

variable {s : Session} {granted : Bool}

theorem push_pending (s : Session) (e : Bool × List UInt8) : s.out.pending <+: (s.push e).out.pending :=
  ⟨_, (s.out.stage_pending e.1 e.2).symm⟩

theorem pushAll_pending (s : Session) (es : List (Bool × List UInt8)) :
    s.out.pending <+: (s.pushAll es).out.pending := by
  induction es generalizing s with
  | nil => exact List.prefix_rfl
  | cons e es ih => exact (s.push_pending e).trans (ih (s.push e))

theorem pushAll_inbound (s : Session) (es : List (Bool × List UInt8)) :
    (s.pushAll es).inbound = s.inbound ∧ (s.pushAll es).replies = s.replies := by
  induction es generalizing s with
  | nil => exact ⟨rfl, rfl⟩
  | cons e es ih => exact ih (s.push e)

theorem readPart_ended (h : s.inbound.ended = true) : s.readPart parse respond = s := if_pos h

structure Stuck (s : Session) : Prop where
  ended : s.inbound.ended = true
  staged : s.out.pending ≠ []
  dead : s.replies = []

theorem Stuck.pushAll (h : s.Stuck) (es : List (Bool × List UInt8)) : (s.pushAll es).Stuck where
  ended := by rw [(s.pushAll_inbound es).1]; exact h.ended
  staged hnil := h.staged (List.prefix_nil.mp (hnil ▸ s.pushAll_pending es))
  dead := by rw [(s.pushAll_inbound es).2]; exact h.dead

theorem inbufReserve_ended {s s' : UReplSession} {need : Nat} (h : inbufReserve s need = some s') :
    s'.ended = s.ended := by
  unfold inbufReserve at h
  repeat' split at h
  all_goals cases h <;> rfl

theorem refuse_ended (s : UReplSession) (chunk : List UInt8) :
    (refuse s chunk).ended = s.ended := by
  unfold refuse
  split
  · rfl
  · dsimp only
    split
    · split
      · rename_i h
        have hended := inbufReserve_ended h
        exact hended
      · rfl
    · rfl

theorem readSweep_ended {s : UReplSession} (h : s.ended = false) (chunk : Chunk) :
    (readSweep parse s (some chunk)).1.ended = false := by
  rw [readSweep, h, if_neg Bool.false_ne_true]
  dsimp only
  split
  · exact h
  · split
    · exact (refuse_ended s chunk.1).trans h
    · rename_i hs
      exact (inbufReserve_ended hs).trans h

theorem writeLoop_stuck {rs : List (Chunk × Nat)} (hlive : s.inbound.ended = false)
    (h : (s.writeLoop rs).inbound.ended = true) : (s.writeLoop rs).Stuck := by
  induction rs generalizing s with
  | nil =>
    unfold writeLoop at h ⊢
    split at h
    · rw [hlive] at h
      cases h
    · rename_i hstaged
      rw [if_neg hstaged]
      exact ⟨rfl, hstaged, rfl⟩
  | cons r rs ih =>
    unfold writeLoop at h ⊢
    split at h
    · rw [hlive] at h
      cases h
    · rename_i hstaged
      rw [if_neg hstaged]
      split at h
      · rw [hlive] at h
        cases h
      · rename_i hzero
        rw [if_neg hzero]
        exact ih hlive h

theorem reportGap_inbound (granted : Bool) (s : Session) :
    (s.reportGap granted).inbound = s.inbound ∧ (s.reportGap granted).replies = s.replies := by
  unfold reportGap
  split <;> exact ⟨rfl, rfl⟩

theorem droppedReport_ne_nil : droppedReport ≠ [] := by
  unfold droppedReport
  decide

def GapDue (granted : Bool) (s : Session) : Prop :=
  s.out.dropped = true ∧ (s.out.cleared.stage granted droppedReport).2 = true

theorem reportGap_pending :
    (s.reportGap granted).out.pending = [] ↔ s.out.pending = [] ∧ ¬ s.GapDue granted := by
  unfold reportGap
  split
  · rename_i hgap
    have hpush : ({ s with out := s.out.cleared }.push (granted, droppedReport)).out.pending =
        if (s.out.cleared.stage granted droppedReport).2 then droppedReport else [] :=
      s.out.cleared.stage_pending granted droppedReport
    rw [hpush]
    constructor
    · intro hnil
      refine ⟨hgap.2, fun hdue => ?_⟩
      rw [if_pos hdue.2] at hnil
      exact droppedReport_ne_nil hnil
    · rintro ⟨-, hdue⟩
      rw [if_neg fun hkept => hdue ⟨hgap.1, hkept⟩]
  · rename_i hgap
    constructor
    · exact fun hnil => ⟨hnil, fun hdue => hgap ⟨hdue.1, hnil⟩⟩
    · exact And.left

theorem sweep_dead (granted : Bool) (hended : s.inbound.ended = true) (hdead : s.replies = []) :
    (s.out.pending = [] ∧ ¬ s.GapDue granted) ∧ s.sweep parse respond granted = none ∨
      ¬ (s.out.pending = [] ∧ ¬ s.GapDue granted) ∧
        ∃ s', s.sweep parse respond granted = some s' ∧ s'.Stuck := by
  obtain ⟨hin, hrep⟩ := s.reportGap_inbound granted
  have hsweep : s.sweep parse respond granted =
      let t := (s.reportGap granted).writeLoop []
      if t.inbound.ended ∧ t.out.pending = [] then none else some t := by
    rw [sweep, readPart_ended parse respond hended, writeSweep, hrep, hdead]
  rw [← reportGap_pending, hsweep, writeLoop]
  by_cases hnil : (s.reportGap granted).out.pending = []
  · left
    rw [if_pos hnil]
    exact ⟨hnil, if_pos ⟨hin ▸ hended, rfl⟩⟩
  · right
    rw [if_neg hnil]
    exact ⟨hnil, _, if_neg fun hgone => hnil hgone.2, rfl, hnil, rfl⟩

theorem Stuck.sweep (h : s.Stuck) (granted : Bool) :
    ∃ s', s.sweep parse respond granted = some s' ∧ s'.Stuck := by
  rcases s.sweep_dead parse respond granted h.ended h.dead with ⟨hnil, -⟩ | ⟨-, hstuck⟩
  · exact absurd hnil.1 h.staged
  · exact hstuck

theorem responses_inbound (s : Session) (reports : List (Report Req)) :
    (reports.foldl (fun s report => s.pushAll (respond s report)) s).inbound = s.inbound := by
  induction reports generalizing s with
  | nil => rfl
  | cons report reports ih => exact (ih _).trans (s.pushAll_inbound _).1

theorem sweep_error (hlive : s.inbound.ended = false)
    (herr : ((s.readPart parse respond).writeSweep granted).inbound.ended = true) :
    (s.replies = [] ∧ s.out.pending = [] ∧ ¬ s.GapDue granted) ∧
        s.sweep parse respond granted = none ∨
      ¬ (s.replies = [] ∧ s.out.pending = [] ∧ ¬ s.GapDue granted) ∧
        ∃ s', s.sweep parse respond granted = some s' ∧ s'.Stuck := by
  cases hreplies : s.replies with
  | nil =>
    have hread : s.readPart parse respond = { s with inbound.ended := true } := by
      obtain ⟨inbound, out, replies, sent, log⟩ := s
      cases hreplies
      unfold readPart readSweep
      rw [hlive, if_neg Bool.false_ne_true]
      rfl
    have hsame : s.sweep parse respond granted =
        ({ s with inbound.ended := true } : Session).sweep parse respond granted := by
      rw [sweep, sweep, hread, readPart_ended parse respond rfl]
    rw [hsame]
    rcases ({ s with inbound.ended := true } : Session).sweep_dead parse respond granted rfl hreplies
      with ⟨hnil, hgone⟩ | ⟨hnil, hstuck⟩
    · exact .inl ⟨⟨rfl, hnil⟩, hgone⟩
    · exact .inr ⟨fun h => hnil h.2, hstuck⟩
  | cons r rs =>
    right
    refine ⟨fun h => absurd h.1 (List.cons_ne_nil _ _), ?_⟩
    have hread : (s.readPart parse respond).inbound.ended = false := by
      unfold readPart
      rw [hlive, if_neg Bool.false_ne_true, responses_inbound, hreplies]
      exact readSweep_ended parse hlive r.1
    rw [← (reportGap_inbound granted _).1] at hread
    have hstuck := writeLoop_stuck hread herr
    refine ⟨_, ?_, hstuck⟩
    unfold sweep
    exact if_neg fun hgone => hstuck.staged hgone.2

end Session

/-- A session is gone after the sweep that reports the first error and one more, whatever is pushed
in between, exactly if it was the read that failed and nothing was left to send, the report of a gap
included. -/
theorem dead_peer_dropped_iff {s : Session} (granted granted' : Session → Bool)
    (between : Session → List (Bool × List UInt8)) (before after : List Session)
    (hlive : s.inbound.ended = false)
    (herr : ((s.readPart parse respond).writeSweep (granted s)).inbound.ended = true) :
    let two := fun l => serveStep parse respond granted'
      ((serveStep parse respond granted l).map fun s => s.pushAll (between s))
    two (before ++ s :: after) = two before ++ two after ↔
      s.replies = [] ∧ s.out.pending = [] ∧ ¬ s.GapDue (granted s) := by
  intro two
  have htwo : two (before ++ s :: after) = two before ++ (two [s] ++ two after) := by
    simp only [two, serveStep, List.filterMap_append, List.map_append,
      List.append_cons before s after, List.append_assoc]
  rw [htwo]
  rcases s.sweep_error parse respond hlive herr with ⟨hcond, hgone⟩ | ⟨hcond, s', hs', hstuck⟩
  · have hnil : two [s] = [] := by simp [two, serveStep, hgone]
    rw [hnil, List.nil_append]
    exact iff_of_true rfl hcond
  · obtain ⟨t, ht, -⟩ := (hstuck.pushAll (between s')).sweep parse respond
      (granted' (s'.pushAll (between s')))
    have hone : two [s] = [t] := by simp [two, serveStep, hs', ht]
    rw [hone]
    refine iff_of_false (fun heq => ?_) hcond
    have hlen := congrArg List.length heq
    simp only [List.length_append, List.length_singleton] at hlen
    omega

end

def idleStep : List Session → List Session :=
  serveStep (fun _ => none : List UInt8 → Option Unit) (fun _ _ => []) fun _ => true

/-- A peer whose transport is gone, with nothing to send to it. -/
theorem dead_peer_dropped_iff_idle :
    idleStep ((idleStep ([] ++ Session.fresh 4096 [] :: [])).map fun s => s.pushAll []) = [] :=
  (dead_peer_dropped_iff _ _ (fun _ => true) (fun _ => true) (fun _ => []) [] [] rfl rfl).mpr
    ⟨rfl, rfl, fun h => Bool.false_ne_true h.1⟩

def stagedSession : Session :=
  { Session.fresh 16 [] with
    out := ⟨[120], 0, 16, 16, false, by decide, by decide, by decide⟩ }

/-- It is never dropped. -/
theorem dead_peer_never_dropped :
    stagedSession.replies = [] ∧ ∀ n, idleStep^[n] [stagedSession] ≠ [] := by
  have hstuck : ∀ n (s : Session), s.Stuck → idleStep^[n] [s] ≠ [] := by
    intro n
    induction n with
    | zero => exact fun s _ => List.cons_ne_nil _ _
    | succ n ih =>
      intro s h
      obtain ⟨s', hs', h'⟩ := h.sweep (fun _ => none : List UInt8 → Option Unit) (fun _ _ => []) true
      rw [Function.iterate_succ_apply, show idleStep [s] = [s'] by simp [idleStep, serveStep, hs']]
      exact ih s' h'
  refine ⟨rfl, fun n => ?_⟩
  cases n with
  | zero => exact List.cons_ne_nil _ _
  | succ n =>
    rw [Function.iterate_succ_apply]
    exact hstuck n { stagedSession with inbound.ended := true } ⟨rfl, List.cons_ne_nil _ _, rfl⟩

end Urbi.Repl
