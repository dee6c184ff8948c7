import Mathlib.Data.List.Infix
import Urbi.Rt.Invariant

/-!
# Control

`Ctl` is the part of a strand that stops and gates live in, `Pos` is where control stands, and `Did`
lists what a step of the strand itself can do to the two.  `step_moved` says that the machine does
nothing else.
-/

namespace Urbi

variable {L : CodeBase}
variable {k : Cont L} {acts : List (Act L)} {t : Nat} {failed : Bool}

/-! ## The control part of a strand -/

structure Ctl (L : CodeBase) where
  cleanup : List (UCleanup L)
  unwind : UUnwindKind
  transfer : UValue L
  tag : Option Nat
  gates : UInt8

def UStrand.ctl (s : UStrand L) : Ctl L := ⟨s.cleanup, s.unwind, s.transfer, s.tag, s.gates⟩

namespace Ctl

def coveringTags (κ : Ctl L) : List Nat :=
  κ.tag.toList ++ (κ.cleanup.filter (·.kind = .tagScope)).filterMap UCleanup.savedTag

def gateBits (κ : Ctl L) (flags : Nat → UInt8) : UInt8 :=
  κ.coveringTags.foldl (fun g t => g ||| flags t) 0

def Stops (κ : Ctl L) (t : Nat) : Prop := κ.unwind = .stop ∧ κ.transfer = .tag t

end Ctl

theorem stopping_iff {s : UStrand L} :
    s.stopping (some t) = true ↔ s.unwind = .stop ∧ s.transfer = .tag t := by
  unfold UStrand.stopping
  split
  · rename_i hu ht hn
    cases hn
    simp [hu, ht]
  · rename_i hne
    constructor
    · exact nofun
    · rintro ⟨hu, ht⟩
      exact absurd rfl (hne t t hu ht)

theorem UStrand.stops_iff {s : UStrand L} {t : Nat} : s.ctl.Stops t ↔ s.stopping (some t) = true :=
  stopping_iff.symm

/-! ## Positions -/

inductive Pos (L : CodeBase) where
  -- with the scheduler
  | idle
  | fetch
  | walk
  -- in the C code of an arm
  | code (k : Cont L)

namespace Config

def posOf : List (Act L) → Pos L
  | .run _ _ walking :: _ => if walking then .walk else .fetch
  | .out k _ :: _ => .code k
  | _ => .idle

end Config

def Pos.Plain (p : Pos L) : Prop := ∀ k, p = .code k → Config.crossing k = false

theorem Pos.plain_idle : (Pos.idle : Pos L).Plain := fun _ h => by cases h

theorem Pos.plain_fetch : (Pos.fetch : Pos L).Plain := fun _ h => by cases h

theorem Pos.plain_walk : (Pos.walk : Pos L).Plain := fun _ h => by cases h

theorem Pos.plain_code (h : Config.crossing k = false) : (Pos.code k).Plain := by
  intro k' hk
  cases hk
  exact h

/-! ## What a step can do -/

/-- Nothing, a risk of losing the pending stop, a new scope of `t`, or an entry dropped by the
walker. -/
inductive Note where
  | quiet
  | discards
  | opens (t : Nat)
  | pops

/-- The walker's steps come after those of instructions and C code, the second halves of scope
events last. -/
inductive Did (flags : Nat → UInt8) : Pos L → Ctl L → Note → Pos L → Ctl L → Prop
  -- a payload is written or taken only while no unwind owns the slot
  | same {p q κ v} : (κ.unwind ≠ .none → v = κ.transfer) → p.Plain → q.Plain →
      Did flags p κ .quiet q { κ with transfer := v }
  | raise {p q κ cl u v} :
      (cl = κ.cleanup ∨ ∃ top, κ.cleanup = top :: cl ∧ top.kind = .try ∧ top.running = false) →
      u ≠ .none → u ≠ .stop → p.Plain → q.Plain →
      Did flags p κ .discards q { κ with cleanup := cl, unwind := u, transfer := v }
  | openTry {q κ d} : d.kind = .try → d.savedUnwind = .none → q.Plain →
      Did flags .fetch κ .quiet q { κ with cleanup := d :: κ.cleanup }
  | openTag {κ d t} : d.kind = .tagScope → d.tag = some t → d.savedUnwind = .none →
      d.running = false → d.savedTag = κ.tag →
      Did flags .fetch κ (.opens t) (.code (.tagEnter t))
        { κ with cleanup := d :: κ.cleanup, tag := some t }
  | closeTry {q κ top rest} : κ.cleanup = top :: rest → top.kind = .try → top.running = false →
      q.Plain → Did flags .fetch κ .discards q { κ with cleanup := rest }
  | closeFinally {q κ top rest pc} : κ.cleanup = top :: rest → top.kind = .try →
      top.running = false → q.Plain →
      Did flags .fetch κ .discards q { κ with cleanup := top.mark .none .nil pc :: rest }
  | closeTag {κ top rest} : κ.cleanup = top :: rest → top.kind = .tagScope →
      Did flags .fetch κ .discards (.code .tagPop)
        { κ with cleanup := rest, tag := top.savedTag }
  | resume {q κ mark rest} : κ.cleanup = mark :: rest → mark.running = true →
      mark.savedUnwind = .none → q.Plain → Did flags .fetch κ .discards q { κ with cleanup := rest }
  | resumeUnwind {κ mark rest} : κ.cleanup = mark :: rest → mark.running = true →
      mark.savedUnwind ≠ .none →
      Did flags .fetch κ .discards .walk
        { κ with cleanup := rest, unwind := mark.savedUnwind, transfer := mark.saved }
  | loadCatch {q κ} : q.Plain → Did flags .fetch κ .discards q { κ with transfer := .nil }
  | landJump {κ} : κ.unwind = .jump →
      Did flags .walk κ .quiet .fetch { κ with unwind := .none, transfer := .nil }
  | lost {κ v} : κ.unwind = .jump →
      Did flags .walk κ .quiet .walk { κ with unwind := .fatal, transfer := v }
  | return {q κ} : κ.unwind = .return → q.Plain →
      Did flags .walk κ .quiet q { κ with unwind := .none, transfer := .nil }
  | pop {κ top rest} : κ.unwind ≠ .none → κ.cleanup = top :: rest → top.kind = .try →
      Did flags .walk κ .pops .walk { κ with cleanup := rest }
  | popFatal {κ top rest tag} : κ.unwind = .fatal → κ.cleanup = top :: rest →
      (top.kind = .try ∧ tag = κ.tag ∨ top.kind = .tagScope ∧ tag = top.savedTag) →
      Did flags .walk κ .pops .walk { κ with cleanup := rest, tag := tag }
  | runFinally {κ top rest pc} : κ.unwind ≠ .none → κ.unwind ≠ .fatal → κ.cleanup = top :: rest →
      top.kind = .try → top.running = false →
      Did flags .walk κ .quiet .fetch
        { κ with cleanup := top.mark κ.unwind κ.transfer pc :: rest,
                 unwind := .none, transfer := .nil }
  | caught {κ top rest} : κ.unwind = .throw → κ.cleanup = top :: rest → top.kind = .try →
      top.running = false →
      Did flags .walk κ .quiet .fetch { κ with cleanup := rest, unwind := .none }
  | leaveJump {κ top rest} : κ.unwind = .jump → κ.cleanup = top :: rest → top.kind = .tagScope →
      Did flags .walk κ .quiet (.code .leaveJump)
        { κ with cleanup := rest, tag := top.savedTag }
  | leave {κ top rest} : κ.unwind ≠ .none → κ.unwind ≠ .jump → κ.cleanup = top :: rest →
      top.kind = .tagScope →
      Did flags .walk κ .pops (.code (.leave top))
        { κ with cleanup := rest, tag := top.savedTag }
  | leftJump {κ} :
      Did flags (.code .leaveJump) κ .quiet .walk { κ with gates := κ.gateBits flags }
  | landed {κ top t} : top.tag = some t → κ.Stops t →
      Did flags (.code (.leave top)) κ .quiet .fetch
        { κ with unwind := .none, transfer := .nil, gates := κ.gateBits flags }
  | passed {κ top} : (∀ t, top.tag = some t → ¬ κ.Stops t) →
      Did flags (.code (.leave top)) κ .quiet .walk κ
  | entered {q κ t} : q.Plain →
      Did flags (.code (.tagEnter t)) κ .quiet q { κ with gates := κ.gates ||| flags t }
  | left {q κ} : q.Plain →
      Did flags (.code .tagPop) κ .quiet q { κ with gates := κ.gateBits flags }

/-! ## Instructions -/

namespace Config

/-- Those that write the unwind cell, and those that end a scope. -/
def replaces (s : UStrand L) (o : Oracle L) (f : UFrame L) : Arm L → Bool
  | .raise _ _ _ | .raiseAt _ _ _ | .throw _ | .unwindTo _ _ | .resume | .loadCatch _
  | .scopePop _ => true
  | .ret _ => ownsEntry s
  | .call a b c =>
    match doCall s o f a b c with
    | .raised _ _ => true
    | _ => false
  | .pushTry flags handler => (s.pushCleanup (o.grant 0) (tryEntry s flags handler)).isNone
  | .pushTag t handler => (s.pushCleanup (o.grant 0) (tagEntry s t handler)).isNone
  | _ => false

def AfterDid (flags : Nat → UInt8) (p : Pos L) (κ : Ctl L) (n : Note) : After L → Prop
  | .go s | .leave s => ∀ q : Pos L, q.Plain → Did flags p κ n q s.ctl
  | .walk s => Did flags p κ n .walk s.ctl
  | .push s k => Did flags p κ n (.code k) s.ctl

section Arms

variable {flags : Nat → UInt8} {p : Pos L} {s s' : UStrand L} {n : Note}

theorem did_of_ctl_eq (hp : p.Plain) (h : s'.ctl = s.ctl) (q : Pos L) (hq : q.Plain) :
    Did flags p s.ctl .quiet q s'.ctl := by
  rw [h]
  exact Did.same (v := s.ctl.transfer) (fun _ => rfl) hp hq

theorem setPc_ctl (s : UStrand L) (pc : Nat) : (s.setPc pc).ctl = s.ctl := by
  unfold UStrand.setPc
  split <;> rfl

theorem setRegs_ctl (s : UStrand L) (base : Nat) (ws : List (Nat × UValue L)) :
    (s.setRegs base ws).ctl = s.ctl := by
  obtain ⟨stack, h⟩ := s.setRegs_eq base ws
  rw [h]
  rfl

theorem popFrame_ctl (s : UStrand L) : s.popFrame.ctl = s.ctl := by
  unfold UStrand.popFrame
  split <;> rfl

theorem completeReturn_ctl (s : UStrand L) (v : UValue L) : (s.completeReturn v).1.ctl = s.ctl := by
  unfold UStrand.completeReturn
  repeat' split
  all_goals first | rfl | exact popFrame_ctl s

theorem throwError_did {q : Pos L} (hp : p.Plain) (hq : q.Plain) {s₀ : UStrand L}
    {cl : List (UCleanup L)}
    (hc : cl = s₀.cleanup ∨ ∃ top, s₀.cleanup = top :: cl ∧ top.kind = .try ∧ top.running = false)
    (h : s.ctl = { s₀.ctl with cleanup := cl })
    (o : Oracle L) (which : UErrorProto) (msg : String) (pos : Bool) :
    Did flags p s₀.ctl .discards q (s.throwError o which msg pos).ctl := by
  have hctl : (s.throwError o which msg pos).ctl =
      { s.ctl with unwind := .throw, transfer := (s.throwError o which msg pos).transfer } := rfl
  rw [hctl, h]
  exact Did.raise hc nofun nofun hp hq

theorem fatal_did {q : Pos L} (hp : p.Plain) (hq : q.Plain) (o : Oracle L) (msg : String) :
    Did flags p s.ctl .discards q (s.fatal o msg).ctl := by
  have hctl : (s.fatal o msg).ctl =
      { s.ctl with cleanup := s.cleanup, unwind := .fatal, transfer := (s.fatal o msg).transfer } := rfl
  rw [hctl]
  exact Did.raise (.inl rfl) nofun nofun hp hq

theorem afterPop_did (s : UStrand L) (o : Oracle L) (f : UFrame L) (a : Nat) :
    AfterDid flags .fetch s.ctl .discards (afterPop s o f a) := by
  unfold afterPop
  dsimp only
  split
  · exact fatal_did Pos.plain_fetch Pos.plain_walk o _
  · rename_i top rest hc
    split
    · split
      · exact fatal_did Pos.plain_fetch Pos.plain_walk o _
      · rename_i hk
        exact Did.closeTag hc (by_contra fun h => hk (.inl h))
    · split
      · exact fatal_did Pos.plain_fetch Pos.plain_walk o _
      · rename_i hk
        have htry : top.kind = .try := by_contra fun h => hk (.inl h)
        have hrun : top.running = false := by
          by_contra h
          exact hk (.inr (.inl (by simpa using h)))
        split
        · exact fun q hq => Did.closeTry hc htry hrun hq
        · split
          · exact throwError_did Pos.plain_fetch Pos.plain_walk (.inr ⟨top, hc, htry, hrun⟩) rfl o _ _ _
          · rename_i s₂ hpush
            obtain ⟨cap, rfl⟩ := UStrand.pushCleanup_eq hpush
            intro q hq
            rw [setPc_ctl]
            exact Did.closeFinally hc htry hrun hq

theorem afterResume_did (s : UStrand L) (o : Oracle L) :
    AfterDid flags .fetch s.ctl .discards (afterResume s o) := by
  unfold afterResume
  split
  · exact fatal_did Pos.plain_fetch Pos.plain_walk o _
  · rename_i mark rest hc
    split
    · exact fatal_did Pos.plain_fetch Pos.plain_walk o _
    · rename_i hk
      have hrun : mark.running = true := by
        by_contra h
        exact hk (.inl (by simpa using h))
      dsimp only
      split
      · intro q hq
        rw [setPc_ctl]
        exact Did.resume hc hrun ‹_› hq
      · exact Did.resumeUnwind hc hrun ‹_›

section Noted

variable {o : Oracle L} {f : UFrame L} {a : Arm L} {after : After L}

def Noted (flags : Nat → UInt8) (s : UStrand L) (o : Oracle L) (f : UFrame L) (a : Arm L)
    (after : After L) : Prop :=
  ∃ n, AfterDid flags .fetch s.ctl n after ∧ (n = .discards → replaces s o f a = true) ∧
    (∀ t, n = .opens t → ∃ handler, a = .pushTag t handler) ∧ n ≠ .pops

theorem noted_quiet (h : AfterDid flags .fetch s.ctl .quiet after) : Noted flags s o f a after :=
  ⟨.quiet, h, nofun, nofun, nofun⟩

theorem noted_discards (h : AfterDid flags .fetch s.ctl .discards after)
    (hr : replaces s o f a = true) : Noted flags s o f a after :=
  ⟨.discards, h, fun _ => hr, nofun, nofun⟩

theorem perform_did (ha : perform s o f a = some after)
    (hk : ∀ k, a = .out k → crossing k = false) : Noted flags s o f a after := by
  have hsame : ∀ s' : UStrand L, s'.ctl = s.ctl →
      ∀ q : Pos L, q.Plain → Did flags .fetch s.ctl .quiet q s'.ctl :=
    fun s' h => did_of_ctl_eq Pos.plain_fetch h
  have hraise : ∀ which msg pos (s' : UStrand L), s'.ctl = s.ctl →
      AfterDid flags .fetch s.ctl .discards (.walk (s'.throwError o which msg pos)) :=
    fun which msg pos s' h =>
      throwError_did Pos.plain_fetch Pos.plain_walk (.inl rfl) h o which msg pos
  cases a with
  | next writes skip =>
    cases ha
    refine noted_quiet (hsame _ ?_)
    rw [setPc_ctl, setRegs_ctl]
  | poke slot v => cases ha; exact noted_quiet (hsame _ (by cases slot <;> rfl))
  | jmp off =>
    simp only [perform, Option.ite_none_left_eq_some, Option.some.injEq] at ha
    obtain ⟨-, rfl⟩ := ha
    exact noted_quiet (hsame _ (setPc_ctl _ _))
  | extarg _ => cases ha; exact noted_quiet (hsame _ rfl)
  | closed dst v words =>
    cases ha
    refine noted_quiet (hsame _ ?_)
    rw [setPc_ctl]
    rfl
  | raise which msg positioned =>
    cases ha
    exact noted_discards (hraise _ _ _ s rfl) rfl
  | raiseAt words which msg =>
    cases ha
    exact noted_discards (hraise _ _ _ _ (setPc_ctl _ _)) rfl
  | throw v | unwindTo depth target =>
    cases ha
    refine noted_discards ?_ rfl
    exact Did.raise (.inl rfl) (by rintro ⟨⟩) (by rintro ⟨⟩) Pos.plain_fetch Pos.plain_walk
  | ret v =>
    cases ha
    unfold afterRet
    split
    · refine noted_discards ?_ ‹_›
      exact Did.raise (.inl rfl) (by rintro ⟨⟩) (by rintro ⟨⟩) Pos.plain_fetch Pos.plain_walk
    · split
      · exact noted_quiet (hsame _ (completeReturn_ctl s v))
      · exact noted_quiet (hsame _ (completeReturn_ctl s v))
  | call a b c =>
    cases ha
    unfold afterCall
    split
    · rename_i hcall
      exact noted_discards (hraise _ _ _ s rfl) (by simp [replaces, hcall])
    · refine noted_quiet ?_
      exact did_of_ctl_eq Pos.plain_fetch rfl _ (Pos.plain_code rfl)
    · rename_i s' hcall
      obtain ⟨g, stack, cap, -, -, rfl⟩ := doCall_eq hcall
      split
      · exact noted_quiet (hsame _ rfl)
      · exact noted_quiet (hsame _ rfl)
  | out k =>
    cases ha
    refine noted_quiet ?_
    exact did_of_ctl_eq Pos.plain_fetch rfl _ (Pos.plain_code (hk k rfl))
  | joinWait finished =>
    simp only [perform] at ha
    split at ha
    · cases ha; exact noted_quiet (hsame _ rfl)
    · split at ha
      · rename_i s' hpark
        cases ha
        obtain ⟨-, rfl⟩ := UStrand.park_eq hpark
        exact noted_quiet (hsame _ rfl)
      · cases ha
        exact noted_quiet (did_of_ctl_eq Pos.plain_fetch rfl _ (Pos.plain_code rfl))
  | pushTry flags handler =>
    simp only [perform] at ha
    split at ha
    · rename_i hpush
      cases ha
      exact noted_discards (hraise _ _ _ s rfl) (by simp [replaces, hpush])
    · rename_i s' hpush
      cases ha
      obtain ⟨cap, rfl⟩ := UStrand.pushCleanup_eq hpush
      exact noted_quiet (fun q hq => Did.openTry rfl rfl hq)
  | pushTag t handler =>
    simp only [perform] at ha
    split at ha
    · rename_i hpush
      cases ha
      exact noted_discards (hraise _ _ _ s rfl) (by simp [replaces, hpush])
    · rename_i s' hpush
      cases ha
      obtain ⟨cap, rfl⟩ := UStrand.pushCleanup_eq hpush
      refine ⟨.opens t, ?_, (by rintro ⟨⟩), fun t' ht' => ?_, (by rintro ⟨⟩)⟩
      · refine Did.openTag rfl rfl rfl (Nat.zero_testBit 5) ?_
        show UCleanup.savedTag (tagEntry s t handler) = s.tag
        unfold UCleanup.savedTag tagEntry
        cases s.tag <;> rfl
      · cases ht'
        exact ⟨handler, rfl⟩
  | scopePop a => cases ha; exact noted_discards (afterPop_did s o f a) rfl
  | loadCatch dst =>
    cases ha
    exact noted_discards (fun q hq => Did.loadCatch hq) rfl
  | resume => cases ha; exact noted_discards (afterResume_did s o) rfl

end Noted

def waitFails (s : UStrand L) (o : Oracle L) (v : UValue L) : Cont L → Bool
  | .waituntil => !v.truthy && s.mayDeschedule && !o.grant 0
  | _ => false

theorem finishArm_did (s : UStrand L) (o : Oracle L) (v : UValue L) (hk : leaving k = false) :
    AfterDid flags (.code k) s.ctl (if waitFails s o v k then .discards else .quiet)
      (finishArm s flags o v k) := by
  have hsame : ∀ {k : Cont L}, crossing k = false → ∀ s' : UStrand L, s'.ctl = s.ctl →
      ∀ q : Pos L, q.Plain → Did flags (.code k) s.ctl .quiet q s'.ctl :=
    fun hk s' h => did_of_ctl_eq (Pos.plain_code hk) h
  have hskip : ∀ b, (skipIf s b).ctl = s.ctl := by
    intro b
    unfold skipIf
    split
    · rfl
    · exact setPc_ctl s _
  cases k with
  | binop _ dst _ _ | neg dst _ | setslot | install | join | callback => exact hsame rfl _ rfl
  | eq want | less _ want _ _ => exact hsame rfl _ (hskip _)
  | getslot dst self => cases self <;> exact hsame rfl _ rfl
  | native fi dst | yield =>
    show AfterDid flags _ s.ctl .quiet _
    unfold finishArm
    dsimp only
    split <;> exact hsame rfl _ rfl
  | waituntil =>
    unfold finishArm waitFails
    cases v.truthy with
    | true => exact hsame rfl _ rfl
    | false =>
      cases s.mayDeschedule with
      | false => exact hsame rfl _ rfl
      | true =>
        cases o.grant 0 with
        | true => exact hsame rfl _ rfl
        | false => exact throwError_did (Pos.plain_code rfl) Pos.plain_walk (.inl rfl) rfl o _ _ _
  | tagEnter t =>
    have hin : ∀ s' : UStrand L, s'.ctl = { s.ctl with gates := s.gates ||| flags t } →
        ∀ q : Pos L, q.Plain → Did flags (.code (.tagEnter t)) s.ctl .quiet q s'.ctl := by
      intro s' h q hq
      rw [h]
      exact Did.entered hq
    show AfterDid flags _ s.ctl .quiet _
    unfold finishArm
    dsimp only
    split
    · rename_i hzero
      refine hin s ?_
      rw [hzero, UInt8.or_zero]
      rfl
    · split
      · rename_i s' hpark
        obtain ⟨-, rfl⟩ := UStrand.park_eq hpark
        exact hin _ rfl
      · exact hin _ rfl
  | tagPop => exact fun q hq => Did.left hq
  | leaveJump | leave top => cases hk

/-! ## Turns of the walker -/

def TurnDid (flags : Nat → UInt8) (p : Pos L) (κ : Ctl L) (n : Note) : UStrand.Turn L → Prop
  | .landed s => Did flags p κ n .fetch s.ctl
  | .left s => ∀ q : Pos L, q.Plain → Did flags p κ n q s.ctl
  | .again s => Did flags p κ n .walk s.ctl
  | .leavingJump s _ => Did flags p κ n (.code .leaveJump) s.ctl
  | .leaving s top => Did flags p κ n (.code (.leave top)) s.ctl

def Walks (owns : Bool) : Note → Prop
  | .quiet => True
  | .pops => owns = true
  | _ => False

theorem landed_did {κ : Ctl L} {pc : Nat} (h : Did flags p κ n .fetch s.ctl) :
    TurnDid flags p κ n (.landed (s.setPc pc)) := by
  show Did flags p κ n .fetch (s.setPc pc).ctl
  rwa [setPc_ctl]

theorem runFinally_did {top : UCleanup L} {rest : List (UCleanup L)} (hc : s.cleanup = top :: rest)
    (htry : top.kind = .try) (hrun : top.running = false) (hn : s.unwind ≠ .none)
    (hf : s.unwind ≠ .fatal) (grant : Bool) (pc : Nat) {other : UStrand L}
    (ho : other.ctl = { s.ctl with cleanup := rest }) (howns : ownsEntry s = true) :
    ∃ n, TurnDid flags .walk s.ctl n ({ s with cleanup := rest }.runFinally grant top pc other) ∧
      Walks (ownsEntry s) n := by
  unfold UStrand.runFinally
  split
  · refine ⟨.pops, ?_, howns⟩
    show Did flags .walk s.ctl .pops .walk other.ctl
    rw [ho]
    exact Did.pop hn hc htry
  · rename_i s₂ hpush
    obtain ⟨cap, rfl⟩ := UStrand.pushCleanup_eq hpush
    exact ⟨.quiet, landed_did (Did.runFinally hn hf hc htry hrun), trivial⟩

theorem turnFrame_did (s : UStrand L) (o : Oracle L) (f : UFrame L) :
    TurnDid flags .walk s.ctl .quiet (s.turnFrame o f) := by
  have hpop := popFrame_ctl s
  unfold UStrand.turnFrame
  split
  · exact Did.lost ‹_›
  · rename_i hret
    have hctl := completeReturn_ctl { s with unwind := .none, transfer := .nil } s.transfer
    dsimp only
    split
    · intro q hq
      rw [hctl]
      exact Did.return hret hq
    · show Did flags .walk s.ctl .quiet .fetch (UStrand.completeReturn _ _).1.ctl
      rw [hctl]
      exact Did.return hret Pos.plain_fetch
  · split
    · exact fun q hq => did_of_ctl_eq Pos.plain_walk hpop _ hq
    · exact did_of_ctl_eq Pos.plain_walk hpop _ Pos.plain_walk

theorem turn_did (s : UStrand L) (o : Oracle L) :
    ∃ n, TurnDid flags .walk s.ctl n (s.turn o) ∧ Walks (ownsEntry s) n := by
  unfold UStrand.turn
  split
  · exact ⟨.quiet, did_of_ctl_eq Pos.plain_walk rfl _ Pos.plain_fetch, trivial⟩
  · rename_i hn
    split
    · exact ⟨.quiet, fun q hq => did_of_ctl_eq Pos.plain_walk rfl _ hq, trivial⟩
    · rename_i f fs hfs
      split
      · rename_i hjump
        exact ⟨.quiet, landed_did (Did.landJump hjump.1), trivial⟩
      · split
        · rename_i top rest hc
          split
          · rename_i hown
            have howns : ownsEntry s = true := by
              unfold ownsEntry
              rw [hc, hfs]
              simpa using hown
            dsimp only
            split
            · rename_i hfatal
              refine ⟨.pops, ?_, howns⟩
              have hdid : ∀ {tag}, (top.kind = .try ∧ tag = s.ctl.tag ∨
                  top.kind = .tagScope ∧ tag = top.savedTag) →
                  Did flags .walk s.ctl .pops .walk { s.ctl with cleanup := rest, tag := tag } :=
                Did.popFatal hfatal hc
              unfold UStrand.turnFatal
              split
              · exact hdid (.inr ⟨‹_›, rfl⟩)
              · rename_i hkind
                exact hdid (.inl ⟨UCleanup.try_of_ne hkind, rfl⟩)
            · rename_i hjump
              have hf : s.unwind ≠ .fatal := by rw [hjump]; decide
              unfold UStrand.turnJump
              split
              · exact ⟨.quiet, Did.leaveJump hjump hc ‹_›, trivial⟩
              · have htry := UCleanup.try_of_ne ‹_›
                split
                · rename_i hfin
                  rw [Bool.and_eq_true, Bool.not_eq_true'] at hfin
                  exact runFinally_did hc htry hfin.1 hn hf _ _ rfl howns
                · exact ⟨.pops, Did.pop hn hc htry, howns⟩
            · rename_i hf hj
              unfold UStrand.turnPop
              split
              · exact ⟨.pops, Did.leave hn hj hc ‹_›, howns⟩
              · have htry := UCleanup.try_of_ne ‹_›
                split
                · exact ⟨.pops, Did.pop hn hc htry, howns⟩
                · have hrun : top.running = false := by simpa using ‹¬ top.running = true›
                  split
                  · exact runFinally_did hc htry hrun hn hf _ _ rfl howns
                  · split
                    · rename_i hthrow
                      exact ⟨.quiet, landed_did (Did.caught hthrow.1 hc htry hrun), trivial⟩
                    · exact ⟨.pops, Did.pop hn hc htry, howns⟩
          · exact ⟨.quiet, turnFrame_did s o _, trivial⟩
        · exact ⟨.quiet, turnFrame_did s o _, trivial⟩

theorem afterLeave_did (s : UStrand L) (top : UCleanup L) :
    TurnDid flags (.code (.leave top)) s.ctl .quiet (s.afterLeave flags top) := by
  cases htag : top.tag with
  | none =>
    have hst : s.stopping top.tag = false := by
      rw [htag]
      unfold UStrand.stopping
      split
      · rename_i heq
        cases heq
      · rfl
    unfold UStrand.afterLeave
    rw [hst, if_neg Bool.false_ne_true]
    refine Did.passed fun t ht => ?_
    cases htag.symm.trans ht
  | some t =>
    unfold UStrand.afterLeave
    rw [htag]
    split
    · rename_i hst
      have hctl := setPc_ctl { s with unwind := .none, transfer := .nil } top.onleavePc
      show Did flags _ s.ctl .quiet .fetch
        { (UStrand.setPc _ _).ctl with gates := (UStrand.setPc _ _).ctl.gateBits flags }
      rw [hctl]
      exact Did.landed htag (UStrand.stops_iff.mpr hst)
    · rename_i hst
      refine Did.passed fun t' ht' => ?_
      cases htag.symm.trans ht'
      exact fun h => hst (UStrand.stops_iff.mp h)

end Arms

def leavingOf : List (Act L) → List (UCleanup L)
  | .out (.leave top) _ :: _ => [top]
  | _ => []

/-- Nothing, or a `uexec_call` of C code that is not leaving a scope. -/
def Resumes : List (Act L) → Prop
  | [] => True
  | .call _ :: acts => leavingOf acts = []
  | _ => False

theorem leavingOf_out {rest : List (Act L)} (hk : leaving k = false) :
    leavingOf (.out k failed :: rest) = [] := by
  cases k <;> first | rfl | cases hk

theorem Stacked.leavingOf_eq {J : Judgement L} {fs : List (UFrame L)} {c : List (UCleanup L)}
    (h : Stacked J none fs c acts) : leavingOf acts = [] := by
  cases h with
  | arm _ _ _ _ _ hl _ _ _ => exact leavingOf_out hl
  | callback _ | host => rfl

theorem Stacked.resumes {J : Judgement L} {b : Bool} {fs : List (UFrame L)}
    {c : List (UCleanup L)} (h : Stacked J (some b) fs c acts) : Resumes acts := by
  generalize ho : some b = o at h
  induction h generalizing b with
  | bottom => trivial
  | caller _ _ _ _ ih => exact ih rfl
  | enter h _ => exact h.leavingOf_eq
  | arm _ _ _ _ _ _ _ _ _ _ | callback _ _ | host => cases ho

/-! ## Who calls whom -/

def isCallee : Act L → Bool
  | .call _ | .out .callback _ => true
  | _ => false

def invokes : Act L → Bool
  | .out k _ => mayInvoke k
  | _ => false

def CallsOk : List (Act L) → Prop
  | a :: b :: rest => (isCallee a = true → invokes b = true) ∧ CallsOk (b :: rest)
  | _ => True

theorem crossing_of_missMsg {msg : String} (h : missMsg k = some msg) : crossing k = false := by
  cases k <;> first | rfl | cases h

theorem crossing_of_mayInvoke (h : mayInvoke k = true) : crossing k = false := by
  cases k <;> first | rfl | cases h

theorem crossing_of_mayRaise (h : mayRaise k = true) : crossing k = false := by
  cases k <;> first | rfl | cases h

theorem crossing_of_isNative (h : isNative k = true) : crossing k = false := by
  cases k <;> first | rfl | cases h

theorem CallsOk.tail {a : Act L} (h : CallsOk (a :: acts)) : CallsOk acts := by
  cases acts with
  | nil => trivial
  | cons b rest => exact h.2

theorem CallsOk.push {a : Act L} (h : CallsOk acts) (ha : isCallee a = false) :
    CallsOk (a :: acts) := by
  cases acts with
  | nil => trivial
  | cons b rest =>
    refine ⟨fun hcall => ?_, h⟩
    rw [ha] at hcall
    cases hcall

theorem CallsOk.plain {a : Act L} (h : CallsOk (a :: acts)) (ha : isCallee a = true) :
    (posOf acts).Plain := by
  cases acts with
  | nil => exact Pos.plain_idle
  | cons b rest =>
    have hb := h.1 ha
    cases b with
    | out k failed => exact Pos.plain_code (crossing_of_mayInvoke hb)
    | run _ _ _ | call _ => cases hb

theorem CallsOk.setFailed {failed failed' : Bool} (h : CallsOk (.out k failed :: acts)) :
    CallsOk (.out k failed' :: acts) := by
  cases acts with
  | nil => trivial
  | cons b rest => exact ⟨fun hcall => h.1 (by cases k <;> exact hcall), h.2⟩

theorem leaveRun_ctl (s : UStrand L) (rest : List (Act L)) (flags : Nat → UInt8) :
    (leaveRun s rest flags).strand.ctl = s.ctl ∧ (leaveRun s rest flags).flags = flags := by
  unfold leaveRun
  repeat' split
  all_goals exact ⟨rfl, rfl⟩

theorem leaveRun_plain (s : UStrand L) {rest : List (Act L)} (flags : Nat → UInt8)
    (hr : Resumes rest) (hk : CallsOk rest) : (posOf (leaveRun s rest flags).acts).Plain := by
  unfold leaveRun
  split
  · have hplain := hk.plain rfl
    split
    · exact hplain
    · exact hplain
  · cases rest with
    | nil => exact Pos.plain_idle
    | cons a acts =>
      cases a with
      | call saved => exact Pos.plain_idle
      | run _ _ _ | out _ _ => cases hr

/-! ## Steps -/

def opens (c : Config L) : Move L → Option Nat
  | .exec o =>
    match c.acts, fetch c.strand with
    | .run _ _ false :: _, some (f, i) =>
      if uinstrOpcode i = some .scopeTag then
        match if uinstrA i = uscopeNoReg then .nil else c.strand.stack (f.base + uinstrA i) with
        | .tag t => some t
        | _ => some o.id
      else none
    | _, _ => none
  | _ => none

def nextArm (c : Config L) (o : Oracle L) : Option (UStrand L × UFrame L × Arm L) :=
  match c.acts, fetch c.strand with
  | .run _ e false :: _, some (f, i) =>
    let s := c.strand.setPc (f.pc + 1)
    let f := { f with pc := f.pc + 1 }
    match uinstrOpcode i with
    | none => some (s, f, .raise .typeError "opcode not available in this build" false)
    | some op => (arm o (s.window f) s.mayDeschedule (e.getD 0) op i).map (s, f, ·)
  | _, _ => none

def enterCall (s : UStrand L) (cl : UClosure L) (p : Fn L) (recv : UValue L)
    (args : List (UValue L)) (o : Oracle L) : CallResult L :=
  enterProto (s.setRegs (callBase s) (args.zipIdx.map fun (v, i) => (i, v))) o "call" cl p recv
    (callBase s) 0 args.length

def invokeFails (s : UStrand L) (cl : UClosure L) (recv : UValue L) (args : List (UValue L))
    (o : Oracle L) : Bool :=
  match cl.code with
  | .native lo hi => args.length < lo || hi < args.length
  | .proto p =>
    !arityOk p args.length || !o.grant 3 ||
      match enterCall s cl p recv args o with
      | .raised _ _ => true
      | _ => false

/-- The strand returns through a scope, throws, breaks or continues out of one, resumes, ends a
scope, or its C code raises. -/
def discards (c : Config L) : Move L → Bool
  | .exec o =>
    match nextArm c o with
    | some (s, f, a) => replaces s o f a
    | none => false
  | .finish v o =>
    match c.acts with
    | .out k _ :: _ => waitFails c.strand o v k
    | _ => false
  | .raise _ | .miss _ => true
  | .invoke cl recv args o => invokeFails c.strand cl recv args o
  | _ => false

structure Moved (c : Config L) (m : Move L) (n : Note) (d : Config L) : Prop where
  did : Did c.flags (posOf c.acts) c.strand.ctl n (posOf d.acts) d.strand.ctl
  flags : d.flags = c.flags
  lose : n = .discards → discards c m = true
  opens : ∀ t, n = .opens t → opens c m = some t
  pops : n = .pops → posOf c.acts = .walk ∧ ownsEntry c.strand = true

section Steps

variable {J : Judgement L} {c d : Config L} {m : Move L} {n : Note} {s : UStrand L}
  {flags : Nat → UInt8} {rest : List (Act L)} {b e : Option Nat}

theorem Good.resumes {w : Bool} (hg : Good J ⟨s, .run b e w :: rest, flags⟩) : Resumes rest := by
  cases hg.1 with
  | fetch hcur _ _ _ | walk hcur _ _ _ _ => exact hcur.under.resumes
  | drained _ _ _ _ _ | empty _ _ _ => trivial

theorem Good.resumes_out {w : Bool} (hg : Good J ⟨s, .out k failed :: .run b e w :: rest, flags⟩)
    (hk : k ≠ .callback) : Resumes rest := by
  cases hg.1 with
  | leaveJump hcur _ _ _ _ _ | leave hcur _ _ _ _ _ => exact hcur.under.resumes
  | out hst _ _ =>
    obtain ⟨f, fs, σ, c, b, e, rest, hacts, hcur, -⟩ := hst.of_arm hk
    cases hacts
    exact hcur.under.resumes

theorem opens_of_pushTag {f : UFrame L} {i : UInt32} {op : UOpcode} {o : Oracle L} {may : Bool}
    {handler : Nat} (hfetch : fetch s = some (f, i)) (hop : uinstrOpcode i = some op)
    (ha : arm o ((s.setPc (f.pc + 1)).window { f with pc := f.pc + 1 }) may (e.getD 0) op i =
      some (.pushTag t handler)) :
    opens ⟨s, .run b e false :: rest, flags⟩ (.exec o) = some t := by
  obtain ⟨rfl, -⟩ := armFor_arm (p := f.proto.val) rfl ha
  have hreg : ((s.setPc (f.pc + 1)).window { f with pc := f.pc + 1 }).reg (uinstrA i) =
      s.stack (f.base + uinstrA i) := by
    unfold UStrand.window UStrand.setPc
    split <;> rfl
  simp only [arm, armOfTag, hreg, Option.some.injEq] at ha
  unfold opens
  dsimp only
  rw [hfetch]
  dsimp only
  rw [if_pos hop]
  generalize (if uinstrA i = uscopeNoReg then UValue.nil else s.stack (f.base + uinstrA i)) = v at ha ⊢
  cases v with
  | tag _ =>
    cases ha
    rfl
  | _ =>
    dsimp only at ha
    split at ha <;> cases ha
    rfl

section Exec

variable {f : UFrame L} {i : UInt32} {a : Arm L} {o : Oracle L} (hfetch : fetch s = some (f, i))
  (ha : ∀ op, uinstrOpcode i = some op →
    arm o ((s.setPc (f.pc + 1)).window { f with pc := f.pc + 1 })
      (s.setPc (f.pc + 1)).mayDeschedule (e.getD 0) op i = some a)
  (hnone : uinstrOpcode i = none → a = .raise .typeError "opcode not available in this build" false)

include hfetch ha hnone

theorem nextArm_eq : nextArm ⟨s, .run b e false :: rest, flags⟩ o =
      some (s.setPc (f.pc + 1), { f with pc := f.pc + 1 }, a) := by
  unfold nextArm
  dsimp only
  rw [hfetch]
  dsimp only
  cases hop : uinstrOpcode i with
  | none =>
    dsimp only
    rw [hnone hop]
  | some op =>
    dsimp only
    rw [ha op hop]
    rfl

theorem opens_of_exec {handler : Nat} (hpush : a = .pushTag t handler) :
    opens ⟨s, .run b e false :: rest, flags⟩ (.exec o) = some t := by
  subst hpush
  cases hop : uinstrOpcode i with
  | none => cases hnone hop
  | some op => exact opens_of_pushTag hfetch hop (ha op hop)

end Exec

def DidTo (flags : Nat → UInt8) (p : Pos L) (κ : Ctl L) (n : Note) (d : Config L) : Prop :=
  Did flags p κ n (posOf d.acts) d.strand.ctl ∧ d.flags = flags

theorem moved_quiet (h : DidTo c.flags (posOf c.acts) c.strand.ctl .quiet d) : Moved c m .quiet d :=
  ⟨h.1, h.2, nofun, nofun, nofun⟩

variable {p : Pos L} {κ : Ctl L}

theorem leaveRun_did (h : ∀ q : Pos L, q.Plain → Did flags p κ n q s.ctl) (hr : Resumes rest)
    (hk : CallsOk rest) : DidTo flags p κ n (leaveRun s rest flags) := by
  obtain ⟨hctl, hflags⟩ := leaveRun_ctl s rest flags
  unfold DidTo
  rw [hctl]
  exact ⟨h _ (leaveRun_plain s flags hr hk), hflags⟩

theorem settle_did {after : After L} (h : AfterDid flags p κ n after) (hr : Resumes rest)
    (hk : CallsOk rest) : DidTo flags p κ n (settle b e rest flags after) := by
  cases after with
  | go s =>
    unfold settle
    dsimp only
    split
    · exact leaveRun_did h hr hk
    · exact ⟨h _ Pos.plain_fetch, rfl⟩
  | walk s | push s k => exact ⟨h, rfl⟩
  | leave s => exact leaveRun_did h hr hk

theorem walkStep_did {t : UStrand.Turn L} (h : TurnDid flags p κ n t) (hr : Resumes rest)
    (hk : CallsOk rest) : DidTo flags p κ n (walkStep b e rest flags t) := by
  cases t with
  | landed s | again s | leavingJump s _ | leaving s top => exact ⟨h, rfl⟩
  | left s => exact leaveRun_did h hr hk

theorem enterRun_did (hp : p.Plain) (hs : s.ctl = κ) (b : Option Nat) (rest : List (Act L))
    (flags : Nat → UInt8) : DidTo flags p κ .quiet (enterRun s b rest flags) := by
  subst hs
  unfold enterRun
  split
  · exact ⟨did_of_ctl_eq hp rfl _ Pos.plain_walk, rfl⟩
  · rename_i hn
    rw [not_not] at hn
    split
    · -- the payload is taken from a slot no unwind owns
      exact ⟨Did.same (fun h => absurd hn h) hp Pos.plain_fetch, rfl⟩
    · exact ⟨did_of_ctl_eq hp rfl _ Pos.plain_fetch, rfl⟩

theorem failOut_did (hk : CallsOk (.out k failed :: rest))
    (h : ∀ q : Pos L, q.Plain → Did flags p κ n q s.ctl)
    (hd : failOut s flags k rest = some d) : DidTo flags p κ n d := by
  unfold failOut at hd
  split at hd
  · cases hd
    exact ⟨h _ (hk.plain rfl), rfl⟩
  · cases hd
    exact ⟨h _ (hk.plain rfl), rfl⟩
  · cases hd
    exact ⟨h _ Pos.plain_walk, rfl⟩
  · cases hd

theorem invoke_moved (hk : mayInvoke k = true) (cl : UClosure L) (recv : UValue L)
    (args : List (UValue L)) (o : Oracle L) :
    ∃ n, Moved ⟨s, .out k false :: rest, flags⟩ (.invoke cl recv args o) n
      (invoke s flags k rest cl recv args o) := by
  have hp := Pos.plain_code (crossing_of_mayInvoke hk)
  have hfailed : invokeFails s cl recv args o = true → ∀ stack which msg,
      Moved ⟨s, .out k false :: rest, flags⟩ (.invoke cl recv args o) .discards
        ⟨{ s with stack := stack }.throwError o which msg false, .out k true :: rest, flags⟩ :=
    fun hfail stack which msg =>
      ⟨throwError_did hp hp (.inl rfl) rfl o _ _ _, rfl, fun _ => hfail, nofun, nofun⟩
  unfold invoke
  split
  · rename_i lo hi hcode
    split
    · rename_i harity
      refine ⟨_, hfailed ?_ s.stack _ _⟩
      simp only [invokeFails, hcode]
      simpa using harity
    · exact ⟨_, moved_quiet ⟨did_of_ctl_eq hp rfl _ (Pos.plain_code rfl), rfl⟩⟩
  · rename_i p hcode
    dsimp only
    split
    · rename_i harity
      exact ⟨_, hfailed (by simp only [invokeFails, hcode, harity, Bool.true_or]) s.stack _ _⟩
    · split
      · rename_i hgrant
        refine ⟨_, hfailed ?_ s.stack _ _⟩
        simp only [invokeFails, hcode, hgrant, Bool.or_true, Bool.true_or]
      · obtain ⟨stack, hregs⟩ :=
          s.setRegs_eq (callBase s) (args.zipIdx.map fun (v, i) => (i, v))
        split
        · rename_i henter
          rw [hregs]
          refine ⟨_, hfailed ?_ stack _ _⟩
          simp only [invokeFails, hcode, enterCall, henter, Bool.or_true]
        · rw [hregs]
          exact ⟨_, moved_quiet ⟨did_of_ctl_eq hp rfl _ hp, rfl⟩⟩
        · rename_i s' henter
          rw [hregs] at henter
          obtain ⟨stack', cap, rfl⟩ := enterProto_eq henter
          dsimp only
          have hctl : ∀ frames, UStrand.ctl { s with
              stack := stack', framesCap := cap, nboundary := s.nboundary + 1, frames := frames } =
              s.ctl := fun _ => rfl
          exact ⟨_, moved_quiet (enterRun_did hp (hctl _) none _ flags)⟩

theorem step_moved (hg : Good J c) (hk : CallsOk c.acts) (hd : c.step m = some d) :
    (∃ n, Moved c m n d) ∨
      ∃ native, outside c.strand c.flags native m = some (d.strand, d.flags) ∧ d.acts = c.acts := by
  cases stepTo_of_step hd with
  | @dispatch s flags budget _ =>
    have hctl : { s with fastYields := 0 }.ctl = s.ctl := rfl
    exact .inl ⟨_, moved_quiet (enterRun_did Pos.plain_idle hctl _ _ _)⟩
  | @requeue s flags _ =>
    obtain ⟨st, hst, -⟩ := enqueue_eq s
    rw [hst]
    exact .inl ⟨_, moved_quiet ⟨did_of_ctl_eq Pos.plain_idle rfl _ Pos.plain_idle, rfl⟩⟩
  | outside hout _ => exact .inr ⟨_, hout, rfl⟩
  | walk o =>
    obtain ⟨n, hturn, hn⟩ := turn_did _ o
    obtain ⟨hdid, hflags⟩ := walkStep_did hturn hg.resumes hk.tail
    refine .inl ⟨n, hdid, hflags, ?_, ?_, ?_⟩
    · rintro rfl; exact hn.elim
    · rintro t rfl; exact hn.elim
    · rintro rfl; exact ⟨rfl, hn⟩
  | die o _ =>
    refine .inl ⟨_, moved_quiet (leaveRun_did (fun q hq => ?_) hg.resumes hk.tail)⟩
    exact did_of_ctl_eq Pos.plain_fetch rfl _ hq
  | @exec s b e rest flags f i a after o hfetch ha hnone hperform =>
    have hcross : ∀ k, a = .out k → crossing k = false := by
      rintro k rfl
      cases hop : uinstrOpcode i with
      | none => cases hnone hop
      | some op => exact (armFor_arm (p := f.proto.val) rfl (ha op hop)).2.2.1
    obtain ⟨n, hdid, hlose, hopens, hpops⟩ := perform_did hperform hcross
    rw [setPc_ctl] at hdid
    obtain ⟨hdid, hflags⟩ := settle_did hdid hg.resumes hk.tail
    refine .inl ⟨n, hdid, hflags, fun hn => ?_, fun t ht => ?_, fun hn => absurd hn hpops⟩
    · simp only [discards, nextArm_eq hfetch ha hnone]
      exact hlose hn
    · obtain ⟨handler, hpush⟩ := hopens t ht
      exact opens_of_exec hfetch ha hnone hpush
  | returns v o =>
    exact .inl ⟨_, moved_quiet ⟨did_of_ctl_eq (Pos.plain_code rfl) rfl _ (hk.plain rfl), rfl⟩⟩
  | @leftJump s b e w rest flags v o =>
    have hturn : TurnDid flags (.code .leaveJump) s.ctl .quiet (s.afterLeaveJump flags) :=
      Did.leftJump
    exact .inl ⟨_, moved_quiet (walkStep_did hturn (hg.resumes_out nofun) hk.tail.tail)⟩
  | @left s top b e w rest flags v o =>
    have hturn : TurnDid flags (.code (.leave top)) s.ctl .quiet (s.afterLeave flags top) :=
      afterLeave_did s top
    exact .inl ⟨_, moved_quiet (walkStep_did hturn (hg.resumes_out nofun) hk.tail.tail)⟩
  | @finish s k b e w rest flags v o hne hl =>
    obtain ⟨hdid, hflags⟩ := settle_did (finishArm_did s o v hl) (hg.resumes_out hne) hk.tail.tail
    refine .inl ⟨_, hdid, hflags, fun hn => ?_, fun t ht => ?_, fun hn => ?_⟩
    · split at hn
      · assumption
      · cases hn
    · split at ht <;> cases ht
    · split at hn <;> cases hn
  | @fail s s' k failed rest flags m d hfails hout =>
    have hp : (Pos.code k).Plain := by
      refine Pos.plain_code ?_
      cases hfails with
      | raise v hm | fail _ hm => exact crossing_of_mayRaise hm
      | miss o hm => exact crossing_of_missMsg hm
    cases hfails with
    | raise v hm =>
      have hthrow : ∀ q : Pos L, q.Plain →
          Did flags (.code k) s.ctl .discards q (s.throwValue v).ctl :=
        fun q hq => Did.raise (.inl rfl) nofun nofun hp hq
      obtain ⟨hdid, hflags⟩ := failOut_did hk hthrow hout
      exact .inl ⟨.discards, hdid, hflags, fun _ => rfl, nofun, nofun⟩
    | @miss o msg hm =>
      obtain ⟨hdid, hflags⟩ :=
        failOut_did hk (fun q hq => throwError_did hp hq (.inl rfl) rfl o _ _ _) hout
      exact .inl ⟨.discards, hdid, hflags, fun _ => rfl, nofun, nofun⟩
    | fail _ hm =>
      exact .inl ⟨_, moved_quiet (failOut_did hk (fun q hq => did_of_ctl_eq hp rfl _ hq) hout)⟩
  | invoke cl recv args o hmay => exact .inl (invoke_moved hmay cl recv args o)
  | park want slot hn _ =>
    have hp := Pos.plain_code (crossing_of_isNative hn)
    exact .inl ⟨_, moved_quiet ⟨did_of_ctl_eq hp rfl _ hp, rfl⟩⟩

/-! ## What a step does to the stack -/

inductive Restacked (P : UStrandState → Prop) (acts : List (Act L)) : List (Act L) → Prop
  | refl : Restacked P acts acts
  | pop {a rest} : Restacked P acts (a :: rest) → Restacked P acts rest
  | push {a rest} : Restacked P acts rest → isCallee a = false → Restacked P acts (a :: rest)
  | setFailed {k f f' rest} : Restacked P acts (.out k f :: rest) →
      Restacked P acts (.out k f' :: rest)
  | callee {a k rest} : Restacked P acts (.out k false :: rest) → mayInvoke k = true →
      (∀ st, a = .call st → P st) → Restacked P acts (a :: .out k false :: rest)

variable {P : UStrandState → Prop}

theorem leaveRun_restacked (s : UStrand L) (flags : Nat → UInt8) (h : Restacked P acts rest) :
    Restacked P acts (leaveRun s rest flags).acts := by
  unfold leaveRun
  split
  · split
    · exact h.pop.setFailed
    · exact h.pop
  · exact h

def CalledBack : After L → Prop
  | .push _ k => k = .callback
  | _ => False

theorem perform_not_calledBack {o : Oracle L} {f : UFrame L} {a : Arm L} {after : After L}
    (ha : perform s o f a = some after) (hk : ∀ k, a = .out k → k ≠ .callback) :
    ¬ CalledBack after := by
  intro hback
  cases after with
  | push s' k =>
    cases hback
    cases a with
    | out k => cases ha; exact hk _ rfl rfl
    | _ =>
      simp only [perform, afterRet, afterCall, afterPop, afterResume] at ha
      repeat' split at ha
      all_goals cases ha
  | _ => cases hback

theorem settle_restacked {after : After L} (ha : ¬ CalledBack after)
    (h : Restacked P acts rest) : Restacked P acts (settle b e rest flags after).acts := by
  cases after with
  | go s =>
    unfold settle
    dsimp only
    split
    · exact leaveRun_restacked _ flags h
    · exact h.push rfl
  | walk s => exact h.push rfl
  | leave s => exact leaveRun_restacked s flags h
  | push s k =>
    refine (h.push rfl).push ?_
    cases k <;> first | rfl | exact absurd rfl ha

theorem walkStep_restacked (t : UStrand.Turn L) (h : Restacked P acts rest) :
    Restacked P acts (walkStep b e rest flags t).acts := by
  cases t with
  | landed s | again s => exact h.push rfl
  | left s => exact leaveRun_restacked s flags h
  | leavingJump s _ | leaving s top => exact (h.push rfl).push rfl

theorem enterRun_restacked (s : UStrand L) (b : Option Nat) (flags : Nat → UInt8)
    (h : Restacked P acts rest) : Restacked P acts (enterRun s b rest flags).acts := by
  unfold enterRun
  split
  · exact h.push rfl
  · split
    · exact h.push rfl
    · exact h.push rfl

theorem invoke_restacked (hmay : mayInvoke k = true) (hst : P s.state)
    (h : Restacked P acts (.out k false :: rest)) (cl : UClosure L) (recv : UValue L)
    (args : List (UValue L)) (o : Oracle L) :
    Restacked P acts (invoke s flags k rest cl recv args o).acts := by
  unfold invoke
  split
  · split
    · exact h.setFailed
    · exact h.callee hmay nofun
  · dsimp only
    split
    · exact h.setFailed
    · split
      · exact h.setFailed
      · split
        · exact h.setFailed
        · exact h
        · refine enterRun_restacked _ _ _ (h.callee hmay ?_)
          rintro _ ⟨⟩
          exact hst

theorem step_restacked (hd : c.step m = some d)
    (hst : ∀ cl recv args o, m = .invoke cl recv args o → P c.strand.state) :
    Restacked P c.acts d.acts := by
  cases stepTo_of_step hd with
  | dispatch budget _ => exact enterRun_restacked _ _ _ .refl
  | requeue _ | outside hout _ | park want slot hn _ => exact .refl
  | walk o => exact walkStep_restacked _ (.pop .refl)
  | die o _ => exact leaveRun_restacked _ _ (.pop .refl)
  | @exec s b e rest flags f i a after o hfetch ha hnone hperform =>
    refine settle_restacked (perform_not_calledBack hperform ?_) (.pop .refl)
    rintro k rfl
    cases hop : uinstrOpcode i with
    | none => cases hnone hop
    | some op => exact (armFor_arm (p := f.proto.val) rfl (ha op hop)).2.1
  | returns v o => exact .pop .refl
  | leftJump v o | left v o => exact walkStep_restacked _ (.pop (.pop .refl))
  | @finish s k b e w rest flags v o _ _ =>
    refine settle_restacked ?_ (.pop (.pop .refl))
    intro hback
    cases k <;> simp only [finishArm] at hback <;> repeat' split at hback
    all_goals cases hback
  | @fail s s' k failed rest flags m d hfails hout =>
    unfold failOut at hout
    split at hout
    · cases hout; exact .setFailed (.pop .refl)
    · cases hout; exact .pop .refl
    · cases hout; exact .push (.pop (.pop .refl)) rfl
    · cases hout
  | invoke cl recv args o hmay => exact invoke_restacked hmay (hst cl recv args o rfl) .refl cl recv args o

theorem Restacked.callsOk {acts' : List (Act L)} (h : Restacked P acts acts')
    (hk : CallsOk acts) : CallsOk acts' := by
  induction h with
  | refl => exact hk
  | pop _ ih => exact ih.tail
  | push _ ha ih => exact ih.push ha
  | setFailed _ ih => exact ih.setFailed
  | callee _ hmay _ ih => exact ⟨fun _ => hmay, ih⟩

theorem step_callsOk (hk : CallsOk c.acts) (hd : c.step m = some d) : CallsOk d.acts :=
  (step_restacked (P := fun _ => True) hd fun _ _ _ _ _ => trivial).callsOk hk

theorem run_callsOk {ms : List (Move L)} (hc : Initial c) (hr : Run c ms d) : CallsOk d.acts := by
  induction hr with
  | nil => rcases hc.atRest.1 with h | h <;> rw [h] <;> trivial
  | snoc m _ hstep ih => exact step_callsOk ih hstep

/-! ## Whose move it is -/

def fromOutside : Move L → Bool
  | .stop _ _ | .teardown _ _ | .gateOn _ _ _ | .gateOff _ _ _ | .wake _ => true
  | _ => false

theorem outside_eq_none {native : Bool} (hm : fromOutside m = false) :
    outside s flags native m = none := by
  cases m <;> first | rfl | cases hm

theorem outside_of_step (hm : fromOutside m = true) (hd : c.step m = some d) :
    ∃ native, outside c.strand c.flags native m = some (d.strand, d.flags) ∧ d.acts = c.acts := by
  cases stepTo_of_step hd with
  | outside hout _ => exact ⟨_, hout, rfl⟩
  | fail hfails _ => cases hfails <;> cases hm
  | _ => cases hm

theorem moved_of_step (hg : Good J c) (hk : CallsOk c.acts) (hm : fromOutside m = false)
    (hd : c.step m = some d) : ∃ n, Moved c m n d := by
  rcases step_moved hg hk hd with hmoved | ⟨native, hout, -⟩
  · exact hmoved
  · cases (outside_eq_none hm).symm.trans hout

theorem finish_of_crossing (hk : crossing k = true) (hp : posOf c.acts = .code k)
    (hm : fromOutside m = false) (hd : c.step m = some d) :
    ∃ v o rest, m = .finish v o ∧ c.acts = .out k false :: rest := by
  have hmay : ∀ k', Pos.code k' = Pos.code k → mayInvoke k' = true → False := by
    intro k' heq hmay
    cases heq
    cases (crossing_of_mayInvoke hmay).symm.trans hk
  cases stepTo_of_step hd with
  | dispatch | requeue | walk | die | exec => cases hp
  | outside hout _ => cases (outside_eq_none hm).symm.trans hout
  | returns v o =>
    cases hp
    cases hk
  | leftJump v o | left v o | finish v o => cases hp; exact ⟨v, o, _, rfl, rfl⟩
  | fail hfails _ =>
    cases hp
    cases hfails with
    | raise v h | fail _ h => cases (crossing_of_mayRaise h).symm.trans hk
    | miss o h => cases (crossing_of_missMsg h).symm.trans hk
  | invoke cl recv args o h => exact (hmay _ hp h).elim
  | park want slot h _ =>
    cases hp
    cases (crossing_of_isNative h).symm.trans hk

end Steps

end Config

end Urbi
