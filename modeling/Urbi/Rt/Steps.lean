import Urbi.Rt.Arms

/-!
# What a step can do

One constructor for each thing a move can come to.  Invariants of whole runs are proved by cases on
`StepTo` and never look into `step` again.
-/

namespace Urbi

namespace Config

variable {L : CodeBase}

inductive Fails (s : UStrand L) (k : Cont L) : Move L → UStrand L → Prop
  | raise (v : UValue L) : mayRaise k = true → Fails s k (.raise v) (s.throwValue v)
  | miss (o : Oracle L) {msg : String} :
      missMsg k = some msg → Fails s k (.miss o) (s.throwError o .typeError msg true)
  | fail : s.unwind ≠ .none → mayRaise k = true → Fails s k .fail s

inductive StepTo : Config L → Move L → Config L → Prop
  | dispatch {s flags} (budget : Nat) : s.state = .ready →
      StepTo ⟨s, [], flags⟩ (.dispatch budget)
        (enterRun { s with fastYields := 0 } (if budget = 0 then none else some budget) [] flags)
  | requeue {s flags} : s.state = .ready → StepTo ⟨s, [], flags⟩ .requeue ⟨s.enqueue, [], flags⟩
  | outside {s acts flags native m s' flags'} : outside s flags native m = some (s', flags') →
      (∀ b e w rest, acts ≠ .run b e w :: rest) → StepTo ⟨s, acts, flags⟩ m ⟨s', acts, flags'⟩
  | walk {s b e rest flags} (o : Oracle L) :
      StepTo ⟨s, .run b e true :: rest, flags⟩ (.exec o) (walkStep b e rest flags (s.turn o))
  | die {s b e rest flags} (o : Oracle L) : s.frames = [] →
      StepTo ⟨s, .run b e false :: rest, flags⟩ (.exec o)
        (leaveRun { s with state := .dead } rest flags)
  | exec {s b e rest flags f i a after} (o : Oracle L) : fetch s = some (f, i) →
      (∀ op, uinstrOpcode i = some op →
        arm o ((s.setPc (f.pc + 1)).window { f with pc := f.pc + 1 })
          (s.setPc (f.pc + 1)).mayDeschedule (e.getD 0) op i = some a) →
      (uinstrOpcode i = none → a = .raise .typeError "opcode not available in this build" false) →
      perform (s.setPc (f.pc + 1)) o { f with pc := f.pc + 1 } a = some after →
      StepTo ⟨s, .run b e false :: rest, flags⟩ (.exec o)
        (settle (budgetOf (uinstrOpcode i) i b) (extOf (uinstrOpcode i) i e) rest flags after)
  | returns {s rest flags} (v : UValue L) (o : Oracle L) :
      StepTo ⟨s, .out .callback false :: rest, flags⟩ (.finish v o) ⟨s, rest, flags⟩
  | leftJump {s b e w rest flags} (v : UValue L) (o : Oracle L) :
      StepTo ⟨s, .out .leaveJump false :: .run b e w :: rest, flags⟩ (.finish v o)
        (walkStep b e rest flags (s.afterLeaveJump flags))
  | left {s top b e w rest flags} (v : UValue L) (o : Oracle L) :
      StepTo ⟨s, .out (.leave top) false :: .run b e w :: rest, flags⟩ (.finish v o)
        (walkStep b e rest flags (s.afterLeave flags top))
  | finish {s k b e w rest flags} (v : UValue L) (o : Oracle L) : k ≠ .callback →
      leaving k = false →
      StepTo ⟨s, .out k false :: .run b e w :: rest, flags⟩ (.finish v o)
        (settle b e rest flags (finishArm s flags o v k))
  | fail {s s' k failed rest flags m d} : Fails s k m s' → failOut s' flags k rest = some d →
      StepTo ⟨s, .out k failed :: rest, flags⟩ m d
  | invoke {s k rest flags} (cl : UClosure L) (recv : UValue L) (args : List (UValue L))
      (o : Oracle L) : mayInvoke k = true →
      StepTo ⟨s, .out k false :: rest, flags⟩ (.invoke cl recv args o)
        (invoke s flags k rest cl recv args o)
  | park {s k rest flags} (want : Bool) (slot : Nat) : isNative k = true → s.mayDeschedule = true →
      StepTo ⟨s, .out k false :: rest, flags⟩ (.park want)
        ⟨{ s with resumeSlot := slot, state := .parked }, .out k false :: rest, flags⟩

section

variable {s : UStrand L} {flags : Nat → UInt8} {k : Cont L} {failed : Bool} {rest : List (Act L)}
  {b e : Option Nat} {d : Config L}

theorem stepTo_dispatch {o : Oracle L} (hd : dispatchStep s o b e rest flags = some d) :
    StepTo ⟨s, .run b e false :: rest, flags⟩ (.exec o) d := by
  unfold dispatchStep at hd
  obtain ⟨⟨f, i⟩, hfetch, hd⟩ := Option.bind_eq_some_iff.mp hd
  dsimp only at hd
  split at hd
  · rename_i hop
    obtain ⟨a, ha, hd⟩ := Option.bind_eq_some_iff.mp hd
    obtain ⟨after, hperform, hd⟩ := Option.bind_eq_some_iff.mp hd
    cases hd
    refine .exec o hfetch (fun op h => ?_) (fun _ => (Option.some.inj ha).symm) hperform
    rw [hop] at h
    cases h
  · rename_i op hop
    obtain ⟨a, ha, hd⟩ := Option.bind_eq_some_iff.mp hd
    obtain ⟨after, hperform, hd⟩ := Option.bind_eq_some_iff.mp hd
    cases hd
    refine .exec o hfetch (fun op' h => ?_) (fun h => ?_) hperform
    · rw [hop] at h
      cases h
      exact ha
    · rw [hop] at h
      cases h

theorem finishOut_arm (hk : k ≠ .callback) (hl : leaving k = false) (b e : Option Nat)
    (w : Bool) (o : Oracle L) (v : UValue L) : finishOut s flags o v k (.run b e w :: rest) =
      some (settle b e rest flags (finishArm s flags o v k)) := by
  cases k <;> first | rfl | exact absurd rfl hk | cases hl

theorem stepTo_finish {v : UValue L} {o : Oracle L} (hd : finishOut s flags o v k rest = some d) :
    StepTo ⟨s, .out k false :: rest, flags⟩ (.finish v o) d := by
  by_cases hk : k = .callback
  · subst hk
    cases hd
    exact .returns v o
  · cases rest with
    | nil => cases k <;> first | exact absurd rfl hk | cases hd
    | cons a rest =>
      cases a with
      | run b e w =>
        cases hl : leaving k with
        | false =>
          rw [finishOut_arm hk hl] at hd
          cases hd
          exact .finish v o hk hl
        | true =>
          cases k <;> try cases hl
          · cases hd; exact .leftJump v o
          · cases hd; exact .left v o
      | out _ _ | call _ => cases k <;> first | exact absurd rfl hk | cases hd

theorem wantPayload_eq (s : UStrand L) : ∃ slot, wantPayload s = { s with resumeSlot := slot } := by
  unfold wantPayload
  split
  · exact ⟨s.resumeSlot, rfl⟩
  · split
    · split
      · exact ⟨_, rfl⟩
      · exact ⟨s.resumeSlot, rfl⟩
    · exact ⟨s.resumeSlot, rfl⟩

theorem stepTo_out {m : Move L} (hd : outStep s flags k failed rest m = some d) :
    StepTo ⟨s, .out k failed :: rest, flags⟩ m d := by
  cases m <;> simp only [outStep, reduceCtorEq, Option.ite_none_left_eq_some, Bool.not_eq_true,
    Bool.or_eq_false_iff, Bool.not_eq_false', decide_eq_false_iff_not, Option.some.injEq,
    Option.map_eq_some_iff] at hd
  case finish v o =>
    obtain ⟨rfl, hd⟩ := hd
    exact stepTo_finish hd
  case raise v => exact .fail (.raise v hd.1.2) hd.2
  case miss o =>
    obtain ⟨-, hd⟩ := hd
    split at hd
    · cases hd
    · rename_i msg hmsg
      exact .fail (.miss o hmsg) hd
  case fail => exact .fail (.fail hd.1.1 hd.1.2) hd.2
  case invoke cl recv args o =>
    obtain ⟨⟨rfl, hmay⟩, rfl⟩ := hd
    exact .invoke cl recv args o hmay
  case park want =>
    obtain ⟨⟨rfl, hk⟩, s', hpark, rfl⟩ := hd
    -- asking for the payload only notes where it goes
    have hslot : ∃ slot, (if want then wantPayload s else s) = { s with resumeSlot := slot } := by
      split
      · exact wantPayload_eq s
      · exact ⟨s.resumeSlot, rfl⟩
    obtain ⟨slot, hslot⟩ := hslot
    rw [hslot] at hpark
    obtain ⟨hmay, rfl⟩ := UStrand.park_eq hpark
    exact .park want slot hk hmay

end

theorem stepTo_of_step {c d : Config L} {m : Move L} (hd : c.step m = some d) : StepTo c m d := by
  obtain ⟨s, acts, flags⟩ := c
  cases acts with
  | nil =>
    cases m with
    | dispatch budget =>
      simp only [step, Option.ite_none_right_eq_some, Option.some.injEq] at hd
      obtain ⟨hst, rfl⟩ := hd
      exact .dispatch budget hst
    | requeue =>
      simp only [step, Option.ite_none_right_eq_some, Option.some.injEq] at hd
      obtain ⟨hst, rfl⟩ := hd
      exact .requeue hst
    | _ =>
      simp only [step, Option.map_eq_some_iff] at hd
      obtain ⟨⟨s', flags'⟩, hout, rfl⟩ := hd
      exact .outside hout (by rintro _ _ _ _ ⟨⟩)
  | cons a rest =>
    cases a with
    | run b e walking =>
      cases m with
      | exec o =>
        cases walking with
        | true => cases hd; exact .walk o
        | false =>
          simp only [step, Bool.false_eq_true, if_false] at hd
          split at hd
          · cases hd; exact .die o ‹_›
          · exact stepTo_dispatch hd
      | _ => cases hd
    | out k failed =>
      simp only [step] at hd
      split at hd
      · cases hd; exact .outside ‹_› (by rintro _ _ _ _ ⟨⟩)
      · exact stepTo_out hd
    | call saved => cases hd

end Config

end Urbi
