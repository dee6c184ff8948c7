import Urbi.Rt.Dispatch

/-!
# The machine

One strand with the C activations working on it, innermost first: `run` is a call of
`uexec_run_inner`, `out` the C code an arm has called, which may call back into script or let other
strands act on this one, and `call` is `uexec_call` waiting for the run above it.
-/

namespace Urbi

variable {L : CodeBase}

inductive Act (L : CodeBase) where
  | run (budget ext : Option Nat) (walking : Bool)
  -- `failed`: a call made by this C code has come back with an unwind pending
  | out (k : Cont L) (failed : Bool)
  | call (saved : UStrandState)

structure Config (L : CodeBase) where
  strand : UStrand L
  acts : List (Act L)
  -- the gate flags of every tag
  flags : Nat → UInt8

inductive Move (L : CodeBase) where
  | exec (o : Oracle L)
  | finish (v : UValue L) (o : Oracle L)
  | raise (v : UValue L)
  | miss (o : Oracle L)
  | fail
  | invoke (cl : UClosure L) (recv : UValue L) (args : List (UValue L)) (o : Oracle L)
  | park (wantPayload : Bool)
  | stop (t : Nat) (current : Bool)
  | teardown (root : Option Nat) (current : Bool)
  | gateOn (t : Nat) (bit : UInt8) (current : Bool)
  | gateOff (t : Nat) (bit : UInt8) (waiting : Bool)
  | wake (payload : UValue L)
  | requeue
  | dispatch (budget : Nat)

namespace Config

/-! ## Entering and leaving a run -/

/-- A pending unwind is walked, a pending payload is delivered. -/
def enterRun (s : UStrand L) (budget : Option Nat) (acts : List (Act L)) (flags : Nat → UInt8) : Config L :=
  if s.unwind ≠ .none then
    ⟨{ s with state := .running, resumeSlot := 0 }, .run budget none true :: acts, flags⟩
  else if s.resumeSlot ≠ 0 then
    ⟨{ s.setReg (s.resumeSlot - 1) s.transfer with
        state := .running, resumeSlot := 0, transfer := .nil }, .run budget none false :: acts, flags⟩
  else ⟨{ s with state := .running }, .run budget none false :: acts, flags⟩

def leaveRun (s : UStrand L) (acts : List (Act L)) (flags : Nat → UInt8) : Config L :=
  match acts with
  | .call saved :: .out k failed :: rest =>
    if s.unwind ≠ .none ∨ s.state = .dead then ⟨s, .out k true :: rest, flags⟩
    else ⟨{ s with state := saved }, .out k failed :: rest, flags⟩
  | rest => ⟨s, rest, flags⟩

/-! ## Carrying out an arm -/

def tryEntry (s : UStrand L) (flags handler : Nat) : UCleanup L :=
  ⟨.try, flags, .none, s.frames.length - 1, handler, 0, none, .nil⟩

def tagEntry (s : UStrand L) (t handler : Nat) : UCleanup L :=
  ⟨.tagScope, 0, .none, s.frames.length - 1, 0, handler, some t, s.tag.elim .nil .tag⟩

inductive After (L : CodeBase) where
  -- `NEXT`
  | go (s : UStrand L)
  -- `goto unwind`
  | walk (s : UStrand L)
  -- `return s->state`
  | leave (s : UStrand L)
  | push (s : UStrand L) (k : Cont L)

def afterPop (s : UStrand L) (o : Oracle L) (f : UFrame L) (a : Nat) : After L :=
  let fi := s.frames.length - 1
  match s.cleanup with
  | [] =>
    .walk (s.fatal o (if a % 4 = uscopePopTag
      then "chunk integrity: tag scope close matches no tag scope of this frame"
      else "chunk integrity: try scope close matches no try scope of this frame"))
  | top :: rest =>
    if a % 4 = uscopePopTag then
      if top.kind ≠ .tagScope ∨ top.frame ≠ fi then
        .walk (s.fatal o "chunk integrity: tag scope close matches no tag scope of this frame")
      else .push { s with cleanup := rest, tag := top.savedTag } .tagPop
    else if top.kind ≠ .try ∨ top.running ∨ top.frame ≠ fi ∨
        (a.testBit 2 ∧ top.hasFinally = false) then
      .walk (s.fatal o "chunk integrity: try scope close matches no try scope of this frame")
    else
      let s := { s with cleanup := rest }
      if a.testBit 2 = false then .go s
      else
        -- the body runs under a marker that suspends no unwind
        match s.pushCleanup (o.grant 0) (top.mark .none .nil f.pc) with
        | none =>
          .walk (s.throwError o .oomError
            "try end: out of memory growing the cleanup stack" false)
        | some s => .go (s.setPc top.handlerPc)

def afterResume (s : UStrand L) (o : Oracle L) : After L :=
  match s.cleanup with
  | [] => .walk (s.fatal o "chunk integrity: unwind resume matches no finally body of this frame")
  | mark :: rest =>
    if mark.running = false ∨ mark.frame ≠ s.frames.length - 1 then
      .walk (s.fatal o "chunk integrity: unwind resume matches no finally body of this frame")
    else
      let s := { s with cleanup := rest }
      if mark.savedUnwind = .none then .go (s.setPc mark.onleavePc)
      else .walk { s with
        unwind := mark.savedUnwind
        transfer := mark.saved
        jumpDepth := if mark.savedUnwind = .jump then mark.onleavePc % 2 ^ 8 else s.jumpDepth }

def ownsEntry (s : UStrand L) : Bool :=
  match s.cleanup with
  | [] => false
  | top :: _ => s.frames.length - 1 ≤ top.frame

def afterRet (s : UStrand L) (v : UValue L) : After L :=
  -- the walker runs the finallys of the frame and completes the return
  if ownsEntry s then .walk { s with transfer := v, unwind := .return }
  else if (s.completeReturn v).2 then .leave (s.completeReturn v).1
  else .go (s.completeReturn v).1

def afterCall (s : UStrand L) (o : Oracle L) (f : UFrame L) (a b c : Nat) : After L :=
  match doCall s o f a b c with
  | .raised which msg => .walk (s.throwError o which msg false)
  | .native => .push s (.native (s.frames.length - 1) a)
  | .entered s => if s.state ≠ .running then .leave s else .go s

/-- `s` has its pc past the instruction and `f` is its top frame. -/
def perform (s : UStrand L) (o : Oracle L) (f : UFrame L) : Arm L → Option (After L)
  | .next writes skip =>
    some (.go ((s.setRegs f.base writes).setPc (f.pc + if skip then 1 else 0)))
  | .poke slot v => some (.go (slot.elim s fun i => s.setReg i v))
  | .jmp off =>
    -- a backward displacement counts from the jump itself
    let target : Int := f.pc + off - (if off < 0 then 1 else 0)
    if target < 0 then none else some (.go (s.setPc target.toNat))
  | .extarg _ => some (.go s)
  | .closed dst v words => some (.go ((s.setReg (f.base + dst) v).setPc (f.pc + words)))
  | .raise which msg positioned => some (.walk (s.throwError o which msg positioned))
  | .raiseAt words which msg =>
    some (.walk ((s.setPc (f.pc + words)).throwError o which msg false))
  | .throw v => some (.walk (s.throwValue v))
  | .ret v => some (afterRet s v)
  | .call a b c => some (afterCall s o f a b c)
  | .out k => some (.push s k)
  | .joinWait finished =>
    if finished then some (.go s)
    else match s.park with
      | some s => some (.leave s)
      -- no scheduler to hand control to: the child runs nested
      | none => some (.push s .join)
  | .pushTry flags handler =>
    match s.pushCleanup (o.grant 0) (tryEntry s flags handler) with
    | none =>
      some (.walk (s.throwError o .oomError
        "try begin: out of memory growing the cleanup stack" false))
    | some s => some (.go s)
  | .pushTag t handler =>
    match s.pushCleanup (o.grant 0) (tagEntry s t handler) with
    | none =>
      some (.walk (s.throwError o .oomError
        "tag push: out of memory growing the cleanup stack" false))
    | some s => some (.push { s with tag := some t } (.tagEnter t))
  | .scopePop a => some (afterPop s o f a)
  | .loadCatch dst => some (.go { s.setReg (f.base + dst) s.transfer with transfer := .nil })
  | .resume => some (afterResume s o)
  | .unwindTo depth target =>
    some (.walk { s with
      unwind := .jump, jumpDepth := depth, transfer := .int (Int64.ofNat target) })

/-- Set by `EXTARG`, consumed by the arms that take a site.  The code keeps a number that is zero
when nothing is pending. -/
def extOf (op : Option UOpcode) (i : UInt32) (ext : Option Nat) : Option Nat :=
  match op with
  | some .extarg => some (uinstrBx i * 2 ^ 8)
  | some .getslot | some .setslot | some .setslotUpdate | some .self
  | some .getslotChangeEvent => none
  | _ => ext

def budgetOf (op : Option UOpcode) (i : UInt32) (budget : Option Nat) : Option Nat :=
  if op = some .jmp ∧ uinstrBx i < ujmpBias then budget.map (· - 1) else budget

def settle (budget ext : Option Nat) (acts : List (Act L)) (flags : Nat → UInt8) :
    (After L) → Config L
  | .go s =>
    if budget = some 0 then leaveRun { s with state := .ready } acts flags
    else ⟨s, .run budget ext false :: acts, flags⟩
  | .walk s => ⟨s, .run budget ext true :: acts, flags⟩
  | .leave s => leaveRun s acts flags
  | .push s k => ⟨s, .out k false :: .run budget ext false :: acts, flags⟩

def fetch (s : UStrand L) : Option ((UFrame L) × UInt32) :=
  match s.frames with
  | [] => none
  | f :: _ => (f.proto.val.block.instructions[f.pc]?).map (f, ·)

def dispatchStep (s : UStrand L) (o : Oracle L) (budget ext : Option Nat) (acts : List (Act L))
    (flags : Nat → UInt8) : Option (Config L) := do
  let (f, i) ← fetch s
  let s := s.setPc (f.pc + 1)
  let f := { f with pc := f.pc + 1 }
  let a ← match uinstrOpcode i with
    | none => some (.raise .typeError "opcode not available in this build" false)
    | some op => arm o (s.window f) s.mayDeschedule (ext.getD 0) op i
  let after ← perform s o f a
  pure (settle (budgetOf (uinstrOpcode i) i budget) (extOf (uinstrOpcode i) i ext) acts flags after)

def walkStep (budget ext : Option Nat) (acts : List (Act L)) (flags : Nat → UInt8) :
    (UStrand.Turn L) → Config L
  | .landed s => ⟨s, .run budget ext false :: acts, flags⟩
  | .left s => leaveRun s acts flags
  | .again s => ⟨s, .run budget ext true :: acts, flags⟩
  | .leavingJump s _ => ⟨s, .out .leaveJump false :: .run budget ext true :: acts, flags⟩
  | .leaving s top => ⟨s, .out (.leave top) false :: .run budget ext true :: acts, flags⟩

/-! ## The C code of an arm -/

def topBase (s : UStrand L) : Nat := (s.frames.head?.map UFrame.base).getD 0

def skipIf (s : UStrand L) (c : Bool) : UStrand L :=
  match s.frames with
  | [] => s
  | f :: _ => s.setPc (f.pc + if c then 1 else 0)

def finishArm (s : UStrand L) (flags : Nat → UInt8) (o : Oracle L) (v : UValue L) : Cont L → After L
  | .binop _ dst _ _ | .neg dst _ => .go (s.setReg (topBase s + dst) v)
  | .eq want | .less _ want _ _ => .go (skipIf s (v.truthy.toNat ≠ want))
  | .getslot dst self =>
    -- the receiver first: the destination may be its register
    let s := self.elim s fun recv => s.setReg (topBase s + dst + 1) recv
    .go (s.setReg (topBase s + dst) v)
  | .native fi dst =>
    let s := s.setReg (((s.frames.reverse[fi]?).map UFrame.base).getD 0 + dst) v
    if s.state ≠ .running then .leave s else .go s
  | .waituntil =>
    if v.truthy || !s.mayDeschedule then .go s
    else if !o.grant 0 then
      .walk (s.throwError o .oomError "waituntil: out of memory installing the watcher" false)
    else .leave { s with state := .parked }
  | .yield =>
    if o.flag ∧ s.unwind = .none ∧ s.gates = 0 ∧ s.state = .running ∧ s.fastYields < 64 then
      .go { s with fastYields := s.fastYields + 1 }
    else .leave { s with state := .ready }
  | .tagEnter t =>
    if flags t = 0 then .go s
    else
      let s := { s with gates := s.gates ||| flags t }
      match s.park with
      | some s => .leave s
      | none => .go s
  | .tagPop => .go { s with gates := s.gateBits flags }
  | .setslot | .install | .join | .leaveJump | .leave _ | .callback => .go s

/-- `binop_type_error`, and the end of `negate`. -/
def missMsg : Cont L → Option String
  | .binop op _ b c =>
    some (op.glyph ++ " operands must be Integer or Float (got " ++ b.kindName ++ ", " ++
      c.kindName ++ ")")
  | .less strict _ b c =>
    some ((if strict then "'<'" else "'<='") ++ " operands must be Integer or Float (got " ++
      b.kindName ++ ", " ++ c.kindName ++ ")")
  | .neg _ v =>
    some ("unary '-' operand must be Integer or Float (got " ++ v.kindName ++ ")")
  | _ => none

def mayInvoke : Cont L → Bool
  | .binop _ _ _ _ | .neg _ _ | .eq _ | .less _ _ _ _ | .getslot _ _ | .setslot | .native _ _
  | .waituntil | .callback => true
  | _ => false

def mayRaise : Cont L → Bool
  | .install => true
  | k => mayInvoke k

def isNative : Cont L → Bool
  | .native _ _ | .callback => true
  | _ => false

def finishOut (s : UStrand L) (flags : Nat → UInt8) (o : Oracle L) (v : UValue L) (k : Cont L)
    (rest : List (Act L)) : Option (Config L) :=
  match k, rest with
  | .callback, rest => some ⟨s, rest, flags⟩
  | .leaveJump, .run budget ext _ :: rest =>
    some (walkStep budget ext rest flags (s.afterLeaveJump flags))
  | .leave top, .run budget ext _ :: rest =>
    some (walkStep budget ext rest flags (s.afterLeave flags top))
  | k, .run budget ext _ :: rest => some (settle budget ext rest flags (finishArm s flags o v k))
  | _, _ => none

/-- An arm goes to the walker, a native called by other C code hands the failure on. -/
def failOut (s : UStrand L) (flags : Nat → UInt8) (k : Cont L) (rest : List (Act L)) : Option (Config L) :=
  match k, rest with
  | .callback, .out k' _ :: rest => some ⟨s, .out k' true :: rest, flags⟩
  | .callback, rest => some ⟨s, rest, flags⟩
  | _, .run budget ext _ :: rest => some ⟨s, .run budget ext true :: rest, flags⟩
  | _, _ => none

def callBase (s : UStrand L) : Nat :=
  match s.frames with
  | [] => 0
  | f :: _ => f.base + f.proto.val.block.maxReg.toNat + 1

def invoke (s : UStrand L) (flags : Nat → UInt8) (k : Cont L) (rest : List (Act L)) (cl : UClosure L)
    (recv : UValue L) (args : List (UValue L)) (o : Oracle L) : Config L :=
  match cl.code with
  | .native lo hi =>
    if args.length < lo ∨ hi < args.length then
      ⟨s.throwError o .arityError (arityMsg cl lo hi args.length) false, .out k true :: rest, flags⟩
    else ⟨s, .out .callback false :: .out k false :: rest, flags⟩
  | .proto p =>
    let base := callBase s
    let failed := fun which msg => ⟨s.throwError o which msg false, .out k true :: rest, flags⟩
    if !arityOk p args.length then failed .arityError (arityMsgProto cl p args.length)
    else if !o.grant 3 then
      failed .oomError "call: out of memory growing the register stack"
    else
      let s' := s.setRegs base (args.zipIdx.map fun (v, i) => (i, v))
      match enterProto s' o "call" cl p recv base 0 args.length with
      | .raised which msg => ⟨s'.throwError o which msg false, .out k true :: rest, flags⟩
      | .native => ⟨s', .out k false :: rest, flags⟩
      | .entered s' =>
        let frames := match s'.frames with
          | [] => []
          | f :: fs => { f with isBoundary := true } :: fs
        enterRun { s' with frames := frames, nboundary := s'.nboundary + 1 } none
          (.call s.state :: .out k false :: rest) flags

/-- The destination of the call being executed. -/
def wantPayload (s : UStrand L) : UStrand L :=
  match s.frames with
  | [] => s
  | f :: _ =>
    match f.pc, f.proto.val.block.instructions[f.pc - 1]? with
    | _ + 1, some i =>
      if uinstrOpcode i = some .call then
        { s with resumeSlot := f.base + uinstrA i + 1 } else s
    | _, _ => s

/-- A move of the C code of `k`. -/
def outStep (s : UStrand L) (flags : Nat → UInt8) (k : Cont L) (failed : Bool) (rest : List (Act L)) :
    (Move L) → Option (Config L)
  | .finish v o => if failed then none else finishOut s flags o v k rest
  | .raise v => if failed || !mayRaise k then none else failOut (s.throwValue v) flags k rest
  | .miss o =>
    if failed then none
    else match missMsg k with
      | none => none
      | some msg => failOut (s.throwError o .typeError msg true) flags k rest
  | .fail =>
    -- only with something to unwind: a failed call, or a stop of this very strand
    if s.unwind = .none || !mayRaise k then none else failOut s flags k rest
  | .invoke cl recv args o =>
    if failed || !mayInvoke k then none else some (invoke s flags k rest cl recv args o)
  | .park want =>
    if failed || !isNative k then none
    else ((if want then wantPayload s else s).park).map fun s => ⟨s, .out k failed :: rest, flags⟩
  | _ => none

/-! ## The step -/

def outside (s : UStrand L) (flags : Nat → UInt8) (native : Bool) : Move L →
    Option ((UStrand L) × (Nat → UInt8))
  | .stop t current => if current && !native then none else some (s.stop t current, flags)
  | .teardown root current =>
    if current && !native then none else some (s.teardown root current, flags)
  | .gateOn t bit current =>
    if current && !native then none
    else some (s.gateOn t bit current, Function.update flags t (flags t ||| bit))
  | .gateOff t bit waiting =>
    let flags := Function.update flags t (flags t &&& ~~~bit)
    some (s.gateOff t flags waiting, flags)
  | .wake payload => some (s.wake payload, flags)
  | _ => none

def step (c : Config L) (m : Move L) : Option (Config L) :=
  match c.acts with
  | .run budget ext walking :: rest =>
    match m with
    | .exec o =>
      if walking then some (walkStep budget ext rest c.flags (c.strand.turn o))
      else if c.strand.frames = [] then
        some (leaveRun { c.strand with state := .dead } rest c.flags)
      else dispatchStep c.strand o budget ext rest c.flags
    | _ => none
  | .out k failed :: rest =>
    match outside c.strand c.flags (isNative k) m with
    | some (s, flags) => some ⟨s, c.acts, flags⟩
    | none => outStep c.strand c.flags k failed rest m
  | .call _ :: _ => none
  | [] =>
    match m with
    | .dispatch budget =>
      if c.strand.state = .ready then
        -- a budget of zero is no budget
        some (enterRun { c.strand with fastYields := 0 }
          (if budget = 0 then none else some budget) [] c.flags)
      else none
    | .requeue =>
      if c.strand.state = .ready then some ⟨c.strand.enqueue, [], c.flags⟩ else none
    | m => (outside c.strand c.flags false m).map fun (s, flags) => ⟨s, [], flags⟩

/-! ## Spawning -/

def newStrand : UStrand L where
  stack _ := .nil
  frames := []
  framesCap := 0
  nboundary := 0
  cleanup := []
  cleanupCap := 0
  unwind := .none
  jumpDepth := 0
  transfer := .nil
  state := .parked
  gates := 0
  tag := none
  isSpare := false
  fastYields := 0
  resumeSlot := 0
  result := .nil

def grantAll : Oracle L := ⟨fun _ => true, .nil, none, 0, true⟩

/-- Request 2 is the strand, request 3 its register stack. -/
def uschedSpawn (o : Oracle L) (flags : Nat → UInt8) (cl : UClosure L) (tag : Option Nat)
    (recv : UValue L) (args : List (UValue L)) : Option (Config L) :=
  match cl.code with
  | .native _ _ => none
  | .proto p =>
    if !arityOk p args.length || !o.grant 2 || !o.grant 3 then none
    else
      let s : UStrand L := { newStrand with tag := tag }
      let s := s.setRegs 0 (args.zipIdx.map fun (v, i) => (i, v))
      match s.pushFrameArgs o.grant cl p recv 0 0 args.length with
      | .error _ => none
      | .ok s =>
        -- a newcomer takes the gates of its tag
        let s := { s.storeNargs p 0 args.length with gates := (tag.map flags).getD 0 }
        some ⟨s.enqueue, [], flags⟩

inductive Run (c : Config L) : List (Move L) → Config L → Prop
  | nil : Run c [] c
  | snoc {ms : List (Move L)} {d e : Config L} (m : Move L) :
      Run c ms d → d.step m = some e → Run c (ms ++ [m]) e

inductive RunIf (P : Config L → Move L → Bool) (c : Config L) : List (Move L) → Config L → Prop
  | nil : RunIf P c [] c
  | snoc {ms : List (Move L)} {d e : Config L} (m : Move L) :
      RunIf P c ms d → P d m = true → d.step m = some e → RunIf P c (ms ++ [m]) e

theorem RunIf.run {P : Config L → Move L → Bool} {c d : Config L} {ms : List (Move L)}
    (h : RunIf P c ms d) : Run c ms d := by
  induction h with
  | nil => exact .nil
  | snoc m _ _ hstep ih => exact .snoc m ih hstep

theorem RunIf.cons {P : Config L → Move L → Bool} {c d e : Config L} {m : Move L}
    {ms : List (Move L)} (hp : P c m = true) (h : c.step m = some d) (hr : RunIf P d ms e) :
    RunIf P c (m :: ms) e := by
  induction hr with
  | nil => exact .snoc m .nil hp h
  | snoc m' _ hp' hstep ih => exact .snoc m' ih hp' hstep

def stepsIf (P : Config L → Move L → Bool) (c : Config L) : List (Move L) → Option (Config L)
  | [] => some c
  | m :: ms => if P c m then (c.step m).bind (stepsIf P · ms) else none

theorem runIf_of_stepsIf {P : Config L → Move L → Bool} {c d : Config L} {ms : List (Move L)}
    (h : c.stepsIf P ms = some d) : RunIf P c ms d := by
  induction ms generalizing c with
  | nil => cases h; exact .nil
  | cons m ms ih =>
    unfold stepsIf at h
    split at h
    · obtain ⟨c', hstep, hrest⟩ := Option.bind_eq_some_iff.mp h
      exact .cons ‹_› hstep (ih hrest)
    · cases h

def steps (c : Config L) (ms : List (Move L)) : Option (Config L) := c.stepsIf (fun _ _ => true) ms

theorem run_of_steps {c d : Config L} {ms : List (Move L)} (h : c.steps ms = some d) :
    Run c ms d := (runIf_of_stepsIf h).run

end Config

def codeOf (p : UProto) : CodeBase where
  has q := UProto.Within q p
  nested h hq := (UProto.within_of_mem_nested hq).trans h

def strandOf (p : UProto) (args : List (UValue (codeOf p))) : Option (Config (codeOf p)) :=
  Config.uschedSpawn Config.grantAll (fun _ => 0) ⟨0, .proto ⟨p, .refl p⟩, 0, none⟩ none .nil args

end Urbi
