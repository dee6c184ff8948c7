import Urbi.Rt.Value

/-!
# The strand

Frames, the cleanup stack and the fields the scheduler shares with dispatch (`rt/ustrand.h`).  Both
stacks are lists with the top first.  The register stack is a function: capacity matters only through
refused growth, which is an answer of the allocator.
-/

namespace Urbi

variable {L : CodeBase}

structure UFrame (L : CodeBase) where
  closure : UClosure L
  proto : Fn L
  pc : Nat
  base : Nat
  retReg : Nat
  isBoundary : Bool
  recv : UValue L

inductive UCleanKind where
  | try | tagScope
  deriving DecidableEq, Repr

inductive UUnwindKind where
  | none | return | throw | stop | jump | fatal
  deriving DecidableEq, Repr

inductive UStrandState where
  | ready | running | parked | dead
  deriving DecidableEq, Repr

/-- `flags` is the raw operand of `SCOPE_TRY`, plus the walker's own bit on a marker. -/
structure UCleanup (L : CodeBase) where
  kind : UCleanKind
  flags : Nat
  savedUnwind : UUnwindKind
  frame : Nat
  handlerPc : Nat
  onleavePc : Nat
  tag : Option Nat
  saved : UValue L

namespace UCleanup

def hasCatch (c : UCleanup L) : Bool := c.flags.testBit 0
def hasFinally (c : UCleanup L) : Bool := c.flags.testBit 1

/-- The entry stands for a finally body in progress (`UCLEAN_F_RUNNING`). -/
def running (c : UCleanup L) : Bool := c.flags.testBit 5

def mark (c : UCleanup L) (unwind : UUnwindKind) (saved : UValue L) (onleavePc : Nat) : UCleanup L :=
  { c with flags := c.flags ||| 0x20, savedUnwind := unwind, saved := saved, onleavePc := onleavePc }

def savedTag (c : UCleanup L) : Option Nat :=
  match c.saved with
  | .tag t => some t
  | _ => none

end UCleanup

structure UStrand (L : CodeBase) where
  stack : Nat → UValue L
  frames : List (UFrame L)
  framesCap : Nat
  nboundary : Nat
  cleanup : List (UCleanup L)
  cleanupCap : Nat
  unwind : UUnwindKind
  jumpDepth : Nat
  transfer : UValue L
  state : UStrandState
  gates : UInt8
  tag : Option Nat
  isSpare : Bool
  fastYields : Nat
  resumeSlot : Nat
  result : UValue L

/-- What the outside answers while one instruction runs; allocation requests go by position. -/
structure Oracle (L : CodeBase) where
  grant : Nat → Bool
  value : UValue L
  slot : Option Nat
  id : Nat
  flag : Bool

namespace UStrand

def setReg (s : UStrand L) (i : Nat) (v : UValue L) : UStrand L :=
  { s with stack := Function.update s.stack i v }

def setRegs (s : UStrand L) (base : Nat) : List (Nat × (UValue L)) → UStrand L
  | [] => s
  | (r, v) :: ws => (s.setReg (base + r) v).setRegs base ws

def setPc (s : UStrand L) (pc : Nat) : UStrand L :=
  match s.frames with
  | [] => s
  | f :: fs => { s with frames := { f with pc := pc } :: fs }

/-! ## Frames -/

def maxFrames : Nat := 32768

inductive PushError where
  | oom | depth
  deriving DecidableEq, Repr

def clearRegs (s : UStrand L) (lo hi : Nat) : UStrand L :=
  { s with stack := fun i => if lo ≤ i ∧ i < hi then .nil else s.stack i }

/-- Request 0 grows the frame table, request 1 the register stack. -/
def pushFrameArgs (s : UStrand L) (grant : Nat → Bool) (cl : UClosure L) (p : Fn L) (recv : UValue L)
    (base retReg nkeep : Nat) : Except PushError (UStrand L) :=
  if s.frames.length = s.framesCap ∧ maxFrames ≤ s.framesCap then .error .depth
  else if s.frames.length = s.framesCap ∧ grant 0 = false then .error .oom
  else if grant 1 = false then .error .oom
  else
    let cap := if s.frames.length = s.framesCap then
      (if s.framesCap = 0 then 4 else 2 * s.framesCap) else s.framesCap
    let s := s.clearRegs (base + nkeep) (base + p.val.block.maxReg.toNat + 1)
    .ok { s with
      framesCap := cap
      frames := ⟨cl, p, 0, base, retReg, false, recv⟩ :: s.frames }

def storeNargs (s : UStrand L) (p : Fn L) (base nargs : Nat) : UStrand L :=
  if p.val.block.arityPrologue ∧ p.val.block.nparams.toNat > 0 ∧
      p.val.block.nparams.toNat ≤ p.val.block.maxReg.toNat then
    s.setReg (base + p.val.block.nparams.toNat) (.int (Int64.ofNat nargs))
  else s

/-- Closing the window's upvalues leaves the registers alone. -/
def popFrame (s : UStrand L) : UStrand L :=
  match s.frames with
  | [] => s
  | f :: fs =>
    { s with frames := fs, nboundary := if f.isBoundary then s.nboundary - 1 else s.nboundary }

/-! ## The cleanup stack -/

def maxCleanup : Nat := 32768

/-- `none` when the table is full and cannot grow. -/
def pushCleanup (s : UStrand L) (grant : Bool) (c : UCleanup L) : Option (UStrand L) :=
  if s.cleanup.length = s.cleanupCap then
    if maxCleanup ≤ s.cleanupCap ∨ grant = false then none
    else some { s with
      cleanupCap := if s.cleanupCap = 0 then 4 else 2 * s.cleanupCap
      cleanup := c :: s.cleanup }
  else some { s with cleanup := c :: s.cleanup }

/-! ## Scheduling -/

def mayDeschedule (s : UStrand L) : Bool := !s.isSpare && s.nboundary = 0

/-- `none` when the strand may not be descheduled. -/
def park (s : UStrand L) : Option (UStrand L) :=
  if s.mayDeschedule then some { s with state := .parked } else none

/-- Of a strand that is not queued. -/
def enqueue (s : UStrand L) : UStrand L :=
  if s.state = .dead then s
  else if s.gates ≠ 0 then { s with state := .parked }
  else { s with state := .ready }

def deliver (s : UStrand L) : UValue L → UStrand L
  | .nil => s
  | v => if s.unwind = .none then { s with transfer := v } else s

/-- Only a parked strand wakes, and a gate keeps it parked. -/
def wake (s : UStrand L) (payload : UValue L) : UStrand L :=
  if s.state ≠ .parked then s
  else
    let s := s.deliver payload
    if s.gates ≠ 0 then s else s.enqueue

/-! ## Tags -/

def coveringTags (s : UStrand L) : List Nat :=
  s.tag.toList ++ (s.cleanup.filter (·.kind = .tagScope)).filterMap UCleanup.savedTag

def covers (s : UStrand L) (t : Nat) : Bool := s.coveringTags.contains t

/-- From the flags of every tag. -/
def gateBits (s : UStrand L) (flags : Nat → UInt8) : UInt8 :=
  s.coveringTags.foldl (fun g t => g ||| flags t) 0

/-- `utag_stop` on a member: a strand other than the dispatching one is released from its gates and
woken. -/
def stop (s : UStrand L) (t : Nat) (current : Bool) : UStrand L :=
  if s.state = .dead ∨ s.covers t = false then s
  else
    let s := { s with unwind := .stop, transfer := .tag t }
    if current then s else { s with gates := 0 }.wake .nil

/-- `urealm_free` on a strand of the realm; `root` is the connection tag. -/
def teardown (s : UStrand L) (root : Option Nat) (current : Bool) : UStrand L :=
  if s.state = .dead ∨ s.unwind ≠ .none then s
  else
    let s := { s with unwind := .stop, transfer := root.elim .nil .tag }
    if current then s else { s with gates := 0 }.wake .nil

/-- `utag_gate` on a member, raising a bit: a queued strand, and the dispatching one if it may,
parks. -/
def gateOn (s : UStrand L) (t : Nat) (bit : UInt8) (current : Bool) : UStrand L :=
  if s.state = .dead ∨ s.covers t = false then s
  else
    let s := { s with gates := s.gates ||| bit }
    if s.state = .ready ∨ current then s.park.getD s else s

/-- And clearing one: a strand held by nothing else (`waiting = false`) is queued. -/
def gateOff (s : UStrand L) (t : Nat) (flags : Nat → UInt8) (waiting : Bool) : UStrand L :=
  if s.state = .dead ∨ s.covers t = false then s
  else
    let s := { s with gates := s.gateBits flags }
    if s.gates = 0 ∧ s.state = .parked ∧ waiting = false then s.enqueue else s

end UStrand

/-! ## Throwing -/

/-- From instruction `i` on, over the checkpoints not passed yet. -/
def lineLoop : Nat → Nat → List UAbsLine → List UInt8 → Nat
  | _, line, _, [] => line
  | i, line, abs, d :: ds =>
    if d = 0x80 then
      match abs.dropWhile (·.pc.toNat < i) with
      | [] => lineLoop (i + 1) line [] ds
      | l :: ls =>
        if l.pc.toNat = i then lineLoop (i + 1) l.line.toNat ls ds
        else lineLoop (i + 1) line (l :: ls) ds
    else lineLoop (i + 1) (((line : Int) + d.toInt8.toInt) % 2 ^ 32).toNat abs ds

def uprotoLineAt (b : Block) (pc : Nat) : Nat :=
  if b.instrCount ≤ pc then 0 else lineLoop 0 0 b.absLines (b.lineDeltas.take (pc + 1))

/-- The line of the instruction before the saved pc. -/
def UStrand.currentLine (s : UStrand L) : Nat :=
  match s.frames with
  | [] => 0
  | f :: _ => uprotoLineAt f.proto.val.block (f.pc - 1)

/-- Request 2 is the exception object. -/
def UStrand.throwError (s : UStrand L) (o : Oracle L) (which : UErrorProto) (msg : String)
    (positioned : Bool) : UStrand L :=
  { s with
    transfer := if o.grant 2 then .exception o.id ⟨which, msg, positioned, s.currentLine⟩ else .nil
    unwind := .throw }

def UStrand.fatal (s : UStrand L) (o : Oracle L) (msg : String) : UStrand L :=
  { s.throwError o .typeError msg false with unwind := .fatal }

def UStrand.throwValue (s : UStrand L) (v : UValue L) : UStrand L :=
  { s with transfer := v, unwind := .throw }

end Urbi
