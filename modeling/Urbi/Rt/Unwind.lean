import Urbi.Rt.Strand

/-!
# The cleanup-stack walker

`uexec_unwind` one turn at a time.  A turn that fires a tag's `leave` event stops there, and the walk
goes on from whatever the subscribers left (`afterLeaveJump`, `afterLeave`).
-/

namespace Urbi

variable {L : CodeBase}

namespace UStrand

/-- The flag says that dispatch must hand control back. -/
def completeReturn (s : UStrand L) (rv : UValue L) : (UStrand L) × Bool :=
  match s.frames with
  | [] => ({ s with result := rv, state := .dead }, true)
  | f :: fs =>
    let s := s.popFrame
    if f.isBoundary then ({ s with result := rv, state := .running }, true)
    else match fs with
      | [] => ({ s with result := rv, state := .dead }, true)
      | g :: _ => (s.setReg (g.base + f.retReg) rv, false)

inductive Turn (L : CodeBase) where
  | landed (s : UStrand L)
  | left (s : UStrand L)
  | again (s : UStrand L)
  | leavingJump (s : UStrand L) (top : UCleanup L)
  | leaving (s : UStrand L) (top : UCleanup L)

/-- Or go on without the finally body when its marker cannot be pushed. -/
def runFinally (s : UStrand L) (grant : Bool) (top : UCleanup L) (onleavePc : Nat)
    (otherwise : UStrand L) : Turn L :=
  match s.pushCleanup grant (top.mark s.unwind s.transfer onleavePc) with
  | none => .again otherwise
  | some s => .landed ({ s with unwind := .none, transfer := .nil }.setPc top.handlerPc)

def turnJump (s : UStrand L) (grant : Bool) (top : UCleanup L) : Turn L :=
  if top.kind = .tagScope then .leavingJump { s with tag := top.savedTag } top
  else if !top.running && top.hasFinally then
    s.runFinally grant top (s.jumpDepth - 1) { s with jumpDepth := s.jumpDepth - 1 }
  else .again { s with jumpDepth := s.jumpDepth - 1 }

def turnPop (s : UStrand L) (grant : Bool) (top : UCleanup L) : Turn L :=
  if top.kind = .tagScope then .leaving { s with tag := top.savedTag } top
  else if top.running then .again s
  else if top.hasFinally then s.runFinally grant top top.onleavePc s
  else if s.unwind = .throw ∧ top.hasCatch then
    .landed ({ s with unwind := .none }.setPc top.handlerPc)
  else .again s

def turnFatal (s : UStrand L) (top : UCleanup L) : Turn L :=
  if top.kind = .tagScope then .again { s with tag := top.savedTag } else .again s

def turnFrame (s : UStrand L) (o : Oracle L) (f : UFrame L) : Turn L :=
  match s.unwind with
  | .jump => .again (s.fatal o "chunk integrity: unwind deeper than this frame's scopes")
  | .return =>
    let (s', done) := { s with unwind := .none, transfer := .nil }.completeReturn s.transfer
    if done then .left s' else .landed s'
  | _ =>
    if f.isBoundary then .left { s.popFrame with state := .running } else .again s.popFrame

def jumpTarget (v : UValue L) : Nat :=
  match v with
  | .int i => i.toInt.toNat
  | _ => 0

def turn (s : UStrand L) (o : Oracle L) : Turn L :=
  if s.unwind = .none then .landed s
  else match s.frames with
    | [] => .left { s with state := .dead }
    | f :: fs =>
      if s.unwind = .jump ∧ s.jumpDepth = 0 then
        .landed ({ s with unwind := .none, transfer := .nil }.setPc (jumpTarget s.transfer))
      else match s.cleanup with
        | top :: rest =>
          if fs.length ≤ top.frame then
            let s := { s with cleanup := rest }
            match s.unwind with
            | .fatal => s.turnFatal top
            | .jump => s.turnJump (o.grant 0) top
            | _ => s.turnPop (o.grant 0) top
          else s.turnFrame o f
        | [] => s.turnFrame o f

def afterLeaveJump (s : UStrand L) (flags : Nat → UInt8) : Turn L :=
  .again { s with gates := s.gateBits flags, jumpDepth := s.jumpDepth - 1 }

def stopping (s : UStrand L) (t : Option Nat) : Bool :=
  match s.unwind, s.transfer, t with
  | .stop, .tag t', some t => t' = t
  | _, _, _ => false

/-- A stop of this very scope lands behind it. -/
def afterLeave (s : UStrand L) (flags : Nat → UInt8) (top : UCleanup L) : Turn L :=
  if s.stopping top.tag then
    let s := { s with unwind := .none, transfer := .nil }.setPc top.onleavePc
    .landed { s with gates := s.gateBits flags }
  else .again s

end UStrand

end Urbi
