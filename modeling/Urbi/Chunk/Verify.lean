import Urbi.Lib.StateExcept
import Urbi.Chunk.Proto

/-!
# The load-time verifier

The two passes of `chunk/uchunk_verify.c`.  The walks recurse over the remaining words, with a count of
prelude words still to step over in place of `vi += nupvals`.
-/

namespace Urbi

open Lib

/-! ## Pass 1: one instruction against its shape -/

def byteOperandOk (value : Nat) (kind : UOperandKind) (maxReg : Nat) : Bool :=
  match kind with
  | .unused | .immFlags | .upvalIdx | .immSite | .immDepth => true
  | .reg => value ≤ maxReg
  | .regOrNone => value = 0xFF || value ≤ maxReg
  | .immBool => value ≤ 1
  | .immMode => 1 ≤ value && value ≤ 7

def verifyByteOperand (value : Nat) (kind : UOperandKind) (maxReg : Nat) :
    Except UChunkLoadError Unit :=
  check (byteOperandOk value kind maxReg) .corrupt

def opTakesSite : UOpcode → Bool
  | .getslot | .setslot | .setslotUpdate | .self | .getslotChangeEvent => true
  | _ => false

/-- A `JOIN_WAIT` must directly follow its joining `FORK`; the previous word is read raw. -/
def followsJoiningFork (prev : Option UInt32) (a : Nat) : Bool :=
  match prev with
  | none => false
  | some w => uinstrOpcode w = some .fork && uinstrC w = uforkJoin && uinstrB w = a

/-- `a / 4 % 2` is the `RUN_FINALLY` bit of a `SCOPE_POP` operand and `a % 4` the entry kind it
names. -/
def abcRulesOk (op : UOpcode) (a b c : Nat) (prev : Option UInt32) (maxReg : Nat) : Bool :=
  match op with
  | .self => a + 1 ≤ maxReg
  | .call => a + b ≤ maxReg + 1
  | .install => a + 2 ≤ maxReg && c < 4 && !(b = uinstallWaituntil && c != 0)
  | .fork => !(c = uforkDetach && b != 0xFF) && !(c = uforkJoin && b = 0xFF)
  | .joinWait => followsJoiningFork prev a
  | .scopePop =>
    a < 8 && (a % 4 = uscopePopTry || a % 4 = uscopePopTag) &&
      !(a / 4 % 2 = 1 && a % 4 != uscopePopTry)
  | _ => true

def verifyAbcRules (op : UOpcode) (a b c : Nat) (prev : Option UInt32) (maxReg : Nat) :
    Except UChunkLoadError Unit :=
  check (abcRulesOk op a b c prev maxReg) .corrupt

/-- A jump's target is left to pass 2. -/
def bxOk (bx : Nat) (kind : UBxKind) (constCount instrCount nestedCount : Nat) : Bool :=
  match kind with
  | .unused | .symbolId | .extarg | .jumpSigned => true
  | .poolIndex => bx < constCount
  | .nestedIndex => bx < nestedCount
  | .handlerPc => bx < instrCount

def verifyBx (bx : Nat) (kind : UBxKind) (constCount instrCount nestedCount : Nat) :
    Except UChunkLoadError Unit :=
  check (bxOk bx kind constCount instrCount nestedCount) .corrupt

def verifyAbc (b : Block) (prev : Option UInt32) (ext : Nat) (op : UOpcode) (ins : UInt32) :
    Except UChunkLoadError Unit := do
  let sh := urbiOpcodeShapes op
  verifyByteOperand (uinstrB ins) sh.bKind b.maxReg.toNat
  verifyByteOperand (uinstrC ins) sh.cKind b.maxReg.toNat
  check (sh.cKind != .immSite || ext + uinstrC ins < b.siteCount) .corrupt
  verifyAbcRules op (uinstrA ins) (uinstrB ins) (uinstrC ins) prev b.maxReg.toNat

def verifyClosure (b : Block) (ns : List (Option UProto)) (vi : Nat) (ins : UInt32) :
    Except UChunkLoadError Nat :=
  match nestedAt ns (uinstrBx ins) with
  | none => .error .corrupt
  | some child => do
      check (vi + child.block.nupvals.toNat < b.instrCount) .truncatedUpvalues
      .ok child.block.nupvals.toNat

def verifyAbx (b : Block) (ns : List (Option UProto)) (vi : Nat) (op : UOpcode) (ins : UInt32) :
    Except UChunkLoadError Nat := do
  verifyBx (uinstrBx ins) (urbiOpcodeShapes op).bxKind b.constCount b.instrCount ns.length
  check (op != .scopeTry || uinstrA ins = uscopeFHasCatch || uinstrA ins = uscopeFHasFinally)
    .corrupt
  if op = .closure then verifyClosure b ns vi ins else .ok 0

def verifyInstr (b : Block) (ns : List (Option UProto)) (vi : Nat) (prev : Option UInt32)
    (ext : Nat) (op : UOpcode) (ins : UInt32) : Except UChunkLoadError Nat := do
  verifyByteOperand (uinstrA ins) (urbiOpcodeShapes op).aKind b.maxReg.toNat
  match (urbiOpcodeShapes op).format with
  | .abc => do verifyAbc b prev ext op ins; .ok 0
  | .abx => verifyAbx b ns vi op ins

/-! ## Pass 1: the walk -/

/-- `lastOp = none` stands for `OP_MAX`. -/
structure WalkState where
  ext : Nat
  extPending : Bool
  sitesSeen : Nat
  lastOp : Option UOpcode
  deriving DecidableEq, Repr

def WalkState.init : WalkState := ⟨0, false, 0, none⟩

def WalkState.after (st : WalkState) (op : UOpcode) : WalkState where
  ext := 0
  extPending := false
  sitesSeen := if (urbiOpcodeShapes op).cKind = .immSite then st.sitesSeen + 1 else st.sitesSeen
  lastOp := some op

def verifyWalk (b : Block) (ns : List (Option UProto)) :
    Nat → Nat → Option UInt32 → WalkState → List UInt32 → Except UChunkLoadError WalkState
  | _, _, _, st, [] => .ok st
  | vi, skip + 1, _, st, w :: ws => verifyWalk b ns (vi + 1) skip (some w) st ws
  | vi, 0, prev, st, w :: ws =>
    match uinstrOpcode w with
    | none => .error .corrupt
    | some op => do
        check (!st.extPending || opTakesSite op) .badExtarg
        if op = .extarg then do
          check (vi + 1 < b.instrCount) .badExtarg
          verifyWalk b ns (vi + 1) 0 (some w)
            { st with ext := uinstrBx w * 2 ^ 8, extPending := true } ws
        else do
          let skip ← verifyInstr b ns vi prev st.ext op w
          verifyWalk b ns (vi + 1) skip (some w) (st.after op) ws

def verifyWalkBlock (b : Block) (ns : List (Option UProto)) : Except UChunkLoadError Unit := do
  let st ← verifyWalk b ns 0 0 none .init b.instructions
  check (b.instrCount != 0) .corrupt
  check (st.lastOp = some .ret) .corrupt
  check (b.siteCount ≤ st.sitesSeen) .corrupt

mutual
def verifyProtoRecursive : UProto → Except UChunkLoadError Unit
  | .mk b ns => do verifyWalkBlock b ns; verifyProtosRecursive ns
def verifyProtosRecursive : List (Option UProto) → Except UChunkLoadError Unit
  | [] => .ok ()
  | none :: ns => verifyProtosRecursive ns
  | some p :: ns => do verifyProtoRecursive p; verifyProtosRecursive ns
end

/-! ## Pass 2: preludes and control transfers -/

/-- The answer of the chunk allocator to its `k`-th request. -/
abbrev UChunkAlloc : Type := Nat → Bool

/-- `size_t` arithmetic has wrapped `nbytes` modulo `2 ^ 64`; a request for nothing returns NULL,
and what becomes of any other is the allocator's business. -/
def request (alloc : UChunkAlloc) (nbytes : Nat) : StateT Nat (Except UChunkLoadError) Unit :=
  fun k => if 0 < nbytes % 2 ^ 64 && alloc k then .ok ((), k + 1) else .error .oom

/-- One upvalue pseudo-instruction: B is `in_stack`, C the source index. -/
def preludeOk (b : Block) (pv : UInt32) : Bool :=
  uinstrB pv ≤ 1 &&
    (if uinstrB pv = 1 then uinstrC pv ≤ b.maxReg.toNat else uinstrC pv < b.nupvals.toNat)

def requestBitmap (alloc : UChunkAlloc) (b : Block) (nupvals : Nat) (marked : Bool) :
    StateT Nat (Except UChunkLoadError) Unit :=
  if nupvals > 0 && !marked then request alloc ((b.instrCount + 7) / 8) else pure ()

def verifyPreludes (alloc : UChunkAlloc) (b : Block) (ns : List (Option UProto)) :
    Nat → Nat → Bool → List UInt32 → StateT Nat (Except UChunkLoadError) (List Bool)
  | _, _, _, [] => pure []
  | vi, skip + 1, marked, w :: ws => do
      require (preludeOk b w) .malformedUpvalue
      let rest ← verifyPreludes alloc b ns (vi + 1) skip marked ws
      pure (true :: rest)
  | vi, 0, marked, w :: ws =>
    if uinstrOpcode w = some .closure then do
      let nupvals := (nestedAt ns (uinstrBx w)).elim 0 fun p => p.block.nupvals.toNat
      require (vi + nupvals < b.instrCount) .truncatedUpvalues
      requestBitmap alloc b nupvals marked
      let rest ← verifyPreludes alloc b ns (vi + 1) nupvals (marked || nupvals > 0) ws
      pure (false :: rest)
    else do
      let rest ← verifyPreludes alloc b ns (vi + 1) 0 marked ws
      pure (false :: rest)

def isPreludeWord (prelude : List Bool) (pc : Nat) : Bool := prelude[pc]?.getD false

def isExtarg (instructions : List UInt32) (prelude : List Bool) (i : Nat) : Bool :=
  !isPreludeWord prelude i && instructions[i]?.bind uinstrOpcode = some .extarg

def verifyTarget (instructions : List UInt32) (prelude : List Bool) (op : UOpcode)
    (target : Nat) : Except UChunkLoadError Unit := do
  check (target < instructions.length) (if op = .jmp then .jmpOutOfBounds else .badTarget)
  check (!isPreludeWord prelude target) .badTarget
  check (!(target > 0 && isExtarg instructions prelude (target - 1))) .badExtarg

def opMaySkip (op : UOpcode) (ins : UInt32) : Bool :=
  match op with
  | .loadbool => uinstrC ins != 0
  | .test | .testset | .eq | .lt | .le => true
  | _ => false

/-- The target pass 2 resolves for an `OP_JMP` at `vi`: a forward displacement is relative to the
next word, a backward one to the jump itself. -/
def verifiedJmpTarget (vi : Nat) (ins : UInt32) : Int :=
  let signedBx : Int := (uinstrBx ins : Int) - ujmpBias
  (vi : Int) + signedBx + (if signedBx ≥ 0 then 1 else 0)

def verifyTransfer (b : Block) (prelude : List Bool) (vi : Nat) (op : UOpcode) (ins : UInt32) :
    Except UChunkLoadError Unit :=
  if op = .jmp then do
    check (0 ≤ verifiedJmpTarget vi ins) .jmpOutOfBounds
    verifyTarget b.instructions prelude op (verifiedJmpTarget vi ins).toNat
  else if op = .call then
    check (uinstrC ins % 0x80 != 0) .callNresultsZero
  else if opMaySkip op ins then
    verifyTarget b.instructions prelude op (vi + 2)
  else if (urbiOpcodeShapes op).bxKind = .handlerPc then
    verifyTarget b.instructions prelude op (uinstrBx ins)
  else .ok ()

/-- An opcode byte outside the table names no row to consult; pass 1 has refused it already. -/
def verifyTransferAt (b : Block) (prelude : List Bool) (vi : Nat) (w : UInt32) :
    Except UChunkLoadError Unit :=
  if isPreludeWord prelude vi then .ok ()
  else match uinstrOpcode w with
    | none => .ok ()
    | some op => verifyTransfer b prelude vi op w

def verifyTransfers (b : Block) (prelude : List Bool) :
    Nat → List UInt32 → Except UChunkLoadError Unit
  | _, [] => .ok ()
  | vi, w :: ws => do
      verifyTransferAt b prelude vi w
      verifyTransfers b prelude (vi + 1) ws

mutual
def verifyBoundsProto (alloc : UChunkAlloc) : UProto → StateT Nat (Except UChunkLoadError) Unit
  | .mk b ns => do
      let prelude ← verifyPreludes alloc b ns 0 0 false b.instructions
      liftM (verifyTransfers b prelude 0 b.instructions)
      verifyBoundsProtos alloc ns
def verifyBoundsProtos (alloc : UChunkAlloc) :
    List (Option UProto) → StateT Nat (Except UChunkLoadError) Unit
  | [] => pure ()
  | none :: ns => verifyBoundsProtos alloc ns
  | some p :: ns => do verifyBoundsProto alloc p; verifyBoundsProtos alloc ns
end

end Urbi
