import Urbi.Lib.StateExcept
import Urbi.Emit.Ast

/-!
# The emitter's state

`emit/uemit_internal.h` and `emit/uemit_reg.c`.  Allocation failures are left out, and so are the
fields nothing reads (`is_loop`, the kind and register of a scope record, the captured and pinned
flags of a local).  Lists are innermost first; a local's index still counts from the oldest.
-/

namespace Urbi

open Lib

/-! ## Errors -/

inductive UEmitError where
  | astError | unsupportedAst | regExhausted | constantPoolFull | upvalExhausted | localRedeclare
  | nestingTooDeep | lazyOnMethod | lazyParamAssign | tooManySites | noThisOutsideMethod
  | tooManyArgs | patchListFull | jumpTooFar
  deriving DecidableEq, Repr

structure EmitFail where
  code : UEmitError
  message : Option Bytes
  deriving DecidableEq, Repr

def quoted (before : String) (name : Bytes) (after : String) : Bytes :=
  ascii before ++ cstr name ++ ascii after

/-! ## Function states -/

def ufsMaxLocals : Nat := 200
def ufsMaxUpvalues : Nat := 60
def ufsMaxBlocks : Nat := 32
def ufsMaxRegs : Nat := 256
def uemitLoopMax : Nat := 8
def uemitPatchMax : Nat := 16
def uemitScopeMax : Nat := 16
def uemitLazyGlobalsMax : Nat := 64

structure ULocal where
  name : Option Bytes
  reg : Nat
  lazyParam : Bool
  lazyMask : Nat
  deriving DecidableEq, Repr

structure UUpval where
  name : Bytes
  idx : Nat
  inStack : Bool
  deriving DecidableEq, Repr

structure UBlock where
  nactvarOnEnter : Nat
  freeregOnEnter : Nat
  hasCaptured : Bool
  deriving DecidableEq, Repr

structure UPatch where
  pc : Nat
  isUnwind : Bool
  deriving DecidableEq, Repr

structure ULoop where
  breaks : List UPatch
  continues : List UPatch
  isSwitch : Bool
  scopeDepthOnEnter : Nat
  deriving DecidableEq, Repr

/-- `depths` is not in the source: it records `nscopes` as each word is emitted. -/
structure UFuncState where
  nparams : Nat
  locals : List ULocal
  freereg : Nat
  maxReg : Nat
  rGlobals : Nat
  rNargs : Nat
  upvals : List UUpval
  blocks : List UBlock
  loops : List ULoop
  nscopes : Nat
  siteNames : List Bytes
  prevLine : Nat
  ncaptures : UInt32
  constants : List UConst
  instructions : List UInt32
  lineDeltas : List UInt8
  absLines : List UAbsLine
  nested : List UProto
  depths : List Nat

def UFuncState.fresh (nparams : Nat) : UFuncState where
  nparams := nparams
  locals := []
  freereg := 0
  maxReg := 0
  rGlobals := 0
  rNargs := 0xFF
  upvals := []
  blocks := []
  loops := []
  nscopes := 0
  siteNames := []
  prevLine := 0
  ncaptures := 0
  constants := []
  instructions := []
  lineDeltas := []
  absLines := []
  nested := []
  depths := []

structure ULazyGlobal where
  name : Bytes
  lazyMask : Nat
  deriving DecidableEq, Repr

/-- `closed` is not in the source: it keeps the depths of every function closed so far. -/
structure UEmitter where
  fs : UFuncState
  parents : List UFuncState
  anyStmt : Bool
  lastResult : Nat
  lazyArgCtx : Bool
  lazyGlobals : List ULazyGlobal
  closed : List (UProto × List Nat)

abbrev EmitM : Type → Type := StateT UEmitter (Except EmitFail)

def uemitFail {α : Type} (code : UEmitError) (message : Option Bytes := none) : EmitM α :=
  throw ⟨code, message⟩

def failText {α : Type} (code : UEmitError) (text : String) : EmitM α :=
  uemitFail code (some (ascii text))

def getFs : EmitM UFuncState := do pure (← get).fs

def modifyFs (f : UFuncState → UFuncState) : EmitM Unit := modify fun e => { e with fs := f e.fs }

/-! ## Registers -/

def uregAlloc : EmitM Nat := do
  let fs ← getFs
  if fs.freereg ≥ ufsMaxRegs - 1 then
    failText .regExhausted "expression needs more than 255 registers"
  else
    modifyFs fun fs => { fs with freereg := fs.freereg + 1, maxReg := max fs.maxReg fs.freereg }
    pure fs.freereg

def UFuncState.regTop (fs : UFuncState) : Nat := fs.locals.head?.elim 0 fun l => l.reg + 1

def uregTop : EmitM Nat := do pure (← getFs).regTop

def uregFreeTo (r : Nat) : EmitM Unit := modifyFs fun fs => { fs with freereg := max r fs.regTop }

/-! ## Locals -/

def ulocalFind : List ULocal → Bytes → Option (Nat × ULocal)
  | [], _ => none
  | l :: ls, name => if l.name = some name then some (ls.length, l) else ulocalFind ls name

def modifyLocal (f : ULocal → ULocal) (li : Nat) : List ULocal → List ULocal
  | [] => []
  | l :: ls => if ls.length = li then f l :: ls else l :: modifyLocal f li ls

def localPush (name : Option Bytes) (reg : Nat) : EmitM Unit := do
  let fs ← getFs
  if fs.locals.length ≥ ufsMaxLocals then
    failText .regExhausted "too many local variables in function (max 200)"
  else
    modifyFs fun fs => { fs with locals := ⟨name, reg, false, 0⟩ :: fs.locals }

def UFuncState.declaredHere (fs : UFuncState) (name : Bytes) : Bool :=
  let entry := fs.blocks.head?.elim 0 UBlock.nactvarOnEnter
  (fs.locals.take (fs.locals.length - entry)).any fun l => l.name = some name

def ulocalDeclare (name : Bytes) : EmitM Nat := do
  if (← getFs).declaredHere name then
    uemitFail .localRedeclare (some (quoted "variable '" name "' already declared in this scope"))
  else
    let r ← uregAlloc
    localPush (some name) r
    pure r

def upin : EmitM Nat := do
  let r ← uregAlloc
  localPush none r
  pure r

def uunpin (r : Nat) : EmitM Unit :=
  modifyFs fun fs => { fs with locals := fs.locals.tail, freereg := r }

/-! ## Upvalues -/

def upvalFind (upvals : List UUpval) (name : Bytes) : Option Nat :=
  upvals.findIdx? fun u => u.name = name

def upvalInstall (fs : UFuncState) (name : Bytes) (idx : Nat) (inStack : Bool) :
    Except EmitFail (Nat × UFuncState) :=
  match upvalFind fs.upvals name with
  | some i => .ok (i, fs)
  | none =>
    if fs.upvals.length ≥ ufsMaxUpvalues then
      .error ⟨.upvalExhausted, some (ascii "too many captured variables in function (max 60)")⟩
    else .ok (fs.upvals.length, { fs with upvals := fs.upvals ++ [⟨name, idx, inStack⟩] })

def markCaptured (li : Nat) : List UBlock → List UBlock
  | [] => []
  | b :: bs =>
    if b.nactvarOnEnter ≤ li then { b with hasCaptured := true } :: bs
    else b :: markCaptured li bs

def UFuncState.capture (fs : UFuncState) (li : Nat) : UFuncState :=
  { fs with ncaptures := fs.ncaptures + 1, blocks := markCaptured li fs.blocks }

def uupvalFindOrInstall (name : Bytes) : UFuncState → List UFuncState →
    Except EmitFail (Option Nat × UFuncState × List UFuncState)
  | fs, [] => .ok (none, fs, [])
  | fs, parent :: ps =>
    match upvalFind fs.upvals name with
    | some i => .ok (some i, fs, parent :: ps)
    | none =>
      match ulocalFind parent.locals name with
      | some (li, l) => do
          let (i, fs) ← upvalInstall fs name l.reg true
          .ok (some i, fs, parent.capture li :: ps)
      | none => do
          let (gi, parent, ps) ← uupvalFindOrInstall name parent ps
          match gi with
          | none => .ok (none, fs, parent :: ps)
          | some gi => do
              let (i, fs) ← upvalInstall fs name gi false
              .ok (some i, fs, parent :: ps)

def upvalOf (name : Bytes) : EmitM (Option Nat) := fun e => do
  let (ui, fs, parents) ← uupvalFindOrInstall name e.fs e.parents
  .ok (ui, { e with fs := fs, parents := parents })

/-! ## The instruction stream -/

def lineDelta (prevLine line : Nat) : Option UInt8 :=
  let d : Int := (line : Int) - prevLine
  if prevLine = 0 ∨ d ≤ -128 ∨ d > 127 then none else some (UInt8.ofNat (d % 256).toNat)

def UFuncState.push (fs : UFuncState) (ins : UInt32) (line : Nat) : UFuncState :=
  { fs with
    instructions := fs.instructions ++ [ins]
    lineDeltas := fs.lineDeltas ++ [(lineDelta fs.prevLine line).getD 0x80]
    absLines := match lineDelta fs.prevLine line with
      | none => fs.absLines ++ [⟨UInt32.ofNat fs.instructions.length, UInt32.ofNat line⟩]
      | some _ => fs.absLines
    prevLine := line
    depths := fs.depths ++ [fs.nscopes] }

def uinstrEmit (ins : UInt32) (line : Nat) : EmitM Nat := do
  let pc := (← getFs).instructions.length
  modifyFs fun fs => fs.push ins line
  pure pc

def emitAbc (op : UOpcode) (a b c : Nat) (line : Nat) : EmitM Unit := do
  let _ ← uinstrEmit (uinstrEncAbc op a b c) line

def emitAbx (op : UOpcode) (a bx : Nat) (line : Nat) : EmitM Unit := do
  let _ ← uinstrEmit (uinstrEncAbx op a bx) line

def uinstrPc : EmitM Nat := do pure (← getFs).instructions.length

def uinstrPatch (pc : Nat) (ins : UInt32) : EmitM Unit :=
  modifyFs fun fs => { fs with instructions := fs.instructions.set pc ins }

def ujmpEmit (line : Nat) : EmitM Nat := uinstrEmit (uinstrEncAbx .jmp 0 ujmpBias) line

def ujmpPatchTo (jmpPc targetPc : Nat) : EmitM Unit :=
  let off : Int := (targetPc : Int) - jmpPc - 1
  if off < 0 ∨ off > 32767 then uemitFail .jumpTooFar
  else uinstrPatch jmpPc (uinstrEncAbx .jmp 0 (ujmpBias + off.toNat))

def ujmpPatchHere (jmpPc : Nat) : EmitM Unit := do ujmpPatchTo jmpPc (← uinstrPc)

def ujmpBack (targetPc : Nat) (line : Nat) : EmitM Unit := do
  let off : Int := (targetPc : Int) - (← uinstrPc)
  if off ≥ 0 ∨ off < -32768 then uemitFail .jumpTooFar
  else emitAbx .jmp 0 (ujmpBias + off).toNat line

/-! ## Constants and slot sites -/

def constAdd (k : UConst) : EmitM Nat := do
  let fs ← getFs
  match fs.constants.idxOf? k with
  | some i => pure i
  | none =>
    if fs.constants.length > 65535 then uemitFail .constantPoolFull
    else
      modifyFs fun fs => { fs with constants := fs.constants ++ [k] }
      pure fs.constants.length

def usite (name : Bytes) : EmitM Nat := do
  let fs ← getFs
  if fs.siteNames.length = 65535 then
    failText .tooManySites "too many slot-access sites in function (max 65535)"
  else
    modifyFs fun fs => { fs with siteNames := fs.siteNames ++ [name] }
    pure fs.siteNames.length

def uslotEmit (op : UOpcode) (a b site : Nat) (line : Nat) : EmitM Unit := do
  if site > 255 then emitAbx .extarg 0 (site / 256) line
  emitAbc op a b (site % 256) line

/-! ## Blocks and functions -/

def ublockOpen : EmitM Unit := do
  let fs ← getFs
  if fs.blocks.length ≥ ufsMaxBlocks then
    failText .nestingTooDeep "blocks nested too deeply (max 32)"
  else
    modifyFs fun fs => { fs with blocks := ⟨fs.locals.length, fs.freereg, false⟩ :: fs.blocks }

def inheritCaptured (captured : Bool) : List UBlock → List UBlock
  | [] => []
  | b :: bs => { b with hasCaptured := b.hasCaptured || captured } :: bs

def ublockClose : EmitM Unit := do
  let fs ← getFs
  match fs.blocks with
  | [] => uemitFail .unsupportedAst
  | b :: bs =>
    if b.hasCaptured then emitAbc .close b.freeregOnEnter 0 0 fs.prevLine
    modifyFs fun fs => { fs with
      locals := fs.locals.drop (fs.locals.length - b.nactvarOnEnter)
      freereg := b.freeregOnEnter
      blocks := inheritCaptured b.hasCaptured bs }

def UFuncState.toProto (fs : UFuncState) : UProto :=
  .mk { maxReg := UInt8.ofNat fs.maxReg
        nupvals := UInt8.ofNat fs.upvals.length
        nparams := UInt8.ofNat fs.nparams
        arityPrologue := true
        constants := fs.constants
        instructions := fs.instructions
        lineDeltas := fs.lineDeltas
        absLines := fs.absLines
        siteNameStrs := fs.siteNames.map fun n => some (cstr n) }
    (fs.nested.map some)

def ufuncOpen (nparams : Nat) : EmitM Unit :=
  modify fun e => { e with fs := UFuncState.fresh nparams, parents := e.fs :: e.parents }

def ufuncClose : EmitM Unit := modify fun e =>
  match e.parents with
  | [] => e
  | p :: ps => { e with
      fs := { p with nested := p.nested ++ [e.fs.toProto] }
      parents := ps
      closed := (e.fs.toProto, e.fs.depths) :: e.closed }

end Urbi
