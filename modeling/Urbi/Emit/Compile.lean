import Urbi.Emit.Ctrl

/-!
# Concurrency, watchers and the driver

`emit/uemit_react.c`, the dispatch switch of `emit/uemit_expr.c` (`operand`) and the driver of
`emit/uemit.c`.  The warning a watcher condition with a direct side effect gets is left out.
-/

namespace Urbi

open Lib

/-! ## Separators -/

/-- `a, b, c`: a detached thunk for each child but the last, which runs inline. -/
def useqComma : List Operand → Code
  | [] => fun _ => uemitFail .unsupportedAst
  | [c] => valueOf c.code
  | c :: cs => fun want => do
      let base ← getFreereg
      let t ← uexprFunction c.node.line c.stmts false
      emitAbc .fork t 0xFF uforkDetach c.node.line
      uregFreeTo base
      useqComma cs want

def ampPins : List Operand → EmitM (List Nat)
  | [] => pure []
  | c :: cs => do
      let pins ← ampPins cs
      let pin ← upin
      funcLiteral [] c.node.line c.stmts false pin
      pure (pin :: pins)

def ampJoins : List Operand → List Nat → EmitM Unit
  | c :: cs, pin :: pins => do
      let h ← uregAlloc
      emitAbc .fork pin h uforkJoin c.node.line
      emitAbc .joinWait h 0 0 c.node.line
      uunpin pin
      ampJoins cs pins
  | _, _ => pure ()

/-- `a & b & c` is `(a & b) & c`: the left runs inline, then each thunk is forked and joined. -/
def useqAmp (line : Nat) : List Operand → Code
  | [] => fun _ => uemitFail .unsupportedAst
  | c :: cs => fun want => do
      let pins ← ampPins cs
      ustmt c.code
      ampJoins cs pins
      exSimple .loadvoid 0 line want

/-! ## Watchers -/

def installMode (mode : UWatcherMode) (source : UAstWatchSource) : Nat :=
  let cond := source = .cond
  match mode with
  | .atSync => if cond then uinstallAtSyncCond else uinstallAtSyncEvent
  | .whenever => if cond then uinstallWheneverCond else uinstallWheneverEvent
  | .waituntil => uinstallWaituntil
  | .at => if cond then uinstallAtCond else uinstallAtEvent

def waitEvent (line : Nat) (cond : Code) : Code :=
  valueOf (uexprWant (exCall line (.method cond (ascii "waituntil")) []))

def watchSource (line : Nat) (source : UAstWatchSource) (cond : Operand) (slotName : Bytes)
    (base : Nat) : EmitM Unit :=
  match source with
  | .cond => funcLiteral [] cond.node.line cond.stmts true base
  | .event => uexprTo cond.code base
  | .slotChange => do
      let r ← uexprAny cond.code
      let site ← usite slotName
      uslotEmit .getslotChangeEvent base r site line
      uregFreeTo (base + 3)

def bodyClosure (source : UAstWatchSource) (payloadVar : Option Bytes) (body : Operand)
    (dst : Nat) : EmitM Unit :=
  let params : List (UParam × Option Operand) :=
    if source = .cond then []
    else [(⟨body.node.line, payloadVar.getD (ascii "__payload"), false⟩, none)]
  funcLiteral params body.node.line body.stmts false dst

def watchClosures (mode : UWatcherMode) (source : UAstWatchSource)
    (body elseBody onleave : Option Operand) (payloadVar : Option Bytes) (base : Nat) :
    EmitM Nat := do
  if mode = .waituntil then pure 0
  else
    let hasBody ← match body with
      | some b => do bodyClosure source payloadVar b (base + 1); pure uinstallFHasBody
      | none => pure 0
    let alt := if mode = .whenever then elseBody.orElse (fun _ => onleave) else onleave
    let hasAlt ← match alt with
      | some a => do funcLiteral [] a.node.line a.stmts false (base + 2); pure uinstallFHasAlt
      | none => pure 0
    pure (hasBody + hasAlt)

def uwatchInstallNode (line : Nat) (mode : UWatcherMode) (source : UAstWatchSource)
    (cond : Operand) (slotName : Bytes) (body elseBody onleave : Option Operand)
    (payloadVar : Option Bytes) : Code := fun want => do
  if mode = .waituntil ∧ source ≠ .cond then waitEvent line cond.code want
  else
    let base ← uregAlloc
    let _ ← uregAlloc
    let _ ← uregAlloc
    watchSource line source cond slotName base
    let flags ← watchClosures mode source body elseBody onleave payloadVar base
    emitAbc .install base (installMode mode source) flags line
    uregFreeTo base
    exSimple .loadnil 0 line want

/-! ## The dispatch switch -/

def Operand.of (node : UAstNode) (arm : Code) : Operand :=
  ⟨node, uexprWant arm, [uexprWant arm], none⟩

def codes (os : List Operand) : List Code := os.map Operand.code

mutual

def operand : UAstNode → Operand
  | .int line i => .of (.int line i) (exLoadk (.int i) line)
  | .floatLit line bits => .of (.floatLit line bits) (exLoadk (.float bits) line)
  | .str line bytes => .of (.str line bytes) (exLoadk (.str bytes) line)
  | .bool line b => .of (.bool line b) (exSimple .loadbool (if b then 1 else 0) line)
  | .nil line => .of (.nil line) (exSimple .loadnil 0 line)
  | .noop line => .of (.noop line) (exSimple .loadnil 0 line)
  | .this line => .of (.this line) (exThis line)
  | .ident line name => .of (.ident line name) (exIdent line name)
  | .varDecl line name init =>
    .of (.varDecl line name init) (exVarDecl line name (operandOpt init))
  | .assign line name value => .of (.assign line name value) (exAssign line name (operand value))
  | .memberGet line recv name =>
    { Operand.of (.memberGet line recv name) (exMemberGet line (operand recv).code name) with
      member := some ((operand recv).code, name) }
  | .memberSet line recv name value =>
    .of (.memberSet line recv name value)
      (exMemberSet line (operand recv).code name (operand value))
  | .unary line op x => .of (.unary line op x) (exUnary line op (operand x).code)
  | .binary line op lhs rhs =>
    .of (.binary line op lhs rhs) (exBinary line op (operand lhs).code (operand rhs))
  | .compare line op lhs rhs =>
    .of (.compare line op lhs rhs) (exCompare line op (operand lhs).code (operand rhs))
  | .logical line isOr lhs rhs =>
    .of (.logical line isOr lhs rhs) (exLogical line isOr (operand lhs).code (operand rhs).code)
  | .call line callee args =>
    .of (.call line callee args)
      (exCall line (operand callee).callee (operands args))
  | .function line params body =>
    .of (.function line params body) (exFunction (paramOperands params) (operand body))
  | .seq line .comma children => .of (.seq line .comma children) (useqComma (operands children))
  | .seq line .amp children => .of (.seq line .amp children) (useqAmp line (operands children))
  | .seq line .semi children =>
    .of (.seq line .semi children) (uctrlSeq line true (codes (operands children)))
  | .seq line .pipe children =>
    .of (.seq line .pipe children) (uctrlSeq line false (codes (operands children)))
  | .block line stmts =>
    ⟨.block line stmts, uexprWant (uctrlBlock line (codes (operands stmts))),
      codes (operands stmts), none⟩
  | .ifStmt line cond thenBlock elseBlock =>
    .of (.ifStmt line cond thenBlock elseBlock)
      (uctrlIf line (operand cond).code (operand thenBlock).code
        ((operandOpt elseBlock).map Operand.code))
  | .whileStmt line cond body =>
    .of (.whileStmt line cond body) (uctrlWhile line (operand cond).code (operand body).stmts)
  | .switchStmt line expr cases default =>
    .of (.switchStmt line expr cases default)
      (uctrlSwitch line (operand expr).code (caseOperands cases)
        ((operandOpt default).map Operand.stmts))
  | .breakStmt line => .of (.breakStmt line) (uctrlBreak line)
  | .continueStmt line => .of (.continueStmt line) (uctrlContinue line)
  | .ret line value =>
    .of (.ret line value) (uctrlReturn line ((operandOpt value).map Operand.code))
  | .throwExpr line value => .of (.throwExpr line value) (uctrlThrow line (operand value).code)
  | .tryStmt line body var catchBody guard elseBody finallyBody =>
    .of (.tryStmt line body var catchBody guard elseBody finallyBody)
      (uscopeTry line (operand body).code
        ((operandOpt catchBody).map fun b =>
          ⟨var, (operandOpt guard).map Operand.code, b.code⟩)
        ((operandOpt elseBody).map Operand.code) ((operandOpt finallyBody).map Operand.code))
  | .tagPrefix line tagExpr body onleave =>
    .of (.tagPrefix line tagExpr body onleave)
      (uscopeTag line ((operandOpt tagExpr).map Operand.code) (operand body).code onleave.isSome)
  | .watcher line mode source cond slotName body elseBody onleave payloadVar =>
    .of (.watcher line mode source cond slotName body elseBody onleave payloadVar)
      (uwatchInstallNode line mode source (operand cond) slotName (operandOpt body)
        (operandOpt elseBody) (operandOpt onleave) payloadVar)
  | .error line => .of (.error line) fun _ => uemitFail .astError

def operands : List UAstNode → List Operand
  | [] => []
  | n :: ns => operand n :: operands ns

def operandOpt : Option UAstNode → Option Operand
  | none => none
  | some n => some (operand n)

def paramOperands : List (UParam × Option UAstNode) → List (UParam × Option Operand)
  | [] => []
  | (p, default) :: ps => (p, operandOpt default) :: paramOperands ps

def caseOperands : List (UAstNode × UAstNode) → List (Code × List Code)
  | [] => []
  | (val, body) :: cases => ((operand val).code, (operand body).stmts) :: caseOperands cases

end

/-! ## The driver -/

def uemitNew : EmitM Unit := do
  let r ← upin
  modifyFs fun fs => { fs with rGlobals := r }
  emitAbc .loadRealmGlobal r 0 0 0

def UEmitter.init : UEmitter where
  fs := UFuncState.fresh 0
  parents := []
  anyStmt := false
  lastResult := 0
  lazyArgCtx := false
  lazyGlobals := []
  closed := []

def uemitStatement (stmt : UAstNode) : EmitM Unit := do
  let r ← uexprAny (operand stmt).code
  modify fun e => { e with lastResult := r, anyStmt := true }
  uregFreeTo (← uregTop)

def uemitStatements : List UAstNode → EmitM Unit
  | [] => pure ()
  | n :: ns => do uemitStatement n; uemitStatements ns

def uemitFinish : EmitM Unit := do
  let e ← get
  let r ← if e.anyStmt then pure e.lastResult
    else do
      let r ← uregAlloc
      emitAbc .loadnil r 0 0 (← getFs).prevLine
      pure r
  emitAbc .ret r 0 0 (← getFs).prevLine

/-- The root, and every function of the chunk with the scope depth at each of its words. -/
structure Compiled where
  root : UProto
  functions : List (UProto × List Nat)

def compileChunk (stmts : List UAstNode) : Except EmitFail Compiled := do
  let session : EmitM Unit := do
    uemitNew
    uemitStatements stmts
    uemitFinish
  let (_, e) ← session UEmitter.init
  .ok ⟨e.fs.toProto, (e.fs.toProto, e.fs.depths) :: e.closed⟩

end Urbi
