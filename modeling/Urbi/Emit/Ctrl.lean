import Urbi.Emit.Expr

/-!
# Control flow and scopes

The arms of `emit/uemit_ctrl.c` and `emit/uemit_scope.c`.  A break or continue site that crosses try
or tag scopes opened inside the loop is an `UNWIND_TO` with an absolute target instead of a `JMP`.
-/

namespace Urbi

open Lib

def valueOf (c : Code) : Code := fun want =>
  match want with
  | none => uexprAny c
  | some w => do uexprTo c w; pure w

def loadNil (line : Nat) : Code := exSimple .loadnil 0 line

/-! ## Sequences and blocks -/

def uctrlSeq (line : Nat) (yields : Bool) : List Code → Code
  | [] => loadNil line
  | [c] => valueOf c
  | c :: cs => fun want => do
      ustmt c
      if yields then emitAbc .yield 0 0 0 (← getFs).prevLine
      uctrlSeq line yields cs want

def blockInit : List Code → EmitM (Option Code)
  | [] => pure none
  | [c] => pure (some c)
  | c :: cs => do ustmt c; blockInit cs

def uctrlBlock (line : Nat) (stmts : List Code) : Code := fun want => do
  let entry ← getFreereg
  ublockOpen
  match ← blockInit stmts, want with
  | none, _ =>
    ublockClose
    loadNil line want
  | some c, some w =>
    uexprTo c w
    ublockClose
    pure w
  | some c, none =>
    let r ← uexprAny c
    ublockClose
    -- below `entry` it is a local declared outside the block
    if r < entry then pure r
    else
      let d ← uregAlloc
      if r ≠ d then emitAbc .move d r 0 line
      pure d

def bodyStatements (stmts : List Code) : EmitM Unit := do
  ublockOpen
  ustmts stmts

/-! ## If -/

def uctrlIf (line : Nat) (cond thenBlock : Code) (elseBlock : Option Code) : Code := fun want => do
  let d ← uemitTarget want
  let base ← getFreereg
  let c ← uexprAny cond
  emitAbc .test c 0 1 line
  let toElse ← ujmpEmit line
  uregFreeTo base
  uexprTo thenBlock d
  let toEnd ← ujmpEmit line
  ujmpPatchHere toElse
  match elseBlock with
  | some el => uexprTo el d
  | none => emitAbc .loadnil d 0 0 line
  ujmpPatchHere toEnd
  pure d

/-! ## Loop records -/

def loopPush (isSwitch : Bool) : EmitM Unit := do
  let fs ← getFs
  if fs.loops.length ≥ uemitLoopMax then
    failText .nestingTooDeep "loop nesting too deep (max 8)"
  else modifyFs fun fs => { fs with loops := ⟨[], [], isSwitch, fs.nscopes⟩ :: fs.loops }

def loopPop : EmitM Unit := modifyFs fun fs => { fs with loops := fs.loops.tail }

def patchList (target : Nat) : List UPatch → EmitM Unit
  | [] => pure ()
  | p :: ps => do
      if p.isUnwind then
        if target > 65535 then uemitFail .jumpTooFar
        let ins := (← getFs).instructions[p.pc]?.getD 0
        uinstrPatch p.pc (uinstrEncAbx .unwindTo (uinstrA ins) target)
      else ujmpPatchTo p.pc target
      patchList target ps

def jumpOut (lp : ULoop) (count line : Nat) : EmitM UPatch := do
  if count ≥ uemitPatchMax then
    failText .patchListFull "too many break or continue sites in one loop (max 16)"
  let depth := (← getFs).nscopes - lp.scopeDepthOnEnter
  if depth > 0 then
    let pc ← uinstrEmit (uinstrEncAbx .unwindTo depth 0) line
    pure ⟨pc, true⟩
  else
    let pc ← ujmpEmit line
    pure ⟨pc, false⟩

def addBreak (p : UPatch) : List ULoop → List ULoop
  | [] => []
  | lp :: lps => { lp with breaks := lp.breaks ++ [p] } :: lps

/-- A switch passes `continue` through to the loop around it. -/
def addContinue (p : UPatch) : List ULoop → List ULoop
  | [] => []
  | lp :: lps =>
    if lp.isSwitch then lp :: addContinue p lps
    else { lp with continues := lp.continues ++ [p] } :: lps

def uctrlBreak (line : Nat) : Code := fun want => do
  match (← getFs).loops with
  | [] => failText .unsupportedAst "break outside a loop"
  | lp :: _ =>
    let p ← jumpOut lp lp.breaks.length line
    modifyFs fun fs => { fs with loops := addBreak p fs.loops }
    uemitTarget want

def uctrlContinue (line : Nat) : Code := fun want => do
  match (← getFs).loops.find? fun lp => !lp.isSwitch with
  | none => failText .unsupportedAst "continue outside a loop"
  | some lp =>
    let p ← jumpOut lp lp.continues.length line
    modifyFs fun fs => { fs with loops := addContinue p fs.loops }
    uemitTarget want

/-! ## While and switch -/

def closeIteration (line : Nat) : EmitM Unit := do
  match (← getFs).blocks with
  | b :: _ => if b.hasCaptured then emitAbc .close b.freeregOnEnter 0 0 line
  | [] => pure ()

def innermost (l : ULoop → List UPatch) : EmitM (List UPatch) := do
  pure ((← getFs).loops.head?.elim [] l)

def uctrlWhile (line : Nat) (cond : Code) (body : List Code) : Code := fun want => do
  let d ← uemitTarget want
  let base ← getFreereg
  loopPush false
  let top ← uinstrPc
  let c ← uexprAny cond
  emitAbc .test c 0 1 line
  let toExit ← ujmpEmit line
  uregFreeTo base
  bodyStatements body
  -- `continue` lands here, before the cells of the iteration close
  patchList (← uinstrPc) (← innermost ULoop.continues)
  closeIteration line
  ujmpBack top line
  -- the exit lands on the block's own `CLOSE`, which a break jumped past
  let exit ← uinstrPc
  ublockClose
  ujmpPatchTo toExit exit
  patchList exit (← innermost ULoop.breaks)
  loopPop
  emitAbc .loadnil d 0 0 line
  pure d

def switchArms (s line : Nat) : List (Code × List Code) → EmitM (List Nat)
  | [] => pure []
  | (val, body) :: arms => do
      let base ← getFreereg
      let v ← uexprAny val
      emitAbc .eq 0 s v line
      let toNext ← ujmpEmit line
      uregFreeTo base
      bodyStatements body
      ublockClose
      let exit ← ujmpEmit line
      ujmpPatchHere toNext
      pure (exit :: (← switchArms s line arms))

def patchExits (target : Nat) : List Nat → EmitM Unit
  | [] => pure ()
  | pc :: pcs => do ujmpPatchTo pc target; patchExits target pcs

def uctrlSwitch (line : Nat) (expr : Code) (arms : List (Code × List Code))
    (default : Option (List Code)) : Code := fun want => do
  let d ← uemitTarget want
  let s ← upin
  uexprTo expr s
  loopPush true
  ublockOpen
  let exits ← switchArms s line arms
  match default with
  | some body => do bodyStatements body; ublockClose
  | none => pure ()
  let exit ← uinstrPc
  ublockClose
  patchExits exit exits
  patchList exit (← innermost ULoop.breaks)
  loopPop
  uunpin s
  emitAbc .loadnil d 0 0 line
  pure d

/-! ## Return and throw -/

def uctrlReturn (line : Nat) (value : Option Code) : Code := fun want => do
  let r ← match value with
    | some c => uexprAny c
    | none => loadNil line none
  emitAbc .ret r 0 0 line
  pure (want.getD r)

def uctrlThrow (line : Nat) (value : Code) : Code := fun want => do
  let r ← uexprAny value
  emitAbc .throw r 0 0 line
  pure (want.getD r)

/-! ## Try and tag scopes -/

def scopePush : EmitM Unit := do
  let fs ← getFs
  if fs.nscopes ≥ uemitScopeMax then
    failText .nestingTooDeep "try and tag scopes nested too deeply (max 16)"
  else modifyFs fun fs => { fs with nscopes := fs.nscopes + 1 }

def scopePop : EmitM Unit := modifyFs fun fs => { fs with nscopes := fs.nscopes - 1 }

/-- `SCOPE_TRY` and `SCOPE_TAG` name their handler by absolute pc. -/
def patchHandler (pc : Nat) (op : UOpcode) (a target : Nat) : EmitM Unit :=
  if target > 65535 then failText .jumpTooFar "scope handler past instruction 65535"
  else uinstrPatch pc (uinstrEncAbx op a target)

def closeAbandoned (captured : Bool) (base line : Nat) : EmitM Unit :=
  if captured then emitAbc .close base 0 0 line else pure ()

def deliver (rd : Nat) (line : Nat) : Code := fun want => do
  let d ← uemitTarget want
  if d ≠ rd then emitAbc .move d rd 0 line
  pure d

def getCaptures : EmitM UInt32 := do pure (← getFs).ncaptures

structure CatchClause where
  var : Option Bytes
  guard : Option Code
  body : Code

def catchGuard (line : Nat) (guard : Code) : EmitM Nat := do
  let base ← getFreereg
  let g ← uexprAny guard
  emitAbc .test g 0 1 line
  let toRethrow ← ujmpEmit line
  uregFreeTo base
  pure toRethrow

def catchHandler (line : Nat) (c : CatchClause) (rd : Nat) (captured : Bool) : EmitM Unit := do
  closeAbandoned captured (← getFreereg) line
  ublockOpen
  let x ← match c.var with
    | some name => ulocalDeclare name
    | none => upin
  emitAbc .loadCatchValue x 0 0 line
  match c.guard with
  | none => uexprTo c.body rd
  | some guard =>
    let toRethrow ← catchGuard line guard
    uexprTo c.body rd
    let toEnd ← ujmpEmit line
    ujmpPatchHere toRethrow
    emitAbc .throw x 0 0 line
    ujmpPatchHere toEnd
  ublockClose

def openTry (flags line : Nat) : EmitM Nat := do
  let pc ← uinstrEmit (uinstrEncAbx .scopeTry flags 0) line
  scopePush
  pure pc

def tryBody (line : Nat) (body : Code) (handler : Option CatchClause) (elseBody : Option Code)
    (rd : Nat) : EmitM Unit := do
  let elseStmt : EmitM Unit := match elseBody with
    | some el => ustmt el
    | none => pure ()
  match handler with
  | none =>
    uexprTo body rd
    elseStmt
  | some c =>
    let catchOpen ← openTry uscopeFHasCatch line
    let capturesOnEnter ← getCaptures
    uexprTo body rd
    let captured := (← getCaptures) != capturesOnEnter
    emitAbc .scopePop uscopePopTry 0 0 line
    scopePop
    elseStmt
    let pastHandler ← ujmpEmit line
    patchHandler catchOpen .scopeTry uscopeFHasCatch (← uinstrPc)
    catchHandler line c rd captured
    ujmpPatchHere pastHandler

def tryFinally (line : Nat) (guarded : EmitM Unit) (finallyBody : Code) (base : Nat) :
    EmitM Unit := do
  let finOpen ← openTry uscopeFHasFinally line
  let capturesOnEnter ← getCaptures
  guarded
  let captured := (← getCaptures) != capturesOnEnter
  emitAbc .scopePop (uscopePopTry + uscopePopRunFinally) 0 0 line
  scopePop
  let toEnd ← ujmpEmit line
  patchHandler finOpen .scopeTry uscopeFHasFinally (← uinstrPc)
  closeAbandoned captured base line
  -- the body runs under the walker's marker, which counts as one entry
  scopePush
  ustmt finallyBody
  scopePop
  emitAbc .resume 0 0 0 line
  ujmpPatchHere toEnd

def uscopeTry (line : Nat) (body : Code) (handler : Option CatchClause)
    (elseBody finallyBody : Option Code) : Code := fun want => do
  let rd ← upin
  let base ← getFreereg
  emitAbc .loadnil rd 0 0 line
  let guarded := tryBody line body handler elseBody rd
  match finallyBody with
  | none => guarded
  | some f => tryFinally line guarded f base
  uunpin rd
  deliver rd line want

def tagRegister (tagExpr : Option Code) : EmitM Nat :=
  match tagExpr with
  | none => pure uscopeNoReg
  | some c => do
      let rt ← upin
      uexprTo c rt
      pure rt

def uscopeTag (line : Nat) (tagExpr : Option Code) (body : Code) (hasOnleave : Bool) : Code :=
  fun want => do
    if hasOnleave then uemitFail .unsupportedAst
    let rd ← upin
    emitAbc .loadnil rd 0 0 line
    let rt ← tagRegister tagExpr
    let base ← getFreereg
    let openPc ← uinstrEmit (uinstrEncAbx .scopeTag rt 0) line
    scopePush
    let capturesOnEnter ← getCaptures
    uexprTo body rd
    let captured := (← getCaptures) != capturesOnEnter
    emitAbc .scopePop uscopePopTag 0 0 line
    scopePop
    patchHandler openPc .scopeTag rt (← uinstrPc)
    closeAbandoned captured base line
    if rt ≠ uscopeNoReg then uunpin rt
    uunpin rd
    deliver rd line want

end Urbi
