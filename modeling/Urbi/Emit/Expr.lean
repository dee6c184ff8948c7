import Urbi.Emit.State

/-!
# Expressions, calls and function literals

The arms of `emit/uemit_expr.c`.  `want` is the register the value must land in, or `none` for
anywhere.  Arms never recurse themselves; they are given the `Code` that compiles a child.
-/

namespace Urbi

open Lib

abbrev Code : Type := Option Nat → EmitM Nat

/-- A child as an arm sees it.  `stmts` is the statements of a block, or the node itself; `member`
is the receiver and the slot name of a member access, which a call compiles itself. -/
structure Operand where
  node : UAstNode
  code : Code
  stmts : List Code
  member : Option (Code × Bytes)

def getFreereg : EmitM Nat := do pure (← getFs).freereg

/-- Release everything above the caller's frame, or above the value when that is a temporary. -/
def uexprWant (arm : Code) : Code := fun want => do
  let entry ← getFreereg
  let r ← arm want
  if want.isNone && r ≥ (← uregTop) then uregFreeTo (r + 1) else uregFreeTo entry
  pure r

def uexprAny (c : Code) : EmitM Nat := c none

def uexprTo (c : Code) (dst : Nat) : EmitM Unit := do
  let _ ← c (some dst)

def uexprNext (c : Code) : EmitM Nat := do
  let t ← uregAlloc
  uexprTo c t
  pure t

def ustmt (c : Code) : EmitM Unit := do
  let entry ← getFreereg
  let _ ← uexprAny c
  uregFreeTo entry

def ustmts : List Code → EmitM Unit
  | [] => pure ()
  | c :: cs => do ustmt c; ustmts cs

def uemitTarget (want : Option Nat) : EmitM Nat :=
  match want with
  | some w => pure w
  | none => uregAlloc

def settle (r : Nat) (want : Option Nat) (line : Nat) : EmitM Nat :=
  match want with
  | none => pure r
  | some w =>
    if w = r then pure r
    else do
      emitAbc .move w r 0 line
      pure w

def resultReg (want : Option Nat) (a b : Nat) : EmitM Nat :=
  match want with
  | some w => pure w
  | none => do
      let top ← uregTop
      if a ≥ top then pure a
      else if b ≥ top then pure b
      else uregAlloc

/-! ## Literals -/

def exLoadk (k : UConst) (line : Nat) : Code := fun want => do
  let k ← constAdd k
  let d ← uemitTarget want
  emitAbx .loadk d k line
  pure d

def exSimple (op : UOpcode) (b : Nat) (line : Nat) : Code := fun want => do
  let d ← uemitTarget want
  emitAbc op d b 0 line
  pure d

def exThis (line : Nat) : Code := fun want => do
  if (← get).parents.isEmpty then
    failText .noThisOutsideMethod "this used outside a method or nested closure"
  else exSimple .loadRecv 0 line want

/-! ## Names -/

def globalSlot (op : UOpcode) (r : Nat) (name : Bytes) (line : Nat) : EmitM Unit := do
  let site ← usite name
  uslotEmit op r (← getFs).rGlobals site line

def exIdent (line : Nat) (name : Bytes) : Code := fun want => do
  let e ← get
  match ulocalFind e.fs.locals name with
  | some (_, l) =>
    if l.lazyParam && !e.lazyArgCtx then
      -- a lazy parameter holds a thunk; reading it runs the thunk
      let t ← uregAlloc
      emitAbc .move t l.reg 0 line
      emitAbc .call t 1 2 line
      settle t want line
    else settle l.reg want line
  | none =>
    let ui ← upvalOf name
    let d ← uemitTarget want
    match ui with
    | some ui => emitAbc .getupval d ui 0 line
    | none => globalSlot .getslot d name line
    pure d

def noteMask (name : Bytes) (mask : Nat) : List ULazyGlobal → Option (List ULazyGlobal)
  | [] => none
  | g :: gs =>
    if g.name = name then some ({ g with lazyMask := mask } :: gs)
    else (noteMask name mask gs).map (g :: ·)

def lazyGlobalNote (name : Bytes) (mask : Nat) : EmitM Unit := do
  let e ← get
  match noteMask name mask e.lazyGlobals with
  | some gs => modify fun e => { e with lazyGlobals := gs }
  | none =>
    if mask = 0 then pure ()
    else if e.lazyGlobals.length ≥ uemitLazyGlobalsMax then
      failText .regExhausted "too many chunk-top functions with lazy parameters (max 64)"
    else modify fun e => { e with lazyGlobals := e.lazyGlobals ++ [⟨name, mask⟩] }

/-- Bit `i` is set when parameter `i` is lazy; only the first sixteen have a bit. -/
def lazyMaskOf : Nat → List (UParam × Option UAstNode) → Nat
  | _, [] => 0
  | i, (p, _) :: ps => (if p.isLazy && i < 16 then 2 ^ i else 0) + lazyMaskOf (i + 1) ps

def ufuncLazyMask : UAstNode → Nat
  | .function _ params _ => lazyMaskOf 0 params
  | _ => 0

def initMask (init : Option Operand) : Nat := init.elim 0 fun o => ufuncLazyMask o.node

def initValue (line : Nat) (init : Option Operand) : EmitM Nat :=
  match init with
  | some o => uexprNext o.code
  | none => do
      let v ← uregAlloc
      emitAbc .loadnil v 0 0 line
      pure v

def exVarDecl (line : Nat) (name : Bytes) (init : Option Operand) : Code := fun want => do
  let e ← get
  if e.parents.isEmpty && e.fs.blocks.isEmpty then
    -- chunk top: the binding is a slot of the realm's globals
    let v ← initValue line init
    globalSlot .setslot v name line
    lazyGlobalNote name (initMask init)
    settle v want line
  else if e.fs.declaredHere name then
    uemitFail .localRedeclare (some (quoted "variable '" name "' already declared in this scope"))
  else
    -- the initialiser is compiled before the name is visible
    let t ← initValue line init
    uregFreeTo t
    let r ← ulocalDeclare name
    if r ≠ t then emitAbc .move r t 0 line
    modifyFs fun fs => { fs with
      locals := modifyLocal (fun l => { l with lazyMask := initMask init }) (fs.locals.length - 1)
        fs.locals }
    settle r want line

def exAssign (line : Nat) (name : Bytes) (value : Operand) : Code := fun want => do
  let e ← get
  match ulocalFind e.fs.locals name with
  | some (li, l) =>
    if l.lazyParam then
      uemitFail .lazyParamAssign (some (quoted "cannot assign to lazy parameter '" name "'"))
    else
      uexprTo value.code l.reg
      modifyFs fun fs => { fs with
        locals := modifyLocal (fun l => { l with lazyMask := initMask (some value) }) li
          fs.locals }
      settle l.reg want line
  | none =>
    let ui ← upvalOf name
    let v ← uexprAny value.code
    match ui with
    | some ui => emitAbc .setupval v ui 0 line
    | none =>
      globalSlot .setslotUpdate v name line
      if e.parents.isEmpty then lazyGlobalNote name (initMask (some value))
    settle v want line

/-! ## Slots -/

def funcHasLazy : UAstNode → Bool
  | .function _ params _ => params.any fun p => p.1.isLazy
  | _ => false

def rejectLazyMethod (value : UAstNode) : EmitM Unit :=
  if funcHasLazy value then failText .lazyOnMethod "lazy parameters are not allowed on methods"
  else pure ()

def exMemberGet (line : Nat) (recv : Code) (name : Bytes) : Code := fun want => do
  let r ← uexprAny recv
  let d ← resultReg want r r
  let site ← usite name
  uslotEmit .getslot d r site line
  pure d

/-- Compiling the node runs no user code: a literal, or a local of this or an enclosing function
that is no lazy parameter. -/
def exprIsPure (e : UEmitter) : UAstNode → Bool
  | .int _ _ | .floatLit _ _ | .str _ _ | .bool _ _ | .nil _ => true
  | .ident _ name =>
    match (e.fs :: e.parents).findSome? fun fs => ulocalFind fs.locals name with
    | some (_, l) => !l.lazyParam
    | none => false
  | _ => false

/-- A local's own register is copied first when the next operand can run code that rebinds it. -/
def snapshotIfLocal (r : Nat) (next : UAstNode) (line : Nat) : EmitM Nat := do
  let e ← get
  if r ≥ e.fs.regTop || exprIsPure e next then pure r
  else
    let t ← uregAlloc
    emitAbc .move t r 0 line
    pure t

def exMemberSet (line : Nat) (recv : Code) (name : Bytes) (value : Operand) : Code := fun want => do
  rejectLazyMethod value.node
  let r ← uexprAny recv
  let r ← snapshotIfLocal r value.node line
  let v ← uexprAny value.code
  let site ← usite name
  uslotEmit .setslot v r site line
  settle v want line

/-! ## Operators -/

def emitBoolean (d : Nat) (line : Nat) : EmitM Unit := do
  emitAbx .jmp 0 (ujmpBias + 1) line
  emitAbc .loadbool d 1 1 line
  emitAbc .loadbool d 0 0 line

def exUnary (line : Nat) (op : UAstUnaryOp) (operand : Code) : Code := fun want => do
  let r ← uexprAny operand
  let d ← resultReg want r r
  match op with
  | .not =>
    emitAbc .test r 0 0 line
    emitBoolean d line
  | .neg => emitAbc .neg d r 0 line
  pure d

def binaryOpcode : UAstBinaryOp → UOpcode
  | .add => .add
  | .sub => .sub
  | .mul => .mul
  | .div => .div

def operandPair (line : Nat) (lhs : Code) (rhs : Operand) : EmitM (Nat × Nat) := do
  let l ← uexprAny lhs
  let l ← snapshotIfLocal l rhs.node line
  let r ← uexprAny rhs.code
  pure (l, r)

def exBinary (line : Nat) (op : UAstBinaryOp) (lhs : Code) (rhs : Operand) : Code := fun want => do
  let (l, r) ← operandPair line lhs rhs
  let d ← resultReg want l r
  emitAbc (binaryOpcode op) d l r line
  pure d

/-- The compare instruction with its operands: `>` and `>=` swap those of `<` and `<=`, and `!=` is
`EQ` with the sense flipped. -/
def compareWord (op : UAstCompareOp) (l r : Nat) : UInt32 :=
  match op with
  | .eq => uinstrEncAbc .eq 0 l r
  | .neq => uinstrEncAbc .eq 1 l r
  | .lt => uinstrEncAbc .lt 0 l r
  | .le => uinstrEncAbc .le 0 l r
  | .gt => uinstrEncAbc .lt 0 r l
  | .ge => uinstrEncAbc .le 0 r l

def exCompare (line : Nat) (op : UAstCompareOp) (lhs : Code) (rhs : Operand) : Code :=
  fun want => do
    let (l, r) ← operandPair line lhs rhs
    let d ← resultReg want l r
    let _ ← uinstrEmit (compareWord op l r) line
    emitBoolean d line
    pure d

def exLogical (line : Nat) (isOr : Bool) (lhs rhs : Code) : Code := fun want => do
  let d ← uemitTarget want
  let base ← getFreereg
  let l ← uexprAny lhs
  emitAbc .testset d l (if isOr then 0 else 1) line
  let skip ← ujmpEmit line
  uregFreeTo base
  uexprTo rhs d
  ujmpPatchHere skip
  pure d

/-! ## Function literals -/

def minArity {α : Type} : Nat → List (UParam × Option α) → Nat
  | _, [] => 0
  | i, (_, none) :: ps => max (i + 1) (minArity (i + 1) ps)
  | i, (_, some _) :: ps => minArity (i + 1) ps

def arityMessage (minArity nparams : Nat) : Bytes :=
  ascii "function call: wrong argument count (expected " ++
    (if minArity < nparams then ascii "at least " else []) ++ ascii (toString minArity) ++ ascii ")"

def checkArity (minArity nparams line : Nat) : EmitM Unit := do
  let kmin ← constAdd (.int (Int64.ofNat minArity))
  let kmsg ← constAdd (.str (arityMessage minArity nparams))
  let t ← uregAlloc
  emitAbx .loadk t kmin line
  emitAbc .lt 0 (← getFs).rNargs t line
  let ok ← ujmpEmit line
  emitAbx .loadk t kmsg line
  emitAbc .throw t 0 0 line
  ujmpPatchHere ok
  uregFreeTo t

def fillDefaults : Nat → List (UParam × Option Operand) → EmitM Unit
  | _, [] => pure ()
  | i, (p, default) :: ps => do
      let ki ← constAdd (.int (Int64.ofNat i))
      let t ← uregAlloc
      emitAbx .loadk t ki p.line
      emitAbc .le 0 (← getFs).rNargs t p.line
      let skip ← ujmpEmit p.line
      uregFreeTo t
      match default with
      | some o => uexprTo o.code i
      | none => pure ()
      ujmpPatchHere skip
      fillDefaults (i + 1) ps

def arityPrologue (params : List (UParam × Option Operand)) : EmitM Unit := do
  let min := minArity 0 params
  if min > 0 then checkArity min params.length (params.head?.elim 0 fun p => p.1.line)
  fillDefaults min (params.drop min)

def bodyValue : List Code → EmitM (Option Nat)
  | [] => pure none
  | [c] => do pure (some (← uexprAny c))
  | c :: cs => do ustmt c; bodyValue cs

def functionBody (line : Nat) (stmts : List Code) (asExpression : Bool) : EmitM Unit := do
  ublockOpen
  let value ← if asExpression then bodyValue stmts else do ustmts stmts; pure none
  ublockClose
  let r ← match value with
    | some r => pure r
    | none => do
        let r ← uregAlloc
        emitAbc .loadnil r 0 0 line
        pure r
  emitAbc .ret r 0 0 line

def declareParams : List (UParam × Option Operand) → EmitM Unit
  | [] => pure ()
  | (p, _) :: ps => do
      let _ ← ulocalDeclare p.name
      if p.isLazy then
        modifyFs fun fs => { fs with
          locals := modifyLocal (fun l => { l with lazyParam := true }) (fs.locals.length - 1)
            fs.locals }
      declareParams ps

def emitPrelude (line : Nat) : List UUpval → EmitM Unit
  | [] => pure ()
  | u :: us => do
      emitAbc .move 0 (if u.inStack then 1 else 0) u.idx line
      emitPrelude line us

def setLazyArgCtx (b : Bool) : EmitM Unit := modify fun e => { e with lazyArgCtx := b }

def funcEntry (params : List (UParam × Option Operand)) (line : Nat) : EmitM Unit := do
  declareParams params
  if params.length > 0 then
    let r ← upin
    modifyFs fun fs => { fs with rNargs := r }
  let r ← upin
  modifyFs fun fs => { fs with rGlobals := r }
  emitAbc .loadRealmGlobal r 0 0 line
  if params.length > 0 then arityPrologue params

def funcLiteral (params : List (UParam × Option Operand)) (line : Nat) (stmts : List Code)
    (asExpression : Bool) (dst : Nat) : EmitM Unit := do
  if params.length > ufsMaxLocals then
    uemitFail .regExhausted
      (some (ascii "too many parameters (" ++ ascii (toString params.length) ++ ascii "; max 200)"))
  let e ← get
  ufuncOpen params.length
  setLazyArgCtx false
  funcEntry params line
  functionBody line stmts asExpression
  let ups := (← getFs).upvals
  ufuncClose
  setLazyArgCtx e.lazyArgCtx
  -- the index is a `uint16_t`
  emitAbx .closure dst (e.fs.nested.length % 2 ^ 16) line
  emitPrelude line ups

def uexprFunction (line : Nat) (stmts : List Code) (asExpression : Bool) : EmitM Nat := do
  let t ← uregAlloc
  funcLiteral [] line stmts asExpression t
  pure t

def exFunction (params : List (UParam × Option Operand)) (body : Operand) : Code := fun want => do
  let d ← uemitTarget want
  funcLiteral params body.node.line body.stmts true d
  pure d

/-! ## Calls -/

def calleeLazyMask (e : UEmitter) (name : Bytes) : Nat :=
  match (e.fs :: e.parents).findSome? fun fs => ulocalFind fs.locals name with
  | some (_, l) => l.lazyMask
  | none => (e.lazyGlobals.find? fun g => g.name = name).elim 0 ULazyGlobal.lazyMask

def isLazyParam (e : UEmitter) : UAstNode → Bool
  | .ident _ name => (ulocalFind e.fs.locals name).elim false fun p => p.2.lazyParam
  | _ => false

/-- One argument into the next frame register.  A lazy parameter travels as its thunk, unforced; any
other argument to a lazy parameter becomes a function over it. -/
def callArg (a : Operand) (isLazy : Bool) : EmitM Nat := do
  let e ← get
  if isLazyParam e a.node then
    setLazyArgCtx true
    let t ← uexprNext a.code
    setLazyArgCtx e.lazyArgCtx
    pure t
  else if isLazy then uexprFunction a.node.line [a.code] true
  else uexprNext a.code

def callArgs (first mask : Nat) : Nat → List Operand → EmitM Unit
  | _, [] => pure ()
  | i, a :: as => do
      let t ← callArg a (i < 16 && mask.testBit i)
      if t ≠ (first + i) % 2 ^ 8 then
        failText .unsupportedAst "a declaration cannot be a call argument"
      else callArgs first mask (i + 1) as

inductive Callee where
  | method (recv : Code) (name : Bytes)
  | plain (callee : Operand)

def Operand.callee (o : Operand) : Callee :=
  match o.member with
  | some (recv, name) => .method recv name
  | none => .plain o

def callBase (want : Option Nat) : EmitM Nat := do
  let fs ← getFs
  match want with
  | some w => if fs.freereg = w + 1 ∧ w ≥ fs.regTop then pure w else uregAlloc
  | none => uregAlloc

def rejectLazyProperty (callee : Callee) (args : List Operand) : EmitM Unit :=
  match callee, args with
  | .method _ name, _ :: _ :: value :: _ =>
    if name = ascii "setProperty" then rejectLazyMethod value.node else pure ()
  | _, _ => pure ()

def callCallee (line base : Nat) : Callee → EmitM (Nat × Nat)
  | .method recv name => do
      let _ ← uregAlloc
      let r ← uexprAny recv
      let site ← usite name
      uslotEmit .self base r site line
      uregFreeTo (base + 2)
      pure (2, 0)
  | .plain callee => do
      let e ← get
      let mask := match callee.node with
        | .ident _ name => calleeLazyMask e name
        | _ => 0
      uexprTo callee.code base
      pure (1, mask)

def callC : Callee → Nat
  | .method _ _ => ucallCMethod + 2
  | .plain _ => 2

def exCall (line : Nat) (callee : Callee) (args : List Operand) : Code := fun want => do
  if args.length > 252 then
    uemitFail .tooManyArgs
      (some (ascii "too many arguments (" ++ ascii (toString args.length) ++ ascii "; max 252)"))
  rejectLazyProperty callee args
  let base ← callBase want
  let (argbase, mask) ← callCallee line base callee
  callArgs (base + argbase) mask 0 args
  emitAbc .call base (args.length + argbase) (callC callee) line
  uregFreeTo (base + 1)
  settle base want line

end Urbi
