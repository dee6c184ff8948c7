import Urbi.Chunk.Opcode
import Urbi.Rt.Unwind

/-!
# The opcode arms

What each arm of `uexec_run_inner` decides, as an `Arm`, before anything is done to the strand.  `Cont`
names the arms that leave the strand's own state.
-/

namespace Urbi

variable {L : CodeBase}

inductive Cont (L : CodeBase) where
  | binop (op : UArithOp) (dst : Nat) (b c : UValue L)
  | neg (dst : Nat) (v : UValue L)
  | eq (want : Nat)
  | less (strict : Bool) (want : Nat) (b c : UValue L)
  | getslot (dst : Nat) (self : Option (UValue L))
  | setslot
  | native (fi dst : Nat)
  | waituntil
  | install
  | yield
  | join
  | tagEnter (t : Nat)
  | tagPop
  | leaveJump
  | leave (top : UCleanup L)
  | callback

inductive Arm (L : CodeBase) where
  -- registers written, then `NEXT`, over one word more when `skip` is set
  | next (writes : List (Nat × (UValue L))) (skip : Bool)
  -- a write through an upvalue, which may point into this very stack
  | poke (slot : Option Nat) (v : UValue L)
  | jmp (off : Int)
  | extarg (bits : Nat)
  -- `CLOSURE` after its prelude: the pc moves over the words read
  | closed (dst : Nat) (v : UValue L) (words : Nat)
  | raise (which : UErrorProto) (msg : String) (positioned : Bool)
  -- a raise with part of a prelude read
  | raiseAt (words : Nat) (which : UErrorProto) (msg : String)
  | throw (v : UValue L)
  | ret (v : UValue L)
  | call (a b c : Nat)
  | out (k : Cont L)
  | joinWait (finished : Bool)
  | pushTry (flags handler : Nat)
  | pushTag (t : Nat) (handler : Nat)
  | scopePop (a : Nat)
  | loadCatch (dst : Nat)
  | resume
  | unwindTo (depth target : Nat)

structure Window (L : CodeBase) where
  reg : Nat → UValue L
  frame : UFrame L

def UStrand.window (s : UStrand L) (f : UFrame L) : Window L := ⟨fun r => s.stack (f.base + r), f⟩

namespace Window

def block (w : Window L) : Block := w.frame.proto.val.block

def const (w : Window L) (i : Nat) : UValue L := (w.block.constants[i]?.map UValue.ofConst).getD .nil

end Window

def armOfArith (dst : Nat) (o : Oracle L) (op : UArithOp) (b c : UValue L) : Arm L :=
  match arith op b c with
  | .value v =>
    -- the concatenation of two strings is the one result that is allocated
    if v.isStr && !o.grant 0 then
      .raise .oomError "out of memory concatenating strings" false
    else .next [(dst, v)] false
  | .divByZero => .raise .divByZero "division by 0" true
  | .dispatch => .out (.binop op dst b c)

def armOfCompare (k : Cont L) (want : Nat) : UOpResult Bool → Arm L
  | .value r => .next [] (r.toNat ≠ want)
  | _ => .out k

/-- The capture of a parent's register may need an upvalue cell (`grant`), that of a parent's
upvalue must name one it has. -/
def captureUpvals (grant : Nat → Bool) (nupvals : Nat) : Nat → List UInt32 → Arm L → Arm L
  | _, [], done => done
  | k, w :: ws, done =>
    if uinstrB w ≠ 0 then
      if grant k then captureUpvals grant nupvals (k + 1) ws done
      else .raiseAt (k + 1) .oomError "closure creation: out of memory opening an upvalue"
    else if nupvals ≤ uinstrC w then
      .raiseAt (k + 1) .typeError "closure creation: upvalue re-capture out of range"
    else captureUpvals grant nupvals (k + 1) ws done

/-- `none` when the prelude runs off the array. -/
def armOfClosure (o : Oracle L) (w : Window L) (dst bx : Nat) : Option (Arm L) :=
  match h : nestedAt w.frame.proto.val.nested bx with
  | none => some (.raise .typeError "closure creation: proto index out of range" false)
  | some child =>
    let n := child.block.nupvals.toNat
    let prelude := (w.block.instructions.drop w.frame.pc).take n
    if !o.grant 3 then some (.raise .oomError "closure creation: out of memory" false)
    else if prelude.length < n then none
    else
      let fn : Fn L := ⟨child, L.nested w.frame.proto.property (mem_of_nestedAt h)⟩
      let cl : UClosure L := ⟨o.id, .proto fn, n, none⟩
      some (captureUpvals (fun k => o.grant (4 + k)) w.frame.closure.nupvals 0 prelude
        (.closed dst (.closure cl) n))

def armOfSite (o : Oracle L) (w : Window L) (site : Nat) (what : String) (arm : Arm L) : Arm L :=
  if !o.flag || w.block.siteCount ≤ site then
    .raise .typeError (what ++ ": no name table bound") false
  else arm

def armOfSetslot (o : Oracle L) (w : Window L) (site : Nat) (recv : UValue L) : Arm L :=
  armOfSite o w site "slot write"
    (if recv.isObj then .out .setslot
     else .raise .typeError "slot write: receiver is not an Object" false)

def armOfFork (o : Oracle L) (w : Window L) (a b c : Nat) : Arm L :=
  let what := if c = uforkJoin then "'&' (parallel join)" else "',' (parallel fork)"
  match w.reg a with
  | .closure ⟨_, .proto _, _, _⟩ =>
    if !o.grant 0 then .raise .oomError (what ++ ": cannot spawn the child strand") false
    else .next (if c = uforkJoin then [(b, .strand o.id)] else []) false
  | _ => .raise .typeError (what ++ ": operand is not a closure") false

def installReady (mode : Nat) : UValue L → Bool
  | .closure _ => mode = uinstallWaituntil || mode < uinstallAtEvent
  | .event _ => mode ≠ uinstallWaituntil && uinstallAtEvent ≤ mode
  | _ => false

def armOfInstall (w : Window L) (a mode : Nat) : Arm L :=
  if installReady mode (w.reg a) then
    if mode = uinstallWaituntil then .out .waituntil else .out .install
  else .raise .typeError
    (if mode = uinstallWaituntil then "waituntil install: condition is not a closure"
     else if uinstallAtEvent ≤ mode then "at-event watcher install: operand is not an event"
     else "at watcher install: condition is not a closure") false

def armOfTag (o : Oracle L) (w : Window L) (a handler : Nat) : Arm L :=
  match if a = uscopeNoReg then .nil else w.reg a with
  | .tag t => .pushTag t handler
  | _ =>
    if o.grant 3 then .pushTag o.id handler
    else .raise .oomError "tag push: out of memory creating the scope tag" false

/-- `s` may not be descheduled unless `may`; `ext` holds the high site bits of a preceding `EXTARG`.
-/
def arm (o : Oracle L) (w : Window L) (may : Bool) (ext : Nat) (op : UOpcode) (i : UInt32) :
    Option (Arm L) :=
  let a := uinstrA i
  let b := uinstrB i
  let c := uinstrC i
  let bx := uinstrBx i
  match op with
  | .loadk => some (.next [(a, w.const bx)] false)
  | .move => some (.next [(a, w.reg b)] false)
  | .loadnil => some (.next [(a, .nil)] false)
  | .loadvoid => some (.next [(a, .void)] false)
  | .loadbool => some (.next [(a, .bool (b ≠ 0))] (c ≠ 0))
  | .add => some (armOfArith a o .add (w.reg b) (w.reg c))
  | .sub => some (armOfArith a o .sub (w.reg b) (w.reg c))
  | .mul => some (armOfArith a o .mul (w.reg b) (w.reg c))
  | .div => some (armOfArith a o .div (w.reg b) (w.reg c))
  | .neg =>
    match negate (w.reg b) with
    | .value v => some (.next [(a, v)] false)
    | _ => some (.out (.neg a (w.reg b)))
  | .ret => some (.ret (w.reg a))
  | .yield => some (if may then .out .yield else .next [] false)
  | .getupval =>
    -- an entry of the table that was never captured reads as NULL
    if w.frame.closure.nupvals ≤ b || !o.flag then
      some (.raise .typeError "upvalue read: index out of range" false)
    else some (.next [(a, o.value)] false)
  | .setupval =>
    if w.frame.closure.nupvals ≤ b || !o.flag then
      some (.raise .typeError "upvalue write: index out of range" false)
    else some (.poke o.slot (w.reg a))
  | .closure => armOfClosure o w a bx
  | .close => some (.next [] false)
  | .call => some (.call a b c)
  | .jmp => some (.jmp ((bx : Int) - ujmpBias))
  | .test => some (.next [] ((w.reg a).truthy.toNat = c))
  | .testset =>
    if (w.reg b).truthy.toNat = c then some (.next [] true)
    else some (.next [(a, w.reg b)] false)
  | .eq => some (armOfCompare (.eq a) a (compareEq (w.reg b) (w.reg c)))
  | .lt =>
    some (armOfCompare (.less true a (w.reg b) (w.reg c)) a
      (compareLtLe true (w.reg b) (w.reg c)))
  | .le =>
    some (armOfCompare (.less false a (w.reg b) (w.reg c)) a
      (compareLtLe false (w.reg b) (w.reg c)))
  | .loadRealmGlobal =>
    if o.flag then some (.next [(a, .obj o.id)] false)
    else some (.raise .typeError "global access: strand has no realm" false)
  | .loadRecv => some (.next [(a, w.frame.recv)] false)
  | .getslot =>
    some (armOfSite o w (ext + c) "slot access" (.out (.getslot a none)))
  | .self =>
    some (armOfSite o w (ext + c) "slot access" (.out (.getslot a (some (w.reg b)))))
  | .setslot | .setslotUpdate => some (armOfSetslot o w (ext + c) (w.reg b))
  | .throw => some (.throw (w.reg a))
  | .fork => some (armOfFork o w a b c)
  | .joinWait =>
    match w.reg a with
    | .strand _ => some (.joinWait o.flag)
    | _ => some (.raise .typeError "'&' (parallel join): join operand is not a strand" false)
  | .install => some (armOfInstall w a b)
  | .getslotChangeEvent =>
    some (armOfSite o w (ext + c) "slot-change event"
      (if !(w.reg b).isObj then
         .raise .typeError "slot-change event: receiver is not an Object" false
       else if o.grant 0 then .next [(a, .event o.id)] false
       else .raise .oomError "slot-change event: out of memory" false))
  | .scopeTry => some (.pushTry a bx)
  | .scopeTag => some (armOfTag o w a bx)
  | .scopePop => some (.scopePop a)
  | .loadCatchValue => some (.loadCatch a)
  | .resume => some .resume
  | .extarg => some (.extarg (bx * 2 ^ 8))
  | .unwindTo => some (.unwindTo a bx)

/-! ## Calls -/

def arityMsg (cl : UClosure L) (lo hi got : Nat) : String :=
  (cl.name.elim "" (· ++ ": ")) ++ "expected " ++ toString lo ++
    (if hi = lo then "" else if hi = 255 then " or more" else ".." ++ toString hi) ++
    " argument" ++ (if lo ≠ 1 ∨ hi ≠ 1 then "s" else "") ++ ", got " ++ toString got

def arityMsgProto (cl : UClosure L) (p : Fn L) (got : Nat) : String :=
  let n := p.val.block.nparams.toNat
  (cl.name.elim "" (· ++ ": ")) ++
    (if p.val.block.arityPrologue ∧ n > 0 then "expected at most " else "expected ") ++ toString n ++
    (if n = 1 then " argument, got " else " arguments, got ") ++ toString got

def arityOk (p : Fn L) (nargs : Nat) : Bool :=
  if p.val.block.arityPrologue then nargs ≤ p.val.block.nparams.toNat else nargs = p.val.block.nparams.toNat

inductive CallResult (L : CodeBase) where
  | raised (which : UErrorProto) (msg : String)
  | native
  | entered (s : UStrand L)

def enterProto (s : UStrand L) (o : Oracle L) (what : String) (cl : UClosure L) (p : Fn L)
    (recv : UValue L) (base retReg nargs : Nat) : CallResult L :=
  if !arityOk p nargs then .raised .arityError (arityMsgProto cl p nargs)
  else match s.pushFrameArgs o.grant cl p recv base retReg nargs with
    | .error .depth => .raised .oomError (what ++ ": call depth limit reached")
    | .error .oom => .raised .oomError (what ++ ": out of memory pushing a call frame")
    | .ok s => .entered (s.storeNargs p base nargs)

/-- A method call has its receiver between callee and arguments. -/
def doCall (s : UStrand L) (o : Oracle L) (f : UFrame L) (a b c : Nat) : CallResult L :=
  let isMethod := 0x80 ≤ c
  let argOff := if isMethod then 2 else 1
  if b < argOff then .raised .typeError "function call: malformed argument count"
  else match s.stack (f.base + a) with
    | .closure cl =>
      let nargs := b - argOff
      let self := if isMethod then s.stack (f.base + a + 1) else .nil
      match cl.code with
      | .native lo hi =>
        if nargs < lo ∨ hi < nargs then .raised .arityError (arityMsg cl lo hi nargs)
        else .native
      | .proto p => enterProto s o "function call" cl p self (f.base + a + argOff) a nargs
    | _ => .raised .typeError "function call: callee is not a closure"

end Urbi
