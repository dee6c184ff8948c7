import Mathlib.Data.List.Basic
import Mathlib.Tactic.Linarith

/-!
# Opcodes — the wire v2 instruction set

The 41 opcodes of `chunk/uopcodes.def`, the byte-aligned instruction word of `chunk/uchunk.h` and
the shape table of `chunk/uopcode_shape.c`.
-/

namespace Urbi

inductive UOpcode where
  | loadk | move | add | sub | mul | div | neg | ret
  | loadnil | loadbool | loadvoid | getupval | setupval | closure | close | call
  | jmp | test | testset | eq | lt | le | yield | fork
  | joinWait | getslot | setslot | setslotUpdate | self | getslotChangeEvent | extarg | throw
  | scopeTry | scopeTag | scopePop | unwindTo | resume | loadCatchValue | install
  | loadRealmGlobal | loadRecv
  deriving DecidableEq, Repr, Inhabited

namespace UOpcode

def table : List UOpcode :=
  [loadk, move, add, sub, mul, div, neg, ret,
   loadnil, loadbool, loadvoid, getupval, setupval, closure, close, call,
   jmp, test, testset, eq, lt, le, yield, fork,
   joinWait, getslot, setslot, setslotUpdate, self, getslotChangeEvent, extarg, throw,
   scopeTry, scopeTag, scopePop, unwindTo, resume, loadCatchValue, install,
   loadRealmGlobal, loadRecv]

def toNat : UOpcode → Nat
  | loadk => 0 | move => 1 | add => 2 | sub => 3 | mul => 4 | div => 5 | neg => 6 | ret => 7
  | loadnil => 8 | loadbool => 9 | loadvoid => 10 | getupval => 11 | setupval => 12
  | closure => 13 | close => 14 | call => 15 | jmp => 16 | test => 17 | testset => 18
  | eq => 19 | lt => 20 | le => 21 | yield => 22 | fork => 23 | joinWait => 24 | getslot => 25
  | setslot => 26 | setslotUpdate => 27 | self => 28 | getslotChangeEvent => 29 | extarg => 30
  | throw => 31 | scopeTry => 32 | scopeTag => 33 | scopePop => 34 | unwindTo => 35
  | resume => 36 | loadCatchValue => 37 | install => 38 | loadRealmGlobal => 39 | loadRecv => 40

def ofNat? (n : Nat) : Option UOpcode := table[n]?

end UOpcode

/-! ## Instruction words -/

def uinstrOp (i : UInt32) : Nat := i.toNat % 2 ^ 8
def uinstrA (i : UInt32) : Nat := i.toNat / 2 ^ 8 % 2 ^ 8
def uinstrB (i : UInt32) : Nat := i.toNat / 2 ^ 16 % 2 ^ 8
def uinstrC (i : UInt32) : Nat := i.toNat / 2 ^ 24 % 2 ^ 8
def uinstrBx (i : UInt32) : Nat := i.toNat / 2 ^ 16 % 2 ^ 16

def uinstrOpcode (i : UInt32) : Option UOpcode := UOpcode.ofNat? (uinstrOp i)

/-- `uinstr_enc_abc`: the operands arrive as `uint8_t`, so each is taken modulo 256. -/
def uinstrEncAbc (op : UOpcode) (a b c : Nat) : UInt32 :=
  UInt32.ofNat (op.toNat + a % 2 ^ 8 * 2 ^ 8 + b % 2 ^ 8 * 2 ^ 16 + c % 2 ^ 8 * 2 ^ 24)

def uinstrEncAbx (op : UOpcode) (a bx : Nat) : UInt32 :=
  UInt32.ofNat (op.toNat + a % 2 ^ 8 * 2 ^ 8 + bx % 2 ^ 16 * 2 ^ 16)

/-! ## The shape table -/

inductive UOpcodeFormat where
  | abc | abx
  deriving DecidableEq, Repr

inductive UOperandKind where
  | unused | reg | immBool | immFlags | upvalIdx | regOrNone | immMode | immSite | immDepth
  deriving DecidableEq, Repr

inductive UBxKind where
  | unused | poolIndex | nestedIndex | jumpSigned | handlerPc | symbolId | extarg
  deriving DecidableEq, Repr

structure UOpcodeShape where
  format : UOpcodeFormat
  aKind : UOperandKind
  bKind : UOperandKind
  cKind : UOperandKind
  bxKind : UBxKind
  deriving DecidableEq, Repr

private def abcShape (a b c : UOperandKind) : UOpcodeShape := ⟨.abc, a, b, c, .unused⟩
private def abxShape (a : UOperandKind) (bx : UBxKind) : UOpcodeShape :=
  ⟨.abx, a, .unused, .unused, bx⟩

def urbiOpcodeShapes : UOpcode → UOpcodeShape
  | .loadk => abxShape .reg .poolIndex
  | .move => abcShape .reg .reg .unused
  | .add | .sub | .mul | .div => abcShape .reg .reg .reg
  | .neg => abcShape .reg .reg .unused
  | .ret | .loadnil | .loadvoid | .close => abcShape .reg .unused .unused
  | .loadbool => abcShape .reg .immBool .immBool
  | .getupval | .setupval => abcShape .reg .upvalIdx .unused
  | .closure => abxShape .reg .nestedIndex
  | .call => abcShape .reg .reg .unused
  | .jmp => abxShape .unused .jumpSigned
  | .test => abcShape .reg .unused .immBool
  | .testset => abcShape .reg .reg .immBool
  | .eq | .lt | .le => abcShape .immBool .reg .reg
  | .yield | .resume => abcShape .unused .unused .unused
  | .fork => abcShape .reg .regOrNone .immBool
  | .joinWait | .throw | .loadCatchValue | .loadRealmGlobal | .loadRecv =>
    abcShape .reg .unused .unused
  | .getslot | .setslot | .setslotUpdate | .self | .getslotChangeEvent =>
    abcShape .reg .reg .immSite
  | .extarg => abxShape .unused .extarg
  | .scopeTry => abxShape .immFlags .handlerPc
  | .scopeTag => abxShape .regOrNone .handlerPc
  | .scopePop => abcShape .immFlags .unused .unused
  | .unwindTo => abxShape .immDepth .handlerPc
  | .install => abcShape .reg .immMode .immFlags

/-! ## Operand constants (wire-format frozen) -/

def uscopeFHasCatch : Nat := 0x1
def uscopeFHasFinally : Nat := 0x2
def uscopePopTry : Nat := 0x1
def uscopePopTag : Nat := 0x2
def uscopePopRunFinally : Nat := 0x4
def uscopeNoReg : Nat := 0xFF
def uforkDetach : Nat := 0
def uforkJoin : Nat := 1
def uinstallAtCond : Nat := 1
def uinstallAtSyncCond : Nat := 2
def uinstallWheneverCond : Nat := 3
def uinstallAtEvent : Nat := 4
def uinstallAtSyncEvent : Nat := 5
def uinstallWheneverEvent : Nat := 6
def uinstallWaituntil : Nat := 7
def uinstallFHasBody : Nat := 0x1
def uinstallFHasAlt : Nat := 0x2
def ucallCMethod : Nat := 0x80

def ujmpBias : Nat := 32768

end Urbi
