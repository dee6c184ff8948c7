import Urbi.Chunk.Proto
import Urbi.Lib.Binary64

/-!
# Run-time values

`UValue` as the dispatch loop sees it.  Objects and cells are identities; what the heap holds behind
them enters the machine as an answer of its environment.  A closure carries its code.
-/

namespace Urbi

open Lib

inductive UErrorProto where
  | typeError | arityError | oomError | divByZero
  deriving DecidableEq, Repr

/-- `positioned` says whether the message starts with the source position. -/
structure UException where
  which : UErrorProto
  msg : String
  positioned : Bool
  line : Nat
  deriving DecidableEq, Repr

/-- Closed under the nested functions `CLOSURE` instantiates.  Everything below is built over one,
so a value can only hold code the VM was given. -/
structure CodeBase where
  has : UProto → Prop
  nested : ∀ {p q : UProto}, has p → some q ∈ p.nested → has q

def noCode : CodeBase where
  has _ := False
  nested h _ := h

abbrev Fn (L : CodeBase) : Type := { p : UProto // L.has p }

/-- A function of a chunk, or a native with its accepted argument counts. -/
inductive UCode (L : CodeBase) where
  | proto (p : Fn L)
  | native (minArgs maxArgs : Nat)

structure UClosure (L : CodeBase) where
  id : Nat
  code : UCode L
  nupvals : Nat
  name : Option String

/-- `UV_STR` and `UV_SYM` are one constructor: every reader treats them alike. -/
inductive UValue (L : CodeBase) where
  | nil
  | void
  | bool (b : Bool)
  | int (i : Int64)
  | float (bits : UInt64)
  | str (bytes : Bytes)
  | obj (id : Nat)
  | exception (id : Nat) (e : UException)
  | closure (c : UClosure L)
  | tag (t : Nat)
  | event (e : Nat)
  | strand (s : Nat)
  | cell (id : Nat)

variable {L : CodeBase}

namespace UValue

def isObj : UValue L → Bool
  | .obj _ | .exception _ _ => true
  | _ => false

def isNumber : UValue L → Bool
  | .int _ | .float _ => true
  | _ => false

def isStr : UValue L → Bool
  | .str _ => true
  | _ => false

def asDouble : UValue L → UInt64
  | .int i => Binary64.ofInt i.toInt
  | .float bits => bits
  | _ => 0

def truthy : UValue L → Bool
  | .nil | .void => false
  | .bool b => b
  | .int i => i != 0
  | .float bits => !Binary64.isZero bits
  | _ => true

def identity : UValue L → Option (Bool × Nat)
  | .obj id | .exception id _ => some (true, id)
  | .closure c => some (false, c.id)
  | .tag id | .event id | .strand id | .cell id => some (false, id)
  | _ => none

def equal : UValue L → UValue L → Bool
  | .int i, .int j => i == j
  | .nil, .nil => true
  | .void, .void => true
  | .bool b, .bool c => b == c
  | .str s, .str t => s == t
  | a, b =>
    if a.isNumber && b.isNumber then Binary64.eq a.asDouble b.asDouble
    else match a.identity, b.identity with
      | some x, some y => x == y
      | _, _ => false

/-- The operand-type names of the diagnostics. -/
def kindName : UValue L → String
  | .nil => "Nil"
  | .int _ => "Integer"
  | .float _ => "Float"
  | .bool _ => "Bool"
  | .str _ => "String"
  | _ => "unknown"

def ofConst : UConst → UValue L
  | .nil => .nil
  | .int i => .int i
  | .float bits => .float bits
  | .bool b => .bool b
  | .str bytes => .str bytes

end UValue

/-! ## Arithmetic and comparison -/

inductive UArithOp where
  | add | sub | mul | div
  deriving DecidableEq, Repr

def UArithOp.glyph : UArithOp → String
  | .add => "'+'"
  | .sub => "'-'"
  | .mul => "'*'"
  | .div => "'/'"

inductive UOpResult (α : Type) where
  | value (a : α)
  | divByZero
  | dispatch

/-- `none` is an overflow. -/
def checkedInt (i : Int) : Option Int64 :=
  if -2 ^ 63 ≤ i ∧ i < 2 ^ 63 then some (Int64.ofInt i) else none

def doubleOp : UArithOp → UInt64 → UInt64 → UInt64
  | .add => Binary64.add
  | .sub => Binary64.sub
  | .mul => Binary64.mul
  | .div => Binary64.div

/-- `+ - *` promote to Float on overflow, `/` always divides as Float. -/
def arithInt (op : UArithOp) (b c : Int64) : UOpResult (UValue L) :=
  let promoted := UValue.float (doubleOp op (Binary64.ofInt b.toInt) (Binary64.ofInt c.toInt))
  match op with
  | .add => .value (((checkedInt (b.toInt + c.toInt)).map UValue.int).getD promoted)
  | .sub => .value (((checkedInt (b.toInt - c.toInt)).map UValue.int).getD promoted)
  | .mul => .value (((checkedInt (b.toInt * c.toInt)).map UValue.int).getD promoted)
  | .div => if c = 0 then .divByZero else .value promoted

def arith (op : UArithOp) (b c : UValue L) : UOpResult (UValue L) :=
  match op, b, c with
  | op, .int i, .int j => arithInt op i j
  | .add, .str s, .str t => .value (.str (s ++ t))
  | op, b, c =>
    if b.isNumber && c.isNumber then
      if op = .div && Binary64.isZero c.asDouble then .divByZero
      else .value (.float (doubleOp op b.asDouble c.asDouble))
    else .dispatch

def negate : UValue L → UOpResult (UValue L)
  | .int i =>
    .value (((checkedInt (-i.toInt)).map UValue.int).getD
      (.float (Binary64.neg (Binary64.ofInt i.toInt))))
  | .float bits => .value (.float (Binary64.neg bits))
  | _ => .dispatch

/-- `memcmp`, then the lengths. -/
def strLess : Bytes → Bytes → Bool
  | [], [] => false
  | [], _ :: _ => true
  | _ :: _, [] => false
  | x :: xs, y :: ys => if x = y then strLess xs ys else x < y

/-- Up to the object dispatch; `strict` is `OP_LT`. -/
def compareLtLe (strict : Bool) : UValue L → UValue L → UOpResult Bool
  | .str s, .str t => .value (if strict then strLess s t else !strLess t s)
  | b, c =>
    if b.isNumber && c.isNumber then
      .value (if strict then Binary64.lt b.asDouble c.asDouble
        else Binary64.le b.asDouble c.asDouble)
    else .dispatch

/-- An object on the left is asked first. -/
def compareEq (b c : UValue L) : UOpResult Bool :=
  if b.isObj then .dispatch else .value (b.equal c)

end Urbi
