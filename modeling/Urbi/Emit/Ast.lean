import Urbi.Chunk.Proto

/-!
# The syntax tree

`UAstNode` of `parse/uast.h`, as the emitter reads it: columns feed diagnostics only and are left
out, a nullable child is an `Option`, and a parameter carries its default beside it.  `AST_PARAM`
occurs only inside a parameter list, so it is no constructor.
-/

namespace Urbi

inductive UAstUnaryOp where
  | neg | not
  deriving DecidableEq, Repr

inductive UAstBinaryOp where
  | add | sub | mul | div
  deriving DecidableEq, Repr

inductive UAstSeparator where
  | pipe | amp | semi | comma
  deriving DecidableEq, Repr

inductive UAstCompareOp where
  | eq | neq | lt | le | gt | ge
  deriving DecidableEq, Repr

inductive UWatcherMode where
  | at | whenever | atSync | waituntil
  deriving DecidableEq, Repr

inductive UAstWatchSource where
  | cond | event | slotChange
  deriving DecidableEq, Repr

structure UParam where
  line : Nat
  name : Bytes
  isLazy : Bool
  deriving DecidableEq, Repr

inductive UAstNode where
  | int (line : Nat) (i : Int64)
  | floatLit (line : Nat) (bits : UInt64)
  | str (line : Nat) (bytes : Bytes)
  | bool (line : Nat) (b : Bool)
  | nil (line : Nat)
  | noop (line : Nat)
  | this (line : Nat)
  | ident (line : Nat) (name : Bytes)
  | varDecl (line : Nat) (name : Bytes) (init : Option UAstNode)
  | assign (line : Nat) (name : Bytes) (value : UAstNode)
  | memberGet (line : Nat) (recv : UAstNode) (name : Bytes)
  | memberSet (line : Nat) (recv : UAstNode) (name : Bytes) (value : UAstNode)
  | unary (line : Nat) (op : UAstUnaryOp) (operand : UAstNode)
  | binary (line : Nat) (op : UAstBinaryOp) (lhs rhs : UAstNode)
  | compare (line : Nat) (op : UAstCompareOp) (lhs rhs : UAstNode)
  | logical (line : Nat) (isOr : Bool) (lhs rhs : UAstNode)
  | call (line : Nat) (callee : UAstNode) (args : List UAstNode)
  | function (line : Nat) (params : List (UParam × Option UAstNode)) (body : UAstNode)
  | seq (line : Nat) (separator : UAstSeparator) (children : List UAstNode)
  | block (line : Nat) (stmts : List UAstNode)
  | ifStmt (line : Nat) (cond thenBlock : UAstNode) (elseBlock : Option UAstNode)
  | whileStmt (line : Nat) (cond body : UAstNode)
  | switchStmt (line : Nat) (expr : UAstNode) (cases : List (UAstNode × UAstNode))
      (defaultBody : Option UAstNode)
  | breakStmt (line : Nat)
  | continueStmt (line : Nat)
  | ret (line : Nat) (value : Option UAstNode)
  | throwExpr (line : Nat) (value : UAstNode)
  | tryStmt (line : Nat) (body : UAstNode) (catchVar : Option Bytes)
      (catchBody catchGuard elseBody finallyBody : Option UAstNode)
  | tagPrefix (line : Nat) (tagExpr : Option UAstNode) (body : UAstNode)
      (onleave : Option UAstNode)
  | watcher (line : Nat) (mode : UWatcherMode) (source : UAstWatchSource) (cond : UAstNode)
      (slotName : Bytes) (body elseBody onleave : Option UAstNode) (payloadVar : Option Bytes)
  | error (line : Nat)

namespace UAstNode

def line : UAstNode → Nat
  | int l _ | floatLit l _ | str l _ | bool l _ | nil l | noop l | this l | ident l _
  | varDecl l _ _ | assign l _ _ | memberGet l _ _ | memberSet l _ _ _ | unary l _ _
  | binary l _ _ _ | compare l _ _ _ | logical l _ _ _ | call l _ _ | function l _ _ | seq l _ _
  | block l _ | ifStmt l _ _ _ | whileStmt l _ _ | switchStmt l _ _ _ | breakStmt l
  | continueStmt l | ret l _ | throwExpr l _ | tryStmt l _ _ _ _ _ _ | tagPrefix l _ _ _
  | watcher l _ _ _ _ _ _ _ _ | error l => l

end UAstNode

def ascii (s : String) : Bytes := s.toList.map fun c => UInt8.ofNat c.toNat

end Urbi
