import Mathlib.Data.List.Basic
import Mathlib.Logic.Function.Basic

/-!
# Lists threaded through one link field

Several singly linked lists share the link field of their nodes: a node is on at most one of them,
and which one is written nowhere.
-/

namespace Urbi.Lib

universe u v


structure Linked (α : Type u) (ι : Type v) where
  link : α → Option α
  head : ι → Option α

namespace Linked

variable {α : Type u} {ι : Type v} [DecidableEq α] [DecidableEq ι]

def clear (k : Linked α ι) (x : α) : Linked α ι := { k with link := Function.update k.link x none }

def push (k : Linked α ι) (i : ι) (x : α) : Linked α ι where
  link := Function.update k.link x (k.head i)
  head := Function.update k.head i (some x)

def pop (k : Linked α ι) (i : ι) (x : α) : Linked α ι where
  link := Function.update k.link x none
  head := Function.update k.head i (k.link x)

def snoc (k : Linked α ι) (i : ι) (tail : Option α) (x : α) : Linked α ι :=
  match tail with
  | some t => { k with link := Function.update (Function.update k.link x none) t (some x) }
  | none =>
    { link := Function.update k.link x none, head := Function.update k.head i (some x) }

/-- Nothing when `x` is not met within `fuel` nodes. -/
def before (k : Linked α ι) (x : α) : Nat → Option α → Option α → Option (Option α)
  | 0, _, _ => none
  | _ + 1, _, none => none
  | fuel + 1, prev, some c => if c = x then some prev else k.before x fuel (some c) (k.link c)

def cut (k : Linked α ι) (i : ι) (prev : Option α) (x : α) : Linked α ι :=
  match prev with
  | some p => { k with link := Function.update (Function.update k.link p (k.link x)) x none }
  | none =>
    { link := Function.update k.link x none, head := Function.update k.head i (k.link x) }

end Linked

end Urbi.Lib
