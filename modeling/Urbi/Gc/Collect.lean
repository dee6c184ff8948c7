import Mathlib.Data.List.Basic
import Urbi.Lib.StateExcept
import Urbi.Lib.Tricolor

/-!
# The collector

`ugc_collect` over an abstract heap.  The allocator may refuse any growth of the gray stack, whose
capacity is a 32-bit number that the code doubles; a request for no bytes frees the block it is made
for.
-/

namespace Urbi

open Lib (Color)

/-! ## State -/

structure CellGraph (κ : Type) where
  -- what `mark_fixed` marks, in order
  fixed : List κ
  -- what `trace` marks for a cell, in order; absent references left out
  children : κ → List κ
  -- either pin bit
  pinned : κ → Bool
  size : κ → UInt32

structure UGc (κ : Type) where
  all : List κ
  marked : κ → Color
  -- top first
  gray : List κ
  grayCap : UInt32
  -- the block behind `gray` has gone back to the allocator
  grayFreed : Bool
  grayOverflow : Bool
  -- how often growth has been asked for
  asked : Nat
  inCollect : Bool
  collectRequested : Bool
  rawLive : UInt64
  bytesLive : UInt64
  bytesSince : UInt64
  paceBase : UInt64
  cellsLive : UInt32
  cycles : UInt32

inductive Halt where
  | freed
  | fuel
  deriving DecidableEq, Repr

inductive SweepEvent (κ : Type) where
  | finalize (c : κ)
  | free (c : κ)
  deriving DecidableEq, Repr

namespace UGc

variable {κ : Type} [DecidableEq κ] (alloc : Nat → Bool) (h : CellGraph κ)

def paint (g : UGc κ) (c : κ) (k : Color) : UGc κ :=
  { g with marked := Function.update g.marked c k }

@[simp] theorem paint_self (g : UGc κ) (c : κ) (k : Color) : (g.paint c k).marked c = k := by
  show Function.update g.marked c k c = k
  exact Function.update_self _ _ _

theorem paint_of_ne (g : UGc κ) {c x : κ} (k : Color) (hx : x ≠ c) :
    (g.paint c k).marked x = g.marked x := by
  show Function.update g.marked c k x = g.marked x
  exact Function.update_of_ne hx _ _

/-! ## Marking -/

def nextCap (cap : UInt32) : UInt32 := if cap ≠ 0 then cap * 2 else 64

def pushGray (g : UGc κ) (c : κ) : Except Halt (UGc κ) :=
  -- a freed block can be neither grown nor written to
  if g.grayFreed then .error .freed
  else if g.gray.length = g.grayCap.toNat then
    if nextCap g.grayCap = 0 then
      -- no bytes: the block is freed and the answer is null
      .ok { g with grayFreed := true, grayOverflow := true }
    else if alloc g.asked then
      .ok { g with gray := c :: g.gray, grayCap := nextCap g.grayCap, asked := g.asked + 1 }
    else .ok { g with grayOverflow := true, asked := g.asked + 1 }
  else .ok { g with gray := c :: g.gray }

def ugcMark (g : UGc κ) (c : κ) : Except Halt (UGc κ) :=
  if g.marked c ≠ .white then .ok g else (g.paint c .gray).pushGray alloc c

def markAll : List κ → UGc κ → Except Halt (UGc κ)
  | [], g => .ok g
  | c :: cs, g => g.ugcMark alloc c >>= markAll cs

def traceCell (c : κ) (g : UGc κ) : Except Halt (UGc κ) :=
  markAll alloc (h.children c) g >>= fun g => .ok (g.paint c .black)

def drain : Nat → UGc κ → Except Halt (UGc κ)
  | 0, _ => .error .fuel
  | fuel + 1, g =>
    match g.gray with
    | [] => .ok g
    | c :: rest =>
      if g.grayFreed then .error .freed
      else traceCell alloc h c { g with gray := rest } >>= drain fuel

def rescan : List κ → UGc κ → Except Halt (UGc κ)
  | [], g => .ok g
  | c :: cs, g =>
    if g.marked c = .gray then traceCell alloc h c g >>= rescan cs else rescan cs g

def markLoop (steps : Nat) : Nat → UGc κ → Except Halt (UGc κ)
  | 0, _ => .error .fuel
  | fuel + 1, g =>
    drain alloc h steps g >>= fun g =>
      if g.grayOverflow = false then .ok g
      else rescan alloc h g.all { g with grayOverflow := false } >>= markLoop steps fuel

/-! ## Sweeping -/

structure Sweep (κ : Type) where
  kept : List κ
  events : List (SweepEvent κ)
  marked : κ → Color
  live : UInt64
  n : UInt32

def sweepCell (s : Sweep κ) (c : κ) : Sweep κ :=
  if s.marked c ≠ .white then
    { s with
      marked := Function.update s.marked c .white
      live := s.live + (h.size c).toUInt64
      n := s.n + 1
      kept := s.kept ++ [c] }
  else { s with events := s.events ++ [.finalize c, .free c] }

def sweep (g : UGc κ) : Sweep κ := g.all.foldl (sweepCell h) ⟨[], [], g.marked, 0, 0⟩

/-! ## A collection -/

def markPhase (fuel : Nat) (g : UGc κ) : Except Halt (UGc κ) :=
  markAll alloc h.fixed { g with inCollect := true, gray := [], grayOverflow := false } >>= fun g =>
    markAll alloc (g.all.filter h.pinned) g >>= markLoop alloc h fuel fuel

def afterSweep (g : UGc κ) (s : Sweep κ) : UGc κ :=
  { g with
    all := s.kept
    marked := s.marked
    bytesLive := s.live + g.rawLive
    paceBase := s.live + g.rawLive
    cellsLive := s.n
    bytesSince := 0
    cycles := g.cycles + 1
    collectRequested := false
    inCollect := false }

def ugcCollect (fuel : Nat) (g : UGc κ) : Except Halt (UGc κ × List (SweepEvent κ)) :=
  if g.inCollect then .ok (g, [])
  else markPhase alloc h fuel g >>= fun g => .ok (g.afterSweep (g.sweep h), (g.sweep h).events)

end UGc

end Urbi
