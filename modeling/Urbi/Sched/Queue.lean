import Urbi.Lib.Heap
import Urbi.Lib.Linked
import Urbi.Rt.Strand

/-!
# The run queue, the wait lists and the timer heap

The run queue, the list a strand waits on and the list of the dead share its link field; whether it is
queued is read off that field and the queue's tail.  A strand is named by a number that is never given
to another one.
-/

namespace Urbi.Sched

open Urbi.Lib

abbrev StrandId := Nat
abbrev TagId := Nat
abbrev EventId := Nat
abbrev RealmId := Nat
abbrev WatcherId := Nat

inductive WaitList where
  | joiners (c : StrandId)
  | event (e : EventId)
  | watcher (x : WatcherId)
  deriving DecidableEq, Repr

inductive Place where
  | queue
  | wait (l : WaitList)
  | dead
  deriving DecidableEq, Repr

structure UStrand where
  state : UStrandState
  waitingOn : Option WaitList
  gates : UInt8
  isSpare : Bool
  nboundary : Nat
  deriving DecidableEq, Repr

structure UTimer where
  due : Nat
  period : Nat
  strand : Option StrandId
  tag : Option TagId
  realm : RealmId
  deriving DecidableEq, Repr

structure USched where
  strand : StrandId → UStrand
  nstrands : Nat
  links : Linked StrandId Place
  runTail : Option StrandId
  heap : List UTimer
  heapCap : UInt32
  heapFreed : Bool

namespace USched

def runHead (q : USched) : Option StrandId := q.links.head .queue

def set (q : USched) (s : StrandId) (f : UStrand → UStrand) : USched :=
  { q with strand := Function.update q.strand s (f (q.strand s)) }

def relink (q : USched) (links : Linked StrandId Place) (tail : Option StrandId) : USched :=
  { q with links := links, runTail := tail }

/-! ## The run queue -/

/-- Queued already is "the tail, or linked". -/
def enqueue (q : USched) (s : StrandId) : USched :=
  if (q.strand s).state = .dead then q
  else if q.runTail = some s ∨ (q.links.link s).isSome then q
  else if (q.strand s).gates ≠ 0 then
    -- held by a gate: one that is parked already may be on a wait list or a timer
    if (q.strand s).state ≠ .parked then
      q.set s fun r => { r with state := .parked, waitingOn := none }
    else q
  else
    (q.set s fun r => { r with state := .ready, waitingOn := none }).relink
      (q.links.snoc .queue q.runTail s) (some s)

/-- The walk from the head to `s`, and the cut behind the node before. -/
def unqueue (q : USched) (s : StrandId) : USched :=
  match q.links.before s q.nstrands none (q.links.head .queue) with
  | none => q
  | some prev =>
    q.relink (q.links.cut .queue prev s) (if q.runTail = some s then prev else q.runTail)

def dequeue (q : USched) : Option (StrandId × USched) :=
  match q.links.head .queue with
  | none => none
  | some s =>
    some (s, q.relink (q.links.pop .queue s)
      (if (q.links.link s).isNone then none else q.runTail))

/-! ## Park and wake -/

def mayDeschedule (q : USched) (s : StrandId) : Bool :=
  !(q.strand s).isSpare && (q.strand s).nboundary = 0

/-- Refused for a strand that may not be descheduled. -/
def park (q : USched) (s : StrandId) (l : Option WaitList) : Option USched :=
  if q.mayDeschedule s then
    some ((q.set s fun r => { r with state := .parked, waitingOn := l }).relink
      (match l with
        | none => q.links.clear s
        | some l => (q.links.clear s).push (.wait l) s)
      q.runTail)
  else none

def unlinkWait (q : USched) (s : StrandId) : USched :=
  match (q.strand s).waitingOn with
  | none => q
  | some l =>
    (q.set s fun r => { r with waitingOn := none }).relink
      (match q.links.before s q.nstrands none (q.links.head (.wait l)) with
        | some prev => q.links.cut (.wait l) prev s
        | none => q.links.clear s)
      q.runTail

def isSleeper (s : StrandId) (t : UTimer) : Bool := t.period == 0 && t.strand == some s

def findSleeper (q : USched) (s : StrandId) : Option Nat := q.heap.findIdx? (isSleeper s)

def hasTimer (q : USched) (s : StrandId) : Bool := (q.findSleeper s).isSome

def dropSleeper (q : USched) (s : StrandId) : USched :=
  match q.findSleeper s with
  | none => q
  | some i => { q with heap := Heap.removeAt UTimer.due q.heap i }

def wake (q : USched) (s : StrandId) : USched :=
  if (q.strand s).state ≠ .parked then q
  else
    let q := (q.unlinkWait s).dropSleeper s
    -- a gate still held leaves the strand parked with nothing to wait for
    if (q.strand s).gates ≠ 0 then q.relink (q.links.clear s) q.runTail
    else q.enqueue s

def wakeAll (l : WaitList) : Nat → USched → USched
  | 0, q => q
  | fuel + 1, q =>
    match q.links.head (.wait l) with
    | none => q
    | some s =>
      wakeAll l fuel (((q.set s fun r => { r with waitingOn := none }).relink
        (q.links.pop (.wait l) s) q.runTail).wake s)

/-! ## Spawning, dying -/

/-- A strand like `ustrand_new` makes one, under the gate bits of its tag. -/
def spawn (q : USched) (bits : UInt8) : USched :=
  let s := q.nstrands
  let q := { q with nstrands := s + 1 }
  (q.set s fun _ => ⟨.parked, none, bits, false, 0⟩).enqueue s

def acquire (q : USched) : USched :=
  { q with nstrands := q.nstrands + 1 }.set q.nstrands fun _ => ⟨.ready, none, 0, true, 0⟩

/-- The joiners are woken, then the strand goes on the list of the dead. -/
def onDeath (q : USched) (s : StrandId) : USched :=
  let q := q.set s fun r => { r with state := .dead }
  let q := q.wakeAll (.joiners s) q.nstrands
  q.relink (q.links.push .dead s) q.runTail

/-! ## Timers -/

def grownCap (cap : UInt32) : UInt32 := if cap = 0 then 4 else cap * 2

/-- `granted` is the allocator's answer when the array has to grow.  Twice `2^31` is a request for no
bytes: the block is freed under the array, and the null answer is taken for a refusal. -/
def timerAdd (q : USched) (t : UTimer) (granted : Bool) : USched × Bool :=
  let added := { q with heap := Heap.add UTimer.due q.heap t }
  if q.heap.length = q.heapCap.toNat then
    if grownCap q.heapCap = 0 then ({ q with heapFreed := true }, false)
    else if granted then ({ added with heapCap := grownCap q.heapCap }, true)
    else (q, false)
  else (added, true)

/-- The keepers, rebuilt into a heap when one is gone. -/
def timersKeep (q : USched) (keep : UTimer → Bool) : USched :=
  let kept := q.heap.filter keep
  { q with heap := if kept.length = q.heap.length then q.heap else Heap.rebuild UTimer.due kept }

def timersDropTag (q : USched) (t : TagId) : USched :=
  q.timersKeep fun r => !(r.period != 0 && r.tag == some t)

def timersDropRealm (q : USched) (r : RealmId) : USched := q.timersKeep fun t => t.realm != r

end USched

end Urbi.Sched
