import Urbi.Lib.Capacity
import Urbi.Sched.Apart
import Urbi.Sched.Machine

/-!
# The timer heap

Every way the scheduler has of changing the timer records leaves a heap.  Firing what is due handles
every record that is due once.  Waking a strand also takes a sleeper record of its off the heap, which
is one too many when it has two.
-/

namespace Urbi.Sched

open Urbi.Lib

namespace USched

end USched

/-! ## What changes the heap -/

namespace USched

variable (q : USched)

variable {q}

structure Roomy (q : USched) : Prop where
  len : q.heap.length ≤ q.heapCap.toNat
  cap : Doubling 31 q.heapCap.toNat

end USched

/-! ## Firing what is due -/

def USched.bare (q : USched) : USched := { q with heap := [] }

/-- Without its timers. -/
def World.bare (w : World) : World := w.on USched.bare

namespace USched

end USched

/-- A record is kept until it is due; then a sleeper's goes, and a periodic's is armed again. -/
def UTimer.next (now : Nat) (t : UTimer) : List UTimer :=
  if now < t.due then [t]
  else if t.period = 0 then []
  else [{ t with due := if now < t.due + t.period then t.due + t.period else now + t.period }]

namespace UTimer

variable {now : Nat} {t : UTimer}

end UTimer

namespace World

variable {w w' : World} {now : Nat} {t : UTimer} {granted : Bool} {rest : List UTimer}

/-- The strand of a sleeper is parked and has another record. -/
def Twice (w : World) (t : UTimer) (rest : List UTimer) : Prop :=
  t.period = 0 ∧ ∃ s, t.strand = some s ∧ w.state s = .parked ∧
    ∃ u ∈ rest, USched.isSleeper s u = true

structure Turn (now : Nat) (w : World) (t : UTimer) (granted : Bool) (rest : List UTimer)
    (w' : World) : Prop where
  heap : w.sched.heap = t :: rest
  due : t.due ≤ now
  single : ¬ w.Twice t rest → w'.sched.heap.Perm (t.next now ++ rest)
  -- with the record goes another one
  double : w.Twice t rest → ∃ u, rest.Perm (u :: w'.sched.heap)
  -- a strand that has a record and is not woken
  strands : ∀ s, s < w.sched.nstrands → USched.isSleeper s t = false ∨ w.state s ≠ .parked →
    w'.sched.strand s = w.sched.strand s
  served : w'.bare = w.bare.serve t granted

/-- What the call for a record does to the other records and to the strands. -/
structure Answered (t : UTimer) (w w' : World) : Prop where
  kept : ¬ w.Twice t w.sched.heap → w'.sched.heap = w.sched.heap
  gone : w.Twice t w.sched.heap → ∃ u, w.sched.heap.Perm (u :: w'.sched.heap)
  ordered : Heap.Ordered UTimer.due w.sched.heap → Heap.Ordered UTimer.due w'.sched.heap
  nstrands : w.sched.nstrands ≤ w'.sched.nstrands
  strands : ∀ s, s < w.sched.nstrands → USched.isSleeper s t = false ∨ w.state s ≠ .parked →
    w'.sched.strand s = w.sched.strand s

end World

end Urbi.Sched
