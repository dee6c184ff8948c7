import Urbi.Sched.Queue

/-!
# What a queue operation leaves alone

An operation of the scheduler's lists is for one strand: it writes to no other, and what it does to
the timers is to drop the sleeper record of that strand.
-/

namespace Urbi.Sched.USched

open Urbi.Lib

@[simp] theorem relink_nstrands (q : USched) (k t) : (q.relink k t).nstrands = q.nstrands := rfl
@[simp] theorem relink_heap (q : USched) (k t) : (q.relink k t).heap = q.heap := rfl

section Keeps

variable {α : Type} {f : USched → α} (hset : ∀ q s g, f (set q s g) = f q)
  (hlink : ∀ q k t, f (relink q k t) = f q)

include hset hlink

end Keeps

variable {q : USched} {s : StrandId}

end Urbi.Sched.USched
