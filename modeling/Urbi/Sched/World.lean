import Urbi.Sched.Queue

/-!
# Tags, realms, watchers

The state around the scheduler, and the operations on it that run no script.  `trace` is read by
nothing: it records, newest first, what the statements about whole runs speak of.
-/

namespace Urbi.Sched

structure TagScope where
  tag : TagId
  saved : Option TagId
  deriving DecidableEq, Repr

inductive Pending where
  | none
  | stop (t : Option TagId)
  | other
  deriving DecidableEq, Repr

structure Ambient where
  unwind : Pending
  tag : Option TagId
  scopes : List TagScope
  realm : RealmId
  fastYields : Nat
  deriving DecidableEq, Repr

inductive WatchMode where
  | atAsync | atSync | whenever | waituntil | once
  deriving DecidableEq, Repr

structure UWatcher where
  mode : WatchMode
  armed : Bool
  last : Bool
  fired : Bool
  leavePending : Bool
  cond : Bool
  body : Bool
  onleave : Bool
  hostCb : Bool
  event : Option EventId
  tag : Option TagId
  realm : RealmId
  bodyStrand : Option StrandId
  deriving DecidableEq, Repr

def UWatcher.new (mode : WatchMode) (realm : RealmId) (tag : Option TagId) : UWatcher where
  mode := mode
  armed := true
  last := false
  fired := false
  leavePending := false
  cond := false
  body := false
  onleave := false
  hostCb := false
  event := none
  tag := tag
  realm := realm
  bodyStrand := none

/-- What the watchers ask and start, and the deaths of strands. -/
inductive Obs where
  | died (c : StrandId)
  /-- The condition of `x` is evaluated, by a drain or after the death of a body, and gives `v`. -/
  | found (x : WatcherId) (v : Bool)
  /-- `c` is spawned with the body of `x`, or with its else arm. -/
  | bodyOf (x : WatcherId) (c : StrandId)
  | elseOf (x : WatcherId) (c : StrandId)
  deriving DecidableEq, Repr

structure World where
  sched : USched
  ambient : StrandId → Ambient
  current : Option StrandId
  flags : TagId → UInt8
  enter : TagId → Option EventId
  leave : TagId → Option EventId
  realms : List RealmId
  nrealms : Nat
  rootTag : RealmId → Option TagId
  members : RealmId → List StrandId
  watcher : WatcherId → UWatcher
  nwatchers : Nat
  all : List WatcherId
  subs : EventId → List WatcherId
  ndirty : Nat
  draining : Bool
  isr : List EventId
  trace : List Obs

namespace World

def note (w : World) (o : Obs) : World := { w with trace := o :: w.trace }

def on (w : World) (f : USched → USched) : World := { w with sched := f w.sched }

def setStrand (w : World) (s : StrandId) (f : UStrand → UStrand) : World := w.on (·.set s f)

def setAmbient (w : World) (s : StrandId) (f : Ambient → Ambient) : World :=
  { w with ambient := Function.update w.ambient s (f (w.ambient s)) }

def setWatcher (w : World) (x : WatcherId) (f : UWatcher → UWatcher) : World :=
  { w with watcher := Function.update w.watcher x (f (w.watcher x)) }

def state (w : World) (s : StrandId) : UStrandState := (w.sched.strand s).state

/-- The count saturates. -/
def markDirty (w : World) : World :=
  { w with ndirty := if w.ndirty = 0xFFFFFFFF then w.ndirty else w.ndirty + 1 }

def wakeAll (w : World) (l : WaitList) : World := w.on fun q => q.wakeAll l q.nstrands

/-! ## Tags -/

/-- The blocked and the frozen bit of a tag. -/
def gateBits (w : World) : Option TagId → UInt8
  | none => 0
  | some t => w.flags t &&& 3

/-- The ambient tag, or one that an open scope displaced. -/
def covers (w : World) (s : StrandId) (t : TagId) : Bool :=
  (w.ambient s).tag == some t || (w.ambient s).scopes.any fun c => c.saved == some t

def strandGateBits (w : World) (s : StrandId) : UInt8 :=
  (w.ambient s).scopes.foldl (fun g c => g ||| w.gateBits c.saved) (w.gateBits (w.ambient s).tag)

def everyone (w : World) : List StrandId := w.realms.flatMap w.members

/-! ## Watchers -/

def keeps (x : UWatcher) : Bool := x.armed || (x.leavePending && x.bodyStrand.isSome)

/-- Off the list and off its event, and its waiters woken. -/
def sweepOne (w : World) (x : WatcherId) : World :=
  if keeps (w.watcher x) then w
  else
    let subs := match (w.watcher x).event with
      | none => w.subs
      | some e => Function.update w.subs e ((w.subs e).erase x)
    let w := { w with all := w.all.erase x, subs := subs }
    (w.setWatcher x fun r => { r with event := none }).wakeAll (.watcher x)

/-- Nothing while a walk is in progress. -/
def sweep (w : World) : World := if w.draining then w else w.all.foldl sweepOne w

def disarm (w : World) (sel : UWatcher → Bool) : World :=
  sweep (w.all.foldl (fun w x =>
    if sel (w.watcher x) then w.setWatcher x fun r => { r with armed := false, leavePending := false }
    else w) w)

/-- Appended to the list of all. -/
def newWatcher (w : World) (r : UWatcher) : World :=
  { w with
    watcher := Function.update w.watcher w.nwatchers r
    nwatchers := w.nwatchers + 1
    all := w.all ++ [w.nwatchers] }

/-! ## Spawning, dying -/

/-- A refusal leaves nothing behind. -/
def spawn (w : World) (realm : RealmId) (tag : Option TagId) (granted : Bool) :
    World × Option StrandId :=
  if granted then
    let s := w.sched.nstrands
    ({ w with
        sched := w.sched.spawn (w.gateBits tag)
        ambient := Function.update w.ambient s ⟨.none, tag, [], realm, 0⟩
        members := Function.update w.members realm (s :: w.members realm) }, some s)
  else (w, none)

def acquire (w : World) (realm : RealmId) (tag : Option TagId) : World × StrandId :=
  let s := w.sched.nstrands
  ({ w with
      sched := w.sched.acquire
      ambient := Function.update w.ambient s ⟨.none, tag, [], realm, 0⟩ }, s)

/-- Up to `uwatch_body_done`. -/
def onDeath (w : World) (s : StrandId) : World := (w.note (.died s)).on (·.onDeath s)

/-- The dead go off the lists of their realms. -/
def reapLoop : Nat → World → World
  | 0, w => w
  | fuel + 1, w =>
    match w.sched.links.head .dead with
    | none => w
    | some s =>
      let r := (w.ambient s).realm
      reapLoop fuel
        { w.on (fun q => q.relink (q.links.pop .dead s) q.runTail) with
          members := Function.update w.members r ((w.members r).erase s) }

def reap (w : World) : World := w.reapLoop w.sched.nstrands

/-! ## Stop and gate -/

/-- A gate must not outlive a cancellation. -/
def release (w : World) (s : StrandId) : World :=
  let w := w.setStrand s fun r => { r with gates := 0 }
  if w.state s = .parked then w.on (·.wake s) else w

def stopOne (t : TagId) (w : World) (s : StrandId) : World :=
  if w.state s = .dead ∨ ¬ w.covers s t then w
  else
    let w := w.setAmbient s fun a => { a with unwind := .stop (some t) }
    if w.current = some s then w else w.release s

def stop (w : World) (t : TagId) : World :=
  ((w.everyone.foldl (stopOne t) w).on (·.timersDropTag t)).disarm fun x => x.tag == some t

def gateOnOne (t : TagId) (bit : UInt8) (w : World) (s : StrandId) : World :=
  if w.state s = .dead ∨ ¬ w.covers s t then w
  else
    let w := w.setStrand s fun r => { r with gates := r.gates ||| bit }
    if w.state s = .ready then w.on fun q => ((q.unqueue s).park s none).getD (q.unqueue s)
    else if w.current = some s then w.on fun q => (q.park s none).getD q
    else w

/-- Recomputed, not cleared. -/
def gateOffOne (t : TagId) (w : World) (s : StrandId) : World :=
  if w.state s = .dead ∨ ¬ w.covers s t then w
  else
    let w := w.setStrand s fun r => { r with gates := w.strandGateBits s }
    if (w.sched.strand s).gates = 0 ∧ w.state s = .parked ∧ (w.sched.strand s).waitingOn = none ∧
        ¬ w.sched.hasTimer s then
      w.on (·.enqueue s)
    else w

def gate (w : World) (t : TagId) (bit : UInt8) (up : Bool) : World :=
  if up then
    let w := { w with flags := Function.update w.flags t (w.flags t ||| bit) }
    w.everyone.foldl (gateOnOne t bit) w
  else
    let w := { w with flags := Function.update w.flags t (w.flags t &&& ~~~bit) }
    w.everyone.foldl (gateOffOne t) w

def freeOne (t : Option TagId) (w : World) (s : StrandId) : World :=
  if w.state s = .dead ∨ (w.ambient s).unwind ≠ .none then w
  else
    let w := w.setAmbient s fun a => { a with unwind := .stop t }
    if w.current = some s then w else w.release s

/-- The main realm, which is realm 0, is never freed. -/
def realmFree (w : World) (r : RealmId) : World :=
  if r = 0 then w
  else
    let t := w.rootTag r
    let w := match t with
      | none => w
      | some t => w.stop t
    let w := (w.on (·.timersDropRealm r)).disarm fun x => x.realm == r
    let w := (w.members r).foldl (freeOne t) w
    { w with
      realms := w.realms.erase r
      members := Function.update w.members r []
      rootTag := Function.update w.rootTag r none }

/-! ## Timers -/

/-- A sleeper goes off the heap, a periodic is armed again past `now`. -/
def turnRoot (w : World) (now : Nat) (t : UTimer) : World :=
  if t.period = 0 then w.on fun q => { q with heap := Lib.Heap.removeAt UTimer.due q.heap 0 }
  else
    let due := (t.due + t.period) % 2 ^ 64
    let due := if due ≤ now then (now + t.period) % 2 ^ 64 else due
    w.on fun q =>
      { q with heap := Lib.Heap.down UTimer.due q.heap.length (q.heap.set 0 { t with due := due }) 0 }

/-- The call for a record: the wake of a sleeper, the spawn of a body. -/
def serve (w : World) (t : UTimer) (granted : Bool) : World :=
  if t.period = 0 then
    match t.strand with
    | none => w
    | some s => w.on (·.wake s)
  else (w.spawn t.realm t.tag granted).1

/-- The world, and the calls made: the record and the allocator's answer. -/
def fireDue (now : Nat) (grant : Nat → Bool) : Nat → World → World × List (UTimer × Bool)
  | 0, w => (w, [])
  | fuel + 1, w =>
    match w.sched.heap with
    | [] => (w, [])
    | t :: _ =>
      if t.due ≤ now then
        let (w, calls) := fireDue now grant fuel ((w.turnRoot now t).serve t (grant fuel))
        (w, (t, grant fuel) :: calls)
      else (w, [])

def init (t : TagId) : World where
  sched :=
    { strand := fun _ => ⟨.dead, none, 0, false, 0⟩
      nstrands := 0
      links := ⟨fun _ => none, fun _ => none⟩
      runTail := none
      heap := []
      heapCap := 0
      heapFreed := false }
  ambient := fun _ => ⟨.none, none, [], 0, 0⟩
  current := none
  flags := fun _ => 0
  enter := fun _ => none
  leave := fun _ => none
  realms := [0]
  nrealms := 1
  rootTag := fun r => if r = 0 then some t else none
  members := fun _ => []
  watcher := fun _ => UWatcher.new .atAsync 0 none
  nwatchers := 0
  all := []
  subs := fun _ => []
  ndirty := 0
  draining := false
  isr := []
  trace := []

end World

end Urbi.Sched
