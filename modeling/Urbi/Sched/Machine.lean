import Urbi.Sched.World

/-!
# The step loop and what runs inside it

A configuration is the world and the stack of C calls in progress.  A step of the machine is one
stretch of C code that runs no script; what a script or the host does in between is chosen from
outside.
-/

namespace Urbi.Sched

inductive Purpose where
  /-- A getter, an operator, a comparator, or a call by the host. -/
  | plain
  /-- The first evaluation of a `waituntil`, on the waiting strand. -/
  | wait
  /-- The condition of a watcher, for the drain. -/
  | cond (x : WatcherId)
  /-- Of a `whenever` whose body has died; whether an else arm was served. -/
  | again (x : WatcherId) (owed : Bool)
  /-- A body or an onleave that runs inline. -/
  | body
  deriving DecidableEq, Repr

inductive Phase where
  | isr
  | loop
  | ran (slice : Nat)
  | after (slice : Nat) (st : UStrandState)
  | ended
  deriving DecidableEq, Repr

inductive CFrame where
  | step (budget remaining : Nat) (phase : Phase)
  /-- With the dispatching strand it displaced. -/
  | run (s : StrandId) (prev : Option StrandId)
  /-- A native, called by an instruction that looks at the strand's state afterwards, or not. -/
  | native (s : StrandId) (checked : Bool) (prev : Option StrandId)
  /-- The state to restore, which a native callee has none of. -/
  | call (s : StrandId) (saved : Option UStrandState) (p : Purpose)
  /-- `uexec_call` has raised before the callee's first instruction. -/
  | unentered (s : StrandId)
  /-- The truth of the value, or nothing when it raised. -/
  | got (s : StrandId) (p : Purpose) (v : Option Bool)
  /-- Whether the strand has died. -/
  | inline (c : StrandId) (dead : Bool)
  | drain (rest : List WatcherId)
  /-- With the subscribers still to visit and `draining` as it was. -/
  | fan (e : EventId) (sync : Bool) (rest : List WatcherId) (prev : Bool)
  /-- `uwatch_body_done`, before the condition is asked again. -/
  | again (x : WatcherId) (owed : Bool)
  /-- `uwatch_body_done`, at its end. -/
  | done (prev : Bool)
  /-- `SCOPE_TAG` after its enter event, a closed scope after its leave event, `YIELD` after its
  drain. -/
  | entering (s : StrandId) (t : TagId)
  | leaving (s : StrandId) (recompute : Bool)
  | yielding (s : StrandId)
  | host
  deriving DecidableEq, Repr

structure Sys where
  world : World
  stack : List CFrame

inductive Spawned where
  | nothing | refused | spawned
  deriving DecidableEq, Repr

structure Grant where
  spawn : Spawned
  spare : Bool
  /-- The callee takes the arguments, and its registers and its frame are granted. -/
  enters : Bool
  native : Bool
  deriving DecidableEq, Repr

abbrev Duration := { us : Nat // us < 2 ^ 63 }

inductive Gate where
  | blocked | frozen
  deriving DecidableEq, Repr

def Gate.bit : Gate → UInt8
  | .blocked => 1
  | .frozen => 2

inductive Prim where
  /-- A write to an object that a condition reads. -/
  | dirty
  | stop (t : TagId)
  | gate (t : TagId) (g : Gate) (up : Bool)
  | detach (granted : Bool)
  | disown (granted : Bool)
  | every (period : Duration) (now : Nat) (granted : Bool)
  | sleep (us : Duration) (now : Nat) (granted : Bool)
  | await (e : EventId)
  | enterEvent (t : TagId) (e : EventId)
  | leaveEvent (t : TagId) (e : EventId)
  | watch (r : RealmId) (granted : Bool)
  | chunk (r : RealmId) (granted : Bool)
  | inject (e : EventId)
  /-- A realm with its connection tag. -/
  | realmNew (t : TagId)
  | realmFree (r : RealmId)
  deriving DecidableEq, Repr

inductive Instr where
  | prim (p : Prim)
  | native
  | callback
  | emits (e : EventId)
  | fork (granted : Bool)
  /-- For the strand that the `FORK` before it left in its register. -/
  | joinWait (c : StrandId)
  | install (mode : WatchMode) (event : Option EventId) (body onleave : Bool) (granted : Bool)
  | waituntil
  | enterTag (t : TagId)
  | leaveTag (recompute : Bool)
  /-- A fatal unwind passes a tag scope. -/
  | dropScope
  | raise
  /-- The pending unwind is over: a handler took it. -/
  | settle
  | yield
  | exhaust
  | die
  | ret (v : Bool)
  deriving DecidableEq, Repr

inductive Choice where
  | next (g : Grant)
  | instr (i : Instr) (g : Grant)
  /-- A step reads the clock and fires the timers. -/
  | fire (now : Nat) (grant : Nat → Bool)
  | prim (p : Prim)
  | emit (e : EventId) (sync : Bool)
  | callback (g : Grant)
  /-- `urbi_call`: a closure on a spare strand. -/
  | hostCall (r : RealmId) (g : Grant)
  | step (budget : Nat)
  | raise
  | back (v : Bool)

namespace World

def raise (w : World) : World :=
  match w.current with
  | none => w
  | some s => w.setAmbient s fun a => { a with unwind := .other }

def currentRealm (w : World) : RealmId :=
  match w.current with
  | none => 0
  | some s => (w.ambient s).realm

def spawnNative (w : World) (keepTags granted : Bool) : World :=
  let r := w.currentRealm
  let tag := match w.current with
    | some s => if keepTags then (w.ambient s).tag else w.rootTag r
    | none => w.rootTag r
  if granted then (w.spawn r tag true).1 else w.raise

def every (w : World) (period : Duration) (now : Nat) (granted : Bool) : World :=
  if period.1 = 0 then w.raise
  else
    let tag := w.current.bind fun s => (w.ambient s).tag
    let (q, added) := w.sched.timerAdd
      ⟨(now + period.1) % 2 ^ 64, period.1, none, tag, w.currentRealm⟩
      granted
    if added then { w with sched := q } else { w with sched := q }.raise

/-- Armed first, parked second. -/
def sleep (w : World) (us : Duration) (now : Nat) (granted : Bool) : World :=
  match w.current with
  | none => w
  | some s =>
    if ¬ w.sched.mayDeschedule s then w
    else
      let (q, added) := w.sched.timerAdd
        ⟨(now + us.1) % 2 ^ 64, 0, some s, none, (w.ambient s).realm⟩ granted
      if added then { w with sched := (q.park s none).getD q }
      else { w with sched := q }.raise

def await (w : World) (e : EventId) : World :=
  match w.current with
  | none => w
  | some s =>
    match w.sched.park s (some (.event e)) with
    | none => w
    | some q => { w with sched := q }

def watch (w : World) (r : RealmId) (granted : Bool) : World :=
  if granted then
    (w.newWatcher { UWatcher.new .atAsync r (w.rootTag r) with
      cond := true, hostCb := true }).markDirty
  else w

def doPrim (w : World) : Prim → World
  | .dirty => w.markDirty
  | .stop t => w.stop t
  | .gate t g up => w.gate t g.bit up
  | .detach granted => w.spawnNative true granted
  | .disown granted => w.spawnNative false granted
  | .every period now granted => w.every period now granted
  | .sleep us now granted => w.sleep us now granted
  | .await e => w.await e
  | .enterEvent t e => { w with enter := Function.update w.enter t ((w.enter t).or (some e)) }
  | .leaveEvent t e => { w with leave := Function.update w.leave t ((w.leave t).or (some e)) }
  | .watch r granted => w.watch r granted
  | .chunk r granted => (w.spawn r (w.rootTag r) granted).1
  | .inject e => if w.isr.length < 16 then { w with isr := w.isr ++ [e] } else w
  | .realmNew t =>
    { w with
      realms := w.nrealms :: w.realms
      nrealms := w.nrealms + 1
      rootTag := Function.update w.rootTag w.nrealms (some t) }
  | .realmFree r => w.realmFree r

def install (w : World) (s : StrandId) (mode : WatchMode) (event : Option EventId)
    (body onleave : Bool) : World :=
  let x := w.nwatchers
  let a := w.ambient s
  let w := w.newWatcher { UWatcher.new mode a.realm a.tag with
    cond := event.isNone, event := event, body := body, onleave := onleave }
  match event with
  | none => w.markDirty
  | some e => { w with subs := Function.update w.subs e (w.subs e ++ [x]) }

end World

namespace Sys

open World

/-! ## Synchronous calls -/

def startCall (w : World) (s : StrandId) (p : Purpose) (g : Grant) (stack : List CFrame) : Sys :=
  if ¬ g.enters then
    ⟨w.setAmbient s fun a => { a with unwind := .other }, .unentered s :: .call s none p :: stack⟩
  else if g.native then
    ⟨{ w with current := some s }, .native s false w.current :: .call s none p :: stack⟩
  else
    ⟨{ w.setStrand s (fun r => { r with state := .running, nboundary := r.nboundary + 1 }) with
        current := some s },
      .run s w.current :: .call s (some (w.state s)) p :: stack⟩

/-- On a spare strand under the watcher's tag. -/
def onSpare (w : World) (x : WatcherId) (p : Purpose) (g : Grant) (stack : List CFrame) : Sys :=
  let r := w.watcher x
  let (w, s) := w.acquire r.realm r.tag
  startCall w s p g stack

def runInline (w : World) (x : WatcherId) (has : Bool) (g : Grant) (stack : List CFrame) : Sys :=
  if has && g.spare then onSpare w x .body g stack else ⟨w, stack⟩

/-- An unwind still pending is the caller's. -/
def returnCall (w : World) (s : StrandId) (saved : Option UStrandState) (p : Purpose) (v : Bool)
    (stack : List CFrame) : Sys :=
  if (w.ambient s).unwind ≠ .none then ⟨w, .got s p none :: stack⟩
  else
    ⟨match saved with
      | none => w
      | some st => w.setStrand s fun r => { r with state := st },
    .got s p (some v) :: stack⟩

/-! ## Watchers -/

/-- The world, the strand, and whether it ran out of memory. -/
def spawnFor (w : World) (x : WatcherId) (has : Bool) (g : Grant) :
    World × Option StrandId × Bool :=
  let r := w.watcher x
  if has then
    match g.spawn with
    | .nothing => (w, none, false)
    | .refused => (w, none, true)
    | .spawned =>
      let (w, c) := w.spawn r.realm r.tag true
      (w, c, false)
  else (w, none, false)

def fireWatcher (w : World) (x : WatcherId) (force : Bool) (g : Grant) (stack : List CFrame) : Sys :=
  let r := w.watcher x
  let w := w.setWatcher x fun r => { r with fired := true }
  if r.hostCb then ⟨w, .host :: stack⟩
  else if r.mode = .atSync ∨ force then runInline w x r.body g stack
  else
    let (w, c, refused) := spawnFor w x r.body g
    if refused then
      -- a condition's edge stays unserved: the next drain is to see it rise again
      let w := w.setWatcher x fun y => { y with fired := r.fired }
      ⟨if r.cond then (w.setWatcher x fun y => { y with last := false }).markDirty else w, stack⟩
    else
      let w := c.elim w fun c => w.note (.bodyOf x c)
      ⟨if r.mode = .whenever ∧ r.cond then w.setWatcher x fun y => { y with bodyStrand := c } else w,
        stack⟩

def leaveWatcher (w : World) (x : WatcherId) (g : Grant) (stack : List CFrame) : Sys :=
  let r := w.watcher x
  if ¬ r.onleave ∨ ¬ r.fired then ⟨w, stack⟩
  else
    let w := w.setWatcher x fun r => { r with fired := false }
    if r.mode = .atSync then runInline w x r.onleave g stack
    else
      let (w, c, refused) := spawnFor w x r.onleave g
      let w := c.elim w fun c => w.note (.elseOf x c)
      ⟨if refused then (w.setWatcher x fun y => { y with fired := true }).markDirty else w, stack⟩

/-- The drain's answer to a condition that was found to be `now`. -/
def edge (w : World) (x : WatcherId) (now : Bool) (g : Grant) (stack : List CFrame) : Sys :=
  let r := w.watcher x
  -- cancelled while the condition ran
  if ¬ r.armed then ⟨w, stack⟩
  else
    let w := w.setWatcher x fun y => { y with last := now }
    if now ∧ ¬ r.last then
      if r.mode = .waituntil then
        ⟨(w.setWatcher x fun y => { y with armed := false }).wakeAll (.watcher x), stack⟩
      else if r.mode = .whenever ∧ r.bodyStrand.isSome then ⟨w, stack⟩
      else fireWatcher w x false g stack
    else if ¬ now ∧ (r.last ∨ r.fired) then
      if r.mode = .whenever ∧ r.bodyStrand.isSome then
        ⟨w.setWatcher x fun y => { y with leavePending := true }, stack⟩
      else leaveWatcher w x g stack
    else ⟨w, stack⟩

/-- Up to its walk. -/
def startDrain (w : World) (stack : List CFrame) : Sys :=
  if w.draining ∨ w.ndirty = 0 ∨ w.all = [] then ⟨w, stack⟩
  else
    let w := sweep { w with ndirty := 0 }
    ⟨{ w with draining := true }, .drain w.all :: stack⟩

def deliver (w : World) (e : EventId) : World := w.wakeAll (.event e)

/-- The subscribers first, then the waiters. -/
def startEmit (w : World) (e : EventId) (sync : Bool) (stack : List CFrame) : Sys :=
  if w.subs e = [] then ⟨deliver w e, stack⟩
  else ⟨{ w with draining := true }, .fan e sync (w.subs e) w.draining :: stack⟩

def fireTag (w : World) (ev : Option EventId) (stack : List CFrame) : Sys :=
  match ev with
  | none => ⟨w, stack⟩
  | some e => startEmit w e true stack

/-- Up to the condition. -/
def bodyDone (w : World) (s : StrandId) (g : Grant) (stack : List CFrame) : Sys :=
  match w.all.find? fun x => (w.watcher x).bodyStrand == some s with
  | none => ⟨w, stack⟩
  | some x =>
    let r := w.watcher x
    let w := w.setWatcher x fun y => { y with bodyStrand := none }
    if r.mode ≠ .whenever ∨ ¬ r.cond then ⟨w, stack⟩
    else
      let w := w.setWatcher x fun y => { y with leavePending := false }
      if ¬ r.armed ∧ ¬ r.leavePending then ⟨w, stack⟩
      else
        let stack := .again x r.leavePending :: .done w.draining :: stack
        let w := { w with draining := true }
        if r.leavePending then leaveWatcher w x g stack else ⟨w, stack⟩

/-! ## Running a strand -/

def dispatch (w : World) (s : StrandId) (stack : List CFrame) : Sys :=
  let w := w.setAmbient s fun a => { a with fastYields := 0 }
  ⟨{ w.setStrand s (fun r => { r with state := .running }) with current := some s },
    .run s w.current :: stack⟩

/-- `uexec_run` returns `st`, to whatever called it. -/
def finishRun (w : World) (s : StrandId) (st : UStrandState) (prev : Option StrandId) (g : Grant) :
    List CFrame → Option Sys
  | .step b n (.ran slice) :: stack =>
    let w := { w.setStrand s (fun r => { r with state := st }) with current := prev }
    let stack := .step b n (.after slice st) :: stack
    some (if st = .dead then bodyDone (w.onDeath s) s g stack
      else if st = .parked then ⟨w, stack⟩
      else ⟨w.on (·.enqueue s), stack⟩)
  | .inline c false :: stack =>
    let w := { w.setStrand s (fun r => { r with state := st }) with current := prev }
    some (if st = .dead then bodyDone (w.onDeath c) c g (.inline c true :: stack)
      else if st = .parked then ⟨w, stack⟩
      else dispatch w c (.inline c false :: stack))
  | .call _ saved p :: stack =>
    let w := { w.setStrand s (fun r => { r with state := st }) with current := prev }
    some (if st = .dead then ⟨w, .got s p none :: stack⟩ else returnCall w s saved p true stack)
  | _ => none

def checkState (w : World) (s : StrandId) (prev : Option StrandId) (g : Grant)
    (stack : List CFrame) : Option Sys :=
  if w.state s ≠ .running then finishRun w s (w.state s) prev g stack
  else some ⟨w, .run s prev :: stack⟩

def joinWait (w : World) (s c : StrandId) (prev : Option StrandId) (g : Grant)
    (stack : List CFrame) : Option Sys :=
  if w.sched.nstrands ≤ c then none
  else if w.state c = .dead then some ⟨w, .run s prev :: stack⟩
  else
    match w.sched.park s (some (.joiners c)) with
    | some q => finishRun { w with sched := q } s .parked prev g stack
    | none =>
      -- nobody to hand control to: the child runs nested
      some (dispatch (w.on (·.unqueue c)) c (.inline c false :: .run s prev :: stack))

/-- On with the next instruction when the scheduler would do nothing else. -/
def yielded (w : World) (s : StrandId) (prev : Option StrandId) (g : Grant)
    (stack : List CFrame) : Option Sys :=
  if w.sched.runHead = none ∧ w.ndirty = 0 ∧ (w.ambient s).unwind = .none ∧
      (w.sched.strand s).gates = 0 ∧ w.state s = .running ∧ w.isr = [] ∧
      (w.ambient s).fastYields < 64 then
    some ⟨w.setAmbient s fun a => { a with fastYields := a.fastYields + 1 }, .run s prev :: stack⟩
  else finishRun w s .ready prev g stack

/-- A newcomer takes the bits of the tag and parks. -/
def entered (w : World) (s : StrandId) (t : TagId) (prev : Option StrandId) (g : Grant)
    (stack : List CFrame) : Option Sys :=
  let bits := w.gateBits (some t)
  if bits = 0 then some ⟨w, .run s prev :: stack⟩
  else
    let w := w.setStrand s fun r => { r with gates := r.gates ||| bits }
    match w.sched.park s none with
    | some q => finishRun { w with sched := q } s .parked prev g stack
    | none => some ⟨w, .run s prev :: stack⟩

def waited (w : World) (s : StrandId) (v : Option Bool) (prev : Option StrandId) (g : Grant)
    (stack : List CFrame) : Option Sys :=
  let a := w.ambient s
  match v with
  | none => some ⟨w, .run s prev :: stack⟩
  | some true => some ⟨w, .run s prev :: stack⟩
  | some false =>
    -- a wait that cannot park counts as satisfied
    if ¬ w.sched.mayDeschedule s then some ⟨w, .run s prev :: stack⟩
    else if g.spawn ≠ .spawned then some ⟨w.raise, .run s prev :: stack⟩
    else
      let x := w.nwatchers
      let w := w.newWatcher { UWatcher.new .waituntil a.realm a.tag with
        cond := true }
      match w.sched.park s (some (.watcher x)) with
      | none => none
      | some q => finishRun { w with sched := q } s .parked prev g stack

def instr (w : World) (s : StrandId) (prev : Option StrandId) (g : Grant) (stack : List CFrame) :
    Instr → Option Sys
  | .prim p => checkState (w.doPrim p) s prev g stack
  | .native => some ⟨w, .native s true w.current :: .run s prev :: stack⟩
  | .callback => some (startCall w s .plain g (.run s prev :: stack))
  | .emits e => some (startEmit w e false (.run s prev :: stack))
  | .fork granted =>
    let a := w.ambient s
    some ⟨if granted then (w.spawn a.realm a.tag true).1 else w.raise,
      .run s prev :: stack⟩
  | .joinWait c => joinWait w s c prev g stack
  | .install mode event body onleave granted =>
    if mode = .waituntil ∨ mode = .once then none
    else
      some ⟨if granted then w.install s mode event body onleave else w.raise,
        .run s prev :: stack⟩
  | .waituntil => some (startCall w s .wait g (.run s prev :: stack))
  | .enterTag t =>
    let w := w.setAmbient s fun a => { a with scopes := ⟨t, a.tag⟩ :: a.scopes, tag := some t }
    some (fireTag w (w.enter t) (.entering s t :: .run s prev :: stack))
  | .leaveTag recompute =>
    match (w.ambient s).scopes with
    | [] => none
    | c :: cs =>
      let w := w.setAmbient s fun a => { a with scopes := cs, tag := c.saved }
      some (fireTag w (w.leave c.tag) (.leaving s recompute :: .run s prev :: stack))
  | .dropScope =>
    match (w.ambient s).scopes with
    | [] => none
    | c :: cs =>
      some ⟨w.setAmbient s fun a => { a with scopes := cs, tag := c.saved },
        .run s prev :: stack⟩
  | .raise => some ⟨w.raise, .run s prev :: stack⟩
  | .settle =>
    some ⟨w.setAmbient s fun a => { a with unwind := .none }, .run s prev :: stack⟩
  | .yield =>
    if ¬ w.sched.mayDeschedule s then some ⟨w, .run s prev :: stack⟩
    else some (startDrain w (.yielding s :: .run s prev :: stack))
  | .exhaust =>
    match stack with
    | .step _ _ (.ran (_ + 1)) :: _ => finishRun w s .ready prev g stack
    | _ => none
  | .die => if w.sched.mayDeschedule s then finishRun w s .dead prev g stack else none
  | .ret v =>
    match stack with
    | .call _ (some st) p :: stack =>
      let w := w.setStrand s fun r => { r with nboundary := r.nboundary - 1, state := .running }
      some (returnCall { w with current := prev } s (some st) p v stack)
    | _ => none

/-! ## The frames of the runtime -/

def stepTurn (w : World) (b n : Nat) (stack : List CFrame) : Phase → Choice → Option Sys
  | .isr, .next _ =>
    match w.isr with
    | [] => none
    | e :: es => some (startEmit { w with isr := es } e false (.step b n .isr :: stack))
  | .isr, .fire now grant =>
    if w.isr = [] then
      let w := (fireDue now grant w.sched.heap.length w).1
      some (startDrain w (.step b n .loop :: stack))
    else none
  | .loop, .next _ =>
    match w.sched.dequeue with
    | none => some ⟨w, .step b n .ended :: stack⟩
    | some (s, q) =>
      let slice := if b = 0 then 0 else min n 256
      some (dispatch { w with sched := q } s (.step b n (.ran slice) :: stack))
  | .after slice st, .next _ =>
    let n' := if b = 0 then n else n - (if st = .ready then slice else 1)
    let phase := if b ≠ 0 ∧ n' = 0 then .ended else .loop
    some (startDrain w.reap (.step b n' phase :: stack))
  | .ended, .next _ => some ⟨w.reap, stack⟩
  | _, _ => none

def drainTurn (w : World) (g : Grant) (stack : List CFrame) : List WatcherId → Sys
  | [] => ⟨sweep { w with draining := false }, stack⟩
  | x :: rest =>
    let r := w.watcher x
    if r.armed && r.cond && g.spare then onSpare w x (.cond x) g (.drain rest :: stack)
    else ⟨w, .drain rest :: stack⟩

def fanTurn (w : World) (e : EventId) (sync prev : Bool) (g : Grant) (stack : List CFrame) :
    List WatcherId → Sys
  | [] => ⟨deliver (sweep { w with draining := prev }) e, stack⟩
  | x :: rest =>
    let r := w.watcher x
    let stack := .fan e sync rest prev :: stack
    if ¬ r.armed then ⟨w, stack⟩
    else if r.mode = .once then
      ⟨(w.setWatcher x fun y => { y with armed := false }).wakeAll (.watcher x), stack⟩
    else fireWatcher w x (sync && r.mode = .atSync) g stack

def gotTurn (w : World) (s : StrandId) (v : Option Bool) (g : Grant) (stack : List CFrame) :
    Purpose → Option Sys
  | .plain => some ⟨w, stack⟩
  | .body => some ⟨w, stack⟩
  | .wait =>
    match stack with
    | .run _ prev :: stack => waited w s v prev g stack
    | _ => none
  | .cond x =>
    match v with
    | none => some ⟨w.setWatcher x fun y => { y with armed := false }, stack⟩
    | some now => some (edge (w.note (.found x now)) x now g stack)
  | .again x owed =>
    match v with
    | none => some ⟨w.setWatcher x fun y => { y with armed := false }, stack⟩
    | some now =>
      let w := w.note (.found x now)
      if ¬ (w.watcher x).armed then some ⟨w, stack⟩
      else
        let w := w.setWatcher x fun y => { y with last := now }
        some (if now then fireWatcher w x false g stack
          else if owed then ⟨w, stack⟩ else leaveWatcher w x g stack)

def nativeReturn (w : World) (s : StrandId) (checked : Bool) (prev : Option StrandId) (v : Bool)
    (g : Grant) (stack : List CFrame) : Option Sys :=
  let w := { w with current := prev }
  match checked, stack with
  | true, .run _ prev :: stack => checkState w s prev g stack
  | false, .call _ saved p :: stack => some (returnCall w s saved p v stack)
  | _, _ => none

def resume (w : World) (g : Grant) : List CFrame → Option Sys
  | .step b n phase :: stack => stepTurn w b n stack phase (.next g)
  | .unentered s :: .call _ saved p :: stack => some (returnCall w s saved p false stack)
  | .got s p v :: stack => gotTurn w s v g stack p
  | .inline _ true :: stack => some ⟨w.reap, stack⟩
  | .drain rest :: stack => some (drainTurn w g stack rest)
  | .fan e sync rest prev :: stack => some (fanTurn w e sync prev g stack rest)
  | .again x owed :: stack =>
    let r := w.watcher x
    some (if r.armed && g.spare then onSpare w x (.again x owed) g stack else ⟨w, stack⟩)
  | .done prev :: stack => some ⟨sweep { w with draining := prev }, stack⟩
  | .entering s t :: .run _ prev :: stack => entered w s t prev g stack
  | .leaving s recompute :: stack =>
    some ⟨if recompute then w.setStrand s fun r => { r with gates := w.strandGateBits s } else w,
      stack⟩
  | .yielding s :: .run _ prev :: stack => yielded w s prev g stack
  | _ => none

def free : List CFrame → Bool
  | [] => true
  | .native .. :: _ => true
  | .host :: _ => true
  | _ => false

def step (σ : Sys) : Choice → Option Sys
  | .next g => resume σ.world g σ.stack
  | .instr i g =>
    match σ.stack with
    | .run s prev :: stack => instr σ.world s prev g stack i
    | _ => none
  | .fire now grant =>
    match σ.stack with
    | .step b n phase :: stack => stepTurn σ.world b n stack phase (.fire now grant)
    | _ => none
  | .prim p => if free σ.stack then some ⟨σ.world.doPrim p, σ.stack⟩ else none
  | .emit e sync => if free σ.stack then some (startEmit σ.world e sync σ.stack) else none
  | .callback g =>
    match σ.stack with
    | .native s _ _ :: _ => some (startCall σ.world s .plain g σ.stack)
    | _ => none
  | .hostCall r g =>
    if free σ.stack then
      let (w, s) := σ.world.acquire r none
      some (startCall w s .plain g σ.stack)
    else none
  | .step budget =>
    if free σ.stack then
      some ⟨σ.world.reap, .step budget budget .isr :: σ.stack⟩
    else none
  | .raise =>
    match σ.stack with
    | .native .. :: _ => some ⟨σ.world.raise, σ.stack⟩
    | _ => none
  | .back v =>
    match σ.stack with
    | .native s checked prev :: stack =>
      nativeReturn σ.world s checked prev v ⟨.nothing, false, true, false⟩ stack
    | .host :: stack => some ⟨σ.world, stack⟩
    | _ => none

def boot (t : TagId) : Sys := ⟨World.init t, []⟩

inductive Runs (P : Sys → Choice → Bool) (σ₀ : Sys) : Sys → Prop
  | refl : Runs P σ₀ σ₀
  | step {σ σ' : Sys} (run : Runs P σ₀ σ) (c : Choice) (allowed : P σ c = true)
      (taken : σ.step c = some σ') : Runs P σ₀ σ'

def runAll (P : Sys → Choice → Bool) : Sys → List Choice → Option Sys
  | σ, [] => some σ
  | σ, c :: cs => if P σ c then (σ.step c).bind fun σ' => runAll P σ' cs else none

theorem Runs.of_runAll {P : Sys → Choice → Bool} {σ₀ σ σ' : Sys} {cs : List Choice}
    (h : Runs P σ₀ σ) (hrun : runAll P σ cs = some σ') : Runs P σ₀ σ' := by
  induction cs generalizing σ with
  | nil =>
    cases hrun
    exact h
  | cons c cs ih =>
    unfold runAll at hrun
    split at hrun
    · rename_i hP
      obtain ⟨σ₁, hstep, hrest⟩ := Option.bind_eq_some_iff.mp hrun
      exact ih (h.step c hP hstep) hrest
    · cases hrun

end Sys

end Urbi.Sched
