import Urbi.Sched.Machine

/-!
# What leaves a watcher alone

Most of what the runtime does may cancel a given watcher, and nothing else (`Quiet x`).  `Tends` says
what the operations that run no script do to the watchers, one change at a time.
-/

namespace Urbi.Sched

def Obs.about : Obs → Option WatcherId
  | .found x _ | .bodyOf x _ | .elseOf x _ => some x
  | _ => none

/-- A watcher may be cancelled, and is otherwise as it was. -/
structure UWatcher.Steady (r r' : UWatcher) : Prop where
  mode : r'.mode = r.mode
  cond : r'.cond = r.cond
  body : r'.body = r.body
  fired : r'.fired = r.fired
  hostCb : r'.hostCb = r.hostCb
  bodyStrand : r'.bodyStrand = r.bodyStrand
  leavePending : r'.leavePending = true → r.leavePending = true

structure UWatcher.Unfired (r : UWatcher) : Prop where
  fired : r.fired = false
  host : r.hostCb = true → r.mode ≠ .whenever
  bodyStrand : r.bodyStrand = none
  leavePending : r.leavePending = false

namespace UWatcher

variable {r r' r'' : UWatcher}

theorem Steady.refl (r : UWatcher) : Steady r r := ⟨rfl, rfl, rfl, rfl, rfl, rfl, fun h => h⟩

theorem Steady.trans (h : Steady r r') (h' : Steady r' r'') : Steady r r'' where
  mode := h'.mode.trans h.mode
  cond := h'.cond.trans h.cond
  body := h'.body.trans h.body
  fired := h'.fired.trans h.fired
  hostCb := h'.hostCb.trans h.hostCb
  bodyStrand := h'.bodyStrand.trans h.bodyStrand
  leavePending hl := h.leavePending (h'.leavePending hl)

theorem Unfired.of_steady (h : Unfired r) (hs : Steady r r') : Unfired r' where
  fired := hs.fired.trans h.fired
  host hh := hs.mode ▸ h.host (hs.hostCb ▸ hh)
  bodyStrand := hs.bodyStrand.trans h.bodyStrand
  leavePending := by
    by_contra hl
    have hp := hs.leavePending (Bool.not_eq_false _ ▸ hl)
    rw [h.leavePending] at hp
    cases hp

end UWatcher

namespace World

theorem setWatcher_self (w : World) (x : WatcherId) (f : UWatcher → UWatcher) :
    (w.setWatcher x f).watcher x = f (w.watcher x) := Function.update_self ..

theorem setWatcher_setWatcher (w : World) (x : WatcherId) (f g : UWatcher → UWatcher) :
    (w.setWatcher x f).setWatcher x g = w.setWatcher x fun r => g (f r) := by
  unfold setWatcher
  dsimp only
  rw [Function.update_self, Function.update_idem]

structure WatchPart where
  watcher : WatcherId → UWatcher
  nwatchers : Nat
  all : List WatcherId
  subs : EventId → List WatcherId
  ndirty : Nat
  draining : Bool

def watches (w : World) : WatchPart :=
  ⟨w.watcher, w.nwatchers, w.all, w.subs, w.ndirty, w.draining⟩

/-! ## The operations that run no script -/

/-- What is done to the watchers, one change after the other. -/
inductive Tends : World → World → Prop
  | aside {w w'} : w'.watches = w.watches → w'.trace = w.trace → Tends w w'
  | note {w o} : Obs.about o = none → Tends w (w.note o)
  | markDirty {w} : Tends w w.markDirty
  | cancel {w} (x : WatcherId) :
    Tends w (w.setWatcher x fun r => { r with armed := false, leavePending := false })
  | lapse {w} (x : WatcherId) : Tends w (w.setWatcher x fun r => { r with armed := false })
  | unbind {w} (x : WatcherId) : Tends w (w.setWatcher x fun r => { r with event := none })
  | unlist {w subs} (x : WatcherId) : w.draining = false → (∀ e, (subs e).Sublist (w.subs e)) →
    Tends w { w with all := w.all.erase x, subs := subs }
  | newWatcher {w r} : UWatcher.Unfired r → Tends w (w.newWatcher r)
  -- at the end of two lists at once; with an event it has no condition
  | subscribe {w r} (e : EventId) : UWatcher.Unfired r → r.cond = false →
    Tends w { w.newWatcher r with subs := Function.update w.subs e (w.subs e ++ [w.nwatchers]) }
  | trans {w w' w''} : Tends w w' → Tends w' w'' → Tends w w''

namespace Tends

variable {w w' : World}

theorem refl : Tends w w := aside rfl rfl

theorem draining (h : Tends w w') : w'.draining = w.draining := by
  induction h with
  | aside hw _ => exact congrArg WatchPart.draining hw
  | trans _ _ ih ih' => exact ih'.trans ih
  | _ => rfl

theorem on (f : USched → USched) : Tends w (w.on f) := aside rfl rfl

theorem setStrand (s : StrandId) (f : UStrand → UStrand) : Tends w (w.setStrand s f) := on _

theorem setAmbient (s : StrandId) (f : Ambient → Ambient) : Tends w (w.setAmbient s f) := aside rfl rfl

theorem current (c : Option StrandId) : Tends w { w with current := c } := aside rfl rfl

theorem foldl {β : Type} {f : World → β → World} (h : ∀ w b, Tends w (f w b)) (l : List β) :
    Tends w (l.foldl f w) := by
  induction l generalizing w with
  | nil => exact refl
  | cons b l ih => exact (h w b).trans ih

theorem sweepOne (x : WatcherId) (hd : w.draining = false) : Tends w (w.sweepOne x) := by
  unfold World.sweepOne
  split
  · exact refl
  · refine ((unlist x hd fun e => ?_).trans (unbind x)).trans (on _)
    cases (w.watcher x).event with
    | none => exact .refl _
    | some e' =>
      dsimp only
      by_cases he : e = e'
      · rw [he, Function.update_self]
        exact List.erase_sublist
      · rw [Function.update_of_ne he]

theorem sweep : Tends w w.sweep := by
  unfold World.sweep
  split
  · exact refl
  · rename_i hd
    rw [Bool.not_eq_true] at hd
    generalize w.all = l
    induction l generalizing w with
    | nil => exact refl
    | cons x l ih => exact (sweepOne x hd).trans (ih ((sweepOne x hd).draining.trans hd))

theorem disarm (sel : UWatcher → Bool) : Tends w (w.disarm sel) := by
  refine trans (foldl (fun w y => ?_) _) sweep
  split
  · exact cancel y
  · exact refl

theorem raise : Tends w w.raise := by
  unfold World.raise
  split
  · exact refl
  · exact setAmbient _ _

theorem spawn (realm : RealmId) (tag : Option TagId) (granted : Bool) :
    Tends w (w.spawn realm tag granted).1 := by
  unfold World.spawn
  split
  · exact aside rfl rfl
  · exact refl

theorem acquire (realm : RealmId) (tag : Option TagId) : Tends w (w.acquire realm tag).1 :=
  aside rfl rfl

theorem onDeath (s : StrandId) : Tends w (w.onDeath s) :=
  (note rfl).trans (on _)

theorem reap : Tends w w.reap := by
  unfold World.reap
  generalize w.sched.nstrands = fuel
  induction fuel generalizing w with
  | zero => exact refl
  | succ fuel ih =>
    unfold reapLoop
    split
    · exact refl
    · refine trans ?_ ih
      exact aside rfl rfl

theorem release (s : StrandId) : Tends w (w.release s) := by
  unfold World.release
  dsimp only
  split
  · exact (setStrand s _).trans (on _)
  · exact setStrand s _

theorem stopOne (t : TagId) (s : StrandId) : Tends w (stopOne t w s) := by
  unfold World.stopOne
  split
  · exact refl
  · dsimp only
    split
    · exact setAmbient s _
    · exact (setAmbient s _).trans (release s)

theorem stop (t : TagId) : Tends w (w.stop t) :=
  ((foldl (fun _ s => stopOne t s) _).trans (on _)).trans (disarm _)

theorem gate (t : TagId) (bit : UInt8) (up : Bool) : Tends w (w.gate t bit up) := by
  have hflags : ∀ fl, Tends w { w with flags := fl } := fun _ =>
    aside rfl rfl
  unfold World.gate
  split
  · refine (hflags _).trans (foldl (fun w s => ?_) _)
    unfold gateOnOne
    split
    · exact refl
    · dsimp only
      split
      · exact (setStrand s _).trans (on _)
      · split
        · exact (setStrand s _).trans (on _)
        · exact setStrand s _
  · refine (hflags _).trans (foldl (fun w s => ?_) _)
    unfold gateOffOne
    split
    · exact refl
    · dsimp only
      split
      · exact (setStrand s _).trans (on _)
      · exact setStrand s _

theorem freeOne (t : Option TagId) (s : StrandId) : Tends w (freeOne t w s) := by
  unfold World.freeOne
  split
  · exact refl
  · dsimp only
    split
    · exact setAmbient s _
    · exact (setAmbient s _).trans (release s)

theorem realmFree (r : RealmId) : Tends w (w.realmFree r) := by
  unfold World.realmFree
  split
  · exact refl
  · dsimp only
    refine trans (trans (trans ?_ ((on _).trans (disarm _))) (foldl (fun _ s => freeOne _ s) _))
      (aside rfl rfl)
    split
    · exact refl
    · exact stop _

theorem turnRoot (now : Nat) (t : UTimer) : Tends w (w.turnRoot now t) := by
  unfold World.turnRoot
  split
  · exact on _
  · exact on _

theorem serve (t : UTimer) (granted : Bool) : Tends w (w.serve t granted) := by
  unfold World.serve
  split
  · split
    · exact refl
    · exact on _
  · exact spawn _ _ _

theorem fireDue (now : Nat) (grant : Nat → Bool) (fuel : Nat) :
    Tends w (fireDue now grant fuel w).1 := by
  induction fuel generalizing w with
  | zero => exact refl
  | succ fuel ih =>
    unfold World.fireDue
    split
    · exact refl
    · split
      · exact ((turnRoot now _).trans (serve _ _)).trans ih
      · exact refl

theorem doPrim (p : Prim) : Tends w (w.doPrim p) := by
  cases p with
  | dirty => exact markDirty
  | stop t => exact stop t
  | gate t g up => exact gate t g.bit up
  | detach granted | disown granted =>
    show Tends w (w.spawnNative _ granted)
    unfold spawnNative
    dsimp only
    split
    · exact spawn _ _ _
    · exact raise
  | every period now granted =>
    show Tends w (w.every period now granted)
    unfold every
    split
    · exact raise
    · dsimp only
      split
      · exact on fun _ => _
      · exact (on fun _ => _).trans raise
  | sleep us now granted =>
    show Tends w (w.sleep us now granted)
    unfold sleep
    split
    · exact refl
    · split
      · exact refl
      · dsimp only
        split
        · exact on fun _ => _
        · exact (on fun _ => _).trans raise
  | await e =>
    show Tends w (w.await e)
    unfold await
    split
    · exact refl
    · split
      · exact refl
      · exact on fun _ => _
  | enterEvent t e | leaveEvent t e =>
    exact aside rfl rfl
  | watch r granted =>
    show Tends w (w.watch r granted)
    unfold watch
    split
    · exact (newWatcher ⟨rfl, fun _ hm => (by cases hm), rfl, rfl⟩).trans markDirty
    · exact refl
  | chunk r granted => exact spawn _ _ _
  | inject e =>
    show Tends w (if w.isr.length < 16 then { w with isr := w.isr ++ [e] } else w)
    split
    · exact aside rfl rfl
    · exact refl
  | realmNew t => exact aside rfl rfl
  | realmFree r => exact realmFree r

theorem install (s : StrandId) (mode : WatchMode) (event : Option EventId) (body onleave : Bool) :
    Tends w (w.install s mode event body onleave) := by
  unfold World.install
  dsimp only
  split
  · exact (newWatcher ⟨rfl, fun hh => absurd hh Bool.false_ne_true, rfl, rfl⟩).trans markDirty
  · rename_i e
    exact subscribe e ⟨rfl, fun hh => absurd hh Bool.false_ne_true, rfl, rfl⟩ rfl

end Tends

/-! ## A watcher left alone -/

structure Known (w : World) : Prop where
  all : ∀ y ∈ w.all, y < w.nwatchers
  subs : ∀ e, ∀ y ∈ w.subs e, y < w.nwatchers ∧ (w.watcher y).cond = false

structure Quiet (x : WatcherId) (w w' : World) : Prop where
  nwatchers : w.nwatchers ≤ w'.nwatchers
  conds : ∀ y, y < w.nwatchers → (w'.watcher y).cond = (w.watcher y).cond
  old : x < w.nwatchers → (w.watcher x).Steady (w'.watcher x)
  young : w.nwatchers ≤ x → x < w'.nwatchers → (w'.watcher x).Unfired
  known : w.Known → w'.Known
  draining : w'.draining = w.draining
  trace : ∃ new, w'.trace = new ++ w.trace ∧ ∀ o ∈ new, o.about ≠ some x

namespace Quiet

variable {x : WatcherId} {w w' w'' : World}

theorem trans (h : Quiet x w w') (h' : Quiet x w' w'') : Quiet x w w'' where
  nwatchers := h.nwatchers.trans h'.nwatchers
  conds y hy := (h'.conds y (Nat.lt_of_lt_of_le hy h.nwatchers)).trans (h.conds y hy)
  old hx := (h.old hx).trans (h'.old (Nat.lt_of_lt_of_le hx h.nwatchers))
  young hx hx' := by
    by_cases hmid : x < w'.nwatchers
    · exact (h.young hx hmid).of_steady (h'.old hmid)
    · exact h'.young (Nat.le_of_not_lt hmid) hx'
  known hk := h'.known (h.known hk)
  draining := h'.draining.trans h.draining
  trace := by
    obtain ⟨new, htr, hnew⟩ := h.trace
    obtain ⟨new', htr', hnew'⟩ := h'.trace
    refine ⟨new' ++ new, by rw [htr', htr, List.append_assoc], fun o ho => ?_⟩
    rcases List.mem_append.mp ho with ho | ho
    · exact hnew' o ho
    · exact hnew o ho

theorem of_same (hw : w'.watcher = w.watcher) (hn : w'.nwatchers = w.nwatchers)
    (hall : ∀ y ∈ w'.all, y ∈ w.all) (hsubs : ∀ e, ∀ y ∈ w'.subs e, y ∈ w.subs e)
    (hd : w'.draining = w.draining) (htr : w'.trace = w.trace) : Quiet x w w' where
  nwatchers := Nat.le_of_eq hn.symm
  conds y _ := by rw [hw]
  old _ := by rw [hw]; exact .refl _
  young hx hx' := absurd (hn ▸ hx') (Nat.not_lt.mpr hx)
  known hk := ⟨fun y hy => by rw [hn]; exact hk.all y (hall y hy),
    fun e y hy => by rw [hn, hw]; exact hk.subs e y (hsubs e y hy)⟩
  draining := hd
  trace := ⟨[], htr, nofun⟩

theorem markDirty : Quiet x w w.markDirty :=
  of_same rfl rfl (fun _ h => h) (fun _ _ h => h) rfl rfl

theorem note {o : Obs} (ho : o.about ≠ some x) : Quiet x w (w.note o) where
  nwatchers := Nat.le_refl _
  conds _ _ := rfl
  old _ := .refl _
  young hx hx' := absurd hx' (Nat.not_lt.mpr hx)
  known hk := ⟨hk.all, hk.subs⟩
  draining := rfl
  trace := ⟨[o], rfl, fun o' ho' => by rw [List.mem_singleton.mp ho']; exact ho⟩

theorem setWatcher {y : WatcherId} {f : UWatcher → UWatcher}
    (hcond : (f (w.watcher y)).cond = (w.watcher y).cond)
    (hx : y = x → (w.watcher y).Steady (f (w.watcher y))) : Quiet x w (w.setWatcher y f) := by
  have hrec : ∀ z, (w.setWatcher y f).watcher z = if z = y then f (w.watcher y) else w.watcher z := by
    intro z
    show Function.update w.watcher y (f (w.watcher y)) z = _
    rw [Function.update_apply]
  have hconds : ∀ z, ((w.setWatcher y f).watcher z).cond = (w.watcher z).cond := by
    intro z
    rw [hrec]
    split
    · rename_i hz
      rw [hz]
      exact hcond
    · rfl
  refine ⟨Nat.le_refl _, fun z _ => hconds z, fun _ => ?_,
    fun hx hx' => absurd hx' (Nat.not_lt.mpr hx), fun hk => ⟨hk.all, fun e z hz => ?_⟩, rfl, [],
    rfl, nofun⟩
  · rw [hrec]
    split
    · rename_i hxy
      rw [hxy]
      exact hx hxy.symm
    · exact .refl _
  · rw [hconds]
    exact hk.subs e z hz

theorem newWatcher {r : UWatcher} (hr : r.Unfired) : Quiet x w (w.newWatcher r) := by
  have hrec : ∀ y, y ≠ w.nwatchers → (w.newWatcher r).watcher y = w.watcher y := fun y hy =>
    Function.update_of_ne hy ..
  refine ⟨Nat.le_succ _, fun y hy => by rw [hrec y (Nat.ne_of_lt hy)],
    fun hx => by rw [hrec x (Nat.ne_of_lt hx)]; exact .refl _, fun hx hx' => ?_,
    fun hk => ⟨fun y hy => ?_, fun e y hy => ?_⟩, rfl, [], rfl, nofun⟩
  · have hx' : x < w.nwatchers + 1 := hx'
    have hxn : x = w.nwatchers := Nat.le_antisymm (Nat.le_of_lt_succ hx') hx
    show (Function.update w.watcher w.nwatchers r x).Unfired
    rw [hxn, Function.update_self]
    exact hr
  · show y < w.nwatchers + 1
    rcases List.mem_append.mp hy with hy | hy
    · exact Nat.lt_succ_of_lt (hk.all y hy)
    · rw [List.mem_singleton.mp hy]
      exact Nat.lt_succ_self _
  · have hlt := hk.subs e y hy
    rw [hrec y (Nat.ne_of_lt hlt.1)]
    exact ⟨Nat.lt_succ_of_lt hlt.1, hlt.2⟩

theorem subscribe {r : UWatcher} (e : EventId) (hr : r.Unfired) (hcond : r.cond = false) : Quiet x w
      { w.newWatcher r with subs := Function.update w.subs e (w.subs e ++ [w.nwatchers]) } := by
  have hnew : Quiet x w (w.newWatcher r) := newWatcher hr
  refine { hnew with known := fun hk => ⟨(hnew.known hk).all, fun e' y hy => ?_⟩ }
  dsimp only at hy
  by_cases he : e' = e
  · rw [he, Function.update_self] at hy
    rcases List.mem_append.mp hy with hy | hy
    · exact (hnew.known hk).subs e y hy
    · rw [List.mem_singleton.mp hy]
      refine ⟨Nat.lt_succ_self _, ?_⟩
      show (Function.update w.watcher w.nwatchers r w.nwatchers).cond = false
      rw [Function.update_self]
      exact hcond
  · rw [Function.update_of_ne he] at hy
    exact (hnew.known hk).subs e' y hy

end Quiet

theorem Tends.quiet {w w' : World} (h : Tends w w') (x : WatcherId) : Quiet x w w' := by
  induction h with
  | @aside w w' hw htr =>
    have hall : w'.all = w.all := congrArg WatchPart.all hw
    have hsubs : w'.subs = w.subs := congrArg WatchPart.subs hw
    exact .of_same (congrArg WatchPart.watcher hw) (congrArg WatchPart.nwatchers hw)
      (fun _ hy => hall ▸ hy) (fun _ _ hy => hsubs ▸ hy) (congrArg WatchPart.draining hw) htr
  | note ho => exact .note (by simp [ho])
  | markDirty => exact .markDirty
  | cancel | lapse | unbind =>
    exact .setWatcher rfl fun _ => ⟨rfl, rfl, rfl, rfl, rfl, rfl, by simp⟩
  | unlist y _ hsubs =>
    exact .of_same rfl rfl (fun _ hz => List.mem_of_mem_erase hz) (fun e _ hz => (hsubs e).subset hz)
      rfl rfl
  | newWatcher hr => exact .newWatcher hr
  | subscribe e hr hcond => exact .subscribe e hr hcond
  | trans _ _ ih ih' => exact ih.trans ih'

end World

end Urbi.Sched
