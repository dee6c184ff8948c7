import Urbi.Sched.Whenever

/-!
# The lists of watchers

Nothing is taken off a list of watchers while `draining` is up, and what is put on one goes to its end.
`Grows` says what any stretch of C code does to the lists.
-/

namespace Urbi.Sched

/-! ## Lists that grow at the end -/

/-- What is left of `l` and of some new numbers, from `n` up to `n'`, after it; all of them when
`whole`. -/
def Extends (n n' : Nat) (whole : Prop) (l l' : List Nat) : Prop :=
  ∃ more, (∀ y ∈ more, n ≤ y ∧ y < n') ∧ more.Pairwise (· < ·) ∧ l'.Sublist (l ++ more) ∧
    (whole → l' = l ++ more)

namespace Extends

variable {n n' n'' : Nat} {P Q : Prop} {l l' l'' : List Nat}

theorem refl (n : Nat) (P : Prop) (l : List Nat) : Extends n n P l l :=
  ⟨[], nofun, .nil, by rw [List.append_nil], fun _ => (List.append_nil l).symm⟩

theorem of_sublist (h : l'.Sublist l) (hP : ¬ P) : Extends n n P l l' :=
  ⟨[], nofun, .nil, by rw [List.append_nil]; exact h, fun hp => absurd hp hP⟩

theorem snoc (n : Nat) (P : Prop) (l : List Nat) : Extends n (n + 1) P l (l ++ [n]) :=
  ⟨[n], fun y hy => by rw [List.mem_singleton.mp hy]; omega, List.pairwise_singleton _ _,
    .refl _, fun _ => rfl⟩

theorem mono (h : Extends n n' P l l') (hn : n' ≤ n'') (hP : Q → P) : Extends n n'' Q l l' := by
  obtain ⟨more, hmore, hsorted, hsub, hwhole⟩ := h
  exact ⟨more, fun y hy => ⟨(hmore y hy).1, Nat.lt_of_lt_of_le (hmore y hy).2 hn⟩, hsorted, hsub,
    fun hq => hwhole (hP hq)⟩

theorem trans (h : Extends n n' P l l') (h' : Extends n' n'' P l' l'') (hn : n ≤ n')
    (hn' : n' ≤ n'') : Extends n n'' P l l'' := by
  obtain ⟨more, hmore, hsorted, hsub, hwhole⟩ := h
  obtain ⟨more', hmore', hsorted', hsub', hwhole'⟩ := h'
  refine ⟨more ++ more', fun y hy => ?_, List.pairwise_append.mpr ⟨hsorted, hsorted', ?_⟩, ?_,
    fun hp => ?_⟩
  · rcases List.mem_append.mp hy with hy | hy
    · exact ⟨(hmore y hy).1, Nat.lt_of_lt_of_le (hmore y hy).2 hn'⟩
    · exact ⟨hn.trans (hmore' y hy).1, (hmore' y hy).2⟩
  · intro y hy z hz
    exact Nat.lt_of_lt_of_le (hmore y hy).2 (hmore' z hz).1
  · rw [← List.append_assoc]
    exact hsub'.trans (hsub.append_right more')
  · rw [hwhole' hp, hwhole hp, List.append_assoc]

theorem sorted (h : Extends n n' P l l') (hl : l.Pairwise (· < ·)) (hlt : ∀ y ∈ l, y < n)
    (hn : n ≤ n') : l'.Pairwise (· < ·) ∧ ∀ y ∈ l', y < n' := by
  obtain ⟨more, hmore, hsorted, hsub, -⟩ := h
  constructor
  · refine List.Pairwise.sublist hsub (List.pairwise_append.mpr ⟨hl, hsorted, fun y hy z hz => ?_⟩)
    exact Nat.lt_of_lt_of_le (hlt y hy) (hmore z hz).1
  · intro y hy
    rcases List.mem_append.mp (hsub.subset hy) with hy | hy
    · exact Nat.lt_of_lt_of_le (hlt y hy) hn
    · exact (hmore y hy).2

end Extends

/-! ## What is left alone -/

structure UWatcher.Keeps (r r' : UWatcher) : Prop where
  mode : r'.mode = r.mode
  cond : r'.cond = r.cond
  body : r'.body = r.body
  onleave : r'.onleave = r.onleave
  hostCb : r'.hostCb = r.hostCb
  armed : r'.armed = true → r.armed = true

theorem UWatcher.Keeps.refl (r : UWatcher) : Keeps r r := ⟨rfl, rfl, rfl, rfl, rfl, fun h => h⟩

theorem UWatcher.Keeps.trans {r r' r'' : UWatcher} (h : Keeps r r') (h' : Keeps r' r'') :
    Keeps r r'' :=
  ⟨h'.mode.trans h.mode, h'.cond.trans h.cond, h'.body.trans h.body, h'.onleave.trans h.onleave,
    h'.hostCb.trans h.hostCb, fun ha => h.armed (h'.armed ha)⟩

namespace World

structure Grows (w w' : World) : Prop where
  nwatchers : w.nwatchers ≤ w'.nwatchers
  all : Extends w.nwatchers w'.nwatchers (w.draining = true ∧ w'.draining = true) w.all w'.all
  subs : ∀ e, Extends w.nwatchers w'.nwatchers (w.draining = true ∧ w'.draining = true)
    (w.subs e) (w'.subs e)
  keeps : ∀ y, y < w.nwatchers → (w.watcher y).Keeps (w'.watcher y)
  ndirty : w.draining = true ∧ w'.draining = true → w.ndirty ≠ 0 → w'.ndirty ≠ 0

structure Calm (w w' : World) : Prop where
  grows : Grows w w'
  flag : w'.draining = w.draining

variable {w w' w'' : World}

theorem Grows.trans (h : Grows w w') (h' : Grows w' w'')
    (hmid : w.draining = true → w''.draining = true → w'.draining = true) : Grows w w'' where
  nwatchers := h.nwatchers.trans h'.nwatchers
  all := (h.all.mono (Nat.le_refl _) fun hd => ⟨hd.1, hmid hd.1 hd.2⟩).trans
    (h'.all.mono (Nat.le_refl _) fun hd => ⟨hmid hd.1 hd.2, hd.2⟩) h.nwatchers h'.nwatchers
  subs e := ((h.subs e).mono (Nat.le_refl _) fun hd => ⟨hd.1, hmid hd.1 hd.2⟩).trans
    ((h'.subs e).mono (Nat.le_refl _) fun hd => ⟨hmid hd.1 hd.2, hd.2⟩) h.nwatchers h'.nwatchers
  keeps y hy := (h.keeps y hy).trans (h'.keeps y (Nat.lt_of_lt_of_le hy h.nwatchers))
  ndirty hd hn := h'.ndirty ⟨hmid hd.1 hd.2, hd.2⟩ (h.ndirty ⟨hd.1, hmid hd.1 hd.2⟩ hn)

theorem Calm.then (h : Calm w w') (h' : Grows w' w'') : Grows w w'' :=
  h.grows.trans h' fun hd _ => h.flag.trans hd

namespace Calm

theorem trans (h : Calm w w') (h' : Calm w' w'') : Calm w w'' :=
  ⟨h.then h'.grows, h'.flag.trans h.flag⟩

theorem of_watches (h : w'.watches = w.watches) : Calm w w' := by
  have hw : w'.watcher = w.watcher := congrArg WatchPart.watcher h
  have hn : w'.nwatchers = w.nwatchers := congrArg WatchPart.nwatchers h
  have hall : w'.all = w.all := congrArg WatchPart.all h
  have hsubs : w'.subs = w.subs := congrArg WatchPart.subs h
  have hdirty : w'.ndirty = w.ndirty := congrArg WatchPart.ndirty h
  refine ⟨⟨Nat.le_of_eq hn.symm, ?_, fun e => ?_, fun y _ => ?_, fun _ h => ?_⟩,
    congrArg WatchPart.draining h⟩
  · rw [hn, hall]
    exact .refl _ _ _
  · rw [hn, hsubs]
    exact .refl _ _ _
  · rw [hw]
    exact .refl _
  · rw [hdirty]
    exact h

theorem refl (w : World) : Calm w w := of_watches rfl

theorem markDirty (w : World) : Calm w w.markDirty := by
  refine ⟨⟨Nat.le_refl _, .refl _ _ _, fun _ => .refl _ _ _, fun _ _ => .refl _, fun _ h => ?_⟩, rfl⟩
  show (if w.ndirty = 0xFFFFFFFF then w.ndirty else w.ndirty + 1) ≠ 0
  split
  · exact h
  · omega

theorem setWatcher (x : WatcherId) {f : UWatcher → UWatcher}
    (h : (w.watcher x).Keeps (f (w.watcher x))) : Calm w (w.setWatcher x f) := by
  refine ⟨⟨Nat.le_refl _, .refl _ _ _, fun _ => .refl _ _ _, fun y _ => ?_, fun _ h => h⟩, rfl⟩
  show (w.watcher y).Keeps (Function.update w.watcher x (f (w.watcher x)) y)
  by_cases hy : y = x
  · rw [hy, Function.update_self]
    exact h
  · rw [Function.update_of_ne hy]
    exact .refl _

theorem fired (w : World) (x : WatcherId) (b : Bool) :
    Calm w (w.setWatcher x fun r => { r with fired := b }) :=
  setWatcher x ⟨rfl, rfl, rfl, rfl, rfl, fun h => h⟩

theorem last (w : World) (x : WatcherId) (b : Bool) :
    Calm w (w.setWatcher x fun r => { r with last := b }) :=
  setWatcher x ⟨rfl, rfl, rfl, rfl, rfl, fun h => h⟩

theorem leavePending (w : World) (x : WatcherId) (b : Bool) :
    Calm w (w.setWatcher x fun r => { r with leavePending := b }) :=
  setWatcher x ⟨rfl, rfl, rfl, rfl, rfl, fun h => h⟩

theorem bodyStrand (w : World) (x : WatcherId) (c : Option StrandId) :
    Calm w (w.setWatcher x fun r => { r with bodyStrand := c }) :=
  setWatcher x ⟨rfl, rfl, rfl, rfl, rfl, fun h => h⟩

theorem unlist {subs : EventId → List WatcherId} (x : WatcherId) (hd : w.draining = false)
    (hsubs : ∀ e, (subs e).Sublist (w.subs e)) :
    Calm w { w with all := w.all.erase x, subs := subs } := by
  have hnot : ∀ b, ¬ (w.draining = true ∧ b) := fun _ h => by rw [hd] at h; cases h.1
  exact ⟨⟨Nat.le_refl _, .of_sublist List.erase_sublist (hnot _),
    fun e => .of_sublist (hsubs e) (hnot _), fun _ _ => .refl _, fun hp => absurd hp (hnot _)⟩, rfl⟩

theorem newWatcher (w : World) (r : UWatcher) : Calm w (w.newWatcher r) := by
  refine ⟨⟨Nat.le_succ _, .snoc _ _ _, fun e => (Extends.refl _ _ _).mono (Nat.le_succ _) fun h => h,
    fun y hy => ?_, fun _ h => h⟩, rfl⟩
  show (w.watcher y).Keeps (Function.update w.watcher w.nwatchers r y)
  rw [Function.update_of_ne (Nat.ne_of_lt hy)]
  exact .refl _

theorem subscribe (w : World) (r : UWatcher) (e : EventId) : Calm w
    { w.newWatcher r with subs := Function.update w.subs e (w.subs e ++ [w.nwatchers]) } := by
  refine ⟨{ (newWatcher w r).grows with subs := fun e' => ?_ }, rfl⟩
  show Extends w.nwatchers (w.nwatchers + 1) _ (w.subs e')
    (Function.update w.subs e (w.subs e ++ [w.nwatchers]) e')
  by_cases he : e' = e
  · rw [he, Function.update_self]
    exact .snoc _ _ _
  · rw [Function.update_of_ne he]
    exact (newWatcher w r).grows.subs e'

end Calm

theorem Tends.calm (h : Tends w w') : Calm w w' := by
  induction h with
  | aside hw _ => exact .of_watches hw
  | note _ => exact .of_watches rfl
  | markDirty => exact .markDirty _
  | cancel x | lapse x | unbind x => exact .setWatcher x ⟨rfl, rfl, rfl, rfl, rfl, by simp⟩
  | unlist x hd hsubs => exact .unlist x hd hsubs
  | newWatcher _ => exact .newWatcher _ _
  | subscribe e _ _ => exact .subscribe _ _ e
  | trans _ _ ih ih' => exact ih.trans ih'

end World

end Urbi.Sched
