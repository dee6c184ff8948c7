import Urbi.Sched.Course

/-!
# Serving a watcher

Calls made for a watcher, its rising and its falling edge, and the death of its body: each keeps
`Watching`, for the watcher it serves and for every other.
-/

namespace Urbi.Sched

variable {s : StrandId} {p : Purpose} {g : Grant}

namespace Watching

variable {x y : WatcherId} {w w' : World} {st : List CFrame} {f : CFrame}

theorem startCall (g : Grant) (h : Watching x ⟨w, .call s none p :: st⟩) :
    Watching x (Sys.startCall w s p g st) := by
  obtain ⟨saved, hc⟩ := Sys.Course.startCall w s p g st
  exact h.recalled.course hc

theorem onSpare (g : Grant) (h : Watching x ⟨w, .call 0 none p :: st⟩) :
    Watching x (Sys.onSpare w y p g st) :=
  startCall g (h.recalled.tends (.acquire _ _))

theorem runInline {has : Bool} (g : Grant) (h : Watching x ⟨w, st⟩) :
    Watching x (Sys.runInline w y has g st) := by
  unfold Sys.runInline
  split
  · exact onSpare g ((ordinary rfl).mpr h)
  · exact h

theorem returnCall {saved : Option UStrandState} {v : Bool}
    (h : Watching x ⟨w, .call s saved p :: st⟩) : Watching x (Sys.returnCall w s saved p v st) := by
  unfold Sys.returnCall
  split
  · exact h.got
  · refine h.got.tends ?_
    split
    · exact .refl
    · exact .setStrand s _

/-! ## Serving a watcher -/

structure Beside (w w' : World) : Prop where
  nwatchers : w'.nwatchers = w.nwatchers
  conds : ∀ y, (w'.watcher y).cond = (w.watcher y).cond
  known : w.Known → w'.Known
  draining : w'.draining = w.draining

namespace Beside

variable {w'' : World}

theorem trans (h : Beside w w') (h' : Beside w' w'') : Beside w w'' :=
  ⟨h'.nwatchers.trans h.nwatchers, fun y => (h'.conds y).trans (h.conds y),
    fun hk => h'.known (h.known hk), h'.draining.trans h.draining⟩

theorem setWatcher {f : UWatcher → UWatcher} (hc : ∀ r, (f r).cond = r.cond) :
    Beside w (w.setWatcher y f) := by
  have hconds : ∀ z, ((w.setWatcher y f).watcher z).cond = (w.watcher z).cond := by
    intro z
    show (Function.update w.watcher y (f (w.watcher y)) z).cond = _
    by_cases hz : z = y
    · rw [hz, Function.update_self]
      exact hc _
    · rw [Function.update_of_ne hz]
  exact ⟨rfl, hconds, fun hk => ⟨hk.all, fun e z hz => by rw [hconds]; exact hk.subs e z hz⟩, rfl⟩

theorem note (o : Obs) : Beside w (w.note o) :=
  ⟨rfl, fun _ => rfl, fun hk => ⟨hk.all, hk.subs⟩, rfl⟩

end Beside

structure Grown (w w' : World) : Prop where
  watcher : w'.watcher = w.watcher
  trace : w'.trace = w.trace
  beside : Beside w w'
  quiet : ∀ x, World.Quiet x w w'

theorem spawnFor_cases (w : World) (y : WatcherId) (has : Bool) (g : Grant) :
    (Sys.spawnFor w y has g = (w, none, false) ∧ (has = true → g.spawn = .nothing)) ∨
      Sys.spawnFor w y has g = (w, none, true) ∨
      ∃ w' c, Sys.spawnFor w y has g = (w', some c, false) ∧ Grown w w' := by
  unfold Sys.spawnFor
  cases has with
  | false => exact .inl ⟨rfl, nofun⟩
  | true =>
    cases hg : g.spawn with
    | nothing => exact .inl ⟨rfl, fun _ => rfl⟩
    | refused => exact .inr (.inl rfl)
    | spawned =>
      refine .inr (.inr ⟨_, _, rfl, rfl, rfl, ?_,
        (World.Tends.spawn (w.watcher y).realm (w.watcher y).tag true).quiet⟩)
      exact ⟨rfl, fun _ => rfl, fun hk => ⟨hk.all, hk.subs⟩, rfl⟩

theorem setWatcher_of_ne (hy : y ≠ x) {f : UWatcher → UWatcher}
    (hc : ∀ r, (f r).cond = r.cond) : World.Quiet x w (w.setWatcher y f) :=
  .setWatcher (hc _) fun he => absurd he hy

theorem serve (h : Watching x ⟨w, st⟩) (hb : Beside w w') (hx : x < w.nwatchers)
    (hasked : 0 < st.countP (CFrame.asks x) → (w'.watcher x).bodyStrand = none)
    (htracks : (w'.watcher x).loops → Tracks x (w'.watcher x) w'.trace) : Watching x ⟨w', st⟩ where
  known := hb.known h.known
  frames f hf := knows_congr (Nat.le_of_eq hb.nwatchers.symm) (fun y _ => hb.conds y) (h.frames f hf)
  brackets := by
    show Brackets w'.draining st
    rw [hb.draining]
    exact h.brackets
  alone := h.alone
  asked := hasked
  young hle := absurd hx (Nat.not_lt.mpr (hb.nwatchers ▸ hle))
  tracks _ hl := htracks hl

theorem idle (h : Watching x ⟨w, st⟩) (hb : Beside w w') (hx : x < w.nwatchers)
    (hasked : 0 < st.countP (CFrame.asks x) → (w'.watcher x).bodyStrand = (w.watcher x).bodyStrand)
    (hloop : ¬ (w'.watcher x).loops) : Watching x ⟨w', st⟩ :=
  h.serve hb hx (fun hpos => (hasked hpos).trans (h.asked hpos)) fun hl => absurd hl hloop

structure Spares (x y : WatcherId) (w : World) (st : List CFrame) : Prop where
  watching : Watching x ⟨w, st⟩
  lt : y < w.nwatchers
  spared : ¬ (y = x ∧ (w.watcher y).loops)

namespace Spares

variable (h : Spares x y w st)
include h

theorem set (f : UWatcher → UWatcher)
    (hf : ∀ r, (f r).cond = r.cond ∧ (f r).mode = r.mode ∧ (f r).body = r.body)
    (hasked : y = x → 0 < st.countP (CFrame.asks x) →
      (f (w.watcher y)).bodyStrand = (w.watcher y).bodyStrand) :
    Spares x y (w.setWatcher y f) st := by
  have hloop : ¬ (y = x ∧ ((w.setWatcher y f).watcher y).loops) := by
    rw [World.setWatcher_self]
    rintro ⟨hy, hm, hc, hbody⟩
    exact h.spared ⟨hy, (hf _).2.1 ▸ hm, (hf _).1 ▸ hc, (hf _).2.2 ▸ hbody⟩
  refine ⟨?_, h.lt, hloop⟩
  by_cases hy : y = x
  · subst hy
    refine h.watching.idle (.setWatcher fun r => (hf r).1) h.lt (fun hpos => ?_)
      fun hl => hloop ⟨rfl, hl⟩
    rw [World.setWatcher_self]
    exact hasked rfl hpos
  · exact h.watching.quiet (setWatcher_of_ne hy fun r => (hf r).1)

theorem fired (b : Bool) : Spares x y (w.setWatcher y fun r => { r with fired := b }) st :=
  h.set _ (fun _ => ⟨rfl, rfl, rfl⟩) fun _ _ => rfl

theorem grown (hw' : Grown w w') {o : Obs} (ho : o.about = some y) : Spares x y (w'.note o) st := by
  have hloop : ¬ (y = x ∧ (w'.watcher y).loops) := hw'.watcher ▸ h.spared
  refine ⟨?_, hw'.beside.nwatchers ▸ h.lt, hloop⟩
  by_cases hy : y = x
  · subst hy
    exact h.watching.idle (hw'.beside.trans (.note _)) h.lt
      (fun _ => congrArg (fun f => (f y).bodyStrand) hw'.watcher) fun hl => hloop ⟨rfl, hl⟩
  · refine h.watching.quiet ((hw'.quiet x).trans (.note ?_))
    rw [ho]
    exact fun he => hy (Option.some.inj he)

theorem fireWatcher (force : Bool) (g : Grant)
    (hfree : y = x → (w.watcher y).cond = true → st.countP (CFrame.asks x) = 0) :
    Watching x (Sys.fireWatcher w y force g st) := by
  have hbusy : (w.watcher y).cond = true → y = x → ¬ 0 < st.countP (CFrame.asks x) :=
    fun hc hy hpos => Nat.pos_iff_ne_zero.mp hpos (hfree hy hc)
  have hfired := h.fired true
  unfold Sys.fireWatcher
  dsimp only
  split
  · exact (ordinary rfl).mpr hfired.watching
  split
  · exact runInline g hfired.watching
  rcases spawnFor_cases (w.setWatcher y fun r => { r with fired := true }) y (w.watcher y).body g with
    ⟨heq, -⟩ | heq | ⟨w', c, heq, hw'⟩ <;> rw [heq] <;> dsimp only
  · rw [if_neg Bool.false_ne_true]
    split
    · rename_i hcond
      exact (hfired.set (fun r => { r with bodyStrand := none }) (fun _ => ⟨rfl, rfl, rfl⟩)
        fun hy hpos => absurd hpos (hbusy hcond.2 hy)).watching
    · exact hfired.watching
  · rw [if_pos rfl]
    have hback := hfired.fired (w.watcher y).fired
    split
    · exact quiet (hback.set (fun r => { r with last := false }) (fun _ => ⟨rfl, rfl, rfl⟩)
        fun _ _ => rfl).watching .markDirty
    · exact hback.watching
  · rw [if_neg Bool.false_ne_true]
    have hspawned := hfired.grown hw' (o := .bodyOf y c) rfl
    split
    · rename_i hcond
      exact (hspawned.set (fun r => { r with bodyStrand := some c }) (fun _ => ⟨rfl, rfl, rfl⟩)
        fun hy hpos => absurd hpos (hbusy hcond.2 hy)).watching
    · exact hspawned.watching

theorem leaveWatcher (g : Grant) : Watching x (Sys.leaveWatcher w y g st) := by
  have hfired := h.fired false
  unfold Sys.leaveWatcher
  dsimp only
  split
  · exact h.watching
  split
  · exact runInline g hfired.watching
  rcases spawnFor_cases (w.setWatcher y fun r => { r with fired := false }) y (w.watcher y).onleave g
    with ⟨heq, -⟩ | heq | ⟨w', c, heq, hw'⟩ <;> rw [heq] <;> dsimp only
  · exact hfired.watching
  · rw [if_pos rfl]
    exact quiet (hfired.fired true).watching .markDirty
  · rw [if_neg Bool.false_ne_true]
    exact (hfired.grown hw' (o := .elseOf y c) rfl).watching

end Spares

section Loop

variable (h : Watching x ⟨w, st⟩) (hx : x < w.nwatchers) (hloop : (w.watcher x).loops)
include h hx hloop

theorem alive_eq_nil (hnone : (w.watcher x).bodyStrand = none) : alive x w.trace = [] := by
  apply List.eq_nil_iff_forall_not_mem.mpr
  intro c hc
  have hsome := (h.tracks hx hloop).alive c hc
  rw [hnone] at hsome
  cases hsome

theorem fireWatcher_loop (hfit : g.spawn ≠ .nothing) (hnone : (w.watcher x).bodyStrand = none)
    (hfree : st.countP (CFrame.asks x) = 0) : Watching x (Sys.fireWatcher w x false g st) := by
  have ht := h.tracks hx hloop
  have halive := h.alive_eq_nil hx hloop hnone
  obtain ⟨hmode, hcond, hbody⟩ := hloop
  unfold Sys.fireWatcher
  dsimp only
  rw [ht.host, if_neg Bool.false_ne_true, hmode, if_neg (by simp), hbody]
  rcases spawnFor_cases (w.setWatcher x fun r => { r with fired := true }) x true g with
    ⟨heq, hnothing⟩ | heq | ⟨w', c, heq, hw'⟩
  · exact absurd (hnothing rfl) hfit
  · -- refused: as it was, but for the edge
    rw [heq]
    dsimp only
    rw [if_pos rfl, if_pos hcond, World.setWatcher_setWatcher, World.setWatcher_setWatcher]
    refine h.quiet ((World.Quiet.setWatcher rfl fun _ => ?_).trans .markDirty)
    exact ⟨rfl, rfl, rfl, rfl, rfl, rfl, fun h => h⟩
  · rw [heq]
    dsimp only
    rw [if_neg Bool.false_ne_true, if_pos ⟨rfl, hcond⟩]
    have hb : Beside w ((w'.note (.bodyOf x c)).setWatcher x
        fun r => { r with bodyStrand := some c }) :=
      (((Beside.setWatcher (f := fun r => { r with fired := true }) fun _ => rfl).trans
        hw'.beside).trans (.note _)).trans (.setWatcher fun _ => rfl)
    refine h.serve hb hx (fun hpos => absurd hfree (Nat.pos_iff_ne_zero.mp hpos)) fun _ => ?_
    have hrec : w'.watcher x = { w.watcher x with fired := true } := by
      rw [hw'.watcher]
      exact World.setWatcher_self ..
    have htr : w'.trace = w.trace := hw'.trace
    show Tracks x ((World.setWatcher _ x _).watcher x) (.bodyOf x c :: w'.trace)
    rw [World.setWatcher_self, htr]
    show Tracks x { w'.watcher x with bodyStrand := some c } (.bodyOf x c :: w.trace)
    rw [hrec]
    exact
      { host := ht.host
        alive := fun s hs => by
          rw [alive, if_pos rfl, halive] at hs
          rw [List.mem_singleton.mp hs]
        fired := fun _ => by rw [bodySince, beq_self_eq_true, Bool.true_or]
        pending := fun hp => by
          have hsome := (ht.pending hp).2
          rw [hnone] at hsome
          cases hsome
        alternates := ⟨fun _ _ => halive, fun _ ho => (by cases ho), ht.alternates⟩ }

theorem leaveWatcher_loop (halive : alive x w.trace = []) (hfell : fellSince x w.trace = true) :
    Watching x (Sys.leaveWatcher w x g st) := by
  have ht := h.tracks hx hloop
  unfold Sys.leaveWatcher
  dsimp only
  split
  · exact h
  rename_i howed
  have hfired : (w.watcher x).fired = true := by
    by_contra hf
    exact howed (.inr hf)
  rw [if_neg (by rw [hloop.1]; nofun)]
  have hw₁ : Watching x ⟨w.setWatcher x fun r => { r with fired := false }, st⟩ := by
    refine h.serve (.setWatcher fun _ => rfl) hx (fun hpos => ?_) fun _ => ?_
    · rw [World.setWatcher_self]
      exact h.asked hpos
    · rw [World.setWatcher_self]
      exact { ht with fired := fun hf => absurd hf Bool.false_ne_true }
  rcases spawnFor_cases (w.setWatcher x fun r => { r with fired := false }) x (w.watcher x).onleave g
    with ⟨heq, -⟩ | heq | ⟨w', c, heq, hw'⟩ <;> rw [heq] <;> dsimp only
  · exact hw₁
  · -- refused: the arm is still owed
    rw [if_pos rfl, Option.elim_none, World.setWatcher_setWatcher]
    refine h.quiet ((World.Quiet.setWatcher rfl fun _ => ?_).trans .markDirty)
    exact ⟨rfl, rfl, rfl, hfired.symm, rfl, rfl, fun h => h⟩
  · rw [if_neg Bool.false_ne_true]
    have hrec : w'.watcher x = { w.watcher x with fired := false } := by
      rw [hw'.watcher]
      exact World.setWatcher_self ..
    have htr : w'.trace = w.trace := hw'.trace
    have hb : Beside w (w'.note (.elseOf x c)) :=
      ((Beside.setWatcher (f := fun r => { r with fired := false }) fun _ => rfl).trans
        hw'.beside).trans (.note _)
    refine h.serve hb hx (fun hpos => ?_) fun _ => ?_
    · show (w'.watcher x).bodyStrand = none
      rw [hrec]
      exact h.asked hpos
    · show Tracks x (w'.watcher x) (.elseOf x c :: w'.trace)
      rw [hrec, htr]
      exact
        { host := ht.host
          alive := fun s hs => by
            have hs : s ∈ alive x w.trace := hs
            rw [halive] at hs
            cases hs
          fired := fun hf => absurd hf Bool.false_ne_true
          pending := fun hp => ht.pending hp
          alternates :=
            ⟨fun _ ho => (by cases ho), fun _ _ => ⟨halive, ht.fired hfired, hfell⟩, ht.alternates⟩ }

end Loop

/-! ## The drain and the death of a body -/

section Edge

variable (h : Watching x ⟨w, st⟩) (hy : y < w.nwatchers)
include h hy

theorem found (v : Bool) : Watching x ⟨w.note (.found y v), st⟩ := by
  by_cases heq : y = x
  · subst heq
    refine h.serve (.note _) hy h.asked fun hl => ?_
    have ht := h.tracks hy hl
    show Tracks y (w.watcher y) (.found y v :: w.trace)
    refine { ht with pending := fun hp => ?_, alternates := ⟨fun _ ho => ?_, fun _ ho => ?_, ?_⟩ }
    · rw [fellSince, (ht.pending hp).1, Bool.or_true]
      exact ⟨rfl, (ht.pending hp).2⟩
    · cases ho
    · cases ho
    · exact ht.alternates
  · exact h.quiet (.note fun he => heq (Option.some.inj he))

def answered (w : World) (y : WatcherId) (now : Bool) : World :=
  (w.note (.found y now)).setWatcher y fun r => { r with last := now }

omit h hy in
theorem answered_watcher (w : World) (y : WatcherId) (now : Bool) :
    (answered w y now).watcher y = { w.watcher y with last := now } := World.setWatcher_self ..

omit h hy in
theorem loops_answered {now : Bool} :
    ((answered w y now).watcher y).loops ↔ (w.watcher y).loops := by
  rw [answered_watcher]
  rfl

theorem answer (now : Bool) : Watching x ⟨answered w y now, st⟩ :=
  (h.found hy now).quiet (.setWatcher rfl fun _ => ⟨rfl, rfl, rfl, rfl, rfl, rfl, fun h => h⟩)

variable (hnone : y = x → (w.watcher y).loops → (w.watcher y).bodyStrand = none)
include hnone

theorem rise {now : Bool} (hfit : y = x → g.spawn ≠ .nothing)
    (hfree : y = x → st.countP (CFrame.asks x) = 0) :
    Watching x (Sys.fireWatcher (answered w y now) y false g st) := by
  have hw := h.answer hy now
  by_cases hl : y = x ∧ ((answered w y now).watcher y).loops
  · obtain ⟨rfl, hl⟩ := hl
    refine fireWatcher_loop hw hy hl (hfit rfl) ?_ (hfree rfl)
    rw [answered_watcher]
    exact hnone rfl (loops_answered.mp hl)
  · exact Spares.fireWatcher ⟨hw, hy, hl⟩ false g fun heq _ => hfree heq

theorem fall (g : Grant) : Watching x (Sys.leaveWatcher (answered w y false) y g st) := by
  have hw := h.answer hy false
  by_cases hl : y = x ∧ ((answered w y false).watcher y).loops
  · obtain ⟨rfl, hl⟩ := hl
    refine leaveWatcher_loop hw hy hl (hw.alive_eq_nil hy hl ?_) ?_
    · rw [answered_watcher]
      exact hnone rfl (loops_answered.mp hl)
    · show fellSince y (Obs.found y false :: w.trace) = true
      rw [fellSince, beq_self_eq_true]
      rfl
  · exact Spares.leaveWatcher ⟨hw, hy, hl⟩ g

omit hnone

theorem edge (now : Bool) (hfit : y = x → g.spawn ≠ .nothing)
    (hfree : y = x → st.countP (CFrame.asks x) = 0) :
    Watching x (Sys.edge (w.note (.found y now)) y now g st) := by
  have hlast := h.answer hy now
  -- past the test for a body in flight there is none
  have hnone : ¬ ((w.watcher y).mode = .whenever ∧ (w.watcher y).bodyStrand.isSome) →
      y = x → (w.watcher y).loops → (w.watcher y).bodyStrand = none := by
    intro hbusy _ hl
    by_contra hsome
    exact hbusy ⟨hl.1, Option.isSome_iff_ne_none.mpr hsome⟩
  unfold Sys.edge
  dsimp only
  split
  · exact h.found hy now
  split
  · split
    · exact hlast.tends ((World.Tends.lapse y).trans (.on _))
    split
    · exact hlast
    · rename_i hbusy
      exact h.rise hy (hnone hbusy) hfit hfree
  split
  · rename_i hfall
    obtain rfl : now = false := by simpa using hfall.1
    split
    · rename_i hbusy
      by_cases heq : y = x
      · subst heq
        refine hlast.serve (.setWatcher fun _ => rfl) hy
          (fun hpos => absurd (hfree rfl) (Nat.pos_iff_ne_zero.mp hpos)) fun hl => ?_
        rw [World.setWatcher_self] at hl ⊢
        have ht := hlast.tracks hy hl
        refine { ht with pending := fun _ => ⟨?_, ?_⟩ }
        · show fellSince y (Obs.found y false :: w.trace) = true
          rw [fellSince, beq_self_eq_true]
          rfl
        · show ((answered w y false).watcher y).bodyStrand.isSome = true
          rw [answered_watcher]
          exact hbusy.2
      · exact hlast.quiet (setWatcher_of_ne heq fun _ => rfl)
    · rename_i hbusy
      exact h.fall hy (hnone hbusy) g
  · exact hlast

/-- From here to the answer of the condition no other walk can fire the watcher. -/
theorem again (owed : Bool) (hnone : y = x → (w.watcher y).bodyStrand = none)
    (hfree : y = x → st.countP (CFrame.asks x) = 0) :
    Watching x ⟨{ w with draining := true }, .again y owed :: .done w.draining :: st⟩ where
  known := ⟨h.known.all, h.known.subs⟩
  frames f hf := by
    rcases List.mem_cons.mp hf with rfl | hf
    · exact hy
    rcases List.mem_cons.mp hf with rfl | hf
    · trivial
    · exact knows_congr (Nat.le_refl _) (fun _ _ => rfl) (h.frames f hf)
  brackets := ⟨⟨_, _, rfl⟩, rfl, h.brackets⟩
  alone := by
    show List.countP _ _ ≤ 1
    by_cases heq : y = x
    · rw [List.countP_cons, List.countP_cons, hfree heq]
      simp [CFrame.asks, heq]
    · simpa [CFrame.asks, heq] using h.alone
  asked hpos := by
    by_cases heq : y = x
    · exact heq ▸ hnone heq
    · exact h.asked (by simpa [CFrame.asks, heq] using hpos)
  young := h.young
  tracks := h.tracks

end Edge

theorem forget (h : Watching x ⟨w, st⟩) (hx : x < w.nwatchers) (halive : alive x w.trace = [])
    (hfree : st.countP (CFrame.asks x) = 0) :
    Watching x ⟨w.setWatcher x fun r => { r with bodyStrand := none, leavePending := false }, st⟩ := by
  refine h.serve (.setWatcher fun _ => rfl) hx
    (fun hpos => absurd hfree (Nat.pos_iff_ne_zero.mp hpos)) fun hl => ?_
  rw [World.setWatcher_self] at hl ⊢
  have ht := h.tracks hx hl
  refine { ht with alive := fun c hc => ?_, pending := fun hp => absurd hp Bool.false_ne_true }
  have hc : c ∈ alive x w.trace := hc
  rw [halive] at hc
  cases hc

theorem bodyDone (g : Grant) (h : Watching x ⟨w, st⟩) (hdead : s ∉ alive x w.trace) :
    Watching x (Sys.bodyDone w s g st) := by
  unfold Sys.bodyDone
  split
  · exact h
  rename_i y hfind
  have hy : y < w.nwatchers := h.known.all y (List.mem_of_find?_eq_some hfind)
  have hstrand : (w.watcher y).bodyStrand = some s := by simpa using List.find?_some hfind
  have hfree : y = x → st.countP (CFrame.asks x) = 0 := by
    rintro rfl
    by_contra hne
    have hnone := h.asked (Nat.pos_iff_ne_zero.mpr hne)
    rw [hstrand] at hnone
    cases hnone
  have hbusy : y = x → ¬ 0 < st.countP (CFrame.asks x) := fun heq hpos =>
    Nat.pos_iff_ne_zero.mp hpos (hfree heq)
  dsimp only
  split
  · -- no loop
    rename_i hother
    refine (Spares.set ⟨h, hy, fun hl => ?_⟩ (fun r => { r with bodyStrand := none })
      (fun _ => ⟨rfl, rfl, rfl⟩) fun heq hpos => absurd hpos (hbusy heq)).watching
    exact hother.elim (fun hm => hm hl.2.1) fun hc => hc hl.2.2.1
  rw [World.setWatcher_setWatcher]
  have hdone : Watching x
      ⟨w.setWatcher y fun r => { r with bodyStrand := none, leavePending := false }, st⟩ := by
    by_cases hl : y = x ∧ (w.watcher y).loops
    · obtain ⟨rfl, hl⟩ := hl
      refine h.forget hy ?_ (hfree rfl)
      apply List.eq_nil_iff_forall_not_mem.mpr
      intro c hc
      have hsome := (h.tracks hy hl).alive c hc
      rw [show (Sys.mk w st).world.watcher y = w.watcher y from rfl, hstrand] at hsome
      cases hsome
      exact hdead hc
    · exact (Spares.set ⟨h, hy, hl⟩ (fun r => { r with bodyStrand := none, leavePending := false })
        (fun _ => ⟨rfl, rfl, rfl⟩) fun heq hpos => absurd hpos (hbusy heq)).watching
  split
  · exact hdone
  have hrec : (w.setWatcher y fun r => { r with bodyStrand := none, leavePending := false }).watcher
      y = { w.watcher y with bodyStrand := none, leavePending := false } := World.setWatcher_self ..
  have hagain := again hdone hy (w.watcher y).leavePending (fun _ => by rw [hrec]) hfree
  split
  · rename_i howed
    have hloops := iff_of_eq (congrArg UWatcher.loops hrec)
    by_cases hl : y = x ∧ (w.watcher y).loops
    · obtain ⟨rfl, hl⟩ := hl
      have hl' := hloops.mpr hl
      refine leaveWatcher_loop hagain hy hl' (hagain.alive_eq_nil hy hl' ?_) ?_
      · exact congrArg UWatcher.bodyStrand hrec
      · exact ((h.tracks hy hl).pending howed).1
    · exact Spares.leaveWatcher ⟨hagain, hy, fun hl' => hl ⟨hl'.1, hloops.mp hl'.2⟩⟩ g
  · exact hagain

end Watching

end Urbi.Sched
