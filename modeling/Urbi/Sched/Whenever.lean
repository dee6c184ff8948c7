import Urbi.Sched.Serve

/-!
# The whenever machine

A `whenever` on a condition keeps one body in flight at a time, remembers a fall that it saw while
the body ran, and asks its condition again when the body dies.
-/

namespace Urbi.Sched

namespace Watching

variable {x y : WatcherId} {w w' : World} {st : List CFrame} {f : CFrame}

theorem finishRun {s : StrandId} {u : UStrandState} {prev : Option StrandId} {g : Grant} {σ : Sys}
    (h : Watching x ⟨w, st⟩) (hf : Sys.finishRun w s u prev g st = some σ) : Watching x σ := by
  -- the strand's state is written, and the dispatching strand restored
  have hset : World.Tends w
      { w.setStrand s (fun r => { r with state := u }) with current := prev } :=
    (World.Tends.setStrand s _).trans (.current _)
  have hdead : ∀ (w : World) c, c ∉ alive x (w.onDeath c).trace := by
    intro w c hmem
    have hmem : c ∈ (alive x w.trace).filter fun s => s != c := hmem
    exact absurd (List.mem_filter.mp hmem).2 (by simp)
  unfold Sys.finishRun at hf
  split at hf
  · have h' : Watching x ⟨w, _⟩ := (ordinary rfl).mp h
    cases hf
    split
    · exact bodyDone g ((ordinary rfl).mpr ((h'.tends hset).tends (.onDeath s))) (hdead _ s)
    split
    · exact (ordinary rfl).mpr (h'.tends hset)
    · exact (ordinary rfl).mpr ((h'.tends hset).tends (.on _))
  · rename_i c stack
    have h' : Watching x ⟨w, stack⟩ := (ordinary rfl).mp h
    cases hf
    split
    · exact bodyDone g ((ordinary rfl).mpr ((h'.tends hset).tends (.onDeath c))) (hdead _ c)
    split
    · exact h'.tends hset
    · exact ((ordinary rfl).mpr (h'.tends hset)).course (.dispatch c)
  · cases hf
    split
    · exact (h.tends hset).got
    · exact returnCall (h.tends hset).recalled
  · cases hf

section

variable {s : StrandId} {prev : Option StrandId} {g : Grant} {σ : Sys}

theorem outcome (h : Watching x ⟨w, st⟩) (ho : Sys.Outcome w st σ) : Watching x σ := by
  cases ho with
  | goesOn hc => exact h.course hc
  | leaves ht hf => exact (h.tends ht).finishRun hf
  | returns ht => exact returnCall (h.tends ht).recalled

theorem drainTurn {rest : List WatcherId} (h : Watching x ⟨w, .drain rest :: st⟩) :
    Watching x (Sys.drainTurn w g st rest) := by
  unfold Sys.drainTurn
  split
  · exact (h.pop h.brackets.2).tends .sweep
  · rename_i y rest
    have hrest : Watching x ⟨w, .drain rest :: st⟩ :=
      h.swap (fun hk z hz => hk z (List.mem_cons_of_mem _ hz)) (fun hb => hb) fun ha => ha
    dsimp only
    split
    · refine onSpare g (hrest.reframe (d := w.draining) (fun f hf => ?_)
        ⟨⟨_, _, rfl⟩, hrest.brackets⟩ (Nat.le_of_eq ?_))
      · rcases List.mem_cons.mp hf with rfl | hf
        · exact h.frames _ List.mem_cons_self y List.mem_cons_self
        · exact hrest.frames f hf
      · rw [List.countP_cons]
        rfl
    · exact hrest

theorem fanTurn {e : EventId} {sync before : Bool} {rest : List WatcherId}
    (h : Watching x ⟨w, .fan e sync rest before :: st⟩) :
    Watching x (Sys.fanTurn w e sync before g st rest) := by
  unfold Sys.fanTurn
  split
  · exact ((h.pop h.brackets.2).tends .sweep).tends (deliver e)
  · rename_i y rest
    have hrest : Watching x ⟨w, .fan e sync rest before :: st⟩ :=
      h.swap (fun hk z hz => hk z (List.mem_cons_of_mem _ hz)) (fun hb => hb) fun ha => ha
    obtain ⟨hlt, hcond⟩ := h.frames _ List.mem_cons_self y List.mem_cons_self
    dsimp only
    split
    · exact hrest
    split
    · exact hrest.tends ((World.Tends.lapse y).trans (.on _))
    · have hno : (w.watcher y).cond ≠ true := Bool.eq_false_iff.mp hcond
      exact Spares.fireWatcher ⟨hrest, hlt, fun hl => hno hl.2.2.1⟩ _ g fun _ hc => absurd hc hno

theorem gotTurn {v : Option Bool} {p : Purpose}
    (hfit : p = .cond x ∨ (∃ owed, p = .again x owed) → g.spawn ≠ .nothing)
    (hp : p.ordinary = false) (h : Watching x ⟨w, .got s p v :: st⟩)
    (hc : Sys.gotTurn w s v g st p = some σ) : Watching x σ := by
  cases p with
  | plain | wait | body => cases hp
  | cond y =>
    obtain ⟨⟨rest, st', rfl⟩, hdrain⟩ := h.brackets
    have hlt : y < w.nwatchers := h.frames _ List.mem_cons_self
    have h' : Watching x ⟨w, .drain rest :: st'⟩ := h.pop hdrain
    dsimp only [Sys.gotTurn] at hc
    split at hc
    · -- a condition that raised cancels its watcher
      cases hc
      exact h'.tends (.lapse y)
    · cases hc
      refine h'.edge hlt _ (fun hy => hfit (.inl (hy ▸ rfl))) fun _ => ?_
      -- below a drain there is no other walk
      apply List.countP_eq_zero.mpr
      intro f hf
      rcases List.mem_cons.mp hf with rfl | hf
      · nofun
      · rw [hdrain.2.not_asks f hf]
        exact Bool.false_ne_true
  | again y owed =>
    have hlt : y < w.nwatchers := h.frames _ List.mem_cons_self
    have h' : Watching x ⟨w, st⟩ := h.pop h.brackets.2
    dsimp only [Sys.gotTurn] at hc
    split at hc
    · cases hc
      exact h'.tends (.lapse y)
    rename_i now
    have hcount : y = x → (CFrame.got s (.again y owed) (some now) :: st).countP (CFrame.asks x) =
        st.countP (CFrame.asks x) + 1 := by
      rintro rfl
      rw [List.countP_cons, if_pos (by simp [CFrame.asks])]
    have hfree : y = x → st.countP (CFrame.asks x) = 0 := fun hy => by
      have halone := h.alone
      rw [hcount hy] at halone
      omega
    have hnone : y = x → (w.watcher y).loops → (w.watcher y).bodyStrand = none := fun hy _ =>
      hy ▸ h.asked (hcount hy ▸ Nat.succ_pos _)
    split at hc
    · cases hc
      exact h'.found hlt now
    cases hc
    split
    · exact h'.rise hlt hnone (fun hy => hfit (.inr ⟨owed, by rw [hy]⟩)) hfree
    split
    · exact h'.answer hlt now
    · rename_i hnow _
      obtain rfl : now = false := Bool.eq_false_iff.mpr hnow
      exact h'.fall hlt hnone g

end

end Watching

/-- A spawn of a script's closure that takes what it is given is refused for want of memory, and
nothing else. -/
def Sys.fits (x : WatcherId) (σ : Sys) : Choice → Bool
  | .next g =>
    match σ.stack with
    | .got _ (.cond y) _ :: _ | .got _ (.again y _) _ :: _ => y != x || g.spawn != .nothing
    | _ => true
  | _ => true

namespace Watching

variable {x : WatcherId} {σ σ' : Sys}

theorem step {c : Choice} (h : Watching x σ) (hfit : σ.fits x c = true)
    (hc : σ.step c = some σ') : Watching x σ' := by
  obtain ⟨w, st⟩ := σ
  have hturn : Sys.Turn w c st σ' := Sys.Turn.of_step hc
  cases hturn with
  | stay hcourse => exact h.course hcourse
  | pop hf ho => exact ((ordinary hf).mp h).outcome ho
  | under hf ho => exact ((ordinary rfl).mp ((ordinary hf).mp h)).outcome ho
  | drain => exact drainTurn h
  | fan => exact fanTurn h
  | again g =>
    split
    · exact onSpare g (h.swap (fun hk => hk) (fun hb => hb) fun ha => ha)
    · exact h.pop h.brackets.2
  | done => exact (h.pop h.brackets.2).tends .sweep
  | got hnext hp hgot =>
    subst hnext
    refine gotTurn (fun hasked => ?_) hp h hgot
    rcases hasked with rfl | ⟨owed, rfl⟩ <;> simpa [Sys.fits] using hfit

theorem boot (x : WatcherId) (t : TagId) : Watching x (Sys.boot t) where
  known := ⟨nofun, fun _ => nofun⟩
  frames := nofun
  brackets := rfl
  alone := Nat.zero_le _
  asked hpos := absurd hpos (Nat.lt_irrefl 0)
  young _ := nofun
  tracks hx := absurd hx (Nat.not_lt_zero x)

theorem of_runs {t : TagId} (h : Sys.Runs (Sys.fits x) (Sys.boot t) σ) : Watching x σ := by
  induction h with
  | refl => exact boot x t
  | step _ c hfit hc ih => exact ih.step hfit hc

end Watching

/-- The whenever machine, at every moment of every run: at most one body is alive; an else arm is
spawned when none is, after a body that no else arm has followed, and after the condition has been
found false since that body was spawned. -/
theorem whenever_alternates {x : WatcherId} {t : TagId} {σ : Sys}
    (h : Sys.Runs (Sys.fits x) (Sys.boot t) σ) (hx : x < σ.world.nwatchers)
    (hloop : (σ.world.watcher x).loops) (later tr : List Obs)
    (htr : σ.world.trace = later ++ tr) :
    (alive x tr).length ≤ 1 ∧ ∀ c earlier, tr = .elseOf x c :: earlier →
      alive x earlier = [] ∧ bodySince x earlier = true ∧ fellSince x earlier = true := by
  have halt : Alternates x tr := by
    have hall := ((Watching.of_runs h).tracks hx hloop).alternates
    rw [htr] at hall
    exact hall.suffix
  refine ⟨halt.alive_le, fun c earlier he => ?_⟩
  subst he
  exact halt.2.1 c rfl

/-- Its condition holds, its body runs and dies, and the condition does not hold any more. -/
def oneRound : List Choice :=
  let g : Grant := ⟨.spawned, true, true, false⟩
  [.prim (.chunk 0 true), .step 0, .fire 0 fun _ => true, .next g,
    .instr (.install .whenever none true true true) g, .instr .die g, .next g, .next g,
    .instr (.ret true) g, .next g, .next g, .next g, .instr .die g, .next g,
    .instr (.ret false) g, .next g]

theorem whenever_alternates_oneRound : ∃ σ, Sys.Runs (Sys.fits 0) (Sys.boot 0) σ ∧
    0 < σ.world.nwatchers ∧ (σ.world.watcher 0).loops ∧
    ∃ earlier, σ.world.trace = .elseOf 0 4 :: earlier ∧ alive 0 earlier = [] ∧
      bodySince 0 earlier = true ∧ fellSince 0 earlier = true := by
  have hrun : ((Sys.runAll (Sys.fits 0) (Sys.boot 0) oneRound).any fun σ =>
      decide (0 < σ.world.nwatchers ∧ (σ.world.watcher 0).loops ∧
        σ.world.trace.head? = some (.elseOf 0 4))) = true := by decide +kernel
  obtain ⟨σ, hσ, hcheck⟩ := (Option.any_eq_true _ _).mp hrun
  obtain ⟨hn, hl, hhead⟩ := of_decide_eq_true hcheck
  obtain ⟨earlier, htr⟩ := List.head?_eq_some_iff.mp hhead
  have hruns := Sys.Runs.refl.of_runAll hσ
  exact ⟨σ, hruns, hn, hl, earlier, htr, (whenever_alternates hruns hn hl [] _ htr).2 4 earlier rfl⟩

end Urbi.Sched
