import Urbi.Gc.Exact

/-!
# The collector under the program

The program allocates cells, which may collect first, and stores references to cells that it reaches
or has just been handed.  Whatever it does in whatever order, no cell that it can reach is freed.
-/

namespace Urbi

open Lib (except_bind_eq_ok except_bind_ok)

def CellGraph.fresh {κ : Type} [DecidableEq κ] (h : CellGraph κ) (c : κ) (n : UInt64) :
    CellGraph κ where
  fixed := h.fixed
  children := Function.update h.children c []
  pinned := Function.update h.pinned c false
  size := Function.update h.size c n.toUInt32

namespace UGc

variable {κ : Type} [DecidableEq κ] {alloc : Nat → Bool} {h : CellGraph κ} {g g' : UGc κ} {c : κ}
  {events : List (SweepEvent κ)} {fuel : Nat}

/-! ## Allocation -/

/-- What the pacing reads and the collector does not write. -/
structure Pace where
  threshold : UInt64
  pauseRatio : UInt8
  -- 0 is unbounded
  heapBudget : UInt64
  chunkBytes : UInt64

def shouldCollect (p : Pace) (g : UGc κ) : Bool :=
  let limit := max (g.paceBase * p.pauseRatio.toUInt64 / 100) p.threshold
  let soft := p.heapBudget / 4 * 3
  let held := g.paceBase + p.chunkBytes
  let room := max (if held < soft then soft - held else 0) (p.heapBudget / 32)
  g.collectRequested || g.bytesSince > if p.heapBudget ≠ 0 then min room limit else limit

def maybeCollect (alloc : Nat → Bool) (h : CellGraph κ) (p : Pace) (fuel : Nat) (g : UGc κ) :
    Except Halt (UGc κ × List (SweepEvent κ)) :=
  if g.shouldCollect p then g.ugcCollect alloc h fuel else .ok (g, [])

def link (g : UGc κ) (c : κ) (n : UInt64) : UGc κ :=
  { g with
    all := c :: g.all
    marked := Function.update g.marked c .white
    cellsLive := g.cellsLive + 1
    bytesSince := g.bytesSince + n }

/-- `ugc_alloc`, when the allocator is to hand out `c`: its answers to the request and to the one
after a collection are `grant`. -/
def ugcAlloc (alloc : Nat → Bool) (h : CellGraph κ) (p : Pace) (fuel : Nat) (grant : Bool × Bool)
    (c : κ) (n : UInt64) (g : UGc κ) : Except Halt (UGc κ × List (SweepEvent κ) × Bool) :=
  g.maybeCollect alloc h p fuel >>= fun (g, events) =>
    if grant.1 then .ok (g.link c n, events, true)
    else g.ugcCollect alloc h fuel >>= fun (g, events') =>
      .ok (if grant.2 then g.link c n else { g with collectRequested := true },
        events ++ events', grant.2)

theorem ugcCollect_mono {fuel' : Nat} {r : UGc κ × List (SweepEvent κ)} (hle : fuel ≤ fuel')
    (hc : g.ugcCollect alloc h fuel = .ok r) : g.ugcCollect alloc h fuel' = .ok r := by
  unfold ugcCollect at hc ⊢
  split at hc <;> rename_i hin
  · rwa [if_pos hin]
  · obtain ⟨g₁, hm, hc⟩ := except_bind_eq_ok.mp hc
    rw [if_neg hin, markPhase_mono hle hm]
    exact hc

theorem collected_of_ok (hr : Ready h g) (hn : g.all.length ≤ 2 ^ 31)
    (hc : g.ugcCollect alloc h fuel = .ok (g', events)) : Collected h g g' events := by
  have hex : CollectsExactly alloc h g := collectsExactly_of_le hr hn
  obtain ⟨g₁, events₁, hall, hcol⟩ := hex
  cases (ugcCollect_mono (Nat.le_max_left fuel g.steps) hc).symm.trans (hall _ (Nat.le_max_right ..))
  exact hcol

/-- A collection, or none. -/
def Spares (h : CellGraph κ) (g g' : UGc κ) (events : List (SweepEvent κ)) : Prop :=
  Ready h g' ∧ g'.all.Sublist g.all ∧
    ∀ c, Live h g.all c → Live h g'.all c ∧ .finalize c ∉ events ∧ .free c ∉ events

theorem Collected.spares (hc : Collected h g g' events) : Spares h g g' events := by
  refine ⟨hc.ready, hc.order, fun c hl => ⟨hl.holds ?_ fun x y hx hy => hx.step hy, hc.spared c hl⟩⟩
  rintro x (hx | hx)
  · exact .of_root (.inl hx)
  · exact .of_root (.inr ⟨(hc.kept x).mpr (.of_root (.inr hx)), hx.2⟩)

omit [DecidableEq κ] in
theorem Spares.trans {g₁ : UGc κ} {events₁ : List (SweepEvent κ)} (h₁ : Spares h g g₁ events₁)
    (h₂ : Spares h g₁ g' events) : Spares h g g' (events₁ ++ events) := by
  refine ⟨h₂.1, h₂.2.1.trans h₁.2.1, fun c hl => ?_⟩
  obtain ⟨hl₁, hf₁, hr₁⟩ := h₁.2.2 c hl
  obtain ⟨hl₂, hf₂, hr₂⟩ := h₂.2.2 c hl₁
  exact ⟨hl₂, by simp [hf₁, hf₂], by simp [hr₁, hr₂]⟩

theorem maybeCollect_spares {p : Pace} (hr : Ready h g) (hn : g.all.length ≤ 2 ^ 31)
    (hc : g.maybeCollect alloc h p fuel = .ok (g', events)) : Spares h g g' events := by
  unfold maybeCollect at hc
  split at hc
  · exact (collected_of_ok hr hn hc).spares
  · cases hc
    exact ⟨hr, .refl _, fun c hl => ⟨hl, nofun, nofun⟩⟩

theorem ugcAlloc_spares {p : Pace} {grant : Bool × Bool} {n : UInt64} {ok : Bool} (hr : Ready h g)
    (hn : g.all.length ≤ 2 ^ 31) (hc : g.ugcAlloc alloc h p fuel grant c n = .ok (g', events, ok)) :
    ∃ g₁, Spares h g g₁ events ∧
      g' = if ok then g₁.link c n else { g₁ with collectRequested := true } := by
  unfold ugcAlloc at hc
  obtain ⟨⟨g₁, events₁⟩, hm, hc⟩ := except_bind_eq_ok.mp hc
  have h₁ := maybeCollect_spares hr hn hm
  dsimp only at hc
  split at hc
  · cases hc
    exact ⟨g₁, h₁, rfl⟩
  · obtain ⟨⟨g₂, events₂⟩, hm₂, ⟨⟩⟩ := except_bind_eq_ok.mp hc
    have h₂ := (collected_of_ok h₁.1 (Nat.le_trans h₁.2.1.length_le hn) hm₂).spares
    exact ⟨g₂, h₁.trans h₂, rfl⟩

theorem Ready.link {n : UInt64} (hr : Ready h g) (hc : c ∉ g.all) :
    Ready (h.fresh c n) (g.link c n) where
  closed := by
    refine ⟨List.nodup_cons.mpr ⟨hc, hr.closed.nodup⟩, fun x hx => .tail _ (hr.closed.fixed x hx),
      fun x hx d hd => ?_⟩
    rcases List.mem_cons.mp hx with rfl | hx
    · simp [CellGraph.fresh] at hd
    · have hxc : x ≠ c := fun he => hc (he ▸ hx)
      exact .tail _ (hr.closed.children x hx d (by simpa [CellGraph.fresh, hxc] using hd))
  white x := by simp [UGc.link, Function.update_apply, hr.white x]
  empty := hr.empty
  kept := hr.kept
  cap := hr.cap
  idle := hr.idle

end UGc

/-! ## Runs -/

/-- The heap, and the cells that the program has a pointer to in its hands. -/
structure Mutator (κ : Type) where
  graph : CellGraph κ
  gc : UGc κ
  held : List κ

namespace Mutator

open UGc

variable {κ : Type}

def Usable (m : Mutator κ) (c : κ) : Prop := Live m.graph m.gc.all c ∨ c ∈ m.held

/-- A pointer in hand keeps nothing alive: it is good as long as the cell is there. -/
inductive Step [DecidableEq κ] (alloc : Nat → Bool) (p : Pace) :
    Mutator κ → List (SweepEvent κ) → Mutator κ → Prop
  /-- References are stored and dropped, cells pinned and unpinned. -/
  | write {m} (graph : CellGraph κ) : (∀ c ∈ graph.fixed, m.Usable c) →
    (∀ c ∈ m.gc.all, ∀ d ∈ graph.children c, d ∈ m.graph.children c ∨ m.Usable d) →
    Step alloc p m [] { m with graph := graph }
  | collect {m g events fuel} : m.gc.ugcCollect alloc m.graph fuel = .ok (g, events) →
    Step alloc p m events { m with gc := g, held := m.held.filter (· ∈ g.all) }
  | alloc {m g events ok fuel grant c n} :
    m.gc.ugcAlloc alloc m.graph p fuel grant c n = .ok (g, events, ok) →
    (ok = true → c ∉ g.all.tail) →
    Step alloc p m events
      { graph := if ok then m.graph.fresh c n else m.graph
        gc := g
        held := (if ok then [c] else []) ++ m.held.filter (· ∈ g.all) }

/-- Every run of the program over the heap, of at most `2 ^ 31` cells. -/
inductive Runs [DecidableEq κ] (alloc : Nat → Bool) (p : Pace) (m₀ : Mutator κ) : Mutator κ → Prop
  | start : Runs alloc p m₀ m₀
  | step {m m' events} : Runs alloc p m₀ m → Step alloc p m events m' →
    m'.gc.all.length ≤ 2 ^ 31 → Runs alloc p m₀ m'

structure Safe (m : Mutator κ) : Prop where
  ready : Ready m.graph m.gc
  held : ∀ c ∈ m.held, c ∈ m.gc.all
  size : m.gc.all.length ≤ 2 ^ 31

variable {alloc : Nat → Bool} {p : Pace} {m₀ m m' : Mutator κ} {events : List (SweepEvent κ)}

theorem Safe.usable {c : κ} (h : Safe m) (hc : m.Usable c) : c ∈ m.gc.all :=
  hc.elim h.ready.closed.mem_of_live (h.held c)

variable [DecidableEq κ]

theorem Step.safe (hs : Step alloc p m events m') (h : Safe m) :
    (m'.gc.all.length ≤ 2 ^ 31 → Safe m') ∧
      ∀ c, Live m.graph m.gc.all c → .finalize c ∉ events ∧ .free c ∉ events := by
  cases hs with
  | write graph hfixed hchildren =>
    refine ⟨fun hn => ⟨?_, h.held, hn⟩, fun c _ => ⟨nofun, nofun⟩⟩
    refine { h.ready with closed := ⟨h.ready.closed.nodup, fun c hc => h.usable (hfixed c hc),
      fun c hc d hd => ?_⟩ }
    exact (hchildren c hc d hd).elim (h.ready.closed.children c hc d) h.usable
  | collect hc =>
    obtain ⟨hr, -, hlive⟩ := (collected_of_ok h.ready h.size hc).spares
    exact ⟨fun hn => ⟨hr, by simp, hn⟩, fun c hl => (hlive c hl).2⟩
  | @alloc _ g ok fuel grant c n hc hfresh =>
    obtain ⟨g₁, ⟨hr, -, hlive⟩, rfl⟩ := ugcAlloc_spares h.ready h.size hc
    refine ⟨fun hn => ⟨?_, ?_, hn⟩, fun c hl => (hlive c hl).2⟩
    · cases ok with
      | true => exact hr.link (hfresh rfl)
      | false => exact { hr with }
    · cases ok <;> simp [UGc.link]

/-- The collector is safe under the program.  Whatever it stores, drops and allocates, and whenever a
collection runs: what it can reach or holds is there, the next collection ends, and no step frees or
finalizes a cell that was reachable before it. -/
theorem reachable_never_freed (h₀ : Safe m₀) (hr : Runs alloc p m₀ m) :
    (∀ c, m.Usable c → c ∈ m.gc.all) ∧ CollectsExactly alloc m.graph m.gc ∧
      ∀ events m', Step alloc p m events m' →
        ∀ c, Live m.graph m.gc.all c → .finalize c ∉ events ∧ .free c ∉ events := by
  have hsafe : Safe m := by
    induction hr with
    | start => exact h₀
    | step _ hs hn ih => exact (hs.safe ih).1 hn
  exact ⟨fun c => hsafe.usable, collectsExactly_of_le hsafe.ready hsafe.size,
    fun events m' hs => (hs.safe hsafe).2⟩

/-- An allocation that collects, and hands out the block of a freed cell. -/
theorem reachable_never_freed_sixCells :
    ∃ events m, Step (fun _ => false) ⟨0, 200, 0, 0⟩ ⟨sixCells, freshGc 6, []⟩ events m ∧
      m.held = [4] ∧ .free 4 ∈ events ∧ .free 0 ∉ events := by
  have hrun : ∃ events g, ugcAlloc (fun _ => false) sixCells ⟨0, 200, 0, 0⟩ 14 (false, true) 4 32
      (freshGc 6) = .ok (g, events, true) ∧ 4 ∉ g.all.tail ∧ .free 4 ∈ events :=
    ⟨_, _, rfl, by decide, by decide⟩
  obtain ⟨events, g, hc, hfresh, hfree⟩ := hrun
  have hs := Step.alloc (m := ⟨sixCells, freshGc 6, []⟩) hc fun _ => hfresh
  have hsafe : Safe ⟨sixCells, freshGc 6, []⟩ :=
    ⟨ready_freshGc (by decide) (by decide), nofun, by decide⟩
  exact ⟨_, _, hs, rfl, hfree, ((reachable_never_freed hsafe .start).2.2 _ _ hs 0
    (.of_root (.inl (by decide)))).2⟩

end Mutator

end Urbi
