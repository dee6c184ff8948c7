import Urbi.Sched.Quiet

/-!
# Watchers and the C stack

The flag `draining` is all that keeps the walks over the watchers apart: a drain starts only when no
walk is in progress.  `Watching x` ties the record of a `whenever` to what the trace has seen of it,
whatever C calls are in progress.
-/

namespace Urbi.Sched

/-! ## Reading a trace, newest first -/

def alive (x : WatcherId) : List Obs → List StrandId
  | [] => []
  | .bodyOf y c :: tr => if y = x then c :: alive x tr else alive x tr
  | .died c :: tr => (alive x tr).filter fun s => s != c
  | _ :: tr => alive x tr

def bodySince (x : WatcherId) : List Obs → Bool
  | [] => false
  | .bodyOf y _ :: tr => y == x || bodySince x tr
  | .elseOf y _ :: tr => y != x && bodySince x tr
  | _ :: tr => bodySince x tr

def fellSince (x : WatcherId) : List Obs → Bool
  | [] => false
  | .found y v :: tr => (y == x && !v) || fellSince x tr
  | .bodyOf y _ :: tr => y != x && fellSince x tr
  | _ :: tr => fellSince x tr

/-- An else arm is spawned when no body is alive, one has been spawned since the last else arm, and
the condition has been found false since. -/
def Alternates (x : WatcherId) : List Obs → Prop
  | [] => True
  | o :: tr =>
    (∀ c, o = .bodyOf x c → alive x tr = []) ∧
      (∀ c, o = .elseOf x c → alive x tr = [] ∧ bodySince x tr = true ∧ fellSince x tr = true) ∧
      Alternates x tr

section

variable {x : WatcherId} {new tr : List Obs}

theorem append_induction {P : List Obs → Prop} (h : ∀ o ∈ new, o.about ≠ some x) (htr : P tr)
    (hstep : ∀ o tr, o.about ≠ some x → P tr → P (o :: tr)) : P (new ++ tr) := by
  induction new with
  | nil => exact htr
  | cons o new ih =>
    exact hstep o _ (h o List.mem_cons_self) (ih fun o' ho' => h o' (List.mem_cons_of_mem _ ho'))

theorem alive_append (h : ∀ o ∈ new, o.about ≠ some x) :
    ∀ c ∈ alive x (new ++ tr), c ∈ alive x tr := by
  refine append_induction (P := fun l => ∀ c ∈ alive x l, c ∈ alive x tr) h (fun _ hc => hc) ?_
  intro o l ho hrest c hc
  cases o with
  | bodyOf y s =>
    have hy : ¬ y = x := fun hyx => ho (congrArg some hyx)
    rw [alive, if_neg hy] at hc
    exact hrest c hc
  | died s =>
    rw [alive] at hc
    exact hrest c (List.mem_filter.mp hc).1
  | _ => exact hrest c hc

theorem bodySince_append (h : ∀ o ∈ new, o.about ≠ some x) :
    bodySince x (new ++ tr) = bodySince x tr := by
  refine append_induction (P := fun l => bodySince x l = bodySince x tr) h rfl ?_
  intro o l ho hrest
  cases o with
  | bodyOf y s =>
    have hy : (y == x) = false := by simpa using fun hyx => ho (congrArg some hyx)
    rw [bodySince, hy, hrest, Bool.false_or]
  | elseOf y s =>
    have hy : (y != x) = true := by simpa using fun hyx => ho (congrArg some hyx)
    rw [bodySince, hy, hrest, Bool.true_and]
  | _ => exact hrest

theorem fellSince_append (h : ∀ o ∈ new, o.about ≠ some x) :
    fellSince x (new ++ tr) = fellSince x tr := by
  refine append_induction (P := fun l => fellSince x l = fellSince x tr) h rfl ?_
  intro o l ho hrest
  cases o with
  | bodyOf y s =>
    have hy : (y != x) = true := by simpa using fun hyx => ho (congrArg some hyx)
    rw [fellSince, hy, hrest, Bool.true_and]
  | found y v =>
    have hy : (y == x) = false := by simpa using fun hyx => ho (congrArg some hyx)
    rw [fellSince, hy, hrest, Bool.false_and, Bool.false_or]
  | _ => exact hrest

theorem alternates_append (h : ∀ o ∈ new, o.about ≠ some x) (htr : Alternates x tr) :
    Alternates x (new ++ tr) := by
  refine append_induction (P := Alternates x) h htr fun o l ho hl =>
    ⟨fun c hc => ?_, fun c hc => ?_, hl⟩
  · exact absurd (by rw [hc]; rfl) ho
  · exact absurd (by rw [hc]; rfl) ho

theorem Alternates.suffix {later : List Obs} (h : Alternates x (later ++ tr)) : Alternates x tr := by
  induction later with
  | nil => exact h
  | cons o later ih => exact ih h.2.2

theorem Alternates.alive_le (h : Alternates x tr) : (alive x tr).length ≤ 1 := by
  induction tr with
  | nil => exact Nat.zero_le _
  | cons o tr ih =>
    have hle := ih h.2.2
    cases o with
    | bodyOf y c =>
      rw [alive]
      split
      · rename_i hy
        rw [h.1 c (by rw [hy])]
        exact Nat.le_refl _
      · exact hle
    | died c => exact (List.length_filter_le _ _).trans hle
    | _ => exact hle

end

/-! ## Walks and the C stack -/

def Purpose.ordinary : Purpose → Bool
  | .cond _ | .again .. => false
  | _ => true

def CFrame.ordinary : CFrame → Bool
  | .call _ _ p | .got _ p _ => p.ordinary
  | .drain _ | .fan .. | .again .. | .done _ => false
  | _ => true

def CFrame.asks (x : WatcherId) : CFrame → Bool
  | .again y _ | .call _ _ (.again y _) | .got _ (.again y _) _ => y == x
  | _ => false

def CFrame.Knows (w : World) : CFrame → Prop
  | .drain rest => ∀ y ∈ rest, y < w.nwatchers
  | .fan _ _ rest _ => ∀ y ∈ rest, y < w.nwatchers ∧ (w.watcher y).cond = false
  | .again y _ | .call _ _ (.again y _) | .got _ (.again y _) _
  | .call _ _ (.cond y) | .got _ (.cond y) _ => y < w.nwatchers
  | _ => True

/-- Each walk holds the flag and has what it was before, a drain was started when it was down, and a
condition is evaluated for the walk right below it. -/
def Brackets : Bool → List CFrame → Prop
  | d, [] => d = false
  | d, .drain _ :: st => d = true ∧ Brackets false st
  | d, .fan _ _ _ prev :: st => d = true ∧ Brackets prev st
  | d, .done prev :: st => d = true ∧ Brackets prev st
  | d, .again .. :: st => (∃ prev st', st = .done prev :: st') ∧ Brackets d st
  | d, .call _ _ (.again ..) :: st => (∃ prev st', st = .done prev :: st') ∧ Brackets d st
  | d, .got _ (.again ..) _ :: st => (∃ prev st', st = .done prev :: st') ∧ Brackets d st
  | d, .call _ _ (.cond _) :: st => (∃ rest st', st = .drain rest :: st') ∧ Brackets d st
  | d, .got _ (.cond _) _ :: st => (∃ rest st', st = .drain rest :: st') ∧ Brackets d st
  | d, _ :: st => Brackets d st

theorem brackets_ordinary {d : Bool} {f : CFrame} {st : List CFrame} (hf : f.ordinary = true) :
    Brackets d (f :: st) ↔ Brackets d st := by
  cases f with
  | call s sv p | got s p v => cases p <;> first | rfl | cases hf
  | drain | fan | again | done => cases hf
  | _ => rfl

theorem Brackets.not_asks {x : WatcherId} {st : List CFrame} (h : Brackets false st) :
    ∀ f ∈ st, f.asks x = false := by
  induction st with
  | nil => nofun
  | cons f st ih =>
    have hrest : ∀ {prev st'}, ¬ Brackets false (CFrame.done prev :: st') := fun h =>
      absurd h.1 Bool.false_ne_true
    intro f' hf'
    by_cases hp : f.ordinary = true
    · rcases List.mem_cons.mp hf' with rfl | hmem
      · cases f' with
        | call s sv p | got s p v => cases p <;> first | rfl | cases hp
        | again => cases hp
        | _ => rfl
      · exact ih ((brackets_ordinary hp).mp h) f' hmem
    · -- a walk, or a call made for one
      cases f with
      | drain | fan | done => exact absurd h.1 Bool.false_ne_true
      | again =>
        obtain ⟨⟨prev, st', rfl⟩, h⟩ := h
        exact absurd h hrest
      | call s sv p | got s p v =>
        cases p with
        | again =>
          obtain ⟨⟨prev, st', rfl⟩, h⟩ := h
          exact absurd h hrest
        | cond =>
          obtain ⟨⟨rest, st', rfl⟩, h⟩ := h
          exact absurd h.1 Bool.false_ne_true
        | _ => exact absurd rfl hp
      | _ => exact absurd rfl hp

/-! ## The invariant -/

def UWatcher.loops (r : UWatcher) : Prop := r.mode = .whenever ∧ r.cond = true ∧ r.body = true

instance (r : UWatcher) : Decidable r.loops :=
  inferInstanceAs (Decidable (r.mode = .whenever ∧ r.cond = true ∧ r.body = true))

structure Tracks (x : WatcherId) (r : UWatcher) (tr : List Obs) : Prop where
  host : r.hostCb = false
  alive : ∀ c ∈ alive x tr, r.bodyStrand = some c
  fired : r.fired = true → bodySince x tr = true
  pending : r.leavePending = true → fellSince x tr = true ∧ r.bodyStrand.isSome
  alternates : Alternates x tr

theorem Tracks.quiet {x : WatcherId} {r r' : UWatcher} {tr new : List Obs} (h : Tracks x r tr)
    (hr : r.Steady r') (hnew : ∀ o ∈ new, o.about ≠ some x) : Tracks x r' (new ++ tr) where
  host := hr.hostCb.trans h.host
  alive c hc := hr.bodyStrand.trans (h.alive c (alive_append hnew c hc))
  fired hf := by
    rw [bodySince_append hnew]
    exact h.fired (hr.fired.symm.trans hf)
  pending hp := by
    rw [fellSince_append hnew, hr.bodyStrand]
    exact h.pending (hr.leavePending hp)
  alternates := alternates_append hnew h.alternates

structure Watching (x : WatcherId) (σ : Sys) : Prop where
  known : σ.world.Known
  frames : ∀ f ∈ σ.stack, f.Knows σ.world
  brackets : Brackets σ.world.draining σ.stack
  alone : σ.stack.countP (CFrame.asks x) ≤ 1
  asked : 0 < σ.stack.countP (CFrame.asks x) → (σ.world.watcher x).bodyStrand = none
  young : σ.world.nwatchers ≤ x → ∀ o ∈ σ.world.trace, o.about ≠ some x
  tracks : x < σ.world.nwatchers → (σ.world.watcher x).loops →
    Tracks x (σ.world.watcher x) σ.world.trace

namespace Watching

variable {x y : WatcherId} {w w' : World} {st : List CFrame} {f : CFrame}

theorem knows_congr (hn : w.nwatchers ≤ w'.nwatchers)
    (hconds : ∀ y, y < w.nwatchers → (w'.watcher y).cond = (w.watcher y).cond)
    (h : f.Knows w) : f.Knows w' := by
  cases f with
  | drain rest => exact fun y hy => Nat.lt_of_lt_of_le (h y hy) hn
  | fan e sync rest prev =>
    intro y hy
    obtain ⟨hlt, hc⟩ := h y hy
    exact ⟨Nat.lt_of_lt_of_le hlt hn, (hconds y hlt).trans hc⟩
  | again y owed => exact Nat.lt_of_lt_of_le h hn
  | call s sv p | got s p v =>
    cases p with
    | cond y | again y owed => exact Nat.lt_of_lt_of_le h hn
    | _ => trivial
  | _ => trivial

theorem lt_of_asks (hf : f.asks x = true) (hk : f.Knows w) : x < w.nwatchers := by
  cases f with
  | again y owed => exact (beq_iff_eq.mp hf) ▸ hk
  | call s sv p | got s p v =>
    cases p with
    | again y owed => exact (beq_iff_eq.mp hf) ▸ hk
    | _ => cases hf
  | _ => cases hf

theorem lt_of_asked (h : Watching x ⟨w, st⟩) (hpos : 0 < st.countP (CFrame.asks x)) :
    x < w.nwatchers := by
  obtain ⟨f, hf, hasks⟩ := List.countP_pos_iff.mp hpos
  exact lt_of_asks hasks (h.frames f hf)

theorem quiet (h : Watching x ⟨w, st⟩) (hq : World.Quiet x w w') : Watching x ⟨w', st⟩ := by
  obtain ⟨new, htr, hnew⟩ := hq.trace
  refine ⟨hq.known h.known, fun f hf => knows_congr hq.nwatchers hq.conds (h.frames f hf),
    by rw [hq.draining]; exact h.brackets, h.alone, fun hpos => ?_, fun hx o ho => ?_,
    fun hx hl => ?_⟩
  · exact (hq.old (h.lt_of_asked hpos)).bodyStrand.trans (h.asked hpos)
  · rw [htr] at ho
    rcases List.mem_append.mp ho with ho | ho
    · exact hnew o ho
    · exact h.young (hq.nwatchers.trans hx) o ho
  · show Tracks x (w'.watcher x) w'.trace
    rw [htr]
    by_cases hlt : x < w.nwatchers
    · have hs := hq.old hlt
      have hl : (w.watcher x).loops := ⟨hs.mode ▸ hl.1, hs.cond ▸ hl.2.1, hs.body ▸ hl.2.2⟩
      exact (h.tracks hlt hl).quiet hs hnew
    · -- the watcher is new: nothing has been seen of it
      have hle : w.nwatchers ≤ x := Nat.le_of_not_lt hlt
      have hr := hq.young hle hx
      have hnone : Tracks x (w'.watcher x) [] :=
        { host := by
            by_contra hh
            exact hr.host (Bool.not_eq_false _ ▸ hh) hl.1
          alive := nofun
          fired := fun hf => absurd (hr.fired.symm.trans hf) Bool.false_ne_true
          pending := fun hp => absurd (hr.leavePending.symm.trans hp) Bool.false_ne_true
          alternates := trivial }
      have hall : ∀ o ∈ new ++ w.trace, o.about ≠ some x := fun o ho =>
        (List.mem_append.mp ho).elim (hnew o) (h.young hle o)
      have htracks := hnone.quiet (.refl _) hall
      rwa [List.append_nil] at htracks

theorem tends (h : Watching x ⟨w, st⟩) (ht : World.Tends w w') : Watching x ⟨w', st⟩ :=
  h.quiet (ht.quiet x)

theorem reframe (h : Watching x ⟨w, st⟩) {d : Bool} {st' : List CFrame}
    (hk : ∀ f ∈ st', f.Knows w) (hb : Brackets d st')
    (hcount : st'.countP (CFrame.asks x) ≤ st.countP (CFrame.asks x)) :
    Watching x ⟨{ w with draining := d }, st'⟩ where
  known := ⟨h.known.all, h.known.subs⟩
  frames f hf := knows_congr (Nat.le_refl _) (fun _ _ => rfl) (hk f hf)
  brackets := hb
  alone := hcount.trans h.alone
  asked hpos := h.asked (Nat.lt_of_lt_of_le hpos hcount)
  young := h.young
  tracks := h.tracks

theorem pop (h : Watching x ⟨w, f :: st⟩) {d : Bool} (hb : Brackets d st) :
    Watching x ⟨{ w with draining := d }, st⟩ :=
  h.reframe (fun f hf => h.frames f (List.mem_cons_of_mem _ hf)) hb (by
    rw [List.countP_cons]
    exact Nat.le_add_right _ _)

theorem swap {f' : CFrame} (h : Watching x ⟨w, f :: st⟩) (hk : f.Knows w → f'.Knows w)
    (hb : Brackets w.draining (f :: st) → Brackets w.draining (f' :: st))
    (hasks : f'.asks x = true → f.asks x = true) : Watching x ⟨w, f' :: st⟩ := by
  refine h.reframe (d := w.draining) (fun g hg => ?_) (hb h.brackets) ?_
  · rcases List.mem_cons.mp hg with rfl | hg
    · exact hk (h.frames f List.mem_cons_self)
    · exact h.frames g (List.mem_cons_of_mem _ hg)
  · rw [List.countP_cons, List.countP_cons]
    by_cases ha : f'.asks x = true
    · rw [if_pos ha, if_pos (hasks ha)]
    · rw [if_neg ha]
      exact Nat.le_add_right _ _

theorem ordinary_knows (hf : f.ordinary = true) : f.Knows w := by
  cases f with
  | call s sv p | got s p v => cases p <;> trivial
  | drain | fan | again | done => cases hf
  | _ => trivial

theorem ordinary_asks (hf : f.ordinary = true) : f.asks x = false := by
  cases f with
  | call s sv p | got s p v => cases p <;> first | rfl | cases hf
  | again => cases hf
  | _ => rfl

theorem ordinary (hf : f.ordinary = true) : Watching x ⟨w, f :: st⟩ ↔ Watching x ⟨w, st⟩ := by
  refine ⟨fun h => h.pop ((brackets_ordinary hf).mp h.brackets), fun h => ?_⟩
  refine h.reframe (d := w.draining) (fun g hg => ?_) ((brackets_ordinary hf).mpr h.brackets) ?_
  · rcases List.mem_cons.mp hg with rfl | hg
    · exact ordinary_knows hf
    · exact h.frames g hg
  · rw [List.countP_cons, if_neg (by rw [ordinary_asks hf]; exact Bool.false_ne_true)]
    exact Nat.le_refl _

theorem recalled {s s' : StrandId} {p : Purpose} {sv sv' : Option UStrandState}
    (h : Watching x ⟨w, .call s sv p :: st⟩) : Watching x ⟨w, .call s' sv' p :: st⟩ := by
  cases p <;> exact h.swap (fun h => h) (fun h => h) fun h => h

theorem got {s s' : StrandId} {p : Purpose} {sv : Option UStrandState} {v : Option Bool}
    (h : Watching x ⟨w, .call s sv p :: st⟩) : Watching x ⟨w, .got s' p v :: st⟩ := by
  cases p <;> exact h.swap (fun h => h) (fun h => h) fun h => h

end Watching

end Urbi.Sched
