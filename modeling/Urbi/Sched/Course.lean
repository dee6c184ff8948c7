import Urbi.Sched.Watching

/-!
# What a step of the machine does

What a stretch of C code does to the watchers and the stack, in the terms that the statements about
whole runs need.
-/

namespace Urbi.Sched

namespace Sys

open World

/-- With nothing taken off the stack `st`. -/
inductive Course : World → List CFrame → Sys → Prop
  | here {w st} : Course w st ⟨w, st⟩
  | tends {w w' st σ} : Tends w w' → Course w' st σ → Course w st σ
  | push {w st σ f} : CFrame.ordinary f = true → Course w (f :: st) σ → Course w st σ
  | drain {w st} : Course w st (startDrain w st)
  | emit {w st} (e : EventId) (sync : Bool) : Course w st (startEmit w e sync st)

inductive Outcome (w : World) : List CFrame → Sys → Prop
  | goesOn {st σ} : Course w st σ → Outcome w st σ
  | leaves {w' s u prev g st σ} : Tends w w' → finishRun w' s u prev g st = some σ → Outcome w st σ
  | returns {w' s s' saved saved' p v st} : Tends w w' →
    Outcome w (.call s saved p :: st) (returnCall w' s' saved' p v st)

inductive Turn (w : World) (c : Choice) : List CFrame → Sys → Prop
  | stay {st σ} : Course w st σ → Turn w c st σ
  | pop {f st σ} : CFrame.ordinary f = true → Outcome w st σ → Turn w c (f :: st) σ
  | under {f s prev st σ} : CFrame.ordinary f = true → Outcome w st σ →
    Turn w c (f :: .run s prev :: st) σ
  | drain {g rest st} : Turn w c (.drain rest :: st) (drainTurn w g st rest)
  | fan {g e sync rest prev st} :
    Turn w c (.fan e sync rest prev :: st) (fanTurn w e sync prev g st rest)
  | again {x owed st} (g : Grant) : Turn w c (.again x owed :: st)
    (if (w.watcher x).armed && g.spare then onSpare w x (.again x owed) g st else ⟨w, st⟩)
  | done {prev st} : Turn w c (.done prev :: st) ⟨sweep { w with draining := prev }, st⟩
  | got {g s p v st σ} : c = .next g → p.ordinary = false → gotTurn w s v g st p = some σ →
    Turn w c (.got s p v :: st) σ

section

variable {w w' : World} {st : List CFrame} {σ : Sys} {s : StrandId} {prev : Option StrandId}
  {g : Grant} {c : Choice}

namespace Course

theorem run (h : Tends w w') : Course w st ⟨w', .run s prev :: st⟩ := tends h (push rfl here)

theorem startCall (w : World) (s : StrandId) (p : Purpose) (g : Grant) (st : List CFrame) :
    ∃ saved, Course w (.call s saved p :: st) (startCall w s p g st) := by
  unfold Sys.startCall
  split
  · exact ⟨none, tends (.setAmbient s _) (push rfl here)⟩
  split
  · exact ⟨none, tends (.current _) (push rfl here)⟩
  · exact ⟨_, run ((Tends.setStrand s _).trans (.current _))⟩

theorem call {p : Purpose} (hp : p.ordinary = true) : Course w st (Sys.startCall w s p g st) := by
  obtain ⟨saved, h⟩ := startCall w s p g st
  exact push (f := .call s saved p) hp h

theorem dispatch (s : StrandId) : Course w st (dispatch w s st) :=
  run (((Tends.setAmbient s _).trans (.setStrand s _)).trans (.current _))

theorem fireTag (ev : Option EventId) : Course w st (fireTag w ev st) := by
  unfold Sys.fireTag
  split
  · exact here
  · exact emit _ true

theorem stepTurn {b n : Nat} {phase : Phase} (h : stepTurn w b n st phase c = some σ) :
    Course w st σ := by
  unfold Sys.stepTurn at h
  split at h
  · split at h <;> cases h
    refine tends ?_ (push rfl (emit _ false))
    exact .aside rfl rfl
  · split at h <;> cases h
    exact tends (.fireDue _ _ _) (push rfl drain)
  · split at h
    · cases h
      exact push rfl here
    · cases h
      exact tends (.on fun _ => _) (push rfl (dispatch _))
  · cases h
    exact tends .reap (push rfl drain)
  · cases h
    exact tends .reap here
  · cases h

end Course

namespace Outcome

theorem run (h : Tends w w') : Outcome w st ⟨w', .run s prev :: st⟩ := goesOn (.run h)

theorem checkState (hw : Tends w w') (h : checkState w' s prev g st = some σ) : Outcome w st σ := by
  unfold Sys.checkState at h
  split at h
  · exact leaves hw h
  · cases h
    exact run hw

theorem joinWait {c : StrandId} (h : joinWait w s c prev g st = some σ) : Outcome w st σ := by
  unfold Sys.joinWait at h
  split at h
  · cases h
  split at h
  · cases h
    exact run .refl
  split at h
  · rename_i q _
    exact leaves (.on fun _ => q) h
  · cases h
    exact goesOn (.tends (.on _) (.push rfl (.push rfl (.dispatch _))))

theorem yielded (h : yielded w s prev g st = some σ) : Outcome w st σ := by
  unfold Sys.yielded at h
  split at h
  · cases h
    exact run (.setAmbient s _)
  · exact leaves .refl h

theorem entered {t : TagId} (h : entered w s t prev g st = some σ) : Outcome w st σ := by
  unfold Sys.entered at h
  dsimp only at h
  split at h
  · cases h
    exact run .refl
  split at h
  · exact leaves ((Tends.setStrand s _).trans (.on fun _ => _)) h
  · cases h
    exact run (.setStrand s _)

theorem waited {v : Option Bool} (h : waited w s v prev g st = some σ) : Outcome w st σ := by
  unfold Sys.waited at h
  dsimp only at h
  split at h
  · cases h
    exact run .refl
  · cases h
    exact run .refl
  · split at h
    · cases h
      exact run .refl
    split at h
    · cases h
      exact run .raise
    split at h
    · cases h
    · rename_i q _
      have hnew : Tends w (w.newWatcher { UWatcher.new .waituntil (w.ambient s).realm
          (w.ambient s).tag with cond := true }) :=
        .newWatcher ⟨rfl, fun hh => absurd hh Bool.false_ne_true, rfl, rfl⟩
      exact leaves (hnew.trans (.on fun _ => q)) h

theorem instr {i : Instr} (h : instr w s prev g st i = some σ) : Outcome w st σ := by
  cases i with
  | prim p => exact checkState (.doPrim p) h
  | native =>
    cases h
    exact goesOn (.push rfl (.push rfl .here))
  | callback | waituntil =>
    cases h
    exact goesOn (.push rfl (.call rfl))
  | emits e =>
    cases h
    exact goesOn (.push rfl (.emit e false))
  | fork granted =>
    cases h
    refine run ?_
    split
    · exact .spawn _ _ _
    · exact .raise
  | joinWait c => exact joinWait h
  | install mode event body onleave granted =>
    dsimp only [Sys.instr] at h
    split at h <;> cases h
    refine run ?_
    split
    · exact .install _ _ _ _ _
    · exact .raise
  | enterTag t =>
    cases h
    exact goesOn (.tends (.setAmbient s _) (.push rfl (.push rfl (.fireTag _))))
  | leaveTag recompute =>
    dsimp only [Sys.instr] at h
    split at h <;> cases h
    exact goesOn (.tends (.setAmbient s _) (.push rfl (.push rfl (.fireTag _))))
  | dropScope =>
    dsimp only [Sys.instr] at h
    split at h <;> cases h
    exact run (.setAmbient s _)
  | raise =>
    cases h
    exact run .raise
  | settle =>
    cases h
    exact run (.setAmbient s _)
  | yield =>
    dsimp only [Sys.instr] at h
    split at h
    · cases h
      exact run .refl
    · cases h
      exact goesOn (.push rfl (.push rfl .drain))
  | exhaust | die =>
    dsimp only [Sys.instr] at h
    split at h
    · exact leaves .refl h
    · cases h
  | ret v =>
    dsimp only [Sys.instr] at h
    split at h <;> cases h
    exact returns ((Tends.setStrand s _).trans (.current prev))

end Outcome

namespace Turn

theorem resume (h : resume w g st = some σ) : Turn w (.next g) st σ := by
  unfold Sys.resume at h
  split at h
  · exact pop rfl (.goesOn (.stepTurn h))
  · cases h
    exact pop rfl (.returns .refl)
  · rename_i s p v st
    cases p with
    | plain | body =>
      cases h
      exact pop rfl (.goesOn .here)
    | wait =>
      dsimp only [gotTurn] at h
      split at h
      · exact under rfl (.waited h)
      · cases h
    | cond | again => exact got rfl rfl h
  · cases h
    exact pop rfl (.goesOn (.tends .reap .here))
  · cases h
    exact drain
  · cases h
    exact fan
  · cases h
    exact again g
  · cases h
    exact done
  · exact under rfl (.entered h)
  · cases h
    refine pop rfl (.goesOn (.tends ?_ .here))
    split
    · exact .setStrand _ _
    · exact .refl
  · exact under rfl (.yielded h)
  · cases h

theorem of_step {σ' : Sys} (h : σ.step c = some σ') : Turn σ.world c σ.stack σ' := by
  obtain ⟨w, st⟩ := σ
  unfold Sys.step at h
  split at h
  · exact resume h
  · split at h
    · rename_i hst
      dsimp only at hst
      subst hst
      exact pop rfl (.instr h)
    · cases h
  · split at h
    · rename_i hst
      dsimp only at hst
      subst hst
      exact pop rfl (.goesOn (.stepTurn h))
    · cases h
  · split at h <;> cases h
    exact stay (.tends (.doPrim _) .here)
  · split at h <;> cases h
    exact stay (.emit _ _)
  · split at h <;> cases h
    exact stay (.call rfl)
  · split at h <;> cases h
    exact stay (.tends (.acquire _ _) (.call rfl))
  · split at h <;> cases h
    exact stay (.tends .reap (.push rfl .here))
  · split at h <;> cases h
    exact stay (.tends .raise .here)
  · split at h
    · rename_i s checked prev stack hst
      dsimp only at hst
      subst hst
      unfold nativeReturn at h
      dsimp only at h
      split at h
      · exact under rfl (.checkState (.current _) h)
      · cases h
        exact pop rfl (.returns (.current _))
      · cases h
    · rename_i hst
      dsimp only at hst
      subst hst
      cases h
      exact pop rfl (.goesOn .here)
    · cases h

end Turn

end

end Sys

namespace Watching

variable {x : WatcherId} {w : World} {st : List CFrame} {σ : Sys}

theorem startDrain (h : Watching x ⟨w, st⟩) : Watching x (Sys.startDrain w st) := by
  unfold Sys.startDrain
  split
  · exact h
  rename_i hidle
  have hdown : w.draining = false := by
    by_contra hd
    exact hidle (.inl (Bool.not_eq_false _ ▸ hd))
  have hsweep : World.Tends { w with ndirty := 0 } (World.sweep { w with ndirty := 0 }) := .sweep
  have hcount : Watching x ⟨{ w with ndirty := 0 }, st⟩ :=
    h.quiet (.of_same rfl rfl (fun _ h => h) (fun _ _ h => h) rfl rfl)
  have hswept := hcount.tends hsweep
  have hflag : (World.sweep { w with ndirty := 0 }).draining = false := hsweep.draining.trans hdown
  refine hswept.reframe (fun f hf => ?_) ⟨rfl, hflag ▸ hswept.brackets⟩ (Nat.le_of_eq ?_)
  · rcases List.mem_cons.mp hf with rfl | hf
    · exact hswept.known.all
    · exact hswept.frames f hf
  · rw [List.countP_cons]
    rfl

theorem deliver (e : EventId) : World.Tends w (Sys.deliver w e) :=
  .on _

theorem startEmit (e : EventId) (sync : Bool) (h : Watching x ⟨w, st⟩) :
    Watching x (Sys.startEmit w e sync st) := by
  unfold Sys.startEmit
  split
  · exact h.tends (deliver e)
  · refine h.reframe (fun f hf => ?_) ⟨rfl, h.brackets⟩ (Nat.le_of_eq ?_)
    · rcases List.mem_cons.mp hf with rfl | hf
      · exact h.known.subs e
      · exact h.frames f hf
    · rw [List.countP_cons]
      rfl

theorem course (h : Watching x ⟨w, st⟩) (hc : Sys.Course w st σ) : Watching x σ := by
  induction hc with
  | here => exact h
  | tends ht _ ih => exact ih (h.tends ht)
  | push hf _ ih => exact ih ((ordinary hf).mpr h)
  | drain => exact startDrain h
  | emit e sync => exact startEmit e sync h

end Watching

end Urbi.Sched
