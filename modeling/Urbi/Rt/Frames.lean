import Urbi.Rt.Stop

/-!
# Frames, entries and the ambient tag

The entries of the cleanup stack lie over the frames in order, and the tag scopes among them are a
chain of ambient tags down to the one the strand began with.
-/

namespace Urbi

variable {L : CodeBase}
variable {s : UStrand L} {o : Option Bool} {fs : List (UFrame L)} {acts : List (Act L)}

def ambientTag (t₀ : Option Nat) (entries : List (UCleanup L)) : Option Nat :=
  match entries.find? (·.kind = .tagScope) with
  | some d => d.tag
  | none => t₀

theorem ambientTag_try (t₀ : Option Nat) {d : UCleanup L} (hd : d.kind = .try)
    (entries : List (UCleanup L)) : ambientTag t₀ (d :: entries) = ambientTag t₀ entries := by
  unfold ambientTag
  rw [List.find?_cons_of_neg (by simp [hd])]

theorem ambientTag_tagScope (t₀ : Option Nat) {d : UCleanup L} (hd : d.kind = .tagScope)
    (entries : List (UCleanup L)) : ambientTag t₀ (d :: entries) = d.tag := by
  unfold ambientTag
  rw [List.find?_cons_of_pos (by simp [hd])]

def Chained (t₀ : Option Nat) : List (UCleanup L) → Prop
  | [] => True
  | d :: entries =>
    (d.kind = .tagScope → d.running = false ∧ d.savedTag = ambientTag t₀ entries) ∧
      Chained t₀ entries

theorem Chained.saved {t₀ : Option Nat} {entries above below : List (UCleanup L)} {d : UCleanup L}
    (h : Chained t₀ entries) (he : entries = above ++ d :: below) (hd : d.kind = .tagScope) :
    d.savedTag = ambientTag t₀ below := by
  induction above generalizing entries with
  | nil =>
    subst he
    exact (h.1 hd).2
  | cons a above ih =>
    subst he
    exact ih h.2 rfl

structure TagInv (t₀ : Option Nat) (κ : Ctl L) : Prop where
  tag : κ.tag = ambientTag t₀ κ.cleanup
  chained : Chained t₀ κ.cleanup

namespace TagInv

variable {t₀ : Option Nat} {κ : Ctl L} {d : UCleanup L} {rest : List (UCleanup L)}

theorem congr {κ' : Ctl L} (h : TagInv t₀ κ) (ht : κ'.tag = κ.tag)
    (hc : κ'.cleanup = κ.cleanup) : TagInv t₀ κ' where
  tag := by rw [ht, hc, h.tag]
  chained := hc ▸ h.chained

theorem openTry (h : TagInv t₀ κ) (hd : d.kind = .try) :
    TagInv t₀ { κ with cleanup := d :: κ.cleanup } where
  tag := h.tag.trans (ambientTag_try t₀ hd _).symm
  chained := ⟨fun hk => (by cases hd.symm.trans hk), h.chained⟩

theorem closeTry (h : TagInv t₀ κ) (hc : κ.cleanup = d :: rest) (hd : d.kind = .try) :
    TagInv t₀ { κ with cleanup := rest } where
  tag := by
    rw [h.tag, hc]
    exact ambientTag_try t₀ hd rest
  chained := by
    have hch := h.chained
    rw [hc] at hch
    exact hch.2

theorem closeTag (h : TagInv t₀ κ) (hc : κ.cleanup = d :: rest) (hd : d.kind = .tagScope) :
    TagInv t₀ { κ with cleanup := rest, tag := d.savedTag } := by
  have hch := h.chained
  rw [hc] at hch
  exact ⟨(hch.1 hd).2, hch.2⟩

theorem kind_of_running (h : TagInv t₀ κ) (hc : κ.cleanup = d :: rest) (hr : d.running = true) :
    d.kind = .try := by
  have hch := h.chained
  rw [hc] at hch
  match hk : d.kind with
  | .try => rfl
  | .tagScope => cases (hch.1 hk).1.symm.trans hr

theorem mark (h : TagInv t₀ κ) (hc : κ.cleanup = d :: rest) (hd : d.kind = .try)
    (u : UUnwindKind) (v : UValue L) (pc : Nat) :
    TagInv t₀ { κ with cleanup := d.mark u v pc :: rest } :=
  (h.closeTry hc hd).openTry (d := d.mark u v pc) hd

end TagInv

theorem Did.tagInv {flags : Nat → UInt8} {p q : Pos L} {κ κ' : Ctl L} {n : Note}
    (h : Did flags p κ n q κ') {t₀ : Option Nat} (hi : TagInv t₀ κ) : TagInv t₀ κ' := by
  cases h with
  | same | loadCatch | landJump | lost | «return» | leftJump | landed | passed | entered | left =>
    exact hi.congr rfl rfl
  | raise hcl =>
    rcases hcl with rfl | ⟨top, hc, hk, -⟩
    · exact hi.congr rfl rfl
    · exact (hi.closeTry hc hk).congr rfl rfl
  | openTry hk => exact hi.openTry hk
  | openTag hk ht _ hr hs =>
    exact ⟨ht.symm.trans (ambientTag_tagScope t₀ hk _).symm,
      fun _ => ⟨hr, hs.trans hi.tag⟩, hi.chained⟩
  | closeTry hc hk | pop _ hc hk => exact hi.closeTry hc hk
  | closeFinally hc hk => exact hi.mark hc hk ..
  | closeTag hc hk | leaveJump _ hc hk | leave _ _ hc hk => exact hi.closeTag hc hk
  | resume hc hr => exact hi.closeTry hc (hi.kind_of_running hc hr)
  | resumeUnwind hc hr =>
    exact (hi.closeTry hc (hi.kind_of_running hc hr)).congr rfl rfl
  | popFatal _ hc hcase =>
    rcases hcase with ⟨hk, rfl⟩ | ⟨hk, rfl⟩
    · exact hi.closeTry hc hk
    · exact hi.closeTag hc hk
  | runFinally _ _ hc hk => exact (hi.mark hc hk ..).congr rfl rfl
  | caught _ hc hk => exact (hi.closeTry hc hk).congr rfl rfl

namespace Config

theorem outside_tag {s' : UStrand L} {flags flags' : Nat → UInt8} {native : Bool} {m : Move L}
    (h : outside s flags native m = some (s', flags')) : s'.tag = s.tag := by
  cases met_of_outside h <;> rfl

variable {J : Judgement L} {c d : Config L} {t₀ : Option Nat}

theorem step_tagInv {m : Move L} (hg : Good J c) (hk : CallsOk c.acts)
    (h : TagInv t₀ c.strand.ctl) (hd : c.step m = some d) : TagInv t₀ d.strand.ctl := by
  rcases step_moved hg hk hd with ⟨n, hmoved⟩ | ⟨native, hout, -⟩
  · exact hmoved.did.tagInv h
  · exact h.congr (outside_tag hout) (outside_disturbed hout).cleanup

theorem run_tagInv {ms : List (Move L)} (hc : Initial c) (hr : Run c ms d) :
    TagInv c.strand.tag d.strand.ctl := by
  induction hr with
  | nil =>
    have hnil : c.strand.cleanup = [] := hc.elim (fun ⟨_, h⟩ => h.cleanup) Spare.cleanup
    refine ⟨?_, ?_⟩
    · show c.strand.tag = ambientTag c.strand.tag c.strand.cleanup
      rw [hnil]
      rfl
    · show Chained c.strand.tag c.strand.cleanup
      rw [hnil]
      trivial
  | snoc m hr hstep ih =>
    exact step_tagInv (reachable_good (T := anyTyping L) hc hr) (run_callsOk hc hr) ih hstep

/-! ## Order and count -/

structure Layered (s : UStrand L) (acts : List (Act L)) : Prop where
  lt : ∀ d ∈ s.cleanup, d.frame < s.frames.length
  sorted : s.cleanup.Pairwise fun upper lower => lower.frame ≤ upper.frame
  count : s.frames.countP (·.isBoundary) = calls acts

def boundaryOver : Option Bool → Nat
  | some true => 1
  | _ => 0

theorem pairwise_frames {σ c : List (UCleanup L)} {n : Nat} (hσ : ∀ d ∈ σ, d.frame = n)
    (hc : ∀ d ∈ c, d.frame < n) (hp : c.Pairwise fun upper lower => lower.frame ≤ upper.frame) :
    (σ ++ c).Pairwise fun upper lower => lower.frame ≤ upper.frame := by
  rw [List.pairwise_append]
  refine ⟨List.pairwise_iff_forall_sublist.mpr fun h => ?_, hp, fun a ha b hb => ?_⟩
  · rw [hσ _ (h.subset (by simp)), hσ _ (h.subset (by simp))]
  · rw [hσ a ha]
    exact Nat.le_of_lt (hc b hb)

theorem Stacked.sorted {c : List (UCleanup L)} (h : Stacked J o fs c acts) :
    c.Pairwise fun upper lower => lower.frame ≤ upper.frame := by
  induction h with
  | bottom | host => exact .nil
  | caller hu hidx _ _ ih | arm hu hidx _ _ _ _ _ _ _ ih =>
    exact pairwise_frames hidx hu.frame_lt ih
  | enter _ ih | callback _ ih => exact ih

theorem Stacked.count {c : List (UCleanup L)} (h : Stacked J o fs c acts) :
    fs.countP (·.isBoundary) + boundaryOver o = calls acts := by
  have htop : ∀ (f : UFrame L) (fs : List (UFrame L)),
      (f :: fs).countP (·.isBoundary) = fs.countP (·.isBoundary) + boundaryOver (some f.isBoundary) := by
    intro f fs
    rw [List.countP_cons]
    cases f.isBoundary <;> rfl
  induction h with
  | bottom | host => rfl
  | caller _ _ _ _ ih | @arm f fs σ c k failed b e rest _ _ _ _ _ _ _ _ _ ih => rw [htop, ih]; rfl
  | enter _ ih =>
    rw [calls_call, ← ih]
    rfl
  | callback _ ih => exact ih

theorem Current.layered {rest : List (Act L)} {f : UFrame L} {σ c : List (UCleanup L)}
    (h : Current J s rest f fs σ c) : Layered s rest where
  lt d hd := by
    rw [h.cleanup] at hd
    rw [h.frames, List.length_cons]
    rcases List.mem_append.mp hd with hd | hd
    · rw [h.frameIdx d hd]
      exact Nat.lt_succ_self _
    · exact Nat.lt_succ_of_lt (h.under.frame_lt d hd)
  sorted := by
    rw [h.cleanup]
    exact pairwise_frames h.frameIdx h.under.frame_lt h.under.sorted
  count := by
    rw [h.frames, ← h.under.count, List.countP_cons]
    cases f.isBoundary <;> rfl

theorem Stacked.layered (h : Stacked J o s.frames s.cleanup acts) (ho : boundaryOver o = 0) :
    Layered s acts where
  lt := h.frame_lt
  sorted := h.sorted
  count := by
    have hcount := h.count
    rwa [ho] at hcount

theorem layered_nil (hf : s.frames = []) (hc : s.cleanup = []) (ha : calls acts = 0) :
    Layered s acts where
  lt := by rw [hc]; nofun
  sorted := by rw [hc]; exact .nil
  count := by rw [hf, ha]; rfl

theorem Shape.layered (h : Shape J c) : Layered c.strand c.acts := by
  have hskip : ∀ {s : UStrand L} {acts acts' : List (Act L)}, Layered s acts →
      calls acts' = calls acts → Layered s acts' :=
    fun h hcalls => ⟨h.lt, h.sorted, h.count.trans hcalls.symm⟩
  cases h with
  | fetch h | walk h | leaveJump h | leave h => exact hskip h.layered rfl
  | drained hf hc | empty hf hc => exact layered_nil hf hc rfl
  | out h | idle h => exact h.layered rfl

/-- In every state that a strand reaches, spawned or spare: the entries stand over their frames in
order, the ambient tag is that of the topmost tag scope or else the one the strand began with, each
tag scope saved the ambient tag just below it, and the boundary frames are counted. -/
theorem reachable_frames {ms : List (Move L)} (hc : Initial c) (hr : Run c ms d) :
    (∀ e ∈ d.strand.cleanup, e.frame < d.strand.frames.length) ∧
    (d.strand.cleanup.Pairwise fun upper lower => lower.frame ≤ upper.frame) ∧
    d.strand.tag = ambientTag c.strand.tag d.strand.cleanup ∧
    (∀ above e below, d.strand.cleanup = above ++ e :: below → e.kind = .tagScope →
      e.savedTag = ambientTag c.strand.tag below) ∧
    d.strand.nboundary = d.strand.frames.countP (·.isBoundary) := by
  have hgood : Good (anyTyping L).toJudgement d := reachable_good hc hr
  have hlayered := hgood.1.layered
  have htag := run_tagInv hc hr
  exact ⟨hlayered.lt, hlayered.sorted, htag.tag, fun _ _ _ he hk => htag.chained.saved he hk,
    hgood.2.nboundary.trans hlayered.count.symm⟩

end Config

/-- A strand in a tag scope of its own. -/
theorem reachable_frames_taggedOnce :
    ∃ (c d : Config (codeOf taggedOnce)) (e : UCleanup (codeOf taggedOnce)),
      strandOf taggedOnce [.tag 7] = some c ∧ c.Run (stopAtYield.take 5) d ∧
      d.strand.cleanup = [e] ∧ e.tag = some 7 ∧ e.frame < d.strand.frames.length ∧
      e.savedTag = c.strand.tag ∧ d.strand.tag = ambientTag c.strand.tag [e] := by
  have hrun : ∃ (c d : Config (codeOf taggedOnce)) (e : UCleanup (codeOf taggedOnce)),
      strandOf taggedOnce [.tag 7] = some c ∧ c.steps (stopAtYield.take 5) = some d ∧
      d.strand.cleanup = [e] ∧ e.kind = .tagScope ∧ e.tag = some 7 :=
    ⟨_, _, _, rfl, rfl, rfl, rfl, rfl⟩
  obtain ⟨c, d, e, hc, hd, hcl, hk, ht⟩ := hrun
  have hr := Config.run_of_steps hd
  obtain ⟨hlt, -, htag, hsaved, -⟩ :=
    Config.reachable_frames (Config.uschedSpawn_initial hc) hr
  rw [hcl] at hlt htag hsaved
  exact ⟨c, d, e, hc, hr, hcl, ht, hlt e List.mem_cons_self, hsaved [] e [] rfl hk, htag⟩

end Urbi
