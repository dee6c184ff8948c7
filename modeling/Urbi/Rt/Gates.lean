import Urbi.Rt.Cancel

/-!
# Gate bits

The bits on a strand cache the flags of the tags covering it.  A return or a throw that leaves a
scope does not look at the cache: the bits of that tag stay on the strand, and no release of the tag
will ever reach it again.
-/

namespace Urbi

variable {L : CodeBase}

/-! ## Unions of flags -/

def gateUnion (flags : Nat → UInt8) (ts : List Nat) : UInt8 := ts.foldl (fun g t => g ||| flags t) 0

section Union

variable {flags : Nat → UInt8} {ts : List Nat} {t : Nat}

theorem foldl_or (flags : Nat → UInt8) (ts : List Nat) (g : UInt8) :
    ts.foldl (fun g t => g ||| flags t) g = g ||| gateUnion flags ts := by
  induction ts generalizing g with
  | nil => exact UInt8.or_zero.symm
  | cons t ts ih =>
    rw [gateUnion, List.foldl_cons, List.foldl_cons, ih, ih (0 ||| flags t), UInt8.zero_or,
      UInt8.or_assoc]

theorem gateUnion_cons : gateUnion flags (t :: ts) = flags t ||| gateUnion flags ts := by
  rw [gateUnion, List.foldl_cons, foldl_or, UInt8.zero_or]

theorem gateUnion_singleton : gateUnion flags [t] = flags t := UInt8.zero_or

theorem gateUnion_append (ts' : List Nat) :
    gateUnion flags (ts ++ ts') = gateUnion flags ts ||| gateUnion flags ts' := by
  rw [gateUnion, List.foldl_append, foldl_or]
  rfl

theorem gateUnion_absorb (h : t ∈ ts) : gateUnion flags ts ||| flags t = gateUnion flags ts := by
  induction ts with
  | nil => cases h
  | cons u ts ih =>
    rw [gateUnion_cons, UInt8.or_assoc]
    by_cases hu : t = u
    · rw [hu, UInt8.or_comm (gateUnion flags ts), ← UInt8.or_assoc, UInt8.or_self]
    · rw [ih ((List.mem_cons.mp h).resolve_left hu)]

theorem gateUnion_update_of_not_mem (h : t ∉ ts) (g : UInt8) :
    gateUnion (Function.update flags t g) ts = gateUnion flags ts := by
  induction ts with
  | nil => rfl
  | cons u ts ih =>
    rw [List.mem_cons, not_or] at h
    rw [gateUnion_cons, gateUnion_cons, ih h.2, Function.update_of_ne (Ne.symm h.1)]

theorem gateUnion_raise (h : t ∈ ts) (bit : UInt8) :
    gateUnion (Function.update flags t (flags t ||| bit)) ts = gateUnion flags ts ||| bit := by
  induction ts with
  | nil => cases h
  | cons u ts ih =>
    rw [gateUnion_cons, gateUnion_cons]
    by_cases hmem : t ∈ ts
    · rw [ih hmem]
      by_cases hu : u = t
      · rw [hu, Function.update_self, UInt8.or_assoc, ← UInt8.or_assoc bit, UInt8.or_comm bit,
          UInt8.or_assoc, UInt8.or_self, UInt8.or_assoc]
      · rw [Function.update_of_ne hu, UInt8.or_assoc]
    · have hu : t = u := (List.mem_cons.mp h).resolve_right hmem
      rw [gateUnion_update_of_not_mem hmem, ← hu, Function.update_self, UInt8.or_assoc,
        UInt8.or_comm bit, UInt8.or_assoc]

end Union

def savedTags (S : List (UCleanup L)) : List Nat :=
  (S.filter (·.kind = .tagScope)).filterMap UCleanup.savedTag

theorem savedTags_try {d : UCleanup L} (h : d.kind = .try) (S : List (UCleanup L)) :
    savedTags (d :: S) = savedTags S := by
  simp [savedTags, h]

theorem savedTags_mark {d : UCleanup L} (h : d.kind = .try) (u : UUnwindKind) (v : UValue L)
    (pc : Nat) (S : List (UCleanup L)) : savedTags (d.mark u v pc :: S) = savedTags S :=
  savedTags_try (d := d.mark u v pc) h S

theorem savedTags_scope {d : UCleanup L} (h : d.kind = .tagScope) (S : List (UCleanup L)) :
    savedTags (d :: S) = d.savedTag.toList ++ savedTags S := by
  cases ht : d.savedTag <;> simp [savedTags, h, ht]

theorem Ctl.gateBits_eq (κ : Ctl L) (flags : Nat → UInt8) :
    κ.gateBits flags = gateUnion flags κ.tag.toList ||| gateUnion flags (savedTags κ.cleanup) :=
  gateUnion_append _

/-! ## The invariant -/

def BitsOk (flags : Nat → UInt8) (κ : Ctl L) : Pos L → Prop
  -- the scope of `t` is open and its bits are not in yet
  | .code (.tagEnter t) => κ.tag = some t ∧ κ.gates ||| flags t = κ.gateBits flags
  -- about to be recomputed
  | .code .tagPop | .code .leaveJump => True
  | _ => κ.gates = κ.gateBits flags

section Own

variable {flags : Nat → UInt8} {p q : Pos L} {κ κ' : Ctl L} {n : Note}

theorem bitsOk_plain (hp : p.Plain) : BitsOk flags κ p ↔ κ.gates = κ.gateBits flags := by
  cases p with
  | code k => cases k <;> first | exact Iff.rfl | cases hp _ rfl
  | _ => exact Iff.rfl

theorem exact_of_same (h : κ.gates = κ.gateBits flags) (hg : κ'.gates = κ.gates)
    (ht : κ'.tag = κ.tag) (hs : savedTags κ'.cleanup = savedTags κ.cleanup) :
    κ'.gates = κ'.gateBits flags := by
  rw [hg, h, Ctl.gateBits_eq, Ctl.gateBits_eq, ht, hs]

theorem did_outstanding_kept (hdid : Did flags p κ n q κ') (hk : Keeps κ n) (h : MarkInv p κ)
    (ho : κ.Outstanding) : κ'.Outstanding ∨ (q = .fetch ∧ κ'.gates = κ'.gateBits flags) := by
  -- an entry that goes and is no marker of a stop
  have hdrop : ∀ top rest m, κ.cleanup = top :: rest → top.savedUnwind ≠ .stop →
      m ∈ κ.cleanup → m.savedUnwind = .stop → rest <:+ κ'.cleanup → κ'.Outstanding := by
    intro top rest m hc htop hm hsus hs
    rw [hc] at hm
    rcases List.mem_cons.mp hm with rfl | hm
    · exact absurd hsus htop
    · exact .inr ⟨m, hs.subset hm, hsus⟩
  by_cases hu : κ.unwind = .stop
  · have hlose : n ≠ .discards := fun hn => hk.lose hn hu
    cases hdid with
    | raise | closeTry | closeFinally | closeTag | resume | resumeUnwind | loadCatch =>
      exact absurd rfl hlose
    | landJump hj | lost hj => cases hu.symm.trans hj
    | «return» hr _ => cases hu.symm.trans hr
    | runFinally _ _ _ _ _ => exact .inl (.inr ⟨_, .head _, hu⟩)
    | caught ht _ _ _ => cases hu.symm.trans ht
    | landed _ _ => exact .inr ⟨rfl, rfl⟩
    | _ => exact .inl (.inl hu)
  · obtain ⟨m, hm, hsus⟩ := ho.resolve_left hu
    left
    cases hdid with
    | raise hcl _ _ _ _ =>
      rcases hcl with rfl | ⟨top, hc, -, hrun⟩
      · exact .inr ⟨m, hm, hsus⟩
      · exact hdrop _ _ m hc (h.not_marker hc (.inr hrun)) hm hsus List.suffix_rfl
    | openTry _ _ _ | openTag _ _ _ _ _ => exact .inr ⟨m, .tail _ hm, hsus⟩
    | closeTry hc _ hrun _ | caught _ hc _ hrun =>
      exact hdrop _ _ m hc (h.not_marker hc (.inr hrun)) hm hsus List.suffix_rfl
    | closeFinally hc _ hrun _ | runFinally _ _ hc _ hrun =>
      exact hdrop _ _ m hc (h.not_marker hc (.inr hrun)) hm hsus (List.suffix_cons _ _)
    | closeTag hc hkind | leaveJump _ hc hkind | leave _ _ hc hkind =>
      exact hdrop _ _ m hc (h.not_marker hc (.inl hkind)) hm hsus List.suffix_rfl
    | resume hc _ hsv _ =>
      exact hdrop _ _ m hc (by rw [hsv]; decide) hm hsus List.suffix_rfl
    | @resumeUnwind _ mark rest hc _ _ =>
      rw [hc] at hm
      rcases List.mem_cons.mp hm with rfl | hm
      · exact .inl hsus
      · exact .inr ⟨m, hm, hsus⟩
    | pop _ hc _ | popFatal _ hc _ =>
      exact hdrop _ _ m hc (hk.pops rfl hu _ _ hc) hm hsus List.suffix_rfl
    | _ => exact .inr ⟨m, hm, hsus⟩

def Ctl.Spare (κ : Ctl L) (flags : Nat → UInt8) (top : UCleanup L) (rest : List (UCleanup L)) : Prop :=
  ∀ t, κ.tag = some t → flags t = 0 ∨ t ∈ top.savedTag.toList ++ savedTags rest

theorem gateBits_of_spare {top : UCleanup L} {rest : List (UCleanup L)}
    (hc : κ.cleanup = top :: rest) (hkind : top.kind = .tagScope) (h : κ.Spare flags top rest) :
    κ.gateBits flags = gateUnion flags (top.savedTag.toList ++ savedTags rest) := by
  rw [Ctl.gateBits_eq, hc, savedTags_scope hkind]
  cases ht : κ.tag with
  | none => exact UInt8.zero_or
  | some t =>
    show gateUnion flags [t] ||| _ = _
    rw [gateUnion_singleton]
    rcases h t ht with hf | hmem
    · rw [hf, UInt8.zero_or]
    · rw [UInt8.or_comm, gateUnion_absorb hmem]

theorem did_bits (hdid : Did flags p κ n q κ') (hm : MarkInv p κ) (h : BitsOk flags κ p)
    (hno : ¬ κ.Outstanding)
    (hspare : n = .pops → κ.unwind ≠ .jump → ∀ top rest, κ.cleanup = top :: rest →
      top.kind = .tagScope → κ.Spare flags top rest) : BitsOk flags κ' q := by
  cases hdid with
  | same _ hp hq =>
    rw [bitsOk_plain hp] at h
    rw [bitsOk_plain hq]
    exact exact_of_same h rfl rfl rfl
  | raise hcl _ _ hp hq =>
    rw [bitsOk_plain hp] at h
    rw [bitsOk_plain hq]
    refine exact_of_same h rfl rfl ?_
    rcases hcl with rfl | ⟨top, hc, htry, -⟩
    · rfl
    · rw [hc, savedTags_try htry]
  | openTry htry _ hq =>
    rw [bitsOk_plain hq]
    exact exact_of_same h rfl rfl (savedTags_try htry _)
  | @openTag _ d t hkind _ _ _ hsv =>
    refine ⟨rfl, ?_⟩
    have h : κ.gates = κ.gateBits flags := h
    show κ.gates ||| flags t = _
    rw [h, Ctl.gateBits_eq, Ctl.gateBits_eq, savedTags_scope hkind, hsv, gateUnion_append]
    show _ = gateUnion flags [t] ||| _
    rw [gateUnion_singleton, UInt8.or_comm]
  | closeTry hc htry _ hq =>
    rw [bitsOk_plain hq]
    refine exact_of_same h rfl rfl ?_
    rw [hc, savedTags_try htry]
  | closeFinally hc htry _ hq =>
    rw [bitsOk_plain hq]
    refine exact_of_same h rfl rfl ?_
    rw [hc, savedTags_try htry]
    exact savedTags_mark htry _ _ _ _
  | closeTag _ _ | leaveJump _ _ _ => trivial
  | resume hc hrun _ hq =>
    rw [bitsOk_plain hq]
    refine exact_of_same h rfl rfl ?_
    rw [hc, savedTags_try (hm.running _ (by rw [hc]; exact .head _) hrun)]
  | resumeUnwind hc hrun _ =>
    refine exact_of_same h rfl rfl ?_
    rw [hc, savedTags_try (hm.running _ (by rw [hc]; exact .head _) hrun)]
  | loadCatch hq | «return» _ hq =>
    rw [bitsOk_plain hq]
    exact exact_of_same h rfl rfl rfl
  | landJump _ | lost _ => exact exact_of_same h rfl rfl rfl
  | pop _ hc htry | caught _ hc htry _ =>
    refine exact_of_same h rfl rfl ?_
    rw [hc, savedTags_try htry]
  | popFatal hf hc htag =>
    rcases htag with ⟨htry, rfl⟩ | ⟨hkind, rfl⟩
    · refine exact_of_same h rfl rfl ?_
      rw [hc, savedTags_try htry]
    · have hsp := hspare rfl (by rw [hf]; decide) _ _ hc hkind
      exact (Eq.trans h (gateBits_of_spare hc hkind hsp)).trans rfl
  | runFinally _ _ hc htry _ =>
    refine exact_of_same h rfl rfl ?_
    rw [hc, savedTags_try htry]
    exact savedTags_mark htry _ _ _ _
  | leave _ hj hc hkind =>
    have hsp := hspare rfl hj _ _ hc hkind
    exact (Eq.trans h (gateBits_of_spare hc hkind hsp)).trans rfl
  | leftJump => rfl
  | landed _ hst => exact absurd (.inl hst.1) hno
  | passed _ => exact h
  | entered hq =>
    rw [bitsOk_plain hq]
    exact h.2
  | left hq =>
    rw [bitsOk_plain hq]
    rfl

theorem recomputed_of_did (hdid : Did flags p κ n q κ')
    (h : p = .code .tagPop ∨ p = .code .leaveJump ∨ ((∃ top, p = .code (.leave top)) ∧ q = .fetch)) :
    κ'.gates = κ'.gateBits flags := by
  have hplain : p.Plain → False := by
    intro hp
    rcases h with rfl | rfl | ⟨⟨top, rfl⟩, -⟩ <;> cases hp _ rfl
  cases hdid with
  | same _ hp _ | raise _ _ _ hp _ => exact (hplain hp).elim
  | openTry | openTag | closeTry | closeFinally | closeTag | resume | resumeUnwind | loadCatch =>
    exact (hplain Pos.plain_fetch).elim
  | landJump | lost | «return» | pop | popFatal | runFinally | caught | leaveJump | leave =>
    exact (hplain Pos.plain_walk).elim
  | leftJump | landed _ _ => rfl
  | passed _ => rcases h with h | h | ⟨-, h⟩ <;> cases h
  | entered _ => rcases h with h | h | ⟨⟨top, h⟩, -⟩ <;> cases h
  | left _ => rfl

end Own

/-! ## Gates raised and released -/

section Outside

variable {flags : Nat → UInt8} {p : Pos L} {κ κ' : Ctl L} {t : Nat}

theorem mem_coveringTags (h : κ.tag = some t) : t ∈ κ.coveringTags := by
  unfold Ctl.coveringTags
  rw [h]
  exact .head _

theorem BitsOk.congr (h : BitsOk flags κ p) (hg : κ'.gates = κ.gates) (ht : κ'.tag = κ.tag)
    (hc : κ'.cleanup = κ.cleanup) : BitsOk flags κ' p := by
  have hbits : κ'.gateBits flags = κ.gateBits flags := by
    unfold Ctl.gateBits Ctl.coveringTags
    rw [ht, hc]
  cases p with
  | code k =>
    cases k with
    | tagEnter t => exact ⟨ht.trans h.1, by rw [hg, hbits]; exact h.2⟩
    | tagPop | leaveJump => trivial
    | _ => exact (hg.trans h).trans hbits.symm
  | _ => exact (hg.trans h).trans hbits.symm

theorem BitsOk.elsewhere (h : BitsOk flags κ p) (ht : t ∉ κ.coveringTags) (g : UInt8) :
    BitsOk (Function.update flags t g) κ p := by
  have hbits : κ.gateBits (Function.update flags t g) = κ.gateBits flags :=
    gateUnion_update_of_not_mem ht g
  cases p with
  | code k =>
    cases k with
    | tagEnter u =>
      have hne : u ≠ t := by
        rintro rfl
        exact ht (mem_coveringTags h.1)
      refine ⟨h.1, ?_⟩
      rw [hbits, Function.update_of_ne hne]
      exact h.2
    | tagPop | leaveJump => trivial
    | _ => exact Eq.trans h hbits.symm
  | _ => exact Eq.trans h hbits.symm

theorem BitsOk.raise (h : BitsOk flags κ p) (ht : t ∈ κ.coveringTags) (bit : UInt8) :
    BitsOk (Function.update flags t (flags t ||| bit)) { κ with gates := κ.gates ||| bit } p := by
  have hbits : κ.gateBits (Function.update flags t (flags t ||| bit)) = κ.gateBits flags ||| bit :=
    gateUnion_raise ht bit
  have hexact : κ.gates = κ.gateBits flags →
      κ.gates ||| bit = κ.gateBits (Function.update flags t (flags t ||| bit)) := by
    intro h
    rw [hbits, h]
  cases p with
  | code k =>
    cases k with
    | tagEnter u =>
      refine ⟨h.1, Eq.trans ?_ hbits.symm⟩
      rw [← h.2]
      show κ.gates ||| bit ||| _ = _
      by_cases hu : u = t
      · rw [hu, Function.update_self, UInt8.or_comm (flags t), UInt8.or_assoc,
          ← UInt8.or_assoc bit, UInt8.or_self, UInt8.or_comm bit, UInt8.or_assoc]
      · rw [Function.update_of_ne hu, UInt8.or_assoc, UInt8.or_assoc, UInt8.or_comm bit]
    | tagPop | leaveJump => trivial
    | _ => exact hexact h
  | _ => exact hexact h

theorem BitsOk.recompute (h : BitsOk flags κ p) (flags' : Nat → UInt8) :
    BitsOk flags' { κ with gates := κ.gateBits flags' } p := by
  cases p with
  | code k =>
    cases k with
    | tagEnter u => exact ⟨h.1, gateUnion_absorb (mem_coveringTags h.1)⟩
    | tagPop | leaveJump => trivial
    | _ => rfl
  | _ => rfl

end Outside

namespace Config

section Steps

variable {c d : Config L} {m : Move L} {s : UStrand L} {flags : Nat → UInt8}

theorem outside_bits {native : Bool} (hdead : c.strand.state ≠ .dead)
    (hout : outside c.strand c.flags native m = some (d.strand, d.flags)) (hacts : d.acts = c.acts)
    (hmark : marks c.strand m = none) (h : BitsOk c.flags c.strand.ctl (posOf c.acts)) :
    BitsOk d.flags d.strand.ctl (posOf d.acts) := by
  rw [hacts]
  have hcov : ∀ t, c.strand.state = .dead ∨ c.strand.covers t = false →
      t ∉ c.strand.ctl.coveringTags := by
    intro t ht hmem
    have hmem : c.strand.coveringTags.contains t = true := List.contains_iff_mem.mpr hmem
    cases (ht.resolve_left hdead).symm.trans hmem
  obtain ⟨s', acts', flags'⟩ := d
  cases met_of_outside hout with
  | missed | awake => exact h
  | self _ hsome | other _ hsome => cases hsome.symm.trans hmark
  | gateOn _ ht _ => exact h.raise (List.contains_iff_mem.mp ht) _
  | gateOff => exact h.recompute _
  | apartOn ht | apartOff ht => exact h.elsewhere (hcov _ ht) _
  | wake => exact h.congr rfl rfl rfl

/-! ## Runs -/

/-- The tag of a scope left for a return or a throw carries no flag or covers the strand all the
same. -/
def leavesClean (c : Config L) : Bool :=
  match c.acts, c.strand.cleanup with
  | .run _ _ true :: _, top :: rest =>
    !ownsEntry c.strand || c.strand.unwind = .stop || c.strand.unwind = .jump ||
      top.kind ≠ .tagScope || c.strand.tag.all fun t =>
        c.flags t = 0 || (top.savedTag.toList ++ savedTags rest).contains t
  | _, _ => true

/-- The strand is alive, discards no stop, and leaves no scope of a gated tag by a return or a
throw. -/
def exacting (c : Config L) (m : Move L) : Bool :=
  c.strand.state ≠ .dead && keeps c m && leavesClean c

theorem spare_of_leavesClean {top : UCleanup L} {rest : List (UCleanup L)}
    (hq : leavesClean c = true) (hpos : posOf c.acts = .walk) (howns : ownsEntry c.strand = true)
    (hs : c.strand.unwind ≠ .stop) (hj : c.strand.unwind ≠ .jump)
    (hc : c.strand.cleanup = top :: rest) (hkind : top.kind = .tagScope) :
    c.strand.ctl.Spare c.flags top rest := by
  obtain ⟨b, e, acts, hacts⟩ := walk_acts hpos
  intro t ht
  have ht : c.strand.tag = some t := ht
  simpa [leavesClean, hacts, hc, howns, hs, hj, hkind, ht] using hq

structure GateInv (c : Config L) : Prop where
  mark : MarkInv (posOf c.acts) c.strand.ctl
  bits : c.strand.ctl.Outstanding ∨ BitsOk c.flags c.strand.ctl (posOf c.acts)

theorem step_gateInv {J : Judgement L} (hg : Good J c) (hk : CallsOk c.acts)
    (hq : exacting c m = true) (h : GateInv c) (hd : c.step m = some d) : GateInv d := by
  simp only [exacting, Bool.and_eq_true, decide_eq_true_eq] at hq
  obtain ⟨⟨hdead, hkeeps⟩, hclean⟩ := hq
  cases hm : fromOutside m with
  | true =>
    obtain ⟨native, hout, hacts⟩ := outside_of_step hm hd
    refine ⟨outside_markInv hout hacts h.mark, ?_⟩
    cases hmark : marks c.strand m with
    | some v => exact .inl (.inl (outside_marked hout hmark).1)
    | none =>
      have hu := (outside_unmarked hout hmark).1
      have hc : d.strand.ctl.cleanup = c.strand.ctl.cleanup := (outside_disturbed hout).cleanup
      rcases h.bits with (ho | ⟨mk, hmk, hsus⟩) | hb
      · exact .inl (.inl (hu.trans ho))
      · exact .inl (.inr ⟨mk, hc ▸ hmk, hsus⟩)
      · exact .inr (outside_bits hdead hout hacts hmark hb)
  | false =>
    obtain ⟨n, hmoved⟩ := moved_of_step hg hk hm hd
    refine ⟨did_markInv hmoved.did h.mark, ?_⟩
    rw [hmoved.flags]
    by_cases ho : c.strand.ctl.Outstanding
    · rcases did_outstanding_kept hmoved.did (hmoved.keeps hkeeps) h.mark ho with
        ho | ⟨hpos, hexact⟩
      · exact .inl ho
      · -- served, and the bits recomputed behind the scope
        rw [hpos]
        exact .inr hexact
    · refine .inr (did_bits hmoved.did h.mark (h.bits.resolve_left ho) ho ?_)
      intro hn hj top rest hc hkind
      obtain ⟨hpos, howns⟩ := hmoved.pops hn
      exact spare_of_leavesClean hclean hpos howns (fun hs => ho (.inl hs)) hj hc hkind

/-- Gate bits are exact after leaving a scope.  In a run that discards no stop and leaves no scope of
a gated tag by a return or a throw, the strand carries the flags of the tags covering it whenever it
is about to execute an instruction with no stop outstanding; and a scope that is left at its end, by
a jump or by a stop served there leaves the bits right in any case. -/
theorem gate_bits_exact {ms : List (Move L)} (hc : Initial c)
    (hx : c.strand.gates = c.strand.gateBits c.flags) (hr : RunIf exacting c ms d) :
    (posOf d.acts = .fetch → d.outstanding = false → d.strand.gates = d.strand.gateBits d.flags) ∧
      ∀ v o e, d.step (.finish v o) = some e →
        (posOf d.acts = .code .tagPop ∨ posOf d.acts = .code .leaveJump ∨
          ((∃ top, posOf d.acts = .code (.leave top)) ∧ posOf e.acts = .fetch)) →
        e.strand.gates = e.strand.gateBits e.flags := by
  have hall : GateInv d := by
    induction hr with
    | nil =>
      refine ⟨initial_markInv hc, .inr ?_⟩
      rcases hc.atRest.1 with h | h <;> rw [h] <;> exact hx
    | snoc m hr hq hstep ih =>
      have hg := reachable_good (T := anyTyping L) hc hr.run
      exact step_gateInv hg (run_callsOk hc hr.run) hq ih hstep
  refine ⟨fun hpos hout => ?_, fun v o e hstep hleft => ?_⟩
  · rcases hall.bits with ho | hb
    · cases hout.symm.trans (outstanding_iff.mpr ho)
    · rw [hpos] at hb
      exact hb
  · have hg := reachable_good (T := anyTyping L) hc hr.run
    obtain ⟨n, hmoved⟩ := moved_of_step hg (run_callsOk hc hr.run) rfl hstep
    have hdid := hmoved.did
    show e.strand.ctl.gates = e.strand.ctl.gateBits e.flags
    rw [hmoved.flags]
    exact recomputed_of_did hdid hleft

end Steps

end Config

def blockAtYield : List (Move L) :=
  stopAtYield.take 4 ++ [.gateOn 7 1 false, .finish .nil Config.grantAll, .requeue,
    .gateOff 7 1 false, .dispatch 0, .exec Config.grantAll, .finish .nil Config.grantAll]

theorem gate_bits_exact_taggedOnce :
    ∃ (c d : Config (codeOf taggedOnce)) (f : UFrame (codeOf taggedOnce)),
      strandOf taggedOnce [.tag 7] = some c ∧ c.Run blockAtYield d ∧ d.strand.frames = [f] ∧
      f.pc = 3 ∧ d.strand.cleanup = [] ∧ d.strand.gates = d.strand.gateBits d.flags := by
  have hrun : ∃ (c d : Config (codeOf taggedOnce)) (f : UFrame (codeOf taggedOnce)),
      strandOf taggedOnce [.tag 7] = some c ∧ c.strand.gates = c.strand.gateBits c.flags ∧
      c.stepsIf Config.exacting blockAtYield = some d ∧ Config.posOf d.acts = .fetch ∧
      d.outstanding = false ∧ d.strand.frames = [f] ∧ f.pc = 3 ∧ d.strand.cleanup = [] :=
    ⟨_, _, _, rfl, rfl, rfl, rfl, rfl, rfl, rfl, rfl⟩
  obtain ⟨c, d, f, hc, hx, hd, hpos, hout, hf, hpc, hcl⟩ := hrun
  have hr := Config.runIf_of_stepsIf hd
  exact ⟨c, d, f, hc, hr.run, hf, hpc, hcl,
    (Config.gate_bits_exact (Config.uschedSpawn_initial hc) hx hr).1 hpos hout⟩

/-- `function (t, o) { try { t: { o.x = o | throw o } } catch (e) { } | nil }`. -/
def thrownFromScope : UProto :=
  .mk ⟨2, 0, 2, false, [], [uinstrEncAbx .scopeTry uscopeFHasCatch 7, uinstrEncAbx .scopeTag 0 5,
    uinstrEncAbc .setslot 1 1 0, uinstrEncAbc .throw 1 0 0, uinstrEncAbc .scopePop uscopePopTag 0 0,
    uinstrEncAbc .scopePop uscopePopTry 0 0, uinstrEncAbx .jmp 0 (ujmpBias + 1),
    uinstrEncAbc .loadCatchValue 2 0 0, uinstrEncAbc .loadnil 2 0 0, uinstrEncAbc .ret 2 0 0],
    [1, 0, 0, 0, 0, 0, 0, 0, 0, 0], [], [some [120]]⟩ []

def blockAndThrow : List (Move L) :=
  [.dispatch 0, .exec Config.grantAll, .exec Config.grantAll, .finish .nil Config.grantAll,
    .exec Config.grantAll, .gateOn 7 1 false, .finish .nil Config.grantAll, .exec Config.grantAll,
    .exec Config.grantAll, .finish .nil Config.grantAll, .exec Config.grantAll]

/-- No tag covers the strand any more, and it executes its next instruction with the bit of the tag it
has left. -/
theorem throw_keeps_gate_bit :
    ∃ (c d : Config (codeOf thrownFromScope)) (f : UFrame (codeOf thrownFromScope)),
      strandOf thrownFromScope [.tag 7, .obj 9] = some c ∧ c.Run blockAndThrow d ∧
      Config.posOf d.acts = .fetch ∧ d.strand.unwind = .none ∧ d.strand.frames = [f] ∧ f.pc = 7 ∧
      d.strand.coveringTags = [] ∧ d.strand.gateBits d.flags = 0 ∧ d.strand.gates = 1 ∧
      (d.step (.exec Config.grantAll)).isSome = true :=
  ⟨_, _, _, rfl, Config.run_of_steps rfl, rfl, rfl, rfl, rfl, rfl, rfl, rfl, rfl⟩

end Urbi
