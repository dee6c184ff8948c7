import Urbi.Rt.Stop

/-!
# Pending stops

A strand has one cell for a pending unwind, and a finally body suspends one in its marker.  Nothing is
lost as long as every stop leaves at least what the outstanding ones leave, and the strand starts no
unwind of its own meanwhile.
-/

namespace Urbi

variable {L : CodeBase}
variable {v : UValue L} {S rest : List (UCleanup L)} {top : UCleanup L}

/-! ## Where a stop lands -/

/-- A stop with `v` in the transfer slot is served at this scope. -/
def UCleanup.serves (d : UCleanup L) : UValue L → Bool
  | .tag t => d.scopeOf t
  | _ => false

/-- Nothing serves the stop of a tag the strand was merely spawned under: such a strand dies. -/
def reach (v : UValue L) (S : List (UCleanup L)) : List (UCleanup L) :=
  S.dropWhile fun d => !d.serves v

variable {d : UCleanup L}

theorem reach_cons_of_not (h : d.serves v = false) : reach v (d :: S) = reach v S := by
  simp [reach, h]

theorem reach_cons_of_serves (h : d.serves v = true) : reach v (d :: S) = d :: S := by
  simp [reach, h]

theorem reach_suffix (v : UValue L) (S : List (UCleanup L)) : reach v S <:+ S :=
  List.dropWhile_suffix _

theorem serves_try (h : d.kind = .try) (v : UValue L) : d.serves v = false := by
  cases v <;> simp [UCleanup.serves, UCleanup.scopeOf, h]

theorem reach_cons_try (h : d.kind = .try) :
    reach v (d :: S) = reach v S := reach_cons_of_not (serves_try h v)

def Pos.popped : Pos L → List (UCleanup L)
  | .code (.leave top) => [top]
  | _ => []

theorem Pos.Plain.popped {p : Pos L} (h : p.Plain) : p.popped = [] := by
  cases p with
  | code k => cases k <;> first | rfl | cases h _ rfl
  | _ => rfl

def entries (p : Pos L) (κ : Ctl L) : List (UCleanup L) := p.popped ++ κ.cleanup

theorem entries_of_popped {p : Pos L} (κ : Ctl L) (h : p.popped = []) : entries p κ = κ.cleanup := by
  rw [entries, h]
  rfl

def target (p : Pos L) (κ : Ctl L) : List (UCleanup L) := reach κ.transfer (entries p κ)

/-! ## The invariant -/

/-- A walk down `S` to `C` crosses no suspended stop, or leaves what that one leaves. -/
def Agrees (C S : List (UCleanup L)) : Prop :=
  ∀ m R, m :: R <:+ S → m.savedUnwind = .stop → m :: R <:+ C ∨ C <:+ reach m.saved R

variable {C : List (UCleanup L)}

theorem Agrees.suffix {S' : List (UCleanup L)} (h : Agrees C S) (hs : S' <:+ S) :
    Agrees C S' := fun m R hm => h m R (hm.trans hs)

theorem Agrees.cons (h : Agrees C S) (hd : d.savedUnwind ≠ .stop) : Agrees C (d :: S) := by
  intro m R hm hsus
  rcases List.suffix_cons_iff.mp hm with heq | hm
  · cases heq
    exact absurd hsus hd
  · exact h m R hm hsus

/-- Only the markers of finally bodies suspend an unwind, and only scopes are left with an event. -/
structure MarkInv (p : Pos L) (κ : Ctl L) : Prop where
  running : ∀ m ∈ κ.cleanup, m.running = true → m.kind = .try
  marks : ∀ m ∈ κ.cleanup, m.savedUnwind ≠ .none → m.kind = .try ∧ m.running = true
  popped : ∀ top ∈ p.popped, top.kind = .tagScope

structure PendInv (p : Pos L) (κ : Ctl L) : Prop extends MarkInv p κ where
  suspended : ∀ m R, m :: R <:+ κ.cleanup → m.savedUnwind = .stop → Agrees (reach m.saved R) R
  pending : κ.unwind = .stop → Agrees (target p κ) κ.cleanup

theorem suffix_of_cons (h : S = top :: rest) : rest <:+ S := by
  rw [h]
  exact List.suffix_cons top rest

section Own

variable {flags : Nat → UInt8} {p q : Pos L} {κ κ' : Ctl L} {n : Note}

/-- Nothing replaces the pending stop, no second scope of its tag is opened, and no other unwind
drops a marker that suspends one. -/
structure Keeps (κ : Ctl L) (n : Note) : Prop where
  lose : n = .discards → κ.unwind ≠ .stop
  opens : ∀ t, n = .opens t → ¬ κ.Stops t
  pops : n = .pops → κ.unwind ≠ .stop →
    ∀ top rest, κ.cleanup = top :: rest → top.savedUnwind ≠ .stop

theorem not_serves (hu : κ.unwind = .stop)
    (hne : ∀ t, d.tag = some t → ¬ κ.Stops t) : d.serves κ.transfer = false := by
  cases hv : κ.transfer with
  | tag t =>
    have htag : d.tag ≠ some t := fun htag => hne t htag ⟨hu, hv⟩
    simp [UCleanup.serves, UCleanup.scopeOf, htag]
  | _ => rfl

/-- A stop that the scope on top of `C` serves is pending or suspended, and `D` lies under it. -/
inductive Owes (p : Pos L) (κ : Ctl L) (D C : List (UCleanup L)) : Prop
  | pending : κ.unwind = .stop → target p κ = C → D <:+ entries p κ → Owes p κ D C
  | suspended {m : UCleanup L} {R : List (UCleanup L)} : m :: R <:+ κ.cleanup →
      m.savedUnwind = .stop → reach m.saved R = C → D <:+ R → Owes p κ D C

def Leaves (D : List (UCleanup L)) (p : Pos L) (κ : Ctl L) : Prop :=
  κ.unwind = .stop ∧ ∃ top, p = .code (.leave top) ∧ D = top :: κ.cleanup

def Scoped (D : List (UCleanup L)) : Prop := ∀ d ∈ D.head?, d.kind = .tagScope

variable {D : List (UCleanup L)}

theorem Scoped.under_try (h : Scoped D) (hD : D <:+ top :: rest)
    (htry : top.kind = .try) : D <:+ rest := by
  rcases List.suffix_cons_iff.mp hD with rfl | hD
  · cases htry.symm.trans (h top rfl)
  · exact hD

theorem marker_of_cons {R : List (UCleanup L)} {m : UCleanup L} (hc : S = top :: rest)
    (hm : m :: R <:+ S) (hsus : m.savedUnwind = .stop) (htop : top.savedUnwind ≠ .stop) :
    m :: R <:+ rest := by
  rw [hc] at hm
  rcases List.suffix_cons_iff.mp hm with heq | hm
  · cases heq
    exact absurd hsus htop
  · exact hm

theorem MarkInv.not_marker (h : MarkInv p κ) (hc : κ.cleanup = top :: rest)
    (hk : top.kind = .tagScope ∨ top.running = false) : top.savedUnwind ≠ .stop := by
  intro hsv
  obtain ⟨htry, hrun⟩ := h.marks top (by rw [hc]; exact .head _) (by rw [hsv]; decide)
  rcases hk with hk | hk
  · cases htry.symm.trans hk
  · rw [hrun] at hk
    cases hk

theorem target_walk (hc : κ.cleanup = top :: rest) (htry : top.kind = .try) :
    target .walk κ = reach κ.transfer rest := by
  rw [target, entries_of_popped κ rfl, hc]
  exact reach_cons_try htry

variable (hdid : Did flags p κ n q κ')

include hdid

theorem did_popped : ∀ top ∈ q.popped, top.kind = .tagScope := by
  have hnone : q.popped = [] → ∀ top ∈ q.popped, top.kind = .tagScope := by
    intro h
    rw [h]
    exact List.forall_mem_nil _
  cases hdid with
  | same _ _ hq | raise _ _ _ _ hq | openTry _ _ hq | closeTry _ _ _ hq | closeFinally _ _ _ hq
  | resume _ _ _ hq | loadCatch hq | «return» _ hq | entered hq | left hq => exact hnone hq.popped
  | leave _ _ _ hkind =>
    intro top htop
    rw [List.mem_singleton.mp htop]
    exact hkind
  | _ => exact hnone rfl

theorem did_stack : κ'.cleanup <:+ κ.cleanup ∨
      ∃ d rest, κ'.cleanup = d :: rest ∧ rest <:+ κ.cleanup ∧ (d.running = true → d.kind = .try) ∧
        (d.savedUnwind = .none ∨ p = .walk ∧ d.savedUnwind = κ.unwind ∧ d.saved = κ.transfer ∧
            d.kind = .try ∧ d.running = true ∧ ∃ top, κ.cleanup = top :: rest ∧ top.kind = .try) := by
  cases hdid with
  | raise hcl _ _ _ _ =>
    rcases hcl with rfl | ⟨top, hc, -⟩
    · exact .inl List.suffix_rfl
    · exact .inl (suffix_of_cons hc)
  | openTry htry hsv _ => exact .inr ⟨_, _, rfl, List.suffix_rfl, fun _ => htry, .inl hsv⟩
  | openTag _ _ hsv hrun _ =>
    refine .inr ⟨_, _, rfl, List.suffix_rfl, fun h => ?_, .inl hsv⟩
    cases hrun.symm.trans h
  | closeFinally hc htry _ _ =>
    exact .inr ⟨_, _, rfl, suffix_of_cons hc, fun _ => htry, .inl rfl⟩
  | @runFinally _ top rest pc _ _ hc htry _ =>
    refine .inr ⟨_, rest, rfl, suffix_of_cons hc, fun _ => htry,
      .inr ⟨rfl, rfl, rfl, htry, ?_, top, hc, htry⟩⟩
    show (top.flags ||| 0x20).testBit 5 = true
    rw [Nat.testBit_or, Bool.or_eq_true]
    exact .inr (by decide)
  | closeTry hc _ _ _ | closeTag hc _ | resume hc _ _ _ | resumeUnwind hc _ _ | pop _ hc _
  | popFatal _ hc _ | caught _ hc _ _ | leaveJump _ hc _ | leave _ _ hc _ =>
    exact .inl (suffix_of_cons hc)
  | _ => exact .inl List.suffix_rfl

theorem did_restart (hu : κ.unwind ≠ .stop) (hu' : κ'.unwind = .stop) :
    ∃ mark rest, κ.cleanup = mark :: rest ∧ mark.savedUnwind = .stop ∧
      κ'.cleanup = rest ∧ target q κ' = reach mark.saved rest := by
  cases hdid with
  | resumeUnwind hc _ _ => exact ⟨_, _, hc, hu', rfl, rfl⟩
  | raise _ _ hs _ _ => exact absurd hu' hs
  | landJump _ | lost _ | «return» _ _ | runFinally _ _ _ _ _ | caught _ _ _ _ | landed _ _ =>
    cases hu'
  | _ => exact absurd hu' hu

theorem did_markInv (h : MarkInv p κ) : MarkInv q κ' where
  running := by
    intro m hm hrun
    rcases did_stack hdid with hs | ⟨d, rest, hc, hs, hkind, -⟩
    · exact h.running m (hs.subset hm) hrun
    · rw [hc] at hm
      rcases List.mem_cons.mp hm with rfl | hm
      · exact hkind hrun
      · exact h.running m (hs.subset hm) hrun
  marks := by
    intro m hm hsv
    rcases did_stack hdid with hs | ⟨d, rest, hc, hs, -, hd⟩
    · exact h.marks m (hs.subset hm) hsv
    · rw [hc] at hm
      rcases List.mem_cons.mp hm with rfl | hm
      · rcases hd with hd | ⟨-, -, -, htry, hrun, -⟩
        · exact absurd hd hsv
        · exact ⟨htry, hrun⟩
      · exact h.marks m (hs.subset hm) hsv
  popped := did_popped hdid

variable (hk : Keeps κ n)

include hk

theorem did_target (hu : κ.unwind = .stop) (hu' : κ'.unwind = .stop) : target q κ' = target p κ ∧
      (κ'.cleanup <:+ κ.cleanup ∨ ∃ d, κ'.cleanup = d :: κ.cleanup ∧ d.savedUnwind = .none) := by
  have hlose : n ≠ .discards := fun hn => hk.lose hn hu
  cases hdid with
  | same hv hp hq =>
    have hne : κ.unwind ≠ .none := by rw [hu]; decide
    refine ⟨?_, .inl List.suffix_rfl⟩
    rw [target, target, entries_of_popped _ hp.popped, entries_of_popped _ hq.popped, hv hne]
  | raise | closeTry | closeFinally | closeTag | resume | resumeUnwind | loadCatch =>
    exact absurd rfl hlose
  | openTry htry hsv hq =>
    refine ⟨?_, .inr ⟨_, rfl, hsv⟩⟩
    rw [target, entries_of_popped _ hq.popped]
    exact reach_cons_try htry
  | @openTag _ d t _ htag hsv _ _ =>
    refine ⟨reach_cons_of_not (not_serves hu ?_), .inr ⟨_, rfl, hsv⟩⟩
    intro t' htag' hst
    cases htag.symm.trans htag'
    exact hk.opens t rfl hst
  | landJump _ | lost _ | «return» _ _ | runFinally _ _ _ _ _ | caught _ _ _ _ | landed _ _ =>
    cases hu'
  | pop _ hc htry =>
    refine ⟨?_, .inl (suffix_of_cons hc)⟩
    exact (target_walk hc htry).symm
  | popFatal hf _ _ => cases hu.symm.trans hf
  | leaveJump hj _ _ => cases hu.symm.trans hj
  | @leave _ top rest _ _ hc _ =>
    refine ⟨?_, .inl (suffix_of_cons hc)⟩
    show reach κ.transfer (top :: rest) = reach κ.transfer κ.cleanup
    rw [hc]
  | leftJump => exact ⟨rfl, .inl List.suffix_rfl⟩
  | @passed _ top hne =>
    exact ⟨(reach_cons_of_not (not_serves hu hne)).symm, .inl List.suffix_rfl⟩
  | entered hq | left hq =>
    refine ⟨?_, .inl List.suffix_rfl⟩
    rw [target, entries_of_popped _ hq.popped]
    rfl

theorem owes_of_did (ho : Owes q κ' [] C) : Owes p κ [] C := by
  cases ho with
  | pending hu' hC _ =>
    subst hC
    by_cases hu : κ.unwind = .stop
    · exact .pending hu (did_target hdid hk hu hu').1.symm List.nil_suffix
    · obtain ⟨mark, rest, hc, hsv, -, htarget⟩ := did_restart hdid hu hu'
      exact .suspended (hc ▸ List.suffix_rfl) hsv htarget.symm List.nil_suffix
  | @suspended m R hm hsus hC _ =>
    rcases did_stack hdid with hs | ⟨d, rest, hc, hs, -, hd⟩
    · exact .suspended (hm.trans hs) hsus hC List.nil_suffix
    · rw [hc] at hm
      rcases List.suffix_cons_iff.mp hm with heq | hm
      · cases heq
        rcases hd with hd | ⟨rfl, hu, hv, -, -, top, hc', htry⟩
        · cases hd.symm.trans hsus
        · refine .pending (hu.symm.trans hsus) ?_ List.nil_suffix
          rw [← hC, hv]
          exact target_walk hc' htry
      · exact .suspended (hm.trans hs) hsus hC List.nil_suffix

variable (h : PendInv p κ)

include h

theorem did_pendInv : PendInv q κ' where
  toMarkInv := did_markInv hdid h.toMarkInv
  suspended := by
    intro m R hm hsus
    rcases did_stack hdid with hs | ⟨d, rest, hc, hs, -, hd⟩
    · exact h.suspended m R (hm.trans hs) hsus
    · rw [hc] at hm
      rcases List.suffix_cons_iff.mp hm with heq | hm
      · cases heq
        rcases hd with hd | ⟨rfl, hu, hv, -, -, top, hc', htry⟩
        · cases hd.symm.trans hsus
        · -- the new marker suspends the stop that was pending
          have hag := h.pending (hu.symm.trans hsus)
          rw [hv, ← target_walk hc' htry]
          exact hag.suffix hs
      · exact h.suspended m R (hm.trans hs) hsus
  pending := by
    intro hu'
    by_cases hu : κ.unwind = .stop
    · obtain ⟨htarget, hs | ⟨d, hc, hsv⟩⟩ := did_target hdid hk hu hu'
      · rw [htarget]
        exact (h.pending hu).suffix hs
      · rw [htarget, hc]
        exact (h.pending hu).cons (by rw [hsv]; decide)
    · obtain ⟨mark, rest, hc, hsv, hc', htarget⟩ := did_restart hdid hu hu'
      rw [htarget, hc']
      exact h.suspended mark rest (hc ▸ List.suffix_rfl) hsv

theorem did_pending (hD : Scoped D) (hu : κ.unwind = .stop)
    (hin : D <:+ entries p κ) : Owes q κ' D (target p κ) ∨ Leaves D p κ ∨
      (Leaves (target p κ) p κ ∧ D <:+ target p κ ∧
        q = .fetch ∧ κ'.unwind = .none ∧ κ'.cleanup = κ.cleanup) := by
  have hlose : n ≠ .discards := fun hn => hk.lose hn hu
  have hstill : κ'.unwind = .stop → D <:+ entries q κ' → Owes q κ' D (target p κ) :=
    fun hu' hin' => .pending hu' (did_target hdid hk hu hu').1 hin'
  cases hdid with
  | same _ hp hq =>
    refine .inl (hstill hu ?_)
    rw [entries_of_popped _ hp.popped] at hin
    rw [entries_of_popped _ hq.popped]
    exact hin
  | raise | closeTry | closeFinally | closeTag | resume | resumeUnwind | loadCatch =>
    exact absurd rfl hlose
  | openTry _ _ hq =>
    refine .inl (hstill hu ?_)
    rw [entries_of_popped _ hq.popped]
    exact hin.trans (List.suffix_cons _ _)
  | openTag _ _ _ _ _ => exact .inl (hstill hu (hin.trans (List.suffix_cons _ _)))
  | landJump hj | lost hj | leaveJump hj _ _ => cases hu.symm.trans hj
  | «return» hr _ => cases hu.symm.trans hr
  | pop _ hc htry =>
    rw [entries_of_popped κ rfl, hc] at hin
    exact .inl (hstill hu (hD.under_try hin htry))
  | popFatal hf _ _ => cases hu.symm.trans hf
  | runFinally _ _ hc htry _ =>
    rw [entries_of_popped κ rfl, hc] at hin
    exact .inl (.suspended List.suffix_rfl hu (target_walk hc htry).symm (hD.under_try hin htry))
  | caught ht _ _ _ => cases hu.symm.trans ht
  | leave _ _ hc _ =>
    rw [entries_of_popped κ rfl, hc] at hin
    exact .inl (hstill hu hin)
  | leftJump => exact .inl (hstill hu hin)
  | @landed _ top t htag hst =>
    have hserves : top.serves κ.transfer = true := by
      have hkind : top.kind = .tagScope := h.popped top (.head _)
      simp [hst.2, UCleanup.serves, UCleanup.scopeOf, hkind, htag]
    have htarget : target (.code (.leave top)) κ = top :: κ.cleanup :=
      reach_cons_of_serves hserves
    rw [htarget]
    exact .inr (.inr ⟨⟨hu, top, rfl, rfl⟩, hin, rfl, rfl, rfl⟩)
  | @passed _ top _ =>
    rcases List.suffix_cons_iff.mp hin with heq | hin
    · exact .inr (.inl ⟨hu, top, rfl, heq⟩)
    · exact .inl (hstill hu hin)
  | entered hq | left hq =>
    refine .inl (hstill hu ?_)
    rw [entries_of_popped _ hq.popped]
    exact hin

theorem did_suspended {m : UCleanup L} {R : List (UCleanup L)} (hm : m :: R <:+ κ.cleanup)
    (hsus : m.savedUnwind = .stop) (hin : D <:+ R) :
    ∃ C, C <:+ reach m.saved R ∧ Owes q κ' D C := by
  have hstay : m :: R <:+ κ'.cleanup → ∃ C, C <:+ reach m.saved R ∧ Owes q κ' D C :=
    fun hs => ⟨_, List.suffix_rfl, .suspended hs hsus rfl hin⟩
  -- the entry popped was no marker of a stop
  have hdrop : ∀ top rest, κ.cleanup = top :: rest → top.savedUnwind ≠ .stop →
      rest <:+ κ'.cleanup → ∃ C, C <:+ reach m.saved R ∧ Owes q κ' D C :=
    fun top rest hc htop hs => hstay ((marker_of_cons hc hm hsus htop).trans hs)
  cases hdid with
  | raise hcl _ _ _ _ =>
    rcases hcl with rfl | ⟨top, hc, -, hrun⟩
    · exact hstay hm
    · exact hdrop _ _ hc (h.not_marker hc (.inr hrun)) List.suffix_rfl
  | openTry _ _ _ | openTag _ _ _ _ _ => exact hstay (hm.trans (List.suffix_cons _ _))
  | closeTry hc _ hrun _ | caught _ hc _ hrun =>
    exact hdrop _ _ hc (h.not_marker hc (.inr hrun)) List.suffix_rfl
  | closeFinally hc _ hrun _ | runFinally _ _ hc _ hrun =>
    exact hdrop _ _ hc (h.not_marker hc (.inr hrun)) (List.suffix_cons _ _)
  | closeTag hc hkind | leaveJump _ hc hkind | leave _ _ hc hkind =>
    exact hdrop _ _ hc (h.not_marker hc (.inl hkind)) List.suffix_rfl
  | resume hc _ hsv _ => exact hdrop _ _ hc (by rw [hsv]; decide) List.suffix_rfl
  | @resumeUnwind _ mark rest hc _ _ =>
    rw [hc] at hm
    rcases List.suffix_cons_iff.mp hm with heq | hm
    · cases heq
      exact ⟨_, List.suffix_rfl, .pending hsus rfl hin⟩
    · exact hstay hm
  | @pop _ top rest _ hc htry =>
    by_cases hu : κ.unwind = .stop
    · rw [hc] at hm
      rcases List.suffix_cons_iff.mp hm with heq | hm
      · -- the stop on its way leaves at least what the suspended one leaves
        cases heq
        have htarget := target_walk hc htry
        rcases h.pending hu m R (hc ▸ List.suffix_rfl) hsus with hcross | hle
        · rw [htarget] at hcross
          have hlen := (hcross.trans (reach_suffix κ.transfer R)).length_le
          rw [List.length_cons] at hlen
          omega
        · rw [htarget] at hle
          exact ⟨_, hle, .pending hu rfl hin⟩
      · exact hstay hm
    · exact hdrop _ _ hc (hk.pops rfl hu top rest hc) List.suffix_rfl
  | @popFatal _ top rest _ hf hc _ =>
    have hu : κ.unwind ≠ .stop := by rw [hf]; decide
    exact hdrop _ _ hc (hk.pops rfl hu top rest hc) List.suffix_rfl
  | _ => exact hstay hm

theorem did_owes (hD : Scoped D) (ho : Owes p κ D C) :
    (∃ C', C' <:+ C ∧ Owes q κ' D C') ∨ Leaves D p κ ∨
      (Leaves C p κ ∧ D <:+ C ∧ q = .fetch ∧ κ'.unwind = .none ∧ κ'.cleanup = κ.cleanup) := by
  cases ho with
  | pending hu hC hin =>
    subst hC
    rcases did_pending hdid hk h hD hu hin with ho | hout
    · exact .inl ⟨_, List.suffix_rfl, ho⟩
    · exact .inr hout
  | suspended hm hsus hC hin =>
    subst hC
    exact .inl (did_suspended hdid hk h hm hsus hin)

end Own

namespace Config

section Outside

variable {s s' : UStrand L} {flags flags' : Nat → UInt8} {native : Bool} {m : Move L}

theorem outside_marked (h : outside s flags native m = some (s', flags'))
    (hm : marks s m = some v) : s'.unwind = .stop ∧ s'.transfer = v := by
  cases met_of_outside h with
  | missed _ hnone => cases hnone.symm.trans hm
  | self _ hsome | other _ hsome => exact ⟨rfl, Option.some.inj (hsome.symm.trans hm)⟩
  | gateOn | gateOff | apartOn | apartOff | wake | awake => cases hm

theorem outside_unmarked (h : outside s flags native m = some (s', flags'))
    (hm : marks s m = none) :
    s'.unwind = s.unwind ∧ (s.unwind ≠ .none → s'.transfer = s.transfer) := by
  cases met_of_outside h with
  | self _ hsome | other _ hsome => cases hsome.symm.trans hm
  | wake _ hv => exact ⟨rfl, hv⟩
  | missed | gateOn | gateOff | apartOn | apartOff | awake => exact ⟨rfl, fun _ => rfl⟩

end Outside

/-! ## The condition -/

def crosses (c : Config L) : Bool :=
  match c.acts, c.strand.cleanup with
  | .run _ _ true :: _, top :: _ =>
    ownsEntry c.strand && c.strand.unwind ≠ .stop && top.savedUnwind = .stop
  | _, _ => false

/-- `Keeps`, as a test of the configuration and the move. -/
def keeps (c : Config L) (m : Move L) : Bool :=
  (c.strand.unwind ≠ .stop ||
    (!discards c m && (opens c m).all fun t => !c.strand.stopping (some t))) && !crosses c

theorem walk_acts {acts : List (Act L)} (h : posOf acts = .walk) :
    ∃ b e rest, acts = .run b e true :: rest := by
  unfold posOf at h
  split at h
  · rename_i b e w rest
    cases w with
    | true => exact ⟨b, e, rest, rfl⟩
    | false => cases h
  · cases h
  · cases h

theorem Moved.keeps {c d : Config L} {m : Move L} {n : Note} (h : Moved c m n d)
    (hq : keeps c m = true) : Keeps c.strand.ctl n := by
  simp only [Config.keeps, Bool.and_eq_true, Bool.or_eq_true, decide_eq_true_eq] at hq
  obtain ⟨hpend, hcross⟩ := hq
  refine ⟨fun hn hu => ?_, fun t hn hst => ?_, fun hn hu top rest hc hsv => ?_⟩
  · rcases hpend with hpend | ⟨hdis, -⟩
    · exact hpend hu
    · rw [h.lose hn] at hdis
      cases hdis
  · rcases hpend with hpend | ⟨-, hopen⟩
    · exact hpend hst.1
    · rw [h.opens t hn, Option.all_some, UStrand.stops_iff.mp hst] at hopen
      cases hopen
  · obtain ⟨hwalk, howns⟩ := h.pops hn
    have hc : c.strand.cleanup = top :: rest := hc
    have hu : c.strand.unwind ≠ .stop := hu
    obtain ⟨b, e, acts, hacts⟩ := walk_acts hwalk
    simp [crosses, hacts, hc, howns, hu, hsv] at hcross

def raised (c : Config L) (m : Move L) : Option (List (UCleanup L)) :=
  (marks c.strand m).map fun v => reach v (entries (posOf c.acts) c.strand.ctl)

def agrees (C : List (UCleanup L)) : List (UCleanup L) → Bool
  | [] => true
  | m :: R =>
    (m.savedUnwind ≠ .stop || R.length < C.length || C.length ≤ (reach m.saved R).length) &&
      agrees C R

/-- Every new stop is served no further in than those it overtakes. -/
def outward (c : Config L) (m : Move L) : Bool :=
  keeps c m && (raised c m).all fun C =>
    (c.strand.unwind ≠ .stop || C.length ≤ (target (posOf c.acts) c.strand.ctl).length) &&
      agrees C c.strand.cleanup

theorem agrees_sound {T : List (UCleanup L)} (hC : C <:+ T) (hS : S <:+ T)
    (h : agrees C S = true) : Agrees C S := by
  intro m R hm hsus
  induction S with
  | nil => exact absurd (List.suffix_nil.mp hm) nofun
  | cons d S ih =>
    simp only [agrees, Bool.and_eq_true, Bool.or_eq_true, decide_eq_true_eq] at h
    have hS' : S <:+ T := (List.suffix_cons d S).trans hS
    rcases List.suffix_cons_iff.mp hm with heq | hm
    · -- suffixes of one stack, so their depths decide
      cases heq
      rcases h.1 with (h | h) | h
      · exact absurd hsus h
      · exact .inl (List.suffix_of_suffix_length_le hS hC h)
      · exact .inr (List.suffix_of_suffix_length_le hC ((reach_suffix _ _).trans hS') h)
    · exact ih hS' h.2 hm

theorem overtakes {c : Config L} {m : Move L} (hq : outward c m = true) (hC : raised c m = some C) :
    (c.strand.unwind = .stop → C <:+ target (posOf c.acts) c.strand.ctl) ∧
      Agrees C c.strand.cleanup := by
  have hin : C <:+ entries (posOf c.acts) c.strand.ctl := by
    obtain ⟨v, -, rfl⟩ := Option.map_eq_some_iff.mp hC
    exact reach_suffix v _
  simp only [outward, hC, Option.all_some, Bool.and_eq_true, Bool.or_eq_true,
    decide_eq_true_eq] at hq
  obtain ⟨-, hlen, hag⟩ := hq
  refine ⟨fun hu => ?_, agrees_sound hin (List.suffix_append _ _) hag⟩
  rcases hlen with hne | hlen
  · exact absurd hu hne
  · exact List.suffix_of_suffix_length_le hin (reach_suffix _ _) hlen

/-! ## Steps -/

def owes (c : Config L) (D C : List (UCleanup L)) : Prop := Owes (posOf c.acts) c.strand.ctl D C

def leaves (D : List (UCleanup L)) (c : Config L) : Prop := Leaves D (posOf c.acts) c.strand.ctl

structure Tracked (c : Config L) : Prop where
  good : Good (anyTyping L).toJudgement c
  calls : CallsOk c.acts
  pend : PendInv (posOf c.acts) c.strand.ctl

section Steps

variable {c d : Config L} {m : Move L} {native : Bool} {C D : List (UCleanup L)}

section Outside

variable (hout : outside c.strand c.flags native m = some (d.strand, d.flags))
  (hacts : d.acts = c.acts)

include hout hacts

theorem outside_pending : posOf d.acts = posOf c.acts ∧ d.strand.cleanup = c.strand.cleanup ∧
      ((∃ C, raised c m = some C ∧ d.strand.unwind = .stop ∧
          target (posOf d.acts) d.strand.ctl = C) ∨
        (raised c m = none ∧ d.strand.unwind = c.strand.unwind ∧ (c.strand.unwind = .stop →
            target (posOf d.acts) d.strand.ctl = target (posOf c.acts) c.strand.ctl))) := by
  have hpos : posOf d.acts = posOf c.acts := by rw [hacts]
  have hclean : d.strand.cleanup = c.strand.cleanup := (outside_disturbed hout).cleanup
  have hentries : entries (posOf d.acts) d.strand.ctl = entries (posOf c.acts) c.strand.ctl := by
    rw [entries, entries, hpos]
    exact congrArg _ hclean
  refine ⟨hpos, hclean, ?_⟩
  cases hm : marks c.strand m with
  | some v =>
    obtain ⟨hu, hv⟩ := outside_marked hout hm
    refine .inl ⟨_, by rw [raised, hm]; rfl, hu, ?_⟩
    rw [target, hentries]
    exact congrArg (reach · _) hv
  | none =>
    obtain ⟨hu, hv⟩ := outside_unmarked hout hm
    refine .inr ⟨by rw [raised, hm]; rfl, hu, fun hst => ?_⟩
    rw [target, target, hentries]
    exact congrArg (reach · _) (hv (by rw [hst]; decide))

theorem outside_markInv (h : MarkInv (posOf c.acts) c.strand.ctl) :
    MarkInv (posOf d.acts) d.strand.ctl := by
  obtain ⟨hpos, hclean, -⟩ := outside_pending hout hacts
  have hclean : d.strand.ctl.cleanup = c.strand.ctl.cleanup := hclean
  exact ⟨hclean ▸ h.running, hclean ▸ h.marks, hpos ▸ h.popped⟩

theorem outside_pendInv (hq : outward c m = true) (h : PendInv (posOf c.acts) c.strand.ctl) :
    PendInv (posOf d.acts) d.strand.ctl := by
  obtain ⟨hpos, hclean, hcell⟩ := outside_pending hout hacts
  have hclean : d.strand.ctl.cleanup = c.strand.ctl.cleanup := hclean
  refine ⟨outside_markInv hout hacts h.toMarkInv, ?_, fun hu => ?_⟩
  · rw [hclean]
    exact h.suspended
  · rw [hclean]
    rcases hcell with ⟨C, hC, -, htarget⟩ | ⟨-, hu', htarget⟩
    · rw [htarget]
      exact (overtakes hq hC).2
    · have hu : c.strand.unwind = .stop := hu'.symm.trans hu
      rw [htarget hu]
      exact h.pending hu

end Outside

theorem step_tracked (h : Tracked c) (hq : outward c m = true) (hd : c.step m = some d) :
    Tracked d := by
  refine ⟨step_good h.good hd, step_callsOk h.calls hd, ?_⟩
  rcases step_moved h.good h.calls hd with ⟨n, hmoved⟩ | ⟨native, hout, hacts⟩
  · exact did_pendInv hmoved.did (hmoved.keeps (Bool.and_eq_true_iff.mp hq).1) h.pend
  · exact outside_pendInv hout hacts hq h.pend

theorem initial_markInv (hc : Initial c) : MarkInv (posOf c.acts) c.strand.ctl := by
  obtain ⟨hacts, hclean, -⟩ := hc.atRest
  have hclean : c.strand.ctl.cleanup = [] := hclean
  have hpopped : (posOf c.acts).popped = [] := by rcases hacts with h | h <;> rw [h] <;> rfl
  constructor <;> simp [hclean, hpopped]

theorem initial_tracked (hc : Initial c) : Tracked c := by
  obtain ⟨-, hclean, hu⟩ := hc.atRest
  refine ⟨reachable_good hc .nil, run_callsOk hc .nil, initial_markInv hc, ?_, fun hst => ?_⟩
  · intro m R hm
    have hm : m :: R <:+ c.strand.cleanup := hm
    rw [hclean] at hm
    cases List.suffix_nil.mp hm
  · cases hu.symm.trans hst

theorem runIf_tracked {ms : List (Move L)} (hc : Tracked c) (hr : RunIf outward c ms d) :
    Tracked d := by
  induction hr with
  | nil => exact hc
  | snoc m _ hq hstep ih => exact step_tracked ih hq hstep

structure Landed (C : List (UCleanup L)) (d : Config L) : Prop where
  pos : posOf d.acts = .fetch
  unwind : d.strand.unwind = .none
  behind : ∃ top, C = top :: d.strand.cleanup

theorem step_owes (h : Tracked c) (hq : outward c m = true) (hd : c.step m = some d)
    (hD : Scoped D) (ho : c.owes D C) :
    (∃ C', C' <:+ C ∧ d.owes D C') ∨ c.leaves D ∨ (c.leaves C ∧ D <:+ C ∧ Landed C d) := by
  have hkeeps : keeps c m = true := (Bool.and_eq_true_iff.mp hq).1
  rcases step_moved h.good h.calls hd with ⟨n, hmoved⟩ | ⟨native, hout, hacts⟩
  · rcases did_owes hmoved.did (hmoved.keeps hkeeps) h.pend hD ho with
      ho | hleft | ⟨hleft, hin, hpos, hu, hclean⟩
    · exact .inl ho
    · exact .inr (.inl hleft)
    · refine .inr (.inr ⟨hleft, hin, hpos, hu, ?_⟩)
      obtain ⟨-, top, -, htop⟩ := hleft
      exact ⟨top, htop.trans (congrArg _ hclean.symm)⟩
  · obtain ⟨hpos, hclean, hcell⟩ := outside_pending hout hacts
    have hclean : d.strand.ctl.cleanup = c.strand.ctl.cleanup := hclean
    left
    cases ho with
    | suspended hm hsus hC hin => exact ⟨C, List.suffix_rfl, .suspended (hclean ▸ hm) hsus hC hin⟩
    | pending hu hC hin =>
      have hin' : D <:+ entries (posOf d.acts) d.strand.ctl := by
        rw [entries, hpos, hclean]
        exact hin
      rcases hcell with ⟨C', hC', hu', htarget⟩ | ⟨-, hu', htarget⟩
      · exact ⟨C', hC ▸ (overtakes hq hC').1 hu, .pending hu' htarget hin'⟩
      · exact ⟨C, List.suffix_rfl, .pending (hu'.trans hu) ((htarget hu).trans hC) hin'⟩

end Steps

end Config

end Urbi
