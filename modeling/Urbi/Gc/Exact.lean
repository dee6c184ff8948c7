import Mathlib.Algebra.Group.Nat.Defs
import Mathlib.Data.List.Nodup
import Mathlib.Data.List.Perm.Subperm
import Urbi.Gc.Collect
import Urbi.Lib.Capacity

/-!
# A collection is exact

As long as the gray stack can always be asked to grow, a collection keeps the reachable cells and
frees the others, whatever growth the allocator refuses.  Doubling the capacity wraps to zero at 2³¹
entries.
-/

namespace Urbi

open Lib (Color Doubling Reachable Tricolor)
variable {cap : UInt32} {fuel fuel' : Nat}

namespace UGc

variable {κ : Type} {alloc : Nat → Bool} {h : CellGraph κ} {g g' : UGc κ} {c : κ}

def Root (h : CellGraph κ) (all : List κ) (c : κ) : Prop :=
  c ∈ h.fixed ∨ (c ∈ all ∧ h.pinned c = true)

def Live (h : CellGraph κ) (all : List κ) : κ → Prop := Reachable h.children (Root h all)

structure Closed (h : CellGraph κ) (all : List κ) : Prop where
  nodup : all.Nodup
  fixed : ∀ c ∈ h.fixed, c ∈ all
  children : ∀ c ∈ all, ∀ d ∈ h.children c, d ∈ all

theorem Closed.mem_of_live {all : List κ} (hc : Closed h all) (hl : Live h all c) : c ∈ all := by
  apply hl.holds
  · rintro x (hx | hx)
    · exact hc.fixed x hx
    · exact hx.1
  · exact fun x y hx hy => hc.children x hx y hy

theorem nextCap_cases (h : Doubling 31 cap.toNat) :
    cap.toNat = 2 ^ 31 ∧ nextCap cap = 0 ∨
      cap.toNat < 2 ^ 31 ∧ cap.toNat < (nextCap cap).toNat ∧ Doubling 31 (nextCap cap).toNat := by
  rw [nextCap, ite_not]
  exact h.grown32_cases 64 ⟨6, by decide, rfl⟩

/-! ## The invariant of the marking -/

def whites (g : UGc κ) : Nat := g.all.countP (g.marked · = .white)

structure Marking (h : CellGraph κ) (all : List κ) (excused : κ → Prop) (g : UGc κ) : Prop where
  heap : g.all = all
  colors : Tricolor h.children (Root h all) g.marked
  queued : ∀ x, g.marked x = .gray → x ∈ g.gray ∨ g.grayOverflow = true ∨ excused x
  nodup : g.gray.Nodup
  stacked : ∀ x ∈ g.gray, x ∈ all ∧ g.marked x ≠ .white
  kept : g.grayFreed = false
  cap : Doubling 31 g.grayCap.toNat
  fits : g.gray.length ≤ g.grayCap.toNat
  collecting : g.inCollect = true

/-- What marking does to the colours, and what it costs: every push and every refusal uses up a
white cell. -/
structure Onward (g g' : UGc κ) : Prop where
  met : ∀ x, g.marked x ≠ .white → g'.marked x ≠ .white
  whites : g'.whites ≤ g.whites
  cost : g'.whites + g'.gray.length ≤ g.whites + g.gray.length
  overflow : g'.grayOverflow = true → g.grayOverflow = true ∨ g'.whites < g.whites

theorem Onward.refl (g : UGc κ) : Onward g g := ⟨fun _ h => h, Nat.le_refl _, Nat.le_refl _, .inl⟩

theorem Onward.trans {g₁ g₂ g₃ : UGc κ} (h : Onward g₁ g₂) (h' : Onward g₂ g₃) : Onward g₁ g₃ := by
  refine ⟨fun x hx => h'.met x (h.met x hx), Nat.le_trans h'.whites h.whites,
    Nat.le_trans h'.cost h.cost, ?_⟩
  intro ho
  rcases h'.overflow ho with ho | hlt
  · rcases h.overflow ho with ho | hlt
    · exact .inl ho
    · exact .inr (Nat.lt_of_le_of_lt h'.whites hlt)
  · exact .inr (Nat.lt_of_lt_of_le hlt h.whites)

def Ends (m : Except Halt (UGc κ)) (Q : UGc κ → Prop) : Prop := ∃ g', m = .ok g' ∧ Q g'

/-- The block is freed and the drain has yet to read it. -/
def Dangling (g : UGc κ) : Prop := g.grayFreed = true ∧ g.gray ≠ []

def Lost (m : Except Halt (UGc κ)) : Prop := ∀ g', m = .ok g' → Dangling g'

theorem Lost.bind {m : Except Halt (UGc κ)} {f : UGc κ → Except Halt (UGc κ)} (hm : Lost m)
    (hf : ∀ g', Dangling g' → Lost (f g')) : Lost (m >>= f) := by
  intro g₂ heq
  obtain ⟨g₁, hm₁, heq⟩ := Lib.except_bind_eq_ok.mp heq
  exact hf g₁ (hm g₁ hm₁) g₂ heq

def after (m : Except Halt (UGc κ)) (p : UGc κ → Bool) : Bool :=
  match m with
  | .ok g => p g
  | .error _ => false

@[simp] theorem after_false (m : Except Halt (UGc κ)) : after m (fun _ => false) = false := by
  cases m <;> rfl

theorem after_eq_true {m : Except Halt (UGc κ)} {p : UGc κ → Bool} :
    after m p = true ↔ ∃ g, m = .ok g ∧ p g = true := by
  cases m <;> simp [after]

/-- A step either fills the stack, which only a heap of more than 2³¹ cells can, or ends well. -/
def Turns (fills : Bool) (all : List κ) (m : Except Halt (UGc κ)) (Q : UGc κ → Prop) : Prop :=
  if fills then 2 ^ 31 < all.length ∧ Lost m else Ends m Q

section Turns

variable {fills : Bool} {all : List κ} {m : Except Halt (UGc κ)} {P Q : UGc κ → Prop}

theorem Turns.ok (hq : Q g) : Turns false all (.ok g) Q := ⟨g, rfl, hq⟩

theorem Turns.imp (hm : Turns fills all m P) (himp : ∀ g', P g' → Q g') : Turns fills all m Q := by
  cases fills with
  | true => exact hm
  | false =>
    obtain ⟨g', heq, hp⟩ := hm
    exact ⟨g', heq, himp g' hp⟩

theorem Turns.bind {f : UGc κ → Except Halt (UGc κ)} {p : UGc κ → Bool} (hm : Turns fills all m P)
    (hlost : ∀ g', Dangling g' → Lost (f g')) (hf : ∀ g', P g' → Turns (p g') all (f g') Q) :
    Turns (fills || after m p) all (m >>= f) Q := by
  cases fills with
  | true => exact ⟨hm.1, hm.2.bind hlost⟩
  | false =>
    obtain ⟨g', rfl, hp⟩ := hm
    exact hf g' hp

end Turns

/-- The cell is on the stack, or growth was refused and the flag says so. -/
structure Pushed (alloc : Nat → Bool) (g : UGc κ) (c : κ) (g' : UGc κ) : Prop where
  heap : g'.all = g.all
  marked : g'.marked = g.marked
  gray : g'.gray = c :: g.gray ∧ g'.grayOverflow = g.grayOverflow ∨
    g'.gray = g.gray ∧ g'.grayOverflow = true ∧ alloc g.asked = false
  kept : g'.grayFreed = g.grayFreed
  cap : Doubling 31 g'.grayCap.toNat
  fits : g'.gray.length ≤ g'.grayCap.toNat
  collecting : g'.inCollect = g.inCollect

theorem pushGray_ends (hkept : g.grayFreed = false) (hcap : Doubling 31 g.grayCap.toNat)
    (hfits : g.gray.length ≤ g.grayCap.toNat) (hlt : g.gray.length < 2 ^ 31) :
    Ends (g.pushGray alloc c) (Pushed alloc g c) := by
  unfold pushGray
  rw [if_neg (by rw [hkept]; decide)]
  by_cases hfull : g.gray.length = g.grayCap.toNat
  · obtain ⟨-, hgrow, hcap'⟩ := (nextCap_cases hcap).resolve_left (by omega)
    rw [if_pos hfull, if_neg (fun hzero => by simp [hzero] at hgrow)]
    by_cases hgrant : alloc g.asked = true
    · rw [if_pos hgrant]
      refine ⟨_, rfl, rfl, rfl, .inl ⟨rfl, rfl⟩, rfl, hcap', ?_, rfl⟩
      show g.gray.length + 1 ≤ (nextCap g.grayCap).toNat
      omega
    · rw [if_neg hgrant]
      exact ⟨_, rfl, rfl, rfl, .inr ⟨rfl, rfl, Bool.not_eq_true _ ▸ hgrant⟩, rfl, hcap, hfits, rfl⟩
  · rw [if_neg hfull]
    refine ⟨_, rfl, rfl, rfl, .inl ⟨rfl, rfl⟩, rfl, hcap, ?_, rfl⟩
    show g.gray.length + 1 ≤ g.grayCap.toNat
    omega

/-- The last capacity a `uint32_t` doubles to is full: the block is freed, whatever the allocator
would answer. -/
theorem lost_pushGray (hkept : g.grayFreed = false) (hcap : Doubling 31 g.grayCap.toNat)
    (hfits : g.gray.length ≤ g.grayCap.toNat) (hfull : g.gray.length = 2 ^ 31) :
    Lost (g.pushGray alloc c) := by
  have hle := hcap.le
  obtain ⟨htop, hzero⟩ := (nextCap_cases hcap).resolve_right (by omega)
  unfold pushGray
  rw [if_neg (by rw [hkept]; decide), if_pos (by omega), if_pos hzero]
  rintro g' ⟨⟩
  refine ⟨rfl, fun hnil => ?_⟩
  have hnil : g.gray = [] := hnil
  rw [hnil] at hfull
  cases hfull

variable {all : List κ} {excused : κ → Prop}

theorem Marking.length_lt (hm : Marking h all excused g)
    (hc : c ∈ all) (hwhite : g.marked c = .white) : g.gray.length < all.length := by
  have hnot : c ∉ g.gray := fun hmem => (hm.stacked c hmem).2 hwhite
  have hnd : (c :: g.gray).Nodup := List.nodup_cons.mpr ⟨hnot, hm.nodup⟩
  have hsub : c :: g.gray ⊆ all := by
    intro x hx
    rcases List.mem_cons.mp hx with rfl | hx
    · exact hc
    · exact (hm.stacked x hx).1
  have hle := (List.subperm_of_subset hnd hsub).length_le
  rw [List.length_cons] at hle
  omega

theorem Marking.excuse {excused' : κ → Prop} (hm : Marking h all excused g)
    (hex : ∀ x, g.marked x = .gray → excused x → excused' x) : Marking h all excused' g :=
  { hm with queued := fun x hx => (hm.queued x hx).imp_right (Or.imp_right (hex x hx)) }

/-! ## Marking a cell -/

variable [DecidableEq κ]

theorem countP_update {l : List κ} (hnd : l.Nodup) (hc : c ∈ l) {f : κ → Color} {k : Color}
    (hf : f c = .white) (hk : k ≠ .white) :
    l.countP (Function.update f c k · = .white) + 1 = l.countP (f · = .white) := by
  induction l with
  | nil => cases hc
  | cons a l ih =>
    obtain ⟨hnot, hnd⟩ := List.nodup_cons.mp hnd
    by_cases hac : a = c
    · subst hac
      have hrest : l.countP (Function.update f a k · = .white) = l.countP (f · = .white) := by
        apply List.countP_congr
        intro x hx
        have hxa : x ≠ a := by
          rintro rfl
          exact hnot hx
        rw [Function.update_of_ne hxa]
      rw [List.countP_cons_of_neg (by simpa using hk), List.countP_cons_of_pos (by simpa using hf),
        hrest]
    · have hmem : c ∈ l := (List.mem_cons.mp hc).resolve_left (Ne.symm hac)
      have hrest := ih hnd hmem
      rw [List.countP_cons, List.countP_cons, Function.update_of_ne hac]
      omega

theorem whites_paint (hnd : g.all.Nodup) (hc : c ∈ g.all) (hwhite : g.marked c = .white) :
    (g.paint c .gray).whites + 1 = g.whites := countP_update hnd hc hwhite (by decide)

theorem Marking.meet (hm : Marking h all excused g) (hc : Live h all c) (hmem : c ∈ all)
    (hwhite : g.marked c = .white) (hp : Pushed alloc (g.paint c .gray) c g') :
    Marking h all excused g' := by
  have hmarked : g'.marked = Function.update g.marked c .gray := hp.marked
  have hnot : c ∉ g.gray := fun hin => (hm.stacked c hin).2 hwhite
  have hself : g'.marked c ≠ .white := by
    rw [hmarked, Function.update_self]
    decide
  have hold : ∀ x ∈ g.gray, x ∈ all ∧ g'.marked x ≠ .white := by
    intro x hx
    have hxc : x ≠ c := fun heq => hnot (heq ▸ hx)
    rw [hmarked, Function.update_of_ne hxc]
    exact hm.stacked x hx
  refine ⟨hp.heap.trans hm.heap, hmarked ▸ hm.colors.meet hc hwhite, ?_, ?_, ?_,
    hp.kept.trans hm.kept, hp.cap, hp.fits, hp.collecting.trans hm.collecting⟩
  · intro x hx
    rcases hp.gray with ⟨hpush, hover⟩ | ⟨-, hover, -⟩
    · by_cases hxc : x = c
      · left
        rw [hpush, hxc]
        exact .head _
      · rw [hmarked, Function.update_of_ne hxc] at hx
        rw [hpush, hover]
        exact (hm.queued x hx).imp_left (List.mem_cons_of_mem c)
    · exact .inr (.inl hover)
  · rcases hp.gray with ⟨hpush, -⟩ | ⟨hsame, -⟩
    · rw [hpush]
      exact List.nodup_cons.mpr ⟨hnot, hm.nodup⟩
    · rw [hsame]
      exact hm.nodup
  · intro x hx
    rcases hp.gray with ⟨hpush, -⟩ | ⟨hsame, -⟩
    · rw [hpush] at hx
      rcases List.mem_cons.mp hx with rfl | hx
      · exact ⟨hmem, hself⟩
      · exact hold x hx
    · rw [hsame] at hx
      exact hold x hx

theorem Onward.meet (hnd : g.all.Nodup) (hmem : c ∈ g.all) (hwhite : g.marked c = .white)
    (hp : Pushed alloc (g.paint c .gray) c g') : Onward g g' := by
  have hw : g'.whites + 1 = g.whites := by
    rw [← whites_paint hnd hmem hwhite]
    unfold UGc.whites
    rw [hp.heap, hp.marked]
  have hlen : g'.gray.length ≤ g.gray.length + 1 := by
    rcases hp.gray with ⟨hg, -⟩ | ⟨hg, -⟩ <;> rw [hg]
    · exact Nat.le_of_eq List.length_cons
    · exact Nat.le_succ _
  refine ⟨fun x hx => ?_, by omega, by omega, fun _ => .inr (by omega)⟩
  have hxc : x ≠ c := by
    rintro rfl
    exact hx hwhite
  rw [hp.marked, paint_of_ne _ _ hxc]
  exact hx

variable (alloc) in
/-- Whether marking the cells comes to a white one with 2³¹ cells on the stack. -/
def markAllFills : List κ → UGc κ → Bool
  | [], _ => false
  | c :: cs, g =>
    (g.marked c = .white && g.gray.length = 2 ^ 31) || after (g.ugcMark alloc c) (markAllFills cs)

theorem lost_markAll {cs : List κ} (hd : Dangling g) : Lost (markAll alloc cs g) := by
  induction cs generalizing g with
  | nil =>
    rintro g' ⟨⟩
    exact hd
  | cons c cs ih =>
    refine Lost.bind (fun g' heq => ?_) fun g' hd' => ih hd'
    unfold ugcMark pushGray at heq
    rw [if_pos (show (g.paint c .gray).grayFreed = true from hd.1)] at heq
    split at heq <;> cases heq
    exact hd

section Marks

variable (hclosed : Closed h all)
include hclosed

theorem ugcMark_turns (hm : Marking h all excused g) (hc : Live h all c) :
    Turns (g.marked c = .white && g.gray.length = 2 ^ 31) all (g.ugcMark alloc c) fun g' =>
      Marking h all excused g' ∧ Onward g g' ∧ g'.marked c ≠ .white := by
  unfold ugcMark
  by_cases hwhite : g.marked c = .white
  · rw [if_neg (by simpa using hwhite), decide_eq_true hwhite, Bool.true_and]
    have hmem := hclosed.mem_of_live hc
    have hlt := hm.length_lt hmem hwhite
    by_cases hfull : g.gray.length = 2 ^ 31
    · rw [decide_eq_true hfull]
      exact ⟨by omega, lost_pushGray hm.kept hm.cap hm.fits hfull⟩
    · rw [decide_eq_false hfull]
      have hle := hm.cap.le
      have hfits := hm.fits
      obtain ⟨g', heq, hp⟩ :
          Ends ((g.paint c .gray).pushGray alloc c) (Pushed alloc (g.paint c .gray) c) :=
        pushGray_ends hm.kept hm.cap hm.fits (by show g.gray.length < _; omega)
      refine ⟨g', heq, hm.meet hc hmem hwhite hp, ?_, ?_⟩
      · rw [← hm.heap] at hmem
        exact .meet (hm.heap ▸ hclosed.nodup) hmem hwhite hp
      · rw [hp.marked, paint_self]
        decide
  · rw [if_pos hwhite, decide_eq_false hwhite]
    exact Turns.ok ⟨hm, .refl g, hwhite⟩

theorem markAll_turns {cs : List κ} (hm : Marking h all excused g) (hcs : ∀ c ∈ cs, Live h all c) :
    Turns (markAllFills alloc cs g) all (markAll alloc cs g) fun g' =>
      Marking h all excused g' ∧ Onward g g' ∧ ∀ c ∈ cs, g'.marked c ≠ .white := by
  induction cs generalizing g with
  | nil => exact Turns.ok ⟨hm, .refl g, nofun⟩
  | cons c cs ih =>
    refine (ugcMark_turns hclosed hm (hcs c (.head _))).bind (fun _ => lost_markAll) ?_
    rintro g₁ ⟨hm₁, hon₁, hc₁⟩
    refine (ih hm₁ fun d hd => hcs d (.tail c hd)).imp ?_
    rintro g₂ ⟨hm₂, hon₂, hcs₂⟩
    refine ⟨hm₂, hon₁.trans hon₂, ?_⟩
    intro d hd
    rcases List.mem_cons.mp hd with rfl | hd
    · exact hon₂.met d hc₁
    · exact hcs₂ d hd

end Marks

/-! ## Tracing a cell -/

theorem Marking.finish (hm : Marking h all (fun x => x = c ∨ excused x) g)
    (hc : g.marked c ≠ .white) (hchildren : ∀ d ∈ h.children c, g.marked d ≠ .white) :
    Marking h all excused (g.paint c .black) := by
  refine { hm with
    colors := hm.colors.finish hc hchildren
    queued := fun x hx => ?_
    stacked := fun x hx => ⟨(hm.stacked x hx).1, ?_⟩ }
  · have hxc : x ≠ c := by
      rintro rfl
      rw [paint_self] at hx
      cases hx
    rw [paint_of_ne _ _ hxc] at hx
    exact (hm.queued x hx).imp_right (Or.imp_right fun he => he.resolve_left hxc)
  · by_cases hxc : x = c
    · rw [hxc, paint_self]
      decide
    · rw [paint_of_ne _ _ hxc]
      exact (hm.stacked x hx).2

theorem Onward.finish (hc : g.marked c ≠ .white) : Onward g (g.paint c .black) := by
  have hcolor : ∀ x, (g.paint c .black).marked x = .white ↔ g.marked x = .white := by
    intro x
    by_cases hxc : x = c
    · subst hxc
      rw [paint_self]
      exact ⟨nofun, fun hw => absurd hw hc⟩
    · rw [paint_of_ne _ _ hxc]
  have hw : (g.paint c .black).whites = g.whites :=
    List.countP_congr fun x _ => by simpa using hcolor x
  refine ⟨fun x hx hx' => hx ((hcolor x).mp hx'), Nat.le_of_eq hw, ?_, .inl⟩
  rw [hw]
  exact Nat.le_refl _

theorem lost_traceCell (hd : Dangling g) : Lost (traceCell alloc h c g) := by
  refine (lost_markAll hd).bind ?_
  rintro g₁ hd₁ g₂ ⟨⟩
  exact hd₁

theorem drain_ne_ok (hd : Dangling g) : drain alloc h fuel g ≠ .ok g' := by
  cases fuel with
  | zero => exact nofun
  | succ fuel =>
    unfold drain
    cases hg : g.gray with
    | nil => exact absurd hg hd.2
    | cons c rest =>
      dsimp only
      rw [if_pos hd.1]
      exact nofun

theorem markLoop_ne_ok {steps : Nat} (hd : Dangling g) : markLoop alloc h steps fuel g ≠ .ok g' := by
  cases fuel with
  | zero => exact nofun
  | succ fuel =>
    intro heq
    obtain ⟨g₁, hdrain, -⟩ := Lib.except_bind_eq_ok.mp heq
    exact drain_ne_ok hd hdrain

theorem lost_rescan {cs : List κ} (hd : Dangling g) : Lost (rescan alloc h cs g) := by
  induction cs generalizing g with
  | nil =>
    rintro g' ⟨⟩
    exact hd
  | cons c cs ih =>
    unfold rescan
    split
    · exact (lost_traceCell hd).bind fun g' hd' => ih hd'
    · exact ih hd

section Loops

variable (alloc h) in
def drainFills : Nat → UGc κ → Bool
  | 0, _ => false
  | fuel + 1, g =>
    match g.gray with
    | [] => false
    | c :: rest =>
      markAllFills alloc (h.children c) { g with gray := rest } ||
        after (traceCell alloc h c { g with gray := rest }) (drainFills fuel)

variable (alloc h) in
def rescanFills : List κ → UGc κ → Bool
  | [], _ => false
  | c :: cs, g =>
    if g.marked c = .gray then
      markAllFills alloc (h.children c) g || after (traceCell alloc h c g) (rescanFills cs)
    else rescanFills cs g

variable (alloc h) in
def markLoopFills (steps : Nat) : Nat → UGc κ → Bool
  | 0, _ => false
  | fuel + 1, g =>
    drainFills alloc h steps g || after (drain alloc h steps g) fun g =>
      if g.grayOverflow = false then false
      else
        rescanFills alloc h g.all { g with grayOverflow := false } ||
          after (rescan alloc h g.all { g with grayOverflow := false }) (markLoopFills steps fuel)

variable (hclosed : Closed h all)
include hclosed

theorem traceCell_turns (hm : Marking h all (fun x => x = c ∨ excused x) g)
    (hc : g.marked c ≠ .white) :
    Turns (markAllFills alloc (h.children c) g) all (traceCell alloc h c g) fun g' =>
      Marking h all excused g' ∧ Onward g g' := by
  have hlive : ∀ d ∈ h.children c, Live h all d := fun d hd => (hm.colors.sound c hc).step hd
  rw [← Bool.or_false (markAllFills ..), ← after_false (markAll alloc (h.children c) g)]
  refine (markAll_turns hclosed hm hlive).bind (fun g₁ hd => ?_) ?_
  · rintro g₂ ⟨⟩
    exact hd
  · rintro g₁ ⟨hm₁, hon, hchildren⟩
    have hc₁ := hon.met c hc
    exact Turns.ok ⟨hm₁.finish hc₁ hchildren, hon.trans (.finish hc₁)⟩

theorem drain_turns (hm : Marking h all (fun _ => False) g)
    (hfuel : g.whites + g.gray.length < fuel) :
    Turns (drainFills alloc h fuel g) all (drain alloc h fuel g) fun g' =>
      Marking h all (fun _ => False) g' ∧ Onward g g' ∧ g'.gray = [] := by
  induction fuel generalizing g with
  | zero => omega
  | succ fuel ih =>
    unfold drain drainFills
    cases hgray : g.gray with
    | nil => exact Turns.ok ⟨hm, .refl g, hgray⟩
    | cons c rest =>
      dsimp only
      rw [if_neg (by rw [hm.kept]; decide)]
      have hnd := hm.nodup
      have hfits := hm.fits
      have hstacked := hm.stacked
      rw [hgray] at hnd hfits hstacked hfuel
      rw [List.length_cons] at hfits hfuel
      have hpop : Marking h all (fun x => x = c ∨ False) { g with gray := rest } := by
        refine { hm with
          queued := fun x hx => ?_
          nodup := (List.nodup_cons.mp hnd).2
          stacked := fun x hx => hstacked x (.tail c hx)
          fits := by show rest.length ≤ g.grayCap.toNat; omega }
        rcases hm.queued x hx with hin | hrest
        · rw [hgray] at hin
          rcases List.mem_cons.mp hin with heq | hin
          · exact .inr (.inr (.inl heq))
          · exact .inl hin
        · exact .inr (hrest.imp_right False.elim)
      have hon : Onward g { g with gray := rest } := by
        refine ⟨fun _ hx => hx, Nat.le_refl _, ?_, .inl⟩
        show g.whites + rest.length ≤ g.whites + g.gray.length
        rw [hgray, List.length_cons]
        omega
      refine (traceCell_turns hclosed hpop (hstacked c (.head _)).2).bind
        (fun _ hd _ heq => absurd heq (drain_ne_ok hd)) ?_
      rintro g₁ ⟨hm₁, hon₁⟩
      have hcost : g₁.whites + g₁.gray.length ≤ g.whites + rest.length := hon₁.cost
      refine (ih hm₁ (by omega)).imp ?_
      rintro g₂ ⟨hm₂, hon₂, hnil⟩
      exact ⟨hm₂, (hon.trans hon₁).trans hon₂, hnil⟩

theorem rescan_turns {cs : List κ} (hm : Marking h all (· ∈ cs) g) :
    Turns (rescanFills alloc h cs g) all (rescan alloc h cs g) fun g' =>
      Marking h all (fun _ => False) g' ∧ Onward g g' := by
  induction cs generalizing g with
  | nil => exact Turns.ok ⟨hm.excuse (fun _ _ hx => absurd hx List.not_mem_nil), .refl g⟩
  | cons c cs ih =>
    unfold rescan rescanFills
    by_cases hgray : g.marked c = .gray
    · rw [if_pos hgray, if_pos hgray]
      have hm' : Marking h all (fun x => x = c ∨ x ∈ cs) g :=
        hm.excuse fun _ _ hx => List.mem_cons.mp hx
      refine (traceCell_turns hclosed hm' (by rw [hgray]; decide)).bind (fun _ => lost_rescan) ?_
      rintro g₁ ⟨hm₁, hon₁⟩
      refine (ih hm₁).imp ?_
      rintro g₂ ⟨hm₂, hon₂⟩
      exact ⟨hm₂, hon₁.trans hon₂⟩
    · rw [if_neg hgray, if_neg hgray]
      apply ih
      apply hm.excuse
      intro x hx hmem
      rcases List.mem_cons.mp hmem with rfl | hmem
      · exact absurd hx hgray
      · exact hmem

def rounds (g : UGc κ) : Nat := 2 * g.whites + if g.grayOverflow then 1 else 0

theorem markLoop_turns {steps : Nat} (hm : Marking h all (fun _ => False) g)
    (hsteps : g.whites + g.gray.length < steps) (hfuel : g.rounds < fuel) :
    Turns (markLoopFills alloc h steps fuel g) all (markLoop alloc h steps fuel g) fun g' =>
      Marking h all (fun _ => False) g' ∧ Onward g g' ∧ g'.gray = [] ∧ g'.grayOverflow = false := by
  induction fuel generalizing g with
  | zero => omega
  | succ fuel ih =>
    unfold markLoop markLoopFills
    refine (drain_turns hclosed hm hsteps).bind (fun g₁ hd => ?_) ?_
    · split
      · rintro g₂ ⟨⟩
        exact hd
      · have hd : Dangling { g₁ with grayOverflow := false } := hd
        exact (lost_rescan hd).bind fun _ hd _ heq => absurd heq (markLoop_ne_ok hd)
    rintro g₁ ⟨hm₁, hon₁, hnil⟩
    by_cases hover : g₁.grayOverflow = false
    · rw [if_pos hover, if_pos hover]
      exact Turns.ok ⟨hm₁, hon₁, hnil, hover⟩
    · rw [if_neg hover, if_neg hover]
      have hcleared : Marking h all (· ∈ g₁.all) { g₁ with grayOverflow := false } := by
        refine { hm₁ with queued := fun x hx => .inr (.inr ?_) }
        have hlive := hm₁.colors.sound x (by rw [show g₁.marked x = .gray from hx]; decide)
        rw [hm₁.heap]
        exact hclosed.mem_of_live hlive
      refine (rescan_turns hclosed hcleared).bind
        (fun _ hd _ heq => absurd heq (markLoop_ne_ok hd)) ?_
      rintro g₂ ⟨hm₂, hon₂⟩
      have hw₁ : g₁.whites ≤ g.whites := hon₁.whites
      have hw₂ : g₂.whites ≤ g₁.whites := hon₂.whites
      have hcost₂ : g₂.whites + g₂.gray.length ≤ g₁.whites + g₁.gray.length := hon₂.cost
      have hcost₁ := hon₁.cost
      have hflag₁ := hon₁.overflow (by simpa using hover)
      have hflag₂ : g₂.grayOverflow = true → g₂.whites < g₁.whites := fun ho =>
        (hon₂.overflow ho).resolve_left nofun
      have hrounds : g₂.rounds < g.rounds := by
        unfold rounds
        by_cases ho₂ : g₂.grayOverflow = true
        · have := hflag₂ ho₂
          rw [if_pos ho₂]
          split <;> omega
        · rw [if_neg ho₂]
          rcases hflag₁ with ho | hlt
          · rw [if_pos ho]
            omega
          · split <;> omega
      refine (ih hm₂ (by omega) (by omega)).imp ?_
      rintro g₃ ⟨hm₃, hon₃, hrest⟩
      refine ⟨hm₃, ?_, hrest⟩
      have hclear : Onward g₁ { g₁ with grayOverflow := false } :=
        ⟨fun _ hx => hx, Nat.le_refl _, Nat.le_refl _, nofun⟩
      exact ((hon₁.trans hclear).trans hon₂).trans hon₃

end Loops

/-! ## The marking phase -/

structure Ready (h : CellGraph κ) (g : UGc κ) : Prop where
  closed : Closed h g.all
  white : ∀ c, g.marked c = .white
  empty : g.gray = []
  kept : g.grayFreed = false
  cap : Doubling 31 g.grayCap.toNat
  idle : g.inCollect = false

omit [DecidableEq κ] in
theorem Ready.marking (hr : Ready h g) : Marking h g.all (fun _ => False)
      { g with inCollect := true, gray := [], grayOverflow := false } where
  heap := rfl
  colors := ⟨fun x hx => absurd (hr.white x) hx, fun x hx => by rw [hr.white x] at hx; cases hx⟩
  queued x hx := by
    have hx : g.marked x = .gray := hx
    rw [hr.white x] at hx
    cases hx
  nodup := List.nodup_nil
  stacked := nofun
  kept := hr.kept
  cap := hr.cap
  fits := Nat.zero_le _
  collecting := rfl

structure Marked (h : CellGraph κ) (all : List κ) (g : UGc κ) : Prop where
  heap : g.all = all
  exact : ∀ c, g.marked c ≠ .white ↔ Live h all c
  empty : g.gray = []
  kept : g.grayFreed = false
  cap : Doubling 31 g.grayCap.toNat

/-- As many as a marking takes. -/
def steps (g : UGc κ) : Nat := 2 * g.all.length + 2

variable (alloc h) in
def markPhaseFills (g : UGc κ) : Bool :=
  let g₀ := { g with inCollect := true, gray := [], grayOverflow := false }
  markAllFills alloc h.fixed g₀ || after (markAll alloc h.fixed g₀) fun g₁ =>
    markAllFills alloc (g₁.all.filter h.pinned) g₁ ||
      after (markAll alloc (g₁.all.filter h.pinned) g₁) (markLoopFills alloc h g.steps g.steps)

theorem markPhase_turns (hr : Ready h g) :
    Turns (markPhaseFills alloc h g) g.all (markPhase alloc h g.steps g) (Marked h g.all) := by
  have hclosed := hr.closed
  have hlost : ∀ g₁ : UGc κ, Dangling g₁ → Lost (markLoop alloc h g.steps g.steps g₁) :=
    fun _ hd _ heq => absurd heq (markLoop_ne_ok hd)
  refine (markAll_turns hclosed hr.marking fun c hc => .of_root (.inl hc)).bind
    (fun _ hd => (lost_markAll hd).bind hlost) ?_
  rintro g₁ ⟨hm₁, hon₁, hfixed⟩
  have hpinned : ∀ c ∈ g₁.all.filter h.pinned, Live h g.all c := by
    intro c hc
    rw [hm₁.heap] at hc
    exact .of_root (.inr (List.mem_filter.mp hc))
  refine (markAll_turns hclosed hm₁ hpinned).bind hlost ?_
  rintro g₂ ⟨hm₂, hon₂, hpins⟩
  have hcost₁ : g₁.whites + g₁.gray.length ≤ g.whites + 0 := hon₁.cost
  have hcost₂ := hon₂.cost
  have hwhites : g.whites ≤ g.all.length := List.countP_le_length
  have hrounds : g₂.rounds ≤ 2 * g₂.whites + 1 := by
    unfold rounds
    split <;> omega
  refine (markLoop_turns hclosed hm₂ (by unfold steps; omega) (by unfold steps; omega)).imp ?_
  rintro g₃ ⟨hm₃, hon₃, hnil, hover⟩
  refine ⟨hm₃.heap, ?_, hnil, hm₃.kept, hm₃.cap⟩
  apply hm₃.colors.exact
  · rintro x (hx | ⟨hx, hpin⟩)
    · exact hon₃.met x (hon₂.met x (hfixed x hx))
    · refine hon₃.met x (hpins x (List.mem_filter.mpr ⟨?_, hpin⟩))
      rw [hm₁.heap]
      exact hx
  · intro x _ hx
    rcases hm₃.queued x hx with hin | ho | hf
    · rw [hnil] at hin
      cases hin
    · rw [hover] at ho
      cases ho
    · exact hf

theorem sweep_foldl {l : List κ} (hnd : l.Nodup) (s : Sweep κ) :
    (l.foldl (sweepCell h) s).kept = s.kept ++ l.filter (s.marked · ≠ .white) ∧
      (l.foldl (sweepCell h) s).events = s.events ++
        (l.filter (s.marked · = .white)).flatMap (fun c => [.finalize c, .free c]) ∧
      ∀ c, (l.foldl (sweepCell h) s).marked c = if c ∈ l then .white else s.marked c := by
  induction l generalizing s with
  | nil => simp
  | cons a l ih =>
    obtain ⟨hnot, hnd⟩ := List.nodup_cons.mp hnd
    obtain ⟨hkept, hevents, hmarked⟩ := ih hnd (sweepCell h s a)
    -- the mark of a later cell is not touched
    have hlater : ∀ c ∈ l, (sweepCell h s a).marked c = s.marked c := by
      intro c hc
      have hca : c ≠ a := by
        rintro rfl
        exact hnot hc
      unfold sweepCell
      split
      · exact Function.update_of_ne hca _ _
      · rfl
    have hcongr : ∀ k : Color → Bool,
        l.filter (fun c => k ((sweepCell h s a).marked c)) = l.filter fun c => k (s.marked c) :=
      fun k => List.filter_congr fun c hc => by rw [hlater c hc]
    rw [hcongr (· ≠ .white)] at hkept
    rw [hcongr (· = .white)] at hevents
    rw [List.foldl_cons, hkept, hevents]
    by_cases ha : s.marked a = .white
    · have hs : sweepCell h s a = { s with events := s.events ++ [.finalize a, .free a] } :=
        if_neg (by simpa using ha)
      refine ⟨?_, ?_, fun c => ?_⟩
      · rw [hs, List.filter_cons_of_neg (by simpa using ha)]
      · rw [hs, List.filter_cons_of_pos (by simpa using ha), List.flatMap_cons,
          ← List.append_assoc]
      · rw [hmarked c, hs]
        by_cases hca : c = a
        · subst hca
          simp [ha]
        · simp [hca]
    · have hs : sweepCell h s a = { s with
          marked := Function.update s.marked a .white
          live := s.live + (h.size a).toUInt64
          n := s.n + 1
          kept := s.kept ++ [a] } := if_pos ha
      refine ⟨?_, ?_, fun c => ?_⟩
      · rw [hs, List.filter_cons_of_pos (by simpa using ha), List.append_assoc]
        rfl
      · rw [hs, List.filter_cons_of_neg (by simpa using ha)]
      · rw [hmarked c, hs]
        by_cases hca : c = a
        · subst hca
          simp
        · simp [hca]

theorem sweep_kept (hnd : g.all.Nodup) :
    (g.sweep h).kept = g.all.filter (g.marked · ≠ .white) := (sweep_foldl hnd _).1

theorem sweep_events (hnd : g.all.Nodup) : (g.sweep h).events =
    (g.all.filter (g.marked · = .white)).flatMap fun c => [.finalize c, .free c] :=
  (sweep_foldl hnd _).2.1

theorem sweep_marked (hnd : g.all.Nodup) (c : κ) :
    (g.sweep h).marked c = if c ∈ g.all then .white else g.marked c := (sweep_foldl hnd _).2.2 c

theorem count_events {l : List κ} (hnd : l.Nodup) (c : κ) :
    (l.flatMap fun c => [SweepEvent.finalize c, .free c]).count (.finalize c) =
        (if c ∈ l then 1 else 0) ∧
      (l.flatMap fun c => [SweepEvent.finalize c, .free c]).count (.free c) =
        if c ∈ l then 1 else 0 := by
  induction l with
  | nil => exact ⟨rfl, rfl⟩
  | cons a l ih =>
    obtain ⟨hnot, hnd⟩ := List.nodup_cons.mp hnd
    obtain ⟨hfin, hfree⟩ := ih hnd
    rw [List.flatMap_cons, List.count_append, List.count_append, hfin, hfree]
    by_cases hca : a = c
    · subst hca
      simp [hnot]
    · simp [hca, Ne.symm hca]

/-! ## Collections -/

/-- The collection comes back, keeps the live cells and finalizes and frees each of the others once,
and leaves the collector ready for the next. -/
structure Collected (h : CellGraph κ) (g g' : UGc κ) (events : List (SweepEvent κ)) : Prop where
  kept : ∀ c, c ∈ g'.all ↔ Live h g.all c
  order : g'.all.Sublist g.all
  swept : ∀ c ∈ g.all, ¬ Live h g.all c →
    events.count (.finalize c) = 1 ∧ events.count (.free c) = 1
  spared : ∀ c, Live h g.all c → .finalize c ∉ events ∧ .free c ∉ events
  strangers : ∀ c, c ∉ g.all → .finalize c ∉ events ∧ .free c ∉ events
  ready : Ready h g'

def CollectsExactly (alloc : Nat → Bool) (h : CellGraph κ) (g : UGc κ) : Prop :=
  ∃ g' events, (∀ fuel, g.steps ≤ fuel → ugcCollect alloc h fuel g = .ok (g', events)) ∧
    Collected h g g' events

/-! More steps than needed change nothing. -/

theorem drain_mono (hle : fuel ≤ fuel') (hd : drain alloc h fuel g = .ok g') :
    drain alloc h fuel' g = .ok g' := by
  induction fuel generalizing fuel' g with
  | zero => cases hd
  | succ fuel ih =>
    obtain ⟨k, rfl⟩ : ∃ k, fuel' = k + 1 := ⟨fuel' - 1, by omega⟩
    unfold drain at hd ⊢
    cases hgray : g.gray with
    | nil =>
      rw [hgray] at hd
      exact hd
    | cons c rest =>
      rw [hgray] at hd
      dsimp only at hd ⊢
      by_cases hfreed : g.grayFreed = true
      · rw [if_pos hfreed] at hd
        cases hd
      · rw [if_neg hfreed] at hd ⊢
        obtain ⟨g₁, htrace, hd⟩ := Lib.except_bind_eq_ok.mp hd
        rw [htrace]
        exact ih (by omega) hd

theorem markLoop_mono {steps steps' : Nat} (hsteps : steps ≤ steps') (hle : fuel ≤ fuel')
    (hd : markLoop alloc h steps fuel g = .ok g') : markLoop alloc h steps' fuel' g = .ok g' := by
  induction fuel generalizing fuel' g with
  | zero => cases hd
  | succ fuel ih =>
    obtain ⟨k, rfl⟩ : ∃ k, fuel' = k + 1 := ⟨fuel' - 1, by omega⟩
    unfold markLoop at hd ⊢
    obtain ⟨g₁, hdrain, hd⟩ := Lib.except_bind_eq_ok.mp hd
    rw [drain_mono hsteps hdrain]
    rw [Lib.except_bind_ok]
    by_cases hover : g₁.grayOverflow = false
    · rw [if_pos hover] at hd ⊢
      exact hd
    · rw [if_neg hover] at hd ⊢
      obtain ⟨g₂, hrescan, hd⟩ := Lib.except_bind_eq_ok.mp hd
      rw [hrescan]
      exact ih (by omega) hd

theorem markPhase_mono (hle : fuel ≤ fuel') (hd : markPhase alloc h fuel g = .ok g') :
    markPhase alloc h fuel' g = .ok g' := by
  unfold markPhase at hd ⊢
  obtain ⟨g₁, hfixed, hd⟩ := Lib.except_bind_eq_ok.mp hd
  obtain ⟨g₂, hpins, hd⟩ := Lib.except_bind_eq_ok.mp hd
  rw [hfixed, Lib.except_bind_ok, hpins]
  exact markLoop_mono hle hle hd

theorem Marked.collected {g₁ : UGc κ} (hr : Ready h g) (hm : Marked h g.all g₁) :
    Collected h g (g₁.afterSweep (g₁.sweep h)) (g₁.sweep h).events := by
  have hnd : g₁.all.Nodup := hm.heap ▸ hr.closed.nodup
  have hkept : (g₁.sweep h).kept = g.all.filter (g₁.marked · ≠ .white) := by
    rw [sweep_kept hnd, hm.heap]
  have hmem : ∀ c, c ∈ (g₁.sweep h).kept ↔ Live h g.all c := by
    intro c
    rw [hkept, List.mem_filter, decide_eq_true_eq, hm.exact c]
    exact and_iff_right_of_imp hr.closed.mem_of_live
  -- the swept cells, in order
  have hevents := sweep_events (h := h) hnd
  have hcount := count_events (hnd.filter (g₁.marked · = .white))
  have hdead : ∀ c, c ∈ g₁.all.filter (g₁.marked · = .white) ↔ c ∈ g.all ∧ ¬ Live h g.all c := by
    intro c
    rw [List.mem_filter, decide_eq_true_eq, hm.heap, ← hm.exact c, not_not]
  have habsent : ∀ c, ¬ (c ∈ g.all ∧ ¬ Live h g.all c) →
      .finalize c ∉ (g₁.sweep h).events ∧ .free c ∉ (g₁.sweep h).events := by
    intro c hc
    rw [← List.count_eq_zero, ← List.count_eq_zero, hevents, (hcount c).1, (hcount c).2,
      if_neg (mt (hdead c).mp hc)]
    exact ⟨rfl, rfl⟩
  refine ⟨hmem, ?_, ?_, fun c hc => habsent c fun hd => hd.2 hc, fun c hc => habsent c fun hd =>
    hc hd.1, ?_⟩
  · show (g₁.sweep h).kept.Sublist g.all
    rw [hkept]
    exact List.filter_sublist
  · intro c hc hl
    rw [hevents, (hcount c).1, (hcount c).2, if_pos ((hdead c).mpr ⟨hc, hl⟩)]
    exact ⟨rfl, rfl⟩
  · refine ⟨⟨?_, ?_, ?_⟩, ?_, hm.empty, hm.kept, hm.cap, rfl⟩
    · show (g₁.sweep h).kept.Nodup
      rw [hkept]
      exact hr.closed.nodup.filter _
    · exact fun c hc => (hmem c).mpr (.of_root (.inl hc))
    · exact fun c hc d hd => (hmem d).mpr (((hmem c).mp hc).step hd)
    · intro c
      show (g₁.sweep h).marked c = .white
      rw [sweep_marked hnd, hm.heap]
      split
      · rfl
      · rename_i hout
        by_contra hc
        exact hout (hr.closed.mem_of_live ((hm.exact c).mp hc))

theorem collectsExactly_of_room (hr : Ready h g) (hroom : markPhaseFills alloc h g = false) :
    CollectsExactly alloc h g := by
  have hmark : Turns _ g.all (markPhase alloc h g.steps g) _ := markPhase_turns hr
  rw [hroom] at hmark
  obtain ⟨g₁, heq, hm⟩ := hmark
  refine ⟨_, _, fun fuel hfuel => ?_, hm.collected hr⟩
  unfold ugcCollect
  rw [if_neg (by rw [hr.idle]; decide), markPhase_mono hfuel heq]
  rfl

theorem not_collectsExactly_of_fills (hr : Ready h g) (hf : markPhaseFills alloc h g = true) :
    2 ^ 31 < g.all.length ∧ ¬ CollectsExactly alloc h g := by
  have hmark : Turns _ g.all (markPhase alloc h g.steps g) _ := markPhase_turns hr
  rw [hf] at hmark
  refine ⟨hmark.1, ?_⟩
  rintro ⟨g', events, hrun, hcol⟩
  have hok := hrun g.steps (Nat.le_refl _)
  unfold ugcCollect at hok
  rw [if_neg (by rw [hr.idle]; decide)] at hok
  obtain ⟨g₁, hphase, ⟨⟩⟩ := Lib.except_bind_eq_ok.mp hok
  -- a collected heap has an empty stack
  exact (hmark.2 g₁ hphase).2 hcol.ready.empty

theorem collectsExactly_of_le (hr : Ready h g) (hn : g.all.length ≤ 2 ^ 31) :
    CollectsExactly alloc h g := by
  refine collectsExactly_of_room hr (Bool.not_eq_true _ ▸ fun hf => ?_)
  have hgt := (not_collectsExactly_of_fills hr hf).1
  omega

/-- A heap is collected exactly unless its marking comes to a white cell with 2³¹ cells on the gray
stack. -/
theorem collectsExactly_iff (alloc : Nat → Bool) (h : CellGraph κ) (g : UGc κ) (hr : Ready h g) :
    CollectsExactly alloc h g ↔ markPhaseFills alloc h g = false := by
  refine ⟨fun hex => ?_, collectsExactly_of_room hr⟩
  rw [← Bool.not_eq_true]
  exact fun hf => (not_collectsExactly_of_fills hr hf).2 hex

/-! ## Past 2³¹ cells -/

theorem markAllFills_of_many {cs : List κ} (hnd : cs.Nodup)
    (hwhite : ∀ c ∈ cs, g.marked c = .white) (hkept : g.grayFreed = false) (hcap : Doubling 31 g.grayCap.toNat)
    (hfits : g.gray.length ≤ g.grayCap.toNat) (hmany : 2 ^ 31 < g.gray.length + cs.length) :
    markAllFills (fun _ => true) cs g = true := by
  induction cs generalizing g with
  | nil =>
    have hle := hcap.le
    rw [List.length_nil] at hmany
    omega
  | cons c cs ih =>
    obtain ⟨hnot, hnd⟩ := List.nodup_cons.mp hnd
    rw [List.length_cons] at hmany
    have hother : ∀ d ∈ cs, (g.paint c .gray).marked d = .white := by
      intro d hd
      have hdc : d ≠ c := by
        rintro rfl
        exact hnot hd
      rw [paint_of_ne g .gray hdc]
      exact hwhite d (.tail c hd)
    have hwhite := hwhite c (.head _)
    unfold markAllFills
    rw [decide_eq_true hwhite, Bool.true_and]
    by_cases htop : g.gray.length = 2 ^ 31
    · rw [decide_eq_true htop]
      rfl
    · have hle := hcap.le
      rw [decide_eq_false htop, Bool.false_or, after_eq_true]
      obtain ⟨g', heq, hp⟩ : Ends ((g.paint c .gray).pushGray (fun _ => true) c) _ :=
        pushGray_ends hkept hcap hfits (by show g.gray.length < _; omega)
      have hgray : g'.gray = c :: g.gray := hp.gray.elim And.left nofun
      refine ⟨g', ?_, ih hnd (hp.marked ▸ hother) (hp.kept.trans hkept) hp.cap hp.fits ?_⟩
      · unfold ugcMark
        rw [if_neg (by simpa using hwhite), heq]
      · rw [hgray, List.length_cons]
        omega

def manyRoots (n : Nat) : CellGraph Nat := ⟨List.range n, fun _ => [], fun _ => false, fun _ => 24⟩

def freshGc (n : Nat) : UGc Nat where
  all := List.range n
  marked _ := .white
  gray := []
  grayCap := 0
  grayFreed := false
  grayOverflow := false
  asked := 0
  inCollect := false
  collectRequested := false
  rawLive := 0
  bytesLive := 0
  bytesSince := 0
  paceBase := 0
  cellsLive := 0
  cycles := 0

theorem ready_freshGc {h : CellGraph Nat} {n : Nat} (hfixed : ∀ c ∈ h.fixed, c < n)
    (hchildren : ∀ c < n, ∀ d ∈ h.children c, d < n) : Ready h (freshGc n) where
  closed := by
    refine ⟨List.nodup_range, fun c hc => List.mem_range.mpr (hfixed c hc), ?_⟩
    intro c hc d hd
    exact List.mem_range.mpr (hchildren c (List.mem_range.mp hc) d hd)
  white _ := rfl
  empty := rfl
  kept := rfl
  cap := .inl rfl
  idle := rfl

theorem ready_manyRoots (n : Nat) : Ready (manyRoots n) (freshGc n) :=
  ready_freshGc (fun _ hc => List.mem_range.mp hc) fun _ _ _ hd => absurd hd List.not_mem_nil

/-- One cell too many. -/
theorem not_collectsExactly_manyRoots :
    Ready (manyRoots (2 ^ 31 + 1)) (freshGc (2 ^ 31 + 1)) ∧
      ¬ CollectsExactly (fun _ => true) (manyRoots (2 ^ 31 + 1)) (freshGc (2 ^ 31 + 1)) := by
  obtain ⟨n, hn⟩ : ∃ n, n = 2 ^ 31 + 1 := ⟨_, rfl⟩
  rw [← hn]
  have hfills : markPhaseFills (fun _ => true) (manyRoots n) (freshGc n) = true := by
    refine Bool.or_eq_true_iff.mpr (.inl ?_)
    refine markAllFills_of_many List.nodup_range (fun _ _ => rfl) rfl (.inl rfl) (Nat.le_refl _) ?_
    show 2 ^ 31 < 0 + (List.range n).length
    rw [List.length_range]
    omega
  exact ⟨ready_manyRoots n, (not_collectsExactly_of_fills (ready_manyRoots n) hfills).2⟩

def sixCells : CellGraph Nat where
  fixed := [0]
  children c := if c = 0 then [1, 1] else if c = 2 then [3, 0] else if c = 4 then [5] else
    if c = 5 then [4, 0] else []
  pinned c := c = 2
  size _ := 32

theorem collectsExactly_iff_sixCells :
    (ugcCollect (fun _ => false) sixCells 14 (freshGc 6)).toOption.map
        (fun r => (r.1.all, r.2, r.1.bytesLive)) =
      some ([0, 1, 2, 3], [.finalize 4, .free 4, .finalize 5, .free 5], 128) ∧
    CollectsExactly (fun _ => false) sixCells (freshGc 6) := by
  have hr : Ready sixCells (freshGc 6) := ready_freshGc (by decide) (by decide)
  exact ⟨by decide, (collectsExactly_iff _ sixCells (freshGc 6) hr).mpr (by decide)⟩

end UGc

end Urbi
