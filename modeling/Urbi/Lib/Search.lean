import Mathlib.Data.List.Basic
import Mathlib.Logic.Relation

/-!
# Depth-first search with a bounded stack

A search pops a node, skips it when it is marked, stops on a goal and otherwise marks it and pushes
its successors.  Where the stack never outgrows its bound it finds the first goal of the recursive
preorder.
-/

namespace Urbi.Lib

variable {fuel : Nat}

/-- On a goal, having given up for want of stack, or with nothing left; and every node marked,
latest first. -/
structure Search (α : Type*) where
  found : Option α
  overflowed : Bool
  searched : List α
  deriving DecidableEq

/-! ## Recursive preorder -/

section

variable {α : Type*} {succ : α → List α} {goal : α → Bool} {cap : Nat}

/-- Going through `nodes` in order, and through everything below a node before its next sibling,
meets `out` for the first time; what is in `seen` was met before. -/
inductive Preorder (succ : α → List α) : List α → List α → List α → Prop
  | nil {seen : List α} : Preorder succ seen [] []
  | skip {seen rest out : List α} {a : α} :
      a ∈ seen → Preorder succ seen rest out → Preorder succ seen (a :: rest) out
  | visit {seen rest below after : List α} {a : α} :
      a ∉ seen → Preorder succ (a :: seen) (succ a) below →
        Preorder succ (below.reverse ++ a :: seen) rest after →
        Preorder succ seen (a :: rest) (a :: (below ++ after))

namespace Preorder

variable {seen nodes out : List α}

theorem append {xs ys o₁ o₂ : List α} (h : Preorder succ seen xs o₁)
    (h' : Preorder succ (o₁.reverse ++ seen) ys o₂) : Preorder succ seen (xs ++ ys) (o₁ ++ o₂) := by
  induction h with
  | nil => exact h'
  | skip hm _ ih => exact .skip hm (ih h')
  | @visit seen rest below after a hm hbelow _ _ ih =>
    have hafter : Preorder succ (below.reverse ++ a :: seen) (rest ++ ys) (after ++ o₂) := by
      apply ih
      simpa using h'
    simpa using Preorder.visit hm hbelow hafter

theorem split {xs ys : List α} (h : Preorder succ seen (xs ++ ys) out) :
    ∃ o₁ o₂, out = o₁ ++ o₂ ∧ Preorder succ seen xs o₁ ∧
      Preorder succ (o₁.reverse ++ seen) ys o₂ := by
  generalize hl : xs ++ ys = l at h
  induction h generalizing xs with
  | nil =>
    rw [(List.append_eq_nil_iff.mp hl).1, (List.append_eq_nil_iff.mp hl).2]
    exact ⟨[], [], rfl, .nil, .nil⟩
  | @skip seen rest out a hm hrest ih =>
    cases xs with
    | nil =>
      rw [show ys = a :: rest from hl]
      exact ⟨[], out, rfl, .nil, .skip hm hrest⟩
    | cons x xs =>
      rw [(List.cons.inj hl).1]
      obtain ⟨o₁, o₂, hout, h₁, h₂⟩ := ih (List.cons.inj hl).2
      exact ⟨o₁, o₂, hout, .skip hm h₁, h₂⟩
  | @visit seen rest below after a hm hbelow hafter _ ih =>
    cases xs with
    | nil =>
      rw [show ys = a :: rest from hl]
      exact ⟨[], _, rfl, .nil, .visit hm hbelow hafter⟩
    | cons x xs =>
      rw [(List.cons.inj hl).1]
      obtain ⟨o₁, o₂, hout, h₁, h₂⟩ := ih (List.cons.inj hl).2
      refine ⟨a :: (below ++ o₁), o₂, by simp [hout], .visit hm hbelow h₁, ?_⟩
      simpa using h₂

theorem cons_iff {rest : List α} {a : α} (ha : a ∉ seen) : Preorder succ seen (a :: rest) out ↔
      ∃ out', out = a :: out' ∧ Preorder succ (a :: seen) (succ a ++ rest) out' := by
  constructor
  · intro h
    cases h with
    | skip hm _ => exact absurd hm ha
    | @visit _ _ below after _ _ hbelow hafter => exact ⟨below ++ after, rfl, hbelow.append hafter⟩
  · rintro ⟨out', rfl, h⟩
    obtain ⟨below, after, rfl, hbelow, hafter⟩ := h.split
    exact .visit ha hbelow hafter

theorem cons_iff_of_mem {rest : List α} {a : α} (ha : a ∈ seen) :
    Preorder succ seen (a :: rest) out ↔ Preorder succ seen rest out := by
  constructor
  · intro h
    cases h with
    | skip _ h => exact h
    | visit hm _ _ => exact absurd ha hm
  · exact .skip ha

theorem nodup (h : Preorder succ seen nodes out) : out.Nodup ∧ ∀ a ∈ out, a ∉ seen := by
  induction h with
  | nil => simp
  | skip _ _ ih => exact ih
  | @visit seen rest below after a hm _ _ ihb iha =>
    have hbelow : ∀ b ∈ below, b ≠ a ∧ b ∉ seen := fun b hb => by simpa using ihb.2 b hb
    have hafter : ∀ b ∈ after, b ∉ below ∧ b ≠ a ∧ b ∉ seen := fun b hb => by
      simpa using iha.2 b hb
    constructor
    · rw [List.nodup_cons, List.nodup_append]
      refine ⟨?_, ihb.1, iha.1, fun b hb c hc hbc => (hafter c hc).1 (hbc ▸ hb)⟩
      rw [List.mem_append]
      rintro (ha | ha)
      · exact (hbelow a ha).1 rfl
      · exact (hafter a ha).2.1 rfl
    · intro b hb
      rcases List.mem_cons.mp hb with rfl | hb
      · exact hm
      · rcases List.mem_append.mp hb with hb | hb
        · exact (hbelow b hb).2
        · exact (hafter b hb).2.2

theorem closed (h : Preorder succ seen nodes out) :
    (∀ a ∈ nodes, a ∈ seen ∨ a ∈ out) ∧ ∀ a ∈ out, ∀ b ∈ succ a, b ∈ seen ∨ b ∈ out := by
  induction h with
  | nil => simp
  | @skip seen rest out a hm _ ih =>
    refine ⟨fun b hb => ?_, ih.2⟩
    rcases List.mem_cons.mp hb with rfl | hb
    · exact .inl hm
    · exact ih.1 b hb
  | @visit seen rest below after a hm _ _ ihb iha =>
    have hout : ∀ b, b ∈ a :: (below ++ after) ↔ b = a ∨ b ∈ below ∨ b ∈ after := by simp
    simp only [List.mem_append, List.mem_reverse, List.mem_cons] at ihb iha
    simp only [hout]
    constructor
    · intro b hb
      rcases List.mem_cons.mp hb with rfl | hb
      · exact .inr (.inl rfl)
      · have := iha.1 b hb
        tauto
    · rintro b (rfl | hb | hb) c hc
      · have := ihb.1 c hc
        tauto
      · have := ihb.2 b hb c hc
        tauto
      · have := iha.2 b hb c hc
        tauto

theorem reached (h : Preorder succ seen nodes out) :
    ∀ x ∈ out, ∃ a ∈ nodes, Relation.ReflTransGen (fun a b => b ∈ succ a) a x := by
  induction h with
  | nil => simp
  | skip _ _ ih =>
    intro x hx
    obtain ⟨a, ha, hax⟩ := ih x hx
    exact ⟨a, List.mem_cons_of_mem _ ha, hax⟩
  | @visit seen rest below after a _ _ _ ihb iha =>
    intro x hx
    rcases List.mem_cons.mp hx with rfl | hx
    · exact ⟨x, List.mem_cons_self, .refl⟩
    · rcases List.mem_append.mp hx with hx | hx
      · obtain ⟨b, hb, hbx⟩ := ihb x hx
        exact ⟨a, List.mem_cons_self, .head hb hbx⟩
      · obtain ⟨b, hb, hbx⟩ := iha x hx
        exact ⟨b, List.mem_cons_of_mem _ hb, hbx⟩

theorem mem_iff {a x : α} (h : Preorder succ [] [a] out) :
    x ∈ out ↔ Relation.ReflTransGen (fun a b => b ∈ succ a) a x := by
  constructor
  · intro hx
    obtain ⟨b, hb, hbx⟩ := h.reached x hx
    rwa [List.mem_singleton.mp hb] at hbx
  · intro hx
    induction hx with
    | refl => exact (h.closed.1 a List.mem_cons_self).resolve_left List.not_mem_nil
    | tail _ hc ih => exact (h.closed.2 _ ih _ hc).resolve_left List.not_mem_nil

theorem unique {out' : List α} (h : Preorder succ seen nodes out)
    (h' : Preorder succ seen nodes out') : out' = out := by
  induction h generalizing out' with
  | nil => cases h'; rfl
  | skip hm _ ih => exact ih ((cons_iff_of_mem hm).mp h')
  | visit hm _ _ ihb iha =>
    cases h' with
    | skip hm' _ => exact absurd hm' hm
    | visit _ hbelow hafter =>
      rw [ihb hbelow] at hafter ⊢
      rw [iha hafter]

/-- Nodes that lead only to one another can be left out of a graph. -/
theorem filter {keep : α → Bool} (hleft : ∀ a, keep a = false → ∀ b ∈ succ a, keep b = false)
    (h : Preorder succ seen nodes out) :
    Preorder (fun a => (succ a).filter keep) (seen.filter keep) (nodes.filter keep)
      (out.filter keep) := by
  induction h with
  | nil => exact .nil
  | @skip seen rest out a hm _ ih =>
    by_cases ha : keep a = true
    · rw [List.filter_cons_of_pos ha]
      exact .skip (List.mem_filter.mpr ⟨hm, ha⟩) ih
    · rwa [List.filter_cons_of_neg ha]
  | @visit seen rest below after a hm hbelow _ ihb iha =>
    by_cases ha : keep a = true
    · rw [List.filter_cons_of_pos ha, List.filter_cons_of_pos ha, List.filter_append]
      rw [List.filter_cons_of_pos ha] at ihb
      rw [List.filter_append, List.filter_reverse, List.filter_cons_of_pos ha] at iha
      refine .visit (fun hmem => hm (List.mem_filter.mp hmem).1) ihb iha
    · -- nothing below `a` is kept either
      have hnone : ∀ b ∈ below, ¬ keep b = true := by
        intro b hb
        obtain ⟨c, hc, hcb⟩ := hbelow.reached b hb
        have hdropped : keep b = false := by
          clear hb
          induction hcb with
          | refl => exact hleft a (by simpa using ha) c hc
          | tail _ hstep ih => exact hleft _ ih _ hstep
        simp [hdropped]
      have hempty : below.filter keep = [] := List.filter_eq_nil_iff.mpr hnone
      rw [List.filter_append, List.filter_reverse, hempty, List.filter_cons_of_neg ha] at iha
      rw [List.filter_cons_of_neg ha, List.filter_cons_of_neg ha, List.filter_append, hempty]
      exact iha

end Preorder

inductive Pop (succ : α → List α) (goal : α → Bool) : List α × List α → List α × List α → Prop
  | skip {marked rest : List α} {a : α} :
      a ∈ marked → Pop succ goal (marked, a :: rest) (marked, rest)
  | push {marked rest : List α} {a : α} :
      a ∉ marked → goal a = false → Pop succ goal (marked, a :: rest) (a :: marked, succ a ++ rest)

def Fits (succ : α → List α) (goal : α → Bool) (cap : Nat) (marked stack : List α) : Prop :=
  ∀ c, Relation.ReflTransGen (Pop succ goal) (marked, stack) c → c.2.length ≤ cap

theorem Fits.step {marked stack : List α} {c : List α × List α} (h : Fits succ goal cap marked stack)
    (hpop : Pop succ goal (marked, stack) c) : Fits succ goal cap c.1 c.2 :=
  fun d hd => h d (.head hpop hd)

inductive Thin (p : α) : List α → List α → Prop
  | nil : Thin p [] []
  | cons {a : α} {l l' : List α} : Thin p l l' → Thin p (a :: l) (a :: l')
  | drop {l l' : List α} : Thin p l l' → Thin p (p :: l) l'

namespace Thin

variable {p : α} {l l' : List α}

theorem refl : ∀ l : List α, Thin p l l
  | [] => .nil
  | _ :: l => .cons (refl l)

theorem length_le (h : Thin p l l') : l'.length ≤ l.length := by
  induction h with
  | nil => exact Nat.le_refl _
  | cons _ ih => simpa using ih
  | drop _ ih => simp; omega

theorem append {m m' : List α} (h : Thin p l l') (hm : Thin p m m') :
    Thin p (l ++ m) (l' ++ m') := by
  induction h with
  | nil => exact hm
  | cons _ ih => exact .cons ih
  | drop _ ih => exact .drop ih

end Thin

end

/-! ## The search -/

section

variable {α : Type*} [DecidableEq α] (succ : α → List α) (goal : α → Bool) (cap : Nat)

def search : Nat → List α → List α → Search α
  | _, marked, [] => ⟨none, false, marked⟩
  | 0, marked, _ :: _ => ⟨none, false, marked⟩
  | fuel + 1, marked, a :: rest =>
    if a ∈ marked then search fuel marked rest
    else if goal a then ⟨some a, false, a :: marked⟩
    else if rest.length + (succ a).length ≤ cap then
      search fuel (a :: marked) (succ a ++ rest)
    else ⟨none, true, a :: marked⟩

variable {succ goal cap} {marked stack nodes : List α} {a x : α}

theorem search_marked : marked ⊆ (search succ goal cap fuel marked stack).searched := by
  fun_induction search succ goal cap fuel marked stack with
  | case1 | case2 => exact List.Subset.refl _
  | case3 _ _ _ _ _ ih => exact ih
  | case4 | case6 => exact List.subset_cons_self _ _
  | case5 _ _ _ _ _ _ _ ih => exact List.Subset.trans (List.subset_cons_self _ _) ih

theorem search_congr_succ {succ' : α → List α} {goal' : α → Bool}
    (h : ∀ a ∈ (search succ goal cap fuel marked stack).searched,
      goal' a = goal a ∧ (goal a = false → succ' a = succ a)) :
    search succ' goal' cap fuel marked stack = search succ goal cap fuel marked stack := by
  fun_induction search succ goal cap fuel marked stack with
  | case1 | case2 => rw [search]
  | case3 fuel marked a rest hm ih => rw [search, if_pos hm, ih h]
  | case4 fuel marked a rest hm hg =>
    rw [search, if_neg hm, if_pos ((h a List.mem_cons_self).1.trans hg)]
  | case5 fuel marked a rest hm hg hfit ih =>
    obtain ⟨ha, hsucc⟩ := h a (search_marked List.mem_cons_self)
    rw [search, if_neg hm, if_neg (ha ▸ hg), hsucc (by simpa using hg), if_pos hfit, ih h]
  | case6 fuel marked a rest hm hg hfit =>
    obtain ⟨ha, hsucc⟩ := h a List.mem_cons_self
    rw [search, if_neg hm, if_neg (ha ▸ hg), hsucc (by simpa using hg), if_neg hfit]

/-- A node the search marks becomes its answer once it satisfies the goal. -/
theorem search_found_of_goal {goal' : α → Bool}
    (hx : x ∈ (search succ goal cap fuel marked stack).searched) (hm : x ∉ marked)
    (hgoal : goal' x = true) (hother : ∀ a, a ≠ x → goal' a = goal a) :
    (search succ goal' cap fuel marked stack).found = some x := by
  fun_induction search succ goal cap fuel marked stack with
  | case1 | case2 => exact absurd hx hm
  | case3 fuel marked a rest ha ih =>
    rw [search, if_pos ha]
    exact ih hx hm
  | case4 fuel marked a rest ha hg | case6 fuel marked a rest ha hg hfit =>
    have hxa : x = a := (List.mem_cons.mp hx).resolve_right hm
    rw [search, if_neg ha, ← hxa, if_pos hgoal]
  | case5 fuel marked a rest ha hg hfit ih =>
    rw [search, if_neg ha]
    by_cases hxa : a = x
    · rw [hxa, if_pos hgoal]
    · rw [if_neg (hother a hxa ▸ hg), if_pos hfit]
      exact ih hx (fun h => (List.mem_cons.mp h).elim (fun h => hxa h.symm) hm)

theorem search_found (h : (search succ goal cap fuel marked stack).found = some x) :
    goal x = true ∧ x ∈ (search succ goal cap fuel marked stack).searched := by
  fun_induction search succ goal cap fuel marked stack with
  | case1 | case2 | case6 => cases h
  | case3 _ _ _ _ _ ih | case5 _ _ _ _ _ _ _ ih => exact ih h
  | case4 fuel marked a rest ha hg =>
    cases h
    exact ⟨hg, List.mem_cons_self⟩

theorem searched_of_closed {S : α → Prop} (hsucc : ∀ a, S a → ∀ b ∈ succ a, S b)
    (hmarked : ∀ a ∈ marked, S a) (hstack : ∀ a ∈ stack, S a) :
    ∀ a ∈ (search succ goal cap fuel marked stack).searched, S a := by
  have hcons : ∀ {a : α} {marked : List α}, S a → (∀ b ∈ marked, S b) → ∀ b ∈ a :: marked, S b :=
    fun ha hm b hb => (List.mem_cons.mp hb).elim (fun h => h ▸ ha) (hm b)
  fun_induction search succ goal cap fuel marked stack with
  | case1 | case2 => exact hmarked
  | case3 _ _ _ _ _ ih => exact ih hmarked fun a ha => hstack a (List.mem_cons_of_mem _ ha)
  | case4 | case6 => exact hcons (hstack _ List.mem_cons_self) hmarked
  | case5 fuel marked a rest _ _ _ ih =>
    have ha : S a := hstack a List.mem_cons_self
    apply ih (hcons ha hmarked)
    intro b hb
    rcases List.mem_append.mp hb with hb | hb
    · exact hsucc a ha b hb
    · exact hstack b (List.mem_cons_of_mem _ hb)

/-! ## The number of pops -/

def unpushed (succ : α → List α) : List α → List α → Nat
  | [], _ => 0
  | a :: nodes, marked =>
    (if a ∈ marked then 0 else (succ a).length) + unpushed succ nodes marked

theorem unpushed_cons_le : unpushed succ nodes (a :: marked) ≤ unpushed succ nodes marked := by
  induction nodes with
  | nil => exact Nat.le_refl _
  | cons b nodes ih =>
    simp only [unpushed]
    by_cases hb : b ∈ marked
    · rw [if_pos hb, if_pos (List.mem_cons_of_mem _ hb)]
      omega
    · rw [if_neg hb]
      split <;> omega

theorem unpushed_cons (ha : a ∉ marked) (hmem : a ∈ nodes) :
    unpushed succ nodes (a :: marked) + (succ a).length ≤ unpushed succ nodes marked := by
  induction nodes with
  | nil => cases hmem
  | cons b nodes ih =>
    simp only [unpushed]
    by_cases hba : b = a
    · have hle : unpushed succ nodes (a :: marked) ≤ unpushed succ nodes marked :=
        unpushed_cons_le
      rw [hba, if_pos List.mem_cons_self, if_neg ha]
      omega
    · have hrest := ih ((List.mem_cons.mp hmem).resolve_left fun h => hba h.symm)
      have hiff : b ∈ a :: marked ↔ b ∈ marked := by simp [hba]
      simp only [hiff]
      omega

theorem unpushed_push (hleaf : ∀ a, a ∉ nodes → succ a = []) (ha : a ∉ marked) :
    unpushed succ nodes (a :: marked) + (succ a).length ≤ unpushed succ nodes marked := by
  by_cases hmem : a ∈ nodes
  · exact unpushed_cons ha hmem
  · rw [hleaf a hmem]
    exact unpushed_cons_le

theorem search_add_fuel (hleaf : ∀ a, a ∉ nodes → succ a = [])
    (hfuel : stack.length + unpushed succ nodes marked ≤ fuel) (more : Nat) :
    search succ goal cap (fuel + more) marked stack = search succ goal cap fuel marked stack := by
  fun_induction search succ goal cap fuel marked stack with
  | case1 => rw [search]
  | case2 => simp at hfuel
  | case3 fuel marked a rest hm ih =>
    rw [Nat.succ_add_eq_add_succ, Nat.add_succ, search, if_pos hm]
    exact ih (by simp at hfuel; omega)
  | case4 fuel marked a rest hm hg =>
    rw [Nat.succ_add_eq_add_succ, Nat.add_succ, search, if_neg hm, if_pos hg]
  | case5 fuel marked a rest hm hg hfit ih =>
    rw [Nat.succ_add_eq_add_succ, Nat.add_succ, search, if_neg hm, if_neg hg, if_pos hfit]
    apply ih
    have hpaid : unpushed succ nodes (a :: marked) + (succ a).length ≤ unpushed succ nodes marked :=
      unpushed_push hleaf hm
    simp at hfuel ⊢
    omega
  | case6 fuel marked a rest hm hg hfit =>
    rw [Nat.succ_add_eq_add_succ, Nat.add_succ, search, if_neg hm, if_neg hg, if_neg hfit]

theorem Preorder.exists_of_leaf {all : List α} (hleaf : ∀ a, a ∉ all → succ a = [])
    (seen stack : List α) : ∃ out, Preorder succ seen stack out := by
  -- by the number of pops it takes, as for the search
  generalize hfuel : stack.length + unpushed succ all seen = fuel
  induction fuel using Nat.strongRecOn generalizing seen stack with
  | _ fuel ih =>
    cases stack with
    | nil => exact ⟨[], .nil⟩
    | cons a rest =>
      by_cases ha : a ∈ seen
      · obtain ⟨out, hout⟩ := ih _ (by simp at hfuel; omega) seen rest rfl
        exact ⟨out, .skip ha hout⟩
      · have hpaid : unpushed succ all (a :: seen) + (succ a).length ≤ unpushed succ all seen :=
          unpushed_push hleaf ha
        obtain ⟨out, hout⟩ := ih _ (by simp at hfuel ⊢; omega) (a :: seen) (succ a ++ rest) rfl
        exact ⟨a :: out, (Preorder.cons_iff ha).mpr ⟨out, rfl, hout⟩⟩

theorem search_eq_find {all : List α} (hleaf : ∀ a, a ∉ all → succ a = [])
    {out : List α} (hfits : Fits succ goal cap marked stack)
    (hfuel : stack.length + unpushed succ all marked ≤ fuel)
    (hpre : Preorder succ marked stack out) :
    (search succ goal cap fuel marked stack).found = out.find? goal := by
  fun_induction search succ goal cap fuel marked stack generalizing out with
  | case1 =>
    cases hpre
    rfl
  | case2 => simp at hfuel
  | case3 fuel marked a rest hm ih =>
    apply ih (hfits.step (.skip hm)) (by simp at hfuel; omega)
    exact (Preorder.cons_iff_of_mem hm).mp hpre
  | case4 fuel marked a rest hm hg =>
    obtain ⟨out', rfl, -⟩ := (Preorder.cons_iff hm).mp hpre
    rw [List.find?_cons_of_pos hg]
  | case5 fuel marked a rest hm hg hfit ih =>
    obtain ⟨out', rfl, hout⟩ := (Preorder.cons_iff hm).mp hpre
    rw [List.find?_cons_of_neg hg]
    apply ih (hfits.step (.push hm (by simpa using hg))) _ hout
    have hpaid : unpushed succ all (a :: marked) + (succ a).length ≤ unpushed succ all marked :=
      unpushed_push hleaf hm
    simp at hfuel ⊢
    omega
  | case6 fuel marked a rest hm hg hfit =>
    -- this push would be a stack of more than `cap` nodes
    have hle := hfits _ (.single (.push hm (by simpa using hg)))
    simp at hle hfit
    omega

theorem fits_of_unpushed {all : List α} (hleaf : ∀ a, a ∉ all → succ a = [])
    (h : stack.length + unpushed succ all marked ≤ cap) : Fits succ goal cap marked stack := by
  intro c hc
  have hroom : c.2.length + unpushed succ all c.1 ≤ cap := by
    induction hc with
    | refl => exact h
    | tail _ hpop ih =>
      cases hpop with
      | skip _ => simp at ih ⊢; omega
      | push hm _ =>
        have hpaid := unpushed_push hleaf hm
        simp at ih ⊢
        omega
  omega

theorem Thin.erase {p : α} : ∀ l : List α, Thin p l (l.erase p)
  | [] => .nil
  | a :: l => by
    by_cases ha : a = p
    · rw [ha, List.erase_cons_head]
      exact .drop (.refl l)
    · rw [List.erase_cons_tail (by simpa using ha)]
      exact .cons (Thin.erase l)

theorem search_thin {all : List α} (hleaf : ∀ a, a ∉ all → succ a = []) {succ' : α → List α}
    {p : α} (hsucc : ∀ a, Thin p (succ a) (succ' a)) {fuel' : Nat} {stack' : List α}
    (hstack : Thin p stack stack') (hfuel : stack.length + unpushed succ all marked ≤ fuel)
    (hle : fuel ≤ fuel') (hover : (search succ goal cap fuel marked stack).overflowed = false)
    (hp : p ∈ (search succ goal cap fuel marked stack).searched → p ∈ marked) :
    (search succ' goal cap fuel' marked stack').found =
      (search succ goal cap fuel marked stack).found := by
  fun_induction search succ goal cap fuel marked stack generalizing stack' fuel' with
  | case1 =>
    cases hstack
    rw [search]
  | case2 => simp at hfuel
  | case3 fuel marked a rest hm ih =>
    have hrest : rest.length + unpushed succ all marked ≤ fuel := by simp at hfuel; omega
    cases hstack with
    | cons hthin =>
      obtain ⟨more, rfl⟩ := Nat.exists_eq_add_of_le' hle
      rw [Nat.add_succ, search, if_pos hm]
      exact ih hthin hrest (by omega) hover hp
    | drop hthin => exact ih hthin hrest (by omega) hover hp
  | case4 fuel marked a rest hm hg =>
    cases hstack with
    | cons _ =>
      obtain ⟨more, rfl⟩ := Nat.exists_eq_add_of_le' hle
      rw [Nat.add_succ, search, if_neg hm, if_pos hg]
    | drop _ => exact absurd (hp List.mem_cons_self) hm
  | case5 fuel marked a rest hm hg hfit ih =>
    cases hstack with
    | @cons _ _ rest' hthin =>
      obtain ⟨more, rfl⟩ := Nat.exists_eq_add_of_le' hle
      have hroom : rest'.length + (succ' a).length ≤ cap := by
        have := hthin.length_le
        have := (hsucc a).length_le
        omega
      rw [Nat.add_succ, search, if_neg hm, if_neg hg, if_pos hroom]
      apply ih ((hsucc a).append hthin) _ (by omega) hover
      · exact fun hmem => List.mem_cons_of_mem _ (hp hmem)
      · have hpaid := unpushed_push hleaf hm
        simp at hfuel ⊢
        omega
    | drop _ => exact absurd (hp (search_marked List.mem_cons_self)) hm
  | case6 => cases hover

end

end Urbi.Lib
