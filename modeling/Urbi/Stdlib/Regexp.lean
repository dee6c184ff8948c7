import Mathlib.Data.List.Infix
import Mathlib.Data.List.TakeWhile
import Mathlib.Data.UInt
import Mathlib.Tactic.Common

/-!
# Regular expressions

The backtracking matcher of `stdlib/regexp.c`.  Steps are counted down over a whole search and depth
along the calls.  The language of a pattern is stated over the atoms it is cut into.
-/

namespace Urbi.Stdlib.Regexp

abbrev Text := List UInt8

/-! ## The matcher -/

def afterAtom : Text → Text
  | [] => []
  | c :: cs =>
    if c = 91 then
      let cs := if cs.head? = some 94 then cs.tail else cs
      let cs := if cs.head? = some 93 then cs.tail else cs
      (cs.dropWhile (· ≠ 93)).tail
    else cs

def reAtomLen (re : Text) : Nat := re.length - (afterAtom re).length

def hits (ch : UInt8) : Text → Bool
  | lo :: 45 :: hi :: cs => (lo ≤ ch && ch ≤ hi) || hits ch cs
  | c :: cs => c == ch || hits ch cs
  | [] => false

def reAtomMatches (atom : Text) (ch : UInt8) : Bool :=
  match atom with
  | [] => false
  | c :: cs =>
    if c = 91 then
      let cs := if atom.getLast? = some 93 then cs.dropLast else cs
      if cs.head? = some 94 then !hits ch cs.tail else hits ch cs
    else c == 46 || c == ch

inductive Quantifier where
  | once
  | star
  | plus
  | opt
  deriving DecidableEq

structure Item where
  atom : Text
  quant : Quantifier

def nextItem (re : Text) : Item × Text :=
  let atom := re.take (reAtomLen re)
  let rest := re.drop (reAtomLen re)
  match rest.head? with
  | some 42 => (⟨atom, .star⟩, rest.tail)
  | some 43 => (⟨atom, .plus⟩, rest.tail)
  | some 63 => (⟨atom, .opt⟩, rest.tail)
  | _ => (⟨atom, .once⟩, rest)

inductive Result where
  | matched
  | unmatched
  -- `RE_MATCH_BUDGET`
  | budget
  deriving DecidableEq

def orElse (r : Result × Nat) (next : Nat → Result × Nat) : Result × Nat :=
  match r with
  | (.unmatched, steps) => next steps
  | r => r

def backtrack (here : Text → Nat → Result × Nat) (s : Text) (min : Nat) : Nat → Nat → Result × Nat
  | 0, steps => if 0 < min then (.unmatched, steps) else here s steps
  | k + 1, steps =>
    if k + 1 < min then (.unmatched, steps)
    else orElse (here (s.drop (k + 1)) steps) (backtrack here s min k)

def reMatchRepeat (here : Text → Nat → Result × Nat) (atom s : Text) (min steps : Nat) :
    Result × Nat :=
  backtrack here s min (s.takeWhile (reAtomMatches atom)).length steps

def matchOnce (here : Text → Nat → Result × Nat) (atom s : Text) (steps : Nat) : Result × Nat :=
  match s with
  | c :: s => if reAtomMatches atom c then here s steps else (.unmatched, steps)
  | [] => (.unmatched, steps)

/-- The result and the steps left. -/
def reMatchHere : Nat → Text → Text → Nat → Result × Nat
  | 0, _, _, steps => (.budget, steps)
  | _ + 1, _, _, 0 => (.budget, 0)
  | depth + 1, re, s, steps + 1 =>
    if re = [] then (.matched, steps)
    else if re = [36] then (if s = [] then .matched else .unmatched, steps)
    else
      let (i, rest) := nextItem re
      match i.quant with
      | .star => reMatchRepeat (reMatchHere depth rest) i.atom s 0 steps
      | .plus => reMatchRepeat (reMatchHere depth rest) i.atom s 1 steps
      | .opt => orElse (matchOnce (reMatchHere depth rest) i.atom s steps) (reMatchHere depth rest s)
      | .once => matchOnce (reMatchHere depth rest) i.atom s steps

def reBudgetSteps : Nat := 1000000

def reBudgetDepth : Nat := 128

def searchFrom (re : Text) : Text → Nat → Result × Nat
  | [], steps => reMatchHere reBudgetDepth re [] steps
  | c :: s, steps =>
    orElse (reMatchHere reBudgetDepth re (c :: s) steps) (searchFrom re s)

def urbiRegexpSearch (re s : Text) : Result × Nat :=
  if re.head? = some 94 then reMatchHere reBudgetDepth re.tail s reBudgetSteps
  else searchFrom re s reBudgetSteps

/-! ## The language -/

def ranges : Text → List (UInt8 × UInt8)
  | lo :: 45 :: hi :: cs => (lo, hi) :: ranges cs
  | c :: cs => (c, c) :: ranges cs
  | [] => []

def InRanges (cs : Text) (ch : UInt8) : Prop := ∃ r ∈ ranges cs, r.1 ≤ ch ∧ ch ≤ r.2

def Accepts : Text → UInt8 → Prop
  | [], _ => False
  | c :: cs, ch =>
    if c = 91 then
      if cs.head? = some 94 then ¬ InRanges cs.dropLast.tail ch else InRanges cs.dropLast ch
    else c = 46 ∨ c = ch

def closed (atom : Text) : Bool :=
  atom.head? ≠ some 91 ||
    let cs := if atom.tail.head? = some 94 then atom.tail.tail else atom.tail
    2 ≤ cs.length && cs.getLast? = some 93

def Quantifier.Admits : Quantifier → Nat → Prop
  | .once, n => n = 1
  | .star, _ => True
  | .plus, n => 1 ≤ n
  | .opt, n => n ≤ 1

def Item.Reads (i : Item) (w : Text) : Prop := (∀ c ∈ w, Accepts i.atom c) ∧ i.quant.Admits w.length

inductive Reads : List Item → Text → Prop
  | nil : Reads [] []
  | cons {i is w w'} : i.Reads w → Reads is w' → Reads (i :: is) (w ++ w')

def cut : Nat → Text → List Item
  | 0, _ => []
  | n + 1, re =>
    if re = [] ∨ re = [36] then [] else (nextItem re).1 :: cut n (nextItem re).2

def body (re : Text) : Text := if re.head? = some 94 then re.tail else re

def items (re : Text) : List Item := cut (body re).length (body re)

def Found (re text : Text) : Prop :=
  ∃ pre w post, text = pre ++ (w ++ post) ∧ Reads (items re) w ∧
    (re.head? = some 94 → pre = []) ∧ (re.getLast? = some 36 → post = [])

/-! ## Atoms -/

variable {re rest s atom : Text} {ch : UInt8} {i : Item} {is : List Item}

theorem hits_iff (cs : Text) : hits ch cs = true ↔ InRanges cs ch := by
  unfold InRanges
  fun_induction hits ch cs with
  | case1 lo hi cs ih => simp [ranges, ih]
  | case2 c cs hne ih =>
    have heq : c = ch ↔ c ≤ ch ∧ ch ≤ c :=
      ⟨fun h => h ▸ ⟨UInt8.le_refl _, UInt8.le_refl _⟩, fun h => UInt8.le_antisymm h.1 h.2⟩
    rw [ranges.eq_2 c cs hne]
    simp [ih, heq]
  | case3 => simp [ranges]

theorem closed_class {cs : Text} (h : closed (91 :: cs) = true) :
    ∃ a b cs', cs = a :: b :: cs' ∧ (b :: cs').getLast? = some 93 := by
  rcases cs with _ | ⟨a, _ | ⟨b, cs⟩⟩
  · simp [closed] at h
  · by_cases ha : a = 94 <;> simp [closed, ha] at h
  · refine ⟨a, b, cs, rfl, ?_⟩
    by_cases ha : a = 94
    · have h' : 1 ≤ cs.length ∧ (b :: cs).getLast? = some 93 := by simpa [closed, ha] using h
      exact h'.2
    · simpa [closed, ha] using h

theorem reAtomMatches_iff (h : closed atom = true) :
    reAtomMatches atom ch = true ↔ Accepts atom ch := by
  cases atom with
  | nil => simp [reAtomMatches, Accepts]
  | cons c cs =>
    unfold reAtomMatches Accepts
    by_cases hc : c = 91
    · subst hc
      obtain ⟨a, b, cs, rfl, hlast⟩ := closed_class h
      simp [List.getLast?_cons_cons, hlast, hits_iff, ← Bool.not_eq_true]
    · simp [hc]

theorem afterAtom_suffix (c : UInt8) (cs : Text) : afterAtom (c :: cs) <:+ cs := by
  have htail : ∀ (b : UInt8) (cs : Text), (if cs.head? = some b then cs.tail else cs) <:+ cs := by
    intro b cs
    split
    · exact List.tail_suffix cs
    · exact List.suffix_rfl
  rw [afterAtom]
  split
  · exact (List.tail_suffix _).trans ((List.dropWhile_suffix _).trans ((htail _ _).trans (htail _ _)))
  · exact List.suffix_rfl

theorem drop_reAtomLen (re : Text) : re.drop (reAtomLen re) = afterAtom re := by
  cases re with
  | nil => rfl
  | cons c cs =>
    exact (List.suffix_iff_eq_drop.mp ((afterAtom_suffix c cs).trans (List.suffix_cons c cs))).symm

theorem nextItem_length (h : re ≠ []) : (nextItem re).2.length < re.length := by
  obtain ⟨c, cs, rfl⟩ := List.exists_cons_of_ne_nil h
  have hle := (afterAtom_suffix c cs).length_le
  unfold nextItem
  rw [drop_reAtomLen]
  dsimp only
  split <;> simp only [List.length_tail, List.length_cons] <;> omega

theorem nextItem_getLast? (h : re ≠ []) (hne : re ≠ [36]) (hc : closed (nextItem re).1.atom = true) :
    (nextItem re).2.getLast? = some 36 ↔ re.getLast? = some 36 := by
  have hre : re.take (reAtomLen re) ++ afterAtom re = re := by
    rw [← drop_reAtomLen, List.take_append_drop]
  unfold nextItem at hc ⊢
  rw [drop_reAtomLen] at hc ⊢
  cases hA : afterAtom re with
  | nil =>
    rw [hA, List.append_nil] at hre
    rw [hA, hre] at hc
    have hc : closed re = true := hc
    refine iff_of_false nofun fun hlast => ?_
    obtain ⟨c, cs, rfl⟩ := List.exists_cons_of_ne_nil h
    by_cases hb : c = 91
    · subst hb
      obtain ⟨a, b, cs, rfl, hbracket⟩ := closed_class hc
      rw [List.getLast?_cons_cons, List.getLast?_cons_cons, hbracket] at hlast
      cases hlast
    · rw [afterAtom, if_neg hb] at hA
      subst hA
      cases hlast
      exact hne rfl
  | cons x A =>
    rw [hA] at hre
    have hlast : re.getLast? = (x :: A).getLast? := by
      rw [← hre, List.getLast?_append, List.getLast?_cons, Option.some_or]
    rw [hlast]
    have hquant : ∀ b : UInt8, b ≠ 36 → (A.getLast? = some 36 ↔ (b :: A).getLast? = some 36) := by
      intro b hb
      cases A <;> simp [hb]
    dsimp only [List.head?_cons]
    split
    · rename_i hx; cases hx; exact hquant 42 (by decide)
    · rename_i hx; cases hx; exact hquant 43 (by decide)
    · rename_i hx; cases hx; exact hquant 63 (by decide)
    · exact Iff.rfl

/-! ## Searching -/

def Here (is : List Item) (dollar : Prop) (s : Text) : Prop :=
  ∃ w t, s = w ++ t ∧ Reads is w ∧ (dollar → t = [])

theorem here_cons {dollar : Prop} (hc : closed i.atom = true) :
    Here (i :: is) dollar s ↔ ∃ j ≤ (s.takeWhile (reAtomMatches i.atom)).length,
      i.quant.Admits j ∧ Here is dollar (s.drop j) := by
  constructor
  · rintro ⟨_, t, rfl, hr, ht⟩
    cases hr with
    | @cons _ _ w w' hw hr =>
      have hall : ∀ c ∈ w, reAtomMatches i.atom c = true :=
        fun c hmem => (reAtomMatches_iff hc).mpr (hw.1 c hmem)
      refine ⟨w.length, ?_, hw.2, w', t, ?_, hr, ht⟩
      · rw [List.append_assoc, List.takeWhile_append_of_pos hall, List.length_append]
        exact Nat.le_add_right _ _
      · rw [List.append_assoc, List.drop_left]
  · rintro ⟨j, hj, hadm, w, t, hs, hw, ht⟩
    have htake : s.take j = (s.takeWhile (reAtomMatches i.atom)).take j := by
      conv_lhs => rw [← List.takeWhile_append_dropWhile (p := reAtomMatches i.atom) (l := s)]
      exact List.take_append_of_le_length hj
    refine ⟨s.take j ++ w, t, ?_, .cons ⟨fun c hmem => ?_, ?_⟩ hw, ht⟩
    · rw [List.append_assoc, ← hs, List.take_append_drop]
    · rw [htake] at hmem
      exact (reAtomMatches_iff hc).mp (List.mem_takeWhile_imp (List.mem_of_mem_take hmem))
    · rwa [htake, List.length_take, Nat.min_eq_left hj]

/-- The result is right about `P`, and the budget runs out of steps unless depth was short. -/
def Agrees (P enough : Prop) (r : Result × Nat) : Prop :=
  (r.1 = .matched → P) ∧ (r.1 = .unmatched → ¬ P) ∧ (r.1 = .budget → enough → r.2 = 0)

section Agrees

variable {P P' enough : Prop} {Q : Text → Prop} {here : Text → Nat → Result × Nat}

theorem Agrees.congr {r : Result × Nat} (h : Agrees P enough r) (hP : P ↔ P') :
    Agrees P' enough r := by
  rwa [← hP]

theorem Agrees.orElse {r : Result × Nat} {next : Nat → Result × Nat} (h : Agrees P enough r)
    (hnext : ∀ steps, Agrees P' enough (next steps)) : Agrees (P ∨ P') enough (orElse r next) := by
  obtain ⟨result, steps⟩ := r
  cases result with
  | matched => exact ⟨fun _ => .inl (h.1 rfl), nofun, nofun⟩
  | budget => exact ⟨nofun, nofun, h.2.2⟩
  | unmatched => exact (hnext steps).congr (or_iff_right (h.2.1 rfl)).symm

theorem backtrack_agrees (hhere : ∀ s steps, Agrees (Q s) enough (here s steps)) (min k steps : Nat) :
    Agrees (∃ j ≤ k, min ≤ j ∧ Q (s.drop j)) enough (backtrack here s min k steps) := by
  induction k generalizing steps with
  | zero =>
    unfold backtrack
    split
    · refine ⟨nofun, fun _ => ?_, nofun⟩
      rintro ⟨j, hj, hmin, -⟩
      omega
    · refine (hhere s steps).congr ⟨fun h => ⟨0, Nat.le_refl 0, by omega, h⟩, ?_⟩
      rintro ⟨j, hj, -, h⟩
      rwa [Nat.le_zero.mp hj] at h
  | succ k ih =>
    unfold backtrack
    split
    · refine ⟨nofun, fun _ => ?_, nofun⟩
      rintro ⟨j, hj, hmin, -⟩
      omega
    · refine ((hhere (s.drop (k + 1)) steps).orElse ih).congr ⟨?_, ?_⟩
      · rintro (h | ⟨j, hj, hmin, h⟩)
        · exact ⟨k + 1, Nat.le_refl _, by omega, h⟩
        · exact ⟨j, by omega, hmin, h⟩
      · rintro ⟨j, hj, hmin, h⟩
        rcases Nat.lt_or_eq_of_le hj with hj | rfl
        · exact .inr ⟨j, by omega, hmin, h⟩
        · exact .inl h

theorem matchOnce_agrees (hhere : ∀ s steps, Agrees (Q s) enough (here s steps)) (steps : Nat) :
    Agrees (1 ≤ (s.takeWhile (reAtomMatches atom)).length ∧ Q (s.drop 1)) enough
      (matchOnce here atom s steps) := by
  cases s with
  | nil => exact ⟨nofun, fun _ h => Nat.not_succ_le_zero _ h.1, nofun⟩
  | cons c s =>
    dsimp only [matchOnce]
    split
    · rename_i hc
      refine (hhere s steps).congr ⟨fun h => ⟨?_, h⟩, fun h => h.2⟩
      rw [List.takeWhile_cons_of_pos hc, List.length_cons]
      exact Nat.le_add_left _ _
    · rename_i hc
      refine ⟨nofun, fun _ h => ?_, nofun⟩
      rw [List.takeWhile_cons_of_neg hc] at h
      exact Nat.not_succ_le_zero _ h.1

end Agrees

theorem cut_nil (n : Nat) : cut n [] = [] := by cases n <;> rfl

theorem reMatchHere_agrees {n : Nat} (hn : re.length ≤ n)
    (hc : ∀ i ∈ cut n re, closed i.atom = true) (depth : Nat) (s : Text) (steps : Nat) :
    Agrees (Here (cut n re) (re.getLast? = some 36) s) ((cut n re).length < depth)
      (reMatchHere depth re s steps) := by
  induction depth generalizing re n s steps with
  | zero => exact ⟨nofun, nofun, fun _ h => absurd h (Nat.not_lt_zero _)⟩
  | succ depth ih =>
    cases steps with
    | zero => exact ⟨nofun, nofun, fun _ _ => rfl⟩
    | succ steps =>
      unfold reMatchHere
      by_cases hnil : re = []
      · subst hnil
        rw [if_pos rfl, cut_nil]
        exact ⟨fun _ => ⟨[], s, rfl, .nil, nofun⟩, nofun, nofun⟩
      by_cases hdollar : re = [36]
      · subst hdollar
        have hcut : cut n [36] = [] := by cases n <;> rfl
        rw [if_neg (by decide), if_pos rfl, hcut]
        split
        · rename_i hs
          exact ⟨fun _ => ⟨[], [], hs, .nil, fun _ => rfl⟩, nofun, nofun⟩
        · rename_i hs
          refine ⟨nofun, fun _ => ?_, nofun⟩
          rintro ⟨w, u, rfl, hw, hu⟩
          cases hw
          exact hs (hu rfl)
      obtain ⟨n, rfl⟩ : ∃ m, n = m + 1 := ⟨n - 1, by
        have := List.length_pos_of_ne_nil hnil
        omega⟩
      have hcut : cut (n + 1) re = (nextItem re).1 :: cut n (nextItem re).2 := by
        rw [cut, if_neg (not_or.mpr ⟨hnil, hdollar⟩)]
      have hlt := nextItem_length hnil
      rw [hcut] at hc ⊢
      obtain ⟨hatom, hrest⟩ := List.forall_mem_cons.mp hc
      have hlast := nextItem_getLast? hnil hdollar hatom
      rw [if_neg hnil, if_neg hdollar]
      generalize nextItem re = ir at hlt hatom hrest hlast ⊢
      obtain ⟨⟨atom, quant⟩, rest⟩ := ir
      have hrec : ∀ s steps, Agrees (Here (cut n rest) (re.getLast? = some 36) s)
          ((⟨atom, quant⟩ :: cut n rest).length < depth + 1) (reMatchHere depth rest s steps) := by
        intro s steps
        have h := ih (by omega) hrest s steps
        rw [hlast] at h
        rwa [List.length_cons, Nat.add_lt_add_iff_right]
      refine Agrees.congr ?_ (here_cons hatom).symm
      cases quant with
      | star =>
        refine (backtrack_agrees hrec 0 _ steps).congr ⟨?_, ?_⟩
        · exact fun ⟨j, hj, _, h⟩ => ⟨j, hj, trivial, h⟩
        · exact fun ⟨j, hj, _, h⟩ => ⟨j, hj, Nat.zero_le j, h⟩
      | plus => exact backtrack_agrees hrec 1 _ steps
      | once =>
        refine (matchOnce_agrees hrec steps).congr ⟨?_, ?_⟩
        · exact fun ⟨hj, h⟩ => ⟨1, hj, rfl, h⟩
        · rintro ⟨_, hj, rfl, h⟩
          exact ⟨hj, h⟩
      | opt =>
        refine ((matchOnce_agrees hrec steps).orElse (hrec s)).congr ⟨?_, ?_⟩
        · rintro (⟨hj, h⟩ | h)
          · exact ⟨1, hj, Nat.le_refl 1, h⟩
          · exact ⟨0, Nat.zero_le _, Nat.zero_le 1, h⟩
        · rintro ⟨_ | _ | j, hj, hle, h⟩
          · exact .inr h
          · exact .inl ⟨hj, h⟩
          · exact absurd hle (Nat.not_le_of_lt (Nat.succ_lt_succ (Nat.succ_pos j)))

theorem searchFrom_agrees {n : Nat} (hn : re.length ≤ n)
    (hc : ∀ i ∈ cut n re, closed i.atom = true) (s : Text) (steps : Nat) :
    Agrees (∃ pre t, s = pre ++ t ∧ Here (cut n re) (re.getLast? = some 36) t)
      ((cut n re).length < reBudgetDepth) (searchFrom re s steps) := by
  induction s generalizing steps with
  | nil =>
    refine (reMatchHere_agrees hn hc _ [] steps).congr ⟨fun h => ⟨[], [], rfl, h⟩, ?_⟩
    rintro ⟨pre, t, hs, h⟩
    rwa [(List.append_eq_nil_iff.mp hs.symm).2] at h
  | cons c s ih =>
    refine ((reMatchHere_agrees hn hc _ (c :: s) steps).orElse ih).congr ⟨?_, ?_⟩
    · rintro (h | ⟨pre, t, rfl, h⟩)
      · exact ⟨[], c :: s, rfl, h⟩
      · exact ⟨c :: pre, t, rfl, h⟩
    · rintro ⟨_ | ⟨_, pre⟩, t, hs, h⟩
      · exact .inl (hs ▸ h)
      · cases hs
        exact .inr ⟨pre, t, rfl, h⟩

theorem found_iff {text : Text} : Found re text ↔ ∃ pre t, text = pre ++ t ∧
    (re.head? = some 94 → pre = []) ∧ Here (items re) (re.getLast? = some 36) t := by
  constructor
  · rintro ⟨pre, w, post, rfl, hw, hcaret, hdollar⟩
    exact ⟨pre, w ++ post, rfl, hcaret, w, post, rfl, hw, hdollar⟩
  · rintro ⟨pre, _, rfl, hcaret, w, post, rfl, hw, hdollar⟩
    exact ⟨pre, w, post, rfl, hw, hcaret, hdollar⟩

/-- **Regular-expression search.**  Over closed classes the answer is right about every position, and
the budget of a pattern of at most 126 atoms gives out in steps alone. -/
theorem regexp_search_spec (re text : Text) (hc : ∀ i ∈ items re, closed i.atom = true) :
    ((urbiRegexpSearch re text).1 = .matched → Found re text) ∧
      ((urbiRegexpSearch re text).1 = .unmatched → ¬ Found re text) ∧
      ((items re).length ≤ 126 → (urbiRegexpSearch re text).1 = .budget →
        (urbiRegexpSearch re text).2 = 0) := by
  have hagrees : Agrees (Found re text) ((items re).length < reBudgetDepth)
      (urbiRegexpSearch re text) := by
    unfold urbiRegexpSearch
    split
    · rename_i hcaret
      have hitems : items re = cut re.tail.length re.tail := by rw [items, body, if_pos hcaret]
      have hlast : re.tail.getLast? = some 36 ↔ re.getLast? = some 36 := by
        rcases re with _ | ⟨a, _ | ⟨b, re⟩⟩
        · exact Iff.rfl
        · cases hcaret
          decide
        · rfl
      rw [hitems] at hc
      have h := reMatchHere_agrees (Nat.le_refl _) hc reBudgetDepth text reBudgetSteps
      rw [← hitems, hlast] at h
      refine h.congr ⟨fun h => found_iff.mpr ⟨[], text, rfl, fun _ => rfl, h⟩, fun h => ?_⟩
      obtain ⟨pre, t, rfl, hpre, h⟩ := found_iff.mp h
      rwa [hpre hcaret]
    · rename_i hcaret
      have hitems : items re = cut re.length re := by rw [items, body, if_neg hcaret]
      rw [hitems] at hc
      have h := searchFrom_agrees (Nat.le_refl _) hc text reBudgetSteps
      rw [← hitems] at h
      refine h.congr ⟨?_, fun h => ?_⟩
      · rintro ⟨pre, t, hs, h⟩
        exact found_iff.mpr ⟨pre, t, hs, fun h => absurd h hcaret, h⟩
      · obtain ⟨pre, t, hs, -, h⟩ := found_iff.mp h
        exact ⟨pre, t, hs, h⟩
  exact ⟨hagrees.1, hagrees.2.1, fun hle hb => hagrees.2.2 hb (Nat.lt_of_le_of_lt hle (by decide))⟩

/-- `[b-d]*a$` on `xcda`. -/
theorem regexp_search_spec_class :
    (urbiRegexpSearch [91, 98, 45, 100, 93, 42, 97, 36] [120, 99, 100, 97]).1 = .matched ∧
      Found [91, 98, 45, 100, 93, 42, 97, 36] [120, 99, 100, 97] :=
  have h : (urbiRegexpSearch [91, 98, 45, 100, 93, 42, 97, 36] [120, 99, 100, 97]).1 = .matched := by
    decide
  ⟨h, (regexp_search_spec _ _ (by decide)).1 h⟩

end Urbi.Stdlib.Regexp
