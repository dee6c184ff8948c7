import Urbi.Rt.Value

/-!
# Comparison of numbers

`==` compares two integers as integers; `<` and `<=` compare all numbers as doubles.  A double has 53
significant bits, so the three agree on two integers exactly when rounding keeps them apart.
-/

namespace Urbi

open Lib Lib.Binary64

variable {L : CodeBase}

theorem Int64.natAbs_toInt_lt (i : Int64) : i.toInt.natAbs < 2 ^ 64 := by
  have hlo := i.le_toInt
  have hhi := i.toInt_lt
  omega

theorem compareLtLe_lt_int (a b : Int64) :
    compareLtLe (L := L) true (.int a) (.int b) =
      .value (decide (nearest a.toInt < nearest b.toInt)) := by
  show UOpResult.value (Binary64.lt (ofInt a.toInt) (ofInt b.toInt)) = _
  rw [lt_ofInt_nearest (Int64.natAbs_toInt_lt a) (Int64.natAbs_toInt_lt b)]

theorem compareLtLe_le_int (a b : Int64) :
    compareLtLe (L := L) false (.int a) (.int b) =
      .value (decide (nearest a.toInt ≤ nearest b.toInt)) := by
  show UOpResult.value (Binary64.le (ofInt a.toInt) (ofInt b.toInt)) = _
  rw [le_ofInt_nearest (Int64.natAbs_toInt_lt a) (Int64.natAbs_toInt_lt b)]

theorem compareEq_int (a b : Int64) :
    compareEq (L := L) (.int a) (.int b) = .value (decide (a.toInt = b.toInt)) := by
  show UOpResult.value (a == b) = _
  congr 1
  rw [Bool.eq_iff_iff, beq_iff_eq, decide_eq_true_iff, Int64.toInt_inj]

/-- The comparisons of two integers are those of the order of the integers. -/
structure IntegerOrder (L : CodeBase) (a b : Int64) : Prop where
  one : (compareLtLe (L := L) true (.int a) (.int b) = .value true ∧
      compareEq (L := L) (.int a) (.int b) ≠ .value true ∧
      compareLtLe (L := L) true (.int b) (.int a) ≠ .value true) ∨
    (compareLtLe (L := L) true (.int a) (.int b) ≠ .value true ∧
      compareEq (L := L) (.int a) (.int b) = .value true ∧
      compareLtLe (L := L) true (.int b) (.int a) ≠ .value true) ∨
    (compareLtLe (L := L) true (.int a) (.int b) ≠ .value true ∧
      compareEq (L := L) (.int a) (.int b) ≠ .value true ∧
      compareLtLe (L := L) true (.int b) (.int a) = .value true)
  le : compareLtLe (L := L) false (.int a) (.int b) = .value true ↔
    compareLtLe (L := L) true (.int a) (.int b) = .value true ∨
      compareEq (L := L) (.int a) (.int b) = .value true
  lt_iff : compareLtLe (L := L) true (.int a) (.int b) = .value true ↔ a.toInt < b.toInt
  eq_iff : compareEq (L := L) (.int a) (.int b) = .value true ↔ a.toInt = b.toInt
  gt_iff : compareLtLe (L := L) true (.int b) (.int a) = .value true ↔ b.toInt < a.toInt
  le_iff : compareLtLe (L := L) false (.int a) (.int b) = .value true ↔ a.toInt ≤ b.toInt

theorem nearest_lt_iff {i j : Int} (h : i = j ∨ nearest i ≠ nearest j) :
    nearest i < nearest j ↔ i < j := by
  rcases Int.lt_trichotomy i j with hij | hij | hij
  · have := nearest_mono hij.le
    omega
  · rw [hij]
    omega
  · have := nearest_mono hij.le
    omega

/-- **Integer comparison.**  `<`, `<=` and `==` on two integers are those of the integers exactly
when the two are equal or round to different doubles. -/
theorem integerOrder_iff (a b : Int64) :
    IntegerOrder L a b ↔ a = b ∨ nearest a.toInt ≠ nearest b.toInt := by
  have hvalue : ∀ p q : Bool, (UOpResult.value p = UOpResult.value q) ↔ p = q := by
    intro p q
    exact ⟨fun h => by injection h, fun h => h ▸ rfl⟩
  rw [← Int64.toInt_inj]
  constructor
  · intro h
    by_contra hnot
    obtain ⟨hne, heq⟩ := not_or.mp hnot
    rw [not_not] at heq
    have hlt := h.lt_iff
    have hgt := h.gt_iff
    rw [compareLtLe_lt_int, hvalue, decide_eq_true_iff, heq] at hlt hgt
    omega
  · intro h
    have hlt := nearest_lt_iff h
    have hgt := nearest_lt_iff (h.imp Eq.symm Ne.symm)
    have hle : nearest a.toInt ≤ nearest b.toInt ↔ a.toInt ≤ b.toInt := by
      rw [← Int.not_lt, ← Int.not_lt, hgt]
    constructor <;>
      simp only [compareLtLe_lt_int, compareLtLe_le_int, compareEq_int, hvalue, ne_eq,
        decide_eq_true_iff, hlt, hgt, hle] <;> omega

/-- One and two. -/
theorem integerOrder_iff_small : IntegerOrder noCode 1 2 :=
  (integerOrder_iff 1 2).mpr (.inr (by decide))

/-- `2^53` and `2^53 + 1` are one double: neither is less than the other, and they are not equal, and
still each is at most the other. -/
theorem integerOrder_fails :
    compareLtLe (L := noCode) true (.int 9007199254740992) (.int 9007199254740993) = .value false ∧
    compareEq (L := noCode) (.int 9007199254740992) (.int 9007199254740993) = .value false ∧
    compareLtLe (L := noCode) true (.int 9007199254740993) (.int 9007199254740992) = .value false ∧
    compareLtLe (L := noCode) false (.int 9007199254740992) (.int 9007199254740993) = .value true ∧
    compareLtLe (L := noCode) false (.int 9007199254740993) (.int 9007199254740992) = .value true := by
  have hround : nearest (9007199254740992 : Int64).toInt = nearest (9007199254740993 : Int64).toInt := by
    decide +kernel
  have hne : (9007199254740992 : Int64).toInt ≠ (9007199254740993 : Int64).toInt := by decide
  simp only [compareLtLe_lt_int, compareLtLe_le_int, compareEq_int, hround, hne, lt_irrefl, le_refl,
    decide_false, decide_true, and_self]

end Urbi
