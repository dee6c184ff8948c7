import Mathlib.Data.Int.Lemmas
import Mathlib.Data.Nat.Log

/-!
# Binary64 words

Doubles as 64-bit words, computed exactly over the integers and rounded once, to nearest, ties to
even.  Every finite double is a whole multiple of `2 ^ -1074`; the exact value of a word is kept as
that multiple (`units`).
-/

namespace Urbi.Lib.Binary64

def signBit (w : UInt64) : Bool := w.toNat / 2 ^ 63 = 1

def field (w : UInt64) : Nat := w.toNat / 2 ^ 52 % 2 ^ 11

def fraction (w : UInt64) : Nat := w.toNat % 2 ^ 52

def isNaN (w : UInt64) : Bool := field w = 2047 && fraction w != 0

def isInf (w : UInt64) : Bool := field w = 2047 && fraction w = 0

/-- In units of `2 ^ -1074`; an infinity reads as `2 ^ 1024`, above every finite word. -/
def magUnits (w : UInt64) : Nat :=
  if field w = 0 then fraction w else (2 ^ 52 + fraction w) * 2 ^ (field w - 1)

def units (w : UInt64) : Int := if signBit w then -(magUnits w : Int) else magUnits w

def quietNaN : UInt64 := 0x7ff8000000000000

def signed (neg : Bool) (mag : Nat) : UInt64 :=
  UInt64.ofNat ((if neg then 2 ^ 63 else 0) + mag)

def infinity (neg : Bool) : UInt64 := signed neg (2047 * 2 ^ 52)

def neg (w : UInt64) : UInt64 := w ^^^ 0x8000000000000000

/-! ## Rounding -/

def ulpShift (q : Nat) : Nat := if q < 2 ^ 53 then 0 else Nat.log 2 q - 52

def divNearest (n d : Nat) : Nat :=
  let q := n / d
  if 2 * (n % d) < d then q
  else if 2 * (n % d) = d then q + q % 2
  else q + 1

def assemble (neg : Bool) (m k : Nat) : UInt64 :=
  let (m, k) := if m = 2 ^ 53 then (2 ^ 52, k + 1) else (m, k)
  if m < 2 ^ 52 then signed neg m
  else if 2046 ≤ k then infinity neg
  else signed neg ((k + 1) * 2 ^ 52 + (m - 2 ^ 52))

def round (neg : Bool) (n d : Nat) : UInt64 :=
  let k := ulpShift (n / d)
  assemble neg (divNearest n (d * 2 ^ k)) k

def ofInt (i : Int) : UInt64 := round (i < 0) (i.natAbs * 2 ^ 1074) 1

/-! ## Arithmetic -/

def add (x y : UInt64) : UInt64 :=
  if isNaN x || isNaN y then quietNaN
  else if isInf x then if isInf y && signBit x != signBit y then quietNaN else x
  else if isInf y then y
  else
    let s := units x + units y
    if s = 0 then signed (signBit x && signBit y) 0 else round (s < 0) s.natAbs 1

def sub (x y : UInt64) : UInt64 := if isNaN y then quietNaN else add x (neg y)

def mul (x y : UInt64) : UInt64 :=
  let s := signBit x != signBit y
  if isNaN x || isNaN y then quietNaN
  else if isInf x || isInf y then if magUnits x = 0 || magUnits y = 0 then quietNaN else infinity s
  else round s (magUnits x * magUnits y) (2 ^ 1074)

def div (x y : UInt64) : UInt64 :=
  let s := signBit x != signBit y
  if isNaN x || isNaN y then quietNaN
  else if isInf x then if isInf y then quietNaN else infinity s
  else if isInf y then signed s 0
  else round s (magUnits x * 2 ^ 1074) (magUnits y)

def lt (x y : UInt64) : Bool := !isNaN x && !isNaN y && decide (units x < units y)

def le (x y : UInt64) : Bool := !isNaN x && !isNaN y && decide (units x ≤ units y)

def eq (x y : UInt64) : Bool := !isNaN x && !isNaN y && decide (units x = units y)

def isZero (w : UInt64) : Bool := magUnits w = 0

/-! ## Exact conversion of integers -/

section Exact

variable {s : Bool} {mag : Nat}

theorem signed_toNat (h : mag < 2 ^ 63) :
    (signed s mag).toNat = (if s then 2 ^ 63 else 0) + mag := by
  unfold signed
  rw [UInt64.toNat_ofNat_of_lt']
  have hif : (if s then 2 ^ 63 else 0) ≤ 2 ^ 63 := by split <;> omega
  show _ < 2 ^ 64
  omega

theorem signBit_signed (h : mag < 2 ^ 63) : signBit (signed s mag) = s := by
  unfold signBit
  rw [signed_toNat h]
  cases s
  · have : (0 + mag) / 2 ^ 63 ≠ 1 := by omega
    simpa using this
  · have : (2 ^ 63 + mag) / 2 ^ 63 = 1 := by omega
    simpa using this

theorem field_signed (h : mag < 2 ^ 63) : field (signed s mag) = mag / 2 ^ 52 := by
  unfold field
  rw [signed_toNat h]
  cases s
  · simp only [Bool.false_eq_true, if_false]; omega
  · simp only [if_true]; omega

theorem fraction_signed (h : mag < 2 ^ 63) : fraction (signed s mag) = mag % 2 ^ 52 := by
  unfold fraction
  rw [signed_toNat h]
  cases s
  · simp only [Bool.false_eq_true, if_false]; omega
  · simp only [if_true]; omega

theorem assemble_normal {m k : Nat} (hlo : 2 ^ 52 ≤ m) (hhi : m < 2 ^ 53) (hk : k < 2046) :
    isNaN (assemble s m k) = false ∧ signBit (assemble s m k) = s ∧
      magUnits (assemble s m k) = m * 2 ^ k := by
  have hasm : assemble s m k = signed s ((k + 1) * 2 ^ 52 + (m - 2 ^ 52)) := by
    unfold assemble
    rw [if_neg (by omega : ¬ m = 2 ^ 53)]
    simp only
    rw [if_neg (by omega : ¬ m < 2 ^ 52), if_neg (by omega : ¬ 2046 ≤ k)]
  have hmag : (k + 1) * 2 ^ 52 + (m - 2 ^ 52) < 2 ^ 63 := by
    have : (k + 1) * 2 ^ 52 ≤ 2046 * 2 ^ 52 := Nat.mul_le_mul_right _ (by omega)
    omega
  have hfield : field (assemble s m k) = k + 1 := by
    rw [hasm, field_signed hmag]; omega
  have hfrac : fraction (assemble s m k) = m - 2 ^ 52 := by
    rw [hasm, fraction_signed hmag]; omega
  refine ⟨?_, by rw [hasm, signBit_signed hmag], ?_⟩
  · have : ¬ k + 1 = 2047 := by omega
    simp [isNaN, hfield, this]
  · unfold magUnits
    rw [hfield, hfrac, if_neg (by omega), Nat.add_sub_cancel, Nat.add_sub_cancel' hlo]

end Exact

theorem round_exact (s : Bool) {n e : Nat} (hpos : n ≠ 0) (hlt : n < 2 ^ 53) (he : 53 ≤ e)
    (he' : e < 2046) : isNaN (round s (n * 2 ^ e) 1) = false ∧ signBit (round s (n * 2 ^ e) 1) = s ∧
      magUnits (round s (n * 2 ^ e) 1) = n * 2 ^ e := by
  have hlog : Nat.log 2 n ≤ 52 := Nat.lt_succ_iff.mp (Nat.log_lt_of_lt_pow hpos hlt)
  have hn : 2 ^ Nat.log 2 n ≤ n := Nat.pow_log_le_self 2 hpos
  have hn' : n < 2 ^ (Nat.log 2 n + 1) := Nat.lt_pow_succ_log_self (by omega) n
  have hlogq : Nat.log 2 (n * 2 ^ e) = Nat.log 2 n + e := by
    rw [Nat.log_eq_iff (.inl (by omega))]
    rw [Nat.pow_add, show Nat.log 2 n + e + 1 = (Nat.log 2 n + 1) + e by omega, Nat.pow_add]
    exact ⟨Nat.mul_le_mul_right _ hn, Nat.mul_lt_mul_of_pos_right hn' (Nat.two_pow_pos _)⟩
  have hbig : ¬ n * 2 ^ e < 2 ^ 53 := by
    have h53 : 2 ^ 53 ≤ 2 ^ e := Nat.pow_le_pow_right (by omega) he
    have := Nat.mul_le_mul_right (2 ^ e) (Nat.one_le_iff_ne_zero.mpr hpos)
    omega
  have hshift : ulpShift (n * 2 ^ e / 1) = Nat.log 2 n + (e - 52) := by
    unfold ulpShift
    rw [Nat.div_one, if_neg hbig, hlogq]
    omega
  have hsplit : n * 2 ^ e = n * 2 ^ (52 - Nat.log 2 n) * 2 ^ (Nat.log 2 n + (e - 52)) := by
    rw [Nat.mul_assoc, ← Nat.pow_add]
    congr 2
    omega
  have hdiv : divNearest (n * 2 ^ e) (1 * 2 ^ (Nat.log 2 n + (e - 52))) =
      n * 2 ^ (52 - Nat.log 2 n) := by
    have hp : 0 < 2 ^ (Nat.log 2 n + (e - 52)) := Nat.two_pow_pos _
    unfold divNearest
    rw [Nat.one_mul, hsplit, Nat.mul_mod_left, Nat.mul_div_cancel _ hp]
    simp
  have hround : round s (n * 2 ^ e) 1 =
      assemble s (n * 2 ^ (52 - Nat.log 2 n)) (Nat.log 2 n + (e - 52)) := by
    unfold round
    rw [hshift]
    simp only
    rw [hdiv]
  have hlo : 2 ^ 52 ≤ n * 2 ^ (52 - Nat.log 2 n) := by
    calc 2 ^ 52 = 2 ^ Nat.log 2 n * 2 ^ (52 - Nat.log 2 n) := by
          rw [← Nat.pow_add]; congr 1; omega
      _ ≤ n * 2 ^ (52 - Nat.log 2 n) := Nat.mul_le_mul_right _ hn
  have hhi : n * 2 ^ (52 - Nat.log 2 n) < 2 ^ 53 := by
    calc n * 2 ^ (52 - Nat.log 2 n) < 2 ^ (Nat.log 2 n + 1) * 2 ^ (52 - Nat.log 2 n) :=
          Nat.mul_lt_mul_of_pos_right hn' (Nat.two_pow_pos _)
      _ = 2 ^ 53 := by rw [← Nat.pow_add]; congr 1; omega
  rw [hround, hsplit]
  exact assemble_normal hlo hhi (by omega)

theorem ofInt_exact {i : Int} (h : i.natAbs < 2 ^ 53) :
    isNaN (ofInt i) = false ∧ units (ofInt i) = i * 2 ^ 1074 := by
  by_cases hi : i = 0
  · subst hi
    decide +kernel
  · obtain ⟨hnan, hsign, hmag⟩ := round_exact (i < 0) (Int.natAbs_ne_zero.mpr hi) h
      (show 53 ≤ 1074 by omega) (by omega)
    refine ⟨hnan, ?_⟩
    unfold units ofInt
    rw [hsign, hmag]
    have hcast : ((2 ^ 1074 : Nat) : Int) = 2 ^ 1074 := Nat.cast_pow 2 1074
    by_cases hneg : i < 0
    · have habs : ((i.natAbs : Nat) : Int) = -i := by omega
      simp only [hneg, decide_true, if_true]
      rw [Nat.cast_mul, habs, hcast, Int.neg_mul, Int.neg_neg]
    · have habs : ((i.natAbs : Nat) : Int) = i := by omega
      simp only [hneg, decide_false, Bool.false_eq_true, if_false]
      rw [Nat.cast_mul, habs, hcast]

/-! ## Conversion of larger integers -/

theorem divNearest_mono {n n' d : Nat} (h : n ≤ n') : divNearest n d ≤ divNearest n' d := by
  have hq : n / d ≤ n' / d := Nat.div_le_div_right h
  have hn := Nat.div_add_mod n d
  have hn' := Nat.div_add_mod n' d
  unfold divNearest
  dsimp only
  rcases Nat.lt_or_eq_of_le hq with hlt | heq
  · split <;> split <;> (try split) <;> (try split) <;> omega
  · have hr : n % d ≤ n' % d := by
      rw [heq] at hn
      omega
    rw [heq]
    split <;> split <;> (try split) <;> (try split) <;> omega

theorem divNearest_mul_right {n d c : Nat} (hc : 0 < c) :
    divNearest (n * c) (d * c) = divNearest n d := by
  unfold divNearest
  rw [Nat.mul_div_mul_right _ _ hc, Nat.mul_mod_mul_right, ← Nat.mul_assoc]
  simp only [Nat.mul_lt_mul_right hc, Nat.mul_left_inj (Nat.ne_of_gt hc)]

theorem divNearest_mul_self {m d : Nat} (hd : 0 < d) : divNearest (m * d) d = m := by
  unfold divNearest
  rw [Nat.mul_div_cancel _ hd, Nat.mul_mod_left]
  simp [hd]

def nearestNat (n : Nat) : Nat := divNearest n (2 ^ ulpShift n) * 2 ^ ulpShift n

def nearest (i : Int) : Int := if i < 0 then -(nearestNat i.natAbs : Int) else nearestNat i.natAbs

theorem nearestNat_of_lt {n : Nat} (h : n < 2 ^ 53) : nearestNat n = n := by
  unfold nearestNat ulpShift
  rw [if_pos h, Nat.pow_zero, Nat.mul_one]
  simpa using divNearest_mul_self (m := n) Nat.one_pos

theorem nearest_of_lt {i : Int} (h : i.natAbs < 2 ^ 53) : nearest i = i := by
  unfold nearest
  rw [nearestNat_of_lt h]
  split <;> omega

theorem divNearest_bounds {n : Nat} (h : 2 ^ 53 ≤ n) :
    2 ^ 52 ≤ divNearest n (2 ^ ulpShift n) ∧ divNearest n (2 ^ ulpShift n) ≤ 2 ^ 53 := by
  have hpos : n ≠ 0 := by omega
  have hlog : 53 ≤ Nat.log 2 n := Nat.le_log_of_pow_le (by omega) h
  have hshift : ulpShift n = Nat.log 2 n - 52 := if_neg (by omega)
  have hlo : 2 ^ 52 * 2 ^ ulpShift n ≤ n := by
    rw [hshift, ← Nat.pow_add, show 52 + (Nat.log 2 n - 52) = Nat.log 2 n by omega]
    exact Nat.pow_log_le_self 2 hpos
  have hhi : n ≤ 2 ^ 53 * 2 ^ ulpShift n := by
    rw [hshift, ← Nat.pow_add, show 53 + (Nat.log 2 n - 52) = Nat.log 2 n + 1 by omega]
    exact (Nat.lt_pow_succ_log_self (by omega) n).le
  have hd : 0 < 2 ^ ulpShift n := Nat.two_pow_pos _
  constructor
  · have := divNearest_mono (d := 2 ^ ulpShift n) hlo
    rwa [divNearest_mul_self hd] at this
  · have := divNearest_mono (d := 2 ^ ulpShift n) hhi
    rwa [divNearest_mul_self hd] at this

theorem nearestNat_mono {n n' : Nat} (h : n ≤ n') : nearestNat n ≤ nearestNat n' := by
  by_cases hshift : ulpShift n = ulpShift n'
  · unfold nearestNat
    rw [hshift]
    exact Nat.mul_le_mul_right _ (divNearest_mono h)
  · -- in different binades there is a power of two in between
    have hbig : 2 ^ 53 ≤ n' := by
      by_contra hlt
      exact hshift (by unfold ulpShift; rw [if_pos (by omega), if_pos (by omega)])
    have hlog' : ulpShift n' = Nat.log 2 n' - 52 := if_neg (by omega)
    have h53 : 53 ≤ Nat.log 2 n' := Nat.le_log_of_pow_le (by omega) hbig
    have hlower : 2 ^ Nat.log 2 n' ≤ nearestNat n' := by
      calc 2 ^ Nat.log 2 n' = 2 ^ 52 * 2 ^ ulpShift n' := by
            rw [hlog', ← Nat.pow_add]; congr 1; omega
        _ ≤ nearestNat n' := Nat.mul_le_mul_right _ (divNearest_bounds hbig).1
    refine Nat.le_trans ?_ hlower
    by_cases hsmall : n < 2 ^ 53
    · rw [nearestNat_of_lt hsmall]
      exact Nat.le_trans hsmall.le (Nat.pow_le_pow_right (by omega) h53)
    · have hlog : ulpShift n = Nat.log 2 n - 52 := if_neg hsmall
      have hle : Nat.log 2 n ≤ Nat.log 2 n' := Nat.log_mono_right h
      have h53n : 53 ≤ Nat.log 2 n := Nat.le_log_of_pow_le (by omega) (by omega)
      calc nearestNat n ≤ 2 ^ 53 * 2 ^ ulpShift n :=
            Nat.mul_le_mul_right _ (divNearest_bounds (by omega)).2
        _ = 2 ^ (Nat.log 2 n + 1) := by rw [hlog, ← Nat.pow_add]; congr 1; omega
        _ ≤ 2 ^ Nat.log 2 n' := Nat.pow_le_pow_right (by omega) (by omega)

theorem nearest_mono {i j : Int} (h : i ≤ j) : nearest i ≤ nearest j := by
  unfold nearest
  by_cases hi : i < 0
  · rw [if_pos hi]
    by_cases hj : j < 0
    · rw [if_pos hj, Int.neg_le_neg_iff, Int.ofNat_le]
      exact nearestNat_mono (by omega)
    · rw [if_neg hj]
      omega
  · rw [if_neg hi, if_neg (by omega), Int.ofNat_le]
    exact nearestNat_mono (by omega)

theorem round_large (s : Bool) {n e : Nat} (hlo : 2 ^ 53 ≤ n) (hhi : n < 2 ^ 64) (he : e ≤ 1074) :
    isNaN (round s (n * 2 ^ e) 1) = false ∧ signBit (round s (n * 2 ^ e) 1) = s ∧
      magUnits (round s (n * 2 ^ e) 1) = nearestNat n * 2 ^ e := by
  have hpos : n ≠ 0 := by omega
  have h53 : 53 ≤ Nat.log 2 n := Nat.le_log_of_pow_le (by omega) hlo
  have h64 : Nat.log 2 n < 64 := Nat.log_lt_of_lt_pow hpos hhi
  have hshift : ulpShift n = Nat.log 2 n - 52 := if_neg (by omega)
  have hlog : Nat.log 2 (n * 2 ^ e) = Nat.log 2 n + e := by
    rw [Nat.log_eq_iff (.inl (by omega)), Nat.pow_add,
      show Nat.log 2 n + e + 1 = (Nat.log 2 n + 1) + e by omega, Nat.pow_add]
    exact ⟨Nat.mul_le_mul_right _ (Nat.pow_log_le_self 2 hpos),
      Nat.mul_lt_mul_of_pos_right (Nat.lt_pow_succ_log_self (by omega) n) (Nat.two_pow_pos _)⟩
  have hbig : ¬ n * 2 ^ e < 2 ^ 53 := by
    have := Nat.mul_le_mul_left n (Nat.one_le_two_pow (n := e))
    omega
  have hk : ulpShift (n * 2 ^ e / 1) = ulpShift n + e := by
    rw [Nat.div_one, hshift]
    unfold ulpShift
    rw [if_neg hbig, hlog]
    omega
  have hround : round s (n * 2 ^ e) 1 =
      assemble s (divNearest n (2 ^ ulpShift n)) (ulpShift n + e) := by
    unfold round
    rw [hk]
    simp only
    rw [Nat.one_mul, Nat.pow_add, divNearest_mul_right (Nat.two_pow_pos _)]
  have hvalue : nearestNat n * 2 ^ e = divNearest n (2 ^ ulpShift n) * 2 ^ (ulpShift n + e) := by
    rw [nearestNat, Nat.mul_assoc, ← Nat.pow_add]
  obtain ⟨hmlo, hmhi⟩ := divNearest_bounds hlo
  rw [hround, hvalue]
  rcases Nat.lt_or_eq_of_le hmhi with hm | hm
  · exact assemble_normal hmlo hm (by omega)
  · -- rounded up into the next binade
    have hasm : assemble s (2 ^ 53) (ulpShift n + e) = assemble s (2 ^ 52) (ulpShift n + e + 1) := by
      unfold assemble
      rw [if_pos rfl, if_neg (by omega : ¬ 2 ^ 52 = 2 ^ 53)]
    rw [hm, hasm]
    obtain ⟨hnan, hsign, hmag⟩ := assemble_normal (s := s) (m := 2 ^ 52) (k := ulpShift n + e + 1)
      (Nat.le_refl _) (by omega) (by omega)
    refine ⟨hnan, hsign, ?_⟩
    rw [hmag, Nat.pow_succ]
    omega

theorem ofInt_nearest {i : Int} (h : i.natAbs < 2 ^ 64) :
    isNaN (ofInt i) = false ∧ units (ofInt i) = nearest i * 2 ^ 1074 := by
  by_cases hsmall : i.natAbs < 2 ^ 53
  · obtain ⟨hnan, hunits⟩ := ofInt_exact hsmall
    refine ⟨hnan, ?_⟩
    rw [hunits, nearest_of_lt hsmall]
  · obtain ⟨hnan, hsign, hmag⟩ := round_large (i < 0) (Nat.le_of_not_lt hsmall) h
      (Nat.le_refl 1074)
    refine ⟨hnan, ?_⟩
    have hcast : ((2 ^ 1074 : Nat) : Int) = 2 ^ 1074 := Nat.cast_pow 2 1074
    unfold units ofInt nearest
    rw [hsign, hmag]
    by_cases hneg : i < 0
    · rw [if_pos (decide_eq_true hneg), if_pos hneg, Nat.cast_mul, hcast, Int.neg_mul]
    · rw [if_neg (by simpa using hneg), if_neg hneg, Nat.cast_mul, hcast]

theorem lt_ofInt_nearest {i j : Int} (hi : i.natAbs < 2 ^ 64) (hj : j.natAbs < 2 ^ 64) :
    lt (ofInt i) (ofInt j) = decide (nearest i < nearest j) := by
  obtain ⟨hni, hui⟩ := ofInt_nearest hi
  obtain ⟨hnj, huj⟩ := ofInt_nearest hj
  have hp : (0 : Int) < 2 ^ 1074 := pow_pos (by omega) _
  simp only [lt, hni, hnj, hui, huj, Bool.not_false, Bool.true_and]
  exact decide_eq_decide.mpr (Int.mul_lt_mul_right hp)

theorem le_ofInt_nearest {i j : Int} (hi : i.natAbs < 2 ^ 64) (hj : j.natAbs < 2 ^ 64) :
    le (ofInt i) (ofInt j) = decide (nearest i ≤ nearest j) := by
  obtain ⟨hni, hui⟩ := ofInt_nearest hi
  obtain ⟨hnj, huj⟩ := ofInt_nearest hj
  have hp : (0 : Int) < 2 ^ 1074 := pow_pos (by omega) _
  simp only [le, hni, hnj, hui, huj, Bool.not_false, Bool.true_and]
  exact decide_eq_decide.mpr (Int.mul_le_mul_right hp)

end Urbi.Lib.Binary64
