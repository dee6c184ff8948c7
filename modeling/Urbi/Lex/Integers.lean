import Mathlib.Data.Nat.Digits.Defs
import Urbi.Lex.Literals

/-!
# Integer literals

The digits of a literal are accumulated and then scaled by the unit behind them, each with an overflow
guard of its own.  Both guards are exact.
-/

namespace Urbi.Lex

/-! ## The texts -/

inductive Grouped (base : Nat) : Bytes → Prop
  | digit {c : UInt8} (hc : (digitValue base c).isSome) : Grouped base [c]
  | cons {c : UInt8} {cs : Bytes} (hc : (digitValue base c).isSome) (hcs : Grouped base cs) :
    Grouped base (c :: cs)
  | group {c : UInt8} {cs : Bytes} (hc : (digitValue base c).isSome) (hcs : Grouped base cs) :
    Grouped base (c :: 95 :: cs)

def digitsValue (base : Nat) (ds : Bytes) : Nat :=
  Nat.ofDigits base (ds.filterMap (digitValue base)).reverse

def radixLetters : List (UInt8 × Nat) :=
  [(120, 16), (88, 16), (98, 2), (66, 2), (111, 8), (79, 8)]

def microseconds : List (Bytes × (Nat → Nat)) :=
  [(ascii "ns", (· / 1000)), (ascii "us", id), (ascii "ms", (· * 10 ^ 3)),
   (ascii "s", (· * 10 ^ 6)), (ascii "m", (· * (60 * 10 ^ 6))), (ascii "h", (· * (60 * 60 * 10 ^ 6))),
   (ascii "d", (· * (24 * 60 * 60 * 10 ^ 6)))]

structure DecimalEnd (ds rest : Bytes) : Prop where
  digit : ¬ rest.head?.any (isDigitOrUnderscore 10)
  radix : ds = [48] → ∀ r ∈ radixLetters, rest.head? ≠ some r.1
  float : ¬ ((rest.head? = some 46 ∧ rest.tail.head?.all isDigit) ∨ rest.head? = some 101 ∨
    rest.head? = some 69)
  duration : findSuffix durationSuffixes rest = none
  angle : findSuffix angleSuffixes rest = none

inductive IntLiteral (rest : Bytes) : Bytes → Nat → Nat → Prop
  | radix {x : UInt8} {base : Nat} {ds : Bytes} (hx : (x, base) ∈ radixLetters)
      (hds : Grouped base ds) (hend : ¬ rest.head?.any (isDigitOrUnderscore base)) :
    IntLiteral rest (48 :: x :: (ds ++ rest)) (digitsValue base ds) (digitsValue base ds)
  | decimal {ds : Bytes} (hds : Grouped 10 ds) (hzero : ds.head? = some 48 → ds = [48])
      (hend : DecimalEnd ds rest) :
    IntLiteral rest (ds ++ rest) (digitsValue 10 ds) (digitsValue 10 ds)
  | duration {ds unit : Bytes} {micros : Nat → Nat} (hds : Grouped 10 ds)
      (hzero : ds.head? = some 48 → ds = [48]) (hunit : (unit, micros) ∈ microseconds)
      (hend : ¬ rest.head?.any isIdentCont) :
    IntLiteral rest (ds ++ (unit ++ rest)) (digitsValue 10 ds) (micros (digitsValue 10 ds))

variable {base d value total : Nat} {c : UInt8} {cs ds rest : Bytes} {l : ULexer}

/-! ## Accumulation -/

theorem digitValue_lt (h : digitValue base c = some d) : d < base := by
  simpa using (Option.filter_eq_some_iff.mp h).2

theorem digitValue_underscore : digitValue base 95 = none := by
  have hdigit : isDigit 95 = false := by decide
  simp [digitValue, hdigit]

def extend (base value : Nat) (ds : Bytes) : Nat :=
  value * base ^ (ds.filterMap (digitValue base)).length + digitsValue base ds

theorem extend_zero : extend base 0 ds = digitsValue base ds := by
  simp [extend]

theorem extend_nil : extend base value [] = value := by
  simp [extend, digitsValue]

theorem extend_cons (h : digitValue base c = some d) :
    extend base value (c :: cs) = extend base (value * base + d) cs := by
  simp only [extend, digitsValue, List.filterMap_cons, h, List.length_cons, List.reverse_cons,
    Nat.ofDigits_append, Nat.ofDigits_singleton, List.length_reverse]
  ring

theorem extend_underscore : extend base value (95 :: ds) = extend base value ds := by
  simp only [extend, digitsValue, List.filterMap_cons, digitValue_underscore]

theorem le_extend (hbase : 0 < base) : value ≤ extend base value ds :=
  Nat.le_add_right_of_le (Nat.le_mul_of_pos_right _ (Nat.pow_pos hbase))

def exactly (total : Nat) : Except ULexError Nat :=
  if total ≤ int64Max then .ok total else .error .intOverflow

theorem dropWhile_stop {p : UInt8 → Bool} (h : ¬ rest.head?.any p) : rest.dropWhile p = rest := by
  cases rest with
  | nil => rfl
  | cons c cs => exact List.dropWhile_cons_of_neg (by simpa using h)

theorem Grouped.dropWhile (h : Grouped base ds)
    (hrest : ¬ rest.head?.any (isDigitOrUnderscore base)) :
    (ds ++ rest).dropWhile (isDigitOrUnderscore base) = rest := by
  induction h with
  | digit hc => simp [isDigitOrUnderscore, hc, dropWhile_stop hrest]
  | cons hc _ ih => simpa [isDigitOrUnderscore, hc] using ih
  | group hc _ ih => simpa [isDigitOrUnderscore, hc] using ih

theorem accumulateDigits_digit {prev : Bool} (hbase : base ≤ 16) (hd : digitValue base c = some d)
    (htail : cs.dropWhile (isDigitOrUnderscore base) = rest) (hle : value * base + d ≤ total)
    (ih : value * base + d ≤ int64Max →
      accumulateDigits base false (value * base + d) cs = (rest, exactly total)) :
    accumulateDigits base prev value (c :: cs) = (rest, exactly total) := by
  have hlt := digitValue_lt hd
  have hmax : 16 ≤ int64Max := by decide
  have hc : c ≠ 95 := by
    rintro rfl
    rw [digitValue_underscore] at hd
    cases hd
  simp only [accumulateDigits, hc, if_false, hd]
  have hguard : (int64Max - d) / base < value ↔ int64Max < value * base + d := by
    rw [Nat.div_lt_iff_lt_mul (by omega)]
    omega
  simp only [hguard]
  split
  · rw [exactly, if_neg (by omega), List.dropWhile_cons_of_pos (by simp [isDigitOrUnderscore, hd]),
      htail]
  · exact ih (by omega)

theorem accumulateDigits_stop (h : ¬ rest.head?.any (isDigitOrUnderscore base)) :
    accumulateDigits base false value rest = (rest, .ok value) := by
  cases rest with
  | nil => rfl
  | cons c cs =>
    have hc : digitValue base c = none ∧ c ≠ 95 := by simpa [isDigitOrUnderscore] using h
    simp only [accumulateDigits, hc, if_false, Bool.false_eq_true]

theorem accumulateDigits_grouped {prev : Bool} (hbase : base ≤ 16) (h : Grouped base ds)
    (hrest : ¬ rest.head?.any (isDigitOrUnderscore base)) :
    accumulateDigits base prev value (ds ++ rest) = (rest, exactly (extend base value ds)) := by
  induction h generalizing prev value with
  | digit hc =>
    obtain ⟨d, hd⟩ := Option.isSome_iff_exists.mp hc
    rw [extend_cons hd, extend_nil, List.cons_append, List.nil_append]
    refine accumulateDigits_digit hbase hd (dropWhile_stop hrest) le_rfl fun hle => ?_
    rw [accumulateDigits_stop hrest, exactly, if_pos hle]
  | cons hc hcs ih =>
    obtain ⟨d, hd⟩ := Option.isSome_iff_exists.mp hc
    rw [extend_cons hd]
    exact accumulateDigits_digit hbase hd (hcs.dropWhile hrest)
      (le_extend (Nat.zero_lt_of_lt (digitValue_lt hd))) fun _ => ih
  | group hc hcs ih =>
    obtain ⟨d, hd⟩ := Option.isSome_iff_exists.mp hc
    rw [extend_cons hd, extend_underscore, List.cons_append, List.cons_append]
    refine accumulateDigits_digit hbase hd ?_ (le_extend (Nat.zero_lt_of_lt (digitValue_lt hd)))
      fun _ => ?_
    · rw [List.dropWhile_cons_of_pos (by simp [isDigitOrUnderscore]), hcs.dropWhile hrest]
    · simpa [accumulateDigits] using ih

theorem accumulateDigits_value (hbase : base ≤ 16) (h : Grouped base ds)
    (hrest : ¬ rest.head?.any (isDigitOrUnderscore base)) :
    accumulateDigits base false 0 (ds ++ rest) = (rest, exactly (digitsValue base ds)) := by
  rw [accumulateDigits_grouped hbase h hrest, extend_zero]

/-! ## Units -/

theorem findSuffix_unit {unit : Bytes} {mul : Int} (h : (unit, mul) ∈ durationSuffixes)
    (hend : ¬ rest.head?.any isIdentCont) :
    findSuffix durationSuffixes (unit ++ rest) = some (rest, mul) := by
  cases rest with
  | nil =>
    repeat' rcases h with _ | ⟨_, h⟩
    all_goals decide
  | cons c cs =>
    have hc : isIdentCont c = false := by simpa using hend
    have hs : c ≠ 115 := by
      rintro rfl
      cases hc
    repeat' rcases h with _ | ⟨_, h⟩
    all_goals simp [findSuffix, durationSuffixes, suffixAt, ascii, hc, hs.symm]

theorem factor_exact {mul : Nat} (hmul : 0 < mul) :
    (if (mul : Int) < 0 then some ((value : Int) / -mul) else
      if (int64Max : Int) / mul < value then none else some (value * mul)) =
      if value * mul ≤ int64Max then some ((value * mul : Nat) : Int) else none := by
  have hguard : (int64Max : Int) / mul < value ↔ ¬ value * mul ≤ int64Max := by
    rw [Nat.not_le, ← Nat.div_lt_iff_lt_mul hmul]
    omega
  simp only [hguard, ite_not, Int.natCast_mul, Int.not_lt.mpr (Int.natCast_nonneg mul), if_false]

theorem micros_exact {unit : Bytes} {micros : Nat → Nat} (h : (unit, micros) ∈ microseconds)
    (hvalue : value ≤ int64Max) : ∃ mul, (unit, mul) ∈ durationSuffixes ∧
      (if mul < 0 then some ((value : Int) / -mul) else if int64Max / mul < value then none
        else some (value * mul)) =
      if micros value ≤ int64Max then some (micros value : Int) else none := by
  repeat' rcases h with _ | ⟨_, h⟩
  · refine ⟨-1000, by decide, ?_⟩
    rw [if_pos (by decide), if_pos (le_trans (Nat.div_le_self _ _) hvalue)]
    rfl
  · refine ⟨1, by decide, ?_⟩
    simpa using @factor_exact value 1 Nat.one_pos
  all_goals exact ⟨_, by decide, factor_exact (by decide)⟩

theorem applyDurationSuffix_unit {unit : Bytes} {micros : Nat → Nat}
    (h : (unit, micros) ∈ microseconds) (hend : ¬ rest.head?.any isIdentCont)
    (hvalue : value ≤ int64Max) : applyDurationSuffix value (unit ++ rest) =
      (rest, if micros value ≤ int64Max then some (micros value : Int) else none) := by
  obtain ⟨mul, hmem, hmul⟩ := micros_exact h hvalue
  simp only [applyDurationSuffix, findSuffix_unit hmem hend, hmul]

theorem head_unit {unit : Bytes} {micros : Nat → Nat} (h : (unit, micros) ∈ microseconds) :
    ∃ c cs, unit = c :: cs ∧ ¬ isDigitOrUnderscore 10 c ∧ c ≠ 46 ∧ c ≠ 101 ∧ c ≠ 69 ∧
      ∀ r ∈ radixLetters, c ≠ r.1 := by
  repeat' rcases h with _ | ⟨_, h⟩
  all_goals exact ⟨_, _, rfl, by decide⟩

theorem eq_cons_of_head? {p : UInt8 → Bool} {t : Bytes} (h : t.head?.any p) :
    ∃ b bs, t = b :: bs ∧ p b := by
  cases t with
  | nil => cases h
  | cons b bs => exact ⟨b, bs, rfl, h⟩

theorem findSuffix_angle (hend : ¬ rest.head?.any isIdentCont) :
    findSuffix angleSuffixes rest = none := by
  by_contra hsome
  obtain ⟨r, hr⟩ := Option.ne_none_iff_exists'.mp hsome
  obtain ⟨e, he, rfl⟩ := findSuffix_split hr
  have hall : ∀ e ∈ angleSuffixes, e.1.head?.any isIdentCont := by decide
  obtain ⟨b, bs, hbytes, hb⟩ := eq_cons_of_head? (hall e he)
  rw [hbytes] at hend
  exact hend hb

/-! ## The scan -/

structure LexedTo (l : ULexer) (rest : Bytes) (v w : Nat) (r : UToken × ULexer) : Prop where
  int : v ≤ int64Max → w ≤ int64Max → r = l.emit .int rest (.i w)
  overflow : ¬ (v ≤ int64Max ∧ w ≤ int64Max) → ∃ cur, r = l.fail .intOverflow cur

theorem Grouped.eq_cons (h : Grouped base ds) :
    ∃ c cs, ds = c :: cs ∧ (digitValue base c).isSome := by
  cases h with
  | digit hc => exact ⟨_, _, rfl, hc⟩
  | cons hc _ => exact ⟨_, _, rfl, hc⟩
  | group hc _ => exact ⟨_, _, rfl, hc⟩

theorem scanRadix_grouped {malformed : ULexError} (hbase : base ≤ 16) (hds : Grouped base ds)
    (hend : ¬ rest.head?.any (isDigitOrUnderscore base)) :
    LexedTo l rest (digitsValue base ds) (digitsValue base ds)
      (scanRadix l base malformed (ds ++ rest)) := by
  have hacc := accumulateDigits_value hbase hds hend
  obtain ⟨c, cs, rfl, hc⟩ := hds.eq_cons
  have hne : c ≠ 95 := by
    rintro rfl
    rw [digitValue_underscore] at hc
    cases hc
  simp only [List.cons_append, scanRadix, hne, if_false, Option.isNone_eq_false_iff.mpr hc,
    Bool.false_eq_true] at hacc ⊢
  constructor
  · intro hle _
    simp only [hacc, exactly, hle, if_true]
  · intro hover
    rw [and_self] at hover
    simp only [hacc, exactly, hover, if_false]
    exact ⟨rest, rfl⟩

theorem dispatchRadixPrefix_radix {x : UInt8} (hx : (x, base) ∈ radixLetters)
    (hcur : l.cur = 48 :: x :: cs) :
    base ≤ 16 ∧ ∃ malformed, dispatchRadixPrefix l = some (scanRadix l base malformed cs) := by
  unfold dispatchRadixPrefix
  repeat' rcases hx with _ | ⟨_, hx⟩
  all_goals exact ⟨by decide, _, by rw [hcur]; rfl⟩

theorem digitValue_of_isDigit (h : isDigit c) : (digitValue 10 c).isSome := by
  have hle : c.toNat ≤ 57 := by
    simp only [isDigit, Bool.and_eq_true, decide_eq_true_eq] at h
    exact h.2
  simp only [digitValue, h, if_true, Option.isSome_filter, Option.any_some, decide_eq_true_eq]
  omega

theorem dispatchRadixPrefix_decimal (hds : Grouped 10 ds) (hzero : ds.head? = some 48 → ds = [48])
    (hdigit : ¬ rest.head?.any (isDigitOrUnderscore 10))
    (hradix : ds = [48] → ∀ r ∈ radixLetters, rest.head? ≠ some r.1) (hcur : l.cur = ds ++ rest) :
    dispatchRadixPrefix l = none := by
  obtain ⟨c, cs, rfl, -⟩ := hds.eq_cons
  by_cases hc : c = 48
  · subst hc
    cases hzero rfl
    cases rest with
    | nil => simp only [dispatchRadixPrefix, hcur, List.append_nil]
    | cons b bs =>
      have hletters := hradix rfl
      simp only [radixLetters, List.forall_mem_cons, List.head?_cons, ne_eq, Option.some.injEq,
        List.not_mem_nil, false_implies, implies_true, and_true] at hletters
      have hb : ¬ isDigit b ∧ b ≠ 95 := by
        refine ⟨fun hb => hdigit ?_, fun hb => hdigit ?_⟩
        · simp [isDigitOrUnderscore, digitValue_of_isDigit hb]
        · simp [isDigitOrUnderscore, hb]
      simp [dispatchRadixPrefix, hcur, hletters, hb]
  · simp only [dispatchRadixPrefix, hcur, List.cons_append]
    cases cs ++ rest with
    | nil => rfl
    | cons b bs => exact if_pos hc

theorem scanNumber_decimal {host : FloatHost} {tail : Bytes} {w : Nat} (hds : Grouped 10 ds)
    (hzero : ds.head? = some 48 → ds = [48]) (hdigit : ¬ tail.head?.any (isDigitOrUnderscore 10))
    (hradix : ds = [48] → ∀ r ∈ radixLetters, tail.head? ≠ some r.1)
    (hfloat : ¬ ((tail.head? = some 46 ∧ tail.tail.head?.all isDigit) ∨ tail.head? = some 101 ∨
      tail.head? = some 69)) (hcur : l.cur = ds ++ tail)
    (hunit : digitsValue 10 ds ≤ int64Max → applyDurationSuffix (digitsValue 10 ds) tail =
      (rest, if w ≤ int64Max then some (w : Int) else none))
    (hangle : findSuffix angleSuffixes rest = none) :
    LexedTo l rest (digitsValue 10 ds) w (scanNumber host l) := by
  have hr := dispatchRadixPrefix_decimal hds hzero hdigit hradix hcur
  have hacc := accumulateDigits_value (by decide) hds hdigit
  rw [← hcur] at hacc
  constructor
  · intro hv hw
    simp only [scanNumber, hr, hacc, exactly, hv, hfloat, hunit hv, hw, hangle, if_true, if_false]
  · intro hover
    by_cases hv : digitsValue 10 ds ≤ int64Max
    · have hw : ¬ w ≤ int64Max := fun hw => hover ⟨hv, hw⟩
      simp only [scanNumber, hr, hacc, exactly, hv, hfloat, hunit hv, hw, if_true, if_false]
      exact ⟨rest, rfl⟩
    · simp only [scanNumber, hr, hacc, exactly, hv, if_false]
      exact ⟨tail, rfl⟩

theorem ne_of_isDigit {b : UInt8} (hc : isDigit c) (hb : isDigit b = false) : c ≠ b := by
  rintro rfl
  rw [hc] at hb
  cases hb

theorem scanToken_digit {host : FloatHost} (hcur : l.cur = c :: cs) (hc : isDigit c) :
    scanToken host l = scanNumber host l := by
  have ne := fun b => ne_of_isDigit (b := b) hc
  have hpunct : punctTable.lookup c = none := by
    rw [List.lookup_eq_none_iff]
    intro p hp
    have hall : ∀ p ∈ punctTable, isDigit p.1 = false := by decide
    simpa using ne _ (hall p hp)
  have hop : (operators.find? fun op => op.1.isPrefixOf (c :: cs)) = none := by
    rw [List.find?_eq_none]
    intro op hop hpre
    have hall : ∀ op ∈ operators, op.1.head?.any (!isDigit ·) := by decide
    obtain ⟨b, bs, hbytes, hb⟩ := eq_cons_of_head? (hall op hop)
    simp only [hbytes, List.isPrefixOf_cons_cons, Bool.and_eq_true, beq_iff_eq] at hpre
    exact ne b (by simpa using hb) hpre.1.symm
  simp only [scanToken, hcur, ne 34 (by decide), ne 39 (by decide), ne 46 (by decide), false_and,
    if_false, hpunct, hop, hc, if_true]

theorem ulexNext_digit {host : FloatHost} (hcur : l.cur = c :: cs) (hc : isDigit c) :
    ulexNext host l = scanNumber host l := by
  have ne := fun b => ne_of_isDigit (b := b) hc
  have htrivia : l.triviaStep = .done := by
    simp [ULexer.triviaStep, hcur, isBlank, ne 32 (by decide), ne 9 (by decide),
      ne 10 (by decide), ne 13 (by decide), ne 47 (by decide)]
  simp only [ulexNext, hcur, List.length_cons, ULexer.skipTrivia, htrivia, scanToken_digit hcur hc]

/-- An integer literal is lexed to its exact value, or is an overflow. -/
theorem ulexNext_intLiteral (host : FloatHost) (l : ULexer) {v w : Nat}
    (h : IntLiteral rest l.cur v w) : LexedTo l rest v w (ulexNext host l) := by
  generalize htext : l.cur = text at h
  cases h with
  | radix hx hds hend =>
    obtain ⟨hbase, malformed, hr⟩ := dispatchRadixPrefix_radix hx htext
    rw [ulexNext_digit htext (by decide)]
    simp only [scanNumber, hr]
    exact scanRadix_grouped hbase hds hend
  | decimal hds hzero hend =>
    obtain ⟨c, cs, rfl, hc⟩ := hds.eq_cons
    rw [ulexNext_digit htext (isDigit_of_digitValue hc)]
    refine scanNumber_decimal hds hzero hend.digit hend.radix hend.float htext (fun hv => ?_)
      hend.angle
    simp only [applyDurationSuffix, hend.duration, hv, if_true]
  | duration hds hzero hunit hend =>
    obtain ⟨c, cs, rfl, hc⟩ := hds.eq_cons
    obtain ⟨b, bs, hb, hdigit, hdot, he, hE, hradix⟩ := head_unit hunit
    rw [ulexNext_digit htext (isDigit_of_digitValue hc)]
    refine scanNumber_decimal hds hzero ?_ ?_ ?_ htext (applyDurationSuffix_unit hunit hend) ?_
    · simpa [hb] using hdigit
    · intro _ r hr
      simpa [hb] using hradix r hr
    · simp [hb, hdot, he, hE]
    · exact findSuffix_angle hend

theorem intLiteral_grouped : IntLiteral [] (ascii "1_5ms") 15 15000 :=
  .duration (.group rfl (.digit rfl)) (by decide) (.tail _ (.tail _ (.head _))) (by decide)

theorem ulexNext_intLiteral_grouped :
    IntLiteral [] (ascii "1_5ms") 15 15000 ∧ ulexNext default (ulexInit (ascii "1_5ms")) =
      (ulexInit (ascii "1_5ms")).emit .int [] (.i 15000) :=
  ⟨intLiteral_grouped, (ulexNext_intLiteral default (ulexInit (ascii "1_5ms"))
    intLiteral_grouped).int (by decide) (by decide)⟩

end Urbi.Lex
