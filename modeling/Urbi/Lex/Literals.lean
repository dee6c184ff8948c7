import Urbi.Lex.Lexer

/-!
# Float literals

A float literal is scanned with the lexer's rules, which let underscores stand between the digits
before the point, and then converted by `strtod`, which knows none; at most 63 bytes of it get there.
-/

namespace Urbi.Lex

variable {c : UInt8} {cur es lit rest : Bytes} {l : ULexer} {host : FloatHost}

/-! ## The text `strtod` converts -/

def isSign (c : UInt8) : Bool := c == 43 || c == 45

def isMarker (c : UInt8) : Bool := c == 101 || c == 69

def fractionPrefix : Bytes → Bytes
  | [] => []
  | c :: cs => if c = 46 then c :: cs.takeWhile isDigit else []

def signPrefix (t : Bytes) : Bytes := if t.head?.any isSign then t.take 1 else []

def exponentPrefix : Bytes → Bytes
  | [] => []
  | m :: cs =>
    let digits := (cs.drop (signPrefix cs).length).takeWhile isDigit
    if isMarker m ∧ digits ≠ [] then m :: (signPrefix cs ++ digits) else []

/-- Digits, a fraction and an exponent, with a digit before or behind the point. -/
def decimalPrefix (text : Bytes) : Bytes :=
  let ds := text.takeWhile isDigit
  let fs := fractionPrefix (text.drop ds.length)
  if ds = [] ∧ fs.length ≤ 1 then [] else ds ++ fs ++ exponentPrefix (text.drop (ds ++ fs).length)

def FloatHost.converting (host : FloatHost) (conv : Bytes → UInt64) : FloatHost :=
  { host with strtod := fun text => conv (decimalPrefix text) }

/-- What `strtod` takes off a text: a piece of its start without an underscore. -/
structure Part (p text : Bytes) : Prop where
  isPrefix : p <+: text
  plain : (95 : UInt8) ∉ p

theorem Part.nil (text : Bytes) : Part [] text := ⟨List.nil_prefix, List.not_mem_nil⟩

theorem Part.cons {p text : Bytes} (hc : 95 ≠ c) (h : Part p text) : Part (c :: p) (c :: text) :=
  ⟨List.cons_prefix_cons.mpr ⟨rfl, h.isPrefix⟩, List.not_mem_cons_of_ne_of_not_mem hc h.plain⟩

theorem Part.append {p q text : Bytes} (hp : Part p text) (hq : Part q (text.drop p.length)) :
    Part (p ++ q) text := by
  obtain ⟨⟨t, rfl⟩, hp⟩ := hp
  rw [List.drop_left] at hq
  exact ⟨(List.prefix_append_right_inj p).mpr hq.isPrefix, List.not_mem_append hp hq.plain⟩

theorem ne_underscore_of_digit (h : isDigit c) : c ≠ 95 := by
  rintro rfl
  exact absurd h (by decide)

theorem part_digits (t : Bytes) : Part (t.takeWhile isDigit) t :=
  ⟨List.takeWhile_prefix _, fun h => ne_underscore_of_digit (List.mem_takeWhile_imp h) rfl⟩

theorem part_fractionPrefix (t : Bytes) : Part (fractionPrefix t) t := by
  cases t with
  | nil => exact .nil _
  | cons c cs =>
    simp only [fractionPrefix]
    split
    · rename_i hc
      exact .cons (hc ▸ by decide) (part_digits cs)
    · exact .nil _

theorem part_signPrefix (t : Bytes) : Part (signPrefix t) t := by
  cases t with
  | nil => exact .nil _
  | cons c cs =>
    unfold signPrefix
    split
    · rename_i hc
      refine .cons ?_ (.nil cs)
      rintro rfl
      exact absurd hc (by simp [isSign])
    · exact .nil _

theorem part_exponentPrefix (t : Bytes) : Part (exponentPrefix t) t := by
  cases t with
  | nil => exact .nil _
  | cons m cs =>
    simp only [exponentPrefix]
    split
    · rename_i hm
      refine .cons ?_ ((part_signPrefix cs).append (part_digits _))
      rintro rfl
      exact absurd hm.1 (by decide)
    · exact .nil _

theorem part_decimalPrefix (text : Bytes) : Part (decimalPrefix text) text := by
  simp only [decimalPrefix]
  split
  · exact .nil _
  · exact ((part_digits text).append (part_fractionPrefix _)).append (part_exponentPrefix _)

/-! ## The text the lexer scans -/

def Digits (ds : Bytes) : Prop := ∀ c ∈ ds, isDigit c

def Fraction (fs : Bytes) : Prop := fs = [] ∨ ∃ ds, fs = 46 :: ds ∧ ds ≠ [] ∧ Digits ds

def Exponent (es : Bytes) : Prop :=
  es = [] ∨ ∃ m s ds, es = m :: (s ++ ds) ∧ isMarker m ∧ (s = [] ∨ ∃ c, s = [c] ∧ isSign c) ∧
    ds ≠ [] ∧ Digits ds

structure FloatText (lit : Bytes) where
  int : Bytes
  fraction : Bytes
  exponent : Bytes
  eq : lit = int ++ (fraction ++ exponent)
  grouped : ∀ c ∈ int, isDigit c ∨ c = 95
  isFraction : Fraction fraction
  isExponent : Exponent exponent
  isFloat : fraction ≠ [] ∨ (int ≠ [] ∧ exponent ≠ [])

theorem takeWhile_digits {ds : Bytes} (h : Digits ds) (hrest : rest.head?.all (!isDigit ·)) :
    (ds ++ rest).takeWhile isDigit = ds := by
  rw [List.takeWhile_append_of_pos h]
  cases rest with
  | nil => simp
  | cons c cs =>
    have hc : isDigit c = false := by simpa using hrest
    simp [hc]

theorem Exponent.stop (h : Exponent es) : es.head?.all (!isDigit ·) ∧ es.head? ≠ some 46 := by
  rcases h with rfl | ⟨m, s, ds, rfl, hm, -⟩
  · simp
  · have hm : m = 101 ∨ m = 69 := by simpa [isMarker] using hm
    rcases hm with rfl | rfl <;> simp [isDigit]

theorem fractionPrefix_eq {fs : Bytes} (hfs : Fraction fs) (hes : Exponent es) :
    fractionPrefix (fs ++ es) = fs := by
  have hstop := hes.stop
  rcases hfs with rfl | ⟨ds, rfl, -, hds⟩
  · cases es with
    | nil => rfl
    | cons c cs =>
      have hc : c ≠ 46 := fun h => hstop.2 (by simp [h])
      simp [fractionPrefix, hc]
  · simp [fractionPrefix, takeWhile_digits hds hstop.1]

theorem exponentPrefix_eq (h : Exponent es) : exponentPrefix es = es := by
  rcases h with rfl | ⟨m, s, ds, rfl, hm, hs, hne, hds⟩
  · rfl
  · have htake : ds.takeWhile isDigit = ds := by simpa using @takeWhile_digits [] ds hds rfl
    rcases hs with rfl | ⟨c, rfl, hc⟩
    · have hhead : (ds.head?.any isSign) = false := by
        cases ds with
        | nil => rfl
        | cons d ds =>
          have hd : isDigit d := hds d List.mem_cons_self
          simp only [List.head?_cons, Option.any_some, isSign, Bool.or_eq_false_iff, beq_eq_false_iff_ne]
          constructor <;> (rintro rfl; exact absurd hd (by decide))
      simp [exponentPrefix, signPrefix, hhead, htake, hm, hne]
    · simp [exponentPrefix, signPrefix, hc, htake, hm, hne]

theorem FloatText.decimalPrefix_eq (t : FloatText lit) (h : (95 : UInt8) ∉ lit) :
    decimalPrefix lit = lit := by
  obtain ⟨int, fs, es, rfl, hint, hfs, hes, hfloat⟩ := t
  have hdigits : Digits int := fun c hc =>
    (hint c hc).resolve_right fun h95 => h (by simp [← h95, hc])
  have hstop : (fs ++ es).head?.all (!isDigit ·) := by
    rcases hfs with rfl | ⟨ds, rfl, -⟩
    · exact hes.stop.1
    · simp [isDigit]
  have hsome : ¬ (int = [] ∧ fs.length ≤ 1) := by
    rintro ⟨rfl, hlen⟩
    rcases hfs with rfl | ⟨ds, rfl, hne, -⟩
    · simp at hfloat
    · exact hne (List.eq_nil_of_length_eq_zero (by simpa using hlen))
  have hdrop : (int ++ (fs ++ es)).drop (int ++ fs).length = es := by
    rw [← List.append_assoc, List.drop_left]
  simp only [decimalPrefix, takeWhile_digits hdigits hstop, List.drop_left, fractionPrefix_eq hfs hes,
    hsome, if_false, hdrop, exponentPrefix_eq hes, List.append_assoc]

/-! ## The scan -/

theorem isDigit_of_digitValue (h : (digitValue 10 c).isSome) : isDigit c := by
  by_contra hc
  -- a letter's value is ten or more
  simp [digitValue, hc, UInt8.le_iff_toNat_le] at h
  grind

theorem accumulateDigits_split {prev : Bool} {value v : Nat}
    (h : accumulateDigits 10 prev value cur = (rest, .ok v)) :
    ∃ ds, cur = ds ++ rest ∧ ∀ c ∈ ds, isDigit c ∨ c = 95 := by
  induction cur generalizing prev value with
  | nil =>
    cases (Prod.mk.inj h).1
    exact ⟨[], rfl, by simp⟩
  | cons c cs ih =>
    -- one more byte of the digits, once it is known to be one
    have grow : ∀ prev value, accumulateDigits 10 prev value cs = (rest, .ok v) →
        (isDigit c ∨ c = 95) → ∃ ds, c :: cs = ds ++ rest ∧ ∀ c ∈ ds, isDigit c ∨ c = 95 := by
      intro prev value h hc
      obtain ⟨ds, rfl, hds⟩ := ih h
      exact ⟨c :: ds, rfl, List.forall_mem_cons.mpr ⟨hc, hds⟩⟩
    simp only [accumulateDigits] at h
    split at h
    · rename_i hc
      split at h
      · cases h
      · exact grow _ _ h (.inr hc)
    · split at h
      · cases (Prod.mk.inj h).1
        exact ⟨[], rfl, by simp⟩
      · rename_i hd
        split at h
        · cases h
        · exact grow _ _ h (.inl (isDigit_of_digitValue (by rw [hd]; rfl)))

theorem digits_split {t : Bytes} (h : t.head?.any isDigit) :
    ∃ ds, t = ds ++ t.dropWhile isDigit ∧ ds ≠ [] ∧ Digits ds := by
  refine ⟨t.takeWhile isDigit, List.takeWhile_append_dropWhile.symm, ?_, fun c hc =>
    List.mem_takeWhile_imp hc⟩
  cases t with
  | nil => cases h
  | cons c cs =>
    have hc : isDigit c := by simpa using h
    simp [hc]

theorem floatFraction_split (h : floatFraction cur = .ok rest) :
    ∃ fs, cur = fs ++ rest ∧ Fraction fs ∧ (cur.head? = some 46 → fs ≠ []) := by
  unfold floatFraction at h
  split at h
  · rename_i hdot
    obtain ⟨cs, rfl⟩ := List.head?_eq_some_iff.mp hdot
    split at h
    · rename_i hd
      cases h
      obtain ⟨ds, heq, hne, hds⟩ := digits_split hd
      refine ⟨46 :: ds, ?_, .inr ⟨ds, rfl, hne, hds⟩, by simp⟩
      exact congrArg (46 :: ·) heq
    · cases h
  · rename_i hdot
    cases h
    exact ⟨[], rfl, .inl rfl, fun h => absurd h hdot⟩

theorem skipSign_split (cs : Bytes) :
    ∃ s, cs = s ++ skipSign cs ∧ (s = [] ∨ ∃ c, s = [c] ∧ isSign c) := by
  unfold skipSign
  split
  · rename_i hsign
    rcases hsign with hs | hs <;> obtain ⟨cs, rfl⟩ := List.head?_eq_some_iff.mp hs
    · exact ⟨[43], rfl, .inr ⟨43, rfl, by decide⟩⟩
    · exact ⟨[45], rfl, .inr ⟨45, rfl, by decide⟩⟩
  · exact ⟨[], rfl, .inl rfl⟩

theorem floatExponent_split (h : floatExponent cur = .ok rest) :
    ∃ es, cur = es ++ rest ∧ Exponent es ∧ (cur.head?.any isMarker → es ≠ []) := by
  unfold floatExponent at h
  split at h
  · rename_i hm
    obtain ⟨m, cs, rfl, hmark⟩ : ∃ m cs, cur = m :: cs ∧ isMarker m := by
      rcases hm with hm | hm <;> obtain ⟨cs, rfl⟩ := List.head?_eq_some_iff.mp hm
      · exact ⟨_, cs, rfl, by decide⟩
      · exact ⟨_, cs, rfl, by decide⟩
    obtain ⟨s, hsplit, hs⟩ := skipSign_split cs
    dsimp only [List.tail_cons] at h
    split at h
    · rename_i hd
      cases h
      obtain ⟨ds, heq, hne, hds⟩ := digits_split hd
      refine ⟨m :: (s ++ ds), ?_, .inr ⟨m, s, ds, rfl, hmark, hs, hne, hds⟩, by simp⟩
      rw [List.cons_append, List.append_assoc, ← heq, ← hsplit]
    · cases h
  · rename_i hm
    cases h
    refine ⟨[], rfl, .inl rfl, fun hmark => absurd ?_ hm⟩
    cases cur with
    | nil => cases hmark
    | cons m cs => simpa [isMarker] using hmark

theorem findSuffix_split {α : Type} {table : List (Bytes × α)} {a : α}
    (h : findSuffix table cur = some (rest, a)) : ∃ e ∈ table, cur = e.1 ++ rest := by
  obtain ⟨e, he, hmatch⟩ := List.exists_of_findSome?_eq_some h
  refine ⟨e, he, ?_⟩
  simp only [suffixAt] at hmatch
  split at hmatch
  · rename_i hcond
    cases hmatch
    exact (List.prefix_iff_eq_append.mp (List.isPrefixOf_iff_prefix.mp hcond.1)).symm
  · cases hmatch

theorem applyDurationSuffix_suffix (value : Int) (cur : Bytes) :
    (applyDurationSuffix value cur).1 <:+ cur := by
  unfold applyDurationSuffix
  split
  · exact List.suffix_refl _
  · rename_i h
    obtain ⟨e, -, rfl⟩ := findSuffix_split h
    exact List.suffix_append _ _

theorem take_span {pre : Bytes} (h : cur = pre ++ rest) :
    cur.take (cur.length - rest.length) = pre := by
  subst h
  rw [List.length_append, Nat.add_sub_cancel, List.take_left]

theorem angle_last {unit : Nat} (hcur : cur <:+ l.cur)
    (h : findSuffix angleSuffixes cur = some (rest, unit)) :
    ¬ (l.cur.take (l.cur.length - rest.length)).getLast?.any isDigit := by
  obtain ⟨e, he, rfl⟩ := findSuffix_split h
  obtain ⟨pre, hpre⟩ := hcur
  have hall : ∀ e ∈ angleSuffixes, e.1.getLast?.any (!isDigit ·) := by decide
  have hd := hall e he
  rw [@take_span _ _ (pre ++ e.1) (by rw [List.append_assoc, hpre]), List.getLast?_append]
  cases hlast : e.1.getLast? with
  | none => rw [hlast] at hd; cases hd
  | some c => simpa [hlast] using hd

/-! ## The value -/

def ReadsFloat (host : FloatHost) (l : ULexer) (lit : Bytes) : Prop :=
  ∃ v, (scanToken host l).1.u = .f v ∧ l.cur.take (scanToken host l).1.len = lit ∧
    lit.getLast?.any isDigit

structure FloatScan (cur mid rest : Bytes) : Prop where
  fraction : floatFraction cur = .ok mid
  exponent : floatExponent mid = .ok rest
  noDuration : findSuffix durationSuffixes rest = none
  noAngle : findSuffix angleSuffixes rest = none

theorem FloatScan.scanFloatBody_eq {mid : Bytes} (h : FloatScan cur mid rest) (host : FloatHost)
    (l : ULexer) : scanFloatBody host l cur =
      if !isFinite (floatValue host l rest) then l.fail .floatOverflow rest
      else l.emit .float rest (.f (floatValue host l rest)) := by
  simp only [scanFloatBody, h.fraction, h.exponent, h.noDuration, h.noAngle]

theorem floatScan_of_reads {v : UInt64} (hcur : cur <:+ l.cur)
    (hu : (scanFloatBody host l cur).1.u = .f v)
    (hlast : (l.cur.take (scanFloatBody host l cur).1.len).getLast?.any isDigit) :
    ∃ mid rest, FloatScan cur mid rest ∧ (scanFloatBody host l cur).1.len =
      l.cur.length - rest.length := by
  cases hf : floatFraction cur with
  | error mid =>
    simp only [scanFloatBody, hf] at hu
    cases hu
  | ok mid =>
    cases he : floatExponent mid with
    | error rest =>
      simp only [scanFloatBody, hf, he] at hu
      cases hu
    | ok rest =>
      obtain ⟨fs, hfs, -⟩ := floatFraction_split hf
      obtain ⟨es, hes, -⟩ := floatExponent_split he
      have hrest : rest <:+ l.cur :=
        ((List.suffix_append es rest).trans (hes ▸ hfs ▸ List.suffix_append fs mid)).trans hcur
      simp only [scanFloatBody, hf, he] at hu hlast ⊢
      generalize floatValue host l rest = val at hu hlast ⊢
      cases hfin : isFinite val
      · simp only [hfin] at hu
        cases hu
      · cases hdur : findSuffix durationSuffixes rest with
        | some r =>
          simp only [hfin, hdur] at hu
          cases hm : host.micros val r.2 <;> simp only [hm] at hu <;> cases hu
        | none =>
          cases hang : findSuffix angleSuffixes rest with
          | some r =>
            simp only [hfin, hdur, hang] at hlast
            exact absurd hlast (angle_last hrest hang)
          | none => exact ⟨mid, rest, ⟨hf, he, hdur, hang⟩, rfl⟩

theorem failDigits_u (l : ULexer) (code : ULexError) (cur : Bytes) :
    (l.failDigits code cur).1.u = .err code code.message := by
  simp only [ULexer.failDigits]
  split <;> rfl

theorem dispatchRadixPrefix_u {r : UToken × ULexer} (v : UInt64)
    (h : dispatchRadixPrefix l = some r) : r.1.u ≠ .f v := by
  have hradix : ∀ base bad cur, (scanRadix l base bad cur).1.u ≠ .f v := by
    intro base bad cur
    unfold scanRadix
    repeat' split
    all_goals simp [ULexer.fail, failDigits_u]
  unfold dispatchRadixPrefix at h
  split at h
  · split at h
    · cases h
    iterate 3
      split at h
      · cases h
        exact hradix _ _ _
    split at h <;> cases h
    simp [ULexer.fail]
  · cases h

theorem lexString_u (l : ULexer) (v : UInt64) : (lexString l).1.u ≠ .f v := by
  unfold lexString
  split
  · simp [ULexer.fail]
  · split <;> simp [ULexer.fail, ULexer.tok]

theorem scanQuotedIdent_u (l : ULexer) (v : UInt64) : (scanQuotedIdent l).1.u ≠ .f v := by
  unfold scanQuotedIdent
  dsimp only
  split
  · split <;> simp [ULexer.fail]
  · simp [ULexer.fail]

def FloatStart (int cur : Bytes) : Prop :=
  (∀ c ∈ int, isDigit c ∨ c = 95) ∧
    (cur.head? = some 46 ∨ (int ≠ [] ∧ cur.head?.any isMarker))

theorem scanNumber_reads {cs : Bytes} {v : UInt64} (hcur : l.cur = c :: cs) (hc : isDigit c)
    (hu : (scanNumber host l).1.u = .f v)
    (hlast : (l.cur.take (scanNumber host l).1.len).getLast?.any isDigit) :
    ∃ int cur, l.cur = int ++ cur ∧ FloatStart int cur ∧
      ∀ host', scanNumber host' l = scanFloatBody host' l cur := by
  cases hr : dispatchRadixPrefix l with
  | some r =>
    simp only [scanNumber, hr] at hu
    exact absurd hu (dispatchRadixPrefix_u v hr)
  | none =>
    generalize ha : accumulateDigits 10 false 0 l.cur = a
    obtain ⟨cur, _ | value⟩ := a
    · simp only [scanNumber, hr, ha, failDigits_u] at hu
      cases hu
    · obtain ⟨int, hint, hgrouped⟩ := accumulateDigits_split ha
      by_cases hstart : (cur.head? = some 46 ∧ cur.tail.head?.all isDigit) ∨ cur.head? = some 101 ∨
          cur.head? = some 69
      · refine ⟨int, cur, hint, ⟨hgrouped, ?_⟩, fun host' => ?_⟩
        · rcases hstart with hdot | hmark
          · exact .inl hdot.1
          · refine .inr ⟨?_, ?_⟩
            · -- the first byte is a digit, and the literal does not begin with its marker
              rintro rfl
              rw [List.nil_append] at hint
              rw [← hint, hcur] at hmark
              rcases hmark with h | h <;> cases h <;> exact absurd hc (by decide)
            · rcases hmark with h | h <;> rw [h] <;> decide
        · simp only [scanNumber, hr, ha, hstart, if_true]
      · simp only [scanNumber, hr, ha, hstart, if_false] at hu hlast
        have hsuffix := (applyDurationSuffix_suffix value cur).trans
          (hint ▸ List.suffix_append int cur)
        generalize applyDurationSuffix (↑value) cur = d at hu hlast hsuffix
        obtain ⟨rest, _ | us⟩ := d
        · cases hu
        · cases hang : findSuffix angleSuffixes rest with
          | some r =>
            simp only [hang] at hlast
            exact absurd hlast (angle_last hsuffix hang)
          | none =>
            simp only [hang] at hu
            cases hu

theorem scanToken_reads (h : ReadsFloat host l lit) :
    ∃ int cur, l.cur = int ++ cur ∧ FloatStart int cur ∧
      ∀ host', scanToken host' l = scanFloatBody host' l cur := by
  obtain ⟨v, hu, rfl, hlast⟩ := h
  unfold scanToken at hu hlast ⊢
  cases hcur : l.cur with
  | nil =>
    simp only [hcur] at hu
    cases hu
  | cons c cs =>
    simp only [hcur] at hu hlast ⊢
    by_cases hquote : c = 34
    · simp only [hquote, if_true] at hu
      exact absurd hu (lexString_u l v)
    by_cases hsingle : c = 39
    · rw [if_neg hquote, if_pos hsingle] at hu
      exact absurd hu (scanQuotedIdent_u l v)
    simp only [hquote, hsingle, if_false] at hu hlast ⊢
    by_cases hdot : c = 46 ∧ cs.head?.any isDigit
    · simp only [hdot, and_self, if_true]
      exact ⟨[], 46 :: cs, rfl, ⟨by simp, .inl rfl⟩, fun _ => rfl⟩
    simp only [hdot, if_false] at hu hlast ⊢
    cases hp : punctTable.lookup c with
    | some type =>
      simp only [hp] at hu
      cases hu
    | none =>
      simp only [hp] at hu hlast ⊢
      cases ho : operators.find? fun op => op.1.isPrefixOf (c :: cs) with
      | some op =>
        simp only [ho] at hu
        cases hu
      | none =>
        simp only [ho] at hu hlast ⊢
        by_cases hd : isDigit c
        · simp only [hd, if_true] at hu hlast ⊢
          rw [← hcur] at hlast ⊢
          exact scanNumber_reads hcur hd hu hlast
        · simp only [hd] at hu
          by_cases hi : isIdentStart c
          · simp only [hi, if_true] at hu
            cases hu
          · simp only [hi] at hu
            cases hu

theorem ReadsFloat.spec (h : ReadsFloat host l lit) :
    Nonempty (FloatText lit) ∧ ∀ conv v, (scanToken (host.converting conv) l).1.u = .f v ↔
      v = conv (decimalPrefix (lit.take 63)) ∧ isFinite v := by
  obtain ⟨int, cur, hcur, ⟨hgrouped, hstart⟩, hscan⟩ := scanToken_reads h
  obtain ⟨v, hu, hlit, hlast⟩ := h
  rw [hscan host] at hu hlit
  rw [← hlit] at hlast
  obtain ⟨mid, rest, hfloat, hlen⟩ :=
    floatScan_of_reads (hcur ▸ List.suffix_append int cur) hu hlast
  obtain ⟨fs, hfs, hfraction, hpoint⟩ := floatFraction_split hfloat.fraction
  obtain ⟨es, hes, hexponent, hmarker⟩ := floatExponent_split hfloat.exponent
  have hspan : l.cur.take (l.cur.length - rest.length) = int ++ (fs ++ es) :=
    take_span (by simp [hcur, hfs, hes])
  rw [hlen] at hlit
  constructor
  · refine ⟨⟨int, fs, es, hlit ▸ hspan, hgrouped, hfraction, hexponent, ?_⟩⟩
    rcases hstart with hdot | ⟨hint, hmark⟩
    · exact .inl (hpoint hdot)
    · by_cases hnil : fs = []
      · rw [hfs, hnil, List.nil_append] at hmark
        exact .inr ⟨hint, hmarker hmark⟩
      · exact .inl hnil
  · intro conv v
    have hvalue : floatValue (host.converting conv) l rest = conv (decimalPrefix (lit.take 63)) := by
      rw [floatValue, hlit]
      rfl
    rw [hscan, hfloat.scanFloatBody_eq, hvalue]
    generalize conv (decimalPrefix (lit.take 63)) = val
    cases hfin : isFinite val
    · simp only [ULexer.fail, emit_u, Bool.not_false, if_true, reduceCtorEq, false_iff]
      rintro ⟨rfl, hv⟩
      rw [hfin] at hv
      cases hv
    · simp only [Bool.not_true, Bool.false_eq_true, if_false, emit_u, UTokenValue.f.injEq]
      constructor
      · rintro rfl
        exact ⟨rfl, hfin⟩
      · rintro ⟨rfl, -⟩
        rfl

def withoutUnderscores (lit : Bytes) : Bytes := lit.filter (· ≠ 95)

theorem withoutUnderscores_eq_self {t : Bytes} (h : (95 : UInt8) ∉ t) : withoutUnderscores t = t := by
  apply List.filter_eq_self.mpr
  intro c hc
  have hne : c ≠ 95 := fun h95 => h (h95 ▸ hc)
  simpa using hne

theorem decimalPrefix_eq_iff (t : FloatText lit) (hlast : lit.getLast?.any isDigit) :
    decimalPrefix (lit.take 63) = withoutUnderscores lit ↔ (95 : UInt8) ∉ lit ∧ lit.length ≤ 63 := by
  constructor
  · intro h
    obtain ⟨hpre, hno⟩ := part_decimalPrefix (lit.take 63)
    have hlen : (decimalPrefix (lit.take 63)).length ≤ 63 :=
      hpre.length_le.trans (List.length_take_le 63 lit)
    obtain ⟨q, hq⟩ := hpre.trans (List.take_prefix 63 lit)
    generalize decimalPrefix (lit.take 63) = p at h hno hlen hq
    -- what is left behind the prefix is underscores, and the last byte is none
    have hrest : q.filter (· ≠ 95) = [] := by
      have hp : p.filter (· ≠ 95) = p := withoutUnderscores_eq_self hno
      rw [withoutUnderscores, ← hq, List.filter_append, hp] at h
      simpa using h
    have hnil : q = [] := by
      by_contra hne
      obtain ⟨c, hc⟩ := Option.ne_none_iff_exists'.mp (mt List.getLast?_eq_none_iff.mp hne)
      rw [← hq, List.getLast?_append, hc] at hlast
      have h95 : c = 95 := by
        have := List.filter_eq_nil_iff.mp hrest c (List.mem_of_getLast? hc)
        simpa using this
      exact ne_underscore_of_digit (by simpa using hlast) h95
    rw [hnil, List.append_nil] at hq
    exact hq ▸ ⟨hno, hlen⟩
  · rintro ⟨hno, hlen⟩
    rw [List.take_of_length_le hlen, t.decimalPrefix_eq hno, withoutUnderscores_eq_self hno]

/-- Whatever the conversion, the value of a float literal without a suffix is that of its whole text
without the underscores exactly if the text has no underscore and at most 63 bytes. -/
theorem float_literal_value_iff (host : FloatHost) (l : ULexer) (lit : Bytes)
    (h : ReadsFloat host l lit) :
    (∀ conv v, (scanToken (host.converting conv) l).1.u = .f v → v = conv (withoutUnderscores lit)) ↔
      (95 : UInt8) ∉ lit ∧ lit.length ≤ 63 := by
  obtain ⟨⟨t⟩, hspec⟩ := h.spec
  obtain ⟨-, -, -, hlast⟩ := h
  rw [← decimalPrefix_eq_iff t hlast]
  constructor
  · intro hall
    -- a conversion that tells the two texts apart
    let conv : Bytes → UInt64 := fun p => if p = withoutUnderscores lit then 0 else 1
    by_contra hne
    have hval : conv (decimalPrefix (lit.take 63)) = 1 := if_neg hne
    have hconv := hall conv 1 ((hspec conv 1).mpr ⟨hval.symm, by decide⟩)
    rw [show conv (withoutUnderscores lit) = 0 from if_pos rfl] at hconv
    exact absurd hconv (by decide)
  · intro heq conv v hv
    rw [((hspec conv v).mp hv).1, heq]

theorem float_literal_value_half :
    withoutUnderscores (ascii "2.5e1") = ascii "2.5e1" ∧
      ∀ conv v,
        (scanToken (FloatHost.converting default conv) (ulexInit (ascii "2.5e1"))).1.u = .f v →
          v = conv (ascii "2.5e1") :=
  ⟨rfl, (float_literal_value_iff default (ulexInit (ascii "2.5e1")) (ascii "2.5e1")
    ⟨0, rfl, rfl, rfl⟩).mpr ⟨by decide, by decide⟩⟩

/-- `1_000.5` is read as one literal of seven bytes and given the value of `1`. -/
theorem grouped_float_loses_digits :
    let conv : Bytes → UInt64 := fun text =>
      if text = ascii "1000.5" then 0x408F440000000000 else 0x3FF0000000000000
    (scanToken (FloatHost.converting default conv) (ulexInit (ascii "1_000.5"))).1 =
        ⟨.float, 1, 1, 7, .f 0x3FF0000000000000⟩ ∧
      decimalPrefix (ascii "1_000.5") = ascii "1" ∧
      withoutUnderscores (ascii "1_000.5") = ascii "1000.5" := by
  exact ⟨rfl, rfl, rfl⟩

end Urbi.Lex
