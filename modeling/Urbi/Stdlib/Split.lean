import Urbi.Emit.Ast
import Mathlib.Data.List.Infix

/-!
# Splitting and joining strings

`str_split` of `stdlib/atoms.c` and `join_core` of `stdlib/stdlib_join_core.h`.  A list that can grow
no further counts as refused.
-/

namespace Urbi.Stdlib

inductive Val where
  | str (bytes : Bytes)
  | other
  deriving DecidableEq, Repr

/-- `ustr_new` has room for the NUL behind the contents. -/
structure UStr (sizeMax : Nat) where
  bytes : Bytes
  fits : bytes.length < sizeMax

def Val.str? : Val → Option Bytes
  | .str bytes => some bytes
  | .other => none

inductive Thrown where
  | type (message : String)
  | range (message : String)
  | outOfMemory
  deriving DecidableEq, Repr

/-! ## split -/

def appendStr (granted : Nat → Bool) (acc : List Bytes) (piece : Bytes) :
    Except Thrown (List Bytes) :=
  if granted (2 * acc.length + 1) && granted (2 * acc.length + 2) then .ok (acc ++ [piece])
  else .error .outOfMemory

def splitBytes (granted : Nat → Bool) (acc : List Bytes) : Bytes → Except Thrown (List Bytes)
  | [] => .ok acc
  | c :: cs => (appendStr granted acc [c]).bind fun acc => splitBytes granted acc cs

/-- Every turn moves `i`, so the bytes of the string are turns enough. -/
def splitLoop (granted : Nat → Bool) (s sep : Bytes) :
    Nat → Nat → Nat → List Bytes → Except Thrown (List Bytes)
  | 0, start, _, acc => appendStr granted acc (s.drop start)
  | fuel + 1, start, i, acc =>
    if i + sep.length ≤ s.length then
      if (s.drop i).take sep.length = sep then
        (appendStr granted acc ((s.drop start).take (i - start))).bind
          (splitLoop granted s sep fuel (i + sep.length) (i + sep.length))
      else splitLoop granted s sep fuel start (i + 1) acc
    else appendStr granted acc (s.drop start)

def strSplit (granted : Nat → Bool) (self arg : Val) : Except Thrown (List Bytes) :=
  match self, arg with
  | .str s, .str sep =>
    if !granted 0 then .error .outOfMemory
    else if sep = [] then splitBytes granted [] s
    else splitLoop granted s sep s.length 0 0 []
  | _, _ => .error (.type "split: self and separator must be String")

/-! ## join -/

/-- Against the host's `SIZE_MAX`. -/
def joinSizeAdd (sizeMax total n : Nat) : Except Thrown Nat :=
  if sizeMax - 1 - total < n then
    .error (.range "join: result would exceed the maximum string size")
  else .ok (total + n)

def joinMeasure (sizeMax seplen : Nat) : Nat → List Val → Except Thrown Nat
  | total, [] => .ok total
  | _, .other :: _ => .error (.type "join: all elements must be String")
  | total, .str e :: es =>
    (joinSizeAdd sizeMax total e.length).bind fun total =>
      if es = [] then .ok total
      else (joinSizeAdd sizeMax total seplen).bind fun total => joinMeasure sizeMax seplen total es

def joinFill (sep : Bytes) : List Bytes → Bytes
  | [] => []
  | [e] => e
  | e :: es => e ++ (sep ++ joinFill sep es)

def joinCore (sizeMax : Nat) (granted : Nat → Bool) (sep : Bytes) (list : List Val) :
    Except Thrown Bytes :=
  (joinMeasure sizeMax sep.length 0 list).bind fun _ =>
    if !granted 0 || !granted 1 then .error .outOfMemory
    else .ok (joinFill sep (list.filterMap Val.str?))

/-! ## What the pieces are -/

def occurrences (sep : Bytes) : Nat → Bytes → Nat
  | _, [] => 0
  | 0, c :: cs =>
    if sep <+: c :: cs then 1 + occurrences sep (sep.length - 1) cs else occurrences sep 0 cs
  | skip + 1, _ :: cs => occurrences sep skip cs

theorem occurrences_skip (sep : Bytes) (skip : Nat) (s : Bytes) :
    occurrences sep skip s = occurrences sep 0 (s.drop skip) := by
  induction skip generalizing s with
  | zero => rfl
  | succ skip ih =>
    cases s with
    | nil => rfl
    | cons c cs => exact ih cs

variable {sep : Bytes}

theorem occurrences_of_isPrefix {s : Bytes} (hsep : sep ≠ []) (h : sep <+: s) :
    occurrences sep 0 s = 1 + occurrences sep 0 (s.drop sep.length) := by
  obtain ⟨b, bs, rfl⟩ := List.exists_cons_of_ne_nil hsep
  obtain ⟨t, rfl⟩ := h
  rw [List.cons_append, occurrences, if_pos (by simp), occurrences_skip]
  rfl

theorem occurrences_of_not {s : Bytes} {i : Nat} (hi : i < s.length)
    (h : ¬ sep <+: s.drop i) : occurrences sep 0 (s.drop i) = occurrences sep 0 (s.drop (i + 1)) := by
  rw [List.drop_eq_getElem_cons hi] at h ⊢
  rw [occurrences, if_neg h]

theorem occurrences_short {s : Bytes} (h : s.length < sep.length) : occurrences sep 0 s = 0 := by
  induction s with
  | nil => rfl
  | cons c cs ih =>
    rw [occurrences, if_neg fun hp => Nat.not_le_of_lt h hp.length_le]
    exact ih (Nat.lt_of_succ_lt h)

theorem exists_isPrefix_drop {t s : Bytes} {start : Nat} (h : sep <:+: t)
    (ht : t <+: s.drop start) :
    ∃ j, start ≤ j ∧ j + sep.length ≤ start + t.length ∧ sep <+: s.drop j := by
  obtain ⟨pre, post, rfl⟩ := h
  obtain ⟨rest, hrest⟩ := ht
  refine ⟨start + pre.length, Nat.le_add_right _ _, ?_, ?_⟩
  · simp only [List.length_append]
    omega
  · rw [← List.drop_drop, ← hrest]
    exact ⟨post ++ rest, by simp⟩

theorem joinFill_cons {e : Bytes} {es : List Bytes} (h : es ≠ []) :
    joinFill sep (e :: es) = e ++ (sep ++ joinFill sep es) := by
  obtain ⟨f, fs, rfl⟩ := List.exists_cons_of_ne_nil h
  rfl

theorem joinFill_cut (sep : Bytes) (acc : List Bytes) (p q : Bytes) :
    joinFill sep (acc ++ [p] ++ [q]) = joinFill sep (acc ++ [p ++ (sep ++ q)]) := by
  induction acc with
  | nil => rfl
  | cons e acc ih =>
    rw [List.cons_append, List.cons_append, List.cons_append, joinFill_cons (by simp),
      joinFill_cons (by simp), ih]

structure Pieces (s sep : Bytes) (ps : List Bytes) : Prop where
  joined : joinFill sep ps = s
  free : ∀ p ∈ ps, ¬ sep <:+: p
  count : ps.length = occurrences sep 0 s + 1

structure Splitting (s sep : Bytes) (start i : Nat) (acc : List Bytes) : Prop where
  start_le : start ≤ i
  le : i ≤ s.length
  joined : joinFill sep (acc ++ [s.drop start]) = s
  free : ∀ p ∈ acc, ¬ sep <:+: p
  clear : ∀ j, start ≤ j → j < i → ¬ sep <+: s.drop j
  count : acc.length + occurrences sep 0 (s.drop i) = occurrences sep 0 s

variable {granted : Nat → Bool}

section
variable {s sep : Bytes} {start i : Nat} {acc : List Bytes}

theorem Splitting.last (h : Splitting s sep start i acc) (hi : s.length < i + sep.length) :
    Pieces s sep (acc ++ [s.drop start]) where
  joined := h.joined
  free := by
    intro p hp hin
    rcases List.mem_append.mp hp with hp | hp
    · exact h.free p hp hin
    · rw [List.mem_singleton.mp hp] at hin
      obtain ⟨j, hstart, hj, hsep⟩ := exists_isPrefix_drop hin (List.prefix_refl _)
      have hle := h.start_le
      have hlen := h.le
      rw [List.length_drop] at hj
      exact h.clear j hstart (by omega) hsep
  count := by
    have hcount := h.count
    have hle := h.le
    have hshort : (s.drop i).length < sep.length := by
      rw [List.length_drop]
      omega
    rw [occurrences_short hshort] at hcount
    simp only [List.length_append, List.length_singleton]
    omega

theorem Splitting.cut (h : Splitting s sep start i acc) (hsep : sep ≠ [])
    (hlen : i + sep.length ≤ s.length) (hat : sep <+: s.drop i) :
    Splitting s sep (i + sep.length) (i + sep.length)
      (acc ++ [(s.drop start).take (i - start)]) where
  start_le := Nat.le_refl _
  le := hlen
  joined := by
    have hle := h.start_le
    obtain ⟨rest, hrest⟩ := hat
    have hdrop : s.drop (i + sep.length) = rest := by
      rw [← List.drop_drop, ← hrest, List.drop_left]
    have hopen : (s.drop start).take (i - start) ++ (sep ++ rest) = s.drop start := by
      rw [hrest, ← Nat.add_sub_cancel' hle, ← List.drop_drop, Nat.add_sub_cancel_left,
        List.take_append_drop]
    rw [hdrop, joinFill_cut, hopen]
    exact h.joined
  free := by
    intro p hp hin
    rcases List.mem_append.mp hp with hp | hp
    · exact h.free p hp hin
    · rw [List.mem_singleton.mp hp] at hin
      obtain ⟨j, hstart, hj, hsep'⟩ := exists_isPrefix_drop hin (List.take_prefix _ _)
      have hpos := List.length_pos_iff.mpr hsep
      have htake := List.length_take_le (i - start) (s.drop start)
      have hle := h.start_le
      exact h.clear j hstart (by omega) hsep'
  clear := by
    intro j hstart hj
    omega
  count := by
    have hcount := h.count
    rw [occurrences_of_isPrefix hsep hat, List.drop_drop] at hcount
    simp only [List.length_append, List.length_singleton]
    omega

theorem Splitting.advance (h : Splitting s sep start i acc) (hi : i < s.length)
    (hat : ¬ sep <+: s.drop i) : Splitting s sep start (i + 1) acc where
  start_le := Nat.le_succ_of_le h.start_le
  le := hi
  joined := h.joined
  free := h.free
  clear := by
    intro j hstart hj
    rcases Nat.lt_succ_iff_lt_or_eq.mp hj with hj | rfl
    · exact h.clear j hstart hj
    · exact hat
  count := by rw [← occurrences_of_not hi hat]; exact h.count

theorem appendStr_granted (h : ∀ k, granted k) (acc : List Bytes)
    (piece : Bytes) : appendStr granted acc piece = .ok (acc ++ [piece]) := by
  simp [appendStr, h]

theorem splitLoop_spec {fuel : Nat} (hg : ∀ k, granted k)
    (h : Splitting s sep start i acc) (hsep : sep ≠ []) (hfuel : s.length ≤ i + fuel) :
    ∃ ps, splitLoop granted s sep fuel start i acc = .ok ps ∧ Pieces s sep ps := by
  have hpos := List.length_pos_iff.mpr hsep
  induction fuel generalizing start i acc with
  | zero =>
    rw [splitLoop, appendStr_granted hg]
    exact ⟨_, rfl, h.last (by omega)⟩
  | succ fuel ih =>
    rw [splitLoop]
    split
    · rename_i hlen
      split
      · rename_i hat
        rw [appendStr_granted hg]
        exact ih (h.cut hsep hlen (List.prefix_iff_eq_take.mpr hat.symm)) (by omega)
      · rename_i hat
        have hnot := mt (fun hp => (List.prefix_iff_eq_take.mp hp).symm) hat
        exact ih (h.advance (by omega) hnot) (by omega)
    · rw [appendStr_granted hg]
      exact ⟨_, rfl, h.last (by omega)⟩

end

theorem splitBytes_spec (hg : ∀ k, granted k) (acc : List Bytes)
    (s : Bytes) : splitBytes granted acc s = .ok (acc ++ s.map fun c => [c]) := by
  induction s generalizing acc with
  | nil => simp [splitBytes]
  | cons c cs ih =>
    rw [splitBytes, appendStr_granted hg]
    exact (ih _).trans (by simp)

theorem joinFill_bytes (s : Bytes) : joinFill [] (s.map fun c => [c]) = s := by
  induction s with
  | nil => rfl
  | cons c cs ih =>
    cases cs with
    | nil => rfl
    | cons d ds => exact congrArg (c :: ·) ih

theorem joinMeasure_spec (sizeMax : Nat) (sep : Bytes) (total : Nat) (es : List Bytes)
    (h : total + (joinFill sep es).length < sizeMax) :
    ∃ n, joinMeasure sizeMax sep.length total (es.map .str) = .ok n := by
  induction es generalizing total with
  | nil => exact ⟨total, rfl⟩
  | cons e es ih =>
    have hadd : ∀ t n, t + n < sizeMax → joinSizeAdd sizeMax t n = .ok (t + n) := by
      intro t n hlt
      exact if_neg (by omega)
    rw [List.map_cons, joinMeasure]
    by_cases hnil : es = []
    · subst hnil
      rw [hadd total e.length h]
      exact ⟨_, rfl⟩
    · rw [joinFill_cons hnil] at h
      simp only [List.length_append] at h
      rw [hadd _ _ (by omega)]
      simp only [Except.bind, List.map_eq_nil_iff, hnil, if_false]
      rw [hadd _ _ (by omega)]
      exact ih _ (by omega)

theorem joinCore_spec {sizeMax : Nat} (hg : ∀ k, granted k)
    {s : Bytes} {ps : List Bytes} (hs : s.length < sizeMax) (h : joinFill sep ps = s) :
    joinCore sizeMax granted sep (ps.map .str) = .ok s := by
  obtain ⟨n, hn⟩ := joinMeasure_spec sizeMax sep 0 ps (by rw [h]; omega)
  have hstr : (ps.map Val.str).filterMap Val.str? = ps := by
    rw [List.filterMap_map]
    exact List.filterMap_some
  simp [joinCore, hn, Except.bind, hg, hstr, h]

/-- With every allocation granted `split` returns, `join` with the same separator gives the string
back, and a separator that is not empty occurs in no piece and once between any two. -/
theorem join_split (sizeMax : Nat) (split join : Nat → Bool) (s : UStr sizeMax) (sep : Bytes)
    (hsplit : ∀ k, split k) (hjoin : ∀ k, join k) :
    ∃ ps, strSplit split (.str s.bytes) (.str sep) = .ok ps ∧
      joinCore sizeMax join sep (ps.map .str) = .ok s.bytes ∧
      (sep ≠ [] → (∀ p ∈ ps, ¬ sep <:+: p) ∧ ps.length = occurrences sep 0 s.bytes + 1) := by
  obtain ⟨s, hs⟩ := s
  simp only [strSplit, hsplit, Bool.not_true, Bool.false_eq_true, if_false]
  by_cases hsep : sep = []
  · subst hsep
    rw [if_pos rfl, splitBytes_spec hsplit]
    exact ⟨_, rfl, joinCore_spec hjoin hs (joinFill_bytes s), fun h => absurd rfl h⟩
  · rw [if_neg hsep]
    have hinit : Splitting s sep 0 0 [] :=
      ⟨Nat.le_refl _, Nat.zero_le _, rfl, by simp, by simp, by simp⟩
    obtain ⟨ps, hps, hpieces⟩ := splitLoop_spec hsplit hinit hsep (Nat.le_add_left _ _)
    exact ⟨ps, hps, joinCore_spec hjoin hs hpieces.joined, fun _ => ⟨hpieces.free, hpieces.count⟩⟩

/-- Overlapping occurrences: the leftmost one is taken. -/
theorem join_split_overlapping :
    ∃ ps, strSplit (fun _ => true) (.str (ascii "xaaay")) (.str (ascii "aa")) = .ok ps ∧
      joinCore 256 (fun _ => true) (ascii "aa") (ps.map .str) = .ok (ascii "xaaay") ∧
      (ascii "aa" ≠ [] → (∀ p ∈ ps, ¬ ascii "aa" <:+: p) ∧
        ps.length = occurrences (ascii "aa") 0 (ascii "xaaay") + 1) :=
  join_split 256 (fun _ => true) (fun _ => true) ⟨ascii "xaaay", by decide⟩ (ascii "aa")
    (fun _ => rfl) (fun _ => rfl)

end Urbi.Stdlib
