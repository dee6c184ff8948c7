import Mathlib.Data.List.DropRight
import Urbi.Lib.Json
import Urbi.Repl.Frame
import Urbi.Repl.Ndjson

/-!
# Requests

The request side of `urepl_ndjson.c` scans for four keys and skips any other member by counting
brackets.
-/

namespace Urbi.Repl

open Urbi.Lib
variable {rest s t v w x : List UInt8} {c d : UInt8}

def maxCode : Nat := 2 ^ 20

def maxWhat : Nat := 32

inductive UReplOp where
  | eval
  | introspect
  deriving DecidableEq, Repr

structure UReplNdjsonReq where
  id : UInt64 := 0
  -- `UREPL_OP_NONE` is `none`
  op : Option UReplOp := none
  code : Option (List UInt8) := none
  what : Option (List UInt8) := none
  deriving DecidableEq

/-! ## The scanner -/

def skipWs (s : List UInt8) : List UInt8 := s.dropWhile Json.isWs

def expect (c : UInt8) (s : List UInt8) : Option (List UInt8) :=
  match skipWs s with
  | [] => none
  | d :: s => if d = c then some s else none

/-- From behind the opening quote: the body, the length reserved for it and what follows the closing
quote. -/
def scanString : List UInt8 → Option (List UInt8 × Nat × List UInt8)
  | [] => none
  | 34 :: s => some ([], 0, s)
  | 92 :: 117 :: a :: b :: c :: d :: s =>
    if [a, b, c, d].all Json.isHex then
      (scanString s).map fun r => (92 :: 117 :: a :: b :: c :: d :: r.1, r.2.1 + 3, r.2.2)
    else none
  | 92 :: e :: s =>
    if (Json.unescape e).isSome then
      (scanString s).map fun r => (92 :: e :: r.1, r.2.1 + 1, r.2.2)
    else none
  | c :: s =>
    if c < 32 then none else (scanString s).map fun r => (c :: r.1, r.2.1 + 1, r.2.2)

def hexValue (h : UInt8) : Nat :=
  if Json.isDigit h then h.toNat - 48
  else if 97 ≤ h ∧ h ≤ 102 then h.toNat - 97 + 10
  else h.toNat - 65 + 10

def encodeUnicode (cp : Nat) : List UInt8 :=
  if cp < 0x80 then [.ofNat cp]
  else if cp < 0x800 then [.ofNat (0xC0 + cp / 64), .ofNat (0x80 + cp % 64)]
  else if 0xD800 ≤ cp ∧ cp ≤ 0xDFFF then [0xEF, 0xBF, 0xBD]
  else [.ofNat (0xE0 + cp / 4096), .ofNat (0x80 + cp / 64 % 64), .ofNat (0x80 + cp % 64)]

def decodeString : List UInt8 → Option (List UInt8)
  | [] => some []
  | 92 :: 117 :: a :: b :: c :: d :: s =>
    (decodeString s).map
      (encodeUnicode ([a, b, c, d].foldl (fun cp h => cp * 16 + hexValue h) 0) ++ ·)
  | 92 :: e :: s => (Json.unescape e).bind fun c => (decodeString s).map (c :: ·)
  | c :: s => (decodeString s).map (c :: ·)

/-- A refused `malloc` fails like a bad string and is not modelled. -/
def parseString (maxLen : Nat) (s : List UInt8) : Option (List UInt8 × List UInt8) :=
  match skipWs s with
  | 34 :: s => do
    let (body, n, rest) ← scanString s
    if maxLen < n then none else (decodeString body).map (·, rest)
  | _ => none

def digits (v : Nat) : List UInt8 → Option (Nat × List UInt8)
  | [] => some (v, [])
  | c :: s =>
    if Json.isDigit c then
      let digit := c.toNat - 48
      if (18446744073709551615 - digit) / 10 < v then none else digits (v * 10 + digit) s
    else some (v, c :: s)

def parseUint64 (s : List UInt8) : Option (UInt64 × List UInt8) :=
  match skipWs s with
  | [] => none
  | c :: s => if Json.isDigit c then (digits 0 (c :: s)).map fun r => (.ofNat r.1, r.2) else none

/-- Through brackets to the one that closes `depth` of them.  A string at the top is one at depth 0.
-/
def skipNested (opening closing : UInt8) : Nat → Bool → List UInt8 → Option (List UInt8)
  | 0, false, s => some s
  | _, _, [] => none
  | depth, true, c :: s =>
    if c = 34 then skipNested opening closing depth false s
    else if c = 92 then
      match s with
      | [] => none
      | _ :: s => skipNested opening closing depth true s
    else skipNested opening closing depth true s
  | depth + 1, false, c :: s =>
    if c = 34 then skipNested opening closing (depth + 1) true s
    else if c = opening then skipNested opening closing (depth + 2) false s
    else if c = closing then skipNested opening closing depth false s
    else skipNested opening closing (depth + 1) false s

def skipWord (word s : List UInt8) : Option (List UInt8) :=
  if word.isPrefixOf s then some (s.drop word.length) else none

def skipValue (s : List UInt8) : Option (List UInt8) :=
  match skipWs s with
  | [] => none
  | c :: s =>
    if c = 34 then skipNested 0 0 0 true s
    else if c = 45 ∨ Json.isDigit c then
      some ((if c = 45 then s else c :: s).dropWhile Json.isNumeric)
    else if c = 116 then skipWord (lit "true") (c :: s)
    else if c = 102 then skipWord (lit "false") (c :: s)
    else if c = 110 then skipWord (lit "null") (c :: s)
    else if c = 91 then skipNested 91 93 1 false s
    else if c = 123 then skipNested 123 125 1 false s
    else none

/-! ## The parse -/

def opFromName (name : List UInt8) : Option UReplOp :=
  if name = lit "eval" then some .eval
  else if name = lit "introspect" then some .introspect
  else none

def parseValue (req : UReplNdjsonReq) (key s : List UInt8) :
    Option (UReplNdjsonReq × List UInt8) :=
  if cstr key = lit "id" then (parseUint64 s).map fun r => ({ req with id := r.1 }, r.2)
  else if cstr key = lit "op" then
    (parseString 32 s).bind fun r => (opFromName r.1).map fun op => ({ req with op := some op }, r.2)
  else if cstr key = lit "code" then
    if req.code.isSome then none
    else (parseString maxCode s).map fun r => ({ req with code := some r.1 }, r.2)
  else if cstr key = lit "what" then
    if req.what.isSome then none
    else (parseString maxWhat s).map fun r => ({ req with what := some r.1 }, r.2)
  else (skipValue s).map (req, ·)

def parseMember (req : UReplNdjsonReq) (s : List UInt8) :
    Option (UReplNdjsonReq × List UInt8) := do
  let (key, s) ← parseString 64 s
  let s ← expect 58 s
  parseValue req key (skipWs s)

/-- A turn reads at least a byte, so the bytes left are turns enough. -/
def parseMembers : Nat → Bool → UReplNdjsonReq → List UInt8 → Option UReplNdjsonReq
  | 0, _, _, _ => none
  | turns + 1, first, req, s =>
    match skipWs s with
    | [] => none
    | c :: s =>
      if c = 125 then if req.op = none then none else some req
      else
        (if first then some (c :: s) else expect 44 (c :: s)).bind fun s =>
          (parseMember req s).bind fun r => parseMembers turns false r.1 r.2

def ureplNdjsonParse (line : List UInt8) : Option UReplNdjsonReq :=
  if maxLine < line.length then none
  else (expect 123 line).bind fun s =>
    if (skipWs s).head? = some 125 then none else parseMembers line.length true {} s

/-! ## Blanks and strings -/

theorem skipWs_append (hw : Json.Blank w) (s : List UInt8) :
    skipWs (w ++ s) = skipWs s := List.dropWhile_append_of_pos hw

theorem exists_blank (s : List UInt8) : ∃ w, Json.Blank w ∧ s = w ++ skipWs s :=
  ⟨s.takeWhile Json.isWs, fun _ hc => List.mem_takeWhile_imp hc, List.takeWhile_append_dropWhile.symm⟩

theorem blank_of_skipWs (h : skipWs s = t) : ∃ w, Json.Blank w ∧ s = w ++ t := by
  subst h
  exact exists_blank s

theorem expect_spec (h : expect c s = some rest) : ∃ w, Json.Blank w ∧ s = w ++ c :: rest := by
  unfold expect at h
  split at h
  · cases h
  · rename_i d s' hs
    obtain ⟨rfl, hrest⟩ := Option.ite_none_right_eq_some.mp h
    cases hrest
    exact blank_of_skipWs hs

theorem scanString_spec {body : List UInt8} {n : Nat} (h : scanString s = some (body, n, rest)) :
    Json.Chars body ∧ s = body ++ 34 :: rest := by
  fun_induction scanString s generalizing body n with
  | case1 | case4 | case6 | case7 => cases h
  | case2 => cases h; exact ⟨.nil, rfl⟩
  | case3 a b c d s hex ih =>
    obtain ⟨⟨body', n', rest'⟩, hs, heq⟩ := Option.map_eq_some_iff.mp h
    cases heq
    obtain ⟨hbody, rfl⟩ := ih hs
    exact ⟨.unicode hex hbody, rfl⟩
  | case5 e s hne he ih =>
    obtain ⟨⟨body', n', rest'⟩, hs, heq⟩ := Option.map_eq_some_iff.mp h
    cases heq
    obtain ⟨hbody, rfl⟩ := ih hs
    exact ⟨.escape he hbody, rfl⟩
  | case8 c s hquote hu hesc hc ih =>
    obtain ⟨⟨body', n', rest'⟩, hs, heq⟩ := Option.map_eq_some_iff.mp h
    cases heq
    obtain ⟨hbody, rfl⟩ := ih hs
    refine ⟨.char (UInt8.not_lt.mp hc) hquote (fun hback => ?_) hbody, rfl⟩
    obtain ⟨e, s, hcons⟩ := List.exists_cons_of_ne_nil
      (List.append_ne_nil_of_right_ne_nil body' (List.cons_ne_nil 34 rest'))
    exact hesc e s hback hcons

theorem parseString_spec {maxLen : Nat} {bytes : List UInt8}
    (h : parseString maxLen s = some (bytes, rest)) :
    ∃ w body, Json.Blank w ∧ Json.Chars body ∧ decodeString body = some bytes ∧
      s = w ++ 34 :: (body ++ 34 :: rest) := by
  unfold parseString at h
  split at h
  · rename_i s' hs
    obtain ⟨⟨body, n, rest'⟩, hscan, h⟩ := Option.bind_eq_some_iff.mp h
    obtain ⟨-, h⟩ := Option.ite_none_left_eq_some.mp h
    obtain ⟨_, hbytes, heq⟩ := Option.map_eq_some_iff.mp h
    cases heq
    obtain ⟨hbody, rfl⟩ := scanString_spec hscan
    obtain ⟨w, hw, rfl⟩ := blank_of_skipWs hs
    exact ⟨w, body, hw, hbody, hbytes, rfl⟩
  · cases h

/-! ## Skipping a value -/

section Nested

variable {opening closing : UInt8} {depth : Nat}

theorem skipNested_string (c : UInt8) (s : List UInt8) :
    skipNested opening closing depth true (c :: s) =
      if c = 34 then skipNested opening closing depth false s
      else if c = 92 then
        match s with
        | [] => none
        | _ :: s => skipNested opening closing depth true s
      else skipNested opening closing depth true s := by
  cases depth <;> rw [skipNested.eq_def]

theorem skipNested_chars {b : List UInt8} (h : Json.Chars b) (s : List UInt8) :
    skipNested opening closing depth true (b ++ 34 :: s) =
      skipNested opening closing depth false s := by
  have hhex : ∀ c, Json.isHex c = true → c ≠ 34 ∧ c ≠ 92 := by
    rintro c hc
    constructor <;> rintro rfl <;> revert hc <;> decide
  induction h with
  | nil => simp [skipNested_string]
  | char hc hquote hback _ ih => simpa [skipNested_string, hquote, hback] using ih
  | escape _ _ ih => simpa [skipNested_string] using ih
  | unicode hex _ ih =>
    simp only [List.all_cons, List.all_nil, Bool.and_true, Bool.and_eq_true] at hex
    obtain ⟨ha, hb, hc, hd⟩ := hex
    simpa [skipNested_string, hhex _ ha, hhex _ hb, hhex _ hc, hhex _ hd] using ih

theorem skipNested_plain (h : ∀ c ∈ t, c ≠ 34 ∧ c ≠ opening ∧ c ≠ closing) (s : List UInt8) :
    skipNested opening closing (depth + 1) false (t ++ s) =
      skipNested opening closing (depth + 1) false s := by
  induction t with
  | nil => rfl
  | cons c t ih =>
    obtain ⟨hquote, hopen, hclose⟩ := h c List.mem_cons_self
    rw [List.cons_append, skipNested, if_neg hquote, if_neg hopen, if_neg hclose]
    exact ih fun c hc => h c (List.mem_cons_of_mem _ hc)

def isInert (c : UInt8) : Bool :=
  Json.isNumeric c || Json.isWs c || (lit "trufalsn,:").contains c

/-- The brackets of the other kind are not counted, and need not be. -/
theorem skipNested_text {k : Json.Part} (h : Json.Text k t)
    (hb : opening = 91 ∧ closing = 93 ∨ opening = 123 ∧ closing = 125) (s : List UInt8) :
    skipNested opening closing (depth + 1) false (t ++ s) =
      skipNested opening closing (depth + 1) false s := by
  have inert : ∀ {t : List UInt8}, t.all isInert = true → ∀ {depth s},
      skipNested opening closing (depth + 1) false (t ++ s) =
        skipNested opening closing (depth + 1) false s := by
    intro t ht depth s
    refine skipNested_plain (fun c hc => ?_) s
    have hc := List.all_eq_true.mp ht c hc
    rcases hb with ⟨rfl, rfl⟩ | ⟨rfl, rfl⟩ <;>
      refine ⟨?_, ?_, ?_⟩ <;> rintro rfl <;> revert hc <;> decide
  have blank : ∀ {w : List UInt8}, Json.Blank w → w.all isInert = true := by
    intro w hw
    exact List.all_eq_true.mpr fun c hc => by simp [isInert, hw c hc]
  have quoted : ∀ {b : List UInt8}, Json.Chars b → ∀ {depth s},
      skipNested opening closing (depth + 1) false (34 :: (b ++ 34 :: s)) =
        skipNested opening closing (depth + 1) false s := by
    intro b hchars depth s
    rw [skipNested, if_pos rfl, skipNested_chars hchars]
  induction h generalizing depth s with
  | true | false | null => exact inert (by decide)
  | number hn =>
    exact inert (List.all_eq_true.mpr fun c hc => by simp [isInert, hn.numeric c hc])
  | string hchars => simpa using quoted hchars
  | array _ ih | object _ ih =>
    rcases hb with ⟨rfl, rfl⟩ | ⟨rfl, rfl⟩ <;> simp [skipNested, ih]
  | empty hw => exact inert (blank hw)
  | full _ ih | last _ ih => exact ih s
  | more _ _ ihi iht =>
    rw [List.append_assoc, ihi, List.cons_append]
    exact (inert (t := [44]) (by decide)).trans (iht s)
  | element hw _ hw' ih =>
    rw [List.append_assoc, inert (blank hw), List.append_assoc, ih, inert (blank hw')]
  | member hw hchars hw' _ ih =>
    rw [List.append_assoc, inert (blank hw), List.cons_append, List.append_assoc, List.cons_append,
      quoted hchars, List.append_assoc, inert (blank hw'), List.cons_append]
    exact (inert (t := [58]) (by decide)).trans (ih s)

end Nested

def Follows (x : List UInt8) : Prop := ∀ c ∈ x.head?, Json.isNumeric c = false

theorem dropWhile_numeric (ht : ∀ c ∈ t, Json.isNumeric c = true) (hx : Follows x) :
    (t ++ x).dropWhile Json.isNumeric = x := by
  rw [List.dropWhile_append_of_pos ht]
  cases x with
  | nil => rfl
  | cons c x => exact List.dropWhile_cons_of_neg (by simp [hx c rfl])

theorem not_isWs_of_isNumeric (h : Json.isNumeric c = true) : ¬ Json.isWs c = true := by
  intro hws
  simp only [Json.isWs, Bool.or_eq_true, beq_iff_eq] at hws
  rcases hws with ((rfl | rfl) | rfl) | rfl <;> revert h <;> decide

theorem skipValue_number (hc : c = 45 ∨ Json.isDigit c = true)
    (ht : ∀ a ∈ c :: t, Json.isNumeric a = true) (hx : Follows x) :
    skipValue (c :: (t ++ x)) = some x := by
  have hnum := ht c List.mem_cons_self
  have hquote : c ≠ 34 := by
    rintro rfl
    revert hnum
    decide
  unfold skipValue skipWs
  rw [List.dropWhile_cons_of_neg (not_isWs_of_isNumeric hnum)]
  dsimp only
  rw [if_neg hquote, if_pos hc]
  split
  · rw [dropWhile_numeric (fun a ha => ht a (List.mem_cons_of_mem _ ha)) hx]
  · rw [← List.cons_append, dropWhile_numeric ht hx]

theorem skipValue_string {b : List UInt8} (hb : Json.Chars b) (x : List UInt8) :
    skipValue (34 :: (b ++ 34 :: x)) = some x := by
  show skipNested 0 0 0 true (b ++ 34 :: x) = some x
  rw [skipNested_chars hb, skipNested]

theorem skipValue_text (hv : Json.Text .value v) (hx : Follows x) :
    skipValue (v ++ x) = some x := by
  cases hv with
  | true | false | null => rfl
  | number hn =>
    obtain ⟨c, t, rfl, hc⟩ := hn.head
    exact skipValue_number hc hn.numeric hx
  | string hchars => simpa using skipValue_string hchars x
  | @array t h =>
    show skipNested 91 93 1 false (t ++ [93] ++ x) = some x
    rw [List.append_assoc, skipNested_text h (.inl ⟨rfl, rfl⟩)]
    simp [skipNested]
  | @object t h =>
    show skipNested 123 125 1 false (t ++ [125] ++ x) = some x
    rw [List.append_assoc, skipNested_text h (.inr ⟨rfl, rfl⟩)]
    simp [skipNested]

theorem follows_blank (hw : Json.Blank w) (hd : d = 44 ∨ d = 93 ∨ d = 125) (t : List UInt8) :
    Follows (w ++ d :: t) := by
  intro c hc
  cases w with
  | nil =>
    cases hc
    rcases hd with rfl | rfl | rfl <;> rfl
  | cons a w =>
    cases hc
    by_contra hnum
    exact not_isWs_of_isNumeric (by simpa using hnum) (hw c List.mem_cons_self)

/-- A value of any nesting is skipped to its end, and no further. -/
theorem skipValue_ends_at_value (hv : Json.Text .value v) (hw : Json.Blank w)
    (hd : d = 44 ∨ d = 93 ∨ d = 125) (t : List UInt8) :
    skipValue (v ++ (w ++ d :: t)) = some (w ++ d :: t) :=
  skipValue_text hv (follows_blank hw hd t)

theorem skipValue_ends_at_bracket : skipValue (lit "[[\"]\"]] ,") = some (lit " ,") := by
  have hstring : Json.Text .value (lit "\"]\"") :=
    .string (.char (by decide) (by decide) (by decide) .nil)
  have hin : Json.Text .value (lit "[\"]\"]") :=
    .array (.full (.last (@Json.Text.element [] _ [] nofun hstring nofun)))
  have hout : Json.Text .value (lit "[[\"]\"]]") :=
    .array (.full (.last (@Json.Text.element [] _ [] nofun hin nofun)))
  exact @skipValue_ends_at_value _ [32] 44 hout (by simp [Json.Blank, Json.isWs]) (.inl rfl) []

/-! ## What is accepted

The scanner checks less than the grammar of JSON: what a skipped value may be is said here in a
grammar of its own. -/

/-- Between the quotes of a skipped string: a backslash takes any byte with it. -/
inductive Strung : List UInt8 → Prop
  | nil : Strung []
  | char {c : UInt8} {t : List UInt8} : c ≠ 34 → c ≠ 92 → Strung t → Strung (c :: t)
  | escape {e : UInt8} {t : List UInt8} : Strung t → Strung (92 :: e :: t)

/-- Brackets of one kind match, outside strings. -/
inductive Balanced (opening closing : UInt8) : List UInt8 → Prop
  | nil : Balanced opening closing []
  | other {c : UInt8} {t : List UInt8} : c ≠ 34 → c ≠ opening → c ≠ closing →
      Balanced opening closing t → Balanced opening closing (c :: t)
  | string {b t : List UInt8} : Strung b → Balanced opening closing t →
      Balanced opening closing (34 :: (b ++ 34 :: t))
  | nest {b t : List UInt8} : Balanced opening closing b → Balanced opening closing t →
      Balanced opening closing (opening :: (b ++ closing :: t))

inductive Skipped : List UInt8 → Prop
  | string {b : List UInt8} : Strung b → Skipped (34 :: (b ++ [34]))
  | number {c : UInt8} {t : List UInt8} : c = 45 ∨ Json.isDigit c = true →
      (∀ d ∈ t, Json.isNumeric d = true) → Skipped (c :: t)
  | word {t : List UInt8} : t ∈ [lit "true", lit "false", lit "null"] → Skipped t
  | array {b : List UInt8} : Balanced 91 93 b → Skipped (91 :: (b ++ [93]))
  | object {b : List UInt8} : Balanced 123 125 b → Skipped (123 :: (b ++ [125]))

/-- The values that the four keys may have, and those of any other. -/
def Value (key v : List UInt8) : Prop :=
  if cstr key = lit "id" then Json.Digits v
  else if cstr key ∈ [lit "op", lit "code", lit "what"] then ∃ b, Json.Chars b ∧ v = 34 :: (b ++ [34])
  else Skipped v

inductive Members : List UInt8 → Prop
  | one {w b key w₁ w₂ v w₃ : List UInt8} : Json.Blank w → Json.Chars b →
      decodeString b = some key → Json.Blank w₁ → Json.Blank w₂ → Value key v → Json.Blank w₃ →
      Members (w ++ 34 :: (b ++ 34 :: (w₁ ++ 58 :: (w₂ ++ (v ++ w₃)))))
  | more {m t : List UInt8} : Members m → Members t → Members (m ++ 44 :: t)

/-- One object, and whatever follows it. -/
def Scanned (line : List UInt8) : Prop :=
  ∃ w t rest, Json.Blank w ∧ Members t ∧ line = w ++ 123 :: (t ++ 125 :: rest)

section Balanced

variable {opening closing : UInt8} {depth : Nat}

theorem skipNested_strung (h : skipNested opening closing depth true s = some rest) :
    ∃ b t, s = b ++ 34 :: t ∧ Strung b ∧ skipNested opening closing depth false t = some rest := by
  generalize hin : true = inString at h
  fun_induction skipNested opening closing depth inString s with
  | case1 | case7 | case8 | case9 | case10 => cases hin
  | case2 | case4 => cases h
  | case3 => exact ⟨[], _, rfl, .nil, h⟩
  | case5 _ _ _ _ ih =>
    obtain ⟨b, t, rfl, hb, ht⟩ := ih rfl h
    exact ⟨_, t, rfl, .escape hb, ht⟩
  | case6 _ _ _ hquote hback ih =>
    obtain ⟨b, t, rfl, hb, ht⟩ := ih rfl h
    exact ⟨_, t, rfl, .char hquote hback hb, ht⟩

/-- One bracket is closed, and the rest is left to the depth below. -/
theorem skipNested_balanced (h : skipNested opening closing (depth + 1) false s = some rest) :
    ∃ b t, s = b ++ closing :: t ∧ Balanced opening closing b ∧
      skipNested opening closing depth false t = some rest := by
  induction hn : s.length using Nat.strong_induction_on generalizing s depth with
  | _ n ih =>
    subst hn
    cases s with
    | nil => cases h
    | cons c s =>
      rw [skipNested] at h
      split at h
      · rename_i hquote
        obtain ⟨b, t, rfl, hb, h⟩ := skipNested_strung h
        obtain ⟨b', t', rfl, hb', h⟩ := ih t.length (by simp; omega) h rfl
        exact ⟨_, t', by simp [hquote], .string hb hb', h⟩
      split at h
      · rename_i hopen
        obtain ⟨b, t, rfl, hb, h⟩ := ih s.length (by simp) h rfl
        obtain ⟨b', t', rfl, hb', h⟩ := ih t.length (by simp; omega) h rfl
        exact ⟨_, t', by simp [hopen], .nest hb hb', h⟩
      split at h
      · rename_i hclose
        exact ⟨[], s, by rw [hclose]; rfl, .nil, h⟩
      · obtain ⟨b, t, rfl, hb, h⟩ := ih s.length (by simp) h rfl
        exact ⟨_, t, rfl, .other ‹_› ‹_› ‹_› hb, h⟩

end Balanced

theorem skipWord_spec {word : List UInt8} (h : skipWord word s = some rest) : s = word ++ rest := by
  obtain ⟨hp, h⟩ := Option.ite_none_right_eq_some.mp h
  cases h
  exact (List.prefix_iff_eq_append.mp (List.isPrefixOf_iff_prefix.mp hp)).symm

theorem skipValue_skipped (h : skipValue s = some rest) :
    ∃ w v, Json.Blank w ∧ Skipped v ∧ s = w ++ (v ++ rest) := by
  have hbracket : ∀ {o c : UInt8} {s : List UInt8}, skipNested o c 1 false s = some rest →
      ∃ b, Balanced o c b ∧ o :: s = o :: (b ++ [c]) ++ rest := by
    intro o c s h
    obtain ⟨b, t, rfl, hb, h⟩ := skipNested_balanced h
    rw [skipNested, Option.some.injEq] at h
    exact ⟨b, hb, by simp [h]⟩
  unfold skipValue at h
  split at h
  · cases h
  · rename_i c s' hs
    obtain ⟨w, hw, rfl⟩ := blank_of_skipWs hs
    suffices hv : ∃ v, Skipped v ∧ c :: s' = v ++ rest by
      obtain ⟨v, hv, heq⟩ := hv
      exact ⟨w, v, hw, hv, by rw [heq]⟩
    split at h
    · rename_i hc
      obtain ⟨b, t, rfl, hb, h⟩ := skipNested_strung h
      rw [skipNested, Option.some.injEq] at h
      exact ⟨_, .string hb, by simp [hc, h]⟩
    split at h
    · rename_i hc
      cases h
      refine ⟨c :: s'.takeWhile Json.isNumeric, .number hc fun d hd => List.mem_takeWhile_imp hd, ?_⟩
      have hdrop : (if c = 45 then s' else c :: s').dropWhile Json.isNumeric =
          s'.dropWhile Json.isNumeric := by
        split
        · rfl
        · rename_i hne
          exact List.dropWhile_cons_of_pos (by simp [Json.isNumeric, hc.resolve_left hne])
      rw [hdrop, List.cons_append, List.takeWhile_append_dropWhile]
    split at h
    · exact ⟨_, .word (by simp), skipWord_spec h⟩
    split at h
    · exact ⟨_, .word (by simp), skipWord_spec h⟩
    split at h
    · exact ⟨_, .word (by simp), skipWord_spec h⟩
    split at h
    · rename_i hc
      obtain ⟨b, hb, heq⟩ := hbracket h
      exact ⟨_, .array hb, hc ▸ heq⟩
    · obtain ⟨hc, h⟩ := Option.ite_none_right_eq_some.mp h
      obtain ⟨b, hb, heq⟩ := hbracket h
      exact ⟨_, .object hb, hc ▸ heq⟩

theorem digits_rest {v n : Nat} (h : digits v s = some (n, rest)) :
    rest = s.dropWhile Json.isDigit := by
  fun_induction digits v s with
  | case1 => cases h; rfl
  | case2 => cases h
  | case3 v c s hc digit hle ih => rw [List.dropWhile_cons_of_pos hc]; exact ih h
  | case4 v c s hc => cases h; exact (List.dropWhile_cons_of_neg hc).symm

theorem parseUint64_spec {n : UInt64} (h : parseUint64 s = some (n, rest)) :
    ∃ w v, Json.Blank w ∧ Json.Digits v ∧ s = w ++ (v ++ rest) := by
  unfold parseUint64 at h
  split at h
  · cases h
  · rename_i c s' hs
    obtain ⟨hc, hread⟩ := Option.ite_none_right_eq_some.mp h
    obtain ⟨⟨n', rest'⟩, hdigits, heq⟩ := Option.map_eq_some_iff.mp hread
    cases heq
    obtain ⟨w, hw, rfl⟩ := blank_of_skipWs hs
    obtain rfl := digits_rest hdigits
    refine ⟨w, (c :: s').takeWhile Json.isDigit, hw, ⟨?_, fun d hd => List.mem_takeWhile_imp hd⟩,
      by rw [List.takeWhile_append_dropWhile]⟩
    rw [List.takeWhile_cons_of_pos hc]
    exact List.cons_ne_nil _ _

theorem parseValue_spec {req req' : UReplNdjsonReq} {key : List UInt8}
    (h : parseValue req key s = some (req', rest)) :
    ∃ w v, Json.Blank w ∧ Value key v ∧ s = w ++ (v ++ rest) := by
  unfold parseValue at h
  by_cases hid : cstr key = lit "id"
  · rw [if_pos hid] at h
    obtain ⟨r, hread, heq⟩ := Option.map_eq_some_iff.mp h
    cases heq
    obtain ⟨w, v, hw, hv, hs⟩ := parseUint64_spec hread
    exact ⟨w, v, hw, by rwa [Value, if_pos hid], hs⟩
  rw [if_neg hid] at h
  have hstring : ∀ {maxLen} {r : List UInt8 × List UInt8},
      cstr key ∈ [lit "op", lit "code", lit "what"] → parseString maxLen s = some r →
        ∃ w v, Json.Blank w ∧ Value key v ∧ s = w ++ (v ++ r.2) := by
    rintro maxLen ⟨bytes, rest⟩ hkey h
    obtain ⟨w, body, hw, hbody, -, rfl⟩ := parseString_spec h
    refine ⟨w, 34 :: (body ++ [34]), hw, ?_, by simp⟩
    rw [Value, if_neg hid, if_pos hkey]
    exact ⟨body, hbody, rfl⟩
  split at h
  · rename_i hkey
    obtain ⟨r, hread, hop⟩ := Option.bind_eq_some_iff.mp h
    obtain ⟨_, _, heq⟩ := Option.map_eq_some_iff.mp hop
    cases heq
    exact hstring (by simp [hkey]) hread
  split at h
  · rename_i hkey
    obtain ⟨-, hcode⟩ := Option.ite_none_left_eq_some.mp h
    obtain ⟨r, hread, heq⟩ := Option.map_eq_some_iff.mp hcode
    cases heq
    exact hstring (by simp [hkey]) hread
  split at h
  · rename_i hkey
    obtain ⟨-, hwhat⟩ := Option.ite_none_left_eq_some.mp h
    obtain ⟨r, hread, heq⟩ := Option.map_eq_some_iff.mp hwhat
    cases heq
    exact hstring (by simp [hkey]) hread
  · rename_i hop hcode hwhat
    obtain ⟨r, hread, heq⟩ := Option.map_eq_some_iff.mp h
    cases heq
    obtain ⟨w, v, hw, hv, hs⟩ := skipValue_skipped hread
    exact ⟨w, v, hw, by rwa [Value, if_neg hid, if_neg (by simp [hop, hcode, hwhat])], hs⟩

theorem parseMember_spec {req req' : UReplNdjsonReq} (h : parseMember req s = some (req', rest))
    (hw : Json.Blank w) (hrest : rest = w ++ x) : ∃ m, Members m ∧ s = m ++ x := by
  obtain ⟨⟨key, s₁⟩, hkey, h⟩ := Option.bind_eq_some_iff.mp h
  obtain ⟨s₂, hcolon, hvalue⟩ := Option.bind_eq_some_iff.mp h
  obtain ⟨w₀, b, hw₀, hb, hdecode, rfl⟩ := parseString_spec hkey
  obtain ⟨w₁, hw₁, rfl⟩ := expect_spec hcolon
  obtain ⟨w₂, hw₂, hs₂⟩ := exists_blank s₂
  obtain ⟨w₃, v, hw₃, hv, hs⟩ := parseValue_spec hvalue
  subst hrest
  refine ⟨_, .one hw₀ hb hdecode hw₁ (hw₂.append hw₃) hv hw, ?_⟩
  rw [hs₂, hs]
  simp

theorem Members.blank_append (hw : Json.Blank w) (h : Members t) : Members (w ++ t) := by
  induction h with
  | one hw₀ hb hdecode hw₁ hw₂ hv hw₃ =>
    rw [← List.append_assoc]
    exact .one (hw.append hw₀) hb hdecode hw₁ hw₂ hv hw₃
  | more _ ht ihm _ =>
    rw [← List.append_assoc]
    exact .more ihm ht

/-- The first turn takes a member, every later one a comma and a member. -/
theorem parseMembers_spec {turns : Nat} {first : Bool} {req req' : UReplNdjsonReq}
    (h : parseMembers turns first req s = some req') :
    ∃ w t rest, Json.Blank w ∧ (s = w ++ 125 :: rest ∨
      s = w ++ ((if first then [] else [44]) ++ (t ++ 125 :: rest)) ∧ Members t) := by
  induction turns generalizing first req s with
  | zero => cases h
  | succ turns ih =>
    unfold parseMembers at h
    split at h
    · cases h
    · rename_i c s' hs
      obtain ⟨w, hw, rfl⟩ := blank_of_skipWs hs
      split at h
      · rename_i hc
        exact ⟨w, [], s', hw, .inl (by rw [hc])⟩
      · obtain ⟨s₁, hcomma, h⟩ := Option.bind_eq_some_iff.mp h
        obtain ⟨⟨req₁, rest₁⟩, hmember, h⟩ := Option.bind_eq_some_iff.mp h
        obtain ⟨w₁, t₁, rest, hw₁, hrest⟩ := ih h
        obtain ⟨t, ht, rfl⟩ : ∃ t, Members t ∧ s₁ = t ++ 125 :: rest := by
          rcases hrest with hrest | ⟨hrest, ht₁⟩
          · exact parseMember_spec hmember hw₁ hrest
          · obtain ⟨m, hm, rfl⟩ := parseMember_spec hmember hw₁ hrest
            exact ⟨_, .more hm ht₁, by simp⟩
        cases first with
        | true =>
          obtain hcomma : c :: s' = t ++ 125 :: rest := Option.some.inj hcomma
          exact ⟨w, t, rest, hw, .inr ⟨by rw [hcomma]; rfl, ht⟩⟩
        | false =>
          obtain ⟨w', hw', hs'⟩ := expect_spec hcomma
          refine ⟨w ++ w', t, rest, hw.append hw', .inr ⟨?_, ht⟩⟩
          rw [hs', List.append_assoc]
          rfl

/-- **Accepted requests.**  A line is accepted only if it begins, after blanks, with one object whose
names are JSON strings, whose `op`, `code` and `what` are JSON strings, whose `id` is a run of digits
and whose other values `skip_value` can step over.  What follows the object is not looked at. -/
theorem accepted_scanned {line : List UInt8} (h : (ureplNdjsonParse line).isSome = true) :
    Scanned line := by
  obtain ⟨req, h⟩ := Option.isSome_iff_exists.mp h
  obtain ⟨-, h⟩ := Option.ite_none_left_eq_some.mp h
  obtain ⟨s, hbrace, h⟩ := Option.bind_eq_some_iff.mp h
  obtain ⟨hne, h⟩ := Option.ite_none_left_eq_some.mp h
  obtain ⟨w, hw, rfl⟩ := expect_spec hbrace
  obtain ⟨w', t, rest, hw', rfl | ⟨rfl, ht⟩⟩ := parseMembers_spec h
  · rw [skipWs_append hw'] at hne
    exact absurd rfl hne
  · exact ⟨w, w' ++ t, rest, hw, ht.blank_append hw', by simp⟩

/-- The bracket in the skipped value is closed by no bracket of its kind. -/
theorem accepted_scanned_bracket :
    let line := lit "\x7b\"op\":\"eval\",\"k\":[\x7d]\x7d"
    (ureplNdjsonParse line).isSome = true ∧ Scanned line :=
  ⟨by decide, accepted_scanned (by decide)⟩

def IsObject (line : List UInt8) : Prop :=
  ∃ w t w', Json.Blank w ∧ Json.Text (.content true) t ∧ Json.Blank w' ∧
    line = w ++ 123 :: (t ++ 125 :: w')

/-- Bytes after the object are not looked at. -/
theorem trailing_bytes_accepted :
    (ureplNdjsonParse (lit "\x7b\"op\":\"eval\"\x7dx")).isSome = true ∧
      ¬ IsObject (lit "\x7b\"op\":\"eval\"\x7dx") := by
  refine ⟨by decide, ?_⟩
  rintro ⟨w, t, w', -, -, hw', hline⟩
  have hsplit : w ++ 123 :: (t ++ 125 :: w') = (w ++ 123 :: t) ++ 125 :: w' := by simp
  have hlast : some 120 = (125 :: w').getLast? := by
    have h := congrArg List.getLast? (hline.trans hsplit)
    rw [List.getLast?_append, List.getLast?_cons, Option.some_or, ← List.getLast?_cons] at h
    rw [← h]
    decide
  rcases List.mem_cons.mp (List.mem_of_getLast? hlast.symm) with h | h
  · exact absurd h (by decide)
  · exact absurd (hw' 120 h) (by decide)

/-! ## Escaped strings -/

theorem hexDigit_control : ∀ n < 32,
    let a := hexDigit (UInt8.ofNat n >>> 4)
    let b := hexDigit (UInt8.ofNat n &&& 15)
    [48, 48, a, b].all Json.isHex = true ∧ (32 ≤ a ∧ 32 ≤ b) ∧
      encodeUnicode ([48, 48, a, b].foldl (fun cp h => cp * 16 + hexValue h) 0) =
        [UInt8.ofNat n] := by
  decide

theorem escapeByte_cases (c : UInt8) : escapeByte c = [c] ∧ 32 ≤ c ∧ c ≠ 34 ∧ c ≠ 92 ∨
    (∃ e, escapeByte c = [92, e] ∧ 32 ≤ e ∧ Json.unescape e = some c) ∨
    ∃ a b, escapeByte c = [92, 117, 48, 48, a, b] ∧ [48, 48, a, b].all Json.isHex = true ∧
      (32 ≤ a ∧ 32 ≤ b) ∧
      encodeUnicode ([48, 48, a, b].foldl (fun cp h => cp * 16 + hexValue h) 0) = [c] := by
  unfold escapeByte
  split
  · rename_i h
    rcases h with rfl | rfl
    · exact .inr (.inl ⟨34, rfl, by decide, rfl⟩)
    · exact .inr (.inl ⟨92, rfl, by decide, rfl⟩)
  rename_i hne
  split
  · subst c; exact .inr (.inl ⟨110, rfl, by decide, rfl⟩)
  split
  · subst c; exact .inr (.inl ⟨114, rfl, by decide, rfl⟩)
  split
  · subst c; exact .inr (.inl ⟨116, rfl, by decide, rfl⟩)
  split
  · subst c; exact .inr (.inl ⟨98, rfl, by decide, rfl⟩)
  split
  · subst c; exact .inr (.inl ⟨102, rfl, by decide, rfl⟩)
  split
  · rename_i hc
    have hhex := hexDigit_control c.toNat (UInt8.lt_iff_toNat_lt.mp hc)
    rw [UInt8.ofNat_toNat] at hhex
    exact .inr (.inr ⟨_, _, rfl, hhex⟩)
  · rename_i hc
    exact .inl ⟨rfl, UInt8.not_lt.mp hc, not_or.mp hne⟩

theorem escape_cons (c : UInt8) (src : List UInt8) : escape (c :: src) = escapeByte c ++ escape src :=
  List.flatMap_cons

theorem escape_printable (src : List UInt8) : ∀ b ∈ escape src, 32 ≤ b := by
  intro b hb
  obtain ⟨c, -, hb⟩ := List.mem_flatMap.mp hb
  rcases escapeByte_cases c with ⟨hc, h32, -⟩ | ⟨e, hc, h32, -⟩ | ⟨d, e, hc, -, ⟨hd, he⟩, -⟩
  all_goals
    rw [hc] at hb
    simp only [List.mem_cons, List.not_mem_nil, or_false] at hb
  · exact hb ▸ h32
  · rcases hb with rfl | rfl
    · decide
    · exact h32
  · rcases hb with rfl | rfl | rfl | rfl | rfl | rfl
    · decide
    · decide
    · decide
    · decide
    · exact hd
    · exact he

theorem scanString_escape (src rest : List UInt8) : ∃ n ≤ 3 * src.length,
    scanString (escape src ++ 34 :: rest) = some (escape src, n, rest) := by
  induction src with
  | nil => exact ⟨0, Nat.le_refl _, by rw [escape, List.flatMap_nil, List.nil_append, scanString]⟩
  | cons c src ih =>
    obtain ⟨n, hn, ih⟩ := ih
    rw [escape_cons, List.length_cons]
    rcases escapeByte_cases c with ⟨hc, h32, h34, h92⟩ | ⟨e, hc, -, he⟩ | ⟨a, b, hc, hhex, -⟩
    · refine ⟨n + 1, by omega, ?_⟩
      rw [hc, List.cons_append, List.nil_append, List.cons_append, scanString,
        if_neg (UInt8.not_lt.mpr h32), ih]
      · rfl
      · exact h34
      · exact fun _ _ _ _ _ h _ => absurd h h92
      · exact fun _ _ h _ => absurd h h92
    · refine ⟨n + 1, by omega, ?_⟩
      rw [hc]
      show scanString (92 :: e :: (escape src ++ 34 :: rest)) = _
      rw [scanString, if_pos (by rw [he]; rfl), ih]
      · rfl
      · rintro _ _ _ _ _ rfl -
        cases he
    · refine ⟨n + 3, by omega, ?_⟩
      rw [hc]
      show scanString (92 :: 117 :: 48 :: 48 :: a :: b :: (escape src ++ 34 :: rest)) = _
      rw [scanString, if_pos hhex, ih]
      rfl

theorem decodeString_escape (src : List UInt8) : decodeString (escape src) = some src := by
  induction src with
  | nil => rw [escape, List.flatMap_nil, decodeString]
  | cons c src ih =>
    rw [escape_cons]
    rcases escapeByte_cases c with ⟨hc, -, -, h92⟩ | ⟨e, hc, -, he⟩ | ⟨a, b, hc, -, -, hcp⟩
    · rw [hc, List.cons_append, List.nil_append, decodeString, ih]
      · rfl
      · exact fun _ _ _ _ _ h _ => absurd h h92
      · exact fun _ _ h _ => absurd h h92
    · rw [hc, List.cons_append, List.cons_append, List.nil_append, decodeString, he, ih]
      · rfl
      · rintro _ _ _ _ _ rfl -
        cases he
    · rw [hc]
      show decodeString (92 :: 117 :: 48 :: 48 :: a :: b :: escape src) = _
      rw [decodeString, hcp, ih]
      rfl

/-- What `urepl_json_escape` writes is the body of a string, closed by no quote of its own, and the
request side reads it back. -/
theorem parseString_jsonEscape {src out : List UInt8} {cap maxLen : Nat}
    (h : jsonEscape src cap = some out) (hmax : 3 * src.length ≤ maxLen) (rest : List UInt8) :
    (∀ b ∈ out, 32 ≤ b) ∧ Json.Chars out ∧
      parseString maxLen (34 :: (out ++ 34 :: rest)) = some (src, rest) := by
  obtain rfl : out = escape src := foldlM_escapeInto_sound h
  obtain ⟨n, hn, hscan⟩ := scanString_escape src rest
  refine ⟨escape_printable src, (scanString_spec hscan).1, ?_⟩
  rw [parseString, show skipWs (34 :: (escape src ++ 34 :: rest)) = _ from rfl]
  show ((scanString (escape src ++ 34 :: rest)).bind fun r => _) = _
  rw [hscan, Option.bind_some]
  dsimp only
  rw [if_neg (by omega), decodeString_escape]
  rfl

theorem parseString_jsonEscape_nul : jsonEscape [0, 34, 255] 16 = some (lit "\\u0000\\\"" ++ [255]) ∧
    parseString 9 (34 :: (lit "\\u0000\\\"" ++ [255] ++ [34])) = some ([0, 34, 255], []) :=
  ⟨by decide, (parseString_jsonEscape (by decide : jsonEscape [0, 34, 255] 16 = _) (by decide) []).2.2⟩

end Urbi.Repl
