import Mathlib.Data.UInt
import Mathlib.Tactic.Common

/-!
# JSON texts

The grammar of JSON over bytes.  A byte above 127 is an ordinary character of a string: which of them
are UTF-8 is not a matter of the grammar.
-/

namespace Urbi.Lib.Json

def isWs (c : UInt8) : Bool := c == 32 || c == 9 || c == 13 || c == 10

def isDigit (c : UInt8) : Bool := 48 ≤ c && c ≤ 57

def isHex (c : UInt8) : Bool := isDigit c || 97 ≤ c && c ≤ 102 || 65 ≤ c && c ≤ 70

def isNumeric (c : UInt8) : Bool := isDigit c || c == 46 || c == 101 || c == 69 || c == 43 || c == 45

def unescape (e : UInt8) : Option UInt8 :=
  [(34, 34), (92, 92), (47, 47), (98, 8), (102, 12), (110, 10), (114, 13), (116, 9)].lookup e

def Blank (w : List UInt8) : Prop := ∀ c ∈ w, isWs c = true

inductive Chars : List UInt8 → Prop
  | nil : Chars []
  | char {c t} : 32 ≤ c → c ≠ 34 → c ≠ 92 → Chars t → Chars (c :: t)
  | escape {e t} : (unescape e).isSome → Chars t → Chars (92 :: e :: t)
  | unicode {a b c d t} : [a, b, c, d].all isHex → Chars t →
      Chars (92 :: 117 :: a :: b :: c :: d :: t)

def Digits (ds : List UInt8) : Prop := ds ≠ [] ∧ ∀ d ∈ ds, isDigit d = true

inductive Number : List UInt8 → Prop
  | mk {sign int frac exp} : sign = [] ∨ sign = [45] →
      int = [48] ∨ Digits int ∧ int.head? ≠ some 48 →
      (frac = [] ∨ ∃ ds, frac = 46 :: ds ∧ Digits ds) →
      (exp = [] ∨ ∃ e s ds, exp = e :: (s ++ ds) ∧ (e = 101 ∨ e = 69) ∧
        (s = [] ∨ s = [43] ∨ s = [45]) ∧ Digits ds) →
      Number (sign ++ (int ++ (frac ++ exp)))

inductive Part where
  | value
  -- elements of an array, or members of an object
  | item (named : Bool)
  | items (named : Bool)
  | content (named : Bool)

inductive Text : Part → List UInt8 → Prop
  | true : Text .value [116, 114, 117, 101]
  | false : Text .value [102, 97, 108, 115, 101]
  | null : Text .value [110, 117, 108, 108]
  | number {t} : Number t → Text .value t
  | string {b} : Chars b → Text .value (34 :: (b ++ [34]))
  | array {t} : Text (.content .false) t → Text .value (91 :: (t ++ [93]))
  | object {t} : Text (.content .true) t → Text .value (123 :: (t ++ [125]))
  | empty {k w} : Blank w → Text (.content k) w
  | full {k t} : Text (.items k) t → Text (.content k) t
  | last {k i} : Text (.item k) i → Text (.items k) i
  | more {k i t} : Text (.item k) i → Text (.items k) t → Text (.items k) (i ++ 44 :: t)
  | element {w v w'} : Blank w → Text .value v → Blank w' → Text (.item .false) (w ++ (v ++ w'))
  | member {w b w' e} : Blank w → Chars b → Blank w' → Text (.item .false) e →
      Text (.item .true) (w ++ 34 :: (b ++ 34 :: (w' ++ 58 :: e)))

theorem Blank.append {w w' : List UInt8} (h : Blank w) (h' : Blank w') : Blank (w ++ w') :=
  fun c hc => (List.mem_append.mp hc).elim (h c) (h' c)

theorem Digits.numeric {ds : List UInt8} (h : Digits ds) : ∀ c ∈ ds, isNumeric c = true := by
  intro c hc
  simp [isNumeric, h.2 c hc]

theorem Number.numeric {t : List UInt8} (h : Number t) : ∀ c ∈ t, isNumeric c = true := by
  obtain ⟨hsign, hint, hfrac, hexp⟩ := h
  intro c hc
  simp only [List.mem_append] at hc
  rcases hc with hc | hc | hc | hc
  · rcases hsign with rfl | rfl
    · cases hc
    · rw [List.mem_singleton.mp hc]
      rfl
  · rcases hint with rfl | ⟨hint, -⟩
    · rw [List.mem_singleton.mp hc]
      rfl
    · exact hint.numeric c hc
  · rcases hfrac with rfl | ⟨ds, rfl, hds⟩
    · cases hc
    · rcases List.mem_cons.mp hc with rfl | hc
      · rfl
      · exact hds.numeric c hc
  · rcases hexp with rfl | ⟨e, s, ds, rfl, he, hs, hds⟩
    · cases hc
    · rcases List.mem_cons.mp hc with rfl | hc
      · rcases he with rfl | rfl <;> rfl
      · rcases List.mem_append.mp hc with hc | hc
        · rcases hs with rfl | rfl | rfl
          · cases hc
          · rw [List.mem_singleton.mp hc]
            rfl
          · rw [List.mem_singleton.mp hc]
            rfl
        · exact hds.numeric c hc

theorem Number.head {t : List UInt8} (h : Number t) :
    ∃ c s, t = c :: s ∧ (c = 45 ∨ isDigit c = true) := by
  obtain ⟨hsign, hint, -, -⟩ := h
  rcases hsign with rfl | rfl
  · rcases hint with rfl | ⟨⟨hne, hdigit⟩, -⟩
    · exact ⟨_, _, rfl, .inr rfl⟩
    · obtain ⟨c, ds, rfl⟩ := List.exists_cons_of_ne_nil hne
      exact ⟨_, _, rfl, .inr (hdigit c List.mem_cons_self)⟩
  · exact ⟨_, _, rfl, .inl rfl⟩

end Urbi.Lib.Json
