import Urbi.Lex.Lexer

/-!
# Hidden names

The desugarer and the watch runtime keep their own names apart by a leading `0x01`.  A quoted name can
hold any byte but the quote and the newline, and a string that names a slot can hold any byte.
-/

namespace Urbi.Lex

abbrev hiddenPrefix : UInt8 := 1

/-- Eleven bytes of the tag at most, then the parser's serial. -/
def parseHiddenName (tag : Bytes) (serial : Nat) : Bytes :=
  hiddenPrefix :: (cstr tag).take 11 ++ ascii (toString (serial % 2 ^ 32))

/-- A name too long for its buffer has none. -/
def uwatchHiddenSym (name : Bytes) : Option Bytes :=
  if 192 < name.length + 1 then none else some (hiddenPrefix :: name)

inductive Generated : Bytes → Prop
  | ofLocal (tag : Bytes) (serial : Nat) : Generated (parseHiddenName tag serial)
  | ofSlot {name n : Bytes} : uwatchHiddenSym name = some n → Generated n

theorem Generated.head {n : Bytes} (h : Generated n) : ∃ m, n = hiddenPrefix :: m := by
  cases h with
  | ofLocal => exact ⟨_, rfl⟩
  | ofSlot h =>
    obtain ⟨-, h⟩ := Option.ite_none_left_eq_some.mp h
    exact ⟨_, (Option.some.inj h).symm⟩

inductive Lexing (host : FloatHost) (src : Bytes) : ULexer → Prop where
  | init : Lexing host src (ulexInit src)
  | next {l : ULexer} : Lexing host src l → Lexing host src (ulexNext host l).2

end Urbi.Lex
