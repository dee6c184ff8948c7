import Urbi.Emit.Ast

/-!
# The lexer

`lex/ulex.c`.  A lexer is what is left of the source, so that the length of a span is a difference of
two lengths; `lineLeft` is `end - line_start`, and a line is an unbounded integer.
-/

namespace Urbi.Lex

/-! ## Tokens -/

inductive UTokenType where
  | eof | int | float | string | ident
  | plus | minus | star | slash | lparen | rparen | pipe | semi | comma | amp | lbrace | rbrace
  | eq | eqeq | neq | lt | le | gt | ge
  | kwVar | kwFunction | kwReturn | kwIf | kwElse | kwWhile | kwLazy | kwClosure | kwTrue | kwFalse
  | kwNil | colon | dot | arrow | kwTry | kwCatch | kwFinally | kwThrow | kwAt | kwWhenever
  | kwWaituntil | kwEvery | kwOnleave | kwSync | kwAsync | kwDetach | kwDisown | question | bang
  | kwClass | kwPublic | kwThis | kwAssert | kwFor | kwBreak | kwContinue | kwSwitch | kwCase
  | kwDefault | lbracket | rbracket | fatArrow | plusEq | lshift | percent | ampamp | pipepipe
  | error
  deriving DecidableEq, Repr

inductive ULexError where
  | unknownChar | unterminatedBlockComment | ambiguousLeadingZero | emptyRadix | malformedHex
  | malformedBin | malformedOct | leadingUnderscore | trailingUnderscore | adjacentUnderscores
  | intOverflow | unterminatedString | invalidEscape | unicodeEscapeTooShort
  | unicodeEscapeOutOfRange | loneSurrogate | floatTrailingDot | floatExponentNoDigits
  | floatOverflow | unterminatedQuotedIdent | emptyQuotedIdent
  deriving DecidableEq, Repr

def ULexError.message : ULexError → String
  | unknownChar => "unknown character"
  | unterminatedBlockComment => "unterminated block comment"
  | ambiguousLeadingZero =>
    "ambiguous leading-zero numeric; use 0x / 0b / 0o or drop the leading zero"
  | emptyRadix => "empty radix literal"
  | malformedHex => "malformed hex literal"
  | malformedBin => "malformed binary literal"
  | malformedOct => "malformed octal literal"
  | leadingUnderscore => "leading underscore in numeric literal"
  | trailingUnderscore => "trailing underscore in numeric literal"
  | adjacentUnderscores => "adjacent underscores in numeric literal"
  | intOverflow => "integer literal exceeds INT64_MAX"
  | unterminatedString => "unterminated string literal"
  | invalidEscape => "invalid escape sequence in string literal"
  | unicodeEscapeTooShort => "unicode escape requires 4 hex digits"
  | unicodeEscapeOutOfRange => "unicode code point exceeds U+10FFFF"
  | loneSurrogate => "unicode escape resolves to a lone surrogate"
  | floatTrailingDot => "float literal has no fraction digits after the decimal point"
  | floatExponentNoDigits => "float literal exponent marker has no digits"
  | floatOverflow => "float literal exceeds representable range"
  | unterminatedQuotedIdent => "unterminated quoted identifier (missing closing single-quote)"
  | emptyQuotedIdent => "empty quoted identifier ('' is not a valid name)"

inductive UTokenValue where
  | none
  | i (v : Int)
  | f (bits : UInt64)
  | str (text : Bytes)
  | err (code : ULexError) (message : String)
  deriving DecidableEq, Repr

structure UToken where
  type : UTokenType
  line : Int
  col : Nat
  len : Nat
  u : UTokenValue
  deriving DecidableEq, Repr

/-! ## The state -/

inductive UFile where
  | stdin
  | slot (i : Nat)
  deriving DecidableEq, Repr

abbrev synclineStackMax : Nat := 4

abbrev synclineNameMax : Nat := 256

/-- The last syncline pushed comes first; a slot of the pool holds the bytes copied into it, without
the NUL. -/
structure ULexer where
  cur : Bytes
  line : Int
  lineLeft : Nat
  sourceName : UFile
  synclineStack : List (UFile × Nat)
  namePool : Nat → Bytes
  poolIdx : Nat

def ulexInit (src : Bytes) : ULexer where
  cur := src
  line := 1
  lineLeft := src.length
  sourceName := .stdin
  synclineStack := []
  namePool _ := []
  poolIdx := 0

/-- The double arithmetic of the host: `strtod`, `(double)value`, a duration in microseconds (none
from `2 ^ 63` on), and `value / from * to` of an angle. -/
structure FloatHost where
  strtod : Bytes → UInt64
  ofInt : Int → UInt64
  micros : UInt64 → Int → Option Int
  radians : UInt64 → Nat → UInt64
  deriving Inhabited

/-- Neither an infinity nor a NaN: `val - val` is zero. -/
def isFinite (bits : UInt64) : Bool := bits &&& 0x7FF0000000000000 != 0x7FF0000000000000

namespace ULexer

def tok (l : ULexer) (type : UTokenType) (cur : Bytes) (u : UTokenValue) : UToken where
  type := type
  line := l.line
  col := l.lineLeft - l.cur.length + 1
  len := l.cur.length - cur.length
  u := u

def emit (l : ULexer) (type : UTokenType) (cur : Bytes) (u : UTokenValue) : UToken × ULexer :=
  (l.tok type cur u, { l with cur })

def fail (l : ULexer) (code : ULexError) (cur : Bytes) : UToken × ULexer :=
  l.emit .error cur (.err code code.message)

def newline (l : ULexer) (cur : Bytes) : ULexer :=
  { l with cur, line := l.line + 1, lineLeft := cur.length }

end ULexer

/-! ## Bytes -/

def isDigit (c : UInt8) : Bool := 48 ≤ c && c ≤ 57

def isIdentStart (c : UInt8) : Bool := (97 ≤ c && c ≤ 122) || (65 ≤ c && c ≤ 90) || c == 95

def isIdentCont (c : UInt8) : Bool := isIdentStart c || isDigit c

def digitValue (base : Nat) (c : UInt8) : Option Nat :=
  let v? := if isDigit c then some (c.toNat - 48)
    else if 97 ≤ c ∧ c ≤ 102 then some (c.toNat - 87)
    else if 65 ≤ c ∧ c ≤ 70 then some (c.toNat - 55) else none
  v?.filter (· < base)

abbrev int64Max : Nat := 2 ^ 63 - 1

def isDigitOrUnderscore (base : Nat) (c : UInt8) : Bool := (digitValue base c).isSome || c == 95

/-! ## Numbers -/

/-- `prev` is whether an underscore has just been read. -/
def accumulateDigits (base : Nat) (prev : Bool) (value : Nat) : Bytes → Bytes × Except ULexError Nat
  | [] => ([], if prev then .error .trailingUnderscore else .ok value)
  | c :: cs =>
    if c = 95 then
      if prev then (c :: cs, .error .adjacentUnderscores)
      else accumulateDigits base true value cs
    else match digitValue base c with
      | none => (c :: cs, if prev then .error .trailingUnderscore else .ok value)
      | some d =>
        if (int64Max - d) / base < value then
          ((c :: cs).dropWhile (isDigitOrUnderscore base), .error .intOverflow)
        else accumulateDigits base false (value * base + d) cs

/-- Two adjacent underscores are reported with the second, which is not read. -/
def ULexer.failDigits (l : ULexer) (code : ULexError) (cur : Bytes) : UToken × ULexer :=
  let r := l.fail code cur
  (if code = .adjacentUnderscores then { r.1 with len := r.1.len + 1 } else r.1, r.2)

def scanRadix (l : ULexer) (base : Nat) (malformed : ULexError) (cur : Bytes) : UToken × ULexer :=
  match cur with
  | [] => l.fail .emptyRadix cur
  | c :: cs =>
    if c = 95 then l.fail .leadingUnderscore (cur.dropWhile (isDigitOrUnderscore base))
    else if (digitValue base c).isNone then
      if isIdentCont c then l.fail malformed cs else l.fail .emptyRadix cur
    else match accumulateDigits base false 0 cur with
      | (cur, .error code) => l.failDigits code cur
      | (cur, .ok value) => l.emit .int cur (.i value)

/-- None is the fall-through to a decimal. -/
def dispatchRadixPrefix (l : ULexer) : Option (UToken × ULexer) :=
  match l.cur with
  | z :: c :: cs =>
    if z ≠ 48 then none
    else if c = 120 ∨ c = 88 then some (scanRadix l 16 .malformedHex cs)
    else if c = 98 ∨ c = 66 then some (scanRadix l 2 .malformedBin cs)
    else if c = 111 ∨ c = 79 then some (scanRadix l 8 .malformedOct cs)
    else if isDigit c ∨ c = 95 then
      some (l.fail .ambiguousLeadingZero ((c :: cs).dropWhile fun c => isDigit c || c == 95))
    else none
  | _ => none

def suffixAt (suffix cur : Bytes) : Option Bytes :=
  if suffix.isPrefixOf cur ∧ (cur.drop suffix.length).head?.all (fun c => !isIdentCont c) then
    some (cur.drop suffix.length)
  else none

/-- The factor, or the divisor as a negative number. -/
def durationSuffixes : List (Bytes × Int) :=
  [(ascii "ms", 1000), (ascii "us", 1), (ascii "ns", -1000), (ascii "s", 1000000),
   (ascii "m", 60000000), (ascii "h", 3600000000), (ascii "d", 86400000000)]

/-- The `from` of each; `to` is pi except for radians. -/
def angleSuffixes : List (Bytes × Nat) := [(ascii "grad", 200), (ascii "deg", 180), (ascii "rad", 1)]

def findSuffix {α : Type} (table : List (Bytes × α)) (cur : Bytes) : Option (Bytes × α) :=
  table.findSome? fun e => (suffixAt e.1 cur).map (·, e.2)

/-- No value is an overflow. -/
def applyDurationSuffix (value : Int) (cur : Bytes) : Bytes × Option Int :=
  match findSuffix durationSuffixes cur with
  | none => (cur, some value)
  | some (cur, mul) =>
    (cur, if mul < 0 then some (value / -mul)
      else if int64Max / mul < value then none else some (value * mul))

def floatFraction (cur : Bytes) : Except Bytes Bytes :=
  if cur.head? = some 46 then
    if cur.tail.head?.any isDigit then .ok (cur.tail.dropWhile isDigit) else .error cur.tail
  else .ok cur

def skipSign (cur : Bytes) : Bytes :=
  if cur.head? = some 43 ∨ cur.head? = some 45 then cur.tail else cur

def floatExponent (cur : Bytes) : Except Bytes Bytes :=
  if cur.head? = some 101 ∨ cur.head? = some 69 then
    let cur := skipSign cur.tail
    if cur.head?.any isDigit then .ok (cur.dropWhile isDigit) else .error cur
  else .ok cur

/-- At most 63 bytes of the literal reach `strtod`. -/
def floatValue (host : FloatHost) (l : ULexer) (cur : Bytes) : UInt64 :=
  host.strtod ((l.cur.take (l.cur.length - cur.length)).take 63)

def scanFloatBody (host : FloatHost) (l : ULexer) (cur : Bytes) : UToken × ULexer :=
  match floatFraction cur with
  | .error cur => l.fail .floatTrailingDot cur
  | .ok cur =>
    match floatExponent cur with
    | .error cur => l.fail .floatExponentNoDigits cur
    | .ok cur =>
      let val := floatValue host l cur
      if !isFinite val then l.fail .floatOverflow cur
      else match findSuffix durationSuffixes cur with
        | some (cur, mul) =>
          match host.micros val mul with
          | none => l.fail .intOverflow cur
          | some us => l.emit .int cur (.i us)
        | none =>
          match findSuffix angleSuffixes cur with
          | some (cur, unit) => l.emit .float cur (.f (host.radians val unit))
          | none => l.emit .float cur (.f val)

def scanNumber (host : FloatHost) (l : ULexer) : UToken × ULexer :=
  match dispatchRadixPrefix l with
  | some r => r
  | none =>
    match accumulateDigits 10 false 0 l.cur with
    | (cur, .error code) => l.failDigits code cur
    | (cur, .ok value) =>
      if (cur.head? = some 46 ∧ cur.tail.head?.all isDigit) ∨ cur.head? = some 101 ∨
          cur.head? = some 69 then scanFloatBody host l cur
      else match applyDurationSuffix value cur with
        | (cur, none) => l.fail .intOverflow cur
        | (cur, some value) =>
          match findSuffix angleSuffixes cur with
          | some (cur, unit) => l.emit .float cur (.f (host.radians (host.ofInt value) unit))
          | none => l.emit .int cur (.i value)

/-! ## Words and strings -/

def keywords : List (Bytes × UTokenType) :=
  [(ascii "assert", .kwAssert), (ascii "async", .kwAsync), (ascii "at", .kwAt),
   (ascii "break", .kwBreak), (ascii "case", .kwCase), (ascii "catch", .kwCatch),
   (ascii "class", .kwClass), (ascii "closure", .kwClosure), (ascii "continue", .kwContinue),
   (ascii "default", .kwDefault), (ascii "detach", .kwDetach), (ascii "disown", .kwDisown),
   (ascii "else", .kwElse), (ascii "every", .kwEvery), (ascii "false", .kwFalse),
   (ascii "finally", .kwFinally), (ascii "for", .kwFor), (ascii "function", .kwFunction),
   (ascii "if", .kwIf), (ascii "lazy", .kwLazy), (ascii "nil", .kwNil),
   (ascii "onleave", .kwOnleave), (ascii "public", .kwPublic), (ascii "return", .kwReturn),
   (ascii "switch", .kwSwitch), (ascii "sync", .kwSync), (ascii "this", .kwThis),
   (ascii "throw", .kwThrow), (ascii "true", .kwTrue), (ascii "try", .kwTry), (ascii "var", .kwVar),
   (ascii "waituntil", .kwWaituntil), (ascii "whenever", .kwWhenever), (ascii "while", .kwWhile)]

def keywordLookup (word : Bytes) : UTokenType := (keywords.lookup word).getD .ident

def scanIdent (l : ULexer) : UToken × ULexer :=
  let word := l.cur.takeWhile isIdentCont
  l.emit (keywordLookup word) (l.cur.dropWhile isIdentCont) (.str word)

def isQuotedBody (c : UInt8) : Bool := c != 39 && c != 10

def scanQuotedIdent (l : ULexer) : UToken × ULexer :=
  let body := l.cur.tail.takeWhile isQuotedBody
  let cur := l.cur.tail.dropWhile isQuotedBody
  if cur.head? = some 39 then
    if body = [] then l.fail .emptyQuotedIdent cur.tail else l.emit .ident cur.tail (.str body)
  else l.fail .unterminatedQuotedIdent cur

def hexRun : Nat → Nat → Nat → Bytes → Nat × Nat × Bytes
  | n + 1, count, cp, c :: cs =>
    match digitValue 16 c with
    | some d => hexRun n (count + 1) (cp * 16 + d) cs
    | none => (count, cp, c :: cs)
  | _, count, cp, cur => (count, cp, cur)

def surrogate (cp : Nat) : Bool := 0xD800 ≤ cp && cp ≤ 0xDFFF

def validateUnicodeEscape (cur : Bytes) : Option ULexError × Bytes :=
  if cur.head? = some 123 then
    let (count, cp, cur) := hexRun 6 0 0 cur.tail
    if count = 0 ∨ cur.head? ≠ some 125 then (some .unicodeEscapeTooShort, cur)
    else if 0x10FFFF < cp then (some .unicodeEscapeOutOfRange, cur.tail)
    else (if surrogate cp then some .loneSurrogate else none, cur.tail)
  else
    let (count, cp, cur) := hexRun 4 0 0 cur
    (if count < 4 then some .unicodeEscapeTooShort
      else if surrogate cp then some .loneSurrogate else none, cur)

/-- Every turn reads a byte, so the bytes left are turns enough. -/
def stringLoop : Nat → ULexer → Option ULexError × ULexer
  | 0, l => (none, l)
  | n + 1, l =>
    match l.cur with
    | [] => (none, l)
    | c :: cs =>
      if c = 34 then (none, l)
      else if c = 92 then
        match cs with
        | [] => (none, { l with cur := cs })
        | e :: es =>
          if e = 110 ∨ e = 116 ∨ e = 92 ∨ e = 34 then stringLoop n { l with cur := es }
          else if e = 117 then
            match validateUnicodeEscape es with
            | (none, cur) => stringLoop n { l with cur }
            | (some code, cur) => (some code, { l with cur })
          else (some .invalidEscape, { l with cur := es })
      else stringLoop n (if c = 10 then l.newline cs else { l with cur := cs })

def lexString (l : ULexer) : UToken × ULexer :=
  match stringLoop l.cur.length { l with cur := l.cur.tail } with
  | (some code, l') => ((l.fail code l'.cur).1, l')
  | (none, l') =>
    match l'.cur with
    | [] => ((l.fail .unterminatedString []).1, l')
    | _ :: cs =>
      let body := l.cur.tail.take (l.cur.tail.length - l'.cur.length)
      (l.tok .string cs (.str body), { l' with cur := cs })

/-! ## Synclines -/

inductive Directive where
  | line (n : Nat) (file : Bytes)
  | push (n : Nat) (file : Bytes)
  | pop
  deriving DecidableEq, Repr

/-- In 32 bits, given up where `n` is over a tenth of the largest. -/
def lineNumber : Nat → Bytes → Option (Nat × Bytes)
  | n, [] => some (n, [])
  | n, c :: cs =>
    if isDigit c then
      if 0xFFFFFFFF / 10 < n then none else lineNumber ((n * 10 + (c.toNat - 48)) % 2 ^ 32) cs
    else some (n, c :: cs)

def isBlank (c : UInt8) : Bool := c == 32 || c == 9

def blankLine (cur : Bytes) : Bool := (cur.takeWhile (· ≠ 10)).all fun c => isBlank c || c == 13

/-- From the `#` on, up to the newline; none is a failure, which leaves the lexer at the `#`. -/
def parseSyncline (cur : Bytes) : Option (Directive × Bytes) :=
  if cur.head? ≠ some 35 then none
  else
    let isLower := fun c : UInt8 => 97 ≤ c && c ≤ 122
    let name := cur.tail.takeWhile isLower
    let cur := (cur.tail.dropWhile isLower).dropWhile isBlank
    if name = ascii "pop" then
      if blankLine cur then some (.pop, cur.dropWhile (· ≠ 10)) else none
    else if name ≠ ascii "push" ∧ name ≠ ascii "line" then none
    else if !cur.head?.any isDigit then none
    else (lineNumber 0 cur).bind fun (n, cur) =>
      let cur := cur.dropWhile isBlank
      if cur.head? ≠ some 34 then none
      else
        let inFile := fun c : UInt8 => c != 34 && c != 10
        let file := cur.tail.takeWhile inFile
        let cur := cur.tail.dropWhile inFile
        if cur.head? ≠ some 34 ∨ !blankLine cur.tail then none
        else some (if name = ascii "push" then .push n file else .line n file,
          cur.tail.dropWhile (· ≠ 10))

def toInt32 (n : Nat) : Int := Int.bmod n (2 ^ 32)

def toUInt32 (i : Int) : Nat := (i % 2 ^ 32).toNat

namespace ULexer

def clip (file : Bytes) : Bytes := file.take (synclineNameMax - 1)

def nameLine (l : ULexer) (n : Nat) (file : Bytes) : ULexer :=
  { l with
    line := toInt32 n - 1
    sourceName := .slot l.poolIdx
    namePool := fun i => if i = l.poolIdx then clip file else l.namePool i
    poolIdx := (l.poolIdx + 1) % (synclineStackMax + 1) }

/-- A push onto a full stack and a pop of an empty one leave the stack. -/
def apply (l : ULexer) : Directive → ULexer
  | .line n file => l.nameLine n file
  | .push n file =>
    let entry := (l.sourceName, toUInt32 l.line)
    { l.nameLine n file with
      synclineStack := if l.synclineStack.length < synclineStackMax then entry :: l.synclineStack
        else l.synclineStack }
  | .pop =>
    match l.synclineStack with
    | [] => l
    | (file, line) :: stack =>
      { l with sourceName := file, line := toInt32 line, synclineStack := stack }

def directive? (l : ULexer) : Option (Directive × Bytes) :=
  match l.cur with
  | c :: d :: cs => if c = 47 ∧ d = 47 then parseSyncline cs else none
  | _ => none

/-! ## Trivia -/

def skipComment (l : ULexer) : Bytes → Bool × ULexer
  | c :: cs =>
    if cs = [] then (false, { l with cur := [] })
    else if c = 42 ∧ cs.head? = some 47 then (true, { l with cur := cs.tail })
    else skipComment (if c = 10 then l.newline cs else l) cs
  | [] => (false, { l with cur := [] })

inductive Trivia where
  | done
  | more (l : ULexer)
  | bad (t : UToken) (l : ULexer)

def triviaStep (l : ULexer) : Trivia :=
  match l.cur with
  | [] => .done
  | c :: cs =>
    if isBlank c then .more { l with cur := cs }
    else if c = 10 then .more (l.newline cs)
    else if c = 13 then if cs.head? = some 10 then .more (l.newline cs.tail) else .done
    else if c = 47 ∧ cs.head? = some 47 then
      match l.directive? with
      | some (d, cur) => .more { l.apply d with cur }
      | none => .more { l with cur := cs.tail.dropWhile (· ≠ 10) }
    else if c = 47 ∧ cs.head? = some 42 then
      match l.skipComment cs.tail with
      | (true, l') => .more l'
      | (false, l') => .bad (l.fail .unterminatedBlockComment []).1 l'
    else .done

def skipTrivia : Nat → ULexer → Option UToken × ULexer
  | 0, l => (none, l)
  | n + 1, l =>
    match l.triviaStep with
    | .done => (none, l)
    | .more l' => skipTrivia n l'
    | .bad t l' => (some t, l')

end ULexer

/-! ## The next token -/

def punctTable : List (UInt8 × UTokenType) :=
  [(42, .star), (47, .slash), (40, .lparen), (41, .rparen), (59, .semi), (44, .comma), (123, .lbrace),
   (125, .rbrace), (58, .colon), (46, .dot), (63, .question), (91, .lbracket), (93, .rbracket)]

def operators : List (Bytes × UTokenType) :=
  [(ascii "+=", .plusEq), (ascii "+", .plus), (ascii "->", .arrow), (ascii "-", .minus),
   (ascii "==", .eqeq), (ascii "=>", .fatArrow), (ascii "=", .eq), (ascii "!=", .neq),
   (ascii "!", .bang), (ascii "<=", .le), (ascii "<<", .lshift), (ascii "<", .lt),
   (ascii "&&", .ampamp), (ascii "&", .amp), (ascii "||", .pipepipe), (ascii "|", .pipe),
   (ascii "%", .percent), (ascii ">=", .ge), (ascii ">", .gt)]

def scanToken (host : FloatHost) (l : ULexer) : UToken × ULexer :=
  match l.cur with
  | [] => l.emit .eof [] .none
  | c :: cs =>
    if c = 34 then lexString l
    else if c = 39 then scanQuotedIdent l
    else if c = 46 ∧ cs.head?.any isDigit then scanFloatBody host l l.cur
    else match punctTable.lookup c with
      | some type => l.emit type cs .none
      | none =>
        match operators.find? fun op => op.1.isPrefixOf l.cur with
        | some (op, type) => l.emit type (l.cur.drop op.length) .none
        | none =>
          if isDigit c then scanNumber host l
          else if isIdentStart c then scanIdent l
          else l.fail .unknownChar cs

def ulexNext (host : FloatHost) (l : ULexer) : UToken × ULexer :=
  match l.skipTrivia l.cur.length with
  | (some t, l') => (t, l')
  | (none, l') => scanToken host l'

/-! ## What a scanner leaves -/

def ULexer.directory (l : ULexer) : UFile × List (UFile × Nat) × (Nat → Bytes) × Nat :=
  (l.sourceName, l.synclineStack, l.namePool, l.poolIdx)

structure Plain (l : ULexer) (r : UToken × ULexer) : Prop where
  type : r.1.type ≠ .ident
  directory : r.2.directory = l.directory

@[simp] theorem emit_u (l : ULexer) (type : UTokenType) (cur : Bytes) (u : UTokenValue) :
    (l.emit type cur u).1.u = u := rfl

@[simp] theorem emit_type (l : ULexer) (type : UTokenType) (cur : Bytes) (u : UTokenValue) :
    (l.emit type cur u).1.type = type := rfl

theorem emit_plain {l : ULexer} {type : UTokenType} {cur : Bytes} {u : UTokenValue}
    (h : type ≠ .ident) : Plain l (l.emit type cur u) := ⟨h, rfl⟩

theorem fail_plain {l : ULexer} {code : ULexError} {cur : Bytes} : Plain l (l.fail code cur) :=
  emit_plain (by decide)

theorem failDigits_plain {l : ULexer} {code : ULexError} {cur : Bytes} :
    Plain l (l.failDigits code cur) := by
  refine ⟨?_, rfl⟩
  simp only [ULexer.failDigits]
  split <;> simp [ULexer.fail]

theorem scanRadix_plain (l : ULexer) (base : Nat) (bad : ULexError) (cur : Bytes) :
    Plain l (scanRadix l base bad cur) := by
  unfold scanRadix
  cases cur with
  | nil => exact fail_plain
  | cons c cs =>
    dsimp only
    split
    · exact fail_plain
    · split
      · split <;> exact fail_plain
      · split
        · exact failDigits_plain
        · exact emit_plain (by decide)

theorem dispatchRadixPrefix_plain {l : ULexer} {r : UToken × ULexer}
    (h : dispatchRadixPrefix l = some r) : Plain l r := by
  unfold dispatchRadixPrefix at h
  split at h
  · split at h
    · cases h
    -- the three radices, then a leading zero
    iterate 3
      split at h
      · cases h
        exact scanRadix_plain _ _ _ _
    split at h <;> cases h
    exact fail_plain
  · cases h

theorem scanFloatBody_plain (host : FloatHost) (l : ULexer) (cur : Bytes) :
    Plain l (scanFloatBody host l cur) := by
  unfold scanFloatBody
  split
  · exact fail_plain
  · split
    · exact fail_plain
    · dsimp only
      split
      · exact fail_plain
      · split
        · split
          · exact fail_plain
          · exact emit_plain (by decide)
        · split <;> exact emit_plain (by decide)

theorem scanNumber_plain (host : FloatHost) (l : ULexer) : Plain l (scanNumber host l) := by
  unfold scanNumber
  split
  · exact dispatchRadixPrefix_plain ‹_›
  · split
    · exact failDigits_plain
    · split
      · exact scanFloatBody_plain host l _
      · split
        · exact fail_plain
        · split <;> exact emit_plain (by decide)

theorem stringLoop_directory (n : Nat) (l : ULexer) :
    (stringLoop n l).2.directory = l.directory := by
  induction n generalizing l with
  | zero => rfl
  | succ n ih =>
    unfold stringLoop
    split
    · rfl
    · split
      · rfl
      · split
        · split
          · rfl
          · split
            · exact ih _
            · split
              · split
                · exact ih _
                · rfl
              · rfl
        · rw [ih]
          split <;> rfl

theorem lexString_plain (l : ULexer) : Plain l (lexString l) := by
  have h := stringLoop_directory l.cur.length { l with cur := l.cur.tail }
  unfold lexString
  split
  · rename_i hloop
    exact ⟨fail_plain.type, by rw [hloop] at h; exact h⟩
  · rename_i hloop
    rw [hloop] at h
    split
    · exact ⟨fail_plain.type, h⟩
    · exact ⟨by simp [ULexer.tok], h⟩

theorem scanQuotedIdent_directory (l : ULexer) : (scanQuotedIdent l).2.directory = l.directory := by
  unfold scanQuotedIdent
  dsimp only
  split
  · split <;> rfl
  · rfl

theorem scanToken_directory (host : FloatHost) (l : ULexer) :
    (scanToken host l).2.directory = l.directory := by
  unfold scanToken
  split
  · rfl
  · split
    · exact (lexString_plain l).directory
    · split
      · exact scanQuotedIdent_directory l
      · split
        · exact (scanFloatBody_plain host l _).directory
        · split
          · rfl
          · split
            · rfl
            · split
              · exact (scanNumber_plain host l).directory
              · split <;> rfl

end Urbi.Lex
