import Mathlib.Data.List.Infix
import Mathlib.Data.UInt
import Mathlib.Tactic.Common

/-!
# The envelopes

Each emitter of `urepl_ndjson.c` writes one line into a buffer of a fixed size, piece by piece, and
gives up at the first piece for which there is no room.
-/

namespace Urbi.Repl

def lit (s : String) : List UInt8 := s.toList.map fun c => UInt8.ofNat c.toNat

def cstr (bytes : List UInt8) : List UInt8 := bytes.takeWhile (· ≠ 0)

def hexDigit (n : UInt8) : UInt8 := if n < 10 then 48 + n else 87 + n

def decimal (n : UInt64) : List UInt8 := (Nat.toDigits 10 n.toNat).map fun c => UInt8.ofNat c.toNat

def escapeByte (c : UInt8) : List UInt8 :=
  if c = 34 ∨ c = 92 then [92, c]
  else if c = 10 then lit "\\n"
  else if c = 13 then lit "\\r"
  else if c = 9 then lit "\\t"
  else if c = 8 then lit "\\b"
  else if c = 12 then lit "\\f"
  else if c < 32 then lit "\\u00" ++ [hexDigit (c >>> 4), hexDigit (c &&& 15)]
  else [c]

def escape (src : List UInt8) : List UInt8 := src.flatMap escapeByte

/-- A code of six goes through `snprintf`, which wants room for its NUL too. -/
def escapeInto (cap : Nat) (dst : List UInt8) (c : UInt8) : Option (List UInt8) :=
  let code := escapeByte c
  if cap < dst.length + code.length then none
  else if code.length = 6 ∧ cap - dst.length ≤ 6 then none
  else some (dst ++ code)

def jsonEscape (src : List UInt8) (cap : Nat) : Option (List UInt8) :=
  src.foldlM (escapeInto cap) []

section

variable (cap : Nat)

def appendLit (s : List UInt8) (buf : List UInt8) : Option (List UInt8) :=
  if cap ≤ buf.length + s.length then none else some (buf ++ s)

def appendEscaped (s : List UInt8) (buf : List UInt8) : Option (List UInt8) :=
  if cap ≤ buf.length then none else (jsonEscape s (cap - buf.length)).map (buf ++ ·)

def appendQuoted (s : List UInt8) (buf : List UInt8) : Option (List UInt8) := do
  let buf ← appendLit cap (lit "\"") buf
  let buf ← appendEscaped cap s buf
  appendLit cap (lit "\"") buf

def appendU64 (v : UInt64) (buf : List UInt8) : Option (List UInt8) :=
  if cap ≤ buf.length then none
  else if cap - buf.length ≤ (decimal v).length then none
  else some (buf ++ decimal v)

def finish (buf : List UInt8) : Option (List UInt8) :=
  if cap ≤ buf.length + 1 then none else some (buf ++ lit "\n")

def emitResult (id : UInt64) (valueJson : List UInt8) : Option (List UInt8) := do
  let buf ← appendLit cap (lit "\x7b\"id\":") []
  let buf ← appendU64 cap id buf
  let buf ← appendLit cap (lit ",\"kind\":\"result\",\"value\":") buf
  let buf ← appendLit cap (if valueJson = [] then lit "null" else valueJson) buf
  let buf ← appendLit cap (lit "\x7d") buf
  finish cap buf

def appendId (id : UInt64) (buf : List UInt8) : Option (List UInt8) :=
  if id ≠ 0 then do
    let buf ← appendLit cap (lit "\"id\":") buf
    let buf ← appendU64 cap id buf
    appendLit cap (lit ",") buf
  else some buf

def emitOutput (id : UInt64) (channel msg : List UInt8) : Option (List UInt8) := do
  let buf ← appendLit cap (lit "\x7b") []
  let buf ← appendId cap id buf
  let buf ← appendLit cap (lit "\"kind\":\"output\",\"channel\":") buf
  let buf ← appendQuoted cap channel buf
  let buf ← appendLit cap (lit ",\"msg\":\"") buf
  let buf ← appendEscaped cap msg buf
  let buf ← appendLit cap (lit "\"\x7d") buf
  finish cap buf

def emitDone (id : UInt64) : Option (List UInt8) := do
  let buf ← appendLit cap (lit "\x7b\"id\":") []
  let buf ← appendU64 cap id buf
  let buf ← appendLit cap (lit ",\"kind\":\"done\"\x7d") buf
  finish cap buf

def appendMessage (msg : List UInt8) (buf : List UInt8) : Option (List UInt8) :=
  if msg ≠ [] then do
    let buf ← appendLit cap (lit ",\"message\":") buf
    appendQuoted cap msg buf
  else some buf

def emitError (id : UInt64) (code msg : List UInt8) : Option (List UInt8) := do
  let buf ← appendLit cap (lit "\x7b") []
  let buf ← appendId cap id buf
  let buf ← appendLit cap (lit "\"kind\":\"error\",\"code\":") buf
  let buf ← appendQuoted cap code buf
  let buf ← appendMessage cap msg buf
  let buf ← appendLit cap (lit "\x7d") buf
  finish cap buf

end

/-! ## Their texts -/

def quotedText (s : List UInt8) : List UInt8 := lit "\"" ++ (escape s ++ lit "\"")

def idText (id : UInt64) : List UInt8 :=
  if id ≠ 0 then lit "\"id\":" ++ (decimal id ++ lit ",") else []

def messageText (msg : List UInt8) : List UInt8 :=
  if msg ≠ [] then lit ",\"message\":" ++ quotedText msg else []

def resultText (id : UInt64) (valueJson : List UInt8) : List UInt8 :=
  lit "\x7b\"id\":" ++ (decimal id ++ (lit ",\"kind\":\"result\",\"value\":" ++
    ((if valueJson = [] then lit "null" else valueJson) ++ lit "\x7d")))

def outputText (id : UInt64) (channel msg : List UInt8) : List UInt8 :=
  lit "\x7b" ++ (idText id ++ (lit "\"kind\":\"output\",\"channel\":" ++ (quotedText channel ++
    (lit ",\"msg\":\"" ++ (escape msg ++ lit "\"\x7d")))))

def doneText (id : UInt64) : List UInt8 :=
  lit "\x7b\"id\":" ++ (decimal id ++ lit ",\"kind\":\"done\"\x7d")

def errorText (id : UInt64) (code msg : List UInt8) : List UInt8 :=
  lit "\x7b" ++ (idText id ++ (lit "\"kind\":\"error\",\"code\":" ++ (quotedText code ++
    (messageText msg ++ lit "\x7d"))))

/-! ## A piece appends its text, or nothing -/

structure Appends (cap : Nat) (f : List UInt8 → Option (List UInt8)) (text : List UInt8) : Prop where
  sound : ∀ buf r, f buf = some r → r = buf ++ text
  fits : ∀ buf, buf.length + text.length < cap → f buf = some (buf ++ text)

section

variable {cap : Nat} {f g : List UInt8 → Option (List UInt8)} {a b : List UInt8}

theorem Appends.bind (hf : Appends cap f a) (hg : Appends cap g b) :
    Appends cap (fun buf => (f buf).bind g) (a ++ b) where
  sound buf r h := by
    obtain ⟨buf', hbuf, hr⟩ := Option.bind_eq_some_iff.mp h
    obtain rfl := hf.sound buf buf' hbuf
    rw [hg.sound _ r hr, List.append_assoc]
  fits buf h := by
    rw [List.length_append] at h
    have hb := hg.fits (buf ++ a) (by rw [List.length_append]; omega)
    show (f buf).bind g = _
    rw [hf.fits buf (by omega), Option.bind_some, hb, List.append_assoc]

theorem Appends.skip : Appends cap some [] where
  sound buf r h := by rw [List.append_nil, Option.some.inj h]
  fits buf _ := by rw [List.append_nil]

theorem appends_lit (cap : Nat) (s : List UInt8) : Appends cap (appendLit cap s) s where
  sound buf r h := (Option.some.inj (Option.ite_none_left_eq_some.mp h).2).symm
  fits buf h := if_neg (by omega)

theorem appends_u64 (cap : Nat) (v : UInt64) : Appends cap (appendU64 cap v) (decimal v) where
  sound buf r h := by
    obtain ⟨-, h⟩ := Option.ite_none_left_eq_some.mp h
    exact (Option.some.inj (Option.ite_none_left_eq_some.mp h).2).symm
  fits buf h := by
    unfold appendU64
    rw [if_neg (by omega), if_neg (by omega)]

theorem escapeInto_sound {dst r : List UInt8} {c : UInt8} (h : escapeInto cap dst c = some r) :
    r = dst ++ escapeByte c := by
  obtain ⟨-, h⟩ := Option.ite_none_left_eq_some.mp h
  exact (Option.some.inj (Option.ite_none_left_eq_some.mp h).2).symm

theorem escapeInto_fits {dst : List UInt8} {c : UInt8}
    (h : dst.length + (escapeByte c).length < cap) :
    escapeInto cap dst c = some (dst ++ escapeByte c) := by
  unfold escapeInto
  dsimp only
  rw [if_neg (by omega), if_neg (by omega)]

theorem foldlM_escapeInto_sound {src dst r : List UInt8}
    (h : src.foldlM (escapeInto cap) dst = some r) : r = dst ++ escape src := by
  induction src generalizing dst with
  | nil =>
    rw [show escape [] = [] from rfl, List.append_nil]
    exact (Option.some.inj h).symm
  | cons c src ih =>
    obtain ⟨dst', hdst, hr⟩ := Option.bind_eq_some_iff.mp h
    rw [ih hr, escapeInto_sound hdst, List.append_assoc]
    rfl

theorem foldlM_escapeInto_fits {src dst : List UInt8} (h : dst.length + (escape src).length < cap) :
    src.foldlM (escapeInto cap) dst = some (dst ++ escape src) := by
  induction src generalizing dst with
  | nil => exact congrArg some (List.append_nil dst).symm
  | cons c src ih =>
    have hcons : escape (c :: src) = escapeByte c ++ escape src := rfl
    rw [hcons, List.length_append] at h
    have hroom : (dst ++ escapeByte c).length + (escape src).length < cap := by
      rw [List.length_append]
      omega
    show (escapeInto cap dst c).bind (fun dst => src.foldlM (escapeInto cap) dst) = _
    rw [escapeInto_fits (by omega), Option.bind_some, ih hroom, hcons, List.append_assoc]

theorem appends_escaped (cap : Nat) (s : List UInt8) :
    Appends cap (appendEscaped cap s) (escape s) where
  sound buf r h := by
    obtain ⟨-, h⟩ := Option.ite_none_left_eq_some.mp h
    obtain ⟨e, he, rfl⟩ := Option.map_eq_some_iff.mp h
    rw [foldlM_escapeInto_sound he, List.nil_append]
  fits buf h := by
    unfold appendEscaped jsonEscape
    rw [if_neg (by omega), foldlM_escapeInto_fits (by rw [List.length_nil]; omega)]
    rfl

theorem appends_quoted (cap : Nat) (s : List UInt8) :
    Appends cap (appendQuoted cap s) (quotedText s) :=
  (appends_lit cap _).bind ((appends_escaped cap s).bind (appends_lit cap _))

theorem appends_id (cap : Nat) (id : UInt64) : Appends cap (appendId cap id) (idText id) := by
  unfold appendId idText
  split
  · exact (appends_lit cap _).bind ((appends_u64 cap id).bind (appends_lit cap _))
  · exact Appends.skip

theorem appends_message (cap : Nat) (msg : List UInt8) :
    Appends cap (appendMessage cap msg) (messageText msg) := by
  unfold appendMessage messageText
  split
  · exact (appends_lit cap _).bind (appends_quoted cap msg)
  · exact Appends.skip

def Ends (cap : Nat) (f : List UInt8 → Option (List UInt8)) (text : List UInt8) : Prop :=
  ∀ buf r, f buf = some r ↔ (buf ++ text).length + 1 < cap ∧ r = buf ++ (text ++ lit "\n")

theorem ends_finish (cap : Nat) : Ends cap (finish cap) [] := by
  intro buf r
  rw [List.append_nil, List.nil_append]
  refine Option.ite_none_left_eq_some.trans (and_congr Nat.not_le ?_)
  rw [Option.some.injEq, eq_comm]

theorem Appends.ends (hf : Appends cap f a) (hg : Ends cap g b) :
    Ends cap (fun buf => (f buf).bind g) (a ++ b) := by
  intro buf r
  rw [← List.append_assoc, List.append_assoc a, ← List.append_assoc buf, ← hg (buf ++ a) r]
  constructor
  · intro h
    obtain ⟨buf', hbuf, hr⟩ := Option.bind_eq_some_iff.mp h
    obtain rfl := hf.sound buf buf' hbuf
    exact hr
  · intro h
    -- what comes after fits, so that this does
    have hlen := ((hg _ r).mp h).1
    rw [List.length_append, List.length_append] at hlen
    show (f buf).bind g = some r
    rw [hf.fits buf (by omega), Option.bind_some]
    exact h

theorem ends_lit (cap : Nat) (s : List UInt8) :
    Ends cap (fun buf => (appendLit cap s buf).bind (finish cap)) s := by
  have h := (appends_lit cap s).ends (ends_finish cap)
  rwa [List.append_nil] at h

theorem Ends.line (h : Ends cap f a) (r : List UInt8) :
    f [] = some r ↔ a.length + 1 < cap ∧ r = a ++ lit "\n" := h [] r

end

section

variable {cap : Nat} {id : UInt64} {r : List UInt8}

theorem emitResult_iff {value : List UInt8} : emitResult cap id value = some r ↔
    (resultText id value).length + 1 < cap ∧ r = resultText id value ++ lit "\n" :=
  ((appends_lit cap _).ends ((appends_u64 cap id).ends ((appends_lit cap _).ends
    ((appends_lit cap _).ends (ends_lit cap _))))).line r

theorem emitOutput_iff {channel msg : List UInt8} : emitOutput cap id channel msg = some r ↔
    (outputText id channel msg).length + 1 < cap ∧ r = outputText id channel msg ++ lit "\n" :=
  ((appends_lit cap _).ends ((appends_id cap id).ends ((appends_lit cap _).ends
    ((appends_quoted cap channel).ends ((appends_lit cap _).ends
      ((appends_escaped cap msg).ends (ends_lit cap _))))))).line r

theorem emitDone_iff : emitDone cap id = some r ↔
    (doneText id).length + 1 < cap ∧ r = doneText id ++ lit "\n" :=
  ((appends_lit cap _).ends ((appends_u64 cap id).ends (ends_lit cap _))).line r

theorem emitError_iff {code msg : List UInt8} : emitError cap id code msg = some r ↔
    (errorText id code msg).length + 1 < cap ∧ r = errorText id code msg ++ lit "\n" :=
  ((appends_lit cap _).ends ((appends_id cap id).ends ((appends_lit cap _).ends
    ((appends_quoted cap code).ends ((appends_message cap msg).ends (ends_lit cap _)))))).line r

end

end Urbi.Repl
