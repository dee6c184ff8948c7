import Urbi.Repl.Frame
import Urbi.Repl.Ndjson

/-!
# The answer to an eval

`dispatch_eval` runs the code of a request and pushes the output written meanwhile, a result or an
error, and a done.  Each envelope is built in a buffer of its own.
-/

namespace Urbi.Repl

/-! ## Output staging -/

structure UReplOutBuf where
  buf : List UInt8
  off : Nat
  cap : Nat
  capLimit : Nat
  dropped : Bool
  off_le : off ≤ buf.length
  fill_le : buf.length ≤ cap
  cap_le : cap ≤ capLimit

namespace UReplOutBuf

def pending (o : UReplOutBuf) : List UInt8 := o.buf.drop o.off

def compact (o : UReplOutBuf) : UReplOutBuf :=
  { o with
    buf := o.buf.drop o.off
    off := 0
    off_le := Nat.zero_le _
    fill_le := Nat.le_trans (List.length_drop ▸ Nat.sub_le ..) o.fill_le }

def grown (o : UReplOutBuf) (need : Nat) : Nat :=
  if o.buf.length + need ≤ o.cap then o.cap
  else
    min (doubled (if o.cap = 0 then 256 else o.cap) (min (o.buf.length + need) o.capLimit)) o.capLimit

theorem grown_le (o : UReplOutBuf) (need : Nat) : o.grown need ≤ o.capLimit := by
  unfold grown
  split
  · exact o.cap_le
  · exact Nat.min_le_right ..

def append (o : UReplOutBuf) (bytes : List UInt8) : UReplOutBuf :=
  if h : o.buf.length + bytes.length ≤ o.grown bytes.length then
    { o with
      buf := o.buf ++ bytes
      cap := o.grown bytes.length
      off_le := Nat.le_trans o.off_le (by rw [List.length_append]; exact Nat.le_add_right ..)
      fill_le := by rw [List.length_append]; exact h
      cap_le := o.grown_le _ }
  else { o with dropped := true }

def push (o : UReplOutBuf) (bytes : List UInt8) : UReplOutBuf :=
  (if o.cap < o.buf.length + bytes.length then o.compact else o).append bytes

end UReplOutBuf

theorem le_doubled {cap want : Nat} (hcap : 0 < cap) : want ≤ doubled cap want := by
  fun_induction doubled cap want with
  | case1 cap h => omega
  | case2 cap h ih => exact ih (by omega)

namespace UReplOutBuf

theorem le_grown {o : UReplOutBuf} {need : Nat} (h : o.buf.length + need ≤ o.capLimit) :
    o.buf.length + need ≤ o.grown need := by
  unfold grown
  split
  · assumption
  · have hpos : 0 < if o.cap = 0 then 256 else o.cap := by
      split <;> omega
    rw [Nat.min_eq_left h]
    exact Nat.le_min.mpr ⟨le_doubled hpos, h⟩

@[simp] theorem append_capLimit (o : UReplOutBuf) (bytes : List UInt8) :
    (o.append bytes).capLimit = o.capLimit := by
  unfold append
  split <;> rfl

@[simp] theorem push_capLimit (o : UReplOutBuf) (bytes : List UInt8) :
    (o.push bytes).capLimit = o.capLimit := by
  unfold push
  split <;> exact append_capLimit ..

theorem append_pending {o : UReplOutBuf} {bytes : List UInt8}
    (h : o.buf.length + bytes.length ≤ o.capLimit) :
    (o.append bytes).pending = o.pending ++ bytes := by
  unfold append
  rw [dif_pos (le_grown h)]
  exact List.drop_append_of_le_length o.off_le

theorem push_pending {o : UReplOutBuf} {bytes : List UInt8}
    (h : o.pending.length + bytes.length ≤ o.capLimit) :
    (o.push bytes).pending = o.pending ++ bytes := by
  unfold push
  split
  · -- what the transport took is reclaimed first
    exact append_pending (o := o.compact) h
  · rename_i hfits
    exact append_pending (Nat.le_trans (Nat.le_of_not_lt hfits) o.cap_le)

end UReplOutBuf

/-! ## The session -/

/-- `pushed` keeps the lines handed to `urepl_session_push`, and nothing reads it. -/
structure Outbound where
  out : UReplOutBuf
  currentEvalId : UInt64
  pushed : List (List UInt8)

inductive RunCode where
  | ok
  | compile
  | compileBudgetDepth
  | compileBudgetNodes
  | compileBudgetSource
  | uncaughtThrow
  | oom
  | other
  deriving DecidableEq

def errorCodeFor : RunCode → List UInt8
  | .compile => lit "parse"
  | .compileBudgetDepth => lit "budget_depth"
  | .compileBudgetNodes => lit "budget_nodes"
  | .compileBudgetSource => lit "budget_source"
  | .uncaughtThrow => lit "runtime"
  | .oom => lit "oom"
  | _ => lit "error"

structure Outcome where
  rc : RunCode
  writes : List (List UInt8 × List UInt8)
  rendered : List UInt8
  err : List UInt8
  lastError : List UInt8
  rendered_lt : rendered.length < 1024
  err_lt : err.length < 512
  lastError_lt : lastError.length < 256

/-- A compile failure explains itself in `err`, a throw through the error channel. -/
def Outcome.message (o : Outcome) : List UInt8 :=
  if cstr o.err = [] then cstr o.lastError else cstr o.err

namespace Outbound

def push (s : Outbound) (line : List UInt8) : Outbound :=
  { s with out := s.out.push line, pushed := s.pushed ++ [line] }

def pushError (s : Outbound) (id : UInt64) (code msg : List UInt8) : Outbound :=
  match emitError 1024 id code msg with
  | some line => s.push line
  | none => s

def pushResult (s : Outbound) (id : UInt64) (valueJson : List UInt8) : Outbound :=
  match emitResult 8192 id valueJson with
  | some line => s.push line
  | none => s.pushError id (lit "response_too_large") []

def sessionWriter (s : Outbound) (write : List UInt8 × List UInt8) : Outbound :=
  match emitOutput 4096 s.currentEvalId (cstr (write.1.take 63)) (write.2.take 2048) with
  | some line => s.push line
  | none => { s with out := { s.out with dropped := true } }

def answer (s : Outbound) (id : UInt64) (o : Outcome) : Outbound :=
  if o.rc = .ok then
    match jsonEscape o.rendered 2197 with
    | none => s.pushError id (lit "response_too_large") []
    | some esc => s.pushResult id (cstr (lit "\"" ++ (esc ++ lit "\"")))
  else s.pushError id (errorCodeFor o.rc) o.message

def pushDone (s : Outbound) (id : UInt64) : Outbound :=
  match emitDone 128 id with
  | some line => s.push line
  | none => s

def dispatchEval (run : List UInt8 → Outcome) (s : Outbound) (id : UInt64) :
    Option (List UInt8) → Outbound
  | none => s.pushError id (lit "parse") (lit "eval without code")
  | some code =>
    let o := run code
    let s := o.writes.foldl sessionWriter { s with currentEvalId := id }
    let s := { s.answer id o with currentEvalId := 0 }
    s.pushDone id

end Outbound

/-! ## What a client reads -/

def strip (p line : List UInt8) : Option (List UInt8) :=
  if p.isPrefixOf line then some (line.drop p.length) else none

def isDigit (b : UInt8) : Bool := 48 ≤ b && b ≤ 57

def number (digits : List UInt8) : Nat :=
  Nat.ofDigitChars 10 (digits.map fun b => Char.ofNat b.toNat) 0

def readHead (line : List UInt8) : Option (Nat × List UInt8) :=
  (strip (lit "\x7b") line).bind fun body =>
    match strip (lit "\"id\":") body with
    | some body =>
      (strip (lit ",\"kind\":\"") (body.dropWhile isDigit)).map fun rest =>
        (number (body.takeWhile isDigit), rest.takeWhile (· ≠ 34))
    | none =>
      (strip (lit "\"kind\":\"") body).map fun rest => (0, rest.takeWhile (· ≠ 34))

def answers (lines : List (List UInt8)) : List (Nat × List UInt8) :=
  (lines.filterMap readHead).filter fun h => h.2 ≠ lit "output"

theorem strip_append (p rest : List UInt8) : strip p (p ++ rest) = some rest := by
  unfold strip
  rw [if_pos (List.isPrefixOf_iff_prefix.mpr (List.prefix_append ..)), List.drop_left]

theorem toNat_of_mem_toDigits {n : Nat} {c : Char} (hc : c ∈ Nat.toDigits 10 n) :
    48 ≤ c.toNat ∧ c.toNat ≤ 57 := by
  have hd := Nat.isDigit_of_mem_toDigits (by decide) (by decide) hc
  rw [Char.isDigit, Bool.and_eq_true, decide_eq_true_iff, decide_eq_true_iff] at hd
  exact ⟨UInt32.le_iff_toNat_le.mp hd.1, UInt32.le_iff_toNat_le.mp hd.2⟩

theorem decimal_digits (id : UInt64) : ∀ b ∈ decimal id, isDigit b = true := by
  intro b hb
  obtain ⟨c, hc, rfl⟩ := List.mem_map.mp hb
  obtain ⟨hlo, hhi⟩ := toNat_of_mem_toDigits hc
  rw [isDigit, Bool.and_eq_true, decide_eq_true_iff, decide_eq_true_iff, UInt8.le_iff_toNat_le,
    UInt8.le_iff_toNat_le, UInt8.toNat_ofNat', Nat.mod_eq_of_lt (by omega)]
  exact ⟨hlo, hhi⟩

theorem number_decimal (id : UInt64) : number (decimal id) = id.toNat := by
  unfold number decimal
  rw [List.map_map]
  have hback : ∀ c ∈ Nat.toDigits 10 id.toNat,
      ((fun b : UInt8 => Char.ofNat b.toNat) ∘ fun c : Char => UInt8.ofNat c.toNat) c = c := by
    intro c hc
    have hhi := (toNat_of_mem_toDigits hc).2
    show Char.ofNat (UInt8.ofNat c.toNat).toNat = c
    rw [UInt8.toNat_ofNat', Nat.mod_eq_of_lt (by omega), Char.ofNat_toNat]
  rw [List.map_congr_left hback, List.map_id', Nat.ofDigitChars_ten_toDigits]

theorem decimal_length (id : UInt64) : (decimal id).length ≤ 20 := by
  unfold decimal
  rw [List.length_map, Nat.length_toDigits_le_iff (by decide) (by decide)]
  exact Nat.lt_trans id.toNat_lt (by decide)

theorem takeWhile_kind {kind : List UInt8} (hk : 34 ∉ kind) (rest : List UInt8) :
    (kind ++ 34 :: rest).takeWhile (· ≠ 34) = kind := by
  have hpos : ∀ b ∈ kind, decide (b ≠ 34) = true :=
    fun _ hb => decide_eq_true fun he => hk (he ▸ hb)
  rw [List.takeWhile_append_of_pos hpos]
  simp

theorem readHead_id (id : UInt64) (kind : List UInt8) (hk : 34 ∉ kind) (rest : List UInt8) :
    readHead (lit "\x7b" ++ (lit "\"id\":" ++ (decimal id ++ (lit ",\"kind\":\"" ++
      (kind ++ 34 :: rest))))) = some (id.toNat, kind) := by
  unfold readHead
  rw [strip_append, Option.bind_some, strip_append]
  dsimp only
  have hstop : ∀ l, (lit ",\"kind\":\"" ++ l).dropWhile isDigit = lit ",\"kind\":\"" ++ l :=
    fun l => rfl
  have hstop' : ∀ l, (lit ",\"kind\":\"" ++ l).takeWhile isDigit = [] := fun l => rfl
  rw [List.dropWhile_append_of_pos (decimal_digits id),
    List.takeWhile_append_of_pos (decimal_digits id), hstop, hstop', strip_append, Option.map_some,
    List.append_nil, number_decimal, takeWhile_kind hk]

theorem readHead_no_id {kind : List UInt8} (hk : 34 ∉ kind) (rest : List UInt8) :
    readHead (lit "\x7b" ++ (lit "\"kind\":\"" ++ (kind ++ 34 :: rest))) = some (0, kind) := by
  unfold readHead
  have hno : strip (lit "\"id\":") (lit "\"kind\":\"" ++ (kind ++ 34 :: rest)) = none := rfl
  rw [strip_append, Option.bind_some, hno]
  dsimp only
  rw [strip_append, Option.map_some, takeWhile_kind hk]

theorem readHead_idText (id : UInt64) (kind : List UInt8) (hk : 34 ∉ kind) (rest : List UInt8) :
    readHead (lit "\x7b" ++ (idText id ++ (lit "\"kind\":\"" ++ (kind ++ 34 :: rest)))) =
      some (id.toNat, kind) := by
  unfold idText
  split
  · rw [List.append_assoc, List.append_assoc]
    exact readHead_id id kind hk rest
  · rename_i hz
    rw [List.nil_append, readHead_no_id hk, not_not.mp hz]
    rfl

theorem readHead_result (id : UInt64) (value tail : List UInt8) :
    readHead (resultText id value ++ tail) = some (id.toNat, lit "result") := by
  simp only [resultText, List.append_assoc]
  exact readHead_id id (lit "result") (by decide) _

theorem readHead_done (id : UInt64) (tail : List UInt8) :
    readHead (doneText id ++ tail) = some (id.toNat, lit "done") := by
  simp only [doneText, List.append_assoc]
  exact readHead_id id (lit "done") (by decide) _

theorem readHead_error (id : UInt64) (code msg tail : List UInt8) :
    readHead (errorText id code msg ++ tail) = some (id.toNat, lit "error") := by
  simp only [errorText, List.append_assoc]
  exact readHead_idText id (lit "error") (by decide) _

theorem readHead_output (id : UInt64) (channel msg tail : List UInt8) :
    readHead (outputText id channel msg ++ tail) = some (id.toNat, lit "output") := by
  simp only [outputText, List.append_assoc]
  exact readHead_idText id (lit "output") (by decide) _

/-! ## Pushes -/

namespace Outbound

structure Pushes (s s' : Outbound) (lines : List (List UInt8)) : Prop where
  pushed : s'.pushed = s.pushed ++ lines
  limit : s'.out.capLimit = s.out.capLimit
  staged : s.out.pending.length + lines.flatten.length ≤ s.out.capLimit →
    s'.out.pending = s.out.pending ++ lines.flatten

variable {s s' s'' : Outbound} {lines more : List (List UInt8)} {id : UInt64}

theorem Pushes.none (hpushed : s'.pushed = s.pushed) (hlimit : s'.out.capLimit = s.out.capLimit)
    (hpend : s'.out.pending = s.out.pending) : Pushes s s' [] where
  pushed := by rw [List.append_nil, hpushed]
  limit := hlimit
  staged _ := by rw [List.flatten_nil, List.append_nil, hpend]

theorem Pushes.trans (h : Pushes s s' lines) (h' : Pushes s' s'' more) :
    Pushes s s'' (lines ++ more) where
  pushed := by rw [h'.pushed, h.pushed, List.append_assoc]
  limit := h'.limit.trans h.limit
  staged hroom := by
    rw [List.flatten_append, List.length_append] at hroom
    have hmid := h.staged (by omega)
    rw [h'.staged (by rw [hmid, h.limit, List.length_append]; omega), hmid, List.flatten_append,
      List.append_assoc]

theorem pushes_push (s : Outbound) (line : List UInt8) : Pushes s (s.push line) [line] where
  pushed := rfl
  limit := s.out.push_capLimit line
  staged hroom := by
    rw [List.flatten_singleton] at hroom ⊢
    exact UReplOutBuf.push_pending hroom

theorem pushError_fits {code msg : List UInt8} (h : (errorText id code msg).length + 1 < 1024) :
    s.pushError id code msg = s.push (errorText id code msg ++ lit "\n") := by
  unfold pushError
  rw [emitError_iff.mpr ⟨h, rfl⟩]

theorem pushError_over {code msg : List UInt8} (h : 1024 ≤ (errorText id code msg).length + 1) :
    s.pushError id code msg = s := by
  have hnone : emitError 1024 id code msg = .none := by
    cases he : emitError 1024 id code msg with
    | none => rfl
    | some r => exact absurd (emitError_iff.mp he).1 (by omega)
  unfold pushError
  rw [hnone]

theorem pushes_sessionWriter (s : Outbound) (write : List UInt8 × List UInt8) :
    ∃ lines, Pushes s (s.sessionWriter write) lines ∧ answers lines = [] := by
  unfold sessionWriter
  split
  · rename_i line he
    refine ⟨[line], pushes_push s line, ?_⟩
    obtain ⟨-, rfl⟩ := emitOutput_iff.mp he
    unfold answers
    rw [List.filterMap_cons_some (readHead_output ..)]
    rfl
  · exact ⟨[], .none rfl rfl rfl, rfl⟩

theorem answers_append (lines more : List (List UInt8)) :
    answers (lines ++ more) = answers lines ++ answers more := by
  unfold answers
  rw [List.filterMap_append, List.filter_append]

theorem pushes_writes (s : Outbound) (writes : List (List UInt8 × List UInt8)) :
    ∃ lines, Pushes s (writes.foldl sessionWriter s) lines ∧ answers lines = [] := by
  induction writes generalizing s with
  | nil => exact ⟨[], .none rfl rfl rfl, rfl⟩
  | cons w writes ih =>
    obtain ⟨lines, h, ha⟩ := pushes_sessionWriter s w
    obtain ⟨more, h', ha'⟩ := ih (s.sessionWriter w)
    exact ⟨lines ++ more, h.trans h', by rw [answers_append, ha, ha']; rfl⟩

/-! ## One answer -/

theorem answers_singleton {line kind : List UInt8} {n : Nat} (h : readHead line = some (n, kind))
    (hk : kind ≠ lit "output") : answers [line] = [(n, kind)] := by
  unfold answers
  rw [List.filterMap_cons_some h, List.filterMap_nil, List.filter_eq_self]
  intro x hx
  rw [List.mem_singleton.mp hx]
  exact decide_eq_true hk

theorem jsonEscape_length {src r : List UInt8} {cap : Nat} (h : jsonEscape src cap = some r) :
    r.length ≤ cap := by
  have hstep : ∀ src dst : List UInt8, dst.length ≤ cap → ∀ r,
      src.foldlM (escapeInto cap) dst = some r → r.length ≤ cap := by
    intro src
    induction src with
    | nil =>
      intro dst hdst r hr
      exact Option.some.inj hr ▸ hdst
    | cons c src ih =>
      intro dst _ r hr
      obtain ⟨dst', hdst', hr⟩ := Option.bind_eq_some_iff.mp hr
      refine ih dst' ?_ r hr
      unfold escapeInto at hdst'
      dsimp only at hdst'
      split at hdst'
      · cases hdst'
      · rename_i hle
        split at hdst'
        · cases hdst'
        · rw [← Option.some.inj hdst', List.length_append]
          omega
  exact hstep src [] (Nat.zero_le _) r h

theorem cstr_length (bytes : List UInt8) : (cstr bytes).length ≤ bytes.length :=
  (List.takeWhile_sublist _).length_le

theorem idText_length (id : UInt64) : (idText id).length ≤ 26 := by
  have hdec := decimal_length id
  have hid : (lit "\"id\":").length = 5 := rfl
  have hcomma : (lit ",").length = 1 := rfl
  unfold idText
  split
  · rw [List.length_append, List.length_append]
    omega
  · exact Nat.zero_le _

theorem doneText_length (id : UInt64) : (doneText id).length + 1 < 128 := by
  have hdec := decimal_length id
  have hopen : (lit "\x7b\"id\":").length = 6 := rfl
  have hkind : (lit ",\"kind\":\"done\"\x7d").length = 15 := rfl
  unfold doneText
  rw [List.length_append, List.length_append]
  omega

theorem resultText_length (id : UInt64) {value : List UInt8} (hv : value.length ≤ 2199) :
    (resultText id value).length + 1 < 8192 := by
  have hdec := decimal_length id
  have hopen : (lit "\x7b\"id\":").length = 6 := rfl
  have hkind : (lit ",\"kind\":\"result\",\"value\":").length = 25 := rfl
  have hnull : (lit "null").length = 4 := rfl
  have hclose : (lit "\x7d").length = 1 := rfl
  have hbody : (if value = [] then lit "null" else value).length ≤ 2199 := by
    split <;> omega
  unfold resultText
  rw [List.length_append, List.length_append, List.length_append, List.length_append]
  omega

theorem tooLarge_length (id : UInt64) :
    (errorText id (lit "response_too_large") []).length + 1 < 1024 := by
  have hid := idText_length id
  have hopen : (lit "\x7b").length = 1 := rfl
  have hrest : (lit "\"kind\":\"error\",\"code\":" ++ (quotedText (lit "response_too_large") ++
      (messageText [] ++ lit "\x7d"))).length = 43 := rfl
  unfold errorText
  rw [List.length_append, List.length_append, hrest]
  omega

end Outbound

/-- The error, if there is one, fits into the buffer `push_error` has for its envelope. -/
def Outcome.Fits (o : Outcome) (id : UInt64) : Prop :=
  o.rc = .ok ∨ (errorText id (errorCodeFor o.rc) o.message).length + 1 < 1024

def Answered (id : UInt64) (lines : List (List UInt8)) : Prop :=
  ∃ kind, (kind = lit "result" ∨ kind = lit "error") ∧
    answers lines = [(id.toNat, kind), (id.toNat, lit "done")]

namespace Outbound

variable {s : Outbound} {id : UInt64}

theorem answers_error (id : UInt64) (code msg : List UInt8) :
    answers [errorText id code msg ++ lit "\n"] = [(id.toNat, lit "error")] :=
  answers_singleton (readHead_error ..) (by decide)

theorem pushes_tooLarge (s : Outbound) (id : UInt64) : ∃ lines,
    Pushes s (s.pushError id (lit "response_too_large") []) lines ∧
      answers lines = [(id.toNat, lit "error")] := by
  rw [pushError_fits (tooLarge_length id)]
  exact ⟨_, pushes_push s _, answers_error ..⟩

theorem pushes_answer_ok {o : Outcome} (hok : o.rc = .ok) : ∃ lines,
    Pushes s (s.answer id o) lines ∧
      ∃ kind, (kind = lit "result" ∨ kind = lit "error") ∧ answers lines = [(id.toNat, kind)] := by
  unfold answer
  rw [if_pos hok]
  split
  · obtain ⟨lines, h, ha⟩ := pushes_tooLarge s id
    exact ⟨lines, h, _, .inr rfl, ha⟩
  · rename_i esc hesc
    have hlen := jsonEscape_length hesc
    have hq : (lit "\"").length = 1 := rfl
    have hv : (cstr (lit "\"" ++ (esc ++ lit "\""))).length ≤ 2199 := by
      refine Nat.le_trans (cstr_length _) ?_
      rw [List.length_append, List.length_append]
      omega
    unfold pushResult
    rw [emitResult_iff.mpr ⟨resultText_length id hv, rfl⟩]
    exact ⟨_, pushes_push s _, _, .inl rfl,
      answers_singleton (readHead_result ..) (by decide)⟩

theorem pushes_done (s : Outbound) (id : UInt64) : ∃ lines,
    Pushes s (s.pushDone id) lines ∧ answers lines = [(id.toNat, lit "done")] := by
  unfold pushDone
  rw [emitDone_iff.mpr ⟨doneText_length id, rfl⟩]
  exact ⟨_, pushes_push s _, answers_singleton (readHead_done ..) (by decide)⟩

/-- An error is answered with nothing if its envelope does not fit. -/
theorem pushes_answer (s : Outbound) (id : UInt64) (o : Outcome) : ∃ lines,
    Pushes s (s.answer id o) lines ∧
      ((∃ kind, (kind = lit "result" ∨ kind = lit "error") ∧ answers lines = [(id.toNat, kind)]) ∧
          o.Fits id ∨ answers lines = [] ∧ ¬ o.Fits id) := by
  by_cases hok : o.rc = .ok
  · obtain ⟨lines, h, ha⟩ := pushes_answer_ok hok
    exact ⟨lines, h, .inl ⟨ha, .inl hok⟩⟩
  · unfold answer
    rw [if_neg hok]
    by_cases hfits : (errorText id (errorCodeFor o.rc) o.message).length + 1 < 1024
    · rw [pushError_fits hfits]
      exact ⟨_, pushes_push s _, .inl ⟨⟨_, .inr rfl, answers_error ..⟩, .inr hfits⟩⟩
    · rw [pushError_over (by omega)]
      exact ⟨[], .none rfl rfl rfl, .inr ⟨rfl, fun h => h.elim hok hfits⟩⟩

theorem pushes_dispatchEval (run : List UInt8 → Outcome) (s : Outbound) (id : UInt64)
    (code : List UInt8) : ∃ lines, Pushes s (s.dispatchEval run id (some code)) lines ∧
      (Answered id lines ↔ (run code).Fits id) := by
  obtain ⟨outs, houts, hnone⟩ := pushes_writes { s with currentEvalId := id } (run code).writes
  obtain ⟨ans, hans, hcase⟩ := pushes_answer
    ((run code).writes.foldl sessionWriter { s with currentEvalId := id }) id (run code)
  obtain ⟨fin, hfin, hdone⟩ := pushes_done { ((run code).writes.foldl sessionWriter
    { s with currentEvalId := id }).answer id (run code) with currentEvalId := 0 } id
  have hstart : Pushes s { s with currentEvalId := id } [] := .none rfl rfl rfl
  have hend : ∀ t : Outbound, Pushes t { t with currentEvalId := 0 } [] := fun t => .none rfl rfl rfl
  refine ⟨_, (((hstart.trans houts).trans hans).trans (hend _)).trans hfin, ?_⟩
  unfold Answered
  rw [answers_append, answers_append, answers_append, answers_append, hnone, hdone]
  rcases hcase with ⟨⟨kind, hkind, ha⟩, hfits⟩ | ⟨ha, hfits⟩
  · exact ⟨fun _ => hfits, fun _ => ⟨kind, hkind, by rw [ha]; rfl⟩⟩
  · refine ⟨fun ⟨kind, _, hk⟩ => ?_, fun h => absurd h hfits⟩
    rw [ha] at hk
    cases hk

/-- With room for what is pushed, an eval is answered for its id by one result or error and then by
one done, if and only if the error, where there is one, fits into its envelope. -/
theorem eval_answered_iff (run : List UInt8 → Outcome) (s : Outbound) (id : UInt64)
    (code : List UInt8)
    (hroom : s.out.pending.length +
      ((s.dispatchEval run id (some code)).pushed.drop s.pushed.length).flatten.length ≤
        s.out.capLimit) :
    ∃ lines, (s.dispatchEval run id (some code)).pushed = s.pushed ++ lines ∧
      (s.dispatchEval run id (some code)).out.pending = s.out.pending ++ lines.flatten ∧
      (Answered id lines ↔ (run code).Fits id) := by
  obtain ⟨lines, h, hiff⟩ := pushes_dispatchEval run s id code
  rw [h.pushed, List.drop_left] at hroom
  exact ⟨lines, h.pushed, h.staged hroom, hiff⟩

end Outbound

def freshOutbound : Outbound where
  out := ⟨[], 0, 0, 65536, false, Nat.le_refl _, Nat.le_refl _, Nat.zero_le _⟩
  currentEvalId := 0
  pushed := []

def uncaught (message : List UInt8) : Outcome where
  rc := .uncaughtThrow
  writes := []
  rendered := []
  err := []
  lastError := (cstr message).take 255
  rendered_lt := by decide
  err_lt := by decide
  lastError_lt := Nat.lt_of_le_of_lt (List.length_take_le ..) (by decide)

/-- An exception with a plain message. -/
theorem eval_answered_iff_plain : ∃ lines,
    (freshOutbound.dispatchEval (fun _ => uncaught (lit "oops")) 1 (some (lit "f()"))).pushed =
      freshOutbound.pushed ++ lines ∧ Answered 1 lines := by
  obtain ⟨lines, hpushed, -, hiff⟩ := Outbound.eval_answered_iff (fun _ => uncaught (lit "oops"))
    freshOutbound 1 (lit "f()") (by decide)
  exact ⟨lines, hpushed, hiff.mpr (.inr (by decide))⟩

/-- A message of two hundred control characters: the request gets a done, and nothing else. -/
theorem eval_unanswered :
    (freshOutbound.dispatchEval (fun _ => uncaught (List.replicate 200 1)) 1
      (some (lit "f()"))).pushed = [doneText 1 ++ lit "\n"] ∧
    (freshOutbound.dispatchEval (fun _ => uncaught (List.replicate 200 1)) 1
      (some (lit "f()"))).out.pending = doneText 1 ++ lit "\n" ∧
    ¬ Answered 1 [doneText 1 ++ lit "\n"] := by
  have hover : 1024 ≤ (errorText 1 (errorCodeFor (uncaught (List.replicate 200 1)).rc)
      (uncaught (List.replicate 200 1)).message).length + 1 := by decide +kernel
  have hrun : freshOutbound.dispatchEval (fun _ => uncaught (List.replicate 200 1)) 1
      (some (lit "f()")) = freshOutbound.push (doneText 1 ++ lit "\n") := by
    unfold Outbound.dispatchEval Outbound.answer
    dsimp only
    rw [if_neg (by nofun), Outbound.pushError_over hover]
    unfold Outbound.pushDone
    rw [emitDone_iff.mpr ⟨Outbound.doneText_length 1, rfl⟩]
    rfl
  have hpushes := Outbound.pushes_push freshOutbound (doneText 1 ++ lit "\n")
  rw [hrun]
  refine ⟨hpushes.pushed, ?_, ?_⟩
  · rw [hpushes.staged (by decide), List.flatten_singleton]
    rfl
  · rintro ⟨kind, -, hk⟩
    rw [Outbound.answers_singleton (readHead_done 1 _) (by decide)] at hk
    cases hk

end Urbi.Repl
