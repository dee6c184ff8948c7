import Mathlib.Data.List.TakeWhile
import Mathlib.Data.UInt

/-!
# Framing of the request stream

`read_sweep` takes what one read of the transport gave, `drain_lines` runs the complete lines among
the bytes held.  A line is cut at the framing cap.
-/

namespace Urbi.Repl

variable {p : List UInt8}

def maxLine : Nat := 2 ^ 20
def readChunk : Nat := 4096

abbrev nl : UInt8 := 10
abbrev cr : UInt8 := 13

abbrev Chunk := { c : List UInt8 // c.length ≤ readChunk }

inductive Report (Req : Type) where
  | dispatch (req : Req)
  | parseError
  | lineTooLong
  deriving DecidableEq

structure UReplSession where
  held : List UInt8
  inCap : Nat
  inDiscard : Bool
  ended : Bool
  deriving DecidableEq

def doubled (cap want : Nat) : Nat :=
  if cap = 0 ∨ want ≤ cap then cap else doubled (2 * cap) want
termination_by want - cap

/-- None when the line is over the cap. -/
def inbufReserve (s : UReplSession) (need : Nat) : Option UReplSession :=
  if s.held.length + need ≤ s.inCap then some s
  else if maxLine < s.held.length + need then none
  else
    let cap := doubled (if s.inCap = 0 then 1024 else s.inCap) (s.held.length + need)
    some { s with inCap := if maxLine < cap then maxLine else cap }

section

variable {Req : Type} (parse : List UInt8 → Option Req)

def runLine (line : List UInt8) : List (Report Req) :=
  let line := if line.getLast? = some cr then line.dropLast else line
  if line = [] then []
  else
    match parse line with
    | some req => [.dispatch req]
    | none => [.parseError]

def drainFrom (discard : Bool) (bytes : List UInt8) : Bool × List UInt8 × List (Report Req) :=
  match _h : bytes.dropWhile (· ≠ nl) with
  | [] => (discard, bytes, [])
  | _ :: rest =>
    let line := bytes.takeWhile (· ≠ nl)
    let (discard', tail, out) := drainFrom false rest
    -- the newline of an oversized line is where the session resynchronises
    (discard', tail, (if discard then [] else runLine parse line) ++ out)
termination_by bytes.length
decreasing_by
  have hle := (List.dropWhile_sublist (l := bytes) (· ≠ nl)).length_le
  rw [_h, List.length_cons] at hle
  omega

def drainLines (s : UReplSession) : UReplSession × List (Report Req) :=
  let (discard, tail, out) := drainFrom parse s.inDiscard s.held
  ({ s with held := tail, inDiscard := discard }, out)

/-- What follows the newline of the refused line in the chunk is kept. -/
def refuse (s : UReplSession) (chunk : List UInt8) : UReplSession :=
  let s := { s with held := [], inDiscard := true }
  match chunk.dropWhile (· ≠ nl) with
  | [] => s
  | _ :: after =>
    let s := { s with inDiscard := false }
    if after.length > 0 then
      match inbufReserve s after.length with
      | some s => { s with held := s.held ++ after }
      | none => s
    else s

/-- A read of none is a negative count. -/
def readSweep (s : UReplSession) (read : Option Chunk) : UReplSession × List (Report Req) :=
  if s.ended then (s, [])
  else
    match read with
    | none => ({ s with ended := true }, [])
    | some chunk =>
      if chunk.1 = [] then (s, [])
      else
        match inbufReserve s chunk.1.length with
        | none =>
          let (s, out) := drainLines parse (refuse s chunk.1)
          (s, .lineTooLong :: out)
        | some s => drainLines parse { s with held := s.held ++ chunk.1 }

def readSweeps (s : UReplSession) : List Chunk → UReplSession × List (Report Req)
  | [] => (s, [])
  | c :: cs =>
    let (s, out) := readSweep parse s (some c)
    let (s, out') := readSweeps s cs
    (s, out ++ out')

end

def freshSession : UReplSession := ⟨[], 0, false, false⟩

section

variable {Req : Type} (parse : List UInt8 → Option Req)

def lineReport (line : List UInt8) : List (Report Req) :=
  if maxLine < line.length then [.lineTooLong] else runLine parse line

def tailReport (Req : Type) (tail : List UInt8) : List (Report Req) :=
  if maxLine < tail.length then [.lineTooLong] else []

def frames (stream : List UInt8) : List (Report Req) :=
  (stream.splitOn nl).dropLast.flatMap (lineReport parse) ++
    tailReport Req ((stream.splitOn nl).getLast (List.splitOn_ne_nil nl stream))

theorem frames_of_not_mem (hp : nl ∉ p) : frames parse p = tailReport Req p := by
  unfold frames
  simp only [List.splitOn_eq_singleton hp]
  rfl

theorem frames_append_cons (hp : nl ∉ p) (rest : List UInt8) :
    frames parse (p ++ nl :: rest) = lineReport parse p ++ frames parse rest := by
  unfold frames
  simp only [List.splitOn_append_cons_self_of_not_mem hp]
  have hne := List.splitOn_ne_nil nl rest
  rw [List.dropLast_cons_of_ne_nil hne, List.getLast_cons hne, List.flatMap_cons, List.append_assoc]

/-! ## What the code makes of them -/

theorem ne_nl_of_not_mem (hp : nl ∉ p) : ∀ b ∈ p, decide (b ≠ nl) = true :=
  fun _ hb => decide_eq_true fun he => hp (he ▸ hb)

theorem takeWhile_append_nl (hp : nl ∉ p) (rest : List UInt8) :
    (p ++ nl :: rest).takeWhile (· ≠ nl) = p := by
  rw [List.takeWhile_append_of_pos (ne_nl_of_not_mem hp)]
  simp

theorem dropWhile_append_nl (hp : nl ∉ p) (rest : List UInt8) :
    (p ++ nl :: rest).dropWhile (· ≠ nl) = nl :: rest := by
  rw [List.dropWhile_append_of_pos (ne_nl_of_not_mem hp)]
  simp

theorem dropWhile_of_not_mem (hp : nl ∉ p) : p.dropWhile (· ≠ nl) = [] :=
  List.dropWhile_eq_nil_iff.mpr (ne_nl_of_not_mem hp)

theorem line_cases (bytes : List UInt8) :
    nl ∉ bytes ∨ ∃ p rest, nl ∉ p ∧ bytes = p ++ nl :: rest := by
  by_cases h : nl ∈ bytes
  · obtain ⟨p, rest, he, hp⟩ := List.eq_append_cons_of_mem h
    exact .inr ⟨p, rest, hp, he⟩
  · exact .inl h

theorem drainFrom_of_not_mem (d : Bool) (hp : nl ∉ p) : drainFrom parse d p = (d, p, []) := by
  rw [drainFrom]
  split
  · rfl
  · rename_i h
    rw [dropWhile_of_not_mem hp] at h
    cases h

theorem drainFrom_append_cons (d : Bool) (hp : nl ∉ p) (rest : List UInt8) :
    drainFrom parse d (p ++ nl :: rest) =
      ((drainFrom parse false rest).1, (drainFrom parse false rest).2.1,
        (if d then [] else runLine parse p) ++ (drainFrom parse false rest).2.2) := by
  rw [drainFrom]
  split
  · rename_i h
    rw [dropWhile_append_nl hp] at h
    cases h
  · rename_i h
    rw [dropWhile_append_nl hp] at h
    cases h
    rw [takeWhile_append_nl hp]

theorem drainFrom_frames (bytes : List UInt8) (hlen : bytes.length ≤ maxLine) :
    (drainFrom parse false bytes).1 = false ∧ nl ∉ (drainFrom parse false bytes).2.1 ∧
      (drainFrom parse false bytes).2.1.length ≤ bytes.length ∧
      ∀ rest, frames parse (bytes ++ rest) = (drainFrom parse false bytes).2.2 ++
        frames parse ((drainFrom parse false bytes).2.1 ++ rest) := by
  induction hn : bytes.length using Nat.strong_induction_on generalizing bytes with
  | _ n ih =>
    rcases line_cases bytes with hfree | ⟨p, more, hp, rfl⟩
    · rw [drainFrom_of_not_mem parse false hfree]
      exact ⟨rfl, hfree, hn.le, fun rest => rfl⟩
    · rw [List.length_append, List.length_cons] at hn hlen
      obtain ⟨hd, hfree, hle, hframes⟩ := ih more.length (by omega) more (by omega) rfl
      rw [drainFrom_append_cons parse false hp]
      refine ⟨hd, hfree, Nat.le_trans hle (by omega), fun rest => ?_⟩
      have hline : lineReport parse p = runLine parse p := if_neg (by omega)
      rw [List.append_assoc, List.cons_append, frames_append_cons parse hp, hframes, hline,
        List.append_assoc]
      rfl

/-! ## The accumulator -/

theorem inbufReserve_none {s : UReplSession} {need : Nat} (hcap : s.inCap ≤ maxLine)
    (h : maxLine < s.held.length + need) : inbufReserve s need = none := by
  unfold inbufReserve
  rw [if_neg (by omega), if_pos h]

theorem inbufReserve_some {s : UReplSession} {need : Nat} (hcap : s.inCap ≤ maxLine)
    (h : s.held.length + need ≤ maxLine) :
    ∃ cap ≤ maxLine, inbufReserve s need = some { s with inCap := cap } := by
  unfold inbufReserve
  split
  · exact ⟨s.inCap, hcap, rfl⟩
  · rw [if_neg (by omega)]
    refine ⟨_, ?_, rfl⟩
    generalize doubled _ _ = cap
    split
    · exact Nat.le_refl _
    · omega

structure Pending (s : UReplSession) (t : List UInt8) : Prop where
  cap : s.inCap ≤ maxLine
  going : s.ended = false
  free : nl ∉ t
  heldFree : nl ∉ s.held
  kept : s.inDiscard = false → s.held = t ∧ t.length ≤ maxLine
  tooLong : s.inDiscard = true → maxLine < t.length

theorem Pending.fresh : Pending freshSession [] where
  cap := Nat.zero_le _
  going := rfl
  free := nofun
  heldFree := nofun
  kept _ := ⟨rfl, Nat.zero_le _⟩
  tooLong h := by cases h

/-- The read overruns the cap only where the line it continues does, and no line that was reported
before. -/
def Regular (s : UReplSession) (chunk : List UInt8) : Prop :=
  s.held.length + chunk.length ≤ maxLine ∨
    s.inDiscard = false ∧ maxLine < s.held.length + (chunk.takeWhile (· ≠ nl)).length

def AllRegular (s : UReplSession) : List Chunk → Prop
  | [] => True
  | c :: cs => Regular s c.1 ∧ AllRegular (readSweep parse s (some c)).1 cs

def Advances (t bytes : List UInt8) (r : UReplSession × List (Report Req)) : Prop :=
  ∃ t' done, Pending r.1 t' ∧ tailReport Req t ++ r.2 = done ++ tailReport Req t' ∧
    ∀ rest, frames parse (t ++ bytes ++ rest) = done ++ frames parse (t' ++ rest)

variable {s : UReplSession} {t : List UInt8}

theorem tailReport_of_le (h : t.length ≤ maxLine) : tailReport Req t = [] := if_neg (by omega)

theorem tailReport_of_lt (h : maxLine < t.length) : tailReport Req t = [.lineTooLong] := if_pos h

theorem drainLines_pending {bytes : List UInt8} (hcap : s.inCap ≤ maxLine) (hgoing : s.ended = false)
    (hheld : s.held = bytes) (hd : s.inDiscard = false) (hlen : bytes.length ≤ maxLine) :
    ∃ t', Pending (drainLines parse s).1 t' ∧ t'.length ≤ maxLine ∧
      ∀ rest, frames parse (bytes ++ rest) = (drainLines parse s).2 ++ frames parse (t' ++ rest) := by
  obtain ⟨hdis, hfree, hle, hframes⟩ := drainFrom_frames parse bytes hlen
  unfold drainLines
  rw [hd, hheld]
  exact ⟨_, ⟨hcap, hgoing, hfree, hfree, fun _ => ⟨rfl, by omega⟩, fun h => by
    dsimp only at h; rw [hdis] at h; cases h⟩, by omega, hframes⟩

theorem refuse_of_not_mem {chunk : List UInt8} (h : nl ∉ chunk) :
    refuse s chunk = { s with held := [], inDiscard := true } := by
  unfold refuse
  rw [dropWhile_of_not_mem h]

theorem refuse_append_cons {after : List UInt8} (hp : nl ∉ p) (hcap : s.inCap ≤ maxLine)
    (hafter : after.length ≤ maxLine) : ∃ cap ≤ maxLine,
      refuse s (p ++ nl :: after) = { s with held := after, inDiscard := false, inCap := cap } := by
  unfold refuse
  rw [dropWhile_append_nl hp]
  dsimp only
  split
  · have hfits : ([] : List UInt8).length + after.length ≤ maxLine := by
      rw [List.length_nil]
      omega
    obtain ⟨cap, hle, hres⟩ :=
      inbufReserve_some (s := { s with held := [], inDiscard := false }) hcap hfits
    exact ⟨cap, hle, by rw [hres]; rfl⟩
  · rename_i hz
    obtain rfl : after = [] := List.eq_nil_of_length_eq_zero (by omega)
    exact ⟨s.inCap, hcap, rfl⟩

theorem advances_after {after : List UInt8} {r : UReplSession × List (Report Req)}
    {out : List (Report Req)} (hfree : nl ∉ t) (hp : nl ∉ p) (hover : maxLine < (t ++ p).length)
    (hout : tailReport Req t ++ r.2 = .lineTooLong :: out)
    (hnext : ∃ t', Pending r.1 t' ∧ t'.length ≤ maxLine ∧
      ∀ rest, frames parse (after ++ rest) = out ++ frames parse (t' ++ rest)) :
    Advances parse t (p ++ nl :: after) r := by
  obtain ⟨t', hpend, hle, hframes⟩ := hnext
  refine ⟨t', .lineTooLong :: out, hpend, ?_, fun rest => ?_⟩
  · rw [hout, tailReport_of_le hle, List.append_nil]
  · have hmem : nl ∉ t ++ p := List.not_mem_append hfree hp
    have hline : lineReport parse (t ++ p) = [.lineTooLong] := if_pos hover
    rw [← List.append_assoc, List.append_assoc, List.cons_append, frames_append_cons parse hmem,
      hline, hframes]
    rfl

theorem drainLines_of_not_mem (h : nl ∉ s.held) : drainLines parse s = (s, []) := by
  unfold drainLines
  rw [drainFrom_of_not_mem parse _ h]

theorem readSweep_fits (hcap : s.inCap ≤ maxLine) (hgoing : s.ended = false) {c : Chunk}
    (hc : c.1 ≠ []) (hfits : s.held.length + c.1.length ≤ maxLine) :
    ∃ cap ≤ maxLine, readSweep parse s (some c) =
      drainLines parse { s with held := s.held ++ c.1, inCap := cap } := by
  obtain ⟨cap, hle, hres⟩ := inbufReserve_some hcap hfits
  refine ⟨cap, hle, ?_⟩
  unfold readSweep
  rw [if_neg (by rw [hgoing]; nofun)]
  dsimp only
  rw [if_neg hc, hres]

theorem readSweep_over (hcap : s.inCap ≤ maxLine) (hgoing : s.ended = false) {c : Chunk}
    (hc : c.1 ≠ []) (hover : maxLine < s.held.length + c.1.length) :
    readSweep parse s (some c) = ((drainLines parse (refuse s c.1)).1,
      .lineTooLong :: (drainLines parse (refuse s c.1)).2) := by
  unfold readSweep
  rw [if_neg (by rw [hgoing]; nofun)]
  dsimp only
  rw [if_neg hc, inbufReserve_none hcap hover]

theorem readSweep_advances (h : Pending s t) (c : Chunk) (hr : Regular s c.1) :
    Advances parse t c.1 (readSweep parse s (some c)) := by
  have hmax : readChunk ≤ maxLine := by decide
  have hlen := c.2
  by_cases hc : c.1 = []
  · -- nothing was read
    have hread : readSweep parse s (some c) = (s, []) := by
      unfold readSweep
      rw [if_neg (by rw [h.going]; nofun)]
      exact if_pos hc
    rw [hread, hc]
    exact ⟨t, [], h, by rw [List.append_nil, List.nil_append], fun rest => by
      rw [List.append_nil, List.nil_append]⟩
  cases hd : s.inDiscard with
  | false =>
    obtain ⟨hheld, hle⟩ := h.kept hd
    rcases Nat.lt_or_ge maxLine (s.held.length + c.1.length) with hover | hfits
    · rw [readSweep_over parse h.cap h.going hc hover]
      rcases line_cases c.1 with hfree | ⟨p, after, hp, he⟩
      · rw [refuse_of_not_mem hfree, drainLines_of_not_mem parse List.not_mem_nil]
        have hmem : nl ∉ t ++ c.1 := List.not_mem_append h.free hfree
        have hlt : maxLine < (t ++ c.1).length := by
          rw [List.length_append, ← hheld]
          exact hover
        refine ⟨t ++ c.1, [], ⟨h.cap, h.going, hmem, List.not_mem_nil, nofun, fun _ => hlt⟩, ?_,
          fun rest => rfl⟩
        rw [tailReport_of_le hle, tailReport_of_lt hlt]
      · -- the read was regular, so that it is the line that is over the cap
        have hline : maxLine < (t ++ p).length := by
          rcases hr with hr | hr
          · exact absurd hr (Nat.not_le.mpr hover)
          · rw [he, takeWhile_append_nl hp] at hr
            rw [List.length_append, ← hheld]
            exact hr.2
        rw [he, List.length_append, List.length_cons] at hlen
        have hafter : after.length ≤ maxLine := by omega
        obtain ⟨cap, hcap, href⟩ := refuse_append_cons hp h.cap hafter
        rw [he, href]
        refine advances_after parse h.free hp hline (by rw [tailReport_of_le hle]; rfl) ?_
        exact drainLines_pending parse hcap h.going rfl rfl hafter
    · obtain ⟨cap, hcap, hread⟩ := readSweep_fits parse h.cap h.going hc hfits
      have hlen' : (t ++ c.1).length ≤ maxLine := by
        rw [List.length_append, ← hheld]
        exact hfits
      rw [hread, hheld]
      obtain ⟨t', hpend, hle', hframes⟩ := drainLines_pending parse
        (s := { s with held := t ++ c.1, inCap := cap }) hcap h.going rfl hd hlen'
      refine ⟨t', _, hpend, ?_, hframes⟩
      rw [tailReport_of_le hle, tailReport_of_le hle', List.append_nil]
      rfl
  | true =>
    have hover := h.tooLong hd
    have hfits : s.held.length + c.1.length ≤ maxLine := by
      rcases hr with hr | hr
      · exact hr
      · rw [hd] at hr
        cases hr.1
    obtain ⟨cap, hcap, hread⟩ := readSweep_fits parse h.cap h.going hc hfits
    rw [hread]
    rcases line_cases c.1 with hfree | ⟨p, after, hp, he⟩
    · have hmem : nl ∉ t ++ c.1 := List.not_mem_append h.free hfree
      have hheld : nl ∉ s.held ++ c.1 := List.not_mem_append h.heldFree hfree
      have hlt : maxLine < (t ++ c.1).length := by
        rw [List.length_append]
        omega
      rw [drainLines_of_not_mem parse hheld]
      refine ⟨t ++ c.1, [], ⟨hcap, h.going, hmem, hheld, fun hf => ?_, fun _ => hlt⟩, ?_,
        fun rest => rfl⟩
      · cases hd.symm.trans hf
      · rw [tailReport_of_lt hover, tailReport_of_lt hlt]
        rfl
    · have hheld : nl ∉ s.held ++ p := List.not_mem_append h.heldFree hp
      rw [he, List.length_append, List.length_cons] at hlen
      -- from the newline on the session is as if it had held the rest alone
      have hrun : drainLines parse { s with held := s.held ++ (p ++ nl :: after), inCap := cap } =
          drainLines parse { s with inCap := cap, held := after, inDiscard := false } := by
        dsimp only [drainLines]
        rw [← List.append_assoc, hd, drainFrom_append_cons parse true hheld]
        rfl
      rw [he, hrun]
      refine advances_after parse h.free hp ?_ (by rw [tailReport_of_lt hover]; rfl) ?_
      · rw [List.length_append]
        omega
      · exact drainLines_pending parse hcap h.going rfl rfl (by omega)

theorem readSweeps_cons (s : UReplSession) (c : Chunk) (cs : List Chunk) :
    readSweeps parse s (c :: cs) = ((readSweeps parse (readSweep parse s (some c)).1 cs).1,
        (readSweep parse s (some c)).2 ++ (readSweeps parse (readSweep parse s (some c)).1 cs).2) :=
  rfl

theorem readSweeps_frames (h : Pending s t) {cs : List Chunk} (hcs : AllRegular parse s cs) :
    tailReport Req t ++ (readSweeps parse s cs).2 =
      frames parse (t ++ (cs.map Subtype.val).flatten) := by
  induction cs generalizing s t with
  | nil =>
    show tailReport Req t ++ [] = frames parse (t ++ [])
    rw [List.append_nil, List.append_nil, frames_of_not_mem parse h.free]
  | cons c cs ih =>
    obtain ⟨t', done, hpend, hout, hframes⟩ := readSweep_advances parse h c hcs.1
    rw [readSweeps_cons, ← List.append_assoc, hout, List.append_assoc, ih hpend hcs.2, List.map_cons,
      List.flatten_cons, ← List.append_assoc, hframes]

/-- Reads that overrun the cap only where a line does are reported as the lines of the stream are,
wherever they cut it. -/
theorem readSweeps_eq_frames (cs : List Chunk) (hcs : AllRegular parse freshSession cs) :
    (readSweeps parse freshSession cs).2 = frames parse (cs.map Subtype.val).flatten :=
  readSweeps_frames parse Pending.fresh hcs

/-- A line that two reads cut, with the beginning of the next one. -/
theorem readSweeps_eq_frames_split :
    let cs : List Chunk := [⟨[97], by decide⟩, ⟨[98, nl, 99], by decide⟩]
    AllRegular some freshSession cs ∧ (readSweeps some freshSession cs).2 = frames some [97, 98, nl, 99] := by
  have hfirst : (readSweep some freshSession (some ⟨[97], by decide⟩)).1.held = [97] := by
    obtain ⟨cap, -, hread⟩ := readSweep_fits some (s := freshSession) (c := ⟨[97], by decide⟩)
      (Nat.zero_le _) rfl (List.cons_ne_nil _ _) (by decide)
    have hkept : drainLines some ⟨[97], cap, false, false⟩ = _ :=
      drainLines_of_not_mem some (by decide : nl ∉ [97])
    exact congrArg (·.1.held) (hread.trans hkept)
  have hcs : AllRegular some freshSession [⟨[97], by decide⟩, ⟨[98, nl, 99], by decide⟩] :=
    ⟨.inl (by decide), .inl (by rw [hfirst]; decide), trivial⟩
  exact ⟨hcs, readSweeps_eq_frames some _ hcs⟩

/-! ## A read that packs the next line behind a long one -/

theorem drainLines_line (cap : Nat) (hp : nl ∉ p) :
    drainLines parse ⟨p ++ [nl], cap, false, false⟩ = (⟨[], cap, false, false⟩, runLine parse p) := by
  unfold drainLines
  rw [drainFrom_append_cons parse false hp, drainFrom_of_not_mem parse false List.not_mem_nil,
    List.append_nil]
  rfl

theorem readSweeps_held (hcap : s.inCap ≤ maxLine) (hgoing : s.ended = false) (hheld : nl ∉ s.held)
    {pre : List Chunk} (hne : ∀ c ∈ pre, c.1 ≠ []) (hfree : ∀ c ∈ pre, nl ∉ c.1)
    (hfits : s.held.length + (pre.map Subtype.val).flatten.length ≤ maxLine) (cs : List Chunk) :
    ∃ cap ≤ maxLine, readSweeps parse s (pre ++ cs) =
      readSweeps parse { s with held := s.held ++ (pre.map Subtype.val).flatten, inCap := cap } cs := by
  induction pre generalizing s with
  | nil => exact ⟨s.inCap, hcap, by rw [List.map_nil, List.flatten_nil, List.append_nil]; rfl⟩
  | cons c pre ih =>
    rw [List.map_cons, List.flatten_cons, List.length_append] at hfits
    have hnl : nl ∉ s.held ++ c.1 := List.not_mem_append hheld (hfree c List.mem_cons_self)
    obtain ⟨cap, hle, hread⟩ := readSweep_fits parse hcap hgoing (hne c List.mem_cons_self)
      (by omega)
    rw [drainLines_of_not_mem parse hnl] at hread
    obtain ⟨cap', hle', hrest⟩ := ih (s := { s with held := s.held ++ c.1, inCap := cap }) hle hgoing
      hnl (fun c' hc' => hne c' (List.mem_cons_of_mem _ hc'))
      (fun c' hc' => hfree c' (List.mem_cons_of_mem _ hc'))
      (by show (s.held ++ c.1).length + _ ≤ _; rw [List.length_append]; omega)
    refine ⟨cap', hle', ?_⟩
    rw [List.cons_append, readSweeps_cons, hread, hrest, List.map_cons, List.flatten_cons,
      List.append_assoc]
    rfl

end

@[irreducible] def longLine : List UInt8 := List.replicate (maxLine - 1) 97

theorem longLine_length : longLine.length = maxLine - 1 := by
  unfold longLine
  exact List.length_replicate ..

theorem nl_not_mem_longLine : nl ∉ longLine := by
  unfold longLine
  intro h
  cases List.eq_of_mem_replicate h

theorem runLine_longLine : runLine some longLine = [.dispatch longLine] := by
  have hlast : longLine.getLast? ≠ some cr := by
    unfold longLine
    rw [List.getLast?_replicate, if_neg (by decide)]
    decide
  have hne : longLine ≠ [] := by
    intro h
    have hlen := longLine_length
    rw [h] at hlen
    exact absurd hlen (by decide)
  unfold runLine
  rw [if_neg hlast, if_neg hne]

def longReads : List Chunk :=
  List.replicate 255 ⟨List.replicate 4096 97, (List.length_replicate ..).le⟩ ++
    [⟨List.replicate 4095 97, by rw [List.length_replicate]; decide⟩]

theorem longReads_flatten : (longReads.map Subtype.val).flatten = longLine := by
  unfold longReads longLine
  rw [List.map_append, List.flatten_append, List.map_replicate, List.flatten_replicate_replicate,
    List.map_singleton, List.flatten_singleton, List.replicate_append_replicate]
  exact congrArg (List.replicate · 97) (by decide)

theorem longReads_ok : (∀ c ∈ longReads, c.1 ≠ []) ∧ ∀ c ∈ longReads, nl ∉ c.1 := by
  have hmem : ∀ c ∈ longReads, ∃ n, n ≠ 0 ∧ c.1 = List.replicate n 97 := by
    intro c hc
    rcases List.mem_append.mp hc with hc | hc
    · exact ⟨4096, by decide, congrArg Subtype.val (List.eq_of_mem_replicate hc)⟩
    · exact ⟨4095, by decide, congrArg Subtype.val (List.mem_singleton.mp hc)⟩
  constructor
  · intro c hc
    obtain ⟨n, hn, he⟩ := hmem c hc
    rw [he, Ne, List.replicate_eq_nil_iff]
    exact hn
  · intro c hc hnl
    obtain ⟨n, -, he⟩ := hmem c hc
    rw [he] at hnl
    cases List.eq_of_mem_replicate hnl

def longHeld (cap : Nat) : UReplSession := ⟨longLine, cap, false, false⟩

theorem drainLines_short (cap : Nat) :
    (drainLines some ⟨[98, nl], cap, false, false⟩).2 = [.dispatch [(98 : UInt8)]] :=
  congrArg Prod.snd (drainLines_line some cap (p := [98]) (by decide))

theorem readSweeps_packed {cap : Nat} (hcap : cap ≤ maxLine) :
    (readSweeps some (longHeld cap) [⟨[nl, 98, nl], by decide⟩]).2 =
      [.lineTooLong, .dispatch [98]] := by
  have hover : maxLine < (longHeld cap).held.length + 3 := by
    show maxLine < longLine.length + 3
    rw [longLine_length]
    omega
  have hafter : ([98, nl] : List UInt8).length ≤ maxLine := by decide
  obtain ⟨cap', -, href⟩ :=
    refuse_append_cons (s := longHeld cap) (p := []) List.not_mem_nil hcap hafter
  have href' : refuse (longHeld cap) [nl, 98, nl] = ⟨[98, nl], cap', false, false⟩ := href
  rw [readSweeps_cons, readSweep_over some hcap rfl (by nofun) hover]
  show .lineTooLong :: (drainLines some (refuse (longHeld cap) [nl, 98, nl])).2 ++ [] = _
  rw [href', drainLines_short]
  rfl

theorem readSweeps_separate {cap : Nat} (hcap : cap ≤ maxLine) :
    (readSweeps some (longHeld cap) [⟨[nl], by decide⟩, ⟨[98, nl], by decide⟩]).2 =
      [.dispatch longLine, .dispatch [98]] := by
  have hmax : 1 ≤ maxLine := by decide
  have hfits : (longHeld cap).held.length + 1 ≤ maxLine := by
    show longLine.length + 1 ≤ maxLine
    rw [longLine_length]
    omega
  obtain ⟨cap₁, hcap₁, hread₁⟩ :=
    readSweep_fits (c := ⟨[nl], by decide⟩) some hcap rfl (by nofun) hfits
  -- the first read completes the long line and leaves nothing
  have hdrain := drainLines_line some cap₁ nl_not_mem_longLine
  rw [runLine_longLine] at hdrain
  have hfits₂ : ([] : List UInt8).length + 2 ≤ maxLine := by decide
  obtain ⟨cap₂, -, hread₂⟩ := readSweep_fits (s := ⟨[], cap₁, false, false⟩)
    (c := ⟨[98, nl], by decide⟩) some hcap₁ rfl (by nofun) hfits₂
  rw [readSweeps_cons, hread₁.trans hdrain, readSweeps_cons, hread₂]
  show [_] ++ ((drainLines some ⟨[98, nl], cap₂, false, false⟩).2 ++ []) = _
  rw [drainLines_short]
  rfl

/-- The same stream, read in two ways: a line within the cap is refused when the line after it comes
with its newline. -/
theorem framing_depends_on_reads : ∃ cs cs' : List Chunk, (∀ c ∈ cs ++ cs', c.1 ≠ []) ∧
    (cs.map Subtype.val).flatten = (cs'.map Subtype.val).flatten ∧
    (readSweeps some freshSession cs).2 = [.lineTooLong, .dispatch [98]] ∧
    (readSweeps some freshSession cs').2 = [.dispatch longLine, .dispatch [98]] ∧
    longLine.length ≤ maxLine := by
  have hfits : freshSession.held.length + (longReads.map Subtype.val).flatten.length ≤ maxLine := by
    rw [longReads_flatten, longLine_length]
    exact (Nat.zero_add _).trans_le (Nat.sub_le ..)
  have hheld : ∀ cs, ∃ cap ≤ maxLine, readSweeps some freshSession (longReads ++ cs) =
      readSweeps some (longHeld cap) cs := by
    intro cs
    obtain ⟨cap, hcap, hread⟩ := readSweeps_held (s := freshSession) some (Nat.zero_le _) rfl
      List.not_mem_nil longReads_ok.1 longReads_ok.2 hfits cs
    rw [longReads_flatten] at hread
    exact ⟨cap, hcap, hread⟩
  refine ⟨longReads ++ [⟨[nl, 98, nl], by decide⟩], longReads ++ [⟨[nl], by decide⟩, ⟨[98, nl],
    by decide⟩], ?_, ?_, ?_, ?_, by rw [longLine_length]; exact Nat.sub_le ..⟩
  · intro c hc
    simp only [List.mem_append, List.mem_cons, List.not_mem_nil, or_false] at hc
    rcases hc with (hc | rfl) | hc | rfl | rfl
    · exact longReads_ok.1 c hc
    · nofun
    · exact longReads_ok.1 c hc
    · nofun
    · nofun
  · rw [List.map_append, List.map_append, List.flatten_append, List.flatten_append]
    exact congrArg _ (by decide)
  · obtain ⟨cap, hcap, hread⟩ := hheld [⟨[nl, 98, nl], by decide⟩]
    rw [hread]
    exact readSweeps_packed hcap
  · obtain ⟨cap, hcap, hread⟩ := hheld [⟨[nl], by decide⟩, ⟨[98, nl], by decide⟩]
    rw [hread]
    exact readSweeps_separate hcap

end Urbi.Repl
