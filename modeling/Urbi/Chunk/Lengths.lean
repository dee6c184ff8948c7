import Urbi.Chunk.Deserialize
import Urbi.Lib.Trail

/-!
# Declared lengths

The loader once more, with a trail.  A declared length is compared with the buffer as
`d->off + len > d->size`, in 64 bits; a length that makes the sum wrap passes.
-/

namespace Urbi

open Lib

abbrev Trace (α : Type) : Type := Traced Nat UChunkLoadError α

/-! ## The loader with its trail -/

def traceVarintU : Trace Nat := .moving moduleDecodeVarintU

def traceBytes (alloc : UChunkAlloc) (len : Nat) : Trace Bytes := do
  .quiet (requireBytes len)
  .quiet (allocate alloc (len + 1))
  .moving (takeBytes len)

def traceMetadata (alloc : UChunkAlloc) : Trace (Option Bytes) := do
  let srcLen ← traceVarintU
  .quiet (requireBytes srcLen)
  if srcLen > 0 then do
    .quiet (allocate alloc (srcLen + 1))
    let name ← .moving (takeBytes srcLen)
    pure (some name)
  else pure none

def traceFixed (n : Nat) : Trace Bytes := do
  .quiet (requireBytes n)
  .moving (takeBytes n)

def traceConstant (alloc : UChunkAlloc) : Trace UConst := do
  let kind ← traceFixed 1
  .quiet (require (leValue kind ≤ 4) .corruptTag)
  match leValue kind with
  | 1 => do
      let v ← .moving moduleDecodeVarintZz
      pure (.int v)
  | 2 => do
      let bits ← traceFixed 8
      pure (.float (UInt64.ofNat (leValue bits)))
  | 4 => do
      let slen ← traceVarintU
      let bytes ← traceBytes alloc slen
      pure (.str bytes)
  | _ => .quiet (throw .corruptTag)

def traceConstants (alloc : UChunkAlloc) : Trace (List UConst) := do
  let n ← traceVarintU
  .quiet (require (n ≤ 65536) .corrupt)
  .quiet (allocateFor alloc n (16 * n))
  .times (fun _ => traceConstant alloc) n 0

def traceInstruction : Trace UInt32 := do
  let bytes ← traceFixed 4
  pure (UInt32.ofNat (leValue bytes))

def traceInstructions (alloc : UChunkAlloc) : Trace (List UInt32) := do
  let n ← traceVarintU
  .quiet (require (n ≤ urbiMaxInstrsPerProto) .oversized)
  .moving (decodeAlign 3)
  .quiet (allocateFor alloc n (4 * n))
  .times (fun _ => traceInstruction) n 0

def traceLineDeltas (alloc : UChunkAlloc) (instrCount : Nat) : Trace Bytes := do
  let n ← traceVarintU
  .quiet (require (n = instrCount) .corrupt)
  if n > 0 then do
    .quiet (allocate alloc n)
    traceFixed n
  else pure []

def traceAbsLines (instrCount : Nat) : Nat → Option Nat → Trace (List UAbsLine)
  | 0, _ => pure []
  | n + 1, prev => do
      let pc ← traceVarintU
      let line ← traceVarintU
      .report line
      .quiet (require (pc < instrCount) .corrupt)
      .quiet (require (prev.all fun p => p < pc % 2 ^ 32) .corrupt)
      let rest ← traceAbsLines instrCount n (some (pc % 2 ^ 32))
      pure (⟨UInt32.ofNat pc, UInt32.ofNat line⟩ :: rest)

def traceAbsLineTable (alloc : UChunkAlloc) (instrCount : Nat) : Trace (List UAbsLine) := do
  let n ← traceVarintU
  .quiet (require (n ≤ instrCount) .corrupt)
  .quiet (allocateFor alloc n (8 * n))
  traceAbsLines instrCount n none

def traceSiteName (alloc : UChunkAlloc) : Trace (Option Bytes) := do
  let nlen ← traceVarintU
  .quiet (require (nlen ≤ 256) .corrupt)
  let name ← traceBytes alloc nlen
  pure (some name)

def traceSiteNames (alloc : UChunkAlloc) : Trace (List (Option Bytes)) := do
  let count ← traceVarintU
  .quiet (require (count ≤ 65535) .corrupt)
  .quiet (requireRemaining count)
  .quiet (allocateFor alloc count (8 * count))
  .times (fun _ => traceSiteName alloc) count 0

def decodeFrame : Decode (UInt8 × UInt8 × UInt8) := do
  let maxReg ← decodeByte
  let nupvals ← decodeByte
  let nparams ← decodeByte
  pure (maxReg, nupvals, nparams)

def traceBlock (alloc : UChunkAlloc) (arity : Bool) : Trace Block := do
  .quiet (requireBytes 3)
  let (maxReg, nupvals, nparams) ← .moving decodeFrame
  .quiet (require (frameFits arity maxReg nparams) .corrupt)
  let constants ← traceConstants alloc
  let instructions ← traceInstructions alloc
  let lineDeltas ← traceLineDeltas alloc instructions.length
  let absLines ← traceAbsLineTable alloc instructions.length
  let siteNameStrs ← traceSiteNames alloc
  pure ⟨maxReg, nupvals, nparams, arity, constants, instructions, lineDeltas, absLines,
    siteNameStrs⟩

def traceChild (alloc : UChunkAlloc) (record : Trace UProto) (i : Nat) :
    Trace (Option UProto) := do
  .quiet (growNested alloc i)
  .quiet (allocateProto alloc)
  let p ← record
  pure (some p)

def traceNested (child : Nat → Trace (Option UProto)) : Trace (List (Option UProto)) := do
  let n ← traceVarintU
  .quiet (require (n ≤ 1024) .corrupt)
  .times child n 0

def traceProto (alloc : UChunkAlloc) (arity : Bool) : Nat → Trace UProto
  | 0 => do
      let b ← traceBlock alloc arity
      let ns ← traceNested fun _ => .quiet (throw .corrupt)
      pure (.mk b ns)
  | levels + 1 => do
      let b ← traceBlock alloc arity
      let ns ← traceNested (traceChild alloc (traceProto alloc arity levels))
      pure (.mk b ns)

def traceChunk (alloc : UChunkAlloc) : Trace UChunk := do
  .quiet (allocateProto alloc)
  let arity ← .moving decodeHeader
  let sourceName ← traceMetadata alloc
  let root ← traceProto alloc arity uchunkMaxProtoDepth
  .quiet decodeTrailer
  pure ⟨sourceName, root⟩

def traceDeserialize (alloc : UChunkAlloc) (buf : Bytes) :
    List Mark × Except UChunkLoadError UChunk :=
  match traceChunk alloc ⟨0, buf, 0⟩ with
  | (ms, .error e) => (ms, .error e)
  | (ms, .ok (c, d)) => (ms, do
      verifyProtoRecursive c.root
      let _ ← verifyBoundsProto alloc c.root d.aux
      .ok c)

/-! ## Without the trail -/

section Outcome

variable (alloc : UChunkAlloc)

@[simp] theorem outcome_traceVarintU : traceVarintU.outcome = moduleDecodeVarintU :=
  Traced.outcome_moving _

@[simp] theorem outcome_traceBytes (len : Nat) :
    (traceBytes alloc len).outcome = decodeBytes alloc len := by
  simp [traceBytes, decodeBytes]

theorem outcome_traceMetadata : (traceMetadata alloc).outcome = decodeMetadata alloc := by
  simp [traceMetadata, decodeMetadata, apply_ite Traced.outcome]

@[simp] theorem outcome_traceFixed (n : Nat) :
    (traceFixed n).outcome = requireBytes n >>= fun _ => takeBytes n := by
  simp [traceFixed]

@[simp] theorem outcome_traceConstant : (traceConstant alloc).outcome = decodeConstant alloc := by
  simp only [traceConstant, decodeConstant, Traced.outcome_bind, Traced.outcome_quiet,
    outcome_traceFixed, bind_assoc]
  congr 1
  funext _
  congr 1
  funext kind
  congr 1
  funext _
  generalize leValue kind = v
  split
  · simp
  · simp
  · simp
  · simp

@[simp] theorem outcome_traceConstants : (traceConstants alloc).outcome = decodeConstants alloc := by
  simp [traceConstants, decodeConstants]

@[simp] theorem outcome_traceInstruction : traceInstruction.outcome = decodeInstruction := by
  simp [traceInstruction, decodeInstruction]

@[simp] theorem outcome_traceInstructions :
    (traceInstructions alloc).outcome = decodeInstructions alloc := by
  simp [traceInstructions, decodeInstructions]

@[simp] theorem outcome_traceLineDeltas (instrCount : Nat) :
    (traceLineDeltas alloc instrCount).outcome = decodeLineDeltas alloc instrCount := by
  simp [traceLineDeltas, decodeLineDeltas, apply_ite Traced.outcome]

@[simp] theorem outcome_traceAbsLines (instrCount n : Nat) (prev : Option Nat) :
    (traceAbsLines instrCount n prev).outcome = decodeAbsLines instrCount n prev := by
  induction n generalizing prev with
  | zero => rfl
  | succ n ih =>
    simp [traceAbsLines, decodeAbsLines, ih]

@[simp] theorem outcome_traceAbsLineTable (instrCount : Nat) :
    (traceAbsLineTable alloc instrCount).outcome = decodeAbsLineTable alloc instrCount := by
  simp [traceAbsLineTable, decodeAbsLineTable]

@[simp] theorem outcome_traceSiteName : (traceSiteName alloc).outcome = decodeSiteName alloc := by
  simp [traceSiteName, decodeSiteName]

@[simp] theorem outcome_traceSiteNames : (traceSiteNames alloc).outcome = decodeSiteNames alloc := by
  simp [traceSiteNames, decodeSiteNames]

@[simp] theorem outcome_traceBlock (arity : Bool) :
    (traceBlock alloc arity).outcome = decodeBlock alloc arity := by
  simp [traceBlock, decodeBlock, decodeFrame]

@[simp] theorem outcome_traceChild (record : Trace UProto) (i : Nat) :
    (traceChild alloc record i).outcome = decodeChild alloc record.outcome i := by
  simp [traceChild, decodeChild]

@[simp] theorem outcome_traceNested (child : Nat → Trace (Option UProto)) :
    (traceNested child).outcome = decodeNested fun i => (child i).outcome := by
  simp [traceNested, decodeNested]

@[simp] theorem outcome_traceProto (arity : Bool) (levels : Nat) :
    (traceProto alloc arity levels).outcome = decodeProto alloc arity levels := by
  induction levels with
  | zero => simp [traceProto, decodeProto]
  | succ levels ih => simp [traceProto, decodeProto, ih]

theorem outcome_traceChunk : (traceChunk alloc).outcome = decodeChunk alloc := by
  simp [traceChunk, decodeChunk, outcome_traceMetadata]

theorem outcome_traceDeserialize (buf : Bytes) :
    (traceDeserialize alloc buf).2 = uchunkDeserialize alloc buf := by
  have hrun : (traceChunk alloc ⟨0, buf, 0⟩).2 = decodeChunk alloc ⟨0, buf, 0⟩ :=
    congrFun (outcome_traceChunk alloc) _
  unfold traceDeserialize uchunkDeserialize
  rw [← hrun]
  rcases traceChunk alloc ⟨0, buf, 0⟩ with ⟨ms, e | ⟨c, d⟩⟩ <;> rfl

theorem trail_traceDeserialize (buf : Bytes) :
    (traceDeserialize alloc buf).1 = (traceChunk alloc).trail ⟨0, buf, 0⟩ := by
  unfold traceDeserialize Traced.trail
  rcases traceChunk alloc ⟨0, buf, 0⟩ with ⟨ms, e | ⟨c, d⟩⟩ <;> rfl

end Outcome

/-! ## Decoders that report nothing -/

section Silent

variable {α β : Type} {alloc : UChunkAlloc}

def Silent (m : Trace α) : Prop := ∀ d, values (m.trail d) = []

theorem silent_pure (a : α) : Silent (pure a) := fun _ => rfl

theorem silent_quiet (m : Decode α) : Silent (.quiet m) := fun _ => rfl

theorem silent_moving (m : Decode α) : Silent (.moving m) := fun _ => Traced.values_trail_moving m

theorem Silent.bind {m : Trace α} {f : α → Trace β} (hm : Silent m) (hf : ∀ a, Silent (f a)) :
    Silent (m >>= f) := by
  intro d
  cases hr : m.outcome d with
  | error e =>
    have happ := Traced.bind_apply_of_error (f := f) hr
    have htrail : (m >>= f).trail d = m.trail d := congrArg Prod.fst happ
    rw [htrail, hm]
  | ok r => rw [Traced.trail_bind_of_ok hr, values_append, hm, hf, List.append_nil]

theorem Silent.times {m : Nat → Trace α} (h : ∀ i, Silent (m i)) (n i : Nat) :
    Silent (Traced.times m n i) := by
  induction n generalizing i with
  | zero => exact silent_pure []
  | succ n ih => exact (h i).bind fun x => (ih _).bind fun xs => silent_pure _

theorem silent_traceFixed (n : Nat) : Silent (traceFixed n) :=
  (silent_quiet _).bind fun _ => silent_moving _

theorem silent_traceBytes (len : Nat) : Silent (traceBytes alloc len) :=
  (silent_quiet _).bind fun _ => (silent_quiet _).bind fun _ => silent_moving _

theorem silent_traceMetadata : Silent (traceMetadata alloc) := by
  refine (silent_moving _).bind fun n => (silent_quiet _).bind fun _ => ?_
  split
  · exact (silent_quiet _).bind fun _ => (silent_moving _).bind fun _ => silent_pure _
  · exact silent_pure _

theorem silent_traceConstants : Silent (traceConstants alloc) := by
  refine (silent_moving _).bind fun n => (silent_quiet _).bind fun _ =>
    (silent_quiet _).bind fun _ => Silent.times (fun _ => ?_) n 0
  refine (silent_traceFixed 1).bind fun kind => (silent_quiet _).bind fun _ => ?_
  split
  · exact (silent_moving _).bind fun _ => silent_pure _
  · exact (silent_traceFixed 8).bind fun _ => silent_pure _
  · exact (silent_moving _).bind fun n => (silent_traceBytes n).bind fun _ => silent_pure _
  · exact silent_quiet _

theorem silent_traceInstructions : Silent (traceInstructions alloc) :=
  (silent_moving _).bind fun n => (silent_quiet _).bind fun _ => (silent_moving _).bind fun _ =>
    (silent_quiet _).bind fun _ =>
      Silent.times (fun _ => (silent_traceFixed 4).bind fun _ => silent_pure _) n 0

theorem silent_traceLineDeltas (instrCount : Nat) : Silent (traceLineDeltas alloc instrCount) := by
  refine (silent_moving _).bind fun n => (silent_quiet _).bind fun _ => ?_
  split
  · exact (silent_quiet _).bind fun _ => silent_traceFixed n
  · exact silent_pure _

theorem silent_traceSiteNames : Silent (traceSiteNames alloc) :=
  (silent_moving _).bind fun n => (silent_quiet _).bind fun _ => (silent_quiet _).bind fun _ =>
    (silent_quiet _).bind fun _ => Silent.times (fun _ => (silent_moving _).bind fun k =>
      (silent_quiet _).bind fun _ => (silent_traceBytes k).bind fun _ => silent_pure _) n 0

end Silent

/-! ## Where the loader's trail leads -/

/-- The check in front of a read of `n` bytes: `off + n` in 64 bits is not above the size. -/
def Fits (size n : Nat) (d : Cursor Nat) : Prop := (d.off + n) % 2 ^ 64 ≤ size

theorem moduleDecodeVarint_moves {α : Type} {decode : Bytes → Except UVarintError (α × Nat)}
    (hlen : ∀ bs v n, decode bs = .ok (v, n) → n ≤ bs.length) {d d' : Cursor Nat} {v : α}
    (h : moduleDecodeVarint decode d = .ok (v, d')) :
    ∃ n ≤ d.rest.length, d'.off = d.off + n ∧ d'.rest = d.rest.drop n := by
  unfold moduleDecodeVarint at h
  cases hdec : decode d.rest with
  | error e => simp only [hdec] at h; cases h
  | ok r =>
    simp only [hdec] at h
    cases h
    exact ⟨r.2, hlen _ _ _ hdec, rfl, rfl⟩

theorem decodeAlign_moves {fuel : Nat} {d d' : Cursor Nat} {u : Unit}
    (h : decodeAlign fuel d = .ok (u, d')) :
    d.off ≤ d'.off ∧ d'.off + d'.rest.length = d.off + d.rest.length := by
  induction fuel generalizing d with
  | zero => cases h; exact ⟨le_refl _, rfl⟩
  | succ fuel ih =>
    rw [decodeAlign] at h
    dsimp only at h
    split at h
    · split at h
      · cases h
      · rename_i b bs hrest
        split at h
        · cases h
        · have hnext := ih h
          rw [hrest, List.length_cons]
          dsimp only at hnext
          omega
    · cases h
      exact ⟨le_refl _, rfl⟩

section Goes

variable {α : Type} {size : Nat}

abbrev GoesOn (size : Nat) (m : Trace α) : Prop :=
  Goes (2 ^ 64) size (fun _ => True) m fun _ _ => True

theorem goesOn_pure (a : α) : GoesOn size (pure a) :=
  (Goes.pure a).mono (fun _ _ => trivial) fun _ _ _ => trivial

theorem GoesOn.bind {β : Type} {m : Trace α} {f : α → Trace β} (hm : GoesOn size m)
    (hf : ∀ a, GoesOn size (f a)) : GoesOn size (m >>= f) := Goes.bind hm hf

/-- A sum that does not wrap is the sum itself. -/
theorem goes_moved {P : Cursor Nat → Prop} {m : Decode α} (h : ∀ d a d', d.In size → P d →
    m d = .ok (a, d') → ∃ n, d'.off = d.off + n ∧ d'.rest = d.rest.drop n ∧ Fits size n d) :
    Goes (2 ^ 64) size P (.moving m) fun _ _ => True := by
  apply Goes.moving
  intro d a d' hd hP hm
  obtain ⟨n, hoff, hrest, hmod⟩ := h d a d' hd hP hm
  have hsum : d.off + d.rest.length = size := hd
  unfold Fits at hmod
  refine ⟨by omega, by omega, fun hle => ⟨?_, trivial⟩⟩
  show d'.off + d'.rest.length = size
  rw [hrest, List.length_drop]
  omega

theorem goesOn_varint {decode : Bytes → Except UVarintError (α × Nat)}
    (hlen : ∀ bs v n, decode bs = .ok (v, n) → n ≤ bs.length) :
    GoesOn size (.moving (moduleDecodeVarint decode)) := by
  refine goes_moved fun d v d' hd _ h => ?_
  obtain ⟨n, hn, hoff, hrest⟩ := moduleDecodeVarint_moves hlen h
  have hsum : d.off + d.rest.length = size := hd
  exact ⟨n, hoff, hrest, (Nat.mod_le _ _).trans (by omega)⟩

theorem goesOn_traceVarintU : GoesOn size traceVarintU :=
  goesOn_varint fun _ _ _ h => (uvarintDecodeU_ok h).2.1

theorem goes_require {P : Cursor Nat → Prop} (c : Bool) (e : UChunkLoadError) :
    Goes (2 ^ 64) size P (.quiet (require c e)) fun _ => P := by
  apply Goes.quiet
  intro d u d' _ hP h
  obtain ⟨-, hr⟩ := require_eq_ok.mp h
  cases hr
  exact ⟨rfl, rfl, hP⟩

theorem goes_throw {P : Cursor Nat → Prop} {Q : α → Cursor Nat → Prop} (e : UChunkLoadError) :
    Goes (2 ^ 64) size P (.quiet (throw e : Decode α)) Q := by
  apply Goes.quiet
  intro d a d' _ _ h
  cases h

theorem goes_requireBytes (n : Nat) :
    Goes (2 ^ 64) size (fun _ => True) (.quiet (requireBytes n)) fun _ => Fits size n := by
  apply Goes.quiet
  intro d u d' hd _ h
  unfold requireBytes at h
  split at h
  · cases h
  · rename_i hle
    cases h
    refine ⟨rfl, rfl, ?_⟩
    rw [show d.off + d.rest.length = size from hd] at hle
    exact Nat.le_of_not_lt hle

theorem allocate_cursor {alloc : UChunkAlloc} {n : Nat} {d d' : Cursor Nat} {u : Unit}
    (h : allocate alloc n d = .ok (u, d')) : d'.off = d.off ∧ d'.rest = d.rest := by
  unfold allocate at h
  split at h <;> cases h
  exact ⟨rfl, rfl⟩

theorem goes_allocate (alloc : UChunkAlloc) (k n : Nat) :
    Goes (2 ^ 64) size (Fits size k) (.quiet (allocate alloc n)) fun _ => Fits size k := by
  apply Goes.quiet
  intro d u d' _ hP h
  obtain ⟨hoff, hrest⟩ := allocate_cursor h
  refine ⟨hoff, hrest, ?_⟩
  show (d'.off + k) % 2 ^ 64 ≤ size
  rw [hoff]
  exact hP

theorem goesOn_allocate (alloc : UChunkAlloc) (n : Nat) : GoesOn size (.quiet (allocate alloc n)) :=
  Goes.quiet fun _ _ _ _ _ h => ⟨(allocate_cursor h).1, (allocate_cursor h).2, trivial⟩

theorem goesOn_allocateFor (alloc : UChunkAlloc) (n nbytes : Nat) :
    GoesOn size (.quiet (allocateFor alloc n nbytes)) := by
  unfold allocateFor
  split
  · exact goesOn_allocate alloc nbytes
  · exact goesOn_pure ()

theorem goes_takeBytes (n : Nat) :
    Goes (2 ^ 64) size (Fits size n) (.moving (takeBytes n)) fun _ _ => True :=
  goes_moved fun d bs d' _ hfits h => by
    cases h
    exact ⟨n, rfl, rfl, hfits⟩

theorem goes_decodeFrame :
    Goes (2 ^ 64) size (Fits size 3) (.moving decodeFrame) fun _ _ => True :=
  goes_moved fun d bs d' _ hfits h => by
    cases h
    exact ⟨3, rfl, by simp only [List.drop_drop], hfits⟩

theorem goesOn_traceFixed (n : Nat) : GoesOn size (traceFixed n) :=
  (goes_requireBytes n).bind fun _ => goes_takeBytes n

theorem goesOn_traceBytes (alloc : UChunkAlloc) (len : Nat) : GoesOn size (traceBytes alloc len) :=
  (goes_requireBytes len).bind fun _ => (goes_allocate alloc len _).bind fun _ => goes_takeBytes len

theorem goesOn_traceMetadata (alloc : UChunkAlloc) : GoesOn size (traceMetadata alloc) := by
  refine goesOn_traceVarintU.bind fun n => Goes.bind (goes_requireBytes n) fun _ => ?_
  split
  · refine (goes_allocate alloc n _).bind fun _ => (goes_takeBytes n).bind fun name => ?_
    exact goesOn_pure _
  · exact (goesOn_pure none).mono (fun _ _ => trivial) fun _ _ _ => trivial

theorem goesOn_traceConstant (alloc : UChunkAlloc) : GoesOn size (traceConstant alloc) := by
  refine (goesOn_traceFixed 1).bind fun kind => (goes_require _ _).bind fun _ => ?_
  split
  · exact (goesOn_varint fun _ _ _ h => (uvarintDecodeZz_ok h).1).bind fun v => goesOn_pure _
  · exact (goesOn_traceFixed 8).bind fun bits => goesOn_pure _
  · exact goesOn_traceVarintU.bind fun n => (goesOn_traceBytes alloc n).bind fun bs => goesOn_pure _
  · exact goes_throw _

theorem goesOn_counted {f : Nat → Trace α} {c : Nat → Bool} {e : UChunkLoadError}
    (hf : ∀ n, GoesOn size (f n)) :
    GoesOn size (traceVarintU >>= fun n => .quiet (require (c n) e) >>= fun _ => f n) :=
  goesOn_traceVarintU.bind fun n => GoesOn.bind (goes_require _ _) fun _ => hf n

theorem goesOn_traceConstants (alloc : UChunkAlloc) : GoesOn size (traceConstants alloc) := by
  refine goesOn_counted fun n => ?_
  exact (goesOn_allocateFor alloc n _).bind fun _ => Goes.times (fun _ => goesOn_traceConstant alloc) n 0

theorem goesOn_decodeAlign (fuel : Nat) : GoesOn size (.moving (decodeAlign fuel)) := by
  apply Goes.moving
  intro d u d' hd _ h
  obtain ⟨hle, hsum⟩ := decodeAlign_moves h
  have hin : d'.off + d'.rest.length = size := hsum.trans hd
  exact ⟨hle, .inl (by omega), fun _ => ⟨hin, trivial⟩⟩

theorem goesOn_traceInstructions (alloc : UChunkAlloc) : GoesOn size (traceInstructions alloc) := by
  refine goesOn_counted fun n => ?_
  refine (goesOn_decodeAlign 3).bind fun _ => (goesOn_allocateFor alloc n _).bind fun _ => ?_
  exact Goes.times (fun _ => (goesOn_traceFixed 4).bind fun bytes => goesOn_pure _) n 0

theorem goesOn_traceLineDeltas (alloc : UChunkAlloc) (instrCount : Nat) :
    GoesOn size (traceLineDeltas alloc instrCount) := by
  refine goesOn_counted fun n => ?_
  split
  · exact (goesOn_allocate alloc n).bind fun _ => goesOn_traceFixed n
  · exact goesOn_pure []

theorem goesOn_traceAbsLines (instrCount n : Nat) (prev : Option Nat) :
    GoesOn size (traceAbsLines instrCount n prev) := by
  induction n generalizing prev with
  | zero => exact goesOn_pure []
  | succ n ih =>
    refine goesOn_traceVarintU.bind fun pc => goesOn_traceVarintU.bind fun line => ?_
    refine GoesOn.bind (Goes.report line) fun _ => GoesOn.bind (goes_require _ _) fun _ => ?_
    exact GoesOn.bind (goes_require _ _) fun _ => (ih _).bind fun rest => goesOn_pure _

theorem goesOn_traceAbsLineTable (alloc : UChunkAlloc) (instrCount : Nat) :
    GoesOn size (traceAbsLineTable alloc instrCount) := by
  refine goesOn_counted fun n => ?_
  exact (goesOn_allocateFor alloc n _).bind fun _ => goesOn_traceAbsLines instrCount n none

theorem goesOn_traceSiteName (alloc : UChunkAlloc) : GoesOn size (traceSiteName alloc) := by
  refine goesOn_counted fun n => ?_
  exact (goesOn_traceBytes alloc n).bind fun name => goesOn_pure _

theorem goesOn_traceSiteNames (alloc : UChunkAlloc) : GoesOn size (traceSiteNames alloc) := by
  refine goesOn_counted fun n => ?_
  refine GoesOn.bind ?_ fun _ => (goesOn_allocateFor alloc n _).bind fun _ =>
    Goes.times (fun _ => goesOn_traceSiteName alloc) n 0
  apply Goes.quiet
  intro d u d' _ _ h
  unfold requireRemaining at h
  split at h <;> cases h
  exact ⟨rfl, rfl, trivial⟩

theorem goesOn_traceBlock (alloc : UChunkAlloc) (arity : Bool) :
    GoesOn size (traceBlock alloc arity) := by
  refine (goes_requireBytes 3).bind fun _ => goes_decodeFrame.bind fun frame => ?_
  refine GoesOn.bind (goes_require _ _) fun _ => (goesOn_traceConstants alloc).bind fun _ => ?_
  refine (goesOn_traceInstructions alloc).bind fun is => ?_
  refine (goesOn_traceLineDeltas alloc is.length).bind fun _ => ?_
  refine (goesOn_traceAbsLineTable alloc is.length).bind fun _ => ?_
  exact (goesOn_traceSiteNames alloc).bind fun _ => goesOn_pure _

theorem goesOn_traceNested {child : Nat → Trace (Option UProto)}
    (h : ∀ i, GoesOn size (child i)) : GoesOn size (traceNested child) :=
  goesOn_counted fun n => Goes.times h n 0

theorem goesOn_traceProto (alloc : UChunkAlloc) (arity : Bool) (levels : Nat) :
    GoesOn size (traceProto alloc arity levels) := by
  induction levels with
  | zero =>
    refine (goesOn_traceBlock alloc arity).bind fun b => ?_
    exact (goesOn_traceNested fun _ => goes_throw _).bind fun ns => goesOn_pure _
  | succ levels ih =>
    refine (goesOn_traceBlock alloc arity).bind fun b => ?_
    refine (goesOn_traceNested fun i => ?_).bind fun ns => goesOn_pure _
    refine GoesOn.bind ?_ fun _ => (goesOn_allocate alloc 1).bind fun _ =>
      ih.bind fun p => goesOn_pure _
    unfold growNested
    split
    · exact goesOn_allocate alloc _
    · exact goesOn_pure ()

theorem decodeHeader_moves {d d' : Cursor Nat} {arity : Bool}
    (h : decodeHeader d = .ok (arity, d')) : 24 ≤ d.off + d.rest.length ∧ d'.off = d.off + 24 ∧
      d'.rest = d.rest.drop 24 := by
  unfold decodeHeader at h
  split at h
  · cases h
  · rename_i hlen
    simp only [check_bind_eq_ok] at h
    obtain ⟨-, -, -, -, -, -, -, -, h⟩ := h
    cases h
    exact ⟨Nat.le_of_not_lt hlen, rfl, rfl⟩

theorem goes_traceChunk (alloc : UChunkAlloc) :
    Goes (2 ^ 64) size (fun d => d.off = 0) (traceChunk alloc) fun _ _ => True := by
  have hproto : Goes (2 ^ 64) size (fun d => d.off = 0) (.quiet (allocateProto alloc))
      fun _ d => d.off = 0 :=
    Goes.quiet fun _ _ _ _ h0 h => ⟨(allocate_cursor h).1, (allocate_cursor h).2,
      (allocate_cursor h).1.trans h0⟩
  have hheader : Goes (2 ^ 64) size (fun d : Cursor Nat => d.off = 0) (.moving decodeHeader)
      fun _ _ => True := by
    refine goes_moved fun d arity d' hd h0 h => ?_
    obtain ⟨hlen, hoff, hrest⟩ := decodeHeader_moves h
    have hsum : d.off + d.rest.length = size := hd
    exact ⟨24, hoff, hrest, show _ ≤ _ by omega⟩
  refine hproto.bind fun _ => hheader.bind fun arity => ?_
  refine (goesOn_traceMetadata alloc).bind fun name => ?_
  refine (goesOn_traceProto alloc arity uchunkMaxProtoDepth).bind fun root => ?_
  refine GoesOn.bind (Goes.quiet ?_) fun _ => goesOn_pure _
  intro d u d' _ _ h
  unfold decodeTrailer at h
  split at h <;> cases h
  exact ⟨rfl, rfl, trivial⟩

end Goes

/-! ## Honest lengths -/

/-- What a loader should leave behind on a buffer of `size` bytes: every length it went on to take
was there to take, and its offset never went back nor past the end. -/
structure HonestTrail (size : Nat) (ms : List Mark) : Prop where
  inside : ∀ k ∈ ms, k.Inside
  forward : (offsets (2 ^ 64) ms).Pairwise (· ≤ ·)
  bounded : ∀ o ∈ offsets (2 ^ 64) ms, o ≤ size

/-- The loader's lengths are honest exactly as long as no length it goes on to take, added to the
offset it is taken at, runs past 64 bits. -/
theorem honestTrail_iff (alloc : UChunkAlloc) {buf : Bytes} (hsize : buf.length < 2 ^ 64) :
    HonestTrail buf.length (traceDeserialize alloc buf).1 ↔
      ∀ off len left, .move off len left ∈ (traceDeserialize alloc buf).1 →
        off + len < 2 ^ 64 := by
  have hin : (⟨0, buf, 0⟩ : Cursor Nat).In buf.length := Nat.zero_add _
  obtain ⟨fin, hlead, -⟩ := goes_traceChunk alloc ⟨0, buf, 0⟩ hin rfl
  rw [← trail_traceDeserialize] at hlead
  have hwrap : (∀ k ∈ (traceDeserialize alloc buf).1, ¬ k.Wraps (2 ^ 64)) ↔
      ∀ off len left, .move off len left ∈ (traceDeserialize alloc buf).1 →
        off + len < 2 ^ 64 := by
    constructor
    · exact fun h off len left hmem => Nat.lt_of_not_le (h _ hmem)
    · rintro h (⟨off, len, left⟩ | v) hmem
      · exact Nat.not_le_of_lt (h off len left hmem)
      · exact id
  rw [← hwrap, ← hlead.inside_iff hsize]
  constructor
  · exact fun h => h.inside
  · intro h
    obtain ⟨hsorted, hbound⟩ := hlead.offsets_sorted hsize (Nat.zero_le _) h
    exact ⟨h, hsorted, fun o ho => (hbound o ho).2⟩

def wrappingName : Bytes :=
  chunkHeader true ++ uvarintWriteU (UInt64.ofNat (2 ^ 64 - 34))

/-- The length goes through the check, and the loader sets out to take it with no byte left. -/
theorem wrappingName_taken :
    .move 34 (2 ^ 64 - 34) 0 ∈ (traceDeserialize (fun _ => true) wrappingName).1 ∧
      ¬ HonestTrail wrappingName.length (traceDeserialize (fun _ => true) wrappingName).1 := by
  have hmem : .move 34 (2 ^ 64 - 34) 0 ∈ (traceDeserialize (fun _ => true) wrappingName).1 := by
    decide
  refine ⟨hmem, fun h => ?_⟩
  have hlen : 2 ^ 64 - 34 ≤ 0 := h.inside _ hmem
  omega

def shortName : Bytes := chunkHeader true ++ [1, 0x61]

/-- Loading fails on the missing record, behind three honest reads. -/
theorem honestTrail_shortName :
    HonestTrail shortName.length (traceDeserialize (fun _ => true) shortName).1 := by
  have htrail : (traceDeserialize (fun _ => true) shortName).1 =
      [.move 0 24 26, .move 24 1 2, .move 25 1 1] := by decide
  refine (honestTrail_iff (fun _ => true) (by decide)).mpr fun off len left hmem => ?_
  rw [htrail] at hmem
  simp only [List.mem_cons, Mark.move.injEq, List.not_mem_nil, or_false] at hmem
  omega

end Urbi
