import Urbi.Chunk.Serialize
import Urbi.Chunk.Verify

/-!
# The chunk loader

`chunk/uchunk_io.c`.  The decoder context is a cursor whose auxiliary state counts the allocation
requests made so far; `alloc` answers each.  The nesting depth is carried as the number of levels
still admitted.
-/

namespace Urbi

open Lib

abbrev Decode (α : Type) : Type := Decoder Nat UChunkLoadError α

def allocate (alloc : UChunkAlloc) (nbytes : Nat) : Decode Unit := fun d =>
  match request alloc nbytes d.aux with
  | .error e => .error e
  | .ok (_, k) => .ok ((), { d with aux := k })

def allocateFor (alloc : UChunkAlloc) (n nbytes : Nat) : Decode Unit :=
  if n > 0 then allocate alloc nbytes else pure ()

def varintErrorToModuleError : UVarintError → UChunkLoadError
  | .truncated => .truncated
  | .oversize => .corruptVarint

def moduleDecodeVarint {α : Type} (decode : Bytes → Except UVarintError (α × Nat)) : Decode α :=
  fun d =>
    match decode d.rest with
    | .error e => .error (varintErrorToModuleError e)
    | .ok (v, consumed) => .ok (v, { d with off := d.off + consumed, rest := d.rest.drop consumed })

def moduleDecodeVarintU : Decode Nat := moduleDecodeVarint uvarintDecodeU
def moduleDecodeVarintZz : Decode Int64 := moduleDecodeVarint uvarintDecodeZz

def requireBytes (n : Nat) : Decode Unit := fun d =>
  if (d.off + n) % 2 ^ 64 > d.off + d.rest.length then .error .truncated else .ok ((), d)

def takeBytes (n : Nat) : Decode Bytes := fun d =>
  .ok (d.rest.take n, { d with off := d.off + n, rest := d.rest.drop n })

def leValue : Bytes → Nat
  | [] => 0
  | b :: bs => b.toNat + 2 ^ 8 * leValue bs

/-! ## Sections -/

def decodeHeader : Decode Bool := fun d =>
  if d.off + d.rest.length < 24 then .error .truncated
  else do
    let h := d.rest.take 24
    check (h.take 4 = [0x55, 0x52, 0x42, 0x49]) .badMagic
    check (h[4]? = some 0x20) .unsupportedVersion
    check ((h.drop 6).take 6 = [0x19, 0x93, 0x0D, 0x0A, 0x1A, 0x0A]) .badMagic
    check (h[12]? = some 8) .flavorMismatch
    check (h[13]? = some 8) .flavorMismatch
    check (h[14]? = some 4) .flavorMismatch
    check (h[15]? = some 0) .flavorMismatch
    check ((h.drop 16).all (· = 0)) .corrupt
    .ok ((h[5]?.getD 0).toNat % 2 = 1, { d with off := d.off + 24, rest := d.rest.drop 24 })

def decodeBytes (alloc : UChunkAlloc) (len : Nat) : Decode Bytes := do
  requireBytes len
  allocate alloc (len + 1)
  takeBytes len

def decodeMetadata (alloc : UChunkAlloc) : Decode (Option Bytes) := do
  let srcLen ← moduleDecodeVarintU
  requireBytes srcLen
  if srcLen > 0 then do
    allocate alloc (srcLen + 1)
    let name ← takeBytes srcLen
    pure (some name)
  else pure none

def decodeConstant (alloc : UChunkAlloc) : Decode UConst := do
  requireBytes 1
  let kind ← takeBytes 1
  require (leValue kind ≤ 4) .corruptTag
  match leValue kind with
  | 1 => do
      let v ← moduleDecodeVarintZz
      pure (.int v)
  | 2 => do
      requireBytes 8
      let bits ← takeBytes 8
      pure (.float (UInt64.ofNat (leValue bits)))
  | 4 => do
      let slen ← moduleDecodeVarintU
      let bytes ← decodeBytes alloc slen
      pure (.str bytes)
  | _ => throw .corruptTag

def decodeConstants (alloc : UChunkAlloc) : Decode (List UConst) := do
  let n ← moduleDecodeVarintU
  require (n ≤ 65536) .corrupt
  allocateFor alloc n (16 * n)
  times (fun _ => decodeConstant alloc) n 0

/-- The padding loop: each skipped byte must be there and be zero. -/
def decodeAlign : Nat → Decode Unit
  | 0 => pure ()
  | fuel + 1 => fun d =>
    if d.off % 4 ≠ 0 then
      match d.rest with
      | [] => .error .truncated
      | b :: bs =>
        if b ≠ 0 then .error .corrupt
        else decodeAlign fuel { d with off := d.off + 1, rest := bs }
    else .ok ((), d)

def decodeInstruction : Decode UInt32 := do
  requireBytes 4
  let bytes ← takeBytes 4
  pure (UInt32.ofNat (leValue bytes))

def urbiMaxInstrsPerProto : Nat := 2 ^ 20

def decodeInstructions (alloc : UChunkAlloc) : Decode (List UInt32) := do
  let n ← moduleDecodeVarintU
  require (n ≤ urbiMaxInstrsPerProto) .oversized
  decodeAlign 3
  allocateFor alloc n (4 * n)
  times (fun _ => decodeInstruction) n 0

def decodeLineDeltas (alloc : UChunkAlloc) (instrCount : Nat) : Decode Bytes := do
  let n ← moduleDecodeVarintU
  require (n = instrCount) .corrupt
  if n > 0 then do
    allocate alloc n
    requireBytes n
    takeBytes n
  else pure []

/-- Each checkpoint is at a pc above the one before it.  Both fields are cut down to 32 bits after
the range check. -/
def decodeAbsLines (instrCount : Nat) : Nat → Option Nat → Decode (List UAbsLine)
  | 0, _ => pure []
  | n + 1, prev => do
      let pc ← moduleDecodeVarintU
      let line ← moduleDecodeVarintU
      require (pc < instrCount) .corrupt
      require (prev.all fun p => p < pc % 2 ^ 32) .corrupt
      let rest ← decodeAbsLines instrCount n (some (pc % 2 ^ 32))
      pure (⟨UInt32.ofNat pc, UInt32.ofNat line⟩ :: rest)

def decodeAbsLineTable (alloc : UChunkAlloc) (instrCount : Nat) : Decode (List UAbsLine) := do
  let n ← moduleDecodeVarintU
  require (n ≤ instrCount) .corrupt
  allocateFor alloc n (8 * n)
  decodeAbsLines instrCount n none

def decodeSiteName (alloc : UChunkAlloc) : Decode (Option Bytes) := do
  let nlen ← moduleDecodeVarintU
  require (nlen ≤ 256) .corrupt
  let name ← decodeBytes alloc nlen
  pure (some name)

def requireRemaining (count : Nat) : Decode Unit := fun d =>
  if count > d.rest.length then .error .corrupt else .ok ((), d)

def decodeSiteNames (alloc : UChunkAlloc) : Decode (List (Option Bytes)) := do
  let count ← moduleDecodeVarintU
  require (count ≤ 65535) .corrupt
  requireRemaining count
  allocateFor alloc count (8 * count)
  times (fun _ => decodeSiteName alloc) count 0

def frameFits (arity : Bool) (maxReg nparams : UInt8) : Bool :=
  nparams.toNat + (if arity && nparams.toNat > 0 then 1 else 0) ≤ maxReg.toNat + 1

def decodeByte : Decode UInt8 := do
  let b ← takeBytes 1
  pure (b.headD 0)

def decodeBlock (alloc : UChunkAlloc) (arity : Bool) : Decode Block := do
  requireBytes 3
  let maxReg ← decodeByte
  let nupvals ← decodeByte
  let nparams ← decodeByte
  require (frameFits arity maxReg nparams) .corrupt
  let constants ← decodeConstants alloc
  let instructions ← decodeInstructions alloc
  let lineDeltas ← decodeLineDeltas alloc instructions.length
  let absLines ← decodeAbsLineTable alloc instructions.length
  let siteNameStrs ← decodeSiteNames alloc
  pure ⟨maxReg, nupvals, nparams, arity, constants, instructions, lineDeltas, absLines,
    siteNameStrs⟩

def nestedGrows (i : Nat) : Bool := i = 0 || (i ≥ 4 && i &&& (i - 1) = 0)

def growNested (alloc : UChunkAlloc) (i : Nat) : Decode Unit :=
  if nestedGrows i then allocate alloc (8 * if i = 0 then 4 else 2 * i) else pure ()

/-- The size of a `UProto` is a positive constant of the platform; no answer depends on which. -/
def allocateProto (alloc : UChunkAlloc) : Decode Unit := allocate alloc 1

def decodeChild (alloc : UChunkAlloc) (record : Decode UProto) (i : Nat) :
    Decode (Option UProto) := do
  growNested alloc i
  allocateProto alloc
  let p ← record
  pure (some p)

def decodeNested (child : Nat → Decode (Option UProto)) : Decode (List (Option UProto)) := do
  let n ← moduleDecodeVarintU
  require (n ≤ 1024) .corrupt
  times child n 0

def decodeProto (alloc : UChunkAlloc) (arity : Bool) : Nat → Decode UProto
  | 0 => do
      let b ← decodeBlock alloc arity
      let ns ← decodeNested fun _ => throw .corrupt
      pure (.mk b ns)
  | levels + 1 => do
      let b ← decodeBlock alloc arity
      let ns ← decodeNested (decodeChild alloc (decodeProto alloc arity levels))
      pure (.mk b ns)

def uchunkMaxProtoDepth : Nat := 64

def decodeTrailer : Decode Unit := fun d =>
  if d.rest = [] then .ok ((), d) else .error .corrupt

def decodeChunk (alloc : UChunkAlloc) : Decode UChunk := do
  allocateProto alloc
  let arity ← decodeHeader
  let sourceName ← decodeMetadata alloc
  let root ← decodeProto alloc arity uchunkMaxProtoDepth
  decodeTrailer
  pure ⟨sourceName, root⟩

def uchunkDeserialize (alloc : UChunkAlloc) (buf : Bytes) : Except UChunkLoadError UChunk := do
  let (c, d) ← decodeChunk alloc ⟨0, buf, 0⟩
  verifyProtoRecursive c.root
  let _ ← verifyBoundsProto alloc c.root d.aux
  .ok c

end Urbi
