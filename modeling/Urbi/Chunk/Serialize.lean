import Urbi.Lib.Cursor
import Urbi.Chunk.Varint

/-!
# The chunk writer

`emit/uemit_serialize.c`.  With no buffer the walker only advances the offset, so a `Sink` is an
offset with the bytes written so far, or none of them.  Every writer appends an encoding that depends
on the offset alone (`Writes`).
-/

namespace Urbi

open Lib

/-! ## The walker -/

structure Sink where
  buf : Option Bytes
  off : Nat
  deriving DecidableEq, Repr

def put (v : UInt8) (s : Sink) : Sink := ⟨s.buf.map (· ++ [v]), s.off + 1⟩

def putBytes (src : Bytes) (s : Sink) : Sink := ⟨s.buf.map (· ++ src), s.off + src.length⟩

def putVarintU (v : UInt64) (s : Sink) : Sink :=
  match s.buf with
  | some b => ⟨some (b ++ uvarintWriteU v), s.off + (uvarintWriteU v).length⟩
  | none => ⟨none, s.off + uvarintSizeU v⟩

def putVarintZz (v : Int64) (s : Sink) : Sink :=
  match s.buf with
  | some b => ⟨some (b ++ uvarintWriteZz v), s.off + (uvarintWriteZz v).length⟩
  | none => ⟨none, s.off + uvarintSizeZz v⟩

def putAlignLoop : Nat → Sink → Sink
  | 0, s => s
  | fuel + 1, s => if s.off % 4 ≠ 0 then putAlignLoop fuel (put 0 s) else s

def putAlign4 : Sink → Sink := putAlignLoop 3

def putAll {α : Type} (f : α → Sink → Sink) : List α → Sink → Sink
  | [], s => s
  | x :: xs, s => putAll f xs (f x s)

def putCount (n : Nat) : Sink → Sink := putVarintU (UInt64.ofNat n)

def leBytes : Nat → Nat → Bytes
  | 0, _ => []
  | n + 1, v => UInt8.ofNat (v % 2 ^ 8) :: leBytes n (v / 2 ^ 8)

def putCstr (s : Bytes) : Sink → Sink := putBytes (cstr s) ∘ putCount (cstr s).length

def writeSiteNames (names : List (Option Bytes)) : Sink → Sink :=
  putAll (fun name => putCstr (name.getD [])) names ∘ putCount names.length

def UConst.kind : UConst → UInt8
  | .nil => 0
  | .int _ => 1
  | .float _ => 2
  | .bool _ => 3
  | .str _ => 4

def writeConstant (c : UConst) (s : Sink) : Sink :=
  let s := put c.kind s
  match c with
  | .int i => putVarintZz i s
  | .float bits => putBytes (leBytes 8 bits.toNat) s
  | .str bytes => putCstr bytes s
  | .nil | .bool _ => s

def writeInstruction (ins : UInt32) : Sink → Sink := putBytes (leBytes 4 ins.toNat)

def writeAbsLine (l : UAbsLine) : Sink → Sink :=
  putVarintU l.line.toUInt64 ∘ putVarintU l.pc.toUInt64

def writeBlock (b : Block) (s : Sink) : Sink :=
  let s := put b.nparams (put b.nupvals (put b.maxReg s))
  let s := putAll writeConstant b.constants (putCount b.constCount s)
  let s := putAll writeInstruction b.instructions (putAlign4 (putCount b.instrCount s))
  let s := putBytes b.lineDeltas (putCount b.instrCount s)
  let s := putAll writeAbsLine b.absLines (putCount b.absLines.length s)
  writeSiteNames b.siteNameStrs s

def writeStub (s : Sink) : Sink :=
  let s := putAlign4 (putCount 0 (putCount 0 (put 0 (put 0 (put 0 s)))))
  putCount 0 (putCount 0 (putCount 0 (putCount 0 s)))

mutual
def writeProto : UProto → Sink → Sink
  | .mk b ns, s => writeNested ns (putCount ns.length (writeBlock b s))
def writeNested : List (Option UProto) → Sink → Sink
  | [], s => s
  | none :: ns, s => writeNested ns (writeStub s)
  | some p :: ns, s => writeNested ns (writeProto p s)
end

def chunkHeader (arity : Bool) : Bytes :=
  [0x55, 0x52, 0x42, 0x49, 0x20, if arity then 1 else 0, 0x19, 0x93, 0x0D, 0x0A, 0x1A, 0x0A,
   8, 8, 4, 0, 0, 0, 0, 0, 0, 0, 0, 0]

def writeChunk (c : UChunk) (s : Sink) : Sink :=
  let s := putBytes (chunkHeader c.root.block.arityPrologue) s
  writeProto c.root (putCstr (c.sourceName.getD []) s)

/-- `cap = none` is the size query, which reports the byte count alone. -/
def uchunkSerialize (c : UChunk) (cap : Option Nat) : Except UChunkLoadError (Nat × Bytes) :=
  let need := (writeChunk c ⟨none, 0⟩).off
  match cap with
  | none => .ok (need, [])
  | some cap =>
    if cap < need then .error .truncated
    else .ok ((writeChunk c ⟨some [], 0⟩).off, (writeChunk c ⟨some [], 0⟩).buf.getD [])

/-! ## What the walker writes -/

def Sink.append (s : Sink) (bs : Bytes) : Sink := ⟨s.buf.map (· ++ bs), s.off + bs.length⟩

def Writes (f : Sink → Sink) (enc : Encoding) : Prop := ∀ s, f s = s.append (enc s.off)

theorem Writes.comp {f g : Sink → Sink} {e₁ e₂ : Encoding} (hf : Writes f e₁) (hg : Writes g e₂) :
    Writes (fun s => g (f s)) (e₁.seq e₂) := by
  intro s
  show g (f s) = _
  rw [hg, hf]
  cases hb : s.buf <;> simp [Sink.append, Encoding.seq, hb, Nat.add_assoc]

theorem writes_id : Writes (fun s => s) .empty := by
  intro s
  cases hb : s.buf <;> cases s <;> simp_all [Sink.append, Encoding.empty]

theorem writes_put (v : UInt8) : Writes (put v) (.raw [v]) := fun _ => rfl

theorem writes_putBytes (bs : Bytes) : Writes (putBytes bs) (.raw bs) := fun _ => rfl

theorem writes_putVarintU (v : UInt64) : Writes (putVarintU v) (.raw (uvarintWriteU v)) := by
  intro s
  unfold putVarintU
  cases hb : s.buf with
  | none => simp [Sink.append, Encoding.raw, hb, uvarintSizeU_eq_length]
  | some b => simp [Sink.append, Encoding.raw, hb]

theorem writes_putVarintZz (v : Int64) : Writes (putVarintZz v) (.raw (uvarintWriteZz v)) := by
  intro s
  unfold putVarintZz
  cases hb : s.buf with
  | none => simp [Sink.append, Encoding.raw, hb, uvarintSizeZz_eq_length]
  | some b => simp [Sink.append, Encoding.raw, hb]

def encCount (n : Nat) : Encoding := .raw (uvarintWriteU (UInt64.ofNat n))

theorem writes_putCount (n : Nat) : Writes (putCount n) (encCount n) := writes_putVarintU _

def encAlign : Encoding := fun off => List.replicate ((4 - off % 4) % 4) 0

theorem writes_putAlign4 : Writes putAlign4 encAlign := by
  intro s
  obtain ⟨buf, off⟩ := s
  have h4 : off % 4 = 0 ∨ off % 4 = 1 ∨ off % 4 = 2 ∨ off % 4 = 3 := by omega
  rcases h4 with h | h | h | h
  · cases buf <;> simp [putAlign4, putAlignLoop, encAlign, Sink.append, h]
  · have h2 : (off + 1) % 4 = 2 := by omega
    have h3 : (off + 1 + 1) % 4 = 3 := by omega
    cases buf <;> simp [putAlign4, putAlignLoop, encAlign, Sink.append, put, h, h2, h3,
      List.replicate]
  · have h3 : (off + 1) % 4 = 3 := by omega
    have h0 : (off + 1 + 1) % 4 = 0 := by omega
    cases buf <;> simp [putAlign4, putAlignLoop, encAlign, Sink.append, put, h, h3, h0,
      List.replicate]
  · have h0 : (off + 1) % 4 = 0 := by omega
    cases buf <;> simp [putAlign4, putAlignLoop, encAlign, Sink.append, put, h, h0]

theorem writes_putAll {α : Type} {f : α → Sink → Sink} {enc : α → Encoding}
    (h : ∀ x, Writes (f x) (enc x)) (xs : List α) : Writes (putAll f xs) (.list enc xs) := by
  induction xs with
  | nil => exact writes_id
  | cons x xs ih => exact (h x).comp ih

def encCstr (s : Bytes) : Encoding := (encCount (cstr s).length).seq (.raw (cstr s))

theorem writes_putCstr (s : Bytes) : Writes (putCstr s) (encCstr s) :=
  (writes_putCount _).comp (writes_putBytes _)

def encConstant (c : UConst) : Encoding :=
  (Encoding.raw [c.kind]).seq <|
    match c with
    | .int i => .raw (uvarintWriteZz i)
    | .float bits => .raw (leBytes 8 bits.toNat)
    | .str bytes => encCstr bytes
    | .nil | .bool _ => .empty

theorem writes_writeConstant (c : UConst) : Writes (writeConstant c) (encConstant c) := by
  cases c with
  | nil | bool b => exact (writes_put _).comp writes_id
  | int i => exact (writes_put _).comp (writes_putVarintZz i)
  | float bits => exact (writes_put _).comp (writes_putBytes _)
  | str bytes => exact (writes_put _).comp (writes_putCstr bytes)

def encInstruction (ins : UInt32) : Encoding := .raw (leBytes 4 ins.toNat)

def encAbsLine (l : UAbsLine) : Encoding :=
  (Encoding.raw (uvarintWriteU l.pc.toUInt64)).seq (.raw (uvarintWriteU l.line.toUInt64))

def encName (name : Option Bytes) : Encoding := encCstr (name.getD [])

def encSeq {α : Type} (enc : α → Encoding) (xs : List α) : Encoding :=
  (encCount xs.length).seq (.list enc xs)

def encBlock (b : Block) : Encoding :=
  (Encoding.raw [b.maxReg]).seq <| (Encoding.raw [b.nupvals]).seq <|
  (Encoding.raw [b.nparams]).seq <| (encSeq encConstant b.constants).seq <|
  (encCount b.instrCount).seq <| encAlign.seq <|
  (Encoding.list encInstruction b.instructions).seq <| (encCount b.instrCount).seq <|
  (Encoding.raw b.lineDeltas).seq <| (encSeq encAbsLine b.absLines).seq <|
  encSeq encName b.siteNameStrs

theorem writes_writeBlock (b : Block) : Writes (writeBlock b) (encBlock b) :=
  (writes_put _).comp <| (writes_put _).comp <| (writes_put _).comp <|
  ((writes_putCount _).comp (writes_putAll writes_writeConstant _)).comp <|
  (writes_putCount _).comp <| writes_putAlign4.comp <|
  (writes_putAll (fun _ => writes_putBytes _) _).comp <| (writes_putCount _).comp <|
  (writes_putBytes _).comp <|
  ((writes_putCount _).comp
    (writes_putAll (fun _ => (writes_putVarintU _).comp (writes_putVarintU _)) _)).comp <|
  (writes_putCount _).comp (writes_putAll (fun _ => writes_putCstr _) _)

def encStub : Encoding :=
  (Encoding.raw [0]).seq <| (Encoding.raw [0]).seq <| (Encoding.raw [0]).seq <|
  (encCount 0).seq <| (encCount 0).seq <| encAlign.seq <|
  (encCount 0).seq <| (encCount 0).seq <| (encCount 0).seq <| encCount 0

theorem writes_writeStub : Writes writeStub encStub :=
  (writes_put 0).comp <| (writes_put 0).comp <| (writes_put 0).comp <|
  (writes_putCount 0).comp <| (writes_putCount 0).comp <| writes_putAlign4.comp <|
  (writes_putCount 0).comp <| (writes_putCount 0).comp <| (writes_putCount 0).comp <|
  writes_putCount 0

mutual
def encProto : UProto → Encoding
  | .mk b ns => (encBlock b).seq ((encCount ns.length).seq (encNested ns))
def encNested : List (Option UProto) → Encoding
  | [] => .empty
  | none :: ns => encStub.seq (encNested ns)
  | some p :: ns => (encProto p).seq (encNested ns)
end

theorem writes_writeNested {ns : List (Option UProto)}
    (h : ∀ c, some c ∈ ns → Writes (writeProto c) (encProto c)) :
    Writes (writeNested ns) (encNested ns) := by
  induction ns with
  | nil => exact writes_id
  | cons o ns ih =>
    have hns := ih fun c hc => h c (.tail _ hc)
    cases o with
    | none => exact writes_writeStub.comp hns
    | some p => exact (h p (.head _)).comp hns

theorem writes_writeProto (p : UProto) : Writes (writeProto p) (encProto p) := by
  induction p using UProto.tree_induction with
  | step b ns ih =>
    exact (writes_writeBlock b).comp ((writes_putCount _).comp (writes_writeNested ih))

def encChunk (c : UChunk) : Encoding :=
  (Encoding.raw (chunkHeader c.root.block.arityPrologue)).seq <|
  (encCstr (c.sourceName.getD [])).seq (encProto c.root)

theorem writes_writeChunk (c : UChunk) : Writes (writeChunk c) (encChunk c) :=
  (writes_putBytes _).comp ((writes_putCstr _).comp (writes_writeProto _))

def chunkBytes (c : UChunk) : Bytes := encChunk c 0

theorem uchunkSerialize_query (c : UChunk) :
    uchunkSerialize c none = .ok ((chunkBytes c).length, []) := by
  simp only [uchunkSerialize, writes_writeChunk c ⟨none, 0⟩, Sink.append, Nat.zero_add]
  rfl

theorem uchunkSerialize_write (c : UChunk) (cap : Nat) (h : (chunkBytes c).length ≤ cap) :
    uchunkSerialize c (some cap) = .ok ((chunkBytes c).length, chunkBytes c) := by
  have hneed : (writeChunk c ⟨none, 0⟩).off = (chunkBytes c).length := by
    rw [writes_writeChunk c ⟨none, 0⟩]
    simp [Sink.append, chunkBytes]
  simp only [uchunkSerialize, hneed]
  rw [if_neg (by omega), writes_writeChunk c ⟨some [], 0⟩]
  simp [Sink.append, chunkBytes]

end Urbi
