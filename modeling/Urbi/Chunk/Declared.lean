import Urbi.Chunk.Reserialize

/-!
# What a buffer declares

The content of a buffer is the chunk loaded from it and the lines its checkpoints declare, of which the
loader keeps 32 bits.  Writing a loaded chunk again declares the same content exactly when nothing was
cut.
-/

namespace Urbi

open Lib
variable {pre : List UInt32} {child : Nat → Trace (Option UProto)} {b : Block} {c : UChunk}
  {buf : Bytes}

section Tells

variable {α β : Type} {alloc : UChunkAlloc}

def Tells (pre : List UInt32) (m : Trace α) (lines : α → List UInt32) : Prop :=
  ∀ d x d', m.outcome d = .ok (x, d') → pre ++ (values (m.trail d)).map UInt32.ofNat = lines x

theorem tells_pure {a : α} {lines : α → List UInt32} (h : pre = lines a) :
    Tells pre (pure a) lines := by
  intro d x d' hr
  cases hr
  rw [Traced.trail_pure, values_nil, List.map_nil, List.append_nil, h]

theorem Tells.bind {m : Trace α} {f : α → Trace β} {l : α → List UInt32}
    {lines : β → List UInt32} (hm : Tells [] m l) (hf : ∀ a, Tells (pre ++ l a) (f a) lines) :
    Tells pre (m >>= f) lines := by
  intro d y d' hr
  rw [Traced.outcome_bind] at hr
  obtain ⟨a, d₁, ha, hb⟩ := bind_eq_ok.mp hr
  have hl : (values (m.trail d)).map UInt32.ofNat = l a := by simpa using hm d a d₁ ha
  rw [Traced.trail_bind_of_ok ha, values_append, List.map_append, hl, ← List.append_assoc]
  exact hf a d₁ y d' hb

theorem Silent.tells {m : Trace α} (h : Silent m) : Tells [] m fun _ => [] := by
  intro d x d' _
  rw [h]
  rfl

theorem Silent.tells_bind {m : Trace α} {f : α → Trace β} {lines : β → List UInt32}
    (hm : Silent m) (hf : ∀ a, Tells pre (f a) lines) : Tells pre (m >>= f) lines :=
  Tells.bind hm.tells fun a => (List.append_nil pre).symm ▸ hf a

theorem tells_traceAbsLines (instrCount n : Nat) (prev : Option Nat) (pre : List UInt32) :
    Tells pre (traceAbsLines instrCount n prev) fun ls => pre ++ ls.map (·.line) := by
  induction n generalizing prev pre with
  | zero => exact tells_pure (by simp)
  | succ n ih =>
    refine (silent_moving _).tells_bind fun pc => (silent_moving _).tells_bind fun line => ?_
    have hreport : Tells [] (.report line : Trace Unit) fun _ => [UInt32.ofNat line] := by
      intro d x d' _
      rfl
    refine hreport.bind fun _ => (silent_quiet _).tells_bind fun _ =>
      (silent_quiet _).tells_bind fun _ => ?_
    refine Tells.bind (l := fun ls => ls.map (·.line)) ?_ fun rest => tells_pure (by simp)
    simpa using ih _ []

theorem tells_traceBlock (arity : Bool) : Tells [] (traceBlock alloc arity) Block.lines := by
  refine (silent_quiet _).tells_bind fun _ => (silent_moving _).tells_bind fun frame => ?_
  refine (silent_quiet _).tells_bind fun _ => silent_traceConstants.tells_bind fun cs => ?_
  refine silent_traceInstructions.tells_bind fun is => ?_
  refine (silent_traceLineDeltas is.length).tells_bind fun ds => ?_
  refine Tells.bind (l := fun ls => ls.map (·.line)) ?_ fun ls =>
    silent_traceSiteNames.tells_bind fun ns => tells_pure rfl
  refine (silent_moving _).tells_bind fun n => (silent_quiet _).tells_bind fun _ =>
    (silent_quiet _).tells_bind fun _ => ?_
  simpa using tells_traceAbsLines (is.length) n none []

theorem tells_times {m : Nat → Trace (Option UProto)}
    (h : ∀ i, Tells [] (m i) fun o => UProto.linesNested [o]) (n i : Nat) (pre : List UInt32) :
    Tells pre (Traced.times m n i) fun ns => pre ++ UProto.linesNested ns := by
  induction n generalizing i pre with
  | zero => exact tells_pure (by simp [UProto.linesNested])
  | succ n ih =>
    refine (h i).bind fun o => Tells.bind (l := UProto.linesNested) ?_ fun ns => tells_pure ?_
    · simpa using ih (i + 1) []
    · cases o <;> simp [UProto.linesNested]

theorem tells_traceNested (h : ∀ i, Tells [] (child i) fun o => UProto.linesNested [o]) :
    Tells [] (traceNested child) UProto.linesNested := by
  refine (silent_moving _).tells_bind fun n => (silent_quiet _).tells_bind fun _ => ?_
  simpa using tells_times h n 0 []

theorem tells_traceProto (arity : Bool) (levels : Nat) :
    Tells [] (traceProto alloc arity levels) UProto.lines := by
  induction levels with
  | zero =>
    refine (tells_traceBlock arity).bind fun b => ?_
    refine (tells_traceNested fun i => ?_).bind fun ns => tells_pure rfl
    intro d x d' hr
    cases hr
  | succ levels ih =>
    refine (tells_traceBlock arity).bind fun b => ?_
    refine (tells_traceNested fun i => ?_).bind fun ns => tells_pure rfl
    refine (silent_quiet _).tells_bind fun _ => (silent_quiet _).tells_bind fun _ => ?_
    exact ih.bind fun p => tells_pure (by simp [UProto.linesNested])

theorem tells_traceChunk : Tells [] (traceChunk alloc) fun c => c.root.lines := by
  refine (silent_quiet _).tells_bind fun _ => (silent_moving _).tells_bind fun arity => ?_
  refine silent_traceMetadata.tells_bind fun name => ?_
  refine (tells_traceProto arity _).bind fun root => ?_
  exact (silent_quiet _).tells_bind fun _ => tells_pure rfl

end Tells

/-! ## The content of a buffer -/

structure Content where
  chunk : UChunk
  lines : List Nat

def declared (alloc : UChunkAlloc) (buf : Bytes) : Option Content :=
  match traceDeserialize alloc buf with
  | (_, .error _) => none
  | (ms, .ok c) => some ⟨c, values ms⟩

theorem declared_eq_some {alloc : UChunkAlloc} {content : Content} :
    declared alloc buf = some content ↔ uchunkDeserialize alloc buf = .ok content.chunk ∧
      values ((traceChunk alloc).trail ⟨0, buf, 0⟩) = content.lines := by
  have hout := outcome_traceDeserialize alloc buf
  have htrail := trail_traceDeserialize alloc buf
  unfold declared
  rcases hrun : traceDeserialize alloc buf with ⟨ms, e | c⟩
  · rw [hrun] at hout
    simp [← hout]
  · rw [hrun] at hout htrail
    rw [← hout, ← htrail]
    constructor
    · rintro ⟨⟩
      exact ⟨rfl, rfl⟩
    · rintro ⟨hc, hms⟩
      obtain rfl : c = content.chunk := Except.ok.inj hc
      exact congrArg (fun l => some (Content.mk content.chunk l)) hms

theorem uchunkDeserialize_ok {alloc : UChunkAlloc} (h : uchunkDeserialize alloc buf = .ok c) :
    (∃ d, decodeChunk alloc ⟨0, buf, 0⟩ = .ok (c, d)) ∧ WellFormedTree c.root := by
  obtain ⟨⟨c', d⟩, hdec, h⟩ := except_bind_eq_ok.mp h
  obtain ⟨_, hpass1, h⟩ := except_bind_eq_ok.mp h
  obtain ⟨_, hpass2, h⟩ := except_bind_eq_ok.mp h
  cases h
  exact ⟨⟨d, hdec⟩, verifyBoundsProto_sound (verifyProtoRecursive_eq_ok.mp hpass1) hpass2⟩

theorem lines_mod {alloc : UChunkAlloc} {d : Cursor Nat}
    (h : decodeChunk alloc ⟨0, buf, 0⟩ = .ok (c, d)) : c.root.lines.map UInt32.toNat =
      (values ((traceChunk alloc).trail ⟨0, buf, 0⟩)).map (· % 2 ^ 32) := by
  have htraced : Tells [] (traceChunk alloc) fun c => c.root.lines := tells_traceChunk
  have htells := htraced ⟨0, buf, 0⟩ c d (by rw [outcome_traceChunk]; exact h)
  rw [show c.root.lines = _ from htells.symm, List.nil_append, List.map_map]
  rfl

theorem map_mod_eq_self_iff (vs : List Nat) : vs.map (· % 2 ^ 32) = vs ↔ ∀ v ∈ vs, v < 2 ^ 32 := by
  induction vs with
  | nil => simp
  | cons v vs ih =>
    rw [List.map_cons, List.cons.injEq, ih, List.forall_mem_cons]
    exact and_congr_left fun _ => Nat.mod_eq_iff_lt (by decide)

theorem UProto.lines_cut (p : UProto) : p.cut.lines = p.lines := by
  induction p using UProto.nested_induction
    (Q := fun ns => UProto.linesNested (UProto.cutNested ns) = UProto.linesNested ns) with
  | nil => rfl
  | none ns ih => simp only [UProto.cutNested, UProto.linesNested, ih]
  | some p ns ihp ih => simp only [UProto.cutNested, UProto.linesNested, ih, ihp]
  | mk b ns ih =>
    simp only [UProto.cut, UProto.lines, ih]
    rfl

theorem zero_not_mem_sourceName_cut (c : UChunk) : (0 : UInt8) ∉ c.cut.sourceName.getD [] := by
  unfold UChunk.cut
  dsimp only
  split
  · exact List.not_mem_nil
  · exact zero_not_mem_cstr _

/-- Writing an accepted chunk again gives bytes that load and declare what the buffer declared,
exactly when no string of it has a zero byte and no declared line exceeds 32 bits. -/
theorem reserialize_declares_iff {alloc alloc' : UChunkAlloc} (halloc : ∀ k, alloc' k = true)
    {buf : Bytes} {content : Content} (hsize : buf.length < 2 ^ 64)
    (h : declared alloc buf = some content) :
    (∃ n bytes, uchunkSerialize content.chunk none = .ok (n, []) ∧
      (∀ cap, n ≤ cap → uchunkSerialize content.chunk (some cap) = .ok (n, bytes)) ∧
      declared alloc' bytes = some content) ↔
    content.chunk.Clean ∧ ∀ v ∈ content.lines, v < 2 ^ 32 := by
  obtain ⟨hload, hlines⟩ := declared_eq_some.mp h
  obtain ⟨c, lines⟩ := content
  dsimp only at hload hlines ⊢
  obtain ⟨⟨d, hdec⟩, hwf⟩ := uchunkDeserialize_ok hload
  obtain ⟨htree, hnone, hlen⟩ := decodeChunk_ok hdec
  have hsize' : (chunkBytes c).length < 2 ^ 64 := by omega
  have hmod : c.root.lines.map UInt32.toNat = lines.map (· % 2 ^ 32) := by
    rw [← hlines]
    exact lines_mod hdec
  -- on the bytes written the loader finds the cut chunk, and reports the lines of the tree
  have hfits : TreeFits c.cut.root.block.arityPrologue c.cut.root := by
    rw [show c.cut.root = c.root.cut from rfl, arityPrologue_cut]
    exact htree.fits_cut
  have hname := zero_not_mem_sourceName_cut c
  obtain ⟨k, hcut⟩ := decodeChunk_chunkBytes halloc hfits hname (by rwa [chunkBytes_cut])
  have hsaid := values_traceChunk halloc hfits hname (by rwa [chunkBytes_cut])
  rw [chunkBytes_cut, UChunk.normNames_cut] at hcut
  rw [chunkBytes_cut, show c.cut.root = c.root.cut from rfl, UProto.lines_cut, hmod] at hsaid
  constructor
  · rintro ⟨n, bytes, hquery, hwrite, hsame⟩
    rw [uchunkSerialize_query] at hquery
    cases hquery
    have hbytes := hwrite _ le_rfl
    rw [uchunkSerialize_write c _ le_rfl] at hbytes
    cases hbytes
    obtain ⟨hload', hlines'⟩ := declared_eq_some.mp hsame
    obtain ⟨⟨d', hdec'⟩, -⟩ := uchunkDeserialize_ok hload'
    dsimp only at hdec' hlines'
    rw [hcut] at hdec'
    have hself : c.cut = c := (Prod.mk.inj (Except.ok.inj hdec')).1
    exact ⟨(UChunk.cut_eq_self_iff htree hnone).mp hself,
      (map_mod_eq_self_iff lines).mp (hsaid.symm.trans hlines')⟩
  · rintro ⟨hclean, hlow⟩
    have hself : c.cut = c := (UChunk.cut_eq_self_iff htree hnone).mpr hclean
    refine ⟨_, _, uchunkSerialize_query c, fun cap => uchunkSerialize_write c cap, ?_⟩
    refine declared_eq_some.mpr ⟨?_, ?_⟩
    · rw [hself] at hfits
      have hback := uchunkDeserialize_chunkBytes halloc hfits hclean.sourceName hwf hsize'
      rwa [← hself, UChunk.normNames_cut, hself] at hback
    · rw [hsaid]
      exact (map_mod_eq_self_iff lines).mpr hlow

def oneString (s : Bytes) : UChunk :=
  ⟨none, .mk ⟨0, 0, 0, true, [.str s], [uinstrEncAbc .ret 0 0 0], [0], [⟨0, 7⟩], []⟩ []⟩

def zeroInString : Bytes :=
  chunkHeader true ++ [0, 0, 0, 0, 1, 4, 3, 0x61, 0, 0x62, 1, 0] ++
    leBytes 4 (uinstrEncAbc .ret 0 0 0).toNat ++ [1, 0, 1, 0, 7, 0, 0]

theorem declared_of_flat {alloc : UChunkAlloc} {name : Option Bytes} {lines : List Nat}
    (h : (declared alloc buf).map (fun c => (c.chunk.sourceName, c.chunk.root.block,
      c.chunk.root.nested.length, c.lines)) = some (name, b, 0, lines)) :
    declared alloc buf = some ⟨⟨name, .mk b []⟩, lines⟩ := by
  obtain ⟨⟨⟨name', b', ns⟩, lines'⟩, hc, he⟩ := Option.map_eq_some_iff.mp h
  simp only [Prod.mk.injEq, UProto.block_mk, UProto.nested_mk, List.length_eq_zero_iff] at he
  obtain ⟨rfl, rfl, rfl, rfl⟩ := he
  exact hc

/-- The buffer is accepted; written again, its string is down to one byte. -/
theorem zeroInString_shrinks :
    declared (fun _ => true) zeroInString = some ⟨oneString [0x61, 0, 0x62], [7]⟩ ∧
      ∀ cap n bytes, uchunkSerialize (oneString [0x61, 0, 0x62]) (some cap) = .ok (n, bytes) →
        declared (fun _ => true) bytes = some ⟨oneString [0x61], [7]⟩ ∧
        declared (fun _ => true) bytes ≠ declared (fun _ => true) zeroInString := by
  have horig : declared (fun _ => true) zeroInString =
      some ⟨oneString [0x61, 0, 0x62], [7]⟩ := declared_of_flat (by decide +kernel)
  refine ⟨horig, fun cap n bytes hwrite => ?_⟩
  have hbytes : bytes = chunkBytes (oneString [0x61, 0, 0x62]) := by
    unfold uchunkSerialize at hwrite
    dsimp only at hwrite
    split at hwrite <;> cases hwrite
    decide +kernel
  have hagain : declared (fun _ => true) bytes = some ⟨oneString [0x61], [7]⟩ := by
    rw [hbytes]
    exact declared_of_flat (by decide +kernel)
  refine ⟨hagain, ?_⟩
  rw [hagain, horig]
  intro heq
  simp [oneString] at heq

theorem reserialize_declares_oneString :
    ∃ n bytes, uchunkSerialize (oneString [0x61]) none = .ok (n, []) ∧
      (∀ cap, n ≤ cap → uchunkSerialize (oneString [0x61]) (some cap) = .ok (n, bytes)) ∧
      declared (fun _ => true) bytes = some ⟨oneString [0x61], [7]⟩ := by
  have hload : declared (fun _ => true) (chunkBytes (oneString [0x61])) =
      some ⟨oneString [0x61], [7]⟩ := declared_of_flat (by decide +kernel)
  have hsize : (chunkBytes (oneString [0x61])).length < 2 ^ 64 := by decide +kernel
  refine (reserialize_declares_iff (fun _ => rfl) hsize hload).mpr ⟨⟨by decide, ?_, ?_⟩, ?_⟩
  · intro q hq s hs
    rcases UProto.within_mk_iff.mp hq with rfl | ⟨c, hc, -⟩
    · cases List.mem_singleton.mp hs
      decide
    · cases hc
  · intro q hq n hn
    rcases UProto.within_mk_iff.mp hq with rfl | ⟨c, hc, -⟩
    · cases hn
    · cases hc
  · intro v hv
    cases List.mem_singleton.mp hv
    decide

end Urbi
