import Urbi.Chunk.Lengths
import Urbi.Chunk.WellFormed

/-!
# The wire round trip

Section by section, the loader reads back what the writer put down (`Reads`), and reports the lines
of the tree on the way (`Says`), for a tree inside the loader's limits and an allocator that grants
every request.
-/

namespace Urbi

open Lib
variable {ns : List (Option UProto)} {p : UProto} {n : Nat} {b : Block} {arity : Bool}

/-! ## Limits -/

def ConstFits : UConst → Prop
  | .int _ | .float _ => True
  | .str bytes => (0 : UInt8) ∉ bytes
  | .nil | .bool _ => False

instance : DecidablePred ConstFits := fun c => by
  cases c <;> unfold ConstFits <;> infer_instance

structure BlockFits (b : Block) : Prop where
  constCount : b.constCount ≤ 65536
  constants : ∀ c ∈ b.constants, ConstFits c
  instrCount : b.instrCount ≤ urbiMaxInstrsPerProto
  lineDeltas : b.lineDeltas.length = b.instrCount
  absLineCount : b.absLines.length ≤ b.instrCount
  absLinePc : ∀ l ∈ b.absLines, l.pc.toNat < b.instrCount
  absLineOrder : b.absLines.Pairwise fun l l' => l.pc.toNat < l'.pc.toNat
  siteCount : b.siteCount ≤ 65535
  siteName : ∀ n ∈ b.siteNameStrs, (0 : UInt8) ∉ n.getD [] ∧ (n.getD []).length ≤ 256
  frame : frameFits b.arityPrologue b.maxReg b.nparams = true

mutual
def UProto.depth : UProto → Nat
  | .mk _ ns => UProto.depthNested ns
def UProto.depthNested : List (Option UProto) → Nat
  | [] => 0
  | none :: ns => UProto.depthNested ns
  | some p :: ns => max (p.depth + 1) (UProto.depthNested ns)
end

theorem UProto.depth_lt_of_mem (h : some p ∈ ns) : p.depth < UProto.depthNested ns := by
  induction ns with
  | nil => cases h
  | cons o ns ih =>
    rcases List.mem_cons.mp h with rfl | hmem
    · rw [UProto.depthNested]; omega
    · have := ih hmem
      cases o with
      | none => rwa [UProto.depthNested]
      | some q => rw [UProto.depthNested]; omega

/-- No absent child, every function within its limits and with the same arity flag, and no deeper
than the loader descends. -/
structure TreeFits (arity : Bool) (p : UProto) : Prop where
  block : ∀ q, UProto.Within q p → BlockFits q.block
  arity : ∀ q, UProto.Within q p → q.block.arityPrologue = arity
  nestedCount : ∀ q, UProto.Within q p → q.nested.length ≤ 1024
  present : ∀ q, UProto.Within q p → ∀ o ∈ q.nested, o.isSome
  depth : p.depth ≤ uchunkMaxProtoDepth

/-! ## Absent and empty names

The wire has one spelling for an absent name and an empty one.  `normNames` picks the one the loader
produces; the verifier never looks at a name. -/

def Block.normNames (b : Block) : Block :=
  { b with siteNameStrs := b.siteNameStrs.map fun n => some (n.getD []) }

mutual
def UProto.normNames : UProto → UProto
  | .mk b ns => .mk b.normNames (UProto.normNamesNested ns)
def UProto.normNamesNested : List (Option UProto) → List (Option UProto)
  | [] => []
  | none :: ns => none :: UProto.normNamesNested ns
  | some p :: ns => some p.normNames :: UProto.normNamesNested ns
end

def UChunk.normNames (c : UChunk) : UChunk :=
  ⟨if c.sourceName.getD [] = [] then none else c.sourceName, c.root.normNames⟩

theorem UProto.normNamesNested_eq_map (ns : List (Option UProto)) :
    UProto.normNamesNested ns = ns.map (Option.map UProto.normNames) := by
  induction ns with
  | nil => rfl
  | cons o ns ih => cases o <;> simp [UProto.normNamesNested, ih]

@[simp] theorem Block.siteCount_normNames (b : Block) : b.normNames.siteCount = b.siteCount :=
  List.length_map _

@[simp] theorem UProto.nupvals_normNames (p : UProto) :
    p.normNames.block.nupvals = p.block.nupvals := by
  cases p; rfl

theorem nestedAt_normNames (ns : List (Option UProto)) (i : Nat) :
    nestedAt (UProto.normNamesNested ns) i = (nestedAt ns i).map UProto.normNames := by
  unfold nestedAt
  rw [UProto.normNamesNested_eq_map, List.getElem?_map]
  cases ns[i]? with
  | none => rfl
  | some o => cases o <;> rfl

theorem verifyInstr_normNames (b : Block) (ns : List (Option UProto)) :
    verifyInstr b.normNames (UProto.normNamesNested ns) = verifyInstr b ns := by
  have hlen : (UProto.normNamesNested ns).length = ns.length := by
    rw [UProto.normNamesNested_eq_map, List.length_map]
  have hclosure : verifyClosure b.normNames (UProto.normNamesNested ns) = verifyClosure b ns := by
    funext vi ins
    unfold verifyClosure
    rw [nestedAt_normNames]
    cases nestedAt ns (uinstrBx ins) with
    | none => rfl
    | some child => simp only [Option.map_some, UProto.nupvals_normNames]; rfl
  have habc : verifyAbc b.normNames = verifyAbc b := by
    funext prev ext op ins
    simp only [verifyAbc, Block.siteCount_normNames]
    rfl
  have habx : verifyAbx b.normNames (UProto.normNamesNested ns) = verifyAbx b ns := by
    funext vi op ins
    simp only [verifyAbx, hclosure, hlen]
    rfl
  funext vi prev ext op ins
  simp only [verifyInstr, habc, habx]
  rfl

theorem verifyWalk_normNames (b : Block) (ns : List (Option UProto)) (ws : List UInt32) (vi skip : Nat)
    (prev : Option UInt32) (st : WalkState) :
    verifyWalk b.normNames (UProto.normNamesNested ns) vi skip prev st ws =
      verifyWalk b ns vi skip prev st ws := by
  induction ws generalizing vi skip prev st with
  | nil => simp only [verifyWalk]
  | cons w ws ih =>
    cases skip with
    | succ skip => simp only [verifyWalk, ih]
    | zero => simp only [verifyWalk, ih, verifyInstr_normNames]; rfl

theorem verifyPreludes_normNames (alloc : UChunkAlloc) (b : Block) (ns : List (Option UProto))
    (ws : List UInt32) (vi skip : Nat) (marked : Bool) :
    verifyPreludes alloc b.normNames (UProto.normNamesNested ns) vi skip marked ws =
      verifyPreludes alloc b ns vi skip marked ws := by
  induction ws generalizing vi skip marked with
  | nil => simp only [verifyPreludes]
  | cons w ws ih =>
    cases skip with
    | succ skip => simp only [verifyPreludes, ih]; rfl
    | zero =>
      have hlen : ((nestedAt ns (uinstrBx w)).map UProto.normNames).elim 0
          (fun p => p.block.nupvals.toNat) =
          (nestedAt ns (uinstrBx w)).elim 0 fun p => p.block.nupvals.toNat := by
        cases nestedAt ns (uinstrBx w) <;> simp
      simp only [verifyPreludes, ih, nestedAt_normNames, hlen]
      rfl

theorem verifyTransfers_normNames (b : Block) (prelude : List Bool) (ws : List UInt32) (vi : Nat) :
    verifyTransfers b.normNames prelude vi ws = verifyTransfers b prelude vi ws := by
  induction ws generalizing vi with
  | nil => rfl
  | cons w ws ih => simp only [verifyTransfers, ih]; rfl

theorem verifyProtoRecursive_normNames (p : UProto) :
    verifyProtoRecursive p.normNames = verifyProtoRecursive p := by
  induction p using UProto.nested_induction
    (Q := fun ns => verifyProtosRecursive (UProto.normNamesNested ns) = verifyProtosRecursive ns) with
  | nil => rfl
  | none ns ih => exact ih
  | some p ns ihp ih => simp only [UProto.normNamesNested, verifyProtosRecursive, ih, ihp]
  | mk b ns ih =>
    simp only [UProto.normNames, verifyProtoRecursive, ih, verifyWalkBlock,
      Block.siteCount_normNames]
    rw [show b.normNames.instructions = b.instructions from rfl, verifyWalk_normNames]
    rfl

theorem verifyBoundsProto_normNames (alloc : UChunkAlloc) (p : UProto) :
    verifyBoundsProto alloc p.normNames = verifyBoundsProto alloc p := by
  induction p using UProto.nested_induction (Q := fun ns =>
    verifyBoundsProtos alloc (UProto.normNamesNested ns) = verifyBoundsProtos alloc ns) with
  | nil => rfl
  | none ns ih => exact ih
  | some p ns ihp ih => simp only [UProto.normNamesNested, verifyBoundsProtos, ih, ihp]
  | mk b ns ih =>
    simp only [UProto.normNames, verifyBoundsProto, ih, verifyTransfers_normNames]
    rw [show b.normNames.instructions = b.instructions from rfl, verifyPreludes_normNames]

/-! ## Primitive reads -/

section Reads

variable {α : Type} {enc : Encoding} {x : α}

abbrev Loads (m : Decode α) (enc : Encoding) (x : α) : Prop := Reads (2 ^ 64) m enc x

theorem loads_of_bound {m : Decode α}
    (h : ∀ off, (enc off).length < 2 ^ 64 → Loads m enc x) : Loads m enc x :=
  fun off r a hlim => h off (by omega) off r a hlim

theorem loads_allocate {alloc : UChunkAlloc} (halloc : ∀ k, alloc k = true) (hpos : 0 < n)
    (hlt : n < 2 ^ 64) : Loads (allocate alloc n) .empty () := by
  intro off r a _
  refine ⟨a + 1, ?_⟩
  simp [allocate, request_ok halloc hpos hlt, Encoding.empty]

theorem loads_allocateFor {alloc : UChunkAlloc} (halloc : ∀ k, alloc k = true) {nbytes : Nat}
    (hpos : 0 < n → 0 < nbytes) (hlt : nbytes < 2 ^ 64) :
    Loads (allocateFor alloc n nbytes) .empty () := by
  unfold allocateFor
  split
  · exact loads_allocate halloc (hpos ‹_›) hlt
  · exact Reads.pure ()

theorem requireBytes_fits {off a : Nat} {r : Bytes} (hn : n ≤ (enc off).length) :
    requireBytes n ⟨off, enc off ++ r, a⟩ = .ok ((), ⟨off, enc off ++ r, a⟩) := by
  refine if_neg ?_
  rw [List.length_append]
  omega

theorem loads_requireBytes {f : Unit → Decode α} (hn : ∀ off, n ≤ (enc off).length)
    (h : Loads (f ()) enc x) : Loads (requireBytes n >>= f) enc x := by
  intro off r a hlim
  obtain ⟨a', h'⟩ := h off r a hlim
  exact ⟨a', by rw [bind_of_ok (requireBytes_fits (hn off)), h']⟩

theorem loads_requireRemaining {f : Unit → Decode α} (hn : ∀ off, n ≤ (enc off).length)
    (h : Loads (f ()) enc x) : Loads (requireRemaining n >>= f) enc x := by
  intro off r a hlim
  obtain ⟨a', h'⟩ := h off r a hlim
  refine ⟨a', ?_⟩
  have hfit : ¬ n > (enc off ++ r).length := by
    have := hn off
    rw [List.length_append]
    omega
  have hreq : requireRemaining n ⟨off, enc off ++ r, a⟩ = .ok ((), ⟨off, enc off ++ r, a⟩) :=
    if_neg hfit
  rw [bind_of_ok hreq, h']

theorem loads_takeBytes (bs : Bytes) : Loads (takeBytes bs.length) (.raw bs) bs := by
  intro off r a _
  exact ⟨a, by simp [takeBytes, Encoding.raw]⟩

theorem loads_varintU (v : UInt64) :
    Loads moduleDecodeVarintU (.raw (uvarintWriteU v)) v.toNat := by
  intro off r a _
  exact ⟨a, by simp [moduleDecodeVarintU, moduleDecodeVarint, Encoding.raw, uvarintDecodeU_write]⟩

theorem loads_varintZz (v : Int64) : Loads moduleDecodeVarintZz (.raw (uvarintWriteZz v)) v := by
  intro off r a _
  exact ⟨a, by simp [moduleDecodeVarintZz, moduleDecodeVarint, Encoding.raw,
    uvarintDecodeZz_write]⟩

theorem loads_count (h : n < 2 ^ 64) : Loads moduleDecodeVarintU (encCount n) n := by
  have hn : (UInt64.ofNat n).toNat = n := UInt64.toNat_ofNat_of_lt' h
  have h := loads_varintU (UInt64.ofNat n)
  rw [hn] at h
  exact h

end Reads

/-! ## On the writer's bytes -/

section Says

variable {α β : Type} {enc enc' : Encoding} {x : α} {y : β} {vs vs' : List Nat} {m : Trace α}
  {f : α → Trace β}

def Speaks (m : Trace α) (enc : Encoding) (vs : List Nat) : Prop :=
  ∀ off r a, off + (enc off).length + r.length < 2 ^ 64 →
    values (m.trail ⟨off, enc off ++ r, a⟩) = vs

theorem Silent.speaks {m : Trace α} (h : Silent m) : Speaks m enc [] := fun _ _ _ _ => h _

theorem Speaks.bind {m : Trace α} {f : α → Trace β} (hm : Speaks m enc vs)
    (hload : Loads m.outcome enc x) (hf : Speaks (f x) enc' vs') :
    Speaks (m >>= f) (enc.seq enc') (vs ++ vs') := by
  intro off r a hlim
  simp only [Encoding.seq, List.length_append] at hlim
  have hlim' : off + (enc off).length +
      (enc' (off + (enc off).length) ++ r).length < 2 ^ 64 := by
    rw [List.length_append]
    omega
  obtain ⟨a', ha'⟩ := hload off (enc' (off + (enc off).length) ++ r) a hlim'
  have hfirst := hm off (enc' (off + (enc off).length) ++ r) a hlim'
  have hsecond := hf (off + (enc off).length) r a' (by omega)
  rw [Encoding.seq, List.append_assoc, Traced.trail_bind_of_ok ha', values_append, hfirst,
    hsecond]

structure Says (m : Trace α) (enc : Encoding) (x : α) (vs : List Nat) : Prop where
  loads : Loads m.outcome enc x
  speaks : Speaks m enc vs

theorem Silent.speaks_bind (hm : Silent m) (hload : Loads m.outcome enc x)
    (hf : Speaks (f x) enc' vs) : Speaks (m >>= f) (enc.seq enc') vs :=
  (show Speaks m enc [] from hm.speaks).bind hload hf

theorem Says.of_silent (h : Silent m) (hload : Loads m.outcome enc x) : Says m enc x [] :=
  ⟨hload, h.speaks⟩

theorem Says.bind (hm : Says m enc x vs) (hf : Says (f x) enc' y vs') :
    Says (m >>= f) (enc.seq enc') y (vs ++ vs') := by
  refine ⟨?_, hm.speaks.bind hm.loads hf.speaks⟩
  rw [Traced.outcome_bind]
  exact hm.loads.bind hf.loads

theorem Says.bind_pure {g : α → β} (hm : Says m enc x vs) :
    Says (m >>= fun a => pure (g a)) enc (g x) vs := by
  have hend : Says (pure (g x) : Trace β) .empty (g x) [] :=
    .of_silent (silent_pure _) (Reads.pure _)
  have h := hm.bind (f := fun a => pure (g a)) hend
  rwa [Encoding.seq_empty, List.append_nil] at h

theorem Silent.says_bind (hm : Silent m) (hload : Loads m.outcome enc x)
    (hf : Says (f x) enc' y vs) : Says (m >>= f) (enc.seq enc') y vs :=
  (Says.of_silent hm hload).bind hf

theorem says_quiet {m : Decode α} (hload : Loads m .empty x) (hf : Says (f x) enc y vs) :
    Says (.quiet m >>= f) enc y vs :=
  Encoding.empty_seq enc ▸ (silent_quiet m).says_bind hload hf

theorem says_moving {m : Decode α} (hload : Loads m enc x) (hf : Says (f x) enc' y vs) :
    Says (.moving m >>= f) (enc.seq enc') y vs :=
  (silent_moving m).says_bind (by rwa [Traced.outcome_moving]) hf

theorem says_requireBytes {f : Unit → Trace α} (hn : ∀ off, n ≤ (enc off).length)
    (hf : Says (f ()) enc x vs) : Says (.quiet (requireBytes n) >>= f) enc x vs := by
  refine ⟨?_, fun off r a hlim => ?_⟩
  · rw [Traced.outcome_bind]
    exact loads_requireBytes hn hf.loads
  · have hreq : (Traced.quiet (requireBytes n)).outcome ⟨off, enc off ++ r, a⟩ =
        .ok ((), ⟨off, enc off ++ r, a⟩) := requireBytes_fits (hn off)
    rw [Traced.trail_bind_of_ok hreq, values_append, hf.speaks off r a hlim]
    rfl

theorem Says.times_map {m : Nat → Trace β} {enc : α → Encoding} {g : α → β} {vs : α → List Nat}
    {xs : List α} (start : Nat)
    (h : ∀ i x, xs[i]? = some x → Says (m (start + i)) (enc x) (g x) (vs x)) :
    Says (Traced.times m xs.length start) (.list enc xs) (xs.map g) (xs.flatMap vs) := by
  induction xs generalizing start with
  | nil => exact .of_silent (silent_pure _) (Reads.pure [])
  | cons x xs ih =>
    have hxs := ih (start + 1) fun i y hy => by
      rw [show start + 1 + i = start + (i + 1) by omega]
      exact h (i + 1) y (by simpa using hy)
    exact (h 0 x rfl).bind hxs.bind_pure

end Says

@[simp] theorem length_leBytes (n v : Nat) : (leBytes n v).length = n := by
  induction n generalizing v with
  | zero => rfl
  | succ n ih => simp [leBytes, ih]

theorem leValue_leBytes (n v : Nat) (h : v < 2 ^ (8 * n)) : leValue (leBytes n v) = v := by
  induction n generalizing v with
  | zero =>
    have : v = 0 := by simpa using h
    simp [leBytes, leValue, this]
  | succ n ih =>
    have hdiv : v / 2 ^ 8 < 2 ^ (8 * n) := by
      rw [Nat.div_lt_iff_lt_mul (by decide), ← Nat.pow_add]
      exact h
    have hb : (UInt8.ofNat (v % 2 ^ 8)).toNat = v % 2 ^ 8 :=
      UInt8.toNat_ofNat_of_lt' (Nat.mod_lt _ (by decide))
    rw [leBytes, leValue, ih _ hdiv, hb]
    exact Nat.mod_add_div _ _

def Block.lines (b : Block) : List UInt32 := b.absLines.map (·.line)

mutual
def UProto.lines : UProto → List UInt32
  | .mk b ns => b.lines ++ UProto.linesNested ns
def UProto.linesNested : List (Option UProto) → List UInt32
  | [] => []
  | none :: ns => UProto.linesNested ns
  | some p :: ns => p.lines ++ UProto.linesNested ns
end

theorem UProto.linesNested_eq_flatMap (ns : List (Option UProto)) :
    UProto.linesNested ns = ns.flatMap fun o => o.elim [] UProto.lines := by
  induction ns with
  | nil => rfl
  | cons o ns ih => cases o <;> simp [UProto.linesNested, ih]

/-! ## Sections -/

section Sections

variable {alloc : UChunkAlloc} (halloc : ∀ k, alloc k = true)

include halloc

theorem loads_decodeBytes {bs : Bytes} (h : bs.length + 1 < 2 ^ 64) :
    Loads (decodeBytes alloc bs.length) (.raw bs) bs :=
  loads_requireBytes (fun _ => le_rfl)
    ((loads_allocate halloc (by omega) h).bind_empty (loads_takeBytes bs))

omit halloc in
theorem length_encCount_pos (n off : Nat) : 0 < (encCount n off).length := by
  unfold encCount Encoding.raw uvarintWriteU
  rw [uvarintGroups]
  split <;> simp

omit halloc in
theorem loads_cstr {α : Type} {s : Bytes} {f : Nat → Decode α} {x : α}
    (h : (cstr s).length + 1 < 2 ^ 64 → Loads (f (cstr s).length) (.raw (cstr s)) x) :
    Loads (moduleDecodeVarintU >>= f) (encCstr s) x := by
  apply loads_of_bound
  intro off hlen
  have hpos := length_encCount_pos (cstr s).length off
  have hs : (cstr s).length + 1 < 2 ^ 64 := by
    simp only [encCstr, Encoding.seq, Encoding.raw, List.length_append] at hlen
    omega
  exact (loads_count (by omega)).bind (h hs)

theorem loads_decodeConstant {c : UConst} (h : ConstFits c) :
    Loads (decodeConstant alloc) (encConstant c) c := by
  have hkind : ∀ {f : Bytes → Decode UConst} {enc : Encoding}, Loads (f [c.kind]) enc c →
      Loads (requireBytes 1 >>= fun _ => takeBytes 1 >>= f)
        ((Encoding.raw [c.kind]).seq enc) c := by
    intro f enc hf
    apply loads_requireBytes
    · intro off
      simp [Encoding.seq, Encoding.raw]
    · exact (loads_takeBytes [c.kind]).bind hf
  cases c with
  | nil | bool b => exact absurd h id
  | int i => exact hkind ((Reads.require rfl).bind_empty (loads_varintZz i).bind_pure)
  | float bits =>
    have hbits : UInt64.ofNat (leValue (leBytes 8 bits.toNat)) = bits := by
      rw [leValue_leBytes 8 _ bits.toNat_lt, UInt64.ofNat_toNat]
    have hread : Loads (takeBytes 8 >>= fun bits => pure (UConst.float (UInt64.ofNat
        (leValue bits)))) (.raw (leBytes 8 bits.toNat)) (.float bits) := by
      have := (loads_takeBytes (leBytes 8 bits.toNat)).bind_pure
        (f := fun b => UConst.float (UInt64.ofNat (leValue b)))
      rwa [hbits, length_leBytes] at this
    exact hkind ((Reads.require rfl).bind_empty
      (loads_requireBytes (fun _ => by simp [Encoding.raw]) hread))
  | str bytes =>
    have hb : cstr bytes = bytes := cstr_eq_self_iff.mpr h
    refine hkind ((Reads.require rfl).bind_empty (loads_cstr fun hlen => ?_))
    have := (loads_decodeBytes halloc hlen).bind_pure (f := UConst.str)
    rwa [hb] at this ⊢

theorem loads_decodeConstants (h : BlockFits b) :
    Loads (decodeConstants alloc) (encSeq encConstant b.constants) b.constants := by
  have hcount : b.constants.length ≤ 65536 := h.constCount
  refine (loads_count (by omega)).bind ?_
  refine (Reads.require (by simpa using hcount)).bind_empty ?_
  refine (loads_allocateFor halloc (by omega) (by omega)).bind_empty ?_
  exact Reads.times 0 fun i c hc =>
    loads_decodeConstant halloc (h.constants c (List.mem_of_getElem? hc))

omit halloc in
theorem loads_decodeAlign : Loads (decodeAlign 3) encAlign () := by
  intro off r a _
  refine ⟨a, ?_⟩
  have h4 : off % 4 = 0 ∨ off % 4 = 1 ∨ off % 4 = 2 ∨ off % 4 = 3 := by omega
  rcases h4 with h | h | h | h
  · simp [decodeAlign, encAlign, h]
  · have h2 : (off + 1) % 4 = 2 := by omega
    have h3 : (off + 1 + 1) % 4 = 3 := by omega
    simp [decodeAlign, encAlign, h, h2, h3, List.replicate]
  · have h3 : (off + 1) % 4 = 3 := by omega
    have h0 : (off + 1 + 1) % 4 = 0 := by omega
    simp [decodeAlign, encAlign, h, h3, h0, List.replicate]
  · have h0 : (off + 1) % 4 = 0 := by omega
    simp [decodeAlign, encAlign, h, h0]

omit halloc in
theorem loads_decodeInstruction (ins : UInt32) :
    Loads decodeInstruction (encInstruction ins) ins := by
  have hval : UInt32.ofNat (leValue (leBytes 4 ins.toNat)) = ins := by
    rw [leValue_leBytes 4 _ ins.toNat_lt, UInt32.ofNat_toNat]
  have hread := (loads_takeBytes (leBytes 4 ins.toNat)).bind_pure
    (f := fun b => UInt32.ofNat (leValue b))
  rw [hval, length_leBytes] at hread
  exact loads_requireBytes (fun _ => by simp [encInstruction, Encoding.raw]) hread

theorem loads_decodeInstructions (h : BlockFits b) : Loads (decodeInstructions alloc)
      ((encCount b.instrCount).seq (encAlign.seq (.list encInstruction b.instructions)))
      b.instructions := by
  have hcount : b.instructions.length ≤ 2 ^ 20 := h.instrCount
  refine (loads_count (n := b.instructions.length) (by omega)).bind ?_
  refine (Reads.require (decide_eq_true hcount)).bind_empty ?_
  refine loads_decodeAlign.bind ?_
  refine (loads_allocateFor halloc (by omega) (by omega)).bind_empty ?_
  exact Reads.times 0 fun i ins _ => loads_decodeInstruction ins

theorem loads_decodeLineDeltas (h : BlockFits b) : Loads (decodeLineDeltas alloc b.instrCount)
      ((encCount b.instrCount).seq (.raw b.lineDeltas)) b.lineDeltas := by
  have hcount : b.instrCount ≤ 2 ^ 20 := h.instrCount
  refine (loads_count (by omega)).bind ?_
  refine (Reads.require (by simp)).bind_empty ?_
  rw [← h.lineDeltas] at hcount ⊢
  split
  · refine (loads_allocate halloc ‹_› (by omega)).bind_empty ?_
    exact loads_requireBytes (fun _ => le_rfl) (loads_takeBytes _)
  · have hnil : b.lineDeltas = [] := List.eq_nil_of_length_eq_zero (by omega)
    rw [hnil]
    exact Reads.pure []

omit halloc in
theorem says_traceAbsLines (instrCount : Nat) {ls : List UAbsLine} {prev : Option Nat}
    (hpc : ∀ l ∈ ls, l.pc.toNat < instrCount)
    (horder : ls.Pairwise fun l l' => l.pc.toNat < l'.pc.toNat)
    (hprev : ∀ l ∈ ls, prev.all (· < l.pc.toNat) = true) :
    Says (traceAbsLines instrCount ls.length prev) (.list encAbsLine ls) ls
      (ls.map (·.line.toNat)) := by
  induction ls generalizing prev with
  | nil => exact .of_silent (silent_pure _) (Reads.pure [])
  | cons l ls ih =>
    obtain ⟨hbefore, hrest⟩ := List.pairwise_cons.mp horder
    have hmod : l.pc.toUInt64.toNat % 2 ^ 32 = l.pc.toNat := by
      rw [UInt32.toNat_toUInt64]
      exact Nat.mod_eq_of_lt l.pc.toNat_lt
    have hih := @ih (some l.pc.toNat) (fun l' h => hpc l' (.tail _ h)) hrest
      (fun l' h => by simpa using hbefore l' h)
    have hlast := hprev l (.head _)
    rw [← hmod] at hih hlast
    have hback : (⟨UInt32.ofNat l.pc.toUInt64.toNat, UInt32.ofNat l.line.toUInt64.toNat⟩ :
        UAbsLine) = l := by simp
    have hreport : Says (.report l.line.toUInt64.toNat : Trace Unit) .empty () [l.line.toNat] := by
      refine ⟨Reads.pure (), fun off r a _ => ?_⟩
      rw [UInt32.toNat_toUInt64]
      rfl
    rw [Encoding.list, encAbsLine, Encoding.seq_assoc]
    refine says_moving (loads_varintU l.pc.toUInt64) (says_moving (loads_varintU l.line.toUInt64) ?_)
    rw [← Encoding.empty_seq (.list encAbsLine ls)]
    refine hreport.bind (says_quiet (Reads.require ?_) (says_quiet (Reads.require hlast) ?_))
    · simpa using hpc l (.head _)
    · rw [hback]
      exact hih.bind_pure

theorem says_traceAbsLineTable (h : BlockFits b) :
    Says (traceAbsLineTable alloc b.instrCount) (encSeq encAbsLine b.absLines) b.absLines
      (b.lines.map UInt32.toNat) := by
  have hcount : b.instrCount ≤ 2 ^ 20 := h.instrCount
  have hlines := h.absLineCount
  refine says_moving (loads_count (by omega)) ?_
  refine says_quiet (Reads.require (decide_eq_true hlines)) ?_
  refine says_quiet (loads_allocateFor halloc (by omega) (by omega)) ?_
  rw [Block.lines, List.map_map]
  exact says_traceAbsLines _ h.absLinePc h.absLineOrder fun l _ => rfl

theorem loads_decodeSiteName {name : Option Bytes} (hz : (0 : UInt8) ∉ name.getD [])
    (hlen : (name.getD []).length ≤ 256) :
    Loads (decodeSiteName alloc) (encName name) (some (name.getD [])) := by
  have hb : cstr (name.getD []) = name.getD [] := cstr_eq_self_iff.mpr hz
  refine loads_cstr fun _ => ?_
  rw [hb]
  refine (Reads.require (decide_eq_true hlen)).bind_empty ?_
  exact (loads_decodeBytes halloc (by omega)).bind_pure

omit halloc in
theorem length_list_encName (names : List (Option Bytes)) (off : Nat) :
    names.length ≤ (Encoding.list encName names off).length := by
  induction names generalizing off with
  | nil => simp
  | cons n ns ih =>
    have hpos : 0 < (encName n off).length := by
      have := length_encCount_pos (cstr (n.getD [])).length off
      simp only [encName, encCstr, Encoding.seq, List.length_append]
      omega
    have := ih (off + (encName n off).length)
    simp only [Encoding.list, Encoding.seq, List.length_append, List.length_cons]
    omega

theorem loads_decodeSiteNames (h : BlockFits b) :
    Loads (decodeSiteNames alloc) (encSeq encName b.siteNameStrs) b.normNames.siteNameStrs := by
  have hcount : b.siteNameStrs.length ≤ 65535 := h.siteCount
  refine (loads_count (by omega)).bind ?_
  refine (Reads.require (decide_eq_true hcount)).bind_empty ?_
  refine loads_requireRemaining (length_list_encName _) ?_
  refine (loads_allocateFor halloc (by omega) (by omega)).bind_empty ?_
  refine Reads.times_map 0 fun i name hn => ?_
  obtain ⟨hz, hlen⟩ := h.siteName name (List.mem_of_getElem? hn)
  exact loads_decodeSiteName halloc hz hlen

omit halloc in
theorem loads_decodeByte (v : UInt8) : Loads decodeByte (.raw [v]) v :=
  (loads_takeBytes [v]).bind_pure

omit halloc in
theorem loads_decodeFrame (a b c : UInt8) :
    Loads decodeFrame ((Encoding.raw [a]).seq ((Encoding.raw [b]).seq (.raw [c]))) (a, b, c) :=
  (loads_decodeByte a).bind ((loads_decodeByte b).bind (loads_decodeByte c).bind_pure)

theorem says_traceBlock (h : BlockFits b) :
    Says (traceBlock alloc b.arityPrologue) (encBlock b) b.normNames
      (b.lines.map UInt32.toNat) := by
  apply says_requireBytes
  · intro off
    simp only [encBlock, Encoding.seq, Encoding.raw, List.length_append, List.length_singleton]
    omega
  have hgroup : encBlock b = ((Encoding.raw [b.maxReg]).seq ((Encoding.raw [b.nupvals]).seq
      (.raw [b.nparams]))).seq ((encSeq encConstant b.constants).seq
      (((encCount b.instrCount).seq (encAlign.seq (.list encInstruction b.instructions))).seq
      (((encCount b.instrCount).seq (.raw b.lineDeltas)).seq
      ((encSeq encAbsLine b.absLines).seq (encSeq encName b.siteNameStrs))))) := by
    simp only [encBlock, Encoding.seq_assoc]
  rw [hgroup, ← List.append_nil (b.lines.map _)]
  refine says_moving (loads_decodeFrame b.maxReg b.nupvals b.nparams) ?_
  refine says_quiet (Reads.require h.frame) ?_
  refine silent_traceConstants.says_bind (by
    rw [outcome_traceConstants]; exact loads_decodeConstants halloc h) ?_
  refine silent_traceInstructions.says_bind (by
    rw [outcome_traceInstructions]; exact loads_decodeInstructions halloc h) ?_
  refine (silent_traceLineDeltas _).says_bind (by
    rw [outcome_traceLineDeltas]; exact loads_decodeLineDeltas halloc h) ?_
  refine (says_traceAbsLineTable halloc h).bind (Says.of_silent silent_traceSiteNames ?_).bind_pure
  rw [outcome_traceSiteNames]
  exact loads_decodeSiteNames halloc h

theorem says_traceChild {record : Trace UProto} {enc : Encoding} {vs : List Nat} (i : Nat)
    (hi : i < 1024) (h : Says record enc p vs) :
    Says (traceChild alloc record i) enc (some p) vs := by
  have hgrow : Loads (growNested alloc i) .empty () := by
    unfold growNested
    split
    · split
      · exact loads_allocate halloc (by omega) (by omega)
      · exact loads_allocate halloc (by omega) (by omega)
    · exact Reads.pure ()
  exact says_quiet hgrow (says_quiet (loads_allocate halloc (by omega) (by omega)) h.bind_pure)

omit halloc in
theorem encNested_eq_list (ns : List (Option UProto)) :
    encNested ns = Encoding.list (fun o => o.elim encStub encProto) ns := by
  induction ns with
  | nil => rfl
  | cons o ns ih => cases o <;> simp only [encNested, ih] <;> rfl

omit halloc in
theorem says_traceNested {child : Nat → Trace (Option UProto)} (hcount : ns.length ≤ 1024)
    (h : ∀ i o, i < 1024 → o ∈ ns → Says (child i) (o.elim encStub encProto)
      (o.map UProto.normNames) ((o.elim [] UProto.lines).map UInt32.toNat)) :
    Says (traceNested child) ((encCount ns.length).seq (encNested ns))
      (UProto.normNamesNested ns) ((UProto.linesNested ns).map UInt32.toNat) := by
  rw [UProto.normNamesNested_eq_map, encNested_eq_list, UProto.linesNested_eq_flatMap,
    List.map_flatMap]
  refine says_moving (loads_count (by omega)) ?_
  refine says_quiet (Reads.require (decide_eq_true hcount)) ?_
  refine Says.times_map 0 fun i o ho => ?_
  obtain ⟨hi, -⟩ := List.getElem?_eq_some_iff.mp ho
  exact h _ o (by omega) (List.mem_of_getElem? ho)

omit halloc in
theorem TreeFits.of_mem (h : TreeFits arity (.mk b ns)) (hp : some p ∈ ns) : TreeFits arity p := by
  have hwithin : ∀ {q}, UProto.Within q p → UProto.Within q (.mk b ns) :=
    fun hq => hq.trans (UProto.within_of_mem_nested hp)
  have hdepth := h.depth
  have hlt := UProto.depth_lt_of_mem hp
  rw [UProto.depth] at hdepth
  exact ⟨fun q hq => h.block q (hwithin hq), fun q hq => h.arity q (hwithin hq),
    fun q hq => h.nestedCount q (hwithin hq), fun q hq => h.present q (hwithin hq), by omega⟩

omit halloc in
theorem TreeFits.child {o : Option UProto} {levels : Nat} (h : TreeFits arity (.mk b ns))
    (hdepth : (UProto.mk b ns).depth ≤ levels) (ho : o ∈ ns) :
    ∃ q, o = some q ∧ TreeFits arity q ∧ q.depth < levels := by
  obtain ⟨q, rfl⟩ := Option.isSome_iff_exists.mp (h.present _ (.refl _) o ho)
  have hlt := UProto.depth_lt_of_mem ho
  rw [UProto.depth] at hdepth
  exact ⟨q, rfl, h.of_mem ho, by omega⟩

theorem TreeFits.says_block (h : TreeFits arity (.mk b ns)) :
    Says (traceBlock alloc arity) (encBlock b) b.normNames (b.lines.map UInt32.toNat) := by
  have harity : b.arityPrologue = arity := h.arity _ (.refl _)
  exact harity ▸ says_traceBlock halloc (h.block _ (.refl _))

theorem says_traceProto (levels : Nat) (h : TreeFits arity p) (hdepth : p.depth ≤ levels) :
    Says (traceProto alloc arity levels) (encProto p) p.normNames (p.lines.map UInt32.toNat) := by
  induction levels generalizing p with
  | zero =>
    obtain ⟨b, ns⟩ := p
    rw [UProto.lines, List.map_append]
    refine (h.says_block halloc).bind (Says.bind_pure (g := UProto.mk b.normNames) ?_)
    refine says_traceNested (h.nestedCount _ (.refl _)) fun i o _ ho => ?_
    -- a present child would be one level down, which this depth excludes
    obtain ⟨q, -, -, hlt⟩ := h.child hdepth ho
    cases hlt
  | succ levels ih =>
    obtain ⟨b, ns⟩ := p
    rw [UProto.lines, List.map_append]
    refine (h.says_block halloc).bind (Says.bind_pure (g := UProto.mk b.normNames) ?_)
    refine says_traceNested (h.nestedCount _ (.refl _)) fun i o hi ho => ?_
    obtain ⟨q, rfl, hq, hlt⟩ := h.child hdepth ho
    exact says_traceChild halloc i hi (ih hq (Nat.le_of_lt_succ hlt))

omit halloc in
theorem loads_decodeHeader (arity : Bool) :
    Loads decodeHeader (.raw (chunkHeader arity)) arity := by
  intro off r a _
  refine ⟨a, ?_⟩
  have hlen : ¬ off + (chunkHeader arity ++ r).length < 24 := by
    simp [chunkHeader]; omega
  unfold decodeHeader Encoding.raw
  rw [if_neg hlen]
  cases arity <;> simp [chunkHeader, check]

theorem loads_decodeMetadata {name : Option Bytes} (h : (0 : UInt8) ∉ name.getD []) :
    Loads (decodeMetadata alloc) (encCstr (name.getD []))
      (if name.getD [] = [] then none else name) := by
  have hb : cstr (name.getD []) = name.getD [] := cstr_eq_self_iff.mpr h
  refine loads_cstr fun hlen => ?_
  rw [hb] at hlen ⊢
  refine loads_requireBytes (fun _ => le_rfl) ?_
  split
  · have hne : name.getD [] ≠ [] := List.ne_nil_of_length_pos ‹_›
    have hname : name = some (name.getD []) := by
      cases name with
      | none => exact absurd rfl hne
      | some n => rfl
    rw [if_neg hne]
    refine (loads_allocate halloc (by omega) hlen).bind_empty ?_
    have hread := (loads_takeBytes (name.getD [])).bind_pure (f := some)
    rwa [← hname] at hread
  · have hnil : name.getD [] = [] := List.eq_nil_of_length_eq_zero (by omega)
    rw [if_pos hnil, hnil]
    exact Reads.pure none

theorem decodeChunk_chunkBytes {c : UChunk} (h : TreeFits c.root.block.arityPrologue c.root)
    (hname : (0 : UInt8) ∉ c.sourceName.getD []) (hsize : (chunkBytes c).length < 2 ^ 64) :
    ∃ k, decodeChunk alloc ⟨0, chunkBytes c, 0⟩ =
      .ok (c.normNames, ⟨(chunkBytes c).length, [], k⟩) := by
  obtain ⟨m, hread, hchunk⟩ : ∃ m, Loads m (encChunk c) c.normNames ∧
      decodeChunk alloc = m >>= fun c => decodeTrailer >>= fun _ => pure c := by
    refine ⟨allocateProto alloc >>= fun _ => decodeHeader >>= fun arity =>
      decodeMetadata alloc >>= fun sourceName =>
      decodeProto alloc arity uchunkMaxProtoDepth >>= fun root => pure (UChunk.mk sourceName root),
      ?_, by simp only [decodeChunk, bind_assoc, pure_bind]⟩
    refine (loads_allocate halloc (by omega) (by omega)).bind_empty ?_
    refine (loads_decodeHeader _).bind ((loads_decodeMetadata halloc hname).bind ?_)
    have hroot := (says_traceProto halloc _ h h.depth).loads
    rw [outcome_traceProto] at hroot
    exact hroot.bind_pure
  obtain ⟨k, hk⟩ := hread 0 [] 0 (by simpa [chunkBytes] using hsize)
  refine ⟨k, ?_⟩
  rw [List.append_nil] at hk
  rw [hchunk]
  have htrailer : decodeTrailer ⟨0 + (encChunk c 0).length, [], k⟩ =
      .ok ((), ⟨0 + (encChunk c 0).length, [], k⟩) := rfl
  unfold chunkBytes
  rw [bind_of_ok hk, bind_of_ok htrailer, Nat.zero_add, pure_apply]

theorem values_traceChunk {c : UChunk} (h : TreeFits c.root.block.arityPrologue c.root)
    (hname : (0 : UInt8) ∉ c.sourceName.getD []) (hsize : (chunkBytes c).length < 2 ^ 64) :
    values ((traceChunk alloc).trail ⟨0, chunkBytes c, 0⟩) = c.root.lines.map UInt32.toNat := by
  have hspeaks : Speaks (traceChunk alloc) (encChunk c) (c.root.lines.map UInt32.toNat) := by
    have hroot := says_traceProto halloc _ h h.depth
    rw [← Encoding.empty_seq (encChunk c)]
    refine (silent_quiet _).speaks_bind (loads_allocate halloc (by omega) (by omega)) ?_
    refine (silent_moving _).speaks_bind (by
      rw [Traced.outcome_moving]; exact loads_decodeHeader c.root.block.arityPrologue) ?_
    refine silent_traceMetadata.speaks_bind (by
      rw [outcome_traceMetadata]; exact loads_decodeMetadata halloc hname) ?_
    rw [← Encoding.seq_empty (encProto c.root), ← List.append_nil (c.root.lines.map _)]
    exact hroot.speaks.bind hroot.loads ((silent_quiet _).bind fun _ => silent_pure _).speaks
  have hrun := hspeaks 0 [] 0 (by simpa [chunkBytes] using hsize)
  rwa [List.append_nil] at hrun

end Sections

/-! ## The round trip -/

theorem uchunkDeserialize_chunkBytes {alloc : UChunkAlloc} (halloc : ∀ k, alloc k = true)
    {c : UChunk} (hfits : TreeFits c.root.block.arityPrologue c.root)
    (hname : (0 : UInt8) ∉ c.sourceName.getD []) (hwf : WellFormedTree c.root)
    (hsize : (chunkBytes c).length < 2 ^ 64) :
    uchunkDeserialize alloc (chunkBytes c) = .ok c.normNames := by
  obtain ⟨k, hk⟩ := decodeChunk_chunkBytes halloc hfits hname hsize
  have hinstr : ∀ q, UProto.Within q c.root → q.block.instrCount < 2 ^ 63 := fun q hq =>
    (hfits.block q hq).instrCount.trans_lt (by decide)
  -- the second pass starts with however many requests decoding has made
  obtain ⟨hpass1, r, hpass2⟩ := (verify_passes_iff halloc hinstr k).mpr hwf
  have hpass1' : verifyProtoRecursive c.normNames.root = .ok () :=
    (verifyProtoRecursive_normNames c.root).trans hpass1
  have hpass2' : verifyBoundsProto alloc c.normNames.root k = .ok r :=
    (congrFun (verifyBoundsProto_normNames alloc c.root) k).trans hpass2
  unfold uchunkDeserialize
  rw [hk, except_bind_ok]
  simp only [hpass1', hpass2', except_bind_ok]

/-- A chunk within the loader's limits that both verifier passes accept survives the wire: the size
query announces the bytes written, and loading them gives the chunk back, absent and empty names
identified. -/
theorem uchunkDeserialize_uchunkSerialize {alloc : UChunkAlloc} (halloc : ∀ k, alloc k = true)
    {c : UChunk} (hfits : TreeFits c.root.block.arityPrologue c.root)
    (hname : (0 : UInt8) ∉ c.sourceName.getD [])
    (hpass1 : verifyProtoRecursive c.root = .ok ())
    (hpass2 : ∃ k r, verifyBoundsProto alloc c.root k = .ok r)
    (hsize : (chunkBytes c).length < 2 ^ 63) :
    ∃ n bytes, uchunkSerialize c none = .ok (n, []) ∧
      (∀ cap, n ≤ cap → uchunkSerialize c (some cap) = .ok (n, bytes)) ∧ bytes.length = n ∧
      uchunkDeserialize alloc bytes = .ok c.normNames := by
  refine ⟨(chunkBytes c).length, chunkBytes c, uchunkSerialize_query c,
    fun cap => uchunkSerialize_write c cap, rfl, ?_⟩
  obtain ⟨k, r, hpass2⟩ := hpass2
  have hwf : WellFormedTree c.root :=
    verifyBoundsProto_sound (verifyProtoRecursive_eq_ok.mp hpass1) hpass2
  exact uchunkDeserialize_chunkBytes halloc hfits hname hwf (by omega)

def sampleChunk : UChunk :=
  ⟨some [0x61],
    .mk ⟨1, 0, 0, true, [.int (-3), .float 0x3ff8000000000000, .str [0x68, 0x69]],
      [uinstrEncAbx .loadk 0 2, uinstrEncAbc .getslot 1 0 0, uinstrEncAbx .closure 1 0,
        uinstrEncAbc .move 0 1 0, uinstrEncAbc .ret 1 0 0],
      [1, 0, 0, 0, 1], [⟨2, 7⟩], [none]⟩
    [some (.mk ⟨1, 1, 1, true, [], [uinstrEncAbc .getupval 0 0 0, uinstrEncAbc .ret 0 0 0],
      [0, 1], [], []⟩ [])]⟩

theorem treeFits_sampleChunk : TreeFits true sampleChunk.root := by
  have hwithin : ∀ {P : UProto → Prop}, P sampleChunk.root →
      (∀ q, nestedAt sampleChunk.root.nested 0 = some q → P q) →
      ∀ q, UProto.Within q sampleChunk.root → P q := by
    intro P hroot hchild q hq
    rcases UProto.within_mk_iff.mp hq with rfl | ⟨c, hc, hq⟩
    · exact hroot
    · rw [List.mem_singleton] at hc
      cases hc
      rcases UProto.within_mk_iff.mp hq with rfl | ⟨c, hc, -⟩
      · exact hchild _ rfl
      · cases hc
  refine ⟨hwithin ?_ ?_, hwithin rfl ?_, hwithin (by decide) ?_, hwithin (by decide) ?_, by decide⟩
  · constructor <;> decide
  · rintro q ⟨⟩
    constructor <;> decide
  · rintro q ⟨⟩; rfl
  · rintro q ⟨⟩; decide
  · rintro q ⟨⟩; decide

theorem uchunkDeserialize_uchunkSerialize_sampleChunk :
    ∃ n bytes, uchunkSerialize sampleChunk none = .ok (n, []) ∧
      (∀ cap, n ≤ cap → uchunkSerialize sampleChunk (some cap) = .ok (n, bytes)) ∧
      bytes.length = n ∧
      uchunkDeserialize (fun _ => true) bytes = .ok sampleChunk.normNames :=
  uchunkDeserialize_uchunkSerialize (fun _ => rfl) treeFits_sampleChunk (by decide) (by rfl)
    ⟨0, ((), 1), by rfl⟩ (by decide +kernel)

end Urbi
