import Urbi.Chunk.RoundTrip

/-!
# Writing a loaded chunk again

What the loader accepts is inside its own limits (`TreeLoaded`) except that strings may hold zero
bytes, which the writer cuts them at (`cut`).
-/

namespace Urbi

open Lib
variable {n : Nat} {u : Unit} {p : UProto} {ns : List (Option UProto)} {arity : Bool} {b : Block}

/-! ## What the loader yields -/

def ConstLoaded : UConst → Prop
  | .int _ | .float _ | .str _ => True
  | .nil | .bool _ => False

structure BlockLoaded (arity : Bool) (b : Block) : Prop where
  constCount : b.constCount ≤ 65536
  constants : ∀ c ∈ b.constants, ConstLoaded c
  instrCount : b.instrCount ≤ urbiMaxInstrsPerProto
  lineDeltas : b.lineDeltas.length = b.instrCount
  absLineCount : b.absLines.length ≤ b.instrCount
  absLinePc : ∀ l ∈ b.absLines, l.pc.toNat < b.instrCount
  absLineOrder : b.absLines.Pairwise fun l l' => l.pc.toNat < l'.pc.toNat
  siteCount : b.siteCount ≤ 65535
  siteName : ∀ n ∈ b.siteNameStrs, ∃ s : Bytes, n = some s ∧ s.length ≤ 256
  frame : frameFits b.arityPrologue b.maxReg b.nparams = true
  arity : b.arityPrologue = arity

section Decoders

variable {alloc : UChunkAlloc} {d d' : Cursor Nat}

theorem moduleDecodeVarintU_ok {v : Nat} (h : moduleDecodeVarintU d = .ok (v, d')) :
    (∀ w ≤ v, Spans d d' (encCount w)) ∧ d.rest ≠ [] := by
  unfold moduleDecodeVarintU moduleDecodeVarint at h
  cases hdec : uvarintDecodeU d.rest with
  | error e => simp only [hdec] at h; cases h
  | ok r =>
    simp only [hdec] at h
    cases h
    obtain ⟨-, -, hlen⟩ := uvarintDecodeU_ok hdec
    refine ⟨fun w hw => .drop rfl rfl (hlen w hw), fun hnil => ?_⟩
    rw [hnil] at hdec
    cases hdec

theorem counted_ok {α : Type} {ok : Nat → Bool} {e : UChunkLoadError} {k : Nat → Decode α} {r : α}
    (h : (moduleDecodeVarintU >>= fun n => require (ok n) e >>= fun _ => k n) d = .ok (r, d')) :
    ∃ n d₁, ok n = true ∧ (∀ w ≤ n, Spans d d₁ (encCount w)) ∧ d.rest ≠ [] ∧
      k n d₁ = .ok (r, d') := by
  obtain ⟨n, d₁, hn, h⟩ := bind_eq_ok.mp h
  obtain ⟨hcount, hne⟩ := moduleDecodeVarintU_ok hn
  obtain ⟨_, d₂, hreq, h⟩ := bind_eq_ok.mp h
  obtain ⟨hok, hd₂⟩ := require_eq_ok.mp hreq
  cases hd₂
  exact ⟨n, d₁, hok, hcount, hne, h⟩

theorem moduleDecodeVarintZz_ok {v : Int64} (h : moduleDecodeVarintZz d = .ok (v, d')) :
    Spans d d' (.raw (uvarintWriteZz v)) := by
  unfold moduleDecodeVarintZz moduleDecodeVarint at h
  cases hdec : uvarintDecodeZz d.rest with
  | error e => simp only [hdec] at h; cases h
  | ok r =>
    simp only [hdec] at h
    cases h
    exact .drop rfl rfl (uvarintDecodeZz_ok hdec).2

theorem requireBytes_ok (h : requireBytes n d = .ok (u, d')) : d' = d := by
  unfold requireBytes at h
  split at h <;> cases h
  rfl

theorem takeBytes_ok {bs : Bytes} (h : takeBytes n d = .ok (bs, d')) :
    bs.length ≤ n ∧ (bs.length = n ∨ d'.rest = []) ∧
      ∀ bs' : Bytes, bs'.length ≤ n → Spans d d' (.raw bs') := by
  cases h
  refine ⟨List.length_take_le _ _, ?_, fun _ => .drop rfl rfl⟩
  by_cases hn : n ≤ d.rest.length
  · exact .inl (List.length_take_of_le hn)
  · exact .inr (List.drop_eq_nil_of_le (Nat.le_of_not_le hn))

theorem allocate_ok (h : allocate alloc n d = .ok (u, d')) : Spans d d' .empty :=
  .of_eq (allocate_cursor h).1 (allocate_cursor h).2

theorem allocateFor_ok {k : Nat} (h : allocateFor alloc n k d = .ok (u, d')) :
    Spans d d' .empty := by
  unfold allocateFor at h
  split at h
  · exact allocate_ok h
  · cases h
    exact .refl d

theorem decodeBytes_ok {bs : Bytes} (h : decodeBytes alloc n d = .ok (bs, d')) :
    bs.length ≤ n ∧ ∀ bs' : Bytes, bs'.length ≤ n → Spans d d' (.raw bs') := by
  obtain ⟨_, d₁, hreq, h⟩ := bind_eq_ok.mp h
  obtain ⟨_, d₂, hall, h⟩ := bind_eq_ok.mp h
  rw [requireBytes_ok hreq] at hall
  obtain ⟨hlen, -, hraw⟩ := takeBytes_ok h
  exact ⟨hlen, fun bs' hbs => (allocate_ok hall).after (hraw bs' hbs)⟩

theorem length_cstr_le (s : Bytes) : (cstr s).length ≤ s.length :=
  (List.takeWhile_sublist _).length_le

theorem encCstr_spans {d₁ : Cursor Nat} {s : Bytes} (hlen : s.length ≤ n)
    (hcount : ∀ w ≤ n, Spans d d₁ (encCount w))
    (hraw : ∀ bs : Bytes, bs.length ≤ n → Spans d₁ d' (.raw bs)) : Spans d d' (encCstr s) := by
  have hcut := (length_cstr_le s).trans hlen
  exact (hcount _ hcut).seq (hraw _ hcut)

theorem decodeMetadata_ok {name : Option Bytes} (h : decodeMetadata alloc d = .ok (name, d')) :
    (name.getD [] = [] → name = none ∨ d'.rest = []) ∧ Spans d d' (encCstr (name.getD [])) := by
  obtain ⟨n, d₁, hn, h⟩ := bind_eq_ok.mp h
  obtain ⟨hcount, -⟩ := moduleDecodeVarintU_ok hn
  obtain ⟨_, d₂, hreq, h⟩ := bind_eq_ok.mp h
  rw [requireBytes_ok hreq] at h
  split at h
  · obtain ⟨_, d₃, hall, h⟩ := bind_eq_ok.mp h
    obtain ⟨s, d₄, htake, h⟩ := bind_eq_ok.mp h
    cases h
    obtain ⟨hlen, hfull, hraw⟩ := takeBytes_ok htake
    refine ⟨fun hnil => hfull.imp_left fun hs => ?_, encCstr_spans hlen hcount fun bs hbs =>
      (allocate_ok hall).after (hraw bs hbs)⟩
    have hnil : s = [] := hnil
    rw [hnil, List.length_nil] at hs
    omega
  · cases h
    exact ⟨fun _ => .inl rfl, encCstr_spans (Nat.zero_le _) hcount fun bs hbs =>
      .drop rfl List.drop_zero.symm (by omega)⟩

theorem decodeConstant_ok {c : UConst} (h : decodeConstant alloc d = .ok (c, d')) :
    ConstLoaded c ∧ Spans d d' (encConstant c) := by
  obtain ⟨_, d₁, hreq, h⟩ := bind_eq_ok.mp h
  rw [requireBytes_ok hreq] at h
  obtain ⟨kind, d₂, hkind, h⟩ := bind_eq_ok.mp h
  obtain ⟨-, -, hraw⟩ := takeBytes_ok hkind
  obtain ⟨_, d₃, hle, h⟩ := bind_eq_ok.mp h
  obtain ⟨-, hd₃⟩ := require_eq_ok.mp hle
  cases hd₃
  have hhead : ∀ k : UInt8, Spans d d₂ (.raw [k]) := fun k => hraw [k] le_rfl
  clear hle
  generalize leValue kind = v at h
  split at h
  · obtain ⟨v, d₄, hv, h⟩ := bind_eq_ok.mp h
    cases h
    exact ⟨trivial, (hhead _).seq (moduleDecodeVarintZz_ok hv)⟩
  · obtain ⟨_, d₄, hreq, h⟩ := bind_eq_ok.mp h
    rw [requireBytes_ok hreq] at h
    obtain ⟨bits, d₅, hbits, h⟩ := bind_eq_ok.mp h
    cases h
    obtain ⟨-, -, hraw⟩ := takeBytes_ok hbits
    exact ⟨trivial, (hhead _).seq (hraw _ (length_leBytes ..).le)⟩
  · obtain ⟨n, d₄, hn, h⟩ := bind_eq_ok.mp h
    obtain ⟨s, d₅, hs, h⟩ := bind_eq_ok.mp h
    cases h
    obtain ⟨hlen, hraw⟩ := decodeBytes_ok hs
    exact ⟨trivial, (hhead _).seq (encCstr_spans hlen (moduleDecodeVarintU_ok hn).1 hraw)⟩
  · cases h

theorem decodeConstants_ok {cs : List UConst} (h : decodeConstants alloc d = .ok (cs, d')) :
    cs.length ≤ 65536 ∧ (∀ c ∈ cs, ConstLoaded c) ∧ Spans d d' (encSeq encConstant cs) ∧
      d.rest ≠ [] := by
  obtain ⟨n, d₁, hle, hcount, hne, h⟩ := counted_ok h
  obtain ⟨_, d₃, hall, h⟩ := bind_eq_ok.mp h
  obtain ⟨rfl, hcs, hspan⟩ := times_ok (S := Spans) .refl .seq (fun _ _ _ _ => decodeConstant_ok) h
  exact ⟨of_decide_eq_true hle, hcs, (hcount _ le_rfl).seq ((allocateFor_ok hall).after hspan), hne⟩

theorem decodeAlign_ok {fuel : Nat} (hfuel : (4 - d.off % 4) % 4 ≤ fuel)
    (h : decodeAlign fuel d = .ok (u, d')) : Spans d d' encAlign := by
  have hmoves := decodeAlign_moves h
  have haligned : d'.off % 4 = 0 := by
    clear hmoves
    induction fuel generalizing d with
    | zero => cases h; omega
    | succ fuel ih =>
      rw [decodeAlign] at h
      dsimp only at h
      split at h
      · split at h
        · cases h
        · split at h
          · cases h
          · exact ih (by dsimp only; omega) h
      · cases h
        omega
  refine ⟨fun off hoff => ?_, .inl hmoves.2, fun hnil => ?_⟩
  · simp only [encAlign, List.length_replicate]
    omega
  · rw [hnil, List.length_nil] at hmoves
    exact List.eq_nil_of_length_eq_zero (by omega)

theorem decodeInstruction_ok {ins : UInt32} (h : decodeInstruction d = .ok (ins, d')) :
    Spans d d' (encInstruction ins) := by
  obtain ⟨_, d₁, hreq, h⟩ := bind_eq_ok.mp h
  rw [requireBytes_ok hreq] at h
  obtain ⟨bytes, d₂, htake, h⟩ := bind_eq_ok.mp h
  cases h
  obtain ⟨-, -, hraw⟩ := takeBytes_ok htake
  exact hraw _ (length_leBytes ..).le

theorem decodeInstructions_ok {is : List UInt32} (h : decodeInstructions alloc d = .ok (is, d')) :
    is.length ≤ urbiMaxInstrsPerProto ∧
      Spans d d' ((encCount is.length).seq (encAlign.seq (.list encInstruction is))) := by
  obtain ⟨n, d₁, hle, hcount, -, h⟩ := counted_ok h
  obtain ⟨_, d₃, halign, h⟩ := bind_eq_ok.mp h
  obtain ⟨_, d₄, hall, h⟩ := bind_eq_ok.mp h
  obtain ⟨rfl, -, hspan⟩ := times_ok (P := fun _ => True) (S := Spans) .refl .seq
    (fun _ _ _ _ hi => ⟨trivial, decodeInstruction_ok hi⟩) h
  exact ⟨of_decide_eq_true hle, (hcount _ le_rfl).seq
    ((decodeAlign_ok (by omega) halign).seq ((allocateFor_ok hall).after hspan))⟩

theorem decodeLineDeltas_ok {ds : Bytes} (h : decodeLineDeltas alloc n d = .ok (ds, d')) :
    (ds.length = n ∨ d'.rest = []) ∧ Spans d d' ((encCount n).seq (.raw ds)) := by
  obtain ⟨k, d₁, hkn, hcount, -, h⟩ := counted_ok h
  rw [← (of_decide_eq_true hkn : k = n)]
  split at h
  · obtain ⟨_, d₃, hall, h⟩ := bind_eq_ok.mp h
    obtain ⟨_, d₄, hreq, h⟩ := bind_eq_ok.mp h
    rw [requireBytes_ok hreq] at h
    obtain ⟨hlen, hfull, hraw⟩ := takeBytes_ok h
    exact ⟨hfull, (hcount _ le_rfl).seq ((allocate_ok hall).after (hraw ds hlen))⟩
  · cases h
    exact ⟨.inl (by simp; omega), (hcount _ le_rfl).seq (.refl _)⟩

theorem decodeAbsLines_ok {instrCount : Nat} {prev : Option Nat} {ls : List UAbsLine}
    (hmax : instrCount ≤ urbiMaxInstrsPerProto)
    (h : decodeAbsLines instrCount n prev d = .ok (ls, d')) :
    ls.length = n ∧ (∀ l ∈ ls, l.pc.toNat < instrCount ∧ prev.all (· < l.pc.toNat)) ∧
      (ls.Pairwise fun l l' => l.pc.toNat < l'.pc.toNat) ∧ Spans d d' (.list encAbsLine ls) := by
  induction n generalizing d prev ls with
  | zero =>
    cases h
    exact ⟨rfl, by simp, .nil, .refl _⟩
  | succ n ih =>
    rw [decodeAbsLines] at h
    obtain ⟨pc, d₁, hpc, h⟩ := bind_eq_ok.mp h
    obtain ⟨line, d₂, hline, h⟩ := bind_eq_ok.mp h
    obtain ⟨_, d₃, hreq, h⟩ := bind_eq_ok.mp h
    obtain ⟨hlt, hd₃⟩ := require_eq_ok.mp hreq
    cases hd₃
    obtain ⟨_, d₄, hreq', h⟩ := bind_eq_ok.mp h
    obtain ⟨hprev, hd₄⟩ := require_eq_ok.mp hreq'
    cases hd₄
    obtain ⟨rest, d₅, hrest, h⟩ := bind_eq_ok.mp h
    cases h
    obtain ⟨hlen, hall, horder, hspan⟩ := ih hrest
    have hlt : pc < instrCount := of_decide_eq_true hlt
    have hmax : instrCount ≤ 2 ^ 20 := hmax
    have hpc32 : (UInt32.ofNat pc).toNat = pc :=
      UInt32.toNat_ofNat_of_lt' (by simp only [UInt32.size]; omega)
    rw [Nat.mod_eq_of_lt (by omega)] at hprev hall
    refine ⟨congrArg (· + 1) hlen, ?_, ?_, ?_⟩
    · intro l hl
      rcases List.mem_cons.mp hl with rfl | hl
      · rw [hpc32]
        exact ⟨hlt, hprev⟩
      · obtain ⟨hl1, hl2⟩ := hall l hl
        refine ⟨hl1, ?_⟩
        -- rising pcs stay above everything before them
        cases prev with
        | none => rfl
        | some p =>
          simp only [Option.all_some, decide_eq_true_eq] at hprev hl2 ⊢
          omega
    · refine .cons (fun l hl => ?_) horder
      rw [hpc32]
      simpa using (hall l hl).2
    · have h₁ : Spans d d₁ (.raw (uvarintWriteU (UInt32.ofNat pc).toUInt64)) := by
        have := (moduleDecodeVarintU_ok hpc).1 _ le_rfl
        rwa [encCount, show UInt64.ofNat pc = (UInt32.ofNat pc).toUInt64 by
          apply UInt64.toNat_inj.mp
          rw [UInt32.toNat_toUInt64, hpc32]
          exact UInt64.toNat_ofNat_of_lt' (by simp only [UInt64.size]; omega)] at this
      have h₂ : Spans d₁ d₂ (.raw (uvarintWriteU (UInt32.ofNat line).toUInt64)) := by
        have := (moduleDecodeVarintU_ok hline).1 (line % 2 ^ 32) (Nat.mod_le _ _)
        rwa [encCount, show UInt64.ofNat (line % 2 ^ 32) = (UInt32.ofNat line).toUInt64 by
          apply UInt64.toNat_inj.mp
          rw [UInt32.toNat_toUInt64, UInt64.toNat_ofNat_of_lt' (by
            simp only [UInt64.size]; omega)]
          rfl] at this
      exact (h₁.seq h₂).seq hspan

theorem decodeAbsLineTable_ok {instrCount : Nat} {ls : List UAbsLine}
    (hmax : instrCount ≤ urbiMaxInstrsPerProto)
    (h : decodeAbsLineTable alloc instrCount d = .ok (ls, d')) :
    ls.length ≤ instrCount ∧ (∀ l ∈ ls, l.pc.toNat < instrCount) ∧
      (ls.Pairwise fun l l' => l.pc.toNat < l'.pc.toNat) ∧ Spans d d' (encSeq encAbsLine ls) ∧
      d.rest ≠ [] := by
  obtain ⟨n, d₁, hle, hcount, hne, h⟩ := counted_ok h
  obtain ⟨_, d₃, hall, h⟩ := bind_eq_ok.mp h
  obtain ⟨rfl, hpc, horder, hspan⟩ := decodeAbsLines_ok hmax h
  exact ⟨of_decide_eq_true hle, fun l hl => (hpc l hl).1, horder,
    (hcount _ le_rfl).seq ((allocateFor_ok hall).after hspan), hne⟩

theorem decodeSiteName_ok {name : Option Bytes} (h : decodeSiteName alloc d = .ok (name, d')) :
    (∃ s : Bytes, name = some s ∧ s.length ≤ 256) ∧ Spans d d' (encName name) := by
  obtain ⟨n, d₁, hle, hcount, -, h⟩ := counted_ok h
  obtain ⟨s, d₃, hs, h⟩ := bind_eq_ok.mp h
  cases h
  obtain ⟨hlen, hraw⟩ := decodeBytes_ok hs
  exact ⟨⟨s, rfl, hlen.trans (of_decide_eq_true hle)⟩, encCstr_spans hlen hcount hraw⟩

theorem decodeSiteNames_ok {ns : List (Option Bytes)} (h : decodeSiteNames alloc d = .ok (ns, d')) :
    ns.length ≤ 65535 ∧ (∀ n ∈ ns, ∃ s : Bytes, n = some s ∧ s.length ≤ 256) ∧
      Spans d d' (encSeq encName ns) := by
  obtain ⟨n, d₁, hle, hcount, -, h⟩ := counted_ok h
  obtain ⟨_, d₃, hrem, h⟩ := bind_eq_ok.mp h
  have hd₃ : d₃ = d₁ := by
    unfold requireRemaining at hrem
    split at hrem <;> cases hrem
    rfl
  rw [hd₃] at h
  obtain ⟨_, d₄, hall, h⟩ := bind_eq_ok.mp h
  obtain ⟨rfl, hns, hspan⟩ := times_ok (S := Spans) .refl .seq (fun _ _ _ _ => decodeSiteName_ok) h
  exact ⟨of_decide_eq_true hle, hns, (hcount _ le_rfl).seq ((allocateFor_ok hall).after hspan)⟩

theorem decodeByte_ok {v : UInt8} (h : decodeByte d = .ok (v, d')) : Spans d d' (.raw [v]) := by
  obtain ⟨bs, d₁, htake, h⟩ := bind_eq_ok.mp h
  cases h
  obtain ⟨-, -, hraw⟩ := takeBytes_ok htake
  exact hraw _ le_rfl

theorem decodeBlock_ok (h : decodeBlock alloc arity d = .ok (b, d')) :
    BlockLoaded arity b ∧ Spans d d' (encBlock b) ∧ d.rest ≠ [] := by
  obtain ⟨_, d₀, hreq, h⟩ := bind_eq_ok.mp h
  rw [requireBytes_ok hreq] at h
  obtain ⟨maxReg, d₁, h₁, h⟩ := bind_eq_ok.mp h
  obtain ⟨nupvals, d₂, h₂, h⟩ := bind_eq_ok.mp h
  obtain ⟨nparams, d₃, h₃, h⟩ := bind_eq_ok.mp h
  obtain ⟨_, d₄, hframe, h⟩ := bind_eq_ok.mp h
  obtain ⟨hfits, hd₄⟩ := require_eq_ok.mp hframe
  cases hd₄
  obtain ⟨cs, d₅, hcs, h⟩ := bind_eq_ok.mp h
  obtain ⟨is, d₆, his, h⟩ := bind_eq_ok.mp h
  obtain ⟨ds, d₇, hds, h⟩ := bind_eq_ok.mp h
  obtain ⟨ls, d₈, hls, h⟩ := bind_eq_ok.mp h
  obtain ⟨ns, d₉, hns, h⟩ := bind_eq_ok.mp h
  cases h
  obtain ⟨hclen, hconst, hspanc, hne⟩ := decodeConstants_ok hcs
  obtain ⟨hilen, hspani⟩ := decodeInstructions_ok his
  obtain ⟨hdlen, hspand⟩ := decodeLineDeltas_ok hds
  obtain ⟨hllen, hpc, horder, hspanl, hnel⟩ := decodeAbsLineTable_ok hilen hls
  obtain ⟨hnlen, hnames, hspann⟩ := decodeSiteNames_ok hns
  have hframe := (decodeByte_ok h₁).seq ((decodeByte_ok h₂).seq (decodeByte_ok h₃))
  refine ⟨⟨hclen, hconst, hilen, hdlen.resolve_right hnel, hllen, hpc, horder, hnlen, hnames,
    hfits, rfl⟩, ?_, fun hnil => hne (hframe.onward.starved hnil)⟩
  have hall := hframe.seq (hspanc.seq (hspani.seq (hspand.seq (hspanl.seq hspann))))
  simpa only [encBlock, Encoding.seq_assoc, Block.instrCount] using hall

end Decoders

/-! ## Trees -/

structure TreeLoaded (arity : Bool) (levels : Nat) (p : UProto) : Prop where
  block : ∀ q, UProto.Within q p → BlockLoaded arity q.block
  nestedCount : ∀ q, UProto.Within q p → q.nested.length ≤ 1024
  present : ∀ q, UProto.Within q p → ∀ o ∈ q.nested, o.isSome
  depth : p.depth ≤ levels

theorem UProto.depthNested_le {k : Nat} (h : ∀ p, some p ∈ ns → p.depth < k) :
    UProto.depthNested ns ≤ k := by
  induction ns with
  | nil => exact Nat.zero_le _
  | cons o ns ih =>
    have hns := ih fun p hp => h p (.tail _ hp)
    cases o with
    | none => exact hns
    | some p =>
      have hp := h p (.head _)
      rw [UProto.depthNested]
      omega

theorem TreeLoaded.mk_of_children {levels : Nat} (hb : BlockLoaded arity b)
    (hlen : ns.length ≤ 1024)
    (hns : ∀ o ∈ ns, ∃ p k, o = some p ∧ k < levels ∧ TreeLoaded arity k p) :
    TreeLoaded arity levels (.mk b ns) := by
  have hchild : ∀ p, some p ∈ ns → ∃ k < levels, TreeLoaded arity k p := by
    intro p hp
    obtain ⟨p', k, he, hk, hp'⟩ := hns _ hp
    cases he
    exact ⟨k, hk, hp'⟩
  have hall : ∀ {P : UProto → Prop}, P (.mk b ns) →
      (∀ {c k}, TreeLoaded arity k c → ∀ q, UProto.Within q c → P q) →
      ∀ q, UProto.Within q (.mk b ns) → P q := by
    intro P hroot hloaded q hq
    rcases UProto.within_mk_iff.mp hq with rfl | ⟨c, hc, hq⟩
    · exact hroot
    · obtain ⟨k, -, hk⟩ := hchild c hc
      exact hloaded hk q hq
  refine ⟨hall hb (·.block), hall hlen (·.nestedCount), hall (fun o ho => ?_) (·.present), ?_⟩
  · obtain ⟨p, _, rfl, _⟩ := hns o ho
    rfl
  · apply UProto.depthNested_le
    intro p hp
    obtain ⟨k, hlt, hk⟩ := hchild p hp
    exact hk.depth.trans_lt hlt

section Trees

variable {alloc : UChunkAlloc} {d d' : Cursor Nat}

theorem decodeNested_ok {child : Nat → Decode (Option UProto)} {P : Option UProto → Prop}
    (hchild : ∀ i d o d', child i d = .ok (o, d') → P o ∧
      (o.elim encStub encProto).Ends d.off d'.off ∧ d'.off + d'.rest.length = d.off + d.rest.length)
    (h : decodeNested child d = .ok (ns, d')) : ns.length ≤ 1024 ∧ (∀ o ∈ ns, P o) ∧
      ((encCount ns.length).seq (encNested ns)).Ends d.off d'.off ∧ d.rest ≠ [] ∧
      d'.off + d'.rest.length = d.off + d.rest.length := by
  obtain ⟨n, d₁, hn, h⟩ := bind_eq_ok.mp h
  obtain ⟨hcount, hne⟩ := moduleDecodeVarintU_ok hn
  obtain ⟨_, d₂, hreq, h⟩ := bind_eq_ok.mp h
  obtain ⟨hle, hd₂⟩ := require_eq_ok.mp hreq
  cases hd₂
  obtain ⟨rfl, hns, hend, hsum⟩ := times_ok (S := fun d d' e => Encoding.Ends e d.off d'.off ∧
    d'.off + d'.rest.length = d.off + d.rest.length) (fun _ => ⟨.empty le_rfl, rfl⟩)
    (fun h h' => ⟨h.1.seq h'.1, h'.2.trans h.2⟩) hchild h
  have hkept : d₁.off + d₁.rest.length = d.off + d.rest.length := by
    obtain ⟨k, hk, hoff, hrest⟩ := moduleDecodeVarint_moves
      (fun _ _ _ hr => (uvarintDecodeU_ok hr).2.1) hn
    rw [hoff, hrest, List.length_drop]
    omega
  refine ⟨of_decide_eq_true hle, hns, ?_, hne, hsum.trans hkept⟩
  rw [encNested_eq_list]
  exact (hcount _ le_rfl).ends.seq hend

theorem growNested_ok {i : Nat} (h : growNested alloc i d = .ok (u, d')) :
    d'.off = d.off ∧ d'.rest = d.rest := by
  unfold growNested at h
  split at h
  · exact allocate_cursor h
  · cases h
    exact ⟨rfl, rfl⟩

theorem decodeChild_ok {record : Decode UProto} {i : Nat} {o : Option UProto}
    (h : decodeChild alloc record i d = .ok (o, d')) :
    ∃ p d₁, o = some p ∧ d₁.off = d.off ∧ d₁.rest = d.rest ∧ record d₁ = .ok (p, d') := by
  obtain ⟨_, d₁, hgrow, h⟩ := bind_eq_ok.mp h
  obtain ⟨_, d₂, hall, h⟩ := bind_eq_ok.mp h
  obtain ⟨p, d₃, hp, h⟩ := bind_eq_ok.mp h
  cases h
  obtain ⟨hoff, hrest⟩ := growNested_ok hgrow
  obtain ⟨hoff', hrest'⟩ := allocate_cursor hall
  exact ⟨p, d₂, rfl, hoff'.trans hoff, hrest'.trans hrest, hp⟩

theorem decodeProto_ok {levels : Nat} (h : decodeProto alloc arity levels d = .ok (p, d')) :
    TreeLoaded arity levels p ∧ (encProto p).Ends d.off d'.off ∧ d.rest ≠ [] ∧
      d'.off + d'.rest.length = d.off + d.rest.length := by
  induction levels generalizing d d' p with
  | zero =>
    obtain ⟨b, d₁, hb, h⟩ := bind_eq_ok.mp h
    obtain ⟨ns, d₂, hns, h⟩ := bind_eq_ok.mp h
    cases h
    obtain ⟨hblock, hspan, hne⟩ := decodeBlock_ok hb
    obtain ⟨hlen, hns, hendn, hne₁, hsum⟩ := decodeNested_ok (P := fun _ => False)
      (fun _ _ _ _ h => by cases h) hns
    refine ⟨.mk_of_children hblock hlen fun o ho => (hns o ho).elim, hspan.ends.seq hendn, hne, ?_⟩
    rw [hsum, hspan.onward.kept.resolve_right hne₁]
  | succ levels ih =>
    obtain ⟨b, d₁, hb, h⟩ := bind_eq_ok.mp h
    obtain ⟨ns, d₂, hns, h⟩ := bind_eq_ok.mp h
    cases h
    obtain ⟨hblock, hspan, hne⟩ := decodeBlock_ok hb
    obtain ⟨hlen, hns, hendn, hne₁, hsum⟩ := decodeNested_ok
      (P := fun o => ∃ p, o = some p ∧ TreeLoaded arity levels p) (fun _ _ _ _ h => by
        obtain ⟨q, d₃, rfl, hoff, hrest, hq⟩ := decodeChild_ok h
        obtain ⟨htree, hend, -, hsum⟩ := ih hq
        rw [hoff] at hend
        rw [hoff, hrest] at hsum
        exact ⟨⟨q, rfl, htree⟩, hend, hsum⟩) hns
    refine ⟨.mk_of_children hblock hlen fun o ho => ?_, hspan.ends.seq hendn, hne, ?_⟩
    · obtain ⟨q, rfl, hq⟩ := hns o ho
      exact ⟨q, levels, rfl, Nat.lt_succ_self _, hq⟩
    · rw [hsum, hspan.onward.kept.resolve_right hne₁]

theorem decodeChunk_ok {buf : Bytes} {c : UChunk}
    (h : decodeChunk alloc ⟨0, buf, 0⟩ = .ok (c, d')) :
    TreeLoaded c.root.block.arityPrologue uchunkMaxProtoDepth c.root ∧
      (c.sourceName.getD [] = [] → c.sourceName = none) ∧ (chunkBytes c).length ≤ buf.length := by
  obtain ⟨_, d₁, hall, h⟩ := bind_eq_ok.mp h
  obtain ⟨arity, d₂, hheader, h⟩ := bind_eq_ok.mp h
  obtain ⟨name, d₃, hname, h⟩ := bind_eq_ok.mp h
  obtain ⟨root, d₄, hroot, h⟩ := bind_eq_ok.mp h
  obtain ⟨_, d₅, htrailer, h⟩ := bind_eq_ok.mp h
  cases h
  obtain ⟨hoff₁, hrest₁⟩ := allocate_cursor hall
  obtain ⟨hlen, hoff₂, hrest₂⟩ := decodeHeader_moves hheader
  obtain ⟨hnone, hspan⟩ := decodeMetadata_ok hname
  obtain ⟨htree, hendr, hne, hsum⟩ := decodeProto_ok hroot
  have harity : root.block.arityPrologue = arity := (htree.block _ (.refl _)).arity
  refine ⟨harity ▸ htree, fun hnil => (hnone hnil).resolve_right hne, ?_⟩
  have hhead : (Encoding.raw (chunkHeader root.block.arityPrologue)).Ends 0 d₂.off :=
    .raw (by rw [hoff₂]; exact Nat.le_add_left _ _)
  have hend := (hhead.seq (hspan.ends.seq hendr)) 0 le_rfl
  have hkept := hspan.onward.kept.resolve_right hne
  rw [hrest₂, hoff₂, hrest₁, hoff₁, List.length_drop] at hkept
  rw [hrest₁, hoff₁] at hlen
  have hbytes : (chunkBytes ⟨name, root⟩).length ≤ d₄.off := by
    rw [Nat.zero_add] at hend
    exact hend
  simp only at hlen hkept ⊢
  omega

end Trees

/-! ## What the writer leaves of it -/

def UConst.cut : UConst → UConst
  | .str bytes => .str (cstr bytes)
  | c => c

def Block.cut (b : Block) : Block :=
  { b with
    constants := b.constants.map UConst.cut
    siteNameStrs := b.siteNameStrs.map fun n => some (cstr (n.getD [])) }

mutual
def UProto.cut : UProto → UProto
  | .mk b ns => .mk b.cut (UProto.cutNested ns)
def UProto.cutNested : List (Option UProto) → List (Option UProto)
  | [] => []
  | none :: ns => none :: UProto.cutNested ns
  | some p :: ns => some p.cut :: UProto.cutNested ns
end

def UChunk.cut (c : UChunk) : UChunk :=
  let name := cstr (c.sourceName.getD [])
  ⟨if name = [] then none else some name, c.root.cut⟩

structure UChunk.Clean (c : UChunk) : Prop where
  sourceName : (0 : UInt8) ∉ c.sourceName.getD []
  constants : ∀ q, UProto.Within q c.root → ∀ s, .str s ∈ q.block.constants → (0 : UInt8) ∉ s
  siteNames : ∀ q, UProto.Within q c.root → ∀ n ∈ q.block.siteNameStrs, (0 : UInt8) ∉ n.getD []

theorem UProto.cutNested_eq_map (ns : List (Option UProto)) :
    UProto.cutNested ns = ns.map (Option.map UProto.cut) := by
  induction ns with
  | nil => rfl
  | cons o ns ih => cases o <;> simp [UProto.cutNested, ih]

theorem UProto.mem_cutNested : some p ∈ UProto.cutNested ns ↔ ∃ q, some q ∈ ns ∧ q.cut = p := by
  rw [UProto.cutNested_eq_map]
  simp only [List.mem_map, Option.map_eq_some_iff]
  constructor
  · rintro ⟨o, ho, q, rfl, hq⟩
    exact ⟨q, ho, hq⟩
  · rintro ⟨q, hq, rfl⟩
    exact ⟨some q, hq, q, rfl, rfl⟩

theorem UProto.within_cut {q : UProto} (h : UProto.Within q p.cut) :
    ∃ r, UProto.Within r p ∧ q = r.cut := by
  induction p using UProto.tree_induction with
  | step b ns ih =>
    rcases UProto.within_mk_iff.mp h with rfl | ⟨c, hc, hq⟩
    · exact ⟨_, .refl _, rfl⟩
    · obtain ⟨c', hc', rfl⟩ := UProto.mem_cutNested.mp hc
      obtain ⟨r, hr, rfl⟩ := ih c' hc' hq
      exact ⟨r, .child hc' hr, rfl⟩

theorem UProto.depth_cut (p : UProto) : p.cut.depth = p.depth := by
  induction p using UProto.nested_induction
    (Q := fun ns => UProto.depthNested (UProto.cutNested ns) = UProto.depthNested ns) with
  | nil => rfl
  | none ns ih => exact ih
  | some p ns ihp ih => simp only [UProto.cutNested, UProto.depthNested, ih, ihp]
  | mk b ns ih => exact ih

theorem Encoding.list_map {α : Type} {enc : α → Encoding} {g : α → α}
    (h : ∀ x, enc (g x) = enc x) (xs : List α) :
    Encoding.list enc (xs.map g) = Encoding.list enc xs := by
  induction xs with
  | nil => rfl
  | cons x xs ih => rw [List.map_cons, Encoding.list, Encoding.list, h, ih]

theorem encConstant_cut (c : UConst) : encConstant c.cut = encConstant c := by
  cases c with
  | str bytes => simp only [UConst.cut, encConstant, encCstr, cstr_cstr]; rfl
  | _ => rfl

theorem encName_cut (n : Option Bytes) : encName (some (cstr (n.getD []))) = encName n := by
  simp only [encName, encCstr, Option.getD_some, cstr_cstr]

theorem encBlock_cut (b : Block) : encBlock b.cut = encBlock b := by
  have hcs := Encoding.list_map encConstant_cut b.constants
  have hns := Encoding.list_map encName_cut b.siteNameStrs
  simp only [encBlock, Block.cut, encSeq, List.length_map, hcs, hns, Block.instrCount]

theorem encProto_cut (p : UProto) : encProto p.cut = encProto p := by
  induction p using UProto.nested_induction
    (Q := fun ns => encNested (UProto.cutNested ns) = encNested ns) with
  | nil => rfl
  | none ns ih => simp only [UProto.cutNested, encNested, ih]
  | some p ns ihp ih => simp only [UProto.cutNested, encNested, ih, ihp]
  | mk b ns ih =>
    have hlen : (UProto.cutNested ns).length = ns.length := by
      rw [UProto.cutNested_eq_map, List.length_map]
    simp only [UProto.cut, encProto, encBlock_cut, ih, hlen]

theorem arityPrologue_cut (p : UProto) : p.cut.block.arityPrologue = p.block.arityPrologue := by
  cases p
  rfl

theorem chunkBytes_cut (c : UChunk) : chunkBytes c.cut = chunkBytes c := by
  have hname : encCstr (c.cut.sourceName.getD []) = encCstr (c.sourceName.getD []) := by
    unfold UChunk.cut
    dsimp only
    split
    · rename_i hnil
      simp only [encCstr, Option.getD_none, hnil]
      rfl
    · simp only [encCstr, Option.getD_some, cstr_cstr]
  unfold chunkBytes encChunk
  rw [hname, show c.cut.root = c.root.cut from rfl, arityPrologue_cut, encProto_cut]

theorem BlockLoaded.fits_cut (h : BlockLoaded arity b) : BlockFits b.cut := by
  refine ⟨?_, ?_, h.instrCount, h.lineDeltas, h.absLineCount, h.absLinePc, h.absLineOrder, ?_, ?_,
    h.frame⟩
  · show (b.constants.map _).length ≤ 65536
    rw [List.length_map]
    exact h.constCount
  · intro c hc
    obtain ⟨c', hc', rfl⟩ := List.mem_map.mp hc
    have hloaded := h.constants c' hc'
    cases c' with
    | str bytes => exact zero_not_mem_cstr bytes
    | int i | float bits => trivial
    | nil | bool b => exact hloaded
  · show (b.siteNameStrs.map _).length ≤ 65535
    rw [List.length_map]
    exact h.siteCount
  · intro n hn
    obtain ⟨n', hn', rfl⟩ := List.mem_map.mp hn
    obtain ⟨s, rfl, hs⟩ := h.siteName n' hn'
    exact ⟨zero_not_mem_cstr s, (length_cstr_le s).trans hs⟩

theorem TreeLoaded.fits_cut (h : TreeLoaded arity uchunkMaxProtoDepth p) :
    TreeFits arity p.cut := by
  refine ⟨?_, ?_, ?_, ?_, (UProto.depth_cut p).trans_le h.depth⟩
  · intro q hq
    obtain ⟨r, hr, rfl⟩ := UProto.within_cut hq
    cases r with
    | mk b ns => exact (h.block _ hr).fits_cut
  · intro q hq
    obtain ⟨r, hr, rfl⟩ := UProto.within_cut hq
    rw [arityPrologue_cut]
    exact (h.block _ hr).arity
  · intro q hq
    obtain ⟨r, hr, rfl⟩ := UProto.within_cut hq
    have hlen := h.nestedCount _ hr
    cases r with
    | mk b ns =>
      show (UProto.cutNested ns).length ≤ 1024
      rw [UProto.cutNested_eq_map, List.length_map]
      exact hlen
  · intro q hq o ho
    obtain ⟨r, hr, rfl⟩ := UProto.within_cut hq
    have hall := h.present _ hr
    cases r with
    | mk b ns =>
      change o ∈ UProto.cutNested ns at ho
      rw [UProto.cutNested_eq_map] at ho
      obtain ⟨o', ho', rfl⟩ := List.mem_map.mp ho
      rw [Option.isSome_map]
      exact hall o' ho'

theorem UProto.normNames_cut (p : UProto) : p.cut.normNames = p.cut := by
  induction p using UProto.nested_induction
    (Q := fun ns => UProto.normNamesNested (UProto.cutNested ns) = UProto.cutNested ns) with
  | nil => rfl
  | none ns ih => simp only [UProto.cutNested, UProto.normNamesNested, ih]
  | some p ns ihp ih => simp only [UProto.cutNested, UProto.normNamesNested, ih, ihp]
  | mk b ns ih =>
    have hb : b.cut.normNames = b.cut := by
      simp only [Block.normNames, Block.cut, List.map_map]
      rfl
    simp only [UProto.cut, UProto.normNames, ih, hb]

theorem UChunk.normNames_cut (c : UChunk) : c.cut.normNames = c.cut := by
  unfold UChunk.normNames
  rw [show c.cut.root = c.root.cut from rfl, UProto.normNames_cut]
  unfold UChunk.cut
  dsimp only
  split
  · rename_i hnil
    rfl
  · rename_i hne
    rw [if_neg (by simpa using hne)]

theorem Block.cut_eq_self (h : BlockLoaded arity b)
    (hcs : ∀ s, .str s ∈ b.constants → (0 : UInt8) ∉ s)
    (hns : ∀ n ∈ b.siteNameStrs, (0 : UInt8) ∉ n.getD []) : b.cut = b := by
  have hconst : b.constants.map UConst.cut = b.constants := by
    refine (List.map_congr_left fun c hc => ?_).trans (List.map_id _)
    cases c with
    | str bytes => exact congrArg UConst.str (cstr_eq_self_iff.mpr (hcs bytes hc))
    | _ => rfl
  have hname : b.siteNameStrs.map (fun n => some (cstr (n.getD []))) = b.siteNameStrs := by
    refine (List.map_congr_left fun n hn => ?_).trans (List.map_id _)
    obtain ⟨s, rfl, -⟩ := h.siteName n hn
    exact congrArg some (cstr_eq_self_iff.mpr (hns _ hn))
  simp only [Block.cut, hconst, hname]

theorem UProto.cut_eq_self (h : ∀ q, UProto.Within q p → BlockLoaded arity q.block)
    (hcs : ∀ q, UProto.Within q p → ∀ s, .str s ∈ q.block.constants → (0 : UInt8) ∉ s)
    (hns : ∀ q, UProto.Within q p → ∀ n ∈ q.block.siteNameStrs, (0 : UInt8) ∉ n.getD []) :
    p.cut = p := by
  induction p using UProto.tree_induction with
  | step b ns ih =>
    have hb : b.cut = b := Block.cut_eq_self (h _ (.refl _)) (hcs _ (.refl _)) (hns _ (.refl _))
    have hnested : UProto.cutNested ns = ns := by
      rw [UProto.cutNested_eq_map]
      refine (List.map_congr_left fun o ho => ?_).trans (List.map_id _)
      cases o with
      | none => rfl
      | some c =>
        have hin : ∀ {q}, UProto.Within q c → UProto.Within q (.mk b ns) := .child ho
        exact congrArg some (ih c ho (fun q hq => h q (hin hq)) (fun q hq => hcs q (hin hq))
          fun q hq => hns q (hin hq))
    simp only [UProto.cut, hb, hnested]

theorem UChunk.cut_eq_self_iff {c : UChunk}
    (htree : TreeLoaded c.root.block.arityPrologue uchunkMaxProtoDepth c.root)
    (hname : c.sourceName.getD [] = [] → c.sourceName = none) : c.cut = c ↔ c.Clean := by
  constructor
  · intro hcut
    have hroot : c.root.cut = c.root := congrArg UChunk.root hcut
    have hfits := htree.fits_cut
    rw [hroot] at hfits
    refine ⟨?_, fun q hq s hs => (hfits.block q hq).constants _ hs,
      fun q hq n hn => ((hfits.block q hq).siteName n hn).1⟩
    have hsource : c.cut.sourceName = c.sourceName := congrArg UChunk.sourceName hcut
    rw [← hsource]
    unfold UChunk.cut
    dsimp only
    split
    · exact List.not_mem_nil
    · exact zero_not_mem_cstr _
  · intro hclean
    have hroot : c.root.cut = c.root :=
      UProto.cut_eq_self htree.block hclean.constants hclean.siteNames
    have hcstr : cstr (c.sourceName.getD []) = c.sourceName.getD [] :=
      cstr_eq_self_iff.mpr hclean.sourceName
    have hsource : (if cstr (c.sourceName.getD []) = [] then none
        else some (cstr (c.sourceName.getD []))) = c.sourceName := by
      rw [hcstr]
      split
      · exact (hname ‹_›).symm
      · rename_i hne
        cases hn : c.sourceName with
        | none => rw [hn] at hne; exact absurd rfl hne
        | some s => rfl
    unfold UChunk.cut
    dsimp only
    rw [hsource, hroot]

end Urbi
