import Mathlib.Tactic.Ring
import Urbi.Chunk.Proto

/-!
# LEB128 varints

`util/uvarint.c`: base-128 little-endian groups with a continuation bit, ten bytes at most for a
`uint64_t`, and the zigzag map for signed values.
-/

namespace Urbi

inductive UVarintError where
  | truncated | oversize
  deriving DecidableEq, Repr

/-- The `while (v >= 0x80)` loop; a `uint64_t` leaves it after nine rounds. -/
def uvarintGroups : Nat → Nat → Bytes
  | 0, v => [UInt8.ofNat v]
  | fuel + 1, v =>
    if v ≥ 0x80 then UInt8.ofNat (v % 0x80 + 0x80) :: uvarintGroups fuel (v / 0x80)
    else [UInt8.ofNat v]

def uvarintWriteU (v : UInt64) : Bytes := uvarintGroups 9 v.toNat

def uvarintSizeLoop : Nat → Nat → Nat → Nat
  | 0, n, _ => n
  | fuel + 1, n, v => if v ≥ 0x80 then uvarintSizeLoop fuel (n + 1) (v / 0x80) else n

def uvarintSizeU (v : UInt64) : Nat := uvarintSizeLoop 9 1 v.toNat

def zigzag (v : Int64) : UInt64 :=
  (v.toUInt64 <<< 1) ^^^ (if v < 0 then (0 : UInt64) - 1 else 0)

def unzigzag (u : UInt64) : Int64 := ((u >>> 1) ^^^ (0 - (u &&& 1))).toInt64

def uvarintSizeZz (v : Int64) : Nat := uvarintSizeU (zigzag v)
def uvarintWriteZz (v : Int64) : Bytes := uvarintWriteU (zigzag v)

/-- The accumulated bits and the new group never overlap, so the source's `|=` is an addition. -/
def uvarintDecodeLoop : Nat → Nat → Nat → Bytes → Except UVarintError (Nat × Nat)
  | _, _, _, [] => .error .truncated
  | result, shift, i, b :: bs =>
    if shift = 63 && b.toNat % 0x80 ≥ 2 then .error .oversize
    else
      let result := result + b.toNat % 0x80 * 2 ^ shift
      if b.toNat < 0x80 then .ok (result, i + 1)
      else if shift + 7 > 63 then .error .oversize
      else uvarintDecodeLoop result (shift + 7) (i + 1) bs

def uvarintDecodeU (buf : Bytes) : Except UVarintError (Nat × Nat) := uvarintDecodeLoop 0 0 0 buf

def uvarintDecodeZz (buf : Bytes) : Except UVarintError (Int64 × Nat) := do
  let (u, consumed) ← uvarintDecodeU buf
  .ok (unzigzag (UInt64.ofNat u), consumed)

/-! ## Size and round trip -/

theorem length_uvarintGroups (fuel v n : Nat) :
    uvarintSizeLoop fuel n v + 1 = n + (uvarintGroups fuel v).length := by
  induction fuel generalizing v n with
  | zero => rfl
  | succ fuel ih =>
    rw [uvarintSizeLoop, uvarintGroups]
    split
    · rw [ih]; simp; omega
    · simp

theorem uvarintSizeU_eq_length (v : UInt64) : uvarintSizeU v = (uvarintWriteU v).length := by
  have := length_uvarintGroups 9 v.toNat 1
  unfold uvarintSizeU uvarintWriteU
  omega

theorem uvarintSizeZz_eq_length (v : Int64) : uvarintSizeZz v = (uvarintWriteZz v).length :=
  uvarintSizeU_eq_length _

def uvarintValue : Bytes → Option (Nat × Nat)
  | [] => none
  | b :: bs =>
    if b.toNat < 0x80 then some (b.toNat % 0x80, 1)
    else (uvarintValue bs).map fun p => (b.toNat % 0x80 + 0x80 * p.1, p.2 + 1)

theorem uvarintValue_eq_none {bs : Bytes} : uvarintValue bs = none ↔ ∀ b ∈ bs, 0x80 ≤ b.toNat := by
  induction bs with
  | nil => simp [uvarintValue]
  | cons b bs ih =>
    rw [uvarintValue, List.forall_mem_cons, ← ih]
    split
    · rename_i hlt
      exact iff_of_false (Option.some_ne_none _) fun h => absurd h.1 (by omega)
    · rename_i hge
      rw [Option.map_eq_none_iff]
      exact (and_iff_right (by omega)).symm

theorem uvarintValue_pos {bs : Bytes} {p : Nat × Nat} (h : uvarintValue bs = some p) : 0 < p.2 := by
  cases bs with
  | nil => cases h
  | cons b bs =>
    rw [uvarintValue] at h
    split at h
    · cases h
      exact Nat.one_pos
    · obtain ⟨q, -, rfl⟩ := Option.map_eq_some_iff.mp h
      exact Nat.succ_pos _

theorem uvarintDecodeLoop_eq (k : Nat) {result shift i : Nat} (bs : Bytes)
    (hshift : shift + 7 * k = 63) :
    uvarintDecodeLoop result shift i bs =
      match uvarintValue bs with
      | some (w, n) =>
        if n ≤ k + 1 ∧ w < 2 ^ (7 * k + 1) then .ok (result + w * 2 ^ shift, i + n)
        else .error .oversize
      | none => if bs.length < k + 1 then .error .truncated else .error .oversize := by
  induction bs generalizing k result shift i with
  | nil => rfl
  | cons b bs ih =>
    have hgroup : b.toNat % 0x80 < 0x80 := Nat.mod_lt _ (by decide)
    rw [uvarintDecodeLoop, uvarintValue]
    cases k with
    | zero =>
      -- the tenth byte
      obtain rfl : shift = 63 := by omega
      by_cases hlt : b.toNat < 0x80
      · by_cases htop : b.toNat % 0x80 ≥ 2 <;> grind
      · cases hv : uvarintValue bs with
        | none => simp [hlt]
        | some p =>
          have hpos := uvarintValue_pos hv
          simp [hlt, show p.2 ≠ 0 by omega]
    | succ k =>
      rw [if_neg (by simp; omega)]
      dsimp only
      by_cases hlt : b.toNat < 0x80
      · have hfits : b.toNat % 0x80 < 2 ^ (7 * (k + 1) + 1) :=
          calc b.toNat % 0x80 < 2 ^ 7 := hgroup
            _ ≤ 2 ^ (7 * (k + 1) + 1) := Nat.pow_le_pow_right (by decide) (by omega)
        rw [if_pos hlt, if_pos hlt]
        exact (if_pos ⟨by omega, hfits⟩).symm
      · rw [if_neg hlt, if_neg hlt, if_neg (by omega), ih k (by omega)]
        cases uvarintValue bs with
        | none => simp
        | some p =>
          have hpow : 2 ^ (7 * (k + 1) + 1) = 0x80 * 2 ^ (7 * k + 1) := by
            rw [show 7 * (k + 1) + 1 = 7 + (7 * k + 1) by omega, Nat.pow_add]
          have hbound : b.toNat % 0x80 + 0x80 * p.1 < 2 ^ (7 * (k + 1) + 1) ↔ p.1 < 2 ^ (7 * k + 1) := by
            omega
          have hsum : result + b.toNat % 0x80 * 2 ^ shift + p.1 * 2 ^ (shift + 7) =
              result + (b.toNat % 0x80 + 0x80 * p.1) * 2 ^ shift := by
            rw [Nat.pow_add]
            ring
          simp only [Option.map_some, hbound, Nat.add_le_add_iff_right, hsum,
            show i + (p.2 + 1) = i + 1 + p.2 by omega]

theorem uvarintDecodeU_eq (bs : Bytes) :
    uvarintDecodeU bs =
      match uvarintValue bs with
      | some (v, n) => if n ≤ 10 ∧ v < 2 ^ 64 then .ok (v, n) else .error .oversize
      | none => if bs.length < 10 then .error .truncated else .error .oversize := by
  rw [uvarintDecodeU, uvarintDecodeLoop_eq 9 bs rfl]
  simp

theorem uvarintValue_groups (fuel : Nat) {v : Nat} (hv : v < 2 ^ (7 * fuel + 7)) (r : Bytes) :
    uvarintValue (uvarintGroups fuel v ++ r) = some (v, (uvarintGroups fuel v).length) := by
  have last : ∀ v < 0x80, uvarintValue ([UInt8.ofNat v] ++ r) = some (v, 1) := by
    intro v hv
    have hb : (UInt8.ofNat v).toNat = v := by
      rw [UInt8.toNat_ofNat_of_lt']; simp only [UInt8.size]; omega
    rw [List.singleton_append, uvarintValue, hb, if_pos hv, Nat.mod_eq_of_lt hv]
  induction fuel generalizing v with
  | zero => exact last v hv
  | succ fuel ih =>
    rw [uvarintGroups]
    split
    · have hb : (UInt8.ofNat (v % 0x80 + 0x80)).toNat = v % 0x80 + 0x80 := by
        rw [UInt8.toNat_ofNat_of_lt']; simp only [UInt8.size]; omega
      have hpow : 2 ^ (7 * (fuel + 1) + 7) = 0x80 * 2 ^ (7 * fuel + 7) := by
        rw [show 7 * (fuel + 1) + 7 = 7 + (7 * fuel + 7) by omega, Nat.pow_add]
      rw [List.cons_append, uvarintValue, hb, if_neg (by omega), ih (by omega), Option.map_some]
      congr 2
      omega
    · exact last v (by omega)

theorem length_uvarintGroups_le (fuel v : Nat) : (uvarintGroups fuel v).length ≤ fuel + 1 := by
  induction fuel generalizing v with
  | zero => exact le_rfl
  | succ fuel ih =>
    rw [uvarintGroups]
    split
    · exact Nat.succ_le_succ (ih _)
    · exact Nat.succ_le_succ (Nat.zero_le _)

theorem uvarintDecodeU_write (v : UInt64) (r : Bytes) :
    uvarintDecodeU (uvarintWriteU v ++ r) = .ok (v.toNat, (uvarintWriteU v).length) := by
  have hv := v.toNat_lt
  rw [uvarintDecodeU_eq, uvarintWriteU, uvarintValue_groups 9 (by omega)]
  exact if_pos ⟨length_uvarintGroups_le 9 _, hv⟩

private theorem shift_xor_bits (x s : BitVec 64) (b : Bool) (hs : ∀ i, i < 64 → s.getLsbD i = b)
    (hmsb : x.getLsbD 63 = b) : (((x <<< 1) ^^^ s) >>> 1) ^^^ s = x := by
  apply BitVec.eq_of_getLsbD_eq
  intro i hi
  simp only [BitVec.getLsbD_xor, BitVec.getLsbD_ushiftRight, BitVec.getLsbD_shiftLeft, hs i hi]
  by_cases h63 : i = 63
  · subst h63
    rw [hmsb, BitVec.getLsbD_of_ge s (1 + 63) (by omega)]
    simp
  · rw [hs (1 + i) (by omega)]
    have h1 : 1 + i < 64 := by omega
    simp [h1]

private theorem low_bit_mask (x s : BitVec 64) : ((x <<< 1) ^^^ s) &&& 1#64 = s &&& 1#64 := by
  apply BitVec.eq_of_getLsbD_eq
  intro i hi
  by_cases h0 : i = 0
  · subst h0; simp
  · simp [BitVec.getLsbD_one, h0]

private theorem getLsbD_63 (v : Int64) : v.toBitVec.getLsbD 63 = decide (v < 0) := by
  have h : v.toBitVec.msb = decide (v.toBitVec.toInt < 0) := BitVec.msb_eq_toInt
  rw [BitVec.msb_eq_getLsbD_last] at h
  rw [h, decide_eq_decide, Int64.lt_iff_toInt_lt]
  rfl

theorem unzigzag_zigzag (v : Int64) : unzigzag (zigzag v) = v := by
  apply Int64.toBitVec_inj.mp
  by_cases hneg : v < 0
  · simp only [unzigzag, zigzag, hneg, if_true]
    show (((v.toBitVec <<< 1) ^^^ BitVec.allOnes 64) >>> 1) ^^^
      (0#64 - (((v.toBitVec <<< 1) ^^^ BitVec.allOnes 64) &&& 1#64)) = v.toBitVec
    rw [low_bit_mask, show 0#64 - (BitVec.allOnes 64 &&& 1#64) = BitVec.allOnes 64 by decide]
    apply shift_xor_bits _ _ true
    · intro i hi
      rw [BitVec.getLsbD_allOnes, decide_eq_true hi]
    · rw [getLsbD_63, decide_eq_true hneg]
  · simp only [unzigzag, zigzag, hneg, if_false]
    show (((v.toBitVec <<< 1) ^^^ 0#64) >>> 1) ^^^
      (0#64 - (((v.toBitVec <<< 1) ^^^ 0#64) &&& 1#64)) = v.toBitVec
    rw [low_bit_mask, show 0#64 - (0#64 &&& 1#64) = 0#64 by decide]
    apply shift_xor_bits _ _ false
    · intro i _
      exact BitVec.getLsbD_zero
    · rw [getLsbD_63, decide_eq_false hneg]

private theorem unshift_xor_bits (x s : BitVec 64) (b : Bool) (hs : ∀ i, i < 64 → s.getLsbD i = b)
    (hlsb : x.getLsbD 0 = b) : (((x >>> 1) ^^^ s) <<< 1) ^^^ s = x := by
  apply BitVec.eq_of_getLsbD_eq
  intro i hi
  simp only [BitVec.getLsbD_xor, BitVec.getLsbD_shiftLeft, hs i hi]
  by_cases h0 : i = 0
  · subst h0
    rw [hlsb]
    simp
  · have hi' : i - 1 < 64 := by omega
    have hsum : 1 + (i - 1) = i := by omega
    simp [hs _ hi', hi, h0, hsum]

private theorem and_one_eq (x : BitVec 64) : x &&& 1#64 = if x.getLsbD 0 then 1#64 else 0#64 := by
  apply BitVec.eq_of_getLsbD_eq
  intro i hi
  by_cases h0 : i = 0
  · subst h0
    rw [BitVec.getLsbD_and]
    cases x.getLsbD 0 <;> decide
  · cases x.getLsbD 0 <;> simp [BitVec.getLsbD_one, h0]

private theorem unzigzag_lt_zero (u : UInt64) : decide (unzigzag u < 0) = u.toBitVec.getLsbD 0 := by
  rw [← getLsbD_63]
  show ((u.toBitVec >>> 1) ^^^ (0#64 - (u.toBitVec &&& 1#64))).getLsbD 63 = _
  rw [and_one_eq, BitVec.getLsbD_xor, BitVec.getLsbD_ushiftRight,
    BitVec.getLsbD_of_ge _ (1 + 63) (by omega)]
  cases u.toBitVec.getLsbD 0 <;> decide

theorem zigzag_unzigzag (u : UInt64) : zigzag (unzigzag u) = u := by
  apply UInt64.toBitVec_inj.mp
  have hsign := unzigzag_lt_zero u
  have hand := and_one_eq u.toBitVec
  cases hbit : u.toBitVec.getLsbD 0 with
  | true =>
    rw [hbit] at hsign hand
    simp only [zigzag, decide_eq_true_iff.mp hsign, if_true]
    show (((u.toBitVec >>> 1) ^^^ (0#64 - (u.toBitVec &&& 1#64))) <<< 1) ^^^ BitVec.allOnes 64 = _
    rw [hand, if_pos rfl, show 0#64 - 1#64 = BitVec.allOnes 64 by decide]
    apply unshift_xor_bits _ _ true _ hbit
    intro i hi
    rw [BitVec.getLsbD_allOnes, decide_eq_true hi]
  | false =>
    rw [hbit] at hsign hand
    simp only [zigzag, decide_eq_false_iff_not.mp hsign, if_false]
    show (((u.toBitVec >>> 1) ^^^ (0#64 - (u.toBitVec &&& 1#64))) <<< 1) ^^^ 0#64 = _
    rw [hand, if_neg Bool.false_ne_true, show 0#64 - 0#64 = 0#64 by decide]
    exact unshift_xor_bits _ _ false (fun i _ => BitVec.getLsbD_zero) hbit

theorem uvarintDecodeZz_write (v : Int64) (r : Bytes) :
    uvarintDecodeZz (uvarintWriteZz v ++ r) = .ok (v, (uvarintWriteZz v).length) := by
  simp only [uvarintDecodeZz, uvarintWriteZz, uvarintDecodeU_write, bind, Except.bind]
  rw [UInt64.ofNat_toNat, unzigzag_zigzag]

theorem length_uvarintGroups_mono (fuel : Nat) {v w : Nat} (h : v ≤ w) :
    (uvarintGroups fuel v).length ≤ (uvarintGroups fuel w).length := by
  induction fuel generalizing v w with
  | zero => exact le_rfl
  | succ fuel ih =>
    have hdiv := ih (Nat.div_le_div_right (c := 0x80) h)
    rw [uvarintGroups, uvarintGroups]
    by_cases hv : v ≥ 0x80
    · rw [if_pos hv, if_pos (hv.trans h)]
      simpa using hdiv
    · rw [if_neg hv]
      split <;> simp

theorem uvarintValue_length {bs : Bytes} {v n : Nat} (h : uvarintValue bs = some (v, n)) (fuel : Nat) :
    (uvarintGroups fuel v).length ≤ n ∧ n ≤ bs.length := by
  induction bs generalizing v n fuel with
  | nil => cases h
  | cons b bs ih =>
    rw [uvarintValue] at h
    split at h
    · cases h
      refine ⟨?_, by simp⟩
      cases fuel with
      | zero => exact le_rfl
      | succ fuel => rw [uvarintGroups, if_neg (by omega)]; exact le_rfl
    · obtain ⟨⟨w, m⟩, hw, heq⟩ := Option.map_eq_some_iff.mp h
      cases heq
      refine ⟨?_, Nat.succ_le_succ (ih hw 0).2⟩
      cases fuel with
      | zero => exact Nat.succ_le_succ (Nat.zero_le _)
      | succ fuel =>
        rw [uvarintGroups]
        split
        · rw [show (b.toNat % 0x80 + 0x80 * w) / 0x80 = w by omega]
          exact Nat.succ_le_succ (ih hw fuel).1
        · exact Nat.succ_le_succ (Nat.zero_le _)

theorem uvarintDecodeU_eq_ok {bs : Bytes} {v n : Nat} :
    uvarintDecodeU bs = .ok (v, n) ↔ uvarintValue bs = some (v, n) ∧ n ≤ 10 ∧ v < 2 ^ 64 := by
  rw [uvarintDecodeU_eq]
  cases uvarintValue bs with
  | none => dsimp only; split <;> simp
  | some p =>
    dsimp only
    split
    · rename_i h
      constructor
      · rintro ⟨⟩
        exact ⟨rfl, h⟩
      · rintro ⟨⟨⟩, -⟩
        rfl
    · rename_i h
      constructor
      · rintro ⟨⟩
      · rintro ⟨⟨⟩, hfits⟩
        exact absurd hfits h

theorem uvarintDecodeU_ok {bs : Bytes} {v n : Nat} (h : uvarintDecodeU bs = .ok (v, n)) :
    v < 2 ^ 64 ∧ n ≤ bs.length ∧ ∀ w ≤ v, (uvarintWriteU (UInt64.ofNat w)).length ≤ n := by
  obtain ⟨hval, -, hv⟩ := uvarintDecodeU_eq_ok.mp h
  obtain ⟨hlen, hend⟩ := uvarintValue_length hval 9
  refine ⟨hv, hend, fun w hw => ?_⟩
  have hmono := length_uvarintGroups_mono 9 hw
  unfold uvarintWriteU
  rw [UInt64.toNat_ofNat_of_lt' (by simp only [UInt64.size]; omega)]
  omega

theorem uvarintDecodeZz_ok {bs : Bytes} {v : Int64} {n : Nat}
    (h : uvarintDecodeZz bs = .ok (v, n)) : n ≤ bs.length ∧ (uvarintWriteZz v).length ≤ n := by
  simp only [uvarintDecodeZz, bind, Except.bind] at h
  cases hu : uvarintDecodeU bs with
  | error e => rw [hu] at h; cases h
  | ok r =>
    rw [hu] at h
    cases h
    obtain ⟨-, hend, hlen⟩ := uvarintDecodeU_ok hu
    refine ⟨hend, ?_⟩
    unfold uvarintWriteZz
    rw [zigzag_unzigzag]
    exact hlen _ le_rfl

theorem uvarintDecodeU_eq_truncated {bs : Bytes} :
    uvarintDecodeU bs = .error .truncated ↔ (∀ b ∈ bs, 0x80 ≤ b.toNat) ∧ bs.length < 10 := by
  rw [← uvarintValue_eq_none, uvarintDecodeU_eq]
  cases uvarintValue bs with
  | none => simp
  | some p => dsimp only; split <;> simp

/-- Both codecs read back what they write and size it exactly; a decoder accepts the terminated groups
of at most ten bytes below `2 ^ 64`, and tells apart a stream that stops early and a value too large. -/
theorem uvarint_codec :
    (∀ v, uvarintSizeU v = (uvarintWriteU v).length) ∧
    (∀ v r, uvarintDecodeU (uvarintWriteU v ++ r) = .ok (v.toNat, (uvarintWriteU v).length)) ∧
    (∀ v, uvarintSizeZz v = (uvarintWriteZz v).length) ∧
    (∀ v r, uvarintDecodeZz (uvarintWriteZz v ++ r) = .ok (v, (uvarintWriteZz v).length)) ∧
    Function.Bijective zigzag ∧
    ∀ bs,
      (∀ v n, uvarintDecodeU bs = .ok (v, n) ↔
        uvarintValue bs = some (v, n) ∧ n ≤ 10 ∧ v < 2 ^ 64) ∧
      (uvarintDecodeU bs = .error .truncated ↔ (∀ b ∈ bs, 0x80 ≤ b.toNat) ∧ bs.length < 10) ∧
      (uvarintDecodeU bs = .error .oversize ↔
        (¬ ∃ v n, uvarintValue bs = some (v, n) ∧ n ≤ 10 ∧ v < 2 ^ 64) ∧
          ¬ ((∀ b ∈ bs, 0x80 ≤ b.toNat) ∧ bs.length < 10)) := by
  refine ⟨uvarintSizeU_eq_length, uvarintDecodeU_write, uvarintSizeZz_eq_length,
    uvarintDecodeZz_write, ?_, fun bs => ⟨fun v n => uvarintDecodeU_eq_ok,
      uvarintDecodeU_eq_truncated, ?_⟩⟩
  · exact ⟨Function.LeftInverse.injective unzigzag_zigzag,
      Function.RightInverse.surjective zigzag_unzigzag⟩
  · simp only [← uvarintDecodeU_eq_ok, ← uvarintDecodeU_eq_truncated]
    cases uvarintDecodeU bs with
    | ok p => exact iff_of_false (by simp) fun h => h.1 ⟨p.1, p.2, rfl⟩
    | error e => cases e <;> simp

end Urbi
