import Urbi.Emit.State
import Urbi.Rt.Strand

/-!
# The line table

`uinstr_emit` writes one delta per instruction and an absolute checkpoint where a delta would not
do; `uproto_line_at` sums them up again.
-/

namespace Urbi

def lineTable : Nat → Nat → List Nat → List UInt8 × List UAbsLine
  | _, _, [] => ([], [])
  | i, prev, line :: lines =>
    let rest := lineTable (i + 1) line lines
    match lineDelta prev line with
    | none => (0x80 :: rest.1, ⟨UInt32.ofNat i, UInt32.ofNat line⟩ :: rest.2)
    | some d => (d :: rest.1, rest.2)

def UFuncState.emitAll (fs : UFuncState) (code : List (UInt32 × Nat)) : UFuncState :=
  code.foldl (fun fs c => fs.push c.1 c.2) fs

theorem UFuncState.emitAll_lines (fs : UFuncState) (code : List (UInt32 × Nat)) :
    let table := lineTable fs.instructions.length fs.prevLine (code.map Prod.snd)
    (fs.emitAll code).instructions.length = fs.instructions.length + code.length ∧
      (fs.emitAll code).lineDeltas = fs.lineDeltas ++ table.1 ∧
      (fs.emitAll code).absLines = fs.absLines ++ table.2 := by
  induction code generalizing fs with
  | nil => simp [emitAll, lineTable]
  | cons c code ih =>
    obtain ⟨hlen, hdeltas, habs⟩ := ih (fs.push c.1 c.2)
    have hpush : (fs.push c.1 c.2).instructions.length = fs.instructions.length + 1 := by
      simp [push]
    rw [hpush] at hlen hdeltas habs
    refine ⟨?_, ?_, ?_⟩
    · rw [emitAll, List.foldl_cons, List.length_cons]
      exact hlen.trans (by omega)
    · rw [emitAll, List.foldl_cons]
      refine hdeltas.trans ?_
      rw [List.map_cons, lineTable]
      cases h : lineDelta fs.prevLine c.2 <;> simp [push, h]
    · rw [emitAll, List.foldl_cons]
      refine habs.trans ?_
      rw [List.map_cons, lineTable]
      cases h : lineDelta fs.prevLine c.2 <;> simp [push, h]

theorem toInt_ofNat_emod {x : Int} (hlo : -128 < x) (hhi : x ≤ 127) :
    (UInt8.ofNat (x % 256).toNat).toInt8.toInt = x := by
  rw [UInt8.toInt8_ofNat', Int8.toInt_ofNat', Int.toNat_of_nonneg (Int.emod_nonneg _ (by decide)),
    show Int8.size = 256 from rfl, show (256 : Int) = ((256 : Nat) : Int) from rfl, Int.emod_bmod]
  exact Int.bmod_eq_of_le (by omega) (by omega)

theorem lineDelta_some {prev line : Nat} {d : UInt8} (h : lineDelta prev line = some d)
    (hline : line < 2 ^ 31) :
    prev ≠ 0 ∧ d ≠ 0x80 ∧ (((prev : Int) + d.toInt8.toInt) % 2 ^ 32).toNat = line := by
  unfold lineDelta at h
  dsimp only at h
  split at h
  · cases h
  rename_i hd
  cases h
  have hint : (UInt8.ofNat (((line : Int) - prev) % 256).toNat).toInt8.toInt = (line : Int) - prev :=
    toInt_ofNat_emod (by omega) (by omega)
  refine ⟨fun h => hd (.inl h), fun h => ?_, ?_⟩
  · rw [h] at hint
    have hmark : (0x80 : UInt8).toInt8.toInt = -128 := by decide
    omega
  · rw [hint]
    omega

theorem lineLoop_lineTable (i prev line : Nat) (lines : List Nat)
    (hlines : ∀ l ∈ lines, l < 2 ^ 31) (hline : prev ≠ 0 → line = prev)
    {k : Nat} (hk : k < lines.length) (hfits : i + k < 2 ^ 32) (more : List UAbsLine) :
    lineLoop i line ((lineTable i prev lines).2 ++ more) ((lineTable i prev lines).1.take (k + 1)) =
      lines[k] := by
  induction lines generalizing i prev line k with
  | nil => cases hk
  | cons l lines ih =>
    have hl := hlines l List.mem_cons_self
    have hrest : ∀ m ∈ lines, m < 2 ^ 31 := fun m hm => hlines m (List.mem_cons_of_mem _ hm)
    -- behind this instruction the line is `l`
    have next : lineLoop (i + 1) l ((lineTable (i + 1) l lines).2 ++ more)
        ((lineTable (i + 1) l lines).1.take k) = (l :: lines)[k] := by
      cases k with
      | zero => rfl
      | succ k => exact ih (i + 1) l l hrest (fun _ => rfl) (by simpa using hk) (by omega)
    rw [lineTable]
    cases h : lineDelta prev l with
    | none =>
      have hpc : (UInt32.ofNat i).toNat = i := by
        rw [UInt32.toNat_ofNat_of_lt']
        simp only [UInt32.size]
        omega
      have hto : (UInt32.ofNat l).toNat = l := by
        rw [UInt32.toNat_ofNat_of_lt']
        simp only [UInt32.size]
        omega
      rw [List.take_succ_cons, lineLoop, if_pos rfl, List.cons_append,
        List.dropWhile_cons_of_neg (by simp [hpc])]
      dsimp only
      rw [if_pos hpc, hto]
      exact next
    | some d =>
      obtain ⟨hne, hmark, hsum⟩ := lineDelta_some h hl
      rw [List.take_succ_cons, lineLoop, if_neg hmark, hline hne, hsum]
      exact next

/-- The line of every instruction is the one it was emitted with.  A pc is a `uint32_t`. -/
theorem uprotoLineAt_emitted (nparams : Nat) (code : List (UInt32 × Nat))
    (hlines : ∀ c ∈ code, c.2 < 2 ^ 31) {pc : Nat} (hpc : pc < code.length) (hfits : pc < 2 ^ 32) :
    uprotoLineAt ((UFuncState.fresh nparams).emitAll code).toProto.block pc = code[pc].2 := by
  obtain ⟨hlen, hdeltas, habs⟩ := (UFuncState.fresh nparams).emitAll_lines code
  have hcount : ¬ ((UFuncState.fresh nparams).emitAll code).instructions.length ≤ pc := by
    rw [hlen]
    exact Nat.not_le.mpr (by simpa [UFuncState.fresh] using hpc)
  have hloop : uprotoLineAt ((UFuncState.fresh nparams).emitAll code).toProto.block pc =
      lineLoop 0 0 ((UFuncState.fresh nparams).emitAll code).absLines
        (((UFuncState.fresh nparams).emitAll code).lineDeltas.take (pc + 1)) := if_neg hcount
  have h := lineLoop_lineTable 0 0 0 (code.map Prod.snd) (by simpa using fun l x hx => hlines (x, l) hx)
    (fun h => absurd rfl h) (by simpa using hpc : pc < _) (by omega) []
  rw [List.append_nil, List.getElem_map] at h
  rw [hloop, habs, hdeltas]
  exact h

theorem uprotoLineAt_emitted_jump :
    uprotoLineAt ((UFuncState.fresh 0).emitAll [(0, 7), (0, 0), (0, 300), (0, 299)]).toProto.block 3 =
      299 :=
  uprotoLineAt_emitted 0 [(0, 7), (0, 0), (0, 300), (0, 299)] (by decide) (by decide) (by decide)

end Urbi
