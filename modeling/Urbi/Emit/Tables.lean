import Urbi.Emit.Capture

/-!
# What the emitter keeps

Whatever is compiled, the tables of every open function stay in order, what is captured stays lexical,
and the functions around the one being compiled gain upvalues only.
-/

namespace Urbi

open Lib

/-! ## Functions -/

@[grind] def UConst.onWire : UConst → Bool
  | .int _ | .float _ | .str _ => true
  | .nil | .bool _ => false

structure UFuncState.Tidy (fs : UFuncState) : Prop where
  nparams : fs.nparams ≤ ufsMaxLocals
  maxReg : fs.maxReg < 255
  constCount : fs.constants.length ≤ 65536
  constants : ∀ k ∈ fs.constants, k.onWire
  siteCount : fs.siteNames.length ≤ 65535
  lineDeltas : fs.lineDeltas.length = fs.instructions.length
  absLines : ∃ pcs : List Nat, fs.absLines.map UAbsLine.pc = pcs.map UInt32.ofNat ∧
    pcs.Pairwise (· < ·) ∧ ∀ pc ∈ pcs, pc < fs.instructions.length

def UProto.Emitted (p : UProto) : Prop :=
  ∃ fs : UFuncState, fs.Tidy ∧ (fs.nparams = 0 ∨ fs.nparams ≤ fs.maxReg) ∧ p = fs.toProto

structure UFuncState.Sound (fs : UFuncState) : Prop where
  tidy : fs.Tidy
  nested : ∀ p ∈ fs.nested, ∀ q, UProto.Within q p → q.Emitted

structure UEmitter.Inv (e : UEmitter) : Prop where
  captures : Captures (e.fs :: e.parents)
  sound : ∀ fs ∈ e.fs :: e.parents, fs.Sound

structure UEmitter.Grown (e e' : UEmitter) : Prop where
  inv : e'.Inv
  nparams : e'.fs.nparams = e.fs.nparams
  maxReg : e.fs.maxReg ≤ e'.fs.maxReg
  around : List.Forall₂ Stays e.parents e'.parents

def UEmitter.Adv (e e' : UEmitter) : Prop := e.Inv → e.Grown e'

variable {fs : UFuncState} {e e' : UEmitter} {α : Type}

theorem around_refl (ps : List UFuncState) : List.Forall₂ Stays ps ps :=
  List.forall₂_same.mpr fun p _ => stays_refl p

theorem around_trans {as bs cs : List UFuncState} (h : List.Forall₂ Stays as bs)
    (h' : List.Forall₂ Stays bs cs) : List.Forall₂ Stays as cs :=
  forall₂_trans (R := Stays) Stays.trans h h'

instance : IsPreorder UEmitter UEmitter.Adv where
  refl _ h := ⟨h, rfl, le_rfl, around_refl _⟩
  trans _ _ _ h h' hi :=
    have hg := h hi
    have hg' := h' hg.inv
    ⟨hg'.inv, hg'.nparams.trans hg.nparams, hg.maxReg.trans hg'.maxReg,
      around_trans hg.around hg'.around⟩

theorem UEmitter.Adv.of_fs (hup : fs.upvals = e.fs.upvals) (hnested : fs.nested = e.fs.nested)
    (hn : fs.nparams = e.fs.nparams) (hreg : e.fs.maxReg ≤ fs.maxReg)
    (htidy : e.fs.Tidy → fs.Tidy) : e.Adv { e with fs } := by
  rintro ⟨hc, hs⟩
  obtain ⟨⟨ht, hk⟩, hs⟩ := List.forall_mem_cons.mp hs
  exact ⟨⟨⟨fun u hu => hc.1 u (hup ▸ hu), hc.2⟩,
    List.forall_mem_cons.mpr ⟨⟨htidy ht, hnested ▸ hk⟩, hs⟩⟩, hn, hreg, around_refl _⟩

/-! ## The state -/

abbrev Kept (m : EmitM α) : Prop := Relates UEmitter.Adv m

@[grind ←] theorem kept_fail (code : UEmitError) (message : Option Bytes) :
    Kept (uemitFail code message : EmitM α) := nofun

attribute [grind =] failText

@[grind ←] theorem kept_getFs : Kept getFs := Relates.bind Relates.get fun _ => Relates.pure _

@[grind ←] theorem kept_modify {f : UEmitter → UEmitter}
    (h : ∀ e, (f e).fs = e.fs ∧ (f e).parents = e.parents) : Kept (modify f) := by
  rintro e _ _ ⟨⟩
  obtain ⟨hfs, hps⟩ := h e
  rintro ⟨hc, hs⟩
  constructor
  · constructor <;> rw [hfs, hps]
    exacts [hc, hs]
  · rw [hfs]
  · rw [hfs]
  · rw [hps]
    exact around_refl _

@[grind] def UFuncState.made (fs : UFuncState) : UFuncState :=
  { UFuncState.fresh fs.nparams with
    maxReg := fs.maxReg, upvals := fs.upvals, siteNames := fs.siteNames, constants := fs.constants
    instructions := fs.instructions, lineDeltas := fs.lineDeltas, absLines := fs.absLines
    nested := fs.nested }

theorem UFuncState.tidy_made : fs.made.Tidy ↔ fs.Tidy :=
  ⟨fun ⟨a, b, c, d, e, f, g⟩ => ⟨a, b, c, d, e, f, g⟩, fun ⟨a, b, c, d, e, f, g⟩ => ⟨a, b, c, d, e, f, g⟩⟩

@[grind ←] theorem kept_modifyFs {f : UFuncState → UFuncState} (h : ∀ fs, (f fs).made = fs.made) :
    Kept (modifyFs f) := by
  rintro e _ _ ⟨⟩
  have hmade := h e.fs
  exact UEmitter.Adv.of_fs (congrArg (fun fs => fs.upvals) hmade :) (congrArg (fun fs => fs.nested) hmade :)
    (congrArg (fun fs => fs.nparams) hmade :) (congrArg (fun fs => fs.maxReg) hmade :).ge
    fun ht => UFuncState.tidy_made.mp (hmade ▸ UFuncState.tidy_made.mpr ht)

@[grind ←] theorem kept_alloc : Kept uregAlloc := by
  intro e r e' h
  obtain ⟨fs, e₁, ⟨⟩, h⟩ := bind_eq_ok.mp h
  split at h <;> cases h
  refine UEmitter.Adv.of_fs rfl rfl rfl (le_max_left ..) fun ht => { ht with maxReg := ?_ }
  have := ht.maxReg
  simp only [ufsMaxRegs] at *
  omega

@[grind ←] theorem kept_site (name : Bytes) : Kept (usite name) := by
  intro e r e' h
  obtain ⟨fs, e₁, ⟨⟩, h⟩ := bind_eq_ok.mp h
  split at h <;> cases h
  refine UEmitter.Adv.of_fs rfl rfl rfl le_rfl fun ht => { ht with siteCount := ?_ }
  have := ht.siteCount
  simp only [List.length_append, List.length_singleton]
  omega

@[grind ←] theorem kept_const {k : UConst} (hk : k.onWire) : Kept (constAdd k) := by
  intro e r e' h
  obtain ⟨fs, e₁, ⟨⟩, h⟩ := bind_eq_ok.mp h
  cases hi : e.fs.constants.idxOf? k with
  | some i =>
    rw [hi] at h
    cases h
    exact Std.Refl.refl e
  | none =>
    simp only [hi] at h
    split at h <;> cases h
    refine UEmitter.Adv.of_fs rfl rfl rfl le_rfl fun ht => { ht with
      constCount := (List.length_append ..).trans_le ?_, constants := fun c hc => ?_ }
    · rw [List.length_singleton]
      omega
    · rcases List.mem_append.mp hc with hc | hc
      · exact ht.constants c hc
      · rwa [List.mem_singleton.mp hc]

theorem UFuncState.Tidy.push (h : fs.Tidy) (w : UInt32) (line : Nat) : (fs.push w line).Tidy := by
  have hlen : (fs.push w line).instructions.length = fs.instructions.length + 1 :=
    List.length_append ..
  refine { h with lineDeltas := ?_, absLines := ?_ }
  · rw [hlen, ← h.lineDeltas]
    exact List.length_append ..
  · obtain ⟨pcs, hpcs, hord, hlt⟩ := h.absLines
    rw [hlen]
    cases hd : lineDelta fs.prevLine line with
    | some d =>
      simp only [UFuncState.push, hd]
      exact ⟨pcs, hpcs, hord, fun pc hpc => Nat.lt_succ_of_lt (hlt pc hpc)⟩
    | none =>
      simp only [UFuncState.push, hd]
      refine ⟨pcs ++ [fs.instructions.length], by simp [hpcs], ?_, fun pc hpc => ?_⟩
      · exact List.pairwise_append.mpr ⟨hord, List.pairwise_singleton .., by simpa using hlt⟩
      · rcases List.mem_append.mp hpc with hpc | hpc
        · exact Nat.lt_succ_of_lt (hlt pc hpc)
        · exact (List.mem_singleton.mp hpc).trans_lt (Nat.lt_succ_self _)

@[grind ←] theorem kept_emit (w : UInt32) (line : Nat) : Kept (uinstrEmit w line) := by
  rintro e _ _ ⟨⟩
  exact UEmitter.Adv.of_fs rfl rfl rfl le_rfl fun ht => ht.push w line

@[grind ←] theorem kept_patch (pc : Nat) (w : UInt32) : Kept (uinstrPatch pc w) := by
  rintro e _ _ ⟨⟩
  refine UEmitter.Adv.of_fs rfl rfl rfl le_rfl fun ht => { ht with lineDeltas := ?_, absLines := ?_ } <;>
    simp only [List.length_set]
  exacts [ht.lineDeltas, ht.absLines]

theorem UFuncState.Sound.stays {p p' : UFuncState} (h : p.Sound) (hs : Stays p p') : p'.Sound := by
  obtain ⟨us, bs, k, rfl, -⟩ := hs
  exact ⟨{ h.tidy with }, h.nested⟩

theorem found_of_upvalOf {name : Bytes} {r : Option Nat} (hc : Captures (e.fs :: e.parents))
    (h : upvalOf name e = .ok (r, e')) : Found name e.fs e.parents r e'.fs e'.parents := by
  obtain ⟨⟨ui, fs, ps⟩, hf, h⟩ := except_bind_eq_ok.mp h
  cases h
  exact found_of_findOrInstall hc hf

@[grind ←] theorem kept_upvalOf (name : Bytes) : Kept (upvalOf name) := by
  rintro e r e' h ⟨hc, hs⟩
  have hf := found_of_upvalOf hc h
  have hall : List.Forall₂ Stays (e.fs :: e.parents) (e'.fs :: e'.parents) := .cons hf.stays hf.around
  obtain ⟨us, bs, k, hfs, -⟩ := hf.stays
  refine ⟨⟨hf.captures, fun p' hp' => ?_⟩, by rw [hfs], by rw [hfs], hf.around⟩
  obtain ⟨i, hi, rfl⟩ := List.getElem_of_mem hp'
  exact (hs _ (List.getElem_mem (hall.length_eq ▸ hi))).stays (hall.get _ hi)

end Urbi
