import Urbi.Chunk.RoundTrip
import Urbi.Emit.Arms
import Mathlib.Data.List.Perm.Subperm

/-!
# What is compiled

The two properties of every program: its variables are captured lexically, and the loader decodes
what was emitted for it.
-/

namespace Urbi

open Lib

variable {e e' : UEmitter} {p : UProto}

theorem inv_init : UEmitter.init.Inv := by
  refine ⟨⟨nofun, trivial⟩, List.forall_mem_singleton.mpr ⟨⟨?_, ?_, ?_, nofun, ?_, rfl, ?_⟩, nofun⟩⟩
  exacts [Nat.zero_le _, Nat.succ_pos _, Nat.zero_le _, Nat.zero_le _, ⟨[], rfl, .nil, nofun⟩]

/-- Variables are captured lexically, at whatever nesting.  Every upvalue leads outward to the
register of the innermost enclosing local of its name, the enclosing functions gain upvalues only,
and a name is left to the globals only when no function around has a local of that name. -/
theorem captured_lexically (n : UAstNode) {want : Option Nat} {r : Nat} (hinv : e.Inv)
    (h : (operand n).code want e = .ok (r, e')) : e'.Inv ∧ List.Forall₂ Stays e.parents e'.parents ∧
      (∀ u ∈ e'.fs.upvals, ∃ d, scopeOf u.name e'.parents = some d ∧ chase e'.parents u = some d) ∧
      ∀ name i e'', upvalOf name e' = .ok (i, e'') → (i = none ↔ scopeOf name e'.parents = none) := by
  have hgrown := (kept_operand n).code want h hinv
  have hc := hgrown.inv.captures
  refine ⟨hgrown.inv, hgrown.around, fun u hu => ?_, fun name i e'' hi => ?_⟩
  · obtain ⟨hsome, hchase⟩ := hc.1 u hu
    obtain ⟨d, hd⟩ := Option.isSome_iff_exists.mp hsome
    exact ⟨d, hd, hchase.trans hd⟩
  · exact (found_of_upvalOf hc hi).none_iff

/-- `x` is captured through the function in between. -/
theorem captured_lexically_twice :
    ∃ (e e' : UEmitter) (u : UUpval), (operand (.ident 1 (ascii "x"))).code none e = .ok (0, e') ∧
      e'.fs.upvals = [u] ∧ chase e'.parents u = some (1, 0) := by
  have hrun : ∃ (e₁ e' : UEmitter) (u : UUpval),
      ulocalDeclare (ascii "x") UEmitter.init = .ok (0, e₁) ∧
      (operand (.ident 1 (ascii "x"))).code none { e₁ with
        fs := .fresh 0, parents := .fresh 0 :: e₁.fs :: e₁.parents, lazyArgCtx := false } =
          .ok (0, e') ∧
      e'.fs.upvals = [u] ∧ scopeOf u.name e'.parents = some (1, 0) := ⟨_, _, _, rfl, rfl, rfl, rfl⟩
  obtain ⟨e₁, e', u, h₁, h, hu, hs⟩ := hrun
  have hinv := ((kept_declare _ h₁ inv_init).inv.opened (n := 0) (b := false) (by decide)).opened
    (n := 0) (b := false) (by decide)
  obtain ⟨-, -, hup, -⟩ := captured_lexically _ hinv h
  obtain ⟨d, hd, hchase⟩ := hup u (hu ▸ .head _)
  exact ⟨_, e', u, h, hu, hchase.trans (hd.symm.trans hs)⟩

/-! ## Chunks -/

theorem kept_statements (ns : List UAstNode) : Kept (uemitStatements ns) := by
  induction ns with
  | nil => exact .pure _
  | cons n ns ih =>
    have hcode := (kept_operand n).code
    refine .bind ?_ fun _ => ih
    unfold uemitStatement
    repeat' with_reducible refine .bind ?_ fun _ => ?_
    all_goals grind

theorem compileChunk_emitted {stmts : List UAstNode} {c : Compiled}
    (h : compileChunk stmts = .ok c) : ∀ q, UProto.Within q c.root → q.Emitted := by
  obtain ⟨⟨_, e⟩, hrun, ⟨⟩⟩ := except_bind_eq_ok.mp h
  have hsession : Kept (do uemitNew; uemitStatements stmts; uemitFinish) := by
    refine .bind ?_ fun _ => .bind (kept_statements stmts) fun _ => ?_
    · unfold uemitNew
      repeat' with_reducible refine .bind ?_ fun _ => ?_
      all_goals grind
    · unfold uemitFinish
      repeat' first | split | with_reducible refine .bind ?_ fun _ => ?_
      all_goals grind
  have hgrown := hsession hrun inv_init
  exact emitted_of_sound (hgrown.inv.sound _ (.head _)) (.inl hgrown.nparams)

/-- What the loader has limits for and the emitter has not. -/
structure UProto.Small (p : UProto) : Prop where
  instrCount : p.block.instrCount ≤ urbiMaxInstrsPerProto
  nested : p.nested.length ≤ 1024
  strings : ∀ s, .str s ∈ p.block.constants → (0 : UInt8) ∉ s
  names : ∀ n ∈ p.block.siteNameStrs, (n.getD []).length ≤ 256

theorem UProto.Emitted.blockFits (h : p.Emitted) (hs : p.Small) : BlockFits p.block := by
  obtain ⟨fs, ht, hframe, rfl⟩ := h
  obtain ⟨pcs, hpcs, hord, hlt⟩ := ht.absLines
  have hcount : fs.instructions.length ≤ 2 ^ 20 := hs.instrCount
  have hsmall : ∀ pc ∈ pcs, (UInt32.ofNat pc).toNat = pc := fun pc hpc =>
    UInt32.toNat_ofNat_of_lt (((hlt pc hpc).trans_le hcount).trans (by decide))
  refine ⟨ht.constCount, fun k hk => ?_, hcount, ht.lineDeltas, ?_, fun l hl => ?_, ?_,
    (List.length_map ..).trans_le ht.siteCount, fun n hn => ⟨?_, hs.names n hn⟩, ?_⟩
  · have hwire := ht.constants k hk
    cases k with
    | str s => exact hs.strings s hk
    | int | float => trivial
    | nil | bool => cases hwire
  · have hlen : fs.absLines.length = pcs.length := by simpa using congrArg List.length hpcs
    have hsub := List.subperm_of_subset (hord.imp Nat.ne_of_lt) fun pc hpc =>
      List.mem_range.mpr (hlt pc hpc)
    exact hlen.trans_le (hsub.length_le.trans_eq List.length_range)
  · obtain ⟨pc, hpc, he⟩ := List.mem_map.mp (hpcs ▸ List.mem_map_of_mem hl)
    rw [← he, hsmall pc hpc]
    exact hlt pc hpc
  · have hmap : (fs.absLines.map UAbsLine.pc).Pairwise fun a b => a.toNat < b.toNat := by
      rw [hpcs, List.pairwise_map]
      exact hord.imp_of_mem fun ha hb hab => by rwa [hsmall _ ha, hsmall _ hb]
    exact (List.pairwise_map (f := UAbsLine.pc)).mp hmap
  · obtain ⟨x, -, rfl⟩ := List.mem_map.mp hn
    exact zero_not_mem_cstr x
  · have hn : fs.nparams ≤ 200 := ht.nparams
    have hr := ht.maxReg
    have hr' : (UInt8.ofNat fs.maxReg).toNat = fs.maxReg := UInt8.toNat_ofNat_of_lt (hr.trans (by decide))
    have hn' : (UInt8.ofNat fs.nparams).toNat = fs.nparams := UInt8.toNat_ofNat_of_lt (hn.trans_lt (by decide))
    simp only [frameFits, UFuncState.toProto, UProto.block, hr', hn', decide_eq_true_eq]
    split <;> grind

/-- Whatever the program, the loader decodes what the emitter wrote of it, within the limits that are
the loader's alone: the chunk comes back, absent and empty names identified. -/
theorem compiled_decodes {alloc : UChunkAlloc} (halloc : ∀ k, alloc k = true)
    {stmts : List UAstNode} {c : Compiled} (h : compileChunk stmts = .ok c) {name : Option Bytes}
    (hname : (0 : UInt8) ∉ name.getD []) (hsmall : ∀ q, UProto.Within q c.root → q.Small)
    (hdepth : c.root.depth ≤ uchunkMaxProtoDepth)
    (hsize : (chunkBytes ⟨name, c.root⟩).length < 2 ^ 64) :
    ∃ n bytes k, (∀ cap, n ≤ cap → uchunkSerialize ⟨name, c.root⟩ (some cap) = .ok (n, bytes)) ∧
      decodeChunk alloc ⟨0, bytes, 0⟩ = .ok (UChunk.normNames ⟨name, c.root⟩, ⟨n, [], k⟩) := by
  have hemitted := compileChunk_emitted h
  have hfits : TreeFits true c.root := by
    refine ⟨fun q hq => (hemitted q hq).blockFits (hsmall q hq), fun q hq => ?_,
      fun q hq => (hsmall q hq).nested, fun q hq o ho => ?_, hdepth⟩
    all_goals obtain ⟨fs, -, -, rfl⟩ := hemitted q hq
    · rfl
    · obtain ⟨_, -, rfl⟩ := List.mem_map.mp ho
      rfl
  have harity : c.root.block.arityPrologue = true := hfits.arity _ (.refl _)
  obtain ⟨k, hk⟩ := decodeChunk_chunkBytes (c := ⟨name, c.root⟩) halloc (harity ▸ hfits) hname hsize
  exact ⟨_, _, k, fun cap => uchunkSerialize_write _ cap, hk⟩

/-- A function in the chunk: both prototypes are within the loader's limits. -/
theorem compiled_decodes_function : ∃ c n bytes k,
    compileChunk [.function 1 [] (.int 1 42)] = .ok c ∧
    decodeChunk (fun _ => true) ⟨0, bytes, 0⟩ = .ok (UChunk.normNames ⟨none, c.root⟩, ⟨n, [], k⟩) := by
  obtain ⟨c, hc, hroot⟩ : ∃ c, compileChunk [.function 1 [] (.int 1 42)] = .ok c ∧ c.root =
      .mk ⟨1, 0, 0, true, [], [39, 269, 263], [128, 128, 0], [⟨0, 0⟩, ⟨1, 1⟩], []⟩
        [some (.mk ⟨1, 0, 0, true, [.int 42], [39, 256, 263], [128, 0, 0], [⟨0, 1⟩], []⟩ [])] :=
    ⟨_, rfl, rfl⟩
  have hsmall : ∀ q, UProto.Within q c.root → q.Small := by
    intro q hq
    rw [hroot] at hq
    obtain rfl | ⟨_, hmem, hq⟩ := UProto.within_mk_iff.mp hq
    · exact ⟨by decide, by decide, by simp [UProto.block], by simp [UProto.block]⟩
    · cases Option.some.inj (List.mem_singleton.mp hmem)
      obtain rfl | ⟨_, ⟨⟩, -⟩ := UProto.within_mk_iff.mp hq
      exact ⟨by decide, by decide, by simp [UProto.block], by simp [UProto.block]⟩
  obtain ⟨n, bytes, k, -, hk⟩ := @compiled_decodes (fun _ => true) (fun _ => rfl) _ c hc none
    (by decide) hsmall (by rw [hroot]; decide) (by rw [hroot]; decide)
  exact ⟨c, n, bytes, k, hc, hk⟩

end Urbi
