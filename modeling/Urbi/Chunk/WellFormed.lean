import Urbi.Chunk.Verify

/-!
# What the verifier accepts

A word is an instruction, possibly with the high site bits of an `EXTARG` before it, or an
upvalue-prelude word of a `CLOSURE`.  The two verifier passes accept a tree exactly when every block
of it is `WellFormed` (for an allocator that grants every request).
-/

namespace Urbi

open Lib
variable {ns : List (Option UProto)} {i k n skip vi : Nat} {e : Option Nat} {ws : List UInt32}
  {b : Block} {w : UInt32} {op : UOpcode} {u : Unit} {l : Option UOpcode} {alloc : UChunkAlloc}
  {m : List Bool} {p : UProto}

/-! ## Word roles -/

/-- `instr e` is an instruction; `e` holds the high site bits when the word before it is an
`EXTARG`. -/
inductive WordRole where
  | instr (ext : Option Nat)
  | prelude
  deriving DecidableEq, Repr

def preludeLen (ns : List (Option UProto)) (w : UInt32) : Nat :=
  if uinstrOpcode w = some .closure then
    (nestedAt ns (uinstrBx w)).elim 0 fun p => p.block.nupvals.toNat
  else 0

def extAfter (w : UInt32) : Option Nat :=
  if uinstrOpcode w = some .extarg then some (uinstrBx w * 2 ^ 8) else none

def wordRoles (ns : List (Option UProto)) : Nat → Option Nat → List UInt32 → List WordRole
  | _, _, [] => []
  | skip + 1, e, _ :: ws => .prelude :: wordRoles ns skip e ws
  | 0, e, w :: ws => .instr e :: wordRoles ns (preludeLen ns w) (extAfter w) ws

def roles (b : Block) (ns : List (Option UProto)) : List WordRole :=
  wordRoles ns 0 none b.instructions

@[simp] theorem length_wordRoles (ns : List (Option UProto)) (skip : Nat) (e : Option Nat)
    (ws : List UInt32) : (wordRoles ns skip e ws).length = ws.length := by
  induction ws generalizing skip e with
  | nil => cases skip <;> rfl
  | cons w ws ih => cases skip <;> simp [wordRoles, ih]

@[simp] theorem length_roles (b : Block) (ns : List (Option UProto)) :
    (roles b ns).length = b.instrCount := length_wordRoles _ _ _ _

theorem drop_wordRoles {e₀ : Option Nat} (h : (wordRoles ns skip e₀ ws)[i]? = some (.instr e)) :
    (wordRoles ns skip e₀ ws).drop i = wordRoles ns 0 e (ws.drop i) := by
  induction ws generalizing skip e₀ i with
  | nil => cases skip <;> simp [wordRoles] at h
  | cons w ws ih =>
    cases skip with
    | zero =>
      cases i with
      | zero =>
        cases h
        rfl
      | succ i => exact ih h
    | succ skip =>
      cases i with
      | zero => cases h
      | succ i => exact ih h

theorem getElem?_wordRoles_skip (ns : List (Option UProto)) (skip : Nat) (e : Option Nat)
    (ws : List UInt32) (h : skip < ws.length) :
    (wordRoles ns skip e ws)[skip]? = some (.instr e) := by
  induction skip generalizing ws with
  | zero =>
    cases ws with
    | nil => simp at h
    | cons w ws => rfl
  | succ skip ih =>
    cases ws with
    | nil => simp at h
    | cons w ws => exact ih ws (Nat.lt_of_succ_lt_succ h)

theorem roles_next (hr : (roles b ns)[vi]? = some (.instr e)) (hw : b.instructions[vi]? = some w)
    (hlt : vi + 1 + preludeLen ns w < b.instrCount) :
    (roles b ns)[vi + 1 + preludeLen ns w]? = some (.instr (extAfter w)) := by
  have hvi : vi < b.instructions.length := (List.getElem?_eq_some_iff.mp hw).1
  have hdrop : b.instructions.drop vi = w :: b.instructions.drop (vi + 1) := by
    rw [List.drop_eq_getElem_cons hvi]
    simp [(List.getElem?_eq_some_iff.mp hw).2]
  have hroles := drop_wordRoles hr
  rw [hdrop, wordRoles] at hroles
  have hidx : (roles b ns)[vi + 1 + preludeLen ns w]? =
      ((roles b ns).drop vi)[1 + preludeLen ns w]? := by
    rw [List.getElem?_drop, Nat.add_assoc]
  rw [hidx, roles, hroles, Nat.add_comm 1, List.getElem?_cons_succ]
  apply getElem?_wordRoles_skip
  rw [List.length_drop]
  unfold Block.instrCount at hlt
  omega

theorem extarg_of_wordRoles {x : Nat}
    (h : (wordRoles ns skip none ws)[i]? = some (.instr (some x))) :
    ∃ j w e, i = j + 1 ∧ ws[j]? = some w ∧ (wordRoles ns skip none ws)[j]? = some (.instr e) ∧
      uinstrOpcode w = some .extarg ∧ x = uinstrBx w * 2 ^ 8 := by
  suffices hgen : ∀ (e₀ : Option Nat), (wordRoles ns skip e₀ ws)[i]? = some (.instr (some x)) →
      (e₀ = some x ∧ i = skip) ∨
      ∃ j w e, i = j + 1 ∧ ws[j]? = some w ∧ (wordRoles ns skip e₀ ws)[j]? = some (.instr e) ∧
        uinstrOpcode w = some .extarg ∧ x = uinstrBx w * 2 ^ 8 by
    rcases hgen none h with ⟨habs, -⟩ | hex
    · cases habs
    · exact hex
  clear h
  induction ws generalizing skip i with
  | nil => intro e₀ h; cases skip <;> simp [wordRoles] at h
  | cons w ws ih =>
    intro e₀ h
    cases skip with
    | succ skip =>
      cases i with
      | zero => cases h
      | succ i =>
        rcases ih e₀ h with ⟨he, rfl⟩ | ⟨j, w', e, rfl, hex⟩
        · exact .inl ⟨he, rfl⟩
        · exact .inr ⟨j + 1, w', e, rfl, hex⟩
    | zero =>
      cases i with
      | zero => exact .inl ⟨by simpa [wordRoles] using h, rfl⟩
      | succ i =>
        rcases ih (extAfter w) h with ⟨he, hi⟩ | ⟨j, w', e, rfl, hex⟩
        · -- the bits were handed over by `w` itself, which is therefore an EXTARG
          have hext : uinstrOpcode w = some .extarg := by
            by_contra hne
            simp [extAfter, hne] at he
          have hlen : preludeLen ns w = 0 := by simp [preludeLen, hext]
          refine .inr ⟨0, w, e₀, by omega, rfl, rfl, hext, ?_⟩
          simpa [extAfter, hext, eq_comm] using he
        · exact .inr ⟨j + 1, w', e, rfl, hex⟩

/-! ## Pass 1: shaped code -/

def prevWord (b : Block) (vi : Nat) : Option UInt32 :=
  if vi = 0 then none else b.instructions[vi - 1]?

structure OperandsOk (b : Block) (ns : List (Option UProto)) (vi ext : Nat) (op : UOpcode)
    (w : UInt32) : Prop where
  opA : byteOperandOk (uinstrA w) (urbiOpcodeShapes op).aKind b.maxReg.toNat = true
  opB : (urbiOpcodeShapes op).format = .abc →
    byteOperandOk (uinstrB w) (urbiOpcodeShapes op).bKind b.maxReg.toNat = true
  opC : (urbiOpcodeShapes op).format = .abc →
    byteOperandOk (uinstrC w) (urbiOpcodeShapes op).cKind b.maxReg.toNat = true
  site : (urbiOpcodeShapes op).format = .abc → (urbiOpcodeShapes op).cKind = .immSite →
    ext + uinstrC w < b.siteCount
  abc : (urbiOpcodeShapes op).format = .abc →
    abcRulesOk op (uinstrA w) (uinstrB w) (uinstrC w) (prevWord b vi) b.maxReg.toNat = true
  bx : (urbiOpcodeShapes op).format = .abx →
    bxOk (uinstrBx w) (urbiOpcodeShapes op).bxKind b.constCount b.instrCount ns.length = true
  flags : op = .scopeTry → uinstrA w = uscopeFHasCatch ∨ uinstrA w = uscopeFHasFinally
  closure : op = .closure → ∃ child, nestedAt ns (uinstrBx w) = some child ∧
    vi + child.block.nupvals.toNat < b.instrCount

theorem preludeLen_of_ne (h : uinstrOpcode w ≠ some .closure) : preludeLen ns w = 0 := by
  simp [preludeLen, h]

theorem verifyClosure_eq_ok (hop : uinstrOpcode w = some .closure) :
    verifyClosure b ns vi w = .ok skip ↔ (∃ child, nestedAt ns (uinstrBx w) = some child ∧
        vi + child.block.nupvals.toNat < b.instrCount) ∧ skip = preludeLen ns w := by
  unfold verifyClosure
  cases hn : nestedAt ns (uinstrBx w) with
  | none => simp
  | some child =>
    simp only [check_bind_eq_ok, decide_eq_true_eq, Except.ok.injEq, Option.some.injEq,
      exists_eq_left', preludeLen, hop, hn, if_true, Option.elim_some]
    exact and_congr_right fun _ => eq_comm

theorem verifyAbc_eq_ok {prev : Option UInt32} {ext : Nat} : verifyAbc b prev ext op w = .ok u ↔
      byteOperandOk (uinstrB w) (urbiOpcodeShapes op).bKind b.maxReg.toNat = true ∧
      byteOperandOk (uinstrC w) (urbiOpcodeShapes op).cKind b.maxReg.toNat = true ∧
      ((urbiOpcodeShapes op).cKind = .immSite → ext + uinstrC w < b.siteCount) ∧
      abcRulesOk op (uinstrA w) (uinstrB w) (uinstrC w) prev b.maxReg.toNat = true := by
  simp only [verifyAbc, verifyByteOperand, verifyAbcRules, check_bind_eq_ok, check_eq_ok,
    Bool.or_eq_true, bne_iff_ne, ne_eq, decide_eq_true_eq, ← Decidable.imp_iff_not_or]

theorem verifyInstr_eq_ok {ext : Nat} (hop : uinstrOpcode w = some op) :
    verifyInstr b ns vi (prevWord b vi) ext op w = .ok skip ↔
      OperandsOk b ns vi ext op w ∧ skip = preludeLen ns w := by
  unfold verifyInstr
  cases hf : (urbiOpcodeShapes op).format with
  | abc =>
    have hnc : op ≠ .closure := by rintro rfl; cases hf
    have hnt : op ≠ .scopeTry := by rintro rfl; cases hf
    have hno : ¬ (urbiOpcodeShapes op).format = .abx := by rw [hf]; decide
    have hlen : preludeLen ns w = 0 := preludeLen_of_ne (by rw [hop]; simpa using hnc)
    simp only [verifyByteOperand, check_bind_eq_ok]
    rw [except_bind_eq_ok]
    simp only [verifyAbc_eq_ok, Except.ok.injEq]
    constructor
    · rintro ⟨ha, -, ⟨hb, hc, hs, habc⟩, rfl⟩
      exact ⟨⟨ha, fun _ => hb, fun _ => hc, fun _ => hs, fun _ => habc, fun h => absurd h hno,
        fun h => absurd h hnt, fun h => absurd h hnc⟩, hlen.symm⟩
    · rintro ⟨h, rfl⟩
      exact ⟨h.opA, (), ⟨h.opB hf, h.opC hf, h.site hf, h.abc hf⟩, hlen.symm⟩
  | abx =>
    have hno : ¬ (urbiOpcodeShapes op).format = .abc := by rw [hf]; decide
    have hskip : (if op = .closure then verifyClosure b ns vi w else .ok 0) = .ok skip ↔
        (op = .closure → ∃ child, nestedAt ns (uinstrBx w) = some child ∧
          vi + child.block.nupvals.toNat < b.instrCount) ∧ skip = preludeLen ns w := by
      by_cases hc : op = .closure
      · rw [if_pos hc, verifyClosure_eq_ok (hc ▸ hop)]
        simp [hc]
      · rw [if_neg hc, preludeLen_of_ne (by rw [hop]; simpa using hc)]
        simp [hc, eq_comm]
    simp only [verifyByteOperand, verifyAbx, verifyBx, check_bind_eq_ok, hskip,
      Bool.or_eq_true, bne_iff_ne, ne_eq, decide_eq_true_eq]
    constructor
    · rintro ⟨ha, hbx, hfl, hcl, hs⟩
      refine ⟨⟨ha, fun h => absurd h hno, fun h => absurd h hno, fun h => absurd h hno,
        fun h => absurd h hno, fun _ => hbx, ?_, hcl⟩, hs⟩
      rintro rfl
      simpa using hfl
    · rintro ⟨h, hs⟩
      refine ⟨h.opA, h.bx hf, ?_, h.closure, hs⟩
      by_cases ht : op = .scopeTry
      · rcases h.flags ht with h1 | h1 <;> simp [h1]
      · exact .inl (.inl ht)

structure InstrOk (b : Block) (ns : List (Option UProto)) (vi : Nat) (e : Option Nat)
    (w : UInt32) : Prop where
  opcode : ∃ op, uinstrOpcode w = some op
  extarg : e.isSome → ∀ op, uinstrOpcode w = some op → opTakesSite op = true
  last : uinstrOpcode w = some .extarg → vi + 1 < b.instrCount
  operands : ∀ op, uinstrOpcode w = some op → op ≠ .extarg → OperandsOk b ns vi (e.getD 0) op w

def realOps (ns : List (Option UProto)) : Nat → List UInt32 → List UOpcode
  | _, [] => []
  | skip + 1, _ :: ws => realOps ns skip ws
  | 0, w :: ws =>
    let rest := realOps ns (preludeLen ns w) ws
    match uinstrOpcode w with
    | none | some .extarg => rest
    | some op => op :: rest

def takesSite (op : UOpcode) : Bool := (urbiOpcodeShapes op).cKind = .immSite

theorem prevWord_succ {pre : List UInt32} (h : b.instructions = pre ++ w :: ws) :
    prevWord b (pre.length + 1) = some w := by
  simp [prevWord, h]

def InstrsOk (b : Block) (ns : List (Option UProto)) (vi skip : Nat) (e : Option Nat)
    (ws : List UInt32) : Prop :=
  ∀ i w e', (wordRoles ns skip e ws)[i]? = some (.instr e') → ws[i]? = some w →
    InstrOk b ns (vi + i) e' w

theorem instrsOk_nil (b : Block) (ns : List (Option UProto)) (vi skip : Nat) (e : Option Nat) :
    InstrsOk b ns vi skip e [] := by
  intro i w e' _ hw
  simp at hw

theorem instrsOk_skip :
    InstrsOk b ns vi (skip + 1) e (w :: ws) ↔ InstrsOk b ns (vi + 1) skip e ws := by
  have hvi : ∀ i, vi + 1 + i = vi + (i + 1) := fun i => by omega
  constructor
  · exact fun h i w' e' hr hw => hvi i ▸ h (i + 1) w' e' hr hw
  · rintro h (_ | i) w' e' hr hw
    · cases hr
    · exact hvi i ▸ h i w' e' hr hw

theorem instrsOk_cons : InstrsOk b ns vi 0 e (w :: ws) ↔
      InstrOk b ns vi e w ∧ InstrsOk b ns (vi + 1) (preludeLen ns w) (extAfter w) ws := by
  have hvi : ∀ i, vi + 1 + i = vi + (i + 1) := fun i => by omega
  constructor
  · exact fun h => ⟨h 0 w e rfl rfl, fun i w' e' hr hw => hvi i ▸ h (i + 1) w' e' hr hw⟩
  · rintro ⟨h0, h⟩ (_ | i) w' e' hr hw
    · cases hr
      cases hw
      exact h0
    · exact hvi i ▸ h i w' e' hr hw

def WalkState.at (e : Option Nat) (n : Nat) (l : Option UOpcode) : WalkState :=
  ⟨e.getD 0, e.isSome, n, l⟩

theorem verifyWalk_cons {st' : WalkState} :
    verifyWalk b ns vi 0 (prevWord b vi) (.at e n l) (w :: ws) = .ok st' ↔
      InstrOk b ns vi e w ∧ verifyWalk b ns (vi + 1) (preludeLen ns w) (some w)
        (.at (extAfter w) (n + (realOps ns 0 [w]).countP takesSite)
          ((realOps ns 0 [w]).getLast?.or l)) ws = .ok st' := by
  rw [verifyWalk.eq_def]
  cases hop : uinstrOpcode w with
  | none =>
    simp only [hop, false_iff, reduceCtorEq, not_and]
    intro h
    obtain ⟨op, h⟩ := h.opcode
    simp [hop] at h
  | some op =>
    simp only [hop, WalkState.at, check_bind_eq_ok, Bool.or_eq_true, Bool.not_eq_true']
    have hpending : (e.isSome = false ∨ opTakesSite op = true) ↔
        (e.isSome → ∀ op', uinstrOpcode w = some op' → opTakesSite op' = true) := by
      cases e.isSome <;> simp [hop]
    by_cases hx : op = .extarg
    · subst hx
      have hlen : preludeLen ns w = 0 := preludeLen_of_ne (by simp [hop])
      simp only [if_true, check_bind_eq_ok, decide_eq_true_eq, hlen, extAfter, hop, realOps,
        Option.getD_some, Option.isSome_some, List.countP_nil, Nat.add_zero,
        List.getLast?_nil, Option.none_or]
      constructor
      · rintro ⟨he, hlast, hrest⟩
        refine ⟨⟨⟨_, hop⟩, hpending.mp he, fun _ => hlast, fun op' h' hne => ?_⟩, hrest⟩
        exact absurd (by simpa [hop, eq_comm] using h') hne
      · rintro ⟨h, hrest⟩
        exact ⟨hpending.mpr h.extarg, h.last hop, hrest⟩
    · have hext : extAfter w = none := by simp [extAfter, hop, hx]
      have hreal : realOps ns 0 [w] = [op] := by
        cases op <;> simp [realOps, hop] at hx ⊢
      simp only [hx, if_false, except_bind_eq_ok, verifyInstr_eq_ok hop, hext, hreal]
      have hafter : (WalkState.mk (e.getD 0) e.isSome n l).after op =
          ⟨(none : Option Nat).getD 0, (none : Option Nat).isSome,
            n + [op].countP takesSite, [op].getLast?.or l⟩ := by
        by_cases hs : (urbiOpcodeShapes op).cKind = .immSite
        · simp [WalkState.after, takesSite, hs]
        · simp [WalkState.after, takesSite, hs]
      constructor
      · rintro ⟨he, skip, ⟨hops, rfl⟩, hrest⟩
        rw [hafter] at hrest
        refine ⟨⟨⟨_, hop⟩, hpending.mp he, ?_, ?_⟩, hrest⟩
        · intro h'
          exact absurd (by simpa [hop] using h') hx
        · intro op' h' _
          obtain rfl : op = op' := by simpa [hop] using h'
          exact hops
      · rintro ⟨h, hrest⟩
        exact ⟨hpending.mpr h.extarg, _, ⟨h.operands op hop hx, rfl⟩, by rw [hafter]; exact hrest⟩

theorem realOps_cons (ns : List (Option UProto)) (w : UInt32) (ws : List UInt32) :
    realOps ns 0 (w :: ws) = realOps ns 0 [w] ++ realOps ns (preludeLen ns w) ws := by
  simp only [realOps]
  rcases uinstrOpcode w with _ | op
  · rfl
  · cases op <;> rfl

theorem verifyWalk_spec (b : Block) (ns : List (Option UProto)) (skip : Nat) (e : Option Nat) (n : Nat)
    (l : Option UOpcode) {ws : List UInt32} (pre : List UInt32) (hpre : b.instructions = pre ++ ws) :
    (InstrsOk b ns pre.length skip e ws →
      ∃ st', verifyWalk b ns pre.length skip (prevWord b pre.length) (.at e n l) ws = .ok st') ∧
    ∀ st', verifyWalk b ns pre.length skip (prevWord b pre.length) (.at e n l) ws = .ok st' →
      InstrsOk b ns pre.length skip e ws ∧ st'.lastOp = (realOps ns skip ws).getLast?.or l ∧
        st'.sitesSeen = n + (realOps ns skip ws).countP takesSite := by
  induction ws generalizing pre skip n e l with
  | nil =>
    have hnil : realOps ns skip [] = [] := by cases skip <;> rfl
    refine ⟨fun _ => ⟨_, by rw [verifyWalk]⟩, fun st' h => ?_⟩
    obtain rfl : WalkState.at e n l = st' := by simpa [verifyWalk] using h
    exact ⟨instrsOk_nil _ _ _ _ _, by simp [hnil, WalkState.at], by simp [hnil, WalkState.at]⟩
  | cons w ws ih =>
    have hpre' : b.instructions = (pre ++ [w]) ++ ws := by simpa using hpre
    have hlen : (pre ++ [w]).length = pre.length + 1 := by simp
    have hprev : prevWord b (pre ++ [w]).length = some w := by
      rw [hlen]; exact prevWord_succ hpre
    cases skip with
    | succ skip =>
      rw [verifyWalk, ← hprev, ← hlen]
      obtain ⟨hcomplete, hsound⟩ := ih skip e n l (pre ++ [w]) hpre'
      refine ⟨fun h => hcomplete (hlen ▸ instrsOk_skip.mp h), fun st' h => ?_⟩
      obtain ⟨hok, hl, hs⟩ := hsound st' h
      exact ⟨instrsOk_skip.mpr (hlen ▸ hok), hl, hs⟩
    | zero =>
      simp only [verifyWalk_cons]
      rw [← hprev, ← hlen]
      constructor
      · intro h
        obtain ⟨h0, hrest⟩ := instrsOk_cons.mp h
        obtain ⟨st', hst⟩ := (ih _ _ _ _ (pre ++ [w]) hpre').1 (hlen ▸ hrest)
        exact ⟨st', h0, hst⟩
      · rintro st' ⟨h0, hst⟩
        obtain ⟨hok, hl, hs⟩ := (ih _ _ _ _ (pre ++ [w]) hpre').2 st' hst
        refine ⟨instrsOk_cons.mpr ⟨h0, hlen ▸ hok⟩, ?_, ?_⟩
        · rw [hl, realOps_cons ns w ws, List.getLast?_append, Option.or_assoc]
        · rw [hs, realOps_cons ns w ws, List.countP_append, Nat.add_assoc]

structure Shaped (b : Block) (ns : List (Option UProto)) : Prop where
  instr : ∀ vi w e, (roles b ns)[vi]? = some (.instr e) → b.instructions[vi]? = some w →
    InstrOk b ns vi e w
  lastRet : (realOps ns 0 b.instructions).getLast? = some .ret
  sites : b.siteCount ≤ (realOps ns 0 b.instructions).countP takesSite

theorem verifyWalkBlock_eq_ok : verifyWalkBlock b ns = .ok u ↔ Shaped b ns := by
  have hinit : WalkState.init = WalkState.at none 0 none := rfl
  have hprev : (none : Option UInt32) = prevWord b ([] : List UInt32).length := rfl
  obtain ⟨hcomplete, hsound⟩ := verifyWalk_spec b ns 0 none 0 none [] rfl
  unfold verifyWalkBlock
  rw [except_bind_eq_ok]
  simp only [check_bind_eq_ok, check_eq_ok, decide_eq_true_eq, bne_iff_ne, ne_eq]
  constructor
  · rintro ⟨st, hwalk, -, hlast, hsites⟩
    rw [hinit, hprev] at hwalk
    obtain ⟨hok, hl, hs⟩ := hsound st hwalk
    refine ⟨fun vi w e hr hw => by simpa using hok vi w e hr hw, ?_, ?_⟩
    · simpa [hl] using hlast
    · simpa [hs] using hsites
  · intro h
    have hok : InstrsOk b ns ([] : List UInt32).length 0 none b.instructions := by
      intro i w e hr hw
      simpa using h.instr i w e hr hw
    obtain ⟨st, hst⟩ := hcomplete hok
    obtain ⟨-, hl, hs⟩ := hsound st hst
    refine ⟨st, hst, ?_, ?_, ?_⟩
    · intro hz
      have hnil : b.instructions = [] := List.eq_nil_of_length_eq_zero hz
      simpa [hnil, realOps] using h.lastRet
    · simpa [hl] using h.lastRet
    · simpa [hs] using h.sites

theorem getLast?_realOps {e' : Option Nat} (hr : (wordRoles ns skip e ws)[i]? = some (.instr e'))
    (hw : ws[i]? = some w) (hop : uinstrOpcode w = some op) (hx : op ≠ .extarg)
    (hend : ws.length ≤ i + 1 + preludeLen ns w) : (realOps ns skip ws).getLast? = some op := by
  induction ws generalizing skip i e with
  | nil => simp at hw
  | cons v ws ih =>
    cases skip with
    | succ skip =>
      cases i with
      | zero => cases hr
      | succ i =>
        rw [realOps]
        exact ih hr hw (by simp at hend; omega)
    | zero =>
      rw [realOps_cons]
      cases i with
      | zero =>
        obtain rfl : v = w := by simpa using hw
        have hreal : realOps ns 0 [v] = [op] := by
          cases op <;> simp [realOps, hop] at hx ⊢
        have htail : ∀ (k : Nat) (us : List UInt32), us.length ≤ k → realOps ns k us = [] := by
          intro k
          induction k with
          | zero | succ k ihk => intro us hus; cases us <;> simp_all [realOps]
        rw [hreal, htail _ ws (by simp at hend; omega)]
        rfl
      | succ i =>
        rw [List.getLast?_append, ih hr hw (by simp at hend; omega)]
        rfl

theorem Shaped.next_lt (h : Shaped b ns) (hr : (roles b ns)[vi]? = some (.instr e))
    (hw : b.instructions[vi]? = some w) (hop : uinstrOpcode w = some op) (hret : op ≠ .ret) :
    vi + 1 + preludeLen ns w < b.instrCount := by
  by_contra hge
  by_cases hx : op = .extarg
  · subst hx
    have hlast := (h.instr vi w e hr hw).last hop
    rw [preludeLen_of_ne (by simp [hop])] at hge
    omega
  · have hlast := getLast?_realOps hr hw hop hx (by unfold Block.instrCount at hge; omega)
    rw [h.lastRet] at hlast
    exact hret (by simpa [eq_comm] using hlast)

/-! ## Pass 2: preludes -/

def WordRole.isPrelude : WordRole → Bool
  | .prelude => true
  | .instr _ => false

def PreludesOk (b : Block) (ns : List (Option UProto)) (skip : Nat) (e : Option Nat)
    (ws : List UInt32) : Prop :=
  ∀ (i : Nat) (w : UInt32), (wordRoles ns skip e ws)[i]? = some WordRole.prelude →
    ws[i]? = some w → preludeOk b w = true

theorem preludesOk_skip :
    PreludesOk b ns (skip + 1) e (w :: ws) ↔ preludeOk b w = true ∧ PreludesOk b ns skip e ws := by
  constructor
  · exact fun h => ⟨h 0 w rfl rfl, fun i => h (i + 1)⟩
  · rintro ⟨h0, h⟩ (_ | i) w' hr hw
    · cases hw
      exact h0
    · exact h i w' hr hw

theorem preludesOk_cons :
    PreludesOk b ns 0 e (w :: ws) ↔ PreludesOk b ns (preludeLen ns w) (extAfter w) ws := by
  constructor
  · exact fun h i => h (i + 1)
  · rintro h (_ | i) w' hr hw
    · cases hr
    · exact h i w' hr hw

theorem verifyPreludes_sound {k' : Nat} {marked : Bool} (e : Option Nat)
    (h : verifyPreludes alloc b ns vi skip marked ws k = .ok (m, k')) :
    m = (wordRoles ns skip e ws).map WordRole.isPrelude ∧ PreludesOk b ns skip e ws := by
  induction ws generalizing vi skip marked m k k' e with
  | nil =>
    have hm : m = [] := by
      cases skip <;> simp [verifyPreludes] at h <;> exact h.1
    subst hm
    exact ⟨by cases skip <;> rfl, fun i w _ hw => by simp at hw⟩
  | cons w ws ih =>
    cases skip with
    | succ skip =>
      rw [verifyPreludes] at h
      obtain ⟨_, k₁, hreq, h⟩ := bind_eq_ok.mp h
      obtain ⟨hok, -⟩ := require_eq_ok.mp hreq
      obtain ⟨rest, k₂, hrest, h⟩ := bind_eq_ok.mp h
      obtain ⟨rfl, hps⟩ := ih e hrest
      cases h
      exact ⟨rfl, preludesOk_skip.mpr ⟨hok, hps⟩⟩
    | zero =>
      rw [verifyPreludes] at h
      by_cases hc : uinstrOpcode w = some .closure
      · have hlen : (nestedAt ns (uinstrBx w)).elim 0 (fun p => p.block.nupvals.toNat) =
            preludeLen ns w := by simp [preludeLen, hc]
        rw [if_pos hc, hlen] at h
        obtain ⟨_, k₁, -, h⟩ := bind_eq_ok.mp h
        obtain ⟨_, k₂, -, h⟩ := bind_eq_ok.mp h
        obtain ⟨rest, k₃, hrest, h⟩ := bind_eq_ok.mp h
        obtain ⟨rfl, hps⟩ := ih (extAfter w) hrest
        cases h
        exact ⟨rfl, preludesOk_cons.mpr hps⟩
      · have hnone : preludeLen ns w = 0 := preludeLen_of_ne hc
        rw [if_neg hc, ← hnone] at h
        obtain ⟨rest, k₁, hrest, h⟩ := bind_eq_ok.mp h
        obtain ⟨rfl, hps⟩ := ih (extAfter w) hrest
        cases h
        exact ⟨rfl, preludesOk_cons.mpr hps⟩

theorem request_ok (halloc : ∀ k, alloc k = true) (hpos : 0 < n) (hlt : n < 2 ^ 64) :
    request alloc n k = .ok ((), k + 1) := by
  simp only [request, halloc, Bool.and_true, decide_eq_true_eq]
  rw [if_pos (by omega)]

theorem verifyPreludes_complete (halloc : ∀ k, alloc k = true) (hsize : b.instrCount < 2 ^ 63)
    (marked : Bool) (hend : vi + ws.length = b.instrCount) (hi : InstrsOk b ns vi skip e ws)
    (hp : PreludesOk b ns skip e ws) :
    ∃ m k', verifyPreludes alloc b ns vi skip marked ws k = .ok (m, k') := by
  induction ws generalizing vi skip marked k e with
  | nil => exact ⟨[], k, by cases skip <;> rfl⟩
  | cons w ws ih =>
    have hend' : vi + 1 + ws.length = b.instrCount := by simp at hend; omega
    cases skip with
    | succ skip =>
      obtain ⟨h0, hp⟩ := preludesOk_skip.mp hp
      obtain ⟨m, k', hm⟩ := ih (k := k) marked hend' (instrsOk_skip.mp hi) hp
      refine ⟨true :: m, k', ?_⟩
      rw [verifyPreludes, bind_of_ok (require_of_true h0), bind_of_ok hm]
      rfl
    | zero =>
      obtain ⟨h0, hi⟩ := instrsOk_cons.mp hi
      have hp := preludesOk_cons.mp hp
      rw [verifyPreludes]
      by_cases hc : uinstrOpcode w = some .closure
      · have hlen : (nestedAt ns (uinstrBx w)).elim 0 (fun p => p.block.nupvals.toNat) =
            preludeLen ns w := by simp [preludeLen, hc]
        obtain ⟨child, hchild, hlt⟩ := (h0.operands _ hc (by decide)).closure rfl
        have hbound : vi + preludeLen ns w < b.instrCount := by
          simpa [preludeLen, hc, hchild] using hlt
        obtain ⟨k₁, hk₁⟩ : ∃ k₁, requestBitmap alloc b (preludeLen ns w) marked k =
            .ok ((), k₁) := by
          unfold requestBitmap
          split
          · exact ⟨_, request_ok halloc (by omega) (by omega)⟩
          · exact ⟨k, rfl⟩
        obtain ⟨m, k', hm⟩ :=
          ih (k := k₁) (marked || decide (preludeLen ns w > 0)) hend' hi hp
        refine ⟨false :: m, k', ?_⟩
        rw [if_pos hc, hlen, bind_of_ok (require_of_true (by simpa using hbound)),
          bind_of_ok hk₁, bind_of_ok hm]
        rfl
      · rw [preludeLen_of_ne hc] at hi hp
        obtain ⟨m, k', hm⟩ := ih (k := k) marked hend' hi hp
        refine ⟨false :: m, k', ?_⟩
        rw [if_neg hc, bind_of_ok hm]
        rfl

/-! ## Pass 2: control transfers -/

def Target (b : Block) (ns : List (Option UProto)) (t : Nat) : Prop :=
  (roles b ns)[t]? = some (.instr none)

def preludeMarks (b : Block) (ns : List (Option UProto)) : List Bool :=
  (roles b ns).map WordRole.isPrelude

theorem isPreludeWord_marks (b : Block) (ns : List (Option UProto)) (i : Nat) :
    isPreludeWord (preludeMarks b ns) i = true ↔ (roles b ns)[i]? = some WordRole.prelude := by
  unfold isPreludeWord preludeMarks
  rw [List.getElem?_map]
  cases (roles b ns)[i]? with
  | none => simp
  | some r => cases r <;> simp [WordRole.isPrelude]

theorem exists_role (ns : List (Option UProto)) {t : Nat} (h : t < b.instrCount) :
    ∃ r, (roles b ns)[t]? = some r := by
  have : t < (roles b ns).length := by simpa using h
  exact ⟨_, List.getElem?_eq_getElem this⟩

theorem verifyTarget_eq_ok {t : Nat} :
    verifyTarget b.instructions (preludeMarks b ns) op t = .ok u ↔ Target b ns t := by
  simp only [verifyTarget, check_bind_eq_ok, check_eq_ok, decide_eq_true_eq, Bool.not_eq_true',
    Bool.and_eq_false_iff, decide_eq_false_iff_not, Target]
  rw [← Bool.not_eq_true, isPreludeWord_marks]
  constructor
  · rintro ⟨hlt, hnp, hnx⟩
    obtain ⟨r, hr⟩ := exists_role ns hlt
    cases r with
    | prelude => exact absurd hr hnp
    | instr e =>
      cases e with
      | none => exact hr
      | some x =>
        -- pending bits would make the previous word a real EXTARG
        obtain ⟨j, w, e, rfl, hw, hrj, hx, -⟩ := extarg_of_wordRoles hr
        rcases hnx with h | h
        · omega
        · have hj : isPreludeWord (preludeMarks b ns) j = false := by
            rw [← Bool.not_eq_true, isPreludeWord_marks]
            intro hp
            rw [roles] at hp
            rw [hp] at hrj
            cases hrj
          simp [isExtarg, hj, hw, hx] at h
  · intro hr
    have hlt : t < b.instructions.length := by
      have := (List.getElem?_eq_some_iff.mp hr).1
      simpa [Block.instrCount] using this
    refine ⟨hlt, by simp [hr], ?_⟩
    by_contra hcon
    obtain ⟨hpos, hx⟩ : 0 < t ∧ isExtarg b.instructions (preludeMarks b ns) (t - 1) = true := by
      simpa [not_or, Nat.pos_iff_ne_zero] using hcon
    obtain ⟨j, rfl⟩ : ∃ j, t = j + 1 := ⟨t - 1, by omega⟩
    have hjlt : j < b.instructions.length := by omega
    have hw : b.instructions[j]? = some b.instructions[j] := List.getElem?_eq_getElem hjlt
    simp only [isExtarg, Nat.add_sub_cancel, Bool.and_eq_true, Bool.not_eq_true',
      decide_eq_true_eq, hw, Option.bind_some] at hx
    obtain ⟨hnp, hop⟩ := hx
    obtain ⟨r, hrj⟩ := exists_role (b := b) ns hjlt
    cases r with
    | prelude =>
      rw [(isPreludeWord_marks b ns j).mpr hrj] at hnp
      cases hnp
    | instr e =>
      have hlen : preludeLen ns b.instructions[j] = 0 := preludeLen_of_ne (by simp [hop])
      have hnext := roles_next hrj hw (by rw [hlen]; simpa [Block.instrCount] using hlt)
      rw [hlen, Nat.add_zero, hr] at hnext
      simp [extAfter, hop] at hnext

structure TransferOk (b : Block) (ns : List (Option UProto)) (vi : Nat) (op : UOpcode)
    (w : UInt32) : Prop where
  jmp : op = .jmp → 0 ≤ verifiedJmpTarget vi w ∧ Target b ns (verifiedJmpTarget vi w).toNat
  call : op = .call → uinstrC w % 0x80 ≠ 0
  skip : opMaySkip op w = true → Target b ns (vi + 2)
  handler : (urbiOpcodeShapes op).bxKind = .handlerPc → Target b ns (uinstrBx w)

theorem bxKind_of_opMaySkip (h : opMaySkip op w = true) :
    (urbiOpcodeShapes op).bxKind ≠ .handlerPc := by
  intro hk
  have hop : op = .scopeTry ∨ op = .scopeTag ∨ op = .unwindTo := by
    revert hk
    cases op <;> decide
  rcases hop with rfl | rfl | rfl <;> simp [opMaySkip] at h

theorem verifyTransfer_eq_ok :
    verifyTransfer b (preludeMarks b ns) vi op w = .ok u ↔ TransferOk b ns vi op w := by
  unfold verifyTransfer
  by_cases hj : op = .jmp
  · subst hj
    simp only [if_true, check_bind_eq_ok, decide_eq_true_eq, verifyTarget_eq_ok]
    exact ⟨fun h => ⟨fun _ => h, by rintro ⟨⟩, by rintro ⟨⟩, by rintro ⟨⟩⟩, fun h => h.jmp rfl⟩
  by_cases hc : op = .call
  · subst hc
    simp only [hj, if_false, if_true, check_eq_ok, bne_iff_ne]
    exact ⟨fun h => ⟨by rintro ⟨⟩, fun _ => h, by rintro ⟨⟩, by rintro ⟨⟩⟩, fun h => h.call rfl⟩
  rw [if_neg hj, if_neg hc]
  by_cases hs : opMaySkip op w = true
  · rw [if_pos hs, verifyTarget_eq_ok]
    exact ⟨fun h => ⟨fun h' => absurd h' hj, fun h' => absurd h' hc, fun _ => h,
      fun h' => absurd h' (bxKind_of_opMaySkip hs)⟩, fun h => h.skip hs⟩
  · rw [if_neg hs]
    by_cases hh : (urbiOpcodeShapes op).bxKind = .handlerPc
    · rw [if_pos hh, verifyTarget_eq_ok]
      exact ⟨fun h => ⟨fun h' => absurd h' hj, fun h' => absurd h' hc, fun h' => absurd h' hs,
        fun _ => h⟩, fun h => h.handler hh⟩
    · rw [if_neg hh]
      exact ⟨fun _ => ⟨fun h' => absurd h' hj, fun h' => absurd h' hc, fun h' => absurd h' hs,
        fun h' => absurd h' hh⟩, fun _ => rfl⟩

theorem verifyTransferAt_eq_ok : verifyTransferAt b m vi w = .ok u ↔
      ∀ op, isPreludeWord m vi = false → uinstrOpcode w = some op →
        verifyTransfer b m vi op w = .ok () := by
  unfold verifyTransferAt
  cases isPreludeWord m vi with
  | true => simp
  | false => cases uinstrOpcode w <;> simp

theorem verifyTransfers_eq_ok : verifyTransfers b m vi ws = .ok u ↔
      ∀ i w op, isPreludeWord m (vi + i) = false → ws[i]? = some w → uinstrOpcode w = some op →
        verifyTransfer b m (vi + i) op w = .ok () := by
  induction ws generalizing vi with
  | nil => simp [verifyTransfers]
  | cons w ws ih =>
    rw [verifyTransfers, except_bind_eq_ok]
    simp only [ih]
    have hvi : ∀ i, vi + 1 + i = vi + (i + 1) := fun i => by omega
    simp only [hvi]
    constructor
    · rintro ⟨⟨⟩, h0, h⟩ (_ | i) w' op hp hw hop
      · cases hw
        exact verifyTransferAt_eq_ok.mp h0 op hp hop
      · exact h i w' op hp hw hop
    · intro h
      exact ⟨(), verifyTransferAt_eq_ok.mpr fun op hp hop => h 0 w op hp rfl hop, fun i => h (i + 1)⟩

/-! ## Whole trees -/

structure WellFormed (b : Block) (ns : List (Option UProto)) : Prop where
  shaped : Shaped b ns
  preludes : PreludesOk b ns 0 none b.instructions
  transfers : ∀ vi w e op, (roles b ns)[vi]? = some (.instr e) → b.instructions[vi]? = some w →
    uinstrOpcode w = some op → TransferOk b ns vi op w

def WellFormedTree (p : UProto) : Prop :=
  ∀ q, UProto.Within q p → WellFormed q.block q.nested

theorem verifyProtosRecursive_eq_ok :
    verifyProtosRecursive ns = .ok u ↔ ∀ c, some c ∈ ns → verifyProtoRecursive c = .ok () := by
  induction ns with
  | nil => simp [verifyProtosRecursive]
  | cons o ns ih =>
    cases o with
    | none => simp [verifyProtosRecursive, ih]
    | some p =>
      rw [verifyProtosRecursive, except_bind_eq_ok]
      simp only [ih, List.mem_cons, Option.some.injEq, forall_eq_or_imp]
      exact ⟨fun ⟨_, h⟩ => h, fun h => ⟨(), h⟩⟩

theorem verifyProtoRecursive_eq_ok :
    verifyProtoRecursive p = .ok u ↔ ∀ q, UProto.Within q p → Shaped q.block q.nested := by
  induction p using UProto.tree_induction generalizing u with
  | step b ns ih =>
    rw [verifyProtoRecursive, except_bind_eq_ok]
    simp only [verifyWalkBlock_eq_ok, verifyProtosRecursive_eq_ok, UProto.within_mk_iff]
    constructor
    · rintro ⟨-, hb, hns⟩ q (rfl | ⟨c, hc, hq⟩)
      · exact hb
      · exact (ih c hc).mp (hns c hc) q hq
    · intro h
      exact ⟨(), h _ (.inl rfl), fun c hc => (ih c hc).mpr fun q hq => h q (.inr ⟨c, hc, hq⟩)⟩

theorem verifyTransfers_marks : verifyTransfers b (preludeMarks b ns) 0 b.instructions = .ok u ↔
      ∀ vi w e op, (roles b ns)[vi]? = some (.instr e) → b.instructions[vi]? = some w →
        uinstrOpcode w = some op → TransferOk b ns vi op w := by
  simp only [verifyTransfers_eq_ok, verifyTransfer_eq_ok, Nat.zero_add]
  constructor
  · intro h vi w e op hr hw hop
    refine h vi w op ?_ hw hop
    rw [← Bool.not_eq_true, isPreludeWord_marks, hr]
    nofun
  · intro h i w op hnp hw hop
    obtain ⟨r, hr⟩ := exists_role ns (List.getElem?_eq_some_iff.mp hw).1
    cases r with
    | prelude => rw [(isPreludeWord_marks b ns i).mpr hr] at hnp; cases hnp
    | instr e => exact h i w e op hr hw hop

theorem verifyBoundsProtos_ok {r : Unit × Nat} (h : verifyBoundsProtos alloc ns k = .ok r) :
    ∀ c, some c ∈ ns → ∃ k r, verifyBoundsProto alloc c k = .ok r := by
  induction ns generalizing k with
  | nil => nofun
  | cons o ns ih =>
    cases o with
    | none => simpa using ih h
    | some p =>
      rw [verifyBoundsProtos, bind_eq_ok] at h
      obtain ⟨a, k', hp, h⟩ := h
      intro c hc
      rcases List.mem_cons.mp hc with hc | hc
      · cases hc
        exact ⟨k, _, hp⟩
      · exact ih h c hc

theorem verifyBoundsProtos_total
    (h : ∀ c, some c ∈ ns → ∀ k, ∃ k', verifyBoundsProto alloc c k = .ok ((), k')) (k : Nat) :
    ∃ k', verifyBoundsProtos alloc ns k = .ok ((), k') := by
  induction ns generalizing k with
  | nil => exact ⟨k, rfl⟩
  | cons o ns ih =>
    have ih := ih fun c hc => h c (.tail _ hc)
    cases o with
    | none => exact ih k
    | some c =>
      obtain ⟨k', hk'⟩ := h c (.head _) k
      obtain ⟨k'', hk''⟩ := ih k'
      exact ⟨k'', by rw [verifyBoundsProtos, bind_of_ok hk', hk'']⟩

theorem verifyBoundsProto_sound {r : Unit × Nat}
    (hs : ∀ q, UProto.Within q p → Shaped q.block q.nested)
    (h : verifyBoundsProto alloc p k = .ok r) : WellFormedTree p := by
  induction p using UProto.tree_induction generalizing k r with
  | step b ns ih =>
    rw [verifyBoundsProto, bind_eq_ok] at h
    obtain ⟨m, k₁, hm, h⟩ := h
    obtain ⟨rfl, hpre⟩ := verifyPreludes_sound none hm
    rw [bind_eq_ok] at h
    obtain ⟨_, k₂, htr, h⟩ := h
    have htr : ∃ u, verifyTransfers b (preludeMarks b ns) 0 b.instructions = .ok u := by
      cases ht : verifyTransfers b (preludeMarks b ns) 0 b.instructions with
      | ok u => exact ⟨u, rfl⟩
      | error e => simp [preludeMarks, roles] at ht; simp [ht, Except.map] at htr
    obtain ⟨u, htr⟩ := htr
    intro q hq
    rcases UProto.within_mk_iff.mp hq with rfl | ⟨c, hc, hq⟩
    · exact ⟨hs _ (.refl _), hpre, verifyTransfers_marks.mp htr⟩
    · obtain ⟨k, r, hrun⟩ := verifyBoundsProtos_ok h c hc
      exact ih c hc (fun q hq => hs q (.child hc hq)) hrun q hq

theorem verifyBoundsProto_complete (halloc : ∀ k, alloc k = true) (hp : WellFormedTree p)
    (hsize : ∀ q, UProto.Within q p → q.block.instrCount < 2 ^ 63) (k : Nat) :
    ∃ k', verifyBoundsProto alloc p k = .ok ((), k') := by
  induction p using UProto.tree_induction generalizing k with
  | step b ns ih =>
    have hb : WellFormed b ns := hp _ (.refl _)
    have hinstrs : InstrsOk b ns 0 0 none b.instructions := by
      intro i w e hr hw
      simpa using hb.shaped.instr i w e hr hw
    have hcount : b.instrCount < 2 ^ 63 := hsize _ (.refl _)
    obtain ⟨m, k₁, hm⟩ := verifyPreludes_complete (k := k) halloc hcount false
      (by simp [Block.instrCount]) hinstrs hb.preludes
    obtain ⟨rfl, -⟩ := verifyPreludes_sound none hm
    have htr : verifyTransfers b (preludeMarks b ns) 0 b.instructions = .ok () :=
      verifyTransfers_marks.mpr hb.transfers
    obtain ⟨k', hk'⟩ := verifyBoundsProtos_total (fun c hc => ih c hc
      (fun q hq => hp q (.child hc hq)) fun q hq => hsize q (.child hc hq)) k₁
    refine ⟨k', ?_⟩
    rw [verifyBoundsProto, bind_of_ok hm]
    show (liftM (verifyTransfers b (preludeMarks b ns) 0 b.instructions) >>= fun _ =>
      verifyBoundsProtos alloc ns) k₁ = _
    rw [htr, bind_of_ok (lift_ok ())]
    exact hk'

theorem verify_passes_iff (halloc : ∀ k, alloc k = true)
    (hsize : ∀ q, UProto.Within q p → q.block.instrCount < 2 ^ 63) (k : Nat) :
    (verifyProtoRecursive p = .ok () ∧ ∃ r, verifyBoundsProto alloc p k = .ok r) ↔
      WellFormedTree p := by
  constructor
  · rintro ⟨h1, r, h2⟩
    exact verifyBoundsProto_sound (verifyProtoRecursive_eq_ok.mp h1) h2
  · intro h
    obtain ⟨k', hk'⟩ := verifyBoundsProto_complete halloc h hsize k
    exact ⟨verifyProtoRecursive_eq_ok.mpr fun q hq => (h q hq).shaped, _, hk'⟩

end Urbi
