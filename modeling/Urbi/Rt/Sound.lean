import Urbi.Chunk.RoundTrip
import Urbi.Rt.Invariant

/-!
# Loaded code dispatches safely

`registersOf` says which registers an arm names, `Dispatchable` what it relies on, and the judgement
"`pc` is an instruction expecting the pending site bits" is a typing of every function the loader
accepts.
-/

namespace Urbi

open Lib

/-! ## What an arm names -/

def preludeWords (b : Block) (ns : List (Option UProto)) (pc : Nat) (w : UInt32) : List UInt32 :=
  (b.instructions.drop (pc + 1)).take (preludeLen ns w)

def registersOf (b : Block) (ns : List (Option UProto)) (pc : Nat) (op : UOpcode) (w : UInt32) :
    List Nat :=
  let ra := uinstrA w
  let rb := uinstrB w
  let rc := uinstrC w
  match op with
  | .loadk | .loadnil | .loadvoid | .loadbool | .ret | .getupval | .setupval | .close | .test
  | .throw | .joinWait | .loadCatchValue | .loadRealmGlobal | .loadRecv => [ra]
  | .move | .neg | .testset | .getslot | .setslot | .setslotUpdate | .getslotChangeEvent => [ra, rb]
  | .add | .sub | .mul | .div => [ra, rb, rc]
  -- the first operand of a comparison is the truth value wanted
  | .eq | .lt | .le => [rb, rc]
  | .self => [ra, ra + 1, rb]
  | .install => [ra, ra + 1, ra + 2]
  -- callee, receiver and arguments
  | .call => ra :: (List.range rb).map (ra + ·)
  | .fork => if rc = uforkJoin then [ra, rb] else [ra]
  | .scopeTag => if ra = uscopeNoReg then [] else [ra]
  | .closure => ra :: ((preludeWords b ns pc w).filter (uinstrB · ≠ 0)).map uinstrC
  | .jmp | .yield | .scopeTry | .scopePop | .resume | .extarg | .unwindTo => []

/-! ## What dispatch relies on -/

structure Dispatchable (b : Block) (ns : List (Option UProto)) (pc : Nat) (ext : Option Nat)
    (op : UOpcode) (w : UInt32) : Prop where
  inside : b.instructions[pc]? = some w
  opcode : uinstrOpcode w = some op
  -- no word of a prelude, and after an `EXTARG` only with its bits pending
  role : (roles b ns)[pc]? = some (.instr ext)
  registers : ∀ r ∈ registersOf b ns pc op w, r ≤ b.maxReg.toNat
  constant : op = .loadk → uinstrBx w < b.constCount
  nested : op = .closure → ∃ child, nestedAt ns (uinstrBx w) = some child
  site : opTakesSite op = true → ext.getD 0 + uinstrC w < b.siteCount

section WellFormed

variable {b : Block} {ns : List (Option UProto)} {pc : Nat} {e : Option Nat} {w : UInt32}
  {op : UOpcode}

theorem roles_prelude (hr : (roles b ns)[pc]? = some (.instr e))
    (hw : b.instructions[pc]? = some w) {k : Nat} (hk : k < preludeLen ns w)
    (hlt : pc + 1 + k < b.instrCount) : (roles b ns)[pc + 1 + k]? = some .prelude := by
  have hpc : pc < b.instructions.length := (List.getElem?_eq_some_iff.mp hw).1
  have hdrop : b.instructions.drop pc = w :: b.instructions.drop (pc + 1) := by
    rw [List.drop_eq_getElem_cons hpc, (List.getElem?_eq_some_iff.mp hw).2]
  have hroles := drop_wordRoles hr
  rw [hdrop, wordRoles] at hroles
  have hidx : (roles b ns)[pc + 1 + k]? = ((roles b ns).drop pc)[k + 1]? := by
    rw [List.getElem?_drop, show pc + (k + 1) = pc + 1 + k by omega]
  rw [hidx, roles, hroles, List.getElem?_cons_succ]
  -- inside the prelude the role does not depend on the word
  have hskip : ∀ (k skip : Nat) (e : Option Nat) (ws : List UInt32), k < skip → k < ws.length →
      (wordRoles ns skip e ws)[k]? = some .prelude := by
    intro k
    induction k with
    | zero =>
      intro skip e ws hk hlen
      cases skip with
      | zero => omega
      | succ skip =>
        cases ws with
        | nil => simp at hlen
        | cons v ws => rfl
    | succ k ih =>
      intro skip e ws hk hlen
      cases skip with
      | zero => omega
      | succ skip =>
        cases ws with
        | nil => simp at hlen
        | cons v ws =>
          rw [wordRoles, List.getElem?_cons_succ]
          exact ih skip e ws (by omega) (by simpa using hlen)
  apply hskip _ _ _ _ hk
  rw [List.length_drop]
  unfold Block.instrCount at hlt
  omega

theorem WellFormed.captured (h : WellFormed b ns) (hr : (roles b ns)[pc]? = some (.instr e))
    (hw : b.instructions[pc]? = some w) {v : UInt32} (hv : v ∈ preludeWords b ns pc w)
    (hin : uinstrB v ≠ 0) : uinstrC v ≤ b.maxReg.toNat := by
  obtain ⟨k, hk⟩ := List.getElem?_of_mem hv
  unfold preludeWords at hk
  rw [List.getElem?_take] at hk
  split at hk
  · rename_i hlen
    rw [List.getElem?_drop] at hk
    have hlt : pc + 1 + k < b.instrCount := (List.getElem?_eq_some_iff.mp hk).1
    have hok := h.preludes (pc + 1 + k) v (roles_prelude hr hw hlen hlt) hk
    unfold preludeOk at hok
    rw [Bool.and_eq_true, decide_eq_true_eq] at hok
    have hone : uinstrB v = 1 := by omega
    simpa [hone] using hok.2
  · cases hk

theorem OperandsOk.regA {ext : Nat} (h : OperandsOk b ns pc ext op w)
    (hk : (urbiOpcodeShapes op).aKind = .reg) : uinstrA w ≤ b.maxReg.toNat := by
  have := h.opA
  rw [hk] at this
  simpa [byteOperandOk] using this

theorem OperandsOk.regB {ext : Nat} (h : OperandsOk b ns pc ext op w)
    (hf : (urbiOpcodeShapes op).format = .abc) (hk : (urbiOpcodeShapes op).bKind = .reg) :
    uinstrB w ≤ b.maxReg.toNat := by
  have := h.opB hf
  rw [hk] at this
  simpa [byteOperandOk] using this

theorem OperandsOk.regC {ext : Nat} (h : OperandsOk b ns pc ext op w)
    (hf : (urbiOpcodeShapes op).format = .abc) (hk : (urbiOpcodeShapes op).cKind = .reg) :
    uinstrC w ≤ b.maxReg.toNat := by
  have := h.opC hf
  rw [hk] at this
  simpa [byteOperandOk] using this

theorem WellFormed.registers (h : WellFormed b ns) (hr : (roles b ns)[pc]? = some (.instr e))
    (hw : b.instructions[pc]? = some w) (hop : uinstrOpcode w = some op) :
    ∀ r ∈ registersOf b ns pc op w, r ≤ b.maxReg.toNat := by
  by_cases hx : op = .extarg
  · subst hx; exact nofun
  have hok := (h.shaped.instr pc w e hr hw).operands op hop hx
  have hpair : ∀ {x y : Nat}, x ≤ b.maxReg.toNat → y ≤ b.maxReg.toNat →
      ∀ r ∈ [x, y], r ≤ b.maxReg.toNat := fun hx hy =>
    List.forall_mem_cons.mpr ⟨hx, List.forall_mem_singleton.mpr hy⟩
  cases op with
  | jmp | yield | scopeTry | scopePop | resume | extarg | unwindTo => exact nofun
  | loadk | loadnil | loadvoid | loadbool | ret | getupval | setupval | close | test
  | throw | joinWait | loadCatchValue | loadRealmGlobal | loadRecv =>
    exact List.forall_mem_singleton.mpr (hok.regA rfl)
  | move | neg | testset | getslot | setslot | setslotUpdate | getslotChangeEvent =>
    exact hpair (hok.regA rfl) (hok.regB rfl rfl)
  | add | sub | mul | div =>
    exact List.forall_mem_cons.mpr ⟨hok.regA rfl, hpair (hok.regB rfl rfl) (hok.regC rfl rfl)⟩
  | eq | lt | le => exact hpair (hok.regB rfl rfl) (hok.regC rfl rfl)
  | self =>
    have hnext := hok.abc rfl
    rw [abcRulesOk, decide_eq_true_eq] at hnext
    exact List.forall_mem_cons.mpr ⟨hok.regA rfl, hpair hnext (hok.regB rfl rfl)⟩
  | install =>
    have hnext := hok.abc rfl
    simp only [abcRulesOk, Bool.and_eq_true, decide_eq_true_eq] at hnext
    exact List.forall_mem_cons.mpr ⟨by omega, hpair (by omega) (by omega)⟩
  | fork =>
    have hrule := hok.abc rfl
    simp only [registersOf]
    split
    · rename_i hjoin
      refine hpair (hok.regA rfl) ?_
      -- a joining fork names a register for its handle
      have hb : byteOperandOk (uinstrB w) .regOrNone b.maxReg.toNat = true := hok.opB rfl
      simp only [byteOperandOk, Bool.or_eq_true, decide_eq_true_eq] at hb
      simp only [abcRulesOk, hjoin] at hrule
      rcases hb with hb | hb
      · simp [hb, uforkJoin, uforkDetach] at hrule
      · exact hb
    · exact List.forall_mem_singleton.mpr (hok.regA rfl)
  | scopeTag =>
    simp only [registersOf]
    split
    · exact nofun
    · rename_i hne
      have ha : byteOperandOk (uinstrA w) .regOrNone b.maxReg.toNat = true := hok.opA
      simp only [byteOperandOk, Bool.or_eq_true, decide_eq_true_eq] at ha
      exact List.forall_mem_singleton.mpr (ha.resolve_left hne)
  | closure =>
    refine List.forall_mem_cons.mpr ⟨hok.regA rfl, List.forall_mem_map.mpr fun v hv => ?_⟩
    rw [List.mem_filter, decide_eq_true_eq] at hv
    exact h.captured hr hw hv.1 hv.2
  | call =>
    have hwin := hok.abc rfl
    rw [abcRulesOk, decide_eq_true_eq] at hwin
    refine List.forall_mem_cons.mpr ⟨hok.regA rfl, List.forall_mem_map.mpr fun k hk => ?_⟩
    rw [List.mem_range] at hk
    omega

theorem WellFormed.dispatchable (h : WellFormed b ns) (hr : (roles b ns)[pc]? = some (.instr e)) :
    ∃ op w, Dispatchable b ns pc e op w := by
  have hlt : pc < b.instructions.length := by
    have := (List.getElem?_eq_some_iff.mp hr).1
    rwa [length_roles] at this
  obtain ⟨w, hw⟩ : ∃ w, b.instructions[pc]? = some w := ⟨_, List.getElem?_eq_getElem hlt⟩
  have hinstr := h.shaped.instr pc w e hr hw
  obtain ⟨op, hop⟩ := hinstr.opcode
  refine ⟨op, w, hw, hop, hr, h.registers hr hw hop, ?_, ?_, ?_⟩
  · rintro rfl
    have hbx := (hinstr.operands _ hop (by decide)).bx rfl
    exact of_decide_eq_true hbx
  · rintro rfl
    obtain ⟨child, hchild, -⟩ := (hinstr.operands _ hop (by decide)).closure rfl
    exact ⟨child, hchild⟩
  · intro hsite
    have hx : op ≠ .extarg := by rintro rfl; cases hsite
    have hok := hinstr.operands _ hop hx
    cases op <;> first | exact hok.site rfl rfl | cases hsite

theorem WellFormed.next (h : WellFormed b ns) (hr : (roles b ns)[pc]? = some (.instr e))
    (hw : b.instructions[pc]? = some w) (hop : uinstrOpcode w = some op) (hret : op ≠ .ret) :
    (roles b ns)[pc + 1 + preludeLen ns w]? = some (.instr (extAfter w)) :=
  roles_next hr hw (h.shaped.next_lt hr hw hop hret)

theorem WellFormed.next_plain (h : WellFormed b ns) (hr : (roles b ns)[pc]? = some (.instr e))
    (hw : b.instructions[pc]? = some w) (hop : uinstrOpcode w = some op) (hret : op ≠ .ret)
    (hx : op ≠ .extarg) (hc : op ≠ .closure) : (roles b ns)[pc + 1]? = some (.instr none) := by
  have hnext := h.next hr hw hop hret
  have hlen : preludeLen ns w = 0 := preludeLen_of_ne (by rw [hop]; simpa using hc)
  have hext : extAfter w = none := by
    unfold extAfter
    rw [if_neg (by rw [hop]; simpa using hx)]
  rwa [hlen, hext] at hnext

end WellFormed

/-! ## The typing of loaded code -/

/-- The functions of the chunks `uchunk_deserialize` accepts. -/
def loaded : CodeBase where
  has p := ∃ alloc buf c, uchunkDeserialize alloc buf = .ok c ∧ UProto.Within p c.root
  nested := by
    rintro p q ⟨alloc, buf, c, hload, hp⟩ hq
    exact ⟨alloc, buf, c, hload, (UProto.within_of_mem_nested hq).trans hp⟩

theorem wellFormed_of_loaded (p : Fn loaded) : WellFormed p.val.block p.val.nested := by
  obtain ⟨p, alloc, buf, c, hload, hp⟩ := p
  unfold uchunkDeserialize at hload
  rw [except_bind_eq_ok] at hload
  obtain ⟨⟨c', d⟩, -, hload⟩ := hload
  rw [except_bind_eq_ok] at hload
  obtain ⟨_, hwalk, hload⟩ := hload
  rw [except_bind_eq_ok] at hload
  obtain ⟨r, hbounds, hload⟩ := hload
  cases hload
  exact verifyBoundsProto_sound (verifyProtoRecursive_eq_ok.mp hwalk) hbounds p hp

theorem jumpTarget_ofNat {L : CodeBase} {n : Nat} (h : n < 2 ^ 16) :
    UStrand.jumpTarget (L := L) (.int (Int64.ofNat n)) = n := by
  show (Int64.ofNat n).toInt.toNat = n
  rw [Int64.toInt_ofNat_of_lt (by omega)]
  rfl

theorem uinstrBx_lt (w : UInt32) : uinstrBx w < 2 ^ 16 := Nat.mod_lt _ (by decide)

section Loaded

variable {p : Fn loaded} {pc : Nat} {e : Option Nat} {w : UInt32} {op : UOpcode}

def AtInstr (p : Fn loaded) (pc : Nat) (ext : Option Nat) : Prop :=
  (roles p.val.block p.val.nested)[pc]? = some (.instr ext)

theorem AtInstr.start (p : Fn loaded) : AtInstr p 0 none := by
  have hlast := (wellFormed_of_loaded p).shaped.lastRet
  unfold AtInstr roles
  cases hws : p.val.block.instructions with
  | nil => rw [hws] at hlast; cases hlast
  | cons w ws => rfl

theorem AtInstr.noExt (h : AtInstr p pc e) (hw : p.word pc op w) (hs : opTakesSite op = false) :
    e = none := by
  have hext := ((wellFormed_of_loaded p).shaped.instr pc w e h hw.1).extarg
  cases e with
  | none => rfl
  | some x =>
    rw [hext rfl op hw.2] at hs
    cases hs

theorem AtInstr.next (h : AtInstr p pc e) (hw : p.word pc op w) (hret : op ≠ .ret)
    (hx : op ≠ .extarg) (hc : op ≠ .closure) : AtInstr p (pc + 1) none :=
  (wellFormed_of_loaded p).next_plain h hw.1 hw.2 hret hx hc

theorem AtInstr.transfer (h : AtInstr p pc e) (hw : p.word pc op w) :
    TransferOk p.val.block p.val.nested pc op w :=
  (wellFormed_of_loaded p).transfers pc w e op h hw.1 hw.2

theorem falls_ne {op : UOpcode} (h : falls op = true) :
    op ≠ .ret ∧ op ≠ .extarg ∧ op ≠ .closure := by
  refine ⟨?_, ?_, ?_⟩ <;> rintro rfl <;> cases h

theorem AtInstr.extarg (h : AtInstr p pc e) (hw : p.word pc .extarg w) :
    AtInstr p (pc + 1) (some (uinstrBx w * 2 ^ 8)) := by
  have hnext := (wellFormed_of_loaded p).next h hw.1 hw.2 (by decide)
  rw [preludeLen_of_ne (by rw [hw.2]; decide)] at hnext
  unfold extAfter at hnext
  rwa [if_pos hw.2] at hnext

theorem AtInstr.closure (h : AtInstr p pc e) (hw : p.word pc .closure w) {child : UProto}
    (hchild : nestedAt p.val.nested (uinstrBx w) = some child) :
    AtInstr p (pc + 1 + child.block.nupvals.toNat) none := by
  have hnext := (wellFormed_of_loaded p).next h hw.1 hw.2 (by decide)
  have hlen : preludeLen p.val.nested w = child.block.nupvals.toNat := by
    unfold preludeLen
    rw [if_pos hw.2, hchild]
    rfl
  unfold extAfter at hnext
  rwa [hlen, if_neg (by rw [hw.2]; decide)] at hnext

theorem AtInstr.scopeTry_flags (h : AtInstr p pc e) (hw : p.word pc .scopeTry w) :
    (uinstrA w).testBit 5 = false := by
  have hinstr := (wellFormed_of_loaded p).shaped.instr pc w e h hw.1
  rcases (hinstr.operands _ hw.2 (by decide)).flags rfl with hf | hf <;> rw [hf] <;> decide

end Loaded

def loadedJudgement : Judgement loaded where
  At p pc ext _ := AtInstr p pc ext
  rest ext := ext = none
  strict := False

theorem AtInstr.rests {p : Fn loaded} {pc : Nat} (h : AtInstr p pc none)
    (σ : List (UCleanup loaded)) : loadedJudgement.Rests p pc σ := by
  rintro _ rfl
  exact h

def loadedTyping : Typing loaded where
  toJudgement := loadedJudgement
  rest_none := rfl
  start p := (AtInstr.start p).rests []
  unknown h hw hop := by
    obtain ⟨op, w, hd⟩ := (wellFormed_of_loaded _).dispatchable h
    rw [hd.inside] at hw
    cases hw
    rw [hd.opcode] at hop
    cases hop
  keepsExt h hw hs _ := AtInstr.noExt h hw hs
  next h hw hf := (AtInstr.next h hw (falls_ne hf).1 (falls_ne hf).2.1 (falls_ne hf).2.2).rests _
  skip h hw hs := AtInstr.rests ((AtInstr.transfer h hw).skip hs) _
  jmp h hw _ := AtInstr.rests ((AtInstr.transfer h hw).jmp rfl).2 _
  extarg h hw := AtInstr.extarg h hw
  closure h hw hchild := (AtInstr.closure h hw hchild).rests _
  scopeTry := by
    intro p pc ext σ w d h hw hkind hflags hpc
    have hrun : d.running = false := by
      show d.flags.testBit 5 = false
      rw [hflags]
      exact AtInstr.scopeTry_flags h hw
    have hhandler : AtInstr p d.handlerPc none := hpc ▸ (AtInstr.transfer h hw).handler rfl
    refine ⟨(AtInstr.next h hw (by decide) (by decide) (by decide)).rests _, ?_⟩
    exact entryOk_try hkind hrun hhandler.rests
  scopeTag := by
    intro p pc ext σ w d h hw hkind hflags hpc
    have hhandler : AtInstr p d.onleavePc none := hpc ▸ (AtInstr.transfer h hw).handler rfl
    refine ⟨(AtInstr.next h hw (by decide) (by decide) (by decide)).rests _, ?_⟩
    exact entryOk_tag hkind hflags (hhandler.rests _)
  scopePop h hw _ := (AtInstr.next h hw (by decide) (by decide) (by decide)).rests _
  unwindTo := by
    intro p pc ext σ w h hw
    refine ⟨False.elim, fun _ => ?_⟩
    rw [jumpTarget_ofNat (uinstrBx_lt w)]
    exact AtInstr.rests ((AtInstr.transfer h hw).handler rfl) _
  popOk h := h.elim
  resumeOk h := h.elim

/-! ## Progress -/

theorem arm_isSome {L : CodeBase} {o : Oracle L} {win : Window L} {may : Bool} {ext : Nat}
    {op : UOpcode} {i : UInt32} (hne : op ≠ .closure) : (arm o win may ext op i).isSome = true := by
  cases op <;> first | rfl | exact absurd rfl hne | (simp only [arm]; split <;> rfl)

theorem armOfClosure_isSome {L : CodeBase} {o : Oracle L} {win : Window L} {dst bx : Nat}
    (h : ∀ child, nestedAt win.frame.proto.val.nested bx = some child →
      win.frame.pc + child.block.nupvals.toNat ≤ win.block.instrCount) :
    (armOfClosure o win dst bx).isSome = true := by
  unfold armOfClosure
  split
  · rfl
  · rename_i child hchild
    have hle := h child hchild
    dsimp only
    split
    · rfl
    · rw [if_neg]
      · rfl
      · rw [List.length_take, List.length_drop]
        unfold Block.instrCount at hle
        omega

theorem perform_isSome {L : CodeBase} {s : UStrand L} {o : Oracle L} {f : UFrame L} {a : Arm L}
    (h : ∀ off : Int, a = .jmp off → 0 ≤ (f.pc : Int) + off - (if off < 0 then 1 else 0)) :
    (Config.perform s o f a).isSome = true := by
  cases a with
  | jmp off =>
    have hle := h off rfl
    simp only [Config.perform]
    rw [if_neg (by omega)]
    rfl
  | joinWait finished =>
    simp only [Config.perform]
    split
    · rfl
    · split <;> rfl
  | pushTry flags handler | pushTag t handler => simp only [Config.perform]; split <;> rfl
  | _ => rfl

section Progress

variable {s : UStrand loaded} {f : UFrame loaded} {fs : List (UFrame loaded)} {e : Option Nat}
  {o : Oracle loaded}

theorem dispatchStep_isSome (hf : s.frames = f :: fs) (hat : AtInstr f.proto f.pc e)
    (b : Option Nat) (rest : List (Act loaded)) (flags : Nat → UInt8) :
    (Config.dispatchStep s o b e rest flags).isSome = true := by
  obtain ⟨op, w, hd⟩ := (wellFormed_of_loaded f.proto).dispatchable hat
  have hw : f.proto.word f.pc op w := ⟨hd.inside, hd.opcode⟩
  unfold Config.dispatchStep
  rw [Config.fetch_eq hf hd.inside]
  simp only [Option.bind_eq_bind, Option.bind_some, hd.opcode]
  have harm : (arm o ((s.setPc (f.pc + 1)).window { f with pc := f.pc + 1 })
      (s.setPc (f.pc + 1)).mayDeschedule (e.getD 0) op w).isSome = true := by
    by_cases hop : op = .closure
    · subst hop
      apply armOfClosure_isSome
      intro child hchild
      have hinstr := (wellFormed_of_loaded f.proto).shaped.instr f.pc w e hat hd.inside
      obtain ⟨child', hchild', hlt⟩ := (hinstr.operands _ hd.opcode (by decide)).closure rfl
      have hsame : child = child' := Option.some.inj (hchild.symm.trans hchild')
      rw [hsame]
      show f.pc + 1 + _ ≤ f.proto.val.block.instrCount
      omega
    · exact arm_isSome hop
  obtain ⟨a, ha⟩ := Option.isSome_iff_exists.mp harm
  rw [ha, Option.bind_some]
  have hperform : (Config.perform (s.setPc (f.pc + 1)) o { f with pc := f.pc + 1 } a).isSome =
      true := by
    apply perform_isSome
    intro off hoff
    subst hoff
    obtain ⟨rfl, rfl⟩ := armFor_arm (p := f.proto.val) rfl ha
    have hnonneg := ((hat.transfer hw).jmp rfl).1
    rw [← Config.jmpTarget_eq] at hnonneg
    exact hnonneg
  obtain ⟨after, hafter⟩ := Option.isSome_iff_exists.mp hperform
  rw [hafter]
  rfl

end Progress

/-! ## Soundness of the verifier -/

/-- Wherever a strand that runs loaded code is about to dispatch, the instruction is one it may
execute, and it does execute: the pc never leaves the array or lands in a prelude, pending site bits
are those of the `EXTARG` before, and every operand lies inside its window or table. -/
theorem dispatch_loaded_sound {c d : Config loaded} {ms : List (Move loaded)} (hc : c.Initial)
    (hr : c.Run ms d) {b ext : Option Nat} {rest : List (Act loaded)}
    (hacts : d.acts = .run b ext false :: rest) {f : UFrame loaded} {fs : List (UFrame loaded)}
    (hf : d.strand.frames = f :: fs) :
    (∃ op w, Dispatchable f.proto.val.block f.proto.val.nested f.pc ext op w) ∧
      ∀ o, (d.step (.exec o)).isSome = true := by
  have hgood : Config.Good loadedTyping.toJudgement d := Config.reachable_good hc hr
  obtain ⟨s, acts, flags⟩ := d
  obtain rfl : acts = .run b ext false :: rest := hacts
  have hf : s.frames = f :: fs := hf
  have hat : AtInstr f.proto f.pc ext := by
    cases hgood.1 with
    | fetch hcur hat _ _ =>
      obtain ⟨rfl, -⟩ := List.cons.inj (hf.symm.trans hcur.frames)
      exact hat
    | empty hnil _ _ => rw [hf] at hnil; cases hnil
  refine ⟨(wellFormed_of_loaded f.proto).dispatchable hat, fun o => ?_⟩
  have hstep : Config.step ⟨s, .run b ext false :: rest, flags⟩ (.exec o) =
      Config.dispatchStep s o b ext rest flags := by
    simp [Config.step, hf]
  rw [hstep]
  exact dispatchStep_isSome hf hat b rest flags

theorem loaded_leaf {b : Block} (hb : BlockFits b) (hnames : b.normNames = b)
    (hpass1 : verifyProtoRecursive (.mk b []) = .ok ())
    (hpass2 : verifyBoundsProto (fun _ => true) (.mk b []) 0 = .ok ((), 0))
    (hsize : (chunkBytes ⟨none, .mk b []⟩).length < 2 ^ 64) : loaded.has (.mk b []) := by
  have hwithin : ∀ {P : UProto → Prop}, P (.mk b []) → ∀ q, UProto.Within q (.mk b []) → P q := by
    intro P h q hq
    rcases UProto.within_mk_iff.mp hq with rfl | ⟨c, hc, -⟩
    · exact h
    · cases hc
  have hfits : TreeFits b.arityPrologue (.mk b []) :=
    ⟨hwithin hb, hwithin rfl, hwithin (by simp [UProto.nested]), hwithin nofun,
      show 0 ≤ uchunkMaxProtoDepth from Nat.zero_le _⟩
  have hwf := verifyBoundsProto_sound (verifyProtoRecursive_eq_ok.mp hpass1) hpass2
  have hload := uchunkDeserialize_chunkBytes (fun _ => rfl) (c := ⟨none, .mk b []⟩) hfits nofun hwf
    hsize
  refine ⟨fun _ => true, _, _, hload, ?_⟩
  have hself : UProto.normNames (.mk b []) = .mk b [] := by
    rw [UProto.normNames]
    rw [hnames]
    rfl
  show UProto.Within _ (UProto.normNames (.mk b []))
  rw [hself]
  exact .refl _

def slotReader : UProto :=
  .mk ⟨0, 0, 0, true, [],
    [uinstrEncAbx .extarg 0 0, uinstrEncAbc .getslot 0 0 0, uinstrEncAbc .ret 0 0 0],
    [1, 0, 0], [], [some [0x78]]⟩ []

theorem loaded_slotReader : loaded.has slotReader :=
  loaded_leaf ⟨by decide, by decide, by decide, by decide, by decide, by decide, by decide,
    by decide, by decide, by decide⟩ rfl rfl rfl (by decide)

def slotReaderStrand : Option (Config loaded) :=
  Config.uschedSpawn Config.grantAll (fun _ => 0)
    ⟨0, .proto ⟨slotReader, loaded_slotReader⟩, 0, none⟩ none .nil []

theorem dispatch_loaded_sound_slotReader :
    ∃ (c d : Config loaded) (f : UFrame loaded), slotReaderStrand = some c ∧
      c.Run [.dispatch 0, .exec Config.grantAll] d ∧ d.acts = [.run none (some 0) false] ∧
      d.strand.frames = [f] ∧ f.pc = 1 ∧
      (∃ op w, Dispatchable f.proto.val.block f.proto.val.nested f.pc (some 0) op w) ∧
      ∀ o, (d.step (.exec o)).isSome = true := by
  have hrun : ∃ (c d : Config loaded) (f : UFrame loaded), slotReaderStrand = some c ∧
      c.steps [.dispatch 0, .exec Config.grantAll] = some d ∧
      d.acts = [.run none (some 0) false] ∧ d.strand.frames = [f] ∧ f.pc = 1 :=
    ⟨_, _, _, rfl, rfl, rfl, rfl, rfl⟩
  obtain ⟨c, d, f, hc, hd, hacts, hf, hpc⟩ := hrun
  exact ⟨c, d, f, hc, Config.run_of_steps hd, hacts, hf, hpc,
    dispatch_loaded_sound (Config.uschedSpawn_initial hc) (Config.run_of_steps hd) hacts hf⟩

end Urbi
