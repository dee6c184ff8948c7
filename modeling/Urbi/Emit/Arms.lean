import Urbi.Emit.Compile
import Urbi.Emit.Tables

/-!
# The arms of the emitter

Each routine keeps what its children keep; by recursion over the tree, so does every node.
-/

namespace Urbi

open Lib

/-! ## Expressions -/

def KeptCode (c : Code) : Prop := ∀ want, Kept (c want)

structure Operand.Kept (o : Operand) : Prop where
  code : KeptCode o.code
  stmts : ∀ c ∈ o.stmts, KeptCode c
  member : ∀ m ∈ o.member, KeptCode m.1

attribute [grind .] Operand.Kept.code Operand.Kept.stmts
attribute [grind =] uregTop uregFreeTo getFreereg localPush uunpin ublockOpen ujmpEmit ujmpPatchTo
  ujmpBack lazyGlobalNote rejectLazyMethod setLazyArgCtx

variable {α : Type} {line : Nat} {c c' : Code} {cs : List Code} {o : Operand} {os : List Operand}
  {params : List (UParam × Option Operand)} {w : Option Nat} {e e' : UEmitter} {fs : UFuncState}

@[grind ←] theorem kept_abc (op : UOpcode) (a b c : Nat) : Kept (emitAbc op a b c line) :=
  (kept_emit _ line).bind fun _ => .pure _

@[grind ←] theorem kept_abx (op : UOpcode) (a bx : Nat) : Kept (emitAbx op a bx line) :=
  (kept_emit _ line).bind fun _ => .pure _

@[grind ←] theorem kept_pc : Kept uinstrPc := kept_getFs.bind fun _ => .pure _

@[grind ←] theorem kept_patchHere (pc : Nat) : Kept (ujmpPatchHere pc) := by grind [ujmpPatchHere]

@[grind ←] theorem kept_pin : Kept upin := by grind [upin]

@[grind ←] theorem kept_slotEmit (op : UOpcode) (a b site : Nat) :
    Kept (uslotEmit op a b site line) := by
  grind [uslotEmit]

@[grind ←] theorem kept_globalSlot (op : UOpcode) (r : Nat) (name : Bytes) :
    Kept (globalSlot op r name line) := by
  grind [globalSlot]

@[grind ←] theorem kept_boolean (d : Nat) : Kept (emitBoolean d line) := by grind [emitBoolean]

@[grind ←] theorem kept_snapshot (r : Nat) (next : UAstNode) :
    Kept (snapshotIfLocal r next line) := by
  grind [snapshotIfLocal]

@[grind ←] theorem kept_any (h : KeptCode c) : Kept (uexprAny c) := h none

@[grind ←] theorem kept_to (h : KeptCode c) (d : Nat) : Kept (uexprTo c d) :=
  (h d).bind fun _ => .pure _

@[grind ←] theorem kept_declare (name : Bytes) : Kept (ulocalDeclare name) := by
  grind [ulocalDeclare]

@[grind ←] theorem kept_blockClose : Kept ublockClose := by grind [ublockClose]

@[grind ←] theorem kept_target (w : Option Nat) : Kept (uemitTarget w) := by
  cases w <;> grind [uemitTarget]

@[grind ←] theorem kept_settle (r : Nat) (w : Option Nat) : Kept (settle r w line) := by
  cases w <;> grind [settle]

@[grind ←] theorem kept_resultReg (w : Option Nat) (a b : Nat) : Kept (resultReg w a b) := by
  cases w <;> grind [resultReg]

theorem kept_want (h : KeptCode c) : KeptCode (uexprWant c) := by
  intro w
  have := h w
  grind [uexprWant]

@[grind ←] theorem kept_next (h : KeptCode c) : Kept (uexprNext c) := by grind [uexprNext]

@[grind ←] theorem kept_stmt (h : KeptCode c) : Kept (ustmt c) := by grind [ustmt]

@[grind ←] theorem kept_stmts (h : ∀ c ∈ cs, KeptCode c) : Kept (ustmts cs) := by
  induction cs <;> grind [ustmts]

@[grind ←] theorem kept_exSimple (op : UOpcode) (b : Nat) (w : Option Nat) :
    Kept (exSimple op b line w) := by
  grind [exSimple]

theorem kept_exIdent (name : Bytes) : KeptCode (exIdent line name) := by
  intro w
  refine .bind .get fun e => ?_
  split
  · grind
  · refine .bind (kept_upvalOf name) fun ui => .bind (kept_target w) fun d => ?_
    cases ui <;> grind

@[grind ←] theorem kept_initValue {init : Option Operand} (h : ∀ o ∈ init, o.Kept) :
    Kept (initValue line init) := by
  cases init <;> grind [initValue]

theorem kept_exVarDecl (name : Bytes) {init : Option Operand} (h : ∀ o ∈ init, o.Kept) :
    KeptCode (exVarDecl line name init) := by
  intro w
  refine .bind .get fun e => ?_
  split
  · refine .bind (kept_initValue h) fun v => .bind (kept_globalSlot ..) fun _ => ?_
    exact .bind (by grind) fun _ => kept_settle v w
  · split
    · exact kept_fail ..
    · refine .bind (kept_initValue h) fun t => .bind (by grind) fun _ =>
        .bind (kept_declare name) fun r => ?_
      split
      · exact .bind (kept_abc ..) fun _ => .bind (by grind) fun _ => kept_settle r w
      · exact .bind (by grind) fun _ => kept_settle r w

theorem kept_exAssign (name : Bytes) (h : o.Kept) : KeptCode (exAssign line name o) := by
  intro w
  refine .bind .get fun e => ?_
  split
  · grind
  · refine .bind (kept_upvalOf name) fun ui => .bind (h.code none) fun d => ?_
    cases ui <;> grind

theorem kept_exMemberGet (h : KeptCode c) (name : Bytes) : KeptCode (exMemberGet line c name) := by
  intro w
  refine .bind (kept_any h) fun r => .bind (kept_resultReg w r r) fun d => ?_
  exact .bind (kept_site name) fun site => .bind (kept_slotEmit ..) fun _ => .pure _

theorem kept_exMemberSet (h : KeptCode c) (name : Bytes) (ho : o.Kept) :
    KeptCode (exMemberSet line c name o) := by
  intro w
  refine .bind (by grind) fun _ => .bind (kept_any h) fun r => .bind (kept_snapshot ..) fun r => ?_
  refine .bind (kept_any ho.code) fun v => .bind (kept_site name) fun site => ?_
  exact .bind (kept_slotEmit ..) fun _ => kept_settle v w

theorem kept_exUnary (op : UAstUnaryOp) (h : KeptCode c) : KeptCode (exUnary line op c) := by
  intro w
  refine .bind (kept_any h) fun r => .bind (kept_resultReg w r r) fun d => ?_
  cases op with
  | not => exact .bind (kept_abc ..) fun _ => .bind (kept_boolean d) fun _ => .pure _
  | neg => exact .bind (kept_abc ..) fun _ => .pure _

@[grind ←] theorem kept_operandPair (h : KeptCode c) (ho : o.Kept) :
    Kept (operandPair line c o) := by
  grind [operandPair]

theorem kept_exCompare (op : UAstCompareOp) (h : KeptCode c) (ho : o.Kept) :
    KeptCode (exCompare line op c o) := by
  intro w
  refine .bind (kept_operandPair h ho) fun p => .bind (kept_resultReg w p.1 p.2) fun d => ?_
  exact .bind (kept_emit ..) fun _ => .bind (kept_boolean d) fun _ => .pure _

theorem kept_exLogical (isOr : Bool) (h : KeptCode c) (h' : KeptCode c') :
    KeptCode (exLogical line isOr c c') := by
  intro w
  refine .bind (kept_target w) fun d => .bind (by grind) fun base => .bind (kept_any h) fun l => ?_
  refine .bind (kept_abc ..) fun _ => .bind (kept_emit ..) fun skip => .bind (by grind) fun _ => ?_
  exact .bind (kept_to h' d) fun _ => .bind (kept_patchHere skip) fun _ => .pure _

/-! ## Functions -/

@[grind ←] theorem kept_checkArity (min n : Nat) : Kept (checkArity min n line) := by
  unfold checkArity
  repeat' first | split | with_reducible refine .bind ?_ fun _ => ?_
  all_goals grind

theorem kept_fillDefaults (i : Nat) (h : ∀ p ∈ params, ∀ o ∈ p.2, o.Kept) :
    Kept (fillDefaults i params) := by
  induction params generalizing i with
  | nil => exact .pure _
  | cons p ps ih =>
    have hhead := h p (.head _)
    have htail := ih (i + 1) fun q hq => h q (.tail _ hq)
    unfold fillDefaults
    repeat' first | split | with_reducible refine .bind ?_ fun _ => ?_
    all_goals grind

theorem kept_bodyValue (h : ∀ c ∈ cs, KeptCode c) : Kept (bodyValue cs) := by
  fun_induction bodyValue cs <;> grind

@[grind ←] theorem kept_declareParams (ps : List (UParam × Option Operand)) :
    Kept (declareParams ps) := by
  fun_induction declareParams ps <;> grind

@[grind ←] theorem kept_prelude (us : List UUpval) : Kept (emitPrelude line us) := by
  fun_induction emitPrelude line us <;> grind

theorem uregAlloc_ok {r : Nat} (h : uregAlloc e = .ok (r, e')) :
    e'.fs.freereg = e.fs.freereg + 1 ∧ e.fs.freereg ≤ e'.fs.maxReg := by
  obtain ⟨_, _, ⟨⟩, h⟩ := bind_eq_ok.mp h
  split at h <;> cases h
  exact ⟨rfl, le_max_right ..⟩

theorem localPush_ok {name : Option Bytes} {r : Nat} {u : Unit} (h : localPush name r e = .ok (u, e')) :
    e'.fs.freereg = e.fs.freereg ∧ e'.fs.maxReg = e.fs.maxReg := by
  obtain ⟨_, _, ⟨⟩, h⟩ := bind_eq_ok.mp h
  split at h <;> cases h
  exact ⟨rfl, rfl⟩

theorem declareParams_freereg {u : Unit} (h : declareParams params e = .ok (u, e')) :
    e'.fs.freereg = e.fs.freereg + params.length := by
  induction params generalizing e with
  | nil =>
    cases h
    rfl
  | cons p ps ih =>
    obtain ⟨_, e₁, h₁, h⟩ := bind_eq_ok.mp h
    obtain ⟨_, _, ⟨⟩, h₁⟩ := bind_eq_ok.mp h₁
    split at h₁
    · cases h₁
    obtain ⟨_, e₂, hreg, h₁⟩ := bind_eq_ok.mp h₁
    obtain ⟨_, e₃, hpush, ⟨⟩⟩ := bind_eq_ok.mp h₁
    have hfree := (localPush_ok hpush).1.trans (uregAlloc_ok hreg).1
    rw [List.length_cons, Nat.add_comm ps.length, ← Nat.add_assoc, ← hfree]
    dsimp only at h
    split at h
    · obtain ⟨_, _, ⟨⟩, h⟩ := bind_eq_ok.mp h
      exact (ih h :)
    · exact ih h

theorem upin_ok {r : Nat} (h : upin e = .ok (r, e')) : e.fs.freereg ≤ e'.fs.maxReg := by
  obtain ⟨_, e₁, hreg, h⟩ := bind_eq_ok.mp h
  obtain ⟨_, e₂, hpush, ⟨⟩⟩ := bind_eq_ok.mp h
  exact (localPush_ok hpush).2 ▸ (uregAlloc_ok hreg).2

@[grind ←] theorem kept_arityPrologue (h : ∀ p ∈ params, ∀ o ∈ p.2, o.Kept) :
    Kept (arityPrologue params) := by
  have hfill := fun i => kept_fillDefaults i fun p (hp : p ∈ params.drop i) =>
    h p (List.mem_of_mem_drop hp)
  grind [arityPrologue]

theorem kept_globals {m : EmitM Unit} (hm : Kept m) : Kept (do
    let r ← upin
    modifyFs fun fs => { fs with rGlobals := r }
    emitAbc .loadRealmGlobal r 0 0 line
    m) :=
  .bind kept_pin fun r => .bind (by grind) fun _ => .bind (kept_abc ..) fun _ => hm

theorem kept_funcEntry (h : ∀ p ∈ params, ∀ o ∈ p.2, o.Kept) : Kept (funcEntry params line) := by
  refine .bind (kept_declareParams params) fun _ => ?_
  split
  · exact .bind kept_pin fun r => .bind (by grind) fun _ => kept_globals (kept_arityPrologue h)
  · exact kept_globals (.pure _)

theorem funcEntry_maxReg (h : ∀ p ∈ params, ∀ o ∈ p.2, o.Kept) {u : Unit} (hinv : e.Inv)
    (hfree : e.fs.freereg = 0) (hentry : funcEntry params line e = .ok (u, e')) :
    params.length = 0 ∨ params.length ≤ e'.fs.maxReg := by
  obtain ⟨_, e₁, hdecl, hentry⟩ := bind_eq_ok.mp hentry
  have hlen := declareParams_freereg hdecl
  rw [hfree, Nat.zero_add] at hlen
  dsimp only at hentry
  split at hentry <;> rename_i hpos
  · refine .inr ?_
    obtain ⟨r, e₂, hpin, hrest⟩ := bind_eq_ok.mp hentry
    have hinv₁ : e₁.Inv := (kept_declareParams params hdecl hinv).inv
    have hinv₂ : e₂.Inv := (kept_pin hpin hinv₁).inv
    have hkept : ∀ {m : EmitM Unit}, Kept m → m e₂ = .ok (u, e') → e₂.fs.maxReg ≤ e'.fs.maxReg :=
      fun hm h => (hm h hinv₂).maxReg
    refine (hlen ▸ upin_ok hpin).trans (hkept ?_ hrest)
    exact .bind (by grind) fun _ => kept_globals (kept_arityPrologue h)
  · exact .inl (Nat.eq_zero_of_not_pos hpos)

theorem kept_functionBody (h : ∀ c ∈ cs, KeptCode c) (asExpression : Bool) :
    Kept (functionBody line cs asExpression) := by
  have hvalue := kept_bodyValue h
  unfold functionBody
  repeat' first | split | with_reducible refine .bind ?_ fun _ => ?_
  all_goals grind

theorem emitted_of_sound (h : fs.Sound) (hframe : fs.nparams = 0 ∨ fs.nparams ≤ fs.maxReg) :
    ∀ q, UProto.Within q fs.toProto → q.Emitted := by
  intro q hq
  rcases UProto.within_mk_iff.mp hq with rfl | ⟨p, hp, hq⟩
  · exact ⟨fs, h.tidy, hframe, rfl⟩
  · obtain ⟨p', hp', ⟨⟩⟩ := List.mem_map.mp hp
    exact h.nested p hp' q hq

theorem UEmitter.Inv.opened {n : Nat} {b : Bool} (h : e.Inv) (hn : n ≤ ufsMaxLocals) :
    UEmitter.Inv { e with fs := UFuncState.fresh n, parents := e.fs :: e.parents, lazyArgCtx := b } where
  captures := ⟨nofun, h.captures⟩
  sound := List.forall_mem_cons.mpr ⟨⟨⟨hn, Nat.succ_pos _, Nat.zero_le _, nofun, Nat.zero_le _, rfl,
    [], rfl, .nil, nofun⟩, nofun⟩, h.sound⟩

theorem grown_close {u : Unit} {e₁ : UEmitter} (hinv : e₁.Inv)
    (haround : List.Forall₂ Stays (e.fs :: e.parents) e₁.parents)
    (hframe : e₁.fs.nparams = 0 ∨ e₁.fs.nparams ≤ e₁.fs.maxReg)
    (h : ufuncClose e₁ = .ok (u, e')) : e.Grown e' := by
  generalize hps : e₁.parents = ps at haround
  obtain _ | ⟨hp, hrest⟩ := haround
  cases h
  obtain ⟨hc, hs⟩ := hinv
  rw [hps] at hc hs
  rw [List.forall_mem_cons, List.forall_mem_cons] at hs
  simp only [hps]
  obtain ⟨us, bs, k, rfl, -⟩ := hp
  refine ⟨⟨⟨hc.2.1, hc.2.2⟩, List.forall_mem_cons.mpr ⟨⟨{ hs.2.1.tidy with }, fun q hq => ?_⟩, hs.2.2⟩⟩, rfl, le_rfl,
    hrest⟩
  rcases List.mem_append.mp hq with hq | hq
  · exact hs.2.1.nested q hq
  · rw [List.mem_singleton.mp hq]
    exact emitted_of_sound hs.1 hframe

theorem kept_funcLiteral (hparams : ∀ p ∈ params, ∀ o ∈ p.2, o.Kept) (line : Nat)
    (hcs : ∀ c ∈ cs, KeptCode c) (asExpression : Bool) (d : Nat) :
    Kept (funcLiteral params line cs asExpression d) := by
  unfold funcLiteral
  dsimp only
  split
  · nofun
  · intro e r e' h hinv
    obtain ⟨_, _, ⟨⟩, h⟩ := bind_eq_ok.mp h
    obtain ⟨_, _, ⟨⟩, h⟩ := bind_eq_ok.mp h
    obtain ⟨_, _, ⟨⟩, h⟩ := bind_eq_ok.mp h
    obtain ⟨_, e₁, hentry, h⟩ := bind_eq_ok.mp h
    obtain ⟨_, e₂, hbody, h⟩ := bind_eq_ok.mp h
    obtain ⟨_, _, ⟨⟩, h⟩ := bind_eq_ok.mp h
    obtain ⟨_, e₃, hclose, h⟩ := bind_eq_ok.mp h
    have hopen := hinv.opened (b := false) (Nat.le_of_not_lt ‹_›)
    have hg₁ := kept_funcEntry hparams hentry hopen
    have hg₂ := kept_functionBody hcs asExpression hbody hg₁.inv
    have hframe := funcEntry_maxReg hparams hopen rfl hentry
    have hn : e₂.fs.nparams = params.length := hg₂.nparams.trans hg₁.nparams
    have hg₃ : e.Grown e₃ := grown_close hg₂.inv (around_trans hg₁.around hg₂.around)
      (hn ▸ hframe.imp_right fun hle => hle.trans hg₂.maxReg) hclose
    have hrest := (by grind : Kept (setLazyArgCtx e.lazyArgCtx)).bind fun _ =>
      (@kept_abx line .closure d (e.fs.nested.length % 2 ^ 16)).bind fun _ =>
        @kept_prelude line e₂.fs.upvals
    exact (IsTrans.trans _ _ _ (fun _ => hg₃) (hrest h) : e.Adv e') hinv

@[grind ←] theorem kept_thunk (h : o.Kept) (line : Nat) (asExpression : Bool) (d : Nat) :
    Kept (funcLiteral [] line o.stmts asExpression d) :=
  kept_funcLiteral (by simp) line h.stmts asExpression d

@[grind ←] theorem kept_uexprFunction (h : ∀ c ∈ cs, KeptCode c) (line : Nat) (asExpression : Bool) :
    Kept (uexprFunction line cs asExpression) :=
  .bind kept_alloc fun d => .bind (kept_funcLiteral (by simp) line h asExpression d) fun _ => .pure _

theorem kept_exFunction (h : ∀ p ∈ params, ∀ o ∈ p.2, o.Kept) (ho : o.Kept) :
    KeptCode (exFunction params o) := by
  intro w
  have hfn := fun d => kept_funcLiteral h o.node.line ho.stmts true d
  grind [exFunction]

/-! ## Calls -/

@[grind ←] theorem kept_callArg (h : o.Kept) (isLazy : Bool) : Kept (callArg o isLazy) := by
  refine .bind .get fun e => ?_
  split
  · refine .bind (by grind) fun _ => .bind (kept_next h.code) fun t => ?_
    exact .bind (by grind) fun _ => .pure _
  · split
    · exact kept_uexprFunction (by simpa using h.code) _ _
    · exact kept_next h.code

@[grind ←] theorem kept_callArgs (h : ∀ o ∈ os, o.Kept) (first mask i : Nat) :
    Kept (callArgs first mask i os) := by
  induction os generalizing i <;> grind [callArgs]

@[grind ←] theorem kept_rejectLazyProperty (callee : Callee) (os : List Operand) :
    Kept (rejectLazyProperty callee os) := by
  unfold rejectLazyProperty
  split <;> grind

theorem kept_exCall {callee : Callee}
    (h : match callee with | .method recv _ => KeptCode recv | .plain o => o.Kept)
    (hargs : ∀ o ∈ os, o.Kept) : KeptCode (exCall line callee os) := by
  intro w
  have hcallee : ∀ base, Kept (callCallee line base callee) := by
    intro base
    cases callee with
    | method recv name =>
      refine .bind kept_alloc fun _ => .bind (kept_any h) fun r => .bind (kept_site name) fun _ => ?_
      exact .bind (kept_slotEmit ..) fun _ => .bind (by grind) fun _ => .pure _
    | plain o => exact .bind .get fun e => .bind (kept_to h.code base) fun _ => .pure _
  have hbase : Kept (callBase w) := by cases w <;> grind [callBase]
  unfold exCall
  repeat' first | split | with_reducible refine .bind ?_ fun _ => ?_
  all_goals grind

/-! ## Control flow -/

attribute [grind =] scopePush scopePop closeAbandoned getCaptures closeIteration innermost loopPush
  loopPop openTry bodyStatements deliver patchHandler

@[grind ←] theorem kept_loadNil (w : Option Nat) : Kept (loadNil line w) :=
  kept_exSimple _ _ w

@[grind ←] theorem kept_jumpOut (lp : ULoop) (count : Nat) : Kept (jumpOut lp count line) := by
  grind [jumpOut]

@[grind ←] theorem kept_valueOf (h : KeptCode c) (w : Option Nat) : Kept (valueOf c w) := by
  cases w <;> grind [valueOf]

theorem kept_seq (yields : Bool) (h : ∀ c ∈ cs, KeptCode c) :
    KeptCode (uctrlSeq line yields cs) := by
  intro w
  fun_induction uctrlSeq line yields cs <;> grind

theorem kept_blockInit {f : Option Code → EmitM α} (h : ∀ c ∈ cs, KeptCode c)
    (hf : ∀ c, (∀ d ∈ c, KeptCode d) → Kept (f c)) : Kept (blockInit cs >>= f) := by
  fun_induction blockInit cs with
  | case1 => simpa using hf none nofun
  | case2 c => simpa using hf (some c) (by simpa using h)
  | case3 c cs _ ih =>
    rw [bind_assoc]
    refine .bind ?_ fun _ => ih fun d hd => h d (.tail _ hd)
    grind

theorem kept_block (h : ∀ c ∈ cs, KeptCode c) : KeptCode (uctrlBlock line cs) := by
  intro w
  refine .bind (by grind) fun _ => .bind (by grind) fun _ => kept_blockInit h fun c hc => ?_
  cases c <;> cases w <;> grind

theorem kept_if (h : KeptCode c) (h' : KeptCode c') {el : Option Code}
    (hel : ∀ d ∈ el, KeptCode d) : KeptCode (uctrlIf line c c' el) := by
  intro w
  unfold uctrlIf
  repeat' first | split | with_reducible refine .bind ?_ fun _ => ?_
  all_goals grind

@[grind ←] theorem kept_patchList (target : Nat) (l : List UPatch) : Kept (patchList target l) := by
  fun_induction patchList target l <;> grind

theorem kept_break : KeptCode (uctrlBreak line) := by
  intro w
  refine .bind kept_getFs fun fs => ?_
  split <;> grind

theorem kept_continue : KeptCode (uctrlContinue line) := by
  intro w
  refine .bind kept_getFs fun fs => ?_
  split <;> grind

theorem kept_while (h : KeptCode c) (hcs : ∀ c ∈ cs, KeptCode c) :
    KeptCode (uctrlWhile line c cs) := by
  intro w
  unfold uctrlWhile
  repeat' with_reducible refine .bind ?_ fun _ => ?_
  all_goals grind

theorem kept_switchArms (s line : Nat) {arms : List (Code × List Code)}
    (h : ∀ a ∈ arms, KeptCode a.1 ∧ ∀ c ∈ a.2, KeptCode c) : Kept (switchArms s line arms) := by
  induction arms with
  | nil => exact .pure _
  | cons a arms ih =>
    obtain ⟨hval, hbody⟩ := h a (.head _)
    have htail := ih fun a ha => h a (.tail _ ha)
    unfold switchArms
    repeat' with_reducible refine .bind ?_ fun _ => ?_
    all_goals grind

@[grind ←] theorem kept_patchExits (target : Nat) (pcs : List Nat) :
    Kept (patchExits target pcs) := by
  fun_induction patchExits target pcs <;> grind

theorem kept_switch (h : KeptCode c) {arms : List (Code × List Code)}
    (harms : ∀ a ∈ arms, KeptCode a.1 ∧ ∀ c ∈ a.2, KeptCode c) {default : Option (List Code)}
    (hdefault : ∀ cs ∈ default, ∀ c ∈ cs, KeptCode c) :
    KeptCode (uctrlSwitch line c arms default) := by
  intro w
  have harms' := fun s => kept_switchArms s line harms
  unfold uctrlSwitch
  cases default <;> repeat' with_reducible refine .bind ?_ fun _ => ?_
  all_goals grind

/-! ## Scopes -/

structure CatchClause.Kept (c : CatchClause) : Prop where
  guard : ∀ g ∈ c.guard, KeptCode g
  body : KeptCode c.body

@[grind ←] theorem kept_catchGuard (h : KeptCode c) : Kept (catchGuard line c) := by
  refine .bind (by grind) fun base => .bind (kept_any h) fun g => .bind (kept_abc ..) fun _ => ?_
  exact .bind (by grind) fun toRethrow => .bind (by grind) fun _ => .pure _

theorem kept_catchHandler (line : Nat) {c : CatchClause} (h : c.Kept) (rd : Nat) (b : Bool) :
    Kept (catchHandler line c rd b) := by
  obtain ⟨var, guard, body⟩ := c
  obtain ⟨hguard, hbody⟩ := h
  unfold catchHandler
  cases var <;> cases guard <;> repeat' with_reducible refine .bind ?_ fun _ => ?_
  all_goals grind

theorem kept_tryBody (line : Nat) (h : KeptCode c) {handler : Option CatchClause}
    (hc : ∀ c ∈ handler, c.Kept) {el : Option Code} (hel : ∀ c ∈ el, KeptCode c) (rd : Nat) :
    Kept (tryBody line c handler el rd) := by
  have hhandler := fun c hc' => kept_catchHandler line (hc c hc') rd
  unfold tryBody
  cases handler <;> cases el <;> repeat' with_reducible refine .bind ?_ fun _ => ?_
  all_goals grind

theorem kept_tryFinally (line : Nat) {m : EmitM Unit} (hm : Kept m) (h : KeptCode c) (base : Nat) :
    Kept (tryFinally line m c base) := by
  unfold tryFinally
  repeat' with_reducible refine .bind ?_ fun _ => ?_
  all_goals grind

theorem kept_try (h : KeptCode c) {handler : Option CatchClause}
    (hc : ∀ c ∈ handler, c.Kept) {el fin : Option Code} (hel : ∀ c ∈ el, KeptCode c)
    (hfin : ∀ c ∈ fin, KeptCode c) : KeptCode (uscopeTry line c handler el fin) := by
  intro w
  have hbody := fun rd => kept_tryBody line h hc hel rd
  have hfin' := fun f hf rd base => kept_tryFinally line (hbody rd) (hfin f hf) base
  unfold uscopeTry
  cases fin <;> repeat' with_reducible refine .bind ?_ fun _ => ?_
  all_goals grind

theorem kept_tag {tag : Option Code} (htag : ∀ c ∈ tag, KeptCode c) (h : KeptCode c)
    (b : Bool) : KeptCode (uscopeTag line tag c b) := by
  intro w
  have htag' : Kept (tagRegister tag) := by
    cases tag with
    | none => exact .pure _
    | some c => exact .bind kept_pin fun rt => .bind (kept_to (htag c rfl) rt) fun _ => .pure _
  unfold uscopeTag
  repeat' first | split | with_reducible refine .bind ?_ fun _ => ?_
  all_goals grind

/-! ## Concurrency and watchers -/

theorem kept_comma (h : ∀ o ∈ os, o.Kept) (w : Option Nat) : Kept (useqComma os w) := by
  induction os with
  | nil => exact kept_fail _ _
  | cons o os ih =>
    have hthunk := kept_uexprFunction (h o (.head _)).stmts o.node.line false
    have hcode := (h o (.head _)).code
    cases os with
    | nil => exact kept_valueOf hcode w
    | cons =>
      refine .bind (by grind) fun base => .bind hthunk fun t => .bind (kept_abc ..) fun _ => ?_
      exact .bind (by grind) fun _ => ih fun o ho => h o (.tail _ ho)

theorem kept_ampPins (h : ∀ o ∈ os, o.Kept) : Kept (ampPins os) := by
  induction os with
  | nil => exact .pure _
  | cons o os ih =>
    refine .bind (ih fun o ho => h o (.tail _ ho)) fun pins => .bind kept_pin fun pin => ?_
    exact .bind (kept_thunk (h o (.head _)) ..) fun _ => .pure _

@[grind ←] theorem kept_ampJoins (os : List Operand) (pins : List Nat) : Kept (ampJoins os pins) := by
  fun_induction ampJoins os pins <;> grind

theorem kept_amp (h : ∀ o ∈ os, o.Kept) : KeptCode (useqAmp line os) := by
  intro w
  cases os with
  | nil => exact kept_fail _ _
  | cons o os =>
    have hpins := kept_ampPins fun o ho => h o (.tail _ ho)
    have hcode := (h o (.head _)).code
    grind [useqAmp]

theorem kept_watch (mode : UWatcherMode) (source : UAstWatchSource) (h : o.Kept)
    (name : Bytes) {body el onleave : Option Operand} (hb : ∀ o ∈ body, o.Kept)
    (he : ∀ o ∈ el, o.Kept) (hl : ∀ o ∈ onleave, o.Kept) (var : Option Bytes) :
    KeptCode (uwatchInstallNode line mode source o name body el onleave var) := by
  intro w
  have hsource : ∀ base, Kept (watchSource line source o name base) := by
    intro base
    cases source with
    | cond => exact kept_thunk h _ _ base
    | event => exact kept_to h.code base
    | slotChange =>
      refine .bind (kept_any h.code) fun r => .bind (kept_site name) fun site => ?_
      exact .bind (kept_slotEmit ..) fun _ => by grind
  have hbody : ∀ o, o.Kept → ∀ d, Kept (bodyClosure source var o d) := by
    refine fun o h d => kept_funcLiteral (fun p hp => ?_) _ h.stmts _ _
    split at hp
    · cases hp
    · cases List.mem_singleton.mp hp
      exact nofun
  have hclosures : ∀ base, Kept (watchClosures mode source body el onleave var base) := by
    intro base
    unfold watchClosures
    have halt : ∀ o ∈ (if mode = .whenever then el.orElse (fun _ => onleave) else onleave), o.Kept := by
      cases el <;> grind
    generalize (if mode = .whenever then el.orElse (fun _ => onleave) else onleave) = alt at halt ⊢
    cases body <;> cases alt <;> repeat' first | split | with_reducible refine .bind ?_ fun _ => ?_
    all_goals grind
  unfold uwatchInstallNode
  split
  · exact kept_valueOf (kept_want (kept_exCall h.code (by simp))) w
  · repeat' with_reducible refine .bind ?_ fun _ => ?_
    all_goals grind

/-! ## Nodes -/

theorem Operand.Kept.of (node : UAstNode) {arm : Code} (h : KeptCode arm) :
    (Operand.of node arm).Kept :=
  ⟨kept_want h, by simpa [Operand.of] using kept_want h, nofun⟩

theorem kept_codes (h : ∀ o ∈ os, o.Kept) : ∀ c ∈ codes os, KeptCode c := by
  intro c hc
  obtain ⟨o, ho, rfl⟩ := List.mem_map.mp hc
  exact (h o ho).code

theorem kept_code {x : Option Operand} (h : ∀ o ∈ x, o.Kept) :
    ∀ c ∈ x.map Operand.code, KeptCode c := by
  intro c hc
  obtain ⟨o, ho, rfl⟩ := Option.mem_map.mp hc
  exact (h o ho).code

theorem Operand.Kept.callee (h : o.Kept) :
    match o.callee with | .method recv _ => KeptCode recv | .plain o => o.Kept := by
  unfold Operand.callee
  cases hm : o.member with
  | none => exact h
  | some m => exact h.member m hm

mutual

theorem kept_operand : ∀ n, (operand n).Kept
  | .int .. => .of _ fun w => by grind [exLoadk]
  | .floatLit .. => .of _ fun w => by grind [exLoadk]
  | .str .. => .of _ fun w => by grind [exLoadk]
  | .bool .. => .of _ (kept_exSimple _ _)
  | .nil _ | .noop _ => .of _ (kept_exSimple _ _)
  | .this _ => .of _ fun w => by grind [exThis]
  | .ident _ name => .of _ (kept_exIdent name)
  | .varDecl _ name init => .of _ (kept_exVarDecl name (kept_operandOpt init))
  | .assign _ name value => .of _ (kept_exAssign name (kept_operand value))
  | .memberGet line recv name =>
    have h := (kept_operand recv).code
    have hget := Operand.Kept.of (.memberGet line recv name) (kept_exMemberGet h name)
    ⟨hget.code, hget.stmts, fun _ hm => Option.some.inj hm ▸ h⟩
  | .memberSet _ recv name value =>
    .of _ (kept_exMemberSet (kept_operand recv).code name (kept_operand value))
  | .unary _ op x => .of _ (kept_exUnary op (kept_operand x).code)
  | .binary _ op lhs rhs =>
    have h := (kept_operand lhs).code
    have h' := kept_operand rhs
    .of _ fun w => by grind [exBinary]
  | .compare _ op lhs rhs =>
    .of _ (kept_exCompare op (kept_operand lhs).code (kept_operand rhs))
  | .logical _ isOr lhs rhs =>
    .of _ (kept_exLogical isOr (kept_operand lhs).code (kept_operand rhs).code)
  | .call _ callee args =>
    .of _ (kept_exCall (kept_operand callee).callee (kept_operands args))
  | .function _ params body =>
    .of _ (kept_exFunction (kept_paramOperands params) (kept_operand body))
  | .seq _ .comma children => .of _ (kept_comma (kept_operands children))
  | .seq _ .amp children => .of _ (kept_amp (kept_operands children))
  | .seq _ .semi children | .seq _ .pipe children =>
    .of _ (kept_seq _ (kept_codes (kept_operands children)))
  | .block _ stmts =>
    have h := kept_codes (kept_operands stmts)
    ⟨kept_want (kept_block h), h, nofun⟩
  | .ifStmt _ cond thenBlock elseBlock =>
    .of _ (kept_if (kept_operand cond).code (kept_operand thenBlock).code
      (kept_code (kept_operandOpt elseBlock)))
  | .whileStmt _ cond body =>
    .of _ (kept_while (kept_operand cond).code (kept_operand body).stmts)
  | .switchStmt _ expr cases default => by
    refine .of _ (kept_switch (kept_operand expr).code (kept_caseOperands cases) ?_)
    intro cs hcs
    obtain ⟨o, ho, rfl⟩ := Option.mem_map.mp hcs
    exact (kept_operandOpt default o ho).stmts
  | .breakStmt _ => .of _ kept_break
  | .continueStmt _ => .of _ kept_continue
  | .ret _ value =>
    have h := kept_code (kept_operandOpt value)
    .of _ fun w => by
      unfold uctrlReturn
      split <;> grind
  | .throwExpr _ value =>
    have h := (kept_operand value).code
    .of _ fun w => by grind [uctrlThrow]
  | .tryStmt _ body var catchBody guard elseBody finallyBody => by
    refine .of _ (kept_try (kept_operand body).code ?_
      (kept_code (kept_operandOpt elseBody)) (kept_code (kept_operandOpt finallyBody)))
    intro c hc
    obtain ⟨b, hb, rfl⟩ := Option.mem_map.mp hc
    exact ⟨kept_code (kept_operandOpt guard), (kept_operandOpt catchBody b hb).code⟩
  | .tagPrefix _ tagExpr body onleave =>
    .of _ (kept_tag (kept_code (kept_operandOpt tagExpr)) (kept_operand body).code _)
  | .watcher _ mode source cond slotName body elseBody onleave payloadVar =>
    .of _ (kept_watch mode source (kept_operand cond) slotName (kept_operandOpt body)
      (kept_operandOpt elseBody) (kept_operandOpt onleave) payloadVar)
  | .error _ => .of _ fun _ => kept_fail _ _

theorem kept_operands : ∀ ns, ∀ o ∈ operands ns, o.Kept
  | [] => nofun
  | n :: ns => List.forall_mem_cons.mpr ⟨kept_operand n, kept_operands ns⟩

theorem kept_operandOpt : ∀ n, ∀ o ∈ operandOpt n, o.Kept
  | none => nofun
  | some n => fun _ h => Option.some.inj h ▸ kept_operand n

theorem kept_paramOperands : ∀ ps, ∀ p ∈ paramOperands ps, ∀ o ∈ p.2, o.Kept
  | [] => nofun
  | (_, d) :: ps => List.forall_mem_cons.mpr ⟨kept_operandOpt d, kept_paramOperands ps⟩

theorem kept_caseOperands : ∀ cs, ∀ a ∈ caseOperands cs, KeptCode a.1 ∧ ∀ c ∈ a.2, KeptCode c
  | [] => nofun
  | (v, b) :: cs =>
    List.forall_mem_cons.mpr ⟨⟨(kept_operand v).code, (kept_operand b).stmts⟩, kept_caseOperands cs⟩

end

end Urbi
