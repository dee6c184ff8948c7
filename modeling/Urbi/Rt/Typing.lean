import Urbi.Chunk.Verify
import Urbi.Rt.Machine

/-!
# Typing code for the machine

`At p pc ext σ` says that dispatch may stand at `pc` of the function `p` with the pending site bits
`ext` while the frame owns the cleanup entries `σ`.  A `Typing` is a judgement closed under everything
one instruction can do.
-/

namespace Urbi

variable {L : CodeBase}

/-! ## Judgements -/

structure Judgement (L : CodeBase) where
  At : Fn L → Nat → Option Nat → List (UCleanup L) → Prop
  -- the site bits that may be pending where control arrives other than from an `EXTARG`
  rest : Option Nat → Prop
  -- scopes never mismatch, so a chunk-integrity failure is out of the question
  strict : Prop

def Judgement.Rests (J : Judgement L) (p : Fn L) (pc : Nat) (σ : List (UCleanup L)) : Prop :=
  ∀ e, J.rest e → J.At p pc e σ

section Landings

variable (J : Judgement L) (p : Fn L)

def JumpOk (target : UValue L) (n : Nat) (σ : List (UCleanup L)) : Prop :=
  (J.strict → n ≤ σ.length) ∧
    (n ≤ σ.length → J.Rests p (UStrand.jumpTarget target) (σ.drop n))

def MarkOk (m : UCleanup L) (σ : List (UCleanup L)) : Prop :=
  (m.savedUnwind = .none → J.Rests p m.onleavePc σ) ∧
    (m.savedUnwind = .jump → JumpOk J p m.saved (m.onleavePc % 2 ^ 8) σ)

def EntryOk (d : UCleanup L) (σ : List (UCleanup L)) : Prop :=
  match d.kind with
  | .tagScope => d.running = false ∧ J.Rests p d.onleavePc σ
  | .try =>
    if d.running then MarkOk J p d σ
    else if d.hasFinally then ∀ u v n, J.Rests p d.handlerPc (d.mark u v n :: σ)
    else d.hasCatch → J.Rests p d.handlerPc σ

def Owned : List (UCleanup L) → Prop
  | [] => True
  | d :: σ => EntryOk J p d σ ∧ Owned σ

end Landings

theorem entryOk_try {J : Judgement L} {p : Fn L} {d : UCleanup L} {σ : List (UCleanup L)}
    (hkind : d.kind = .try) (hrun : d.running = false) (h : ∀ τ, J.Rests p d.handlerPc τ) :
    EntryOk J p d σ := by
  unfold EntryOk
  rw [hkind]
  dsimp only
  rw [hrun]
  cases d.hasFinally with
  | true => exact fun _ _ _ => h _
  | false => exact fun _ => h _

theorem entryOk_tag {J : Judgement L} {p : Fn L} {d : UCleanup L} {σ : List (UCleanup L)}
    (hkind : d.kind = .tagScope) (hflags : d.flags = 0) (h : J.Rests p d.onleavePc σ) :
    EntryOk J p d σ := by
  unfold EntryOk
  rw [hkind]
  refine ⟨?_, h⟩
  show d.flags.testBit 5 = false
  rw [hflags]
  decide

def PopMatches (a : Nat) (d : UCleanup L) : Prop :=
  if a % 4 = uscopePopTag then d.kind = .tagScope
  else d.kind = .try ∧ d.running = false ∧ (a.testBit 2 → d.hasFinally = true)

def falls : UOpcode → Bool
  | .ret | .throw | .jmp | .closure | .extarg | .scopeTry | .scopeTag | .scopePop | .resume
  | .unwindTo => false
  | _ => true

def Fn.word (p : Fn L) (pc : Nat) (op : UOpcode) (w : UInt32) : Prop :=
  p.val.block.instructions[pc]? = some w ∧ uinstrOpcode w = some op

structure Typing (L : CodeBase) extends Judgement L where
  rest_none : rest none
  start : ∀ p, toJudgement.Rests p 0 []
  unknown : ∀ {p pc ext σ w}, At p pc ext σ → p.val.block.instructions[pc]? = some w →
    uinstrOpcode w = none → rest ext
  keepsExt : ∀ {p pc ext σ op w}, At p pc ext σ → p.word pc op w → opTakesSite op = false →
    op ≠ .extarg → rest ext
  next : ∀ {p pc ext σ op w}, At p pc ext σ → p.word pc op w → falls op = true →
    toJudgement.Rests p (pc + 1) σ
  skip : ∀ {p pc ext σ op w}, At p pc ext σ → p.word pc op w → opMaySkip op w = true →
    toJudgement.Rests p (pc + 2) σ
  jmp : ∀ {p pc ext σ w}, At p pc ext σ → p.word pc .jmp w → 0 ≤ verifiedJmpTarget pc w →
    toJudgement.Rests p (verifiedJmpTarget pc w).toNat σ
  extarg : ∀ {p pc ext σ w}, At p pc ext σ → p.word pc .extarg w →
    At p (pc + 1) (some (uinstrBx w * 2 ^ 8)) σ
  closure : ∀ {p pc ext σ w child}, At p pc ext σ → p.word pc .closure w →
    nestedAt p.val.nested (uinstrBx w) = some child →
    toJudgement.Rests p (pc + 1 + child.block.nupvals.toNat) σ
  scopeTry : ∀ {p pc ext σ w d}, At p pc ext σ → p.word pc .scopeTry w → d.kind = .try →
    d.flags = uinstrA w → d.handlerPc = uinstrBx w →
    toJudgement.Rests p (pc + 1) (d :: σ) ∧ EntryOk toJudgement p d σ
  scopeTag : ∀ {p pc ext σ w d}, At p pc ext σ → p.word pc .scopeTag w → d.kind = .tagScope →
    d.flags = 0 → d.onleavePc = uinstrBx w →
    toJudgement.Rests p (pc + 1) (d :: σ) ∧ EntryOk toJudgement p d σ
  scopePop : ∀ {p pc ext σ w d}, At p pc ext (d :: σ) → p.word pc .scopePop w →
    PopMatches (uinstrA w) d → toJudgement.Rests p (pc + 1) σ
  unwindTo : ∀ {p pc ext σ w}, At p pc ext σ → p.word pc .unwindTo w →
    JumpOk toJudgement p (.int (Int64.ofNat (uinstrBx w))) (uinstrA w) σ
  popOk : ∀ {p pc ext σ w}, strict → At p pc ext σ → p.word pc .scopePop w →
    ∃ d σ', σ = d :: σ' ∧ PopMatches (uinstrA w) d
  resumeOk : ∀ {p pc ext σ w}, strict → At p pc ext σ → p.word pc .resume w →
    ∃ d σ', σ = d :: σ' ∧ d.running = true

structure Judgement.Rooted (J : Judgement L) : Prop where
  rest_none : J.rest none
  start : ∀ p, J.Rests p 0 []

/-- A `Typing` is closed everywhere it holds; a run only asks for it where it has come. -/
structure Judgement.ClosedAt (J : Judgement L) (p : Fn L) (pc : Nat) (ext : Option Nat)
    (σ : List (UCleanup L)) : Prop where
  unknown : ∀ {w}, p.val.block.instructions[pc]? = some w → uinstrOpcode w = none → J.rest ext
  keepsExt : ∀ {op w}, p.word pc op w → opTakesSite op = false → op ≠ .extarg → J.rest ext
  next : ∀ {op w}, p.word pc op w → falls op = true → J.Rests p (pc + 1) σ
  skip : ∀ {op w}, p.word pc op w → opMaySkip op w = true → J.Rests p (pc + 2) σ
  jmp : ∀ {w}, p.word pc .jmp w → 0 ≤ verifiedJmpTarget pc w →
    J.Rests p (verifiedJmpTarget pc w).toNat σ
  extarg : ∀ {w}, p.word pc .extarg w → J.At p (pc + 1) (some (uinstrBx w * 2 ^ 8)) σ
  closure : ∀ {w child}, p.word pc .closure w →
    nestedAt p.val.nested (uinstrBx w) = some child →
    J.Rests p (pc + 1 + child.block.nupvals.toNat) σ
  scopeTry : ∀ {w d}, p.word pc .scopeTry w → d.kind = .try → d.flags = uinstrA w →
    d.handlerPc = uinstrBx w → J.Rests p (pc + 1) (d :: σ) ∧ EntryOk J p d σ
  scopeTag : ∀ {w d}, p.word pc .scopeTag w → d.kind = .tagScope → d.flags = 0 →
    d.onleavePc = uinstrBx w → J.Rests p (pc + 1) (d :: σ) ∧ EntryOk J p d σ
  scopePop : ∀ {w d τ}, σ = d :: τ → p.word pc .scopePop w → PopMatches (uinstrA w) d →
    J.Rests p (pc + 1) τ
  unwindTo : ∀ {w}, p.word pc .unwindTo w →
    JumpOk J p (.int (Int64.ofNat (uinstrBx w))) (uinstrA w) σ

theorem Typing.rooted (T : Typing L) : T.toJudgement.Rooted := ⟨T.rest_none, T.start⟩

theorem Typing.closedAt (T : Typing L) {p : Fn L} {pc : Nat} {ext : Option Nat}
    {σ : List (UCleanup L)} (h : T.At p pc ext σ) : T.toJudgement.ClosedAt p pc ext σ where
  unknown := T.unknown h
  keepsExt := T.keepsExt h
  next := T.next h
  skip := T.skip h
  jmp := T.jmp h
  extarg := T.extarg h
  closure := T.closure h
  scopeTry := T.scopeTry h
  scopeTag := T.scopeTag h
  scopePop := by
    rintro w d τ rfl
    exact T.scopePop h
  unwindTo := T.unwindTo h

def anyTyping (L : CodeBase) : Typing L where
  At _ _ _ _ := True
  rest _ := True
  strict := False
  rest_none := trivial
  start _ _ _ := trivial
  unknown _ _ _ := trivial
  keepsExt _ _ _ _ := trivial
  next _ _ _ _ _ := trivial
  skip _ _ _ _ _ := trivial
  jmp _ _ _ _ _ := trivial
  extarg _ _ := trivial
  closure _ _ _ _ _ := trivial
  scopeTry := by
    intro p pc ext σ w d _ _ hkind _ _
    refine ⟨fun _ _ => trivial, ?_⟩
    unfold EntryOk
    rw [hkind]
    dsimp only
    split
    · exact ⟨fun _ _ _ => trivial, fun _ => ⟨False.elim, fun _ _ _ => trivial⟩⟩
    · split
      · exact fun _ _ _ _ _ => trivial
      · exact fun _ _ _ => trivial
  scopeTag := by
    intro p pc ext σ w d _ _ hkind hflags _
    exact ⟨fun _ _ => trivial, entryOk_tag hkind hflags fun _ _ => trivial⟩
  scopePop _ _ _ _ _ := trivial
  unwindTo _ _ := ⟨False.elim, fun _ _ _ => trivial⟩
  popOk h := h.elim
  resumeOk h := h.elim

/-! ## The shape of a configuration -/

namespace Config

def leaving : Cont L → Bool
  | .leaveJump | .leave _ => true
  | _ => false

def crossing : Cont L → Bool
  | .tagEnter _ | .tagPop | .leaveJump | .leave _ => true
  | _ => false

theorem leaving_of_not_crossing {k : Cont L} (h : crossing k = false) : leaving k = false := by
  cases k <;> first | rfl | cases h

def ArmTyped (J : Judgement L) (f : UFrame L) (σ : List (UCleanup L)) : Cont L → Prop
  | .eq _ | .less _ _ _ _ => J.Rests f.proto f.pc σ ∧ J.Rests f.proto (f.pc + 1) σ
  | _ => J.Rests f.proto f.pc σ

def BudgetOk (b : Option Nat) (rest : List (Act L)) : Prop := b ≠ some 0 ∧ (rest ≠ [] → b = none)

/-- Under a frame (`some boundary`), or under the C code of an arm (`none`). -/
inductive Stacked (J : Judgement L) :
    Option Bool → List (UFrame L) → List (UCleanup L) → List (Act L) → Prop
  | bottom : Stacked J (some false) [] [] []
  | caller {f fs σ c acts} : Stacked J (some f.isBoundary) fs c acts →
      (∀ d ∈ σ, d.frame = fs.length) → Owned J f.proto σ → J.Rests f.proto f.pc σ →
      Stacked J (some false) (f :: fs) (σ ++ c) acts
  | enter {fs c acts saved} : Stacked J none fs c acts →
      Stacked J (some true) fs c (.call saved :: acts)
  | arm {f fs σ c k failed b e rest} : Stacked J (some f.isBoundary) fs c rest →
      (∀ d ∈ σ, d.frame = fs.length) → Owned J f.proto σ → ArmTyped J f σ k →
      k ≠ .callback → leaving k = false → (k = .yield → rest = []) → BudgetOk b rest →
      J.rest e → Stacked J none (f :: fs) (σ ++ c) (.out k failed :: .run b e false :: rest)
  | callback {fs c acts failed} : Stacked J none fs c acts →
      Stacked J none fs c (.out .callback failed :: acts)
  | host {failed} : Stacked J none [] [] [.out .callback failed]

structure Current (J : Judgement L) (s : UStrand L) (rest : List (Act L)) (f : UFrame L)
    (fs : List (UFrame L)) (σ c : List (UCleanup L)) : Prop where
  frames : s.frames = f :: fs
  cleanup : s.cleanup = σ ++ c
  under : Stacked J (some f.isBoundary) fs c rest
  frameIdx : ∀ d ∈ σ, d.frame = fs.length
  owned : Owned J f.proto σ

def Calm (s : UStrand L) : Prop := s.unwind = .none ∨ s.unwind = .stop

def JumpState (J : Judgement L) (s : UStrand L) (f : UFrame L) (σ : List (UCleanup L)) (n : Nat) :
    Prop :=
  s.unwind = .jump → s.jumpDepth < 2 ^ 8 ∧ JumpOk J f.proto s.transfer n σ

inductive Shape (J : Judgement L) : Config L → Prop
  | fetch {s rest f fs σ c b ext flags} : Current J s rest f fs σ c → J.At f.proto f.pc ext σ →
      Calm s → BudgetOk b rest → Shape J ⟨s, .run b ext false :: rest, flags⟩
  | walk {s rest f fs σ c b e flags} : Current J s rest f fs σ c → s.unwind ≠ .none →
      JumpState J s f σ s.jumpDepth → BudgetOk b rest → J.rest e →
      Shape J ⟨s, .run b e true :: rest, flags⟩
  | drained {s b e flags} : s.frames = [] → s.cleanup = [] → s.unwind ≠ .none → BudgetOk (L := L) b [] →
      J.rest e → Shape J ⟨s, [.run b e true], flags⟩
  | leaveJump {s rest f fs σ c b e failed flags} : Current J s rest f fs σ c → s.unwind ≠ .none →
      1 ≤ s.jumpDepth → JumpState J s f σ (s.jumpDepth - 1) → BudgetOk b rest → J.rest e →
      Shape J ⟨s, .out .leaveJump failed :: .run b e true :: rest, flags⟩
  | leave {s rest f fs σ c b e failed top flags} : Current J s rest f fs σ c → s.unwind ≠ .none →
      s.unwind ≠ .jump → J.Rests f.proto top.onleavePc σ → BudgetOk b rest → J.rest e →
      Shape J ⟨s, .out (.leave top) failed :: .run b e true :: rest, flags⟩
  | out {s k failed rest flags} : Stacked J none s.frames s.cleanup (.out k failed :: rest) →
      (failed = false → Calm s) → s.unwind ≠ .jump →
      Shape J ⟨s, .out k failed :: rest, flags⟩
  | empty {s b e flags} : s.frames = [] → s.cleanup = [] → s.nboundary = 0 →
      Shape J ⟨s, [.run b e false], flags⟩
  | idle {s flags} : Stacked J (some false) s.frames s.cleanup [] →
      (Calm s ∨ s.state = .dead ∨ s.frames = []) → Shape J ⟨s, [], flags⟩

/-! ## Boundaries -/

def isCall : Act L → Bool
  | .call _ => true
  | _ => false

def calls (acts : List (Act L)) : Nat := acts.countP isCall

def SavedOk : List (Act L) → Prop
  | .call saved :: acts => (0 < calls acts → saved = .running) ∧ SavedOk acts
  | _ :: acts => SavedOk acts
  | [] => True

structure Bounded (c : Config L) : Prop where
  nboundary : c.strand.nboundary = calls c.acts
  running : 0 < calls c.acts → c.strand.state = .running
  saved : SavedOk c.acts

structure Spawned (c : Config L) (p : Fn L) : Prop where
  acts : c.acts = []
  frame : ∃ f, c.strand.frames = [f] ∧ f.proto = p ∧ f.pc = 0 ∧ f.isBoundary = false
  cleanup : c.strand.cleanup = []
  unwind : c.strand.unwind = .none
  nboundary : c.strand.nboundary = 0

structure Spare (c : Config L) : Prop where
  acts : c.acts = [.out .callback false]
  frames : c.strand.frames = []
  cleanup : c.strand.cleanup = []
  unwind : c.strand.unwind = .none
  nboundary : c.strand.nboundary = 0

def Initial (c : Config L) : Prop := (∃ p, Spawned c p) ∨ Spare c

theorem Initial.atRest {c : Config L} (h : Initial c) :
    (c.acts = [] ∨ c.acts = [.out .callback false]) ∧ c.strand.cleanup = [] ∧
      c.strand.unwind = .none := by
  rcases h with ⟨p, h⟩ | h
  · exact ⟨.inl h.acts, h.cleanup, h.unwind⟩
  · exact ⟨.inr h.acts, h.cleanup, h.unwind⟩

end Config

end Urbi
