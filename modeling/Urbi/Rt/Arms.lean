import Urbi.Rt.Typing

/-!
# What the arms can do

`ArmFor` lists, for an opcode, the arms it can come to; the preservation proof goes by arm and never
looks at an opcode again.
-/

namespace Urbi

variable {L : CodeBase}
variable {win : Window L} {a : Arm L} {s s' : UStrand L}

def Cont.maySkip : Cont L → Bool
  | .eq _ | .less _ _ _ _ => true
  | _ => false

def ArmFor (p : UProto) (may : Bool) (op : UOpcode) (w : UInt32) : Arm L → Prop
  | .next _ skip => falls op = true ∧ (skip = true → opMaySkip op w = true)
  | .poke _ _ | .call _ _ _ | .joinWait _ | .loadCatch _ => falls op = true
  | .jmp off => op = .jmp ∧ off = (uinstrBx w : Int) - ujmpBias
  | .extarg _ => op = .extarg
  | .closed _ _ words =>
    op = .closure ∧ ∃ child, nestedAt p.nested (uinstrBx w) = some child ∧
      words = child.block.nupvals.toNat
  | .raise _ _ _ | .raiseAt _ _ _ => op ≠ .extarg
  | .throw _ => op = .throw
  | .ret _ => op = .ret
  | .out k =>
    falls op = true ∧ k ≠ .callback ∧ Config.crossing k = false ∧ (k = .yield → may = true) ∧
      (k.maySkip = true → opMaySkip op w = true)
  | .pushTry flags handler => op = .scopeTry ∧ flags = uinstrA w ∧ handler = uinstrBx w
  | .pushTag _ handler => op = .scopeTag ∧ handler = uinstrBx w
  | .scopePop a => op = .scopePop ∧ a = uinstrA w
  | .resume => op = .resume
  | .unwindTo depth target => op = .unwindTo ∧ depth = uinstrA w ∧ target = uinstrBx w

section Arms

variable {p : UProto} {may : Bool} {op : UOpcode} {w : UInt32} {o : Oracle L}

theorem armFor_arith (hf : falls op = true) (dst : Nat) (aop : UArithOp) (b c : UValue L) :
    ArmFor p may op w (armOfArith dst o aop b c) := by
  have hne : op ≠ .extarg := fun h => by rw [h] at hf; cases hf
  unfold armOfArith
  split
  · split
    · exact hne
    · exact ⟨hf, fun h => nomatch h⟩
  · exact hne
  · exact ⟨hf, nofun, rfl, nofun, fun h => nomatch h⟩

theorem armFor_compare (hf : falls op = true) (hs : opMaySkip op w = true) {k : Cont L} {want : Nat}
    (hk : k ≠ .callback) (hl : Config.crossing k = false) (hy : k ≠ .yield) (r : UOpResult Bool) :
    ArmFor p may op w (armOfCompare k want r) := by
  cases r with
  | value r => exact ⟨hf, fun _ => hs⟩
  | divByZero | dispatch => exact ⟨hf, hk, hl, fun h => absurd h hy, fun _ => hs⟩

theorem armFor_capture (hop : op ≠ .extarg) {done : Arm L} (hd : ArmFor p may op w done)
    (grant : Nat → Bool) (nupvals k : Nat) (ws : List UInt32) :
    ArmFor p may op w (captureUpvals grant nupvals k ws done) := by
  induction ws generalizing k with
  | nil => exact hd
  | cons v ws ih =>
    unfold captureUpvals
    split
    · split
      · exact ih (k + 1)
      · exact hop
    · split
      · exact hop
      · exact ih (k + 1)

theorem armFor_closure (hp : win.frame.proto.val = p) {dst : Nat}
    (h : armOfClosure o win dst (uinstrBx w) = some a) : ArmFor p may .closure w a := by
  have hne : UOpcode.closure ≠ .extarg := by decide
  unfold armOfClosure at h
  split at h
  · cases h; exact hne
  · rename_i child hchild
    rw [hp] at hchild
    split at h
    · cases h; exact hne
    · dsimp only at h
      split at h <;> cases h
      apply armFor_capture hne
      exact ⟨rfl, child, hchild, rfl⟩

theorem armFor_site (hop : op ≠ .extarg) {site : Nat} {what : String} (ha : ArmFor p may op w a) :
    ArmFor p may op w (armOfSite o win site what a) := by
  unfold armOfSite
  split
  · exact hop
  · exact ha

theorem armFor_arm (hp : win.frame.proto.val = p) {ext : Nat}
    (h : arm o win may ext op w = some a) : ArmFor p may op w a := by
  have hraise : ∀ {op' : UOpcode} (which : UErrorProto) (msg : String) (pos : Bool),
      op' ≠ .extarg → ArmFor (L := L) p may op' w (.raise which msg pos) := fun _ _ _ h => h
  cases op with
  | closure => exact armFor_closure hp h
  | add | sub | mul | div => cases h; exact armFor_arith rfl _ _ _ _
  | eq | lt | le =>
    cases h
    refine armFor_compare rfl ?_ ?_ ?_ ?_ _
    · exact rfl
    · nofun
    · exact rfl
    · nofun
  | neg =>
    simp only [arm] at h
    split at h <;> cases h
    · exact ⟨rfl, fun h => nomatch h⟩
    · exact ⟨rfl, nofun, rfl, nofun, fun h => nomatch h⟩
  | yield =>
    simp only [arm] at h
    cases h
    split
    · exact ⟨rfl, nofun, rfl, fun _ => ‹_›, fun h => nomatch h⟩
    · exact ⟨rfl, fun h => nomatch h⟩
  | getupval | setupval =>
    simp only [arm] at h
    split at h <;> cases h
    · exact hraise _ _ _ (by decide)
    · first | exact rfl | exact ⟨rfl, fun h => nomatch h⟩
  | testset =>
    simp only [arm] at h
    split at h <;> cases h
    · exact ⟨rfl, fun _ => rfl⟩
    · exact ⟨rfl, fun h => nomatch h⟩
  | loadRealmGlobal =>
    simp only [arm] at h
    split at h <;> cases h
    · exact ⟨rfl, fun h => nomatch h⟩
    · exact hraise _ _ _ (by decide)
  | getslot | self =>
    cases h
    exact armFor_site (by decide) ⟨rfl, nofun, rfl, nofun, fun h => nomatch h⟩
  | setslot | setslotUpdate =>
    cases h
    refine armFor_site (by decide) ?_
    split
    · exact ⟨rfl, nofun, rfl, nofun, fun h => nomatch h⟩
    · exact hraise _ _ _ (by decide)
  | getslotChangeEvent =>
    cases h
    refine armFor_site (by decide) ?_
    split
    · exact hraise _ _ _ (by decide)
    · split
      · exact ⟨rfl, fun h => nomatch h⟩
      · exact hraise _ _ _ (by decide)
  | fork =>
    cases h
    unfold armOfFork
    dsimp only
    split
    · split
      · exact hraise _ _ _ (by decide)
      · exact ⟨rfl, fun h => nomatch h⟩
    · exact hraise _ _ _ (by decide)
  | joinWait =>
    simp only [arm] at h
    split at h <;> cases h
    · exact rfl
    · exact hraise _ _ _ (by decide)
  | install =>
    cases h
    unfold armOfInstall
    split
    · split <;> exact ⟨rfl, nofun, rfl, nofun, fun h => nomatch h⟩
    · exact hraise _ _ _ (by decide)
  | scopeTag =>
    cases h
    unfold armOfTag
    split
    · exact ⟨rfl, rfl⟩
    · split
      · exact ⟨rfl, rfl⟩
      · exact hraise _ _ _ (by decide)
  | loadbool => cases h; exact ⟨rfl, fun h => by simpa [opMaySkip] using h⟩
  | test => cases h; exact ⟨rfl, fun _ => rfl⟩
  | scopeTry | unwindTo => cases h; exact ⟨rfl, rfl, rfl⟩
  | jmp | scopePop => cases h; exact ⟨rfl, rfl⟩
  | ret | throw | resume | extarg | call | loadCatchValue => cases h; exact rfl
  | loadk | move | loadnil | loadvoid | close | loadRecv =>
    cases h; exact ⟨rfl, fun h => nomatch h⟩

end Arms

/-! ## Register writes -/

namespace UStrand

theorem setRegs_eq (s : UStrand L) (base : Nat) (ws : List (Nat × UValue L)) :
    ∃ stack, s.setRegs base ws = { s with stack := stack } := by
  induction ws generalizing s with
  | nil => exact ⟨s.stack, rfl⟩
  | cons w ws ih =>
    obtain ⟨stack, h⟩ := ih (s.setReg (base + w.1) w.2)
    exact ⟨stack, h⟩

theorem storeNargs_eq (s : UStrand L) (p : Fn L) (base nargs : Nat) :
    ∃ stack, s.storeNargs p base nargs = { s with stack := stack } := by
  unfold storeNargs
  split
  · exact ⟨_, rfl⟩
  · exact ⟨s.stack, rfl⟩

theorem setPc_of_frames {f : UFrame L} {fs : List (UFrame L)} (h : s.frames = f :: fs) (pc : Nat) :
    s.setPc pc = { s with frames := { f with pc := pc } :: fs } := by
  unfold setPc
  rw [h]

theorem pushFrameArgs_eq {grant : Nat → Bool} {cl : UClosure L} {p : Fn L} {recv : UValue L}
    {base retReg nkeep : Nat} (h : s.pushFrameArgs grant cl p recv base retReg nkeep = .ok s') :
    ∃ stack cap, s' = { s with
      stack := stack, framesCap := cap
      frames := ⟨cl, p, 0, base, retReg, false, recv⟩ :: s.frames } := by
  unfold pushFrameArgs at h
  split at h
  · cases h
  · split at h
    · cases h
    · split at h <;> cases h
      exact ⟨_, _, rfl⟩

theorem pushCleanup_eq {grant : Bool} {d : UCleanup L} (h : s.pushCleanup grant d = some s') :
    ∃ cap, s' = { s with cleanupCap := cap, cleanup := d :: s.cleanup } := by
  unfold pushCleanup at h
  split at h
  · split at h
    · cases h
    · cases h; exact ⟨_, rfl⟩
  · cases h; exact ⟨s.cleanupCap, rfl⟩

theorem park_eq (h : s.park = some s') :
    s.mayDeschedule = true ∧ s' = { s with state := .parked } := by
  unfold park at h
  split at h
  · cases h; exact ⟨‹_›, rfl⟩
  · cases h

end UStrand

theorem enterProto_eq {o : Oracle L} {what : String} {cl : UClosure L} {p : Fn L}
    {recv : UValue L} {base retReg nargs : Nat}
    (h : enterProto s o what cl p recv base retReg nargs = .entered s') :
    ∃ stack cap, s' = { s with
      stack := stack, framesCap := cap
      frames := ⟨cl, p, 0, base, retReg, false, recv⟩ :: s.frames } := by
  unfold enterProto at h
  split at h
  · cases h
  · split at h
    · cases h
    · cases h
    · rename_i s₁ hpush
      cases h
      obtain ⟨stack, cap, rfl⟩ := UStrand.pushFrameArgs_eq hpush
      obtain ⟨stack', h'⟩ := UStrand.storeNargs_eq { s with
        stack := stack, framesCap := cap
        frames := ⟨cl, p, 0, base, retReg, false, recv⟩ :: s.frames } p base nargs
      exact ⟨stack', cap, h'⟩

theorem doCall_eq {o : Oracle L} {f : UFrame L} {a b c : Nat}
    (h : doCall s o f a b c = .entered s') :
    ∃ (g : UFrame L) (stack : Nat → UValue L) (cap : Nat), g.pc = 0 ∧ g.isBoundary = false ∧
      s' = { s with stack := stack, framesCap := cap, frames := g :: s.frames } := by
  unfold doCall at h
  dsimp only at h
  -- where the arguments start does not matter here
  generalize (if 0x80 ≤ c then 2 else 1) = argOff at h
  split at h
  · cases h
  · split at h
    · split at h
      · split at h <;> cases h
      · obtain ⟨stack, cap, h'⟩ := enterProto_eq h
        exact ⟨_, stack, cap, rfl, rfl, h'⟩
    · cases h

end Urbi
