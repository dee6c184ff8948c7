import Mathlib.Data.List.Nodup
import Urbi.Lib.Capacity
import Urbi.Rt.Value

/-!
# Open upvalues

A captured register stays in the register stack, which moves as it grows, until its variable is
closed.  In `Vars` a register between two closes is a variable, and a cell is a name for one.
-/

namespace Urbi

variable {L : CodeBase}

/-! ## The register stack and its cells -/

/-- Into the block of registers that was at an address, or at the cell's own `closed`. -/
inductive UPtr where
  | stack (block index : Nat)
  | own
  deriving DecidableEq

structure UUpvalCell (L : CodeBase) where
  ptr : UPtr
  closed : UValue L
  stackIndex : Nat

/-- `cells` are the upvalue cells made so far, `frames` the bases of the frames, innermost first. -/
structure URegisters (L : CodeBase) where
  block : Nat
  stack : List (UValue L)
  cells : Nat → UUpvalCell L
  ncells : Nat
  openUpvals : List Nat
  frames : List Nat

def URegisters.new : URegisters L where
  block := 0
  stack := []
  cells _ := ⟨.own, .nil, 0⟩
  ncells := 0
  openUpvals := []
  frames := []

namespace URegisters

def setCell (s : URegisters L) (u : Nat) (cell : UUpvalCell L) : URegisters L :=
  { s with cells := fun v => if v = u then cell else s.cells v }

/-- None where the pointer leads out of the stack. -/
def read (s : URegisters L) (u : Nat) : Option (UValue L) :=
  match (s.cells u).ptr with
  | .own => some (s.cells u).closed
  | .stack block i => if block = s.block then s.stack[i]? else none

def write (s : URegisters L) (u : Nat) (v : UValue L) : Option (URegisters L) :=
  match (s.cells u).ptr with
  | .own => some (s.setCell u { s.cells u with closed := v })
  | .stack block i =>
    if block = s.block ∧ i < s.stack.length then some { s with stack := s.stack.set i v } else none

def setReg (s : URegisters L) (i : Nat) (v : UValue L) : URegisters L :=
  { s with stack := s.stack.set i v }

/-- Does not end once the capacity has wrapped. -/
def doubleTo (needed : Nat) : Nat → Nat → Option Nat
  | 0, _ => none
  | fuel + 1, cap => if needed ≤ cap then some cap else doubleTo needed fuel (cap * 2 % 2 ^ 32)

/-- `host` is the address the host answers with, if any.  None if the call does not return. -/
def ensureStack (s : URegisters L) (needed : Nat) (host : Option Nat) :
    Option (Bool × URegisters L) :=
  if needed ≤ s.stack.length then some (true, s)
  else do
    let cap ← doubleTo needed 33 (if s.stack.length = 0 then 8 else s.stack.length)
    match host with
    | none => some (false, s)
    | some block =>
      -- the new part is zeroed, which reads as nil; the open cells are pointed at the new block
      some (true, { s with
        block
        stack := s.stack ++ List.replicate (cap - s.stack.length) .nil
        cells := fun u => if u ∈ s.openUpvals
          then { s.cells u with ptr := .stack block (s.cells u).stackIndex } else s.cells u })

def fill (s : URegisters L) (lo hi : Nat) : URegisters L :=
  { s with stack := s.stack.mapIdx fun i v => if lo ≤ i ∧ i < hi then .nil else v }

/-- `framesOk` is the answer to a request for a larger frame table, where there is one. -/
def pushFrame (s : URegisters L) (base maxReg nkeep : Nat) (framesOk : Bool) (host : Option Nat) :
    Option (Bool × URegisters L) :=
  if framesOk then do
    let needed := (base + maxReg + 1) % 2 ^ 32
    let (ok, s) ← s.ensureStack needed host
    if ok then
      let s := s.fill ((base + nkeep) % 2 ^ 32) needed
      some (true, { s with frames := base :: s.frames })
    else some (false, s)
  else some (false, s)

/-- The cell, and the open list with it at its place. -/
def findOrOpen (s : URegisters L) (i : Nat) (granted : Bool) : Option Nat × URegisters L :=
  let above := s.openUpvals.takeWhile fun u => i < (s.cells u).stackIndex
  let rest := s.openUpvals.dropWhile fun u => i < (s.cells u).stackIndex
  match rest.head?.filter fun u => (s.cells u).stackIndex = i with
  | some u => (some u, s)
  | none =>
    if granted then
      (some s.ncells, { s.setCell s.ncells ⟨.stack s.block i, .nil, i⟩ with
        ncells := s.ncells + 1
        openUpvals := above ++ s.ncells :: rest })
    else (none, s)

def shutCell (s : URegisters L) (u : Nat) (v : UValue L) : URegisters L :=
  s.setCell u { s.cells u with ptr := .own, closed := v }

def closeLoop (k : Nat) : List Nat → URegisters L → Option (URegisters L)
  | [], s => some { s with openUpvals := [] }
  | u :: rest, s =>
    if k ≤ (s.cells u).stackIndex then do
      let v ← s.read u
      closeLoop k rest (s.shutCell u v)
    else some { s with openUpvals := u :: rest }

def closeUpvals (s : URegisters L) (k : Nat) : Option (URegisters L) := closeLoop k s.openUpvals s

def popFrame (s : URegisters L) : Option (URegisters L) :=
  match s.frames with
  | [] => some s
  | base :: frames => do
      let s ← s.closeUpvals base
      some { s with frames }

end URegisters

inductive VarEvent (L : CodeBase) where
  | captured (i u : Nat)
  | wrote (i : Nat) (v : UValue L)
  | filled (lo hi : Nat)
  | wroteThrough (u : Nat) (v : UValue L)
  | closed (k : Nat)

/-- The events are the last first. -/
inductive UpvalRun : List (VarEvent L) → URegisters L → Prop where
  | new : UpvalRun [] .new
  | captured {log s s'} {i u : Nat} (granted : Bool) : UpvalRun log s → i < s.stack.length →
      s.findOrOpen i granted = (some u, s') → UpvalRun (.captured i u :: log) s'
  | refused {log s s'} {i : Nat} (granted : Bool) : UpvalRun log s → i < s.stack.length →
      s.findOrOpen i granted = (none, s') → UpvalRun log s'
  | wrote {log s} {i : Nat} (v : UValue L) : UpvalRun log s → i < s.stack.length →
      UpvalRun (.wrote i v :: log) (s.setReg i v)
  | wroteThrough {log s s'} {u : Nat} (v : UValue L) : UpvalRun log s → u < s.ncells →
      s.write u v = some s' → UpvalRun (.wroteThrough u v :: log) s'
  | ensured {log s s'} {needed : Nat} {host : Option Nat} {ok : Bool} : UpvalRun log s →
      s.ensureStack needed host = some (ok, s') → UpvalRun log s'
  | pushed {log s s'} {base maxReg nkeep : Nat} {framesOk : Bool} {host : Option Nat} :
      UpvalRun log s → s.pushFrame base maxReg nkeep framesOk host = some (true, s') →
      UpvalRun (.filled ((base + nkeep) % 2 ^ 32) ((base + maxReg + 1) % 2 ^ 32) :: log) s'
  | notPushed {log s s'} {base maxReg nkeep : Nat} {framesOk : Bool} {host : Option Nat} :
      UpvalRun log s → s.pushFrame base maxReg nkeep framesOk host = some (false, s') →
      UpvalRun log s'
  | popped {log s s'} {base : Nat} {frames : List Nat} : UpvalRun log s →
      s.frames = base :: frames → s.popFrame = some s' → UpvalRun (.closed base :: log) s'
  | closed {log s s'} {k : Nat} : UpvalRun log s → s.closeUpvals k = some s' →
      UpvalRun (.closed k :: log) s'

def VarEvent.isWrite : VarEvent L → Bool
  | .wrote _ _ | .filled _ _ | .wroteThrough _ _ => true
  | .captured _ _ | .closed _ => false

/-! ## Variables -/

/-- A variable is a register and the number of closes that have ended one there: `gen i` is the one
register `i` holds now. -/
structure Vars (L : CodeBase) where
  gen : Nat → Nat
  cell : Nat → Option (Nat × Nat)
  val : Nat × Nat → UValue L

namespace Vars

def reg (a : Vars L) (i : Nat) : Nat × Nat := (i, a.gen i)

def set (a : Vars L) (x : Nat × Nat) (v : UValue L) : Vars L :=
  { a with val := fun y => if y = x then v else a.val y }

def step (a : Vars L) : VarEvent L → Vars L
  | .captured i u => { a with cell := fun u' => if u' = u then some (a.reg i) else a.cell u' }
  | .wrote i v => a.set (a.reg i) v
  | .filled lo hi => { a with
      val := fun x => if lo ≤ x.1 ∧ x.1 < hi ∧ x = a.reg x.1 then .nil else a.val x }
  | .wroteThrough u v => ((a.cell u).map fun x => a.set x v).getD a
  | .closed k => { a with
      gen := fun i => if k ≤ i then a.gen i + 1 else a.gen i
      val := fun x => if k ≤ x.1 ∧ x.2 = a.gen x.1 + 1 then a.val (a.reg x.1) else a.val x }

def after : List (VarEvent L) → Vars L
  | [] => ⟨fun _ => 0, fun _ => none, fun _ => .nil⟩
  | e :: log => (after log).step e

end Vars

/-- `u` was captured from register `i`, with no close of it since. -/
inductive StillOpen : List (VarEvent L) → Nat → Nat → Prop where
  | now {log} (i u : Nat) : StillOpen (.captured i u :: log) i u
  | later {log i u} {e : VarEvent L} : StillOpen log i u → (∀ k, e = .closed k → i < k) →
      StillOpen (e :: log) i u

section Descending

variable (idx : Nat → Nat) {l : List Nat}

theorem takeWhile_dropWhile_eq_filter (h : l.Pairwise fun u v => idx v < idx u) (k : Nat) :
    l.takeWhile (fun u => decide (k ≤ idx u)) = l.filter (fun u => decide (k ≤ idx u)) ∧
      l.dropWhile (fun u => decide (k ≤ idx u)) = l.filter (fun u => decide (idx u < k)) := by
  induction l with
  | nil => exact ⟨rfl, rfl⟩
  | cons v l ih =>
    obtain ⟨hv, hl⟩ := List.pairwise_cons.mp h
    by_cases hk : k ≤ idx v
    · simp [hk, Nat.not_lt.mpr hk, ih hl]
    · have hbelow : ∀ u ∈ l, idx u < k := fun u hu => (hv u hu).trans (Nat.lt_of_not_le hk)
      have hall := List.filter_eq_self.mpr fun u hu => decide_eq_true (hbelow u hu)
      simpa [hk, Nat.lt_of_not_le hk, hall] using hbelow

theorem mem_takeWhile_iff (h : l.Pairwise fun u v => idx v < idx u) (k u : Nat) :
    u ∈ l.takeWhile (fun u => decide (k ≤ idx u)) ↔ u ∈ l ∧ k ≤ idx u := by
  rw [(takeWhile_dropWhile_eq_filter idx h k).1, List.mem_filter, decide_eq_true_iff]

theorem mem_dropWhile_iff (h : l.Pairwise fun u v => idx v < idx u) (k u : Nat) :
    u ∈ l.dropWhile (fun u => decide (k ≤ idx u)) ↔ u ∈ l ∧ idx u < k := by
  rw [(takeWhile_dropWhile_eq_filter idx h k).2, List.mem_filter, decide_eq_true_iff]

theorem eq_of_idx_eq (h : l.Pairwise fun u v => idx v < idx u) {u v : Nat} (hu : u ∈ l) (hv : v ∈ l)
    (heq : idx u = idx v) : u = v := by
  have hnodup : (l.map idx).Nodup := List.pairwise_map.mpr (h.imp Nat.ne_of_gt)
  exact List.inj_on_of_nodup_map hnodup hu hv heq

theorem pairwise_insert {idx' : Nat → Nat} {n : Nat} {above rest : List Nat}
    (h : (above ++ rest).Pairwise fun u v => idx v < idx u)
    (hidx : ∀ u ∈ above ++ rest, idx' u = idx u) (habove : ∀ u ∈ above, idx' n < idx u)
    (hrest : ∀ u ∈ rest, idx u < idx' n) :
    (above ++ n :: rest).Pairwise fun u v => idx' v < idx' u := by
  have h' : (above ++ rest).Pairwise fun u v => idx' v < idx' u :=
    h.imp_of_mem fun hu hv hlt => by rwa [hidx _ hu, hidx _ hv]
  rw [List.pairwise_append] at h'
  rw [List.pairwise_append, List.pairwise_cons]
  refine ⟨h'.1, ⟨fun u hu => ?_, h'.2.1⟩, fun u hu v hv => ?_⟩
  · rw [hidx u (List.mem_append_right _ hu)]
    exact hrest u hu
  · rcases List.mem_cons.mp hv with rfl | hv
    · rw [hidx u (List.mem_append_left _ hu)]
      exact habove u hu
    · exact h'.2.2 u hu v hv

end Descending

/-! ## What each operation keeps -/

namespace URegisters

variable (s : URegisters L) (u : Nat)

theorem setCell_self (cell : UUpvalCell L) : (s.setCell u cell).cells u = cell := if_pos rfl

theorem setCell_of_ne (cell : UUpvalCell L) {w : Nat} (h : w ≠ u) :
    (s.setCell u cell).cells w = s.cells w := if_neg h

theorem shutCell_index (v : UValue L) (w : Nat) :
    ((s.shutCell u v).cells w).stackIndex = (s.cells w).stackIndex := by
  unfold shutCell
  by_cases hw : w = u
  · rw [hw, setCell_self]
  · rw [setCell_of_ne s u _ hw]

end URegisters

/-- The cell points at its register and names the variable there. -/
structure Vars.Open (a : Vars L) (s : URegisters L) (u : Nat) (c : UUpvalCell L) : Prop where
  pointed : c.ptr = .stack s.block c.stackIndex
  inside : c.stackIndex < s.stack.length
  made : u < s.ncells
  named : a.cell u = some (a.reg c.stackIndex)

structure Vars.Held (a : Vars L) (s : URegisters L) : Prop where
  sorted : s.openUpvals.Pairwise fun u v => (s.cells v).stackIndex < (s.cells u).stackIndex
  opened : ∀ u ∈ s.openUpvals, a.Open s u (s.cells u)
  shut : ∀ u < s.ncells, u ∉ s.openUpvals → (s.cells u).ptr = .own ∧
    ∃ x, a.cell u = some x ∧ a.val x = (s.cells u).closed ∧ x.2 < a.gen x.1
  unmade : ∀ u, s.ncells ≤ u → a.cell u = none
  one : ∀ u v x, a.cell u = some x → a.cell v = some x → u = v
  regs : ∀ i, a.val (a.reg i) = s.stack[i]?.getD .nil
  cap : Lib.Doubling 31 s.stack.length

namespace Vars

variable {a : Vars L} {s s' : URegisters L}

theorem Held.new : (after ([] : List (VarEvent L))).Held .new where
  sorted := List.Pairwise.nil
  opened := nofun
  shut u hu := absurd hu (Nat.not_lt_zero u)
  unmade _ _ := rfl
  one _ _ _ h := nomatch h
  regs _ := rfl
  cap := .inl rfl

theorem reg_ne {x : Nat × Nat} (h : x.2 < a.gen x.1) (i : Nat) : a.reg i ≠ x := by
  rintro rfl
  exact Nat.lt_irrefl _ h

theorem set_val_of_ne {x y : Nat × Nat} (h : y ≠ x) (v : UValue L) : (a.set x v).val y = a.val y :=
  if_neg h

theorem Held.rewrite (h : a.Held s) {stack : List (UValue L)} {val : Nat × Nat → UValue L}
    (hlen : stack.length = s.stack.length) (hleft : ∀ x, x.2 < a.gen x.1 → val x = a.val x)
    (hregs : ∀ i, val (a.reg i) = stack[i]?.getD .nil) :
    Held { a with val } { s with stack } where
  sorted := h.sorted
  opened u hu := { h.opened u hu with inside := (h.opened u hu).inside.trans_eq hlen.symm }
  shut u hu hnot := by
    obtain ⟨hptr, x, hx, hval, hlt⟩ := h.shut u hu hnot
    exact ⟨hptr, x, hx, (hleft x hlt).trans hval, hlt⟩
  unmade := h.unmade
  one := h.one
  regs := hregs
  cap := by
    show Lib.Doubling 31 stack.length
    rw [hlen]
    exact h.cap

theorem Held.setReg (h : a.Held s) {i : Nat} (hi : i < s.stack.length) (v : UValue L) :
    (a.set (a.reg i) v).Held (s.setReg i v) := by
  have hne : ∀ j, i ≠ j → (a.set (a.reg i) v).val (a.reg j) = a.val (a.reg j) :=
    fun j hij => set_val_of_ne (fun heq => hij (congrArg Prod.fst heq).symm) v
  apply h.rewrite List.length_set
  · exact fun x hx => set_val_of_ne (reg_ne hx i).symm v
  · intro j
    by_cases hij : i = j
    · subst hij
      rw [List.getElem?_set_self hi]
      exact if_pos rfl
    · rw [List.getElem?_set_ne hij]
      exact (hne j hij).trans (h.regs j)

theorem Held.write_open (h : a.Held s) {u : Nat} (hu : u ∈ s.openUpvals) (v : UValue L) :
    s.write u v = some (s.setReg (s.cells u).stackIndex v) ∧
      a.step (.wroteThrough u v) = a.set (a.reg (s.cells u).stackIndex) v := by
  constructor
  · unfold URegisters.write
    rw [(h.opened u hu).pointed]
    exact if_pos ⟨rfl, (h.opened u hu).inside⟩
  · show ((a.cell u).map fun x => a.set x v).getD a = _
    rw [(h.opened u hu).named]
    rfl

theorem Held.write_shut (h : a.Held s) {u : Nat} (hu : u < s.ncells) (hnot : u ∉ s.openUpvals)
    (v : UValue L) :
    s.write u v = some (s.setCell u { s.cells u with closed := v }) ∧
      (a.step (.wroteThrough u v)).Held (s.setCell u { s.cells u with closed := v }) := by
  obtain ⟨hptr, x, hx, -, hlt⟩ := h.shut u hu hnot
  have hstep : a.step (.wroteThrough u v) = a.set x v := by
    show ((a.cell u).map fun x => a.set x v).getD a = _
    rw [hx]
    rfl
  have hcells : ∀ w, w ≠ u → (s.setCell u { s.cells u with closed := v }).cells w = s.cells w :=
    fun w hw => s.setCell_of_ne u _ hw
  have hopen : ∀ w ∈ s.openUpvals, w ≠ u := fun w hw heq => hnot (heq ▸ hw)
  refine ⟨by unfold URegisters.write; rw [hptr], ?_⟩
  rw [hstep]
  constructor
  · refine h.sorted.imp_of_mem fun hu hw hlt => ?_
    rw [hcells _ (hopen _ hu), hcells _ (hopen _ hw)]
    exact hlt
  · intro w hw
    rw [hcells w (hopen w hw)]
    exact { h.opened w hw with }
  · intro w hw hnotw
    by_cases hwu : w = u
    · subst hwu
      rw [s.setCell_self]
      exact ⟨hptr, x, hx, if_pos rfl, hlt⟩
    · obtain ⟨hptrw, y, hy, hvaly, hlty⟩ := h.shut w hw hnotw
      rw [hcells w hwu]
      refine ⟨hptrw, y, hy, ?_, hlty⟩
      have hne : y ≠ x := by
        rintro rfl
        exact hwu (h.one w u y hy hx)
      rw [set_val_of_ne hne, hvaly]
  · exact h.unmade
  · exact h.one
  · exact fun i => (set_val_of_ne (reg_ne hlt i) v).trans (h.regs i)
  · exact h.cap

theorem Held.fill (h : a.Held s) (lo hi : Nat) : (a.step (.filled lo hi)).Held (s.fill lo hi) := by
  have hreg : ∀ i, (a.step (.filled lo hi)).val (a.reg i) =
      if lo ≤ i ∧ i < hi then .nil else a.val (a.reg i) := by
    intro i
    show (if lo ≤ i ∧ i < hi ∧ a.reg i = a.reg i then UValue.nil else a.val (a.reg i)) = _
    simp
  apply h.rewrite List.length_mapIdx
  · exact fun x hx => if_neg fun hcond => reg_ne hx x.1 hcond.2.2.symm
  · intro i
    refine (hreg i).trans ?_
    rw [h.regs, List.getElem?_mapIdx]
    cases s.stack[i]? with
    | none => exact ite_self _
    | some v => rfl

theorem doubleTo_spec {needed fuel cap c : Nat} (hcap : Lib.Doubling 31 cap)
    (h : URegisters.doubleTo needed fuel cap = some c) : needed ≤ c ∧ Lib.Doubling 31 c := by
  induction fuel generalizing cap with
  | zero => cases h
  | succ fuel ih =>
    unfold URegisters.doubleTo at h
    split at h
    · rename_i hle
      obtain rfl := Option.some.inj h
      exact ⟨hle, hcap⟩
    · exact ih hcap.mul_two h

theorem doubleTo_isSome {needed fuel cap : Nat} (hneeded : needed ≤ 2 ^ 31)
    (hfuel : needed ≤ cap * 2 ^ fuel) :
    (URegisters.doubleTo needed (fuel + 1) cap).isSome = true := by
  induction fuel generalizing cap with
  | zero =>
    rw [URegisters.doubleTo, if_pos (by omega)]
    rfl
  | succ fuel ih =>
    rw [URegisters.doubleTo]
    split
    · rfl
    · rename_i hlt
      rw [Nat.mod_eq_of_lt (by omega)]
      apply ih
      rwa [Nat.mul_assoc, ← Nat.pow_succ']

theorem Held.grow (h : a.Held s) {n : Nat} (hn : s.stack.length ≤ n)
    (hcap : Lib.Doubling 31 n) (block : Nat) :
    a.Held { s with
      block
      stack := s.stack ++ List.replicate (n - s.stack.length) .nil
      cells := fun u => if u ∈ s.openUpvals
        then { s.cells u with ptr := .stack block (s.cells u).stackIndex } else s.cells u } := by
  have hlen : (s.stack ++ List.replicate (n - s.stack.length) UValue.nil).length = n := by
    rw [List.length_append, List.length_replicate]
    omega
  have hidx : ∀ u, (if u ∈ s.openUpvals
      then { s.cells u with ptr := UPtr.stack block (s.cells u).stackIndex }
      else s.cells u).stackIndex = (s.cells u).stackIndex := by
    intro u
    split <;> rfl
  constructor
  · simp only [hidx]
    exact h.sorted
  · intro u hu
    obtain ⟨-, hin, hmade, hnamed⟩ := h.opened u hu
    simp only [if_pos hu]
    exact ⟨rfl, hin.trans_le (hn.trans_eq hlen.symm), hmade, hnamed⟩
  · intro u hu hnot
    simp only [if_neg hnot]
    exact h.shut u hu hnot
  · exact h.unmade
  · exact h.one
  · intro i
    rw [h.regs]
    rcases Nat.lt_or_ge i s.stack.length with hlt | hge
    · rw [List.getElem?_append_left hlt]
    · rw [List.getElem?_append_right hge, List.getElem?_eq_none hge, List.getElem?_replicate]
      split <;> rfl
  · show Lib.Doubling 31 (s.stack ++ List.replicate (n - s.stack.length) UValue.nil).length
    rwa [hlen]

theorem Held.ensureStack (h : a.Held s) {needed : Nat} {host : Option Nat} {ok : Bool}
    (hs : s.ensureStack needed host = some (ok, s')) : a.Held s' ∧ s'.openUpvals = s.openUpvals ∧
      ∀ u, (s'.cells u).stackIndex = (s.cells u).stackIndex := by
  unfold URegisters.ensureStack at hs
  by_cases hle : needed ≤ s.stack.length
  · rw [if_pos hle] at hs
    cases hs
    exact ⟨h, rfl, fun _ => rfl⟩
  · rw [if_neg hle] at hs
    obtain ⟨c, hc, hs⟩ := Option.bind_eq_some_iff.mp hs
    have hstart : Lib.Doubling 31 (if s.stack.length = 0 then 8 else s.stack.length) := by
      split
      · exact .inr ⟨3, by decide, rfl⟩
      · exact h.cap
    obtain ⟨hneeded, hcap⟩ := doubleTo_spec hstart hc
    cases host with
    | none =>
      cases hs
      exact ⟨h, rfl, fun _ => rfl⟩
    | some block =>
      cases hs
      refine ⟨h.grow (by omega) hcap block, rfl, ?_⟩
      intro u
      show (if _ then _ else _ : UUpvalCell L).stackIndex = _
      split <;> rfl

def Shut (s s' : URegisters L) (gone : List Nat) (u : Nat) : Prop :=
  (s'.cells u).stackIndex = (s.cells u).stackIndex ∧
    (u ∈ gone → (s'.cells u).ptr = .own ∧
      s.stack[(s.cells u).stackIndex]? = some (s'.cells u).closed) ∧
    (u ∉ gone → s'.cells u = s.cells u)

theorem closeLoop_spec {k : Nat} (l : List Nat) (hnodup : l.Nodup)
    (hptr : ∀ u ∈ l, (s.cells u).ptr = .stack s.block (s.cells u).stackIndex)
    (hin : ∀ u ∈ l, (s.cells u).stackIndex < s.stack.length) :
    ∃ s', URegisters.closeLoop k l s = some s' ∧
      s'.openUpvals = l.dropWhile (fun u => decide (k ≤ (s.cells u).stackIndex)) ∧
      s'.stack = s.stack ∧ s'.block = s.block ∧ s'.ncells = s.ncells ∧
      ∀ u, Shut s s' (l.takeWhile fun u => decide (k ≤ (s.cells u).stackIndex)) u := by
  induction l generalizing s with
  | nil => exact ⟨_, rfl, rfl, rfl, rfl, rfl, fun u => ⟨rfl, nofun, fun _ => rfl⟩⟩
  | cons u l ih =>
    obtain ⟨hu, hnodup⟩ := List.nodup_cons.mp hnodup
    have hne : ∀ w ∈ l, w ≠ u := fun w hw heq => hu (heq ▸ hw)
    unfold URegisters.closeLoop
    by_cases hk : k ≤ (s.cells u).stackIndex
    · obtain ⟨v, hget⟩ : ∃ v, s.stack[(s.cells u).stackIndex]? = some v :=
        ⟨_, List.getElem?_eq_getElem (hin u List.mem_cons_self)⟩
      have hread : s.read u = some v := by
        unfold URegisters.read
        rw [hptr u List.mem_cons_self]
        exact (if_pos rfl).trans hget
      -- the rest of the loop sees the same indices and the same other cells
      have hother : ∀ w, w ≠ u → (s.shutCell u v).cells w = s.cells w :=
        fun w hw => s.setCell_of_ne u _ hw
      obtain ⟨s', hs', hopen, hstack, hblock, hncells, hcells⟩ := ih (s := s.shutCell u v) hnodup
        (fun w hw => by rw [hother w (hne w hw)]; exact hptr w (List.mem_cons_of_mem _ hw))
        (fun w hw => by rw [hother w (hne w hw)]; exact hin w (List.mem_cons_of_mem _ hw))
      simp only [s.shutCell_index] at hopen hcells
      refine ⟨s', ?_, ?_, hstack, hblock, hncells, ?_⟩
      · rw [if_pos hk, hread]
        exact hs'
      · rw [List.dropWhile_cons_of_pos (by simpa using hk)]
        exact hopen
      · intro w
        obtain ⟨hidx, hgone, hkept⟩ := hcells w
        rw [List.takeWhile_cons_of_pos (by simpa using hk)]
        by_cases hwu : w = u
        · subst hwu
          have hcell := hkept fun hmem => hu ((List.takeWhile_sublist _).subset hmem)
          have hself : s'.cells w = { s.cells w with ptr := .own, closed := v } :=
            hcell.trans (s.setCell_self w _)
          rw [Shut, hself]
          exact ⟨rfl, fun _ => ⟨rfl, hget⟩, fun hnot => absurd List.mem_cons_self hnot⟩
        · rw [hother w hwu] at hidx hgone hkept
          refine ⟨hidx, fun hmem => hgone ?_, fun hnot => hkept ?_⟩
          · exact (List.mem_cons.mp hmem).resolve_left hwu
          · exact fun hmem => hnot (List.mem_cons_of_mem _ hmem)
    · refine ⟨_, if_neg hk, ?_, rfl, rfl, rfl, fun w => ⟨rfl, ?_, fun _ => rfl⟩⟩
      · rw [List.dropWhile_cons_of_neg (by simpa using hk)]
      · rw [List.takeWhile_cons_of_neg (by simpa using hk)]
        exact nofun

theorem Held.nodup (h : a.Held s) : s.openUpvals.Nodup :=
  h.sorted.imp fun hlt heq => by
    rw [heq] at hlt
    exact Nat.lt_irrefl _ hlt

theorem Held.closeUpvals (h : a.Held s) (k : Nat) :
    ∃ s', s.closeUpvals k = some s' ∧ (a.step (.closed k)).Held s' ∧
      (∀ u, u ∈ s'.openUpvals ↔ u ∈ s.openUpvals ∧ (s.cells u).stackIndex < k) ∧
      ∀ u, (s'.cells u).stackIndex = (s.cells u).stackIndex := by
  obtain ⟨s', hs', hopen, hstack, hblock, hncells, hcells⟩ :=
    closeLoop_spec (k := k) s.openUpvals h.nodup (fun u hu => (h.opened u hu).pointed)
      fun u hu => (h.opened u hu).inside
  have hmem : ∀ u, u ∈ s'.openUpvals ↔ u ∈ s.openUpvals ∧ (s.cells u).stackIndex < k := by
    intro u
    rw [hopen]
    exact mem_dropWhile_iff (fun u => (s.cells u).stackIndex) h.sorted k u
  have hgone : ∀ u, u ∈ s.openUpvals.takeWhile (fun u => decide (k ≤ (s.cells u).stackIndex)) ↔
      u ∈ s.openUpvals ∧ k ≤ (s.cells u).stackIndex :=
    fun u => mem_takeWhile_iff (fun u => (s.cells u).stackIndex) h.sorted k u
  have hsame : ∀ u ∈ s'.openUpvals, s'.cells u = s.cells u := by
    intro u hu
    obtain ⟨-, hlt⟩ := (hmem u).mp hu
    exact (hcells u).2.2 fun hg => Nat.not_lt.mpr ((hgone u).mp hg).2 hlt
  refine ⟨s', hs', ?_, hmem, fun u => (hcells u).1⟩
  have hval : ∀ x : Nat × Nat, x.2 ≠ a.gen x.1 + 1 → (a.step (.closed k)).val x = a.val x :=
    fun x hx => if_neg fun hcond => hx hcond.2
  have hreg : ∀ i, (a.step (.closed k)).val ((a.step (.closed k)).reg i) = a.val (a.reg i) := by
    intro i
    by_cases hki : k ≤ i
    · have hr : (a.step (.closed k)).reg i = (i, a.gen i + 1) := congrArg (i, ·) (if_pos hki)
      rw [hr]
      exact if_pos ⟨hki, rfl⟩
    · have hr : (a.step (.closed k)).reg i = (i, a.gen i) := congrArg (i, ·) (if_neg hki)
      rw [hr]
      exact hval _ (Nat.ne_of_lt (Nat.lt_succ_self _))
  have hgen : ∀ i, a.gen i ≤ (a.step (.closed k)).gen i := by
    intro i
    show a.gen i ≤ if k ≤ i then a.gen i + 1 else a.gen i
    split <;> omega
  constructor
  · rw [hopen]
    have hsub := h.sorted.sublist (List.dropWhile_sublist fun u => decide (k ≤ (s.cells u).stackIndex))
    exact hsub.imp fun hlt => by rw [(hcells _).1, (hcells _).1]; exact hlt
  · intro u hu
    obtain ⟨hold, hlt⟩ := (hmem u).mp hu
    obtain ⟨hptr, hin, hmade, hnamed⟩ := h.opened u hold
    have hr : (a.step (.closed k)).reg (s.cells u).stackIndex = a.reg (s.cells u).stackIndex :=
      congrArg ((s.cells u).stackIndex, ·) (if_neg (Nat.not_le.mpr hlt))
    rw [hsame u hu]
    exact ⟨hblock ▸ hptr, hstack ▸ hin, hncells ▸ hmade, hr ▸ hnamed⟩
  · intro u hu hnot
    rw [hncells] at hu
    by_cases hold : u ∈ s.openUpvals
    · -- closed now: it names the variable its register just left
      have hk : k ≤ (s.cells u).stackIndex :=
        Nat.le_of_not_lt fun hlt => hnot ((hmem u).mpr ⟨hold, hlt⟩)
      obtain ⟨hptr, hclosed⟩ := (hcells u).2.1 ((hgone u).mpr ⟨hold, hk⟩)
      refine ⟨hptr, _, (h.opened u hold).named, ?_, ?_⟩
      · rw [hval _ (Nat.ne_of_lt (Nat.lt_succ_self _)), h.regs, hclosed]
        rfl
      · show a.gen _ < if k ≤ (s.cells u).stackIndex then _ else _
        rw [if_pos hk]
        exact Nat.lt_succ_self _
    · obtain ⟨hptr, x, hx, hvalx, hlt⟩ := h.shut u hu hold
      rw [(hcells u).2.2 fun hg => hold ((hgone u).mp hg).1]
      refine ⟨hptr, x, hx, ?_, Nat.lt_of_lt_of_le hlt (hgen x.1)⟩
      rw [hval x (by omega)]
      exact hvalx
  · intro u hu
    rw [hncells] at hu
    exact h.unmade u hu
  · exact h.one
  · intro i
    rw [hreg, hstack]
    exact h.regs i
  · rw [hstack]
    exact h.cap

theorem Held.split (h : a.Held s) (i : Nat) : ∃ above rest, s.openUpvals = above ++ rest ∧
      (∀ u ∈ above, i < (s.cells u).stackIndex) ∧ (∀ u ∈ rest, (s.cells u).stackIndex ≤ i) ∧
      above = s.openUpvals.takeWhile (fun u => decide (i < (s.cells u).stackIndex)) ∧
      rest = s.openUpvals.dropWhile (fun u => decide (i < (s.cells u).stackIndex)) := by
  refine ⟨_, _, (List.takeWhile_append_dropWhile).symm, ?_, ?_, rfl, rfl⟩
  · intro u hu
    exact ((mem_takeWhile_iff (fun u => (s.cells u).stackIndex) h.sorted (i + 1) u).mp hu).2
  · intro u hu
    have := (mem_dropWhile_iff (fun u => (s.cells u).stackIndex) h.sorted (i + 1) u).mp hu
    omega

theorem Held.findOrOpen_cases (h : a.Held s) (i : Nat) (granted : Bool) :
    (∃ u ∈ s.openUpvals, (s.cells u).stackIndex = i ∧ s.findOrOpen i granted = (some u, s)) ∨
    ∃ above rest, s.openUpvals = above ++ rest ∧ (∀ u ∈ above, i < (s.cells u).stackIndex) ∧
      (∀ u ∈ rest, (s.cells u).stackIndex < i) ∧
      s.findOrOpen i granted = if granted then
        (some s.ncells, { s.setCell s.ncells ⟨.stack s.block i, .nil, i⟩ with
          ncells := s.ncells + 1
          openUpvals := above ++ s.ncells :: rest }) else (none, s) := by
  obtain ⟨above, rest, hsplit, habove, hrest, hab, hre⟩ := h.split i
  unfold URegisters.findOrOpen
  dsimp only
  rw [← hab, ← hre]
  cases hhead : rest.head?.filter fun u => decide ((s.cells u).stackIndex = i) with
  | some u =>
    obtain ⟨hu, hidx⟩ := Option.filter_eq_some_iff.mp hhead
    have hmem : u ∈ rest := List.mem_of_head? hu
    exact .inl ⟨u, hsplit ▸ List.mem_append_right _ hmem, by simpa using hidx, rfl⟩
  | none =>
    refine .inr ⟨above, rest, hsplit, habove, ?_, rfl⟩
    cases rest with
    | nil => exact nofun
    | cons u rest =>
      -- the first that is not above is not at `i` either, and the others are below it
      have hu : (s.cells u).stackIndex ≠ i := by
        intro heq
        rw [List.head?_cons, Option.filter_some, if_pos (decide_eq_true heq)] at hhead
        cases hhead
      have hsorted := h.sorted
      rw [hsplit, List.pairwise_append, List.pairwise_cons] at hsorted
      have hle := hrest u List.mem_cons_self
      intro w hw
      rcases List.mem_cons.mp hw with rfl | hw
      · omega
      · have := hsorted.2.1.1 w hw
        omega

theorem Held.open (h : a.Held s) {i : Nat} (hi : i < s.stack.length) {above rest : List Nat}
    (hsplit : s.openUpvals = above ++ rest) (habove : ∀ u ∈ above, i < (s.cells u).stackIndex)
    (hrest : ∀ u ∈ rest, (s.cells u).stackIndex < i) :
    (a.step (.captured i s.ncells)).Held
      { s.setCell s.ncells ⟨.stack s.block i, .nil, i⟩ with
        ncells := s.ncells + 1
        openUpvals := above ++ s.ncells :: rest } := by
  have hmem : ∀ u, u ∈ above ++ s.ncells :: rest ↔ u = s.ncells ∨ u ∈ s.openUpvals := by
    intro u
    rw [hsplit, List.mem_append, List.mem_append, List.mem_cons]
    tauto
  have hfresh : ∀ u ∈ s.openUpvals, u ≠ s.ncells := fun u hu => Nat.ne_of_lt (h.opened u hu).made
  have hself : (s.setCell s.ncells ⟨.stack s.block i, .nil, i⟩).cells s.ncells =
      ⟨.stack s.block i, .nil, i⟩ := s.setCell_self _ _
  have hother : ∀ u, u ≠ s.ncells →
      (s.setCell s.ncells ⟨.stack s.block i, .nil, i⟩).cells u = s.cells u :=
    fun u hu => s.setCell_of_ne _ _ hu
  have hcell : ∀ u, u ≠ s.ncells → (a.step (.captured i s.ncells)).cell u = a.cell u :=
    fun u hu => if_neg hu
  have hcellSelf : (a.step (.captured i s.ncells)).cell s.ncells = some (a.reg i) := if_pos rfl
  -- no other cell names it: an open one would be at `i`, a closed one names an older variable
  have hlone : ∀ u, u ≠ s.ncells → a.cell u ≠ some (a.reg i) := by
    intro u hu heq
    by_cases hopen : u ∈ s.openUpvals
    · have hi' : (s.cells u).stackIndex = i := by
        rw [(h.opened u hopen).named] at heq
        exact congrArg Prod.fst (Option.some.inj heq)
      rw [hsplit] at hopen
      rcases List.mem_append.mp hopen with hab | hre
      · have := habove u hab
        omega
      · have := hrest u hre
        omega
    · rcases Nat.lt_or_ge u s.ncells with hlt | hge
      · obtain ⟨-, x, hx, -, hltx⟩ := h.shut u hlt hopen
        rw [hx] at heq
        exact reg_ne hltx i (Option.some.inj heq).symm
      · rw [h.unmade u hge] at heq
        cases heq
  constructor
  · apply pairwise_insert (fun u => (s.cells u).stackIndex) (hsplit ▸ h.sorted)
    · intro u hu
      exact congrArg _ (hother u (hfresh u (hsplit ▸ hu)))
    · intro u hu
      show ((s.setCell _ _).cells s.ncells).stackIndex < _
      rw [hself]
      exact habove u hu
    · intro u hu
      show _ < ((s.setCell _ _).cells s.ncells).stackIndex
      rw [hself]
      exact hrest u hu
  · intro u hu
    show Vars.Open _ _ u ((s.setCell _ _).cells u)
    rcases (hmem u).mp hu with rfl | hu
    · rw [hself]
      exact ⟨rfl, hi, Nat.lt_succ_self _, hcellSelf⟩
    · obtain ⟨hptr, hin, hmade, hnamed⟩ := h.opened u hu
      rw [hother u (hfresh u hu)]
      exact ⟨hptr, hin, Nat.lt_succ_of_lt hmade, (hcell u (hfresh u hu)).trans hnamed⟩
  · intro u hu hnot
    have hne : u ≠ s.ncells := fun heq => hnot ((hmem u).mpr (.inl heq))
    have hlt : u < s.ncells := Nat.lt_of_le_of_ne (Nat.le_of_lt_succ hu) hne
    have hshut := h.shut u hlt fun hold => hnot ((hmem u).mpr (.inr hold))
    show ((s.setCell _ _).cells u).ptr = .own ∧ _
    rw [hcell u hne, hother u hne]
    exact hshut
  · intro u hu
    have hu' : s.ncells + 1 ≤ u := hu
    rw [hcell u (by omega)]
    exact h.unmade u (by omega)
  · intro u v x hu hv
    by_cases hun : u = s.ncells <;> by_cases hvn : v = s.ncells
    · rw [hun, hvn]
    · rw [hun, hcellSelf] at hu
      rw [hcell v hvn, ← hu] at hv
      exact absurd hv (hlone v hvn)
    · rw [hvn, hcellSelf] at hv
      rw [hcell u hun, ← hv] at hu
      exact absurd hu (hlone u hun)
    · rw [hcell u hun] at hu
      rw [hcell v hvn] at hv
      exact h.one u v x hu hv
  · exact h.regs
  · exact h.cap

theorem Held.captured_again (h : a.Held s) {u : Nat} (hu : u ∈ s.openUpvals) :
    a.step (.captured (s.cells u).stackIndex u) = a := by
  have hcell : (fun w => if w = u then some (a.reg (s.cells u).stackIndex) else a.cell w) =
      a.cell := by
    funext w
    by_cases hw : w = u
    · rw [if_pos hw, hw, (h.opened u hu).named]
    · exact if_neg hw
  show { a with cell := _ } = a
  rw [hcell]

theorem Held.read (h : a.Held s) {u : Nat} (hu : u < s.ncells) :
    ∃ x, a.cell u = some x ∧ s.read u = some (a.val x) := by
  unfold URegisters.read
  by_cases hopen : u ∈ s.openUpvals
  · obtain ⟨hptr, hin, -, hnamed⟩ := h.opened u hopen
    refine ⟨_, hnamed, ?_⟩
    rw [hptr, h.regs, List.getElem?_eq_getElem hin]
    exact (if_pos rfl).trans (List.getElem?_eq_getElem hin)
  · obtain ⟨hptr, x, hx, hval, -⟩ := h.shut u hu hopen
    refine ⟨x, hx, ?_⟩
    rw [hptr, hval]

end Vars

/-! ## Over a run -/

/-- Every capture of the register meanwhile has been given the same cell. -/
structure Shared (log : List (VarEvent L)) (s : URegisters L) : Prop where
  stillOpen : ∀ i u, StillOpen log i u → u ∈ s.openUpvals ∧ (s.cells u).stackIndex = i
  given : ∀ recent earlier i u, log = recent ++ .captured i u :: earlier →
    ∀ u', StillOpen earlier i u' → u' = u

namespace Shared

variable {log : List (VarEvent L)} {s s' : URegisters L}

theorem keep (h : Shared log s) (hopen : s'.openUpvals = s.openUpvals)
    (hidx : ∀ u, (s'.cells u).stackIndex = (s.cells u).stackIndex) : Shared log s' where
  stillOpen i u hstill := by
    rw [hopen, hidx]
    exact h.stillOpen i u hstill
  given := h.given

theorem cons (h : Shared log s) {e : VarEvent L}
    (hopen : ∀ i u, StillOpen log i u → (∀ k, e = .closed k → i < k) →
      u ∈ s'.openUpvals ∧ (s'.cells u).stackIndex = i)
    (hnew : ∀ i u, e = .captured i u → (u ∈ s'.openUpvals ∧ (s'.cells u).stackIndex = i) ∧
      ∀ u', StillOpen log i u' → u' = u) : Shared (e :: log) s' where
  stillOpen i u hstill := by
    cases hstill with
    | now => exact (hnew i u rfl).1
    | later hstill hclose => exact hopen i u hstill hclose
  given recent earlier i u hlog := by
    cases recent with
    | nil =>
      obtain ⟨rfl, rfl⟩ := List.cons.inj hlog
      exact (hnew i u rfl).2
    | cons _ recent => exact h.given recent earlier i u (List.cons.inj hlog).2

theorem write (h : Shared log s) {e : VarEvent L} (he : e.isWrite = true)
    (hopen : s'.openUpvals = s.openUpvals)
    (hidx : ∀ u, (s'.cells u).stackIndex = (s.cells u).stackIndex) : Shared (e :: log) s' := by
  have hkeep := h.keep hopen hidx
  refine hkeep.cons (fun i u hstill _ => hkeep.stillOpen i u hstill) ?_
  rintro i u rfl
  cases he

theorem close (h : Shared log s) {k : Nat}
    (hopen : ∀ u, u ∈ s'.openUpvals ↔ u ∈ s.openUpvals ∧ (s.cells u).stackIndex < k)
    (hidx : ∀ u, (s'.cells u).stackIndex = (s.cells u).stackIndex) :
    Shared (.closed k :: log) s' := by
  refine h.cons ?_ (fun i u he => nomatch he)
  intro i u hstill hclose
  obtain ⟨hu, hi⟩ := h.stillOpen i u hstill
  rw [hopen, hidx, hi]
  exact ⟨⟨hu, hclose k rfl⟩, rfl⟩

end Shared

theorem Vars.Held.frames {a : Vars L} {s : URegisters L} (h : a.Held s) (frames : List Nat) :
    a.Held { s with frames } :=
  { h with opened := fun u hu => { h.opened u hu with } }

theorem URegisters.pushFrame_cases {s s' : URegisters L} {base maxReg nkeep : Nat} {framesOk ok : Bool}
    {host : Option Nat} (h : s.pushFrame base maxReg nkeep framesOk host = some (ok, s')) :
    (ok = false ∧ (s' = s ∨ s.ensureStack ((base + maxReg + 1) % 2 ^ 32) host = some (false, s'))) ∨
    ok = true ∧ ∃ s₁, s.ensureStack ((base + maxReg + 1) % 2 ^ 32) host = some (true, s₁) ∧
      s' = { s₁.fill ((base + nkeep) % 2 ^ 32) ((base + maxReg + 1) % 2 ^ 32) with
        frames := base :: s₁.frames } := by
  unfold pushFrame at h
  cases framesOk with
  | false =>
    cases h
    exact .inl ⟨rfl, .inl rfl⟩
  | true =>
    obtain ⟨⟨grown, s₁⟩, hens, h⟩ := Option.bind_eq_some_iff.mp h
    cases grown with
    | false =>
      cases h
      exact .inl ⟨rfl, .inr hens⟩
    | true =>
      cases h
      exact .inr ⟨rfl, s₁, hens, rfl⟩

theorem UpvalRun.inv {log : List (VarEvent L)} {s : URegisters L} (h : UpvalRun log s) :
    (Vars.after log).Held s ∧ Shared log s := by
  induction h with
  | new =>
    refine ⟨.new, nofun, ?_⟩
    intro recent earlier i u hlog
    cases recent <;> cases hlog
  | @captured log s s' i u granted _ hi hs ih =>
    obtain ⟨hheld, hshared⟩ := ih
    rcases hheld.findOrOpen_cases i granted with
      ⟨w, hw, rfl, heq⟩ | ⟨above, rest, hsplit, hab, hre, heq⟩ <;> rw [hs] at heq
    · cases heq
      constructor
      · show ((Vars.after log).step _).Held s
        rw [hheld.captured_again hw]
        exact hheld
      · refine hshared.cons (fun i u hstill _ => hshared.stillOpen i u hstill) ?_
        rintro i u ⟨⟩
        refine ⟨⟨hw, rfl⟩, fun u' hu' => ?_⟩
        obtain ⟨hopen, hidx⟩ := hshared.stillOpen _ _ hu'
        exact eq_of_idx_eq (fun u => (s.cells u).stackIndex) hheld.sorted hopen hw hidx
    · cases granted <;> cases heq
      have hnone : ∀ u, StillOpen log i u → False := by
        intro u hstill
        obtain ⟨hopen, hidx⟩ := hshared.stillOpen i u hstill
        rw [hsplit] at hopen
        rcases List.mem_append.mp hopen with hu | hu
        · exact absurd hidx (Nat.ne_of_gt (hab u hu))
        · exact absurd hidx (Nat.ne_of_lt (hre u hu))
      refine ⟨hheld.open hi hsplit hab hre, hshared.cons ?_ ?_⟩
      · intro j u hstill _
        obtain ⟨hopen, hidx⟩ := hshared.stillOpen j u hstill
        have hne : u ≠ s.ncells := Nat.ne_of_lt (hheld.opened u hopen).made
        refine ⟨?_, ?_⟩
        · rw [hsplit, List.mem_append] at hopen
          exact List.mem_append.mpr (hopen.imp_right (List.mem_cons_of_mem _))
        · exact (congrArg _ (s.setCell_of_ne s.ncells _ hne)).trans hidx
      · rintro j u ⟨⟩
        refine ⟨⟨List.mem_append_right _ List.mem_cons_self, ?_⟩, ?_⟩
        · exact congrArg _ (s.setCell_self s.ncells _)
        · exact fun u' hu' => (hnone u' hu').elim
  | @refused log s s' i granted _ hi hs ih =>
    rcases ih.1.findOrOpen_cases i granted with ⟨w, -, -, heq⟩ | ⟨above, rest, -, -, -, heq⟩ <;>
      rw [hs] at heq
    · cases heq
    · cases granted <;> cases heq
      exact ih
  | wrote v _ hi ih =>
    refine ⟨ih.1.setReg hi v, ?_⟩
    apply ih.2.write
    all_goals first | rfl | exact fun _ => rfl
  | @wroteThrough log s s' u v _ hu hs ih =>
    obtain ⟨hheld, hshared⟩ := ih
    by_cases hopen : u ∈ s.openUpvals
    · obtain ⟨hwrite, hstep⟩ := hheld.write_open hopen v
      rw [hs] at hwrite
      cases hwrite
      constructor
      · show ((Vars.after log).step _).Held _
        rw [hstep]
        exact hheld.setReg (hheld.opened u hopen).inside v
      · apply hshared.write
        all_goals first | rfl | exact fun _ => rfl
    · obtain ⟨hwrite, hheld'⟩ := hheld.write_shut hu hopen v
      rw [hs] at hwrite
      cases hwrite
      refine ⟨hheld', ?_⟩
      apply hshared.write
      case he => rfl
      case hopen => rfl
      intro w
      by_cases hw : w = u
      · rw [hw, s.setCell_self]
      · rw [s.setCell_of_ne u _ hw]
  | ensured _ hs ih =>
    obtain ⟨hheld, hopen, hidx⟩ := ih.1.ensureStack hs
    exact ⟨hheld, ih.2.keep hopen hidx⟩
  | pushed _ hs ih =>
    rcases URegisters.pushFrame_cases hs with ⟨hok, -⟩ | ⟨-, s₁, hens, rfl⟩
    · cases hok
    · obtain ⟨hheld, hopen, hidx⟩ := ih.1.ensureStack hens
      refine ⟨(hheld.fill _ _).frames _, ?_⟩
      apply ih.2.write
      · rfl
      · exact hopen
      · exact hidx
  | notPushed _ hs ih =>
    rcases URegisters.pushFrame_cases hs with ⟨-, rfl | hens⟩ | ⟨hok, -⟩
    · exact ih
    · obtain ⟨hheld, hopen, hidx⟩ := ih.1.ensureStack hens
      exact ⟨hheld, ih.2.keep hopen hidx⟩
    · cases hok
  | @popped log s s' base frames _ hframes hs ih =>
    obtain ⟨s₁, heq, hheld, hopen, hidx⟩ := ih.1.closeUpvals base
    unfold URegisters.popFrame at hs
    rw [hframes] at hs
    dsimp only at hs
    rw [heq] at hs
    cases hs
    exact ⟨hheld.frames _, ih.2.close hopen hidx⟩
  | @closed log s s' k _ hs ih =>
    obtain ⟨s₁, heq, hheld, hopen, hidx⟩ := ih.1.closeUpvals k
    rw [hs] at heq
    cases heq
    exact ⟨hheld, ih.2.close hopen hidx⟩

structure OpenUpvals (log : List (VarEvent L)) (s : URegisters L) : Prop where
  /-- Strictly descending, so nothing twice. -/
  descending : s.openUpvals.Pairwise fun u v => (s.cells v).stackIndex < (s.cells u).stackIndex
  addresses : ∀ u ∈ s.openUpvals, (s.cells u).stackIndex < s.stack.length ∧
    (s.cells u).ptr = .stack s.block (s.cells u).stackIndex
  /-- A capture is given the cell of every capture of the register with no close in between. -/
  shared : ∀ recent earlier i u, log = recent ++ .captured i u :: earlier →
    ∀ u', StillOpen earlier i u' → u' = u
  /-- A cell reads as the variable it names, a register as the one it holds. -/
  reads : ∀ u < s.ncells, ∃ x, (Vars.after log).cell u = some x ∧
    s.read u = some ((Vars.after log).val x)
  registers : ∀ i < s.stack.length,
    s.stack[i]? = some ((Vars.after log).val ((Vars.after log).reg i))
  /-- Every operation returns and stays inside the stack and the cells, up to `2 ^ 31` registers. -/
  closes : ∀ k, (s.closeUpvals k).isSome
  writes : ∀ u < s.ncells, ∀ v, (s.write u v).isSome
  grows : ∀ needed ≤ 2 ^ 31, ∀ host, (s.ensureStack needed host).isSome

/-- **Open upvalues.**  Through every run the open list is in order and points into the stack as it
is, captures of one variable share one cell, and a cell reads as what was last written to its
variable, through the register or through the cell. -/
theorem openUpvals_run {log : List (VarEvent L)} {s : URegisters L} (h : UpvalRun log s) :
    OpenUpvals log s := by
  obtain ⟨hheld, hshared⟩ := h.inv
  constructor
  · exact hheld.sorted
  · exact fun u hu => ⟨(hheld.opened u hu).inside, (hheld.opened u hu).pointed⟩
  · exact hshared.given
  · exact fun u hu => hheld.read hu
  · intro i hi
    rw [hheld.regs, List.getElem?_eq_getElem hi]
    rfl
  · intro k
    obtain ⟨s', heq, -⟩ := hheld.closeUpvals k
    rw [heq]
    rfl
  · intro u hu v
    by_cases hopen : u ∈ s.openUpvals
    · rw [(hheld.write_open hopen v).1]
      rfl
    · rw [(hheld.write_shut hu hopen v).1]
      rfl
  · intro needed hneeded host
    unfold URegisters.ensureStack
    by_cases hle : needed ≤ s.stack.length
    · rw [if_pos hle]
      rfl
    · have hsome : (URegisters.doubleTo needed 33
          (if s.stack.length = 0 then 8 else s.stack.length)).isSome = true := by
        apply Vars.doubleTo_isSome hneeded
        split <;> omega
      obtain ⟨c, hc⟩ := Option.isSome_iff_exists.mp hsome
      rw [if_neg hle, hc]
      cases host <;> rfl

/-- Two registers are captured, the first of them twice, and the second is closed. -/
theorem openUpvals_run_twoCells :
    let log : List (VarEvent noCode) :=
      [.closed 1, .wroteThrough 0 (.bool true), .captured 0 0, .captured 1 1, .captured 0 0]
    ∃ s, UpvalRun log s ∧ s.openUpvals = [0] ∧ OpenUpvals log s := by
  have hgrown : UpvalRun (L := noCode) [] ⟨7, List.replicate 8 .nil, URegisters.new.cells, 0, [], []⟩ :=
    .ensured (s := .new) .new (rfl : URegisters.ensureStack _ 1 (some 7) = some (true, _))
  have hboth := (hgrown.captured (i := 0) true (by decide) rfl).captured (i := 1) true (by decide) rfl
  have hagain := hboth.captured (i := 0) true (by decide) rfl
  have hclosed := (hagain.wroteThrough (u := 0) (.bool true) (by decide) rfl).closed (k := 1) rfl
  exact ⟨_, hclosed, rfl, openUpvals_run hclosed⟩

end Urbi
