import Urbi.Rt.Value
import Mathlib.Data.List.Basic

/-!
# Objects, slots and prototypes

An object is a vector of slots scanned in order and a list of prototypes.  A lookup compares interned
names, and the same prototype may occur twice, or form a cycle.
-/

namespace Urbi

abbrev USym : Type := Bytes

abbrev ObjId : Type := Nat

structure USlotAttrs where
  constant : Bool := false
  getter : Bool := false
  setter : Bool := false
  changedEvent : Bool := false
  deriving DecidableEq, Repr

namespace USlotAttrs

def isProperty (a : USlotAttrs) : Bool := a.getter || a.setter

def subscribed (a was : USlotAttrs) : USlotAttrs :=
  { a with changedEvent := a.changedEvent || was.changedEvent }

end USlotAttrs

section

variable (L : CodeBase)

structure UProps where
  getter : UValue L := .nil
  setter : UValue L := .nil
  value : UValue L

inductive Stored where
  | plain (v : UValue L)
  | props (p : UProps L)

variable {L}

def Stored.isProps : Stored L → Bool
  | .plain _ => false
  | .props _ => true

variable (L)

structure USlot where
  name : USym
  stored : Stored L
  attrs : USlotAttrs
  kind : attrs.isProperty = stored.isProps

structure UObject where
  slots : List (USlot L) := []
  cap : Nat := 0
  protos : List ObjId := []
  readonly : Bool := false
  watched : Bool := false
  changeEvents : Bool := false
  cached : Bool := false
  visit : UInt32 := 0

end

variable {L : CodeBase}

/-! ## Slots -/

namespace USlot

def make (name : USym) (v : UValue L) (attrs : USlotAttrs) : USlot L where
  name := name
  stored := if attrs.isProperty then .props { value := v } else .plain v
  attrs := attrs
  kind := by cases h : attrs.isProperty <;> rfl

def onto (s : USlot L) (was : USlotAttrs) : USlot L where
  name := s.name
  stored := s.stored
  attrs := s.attrs.subscribed was
  kind := s.kind

def subscribe (s : USlot L) : USlot L where
  name := s.name
  stored := s.stored
  attrs := { s.attrs with changedEvent := true }
  kind := s.kind

def assign (s : USlot L) (v : UValue L) : USlot L where
  name := s.name
  stored := match s.stored with
    | .plain _ => .plain v
    | .props p => .props { p with value := v }
  attrs := s.attrs
  kind := by
    rw [s.kind]
    cases s.stored <;> rfl

@[simp] theorem make_name (name : USym) (v : UValue L) (attrs : USlotAttrs) :
    (make name v attrs).name = name := rfl
@[simp] theorem assign_name (s : USlot L) (v : UValue L) : (s.assign v).name = s.name := rfl

end USlot

/-! ## One object -/

variable {granted : Bool} {s : USlot L} {name : USym}

namespace UObject

def findLocal (o : UObject L) (name : USym) : Option Nat :=
  o.slots.findIdx? (·.name == name)

def local? (o : UObject L) (name : USym) : Option (USlot L) :=
  o.slots.find? (·.name == name)

def nextCap (o : UObject L) : Nat := if o.cap = 0 then 4 else o.cap * 2 % 65536

/-- A block of no bytes is refused. -/
def grow (o : UObject L) (granted : Bool) : Option (UObject L) :=
  if granted && o.nextCap != 0 then some { o with cap := o.nextCap } else none

/-- The object, the slot's index, and whether an inherited cache entry could tell the difference. -/
def setLocal (o : UObject L) (s : USlot L) (granted : Bool) : Option (UObject L × Nat × Bool) :=
  match o.findLocal s.name with
  | some i =>
    let changed := (o.slots[i]?).any fun was => (s.onto was.attrs).attrs != was.attrs
    some ({ o with slots := o.slots.modify i fun was => s.onto was.attrs }, i, changed)
  | none =>
    (if o.slots.length = o.cap then o.grow granted else some o).map fun o =>
      ({ o with slots := o.slots ++ [s] }, o.slots.length, true)

/-- The last slot moves into the hole. -/
def removeLocal (o : UObject L) (name : USym) : Option (UObject L) :=
  match o.findLocal name, o.slots.getLast? with
  | some i, some last => some { o with slots := (o.slots.set i last).dropLast }
  | _, _ => none

/-- `nprotos` is a `uint16_t`: one too many forgets them all. -/
def addProto (o : UObject L) (p : ObjId) (granted : Bool) : Option (UObject L) :=
  if o.protos = [] then some { o with protos := [p] }
  else if granted then
    some { o with protos := if o.protos.length + 1 = 65536 then [] else p :: o.protos }
  else none

/-- The last prototype moves into the hole, which for two prototypes is the collapse to the other
one. -/
def removeProto (o : UObject L) (p : ObjId) : Option (UObject L) :=
  match o.protos.findIdx? (· == p), o.protos.getLast? with
  | some i, some last => some { o with protos := (o.protos.set i last).dropLast }
  | _, _ => none

def setProtos (o : UObject L) (ps : List ObjId) (granted : Bool) : Option (UObject L) :=
  if ps.length ≤ 1 || granted then some { o with protos := ps } else none

variable {o o' : UObject L}

theorem of_addProto {p : ObjId} (h : o.addProto p granted = some o') :
    o' = { o with protos := o'.protos } ∧ ∀ q ∈ o'.protos, q ∈ o.protos ∨ q ∈ [p] := by
  unfold addProto at h
  repeat' split at h
  all_goals cases h
  · exact ⟨rfl, fun q hq => .inr hq⟩
  · exact ⟨rfl, nofun⟩
  · refine ⟨rfl, fun q hq => ?_⟩
    rcases List.mem_cons.mp hq with rfl | hq
    · exact .inr List.mem_cons_self
    · exact .inl hq

theorem of_removeProto {p : ObjId} (h : o.removeProto p = some o') :
    o' = { o with protos := o'.protos } ∧ ∀ q ∈ o'.protos, q ∈ o.protos := by
  unfold removeProto at h
  split at h
  · rename_i i last _ hlast
    cases h
    refine ⟨rfl, fun q hq => ?_⟩
    rcases List.mem_or_eq_of_mem_set (List.dropLast_subset _ hq) with hq | rfl
    · exact hq
    · exact List.mem_of_getLast? hlast
  · cases h

theorem of_setProtos {ps : List ObjId}
    (h : o.setProtos ps granted = some o') : o' = { o with protos := ps } := by
  unfold setProtos at h
  split at h <;> cases h
  rfl

theorem local?_name (h : o.local? name = some s) : s.name = name := by
  simpa using List.find?_some h

theorem local?_eq (o : UObject L) (name : USym) :
    o.local? name = (o.findLocal name).bind fun i => o.slots[i]? := by
  unfold local? findLocal
  induction o.slots with
  | nil => rfl
  | cons s slots ih =>
    rw [List.find?_cons, List.findIdx?_cons]
    cases hs : s.name == name with
    | true => rfl
    | false =>
      rw [ih]
      cases slots.findIdx? (·.name == name) <;> rfl

theorem local?_of_findLocal {i : Nat}
    (h : o.findLocal name = some i) : ∃ s, o.local? name = some s ∧ o.slots[i]? = some s := by
  have hi : i < o.slots.length := (List.findIdx?_eq_some_iff_findIdx_eq.mp h).1
  refine ⟨o.slots[i], ?_, List.getElem?_eq_getElem hi⟩
  rw [local?_eq, h]
  exact List.getElem?_eq_getElem hi

theorem findLocal_eq_none : o.findLocal name = none ↔ o.local? name = none := by
  unfold findLocal local?
  rw [List.findIdx?_eq_none_iff, List.find?_eq_none]
  simp

/-- The scan for that name finds the rewritten slot, every other scan finds what it found. -/
theorem find?_modify {slots : List (USlot L)} {i : Nat} {f : USlot L → USlot L}
    (hname : ∀ s, s.name = name → (f s).name = name)
    (h : slots.findIdx? (·.name == name) = some i) (n : USym) :
    (slots.modify i f).find? (·.name == n) =
      if n = name then (slots.find? (·.name == name)).map f else slots.find? (·.name == n) := by
  induction slots generalizing i with
  | nil => cases h
  | cons s slots ih =>
    rw [List.findIdx?_cons] at h
    by_cases hs : s.name = name
    · rw [if_pos (by simpa using hs)] at h
      cases h
      rw [List.modify_zero_cons, List.find?_cons, List.find?_cons, List.find?_cons, hname s hs, hs]
      by_cases hn : n = name
      · simp [hn]
      · have hne : (name == n) = false := by simpa using fun h => hn h.symm
        simp [hn, hne]
    · rw [if_neg (by simpa using hs)] at h
      obtain ⟨j, hj, rfl⟩ := Option.map_eq_some_iff.mp h
      rw [List.modify_succ_cons, List.find?_cons, List.find?_cons, List.find?_cons, ih hj]
      by_cases hn : n = name
      · have hne : (s.name == name) = false := by simpa using hs
        simp [hn, hne]
      · simp [hn]

def written (o : UObject L) (s : USlot L) : USlot L :=
  (o.local? s.name).elim s fun was => s.onto was.attrs

/-- The slot under its own name, every other slot as it was, and nothing else but the capacity. -/
structure Wrote (o : UObject L) (s : USlot L) (o' : UObject L) : Prop where
  own : o'.local? s.name = some (o.written s)
  other : ∀ n, n ≠ s.name → o'.local? n = o.local? n
  rest : o' = { o with slots := o'.slots, cap := o'.cap }

theorem setLocal_cases {i : Nat} {b : Bool} (h : o.setLocal s granted = some (o', i, b)) :
    (∃ j, o.findLocal s.name = some j ∧
      o' = { o with slots := o.slots.modify j fun was => s.onto was.attrs }) ∨
    (o.findLocal s.name = none ∧ b = true ∧
      ∃ cap, o' = { o with slots := o.slots ++ [s], cap := cap }) := by
  unfold setLocal at h
  split at h
  · cases h
    exact .inl ⟨_, ‹_›, rfl⟩
  · obtain ⟨g, hg, hout⟩ := Option.map_eq_some_iff.mp h
    cases hout
    refine .inr ⟨‹_›, rfl, g.cap, ?_⟩
    split at hg
    · unfold grow at hg
      split at hg <;> cases hg
      rfl
    · cases hg
      rfl

theorem wrote_of_setLocal {i : Nat} {b : Bool}
    (h : o.setLocal s granted = some (o', i, b)) : o.Wrote s o' := by
  rcases setLocal_cases h with ⟨j, hfind, rfl⟩ | ⟨hfind, -, cap, rfl⟩
  · obtain ⟨was, hwas, -⟩ := local?_of_findLocal hfind
    have hname : ∀ t : USlot L, t.name = s.name → (s.onto t.attrs).name = s.name :=
      fun _ _ => rfl
    refine ⟨?_, fun n hn => ?_, rfl⟩
    · unfold written
      rw [hwas]
      show (o.slots.modify j _).find? _ = _
      rw [find?_modify hname hfind, if_pos rfl]
      show (o.local? s.name).map _ = _
      rw [hwas]
      rfl
    · show (o.slots.modify j _).find? _ = _
      rw [find?_modify hname hfind, if_neg hn]
      rfl
  · have hnone : o.local? s.name = none := findLocal_eq_none.mp hfind
    refine ⟨?_, fun n hn => ?_, rfl⟩
    · show (o.slots ++ [s]).find? _ = _
      have hmiss : o.slots.find? (·.name == s.name) = none := hnone
      rw [List.find?_append, hmiss, written, hnone]
      simp
    · show (o.slots ++ [s]).find? _ = _
      have hne : (s.name == n) = false := by simpa using fun h => hn h.symm
      rw [List.find?_append]
      simp [hne, local?]

/-- It is there, or there is room for it, or room can be made. -/
def hasRoom (o : UObject L) (name : USym) : Bool :=
  (o.local? name).isSome || o.slots.length != o.cap || o.nextCap != 0

theorem setLocal_isSome (o : UObject L) (s : USlot L) (granted : Bool) :
    (o.setLocal s granted).isSome = ((o.local? s.name).isSome || o.slots.length != o.cap ||
      granted && o.nextCap != 0) := by
  unfold setLocal
  cases hfind : o.findLocal s.name with
  | some j =>
    obtain ⟨was, hwas, -⟩ := local?_of_findLocal hfind
    simp [hwas]
  | none =>
    rw [findLocal_eq_none.mp hfind]
    by_cases hlen : o.slots.length = o.cap
    · by_cases hcap : o.nextCap = 0 <;> cases granted <;> simp [hlen, grow, hcap]
    · simp [hlen]

theorem hasRoom_of_setLocal (h : (o.setLocal s granted).isSome) : o.hasRoom s.name = true := by
  rw [setLocal_isSome] at h
  cases granted with
  | true => exact h
  | false =>
    rw [Bool.false_and, Bool.or_false] at h
    rw [hasRoom, h, Bool.true_or]

end UObject

/-! ## The heap -/

structure UObjStats where
  visitStamp : UInt32 := 0
  resolveOverflow : Bool := false
  slotEpoch : UInt32 := 0
  deriving DecidableEq, Repr

structure USlotCache where
  recv : Option ObjId := none
  owner : Option ObjId := none
  epoch : UInt32 := 0
  index : Nat := 0
  deriving DecidableEq, Repr

/-- The part of the VM that slot accesses read and write. -/
structure UVM (L : CodeBase) where
  objs : List (UObject L) := []
  atomProto : UValue L → Option ObjId := fun _ => none
  stats : UObjStats := {}
  sites : Nat → USlotCache := fun _ => {}
  ndirty : UInt32 := 0
  observing : Bool := false

namespace UVM

variable (vm : UVM L)

/-- An address outside the heap reads as an object with nothing in it. -/
def obj (x : ObjId) : UObject L := vm.objs.getD x {}

def modify (x : ObjId) (f : UObject L → UObject L) : UVM L :=
  { vm with objs := vm.objs.modify x f }

/-- An object answers for itself, everything else through a prototype. -/
def dispatchProto : UValue L → Option ObjId
  | .obj id | .exception id _ => some id
  | v => vm.atomProto v

/-- Zero is what an empty entry carries, so the epoch skips it. -/
def epochBump : UVM L :=
  let e := vm.stats.slotEpoch + 1
  { vm with stats.slotEpoch := if e = 0 then 1 else e }

def retire (o : ObjId) : UVM L := if (vm.obj o).cached then vm.epochBump else vm

/-- `cell` grants the property cell, `granted` the slot block. -/
def setLocal (x : ObjId) (s : USlot L) (cell granted : Bool) : Option (UVM L × Nat) :=
  if s.attrs.isProperty && !cell then none
  else ((vm.obj x).setLocal s granted).map fun (o, i, structural) =>
    let vm := vm.modify x fun _ => o
    (if structural then vm.retire x else vm, i)

@[simp] theorem objs_retire (o : ObjId) : (vm.retire o).objs = vm.objs := by
  unfold retire
  split <;> rfl

@[simp] theorem length_modify (x : ObjId) (f : UObject L → UObject L) :
    (vm.modify x f).objs.length = vm.objs.length := List.length_modify _ _ _

theorem obj_modify_self {x : ObjId} (hx : x < vm.objs.length) (f : UObject L → UObject L) :
    (vm.modify x f).obj x = f (vm.obj x) := by
  unfold obj modify
  rw [List.getD_eq_getElem _ _ (by simpa using hx), List.getD_eq_getElem _ _ hx,
    List.getElem_modify_eq]

theorem obj_modify_ne {x y : ObjId} (h : y ≠ x) (f : UObject L → UObject L) :
    (vm.modify x f).obj y = vm.obj y := by
  show (vm.objs.modify x f).getD y {} = vm.objs.getD y {}
  simp [List.getD_eq_getElem?_getD, h.symm]

theorem of_setLocal {vm vm' : UVM L} {x : ObjId} {cell : Bool} {i : Nat}
    (h : vm.setLocal x s cell granted = some (vm', i)) :
    ∃ o structural, (vm.obj x).setLocal s granted = some (o, i, structural) ∧
      vm' = if structural then (vm.modify x fun _ => o).retire x else vm.modify x fun _ => o := by
  unfold setLocal at h
  split at h
  · cases h
  · obtain ⟨⟨o, j, structural⟩, hset, hout⟩ := Option.map_eq_some_iff.mp h
    cases hout
    exact ⟨o, structural, hset, rfl⟩

theorem obj_of_le {x : ObjId} (h : vm.objs.length ≤ x) : vm.obj x = {} :=
  List.getD_eq_default _ _ h

theorem obj_modify_cases (x y : ObjId) (f : UObject L → UObject L) :
    (vm.modify x f).obj y = vm.obj y ∨
      y = x ∧ x < vm.objs.length ∧ (vm.modify x f).obj y = f (vm.obj x) := by
  by_cases hy : y = x
  · subst hy
    by_cases hlt : y < vm.objs.length
    · exact .inr ⟨rfl, hlt, obj_modify_self _ hlt f⟩
    · have hle : vm.objs.length ≤ y := Nat.le_of_not_lt hlt
      left
      rw [vm.obj_of_le hle, obj_of_le _ (by rw [length_modify]; exact hle)]
  · exact .inl (obj_modify_ne _ hy f)

theorem obj_append_cases (o : UObject L) (y : ObjId) :
    obj { vm with objs := vm.objs ++ [o] } y = vm.obj y ∨
      vm.objs.length ≤ y ∧ obj { vm with objs := vm.objs ++ [o] } y = o := by
  show (vm.objs ++ [o]).getD y {} = vm.objs.getD y {} ∨ _ ∧ (vm.objs ++ [o]).getD y {} = o
  by_cases hlt : y < vm.objs.length
  · exact .inl (List.getD_append _ _ _ _ hlt)
  · have hle : vm.objs.length ≤ y := Nat.le_of_not_lt hlt
    rw [List.getD_append_right _ _ _ _ hle, List.getD_eq_default _ _ hle]
    cases y - vm.objs.length with
    | zero => exact .inr ⟨hle, rfl⟩
    | succ k => exact .inl rfl

theorem lt_of_local? {x : ObjId} (h : (vm.obj x).local? name = some s) : x < vm.objs.length := by
  by_contra hge
  rw [vm.obj_of_le (Nat.le_of_not_lt hge)] at h
  cases h

end UVM

end Urbi
