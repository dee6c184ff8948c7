import Urbi.Obj.Sealed

/-!
# Where values go

For a slot with accessors the value array holds a reference to the property cell.  `slot_read` looks
through it; `uobj_slot_value` does not, and what it returns is a value like any other.  So a cell has
an address here.
-/

namespace Urbi

variable {L : CodeBase}

inductive UCellBody (L : CodeBase) where
  | list (items : List (UValue L))
  | dict (entries : List (UValue L × UValue L))
  | props

def UCellBody.values : UCellBody L → List (UValue L)
  | .list items => items
  | .dict entries => entries.map Prod.fst ++ entries.map Prod.snd
  | .props => []

def UCellBody.isProps : UCellBody L → Bool
  | .props => true
  | _ => false

def Stored.values : Stored L → List (UValue L)
  | .plain v => [v]
  | .props p => [p.getter, p.setter, p.value]

def UValue.isCellRef : UValue L → Bool
  | .cell _ => true
  | _ => false

/-- Made on the spot: a constant, a result of arithmetic, a new object, closure, event or tag. -/
abbrev Atom (L : CodeBase) : Type := { v : UValue L // v.isCellRef = false }

/-- A register of a strand, an upvalue or a C local; the payload of an event; a value handed to the
host. -/
inductive Root where
  | reg (r : Nat)
  | payload (e : Nat)
  | host (h : Nat)
  deriving DecidableEq, Repr

inductive Place where
  | root (r : Root)
  | item (cell i : Nat)
  | key (cell i : Nat)
  deriving DecidableEq, Repr

structure Store (L : CodeBase) where
  vm : UVM L
  cells : List (UCellBody L) := []
  propsAt : ObjId → USym → Nat := fun _ _ => 0
  roots : Root → UValue L := fun _ => .nil

inductive GetError where
  | notString (what : String)
  | lookup (name : USym)
  | hostInvalidArg
  | hostOom
  deriving DecidableEq, Repr

def GetError.text : GetError → Option Bytes
  | .notString what => utf8 (what ++ ": name must be a String")
  | .lookup name => (utf8 "slot '" ++ cstr name ++ utf8 "' not found").take 159
  | .hostInvalidArg | .hostOom => none
where
  utf8 (s : String) : Bytes := s.toUTF8.toList

namespace Store

variable (σ : Store L)

def get : Place → UValue L
  | .root r => σ.roots r
  | .item cell i => match σ.cells[cell]? with
      | some (.list items) => items.getD i .nil
      | some (.dict entries) => (entries.map Prod.snd).getD i .nil
      | _ => .nil
  | .key cell i => match σ.cells[cell]? with
      | some (.dict entries) => (entries.map Prod.fst).getD i .nil
      | _ => .nil

def put (dst : Root) (v : UValue L) : Store L := { σ with roots := Function.update σ.roots dst v }

def alloc (dst : Root) (body : UCellBody L) : Store L :=
  { σ with cells := σ.cells ++ [body] }.put dst (.cell σ.cells.length)

def refill (cell : Nat) (body : UCellBody L) : Store L :=
  match σ.cells[cell]?, body with
  | some (.list _), .list _ | some (.dict _), .dict _ => { σ with cells := σ.cells.set cell body }
  | _, _ => σ

/-! ## Raw reads -/

def slotValue (ref : UObjSlotRef) : UValue L :=
  match σ.vm.slotAt ref with
  | none => .nil
  | some s => match s.stored with
      | .plain v => v
      | .props _ => .cell (σ.propsAt ref.owner s.name)

def rawGet (o : ObjId) (name : USym) (miss : GetError) : UVM L × Except GetError (UValue L) :=
  match σ.vm.uobjResolve o name with
  | (vm, none) => (vm, .error miss)
  | (vm, some ref) => (vm, .ok (σ.slotValue ref))

def objGetSlot (self : UValue L) (name : Option USym) : UVM L × Except GetError (UValue L) :=
  match name with
  | none => (σ.vm, .error (.notString "getSlot"))
  | some name => match σ.vm.dispatchProto self with
      | none => (σ.vm, .error (.lookup name))
      | some o => σ.rawGet o name (.lookup name)

/-- `name` is absent when interning ran out of memory. -/
def hostGet (obj : Option ObjId) (name : Option USym) : UVM L × Except GetError (UValue L) :=
  match obj, name with
  | none, _ => (σ.vm, .error .hostInvalidArg)
  | some _, none => (σ.vm, .error .hostOom)
  | some o, some name => σ.rawGet o name .hostInvalidArg

def urbiSlotGet (obj : UValue L) := σ.hostGet (σ.vm.dispatchProto obj)

def urbiGlobalGet (globals : Option ObjId) := σ.hostGet globals

inductive StateKind where
  | int
  | bool
  deriving DecidableEq, Repr

/-- Anything but the kind the native asks for reads as the default. -/
def peek (self : UValue L) (name : USym) (kind : StateKind) : UVM L × Option (UValue L) :=
  match self.asObj with
  | none => (σ.vm, none)
  | some o =>
    let r := σ.rawGet o name .hostInvalidArg
    (r.1, some (match kind, r.2 with
      | .int, .ok (.int i) => .int i
      | .int, _ => .int 0
      | .bool, .ok (.bool b) => .bool b
      | .bool, _ => .bool false))

/-- `prop` is absent when the argument is not a string. -/
def objGetProperty (self : UValue L) (name : Option USym) (prop : Option Bytes) :
    Option (UValue L) :=
  match self.asObj, name, prop with
  | some x, some name, some prop =>
    let slot := (σ.vm.obj x).local? name
    let attrs : USlotAttrs := slot.elim {} USlot.attrs
    some (match propertyBit prop, slot.map USlot.stored with
      | some .constant, _ => .bool attrs.constant
      | some .oget, some (.props p) => if attrs.getter then p.getter else .nil
      | some .oset, some (.props p) => if attrs.setter then p.setter else .nil
      | _, _ => .nil)
  | _, _, _ => none

/-! ## Stores -/

/-- A slot with accessors gets a property cell of its own. -/
def setLocal (x : ObjId) (s : USlot L) (cell granted : Bool) : Store L :=
  match σ.vm.setLocal x s cell granted with
  | none => σ
  | some (vm, _) =>
    if s.attrs.isProperty then
      { σ with
        vm := vm
        cells := σ.cells ++ [.props]
        propsAt := Function.update σ.propsAt x (Function.update (σ.propsAt x) s.name σ.cells.length) }
    else { σ with vm := vm }

/-- Stores only what its checks let through. -/
def objSetProperty (self : UValue L) (name : Option USym) (prop : Option Bytes) (v : UValue L)
    (cell granted : Bool) : Store L :=
  match self.asObj, name, prop.bind propertyBit with
  | some x, some name, some b => match b.accepts v with
      | .error _ => σ
      | .ok () => σ.setLocal x (b.slot ((σ.vm.obj x).local? name) name v) cell granted
  | _, _, _ => σ

theorem vm_setLocal (x : ObjId) (s : USlot L) (cell granted : Bool) :
    (σ.setLocal x s cell granted).vm = (σ.vm.setLocal x s cell granted).elim σ.vm Prod.fst := by
  unfold setLocal
  split
  · rename_i hset
    rw [hset]
    rfl
  · rename_i hset
    rw [hset]
    split <;> rfl

theorem vm_objSetProperty (self : UValue L) (name : Option USym) (prop : Option Bytes)
    (v : UValue L) (cell granted : Bool) : (σ.objSetProperty self name prop v cell granted).vm =
      (σ.vm.objSetProperty self name prop v cell granted).1 := by
  unfold objSetProperty UVM.objSetProperty
  cases self.asObj with
  | none => rfl
  | some x =>
    cases name with
    | none => cases prop <;> rfl
    | some name =>
      cases prop with
      | none => rfl
      | some prop =>
        dsimp only [Option.bind_some]
        cases propertyBit prop with
        | none => rfl
        | some b =>
          dsimp only
          cases b.accepts v with
          | error e => rfl
          | ok _ =>
            dsimp only
            rw [vm_setLocal]
            cases σ.vm.setLocal x (b.slot ((σ.vm.obj x).local? name) name v) cell granted <;>
              rfl

end Store

def UValue.isClosure : UValue L → Bool
  | .closure _ => true
  | _ => false

def installedSlot (name : USym) (getter setter value : UValue L) : USlot L :=
  let attrs : USlotAttrs := { getter := getter.isClosure, setter := setter.isClosure }
  { name := name
    stored := if attrs.isProperty then .props ⟨getter, setter, value⟩ else .plain value
    attrs := attrs
    kind := by cases h : attrs.isProperty <;> simp [Stored.isProps] }

/-! ## Steps -/

inductive WritePath where
  | setslot (update : Bool) (name : Option USym) (site : Option Nat)
  | setSlot (name : Option USym)
  | slotSet (name : Option USym)
  | globalSet (globals : Option ObjId) (name : Option USym)

def WritePath.assignment : WritePath → UValue L → UValue L → Assignment L
  | .setslot update name site, recv, v => .setslot update name recv v site
  | .setSlot name, recv, v => .setSlot recv name v
  | .slotSet name, recv, v => .slotSet recv name v
  | .globalSet globals name, _, v => .globalSet globals name v

/-- No value is put into a slot or taken out, but for the event of a subscription. -/
def Access.valueless : Access L → Bool
  | .getslot .. | .assign .. | .setLocal .. => false
  | _ => true

/-- The instructions and natives that do not touch a slot make values and copy them, and leave in a
list or a dictionary values they found somewhere. -/
inductive Transfer (L : CodeBase) where
  | make (dst : Root) (v : Atom L)
  | copy (dst : Root) (src : Place)
  | newList (dst : Root)
  | newDict (dst : Root)
  | fillList (cell : Nat) (items : List Place)
  | fillDict (cell : Nat) (entries : List (Place × Place))
  | getslot (dst : Root) (self : Bool) (name : Option USym) (recv : Place) (site : Option Nat)
  | getSlot (dst : Root) (self : Place) (name : Option USym)
  | slotGet (dst : Nat) (obj : Place) (name : Option USym)
  | globalGet (dst : Nat) (globals : Option ObjId) (name : Option USym)
  | peek (dst : Root) (self : Place) (name : USym) (kind : Store.StateKind)
  | getProperty (dst : Root) (self : Place) (name : Option USym) (prop : Option Bytes)
  | assign (path : WritePath) (recv val : Place) (granted : Bool)
  | setProperty (self : Place) (name : Option USym) (prop : Option Bytes) (val : Place)
      (cell granted : Bool)
  | installProperty (x : ObjId) (name : USym) (getter setter value : Place) (cell granted : Bool)
  /-- The fields of an exception, the state of a native's instance, a method, a global of the boot.
  -/
  | setLocal (x : ObjId) (name : USym) (val : Place) (constant granted : Bool)
  | access (a : { a : Access L // a.valueless = true })
  | makeReadonly (x : ObjId)

namespace Store

variable (σ : Store L)

def answer (dst : Root) (r : UVM L × Option (UValue L)) : Store L :=
  let σ := { σ with vm := r.1 }
  r.2.elim σ (σ.put dst)

def fetched : Except SlotError (Fetched L) → Option (UValue L)
  | .ok (.value v) => some v
  | _ => none

def step : Transfer L → Store L
  | .make dst v => σ.put dst v
  | .copy dst src => σ.put dst (σ.get src)
  | .newList dst => σ.alloc dst (.list [])
  | .newDict dst => σ.alloc dst (.dict [])
  | .fillList cell items => σ.refill cell (.list (items.map σ.get))
  | .fillDict cell entries =>
    σ.refill cell (.dict (entries.map fun e => (σ.get e.1, σ.get e.2)))
  | .getslot dst self name recv site =>
    let r := σ.vm.getslot self name (σ.get recv) site
    σ.answer dst (r.vm, fetched r.answer)
  | .getSlot dst self name =>
    let r := σ.objGetSlot (σ.get self) name
    σ.answer dst (r.1, r.2.toOption)
  | .slotGet dst obj name =>
    let r := σ.urbiSlotGet (σ.get obj) name
    σ.answer (.host dst) (r.1, r.2.toOption)
  | .globalGet dst globals name =>
    let r := σ.urbiGlobalGet globals name
    σ.answer (.host dst) (r.1, r.2.toOption)
  | .peek dst self name kind => σ.answer dst (σ.peek (σ.get self) name kind)
  | .getProperty dst self name prop =>
    σ.answer dst (σ.vm, σ.objGetProperty (σ.get self) name prop)
  | .assign path recv val granted =>
    { σ with vm := (σ.vm.assign granted (path.assignment (σ.get recv) (σ.get val))).1 }
  | .setProperty self name prop val cell granted =>
    σ.objSetProperty (σ.get self) name prop (σ.get val) cell granted
  | .installProperty x name getter setter value cell granted =>
    σ.setLocal x (installedSlot name (σ.get getter) (σ.get setter) (σ.get value)) cell granted
  | .setLocal x name val constant granted =>
    σ.setLocal x (.make name (σ.get val) { constant := constant }) false granted
  | .access a => { σ with vm := (σ.vm.exec a).1 }
  | .makeReadonly x => { σ with vm := σ.vm.modify x fun o => { o with readonly := true } }

def run (moves : List (Transfer L)) : Store L := moves.foldl step σ

@[simp] theorem vm_answer (dst : Root) (r : UVM L × Option (UValue L)) :
    (σ.answer dst r).vm = r.1 := by
  unfold answer
  cases r.2 <;> rfl

@[simp] theorem vm_refill (cell : Nat) (body : UCellBody L) : (σ.refill cell body).vm = σ.vm := by
  unfold refill
  split <;> rfl

theorem vm_rawGet (o : ObjId) (name : USym) (miss : GetError) :
    (σ.rawGet o name miss).1 = σ.vm.slotSteps [.access (.probe (.obj o) name)] := by
  show _ = (σ.vm.uobjResolve o name).1
  unfold rawGet
  split <;> rename_i hres <;> rw [hres]

theorem vm_step (a : Transfer L) : ∃ steps : List (SlotStep L), (σ.step a).vm = σ.vm.slotSteps steps := by
  cases a with
  | make | copy | newList | newDict => exact ⟨[], rfl⟩
  | fillList | fillDict => exact ⟨[], vm_refill ..⟩
  | getslot dst self name recv site =>
    exact ⟨[.access (.getslot self name (σ.get recv) site)], vm_answer ..⟩
  | getSlot dst self name =>
    rw [step, vm_answer]
    unfold objGetSlot
    split
    · exact ⟨[], rfl⟩
    · split
      · exact ⟨[], rfl⟩
      · exact ⟨_, σ.vm_rawGet ..⟩
  | slotGet | globalGet =>
    rw [step, vm_answer]
    first | unfold urbiSlotGet hostGet | unfold urbiGlobalGet hostGet
    split
    · exact ⟨[], rfl⟩
    · exact ⟨[], rfl⟩
    · exact ⟨_, σ.vm_rawGet ..⟩
  | peek dst self name kind =>
    rw [step, vm_answer]
    unfold peek
    split
    · exact ⟨[], rfl⟩
    · exact ⟨_, σ.vm_rawGet ..⟩
  | getProperty dst self name prop => exact ⟨[], vm_answer ..⟩
  | assign path recv val granted => exact ⟨[.access (.assign _ granted)], rfl⟩
  | setProperty self name prop val cell granted =>
    exact ⟨[.setProperty (σ.get self) name prop (σ.get val) cell granted], vm_objSetProperty ..⟩
  | installProperty x name getter setter value cell granted =>
    exact ⟨[.access (.setLocal x _ cell granted)], vm_setLocal ..⟩
  | setLocal x name val constant granted =>
    exact ⟨[.access (.setLocal x _ false granted)], vm_setLocal ..⟩
  | access a => exact ⟨[.access a], rfl⟩
  | makeReadonly x => exact ⟨[.makeReadonly x], rfl⟩

/-- What holds of the objects after every run of accesses holds of them here; so no object has two
slots of one name. -/
theorem distinct_run (moves : List (Transfer L)) (h : σ.vm.Distinct) : (σ.run moves).vm.Distinct := by
  induction moves generalizing σ with
  | nil => exact h
  | cons a rest ih =>
    apply ih
    obtain ⟨steps, hsteps⟩ := σ.vm_step a
    rw [hsteps]
    exact UVM.distinct_slotSteps h steps

def blank (atoms : UValue L → Option ObjId) : Store L := { vm := .blank atoms }

/-! ## Property cells outside their slots -/

def isProps : UValue L → Bool
  | .cell id => (σ.cells[id]?).any UCellBody.isProps
  | _ => false

def resolved (o : ObjId) (name : USym) (flagging : Bool) : Option (USlot L) :=
  (σ.vm.resolveImpl o name flagging).2.bind σ.vm.slotAt

/-- What is read of the slot that the receiver and the name resolve to, or of the plain slot in the
entry of the site. -/
def Yields (recv : Option ObjId) (name : Option USym) (site : Option Nat) (f : Fetched L) : Prop :=
  ∃ o ∈ recv, ∃ n ∈ name, match site.bind fun k => σ.vm.cachedRead (σ.vm.sites k) o n with
    | some (w, v) => f = .value v ∧ ∃ s ∈ (σ.vm.obj w).slots, s.stored = .plain v
    | none => ∃ s ∈ σ.resolved o n site.isSome, f = s.read

def accessors (o : ObjId) (name : USym) : Bool :=
  (σ.resolved o name false).any fun s => s.attrs.isProperty

def meets (obj : Option ObjId) (name : Option USym) : Bool :=
  obj.any fun o => name.any (σ.accessors o)

def StateKind.isDefault : StateKind → Fetched L → Bool
  | .int, .value (.int i) => i == 0
  | .bool, .value (.bool b) => !b
  | _, _ => false

/-- A raw read meets a slot with accessors; that of a native may go unnoticed, where the stored value
is the default it takes and there is no getter. -/
def leaks : Transfer L → Bool
  | .getSlot _ self name => σ.meets (σ.vm.dispatchProto (σ.get self)) name
  | .slotGet _ obj name => σ.meets (σ.vm.dispatchProto (σ.get obj)) name
  | .globalGet _ globals name => σ.meets globals name
  | .peek _ self name kind => (σ.get self).asObj.any fun o =>
      (σ.resolved o name false).any fun s => s.attrs.isProperty && !kind.isDefault s.read
  | _ => false

end Store

end Urbi
