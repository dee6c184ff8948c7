import Urbi.Obj.Resolve

/-!
# Slot accesses

The slot instructions with their site caches, the natives of the Object root, and the host API.  A
getter and a setter are script: an access that needs one answers with the closure to call, and what
the closure does is the accesses that follow.
-/

namespace Urbi

variable {L : CodeBase}

def UValue.isCell : UValue L → Bool
  | .closure _ | .tag _ | .event _ | .strand _ | .cell _ => true
  | _ => false

/-- Nothing when it is an atom or a cell (`self_object`). -/
def UValue.asObj : UValue L → Option ObjId
  | .obj id | .exception id _ => some id
  | _ => none

inductive Fetched (L : CodeBase) where
  | value (v : UValue L)
  | getter (cl : UValue L)

def USlot.read (s : USlot L) : Fetched L :=
  match s.stored with
  | .plain v => .value v
  | .props p => if s.attrs.getter && p.getter.isCell then .getter p.getter else .value p.value

inductive SlotError where
  | noNames (what : String)
  | notObject (what : String)
  | selfNotObject (what : String)
  | notString (what : String)
  | notFound (what : String) (name : USym)
  | unreachable (what : String) (name : USym)
  | constant
  | readonly
  | outOfMemory (what : String)
  | hostInvalidArg
  | hostOom
  deriving DecidableEq, Repr

def SlotError.text : SlotError → Option Bytes
  | .noNames what => utf8 (what ++ ": no name table bound")
  | .notObject what => utf8 (what ++ ": receiver is not an Object")
  | .selfNotObject what => utf8 (what ++ ": self must be an Object")
  | .notString what => utf8 (what ++ ": name must be a String")
  | .notFound what name => ((utf8 (what ++ ": slot '") ++ cstr name ++ utf8 "' not found").take 191)
  | .unreachable what name =>
    ((utf8 (what ++ ": slot '") ++ cstr name ++
      utf8 "' unreachable: proto graph exceeds the 64-entry resolution stack").take 191)
  | .constant => utf8 "slot write: slot is constant"
  | .readonly => utf8 "slot write: receiver is read-only"
  | .outOfMemory what => utf8 (what ++ "out of memory")
  | .hostInvalidArg | .hostOom => none
where
  utf8 (s : String) : Bytes := s.toUTF8.toList
  cstr (b : Bytes) : Bytes := b.takeWhile (· != 0)

namespace UVM

variable (vm : UVM L)

/-! ## The reactive seam -/

def observe (x : ObjId) : UVM L :=
  if vm.observing then vm.modify x fun o => { o with watched := true } else vm

def markDirty : UVM L :=
  if vm.ndirty != 0xFFFFFFFF then { vm with ndirty := vm.ndirty + 1 } else vm

/-- A name too long has none. -/
def hiddenSym (name : USym) : Option USym :=
  if name.length + 1 > 192 then none else some (1 :: name)

def slotInstalled (x : ObjId) (name : USym) : UVM L :=
  if (hiddenSym name).any fun hidden => ((vm.obj x).findLocal hidden).isSome then
    match (vm.obj x).findLocal name with
    | some i => vm.modify x fun o => { o with slots := o.slots.modify i USlot.subscribe }
    | none => vm
  else vm

def noteDirty (x : ObjId) : UVM L := if (vm.obj x).watched then vm.markDirty else vm

/-- A change event that is subscribed to is emitted, which is script. -/
def noteWrite (x : ObjId) (name : USym) (existed : Bool) : UVM L :=
  if !existed && (vm.obj x).changeEvents then (vm.noteDirty x).slotInstalled x name
  else vm.noteDirty x

/-! ## The site caches -/

def slotcacheHit (e : USlotCache) (recv : ObjId) (name : USym) : Bool :=
  if e.recv != some recv then false
  else if e.owner == some recv then
    ((vm.obj recv).slots[e.index]?).any fun s => s.name == name
  else e.epoch == vm.stats.slotEpoch

def fillSite (site : Nat) (e : USlotCache) : UVM L :=
  { vm with sites := Function.update vm.sites site e }

def fillOwn (site : Nat) (recv : ObjId) (index : Nat) : UVM L :=
  vm.fillSite site { recv := some recv, owner := some recv, epoch := 0, index := index % 65536 }

def fillInherited (site : Nat) (recv : ObjId) (ref : UObjSlotRef) : UVM L :=
  vm.fillSite site
    { recv := some recv, owner := some ref.owner, epoch := vm.stats.slotEpoch, index := ref.index % 65536 }

def fill (site : Option Nat) (recv : ObjId) (ref : UObjSlotRef) : UVM L :=
  match site with
  | none => vm
  | some site =>
    if ref.owner = recv then vm.fillOwn site recv ref.index else vm.fillInherited site recv ref

/-! ## Reads -/

end UVM

structure Lookup where
  recv : ObjId
  name : USym
  observed : List ObjId
  deriving DecidableEq, Repr

structure Reading (L : CodeBase) where
  vm : UVM L
  lookup : Option Lookup
  answer : Except SlotError (Fetched L)

namespace UVM

variable (vm : UVM L)

def slotAt (ref : UObjSlotRef) : Option (USlot L) := (vm.obj ref.owner).slots[ref.index]?

def missed (what : String) (name : USym) : SlotError :=
  if vm.stats.resolveOverflow then .unreachable what name else .notFound what name

/-- A miss reads the receiver, a hit both ends of the resolution. -/
def slotGet (recv : UValue L) (name : USym) (what : String) (site : Option Nat) : Reading L :=
  match vm.dispatchProto recv with
  | none => ⟨vm, none, .error (.notObject what)⟩
  | some o =>
    match if site.isSome then vm.uobjResolveFlagging o name else vm.uobjResolve o name with
    | (vm, none) => ⟨vm.observe o, some ⟨o, name, [o]⟩, .error (vm.missed what name)⟩
    | (vm, some ref) =>
      ⟨((vm.observe o).observe ref.owner).fill site o ref, some ⟨o, name, [o, ref.owner]⟩,
        .ok ((vm.slotAt ref).elim (.value .nil) USlot.read)⟩

/-- A slot with accessors is never answered from the cache. -/
def cachedRead (e : USlotCache) (o : ObjId) (name : USym) : Option (ObjId × UValue L) :=
  if vm.slotcacheHit e o name then
    e.owner.bind fun owner => ((vm.obj owner).slots[e.index]?).bind fun s =>
      match s.stored with
      | .plain v => some (owner, v)
      | .props _ => none
  else none

def getslot (self : Bool) (name : Option USym) (recv : UValue L) (site : Option Nat) : Reading L :=
  match name with
  | none => ⟨vm, none, .error (.noNames "slot access")⟩
  | some name =>
    let what := if self then "method call" else "slot access"
    match vm.dispatchProto recv, site with
    | some o, some k =>
      match vm.cachedRead (vm.sites k) o name with
      | some (owner, v) =>
        ⟨(vm.observe o).observe owner, some ⟨o, name, [o, owner]⟩, .ok (.value v)⟩
      | none => vm.slotGet recv name what (some k)
    | _, _ => vm.slotGet recv name what none

/-! ## Assignments -/

inductive Written (L : CodeBase) where
  | stored
  | setter (cl : UValue L)

def storeNoted (x : ObjId) (name : USym) (v : UValue L) (site : Option Nat) (granted : Bool) :
    Option (UVM L) :=
  let existed := ((vm.obj x).findLocal name).isSome
  (vm.setLocal x (.make name v {}) false granted).map fun (vm, i) =>
    (site.elim vm fun k => vm.fillOwn k x i).noteWrite x name existed

def assignNoted (x : ObjId) (name : USym) (i : Nat) (v : UValue L) : UVM L :=
  (vm.modify x fun o => { o with slots := o.slots.modify i fun s => s.assign v }).noteWrite x name
    true

def storeOr (oom : SlotError) (stored : Option (UVM L)) : UVM L × Except SlotError (Written L) :=
  match stored with
  | none => (vm, .error oom)
  | some vm' => (vm', .ok .stored)

def setslotLong (x : ObjId) (name : USym) (v : UValue L) (site : Option Nat) (granted : Bool) :
    UVM L × Except SlotError (Written L) :=
  let store := vm.storeOr (.outOfMemory "slot write: ") (vm.storeNoted x name v site granted)
  if (vm.obj x).readonly then (vm, .error .readonly)
  else match (vm.obj x).findLocal name, (vm.obj x).local? name with
    | some i, some s =>
      if s.attrs.constant then (vm, .error .constant)
      else match s.stored with
        | .plain _ => store
        | .props p =>
          if s.attrs.setter && p.setter.isCell then (vm, .ok (.setter p.setter))
          else (vm.assignNoted x name i v, .ok .stored)
    | _, _ => store

def cachedWrite (e : USlotCache) (x : ObjId) (name : USym) : Option Nat :=
  if e.owner == some x && vm.slotcacheHit e x name && !(vm.obj x).readonly
      && ((vm.obj x).slots[e.index]?).any fun s => !(s.attrs.constant || s.attrs.isProperty) then
    some e.index
  else none

/-- The name has to resolve, and not to a constant. -/
def setslotUpdate (x : ObjId) (name : USym) (v : UValue L) (site : Option Nat) (granted : Bool) :
    UVM L × Except SlotError (Written L) :=
  match vm.uobjResolve x name with
  | (vm, none) => (vm, .error (vm.missed "slot write" name))
  | (vm, some ref) =>
    if (vm.slotAt ref).any fun s => s.attrs.constant then (vm, .error .constant)
    else vm.setslotLong x name v site granted

def setslot (update : Bool) (name : Option USym) (recv : UValue L) (v : UValue L)
    (site : Option Nat) (granted : Bool) : UVM L × Except SlotError (Written L) :=
  match name, recv.asObj with
  | none, _ => (vm, .error (.noNames "slot write"))
  | some _, none => (vm, .error (.notObject "slot write"))
  | some name, some x =>
    match site.bind fun k => vm.cachedWrite (vm.sites k) x name with
    | some i => (vm.assignNoted x name i v, .ok .stored)
    | none =>
      if update then vm.setslotUpdate x name v site granted
      else vm.setslotLong x name v site granted

/-- Neither a read-only receiver nor a constant slot refuses it. -/
def objSetSlot (self : UValue L) (name : Option USym) (v : UValue L) (granted : Bool) :
    UVM L × Except SlotError (Written L) :=
  match self.asObj, name with
  | none, _ => (vm, .error (.selfNotObject "setSlot"))
  | some _, none => (vm, .error (.notString "setSlot"))
  | some x, some name => vm.storeOr (.outOfMemory "") (vm.storeNoted x name v none granted)

/-- `name` is absent when interning ran out of memory. -/
def urbiSlotSet (obj : UValue L) (name : Option USym) (v : UValue L) (granted : Bool) :
    UVM L × Except SlotError (Written L) :=
  match obj.asObj with
  | none => (vm, .error .hostInvalidArg)
  | some x =>
    if (vm.obj x).readonly then (vm, .error .hostInvalidArg)
    else vm.storeOr .hostOom (name.bind fun name => vm.storeNoted x name v none granted)

def urbiGlobalSet (globals : Option ObjId) (name : Option USym) (v : UValue L) (granted : Bool) :
    UVM L × Except SlotError (Written L) :=
  match globals with
  | none => (vm, .error .hostInvalidArg)
  | some g => vm.storeOr .hostOom (name.bind fun name => vm.storeNoted g name v none granted)

end UVM

end Urbi
