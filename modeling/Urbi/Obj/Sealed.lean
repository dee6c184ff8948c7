import Urbi.Obj.Names
import Urbi.Obj.Watched

/-!
# Read-only objects and constant slots

The slot instructions honour read-only objects and constant slots.  `setSlot`, `removeSlot`,
`setProperty` and a subscription to a slot's change event go to `uobj_set_local` and
`uobj_remove_local` without looking at either.
-/

namespace Urbi

variable {L : CodeBase}

/-! ## `setProperty` -/

inductive PropBit where
  | oget
  | oset
  | constant
  deriving DecidableEq, Repr

def propertyBit (prop : Bytes) : Option PropBit :=
  if cstr prop = "oget".toUTF8.toList then some .oget
  else if cstr prop = "oset".toUTF8.toList then some .oset
  else if cstr prop = "constant".toUTF8.toList then some .constant
  else none

inductive PropError where
  | selfNotObject
  | notStrings
  | unknownProp
  | notFunction
  | arity (what : String) (want got : Nat)
  | outOfMemory
  deriving DecidableEq, Repr

def PropError.text : PropError → String
  | .selfNotObject => "setProperty: self must be an Object"
  | .notStrings => "setProperty: name and prop name must be Strings"
  | .unknownProp =>
    "setProperty: prop name must be one of \"oget\", \"oset\", \"constant\""
  | .notFunction => "setProperty: oget/oset requires a function value"
  | .arity what want got => what ++ " expected " ++ toString want ++ " args, got " ++ toString got
  | .outOfMemory => "out of memory"

def UClosure.expects (cl : UClosure L) : Nat :=
  match cl.code with
  | .proto p => p.val.block.nparams.toNat
  | .native minArgs _ => minArgs

def PropBit.accepts (b : PropBit) (v : UValue L) : Except PropError Unit :=
  match b, v with
  | .constant, _ => .ok ()
  | .oget, .closure cl =>
    if cl.expects ≠ 0 then .error (.arity "get" 0 cl.expects) else .ok ()
  | .oset, .closure cl =>
    if cl.expects ≠ 1 then .error (.arity "set" 1 cl.expects) else .ok ()
  | _, _ => .error .notFunction

def PropBit.on (b : PropBit) (attrs : USlotAttrs) : USlotAttrs :=
  match b with
  | .oget => { attrs with getter := true }
  | .oset => { attrs with setter := true }
  | .constant => { attrs with constant := true }

def PropBit.slot (b : PropBit) (was : Option (USlot L)) (name : USym) (v : UValue L) : USlot L :=
  let attrs := b.on (was.elim {} USlot.attrs)
  let held : UProps L := match was.map USlot.stored with
    | none => { value := .nil }
    | some (.plain w) => { value := w }
    | some (.props p) => p
  let held := match b with
    | .oget => { held with getter := v }
    | .oset => { held with setter := v }
    | .constant => { held with value := v }
  { name := name
    stored := if attrs.isProperty then .props held else .plain held.value
    attrs := attrs
    kind := by cases h : attrs.isProperty <;> simp [Stored.isProps] }

/-- `prop` is absent when the argument is not a string. -/
def UVM.objSetProperty (vm : UVM L) (self : UValue L) (name : Option USym) (prop : Option Bytes)
    (v : UValue L) (cell granted : Bool) : UVM L × Except PropError Unit :=
  match self.asObj, name, prop with
  | none, _, _ => (vm, .error .selfNotObject)
  | some x, some name, some prop =>
    match propertyBit prop with
    | none => (vm, .error .unknownProp)
    | some b =>
      match b.accepts v with
      | .error e => (vm, .error e)
      | .ok () =>
        match vm.setLocal x (b.slot ((vm.obj x).local? name) name v) cell granted with
        | none => (vm, .error .outOfMemory)
        | some (vm, _) => (vm, .ok ())
  | some _, _, _ => (vm, .error .notStrings)

/-! ## Steps -/

inductive SlotStep (L : CodeBase) where
  | access (a : Access L)
  | setProperty (self : UValue L) (name : Option USym) (prop : Option Bytes) (v : UValue L)
      (cell granted : Bool)
  | makeReadonly (x : ObjId)

namespace UVM

def slotStep (vm : UVM L) : SlotStep L → UVM L
  | .access a => (vm.exec a).1
  | .setProperty self name prop v cell granted =>
    (vm.objSetProperty self name prop v cell granted).1
  | .makeReadonly x => vm.modify x fun o => { o with readonly := true }

def slotSteps (vm : UVM L) (steps : List (SlotStep L)) : UVM L := steps.foldl slotStep vm

def unsealed (vm : UVM L) (x : ObjId) (name : USym) : Bool :=
  !(vm.obj x).readonly && !((vm.obj x).local? name).any fun s => s.attrs.constant

/-- No native, and no store of the runtime or the host, is aimed at a read-only object or a constant
slot. -/
def respects (vm : UVM L) : SlotStep L → Bool
  | .access (.assign (.setSlot self name _) _) =>
    self.asObj.all fun x => name.all fun n => vm.unsealed x n
  | .access (.assign (.slotSet obj name _) _) =>
    obj.asObj.all fun x => name.all fun n => vm.unsealed x n
  | .access (.assign (.globalSet globals name _) _) =>
    globals.all fun x => name.all fun n => vm.unsealed x n
  | .access (.setLocal x s _ _) => vm.unsealed x s.name
  | .access (.removeSlot x n) => vm.unsealed x n
  | .access (.subscribe x n _ _) => (hiddenSym n).all fun hidden => vm.unsealed x hidden
  | .setProperty self name _ _ _ _ => self.asObj.all fun x => name.all fun n => vm.unsealed x n
  | _ => true

def respectsAll (vm : UVM L) : List (SlotStep L) → Bool
  | [] => true
  | a :: rest => vm.respects a && (vm.slotStep a).respectsAll rest

end UVM

/-! ## The discipline -/

/-- All of a read-only object's slots stay, and the value and the flag of a constant slot. -/
structure UObject.SealKept (o o' : UObject L) : Prop where
  readonly : o.readonly = true → o'.readonly = true ∧ o'.slots = o.slots
  constant : ∀ n s, o.local? n = some s → s.attrs.constant = true →
    ∃ s', o'.local? n = some s' ∧ s'.stored = s.stored ∧ s'.attrs.constant = true

namespace UObject

variable {o o' o'' : UObject L}

theorem SealKept.trans (h : SealKept o o') (h' : SealKept o' o'') : SealKept o o'' := by
  constructor
  · intro hro
    obtain ⟨hro', hslots⟩ := h.readonly hro
    obtain ⟨hro'', hslots'⟩ := h'.readonly hro'
    exact ⟨hro'', hslots'.trans hslots⟩
  · intro n s hs hc
    obtain ⟨s', hs', hstored, hc'⟩ := h.constant n s hs hc
    obtain ⟨s'', hs'', hstored', hc''⟩ := h'.constant n s' hs' hc'
    exact ⟨s'', hs'', hstored'.trans hstored, hc''⟩

/-- On an object that takes writes it is enough to keep the constant slots. -/
theorem SealKept.of_slots (hro : o.readonly = false) (hnd : o.names.Nodup) (hnd' : o'.names.Nodup)
    (h : ∀ (j : Nat) (s : USlot L), o.slots[j]? = some s → s.attrs.constant = true →
      ∃ s' ∈ o'.slots, s'.name = s.name ∧ s'.stored = s.stored ∧ s'.attrs.constant = true) :
    SealKept o o' := by
  refine ⟨fun h => absurd h (by rw [hro]; decide), fun n s hs hc => ?_⟩
  obtain ⟨hmem, rfl⟩ := (local?_eq_some_iff hnd).mp hs
  obtain ⟨j, hj⟩ := List.mem_iff_getElem?.mp hmem
  obtain ⟨s', hs', hname, hrest⟩ := h j s hj hc
  exact ⟨s', (local?_eq_some_iff hnd').mpr ⟨hs', hname⟩, hrest⟩

theorem SealKept.modify {i : Nat} {f : USlot L → USlot L} (hro : o.readonly = false)
    (hnd : o.names.Nodup) (hname : ∀ s, (f s).name = s.name)
    (hf : ∀ s, o.slots[i]? = some s → s.attrs.constant = true →
      (f s).stored = s.stored ∧ (f s).attrs.constant = true) :
    SealKept o { o with slots := o.slots.modify i f } := by
  have hnd' : UObject.names { o with slots := o.slots.modify i f } |>.Nodup := by
    have hnames : (o.slots.modify i f).map USlot.name = o.names :=
      names_modify fun s _ => hname s
    show ((o.slots.modify i f).map USlot.name).Nodup
    rw [hnames]
    exact hnd
  refine .of_slots hro hnd hnd' fun j s hj hc => ?_
  by_cases hij : i = j
  · subst hij
    refine ⟨f s, ?_, hname s, hf s hj hc⟩
    apply List.mem_of_getElem? (i := i)
    show (o.slots.modify i f)[i]? = some (f s)
    rw [List.getElem?_modify_eq, hj]
    rfl
  · refine ⟨s, ?_, rfl, rfl, hc⟩
    apply List.mem_of_getElem? (i := j)
    show (o.slots.modify i f)[j]? = some s
    rw [List.getElem?_modify_ne _ _ hij]
    exact hj

end UObject

def sealing (L : CodeBase) : Discipline L where
  r o o' := o.names.Nodup → o'.names.Nodup ∧ o.SealKept o'
  may o n := o.readonly = false ∧ ∀ s, o.local? n = some s → s.attrs.constant = false
  opened o := o.readonly = false
  light := by
    intro o o' hslots hro hnd
    have hnames : o'.names = o.names := by rw [UObject.names, hslots]; rfl
    have hlocal : ∀ n, o'.local? n = o.local? n := fun n => by rw [UObject.local?, hslots]; rfl
    refine ⟨hnames ▸ hnd, fun h => ⟨hro.trans h, hslots⟩, fun n s hs hc => ?_⟩
    exact ⟨s, (hlocal n).trans hs, rfl, hc⟩
  trans := by
    intro o o' o'' h h' hnd
    obtain ⟨hnd', hkept⟩ := h hnd
    obtain ⟨hnd'', hkept'⟩ := h' hnd'
    exact ⟨hnd'', hkept.trans hkept'⟩
  asked hro hconst := ⟨hro, hconst⟩
  opened_of_may h := h.1
  opened_congr hro h := hro.trans h
  store := by
    intro o s granted o' i b hmay hset hnd
    have hwrote := UObject.wrote_of_setLocal hset
    refine ⟨(distinctNames L).store trivial hset hnd, ?_, ?_⟩
    · intro h
      rw [hmay.1] at h
      cases h
    · intro n t ht hc
      have hne : n ≠ s.name := by
        rintro rfl
        rw [hmay.2 t ht] at hc
        cases hc
      exact ⟨t, (hwrote.other n hne).trans ht, rfl, hc⟩
  assign := by
    intro o i s v hs hro hconst hnd
    refine ⟨(distinctNames L).assign v hs hro hconst hnd, .modify hro hnd (fun _ => rfl) ?_⟩
    intro t ht hc
    cases hs.symm.trans ht
    rw [hconst] at hc
    cases hc
  subscribe := by
    intro o i hro hnd
    exact ⟨(distinctNames L).subscribe i trivial hnd,
      .modify hro hnd (fun _ => rfl) fun s _ hc => ⟨rfl, hc⟩⟩
  remove := by
    intro o n o' hmay hremove hnd
    have hnd' := UObject.names_nodup_removeLocal hnd hremove
    refine ⟨hnd', .of_slots hmay.1 hnd hnd' fun j s hj hc => ?_⟩
    obtain ⟨i, hfind, hperm⟩ := UObject.perm_removeLocal hremove
    refine ⟨s, hperm.mem_iff.mpr ?_, rfl, rfl, hc⟩
    apply List.mem_eraseIdx_iff_getElem?.mpr
    refine ⟨j, ?_, hj⟩
    -- the slot removed is not constant
    rintro rfl
    obtain ⟨t, ht, htj⟩ := UObject.local?_of_findLocal hfind
    cases htj.symm.trans hj
    rw [hmay.2 s ht] at hc
    cases hc

namespace UVM

variable {vm : UVM L}

theorem may_of_unsealed {x : ObjId} {n : USym} (h : vm.unsealed x n = true) :
    (sealing L).may (vm.obj x) n := by
  unfold unsealed at h
  rw [Bool.and_eq_true, Bool.not_eq_true', Bool.not_eq_true'] at h
  refine ⟨h.1, fun s hs => ?_⟩
  have hany := h.2
  rw [hs] at hany
  exact hany

theorem may_of_all {o : Option ObjId} {name : Option USym}
    (h : (o.all fun x => name.all fun n => vm.unsealed x n) = true) {x : ObjId} {n : USym}
    (hx : o = some x) (hn : name = some n) : (sealing L).may (vm.obj x) n := by
  rw [hx, hn] at h
  exact may_of_unsealed h

/-! ## Steps and runs -/

theorem each_objSetProperty {D : Discipline L} {self v : UValue L} {name : Option USym}
    {prop : Option Bytes} {cell granted : Bool}
    (h : ∀ x n, self.asObj = some x → name = some n → D.may (vm.obj x) n) :
    D.Each vm (vm.objSetProperty self name prop v cell granted).1 := by
  suffices hkept : D.keeping.Each vm (vm.objSetProperty self name prop v cell granted).1 from
    hkept.obj
  unfold objSetProperty
  split
  · exact .refl vm
  · rename_i x name prop hself
    split
    · exact .refl vm
    · rename_i b _
      split
      · exact .refl vm
      · split
        · exact .refl vm
        · rename_i vm' i hset
          refine (Keeping.Each.setLocal ?_ hset).1
          exact h x name hself rfl
  · exact .refl vm

theorem distinct_slotStep (h : vm.Distinct) (a : SlotStep L) : (vm.slotStep a).Distinct := by
  cases a with
  | access a => exact distinct_exec h a
  | setProperty self name prop v cell granted =>
    have heach : (distinctNames L).Each vm (vm.objSetProperty self name prop v cell granted).1 :=
      each_objSetProperty fun _ _ _ _ => trivial
    exact fun x => heach x (h x)
  | makeReadonly x =>
    intro y
    show ((vm.modify x _).obj y).names.Nodup
    rcases obj_modify_cases vm x y _ with heq | ⟨rfl, -, heq⟩ <;> rw [heq]
    · exact h y
    · exact h y

theorem distinct_slotSteps (h : vm.Distinct) (steps : List (SlotStep L)) :
    (vm.slotSteps steps).Distinct := by
  induction steps generalizing vm with
  | nil => exact h
  | cons a steps ih => exact ih (distinct_slotStep h a)

theorem permits_of_respects {a : Access L} (h : vm.respects (.access a) = true) :
    (sealing L).Permits vm a := by
  cases a with
  | assign a granted =>
    cases a with
    | setslot => exact trivial
    | setSlot | slotSet | globalSet => exact fun x n hx hn => may_of_all h hx hn
  | setLocal x s cell granted | removeSlot x n => exact may_of_unsealed h
  | subscribe x n event granted =>
    intro hidden hsym
    have h : ((hiddenSym n).all fun hidden => vm.unsealed x hidden) = true := h
    rw [hsym] at h
    exact may_of_unsealed h
  | _ => exact trivial

theorem sealKept_slotStep (hd : vm.Distinct) {a : SlotStep L} (h : vm.respects a = true)
    (x : ObjId) : (vm.obj x).SealKept ((vm.slotStep a).obj x) := by
  cases a with
  | access a => exact (Discipline.each_exec (permits_of_respects h) x (hd x)).2
  | setProperty self name prop v cell granted =>
    have heach : (sealing L).Each vm (vm.objSetProperty self name prop v cell granted).1 :=
      each_objSetProperty fun y n hy hn => may_of_all h hy hn
    exact (heach x (hd x)).2
  | makeReadonly y =>
    show (vm.obj x).SealKept ((vm.modify y _).obj x)
    rcases obj_modify_cases vm y x _ with heq | ⟨rfl, -, heq⟩ <;> rw [heq]
    · exact ⟨fun hro => ⟨hro, rfl⟩, fun n s hs hc => ⟨s, hs, rfl, hc⟩⟩
    · exact ⟨fun _ => ⟨rfl, rfl⟩, fun n s hs hc => ⟨s, hs, rfl, hc⟩⟩

theorem sealKept_slotSteps (hd : vm.Distinct) {steps : List (SlotStep L)}
    (h : vm.respectsAll steps = true) (x : ObjId) :
    (vm.obj x).SealKept ((vm.slotSteps steps).obj x) := by
  induction steps generalizing vm with
  | nil => exact ⟨fun hro => ⟨hro, rfl⟩, fun n s hs hc => ⟨s, hs, rfl, hc⟩⟩
  | cons a steps ih =>
    unfold respectsAll at h
    rw [Bool.and_eq_true] at h
    exact (sealKept_slotStep hd h.1 x).trans (ih (distinct_slotStep hd a) h.2)

def blank (atoms : UValue L → Option ObjId) : UVM L := { atomProto := atoms }

theorem distinct_blank (atoms : UValue L → Option ObjId) : (blank atoms).Distinct := by
  intro x
  rw [obj_of_le _ (Nat.zero_le _)]
  exact List.nodup_nil

/-- Whatever boot has sealed stays sealed in every run whose natives leave it alone, whatever the
slot instructions try. -/
theorem seals_hold (atoms : UValue L → Option ObjId) (boot script : List (SlotStep L))
    (h : ((blank atoms).slotSteps boot).respectsAll script = true) (x : ObjId) :
    (((blank atoms).slotSteps boot).obj x).SealKept
      ((((blank atoms).slotSteps boot).slotSteps script).obj x) :=
  sealKept_slotSteps (distinct_slotSteps (distinct_blank atoms) boot) h x

end UVM

def sealedVM : UVM noCode :=
  (UVM.blank fun _ => none).slotSteps [.access (.new none),
    .access (.setLocal 0 (.make [0x78] .nil { constant := true }) false true), .makeReadonly 0]

/-- A native stores a second slot on a read-only object; another takes its constant slot away. -/
theorem natives_break_seals :
    let stored := sealedVM.slotSteps [.access (.assign (.setSlot (.obj 0) (some [0x79]) .nil) true)]
    let removed := sealedVM.slotSteps [.access (.removeSlot 0 [0x78])]
    (sealedVM.obj 0).readonly = true ∧
      ((sealedVM.obj 0).local? [0x78]).any (fun s => s.attrs.constant) = true ∧
      ¬ (sealedVM.obj 0).SealKept (stored.obj 0) ∧
      ((removed.obj 0).local? [0x78]).isNone = true ∧
      ¬ (sealedVM.obj 0).SealKept (removed.obj 0) := by
  intro stored removed
  have hro : (sealedVM.obj 0).readonly = true := by decide
  have hone : (sealedVM.obj 0).slots.length = 1 := by decide
  have htwo : (stored.obj 0).slots.length = 2 := by decide
  have hnone : (removed.obj 0).slots.length = 0 := by decide
  refine ⟨hro, by decide, fun h => ?_, by decide, fun h => ?_⟩
  · have hlen := congrArg List.length (h.readonly hro).2
    omega
  · have hlen := congrArg List.length (h.readonly hro).2
    omega

/-- The instructions are refused, on the object and on the slot. -/
theorem seals_hold_setslot :
    let script : List (SlotStep noCode) :=
      [.access (.assign (.setslot false (some [0x79]) (.obj 0) .nil none) true),
        .access (.assign (.setslot true (some [0x78]) (.obj 0) .nil none) true)]
    sealedVM.respectsAll script = true ∧ (sealedVM.obj 0).readonly = true ∧
      (sealedVM.obj 0).SealKept ((sealedVM.slotSteps script).obj 0) := by
  intro script
  have hrespects : sealedVM.respectsAll script = true := by decide
  exact ⟨hrespects, by decide, UVM.seals_hold _ _ script hrespects 0⟩

end Urbi
