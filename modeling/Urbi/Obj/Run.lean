import Urbi.Obj.Access

/-!
# Runs of slot accesses

Everything that happens to the objects, as one list of accesses.  What a single access can do to an
object is said here once, as what it takes for a relation to be kept by every access.
-/

namespace Urbi

variable {L : CodeBase}
variable {v : UValue L} {x : ObjId}

inductive Assignment (L : CodeBase) where
  | setslot (update : Bool) (name : Option USym) (recv v : UValue L) (site : Option Nat)
  | setSlot (self : UValue L) (name : Option USym) (v : UValue L)
  | slotSet (obj : UValue L) (name : Option USym) (v : UValue L)
  | globalSet (globals : Option ObjId) (name : Option USym) (v : UValue L)

def Assignment.value : Assignment L → UValue L
  | .setslot _ _ _ v _ | .setSlot _ _ v | .slotSet _ _ v | .globalSet _ _ v => v

def Assignment.stores : Assignment L → ObjId → USym → Prop
  | .setslot .., _, _ => False
  | .setSlot o name _, x, n | .slotSet o name _, x, n => o.asObj = some x ∧ name = some n
  | .globalSet globals name _, x, n => globals = some x ∧ name = some n

def UObject.Asked (o : UObject L) (name : USym) : Prop :=
  o.readonly = false ∧ ∀ s, o.local? name = some s → s.attrs.constant = false

/-- Reads, assignments, the stores and edits nobody is told about, and what the reactive runtime and
the collector do in between. -/
inductive Access (L : CodeBase) where
  | getslot (self : Bool) (name : Option USym) (recv : UValue L) (site : Option Nat)
  | loadRealmGlobal (g : ObjId)
  /-- A bare `uobj_resolve`: an operator's method, `getSlot`, `hasSlot`, a host read. -/
  | probe (recv : UValue L) (name : USym)
  | isA (o proto : ObjId)
  | assign (a : Assignment L) (granted : Bool)
  /-- The note at the end of an assignment whose setter has returned. -/
  | setterReturned (x : ObjId) (name : USym)
  /-- A bare `uobj_set_local`: `setProperty`, the fields of an exception, the boot tables. -/
  | setLocal (x : ObjId) (s : USlot L) (cell granted : Bool)
  | removeSlot (x : ObjId) (name : USym)
  | addProto (x p : ObjId) (granted : Bool)
  | removeProto (x p : ObjId)
  | setProtos (x : ObjId) (ps : List ObjId) (granted : Bool)
  | new (proto : Option ObjId)
  /-- `x.changed?` on a slot, with the event it creates. -/
  | subscribe (x : ObjId) (name : USym) (event : Nat) (granted : Bool)
  | collect
  | observing (on : Bool)
  | drain

namespace UVM

variable (vm : UVM L)

def assign (granted : Bool) : Assignment L → UVM L × Except SlotError (Written L)
  | .setslot update name recv v site => vm.setslot update name recv v site granted
  | .setSlot self name v => vm.objSetSlot self name v granted
  | .slotSet obj name v => vm.urbiSlotSet obj name v granted
  | .globalSet globals name v => vm.urbiGlobalSet globals name v granted

def objRemoveSlot (x : ObjId) (name : USym) : UVM L :=
  match (vm.obj x).removeLocal name with
  | none => vm
  | some o =>
    ((vm.modify x fun _ => o).retire x).noteDirty x

def editProtos (x : ObjId) (edited : Option (UObject L)) : UVM L :=
  edited.elim vm fun o => (vm.modify x fun _ => o).retire x

def slotChangeEvent (x : ObjId) (name : USym) (event : Nat) (granted : Bool) : UVM L :=
  match hiddenSym name with
  | none => vm
  | some hidden =>
    match ((vm.obj x).local? hidden).map USlot.stored with
    | some (.plain (.event _)) => vm
    | _ => (vm.setLocal x (.make hidden (.event event) {}) false granted).elim vm fun (vm, _) =>
      vm.modify x fun o =>
        { o with
          changeEvents := true
          slots := (o.findLocal name).elim o.slots fun i => o.slots.modify i USlot.subscribe }

def collected : UVM L :=
  let vm := vm.epochBump
  if vm.stats.slotEpoch > 0x80000000 then
    { vm with stats.slotEpoch := 1, sites := fun _ => {} }
  else vm

def exec : Access L → UVM L × Option Lookup
  | .getslot self name recv site => let r := vm.getslot self name recv site; (r.vm, r.lookup)
  | .loadRealmGlobal g => (vm.observe g, none)
  | .probe recv name => match vm.dispatchProto recv with
      | none => (vm, none)
      | some o => ((vm.uobjResolve o name).1, some ⟨o, name, []⟩)
  | .isA o proto => ((vm.uobjIsA o proto).1, none)
  | .assign a granted => ((vm.assign granted a).1, none)
  | .setterReturned x name => (vm.noteWrite x name true, none)
  | .setLocal x s cell granted => ((vm.setLocal x s cell granted).elim vm Prod.fst, none)
  | .removeSlot x name => (vm.objRemoveSlot x name, none)
  | .addProto x p granted => (vm.editProtos x ((vm.obj x).addProto p granted), none)
  | .removeProto x p => (vm.editProtos x ((vm.obj x).removeProto p), none)
  | .setProtos x ps granted => (vm.editProtos x ((vm.obj x).setProtos ps granted), none)
  | .new proto => ({ vm with objs := vm.objs ++ [{ protos := proto.toList }] }, none)
  | .subscribe x name event granted => (vm.slotChangeEvent x name event granted, none)
  | .collect => (vm.collected, none)
  | .observing on => ({ vm with observing := on }, none)
  | .drain => ({ vm with ndirty := 0 }, none)

theorem exec_probe (recv : UValue L) (name : USym) : (vm.exec (.probe recv name)).1 =
    (vm.dispatchProto recv).elim vm fun o => (vm.uobjResolve o name).1 := by
  unfold exec
  dsimp only
  cases vm.dispatchProto recv <;> rfl

def admits : Access L → Bool
  | .getslot _ _ recv _ => (vm.dispatchProto recv).all fun o => o < vm.objs.length
  | _ => true

def run : UVM L → List (Access L) → Option (UVM L × List Lookup)
  | vm, [] => some (vm, [])
  | vm, a :: rest =>
    if vm.admits a then
      (run (vm.exec a).1 rest).map fun (vm', ls) => (vm', (vm.exec a).2.toList ++ ls)
    else none

def read (o : ObjId) (name : USym) : Option (Fetched L) := (vm.lookup o name).map USlot.read

end UVM

def Access.inside : Access L → Bool
  | .observing on => on
  | _ => true

/-! ## What an assignment does -/

namespace UVM

inductive Writes (may : UVM L → ObjId → USym → Prop) (v : UValue L) (vm vm' : UVM L) : Prop where
  | nothing (walked : Walked vm vm')
  | store {vm₁ : UVM L} {x : ObjId} {name : USym} {site : Option Nat} {granted : Bool}
      (walked : Walked vm vm₁) (leave : may vm₁ x name)
      (stored : vm₁.storeNoted x name v site granted = some vm')
  | inPlace {vm₁ : UVM L} {x : ObjId} {i : Nat} {s : USlot L} (walked : Walked vm vm₁)
      (slot : (vm₁.obj x).slots[i]? = some s)
      (leave : (vm₁.obj x).readonly = false ∧ s.attrs.constant = false)
      (stored : vm' = vm₁.assignNoted x s.name i v)

variable {vm : UVM L} {may : UVM L → ObjId → USym → Prop}

theorem Writes.of_walked {vm₁ vm' : UVM L} (hw : Walked vm vm₁) (h : Writes may v vm₁ vm') :
    Writes may v vm vm' := by
  cases h with
  | nothing h => exact .nothing (hw.trans h)
  | store h hmay hs => exact .store (hw.trans h) hmay hs
  | inPlace h hs hmay hout => exact .inPlace (hw.trans h) hs hmay hout

theorem writes_storeOr {oom : SlotError} {n : Option USym} {site : Option Nat} {granted : Bool}
    (hmay : ∀ name, n = some name → may vm x name) :
    Writes may v vm (vm.storeOr oom (n.bind fun name => vm.storeNoted x name v site granted)).1 := by
  cases h : n.bind fun name => vm.storeNoted x name v site granted with
  | none => exact .nothing .refl
  | some vm' =>
    obtain ⟨name, hname, hstored⟩ := Option.bind_eq_some_iff.mp h
    exact .store .refl (hmay name hname) hstored

section Asks

variable (hasked : ∀ (vm : UVM L) x n, (vm.obj x).Asked n → may vm x n)
include hasked

theorem writes_setslotLong (x : ObjId) (name : USym) (v : UValue L) (site : Option Nat)
    (granted : Bool) : Writes may v vm (vm.setslotLong x name v site granted).1 := by
  have hstore : (vm.obj x).Asked name → Writes may v vm (vm.storeOr (.outOfMemory "slot write: ")
      (vm.storeNoted x name v site granted)).1 := fun h =>
    writes_storeOr (n := some name) fun n hn => Option.some.inj hn ▸ hasked vm x name h
  unfold setslotLong
  dsimp only
  split
  · exact .nothing .refl
  · rename_i hro
    have hro : (vm.obj x).readonly = false := by simpa using hro
    split
    · rename_i i s hfind hlocal
      obtain ⟨t, ht, hti⟩ := UObject.local?_of_findLocal hfind
      cases hlocal.symm.trans ht
      split
      · exact .nothing .refl
      · rename_i hconst
        have hconst : s.attrs.constant = false := by simpa using hconst
        split
        · refine hstore ⟨hro, fun s' hs' => ?_⟩
          cases hlocal.symm.trans hs'
          exact hconst
        · split
          · exact .nothing .refl
          · exact .inPlace .refl hti ⟨hro, hconst⟩ (by rw [UObject.local?_name hlocal])
    · rename_i hnone
      refine hstore ⟨hro, fun s hs => ?_⟩
      cases hfind : (vm.obj x).findLocal name with
      | none => rw [UObject.findLocal_eq_none.mp hfind] at hs; cases hs
      | some i => exact absurd hs (hnone i s hfind)

omit hasked in
theorem slot_of_cachedWrite {e : USlotCache} {name : USym} {i : Nat}
    (h : vm.cachedWrite e x name = some i) :
    ∃ s, (vm.obj x).slots[i]? = some s ∧ s.name = name ∧ (vm.obj x).readonly = false ∧
      s.attrs.constant = false := by
  unfold cachedWrite at h
  split at h
  · rename_i hcond
    cases h
    simp only [Bool.and_eq_true, beq_iff_eq, Bool.not_eq_true'] at hcond
    obtain ⟨⟨⟨howner, hhit⟩, hro⟩, hplain⟩ := hcond
    unfold slotcacheHit at hhit
    split at hhit
    · cases hhit
    · rw [if_pos (by simpa using howner)] at hhit
      cases hs : (vm.obj x).slots[e.index]? with
      | none =>
        rw [hs] at hhit
        cases hhit
      | some s =>
        rw [hs] at hhit hplain
        simp only [Option.any_some, Bool.not_eq_true', Bool.or_eq_false_iff] at hplain
        exact ⟨s, rfl, by simpa using hhit, hro, hplain.1⟩
  · cases h

theorem writes_setslotUpdate (x : ObjId) (name : USym) (v : UValue L) (site : Option Nat)
    (granted : Bool) : Writes may v vm (vm.setslotUpdate x name v site granted).1 := by
  have hwalked := vm.walked_resolveImpl x name false
  unfold setslotUpdate uobjResolve
  rcases hres : vm.resolveImpl x name false with ⟨vm₁, _ | ref⟩ <;> rw [hres] at hwalked
  · exact .nothing hwalked
  · dsimp only
    split
    · exact .nothing hwalked
    · exact .of_walked hwalked (writes_setslotLong hasked x name v site granted)

theorem writes_setslot (update : Bool) (name : Option USym) (recv v : UValue L) (site : Option Nat)
    (granted : Bool) : Writes may v vm (vm.setslot update name recv v site granted).1 := by
  unfold setslot
  split
  · exact .nothing .refl
  · exact .nothing .refl
  · rename_i name x _
    split
    · rename_i i hcache
      obtain ⟨k, -, hk⟩ := Option.bind_eq_some_iff.mp hcache
      obtain ⟨s, hs, hname, hleave⟩ := slot_of_cachedWrite hk
      exact .inPlace .refl hs hleave (by rw [hname])
    · split
      · exact writes_setslotUpdate hasked x name v site granted
      · exact writes_setslotLong hasked x name v site granted

theorem writes_assign (a : Assignment L) (granted : Bool)
    (hstores : ∀ x n, a.stores x n → may vm x n) :
    Writes may a.value vm (vm.assign granted a).1 := by
  cases a with
  | setslot update name recv v site =>
    exact writes_setslot hasked update name recv v site granted
  | setSlot self name v =>
    show Writes may v vm (vm.objSetSlot self name v granted).1
    unfold objSetSlot
    split
    · exact .nothing .refl
    · exact .nothing .refl
    · rename_i x name hself
      exact writes_storeOr (n := some name) fun n hn => hstores x n ⟨hself, hn⟩
  | slotSet obj name v =>
    show Writes may v vm (vm.urbiSlotSet obj name v granted).1
    unfold urbiSlotSet
    split
    · exact .nothing .refl
    · rename_i x hobj
      split
      · exact .nothing .refl
      · exact writes_storeOr fun n hn => hstores x n ⟨hobj, hn⟩
  | globalSet globals name v =>
    show Writes may v vm (vm.urbiGlobalSet globals name v granted).1
    unfold urbiGlobalSet
    split
    · exact .nothing .refl
    · rename_i g
      exact writes_storeOr fun n hn => hstores g n ⟨rfl, hn⟩

end Asks

theorem writes_any (a : Assignment L) (granted : Bool) :
    Writes (fun _ _ _ => True) a.value vm (vm.assign granted a).1 :=
  writes_assign (fun _ _ _ _ => trivial) a granted fun _ _ _ => trivial

end UVM

namespace UVM

inductive Reads (vm : UVM L) (recv : UValue L) (r : Reading L) : Prop where
  | nothing (vm_eq : r.vm = vm) (lookup : r.lookup = none)
  | missed {vm₁ : UVM L} {o : ObjId} {name : USym} (start : vm.dispatchProto recv = some o)
      (walked : Walked vm vm₁) (vm_eq : r.vm = vm₁.observe o) (lookup : r.lookup = some ⟨o, name, [o]⟩)
  | found {vm₁ : UVM L} {o owner : ObjId} {name : USym} (start : vm.dispatchProto recv = some o)
      (walked : Walked vm vm₁) (owned : owner < vm.objs.length)
      (objs : r.vm.objs = ((vm₁.observe o).observe owner).objs)
      (observing : r.vm.observing = ((vm₁.observe o).observe owner).observing)
      (lookup : r.lookup = some ⟨o, name, [o, owner]⟩)

variable {vm : UVM L}

theorem reads_slotGet (recv : UValue L) (name : USym) (what : String) (site : Option Nat) :
    Reads vm recv (vm.slotGet recv name what site) := by
  unfold slotGet
  split
  · exact .nothing rfl rfl
  · rename_i o hstart
    have hwalked := vm.walked_resolveImpl o name site.isSome
    rw [resolve_either]
    split
    · rename_i vm₁ hres
      rw [hres] at hwalked
      exact .missed hstart hwalked rfl rfl
    · rename_i vm₁ ref hres
      have hfind := vm.findLocal_of_resolveImpl (congrArg Prod.snd hres)
      obtain ⟨s, hs, -⟩ := UObject.local?_of_findLocal hfind
      rw [hres] at hwalked
      refine .found hstart hwalked (vm.lt_of_local? hs) ?_ ?_ rfl
      all_goals
        unfold fill
        repeat' split
        all_goals rfl

theorem reads_getslot (self : Bool) (name : Option USym) (recv : UValue L) (site : Option Nat) :
    Reads vm recv (vm.getslot self name recv site) := by
  unfold getslot
  split
  · exact .nothing rfl rfl
  · dsimp only
    split
    · rename_i o k hstart
      split
      · rename_i owner v hcache
        refine .found hstart .refl ?_ rfl rfl rfl
        -- the entry's index is in range of the owner's slots, so the owner has some
        unfold cachedRead at hcache
        split at hcache
        · obtain ⟨w, -, hw⟩ := Option.bind_eq_some_iff.mp hcache
          obtain ⟨s, hs, hplain⟩ := Option.bind_eq_some_iff.mp hw
          have howner : w = owner := by
            split at hplain <;> cases hplain
            rfl
          by_contra hge
          rw [howner, vm.obj_of_le (Nat.le_of_not_lt hge)] at hs
          cases hs
        · cases hcache
      · exact reads_slotGet _ _ _ _
    · exact reads_slotGet _ _ _ _

end UVM

/-! ## What an access does to an object -/

structure Keeping (L : CodeBase) where
  r : ObjId → UObject L → UObject L → Prop
  value : UValue L → Prop
  may : ObjId → UObject L → USlot L → Prop
  removable : UObject L → USym → Prop
  -- an object whose slots may be marked
  opened : UObject L → Prop
  light : ∀ {x o o'}, o'.slots = o.slots → o'.readonly = o.readonly →
    (o.watched = true → o'.watched = true) → r x o o'
  trans : ∀ {x o o' o''}, r x o o' → r x o' o'' → r x o o''
  -- what `SETSLOT` checks is enough
  asked : ∀ {x o n v}, value v → o.Asked n → may x o (.make n v {})
  opened_of_may : ∀ {x o s}, may x o s → opened o
  opened_congr : ∀ {o o'}, o'.readonly = o.readonly → opened o → opened o'
  store : ∀ {x o s granted o' i b}, may x o s → o.setLocal s granted = some (o', i, b) → r x o o'
  assign : ∀ {x o i s v}, value v → o.slots[i]? = some s →
    o.readonly = false ∧ s.attrs.constant = false →
    r x o { o with slots := o.slots.modify i fun s => s.assign v }
  subscribe : ∀ {x o} (i : Nat), opened o →
    r x o { o with slots := o.slots.modify i USlot.subscribe }
  remove : ∀ {x o n o'}, removable o n → o.removeLocal n = some o' → r x o o'

namespace Keeping

variable {vm vm' vm'' : UVM L} {name : USym}

structure Each (K : Keeping L) (vm vm' : UVM L) : Prop where
  obj : ∀ x, K.r x (vm.obj x) (vm'.obj x)
  length : vm.objs.length ≤ vm'.objs.length
  observing : vm'.observing = vm.observing

variable {K : Keeping L}

namespace Each

theorem trans (h : K.Each vm vm') (h' : K.Each vm' vm'') : K.Each vm vm'' where
  obj x := K.trans (h.obj x) (h'.obj x)
  length := Nat.le_trans h.length h'.length
  observing := h'.observing.trans h.observing

theorem of_objs (h : vm'.objs = vm.objs) (hobs : vm'.observing = vm.observing) : K.Each vm vm' where
  obj x := by
    have hx : vm'.obj x = vm.obj x := by rw [UVM.obj, UVM.obj, h]
    exact K.light (by rw [hx]) (by rw [hx]) (by rw [hx]; exact id)
  length := by rw [h]
  observing := hobs

theorem refl (vm : UVM L) : K.Each vm vm := of_objs rfl rfl

theorem of_walked (h : UVM.Walked vm vm') : K.Each vm vm' where
  obj x := K.light (by rw [h.obj x]) (by rw [h.obj x]) (by rw [h.obj x]; exact id)
  length := Nat.le_of_eq h.length.symm
  observing := by rw [h.rest]

theorem modify {f : UObject L → UObject L} (h : K.r x (vm.obj x) (f (vm.obj x))) :
    K.Each vm (vm.modify x f) where
  obj y := by
    rcases vm.obj_modify_cases x y f with heq | ⟨rfl, -, heq⟩ <;> rw [heq]
    · exact K.light rfl rfl id
    · exact h
  length := by rw [UVM.length_modify]
  observing := rfl

theorem retire (x : ObjId) : K.Each vm (vm.retire x) := by
  unfold UVM.retire
  split <;> exact of_objs rfl rfl

theorem observe (x : ObjId) : K.Each vm (vm.observe x) := by
  unfold UVM.observe
  split
  · exact modify (K.light rfl rfl fun _ => rfl)
  · exact refl vm

theorem noteDirty (x : ObjId) : K.Each vm (vm.noteDirty x) := by
  unfold UVM.noteDirty UVM.markDirty
  repeat' split
  all_goals exact of_objs rfl rfl

theorem noteWrite (hopen : K.opened (vm.obj x)) (name : USym) (existed : Bool) :
    K.Each vm (vm.noteWrite x name existed) := by
  have hdirty : K.Each vm (vm.noteDirty x) := noteDirty x
  unfold UVM.noteWrite
  split
  · refine hdirty.trans ?_
    have hsame : (vm.noteDirty x).obj x = vm.obj x := by
      unfold UVM.noteDirty UVM.markDirty
      repeat' split
      all_goals rfl
    unfold UVM.slotInstalled
    split
    · split
      · rename_i i _
        apply modify
        rw [hsame]
        exact K.subscribe i hopen
      · exact refl _
    · exact refl _
  · exact hdirty

theorem setLocal {s : USlot L} {cell granted : Bool} {i : Nat} (hmay : K.may x (vm.obj x) s)
    (h : vm.setLocal x s cell granted = some (vm', i)) : K.Each vm vm' ∧ K.opened (vm'.obj x) := by
  have hopen := K.opened_of_may hmay
  obtain ⟨o, structural, hset, rfl⟩ := UVM.of_setLocal h
  have hstore : K.Each vm (vm.modify x fun _ => o) := modify (K.store hmay hset)
  have hro : o.readonly = (vm.obj x).readonly := by rw [(UObject.wrote_of_setLocal hset).rest]
  have hopen' : K.opened ((vm.modify x fun _ => o).obj x) := by
    rcases vm.obj_modify_cases x x fun _ => o with heq | ⟨-, -, heq⟩ <;> rw [heq]
    · exact hopen
    · exact K.opened_congr hro hopen
  split
  · have hsame : (UVM.retire (vm.modify x fun _ => o) x).obj x = (vm.modify x fun _ => o).obj x := by
      rw [UVM.obj, UVM.obj, UVM.objs_retire]
    exact ⟨hstore.trans (retire x), hsame ▸ hopen'⟩
  · exact ⟨hstore, hopen'⟩

theorem storeNoted {site : Option Nat} {granted : Bool}
    (hmay : K.may x (vm.obj x) (.make name v {}))
    (h : vm.storeNoted x name v site granted = some vm') : K.Each vm vm' := by
  unfold UVM.storeNoted at h
  obtain ⟨⟨vm₁, i⟩, hset, hout⟩ := Option.map_eq_some_iff.mp h
  cases hout
  obtain ⟨hstore, hopen⟩ := setLocal hmay hset
  have hfill : K.Each vm₁ (site.elim vm₁ fun k => vm₁.fillOwn k x i) := by
    cases site <;> exact of_objs rfl rfl
  refine (hstore.trans hfill).trans (noteWrite ?_ name _)
  cases site <;> exact hopen

theorem of_writes (hv : K.value v)
    (h : UVM.Writes (fun vm x n => K.may x (vm.obj x) (.make n v {})) v vm vm') :
    K.Each vm vm' := by
  cases h with
  | nothing hw => exact of_walked hw
  | store hw hmay hs => exact (of_walked hw).trans (storeNoted hmay hs)
  | inPlace hw hs hmay hout =>
    rw [hout]
    exact (of_walked hw).trans ((modify (K.assign hv hs hmay)).trans (noteDirty _))

theorem of_reads {recv : UValue L} {rd : Reading L} (h : UVM.Reads vm recv rd) :
    K.Each vm rd.vm := by
  cases h with
  | nothing hvm =>
    rw [hvm]
    exact refl vm
  | missed _ hw hvm => exact hvm ▸ (of_walked hw).trans (observe _)
  | found _ hw _ hobjs hobs =>
    exact (((of_walked hw).trans (observe _)).trans (observe _)).trans (of_objs hobjs hobs)

theorem objRemoveSlot (hmay : K.removable (vm.obj x) name) : K.Each vm (vm.objRemoveSlot x name) := by
  unfold UVM.objRemoveSlot
  split
  · exact refl vm
  · rename_i o hremove
    exact ((modify (K.remove hmay hremove)).trans (retire x)).trans (noteDirty x)

theorem editProtos {edited : Option (UObject L)}
    (h : ∀ o, edited = some o → o = { vm.obj x with protos := o.protos }) :
    K.Each vm (vm.editProtos x edited) := by
  cases edited with
  | none => exact refl vm
  | some o =>
    rw [h o rfl]
    exact (modify (K.light rfl rfl id)).trans (retire x)

theorem slotChangeEvent {event : Nat} (granted : Bool) (hmay : ∀ hidden,
      UVM.hiddenSym name = some hidden → K.may x (vm.obj x) (.make hidden (.event event) {})) :
    K.Each vm (vm.slotChangeEvent x name event granted) := by
  unfold UVM.slotChangeEvent
  split
  · exact refl vm
  · rename_i hidden hsym
    split
    · exact refl vm
    · cases hset : vm.setLocal x (.make hidden (.event event) {}) false granted with
      | none => exact refl vm
      | some out =>
        obtain ⟨hstore, hopen⟩ := setLocal (hmay hidden hsym) hset
        refine hstore.trans (modify ?_)
        cases (out.1.obj x).findLocal name with
        | none => exact K.light rfl rfl id
        | some i => exact K.trans (K.subscribe i hopen) (K.light rfl rfl id)

theorem collected : K.Each vm vm.collected := by
  unfold UVM.collected
  dsimp only
  split <;> exact of_objs rfl rfl

theorem new (proto : Option ObjId) :
    K.Each vm { vm with objs := vm.objs ++ [{ protos := proto.toList }] } where
  obj x := by
    rcases vm.obj_append_cases { protos := proto.toList } x with heq | ⟨hle, heq⟩ <;> rw [heq]
    · exact K.light rfl rfl id
    · rw [vm.obj_of_le hle]
      exact K.light rfl rfl id
  length := by simp
  observing := rfl

end Each

variable (K)

def Permits (vm : UVM L) : Access L → Prop
  | .assign a _ => K.value a.value ∧
      ∀ x n, a.stores x n → K.may x (vm.obj x) (.make n a.value {})
  | .setLocal x s _ _ => K.may x (vm.obj x) s
  | .removeSlot x n => K.removable (vm.obj x) n
  | .subscribe x n event _ => ∀ hidden, UVM.hiddenSym n = some hidden →
      K.may x (vm.obj x) (.make hidden (.event event) {})
  | .observing _ => False
  | _ => True

variable {K}

theorem each_exec {a : Access L} (h : K.Permits vm a) : K.Each vm (vm.exec a).1 := by
  cases a with
  | getslot self name recv site => exact .of_reads (UVM.reads_getslot self name recv site)
  | loadRealmGlobal g => exact .observe g
  | probe recv name =>
    rw [UVM.exec_probe]
    cases vm.dispatchProto recv with
    | none => exact .refl vm
    | some o => exact .of_walked (vm.walked_resolveImpl o name false)
  | isA o proto => exact .of_walked (vm.walked_isA o proto)
  | assign a granted =>
    exact .of_writes h.1 (UVM.writes_assign (fun _ _ _ => K.asked h.1) a granted h.2)
  | setterReturned x name => exact .noteDirty x
  | setLocal x s cell granted =>
    show K.Each vm ((vm.setLocal x s cell granted).elim vm Prod.fst)
    cases hset : vm.setLocal x s cell granted with
    | none => exact .refl vm
    | some out => exact (Each.setLocal h hset).1
  | removeSlot x name => exact .objRemoveSlot h
  | addProto x p granted => exact .editProtos fun o ho => (UObject.of_addProto ho).1
  | removeProto x p => exact .editProtos fun o ho => (UObject.of_removeProto ho).1
  | setProtos x ps granted =>
    refine .editProtos fun o ho => ?_
    cases UObject.of_setProtos ho
    rfl
  | new proto => exact .new proto
  | subscribe x name event granted => exact .slotChangeEvent granted h
  | collect => exact .collected
  | observing on => exact h.elim
  | drain => exact .of_objs rfl rfl

end Keeping

/-! ## A mark is never taken back -/

def watching (L : CodeBase) : Keeping L where
  r _ o o' := o.watched = true → o'.watched = true
  value _ := True
  may _ _ _ := True
  removable _ _ := True
  opened _ := True
  light _ _ h := h
  trans h h' hx := h' (h hx)
  asked _ _ := trivial
  opened_of_may _ := trivial
  opened_congr _ _ := trivial
  store _ h hx := by rw [(UObject.wrote_of_setLocal h).rest]; exact hx
  assign _ _ _ hx := hx
  subscribe _ _ hx := hx
  remove {x o n o'} _ h hx := by
    unfold UObject.removeLocal at h
    split at h <;> cases h
    exact hx

namespace UVM

theorem marks_exec (vm : UVM L) (a : Access L) (ha : ∀ on, a ≠ .observing on) :
    (watching L).Each vm (vm.exec a).1 := by
  apply Keeping.each_exec
  cases a with
  | observing on => exact absurd rfl (ha on)
  | _ => simp [Keeping.Permits, watching]

variable {vm vm' : UVM L}

theorem exec_watched (a : Access L) (hx : (vm.obj x).watched = true) :
    ((vm.exec a).1.obj x).watched = true := by
  by_cases ha : ∀ on, a ≠ .observing on
  · exact (marks_exec vm a ha).obj x hx
  · obtain ⟨on, hon⟩ := not_forall_not.mp ha
    subst hon
    exact hx

theorem run_watched {as : List (Access L)} {ls : List Lookup} (h : vm.run as = some (vm', ls))
    (hx : (vm.obj x).watched = true) : (vm'.obj x).watched = true := by
  induction as generalizing vm ls with
  | nil =>
    cases h
    exact hx
  | cons a as ih =>
    rw [run] at h
    split at h
    · obtain ⟨⟨vm'', ls'⟩, hrun, hout⟩ := Option.map_eq_some_iff.mp h
      cases hout
      exact ih hrun (exec_watched a hx)
    · cases h

theorem exec_observing {a : Access L} (ha : a.inside = true) (hobs : vm.observing = true) :
    (vm.exec a).1.observing = true := by
  by_cases hon : ∀ on, a ≠ .observing on
  · exact (marks_exec vm a hon).observing.trans hobs
  · obtain ⟨on, hon⟩ := not_forall_not.mp hon
    subst hon
    exact ha

theorem watched_observe (hobs : vm.observing = true) (hx : x < vm.objs.length) :
    ((vm.observe x).obj x).watched = true := by
  unfold observe
  rw [if_pos hobs, obj_modify_self _ hx]

theorem exec_observed {a : Access L} (hobs : vm.observing = true) (hadm : vm.admits a = true)
    {l : Lookup} (hl : (vm.exec a).2 = some l) (hx : x ∈ l.observed) :
    ((vm.exec a).1.obj x).watched = true := by
  cases a with
  | getslot self name recv site =>
    have hstart : ∀ o, vm.dispatchProto recv = some o → o < vm.objs.length := fun o ho => by
      have hall : (vm.dispatchProto recv).all (fun o => decide (o < vm.objs.length)) = true := hadm
      rw [ho] at hall
      simpa using hall
    have hreads : Reads vm recv (vm.getslot self name recv site) := reads_getslot ..
    show ((vm.getslot self name recv site).vm.obj x).watched = true
    cases hreads with
    | nothing _ hnone => cases hnone.symm.trans hl
    | @missed vm₁ o _ ho hw hvm hsome =>
      cases hsome.symm.trans hl
      cases List.mem_singleton.mp hx
      rw [hvm]
      exact watched_observe (by rw [hw.rest]; exact hobs) (by rw [hw.length]; exact hstart x ho)
    | @found vm₁ o owner _ ho hw howned hobjs _ hsome =>
      cases hsome.symm.trans hl
      rw [obj, hobjs]
      have hobs₁ : vm₁.observing = true := by rw [hw.rest]; exact hobs
      have hrecv := watched_observe hobs₁ (by rw [hw.length]; exact hstart o ho)
      cases List.mem_cons.mp hx with
      | inl h =>
        subst h
        exact (Keeping.Each.observe (K := watching L) owner).obj x hrecv
      | inr h =>
        cases List.mem_singleton.mp h
        have hkeep : (watching L).Each vm₁ (vm₁.observe o) := .observe o
        refine watched_observe (hkeep.observing.trans hobs₁) (Nat.lt_of_lt_of_le ?_ hkeep.length)
        rw [hw.length]
        exact howned
  | probe recv name =>
    simp only [exec] at hl
    split at hl <;> cases hl
    cases hx
  | _ => cases hl

theorem run_observed {as : List (Access L)} {ls : List Lookup} (hobs : vm.observing = true)
    (hinside : ∀ a ∈ as, a.inside = true) (h : vm.run as = some (vm', ls)) :
    ∀ l ∈ ls, ∀ x ∈ l.observed, (vm'.obj x).watched = true := by
  induction as generalizing vm ls with
  | nil =>
    cases h
    exact List.forall_mem_nil _
  | cons a as ih =>
    rw [run] at h
    split at h
    · rename_i hadm
      obtain ⟨⟨vm'', ls'⟩, hrun, hout⟩ := Option.map_eq_some_iff.mp h
      cases hout
      intro l hl x hx
      rcases List.mem_append.mp hl with hhere | hrest
      · exact run_watched hrun (exec_observed hobs hadm (Option.mem_toList.mp hhere) hx)
      · exact ih (exec_observing (hinside a List.mem_cons_self) hobs)
          (fun b hb => hinside b (List.mem_cons_of_mem _ hb)) hrun l hrest x hx
    · cases h

end UVM

end Urbi
