import Urbi.Lib.Capacity
import Urbi.Obj.Names

/-!
# What an access changes for a walk

A walk reads the prototypes and the slot names of the objects it searches.  An access either leaves
both alone (`Light`), or is one structural change (`Change`).
-/

namespace Urbi

variable {L : CodeBase}

namespace UObject

/-- Blocks grow from four slots by doubling and stop at 32768, the last size a `uint16_t` can
double to; so an index fits the sixteen bits an entry has for it. -/
def Roomy (o : UObject L) : Prop := o.slots.length ≤ o.cap ∧ Lib.Doubling 15 o.cap

variable {o o' : UObject L}

theorem Roomy.length_lt (h : o.Roomy) : o.slots.length < 65536 :=
  Nat.lt_of_le_of_lt (h.1.trans h.2.le) (by decide)

theorem Roomy.index_lt (h : o.Roomy) {name : USym} {i : Nat} (hi : o.findLocal name = some i) :
    i < 65536 :=
  Nat.lt_trans (List.findIdx?_eq_some_iff_findIdx_eq.mp hi).1 h.length_lt

theorem Roomy.congr (h : o.Roomy) (hcap : o'.cap = o.cap) (hnames : o'.names = o.names) :
    o'.Roomy := by
  have hlen : o'.slots.length = o.slots.length := by
    have heq := congrArg List.length hnames
    unfold names at heq
    rwa [List.length_map, List.length_map] at heq
  unfold Roomy
  rw [hlen, hcap]
  exact h

theorem Roomy.grow {granted : Bool} (h : o.Roomy) (hg : o.grow granted = some o') :
    o'.Roomy ∧ o.slots.length < o'.cap ∧ o'.slots = o.slots := by
  unfold UObject.grow at hg
  split at hg
  · rename_i hcond
    rw [Bool.and_eq_true, bne_iff_ne] at hcond
    cases hg
    have hnext : o.nextCap = Lib.grown 15 4 o.cap := rfl
    rw [hnext] at hcond
    -- the last doubling would need a bit the counter does not have
    obtain ⟨-, hlt, hcap⟩ := (h.2.grown_cases 4 ⟨2, by decide, rfl⟩).resolve_left fun hfull =>
      hcond.2 hfull.2
    have hless := Nat.lt_of_le_of_lt h.1 hlt
    exact ⟨⟨Nat.le_of_lt hless, hcap⟩, hless, rfl⟩
  · cases hg

theorem Roomy.setLocal {s : USlot L} {granted : Bool} {i : Nat} {b : Bool} (h : o.Roomy)
    (hset : o.setLocal s granted = some (o', i, b)) : o'.Roomy := by
  unfold UObject.setLocal at hset
  split at hset
  · cases hset
    show (o.slots.modify _ _).length ≤ o.cap ∧ _
    rw [List.length_modify]
    exact h
  · obtain ⟨g, hg, hout⟩ := Option.map_eq_some_iff.mp hset
    cases hout
    have hroom : g.Roomy ∧ g.slots.length < g.cap := by
      split at hg
      · obtain ⟨hgr, hlt, hslots⟩ := h.grow hg
        exact ⟨hgr, by rw [hslots]; exact hlt⟩
      · cases hg
        exact ⟨h, by have := h.1; omega⟩
    show (g.slots ++ [s]).length ≤ g.cap ∧ _
    rw [List.length_append]
    exact ⟨hroom.2, hroom.1.2⟩

theorem Roomy.removeLocal {name : USym} (h : o.Roomy) (hremove : o.removeLocal name = some o') :
    o'.Roomy := by
  unfold UObject.removeLocal at hremove
  split at hremove <;> cases hremove
  refine ⟨?_, h.2⟩
  show (List.dropLast _).length ≤ o.cap
  rw [List.length_dropLast, List.length_set]
  have := h.1
  omega

end UObject

namespace UVM

variable {vm vm' vm'' : UVM L} {x : ObjId} {name : USym}

/-! ## What an access can change -/

def OwnEntry (e : USlotCache) : Prop := e.recv = e.owner

structure Light (vm vm' : UVM L) : Prop where
  length : vm'.objs.length = vm.objs.length
  protos : ∀ y, (vm'.obj y).protos = (vm.obj y).protos
  names : ∀ y, (vm'.obj y).names = (vm.obj y).names
  cap : ∀ y, (vm'.obj y).cap = (vm.obj y).cap
  flags : ∀ y, (vm.obj y).cached = true → (vm'.obj y).cached = true
  epoch : vm'.stats.slotEpoch = vm.stats.slotEpoch
  sites : ∀ k, vm'.sites k = vm.sites k ∨ OwnEntry (vm'.sites k)

/-- What an access can change: flagged objects stay as a walk sees them, or the epoch moves.  The
prototypes it can install are those in `ps`. -/
structure Change (ps : List ObjId) (vm vm' : UVM L) : Prop where
  length : vm.objs.length ≤ vm'.objs.length
  protos : ∀ y, ∀ p ∈ (vm'.obj y).protos, p ∈ (vm.obj y).protos ∨ p ∈ ps
  roomy : ∀ y, (vm.obj y).Roomy → (vm'.obj y).Roomy
  flags : ∀ y, (vm.obj y).cached = true → (vm'.obj y).cached = true
  walks : (vm'.stats.slotEpoch = vm.stats.slotEpoch ∧
      ∀ y, (vm.obj y).cached = true → (vm'.obj y).protos = (vm.obj y).protos ∧
        (vm'.obj y).names = (vm.obj y).names) ∨
    vm'.stats.slotEpoch = vm.epochBump.stats.slotEpoch
  sites : ∀ k, vm'.sites k = vm.sites k ∨ OwnEntry (vm'.sites k)

namespace Light

theorem refl : Light vm vm :=
  ⟨rfl, fun _ => rfl, fun _ => rfl, fun _ => rfl, fun _ h => h, rfl, fun _ => .inl rfl⟩

theorem trans (h : Light vm vm') (h' : Light vm' vm'') : Light vm vm'' where
  length := h'.length.trans h.length
  protos y := (h'.protos y).trans (h.protos y)
  names y := (h'.names y).trans (h.names y)
  cap y := (h'.cap y).trans (h.cap y)
  flags y hy := h'.flags y (h.flags y hy)
  epoch := h'.epoch.trans h.epoch
  sites k := by
    rcases h'.sites k with hk | hk
    · rw [hk]
      exact h.sites k
    · exact .inr hk

theorem of_objs (hobjs : vm'.objs = vm.objs) (hepoch : vm'.stats.slotEpoch = vm.stats.slotEpoch)
    (hsites : ∀ k, vm'.sites k = vm.sites k ∨ OwnEntry (vm'.sites k)) : Light vm vm' := by
  have hobj : ∀ y, vm'.obj y = vm.obj y := fun y => by rw [obj, obj, hobjs]
  exact ⟨by rw [hobjs], fun y => by rw [hobj], fun y => by rw [hobj], fun y => by rw [hobj],
    fun y hy => by rw [hobj]; exact hy, hepoch, hsites⟩

theorem of_walked (h : Walked vm vm') : Light vm vm' where
  length := h.length
  protos := h.protos
  names y := by rw [h.obj y]; rfl
  cap y := by rw [h.obj y]
  flags := h.flags
  epoch := h.epoch
  sites k := .inl (by rw [h.rest])

theorem modify {f : UObject L → UObject L} (hprotos : (f (vm.obj x)).protos = (vm.obj x).protos)
    (hnames : (f (vm.obj x)).names = (vm.obj x).names) (hcap : (f (vm.obj x)).cap = (vm.obj x).cap)
    (hflags : (vm.obj x).cached = true → (f (vm.obj x)).cached = true) :
    Light vm (vm.modify x f) := by
  refine ⟨length_modify _ _ _, fun y => ?_, fun y => ?_, fun y => ?_, fun y hy => ?_, rfl,
    fun _ => .inl rfl⟩ <;> rcases obj_modify_cases vm x y f with h | ⟨rfl, -, h⟩ <;> rw [h]
  · exact hprotos
  · exact hnames
  · exact hcap
  · exact hy
  · exact hflags hy

theorem observe (x : ObjId) : Light vm (vm.observe x) := by
  unfold UVM.observe
  split
  · exact modify rfl rfl rfl fun h => h
  · exact refl

theorem noteDirty (x : ObjId) : Light vm (vm.noteDirty x) := by
  unfold UVM.noteDirty markDirty
  repeat' split
  all_goals exact of_objs rfl rfl fun _ => .inl rfl

theorem modifySlot (i : Nat) {f : USlot L → USlot L} (hf : ∀ s, (f s).name = s.name) :
    Light vm (vm.modify x fun o => { o with slots := o.slots.modify i f }) :=
  modify rfl (UObject.names_modify fun s _ => hf s) rfl fun h => h

theorem noteWrite (x : ObjId) (name : USym) (existed : Bool) :
    Light vm (vm.noteWrite x name existed) := by
  unfold UVM.noteWrite
  split
  · refine (noteDirty x).trans ?_
    unfold slotInstalled
    split
    · split
      · exact modifySlot _ fun _ => rfl
      · exact refl
    · exact refl
  · exact noteDirty x

theorem assignNoted (x : ObjId) (name : USym) (i : Nat) (v : UValue L) :
    Light vm (vm.assignNoted x name i v) := by
  have hslot : Light vm
      (vm.modify x fun o => { o with slots := o.slots.modify i fun s => s.assign v }) :=
    modifySlot i fun s => USlot.assign_name s v
  exact hslot.trans (noteWrite x name true)

theorem fillOwn (k : Nat) (x : ObjId) (i : Nat) : Light vm (vm.fillOwn k x i) := by
  refine of_objs rfl rfl fun j => ?_
  show Function.update vm.sites k _ j = _ ∨ OwnEntry (Function.update vm.sites k _ j)
  by_cases hj : j = k
  · right
    rw [hj, Function.update_self]
    rfl
  · exact .inl (Function.update_of_ne hj _ _)

theorem change (h : Light vm vm') : Change [] vm vm' where
  length := Nat.le_of_eq h.length.symm
  protos y p hp := .inl (by rw [← h.protos y]; exact hp)
  roomy y hy := hy.congr (h.cap y) (h.names y)
  flags := h.flags
  walks := .inl ⟨h.epoch, fun y _ => ⟨h.protos y, h.names y⟩⟩
  sites := h.sites

end Light

namespace Change

variable {ps qs : List ObjId}

theorem mono (h : Change ps vm vm') (hsub : ps ⊆ qs) : Change qs vm vm' :=
  { h with protos := fun y p hp => (h.protos y p hp).imp_right fun hp => hsub hp }

theorem light (h : Change ps vm vm') (h' : Light vm' vm'') : Change ps vm vm'' where
  length := by rw [h'.length]; exact h.length
  protos y p hp := h.protos y p (by rw [← h'.protos y]; exact hp)
  roomy y hy := (h.roomy y hy).congr (h'.cap y) (h'.names y)
  flags y hy := h'.flags y (h.flags y hy)
  walks := by
    rw [h'.epoch]
    refine h.walks.imp_left fun hw => ⟨hw.1, fun y hy => ?_⟩
    rw [h'.protos y, h'.names y]
    exact hw.2 y hy
  sites k := by
    rcases h'.sites k with hk | hk
    · rw [hk]
      exact h.sites k
    · exact .inr hk

theorem of_light (h : Light vm vm') (h' : Change ps vm' vm'') : Change ps vm vm'' where
  length := by rw [← h.length]; exact h'.length
  protos y p hp := by
    rw [← h.protos y]
    exact h'.protos y p hp
  roomy y hy := h'.roomy y (hy.congr (h.cap y) (h.names y))
  flags y hy := h'.flags y (h.flags y hy)
  walks := by
    rcases h'.walks with ⟨hepoch, hw⟩ | hbump
    · refine .inl ⟨hepoch.trans h.epoch, fun y hy => ?_⟩
      rw [← h.protos y, ← h.names y]
      exact hw y (h.flags y hy)
    · right
      rw [hbump]
      unfold epochBump
      dsimp only
      rw [h.epoch]
  sites k := by
    rcases h'.sites k with hk | hk
    · rw [hk]
      exact h.sites k
    · exact .inr hk

theorem retire {o : UObject L} (hcached : o.cached = (vm.obj x).cached)
    (hroomy : (vm.obj x).Roomy → o.Roomy)
    (hprotos : ∀ p ∈ o.protos, p ∈ (vm.obj x).protos ∨ p ∈ ps) :
    Change ps vm ((vm.modify x fun _ => o).retire x) := by
  have hobj := fun y => obj_modify_cases vm x y fun _ => o
  have hsame : ∀ y, ((vm.modify x fun _ => o).retire x).obj y = (vm.modify x fun _ => o).obj y :=
    fun y => by rw [obj, obj, objs_retire]
  refine ⟨?_, fun y p hp => ?_, fun y hy => ?_, fun y hy => ?_, ?_, fun k => .inl ?_⟩
  · rw [objs_retire, length_modify]
  · rw [hsame] at hp
    rcases hobj y with heq | ⟨rfl, -, heq⟩ <;> rw [heq] at hp
    · exact .inl hp
    · exact hprotos p hp
  · rw [hsame]
    rcases hobj y with heq | ⟨rfl, -, heq⟩ <;> rw [heq]
    · exact hy
    · exact hroomy hy
  · rw [hsame]
    rcases hobj y with heq | ⟨rfl, -, heq⟩ <;> rw [heq]
    · exact hy
    · exact hcached.trans hy
  · unfold UVM.retire
    by_cases hc : ((vm.modify x fun _ => o).obj x).cached = true
    · rw [if_pos hc]
      exact .inr rfl
    · rw [if_neg hc]
      refine .inl ⟨rfl, fun y hy => ?_⟩
      rcases hobj y with heq | ⟨rfl, -, heq⟩
      · rw [heq]
        exact ⟨rfl, rfl⟩
      · rw [heq, hcached] at hc
        exact absurd hy hc
  · unfold UVM.retire
    split <;> rfl

theorem setLocal {s : USlot L} {cell granted : Bool} {i : Nat}
    (h : vm.setLocal x s cell granted = some (vm', i)) : Change [] vm vm' := by
  obtain ⟨o, structural, hset, rfl⟩ := of_setLocal h
  have hwrote := UObject.wrote_of_setLocal hset
  have hcached : o.cached = (vm.obj x).cached := by rw [hwrote.rest]
  have hprotos : o.protos = (vm.obj x).protos := by rw [hwrote.rest]
  cases structural with
  | true =>
    exact retire hcached (fun h => h.setLocal hset) fun p hp => .inl (hprotos ▸ hp)
  | false =>
    -- a value written over another of the same kind
    obtain ⟨j, hfind, hover⟩ := (UObject.setLocal_cases hset).resolve_right nofun
    have hnames : o.names = (vm.obj x).names := by
      rcases UObject.names_setLocal hset with heq | ⟨hnone, -⟩
      · exact heq
      · cases hfind.symm.trans hnone
    have hcap : o.cap = (vm.obj x).cap := by rw [hover]
    exact (Light.modify hprotos hnames hcap fun hc => hcached.trans hc).change

theorem storeNoted {v : UValue L} {site : Option Nat} {granted : Bool}
    (h : vm.storeNoted x name v site granted = some vm') : Change [] vm vm' := by
  unfold UVM.storeNoted at h
  obtain ⟨⟨vm₁, i⟩, hset, hout⟩ := Option.map_eq_some_iff.mp h
  cases hout
  have hfill : Light vm₁ (site.elim vm₁ fun k => vm₁.fillOwn k x i) := by
    cases site with
    | none => exact .refl
    | some k => exact .fillOwn k x i
  exact (setLocal hset).light (hfill.trans (.noteWrite x name _))

theorem of_assign (a : Assignment L) (granted : Bool) : Change [] vm (vm.assign granted a).1 := by
  have hwrites : Writes (fun _ _ _ => True) a.value vm (vm.assign granted a).1 :=
    writes_any a granted
  cases hwrites with
  | nothing hw => exact (Light.of_walked hw).change
  | store hw _ hs => exact of_light (.of_walked hw) (storeNoted hs)
  | inPlace hw _ _ hout =>
    rw [hout]
    exact ((Light.of_walked hw).trans (.assignNoted _ _ _ _)).change

theorem objRemoveSlot (x : ObjId) (name : USym) : Change [] vm (vm.objRemoveSlot x name) := by
  unfold UVM.objRemoveSlot
  split
  · exact Light.refl.change
  · rename_i o hremove
    have hrest : o.cached = (vm.obj x).cached ∧ o.protos = (vm.obj x).protos := by
      unfold UObject.removeLocal at hremove
      split at hremove <;> cases hremove
      exact ⟨rfl, rfl⟩
    exact (retire hrest.1 (fun h => h.removeLocal hremove) fun p hp => .inl (hrest.2 ▸ hp)).light
      (.noteDirty x)

theorem editProtos {edited : Option (UObject L)}
    (h : ∀ o, edited = some o → o = { vm.obj x with protos := o.protos } ∧
      ∀ p ∈ o.protos, p ∈ (vm.obj x).protos ∨ p ∈ ps) : Change ps vm (vm.editProtos x edited) := by
  cases edited with
  | none => exact Light.refl.change.mono (List.nil_subset _)
  | some o =>
    obtain ⟨heq, hps⟩ := h o rfl
    exact retire (by rw [heq]) (fun hr => by rw [heq]; exact hr) hps

theorem slotChangeEvent (event : Nat) (granted : Bool) :
    Change [] vm (vm.slotChangeEvent x name event granted) := by
  unfold UVM.slotChangeEvent
  split
  · exact Light.refl.change
  · rename_i hidden hsym
    split
    · exact Light.refl.change
    · cases hset : vm.setLocal x (.make hidden (.event event) {}) false granted with
      | none => exact Light.refl.change
      | some out =>
        refine (setLocal hset).light (.modify rfl ?_ rfl fun h => h)
        cases (out.1.obj x).findLocal name with
        | none => rfl
        | some i => exact UObject.names_modify fun _ _ => rfl

theorem new (o : UObject L) (hroomy : o.Roomy) :
    Change o.protos vm { vm with objs := vm.objs ++ [o] } := by
  have hobj := vm.obj_append_cases o
  have hnone : ∀ y, vm.objs.length ≤ y → (vm.obj y).cached = false := fun y hy => by
    rw [vm.obj_of_le hy]
  refine ⟨by simp, fun y p hp => ?_, fun y hy => ?_, fun y hy => ?_, .inl ⟨rfl, fun y hy => ?_⟩,
    fun _ => .inl rfl⟩
  · rcases hobj y with heq | ⟨-, heq⟩ <;> rw [heq] at hp
    · exact .inl hp
    · exact .inr hp
  · rcases hobj y with heq | ⟨-, heq⟩ <;> rw [heq]
    · exact hy
    · exact hroomy
  · rcases hobj y with heq | ⟨hle, -⟩
    · rw [heq]
      exact hy
    · rw [hnone y hle] at hy
      cases hy
  · rcases hobj y with heq | ⟨hle, -⟩
    · rw [heq]
      exact ⟨rfl, rfl⟩
    · rw [hnone y hle] at hy
      cases hy

end Change

end UVM

end Urbi
