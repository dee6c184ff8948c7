import Urbi.Obj.Change
import Urbi.Obj.Sealed

/-!
# Slot-cache coherence

An inherited entry is checked against the epoch: the walk that filled it flagged every object it
searched, and a structural change to a flagged object moves the epoch.  Two 32-bit counters bound
this, the epoch and the visit stamp.
-/

namespace Urbi

variable {L : CodeBase}
variable {i k n : Nat} {e : USlotCache} {o w : ObjId}

/-- The steps of boot, scripts and the host, and collections.  A freed object has nothing in it; an
allocation that reuses its place is the edits that follow. -/
inductive CacheStep (L : CodeBase) where
  | slot (a : SlotStep L)
  | sweep (freed : List ObjId)

namespace CacheStep

def collects : CacheStep L → Bool
  | .slot (.access .collect) | .sweep _ => true
  | _ => false

def installs : CacheStep L → List ObjId
  | .slot (.access (.addProto _ p _)) => [p]
  | .slot (.access (.setProtos _ ps _)) => ps
  | .slot (.access (.new proto)) => proto.toList
  | _ => []

end CacheStep

namespace UVM

variable (vm : UVM L)

def cacheStep : CacheStep L → UVM L
  | .slot a => vm.slotStep a
  | .sweep freed => (freed.foldl (fun vm x => vm.modify x fun _ => {}) vm).collected

def lawful (names : Nat → USym) (a : CacheStep L) : Bool :=
  (a.installs.all fun p => p < vm.objs.length) &&
    match a with
    | .slot (.access (.getslot self name recv site)) =>
      vm.admits (.getslot self name recv site) && site.all fun k => name == some (names k)
    | _ => true

def fresh : Bool := vm.objs.all fun o => o.visit != vm.nextStamp

/-- A read that may fill an entry walks with a mark of its own, and a collection does not find the
epoch at its last value. -/
def steady (a : CacheStep L) : Bool :=
  match a with
  | .slot (.access (.getslot _ _ _ (some _))) => vm.fresh
  | a => !a.collects || vm.stats.slotEpoch != 0xFFFFFFFF

def bumps (n : Nat) (a : CacheStep L) : Nat :=
  if a.collects then 0
  else if (vm.cacheStep a).stats.slotEpoch = vm.stats.slotEpoch then n else n + 1

/-- A run from the start, with the epoch bumps since its last collection: fewer than 2³¹ at any
time. -/
inductive CacheRun (names : Nat → USym) (atoms : UValue L → Option ObjId)
    (P : UVM L → CacheStep L → Bool) : Nat → UVM L → Prop
  | start : CacheRun names atoms P 0 (blank atoms)
  | step {n : Nat} {vm : UVM L} (run : CacheRun names atoms P n vm) (a : CacheStep L)
      (lawful : vm.lawful names a = true) (allowed : P vm a = true)
      (few : vm.bumps n a < 2 ^ 31) : CacheRun names atoms P (vm.bumps n a) (vm.cacheStep a)

def runCache (names : Nat → USym) (P : UVM L → CacheStep L → Bool) :
    Nat × UVM L → List (CacheStep L) → Option (Nat × UVM L)
  | s, [] => some s
  | (n, vm), a :: rest =>
    if vm.lawful names a && P vm a && decide (vm.bumps n a < 2 ^ 31) then
      runCache names P (vm.bumps n a, vm.cacheStep a) rest
    else none

theorem CacheRun.append {names : Nat → USym} {atoms : UValue L → Option ObjId}
    {P : UVM L → CacheStep L → Bool} {vm : UVM L} (h : CacheRun names atoms P n vm)
    {steps : List (CacheStep L)} {n' : Nat} {vm' : UVM L}
    (hsteps : runCache names P (n, vm) steps = some (n', vm')) : CacheRun names atoms P n' vm' := by
  induction steps generalizing n vm with
  | nil =>
    cases hsteps
    exact h
  | cons a steps ih =>
    unfold runCache at hsteps
    split at hsteps
    · rename_i hcond
      simp only [Bool.and_eq_true, decide_eq_true_eq] at hcond
      exact ih (h.step a hcond.1.1 hcond.1.2 hcond.2) hsteps
    · cases hsteps

variable {vm} {vm' : UVM L} {names : Nat → USym} {x : ObjId} {name : USym}

structure Inherits (vm : UVM L) (k : Nat) (o : ObjId) (name : USym) (ref : UObjSlotRef)
    (vm' : UVM L) : Prop where
  found : (vm.resolveImpl o name true).2 = some ref
  inherited : ref.owner ≠ o
  light : Light (vm.resolveImpl o name true).1 { vm' with sites := vm.sites }
  sites : vm'.sites = Function.update vm.sites k
    { recv := some o, owner := some ref.owner, epoch := vm.stats.slotEpoch,
      index := ref.index % 65536 }

theorem light_or_inherits_slotGet (vm : UVM L) (recv : UValue L) (name : USym) (what : String)
    (site : Option Nat) : Light vm (vm.slotGet recv name what site).vm ∨ ∃ k o ref, site = some k ∧
      vm.dispatchProto recv = some o ∧
        Inherits vm k o name ref (vm.slotGet recv name what site).vm := by
  unfold slotGet
  split
  · exact .inl .refl
  · rename_i o hstart
    have hwalked := vm.walked_resolveImpl o name site.isSome
    rw [resolve_either]
    split
    · rename_i vm₁ hres
      rw [hres] at hwalked
      exact .inl ((Light.of_walked hwalked).trans (.observe o))
    · rename_i vm₁ ref hres
      rw [hres] at hwalked
      have hseen : Light vm₁ ((vm₁.observe o).observe ref.owner) :=
        (Light.observe o).trans (.observe ref.owner)
      cases site with
      | none => exact .inl ((Light.of_walked hwalked).trans hseen)
      | some k =>
        dsimp only [fill]
        by_cases hown : ref.owner = o
        · rw [if_pos hown]
          exact .inl (((Light.of_walked hwalked).trans hseen).trans (.fillOwn k o ref.index))
        · rw [if_neg hown]
          have hres : vm.resolveImpl o name true = (vm₁, some ref) := hres
          have hsites : ((vm₁.observe o).observe ref.owner).sites = vm.sites := by
            have hobserve : ∀ (vm : UVM L) y, (vm.observe y).sites = vm.sites := fun vm y => by
              unfold observe
              split <;> rfl
            rw [hobserve, hobserve]
            have hrest := congrArg UVM.sites hwalked.rest
            exact hrest
          refine .inr ⟨k, o, ref, rfl, hstart, by rw [hres], hown, ?_, ?_⟩
          · rw [hres]
            refine hseen.trans (.of_objs rfl rfl fun j => .inl ?_)
            exact congrFun hsites.symm j
          · unfold fillInherited fillSite
            dsimp only
            rw [hsites, hseen.epoch, hwalked.epoch]

theorem light_or_inherits_getslot (vm : UVM L) (self : Bool) (n : Option USym) (recv : UValue L)
    (site : Option Nat) : Light vm (vm.getslot self n recv site).vm ∨
      ∃ k o name ref, site = some k ∧ n = some name ∧ vm.dispatchProto recv = some o ∧
        Inherits vm k o name ref (vm.getslot self n recv site).vm := by
  unfold getslot
  split
  · exact .inl .refl
  · rename_i name
    dsimp only
    split
    · rename_i o k _
      split
      · rename_i owner v _
        exact .inl ((Light.observe o).trans (.observe owner))
      · rcases vm.light_or_inherits_slotGet recv name (if self then "method call" else "slot access")
          (some k) with h | ⟨k, o, ref, hk, ho, hfill⟩
        · exact .inl h
        · exact .inr ⟨k, o, name, ref, hk, rfl, ho, hfill⟩
    · rcases vm.light_or_inherits_slotGet recv name (if self then "method call" else "slot access")
        none with h | ⟨k, o, ref, hk, -, -⟩
      · exact .inl h
      · cases hk

theorem change_cacheStep (vm : UVM L) {a : CacheStep L} (hcollect : a.collects = false) :
    Change a.installs vm (vm.cacheStep a) ∨ ∃ self n recv k o name ref,
      a = .slot (.access (.getslot self n recv (some k))) ∧ n = some name ∧
        vm.dispatchProto recv = some o ∧ Inherits vm k o name ref (vm.cacheStep a) := by
  cases a with
  | sweep => cases hcollect
  | slot a =>
    cases a with
    | makeReadonly x => exact .inl (Light.modify rfl rfl rfl fun h => h).change
    | setProperty self n prop v cell granted =>
      left
      show Change [] vm (vm.objSetProperty self n prop v cell granted).1
      unfold objSetProperty
      split
      · exact Light.refl.change
      · split
        · exact Light.refl.change
        · split
          · exact Light.refl.change
          · split
            · exact Light.refl.change
            · rename_i hset
              exact Change.setLocal hset
      · exact Light.refl.change
    | access a =>
      cases a with
      | getslot self n recv site =>
        rcases vm.light_or_inherits_getslot self n recv site with
          h | ⟨k, o, name, ref, rfl, hn, ho, h⟩
        · exact .inl h.change
        · exact .inr ⟨self, n, recv, k, o, name, ref, rfl, hn, ho, h⟩
      | loadRealmGlobal g => exact .inl (Light.observe g).change
      | probe recv n =>
        left
        show Change [] vm (vm.exec (.probe recv n)).1
        rw [UVM.exec_probe]
        cases vm.dispatchProto recv with
        | none => exact Light.refl.change
        | some o => exact (Light.of_walked (vm.walked_resolveImpl o n false)).change
      | isA o proto => exact .inl (Light.of_walked (vm.walked_isA o proto)).change
      | assign a granted => exact .inl (.of_assign a granted)
      | setterReturned x n => exact .inl (Light.noteWrite x n true).change
      | setLocal x s cell granted =>
        left
        show Change [] vm ((vm.setLocal x s cell granted).elim vm Prod.fst)
        cases hset : vm.setLocal x s cell granted with
        | none => exact Light.refl.change
        | some out => exact Change.setLocal hset
      | removeSlot x n => exact .inl (.objRemoveSlot x n)
      | addProto x p granted =>
        exact .inl (.editProtos fun o ho => UObject.of_addProto ho)
      | removeProto x p =>
        refine .inl (.editProtos fun o ho => ?_)
        obtain ⟨heq, hsub⟩ := UObject.of_removeProto ho
        exact ⟨heq, fun q hq => .inl (hsub q hq)⟩
      | setProtos x ps granted =>
        refine .inl (.editProtos fun o ho => ?_)
        cases UObject.of_setProtos ho
        exact ⟨rfl, fun q hq => .inr hq⟩
      | new proto =>
        exact .inl (Change.new { protos := proto.toList } ⟨Nat.le_refl _, .inl rfl⟩)
      | subscribe x n event granted => exact .inl (.slotChangeEvent event granted)
      | collect => cases hcollect
      | observing on | drain => exact .inl (Light.change (.of_objs rfl rfl fun _ => .inl rfl))

/-! ## The invariant -/

/-- The walk that filled an inherited entry would go the same way again, and whatever could turn it
aside is flagged. -/
structure Covered (vm : UVM L) (recv : ObjId) (name : USym) (owner : ObjId) (index : Nat) :
    Prop where
  found : (vm.walk recv name).found = some owner
  index : (vm.obj owner).findLocal name = some index
  flagged : ∀ y ∈ vm.searched recv name, (vm.obj y).cached = true

def EntryOk (vm : UVM L) (name : USym) (e : USlotCache) : Prop :=
  ∀ r, e.recv = some r → ∃ w, e.owner = some w ∧
    (w = r ∨ (e.epoch.toNat ≤ vm.stats.slotEpoch.toNat ∧
      (e.epoch = vm.stats.slotEpoch → Covered vm r name w e.index)))

structure Coherent (names : Nat → USym) (n : Nat) (vm : UVM L) : Prop where
  distinct : vm.Distinct
  closed : ∀ y, ∀ p ∈ (vm.obj y).protos, p < vm.objs.length
  roomy : ∀ y, (vm.obj y).Roomy
  epoch : vm.stats.slotEpoch.toNat ≤ 2 ^ 31 + n
  entries : ∀ k, EntryOk vm (names k) (vm.sites k)

theorem entryOk_own (h : OwnEntry e) : EntryOk vm name e :=
  fun r hr => ⟨r, h ▸ hr, .inl rfl⟩

theorem Covered.of_same {r : ObjId} (h : Covered vm r name w i)
    (hflags : ∀ y, (vm.obj y).cached = true → (vm'.obj y).cached = true)
    (hsame : ∀ y, (vm.obj y).cached = true →
      (vm'.obj y).protos = (vm.obj y).protos ∧ (vm'.obj y).names = (vm.obj y).names) :
    Covered vm' r name w i := by
  have hfind : ∀ y ∈ vm.searched r name, (vm'.obj y).findLocal name = (vm.obj y).findLocal name :=
    fun y hy => by
      rw [UObject.findLocal_eq, UObject.findLocal_eq, (hsame y (h.flagged y hy)).2]
  have hwalk : vm'.walk r name = vm.walk r name := by
    apply walk_congr
    intro y hy
    refine ⟨(hsame y (h.flagged y hy)).1, ?_⟩
    rw [UObject.isSome_local?, UObject.isSome_local?, hfind y hy]
  refine ⟨by rw [hwalk]; exact h.found, ?_, fun y hy => ?_⟩
  · rw [hfind w (Lib.search_found h.found).2]
    exact h.index
  · unfold searched at hy
    rw [hwalk] at hy
    exact hflags y (h.flagged y hy)

theorem toNat_epochBump (h : vm.stats.slotEpoch.toNat < 2 ^ 32 - 1) :
    vm.epochBump.stats.slotEpoch.toNat = vm.stats.slotEpoch.toNat + 1 := by
  have hadd : (vm.stats.slotEpoch + 1).toNat = vm.stats.slotEpoch.toNat + 1 := by
    rw [UInt32.toNat_add]
    exact Nat.mod_eq_of_lt (by simp; omega)
  have hne : vm.stats.slotEpoch + 1 ≠ 0 := fun h0 => by
    rw [h0] at hadd
    simp at hadd
  unfold epochBump
  dsimp only
  rw [if_neg hne, hadd]

theorem epochBump_ne : vm.epochBump.stats.slotEpoch ≠ vm.stats.slotEpoch := by
  unfold epochBump
  dsimp only
  split
  · rename_i h0
    intro h1
    rw [← h1] at h0
    exact absurd h0 (by decide)
  · intro h1
    have := congrArg UInt32.toNat h1
    rw [UInt32.toNat_add] at this
    simp at this
    omega

theorem EntryOk.of_change {ps : List ObjId} (h : Change ps vm vm')
    (hbound : vm'.stats.slotEpoch ≠ vm.stats.slotEpoch →
      vm.stats.slotEpoch.toNat < vm'.stats.slotEpoch.toNat)
    (he : EntryOk vm name e) : EntryOk vm' name e := by
  intro r hr
  obtain ⟨w, hw, hold⟩ := he r hr
  refine ⟨w, hw, hold.imp_right fun ⟨hle, hcov⟩ => ?_⟩
  rcases h.walks with ⟨hsame, hwalk⟩ | hbump
  · rw [hsame]
    exact ⟨hle, fun heq => (hcov heq).of_same h.flags hwalk⟩
  · have hlt := hbound (by rw [hbump]; exact epochBump_ne)
    refine ⟨by omega, fun heq => ?_⟩
    rw [heq] at hle
    omega

theorem Coherent.of_change {ps : List ObjId} (h : Coherent names n vm)
    (hchange : Change ps vm vm') (hps : ∀ p ∈ ps, p < vm.objs.length) (hdistinct : vm'.Distinct)
    (hfew : (if vm'.stats.slotEpoch = vm.stats.slotEpoch then n else n + 1) < 2 ^ 31) :
    Coherent names (if vm'.stats.slotEpoch = vm.stats.slotEpoch then n else n + 1) vm' := by
  have hepoch := h.epoch
  have hnext : vm'.stats.slotEpoch ≠ vm.stats.slotEpoch →
      vm'.stats.slotEpoch.toNat = vm.stats.slotEpoch.toNat + 1 := by
    intro hne
    rw [if_neg hne] at hfew
    rcases hchange.walks with ⟨hsame, -⟩ | hbump
    · exact absurd hsame hne
    · rw [hbump]
      exact toNat_epochBump (by omega)
  refine ⟨hdistinct, fun y p hp => ?_, fun y => hchange.roomy y (h.roomy y), ?_, fun k => ?_⟩
  · have hlt : p < vm.objs.length := (hchange.protos y p hp).elim (h.closed y p) (hps p)
    exact Nat.lt_of_lt_of_le hlt hchange.length
  · by_cases hsame : vm'.stats.slotEpoch = vm.stats.slotEpoch
    · rw [if_pos hsame, hsame]
      exact hepoch
    · rw [if_neg hsame, hnext hsame]
      omega
  · rcases hchange.sites k with hk | hk
    · rw [hk]
      exact (h.entries k).of_change hchange fun hne => by rw [hnext hne]; omega
    · exact entryOk_own hk

theorem lt_of_fresh (h : vm.fresh = true) (y : ObjId) (hy : y < vm.objs.length) :
    (vm.obj y).visit ≠ vm.nextStamp := by
  have hall := List.all_eq_true.mp h (vm.objs[y]) (List.getElem_mem hy)
  rw [obj, List.getD_eq_getElem _ _ hy]
  simpa using hall

theorem Coherent.covered (h : Coherent names n vm) (hfresh : vm.fresh = true) {ref : UObjSlotRef}
    (ho : o < vm.objs.length) (hfill : Inherits vm k o name ref vm') :
    Covered (vm.resolveImpl o name true).1 o name ref.owner ref.index := by
  have hwalked := vm.walked_resolveImpl o name true
  have hwalk : (vm.resolveImpl o name true).1.walk o name = vm.walk o name :=
    walk_congr fun y _ => ⟨hwalked.protos y, by rw [hwalked.local?]⟩
  have hfind := vm.findLocal_of_resolveImpl hfill.found
  have hfound : (vm.walk o name).found = some ref.owner := by
    have heq := (vm.resolveImpl_eq_walk (lt_of_fresh hfresh) o name true).1
    rw [hfill.found] at heq
    obtain ⟨w, hw, href⟩ := Option.bind_eq_some_iff.mp heq.symm
    obtain ⟨i, -, rfl⟩ := Option.map_eq_some_iff.mp href
    exact hw
  refine ⟨by rw [hwalk]; exact hfound, by rw [hwalked.findLocal]; exact hfind, fun y hy => ?_⟩
  unfold searched at hy
  rw [hwalk] at hy
  -- the walk stays in the heap, where a flag holds
  have hheap : y < vm.objs.length :=
    Lib.searched_of_closed (S := fun y => y < vm.objs.length) (fun a _ => h.closed a)
      (fun a ha => absurd ha List.not_mem_nil)
      (fun a ha => by rw [List.mem_singleton.mp ha]; exact ho) y hy
  exact vm.flagged_resolveImpl (lt_of_fresh hfresh) hfill.found hfill.inherited hheap hy

theorem Coherent.of_inherits (h : Coherent names n vm) (hfresh : vm.fresh = true)
    {ref : UObjSlotRef} (ho : o < vm.objs.length) (hdistinct : vm'.Distinct)
    (hfill : Inherits vm k o (names k) ref vm') : Coherent names n vm' := by
  have hcovered := h.covered hfresh ho hfill
  have hwalked := vm.walked_resolveImpl o (names k) true
  have hlight : Light vm { vm' with sites := vm.sites } :=
    (Light.of_walked hwalked).trans hfill.light
  have hepoch : vm'.stats.slotEpoch = vm.stats.slotEpoch := hlight.epoch
  have hsame : ∀ {y : ObjId} {m : USym} {w : ObjId} {i : Nat},
      Covered { vm' with sites := vm.sites } y m w i → Covered vm' y m w i :=
    fun hc => ⟨hc.found, hc.index, hc.flagged⟩
  refine ⟨hdistinct, fun y p hp => ?_, fun y => ?_, by rw [hepoch]; exact h.epoch, fun j => ?_⟩
  · have hp : p ∈ (vm.obj y).protos := by rw [← hlight.protos y]; exact hp
    have hlen : vm'.objs.length = vm.objs.length := hlight.length
    rw [hlen]
    exact h.closed y p hp
  · exact (h.roomy y).congr (hlight.cap y) (hlight.names y)
  · rw [hfill.sites]
    by_cases hj : j = k
    · subst hj
      rw [Function.update_self]
      intro r hr
      cases hr
      refine ⟨ref.owner, rfl, .inr ⟨by rw [hepoch], fun _ => ?_⟩⟩
      have hindex : ref.index % 65536 = ref.index :=
        Nat.mod_eq_of_lt ((h.roomy ref.owner).index_lt (vm.findLocal_of_resolveImpl hfill.found))
      dsimp only
      rw [hindex]
      exact hsame (hcovered.of_same hfill.light.flags fun y _ =>
        ⟨hfill.light.protos y, hfill.light.names y⟩)
    · rw [Function.update_of_ne hj]
      have hentry := (h.entries j).of_change hlight.change fun hne => absurd hlight.epoch hne
      intro r hr
      obtain ⟨w, hw, hold⟩ := hentry r hr
      exact ⟨w, hw, hold.imp_right fun ⟨hle, hcov⟩ => ⟨hle, fun heq => hsame (hcov heq)⟩⟩

structure Freed (vm vm' : UVM L) : Prop where
  length : vm'.objs.length = vm.objs.length
  obj : ∀ y, vm'.obj y = vm.obj y ∨ vm'.obj y = {}
  stats : vm'.stats = vm.stats
  sites : vm'.sites = vm.sites

theorem freed_foldl (freed : List ObjId) :
    Freed vm (freed.foldl (fun vm x => vm.modify x fun _ => {}) vm) := by
  induction freed generalizing vm with
  | nil => exact ⟨rfl, fun _ => .inl rfl, rfl, rfl⟩
  | cons x freed ih =>
    have hrest : Freed (vm.modify x fun _ => {}) _ := ih
    refine ⟨hrest.length.trans (length_modify _ _ _), fun y => ?_, hrest.stats, hrest.sites⟩
    rcases hrest.obj y with hy | hy
    · rw [List.foldl_cons, hy]
      exact (obj_modify_cases vm x y _).imp_right fun h => h.2.2
    · exact .inr hy

theorem Coherent.collected (h : Coherent names n vm) (hfreed : Freed vm vm')
    (hlast : vm.stats.slotEpoch ≠ 0xFFFFFFFF) : Coherent names 0 vm'.collected := by
  have hobj : ∀ y, vm'.collected.obj y = vm'.obj y := fun y => by
    unfold UVM.collected
    dsimp only
    split <;> rfl
  have hlen : vm'.collected.objs.length = vm.objs.length := by
    rw [← hfreed.length]
    unfold UVM.collected
    dsimp only
    split <;> rfl
  have hmax : vm'.stats.slotEpoch.toNat < 2 ^ 32 - 1 := by
    rw [hfreed.stats]
    have hle := vm.stats.slotEpoch.toNat_lt
    have hne : vm.stats.slotEpoch.toNat ≠ 2 ^ 32 - 1 := fun heq =>
      hlast (UInt32.toNat_inj.mp (by rw [heq]; rfl))
    omega
  have hbump := toNat_epochBump hmax
  -- either the new epoch is past the middle and starts over, or it is past every entry
  have hepoch : (vm'.collected.stats.slotEpoch = 1 ∧ ∀ k, vm'.collected.sites k = {}) ∨
      (vm'.collected.stats.slotEpoch.toNat = vm.stats.slotEpoch.toNat + 1 ∧
        vm.stats.slotEpoch.toNat + 1 ≤ 2 ^ 31 ∧ vm'.collected.sites = vm.sites) := by
    unfold UVM.collected
    dsimp only
    split
    · exact .inl ⟨rfl, fun _ => rfl⟩
    · rename_i hle
      have hle : vm'.epochBump.stats.slotEpoch.toNat ≤ 2 ^ 31 := by
        have hle := UInt32.not_lt.mp hle
        exact UInt32.le_iff_toNat_le.mp hle
      rw [hbump, hfreed.stats] at hle
      exact .inr ⟨by rw [hbump, hfreed.stats], hle, hfreed.sites⟩
  refine ⟨fun y => ?_, fun y p hp => ?_, fun y => ?_, ?_, fun k => ?_⟩
  · rw [hobj]
    rcases hfreed.obj y with hy | hy <;> rw [hy]
    · exact h.distinct y
    · exact List.nodup_nil
  · rw [hobj] at hp
    rw [hlen]
    rcases hfreed.obj y with hy | hy <;> rw [hy] at hp
    · exact h.closed y p hp
    · cases hp
  · rw [hobj]
    rcases hfreed.obj y with hy | hy <;> rw [hy]
    · exact h.roomy y
    · exact ⟨Nat.le_refl _, .inl rfl⟩
  · rcases hepoch with ⟨hone, -⟩ | ⟨hnext, hle, -⟩
    · rw [hone]
      decide
    · omega
  · rcases hepoch with ⟨-, hnone⟩ | ⟨hnext, -, hsites⟩
    · rw [hnone k]
      exact fun r hr => nomatch hr
    · rw [hsites]
      intro r hr
      obtain ⟨w, hw, hold⟩ := h.entries k r hr
      refine ⟨w, hw, hold.imp_right fun ⟨hle, _⟩ => ⟨by omega, fun heq => ?_⟩⟩
      rw [heq, hnext] at hle
      omega

theorem coherent_blank (atoms : UValue L → Option ObjId) : Coherent names 0 (blank atoms) where
  distinct := distinct_blank atoms
  closed y p hp := by
    rw [obj_of_le _ (Nat.zero_le _)] at hp
    cases hp
  roomy y := by
    rw [obj_of_le _ (Nat.zero_le _)]
    exact ⟨Nat.le_refl _, .inl rfl⟩
  epoch := Nat.zero_le _
  entries k r hr := nomatch hr

theorem distinct_cacheStep (h : vm.Distinct) {a : CacheStep L} (hcollect : a.collects = false) :
    (vm.cacheStep a).Distinct := by
  cases a with
  | slot a => exact distinct_slotStep h a
  | sweep => cases hcollect

theorem Coherent.step (h : Coherent names n vm) {a : CacheStep L}
    (hlawful : vm.lawful names a = true) (hsteady : vm.steady a = true)
    (hfew : vm.bumps n a < 2 ^ 31) : Coherent names (vm.bumps n a) (vm.cacheStep a) := by
  unfold lawful at hlawful
  rw [Bool.and_eq_true] at hlawful
  by_cases hcollect : a.collects = true
  · -- a collection
    unfold bumps
    rw [if_pos hcollect]
    have hlast : vm.stats.slotEpoch ≠ 0xFFFFFFFF := by
      unfold steady at hsteady
      split at hsteady
      · cases hcollect
      · rw [hcollect] at hsteady
        simpa using hsteady
    unfold CacheStep.collects at hcollect
    split at hcollect
    · exact h.collected ⟨rfl, fun _ => .inl rfl, rfl, rfl⟩ hlast
    · exact h.collected (freed_foldl _) hlast
    · cases hcollect
  · have hcollect : a.collects = false := by simpa using hcollect
    have hdistinct := distinct_cacheStep h.distinct hcollect
    unfold bumps at hfew ⊢
    rw [if_neg (by rw [hcollect]; exact Bool.false_ne_true)] at hfew ⊢
    rcases vm.change_cacheStep hcollect with
      hchange | ⟨self, n, recv, k, o, name, ref, rfl, rfl, ho, hfill⟩
    · refine h.of_change hchange (fun p hp => ?_) hdistinct hfew
      simpa using List.all_eq_true.mp hlawful.1 p hp
    · -- a read that fills an inherited entry
      have hsite := hlawful.2
      simp only [admits, ho, Option.all_some, Bool.and_eq_true, decide_eq_true_eq, beq_iff_eq,
        Option.some.injEq] at hsite
      obtain ⟨hheap, rfl⟩ := hsite
      have hepoch : (vm.cacheStep (.slot (.access (.getslot self (some (names k)) recv
          (some k))))).stats.slotEpoch = vm.stats.slotEpoch :=
        hfill.light.epoch.trans (vm.walked_resolveImpl o (names k) true).epoch
      rw [if_pos hepoch]
      exact h.of_inherits hsteady hheap hdistinct hfill

theorem CacheRun.coherent {atoms : UValue L → Option ObjId}
    (h : CacheRun names atoms steady n vm) : Coherent names n vm := by
  induction h with
  | start => exact coherent_blank atoms
  | step run a hlawful hsteady hfew ih => exact ih.step hlawful hsteady hfew

/-! ## What a hit answers -/

theorem found_own (h : (vm.obj x).findLocal name = some i) : (vm.walk x name).found = some x := by
  obtain ⟨s, hs, -⟩ := UObject.local?_of_findLocal h
  unfold walk walkFuel
  rw [Nat.add_comm, Lib.search, if_neg List.not_mem_nil, if_pos (by rw [hs]; rfl)]

theorem uobjResolve_of_found (hfresh : vm.fresh = true)
    (hfound : (vm.walk x name).found = some w) (hindex : (vm.obj w).findLocal name = some i) :
    (vm.uobjResolve x name).2 = some ⟨w, i⟩ := by
  have heq := (vm.resolveImpl_eq_walk (lt_of_fresh hfresh) x name false).1
  rw [hfound] at heq
  unfold uobjResolve
  rw [heq]
  show ((vm.obj w).findLocal name).map _ = _
  rw [hindex]
  rfl

theorem Coherent.hit (h : Coherent names n vm)
    (hhit : vm.slotcacheHit (vm.sites k) x (names k) = true) (hw : (vm.sites k).owner = some w) :
    (vm.walk x (names k)).found = some w ∧
      (vm.obj w).findLocal (names k) = some (vm.sites k).index := by
  unfold slotcacheHit at hhit
  split at hhit
  · cases hhit
  · rename_i hrecv
    have hrecv : (vm.sites k).recv = some x := by simpa using hrecv
    split at hhit
    · -- an own entry, checked against the live receiver
      rename_i hown
      have hown : (vm.sites k).owner = some x := by simpa using hown
      obtain rfl : w = x := Option.some.inj (hw.symm.trans hown)
      cases hs : (vm.obj w).slots[(vm.sites k).index]? with
      | none =>
        rw [hs] at hhit
        cases hhit
      | some s =>
        rw [hs] at hhit
        have hname : s.name = names k := by simpa using hhit
        have hfind := UObject.findLocal_of_getElem? (h.distinct w) hs
        rw [hname] at hfind
        exact ⟨found_own hfind, hfind⟩
    · rename_i hown
      obtain ⟨w', hw', hold⟩ := h.entries k x hrecv
      cases hw.symm.trans hw'
      rcases hold with rfl | ⟨-, hcov⟩
      · exact absurd hw (by simpa using hown)
      · have hcov := hcov (by simpa using hhit)
        exact ⟨hcov.found, hcov.index⟩

theorem modify_congr {α : Type} {l : List α} {f g : α → α} (h : ∀ a ∈ l[i]?, f a = g a) :
    l.modify i f = l.modify i g := by
  apply List.ext_getElem?
  intro j
  by_cases hj : i = j
  · subst hj
    rw [List.getElem?_modify_eq, List.getElem?_modify_eq]
    exact Option.map_congr h
  · rw [List.getElem?_modify_ne _ _ hj, List.getElem?_modify_ne _ _ hj]

theorem storeNoted_plain {s : USlot L} (hfind : (vm.obj x).findLocal name = some i)
    (hslot : (vm.obj x).slots[i]? = some s) (hconst : s.attrs.constant = false)
    (hprop : s.attrs.isProperty = false) (v : UValue L) (granted : Bool) :
    vm.storeNoted x name v none granted = some (vm.assignNoted x name i v) := by
  have hover : (USlot.make name v {}).onto s.attrs = s.assign v := by
    have hname : s.name = name := by
      obtain ⟨t, ht, hti⟩ := UObject.local?_of_findLocal hfind
      cases hslot.symm.trans hti
      exact UObject.local?_name ht
    obtain ⟨sname, stored, ⟨c, g, st, ev⟩, kind⟩ := s
    simp only [USlotAttrs.isProperty, Bool.or_eq_false_iff] at hconst hprop hname
    obtain ⟨rfl, rfl⟩ := hprop
    subst hconst hname
    cases stored with
    | plain w => cases ev <;> rfl
    | props p => cases kind
  have hattrs : ((USlot.make name v {}).onto s.attrs).attrs = s.attrs := by rw [hover]; rfl
  have hmodify : ((vm.obj x).slots.modify i fun was => (USlot.make name v {}).onto was.attrs) =
      (vm.obj x).slots.modify i fun was => was.assign v := by
    refine modify_congr fun was hwas => ?_
    cases hslot.symm.trans hwas
    exact hover
  have hset : vm.setLocal x (.make name v {}) false granted =
      some (vm.modify x fun o => { o with slots := o.slots.modify i fun s => s.assign v }, i) := by
    have hcell : ¬ ((USlot.make name v {}).attrs.isProperty && !false) = true := Bool.false_ne_true
    unfold UVM.setLocal
    rw [if_neg hcell]
    unfold UObject.setLocal
    rw [USlot.make_name, hfind]
    dsimp only
    rw [hslot, Option.any_some, hattrs, bne_self_eq_false, hmodify]
    show some (vm.modify x _, i) = _
    congr 2
    unfold UVM.modify
    congr 1
    refine modify_congr fun o ho => ?_
    unfold obj
    rw [List.getD, ho]
    rfl
  unfold UVM.storeNoted
  dsimp only
  rw [hset, hfind]
  rfl

theorem setslotLong_plain {s : USlot L} (hfind : (vm.obj x).findLocal name = some i)
    (hslot : (vm.obj x).slots[i]? = some s) (hro : (vm.obj x).readonly = false)
    (hconst : s.attrs.constant = false) (hprop : s.attrs.isProperty = false) (v : UValue L)
    (granted : Bool) :
    vm.setslotLong x name v none granted = (vm.assignNoted x name i v, .ok .stored) := by
  obtain ⟨t, hlocal, hti⟩ := UObject.local?_of_findLocal hfind
  cases hslot.symm.trans hti
  unfold setslotLong
  dsimp only
  rw [hro, hfind, hlocal, storeNoted_plain hfind hslot hconst hprop]
  dsimp only
  rw [if_neg Bool.false_ne_true, hconst, if_neg Bool.false_ne_true]
  have hkind := s.kind
  rw [hprop] at hkind
  cases hstored : s.stored with
  | plain w => rfl
  | props p =>
    rw [hstored] at hkind
    cases hkind

theorem checks_of_cachedWrite (h : vm.cachedWrite e x name = some i) :
    i = e.index ∧ e.owner = some x ∧ vm.slotcacheHit e x name = true ∧
      (vm.obj x).readonly = false ∧ ∃ s, (vm.obj x).slots[i]? = some s ∧
        s.attrs.constant = false ∧ s.attrs.isProperty = false := by
  unfold cachedWrite at h
  split at h
  · rename_i hcond
    cases h
    simp only [Bool.and_eq_true, beq_iff_eq, Bool.not_eq_true', Option.any_eq_true,
      Bool.or_eq_false_iff] at hcond
    obtain ⟨⟨⟨howner, hhit⟩, hro⟩, s, hs, hattrs⟩ := hcond
    exact ⟨rfl, howner, hhit, hro, s, hs, hattrs⟩
  · cases h

theorem Coherent.read (h : Coherent names n vm) (hfresh : vm.fresh = true) {owner : ObjId}
    {v : UValue L} (hread : vm.cachedRead (vm.sites k) x (names k) = some (owner, v)) :
    ∃ ref s, (vm.uobjResolve x (names k)).2 = some ref ∧ ref.owner = owner ∧
      vm.slotAt ref = some s ∧ s.stored = .plain v := by
  unfold cachedRead at hread
  split at hread
  · rename_i hhit
    obtain ⟨w, hw, hread⟩ := Option.bind_eq_some_iff.mp hread
    obtain ⟨s, hs, hread⟩ := Option.bind_eq_some_iff.mp hread
    obtain ⟨hfound, hindex⟩ := h.hit hhit hw
    split at hread
    · rename_i u hstored
      cases hread
      exact ⟨_, s, uobjResolve_of_found hfresh hfound hindex, rfl, hs, hstored⟩
    · cases hread
  · cases hread

theorem Coherent.write (h : Coherent names n vm) (hfresh : vm.fresh = true)
    (hwrite : vm.cachedWrite (vm.sites k) x (names k) = some i) {recv : UValue L}
    (hrecv : recv.asObj = some x) (update : Bool) (v : UValue L) (granted : Bool) :
    vm.setslot update (some (names k)) recv v none granted =
      ((if update then (vm.uobjResolve x (names k)).1 else vm).assignNoted x (names k) i v,
        .ok .stored) := by
  obtain ⟨rfl, howner, hhit, hro, s, hs, hconst, hprop⟩ := checks_of_cachedWrite hwrite
  obtain ⟨hfound, hindex⟩ := h.hit hhit howner
  unfold setslot
  rw [hrecv]
  dsimp only [Option.bind_none]
  cases update with
  | false => exact setslotLong_plain hindex hs hro hconst hprop v granted
  | true =>
    -- the walk of an update changes neither the slot nor the flag
    have hwalked := vm.walked_resolveImpl x (names k) false
    have hres := uobjResolve_of_found hfresh hfound hindex
    show vm.setslotUpdate x (names k) v none granted = _
    unfold setslotUpdate
    unfold uobjResolve at hres ⊢
    rcases hout : vm.resolveImpl x (names k) false with ⟨vm₁, r⟩
    rw [hout] at hwalked hres
    cases hres
    have hs₁ : (vm₁.obj x).slots[(vm.sites k).index]? = some s := by
      rw [hwalked.obj x]
      exact hs
    have hconst₁ : ((vm₁.slotAt ⟨x, (vm.sites k).index⟩).any fun s => s.attrs.constant) =
        false := by
      show ((vm₁.obj x).slots[_]?.any _) = false
      rw [hs₁]
      exact hconst
    have hindex₁ : (vm₁.obj x).findLocal (names k) = some (vm.sites k).index := by
      rw [hwalked.findLocal]
      exact hindex
    have hro₁ : (vm₁.obj x).readonly = false := by
      rw [hwalked.obj x]
      exact hro
    dsimp only
    rw [hconst₁, if_neg Bool.false_ne_true]
    exact setslotLong_plain hindex₁ hs₁ hro₁ hconst hprop v granted

/-- In every run whose counters have room, a read answered by a site's cache names the slot an
uncached resolution would return, and a cached write goes where the uncached write would go, past
the same checks. -/
theorem sites_coherent {names : Nat → USym} {atoms : UValue L → Option ObjId} {n : Nat} {vm : UVM L}
    (h : CacheRun names atoms steady n vm) (hfresh : vm.fresh = true) (k : Nat) (o : ObjId) :
    (∀ owner v, vm.cachedRead (vm.sites k) o (names k) = some (owner, v) →
      ∃ ref s, (vm.uobjResolve o (names k)).2 = some ref ∧ ref.owner = owner ∧
        vm.slotAt ref = some s ∧ s.stored = .plain v) ∧
    (∀ i, vm.cachedWrite (vm.sites k) o (names k) = some i →
      ∀ (recv : UValue L), recv.asObj = some o → ∀ (update : Bool) (v : UValue L) (granted : Bool),
        vm.setslot update (some (names k)) recv v (some k) granted =
          (vm.assignNoted o (names k) i v, .ok .stored) ∧
        vm.setslot update (some (names k)) recv v none granted =
          ((if update then (vm.uobjResolve o (names k)).1 else vm).assignNoted o (names k) i v,
            .ok .stored)) := by
  have hcoherent := h.coherent
  refine ⟨fun owner v hread => hcoherent.read hfresh hread, ?_⟩
  intro i hwrite recv hrecv update v granted
  refine ⟨?_, hcoherent.write hfresh hwrite hrecv update v granted⟩
  unfold setslot
  rw [hrecv]
  dsimp only [Option.bind_some]
  rw [hwrite]

theorem uobjResolve_leaf (hvisit : (vm.obj o).visit ≠ vm.nextStamp)
    (hfind : (vm.obj o).findLocal name = none) (hprotos : (vm.obj o).protos = []) :
    vm.uobjResolve o name = (vm.startWalk.visitObj o vm.nextStamp false, none) := by
  have hobj : vm.startWalk.obj o = vm.obj o := rfl
  unfold uobjResolve resolveImpl walkFuel
  rw [Nat.add_comm, resolveLoop, hobj, if_neg hvisit, hfind, hprotos]
  dsimp only
  rw [if_pos (by decide), List.nil_append, resolveLoop]

end UVM

/-! ## The stamp comes round -/

def wound (s : UInt32) : UVM noCode where
  objs := [{ slots := [.make [0x78] .nil {}], cap := 4, visit := 1 }, { visit := s }]
  stats := { visitStamp := s }
  sites := Function.update (fun _ => {}) 0 { recv := some 0, owner := some 0 }

def lookAgain : CacheStep noCode := .slot (.access (.probe (.obj 1) [0x78]))

theorem cacheStep_lookAgain {s : UInt32} (hs : s + 1 ≠ 0) :
    (wound s).cacheStep lookAgain = wound (s + 1) := by
  have hnext : (wound s).nextStamp = s + 1 := if_neg hs
  have hvisit : ((wound s).obj 1).visit ≠ (wound s).nextStamp := by
    rw [hnext]
    show s ≠ s + 1
    intro heq
    have hnat := congrArg UInt32.toNat heq
    rw [UInt32.toNat_add] at hnat
    simp at hnat
    omega
  have hleaf : (wound s).uobjResolve 1 [0x78] = _ := UVM.uobjResolve_leaf hvisit rfl rfl
  show ((wound s).uobjResolve 1 [0x78]).1 = _
  rw [hleaf, ← hnext]
  rfl

section

variable {names : Nat → USym} {P : UVM noCode → CacheStep noCode → Bool}

theorem run_lookAgain (hP : ∀ vm a, P vm a = true) {s : UInt32} (hs : s + 1 ≠ 0)
    (h : UVM.CacheRun names (fun _ => none) P 0 (wound s)) :
    UVM.CacheRun names (fun _ => none) P 0 (wound (s + 1)) := by
  have hstep := cacheStep_lookAgain hs
  have hbumps : (wound s).bumps 0 lookAgain = 0 := by
    unfold UVM.bumps
    rw [hstep]
    rfl
  have hrun := h.step lookAgain rfl (hP _ _) (by rw [hbumps]; decide)
  rw [hbumps, hstep] at hrun
  exact hrun

theorem run_wound (hP : ∀ vm a, P vm a = true)
    (h : UVM.CacheRun names (fun _ => none) P 0 (wound 2)) (j : Nat) (hj : j + 2 < 2 ^ 32) :
    UVM.CacheRun names (fun _ => none) P 0 (wound (UInt32.ofNat (j + 2))) := by
  induction j with
  | zero => exact h
  | succ j ih =>
    have hadd : UInt32.ofNat (j + 1 + 2) = UInt32.ofNat (j + 2) + 1 := by
      rw [show j + 1 + 2 = j + 2 + 1 from rfl, UInt32.ofNat_add]
      rfl
    have hne : UInt32.ofNat (j + 2) + 1 ≠ 0 := by
      rw [← hadd]
      intro h0
      have hnat := congrArg UInt32.toNat h0
      rw [UInt32.toNat_ofNat', Nat.mod_eq_of_lt hj] at hnat
      exact absurd hnat (Nat.succ_ne_zero _)
    rw [hadd]
    exact run_lookAgain hP hne (ih (by omega))

end

/-- After 2³² walks the mark of the first is the mark of the next: the cache still finds the slot,
and the walk skips the object that has it. -/
theorem stale_mark_hides_slot :
    ∃ vm : UVM noCode, UVM.CacheRun (fun _ => [0x78]) (fun _ => none) (fun _ _ => true) 0 vm ∧
      vm.cachedRead (vm.sites 0) 0 [0x78] = some (0, .nil) ∧
      (vm.uobjResolve 0 [0x78]).2 = none := by
  have hfirst : UVM.runCache (fun _ => [0x78]) (fun _ _ => true)
      (0, UVM.blank (L := noCode) fun _ => none)
      [.slot (.access (.new none)), .slot (.access (.setLocal 0 (.make [0x78] .nil {}) false true)),
        .slot (.access (.new none)),
        .slot (.access (.getslot false (some [0x78]) (.obj 0) (some 0))), lookAgain] =
      some (0, wound 2) := rfl
  have hrun := run_wound (fun _ _ => rfl) (UVM.CacheRun.start.append hfirst) (2 ^ 32 - 3) (by decide)
  exact ⟨_, hrun, rfl, rfl⟩

/-- Two reads of an inherited slot at one site: the second is a hit. -/
theorem sites_coherent_inherited :
    ∃ (n : Nat) (vm : UVM noCode),
      UVM.CacheRun (fun _ => [0x78]) (fun _ => none) UVM.steady n vm ∧ vm.fresh = true ∧
      vm.cachedRead (vm.sites 0) 1 [0x78] = some (0, .nil) ∧
      ∃ ref s, (vm.uobjResolve 1 [0x78]).2 = some ref ∧ ref.owner = 0 ∧
        vm.slotAt ref = some s ∧ s.stored = .plain .nil := by
  obtain ⟨n, vm, hrun, hfresh, hread⟩ : ∃ (n : Nat) (vm : UVM noCode),
      UVM.CacheRun (fun _ => [0x78]) (fun _ => none) UVM.steady n vm ∧ vm.fresh = true ∧
      vm.cachedRead (vm.sites 0) 1 [0x78] = some (0, .nil) :=
    ⟨_, _, UVM.CacheRun.start.append (rfl : UVM.runCache _ _ _ [.slot (.access (.new none)),
      .slot (.access (.setLocal 0 (.make [0x78] .nil {}) false true)),
      .slot (.access (.new (some 0))),
      .slot (.access (.getslot false (some [0x78]) (.obj 1) (some 0)))] = some (_, _)), rfl, rfl⟩
  exact ⟨n, vm, hrun, hfresh, hread, (UVM.sites_coherent hrun hfresh 0 1).1 0 .nil hread⟩

end Urbi
