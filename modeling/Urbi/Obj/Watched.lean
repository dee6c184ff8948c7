import Urbi.Obj.Run

/-!
# Which assignments a watcher notices

A read during a condition marks the receiver and the owner of the slot as watched.  The objects the
walk passes over in between are not marked, and a slot that appears on one of them changes the
answer unseen.
-/

namespace Urbi

variable {L : CodeBase}
variable {i : Nat} {s : USlot L} {o x : ObjId} {cell granted : Bool} {name : USym} {v : UValue L}

namespace UVM

variable {vm vm' : UVM L}

/-! ## What an assignment changes -/

def readIn (slots : List (USlot L)) (m : USym) : Option (Fetched L) :=
  (slots.find? (·.name == m)).map USlot.read

theorem readIn_modify {slots : List (USlot L)} {f : USlot L → USlot L} (hs : slots[i]? = some s)
    (hname : (f s).name = s.name) {m : USym} (hread : m = s.name → (f s).read = s.read) :
    readIn (slots.modify i f) m = readIn slots m := by
  unfold readIn
  induction slots generalizing i with
  | nil => cases hs
  | cons t slots ih =>
    cases i with
    | zero =>
      cases hs
      rw [List.modify_zero_cons, List.find?_cons, List.find?_cons, hname]
      by_cases hm : s.name = m
      · simp [hm, hread hm.symm]
      · have hne : (s.name == m) = false := by simpa using hm
        rw [hne]
    | succ i =>
      rw [List.modify_succ_cons, List.find?_cons, List.find?_cons]
      cases t.name == m with
      | true => rfl
      | false => exact ih hs

structure KeepsReads (P : ObjId → USym → Prop) (vm vm' : UVM L) : Prop where
  length : vm'.objs.length = vm.objs.length
  protos : ∀ y, (vm'.obj y).protos = (vm.obj y).protos
  watched : ∀ y, (vm'.obj y).watched = (vm.obj y).watched
  reads : ∀ y m, ¬ P y m → readIn (vm'.obj y).slots m = readIn (vm.obj y).slots m

namespace KeepsReads

variable {P : ObjId → USym → Prop} {vm'' : UVM L}

theorem trans (h : KeepsReads P vm vm') (h' : KeepsReads P vm' vm'') : KeepsReads P vm vm'' where
  length := h'.length.trans h.length
  protos y := (h'.protos y).trans (h.protos y)
  watched y := (h'.watched y).trans (h.watched y)
  reads y m hP := (h'.reads y m hP).trans (h.reads y m hP)

theorem of_objs (h : vm'.objs = vm.objs) : KeepsReads P vm vm' := by
  have hobj : ∀ y, vm'.obj y = vm.obj y := fun y => by rw [obj, obj, h]
  exact ⟨by rw [h], fun y => by rw [hobj], fun y => by rw [hobj], fun y m _ => by rw [hobj]⟩

theorem of_walked (h : Walked vm vm') : KeepsReads P vm vm' where
  length := h.length
  protos := h.protos
  watched := h.watched
  reads y m _ := by rw [h.obj y]

theorem modify {f : UObject L → UObject L} (hprotos : (f (vm.obj x)).protos = (vm.obj x).protos)
    (hwatched : (f (vm.obj x)).watched = (vm.obj x).watched)
    (hreads : ∀ m, ¬ P x m → readIn (f (vm.obj x)).slots m = readIn (vm.obj x).slots m) :
    KeepsReads P vm (vm.modify x f) := by
  refine ⟨length_modify _ _ _, fun y => ?_, fun y => ?_, fun y m hP => ?_⟩ <;>
    rcases obj_modify_cases vm x y f with h | ⟨rfl, -, h⟩ <;> rw [h]
  · exact hprotos
  · exact hwatched
  · exact hreads m hP

theorem setLocal (h : vm.setLocal x s cell granted = some (vm', i)) (hP : P x s.name) :
    KeepsReads P vm vm' := by
  obtain ⟨o, structural, hset, rfl⟩ := of_setLocal h
  have hwrote := UObject.wrote_of_setLocal hset
  have hstore : KeepsReads P vm (vm.modify x fun _ => o) := by
    apply modify
    · rw [hwrote.rest]
    · rw [hwrote.rest]
    · intro m hm
      show (o.local? m).map _ = ((vm.obj x).local? m).map _
      rw [hwrote.other m fun h => hm (h ▸ hP)]
  split
  · exact hstore.trans (of_objs (objs_retire _ _))
  · exact hstore

theorem noteDirty (x : ObjId) : KeepsReads P vm (vm.noteDirty x) := by
  apply of_objs
  unfold UVM.noteDirty markDirty
  repeat' split
  all_goals rfl

theorem noteWrite (x : ObjId) (name : USym) (existed : Bool) :
    KeepsReads P vm (vm.noteWrite x name existed) := by
  have hdirty : KeepsReads P vm (vm.noteDirty x) := noteDirty x
  unfold UVM.noteWrite
  split
  · refine hdirty.trans ?_
    unfold slotInstalled
    split
    · split
      · rename_i i hfind
        obtain ⟨s, -, hs⟩ := UObject.local?_of_findLocal hfind
        exact modify rfl rfl fun m _ => readIn_modify hs rfl fun _ => rfl
      · exact of_objs rfl
    · exact of_objs rfl
  · exact hdirty

theorem storeNoted {site : Option Nat} (h : vm.storeNoted x name v site granted = some vm')
    (hP : P x name) : KeepsReads P vm vm' := by
  unfold UVM.storeNoted at h
  obtain ⟨⟨vm₁, i⟩, hset, hout⟩ := Option.map_eq_some_iff.mp h
  cases hout
  have hfill : KeepsReads P vm₁ (site.elim vm₁ fun k => vm₁.fillOwn k x i) := by
    cases site <;> exact of_objs rfl
  exact ((setLocal hset hP).trans hfill).trans (noteWrite x name _)

theorem assign (hs : (vm.obj x).slots[i]? = some s) (v : UValue L) (hP : P x s.name) :
    KeepsReads P vm (vm.modify x fun o => { o with slots := o.slots.modify i fun s => s.assign v }) :=
  modify rfl rfl fun _ hm => readIn_modify hs rfl fun h => absurd (h ▸ hP) hm

theorem read_eq (h : KeepsReads P vm vm') {m : USym}
    (hP : ∀ x ∈ vm.searched o m, x < vm.objs.length → ¬ P x m) : vm'.read o m = vm.read o m := by
  refine lookup_congr USlot.read h.protos fun x hx => ?_
  by_cases hlt : x < vm.objs.length
  · exact h.reads x m (hP x hx hlt)
  · have hle : vm.objs.length ≤ x := Nat.le_of_not_lt hlt
    rw [vm.obj_of_le hle, vm'.obj_of_le (by rw [h.length]; exact hle)]

end KeepsReads

theorem ndirty_markDirty : vm.markDirty.ndirty ≠ 0 := by
  unfold markDirty
  split
  · rename_i h
    intro hz
    have hn : vm.ndirty ≠ 0xFFFFFFFF := by simpa using h
    apply hn
    have hsub : vm.ndirty = vm.ndirty + 1 - 1 := by simp
    rw [hsub, show vm.ndirty + 1 = 0 from hz]
    rfl
  · rename_i h
    have hn : vm.ndirty = 0xFFFFFFFF := by simpa using h
    rw [hn]
    decide

theorem dirty_noteWrite (x : ObjId) (name : USym) (existed : Bool) :
    (vm.noteWrite x name existed).ndirty ≠ 0 ↔ vm.ndirty ≠ 0 ∨ (vm.obj x).watched = true := by
  have hdirty : (vm.noteDirty x).ndirty ≠ 0 ↔ vm.ndirty ≠ 0 ∨ (vm.obj x).watched = true := by
    unfold noteDirty
    by_cases hx : (vm.obj x).watched = true
    · rw [if_pos hx]
      exact iff_of_true ndirty_markDirty (.inr hx)
    · rw [if_neg hx]
      exact ⟨.inl, fun h => h.resolve_right hx⟩
  unfold noteWrite
  split
  · rw [← hdirty]
    unfold slotInstalled
    repeat' split
    all_goals exact Iff.rfl
  · exact hdirty

theorem ndirty_setLocal (h : vm.setLocal x s cell granted = some (vm', i)) :
    vm'.ndirty = vm.ndirty := by
  obtain ⟨o, structural, -, rfl⟩ := of_setLocal h
  unfold retire
  repeat' split
  all_goals rfl

theorem hasRoom_of_setLocal (h : vm.setLocal x s cell granted = some (vm', i)) :
    (vm.obj x).hasRoom s.name = true := by
  obtain ⟨o, structural, hset, rfl⟩ := of_setLocal h
  exact UObject.hasRoom_of_setLocal (by rw [hset]; rfl)

structure Assigned (vm : UVM L) (x : ObjId) (name : USym) (vm' : UVM L) : Prop where
  keeps : KeepsReads (fun y m => y = x ∧ m = name) vm vm'
  room : (vm.obj x).hasRoom name = true
  dirty : vm'.ndirty ≠ 0 ↔ vm.ndirty ≠ 0 ∨ (vm.obj x).watched = true

theorem assigned_storeNoted {site : Option Nat}
    (h : vm.storeNoted x name v site granted = some vm') : Assigned vm x name vm' := by
  have hkeeps : KeepsReads (fun y m => y = x ∧ m = name) vm vm' := .storeNoted h ⟨rfl, rfl⟩
  unfold storeNoted at h
  obtain ⟨⟨vm₁, i⟩, hset, hout⟩ := Option.map_eq_some_iff.mp h
  refine ⟨hkeeps, hasRoom_of_setLocal hset, ?_⟩
  have hwatched : (vm₁.obj x).watched = (vm.obj x).watched :=
    (KeepsReads.setLocal (P := fun _ _ => True) hset trivial).watched x
  cases hout
  rw [dirty_noteWrite, ← ndirty_setLocal hset, ← hwatched]
  cases site <;> exact Iff.rfl

theorem assigned_of_writes {may : UVM L → ObjId → USym → Prop} (h : Writes may v vm vm') :
    Walked vm vm' ∨ ∃ x name, Assigned vm x name vm' := by
  cases h with
  | nothing hw => exact .inl hw
  | @store vm₁ x name site granted hw _ hs =>
    obtain ⟨hkeeps, hroom, hdirty⟩ := assigned_storeNoted hs
    refine .inr ⟨x, name, (KeepsReads.of_walked hw).trans hkeeps, ?_, ?_⟩
    · rw [hw.obj x] at hroom
      exact hroom
    · rw [hdirty, hw.watched, hw.rest]
  | @inPlace vm₁ x i s hw hs _ hout =>
    have hstore := KeepsReads.assign hs v (P := fun y m => y = x ∧ m = s.name) ⟨rfl, rfl⟩
    have hkeeps := (KeepsReads.of_walked hw).trans (hstore.trans (.noteWrite x s.name true))
    refine .inr ⟨x, s.name, hout ▸ hkeeps, ?_, ?_⟩
    · have hmem : s ∈ (vm.obj x).slots := by
        rw [hw.obj x] at hs
        exact List.mem_of_getElem? hs
      have hlocal : ((vm.obj x).local? s.name).isSome = true :=
        List.find?_isSome.mpr ⟨s, hmem, by simp⟩
      simp [UObject.hasRoom, hlocal]
    · rw [hout]
      unfold assignNoted
      rw [dirty_noteWrite, hstore.watched x, hw.watched x, hw.rest]
      rfl

theorem readIn_storeNoted (hx : x < vm.objs.length)
    (h : vm.storeNoted x name v none granted = some vm') :
    readIn (vm'.obj x).slots name = some (.value v) := by
  unfold storeNoted at h
  obtain ⟨⟨vm₁, i⟩, hset, hout⟩ := Option.map_eq_some_iff.mp h
  cases hout
  rw [(KeepsReads.noteWrite (P := fun _ _ => False) x name _).reads x name id]
  show readIn (vm₁.obj x).slots name = _
  obtain ⟨o, structural, hstored, hvm⟩ := of_setLocal hset
  have hown := (UObject.wrote_of_setLocal hstored).own
  have hobj : vm₁.obj x = o := by
    rw [← obj_modify_self vm hx fun _ => o, hvm]
    split
    · rw [obj, objs_retire]
      rfl
    · rfl
  rw [hobj]
  show (o.local? name).map USlot.read = _
  rw [show o.local? name = _ from hown]
  unfold UObject.written
  cases (vm.obj x).local? (USlot.make name v {}).name <;> rfl

theorem exists_change (hx : x < vm.objs.length) (hsearched : x ∈ vm.searched o name)
    (hroom : (vm.obj x).hasRoom name = true) :
    ∃ v vm', vm.assign true (.setSlot (.obj x) (some name) v) = (vm', .ok .stored) ∧
      vm'.read o name ≠ vm.read o name ∧
      (vm'.ndirty ≠ 0 ↔ vm.ndirty ≠ 0 ∨ (vm.obj x).watched = true) := by
  -- either of two values differs from what is read now
  have hvalue : ∃ v : UValue L, vm.read o name ≠ some (.value v) := by
    by_cases h : vm.read o name = some (.value .nil)
    · exact ⟨.void, by rw [h]; intro heq; cases heq⟩
    · exact ⟨.nil, h⟩
  obtain ⟨v, hv⟩ := hvalue
  have hset : ((vm.obj x).setLocal (.make name v {}) true).isSome = true := by
    rw [UObject.setLocal_isSome]
    exact hroom
  obtain ⟨vm', hstore⟩ : ∃ vm', vm.storeNoted x name v none true = some vm' := by
    obtain ⟨out, hout⟩ := Option.isSome_iff_exists.mp hset
    unfold storeNoted setLocal
    rw [hout]
    exact ⟨_, rfl⟩
  refine ⟨v, vm', ?_, ?_, (assigned_storeNoted hstore).dirty⟩
  · show vm.storeOr _ (vm.storeNoted x name v none true) = _
    rw [hstore]
    rfl
  · have hkeeps := (assigned_storeNoted hstore).keeps
    obtain ⟨s, hs, hsread⟩ := Option.map_eq_some_iff.mp (readIn_storeNoted hx hstore)
    have hother : ∀ y, y ≠ x →
        ((vm'.obj y).local? name).isSome = ((vm.obj y).local? name).isSome := by
      intro y hy
      have hreads := congrArg Option.isSome (hkeeps.reads y name fun h => hy h.1)
      simpa only [readIn, UObject.local?, Option.isSome_map] using hreads
    have hlookup := lookup_of_stored hkeeps.length hkeeps.protos hsearched hs hother
    intro heq
    apply hv
    rw [← heq, read, hlookup]
    exact congrArg some hsread

theorem assigned_of_change {a : Assignment L}
    (hchange : (vm.assign granted a).1.read o name ≠ vm.read o name) :
    ∃ x ∈ vm.searched o name, x < vm.objs.length ∧ (vm.obj x).hasRoom name = true ∧
      ((vm.assign granted a).1.ndirty ≠ 0 ↔ vm.ndirty ≠ 0 ∨ (vm.obj x).watched = true) := by
  rcases assigned_of_writes (writes_any a granted) with hw | ⟨x, n, hassigned⟩
  · exact absurd ((KeepsReads.of_walked (P := fun _ _ => False) hw).read_eq fun _ _ _ => id) hchange
  · -- were the place off the walk, the lookup would read what it read
    by_contra hnone
    apply hchange
    refine hassigned.keeps.read_eq fun y hy hlt hplace => hnone ?_
    obtain ⟨rfl, rfl⟩ := hplace
    exact ⟨y, hy, hlt, hassigned.room, hassigned.dirty⟩

/-- The evaluation of a condition is a run with observation on.  After it, and after anything else
has happened to the objects, every assignment that changes the answer of one of its lookups leaves
the watch state dirty, exactly when the watch state is dirty already or every object the lookups'
walks search now is watched: the ones the evaluation observed are, so the condition is about the
objects the walks pass over, as far as a slot of that name can be stored on them. -/
theorem assignments_noticed_iff {vm₀ vm₁ vm₂ : UVM L} {cond later : List (Access L)}
    {ls ls' : List Lookup} (hobs : vm₀.observing = true) (hinside : ∀ a ∈ cond, a.inside = true)
    (hcond : vm₀.run cond = some (vm₁, ls)) (hlater : vm₁.run later = some (vm₂, ls')) :
    (∀ (a : Assignment L) (granted : Bool), ∀ l ∈ ls,
        (vm₂.assign granted a).1.read l.recv l.name ≠ vm₂.read l.recv l.name →
        (vm₂.assign granted a).1.ndirty ≠ 0) ↔
      vm₂.ndirty ≠ 0 ∨ ∀ l ∈ ls, ∀ x ∈ vm₂.searched l.recv l.name, x ∉ l.observed →
        x < vm₂.objs.length → (vm₂.obj x).hasRoom l.name = true → (vm₂.obj x).watched = true := by
  have hobserved : ∀ l ∈ ls, ∀ x ∈ l.observed, (vm₂.obj x).watched = true := fun l hl x hx =>
    run_watched hlater (run_observed hobs hinside hcond l hl x hx)
  constructor
  · intro hall
    by_cases hdirty : vm₂.ndirty = 0
    · refine .inr fun l hl x hx _ hlt hroom => ?_
      obtain ⟨v, vm₃, hassign, hread, hiff⟩ := exists_change hlt hx hroom
      have h := hall (.setSlot (.obj x) (some l.name) v) true l hl (by rw [hassign]; exact hread)
      rw [hassign] at h
      exact (hiff.mp h).resolve_left fun h => h hdirty
    · exact .inl hdirty
  · intro hcases a granted l hl hchange
    obtain ⟨x, hx, hlt, hroom, hiff⟩ := assigned_of_change hchange
    refine hiff.mpr (hcases.imp_right fun hall => ?_)
    by_cases hmem : x ∈ l.observed
    · exact hobserved l hl x hmem
    · exact hall l hl x hx hmem hlt hroom

end UVM

def protoChain : List (Access noCode) :=
  [.new none, .new (some 0), .new (some 1), .setLocal 0 (.make [120] (.bool true) {}) true true]

def readX : List (Access noCode) := [.getslot false (some [120]) (.obj 2) none]

/-- A condition that reads `x` where it is stored is told of every assignment that matters. -/
theorem UVM.assignments_noticed_iff_own : ∃ (vm₀ vm₁ : UVM noCode) (ls : List Lookup),
    UVM.run {} (protoChain ++ [.observing true]) = some (vm₀, []) ∧
    vm₀.run [.getslot false (some [120]) (.obj 0) none] = some (vm₁, ls) ∧ vm₁.ndirty = 0 ∧
    ∀ (a : Assignment noCode) (granted : Bool), ∀ l ∈ ls,
      (vm₁.assign granted a).1.read l.recv l.name ≠ vm₁.read l.recv l.name →
      (vm₁.assign granted a).1.ndirty ≠ 0 := by
  have hinside : ∀ a ∈ [Access.getslot (L := noCode) false (some [120]) (.obj 0) none],
      a.inside = true := by simp [Access.inside]
  obtain ⟨vm₀, vm₁, hboot, hobs, hcond, hclean, hwatched⟩ : ∃ vm₀ vm₁ : UVM noCode,
      UVM.run {} (protoChain ++ [.observing true]) = some (vm₀, []) ∧ vm₀.observing = true ∧
      vm₀.run [.getslot false (some [120]) (.obj 0) none]
        = some (vm₁, [⟨0, [120], [0, 0]⟩]) ∧ vm₁.ndirty = 0 ∧
      ∀ x ∈ vm₁.searched 0 [120], x ∉ [0, 0] → x < vm₁.objs.length →
        (vm₁.obj x).hasRoom [120] = true → (vm₁.obj x).watched = true :=
    ⟨_, _, rfl, rfl, rfl, rfl, by decide⟩
  have hnone : vm₁.run [] = some (vm₁, []) := rfl
  refine ⟨vm₀, vm₁, _, hboot, hcond, hclean, ?_⟩
  refine (UVM.assignments_noticed_iff hobs hinside hcond hnone).mpr (.inr ?_)
  simpa using hwatched

/-- The slot is read off the first object through the second; then `setSlot` gives the second a slot
of that name.  The condition would now read the other value, and nothing is dirty. -/
theorem UVM.passed_over_prototype_unnoticed : ∃ (vm₀ vm₁ : UVM noCode) (ls : List Lookup),
    UVM.run {} (protoChain ++ [.observing true]) = some (vm₀, []) ∧
    vm₀.run readX = some (vm₁, ls) ∧ ls = [⟨2, [120], [2, 0]⟩] ∧
    vm₁.read 2 [120] = some (.value (.bool true)) ∧
    (vm₁.assign true (.setSlot (.obj 1) (some [120]) (.bool false))).1.read 2 [120]
      = some (.value (.bool false)) ∧
    (vm₁.assign true (.setSlot (.obj 1) (some [120]) (.bool false))).1.ndirty = 0 :=
  ⟨_, _, _, rfl, rfl, rfl, rfl, rfl, rfl⟩

end Urbi
