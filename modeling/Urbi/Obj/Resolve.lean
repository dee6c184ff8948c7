import Urbi.Obj.Heap
import Urbi.Lib.Search

/-!
# Slot resolution

`uobj_resolve` walks the prototype graph depth first, marking what it searches with the VM's visit
stamp.  `lookup` is that walk with the marks kept beside it.  The two agree whenever no object carries
the stamp the walk takes.
-/

namespace Urbi

open Lib

variable {L : CodeBase}
variable {x : ObjId} {flagging : Bool} {stamp : UInt32} {fuel : Nat} {stack : List ObjId}
  {ref : UObjSlotRef}

def uresolveStackCap : Nat := 64

structure UObjSlotRef where
  owner : ObjId
  index : Nat
  deriving DecidableEq, Repr

namespace UVM

variable (vm : UVM L)

/-- Zero means never visited, so a wrap skips it. -/
def nextStamp : UInt32 :=
  let s := vm.stats.visitStamp + 1
  if s = 0 then 1 else s

def startWalk : UVM L :=
  { vm with stats.visitStamp := vm.nextStamp, stats.resolveOverflow := false }

def walkFuel : Nat := 1 + unpushed (fun x => (vm.obj x).protos) (List.range vm.objs.length) []

/-- The mark, and the cache flag when the walk fills a cache entry. -/
def visitObj (cur : ObjId) (stamp : UInt32) (cached : Bool) : UVM L :=
  vm.modify cur fun o => { o with visit := stamp, cached := o.cached || cached }

def resolveLoop (o : ObjId) (name : USym) (flagging : Bool) (stamp : UInt32) :
    Nat → UVM L → List ObjId → UVM L × Option UObjSlotRef
  | _, vm, [] => (vm, none)
  | 0, vm, _ :: _ => (vm, none)
  | fuel + 1, vm, cur :: rest =>
    if (vm.obj cur).visit = stamp then resolveLoop o name flagging stamp fuel vm rest
    else match (vm.obj cur).findLocal name with
      | some i => (vm.visitObj cur stamp (flagging && cur != o), some ⟨cur, i⟩)
      | none =>
        if rest.length + (vm.obj cur).protos.length ≤ uresolveStackCap then
          resolveLoop o name flagging stamp fuel (vm.visitObj cur stamp flagging)
            ((vm.obj cur).protos ++ rest)
        else ({ vm.visitObj cur stamp flagging with stats.resolveOverflow := true }, none)

def resolveImpl (o : ObjId) (name : USym) (flagging : Bool) : UVM L × Option UObjSlotRef :=
  resolveLoop o name flagging vm.nextStamp vm.walkFuel vm.startWalk [o]

def uobjResolve (o : ObjId) (name : USym) : UVM L × Option UObjSlotRef :=
  vm.resolveImpl o name false

def uobjResolveFlagging (o : ObjId) (name : USym) : UVM L × Option UObjSlotRef :=
  vm.resolveImpl o name true

theorem resolve_either (o : ObjId) (name : USym) (flagging : Bool) :
    (if flagging then vm.uobjResolveFlagging o name else vm.uobjResolve o name) =
      vm.resolveImpl o name flagging := by
  cases flagging <;> rfl

def isALoop (proto : ObjId) (stamp : UInt32) : Nat → UVM L → List ObjId → UVM L × Bool
  | _, vm, [] => (vm, false)
  | 0, vm, _ :: _ => (vm, false)
  | fuel + 1, vm, cur :: rest =>
    if (vm.obj cur).visit = stamp then isALoop proto stamp fuel vm rest
    else if cur = proto then (vm.visitObj cur stamp false, true)
    else if rest.length + (vm.obj cur).protos.length ≤ uresolveStackCap then
      isALoop proto stamp fuel (vm.visitObj cur stamp false) ((vm.obj cur).protos ++ rest)
    else ({ vm.visitObj cur stamp false with stats.resolveOverflow := true }, false)

def uobjIsA (o proto : ObjId) : UVM L × Bool :=
  isALoop proto vm.nextStamp vm.walkFuel vm.startWalk [o]

def walk (o : ObjId) (name : USym) : Search ObjId :=
  search (fun x => (vm.obj x).protos) (fun x => ((vm.obj x).local? name).isSome)
    uresolveStackCap vm.walkFuel [] [o]

def searched (o : ObjId) (name : USym) : List ObjId := (vm.walk o name).searched

def lookup (o : ObjId) (name : USym) : Option (USlot L) :=
  (vm.walk o name).found.bind fun x => (vm.obj x).local? name

/-! ## What a walk writes -/

structure Walked (vm vm' : UVM L) : Prop where
  length : vm'.objs.length = vm.objs.length
  obj : ∀ x, vm'.obj x = { vm.obj x with visit := (vm'.obj x).visit, cached := (vm'.obj x).cached }
  -- a cache flag is never taken back
  flags : ∀ x, (vm.obj x).cached = true → (vm'.obj x).cached = true
  epoch : vm'.stats.slotEpoch = vm.stats.slotEpoch
  rest : vm' = { vm with objs := vm'.objs, stats := vm'.stats }

namespace Walked

variable {vm} {vm' vm'' : UVM L}

theorem refl : Walked vm vm := ⟨rfl, fun _ => rfl, fun _ h => h, rfl, rfl⟩

theorem trans (h : Walked vm vm') (h' : Walked vm' vm'') : Walked vm vm'' where
  length := h'.length.trans h.length
  obj x := by
    have hx := h'.obj x
    rw [h.obj x] at hx
    exact hx
  flags x hx := h'.flags x (h.flags x hx)
  epoch := h'.epoch.trans h.epoch
  rest := by
    rw [h'.rest, h.rest]

theorem protos (h : Walked vm vm') (x : ObjId) : (vm'.obj x).protos = (vm.obj x).protos := by
  rw [h.obj x]

theorem local? (h : Walked vm vm') (x : ObjId) (name : USym) :
    (vm'.obj x).local? name = (vm.obj x).local? name := by
  rw [h.obj x]
  rfl

theorem findLocal (h : Walked vm vm') (x : ObjId) (name : USym) :
    (vm'.obj x).findLocal name = (vm.obj x).findLocal name := by
  rw [h.obj x]
  rfl

theorem watched (h : Walked vm vm') (x : ObjId) : (vm'.obj x).watched = (vm.obj x).watched := by
  rw [h.obj x]

end Walked

theorem walked_visitObj (cur : ObjId) (stamp : UInt32) (cached : Bool) :
    Walked vm (vm.visitObj cur stamp cached) where
  length := length_modify _ _ _
  obj x := by
    unfold visitObj
    rcases vm.obj_modify_cases cur x _ with heq | ⟨rfl, -, heq⟩ <;> rw [heq]
  flags x hx := by
    unfold visitObj
    rcases vm.obj_modify_cases cur x _ with heq | ⟨rfl, -, heq⟩ <;> rw [heq]
    · exact hx
    · show ((vm.obj x).cached || cached) = true
      rw [hx, Bool.true_or]
  epoch := rfl
  rest := rfl

theorem visit_visitObj {cur : ObjId} (hx : x < vm.objs.length) (stamp : UInt32) (cached : Bool) :
    ((vm.visitObj cur stamp cached).obj x).visit = if x = cur then stamp else (vm.obj x).visit := by
  unfold visitObj
  by_cases h : x = cur
  · subst h
    rw [obj_modify_self _ hx, if_pos rfl]
  · rw [obj_modify_ne _ h, if_neg h]

theorem walked_resolveLoop (o : ObjId) (name : USym) (flagging : Bool) (stamp : UInt32) (fuel : Nat)
    (stack : List ObjId) : Walked vm (resolveLoop o name flagging stamp fuel vm stack).1 := by
  fun_induction resolveLoop o name flagging stamp fuel vm stack with
  | case1 | case2 => exact .refl
  | case3 _ _ _ _ _ ih => exact ih
  | case4 _ vm cur => exact walked_visitObj vm cur stamp _
  | case5 _ vm cur _ _ _ _ ih => exact (walked_visitObj vm cur stamp flagging).trans ih
  | case6 _ vm cur =>
    exact (walked_visitObj vm cur stamp flagging).trans ⟨rfl, fun _ => rfl, fun _ h => h, rfl, rfl⟩

theorem walked_startWalk : Walked vm vm.startWalk := ⟨rfl, fun _ => rfl, fun _ h => h, rfl, rfl⟩

theorem walked_resolveImpl (o : ObjId) (name : USym) (flagging : Bool) :
    Walked vm (vm.resolveImpl o name flagging).1 :=
  vm.walked_startWalk.trans (walked_resolveLoop _ _ _ _ _ _ _)

theorem walked_isALoop (proto : ObjId) (stamp : UInt32) (fuel : Nat) (stack : List ObjId) :
    Walked vm (isALoop proto stamp fuel vm stack).1 := by
  fun_induction isALoop proto stamp fuel vm stack with
  | case1 | case2 => exact .refl
  | case3 _ _ _ _ _ ih => exact ih
  | case4 _ vm cur => exact walked_visitObj vm _ stamp false
  | case5 _ vm cur _ _ _ _ ih => exact (walked_visitObj vm cur stamp false).trans ih
  | case6 _ vm cur =>
    exact (walked_visitObj vm cur stamp false).trans ⟨rfl, fun _ => rfl, fun _ h => h, rfl, rfl⟩

theorem walked_isA (o proto : ObjId) : Walked vm (vm.uobjIsA o proto).1 :=
  vm.walked_startWalk.trans (walked_isALoop _ _ _ _ _)

theorem findLocal_of_resolveLoop {o : ObjId} {name : USym}
    (h : (resolveLoop o name flagging stamp fuel vm stack).2 = some ref) :
    (vm.obj ref.owner).findLocal name = some ref.index := by
  fun_induction resolveLoop o name flagging stamp fuel vm stack with
  | case1 | case2 | case6 => cases h
  | case3 _ _ _ _ _ ih => exact ih h
  | case4 _ vm cur _ _ i hfind =>
    cases h
    exact hfind
  | case5 _ vm cur _ _ _ _ ih =>
    rw [← (vm.walked_visitObj cur stamp flagging).findLocal]
    exact ih h

theorem findLocal_of_resolveImpl {o : ObjId} {name : USym}
    (h : (vm.resolveImpl o name flagging).2 = some ref) :
    (vm.obj ref.owner).findLocal name = some ref.index := by
  have hfind := vm.startWalk.findLocal_of_resolveLoop h
  rwa [vm.walked_startWalk.findLocal] at hfind

/-! ## The walk answers as the search does -/

def refOf (name : USym) (owner : ObjId) : Option UObjSlotRef :=
  ((vm.obj owner).findLocal name).map fun i => ⟨owner, i⟩

theorem Walked.refOf_eq {vm vm' : UVM L} (h : Walked vm vm') (name : USym) (x : ObjId) :
    vm'.refOf name x = vm.refOf name x := by
  unfold UVM.refOf
  rw [h.findLocal]

/-- The objects of the heap that carry the stamp. -/
def Marks (vm : UVM L) (stamp : UInt32) (marked : List ObjId) : Prop :=
  ∀ x, x < vm.objs.length → ((vm.obj x).visit = stamp ↔ x ∈ marked)

section Marks

variable {vm} {marked : List ObjId} {cur : ObjId}

theorem Marks.visitObj (h : vm.Marks stamp marked) (cur : ObjId) (cached : Bool) :
    (vm.visitObj cur stamp cached).Marks stamp (cur :: marked) := by
  intro x hx
  rw [(vm.walked_visitObj cur stamp cached).length] at hx
  rw [visit_visitObj _ hx, List.mem_cons]
  by_cases hxc : x = cur
  · simp [hxc]
  · simp [hxc, h x hx]

/-- An address outside the heap carries no mark. -/
theorem Marks.outside (h : vm.Marks stamp marked) (hle : vm.objs.length ≤ cur) (cached : Bool) :
    (vm.visitObj cur stamp cached).Marks stamp marked := by
  intro x hx
  rw [(vm.walked_visitObj cur stamp cached).length] at hx
  have hne : x ≠ cur := by omega
  rw [visit_visitObj _ hx, if_neg hne]
  exact h x hx

end Marks

theorem resolveLoop_eq_search {o : ObjId} {name : USym} {marked : List ObjId}
    (hstamp : stamp ≠ 0) (hstack : stack.length ≤ uresolveStackCap) (hmark : vm.Marks stamp marked) :
    let r := resolveLoop o name flagging stamp fuel vm stack
    let s := search (fun x => (vm.obj x).protos) (fun x => ((vm.obj x).local? name).isSome)
      uresolveStackCap fuel marked stack
    r.2 = s.found.bind (vm.refOf name) ∧ r.1.Marks stamp s.searched ∧
      r.1.stats.resolveOverflow = (vm.stats.resolveOverflow || s.overflowed) := by
  intro r s
  unfold r s
  clear r s
  fun_induction resolveLoop o name flagging stamp fuel vm stack generalizing marked with
  | case1 | case2 => rw [search]; exact ⟨rfl, hmark, (Bool.or_false _).symm⟩
  | case3 fuel vm cur rest hvisit ih =>
    have hlt : cur < vm.objs.length := by
      by_contra hge
      rw [vm.obj_of_le (Nat.le_of_not_lt hge)] at hvisit
      exact hstamp hvisit.symm
    rw [search, if_pos ((hmark cur hlt).mp hvisit)]
    exact ih (by simp at hstack; omega) hmark
  | case4 fuel vm cur rest hvisit i hfind =>
    obtain ⟨s, hs, -⟩ := UObject.local?_of_findLocal hfind
    have hnot : cur ∉ marked := fun h => hvisit ((hmark cur (vm.lt_of_local? hs)).mpr h)
    rw [search, if_neg hnot, if_pos (by rw [hs]; rfl)]
    refine ⟨?_, hmark.visitObj cur _, (Bool.or_false _).symm⟩
    show some _ = (vm.refOf name cur)
    rw [refOf, hfind]
    rfl
  | case5 fuel vm cur rest hvisit hfind hfit ih =>
    have hmiss : ¬ ((vm.obj cur).local? name).isSome := by
      rw [UObject.findLocal_eq_none.mp hfind]
      simp
    have hwalk := vm.walked_visitObj cur stamp flagging
    have hlen : ((vm.obj cur).protos ++ rest).length ≤ uresolveStackCap := by
      rw [List.length_append, Nat.add_comm]
      exact hfit
    simp only [hwalk.protos, hwalk.local?, hwalk.refOf_eq] at ih
    by_cases hmem : cur ∈ marked
    · -- marked by the search alone: an address outside the heap, which has nothing to push
      have hle : vm.objs.length ≤ cur := by
        by_contra hlt
        exact hvisit ((hmark cur (by omega)).mpr hmem)
      have hnone : (vm.obj cur).protos = [] := by rw [vm.obj_of_le hle]
      rw [search, if_pos hmem]
      rw [hnone] at ih hlen ⊢
      exact ih hlen (hmark.outside hle flagging)
    · rw [search, if_neg hmem, if_neg hmiss, if_pos hfit]
      exact ih hlen (hmark.visitObj cur flagging)
  | case6 fuel vm cur rest hvisit hfind hfit =>
    have hmiss : ¬ ((vm.obj cur).local? name).isSome := by
      rw [UObject.findLocal_eq_none.mp hfind]
      simp
    have hlt : cur < vm.objs.length := by
      by_contra hge
      apply hfit
      rw [vm.obj_of_le (Nat.le_of_not_lt hge)]
      simp at hstack ⊢
      omega
    have hnot : cur ∉ marked := fun h => hvisit ((hmark cur hlt).mpr h)
    rw [search, if_neg hnot, if_neg hmiss, if_neg hfit]
    exact ⟨rfl, hmark.visitObj cur flagging, (Bool.or_true _).symm⟩

theorem nextStamp_ne_zero : vm.nextStamp ≠ 0 := by
  unfold nextStamp
  dsimp only
  split
  · decide
  · assumption

def stamped : List ObjId :=
  (List.range vm.objs.length).filter fun x => (vm.obj x).visit = vm.nextStamp

theorem mem_stamped : x ∈ vm.stamped ↔ x < vm.objs.length ∧ (vm.obj x).visit = vm.nextStamp := by
  simp [stamped]

theorem marks_stamped : vm.startWalk.Marks vm.nextStamp vm.stamped := by
  intro x hx
  rw [mem_stamped]
  exact ⟨fun h => ⟨hx, h⟩, fun h => h.2⟩

theorem resolveImpl_eq_search (o : ObjId) (name : USym) (flagging : Bool) :
    let r := vm.resolveImpl o name flagging
    let s := search (fun x => (vm.obj x).protos) (fun x => ((vm.obj x).local? name).isSome)
      uresolveStackCap vm.walkFuel vm.stamped [o]
    r.2 = s.found.bind (vm.refOf name) ∧
      (∀ x, x < vm.objs.length → ((r.1.obj x).visit = vm.nextStamp ↔ x ∈ s.searched)) ∧
      r.1.stats.resolveOverflow = s.overflowed := by
  have hwalk := vm.walked_startWalk
  have hone : [o].length ≤ uresolveStackCap := by simp [uresolveStackCap]
  have heq : (resolveLoop o name flagging vm.nextStamp vm.walkFuel vm.startWalk [o]).2 = _ ∧ _ ∧ _ :=
    vm.startWalk.resolveLoop_eq_search vm.nextStamp_ne_zero hone vm.marks_stamped
  simp only [hwalk.protos, hwalk.local?, hwalk.refOf_eq] at heq
  have hlen := (vm.walked_resolveImpl o name flagging).length
  refine ⟨heq.1, fun x hx => heq.2.1 x (hlen ▸ hx), heq.2.2.trans ?_⟩
  rw [show vm.startWalk.stats.resolveOverflow = false from rfl, Bool.false_or]

theorem stamped_eq_nil (hfresh : ∀ x, x < vm.objs.length → (vm.obj x).visit ≠ vm.nextStamp) :
    vm.stamped = [] := by
  rw [List.eq_nil_iff_forall_not_mem]
  intro x hx
  rw [mem_stamped] at hx
  exact hfresh x hx.1 hx.2

theorem resolveImpl_eq_walk (hfresh : ∀ x, x < vm.objs.length → (vm.obj x).visit ≠ vm.nextStamp)
    (o : ObjId) (name : USym) (flagging : Bool) :
    (vm.resolveImpl o name flagging).2 = (vm.walk o name).found.bind (vm.refOf name) ∧
      ∀ x, x < vm.objs.length → (((vm.resolveImpl o name flagging).1.obj x).visit = vm.nextStamp ↔
          x ∈ vm.searched o name) := by
  have heq := vm.resolveImpl_eq_search o name flagging
  rw [vm.stamped_eq_nil hfresh] at heq
  exact ⟨heq.1, heq.2.1⟩

theorem flagged_resolveLoop {o : ObjId} {name : USym}
    (hvisit : ((resolveLoop o name true stamp fuel vm stack).1.obj x).visit = stamp) :
    (vm.obj x).visit = stamp ∨
      ((resolveLoop o name true stamp fuel vm stack).1.obj x).cached = true ∨
      ∃ i, (resolveLoop o name true stamp fuel vm stack).2 = some ⟨o, i⟩ := by
  -- what one pop leaves on the object it marks
  have hpop : ∀ {vm : UVM L} (cur : ObjId) (cached : Bool),
      ((vm.visitObj cur stamp cached).obj x).visit = stamp → (vm.obj x).visit = stamp ∨
        x = cur ∧ (cached = true → ((vm.visitObj cur stamp cached).obj x).cached = true) := by
    intro vm cur cached h
    unfold visitObj at h ⊢
    rcases vm.obj_modify_cases cur x _ with heq | ⟨rfl, -, heq⟩ <;> rw [heq] at h ⊢
    · exact .inl h
    · refine .inr ⟨rfl, fun hc => ?_⟩
      show ((vm.obj x).cached || cached) = true
      rw [hc, Bool.or_true]
  fun_induction resolveLoop o name true stamp fuel vm stack with
  | case1 | case2 => exact .inl hvisit
  | case3 _ _ _ _ _ ih => exact ih hvisit
  | case4 fuel vm cur rest _ i _ =>
    rcases hpop cur _ hvisit with h | ⟨rfl, h⟩
    · exact .inl h
    · by_cases hxo : x = o
      · subst hxo
        exact .inr (.inr ⟨i, rfl⟩)
      · exact .inr (.inl (h (by simpa using hxo)))
  | case5 fuel vm cur rest _ _ _ ih =>
    rcases ih hvisit with h | h
    · refine (hpop cur true h).imp_right fun ⟨_, hc⟩ => .inl ?_
      exact (walked_resolveLoop _ _ _ _ _ _ _).flags x (hc rfl)
    · exact .inr h
  | case6 fuel vm cur rest =>
    exact (hpop cur true hvisit).imp_right fun ⟨_, hc⟩ => .inl (hc rfl)

theorem flagged_resolveImpl (hfresh : ∀ x, x < vm.objs.length → (vm.obj x).visit ≠ vm.nextStamp)
    {o : ObjId} {name : USym} (h : (vm.resolveImpl o name true).2 = some ref)
    (hinherited : ref.owner ≠ o) (hx : x < vm.objs.length) (hsearched : x ∈ vm.searched o name) :
    ((vm.resolveImpl o name true).1.obj x).cached = true := by
  have hvisit := ((vm.resolveImpl_eq_walk hfresh o name true).2 x hx).mpr hsearched
  rcases vm.startWalk.flagged_resolveLoop hvisit with hold | hc | ⟨i, hi⟩
  · exact absurd hold (hfresh x hx)
  · exact hc
  · have hi : (vm.resolveImpl o name true).2 = some ⟨o, i⟩ := hi
    rw [h] at hi
    cases hi
    exact absurd rfl hinherited

theorem protos_of_not_mem (hx : x ∉ List.range vm.objs.length) : (vm.obj x).protos = [] := by
  rw [vm.obj_of_le (by simpa using hx)]

theorem le_walkFuel (o : ObjId) (marked : List ObjId) :
    [o].length + unpushed (fun x => (vm.obj x).protos) (List.range vm.objs.length) marked
      ≤ vm.walkFuel := by
  unfold walkFuel
  induction marked with
  | nil => exact Nat.le_refl _
  | cons a marked ih => exact Nat.le_trans (Nat.add_le_add_left unpushed_cons_le _) ih

theorem walk_add_fuel (o : ObjId) (name : USym) (more : Nat) :
    search (fun x => (vm.obj x).protos) (fun x => ((vm.obj x).local? name).isSome)
      uresolveStackCap (vm.walkFuel + more) [] [o] = vm.walk o name := by
  exact search_add_fuel (fun _ => vm.protos_of_not_mem) (vm.le_walkFuel o []) more

variable {vm} {vm' : UVM L} {o : ObjId} {name : USym}

theorem walk_congr (hsame : ∀ x ∈ vm.searched o name, (vm'.obj x).protos = (vm.obj x).protos ∧
        ((vm'.obj x).local? name).isSome = ((vm.obj x).local? name).isSome) :
    vm'.walk o name = vm.walk o name := by
  -- the two walks are given different numbers of pops, and neither needs more
  rw [← vm'.walk_add_fuel o name vm.walkFuel, ← vm.walk_add_fuel o name vm'.walkFuel,
    Nat.add_comm vm.walkFuel]
  apply search_congr_succ
  intro x hx
  rw [Nat.add_comm, vm.walk_add_fuel] at hx
  exact ⟨(hsame x hx).2, fun _ => (hsame x hx).1⟩

/-- A lookup depends on the slots of the objects it searches. -/
theorem lookup_congr {β : Type*} (f : USlot L → β)
    (hprotos : ∀ x, (vm'.obj x).protos = (vm.obj x).protos) (hsame : ∀ x ∈ vm.searched o name,
      ((vm'.obj x).local? name).map f = ((vm.obj x).local? name).map f) :
    (vm'.lookup o name).map f = (vm.lookup o name).map f := by
  have hsome : ∀ x ∈ vm.searched o name,
      ((vm'.obj x).local? name).isSome = ((vm.obj x).local? name).isSome := fun x hx => by
    rw [← Option.isSome_map (f := f), hsame x hx, Option.isSome_map]
  unfold lookup
  rw [walk_congr fun x hx => ⟨hprotos x, hsome x hx⟩]
  cases hfound : (vm.walk o name).found with
  | none => rfl
  | some x => exact hsame x (search_found hfound).2

theorem lookup_of_stored (hlen : vm'.objs.length = vm.objs.length)
    (hprotos : ∀ x, (vm'.obj x).protos = (vm.obj x).protos) {s : USlot L}
    (hx : x ∈ vm.searched o name) (hs : (vm'.obj x).local? name = some s)
    (hother : ∀ y, y ≠ x → ((vm'.obj y).local? name).isSome = ((vm.obj y).local? name).isSome) :
    vm'.lookup o name = some s := by
  have hfound : (vm'.walk o name).found = some x := by
    unfold walk walkFuel
    simp only [hlen, hprotos]
    exact search_found_of_goal hx List.not_mem_nil (by rw [hs]; rfl) hother
  rw [lookup, hfound]
  exact hs

end UVM

end Urbi
