import Urbi.Obj.Watched

/-!
# Resolution order

As long as its stack has room, a resolution is the recursive walk the language describes: an object's
own slots, then its prototypes in list order, each object considered once.
-/

namespace Urbi

open Lib Relation

variable {L : CodeBase}

namespace UVM

variable (vm : UVM L)

def Reaches (o x : ObjId) : Prop := ReflTransGen (fun a b => b ∈ (vm.obj a).protos) o x

def WalkOrder (o : ObjId) (order : List ObjId) : Prop :=
  Preorder (fun x => (vm.obj x).protos) [] [o] order

def WalkFits (o : ObjId) (name : USym) : Prop :=
  Lib.Fits (fun x => (vm.obj x).protos) (fun x => ((vm.obj x).local? name).isSome) uresolveStackCap []
    [o]

theorem resolveLoop_add_fuel {o : ObjId} {name : USym} {flagging : Bool} {stamp : UInt32}
    {fuel : Nat} {stack marked : List ObjId}
    (hmark : vm.Marks stamp marked) (hfuel : stack.length +
      unpushed (fun x => (vm.obj x).protos) (List.range vm.objs.length) marked ≤ fuel)
    (more : Nat) : resolveLoop o name flagging stamp (fuel + more) vm stack =
      resolveLoop o name flagging stamp fuel vm stack := by
  fun_induction resolveLoop o name flagging stamp fuel vm stack generalizing marked with
  | case1 => rw [resolveLoop]
  | case2 => simp at hfuel
  | case3 fuel vm cur rest hvisit ih =>
    rw [Nat.succ_add_eq_add_succ, Nat.add_succ, resolveLoop, if_pos hvisit]
    exact ih hmark (by simp at hfuel; omega)
  | case4 fuel vm cur rest hvisit i hfind =>
    rw [Nat.succ_add_eq_add_succ, Nat.add_succ, resolveLoop, if_neg hvisit, hfind]
  | case5 fuel vm cur rest hvisit hfind hfit ih =>
    rw [Nat.succ_add_eq_add_succ, Nat.add_succ, resolveLoop, if_neg hvisit, hfind]
    simp only [if_pos hfit]
    have hwalk := vm.walked_visitObj cur stamp flagging
    simp only [hwalk.protos, hwalk.length] at ih
    by_cases hlt : cur < vm.objs.length
    · have hnot : cur ∉ marked := fun h => hvisit ((hmark cur hlt).mpr h)
      have hpaid := unpushed_push (fun _ => vm.protos_of_not_mem) hnot
      apply ih (hmark.visitObj cur flagging)
      simp at hfuel ⊢
      omega
    · -- outside the heap there is nothing to push
      have hle : vm.objs.length ≤ cur := Nat.le_of_not_lt hlt
      have hnone : (vm.obj cur).protos = [] := by rw [vm.obj_of_le hle]
      rw [hnone] at ih ⊢
      apply ih (hmark.outside hle flagging)
      simp at hfuel ⊢
      omega
  | case6 fuel vm cur rest hvisit hfind hfit =>
    rw [Nat.succ_add_eq_add_succ, Nat.add_succ, resolveLoop, if_neg hvisit, hfind]
    simp only [if_neg hfit]

theorem resolveImpl_add_fuel (o : ObjId) (name : USym) (flagging : Bool) (more : Nat) :
    resolveLoop o name flagging vm.nextStamp (vm.walkFuel + more) vm.startWalk [o] =
      vm.resolveImpl o name flagging := by
  exact vm.startWalk.resolveLoop_add_fuel vm.marks_stamped (vm.le_walkFuel o vm.stamped) more

/-! ## The first object in preorder -/

variable {vm}

theorem exists_walkOrder (vm : UVM L) (o : ObjId) : ∃ order, vm.WalkOrder o order :=
  Preorder.exists_of_leaf (fun _ => vm.protos_of_not_mem) [] [o]

theorem found_walk {o : ObjId} {name : USym} {order : List ObjId} (hfits : vm.WalkFits o name)
    (horder : vm.WalkOrder o order) :
    (vm.walk o name).found = order.find? fun x => ((vm.obj x).local? name).isSome :=
  search_eq_find (fun _ => vm.protos_of_not_mem) hfits (vm.le_walkFuel o []) horder

theorem isSome_refOf (name : USym) (x : ObjId) :
    (vm.refOf name x).isSome = ((vm.obj x).local? name).isSome := by
  unfold refOf
  cases hfind : (vm.obj x).findLocal name with
  | none => simp [UObject.findLocal_eq_none.mp hfind]
  | some i =>
    obtain ⟨s, hs, -⟩ := UObject.local?_of_findLocal hfind
    simp [hs]

theorem find?_bind_refOf (name : USym) (order : List ObjId) :
    (order.find? fun x => ((vm.obj x).local? name).isSome).bind (vm.refOf name) =
      order.findSome? (vm.refOf name) := by
  induction order with
  | nil => rfl
  | cons x order ih =>
    rw [List.find?_cons, List.findSome?_cons, ← isSome_refOf]
    cases hx : vm.refOf name x with
    | none => simpa using ih
    | some ref => simpa using hx

theorem refOf_eq_none {name : USym} {x : ObjId} :
    vm.refOf name x = none ↔ (vm.obj x).findLocal name = none := by
  simp [refOf]

/-- **Slot resolution is depth-first search.**  Whatever the prototype graph, a resolution whose
stamp no object carries and whose stack has room ends; it returns the first object in depth-first
preorder that has the slot, with the slot's index there; and it fails exactly when no object that can
be reached has it. -/
theorem uobjResolve_preorder (vm : UVM L) (o : ObjId) (name : USym)
    (hfresh : ∀ x, x < vm.objs.length → (vm.obj x).visit ≠ vm.nextStamp)
    (hfits : vm.WalkFits o name) :
    (∀ more, resolveLoop o name false vm.nextStamp (vm.walkFuel + more) vm.startWalk [o] =
      vm.uobjResolve o name) ∧
    (∃ order, vm.WalkOrder o order) ∧
    (∀ order, vm.WalkOrder o order →
      order.Nodup ∧ (∀ x, x ∈ order ↔ vm.Reaches o x) ∧
        (vm.uobjResolve o name).2 =
          order.findSome? fun x => ((vm.obj x).findLocal name).map fun i => ⟨x, i⟩) ∧
    ((vm.uobjResolve o name).2 = none ↔ ∀ x, vm.Reaches o x → (vm.obj x).findLocal name = none) := by
  have hfirst : ∀ {order : List ObjId}, vm.WalkOrder o order →
      (vm.uobjResolve o name).2 = order.findSome? (vm.refOf name) := fun {order} horder => by
    rw [← find?_bind_refOf, ← found_walk hfits horder]
    exact (vm.resolveImpl_eq_walk hfresh o name false).1
  obtain ⟨order, horder⟩ := vm.exists_walkOrder o
  refine ⟨vm.resolveImpl_add_fuel o name false, ⟨order, horder⟩, fun order horder => ?_, ?_⟩
  · exact ⟨horder.nodup.1, fun x => horder.mem_iff, hfirst horder⟩
  · rw [hfirst horder, List.findSome?_eq_none_iff]
    constructor
    · exact fun h x hx => refOf_eq_none.mp (h x (horder.mem_iff.mpr hx))
    · exact fun h x hx => refOf_eq_none.mpr (h x (horder.mem_iff.mp hx))

def diamond : UVM noCode where
  objs := [{ protos := [1, 2] }, { protos := [3] }, { protos := [3, 2] },
    { slots := [.make [120] (.bool true) {}], cap := 4, protos := [0] }]

/-- Twice on the way and once around, the walk comes to the fourth object after the second. -/
theorem uobjResolve_preorder_diamond :
    diamond.WalkOrder 0 [0, 1, 3, 2] ∧ (diamond.uobjResolve 0 [120]).2 = some ⟨3, 0⟩ := by
  have hfresh : ∀ x, x < diamond.objs.length → (diamond.obj x).visit ≠ diamond.nextStamp := by
    decide
  have hfits : diamond.WalkFits 0 [120] :=
    fits_of_unpushed (fun _ => diamond.protos_of_not_mem) (by decide)
  have horder : diamond.WalkOrder 0 [0, 1, 3, 2] := by
    refine (Preorder.cons_iff (by decide)).mpr ⟨[1, 3, 2], rfl, ?_⟩
    refine (Preorder.cons_iff (by decide)).mpr ⟨[3, 2], rfl, ?_⟩
    refine (Preorder.cons_iff (by decide)).mpr ⟨[2], rfl, .skip (by decide) ?_⟩
    refine (Preorder.cons_iff (by decide)).mpr ⟨[], rfl, ?_⟩
    exact .skip (by decide) (.skip (by decide) .nil)
  exact ⟨horder, ((uobjResolve_preorder diamond 0 [120] hfresh hfits).2.2.1 _ horder).2.2⟩

end UVM

/-! ## Removing a prototype -/

def lastFirst (l : List ObjId) : List ObjId := l.getLast?.toList ++ l.dropLast

theorem lastFirst_concat (l : List ObjId) (q : ObjId) : lastFirst (l ++ [q]) = q :: l := by
  simp [lastFirst]

theorem cons_eq_concat_iff {l : List ObjId} {q : ObjId} : q :: l = l ++ [q] ↔ ∀ r ∈ l, r = q := by
  induction l with
  | nil => simp
  | cons a l ih =>
    rw [List.cons_append, List.cons.injEq, List.forall_mem_cons, eq_comm]
    exact and_congr_right fun ha => ha ▸ ih

theorem lastFirst_eq_iff {l : List ObjId} : lastFirst l = l ↔ ∀ q ∈ l, ∀ r ∈ l, q = r := by
  rcases List.eq_nil_or_concat' l with rfl | ⟨l, q, rfl⟩
  · simp [lastFirst]
  · rw [lastFirst_concat, cons_eq_concat_iff]
    constructor
    · intro h
      have hall : ∀ a ∈ l ++ [q], a = q := by simpa [or_imp, forall_and] using h
      exact fun a ha b hb => (hall a ha).trans (hall b hb).symm
    · exact fun h r hr => h r (by simp [hr]) q (by simp)

theorem UObject.removeProto_eq {o : UObject L} {p : ObjId} {before after : List ObjId}
    (hprotos : o.protos = before ++ p :: after) (hfirst : p ∉ before) :
    o.removeProto p = some { o with protos := before ++ lastFirst after } := by
  have hidx : o.protos.findIdx? (· == p) = some before.length := by
    have hnone : before.findIdx? (· == p) = none := by
      rw [List.findIdx?_eq_none_iff]
      intro x hx
      simpa using ne_of_mem_of_not_mem hx hfirst
    rw [hprotos, List.findIdx?_append, hnone, List.findIdx?_cons]
    simp
  unfold UObject.removeProto
  rw [hidx, hprotos]
  rcases List.eq_nil_or_concat' after with rfl | ⟨after, q, rfl⟩
  · simp [lastFirst]
  · rw [lastFirst_concat]
    have hlist : before ++ p :: (after ++ [q]) = (before ++ p :: after) ++ [q] := by simp
    have hend : (q :: (after ++ [q])).dropLast = q :: after := by
      rw [← List.cons_append, List.dropLast_concat]
    rw [hlist, List.getLast?_concat]
    simp [hend]

namespace UVM

variable {vm : UVM L} {o p : ObjId}

structure Removed (vm vm' : UVM L) (o : ObjId) (protos : List ObjId) : Prop where
  length : vm'.objs.length = vm.objs.length
  stamp : vm'.nextStamp = vm.nextStamp
  obj : ∀ x, vm'.obj x =
    { vm.obj x with protos := if x = o then protos else (vm.obj x).protos }

theorem removed_of_removeProto {before after : List ObjId}
    (hprotos : (vm.obj o).protos = before ++ p :: after) (hfirst : p ∉ before) :
    Removed vm (vm.exec (.removeProto o p)).1 o (before ++ lastFirst after) := by
  have ho : o < vm.objs.length := by
    by_contra hge
    rw [vm.obj_of_le (Nat.le_of_not_lt hge)] at hprotos
    simp at hprotos
  show Removed vm (vm.editProtos o ((vm.obj o).removeProto p)) o _
  rw [UObject.removeProto_eq hprotos hfirst]
  have hobj : ∀ x, (vm.modify o fun _ =>
        { vm.obj o with protos := before ++ lastFirst after }).obj x =
      { vm.obj x with protos := if x = o then before ++ lastFirst after else (vm.obj x).protos } := by
    intro x
    by_cases hx : x = o
    · subst hx
      rw [obj_modify_self _ ho, if_pos rfl]
    · rw [obj_modify_ne _ hx, if_neg hx]
  unfold editProtos retire
  dsimp only [Option.elim]
  split
  · exact ⟨length_modify _ _ _, rfl, hobj⟩
  · exact ⟨length_modify _ _ _, rfl, hobj⟩

namespace Removed

variable {vm' : UVM L} {protos : List ObjId} (h : Removed vm vm' o protos)

include h

theorem protos_eq (x : ObjId) :
    (vm'.obj x).protos = if x = o then protos else (vm.obj x).protos := by
  rw [h.obj x]

theorem local?_eq (x : ObjId) (name : USym) : (vm'.obj x).local? name = (vm.obj x).local? name := by
  rw [h.obj x]
  rfl

theorem refOf_eq (name : USym) : vm'.refOf name = vm.refOf name := by
  funext x
  unfold refOf
  rw [h.obj x]
  rfl

theorem stamped_eq : vm'.stamped = vm.stamped := by
  unfold stamped
  rw [h.length, h.stamp]
  congr 1
  funext x
  rw [h.obj x]

end Removed

theorem Removed.resolve_of_untouched {vm' : UVM L}
    (h : Removed vm vm' o ((vm.obj o).protos.erase p)) (hp : p < vm.objs.length) {x : ObjId}
    {name : USym} (hmark : ((vm.uobjResolve x name).1.obj p).visit = (vm.obj p).visit)
    (hover : (vm.uobjResolve x name).1.stats.resolveOverflow = false) :
    (vm'.uobjResolve x name).2 = (vm.uobjResolve x name).2 := by
  obtain ⟨hfound, hmarks, hflag⟩ := vm.resolveImpl_eq_search x name false
  have hfound' := (vm'.resolveImpl_eq_search x name false).1
  rw [h.refOf_eq, h.stamped_eq] at hfound'
  simp only [h.local?_eq] at hfound'
  refine hfound'.trans (Eq.trans ?_ hfound.symm)
  congr 1
  rw [← search_add_fuel (fun _ => vm'.protos_of_not_mem) (vm'.le_walkFuel x vm.stamped) vm.walkFuel]
  apply search_thin (fun _ => vm.protos_of_not_mem) _ (Thin.refl [x])
    (vm.le_walkFuel x vm.stamped) (Nat.le_add_left _ _) (hflag.symm.trans hover)
  · intro hmem
    have hvisit : (vm.obj p).visit = vm.nextStamp := hmark.symm.trans ((hmarks p hp).mpr hmem)
    exact vm.mem_stamped.mpr ⟨hp, hvisit⟩
  · intro y
    show Thin p (vm.obj y).protos (vm'.obj y).protos
    rw [h.protos_eq]
    by_cases hy : y = o
    · rw [if_pos hy, hy]
      exact Thin.erase _
    · rw [if_neg hy]
      exact Thin.refl _

theorem Removed.resolve_of_elsewhere {vm' : UVM L}
    (h : Removed vm vm' o ((vm.obj o).protos.erase p)) {x : ObjId} {name : USym}
    (hfresh : ∀ y, y < vm.objs.length → (vm.obj y).visit ≠ vm.nextStamp)
    (hfits : vm.WalkFits x name) (hfits' : vm'.WalkFits x name)
    (hbelow : ∀ y, vm.Reaches p y → (vm.obj y).findLocal name = none) :
    (vm'.uobjResolve x name).2 = (vm.uobjResolve x name).2 := by
  classical
  have hfresh' : ∀ y, y < vm'.objs.length → (vm'.obj y).visit ≠ vm'.nextStamp := by
    intro y hy
    rw [h.stamp, h.obj y]
    exact hfresh y (h.length ▸ hy)
  obtain ⟨order, horder⟩ := vm.exists_walkOrder x
  obtain ⟨order', horder'⟩ := vm'.exists_walkOrder x
  -- the two walks meet the objects that are not below `p` in one order
  let keep : ObjId → Bool := fun y => !decide (vm.Reaches p y)
  have hkeep : ∀ {y}, keep y = false ↔ vm.Reaches p y := by simp [keep]
  have hsub : ∀ {y z}, z ∈ (vm'.obj y).protos → z ∈ (vm.obj y).protos := by
    intro y z hz
    rw [h.protos_eq] at hz
    by_cases hy : y = o
    · rw [if_pos hy] at hz
      exact hy ▸ List.mem_of_mem_erase hz
    · rwa [if_neg hy] at hz
  have hleft : ∀ y, keep y = false → ∀ z ∈ (vm.obj y).protos, keep z = false :=
    fun y hy z hz => hkeep.mpr (.tail (hkeep.mp hy) hz)
  have hgraph : (fun y => (vm'.obj y).protos.filter keep) = fun y => (vm.obj y).protos.filter keep := by
    funext y
    rw [h.protos_eq]
    by_cases hy : y = o
    · have hdropped : keep p = false := hkeep.mpr .refl
      rw [if_pos hy, hy, ← List.erase_filter, List.erase_of_not_mem]
      simp [hdropped]
    · rw [if_neg hy]
  have hsame : order'.filter keep = order.filter keep := by
    have hfilter' := horder'.filter fun y hy z hz => hleft y hy z (hsub hz)
    rw [hgraph] at hfilter'
    exact (horder.filter hleft).unique hfilter'
  -- and the slot is on none of the others
  have hhas : ∀ l : List ObjId, (l.filter keep).find? (fun y => ((vm.obj y).local? name).isSome) =
      l.find? fun y => ((vm.obj y).local? name).isSome := by
    intro l
    rw [List.find?_filter]
    congr 1
    funext y
    by_cases hy : vm.Reaches p y
    · simp [UObject.findLocal_eq_none.mp (hbelow y hy)]
    · simp [keep, hy]
  have hfound' := found_walk hfits' horder'
  simp only [h.local?_eq] at hfound'
  rw [uobjResolve, uobjResolve, (vm'.resolveImpl_eq_walk hfresh' x name false).1,
    (vm.resolveImpl_eq_walk hfresh x name false).1, found_walk hfits horder, hfound', h.refOf_eq,
    ← hhas order', hsame, hhas order]

/-- **What removing a prototype keeps.**  The list is the old one without the first occurrence of
`p`, and the lookups that did not go through `p` resolve as before, exactly when the prototypes that
come after `p` are all one object.  A lookup did not go through `p` when its walk did not search `p`
and ended within its stack, and also when nothing below `p` has the slot. -/
theorem removeProto_keeps_iff (vm : UVM L) {o p : ObjId} (hp : p ∈ (vm.obj o).protos)
    (hheap : p < vm.objs.length) :
    let vm' := (vm.exec (.removeProto o p)).1
    ((vm'.obj o).protos = (vm.obj o).protos.erase p ∧
      (∀ x name, ((vm.uobjResolve x name).1.obj p).visit = (vm.obj p).visit →
        (vm.uobjResolve x name).1.stats.resolveOverflow = false →
        (vm'.uobjResolve x name).2 = (vm.uobjResolve x name).2) ∧
      ∀ x name, (∀ y, y < vm.objs.length → (vm.obj y).visit ≠ vm.nextStamp) →
        vm.WalkFits x name → vm'.WalkFits x name →
        (∀ y, vm.Reaches p y → (vm.obj y).findLocal name = none) →
        (vm'.uobjResolve x name).2 = (vm.uobjResolve x name).2) ↔
    ∀ q ∈ (vm.obj o).protos.drop ((vm.obj o).protos.idxOf p + 1),
      ∀ r ∈ (vm.obj o).protos.drop ((vm.obj o).protos.idxOf p + 1), q = r := by
  obtain ⟨before, after, hprotos, hfirst⟩ := List.eq_append_cons_of_mem hp
  have hremoved := removed_of_removeProto hprotos hfirst
  have hafter : (vm.obj o).protos.drop ((vm.obj o).protos.idxOf p + 1) = after := by
    rw [hprotos, List.idxOf_append_of_notMem hfirst, List.idxOf_cons_self, Nat.add_zero,
      ← List.drop_drop, List.drop_left, List.drop_one, List.tail_cons]
  have herase : (vm.obj o).protos.erase p = before ++ after := by
    rw [hprotos, List.erase_append_right _ hfirst, List.erase_cons_head]
  have hlist : before ++ lastFirst after = (vm.obj o).protos.erase p ↔
      ∀ q ∈ after, ∀ r ∈ after, q = r := by
    rw [herase, List.append_cancel_left_eq, lastFirst_eq_iff]
  rw [hafter, ← hlist]
  constructor
  · rintro ⟨h, -⟩
    rwa [hremoved.protos_eq, if_pos rfl] at h
  · intro h
    rw [h] at hremoved
    refine ⟨by rw [hremoved.protos_eq, if_pos rfl], ?_, ?_⟩
    · exact fun x name hmark hover => hremoved.resolve_of_untouched hheap hmark hover
    · exact fun x name hfresh hfits hfits' hbelow =>
        hremoved.resolve_of_elsewhere hfresh hfits hfits' hbelow

/-- The first of two prototypes is removed, and the fourth object still finds the slot on itself. -/
theorem removeProto_keeps_iff_diamond :
    ((diamond.exec (.removeProto 0 1)).1.obj 0).protos = [2] ∧
      ((diamond.exec (.removeProto 0 1)).1.uobjResolve 3 [120]).2 =
        (diamond.uobjResolve 3 [120]).2 := by
  obtain ⟨hlist, hsame, -⟩ :=
    (removeProto_keeps_iff diamond (o := 0) (p := 1) (by decide) (by decide)).mpr (by decide)
  exact ⟨hlist, hsame 3 [120] (by decide) (by decide)⟩

def threeProtos : UVM noCode where
  objs := [{ protos := [1, 2, 3] }, {}, { slots := [.make [120] (.bool true) {}], cap := 4 },
    { slots := [.make [120] (.bool false) {}], cap := 4 }]

/-- Removing the first prototype swaps the other two, and a slot the first one does not have is found
on the third where it was found on the second. -/
theorem removeProto_swaps_the_others :
    let vm' := (threeProtos.exec (.removeProto 0 1)).1
    (threeProtos.obj 0).protos.erase 1 = [2, 3] ∧ (vm'.obj 0).protos = [3, 2] ∧
      (∀ y, threeProtos.Reaches 1 y → (threeProtos.obj y).findLocal [120] = none) ∧
      (threeProtos.uobjResolve 0 [120]).2 = some ⟨2, 0⟩ ∧
      (vm'.uobjResolve 0 [120]).2 = some ⟨3, 0⟩ := by
  refine ⟨by decide, by decide, fun y hy => ?_, by decide, by decide⟩
  -- the first prototype has no prototypes of its own
  have hone : y = 1 := by
    induction hy with
    | refl => rfl
    | tail _ hstep ih =>
      rw [ih] at hstep
      cases hstep
  rw [hone]
  decide

end UVM

end Urbi
