import Urbi.Obj.Preorder

/-!
# Visit stamps

The visit stamp comes around after `2^32 - 1` walks, and an object keeps the stamp of the last walk
that searched it.  Dating every mark by the number of that walk says exactly when a walk meets its own
stamp.
-/

namespace Urbi

open Lib

variable {L : CodeBase}
variable {stamp : UInt32} {fuel : Nat} {stack : List ObjId}

def stampPeriod : Nat := 2 ^ 32 - 1

def stampOf (n : Nat) : UInt32 := if n = 0 then 0 else UInt32.ofNat ((n - 1) % stampPeriod + 1)

theorem toNat_stampOf (n : Nat) :
    (stampOf n).toNat = if n = 0 then 0 else (n - 1) % stampPeriod + 1 := by
  unfold stampOf
  split
  · rfl
  · have hlt : (n - 1) % stampPeriod + 1 < 2 ^ 32 := by
      unfold stampPeriod
      omega
    exact UInt32.toNat_ofNat_of_lt' hlt

theorem stampOf_eq_succ_iff {m n : Nat} (hle : m ≤ n) :
    stampOf m = stampOf (n + 1) ↔ m ≠ 0 ∧ stampPeriod ∣ n + 1 - m := by
  rw [← UInt32.toNat_inj, toNat_stampOf, toNat_stampOf, if_neg (Nat.succ_ne_zero n)]
  unfold stampPeriod
  split <;> omega

theorem UVM.nextStamp_of_stamp {vm : UVM L} {n : Nat} (h : vm.stats.visitStamp = stampOf n) :
    vm.nextStamp = stampOf (n + 1) := by
  have hadd : (vm.stats.visitStamp + 1).toNat = ((stampOf n).toNat + 1) % 2 ^ 32 := by
    rw [h]
    exact UInt32.toNat_add _ _
  have hnat := toNat_stampOf n
  unfold UVM.nextStamp
  rw [← UInt32.toNat_inj, toNat_stampOf, if_neg (Nat.succ_ne_zero n)]
  unfold stampPeriod at hnat ⊢
  dsimp only
  split
  · rename_i hzero
    rw [hzero] at hadd
    have hwrap : ((stampOf n).toNat + 1) % 2 ^ 32 = 0 := hadd.symm
    show 1 = _
    split at hnat <;> omega
  · rename_i hzero
    have hnowrap : (vm.stats.visitStamp + 1).toNat ≠ 0 := fun h0 => hzero (UInt32.toNat_inj.mp h0)
    split at hnat <;> omega

namespace UVM

variable (vm : UVM L)

theorem visit_of_visitObj (cur x : ObjId) (stamp : UInt32) (cached : Bool) :
    ((vm.visitObj cur stamp cached).obj x).visit = (vm.obj x).visit ∨
      x = cur ∧ ((vm.visitObj cur stamp cached).obj x).visit = stamp := by
  unfold visitObj
  rcases vm.obj_modify_cases cur x _ with heq | ⟨rfl, -, heq⟩ <;> rw [heq]
  · exact .inl rfl
  · exact .inr ⟨rfl, rfl⟩

theorem visit_resolveLoop (o : ObjId) (name : USym) (flagging : Bool) (stamp : UInt32) (fuel : Nat)
    (stack : List ObjId) {S : ObjId → Prop} (hclosed : ∀ a, S a → ∀ b ∈ (vm.obj a).protos, S b)
    (hstack : ∀ a ∈ stack, S a) (x : ObjId) :
    ((resolveLoop o name flagging stamp fuel vm stack).1.obj x).visit = (vm.obj x).visit ∨
      S x ∧ ((resolveLoop o name flagging stamp fuel vm stack).1.obj x).visit = stamp := by
  have hpop : ∀ (vm : UVM L) {cur : ObjId} (cached : Bool), S cur →
      ((vm.visitObj cur stamp cached).obj x).visit = (vm.obj x).visit ∨
        S x ∧ ((vm.visitObj cur stamp cached).obj x).visit = stamp := by
    intro vm cur cached hcur
    rcases vm.visit_of_visitObj cur x stamp cached with h | ⟨rfl, h⟩
    · exact .inl h
    · exact .inr ⟨hcur, h⟩
  fun_induction resolveLoop o name flagging stamp fuel vm stack with
  | case1 | case2 => exact .inl rfl
  | case3 _ _ _ _ _ ih => exact ih hclosed fun a ha => hstack a (List.mem_cons_of_mem _ ha)
  | case4 _ vm cur | case6 _ vm cur => exact hpop vm _ (hstack cur List.mem_cons_self)
  | case5 _ vm cur rest _ _ _ ih =>
    have hcur : S cur := hstack cur List.mem_cons_self
    have hwalk := vm.walked_visitObj cur stamp flagging
    simp only [hwalk.protos] at ih
    have hpush : ∀ a ∈ (vm.obj cur).protos ++ rest, S a := by
      intro a ha
      rcases List.mem_append.mp ha with ha | ha
      · exact hclosed cur hcur a ha
      · exact hstack a (List.mem_cons_of_mem _ ha)
    rcases ih hclosed hpush with h | h
    · rw [h]
      exact hpop vm _ hcur
    · exact .inr h

theorem visit_isALoop {proto : ObjId} (x : ObjId) :
    ((isALoop proto stamp fuel vm stack).1.obj x).visit = (vm.obj x).visit ∨
      ((isALoop proto stamp fuel vm stack).1.obj x).visit = stamp := by
  fun_induction isALoop proto stamp fuel vm stack with
  | case1 | case2 => exact .inl rfl
  | case3 _ _ _ _ _ ih => exact ih
  | case4 _ vm => exact (vm.visit_of_visitObj _ x stamp _).imp_right And.right
  | case5 _ vm cur _ _ _ _ ih =>
    rcases ih with h | h
    · rw [h]
      exact (vm.visit_of_visitObj cur x stamp _).imp_right And.right
    · exact .inr h
  | case6 _ vm cur => exact (vm.visit_of_visitObj cur x stamp _).imp_right And.right

theorem visitStamp_resolveLoop {o : ObjId} {name : USym} {flagging : Bool} :
    (resolveLoop o name flagging stamp fuel vm stack).1.stats.visitStamp = vm.stats.visitStamp := by
  fun_induction resolveLoop o name flagging stamp fuel vm stack with
  | case3 _ _ _ _ _ ih | case5 _ _ _ _ _ _ _ ih => exact ih
  | _ => rfl

theorem visitStamp_isALoop {proto : ObjId} :
    (isALoop proto stamp fuel vm stack).1.stats.visitStamp = vm.stats.visitStamp := by
  fun_induction isALoop proto stamp fuel vm stack with
  | case3 _ _ _ _ _ ih | case5 _ _ _ _ _ _ _ ih => exact ih
  | _ => rfl

end UVM

/-! ## Runs -/

inductive WalkOp where
  | resolve (o : ObjId) (name : USym) (flagging : Bool)
  | isA (o proto : ObjId)
  | new (proto : Option ObjId)

structure Dated (L : CodeBase) where
  vm : UVM L
  walks : Nat := 0
  last : ObjId → Nat := fun _ => 0

namespace Dated

def walked (h : Dated L) (vm' : UVM L) : Dated L where
  vm := vm'
  walks := h.walks + 1
  last x := if (vm'.obj x).visit = (h.vm.obj x).visit then h.last x else h.walks + 1

def step (h : Dated L) : WalkOp → Dated L
  | .resolve o name flagging => h.walked (h.vm.resolveImpl o name flagging).1
  | .isA o proto => h.walked (h.vm.uobjIsA o proto).1
  | .new proto => { h with vm := (h.vm.exec (.new proto)).1 }

def run (h : Dated L) (ops : List WalkOp) : Dated L := ops.foldl step h

structure Consistent (h : Dated L) : Prop where
  stamp : h.vm.stats.visitStamp = stampOf h.walks
  mark : ∀ x, (h.vm.obj x).visit = stampOf (h.last x)
  past : ∀ x, h.last x ≤ h.walks

theorem Consistent.walked {h : Dated L} {vm' : UVM L} (hc : h.Consistent)
    (hstamp : vm'.stats.visitStamp = h.vm.nextStamp)
    (hmark : ∀ x, (vm'.obj x).visit = (h.vm.obj x).visit ∨ (vm'.obj x).visit = h.vm.nextStamp) :
    (h.walked vm').Consistent where
  stamp := hstamp.trans (UVM.nextStamp_of_stamp hc.stamp)
  mark x := by
    show (vm'.obj x).visit = stampOf (if _ then _ else _)
    split
    · rename_i hsame
      rw [hsame, hc.mark x]
    · rename_i hne
      rw [(hmark x).resolve_left hne, UVM.nextStamp_of_stamp hc.stamp]
  past x := by
    have hpast := hc.past x
    show (if _ then h.last x else h.walks + 1) ≤ h.walks + 1
    split
    · omega
    · exact Nat.le_refl _

theorem Consistent.step {h : Dated L} (hc : h.Consistent) (op : WalkOp) :
    (h.step op).Consistent := by
  cases op with
  | resolve o name flagging =>
    apply hc.walked (h.vm.startWalk.visitStamp_resolveLoop)
    intro x
    have hloop := h.vm.startWalk.visit_resolveLoop o name flagging h.vm.nextStamp h.vm.walkFuel [o]
      (S := fun _ => True) (fun _ _ _ _ => trivial) (fun _ _ => trivial) x
    exact hloop.imp_right And.right
  | isA o proto => exact hc.walked h.vm.startWalk.visitStamp_isALoop fun x =>
    h.vm.startWalk.visit_isALoop x
  | new proto =>
    refine ⟨hc.stamp, fun x => ?_, hc.past⟩
    refine Eq.trans ?_ (hc.mark x)
    -- a new object has the mark an address outside the heap reads as
    let o : UObject L := { protos := proto.toList }
    show ((h.vm.objs ++ [o]).getD x {}).visit = (h.vm.objs.getD x {}).visit
    rcases Nat.lt_trichotomy x h.vm.objs.length with hx | rfl | hx
    · rw [List.getD_append _ _ _ _ hx]
    · simp [o]
    · rw [List.getD_eq_default _ _ (by simp; omega), List.getD_eq_default _ _ (by omega)]

theorem Consistent.run {h : Dated L} (hc : h.Consistent) (ops : List WalkOp) :
    (h.run ops).Consistent := by
  unfold Dated.run
  induction ops generalizing h with
  | nil => exact hc
  | cons op ops ih => exact ih (hc.step op)

/-- **When stamps are fresh.**  After any run of lookups, `isA` tests and object creations, a walk
from `o` finds its stamp on nothing it can reach exactly when no object it can reach was last searched
a whole number of periods of the counter before. -/
theorem stamps_fresh_iff (vm : UVM L) (hstamp : vm.stats.visitStamp = 0)
    (hmark : ∀ x, (vm.obj x).visit = 0) (ops : List WalkOp) (o : ObjId) :
    let h := Dated.run { vm := vm } ops
    (∀ x, h.vm.Reaches o x → (h.vm.obj x).visit ≠ h.vm.nextStamp) ↔
      ∀ x, h.vm.Reaches o x → h.last x ≠ 0 → ¬ stampPeriod ∣ h.walks + 1 - h.last x := by
  intro h
  have hc : h.Consistent := by
    apply Consistent.run
    exact ⟨hstamp, hmark, fun _ => Nat.le_refl _⟩
  refine forall₂_congr fun x _ => ?_
  rw [hc.mark x, UVM.nextStamp_of_stamp hc.stamp, Ne, stampOf_eq_succ_iff (hc.past x), not_and]

def twoApart : UVM noCode where
  objs := [{ slots := [.make [120] (.bool true) {}], cap := 4 }, {}]

def lookups (n : Nat) : List WalkOp :=
  .resolve 0 [120] false :: List.replicate n (.resolve 1 [120] false)

theorem visit_twoApart (x : ObjId) : (twoApart.obj x).visit = 0 := by
  match x with
  | 0 | 1 | x + 2 => rfl

/-- After one lookup on the first object the next one takes another stamp. -/
theorem stamps_fresh_iff_second :
    let h := Dated.run { vm := twoApart } [.resolve 0 [120] false]
    ∀ x, h.vm.Reaches 0 x → (h.vm.obj x).visit ≠ h.vm.nextStamp := by
  apply (stamps_fresh_iff twoApart rfl visit_twoApart [.resolve 0 [120] false] 0).mpr
  intro x hx hlast
  have hzero : x = 0 := by
    clear hlast
    induction hx with
    | refl => rfl
    | tail _ hstep ih =>
      rw [ih] at hstep
      cases hstep
  rw [hzero]
  decide

theorem run_lookups (n : Nat) :
    let h := Dated.run { vm := twoApart } (lookups n)
    h.Consistent ∧ h.walks = n + 1 ∧ h.last 0 = 1 ∧ UVM.Walked twoApart h.vm := by
  have hboot : (Dated.mk twoApart 0 fun _ => 0).Consistent := by
    exact ⟨rfl, visit_twoApart, fun _ => Nat.le_refl _⟩
  refine ⟨hboot.run _, ?_⟩
  unfold lookups
  induction n with
  | zero => exact ⟨rfl, rfl, twoApart.walked_resolveImpl 0 [120] false⟩
  | succ n ih =>
    rw [List.replicate_succ', ← List.cons_append]
    unfold Dated.run at ih ⊢
    rw [List.foldl_append]
    revert ih
    generalize List.foldl step { vm := twoApart } _ = h
    rintro ⟨hwalks, hlast, hwalk⟩
    refine ⟨congrArg Nat.succ hwalks, ?_, hwalk.trans (h.vm.walked_resolveImpl 1 [120] false)⟩
    have hprotos : (h.vm.obj 1).protos = [] := hwalk.protos 1
    have hclosed : ∀ a, a = 1 → ∀ b ∈ (h.vm.startWalk.obj a).protos, b = 1 := by
      rintro a rfl b hb
      have hb : b ∈ (h.vm.obj 1).protos := hb
      rw [hprotos] at hb
      cases hb
    have hsame : ((h.vm.resolveImpl 1 [120] false).1.obj 0).visit = (h.vm.obj 0).visit :=
      (h.vm.startWalk.visit_resolveLoop 1 [120] false h.vm.nextStamp h.vm.walkFuel [1] hclosed
        (by simp) 0).resolve_right (by simp)
    show (if _ then h.last 0 else _) = 1
    rw [if_pos hsame, hlast]

theorem resolve_of_stamped {vm : UVM L} {o : ObjId} (hlt : o < vm.objs.length)
    (hvisit : (vm.obj o).visit = vm.nextStamp) (name : USym) : (vm.uobjResolve o name).2 = none := by
  have hmem : o ∈ vm.stamped := vm.mem_stamped.mpr ⟨hlt, hvisit⟩
  rw [UVM.uobjResolve, (vm.resolveImpl_eq_search o name false).1]
  unfold UVM.walkFuel
  rw [Nat.add_comm, search, if_pos hmem, search]
  rfl

/-- After `2^32 - 1` lookups the next walk takes the first one's stamp: the object it starts from,
not looked at since, counts as searched already, and its own slot is not found. -/
theorem stamp_comes_around : ∃ n, n + 1 = stampPeriod ∧
    let h := Dated.run { vm := twoApart } (lookups n)
    (h.vm.obj 0).visit = h.vm.nextStamp ∧ (h.vm.obj 0).findLocal [120] = some 0 ∧
      (h.vm.uobjResolve 0 [120]).2 = none := by
  have haround : ∀ h : Dated noCode, h.Consistent → h.walks = stampPeriod → h.last 0 = 1 →
      UVM.Walked twoApart h.vm → (h.vm.obj 0).visit = h.vm.nextStamp ∧
        (h.vm.obj 0).findLocal [120] = some 0 ∧ (h.vm.uobjResolve 0 [120]).2 = none := by
    intro h hc hwalks hlast hwalk
    have hvisit : (h.vm.obj 0).visit = h.vm.nextStamp := by
      rw [hc.mark 0, UVM.nextStamp_of_stamp hc.stamp, stampOf_eq_succ_iff (hc.past 0), hlast,
        hwalks, Nat.add_sub_cancel]
      exact ⟨Nat.one_ne_zero, dvd_rfl⟩
    have hlt : 0 < h.vm.objs.length := hwalk.length ▸ Nat.zero_lt_two
    exact ⟨hvisit, hwalk.findLocal 0 [120], resolve_of_stamped hlt hvisit [120]⟩
  obtain ⟨n, hn⟩ : ∃ n, n + 1 = stampPeriod := ⟨2 ^ 32 - 2, by unfold stampPeriod; omega⟩
  obtain ⟨hc, hwalks, hlast, hwalk⟩ := run_lookups n
  exact ⟨n, hn, haround _ hc (hwalks.trans hn) hlast hwalk⟩

end Dated

end Urbi
