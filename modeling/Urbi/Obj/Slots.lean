import Mathlib.Data.List.Induction
import Urbi.Obj.Change

/-!
# Slots as a finite map

The slots of an object map each of its names to what was last set under it: an overwrite keeps one bit
of the attributes there, and the slot that moves into the hole of another is still found.
-/

namespace Urbi

variable {L : CodeBase} {o o' : UObject L}

namespace UObject

theorem local?_removeLocal {name : USym} (hnd : o.names.Nodup)
    (h : o.removeLocal name = some o') (n : USym) :
    o'.local? n = if n = name then none else o.local? n := by
  obtain ⟨i, hfind, hperm⟩ := perm_removeLocal h
  -- of distinct names, only the one removed is found where the hole was
  have hmem : ∀ t, t ∈ o'.slots ↔ t ∈ o.slots ∧ t.name ≠ name := by
    intro t
    rw [hperm.mem_iff, List.mem_eraseIdx_iff_getElem?]
    constructor
    · rintro ⟨j, hne, hj⟩
      refine ⟨List.mem_of_getElem? hj, ?_⟩
      rintro rfl
      exact hne (Option.some.inj ((findLocal_of_getElem? hnd hj).symm.trans hfind))
    · rintro ⟨ht, hne⟩
      obtain ⟨j, hj⟩ := List.mem_iff_getElem?.mp ht
      refine ⟨j, ?_, hj⟩
      rintro rfl
      obtain ⟨s, hs, hget⟩ := local?_of_findLocal hfind
      cases hget.symm.trans hj
      exact hne (local?_name hs)
  apply Option.ext
  intro t
  rw [local?_eq_some_iff (names_nodup_removeLocal hnd h), hmem]
  split
  · rename_i hn
    simp only [reduceCtorEq, iff_false]
    rintro ⟨⟨-, hne⟩, rfl⟩
    exact hne hn
  · rename_i hn
    rw [local?_eq_some_iff hnd]
    constructor
    · rintro ⟨⟨ht, -⟩, rfl⟩
      exact ⟨ht, rfl⟩
    · rintro ⟨ht, rfl⟩
      exact ⟨⟨ht, hn⟩, rfl⟩

end UObject

/-! ## Calls -/

inductive SlotOp (L : CodeBase) where
  | set (name : USym) (v : UValue L) (attrs : USlotAttrs) (cell granted : Bool)
  | remove (name : USym)

def SlotOp.name : SlotOp L → USym
  | .set name _ _ _ _ => name
  | .remove name => name

/-- A call that fails has returned before its first store. -/
def UObject.call (o : UObject L) : SlotOp L → Option (UObject L)
  | .set name v attrs cell granted =>
    if attrs.isProperty && !cell then none
    else (o.setLocal (.make name v attrs) granted).map Prod.fst
  | .remove name => o.removeLocal name

def UObject.lookup (o : UObject L) (name : USym) : Option (Stored L × USlotAttrs) :=
  (o.local? name).map fun s => (s.stored, s.attrs)

abbrev SlotMap (L : CodeBase) : Type := USym → Option (Stored L × USlotAttrs)

def SlotOp.apply (m : SlotMap L) : SlotOp L → SlotMap L
  | .set name v attrs _ _ => Function.update m name
      (some (if attrs.isProperty then .props { value := v } else .plain v,
        attrs.subscribed ((m name).elim {} Prod.snd)))
  | .remove name => Function.update m name none

/-- Memory is asked for a property's cell, and for a name not there yet when the block is full. -/
def SlotOp.served (o : UObject L) (m : SlotMap L) : SlotOp L → Bool
  | .set name _ attrs cell granted => (!attrs.isProperty || cell) &&
      ((m name).isSome || o.slots.length != o.cap || granted && o.nextCap != 0)
  | .remove name => (m name).isSome

/-- A new object after the calls, beside the map of those that got what they need. -/
def slotRun (ops : List (SlotOp L)) : UObject L × SlotMap L :=
  ops.foldl (fun s op => ((s.1.call op).getD s.1, if op.served s.1 s.2 then op.apply s.2 else s.2))
    ({}, fun _ => none)

/-! ## The map -/

structure IsSlotMap (o : UObject L) (m : SlotMap L) : Prop where
  names : o.names.Nodup
  room : o.Roomy
  lookup : ∀ n, o.lookup n = m n

theorem IsSlotMap.call {m : SlotMap L} {op : SlotOp L} (h : IsSlotMap o m)
    (hcall : o.call op = some o') : IsSlotMap o' (op.apply m) := by
  have hm := funext h.lookup
  cases op with
  | set name v attrs cell granted =>
    simp only [UObject.call] at hcall
    split at hcall
    · cases hcall
    obtain ⟨⟨_, i, b⟩, hset, hout⟩ := Option.map_eq_some_iff.mp hcall
    cases hout
    have hwrote := UObject.wrote_of_setLocal hset
    refine ⟨(distinctNames L).store trivial hset h.names, h.room.setLocal hset, fun n => ?_⟩
    rw [SlotOp.apply, ← hm, UObject.lookup]
    by_cases hn : n = name
    · subst hn
      have hown := hwrote.own
      rw [USlot.make_name] at hown
      rw [hown, Function.update_self, UObject.written, USlot.make_name, UObject.lookup]
      cases o.local? n with
      | none => simp [USlot.make, USlotAttrs.subscribed]
      | some was => simp [USlot.make, USlot.onto]
    · rw [hwrote.other n hn, Function.update_of_ne hn, UObject.lookup]
  | remove name =>
    refine ⟨UObject.names_nodup_removeLocal h.names hcall, h.room.removeLocal hcall, fun n => ?_⟩
    rw [SlotOp.apply, ← hm, UObject.lookup, UObject.local?_removeLocal h.names hcall]
    by_cases hn : n = name
    · simp [hn]
    · rw [if_neg hn, Function.update_of_ne hn, UObject.lookup]

theorem IsSlotMap.call_isSome {m : SlotMap L} (h : IsSlotMap o m) (op : SlotOp L) :
    (o.call op).isSome = op.served o m := by
  have hm : ∀ n, (m n).isSome = (o.local? n).isSome := fun n => by
    rw [← h.lookup, UObject.lookup, Option.isSome_map]
  cases op with
  | set name v attrs cell granted =>
    rw [UObject.call, SlotOp.served, hm]
    cases attrs.isProperty <;> cases cell <;> simp [UObject.setLocal_isSome]
  | remove name =>
    rw [UObject.call, SlotOp.served, hm, UObject.removeLocal]
    cases hfind : o.findLocal name with
    | none => simp [UObject.findLocal_eq_none.mp hfind]
    | some i =>
      obtain ⟨s, hs, hi⟩ := UObject.local?_of_findLocal hfind
      have hne : o.slots ≠ [] := List.ne_nil_of_mem (List.mem_of_getElem? hi)
      simp [hs, List.getLast?_eq_some_getLast hne]

theorem slotRun_concat (ops : List (SlotOp L)) (op : SlotOp L) :
    slotRun (ops ++ [op]) = (((slotRun ops).1.call op).getD (slotRun ops).1,
      if op.served (slotRun ops).1 (slotRun ops).2 then op.apply (slotRun ops).2 else (slotRun ops).2) := by
  rw [slotRun, List.foldl_append]
  rfl

theorem isSlotMap_slotRun (ops : List (SlotOp L)) : IsSlotMap (slotRun ops).1 (slotRun ops).2 := by
  induction ops using List.reverseRecOn with
  | nil => exact ⟨.nil, ⟨le_rfl, .inl rfl⟩, fun _ => rfl⟩
  | append_singleton ops op ih =>
    rw [slotRun_concat, ← ih.call_isSome]
    cases hcall : (slotRun ops).1.call op with
    | none => exact ih
    | some o' => exact ih.call hcall

/-- The slots are a finite map after any calls; one more succeeds if it has what it needs, and changes
at most what its own name maps to, and nothing if it fails. -/
theorem slots_finite_map (ops : List (SlotOp L)) (op : SlotOp L) :
    (slotRun ops).1.names.Nodup ∧ (slotRun ops).1.slots.length ≤ (slotRun ops).1.cap ∧
      (slotRun ops).1.lookup = (slotRun ops).2 ∧
      ((slotRun ops).1.call op).isSome = op.served (slotRun ops).1 (slotRun ops).2 ∧
      (∀ n, n ≠ op.name → (slotRun (ops ++ [op])).1.lookup n = (slotRun ops).1.lookup n) ∧
      ((slotRun ops).1.call op = none → (slotRun (ops ++ [op])).1 = (slotRun ops).1) := by
  have h := isSlotMap_slotRun ops
  refine ⟨h.names, h.room.1, funext h.lookup, h.call_isSome op, fun n hn => ?_, fun hcall => ?_⟩
  · rw [(isSlotMap_slotRun (ops ++ [op])).lookup, h.lookup, slotRun_concat]
    split
    · cases op <;> exact Function.update_of_ne hn _ _
    · rfl
  · rw [slotRun_concat, hcall]
    rfl

/-- A plain slot made a property with the block refused: the cell is all it needs. -/
theorem slots_finite_map_property :
    ((slotRun [.set [120] .nil {} false true]).1.call
      (.set [120] .nil { getter := true } true false : SlotOp noCode)).isSome = true :=
  (slots_finite_map [.set [120] .nil {} false true] _).2.2.2.1.trans rfl

end Urbi
