import Mathlib.Data.List.Nodup
import Urbi.Obj.Discipline

/-!
# Slot names

A slot is stored under a name the object does not have yet, or over the slot that has it, so the
names of an object's slots stay distinct.
-/

namespace Urbi

variable {L : CodeBase}

namespace UObject

variable {o o' : UObject L} {name : USym}

def names (o : UObject L) : List USym := o.slots.map USlot.name

theorem names_modify {slots : List (USlot L)} {i : Nat} {f : USlot L → USlot L}
    (hf : ∀ s, slots[i]? = some s → (f s).name = s.name) :
    (slots.modify i f).map USlot.name = slots.map USlot.name := by
  induction slots generalizing i with
  | nil => rw [List.modify_nil]
  | cons s slots ih =>
    cases i with
    | zero =>
      rw [List.modify_zero_cons, List.map_cons, List.map_cons, hf s rfl]
    | succ i =>
      rw [List.modify_succ_cons, List.map_cons, List.map_cons, ih fun t ht => hf t ht]

theorem findLocal_eq (o : UObject L) (name : USym) :
    o.findLocal name = o.names.findIdx? (· == name) := by
  unfold findLocal names
  rw [List.findIdx?_map]
  rfl

theorem isSome_local? (o : UObject L) (name : USym) :
    (o.local? name).isSome = (o.findLocal name).isSome := by
  cases hfind : o.findLocal name with
  | none => rw [findLocal_eq_none.mp hfind]; rfl
  | some i =>
    obtain ⟨s, hs, -⟩ := local?_of_findLocal hfind
    rw [hs]
    rfl

theorem not_mem_names (h : o.findLocal name = none) : name ∉ o.names := by
  intro hmem
  obtain ⟨s, hs, hname⟩ := List.mem_map.mp hmem
  have hnone := List.findIdx?_eq_none_iff.mp h s hs
  simp [hname] at hnone

theorem names_setLocal {s : USlot L} {granted : Bool} {i : Nat} {b : Bool}
    (h : o.setLocal s granted = some (o', i, b)) :
    o'.names = o.names ∨ (o.findLocal s.name = none ∧ o'.names = o.names ++ [s.name]) := by
  rcases setLocal_cases h with ⟨j, hfind, rfl⟩ | ⟨hfind, -, cap, rfl⟩
  · left
    apply names_modify
    intro t ht
    obtain ⟨t', hlocal, hj⟩ := local?_of_findLocal hfind
    cases hj.symm.trans ht
    exact (local?_name hlocal).symm
  · right
    exact ⟨hfind, List.map_append⟩

theorem perm_removeLocal (h : o.removeLocal name = some o') :
    ∃ i, o.findLocal name = some i ∧ o'.slots.Perm (o.slots.eraseIdx i) := by
  unfold removeLocal at h
  split at h
  · rename_i i last hfind hlast
    cases h
    refine ⟨i, hfind, ?_⟩
    have hi : i < o.slots.length := (List.findIdx?_eq_some_iff_findIdx_eq.mp hfind).1
    obtain ⟨init, hinit⟩ := List.getLast?_eq_some_iff.mp hlast
    rw [hinit] at hi ⊢
    rw [List.length_append, List.length_singleton] at hi
    by_cases hend : i = init.length
    · subst hend
      rw [List.set_append_right _ _ (Nat.le_refl _), List.eraseIdx_append_of_length_le (Nat.le_refl _),
        Nat.sub_self]
      simp
    · have hlt : i < init.length := by omega
      rw [List.set_append_left _ _ hlt, List.eraseIdx_append_of_lt_length hlt, List.dropLast_concat]
      exact (List.set_perm_cons_eraseIdx hlt last).trans (List.perm_append_singleton _ _).symm
  · cases h

theorem names_nodup_removeLocal (hnd : o.names.Nodup) (h : o.removeLocal name = some o') :
    o'.names.Nodup := by
  obtain ⟨i, -, hperm⟩ := perm_removeLocal h
  have hsub : (o.slots.eraseIdx i).map USlot.name |>.Sublist o.names :=
    (List.eraseIdx_sublist _ _).map _
  exact (hperm.map USlot.name).nodup_iff.mpr (hnd.sublist hsub)

theorem local?_eq_some_iff (hnd : o.names.Nodup) {s : USlot L} :
    o.local? name = some s ↔ s ∈ o.slots ∧ s.name = name := by
  constructor
  · intro h
    exact ⟨List.mem_of_find?_eq_some h, local?_name h⟩
  · rintro ⟨hmem, rfl⟩
    cases hl : o.local? s.name with
    | none =>
      have hnone := List.find?_eq_none.mp hl s hmem
      simp at hnone
    | some t =>
      have ht := List.mem_of_find?_eq_some hl
      rw [List.inj_on_of_nodup_map hnd ht hmem (local?_name hl)]

theorem findLocal_of_getElem? (hnd : o.names.Nodup) {i : Nat} {s : USlot L}
    (hs : o.slots[i]? = some s) : o.findLocal s.name = some i := by
  obtain ⟨hi, hget⟩ := List.getElem?_eq_some_iff.mp hs
  have hlen : i < o.names.length := by
    unfold names
    rwa [List.length_map]
  have hname : o.names[i] = s.name := by
    simp only [names, List.getElem_map, hget]
  rw [findLocal_eq, List.findIdx?_eq_some_iff_getElem]
  refine ⟨hlen, by simp [hname], ?_⟩
  intro j hj
  have hne : o.names[j] ≠ o.names[i] := by
    intro heq
    exact absurd ((hnd.getElem_inj_iff).mp heq) (by omega)
  rw [hname] at hne
  simpa using hne

end UObject

def distinctNames (L : CodeBase) : Discipline L where
  r o o' := o.names.Nodup → o'.names.Nodup
  may _ _ := True
  opened _ := True
  light := by
    intro o o' hslots _ hnd
    unfold UObject.names
    rw [hslots]
    exact hnd
  trans h h' hnd := h' (h hnd)
  asked _ _ := trivial
  opened_of_may _ := trivial
  opened_congr _ _ := trivial
  store := by
    intro o s granted o' i b _ hset hnd
    rcases UObject.names_setLocal hset with heq | ⟨hfind, heq⟩ <;> rw [heq]
    · exact hnd
    · exact List.nodup_append.mpr ⟨hnd, List.nodup_singleton _, by
        intro a ha b hb
        rw [List.mem_singleton.mp hb]
        rintro rfl
        exact UObject.not_mem_names hfind ha⟩
  assign := by
    intro o i s v _ _ _ hnd
    have hnames : (o.slots.modify i fun s => s.assign v).map USlot.name = o.names :=
      UObject.names_modify fun _ _ => rfl
    show ((o.slots.modify i fun s => s.assign v).map USlot.name).Nodup
    rw [hnames]
    exact hnd
  subscribe := by
    intro o i _ hnd
    have hnames : (o.slots.modify i USlot.subscribe).map USlot.name = o.names :=
      UObject.names_modify fun _ _ => rfl
    show ((o.slots.modify i USlot.subscribe).map USlot.name).Nodup
    rw [hnames]
    exact hnd
  remove := by
    intro o n o' _ hremove hnd
    exact UObject.names_nodup_removeLocal hnd hremove

namespace UVM

def Distinct (vm : UVM L) : Prop := ∀ x, (vm.obj x).names.Nodup

theorem distinct_exec {vm : UVM L} (h : vm.Distinct) (a : Access L) : (vm.exec a).1.Distinct := by
  have hpermits : (distinctNames L).Permits vm a := by
    cases a with
    | assign a granted => cases a <;> simp [Discipline.Permits, distinctNames]
    | _ => simp [Discipline.Permits, distinctNames]
  exact fun x => Discipline.each_exec hpermits x (h x)

end UVM

end Urbi
