import Urbi.Obj.Store

/-!
# Property cells that escape

`getSlot`, `getSlotValue`, `urbi_slot_get` and `urbi_global_get` return the entry of the value array as
it stands, and natives read their state from it.  A run keeps its property cells to itself, and reads
through them, exactly as long as none of these meets a slot with accessors.
-/

namespace Urbi

variable {L : CodeBase}
variable {i : Nat} {granted : Bool} {site : Option Nat} {recv : UValue L} {a : Transfer L}

/-! ## What accesses leave in the slots -/

def USlot.Fine (V : UValue L → Prop) (C : USym → Prop) (s : USlot L) : Prop :=
  (∀ v ∈ s.stored.values, V v) ∧ (s.stored.isProps = true → C s.name)

section

variable {V : UValue L → Prop} {C : USym → Prop} {s t : USlot L}

theorem USlot.Fine.congr (h : s.Fine V C) (hname : t.name = s.name) (hstored : t.stored = s.stored) :
    t.Fine V C := by
  unfold USlot.Fine
  rw [hname, hstored]
  exact h

theorem USlot.Fine.assign (h : s.Fine V C) {v : UValue L} (hv : V v) : (s.assign v).Fine V C := by
  obtain ⟨hvalues, hprops⟩ := h
  cases hs : s.stored with
  | plain w =>
    have hassign : (s.assign v).stored = .plain v := by simp [USlot.assign, hs]
    refine ⟨?_, ?_⟩ <;> rw [hassign]
    · simpa [Stored.values] using hv
    · exact fun h => by cases h
  | props p =>
    have hassign : (s.assign v).stored = .props { p with value := v } := by
      simp [USlot.assign, hs]
    rw [hs] at hvalues hprops
    refine ⟨?_, ?_⟩ <;> rw [hassign]
    · intro w hw
      simp only [Stored.values, List.mem_cons, List.not_mem_nil, or_false] at hw hvalues
      rcases hw with rfl | rfl | rfl
      · exact hvalues _ (.inl rfl)
      · exact hvalues _ (.inr (.inl rfl))
      · exact hv
    · exact fun _ => hprops rfl

theorem USlot.fine_make {name : USym} {v : UValue L} (hv : V v) (constant : Bool) :
    (USlot.make name v { constant := constant }).Fine V C := by
  refine ⟨?_, fun h => by cases h⟩
  simpa [USlot.make, USlotAttrs.isProperty, Stored.values] using hv

end

theorem PropBit.mem_slot {b : PropBit} {was : Option (USlot L)} {name : USym} {v w : UValue L}
    (h : w ∈ (b.slot was name v).stored.values) :
    w = v ∨ w = .nil ∨ ∃ s, was = some s ∧ w ∈ s.stored.values := by
  unfold PropBit.slot at h
  cases was with
  | none =>
    cases b <;> simp [Stored.values, PropBit.on, USlotAttrs.isProperty] at h <;> grind
  | some s =>
    cases hs : s.stored <;> cases b <;>
      simp only [Option.map_some, hs] at h <;> split at h <;> simp [Stored.values] at h ⊢ <;> grind

theorem mem_of_mem_modify {α : Type*} {f : α → α} {l : List α} {a : α} (h : a ∈ l.modify i f) :
    a ∈ l ∨ ∃ b ∈ l, a = f b := by
  by_cases hi : i < l.length
  · obtain ⟨l₁, b, l₂, rfl, -, heq⟩ := List.exists_of_modify f hi
    rw [heq] at h
    simp only [List.mem_append, List.mem_cons] at h ⊢
    grind
  · rw [List.modify_eq_self (Nat.le_of_not_lt hi)] at h
    exact .inl h

theorem UObject.mem_setLocal {o o' : UObject L} {s t : USlot L} {b : Bool}
    (h : o.setLocal s granted = some (o', i, b)) (ht : t ∈ o'.slots) :
    t ∈ o.slots ∨ t.name = s.name ∧ t.stored = s.stored := by
  rcases UObject.setLocal_cases h with ⟨j, -, rfl⟩ | ⟨-, -, cap, rfl⟩
  · rcases mem_of_mem_modify ht with ht | ⟨was, -, rfl⟩
    · exact .inl ht
    · exact .inr ⟨rfl, rfl⟩
  · rcases List.mem_append.mp ht with ht | ht
    · exact .inl ht
    · cases List.mem_singleton.mp ht
      exact .inr ⟨rfl, rfl⟩

theorem UObject.mem_removeLocal {o o' : UObject L} {name : USym} {t : USlot L}
    (h : o.removeLocal name = some o') (ht : t ∈ o'.slots) : t ∈ o.slots := by
  obtain ⟨i, -, hperm⟩ := UObject.perm_removeLocal h
  exact List.mem_of_mem_eraseIdx (hperm.mem_iff.mp ht)

namespace UVM

def Fine (V : UValue L → Prop) (C : ObjId → USym → Prop) (vm : UVM L) : Prop :=
  ∀ x, ∀ s ∈ (vm.obj x).slots, s.Fine V (C x)

namespace Fine

variable {V : UValue L → Prop} {C : ObjId → USym → Prop} {vm vm' : UVM L} {x : ObjId} {name : USym}
  {v : UValue L}

def keeping (V : UValue L → Prop) (C : ObjId → USym → Prop) : Keeping L where
  r x o o' := (∀ s ∈ o.slots, s.Fine V (C x)) → ∀ s ∈ o'.slots, s.Fine V (C x)
  value := V
  may x _ s := s.Fine V (C x)
  removable _ _ := True
  opened _ := True
  light h _ _ hf := h ▸ hf
  trans h h' hf := h' (h hf)
  asked hv _ := USlot.fine_make hv false
  opened_of_may _ := trivial
  opened_congr _ _ := trivial
  store hs h hf t ht := by
    rcases UObject.mem_setLocal h ht with hold | ⟨hname, hstored⟩
    · exact hf t hold
    · exact hs.congr hname hstored
  assign hv _ _ hf s hs := by
    rcases mem_of_mem_modify hs with hs | ⟨t, ht, rfl⟩
    · exact hf s hs
    · exact (hf t ht).assign hv
  subscribe i _ hf s hs := by
    rcases mem_of_mem_modify hs with hs | ⟨t, ht, rfl⟩
    · exact hf s hs
    · exact (hf t ht).congr rfl rfl
  remove _ h hf t ht := hf t (UObject.mem_removeLocal h ht)

theorem of_each (hf : Fine V C vm) (h : (keeping V C).Each vm vm') : Fine V C vm' :=
  fun x => h.obj x (hf x)

theorem setLocal (hf : Fine V C vm) {s : USlot L} {cell : Bool} (hs : s.Fine V (C x))
    (h : vm.setLocal x s cell granted = some (vm', i)) : Fine V C vm' :=
  hf.of_each (Keeping.Each.setLocal (K := keeping V C) hs h).1

theorem assign (hf : Fine V C vm) (a : Assignment L) (hv : V a.value) (granted : Bool) :
    Fine V C (vm.assign granted a).1 :=
  hf.of_each <| Keeping.each_exec (a := .assign a granted)
    ⟨hv, fun _ _ _ => USlot.fine_make hv false⟩

theorem exec (hf : Fine V C vm) (hevent : ∀ e, V (.event e)) {a : Access L}
    (ha : a.valueless = true) : Fine V C (vm.exec a).1 := by
  cases a with
  | getslot | assign | setLocal => cases ha
  | observing on => exact hf
  | subscribe x name event granted =>
    exact hf.of_each (Keeping.each_exec fun _ _ => USlot.fine_make (hevent event) false)
  | _ => exact hf.of_each (Keeping.each_exec trivial)

end Fine

end UVM

/-! ## The invariant -/

namespace Store

/-- There is a cell `id`, and whether it is a property cell. -/
def Kind (cells : List (UCellBody L)) (id : Nat) (props : Bool) : Prop :=
  ∃ body, cells[id]? = some body ∧ body.isProps = props

def Safe (cells : List (UCellBody L)) (v : UValue L) : Prop :=
  ∀ id, v = .cell id → Kind cells id false

def Grows (cells cells' : List (UCellBody L)) : Prop :=
  ∀ id props, Kind cells id props → Kind cells' id props

variable {σ : Store L} {cells cells' : List (UCellBody L)} {v : UValue L}

theorem Grows.safe (h : Grows cells cells') (hv : Safe cells v) : Safe cells' v :=
  fun id hid => h id false (hv id hid)

theorem grows_append (cells : List (UCellBody L)) (body : UCellBody L) :
    Grows cells (cells ++ [body]) := by
  rintro id props ⟨b, hb, hkind⟩
  have hlt : id < cells.length := (List.getElem?_eq_some_iff.mp hb).1
  exact ⟨b, by rwa [List.getElem?_append_left hlt], hkind⟩

theorem safe_of_atom (h : v.isCellRef = false) : Safe cells v := by
  intro id hid
  rw [hid] at h
  cases h

structure Inv (σ : Store L) : Prop where
  roots : ∀ r, Safe σ.cells (σ.roots r)
  cells : ∀ body ∈ σ.cells, ∀ v ∈ body.values, Safe σ.cells v
  slots : σ.vm.Fine (Safe σ.cells) fun x n => Kind σ.cells (σ.propsAt x n) true

namespace Inv

theorem put (h : Inv σ) (dst : Root) (hv : Safe σ.cells v) : Inv (σ.put dst v) where
  roots r := by
    show Safe σ.cells (Function.update σ.roots dst v r)
    by_cases hr : r = dst
    · rw [hr, Function.update_self]
      exact hv
    · rw [Function.update_of_ne hr]
      exact h.roots r
  cells := h.cells
  slots := h.slots

theorem vm (h : Inv σ) {vm : UVM L}
    (hvm : vm.Fine (Safe σ.cells) fun x n => Kind σ.cells (σ.propsAt x n) true) :
    Inv { σ with vm := vm } := ⟨h.roots, h.cells, hvm⟩

theorem grow (h : Inv σ) {cells : List (UCellBody L)} (hg : Grows σ.cells cells)
    (hcells : ∀ body ∈ cells, body ∈ σ.cells ∨ ∀ v ∈ body.values, Safe σ.cells v) :
    Inv { σ with cells := cells } where
  roots r := hg.safe (h.roots r)
  cells body hbody v hv := by
    apply hg.safe
    rcases hcells body hbody with hold | hnew
    · exact h.cells body hold v hv
    · exact hnew v hv
  slots x s hs := ⟨fun v hv => hg.safe ((h.slots x s hs).1 v hv),
    fun hp => hg _ true ((h.slots x s hs).2 hp)⟩

theorem alloc (h : Inv σ) (dst : Root) {body : UCellBody L} (hkind : body.isProps = false)
    (hempty : body.values = []) : Inv (σ.alloc dst body) := by
  have hgrown : Inv { σ with cells := σ.cells ++ [body] } := by
    apply h.grow (grows_append _ _)
    intro b hb
    rcases List.mem_append.mp hb with hb | hb
    · exact .inl hb
    · cases List.mem_singleton.mp hb
      right
      rw [hempty]
      exact List.forall_mem_nil _
  apply hgrown.put
  intro id hid
  cases hid
  exact ⟨body, List.getElem?_concat_length, hkind⟩

theorem refill (h : Inv σ) (cell : Nat) {body : UCellBody L}
    (hbody : ∀ v ∈ body.values, Safe σ.cells v) : Inv (σ.refill cell body) := by
  -- a list is refilled as a list and a dictionary as a dictionary
  have hset : ∀ was, σ.cells[cell]? = some was → was.isProps = body.isProps →
      Inv { σ with cells := σ.cells.set cell body } := by
    intro was hwas hkind
    apply h.grow
    · rintro id props ⟨b, hb, hb'⟩
      by_cases hid : cell = id
      · subst hid
        cases hwas.symm.trans hb
        have hlt := (List.getElem?_eq_some_iff.mp hwas).1
        exact ⟨body, List.getElem?_set_self hlt, hkind.symm.trans hb'⟩
      · exact ⟨b, by rwa [List.getElem?_set_ne hid], hb'⟩
    · intro b hb
      rcases List.mem_or_eq_of_mem_set hb with hb | hb
      · exact .inl hb
      · rw [hb]
        exact .inr hbody
  unfold Store.refill
  split
  · rename_i was
    exact hset _ was rfl
  · rename_i was
    exact hset _ was rfl
  · exact h

theorem setLocal (h : Inv σ) (x : ObjId) {s : USlot L} (hs : ∀ v ∈ s.stored.values, Safe σ.cells v)
    (cell granted : Bool) : Inv (σ.setLocal x s cell granted) := by
  unfold Store.setLocal
  split
  · exact h
  · rename_i vm' i hset
    split
    · -- the new cell is behind the slot stored, every other slot keeps its own
      have hgrows : Grows σ.cells (σ.cells ++ [.props]) := grows_append _ _
      have hnew : Kind (σ.cells ++ [(.props : UCellBody L)]) σ.cells.length true :=
        ⟨.props, List.getElem?_concat_length, rfl⟩
      have hgrown : Inv { σ with cells := σ.cells ++ [.props] } := by
        apply h.grow hgrows
        intro b hb
        rcases List.mem_append.mp hb with hb | hb
        · exact .inl hb
        · cases List.mem_singleton.mp hb
          exact .inr (List.forall_mem_nil _)
      refine ⟨hgrown.roots, hgrown.cells, ?_⟩
      refine UVM.Fine.setLocal ?_ ?_ hset
      · intro y t ht
        refine ⟨(hgrown.slots y t ht).1, fun hp => ?_⟩
        have hold : Kind (σ.cells ++ [.props]) (σ.propsAt y t.name) true := (hgrown.slots y t ht).2 hp
        show Kind (σ.cells ++ [.props]) (Function.update σ.propsAt x
          (Function.update (σ.propsAt x) s.name σ.cells.length) y t.name) true
        by_cases hy : y = x
        · subst hy
          rw [Function.update_self]
          by_cases hname : t.name = s.name
          · rw [hname, Function.update_self]
            exact hnew
          · rw [Function.update_of_ne hname]
            exact hold
        · rw [Function.update_of_ne hy]
          exact hold
      · refine ⟨fun v hv => hgrows.safe (hs v hv), fun _ => ?_⟩
        show Kind (σ.cells ++ [.props]) (Function.update σ.propsAt x
          (Function.update (σ.propsAt x) s.name σ.cells.length) x s.name) true
        rw [Function.update_self, Function.update_self]
        exact hnew
    · rename_i hplain
      apply h.vm
      refine h.slots.setLocal ⟨hs, fun hp => ?_⟩ hset
      rw [s.kind] at hplain
      exact absurd hp hplain

end Inv

theorem safe_getD {l : List (UValue L)} (h : ∀ v ∈ l, Safe cells v) (i : Nat) :
    Safe cells (l.getD i .nil) := by
  by_cases hi : i < l.length
  · rw [List.getD_eq_getElem _ _ hi]
    exact h _ (List.getElem_mem hi)
  · rw [List.getD_eq_default _ _ (Nat.le_of_not_lt hi)]
    exact safe_of_atom rfl

theorem Inv.get (h : Inv σ) (p : Place) : Safe σ.cells (σ.get p) := by
  have hcell : ∀ (cell : Nat) (body : UCellBody L), σ.cells[cell]? = some body →
      ∀ v ∈ body.values, Safe σ.cells v :=
    fun _ body hbody => h.cells body (List.mem_of_getElem? hbody)
  unfold Store.get
  split
  · exact h.roots _
  · split
    · rename_i hbody
      exact safe_getD (hcell _ _ hbody) _
    · rename_i hbody
      exact safe_getD (fun v hv => hcell _ _ hbody v (List.mem_append_right _ hv)) _
    · exact safe_of_atom rfl
  · split
    · rename_i hbody
      exact safe_getD (fun v hv => hcell _ _ hbody v (List.mem_append_left _ hv)) _
    · exact safe_of_atom rfl

theorem Inv.answer (h : Inv σ) (dst : Root) {r : UVM L × Option (UValue L)}
    (hvm : r.1.Fine (Safe σ.cells) fun x n => Kind σ.cells (σ.propsAt x n) true)
    (hv : ∀ v, r.2 = some v → Safe σ.cells v) : Inv (σ.answer dst r) := by
  have hmoved : Inv { σ with vm := r.1 } := h.vm hvm
  unfold Store.answer
  cases hr : r.2 with
  | none => exact hmoved
  | some v => exact hmoved.put dst (hv v hr)

theorem mem_of_read {s : USlot L} (h : s.read = .value v) : v ∈ s.stored.values := by
  unfold USlot.read at h
  split at h
  · rename_i hs
    cases h
    rw [hs]
    exact List.mem_singleton_self _
  · rename_i p hs
    split at h <;> cases h
    rw [hs]
    simp [Stored.values]

theorem slotAt_of_resolve {vm : UVM L} {o : ObjId} {name : USym} {flagging : Bool}
    {ref : UObjSlotRef} (h : (vm.resolveImpl o name flagging).2 = some ref) :
    ∃ s ∈ (vm.obj ref.owner).slots, vm.slotAt ref = some s := by
  obtain ⟨s, -, hs⟩ := UObject.local?_of_findLocal (vm.findLocal_of_resolveImpl h)
  exact ⟨s, List.mem_of_getElem? hs, hs⟩

theorem mem_of_resolved {o : ObjId} {name : USym} {flagging : Bool} {s : USlot L}
    (h : s ∈ σ.resolved o name flagging) : ∃ x, s ∈ (σ.vm.obj x).slots := by
  obtain ⟨ref, -, hs⟩ := Option.bind_eq_some_iff.mp h
  exact ⟨ref.owner, List.mem_of_getElem? hs⟩

theorem slotGet_resolved {name : USym} {what : String} {f : Fetched L}
    (h : (σ.vm.slotGet recv name what site).answer = .ok f) :
    ∃ o ∈ σ.vm.dispatchProto recv, ∃ s ∈ σ.resolved o name site.isSome, f = s.read := by
  unfold UVM.slotGet at h
  split at h
  · cases h
  · rename_i o ho
    rw [UVM.resolve_either] at h
    have hwalked := σ.vm.walked_resolveImpl o name site.isSome
    split at h
    · cases h
    · rename_i vm ref hres
      cases h
      obtain ⟨s, -, hat⟩ := slotAt_of_resolve (congrArg Prod.snd hres)
      rw [hres] at hwalked
      have hslot : vm.slotAt ref = some s := by
        rw [UVM.slotAt, hwalked.obj]
        exact hat
      refine ⟨o, ho, s, ?_, by rw [hslot]; rfl⟩
      rw [resolved, hres]
      exact hat

theorem getslot_yields {self : Bool} {name : Option USym} {f : Fetched L}
    (h : (σ.vm.getslot self name recv site).answer = .ok f) :
    σ.Yields (σ.vm.dispatchProto recv) name site f := by
  unfold UVM.getslot at h
  split at h
  · cases h
  · rename_i name
    dsimp only at h
    split at h
    · rename_i o k ho
      split at h
      · rename_i owner v hcache
        cases h
        refine ⟨o, ho, name, rfl, ?_⟩
        rw [Option.bind_some, hcache]
        refine ⟨rfl, ?_⟩
        unfold UVM.cachedRead at hcache
        split at hcache
        · obtain ⟨w, -, hw⟩ := Option.bind_eq_some_iff.mp hcache
          obtain ⟨s, hs, hplain⟩ := Option.bind_eq_some_iff.mp hw
          split at hplain
          · rename_i hstored
            cases hplain
            exact ⟨s, List.mem_of_getElem? hs, hstored⟩
          · cases hplain
        · cases hcache
      · rename_i hmiss
        obtain ⟨o', ho', hread⟩ := slotGet_resolved h
        cases ho.symm.trans ho'
        refine ⟨o, ho, name, rfl, ?_⟩
        rw [Option.bind_some, hmiss]
        exact hread
    · rename_i site _ _ hno
      obtain ⟨o, ho, hread⟩ := slotGet_resolved h
      refine ⟨o, ho, name, rfl, ?_⟩
      cases site with
      | none => exact hread
      | some k => exact (hno o k ho rfl).elim

theorem Yields.mem {recv : Option ObjId} {name : Option USym} (h : σ.Yields recv name site (.value v)) :
    ∃ x, ∃ s ∈ (σ.vm.obj x).slots, v ∈ s.stored.values := by
  obtain ⟨o, -, n, -, h⟩ := h
  split at h
  · obtain ⟨he, s, hs, hstored⟩ := h
    cases he
    exact ⟨_, s, hs, by rw [hstored]; exact List.mem_singleton_self _⟩
  · obtain ⟨s, hs, hread⟩ := h
    obtain ⟨x, hx⟩ := mem_of_resolved hs
    exact ⟨x, s, hx, mem_of_read hread.symm⟩

/-- What a raw read does: it walks, and it returns the value of a plain slot, or the cell of a slot
with accessors when it meets one. -/
structure Raw (σ : Store L) (recv : Option ObjId) (name : Option USym) (leak : Bool)
    (r : UVM L × Except GetError (UValue L)) : Prop where
  walked : UVM.Walked σ.vm r.1
  clean : leak = false → ∀ v, r.2 = .ok v →
    ∃ o ∈ recv, ∃ n ∈ name, ∃ s ∈ σ.resolved o n false, s.stored = .plain v
  leaky : leak = true → ∃ x, ∃ s ∈ (σ.vm.obj x).slots,
    s.stored.isProps = true ∧ r.2 = .ok (.cell (σ.propsAt x s.name))

theorem Raw.error {recv : Option ObjId} {name : Option USym} (e : GetError) :
    Raw σ recv name false (σ.vm, .error e) where
  walked := .refl
  clean _ _ h := by cases h
  leaky h := by cases h

theorem raw_rawGet (o : ObjId) (name : USym) (miss : GetError) :
    Raw σ (some o) (some name) (σ.accessors o name) (σ.rawGet o name miss) := by
  have hwalked := σ.vm.walked_resolveImpl o name false
  unfold rawGet accessors resolved UVM.uobjResolve
  rcases hres : σ.vm.resolveImpl o name false with ⟨vm, _ | ref⟩ <;> rw [hres] at hwalked
  · exact ⟨hwalked, fun _ v h => (by cases h), fun h => (by cases h)⟩
  · obtain ⟨s, hs, hat⟩ := slotAt_of_resolve (congrArg Prod.snd hres)
    have hleak : ((some ref).bind σ.vm.slotAt).any (fun s => s.attrs.isProperty) =
        s.stored.isProps := by
      rw [Option.bind_some, hat, Option.any_some, s.kind]
    rw [hleak]
    refine ⟨hwalked, fun hplain v hv => ?_, fun hprops => ?_⟩
    · have hv : σ.slotValue ref = v := Except.ok.inj hv
      refine ⟨o, rfl, name, rfl, s, ?_, ?_⟩
      · rw [resolved, hres]
        exact hat
      unfold slotValue at hv
      rw [hat] at hv
      dsimp only at hv
      cases hstored : s.stored with
      | plain w =>
        rw [hstored] at hv
        exact congrArg Stored.plain hv
      | props p =>
        rw [hstored] at hplain
        cases hplain
    · refine ⟨ref.owner, s, hs, hprops, ?_⟩
      show Except.ok (σ.slotValue ref) = _
      unfold slotValue
      rw [hat]
      dsimp only
      cases hstored : s.stored with
      | plain w =>
        rw [hstored] at hprops
        cases hprops
      | props p => rfl

theorem raw_objGetSlot (self : UValue L) (name : Option USym) :
    Raw σ (σ.vm.dispatchProto self) name (σ.meets (σ.vm.dispatchProto self) name)
      (σ.objGetSlot self name) := by
  unfold objGetSlot
  cases name with
  | none => cases σ.vm.dispatchProto self <;> exact .error _
  | some name =>
    cases σ.vm.dispatchProto self with
    | none => exact .error _
    | some o => exact raw_rawGet o name _

theorem raw_hostGet (obj : Option ObjId) (name : Option USym) :
    Raw σ obj name (σ.meets obj name) (σ.hostGet obj name) := by
  cases obj with
  | none => exact .error _
  | some o =>
    cases name with
    | none => exact .error _
    | some name => exact raw_rawGet o name _

namespace Raw

variable {o : Option ObjId} {name : Option USym} {leak : Bool}
  {r : UVM L × Except GetError (UValue L)}

theorem inv (hr : Raw σ o name leak r) (h : Inv σ) (hl : leak = false) (dst : Root) :
    Inv (σ.answer dst (r.1, r.2.toOption)) := by
  apply h.answer dst (h.slots.of_each (.of_walked hr.walked))
  intro v hv
  have hok : r.2 = .ok v := by
    cases hres : r.2 with
    | error e =>
      rw [hres] at hv
      cases hv
    | ok w =>
      rw [hres] at hv
      exact congrArg Except.ok (Option.some.inj hv)
  obtain ⟨_, _, _, _, s, hs, hstored⟩ := hr.clean hl v hok
  obtain ⟨x, hx⟩ := mem_of_resolved hs
  apply (h.slots x s hx).1
  rw [hstored]
  exact List.mem_singleton_self v

theorem yields (hr : Raw σ o name leak r) (hl : leak = false) (hok : r.2 = .ok v) :
    σ.Yields o name none (.value v) := by
  obtain ⟨x, hx, n, hn, s, hs, hstored⟩ := hr.clean hl v hok
  refine ⟨x, hx, n, hn, s, hs, ?_⟩
  rw [USlot.read, hstored]

end Raw

/-! ## Steps and runs -/

theorem Inv.objSetProperty (h : Inv σ) (self : UValue L) (name : Option USym) (prop : Option Bytes)
    (hv : Safe σ.cells v) (cell granted : Bool) :
    Inv (σ.objSetProperty self name prop v cell granted) := by
  unfold Store.objSetProperty
  split
  · rename_i x name b _ _
    split
    · exact h
    · apply h.setLocal
      -- what the slot carried already, with one part replaced
      have hwas : ∀ s, (σ.vm.obj x).local? name = some s → ∀ w ∈ s.stored.values, Safe σ.cells w :=
        fun s hs => (h.slots x s (List.mem_of_find?_eq_some hs)).1
      intro w hw
      rcases PropBit.mem_slot hw with rfl | rfl | ⟨s, hs, hmem⟩
      · exact hv
      · exact safe_of_atom rfl
      · exact hwas s hs w hmem
  · exact h

theorem objGetProperty_mem {self : UValue L} {name : Option USym} {prop : Option Bytes}
    (h : σ.objGetProperty self name prop = some v) :
    v.isCellRef = false ∨ ∃ x, ∃ s ∈ (σ.vm.obj x).slots, v ∈ s.stored.values := by
  unfold Store.objGetProperty at h
  split at h
  · rename_i x name prop _
    have haccessor : ∀ p, ((σ.vm.obj x).local? name).map USlot.stored = some (.props p) →
        ∀ w ∈ [p.getter, p.setter, p.value], ∃ x, ∃ s ∈ (σ.vm.obj x).slots, w ∈ s.stored.values := by
      intro p hp w hw
      obtain ⟨s, hs, hstored⟩ := Option.map_eq_some_iff.mp hp
      refine ⟨x, s, List.mem_of_find?_eq_some hs, ?_⟩
      rw [hstored]
      exact hw
    have h := Option.some.inj h
    split at h
    · rw [← h]
      exact .inl rfl
    · rename_i p _ hp
      split at h <;> rw [← h]
      · exact .inr (haccessor p hp _ (by simp))
      · exact .inl rfl
    · rename_i p _ hp
      split at h <;> rw [← h]
      · exact .inr (haccessor p hp _ (by simp))
      · exact .inl rfl
    · rw [← h]
      exact .inl rfl
  · cases h

theorem inv_step (h : Inv σ) (hl : σ.leaks a = false) : Inv (σ.step a) := by
  cases a with
  | make dst v => exact h.put dst (safe_of_atom v.property)
  | copy dst src => exact h.put dst (h.get src)
  | newList dst | newDict dst => exact h.alloc dst rfl rfl
  | fillList cell items =>
    apply h.refill
    intro v hv
    obtain ⟨p, -, rfl⟩ := List.mem_map.mp hv
    exact h.get p
  | fillDict cell entries =>
    apply h.refill
    intro v hv
    simp only [UCellBody.values, List.map_map, List.mem_append, List.mem_map,
      Function.comp_apply] at hv
    rcases hv with ⟨e, -, rfl⟩ | ⟨e, -, rfl⟩ <;> exact h.get _
  | getslot dst self name recv site =>
    apply h.answer dst (h.slots.of_each (.of_reads (UVM.reads_getslot self name _ site)))
    intro v hv
    have hok : (σ.vm.getslot self name (σ.get recv) site).answer = .ok (.value v) := by
      unfold fetched at hv
      split at hv
      · rename_i heq
        cases hv
        exact heq
      · cases hv
    obtain ⟨x, s, hs, hmem⟩ := (getslot_yields hok).mem
    exact (h.slots x s hs).1 v hmem
  | getSlot dst self name => exact (raw_objGetSlot _ name).inv h hl dst
  | slotGet dst obj name => exact (raw_hostGet _ name).inv h hl (.host dst)
  | globalGet dst globals name => exact (raw_hostGet globals name).inv h hl (.host dst)
  | peek dst self name kind =>
    show Inv (σ.answer dst (σ.peek (σ.get self) name kind))
    unfold Store.peek
    split
    · exact h.answer dst h.slots fun v hv => by cases hv
    · rename_i o _
      apply h.answer dst (h.slots.of_each (.of_walked (raw_rawGet o name .hostInvalidArg).walked))
      intro v hv
      cases hv
      -- what is not of the kind asked for has been replaced
      apply safe_of_atom
      split <;> rfl
  | getProperty dst self name prop =>
    apply h.answer dst h.slots
    intro v hv
    rcases objGetProperty_mem hv with hatom | ⟨x, s, hs, hmem⟩
    · exact safe_of_atom hatom
    · exact (h.slots x s hs).1 v hmem
  | assign path recv val granted =>
    apply h.vm
    apply h.slots.assign
    cases path <;> exact h.get val
  | setProperty self name prop val cell granted =>
    exact h.objSetProperty _ name prop (h.get val) cell granted
  | installProperty x name getter setter value cell granted =>
    apply h.setLocal
    intro v hv
    unfold installedSlot at hv
    dsimp only at hv
    split at hv
    · simp only [Stored.values, List.mem_cons, List.not_mem_nil, or_false] at hv
      rcases hv with rfl | rfl | rfl <;> exact h.get _
    · cases List.mem_singleton.mp hv
      exact h.get value
  | setLocal x name val constant granted =>
    apply h.setLocal
    have hfine : (USlot.make name (σ.get val) { constant := constant }).Fine (Safe σ.cells)
        fun _ => True := USlot.fine_make (h.get val) constant
    exact hfine.1
  | access a => exact h.vm (h.slots.exec (fun _ => safe_of_atom rfl) a.property)
  | makeReadonly x => exact h.vm (h.slots.of_each (.modify fun hf => hf))

def withGetter : List (Transfer noCode) :=
  [.access ⟨.new none, rfl⟩, .make (.reg 0) ⟨.closure ⟨0, .native 0 0, 0, none⟩, rfl⟩,
    .make (.reg 1) ⟨.obj 0, rfl⟩,
    .setProperty (.root (.reg 1)) (some [0x78]) (some "oget".toUTF8.toList) (.root (.reg 0)) true true]

theorem distinct_run_withGetter : ((blank fun _ => none).run withGetter).vm.Distinct :=
  distinct_run _ withGetter (UVM.distinct_blank _)

end Store

end Urbi
