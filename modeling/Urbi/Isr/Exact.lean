import Urbi.Isr.Ring

/-!
# Every accepted injection is delivered once

The indices count, modulo `2 ^ 32`, the records that were published and those that were taken.  The
slots between them hold the accepted injections in order.
-/

namespace Urbi.Isr

variable {P : Injection → Bool} {r : UIsrRec} {j : Injection} {p : Producer} {d : Drain} {ds : List Drain}

namespace Injection

def full (j : Injection) : Bool := j.payload.isSome || j.n == 0

def sees (j : Injection) : UInt16 × Option Int64 :=
  (j.id, payloadValue (UInt8.ofNat j.n) (j.payload.getD fun _ => 0))

structure Fine (P : Injection → Bool) (j : Injection) : Prop where
  n : j.n ≤ eventPayloadMax
  allowed : P j = true

end Injection

structure UIsrRec.Carries (r : UIsrRec) (j : Injection) : Prop where
  id : r.id = j.id
  n : r.n = UInt8.ofNat j.n
  payload : ∀ i < j.n, ∀ b, j.payload = some b → r.payload (Fin.ofNat _ i) = b (Fin.ofNat _ i)

theorem payloadValue_congr {n : Nat} {bytes bytes' : Payload} (hn : n ≤ eventPayloadMax)
    (h : ∀ i < n, bytes (Fin.ofNat _ i) = bytes' (Fin.ofNat _ i)) :
    payloadValue (UInt8.ofNat n) bytes = payloadValue (UInt8.ofNat n) bytes' := by
  have hto : (UInt8.ofNat n).toNat = n := by
    rw [UInt8.toNat_ofNat']
    have hn' : n ≤ 16 := hn
    exact Nat.mod_eq_of_lt (by omega)
  unfold payloadValue
  split
  · rfl
  · refine congrArg (fun w : UInt64 => some w.toInt64) (List.foldl_ext _ _ _ fun w i hi => ?_)
    have hlt : i < n := by
      rw [List.mem_range] at hi
      split at hi
      · rwa [hto] at hi
      · rename_i h8
        have h8' : ¬ n < 8 := by
          rw [UInt8.lt_iff_toNat_lt, hto] at h8
          exact h8
        have hi8 : i < 8 := hi
        omega
    rw [h i hlt]

theorem UIsrRec.Carries.value (h : r.Carries j) (hn : j.n ≤ eventPayloadMax)
    (hfull : j.full = true) :
    (r.id, payloadValue r.n r.payload) = j.sees := by
  rw [Injection.sees, h.id, h.n]
  refine congrArg (Prod.mk j.id) (payloadValue_congr hn fun i hi => ?_)
  cases hp : j.payload with
  | none =>
    -- nothing was handed in, so that nothing was announced
    rw [Injection.full, hp, Option.isSome_none, Bool.false_or, beq_iff_eq] at hfull
    omega
  | some b => exact h.payload i hi b hp

theorem slot_ofNat (k : Nat) : slot (UInt32.ofNat k) = Fin.ofNat isrSlots k := by
  apply Fin.ext
  show (UInt32.ofNat k).toNat % 16 = k % 16
  rw [UInt32.toNat_ofNat']
  omega

theorem slot_ne {k m : Nat} (h : k < m) (h' : m < k + isrSlots) :
    Fin.ofNat isrSlots k ≠ Fin.ofNat isrSlots m := by
  intro he
  have hv : k % 16 = m % 16 := congrArg Fin.val he
  have hm : m < k + 16 := h'
  omega

theorem full_iff {a t : Nat} (h : t ≤ a) (h' : a ≤ t + isrSlots) :
    16 ≤ UInt32.ofNat a - UInt32.ofNat t ↔ a = t + 16 := by
  rw [UInt32.le_iff_toNat_le, UInt32.toNat_sub, UInt32.toNat_ofNat', UInt32.toNat_ofNat']
  show 16 ≤ _ ↔ _
  have : isrSlots = 16 := rfl
  omega

theorem empty_iff {a t : Nat} (h : t ≤ a) (h' : a ≤ t + isrSlots) :
    UInt32.ofNat t = UInt32.ofNat a ↔ t = a := by
  constructor
  · intro he
    have hv := congrArg UInt32.toNat he
    rw [UInt32.toNat_ofNat', UInt32.toNat_ofNat'] at hv
    have : isrSlots = 16 := rfl
    omega
  · exact fun he => he ▸ rfl

/-- What holds of the byte just copied and of those before it holds of all of them. -/
theorem copied_succ {payload : Payload} {v : UInt8} {i : Nat}
    {Q : Nat → UInt8 → Prop} (hnew : ∀ k, Fin.ofNat eventPayloadMax k = Fin.ofNat _ i → Q k v)
    (hold : ∀ k < i, Q k (payload (Fin.ofNat _ k))) :
    ∀ k < i + 1, Q k (Function.update payload (Fin.ofNat _ i) v (Fin.ofNat _ k)) := by
  intro k hk
  by_cases hki : Fin.ofNat eventPayloadMax k = Fin.ofNat eventPayloadMax i
  · rw [hki, Function.update_self]
    exact hnew k hki
  · rw [Function.update_of_ne hki]
    have hne : k ≠ i := fun he => hki (he ▸ rfl)
    exact hold k (by omega)

def Drain.onItsWay : Drain → Nat
  | .deliver _ => 1
  | _ => 0

namespace Sys

def taken (σ : Sys) : Nat :=
  σ.delivered.length +
    match σ.drains with
    | [] => 0
    | d :: _ => d.onItsWay

def Calling (P : Injection → Bool) (σ : Sys) (j : Injection) (head : UInt32) : Prop :=
  j.Fine P ∧ j.id.toNat < σ.eventCount ∧ head = σ.isrHead

def ProducerOk (P : Injection → Bool) (σ : Sys) : Producer → Prop
  | .idle => True
  | .checkId j => j.Fine P
  | .loadHead j => j.Fine P ∧ j.id.toNat < σ.eventCount
  | .loadTail j head => σ.Calling P j head
  | .storeId j head => σ.Calling P j head ∧ σ.accepted.length < σ.taken + isrSlots
  | .storeN j head =>
    σ.Calling P j head ∧ σ.accepted.length < σ.taken + isrSlots ∧ (σ.isr (slot head)).id = j.id
  | .copy j bytes head i =>
    σ.Calling P j head ∧ σ.accepted.length < σ.taken + isrSlots ∧ (σ.isr (slot head)).id = j.id ∧
      (σ.isr (slot head)).n = UInt8.ofNat j.n ∧ j.payload = some bytes ∧ i < j.n ∧
      ∀ k < i, (σ.isr (slot head)).payload (Fin.ofNat _ k) = bytes (Fin.ofNat _ k)
  | .publish j head =>
    σ.Calling P j head ∧ σ.accepted.length < σ.taken + isrSlots ∧
      (σ.isr (slot head)).Carries j

def DrainOk (σ : Sys) : Drain → Prop
  | .loadHead => True
  | .test head => head ≠ σ.isrTail → σ.taken < σ.accepted.length
  | .loadId => σ.taken < σ.accepted.length
  | .loadN id => ∃ j, σ.accepted[σ.taken]? = some j ∧ id = j.id
  | .copy r i => ∃ j, σ.accepted[σ.taken]? = some j ∧ r.id = j.id ∧ r.n = UInt8.ofNat j.n ∧
      i < eventPayloadMax ∧ ∀ k < i, k < j.n → ∀ b, j.payload = some b →
        r.payload (Fin.ofNat _ k) = b (Fin.ofNat _ k)
  | .storeTail r => ∃ j, σ.accepted[σ.taken]? = some j ∧ r.Carries j
  | .deliver r => ∃ j, σ.accepted[σ.delivered.length]? = some j ∧ r.Carries j
  | .emitting => True

def DrainsOk (σ : Sys) : List Drain → Prop
  | [] => True
  | d :: ds => σ.DrainOk d ∧ ∀ d' ∈ ds, d' = .emitting

structure Inv (P : Injection → Bool) (σ : Sys) : Prop where
  head : σ.isrHead = UInt32.ofNat σ.accepted.length
  tail : σ.isrTail = UInt32.ofNat σ.taken
  le : σ.taken ≤ σ.accepted.length
  room : σ.accepted.length ≤ σ.taken + isrSlots
  slots : ∀ k j, σ.taken ≤ k → σ.accepted[k]? = some j → (σ.isr (Fin.ofNat _ k)).Carries j
  fine : ∀ j ∈ σ.accepted, j.Fine P ∧ j.id.toNat < σ.eventCount
  producer : σ.ProducerOk P σ.producer
  drains : σ.DrainsOk σ.drains
  seen : (∀ j, P j = true → j.full = true) →
    σ.delivered = (σ.accepted.take σ.delivered.length).map Injection.sees

variable {σ σ' : Sys}

theorem inv_boot : Inv P boot where
  head := rfl
  tail := rfl
  le := Nat.le_refl _
  room := Nat.zero_le _
  slots k j _ hj := by cases hj
  fine j hj := by cases hj
  producer := trivial
  drains := trivial
  seen _ := rfl

theorem ProducerOk.mono (h : σ.ProducerOk P p) (hisr : σ'.isr = σ.isr)
    (hhead : σ'.isrHead = σ.isrHead) (hacc : σ'.accepted = σ.accepted)
    (hcount : σ.eventCount ≤ σ'.eventCount) (htaken : σ.taken ≤ σ'.taken) : σ'.ProducerOk P p := by
  have hcall : ∀ j head, σ.Calling P j head → σ'.Calling P j head := fun j head hc =>
    ⟨hc.1, Nat.lt_of_lt_of_le hc.2.1 hcount, hhead ▸ hc.2.2⟩
  have hroom : σ.accepted.length < σ.taken + isrSlots →
      σ'.accepted.length < σ'.taken + isrSlots := by
    rw [hacc]
    omega
  cases p with
  | idle => trivial
  | checkId j => exact h
  | loadHead j => exact ⟨h.1, Nat.lt_of_lt_of_le h.2 hcount⟩
  | loadTail j head => exact hcall j head h
  | storeId j head => exact ⟨hcall j head h.1, hroom h.2⟩
  | storeN j head | copy j bytes head i | publish j head =>
    exact ⟨hcall j head h.1, hroom h.2.1, hisr ▸ h.2.2⟩

theorem DrainOk.publish (h : σ.DrainOk d) (htail : σ'.isrTail = σ.isrTail)
    (htaken : σ'.taken = σ.taken) (hdel : σ'.delivered = σ.delivered)
    (hacc : σ'.accepted = σ.accepted ++ [j]) : σ'.DrainOk d := by
  have hlt : σ.taken < σ.accepted.length → σ'.taken < σ'.accepted.length := by
    rw [hacc, htaken, List.length_append]
    omega
  have hget : ∀ k j', σ.accepted[k]? = some j' → σ'.accepted[k]? = some j' := fun k j' hk => by
    rw [hacc, List.getElem?_append_left (List.getElem?_eq_some_iff.mp hk).1]
    exact hk
  cases d with
  | loadHead | emitting => trivial
  | test head => exact fun hne => hlt (h (htail ▸ hne))
  | loadId => exact hlt h
  | loadN id =>
    obtain ⟨j', hj', hid⟩ := h
    exact ⟨j', htaken ▸ hget _ _ hj', hid⟩
  | copy r i | storeTail r =>
    obtain ⟨j', hj', hr⟩ := h
    exact ⟨j', htaken ▸ hget _ _ hj', hr⟩
  | deliver r =>
    obtain ⟨j', hj', hr⟩ := h
    exact ⟨j', hdel ▸ hget _ _ hj', hr⟩

theorem DrainsOk.imp (h : σ.DrainsOk ds) (hd : ∀ d, σ.DrainOk d → σ'.DrainOk d) :
    σ'.DrainsOk ds := by
  cases ds with
  | nil => trivial
  | cons d ds => exact ⟨hd d h.1, h.2⟩

theorem Inv.withProducer (h : Inv P σ) (hp : σ.ProducerOk P p) : Inv P { σ with producer := p } :=
  { h with producer := by cases p <;> exact hp }

theorem Inv.setRec (h : Inv P σ) (hroom : σ.accepted.length < σ.taken + isrSlots)
    {f : UIsrRec → UIsrRec} (hp : (σ.setRec σ.isrHead f).ProducerOk P p) :
    Inv P { σ.setRec σ.isrHead f with producer := p } := by
  refine { h with slots := fun k j hk hj => ?_, producer := by cases p <;> exact hp }
  have hlt : k < σ.accepted.length := (List.getElem?_eq_some_iff.mp hj).1
  have hne : Fin.ofNat isrSlots k ≠ slot σ.isrHead := by
    rw [h.head, slot_ofNat]
    have hk' : σ.taken ≤ k := hk
    exact slot_ne hlt (by omega)
  show (Function.update σ.isr (slot σ.isrHead) (f (σ.isr (slot σ.isrHead))) _).Carries j
  rw [Function.update_of_ne hne]
  exact h.slots k j hk hj

@[simp] theorem setRec_isr_slot (σ : Sys) (i : UInt32) (f : UIsrRec → UIsrRec) :
    (σ.setRec i f).isr (slot i) = f (σ.isr (slot i)) := Function.update_self ..

theorem inv_publish (h : Inv P σ) {head : UInt32} (hp : σ.ProducerOk P (.publish j head)) :
    Inv P { σ with isrHead := head + 1, producer := .idle, accepted := σ.accepted ++ [j] } := by
  obtain ⟨⟨hfine, hid, rfl⟩, hroom, hcarries⟩ := hp
  rw [h.head, slot_ofNat] at hcarries
  have htaken : σ.taken ≤ σ.accepted.length := h.le
  refine ⟨?_, h.tail, ?_, ?_, ?_, ?_, trivial, ?_, ?_⟩
  · show σ.isrHead + 1 = UInt32.ofNat (σ.accepted ++ [j]).length
    rw [h.head, List.length_append, UInt32.ofNat_add]
    rfl
  · show σ.taken ≤ (σ.accepted ++ [j]).length
    rw [List.length_append]
    omega
  · show (σ.accepted ++ [j]).length ≤ σ.taken + isrSlots
    rw [List.length_append, List.length_singleton]
    omega
  · intro k j' hk hj'
    replace hj' : (σ.accepted ++ [j])[k]? = some j' := hj'
    by_cases hlt : k < σ.accepted.length
    · rw [List.getElem?_append_left hlt] at hj'
      exact h.slots k j' hk hj'
    · -- the record just published
      have hk' := (List.getElem?_eq_some_iff.mp hj').1
      rw [List.length_append, List.length_singleton] at hk'
      obtain rfl : k = σ.accepted.length := by omega
      rw [List.getElem?_concat_length] at hj'
      obtain rfl : j = j' := Option.some.inj hj'
      exact hcarries
  · intro j' hj'
    rcases List.mem_append.mp hj' with hj' | hj'
    · exact h.fine j' hj'
    · obtain rfl := List.mem_singleton.mp hj'
      exact ⟨hfine, hid⟩
  · exact h.drains.imp fun d hd => hd.publish rfl rfl rfl rfl
  · intro hfull
    show σ.delivered = ((σ.accepted ++ [j]).take σ.delivered.length).map Injection.sees
    have hle : σ.delivered.length ≤ σ.accepted.length :=
      Nat.le_trans (Nat.le_add_right ..) htaken
    rw [List.take_append_of_le_length hle]
    exact h.seen hfull

theorem inv_produce (h : Inv P σ) (hm : σ.produce σ.producer = some σ') : Inv P σ' := by
  have hp := h.producer
  generalize σ.producer = p at hp hm
  cases p with
  | idle => cases hm
  | checkId j =>
    cases hm
    apply h.withProducer
    split
    · trivial
    · rename_i hlt
      exact ⟨hp, Nat.lt_of_not_le hlt⟩
  | loadHead j =>
    cases hm
    exact h.withProducer ⟨hp.1, hp.2, rfl⟩
  | loadTail j head =>
    cases hm
    apply h.withProducer
    split
    · trivial
    · rename_i hlt
      obtain ⟨hfine, hid, rfl⟩ := hp
      rw [h.head, h.tail, full_iff h.le h.room] at hlt
      have hroom : σ.accepted.length ≤ σ.taken + 16 := h.room
      exact ⟨⟨hfine, hid, rfl⟩, show _ < σ.taken + 16 by omega⟩
  | storeId j head =>
    cases hm
    obtain ⟨⟨hfine, hid, rfl⟩, hroom⟩ := hp
    exact h.setRec hroom ⟨⟨hfine, hid, rfl⟩, hroom, by rw [setRec_isr_slot]⟩
  | storeN j head =>
    cases hm
    obtain ⟨⟨hfine, hid, rfl⟩, hroom, hrid⟩ := hp
    apply h.setRec hroom
    have hcall : (σ.setRec σ.isrHead fun r => { r with n := UInt8.ofNat j.n }).Calling P j
      σ.isrHead := ⟨hfine, hid, rfl⟩
    cases hpay : j.payload with
    | none =>
      refine ⟨hcall, hroom, ?_⟩
      rw [setRec_isr_slot]
      exact ⟨hrid, rfl, fun i _ b hb => by cases hpay.symm.trans hb⟩
    | some bytes =>
      show ProducerOk P _ (if j.n = 0 then _ else _)
      split <;> rename_i hz <;> refine ⟨hcall, hroom, ?_⟩ <;> rw [setRec_isr_slot]
      · exact ⟨hrid, rfl, fun i hi => absurd hi (by omega)⟩
      · exact ⟨hrid, rfl, hpay, Nat.pos_of_ne_zero hz, fun k hk => absurd hk (Nat.not_lt_zero k)⟩
  | copy j bytes head i =>
    cases hm
    obtain ⟨⟨hfine, hid, rfl⟩, hroom, hrid, hrn, hpay, hi, hcopied⟩ := hp
    apply h.setRec hroom
    -- the bytes up to the one just stored
    have hnext := copied_succ (v := bytes (Fin.ofNat _ i)) (Q := fun k b => b = bytes (Fin.ofNat _ k))
      (fun k hk => by rw [hk]) hcopied
    split
    · rename_i hlt
      refine ⟨⟨hfine, hid, rfl⟩, hroom, ?_⟩
      rw [setRec_isr_slot]
      exact ⟨hrid, hrn, hpay, hlt, hnext⟩
    · rename_i hlt
      refine ⟨⟨hfine, hid, rfl⟩, hroom, ?_⟩
      rw [setRec_isr_slot]
      refine ⟨hrid, hrn, fun k hk b hb => ?_⟩
      cases hpay.symm.trans hb
      exact hnext k (by omega)
  | publish j head =>
    cases hm
    exact inv_publish h hp

/-! ## The drain -/

theorem taken_cons (hds : σ.drains = d :: ds) (hd : d.onItsWay = 0) :
    σ.taken = σ.delivered.length := by
  unfold taken
  rw [hds]
  exact congrArg (σ.delivered.length + ·) hd

theorem taken_emitting (hds : ∀ d ∈ σ.drains, d = .emitting) : σ.taken = σ.delivered.length := by
  cases hd : σ.drains with
  | nil =>
    unfold taken
    rw [hd]
    rfl
  | cons d ds =>
    have he := hds d (hd ▸ List.mem_cons_self)
    exact taken_cons hd (by rw [he]; rfl)

theorem drainsOk_emitting (hds : ∀ d ∈ ds, d = .emitting) : σ.DrainsOk ds := by
  cases ds with
  | nil => trivial
  | cons d ds =>
    obtain rfl := hds d List.mem_cons_self
    exact ⟨trivial, fun d' hd' => hds d' (List.mem_cons_of_mem _ hd')⟩

theorem Inv.withDrains (h : Inv P σ) (ht : { σ with drains := ds }.taken = σ.taken)
    (hd : { σ with drains := ds }.DrainsOk ds) : Inv P { σ with drains := ds } where
  head := h.head
  tail := by rw [ht]; exact h.tail
  le := by rw [ht]; exact h.le
  room := by rw [ht]; exact h.room
  slots k j hk hj := h.slots k j (ht ▸ hk) hj
  fine := h.fine
  producer := h.producer.mono rfl rfl rfl (Nat.le_refl _) ht.ge
  drains := hd
  seen := h.seen

theorem Inv.next (h : Inv P σ) {d' : Drain} (hds : σ.drains = d :: ds) (hn : d.onItsWay = 0)
    (hn' : d'.onItsWay = 0) (hd' : σ.DrainOk d → { σ with drains := d' :: ds }.DrainOk d') :
    Inv P { σ with drains := d' :: ds } := by
  have hok := h.drains
  rw [hds] at hok
  refine h.withDrains ?_ ⟨hd' hok.1, hok.2⟩
  rw [taken_cons hds hn]
  exact taken_cons rfl hn'

theorem taken_deliver (hds : σ.drains = .deliver r :: ds) : σ.taken = σ.delivered.length + 1 := by
  unfold taken
  rw [hds]
  rfl

theorem Inv.consume_deliver (h : Inv P σ) (ds : List Drain)
    (hj : σ.accepted[σ.delivered.length]? = some j) (hr : r.Carries j) :
    σ.consume ds (.deliver r) = { σ with
      drains := .emitting :: ds
      delivered := σ.delivered ++ [(r.id, payloadValue r.n r.payload)] } :=
  if_pos (by rw [hr.id]; exact (h.fine j (List.mem_of_getElem? hj)).2)

theorem inv_consume (h : Inv P σ) (hds : σ.drains = d :: ds) : Inv P (σ.consume ds d) := by
  have hok := h.drains
  rw [hds] at hok
  have hat : ∀ d', d.onItsWay = 0 → Drain.onItsWay d' = 0 →
      { σ with drains := d' :: ds }.taken = σ.taken := fun d' hn hn' => by
    rw [taken_cons hds hn]
    exact taken_cons rfl hn'
  -- the record the drain reads is that of the oldest injection not yet taken
  have hrec : ∀ j, σ.accepted[σ.taken]? = some j → (σ.isr (slot σ.isrTail)).Carries j := by
    intro j hj
    rw [h.tail, slot_ofNat]
    exact h.slots _ j (Nat.le_refl _) hj
  cases d with
  | loadHead =>
    refine h.next hds rfl rfl fun _ => fun hne => ?_
    rw [hat _ rfl rfl]
    have hne' : σ.taken ≠ σ.accepted.length := fun he => hne (by rw [h.head, ← he, ← h.tail])
    exact Nat.lt_of_le_of_ne h.le hne'
  | test head =>
    show Inv P { σ with drains := if σ.isrTail = head then ds else .loadId :: ds }
    split
    · refine h.withDrains ?_ (drainsOk_emitting hok.2)
      rw [taken_cons hds rfl]
      exact taken_emitting hok.2
    · rename_i hne
      refine h.next hds rfl rfl fun hd => ?_
      show _ < _
      rw [hat _ rfl rfl]
      exact hd (Ne.symm hne)
  | loadId =>
    refine h.next hds rfl rfl fun hd => ?_
    obtain ⟨j, hj⟩ : ∃ j, σ.accepted[σ.taken]? = some j :=
      ⟨_, List.getElem?_eq_getElem hd⟩
    refine ⟨j, ?_, (hrec j hj).id⟩
    rw [hat _ rfl rfl]
    exact hj
  | loadN id =>
    refine h.next hds rfl rfl fun hd => ?_
    obtain ⟨j, hj, hid⟩ := hd
    refine ⟨j, ?_, hid, (hrec j hj).n, by decide, fun k hk => absurd hk (Nat.not_lt_zero k)⟩
    rw [hat _ rfl rfl]
    exact hj
  | copy r i =>
    obtain ⟨j, hj, hid, hn, hi, hcopied⟩ := hok.1
    have hnext := copied_succ (v := (σ.isr (slot σ.isrTail)).payload (Fin.ofNat _ i))
      (Q := fun k v => k < j.n → ∀ b, j.payload = some b → v = b (Fin.ofNat _ k))
      (fun k hk => hk ▸ (hrec j hj).payload k) hcopied
    unfold consume
    dsimp only
    split
    · rename_i hlt
      refine h.next hds rfl rfl fun _ => ⟨j, ?_, hid, hn, hlt, hnext⟩
      rw [hat _ rfl rfl]
      exact hj
    · rename_i hge
      refine h.next hds rfl rfl fun _ => ⟨j, ?_, hid, hn, fun k hk => ?_⟩
      · rw [hat _ rfl rfl]
        exact hj
      · have hfine := (h.fine j (List.mem_of_getElem? hj)).1.n
        exact hnext k (by omega) hk
  | storeTail r =>
    obtain ⟨j, hj, hr⟩ := hok.1
    have ht := taken_cons hds rfl
    have hlt : σ.taken < σ.accepted.length := (List.getElem?_eq_some_iff.mp hj).1
    -- the record is on its way
    have ht' : (σ.consume ds (.storeTail r)).taken = σ.taken + 1 := by rw [ht]; rfl
    have hroom := h.room
    refine ⟨h.head, ?_, ?_, ?_, ?_, h.fine, ?_, ⟨⟨j, ?_, hr⟩, hok.2⟩, h.seen⟩
    · rw [ht', UInt32.ofNat_add, ← h.tail]
      rfl
    · rw [ht']
      exact hlt
    · rw [ht']
      exact Nat.le_trans hroom (by omega)
    · intro k j' hk hj'
      rw [ht'] at hk
      exact h.slots k j' (Nat.le_of_succ_le hk) hj'
    · exact h.producer.mono rfl rfl rfl (Nat.le_refl _) (by rw [ht']; omega)
    · show σ.accepted[σ.delivered.length]? = some j
      rw [← ht]
      exact hj
  | deliver r =>
    obtain ⟨j, hj, hr⟩ := hok.1
    have hfine := h.fine j (List.mem_of_getElem? hj)
    have hc := h.consume_deliver ds hj hr
    have ht' : (σ.consume ds (.deliver r)).taken = σ.taken := by
      rw [hc, taken_deliver hds]
      show (σ.delivered ++ [_]).length + 0 = _
      rw [List.length_append]
      rfl
    rw [hc] at ht' ⊢
    refine ⟨h.head, by rw [ht']; exact h.tail, by rw [ht']; exact h.le,
      by rw [ht']; exact h.room, fun k j' hk hj' => h.slots k j' (ht' ▸ hk) hj', h.fine,
      h.producer.mono rfl rfl rfl (Nat.le_refl _) ht'.ge, ⟨trivial, hok.2⟩, ?_⟩
    intro hfull
    show σ.delivered ++ [_] = (σ.accepted.take (σ.delivered ++ [_]).length).map Injection.sees
    rw [List.length_append, List.length_singleton, List.take_add_one, hj, List.map_append,
      ← h.seen hfull, hr.value hfine.1.n (hfull j hfine.1.allowed)]
    rfl
  | emitting => exact h.next hds rfl rfl fun _ => trivial

theorem inv_step (h : Inv P σ) {m : Move} (hP : ∀ j, m = .call j → P j = true)
    (hm : σ.step m = some σ') : Inv P σ' := by
  cases m with
  | call j =>
    dsimp only [step] at hm
    split at hm <;> cases hm
    apply h.withProducer
    split
    · trivial
    · rename_i hn
      exact ⟨Nat.le_of_not_lt hn, hP j rfl⟩
  | produce => exact inv_produce h hm
  | drain =>
    dsimp only [step] at hm
    split at hm
    · rename_i hopen
      cases hm
      -- the drains in progress wait
      have hwait : ∀ d ∈ σ.drains, d = .emitting := by
        have hok := h.drains
        cases hds : σ.drains with
        | nil => nofun
        | cons d ds =>
          rw [hds] at hok hopen
          cases d with
          | emitting =>
            intro d' hd'
            rcases List.mem_cons.mp hd' with rfl | hd'
            · rfl
            · exact hok.2 d' hd'
          | _ => cases hopen
      refine h.withDrains ?_ ⟨trivial, hwait⟩
      rw [taken_emitting hwait]
      exact taken_cons rfl rfl
    · cases hm
  | consume =>
    dsimp only [step] at hm
    split at hm
    · cases hm
    · rename_i hds
      cases hm
      exact inv_consume h hds
  | register =>
    dsimp only [step] at hm
    split at hm <;> cases hm
    exact ⟨h.head, h.tail, h.le, h.room, h.slots,
      fun j hj => ⟨(h.fine j hj).1, Nat.lt_succ_of_lt (h.fine j hj).2⟩,
      h.producer.mono rfl rfl rfl (Nat.le_succ _) (Nat.le_refl _), h.drains, h.seen⟩

theorem inv_of_runs (h : Runs P σ) : Inv P σ := by
  induction h with
  | boot => exact inv_boot
  | step _ m hP hm ih => exact inv_step ih hP hm

/-! ## Every record gets there -/

def rank (σ : Sys) : Drain → Nat
  | .test head => if σ.isrTail = head then 30 else 20
  | .deliver _ => 23
  | .emitting => 22
  | .loadHead => 21
  | .loadId => 19
  | .loadN _ => 18
  | .copy _ i => 17 - i
  | .storeTail _ => 1

def work (σ : Sys) : Nat :=
  (σ.accepted.length - σ.taken) * 32 +
    match σ.drains with
    | [] => 25
    | d :: _ => σ.rank d

theorem consume_accepted (σ : Sys) (ds : List Drain) (d : Drain) :
    (σ.consume ds d).accepted = σ.accepted := by
  cases d with
  | deliver r =>
    dsimp only [consume]
    split <;> rfl
  | _ => rfl

theorem work_cons (hds : σ.drains = d :: ds) :
    σ.work = (σ.accepted.length - σ.taken) * 32 + σ.rank d := by
  unfold work
  rw [hds]

theorem consume_work (h : Inv P σ) (hlt : σ.delivered.length < σ.accepted.length)
    (hds : σ.drains = d :: ds) : (σ.consume ds d).work < σ.work := by
  have hok := h.drains
  rw [hds] at hok
  rw [work_cons hds]
  -- a step that takes no record and delivers none
  have hsame : ∀ d', d.onItsWay = 0 → Drain.onItsWay d' = 0 →
      σ.consume ds d = { σ with drains := d' :: ds } → σ.rank d' < σ.rank d →
      (σ.consume ds d).work < (σ.accepted.length - σ.taken) * 32 + σ.rank d := by
    intro d' hn hn' hc hr
    rw [hc, work_cons rfl, taken_cons hds hn, taken_cons rfl hn']
    exact Nat.add_lt_add_left hr _
  cases d with
  | loadHead =>
    apply hsame (.test σ.isrHead) rfl rfl rfl
    -- the head just loaded is not the tail
    have hne : σ.isrTail ≠ σ.isrHead := by
      rw [h.tail, h.head]
      intro he
      have := (empty_iff h.le h.room).mp he
      rw [taken_cons hds rfl] at this
      omega
    show (if σ.isrTail = σ.isrHead then 30 else 20) < 21
    rw [if_neg hne]
    decide
  | test head =>
    show work { σ with drains := if σ.isrTail = head then ds else .loadId :: ds } <
      _ + if σ.isrTail = head then 30 else 20
    split
    · have ht : taken { σ with drains := ds } = σ.taken := by
        rw [taken_cons hds rfl]
        exact taken_emitting hok.2
      unfold work
      rw [ht]
      apply Nat.add_lt_add_left
      cases ds with
      | nil => show 25 < 30; decide
      | cons d ds =>
        obtain rfl := hok.2 d List.mem_cons_self
        show 22 < 30
        decide
    · rw [work_cons rfl, taken_cons hds rfl, taken_cons rfl rfl]
      exact Nat.add_lt_add_left (show 19 < 20 by decide) _
  | loadId => exact hsame _ rfl rfl rfl (show 18 < 19 by decide)
  | loadN id => exact hsame (.copy _ 0) rfl rfl rfl (show 17 - 0 < 18 by decide)
  | copy r i =>
    obtain ⟨j, -, -, -, hi, -⟩ := hok.1
    have hi' : i < 16 := hi
    by_cases hlast : i + 1 < eventPayloadMax
    · refine hsame (.copy _ (i + 1)) rfl rfl
        (congrArg (fun d => { σ with drains := d :: ds }) (if_pos hlast)) ?_
      show 17 - (i + 1) < 17 - i
      omega
    · refine hsame (.storeTail _) rfl rfl
        (congrArg (fun d => { σ with drains := d :: ds }) (if_neg hlast)) ?_
      show 1 < 17 - i
      omega
  | storeTail r =>
    have ht := taken_cons hds rfl
    have ht' : (σ.consume ds (.storeTail r)).taken = σ.taken + 1 := by rw [ht]; rfl
    rw [work_cons rfl, ht']
    show (σ.accepted.length - (σ.taken + 1)) * 32 + 23 < _ + 1
    omega
  | deliver r =>
    obtain ⟨j, hj, hr⟩ := hok.1
    rw [h.consume_deliver ds hj hr, work_cons rfl, taken_cons rfl rfl, taken_deliver hds,
      List.length_append]
    exact Nat.add_lt_add_left (show 22 < 23 by decide) _
  | emitting => exact hsame _ rfl rfl rfl (show 21 < 22 by decide)

theorem delivers_all (h : Inv P σ) : ∃ ms, (∀ m ∈ ms, m = Move.drain ∨ m = Move.consume) ∧
    ∃ σ', σ.run ms = some σ' ∧ σ'.accepted = σ.accepted ∧
      σ'.delivered.length = σ.accepted.length := by
  induction hw : σ.work using Nat.strong_induction_on generalizing σ with
  | _ w ih =>
    have hdel : σ.delivered.length ≤ σ.accepted.length :=
      Nat.le_trans (Nat.le_add_right ..) h.le
    by_cases hall : σ.delivered.length = σ.accepted.length
    · exact ⟨[], nofun, σ, rfl, rfl, hall⟩
    -- one step of the scheduler, and the rest by induction
    have hstep : ∀ m σ₁, m = Move.drain ∨ m = Move.consume → σ.step m = some σ₁ → Inv P σ₁ →
        σ₁.accepted = σ.accepted → σ₁.work < w → ∃ ms, (∀ m ∈ ms, m = Move.drain ∨ m = Move.consume) ∧
          ∃ σ', σ.run ms = some σ' ∧ σ'.accepted = σ.accepted ∧
            σ'.delivered.length = σ.accepted.length := by
      intro m σ₁ hm hs h₁ hacc hlt
      obtain ⟨ms, hms, σ', hrun, hacc', hlen⟩ := ih _ hlt h₁ rfl
      refine ⟨m :: ms, ?_, σ', ?_, hacc'.trans hacc, hacc ▸ hlen⟩
      · intro m' hm'
        rcases List.mem_cons.mp hm' with rfl | hm'
        · exact hm
        · exact hms m' hm'
      · exact Option.bind_eq_some_iff.mpr ⟨σ₁, hs, hrun⟩
    cases hds : σ.drains with
    | nil =>
      have hs : σ.step .drain = some { σ with drains := .loadHead :: σ.drains } :=
        if_pos (by rw [hds]; rfl)
      refine hstep .drain _ (.inl rfl) hs (inv_step h (by nofun) hs) rfl ?_
      rw [← hw, work_cons rfl]
      unfold work taken
      rw [hds]
      show _ * 32 + 21 < _ * 32 + 25
      exact Nat.add_lt_add_left (by decide) _
    | cons d ds =>
      have hs : σ.step .consume = some (σ.consume ds d) := by
        dsimp only [step]
        rw [hds]
      exact hstep .consume _ (.inr rfl) hs (inv_consume h hds) (consume_accepted ..)
        (hw ▸ consume_work h (by omega) hds)

/-- When every call hands in the bytes it announces: what was delivered is what was accepted, in
order, up to some point; a drain that finds the ring empty has delivered all of it, and the scheduler
alone always gets there; a record that is still to be taken is in its slot as it was handed in; and
a call finds the ring full only with sixteen injections undelivered. -/
theorem ring_exact (h : Runs Injection.full σ) :
    σ.delivered <+: σ.accepted.map Injection.sees ∧
    (∀ ds, σ.drains = .loadHead :: ds → σ.isrTail = σ.isrHead →
      σ.delivered = σ.accepted.map Injection.sees) ∧
    (∃ ms, (∀ m ∈ ms, m = Move.drain ∨ m = Move.consume) ∧ ∃ σ', σ.run ms = some σ' ∧
      σ'.accepted = σ.accepted ∧ σ'.delivered = σ.accepted.map Injection.sees) ∧
    (∀ k j, σ.taken ≤ k → σ.accepted[k]? = some j → (σ.isr (Fin.ofNat _ k)).Carries j) ∧
    (∀ j head, σ.producer = .loadTail j head → 16 ≤ head - σ.isrTail →
      σ.delivered.length + 16 ≤ σ.accepted.length) := by
  have hinv := inv_of_runs h
  -- as many deliveries as injections means all of them
  have hall : ∀ τ : Sys, Inv Injection.full τ → τ.delivered.length = τ.accepted.length →
      τ.delivered = τ.accepted.map Injection.sees := by
    intro τ hτ hlen
    have hseen := hτ.seen fun _ hj => hj
    rwa [hlen, List.take_length] at hseen
  refine ⟨?_, ?_, ?_, hinv.slots, ?_⟩
  · rw [hinv.seen fun _ hj => hj]
    exact (List.take_prefix ..).map _
  · intro ds hds he
    rw [hinv.head, hinv.tail, empty_iff hinv.le hinv.room, taken_cons hds rfl] at he
    exact hall σ hinv he
  · obtain ⟨ms, hms, σ', hrun, hacc, hlen⟩ := delivers_all hinv
    have hcalls : ∀ j, Move.call j ∈ ms → j.full = true := by
      intro j hj
      rcases hms _ hj with hj | hj <;> cases hj
    have hinv' : Inv Injection.full σ' := inv_of_runs (h.run hcalls hrun)
    exact ⟨ms, hms, σ', hrun, hacc, hacc ▸ hall σ' hinv' (hacc ▸ hlen)⟩
  · intro j head hp hfull
    have hcall := hinv.producer
    rw [hp] at hcall
    rw [hcall.2.2, hinv.head, hinv.tail, full_iff hinv.le hinv.room] at hfull
    have hle : σ.delivered.length ≤ σ.taken := Nat.le_add_right ..
    omega

def roundTrip (j : Injection) (copies : Nat) : List Move :=
  .call j :: List.replicate (6 + copies) .produce ++ .drain :: List.replicate 25 .consume

/-- Seven in the first slot, an empty record in each of the others, and then a call that announces a
byte without handing it in. -/
def staleMoves : List Move :=
  .register :: roundTrip ⟨0, some fun _ => 7, 1⟩ 1 ++
    (List.replicate 15 (roundTrip ⟨0, none, 0⟩ 0)).flatten ++ roundTrip ⟨0, none, 1⟩ 0

/-- The last of the calls delivers the byte of the first. -/
theorem stale_payload : ∃ σ, Runs (fun _ => true) σ ∧ boot.run staleMoves = some σ ∧
    σ.accepted.length = 17 ∧ σ.delivered.getLast? = some (0, some 7) ∧
    ¬ σ.delivered <+: σ.accepted.map Injection.sees := by
  have hrun : (boot.run staleMoves).map (fun σ => decide (σ.accepted.length = 17 ∧
      σ.delivered.getLast? = some (0, some 7) ∧
      ¬ σ.delivered <+: σ.accepted.map Injection.sees)) = some true := by
    decide +kernel
  obtain ⟨σ, hσ, hdec⟩ := Option.map_eq_some_iff.mp hrun
  exact ⟨σ, Runs.boot.run (fun _ _ => rfl) hσ, hσ, of_decide_eq_true hdec⟩

/-- Two records wait when the drain begins. -/
def twoWaiting : List Move :=
  .register :: .call ⟨0, some fun _ => 7, 1⟩ :: List.replicate 7 .produce ++
    roundTrip ⟨0, none, 0⟩ 0 ++ List.replicate 21 .consume

theorem ring_exact_twoWaiting :
    ∃ σ, boot.run twoWaiting = some σ ∧ Runs Injection.full σ ∧ σ.accepted.length = 2 ∧
      σ.delivered = σ.accepted.map Injection.sees := by
  obtain ⟨σ, hrun, hlen, hds, hidx⟩ : ∃ σ, boot.run twoWaiting = some σ ∧ σ.accepted.length = 2 ∧
      σ.drains = [.loadHead] ∧ σ.isrTail = σ.isrHead := ⟨_, rfl, rfl, rfl, rfl⟩
  have hruns : Runs Injection.full σ := by
    refine Runs.boot.run (fun j hj => ?_) hrun
    simp only [twoWaiting, roundTrip, List.mem_append, List.mem_cons, List.mem_replicate, reduceCtorEq,
      and_false, or_false, false_or, Move.call.injEq] at hj
    rcases hj with rfl | rfl <;> rfl
  exact ⟨σ, hrun, hruns, hlen, (ring_exact hruns).2.1 [] hds hidx⟩

/-- Never more than sixteen records wait to be taken, and a call is refused for want of room when
there are so many, and then only, however often the two counters have wrapped. -/
theorem refused_iff_full (h : Runs P σ) :
    σ.accepted.length ≤ σ.taken + isrSlots ∧
      ∀ j head, σ.producer = .loadTail j head → ∃ σ', σ.step .produce = some σ' ∧
        (σ'.producer = .idle ↔ σ.accepted.length = σ.taken + isrSlots) := by
  have hi := inv_of_runs h
  refine ⟨hi.room, fun j head hp => ⟨_, by rw [step, hp, produce], ?_⟩⟩
  have hcall : σ.Calling P j head := by
    have hok := hi.producer
    rwa [hp] at hok
  rw [hcall.2.2, hi.head, hi.tail]
  have hiff := full_iff hi.le hi.room
  dsimp only
  split <;> rename_i hfull
  · exact ⟨fun _ => hiff.mp hfull, fun _ => rfl⟩
  · exact ⟨nofun, fun he => absurd (hiff.mpr he) hfull⟩

def fillRing : List Move :=
  .register :: (List.replicate 16 (.call ⟨0, none, 0⟩ :: List.replicate 6 .produce)).flatten ++
    [.call ⟨0, none, 0⟩, .produce, .produce]

theorem refused_iff_full_seventeenth :
    ∃ σ σ' head, boot.run fillRing = some σ ∧ σ.producer = .loadTail ⟨0, none, 0⟩ head ∧
      σ.step .produce = some σ' ∧ σ'.producer = .idle := by
  obtain ⟨σ, head, hrun, hp, hlen⟩ : ∃ σ head, boot.run fillRing = some σ ∧
      σ.producer = .loadTail ⟨0, none, 0⟩ head ∧ σ.accepted.length = σ.taken + isrSlots :=
    ⟨_, _, rfl, rfl, rfl⟩
  have hruns : Runs (fun _ => true) σ := Runs.boot.run (fun _ _ => rfl) hrun
  obtain ⟨σ', hs, hiff⟩ := (refused_iff_full hruns).2 _ head hp
  exact ⟨σ, σ', head, hrun, hp, hs, hiff.mpr hlen⟩

end Sys

end Urbi.Isr
