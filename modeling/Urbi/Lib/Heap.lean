import Mathlib.Data.List.Basic
import Mathlib.Data.List.Perm.Basic
import Mathlib.Order.WithBot

/-!
# A binary min-heap in an array

The sifts of a heap ordered by a key, over a list read by index.  Between two steps of a sift the
order is broken at one entry, the hole.
-/

namespace Urbi.Lib.Heap

universe u

variable {α : Type u} (key : α → Nat)

def swap (h : List α) (i j : Nat) : List α :=
  match h[i]?, h[j]? with
  | some a, some b => (h.set i b).set j a
  | _, _ => h

def before (h : List α) (i j : Nat) : Bool :=
  match h[i]?, h[j]? with
  | some a, some b => decide (key a < key b)
  | _, _ => false

def up : Nat → List α → Nat → List α
  | 0, h, _ => h
  | fuel + 1, h, i =>
    if i = 0 then h
    else if before key h i ((i - 1) / 2) then up fuel (swap h ((i - 1) / 2) i) ((i - 1) / 2)
    else h

def least (h : List α) (i : Nat) : Nat :=
  let m := if before key h (2 * i + 1) i then 2 * i + 1 else i
  if before key h (2 * i + 2) m then 2 * i + 2 else m

def down : Nat → List α → Nat → List α
  | 0, h, _ => h
  | fuel + 1, h, i =>
    if least key h i = i then h else down fuel (swap h (least key h i) i) (least key h i)

def add (h : List α) (x : α) : List α := up key (h.length + 1) (h ++ [x]) h.length

def removeAt (h : List α) (i : Nat) : List α :=
  match h.getLast? with
  | none => h
  | some x =>
    if i = h.length - 1 then h.dropLast
    else up key (i + 1) (down key h.length (h.dropLast.set i x) i) i

def rebuild (h : List α) : List α :=
  (List.range (h.length / 2)).reverse.foldl (fun h i => down key h.length h i) h

/-! ## Every operation permutes the entries -/

theorem swap_perm (h : List α) (i j : Nat) : (swap h i j).Perm h := by
  unfold swap
  split
  · rename_i a b ha hb
    obtain ⟨hi, rfl⟩ := List.getElem?_eq_some_iff.mp ha
    obtain ⟨hj, rfl⟩ := List.getElem?_eq_some_iff.mp hb
    exact List.set_set_perm hi hj
  · exact .refl h

theorem down_perm (fuel : Nat) (h : List α) (i : Nat) : (down key fuel h i).Perm h := by
  induction fuel generalizing h i with
  | zero => exact .refl h
  | succ fuel ih =>
    rw [down]
    split
    · exact .refl h
    · exact (ih _ _).trans (swap_perm h _ _)

variable {i : Nat}

/-- Past the end there is nothing to come before. -/
def keyAt (h : List α) (i : Nat) : WithTop Nat := (h[i]?).elim ⊤ fun a => WithTop.some (key a)

def OrderedFrom (k : Nat) (h : List α) : Prop :=
  ∀ j, 0 < j → k ≤ (j - 1) / 2 → keyAt key h ((j - 1) / 2) ≤ keyAt key h j

def Ordered (h : List α) : Prop := OrderedFrom key 0 h

/-- The pairs from `k` on that do not touch `i` are in order, and what is below `i` comes after what
is above it. -/
structure Hole (k : Nat) (h : List α) (i : Nat) : Prop where
  off : ∀ j, 0 < j → k ≤ (j - 1) / 2 → j ≠ i → (j - 1) / 2 ≠ i →
    keyAt key h ((j - 1) / 2) ≤ keyAt key h j
  grand : 0 < i → k ≤ (i - 1) / 2 → ∀ c, 0 < c → (c - 1) / 2 = i →
    keyAt key h ((i - 1) / 2) ≤ keyAt key h c

variable {key} {h : List α}

theorem keyAt_of_le (hi : h.length ≤ i) : keyAt key h i = ⊤ := by
  unfold keyAt
  rw [List.getElem?_eq_none hi]
  rfl

theorem keyAt_congr {h' : List α} (hsame : h'[i]? = h[i]?) : keyAt key h' i = keyAt key h i := by
  unfold keyAt
  rw [hsame]

theorem keyAt_swap (key : α → Nat) {j : Nat} (hi : i < h.length) (hj : j < h.length) (k : Nat) :
    keyAt key (swap h i j) k =
      if k = j then keyAt key h i else if k = i then keyAt key h j else keyAt key h k := by
  unfold keyAt swap
  rw [List.getElem?_eq_getElem hi, List.getElem?_eq_getElem hj]
  by_cases hkj : k = j
  · rw [if_pos hkj, hkj]
    simp [hj]
  · rw [if_neg hkj, List.getElem?_set_ne (Ne.symm hkj)]
    by_cases hki : k = i
    · rw [if_pos hki, hki]
      simp [hi]
    · rw [if_neg hki, List.getElem?_set_ne (Ne.symm hki)]

theorem length_swap (i j : Nat) : (swap h i j).length = h.length := (swap_perm h i j).length_eq

theorem before_iff (key : α → Nat) (h : List α) {j : Nat} (hj : i < h.length → j < h.length) :
    before key h i j = true ↔ keyAt key h i < keyAt key h j := by
  by_cases hi : i < h.length
  · unfold before keyAt
    rw [List.getElem?_eq_getElem hi, List.getElem?_eq_getElem (hj hi)]
    simp
  · rw [keyAt_of_le (Nat.le_of_not_lt hi)]
    unfold before
    rw [List.getElem?_eq_none (Nat.le_of_not_lt hi)]
    simp

theorem pick_spec (key : α → Nat) {m c : Nat} (hm : c < h.length → m < h.length) :
    let p := if before key h c m then c else m
    keyAt key h p ≤ keyAt key h m ∧ keyAt key h p ≤ keyAt key h c ∧
      (p = m ∨ p = c ∧ c < h.length ∧ keyAt key h c < keyAt key h m) := by
  intro p
  by_cases hb : before key h c m = true
  · have hlt : keyAt key h c < keyAt key h m := (before_iff key h hm).mp hb
    have hc : c < h.length := by
      by_contra hge
      rw [keyAt_of_le (Nat.le_of_not_lt hge)] at hlt
      exact not_top_lt hlt
    rw [show p = c from if_pos hb]
    exact ⟨hlt.le, le_refl _, .inr ⟨rfl, hc, hlt⟩⟩
  · rw [show p = m from if_neg hb]
    exact ⟨le_refl _, not_lt.mp fun hlt => hb ((before_iff key h hm).mpr hlt), .inl rfl⟩

theorem least_spec (key : α → Nat) (h : List α) (i : Nat) :
    (∀ c, 0 < c → (c - 1) / 2 = i → keyAt key h (least key h i) ≤ keyAt key h c) ∧
      (least key h i = i ∨ 0 < least key h i ∧ (least key h i - 1) / 2 = i ∧
        least key h i < h.length ∧ keyAt key h (least key h i) < keyAt key h i) := by
  obtain ⟨hi, hl, hfirst⟩ := pick_spec key (h := h) (m := i) (c := 2 * i + 1) (by omega)
  have hthere : 2 * i + 2 < h.length →
      (if before key h (2 * i + 1) i then 2 * i + 1 else i) < h.length := by
    split <;> omega
  obtain ⟨hm, hr, hsecond⟩ := pick_spec key hthere
  have hchild : ∀ c, 0 < c → (c - 1) / 2 = i → c = 2 * i + 1 ∨ c = 2 * i + 2 := by omega
  unfold least
  refine ⟨fun c hc hp => ?_, ?_⟩
  · rcases hchild c hc hp with rfl | rfl
    · exact hm.trans hl
    · exact hr
  · rcases hsecond with h2 | ⟨h2, hlen, hlt⟩
    · rcases hfirst with h1 | ⟨h1, hlen, hlt⟩
      · exact .inl (h2.trans h1)
      · refine .inr ?_
        rw [h2, h1]
        exact ⟨by omega, by omega, hlen, hlt⟩
    · refine .inr ?_
      rw [h2]
      exact ⟨by omega, by omega, hlen, hlt.trans_le hi⟩

theorem Hole.step {k m : Nat} (hole : Hole key k h i) (hm : 0 < m) (hpar : (m - 1) / 2 = i)
    (hlt : m < h.length) (hmin : ∀ c, 0 < c → (c - 1) / 2 = i → keyAt key h m ≤ keyAt key h c) :
    Hole key k (swap h m i) m := by
  have hswap := keyAt_swap key hlt (show i < h.length by omega)
  constructor
  · intro j hj hk hjm hpm
    rw [hswap, hswap, if_neg hpm, if_neg hjm]
    by_cases hpi : (j - 1) / 2 = i
    · rw [if_pos hpi, if_neg (show j ≠ i by omega)]
      exact hmin j hj hpi
    · rw [if_neg hpi]
      by_cases hji : j = i
      · rw [if_pos hji]
        subst hji
        exact hole.grand hj hk m hm hpar
      · rw [if_neg hji]
        exact hole.off j hj hk hji hpi
  · intro _ hk c hc hcm
    rw [hpar, hswap, hswap, if_pos rfl, if_neg (show c ≠ i by omega), if_neg (show c ≠ m by omega)]
    have hoff := hole.off c hc (by omega) (by omega) (by omega)
    rwa [hcm] at hoff

theorem down_ordered {k fuel : Nat} (hfuel : h.length ≤ i + fuel) (hole : Hole key k h i)
    (habove : 0 < i → k ≤ (i - 1) / 2 → keyAt key h ((i - 1) / 2) ≤ keyAt key h i) :
    OrderedFrom key k (down key fuel h i) := by
  -- in order at the hole, and below it
  have hdone : ∀ {h : List α} {i : Nat}, Hole key k h i →
      (0 < i → k ≤ (i - 1) / 2 → keyAt key h ((i - 1) / 2) ≤ keyAt key h i) →
      (∀ c, 0 < c → (c - 1) / 2 = i → keyAt key h i ≤ keyAt key h c) → OrderedFrom key k h := by
    intro h i hole habove hbelow j hj hk
    by_cases hji : j = i
    · subst hji
      exact habove hj hk
    · by_cases hpi : (j - 1) / 2 = i
      · rw [hpi]
        exact hbelow j hj hpi
      · exact hole.off j hj hk hji hpi
  induction fuel generalizing h i with
  | zero =>
    apply hdone hole habove
    intro c hc hp
    rw [keyAt_of_le (show h.length ≤ c by omega)]
    exact le_top
  | succ fuel ih =>
    rw [down]
    obtain ⟨hmin, hleast⟩ := least_spec key h i
    by_cases hstop : least key h i = i
    · rw [if_pos hstop]
      rw [hstop] at hmin
      exact hdone hole habove hmin
    · rw [if_neg hstop]
      obtain ⟨hm, hpar, hlen, hlt⟩ := hleast.resolve_left hstop
      have hi : i < h.length := by omega
      apply ih
      · rw [length_swap]
        omega
      · exact hole.step hm hpar hlen hmin
      · intro _ _
        rw [hpar, keyAt_swap key hlen hi, keyAt_swap key hlen hi, if_pos rfl,
          if_neg (show least key h i ≠ i from hstop), if_pos rfl]
        exact hlt.le

theorem up_ordered {fuel : Nat} (hi : i < h.length) (hfuel : i ≤ fuel)
    (hoff : ∀ j, 0 < j → j ≠ i → keyAt key h ((j - 1) / 2) ≤ keyAt key h j)
    (hgrand : 0 < i → ∀ c, 0 < c → (c - 1) / 2 = i → keyAt key h ((i - 1) / 2) ≤ keyAt key h c) :
    Ordered key (up key fuel h i) := by
  induction fuel generalizing h i with
  | zero => exact fun j hj _ => hoff j hj (by omega)
  | succ fuel ih =>
    rw [up]
    by_cases hroot : i = 0
    · rw [if_pos hroot]
      exact fun j hj _ => hoff j hj (by omega)
    rw [if_neg hroot]
    have hp : (i - 1) / 2 < i := by omega
    have hb := before_iff key h (i := i) (j := (i - 1) / 2) (by omega)
    by_cases hlt : before key h i ((i - 1) / 2) = true
    · rw [if_pos hlt]
      have hlt := hb.mp hlt
      have hswap := keyAt_swap key (show (i - 1) / 2 < h.length by omega) hi
      apply ih
      · rw [length_swap]
        omega
      · omega
      · intro j hj hjp
        by_cases hji : j = i
        · rw [hji, hswap, hswap, if_neg (Nat.ne_of_lt hp), if_pos rfl, if_pos rfl]
          exact hlt.le
        · rw [hswap j, if_neg hji, if_neg hjp, hswap]
          by_cases hpi : (j - 1) / 2 = i
          · rw [if_pos hpi]
            exact hgrand (by omega) j hj hpi
          · rw [if_neg hpi]
            have hold := hoff j hj hji
            by_cases hpp : (j - 1) / 2 = (i - 1) / 2
            · rw [if_pos hpp]
              rw [hpp] at hold
              exact hlt.le.trans hold
            · rwa [if_neg hpp]
      · intro hp0 c hc hcp
        have hpp := hoff ((i - 1) / 2) hp0 (by omega)
        rw [hswap, hswap, if_neg (by omega), if_neg (by omega)]
        by_cases hci : c = i
        · rwa [if_pos hci]
        · rw [if_neg hci, if_neg (by omega)]
          have hold := hoff c hc hci
          rw [hcp] at hold
          exact hpp.trans hold
    · rw [if_neg hlt]
      intro j hj _
      by_cases hji : j = i
      · rw [hji]
        exact not_lt.mp fun h => hlt (hb.mpr h)
      · exact hoff j hj hji

/-! ## The operations -/

theorem Ordered.grand (ho : Ordered key h) {c : Nat} (hi : 0 < i) (hc : 0 < c)
    (hp : (c - 1) / 2 = i) : keyAt key h ((i - 1) / 2) ≤ keyAt key h c := by
  have hmid := ho c hc (Nat.zero_le _)
  rw [hp] at hmid
  exact (ho i hi (Nat.zero_le _)).trans hmid

theorem Ordered.hole (ho : Ordered key h) (i : Nat) (x : α) : Hole key 0 (h.set i x) i := by
  have hset : ∀ {j}, j ≠ i → keyAt key (h.set i x) j = keyAt key h j := fun hj =>
    keyAt_congr (List.getElem?_set_ne (Ne.symm hj))
  constructor
  · intro j hj hk hji hpi
    rw [hset hji, hset hpi]
    exact ho j hj hk
  · intro hi _ c hc hp
    rw [hset (show (i - 1) / 2 ≠ i by omega), hset (show c ≠ i by omega)]
    exact ho.grand hi hc hp

theorem Ordered.of_append {t : List α} (ho : Ordered key (h ++ t)) : Ordered key h := by
  intro j hj hk
  by_cases hlt : j < h.length
  · have hsame : ∀ {i}, i ≤ j → keyAt key (h ++ t) i = keyAt key h i := fun hij =>
      keyAt_congr (List.getElem?_append_left (by omega))
    have hold := ho j hj hk
    rwa [hsame (Nat.le_refl j), hsame (by omega)] at hold
  · rw [keyAt_of_le (show h.length ≤ j by omega)]
    exact le_top

theorem Ordered.root (ho : Ordered key h) (x : α) :
    Ordered key (down key h.length (h.set 0 x) 0) := by
  apply down_ordered _ (ho.hole 0 x)
  · exact fun h0 => absurd h0 (Nat.lt_irrefl 0)
  · rw [List.length_set]
    omega

theorem Ordered.add (ho : Ordered key h) (x : α) : Ordered key (add key h x) := by
  unfold Heap.add
  have hin : ∀ {j}, j ≠ h.length → keyAt key (h ++ [x]) j = keyAt key h j := by
    intro j hj
    by_cases hlt : j < h.length
    · exact keyAt_congr (List.getElem?_append_left hlt)
    · rw [keyAt_of_le (show h.length ≤ j by omega), keyAt_of_le (by simp; omega)]
  apply up_ordered
  · simp
  · omega
  · intro j hj hji
    rw [hin hji]
    by_cases hpi : (j - 1) / 2 = h.length
    · rw [keyAt_of_le (show h.length ≤ j by omega)]
      exact le_top
    · rw [hin hpi]
      exact ho j hj (Nat.zero_le _)
  · intro _ c hc hp
    rw [keyAt_of_le (i := c) (by simp; omega)]
    exact le_top

theorem Ordered.up (ho : Ordered key h) {fuel : Nat} (hi : i < h.length) (hfuel : i ≤ fuel) :
    Ordered key (up key fuel h i) :=
  up_ordered hi hfuel (fun j hj _ => ho j hj (Nat.zero_le _)) fun hi _ hc hp => ho.grand hi hc hp

/-- Only one of the two sifts moves the entry. -/
theorem Ordered.sift (ho : Ordered key h) (hi : i < h.length) (x : α) {fuel : Nat}
    (hfuel : h.length ≤ fuel) :
    Ordered key (Heap.up key (i + 1) (down key fuel (h.set i x) i) i) := by
  have hhole := ho.hole i x
  have hlen : (h.set i x).length ≤ i + fuel := by
    rw [List.length_set]
    omega
  have hlt : i < (down key fuel (h.set i x) i).length := by
    rw [(down_perm key fuel (h.set i x) i).length_eq, List.length_set]
    exact hi
  by_cases habove : 0 < i → keyAt key (h.set i x) ((i - 1) / 2) ≤ keyAt key (h.set i x) i
  · have hdown : Ordered key (down key fuel (h.set i x) i) :=
      down_ordered hlen hhole fun h0 _ => habove h0
    exact hdown.up hlt (Nat.le_succ i)
  · rw [Classical.not_imp, not_le] at habove
    obtain ⟨h0, hbefore⟩ := habove
    have hbelow : ∀ c, 0 < c → (c - 1) / 2 = i →
        keyAt key (h.set i x) i < keyAt key (h.set i x) c := fun c hc hp =>
      hbefore.trans_le (hhole.grand h0 (Nat.zero_le _) c hc hp)
    have hstay : down key fuel (h.set i x) i = h.set i x := by
      cases fuel with
      | zero => rfl
      | succ fuel =>
        rw [down, if_pos]
        obtain ⟨-, hleast⟩ := least_spec key (h.set i x) i
        by_contra hne
        obtain ⟨hm, hpar, -, hless⟩ := hleast.resolve_left hne
        exact absurd (hbelow _ hm hpar) (not_lt.mpr hless.le)
    rw [hstay] at hlt ⊢
    apply up_ordered hlt (Nat.le_succ i)
    · intro j hj hji
      by_cases hpi : (j - 1) / 2 = i
      · rw [hpi]
        exact (hbelow j hj hpi).le
      · exact hhole.off j hj (Nat.zero_le _) hji hpi
    · exact fun h0 => hhole.grand h0 (Nat.zero_le _)

theorem Ordered.removeAt (ho : Ordered key h) (hi : i < h.length) :
    Ordered key (removeAt key h i) := by
  rcases List.eq_nil_or_concat' h with rfl | ⟨ys, x, rfl⟩
  · exact absurd hi (Nat.not_lt_zero i)
  · unfold Heap.removeAt
    rw [List.getLast?_concat, List.dropLast_concat]
    rw [List.length_append, List.length_singleton] at hi ⊢
    show Ordered key (if i = ys.length + 1 - 1 then ys else _)
    by_cases hlast : i = ys.length + 1 - 1
    · rw [if_pos hlast]
      exact ho.of_append
    · rw [if_neg hlast]
      exact ho.of_append.sift (by omega) x (by omega)

end Urbi.Lib.Heap
