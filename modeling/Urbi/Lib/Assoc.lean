import Mathlib.Data.List.Basic
import Mathlib.Data.List.Perm.Basic
import Mathlib.Data.List.Pairwise

/-!
# A dictionary scanned in order

Entries in the order they were added, found by the first key that tests as the same.  A removal moves
the last entry into the hole.  On keys among which the test is an equivalence the entries are a map.
-/

namespace Urbi.Lib.Assoc

universe u v

variable {κ : Type u} {ν : Type v} (same : κ → κ → Bool)

structure EquivOn (K : κ → Prop) : Prop where
  refl : ∀ {a}, K a → same a a = true
  symm : ∀ {a b}, K a → K b → same a b = true → same b a = true
  trans : ∀ {a b c}, K a → K b → K c → same a b = true → same b c = true → same a c = true

variable {same} in
theorem EquivOn.comap {ι : Type*} {K : κ → Prop} {J : ι → Prop} {f : ι → κ} (h : EquivOn same K)
    (hf : ∀ i, J i → K (f i)) : EquivOn (fun i j => same (f i) (f j)) J where
  refl hi := h.refl (hf _ hi)
  symm hi hj := h.symm (hf _ hi) (hf _ hj)
  trans hi hj hk := h.trans (hf _ hi) (hf _ hj) (hf _ hk)

/-! ## A test through a reading -/

section Reading

variable {α : Type u} {β : Type v} [DecidableEq α] [DecidableEq β] (f : α → β)

def alike : α ⊕ β → α ⊕ β → Bool
  | .inl x, .inl y => x = y
  | a, b => decide (Sum.elim f id a = Sum.elim f id b)

theorem reads_eq_of_alike {a b : α ⊕ β} (h : alike f a b = true) :
    Sum.elim f id a = Sum.elim f id b := by
  rcases a with x | r <;> rcases b with y | r'
  · have hxy : x = y := of_decide_eq_true h
    rw [hxy]
  · exact of_decide_eq_true h
  · exact of_decide_eq_true h
  · exact of_decide_eq_true h

theorem equivOn_alike {S : α ⊕ β → Prop}
    (h : ∀ {x y r}, S (.inl x) → S (.inl y) → S (.inr r) → f x = r → f y = r → x = y) :
    EquivOn (alike f) S where
  refl {a} _ := by
    rcases a with x | r <;> exact decide_eq_true rfl
  symm {a b} _ _ hab := by
    rcases a with x | r <;> rcases b with y | r' <;>
      exact decide_eq_true (of_decide_eq_true hab).symm
  trans {a b c} ha hb hc hab hbc := by
    have hac := (reads_eq_of_alike f hab).trans (reads_eq_of_alike f hbc)
    rcases a with x | r
    · rcases c with z | r''
      · -- the two ends are exact: so is the middle, or the hypothesis speaks of it
        apply decide_eq_true
        rcases b with y | r'
        · exact (of_decide_eq_true hab : x = y).trans (of_decide_eq_true hbc)
        · exact h ha hc hb (of_decide_eq_true hab) (of_decide_eq_true hbc).symm
      · exact decide_eq_true hac
    · exact decide_eq_true hac

end Reading

/-! ## Entries in order -/

def find (d : List (κ × ν)) (k : κ) : Option Nat := d.findIdx? fun e => same e.1 k

def get (d : List (κ × ν)) (k : κ) : Option ν := (d.find? fun e => same e.1 k).map Prod.snd

def set (d : List (κ × ν)) (k : κ) (v : ν) : List (κ × ν) :=
  match find same d k with
  | some i => d.modify i fun e => (e.1, v)
  | none => d ++ [(k, v)]

def remove (d : List (κ × ν)) (k : κ) : List (κ × ν) :=
  match find same d k, d.getLast? with
  | some i, some last => (d.set i last).dropLast
  | _, _ => d

def Apart (e e' : κ × ν) : Prop := same e.1 e'.1 = false ∧ same e'.1 e.1 = false

instance : Std.Symm (Apart (ν := ν) same) := ⟨fun _ _ h => h.symm⟩

structure Distinct (K : κ → Prop) (d : List (κ × ν)) : Prop where
  keys : ∀ e ∈ d, K e.1
  apart : d.Pairwise (Apart same)

variable {same} {K : κ → Prop} {d d' : List (κ × ν)} {k k' : κ}

/-! ## Entries by their keys -/

theorem Distinct.nil : Distinct same K ([] : List (κ × ν)) := ⟨by simp, List.Pairwise.nil⟩

theorem Distinct.perm (h : Distinct same K d) (hp : d'.Perm d) : Distinct same K d' where
  keys e he := h.keys e (hp.mem_iff.mp he)
  apart := hp.symm.pairwise h.apart fun h => h.symm

theorem Distinct.sublist (h : Distinct same K d) (hs : d'.Sublist d) : Distinct same K d' :=
  ⟨fun e he => h.keys e (hs.subset he), h.apart.sublist hs⟩

theorem Distinct.eq_of_same (hs : EquivOn same K) (h : Distinct same K d) (hk : K k) {e e' : κ × ν}
    (he : e ∈ d) (he' : e' ∈ d) (hek : same e.1 k = true) (hek' : same e'.1 k = true) : e = e' := by
  by_contra hne
  have hK := h.keys e he
  have hK' := h.keys e' he'
  have hsame : same e.1 e'.1 = true := hs.trans hK hk hK' hek (hs.symm hK' hk hek')
  have hapart : Apart same e e' := h.apart.forall he he' hne
  rw [hapart.1] at hsame
  cases hsame

theorem get_eq_some_iff (hs : EquivOn same K) (h : Distinct same K d) (hk : K k) {v : ν} :
    get same d k = some v ↔ ∃ e ∈ d, same e.1 k = true ∧ e.2 = v := by
  unfold get
  rw [Option.map_eq_some_iff]
  constructor
  · rintro ⟨e, hfind, hv⟩
    have hek : same e.1 k = true := List.find?_some (p := fun e : κ × ν => same e.1 k) hfind
    exact ⟨e, List.mem_of_find?_eq_some hfind, hek, hv⟩
  · rintro ⟨e, he, hek, rfl⟩
    have hsome : (d.find? fun e => same e.1 k).isSome := List.find?_isSome.mpr ⟨e, he, hek⟩
    obtain ⟨e', hfind⟩ := Option.isSome_iff_exists.mp hsome
    have hek' : same e'.1 k = true := List.find?_some (p := fun e : κ × ν => same e.1 k) hfind
    have heq := h.eq_of_same hs hk he (List.mem_of_find?_eq_some hfind) hek hek'
    exact ⟨e', hfind, by rw [heq]⟩

theorem get_congr (hs : EquivOn same K) (h : Distinct same K d) (h' : Distinct same K d') (hk : K k)
    (hmem : ∀ e, same e.1 k = true → (e ∈ d' ↔ e ∈ d)) : get same d' k = get same d k := by
  apply Option.ext
  intro v
  rw [get_eq_some_iff hs h' hk, get_eq_some_iff hs h hk]
  constructor
  · rintro ⟨e, he, hek, hv⟩
    exact ⟨e, (hmem e hek).mp he, hek, hv⟩
  · rintro ⟨e, he, hek, hv⟩
    exact ⟨e, (hmem e hek).mpr he, hek, hv⟩

theorem find_eq_some {i : Nat} (h : find same d k = some i) :
    ∃ before e after, d = before ++ e :: after ∧ i = before.length ∧ same e.1 k = true := by
  obtain ⟨hlt, hi, -⟩ := List.findIdx?_eq_some_iff_getElem.mp h
  refine ⟨d.take i, d[i], d.drop (i + 1), ?_, ?_, hi⟩
  · rw [List.getElem_cons_drop, List.take_append_drop]
  · rw [List.length_take, Nat.min_eq_left (Nat.le_of_lt hlt)]

theorem find_eq_none (h : find same d k = none) : ∀ e ∈ d, same e.1 k = false := by
  intro e he
  exact Bool.eq_false_iff.mpr (by simpa using List.findIdx?_eq_none_iff.mp h e he)

theorem get_eq_find (d : List (κ × ν)) (k : κ) :
    get same d k = (find same d k).bind fun i => d[i]?.map Prod.snd := by
  unfold get find
  cases hfind : d.findIdx? fun e => same e.1 k with
  | none =>
    have hnone : d.find? (fun e => same e.1 k) = none :=
      List.find?_eq_none.mpr fun e he => by simp [List.findIdx?_eq_none_iff.mp hfind e he]
    rw [hnone]
    rfl
  | some i =>
    obtain ⟨hlt, hi, hbefore⟩ := List.findIdx?_eq_some_iff_getElem.mp hfind
    have hsome : d.find? (fun e => same e.1 k) = some d[i] :=
      List.find?_eq_some_iff_getElem.mpr ⟨hi, i, hlt, rfl, fun j hj => by simpa using hbefore j hj⟩
    rw [hsome, Option.bind_some, List.getElem?_eq_getElem hlt]

/-! ## Writing and removing -/

variable (same) in
theorem set_cases (d : List (κ × ν)) (k : κ) (v : ν) :
    (∃ before e after, d = before ++ e :: after ∧ same e.1 k = true ∧
      set same d k v = before ++ (e.1, v) :: after) ∨
    ((∀ e ∈ d, same e.1 k = false) ∧ set same d k v = d ++ [(k, v)]) := by
  unfold set
  cases hfind : find same d k with
  | some i =>
    obtain ⟨before, e, after, rfl, rfl, hek⟩ := find_eq_some hfind
    refine .inl ⟨before, e, after, rfl, hek, ?_⟩
    show List.modify _ _ _ = _
    rw [List.modify_eq_set_getElem?]
    simp
  | none => exact .inr ⟨find_eq_none hfind, rfl⟩

variable (same) in
theorem remove_cases (d : List (κ × ν)) (k : κ) :
    (∃ before e after, d = before ++ e :: after ∧ same e.1 k = true ∧
      (remove same d k).Perm (before ++ after)) ∨
    ((∀ e ∈ d, same e.1 k = false) ∧ remove same d k = d) := by
  unfold remove
  cases hfind : find same d k with
  | some i =>
    obtain ⟨before, e, after, rfl, rfl, hek⟩ := find_eq_some hfind
    refine .inl ⟨before, e, after, rfl, hek, ?_⟩
    -- the last entry is the one removed, or takes its place
    rcases List.eq_nil_or_concat' after with rfl | ⟨others, last, rfl⟩
    · simp
    · have hlast : (before ++ e :: (others ++ [last])).getLast? = some last := by
        rw [← List.cons_append, ← List.append_assoc, List.getLast?_concat]
      rw [hlast]
      show ((before ++ e :: (others ++ [last])).set before.length last).dropLast.Perm _
      have hset : (before ++ e :: (others ++ [last])).set before.length last =
          (before ++ last :: others) ++ [last] := by simp
      rw [hset, List.dropLast_concat]
      apply List.Perm.append_left
      exact (List.perm_append_singleton last others).symm
  | none => exact .inr ⟨find_eq_none hfind, rfl⟩

theorem EquivOn.iff_of_same (hs : EquivOn same K) {a b c : κ} (ha : K a) (hb : K b) (hc : K c)
    (h : same a b = true) : same a c = same b c := by
  rw [Bool.eq_iff_iff]
  exact ⟨hs.trans hb ha hc (hs.symm ha hb h), hs.trans ha hb hc h⟩

theorem distinct_set (hs : EquivOn same K) (h : Distinct same K d) (hk : K k) (v : ν) :
    Distinct same K (set same d k v) := by
  obtain ⟨before, e, after, rfl, -, heq⟩ | ⟨hnone, heq⟩ := set_cases same d k v
  all_goals rw [heq]
  · constructor
    · intro e' he'
      rcases List.mem_append.mp he' with hin | hin
      · exact h.keys e' (by simp [hin])
      · rcases List.mem_cons.mp hin with rfl | hin
        · exact h.keys e (by simp)
        · exact h.keys e' (by simp [hin])
    · -- only the keys are compared, and they stay
      have hmap : ∀ l : List (κ × ν), l.Pairwise (Apart same) ↔
          (l.map Prod.fst).Pairwise fun a b => same a b = false ∧ same b a = false :=
        fun l => (List.pairwise_map (R := fun a b => same a b = false ∧ same b a = false)).symm
      have hapart := h.apart
      rw [hmap] at hapart ⊢
      simpa using hapart
  · constructor
    · intro e he
      rcases List.mem_append.mp he with hin | hin
      · exact h.keys e hin
      · rw [List.mem_singleton.mp hin]
        exact hk
    · rw [List.pairwise_append]
      refine ⟨h.apart, List.pairwise_singleton _ _, ?_⟩
      intro e he e' he'
      rw [List.mem_singleton.mp he']
      refine ⟨hnone e he, ?_⟩
      by_contra hsame
      have := hs.symm hk (h.keys e he) (by simpa using hsame)
      rw [hnone e he] at this
      cases this

theorem distinct_remove (h : Distinct same K d) : Distinct same K (remove same d k) := by
  obtain ⟨before, e, after, rfl, -, hperm⟩ | ⟨-, heq⟩ := remove_cases same d k
  · have hsub : (before ++ after).Sublist (before ++ e :: after) :=
      List.Sublist.append_left (List.sublist_cons_self e after) before
    exact (h.sublist hsub).perm hperm
  · rw [heq]
    exact h

theorem get_set (hs : EquivOn same K) (h : Distinct same K d) (hk : K k) (hk' : K k') (v : ν) :
    get same (set same d k v) k' = if same k k' = true then some v else get same d k' := by
  have h' := distinct_set hs h hk v
  by_cases hsame : same k k' = true
  · rw [if_pos hsame, get_eq_some_iff hs h' hk']
    obtain ⟨before, e, after, rfl, hek, heq⟩ | ⟨-, heq⟩ := set_cases same d k v
    all_goals rw [heq]
    · refine ⟨(e.1, v), by simp, ?_, rfl⟩
      rw [hs.iff_of_same (h.keys e (by simp)) hk hk' hek]
      exact hsame
    · exact ⟨(k, v), by simp, hsame, rfl⟩
  · rw [if_neg hsame]
    apply get_congr hs h h' hk'
    intro e' he'
    obtain ⟨before, e, after, rfl, hek, heq⟩ | ⟨-, heq⟩ := set_cases same d k v
    all_goals rw [heq]
    · -- the entry written is of another class, under its old value as under its new one
      have hother : same e.1 k' ≠ true := by
        rw [hs.iff_of_same (h.keys e (by simp)) hk hk' hek]
        exact hsame
      have hne : ∀ w : ν, e' ≠ (e.1, w) := by
        rintro w rfl
        exact hother he'
      simp [hne v, hne e.2]
    · have hne : e' ≠ (k, v) := by
        rintro rfl
        exact hsame he'
      simp [hne]

theorem get_remove (hs : EquivOn same K) (h : Distinct same K d) (hk : K k) (hk' : K k') :
    get same (remove same d k) k' = if same k k' = true then none else get same d k' := by
  have h' : Distinct same K (remove same d k) := distinct_remove h
  obtain ⟨before, e, after, rfl, hek, hperm⟩ | ⟨hnone, heq⟩ := remove_cases same d k
  · have hclass := hs.iff_of_same (h.keys e (by simp)) hk hk' hek
    by_cases hsame : same k k' = true
    · rw [if_pos hsame, Option.eq_none_iff_forall_ne_some]
      intro v hv
      obtain ⟨e', he', hek', -⟩ := (get_eq_some_iff hs h' hk').mp hv
      have hin : e' ∈ before ++ after := hperm.mem_iff.mp he'
      -- another entry of the class that is now empty
      have hapart := h.apart
      rw [List.pairwise_middle fun h => h.symm, List.pairwise_cons] at hapart
      have hfalse := (hapart.1 e' hin).1
      have hK' : K e'.1 := h'.keys e' he'
      rw [hs.trans (h.keys e (by simp)) hk' hK' (hclass.trans hsame) (hs.symm hK' hk' hek')] at hfalse
      cases hfalse
    · rw [if_neg hsame]
      apply get_congr hs h h' hk'
      intro e' he'
      have hne : e' ≠ e := by
        rintro rfl
        exact hsame (hclass ▸ he')
      rw [hperm.mem_iff]
      simp [hne]
  · rw [heq]
    by_cases hsame : same k k' = true
    · rw [if_pos hsame, Option.eq_none_iff_forall_ne_some]
      intro v hv
      obtain ⟨e, he, hek, -⟩ := (get_eq_some_iff hs h hk').mp hv
      have hek' := hs.trans (h.keys e he) hk' hk hek (hs.symm hk hk' hsame)
      rw [hnone e he] at hek'
      cases hek'
    · rw [if_neg hsame]

end Urbi.Lib.Assoc
