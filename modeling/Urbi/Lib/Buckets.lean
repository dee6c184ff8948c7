import Mathlib.Data.List.Basic
import Mathlib.Data.List.Perm.Basic
import Mathlib.Data.List.Flatten

/-!
# Chains by hash

A table of chains, each thing in the chain its hash selects.  A table of another size is filled chain
by chain, each from its head.
-/

namespace Urbi.Lib.Buckets

universe u

variable {α : Type u} (hash : α → Nat)

def put (chains : List (List α)) (a : α) : List (List α) :=
  chains.modify (hash a % chains.length) (a :: ·)

def rehash (n : Nat) (chains : List (List α)) : List (List α) :=
  chains.foldl (fun new chain => chain.foldl (put hash) new) (List.replicate n [])

def chain (chains : List (List α)) (h : Nat) : List α := (chains[h % chains.length]?).getD []

def Placed (chains : List (List α)) : Prop :=
  ∀ i c, chains[i]? = some c → ∀ a ∈ c, hash a % chains.length = i

variable {hash} {chains : List (List α)}

theorem Placed.mem_chain (h : Placed hash chains) {a : α} (ha : a ∈ chains.flatten) :
    a ∈ chain chains (hash a) := by
  obtain ⟨c, hc, hac⟩ := List.mem_flatten.mp ha
  obtain ⟨i, hi⟩ := List.mem_iff_getElem?.mp hc
  unfold chain
  rw [h i c hi a hac, hi]
  exact hac

theorem mem_of_mem_chain {h : Nat} {a : α} (ha : a ∈ chain chains h) : a ∈ chains.flatten := by
  unfold chain at ha
  cases hc : chains[h % chains.length]? with
  | none =>
    rw [hc] at ha
    cases ha
  | some c =>
    rw [hc] at ha
    exact List.mem_flatten.mpr ⟨c, List.mem_of_getElem? hc, ha⟩

@[simp] theorem length_put (chains : List (List α)) (a : α) :
    (put hash chains a).length = chains.length := List.length_modify _ _ _

variable (hash) in
theorem put_perm (hpos : 0 < chains.length) (a : α) :
    (put hash chains a).flatten.Perm (a :: chains.flatten) := by
  obtain ⟨before, c, after, hsplit, -, hput⟩ :=
    List.exists_of_modify (a :: ·) (Nat.mod_lt (hash a) hpos)
  unfold put
  rw [hput, hsplit]
  simp only [List.flatten_append, List.flatten_cons, List.cons_append]
  exact List.perm_middle

theorem Placed.put (h : Placed hash chains) (a : α) : Placed hash (put hash chains a) := by
  intro i c hi b hb
  rw [length_put]
  unfold Buckets.put at hi
  rw [List.getElem?_modify] at hi
  obtain ⟨c₀, hc₀, rfl⟩ := Option.map_eq_some_iff.mp hi
  by_cases hai : hash a % chains.length = i
  · rw [if_pos hai] at hb
    rcases List.mem_cons.mp hb with rfl | hb
    · exact hai
    · exact h i c₀ hc₀ b hb
  · rw [if_neg hai] at hb
    exact h i c₀ hc₀ b hb

theorem foldl_put (hpos : 0 < chains.length) (h : Placed hash chains) (l : List α) :
    (l.foldl (Buckets.put hash) chains).length = chains.length ∧
      Placed hash (l.foldl (Buckets.put hash) chains) ∧
      (l.foldl (Buckets.put hash) chains).flatten.Perm (l ++ chains.flatten) := by
  induction l generalizing chains with
  | nil => exact ⟨rfl, h, List.Perm.refl _⟩
  | cons a l ih =>
    have hlen : (Buckets.put hash chains a).length = chains.length := length_put chains a
    obtain ⟨hlen', hplaced, hperm⟩ := ih (hlen ▸ hpos) (h.put a)
    refine ⟨hlen'.trans hlen, hplaced, ?_⟩
    calc (l.foldl (Buckets.put hash) (Buckets.put hash chains a)).flatten
        |>.Perm (l ++ (Buckets.put hash chains a).flatten) := hperm
      _ |>.Perm (l ++ a :: chains.flatten) := (put_perm hash hpos a).append_left l
      _ |>.Perm (a :: (l ++ chains.flatten)) := List.perm_middle

theorem rehash_eq (n : Nat) (chains : List (List α)) :
    rehash hash n chains = chains.flatten.foldl (put hash) (List.replicate n []) := by
  unfold rehash
  rw [List.foldl_flatten]

variable (hash) in
theorem placed_replicate (n : Nat) : Placed hash (List.replicate n []) := by
  intro i c hi a ha
  have hc : c = [] := List.eq_of_mem_replicate (List.mem_of_getElem? hi)
  rw [hc] at ha
  cases ha

variable (hash) in
theorem rehash_spec {n : Nat} (hpos : 0 < n) (chains : List (List α)) :
    (rehash hash n chains).length = n ∧ Placed hash (rehash hash n chains) ∧
      (rehash hash n chains).flatten.Perm chains.flatten := by
  rw [rehash_eq]
  have hpos' : 0 < (List.replicate n ([] : List α)).length := by simpa using hpos
  have h := foldl_put hpos' (placed_replicate hash n) chains.flatten
  rwa [List.length_replicate, List.flatten_replicate_nil, List.append_nil] at h

end Urbi.Lib.Buckets
