import Mathlib.Algebra.Group.Nat.Defs
import Mathlib.Logic.Basic

/-!
# Capacities that double

A counter of `n + 1` bits holds a capacity that is doubled when it is full: the powers of two up to
`2 ^ n`.  The doubling after that wraps to zero.
-/

namespace Urbi.Lib

def Doubling (n cap : Nat) : Prop := cap = 0 ∨ ∃ k ≤ n, cap = 2 ^ k

def grown (n first cap : Nat) : Nat := if cap = 0 then first else cap * 2 % 2 ^ (n + 1)

variable {n cap : Nat}

namespace Doubling

theorem le (h : Doubling n cap) : cap ≤ 2 ^ n := by
  rcases h with rfl | ⟨k, hk, rfl⟩
  · exact Nat.zero_le _
  · exact Nat.pow_le_pow_right (by decide) hk

theorem grown_cases (h : Doubling n cap) (first : Nat) (hfirst : ∃ k ≤ n, first = 2 ^ k) :
    cap = 2 ^ n ∧ grown n first cap = 0 ∨
      cap < 2 ^ n ∧ cap < grown n first cap ∧ Doubling n (grown n first cap) := by
  unfold grown
  rcases h with rfl | ⟨k, hk, rfl⟩
  · obtain ⟨k, hk, rfl⟩ := hfirst
    exact .inr ⟨Nat.two_pow_pos n, Nat.two_pow_pos k, .inr ⟨k, hk, rfl⟩⟩
  rw [if_neg (Nat.ne_of_gt (Nat.two_pow_pos k)), ← Nat.pow_succ]
  rcases Nat.lt_or_eq_of_le hk with hlt | rfl
  · rw [Nat.mod_eq_of_lt (Nat.pow_lt_pow_right (by decide) (Nat.succ_lt_succ hlt))]
    exact .inr ⟨Nat.pow_lt_pow_right (by decide) hlt,
      Nat.pow_lt_pow_right (by decide) (Nat.lt_succ_self k), .inr ⟨k + 1, hlt, rfl⟩⟩
  · exact .inl ⟨rfl, Nat.mod_self _⟩

theorem mul_two (h : Doubling n cap) : Doubling n (cap * 2 % 2 ^ (n + 1)) := by
  by_cases hzero : cap = 0
  · exact .inl (by rw [hzero, Nat.zero_mul, Nat.zero_mod])
  · have hcases := h.grown_cases 1 ⟨0, Nat.zero_le n, rfl⟩
    rw [grown, if_neg hzero] at hcases
    exact hcases.elim (fun hfull => .inl hfull.2) fun hroom => hroom.2.2

theorem grown32_cases {cap : UInt32} (h : Doubling 31 cap.toNat) (first : UInt32)
    (hfirst : ∃ k ≤ 31, first.toNat = 2 ^ k) :
    let cap' := if cap = 0 then first else cap * 2
    cap.toNat = 2 ^ 31 ∧ cap' = 0 ∨
      cap.toNat < 2 ^ 31 ∧ cap.toNat < cap'.toNat ∧ Doubling 31 cap'.toNat := by
  intro cap'
  have hgrown : cap'.toNat = grown 31 first.toNat cap.toNat := by
    unfold cap' grown
    rw [apply_ite UInt32.toNat, UInt32.toNat_mul]
    exact if_congr UInt32.toNat_inj.symm rfl rfl
  rw [← UInt32.toNat_inj, hgrown]
  exact h.grown_cases _ hfirst

end Doubling

end Urbi.Lib
