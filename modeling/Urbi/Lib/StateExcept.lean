import Mathlib.Data.List.Basic
import Mathlib.Order.Defs.Unbundled

/-!
# Fallible computations, with and without a state

A computation in `Except ε` or `StateT σ (Except ε)` stops at its first error or returns a value.  A
run that succeeded has successful parts (`bind_eq_ok`), and successful parts compose (`bind_of_ok`).
-/

namespace Urbi.Lib

variable {ε σ α β : Type}

/-! ## `Except` -/

def check (c : Bool) (e : ε) : Except ε Unit := if c then .ok () else .error e

@[simp] theorem check_eq_ok {c : Bool} {e : ε} {u : Unit} : check c e = .ok u ↔ c = true := by
  unfold check
  split <;> simp_all

theorem except_bind_eq_ok {m : Except ε α} {f : α → Except ε β} {r : β} :
    (m >>= f) = .ok r ↔ ∃ a, m = .ok a ∧ f a = .ok r := by
  cases m with
  | error e | ok a => simp [bind, Except.bind]

@[simp] theorem except_bind_ok (a : α) (f : α → Except ε β) :
    ((.ok a : Except ε α) >>= f) = f a := rfl

@[simp] theorem except_bind_error (e : ε) (f : α → Except ε β) :
    ((.error e : Except ε α) >>= f) = .error e := rfl

@[simp] theorem check_bind_eq_ok {c : Bool} {e : ε} {f : Unit → Except ε β} {r : β} :
    (check c e >>= f) = .ok r ↔ c = true ∧ f () = .ok r := by
  cases c <;> simp [check]

/-! ## `StateT σ (Except ε)` -/

section StateExcept

variable {m : StateT σ (Except ε) α} {f : α → StateT σ (Except ε) β} {s s' : σ}

theorem bind_of_ok {a : α} (h : m s = .ok (a, s')) : (m >>= f) s = f a s' := by
  show (m s >>= fun p => f p.1 p.2) = f a s'
  rw [h]
  rfl

theorem bind_eq_ok {r : β × σ} :
    (m >>= f) s = .ok r ↔ ∃ a s', m s = .ok (a, s') ∧ f a s' = .ok r := by
  show (m s >>= fun p => f p.1 p.2) = .ok r ↔ _
  rw [except_bind_eq_ok]
  exact ⟨fun ⟨p, h⟩ => ⟨p.1, p.2, h⟩, fun ⟨a, s', h⟩ => ⟨(a, s'), h⟩⟩

@[simp] theorem pure_apply (a : α) : (pure a : StateT σ (Except ε) α) s = .ok (a, s) := rfl

theorem lift_ok (a : α) : (liftM (.ok a : Except ε α) : StateT σ (Except ε) α) s = .ok (a, s) := rfl

@[simp] theorem lift_apply (x : Except ε α) :
    (liftM x : StateT σ (Except ε) α) s = x.map fun a => (a, s) := by
  cases x <;> rfl

end StateExcept

def require (c : Bool) (e : ε) : StateT σ (Except ε) Unit := fun s =>
  if c then .ok ((), s) else .error e

@[simp] theorem require_eq_ok {c : Bool} {e : ε} {s : σ} {r : Unit × σ} :
    require c e s = .ok r ↔ c = true ∧ r = ((), s) := by
  unfold require
  split <;> simp_all [eq_comm]

theorem require_of_true {c : Bool} {e : ε} {s : σ} (h : c = true) :
    require c e s = .ok ((), s) := by
  simp [require, h]

section Relates

variable {R : σ → σ → Prop} {m : StateT σ (Except ε) α} {f : α → StateT σ (Except ε) β}

def Relates (R : σ → σ → Prop) (m : StateT σ (Except ε) α) : Prop :=
  ∀ ⦃s a s'⦄, m s = .ok (a, s') → R s s'

@[grind ←] theorem Relates.bind [IsTrans σ R] (hm : Relates R m) (hf : ∀ a, Relates R (f a)) :
    Relates R (m >>= f) := by
  intro s b s' h
  obtain ⟨a, s₁, ha, hb⟩ := bind_eq_ok.mp h
  exact IsTrans.trans _ _ _ (hm ha) (hf a hb)

@[grind ←] theorem Relates.pure [Std.Refl R] (a : α) :
    Relates R (pure a : StateT σ (Except ε) α) := by
  rintro s b s' ⟨⟩
  exact Std.Refl.refl s

@[grind ←] theorem Relates.get [Std.Refl R] : Relates R (get : StateT σ (Except ε) σ) := by
  rintro s b s' ⟨⟩
  exact Std.Refl.refl s

end Relates

end Urbi.Lib
