import Urbi.Lib.StateExcept

/-!
# Decoding over a running cursor

`Reads m enc x` says that `m`, started on the encoding followed by anything at all, returns `x` and
leaves the rest; it composes along `>>=`.  An encoding may depend on the offset it starts at.
-/

namespace Urbi.Lib

structure Cursor (σ : Type) where
  off : Nat
  rest : List UInt8
  aux : σ

abbrev Decoder (σ ε α : Type) : Type := StateT (Cursor σ) (Except ε) α

abbrev Encoding : Type := Nat → List UInt8

def Encoding.seq (e₁ e₂ : Encoding) : Encoding := fun off =>
  e₁ off ++ e₂ (off + (e₁ off).length)

theorem Encoding.seq_assoc (e₁ e₂ e₃ : Encoding) : (e₁.seq e₂).seq e₃ = e₁.seq (e₂.seq e₃) := by
  funext off
  simp only [seq, List.length_append, List.append_assoc, Nat.add_assoc]

def Encoding.empty : Encoding := fun _ => []

theorem Encoding.empty_seq (e : Encoding) : Encoding.empty.seq e = e := by
  funext off
  simp [seq, empty]

theorem Encoding.seq_empty (e : Encoding) : e.seq .empty = e := by
  funext off
  simp [seq, empty]

def Encoding.raw (bs : List UInt8) : Encoding := fun _ => bs

variable {σ ε α β : Type}

/-- On every buffer shorter than `limit` that holds `enc` at the cursor, `m` returns `x` and
consumes `enc`. -/
def Reads (limit : Nat) (m : Decoder σ ε α) (enc : Encoding) (x : α) : Prop :=
  ∀ off r a, off + (enc off).length + r.length < limit →
    ∃ a', m ⟨off, enc off ++ r, a⟩ = .ok (x, ⟨off + (enc off).length, r, a'⟩)

namespace Reads

variable {limit : Nat} {m : Decoder σ ε α} {enc enc' : Encoding} {x : α}

theorem pure (x : α) : Reads limit (Pure.pure x : Decoder σ ε α) .empty x :=
  fun off r a _ => ⟨a, by simp [Encoding.empty]⟩

theorem bind {f : α → Decoder σ ε β} {y : β} (hm : Reads limit m enc x)
    (hf : Reads limit (f x) enc' y) : Reads limit (m >>= f) (enc.seq enc') y := by
  intro off r a hlim
  simp only [Encoding.seq, List.length_append] at hlim ⊢
  obtain ⟨a₁, h₁⟩ := hm off (enc' (off + (enc off).length) ++ r) a (by
    rw [List.length_append]; omega)
  obtain ⟨a₂, h₂⟩ := hf (off + (enc off).length) r a₁ (by omega)
  refine ⟨a₂, ?_⟩
  rw [List.append_assoc, bind_of_ok h₁, h₂, Nat.add_assoc]

theorem congr_enc (h : Reads limit m enc x) (he : enc = enc') : Reads limit m enc' x := he ▸ h

theorem bind_empty {f : α → Decoder σ ε β} {y : β} (hm : Reads limit m .empty x)
    (hf : Reads limit (f x) enc y) : Reads limit (m >>= f) enc y :=
  (hm.bind hf).congr_enc (Encoding.empty_seq enc)

theorem bind_pure {f : α → β} (hm : Reads limit m enc x) :
    Reads limit (m >>= fun a => Pure.pure (f a)) enc (f x) :=
  (hm.bind (pure (f x))).congr_enc (Encoding.seq_empty enc)

theorem require {c : Bool} {e : ε} (h : c = true) :
    Reads limit (Lib.require c e : Decoder σ ε Unit) .empty () :=
  fun off r a _ => ⟨a, by simp [Lib.require, h, Encoding.empty]⟩

end Reads

def times (m : Nat → Decoder σ ε α) : Nat → Nat → Decoder σ ε (List α)
  | 0, _ => Pure.pure []
  | n + 1, i => do
      let x ← m i
      let xs ← times m n (i + 1)
      Pure.pure (x :: xs)

def Encoding.list (enc : α → Encoding) : List α → Encoding
  | [] => .empty
  | x :: xs => (enc x).seq (Encoding.list enc xs)

theorem Reads.times_map {limit : Nat} {m : Nat → Decoder σ ε β} {enc : α → Encoding} {g : α → β}
    {xs : List α} (start : Nat)
    (h : ∀ i x, xs[i]? = some x → Reads limit (m (start + i)) (enc x) (g x)) :
    Reads limit (Lib.times m xs.length start) (.list enc xs) (xs.map g) := by
  induction xs generalizing start with
  | nil => exact Reads.pure []
  | cons x xs ih =>
    have hx : Reads limit (m start) (enc x) (g x) := by simpa using h 0 x rfl
    have hxs := ih (start + 1) fun i y hy => by
      rw [show start + 1 + i = start + (i + 1) by omega]
      exact h (i + 1) y (by simpa using hy)
    exact hx.bind hxs.bind_pure

theorem Reads.times {limit : Nat} {m : Nat → Decoder σ ε α} {enc : α → Encoding} {xs : List α}
    (start : Nat) (h : ∀ i x, xs[i]? = some x → Reads limit (m (start + i)) (enc x) x) :
    Reads limit (Lib.times m xs.length start) (.list enc xs) xs := by
  have hmap := Reads.times_map (g := fun x => x) start h
  rwa [List.map_id'] at hmap

/-! ## Writing again what was read -/

def Encoding.Ends (enc : Encoding) (p q : Nat) : Prop := ∀ off ≤ p, off + (enc off).length ≤ q

namespace Encoding.Ends

variable {e e' : Encoding} {p q r : Nat}

theorem seq (h : e.Ends p q) (h' : e'.Ends q r) : (e.seq e').Ends p r := by
  intro off hoff
  have := h' _ (h off hoff)
  simp only [Encoding.seq, List.length_append]
  omega

theorem empty (h : p ≤ q) : Encoding.empty.Ends p q := fun _ hoff => Nat.le_trans hoff h

theorem raw {bs : List UInt8} (h : p + bs.length ≤ q) : (Encoding.raw bs).Ends p q := by
  intro off hoff
  have : (Encoding.raw bs off).length = bs.length := rfl
  omega

end Encoding.Ends

structure Onward (d d' : Cursor σ) : Prop where
  kept : d'.off + d'.rest.length = d.off + d.rest.length ∨ d'.rest = []
  starved : d.rest = [] → d'.rest = []

namespace Onward

variable {d d₁ d₂ : Cursor σ}

theorem refl (d : Cursor σ) : Onward d d := ⟨.inl rfl, id⟩

theorem drop {n : Nat} (hoff : d₁.off = d.off + n) (hrest : d₁.rest = d.rest.drop n) :
    Onward d d₁ := by
  refine ⟨?_, fun h => by rw [hrest, h, List.drop_nil]⟩
  rw [hoff, hrest]
  by_cases hn : n ≤ d.rest.length
  · left
    rw [List.length_drop]
    omega
  · exact .inr (List.drop_eq_nil_of_le (Nat.le_of_not_le hn))

theorem trans (h : Onward d d₁) (h' : Onward d₁ d₂) : Onward d d₂ := by
  refine ⟨?_, fun hd => h'.starved (h.starved hd)⟩
  rcases h'.kept with hk | hk
  · rcases h.kept with hk' | hk'
    · exact .inl (hk.trans hk')
    · exact .inr (h'.starved hk')
  · exact .inr hk

end Onward

/-- The decoder went from `d` to `d'`, and written from where it started, `e` ends no later. -/
structure Spans (d d' : Cursor σ) (e : Encoding) : Prop where
  ends : e.Ends d.off d'.off
  onward : Onward d d'

namespace Spans

variable {d d₁ d₂ : Cursor σ} {e e' : Encoding}

theorem refl (d : Cursor σ) : Spans d d .empty := ⟨.empty (Nat.le_refl _), .refl d⟩

theorem of_eq (hoff : d₁.off = d.off) (hrest : d₁.rest = d.rest) : Spans d d₁ .empty :=
  ⟨.empty (Nat.le_of_eq hoff.symm), .inl (by rw [hoff, hrest]), fun h => hrest.trans h⟩

theorem drop {n : Nat} {bs : List UInt8} (hoff : d₁.off = d.off + n)
    (hrest : d₁.rest = d.rest.drop n) (h : bs.length ≤ n) : Spans d d₁ (.raw bs) :=
  ⟨.raw (by omega), .drop hoff hrest⟩

theorem seq (h : Spans d d₁ e) (h' : Spans d₁ d₂ e') : Spans d d₂ (e.seq e') :=
  ⟨h.ends.seq h'.ends, h.onward.trans h'.onward⟩

theorem after (h : Spans d d₁ .empty) (h' : Spans d₁ d₂ e) : Spans d d₂ e :=
  Encoding.empty_seq e ▸ h.seq h'

end Spans

theorem times_ok {m : Nat → Decoder σ ε α} {P : α → Prop} {enc : α → Encoding}
    {S : Cursor σ → Cursor σ → Encoding → Prop} (hrefl : ∀ d, S d d .empty)
    (hseq : ∀ {d d₁ d₂ e e'}, S d d₁ e → S d₁ d₂ e' → S d d₂ (e.seq e'))
    (hm : ∀ i d x d', m i d = .ok (x, d') → P x ∧ S d d' (enc x))
    {n i : Nat} {d d' : Cursor σ} {xs : List α} (h : times m n i d = .ok (xs, d')) :
    xs.length = n ∧ (∀ x ∈ xs, P x) ∧ S d d' (.list enc xs) := by
  induction n generalizing i d xs with
  | zero =>
    cases h
    exact ⟨rfl, by simp, hrefl _⟩
  | succ n ih =>
    rw [times] at h
    obtain ⟨x, d₁, hx, h⟩ := bind_eq_ok.mp h
    obtain ⟨ys, d₂, hys, h⟩ := bind_eq_ok.mp h
    cases h
    obtain ⟨hP, hspan⟩ := hm i d x d₁ hx
    obtain ⟨hlen, hall, hrest⟩ := ih hys
    exact ⟨congrArg (· + 1) hlen, List.forall_mem_cons.mpr ⟨hP, hall⟩, hseq hspan hrest⟩

end Urbi.Lib
