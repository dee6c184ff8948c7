import Urbi.Lib.Cursor

/-!
# Decoders that leave a trail

`Traced` keeps a trail beside the outcome of a decoder, also of a run that fails: every move of the
cursor, and values worth reporting.  Offsets are machine words, so `Leads` says that each move starts
where the last one ended and either stays inside the buffer or runs past the word; behind the latter
nothing is known.
-/

namespace Urbi.Lib

inductive Mark where
  | move (off len left : Nat)
  | value (v : Nat)
  deriving DecidableEq, Repr

namespace Mark

def Inside : Mark → Prop
  | move _ len left => len ≤ left
  | value _ => True

def Wraps (word : Nat) : Mark → Prop
  | move off len _ => word ≤ off + len
  | value _ => False

instance : DecidablePred Inside := fun
  | move _ len left => inferInstanceAs (Decidable (len ≤ left))
  | value _ => .isTrue trivial

instance (word : Nat) : DecidablePred (Wraps word) := fun
  | move off len _ => inferInstanceAs (Decidable (word ≤ off + len))
  | value _ => .isFalse id

def next? (word : Nat) : Mark → Option Nat
  | move off len _ => some ((off + len) % word)
  | value _ => none

def value? : Mark → Option Nat
  | move .. => none
  | value v => some v

end Mark

def offsets (word : Nat) (ms : List Mark) : List Nat := ms.filterMap (·.next? word)

def values (ms : List Mark) : List Nat := ms.filterMap Mark.value?

@[simp] theorem values_nil : values [] = [] := rfl

@[simp] theorem values_append (ms ms' : List Mark) : values (ms ++ ms') = values ms ++ values ms' :=
  List.filterMap_append

/-! ## Traced decoders -/

def Traced (σ ε α : Type) : Type := Cursor σ → List Mark × Except ε (α × Cursor σ)

namespace Traced

variable {σ ε α β : Type}

def trail (m : Traced σ ε α) (d : Cursor σ) : List Mark := (m d).1

def outcome (m : Traced σ ε α) : Decoder σ ε α := fun d => (m d).2

def andThen (m : Traced σ ε α) (f : α → Traced σ ε β) : Traced σ ε β := fun d =>
  match m d with
  | (ms, .error e) => (ms, .error e)
  | (ms, .ok (a, d')) =>
    match f a d' with
    | (ms', r) => (ms ++ ms', r)

instance : Monad (Traced σ ε) where
  pure a := fun d => ([], .ok (a, d))
  bind := andThen

def quiet (m : Decoder σ ε α) : Traced σ ε α := fun d => ([], m d)

def moving (m : Decoder σ ε α) : Traced σ ε α := fun d =>
  match m d with
  | .error e => ([], .error e)
  | .ok (a, d') => ([.move d.off (d'.off - d.off) d.rest.length], .ok (a, d'))

def report (v : Nat) : Traced σ ε Unit := fun d => ([.value v], .ok ((), d))

def times (m : Nat → Traced σ ε α) : Nat → Nat → Traced σ ε (List α)
  | 0, _ => pure []
  | n + 1, i => do
      let x ← m i
      let xs ← times m n (i + 1)
      pure (x :: xs)

variable {m : Traced σ ε α} {f : α → Traced σ ε β} {d d' : Cursor σ} {a : α} {e : ε}

theorem bind_apply_of_ok (h : m.outcome d = .ok (a, d')) :
    (m >>= f) d = (m.trail d ++ (f a).trail d', (f a).outcome d') := by
  show m.andThen f d = _
  have hm : m d = (m.trail d, .ok (a, d')) := Prod.ext rfl h
  unfold andThen
  rw [hm]
  rfl

theorem bind_apply_of_error (h : m.outcome d = .error e) : (m >>= f) d = (m.trail d, .error e) := by
  show m.andThen f d = _
  have hm : m d = (m.trail d, .error e) := Prod.ext rfl h
  unfold andThen
  rw [hm]

theorem trail_bind_of_ok (h : m.outcome d = .ok (a, d')) :
    (m >>= f).trail d = m.trail d ++ (f a).trail d' :=
  congrArg Prod.fst (bind_apply_of_ok h)

@[simp] theorem outcome_pure : (pure a : Traced σ ε α).outcome = pure a := rfl

@[simp] theorem trail_pure : (pure a : Traced σ ε α).trail d = [] := rfl

@[simp] theorem outcome_bind : (m >>= f).outcome = m.outcome >>= fun a => (f a).outcome := by
  funext d
  show ((m >>= f) d).2 = (m.outcome d >>= fun p => (f p.1).outcome p.2)
  cases h : m.outcome d with
  | error e => rw [bind_apply_of_error h]; rfl
  | ok p => rw [bind_apply_of_ok h]; rfl

@[simp] theorem outcome_quiet (m : Decoder σ ε α) : (quiet m).outcome = m := rfl

@[simp] theorem trail_quiet (m : Decoder σ ε α) : (quiet m).trail d = [] := rfl

@[simp] theorem outcome_moving (m : Decoder σ ε α) : (moving m).outcome = m := by
  funext d
  unfold outcome moving
  cases m d <;> rfl

theorem trail_moving_of_ok {m : Decoder σ ε α} (h : m d = .ok (a, d')) :
    (moving m).trail d = [.move d.off (d'.off - d.off) d.rest.length] := by
  simp only [trail, moving, h]

@[simp] theorem values_trail_moving (m : Decoder σ ε α) : values ((moving m).trail d) = [] := by
  unfold trail moving
  cases m d <;> rfl

@[simp] theorem outcome_report (v : Nat) : (report v : Traced σ ε Unit).outcome = pure () := rfl

@[simp] theorem trail_report (v : Nat) :
    (report v : Traced σ ε Unit).trail d = [.value v] := rfl

@[simp] theorem outcome_times (m : Nat → Traced σ ε α) (n i : Nat) :
    (times m n i).outcome = Lib.times (fun i => (m i).outcome) n i := by
  induction n generalizing i with
  | zero => rfl
  | succ n ih => simp only [times, Lib.times, outcome_bind, outcome_pure, ih]

end Traced

/-- Each move starts where the one before it ended, and stays inside the buffer or runs past the
word. -/
def Leads (word size : Nat) : Nat → List Mark → Nat → Prop
  | off, [], fin => fin = off
  | off, .value _ :: ms, fin => Leads word size off ms fin
  | off, .move o len left :: ms, fin => o = off ∧ off + left = size ∧
      (off + len ≤ size ∨ word ≤ off + len) ∧
      (off + len ≤ size → Leads word size (off + len) ms fin)

namespace Leads

variable {word size off mid fin : Nat} {ms ms' : List Mark}

theorem append (h : Leads word size off ms mid)
    (h' : (∀ k ∈ ms, k.Inside) → Leads word size mid ms' fin) :
    Leads word size off (ms ++ ms') fin := by
  induction ms generalizing off with
  | nil => exact (show mid = off from h) ▸ h' (by simp)
  | cons k ms ih =>
    cases k with
    | value v => exact ih h fun hin => h' (List.forall_mem_cons.mpr ⟨trivial, hin⟩)
    | move o len left =>
      obtain ⟨ho, hleft, hlen, hrest⟩ := h
      refine ⟨ho, hleft, hlen, fun hfit => ih (hrest hfit) fun hin => h' ?_⟩
      refine List.forall_mem_cons.mpr ⟨?_, hin⟩
      show len ≤ left
      omega

theorem inside_iff (h : Leads word size off ms fin) (hsize : size < word) :
    (∀ k ∈ ms, k.Inside) ↔ ∀ k ∈ ms, ¬ k.Wraps word := by
  induction ms generalizing off with
  | nil => simp
  | cons k ms ih =>
    rw [List.forall_mem_cons, List.forall_mem_cons]
    cases k with
    | value v =>
      rw [ih h]
      exact and_congr_left fun _ => iff_of_true trivial id
    | move o len left =>
      obtain ⟨rfl, hleft, hlen, hrest⟩ := h
      have hone : (Mark.move o len left).Inside ↔ ¬ (Mark.move o len left).Wraps word := by
        show len ≤ left ↔ ¬ word ≤ o + len
        omega
      rw [hone]
      refine and_congr_right fun hwrap => ih (hrest ?_)
      have hin : len ≤ left := hone.mpr hwrap
      omega

theorem offsets_sorted (h : Leads word size off ms fin) (hsize : size < word) (hoff : off ≤ size)
    (hin : ∀ k ∈ ms, k.Inside) :
    (offsets word ms).Pairwise (· ≤ ·) ∧ ∀ o ∈ offsets word ms, off ≤ o ∧ o ≤ size := by
  induction ms generalizing off with
  | nil => exact ⟨.nil, by simp [offsets]⟩
  | cons k ms ih =>
    have hin' := (List.forall_mem_cons.mp hin).2
    cases k with
    | value v => exact ih h hoff hin'
    | move o len left =>
      obtain ⟨rfl, hleft, -, hrest⟩ := h
      have hlen : len ≤ left := (List.forall_mem_cons.mp hin).1
      have hfit : o + len ≤ size := by omega
      obtain ⟨hsorted, hbound⟩ := ih (hrest hfit) hfit hin'
      have hnext : offsets word (.move o len left :: ms) = (o + len) :: offsets word ms := by
        show (o + len) % word :: offsets word ms = _
        rw [Nat.mod_eq_of_lt (by omega)]
      rw [hnext]
      refine ⟨.cons (fun x hx => (hbound x hx).1) hsorted, ?_⟩
      intro x hx
      rcases List.mem_cons.mp hx with rfl | hx
      · omega
      · have := hbound x hx
        omega

end Leads

/-! ## Decoders whose trails lead somewhere -/

def Cursor.In {σ : Type} (size : Nat) (d : Cursor σ) : Prop := d.off + d.rest.length = size

/-- From every cursor in the buffer that satisfies `P`, the trail of `m` leads on; and if it stayed
inside, a result leaves the cursor at its end, with `Q`. -/
def Goes {σ ε α : Type} (word size : Nat) (P : Cursor σ → Prop) (m : Traced σ ε α)
    (Q : α → Cursor σ → Prop) : Prop :=
  ∀ d, d.In size → P d → ∃ fin, Leads word size d.off (m.trail d) fin ∧
    ∀ a d', m.outcome d = .ok (a, d') → (∀ k ∈ m.trail d, k.Inside) →
      d'.off = fin ∧ d'.In size ∧ Q a d'

namespace Goes

variable {σ ε α β : Type} {word size : Nat} {P : Cursor σ → Prop} {m : Traced σ ε α}
  {Q : α → Cursor σ → Prop} {f : α → Traced σ ε β} {R : β → Cursor σ → Prop}

theorem mono {P' : Cursor σ → Prop} {Q' : α → Cursor σ → Prop} (h : Goes word size P m Q)
    (hP : ∀ d, P' d → P d) (hQ : ∀ a d, Q a d → Q' a d) : Goes word size P' m Q' := by
  intro d hd hPd
  obtain ⟨fin, hlead, hok⟩ := h d hd (hP d hPd)
  refine ⟨fin, hlead, fun a d' hr hin => ?_⟩
  have hend := hok a d' hr hin
  exact ⟨hend.1, hend.2.1, hQ a d' hend.2.2⟩

theorem pure (a : α) : Goes word size P (Pure.pure a : Traced σ ε α) fun _ d => P d := by
  intro d hd hP
  refine ⟨d.off, rfl, fun a' d' hr _ => ?_⟩
  cases hr
  exact ⟨rfl, hd, hP⟩

theorem bind (hm : Goes word size P m Q) (hf : ∀ a, Goes word size (Q a) (f a) R) :
    Goes word size P (m >>= f) R := by
  intro d hd hP
  obtain ⟨mid, hlead, hok⟩ := hm d hd hP
  cases hr : m.outcome d with
  | error e =>
    have happ := Traced.bind_apply_of_error (f := f) hr
    refine ⟨mid, ?_, fun b d' hb _ => ?_⟩
    · simpa only [Traced.trail, happ] using hlead
    · simp only [Traced.outcome, happ] at hb
      cases hb
  | ok r =>
    obtain ⟨a, d₁⟩ := r
    have htrail : (m >>= f).trail d = m.trail d ++ (f a).trail d₁ := Traced.trail_bind_of_ok hr
    have hout : (m >>= f).outcome d = (f a).outcome d₁ := by rw [Traced.outcome_bind, bind_of_ok hr]
    rw [htrail, hout]
    by_cases hin : ∀ k ∈ m.trail d, k.Inside
    · -- the first part stayed inside, so the second starts where it ended
      obtain ⟨rfl, hd₁, hQ⟩ := hok a d₁ hr hin
      obtain ⟨fin, hlead', hok'⟩ := hf a d₁ hd₁ hQ
      refine ⟨fin, hlead.append fun _ => hlead', fun b d' hb hall => ?_⟩
      exact hok' b d' hb fun k hk => hall k (List.mem_append_right _ hk)
    · refine ⟨mid, hlead.append fun h => absurd h hin, fun b d' _ hall => ?_⟩
      exact absurd (fun k hk => hall k (List.mem_append_left _ hk)) hin

theorem quiet {m : Decoder σ ε α} (h : ∀ d a d', d.In size → P d → m d = .ok (a, d') →
      d'.off = d.off ∧ d'.rest = d.rest ∧ Q a d') : Goes word size P (.quiet m) Q := by
  intro d hd hP
  refine ⟨d.off, rfl, fun a d' hr _ => ?_⟩
  obtain ⟨hoff, hrest, hQ⟩ := h d a d' hd hP hr
  refine ⟨hoff, ?_, hQ⟩
  show d'.off + d'.rest.length = size
  rw [hoff, hrest]
  exact hd

theorem moving {m : Decoder σ ε α}
    (h : ∀ d a d', d.In size → P d → m d = .ok (a, d') → d.off ≤ d'.off ∧
      (d'.off ≤ size ∨ word ≤ d'.off) ∧ (d'.off ≤ size → d'.In size ∧ Q a d')) :
    Goes word size P (.moving m) Q := by
  intro d hd hP
  cases hr : m d with
  | error e =>
    refine ⟨d.off, ?_, fun a d' hok _ => ?_⟩
    · simp only [Traced.trail, Traced.moving, hr]
      rfl
    · rw [Traced.outcome_moving, hr] at hok
      cases hok
  | ok r =>
    obtain ⟨a, d₁⟩ := r
    obtain ⟨hle, hcase, hinside⟩ := h d a d₁ hd hP hr
    have hsum : d.off + d.rest.length = size := hd
    rw [Traced.trail_moving_of_ok hr]
    refine ⟨d₁.off, ⟨rfl, hd, ?_, fun _ => ?_⟩, fun a' d' hok hin => ?_⟩
    · rwa [Nat.add_sub_cancel' hle]
    · exact (Nat.add_sub_cancel' hle).symm
    · rw [Traced.outcome_moving, hr] at hok
      cases hok
      have hlen : d₁.off - d.off ≤ d.rest.length := hin _ (.head _)
      have hfit : d₁.off ≤ size := by omega
      exact ⟨rfl, hinside hfit⟩

theorem report (v : Nat) : Goes word size P (.report v : Traced σ ε Unit) fun _ => P := by
  intro d hd hP
  refine ⟨d.off, rfl, fun a d' hr _ => ?_⟩
  cases hr
  exact ⟨rfl, hd, hP⟩

theorem times {m : Nat → Traced σ ε α}
    (h : ∀ i, Goes word size (fun _ => True) (m i) fun _ _ => True) (n i : Nat) :
    Goes word size (fun _ => True) (Traced.times m n i) fun _ _ => True := by
  induction n generalizing i with
  | zero => exact (Goes.pure []).mono (fun _ _ => trivial) fun _ _ _ => trivial
  | succ n ih =>
    refine (h i).bind fun x => (ih (i + 1)).bind fun xs => ?_
    exact (Goes.pure _).mono (fun _ _ => trivial) fun _ _ _ => trivial

end Goes

end Urbi.Lib
