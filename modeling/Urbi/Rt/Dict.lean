import Urbi.Lib.Assoc
import Urbi.Lib.Capacity
import Urbi.Rt.Compare

/-!
# Equality of values, and dictionaries

`uv_equal` compares two integers exactly and an integer with a Float through its double; it compares
two symbols by address and a symbol with a string by its bytes.  A dictionary is two arrays scanned
with it.
-/

namespace Urbi

open Lib Lib.Binary64

variable {L : CodeBase}

/-! ## Values as `uv_equal` reads them -/

/-- A value, with `UV_SYM` apart from `UV_STR`: a symbol is an address. -/
inductive UKey (L : CodeBase) where
  | value (v : UValue L)
  | sym (p : Nat)

section Equal

-- the bytes behind each symbol
variable (text : Nat → Bytes)

def UKey.toValue : UKey L → UValue L
  | .value v => v
  | .sym p => .str (text p)

def UKey.equal : UKey L → UKey L → Bool
  | .sym p, .sym q => p == q
  | a, b => (a.toValue text).equal (b.toValue text)

def UKey.isNaN : UKey L → Bool
  | .value (.float bits) => Binary64.isNaN bits
  | _ => false

inductive Plain where
  | nil | void
  | bool (b : Bool)
  | ident (id : Bool × Nat)
  deriving DecidableEq

/-- A number exactly or as a double, a string by its address or as its bytes. -/
inductive KeyReading where
  | number (n : Int64 ⊕ Int)
  | text (t : Nat ⊕ Bytes)
  | plain (p : Plain)

def rounded (i : Int64) : Int := nearest i.toInt * 2 ^ 1074

def KeyReading.same : KeyReading → KeyReading → Bool
  | .number m, .number n => Assoc.alike rounded m n
  | .text s, .text t => Assoc.alike text s t
  | .plain p, .plain q => p = q
  | _, _ => false

def UValue.reading : UValue L → KeyReading
  | .int i => .number (.inl i)
  | .float bits => .number (.inr (units bits))
  | .str bytes => .text (.inr bytes)
  | .nil => .plain .nil
  | .void => .plain .void
  | .bool b => .plain (.bool b)
  | .obj id | .exception id _ => .plain (.ident (true, id))
  | .closure c => .plain (.ident (false, c.id))
  | .tag id | .event id | .strand id | .cell id => .plain (.ident (false, id))

def UKey.reading : UKey L → KeyReading
  | .value v => v.reading
  | .sym p => .text (.inl p)

theorem isNaN_ofInt (i : Int64) : Binary64.isNaN (ofInt i.toInt) = false :=
  (ofInt_nearest (Int64.natAbs_toInt_lt i)).1

theorem units_ofInt (i : Int64) : units (ofInt i.toInt) = rounded i :=
  (ofInt_nearest (Int64.natAbs_toInt_lt i)).2

theorem eq_of_not_nan {x y : UInt64} (hx : Binary64.isNaN x = false)
    (hy : Binary64.isNaN y = false) : Binary64.eq x y = decide (units x = units y) := by
  unfold Binary64.eq
  rw [hx, hy]
  rfl

theorem same_ident (x y : Bool × Nat) :
    KeyReading.same text (.plain (.ident x)) (.plain (.ident y)) = (x == y) := by
  show decide (Plain.ident x = Plain.ident y) = (x == y)
  rw [Bool.eq_iff_iff, decide_eq_true_iff, beq_iff_eq, Plain.ident.injEq]

theorem UValue.equal_eq_same {v w : UValue L} (hv : UKey.isNaN (.value v) = false)
    (hw : UKey.isNaN (.value w) = false) : v.equal w = KeyReading.same text v.reading w.reading := by
  cases v <;> cases w
  -- where one number is a Float both are compared as doubles
  case int.float i y =>
    show Binary64.eq (ofInt i.toInt) y = decide (rounded i = units y)
    rw [eq_of_not_nan (isNaN_ofInt i) hw, units_ofInt]
  case float.int x j =>
    show Binary64.eq x (ofInt j.toInt) = decide (units x = rounded j)
    rw [eq_of_not_nan hv (isNaN_ofInt j), units_ofInt]
  case float.float x y => exact eq_of_not_nan hv hw
  case bool.bool b c => cases b <;> cases c <;> rfl
  case str.str s t =>
    show (s == t) = decide (s = t)
    rw [Bool.eq_iff_iff, decide_eq_true_iff, beq_iff_eq]
  all_goals first | rfl | exact (same_ident text _ _).symm

theorem UKey.equal_eq_same {a b : UKey L} (ha : a.isNaN = false) (hb : b.isNaN = false) :
    a.equal text b = KeyReading.same text a.reading b.reading := by
  cases a with
  | value v =>
    cases b with
    | value w => exact UValue.equal_eq_same text ha hb
    | sym q =>
      show v.equal (.str (text q)) = _
      rw [UValue.equal_eq_same text ha (w := .str (text q)) rfl]
      cases v <;> rfl
  | sym p =>
    cases b with
    | value w =>
      show UValue.equal (.str (text p)) w = _
      rw [UValue.equal_eq_same text (v := .str (text p)) rfl hb]
      cases w <;> rfl
    | sym q =>
      show (p == q) = decide (p = q)
      rw [Bool.eq_iff_iff, decide_eq_true_iff, beq_iff_eq]

/-! ## When it is an equivalence -/

variable {text}

/-- No two integers of `K` round to one double of `K`. -/
def Lossless (K : UKey L → Prop) : Prop :=
  ∀ (a c : Int64) (bits : UInt64), K (.value (.int a)) → K (.value (.int c)) →
    K (.value (.float bits)) → units bits = nearest a.toInt * 2 ^ 1074 →
    units bits = nearest c.toInt * 2 ^ 1074 → a = c

/-- No two symbols of `K` have the bytes of one string of `K`. -/
def Interned (text : Nat → Bytes) (K : UKey L → Prop) : Prop :=
  ∀ (p q : Nat) (s : Bytes), K (.sym p) → K (.sym q) → K (.value (.str s)) →
    text p = s → text q = s → p = q

theorem equivOn_same {S : KeyReading → Prop}
    (hnum : Assoc.EquivOn (Assoc.alike rounded) fun n => S (.number n))
    (htext : Assoc.EquivOn (Assoc.alike text) fun t => S (.text t)) :
    Assoc.EquivOn (KeyReading.same text) S where
  refl {a} ha := by
    cases a with
    | number n => exact hnum.refl ha
    | text t => exact htext.refl ha
    | plain p => exact decide_eq_true rfl
  symm {a b} ha hb hab := by
    cases a <;> cases b
    case number.number m n => exact hnum.symm ha hb hab
    case text.text s t => exact htext.symm ha hb hab
    case plain.plain p q => exact decide_eq_true (of_decide_eq_true hab).symm
    all_goals cases hab
  trans {a b c} ha hb hc hab hbc := by
    cases a <;> cases b
    case number.number m n =>
      cases c with
      | number o => exact hnum.trans ha hb hc hab hbc
      | text _ | plain _ => cases hbc
    case text.text s t =>
      cases c with
      | text u => exact htext.trans ha hb hc hab hbc
      | number _ | plain _ => cases hbc
    case plain.plain p q =>
      cases c with
      | plain r => exact decide_eq_true ((of_decide_eq_true hab).trans (of_decide_eq_true hbc))
      | number _ | text _ => cases hbc
    all_goals cases hab

theorem UKey.eq_of_reading (k : UKey L) :
    (∀ i, k.reading = .number (.inl i) → k = .value (.int i)) ∧
    (∀ u, k.reading = .number (.inr u) → ∃ bits, k = .value (.float bits) ∧ units bits = u) ∧
    (∀ p, k.reading = .text (.inl p) → k = .sym p) ∧
    (∀ s, k.reading = .text (.inr s) → k = .value (.str s)) := by
  cases k with
  | sym p => simp [UKey.reading]
  | value v => cases v <;> simp [UKey.reading, UValue.reading]

theorem equivOn_equal_iff {K : UKey L → Prop} (hK : ∀ k, K k → k.isNaN = false) :
    Assoc.EquivOn (UKey.equal text) K ↔ Lossless K ∧ Interned text K := by
  constructor
  · intro h
    constructor
    · intro a c bits ha hc hb hab hcb
      have h₁ : UKey.equal text (L := L) (.value (.int a)) (.value (.float bits)) = true := by
        rw [UKey.equal_eq_same text (hK _ ha) (hK _ hb)]
        exact decide_eq_true hab.symm
      have h₂ : UKey.equal text (L := L) (.value (.float bits)) (.value (.int c)) = true := by
        rw [UKey.equal_eq_same text (hK _ hb) (hK _ hc)]
        exact decide_eq_true hcb
      have h₃ := h.trans ha hb hc h₁ h₂
      rw [UKey.equal_eq_same text (hK _ ha) (hK _ hc)] at h₃
      exact of_decide_eq_true h₃
    · rintro p q s hp hq hs hps hqs
      have h₁ : UKey.equal text (L := L) (.sym p) (.value (.str s)) = true := by
        rw [UKey.equal_eq_same text (hK _ hp) (hK _ hs)]
        exact decide_eq_true hps
      have h₂ : UKey.equal text (L := L) (.value (.str s)) (.sym q) = true := by
        rw [UKey.equal_eq_same text (hK _ hs) (hK _ hq)]
        exact decide_eq_true hqs.symm
      exact beq_iff_eq.mp (h.trans hp hs hq h₁ h₂)
  · rintro ⟨hlossless, hinterned⟩
    have hsame : Assoc.EquivOn (KeyReading.same text) fun r => ∃ k, K k ∧ UKey.reading k = r := by
      apply equivOn_same
      · apply Assoc.equivOn_alike
        rintro a c u ⟨ka, ha, hra⟩ ⟨kc, hc, hrc⟩ ⟨kb, hb, hrb⟩ hau hcu
        rw [ka.eq_of_reading.1 a hra] at ha
        rw [kc.eq_of_reading.1 c hrc] at hc
        obtain ⟨bits, rfl, hbits⟩ := kb.eq_of_reading.2.1 u hrb
        exact hlossless a c bits ha hc hb (hbits.trans hau.symm) (hbits.trans hcu.symm)
      · apply Assoc.equivOn_alike
        rintro p q s ⟨kp, hp, hrp⟩ ⟨kq, hq, hrq⟩ ⟨ks, hs, hrs⟩ hps hqs
        rw [kp.eq_of_reading.2.2.1 p hrp] at hp
        rw [kq.eq_of_reading.2.2.1 q hrq] at hq
        rw [ks.eq_of_reading.2.2.2 s hrs] at hs
        exact hinterned p q s hp hq hs hps hqs
    have hread := hsame.comap (J := K) fun k hk => ⟨k, hk, rfl⟩
    constructor
    · intro a ha
      rw [UKey.equal_eq_same text (hK a ha) (hK a ha)]
      exact hread.refl ha
    · intro a b ha hb
      rw [UKey.equal_eq_same text (hK a ha) (hK b hb), UKey.equal_eq_same text (hK b hb) (hK a ha)]
      exact hread.symm ha hb
    · intro a b c ha hb hc
      rw [UKey.equal_eq_same text (hK a ha) (hK b hb), UKey.equal_eq_same text (hK b hb) (hK c hc),
        UKey.equal_eq_same text (hK a ha) (hK c hc)]
      exact hread.trans ha hb hc

end Equal

/-! ## Dictionaries -/

/-- `keys[0..len)` with `vals[0..len)`, and the capacity of the two arrays. -/
structure UDict (L : CodeBase) where
  entries : List (UKey L × UKey L)
  cap : Nat

def udictNew : UDict L := ⟨[], 0⟩

/-- `lost`: the keys have been given back to the host and the dictionary still points at them. -/
inductive DictAnswer (L : CodeBase) where
  | ok (d : UDict L)
  | refused (d : UDict L)
  | lost

section Dict

variable (text : Nat → Bytes)

/-- The index is returned as an `int`, and a negative one reads as absent. -/
def udictFind (d : UDict L) (k : UKey L) : Option Nat :=
  (Assoc.find (UKey.equal text) d.entries k).filter (· < 2 ^ 31)

/-- A request for no bytes releases the block. -/
def udictGrow (d : UDict L) (keys vals : Bool) : DictAnswer L :=
  let newCap := if d.cap = 0 then 4 else d.cap * 2 % 2 ^ 32
  if newCap = 0 then .lost
  else if keys && vals then .ok { d with cap := newCap } else .refused d

def UDict.append (d : UDict L) (k v : UKey L) : UDict L :=
  { d with entries := d.entries ++ [(k, v)] }

def udictSet (d : UDict L) (k v : UKey L) (keys vals : Bool) : DictAnswer L :=
  match udictFind text d k with
  | some i => .ok { d with entries := d.entries.modify i fun e => (e.1, v) }
  | none =>
    if d.entries.length = d.cap then
      match udictGrow d keys vals with
      | .ok d' => .ok (d'.append k v)
      | failed => failed
    else .ok (d.append k v)

def udictGet (d : UDict L) (k : UKey L) : Option (UKey L) :=
  match udictFind text d k with
  | some i => d.entries[i]?.map Prod.snd
  | none => none

/-- The last entry is moved into the hole. -/
def udictRemove (d : UDict L) (k : UKey L) : UDict L :=
  match udictFind text d k, d.entries.getLast? with
  | some i, some last => { d with entries := (d.entries.set i last).dropLast }
  | _, _ => d

inductive DictEvent (L : CodeBase) where
  | set (k v : UKey L)
  | remove (k : UKey L)

inductive DictRun (K : UKey L → Prop) : List (DictEvent L) → UDict L → Prop where
  | new : DictRun K [] udictNew
  | set {log d d'} {k v : UKey L} {keys vals : Bool} : DictRun K log d → K k →
      udictSet text d k v keys vals = .ok d' → DictRun K (log ++ [.set k v]) d'
  | refused {log d d'} {k v : UKey L} {keys vals : Bool} : DictRun K log d → K k →
      udictSet text d k v keys vals = .refused d' → DictRun K log d'
  | remove {log d} {k : UKey L} : DictRun K log d → K k →
      DictRun K (log ++ [.remove k]) (udictRemove text d k)

/-- What was last set under a key equal to `k`, and not removed since. -/
def DictEvent.lookup (log : List (DictEvent L)) (k : UKey L) : Option (UKey L) :=
  log.foldl (fun found event => match event with
    | .set k' v => if k'.equal text k = true then some v else found
    | .remove k' => if k'.equal text k = true then none else found) none

theorem DictEvent.lookup_set (log : List (DictEvent L)) (k v k' : UKey L) :
    lookup text (log ++ [.set k v]) k' =
      if k.equal text k' = true then some v else lookup text log k' := by
  unfold lookup
  rw [List.foldl_append]
  rfl

theorem DictEvent.lookup_remove (log : List (DictEvent L)) (k k' : UKey L) :
    lookup text (log ++ [.remove k]) k' =
      if k.equal text k' = true then none else lookup text log k' := by
  unfold lookup
  rw [List.foldl_append]
  rfl

structure IsMap (K : UKey L → Prop) (log : List (DictEvent L)) (d : UDict L) : Prop where
  /-- One entry for each class of keys. -/
  once : d.entries.Pairwise fun e e' => e.1.equal text e'.1 = false
  get : ∀ k, K k → udictGet text d k = DictEvent.lookup text log k
  /-- The arrays are lost only to a new key in a dictionary of `2 ^ 31` entries. -/
  kept : ∀ k v keys vals, udictSet text d k v keys vals = .lost → d.entries.length = 2 ^ 31

/-! ### What the scans and the arrays do -/

structure UDict.Fits (d : UDict L) : Prop where
  cap : Doubling 31 d.cap
  length : d.entries.length ≤ d.cap

theorem UDict.Fits.new : (udictNew (L := L)).Fits := ⟨.inl rfl, Nat.le_refl 0⟩

theorem udictFind_eq {d : UDict L} (h : d.Fits) (k : UKey L) :
    udictFind text d k = Assoc.find (UKey.equal text) d.entries k := by
  unfold udictFind
  cases hfind : Assoc.find (UKey.equal text) d.entries k with
  | none => rfl
  | some i =>
    obtain ⟨hlt, -⟩ := List.findIdx?_eq_some_iff_getElem.mp hfind
    have hcap := h.cap.le
    have hlen := h.length
    rw [Option.filter_some, if_pos (decide_eq_true (by omega))]

theorem udictGet_eq {d : UDict L} (h : d.Fits) (k : UKey L) :
    udictGet text d k = Assoc.get (UKey.equal text) d.entries k := by
  unfold udictGet
  rw [udictFind_eq text h, Assoc.get_eq_find]
  cases Assoc.find (UKey.equal text) d.entries k <;> rfl

theorem udictRemove_entries {d : UDict L} (h : d.Fits) (k : UKey L) :
    (udictRemove text d k).entries = Assoc.remove (UKey.equal text) d.entries k := by
  unfold udictRemove Assoc.remove
  rw [udictFind_eq text h]
  cases Assoc.find (UKey.equal text) d.entries k <;> cases d.entries.getLast? <;> rfl

theorem udictRemove_fits {d : UDict L} (h : d.Fits) (k : UKey L) : (udictRemove text d k).Fits := by
  unfold udictRemove
  cases udictFind text d k with
  | none => exact h
  | some i =>
    cases d.entries.getLast? with
    | none => exact h
    | some last =>
      refine ⟨h.cap, ?_⟩
      have hlen := h.length
      show ((d.entries.set i last).dropLast).length ≤ d.cap
      rw [List.length_dropLast, List.length_set]
      omega

theorem udictSet_cases {d : UDict L} (h : d.Fits) (k v : UKey L) (keys vals : Bool) :
    (∃ d', udictSet text d k v keys vals = .ok d' ∧ d'.Fits ∧
      d'.entries = Assoc.set (UKey.equal text) d.entries k v) ∨
    udictSet text d k v keys vals = .refused d ∨
    (udictSet text d k v keys vals = .lost ∧ d.entries.length = 2 ^ 31) := by
  have hlen := h.length
  unfold udictSet Assoc.set
  rw [udictFind_eq text h]
  cases Assoc.find (UKey.equal text) d.entries k with
  | some i =>
    refine .inl ⟨_, rfl, ⟨h.cap, ?_⟩, rfl⟩
    show (d.entries.modify i fun e => (e.1, v)).length ≤ d.cap
    rw [List.length_modify]
    exact hlen
  | none =>
    have hadd : (d.entries ++ [(k, v)]).length = d.entries.length + 1 := by simp
    by_cases hfull : d.entries.length = d.cap
    · unfold udictGrow
      dsimp only
      rw [if_pos hfull, show (if d.cap = 0 then 4 else d.cap * 2 % 2 ^ 32) = grown 31 4 d.cap from rfl]
      obtain ⟨hcap, hnext⟩ | ⟨-, hlt, hnext⟩ := h.cap.grown_cases 4 ⟨2, by decide, rfl⟩
      · rw [if_pos hnext]
        exact .inr (.inr ⟨rfl, hfull.trans hcap⟩)
      · rw [if_neg (by omega)]
        cases keys && vals with
        | true =>
          refine .inl ⟨_, rfl, ⟨hnext, ?_⟩, rfl⟩
          show (d.entries ++ [(k, v)]).length ≤ grown 31 4 d.cap
          omega
        | false => exact .inr (.inl rfl)
    · dsimp only
      rw [if_neg hfull]
      refine .inl ⟨_, rfl, ⟨h.cap, ?_⟩, rfl⟩
      show (d.entries ++ [(k, v)]).length ≤ d.cap
      omega

/-! ### Runs -/

variable {text}

structure DictInv (text : Nat → Bytes) (K : UKey L → Prop) (log : List (DictEvent L))
    (d : UDict L) : Prop where
  fits : d.Fits
  distinct : Assoc.Distinct (UKey.equal text) K d.entries
  get : ∀ k, K k → Assoc.get (UKey.equal text) d.entries k = DictEvent.lookup text log k

theorem DictRun.inv {K : UKey L → Prop} (hs : Assoc.EquivOn (UKey.equal text) K)
    {log : List (DictEvent L)} {d : UDict L} (h : DictRun text K log d) : DictInv text K log d := by
  induction h with
  | new => exact ⟨.new, .nil, fun _ _ => rfl⟩
  | @set log d d' k v keys vals _ hk hset ih =>
    rcases udictSet_cases text ih.fits k v keys vals with ⟨d₂, heq, hfits, hentries⟩ | heq | heq
    · rw [hset] at heq
      cases heq
      refine ⟨hfits, ?_, ?_⟩
      · rw [hentries]
        exact Assoc.distinct_set hs ih.distinct hk v
      · intro k' hk'
        rw [hentries, Assoc.get_set hs ih.distinct hk hk', DictEvent.lookup_set, ih.get k' hk']
    · rw [hset] at heq
      cases heq
    · rw [hset] at heq
      cases heq.1
  | @refused log d d' k v keys vals _ hk hset ih =>
    rcases udictSet_cases text ih.fits k v keys vals with ⟨d₂, heq, -⟩ | heq | heq
    · rw [hset] at heq
      cases heq
    · rw [hset] at heq
      cases heq
      exact ih
    · rw [hset] at heq
      cases heq.1
  | @remove log d k _ hk ih =>
    refine ⟨udictRemove_fits text ih.fits k, ?_, ?_⟩
    · rw [udictRemove_entries text ih.fits]
      exact Assoc.distinct_remove ih.distinct
    · intro k' hk'
      rw [udictRemove_entries text ih.fits, Assoc.get_remove hs ih.distinct hk hk',
        DictEvent.lookup_remove, ih.get k' hk']

theorem DictInv.isMap {K : UKey L → Prop} {log : List (DictEvent L)} {d : UDict L}
    (h : DictInv text K log d) : IsMap text K log d where
  once := h.distinct.apart.imp fun hapart => hapart.1
  get k hk := (udictGet_eq text h.fits k).trans (h.get k hk)
  kept k v keys vals hlost := by
    rcases udictSet_cases text h.fits k v keys vals with ⟨d', heq, -⟩ | heq | heq
    · rw [hlost] at heq
      cases heq
    · rw [hlost] at heq
      cases heq
    · exact heq.2

/-- **Dictionaries are maps.**  Among values other than not-a-number, equality is an equivalence and
every dictionary is the map of the calls made on it, exactly when no two integers round to one double
among them, and no two symbols have the bytes of one string among them. -/
theorem dict_isMap_iff (K : UKey L → Prop) (hK : ∀ k, K k → k.isNaN = false) :
    (Assoc.EquivOn (UKey.equal text) K ∧
      ∀ (log : List (DictEvent L)) (d : UDict L), DictRun text K log d → IsMap text K log d) ↔
    Lossless K ∧ Interned text K := by
  rw [← equivOn_equal_iff hK]
  constructor
  · exact fun h => h.1
  · intro hs
    exact ⟨hs, fun log d hrun => (hrun.inv hs).isMap⟩

/-- The integer one, the Float one and a symbol. -/
theorem dict_isMap_iff_ones :
    Assoc.EquivOn (UKey.equal (L := noCode) fun _ => [97])
        (fun k => k = .value (.int 1) ∨ k = .value (.float 0x3ff0000000000000) ∨ k = .sym 0) ∧
      ∀ log d, DictRun (L := noCode) (fun _ => [97])
          (fun k => k = .value (.int 1) ∨ k = .value (.float 0x3ff0000000000000) ∨ k = .sym 0) log d →
        IsMap (fun _ => [97])
          (fun k => k = .value (.int 1) ∨ k = .value (.float 0x3ff0000000000000) ∨ k = .sym 0) log d := by
  apply (dict_isMap_iff _ ?_).mpr
  · constructor
    · intro a c bits ha hc _ _ _
      have ha : a = 1 := by simpa using ha
      have hc : c = 1 := by simpa using hc
      rw [ha, hc]
    · intro p q s hp hq _ _ _
      have hp : p = 0 := by simpa using hp
      have hq : q = 0 := by simpa using hq
      rw [hp, hq]
  · rintro k (rfl | rfl | rfl)
    all_goals decide +kernel

/-- `2^53 + 1` and `2^53` are two keys, and the double `2^53` is equal to both: it finds the first,
not the one last set. -/
theorem dict_not_a_map :
    UKey.equal (L := noCode) (fun _ => []) (.value (.int 9007199254740993))
      (.value (.float 0x4340000000000000)) = true ∧
    UKey.equal (L := noCode) (fun _ => []) (.value (.float 0x4340000000000000))
      (.value (.int 9007199254740992)) = true ∧
    UKey.equal (L := noCode) (fun _ => []) (.value (.int 9007199254740993))
      (.value (.int 9007199254740992)) = false ∧
    ∃ log d, DictRun (L := noCode) (fun _ => []) (fun k => k.isNaN = false) log d ∧
      udictGet (fun _ => []) d (.value (.float 0x4340000000000000)) = some (.value .nil) ∧
      DictEvent.lookup (fun _ => []) log (.value (.float 0x4340000000000000)) =
        some (.value .void) := by
  have hfirst : UKey.equal (L := noCode) (fun _ => []) (.value (.int 9007199254740993))
      (.value (.float 0x4340000000000000)) = true := by decide +kernel
  have hsecond : UKey.equal (L := noCode) (fun _ => []) (.value (.int 9007199254740992))
      (.value (.float 0x4340000000000000)) = true := by decide +kernel
  refine ⟨hfirst, by decide +kernel, by decide +kernel, ?_⟩
  have hdistinct : UKey.equal (L := noCode) (fun _ => []) (.value (.int 9007199254740993))
      (.value (.int 9007199254740992)) = false := by decide +kernel
  have hone : udictSet (L := noCode) (fun _ => []) udictNew (.value (.int 9007199254740993))
      (.value .nil) true true = .ok ⟨[(.value (.int 9007199254740993), .value .nil)], 4⟩ := rfl
  have htwo : udictSet (L := noCode) (fun _ => [])
      ⟨[(.value (.int 9007199254740993), .value .nil)], 4⟩ (.value (.int 9007199254740992))
      (.value .void) true true = .ok ⟨[(.value (.int 9007199254740993), .value .nil),
        (.value (.int 9007199254740992), .value .void)], 4⟩ := by
    simp [udictSet, udictFind, Assoc.find, hdistinct, UDict.append]
  refine ⟨_, _, .set (.set .new rfl hone) rfl htwo, ?_, ?_⟩
  · simp [udictGet, udictFind, Assoc.find, List.findIdx?_cons, Option.filter_some, hfirst]
  · simp [DictEvent.lookup, hsecond]

end Dict

end Urbi
