import Urbi.Rt.Value
import Mathlib.Data.List.Induction
import Mathlib.Data.List.Lex

/-!
# Sorting a list

`list_sort` and `sort_items` of `stdlib/containers.c`.  Everything a script can reach, the receiver
included, is a world that only the comparator changes.
-/

namespace Urbi.Stdlib

open Lib

variable {V W E : Type}

inductive SortError (E : Type) where
  | type (message : String)
  | outOfMemory
  | comparator (rc : E)
  deriving DecidableEq, Repr

abbrev Before (V W E : Type) := V → V → W → Except (SortError E) Bool × W

def shift (before : Before V W E) (key : V) :
    Nat → List V → W → Except (SortError E) (List V) × W
  | 0, items, w => (.ok (items.set 0 key), w)
  | j + 1, items, w =>
    match before key (items.getD j key) w with
    | (.error e, w) => (.error e, w)
    | (.ok false, w) => (.ok (items.set (j + 1) key), w)
    | (.ok true, w) => shift before key j (items.set (j + 1) (items.getD j key)) w

/-- The items are turns enough. -/
def sortItems (before : Before V W E) :
    Nat → Nat → List V → W → Except (SortError E) (List V) × W
  | 0, _, items, w => (.ok items, w)
  | n + 1, i, items, w =>
    match items[i]? with
    | none => (.ok items, w)
    | some key =>
      match shift before key i items w with
      | (.error e, w) => (.error e, w)
      | (.ok items, w) => sortItems before n (i + 1) items w

/-! ## The default order -/

def memcmp : Bytes → Bytes → Int
  | a :: as, b :: bs => if a < b then -1 else if b < a then 1 else memcmp as bs
  | _, _ => 0

/-- None is `*ok == 0`. -/
def containerCmp {L : CodeBase} : UValue L → UValue L → Option Int
  | .int i, .int j => some (if i < j then -1 else if j < i then 1 else 0)
  | .str a, .str b =>
    let n := min a.length b.length
    let d := memcmp (a.take n) (b.take n)
    some (if d ≠ 0 then d
      else if a.length < b.length then -1 else if b.length < a.length then 1 else 0)
  | a, b =>
    if a.isNumber && b.isNumber then
      some (if Binary64.lt a.asDouble b.asDouble then -1
        else if Binary64.lt b.asDouble a.asDouble then 1 else 0)
    else none

def defaultBefore {L : CodeBase} : Before (UValue L) W E := fun key item w =>
  match containerCmp item key with
  | none => (.error (.type "sort: elements not comparable"), w)
  | some c => (.ok (0 < c), w)

/-- A closure has its number of parameters, or none if it is native, and what a call does. -/
inductive Comparator (L : CodeBase) (W E : Type) where
  | absent
  | notFunction
  | closure (nparams : Option Nat) (call : UValue L → UValue L → W → Except E (UValue L) × W)

def callBefore {L : CodeBase} (call : UValue L → UValue L → W → Except E (UValue L) × W) :
    Before (UValue L) W E := fun key item w =>
  match call key item w with
  | (.error rc, w) => (.error (.comparator rc), w)
  | (.ok res, w) => (.ok res.truthy, w)

/-- The items are read off the world; the requests are the list and room for each item. -/
def listSort {L : CodeBase} (granted : Nat → Bool) (receiver : W → Option (List (UValue L)))
    (cmp : Comparator L W E) (w : W) : Except (SortError E) (List (UValue L)) × W :=
  match receiver w with
  | none => (.error (.type "sort: self must be a List"), w)
  | some src =>
    let run := fun before =>
      if (List.range (src.length + 1)).all granted then sortItems before src.length 1 src w
      else (.error .outOfMemory, w)
    match cmp with
    | .absent => run defaultBefore
    | .notFunction => (.error (.type "sort: comparator must be a function"), w)
    | .closure nparams call =>
      if nparams.all (· < 2) then
        (.error (.type "sort: comparator must accept 2 arguments"), w)
      else run (callBefore call)

def afterCalls (before : Before V W E) (calls : List (V × V)) (w : W) : W :=
  calls.foldl (fun w c => (before c.1 c.2 w).2) w

/-- On members of a list the comparator answers as `lt` does, whatever it does to the world. -/
def Decides (before : Before V W E) (lt : V → V → Bool) (all : List V) : Prop :=
  ∀ key ∈ all, ∀ item ∈ all, ∀ w, (before key item w).1 = .ok (lt key item)

structure StrictWeakOn (lt : V → V → Bool) (items : List V) : Prop where
  asymm : ∀ a ∈ items, ∀ b ∈ items, lt a b → ¬ lt b a
  not_trans : ∀ a ∈ items, ∀ b ∈ items, ∀ c ∈ items, ¬ lt a b → ¬ lt b c → ¬ lt a c

/-- The key is known to go before `back`, and not before the last of `front`. -/
structure Insertion (before : Before V W E) (key : V) (front back : List V) : Prop where
  before_back : ∀ lt all, Decides before lt all → key ∈ all → front ++ back ⊆ all →
    ∀ y ∈ back, lt key y
  after_front : ∀ lt all, Decides before lt all → key ∈ all → front ++ back ⊆ all →
    ∀ z, front.getLast? = some z → ¬ lt key z

/-- The inner loop ends with the key inserted unless the comparator fails. -/
theorem shift_spec (before : Before V W E) (key hole : V) (l m : List V) (w : W) :
    (∃ calls, (shift before key l.length (l ++ hole :: m) w).2 = afterCalls before calls w) ∧
      (∀ out, (shift before key l.length (l ++ hole :: m) w).1 = .ok out →
        ∃ front back, l = front ++ back ∧ out = front ++ key :: (back ++ m) ∧
          Insertion before key front back) ∧ ∀ lt all, Decides before lt all → key ∈ all → l ⊆ all →
        ∃ out, (shift before key l.length (l ++ hole :: m) w).1 = .ok out := by
  induction l using List.reverseRecOn generalizing hole m w with
  | nil =>
    refine ⟨⟨[], rfl⟩, fun out h => ⟨[], [], rfl, ?_, by simp, by simp⟩, fun _ _ _ _ _ => ⟨_, rfl⟩⟩
    cases h
    rfl
  | append_singleton l y ih =>
    have hget : (l ++ [y] ++ hole :: m).getD l.length key = y := by simp
    have hset : ∀ v, (l ++ [y] ++ hole :: m).set (l.length + 1) v = l ++ y :: v :: m := by
      intro v
      simp
    rw [List.length_append, List.length_singleton, shift, hget, hset, hset]
    have hans : ∀ lt all, Decides before lt all → key ∈ all → l ++ [y] ⊆ all →
        (before key y w).1 = .ok (lt key y) := fun lt all h hk hl => h key hk y (hl (by simp)) w
    have hcall : ∀ calls, afterCalls before calls (before key y w).2 =
        afterCalls before ((key, y) :: calls) w := fun _ => rfl
    generalize before key y w = r at hans hcall
    obtain ⟨_ | _ | _, w'⟩ := r
    · exact ⟨⟨[(key, y)], hcall []⟩, by simp, fun lt all h hk hl =>
        absurd (hans lt all h hk hl) (by simp)⟩
    · refine ⟨⟨[(key, y)], hcall []⟩, fun out h => ⟨l ++ [y], [], by simp, ?_, by simp, ?_⟩,
        fun _ _ _ _ _ => ⟨_, rfl⟩⟩
      · cases h
        simp
      · intro lt all h hk hl z hz
        have hlt : false = lt key y := by simpa using hans lt all h hk (by simpa using hl)
        have hzy : y = z := by simpa using hz
        simp [← hzy, ← hlt]
    · -- the item moves into the hole, which moves to where the item was
      obtain ⟨⟨calls, hw⟩, hout, hend⟩ := ih y (y :: m) w'
      refine ⟨⟨(key, y) :: calls, hw.trans (hcall calls)⟩, fun out h => ?_, fun lt all h hk hl =>
        hend lt all h hk fun v hv => hl (List.mem_append_left _ hv)⟩
      obtain ⟨front, back, rfl, rfl, hins⟩ := hout out h
      have hsub : front ++ back ⊆ front ++ (back ++ [y]) := by
        rw [← List.append_assoc]
        exact List.subset_append_left _ _
      refine ⟨front, back ++ [y], by simp, by simp, fun lt all h hk hl z hz => ?_,
        fun lt all h hk hl => hins.after_front lt all h hk (List.Subset.trans hsub hl)⟩
      rcases List.mem_append.mp hz with hz | hz
      · exact hins.before_back lt all h hk (List.Subset.trans hsub hl) z hz
      · have hlt : true = lt key y := by simpa using hans lt all h hk (by simpa using hl)
        rw [List.mem_singleton.mp hz, ← hlt]

/-! ## The whole sort -/

def tied (lt : V → V → Bool) (x y : V) : Bool := !lt x y && !lt y x

structure StableSort (lt : V → V → Bool) (src out : List V) : Prop where
  ordered : out.Pairwise fun a b => ¬ lt b a
  stable : ∀ x ∈ src, out.filter (tied lt x) = src.filter (tied lt x)

/-- The items seen so far are sorted, and stably whatever of all the items is tied. -/
structure SortedTo (lt : V → V → Bool) (all src out : List V) : Prop where
  perm : out.Perm src
  ordered : out.Pairwise fun a b => ¬ lt b a
  stable : ∀ x ∈ all, out.filter (tied lt x) = src.filter (tied lt x)

theorem perm_insert (key : V) (front back : List V) :
    (front ++ key :: back).Perm (front ++ back ++ [key]) := by
  simpa using (@List.perm_append_comm _ [key] back).append_left front

theorem Insertion.sortedTo {before : Before V W E} {lt : V → V → Bool} {key : V}
    {src front back all : List V} (h : Insertion before key front back) (hd : Decides before lt all)
    (hlt : StrictWeakOn lt all) (hall : ∀ v ∈ src ++ [key], v ∈ all)
    (hs : SortedTo lt all src (front ++ back)) :
    SortedTo lt all (src ++ [key]) (front ++ key :: back) := by
  obtain ⟨hperm, hord, hsort⟩ := hs
  have hmem : ∀ v ∈ front ++ back, v ∈ all := fun v hv =>
    hall v (List.mem_append_left _ (hperm.mem_iff.mp hv))
  have hkey : key ∈ all := hall key (by simp)
  have hback : ∀ y ∈ back, ¬ lt y key := fun y hy =>
    hlt.asymm _ hkey _ (hmem y (List.mem_append_right _ hy)) (h.before_back lt all hd hkey hmem y hy)
  obtain ⟨hfront, hbacks, hcross⟩ := List.pairwise_append.mp hord
  -- the key is not before the last of the front, so before none of it
  have hbefore : ∀ a ∈ front, ¬ lt key a := by
    intro a ha
    obtain ⟨init, z, hconcat⟩ := front.eq_nil_or_concat.resolve_left (List.ne_nil_of_mem ha)
    rw [List.concat_eq_append] at hconcat
    subst hconcat
    have hz := h.after_front lt all hd hkey hmem z (by simp)
    rcases List.mem_append.mp ha with hin | hin
    · have hza := (List.pairwise_append.mp hfront).2.2 a hin z (by simp)
      exact hlt.not_trans _ hkey _ (hmem z (by simp)) _ (hmem a (by simp [hin])) hz hza
    · rw [List.mem_singleton.mp hin]
      exact hz
  refine ⟨(perm_insert ..).trans (hperm.append_right [key]), ?_, ?_⟩
  · refine List.pairwise_append.mpr ⟨hfront, List.pairwise_cons.mpr ⟨hback, hbacks⟩, ?_⟩
    intro a ha b hb
    rcases List.mem_cons.mp hb with rfl | hb
    · exact hbefore a ha
    · exact hcross a ha b hb
  · intro x hx
    have hsrc := hsort x hx
    rw [List.filter_append] at hsrc ⊢
    rw [List.filter_append, ← hsrc, List.filter_cons]
    split
    · rename_i htied
      -- nothing the key goes before is tied with what the key is tied with
      have hnil : back.filter (tied lt x) = [] := by
        refine List.filter_eq_nil_iff.mpr fun y hy hxy => ?_
        simp only [tied, Bool.and_eq_true, Bool.not_eq_true'] at htied hxy
        refine hlt.not_trans _ hkey _ hx _ (hmem y (List.mem_append_right _ hy)) ?_ ?_
          (h.before_back lt all hd hkey hmem y hy)
        · simp [htied.2]
        · simp [hxy.1]
      simp [hnil, htied]
    · rename_i htied
      simp [htied]

theorem sortItems_spec (before : Before V W E) {n : Nat} (d rest : List V) (w : W)
    (hn : rest.length ≤ n) :
    (∃ calls, (sortItems before n d.length (d ++ rest) w).2 = afterCalls before calls w) ∧
      (∀ out, (sortItems before n d.length (d ++ rest) w).1 = .ok out → out.Perm (d ++ rest)) ∧
      ∀ lt all src, Decides before lt all → StrictWeakOn lt all → (∀ v ∈ src ++ rest, v ∈ all) →
        SortedTo lt all src d → ∃ out, (sortItems before n d.length (d ++ rest) w).1 = .ok out ∧
          SortedTo lt all (src ++ rest) out := by
  induction rest generalizing n d w with
  | nil =>
    have hstop : sortItems before n d.length (d ++ []) w = (.ok (d ++ []), w) := by
      cases n <;> simp [sortItems]
    rw [hstop]
    refine ⟨⟨[], rfl⟩, fun out h => ?_, fun lt all src _ _ _ hs => ⟨d, by simp, by simpa using hs⟩⟩
    cases h
    exact List.Perm.refl _
  | cons key rest ih =>
    cases n with
    | zero => simp at hn
    | succ n =>
      have hget : (d ++ key :: rest)[d.length]? = some key := by simp
      obtain ⟨⟨calls, hw⟩, hout, hend⟩ := shift_spec before key key d rest w
      simp only [sortItems, hget]
      generalize shift before key d.length (d ++ key :: rest) w = r at hw hout hend
      obtain ⟨e | out, w'⟩ := r
      · refine ⟨⟨calls, hw⟩, by simp, fun lt all src hd _ hall hs => ?_⟩
        have hkey : key ∈ all := hall key (by simp)
        exact absurd (hend lt all hd hkey fun v hv => hall v (by simp [hs.perm.mem_iff.mp hv])) (by simp)
      · obtain ⟨front, back, rfl, rfl, hins⟩ := hout out rfl
        have hlen : (front ++ back).length + 1 = (front ++ key :: back).length := by simp [Nat.add_assoc]
        have happ : front ++ key :: (back ++ rest) = front ++ key :: back ++ rest := by simp
        rw [hlen, happ]
        obtain ⟨⟨calls', hw'⟩, hperm, hsort⟩ := ih (front ++ key :: back) w' (by simpa using hn)
        refine ⟨⟨calls ++ calls', ?_⟩, fun out h => ?_, fun lt all src hd hlt hall hs => ?_⟩
        · rw [hw', show w' = afterCalls before calls w from hw]
          exact List.foldl_append.symm
        · exact (hperm out h).trans (by simpa using (perm_insert ..).append_right rest)
        · have hall' : ∀ v ∈ src ++ [key], v ∈ all := by
            intro v hv
            rcases List.mem_append.mp hv with hv | hv
            · exact hall v (List.mem_append_left _ hv)
            · exact hall v (by simp [List.mem_singleton.mp hv])
          obtain ⟨out, hok, hs'⟩ := hsort lt all (src ++ [key]) hd hlt (by simpa using hall)
            (hins.sortedTo hd hlt hall' hs)
          exact ⟨out, hok, by simpa using hs'⟩

structure Sorts (before : Before V W E) (src : List V) (w : W)
    (r : Except (SortError E) (List V) × W) : Prop where
  world : ∃ calls, r.2 = afterCalls before calls w
  perm : ∀ out, r.1 = .ok out → out.Perm src
  sorted : ∀ lt, Decides before lt src → StrictWeakOn lt src → ∃ out, r.1 = .ok out ∧ StableSort lt src out

theorem sorts_sortItems (before : Before V W E) (src : List V) (w : W) :
    Sorts before src w (sortItems before src.length 1 src w) := by
  cases src with
  | nil => exact ⟨⟨[], rfl⟩, fun out h => by cases h; exact .refl _, fun _ _ _ =>
    ⟨[], rfl, .nil, by simp⟩⟩
  | cons v rest =>
    obtain ⟨hw, hperm, hsort⟩ := sortItems_spec before (n := rest.length + 1) [v] rest w (by simp)
    refine ⟨hw, hperm, fun lt hd hlt => ?_⟩
    obtain ⟨out, hok, hs⟩ := hsort lt (v :: rest) [v] hd hlt (fun _ h => h)
      ⟨.refl _, List.pairwise_singleton _ _, fun _ _ => rfl⟩
    exact ⟨out, hok, hs.ordered, hs.stable⟩

/-! ## The default order on integers and on strings -/

def naturalLt {L : CodeBase} : UValue L → UValue L → Bool
  | .int i, .int j => i.toInt < j.toInt
  | .str a, .str b => a.map UInt8.toNat < b.map UInt8.toNat
  | _, _ => false

theorem memcmp_take_pos_iff (a b : Bytes) :
    (let n := min a.length b.length
     let d := memcmp (a.take n) (b.take n)
     0 < if d ≠ 0 then d
       else if a.length < b.length then -1 else if b.length < a.length then (1 : Int) else 0) ↔
      b.map UInt8.toNat < a.map UInt8.toNat := by
  induction a generalizing b with
  | nil => cases b <;> simp [memcmp]
  | cons x xs ih =>
    cases b with
    | nil => simp [memcmp]
    | cons y ys =>
      have hmin : min (x :: xs).length (y :: ys).length = min xs.length ys.length + 1 := by simp
      simp only [hmin, List.take_succ_cons, memcmp, List.map_cons, List.cons_lt_cons_iff,
        UInt8.lt_iff_toNat_lt]
      rcases lt_trichotomy x.toNat y.toNat with h | h | h
      · simp [h, not_lt_of_gt h, h.ne']
      · simpa [h] using ih ys
      · simp [h, not_lt_of_gt h]

theorem strictWeakOn_of_key {α : Type} [LinearOrder α] {lt : V → V → Bool} {items : List V}
    (key : V → α) (h : ∀ a ∈ items, ∀ b ∈ items, (lt a b ↔ key a < key b)) :
    StrictWeakOn lt items where
  asymm a ha b hb hab := by
    rw [h b hb a ha, not_lt]
    exact ((h a ha b hb).mp hab).le
  not_trans a ha b hb c hc hab hbc := by
    rw [h a ha b hb, not_lt] at hab
    rw [h b hb c hc, not_lt] at hbc
    rw [h a ha c hc, not_lt]
    exact hbc.trans hab

section
variable {L : CodeBase} {src : List (UValue L)}

def AllIntegers (src : List (UValue L)) : Prop := ∀ v ∈ src, ∃ i, v = .int i

def AllStrings (src : List (UValue L)) : Prop := ∀ v ∈ src, ∃ b, v = .str b

theorem defaultBefore_int (i j : Int64) (w : W) :
    (defaultBefore (L := L) (E := E) (.int i) (.int j) w).1 =
      .ok (naturalLt (L := L) (.int i) (.int j)) := by
  simp only [defaultBefore, containerCmp, naturalLt, Int64.lt_iff_toInt_lt]
  rcases lt_trichotomy i.toInt j.toInt with h | h | h
  · simp [h, not_lt_of_gt h]
  · simp [h]
  · simp [h, not_lt_of_gt h]

theorem defaultBefore_str (a b : Bytes) (w : W) :
    (defaultBefore (L := L) (E := E) (.str a) (.str b) w).1 =
      .ok (naturalLt (L := L) (.str a) (.str b)) := by
  have h := memcmp_take_pos_iff b a
  simp only [defaultBefore, containerCmp, naturalLt]
  exact congrArg Except.ok (decide_eq_decide.mpr h)

def intKey : UValue L → Int
  | .int i => i.toInt
  | _ => 0

def strKey : UValue L → List Nat
  | .str b => b.map UInt8.toNat
  | _ => []

theorem natural_order (h : AllIntegers src ∨ AllStrings src) :
    Decides (W := W) (E := E) defaultBefore naturalLt src ∧ StrictWeakOn naturalLt src := by
  rcases h with h | h
  · constructor
    · intro key hk item hi w
      obtain ⟨i, rfl⟩ := h key hk
      obtain ⟨j, rfl⟩ := h item hi
      exact defaultBefore_int i j w
    · refine strictWeakOn_of_key intKey fun a ha b hb => ?_
      obtain ⟨i, rfl⟩ := h a ha
      obtain ⟨j, rfl⟩ := h b hb
      exact decide_eq_true_iff
  · constructor
    · intro key hk item hi w
      obtain ⟨a, rfl⟩ := h key hk
      obtain ⟨b, rfl⟩ := h item hi
      exact defaultBefore_str a b w
    · refine strictWeakOn_of_key strKey fun a ha b hb => ?_
      obtain ⟨x, rfl⟩ := h a ha
      obtain ⟨y, rfl⟩ := h b hb
      exact decide_eq_true_iff

def Comparator.before : Comparator L W E → Before (UValue L) W E
  | .closure _ call => callBefore call
  | _ => defaultBefore

/-- Whatever the comparator does, the sort leaves the world, and so the receiver, as the comparisons
left it, and a list it returns is a permutation of the items the receiver held.  With its allocations
granted it returns, ordered and stable, on integers and on strings without a comparator, and with one
that is a strict weak order of the items. -/
theorem list_sort_spec (granted : Nat → Bool) (receiver : W → Option (List (UValue L)))
    (cmp : Comparator L W E) (w : W) (src : List (UValue L)) (hsrc : receiver w = some src) :
    (∃ calls, (listSort granted receiver cmp w).2 = afterCalls cmp.before calls w) ∧
      (∀ out, (listSort granted receiver cmp w).1 = .ok out → out.Perm src) ∧
      ((∀ k, granted k) → cmp = .absent → AllIntegers src ∨ AllStrings src →
        ∃ out, (listSort granted receiver cmp w).1 = .ok out ∧ StableSort naturalLt src out) ∧
      ((∀ k, granted k) → ∀ n call lt, cmp = .closure (some n) call → 2 ≤ n →
        Decides (callBefore call) lt src → StrictWeakOn lt src →
        ∃ out, (listSort granted receiver cmp w).1 = .ok out ∧ StableSort lt src out) := by
  have hall : (∀ k, granted k) → (List.range (src.length + 1)).all granted := fun h => by simp [h]
  -- a refusal compares nothing
  have hrun : ∀ before : Before (UValue L) W E,
      (∃ calls, (if (List.range (src.length + 1)).all granted then
        sortItems before src.length 1 src w else (.error .outOfMemory, w)).2 =
          afterCalls before calls w) ∧
      ∀ out, (if (List.range (src.length + 1)).all granted then
        sortItems before src.length 1 src w else (.error .outOfMemory, w)).1 = .ok out →
          out.Perm src := by
    intro before
    split
    · exact ⟨(sorts_sortItems before src w).world, (sorts_sortItems before src w).perm⟩
    · exact ⟨⟨[], rfl⟩, by simp⟩
  cases cmp with
  | absent =>
    simp only [listSort, hsrc]
    refine ⟨(hrun defaultBefore).1, (hrun defaultBefore).2, fun hg _ hs => ?_, by simp⟩
    obtain ⟨hd, hlt⟩ := natural_order hs
    rw [if_pos (hall hg)]
    exact (sorts_sortItems defaultBefore src w).sorted _ hd hlt
  | notFunction =>
    simp only [listSort, hsrc]
    exact ⟨⟨[], rfl⟩, by simp, by simp, by simp⟩
  | closure nparams call =>
    simp only [listSort, hsrc]
    by_cases hp : nparams.all (· < 2)
    · rw [if_pos hp]
      refine ⟨⟨[], rfl⟩, by simp, by simp, ?_⟩
      rintro - n c lt ⟨rfl, -⟩ hn
      exact absurd hp (by simp; omega)
    · rw [if_neg hp]
      refine ⟨(hrun _).1, (hrun _).2, by simp, ?_⟩
      rintro hg n c lt ⟨-, rfl⟩ - hd hlt
      rw [if_pos (hall hg)]
      exact (sorts_sortItems (callBefore call) src w).sorted lt hd hlt

end

/-- Three integers, no comparator. -/
theorem list_sort_three :
    ∃ out, (listSort (L := noCode) (E := Unit) (fun _ => true) some .absent
        [.int 3, .int 1, .int 2]).1 = .ok out ∧
      StableSort naturalLt [.int 3, .int 1, .int 2] out :=
  (list_sort_spec (fun _ => true) some .absent [.int 3, .int 1, .int 2] [.int 3, .int 1, .int 2]
    rfl).2.2.1 (fun _ => rfl) rfl (.inl (by simp [AllIntegers]))

end Urbi.Stdlib
