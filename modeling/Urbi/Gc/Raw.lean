import Urbi.Rt.Upvals
import Mathlib.Algebra.Order.Group.Int
import Mathlib.Algebra.BigOperators.Group.List.Basic

/-!
# Raw memory

The collector counts the bytes of raw blocks and keeps no size with a block: every caller says how
large it was.  Slots, keys and frames are left out but for how many there are.
-/

namespace Urbi.Raw

/-! ## Blocks and the counter -/

inductive Block where
  | null
  | live (size : Nat)
  | gone
  deriving DecidableEq, Repr

def Block.bytes : Block → Nat
  | .live size => size
  | .null | .gone => 0

/-- The host has nothing to give for a request of no bytes. -/
def rawAlloc (n : Nat) (granted : Bool) : Int × Block :=
  if granted = true ∧ 0 < n then (n, .live n) else (0, .null)

/-- A request of no bytes releases the block, and its answer is taken for a refusal. -/
def rawRealloc (p : Block) (old n : Nat) (granted : Bool) : Int × Block × Bool :=
  if n = 0 then (0, if p = .null then .null else .gone, false)
  else if granted then ((n : Int) - old, .live n, true) else (0, p, false)

def rawFree (p : Block) (n : Nat) : Int := if p = .null then 0 else -(n : Int)

structure Sizes where
  value : Nat
  ptr : Nat
  frame : Nat
  cleanup : Nat
  value_pos : 0 < value
  ptr_pos : 0 < ptr
  frame_pos : 0 < frame
  cleanup_pos : 0 < cleanup

/-! ## The cells that own blocks -/

structure UList where
  items : Block
  len : Nat
  cap : Nat
  deriving DecidableEq, Repr

structure UDict where
  keys : Block
  vals : Block
  len : Nat
  cap : Nat
  deriving DecidableEq, Repr

structure UObject where
  values : Block
  count : Nat
  cap : Nat
  protos : Block
  nprotos : Nat
  deriving DecidableEq, Repr

structure UStrand where
  stack : Block
  stackCap : Nat
  frames : Block
  nframes : Nat
  framesCap : Nat
  cleanup : Block
  ncleanup : Nat
  cleanupCap : Nat
  deriving DecidableEq, Repr

section Calls

variable (z : Sizes)

def doubled (bits cap : Nat) : Nat := if cap = 0 then 4 else cap * 2 % 2 ^ bits

/-- None if the search for a capacity does not end. -/
def ulistNew (hint : Nat) (granted : Bool) : Option (Int × UList) := do
  let cap ← URegisters.doubleTo hint 33 4
  let (d, items) := rawAlloc (cap * z.value) granted
  some (d, if items = .null then ⟨.null, 0, 0⟩ else ⟨items, 0, cap⟩)

def UList.grow (l : UList) (granted : Bool) : Int × Bool × UList :=
  let cap := doubled 32 l.cap
  let (d, items, ok) := rawRealloc l.items (l.cap * z.value) (cap * z.value) granted
  (d, ok, if ok then { l with items, cap } else { l with items })

def ulistPush (l : UList) (granted : Bool) : Int × UList :=
  if l.len = l.cap then
    let (d, ok, l) := l.grow z granted
    (d, if ok then { l with len := l.len + 1 } else l)
  else (0, { l with len := l.len + 1 })

def ulistInsert (l : UList) (at_ : Nat) (granted : Bool) : Int × UList :=
  if l.len < at_ then (0, l) else ulistPush z l granted

def ulistRemoveAt (l : UList) (at_ : Nat) : UList :=
  if l.len ≤ at_ then l else { l with len := l.len - 1 }

def UDict.grow (d : UDict) (keysOk valsOk : Bool) : Int × Bool × UDict :=
  let cap := doubled 32 d.cap
  let (k, keys, ok) := rawRealloc d.keys (d.cap * z.value) (cap * z.value) keysOk
  if ok then
    let (v, vals, ok) := rawRealloc d.vals (d.cap * z.value) (cap * z.value) valsOk
    (k + v, ok, if ok then { d with keys, vals, cap } else { d with keys, vals })
  else (k, false, { d with keys })

def udictSet (d : UDict) (found keysOk valsOk : Bool) : Int × UDict :=
  if found then (0, d)
  else if d.len = d.cap then
    let (r, ok, d) := d.grow z keysOk valsOk
    (r, if ok then { d with len := d.len + 1 } else d)
  else (0, { d with len := d.len + 1 })

def udictRemove (d : UDict) (found : Bool) : UDict :=
  if found then { d with len := d.len - 1 } else d

def slotsBytes (cap : Nat) : Nat := cap * (z.value + z.ptr + 1)

def UObject.grow (o : UObject) (granted : Bool) : Int × Bool × UObject :=
  let cap := doubled 16 o.cap
  let (d, values) := rawAlloc (slotsBytes z cap) granted
  if values = .null then (0, false, o)
  else (d + rawFree o.values (slotsBytes z o.cap), true, { o with values, cap })

def uobjSetLocal (o : UObject) (found granted : Bool) : Int × UObject :=
  if found then (0, o)
  else if o.count = o.cap then
    let (d, ok, o) := o.grow z granted
    (d, if ok then { o with count := o.count + 1 } else o)
  else (0, { o with count := o.count + 1 })

def uobjRemoveLocal (o : UObject) (found : Bool) : UObject :=
  if found then { o with count := o.count - 1 } else o

/-- The count is kept in 16 bits. -/
def uobjAddProto (o : UObject) (granted : Bool) : Int × UObject :=
  if o.nprotos = 0 then (0, { o with nprotos := 1 })
  else if o.nprotos = 1 then
    let (d, protos) := rawAlloc (2 * z.ptr) granted
    (d, if protos = .null then o else { o with protos, nprotos := 2 })
  else
    let (d, protos, ok) := rawRealloc o.protos (o.nprotos * z.ptr) ((o.nprotos + 1) * z.ptr) granted
    (d, if ok then { o with protos, nprotos := (o.nprotos + 1) % 2 ^ 16 } else { o with protos })

/-- A shrink the host refuses is passed over. -/
def uobjRemoveProto (o : UObject) (found granted : Bool) : Int × UObject :=
  if found = true ∧ o.nprotos = 1 then (0, { o with nprotos := 0 })
  else if o.nprotos ≤ 1 ∨ found = false then (0, o)
  else if o.nprotos = 2 then
    (rawFree o.protos (o.nprotos * z.ptr), { o with protos := .null, nprotos := 1 })
  else
    let (d, protos, _) := rawRealloc o.protos (o.nprotos * z.ptr) ((o.nprotos - 1) * z.ptr) granted
    (d, { o with protos, nprotos := o.nprotos - 1 })

def uobjSetProtos (o : UObject) (n : Nat) (granted : Bool) : Int × UObject :=
  if n ≤ 1 then
    (rawFree o.protos (o.nprotos * z.ptr), { o with protos := .null, nprotos := n })
  else
    let (d, protos) := rawAlloc (n * z.ptr) granted
    if protos = .null then (0, o)
    else (d + rawFree o.protos (o.nprotos * z.ptr), { o with protos, nprotos := n })

/-- None if the search for a capacity does not end. -/
def UStrand.ensureStack (s : UStrand) (needed : Nat) (granted : Bool) :
    Option (Int × Bool × UStrand) :=
  if needed ≤ s.stackCap then some (0, true, s)
  else do
    let cap ← URegisters.doubleTo needed 33 (if s.stackCap = 0 then 8 else s.stackCap)
    let (d, stack, ok) := rawRealloc s.stack (s.stackCap * z.value) (cap * z.value) granted
    some (d, ok, if ok then { s with stack, stackCap := cap } else { s with stack })

def UStrand.growFrames (s : UStrand) (granted : Bool) : Int × Bool × UStrand :=
  if 32768 ≤ s.framesCap then (0, false, s)
  else
    let cap := doubled 16 s.framesCap
    let (d, frames, ok) := rawRealloc s.frames (s.framesCap * z.frame) (cap * z.frame) granted
    (d, ok, if ok then { s with frames, framesCap := cap } else { s with frames })

def ustrandPushFrame (s : UStrand) (needed : Nat) (framesOk stackOk : Bool) :
    Option (Int × UStrand) := do
  let (d, ok, s) := if s.nframes = s.framesCap then s.growFrames z framesOk else (0, true, s)
  if ok then
    let (e, ok, s) ← s.ensureStack z needed stackOk
    some (d + e, if ok then { s with nframes := s.nframes + 1 } else s)
  else some (d, s)

def ustrandPopFrame (s : UStrand) : UStrand := { s with nframes := s.nframes - 1 }

def ustrandPushCleanup (s : UStrand) (granted : Bool) : Int × UStrand :=
  if s.ncleanup = s.cleanupCap then
    if 32768 ≤ s.cleanupCap then (0, s)
    else
      let cap := doubled 16 s.cleanupCap
      let (d, cleanup, ok) :=
        rawRealloc s.cleanup (s.cleanupCap * z.cleanup) (cap * z.cleanup) granted
      (d, if ok then { s with cleanup, cleanupCap := cap, ncleanup := s.ncleanup + 1 }
        else { s with cleanup })
  else (0, { s with ncleanup := s.ncleanup + 1 })

def ustrandPopCleanup (s : UStrand) : UStrand := { s with ncleanup := s.ncleanup - 1 }

/-! ## The heap -/

inductive Cell where
  | list (l : UList)
  | dict (d : UDict)
  | obj (o : UObject)
  | strand (s : UStrand)
  deriving DecidableEq, Repr

inductive Call where
  | push (granted : Bool)
  | insert (at_ : Nat) (granted : Bool)
  | removeAt (at_ : Nat)
  | set (found keysOk valsOk : Bool)
  | remove (found : Bool)
  | setLocal (found granted : Bool)
  | removeLocal (found : Bool)
  | addProto (granted : Bool)
  | removeProto (found granted : Bool)
  | setProtos (n : UInt16) (granted : Bool)
  | ensureStack (needed : Nat) (granted : Bool)
  | pushFrame (needed : Nat) (framesOk stackOk : Bool)
  | popFrame
  | pushCleanup (granted : Bool)
  | popCleanup

/-- None for a call that does not return, or that is not one on such a cell. -/
def Cell.apply : Cell → Call → Option (Int × Cell)
  | .list l, .push granted => some ((ulistPush z l granted).map id .list)
  | .list l, .insert at_ granted => some ((ulistInsert z l at_ granted).map id .list)
  | .list l, .removeAt at_ => some (0, .list (ulistRemoveAt l at_))
  | .dict d, .set found keysOk valsOk => some ((udictSet z d found keysOk valsOk).map id .dict)
  | .dict d, .remove found => some (0, .dict (udictRemove d found))
  | .obj o, .setLocal found granted => some ((uobjSetLocal z o found granted).map id .obj)
  | .obj o, .removeLocal found => some (0, .obj (uobjRemoveLocal o found))
  | .obj o, .addProto granted => some ((uobjAddProto z o granted).map id .obj)
  | .obj o, .removeProto found granted => some ((uobjRemoveProto z o found granted).map id .obj)
  | .obj o, .setProtos n granted => some ((uobjSetProtos z o n.toNat granted).map id .obj)
  | .strand s, .ensureStack needed granted =>
    (s.ensureStack z needed granted).map fun r => (r.1, .strand r.2.2)
  | .strand s, .pushFrame needed framesOk stackOk =>
    (ustrandPushFrame z s needed framesOk stackOk).map fun r => (r.1, .strand r.2)
  | .strand s, .popFrame => some (0, .strand (ustrandPopFrame s))
  | .strand s, .pushCleanup granted => some ((ustrandPushCleanup z s granted).map id .strand)
  | .strand s, .popCleanup => some (0, .strand (ustrandPopCleanup s))
  | _, _ => none

/-- The blocks of a cell, each with the size its finalizer releases it at (`ulist_finalize`,
`udict_finalize`, `uobj_finalize`, `ustrand_finalize`). -/
def Cell.blocks : Cell → List (Block × Nat)
  | .list l => [(l.items, l.cap * z.value)]
  | .dict d => [(d.keys, d.cap * z.value), (d.vals, d.cap * z.value)]
  | .obj o => [(o.values, slotsBytes z o.cap), (o.protos, o.nprotos * z.ptr)]
  | .strand s => [(s.stack, s.stackCap * z.value), (s.frames, s.framesCap * z.frame),
      (s.cleanup, s.cleanupCap * z.cleanup)]

def Cell.held (c : Cell) : Nat := ((c.blocks z).map fun b => b.1.bytes).sum

def Cell.finalize (c : Cell) : Int := ((c.blocks z).map fun b => rawFree b.1 b.2).sum

structure Heap where
  cells : List Cell
  rawLive : Int

def Heap.new : Heap := ⟨[], 0⟩

inductive Op where
  | newList (hint : Nat) (granted : Bool)
  | newDict
  | newObject (proto : Bool)
  | newStrand
  | call (i : Nat) (c : Call)
  | collect (i : Nat)

def freshCell : Op → Option (Int × Cell)
  | .newList hint granted => (ulistNew z hint granted).map fun r => (r.1, .list r.2)
  | .newDict => some (0, .dict ⟨.null, .null, 0, 0⟩)
  | .newObject proto => some (0, .obj ⟨.null, 0, 0, .null, proto.toNat⟩)
  | .newStrand => some (0, .strand ⟨.null, 0, .null, 0, 0, .null, 0, 0⟩)
  | .call _ _ | .collect _ => none

def Heap.step (h : Heap) : Op → Option Heap
  | .call i call => do
      let cell ← h.cells[i]?
      let (d, cell) ← cell.apply z call
      some ⟨h.cells.set i cell, h.rawLive + d⟩
  | .collect i => do
      let cell ← h.cells[i]?
      some ⟨h.cells.eraseIdx i, h.rawLive + cell.finalize z⟩
  | op => (freshCell z op).map fun r => ⟨h.cells ++ [r.2], h.rawLive + r.1⟩

/-! ## Exact accounting -/

def Cell.Exact (c : Cell) : Prop := ∀ b ∈ c.blocks z, b.1 = .null ∨ b.1 = .live b.2

structure Heap.Exact (h : Heap) : Prop where
  counted : h.rawLive = ((h.cells.map fun c => c.held z).sum : Nat)
  released : ∀ c ∈ h.cells, c.Exact z
  drained : h.rawLive + (h.cells.map fun c => c.finalize z).sum = 0

def Heap.ExactThrough : List Op → Heap → Prop
  | [], h => h.Exact z
  | op :: ops, h => h.Exact z ∧ ∀ h', h.step z op = some h' → ExactThrough ops h'

/-- The calls that go wrong: a dictionary whose keys grow and whose values do not, a prototype list
that is not let shrink, a count of prototypes that wraps, a capacity that wraps. -/
def Cell.Safe : Cell → Call → Prop
  | .list l, .push _ => l.len = l.cap → l.cap ≠ 2 ^ 31
  | .list l, .insert at_ _ => at_ ≤ l.len → l.len = l.cap → l.cap ≠ 2 ^ 31
  | .dict d, .set found keysOk valsOk => found = false → d.len = d.cap →
      d.cap ≠ 2 ^ 31 ∧ ¬ (keysOk = true ∧ valsOk = false)
  | .obj o, .addProto granted => ¬ (o.nprotos = 65535 ∧ granted = true)
  | .obj o, .removeProto found granted => found = true → 3 ≤ o.nprotos → granted = true
  | _, _ => True

def Heap.Safe (h : Heap) : Op → Prop
  | .call i call => ∀ c, h.cells[i]? = some c → c.Safe call
  | _ => True

def Heap.SafeThrough : List Op → Heap → Prop
  | [], _ => True
  | op :: ops, h => ∀ h', h.step z op = some h' → h.Safe op ∧ SafeThrough ops h'

/-! ## What is kept -/

def ArrayOk (size cap : Nat) (b : Block) : Prop :=
  (cap = 0 ∧ b = .null) ∨ (0 < cap ∧ b = .live (cap * size))

variable {z} {size cap n needed : Nat} {b : Block} {c : Cell} {r : Int × Cell} {o : UObject}
  {s : UStrand} {h : Heap}

theorem bytes_live : (Block.live n).bytes = n := rfl

theorem bytes_null : Block.null.bytes = 0 := rfl

theorem ArrayOk.bytes (h : ArrayOk size cap b) : b.bytes = cap * size := by
  obtain ⟨rfl, rfl⟩ | ⟨-, rfl⟩ := h
  · exact (Nat.zero_mul size).symm
  · rfl

theorem ArrayOk.exact (h : ArrayOk size cap b) : b = .null ∨ b = .live (cap * size) :=
  h.imp (·.2) (·.2)

theorem rawFree_of_exact (h : b = .null ∨ b = .live n) : rawFree b n = -(b.bytes : Int) := by
  obtain rfl | rfl := h <;> rfl

theorem rawRealloc_of_pos (h : 0 < n) (p : Block) (old : Nat) (granted : Bool) :
    rawRealloc p old n granted =
      if granted then ((n : Int) - old, .live n, true) else (0, p, false) :=
  if_neg (Nat.ne_of_gt h)

theorem doubled_spec {bits : Nat} (hbits : 3 ≤ bits) (h : cap < 2 ^ bits) :
    doubled bits cap < 2 ^ bits ∧ doubled bits cap ≠ cap ∧
      (doubled bits cap = 0 ↔ cap = 2 ^ (bits - 1)) := by
  have hpow : 2 ^ bits = 2 * 2 ^ (bits - 1) := by
    rw [← Nat.pow_succ', Nat.succ_eq_add_one, Nat.sub_add_cancel (by omega)]
  have hfour : 4 ≤ 2 ^ (bits - 1) := by
    calc 4 = 2 ^ 2 := rfl
      _ ≤ 2 ^ (bits - 1) := Nat.pow_le_pow_right (by omega) (by omega)
  unfold doubled
  by_cases hzero : cap = 0
  · rw [if_pos hzero]
    omega
  · rw [if_neg hzero]
    rcases Nat.lt_trichotomy cap (2 ^ (bits - 1)) with hlt | heq | hgt
    · rw [Nat.mod_eq_of_lt (by omega)]
      omega
    · rw [heq, hpow, Nat.mul_comm, Nat.mod_self]
      omega
    · rw [Nat.mod_eq_sub_mod (by omega), Nat.mod_eq_of_lt (by omega)]
      omega

theorem le_of_doubleTo {fuel cap c : Nat} (h : URegisters.doubleTo needed fuel cap = some c) :
    needed ≤ c ∧ (0 < cap → 0 < c) ∧ (cap < 2 ^ 32 → c < 2 ^ 32) := by
  induction fuel generalizing cap with
  | zero => cases h
  | succ fuel ih =>
    unfold URegisters.doubleTo at h
    by_cases hle : needed ≤ cap
    · rw [if_pos hle] at h
      obtain rfl := Option.some.inj h
      exact ⟨hle, id, id⟩
    · rw [if_neg hle] at h
      obtain ⟨hc, -, hlt⟩ := ih h
      exact ⟨hc, fun _ => by omega, fun _ => hlt (Nat.mod_lt _ (by decide))⟩

def ProtosOk (z : Sizes) (n : Nat) (b : Block) : Prop :=
  (n ≤ 1 ∧ b = .null) ∨ (2 ≤ n ∧ n < 2 ^ 16 ∧ b = .live (n * z.ptr))

theorem protosOk_many {n : Nat} (hmany : 2 ≤ n) (hn : n < 2 ^ 16) :
    ProtosOk z n (.live (n * z.ptr)) := .inr ⟨hmany, hn, rfl⟩

theorem ProtosOk.exact (h : ProtosOk z n b) : b = .null ∨ b = .live (n * z.ptr) :=
  h.imp (·.2) (·.2.2)

theorem ProtosOk.free (h : ProtosOk z n b) : rawFree b (n * z.ptr) = -(b.bytes : Int) :=
  rawFree_of_exact h.exact

def Cell.Ok (z : Sizes) : Cell → Prop
  | .list l => ArrayOk z.value l.cap l.items ∧ l.cap < 2 ^ 32
  | .dict d => ArrayOk z.value d.cap d.keys ∧ ArrayOk z.value d.cap d.vals ∧ d.cap < 2 ^ 32
  | .obj o => ArrayOk (z.value + z.ptr + 1) o.cap o.values ∧ o.cap < 2 ^ 16 ∧
      ProtosOk z o.nprotos o.protos
  | .strand s => ArrayOk z.value s.stackCap s.stack ∧ ArrayOk z.frame s.framesCap s.frames ∧
      ArrayOk z.cleanup s.cleanupCap s.cleanup

@[simp] theorem held_list (l : UList) : (Cell.list l).held z = l.items.bytes := by
  simp [Cell.held, Cell.blocks]

@[simp] theorem held_dict (d : UDict) : (Cell.dict d).held z = d.keys.bytes + d.vals.bytes := by
  simp [Cell.held, Cell.blocks]

@[simp] theorem held_obj (o : UObject) : (Cell.obj o).held z = o.values.bytes + o.protos.bytes := by
  simp [Cell.held, Cell.blocks]

@[simp] theorem held_strand (s : UStrand) :
    (Cell.strand s).held z = s.stack.bytes + s.frames.bytes + s.cleanup.bytes := by
  simp [Cell.held, Cell.blocks, Nat.add_assoc]

def Kept (z : Sizes) (c : Cell) (r : Int × Cell) : Prop :=
  r.2.Ok z ∧ r.1 = r.2.held z - c.held z

theorem Kept.same (h : c.Ok z) : Kept z c (0, c) := ⟨h, (Int.sub_self _).symm⟩

theorem arrayOk_live (hcap : 0 < cap) : ArrayOk size cap (.live (cap * size)) := .inr ⟨hcap, rfl⟩

def Settles (z : Sizes) (c : Cell) (call : Call) (r : Int × Cell) : Prop :=
  (c.Safe call → Kept z c r) ∧ (¬ c.Safe call → ¬ r.2.Exact z)

theorem Settles.of_kept {call : Call} (hsafe : c.Safe call) (h : Kept z c r) :
    Settles z c call r := ⟨fun _ => h, fun hnot => absurd hsafe hnot⟩

theorem Cell.not_exact {b : Block} {n : Nat} (hmem : (b, n) ∈ c.blocks z) (hnull : b ≠ .null)
    (hlive : b ≠ .live n) : ¬ c.Exact z :=
  fun h => (h (b, n) hmem).elim hnull hlive

theorem rawRealloc_zero {p : Block} (hp : p ≠ .null) (old : Nat) (granted : Bool) :
    rawRealloc p old 0 granted = (0, .gone, false) := by
  unfold rawRealloc
  rw [if_pos rfl, if_neg hp]

theorem ArrayOk.ne_null (h : ArrayOk size cap b) (hcap : 0 < cap) : b ≠ .null := by
  obtain ⟨rfl, -⟩ | ⟨-, rfl⟩ := h
  · omega
  · exact nofun

theorem ulistPush_settles {l : UList} (h : (Cell.list l).Ok z) (granted : Bool) :
    Settles z (.list l) (.push granted) ((ulistPush z l granted).map id .list) := by
  obtain ⟨hitems, hcap⟩ := h
  obtain ⟨hlt, -, hwrap⟩ := doubled_spec (by decide) hcap
  unfold ulistPush UList.grow
  by_cases hfull : l.len = l.cap
  · rw [if_pos hfull]
    constructor
    · intro hsafe
      have hpos : 0 < doubled 32 l.cap :=
        Nat.pos_of_ne_zero fun hzero => hsafe hfull (hwrap.mp hzero)
      simp only [rawRealloc_of_pos (Nat.mul_pos hpos z.value_pos)]
      cases granted with
      | true =>
        refine ⟨⟨arrayOk_live hpos, hlt⟩, ?_⟩
        rw [held_list, hitems.bytes]
        rfl
      | false => exact .same ⟨hitems, hcap⟩
    · intro hunsafe
      have hcap' : l.cap = 2 ^ 31 := by
        by_contra hne
        exact hunsafe fun _ => hne
      have hzero : doubled 32 l.cap = 0 := hwrap.mpr hcap'
      simp only [hzero, Nat.zero_mul, rawRealloc_zero (hitems.ne_null (by omega))]
      exact Cell.not_exact List.mem_cons_self nofun nofun
  · rw [if_neg hfull]
    exact .of_kept (fun hfull' => absurd hfull' hfull) ⟨⟨hitems, hcap⟩, (Int.sub_self _).symm⟩

theorem ulistInsert_settles {l : UList} (h : (Cell.list l).Ok z) (at_ : Nat) (granted : Bool) :
    Settles z (.list l) (.insert at_ granted) ((ulistInsert z l at_ granted).map id .list) := by
  unfold ulistInsert
  by_cases hat : l.len < at_
  · rw [if_pos hat]
    exact .of_kept (fun hle => absurd hat (Nat.not_lt.mpr hle)) (.same h)
  · rw [if_neg hat]
    obtain ⟨hkept, hbad⟩ := ulistPush_settles h granted
    exact ⟨fun hsafe => hkept (hsafe (Nat.le_of_not_lt hat)), fun hunsafe => hbad fun hsafe =>
      hunsafe fun _ => hsafe⟩

theorem udictSet_settles {d : UDict} (h : (Cell.dict d).Ok z) (found keysOk valsOk : Bool) :
    Settles z (.dict d) (.set found keysOk valsOk)
      ((udictSet z d found keysOk valsOk).map id .dict) := by
  obtain ⟨hkeys, hvals, hcap⟩ := h
  obtain ⟨hlt, hne, hwrap⟩ := doubled_spec (by decide) hcap
  unfold udictSet UDict.grow
  cases found with
  | true => exact .of_kept nofun (.same ⟨hkeys, hvals, hcap⟩)
  | false =>
    by_cases hfull : d.len = d.cap
    · simp only [hfull, if_true, Bool.false_eq_true, if_false]
      by_cases hcap' : d.cap = 2 ^ 31
      · -- the keys are taken back
        have hzero : doubled 32 d.cap = 0 := hwrap.mpr hcap'
        simp only [hzero, Nat.zero_mul, rawRealloc_zero (hkeys.ne_null (by omega))]
        refine ⟨fun hsafe => absurd hcap' (hsafe rfl hfull).1, fun _ => ?_⟩
        exact Cell.not_exact List.mem_cons_self nofun nofun
      · have hpos : 0 < doubled 32 d.cap :=
          Nat.pos_of_ne_zero fun hzero => hcap' (hwrap.mp hzero)
        have hbytes : 0 < doubled 32 d.cap * z.value := Nat.mul_pos hpos z.value_pos
        simp only [rawRealloc_of_pos hbytes]
        cases keysOk with
        | false => exact .of_kept (fun _ _ => ⟨hcap', nofun⟩) (.same ⟨hkeys, hvals, hcap⟩)
        | true =>
          cases valsOk with
          | true =>
            simp only [if_true, Prod.map_apply, id_eq]
            refine .of_kept (fun _ _ => ⟨hcap', nofun⟩)
              ⟨⟨arrayOk_live hpos, arrayOk_live hpos, hlt⟩, ?_⟩
            simp only [held_dict, hkeys.bytes, hvals.bytes, bytes_live]
            omega
          | false =>
            -- the keys have grown and the capacity has not
            simp only [if_true, Bool.false_eq_true, if_false, Prod.map_apply, id_eq]
            refine ⟨fun hsafe => absurd ⟨rfl, rfl⟩ (hsafe rfl hfull).2, fun _ => ?_⟩
            apply Cell.not_exact (b := .live (doubled 32 d.cap * z.value))
              (n := d.cap * z.value) List.mem_cons_self nofun
            intro heq
            exact hne (Nat.eq_of_mul_eq_mul_right z.value_pos (Block.live.inj heq))
    · simp only [hfull, if_false, Bool.false_eq_true]
      exact .of_kept (fun _ hfull' => absurd hfull' hfull)
        ⟨⟨hkeys, hvals, hcap⟩, (Int.sub_self _).symm⟩

theorem slots_pos (z : Sizes) : 0 < z.value + z.ptr + 1 := Nat.succ_pos _

theorem rawAlloc_of_pos (h : 0 < n) (granted : Bool) :
    rawAlloc n granted = if granted then ((n : Int), .live n) else (0, .null) := by
  unfold rawAlloc
  cases granted with
  | true => exact if_pos ⟨rfl, h⟩
  | false => exact if_neg fun h => Bool.false_ne_true h.1

theorem uobjSetLocal_kept (h : (Cell.obj o).Ok z) (found granted : Bool) :
    Kept z (.obj o) ((uobjSetLocal z o found granted).map id .obj) := by
  obtain ⟨hvalues, hcap, hprotos⟩ := h
  obtain ⟨hlt, -, -⟩ := doubled_spec (by decide) hcap
  unfold uobjSetLocal UObject.grow
  cases found with
  | true => exact .same ⟨hvalues, hcap, hprotos⟩
  | false =>
    by_cases hfull : o.count = o.cap
    · simp only [hfull, if_true, Bool.false_eq_true, if_false]
      rcases Nat.eq_zero_or_pos (doubled 16 o.cap) with hzero | hpos
      · -- the capacity has wrapped: a request of no bytes is refused
        have hnone : rawAlloc (slotsBytes z (doubled 16 o.cap)) granted = (0, .null) := by
          rw [hzero]
          unfold rawAlloc slotsBytes
          exact if_neg fun h => by simp at h
        simp only [hnone, if_true, Bool.false_eq_true, if_false]
        exact .same ⟨hvalues, hcap, hprotos⟩
      · have hbytes : 0 < slotsBytes z (doubled 16 o.cap) := Nat.mul_pos hpos (slots_pos z)
        simp only [rawAlloc_of_pos hbytes]
        cases granted with
        | false =>
          simp only [if_true, Bool.false_eq_true, if_false]
          exact .same ⟨hvalues, hcap, hprotos⟩
        | true =>
          simp only [if_true, reduceCtorEq, if_false, Prod.map_apply, id_eq]
          refine ⟨⟨arrayOk_live hpos, hlt, hprotos⟩, ?_⟩
          have hfree : rawFree o.values (slotsBytes z o.cap) = -(o.values.bytes : Int) :=
            rawFree_of_exact hvalues.exact
          simp only [held_obj, hfree, bytes_live]
          omega
    · simp only [hfull, if_false, Bool.false_eq_true]
      exact ⟨⟨hvalues, hcap, hprotos⟩, (Int.sub_self _).symm⟩

theorem uobjAddProto_settles (h : (Cell.obj o).Ok z) (granted : Bool) :
    Settles z (.obj o) (.addProto granted) ((uobjAddProto z o granted).map id .obj) := by
  have hall := h
  obtain ⟨hvalues, hcap, ⟨hfew, hnull⟩ | ⟨hmany, hn, hlive⟩⟩ := h
  · refine .of_kept (fun hbad => by omega) ?_
    unfold uobjAddProto
    by_cases hzero : o.nprotos = 0
    · rw [if_pos hzero]
      exact ⟨⟨hvalues, hcap, .inl ⟨Nat.le_refl 1, hnull⟩⟩, (Int.sub_self _).symm⟩
    · rw [if_neg hzero, if_pos (by omega)]
      have hbytes : 0 < 2 * z.ptr := Nat.mul_pos (by decide) z.ptr_pos
      simp only [rawAlloc_of_pos hbytes]
      cases granted with
      | false => exact .same hall
      | true =>
        simp only [if_true, reduceCtorEq, if_false, Prod.map_apply, id_eq]
        refine ⟨⟨hvalues, hcap, protosOk_many (n := 2) (by decide) (by decide)⟩, ?_⟩
        simp only [held_obj, hnull, bytes_live, bytes_null]
        omega
  · unfold uobjAddProto
    rw [if_neg (by omega), if_neg (by omega)]
    have hbytes : 0 < (o.nprotos + 1) * z.ptr := Nat.mul_pos (Nat.succ_pos _) z.ptr_pos
    simp only [rawRealloc_of_pos hbytes]
    cases granted with
    | false => exact .of_kept (fun hbad => Bool.false_ne_true hbad.2) (.same hall)
    | true =>
      simp only [if_true, Prod.map_apply, id_eq]
      by_cases hlast : o.nprotos = 65535
      · -- the count wraps to none, with the block held
        have hwrap : (o.nprotos + 1) % 2 ^ 16 = 0 := by omega
        rw [hwrap]
        refine ⟨fun hsafe => absurd ⟨hlast, rfl⟩ hsafe, fun _ => ?_⟩
        apply Cell.not_exact (b := .live ((o.nprotos + 1) * z.ptr)) (n := 0 * z.ptr)
          (List.mem_cons_of_mem _ List.mem_cons_self) nofun
        intro heq
        have hsize := Block.live.inj heq
        omega
      · have hnext : (o.nprotos + 1) % 2 ^ 16 = o.nprotos + 1 := Nat.mod_eq_of_lt (by omega)
        rw [hnext]
        refine .of_kept (fun hbad => hlast hbad.1)
          ⟨⟨hvalues, hcap, protosOk_many (n := o.nprotos + 1) (by omega) (by omega)⟩, ?_⟩
        simp only [held_obj, hlive, bytes_live]
        omega

theorem uobjRemoveProto_settles (h : (Cell.obj o).Ok z) (found granted : Bool) :
    Settles z (.obj o) (.removeProto found granted)
      ((uobjRemoveProto z o found granted).map id .obj) := by
  have hall := h
  obtain ⟨hvalues, hcap, ⟨hfew, hnull⟩ | ⟨hmany, hn, hlive⟩⟩ := h
  · refine .of_kept (fun _ hge => by omega) ?_
    unfold uobjRemoveProto
    by_cases hone : found = true ∧ o.nprotos = 1
    · rw [if_pos hone]
      exact ⟨⟨hvalues, hcap, .inl ⟨Nat.zero_le 1, hnull⟩⟩, (Int.sub_self _).symm⟩
    · rw [if_neg hone, if_pos (.inl hfew)]
      exact .same hall
  · unfold uobjRemoveProto
    rw [if_neg (by omega)]
    cases found with
    | false =>
      rw [if_pos (.inr rfl)]
      exact .of_kept nofun (.same hall)
    | true =>
      rw [if_neg (by simp; omega)]
      by_cases htwo : o.nprotos = 2
      · rw [if_pos htwo]
        refine .of_kept (fun _ hge => by omega)
          ⟨⟨hvalues, hcap, .inl ⟨Nat.le_refl 1, rfl⟩⟩, ?_⟩
        simp only [Prod.map_apply, id_eq, held_obj, hall.2.2.free, bytes_null]
        omega
      · rw [if_neg htwo]
        have hbytes : 0 < (o.nprotos - 1) * z.ptr := Nat.mul_pos (by omega) z.ptr_pos
        simp only [rawRealloc_of_pos hbytes]
        cases granted with
        | true =>
          simp only [if_true, Prod.map_apply, id_eq]
          refine .of_kept (fun _ _ => rfl)
            ⟨⟨hvalues, hcap, protosOk_many (n := o.nprotos - 1) (by omega) (by omega)⟩, ?_⟩
          simp only [held_obj, hlive, bytes_live]
          omega
        | false =>
          -- the block keeps its size under a smaller count
          refine ⟨fun hsafe => Bool.noConfusion (hsafe rfl (by omega)), fun _ => ?_⟩
          apply Cell.not_exact (b := o.protos) (n := (o.nprotos - 1) * z.ptr)
            (List.mem_cons_of_mem _ List.mem_cons_self)
          · rw [hlive]
            exact nofun
          · rw [hlive]
            intro heq
            have := Nat.eq_of_mul_eq_mul_right z.ptr_pos (Block.live.inj heq)
            omega

theorem uobjSetProtos_kept (h : (Cell.obj o).Ok z) (hn : n < 2 ^ 16) (granted : Bool) :
    Kept z (.obj o) ((uobjSetProtos z o n granted).map id .obj) := by
  have hall := h
  obtain ⟨hvalues, hcap, hprotos⟩ := h
  unfold uobjSetProtos
  by_cases hle : n ≤ 1
  · rw [if_pos hle]
    refine ⟨⟨hvalues, hcap, .inl ⟨hle, rfl⟩⟩, ?_⟩
    simp only [Prod.map_apply, id_eq, held_obj, hprotos.free, bytes_null]
    omega
  · rw [if_neg hle]
    have hbytes : 0 < n * z.ptr := Nat.mul_pos (by omega) z.ptr_pos
    simp only [rawAlloc_of_pos hbytes]
    cases granted with
    | false => exact .same hall
    | true =>
      simp only [if_true, reduceCtorEq, if_false, Prod.map_apply, id_eq]
      refine ⟨⟨hvalues, hcap, protosOk_many (n := n) (by omega) hn⟩, ?_⟩
      simp only [held_obj, hprotos.free, bytes_live]
      omega

theorem ArrayOk.grow (h : ArrayOk size cap b) (hsize : 0 < size) {newCap : Nat} (hpos : 0 < newCap)
    (granted : Bool) : (rawRealloc b (cap * size) (newCap * size) granted =
        ((newCap * size : Nat) - (b.bytes : Int), .live (newCap * size), true) ∧
      ArrayOk size newCap (.live (newCap * size))) ∨
    rawRealloc b (cap * size) (newCap * size) granted = (0, b, false) := by
  rw [rawRealloc_of_pos (Nat.mul_pos hpos hsize), h.bytes]
  cases granted with
  | true => exact .inl ⟨rfl, arrayOk_live hpos⟩
  | false => exact .inr rfl

theorem ensureStack_kept (h : (Cell.strand s).Ok z) {granted : Bool} {r : Int × Bool × UStrand}
    (hr : s.ensureStack z needed granted = some r) : Kept z (.strand s) (r.1, .strand r.2.2) := by
  have hall := h
  obtain ⟨hstack, hframes, hcleanup⟩ := h
  unfold UStrand.ensureStack at hr
  by_cases hle : needed ≤ s.stackCap
  · rw [if_pos hle] at hr
    cases hr
    exact .same hall
  · rw [if_neg hle] at hr
    obtain ⟨c, hc, hr⟩ := Option.bind_eq_some_iff.mp hr
    have hpos : 0 < c := Nat.lt_of_lt_of_le (by omega) (le_of_doubleTo hc).1
    rcases hstack.grow z.value_pos hpos granted with ⟨heq, hok⟩ | heq
    · rw [heq] at hr
      cases hr
      refine ⟨⟨hok, hframes, hcleanup⟩, ?_⟩
      simp only [if_true, held_strand, bytes_live]
      omega
    · rw [heq] at hr
      cases hr
      exact .same hall

theorem doubled16_pos {cap : Nat} (h : ¬ 32768 ≤ cap) : 0 < doubled 16 cap := by
  unfold doubled
  split
  · decide
  · omega

theorem growFrames_kept (h : (Cell.strand s).Ok z) (granted : Bool) :
    Kept z (.strand s) ((s.growFrames z granted).1, .strand (s.growFrames z granted).2.2) := by
  have hall := h
  obtain ⟨hstack, hframes, hcleanup⟩ := h
  unfold UStrand.growFrames
  by_cases hmax : 32768 ≤ s.framesCap
  · rw [if_pos hmax]
    exact .same hall
  · rw [if_neg hmax]
    rcases hframes.grow z.frame_pos (doubled16_pos hmax) granted with ⟨heq, hok⟩ | heq
    · simp only [heq, if_true]
      refine ⟨⟨hstack, hok, hcleanup⟩, ?_⟩
      simp only [held_strand, bytes_live]
      omega
    · simp only [heq]
      exact .same hall

theorem ustrandPushCleanup_kept (h : (Cell.strand s).Ok z) (granted : Bool) :
    Kept z (.strand s) ((ustrandPushCleanup z s granted).map id .strand) := by
  have hall := h
  obtain ⟨hstack, hframes, hcleanup⟩ := h
  unfold ustrandPushCleanup
  by_cases hfull : s.ncleanup = s.cleanupCap
  · rw [if_pos hfull]
    by_cases hmax : 32768 ≤ s.cleanupCap
    · rw [if_pos hmax]
      exact .same hall
    · rw [if_neg hmax]
      rcases hcleanup.grow z.cleanup_pos (doubled16_pos hmax) granted with ⟨heq, hok⟩ | heq
      · simp only [heq, if_true, Prod.map_apply, id_eq]
        refine ⟨⟨hstack, hframes, hok⟩, ?_⟩
        simp only [held_strand, bytes_live]
        omega
      · simp only [heq]
        exact .same hall
  · rw [if_neg hfull]
    exact ⟨⟨hstack, hframes, hcleanup⟩, (Int.sub_self _).symm⟩

theorem Kept.trans {r' : Int × Cell} (h : Kept z c r) (h' : Kept z r.2 r') :
    Kept z c (r.1 + r'.1, r'.2) := by
  refine ⟨h'.1, ?_⟩
  have h₁ := h.2
  have h₂ := h'.2
  show r.1 + r'.1 = (r'.2.held z : Int) - c.held z
  omega

theorem ustrandPushFrame_kept (h : (Cell.strand s).Ok z) {framesOk stackOk : Bool}
    {r : Int × UStrand} (hr : ustrandPushFrame z s needed framesOk stackOk = some r) :
    Kept z (.strand s) (r.1, .strand r.2) := by
  unfold ustrandPushFrame at hr
  -- the frame table first, if it is full
  have hfirst : Kept z (.strand s)
      ((if s.nframes = s.framesCap then s.growFrames z framesOk else (0, true, s)).1,
        .strand (if s.nframes = s.framesCap then s.growFrames z framesOk else (0, true, s)).2.2) := by
    split
    · exact growFrames_kept h framesOk
    · exact .same h
  generalize (if s.nframes = s.framesCap then s.growFrames z framesOk else (0, true, s)) = g at hr hfirst
  obtain ⟨d, ok, s₁⟩ := g
  cases ok with
  | false =>
    cases hr
    exact hfirst
  | true =>
    obtain ⟨⟨e, ok, s₂⟩, hens, hr⟩ := Option.bind_eq_some_iff.mp hr
    have hkept := hfirst.trans (ensureStack_kept hfirst.1 hens)
    cases ok with
    | false =>
      cases hr
      exact hkept
    | true =>
      cases hr
      exact ⟨hkept.1, hkept.2⟩

theorem Cell.apply_settles (h : c.Ok z) {call : Call} (hr : c.apply z call = some r) :
    Settles z c call r := by
  cases c with
  | list l =>
    cases call <;> cases hr
    case list.push.refl granted => exact ulistPush_settles h granted
    case list.insert.refl at_ granted => exact ulistInsert_settles h at_ granted
    case list.removeAt.refl at_ =>
      refine .of_kept trivial ?_
      unfold ulistRemoveAt
      split
      · exact .same h
      · exact ⟨h, (Int.sub_self _).symm⟩
  | dict d =>
    cases call <;> cases hr
    case dict.set.refl found keysOk valsOk => exact udictSet_settles h found keysOk valsOk
    case dict.remove.refl found =>
      refine .of_kept trivial ?_
      cases found
      · exact .same h
      · exact ⟨h, (Int.sub_self _).symm⟩
  | obj o =>
    cases call <;> cases hr
    case obj.setLocal.refl found granted => exact .of_kept trivial (uobjSetLocal_kept h found granted)
    case obj.removeLocal.refl found =>
      refine .of_kept trivial ?_
      cases found
      · exact .same h
      · exact ⟨h, (Int.sub_self _).symm⟩
    case obj.addProto.refl granted => exact uobjAddProto_settles h granted
    case obj.removeProto.refl found granted => exact uobjRemoveProto_settles h found granted
    case obj.setProtos.refl n granted => exact .of_kept trivial (uobjSetProtos_kept h n.toNat_lt granted)
  | strand s =>
    cases call
    case ensureStack needed granted =>
      obtain ⟨r', hr', rfl⟩ := Option.map_eq_some_iff.mp hr
      exact .of_kept trivial (ensureStack_kept h hr')
    case pushFrame needed framesOk stackOk =>
      obtain ⟨r', hr', rfl⟩ := Option.map_eq_some_iff.mp hr
      exact .of_kept trivial (ustrandPushFrame_kept h hr')
    all_goals cases hr
    case strand.popFrame.refl => exact .of_kept trivial ⟨h, (Int.sub_self _).symm⟩
    case strand.pushCleanup.refl granted => exact .of_kept trivial (ustrandPushCleanup_kept h granted)
    case strand.popCleanup.refl => exact .of_kept trivial ⟨h, (Int.sub_self _).symm⟩

theorem Cell.Ok.exact (h : c.Ok z) : c.Exact z ∧ c.finalize z = -(c.held z : Int) := by
  have hblocks : ∀ b ∈ c.blocks z, b.1 = .null ∨ b.1 = .live b.2 := by
    cases c with
    | list l => simpa [Cell.blocks] using h.1.exact
    | dict d => simpa [Cell.blocks] using ⟨h.1.exact, h.2.1.exact⟩
    | obj o => simpa [Cell.blocks] using ⟨h.1.exact, h.2.2.exact⟩
    | strand s => simpa [Cell.blocks] using ⟨h.1.exact, h.2.1.exact, h.2.2.exact⟩
  refine ⟨hblocks, ?_⟩
  unfold Cell.finalize Cell.held
  generalize c.blocks z = blocks at hblocks
  induction blocks with
  | nil => rfl
  | cons b blocks ih =>
    obtain ⟨hb, hrest⟩ := List.forall_mem_cons.mp hblocks
    simp only [List.map_cons, List.sum_cons, rawFree_of_exact hb, ih hrest]
    omega

structure Heap.Ok (z : Sizes) (h : Heap) : Prop where
  counted : h.rawLive = ((h.cells.map fun c => c.held z).sum : Nat)
  cells : ∀ c ∈ h.cells, c.Ok z

theorem Heap.Ok.exact (hok : h.Ok z) : h.Exact z := by
  refine ⟨hok.counted, fun c hc => (hok.cells c hc).exact.1, ?_⟩
  rw [hok.counted]
  have hcells := hok.cells
  generalize h.cells = cells at hcells
  induction cells with
  | nil => rfl
  | cons c cells ih =>
    obtain ⟨hc, hrest⟩ := List.forall_mem_cons.mp hcells
    have := ih hrest
    simp only [List.map_cons, List.sum_cons, hc.exact.2]
    omega

theorem around {α : Type} {l : List α} {i : Nat} {a : α} (h : l[i]? = some a) :
    ∃ l₁ l₂, l = l₁ ++ a :: l₂ ∧ (∀ b, l.set i b = l₁ ++ b :: l₂) ∧ l.eraseIdx i = l₁ ++ l₂ := by
  obtain ⟨hlt, rfl⟩ := List.getElem?_eq_some_iff.mp h
  refine ⟨l.take i, l.drop (i + 1), ?_, ?_, List.eraseIdx_eq_take_drop_succ l i⟩
  · rw [List.getElem_cons_drop, List.take_append_drop]
  · intro b
    rw [List.set_eq_take_append_cons_drop, if_pos hlt]

theorem freshCell_kept {op : Op} (hr : freshCell z op = some r) : r.2.Ok z ∧ r.1 = r.2.held z := by
  cases op with
  | newList hint granted =>
    obtain ⟨r', hr', rfl⟩ := Option.map_eq_some_iff.mp hr
    obtain ⟨c, hc, hr'⟩ := Option.bind_eq_some_iff.mp hr'
    obtain ⟨-, hpos, hlt⟩ := le_of_doubleTo hc
    have hpos : 0 < c := hpos (by decide)
    simp only [rawAlloc_of_pos (Nat.mul_pos hpos z.value_pos)] at hr'
    cases granted with
    | true =>
      cases hr'
      exact ⟨⟨arrayOk_live hpos, hlt (by decide)⟩, rfl⟩
    | false =>
      cases hr'
      exact ⟨⟨.inl ⟨rfl, rfl⟩, Nat.two_pow_pos 32⟩, rfl⟩
  | newDict =>
    cases hr
    exact ⟨⟨.inl ⟨rfl, rfl⟩, .inl ⟨rfl, rfl⟩, by decide⟩, rfl⟩
  | newObject proto =>
    cases hr
    refine ⟨⟨.inl ⟨rfl, rfl⟩, Nat.two_pow_pos 16, .inl ⟨?_, rfl⟩⟩, rfl⟩
    cases proto <;> decide
  | newStrand =>
    cases hr
    exact ⟨⟨.inl ⟨rfl, rfl⟩, .inl ⟨rfl, rfl⟩, .inl ⟨rfl, rfl⟩⟩, rfl⟩
  | call i c | collect i => cases hr

/-- Some of the cells make way for others, and the counter moves by the difference. -/
theorem Heap.Ok.replace {before after : List Cell} {d : Int} (hok : h.Ok z) (cs cs' : List Cell)
    (hsplit : h.cells = before ++ (cs ++ after)) (hcells : ∀ c ∈ cs', c.Ok z)
    (hd : d = ((cs'.map fun c => c.held z).sum : Nat) - ((cs.map fun c => c.held z).sum : Nat)) :
    Heap.Ok z ⟨before ++ (cs' ++ after), h.rawLive + d⟩ := by
  obtain ⟨hcounted, hall⟩ := hok
  rw [hsplit] at hcounted hall
  constructor
  · simp only [List.map_append, List.sum_append] at hcounted ⊢
    omega
  · simp only [List.forall_mem_append] at hall ⊢
    exact ⟨hall.1, hcells, hall.2.2⟩

theorem Heap.step_settles {h' : Heap} (hok : h.Ok z) {op : Op} (hs : h.step z op = some h') :
    (h.Safe op → h'.Ok z) ∧ (¬ h.Safe op → ¬ h'.Exact z) := by
  cases op with
  | newList hint granted | newDict | newObject proto | newStrand =>
    unfold step at hs
    obtain ⟨r, hr, rfl⟩ := Option.map_eq_some_iff.mp hs
    obtain ⟨hcell, hheld⟩ := freshCell_kept hr
    refine ⟨fun _ => ?_, fun hnot => absurd trivial hnot⟩
    exact hok.replace [] [r.2] (List.append_nil _).symm
      (List.forall_mem_singleton.mpr hcell) (by simpa using hheld)
  | call i call =>
    obtain ⟨c, hc, hs⟩ := Option.bind_eq_some_iff.mp hs
    obtain ⟨⟨d, c'⟩, hcall, hs⟩ := Option.bind_eq_some_iff.mp hs
    cases hs
    obtain ⟨before, after, hsplit, hset, -⟩ := around hc
    obtain ⟨hsafe, hbad⟩ := Cell.apply_settles (hok.cells c (List.mem_of_getElem? hc)) hcall
    rw [hset]
    constructor
    · intro hs
      obtain ⟨hcell, hheld⟩ := hsafe (hs c hc)
      exact hok.replace [c] [c'] hsplit (List.forall_mem_singleton.mpr hcell)
        (by simpa using hheld)
    · intro hs hexact
      refine hbad (fun hcall => hs fun c₂ hc₂ => ?_) (hexact.released c' (by simp))
      rw [← Option.some.inj (hc.symm.trans hc₂)]
      exact hcall
  | collect i =>
    obtain ⟨c, hc, hs⟩ := Option.bind_eq_some_iff.mp hs
    cases hs
    obtain ⟨before, after, hsplit, -, herase⟩ := around hc
    refine ⟨fun _ => ?_, fun hnot => absurd trivial hnot⟩
    rw [herase]
    have hfinal := (hok.cells c (List.mem_of_getElem? hc)).exact.2
    exact hok.replace [c] [] hsplit nofun (by simpa using hfinal)

theorem Heap.exactThrough_iff (hok : h.Ok z) (ops : List Op) :
    h.ExactThrough z ops ↔ h.SafeThrough z ops := by
  induction ops generalizing h with
  | nil => exact ⟨fun _ => trivial, fun _ => hok.exact⟩
  | cons op ops ih =>
    have hexact : ∀ {ops : List Op} {h : Heap}, h.ExactThrough z ops → h.Exact z := by
      intro ops h hthrough
      cases ops with
      | nil => exact hthrough
      | cons _ _ => exact hthrough.1
    constructor
    · rintro ⟨-, hnext⟩ h' hs
      have hsafe : h.Safe op := by
        by_contra hunsafe
        exact (step_settles hok hs).2 hunsafe (hexact (hnext h' hs))
      exact ⟨hsafe, (ih ((step_settles hok hs).1 hsafe)).mp (hnext h' hs)⟩
    · intro hnext
      refine ⟨hok.exact, fun h' hs => ?_⟩
      obtain ⟨hsafe, hrest⟩ := hnext h' hs
      exact (ih ((step_settles hok hs).1 hsafe)).mpr hrest

/-- **Raw-memory accounting.**  Through a sequence of operations, with whatever the host refuses, the
counter is the bytes held and every finalizer releases what was charged, exactly when each operation
that returns is a safe one. -/
theorem rawLive_exact_iff (z : Sizes) (ops : List Op) :
    Heap.new.ExactThrough z ops ↔ Heap.new.SafeThrough z ops :=
  Heap.exactThrough_iff ⟨rfl, fun _ hc => absurd hc List.not_mem_nil⟩ ops

def lp64 : Sizes := ⟨16, 8, 40, 40, by decide, by decide, by decide, by decide⟩

/-- A list that grows, and is collected. -/
theorem rawLive_exact_iff_push :
    Heap.new.ExactThrough lp64 [.newList 0 false, .call 0 (.push true), .collect 0] := by
  apply (rawLive_exact_iff lp64 _).mpr
  intro h hs
  cases hs
  refine ⟨trivial, fun h hs => ?_⟩
  cases hs
  refine ⟨?_, fun h hs => ?_⟩
  · rintro c ⟨⟩ _
    decide
  · cases hs
    exact ⟨trivial, trivial⟩

/-- A dictionary whose keys were let grow and whose values were not: four keys stay on the counter
when all is collected.  So does the place of a prototype that a list was not let give up. -/
theorem rawLive_left_over :
    ((Heap.new.step lp64 .newDict).bind fun h => (h.step lp64 (.call 0 (.set false true false))).bind
      fun h => (h.step lp64 (.collect 0)).map fun h => (h.cells, h.rawLive)) = some ([], 64) ∧
    ((Heap.new.step lp64 (.newObject false)).bind fun h =>
      (h.step lp64 (.call 0 (.setProtos 3 true))).bind fun h =>
      (h.step lp64 (.call 0 (.removeProto true false))).bind fun h =>
      (h.step lp64 (.collect 0)).map fun h => (h.cells, h.rawLive)) = some ([], 8) := by
  decide

end Calls

end Urbi.Raw
