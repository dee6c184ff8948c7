import Urbi.Chunk.Proto
import Urbi.Lib.Buckets
import Mathlib.Data.List.Nodup

/-!
# The intern table

`usym_intern` keeps one symbol for each byte string, in chains by hash.  The length of a symbol is
kept in 32 bits, and a string is compared with it by that length.
-/

namespace Urbi

open Lib

def ustrHash (s : Bytes) : UInt32 :=
  s.foldl (fun h b => (h ^^^ b.toUInt32) * 16777619) 2166136261

/-- `bytes` is all that was copied, of which readers see `len`. -/
structure USymBlock where
  addr : Nat
  hash : UInt32
  len : UInt32
  bytes : Bytes
  deriving DecidableEq, Repr

/-- `next` is the address the next block gets: blocks are not released before the VM. -/
structure UStrTab where
  buckets : List (List USymBlock)
  count : UInt32
  next : Nat

def ustrtabInit : UStrTab := ⟨List.replicate 64 [], 0, 0⟩

def USymBlock.place (e : USymBlock) : Nat := e.hash.toNat

def USymBlock.isFor (s : Bytes) (e : USymBlock) : Bool :=
  e.hash == ustrHash s && e.len.toNat == s.length && e.bytes.take s.length == s

namespace UStrTab

def find (t : UStrTab) (s : Bytes) : Option USymBlock :=
  (Buckets.chain t.buckets (ustrHash s).toNat).find? (USymBlock.isFor s)

def text (t : UStrTab) (p : Nat) : Option Bytes :=
  (t.buckets.flatten.find? (·.addr == p)).map fun e => e.bytes.take e.len.toNat

/-- The number of chains is kept in 32 bits, and the host has nothing to give for a request of no
bytes. -/
def grow (t : UStrTab) (granted : Bool) : UStrTab :=
  let n := t.buckets.length * 2 % 2 ^ 32
  if granted = true ∧ 0 < n then { t with buckets := Buckets.rehash USymBlock.place n t.buckets }
  else t

def add (t : UStrTab) (s : Bytes) : UStrTab where
  buckets := Buckets.put USymBlock.place t.buckets ⟨t.next, ustrHash s, .ofNat s.length, s⟩
  count := t.count + 1
  next := t.next + 1

end UStrTab

/-- `granted` and `grown` are the host's answers for the block and for a larger table. -/
def usymIntern (t : UStrTab) (s : Bytes) (granted grown : Bool) : Option Nat × UStrTab :=
  match t.find s with
  | some e => (some e.addr, t)
  | none =>
    if granted then
      let t' := t.add s
      (some t.next, if t'.buckets.length < t'.count.toNat then t'.grow grown else t')
    else (none, t)

/-! ## What the table keeps -/

structure UStrTab.Ok (t : UStrTab) : Prop where
  pos : 0 < t.buckets.length
  placed : Buckets.Placed USymBlock.place t.buckets
  addrs : (t.buckets.flatten.map USymBlock.addr).Nodup
  fresh : ∀ e ∈ t.buckets.flatten, e.addr < t.next
  filled : ∀ e ∈ t.buckets.flatten, e.hash = ustrHash e.bytes ∧ e.len.toNat = e.bytes.length
  texts : (t.buckets.flatten.map USymBlock.bytes).Nodup

theorem UStrTab.Ok.init : ustrtabInit.Ok := by
  have hempty : ustrtabInit.buckets.flatten = [] := List.flatten_replicate_nil
  constructor
  · decide
  · exact Buckets.placed_replicate _ 64
  all_goals
    rw [hempty]
    simp

namespace UStrTab

variable {t t' : UStrTab} {s : Bytes} {e : USymBlock}

theorem isFor_iff (hhash : e.hash = ustrHash e.bytes) (hlen : e.len.toNat = e.bytes.length) :
    e.isFor s = true ↔ e.bytes = s := by
  simp only [USymBlock.isFor, Bool.and_eq_true, beq_iff_eq]
  constructor
  · rintro ⟨⟨-, hlen'⟩, htake⟩
    rwa [← hlen', hlen, List.take_length] at htake
  · rintro rfl
    exact ⟨⟨hhash, hlen⟩, List.take_length⟩

theorem Ok.eq_of_bytes (h : t.Ok) {e' : USymBlock} (he : e ∈ t.buckets.flatten)
    (he' : e' ∈ t.buckets.flatten) (heq : e.bytes = e'.bytes) : e = e' :=
  List.inj_on_of_nodup_map h.texts he he' heq

theorem Ok.eq_of_addr (h : t.Ok) {e' : USymBlock} (he : e ∈ t.buckets.flatten)
    (he' : e' ∈ t.buckets.flatten) (heq : e.addr = e'.addr) : e = e' :=
  List.inj_on_of_nodup_map h.addrs he he' heq

theorem Ok.find_iff (h : t.Ok) : t.find s = some e ↔ e ∈ t.buckets.flatten ∧ e.bytes = s := by
  unfold find
  constructor
  · intro hfind
    have hmem := Buckets.mem_of_mem_chain (List.mem_of_find?_eq_some hfind)
    obtain ⟨hhash, hlen⟩ := h.filled e hmem
    exact ⟨hmem, (isFor_iff hhash hlen).mp (List.find?_some hfind)⟩
  · rintro ⟨hmem, rfl⟩
    obtain ⟨hhash, hlen⟩ := h.filled e hmem
    have hchain : e ∈ Buckets.chain t.buckets (ustrHash e.bytes).toNat := by
      rw [← hhash]
      exact h.placed.mem_chain hmem
    have hsome := List.find?_isSome.mpr ⟨e, hchain, (isFor_iff hhash hlen).mpr rfl⟩
    obtain ⟨e', hfind⟩ := Option.isSome_iff_exists.mp hsome
    have hmem' := Buckets.mem_of_mem_chain (List.mem_of_find?_eq_some hfind)
    obtain ⟨hhash', hlen'⟩ := h.filled e' hmem'
    have heq := (isFor_iff hhash' hlen').mp (List.find?_some hfind)
    rw [hfind, h.eq_of_bytes hmem' hmem heq]

theorem Ok.text_of_mem (h : t.Ok) (he : e ∈ t.buckets.flatten) : t.text e.addr = some e.bytes := by
  unfold text
  have hsome : (t.buckets.flatten.find? (·.addr == e.addr)).isSome :=
    List.find?_isSome.mpr ⟨e, he, beq_self_eq_true _⟩
  obtain ⟨e', hfind⟩ := Option.isSome_iff_exists.mp hsome
  have haddr : e'.addr = e.addr := by simpa using List.find?_some hfind
  rw [hfind, h.eq_of_addr (List.mem_of_find?_eq_some hfind) he haddr, Option.map_some,
    (h.filled e he).2, List.take_length]

theorem Ok.perm (h : t.Ok) (hpos : 0 < t'.buckets.length)
    (hplaced : Buckets.Placed USymBlock.place t'.buckets) (hnext : t'.next = t.next)
    (hperm : t'.buckets.flatten.Perm t.buckets.flatten) : t'.Ok where
  pos := hpos
  placed := hplaced
  addrs := (hperm.map _).nodup_iff.mpr h.addrs
  fresh e he := hnext ▸ h.fresh e (hperm.mem_iff.mp he)
  filled e he := h.filled e (hperm.mem_iff.mp he)
  texts := (hperm.map _).nodup_iff.mpr h.texts

theorem Ok.grow (h : t.Ok) (granted : Bool) :
    (t.grow granted).Ok ∧ (t.grow granted).buckets.flatten.Perm t.buckets.flatten := by
  unfold UStrTab.grow
  dsimp only
  split
  case isTrue hgrow =>
    obtain ⟨hlen, hplaced, hperm⟩ := Buckets.rehash_spec USymBlock.place hgrow.2 t.buckets
    have hpos : 0 < (Buckets.rehash USymBlock.place (t.buckets.length * 2 % 2 ^ 32)
        t.buckets).length := by
      rw [hlen]
      exact hgrow.2
    exact ⟨h.perm hpos hplaced rfl hperm, hperm⟩
  case isFalse => exact ⟨h, List.Perm.refl _⟩

theorem Ok.add (h : t.Ok) (hnone : t.find s = none) (hlen : s.length < 2 ^ 32) :
    (t.add s).Ok ∧ (t.add s).buckets.flatten.Perm
      (⟨t.next, ustrHash s, .ofNat s.length, s⟩ :: t.buckets.flatten) := by
  have hperm := Buckets.put_perm USymBlock.place h.pos
    ⟨t.next, ustrHash s, .ofNat s.length, s⟩
  refine ⟨⟨?_, h.placed.put _, ?_, ?_, ?_, ?_⟩, hperm⟩
  · show 0 < (Buckets.put _ _ _).length
    rw [Buckets.length_put]
    exact h.pos
  · -- the address is new
    apply ((hperm.map _).nodup_iff).mpr
    rw [List.map_cons, List.nodup_cons]
    refine ⟨?_, h.addrs⟩
    intro hmem
    obtain ⟨e, he, haddr⟩ := List.mem_map.mp hmem
    have hlt := h.fresh e he
    rw [haddr] at hlt
    exact Nat.lt_irrefl _ hlt
  · intro e he
    show e.addr < t.next + 1
    rcases List.mem_cons.mp (hperm.mem_iff.mp he) with rfl | hold
    · exact Nat.lt_succ_self _
    · exact Nat.lt_succ_of_lt (h.fresh e hold)
  · intro e he
    rcases List.mem_cons.mp (hperm.mem_iff.mp he) with rfl | hold
    · exact ⟨rfl, UInt32.toNat_ofNat_of_lt' hlen⟩
    · exact h.filled e hold
  · -- so is the string, or the scan would have found it
    apply ((hperm.map _).nodup_iff).mpr
    rw [List.map_cons, List.nodup_cons]
    refine ⟨?_, h.texts⟩
    intro hmem
    obtain ⟨e, he, hbytes⟩ := List.mem_map.mp hmem
    rw [h.find_iff.mpr ⟨he, hbytes⟩] at hnone
    cases hnone

end UStrTab

theorem usymIntern_spec {t : UStrTab} (h : t.Ok) {s : Bytes} (hlen : s.length < 2 ^ 32)
    (granted grown : Bool) : (usymIntern t s granted grown).2.Ok ∧
      (∀ e ∈ t.buckets.flatten, e ∈ (usymIntern t s granted grown).2.buckets.flatten) ∧
      ∀ p, (usymIntern t s granted grown).1 = some p →
        ∃ e ∈ (usymIntern t s granted grown).2.buckets.flatten, e.addr = p ∧ e.bytes = s := by
  unfold usymIntern
  cases hfind : t.find s with
  | some e =>
    obtain ⟨hmem, hbytes⟩ := h.find_iff.mp hfind
    exact ⟨h, fun _ he => he, fun p hp => ⟨e, hmem, Option.some.inj hp, hbytes⟩⟩
  | none =>
    cases granted with
    | false => exact ⟨h, fun _ he => he, nofun⟩
    | true =>
      obtain ⟨hadd, hperm⟩ := h.add hfind hlen
      -- the table holds the new symbol and the old ones, grown or not
      have key : ∀ t' : UStrTab, t'.Ok → t'.buckets.flatten.Perm (t.add s).buckets.flatten →
          t'.Ok ∧ (∀ e ∈ t.buckets.flatten, e ∈ t'.buckets.flatten) ∧
            ∀ p, some t.next = some p → ∃ e ∈ t'.buckets.flatten, e.addr = p ∧ e.bytes = s := by
        intro t' ht' hperm'
        have hall := hperm'.trans hperm
        refine ⟨ht', fun e he => hall.mem_iff.mpr (List.mem_cons_of_mem _ he), ?_⟩
        intro p hp
        exact ⟨_, hall.mem_iff.mpr List.mem_cons_self, Option.some.inj hp, rfl⟩
      simp only [if_true]
      split
      · exact key _ (hadd.grow grown).1 (hadd.grow grown).2
      · exact key _ hadd (List.Perm.refl _)

/-! ## Runs -/

inductive InternRun (S : Bytes → Prop) : List (Bytes × Option Nat) → UStrTab → Prop where
  | init : InternRun S [] ustrtabInit
  | call {log t} {s : Bytes} (granted grown : Bool) : InternRun S log t → S s →
      InternRun S (log ++ [(s, (usymIntern t s granted grown).1)]) (usymIntern t s granted grown).2

structure Interning (log : List (Bytes × Option Nat)) (t : UStrTab) : Prop where
  same : ∀ s s' p p', (s, some p) ∈ log → (s', some p') ∈ log → (p = p' ↔ s = s')
  /-- Every symbol given out still has its bytes. -/
  text : ∀ s p, (s, some p) ∈ log → t.text p = some s
  /-- Every symbol given out is found again, without the host. -/
  found : ∀ s p, (s, some p) ∈ log → ∀ granted grown, usymIntern t s granted grown = (some p, t)

theorem InternRun.inv {S : Bytes → Prop} (hS : ∀ s, S s → s.length < 2 ^ 32)
    {log : List (Bytes × Option Nat)} {t : UStrTab} (h : InternRun S log t) :
    t.Ok ∧ ∀ s p, (s, some p) ∈ log → ∃ e ∈ t.buckets.flatten, e.addr = p ∧ e.bytes = s := by
  induction h with
  | init => exact ⟨.init, nofun⟩
  | @call log t s granted grown _ hs ih =>
    obtain ⟨hok, hlog⟩ := ih
    obtain ⟨hok', hkeep, hnew⟩ := usymIntern_spec hok (hS s hs) granted grown
    refine ⟨hok', ?_⟩
    intro s' p hmem
    rcases List.mem_append.mp hmem with hold | hlast
    · obtain ⟨e, he, haddr, hbytes⟩ := hlog s' p hold
      exact ⟨e, hkeep e he, haddr, hbytes⟩
    · have heq := List.mem_singleton.mp hlast
      rw [Prod.mk.injEq] at heq
      rw [heq.1]
      exact hnew p heq.2.symm

theorem InternRun.interning {S : Bytes → Prop} (hS : ∀ s, S s → s.length < 2 ^ 32)
    {log : List (Bytes × Option Nat)} {t : UStrTab} (h : InternRun S log t) : Interning log t := by
  obtain ⟨hok, hlog⟩ := h.inv hS
  constructor
  · intro s s' p p' hp hp'
    obtain ⟨e, he, rfl, rfl⟩ := hlog s p hp
    obtain ⟨e', he', rfl, rfl⟩ := hlog s' p' hp'
    constructor
    · intro haddr
      rw [hok.eq_of_addr he he' haddr]
    · intro hbytes
      rw [hok.eq_of_bytes he he' hbytes]
  · intro s p hp
    obtain ⟨e, he, rfl, rfl⟩ := hlog s p hp
    exact hok.text_of_mem he
  · intro s p hp granted grown
    obtain ⟨e, he, rfl, rfl⟩ := hlog s p hp
    unfold usymIntern
    rw [hok.find_iff.mpr ⟨he, rfl⟩]

theorem UStrTab.find_long (t : UStrTab) {s : Bytes} (hlen : 2 ^ 32 ≤ s.length) :
    t.find s = none := by
  apply List.find?_eq_none.mpr
  intro e _ hfor
  simp only [USymBlock.isFor, Bool.and_eq_true, beq_iff_eq] at hfor
  have hlt := e.len.toNat_lt
  omega

theorem internRun_long {S : Bytes → Prop} {s : Bytes} (hs : S s) (hlen : 2 ^ 32 ≤ s.length) :
    ∃ t, InternRun S [(s, some 0), (s, some 1)] t := by
  have hnew : ∀ t : UStrTab, (usymIntern t s true false).1 = some t.next ∧
      (usymIntern t s true false).2.next = t.next + 1 := by
    intro t
    unfold usymIntern
    rw [t.find_long hlen]
    refine ⟨rfl, ?_⟩
    simp only [if_true]
    split <;> rfl
  have hrun := InternRun.call true false (.call true false .init hs) hs
  rw [(hnew ustrtabInit).1, (hnew (usymIntern ustrtabInit s true false).2).1,
    (hnew ustrtabInit).2] at hrun
  exact ⟨_, hrun⟩

/-- **Interning.**  Whatever the host refuses, strings and symbols correspond one to one, symbols
keep their bytes and are found again, exactly when every string is shorter than `2^32` bytes. -/
theorem interning_iff (S : Bytes → Prop) :
    (∀ log t, InternRun S log t → Interning log t) ↔ ∀ s, S s → s.length < 2 ^ 32 := by
  constructor
  · intro h s hs
    by_contra hlen
    obtain ⟨t, hrun⟩ := internRun_long hs (Nat.le_of_not_lt hlen)
    have hsame := (h _ _ hrun).same s s 0 1 (by simp) (by simp)
    exact absurd (hsame.mpr rfl) (by decide)
  · intro hS log t hrun
    exact hrun.interning hS

/-- Two short strings. -/
theorem interning_iff_short :
    ∀ log t, InternRun (fun s => s = [97] ∨ s = []) log t → Interning log t :=
  (interning_iff fun s => s = [97] ∨ s = []).mpr (by rintro s (rfl | rfl) <;> decide)

/-- `2^32` zero bytes, interned twice. -/
theorem interned_twice :
    ∃ (s : Bytes) (p q : Nat) (t : UStrTab), s = List.replicate (2 ^ 32) 0 ∧ p ≠ q ∧
      InternRun (fun _ => True) [(s, some p), (s, some q)] t := by
  have hlen : 2 ^ 32 ≤ (List.replicate (2 ^ 32) (0 : UInt8)).length := by
    rw [List.length_replicate]
  obtain ⟨t, hrun⟩ := internRun_long (S := fun _ => True) trivial hlen
  exact ⟨_, 0, 1, t, rfl, by decide, hrun⟩

end Urbi
