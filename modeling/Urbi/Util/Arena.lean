import Mathlib.Data.Int.Lemmas
import Mathlib.Data.List.Basic

/-!
# The arena

Whether a chunk has room is decided by sums that wrap, so a request near `SIZE_MAX` can be taken to a
chunk that has no room for it, and dies when the region is zeroed.  Every other call returns, and the
regions it has returned are sound.
-/

namespace Urbi.Util

def alignUp (n : Nat) : Nat := if n % 16 = 0 then n else n + (16 - n % 16)

structure UArenaChunk where
  mem : Nat
  size : Nat
  capacity : Nat
  used : Nat := 0

namespace UArenaChunk

/-- Behind the header. -/
def payload (c : UArenaChunk) : Nat := alignUp (c.mem + 24)

/-- `capacity` is what lies behind the header, by a difference that wraps. -/
def ofBlock (mem size : Nat) : UArenaChunk where
  mem := mem
  size := size
  capacity := (size + 2 ^ 64 - (alignUp (mem + 24) - mem)) % 2 ^ 64

def take (c : UArenaChunk) (need : Nat) : UArenaChunk :=
  { c with used := (c.used + need) % 2 ^ 64 }

/-- `urbi_zero` over the region stays in the block. -/
def zeroes (c : UArenaChunk) (need : Nat) : Bool :=
  need = 0 || c.payload + c.used + need ≤ c.mem + c.size

def Apart (c d : UArenaChunk) : Prop := c.mem + c.size ≤ d.mem ∨ d.mem + d.size ≤ c.mem

end UArenaChunk

/-- In the order of the links: the chunks from `head` on are `chain`. -/
structure UArena where
  before : List UArenaChunk := []
  chain : List UArenaChunk := []
  chunkSize : Nat
  isStatic : Bool
  oom : Bool := false

/-- The chunk it was cut from, as it was, and the size requested. -/
structure Region where
  chunk : UArenaChunk
  nbytes : Nat

namespace Region

def ptr (r : Region) : Nat := r.chunk.payload + r.chunk.used

def Has (r : Region) (x : Nat) : Prop := r.ptr ≤ x ∧ x < r.ptr + r.nbytes

end Region

namespace UArena

def chunks (a : UArena) : List UArenaChunk := a.before ++ a.chain

def init (chunkSize : Nat) : UArena where
  chunkSize := if chunkSize = 0 then 4096 else chunkSize
  isStatic := false

def initStatic (buf bufsz : Nat) : UArena where
  chain := if 24 + 16 ≤ bufsz then [.ofBlock buf bufsz] else []
  chunkSize := 0
  isStatic := true

def blockSize (a : UArena) (need : Nat) : Nat := (24 + 16 + max a.chunkSize need) % 2 ^ 64

def full (need : Nat) (c : UArenaChunk) : Bool := (c.used + need) % 2 ^ 64 > c.capacity

/-- `grant` is where the allocator finds the block of a new chunk.  Nothing is returned by a call that
writes past the end of a block. -/
def alloc (a : UArena) (nbytes : Nat) (grant : Option Nat) : Option (UArena × Option Region) :=
  if a.oom then some (a, none)
  else if 2 ^ 64 - 1 - 15 < nbytes then some ({ a with oom := true }, none)
  else
    let need := alignUp nbytes
    match a.chain.dropWhile (full need) with
    | c :: after =>
      if c.zeroes need then
        some ({ a with
            before := a.before ++ a.chain.takeWhile (full need), chain := c.take need :: after },
          some ⟨c, nbytes⟩)
      else none
    | [] =>
      match if a.isStatic then none else grant with
      | none => some ({ a with oom := true }, none)
      | some mem =>
        let c := UArenaChunk.ofBlock mem (a.blockSize need)
        if a.blockSize need < 24 || !c.zeroes need then none
        else
          -- linked behind the head, before what was behind it
          some ({ a with
              before := a.before ++ a.chain.take 1, chain := c.take need :: a.chain.drop 1 },
            some ⟨c, nbytes⟩)

def reset (a : UArena) : UArena :=
  { a with before := [], chain := a.chunks.map fun c => { c with used := 0 }, oom := false }

/-- The sum of what the chunk has handed out and the request, or the size of the block asked for, is
beyond a `size_t`. -/
def wraps (a : UArena) (nbytes : Nat) (grant : Option Nat) : Bool :=
  let need := alignUp nbytes
  if a.oom ∨ 2 ^ 64 - 1 - 15 < nbytes then false
  else match a.chain.dropWhile (full need) with
    | c :: _ => 2 ^ 64 ≤ c.used + need
    | [] => !a.isStatic && grant.isSome && 2 ^ 64 ≤ 24 + 16 + max a.chunkSize need

/-- By calls that return.  A block the allocator grants overlaps none that the arena has. -/
inductive Reaches : UArena → List Region → Prop
  | init (chunkSize : Nat) (h : 24 + 16 + chunkSize < 2 ^ 64) : Reaches (.init chunkSize) []
  | initStatic (buf bufsz : Nat) (h : bufsz < 2 ^ 64) : Reaches (.initStatic buf bufsz) []
  | alloc {a a' rs r} (nbytes : Nat) (grant : Option Nat) (h : Reaches a rs)
      (hgrant : ∀ mem ∈ grant, ∀ c ∈ a.chunks,
        (UArenaChunk.ofBlock mem (a.blockSize (alignUp nbytes))).Apart c)
      (hcall : a.alloc nbytes grant = some (a', r)) : Reaches a' (r.toList ++ rs)
  | reset {a rs} (h : Reaches a rs) : Reaches a.reset []

end UArena

/-! ## The chunks -/

variable {cs cs' : List UArenaChunk} {c : UArenaChunk} {rs : List Region} {n : Nat}

theorem alignUp_spec (n : Nat) : 16 ∣ alignUp n ∧ n ≤ alignUp n ∧ alignUp n ≤ n + 15 := by
  unfold alignUp
  split <;> omega

/-- What lies behind the header is the capacity. -/
structure UArenaChunk.Exact (c : UArenaChunk) : Prop where
  size : c.size < 2 ^ 64
  capacity : c.payload + c.capacity = c.mem + c.size
  used : c.used ≤ c.capacity
  aligned : 16 ∣ c.used

theorem UArenaChunk.exact_ofBlock {mem size : Nat} (h : 24 + 16 ≤ size) (hlt : size < 2 ^ 64) :
    (ofBlock mem size).Exact := by
  have halign := alignUp_spec (mem + 24)
  refine ⟨hlt, ?_, Nat.zero_le _, Nat.dvd_zero 16⟩
  simp only [payload, ofBlock]
  omega

theorem UArenaChunk.Exact.le (h : c.Exact) : c.mem + 24 ≤ c.payload ∧ c.capacity < 2 ^ 64 := by
  have hpay : c.mem + 24 ≤ c.payload := (alignUp_spec _).2.1
  have hcap := h.capacity
  have hsize := h.size
  omega

theorem UArenaChunk.Exact.take (h : c.Exact) (hroom : c.used + alignUp n ≤ c.capacity) :
    (c.take (alignUp n)).Exact := by
  have hround := (alignUp_spec n).1
  have hused : (c.take (alignUp n)).used = c.used + alignUp n :=
    Nat.mod_eq_of_lt (Nat.lt_of_le_of_lt hroom h.le.2)
  exact ⟨h.size, h.capacity, hused ▸ hroom, hused ▸ Nat.dvd_add h.aligned hround⟩

/-- The chunk that takes the request has the room, or the sum has wrapped and the zeroes leave the
block. -/
theorem UArenaChunk.Exact.serves (h : c.Exact) {need : Nat} (hfull : UArena.full need c = false) :
    if 2 ^ 64 ≤ c.used + need then c.zeroes need = false
    else c.zeroes need = true ∧ c.used + need ≤ c.capacity := by
  have hle := h.le
  have hcap := h.capacity
  have hused := h.used
  simp only [UArena.full, decide_eq_false_iff_not, Nat.not_lt] at hfull
  split
  · rename_i hwrap
    simp only [zeroes, Bool.or_eq_false_iff, decide_eq_false_iff_not]
    omega
  · rename_i hlt
    rw [Nat.mod_eq_of_lt (Nat.lt_of_not_le hlt)] at hfull
    simp only [zeroes, Bool.or_eq_true, decide_eq_true_eq]
    omega

structure Sane (cs : List UArenaChunk) : Prop where
  apart : cs.Pairwise UArenaChunk.Apart
  exact : ∀ c ∈ cs, c.Exact

theorem Sane.perm (h : Sane cs) (hp : cs'.Perm cs) : Sane cs' where
  apart := (hp.pairwise_iff Or.symm).mpr h.apart
  exact c hc := h.exact c (hp.mem_iff.mp hc)

theorem Sane.take (h : Sane (c :: cs)) (hroom : c.used + alignUp n ≤ c.capacity) :
    Sane (c.take (alignUp n) :: cs) where
  apart := .cons (List.pairwise_cons.mp h.apart).1 (List.pairwise_cons.mp h.apart).2
  exact := List.forall_mem_cons.mpr
    ⟨(h.exact c List.mem_cons_self).take hroom, (List.forall_mem_cons.mp h.exact).2⟩

namespace UArena

inductive Called (a : UArena) (nbytes : Nat) (grant : Option Nat) :
    Option (UArena × Option Region) → Prop
  | died (hwraps : a.wraps nbytes grant = true) : Called a nbytes grant none
  | refused {a' : UArena} (hwraps : a.wraps nbytes grant = false) (hoom : a'.oom = true)
      (hsize : a'.chunkSize = a.chunkSize) (hsame : a'.chunks = a.chunks) :
    Called a nbytes grant (some (a', none))
  | served {a' : UArena} {c : UArenaChunk} {l : List UArenaChunk}
      (hwraps : a.wraps nbytes grant = false) (hsize : a'.chunkSize = a.chunkSize)
      (hperm : a'.chunks.Perm (c.take (alignUp nbytes) :: l))
      (hroom : c.used + alignUp nbytes ≤ c.capacity)
      (hold : a.chunks.Perm (c :: l) ∨ a.chunks = l ∧ c.Exact ∧
        ∃ mem ∈ grant, c = .ofBlock mem (a.blockSize (alignUp nbytes))) :
    Called a nbytes grant (some (a', some ⟨c, nbytes⟩))

theorem called_alloc {a : UArena} (h : Sane a.chunks) (hsize : 24 + 16 + a.chunkSize < 2 ^ 64)
    (nbytes : Nat) (grant : Option Nat) : Called a nbytes grant (a.alloc nbytes grant) := by
  unfold alloc
  split
  · rename_i hoom
    exact .refused (if_pos (.inl hoom)) hoom rfl rfl
  rename_i hoom
  split
  · rename_i hbig
    exact .refused (if_pos (.inr hbig)) rfl rfl rfl
  rename_i hbig
  have hround := alignUp_spec nbytes
  dsimp only
  split
  · rename_i c after hdrop
    have hwraps : a.wraps nbytes grant = decide (2 ^ 64 ≤ c.used + alignUp nbytes) := by
      rw [wraps, if_neg (not_or.mpr ⟨hoom, hbig⟩), hdrop]
    have hchunks : a.chunks =
        a.before ++ a.chain.takeWhile (full (alignUp nbytes)) ++ c :: after := by
      rw [chunks, List.append_assoc, ← hdrop, List.takeWhile_append_dropWhile]
    have hfull : full (alignUp nbytes) c = false := by
      have hhead := List.head_dropWhile_not (full (alignUp nbytes)) (l := a.chain) (by simp [hdrop])
      simpa [hdrop] using hhead
    have hserves := (h.exact c (by simp [hchunks])).serves hfull
    split at hserves
    · rename_i hwrap
      rw [hserves]
      exact .died (by rw [hwraps, decide_eq_true hwrap])
    · rename_i hwrap
      rw [if_pos hserves.1]
      exact .served (by rw [hwraps, decide_eq_false hwrap]) rfl List.perm_middle hserves.2
        (.inl (hchunks ▸ List.perm_middle))
  rename_i hdrop
  have hwraps : a.wraps nbytes grant = (!a.isStatic && grant.isSome &&
      decide (2 ^ 64 ≤ 24 + 16 + max a.chunkSize (alignUp nbytes))) := by
    rw [wraps, if_neg (not_or.mpr ⟨hoom, hbig⟩), hdrop]
  split
  · rename_i hnone
    refine .refused ?_ rfl rfl rfl
    rw [hwraps]
    split at hnone <;> simp_all
  · rename_i mem hmem
    obtain ⟨hstatic, hgrant⟩ : a.isStatic = false ∧ grant = some mem := by
      split at hmem
      · cases hmem
      · exact ⟨by simp_all, hmem⟩
    rw [hstatic, hgrant, Bool.not_false, Option.isSome_some, Bool.true_and, Bool.true_and,
      ← hgrant] at hwraps
    by_cases hwrap : 2 ^ 64 ≤ 24 + 16 + max a.chunkSize (alignUp nbytes)
    · -- the block is small, and the request is not
      have hzeroes : (UArenaChunk.ofBlock mem (a.blockSize (alignUp nbytes))).zeroes
          (alignUp nbytes) = false := by
        have halign := alignUp_spec (mem + 24)
        refine Bool.or_eq_false_iff.mpr ⟨decide_eq_false (by omega), decide_eq_false ?_⟩
        simp only [UArenaChunk.payload, UArenaChunk.ofBlock, blockSize]
        omega
      rw [if_pos (by rw [hzeroes, Bool.not_false, Bool.or_true])]
      exact .died (by rw [hwraps, decide_eq_true hwrap])
    · have hblock : a.blockSize (alignUp nbytes) = 24 + 16 + max a.chunkSize (alignUp nbytes) :=
        Nat.mod_eq_of_lt (Nat.lt_of_not_le hwrap)
      have hexact : (UArenaChunk.ofBlock mem (a.blockSize (alignUp nbytes))).Exact :=
        UArenaChunk.exact_ofBlock (by omega) (by omega)
      have hfull : full (alignUp nbytes) (.ofBlock mem (a.blockSize (alignUp nbytes))) = false := by
        have halign := alignUp_spec (mem + 24)
        have hcap := hexact.capacity
        refine decide_eq_false ?_
        simp only [UArenaChunk.payload, UArenaChunk.ofBlock] at hcap ⊢
        omega
      have hserves := hexact.serves hfull
      rw [if_neg (by simp only [UArenaChunk.ofBlock]; omega)] at hserves
      obtain ⟨hzeroes, hroom⟩ := hserves
      have hheader : ¬ a.blockSize (alignUp nbytes) < 24 := by omega
      rw [if_neg (by simp [hzeroes, hheader])]
      refine .served (by rw [hwraps, decide_eq_false hwrap]) rfl List.perm_middle hroom
        (.inr ⟨?_, hexact, mem, hgrant, rfl⟩)
      rw [chunks, List.append_assoc, List.take_append_drop]

end UArena

structure Cut (cs : List UArenaChunk) (rs : List Region) : Prop where
  below : ∀ r ∈ rs, ∃ c ∈ cs, c.mem = r.chunk.mem ∧ c.size = r.chunk.size ∧
    r.chunk.used + r.nbytes ≤ c.used
  aligned : ∀ r ∈ rs, 16 ∣ r.chunk.used
  disjoint : rs.Pairwise fun r r' => ∀ x, r.Has x → ¬ r'.Has x

theorem Cut.nil : Cut cs [] := ⟨by simp, by simp, .nil⟩

theorem Cut.mono (h : Cut cs rs) (hcs : ∀ c ∈ cs, c ∈ cs') : Cut cs' rs where
  below r hr := by
    obtain ⟨c, hc, hr⟩ := h.below r hr
    exact ⟨c, hcs c hc, hr⟩
  aligned := h.aligned
  disjoint := h.disjoint

/-- In the payload of its chunk. -/
theorem Cut.inside (h : Cut cs rs) {r : Region} (hr : r ∈ rs) :
    ∃ c ∈ cs, c.mem = r.chunk.mem ∧ c.size = r.chunk.size ∧
      ∀ x, r.Has x → c.payload ≤ x ∧ x < c.payload + c.used := by
  obtain ⟨c, hc, hmem, hsize, hle⟩ := h.below r hr
  refine ⟨c, hc, hmem, hsize, fun x hx => ?_⟩
  have hpay : c.payload = r.chunk.payload := by rw [UArenaChunk.payload, hmem, UArenaChunk.payload]
  simp only [Region.Has, Region.ptr] at hx
  omega

theorem Cut.take (hs : Sane (c :: cs)) (h : Cut (c :: cs) rs)
    (hroom : c.used + alignUp n ≤ c.capacity) :
    Cut (c.take (alignUp n) :: cs) (⟨c, n⟩ :: rs) := by
  have hc := hs.exact c List.mem_cons_self
  have hround := alignUp_spec n
  have hused : (c.take (alignUp n)).used = c.used + alignUp n :=
    Nat.mod_eq_of_lt (Nat.lt_of_le_of_lt hroom hc.le.2)
  refine ⟨List.forall_mem_cons.mpr ⟨⟨_, List.mem_cons_self, rfl, rfl, ?_⟩, fun r hr => ?_⟩,
    List.forall_mem_cons.mpr ⟨hc.aligned, h.aligned⟩, .cons (fun r hr x hx hx' => ?_) h.disjoint⟩
  · rw [hused]
    exact Nat.add_le_add_left hround.2.1 _
  · obtain ⟨d, hd, hmem, hsize, hle⟩ := h.below r hr
    rcases List.mem_cons.mp hd with rfl | hd
    · exact ⟨_, List.mem_cons_self, hmem, hsize, by omega⟩
    · exact ⟨d, List.mem_cons_of_mem _ hd, hmem, hsize, hle⟩
  · obtain ⟨d, hd, -, -, hin⟩ := h.inside hr
    have hin := hin x hx'
    simp only [Region.Has, Region.ptr] at hx
    rcases List.mem_cons.mp hd with rfl | hd
    · omega
    · -- regions of two chunks are in two blocks
      have hapart := (List.pairwise_cons.mp hs.apart).1 d hd
      have hd' := hs.exact d (List.mem_cons_of_mem _ hd)
      have hcap := hc.capacity
      have hcap' := hd'.capacity
      have hle := hc.le
      have hle' := hd'.le
      have hused' := hd'.used
      unfold UArenaChunk.Apart at hapart
      omega

theorem reaches_sane {a : UArena} (h : UArena.Reaches a rs) :
    24 + 16 + a.chunkSize < 2 ^ 64 ∧ Sane a.chunks ∧ Cut a.chunks rs := by
  induction h with
  | init chunkSize hlt =>
    refine ⟨?_, ⟨.nil, by simp [UArena.chunks, UArena.init]⟩, .nil⟩
    simp only [UArena.init]
    split <;> omega
  | initStatic buf bufsz hlt =>
    refine ⟨by simp [UArena.initStatic], ?_, .nil⟩
    simp only [UArena.chunks, UArena.initStatic, List.nil_append]
    split
    · rename_i hbuf
      exact ⟨List.pairwise_singleton _ _,
        List.forall_mem_singleton.mpr (UArenaChunk.exact_ofBlock hbuf hlt)⟩
    · exact ⟨.nil, by simp⟩
  | @alloc a a' rs r nbytes grant _ hgrant hcall ih =>
    obtain ⟨hsize, hsane, hcut⟩ := ih
    have hcalled := UArena.called_alloc hsane hsize nbytes grant
    rw [hcall] at hcalled
    cases hcalled with
    | refused _ _ hsame hchunks =>
      rw [hsame, hchunks]
      exact ⟨hsize, hsane, hcut⟩
    | @served _ c l _ hsame hperm hroom hold =>
      have hbefore : Sane (c :: l) ∧ Cut (c :: l) rs := by
        rcases hold with hp | ⟨rfl, hexact, mem, hmem, rfl⟩
        · exact ⟨hsane.perm hp.symm, hcut.mono fun c hc => hp.mem_iff.mp hc⟩
        · exact ⟨⟨.cons (hgrant mem hmem) hsane.apart, List.forall_mem_cons.mpr ⟨hexact, hsane.exact⟩⟩,
            hcut.mono fun c hc => List.mem_cons_of_mem _ hc⟩
      exact ⟨hsame ▸ hsize, (hbefore.1.take hroom).perm hperm,
        (hbefore.2.take hbefore.1 hroom).mono fun c hc => hperm.mem_iff.mpr hc⟩
  | @reset a rs _ ih =>
    refine ⟨ih.1, ?_, .nil⟩
    have hchunks : a.reset.chunks = a.chunks.map fun c => { c with used := 0 } := rfl
    rw [hchunks]
    refine ⟨List.pairwise_map.mpr ih.2.1.apart, List.forall_mem_map.mpr fun c hc => ?_⟩
    have hexact := ih.2.1.exact c hc
    exact ⟨hexact.size, hexact.capacity, Nat.zero_le _, Nat.dvd_zero 16⟩

/-- Every region is aligned, lies in the payload of its chunk, and overlaps no other. -/
structure Sound (a : UArena) (rs : List Region) : Prop where
  aligned : ∀ r ∈ rs, 16 ∣ r.ptr
  inside : ∀ r ∈ rs, ∃ c ∈ a.chunks, c.mem = r.chunk.mem ∧ c.size = r.chunk.size ∧
    ∀ x, r.Has x → c.payload ≤ x ∧ x < c.mem + c.size
  disjoint : rs.Pairwise fun r r' => ∀ x, r.Has x → ¬ r'.Has x

/-- **Arena regions.**  The regions returned since the last reset are sound.  A call returns exactly if
none of its sums wraps, and one that returns no region sets the flag. -/
theorem regions_sound_iff {a : UArena} (h : UArena.Reaches a rs) :
    Sound a rs ∧ ∀ nbytes grant,
      ((a.alloc nbytes grant).isSome = true ↔ a.wraps nbytes grant = false) ∧
      ∀ a', a.alloc nbytes grant = some (a', none) → a'.oom = true := by
  obtain ⟨hsize, hsane, hcut⟩ := reaches_sane h
  refine ⟨⟨fun r hr => ?_, fun r hr => ?_, hcut.disjoint⟩, fun nbytes grant => ?_⟩
  · exact Nat.dvd_add (alignUp_spec _).1 (hcut.aligned r hr)
  · obtain ⟨c, hc, hmem, hsz, hin⟩ := hcut.inside hr
    refine ⟨c, hc, hmem, hsz, fun x hx => ⟨(hin x hx).1, ?_⟩⟩
    have hlt := (hin x hx).2
    have hcap := (hsane.exact c hc).capacity
    have hused := (hsane.exact c hc).used
    omega
  · have hcalled := UArena.called_alloc hsane hsize nbytes grant
    generalize a.alloc nbytes grant = out at hcalled
    cases hcalled with
    | died hwraps => simp [hwraps]
    | refused hwraps hoom => simp [hwraps, hoom]
    | served hwraps => simp [hwraps]

/-- The second request does not fit the chunk of the first. -/
theorem regions_sound_twoChunks :
    ∃ a rs, UArena.Reaches a rs ∧ rs.map Region.ptr = [8224, 4128] ∧ Sound a rs := by
  have hfirst : UArena.Reaches _ [⟨.ofBlock 4096 104, 48⟩] :=
    .alloc 48 (some 4096) (.init 64 (by decide)) (by simp [UArena.init, UArena.chunks]) rfl
  have hsecond := UArena.Reaches.alloc 100 (some 8192) hfirst (by
    rintro _ ⟨⟩ c hc
    obtain rfl := List.mem_singleton.mp hc
    exact .inr (by decide)) rfl
  exact ⟨_, _, hsecond, rfl, (regions_sound_iff hsecond).1⟩

/-- The sum wraps to nothing, and `urbi_zero` runs over the end of the buffer. -/
theorem arena_call_dies :
    ∃ a rs, UArena.Reaches a rs ∧ a.oom = false ∧ a.isStatic = true ∧
      a.alloc (2 ^ 64 - 16) none = none :=
  ⟨_, _, .alloc 16 none (.initStatic 4096 4096 (by decide)) (by simp) rfl, rfl, rfl, by decide⟩

end Urbi.Util
