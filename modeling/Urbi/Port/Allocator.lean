import Mathlib.Algebra.BigOperators.Group.List.Basic
import Mathlib.Algebra.Order.Ring.Nat
import Mathlib.Data.List.Pairwise

/-!
# The bare-metal heap

`port/port_allocator.c` on the M4, where a `size_t` has 32 bits.  The sums that round a request up and
compare it with the heap wrap, so a request near `SIZE_MAX` can be granted a block that has no room
for it.
-/

namespace Urbi.Port

def align8 (n : Nat) : Nat := (n + 7) % 2 ^ 32 / 8 * 8

/-- No object of C has more than `PTRDIFF_MAX` bytes. -/
structure Heap where
  base : Nat
  bytes : Nat
  aligned : 8 ∣ base
  bytes_lt : bytes < 2 ^ 31

structure Block where
  addr : Nat
  size : Nat
  deriving DecidableEq

def Block.Apart (b c : Block) : Prop := b.addr + b.size ≤ c.addr ∨ c.addr + c.size ≤ b.addr

structure Grant extends Block where
  requested : Nat
  deriving DecidableEq

/-- Past the header, whose twelve bytes are rounded up to sixteen. -/
def Grant.ptr (g : Grant) : Nat := g.addr + 16

structure Alloc where
  top : Nat := 0
  live : List Grant := []
  free : List Block := []
  liveBytes : Nat := 0
  mem : Nat → UInt8

/-! ## The code -/

def store32 (mem : Nat → UInt8) (a v : Nat) : Nat → UInt8 := fun x =>
  if a ≤ x ∧ x < a + 4 then UInt8.ofNat (v / 2 ^ (8 * (x - a))) else mem x

def link (bs : List Block) : Nat := bs.head?.elim 0 Block.addr

def firstFit (fits : Block → Bool) : List Block → Option (List Block × Block × List Block)
  | [] => none
  | b :: bs =>
    if fits b then some ([], b, bs)
    else (firstFit fits bs).map fun (before, h, behind) => (b :: before, h, behind)

/-- A good fit, or else any. -/
def freelistPopFit (need : Nat) (bs : List Block) : Option (List Block × Block × List Block) :=
  (firstFit (fun b => need ≤ b.size && b.size < need * 2 % 2 ^ 32) bs).or
    (firstFit (fun b => need ≤ b.size) bs)

def unlink (mem : Nat → UInt8) (before behind : List Block) : Nat → UInt8 :=
  before.getLast?.elim mem fun prev => store32 mem (prev.addr + 4) (link behind)

namespace Alloc

def grant (st : Alloc) (h : Block) (nbytes : Nat) : Alloc × Option Grant :=
  ({ st with
      live := ⟨h, nbytes⟩ :: st.live
      liveBytes := (st.liveBytes + nbytes) % 2 ^ 32
      mem := store32 st.mem (h.addr + 8) nbytes }, some ⟨h, nbytes⟩)

def fresh (H : Heap) (st : Alloc) (nbytes : Nat) : Alloc × Option Grant :=
  let total := (align8 nbytes + 16) % 2 ^ 32
  match freelistPopFit total st.free with
  | some (before, h, behind) =>
    let mem := unlink st.mem before behind
    let free := before ++ behind
    if 16 + 64 ≤ h.size - total then
      let tail : Block := ⟨h.addr + total, h.size - total⟩
      let mem := store32 (store32 mem tail.addr tail.size) (tail.addr + 4) (link free)
      { st with free := tail :: free, mem := store32 mem h.addr total }.grant ⟨h.addr, total⟩ nbytes
    else { st with free := free, mem := mem }.grant h nbytes
  | none =>
    if H.bytes < (st.top + total) % 2 ^ 32 then (st, none)
    else
      let h : Block := ⟨H.base + st.top, total⟩
      let mem := store32 (store32 st.mem h.addr total) (h.addr + 4) 0
      { st with top := (st.top + total) % 2 ^ 32, mem := mem }.grant h nbytes

def release (st : Alloc) (g : Grant) : Alloc :=
  { st with
    live := st.live.erase g
    free := g.toBlock :: st.free
    liveBytes := (st.liveBytes + 2 ^ 32 - g.requested) % 2 ^ 32
    mem := store32 st.mem (g.addr + 4) (link st.free) }

def memcpy (mem : Nat → UInt8) (dst src n : Nat) : Nat → UInt8 := fun x =>
  if dst ≤ x ∧ x < dst + n then mem (src + (x - dst)) else mem x

def realloc (H : Heap) (st : Alloc) (g : Grant) (nbytes : Nat) : Alloc × Option Grant :=
  let oldPayload := (g.size + 2 ^ 32 - 16) % 2 ^ 32
  if align8 nbytes ≤ oldPayload then
    ({ st with
        live := { g with requested := nbytes } :: st.live.erase g
        liveBytes := (st.liveBytes + 2 ^ 32 - g.requested + nbytes) % 2 ^ 32
        mem := store32 st.mem (g.addr + 8) nbytes }, some { g with requested := nbytes })
  else
    match st.fresh H nbytes with
    | (st', none) => (st', none)
    | (st', some g') =>
      (release { st' with mem := memcpy st'.mem g'.ptr g.ptr oldPayload } g, some g')

def portAlloc (H : Heap) (st : Alloc) (ptr : Option Grant) (nbytes : Nat) : Alloc × Option Grant :=
  match ptr with
  | none => if nbytes = 0 then (st, none) else st.fresh H nbytes
  | some g => if nbytes = 0 then (st.release g, none) else st.realloc H g nbytes

def blocks (st : Alloc) : List Block := st.live.map Grant.toBlock ++ st.free

end Alloc

/-! ## Tilings -/

variable {H : Heap} {st st' : Alloc} {bs bs' before behind : List Block} {b c h : Block} {g : Grant}
  {gs : List Grant} {mem mem' : Nat → UInt8} {top n m a a' v v' x : Nat}

def Block.Has (b : Block) (x : Nat) : Prop := b.addr ≤ x ∧ x < b.addr + b.size

structure Tiled (H : Heap) (top : Nat) (bs : List Block) : Prop where
  top_le : top ≤ H.bytes
  top_dvd : 8 ∣ top
  each : ∀ b ∈ bs, 8 ∣ b.addr ∧ 16 ≤ b.size ∧ H.base ≤ b.addr ∧ b.addr + b.size ≤ H.base + top
  apart : bs.Pairwise Block.Apart
  total : (bs.map Block.size).sum = top

theorem Tiled.perm (h : Tiled H top bs) (hp : bs'.Perm bs) : Tiled H top bs' where
  top_le := h.top_le
  top_dvd := h.top_dvd
  each b hb := h.each b (hp.mem_iff.mp hb)
  apart := (hp.pairwise_iff Or.symm).mpr h.apart
  total := (hp.map _).sum_eq.trans h.total

theorem Tiled.split (ht : Tiled H top (h :: bs)) (hdvd : 8 ∣ n) (hn : 16 ≤ n)
    (hle : n + 16 ≤ h.size) : Tiled H top (⟨h.addr, n⟩ :: ⟨h.addr + n, h.size - n⟩ :: bs) := by
  obtain ⟨heach, hrest⟩ := List.forall_mem_cons.mp ht.each
  obtain ⟨hapart, hbs⟩ := List.pairwise_cons.mp ht.apart
  have htotal := ht.total
  rw [List.map_cons, List.sum_cons] at htotal
  refine ⟨ht.top_le, ht.top_dvd, List.forall_mem_cons.mpr ⟨by dsimp only; omega,
    List.forall_mem_cons.mpr ⟨by dsimp only; omega, hrest⟩⟩,
    .cons (List.forall_mem_cons.mpr ⟨.inl (Nat.le_refl _), fun b hb => ?_⟩)
      (.cons (fun b hb => ?_) hbs), ?_⟩
  · have := hapart b hb
    unfold Block.Apart at this ⊢
    dsimp only
    omega
  · have := hapart b hb
    unfold Block.Apart at this ⊢
    dsimp only
    omega
  · simp only [List.map_cons, List.sum_cons]
    omega

theorem Tiled.bump (ht : Tiled H top bs) (hdvd : 8 ∣ n) (hn : 16 ≤ n) (hle : top + n ≤ H.bytes) :
    Tiled H (top + n) (⟨H.base + top, n⟩ :: bs) where
  top_le := hle
  top_dvd := Nat.dvd_add ht.top_dvd hdvd
  each := by
    have := H.aligned
    have := ht.top_dvd
    refine List.forall_mem_cons.mpr ⟨by dsimp only; omega, fun b hb => ?_⟩
    have := ht.each b hb
    omega
  apart := .cons (fun b hb => .inr (ht.each b hb).2.2.2) ht.apart
  total := by
    rw [List.map_cons, List.sum_cons, ht.total, Nat.add_comm]

theorem mem_tiles (hg : g ∈ gs) : g.toBlock ∈ gs.map Grant.toBlock ++ bs :=
  List.mem_append_left _ (List.mem_map_of_mem hg)

theorem store32_of_apart (hbc : b.Apart c) (ha : b.addr ≤ a ∧ a + 4 ≤ b.addr + b.size)
    (hx : c.Has x) : store32 mem a v x = mem x := by
  unfold Block.Apart at hbc
  unfold Block.Has at hx
  exact if_neg (by omega)

/-! ## Headers -/

/-- The four bytes at `a` are those of `v`. -/
def Holds (mem : Nat → UInt8) (a v : Nat) : Prop :=
  ∀ i < 4, mem (a + i) = UInt8.ofNat (v / 2 ^ (8 * i))

def Linked (mem : Nat → UInt8) : List Block → Prop
  | [] => True
  | b :: bs => Holds mem (b.addr + 4) (link bs) ∧ Linked mem bs

/-- What the code reads of the headers in memory. -/
structure Headers (mem : Nat → UInt8) (live : List Grant) (free : List Block) : Prop where
  size : ∀ b ∈ live.map Grant.toBlock ++ free, Holds mem b.addr b.size
  requested : ∀ g ∈ live, Holds mem (g.addr + 8) g.requested
  next : Linked mem free

theorem holds_store32 : Holds (store32 mem a v) a v := fun i hi => by
  rw [store32, if_pos (by omega), Nat.add_sub_cancel_left]

theorem Holds.keep (h : Holds mem a v) (hkeep : ∀ i < 4, mem' (a + i) = mem (a + i)) :
    Holds mem' a v := fun i hi => (hkeep i hi).trans (h i hi)

theorem Holds.store (h : Holds mem a v) (ha : a + 4 ≤ a' ∨ a' + 4 ≤ a) :
    Holds (store32 mem a' v') a v := h.keep fun _ _ => if_neg (by omega)

theorem Linked.keep (h : Linked mem bs)
    (hkeep : ∀ b ∈ bs, ∀ i < 12, mem' (b.addr + i) = mem (b.addr + i)) : Linked mem' bs := by
  induction bs with
  | nil => trivial
  | cons b bs ih =>
    obtain ⟨hb, hbs⟩ := List.forall_mem_cons.mp hkeep
    exact ⟨h.1.keep fun i hi => by rw [Nat.add_assoc, hb _ (by omega)], ih h.2 hbs⟩

theorem Headers.keep (h : Headers mem gs bs) (hkeep : ∀ b ∈ gs.map Grant.toBlock ++ bs, ∀ i < 12,
    mem' (b.addr + i) = mem (b.addr + i)) : Headers mem' gs bs where
  size b hb := (h.size b hb).keep fun i hi => hkeep b hb i (by omega)
  requested g hg := (h.requested g hg).keep fun i hi => by
    rw [Nat.add_assoc]
    exact hkeep _ (mem_tiles hg) _ (by omega)
  next := h.next.keep fun b hb => hkeep b (List.mem_append_right _ hb)

theorem Headers.store (h : Headers mem gs bs) (ht : Tiled H top (c :: (gs.map Grant.toBlock ++ bs)))
    (ha : c.addr ≤ a ∧ a + 4 ≤ c.addr + c.size) : Headers (store32 mem a v) gs bs :=
  h.keep fun b hb i hi => by
    have := (ht.each b (.tail _ hb)).2.1
    exact store32_of_apart ((List.pairwise_cons.mp ht.apart).1 b hb) ha
      (show b.addr ≤ _ ∧ _ by omega)

theorem Headers.consLive (h : Headers mem gs bs) (hsize : Holds mem g.addr g.size)
    (hreq : Holds mem (g.addr + 8) g.requested) : Headers mem (g :: gs) bs :=
  ⟨List.forall_mem_cons.mpr ⟨hsize, h.size⟩, List.forall_mem_cons.mpr ⟨hreq, h.requested⟩, h.next⟩

theorem Headers.consFree (h : Headers mem gs bs) (hsize : Holds mem b.addr b.size)
    (hnext : Holds mem (b.addr + 4) (link bs)) : Headers mem gs (b :: bs) := by
  obtain ⟨hgs, hbs⟩ := List.forall_mem_append.mp h.size
  exact ⟨List.forall_mem_append.mpr ⟨hgs, List.forall_mem_cons.mpr ⟨hsize, hbs⟩⟩, h.requested,
    hnext, h.next⟩

def Block.Clear (b c : Block) : Prop := b.addr + 16 ≤ c.addr ∨ c.addr + 16 ≤ b.addr

instance : Std.Symm Block.Apart := ⟨fun _ _ => Or.symm⟩

instance : Std.Symm Block.Clear := ⟨fun _ _ => Or.symm⟩

theorem Tiled.clear (ht : Tiled H top bs) : bs.Pairwise Block.Clear :=
  ht.apart.imp_of_mem fun {b c} hb hc hapart => by
    have := (ht.each b hb).2.1
    have := (ht.each c hc).2.1
    unfold Block.Apart at hapart
    unfold Block.Clear
    omega

theorem unlink_of_outside (h : ∀ p ∈ before, x < p.addr + 4 ∨ p.addr + 8 ≤ x) :
    unlink mem before behind x = mem x := by
  unfold unlink
  cases hlast : before.getLast? with
  | none => rfl
  | some prev =>
    have := h prev (List.mem_of_getLast? hlast)
    exact if_neg (by omega)

theorem Linked.unlink (h : Linked mem (before ++ b :: behind))
    (hclear : (before ++ behind).Pairwise Block.Clear) :
    Linked (unlink mem before behind) (before ++ behind) := by
  induction before with
  | nil => exact h.2
  | cons p before ih =>
    obtain ⟨hp, hrest⟩ := List.pairwise_cons.mp hclear
    unfold Block.Clear at hp
    cases before with
    | nil =>
      refine ⟨holds_store32, h.2.2.keep fun c hc i hi => unlink_of_outside ?_⟩
      have := hp c hc
      simp only [List.mem_singleton, forall_eq]
      omega
    | cons q before =>
      -- the link from `p` to `q` stays
      have heq : Port.unlink mem (p :: q :: before) behind = Port.unlink mem (q :: before) behind := by
        rw [Port.unlink, List.getLast?_cons_cons]
        rfl
      rw [heq]
      refine ⟨h.1.keep fun i hi => unlink_of_outside fun c hc => ?_, ih h.2 hrest⟩
      have := hp c (List.mem_append_left _ hc)
      omega

theorem Headers.unlink (h : Headers mem gs (before ++ b :: behind))
    (ht : Tiled H top (gs.map Grant.toBlock ++ (before ++ b :: behind))) :
    Headers (unlink mem before behind) gs (before ++ behind) ∧
      Holds (unlink mem before behind) b.addr b.size := by
  -- a field of a header that is not its link
  have hfield : ∀ c ∈ gs.map Grant.toBlock ++ (before ++ b :: behind), ∀ {k v}, k = 0 ∨ k = 8 →
      Holds mem (c.addr + k) v → Holds (Port.unlink mem before behind) (c.addr + k) v := by
    intro c hc k v hk hv
    refine hv.keep fun i hi => unlink_of_outside fun p hp => ?_
    by_cases hcp : c = p
    · subst hcp
      omega
    · have := ht.clear.forall hc (by simp [hp]) hcp
      unfold Block.Clear at this
      omega
  have hsize := fun c hc => hfield c hc (.inl rfl) (h.size c hc)
  refine ⟨⟨fun c hc => hsize c ?_, fun g hg => ?_, h.next.unlink ?_⟩, hsize b (by simp)⟩
  · simp only [List.mem_append, List.mem_cons] at hc ⊢
    tauto
  · exact hfield _ (mem_tiles hg) (.inr rfl) (h.requested g hg)
  · refine (List.pairwise_append.mp ht.clear).2.1.sublist ?_
    exact (List.sublist_cons_self b behind).append_left before

/-! ## One call -/

theorem firstFit_spec {fits : Block → Bool}
    (hfit : firstFit fits bs = some (before, h, behind)) :
    bs = before ++ h :: behind ∧ fits h = true := by
  induction bs generalizing before with
  | nil => cases hfit
  | cons b bs ih =>
    unfold firstFit at hfit
    split at hfit
    · cases hfit
      exact ⟨rfl, ‹_›⟩
    · obtain ⟨⟨before', h', behind'⟩, hrest, heq⟩ := Option.map_eq_some_iff.mp hfit
      cases heq
      obtain ⟨rfl, hfits⟩ := ih hrest
      exact ⟨rfl, hfits⟩

theorem freelistPopFit_spec (hpop : freelistPopFit n bs = some (before, h, behind)) :
    bs = before ++ h :: behind ∧ n ≤ h.size := by
  rcases Option.or_eq_some_iff.mp hpop with hgood | ⟨-, hany⟩
  · obtain ⟨heq, hfits⟩ := firstFit_spec hgood
    rw [Bool.and_eq_true, decide_eq_true_eq] at hfits
    exact ⟨heq, hfits.1⟩
  · obtain ⟨heq, hfits⟩ := firstFit_spec hany
    exact ⟨heq, of_decide_eq_true hfits⟩

theorem align8_spec (hn : n + 16 ≤ H.bytes) :
    (align8 n + 16) % 2 ^ 32 = align8 n + 16 ∧ 8 ∣ align8 n ∧ n ≤ align8 n ∧ align8 n ≤ n + 7 := by
  have := H.bytes_lt
  unfold align8
  omega

structure Inv (H : Heap) (st : Alloc) : Prop where
  tiled : Tiled H st.top st.blocks
  room : ∀ g ∈ st.live, g.requested + 16 ≤ g.size
  counter : st.liveBytes = (st.live.map Grant.requested).sum
  headers : Headers st.mem st.live st.free

theorem Inv.rewrite (hi : Inv H st) (hkeep : ∀ b ∈ st.blocks, ∀ i < 12,
    mem (b.addr + i) = st.mem (b.addr + i)) : Inv H { st with mem := mem } :=
  { hi with headers := hi.headers.keep hkeep }

theorem Inv.write (hi : Inv H st) (hg : g ∈ st.live) (ha : a < g.requested) (v : UInt8) :
    Inv H { st with mem := Function.update st.mem (g.ptr + a) v } := by
  refine hi.rewrite fun b hb i hlt => Function.update_of_ne (fun he => ?_) _ _
  have hroom := hi.room g hg
  unfold Grant.ptr at he
  by_cases hbg : b = g.toBlock
  · subst hbg
    omega
  · have hapart := hi.tiled.apart.forall hb (mem_tiles hg) hbg
    have := (hi.tiled.each b hb).2.1
    unfold Block.Apart at hapart
    omega

theorem sum_requested_le (hroom : ∀ g ∈ gs, g.requested + 16 ≤ g.size) :
    (gs.map Grant.requested).sum ≤ ((gs.map Grant.toBlock).map Block.size).sum := by
  induction gs with
  | nil => exact Nat.le_refl _
  | cons g gs ih =>
    obtain ⟨hg, hgs⟩ := List.forall_mem_cons.mp hroom
    have := ih hgs
    simp only [List.map_cons, List.sum_cons]
    omega

theorem Inv.sum_le (hi : Inv H st) : (st.live.map Grant.requested).sum ≤ st.top := by
  have hle := sum_requested_le hi.room
  have htotal := hi.tiled.total
  rw [Alloc.blocks, List.map_append, List.sum_append] at htotal
  omega

theorem Inv.size_of_live (hi : Inv H st) (hg : g ∈ st.live) : Holds st.mem g.addr g.size :=
  hi.headers.size _ (mem_tiles hg)

theorem Inv.apart_free (hi : Inv H st) (hg : g ∈ st.live) (hb : b ∈ st.free) : b.Apart g.toBlock :=
  Or.symm ((List.pairwise_append.mp hi.tiled.apart).2.2 _ (List.mem_map_of_mem hg) b hb)

/-- From `st` the block `h` is taken for a request of `n` bytes, which leaves `st'`. -/
structure Carved (H : Heap) (st : Alloc) (n : Nat) (st' : Alloc) (h : Block) : Prop where
  live : st'.live = st.live
  liveBytes : st'.liveBytes = st.liveBytes
  room : align8 n + 16 ≤ h.size
  tiled : Tiled H st'.top (h :: st'.blocks)
  mem : ∀ g ∈ st.live, ∀ x, g.Has x → st'.mem x = st.mem x
  headers : Headers st'.mem st'.live st'.free
  size : Holds st'.mem h.addr h.size

theorem Carved.apart (hc : Carved H st n st' h) (hg : g ∈ st.live) : h.Apart g.toBlock :=
  (List.pairwise_cons.mp hc.tiled.apart).1 _ (mem_tiles (hc.live ▸ hg))

theorem Carved.inv (hc : Carved H st n st' h) (hi : Inv H st) (hn : n ≤ align8 n) :
    Inv H (st'.grant h n).1 := by
  have := hc.room
  have hroom : ∀ g ∈ (⟨h, n⟩ :: st'.live : List Grant), g.requested + 16 ≤ g.size :=
    List.forall_mem_cons.mpr ⟨by dsimp only; omega, hc.live ▸ hi.room⟩
  have hle := sum_requested_le hroom
  have htotal := hc.tiled.total
  have := hc.tiled.top_le
  have := H.bytes_lt
  simp only [Alloc.blocks, List.map_cons, List.map_append, List.sum_cons, List.sum_append]
    at hle htotal
  refine ⟨hc.tiled, hroom, ?_, ?_⟩
  · simp only [Alloc.grant, List.map_cons, List.sum_cons, hc.liveBytes, hi.counter, ← hc.live]
    omega
  · exact (hc.headers.store hc.tiled (by omega)).consLive (hc.size.store (.inl (by omega)))
      holds_store32

theorem Inv.popped (hi : Inv H st)
    (hpop : freelistPopFit (align8 n + 16) st.free = some (before, h, behind)) :
    Carved H st n { st with free := before ++ behind, mem := unlink st.mem before behind } h := by
  obtain ⟨hfree, hsize⟩ := freelistPopFit_spec hpop
  have hperm : (h :: (st.live.map Grant.toBlock ++ (before ++ behind))).Perm st.blocks := by
    rw [Alloc.blocks, hfree, ← List.append_assoc, ← List.append_assoc]
    exact List.perm_middle.symm
  have hwhole : Tiled H st.top (st.live.map Grant.toBlock ++ (before ++ h :: behind)) :=
    hfree ▸ hi.tiled
  obtain ⟨hhead, hsz⟩ := Headers.unlink (hfree ▸ hi.headers) hwhole
  refine ⟨rfl, rfl, hsize, hi.tiled.perm hperm, fun g hg x hx => ?_, hhead, hsz⟩
  refine unlink_of_outside fun p hp => ?_
  have hp : p ∈ st.free := by simp [hfree, hp]
  have hapart := hi.apart_free hg hp
  have := (hi.tiled.each p (List.mem_append_right _ hp)).2.1
  unfold Block.Apart at hapart
  unfold Block.Has at hx
  omega

theorem Carved.split (hc : Carved H st n st' h) (hdvd : 8 ∣ m) (hm : align8 n + 16 ≤ m)
    (hlarge : 16 + 64 ≤ h.size - m) :
    Carved H st n { st' with
      free := ⟨h.addr + m, h.size - m⟩ :: st'.free
      mem := store32 (store32 (store32 st'.mem (h.addr + m) (h.size - m)) (h.addr + m + 4)
        (link st'.free)) h.addr m } ⟨h.addr, m⟩ where
  live := hc.live
  liveBytes := hc.liveBytes
  room := hm
  tiled := (hc.tiled.split hdvd (by omega) (by omega)).perm (.cons _ List.perm_middle)
  mem g hg x hx := by
    have hapart := hc.apart hg
    dsimp only
    rw [store32_of_apart hapart (by omega) hx, store32_of_apart hapart (by omega) hx,
      store32_of_apart hapart (by omega) hx]
    exact hc.mem g hg x hx
  headers := by
    refine Headers.consFree (((hc.headers.store hc.tiled ?_).store hc.tiled ?_).store hc.tiled ?_)
      ((holds_store32.store ?_).store ?_) (holds_store32.store ?_) <;> omega
  size := holds_store32

theorem Inv.bumped (hi : Inv H st) (hdvd : 8 ∣ m) (hm : align8 n + 16 ≤ m)
    (hfits : st.top + m ≤ H.bytes) :
    Carved H st n { st with
      top := st.top + m
      mem := store32 (store32 st.mem (H.base + st.top) m) (H.base + st.top + 4) 0 }
      ⟨H.base + st.top, m⟩ := by
  have htiled := hi.tiled.bump hdvd (by omega) hfits
  refine ⟨rfl, rfl, hm, htiled, fun g hg x hx => ?_,
    (hi.headers.store htiled (by dsimp only; omega)).store htiled (by dsimp only; omega),
    holds_store32.store (by omega)⟩
  have hapart : Block.Apart ⟨H.base + st.top, m⟩ g.toBlock :=
    .inr (hi.tiled.each _ (mem_tiles hg)).2.2.2
  dsimp only
  rw [store32_of_apart hapart (by dsimp only; omega) hx,
    store32_of_apart hapart (by dsimp only; omega) hx]

theorem fresh_eq (H : Heap) (st : Alloc) (n : Nat) :
    st.fresh H n = (st, none) ∨ ∃ (st' : Alloc) (h : Block), st.fresh H n = st'.grant h n := by
  unfold Alloc.fresh
  dsimp only
  split
  · split <;> exact .inr ⟨_, _, rfl⟩
  · split
    · exact .inl rfl
    · exact .inr ⟨_, _, rfl⟩

theorem fresh_cases (hi : Inv H st) (hgrant : ∀ g ∈ (st.fresh H n).2, n + 16 ≤ H.bytes) :
    st.fresh H n = (st, none) ∨
      ∃ (st' : Alloc) (h : Block), st.fresh H n = st'.grant h n ∧ Carved H st n st' h := by
  rcases fresh_eq H st n with hnone | ⟨st', h, heq⟩
  · exact .inl hnone
  have hlt := hgrant _ (by rw [heq]; rfl)
  obtain ⟨htotal, hdvd, -, hup⟩ := align8_spec hlt
  have htop := hi.tiled.top_le
  have hbytes := H.bytes_lt
  unfold Alloc.fresh
  simp only [htotal]
  split
  · rename_i before h behind hpop
    right
    split
    · rename_i hlarge
      exact ⟨_, _, rfl, (hi.popped hpop).split (by omega) le_rfl hlarge⟩
    · exact ⟨_, _, rfl, hi.popped hpop⟩
  · have hwrap : (st.top + (align8 n + 16)) % 2 ^ 32 = st.top + (align8 n + 16) := by omega
    rw [hwrap]
    split
    · exact .inl rfl
    · rename_i hfits
      exact .inr ⟨_, _, rfl, hi.bumped (by omega) le_rfl (Nat.le_of_not_lt hfits)⟩

structure Served (H : Heap) (st : Alloc) (n : Nat) (r : Alloc × Option Grant) : Prop where
  inv : Inv H r.1
  granted : ∀ g ∈ r.2, g ∈ r.1.live ∧ g.requested = n
  refused : n ≠ 0 → r.2 = none → r.1 = st

theorem Served.none (hi : Inv H st) : Served H st n (st, none) := ⟨hi, by simp, fun _ _ => rfl⟩

theorem fresh_served (hi : Inv H st) (hgrant : ∀ g ∈ (st.fresh H n).2, n + 16 ≤ H.bytes) :
    Served H st n (st.fresh H n) := by
  rcases fresh_cases hi hgrant with heq | ⟨st', h, heq, hc⟩
  · rw [heq]
    exact .none hi
  · obtain ⟨-, -, hle, -⟩ := align8_spec (hgrant _ (by rw [heq]; rfl))
    rw [heq]
    refine ⟨hc.inv hi hle, ?_, fun _ h => by cases h⟩
    rintro _ ⟨⟩
    exact ⟨.head _, rfl⟩

theorem sum_erase (hg : g ∈ gs) :
    (gs.map Grant.requested).sum = g.requested + ((gs.erase g).map Grant.requested).sum :=
  ((List.perm_cons_erase hg).map Grant.requested).sum_eq

/-- A block that is live again, or on the free list, is where it was. -/
theorem perm_erase (hg : g ∈ gs) :
    (g.toBlock :: ((gs.erase g).map Grant.toBlock ++ bs)).Perm (gs.map Grant.toBlock ++ bs) :=
  ((List.perm_cons_erase hg).symm.map Grant.toBlock).append_right bs

theorem Headers.erase (h : Headers mem gs bs) (hg : g ∈ gs) : Headers mem (gs.erase g) bs where
  size b hb := h.size b ((perm_erase hg).subset (.tail _ hb))
  requested g' hg' := h.requested g' (List.mem_of_mem_erase hg')
  next := h.next

theorem Inv.release (hi : Inv H st) (hg : g ∈ st.live) : Inv H (st.release g) where
  tiled := hi.tiled.perm (List.perm_middle.trans (perm_erase hg))
  room g' hg' := hi.room g' (List.mem_of_mem_erase hg')
  headers := by
    have := hi.room g hg
    exact ((hi.headers.erase hg).store (hi.tiled.perm (perm_erase hg)) (by omega)).consFree
      ((hi.size_of_live hg).store (.inl (Nat.le_refl _))) holds_store32
  counter := by
    have hsum := sum_erase hg
    have := hi.sum_le
    have := hi.tiled.top_le
    have := H.bytes_lt
    simp only [Alloc.release, hi.counter]
    omega

theorem Inv.inPlace (hi : Inv H st) (hg : g ∈ st.live) (hn : n + 16 ≤ g.size) :
    Inv H { st with
      live := { g with requested := n } :: st.live.erase g
      liveBytes := (st.liveBytes + 2 ^ 32 - g.requested + n) % 2 ^ 32
      mem := store32 st.mem (g.addr + 8) n } where
  tiled := hi.tiled.perm (perm_erase hg)
  headers := ((hi.headers.erase hg).store (hi.tiled.perm (perm_erase hg)) (by omega)).consLive
    ((hi.size_of_live hg).store (.inl (Nat.le_add_right _ 4))) holds_store32
  room := List.forall_mem_cons.mpr ⟨hn, fun g' hg' => hi.room g' (List.mem_of_mem_erase hg')⟩
  counter := by
    have hsum := sum_erase hg
    have := hi.sum_le
    have htotal := (hi.tiled.perm (perm_erase hg)).total
    have hle := sum_requested_le fun g' hg' => hi.room g' (List.mem_of_mem_erase (b := g) hg')
    have := hi.tiled.top_le
    have := H.bytes_lt
    simp only [List.map_cons, List.map_append, List.sum_cons, List.sum_append, hi.counter]
      at htotal ⊢
    omega

theorem realloc_served (hi : Inv H st) (hg : g ∈ st.live)
    (hgrant : ∀ g' ∈ (st.realloc H g n).2, n + 16 ≤ H.bytes) :
    Served H st n (st.realloc H g n) ∧ ∀ g' ∈ (st.realloc H g n).2, ∀ i < g.requested, i < n →
      (st.realloc H g n).1.mem (g'.ptr + i) = st.mem (g.ptr + i) := by
  have hroom := hi.room g hg
  have heach := hi.tiled.each _ (mem_tiles hg)
  have htop := hi.tiled.top_le
  have hbytes := H.bytes_lt
  have hold : (g.size + 2 ^ 32 - 16) % 2 ^ 32 = g.size - 16 := by omega
  unfold Alloc.realloc at hgrant ⊢
  simp only [hold] at hgrant ⊢
  by_cases hfits : align8 n ≤ g.size - 16
  · rw [if_pos hfits] at hgrant ⊢
    obtain ⟨-, -, hle, -⟩ := align8_spec (hgrant _ rfl)
    refine ⟨⟨hi.inPlace hg (by omega), ?_, fun _ h => by cases h⟩, ?_⟩
    · rintro _ ⟨⟩
      exact ⟨.head _, rfl⟩
    · rintro _ ⟨⟩ i - -
      exact if_neg (by simp only [Grant.ptr]; omega)
  rw [if_neg hfits] at hgrant ⊢
  have hfresh : ∀ g' ∈ (st.fresh H n).2, n + 16 ≤ H.bytes := by
    rcases fresh_eq H st n with heq | ⟨st', h, heq⟩ <;> rw [heq] at hgrant ⊢
    · simp
    · exact fun _ _ => hgrant _ rfl
  have hserved := fresh_served hi hfresh
  rcases fresh_cases hi hfresh with hnone | ⟨st', h, heq, hc⟩
  · rw [hnone]
    exact ⟨.none hi, by simp⟩
  obtain ⟨-, -, hle, -⟩ := align8_spec (hfresh _ (by rw [heq]; rfl))
  rw [heq] at hserved ⊢
  have hapart := hc.apart hg
  have hn := hc.room
  have hmine : ∀ i < g.requested, g.Has (g.ptr + i) := by
    intro i hi
    simp only [Block.Has, Grant.ptr]
    omega
  -- the copy stays behind the header of the new block
  have hcopy : ∀ b ∈ h :: st'.blocks, ∀ i < 12,
      Alloc.memcpy (st'.grant h n).1.mem (h.addr + 16) g.ptr (g.size - 16) (b.addr + i) =
        (st'.grant h n).1.mem (b.addr + i) := by
    refine fun b hb i hi => if_neg ?_
    rcases List.mem_cons.mp hb with rfl | hb
    · omega
    · have hhb := (List.pairwise_cons.mp hc.tiled.apart).1 b hb
      have := (hc.tiled.each b (.tail _ hb)).2.1
      unfold Block.Apart at hhb
      omega
  dsimp only [Alloc.grant]
  refine ⟨⟨(hserved.inv.rewrite hcopy).release (List.mem_cons_of_mem _ (hc.live ▸ hg)), ?_,
    fun _ h => by cases h⟩, ?_⟩
  · rintro _ ⟨⟩
    refine ⟨(List.mem_erase_of_ne ?_).mpr (.head _), rfl⟩
    rintro rfl
    dsimp only [Block.Apart] at hapart heach
    omega
  · rintro _ ⟨⟩ i hi' hin
    have hdst : h.Has (h.addr + 16 + i) := by
      unfold Block.Has
      omega
    show store32 _ (g.addr + 4) _ (h.addr + 16 + i) = _
    rw [store32_of_apart (Or.symm hapart) (by omega) hdst]
    dsimp only [Alloc.memcpy, Grant.ptr]
    rw [if_pos (by omega), Nat.add_sub_cancel_left]
    exact (store32_of_apart hapart (by omega) (hmine i hi')).trans (hc.mem g hg _ (hmine i hi'))

theorem portAlloc_served {ptr : Option Grant} (hi : Inv H st) (hptr : ∀ g ∈ ptr, g ∈ st.live)
    (hgrant : ∀ g ∈ (st.portAlloc H ptr n).2, n + 16 ≤ H.bytes) :
    Served H st n (st.portAlloc H ptr n) ∧
      ∀ g ∈ ptr, ∀ g' ∈ (st.portAlloc H ptr n).2, ∀ i < g.requested, i < n →
        (st.portAlloc H ptr n).1.mem (g'.ptr + i) = st.mem (g.ptr + i) := by
  unfold Alloc.portAlloc at hgrant ⊢
  by_cases hn : n = 0
  · cases ptr with
    | none =>
      simp only [if_pos hn]
      exact ⟨.none hi, by simp⟩
    | some g =>
      simp only [if_pos hn]
      exact ⟨⟨hi.release (hptr g rfl), by simp, fun hne => absurd hn hne⟩, by simp⟩
  · cases ptr with
    | none =>
      simp only [if_neg hn] at hgrant ⊢
      exact ⟨fresh_served hi hgrant, by simp⟩
    | some g =>
      simp only [if_neg hn] at hgrant ⊢
      obtain ⟨hserved, hcopy⟩ := realloc_served hi (hptr g rfl) hgrant
      refine ⟨hserved, ?_⟩
      rintro _ ⟨⟩
      exact hcopy

/-! ## Runs -/

structure Sound (H : Heap) (st : Alloc) : Prop where
  aligned : ∀ g ∈ st.live, 8 ∣ g.ptr
  inside : ∀ g ∈ st.live, H.base ≤ g.addr ∧ g.addr + g.size ≤ H.base + H.bytes
  room : ∀ g ∈ st.live, g.requested + 16 ≤ g.size
  apart : st.blocks.Pairwise Block.Apart
  counter : st.liveBytes = (st.live.map Grant.requested).sum

theorem Inv.sound (hi : Inv H st) : Sound H st := by
  have heach : ∀ g ∈ st.live, _ := fun g hg =>
    hi.tiled.each _ (mem_tiles hg)
  have := hi.tiled.top_le
  refine ⟨fun g hg => ?_, fun g hg => ?_, hi.room, hi.tiled.apart, hi.counter⟩
  · have := heach g hg
    unfold Grant.ptr
    omega
  · have := heach g hg
    omega

structure Call where
  before : Alloc
  ptr : Option Grant
  nbytes : Nat

def Call.result (H : Heap) (s : Call) : Alloc × Option Grant :=
  s.before.portAlloc H s.ptr s.nbytes

structure Call.Ok (H : Heap) (s : Call) : Prop where
  sound : Sound H (s.result H).1
  granted : ∀ g ∈ (s.result H).2, g ∈ (s.result H).1.live ∧ g.requested = s.nbytes
  contents : ∀ g ∈ s.ptr, ∀ g' ∈ (s.result H).2, ∀ i < g.requested, i < s.nbytes →
    (s.result H).1.mem (g'.ptr + i) = s.before.mem (g.ptr + i)
  refused : s.nbytes ≠ 0 → (s.result H).2 = none → (s.result H).1 = s.before

/-- The callers pass pointers they hold and write to the bytes they asked for. -/
inductive Run (H : Heap) : List Call → Alloc → Prop
  | start (mem : Nat → UInt8) : Run H [] { mem := mem }
  | write {calls st} (h : Run H calls st) {g : Grant} (hg : g ∈ st.live) (i : Nat)
      (hi : i < g.requested) (v : UInt8) :
    Run H calls { st with mem := Function.update st.mem (g.ptr + i) v }
  | call {calls st} (h : Run H calls st) (ptr : Option Grant) (nbytes : Nat)
      (hptr : ∀ g ∈ ptr, g ∈ st.live) :
    Run H (⟨st, ptr, nbytes⟩ :: calls) (st.portAlloc H ptr nbytes).1

theorem call_ok {s : Call} (hi : Inv H s.before) (hptr : ∀ g ∈ s.ptr, g ∈ s.before.live)
    (hgrant : ∀ g ∈ (s.result H).2, s.nbytes + 16 ≤ H.bytes) : s.Ok H ∧ Inv H (s.result H).1 := by
  obtain ⟨hserved, hcopy⟩ := portAlloc_served hi hptr hgrant
  exact ⟨⟨hserved.inv.sound, hserved.granted, hcopy, hserved.refused⟩, hserved.inv⟩

theorem run_inv {calls : List Call} (h : Run H calls st)
    (hgrant : ∀ s ∈ calls, ∀ g ∈ (s.result H).2, s.nbytes + 16 ≤ H.bytes) :
    (∀ s ∈ calls, s.Ok H) ∧ Inv H st := by
  induction h with
  | start mem =>
    exact ⟨by simp, ⟨Nat.zero_le _, Nat.dvd_zero 8, by simp [Alloc.blocks], .nil, rfl⟩, by simp, rfl,
      by simp, by simp, trivial⟩
  | write _ hg i hi v ih =>
    obtain ⟨hok, hinv⟩ := ih hgrant
    exact ⟨hok, hinv.write hg hi v⟩
  | call _ ptr nbytes hptr ih =>
    obtain ⟨hlast, hcalls⟩ := List.forall_mem_cons.mp hgrant
    obtain ⟨hok, hinv⟩ := ih hcalls
    obtain ⟨hnow, hnext⟩ := call_ok hinv hptr hlast
    exact ⟨List.forall_mem_cons.mpr ⟨hnow, hok⟩, hnext⟩

/-- **The allocator.**  In any run every call leaves a sound heap, keeps what the caller had written and
changes nothing when it refuses, exactly when no request is granted that does not fit the heap with
its header. -/
theorem port_alloc_sound_iff {calls : List Call} (h : Run H calls st) :
    (∀ s ∈ calls, s.Ok H) ↔ ∀ s ∈ calls, ∀ g ∈ (s.result H).2, s.nbytes + 16 ≤ H.bytes := by
  refine ⟨fun hok s hs g hg => ?_, fun hgrant => (run_inv h hgrant).1⟩
  obtain ⟨hlive, hreq⟩ := (hok s hs).granted g hg
  have hroom := (hok s hs).sound.room g hlive
  have hinside := (hok s hs).sound.inside g hlive
  omega

def sram : Heap := ⟨0x20000000, 131072, by decide, by decide⟩

theorem run_once (n : Nat) : Run sram [⟨{ mem := fun _ => 0 }, none, n⟩]
    (Alloc.portAlloc sram { mem := fun _ => 0 } none n).1 :=
  .call (.start _) none n (by simp)

/-- A block allocated, released and allocated again. -/
def reused : List Call :=
  let st : Alloc := { mem := fun _ => 0 }
  let g : Grant := ⟨⟨0x20000000, 24⟩, 8⟩
  let st₁ := (st.portAlloc sram none 8).1
  [⟨(st₁.portAlloc sram (some g) 0).1, none, 4⟩, ⟨st₁, some g, 0⟩, ⟨st, none, 8⟩]

theorem run_reused : ∃ st, Run sram reused st ∧ st.top = 24 :=
  ⟨_, .call (.call (run_once 8) (some ⟨⟨0x20000000, 24⟩, 8⟩) 0 fun g hg => by
    cases hg; exact .head _) none 4 (by simp), rfl⟩

theorem reused_fits : ∀ s ∈ reused, ∀ g ∈ (s.result sram).2, s.nbytes + 16 ≤ sram.bytes := by
  simp [reused, sram]

theorem port_alloc_sound_reused : ∃ st, Run sram reused st ∧ ∀ s ∈ reused, s.Ok sram := by
  obtain ⟨st, hrun, -⟩ := run_reused
  exact ⟨st, hrun, (port_alloc_sound_iff hrun).mpr reused_fits⟩

/-- A request for `SIZE_MAX` bytes is granted a block that is all header. -/
theorem port_alloc_grants_header :
    ∃ calls st s g, Run sram calls st ∧ s ∈ calls ∧ g ∈ (s.result sram).2 ∧
      s.nbytes = 2 ^ 32 - 1 ∧ g.size = 16 :=
  ⟨_, _, _, _, run_once (2 ^ 32 - 1), .head _, rfl, rfl, rfl⟩

/-- No memory is lost: the blocks handed out and those on the free list are apart and fill what has
been carved out of the heap, whatever was allocated, grown and released. -/
theorem blocks_conserved {calls : List Call} (h : Run H calls st)
    (hgrant : ∀ s ∈ calls, ∀ g ∈ (s.result H).2, s.nbytes + 16 ≤ H.bytes) :
    st.blocks.Pairwise Block.Apart ∧
      (st.live.map fun g => g.size).sum + (st.free.map Block.size).sum = st.top ∧
      st.top ≤ H.bytes := by
  have hi := (run_inv h hgrant).2.tiled
  refine ⟨hi.apart, ?_, hi.top_le⟩
  rw [← hi.total, Alloc.blocks, List.map_append, List.sum_append, List.map_map]
  rfl

/-- The lists say of a block what its header in memory does. -/
theorem headers_agree {calls : List Call} (h : Run H calls st)
    (hgrant : ∀ s ∈ calls, ∀ g ∈ (s.result H).2, s.nbytes + 16 ≤ H.bytes) :
    Headers st.mem st.live st.free := (run_inv h hgrant).2.headers

theorem blocks_conserved_reused : ∃ st, Run sram reused st ∧
    (st.live.map fun g => g.size).sum + (st.free.map Block.size).sum = 24 := by
  obtain ⟨st, hrun, htop⟩ := run_reused
  exact ⟨st, hrun, (blocks_conserved hrun reused_fits).2.1.trans htop⟩

end Urbi.Port
