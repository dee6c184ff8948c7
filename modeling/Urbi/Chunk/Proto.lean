import Mathlib.Data.List.TakeWhile
import Urbi.Chunk.Opcode

/-!
# Proto trees

`UProto` (`chunk/uproto.h`): a block with its nested functions, where a NULL slot of `nested[]` is
`none`.  Left out are capacities, allocator hooks, reference counts, realm and instance
back-pointers, and the interned `site_names` that `rt/uexec.c` derives from the strings kept here.
-/

namespace Urbi

abbrev Bytes : Type := List UInt8

/-- Everything before the first zero byte (`urbi_strlen`). -/
def cstr (s : Bytes) : Bytes := s.takeWhile (· != 0)

theorem cstr_eq_self_iff {s : Bytes} : cstr s = s ↔ (0 : UInt8) ∉ s := by
  simp only [cstr, List.takeWhile_eq_self_iff, bne_iff_ne, ne_eq]
  constructor
  · intro h hmem
    exact h 0 hmem rfl
  · rintro h b hb rfl
    exact h hb

theorem zero_not_mem_cstr (s : Bytes) : (0 : UInt8) ∉ cstr s := by
  intro hmem
  simpa using List.mem_takeWhile_imp hmem

@[simp] theorem cstr_cstr (s : Bytes) : cstr (cstr s) = cstr s :=
  cstr_eq_self_iff.mpr (zero_not_mem_cstr s)

inductive UConst where
  | nil
  | int (i : Int64)
  | float (bits : UInt64)
  | bool (b : Bool)
  | str (bytes : Bytes)
  deriving DecidableEq, Repr

structure UAbsLine where
  pc : UInt32
  line : UInt32
  deriving DecidableEq, Repr

structure Block where
  maxReg : UInt8
  nupvals : UInt8
  nparams : UInt8
  arityPrologue : Bool
  constants : List UConst
  instructions : List UInt32
  lineDeltas : List UInt8
  absLines : List UAbsLine
  siteNameStrs : List (Option Bytes)
  deriving DecidableEq, Repr

namespace Block

def instrCount (b : Block) : Nat := b.instructions.length
def constCount (b : Block) : Nat := b.constants.length
def siteCount (b : Block) : Nat := b.siteNameStrs.length

end Block

inductive UProto where
  | mk (block : Block) (nested : List (Option UProto))

namespace UProto

def block : UProto → Block
  | mk b _ => b

def nested : UProto → List (Option UProto)
  | mk _ ns => ns

@[simp] theorem block_mk (b : Block) (ns : List (Option UProto)) : (mk b ns).block = b := rfl
@[simp] theorem nested_mk (b : Block) (ns : List (Option UProto)) : (mk b ns).nested = ns := rfl

theorem tree_induction {motive : UProto → Prop}
    (step : ∀ b ns, (∀ c, some c ∈ ns → motive c) → motive (mk b ns)) (p : UProto) : motive p := by
  refine @UProto.rec motive (fun ns => ∀ c, some c ∈ ns → motive c)
    (fun o => ∀ c, o = some c → motive c) ?_ ?_ ?_ ?_ ?_ p
  · exact step
  · exact nofun
  · intro o ns ho hns c hc
    rcases List.mem_cons.mp hc with h | h
    · exact ho c h.symm
    · exact hns c h
  · exact nofun
  · rintro c hc _ ⟨⟩
    exact hc

theorem nested_induction {motive : UProto → Prop} {Q : List (Option UProto) → Prop} (nil : Q [])
    (none : ∀ ns, Q ns → Q (none :: ns)) (some : ∀ p ns, motive p → Q ns → Q (some p :: ns))
    (mk : ∀ b ns, Q ns → motive (mk b ns)) (p : UProto) : motive p := by
  induction p using tree_induction with
  | step b ns ih =>
    apply mk
    induction ns with
    | nil => exact nil
    | cons o ns ihn =>
      have htail := ihn fun c hc => ih c (.tail _ hc)
      cases o with
      | none => exact none ns htail
      | some p => exact some p ns (ih p (.head _)) htail

/-- `p` is `q` itself or a function nested in it, at any depth. -/
inductive Within : UProto → UProto → Prop
  | refl (p : UProto) : Within p p
  | child {p q : UProto} {r : UProto} (hmem : some q ∈ r.nested) (h : Within p q) : Within p r

theorem Within.trans {p q r : UProto} (hpq : Within p q) (hqr : Within q r) : Within p r := by
  induction hqr with
  | refl => exact hpq
  | child hmem _ ih => exact .child hmem ih

theorem within_mk_iff {q : UProto} {b : Block} {ns : List (Option UProto)} :
    Within q (mk b ns) ↔ q = mk b ns ∨ ∃ c, some c ∈ ns ∧ Within q c := by
  constructor
  · rintro (_ | ⟨hmem, h⟩)
    · exact .inl rfl
    · exact .inr ⟨_, hmem, h⟩
  · rintro (rfl | ⟨c, hmem, h⟩)
    · exact .refl _
    · exact .child hmem h

theorem within_of_mem_nested {p r : UProto} (h : some p ∈ r.nested) : Within p r :=
  .child h (.refl p)

end UProto

def nestedAt (ns : List (Option UProto)) (i : Nat) : Option UProto := ns[i]?.join

theorem mem_of_nestedAt {ns : List (Option UProto)} {i : Nat} {p : UProto}
    (h : nestedAt ns i = some p) : some p ∈ ns := by
  unfold nestedAt at h
  cases hi : ns[i]? with
  | none => simp [hi] at h
  | some o =>
    rw [hi] at h
    have ho : o = some p := by simpa using h
    exact ho ▸ List.mem_of_getElem? hi

structure UChunk where
  sourceName : Option Bytes
  root : UProto

inductive UChunkLoadError where
  | badMagic | unsupportedVersion | flavorMismatch | truncated | corruptVarint | corruptTag
  | corrupt | oom | invalidArg | oversized | truncatedUpvalues | malformedUpvalue
  | jmpOutOfBounds | callNresultsZero | reservedOpcode | badExtarg | badTarget
  deriving DecidableEq, Repr

end Urbi
