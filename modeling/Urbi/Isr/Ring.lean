import Mathlib.Data.List.Infix
import Mathlib.Data.UInt
import Mathlib.Logic.Function.Basic

/-!
# The interrupt ring

`urbi_inject_event`, which an interrupt handler calls, against `usched_drain_isr`.  Every load and
store is a step of its own.  A delivery runs script, which may drain the ring again before it returns.
`accepted` and `delivered` are read by nothing.
-/

namespace Urbi.Isr

abbrev isrSlots : Nat := 16
abbrev eventPayloadMax : Nat := 16

instance : NeZero eventPayloadMax := ⟨by decide⟩

abbrev maxEvents : Nat := 32

abbrev Payload := Fin eventPayloadMax → UInt8

structure UIsrRec where
  id : UInt16
  n : UInt8
  payload : Payload

structure Injection where
  id : UInt16
  payload : Option Payload
  n : Nat

/-- Nil, or the first eight bytes as one integer. -/
def payloadValue (n : UInt8) (bytes : Payload) : Option Int64 :=
  if n = 0 then none
  else
    let n := if n < 8 then n else 8
    some ((List.range n.toNat).foldl
      (fun w i => w ||| ((bytes (Fin.ofNat _ i)).toUInt64 <<< (8 * UInt64.ofNat i))) 0).toInt64

inductive Producer where
  | idle
  | checkId (j : Injection)
  | loadHead (j : Injection)
  | loadTail (j : Injection) (head : UInt32)
  | storeId (j : Injection) (head : UInt32)
  | storeN (j : Injection) (head : UInt32)
  | copy (j : Injection) (bytes : Payload) (head : UInt32) (i : Nat)
  | publish (j : Injection) (head : UInt32)

inductive Drain where
  | loadHead
  | test (head : UInt32)
  | loadId
  | loadN (id : UInt16)
  | copy (r : UIsrRec) (i : Nat)
  | storeTail (r : UIsrRec)
  | deliver (r : UIsrRec)
  | emitting

structure Sys where
  isr : Fin isrSlots → UIsrRec
  isrHead : UInt32
  isrTail : UInt32
  eventCount : Nat
  producer : Producer
  /-- The drains in progress, the innermost first. -/
  drains : List Drain
  accepted : List Injection
  delivered : List (UInt16 × Option Int64)

inductive Move where
  | call (j : Injection)
  | produce
  | drain
  | consume
  | register
  deriving Inhabited

def slot (i : UInt32) : Fin isrSlots := Fin.ofNat _ i.toNat

namespace Sys

def setRec (σ : Sys) (i : UInt32) (f : UIsrRec → UIsrRec) : Sys :=
  { σ with isr := Function.update σ.isr (slot i) (f (σ.isr (slot i))) }

def produce (σ : Sys) : Producer → Option Sys
  | .idle => none
  | .checkId j =>
    -- refused: nothing was registered under the id
    some { σ with producer := if σ.eventCount ≤ j.id.toNat then .idle else .loadHead j }
  | .loadHead j => some { σ with producer := .loadTail j σ.isrHead }
  | .loadTail j head =>
    -- refused: the ring is full
    some { σ with
      producer := if 16 ≤ head - σ.isrTail then .idle else .storeId j head }
  | .storeId j head =>
    some { σ.setRec head (fun r => { r with id := j.id }) with producer := .storeN j head }
  | .storeN j head =>
    some { σ.setRec head (fun r => { r with n := UInt8.ofNat j.n }) with
      producer := match j.payload with
        | none => .publish j head
        | some bytes => if j.n = 0 then .publish j head else .copy j bytes head 0 }
  | .copy j bytes head i =>
    some { σ.setRec head (fun r =>
        { r with payload := Function.update r.payload (Fin.ofNat _ i) (bytes (Fin.ofNat _ i)) }) with
      producer := if i + 1 < j.n then .copy j bytes head (i + 1) else .publish j head }
  | .publish j head =>
    some { σ with isrHead := head + 1, producer := .idle, accepted := σ.accepted ++ [j] }

def consume (σ : Sys) (ds : List Drain) : Drain → Sys
  | .loadHead => { σ with drains := .test σ.isrHead :: ds }
  | .test head => { σ with drains := if σ.isrTail = head then ds else .loadId :: ds }
  | .loadId => { σ with drains := .loadN (σ.isr (slot σ.isrTail)).id :: ds }
  | .loadN id =>
    { σ with drains := .copy ⟨id, (σ.isr (slot σ.isrTail)).n, fun _ => 0⟩ 0 :: ds }
  | .copy r i =>
    let r := { r with
      payload := Function.update r.payload (Fin.ofNat _ i)
        ((σ.isr (slot σ.isrTail)).payload (Fin.ofNat _ i)) }
    { σ with drains := (if i + 1 < eventPayloadMax then .copy r (i + 1) else .storeTail r) :: ds }
  | .storeTail r => { σ with isrTail := σ.isrTail + 1, drains := .deliver r :: ds }
  | .deliver r =>
    if r.id.toNat < σ.eventCount then
      { σ with
        drains := .emitting :: ds
        delivered := σ.delivered ++ [(r.id, payloadValue r.n r.payload)] }
    else { σ with drains := .loadHead :: ds }
  | .emitting => { σ with drains := .loadHead :: ds }

def open_ : List Drain → Bool
  | [] | .emitting :: _ => true
  | _ => false

def step (σ : Sys) : Move → Option Sys
  | .call j =>
    match σ.producer with
    | .idle =>
      some { σ with producer := if eventPayloadMax < j.n then .idle else .checkId j }
    | _ => none
  | .produce => σ.produce σ.producer
  | .drain => if open_ σ.drains then some { σ with drains := .loadHead :: σ.drains } else none
  | .consume =>
    match σ.drains with
    | [] => none
    | d :: ds => some (σ.consume ds d)
  | .register =>
    if open_ σ.drains ∧ σ.eventCount < maxEvents then
      some { σ with eventCount := σ.eventCount + 1 }
    else none

def run (σ : Sys) : List Move → Option Sys
  | [] => some σ
  | m :: ms => (σ.step m).bind (run · ms)

def boot : Sys where
  isr := fun _ => ⟨0, 0, fun _ => 0⟩
  isrHead := 0
  isrTail := 0
  eventCount := 0
  producer := .idle
  drains := []
  accepted := []
  delivered := []

inductive Runs (P : Injection → Bool) : Sys → Prop
  | boot : Runs P boot
  | step {σ σ' : Sys} (h : Runs P σ) (m : Move) (hP : ∀ j, m = .call j → P j = true)
      (hm : σ.step m = some σ') : Runs P σ'

theorem Runs.run {P : Injection → Bool} {σ σ' : Sys} (h : Runs P σ) {ms : List Move}
    (hP : ∀ j, Move.call j ∈ ms → P j = true) (hms : σ.run ms = some σ') : Runs P σ' := by
  induction ms generalizing σ with
  | nil => exact Option.some.inj hms ▸ h
  | cons m ms ih =>
    obtain ⟨σ₁, hm, hrest⟩ := Option.bind_eq_some_iff.mp hms
    refine ih (h.step m (fun j hj => hP j (hj ▸ List.mem_cons_self)) hm)
      (fun j hj => hP j (List.mem_cons_of_mem _ hj)) hrest

end Sys

end Urbi.Isr
