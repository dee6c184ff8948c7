import Urbi.Emit.State
import Mathlib.Data.List.Forall2

/-!
# Captured variables

A name that a function does not declare is an upvalue: a register of the function around it, or an
upvalue of that one.  Following it outward leads to the innermost enclosing local of the name.
-/

namespace Urbi

open Lib

variable {name : Bytes} {fs fs' : UFuncState} {ps ps' : List UFuncState} {u : UUpval}

/-- How many functions out the innermost local of the name is, and its register. -/
def scopeOf (name : Bytes) : List UFuncState → Option (Nat × Nat)
  | [] => none
  | p :: ps =>
    match ulocalFind p.locals name with
    | some (_, l) => some (0, l.reg)
    | none => (scopeOf name ps).map fun d => (d.1 + 1, d.2)

/-- Where an upvalue leads from the functions around it. -/
def chase : List UFuncState → UUpval → Option (Nat × Nat)
  | [], _ => none
  | p :: ps, u =>
    if u.inStack then some (0, u.idx)
    else (p.upvals[u.idx]?.bind (chase ps)).map fun d => (d.1 + 1, d.2)

def Lexical (ps : List UFuncState) (u : UUpval) : Prop :=
  (scopeOf u.name ps).isSome ∧ chase ps u = scopeOf u.name ps

def Captures : List UFuncState → Prop
  | [] => True
  | fs :: ps => (∀ u ∈ fs.upvals, Lexical ps u) ∧ Captures ps

theorem forall₂_trans {α : Type} {R : α → α → Prop} (hR : ∀ {a b c}, R a b → R b c → R a c)
    {as bs cs : List α} (h : List.Forall₂ R as bs) (h' : List.Forall₂ R bs cs) :
    List.Forall₂ R as cs := by
  induction h generalizing cs with
  | nil => exact h'
  | cons ha _ ih =>
    obtain _ | ⟨hb, hbs⟩ := h'
    exact .cons (hR ha hb) (ih hbs)

def UBlock.Marks (b b' : UBlock) : Prop := ∃ m, b' = { b with hasCaptured := b.hasCaptured || m }

theorem UBlock.marks_refl (bs : List UBlock) : List.Forall₂ Marks bs bs :=
  List.forall₂_same.mpr fun b _ => ⟨false, by rw [Bool.or_false]⟩

theorem UBlock.marks_markCaptured (li : Nat) (bs : List UBlock) :
    List.Forall₂ Marks bs (markCaptured li bs) := by
  induction bs with
  | nil => exact .nil
  | cons b bs ih =>
    rw [markCaptured]
    split
    · exact .cons ⟨true, by rw [Bool.or_true]⟩ (marks_refl bs)
    · exact .cons ⟨false, by rw [Bool.or_false]⟩ ih

/-- What resolving a name does to a function it passes through: it gains upvalues, and a capture is
counted and marked in a block. -/
def Stays (p p' : UFuncState) : Prop :=
  ∃ us bs, ∃ k : Nat, p' = { p with
      upvals := p.upvals ++ us, blocks := bs, ncaptures := p.ncaptures + .ofNat k } ∧
    List.Forall₂ UBlock.Marks p.blocks bs ∧ (k = 0 → bs = p.blocks)

theorem stays_of_upvals (p : UFuncState) (us : List UUpval) :
    Stays p { p with upvals := p.upvals ++ us } :=
  ⟨us, p.blocks, 0, by simp, UBlock.marks_refl _, fun _ => rfl⟩

theorem stays_refl (p : UFuncState) : Stays p p := by
  simpa using stays_of_upvals p []

theorem stays_capture (p : UFuncState) (li : Nat) : Stays p (p.capture li) :=
  ⟨[], _, 1, by rw [List.append_nil]; rfl, UBlock.marks_markCaptured li _, nofun⟩

theorem Stays.trans {p p' p'' : UFuncState} (h : Stays p p') (h' : Stays p' p'') : Stays p p'' := by
  obtain ⟨us, bs, k, rfl, hbs, hk⟩ := h
  obtain ⟨vs, cs, l, rfl, hcs, hl⟩ := h'
  refine ⟨us ++ vs, cs, k + l, ?_, ?_, fun h0 => ?_⟩
  · rw [← List.append_assoc, UInt32.ofNat_add, ← UInt32.add_assoc]
  · refine forall₂_trans ?_ hbs hcs
    rintro a b c ⟨m, rfl⟩ ⟨m', rfl⟩
    exact ⟨m || m', by rw [Bool.or_assoc]⟩
  · rw [hl (by omega), hk (by omega)]

theorem scopeOf_stays (h : List.Forall₂ Stays ps ps') : scopeOf name ps' = scopeOf name ps := by
  induction h with
  | nil => rfl
  | cons hp _ ih =>
    obtain ⟨us, bs, k, rfl, -⟩ := hp
    rw [scopeOf, scopeOf, ih]

theorem chase_stays (h : List.Forall₂ Stays ps ps') {d : Nat × Nat} (hd : chase ps u = some d) :
    chase ps' u = some d := by
  induction h generalizing u d with
  | nil => exact hd
  | @cons p p' ps ps' hp _ ih =>
    rw [chase] at hd ⊢
    split at hd <;> rename_i hin
    · rwa [if_pos hin]
    · obtain ⟨d', hd', rfl⟩ := Option.map_eq_some_iff.mp hd
      obtain ⟨v, hv, hchase⟩ := Option.bind_eq_some_iff.mp hd'
      obtain ⟨us, bs, k, rfl, -⟩ := hp
      rw [if_neg hin, List.getElem?_append_left (List.getElem?_eq_some_iff.mp hv).1, hv,
        Option.bind_some, ih hchase, Option.map_some]

theorem Lexical.stays (h : Lexical ps u) (hs : List.Forall₂ Stays ps ps') : Lexical ps' u := by
  obtain ⟨hsome, hchase⟩ := h
  obtain ⟨d, hd⟩ := Option.isSome_iff_exists.mp hsome
  rw [Lexical, scopeOf_stays hs]
  exact ⟨hsome, (chase_stays hs (hchase.trans hd)).trans hd.symm⟩

/-- The name is resolved where it should be, and no function loses an upvalue. -/
structure Found (name : Bytes) (fs : UFuncState) (ps : List UFuncState) (r : Option Nat)
    (fs' : UFuncState) (ps' : List UFuncState) : Prop where
  captures : Captures (fs' :: ps')
  stays : Stays fs fs'
  around : List.Forall₂ Stays ps ps'
  answer : ∀ i, r = some i → fs'.upvals[i]?.map UUpval.name = some name
  none_iff : r = none ↔ scopeOf name ps = none

theorem found_of_install {j i : Nat} {inStack : Bool} (hc : Captures (fs :: ps))
    (hs : List.Forall₂ Stays ps ps') (hc' : Captures ps') (hu : Lexical ps' ⟨name, j, inStack⟩)
    (hnew : upvalFind fs.upvals name = none) (h : upvalInstall fs name j inStack = .ok (i, fs')) :
    Found name fs ps (some i) fs' ps' := by
  unfold upvalInstall at h
  rw [hnew] at h
  dsimp only at h
  split at h <;> cases h
  have hsome : (scopeOf name ps).isSome := scopeOf_stays hs ▸ hu.1
  refine ⟨⟨fun v hv => ?_, hc'⟩, stays_of_upvals fs _, hs, ?_, ?_⟩
  · rcases List.mem_append.mp hv with hv | hv
    · exact (hc.1 v hv).stays hs
    · rwa [List.mem_singleton.mp hv]
  · rintro _ ⟨⟩
    simp
  · simp [Option.isSome_iff_ne_none.mp hsome]

theorem found_of_findOrInstall {r : Option Nat} (hc : Captures (fs :: ps))
    (h : uupvalFindOrInstall name fs ps = .ok (r, fs', ps')) : Found name fs ps r fs' ps' := by
  induction ps generalizing fs r fs' ps' with
  | nil =>
    cases h
    exact ⟨hc, stays_refl _, .nil, nofun, by simp [scopeOf]⟩
  | cons p ps ih =>
    have hsame : List.Forall₂ Stays ps ps := List.forall₂_same.mpr fun _ _ => stays_refl _
    unfold uupvalFindOrInstall at h
    split at h
    · rename_i i hi
      cases h
      obtain ⟨hlt, hname, -⟩ := List.findIdx?_eq_some_iff_getElem.mp hi
      have hlex := hc.1 _ (List.getElem_mem hlt)
      rw [Lexical, of_decide_eq_true hname] at hlex
      refine ⟨hc, stays_refl _, .cons (stays_refl _) hsame, ?_, ?_⟩
      · rintro _ ⟨⟩
        rw [List.getElem?_eq_getElem hlt, Option.map_some, of_decide_eq_true hname]
      · exact ⟨nofun, fun hnone => by simp [hnone] at hlex⟩
    · rename_i hnew
      split at h
      · rename_i li l hl
        obtain ⟨⟨i, fs₁⟩, hi, ⟨⟩⟩ := except_bind_eq_ok.mp h
        refine found_of_install hc (.cons (stays_capture p li) hsame) hc.2 ?_ hnew hi
        simp [Lexical, scopeOf, UFuncState.capture, hl, chase]
      · rename_i hl
        obtain ⟨⟨gi, p₁, ps₁⟩, hp, h⟩ := except_bind_eq_ok.mp h
        have hf := ih hc.2 hp
        have hstays : List.Forall₂ Stays (p :: ps) (p₁ :: ps₁) := .cons hf.stays hf.around
        have hscope : scopeOf name (p :: ps) = (scopeOf name ps).map fun d => (d.1 + 1, d.2) := by
          simp [scopeOf, hl]
        cases gi with
        | none =>
          cases h
          exact ⟨⟨fun u hu => (hc.1 u hu).stays hstays, hf.captures⟩, stays_refl _, hstays, nofun,
            by simp [hscope, hf.none_iff.mp rfl]⟩
        | some gi =>
          obtain ⟨⟨i, fs₁⟩, hi, ⟨⟩⟩ := except_bind_eq_ok.mp h
          -- the function around has the name as an upvalue now, and what it captures is lexical
          obtain ⟨v, hv, hname⟩ := Option.map_eq_some_iff.mp (hf.answer gi rfl)
          have hlex := hf.captures.1 v (List.mem_of_getElem? hv)
          rw [Lexical, hname, scopeOf_stays hf.around] at hlex
          refine found_of_install hc hstays hf.captures ?_ hnew hi
          simp [Lexical, scopeOf_stays hstays, hscope, hlex, chase, hv]

end Urbi
