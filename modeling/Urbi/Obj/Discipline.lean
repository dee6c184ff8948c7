import Mathlib.Data.List.Perm.Basic
import Urbi.Obj.Run

/-!
# What an access may do to an object

A `Discipline` is a relation between the slots of an object before and after an access.  The slot
instructions ask before they store; the natives and the host do not.
-/

namespace Urbi

variable {L : CodeBase}

/-- A relation between objects that reads their slots and the read-only flag, kept by every change to
a slot that `may` allows. -/
structure Discipline (L : CodeBase) where
  r : UObject L → UObject L → Prop
  may : UObject L → USym → Prop
  -- an object whose slots may be marked
  opened : UObject L → Prop
  light : ∀ {o o'}, o'.slots = o.slots → o'.readonly = o.readonly → r o o'
  trans : ∀ {o o' o''}, r o o' → r o' o'' → r o o''
  -- what `SETSLOT` checks is enough
  asked : ∀ {o n}, o.readonly = false → (∀ s, o.local? n = some s → s.attrs.constant = false) →
    may o n
  opened_of_may : ∀ {o n}, may o n → opened o
  opened_congr : ∀ {o o'}, o'.readonly = o.readonly → opened o → opened o'
  store : ∀ {o s granted o' i b}, may o s.name → o.setLocal s granted = some (o', i, b) → r o o'
  assign : ∀ {o i s} (v : UValue L), o.slots[i]? = some s → o.readonly = false →
    s.attrs.constant = false → r o { o with slots := o.slots.modify i fun s => s.assign v }
  subscribe : ∀ {o} (i : Nat), opened o → r o { o with slots := o.slots.modify i USlot.subscribe }
  remove : ∀ {o n o'}, may o n → o.removeLocal n = some o' → r o o'

namespace Discipline

variable (D : Discipline L) {vm : UVM L}

def Each (vm vm' : UVM L) : Prop := ∀ x, D.r (vm.obj x) (vm'.obj x)

def keeping : Keeping L where
  r _ := D.r
  value _ := True
  may _ o s := D.may o s.name
  removable := D.may
  opened := D.opened
  light h h' _ := D.light h h'
  trans := D.trans
  asked _ h := D.asked h.1 h.2
  opened_of_may := D.opened_of_may
  opened_congr := D.opened_congr
  store := D.store
  assign _ hs h := D.assign _ hs h.1 h.2
  subscribe := D.subscribe
  remove := D.remove

def Permits (vm : UVM L) : Access L → Prop
  | .assign (.setSlot self name _) _ =>
    ∀ x n, self.asObj = some x → name = some n → D.may (vm.obj x) n
  | .assign (.slotSet obj name _) _ =>
    ∀ x n, obj.asObj = some x → name = some n → D.may (vm.obj x) n
  | .assign (.globalSet globals name _) _ =>
    ∀ x n, globals = some x → name = some n → D.may (vm.obj x) n
  | .setLocal x s _ _ => D.may (vm.obj x) s.name
  | .removeSlot x n => D.may (vm.obj x) n
  | .subscribe x n _ _ => ∀ hidden, UVM.hiddenSym n = some hidden → D.may (vm.obj x) hidden
  | _ => True

variable {D}

theorem each_exec {a : Access L} (h : D.Permits vm a) : D.Each vm (vm.exec a).1 := by
  cases a with
  | observing on => exact fun _ => D.light rfl rfl
  | assign a granted =>
    have hpermits : D.keeping.Permits vm (.assign a granted) := by
      refine ⟨trivial, fun x n hs => ?_⟩
      cases a with
      | setslot => exact hs.elim
      | setSlot | slotSet | globalSet => exact h x n hs.1 hs.2
    exact (Keeping.each_exec hpermits).obj
  | _ =>
    apply Keeping.Each.obj (K := D.keeping)
    exact Keeping.each_exec h

end Discipline

end Urbi
