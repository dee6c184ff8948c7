import Urbi.Lex.Lexer

/-!
# Separators

`parse/uparse_separators.c`.  The tokens and the operands between the separators are asked of a
`UParser`; whether the arena grants an allocation is asked of `granted`, in order.
-/

namespace Urbi.Parse

open Urbi.Lex

variable {P E : Type}

inductive ParseFail (E : Type) where
  | oom
  | trailingAmp (line : Nat)
  | unexpectedToken (message : String) (line : Nat)
  | operand (e : E)
  deriving DecidableEq, Repr

/-- With what is read in front of a separator of either tier. -/
structure UParser (P E : Type) where
  peek : P → UTokenType × Nat
  consume : P → P
  sepOperand : P → Except (ParseFail E) UAstNode × P
  statementOrExpr : P → Except (ParseFail E) UAstNode × P

def innerSep : UTokenType → Option UAstSeparator
  | .pipe => some .pipe
  | .amp => some .amp
  | _ => none

def outerSep : UTokenType → Option UAstSeparator
  | .semi => some .semi
  | .comma => some .comma
  | _ => none

def atStatementEnd (t : UTokenType) : Bool :=
  t = .eof || t = .rbrace || t = .rparen || t = .pipe

def innerTrails (t : UTokenType) : Bool := atStatementEnd t || t = .semi || t = .comma

structure Run where
  sep : UAstSeparator
  line : Nat
  children : List UAstNode
  cap : Nat

def Run.node (r : Run) : UAstNode := .seq r.line r.sep r.children

def Run.push (granted : Nat → Bool) (k : Nat) (r : Run) (child : UAstNode) : Option (Nat × Run) :=
  if r.children.length = r.cap then
    if granted k then some (k + 1, { r with children := r.children ++ [child], cap := r.cap * 2 })
    else none
  else some (k, { r with children := r.children ++ [child] })

/-- The same separator extends the run; the other one, or the first, starts a run whose first child
is what there is. -/
def foldOperand (granted : Nat → Bool) (k : Nat) (lhs : UAstNode) (run : Option Run)
    (s : UAstSeparator) (line : Nat) (rhs : UAstNode) : Option (Nat × Run) :=
  let fresh := if granted k && granted (k + 1) then some (k + 2, ⟨s, line, [lhs, rhs], 4⟩) else none
  match run with
  | none => fresh
  | some r => if r.sep = s then r.push granted k rhs else fresh

/-- Every turn consumes a token. -/
def pipeAmpFold (ps : UParser P E) (granted : Nat → Bool) :
    Nat → Nat → P → UAstNode → Option Run → Except (ParseFail E) UAstNode × P
  | 0, _, p, lhs, _ => (.ok lhs, p)
  | fuel + 1, k, p, lhs, run =>
    match innerSep (ps.peek p).1 with
    | none => (.ok lhs, p)
    | some s =>
      let after := ps.consume p
      if innerTrails (ps.peek after).1 then
        if s = .pipe then (.ok lhs, after) else (.error (.trailingAmp (ps.peek p).2), after)
      else match ps.sepOperand after with
        | (.error e, p) => (.error e, p)
        | (.ok rhs, p') =>
          match foldOperand granted k lhs run s (ps.peek p).2 rhs with
          | none => (.error .oom, p')
          | some (k, run) => pipeAmpFold ps granted fuel k p' run.node (some run)

def outerLoop (ps : UParser P E) (granted : Nat → Bool) :
    Nat → Nat → P → Run → Except (ParseFail E) UAstNode × P
  | 0, _, p, run => (.ok run.node, p)
  | fuel + 1, k, p, run =>
    match ps.statementOrExpr p with
    | (.error e, p) => (.error e, p)
    | (.ok child, p) =>
      match run.push granted k child with
      | none => (.error .oom, p)
      | some (k, run) =>
        let close := fun p => (if granted k then .ok run.node else .error .oom, p)
        match outerSep (ps.peek p).1 with
        | none => close p
        | some s =>
          if s ≠ run.sep then
            (.error (.unexpectedToken
              "mixing ';' and ',' in same group is ambiguous; group with parens"
              (ps.peek p).2), ps.consume p)
          else if atStatementEnd (ps.peek (ps.consume p)).1 then close (ps.consume p)
          else outerLoop ps granted fuel k (ps.consume p) run

def outerTier (ps : UParser P E) (granted : Nat → Bool) (fuel : Nat) (p : P) :
    Except (ParseFail E) UAstNode × P :=
  match ps.statementOrExpr p with
  | (.error e, p) => (.error e, p)
  | (.ok first, p) =>
    match outerSep (ps.peek p).1 with
    | none => (.ok first, p)
    | some s =>
      let after := ps.consume p
      if atStatementEnd (ps.peek after).1 then (.ok first, after)
      else if granted 0 then outerLoop ps granted fuel 1 after ⟨s, first.line, [first], 8⟩
      else (.error .oom, after)

/-! ## The tree -/

structure Joint where
  sep : UAstSeparator
  line : Nat
  operand : UAstNode

def consRun (s : UAstSeparator) (line : Nat) (ts : List UAstNode) :
    List (UAstSeparator × Nat × List UAstNode) → List (UAstSeparator × Nat × List UAstNode)
  | [] => [(s, line, ts)]
  | r :: rs => if s = r.1 then (s, line, ts ++ r.2.2) :: rs else (s, line, ts) :: r :: rs

def runs : List Joint → List (UAstSeparator × Nat × List UAstNode)
  | [] => []
  | j :: js => consRun j.sep j.line [j.operand] (runs js)

def nestRuns (lhs : UAstNode) (rs : List (UAstSeparator × Nat × List UAstNode)) : UAstNode :=
  rs.foldl (fun acc r => .seq r.2.1 r.1 (acc :: r.2.2)) lhs

/-- The tokens from `p` on are these operands behind their separators, up to `stop`. -/
inductive Joined (ps : UParser P E) (stop : P) : P → List Joint → Prop where
  | done : innerSep (ps.peek stop).1 = none → Joined ps stop stop []
  | more {p p' : P} {j : Joint} {js : List Joint} :
      innerSep (ps.peek p).1 = some j.sep → (ps.peek p).2 = j.line →
      innerTrails (ps.peek (ps.consume p)).1 = false →
      ps.sepOperand (ps.consume p) = (.ok j.operand, p') → Joined ps stop p' js →
      Joined ps stop p (j :: js)

theorem consRun_same (s : UAstSeparator) (line line' : Nat) (ts : List UAstNode) (t : UAstNode)
    (rs : List (UAstSeparator × Nat × List UAstNode)) :
    consRun s line ts (consRun s line' [t] rs) = consRun s line (ts ++ [t]) rs := by
  cases rs with
  | nil => simp [consRun]
  | cons r rs =>
    by_cases h : s = r.1
    · simp [consRun, h]
    · simp [consRun, h]

theorem consRun_other {s s' : UAstSeparator} (h : s ≠ s') (line line' : Nat) (ts us : List UAstNode)
    (rs : List (UAstSeparator × Nat × List UAstNode)) :
    consRun s line ts (consRun s' line' us rs) = (s, line, ts) :: consRun s' line' us rs := by
  cases rs with
  | nil => simp [consRun, h]
  | cons r rs =>
    by_cases hr : s' = r.1
    · rw [consRun, if_pos hr, consRun, if_neg h]
    · rw [consRun, if_neg hr, consRun, if_neg h]

theorem Run.push_granted {granted : Nat → Bool} (h : ∀ k, granted k) (k : Nat) (r : Run)
    (child : UAstNode) : ∃ k' cap, r.push granted k child =
      some (k', { r with children := r.children ++ [child], cap }) := by
  unfold Run.push
  split
  · rw [if_pos (h k)]
    exact ⟨_, _, rfl⟩
  · exact ⟨k, r.cap, rfl⟩

section
variable {ps : UParser P E} {granted : Nat → Bool} {p stop : P} {fuel : Nat}

theorem pipeAmpFold_more {p' : P} {j : Joint} (k : Nat) (lhs : UAstNode) (run : Option Run)
    (hsep : innerSep (ps.peek p).1 = some j.sep) (hline : (ps.peek p).2 = j.line)
    (htrail : innerTrails (ps.peek (ps.consume p)).1 = false)
    (hop : ps.sepOperand (ps.consume p) = (.ok j.operand, p')) (k' : Nat) (run' : Run)
    (hfold : foldOperand granted k lhs run j.sep j.line j.operand = some (k', run')) :
    pipeAmpFold ps granted (fuel + 1) k p lhs run =
      pipeAmpFold ps granted fuel k' p' run'.node (some run') := by
  simp only [pipeAmpFold, hsep, htrail, hop, hline, hfold, Bool.false_eq_true, if_false]

theorem pipeAmpFold_run {js : List Joint} (hg : ∀ k, granted k) (h : Joined ps stop p js)
    (hfuel : js.length < fuel) (k : Nat) (acc : UAstNode) (ts : List UAstNode) (r : Run)
    (hr : r.children = acc :: ts) : pipeAmpFold ps granted fuel k p r.node (some r) =
      (.ok (nestRuns acc (consRun r.sep r.line ts (runs js))), stop) := by
  have hnode : r.node = .seq r.line r.sep (acc :: ts) := by rw [Run.node, hr]
  induction h generalizing fuel k acc ts r with
  | done hnone =>
    obtain ⟨fuel, rfl⟩ : ∃ n, fuel = n + 1 := ⟨fuel - 1, by omega⟩
    simp only [pipeAmpFold, hnone, hnode, runs, consRun]
    rfl
  | @more p p' j js hsep hline htrail hop _ ih =>
    obtain ⟨fuel, rfl⟩ : ∃ n, fuel = n + 1 := ⟨fuel - 1, by omega⟩
    have hlen : js.length < fuel := by simpa using hfuel
    by_cases hs : r.sep = j.sep
    · obtain ⟨k', cap, hpush⟩ := r.push_granted hg k j.operand
      rw [pipeAmpFold_more k _ _ hsep hline htrail hop k' _
        (by simpa [foldOperand, hs] using hpush)]
      rw [ih hlen k' acc (ts ++ [j.operand]) _ (by simp [hr]) (by simp [Run.node, hr]), runs, hs,
        consRun_same]
    · rw [pipeAmpFold_more k _ _ hsep hline htrail hop (k + 2)
        ⟨j.sep, j.line, [r.node, j.operand], 4⟩ (by simp [foldOperand, hs, hg])]
      rw [ih hlen (k + 2) r.node [j.operand] _ rfl rfl, runs, consRun_other hs, hnode]
      rfl

theorem pipe_amp_fold_eq {js : List Joint} (hg : ∀ k, granted k) (h : Joined ps stop p js)
    (hfuel : js.length < fuel) (lhs : UAstNode) :
    pipeAmpFold ps granted fuel 0 p lhs none = (.ok (nestRuns lhs (runs js)), stop) := by
  obtain ⟨fuel, rfl⟩ : ∃ n, fuel = n + 1 := ⟨fuel - 1, by omega⟩
  cases h with
  | done hnone =>
    simp only [pipeAmpFold, hnone]
    rfl
  | @more _ p' j js hsep hline htrail hop hrest =>
    rw [pipeAmpFold_more 0 _ _ hsep hline htrail hop 2
      ⟨j.sep, j.line, [lhs, j.operand], 4⟩ (by simp [foldOperand, hg])]
    exact pipeAmpFold_run hg hrest (by simpa using hfuel) 2 lhs [j.operand] _ rfl

/-! ## The outer tier -/

inductive Members (ps : UParser P E) (s : UAstSeparator) : P → List UAstNode → P → Prop where
  | last {p p' : P} {t : UAstNode} : ps.statementOrExpr p = (.ok t, p') →
      outerSep (ps.peek p').1 = none → Members ps s p [t] p'
  | dropped {p p' : P} {t : UAstNode} : ps.statementOrExpr p = (.ok t, p') →
      outerSep (ps.peek p').1 = some s → atStatementEnd (ps.peek (ps.consume p')).1 = true →
      Members ps s p [t] (ps.consume p')
  | more {p p' stop : P} {t : UAstNode} {ts : List UAstNode} : ps.statementOrExpr p = (.ok t, p') →
      outerSep (ps.peek p').1 = some s → atStatementEnd (ps.peek (ps.consume p')).1 = false →
      Members ps s (ps.consume p') ts stop → Members ps s p (t :: ts) stop

theorem outerLoop_eq {s : UAstSeparator} {ts : List UAstNode} (hg : ∀ k, granted k)
    (h : Members ps s p ts stop) (hfuel : ts.length ≤ fuel) (k : Nat) (r : Run) (hr : r.sep = s) :
    outerLoop ps granted fuel k p r = (.ok (.seq r.line s (r.children ++ ts)), stop) := by
  induction h generalizing fuel k r with
  | @last p p' t hop hnone =>
    obtain ⟨fuel, rfl⟩ : ∃ n, fuel = n + 1 := ⟨fuel - 1, by simp at hfuel; omega⟩
    obtain ⟨k', cap, hpush⟩ := r.push_granted hg k t
    simp only [outerLoop, hop, hpush, hnone, hg, if_true, Run.node, hr]
  | @dropped p p' t hop hsep hend =>
    obtain ⟨fuel, rfl⟩ : ∃ n, fuel = n + 1 := ⟨fuel - 1, by simp at hfuel; omega⟩
    obtain ⟨k', cap, hpush⟩ := r.push_granted hg k t
    simp [outerLoop, hop, hpush, hsep, hend, hg, Run.node, hr]
  | @more p p' stop t ts hop hsep hend _ ih =>
    obtain ⟨fuel, rfl⟩ : ∃ n, fuel = n + 1 := ⟨fuel - 1, by simp at hfuel; omega⟩
    obtain ⟨k', cap, hpush⟩ := r.push_granted hg k t
    have hlen : ts.length ≤ fuel := by simpa using hfuel
    simp only [outerLoop, hop, hpush, hsep, hend, hr, ne_eq, not_true_eq_false, if_false,
      Bool.false_eq_true]
    rw [ih hlen k' ⟨s, r.line, r.children ++ [t], cap⟩ rfl]
    simp

theorem outerTier_eq {s : UAstSeparator} {t : UAstNode} {ts : List UAstNode}
    (hg : ∀ k, granted k) (h : Members ps s p (t :: ts) stop) (hfuel : ts.length ≤ fuel) :
    outerTier ps granted fuel p = (.ok (if ts = [] then t else .seq t.line s (t :: ts)), stop) := by
  cases h with
  | last hop hnone => simp [outerTier, hop, hnone]
  | dropped hop hsep hend => simp [outerTier, hop, hsep, hend]
  | more hop hsep hend hrest =>
    have hne : ts ≠ [] := by
      rintro rfl
      cases hrest
    simp only [outerTier, hop, hsep, hend, hg, if_true, Bool.false_eq_true, if_false, hne]
    rw [outerLoop_eq hg hrest hfuel 1 _ rfl]
    rfl

/-- With the arena granting its requests: operands joined by `|` and `&` become maximal flat runs
nested to the left, and a group joined by one outer separator becomes one flat node. -/
theorem separators_fold (ps : UParser P E) (granted : Nat → Bool) (hg : ∀ k, granted k) :
    (∀ p stop js lhs fuel, Joined ps stop p js → js.length < fuel →
      pipeAmpFold ps granted fuel 0 p lhs none = (.ok (nestRuns lhs (runs js)), stop)) ∧
    ∀ s p stop t ts fuel, Members ps s p (t :: ts) stop → ts.length ≤ fuel →
      outerTier ps granted fuel p = (.ok (if ts = [] then t else .seq t.line s (t :: ts)), stop) :=
  ⟨fun _ _ _ lhs _ h hfuel => pipe_amp_fold_eq hg h hfuel lhs,
    fun _ _ _ _ _ _ h hfuel => outerTier_eq hg h hfuel⟩

end

def tokenParser : UParser (List (UTokenType × UAstNode)) Unit where
  peek p := (p.head?.elim .eof Prod.fst, 1)
  consume := List.tail
  sepOperand p := (.ok (p.head?.elim (.nil 1) Prod.snd), p.tail)
  statementOrExpr p := (.ok (p.head?.elim (.nil 1) Prod.snd), p.tail)

/-- `a | b & c`. -/
theorem separators_fold_mixed :
    let a : UAstNode := .ident 1 (ascii "a")
    let b : UAstNode := .ident 1 (ascii "b")
    let c : UAstNode := .ident 1 (ascii "c")
    pipeAmpFold tokenParser (fun _ => true) 3 0 [(.pipe, a), (.int, b), (.amp, a), (.int, c)] a none =
      (.ok (.seq 1 .amp [.seq 1 .pipe [a, b], c]), []) :=
  (separators_fold tokenParser (fun _ => true) (fun _ => rfl)).1 _ []
    [⟨.pipe, 1, .ident 1 (ascii "b")⟩, ⟨.amp, 1, .ident 1 (ascii "c")⟩] _ 3
    (.more rfl rfl rfl rfl (.more rfl rfl rfl rfl (.done rfl)))
    (by decide)

end Urbi.Parse
