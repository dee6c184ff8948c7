import Urbi.Lex.Hidden
import Urbi.Lex.Integers

/-!
# Synclines

The lexer keeps pointers into a pool of five slots and writes the next slot at every line and push,
whether or not the stack still points at it.  A line's number is read into an `unsigned` and kept in
an `int`.
-/

namespace Urbi.Lex

variable {l : ULexer} {n : Nat} {cur file : Bytes} {d : Directive}

/-! ## The names a text gives -/

structure Files where
  current : Bytes
  stack : List Bytes
  deriving DecidableEq, Repr

def Files.apply (fs : Files) : Directive → Files
  | .line _ file => { fs with current := cstr file }
  | .push _ file => ⟨cstr file, fs.current :: fs.stack⟩
  | .pop =>
    match fs.stack with
    | [] => fs
    | name :: stack => ⟨name, stack⟩

def Files.after (log : List (ULexer × Directive)) : Files :=
  log.foldr (fun e fs => fs.apply e.2) ⟨ascii "<stdin>", []⟩

def nameIn (pool : Nat → Bytes) : UFile → Bytes
  | .stdin => ascii "<stdin>"
  | .slot i => cstr (pool i)

namespace ULexer

def files (l : ULexer) : Files :=
  ⟨nameIn l.namePool l.sourceName, l.synclineStack.map fun e => nameIn l.namePool e.1⟩

def Within (l : ULexer) : Directive → Prop
  | .line _ file => file.length < synclineNameMax
  | .push _ file => file.length < synclineNameMax ∧ l.synclineStack.length < synclineStackMax
  | .pop => True

def Keeps (l : ULexer) (file : Bytes) (p : UFile) : Prop :=
  p = .slot l.poolIdx → cstr (l.namePool l.poolIdx) = cstr file

/-- The slot about to be written is one the stack does not point at (a push puts the current name on
it first), or holds that very name. -/
def Harmless (l : ULexer) : Directive → Prop
  | .line _ file => ∀ e ∈ l.synclineStack, l.Keeps file e.1
  | .push _ file => l.Keeps file l.sourceName ∧ ∀ e ∈ l.synclineStack, l.Keeps file e.1
  | .pop => True

instance (l : ULexer) (d : Directive) : Decidable (l.Within d) :=
  match d with
  | .line _ file => inferInstanceAs (Decidable (file.length < synclineNameMax))
  | .push _ file => inferInstanceAs
      (Decidable (file.length < synclineNameMax ∧ l.synclineStack.length < synclineStackMax))
  | .pop => inferInstanceAs (Decidable True)

instance (l : ULexer) (file : Bytes) (p : UFile) : Decidable (l.Keeps file p) :=
  inferInstanceAs (Decidable (p = .slot l.poolIdx → cstr (l.namePool l.poolIdx) = cstr file))

instance (l : ULexer) (d : Directive) : Decidable (l.Harmless d) :=
  match d with
  | .line _ file => inferInstanceAs (Decidable (∀ e ∈ l.synclineStack, l.Keeps file e.1))
  | .push _ file => inferInstanceAs
      (Decidable (l.Keeps file l.sourceName ∧ ∀ e ∈ l.synclineStack, l.Keeps file e.1))
  | .pop => inferInstanceAs (Decidable True)

/-! ## One directive -/

theorem files_congr {l' : ULexer} (h : l'.directory = l.directory) : l'.files = l.files := by
  obtain ⟨cur, line, left, name, stack, pool, idx⟩ := l
  obtain ⟨cur', line', left', name', stack', pool', idx'⟩ := l'
  simp only [directory, Prod.mk.injEq] at h
  obtain ⟨rfl, rfl, rfl, rfl⟩ := h
  rfl

@[simp] theorem nameLine_sourceName (l : ULexer) (n : Nat) (file : Bytes) :
    (l.nameLine n file).sourceName = .slot l.poolIdx := by rw [nameLine]

@[simp] theorem nameLine_synclineStack (l : ULexer) (n : Nat) (file : Bytes) :
    (l.nameLine n file).synclineStack = l.synclineStack := by rw [nameLine]

theorem nameIn_nameLine_slot (h : file.length < synclineNameMax) :
    nameIn (l.nameLine n file).namePool (.slot l.poolIdx) = cstr file := by
  have hclip : clip file = file := List.take_of_length_le (Nat.le_sub_one_of_lt h)
  simp only [nameIn, nameLine, if_true, hclip]

theorem nameIn_nameLine_eq_iff (h : file.length < synclineNameMax) (p : UFile) :
    nameIn (l.nameLine n file).namePool p = nameIn l.namePool p ↔ l.Keeps file p := by
  cases p with
  | stdin => simp [nameIn, Keeps]
  | slot i =>
    by_cases hi : i = l.poolIdx
    · subst hi
      rw [nameIn_nameLine_slot h]
      simp only [nameIn, Keeps, forall_const]
      exact eq_comm
    · simp [nameIn, nameLine, Keeps, hi]

theorem map_nameIn_nameLine_eq_iff (h : file.length < synclineNameMax)
    (stack : List (UFile × Nat)) : (stack.map fun e => nameIn (l.nameLine n file).namePool e.1) =
        (stack.map fun e => nameIn l.namePool e.1) ↔ ∀ e ∈ stack, l.Keeps file e.1 := by
  simp only [List.map_inj_left, nameIn_nameLine_eq_iff h]

theorem files_apply_iff (h : l.Within d) : (l.apply d).files = l.files.apply d ↔ l.Harmless d := by
  cases d with
  | line n file =>
    have hstack := map_nameIn_nameLine_eq_iff (l := l) (n := n) h l.synclineStack
    rw [apply, files, nameLine_sourceName, nameLine_synclineStack, nameIn_nameLine_slot h]
    simp only [Files.apply, Files.mk.injEq, true_and]
    exact hstack
  | push n file =>
    obtain ⟨hfile, hdepth⟩ := h
    have htop := nameIn_nameLine_eq_iff (l := l) (n := n) hfile l.sourceName
    have hstack := map_nameIn_nameLine_eq_iff (l := l) (n := n) hfile l.synclineStack
    simp only [apply, files, hdepth, if_true, nameLine_sourceName, nameIn_nameLine_slot hfile,
      List.map_cons, Files.apply, Files.mk.injEq, true_and, List.cons.injEq]
    exact and_congr htop hstack
  | pop =>
    simp only [Harmless, iff_true]
    obtain ⟨cur, line, left, name, stack, pool, idx⟩ := l
    cases stack <;> rfl

/-! ## Turns of the lexer -/

def turn (host : FloatHost) (l : ULexer) : Option Directive × ULexer :=
  match l.triviaStep with
  | .done => (none, (scanToken host l).2)
  | .more l' => (l.directive?.map (·.1), l')
  | .bad _ l' => (none, l')

theorem skipComment_keeps (l : ULexer) (cur : Bytes) :
    (l.skipComment cur).2.directory = l.directory ∧
      (l.skipComment cur).2.cur.length ≤ cur.length := by
  induction cur generalizing l with
  | nil => exact ⟨rfl, Nat.le_refl _⟩
  | cons c cs ih =>
    unfold skipComment
    split
    · exact ⟨rfl, Nat.zero_le _⟩
    · split
      · exact ⟨rfl, (List.tail_suffix cs).length_le.trans (Nat.le_succ _)⟩
      · refine ⟨(ih _).1.trans ?_, (ih _).2.trans (Nat.le_succ _)⟩
        split <;> rfl

theorem directive?_eq_some {r : Directive × Bytes} (h : l.directive? = some r) :
    ∃ cs, l.cur = 47 :: 47 :: cs ∧ parseSyncline cs = some r := by
  unfold directive? at h
  split at h
  · split at h
    · rename_i hcur hslash
      exact ⟨_, by rw [hcur, hslash.1, hslash.2], h⟩
    · cases h
  · cases h

theorem triviaStep_directive (h : l.directive? = some (d, cur)) :
    l.triviaStep = .more { l.apply d with cur } := by
  obtain ⟨cs, hcur, -⟩ := directive?_eq_some h
  simp [triviaStep, hcur, isBlank, h]

theorem turn_directive {host : FloatHost} (h : l.directive? = some (d, cur)) :
    turn host l = (some d, { l.apply d with cur }) := by
  simp [turn, triviaStep_directive h, h]

def Trivia.Leaves (l : ULexer) : Trivia → Prop
  | .done => True
  | .more l' => l'.directory = l.directory ∧ l'.cur.length < l.cur.length
  | .bad _ l' => l'.directory = l.directory

theorem triviaStep_leaves (h : l.directive? = none) : l.triviaStep.Leaves l := by
  unfold triviaStep
  rw [h]
  split
  · trivial
  · rename_i c cs hcur
    have hlt : ∀ {n}, n ≤ cs.length → n < l.cur.length := fun hn => by
      rw [hcur]
      exact Nat.lt_succ_of_le hn
    have htail := (List.tail_suffix cs).length_le
    split
    · exact ⟨rfl, hlt (Nat.le_refl _)⟩
    · split
      · exact ⟨rfl, hlt (Nat.le_refl _)⟩
      · split
        · split
          · exact ⟨rfl, hlt htail⟩
          · trivial
        · split
          · exact ⟨rfl, hlt ((List.dropWhile_suffix _).length_le.trans htail)⟩
          · split
            · obtain ⟨hdir, hlen⟩ := skipComment_keeps l cs.tail
              split <;> rename_i hskip <;> rw [hskip] at hdir hlen
              · exact ⟨hdir, hlt (hlen.trans htail)⟩
              · exact hdir
            · trivial

theorem turn_no_directive {host : FloatHost} (h : l.directive? = none) :
    (turn host l).1 = none ∧ (turn host l).2.directory = l.directory := by
  have hleaves := triviaStep_leaves h
  unfold turn
  generalize l.triviaStep = step at hleaves ⊢
  cases step with
  | done => exact ⟨rfl, scanToken_directory host l⟩
  | more l' => exact ⟨by rw [h]; rfl, hleaves.1⟩
  | bad t l' => exact ⟨rfl, hleaves⟩

end ULexer

/-! ## Whole texts -/

/-- The directives obeyed, the last one first and each with the state it met, and the state after
them. -/
def trace (host : FloatHost) (src : Bytes) : Nat → List (ULexer × Directive) × ULexer
  | 0 => ([], ulexInit src)
  | n + 1 =>
    let l := (trace host src n).2
    (((l.turn host).1.map (l, ·)).toList ++ (trace host src n).1, (l.turn host).2)

section
variable {host : FloatHost} {src : Bytes}

theorem trace_directive (h : (trace host src n).2.directive? = some (d, cur)) :
    (trace host src (n + 1)).1 = ((trace host src n).2, d) :: (trace host src n).1 ∧
      (trace host src (n + 1)).2.files = ((trace host src n).2.apply d).files := by
  simp only [trace, ULexer.turn_directive h]
  exact ⟨rfl, ULexer.files_congr rfl⟩

theorem trace_no_directive (h : (trace host src n).2.directive? = none) :
    (trace host src (n + 1)).1 = (trace host src n).1 ∧
      (trace host src (n + 1)).2.files = (trace host src n).2.files := by
  obtain ⟨hnone, hdir⟩ := @ULexer.turn_no_directive _ host h
  simp only [trace, hnone]
  exact ⟨rfl, ULexer.files_congr hdir⟩

theorem files_trace_zero : (trace host src 0).2.files = Files.after (trace host src 0).1 := rfl

theorem files_trace_succ_iff (hwithin : ∀ e ∈ (trace host src (n + 1)).1, e.1.Within e.2)
    (hold : (trace host src n).2.files = Files.after (trace host src n).1)
    (hsafe : ∀ e ∈ (trace host src n).1, e.1.Harmless e.2) :
    (trace host src (n + 1)).2.files = Files.after (trace host src (n + 1)).1 ↔
      ∀ e ∈ (trace host src (n + 1)).1, e.1.Harmless e.2 := by
  cases hd : (trace host src n).2.directive? with
  | none =>
    obtain ⟨hlog, hfiles⟩ := trace_no_directive hd
    rw [hlog, hfiles]
    exact iff_of_true hold hsafe
  | some r =>
    obtain ⟨hlog, hfiles⟩ := trace_directive hd
    rw [hlog] at hwithin ⊢
    have hafter : Files.after (((trace host src n).2, r.1) :: (trace host src n).1) =
        (trace host src n).2.files.apply r.1 := by rw [hold]; rfl
    rw [hfiles, hafter, ULexer.files_apply_iff (hwithin _ List.mem_cons_self)]
    simp only [List.forall_mem_cons]
    exact (and_iff_left hsafe).symm

theorem trace_log_mono (n k : Nat) : (trace host src n).1 ⊆ (trace host src (n + k)).1 := by
  induction k with
  | zero => exact List.Subset.refl _
  | succ k ih => exact List.Subset.trans ih (List.subset_append_right _ _)

theorem trace_log_end (h : (trace host src n).2.cur = []) (k : Nat) :
    (trace host src (n + k)).1 = (trace host src n).1 ∧ (trace host src (n + k)).2.cur = [] := by
  induction k with
  | zero => exact ⟨rfl, h⟩
  | succ k ih =>
    obtain ⟨hlog, hcur⟩ := ih
    have hdone : (trace host src (n + k)).2.triviaStep = .done := by
      simp [ULexer.triviaStep, hcur]
    have hscan : (scanToken host (trace host src (n + k)).2).2.cur = [] := by
      simp [scanToken, hcur, ULexer.emit]
    rw [← Nat.add_assoc]
    simp only [trace, ULexer.turn, hdone]
    exact ⟨hlog, hscan⟩

theorem forall_log_of_end {P : ULexer × Directive → Prop} (h : (trace host src n).2.cur = [])
    (hP : ∀ e ∈ (trace host src n).1, P e) (m : Nat) : ∀ e ∈ (trace host src m).1, P e := by
  intro e he
  have hmem := trace_log_mono m n he
  rw [Nat.add_comm, (trace_log_end h m).1] at hmem
  exact hP e hmem

/-- In a text whose directives stay within the limits, what the lexer's pointers read is at every
point the name in effect and the names pushed, so a pop brings back the name of its push, exactly if
every directive is harmless. -/
theorem synclines_restore_files_iff (host : FloatHost) (src : Bytes)
    (hwithin : ∀ n, ∀ e ∈ (trace host src n).1, e.1.Within e.2) :
    (∀ n, (trace host src n).2.files = Files.after (trace host src n).1) ↔
      ∀ n, ∀ e ∈ (trace host src n).1, e.1.Harmless e.2 := by
  have step := fun n => @files_trace_succ_iff n host src (hwithin (n + 1))
  constructor
  · intro h n
    induction n with
    | zero => simp [trace]
    | succ n ih => exact (step n (h n) ih).mp (h (n + 1))
  · intro h n
    induction n with
    | zero => exact files_trace_zero
    | succ n ih => exact (step n ih (h n)).mpr (h (n + 1))

def nested : Bytes := ascii "//#line 1 \"a\"\n//#push 1 \"b\"\n//#pop"

theorem synclines_restore_files_nested :
    (trace default nested 5).2.cur = [] ∧
      ∀ n, (trace default nested n).2.files = Files.after (trace default nested n).1 := by
  have hend : (trace default nested 5).2.cur = [] := rfl
  refine ⟨hend, (synclines_restore_files_iff default nested fun n => ?_).mpr fun n => ?_⟩
  · exact forall_log_of_end hend (by decide) n
  · exact forall_log_of_end hend (by decide) n

def reusedSlot : Bytes :=
  ascii "//#line 1 \"a\"\n//#push 1 \"b\"\n//#line 1 \"c\"\n//#line 1 \"d\"\n" ++
    ascii "//#line 1 \"e\"\n//#line 1 \"f\"\n//#pop"

/-- After the pop the name in effect is `f`, where the push was made in `a`. -/
theorem pop_restores_another_file :
    (trace default reusedSlot 13).2.files = ⟨ascii "f", []⟩ ∧
      Files.after (trace default reusedSlot 13).1 = ⟨ascii "a", []⟩ ∧
      (trace default reusedSlot 13).1.map (·.2) = [.pop, .line 1 (ascii "f"), .line 1 (ascii "e"),
        .line 1 (ascii "d"), .line 1 (ascii "c"), .push 1 (ascii "b"), .line 1 (ascii "a")] := by
  exact ⟨rfl, rfl, rfl⟩

/-! ## The turns and the tokens -/

theorem lineNumber_suffix {m : Nat} {rest : Bytes} (h : lineNumber n cur = some (m, rest)) :
    rest <:+ cur := by
  induction cur generalizing n with
  | nil =>
    cases h
    exact List.suffix_refl _
  | cons c cs ih =>
    simp only [lineNumber] at h
    split at h
    · split at h
      · cases h
      · exact (ih h).trans (List.suffix_cons c cs)
    · cases h
      exact List.suffix_refl _

theorem parseSyncline_suffix {rest : Bytes} (h : parseSyncline cur = some (d, rest)) :
    rest <:+ cur := by
  obtain ⟨-, h⟩ := Option.ite_none_left_eq_some.mp h
  have hname : ∀ p q : UInt8 → Bool, (cur.tail.dropWhile p).dropWhile q <:+ cur := fun p q =>
    (List.dropWhile_suffix q).trans ((List.dropWhile_suffix p).trans (List.tail_suffix cur))
  dsimp only at h
  split at h
  · obtain ⟨-, h⟩ := Option.ite_none_right_eq_some.mp h
    cases h
    exact (List.dropWhile_suffix _).trans (hname _ _)
  · obtain ⟨-, h⟩ := Option.ite_none_left_eq_some.mp h
    obtain ⟨-, h⟩ := Option.ite_none_left_eq_some.mp h
    obtain ⟨⟨n, after⟩, hline, h⟩ := Option.bind_eq_some_iff.mp h
    have hafter := (lineNumber_suffix hline).trans (hname _ _)
    obtain ⟨-, h⟩ := Option.ite_none_left_eq_some.mp h
    obtain ⟨-, h⟩ := Option.ite_none_left_eq_some.mp h
    cases h
    refine (List.dropWhile_suffix _).trans ((List.tail_suffix _).trans ?_)
    refine (List.dropWhile_suffix _).trans ((List.tail_suffix _).trans ?_)
    exact (List.dropWhile_suffix _).trans hafter

theorem triviaStep_length {l' : ULexer} (h : l.triviaStep = .more l') :
    l'.cur.length < l.cur.length := by
  cases hd : l.directive? with
  | some r =>
    obtain ⟨cs, hcur, hparse⟩ := ULexer.directive?_eq_some hd
    rw [ULexer.triviaStep_directive hd] at h
    cases h
    have hle := (parseSyncline_suffix hparse).length_le
    rw [hcur]
    simp only [List.length_cons]
    omega
  | none =>
    have hleaves := ULexer.triviaStep_leaves hd
    rw [h] at hleaves
    exact hleaves.2

theorem skipTrivia_turns {m : Nat} (hlen : l.cur.length ≤ m) (h : (trace host src n).2 = l) :
    (∃ k l', l.skipTrivia m = (none, l') ∧ l'.triviaStep = .done ∧ (trace host src k).2 = l') ∨
      ∃ k t l', l.skipTrivia m = (some t, l') ∧ (trace host src k).2 = l' := by
  induction m generalizing n l with
  | zero =>
    have hcur : l.cur = [] := List.eq_nil_of_length_eq_zero (Nat.le_zero.mp hlen)
    exact .inl ⟨n, l, rfl, by simp [ULexer.triviaStep, hcur], h⟩
  | succ m ih =>
    have hnext : (trace host src (n + 1)).2 = (l.turn host).2 := by rw [← h]; rfl
    simp only [ULexer.skipTrivia]
    cases hstep : l.triviaStep with
    | done => exact .inl ⟨n, l, rfl, hstep, h⟩
    | more l' =>
      have hlt := triviaStep_length hstep
      exact ih (by omega) (by rw [hnext, ULexer.turn, hstep])
    | bad t l' => exact .inr ⟨n + 1, t, l', rfl, by rw [hnext, ULexer.turn, hstep]⟩

theorem Lexing.exists_trace (h : Lexing host src l) : ∃ n, (trace host src n).2 = l := by
  induction h with
  | init => exact ⟨0, rfl⟩
  | next _ ih =>
    obtain ⟨n, hn⟩ := ih
    rw [ulexNext]
    rcases skipTrivia_turns (Nat.le_refl _) hn with ⟨k, l', hskip, hdone, hk⟩ | ⟨k, t, l', hskip, hk⟩
    · refine ⟨k + 1, ?_⟩
      rw [hskip]
      simp only [trace, hk, ULexer.turn, hdone]
    · refine ⟨k, ?_⟩
      rw [hskip, hk]

end

/-! ## Line numbers -/

inductive Numbered (ds : Bytes) : Bytes → Prop
  | mk {name gap after : Bytes} (hname : name = ascii "line" ∨ name = ascii "push")
      (hgap : ∀ c ∈ gap, isBlank c) (hne : ds ≠ []) (hds : ∀ c ∈ ds, isDigit c)
      (hafter : ¬ after.head?.any isDigit) :
    Numbered ds (47 :: 47 :: 35 :: (name ++ (gap ++ (ds ++ after))))

/-- The directive is passed over like any comment, or the line behind it is numbered `N`. -/
def ULexer.NumbersNext (l : ULexer) (N : Nat) : Prop :=
  ∃ l', l.triviaStep = .more l' ∧
    (l.directive? = none ∧ l'.line = l.line ∨
      ∀ rest, l'.cur = 10 :: rest → ∃ next, l'.triviaStep = .more next ∧ next.line = N)

/-- The guard does not see that a number has wrapped. -/
theorem lineNumber_digits {ds after rest : Bytes} {m value : Nat} (hds : ∀ c ∈ ds, isDigit c)
    (hafter : ¬ after.head?.any isDigit)
    (h : lineNumber (value % 2 ^ 32) (ds ++ after) = some (m, rest)) :
    m = extend 10 value ds % 2 ^ 32 := by
  induction ds generalizing value with
  | nil =>
    rw [extend_nil]
    cases after with
    | nil => cases h; rfl
    | cons c cs =>
      have hc : ¬ isDigit c := by simpa using hafter
      rw [List.nil_append, lineNumber, if_neg hc] at h
      cases h
      rfl
  | cons c ds ih =>
    obtain ⟨hc, hds⟩ := List.forall_mem_cons.mp hds
    have hd : digitValue 10 c = some (c.toNat - 48) := by
      have hlt : c.toNat - 48 < 10 := by
        simp only [isDigit, Bool.and_eq_true, decide_eq_true_eq, UInt8.le_iff_toNat_le] at hc
        have : c.toNat ≤ 57 := hc.2
        omega
      simp [digitValue, hc, hlt]
    have hstep : (value % 2 ^ 32 * 10 + (c.toNat - 48)) % 2 ^ 32 =
        (value * 10 + (c.toNat - 48)) % 2 ^ 32 := by omega
    rw [List.cons_append, lineNumber, if_pos hc, hstep] at h
    rw [extend_cons hd]
    split at h
    · cases h
    · exact ih hds h

theorem span_append {p : UInt8 → Bool} {pre rest : Bytes} (hpre : ∀ c ∈ pre, p c)
    (hrest : ¬ rest.head?.any p) :
    (pre ++ rest).takeWhile p = pre ∧ (pre ++ rest).dropWhile p = rest := by
  rw [List.takeWhile_append_of_pos hpre, List.dropWhile_append_of_pos hpre, dropWhile_stop hrest]
  cases rest with
  | nil => simp
  | cons c cs => simp [List.takeWhile_cons_of_neg (by simpa using hrest : ¬ p c)]

theorem head_of_lineEnd {c : UInt8} (h : c ∈ (cur.dropWhile (· ≠ 10)).head?) : c = 10 := by
  have hstop := List.head?_dropWhile_not (fun c : UInt8 => decide (c ≠ 10)) cur
  rw [Option.mem_def.mp h] at hstop
  simpa using hstop

theorem parseSyncline_numbered {ds rest : Bytes} (hnum : Numbered ds (47 :: 47 :: cur))
    (h : parseSyncline cur = some (d, rest)) :
    (∃ file, d = .line (digitsValue 10 ds % 2 ^ 32) file ∨
      d = .push (digitsValue 10 ds % 2 ^ 32) file) ∧ ∀ c ∈ rest.head?, c = 10 := by
  cases hnum with
  | @mk name gap after hname hgap hne hds hafter =>
    obtain ⟨a, t, rfl⟩ := List.exists_cons_of_ne_nil hne
    have ha : isDigit a = true := hds a List.mem_cons_self
    have hlower : ∀ c : UInt8, isBlank c ∨ isDigit c → ¬ (97 ≤ c && c ≤ 122) := by
      intro c
      simp only [isBlank, isDigit, Bool.or_eq_true, beq_iff_eq, Bool.and_eq_true, decide_eq_true_eq,
        UInt8.le_iff_toNat_le, ← UInt8.toNat_inj, UInt8.reduceToNat]
      omega
    have hstop : ¬ (gap ++ (a :: t ++ after)).head?.any fun c => 97 ≤ c && c ≤ 122 := by
      cases gap with
      | nil => simpa using hlower a (.inr ha)
      | cons b gap => simpa using hlower b (.inl (hgap b List.mem_cons_self))
    have hletters : ∀ c ∈ name, (97 ≤ c && c ≤ 122 : Bool) := by
      rcases hname with rfl | rfl <;> exact List.all_eq_true.mp (by decide)
    obtain ⟨htake, hdrop⟩ := span_append hletters hstop
    have hblank : ¬ (a :: t ++ after).head?.any isBlank := by
      simp only [isDigit, Bool.and_eq_true, decide_eq_true_eq, UInt8.le_iff_toNat_le,
        UInt8.reduceToNat] at ha
      simp [isBlank, ← UInt8.toNat_inj]
      omega
    unfold parseSyncline at h
    simp only [List.head?_cons, List.tail_cons, htake, hdrop, (span_append hgap hblank).2] at h
    split at h
    · cases h
    split at h
    · rename_i hpop
      have hlen := congrArg List.length hpop
      rcases hname with rfl | rfl <;> exact absurd hlen (by decide)
    split at h
    · cases h
    split at h
    · cases h
    obtain ⟨⟨n, cur⟩, hline, h⟩ := Option.bind_eq_some_iff.mp h
    have hn : n = digitsValue 10 (a :: t) % 2 ^ 32 :=
      (lineNumber_digits hds hafter hline).trans (by rw [extend_zero])
    dsimp only at h
    split at h
    · cases h
    split at h
    · cases h
    cases h
    refine ⟨?_, fun c => head_of_lineEnd⟩
    rw [hn]
    split
    · exact ⟨_, .inr rfl⟩
    · exact ⟨_, .inl rfl⟩

theorem toInt32_eq_iff (n : Nat) : toInt32 (n % 2 ^ 32) = n ↔ n < 2 ^ 31 := by
  unfold toInt32
  rw [Int.bmod_def]
  split <;> omega

/-- The directive is passed over or the line behind it is numbered as its digits say, exactly if they
come to less than `2 ^ 31` where it is obeyed and a line stands behind it. -/
theorem syncline_numbers_next_iff {ds : Bytes} (h : Numbered ds l.cur) :
    l.NumbersNext (digitsValue 10 ds) ↔
      ∀ d rest, l.directive? = some (d, 10 :: rest) → digitsValue 10 ds < 2 ^ 31 := by
  cases hd : l.directive? with
  | none =>
    refine iff_of_true ?_ fun _ _ h => by cases h
    generalize hcur : l.cur = cur at h
    cases h
    exact ⟨{ l with cur := l.cur.tail.tail.dropWhile (· ≠ 10) },
      by simp [ULexer.triviaStep, hcur, isBlank, hd], .inl ⟨hd, rfl⟩⟩
  | some r =>
    obtain ⟨d, rest⟩ := r
    obtain ⟨cs, hcur, hparse⟩ := ULexer.directive?_eq_some hd
    have hstep := ULexer.triviaStep_directive hd
    obtain ⟨⟨file, hfile⟩, hhead⟩ := parseSyncline_numbered (hcur ▸ h) hparse
    have hline : (l.apply d).line + 1 = toInt32 (digitsValue 10 ds % 2 ^ 32) := by
      rcases hfile with rfl | rfl <;> exact Int.sub_add_cancel _ _
    cases rest with
    | nil =>
      exact iff_of_true ⟨_, hstep, .inr fun _ h => by cases h⟩ fun _ _ h => by cases h
    | cons c rest =>
      obtain rfl := hhead c rfl
      have hnext : ULexer.triviaStep { l.apply d with cur := 10 :: rest } =
          .more (ULexer.newline { l.apply d with cur := 10 :: rest } rest) := rfl
      constructor
      · rintro ⟨l', hl', ⟨hnone, -⟩ | hN⟩ - - -
        · cases hd.symm.trans hnone
        · cases hstep.symm.trans hl'
          obtain ⟨next, hn, hN⟩ := hN rest rfl
          cases hnext.symm.trans hn
          exact (toInt32_eq_iff _).mp (hline.symm.trans hN)
      · intro hlt
        refine ⟨_, hstep, .inr ?_⟩
        rintro _ ⟨⟩
        exact ⟨_, hnext, hline.trans ((toInt32_eq_iff _).mpr (hlt d rest rfl))⟩

theorem syncline_numbers_next_seven :
    (ulexInit (ascii "//#line 7 \"a\"\n")).NumbersNext (digitsValue 10 (ascii "7")) := by
  have h : Numbered (ascii "7") (ascii "//#line 7 \"a\"\n") :=
    .mk (.inl rfl) (List.all_eq_true.mp (by decide : [32].all isBlank)) (by decide)
      (List.all_eq_true.mp (by decide)) (by decide)
  exact (syncline_numbers_next_iff h).mpr fun _ _ _ => by decide

/-- The line behind `//#line 4294967299` is numbered 3, and the one behind `//#line 2147483648` is
numbered below zero. -/
theorem syncline_number_wraps :
    (ULexer.turn default (trace default (ascii "//#line 4294967299 \"a\"\n") 1).2).2.line = 3 ∧
      (ULexer.turn default (trace default (ascii "//#line 2147483648 \"a\"\n") 1).2).2.line =
        -2147483648 := by
  exact ⟨rfl, rfl⟩

end Urbi.Lex
