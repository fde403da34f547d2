import Mathlib.Data.List.Basic
import Xv6Signals.Lib.Memory

namespace Xv6Signals.Shell
open Lib List

/-- What `gettoken` returns, with the text between `q` and `eq` for a word; a `>` that another one
follows is `gtgt`. -/
inductive Tok
  | eof | bar | lparen | rparen | semi | amp | lt | gt | gtgt
  | word (text : List Byte)
  deriving DecidableEq, Repr

def whitespace : List Byte := [32, 9, 13, 10, 11]

def symbols : List Byte := [60, 124, 62, 38, 59, 40, 41]

def skipSpace (s : List Byte) : List Byte := s.dropWhile (whitespace.contains ·)

def wordChar (c : Byte) : Bool := !whitespace.contains c && !symbols.contains c

def symbolTok (c : Byte) : Option Tok :=
  if c = 124 then some .bar
  else if c = 40 then some .lparen
  else if c = 41 then some .rparen
  else if c = 59 then some .semi
  else if c = 38 then some .amp
  else if c = 60 then some .lt
  else none

def gettoken (s : List Byte) : Tok × List Byte :=
  match skipSpace s with
  | [] => (.eof, [])
  | c :: s =>
    if c = 62 then
      if s.head? = some 62 then (.gtgt, skipSpace s.tail) else (.gt, skipSpace s)
    else
      match symbolTok c with
      | some t => (t, skipSpace s)
      | none => (.word (c :: s.takeWhile wordChar), skipSpace (s.dropWhile wordChar))

def peek (toks : List Byte) (s : List Byte) : Bool × List Byte :=
  ((skipSpace s).head?.any (toks.contains ·), skipSpace s)

def tokensTo : Nat → List Byte → List Tok
  | 0, _ => []
  | n + 1, s =>
    match gettoken s with
    | (.eof, _) => []
    | (t, s) => t :: tokensTo n s

def tokens (s : List Byte) : List Tok := tokensTo (s.length + 1) s

variable {s r : List Byte} {t : Tok} {ts : List Tok} {c : Byte}

theorem skipSpace_le (s : List Byte) : (skipSpace s).length ≤ s.length :=
  (dropWhile_suffix _).length_le

@[simp] theorem skipSpace_skipSpace (s : List Byte) : skipSpace (skipSpace s) = skipSpace s := by
  rw [skipSpace, skipSpace]
  induction s with
  | nil => rfl
  | cons c s ih =>
    rw [dropWhile_cons]
    split
    · exact ih
    · rename_i hc
      rw [dropWhile_cons, if_neg hc]

theorem gettoken_skipSpace (s : List Byte) : gettoken (skipSpace s) = gettoken s := by
  rw [gettoken, skipSpace_skipSpace, gettoken]

def Tok.lead : Tok → Option Byte
  | .eof => none
  | .bar => some 124
  | .lparen => some 40
  | .rparen => some 41
  | .semi => some 59
  | .amp => some 38
  | .lt => some 60
  | .gt => some 62
  | .gtgt => some 62
  | .word text => text.head?

theorem symbolTok_lead (h : symbolTok c = some t) : t.lead = some c ∧ t ≠ .eof := by
  unfold symbolTok at h
  repeat' split at h
  all_goals
    cases h
    try exact ⟨congrArg some (Eq.symm ‹_›), by decide⟩

theorem symbolTok_none (h : symbolTok c = none) (hgt : c ≠ 62) : c ∉ symbols := by
  unfold symbolTok at h
  repeat' split at h
  all_goals try cases h
  simp only [symbols, mem_cons, not_mem_nil, or_false, not_or]
  exact ⟨‹_›, ‹_›, hgt, ‹_›, ‹_›, ‹_›, ‹_›⟩

theorem gettoken_cases (s : List Byte) : skipSpace s = [] ∧ gettoken s = (.eof, []) ∨
    ∃ c rest, skipSpace s = c :: rest ∧ (gettoken s).1 ≠ .eof ∧ (gettoken s).1.lead = some c ∧
      (gettoken s).2.length ≤ rest.length ∧
      ∀ text, (gettoken s).1 = .word text → ∃ d ds, text = d :: ds ∧ d ∉ symbols := by
  unfold gettoken
  cases hs : skipSpace s with
  | nil => exact .inl ⟨rfl, rfl⟩
  | cons c rest =>
    refine .inr ⟨c, rest, rfl, ?_⟩
    simp only
    split
    · rename_i hc
      split
      · refine ⟨(fun he => by cases he), congrArg some hc.symm, ?_, fun text ht => by cases ht⟩
        have hle := skipSpace_le rest.tail
        rw [length_tail] at hle
        exact Nat.le_trans hle (Nat.sub_le _ _)
      · refine ⟨(fun he => by cases he), congrArg some hc.symm, skipSpace_le _, ?_⟩
        intro text ht
        cases ht
    rename_i hgt
    split
    · rename_i t ht
      refine ⟨(symbolTok_lead ht).2, (symbolTok_lead ht).1, skipSpace_le _, fun text he => ?_⟩
      dsimp only at he
      subst he
      unfold symbolTok at ht
      repeat' split at ht
      all_goals cases ht
    · rename_i ht
      refine ⟨(fun he => by cases he), rfl, ?_, fun text he => ?_⟩
      · exact Nat.le_trans (skipSpace_le _) (dropWhile_suffix _).length_le
      · cases he
        exact ⟨c, _, rfl, symbolTok_none ht hgt⟩

theorem tokensTo_eq {n m : Nat} (hn : s.length < n) (hm : s.length < m) :
    tokensTo n s = tokensTo m s := by
  induction n generalizing m s with
  | zero => omega
  | succ n ih =>
    cases m with
    | zero => omega
    | succ m =>
      rw [tokensTo, tokensTo]
      rcases gettoken_cases s with ⟨-, he⟩ | ⟨c, rest, hs, -, -, hlen, -⟩
      · rw [he]
      have hle := skipSpace_le s
      rw [hs, length_cons] at hle
      have heq := ih (s := (gettoken s).2) (m := m) (by omega) (by omega)
      cases hg : gettoken s with
      | mk t r =>
        rw [hg] at heq
        dsimp only at heq
        cases t <;> simp only [heq]

theorem tokens_cons (h : tokens s = t :: ts) : (gettoken s).1 = t ∧ tokens (gettoken s).2 = ts := by
  rw [tokens, tokensTo] at h
  rcases gettoken_cases s with ⟨-, he⟩ | ⟨c, rest, hs, -, -, hlen, -⟩
  · rw [he] at h
    cases h
  have hle := skipSpace_le s
  rw [hs, length_cons] at hle
  have heq := tokensTo_eq (s := (gettoken s).2) (n := s.length) (m := (gettoken s).2.length + 1)
    (by omega) (by omega)
  cases hg : gettoken s with
  | mk t' r =>
    rw [hg] at h heq
    dsimp only at h heq ⊢
    rw [tokens, ← heq]
    cases t' <;> cases h <;> exact ⟨rfl, rfl⟩

theorem tokens_nil (h : tokens s = []) : skipSpace s = [] ∧ gettoken s = (.eof, []) := by
  rcases gettoken_cases s with he | ⟨c, rest, hs, hne, -, -, -⟩
  · exact he
  rw [tokens, tokensTo] at h
  cases hg : gettoken s with
  | mk t r =>
    rw [hg] at h hne
    dsimp only at h hne
    cases t <;> first | exact (hne rfl).elim | cases h

theorem tokens_skipSpace (s : List Byte) : tokens (skipSpace s) = tokens s := by
  have heq := tokensTo_eq (s := skipSpace s) (n := (skipSpace s).length + 1) (m := s.length + 1)
    (by omega) (Nat.lt_succ_of_le (skipSpace_le s))
  rw [tokens, tokens, heq, tokensTo, tokensTo, gettoken_skipSpace]

@[simp] theorem tokens_peek (toks s : List Byte) : tokens (peek toks s).2 = tokens s :=
  tokens_skipSpace s

theorem peek_cons (h : tokens s = t :: ts) (toks : List Byte) :
    (peek toks s).1 = t.lead.any (toks.contains ·) := by
  have ht := (tokens_cons h).1
  rcases gettoken_cases s with ⟨-, he⟩ | ⟨c, rest, hs, -, hlead, -, -⟩
  · rw [he] at ht
    subst ht
    rw [tokens, tokensTo, he] at h
    cases h
  · rw [peek, hs, ← ht, hlead]
    rfl

theorem peek_nil (h : tokens s = []) (toks : List Byte) : (peek toks s).1 = false := by
  rw [peek, (tokens_nil h).1]
  rfl

theorem tokens_head (h : tokens s = t :: ts) :
    t ≠ .eof ∧ ∀ text, t = .word text → ∃ d ds, text = d :: ds ∧ d ∉ symbols := by
  have ht := (tokens_cons h).1
  rcases gettoken_cases s with ⟨-, he⟩ | ⟨c, rest, -, hne, -, -, hword⟩
  · rw [he] at ht
    subst ht
    rw [tokens, tokensTo, he] at h
    cases h
  · rw [← ht]
    exact ⟨hne, hword⟩

theorem tokens_length_le (s : List Byte) : (tokens s).length ≤ s.length := by
  have hto (n : Nat) (s : List Byte) : (tokensTo n s).length ≤ s.length := by
    induction n generalizing s with
    | zero => exact Nat.zero_le _
    | succ n ih =>
      rw [tokensTo]
      rcases gettoken_cases s with ⟨-, he⟩ | ⟨c, rest, hs, -, -, hlen, -⟩
      · rw [he]
        exact Nat.zero_le _
      have hle := skipSpace_le s
      rw [hs, length_cons] at hle
      have hrest := ih (gettoken s).2
      cases hg : gettoken s with
      | mk t r =>
        rw [hg] at hlen hrest
        dsimp only at hlen hrest
        cases t <;> simp only [length_nil, length_cons] <;> omega
  exact hto _ s

end Xv6Signals.Shell
