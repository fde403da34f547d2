import Mathlib.Computability.Language
import Xv6Signals.Lib.Memory

namespace Xv6Signals.Grep
open Lib List
open scoped Computability

def charAt (s : List Byte) (i : Nat) : Byte := s.getD i 0

variable {re text w post : List Byte} {c x : Byte} {i : Nat}

theorem lt_of_charAt (h : charAt text i ≠ 0) : i < text.length := by
  by_contra hi
  exact h (getD_eq_default _ _ (Nat.le_of_not_lt hi))

mutual

def matchhere (re text : List Byte) : Bool :=
  if charAt re 0 = 0 then true
  else if charAt re 1 = 42 then matchstar (charAt re 0) (re.drop 2) text
  else if charAt re 0 = 36 ∧ charAt re 1 = 0 then charAt text 0 == 0
  else if charAt text 0 ≠ 0 ∧ (charAt re 0 = 46 ∨ charAt re 0 = charAt text 0) then
    matchhere (re.drop 1) (text.drop 1)
  else false
termination_by (re.length, text.length, 0)
decreasing_by
  all_goals
    have hre := lt_of_charAt ‹¬ charAt re 0 = 0›
    apply Prod.Lex.left
    rw [length_drop]
    omega

def matchstar (c : Byte) (re text : List Byte) : Bool :=
  if matchhere re text then true
  else if charAt text 0 ≠ 0 ∧ (charAt text 0 = c ∨ c = 46) then matchstar c re (text.drop 1)
  else false
termination_by (re.length, text.length, 1)
decreasing_by
  · exact Prod.Lex.right _ (Prod.Lex.right _ Nat.zero_lt_one)
  · rename_i h
    have htext := lt_of_charAt h.1
    apply Prod.Lex.right
    apply Prod.Lex.left
    rw [length_drop]
    omega

end

def matchLoop (re text : List Byte) : Bool :=
  if matchhere re text then true
  else if charAt text 0 ≠ 0 then matchLoop re (text.drop 1)
  else false
termination_by text.length
decreasing_by
  have htext := lt_of_charAt ‹_›
  rw [length_drop]
  omega

def matchRe (re text : List Byte) : Bool :=
  if charAt re 0 = 94 then matchhere (re.drop 1) text else matchLoop re text

inductive Atom
  | any
  | char (c : Byte)
  deriving DecidableEq, Repr

def Atom.ofChar (c : Byte) : Atom := if c = 46 then .any else .char c

def Atom.Accepts : Atom → Byte → Prop
  | .any, _ => True
  | .char c, x => x = c

def Atom.lang (a : Atom) : Language Byte := { w | ∃ x, a.Accepts x ∧ w = [x] }

inductive Piece
  | one (a : Atom)
  | many (a : Atom)
  deriving DecidableEq, Repr

def Piece.lang : Piece → Language Byte
  | .one a => a.lang
  | .many a => a.lang∗

/-- What a pattern means: its pieces, and whether it is bound to the start and to the end. -/
structure Pattern where
  start : Bool
  pieces : List Piece
  stop : Bool
  deriving DecidableEq, Repr

def Pattern.lang (p : Pattern) : Language Byte := (p.pieces.map Piece.lang).prod

def Pattern.cons (a : Piece) (p : Pattern) : Pattern := { p with pieces := a :: p.pieces }

/-- A pattern after the `^`; only a `$` that nothing follows is bound to the end. -/
def Pattern.ofTail : List Byte → Pattern
  | [] => ⟨false, [], false⟩
  | [c] => if c = 36 then ⟨false, [], true⟩ else ⟨false, [.one (.ofChar c)], false⟩
  | c :: d :: re =>
    if d = 42 then (Pattern.ofTail re).cons (.many (.ofChar c))
    else (Pattern.ofTail (d :: re)).cons (.one (.ofChar c))

def Pattern.ofChars : List Byte → Pattern
  | [] => ⟨false, [], false⟩
  | c :: re => if c = 94 then { Pattern.ofTail re with start := true } else .ofTail (c :: re)

/-- The text has a substring in the language of the pattern, at the start or at the end where the
pattern says so. -/
def Pattern.Finds (p : Pattern) (text : List Byte) : Prop :=
  ∃ pre w post, text = pre ++ w ++ post ∧ w ∈ p.lang ∧ (p.start = true → pre = []) ∧
    (p.stop = true → post = [])

def Pattern.Here (p : Pattern) (text : List Byte) : Prop :=
  ∃ w post, text = w ++ post ∧ w ∈ p.lang ∧ (p.stop = true → post = [])

variable {p : Pattern} {a : Atom}

theorem Atom.accepts_ofChar : (Atom.ofChar c).Accepts x ↔ c = 46 ∨ c = x := by
  unfold Atom.ofChar
  split
  · rename_i hc
    exact ⟨fun _ => .inl hc, fun _ => trivial⟩
  · rename_i hc
    exact ⟨fun h => .inr (Eq.symm h), fun h => (h.resolve_left hc).symm⟩

theorem Pattern.here_nil (b b' : Bool) :
    (Pattern.mk b [] b').Here text ↔ (b' = true → text = []) := by
  constructor
  · rintro ⟨w, post, rfl, hw, hpost⟩ hb
    rw [show w = [] from hw, hpost hb]
    rfl
  · intro h
    exact ⟨[], text, rfl, Language.nil_mem_one, h⟩

theorem Pattern.here_one : (p.cons (.one a)).Here text ↔
    ∃ x t, text = x :: t ∧ a.Accepts x ∧ p.Here t := by
  constructor
  · rintro ⟨w, post, rfl, hw, hpost⟩
    obtain ⟨_, ⟨x, hx, rfl⟩, v, hv, rfl⟩ := Language.mem_mul.1 hw
    exact ⟨x, v ++ post, rfl, hx, v, post, rfl, hv, hpost⟩
  · rintro ⟨x, _, rfl, hx, v, post, rfl, hv, hpost⟩
    exact ⟨x :: v, post, rfl, Language.mem_mul.2 ⟨[x], ⟨x, hx, rfl⟩, v, hv, rfl⟩, hpost⟩

theorem Pattern.here_many : (p.cons (.many a)).Here text ↔
    p.Here text ∨ ∃ x t, text = x :: t ∧ a.Accepts x ∧ (p.cons (.many a)).Here t := by
  have hlang : (p.cons (.many a)).lang = p.lang + a.lang * (p.cons (.many a)).lang := by
    show a.lang∗ * p.lang = p.lang + a.lang * (a.lang∗ * p.lang)
    rw [← mul_assoc, ← one_add_mul, Language.one_add_self_mul_kstar_eq_kstar]
  constructor
  · rintro ⟨w, post, rfl, hw, hpost⟩
    rw [hlang] at hw
    rcases hw with hw | hw
    · exact .inl ⟨w, post, rfl, hw, hpost⟩
    · obtain ⟨_, ⟨x, hx, rfl⟩, v, hv, rfl⟩ := Language.mem_mul.1 hw
      exact .inr ⟨x, v ++ post, rfl, hx, v, post, rfl, hv, hpost⟩
  · rintro (⟨w, post, rfl, hw, hpost⟩ | ⟨x, _, rfl, hx, v, post, rfl, hv, hpost⟩)
    · refine ⟨w, post, rfl, ?_, hpost⟩
      rw [hlang]
      exact .inl hw
    · refine ⟨x :: v, post, rfl, ?_, hpost⟩
      rw [hlang]
      exact .inr (Language.mem_mul.2 ⟨[x], ⟨x, hx, rfl⟩, v, hv, rfl⟩)

theorem charAt_cons_zero (c : Byte) (s : List Byte) : charAt (c :: s) 0 = c := rfl

theorem charAt_cons_succ (c : Byte) (s : List Byte) (i : Nat) :
    charAt (c :: s) (i + 1) = charAt s i := rfl

theorem charAt_ne_zero (h : 0 ∉ text) : charAt text 0 = 0 ↔ text = [] := by
  cases text with
  | nil => exact ⟨fun _ => rfl, fun _ => rfl⟩
  | cons c s =>
    refine ⟨fun hc => ?_, fun hc => by cases hc⟩
    rw [charAt_cons_zero] at hc
    exact absurd (mem_cons_self ..) (hc ▸ h)

theorem matchstar_iff (h : ∀ t, 0 ∉ t → (matchhere re t = true ↔ p.Here t)) (htext : 0 ∉ text) :
    matchstar c re text = true ↔ (p.cons (.many (.ofChar c))).Here text := by
  induction text with
  | nil =>
    have hend : ¬ (charAt [] 0 ≠ 0 ∧ (charAt [] 0 = c ∨ c = 46)) := fun hc => hc.1 rfl
    rw [matchstar, if_neg hend, Pattern.here_many, ← h [] htext]
    simp
  | cons x t ih =>
    have hx : x ≠ 0 := fun hx => htext (hx ▸ mem_cons_self ..)
    have ht : 0 ∉ t := fun hmem => htext (mem_cons_of_mem x hmem)
    have hnext : charAt (x :: t) 0 ≠ 0 ∧ (charAt (x :: t) 0 = c ∨ c = 46) ↔
        (Atom.ofChar c).Accepts x := by
      rw [Atom.accepts_ofChar, charAt_cons_zero, or_comm, @eq_comm _ c x]
      exact and_iff_right hx
    have hgo : (∃ y u, x :: t = y :: u ∧ (Atom.ofChar c).Accepts y ∧
        (p.cons (.many (.ofChar c))).Here u) ↔
        (Atom.ofChar c).Accepts x ∧ matchstar c re t = true := by
      rw [ih ht]
      constructor
      · rintro ⟨y, u, he, hy, hu⟩
        cases he
        exact ⟨hy, hu⟩
      · rintro ⟨hy, hu⟩
        exact ⟨x, t, rfl, hy, hu⟩
    rw [Pattern.here_many, hgo, ← h _ htext, matchstar]
    by_cases hm : matchhere re (x :: t) = true
    · rw [if_pos hm]
      exact ⟨fun _ => .inl hm, fun _ => rfl⟩
    rw [if_neg hm]
    by_cases ha : (Atom.ofChar c).Accepts x
    · rw [if_pos (hnext.2 ha)]
      exact ⟨fun hs => .inr ⟨ha, hs⟩, fun hs => (hs.resolve_left hm).2⟩
    · rw [if_neg fun hc => ha (hnext.1 hc)]
      exact ⟨fun hf => (Bool.false_ne_true hf).elim, fun hs => (ha (hs.resolve_left hm).1).elim⟩

theorem matchhere_one {d : List Byte} (hc : c ≠ 0) (hstar : charAt d 0 ≠ 42)
    (hlast : ¬ (c = 36 ∧ charAt d 0 = 0)) (htext : 0 ∉ text)
    (h : ∀ t, 0 ∉ t → (matchhere d t = true ↔ p.Here t)) :
    matchhere (c :: d) text = true ↔ (p.cons (.one (.ofChar c))).Here text := by
  rw [matchhere, charAt_cons_zero, charAt_cons_succ, if_neg hc, if_neg hstar, if_neg hlast,
    Pattern.here_one]
  cases text with
  | nil =>
    rw [if_neg fun hn => hn.1 rfl]
    refine ⟨fun hf => (Bool.false_ne_true hf).elim, ?_⟩
    rintro ⟨_, _, he, _⟩
    cases he
  | cons x t =>
    have hx : x ≠ 0 := fun hx => htext (hx ▸ mem_cons_self ..)
    have ht : 0 ∉ t := fun hmem => htext (mem_cons_of_mem x hmem)
    rw [charAt_cons_zero]
    constructor
    · intro hm
      split at hm
      · rename_i hcond
        exact ⟨x, t, rfl, Atom.accepts_ofChar.2 hcond.2, (h t ht).1 hm⟩
      · cases hm
    · rintro ⟨y, u, he, hy, hu⟩
      cases he
      rw [if_pos ⟨hx, Atom.accepts_ofChar.1 hy⟩]
      exact (h t ht).2 hu

theorem matchhere_iff (hre : 0 ∉ re) (htext : 0 ∉ text) :
    matchhere re text = true ↔ (Pattern.ofTail re).Here text := by
  induction re using Pattern.ofTail.induct generalizing text with
  | case1 =>
    rw [matchhere, Pattern.ofTail, Pattern.here_nil]
    exact ⟨fun _ hf => (Bool.false_ne_true hf).elim, fun _ => rfl⟩
  | case2 =>
    rw [matchhere, Pattern.ofTail, if_pos rfl, Pattern.here_nil]
    show (charAt text 0 == 0) = true ↔ _
    rw [beq_iff_eq, charAt_ne_zero htext]
    exact ⟨fun h _ => h, fun h => h rfl⟩
  | case3 c hc =>
    have hc0 : c ≠ 0 := fun h => hre (h ▸ mem_cons_self ..)
    have hnil (t : List Byte) (_ : 0 ∉ t) :
        matchhere [] t = true ↔ (Pattern.mk false [] false).Here t := by
      rw [matchhere, Pattern.here_nil]
      exact ⟨fun _ hf => (Bool.false_ne_true hf).elim, fun _ => rfl⟩
    rw [Pattern.ofTail, if_neg hc]
    exact matchhere_one hc0 (fun h => by cases h) (fun h => hc h.1) htext hnil
  | case4 c re ih =>
    have hc0 : c ≠ 0 := fun h => hre (h ▸ mem_cons_self ..)
    have hre' : 0 ∉ re := fun hmem => hre (mem_cons_of_mem c (mem_cons_of_mem 42 hmem))
    rw [matchhere, charAt_cons_zero, charAt_cons_succ, charAt_cons_zero, if_neg hc0, if_pos rfl,
      Pattern.ofTail, if_pos rfl]
    exact matchstar_iff (fun t ht => ih hre' ht) htext
  | case5 c d re hd ih =>
    have hc0 : c ≠ 0 := fun h => hre (h ▸ mem_cons_self ..)
    have hre' : 0 ∉ d :: re := fun hmem => hre (mem_cons_of_mem c hmem)
    have hd0 : d ≠ 0 := fun h => hre' (h ▸ mem_cons_self ..)
    rw [Pattern.ofTail, if_neg hd]
    exact matchhere_one hc0 hd (fun h => hd0 h.2) htext fun t ht => ih hre' ht

theorem matchLoop_iff (hre : 0 ∉ re) (htext : 0 ∉ text) :
    matchLoop re text = true ↔ ∃ pre t, text = pre ++ t ∧ (Pattern.ofTail re).Here t := by
  rw [matchLoop]
  induction text with
  | nil =>
    have hhere := matchhere_iff hre htext
    constructor
    · intro h
      split at h
      · exact ⟨[], [], rfl, hhere.1 ‹_›⟩
      · exact (Bool.false_ne_true h).elim
    · rintro ⟨pre, t, he, ht⟩
      obtain ⟨_, rfl⟩ := append_eq_nil_iff.1 he.symm
      rw [if_pos (hhere.2 ht)]
  | cons x t ih =>
    have hx : x ≠ 0 := fun hx => htext (hx ▸ mem_cons_self ..)
    have hhere := matchhere_iff hre htext
    have hrest := ih fun hmem => htext (mem_cons_of_mem x hmem)
    rw [charAt_cons_zero, if_pos hx, drop_one, tail_cons, matchLoop]
    constructor
    · intro h
      split at h
      · exact ⟨[], x :: t, rfl, hhere.1 ‹_›⟩
      · obtain ⟨pre, u, rfl, hu⟩ := hrest.1 h
        exact ⟨x :: pre, u, rfl, hu⟩
    rintro ⟨pre, u, he, hu⟩
    cases pre with
    | nil =>
      cases he
      rw [if_pos (hhere.2 hu)]
    | cons y pre =>
      cases he
      split
      · rfl
      · exact hrest.2 ⟨pre, u, rfl, hu⟩

theorem Pattern.start_ofTail (re : List Byte) : (Pattern.ofTail re).start = false := by
  induction re using Pattern.ofTail.induct with
  | case1 => rfl
  | case2 => rfl
  | case3 c hc => rw [Pattern.ofTail, if_neg hc]
  | case4 c re ih =>
    rw [Pattern.ofTail, if_pos rfl]
    exact ih
  | case5 c d re hd ih =>
    rw [Pattern.ofTail, if_neg hd]
    exact ih

theorem Pattern.finds_iff (hp : p.start = false) :
    p.Finds text ↔ ∃ pre t, text = pre ++ t ∧ p.Here t := by
  constructor
  · rintro ⟨pre, w, post, rfl, hw, _, hpost⟩
    exact ⟨pre, w ++ post, append_assoc .., w, post, rfl, hw, hpost⟩
  · rintro ⟨pre, _, rfl, w, post, rfl, hw, hpost⟩
    refine ⟨pre, w, post, (append_assoc ..).symm, hw, fun h => ?_, hpost⟩
    rw [hp] at h
    cases h

theorem Pattern.finds_start_iff : Pattern.Finds { p with start := true } text ↔ p.Here text := by
  constructor
  · rintro ⟨pre, w, post, rfl, hw, hpre, hpost⟩
    rw [hpre rfl]
    exact ⟨w, post, rfl, hw, hpost⟩
  · rintro ⟨w, post, rfl, hw, hpost⟩
    exact ⟨[], w, post, rfl, hw, fun _ => rfl, hpost⟩

/-- `match` finds what the pattern means, in every text. -/
theorem matchRe_iff (re text : List Byte) (hre : 0 ∉ re) (htext : 0 ∉ text) :
    matchRe re text = true ↔ (Pattern.ofChars re).Finds text := by
  cases re with
  | nil =>
    rw [matchRe, if_neg (fun h => by cases h), matchLoop_iff hre htext]
    exact (Pattern.finds_iff rfl).symm
  | cons c re =>
    rw [matchRe, charAt_cons_zero, Pattern.ofChars]
    split
    · rw [Pattern.finds_start_iff]
      exact matchhere_iff (fun hmem => hre (mem_cons_of_mem c hmem)) htext
    · rw [matchLoop_iff hre htext, Pattern.finds_iff (Pattern.start_ofTail _)]

theorem matchRe_dollars : (0 : Byte) ∉ [36, 42, 97] ∧ (0 : Byte) ∉ [98, 36, 36, 97] ∧
    Pattern.ofChars [36, 42, 97] = ⟨false, [.many (.char 36), .one (.char 97)], false⟩ ∧
    matchRe [36, 42, 97] [98, 36, 36, 97] = true := by
  have hre : (0 : Byte) ∉ [36, 42, 97] := by decide
  have htext : (0 : Byte) ∉ [98, 36, 36, 97] := by decide
  have hparse : Pattern.ofChars [36, 42, 97] =
      ⟨false, [.many (.char 36), .one (.char 97)], false⟩ := rfl
  refine ⟨hre, htext, hparse, (matchRe_iff _ _ hre htext).2 ?_⟩
  rw [hparse]
  have hword : [36, 36, 97] ∈
      Pattern.lang ⟨false, [.many (.char 36), .one (.char 97)], false⟩ := by
    refine Language.mem_mul.2 ⟨[36, 36], ?_, [97], ?_, rfl⟩
    · refine Language.mem_kstar.2 ⟨List.replicate 2 [36], rfl, fun y hy => ?_⟩
      exact ⟨36, rfl, eq_of_mem_replicate hy⟩
    · exact Language.mem_mul.2 ⟨[97], ⟨97, rfl, rfl⟩, [], Language.nil_mem_one, rfl⟩
  exact ⟨[98], [36, 36, 97], [], rfl, hword, fun h => (Bool.false_ne_true h).elim, fun _ => rfl⟩

end Xv6Signals.Grep
