import Xv6Signals.Shell.Pointers

namespace Xv6Signals.Shell.Ptr
open Lib Function List

def buffer (line : List Byte) : Nat → Byte := fun i => line.getD i 0

def terminate (buf : Nat → Byte) (ws : List Word) : Nat → Byte :=
  ws.foldl (fun buf w => update buf w.eq 0) buf

def Cmd.nulterminate : Cmd → (Nat → Byte) → Nat → Byte
  | .exec argv, buf => terminate buf argv
  | .redir cmd file _ _, buf => update (cmd.nulterminate buf) file.eq 0
  | .pipe left right, buf => right.nulterminate (left.nulterminate buf)
  | .list left right, buf => right.nulterminate (left.nulterminate buf)
  | .back cmd, buf => cmd.nulterminate buf

structure IsString (buf : Nat → Byte) (q : Nat) (text : List Byte) : Prop where
  chars : ∀ i, i < text.length → some (buf (q + i)) = text[i]?
  nonzero : 0 ∉ text
  stop : buf (q + text.length) = 0

def wordCharAt (text : List Byte) (i : Nat) : Bool := text[i]?.any wordChar

/-- A maximal run of characters that are neither whitespace nor symbols. -/
structure Run (line : List Byte) (w : Word) : Prop where
  nonempty : w.q < w.eq
  inside : ∀ i, w.q ≤ i → i < w.eq → wordCharAt line i = true
  left : ∀ i, i + 1 = w.q → wordCharAt line i = false
  right : wordCharAt line w.eq = false

variable {line pre mid rest s : List Byte} {w v : Word} {ws : List Word} {cmd : Cmd} {i p p' : Nat}

theorem Run.le_length (h : Run line w) : w.eq ≤ line.length := by
  have hlast := h.inside (w.eq - 1) (Nat.le_sub_one_of_lt h.nonempty)
    (Nat.sub_one_lt_of_lt h.nonempty)
  by_contra hlt
  rw [wordCharAt, getElem?_eq_none (by omega)] at hlast
  cases hlast

theorem Run.eq_of_common (h : Run line w) (h' : Run line v) (hw : w.q ≤ i ∧ i < w.eq)
    (hv : v.q ≤ i ∧ i < v.eq) : w = v := by
  have hq {w v : Word} (h : Run line w) (h' : Run line v) (hw : w.q ≤ i ∧ i < w.eq)
      (hv : v.q ≤ i ∧ i < v.eq) : w.q ≤ v.q := by
    by_contra hlt
    have htrue := h'.inside (w.q - 1) (by omega) (by omega)
    rw [h.left (w.q - 1) (by omega)] at htrue
    cases htrue
  have heq {w v : Word} (h : Run line w) (h' : Run line v) (hw : w.q ≤ i ∧ i < w.eq)
      (hv : v.q ≤ i ∧ i < v.eq) : v.eq ≤ w.eq := by
    by_contra hlt
    have htrue := h'.inside w.eq (by omega) (by omega)
    rw [h.right] at htrue
    cases htrue
  cases w
  cases v
  congr
  · exact Nat.le_antisymm (hq h h' hw hv) (hq h' h hv hw)
  · exact Nat.le_antisymm (heq h' h hv hw) (heq h h' hw hv)

/-! ### The words of a line are its maximal runs -/

/-- The words from position `p` on: the maximal runs there, from left to right. -/
structure Covers (line : List Byte) (p : Nat) (ws : List Word) : Prop where
  run : ∀ w ∈ ws, Run line w
  from_le : ∀ w ∈ ws, p ≤ w.q
  all : ∀ i, p ≤ i → wordCharAt line i = true → ∃ w ∈ ws, w.q ≤ i ∧ i < w.eq
  ordered : ws.Pairwise fun a b => a.eq ≤ b.q

theorem Covers.nil (h : ∀ i, p ≤ i → wordCharAt line i = false) : Covers line p [] where
  run _ hw := (not_mem_nil hw).elim
  from_le _ hw := (not_mem_nil hw).elim
  all i hi htrue := by
    rw [h i hi] at htrue
    cases htrue
  ordered := .nil

theorem Covers.skip (h : Covers line p' ws) (hp : p ≤ p')
    (hnone : ∀ i, p ≤ i → i < p' → wordCharAt line i = false) : Covers line p ws where
  run := h.run
  from_le w hw := Nat.le_trans hp (h.from_le w hw)
  all i hi htrue := by
    by_cases hlt : i < p'
    · rw [hnone i hi hlt] at htrue
      cases htrue
    · exact h.all i (Nat.le_of_not_lt hlt) htrue
  ordered := h.ordered

theorem Covers.cons (h : Covers line w.eq ws) (hw : Run line w) : Covers line w.q (w :: ws) where
  run := forall_mem_cons.2 ⟨hw, h.run⟩
  from_le := forall_mem_cons.2
    ⟨Nat.le_refl _, fun v hv => Nat.le_trans (Nat.le_of_lt hw.nonempty) (h.from_le v hv)⟩
  all i hi htrue := by
    by_cases hlt : i < w.eq
    · exact ⟨w, mem_cons_self, hi, hlt⟩
    · obtain ⟨v, hv, hin⟩ := h.all i (Nat.le_of_not_lt hlt) htrue
      exact ⟨v, mem_cons_of_mem w hv, hin⟩
  ordered := pairwise_cons.2 ⟨h.from_le, h.ordered⟩

theorem wordCharAt_mid {b : Bool} (hline : line = pre ++ (mid ++ rest))
    (hmid : ∀ c ∈ mid, wordChar c = b) (hle : pre.length ≤ i)
    (hlt : i < pre.length + mid.length) : wordCharAt line i = b := by
  have hi : i - pre.length < mid.length := by omega
  rw [hline, wordCharAt, getElem?_append_right hle, getElem?_append_left hi,
    getElem?_eq_getElem hi]
  exact hmid _ (getElem_mem hi)

theorem wordCharAt_head (hline : line = pre ++ rest) :
    wordCharAt line pre.length = rest.head?.any wordChar := by
  rw [hline, wordCharAt, getElem?_append_right (Nat.le_refl _), Nat.sub_self,
    head?_eq_getElem?]

def Between (line : List Byte) (p : Nat) : Prop :=
  ∀ i, i + 1 = p → wordCharAt line i = true → wordCharAt line p = false

theorem Between.append (h : Between line pre.length) (hline : line = pre ++ (mid ++ rest))
    (hmid : ∀ c ∈ mid, wordChar c = false) : Between line (pre ++ mid).length := by
  rw [length_append]
  intro i hi htrue
  by_cases hle : pre.length ≤ i
  · rw [wordCharAt_mid hline hmid hle (by omega)] at htrue
    cases htrue
  · have hp : pre.length = pre.length + mid.length := by omega
    rw [← hp] at hi ⊢
    exact h i hi htrue

theorem Covers.skip_mid (h : Covers line (pre ++ mid).length ws)
    (hline : line = pre ++ (mid ++ rest)) (hmid : ∀ c ∈ mid, wordChar c = false) :
    Covers line pre.length ws := by
  rw [length_append] at h
  exact h.skip (Nat.le_add_right _ _) fun _ hle hlt => wordCharAt_mid hline hmid hle hlt

theorem skipSpace_split (s : List Byte) :
    ∃ sp, s = sp ++ skipSpace s ∧ ∀ c ∈ sp, wordChar c = false := by
  refine ⟨s.takeWhile (whitespace.contains ·), takeWhile_append_dropWhile.symm, ?_⟩
  intro c hc
  have hspace := all_eq_true.1 all_takeWhile c hc
  rw [wordChar, hspace]
  rfl

theorem wordsFrom_covers (hline : line = pre ++ s) (hp : Between line pre.length) :
    Covers line pre.length (wordsFrom line s) := by
  induction hn : s.length using Nat.strong_induction_on generalizing pre s with
  | _ n ih =>
    obtain ⟨sp, hsp, hspace⟩ := skipSpace_split s
    have hlex := gettoken_lexed s
    cases hg : gettoken s with
    | mk t r =>
      rw [hg] at hlex
      cases hlex with
      | eof hnil =>
        rw [wordsFrom_symbol hg (fun text ht => by cases ht)]
        have hline' : line = pre ++ (sp ++ []) := by rw [hline, hsp, hnil]
        refine .nil fun i hi => ?_
        by_cases hlt : i < pre.length + sp.length
        · exact wordCharAt_mid hline' hspace hi hlt
        · rw [hline', append_nil, wordCharAt, getElem?_eq_none]
          · rfl
          · rw [length_append]
            exact Nat.le_of_not_lt hlt
      | word text after hskip hne htext hafter =>
        have hlt := gettoken_length hg (fun he => by cases he)
        obtain ⟨sp', hsp', hspace'⟩ := skipSpace_split after
        have hline₁ : line = pre ++ (sp ++ skipSpace s) := by rw [hline, ← hsp]
        have hline₂ : line = (pre ++ sp) ++ (text ++ after) := by
          rw [hline₁, hskip, append_assoc]
        have hline₃ : line = (pre ++ sp ++ text) ++ (sp' ++ skipSpace after) := by
          rw [hline₂, ← hsp', append_assoc _ text]
        have hend : (pre ++ sp ++ text).length = (pre ++ sp).length + text.length :=
          length_append
        have hq : wordAt line s text = ⟨(pre ++ sp).length, (pre ++ sp ++ text).length⟩ := by
          have hlen : line.length - (skipSpace s).length = (pre ++ sp).length := by
            rw [hline₁, ← append_assoc, length_append, Nat.add_sub_cancel]
          rw [wordAt, hlen, hend]
        have hright : wordCharAt line (pre ++ sp ++ text).length = false := by
          rw [wordCharAt_head hline₃, ← hsp']
          cases hhead : after.head? with
          | none => rfl
          | some c => exact hafter c hhead
        have hpos : (pre ++ sp).length < (pre ++ sp).length + text.length :=
          Nat.lt_add_of_pos_right (length_pos_iff.2 hne)
        -- the run begins where the spaces end, and ends where the next cursor is
        have hrun : Run line ⟨(pre ++ sp).length, (pre ++ sp ++ text).length⟩ := {
          nonempty := hend ▸ hpos
          inside := fun i hle hi => wordCharAt_mid hline₂ htext hle (hend ▸ hi)
          left := fun i hi => by
            have hfirst : wordCharAt line (pre ++ sp).length = true :=
              wordCharAt_mid hline₂ htext (Nat.le_refl _) hpos
            have hno := hp.append hline₁ hspace i hi
            rw [hfirst] at hno
            exact Bool.eq_false_iff.2 fun htrue => Bool.noConfusion (hno htrue)
          right := hright }
        have hnext : Between line (pre ++ sp ++ text).length := fun _ _ _ => hright
        have hline₄ : line = (pre ++ sp ++ text ++ sp') ++ skipSpace after := by
          rw [hline₃, append_assoc (pre ++ sp ++ text)]
        have hrest := ih _ (hn ▸ hlt) hline₄ (hnext.append hline₃ hspace') rfl
        rw [wordsFrom_word hg, hq]
        exact ((hrest.skip_mid hline₃ hspace').cons hrun).skip_mid hline₁ hspace
      | symbol t mid after hskip hne hmid hword heof =>
        have hlt := gettoken_length hg heof
        obtain ⟨sp', hsp', hspace'⟩ := skipSpace_split after
        have hline' : line = pre ++ ((sp ++ mid ++ sp') ++ skipSpace after) := by
          rw [append_assoc _ sp', ← hsp', append_assoc, ← hskip, ← hsp, hline]
        have hnone : ∀ c ∈ sp ++ mid ++ sp', wordChar c = false := by
          intro c hc
          rcases mem_append.1 hc with hc | hc
          · exact (mem_append.1 hc).elim (hspace c) (hmid c)
          · exact hspace' c hc
        have hline₂ : line = (pre ++ (sp ++ mid ++ sp')) ++ skipSpace after := by
          rw [hline', append_assoc pre]
        have hrest := ih _ (hn ▸ hlt) hline₂ (hp.append hline' hnone) rfl
        rw [wordsFrom_symbol hg hword]
        exact hrest.skip_mid hline' hnone

theorem wordsFrom_line (line : List Byte) : Covers line 0 (wordsFrom line line) :=
  wordsFrom_covers (nil_append line).symm fun i hi => (Nat.succ_ne_zero i hi).elim

theorem Covers.mem_iff (h : Covers line 0 ws) : w ∈ ws ↔ Run line w := by
  refine ⟨h.run w, fun hw => ?_⟩
  have hfirst := hw.inside w.q (Nat.le_refl _) hw.nonempty
  obtain ⟨v, hv, hin⟩ := h.all w.q (Nat.zero_le _) hfirst
  rw [hw.eq_of_common (h.run v hv) ⟨Nat.le_refl _, hw.nonempty⟩ hin]
  exact hv

theorem Covers.nodup (h : Covers line p ws) : ws.Nodup := by
  have hrun := h.run
  refine h.ordered.imp_of_mem fun {a b} ha hb hle heq => ?_
  subst heq
  exact absurd (hrun a ha).nonempty (Nat.not_lt.2 hle)

/-! ### The strings after `nulterminate` -/

theorem terminate_cons (buf : Nat → Byte) (w : Word) (ws : List Word) :
    terminate buf (w :: ws) = terminate (update buf w.eq 0) ws := rfl

theorem terminate_append (buf : Nat → Byte) (us vs : List Word) :
    terminate buf (us ++ vs) = terminate (terminate buf us) vs := foldl_append

theorem nulterminate_eq (cmd : Cmd) (buf : Nat → Byte) :
    cmd.nulterminate buf = terminate buf cmd.words := by
  induction cmd generalizing buf with
  | exec argv => rfl
  | redir cmd file mode fd ih =>
    rw [Cmd.nulterminate, ih, Cmd.words, terminate_append]
    rfl
  | pipe left right ihl ihr => rw [Cmd.nulterminate, ihl, ihr, Cmd.words, terminate_append]
  | list left right ihl ihr => rw [Cmd.nulterminate, ihl, ihr, Cmd.words, terminate_append]
  | back cmd ih => exact ih buf

theorem terminate_of_ne (buf : Nat → Byte) (h : ∀ w ∈ ws, w.eq ≠ i) :
    terminate buf ws i = buf i := by
  induction ws generalizing buf with
  | nil => rfl
  | cons w ws ih =>
    obtain ⟨hw, hws⟩ := forall_mem_cons.1 h
    rw [terminate_cons, ih _ hws, update_of_ne hw.symm]

theorem terminate_of_zero {buf : Nat → Byte} (h : buf i = 0) : terminate buf ws i = 0 := by
  induction ws generalizing buf with
  | nil => exact h
  | cons w ws ih =>
    rw [terminate_cons]
    refine ih ?_
    by_cases hw : i = w.eq
    · rw [hw, update_self]
    · rw [update_of_ne hw, h]

theorem terminate_of_mem (buf : Nat → Byte) (h : w ∈ ws) : terminate buf ws w.eq = 0 := by
  induction ws generalizing buf with
  | nil => exact (not_mem_nil h).elim
  | cons v ws ih =>
    rw [terminate_cons]
    rcases mem_cons.1 h with rfl | h
    · exact terminate_of_zero (update_self _ _ _)
    · exact ih _ h

theorem Run.length_text (h : Run line w) : (w.text line).length = w.eq - w.q := by
  rw [Word.text, length_take, length_drop]
  have hle := h.le_length
  omega

theorem isString_terminate (hline : 0 ∉ line) (hws : ∀ w ∈ ws, Run line w) (hw : w ∈ ws) :
    IsString (terminate (buffer line) ws) w.q (w.text line) where
  chars i hi := by
    have hrun := hws w hw
    rw [hrun.length_text] at hi
    have hin := hrun.inside (w.q + i) (Nat.le_add_right _ _) (by omega)
    have hend : ∀ v ∈ ws, v.eq ≠ w.q + i := by
      intro v hv heq
      rw [← heq, (hws v hv).right] at hin
      cases hin
    have hlt : w.q + i < line.length := by
      have hle := hrun.le_length
      omega
    rw [terminate_of_ne _ hend, buffer, getD_eq_getElem _ _ hlt, Word.text,
      getElem?_take_of_lt hi, getElem?_drop, getElem?_eq_getElem hlt]
  nonzero hzero := hline (mem_of_mem_drop (mem_of_mem_take hzero))
  stop := by
    have hrun := hws w hw
    rw [hrun.length_text, Nat.add_sub_cancel' (Nat.le_of_lt hrun.nonempty)]
    exact terminate_of_mem _ hw

/-! ### The words of the tree and the tokens of the line -/

def wordText : Tok → Option (List Byte)
  | .word text => some text
  | _ => none

theorem tokens_gettoken {t : Tok} {r : List Byte} (h : gettoken s = (t, r)) (ht : t ≠ .eof) :
    tokens s = t :: tokens r := by
  cases hs : tokens s with
  | nil =>
    rw [(tokens_nil hs).2] at h
    cases h
    exact (ht rfl).elim
  | cons t' ts =>
    obtain ⟨rfl, rfl⟩ := tokens_cons hs
    rw [h]

theorem text_wordsFrom (hs : s <:+ line) :
    (wordsFrom line s).map (Word.text line) = (tokens s).filterMap wordText := by
  induction hn : s.length using Nat.strong_induction_on generalizing s with
  | _ n ih =>
    cases hg : gettoken s with
    | mk t r =>
      have hr := (gettoken_suffix s).trans hs
      rw [hg] at hr
      by_cases ht : t = .eof
      · subst ht
        rw [wordsFrom, tokens, wordsTo, tokensTo, hg]
        rfl
      have hrest := ih _ (hn ▸ gettoken_length hg ht) hr rfl
      rw [tokens_gettoken hg ht]
      cases t with
      | eof => exact (ht rfl).elim
      | word text =>
        rw [wordsFrom_word hg, map_cons, text_wordAt hs hg, hrest]
        rfl
      | _ =>
        rw [wordsFrom_symbol hg (fun text he => by cases he), hrest]
        rfl

/-- After `nulterminate` each word of an accepted line is, as the string at its pointer, the
maximal run it was parsed from; the words of the tree are all the runs of the line, each once, and
so all its word tokens. -/
theorem nulterminate_words (line : List Byte) (hline : 0 ∉ line) (cmd : Cmd)
    (h : parsecmd line = .ok cmd) :
    Shell.parsecmd line = .ok (cmd.text line) ∧
      (∀ w ∈ cmd.words, Run line w ∧
        IsString (cmd.nulterminate (buffer line)) w.q (w.text line)) ∧
      (∀ w, Run line w → w ∈ cmd.words) ∧ cmd.words.Nodup ∧
      (cmd.words.map (Word.text line)).Perm ((tokens line).filterMap wordText) := by
  obtain ⟨htext, hwords⟩ := parsecmd_tracks line
  have hperm := hwords cmd h
  have hcovers := wordsFrom_line line
  have hrun : ∀ w ∈ cmd.words, Run line w := fun w hw => hcovers.run w (hperm.mem_iff.1 hw)
  refine ⟨by rw [htext, h]; rfl, fun w hw => ⟨hrun w hw, ?_⟩, fun w hw => ?_, ?_, ?_⟩
  · rw [nulterminate_eq]
    exact isString_terminate hline hrun hw
  · exact hperm.mem_iff.2 (hcovers.mem_iff.2 hw)
  · exact hperm.nodup_iff.2 hcovers.nodup
  · rw [← text_wordsFrom (suffix_refl line)]
    exact hperm.map _

theorem nulterminate_file :
    IsString ((Cmd.redir (.exec [⟨0, 1⟩]) ⟨3, 4⟩ 0x201 1).nulterminate
      (buffer [97, 32, 62, 98])) 3 [98] := by
  have h := nulterminate_words [97, 32, 62, 98] (by decide)
    (.redir (.exec [⟨0, 1⟩]) ⟨3, 4⟩ 0x201 1) rfl
  exact (h.2.1 ⟨3, 4⟩ (by decide)).2

end Xv6Signals.Shell.Ptr
