import Xv6Signals.Grep.Match
import Xv6Signals.Memmove

namespace Xv6Signals.Grep
open Lib Function List Bytes

def strchr (buf : Bytes) (c : Byte) : Nat → Nat → Option Nat
  | 0, _ => none
  | rounds + 1, s =>
    if buf s = 0 then none else if buf s = c then some s else strchr buf c rounds (s + 1)

def stringAt (buf : Bytes) : Nat → Nat → List Byte
  | 0, _ => []
  | rounds + 1, s => if buf s = 0 then [] else buf s :: stringAt buf rounds (s + 1)

def lineLoop (re : List Byte) : Nat → Bytes → Nat → List Byte → Bytes × Nat × List Byte
  | 0, buf, p, out => (buf, p, out)
  | rounds + 1, buf, p, out =>
    match strchr buf 10 1024 p with
    | none => (buf, p, out)
    | some q =>
      let cut : Bytes := update buf q 0
      if matchRe re (stringAt cut 1024 p) then
        let back : Bytes := update cut q 10
        lineLoop re rounds back (q + 1) (out ++ back.read p (q + 1 - p))
      else lineLoop re rounds cut (q + 1) out

/-- The outer loop of `grep` for these answers of `read`, the first of which goes to `buf + m`. -/
def grepLoop (re : List Byte) : List (List Byte) → Bytes → Nat → List Byte → List Byte
  | [], _, _, out => out
  | piece :: pieces, buf, m, out =>
    let filled := m + piece.length
    let r := lineLoop re 1024 (update (buf.write m piece) filled 0) 0 out
    let m := if r.2.1 = 0 then 0 else filled
    if 0 < m then
      let m := m - r.2.1
      grepLoop re pieces (Ulib.memmove r.1 0 r.2.1 m) m r.2.2
    else grepLoop re pieces r.1 m r.2.2

def grep (re : List Byte) (pieces : List (List Byte)) : List Byte :=
  grepLoop re pieces (fun _ => 0) 0 []

def lineStep (re : List Byte) (s : List Byte × List Byte) (b : Byte) : List Byte × List Byte :=
  if b = 10 then ([], if matchRe re s.1 then s.2 ++ s.1 ++ [10] else s.2) else (s.1 ++ [b], s.2)

/-- One round of the outer loop: a piece without a newline is lost, with the line so far. -/
def roundStep (re : List Byte) (s : List Byte × List Byte) (piece : List Byte) :
    List Byte × List Byte :=
  if piece.contains 10 then piece.foldl (lineStep re) s else ([], s.2)

def unended (m : Nat) (piece : List Byte) : Nat :=
  piece.foldl (fun k b => if b = 10 then 0 else k + 1) m

/-- Each piece is an answer to a `read` of `sizeof(buf) - m - 1` bytes before the end of file. -/
def Requested : Nat → List (List Byte) → Prop
  | _, [] => True
  | m, piece :: pieces => piece ≠ [] ∧ piece.length ≤ 1024 - m - 1 ∧
      Requested (if piece.contains 10 then unended m piece else 0) pieces

variable {re text cur out l r : List Byte} {pieces : List (List Byte)} {buf : Bytes} {p k : Nat}

def Holds (buf : Bytes) (p : Nat) (text : List Byte) : Prop :=
  ∀ i, i ≤ text.length → buf (p + i) = charAt text i

theorem Holds.head {b : Byte} (h : Holds buf p (b :: text)) : buf p = b :=
  h 0 (Nat.zero_le _)

theorem Holds.tail {b : Byte} (h : Holds buf p (b :: text)) : Holds buf (p + 1) text := by
  intro i hi
  rw [Nat.add_assoc, Nat.add_comm 1]
  exact h (i + 1) (Nat.succ_le_succ hi)

theorem Holds.right (h : Holds buf p (l ++ r)) : Holds buf (p + l.length) r := by
  intro i hi
  rw [Nat.add_assoc, h _ (by rw [length_append]; omega), charAt, charAt,
    getD_append_right _ _ _ _ (Nat.le_add_right ..), Nat.add_sub_cancel_left]

theorem Holds.read (h : Holds buf p (l ++ r)) : buf.read p l.length = l := by
  refine ext_getElem (length_read ..) fun i hi hl => ?_
  rw [getElem_read, h i (by rw [length_append]; omega), charAt,
    getD_append _ _ _ _ hl, getD_eq_getElem _ _ hl]

/-- The newline behind a line is overwritten with a NUL. -/
theorem Holds.cut (h : Holds buf p (l ++ r)) : Holds (update buf (p + l.length) 0) p l := by
  intro i hi
  rcases Nat.lt_or_eq_of_le hi with hlt | rfl
  · rw [update_of_ne (by omega), h i (by rw [length_append]; omega), charAt, charAt,
      getD_append _ _ _ _ hlt]
  · rw [update_self, charAt, getD_eq_default _ _ (Nat.le_refl _)]

theorem Holds.frame {q : Nat} (h : Holds buf p text) (hq : q < p) (b : Byte) :
    Holds (update buf q b) p text := by
  intro i hi
  rw [update_of_ne (by omega), h i hi]

theorem Holds.stringAt (h : Holds buf p text) (h0 : 0 ∉ text) (hk : text.length < k) :
    stringAt buf k p = text := by
  induction k generalizing p text with
  | zero => exact (Nat.not_lt_zero _ hk).elim
  | succ k ih =>
    cases text with
    | nil => exact if_pos (h 0 (Nat.le_refl 0))
    | cons b text =>
      have hb : buf p ≠ 0 := fun h' => h0 (mem_cons.2 (.inl (h'.symm.trans h.head)))
      rw [Grep.stringAt, if_neg hb, h.head,
        ih h.tail (not_mem_of_not_mem_cons h0) (Nat.lt_of_succ_lt_succ hk)]

theorem Holds.strchr_none (h : Holds buf p text) (h10 : 10 ∉ text) : strchr buf 10 k p = none := by
  induction k generalizing p text with
  | zero => rfl
  | succ k ih =>
    cases text with
    | nil => exact if_pos (h 0 (Nat.le_refl 0))
    | cons b text =>
      have hb : buf p ≠ 10 := fun h' => h10 (mem_cons.2 (.inl (h'.symm.trans h.head)))
      rw [strchr, if_neg hb, ih h.tail (not_mem_of_not_mem_cons h10), ite_self]

theorem Holds.strchr_some (h : Holds buf p (l ++ 10 :: r)) (h0 : 0 ∉ l) (h10 : 10 ∉ l)
    (hk : l.length < k) : strchr buf 10 k p = some (p + l.length) := by
  induction k generalizing p l with
  | zero => exact (Nat.not_lt_zero _ hk).elim
  | succ k ih =>
    cases l with
    | nil =>
      have hb : buf p = 10 := h.head
      rw [strchr, hb, if_neg (by decide), if_pos rfl]
      rfl
    | cons b l =>
      have hb : buf p = b := h.head
      rw [mem_cons, not_or] at h0 h10
      rw [strchr, hb, if_neg (Ne.symm h0.1), if_neg (Ne.symm h10.1),
        ih h.tail h0.2 h10.2 (Nat.lt_of_succ_lt_succ hk), length_cons]
      congr 1
      omega

structure Scanned (re text out : List Byte) (p : Nat) (r : Bytes × Nat × List Byte) : Prop where
  step : ∃ tail, text.foldl (lineStep re) ([], out) = (tail, r.2.2) ∧ Holds r.1 r.2.1 tail ∧
    r.2.1 + tail.length = p + text.length ∧ 10 ∉ tail ∧ tail <:+ text
  le : p ≤ r.2.1
  moved : r.2.1 = p ↔ 10 ∉ text

theorem foldl_lineStep (h : 10 ∉ l) : l.foldl (lineStep re) (cur, out) = (cur ++ l, out) := by
  induction l generalizing cur with
  | nil => rw [foldl_nil, append_nil]
  | cons b l ih =>
    rw [mem_cons, not_or] at h
    rw [foldl_cons, lineStep, if_neg (Ne.symm h.1), ih h.2, append_assoc]
    rfl

theorem foldl_line (h : 10 ∉ l) :
    (l ++ 10 :: r).foldl (lineStep re) (cur, out) = r.foldl (lineStep re)
      ([], if matchRe re (cur ++ l) then out ++ (cur ++ l) ++ [10] else out) := by
  rw [foldl_append, foldl_lineStep h, foldl_cons, lineStep, if_pos rfl]

theorem lineLoop_scans (re out : List Byte) (h : Holds buf p text) (h0 : 0 ∉ text)
    (hk : text.length < k) (htext : text.length < 1024) :
    Scanned re text out p (lineLoop re k buf p out) := by
  induction k generalizing buf p text out with
  | zero => exact (Nat.not_lt_zero _ hk).elim
  | succ k ih =>
    by_cases h10 : 10 ∈ text
    · obtain ⟨l, r, rfl, hl⟩ := eq_append_cons_of_mem h10
      rw [mem_append, mem_cons, not_or, not_or] at h0
      rw [length_append, length_cons] at hk htext
      have hr : Holds buf (p + l.length + 1) r := h.right.tail
      have hback : update (update buf (p + l.length) 0) (p + l.length) 10 = buf := by
        rw [update_idem, ← h.right.head, update_eq_self]
      have hline : (l ++ 10 :: r).foldl (lineStep re) ([], out) = r.foldl (lineStep re)
          ([], if matchRe re l then out ++ (l ++ [10]) else out) := by
        rw [foldl_line hl, nil_append, append_assoc]
      have hscan {out' : List Byte} {s : Bytes × Nat × List Byte}
          (hs : Scanned re r out' (p + l.length + 1) s)
          (hout : (if matchRe re l then out ++ (l ++ [10]) else out) = out') :
          Scanned re (l ++ 10 :: r) out p s := by
        obtain ⟨⟨tail, hfold, hheld, hlen, htail, hsuff⟩, hle, -⟩ := hs
        refine ⟨⟨tail, ?_, hheld, ?_, htail, ?_⟩, by omega, iff_of_false (by omega) fun h => h h10⟩
        · rw [hline, hout, hfold]
        · rw [length_append, length_cons]
          omega
        · exact (hsuff.trans (suffix_cons 10 r)).trans (suffix_append l _)
      rw [lineLoop, h.strchr_some h0.1 hl (by omega)]
      dsimp only
      rw [h.cut.stringAt h0.1 (by omega), hback, (by omega : p + l.length + 1 - p = l.length + 1)]
      split
      · have hread : buf.read p (l.length + 1) = l ++ [10] := by
          rw [read_add, h.read]
          show l ++ [buf (p + l.length)] = _
          rw [h.right.head]
        rw [hread]
        exact hscan (ih _ hr h0.2.2 (by omega) (by omega)) (if_pos ‹_›)
      · exact hscan (ih _ (hr.frame (Nat.lt_succ_self _) 0) h0.2.2 (by omega) (by omega))
          (if_neg ‹_›)
    · rw [lineLoop, h.strchr_none h10]
      refine ⟨⟨text, ?_, h, rfl, h10, suffix_refl text⟩, Nat.le_refl p, iff_of_true rfl h10⟩
      rw [foldl_lineStep h10, nil_append]

/-- The line so far stands at the front of the buffer; what is behind it is overwritten. -/
def Carries (buf : Bytes) (cur : List Byte) : Prop := buf.read 0 cur.length = cur

theorem Carries.fill {piece : List Byte} (h : Carries buf cur) :
    Holds (update (buf.write cur.length piece) (cur.length + piece.length) 0) 0 (cur ++ piece) := by
  intro i hi
  rw [length_append] at hi
  rw [Nat.zero_add, charAt]
  rcases Nat.lt_or_eq_of_le hi with hlt | rfl
  · rw [update_of_ne (Nat.ne_of_lt hlt)]
    by_cases hc : i < cur.length
    · rw [write_outside (.inl hc), getD_append _ _ _ _ hc, getD_eq_getElem _ _ hc,
        ← getElem_of_eq h (by rwa [length_read]), getElem_read, Nat.zero_add]
    · obtain ⟨j, rfl⟩ := Nat.exists_eq_add_of_le (Nat.le_of_not_lt hc)
      rw [getD_append_right _ _ _ _ (Nat.le_add_right ..), Nat.add_sub_cancel_left,
        write_at (by omega), getD_eq_getElem]
  · rw [update_self, getD_eq_default _ _ (by rw [length_append])]

theorem Holds.carries (h : Holds buf p text) : Carries (Ulib.memmove buf 0 p text.length) text := by
  have hread : buf.read p text.length = text := Holds.read (r := []) (by rwa [append_nil])
  refine (map_congr_left fun i hi => ?_).trans hread
  exact copyUp_eq (mem_range.1 hi) (.inl (Nat.zero_le p))

theorem length_unended (re piece : List Byte) (s : List Byte × List Byte) :
    unended s.1.length piece = (piece.foldl (lineStep re) s).1.length := by
  refine foldl_hom (fun s : List Byte × List Byte => s.1.length) fun s b => ?_
  unfold lineStep
  split
  · rfl
  · exact (length_append : (s.1 ++ [b]).length = _).symm

/-- The buffer is only a place for the line so far. -/
theorem grepLoop_eq (re cur out : List Byte) (h : Carries buf cur) (h10 : 10 ∉ cur)
    (h0 : 0 ∉ cur ++ pieces.flatten) (hreq : Requested cur.length pieces) :
    grepLoop re pieces buf cur.length out = (pieces.foldl (roundStep re) (cur, out)).2 := by
  induction pieces generalizing buf cur out with
  | nil => rfl
  | cons piece pieces ih =>
    obtain ⟨hne, hle, hreq⟩ := hreq
    have hpos := length_pos_iff.2 hne
    have hlen : (cur ++ piece).length = cur.length + piece.length := length_append
    rw [flatten_cons, ← append_assoc, mem_append, not_or] at h0
    obtain ⟨⟨tail, hfold, hheld, hend, htail, hsuff⟩, -, hmoved⟩ :=
      lineLoop_scans re out h.fill h0.1 (by omega : _ < 1024) (by omega)
    rw [foldl_append, foldl_lineStep h10, nil_append] at hfold
    rw [foldl_cons, roundStep, grepLoop]
    generalize lineLoop re 1024 _ 0 out = r at *
    dsimp only
    by_cases hmem : piece.contains 10 = true
    · rw [if_pos hmem, length_unended re piece (cur, out), hfold] at hreq
      have hp : r.2.1 ≠ 0 := fun hp => hmoved.1 hp (mem_append_right _ (contains_iff_mem.1 hmem))
      rw [if_pos hmem, if_neg hp, if_pos (by omega), hfold,
        (by omega : cur.length + piece.length - r.2.1 = tail.length)]
      exact ih tail _ hheld.carries htail (not_mem_append (mt (hsuff.mem ·) h0.1) h0.2) hreq
    · rw [if_neg hmem] at hreq
      have hno := mt contains_iff_mem.2 hmem
      have hp : r.2.1 = 0 := hmoved.2 (not_mem_append h10 hno)
      rw [foldl_lineStep hno] at hfold
      cases hfold
      rw [if_neg hmem, if_pos hp, if_neg (Nat.lt_irrefl 0)]
      exact ih [] _ rfl not_mem_nil h0.2 hreq

theorem rounds_eq (h : ∀ piece ∈ pieces, 10 ∈ piece) (s : List Byte × List Byte) :
    pieces.foldl (roundStep re) s = pieces.flatten.foldl (lineStep re) s := by
  induction pieces generalizing s with
  | nil => rfl
  | cons piece pieces ih =>
    rw [foldl_cons, flatten_cons, foldl_append, roundStep, if_pos (contains_iff_mem.2 (h _ (.head _))),
      ih fun x hx => h x (.tail _ hx)]

theorem foldl_lines {lines : List (List Byte)} (h : ∀ l ∈ lines, 10 ∉ l) :
    (lines.flatMap (· ++ [10])).foldl (lineStep re) ([], out) =
      ([], out ++ (lines.filter (matchRe re)).flatMap (· ++ [10])) := by
  induction lines generalizing out with
  | nil => rw [filter_nil, flatMap_nil, append_nil, foldl_nil]
  | cons l lines ih =>
    rw [flatMap_cons, append_assoc, singleton_append, foldl_line (h l (.head _)),
      ih fun x hx => h x (.tail _ hx), nil_append]
    split
    · rw [filter_cons_of_pos ‹_›, flatMap_cons, append_assoc, append_assoc,
        append_assoc]
    · rw [filter_cons_of_neg ‹_›]

def kept (s : List Byte × List Byte) : Nat := s.1.length + s.2.length

theorem kept_lineStep (s : List Byte × List Byte) (piece : List Byte) :
    kept (piece.foldl (lineStep re) s) ≤ kept s + piece.length := by
  induction piece generalizing s with
  | nil => rfl
  | cons b piece ih =>
    have hstep : kept (lineStep re s b) ≤ kept s + 1 := by grind [lineStep, kept]
    have hrest := ih (lineStep re s b)
    rw [foldl_cons, length_cons]
    omega

theorem kept_rounds (re : List Byte) (pieces : List (List Byte)) (s : List Byte × List Byte) :
    kept (pieces.foldl (roundStep re) s) ≤ kept s + pieces.flatten.length := by
  induction pieces generalizing s with
  | nil => rfl
  | cons piece pieces ih =>
    have hstep : kept (roundStep re s piece) ≤ kept s + piece.length := by
      grind [roundStep, kept_lineStep, kept]
    have hrest := ih (roundStep re s piece)
    rw [foldl_cons, flatten_cons, length_append]
    omega

theorem matchRe_nil (l : List Byte) : matchRe [] l = true := by
  have hhere : matchhere [] l = true := by
    rw [matchhere]
    exact if_pos rfl
  rw [matchRe, if_neg (by decide), matchLoop, if_pos hhere]

theorem Requested.ne_nil {m : Nat} (h : Requested m pieces) : ∀ piece ∈ pieces, piece ≠ [] := by
  induction pieces generalizing m with
  | nil => exact fun _ hmem => (not_mem_nil hmem).elim
  | cons piece pieces ih => exact forall_mem_cons.2 ⟨h.1, ih h.2.2⟩

/-- The output does not depend on how the input is cut up exactly when each piece brings a
newline. -/
theorem grep_chunks_iff (lines pieces : List (List Byte)) (hlines : ∀ l ∈ lines, 10 ∉ l ∧ 0 ∉ l)
    (hinput : pieces.flatten = lines.flatMap (· ++ [10])) (hread : Requested 0 pieces) :
    (∀ re, grep re pieces = (lines.filter (matchRe re)).flatMap (· ++ [10])) ↔
      ∀ piece ∈ pieces, 10 ∈ piece := by
  have h0 : 0 ∉ pieces.flatten := by
    rw [hinput, mem_flatMap]
    rintro ⟨l, hl, h⟩
    exact not_mem_append (hlines l hl).2 (by decide) h
  have hgrep (re : List Byte) : grep re pieces = (pieces.foldl (roundStep re) ([], [])).2 :=
    grepLoop_eq re [] [] rfl not_mem_nil h0 hread
  constructor
  · intro h piece hmem
    by_contra hno
    obtain ⟨before, after, rfl⟩ := append_of_mem hmem
    have hout := hgrep []
    rw [h, filter_eq_self.2 fun l _ => matchRe_nil l, ← hinput, foldl_append,
      foldl_cons, roundStep, if_neg (mt contains_iff_mem.1 hno)] at hout
    have hbefore := kept_rounds [] before ([], [])
    have hafter := kept_rounds [] after
      ([], (before.foldl (roundStep []) ([], [])).2)
    have hpos := length_pos_iff.2 (hread.ne_nil piece hmem)
    have hlen := congrArg List.length hout
    rw [flatten_append, flatten_cons, length_append, length_append] at hlen
    simp only [kept, length_nil] at hbefore hafter
    omega
  · intro h re
    rw [hgrep, rounds_eq h, hinput, foldl_lines fun l hl => (hlines l hl).1, nil_append]

theorem grep_chunks_iff_line : grep [97] [[97, 98, 10], [10]] =
    ([[97, 98], []].filter (matchRe [97])).flatMap (· ++ [10]) :=
  (grep_chunks_iff [[97, 98], []] [[97, 98, 10], [10]] (by decide) rfl
    ⟨by decide, by decide, by decide, by decide, trivial⟩).2 (by decide) [97]

/-- The line `ab` comes in two pieces. -/
theorem grep_loses_line : Requested 0 [[97], [98, 10]] ∧ matchRe [97, 98] [97, 98] = true ∧
    grep [97, 98] [[97], [98, 10]] = [] := by
  have hreq : Requested 0 [[97], [98, 10]] := ⟨by decide, by decide, by decide, by decide, trivial⟩
  refine ⟨hreq, ?_, ?_⟩
  · simp [matchRe, matchLoop, matchhere, charAt]
  · refine (grepLoop_eq [97, 98] [] [] rfl not_mem_nil (by decide) hreq).trans ?_
    simp [roundStep, lineStep, matchRe, matchLoop, matchhere, charAt]

end Xv6Signals.Grep
