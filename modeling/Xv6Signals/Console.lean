import Xv6Signals.Pipe

namespace Xv6Signals
open Lib List Nat

def inputBuf : Nat := 128

/-- The `input` ring of the console: the read, write and edit indices count on without end. -/
structure Console where
  buf : Nat → Byte
  r : Word
  w : Word
  e : Word

def ctrlD : Byte := 4
def backspace : Byte := 8
def newline : Byte := 10
def carriageReturn : Byte := 13
def ctrlP : Byte := 16
def ctrlU : Byte := 21
def delete : Byte := 127

variable {c c' : Console} {queue line : List Byte}

def killLine (c : Console) : Nat → Console
  | 0 => c
  | fuel + 1 =>
    if c.e ≠ c.w ∧ c.buf (cellOf inputBuf (c.e - 1)) ≠ newline then
      killLine { c with e := c.e - 1 } fuel
    else c

def Console.type (c : Console) (key : Byte) : Console :=
  let c := { c with buf := Function.update c.buf (cellOf inputBuf c.e) key, e := c.e + 1 }
  if key = newline ∨ key = ctrlD ∨ c.e = c.r + BitVec.ofNat 32 inputBuf then { c with w := c.e }
  else c

/-- What `consoleintr` does with one key. The loop of the kill-line key ends after at most as many
turns as there are characters to be edited. -/
def Console.key (c : Console) (key : Byte) : Console :=
  if key = ctrlP then c
  else if key = ctrlU then killLine c (c.e - c.w).toNat
  else if key = backspace ∨ key = delete then
    if c.e ≠ c.w then { c with e := c.e - 1 } else c
  else if key ≠ 0 ∧ (c.e - c.r).toNat < inputBuf then
    c.type (if key = carriageReturn then newline else key)
  else c

/-- `consoleread` with `n` of the `target` bytes still to be read, up to where it sleeps or returns,
with the characters it takes out of the ring. An end of file that is met after some bytes is put
back. -/
def consoleread (killed : Bool) (target : Nat) (c : Console) : Nat → Console × List Byte × Stop
  | 0 => (c, [], .ret target)
  | n + 1 =>
    if c.r = c.w then (c, [], if killed then .ret (-1) else .sleep)
    else
      let ch := c.buf (cellOf inputBuf c.r)
      if ch = ctrlD then
        if n + 1 < target then (c, [], .ret (target - (n + 1) : Nat))
        else ({ c with r := c.r + 1 }, [ch], .ret (target - (n + 1) : Nat))
      else if ch = newline then ({ c with r := c.r + 1 }, [ch], .ret (target - n : Nat))
      else
        let x := consoleread killed target { c with r := c.r + 1 } n
        (x.1, ch :: x.2.1, x.2.2)

structure ConsoleThread where
  n : Nat
  done : List Byte
  ret : Option Int
  deriving DecidableEq, Repr

/-- The console, the characters committed so far, the reads begun so far, and the characters that
they have taken out of the ring, each with the number of the call. -/
structure ConsoleState where
  cons : Console
  committed : List Byte
  calls : List ConsoleThread
  reads : List (Nat × Byte)

inductive ConsoleLabel
  | intr (keys : List Byte)
  | call (n : Nat) (killed : Bool)
  | resume (i : Nat) (killed : Bool)
  deriving DecidableEq, Repr

def ConsoleState.key (s : ConsoleState) (key : Byte) : ConsoleState :=
  let c := s.cons.key key
  { s with cons := c, committed := s.committed ++ spanOf inputBuf c.buf s.cons.w c.w }

def noMarks (l : List Byte) : List Byte := l.filter (· ≠ ctrlD)

def ConsoleState.run (s : ConsoleState) (i : Nat) (a : ConsoleThread) (killed : Bool) :
    ConsoleState :=
  let x := consoleread killed a.n s.cons (a.n - a.done.length)
  { s with
    cons := x.1
    calls := s.calls.set i { a with done := a.done ++ noMarks x.2.1, ret := x.2.2.value }
    reads := s.reads ++ x.2.1.map fun b => (i, b) }

def ConsoleState.next (s : ConsoleState) : ConsoleLabel → Option ConsoleState
  | .intr keys => some (keys.foldl ConsoleState.key s)
  | .call n killed =>
    let a : ConsoleThread := ⟨n, [], none⟩
    some ({ s with calls := s.calls ++ [a] }.run s.calls.length a killed)
  | .resume i killed =>
    match s.calls[i]? with
    | some a => if a.ret.isNone then some (s.run i a killed) else none
    | none => none

def consoleMachine : Machine ConsoleState ConsoleLabel where
  init := fun s => s = ⟨⟨fun _ => 0, 0, 0, 0⟩, [], [], []⟩
  next := ConsoleState.next

theorem input_ringSize : RingSize inputBuf 32 := ⟨by decide, by decide⟩

/-- The ring holds the committed characters that are still to be read and then the line that is
being edited. -/
structure Console.Holds (c : Console) (queue line : List Byte) : Prop where
  ring : Ring inputBuf c.buf c.r c.e (queue ++ line)
  write : c.w = c.r + BitVec.ofNat 32 queue.length

theorem Console.Holds.committed (h : c.Holds queue line) : Ring inputBuf c.buf c.r c.w queue := by
  rw [h.write]
  exact h.ring.left

theorem Console.Holds.edited (h : c.Holds queue line) : Ring inputBuf c.buf c.w c.e line := by
  rw [h.write]
  exact h.ring.right

theorem Console.Holds.edit_iff (h : c.Holds queue line) : c.e ≠ c.w ↔ line ≠ [] :=
  not_congr (eq_comm.trans (Ring.empty_iff input_ringSize h.edited))

theorem Console.Holds.erase {front : List Byte} {x : Byte} (h : c.Holds queue (front ++ [x])) :
    Console.Holds { c with e := c.e - 1 } queue front := by
  obtain ⟨hring, hwrite⟩ := h
  rw [← append_assoc] at hring
  exact ⟨hring.init, hwrite⟩

theorem killLine_holds (h : c.Holds queue line) (fuel : Nat) :
    ∃ line', (killLine c fuel).Holds queue line' ∧ line' <+: line ∧
      (killLine c fuel).r = c.r ∧ (killLine c fuel).buf = c.buf := by
  induction fuel generalizing c line with
  | zero => exact ⟨line, h, prefix_refl _, rfl, rfl⟩
  | succ fuel ih =>
    rw [killLine]
    split
    · rename_i hgo
      obtain ⟨front, x, rfl⟩ := eq_nil_or_concat' line |>.resolve_left (h.edit_iff.1 hgo.1)
      obtain ⟨line', hh, hp, hr, hb⟩ := ih h.erase
      exact ⟨line', hh, hp.trans (prefix_append _ _), hr, hb⟩
    · exact ⟨line, h, prefix_refl _, rfl, rfl⟩

theorem killLine_ended (h : c.Holds queue line) {fuel : Nat} (hf : line.length ≤ fuel) :
    ¬ ((killLine c fuel).e ≠ (killLine c fuel).w ∧
      (killLine c fuel).buf (cellOf inputBuf ((killLine c fuel).e - 1)) ≠ newline) := by
  induction fuel generalizing c line with
  | zero =>
    intro hgo
    exact h.edit_iff.1 hgo.1 (length_eq_zero_iff.1 (le_zero.1 hf))
  | succ fuel ih =>
    rw [killLine]
    split
    · rename_i hgo
      obtain ⟨front, x, rfl⟩ := eq_nil_or_concat' line |>.resolve_left (h.edit_iff.1 hgo.1)
      apply ih h.erase
      rw [length_append, length_singleton] at hf
      omega
    · rename_i hgo
      exact hgo

theorem Console.Holds.span {new line' : List Byte} (h : c.Holds queue line)
    (h' : c'.Holds (queue ++ new) line') (hr : c'.r = c.r) :
    spanOf inputBuf c'.buf c.w c'.w = new := by
  have hring := h'.committed.right
  rw [hr, ← h.write] at hring
  exact hring.span input_ringSize

theorem type_holds (h : c.Holds queue line) (hroom : (c.e - c.r).toNat < inputBuf) (b : Byte) :
    ∃ new line', (c.type b).Holds (queue ++ new) line' ∧ (c.type b).r = c.r := by
  rw [h.ring.count input_ringSize] at hroom
  have hpush := Ring.push input_ringSize h.ring b hroom
  rw [append_assoc] at hpush
  unfold Console.type
  dsimp only
  split
  · refine ⟨line ++ [b], [], ⟨?_, ?_⟩, rfl⟩
    · rw [append_nil]
      exact hpush
    · exact hpush.top
  refine ⟨[], line ++ [b], ⟨?_, ?_⟩, rfl⟩
  · rw [append_nil]
    exact hpush
  · rw [append_nil]
    exact h.write

theorem key_holds (h : c.Holds queue line) (b : Byte) :
    ∃ new line', (c.key b).Holds (queue ++ new) line' ∧ (c.key b).r = c.r := by
  have hsame {d : Console} {line' : List Byte} (hd : d.Holds queue line') (hr : d.r = c.r) :
      ∃ new line', d.Holds (queue ++ new) line' ∧ d.r = c.r := by
    refine ⟨[], line', ?_, hr⟩
    rw [append_nil]
    exact hd
  unfold Console.key
  split
  · exact hsame h rfl
  split
  · obtain ⟨line', hk, -, hr, -⟩ := killLine_holds h (c.e - c.w).toNat
    exact hsame hk hr
  split
  · split
    · rename_i he
      obtain ⟨front, x, rfl⟩ := eq_nil_or_concat' line |>.resolve_left (h.edit_iff.1 he)
      exact hsame h.erase rfl
    · exact hsame h rfl
  split
  · rename_i hroom
    exact type_holds h hroom.2 _
  · exact hsame h rfl

def Plain (l : List Byte) : Prop := newline ∉ l ∧ ctrlD ∉ l

/-- How a stretch of `consoleread` ends that has `n` of its `target` bytes to go: with the
characters it has taken and those that it leaves. -/
inductive ReadEnd (killed : Bool) (target n : Nat) : List Byte → List Byte → Stop → Prop
  | full {taken rest : List Byte} : Plain taken → taken.length = n →
      ReadEnd killed target n taken rest (.ret target)
  | line {taken rest : List Byte} : Plain taken → taken.length < n →
      ReadEnd killed target n (taken ++ [newline]) rest
        (.ret (target - n + taken.length + 1 : Nat))
  | kept {taken rest : List Byte} : Plain taken → taken.length < n → n - taken.length < target →
      ReadEnd killed target n taken (ctrlD :: rest) (.ret (target - n + taken.length : Nat))
  | eof {rest : List Byte} : 0 < n → n = target → ReadEnd killed target n [ctrlD] rest (.ret 0)
  | wait {taken : List Byte} : Plain taken → taken.length < n → killed = false →
      ReadEnd killed target n taken [] .sleep
  | kill {taken : List Byte} : Plain taken → taken.length < n → killed = true →
      ReadEnd killed target n taken [] (.ret (-1))

variable {b : Byte} {taken rest : List Byte} {killed : Bool} {target n : Nat} {stop : Stop}

theorem Plain.cons (h : Plain taken) (hd : b ≠ ctrlD) (hn : b ≠ newline) : Plain (b :: taken) := by
  constructor
  · intro hm
    rcases mem_cons.1 hm with he | hm
    · exact hn he.symm
    · exact h.1 hm
  · intro hm
    rcases mem_cons.1 hm with he | hm
    · exact hd he.symm
    · exact h.2 hm

theorem Plain.nil : Plain [] := by
  constructor
  · intro hm
    cases hm
  · intro hm
    cases hm

theorem ReadEnd.cons (h : ReadEnd killed target n taken rest stop) (hd : b ≠ ctrlD)
    (hn : b ≠ newline) (hlt : n < target) :
    ReadEnd killed target (n + 1) (b :: taken) rest stop := by
  cases h with
  | full hp hl => exact .full (hp.cons hd hn) (congrArg Nat.succ hl)
  | @line taken _ hp hl =>
    have he : target - n + taken.length + 1 = target - (n + 1) + (b :: taken).length + 1 := by
      rw [length_cons]
      omega
    rw [he, ← cons_append]
    exact .line (hp.cons hd hn) (succ_lt_succ hl)
  | @kept _ rest hp hl hlt' =>
    have he : target - n + taken.length = target - (n + 1) + (b :: taken).length := by
      rw [length_cons]
      omega
    rw [he]
    refine .kept (hp.cons hd hn) (succ_lt_succ hl) ?_
    rw [length_cons]
    omega
  | eof _ he => omega
  | wait hp hl hk => exact .wait (hp.cons hd hn) (succ_lt_succ hl) hk
  | kill hp hl hk => exact .kill (hp.cons hd hn) (succ_lt_succ hl) hk

theorem consoleread_spec (killed : Bool) (h : c.Holds queue line) (hn : n ≤ target) :
    ∃ rest, queue = (consoleread killed target c n).2.1 ++ rest ∧
      (consoleread killed target c n).1.Holds rest line ∧
      ReadEnd killed target n (consoleread killed target c n).2.1 rest
        (consoleread killed target c n).2.2 := by
  induction n generalizing c queue with
  | zero => exact ⟨queue, rfl, h, .full Plain.nil rfl⟩
  | succ n ih =>
    rw [consoleread]
    split
    · rename_i he
      cases (Ring.empty_iff input_ringSize h.committed).1 he
      refine ⟨[], rfl, h, ?_⟩
      cases killed with
      | true => exact .kill Plain.nil (succ_pos n) rfl
      | false => exact .wait Plain.nil (succ_pos n) rfl
    rename_i he
    cases queue with
    | nil => exact (he ((Ring.empty_iff input_ringSize h.committed).2 rfl)).elim
    | cons b queue =>
      have hnext : Console.Holds { c with r := c.r + 1 } queue line := by
        refine ⟨h.ring.tail, ?_⟩
        exact h.committed.tail.top
      rw [h.ring.head]
      dsimp only
      split
      · rename_i hb
        subst hb
        split
        · rename_i hlt
          refine ⟨ctrlD :: queue, rfl, h, ?_⟩
          exact @ReadEnd.kept _ _ _ [] _ Plain.nil (succ_pos n) hlt
        rename_i hlt
        have he : n + 1 = target := by omega
        refine ⟨queue, rfl, hnext, ?_⟩
        rw [he, Nat.sub_self]
        exact .eof (by omega) rfl
      · rename_i hd
        split
        · rename_i hb
          subst hb
          refine ⟨queue, rfl, hnext, ?_⟩
          have he : target - n = target - (n + 1) + ([] : List Byte).length + 1 := by
            rw [length_nil]
            omega
          rw [he]
          exact .line Plain.nil (succ_pos n)
        · rename_i hl
          obtain ⟨rest, hq, hh, hend⟩ := ih hnext (by omega)
          exact ⟨rest, congrArg (b :: ·) hq, hh, hend.cons hd hl (by omega)⟩

/-- What a read has done so far: it hands on what it has taken without the end-of-file marks, has no
newline but at the end, and returns the number of its bytes or, when it is killed, -1. -/
structure ConsoleThread.Sound (a : ConsoleThread) (got : List Byte) : Prop where
  done : a.done = noMarks got
  fits : a.done.length ≤ a.n
  waits : a.ret = none → Plain a.done
  line : newline ∉ a.done.dropLast
  value : ∀ m, a.ret = some m → m = a.done.length ∨ m = -1

theorem noMarks_append (l l' : List Byte) : noMarks (l ++ l') = noMarks l ++ noMarks l' :=
  filter_append ..

theorem Plain.noMarks (h : Plain taken) : noMarks taken = taken := by
  rw [Xv6Signals.noMarks, filter_eq_self]
  intro x hx
  rw [decide_eq_true_eq]
  rintro rfl
  exact h.2 hx

theorem Plain.append (h : Plain taken) (h' : Plain rest) : Plain (taken ++ rest) := by
  constructor
  · intro hm
    exact (mem_append.1 hm).elim h.1 h'.1
  · intro hm
    exact (mem_append.1 hm).elim h.2 h'.2

theorem Plain.dropLast (h : Plain taken) : newline ∉ taken.dropLast := fun hm =>
  h.1 (dropLast_subset taken hm)

theorem noMarks_newline : noMarks [newline] = [newline] := by decide

theorem noMarks_ctrlD : noMarks [ctrlD] = [] := by decide

theorem ConsoleThread.Sound.run {a : ConsoleThread} {got : List Byte} (h : a.Sound got)
    (hret : a.ret = none)
    (hend : ReadEnd killed a.n (a.n - a.done.length) taken rest stop) :
    ConsoleThread.Sound { a with done := a.done ++ noMarks taken, ret := stop.value }
      (got ++ taken) := by
  have hplain := h.waits hret
  have hfits := h.fits
  have hdone : a.done ++ noMarks taken = noMarks (got ++ taken) := by
    rw [noMarks_append, ← h.done]
  cases hend with
  | full hp hl =>
    rw [hp.noMarks] at hdone ⊢
    have hlen : (a.done ++ taken).length = a.n := by
      rw [length_append]
      omega
    refine ⟨hdone, Nat.le_of_eq hlen, fun _ => hplain.append hp, (hplain.append hp).dropLast, ?_⟩
    intro m hm
    cases hm
    exact .inl (congrArg Nat.cast hlen.symm)
  | @line taken _ hp hl =>
    rw [noMarks_append, hp.noMarks, noMarks_newline, ← append_assoc] at hdone ⊢
    have hlen : (a.done ++ taken ++ [newline]).length = a.done.length + taken.length + 1 := by
      rw [length_append, length_append, length_singleton]
    refine ⟨hdone, by dsimp only; omega, ?_, ?_, ?_⟩
    · intro hv
      cases hv
    · rw [dropLast_concat]
      exact (hplain.append hp).1
    intro m hm
    cases hm
    refine .inl (congrArg Nat.cast ?_)
    dsimp only
    omega
  | kept hp hl hlt =>
    rw [hp.noMarks] at hdone ⊢
    have hlen : (a.done ++ taken).length = a.done.length + taken.length := length_append
    refine ⟨hdone, by dsimp only; omega, fun _ => hplain.append hp, (hplain.append hp).dropLast, ?_⟩
    intro m hm
    cases hm
    refine .inl (congrArg Nat.cast ?_)
    dsimp only
    omega
  | eof hpos he =>
    rw [noMarks_ctrlD, append_nil] at hdone ⊢
    have hzero : a.done.length = 0 := by omega
    refine ⟨hdone, hfits, fun _ => hplain, hplain.dropLast, ?_⟩
    intro m hm
    cases hm
    exact .inl (congrArg Nat.cast hzero.symm)
  | wait hp hl _ =>
    rw [hp.noMarks] at hdone ⊢
    have hlen : (a.done ++ taken).length = a.done.length + taken.length := length_append
    refine ⟨hdone, by dsimp only; omega, fun _ => hplain.append hp, (hplain.append hp).dropLast, ?_⟩
    intro m hm
    cases hm
  | kill hp hl _ =>
    rw [hp.noMarks] at hdone ⊢
    have hlen : (a.done ++ taken).length = a.done.length + taken.length := length_append
    refine ⟨hdone, by dsimp only; omega, fun _ => hplain.append hp, (hplain.append hp).dropLast, ?_⟩
    intro m hm
    cases hm
    exact .inr rfl

structure ConsoleInv (s : ConsoleState) : Prop where
  ring : ∃ queue line, s.cons.Holds queue line ∧ s.committed = s.reads.map Prod.snd ++ queue
  calls : ∀ i (a : ConsoleThread), s.calls[i]? = some a → a.Sound (byCall s.reads i)
  fresh : ∀ i, s.calls.length ≤ i → byCall s.reads i = []

variable {s t : ConsoleState} {i : Nat} {a : ConsoleThread}

theorem ConsoleInv.key (hi : ConsoleInv s) (b : Byte) : ConsoleInv (s.key b) := by
  obtain ⟨queue, line, hh, hcommitted⟩ := hi.ring
  obtain ⟨new, line', hkey, hr⟩ := key_holds hh b
  refine ⟨⟨queue ++ new, line', hkey, ?_⟩, hi.calls, hi.fresh⟩
  rw [ConsoleState.key]
  dsimp only
  rw [hh.span hkey hr, hcommitted, append_assoc]

theorem ConsoleInv.run (hi : ConsoleInv s) (ha : s.calls[i]? = some a) (hret : a.ret = none)
    (killed : Bool) : ConsoleInv (s.run i a killed) := by
  obtain ⟨queue, line, hh, hcommitted⟩ := hi.ring
  have hlt : i < s.calls.length := (List.getElem?_eq_some_iff.1 ha).1
  obtain ⟨rest, hq, hh', hend⟩ :=
    consoleread_spec killed hh (sub_le a.n a.done.length)
  unfold ConsoleState.run
  generalize consoleread killed a.n s.cons (a.n - a.done.length) = x at hq hh' hend
  refine ⟨⟨rest, line, hh', ?_⟩, ?_, ?_⟩
  · dsimp only
    rw [hcommitted, hq, map_append, snd_byCall, append_assoc]
  · intro j b hb
    by_cases hij : i = j
    · subst hij
      rw [getElem?_set_self hlt] at hb
      cases hb
      rw [byCall_append_self]
      exact (hi.calls i a ha).run hret hend
    · rw [getElem?_set_ne hij] at hb
      rw [byCall_append_of_ne _ hij]
      exact hi.calls j b hb
  · intro j hj
    rw [length_set] at hj
    rw [byCall_append_of_ne _ (by omega)]
    exact hi.fresh j hj

theorem ConsoleInv.begin (hi : ConsoleInv s) (n : Nat) :
    ConsoleInv { s with calls := s.calls ++ [⟨n, [], none⟩] } where
  ring := hi.ring
  calls := by
    intro i a ha
    rw [getElem?_append] at ha
    split at ha
    · exact hi.calls i a ha
    rename_i hle
    cases mem_singleton.1 (mem_of_getElem? ha)
    dsimp only
    rw [hi.fresh i (Nat.le_of_not_lt hle)]
    exact ⟨rfl, Nat.zero_le n, fun _ => Plain.nil, Plain.nil.1, fun m hm => by cases hm⟩
  fresh := by
    intro i hle
    rw [length_append] at hle
    exact hi.fresh i (le_of_add_right_le hle)

inductive ConsoleStep (s : ConsoleState) : ConsoleState → Prop
  | intr (keys : List Byte) : ConsoleStep s (keys.foldl ConsoleState.key s)
  | call (n : Nat) (killed : Bool) : ConsoleStep s
      (ConsoleState.run { s with calls := s.calls ++ [⟨n, [], none⟩] } s.calls.length
        ⟨n, [], none⟩ killed)
  | resume {i : Nat} {a : ConsoleThread} (killed : Bool) : s.calls[i]? = some a → a.ret = none →
      ConsoleStep s (s.run i a killed)

theorem console_next_cases {l : ConsoleLabel} (h : s.next l = some t) : ConsoleStep s t := by
  cases l with
  | intr keys =>
    cases h
    exact .intr keys
  | call n killed =>
    cases h
    exact .call n killed
  | resume i killed =>
    simp only [ConsoleState.next] at h
    split at h
    · rename_i a ha
      split at h
      · rename_i hr
        cases h
        exact .resume killed ha (Option.isNone_iff_eq_none.1 hr)
      · cases h
    · cases h

theorem ConsoleInv.step (hi : ConsoleInv s) (h : ConsoleStep s t) : ConsoleInv t := by
  cases h with
  | intr keys =>
    induction keys generalizing s with
    | nil => exact hi
    | cons b keys ih => exact ih (hi.key b)
  | call n killed => exact (hi.begin n).run getElem?_concat_length rfl killed
  | resume killed ha hr => exact hi.run ha hr killed

theorem ConsoleInv.reach (h : consoleMachine.Reachable s) : ConsoleInv s := by
  refine Machine.Reach.invariant h ?_ fun s l t _ hi _ hs => hi.step (console_next_cases hs)
  rintro s rfl
  refine ⟨⟨[], [], ⟨Ring.nil .., rfl⟩, rfl⟩, fun i a ha => ?_, fun i _ => rfl⟩
  cases ha

def ConsoleState.unread (s : ConsoleState) : List Byte := s.committed.drop s.reads.length

theorem ConsoleInv.holds (hi : ConsoleInv s) : ∃ line, s.cons.Holds s.unread line := by
  obtain ⟨queue, line, hh, hcommitted⟩ := hi.ring
  have hq : s.unread = queue := by
    have hlen : s.reads.length = (s.reads.map Prod.snd).length := (length_map _).symm
    rw [ConsoleState.unread, hcommitted, hlen, drop_left]
  rw [hq]
  exact ⟨line, hh⟩

theorem ConsoleInv.run_end (hi : ConsoleInv s) (i : Nat) (a : ConsoleThread) (killed : Bool) :
    ∃ taken stop, s.unread = taken ++ (s.run i a killed).unread ∧
      ReadEnd killed a.n (a.n - a.done.length) taken (s.run i a killed).unread stop ∧
      (s.run i a killed).calls =
        s.calls.set i { a with done := a.done ++ noMarks taken, ret := stop.value } ∧
      (s.run i a killed).reads = s.reads ++ taken.map fun b => (i, b) := by
  obtain ⟨line, hh⟩ := hi.holds
  obtain ⟨rest, hq, -, hend⟩ := consoleread_spec killed hh (sub_le a.n a.done.length)
  have hrest : (s.run i a killed).unread = rest := by
    have hdrop : (s.run i a killed).unread =
        s.unread.drop (consoleread killed a.n s.cons (a.n - a.done.length)).2.1.length := by
      rw [ConsoleState.unread, ConsoleState.run]
      dsimp only
      rw [length_append, length_map, ← drop_drop, ConsoleState.unread]
    rw [hdrop, hq, drop_left]
  rw [hrest]
  exact ⟨_, _, hq, hend, rfl, rfl⟩

theorem ConsoleInv.run_short {j : Nat} {a' : ConsoleThread} {m : Int} (hi : ConsoleInv s)
    (ha : s.calls[i]? = some a) (hs : a.Sound (byCall s.reads i)) (killed : Bool)
    (ht : (s.run i a killed).calls[j]? = some a') (hret : a'.ret = some m)
    (hnew : ∀ b, s.calls[j]? = some b → b.ret = none) (hpos : 0 < m) (hlt : m < a'.n)
    (hline : a'.done.getLast? ≠ some newline) :
    (s.run i a killed).unread.head? = some ctrlD := by
  have hilt : i < s.calls.length := (List.getElem?_eq_some_iff.1 ha).1
  obtain ⟨taken, stop, -, hend, hcalls, -⟩ := hi.run_end i a killed
  rw [hcalls] at ht
  by_cases hij : i = j
  · subst hij
    rw [getElem?_set_self hilt] at ht
    cases ht
    dsimp only at hret hlt hline
    have hfits := hs.fits
    generalize (s.run i a killed).unread = rest at hend
    cases hend with
    | full _ _ =>
      cases hret
      omega
    | line hp _ =>
      rw [noMarks_append, noMarks_newline, ← append_assoc, getLast?_concat] at hline
      exact (hline rfl).elim
    | kept _ _ _ => rfl
    | eof _ _ =>
      cases hret
      omega
    | wait _ _ _ => cases hret
    | kill _ _ _ =>
      cases hret
      omega
  · rw [getElem?_set_ne hij] at ht
    rw [hnew a' ht] at hret
    cases hret

theorem ReadEnd.mark (h : ReadEnd killed target n taken rest stop)
    (hmark : (taken ++ rest).head? = some ctrlD) :
    taken = [] ∧ (n < target ∨ n = 0) ∨ taken = [ctrlD] ∧ stop = .ret 0 ∧ n = target := by
  have hnil {front back : List Byte} (hp : Plain front)
      (hh : (front ++ back).head? = some ctrlD) : front = [] := by
    cases front with
    | nil => rfl
    | cons b front =>
      cases hh
      exact (hp.2 mem_cons_self).elim
  cases h with
  | full hp hl =>
    cases hnil hp hmark
    exact .inl ⟨rfl, .inr hl.symm⟩
  | line hp _ =>
    rw [append_assoc] at hmark
    cases hnil hp hmark
    cases hmark
  | kept hp _ hlt =>
    cases hnil hp hmark
    exact .inl ⟨rfl, .inl hlt⟩
  | eof _ he => exact .inr ⟨rfl, rfl, he⟩
  | wait hp _ _ =>
    cases hnil hp hmark
    cases hmark
  | kill hp _ _ =>
    cases hnil hp hmark
    cases hmark

theorem ConsoleInv.run_mark (hi : ConsoleInv s) (ha : s.calls[i]? = some a) (killed : Bool)
    (hfits : a.done.length ≤ a.n) (hmark : s.unread.head? = some ctrlD) :
    ¬ (a.done = [] ∧ 0 < a.n) ∧ (s.run i a killed).reads = s.reads ∨
      (s.run i a killed).calls[i]? = some ⟨a.n, [], some 0⟩ ∧
        (s.run i a killed).reads = s.reads ++ [(i, ctrlD)] := by
  have hilt : i < s.calls.length := (List.getElem?_eq_some_iff.1 ha).1
  obtain ⟨taken, stop, hq, hend, hcalls, hreads⟩ := hi.run_end i a killed
  rw [hreads, hcalls, getElem?_set_self hilt]
  rw [hq] at hmark
  rcases hend.mark hmark with ⟨rfl, hless⟩ | ⟨rfl, rfl, he⟩
  · refine .inl ⟨?_, append_nil _⟩
    rintro ⟨hdone, hn⟩
    rw [hdone, length_nil] at hless
    omega
  · have hdone : a.done = [] := length_eq_zero_iff.1 (by omega)
    exact .inr ⟨by rw [hdone]; rfl, rfl⟩

theorem keys_extend (hi : ConsoleInv s) (keys : List Byte) :
    s.committed <+: (keys.foldl ConsoleState.key s).committed ∧
      (keys.foldl ConsoleState.key s).reads = s.reads ∧
      (keys.foldl ConsoleState.key s).calls = s.calls ∧
      (keys.foldl ConsoleState.key s).cons.r = s.cons.r := by
  induction keys generalizing s with
  | nil => exact ⟨prefix_refl _, rfl, rfl, rfl⟩
  | cons b keys ih =>
    obtain ⟨line, hh⟩ := hi.holds
    obtain ⟨_, _, -, hr⟩ := key_holds hh b
    obtain ⟨hpre, hreads, hcalls, hr'⟩ := ih (hi.key b)
    exact ⟨(prefix_append _ _).trans hpre, hreads, hcalls, hr'.trans hr⟩

theorem ConsoleInv.cells_kept (hi : ConsoleInv s) (ht : ConsoleInv t) (hr : t.cons.r = s.cons.r)
    (hpre : s.unread <+: t.unread) {j : Nat} (hj : j < (s.cons.w - s.cons.r).toNat) :
    t.cons.buf (cellOf inputBuf (s.cons.r + BitVec.ofNat 32 j)) =
      s.cons.buf (cellOf inputBuf (s.cons.r + BitVec.ofNat 32 j)) := by
  obtain ⟨_, hs⟩ := hi.holds
  obtain ⟨_, ht⟩ := ht.holds
  rw [hs.committed.count input_ringSize] at hj
  have hget := hs.committed.get_lt hj
  have hget' := ht.committed.get_lt (Nat.lt_of_lt_of_le hj hpre.length_le)
  obtain ⟨more, hmore⟩ := hpre
  rw [← hmore, getElem?_append_left hj, hget, hr] at hget'
  exact (Option.some.inj hget').symm

structure LineDiscipline (s : ConsoleState) : Prop where
  bound : (s.cons.w - s.cons.r).toNat + (s.cons.e - s.cons.w).toNat ≤ inputBuf
  order : noMarks (s.reads.map Prod.snd) <+: noMarks s.committed
  reads : ∀ i (a : ConsoleThread), s.calls[i]? = some a →
    a.done = noMarks (byCall s.reads i) ∧ newline ∉ a.done.dropLast ∧
      (a.ret = none → newline ∉ a.done) ∧
      ∀ m : Int, a.ret = some m → m = a.done.length ∧ a.done.length ≤ a.n ∨ m = -1
  fixed : ∀ keys t, s.next (.intr keys) = some t →
    s.committed <+: t.committed ∧ t.reads = s.reads ∧ t.cons.r = s.cons.r ∧
      ∀ j < (s.cons.w - s.cons.r).toNat,
        t.cons.buf (cellOf inputBuf (s.cons.r + BitVec.ofNat 32 j)) =
          s.cons.buf (cellOf inputBuf (s.cons.r + BitVec.ofNat 32 j))
  kept : ∀ l (t : ConsoleState) (i : Nat) (a : ConsoleThread) m, s.next l = some t →
    t.calls[i]? = some a → a.ret = some m → (∀ b, s.calls[i]? = some b → b.ret = none) →
    0 < m → m < a.n → a.done.getLast? ≠ some newline → t.unread.head? = some ctrlD
  mark : s.unread.head? = some ctrlD → ∀ l t, s.next l = some t →
    (∀ n killed, l = .call n killed → n = 0) ∧ t.reads = s.reads ∧ t.unread.head? = some ctrlD ∨
      ∃ (i n : Nat), t.calls[i]? = some ⟨n, [], some 0⟩ ∧
        (∀ b, s.calls[i]? = some b → b.ret = none) ∧ t.reads = s.reads ++ [(i, ctrlD)]

theorem unread_grows (h : s.committed <+: t.committed) (hr : t.reads = s.reads) :
    s.unread <+: t.unread := by
  obtain ⟨more, hmore⟩ := h
  rw [ConsoleState.unread, ConsoleState.unread, ← hmore, hr, drop_append]
  exact prefix_append _ _

theorem head_of_prefix {l l' : List Byte} (h : l <+: l') (hl : l.head? = some b) :
    l'.head? = some b := by
  obtain ⟨more, rfl⟩ := h
  rw [head?_append, hl]
  rfl

theorem begin_returned {j : Nat} (hnew : ∀ b, s.calls[j]? = some b → b.ret = none) :
    ∀ b, (s.calls ++ [(⟨n, [], none⟩ : ConsoleThread)])[j]? = some b → b.ret = none := by
  intro b hb
  rw [getElem?_append] at hb
  split at hb
  · exact hnew b hb
  · cases mem_singleton.1 (mem_of_getElem? hb)
    rfl

theorem unread_of_reads (i : Nat) (a : ConsoleThread) (killed : Bool)
    (h : (s.run i a killed).reads = s.reads) : (s.run i a killed).unread = s.unread := by
  rw [ConsoleState.unread, h]
  rfl

theorem console_discipline (h : consoleMachine.Reachable s) : LineDiscipline s := by
  have hi := ConsoleInv.reach h
  obtain ⟨queue, line, hh, hcommitted⟩ := hi.ring
  refine ⟨?_, ?_, ?_, ?_, ?_, ?_⟩
  · rw [hh.committed.count input_ringSize, hh.edited.count input_ringSize, ← length_append]
    exact hh.ring.room
  · rw [hcommitted, noMarks_append]
    exact prefix_append _ _
  · intro i a ha
    have hs := hi.calls i a ha
    refine ⟨hs.done, hs.line, fun hr => (hs.waits hr).1, fun m hm => ?_⟩
    exact (hs.value m hm).imp_left fun hv => ⟨hv, hs.fits⟩
  · intro keys t ht
    cases ht
    obtain ⟨hpre, hreads, -, hr⟩ := keys_extend hi keys
    refine ⟨hpre, hreads, hr, fun j hj => ?_⟩
    exact hi.cells_kept (hi.step (.intr keys)) hr (unread_grows hpre hreads) hj
  · intro l t i a m hs ht hret hnew hpos hlt hline
    cases console_next_cases hs with
    | intr keys =>
      rw [(keys_extend hi keys).2.2.1] at ht
      rw [hnew a ht] at hret
      cases hret
    | call n killed =>
      exact (hi.begin n).run_short getElem?_concat_length
        ((hi.begin n).calls _ _ getElem?_concat_length) killed ht hret (begin_returned hnew)
        hpos hlt hline
    | resume killed ha _ =>
      exact hi.run_short ha (hi.calls _ _ ha) killed ht hret hnew hpos hlt hline
  intro hmark l t hs
  have hcases := console_next_cases hs
  cases l with
  | intr keys =>
    cases hs
    obtain ⟨hpre, hreads, -, -⟩ := keys_extend hi keys
    refine .inl ⟨?_, hreads, head_of_prefix (unread_grows hpre hreads) hmark⟩
    intro n killed he
    cases he
  | call n killed =>
    cases hs
    rcases (hi.begin n).run_mark getElem?_concat_length killed (Nat.zero_le n) hmark with
      ⟨hno, hreads⟩ | ⟨hcall, hreads⟩
    · refine .inl ⟨fun n' killed' he => ?_, hreads, ?_⟩
      · cases he
        by_contra hn
        exact hno ⟨rfl, Nat.pos_of_ne_zero hn⟩
      · rw [unread_of_reads _ _ _ hreads]
        exact hmark
    · refine .inr ⟨_, n, hcall, fun b hb => ?_, hreads⟩
      rw [List.getElem?_eq_none_iff.2 (Nat.le_refl _)] at hb
      cases hb
  | resume i killed =>
    simp only [ConsoleState.next] at hs
    split at hs
    · rename_i a ha
      split at hs
      · rename_i hr
        cases hs
        have hr := Option.isNone_iff_eq_none.1 hr
        rcases hi.run_mark ha killed (hi.calls i a ha).fits hmark with
          ⟨-, hreads⟩ | ⟨hcall, hreads⟩
        · refine .inl ⟨?_, hreads, ?_⟩
          · intro n killed he
            cases he
          · rw [unread_of_reads _ _ _ hreads]
            exact hmark
        · refine .inr ⟨i, a.n, hcall, fun b hb => ?_, hreads⟩
          cases ha.symm.trans hb
          exact hr
      · cases hs
    · cases hs

def freshConsole : ConsoleState := ⟨⟨fun _ => 0, 0, 0, 0⟩, [], [], []⟩

theorem console_discipline_line : ∃ s, consoleMachine.Reachable s ∧
    s.reads.map Prod.snd = [97, 10, 4] ∧ LineDiscipline s := by
  obtain ⟨s, hs, hreads⟩ :=
    (Machine.Reach.init (M := consoleMachine) (s := freshConsole) rfl).exists_run
      (l := [.call 10 false, .intr [97, 98, 8, 13, 4], .resume 0 false, .call 10 false])
      (P := fun s : ConsoleState => s.reads.map Prod.snd = [97, 10, 4])
      (Machine.permits_true ..) (by decide +kernel)
  exact ⟨s, hs, hreads, console_discipline hs⟩

def ConsoleState.returned (s : ConsoleState) : List Byte :=
  noMarks ((s.reads.filter fun e => (s.calls[e.1]?).any fun a => a.ret.any (· ≠ -1)).map Prod.snd)

/-- A full buffer is committed, a read takes it and waits for more, and is killed; the next read
returns what was typed after it. -/
theorem killed_read_loses_bytes : ∃ s, consoleMachine.Reachable s ∧ s.returned = [98, 10] ∧
    s.committed = List.replicate 128 97 ++ [98, 10] ∧ ¬ s.returned <+: noMarks s.committed :=
  (Machine.Reach.init (M := consoleMachine) (s := freshConsole) rfl).exists_run
    (l := [.intr (List.replicate 128 97), .call 200 false, .resume 0 true, .intr [98, 10],
      .call 10 false])
    (P := fun s : ConsoleState => s.returned = [98, 10] ∧
      s.committed = List.replicate 128 97 ++ [98, 10] ∧ ¬ s.returned <+: noMarks s.committed)
    (Machine.permits_true ..) (by decide +kernel)

end Xv6Signals
