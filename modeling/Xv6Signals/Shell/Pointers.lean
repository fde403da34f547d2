import Xv6Signals.Shell.Grammar

namespace Xv6Signals.Shell.Ptr
open Lib List

/-- A word as the tree holds it: where it begins in the buffer and where it ends (`argv[i]` and
`eargv[i]`, `file` and `efile`), counted from the beginning of the line. -/
structure Word where
  q : Nat
  eq : Nat
  deriving DecidableEq, Repr

inductive Cmd
  | exec (argv : List Word)
  | redir (cmd : Cmd) (file : Word) (mode fd : Nat)
  | pipe (left right : Cmd)
  | list (left right : Cmd)
  | back (cmd : Cmd)
  deriving DecidableEq, Repr

/-- The pointers that `gettoken` gives for the word `text` when its cursor is at `s`. -/
def wordAt (line s text : List Byte) : Word :=
  ⟨line.length - (skipSpace s).length, line.length - (skipSpace s).length + text.length⟩

def Cmd.addArg (w : Word) : Cmd → Cmd
  | .exec argv => .exec (argv ++ [w])
  | .redir cmd file mode fd => .redir (cmd.addArg w) file mode fd
  | cmd => cmd

def redircmd (tok : Tok) (cmd : Cmd) (file : Word) : Cmd :=
  match tok with
  | .lt => .redir cmd file oRdonly 0
  | .gt => .redir cmd file (oWronly ||| oCreate) 1
  | .gtgt => .redir cmd file (oWronly ||| oCreate) 1
  | _ => cmd

abbrev Parsed := Except ParseError (Cmd × List Byte)

section Parser

variable (line : List Byte)

def parseredirs : Nat → Cmd → List Byte → Parsed
  | 0, _, _ => .error .fuel
  | n + 1, cmd, s =>
    if (peek [60, 62] s).1 then
      let tok := gettoken (peek [60, 62] s).2
      match gettoken tok.2 with
      | (.word file, s) => parseredirs n (redircmd tok.1 cmd (wordAt line tok.2 file)) s
      | _ => .error (.panic "missing file for redirection")
    else .ok (cmd, (peek [60, 62] s).2)

def parseargs : Nat → Cmd → Nat → List Byte → Parsed
  | 0, _, _, _ => .error .fuel
  | n + 1, ret, argc, s =>
    if (peek [124, 41, 38, 59] s).1 then .ok (ret, (peek [124, 41, 38, 59] s).2)
    else
      match gettoken (peek [124, 41, 38, 59] s).2 with
      | (.eof, s) => .ok (ret, s)
      | (.word q, s') =>
        if maxArgs ≤ argc + 1 then .error (.panic "too many args")
        else do
          let x ← parseredirs line n (ret.addArg (wordAt line s q)) s'
          parseargs n x.1 (argc + 1) x.2
      | _ => .error (.panic "syntax")

def parsebacks : Nat → Cmd → List Byte → Parsed
  | 0, _, _ => .error .fuel
  | n + 1, cmd, s =>
    if (peek [38] s).1 then parsebacks n (.back cmd) (gettoken (peek [38] s).2).2
    else .ok (cmd, (peek [38] s).2)

mutual

def parseline : Nat → List Byte → Parsed
  | 0, _ => .error .fuel
  | n + 1, s => do
    let x ← parsepipe n s
    let x ← parsebacks n x.1 x.2
    if (peek [59] x.2).1 then
      let y ← parseline n (gettoken (peek [59] x.2).2).2
      return (.list x.1 y.1, y.2)
    else return (x.1, (peek [59] x.2).2)

def parsepipe : Nat → List Byte → Parsed
  | 0, _ => .error .fuel
  | n + 1, s => do
    let x ← parseexec n s
    if (peek [124] x.2).1 then
      let y ← parsepipe n (gettoken (peek [124] x.2).2).2
      return (.pipe x.1 y.1, y.2)
    else return (x.1, (peek [124] x.2).2)

def parseblock : Nat → List Byte → Parsed
  | 0, _ => .error .fuel
  | n + 1, s =>
    if (peek [40] s).1 then do
      let x ← parseline n (gettoken (peek [40] s).2).2
      if (peek [41] x.2).1 then parseredirs line n x.1 (gettoken (peek [41] x.2).2).2
      else .error (.panic "syntax - missing )")
    else .error (.panic "parseblock")

def parseexec : Nat → List Byte → Parsed
  | 0, _ => .error .fuel
  | n + 1, s =>
    if (peek [40] s).1 then parseblock n (peek [40] s).2
    else do
      let x ← parseredirs line n (.exec []) (peek [40] s).2
      parseargs line n x.1 0 x.2

end

def parsecmd : Except ParseError Cmd := do
  let x ← parseline line (4 * line.length + 4) line
  if (peek [] x.2).2 = [] then return x.1 else .error (.panic "syntax")

end Parser

def Word.text (line : List Byte) (w : Word) : List Byte := (line.drop w.q).take (w.eq - w.q)

def Cmd.text (line : List Byte) : Cmd → Shell.Cmd
  | .exec argv => .exec (argv.map (Word.text line))
  | .redir cmd file mode fd => .redir (cmd.text line) (file.text line) mode fd
  | .pipe left right => .pipe (left.text line) (right.text line)
  | .list left right => .list (left.text line) (right.text line)
  | .back cmd => .back (cmd.text line)

def Cmd.words : Cmd → List Word
  | .exec argv => argv
  | .redir cmd file _ _ => cmd.words ++ [file]
  | .pipe left right => left.words ++ right.words
  | .list left right => left.words ++ right.words
  | .back cmd => cmd.words

def wordsTo (line : List Byte) : Nat → List Byte → List Word
  | 0, _ => []
  | n + 1, s =>
    match gettoken s with
    | (.eof, _) => []
    | (.word text, r) => wordAt line s text :: wordsTo line n r
    | (_, r) => wordsTo line n r

def wordsFrom (line s : List Byte) : List Word := wordsTo line (s.length + 1) s

variable {line s r text : List Byte} {t : Tok} {cmd c : Cmd} {w : Word} {ws : List Word} {n : Nat}

/-! ### What one call of `gettoken` gets past -/

theorem skipSpace_suffix (s : List Byte) : skipSpace s <:+ s := dropWhile_suffix _

/-- The token at `s` and the cursor after it: the end of the line, a run of word characters that
ends at another character or at the end of the line, or symbols. -/
inductive Lexed (s : List Byte) : Tok → List Byte → Prop
  | eof : skipSpace s = [] → Lexed s .eof []
  | word (text after : List Byte) : skipSpace s = text ++ after → text ≠ [] →
      (∀ c ∈ text, wordChar c = true) → (∀ c ∈ after.head?, wordChar c = false) →
      Lexed s (.word text) (skipSpace after)
  | symbol (t : Tok) (mid after : List Byte) : skipSpace s = mid ++ after → mid ≠ [] →
      (∀ c ∈ mid, wordChar c = false) → (∀ text, t ≠ .word text) → t ≠ .eof →
      Lexed s t (skipSpace after)

theorem wordChar_of_symbol {c : Byte} (h : c ∈ symbols) : wordChar c = false := by
  rw [wordChar, contains_iff_mem.2 h]
  exact Bool.and_false _

theorem symbolTok_some {c : Byte} (h : symbolTok c = some t) :
    c ∈ symbols ∧ (∀ text, t ≠ .word text) := by
  unfold symbolTok at h
  repeat' split at h
  all_goals cases h
  all_goals
    subst_vars
    exact ⟨by decide, fun text ht => by cases ht⟩

theorem gettoken_lexed (s : List Byte) : Lexed s (gettoken s).1 (gettoken s).2 := by
  unfold gettoken
  cases hs : skipSpace s with
  | nil => exact .eof hs
  | cons c rest =>
    dsimp only
    split
    · rename_i hc
      subst hc
      have hgt : wordChar 62 = false := wordChar_of_symbol (by decide)
      split
      · rename_i hgtgt
        obtain ⟨rest', rfl⟩ := head?_eq_some_iff.1 hgtgt
        exact .symbol _ [62, 62] rest' hs (cons_ne_nil _ _)
          (forall_mem_cons.2 ⟨hgt, forall_mem_singleton.2 hgt⟩)
          (fun text ht => by cases ht) (fun he => by cases he)
      · exact .symbol _ [62] rest hs (cons_ne_nil _ _) (forall_mem_singleton.2 hgt)
          (fun text ht => by cases ht) (fun he => by cases he)
    rename_i hgt
    split
    · rename_i t ht
      obtain ⟨hc, hword⟩ := symbolTok_some ht
      exact .symbol _ [c] rest hs (cons_ne_nil _ _)
        (forall_mem_singleton.2 (wordChar_of_symbol hc)) hword (symbolTok_lead ht).2
    rename_i ht
    have hspace : whitespace.contains c = false := by
      have hhead := head?_dropWhile_not (whitespace.contains ·) s
      rw [← skipSpace, hs] at hhead
      exact hhead
    have hc : wordChar c = true := by
      rw [wordChar, hspace, Bool.not_false, Bool.true_and, Bool.not_eq_true']
      exact Bool.eq_false_iff.2 fun he => symbolTok_none ht hgt (contains_iff_mem.1 he)
    refine .word _ _ ?_ (cons_ne_nil _ _) ?_ ?_
    · rw [hs, cons_append, takeWhile_append_dropWhile]
    · exact forall_mem_cons.2 ⟨hc, all_eq_true.1 all_takeWhile⟩
    · intro d hd
      have hhead := head?_dropWhile_not wordChar rest
      rw [Option.mem_def.1 hd] at hhead
      exact hhead

theorem Lexed.suffix (h : Lexed s t r) : r <:+ s := by
  cases h with
  | eof => exact nil_suffix
  | word text after hs =>
    exact (skipSpace_suffix _).trans ((hs ▸ suffix_append _ _ : after <:+ skipSpace s).trans
      (skipSpace_suffix s))
  | symbol t mid after hs =>
    exact (skipSpace_suffix _).trans ((hs ▸ suffix_append _ _ : after <:+ skipSpace s).trans
      (skipSpace_suffix s))

theorem gettoken_suffix (s : List Byte) : (gettoken s).2 <:+ s := (gettoken_lexed s).suffix

theorem peek_suffix (toks s : List Byte) : (peek toks s).2 <:+ s := skipSpace_suffix s

theorem text_wordAt (hs : s <:+ line) (h : gettoken s = (.word text, r)) :
    (wordAt line s text).text line = text := by
  have hlex := gettoken_lexed s
  rw [h] at hlex
  cases hlex with
  | word _ after hskip =>
    obtain ⟨before, hline⟩ := (skipSpace_suffix s).trans hs
    have hq : line.length - (skipSpace s).length = before.length := by
      rw [← hline, length_append, Nat.add_sub_cancel]
    rw [Word.text, wordAt, hq, Nat.add_sub_cancel_left, ← hline, drop_left, hskip,
      take_left]
  | symbol _ _ _ _ _ _ hword => exact (hword _ rfl).elim

/-! ### The words from a cursor on -/

theorem wordsTo_eq {m : Nat} (hn : s.length < n) (hm : s.length < m) :
    wordsTo line n s = wordsTo line m s := by
  induction n generalizing m s with
  | zero => omega
  | succ n ih =>
    cases m with
    | zero => omega
    | succ m =>
      rw [wordsTo, wordsTo]
      rcases gettoken_cases s with ⟨-, he⟩ | ⟨c, rest, hs, -, -, hlen, -⟩
      · rw [he]
      have hle := skipSpace_le s
      rw [hs, length_cons] at hle
      have heq := ih (s := (gettoken s).2) (m := m) (by omega) (by omega)
      cases hg : gettoken s with
      | mk t r =>
        rw [hg] at heq
        dsimp only at heq
        cases t <;> simp only [heq]

theorem wordsTo_eq_wordsFrom (hn : s.length < n) : wordsTo line n s = wordsFrom line s :=
  wordsTo_eq hn (Nat.lt_succ_self _)

theorem gettoken_length (h : gettoken s = (t, r)) (ht : t ≠ .eof) : r.length < s.length := by
  rcases gettoken_cases s with ⟨-, he⟩ | ⟨c, rest, hs, -, -, hlen, -⟩
  · rw [h] at he
    cases he
    exact (ht rfl).elim
  · have hle := skipSpace_le s
    rw [hs, length_cons] at hle
    rw [h] at hlen
    exact Nat.lt_of_le_of_lt hlen hle

theorem wordsFrom_word (h : gettoken s = (.word text, r)) :
    wordsFrom line s = wordAt line s text :: wordsFrom line r := by
  rw [wordsFrom, wordsTo, h]
  dsimp only
  rw [wordsTo_eq_wordsFrom (gettoken_length h (fun he => by cases he))]

theorem wordsFrom_symbol (h : gettoken s = (t, r)) (hword : ∀ text, t ≠ .word text) :
    wordsFrom line s = wordsFrom line r := by
  by_cases he : t = .eof
  · subst he
    have hr : r = [] := by
      have hlex := gettoken_lexed s
      rw [h] at hlex
      cases hlex with
      | eof => rfl
      | symbol _ _ _ _ _ _ _ hne => exact (hne rfl).elim
    rw [hr, wordsFrom, wordsTo, h]
    rfl
  · rw [wordsFrom, wordsTo, h, ← wordsTo_eq_wordsFrom (gettoken_length h he)]
    cases t with
    | eof => exact (he rfl).elim
    | word text => exact (hword text rfl).elim
    | _ => rfl

theorem wordAt_skipSpace : wordAt line (skipSpace s) text = wordAt line s text := by
  rw [wordAt, skipSpace_skipSpace, wordAt]

@[simp] theorem wordsFrom_peek (toks : List Byte) :
    wordsFrom line (peek toks s).2 = wordsFrom line s := by
  rw [peek, ← wordsTo_eq_wordsFrom (Nat.lt_succ_of_le (skipSpace_le s)), wordsFrom, wordsTo,
    wordsTo, gettoken_skipSpace]
  cases hg : gettoken s with
  | mk t r => cases t <;> simp only [wordAt_skipSpace]

theorem wordsFrom_peeked (line : List Byte) {toks : List Byte} (htoks : ∀ c ∈ toks, c ∈ symbols)
    (h : (peek toks s).1 = true) :
    wordsFrom line (gettoken (peek toks s).2).2 = wordsFrom line s := by
  rw [peek, gettoken_skipSpace]
  refine (wordsFrom_symbol (t := (gettoken s).1) rfl fun text ht => ?_).symm
  rcases gettoken_cases s with ⟨hs, -⟩ | ⟨c, rest, hs, -, hlead, -, hword⟩
  · rw [peek, hs] at h
    cases h
  obtain ⟨d, ds, rfl, hd⟩ := hword text ht
  rw [ht] at hlead
  cases hlead
  rw [peek, hs] at h
  exact hd (htoks _ (contains_iff_mem.1 h))

/-! ### The tree against the one with texts -/

/-- The parser at `s` with the tree's words so far `ws` does what the one with texts does, and what
it adds to the tree are the words that it gets past. -/
def Tracks (line : List Byte) (ws : List Word) (s : List Byte) (x : Parsed) (y : Shell.Parsed) :
    Prop :=
  match x with
  | .error e => y = .error e
  | .ok (cmd, r) => r <:+ line ∧ y = .ok (cmd.text line, r) ∧
      (cmd.words ++ wordsFrom line r).Perm (ws ++ wordsFrom line s)

variable {x : Parsed} {y : Shell.Parsed} {ws' : List Word} {s' : List Byte}

theorem Tracks.ok (hr : r <:+ line)
    (hp : (cmd.words ++ wordsFrom line r).Perm (ws ++ wordsFrom line s)) :
    Tracks line ws s (.ok (cmd, r)) (.ok (cmd.text line, r)) := ⟨hr, rfl, hp⟩

theorem Tracks.bind {f : Cmd × List Byte → Parsed} {g : Shell.Cmd × List Byte → Shell.Parsed}
    (h : Tracks line ws s x y)
    (hf : ∀ cmd r, x = .ok (cmd, r) → r <:+ line →
      Tracks line cmd.words r (f (cmd, r)) (g (cmd.text line, r))) :
    Tracks line ws s (x >>= f) (y >>= g) := by
  cases x with
  | error e =>
    rw [show y = .error e from h]
    rfl
  | ok p =>
    obtain ⟨cmd, r⟩ := p
    obtain ⟨hr, rfl, hp⟩ := h
    have hrest := hf cmd r rfl hr
    show Tracks line ws s (f (cmd, r)) (g (cmd.text line, r))
    cases hfx : f (cmd, r) with
    | error e =>
      rw [hfx] at hrest
      exact hrest
    | ok p =>
      rw [hfx] at hrest
      exact ⟨hrest.1, hrest.2.1, hrest.2.2.trans hp⟩

theorem Tracks.of_perm (h : Tracks line ws' s' x y)
    (hp : (ws' ++ wordsFrom line s').Perm (ws ++ wordsFrom line s)) : Tracks line ws s x y := by
  cases x with
  | error e => exact h
  | ok p => exact ⟨h.1, h.2.1, h.2.2.trans hp⟩

theorem Tracks.of_eq (h : Tracks line ws s' x y) (hs : wordsFrom line s' = wordsFrom line s) :
    Tracks line ws s x y :=
  h.of_perm (by rw [hs])

def Cmd.IsExec : Cmd → Prop
  | .exec _ => True
  | .redir cmd _ _ _ => cmd.IsExec
  | _ => False

theorem Cmd.text_addArg (hw : w.text line = text) :
    (cmd.addArg w).text line = (cmd.text line).addArg text := by
  induction cmd with
  | exec argv => simp only [addArg, Cmd.text, Shell.Cmd.addArg, map_append, map_cons,
      map_nil, hw]
  | redir cmd file mode fd ih => simp only [addArg, Cmd.text, Shell.Cmd.addArg, ih]
  | pipe | list | back => rfl

theorem Cmd.IsExec.addArg (h : cmd.IsExec) : (cmd.addArg w).IsExec := by
  induction cmd with
  | exec argv => trivial
  | redir cmd file mode fd ih => exact ih h
  | pipe | list | back => exact h.elim

theorem Cmd.IsExec.words_addArg (h : cmd.IsExec) : (cmd.addArg w).words.Perm (w :: cmd.words) := by
  induction cmd with
  | exec argv => exact perm_append_singleton w argv
  | redir cmd file mode fd ih => exact (ih h).append_right [file]
  | pipe | list | back => exact h.elim

theorem text_redircmd (hw : w.text line = text) :
    (redircmd t cmd w).text line = Shell.redircmd t (cmd.text line) text := by
  cases t <;> simp only [redircmd, Shell.redircmd, Cmd.text, hw]

theorem words_redircmd (op : RedirOp) : (redircmd op.tok cmd w).words = cmd.words ++ [w] := by
  cases op <;> rfl

theorem isExec_redircmd (op : RedirOp) : (redircmd op.tok cmd w).IsExec ↔ cmd.IsExec := by
  cases op <;> exact Iff.rfl

theorem parseredirs_tracks (cmd : Cmd) (hs : s <:+ line) :
    Tracks line cmd.words s (parseredirs line n cmd s) (Shell.parseredirs n (cmd.text line) s) := by
  induction n generalizing cmd s with
  | zero => rfl
  | succ n ih =>
    rw [parseredirs, Shell.parseredirs]
    by_cases hp : (peek [60, 62] s).1 = true
    · rw [if_pos hp, if_pos hp]
      dsimp only
      obtain ⟨op, ts, hts⟩ := peek_redir.1 hp
      have hwords := wordsFrom_peeked line (by decide) hp
      have htok := (gettoken_peek hts [60, 62]).1
      have hsuffix : (gettoken (peek [60, 62] s).2).2 <:+ line :=
        (gettoken_suffix _).trans ((peek_suffix _ s).trans hs)
      generalize gettoken (peek [60, 62] s).2 = tok at htok hsuffix hwords
      cases hg : gettoken tok.2 with
      | mk t' r =>
        cases t' with
        | word file =>
          dsimp only
          have hr : r <:+ line := by
            have := gettoken_suffix tok.2
            rw [hg] at this
            exact this.trans hsuffix
          have htrack := ih (redircmd tok.1 cmd (wordAt line tok.2 file)) hr
          rw [text_redircmd (text_wordAt hsuffix hg)] at htrack
          refine htrack.of_perm ?_
          rw [htok, words_redircmd, ← hwords, wordsFrom_word hg, append_assoc]
          rfl
        | _ => rfl
    · rw [if_neg hp, if_neg hp]
      exact .ok ((peek_suffix _ s).trans hs) (by rw [wordsFrom_peek])

theorem parseredirs_isExec (h : parseredirs line n cmd s = .ok (c, r)) (hcmd : cmd.IsExec) :
    c.IsExec := by
  induction n generalizing cmd s with
  | zero => cases h
  | succ n ih =>
    rw [parseredirs] at h
    by_cases hp : (peek [60, 62] s).1 = true
    · rw [if_pos hp] at h
      dsimp only at h
      obtain ⟨op, ts, hts⟩ := peek_redir.1 hp
      rw [(gettoken_peek hts [60, 62]).1] at h
      split at h
      · exact ih h ((isExec_redircmd op).2 hcmd)
      · cases h
    · rw [if_neg hp] at h
      cases h
      exact hcmd

theorem parseargs_tracks {argc : Nat} (hs : s <:+ line) (hcmd : cmd.IsExec) :
    Tracks line cmd.words s (parseargs line n cmd argc s)
      (Shell.parseargs n (cmd.text line) argc s) := by
  induction n generalizing cmd argc s with
  | zero => rfl
  | succ n ih =>
    rw [parseargs, Shell.parseargs]
    by_cases hp : (peek [124, 41, 38, 59] s).1 = true
    · rw [if_pos hp, if_pos hp]
      exact .ok ((peek_suffix _ s).trans hs) (by rw [wordsFrom_peek])
    rw [if_neg hp, if_neg hp, peek, gettoken_skipSpace]
    have hr := (gettoken_suffix s).trans hs
    cases hg : gettoken s with
    | mk t r =>
      rw [hg] at hr
      cases t with
      | eof => exact .ok hr (by rw [wordsFrom_symbol hg (fun text ht => by cases ht)])
      | word q =>
        dsimp only
        by_cases hargc : maxArgs ≤ argc + 1
        · rw [if_pos hargc, if_pos hargc]
          rfl
        rw [if_neg hargc, if_neg hargc, ← Cmd.text_addArg (text_wordAt hs hg)]
        refine Tracks.of_perm ((parseredirs_tracks _ hr).bind fun c r' hc hr' => ?_) ?_
        · exact ih hr' (parseredirs_isExec hc hcmd.addArg)
        · rw [wordsFrom_word hg]
          exact (hcmd.words_addArg.append_right _).trans perm_middle.symm
      | _ => rfl

theorem parsebacks_tracks (cmd : Cmd) (hs : s <:+ line) :
    Tracks line cmd.words s (parsebacks n cmd s) (Shell.parsebacks n (cmd.text line) s) := by
  induction n generalizing cmd s with
  | zero => rfl
  | succ n ih =>
    rw [parsebacks, Shell.parsebacks]
    by_cases hp : (peek [38] s).1 = true
    · rw [if_pos hp, if_pos hp]
      have hr := (gettoken_suffix _).trans ((peek_suffix [38] s).trans hs)
      exact (ih (.back cmd) hr).of_eq (wordsFrom_peeked line (by decide) hp)
    · rw [if_neg hp, if_neg hp]
      exact .ok ((peek_suffix _ s).trans hs) (by rw [wordsFrom_peek])

theorem tracks_sep {sep : Byte} (hsep : sep ∈ symbols) {join : Cmd → Cmd → Cmd}
    {join' : Shell.Cmd → Shell.Cmd → Shell.Cmd} {parse : List Byte → Parsed}
    {parse' : List Byte → Shell.Parsed}
    (htext : ∀ a b, (join a b).text line = join' (a.text line) (b.text line))
    (hwords : ∀ a b, (join a b).words = a.words ++ b.words)
    (hparse : ∀ {s}, s <:+ line → Tracks line [] s (parse s) (parse' s)) (hs : s <:+ line) :
    Tracks line cmd.words s
      (if (peek [sep] s).1 then do
          let y ← parse (gettoken (peek [sep] s).2).2
          return (join cmd y.1, y.2)
        else return (cmd, (peek [sep] s).2))
      (if (peek [sep] s).1 then do
          let y ← parse' (gettoken (peek [sep] s).2).2
          return (join' (cmd.text line) y.1, y.2)
        else return (cmd.text line, (peek [sep] s).2)) := by
  by_cases hp : (peek [sep] s).1 = true
  · rw [if_pos hp, if_pos hp]
    have hr := (gettoken_suffix _).trans ((peek_suffix [sep] s).trans hs)
    have hpeeked := wordsFrom_peeked line (by simpa using hsep) hp
    have htrack := hparse hr
    cases hx : parse (gettoken (peek [sep] s).2).2 with
    | error e =>
      rw [hx] at htrack
      rw [show parse' (gettoken (peek [sep] s).2).2 = .error e from htrack]
      rfl
    | ok p =>
      obtain ⟨c, r⟩ := p
      rw [hx] at htrack
      obtain ⟨hr', heq, hperm⟩ := htrack
      rw [heq]
      refine ⟨hr', ?_, ?_⟩
      · rw [htext]
        rfl
      · rw [hwords, append_assoc, ← hpeeked]
        exact hperm.append_left _
  · rw [if_neg hp, if_neg hp]
    exact .ok ((peek_suffix _ s).trans hs) (by rw [wordsFrom_peek])

theorem parse_tracks (line : List Byte) (n : Nat) :
    (∀ {s}, s <:+ line → Tracks line [] s (parseline line n s) (Shell.parseline n s)) ∧
    (∀ {s}, s <:+ line → Tracks line [] s (parsepipe line n s) (Shell.parsepipe n s)) ∧
    (∀ {s}, s <:+ line → Tracks line [] s (parseblock line n s) (Shell.parseblock n s)) ∧
    (∀ {s}, s <:+ line → Tracks line [] s (parseexec line n s) (Shell.parseexec n s)) := by
  induction n with
  | zero => exact ⟨fun _ => rfl, fun _ => rfl, fun _ => rfl, fun _ => rfl⟩
  | succ n ih =>
    obtain ⟨hline, hpipe, hblock, hexec⟩ := ih
    refine ⟨fun {s} hs => ?_, fun {s} hs => ?_, fun {s} hs => ?_, fun {s} hs => ?_⟩
    · rw [parseline, Shell.parseline]
      refine (hpipe hs).bind fun cmd r _ hr => (parsebacks_tracks _ hr).bind fun cmd r _ hr => ?_
      exact tracks_sep (by decide) (fun _ _ => rfl) (fun _ _ => rfl) hline hr
    · rw [parsepipe, Shell.parsepipe]
      refine (hexec hs).bind fun cmd r _ hr => ?_
      exact tracks_sep (by decide) (fun _ _ => rfl) (fun _ _ => rfl) hpipe hr
    · rw [parseblock, Shell.parseblock]
      by_cases hp : (peek [40] s).1 = true
      · rw [if_pos hp, if_pos hp]
        have hr := (gettoken_suffix _).trans ((peek_suffix [40] s).trans hs)
        refine ((hline hr).bind fun cmd r _ hr => ?_).of_eq (wordsFrom_peeked line (by decide) hp)
        dsimp only
        by_cases hp : (peek [41] r).1 = true
        · rw [if_pos hp, if_pos hp]
          have hr' := (gettoken_suffix _).trans ((peek_suffix [41] r).trans hr)
          exact (parseredirs_tracks _ hr').of_eq (wordsFrom_peeked line (by decide) hp)
        · rw [if_neg hp, if_neg hp]
          rfl
      · rw [if_neg hp, if_neg hp]
        rfl
    · rw [parseexec, Shell.parseexec]
      have hr := (peek_suffix [40] s).trans hs
      by_cases hp : (peek [40] s).1 = true
      · rw [if_pos hp, if_pos hp]
        exact (hblock hr).of_eq (wordsFrom_peek _)
      · rw [if_neg hp, if_neg hp]
        refine Tracks.of_eq ((parseredirs_tracks (.exec []) hr).bind
          fun cmd r' hx hr' => ?_) (wordsFrom_peek [40])
        exact parseargs_tracks hr' (parseredirs_isExec hx trivial)

theorem parsecmd_tracks (line : List Byte) :
    Shell.parsecmd line = (parsecmd line).map (Cmd.text line) ∧
      ∀ cmd, parsecmd line = .ok cmd → cmd.words.Perm (wordsFrom line line) := by
  have htrack := (parse_tracks line (4 * line.length + 4)).1 (suffix_refl line)
  rw [parsecmd, Shell.parsecmd]
  cases hx : parseline line (4 * line.length + 4) line with
  | error e =>
    rw [hx] at htrack
    rw [show Shell.parseline _ line = .error e from htrack]
    exact ⟨rfl, fun cmd hcmd => by cases hcmd⟩
  | ok p =>
    obtain ⟨c, r⟩ := p
    rw [hx] at htrack
    obtain ⟨hr, heq, hperm⟩ := htrack
    rw [heq]
    simp only [bind, Except.bind, pure, Except.pure]
    by_cases hp : (peek [] r).2 = []
    · rw [if_pos hp, if_pos hp]
      refine ⟨rfl, fun cmd hcmd => ?_⟩
      cases hcmd
      rw [← wordsFrom_peek [], hp, show wordsFrom line [] = [] from rfl, append_nil,
        nil_append] at hperm
      exact hperm
    · rw [if_neg hp, if_neg hp]
      exact ⟨rfl, fun cmd hcmd => by cases hcmd⟩

end Xv6Signals.Shell.Ptr
