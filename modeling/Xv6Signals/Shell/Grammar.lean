import Mathlib.Logic.Function.Iterate
import Xv6Signals.Lib.Except
import Xv6Signals.Shell.Parser

namespace Xv6Signals.Shell
open Lib List Nat

inductive RedirOp
  | lt | gt | gtgt
  deriving DecidableEq, Repr

def RedirOp.tok : RedirOp → Tok
  | .lt => .lt
  | .gt => .gt
  | .gtgt => .gtgt

/-- `redir := ('<' | '>' | '>>') word`. -/
structure Redir where
  op : RedirOp
  file : List Byte
  deriving DecidableEq, Repr

def Redir.toks (x : Redir) : List Tok := [x.op.tok, .word x.file]

def redirToks (rs : List Redir) : List Tok := rs.flatMap Redir.toks

def wrap (rs : List Redir) (cmd : Cmd) : Cmd :=
  rs.foldl (fun cmd x => redircmd x.op.tok cmd x.file) cmd

structure Arg where
  text : List Byte
  redirs : List Redir
  deriving DecidableEq, Repr

def Arg.toks (x : Arg) : List Tok := .word x.text :: redirToks x.redirs

def argToks (args : List Arg) : List Tok := args.flatMap Arg.toks

mutual

/-- `line := pipe '&'* [';' line]`, with the tree of the derivation. -/
inductive LineOf : List Tok → Cmd → Prop
  | last {ts : List Tok} {c : Cmd} (k : Nat) : PipeOf ts c →
      LineOf (ts ++ List.replicate k .amp) (Cmd.back^[k] c)
  | seq {ts us : List Tok} {c d : Cmd} (k : Nat) : PipeOf ts c → LineOf us d →
      LineOf (ts ++ (List.replicate k .amp ++ .semi :: us)) (.list (Cmd.back^[k] c) d)

/-- `pipe := exec ['|' pipe]`. -/
inductive PipeOf : List Tok → Cmd → Prop
  | last {ts : List Tok} {c : Cmd} : ExecOf ts c → PipeOf ts c
  | bar {ts us : List Tok} {c d : Cmd} : ExecOf ts c → PipeOf us d →
      PipeOf (ts ++ .bar :: us) (.pipe c d)

/-- `exec := block | redir* (word redir*)*` with at most `MAXARGS - 1` words. -/
inductive ExecOf : List Tok → Cmd → Prop
  | block {ts : List Tok} {c : Cmd} : BlockOf ts c → ExecOf ts c
  | simple (rs : List Redir) (args : List Arg) : args.length ≤ maxArgs - 1 →
      ExecOf (redirToks rs ++ argToks args)
        (wrap (rs ++ args.flatMap Arg.redirs) (.exec (args.map Arg.text)))

/-- `block := '(' line ')' redir*`. -/
inductive BlockOf : List Tok → Cmd → Prop
  | mk {ts : List Tok} {c : Cmd} (rs : List Redir) : LineOf ts c →
      BlockOf (.lparen :: (ts ++ .rparen :: redirToks rs)) (wrap rs c)

end

variable {s r toks : List Byte} {t : Tok} {ts rest : List Tok} {cmd c : Cmd} {n argc : Nat}
  {ends : List Tok}

def Tok.starts (toks : List Byte) : Tok → Bool
  | .word _ => false
  | t => t.lead.any (toks.contains ·)

theorem peek_eq (htoks : ∀ c ∈ toks, c ∈ symbols) :
    (peek toks s).1 = (tokens s).head?.any (Tok.starts toks) := by
  cases h : tokens s with
  | nil => exact peek_nil h toks
  | cons t ts =>
    rw [peek_cons h]
    cases t with
    | word text =>
      obtain ⟨d, ds, rfl, hd⟩ := (tokens_head h).2 text rfl
      change toks.contains d = false
      rw [Bool.eq_false_iff, Ne, contains_iff_mem]
      exact fun hm => hd (htoks d hm)
    | _ => rfl

theorem peek_iff {x : Byte} (hx : x ∈ symbols) (hu : ∀ t', Tok.starts [x] t' = true ↔ t' = t) :
    (peek [x] s).1 = true ↔ ∃ ts, tokens s = t :: ts := by
  rw [peek_eq fun c hc => by rw [mem_singleton.1 hc]; exact hx]
  cases h : tokens s with
  | nil =>
    constructor
    · intro hf
      cases hf
    · rintro ⟨ts, hts⟩
      cases hts
  | cons t' ts =>
    refine (hu t').trans ⟨?_, ?_⟩
    · rintro rfl
      exact ⟨ts, rfl⟩
    · rintro ⟨ts', hts⟩
      cases hts
      rfl

theorem peek_amp : (peek [38] s).1 = true ↔ ∃ ts, tokens s = .amp :: ts :=
  peek_iff (by decide) fun t' => by cases t' <;> simp [Tok.starts, Tok.lead]

theorem peek_semi : (peek [59] s).1 = true ↔ ∃ ts, tokens s = .semi :: ts :=
  peek_iff (by decide) fun t' => by cases t' <;> simp [Tok.starts, Tok.lead]

theorem peek_bar : (peek [124] s).1 = true ↔ ∃ ts, tokens s = .bar :: ts :=
  peek_iff (by decide) fun t' => by cases t' <;> simp [Tok.starts, Tok.lead]

theorem peek_lparen : (peek [40] s).1 = true ↔ ∃ ts, tokens s = .lparen :: ts :=
  peek_iff (by decide) fun t' => by cases t' <;> simp [Tok.starts, Tok.lead]

theorem peek_rparen : (peek [41] s).1 = true ↔ ∃ ts, tokens s = .rparen :: ts :=
  peek_iff (by decide) fun t' => by cases t' <;> simp [Tok.starts, Tok.lead]

theorem peek_redir : (peek [60, 62] s).1 = true ↔ ∃ op ts, tokens s = RedirOp.tok op :: ts := by
  rw [peek_eq (by decide)]
  cases h : tokens s with
  | nil =>
    constructor
    · intro hf
      cases hf
    · rintro ⟨op, ts, hts⟩
      cases hts
  | cons t ts =>
    constructor
    · intro ht
      cases t with
      | lt => exact ⟨.lt, ts, rfl⟩
      | gt => exact ⟨.gt, ts, rfl⟩
      | gtgt => exact ⟨.gtgt, ts, rfl⟩
      | _ => cases ht
    · rintro ⟨op, ts', hts⟩
      cases hts
      cases op <;> rfl

theorem gettoken_peek (h : tokens s = t :: ts) (toks : List Byte) :
    (gettoken (peek toks s).2).1 = t ∧ tokens (gettoken (peek toks s).2).2 = ts :=
  tokens_cons (by rw [tokens_peek, h])

theorem parseredirs_sound (h : parseredirs n cmd s = .ok (c, r)) :
    ∃ rs, tokens s = redirToks rs ++ tokens r ∧ c = wrap rs cmd := by
  induction n generalizing cmd s with
  | zero => cases h
  | succ n ih =>
    rw [parseredirs] at h
    split at h
    · rename_i hp
      obtain ⟨op, ts, hts⟩ := peek_redir.1 hp
      obtain ⟨hop, hrest⟩ := gettoken_peek hts [60, 62]
      dsimp only at h
      split at h
      · rename_i file s' hfile
        obtain ⟨rs, hrs, hc⟩ := ih h
        refine ⟨⟨op, file⟩ :: rs, ?_, ?_⟩
        · have hne : tokens (gettoken (peek [60, 62] s).2).2 ≠ [] := by
            intro hnil
            rw [(tokens_nil hnil).2] at hfile
            cases hfile
          obtain ⟨t, ts', hts'⟩ := exists_cons_of_ne_nil hne
          obtain ⟨ht, hs'⟩ := tokens_cons hts'
          rw [hfile] at ht hs'
          rw [hts, ← hrest, hts', ← ht, ← hs', hrs]
          rfl
        · rw [hc, hop]
          rfl
      · cases h
    · cases h
      exact ⟨[], by rw [tokens_peek]; rfl, rfl⟩

theorem wrap_append (rs rs' : List Redir) (cmd : Cmd) :
    wrap (rs ++ rs') cmd = wrap rs' (wrap rs cmd) :=
  foldl_append

theorem addArg_redircmd (op : RedirOp) (cmd : Cmd) (file w : List Byte) :
    (redircmd op.tok cmd file).addArg w = redircmd op.tok (cmd.addArg w) file := by
  cases op <;> rfl

theorem addArg_wrap (rs : List Redir) (cmd : Cmd) (w : List Byte) :
    (wrap rs cmd).addArg w = wrap rs (cmd.addArg w) := by
  induction rs generalizing cmd with
  | nil => rfl
  | cons x rs ih =>
    change (wrap rs (redircmd x.op.tok cmd x.file)).addArg w =
      wrap rs (redircmd x.op.tok (cmd.addArg w) x.file)
    rw [ih, addArg_redircmd]

def addArgs (args : List Arg) (cmd : Cmd) : Cmd :=
  args.foldl (fun cmd x => wrap x.redirs (cmd.addArg x.text)) cmd

theorem addArgs_exec (rs : List Redir) (args : List Arg) (argv : List (List Byte)) :
    addArgs args (wrap rs (.exec argv)) =
      wrap (rs ++ args.flatMap Arg.redirs) (.exec (argv ++ args.map Arg.text)) := by
  induction args generalizing rs argv with
  | nil => rw [flatMap_nil, append_nil, map_nil, append_nil]; rfl
  | cons x args ih =>
    change addArgs args (wrap x.redirs ((wrap rs (.exec argv)).addArg x.text)) = _
    rw [addArg_wrap, ← wrap_append]
    change addArgs args (wrap (rs ++ x.redirs) (.exec (argv ++ [x.text]))) = _
    rw [ih, flatMap_cons, map_cons, append_assoc, append_assoc,
      singleton_append]

theorem parseargs_sound (h : parseargs n cmd argc s = .ok (c, r)) (hargc : argc ≤ maxArgs - 1) :
    ∃ args, tokens s = argToks args ++ tokens r ∧ c = addArgs args cmd ∧
      argc + args.length ≤ maxArgs - 1 := by
  induction n generalizing cmd argc s with
  | zero => cases h
  | succ n ih =>
    rw [parseargs] at h
    split at h
    · cases h
      exact ⟨[], by rw [tokens_peek]; rfl, rfl, hargc⟩
    split at h
    · rename_i s' hg
      cases h
      refine ⟨[], ?_, rfl, hargc⟩
      cases hts : tokens s with
      | nil =>
        rw [(tokens_nil (by rw [tokens_peek, hts])).2] at hg
        cases hg
        rfl
      | cons t ts =>
        have ht := (gettoken_peek hts [124, 41, 38, 59]).1
        rw [hg] at ht
        exact ((tokens_head hts).1 ht.symm).elim
    · rename_i q s' hg
      split at h
      · cases h
      rename_i hmax
      obtain ⟨⟨c', r'⟩, hredirs, h⟩ := bind_eq_ok h
      obtain ⟨rs, hrs, hc'⟩ := parseredirs_sound hredirs
      obtain ⟨args, hargs, hc, hlen⟩ := ih h (by omega)
      refine ⟨⟨q, rs⟩ :: args, ?_, ?_, ?_⟩
      · cases hts : tokens s with
        | nil =>
          rw [(tokens_nil (by rw [tokens_peek, hts])).2] at hg
          cases hg
        | cons t ts =>
          obtain ⟨ht, hs'⟩ := gettoken_peek hts [124, 41, 38, 59]
          rw [hg] at ht hs'
          dsimp only at ht hs'
          rw [← ht, ← hs', hrs, hargs, ← append_assoc]
          rfl
      · rw [hc]
        dsimp only
        rw [hc']
        rfl
      · rw [length_cons]
        omega
    · cases h

theorem parsebacks_sound (h : parsebacks n cmd s = .ok (c, r)) :
    ∃ k, tokens s = List.replicate k .amp ++ tokens r ∧ c = Cmd.back^[k] cmd := by
  induction n generalizing cmd s with
  | zero => cases h
  | succ n ih =>
    rw [parsebacks] at h
    split at h
    · rename_i hp
      obtain ⟨ts, hts⟩ := peek_amp.1 hp
      obtain ⟨k, hk, hc⟩ := ih h
      rw [(gettoken_peek hts [38]).2] at hk
      exact ⟨k + 1, by rw [hts, hk]; rfl, hc⟩
    · cases h
      exact ⟨0, by rw [tokens_peek]; rfl, rfl⟩

/-- What the parser accepts up to where it leaves the cursor is derivable, with the tree that it
returns. -/
def Sound (parse : List Byte → Parsed) (D : List Tok → Cmd → Prop) : Prop :=
  ∀ s c r, parse s = .ok (c, r) → ∃ ts, tokens s = ts ++ tokens r ∧ D ts c

theorem parse_sound (n : Nat) : Sound (parseline n) LineOf ∧ Sound (parsepipe n) PipeOf ∧
    Sound (parseexec n) ExecOf ∧ Sound (parseblock n) BlockOf := by
  induction n with
  | zero =>
    refine ⟨?_, ?_, ?_, ?_⟩
    · intro s c r h
      rw [parseline] at h
      cases h
    · intro s c r h
      rw [parsepipe] at h
      cases h
    · intro s c r h
      rw [parseexec] at h
      cases h
    · intro s c r h
      rw [parseblock] at h
      cases h
  | succ n ih =>
    obtain ⟨hline, hpipe, hexec, hblock⟩ := ih
    refine ⟨?_, ?_, ?_, ?_⟩
    · intro s c r h
      rw [parseline] at h
      obtain ⟨⟨c₁, r₁⟩, h₁, h⟩ := bind_eq_ok h
      obtain ⟨⟨c₂, r₂⟩, h₂, h⟩ := bind_eq_ok h
      obtain ⟨ts, hts, hd⟩ := hpipe s c₁ r₁ h₁
      obtain ⟨k, hk, rfl⟩ := parsebacks_sound h₂
      dsimp only at hk h
      split at h
      · rename_i hp
        obtain ⟨us, hus⟩ := peek_semi.1 hp
        obtain ⟨⟨d, r₃⟩, h₃, h⟩ := bind_eq_ok h
        obtain ⟨vs, hvs, hd'⟩ := hline _ d r₃ h₃
        cases h
        rw [(gettoken_peek hus [59]).2] at hvs
        refine ⟨ts ++ (List.replicate k .amp ++ .semi :: vs), ?_, .seq k hd hd'⟩
        rw [hts, hk, hus, hvs]
        simp only [append_assoc, cons_append]
      · cases h
        refine ⟨ts ++ List.replicate k .amp, ?_, .last k hd⟩
        rw [hts, hk, tokens_peek, append_assoc]
    · intro s c r h
      rw [parsepipe] at h
      obtain ⟨⟨c₁, r₁⟩, h₁, h⟩ := bind_eq_ok h
      obtain ⟨ts, hts, hd⟩ := hexec s c₁ r₁ h₁
      dsimp only at h
      split at h
      · rename_i hp
        obtain ⟨us, hus⟩ := peek_bar.1 hp
        obtain ⟨⟨d, r₂⟩, h₂, h⟩ := bind_eq_ok h
        obtain ⟨vs, hvs, hd'⟩ := hpipe _ d r₂ h₂
        cases h
        rw [(gettoken_peek hus [124]).2] at hvs
        refine ⟨ts ++ .bar :: vs, ?_, .bar hd hd'⟩
        rw [hts, hus, hvs, append_assoc, cons_append]
      · cases h
        refine ⟨ts, ?_, .last hd⟩
        rw [hts, tokens_peek]
    · intro s c r h
      rw [parseexec] at h
      split at h
      · obtain ⟨ts, hts, hd⟩ := hblock _ c r h
        rw [tokens_peek] at hts
        exact ⟨ts, hts, .block hd⟩
      obtain ⟨⟨c₁, r₁⟩, h₁, h⟩ := bind_eq_ok h
      obtain ⟨rs, hrs, rfl⟩ := parseredirs_sound h₁
      obtain ⟨args, hargs, rfl, hlen⟩ := parseargs_sound h (Nat.zero_le _)
      dsimp only at hargs
      rw [tokens_peek] at hrs
      rw [addArgs_exec, nil_append]
      refine ⟨redirToks rs ++ argToks args, ?_, .simple rs args (by omega)⟩
      rw [hrs, hargs, append_assoc]
    · intro s c r h
      rw [parseblock] at h
      split at h
      · rename_i hp
        obtain ⟨us, hus⟩ := peek_lparen.1 hp
        obtain ⟨⟨c₁, r₁⟩, h₁, h⟩ := bind_eq_ok h
        obtain ⟨ts, hts, hd⟩ := hline _ c₁ r₁ h₁
        dsimp only at h
        split at h
        · rename_i hq
          obtain ⟨vs, hvs⟩ := peek_rparen.1 hq
          obtain ⟨rs, hrs, rfl⟩ := parseredirs_sound h
          rw [(gettoken_peek hvs [41]).2] at hrs
          rw [(gettoken_peek hus [40]).2] at hts
          refine ⟨.lparen :: (ts ++ .rparen :: redirToks rs), ?_, .mk rs hd⟩
          rw [hus, hts, hvs, hrs]
          simp only [append_assoc, cons_append]
        · cases h
      · cases h

theorem Sound.length_le {parse : List Byte → Parsed} {D : List Tok → Cmd → Prop}
    (h : Sound parse D) (hp : parse s = .ok (c, r)) :
    (tokens r).length ≤ (tokens s).length := by
  obtain ⟨ts, hts, -⟩ := h s c r hp
  rw [hts, length_append]
  exact Nat.le_add_left _ _

theorem gettoken_peek_length (h : tokens s = t :: ts) (toks : List Byte) :
    (tokens (gettoken (peek toks s).2).2).length + 1 = (tokens s).length := by
  rw [(gettoken_peek h toks).2, h, length_cons]

theorem parseredirs_fuel (hn : (tokens s).length < n) : parseredirs n cmd s ≠ .error .fuel := by
  induction n generalizing cmd s with
  | zero => omega
  | succ n ih =>
    intro h
    rw [parseredirs] at h
    split at h
    · rename_i hp
      obtain ⟨op, ts, hts⟩ := peek_redir.1 hp
      have hlen := gettoken_peek_length hts [60, 62]
      dsimp only at h
      split at h
      · rename_i file s' hfile
        refine ih ?_ h
        cases hts' : tokens (gettoken (peek [60, 62] s).2).2 with
        | nil =>
          rw [(tokens_nil hts').2] at hfile
          cases hfile
        | cons t ts' =>
          have hs' := (tokens_cons hts').2
          rw [hfile] at hs'
          rw [hts', length_cons] at hlen
          dsimp only at hs'
          rw [hs']
          omega
      · cases h
    · cases h

theorem parseargs_fuel (hn : (tokens s).length < n) : parseargs n cmd argc s ≠ .error .fuel := by
  induction n generalizing cmd argc s with
  | zero => omega
  | succ n ih =>
    intro h
    rw [parseargs] at h
    split at h
    · cases h
    split at h
    · cases h
    · rename_i q s' hg
      split at h
      · cases h
      have hs' : (tokens s').length < n := by
        cases hts : tokens s with
        | nil =>
          rw [(tokens_nil (by rw [tokens_peek, hts])).2] at hg
          cases hg
        | cons t ts =>
          have hlen := gettoken_peek_length hts [124, 41, 38, 59]
          rw [hg] at hlen
          dsimp only at hlen
          omega
      rcases bind_eq_error h with h | ⟨⟨c', r'⟩, hredirs, h⟩
      · exact parseredirs_fuel hs' h
      obtain ⟨rs, hrs, -⟩ := parseredirs_sound hredirs
      refine ih ?_ h
      rw [hrs, length_append] at hs'
      dsimp only
      omega
    · cases h

theorem parsebacks_fuel (hn : (tokens s).length < n) : parsebacks n cmd s ≠ .error .fuel := by
  induction n generalizing cmd s with
  | zero => omega
  | succ n ih =>
    intro h
    rw [parsebacks] at h
    split at h
    · rename_i hp
      obtain ⟨ts, hts⟩ := peek_amp.1 hp
      have hlen := gettoken_peek_length hts [38]
      exact ih (by omega) h
    · cases h

/-- The recursion is bounded by the tokens that are left: `k` levels are entered before the next
one is taken. -/
def Bounded (parse : List Byte → Parsed) (n k : Nat) : Prop :=
  ∀ s, 4 * (tokens s).length + k ≤ n → parse s ≠ .error .fuel

theorem parse_bounded (n : Nat) : Bounded (parseline n) n 4 ∧ Bounded (parsepipe n) n 3 ∧
    Bounded (parseexec n) n 2 ∧ Bounded (parseblock n) n 1 := by
  induction n with
  | zero =>
    refine ⟨?_, ?_, ?_, ?_⟩
    all_goals
      intro s hs
      omega
  | succ n ih =>
    obtain ⟨hline, hpipe, hexec, hblock⟩ := ih
    obtain ⟨sline, spipe, sexec, sblock⟩ := parse_sound n
    refine ⟨?_, ?_, ?_, ?_⟩
    · intro s hs h
      rw [parseline] at h
      rcases bind_eq_error h with h | ⟨⟨c₁, r₁⟩, h₁, h⟩
      · exact hpipe s (by omega) h
      have hr₁ := spipe.length_le h₁
      rcases bind_eq_error h with h | ⟨⟨c₂, r₂⟩, h₂, h⟩
      · exact parsebacks_fuel (by dsimp only; omega) h
      obtain ⟨k, hk, -⟩ := parsebacks_sound h₂
      dsimp only at hk h
      have hr₂ : (tokens r₂).length ≤ (tokens r₁).length := by
        rw [hk, length_append]
        exact Nat.le_add_left _ _
      split at h
      · rename_i hp
        obtain ⟨us, hus⟩ := peek_semi.1 hp
        have hlen := gettoken_peek_length hus [59]
        rcases bind_eq_error h with h | ⟨_, _, h⟩
        · exact hline _ (by omega) h
        · cases h
      · cases h
    · intro s hs h
      rw [parsepipe] at h
      rcases bind_eq_error h with h | ⟨⟨c₁, r₁⟩, h₁, h⟩
      · exact hexec s (by omega) h
      have hr₁ := sexec.length_le h₁
      dsimp only at h
      split at h
      · rename_i hp
        obtain ⟨us, hus⟩ := peek_bar.1 hp
        have hlen := gettoken_peek_length hus [124]
        rcases bind_eq_error h with h | ⟨_, _, h⟩
        · exact hpipe _ (by omega) h
        · cases h
      · cases h
    · intro s hs h
      rw [parseexec] at h
      split at h
      · exact hblock _ (by rw [tokens_peek]; omega) h
      rcases bind_eq_error h with h | ⟨⟨c₁, r₁⟩, h₁, h⟩
      · exact parseredirs_fuel (by rw [tokens_peek]; omega) h
      obtain ⟨rs, hrs, -⟩ := parseredirs_sound h₁
      rw [tokens_peek] at hrs
      refine parseargs_fuel ?_ h
      rw [hrs, length_append] at hs
      dsimp only
      omega
    · intro s hs h
      rw [parseblock] at h
      split at h
      · rename_i hp
        obtain ⟨us, hus⟩ := peek_lparen.1 hp
        have hlen := gettoken_peek_length hus [40]
        rcases bind_eq_error h with h | ⟨⟨c₁, r₁⟩, h₁, h⟩
        · exact hline _ (by omega) h
        have hr₁ := sline.length_le h₁
        dsimp only at h
        split at h
        · rename_i hq
          obtain ⟨vs, hvs⟩ := peek_rparen.1 hq
          have hlen' := gettoken_peek_length hvs [41]
          exact parseredirs_fuel (by omega) h
        · cases h
      · cases h

def Follow (ends rest : List Tok) : Prop := ∀ t, rest.head? = some t → t ∈ ends

def lineEnds : List Tok := [.rparen]
def pipeEnds : List Tok := .amp :: .semi :: lineEnds
def execEnds : List Tok := .bar :: pipeEnds

theorem Follow.ne (h : Follow ends rest) (ht : t ∉ ends) : ¬ ∃ ts, rest = t :: ts := by
  rintro ⟨ts, rfl⟩
  exact ht (h t rfl)

theorem Follow.mono {ends' : List Tok} (h : Follow ends rest) (he : ∀ t ∈ ends, t ∈ ends') :
    Follow ends' rest := fun t ht => he t (h t ht)

theorem Follow.cons {ends : List Tok} (ht : t ∈ ends) : Follow ends (t :: rest) := by
  intro t' ht'
  cases ht'
  exact ht

theorem Follow.replicate {ends : List Tok} (k : Nat) (ht : t ∈ ends) (h : Follow ends rest) :
    Follow ends (List.replicate k t ++ rest) := by
  cases k with
  | zero => exact h
  | succ k => exact .cons ht

theorem redirToks_length (rs : List Redir) : (redirToks rs).length = 2 * rs.length := by
  induction rs with
  | nil => rfl
  | cons x rs ih =>
    change (x.toks ++ redirToks rs).length = _
    rw [length_append, ih, length_cons]
    change 2 + _ = _
    omega

theorem parseredirs_complete (cmd : Cmd) {rs : List Redir} (h : tokens s = redirToks rs ++ rest)
    (hrest : ¬ ∃ op ts, rest = RedirOp.tok op :: ts) (hn : rs.length < n) :
    ∃ r, parseredirs n cmd s = .ok (wrap rs cmd, r) ∧ tokens r = rest := by
  induction rs generalizing cmd s n with
  | nil =>
    obtain ⟨n, rfl⟩ := exists_eq_add_one_of_ne_zero (Nat.ne_of_gt hn)
    have hp : (peek [60, 62] s).1 ≠ true := by
      rw [Ne, peek_redir, h]
      exact hrest
    rw [parseredirs, if_neg hp]
    exact ⟨_, rfl, by rw [tokens_peek, h]; rfl⟩
  | cons x rs ih =>
    obtain ⟨n, rfl⟩ := exists_eq_add_one_of_ne_zero (Nat.ne_of_gt (zero_lt_of_lt hn))
    have hx : tokens s = x.op.tok :: (.word x.file :: (redirToks rs ++ rest)) := h
    have hp : (peek [60, 62] s).1 = true := peek_redir.2 ⟨x.op, _, hx⟩
    obtain ⟨hop, hfile⟩ := gettoken_peek hx [60, 62]
    obtain ⟨htok, hs'⟩ := tokens_cons hfile
    obtain ⟨r, hr, hrest⟩ := ih (redircmd x.op.tok cmd x.file) hs' (lt_of_succ_lt_succ hn)
    refine ⟨r, ?_, hrest⟩
    have hg : gettoken (gettoken (peek [60, 62] s).2).2 =
        (.word x.file, (gettoken (gettoken (peek [60, 62] s).2).2).2) := Prod.ext htok rfl
    rw [parseredirs, if_pos hp]
    dsimp only
    rw [hg]
    dsimp only
    rw [hop, hr]
    rfl

theorem argToks_follow (args : List Arg) (hrest : Follow execEnds rest) :
    ¬ ∃ op ts, argToks args ++ rest = RedirOp.tok op :: ts := by
  rintro ⟨op, ts, h⟩
  cases args with
  | nil =>
    refine hrest.ne ?_ ⟨ts, h⟩
    cases op <;> decide
  | cons x args =>
    cases op <;> cases h

theorem parseargs_complete (cmd : Cmd) (argc : Nat) {args : List Arg}
    (h : tokens s = argToks args ++ rest)
    (hrest : Follow execEnds rest) (hargs : argc + args.length ≤ maxArgs - 1)
    (hn : (argToks args).length < n) :
    ∃ r, parseargs n cmd argc s = .ok (addArgs args cmd, r) ∧ tokens r = rest := by
  induction args generalizing cmd argc s n with
  | nil =>
    obtain ⟨n, rfl⟩ := exists_eq_add_one_of_ne_zero (Nat.ne_of_gt hn)
    rw [parseargs]
    have h : tokens s = rest := h
    cases rest with
    | nil =>
      rw [if_neg (by rw [peek_nil h]; exact Bool.false_ne_true),
        (tokens_nil (by rw [tokens_peek, h])).2]
      exact ⟨[], rfl, rfl⟩
    | cons t ts =>
      have hp : (peek [124, 41, 38, 59] s).1 = true := by
        rw [peek_eq (by decide), h]
        have ht := hrest t rfl
        simp only [execEnds, pipeEnds, lineEnds, mem_cons, not_mem_nil, or_false] at ht
        rcases ht with rfl | rfl | rfl | rfl <;> rfl
      rw [if_pos hp]
      exact ⟨_, rfl, by rw [tokens_peek, h]⟩
  | cons x args ih =>
    obtain ⟨n, rfl⟩ := exists_eq_add_one_of_ne_zero (Nat.ne_of_gt (zero_lt_of_lt hn))
    have hx : tokens s = .word x.text :: (redirToks x.redirs ++ (argToks args ++ rest)) := by
      rw [h, ← append_assoc]
      rfl
    have hlen : (argToks (x :: args)).length =
        1 + (redirToks x.redirs).length + (argToks args).length := by
      change ((.word x.text :: redirToks x.redirs) ++ argToks args).length = _
      rw [length_append, length_cons]
      omega
    have hp : (peek [124, 41, 38, 59] s).1 ≠ true := by
      rw [peek_eq (by decide), hx]
      exact Bool.false_ne_true
    obtain ⟨htok, hs'⟩ := gettoken_peek hx [124, 41, 38, 59]
    have hredirs := redirToks_length x.redirs
    rw [length_cons] at hargs
    obtain ⟨r₁, hr₁, hrest₁⟩ := parseredirs_complete (n := n) (cmd.addArg x.text) hs'
      (argToks_follow args hrest) (by omega)
    obtain ⟨r₂, hr₂, hrest₂⟩ := ih (n := n) (wrap x.redirs (cmd.addArg x.text)) (argc + 1)
      hrest₁ (by omega) (by omega)
    refine ⟨r₂, ?_, hrest₂⟩
    have hg : gettoken (peek [124, 41, 38, 59] s).2 =
        (.word x.text, (gettoken (peek [124, 41, 38, 59] s).2).2) := Prod.ext htok rfl
    rw [parseargs, if_neg hp, hg]
    dsimp only
    rw [if_neg (by omega), hr₁]
    exact hr₂

theorem parsebacks_complete (cmd : Cmd) {k : Nat} (h : tokens s = List.replicate k .amp ++ rest)
    (hrest : ¬ ∃ ts, rest = .amp :: ts) (hn : k < n) :
    ∃ r, parsebacks n cmd s = .ok (Cmd.back^[k] cmd, r) ∧ tokens r = rest := by
  induction k generalizing cmd s n with
  | zero =>
    obtain ⟨n, rfl⟩ := exists_eq_add_one_of_ne_zero (Nat.ne_of_gt hn)
    have hp : (peek [38] s).1 ≠ true := by
      rw [Ne, peek_amp, h]
      exact hrest
    rw [parsebacks, if_neg hp]
    exact ⟨_, rfl, by rw [tokens_peek, h]; rfl⟩
  | succ k ih =>
    obtain ⟨n, rfl⟩ := exists_eq_add_one_of_ne_zero (Nat.ne_of_gt (zero_lt_of_lt hn))
    have hx : tokens s = .amp :: (List.replicate k .amp ++ rest) := h
    rw [parsebacks, if_pos (peek_amp.2 ⟨_, hx⟩)]
    exact ih _ (gettoken_peek hx [38]).2 (lt_of_succ_lt_succ hn)

/-- The parser accepts these tokens with this tree, whatever follows them as long as it begins with
one of `ends`. -/
def Complete (parse : Nat → List Byte → Parsed) (ends : List Tok) (k : Nat) (ts : List Tok)
    (c : Cmd) : Prop :=
  ∀ s rest n, tokens s = ts ++ rest → Follow ends rest → 4 * ts.length + k ≤ n →
    ∃ r, parse n s = .ok (c, r) ∧ tokens r = rest

theorem line_last_complete (k : Nat) (h : Complete parsepipe pipeEnds 3 ts c) :
    Complete parseline lineEnds 4 (ts ++ List.replicate k .amp) (Cmd.back^[k] c) := by
  intro s rest n hs hrest hn
  rw [length_append, length_replicate] at hn
  obtain ⟨n, rfl⟩ := exists_eq_add_one_of_ne_zero (show n ≠ 0 by omega)
  rw [append_assoc] at hs
  obtain ⟨r₁, hr₁, hrest₁⟩ := h s _ n hs
    (.replicate k (by decide) (hrest.mono (by decide))) (by omega)
  obtain ⟨r₂, hr₂, hrest₂⟩ := parsebacks_complete (n := n) c hrest₁
    (hrest.ne (by decide)) (by omega)
  have hp : (peek [59] r₂).1 ≠ true := by
    rw [Ne, peek_semi, hrest₂]
    exact hrest.ne (by decide)
  refine ⟨(peek [59] r₂).2, ?_, by rw [tokens_peek, hrest₂]⟩
  rw [parseline, hr₁]
  change (parsebacks n c r₁ >>= _) = _
  rw [hr₂]
  change (if (peek [59] r₂).1 = true then _ else _) = _
  rw [if_neg hp]
  rfl

theorem line_seq_complete {us : List Tok} {d : Cmd} (k : Nat)
    (h : Complete parsepipe pipeEnds 3 ts c) (h' : Complete parseline lineEnds 4 us d) :
    Complete parseline lineEnds 4 (ts ++ (List.replicate k .amp ++ .semi :: us))
      (.list (Cmd.back^[k] c) d) := by
  intro s rest n hs hrest hn
  rw [length_append, length_append, length_replicate, length_cons] at hn
  obtain ⟨n, rfl⟩ := exists_eq_add_one_of_ne_zero (show n ≠ 0 by omega)
  rw [append_assoc, append_assoc, cons_append] at hs
  obtain ⟨r₁, hr₁, hrest₁⟩ := h s _ n hs (.replicate k (by decide) (.cons (by decide))) (by omega)
  obtain ⟨r₂, hr₂, hrest₂⟩ := parsebacks_complete (n := n) c hrest₁
    (by rintro ⟨ts, hts⟩; cases hts) (by omega)
  obtain ⟨r₃, hr₃, hrest₃⟩ := h' _ rest n (gettoken_peek hrest₂ [59]).2 hrest (by omega)
  refine ⟨r₃, ?_, hrest₃⟩
  rw [parseline, hr₁]
  change (parsebacks n c r₁ >>= _) = _
  rw [hr₂]
  change (if (peek [59] r₂).1 = true then _ else _) = _
  rw [if_pos (peek_semi.2 ⟨_, hrest₂⟩), hr₃]
  rfl

theorem pipe_last_complete (h : Complete parseexec execEnds 2 ts c) :
    Complete parsepipe pipeEnds 3 ts c := by
  intro s rest n hs hrest hn
  obtain ⟨n, rfl⟩ := exists_eq_add_one_of_ne_zero (show n ≠ 0 by omega)
  obtain ⟨r, hr, hrest'⟩ := h s rest n hs (hrest.mono (by decide)) (by omega)
  have hp : (peek [124] r).1 ≠ true := by
    rw [Ne, peek_bar, hrest']
    exact hrest.ne (by decide)
  refine ⟨(peek [124] r).2, ?_, by rw [tokens_peek, hrest']⟩
  rw [parsepipe, hr]
  change (if (peek [124] r).1 = true then _ else _) = _
  rw [if_neg hp]
  rfl

theorem pipe_bar_complete {us : List Tok} {d : Cmd} (h : Complete parseexec execEnds 2 ts c)
    (h' : Complete parsepipe pipeEnds 3 us d) :
    Complete parsepipe pipeEnds 3 (ts ++ .bar :: us) (.pipe c d) := by
  intro s rest n hs hrest hn
  rw [length_append, length_cons] at hn
  obtain ⟨n, rfl⟩ := exists_eq_add_one_of_ne_zero (show n ≠ 0 by omega)
  rw [append_assoc, cons_append] at hs
  obtain ⟨r₁, hr₁, hrest₁⟩ := h s _ n hs (.cons (by decide)) (by omega)
  obtain ⟨r₂, hr₂, hrest₂⟩ := h' _ rest n (gettoken_peek hrest₁ [124]).2 hrest (by omega)
  refine ⟨r₂, ?_, hrest₂⟩
  rw [parsepipe, hr₁]
  change (if (peek [124] r₁).1 = true then _ else _) = _
  rw [if_pos (peek_bar.2 ⟨_, hrest₁⟩), hr₂]
  rfl

theorem exec_simple_complete (rs : List Redir) (args : List Arg)
    (hlen : args.length ≤ maxArgs - 1) :
    Complete parseexec execEnds 2 (redirToks rs ++ argToks args)
      (wrap (rs ++ args.flatMap Arg.redirs) (.exec (args.map Arg.text))) := by
  intro s rest n hs hrest hn
  rw [length_append, redirToks_length] at hn
  obtain ⟨n, rfl⟩ := exists_eq_add_one_of_ne_zero (show n ≠ 0 by omega)
  rw [append_assoc] at hs
  have hp : (peek [40] s).1 ≠ true := by
    rw [Ne, peek_lparen, hs]
    rintro ⟨ts, hts⟩
    cases rs with
    | nil =>
      cases args with
      | nil => exact hrest.ne (by decide) ⟨ts, hts⟩
      | cons x args => cases hts
    | cons x rs =>
      obtain ⟨op, file⟩ := x
      cases op <;> cases hts
  obtain ⟨r₁, hr₁, hrest₁⟩ := parseredirs_complete (n := n)
    (s := (peek [40] s).2) (.exec []) (by rw [tokens_peek, hs]) (argToks_follow args hrest) (by omega)
  obtain ⟨r₂, hr₂, hrest₂⟩ := parseargs_complete (n := n) (wrap rs (.exec [])) 0
    hrest₁ hrest (by omega) (by omega)
  rw [addArgs_exec, nil_append] at hr₂
  refine ⟨r₂, ?_, hrest₂⟩
  rw [parseexec, if_neg hp, hr₁]
  exact hr₂

theorem exec_block_complete (h : Complete parseblock execEnds 1 ts c)
    (hts : ∃ us, ts = .lparen :: us) : Complete parseexec execEnds 2 ts c := by
  intro s rest n hs hrest hn
  obtain ⟨n, rfl⟩ := exists_eq_add_one_of_ne_zero (show n ≠ 0 by omega)
  obtain ⟨us, rfl⟩ := hts
  rw [parseexec, if_pos (peek_lparen.2 ⟨_, hs⟩)]
  exact h _ rest n (by rw [tokens_peek, hs]) hrest (by omega)

theorem block_complete (rs : List Redir) (h : Complete parseline lineEnds 4 ts c) :
    Complete parseblock execEnds 1 (.lparen :: (ts ++ .rparen :: redirToks rs)) (wrap rs c) := by
  intro s rest n hs hrest hn
  rw [length_cons, length_append, length_cons, redirToks_length] at hn
  obtain ⟨n, rfl⟩ := exists_eq_add_one_of_ne_zero (show n ≠ 0 by omega)
  rw [cons_append, append_assoc, cons_append] at hs
  obtain ⟨r₁, hr₁, hrest₁⟩ := h _ _ n (gettoken_peek hs [40]).2 (.cons (by decide)) (by omega)
  obtain ⟨r₂, hr₂, hrest₂⟩ := parseredirs_complete (n := n) c
    (gettoken_peek hrest₁ [41]).2 (argToks_follow [] hrest) (by omega)
  refine ⟨r₂, ?_, hrest₂⟩
  rw [parseblock, if_pos (peek_lparen.2 ⟨_, hs⟩), hr₁]
  change (if (peek [41] r₁).1 = true then _ else _) = _
  rw [if_pos (peek_rparen.2 ⟨_, hrest₁⟩), hr₂]

theorem line_complete (h : LineOf ts c) : Complete parseline lineEnds 4 ts c :=
  @LineOf.rec (fun ts c _ => Complete parseline lineEnds 4 ts c)
    (fun ts c _ => Complete parsepipe pipeEnds 3 ts c)
    (fun ts c _ => Complete parseexec execEnds 2 ts c)
    (fun ts c _ => Complete parseblock execEnds 1 ts c ∧ ∃ us, ts = .lparen :: us)
    (fun k _ h => line_last_complete k h) (fun k _ _ h h' => line_seq_complete k h h')
    (fun _ h => pipe_last_complete h) (fun _ _ h h' => pipe_bar_complete h h')
    (fun _ h => exec_block_complete h.1 h.2)
    (fun rs args hlen => exec_simple_complete rs args hlen)
    (fun rs _ h => ⟨block_complete rs h, _, rfl⟩) ts c h

/-- `parsecmd` returns a tree exactly for the lines whose tokens are derivable, the tree of the
derivation, and otherwise ends in a panic. -/
theorem parsecmd_iff (s : List Byte) :
    (∀ c, parsecmd s = .ok c ↔ LineOf (tokens s) c) ∧
      ∀ e, parsecmd s = .error e → ∃ msg, e = .panic msg := by
  have hfuel : 4 * (tokens s).length + 4 ≤ 4 * s.length + 4 := by
    have := tokens_length_le s
    omega
  constructor
  · intro c
    constructor
    · intro h
      obtain ⟨⟨c', r⟩, hline, h⟩ := bind_eq_ok h
      dsimp only at h
      split at h
      · rename_i hr
        cases h
        obtain ⟨ts, hts, hd⟩ := (parse_sound _).1 s c r hline
        have hnil : tokens r = [] := by
          rw [← tokens_peek [] r, hr]
          rfl
        rw [hts, hnil, append_nil]
        exact hd
      · cases h
    · intro h
      obtain ⟨r, hr, hnil⟩ := line_complete h s [] _ (append_nil _).symm
        (fun t ht => by cases ht) hfuel
      rw [parsecmd, hr]
      change (if skipSpace r = [] then _ else _) = _
      rw [if_pos (tokens_nil hnil).1]
      rfl
  · intro e h
    rcases bind_eq_error h with h | ⟨⟨c, r⟩, -, h⟩
    · cases e with
      | panic msg => exact ⟨msg, rfl⟩
      | fuel => exact ((parse_bounded _).1 s hfuel h).elim
    dsimp only at h
    split at h
    · cases h
    · cases h
      exact ⟨_, rfl⟩

/-- The line `a >f b& ;(c|d)`. -/
example : parsecmd [97, 32, 62, 102, 32, 98, 38, 32, 59, 40, 99, 124, 100, 41] =
    .ok (.list (.back (.redir (.exec [[97], [98]]) [102] 0x201 1))
      (.pipe (.exec [[99]]) (.exec [[100]]))) := by
  decide +kernel

end Xv6Signals.Shell
