import Xv6Signals.Shell.Lexer

namespace Xv6Signals.Shell
open Lib

inductive Cmd
  | exec (argv : List (List Byte))
  | redir (cmd : Cmd) (file : List Byte) (mode fd : Nat)
  | pipe (left right : Cmd)
  | list (left right : Cmd)
  | back (cmd : Cmd)
  deriving DecidableEq, Repr

/-- A call of `panic`, or recursion that is deeper than the model's bound. -/
inductive ParseError
  | panic (msg : String)
  | fuel
  deriving DecidableEq, Repr

def maxArgs : Nat := 10
def oRdonly : Nat := 0
def oWronly : Nat := 1
def oCreate : Nat := 0x200

/-- `cmd->argv[argc] = q`: the `execcmd` lies below the redirections parsed so far. -/
def Cmd.addArg (w : List Byte) : Cmd → Cmd
  | .exec argv => .exec (argv ++ [w])
  | .redir cmd file mode fd => .redir (cmd.addArg w) file mode fd
  | cmd => cmd

def redircmd (tok : Tok) (cmd : Cmd) (file : List Byte) : Cmd :=
  match tok with
  | .lt => .redir cmd file oRdonly 0
  | .gt => .redir cmd file (oWronly ||| oCreate) 1
  | .gtgt => .redir cmd file (oWronly ||| oCreate) 1
  | _ => cmd

abbrev Parsed := Except ParseError (Cmd × List Byte)

def parseredirs : Nat → Cmd → List Byte → Parsed
  | 0, _, _ => .error .fuel
  | n + 1, cmd, s =>
    if (peek [60, 62] s).1 then
      let tok := gettoken (peek [60, 62] s).2
      match gettoken tok.2 with
      | (.word file, s) => parseredirs n (redircmd tok.1 cmd file) s
      | _ => .error (.panic "missing file for redirection")
    else .ok (cmd, (peek [60, 62] s).2)

def parseargs : Nat → Cmd → Nat → List Byte → Parsed
  | 0, _, _, _ => .error .fuel
  | n + 1, ret, argc, s =>
    if (peek [124, 41, 38, 59] s).1 then .ok (ret, (peek [124, 41, 38, 59] s).2)
    else
      match gettoken (peek [124, 41, 38, 59] s).2 with
      | (.eof, s) => .ok (ret, s)
      | (.word q, s) =>
        if maxArgs ≤ argc + 1 then .error (.panic "too many args")
        else do
          let x ← parseredirs n (ret.addArg q) s
          parseargs n x.1 (argc + 1) x.2
      | _ => .error (.panic "syntax")

def parsebacks : Nat → Cmd → List Byte → Parsed
  | 0, _, _ => .error .fuel
  | n + 1, cmd, s =>
    if (peek [38] s).1 then parsebacks n (.back cmd) (gettoken (peek [38] s).2).2
    else .ok (cmd, (peek [38] s).2)

mutual

def parseline : Nat → List Byte → Parsed
  | 0, _ => .error .fuel
  | n + 1, s => do
    let x ← parsepipe n s
    let x ← parsebacks n x.1 x.2
    if (peek [59] x.2).1 then
      let y ← parseline n (gettoken (peek [59] x.2).2).2
      return (.list x.1 y.1, y.2)
    else return (x.1, (peek [59] x.2).2)

def parsepipe : Nat → List Byte → Parsed
  | 0, _ => .error .fuel
  | n + 1, s => do
    let x ← parseexec n s
    if (peek [124] x.2).1 then
      let y ← parsepipe n (gettoken (peek [124] x.2).2).2
      return (.pipe x.1 y.1, y.2)
    else return (x.1, (peek [124] x.2).2)

def parseblock : Nat → List Byte → Parsed
  | 0, _ => .error .fuel
  | n + 1, s =>
    if (peek [40] s).1 then do
      let x ← parseline n (gettoken (peek [40] s).2).2
      if (peek [41] x.2).1 then parseredirs n x.1 (gettoken (peek [41] x.2).2).2
      else .error (.panic "syntax - missing )")
    else .error (.panic "parseblock")

def parseexec : Nat → List Byte → Parsed
  | 0, _ => .error .fuel
  | n + 1, s =>
    if (peek [40] s).1 then parseblock n (peek [40] s).2
    else do
      let x ← parseredirs n (.exec []) (peek [40] s).2
      parseargs n x.1 0 x.2

end

def parsecmd (s : List Byte) : Except ParseError Cmd := do
  let x ← parseline (4 * s.length + 4) s
  if (peek [] x.2).2 = [] then return x.1 else .error (.panic "syntax")

end Xv6Signals.Shell
