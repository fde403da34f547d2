import Xv6Signals.Shell.Grammar

namespace Xv6Signals.Shell
open Lib Function List

/-- What a descriptor is open on: what the shell was started with, a file, or an end of the pipe
that was made at a node of the tree. -/
inductive Stream
  | given (fd : Nat)
  | file (name : List Byte) (mode : Nat)
  | readEnd (node : List Bool)
  | writeEnd (node : List Bool)
  deriving DecidableEq, Repr

abbrev Fds := Nat → Option Stream

def freeFd (t : Fds) : Option Nat := (range 16).find? fun fd => (t fd).isNone

def close (t : Fds) (fd : Nat) : Fds := update t fd none

/-- The kernel gives out the lowest descriptor that is free. -/
def install (t : Fds) (x : Stream) : Option (Nat × Fds) :=
  (freeFd t).map fun fd => (fd, update t fd (some x))

def dup (t : Fds) (fd : Nat) : Fds :=
  match (t fd).bind (install t) with
  | some (_, t) => t
  | none => t

def pipe (t : Fds) (node : List Bool) : Option (Nat × Nat × Fds) := do
  let (p₀, t) ← install t (.readEnd node)
  let (p₁, t) ← install t (.writeEnd node)
  return (p₀, p₁, t)

/-- A process that calls `exec`, or a shell that waits, which has no arguments. -/
structure Task where
  argv : List (List Byte)
  fds : Fds

/-- The processes that `runcmd` makes of a process with the descriptors `t`; `ok` tells which of the
calls of `open`, `pipe` and `fork` at a node succeed. A call that fails ends the process. -/
def runcmd (ok : List Bool → Nat → Bool) (node : List Bool) : Cmd → Fds → List Task
  | .exec argv, t => if argv = [] then [] else [⟨argv, t⟩]
  | .redir cmd file mode fd, t =>
    match install (close t fd) (.file file mode) with
    | some (_, t) => if ok node 0 then runcmd ok (true :: node) cmd t else []
    | none => []
  | .list left right, t =>
    if ok node 0 then
      runcmd ok (true :: node) left t ++ ⟨[], t⟩ :: runcmd ok (false :: node) right t
    else []
  | .pipe left right, t =>
    match pipe t node with
    | some (p₀, p₁, t) =>
      if ok node 0 && ok node 1 then
        runcmd ok (true :: node) left (close (close (dup (close t 1) p₁) p₀) p₁) ++
          if ok node 2 then
            ⟨[], close (close t p₀) p₁⟩ ::
              runcmd ok (false :: node) right (close (close (dup (close t 0) p₀) p₀) p₁)
          else []
      else []
    | none => []
  | .back cmd, t => if ok node 0 then runcmd ok (true :: node) cmd t else []

/-- The three descriptors that `main` makes sure of, and no other. -/
def std (i o e : Stream) : Fds
  | 0 => some i
  | 1 => some o
  | 2 => some e
  | _ => none

/-- What the tree means: the processes, each with its standard input and output. -/
def plan (ok : List Bool → Nat → Bool) (e : Stream) (node : List Bool) :
    Cmd → Stream → Stream → List Task
  | .exec argv, i, o => if argv = [] then [] else [⟨argv, std i o e⟩]
  | .redir cmd file mode fd, i, o =>
    if ok node 0 then
      if fd = 0 then plan ok e (true :: node) cmd (.file file mode) o
      else plan ok e (true :: node) cmd i (.file file mode)
    else []
  | .list left right, i, o =>
    if ok node 0 then
      plan ok e (true :: node) left i o ++ ⟨[], std i o e⟩ :: plan ok e (false :: node) right i o
    else []
  | .pipe left right, i, o =>
    if ok node 0 && ok node 1 then
      plan ok e (true :: node) left i (.writeEnd node) ++
        if ok node 2 then
          ⟨[], std i o e⟩ :: plan ok e (false :: node) right (.readEnd node) o
        else []
    else []
  | .back cmd, i, o => if ok node 0 then plan ok e (true :: node) cmd i o else []

variable {ok : List Bool → Nat → Bool} {node : List Bool} {i o e x : Stream} {c cmd : Cmd}
  {ts : List Tok}

def Cmd.Std : Cmd → Prop
  | .exec _ => True
  | .redir cmd _ _ fd => (fd = 0 ∨ fd = 1) ∧ cmd.Std
  | .pipe left right | .list left right => left.Std ∧ right.Std
  | .back cmd => cmd.Std

theorem wrap_std (rs : List Redir) (h : cmd.Std) : (wrap rs cmd).Std := by
  induction rs generalizing cmd with
  | nil => exact h
  | cons r rs ih =>
    obtain ⟨op, file⟩ := r
    apply ih
    cases op
    · exact ⟨.inl rfl, h⟩
    · exact ⟨.inr rfl, h⟩
    · exact ⟨.inr rfl, h⟩

theorem back_std (k : Nat) (h : cmd.Std) : (Cmd.back^[k] cmd).Std := by
  induction k generalizing cmd with
  | zero => exact h
  | succ k ih => exact ih h

theorem LineOf.std (h : LineOf ts c) : c.Std :=
  @LineOf.rec (fun _ c _ => c.Std) (fun _ c _ => c.Std) (fun _ c _ => c.Std) (fun _ c _ => c.Std)
    (fun k _ h => back_std k h) (fun k _ _ h h' => ⟨back_std k h, h'⟩) (fun _ h => h)
    (fun _ _ h h' => ⟨h, h'⟩) (fun _ h => h) (fun _ _ _ => wrap_std _ trivial)
    (fun rs _ h => wrap_std rs h) ts c h

theorem parsecmd_std {s : List Byte} (h : parsecmd s = .ok c) : c.Std := by
  obtain ⟨⟨c', r⟩, hline, h⟩ := bind_eq_ok h
  dsimp only at h
  split at h
  · cases h
    obtain ⟨_, _, hc⟩ := (parse_sound _).1 s c r hline
    exact hc.std
  · cases h

theorem install_stdin : install (close (std i o e) 0) x = some (0, std x o e) := by
  refine congrArg (fun t => some (0, t)) (funext fun fd => ?_)
  rcases fd with _ | _ | _ | fd <;> rfl

theorem install_stdout : install (close (std i o e) 1) x = some (1, std i x e) := by
  refine congrArg (fun t => some (1, t)) (funext fun fd => ?_)
  rcases fd with _ | _ | _ | fd <;> rfl

def piped (i o e : Stream) (node : List Bool) : Fds :=
  update (update (std i o e) 3 (some (.readEnd node))) 4 (some (.writeEnd node))

theorem pipe_std : pipe (std i o e) node = some (3, 4, piped i o e node) := rfl

theorem piped_left : close (close (dup (close (piped i o e node) 1) 4) 3) 4 =
    std i (.writeEnd node) e := by
  funext fd
  rcases fd with _ | _ | _ | _ | _ | fd <;> rfl

theorem piped_right : close (close (dup (close (piped i o e node) 0) 3) 3) 4 =
    std (.readEnd node) o e := by
  funext fd
  rcases fd with _ | _ | _ | _ | _ | fd <;> rfl

theorem piped_parent : close (close (piped i o e node) 3) 4 = std i o e := by
  funext fd
  rcases fd with _ | _ | _ | _ | _ | fd <;> rfl

theorem runcmd_plan (h : c.Std) : runcmd ok node c (std i o e) = plan ok e node c i o := by
  induction c generalizing node i o with
  | exec argv => rfl
  | redir cmd file mode fd ih =>
    rw [runcmd, plan]
    rcases h with ⟨rfl | rfl, h⟩
    · rw [install_stdin]
      dsimp only
      rw [ih h, if_pos rfl]
    · rw [install_stdout]
      dsimp only
      rw [ih h, if_neg Nat.one_ne_zero]
  | pipe left right ihl ihr =>
    rw [runcmd, plan, pipe_std]
    dsimp only
    rw [piped_left, piped_right, piped_parent, ihl h.1, ihr h.2]
  | list left right ihl ihr => rw [runcmd, plan, ihl h.1, ihr h.2]
  | back cmd ih => rw [runcmd, plan, ih h]

/-- The processes that run a line have the standard input and output that its tree means, and no
other descriptor: an end of a pipe is open only on its own side, whichever calls fail. -/
theorem runcmd_wires {s : List Byte} (h : parsecmd s = .ok c) (ok : List Bool → Nat → Bool)
    (i o e : Stream) : runcmd ok [] c (std i o e) = plan ok e [] c i o :=
  runcmd_plan (parsecmd_std h)

/-- The line `a|b`. -/
theorem runcmd_wires_pipe : runcmd (fun _ _ => true) [] (.pipe (.exec [[97]]) (.exec [[98]]))
      (std (.given 0) (.given 1) (.given 2)) =
    [⟨[[97]], std (.given 0) (.writeEnd []) (.given 2)⟩, ⟨[], std (.given 0) (.given 1) (.given 2)⟩,
      ⟨[[98]], std (.readEnd []) (.given 1) (.given 2)⟩] := by
  have h : parsecmd [97, 124, 98] = .ok (.pipe (.exec [[97]]) (.exec [[98]])) := by decide +kernel
  exact runcmd_wires h _ _ _ _

end Xv6Signals.Shell
