import Xv6Signals.Lib.Bits
import Xv6Signals.Lib.Memory

namespace Xv6Signals
open Lib BitVec

abbrev Word := BitVec 32

instance Word.lawfulBEq : LawfulBEq Word := inferInstance

abbrev Sig := Fin 32

instance sigNeZero : NeZero 32 := ⟨by decide⟩

def sigkill : Sig := 9
def sigstop : Sig := 17
def sigcont : Sig := 19

def sigDfl : Word := 0
def sigIgn : Word := 1

inductive ProcState
  | unused | minusUnused | embryo | sleeping | minusSleeping
  | runnable | minusRunnable | running | zombie | minusZombie
  deriving DecidableEq, Repr

/-- Sleep channels are addresses; the address of a process is kept apart because `wait` sleeps on
it. -/
inductive Chan
  | null
  | proc (i : Nat)
  | addr (a : Word)
  deriving DecidableEq, Repr

structure TrapFrame where
  edi : Word
  esi : Word
  ebp : Word
  oesp : Word
  ebx : Word
  edx : Word
  ecx : Word
  eax : Word
  gs : BitVec 16
  padding1 : BitVec 16
  fs : BitVec 16
  padding2 : BitVec 16
  es : BitVec 16
  padding3 : BitVec 16
  ds : BitVec 16
  padding4 : BitVec 16
  trapno : Word
  err : Word
  eip : Word
  cs : BitVec 16
  padding5 : BitVec 16
  eflags : Word
  esp : Word
  ss : BitVec 16
  padding6 : BitVec 16
  deriving DecidableEq, Repr, Inhabited

/-- The frame as it lies in memory: nineteen words, the padding above each segment register. -/
def TrapFrame.toWords (tf : TrapFrame) : List Word :=
  [tf.edi, tf.esi, tf.ebp, tf.oesp, tf.ebx, tf.edx, tf.ecx, tf.eax,
    tf.padding1 ++ tf.gs, tf.padding2 ++ tf.fs, tf.padding3 ++ tf.es, tf.padding4 ++ tf.ds,
    tf.trapno, tf.err, tf.eip, tf.padding5 ++ tf.cs, tf.eflags, tf.esp, tf.padding6 ++ tf.ss]

def low (v : Word) : BitVec 16 := v.extractLsb' 0 16

def high (v : Word) : BitVec 16 := v.extractLsb' 16 16

def TrapFrame.ofWords (ws : List Word) : TrapFrame where
  edi := ws.getD 0 0
  esi := ws.getD 1 0
  ebp := ws.getD 2 0
  oesp := ws.getD 3 0
  ebx := ws.getD 4 0
  edx := ws.getD 5 0
  ecx := ws.getD 6 0
  eax := ws.getD 7 0
  gs := low (ws.getD 8 0)
  padding1 := high (ws.getD 8 0)
  fs := low (ws.getD 9 0)
  padding2 := high (ws.getD 9 0)
  es := low (ws.getD 10 0)
  padding3 := high (ws.getD 10 0)
  ds := low (ws.getD 11 0)
  padding4 := high (ws.getD 11 0)
  trapno := ws.getD 12 0
  err := ws.getD 13 0
  eip := ws.getD 14 0
  cs := low (ws.getD 15 0)
  padding5 := high (ws.getD 15 0)
  eflags := ws.getD 16 0
  esp := ws.getD 17 0
  ss := low (ws.getD 18 0)
  padding6 := high (ws.getD 18 0)

theorem low_append (h l : BitVec 16) : low (h ++ l) = l := by
  apply eq_of_getLsbD_eq
  intro i hi
  simp only [low, getLsbD_extractLsb', getLsbD_append, Nat.zero_add, hi,
    decide_true, Bool.true_and, ↓reduceIte]

theorem high_append (h l : BitVec 16) : high (h ++ l) = h := by
  apply eq_of_getLsbD_eq
  intro i hi
  have hn : ¬ 16 + i < 16 := by omega
  simp only [high, getLsbD_extractLsb', getLsbD_append, hi, hn,
    decide_true, Bool.true_and, ↓reduceIte, Nat.add_sub_cancel_left]

theorem TrapFrame.ofWords_toWords (tf : TrapFrame) : TrapFrame.ofWords tf.toWords = tf := by
  simp [TrapFrame.ofWords, TrapFrame.toWords, low_append, high_append]

def userCs : BitVec 16 := 0x1b

/-- A frame that `iret` resumes at privilege level 3 with interrupts enabled. -/
def TrapFrame.User (tf : TrapFrame) : Prop := tf.cs = userCs ∧ tf.eflags.getLsbD 9 = true

instance (tf : TrapFrame) : Decidable tf.User := inferInstanceAs (Decidable (_ ∧ _))

def TrapFrame.fromUser (tf : TrapFrame) : Bool := tf.cs &&& 3 == 3

/-- `struct proc`. The address space reached through `pgdir` is the field `mem`; the saved kernel
context is kept by the machine that switches it. -/
structure Proc where
  sz : Word
  mem : Mem 32
  kstack : Word
  state : ProcState
  pid : Nat
  parent : Option Nat
  tf : TrapFrame
  chan : Chan
  killed : Bool
  psignals : Word
  sigmask : Word
  sigmaskBackup : Word
  sigHandlers : Sig → Word
  tfBackup : Word
  frozen : Bool

def Proc.empty : Proc where
  sz := 0
  mem := fun _ => 0
  kstack := 0
  state := .unused
  pid := 0
  parent := none
  tf := default
  chan := .null
  killed := false
  psignals := 0
  sigmask := 0
  sigmaskBackup := 0
  sigHandlers := fun _ => sigDfl
  tfBackup := 0
  frozen := false

structure Sigaction where
  saHandler : Word
  sigmask : Word
  deriving DecidableEq, Repr

end Xv6Signals
