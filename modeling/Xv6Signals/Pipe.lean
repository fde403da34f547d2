import Xv6Signals.Lib.Machine
import Xv6Signals.Lib.Ring
import Xv6Signals.Proc

namespace Xv6Signals
open Lib List

def pipeSize : Nat := 512

structure Pipe where
  data : Nat → Byte
  nread : Word
  nwrite : Word
  readopen : Bool
  writeopen : Bool

inductive Stop
  | sleep
  | ret (n : Int)
  deriving DecidableEq, Repr

variable {p q : Pipe} {bs items : List Byte} {killed : Bool} {n : Nat}

def Pipe.put (p : Pipe) (b : Byte) : Pipe :=
  { p with data := Function.update p.data (cellOf pipeSize p.nwrite) b, nwrite := p.nwrite + 1 }

def Pipe.full (p : Pipe) : Bool := p.nwrite == p.nread + BitVec.ofNat 32 pipeSize

/-- The loop of `pipewrite` over the bytes still to be written, from where the call has the lock up
to where it sleeps or returns, with the bytes it stores. -/
def pipewrite (killed : Bool) (n : Int) (p : Pipe) : List Byte → Pipe × List Byte × Stop
  | [] => (p, [], .ret n)
  | b :: bs =>
    if p.full then (p, [], if !p.readopen || killed then .ret (-1) else .sleep)
    else
      let r := pipewrite killed n (p.put b) bs
      (r.1, b :: r.2.1, r.2.2)

def pipereadCopy (p : Pipe) : Nat → Pipe × List Byte
  | 0 => (p, [])
  | n + 1 =>
    if p.nread = p.nwrite then (p, [])
    else
      let r := pipereadCopy { p with nread := p.nread + 1 } n
      (r.1, p.data (cellOf pipeSize p.nread) :: r.2)

def piperead (killed : Bool) (p : Pipe) (n : Nat) : Pipe × List Byte × Stop :=
  if p.nread = p.nwrite ∧ p.writeopen then (p, [], if killed then .ret (-1) else .sleep)
  else
    let r := pipereadCopy p n
    (r.1, r.2, .ret r.2.length)

def Pipe.close (p : Pipe) (writable : Bool) : Pipe :=
  if writable then { p with writeopen := false } else { p with readopen := false }

inductive PipeCall
  | write (buf : List Byte)
  | read (n : Nat)
  deriving DecidableEq, Repr

structure PipeThread where
  call : PipeCall
  done : List Byte
  ret : Option Int
  deriving DecidableEq, Repr

/-- A pipe, the calls made on it so far, and the bytes stored and taken, each with the number of
the call, in the order of the stores and loads. -/
structure PipeState where
  pipe : Pipe
  calls : List PipeThread
  stores : List (Nat × Byte)
  takes : List (Nat × Byte)

inductive PipeLabel
  | call (c : PipeCall) (killed : Bool)
  | resume (i : Nat) (killed : Bool)
  | close (writable : Bool)
  deriving DecidableEq, Repr

def Stop.value : Stop → Option Int
  | .sleep => none
  | .ret n => some n

def PipeState.run (s : PipeState) (i : Nat) (a : PipeThread) (killed : Bool) : PipeState :=
  match a.call with
  | .write buf =>
    let r := pipewrite killed buf.length s.pipe (buf.drop a.done.length)
    { s with
      pipe := r.1
      calls := s.calls.set i { a with done := a.done ++ r.2.1, ret := r.2.2.value }
      stores := s.stores ++ r.2.1.map fun b => (i, b) }
  | .read n =>
    let r := piperead killed s.pipe n
    { s with
      pipe := r.1
      calls := s.calls.set i { a with done := a.done ++ r.2.1, ret := r.2.2.value }
      takes := s.takes ++ r.2.1.map fun b => (i, b) }

/-- A new call runs, one that sleeps goes on (also when nobody has called `wakeup`), or an end is
closed. When both ends are closed the page is freed and nothing more happens. -/
def PipeState.next (s : PipeState) : PipeLabel → Option PipeState
  | .call c killed =>
    if s.pipe.readopen || s.pipe.writeopen then
      let a : PipeThread := ⟨c, [], none⟩
      some ({ s with calls := s.calls ++ [a] }.run s.calls.length a killed)
    else none
  | .resume i killed =>
    match s.calls[i]? with
    | some a =>
      if (s.pipe.readopen || s.pipe.writeopen) && a.ret.isNone then some (s.run i a killed)
      else none
    | none => none
  | .close writable =>
    if s.pipe.readopen || s.pipe.writeopen then some { s with pipe := s.pipe.close writable }
    else none

def pipeMachine : Machine PipeState PipeLabel where
  init := fun s => ∃ data, s = ⟨⟨data, 0, 0, true, true⟩, [], [], []⟩
  next := PipeState.next

theorem pipe_ringSize : RingSize pipeSize 32 := ⟨by decide, by decide⟩

def Pipe.Holds (p : Pipe) (items : List Byte) : Prop := Ring pipeSize p.data p.nread p.nwrite items

theorem Pipe.Holds.full_iff (h : p.Holds items) : p.full = true ↔ items.length = pipeSize := by
  rw [Pipe.full, beq_iff_eq]
  exact Ring.full_iff pipe_ringSize h

theorem Pipe.Holds.put (h : p.Holds items) (b : Byte) (hf : p.full = false) :
    (p.put b).Holds (items ++ [b]) := by
  apply Ring.push pipe_ringSize h
  have hne : items.length ≠ pipeSize := by
    intro hl
    rw [h.full_iff.2 hl] at hf
    cases hf
  have hroom : items.length ≤ pipeSize := h.room
  omega

/-- What `pipewrite` does while it has the lock: it stores the first of the bytes still to be
written, all of them when it returns their number. -/
theorem pipewrite_spec (killed : Bool) (n : Int) (h : p.Holds items) (bs : List Byte) :
    (pipewrite killed n p bs).1.Holds (items ++ (pipewrite killed n p bs).2.1) ∧
    (pipewrite killed n p bs).2.1 <+: bs ∧
    ∀ m, (pipewrite killed n p bs).2.2 = .ret m →
      m = n ∧ (pipewrite killed n p bs).2.1 = bs ∨ m = -1 := by
  induction bs generalizing p items with
  | nil =>
    refine ⟨?_, prefix_refl _, ?_⟩
    · rw [pipewrite, append_nil]
      exact h
    · intro m hm
      cases hm
      exact .inl ⟨rfl, rfl⟩
  | cons b bs ih =>
    rw [pipewrite]
    split
    · refine ⟨?_, nil_prefix, ?_⟩
      · rw [append_nil]
        exact h
      · intro m hm
        dsimp only at hm
        split at hm
        · cases hm
          exact .inr rfl
        · cases hm
    · rename_i hf
      obtain ⟨hholds, hprefix, hret⟩ := ih (h.put b (Bool.eq_false_iff.2 hf))
      rw [append_assoc, singleton_append] at hholds
      refine ⟨hholds, (prefix_cons_inj b).2 hprefix, ?_⟩
      intro m hm
      rcases hret m hm with ⟨hmn, hall⟩ | hm
      · exact .inl ⟨hmn, congrArg (b :: ·) hall⟩
      · exact .inr hm

theorem pipereadCopy_spec (h : p.Holds items) (n : Nat) :
    ∃ rest, items = (pipereadCopy p n).2 ++ rest ∧ (pipereadCopy p n).1.Holds rest ∧
      (pipereadCopy p n).2.length ≤ n ∧ ((pipereadCopy p n).2.length < n → rest = []) ∧
      (pipereadCopy p n).1.writeopen = p.writeopen := by
  induction n generalizing p items with
  | zero =>
    refine ⟨items, rfl, h, Nat.le_refl 0, ?_, rfl⟩
    intro hlt
    cases hlt
  | succ n ih =>
    rw [pipereadCopy]
    split
    · rename_i he
      cases (Ring.empty_iff pipe_ringSize h).1 he
      exact ⟨[], rfl, h, Nat.zero_le _, fun _ => rfl, rfl⟩
    rename_i he
    cases items with
    | nil => exact (he ((Ring.empty_iff pipe_ringSize h).2 rfl)).elim
    | cons b items =>
      obtain ⟨rest, hitems, hholds, hlen, hshort, hopen⟩ :=
        ih (p := { p with nread := p.nread + 1 }) (Ring.tail h)
      refine ⟨rest, ?_, hholds, Nat.succ_le_succ hlen, ?_, hopen⟩
      · rw [Ring.head h, cons_append, ← hitems]
      · intro hlt
        exact hshort (Nat.lt_of_succ_lt_succ hlt)

/-- What `piperead` does while it has the lock: it takes the first bytes of the pipe, if any, and
returns 0 to a caller that has asked for more only if the pipe is then empty for good. -/
theorem piperead_spec (killed : Bool) (h : p.Holds items) (n : Nat) :
    ∃ rest, items = (piperead killed p n).2.1 ++ rest ∧ (piperead killed p n).1.Holds rest ∧
      ((piperead killed p n).2.2 = .sleep → (piperead killed p n).2.1 = []) ∧
      ∀ m, (piperead killed p n).2.2 = .ret m →
        (m = (piperead killed p n).2.1.length ∧ (piperead killed p n).2.1.length ≤ n ∨
          m = -1 ∧ (piperead killed p n).2.1 = []) ∧
        (m = 0 → 0 < n → rest = [] ∧ (piperead killed p n).1.writeopen = false) := by
  rw [piperead]
  split
  · refine ⟨items, rfl, h, fun _ => rfl, ?_⟩
    intro m hm
    dsimp only at hm
    split at hm
    · cases hm
      refine ⟨.inr ⟨rfl, rfl⟩, ?_⟩
      intro h0
      cases h0
    · cases hm
  rename_i hwait
  obtain ⟨rest, hitems, hholds, hlen, hshort, hopen⟩ := pipereadCopy_spec h n
  refine ⟨rest, hitems, hholds, ?_, ?_⟩
  · intro hs
    cases hs
  intro m hm
  cases hm
  refine ⟨.inl ⟨rfl, hlen⟩, ?_⟩
  intro h0 hn
  have hnil : (pipereadCopy p n).2 = [] := by
    rw [← length_eq_zero_iff]
    exact Int.natCast_eq_zero.1 h0
  have hrest : rest = [] := by
    apply hshort
    rw [hnil]
    exact hn
  refine ⟨hrest, ?_⟩
  rw [hnil, hrest] at hitems
  rw [hopen]
  by_contra hw
  exact hwait ⟨(Ring.empty_iff pipe_ringSize h).2 hitems, by simpa using hw⟩

def byCall (l : List (Nat × Byte)) (i : Nat) : List Byte := (l.filter (·.1 == i)).map Prod.snd

theorem byCall_append_self (l : List (Nat × Byte)) (i : Nat) (bs : List Byte) :
    byCall (l ++ bs.map fun b => (i, b)) i = byCall l i ++ bs := by
  have hall : (bs.map fun b => (i, b)).filter (·.1 == i) = bs.map fun b => (i, b) := by
    rw [filter_eq_self]
    intro e he
    obtain ⟨b, -, rfl⟩ := mem_map.1 he
    exact beq_self_eq_true i
  rw [byCall, filter_append, hall, map_append, map_map, byCall]
  congr 1
  exact map_id bs

theorem byCall_append_of_ne (l : List (Nat × Byte)) {i j : Nat} (h : i ≠ j) (bs : List Byte) :
    byCall (l ++ bs.map fun b => (i, b)) j = byCall l j := by
  have hnone : (bs.map fun b => (i, b)).filter (·.1 == j) = [] := by
    rw [filter_eq_nil_iff]
    intro e he
    obtain ⟨b, -, rfl⟩ := mem_map.1 he
    rw [beq_iff_eq]
    exact h
  rw [byCall, filter_append, hnone, append_nil, byCall]

theorem snd_byCall (i : Nat) (bs : List Byte) : (bs.map fun b => (i, b)).map Prod.snd = bs := by
  rw [map_map]
  exact map_id bs

/-- What a call has done so far: a write has stored the beginning of its buffer, all of it when it
returns its length; a read takes its bytes all at once and returns their number. -/
def PipeThread.Sound (a : PipeThread) (stored taken : List Byte) : Prop :=
  match a.call with
  | .write buf => stored = a.done ∧ taken = [] ∧ a.done <+: buf ∧
      ∀ m, a.ret = some m → m = buf.length ∧ a.done = buf ∨ m = -1
  | .read n => taken = a.done ∧ stored = [] ∧ (a.ret = none → a.done = []) ∧
      ∀ m, a.ret = some m → m = a.done.length ∧ a.done.length ≤ n ∨ m = -1 ∧ a.done = []

structure PipeInv (s : PipeState) : Prop where
  bytes : ∃ items, s.pipe.Holds items ∧ s.stores.map Prod.snd = s.takes.map Prod.snd ++ items
  calls : ∀ i (a : PipeThread), s.calls[i]? = some a →
    a.Sound (byCall s.stores i) (byCall s.takes i)
  fresh : ∀ i, s.calls.length ≤ i → byCall s.stores i = [] ∧ byCall s.takes i = []

variable {s t : PipeState} {i : Nat} {a : PipeThread}

theorem Stop.value_eq {x : Stop} {m : Int} (h : x.value = some m) : x = .ret m := by
  cases x with
  | sleep => cases h
  | ret k =>
    cases h
    rfl

theorem Stop.value_none {x : Stop} (h : x.value = none) : x = .sleep := by
  cases x with
  | sleep => rfl
  | ret k => cases h

theorem PipeInv.set_call (hi : PipeInv s) {a' : PipeThread} {l l' : List (Nat × Byte)}
    (hlt : i < s.calls.length)
    (hsame : ∀ j, i ≠ j → byCall l j = byCall s.stores j ∧ byCall l' j = byCall s.takes j)
    (hself : a'.Sound (byCall l i) (byCall l' i)) :
    (∀ j (b : PipeThread), (s.calls.set i a')[j]? = some b → b.Sound (byCall l j) (byCall l' j)) ∧
    ∀ j, (s.calls.set i a').length ≤ j → byCall l j = [] ∧ byCall l' j = [] := by
  constructor
  · intro j b hb
    by_cases hij : i = j
    · subst hij
      rw [getElem?_set_self hlt] at hb
      cases hb
      exact hself
    · rw [getElem?_set_ne hij] at hb
      rw [(hsame j hij).1, (hsame j hij).2]
      exact hi.calls j b hb
  · intro j hj
    rw [length_set] at hj
    rw [(hsame j (by omega)).1, (hsame j (by omega)).2]
    exact hi.fresh j hj

theorem PipeInv.write {buf done : List Byte} {ret : Option Int} (hi : PipeInv s)
    (ha : s.calls[i]? = some ⟨.write buf, done, ret⟩) (killed : Bool) :
    PipeInv (s.run i ⟨.write buf, done, ret⟩ killed) := by
  obtain ⟨items, hholds, hbytes⟩ := hi.bytes
  have hlt : i < s.calls.length := (List.getElem?_eq_some_iff.1 ha).1
  obtain ⟨hstored, htaken, ⟨more, hbuf⟩, -⟩ := hi.calls i _ ha
  dsimp only at hstored hbuf
  obtain ⟨hh, hp, hr⟩ := pipewrite_spec killed buf.length hholds (buf.drop done.length)
  simp only [PipeState.run]
  generalize pipewrite killed buf.length s.pipe (buf.drop done.length) = r at hh hp hr
  rw [← hbuf, drop_left] at hp hr
  have hself : PipeThread.Sound ⟨.write buf, done ++ r.2.1, r.2.2.value⟩
      (byCall (s.stores ++ r.2.1.map fun b => (i, b)) i) (byCall s.takes i) := by
    simp only [PipeThread.Sound, byCall_append_self, hstored, htaken, true_and]
    refine ⟨?_, ?_⟩
    · rw [← hbuf]
      exact (prefix_append_right_inj _).2 hp
    · intro m hm
      rcases hr m (Stop.value_eq hm) with ⟨rfl, hall⟩ | hneg
      · exact .inl ⟨by rw [hbuf], by rw [hall, hbuf]⟩
      · exact .inr hneg
  obtain ⟨hcalls, hfresh⟩ :=
    hi.set_call hlt (fun j hij => ⟨byCall_append_of_ne _ hij _, rfl⟩) hself
  refine ⟨⟨items ++ r.2.1, hh, ?_⟩, hcalls, hfresh⟩
  rw [map_append, hbytes, snd_byCall, append_assoc]

theorem PipeInv.read {done : List Byte} (hi : PipeInv s)
    (ha : s.calls[i]? = some ⟨.read n, done, none⟩) (killed : Bool) :
    PipeInv (s.run i ⟨.read n, done, none⟩ killed) := by
  obtain ⟨items, hholds, hbytes⟩ := hi.bytes
  have hlt : i < s.calls.length := (List.getElem?_eq_some_iff.1 ha).1
  obtain ⟨htaken, hstored, hnone, -⟩ := hi.calls i _ ha
  have hnil : done = [] := hnone rfl
  dsimp only at htaken
  obtain ⟨rest, hitems, hh, hsleep, hr⟩ := piperead_spec killed hholds n
  simp only [PipeState.run]
  generalize piperead killed s.pipe n = r at hitems hh hsleep hr
  have hself : PipeThread.Sound ⟨.read n, done ++ r.2.1, r.2.2.value⟩
      (byCall s.stores i) (byCall (s.takes ++ r.2.1.map fun b => (i, b)) i) := by
    simp only [PipeThread.Sound, byCall_append_self, hstored, htaken, hnil, nil_append,
      true_and]
    refine ⟨fun hv => hsleep (Stop.value_none hv), ?_⟩
    intro m hm
    exact (hr m (Stop.value_eq hm)).1
  obtain ⟨hcalls, hfresh⟩ :=
    hi.set_call hlt (fun j hij => ⟨rfl, byCall_append_of_ne _ hij _⟩) hself
  refine ⟨⟨rest, hh, ?_⟩, hcalls, hfresh⟩
  rw [map_append, snd_byCall, append_assoc, ← hitems]
  exact hbytes

theorem PipeInv.run (hi : PipeInv s) (ha : s.calls[i]? = some a) (hret : a.ret = none)
    (killed : Bool) : PipeInv (s.run i a killed) := by
  obtain ⟨c, done, ret⟩ := a
  cases c with
  | write buf => exact hi.write ha killed
  | read n =>
    cases hret
    exact hi.read ha killed

theorem PipeInv.begin (hi : PipeInv s) (c : PipeCall) :
    PipeInv { s with calls := s.calls ++ [⟨c, [], none⟩] } where
  bytes := hi.bytes
  calls := by
    intro i a ha
    rw [getElem?_append] at ha
    split at ha
    · exact hi.calls i a ha
    rename_i hle
    obtain ⟨hstored, htaken⟩ := hi.fresh i (Nat.le_of_not_lt hle)
    cases mem_singleton.1 (mem_of_getElem? ha)
    rw [hstored, htaken]
    cases c with
    | write buf => exact ⟨rfl, rfl, nil_prefix, fun m hm => by cases hm⟩
    | read n => exact ⟨rfl, rfl, fun _ => rfl, fun m hm => by cases hm⟩
  fresh := by
    intro i hle
    rw [length_append] at hle
    exact hi.fresh i (Nat.le_of_add_right_le hle)

inductive PipeStep (s : PipeState) : PipeState → Prop
  | call (c : PipeCall) (killed : Bool) : PipeStep s
      (PipeState.run { s with calls := s.calls ++ [⟨c, [], none⟩] } s.calls.length ⟨c, [], none⟩
        killed)
  | resume {i : Nat} {a : PipeThread} (killed : Bool) : s.calls[i]? = some a → a.ret = none →
      PipeStep s (s.run i a killed)
  | close (writable : Bool) : PipeStep s { s with pipe := s.pipe.close writable }

theorem pipe_next_cases {l : PipeLabel} (h : s.next l = some t) : PipeStep s t := by
  cases l with
  | call c killed =>
    simp only [PipeState.next] at h
    split at h
    · cases h
      exact .call c killed
    · cases h
  | resume i killed =>
    simp only [PipeState.next] at h
    split at h
    · rename_i a ha
      split at h
      · rename_i hr
        cases h
        rw [Bool.and_eq_true, Option.isNone_iff_eq_none] at hr
        exact .resume killed ha hr.2
      · cases h
    · cases h
  | close writable =>
    simp only [PipeState.next] at h
    split at h
    · cases h
      exact .close writable
    · cases h

theorem PipeInv.step (hi : PipeInv s) (h : PipeStep s t) : PipeInv t := by
  cases h with
  | call c killed =>
    apply (hi.begin c).run _ rfl
    exact getElem?_concat_length
  | resume killed ha hr => exact hi.run ha hr killed
  | close writable =>
    refine ⟨?_, hi.calls, hi.fresh⟩
    obtain ⟨items, hholds, hbytes⟩ := hi.bytes
    refine ⟨items, ?_, hbytes⟩
    cases writable with
    | true => exact hholds
    | false => exact hholds

theorem PipeInv.reach (h : pipeMachine.Reachable s) : PipeInv s := by
  refine Machine.Reach.invariant h ?_ fun s l t _ hi _ hs => hi.step (pipe_next_cases hs)
  rintro s ⟨data, rfl⟩
  refine ⟨⟨[], Ring.nil .., rfl⟩, fun i a ha => ?_, fun i _ => ⟨rfl, rfl⟩⟩
  cases ha

theorem run_calls (s : PipeState) (i : Nat) (a : PipeThread) (killed : Bool) :
    ∃ a', (s.run i a killed).calls = s.calls.set i a' := by
  unfold PipeState.run
  split
  · exact ⟨_, rfl⟩
  · exact ⟨_, rfl⟩

theorem PipeInv.run_read_zero {j : Nat} {done : List Byte} (hi : PipeInv s)
    (ha : s.calls[i]? = some a) (hret : a.ret = none) (killed : Bool)
    (ht : (s.run i a killed).calls[j]? = some ⟨.read n, done, some 0⟩)
    (hs : ∀ b, s.calls[j]? = some b → b.ret = none) (hn : 0 < n) :
    (s.run i a killed).pipe.writeopen = false ∧
      (s.run i a killed).takes.map Prod.snd = (s.run i a killed).stores.map Prod.snd := by
  have hlt : i < s.calls.length := (List.getElem?_eq_some_iff.1 ha).1
  by_cases hij : i = j
  · subst hij
    obtain ⟨c, done', ret⟩ := a
    cases hret
    cases c with
    | write buf =>
      simp only [PipeState.run, getElem?_set_self hlt] at ht
      cases ht
    | read m =>
      obtain ⟨items, hholds, hbytes⟩ := hi.bytes
      obtain ⟨rest, hitems, -, -, hr⟩ := piperead_spec killed hholds m
      simp only [PipeState.run, getElem?_set_self hlt, Option.some.injEq,
        PipeThread.mk.injEq, PipeCall.read.injEq] at ht ⊢
      obtain ⟨rfl, -, hv⟩ := ht
      obtain ⟨hrest, hclosed⟩ := (hr 0 (Stop.value_eq hv)).2 rfl hn
      refine ⟨hclosed, ?_⟩
      rw [hrest, append_nil] at hitems
      rw [map_append, snd_byCall, ← hitems]
      exact hbytes.symm
  · obtain ⟨a', ha'⟩ := run_calls s i a killed
    rw [ha', getElem?_set_ne hij] at ht
    cases hs _ ht

theorem PipeInv.read_zero {j : Nat} {done : List Byte} (hi : PipeInv s) (h : PipeStep s t)
    (ht : t.calls[j]? = some ⟨.read n, done, some 0⟩)
    (hs : ∀ b, s.calls[j]? = some b → b.ret = none) (hn : 0 < n) :
    t.pipe.writeopen = false ∧ t.takes.map Prod.snd = t.stores.map Prod.snd := by
  cases h with
  | call c killed =>
    refine (hi.begin c).run_read_zero getElem?_concat_length rfl killed ht ?_ hn
    intro b hb
    rw [getElem?_append] at hb
    split at hb
    · exact hs b hb
    · cases mem_singleton.1 (mem_of_getElem? hb)
      rfl
  | resume killed ha hr => exact hi.run_read_zero ha hr killed ht hs hn
  | close writable => cases hs _ ht

/-- In every run of any number of writers and readers: what is taken is the beginning of what was
stored, the counters are at most `PIPESIZE` apart, a write stores its bytes in order and a read
returns those it has taken, and a read that was asked for bytes returns 0 only when the write end is
closed and every stored byte has been taken. -/
theorem pipe_fifo (h : pipeMachine.Reachable s) :
    s.takes.map Prod.snd <+: s.stores.map Prod.snd ∧
    (s.pipe.nwrite - s.pipe.nread).toNat ≤ pipeSize ∧
    (∀ i buf done ret, s.calls[i]? = some ⟨.write buf, done, ret⟩ →
      byCall s.stores i = done ∧ done <+: buf ∧
        ∀ m : Int, ret = some m → m = buf.length ∧ done = buf ∨ m = -1) ∧
    (∀ i n done ret, s.calls[i]? = some ⟨.read n, done, ret⟩ →
      byCall s.takes i = done ∧
        ∀ m : Int, ret = some m → m = done.length ∧ done.length ≤ n ∨ m = -1 ∧ done = []) ∧
    ∀ l (t : PipeState) (i n : Nat) done, pipeMachine.next s l = some t →
      t.calls[i]? = some ⟨.read n, done, some 0⟩ →
      (∀ a, s.calls[i]? = some a → a.ret = none) → 0 < n →
      t.pipe.writeopen = false ∧ t.takes.map Prod.snd = t.stores.map Prod.snd := by
  have hi := PipeInv.reach h
  obtain ⟨items, hholds, hbytes⟩ := hi.bytes
  refine ⟨⟨items, hbytes.symm⟩, ?_, ?_, ?_, ?_⟩
  · rw [Ring.count pipe_ringSize hholds]
    exact hholds.room
  · intro i buf done ret ha
    obtain ⟨hstored, -, hpre, hret⟩ := hi.calls i _ ha
    exact ⟨hstored, hpre, hret⟩
  · intro i n done ret ha
    obtain ⟨htaken, -, -, hret⟩ := hi.calls i _ ha
    exact ⟨htaken, hret⟩
  · intro l t i n done hs ht hnone hn
    exact hi.read_zero (pipe_next_cases hs) ht hnone hn

def pipeRun : List PipeLabel :=
  [.call (.write (List.replicate 513 7)) false, .call (.read 3) false, .resume 0 false]

def emptyPipe : PipeState := ⟨⟨fun _ => 0, 0, 0, true, true⟩, [], [], []⟩

theorem pipe_fifo_blocked : ∃ s, pipeMachine.Reachable s ∧ s.calls.length = 2 ∧
    s.stores.length = 513 ∧ s.takes.map Prod.snd <+: s.stores.map Prod.snd ∧
    (s.pipe.nwrite - s.pipe.nread).toNat ≤ pipeSize := by
  obtain ⟨s, hs, hcalls, hstores⟩ :=
    (Machine.Reach.init (M := pipeMachine) (s := emptyPipe) ⟨_, rfl⟩).exists_run (l := pipeRun)
      (P := fun s : PipeState => s.calls.length = 2 ∧ s.stores.length = 513)
      (Machine.permits_true ..) (by decide +kernel)
  have hfifo := pipe_fifo hs
  exact ⟨s, hs, hcalls, hstores, hfifo.1, hfifo.2.1⟩

end Xv6Signals
