import Xv6Signals.Lib.Bytes

namespace Xv6Signals.Mp
open Lib Function List

def sum (m : Bytes) (len : Nat) : Byte := BitVec.ofNat 8 ((m.read 0 len).map BitVec.toNat).sum

def confLength (conf : Bytes) : Nat := (conf 4).toNat + 256 * (conf 5).toNat

def mpconfig (conf : Bytes) : Bool :=
  conf.read 0 4 = [80, 67, 77, 80] ∧ (conf 6 = 1 ∨ conf 6 = 4) ∧ sum conf (confLength conf) = 0

def maxCpus : Nat := 8

structure State where
  p : Nat
  ismp : Bool
  ncpu : Nat
  -- the field `apicid` of `cpus`
  cpus : Nat → Byte
  ioapicid : Byte
  lapic : Nat

/-- The switch on the type of an entry. The `break` of an unknown type leaves the switch only. -/
def entryStep (conf : Bytes) (s : State) : State :=
  if conf s.p = 0 then
    if s.ncpu < maxCpus then
      { s with cpus := update s.cpus s.ncpu (conf (s.p + 1)), ncpu := s.ncpu + 1, p := s.p + 20 }
    else { s with p := s.p + 20 }
  else if conf s.p = 2 then { s with ioapicid := conf (s.p + 1), p := s.p + 8 }
  else if conf s.p = 1 ∨ conf s.p = 3 ∨ conf s.p = 4 then { s with p := s.p + 8 }
  else { s with ismp := false }

/-- The loop of `mpinit`, for a number of rounds; nothing is returned while it still runs. -/
def entryLoop (conf : Bytes) : Nat → State → Option State
  | 0, _ => none
  | rounds + 1, s =>
    if s.p < confLength conf then entryLoop conf rounds (entryStep conf s) else some s

inductive Panic
  | notSmp | unsuitable
  deriving DecidableEq

def start (conf : Bytes) : State := ⟨44, true, 0, fun _ => 0, 0, conf.wordAt 36⟩

/-- `mpinit` up to the registers of the interrupt mode, which it selects when `imcrp` is set. -/
def mpinit (conf : Bytes) (imcrp : Byte) (rounds : Nat) : Option (Except Panic (State × Bool)) :=
  if mpconfig conf then
    (entryLoop conf rounds (start conf)).map fun s =>
      if s.ismp then .ok (s, imcrp ≠ 0) else .error .unsuitable
  else some (.error .notSmp)

def entrySize (type : Byte) : Option Nat :=
  if type = 0 then some 20 else if type.toNat ≤ 4 then some 8 else none

inductive Entries (conf : Bytes) : Nat → List Nat → Prop
  | done {p : Nat} : confLength conf ≤ p → Entries conf p []
  | entry {p k : Nat} {l : List Nat} : p < confLength conf → entrySize (conf p) = some k →
      Entries conf (p + k) l → Entries conf p (p :: l)

def apicids (conf : Bytes) (l : List Nat) : List Byte :=
  (l.filter fun p => conf p = 0).map fun p => conf (p + 1)

variable {conf : Bytes} {s t : State} {l : List Nat} {ids : List Byte} {k p : Nat}

structure Records (s : State) (ids : List Byte) : Prop where
  ismp : s.ismp = true
  cpus : (List.range s.ncpu).map s.cpus = ids.take maxCpus

theorem Records.ncpu (h : Records s ids) : s.ncpu = min maxCpus ids.length := by
  have hlen := congrArg List.length h.cpus
  rwa [length_map, length_range, length_take] at hlen

theorem Records.add (h : Records s ids) (a : Byte) (hlt : s.ncpu < maxCpus) :
    (List.range (s.ncpu + 1)).map (update s.cpus s.ncpu a) = (ids ++ [a]).take maxCpus := by
  have hn := h.ncpu
  have hold : (List.range s.ncpu).map (update s.cpus s.ncpu a) = ids.take maxCpus := by
    rw [← h.cpus]
    refine map_congr_left fun i hi => update_of_ne ?_ ..
    exact Nat.ne_of_lt (mem_range.1 hi)
  have hids : ids.length < maxCpus := by omega
  rw [range_succ, map_append, hold, take_of_length_le (Nat.le_of_lt hids),
    take_of_length_le (by rw [length_append]; exact hids)]
  show ids ++ [update s.cpus s.ncpu a s.ncpu] = _
  rw [update_self]

theorem entryStep_p : (entryStep conf s).p = s.p + (entrySize (conf s.p)).getD 0 := by
  unfold entryStep entrySize
  split
  · split <;> rfl
  · split
    · rw [if_pos (by bv_omega)]
      rfl
    · split
      · rw [if_pos (by bv_omega)]
        rfl
      · rw [if_neg (by bv_omega)]
        rfl

theorem entryStep_records (h : Records s ids) (hk : entrySize (conf s.p) = some k) :
    Records (entryStep conf s) (ids ++ apicids conf [s.p]) := by
  unfold entryStep apicids
  by_cases hproc : conf s.p = 0
  · rw [if_pos hproc, filter_cons_of_pos (by simpa using hproc), filter_nil]
    split
    · exact ⟨h.ismp, h.add _ ‹_›⟩
    · have hn := h.ncpu
      have hids : maxCpus ≤ ids.length := by omega
      exact ⟨h.ismp, h.cpus.trans (take_append_of_le_length hids).symm⟩
  · have hknown : (conf s.p).toNat ≤ 4 := by grind [entrySize]
    rw [if_neg hproc, filter_cons_of_neg (by simpa using hproc), filter_nil,
      map_nil, append_nil]
    split
    · exact ⟨h.ismp, h.cpus⟩
    · rw [if_pos (by bv_omega)]
      exact ⟨h.ismp, h.cpus⟩

theorem Entries.loop (hl : Entries conf p l) (hp : s.p = p) (h : Records s ids) :
    ∃ rounds t, entryLoop conf rounds s = some t ∧ confLength conf ≤ t.p ∧
      Records t (ids ++ apicids conf l) := by
  induction hl generalizing s ids with
  | done hle =>
    subst hp
    refine ⟨1, s, if_neg (Nat.not_lt.2 hle), hle, ?_⟩
    rw [apicids, filter_nil, map_nil, append_nil]
    exact h
  | @entry p k l hlt hk hl ih =>
    subst hp
    obtain ⟨rounds, t, hrun, hend, hrec⟩ :=
      ih (by rw [entryStep_p, hk, Option.getD_some]) (entryStep_records h hk)
    refine ⟨rounds + 1, t, (if_pos hlt).trans hrun, hend, ?_⟩
    rwa [append_assoc, apicids, apicids, ← map_append, ← filter_append] at hrec

/-- At an entry of an unknown type the loop goes round without end. -/
theorem entryLoop_runs (h : ¬ ∃ l, Entries conf s.p l) (rounds : Nat) :
    entryLoop conf rounds s = none := by
  induction rounds generalizing s with
  | zero => rfl
  | succ rounds ih =>
    have hlt : s.p < confLength conf := by
      by_contra hge
      exact h ⟨[], .done (Nat.le_of_not_lt hge)⟩
    rw [entryLoop, if_pos hlt]
    refine ih ?_
    rintro ⟨l, hl⟩
    rw [entryStep_p] at hl
    cases hk : entrySize (conf s.p) with
    | none => exact h ⟨l, by rwa [hk] at hl⟩
    | some k => exact h ⟨s.p :: l, .entry hlt hk (by rwa [hk] at hl)⟩

/-- The two ways in which `mpinit` is meant to end for a table that `mpconfig` accepts. -/
def Ends (conf : Bytes) : Except Panic (State × Bool) → Prop
  | .error e => e = .unsuitable
  | .ok (s, _) => confLength conf ≤ s.p ∧ s.ncpu ≤ maxCpus ∧
      ∃ l, Entries conf 44 l ∧ (List.range s.ncpu).map s.cpus = (apicids conf l).take maxCpus

/-- `mpinit` ends for the tables of known entries and goes round without end for the others. -/
theorem mpinit_ends_iff (conf : Bytes) (imcrp : Byte) (hconf : mpconfig conf = true) :
    ((∃ rounds r, mpinit conf imcrp rounds = some r ∧ Ends conf r) ↔ ∃ l, Entries conf 44 l) ∧
      ((¬ ∃ l, Entries conf 44 l) → ∀ rounds, mpinit conf imcrp rounds = none) := by
  have hruns (h : ¬ ∃ l, Entries conf 44 l) (rounds : Nat) : mpinit conf imcrp rounds = none := by
    have hloop : entryLoop conf rounds (start conf) = none := entryLoop_runs h rounds
    rw [mpinit, if_pos hconf, hloop, Option.map_none]
  refine ⟨⟨?_, ?_⟩, hruns⟩
  · rintro ⟨rounds, r, hr, -⟩
    by_contra hno
    rw [hruns hno] at hr
    cases hr
  · rintro ⟨l, hl⟩
    obtain ⟨rounds, t, hrun, hend, hrec⟩ :=
      hl.loop (s := start conf) rfl (⟨rfl, rfl⟩ : Records (start conf) [])
    refine ⟨rounds, .ok (t, imcrp ≠ 0), ?_, hend, ?_, l, hl, hrec.cpus⟩
    · rw [mpinit, if_pos hconf, hrun, Option.map_some, if_pos hrec.ismp]
    · rw [hrec.ncpu]
      exact Nat.min_le_left ..

def table (check : Byte) (entries : List Byte) : Bytes := fun i =>
  ([80, 67, 77, 80, BitVec.ofNat 8 (44 + entries.length), 0, 4, check] ++ List.replicate 36 0 ++
    entries).getD i 0

def busAndProcessor : Bytes := table 128 (1 :: List.replicate 8 0 ++ 3 :: List.replicate 18 0)

theorem mpinit_ends_iff_processor :
    ∃ rounds r, mpinit busAndProcessor 0 rounds = some r ∧ Ends busAndProcessor r :=
  (mpinit_ends_iff busAndProcessor 0 (by decide)).1.2
    ⟨[44, 52], .entry (by decide) rfl (.entry (by decide) rfl (.done (by decide)))⟩

/-- A single entry of the type 5. -/
theorem mpinit_unknown_type : mpconfig (table 154 [5]) = true ∧
    ∀ rounds, mpinit (table 154 [5]) 0 rounds = none := by
  have hconf : mpconfig (table 154 [5]) = true := by decide
  have hno : ¬ ∃ l, Entries (table 154 [5]) (start (table 154 [5])).p l := by
    rintro ⟨l, h⟩
    cases h with
    | done hle => exact absurd hle (by decide)
    | entry _ hk _ => cases (show none = some _ from hk)
  refine ⟨hconf, fun rounds => ?_⟩
  rw [mpinit, if_pos hconf, entryLoop_runs hno, Option.map_none]

end Xv6Signals.Mp
