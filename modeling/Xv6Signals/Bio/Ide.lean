import Xv6Signals.Bio.Cache

namespace Xv6Signals.Bio
open Lib Function List Option

structure Command where
  drive : Bool
  sector : Nat
  data : Option Block

inductive Stage
  | idle | asleep | woken
  deriving DecidableEq

inductive IdePanic
  | notLocked | nothingToDo | noDisk1 | idestart | incorrectBlockno | notForDisk1 | outOfRange
  -- no panic: the wait for a disk that has a command to do
  | busy

/-- The driver and the disk. The queue is the thread from the node `none`, which stands for
`idequeue`, through the fields `qnext`. A disk that has done its command has raised the interrupt.
The lists record the calls, the commands and the completions. -/
structure Ide where
  buf : BufId → Buf
  next : Option BufId → Option BufId
  stage : BufId → Stage
  havedisk1 : Bool
  disk : Bool → Nat → Block
  command : Option Command
  result : Option Block
  queued : List BufId
  issued : List BufId
  completed : List BufId

/-- What is written to the registers: they have 28 bits of the sector. -/
def commandFor (x : Buf) : Command :=
  ⟨x.dev &&& 1 = 1, x.blockno.toNat % 2 ^ 28, if x.dirty then some x.data else none⟩

def Ide.idestart (s : Ide) (b : Option BufId) : Except IdePanic Ide :=
  match b with
  | none => .error .idestart
  | some b =>
    if 1000 ≤ (s.buf b).blockno.toNat then .error .incorrectBlockno
    else if s.command.isSome then .error .busy
    else .ok { s with command := some (commandFor (s.buf b)), issued := s.issued ++ [b] }

def Ide.wait (s : Ide) (b : BufId) : Ide :=
  let stage := if (s.buf b).valid = true ∧ (s.buf b).dirty = false then Stage.idle else .asleep
  { s with stage := update s.stage b stage }

def Ide.enqueue (s : Ide) (b : BufId) : Ide :=
  let next := update s.next (some b) none
  { s with
    next := update next (seekLast next none 30 none) (some b)
    queued := s.queued ++ [b] }

def Ide.iderw (s : Ide) (b : BufId) : Except IdePanic Ide :=
  if (s.buf b).locked = false then .error .notLocked
  else if (s.buf b).valid = true ∧ (s.buf b).dirty = false then .error .nothingToDo
  else if (s.buf b).dev ≠ 0 ∧ s.havedisk1 = false then .error .noDisk1
  else if (s.enqueue b).next none = some b then
    ((s.enqueue b).idestart (some b)).map fun t => t.wait b
  else .ok ((s.enqueue b).wait b)

def Buf.finish (x : Buf) (r : Block) : Buf :=
  { if x.dirty then x else { x with data := r } with valid := true, dirty := false }

def Ide.wakeup (s : Ide) (b : BufId) : Ide :=
  { s with stage := if s.stage b = .asleep then update s.stage b .woken else s.stage }

def Ide.complete (s : Ide) (b : BufId) (r : Block) : Ide :=
  Ide.wakeup { s with
    next := update s.next none (s.next (some b))
    buf := update s.buf b ((s.buf b).finish r)
    completed := s.completed ++ [b] } b

def Ide.ideintr (s : Ide) (r : Block) : Except IdePanic Ide :=
  match s.next none with
  | none => .ok s
  | some b =>
    if (s.complete b r).next none ≠ none then
      (s.complete b r).idestart ((s.complete b r).next none)
    else .ok (s.complete b r)

def Command.run (c : Command) (disk : Bool → Nat → Block) : Bool → Nat → Block :=
  match c.data with
  | some d => update disk c.drive (update (disk c.drive) c.sector d)
  | none => disk

structure Memide where
  buf : BufId → Buf
  memdisk : Nat → Block

def Memide.iderw (m : Memide) (b : BufId) : Except IdePanic Memide :=
  if (m.buf b).locked = false then .error .notLocked
  else if (m.buf b).valid = true ∧ (m.buf b).dirty = false then .error .nothingToDo
  else if (m.buf b).dev ≠ 1 then .error .notForDisk1
  else if 1000 ≤ (m.buf b).blockno.toNat then .error .outOfRange
  else if (m.buf b).dirty then
    .ok ⟨update m.buf b { m.buf b with dirty := false, valid := true },
      update m.memdisk (m.buf b).blockno.toNat (m.buf b).data⟩
  else
    .ok ⟨update m.buf b { m.buf b with
      data := m.memdisk (m.buf b).blockno.toNat, valid := true }, m.memdisk⟩

inductive IdeOp
  | hold (b : BufId) (x : Buf)
  | iderw (b : BufId)
  | disk
  | ideintr
  | resume (b : BufId)

/-- The disk raises one interrupt for each command, and there is one call for a buffer at a time. -/
def ideMachine (buf : BufId → Buf) (disk : Bool → Nat → Block) : Machine Ide IdeOp where
  init := fun s => ∃ qnext, s = ⟨buf, update qnext none none, fun _ => .idle, true, disk,
    none, none, [], [], []⟩
  next := fun s op =>
    match op with
    | .hold b x =>
      if s.stage b = .idle then some { s with buf := update s.buf b x } else none
    | .iderw b => if s.stage b = .idle then (s.iderw b).toOption else none
    | .disk =>
      match s.command, s.result with
      | some c, none => some { s with
          disk := c.run s.disk, result := some (c.run s.disk c.drive c.sector) }
      | _, _ => none
    | .ideintr =>
      match s.result with
      | some r => (Ide.ideintr { s with command := none, result := none } r).toOption
      | none => none
    | .resume b => if s.stage b = .woken then some (s.wait b) else none

/-- The calls are for buffers of disk 1 that are locked, with blocks of the file system. -/
def IdeOp.proper (s : Ide) : IdeOp → Prop
  | .iderw b => (s.buf b).locked = true ∧ (s.buf b).dev = 1 ∧ (s.buf b).blockno.toNat < 1000
  | _ => True

instance decidableProper (s : Ide) : (op : IdeOp) → Decidable (op.proper s)
  | .iderw _ => inferInstanceAs (Decidable (_ ∧ _))
  | .hold _ _ => .isTrue trivial
  | .disk => .isTrue trivial
  | .ideintr => .isTrue trivial
  | .resume _ => .isTrue trivial

def Memide.update (m : Memide) (s : Ide) : IdeOp → Memide
  | .hold b x => { m with buf := Function.update m.buf b x }
  | .ideintr =>
    match s.next none with
    | some b =>
      match m.iderw b with
      | .ok m => m
      | .error _ => m
    | none => m
  | _ => m

def bothMachine (buf : BufId → Buf) (disk : Bool → Nat → Block) : Machine (Ide × Memide) IdeOp :=
  (ideMachine buf disk).track ⟨buf, disk true⟩ Memide.update

variable {s t : Ide} {m : Memide} {q : List BufId} {b : BufId} {x : Buf} {r : Block} {c : Command}
  {buf : BufId → Buf}

structure Request (x : Buf) : Prop where
  locked : x.locked = true
  dev : x.dev = 1
  blockno : x.blockno.toNat < 1000
  todo : ¬ (x.valid = true ∧ x.dirty = false)

structure Queue (s : Ide) (q : List BufId) : Prop where
  nodup : q.Nodup
  thread : Threaded s.next (none :: q.map some) none
  queued : s.queued = s.completed ++ q
  issued : s.issued = s.completed ++ q.take 1
  command : s.command = q.head?.map fun b => commandFor (s.buf b)
  result : s.command = none → s.result = none
  asleep : ∀ b, s.stage b = .asleep ↔ b ∈ q
  request : ∀ b ∈ q, Request (s.buf b)
  woken : ∀ b, s.stage b = .woken → (s.buf b).valid = true ∧ (s.buf b).dirty = false
  havedisk1 : s.havedisk1 = true

/-- The buffers are the same for the other driver, and so is the disk, except for a write that is
done but for its interrupt. -/
structure Agrees (s : Ide) (m : Memide) : Prop where
  buf : m.buf = s.buf
  disk : s.result = none → s.disk true = m.memdisk
  result : ∀ r c, s.result = some r → s.command = some c →
    s.disk true = (c.data.elim m.memdisk fun d => update m.memdisk c.sector d) ∧
      (c.data = none → r = m.memdisk c.sector)

theorem Queue.length_le (h : Queue s q) : q.length ≤ 30 := by
  have hsub := subperm_of_subset h.nodup fun i _ => mem_finRange i
  exact hsub.length_le.trans_eq (length_finRange ..)

theorem Queue.nodup_nodes (h : Queue s q) : (none :: q.map some).Nodup := by
  refine nodup_cons.2 ⟨?_, h.nodup.map (some_injective _)⟩
  simp

theorem Queue.next_none (h : Queue s q) : s.next none = (q.map some).headD none := h.thread.1

theorem Queue.append (h : Queue s q) (hb : b ∉ q) :
    Threaded (update (update s.next (some b) none)
      (seekLast (update s.next (some b) none) none 30 none) (some b))
      (none :: (q ++ [b]).map some) none := by
  have hmem : some b ∉ none :: q.map some := by simpa using hb
  have hnd := h.nodup_nodes
  have hthread : Threaded (update s.next (some b) none) (none :: q.map some) none := by
    refine h.thread.congr fun y hy => update_of_ne ?_ ..
    rintro rfl
    exact hmem hy
  have hnone : (none : Option BufId) ∉ q.map some := by simp
  have hlen : (q.map some).length ≤ 30 := by
    rw [length_map]
    exact h.length_le
  obtain ⟨l, hl⟩ := hthread.seekLast_eq hnone hlen
  generalize seekLast (update s.next (some b) none) none 30 none = pp at hl ⊢
  rw [hl] at hthread hmem hnd
  have hlast : update s.next (some b) none pp = none := (threaded_append.1 hthread).2.1
  have hins := hthread.insert hnd hmem
  rw [hlast, update_idem] at hins
  rw [map_append, ← cons_append, hl, append_assoc]
  exact hins

theorem Queue.tail (h : Queue s (b :: q)) :
    Threaded (update s.next none (s.next (some b))) (none :: q.map some) none := by
  have hthread : Threaded s.next ([] ++ none :: some b :: q.map some) none := h.thread
  exact hthread.unlink h.nodup_nodes

theorem idestart_eq (hx : (s.buf b).blockno.toNat < 1000) (hc : s.command = none) :
    s.idestart (some b) =
      .ok { s with command := some (commandFor (s.buf b)), issued := s.issued ++ [b] } := by
  unfold Ide.idestart
  rw [hc]
  exact (if_neg (Nat.not_le.2 hx)).trans (if_neg Bool.false_ne_true)

theorem wait_todo (h : ¬ ((s.buf b).valid = true ∧ (s.buf b).dirty = false)) :
    s.wait b = { s with stage := update s.stage b .asleep } := by
  unfold Ide.wait
  rw [if_neg h]

theorem wait_done (h : (s.buf b).valid = true ∧ (s.buf b).dirty = false) :
    s.wait b = { s with stage := update s.stage b .idle } := by
  unfold Ide.wait
  rw [if_pos h]

theorem todo_of_iderw (h : s.iderw b = .ok t) :
    ¬ ((s.buf b).valid = true ∧ (s.buf b).dirty = false) := by
  intro hdone
  unfold Ide.iderw at h
  rw [if_pos hdone] at h
  split at h
  · cases h
  · cases h

theorem Queue.iderw (h : Queue s q) (hidle : s.stage b = .idle) (hb : Request (s.buf b)) :
    ∃ t, s.iderw b = .ok t ∧ Queue t (q ++ [b]) ∧ t.buf = s.buf ∧ t.disk = s.disk ∧
      t.result = s.result ∧ ∀ c, s.command = some c → t.command = some c := by
  have hnot : b ∉ q := fun hm => by
    rw [(h.asleep b).2 hm] at hidle
    cases hidle
  obtain ⟨u, hu⟩ : ∃ u, u = s.enqueue b := ⟨_, rfl⟩
  have hthread : Threaded u.next (none :: (q ++ [b]).map some) none := hu ▸ h.append hnot
  have hgo : s.iderw b = if u.next none = some b then (u.idestart (some b)).map fun t => t.wait b
      else .ok (u.wait b) := by
    unfold Ide.iderw
    rw [if_neg (by rw [hb.locked]; decide), if_neg hb.todo,
      if_neg (by rw [h.havedisk1]; exact fun he => Bool.noConfusion he.2), ← hu]
  have hasleep (b' : BufId) : update s.stage b .asleep b' = .asleep ↔ b' ∈ q ++ [b] := by
    rw [mem_append, mem_singleton, ← h.asleep]
    by_cases he : b' = b
    · rw [he, update_self]
      exact ⟨fun _ => .inr rfl, fun _ => rfl⟩
    · rw [update_of_ne he]
      exact ⟨.inl, fun hm => hm.resolve_right he⟩
  have hwoken (b' : BufId) (hw : update s.stage b .asleep b' = .woken) :
      (s.buf b').valid = true ∧ (s.buf b').dirty = false := by
    by_cases he : b' = b
    · rw [he, update_self] at hw
      cases hw
    · rw [update_of_ne he] at hw
      exact h.woken b' hw
  have hrequest (b' : BufId) (hm : b' ∈ q ++ [b]) : Request (s.buf b') := by
    rcases mem_append.1 hm with hm | hm
    · exact h.request b' hm
    · rwa [mem_singleton.1 hm]
  have hnodup : (q ++ [b]).Nodup := by
    rw [nodup_append_comm]
    exact nodup_cons.2 ⟨hnot, h.nodup⟩
  have hqueued : s.queued ++ [b] = s.completed ++ (q ++ [b]) := by
    rw [h.queued, append_assoc]
  have hissued := h.issued
  have hcommand := h.command
  have hbuf : u.buf = s.buf := by rw [hu]; rfl
  have htodo : ¬ ((u.buf b).valid = true ∧ (u.buf b).dirty = false) := by
    rw [hbuf]
    exact hb.todo
  rw [hgo]
  cases q with
  | nil =>
    have hfirst : u.next none = some b := hthread.1
    refine ⟨{ u with
      command := some (commandFor (u.buf b))
      issued := u.issued ++ [b]
      stage := update u.stage b .asleep }, ?_, ?_, hbuf, ?_, ?_, fun c hc => ?_⟩
    · rw [if_pos hfirst, idestart_eq (by rw [hbuf]; exact hb.blockno) (by rw [hu]; exact hcommand)]
      exact congrArg Except.ok (wait_todo htodo)
    · subst hu
      refine ⟨hnodup, hthread, hqueued, ?_, rfl, fun he => (some_ne_none _ he).elim, hasleep,
        hrequest, hwoken, h.havedisk1⟩
      show s.issued ++ [b] = _
      rw [hissued]
      simp only [take_nil, append_nil, nil_append, take_succ_cons]
      rfl
    · rw [hu]
      rfl
    · rw [hu]
      rfl
    · rw [hcommand] at hc
      cases hc
  | cons a q =>
    have hfirst : u.next none = some a := hthread.1
    have hne : u.next none ≠ some b := by
      rw [hfirst]
      intro he
      exact hnot (Option.some.inj he ▸ mem_cons_self)
    refine ⟨_, if_neg hne, ?_, ?_, ?_, ?_, fun c hc => ?_⟩
    · rw [wait_todo htodo]
      subst hu
      exact ⟨hnodup, hthread, hqueued, hissued, hcommand, h.result, hasleep, hrequest, hwoken,
        h.havedisk1⟩
    all_goals rw [wait_todo htodo, hu]
    · rfl
    · rfl
    · rfl
    · exact hc

theorem Queue.ideintr (h : Queue s (b :: q)) (r : Block) :
    ∃ t, Ide.ideintr { s with command := none, result := none } r = .ok t ∧ Queue t q ∧
      t.buf = update s.buf b ((s.buf b).finish r) ∧ t.disk = s.disk ∧ t.result = none ∧
      t.completed = s.completed ++ [b] := by
  obtain ⟨hnot, hnodup⟩ := nodup_cons.1 h.nodup
  have hthread := h.tail
  have hfirst := hthread.1
  have hasleep : s.stage b = .asleep := (h.asleep b).2 mem_cons_self
  generalize hnext : update s.next none (s.next (some b)) = next at hthread hfirst
  obtain ⟨u, hu⟩ : ∃ u : Ide, u = { s with
      next := next
      buf := update s.buf b ((s.buf b).finish r)
      stage := update s.stage b .woken
      completed := s.completed ++ [b]
      command := none
      result := none } := ⟨_, rfl⟩
  have hcomplete : Ide.complete { s with command := none, result := none } b r = u := by
    rw [hu, Ide.complete, Ide.wakeup]
    dsimp only
    rw [if_pos hasleep, hnext]
  have hgo : Ide.ideintr { s with command := none, result := none } r =
      if u.next none ≠ none then u.idestart (u.next none) else .ok u := by
    have hhead : s.next none = some b := h.next_none
    unfold Ide.ideintr
    dsimp only
    rw [hhead]
    dsimp only
    rw [hcomplete]
  have hbuf (b' : BufId) (hm : b' ∈ q) : update s.buf b ((s.buf b).finish r) b' = s.buf b' := by
    refine update_of_ne ?_ ..
    rintro rfl
    exact hnot hm
  have hstage (b' : BufId) : update s.stage b .woken b' = .asleep ↔ b' ∈ q := by
    by_cases he : b' = b
    · rw [he, update_self]
      exact ⟨fun hs => Stage.noConfusion hs, fun hm => (hnot hm).elim⟩
    · rw [update_of_ne he, h.asleep, mem_cons]
      exact ⟨fun hm => hm.resolve_left he, .inr⟩
  have hrequest (b' : BufId) (hm : b' ∈ q) : Request (update s.buf b ((s.buf b).finish r) b') := by
    rw [hbuf b' hm]
    exact h.request b' (mem_cons_of_mem b hm)
  have hwoken (b' : BufId) (hw : update s.stage b .woken b' = .woken) :
      (update s.buf b ((s.buf b).finish r) b').valid = true ∧
        (update s.buf b ((s.buf b).finish r) b').dirty = false := by
    by_cases he : b' = b
    · rw [he, update_self]
      exact ⟨rfl, rfl⟩
    · rw [update_of_ne he] at hw ⊢
      exact h.woken b' hw
  have hqueued : s.queued = s.completed ++ [b] ++ q := by
    rw [h.queued, append_assoc, singleton_append]
  have hissued : s.issued = s.completed ++ [b] := h.issued
  rw [hgo]
  cases q with
  | nil =>
    have hfirst : u.next none = none := by rw [hu]; exact hfirst
    refine ⟨u, if_neg (not_not_intro hfirst), ?_, ?_, ?_, ?_, ?_⟩
    · subst hu
      refine ⟨hnodup, hthread, hqueued, ?_, rfl, fun _ => rfl, hstage, hrequest, hwoken, h.havedisk1⟩
      rw [take_nil, append_nil]
      exact hissued
    all_goals rw [hu]
  | cons a q =>
    have hfirst : u.next none = some a := by rw [hu]; exact hfirst
    refine ⟨{ u with command := some (commandFor (u.buf a)), issued := u.issued ++ [a] }, ?_, ?_, ?_,
      ?_, ?_, ?_⟩
    · rw [hfirst, if_pos (some_ne_none a)]
      refine idestart_eq ?_ ?_
      · rw [hu]
        exact (hrequest a mem_cons_self).blockno
      · rw [hu]
    · subst hu
      refine ⟨hnodup, hthread, hqueued, ?_, rfl, fun _ => rfl, hstage, hrequest, hwoken, h.havedisk1⟩
      show s.issued ++ [a] = _
      rw [hissued]
      rfl
    all_goals rw [hu]

theorem commandFor_drive (hx : Request x) : (commandFor x).drive = true := by
  show decide (x.dev &&& 1 = 1) = true
  rw [hx.dev]
  decide

theorem commandFor_sector (hx : Request x) : (commandFor x).sector = x.blockno.toNat := by
  have := hx.blockno
  rw [commandFor]
  exact Nat.mod_eq_of_lt (by omega)

theorem finish_dirty (hd : x.dirty = true) (r : Block) :
    x.finish r = { x with dirty := false, valid := true } := by
  unfold Buf.finish
  rw [if_pos hd]

theorem finish_clean (hd : x.dirty = false) (r : Block) :
    x.finish r = { x with data := r, valid := true } := by
  obtain ⟨dev, blockno, valid, dirty, refcnt, locked, data⟩ := x
  cases hd
  rfl

/-- The other driver, called when the first request is completed, does to the buffer and to the disk
what was done here. -/
theorem Agrees.iderw (ha : Agrees s m) (h : Queue s (b :: q)) (hr : s.result = some r) :
    m.iderw b = .ok ⟨update s.buf b ((s.buf b).finish r), s.disk true⟩ := by
  have hx := h.request b mem_cons_self
  have hcommand : s.command = some (commandFor (s.buf b)) := h.command
  obtain ⟨hdisk, hread⟩ := ha.result r _ hr hcommand
  rw [commandFor_sector hx] at hdisk hread
  unfold Memide.iderw
  rw [ha.buf, if_neg (by rw [hx.locked]; decide), if_neg hx.todo, if_neg (not_not_intro hx.dev),
    if_neg (Nat.not_le.2 hx.blockno)]
  cases hd : (s.buf b).dirty with
  | true =>
    have hdata : (commandFor (s.buf b)).data = some (s.buf b).data := if_pos hd
    rw [hdata] at hdisk
    rw [if_pos rfl, finish_dirty hd, hdisk]
    rfl
  | false =>
    have hdata : (commandFor (s.buf b)).data = none := if_neg (by rw [hd]; decide)
    rw [hdata] at hdisk
    rw [if_neg (by decide), finish_clean hd, hdisk, hread hdata]
    rfl

structure Both (s : Ide) (m : Memide) : Prop where
  queue : ∃ q, Queue s q
  agrees : Agrees s m

theorem Both.hold (h : Both s m) (hidle : s.stage b = .idle) (x : Buf) :
    Both { s with buf := update s.buf b x }
      { m with buf := update m.buf b x } := by
  obtain ⟨⟨q, hq⟩, ha⟩ := h
  have hother (b' : BufId) (hb : s.stage b' ≠ .idle) : update s.buf b x b' = s.buf b' := by
    refine update_of_ne ?_ ..
    rintro rfl
    exact hb hidle
  have hin (b' : BufId) (hb : b' ∈ q) : update s.buf b x b' = s.buf b' := by
    refine hother b' ?_
    rw [(hq.asleep b').2 hb]
    decide
  refine ⟨⟨q, hq.nodup, hq.thread, hq.queued, hq.issued, ?_, hq.result, hq.asleep, fun b' hb => ?_,
    fun b' hb => ?_, hq.havedisk1⟩, congrArg (update · b x) ha.buf, ha.disk, ha.result⟩
  · have hcommand := hq.command
    cases q with
    | nil => exact hcommand
    | cons a q =>
      show s.command = some (commandFor (update s.buf b x a))
      rw [hin a mem_cons_self]
      exact hcommand
  · show Request (update s.buf b x b')
    rw [hin b' hb]
    exact hq.request b' hb
  · show (update s.buf b x b').valid = true ∧ (update s.buf b x b').dirty = false
    rw [hother b' (by rw [hb]; decide)]
    exact hq.woken b' hb

theorem Both.iderw (h : Both s m) (hidle : s.stage b = .idle) (hb : Request (s.buf b))
    (ht : s.iderw b = .ok t) : Both t m := by
  obtain ⟨⟨q, hq⟩, ha⟩ := h
  obtain ⟨u, hu, hqu, hbuf, hdisk, hresult, hcommand⟩ := hq.iderw hidle hb
  rw [hu] at ht
  cases ht
  refine ⟨⟨_, hqu⟩, ?_, ?_, fun r c hr hc => ?_⟩
  · rw [hbuf]
    exact ha.buf
  · rw [hresult, hdisk]
    exact ha.disk
  rw [hresult] at hr
  rw [hdisk]
  cases hs : s.command with
  | none =>
    rw [hq.result hs] at hr
    cases hr
  | some c' =>
    rw [hcommand c' hs] at hc
    cases hc
    exact ha.result r c hr hs

theorem Both.disk (h : Both s m) (hc : s.command = some c) (hr : s.result = none) :
    Both { s with disk := c.run s.disk, result := some (c.run s.disk c.drive c.sector) } m := by
  obtain ⟨⟨q, hq⟩, ha⟩ := h
  have hdisk := ha.disk hr
  have hdrive : c.drive = true := by
    have hcommand := hq.command
    cases q with
    | nil =>
      rw [hc] at hcommand
      cases hcommand
    | cons a q =>
      rw [hc] at hcommand
      cases hcommand
      exact commandFor_drive (hq.request a mem_cons_self)
  refine ⟨⟨q, hq.nodup, hq.thread, hq.queued, hq.issued, hq.command, fun he => ?_, hq.asleep,
    hq.request, hq.woken, hq.havedisk1⟩, ha.buf, fun he => ?_, fun r c' he hc' => ?_⟩
  · rw [hc] at he
    cases he
  · cases he
  cases hc.symm.trans hc'
  cases he
  unfold Command.run
  cases c.data with
  | none =>
    refine ⟨hdisk, fun _ => ?_⟩
    show s.disk c.drive c.sector = m.memdisk c.sector
    rw [hdrive, hdisk]
  | some d =>
    refine ⟨?_, fun hd => by cases hd⟩
    show update s.disk c.drive _ true = update m.memdisk c.sector d
    rw [hdrive, update_self, hdisk]

theorem Both.ideintr (h : Both s m) (hr : s.result = some r) : ∃ b t, s.next none = some b ∧
    Ide.ideintr { s with command := none, result := none } r = .ok t ∧
    m.iderw b = .ok ⟨t.buf, t.disk true⟩ ∧ t.completed = s.completed ++ [b] ∧ t.result = none ∧
    Both t ⟨t.buf, t.disk true⟩ := by
  obtain ⟨⟨q, hq⟩, ha⟩ := h
  cases q with
  | nil =>
    rw [hq.result hq.command] at hr
    cases hr
  | cons b q =>
    obtain ⟨t, ht, hqt, hbuf, hdisk, hresult, hcompleted⟩ := hq.ideintr r
    refine ⟨b, t, hq.next_none, ht, ?_, hcompleted, hresult, ⟨q, hqt⟩, rfl, fun _ => rfl, ?_⟩
    · rw [ha.iderw hq hr, hbuf, hdisk]
    · intro r' c hr' _
      rw [hresult] at hr'
      cases hr'

theorem Both.resume (h : Both s m) (hb : s.stage b = .woken) :
    (s.wait b).stage b = .idle ∧ Both (s.wait b) m := by
  obtain ⟨⟨q, hq⟩, ha⟩ := h
  rw [wait_done (hq.woken b hb)]
  refine ⟨update_self .., ⟨q, hq.nodup, hq.thread, hq.queued, hq.issued, hq.command,
    hq.result, fun b' => ?_, hq.request, fun b' hb' => ?_, hq.havedisk1⟩, ha.buf, ha.disk, ha.result⟩
  · rw [← hq.asleep]
    show update s.stage b .idle b' = .asleep ↔ _
    by_cases he : b' = b
    · rw [he, update_self, hb]
      exact ⟨fun hs => Stage.noConfusion hs, fun hs => Stage.noConfusion hs⟩
    · rw [update_of_ne he]
  · have hb' : update s.stage b .idle b' = .woken := hb'
    by_cases he : b' = b
    · rw [he, update_self] at hb'
      cases hb'
    · rw [update_of_ne he] at hb'
      exact hq.woken b' hb'

theorem both_of_reach {disk : Bool → Nat → Block} {p : Ide × Memide}
    (h : (bothMachine buf disk).Reach (fun p => IdeOp.proper p.1) p) : Both p.1 p.2 := by
  refine Machine.Reach.invariant (P := fun p => Both p.1 p.2) h ?_ ?_
  · rintro ⟨s, m⟩ ⟨⟨qnext, hs⟩, hm⟩
    dsimp only at hs hm ⊢
    subst hs hm
    have hempty : update qnext none none none = none := update_self ..
    refine ⟨⟨[], nodup_nil, ⟨hempty, trivial⟩, rfl, rfl, rfl, fun _ => rfl,
      fun b => ?_, fun b hb => (not_mem_nil hb).elim, fun b hb => ?_, rfl⟩, rfl, fun _ => rfl,
      fun r c hr _ => ?_⟩
    · exact ⟨fun hs => Stage.noConfusion hs, fun hb => (not_mem_nil hb).elim⟩
    · cases hb
    · cases hr
  rintro ⟨s, m⟩ op ⟨t, m'⟩ - hs hok hn
  dsimp only at hs hok ⊢
  obtain ⟨u, hu, he⟩ := map_eq_some_iff.1 hn
  cases he
  dsimp only at hu ⊢
  cases op with
  | hold b x =>
    simp only [ideMachine, ite_none_right_eq_some, Option.some.injEq] at hu
    obtain ⟨hidle, rfl⟩ := hu
    exact hs.hold hidle x
  | iderw b =>
    simp only [ideMachine, ite_none_right_eq_some] at hu
    obtain ⟨hidle, hu⟩ := hu
    obtain ⟨hlocked, hdev, hblockno⟩ := hok
    cases ht : s.iderw b with
    | error e =>
      rw [ht] at hu
      cases hu
    | ok t =>
      rw [ht] at hu
      cases hu
      exact hs.iderw hidle ⟨hlocked, hdev, hblockno, todo_of_iderw ht⟩ ht
  | disk =>
    simp only [ideMachine] at hu
    split at hu
    · rename_i c hc hr
      cases hu
      exact hs.disk hc hr
    · cases hu
  | ideintr =>
    simp only [ideMachine] at hu
    split at hu
    · rename_i r hr
      obtain ⟨b, t, hhead, ht, hm, -, -, hboth⟩ := hs.ideintr hr
      rw [ht] at hu
      cases hu
      have hm' : m.update s .ideintr = ⟨t.buf, t.disk true⟩ := by
        simp only [Memide.update, hhead, hm]
      rw [hm']
      exact hboth
    · cases hu
  | resume b =>
    simp only [ideMachine, ite_none_right_eq_some, Option.some.injEq] at hu
    obtain ⟨hwoken, rfl⟩ := hu
    exact (hs.resume hwoken).2

/-- The driver with the queue refines the one with the disk in memory. The calls are served in the
order of the queue, in which no buffer is twice, the disk works for the first buffer of the queue
only, and the processes that sleep are those whose buffers are in the queue. The buffers and, after
every interrupt, the disk are those of the other driver, called when a request is completed. A call
panics for one driver if it does for the other, and a process that was woken returns. -/
theorem ide_refines_memide {disk : Bool → Nat → Block}
    (h : (bothMachine buf disk).Reach (fun p => IdeOp.proper p.1) (s, m)) :
    (∃ q : List BufId, q.Nodup ∧ Threaded s.next (none :: q.map some) none ∧
      s.queued = s.completed ++ q ∧ s.issued = s.completed ++ q.take 1 ∧
      s.command = q.head?.map (fun b => commandFor (s.buf b)) ∧
      ∀ b, s.stage b = .asleep ↔ b ∈ q) ∧
    m.buf = s.buf ∧ (s.result = none → s.disk true = m.memdisk) ∧
    (∀ b, s.stage b = .idle → IdeOp.proper s (.iderw b) →
      ((∃ t, s.iderw b = .ok t) ↔ ∃ m', m.iderw b = .ok m')) ∧
    (∀ r, s.result = some r → ∃ b t, s.next none = some b ∧
      Ide.ideintr { s with command := none, result := none } r = .ok t ∧
      m.iderw b = .ok ⟨t.buf, t.disk true⟩ ∧ t.completed = s.completed ++ [b] ∧ t.result = none) ∧
    ∀ b, s.stage b = .woken → (s.wait b).stage b = .idle := by
  have hboth : Both s m := both_of_reach h
  obtain ⟨⟨q, hq⟩, ha⟩ := id hboth
  refine ⟨⟨q, hq.nodup, hq.thread, hq.queued, hq.issued, hq.command, hq.asleep⟩, ha.buf, ha.disk,
    fun b hidle hb => ?_, fun r hr => ?_, fun b hb => (hboth.resume hb).1⟩
  · obtain ⟨hlocked, hdev, hblockno⟩ := hb
    constructor
    · rintro ⟨t, ht⟩
      unfold Memide.iderw
      rw [ha.buf, if_neg (by rw [hlocked]; decide), if_neg (todo_of_iderw ht),
        if_neg (not_not_intro hdev), if_neg (Nat.not_le.2 hblockno)]
      split
      · exact ⟨_, rfl⟩
      · exact ⟨_, rfl⟩
    · rintro ⟨m', hm⟩
      have htodo : ¬ ((s.buf b).valid = true ∧ (s.buf b).dirty = false) := by
        intro hdone
        unfold Memide.iderw at hm
        rw [ha.buf, if_neg (by rw [hlocked]; decide), if_pos hdone] at hm
        cases hm
      obtain ⟨t, ht, -⟩ := hq.iderw hidle ⟨hlocked, hdev, hblockno, htodo⟩
      exact ⟨t, ht⟩
  · obtain ⟨b, t, hhead, ht, hm, hc, hr, -⟩ := hboth.ideintr hr
    exact ⟨b, t, hhead, ht, hm, hc, hr⟩

def buf0 : BufId := ⟨0, by decide⟩

def buf1 : BufId := ⟨1, by decide⟩

def requests (b : BufId) : Buf := ⟨1, 5, false, decide (b = buf0), 1, true, fun _ => 7⟩

/-- The write and a read are queued; the write is done and the disk is reading. -/
theorem ide_refines_memide_two : ∃ (s : Ide) (m : Memide),
    (s.queued = [buf0, buf1] ∧ s.completed = [buf0] ∧ s.stage buf0 = .woken) ∧ m.buf = s.buf ∧
    ∀ r, s.result = some r → ∃ b t, s.next none = some b ∧
      Ide.ideintr { s with command := none, result := none } r = .ok t ∧
      m.iderw b = .ok ⟨t.buf, t.disk true⟩ ∧ t.completed = s.completed ++ [b] ∧ t.result = none := by
  have hinit : (bothMachine requests fun _ _ _ => 0).Reach (fun p => IdeOp.proper p.1)
      (⟨requests, update (fun _ => none) none none, fun _ => .idle, true, fun _ _ _ => 0,
        none, none, [], [], []⟩, ⟨requests, fun _ _ => 0⟩) := .init ⟨⟨_, rfl⟩, rfl⟩
  obtain ⟨⟨s, m⟩, hreach, hs⟩ := hinit.exists_run
    (P := fun p => p.1.queued = [buf0, buf1] ∧ p.1.completed = [buf0] ∧ p.1.stage buf0 = .woken)
    (l := [.iderw buf0, .iderw buf1, .disk, .ideintr, .disk]) (by decide +kernel) (by decide +kernel)
  have h := ide_refines_memide hreach
  exact ⟨s, m, hs, h.2.1, h.2.2.2.2.1⟩

end Xv6Signals.Bio
