import Xv6Signals.Bio.Ide

namespace Xv6Signals.Bio
open Lib Function List

/-- How far a process is with a buffer: it waits for the sleep-lock in `bget`, it has it, `bread`
has returned, `brelse` has given the lock back. Its changes are `saved` after `log_write` or
`bwrite`. -/
inductive UseStage
  | waiting | locked | holding (saved : Bool) | released
  deriving DecidableEq

structure Use where
  pid : Nat
  dev : Word
  blockno : Word
  buf : BufId
  stage : UseStage
  deriving DecidableEq

def Use.owns (u : Use) : Bool :=
  match u.stage with
  | .locked => true
  | .holding _ => true
  | _ => false

/-- The cache, the disk in memory and the uses in progress. For each block, `written` is what was
written to it last, and `logged` tells whether it has been logged and not been written to the disk
since. -/
structure Shared where
  cache : Bcache
  memdisk : Nat → Block
  uses : List Use
  written : Word → Word → Block
  logged : Word → Word → Bool

def Shared.setBuf (s : Shared) (i : BufId) (b : Buf) : Shared :=
  { s with cache := s.cache.setBuf i b }

def setAt {β : Type} (f : Word → Word → β) (dev blockno : Word) (x : β) : Word → Word → β :=
  fun d b => if d = dev ∧ b = blockno then x else f d b

def Shared.iderw (s : Shared) (i : BufId) : Option Shared :=
  match Memide.iderw ⟨s.cache.buf, s.memdisk⟩ i with
  | .ok m => some { s with cache := { s.cache with buf := m.buf }, memdisk := m.memdisk }
  | .error _ => none

inductive UseAct
  | acquire | fill | modify (data : Block) | logWrite | bwrite | unlock | drop

def Shared.act (s : Shared) (u : Use) (a : UseAct) : Option (Shared × Option UseStage) :=
  let b := s.cache.buf u.buf
  match u.stage, a with
  | .waiting, .acquire =>
    if b.locked then none else some (s.setBuf u.buf { b with locked := true }, some .locked)
  | .locked, .fill =>
    if b.valid then some (s, some (.holding true))
    else (s.iderw u.buf).map fun t => (t, some (.holding true))
  | .holding _, .modify data =>
    some ({ s.setBuf u.buf { b with data := data } with
      written := setAt s.written u.dev u.blockno data }, some (.holding false))
  | .holding _, .logWrite =>
    some ({ s.setBuf u.buf { b with dirty := true } with
      logged := setAt s.logged u.dev u.blockno true }, some (.holding true))
  | .holding _, .bwrite =>
    ((s.setBuf u.buf { b with dirty := true }).iderw u.buf).map fun t =>
      ({ t with logged := setAt s.logged u.dev u.blockno false }, some (.holding true))
  | .holding true, .unlock => some (s.setBuf u.buf { b with locked := false }, some .released)
  | .released, .drop => some ({ s with cache := s.cache.brelse u.buf }, none)
  | _, _ => none

inductive UseOp
  | bget (pid : Nat) (dev blockno : Word)
  | act (k : Nat) (a : UseAct)

/-- Any number of processes, each at any point of its own uses; a panic ends the run. A commit is a
process that copies blocks and calls `bwrite`. -/
def useMachine : Machine Shared UseOp where
  init := fun s => ∃ disk, s = ⟨binit, disk, [], fun _ b => disk b.toNat, fun _ _ => false⟩
  next := fun s op =>
    match op with
    | .bget pid dev blockno => (s.cache.bget dev blockno).map fun r =>
        { s with cache := r.2, uses := s.uses ++ [⟨pid, dev, blockno, r.1, .waiting⟩] }
    | .act k a =>
      match s.uses[k]? with
      | some u => (s.act u a).map fun r =>
          { r.1 with uses := match r.2 with
              | some stage => s.uses.set k { u with stage := stage }
              | none => s.uses.eraseIdx k }
      | none => none

variable {s t : Shared} {u : Use} {i j : BufId} {dev blockno : Word}

@[simp] theorem setAt_self {β : Type} (f : Word → Word → β) (x : β) :
    setAt f dev blockno x dev blockno = x :=
  if_pos ⟨rfl, rfl⟩

theorem setAt_of_ne {β : Type} (f : Word → Word → β) (x : β) {d b : Word}
    (h : ¬ (d = dev ∧ b = blockno)) : setAt f dev blockno x d b = f d b :=
  if_neg h

theorem iderw_eq (hr : s.iderw i = some t) : (s.cache.buf i).dev = 1 ∧
    t = if (s.cache.buf i).dirty then
        { s.setBuf i { s.cache.buf i with dirty := false, valid := true } with
          memdisk := update s.memdisk (s.cache.buf i).blockno.toNat (s.cache.buf i).data }
      else s.setBuf i { s.cache.buf i with
        data := s.memdisk (s.cache.buf i).blockno.toNat, valid := true } := by
  unfold Shared.iderw at hr
  split at hr
  · rename_i m hm
    cases hr
    unfold Memide.iderw at hm
    dsimp only at hm
    split at hm
    · cases hm
    split at hm
    · cases hm
    split at hm
    · cases hm
    refine ⟨not_not.1 ‹_›, ?_⟩
    split at hm
    · cases hm
    split at hm
    · cases hm
      rw [if_pos ‹_›]
      rfl
    · cases hm
      rw [if_neg ‹_›]
      rfl
  · cases hr

/-- The block of a buffer is not on the disk as it was last written, but it is in the buffer, which
stays until it has been written. -/
def Shared.keeps (s : Shared) (i : BufId) : Prop :=
  (s.cache.buf i).valid = true ∧
    ((s.cache.buf i).dirty = true ∨ ∃ u ∈ s.uses, u.buf = i ∧ u.stage = .holding false)

structure Tracked (s : Shared) : Prop where
  listed : ∃ l, Listed s.cache l
  refs : ∀ i, (s.cache.buf i).refcnt = s.uses.countP fun u => u.buf = i
  locks : ∀ i, s.uses.countP (fun u => u.buf = i ∧ u.owns) = (s.cache.buf i).locked.toNat
  named : ∀ u ∈ s.uses, (s.cache.buf u.buf).dev = u.dev ∧ (s.cache.buf u.buf).blockno = u.blockno
  opened : ∀ u ∈ s.uses, ∀ saved, u.stage = .holding saved → (s.cache.buf u.buf).valid = true
  unique : ∀ i j, (s.cache.buf i).dev ≠ 0 → (s.cache.buf i).dev = (s.cache.buf j).dev →
    (s.cache.buf i).blockno = (s.cache.buf j).blockno → i = j

structure Coherent (s : Shared) : Prop extends Tracked s where
  valid : ∀ i, (s.cache.buf i).dirty = true → (s.cache.buf i).valid = true
  dev : ∀ i, (s.cache.buf i).valid = true → (s.cache.buf i).dev = 1
  data : ∀ i, (s.cache.buf i).valid = true →
    (s.cache.buf i).data = s.written (s.cache.buf i).dev (s.cache.buf i).blockno
  disk : ∀ b : Word, s.memdisk b.toNat = s.written 1 b ∨
    ∃ i, (s.cache.buf i).dev = 1 ∧ (s.cache.buf i).blockno = b ∧ s.keeps i
  dirty : ∀ i, (s.cache.buf i).dirty = true →
    s.logged (s.cache.buf i).dev (s.cache.buf i).blockno = true
  logged : ∀ d b, s.logged d b = true →
    ∃ i, (s.cache.buf i).dev = d ∧ (s.cache.buf i).blockno = b ∧ (s.cache.buf i).dirty = true

section Goes

structure Goes (s t : Shared) (u : Use) (b : Buf) (stage : UseStage) : Prop where
  uses : ∃ xs ys, s.uses = xs ++ u :: ys ∧ t.uses = xs ++ { u with stage := stage } :: ys
  cache : t.cache = s.cache.setBuf u.buf b
  dev : b.dev = (s.cache.buf u.buf).dev
  blockno : b.blockno = (s.cache.buf u.buf).blockno
  refcnt : b.refcnt = (s.cache.buf u.buf).refcnt

variable {b : Buf} {stage : UseStage} {v : Use}

section

variable (g : Goes s t u b stage)
include g

theorem Goes.buf_self : t.cache.buf u.buf = b := by
  rw [g.cache, setBuf_self]

theorem Goes.buf_of_ne (hj : j ≠ u.buf) : t.cache.buf j = s.cache.buf j := by
  rw [g.cache, setBuf_of_ne hj]

theorem Goes.same (j : BufId) : (t.cache.buf j).dev = (s.cache.buf j).dev ∧
    (t.cache.buf j).blockno = (s.cache.buf j).blockno ∧
    (t.cache.buf j).refcnt = (s.cache.buf j).refcnt := by
  by_cases hj : j = u.buf
  · rw [hj, g.buf_self]
    exact ⟨g.dev, g.blockno, g.refcnt⟩
  · rw [g.buf_of_ne hj]
    exact ⟨rfl, rfl, rfl⟩

theorem Goes.mem : u ∈ s.uses ∧ { u with stage := stage } ∈ t.uses := by
  obtain ⟨xs, ys, hs, ht⟩ := g.uses
  rw [hs, ht]
  exact ⟨mem_append_right xs (mem_cons_self ..),
    mem_append_right xs (mem_cons_self ..)⟩

theorem Goes.mem_or (hv : v ∈ t.uses) : v = { u with stage := stage } ∨ v ∈ s.uses := by
  obtain ⟨xs, ys, hs, ht⟩ := g.uses
  rw [ht] at hv
  rw [hs]
  simp only [mem_append, mem_cons] at hv ⊢
  tauto

theorem Goes.mem_of_ne (hv : v ∈ s.uses) (hvu : v.buf ≠ u.buf) : v ∈ t.uses := by
  obtain ⟨xs, ys, hs, ht⟩ := g.uses
  rw [hs] at hv
  rw [ht]
  have hne : v ≠ u := fun he => hvu (congrArg Use.buf he)
  simp only [mem_append, mem_cons, hne, false_or] at hv ⊢
  tauto

theorem Goes.countP (p : Use → Bool) :
    t.uses.countP p + (p u).toNat = s.uses.countP p + (p { u with stage := stage }).toNat := by
  obtain ⟨xs, ys, hs, ht⟩ := g.uses
  rw [hs, ht]
  simp only [countP_append, countP_cons]
  cases p u <;> cases p { u with stage := stage } <;> simp <;> omega

end

theorem Tracked.goes (h : Tracked s) (g : Goes s t u b stage)
    (hlock : b.locked.toNat + u.owns.toNat =
      (s.cache.buf u.buf).locked.toNat + ({ u with stage := stage } : Use).owns.toNat)
    (hmono : (s.cache.buf u.buf).valid = true → b.valid = true)
    (hopen : ∀ saved, stage = .holding saved → b.valid = true) : Tracked t := by
  constructor
  case listed =>
    obtain ⟨l, hl⟩ := h.listed
    exact ⟨l, g.cache ▸ hl.setBuf u.buf b⟩
  case refs =>
    intro j
    have := g.countP fun v => v.buf = j
    rw [(g.same j).2.2, h.refs j]
    dsimp only at this
    omega
  case locks =>
    intro j
    have hcount := g.countP fun v => v.buf = j ∧ v.owns
    have hj := h.locks j
    by_cases hju : u.buf = j
    · subst hju
      rw [g.buf_self]
      simp only [true_and, Bool.decide_eq_true] at hcount
      omega
    · rw [g.buf_of_ne (Ne.symm hju)]
      simp only [hju, false_and, decide_false] at hcount
      omega
  case named =>
    intro v hv
    rw [(g.same v.buf).1, (g.same v.buf).2.1]
    rcases g.mem_or hv with rfl | hv
    · exact h.named u g.mem.1
    · exact h.named v hv
  case opened =>
    intro v hv saved hs
    rcases g.mem_or hv with rfl | hv
    · rw [g.buf_self]
      exact hopen saved hs
    have hold := h.opened v hv saved hs
    by_cases hj : v.buf = u.buf
    · rw [hj] at hold ⊢
      rw [g.buf_self]
      exact hmono hold
    · rwa [g.buf_of_ne hj]
  case unique =>
    intro i j hi hd hb
    rw [(g.same i).1] at hi hd
    rw [(g.same j).1] at hd
    rw [(g.same i).2.1, (g.same j).2.1] at hb
    exact h.unique i j hi hd hb

theorem Coherent.dev_ne_zero (h : Coherent s) (hv : (s.cache.buf i).valid = true) :
    (s.cache.buf i).dev ≠ 0 := by
  rw [h.dev i hv]
  decide

theorem Coherent.logged_eq (h : Coherent s) (hu : u ∈ s.uses) :
    s.logged u.dev u.blockno = (s.cache.buf u.buf).dirty := by
  obtain ⟨hud, hub⟩ := h.named u hu
  rw [Bool.eq_iff_iff]
  refine ⟨fun hl => ?_, fun hd => hud ▸ hub ▸ h.dirty u.buf hd⟩
  obtain ⟨j, hjd, hjb, hj⟩ := h.logged _ _ hl
  have hju := h.unique j u.buf (h.dev_ne_zero (h.valid j hj)) (hjd.trans hud.symm)
    (hjb.trans hub.symm)
  rwa [← hju]

theorem Coherent.goes (h : Coherent s) (g : Goes s t u b stage) (ht : Tracked t)
    (hvalid : b.dirty = true → b.valid = true) (hone : b.valid = true → u.dev = 1)
    (hdata : b.valid = true → b.data = t.written u.dev u.blockno)
    (hwritten : ∀ d c, ¬ (d = u.dev ∧ c = u.blockno) → t.written d c = s.written d c)
    (hmemdisk : ∀ c : Word, ¬ (1 = u.dev ∧ c = u.blockno) →
      t.memdisk c.toNat = s.memdisk c.toNat)
    (hdisk : u.dev = 1 → t.memdisk u.blockno.toNat = t.written 1 u.blockno ∨
      b.valid = true ∧ (b.dirty = true ∨ ∃ v ∈ t.uses, v.buf = u.buf ∧ v.stage = .holding false))
    (hlogged : ∀ d c, ¬ (d = u.dev ∧ c = u.blockno) → t.logged d c = s.logged d c)
    (hdirty : t.logged u.dev u.blockno = b.dirty) : Coherent t := by
  obtain ⟨hud, hub⟩ := h.named u g.mem.1
  have hself := g.buf_self
  have hdev := g.dev.trans hud
  have hblockno := g.blockno.trans hub
  -- the other buffers have other blocks
  have hpair {j : BufId} (hj : j ≠ u.buf) (hj0 : (s.cache.buf j).dev ≠ 0) :
      ¬ ((s.cache.buf j).dev = u.dev ∧ (s.cache.buf j).blockno = u.blockno) :=
    fun he => hj (h.unique j u.buf hj0 (he.1.trans hud.symm) (he.2.trans hub.symm))
  have hother {j : BufId} {d c : Word} (hc : ¬ (d = u.dev ∧ c = u.blockno))
      (hjd : (s.cache.buf j).dev = d) (hjb : (s.cache.buf j).blockno = c) : j ≠ u.buf := by
    rintro rfl
    exact hc ⟨hjd.symm.trans hud, hjb.symm.trans hub⟩
  refine { ht with valid := ?_, dev := ?_, data := ?_, disk := ?_, dirty := ?_, logged := ?_ }
  · intro j hj
    by_cases hju : j = u.buf
    · rw [hju, hself] at hj ⊢
      exact hvalid hj
    · rw [g.buf_of_ne hju] at hj ⊢
      exact h.valid j hj
  · intro j hj
    by_cases hju : j = u.buf
    · rw [hju, hself] at hj ⊢
      exact hdev.trans (hone hj)
    · rw [g.buf_of_ne hju] at hj ⊢
      exact h.dev j hj
  · intro j hj
    by_cases hju : j = u.buf
    · rw [hju, hself] at hj ⊢
      rw [hdev, hblockno]
      exact hdata hj
    · rw [g.buf_of_ne hju] at hj ⊢
      rw [hwritten _ _ (hpair hju (h.dev_ne_zero hj))]
      exact h.data j hj
  · intro c
    by_cases hc : 1 = u.dev ∧ c = u.blockno
    · obtain ⟨hu1, rfl⟩ := hc
      refine (hdisk hu1.symm).imp_right fun ⟨hv, hkeep⟩ => ⟨u.buf, ?_⟩
      unfold Shared.keeps
      rw [hself, hdev, hblockno]
      exact ⟨hu1.symm, rfl, hv, hkeep⟩
    rw [hmemdisk c hc, hwritten 1 c hc]
    refine (h.disk c).imp_right fun ⟨j, hjd, hjb, hjv, hkeep⟩ => ⟨j, ?_⟩
    have hju := hother hc hjd hjb
    unfold Shared.keeps
    rw [g.buf_of_ne hju]
    exact ⟨hjd, hjb, hjv, hkeep.imp_right fun ⟨v, hv, hvj, hst⟩ =>
      ⟨v, g.mem_of_ne hv (hvj ▸ hju), hvj, hst⟩⟩
  · intro j hj
    by_cases hju : j = u.buf
    · rw [hju, hself] at hj ⊢
      rw [hdev, hblockno, hdirty]
      exact hj
    · rw [g.buf_of_ne hju] at hj ⊢
      rw [hlogged _ _ (hpair hju (h.dev_ne_zero (h.valid j hj)))]
      exact h.dirty j hj
  · intro d c hdc
    by_cases hc : d = u.dev ∧ c = u.blockno
    · obtain ⟨rfl, rfl⟩ := hc
      refine ⟨u.buf, ?_⟩
      rw [hself]
      exact ⟨hdev, hblockno, hdirty.symm.trans hdc⟩
    rw [hlogged d c hc] at hdc
    obtain ⟨j, hjd, hjb, hj⟩ := h.logged d c hdc
    refine ⟨j, ?_⟩
    rw [g.buf_of_ne (hother hc hjd hjb)]
    exact ⟨hjd, hjb, hj⟩

theorem Coherent.disk_of_use (h : Coherent s) (hu : u ∈ s.uses) (hone : u.dev = 1) :
    s.memdisk u.blockno.toNat = s.written 1 u.blockno ∨ s.keeps u.buf := by
  obtain ⟨hud, hub⟩ := h.named u hu
  refine (h.disk u.blockno).imp_right fun ⟨j, hjd, hjb, hkeep⟩ => ?_
  have hju := h.unique j u.buf (h.dev_ne_zero hkeep.1) (hjd.trans (hud.trans hone).symm)
    (hjb.trans hub.symm)
  rwa [← hju]

theorem Coherent.relock (h : Coherent s) (g : Goes s t u b stage) (ht : Tracked t)
    (hvalid : b.valid = (s.cache.buf u.buf).valid) (hdirty : b.dirty = (s.cache.buf u.buf).dirty)
    (hdata : b.data = (s.cache.buf u.buf).data) (hwritten : t.written = s.written)
    (hmemdisk : t.memdisk = s.memdisk) (hlogged : t.logged = s.logged)
    (hstage : u.stage ≠ .holding false) : Coherent t := by
  obtain ⟨hu, hu'⟩ := g.mem
  obtain ⟨hud, hub⟩ := h.named u hu
  refine h.goes g ht ?_ ?_ ?_ (fun d c _ => by rw [hwritten]) (fun c _ => by rw [hmemdisk]) ?_
    (fun d c _ => by rw [hlogged]) ?_
  · rw [hvalid, hdirty]
    exact h.valid u.buf
  · rw [hvalid, ← hud]
    exact h.dev u.buf
  · rw [hvalid, hdata, hwritten, ← hud, ← hub]
    exact h.data u.buf
  · intro hone
    rw [hmemdisk, hwritten, hvalid, hdirty]
    refine (h.disk_of_use hu hone).imp_right fun hkeep => ⟨hkeep.1, hkeep.2.imp_right ?_⟩
    rintro ⟨v, hv, hvu, hst⟩
    obtain ⟨xs, ys, hs, ht⟩ := g.uses
    rw [hs] at hv
    have hne : v ≠ u := fun he => hstage (he ▸ hst)
    refine ⟨v, ?_, hvu, hst⟩
    rw [ht]
    simp only [mem_append, mem_cons, hne, false_or] at hv ⊢
    tauto
  · rw [hlogged, hdirty]
    exact h.logged_eq hu

end Goes

theorem uses_split {l : List Use} {k : Nat} (hk : l[k]? = some u) :
    ∃ xs ys, l = xs ++ u :: ys ∧ (∀ v, l.set k v = xs ++ v :: ys) ∧ l.eraseIdx k = xs ++ ys := by
  induction l generalizing k with
  | nil => cases hk
  | cons w l ih =>
    cases k with
    | zero =>
      cases hk
      exact ⟨[], l, rfl, fun _ => rfl, rfl⟩
    | succ k =>
      obtain ⟨xs, ys, hl, hset, herase⟩ := ih hk
      refine ⟨w :: xs, ys, congrArg (w :: ·) hl, fun v => congrArg (w :: ·) (hset v), ?_⟩
      exact congrArg (w :: ·) herase

section Act

variable {k : Nat} {saved : Bool} {data : Block}

section

variable (h : Coherent s)
include h

theorem Coherent.acquire (g : Goes s t u { s.cache.buf u.buf with locked := true } .locked)
    (hst : u.stage = .waiting) (hfree : (s.cache.buf u.buf).locked = false)
    (hw : t.written = s.written) (hm : t.memdisk = s.memdisk) (hl : t.logged = s.logged) :
    Coherent t := by
  refine h.relock g (h.toTracked.goes g ?_ id ?_) rfl rfl rfl hw hm hl ?_
  · rw [hfree, Use.owns, hst]
    rfl
  · intro saved he
    cases he
  · rw [hst]
    exact fun he => UseStage.noConfusion he

theorem Coherent.unlock (g : Goes s t u { s.cache.buf u.buf with locked := false } .released)
    (hst : u.stage = .holding true)
    (hw : t.written = s.written) (hm : t.memdisk = s.memdisk) (hl : t.logged = s.logged) :
    Coherent t := by
  have hown : u.owns = true := by rw [Use.owns, hst]
  refine h.relock g (h.toTracked.goes g ?_ id ?_) rfl rfl rfl hw hm hl ?_
  · have hpos : 0 < s.uses.countP fun v => v.buf = u.buf ∧ v.owns :=
      countP_pos_iff.2 ⟨u, g.mem.1, by simp [hown]⟩
    rw [h.locks] at hpos
    rw [hown]
    cases hlock : (s.cache.buf u.buf).locked with
    | false =>
      rw [hlock] at hpos
      cases hpos
    | true => rfl
  · intro saved he
    cases he
  · rw [hst]
    exact fun he => Bool.noConfusion (UseStage.holding.inj he)

theorem Coherent.found (g : Goes s t u (s.cache.buf u.buf) (.holding true))
    (hst : u.stage = .locked) (hv : (s.cache.buf u.buf).valid = true)
    (hw : t.written = s.written) (hm : t.memdisk = s.memdisk) (hl : t.logged = s.logged) :
    Coherent t := by
  refine h.relock g (h.toTracked.goes g ?_ id fun _ _ => hv) rfl rfl rfl hw hm hl ?_
  · rw [Use.owns, hst]
    rfl
  · rw [hst]
    exact fun he => UseStage.noConfusion he

theorem Coherent.read
    (g : Goes s t u { s.cache.buf u.buf with
      data := s.memdisk (s.cache.buf u.buf).blockno.toNat, valid := true } (.holding true))
    (hst : u.stage = .locked) (hv : (s.cache.buf u.buf).valid = false)
    (hone : (s.cache.buf u.buf).dev = 1)
    (hw : t.written = s.written) (hm : t.memdisk = s.memdisk) (hl : t.logged = s.logged) :
    Coherent t := by
  obtain ⟨hud, hub⟩ := h.named u g.mem.1
  have hu1 := hud.symm.trans hone
  have hdisk : s.memdisk u.blockno.toNat = s.written 1 u.blockno := by
    refine (h.disk_of_use g.mem.1 hu1).resolve_right fun hkeep => ?_
    rw [hkeep.1] at hv
    cases hv
  refine h.goes g (h.toTracked.goes g ?_ (fun _ => rfl) fun _ _ => rfl) (fun _ => rfl)
    (fun _ => hu1) ?_ (fun _ _ _ => by rw [hw]) (fun _ _ => by rw [hm]) ?_
    (fun _ _ _ => by rw [hl]) ?_
  · rw [Use.owns, hst]
    rfl
  · intro _
    dsimp only
    rw [hub, hu1, hw]
    exact hdisk
  · intro _
    rw [hm, hw]
    exact .inl hdisk
  · rw [hl]
    exact h.logged_eq g.mem.1

theorem Coherent.modify (g : Goes s t u { s.cache.buf u.buf with data := data } (.holding false))
    (hst : u.stage = .holding saved) (hw : t.written = setAt s.written u.dev u.blockno data)
    (hm : t.memdisk = s.memdisk) (hl : t.logged = s.logged) : Coherent t := by
  obtain ⟨hud, hub⟩ := h.named u g.mem.1
  have hv := h.opened u g.mem.1 saved hst
  refine h.goes g (h.toTracked.goes g ?_ id fun _ _ => hv) (fun _ => hv)
    (fun _ => hud.symm.trans (h.dev u.buf hv)) ?_ ?_ (fun _ _ => by rw [hm]) ?_
    (fun _ _ _ => by rw [hl]) ?_
  · rw [Use.owns, hst]
    rfl
  · intro _
    rw [hw, setAt_self]
  · intro d c hdc
    rw [hw, setAt_of_ne _ _ hdc]
  · exact fun _ => .inr ⟨hv, .inr ⟨_, g.mem.2, rfl, rfl⟩⟩
  · rw [hl]
    exact h.logged_eq g.mem.1

theorem Coherent.logWrite (g : Goes s t u { s.cache.buf u.buf with dirty := true } (.holding true))
    (hst : u.stage = .holding saved) (hw : t.written = s.written) (hm : t.memdisk = s.memdisk)
    (hl : t.logged = setAt s.logged u.dev u.blockno true) : Coherent t := by
  obtain ⟨hud, hub⟩ := h.named u g.mem.1
  have hv := h.opened u g.mem.1 saved hst
  refine h.goes g (h.toTracked.goes g ?_ id fun _ _ => hv) (fun _ => hv)
    (fun _ => hud.symm.trans (h.dev u.buf hv)) ?_ (fun _ _ _ => by rw [hw])
    (fun _ _ => by rw [hm]) (fun _ => .inr ⟨hv, .inl rfl⟩) ?_ ?_
  · rw [Use.owns, hst]
    rfl
  · intro _
    rw [hw, ← hud, ← hub]
    exact h.data u.buf hv
  · intro d c hdc
    rw [hl, setAt_of_ne _ _ hdc]
  · rw [hl, setAt_self]

theorem Coherent.bwrite
    (g : Goes s t u { s.cache.buf u.buf with dirty := false, valid := true } (.holding true))
    (hst : u.stage = .holding saved) (hw : t.written = s.written)
    (hm : t.memdisk = update s.memdisk (s.cache.buf u.buf).blockno.toNat
      (s.cache.buf u.buf).data)
    (hl : t.logged = setAt s.logged u.dev u.blockno false) : Coherent t := by
  obtain ⟨hud, hub⟩ := h.named u g.mem.1
  have hv := h.opened u g.mem.1 saved hst
  have hu1 := hud.symm.trans (h.dev u.buf hv)
  have hdata := h.data u.buf hv
  rw [hud, hub] at hdata
  refine h.goes g (h.toTracked.goes g ?_ (fun _ => rfl) fun _ _ => rfl) (fun _ => rfl)
    (fun _ => hu1) ?_ (fun _ _ _ => by rw [hw]) ?_ ?_ ?_ ?_
  · rw [Use.owns, hst]
    rfl
  · intro _
    rw [hw]
    exact hdata
  · intro c hc
    rw [hm, hub]
    exact update_of_ne (fun he => hc ⟨hu1.symm, BitVec.eq_of_toNat_eq he⟩) ..
  · intro _
    rw [hm, hw, hub, update_self, hdata, hu1]
    exact .inl rfl
  · intro d c hdc
    rw [hl, setAt_of_ne _ _ hdc]
  · rw [hl, setAt_self]

end

theorem Tracked.recount (h : Tracked s) (hlist : ∃ l, Listed t.cache l)
    (hbuf : ∀ j, t.cache.buf j =
      { s.cache.buf j with refcnt := t.uses.countP fun u => u.buf = j })
    (howns : ∀ j, t.uses.countP (fun u => u.buf = j ∧ u.owns) =
      s.uses.countP fun u => u.buf = j ∧ u.owns)
    (hmem : ∀ v ∈ t.uses, v ∈ s.uses ∨ v.stage = .waiting ∧
      (s.cache.buf v.buf).dev = v.dev ∧ (s.cache.buf v.buf).blockno = v.blockno) : Tracked t := by
  constructor
  case listed => exact hlist
  case refs =>
    intro j
    rw [hbuf]
  case locks =>
    intro j
    rw [hbuf, howns]
    exact h.locks j
  case named =>
    intro v hv
    rw [hbuf]
    rcases hmem v hv with hv | ⟨-, hnamed⟩
    · exact h.named v hv
    · exact hnamed
  case opened =>
    intro v hv saved hst
    rw [hbuf]
    rcases hmem v hv with hv | ⟨hwait, -⟩
    · exact h.opened v hv saved hst
    · rw [hwait] at hst
      cases hst
  case unique =>
    intro i j
    rw [hbuf, hbuf]
    exact h.unique i j

theorem Coherent.recount (h : Coherent s) (ht : Tracked t)
    (hbuf : ∀ j, t.cache.buf j =
      { s.cache.buf j with refcnt := t.uses.countP fun u => u.buf = j })
    (hw : t.written = s.written) (hm : t.memdisk = s.memdisk) (hl : t.logged = s.logged)
    (huses : ∀ v ∈ s.uses, v.stage = .holding false → v ∈ t.uses) : Coherent t := by
  refine { ht with valid := ?_, dev := ?_, data := ?_, disk := ?_, dirty := ?_, logged := ?_ }
  · intro j
    rw [hbuf]
    exact h.valid j
  · intro j
    rw [hbuf]
    exact h.dev j
  · intro j
    rw [hbuf, hw]
    exact h.data j
  · intro c
    rw [hm, hw]
    refine (h.disk c).imp_right fun ⟨j, hjd, hjb, hjv, hkeep⟩ => ⟨j, ?_⟩
    unfold Shared.keeps
    rw [hbuf]
    exact ⟨hjd, hjb, hjv, hkeep.imp_right fun ⟨v, hv, hvj, hst⟩ => ⟨v, huses v hv hst, hvj, hst⟩⟩
  · intro j
    rw [hbuf, hl]
    exact h.dirty j
  · intro d c hdc
    rw [hl] at hdc
    obtain ⟨j, hj⟩ := h.logged d c hdc
    refine ⟨j, ?_⟩
    rw [hbuf]
    exact hj

theorem countP_eraseIdx (hk : s.uses[k]? = some u) (p : Use → Bool) :
    (s.uses.eraseIdx k).countP p + (p u).toNat = s.uses.countP p := by
  obtain ⟨xs, ys, hs, -, herase⟩ := uses_split hk
  rw [herase, hs]
  simp only [countP_append, countP_cons]
  cases p u with
  | false => simp
  | true => simp [Nat.add_assoc]

theorem Coherent.drop (h : Coherent s) (hk : s.uses[k]? = some u) (hst : u.stage = .released) :
    Coherent { s with cache := s.cache.brelse u.buf, uses := s.uses.eraseIdx k } := by
  obtain ⟨xs, ys, hs, -, herase⟩ := uses_split hk
  have hown : u.owns = false := by rw [Use.owns, hst]
  have hpos : 0 < (s.cache.buf u.buf).refcnt := by
    rw [h.refs]
    exact countP_pos_iff.2 ⟨u, mem_of_getElem? hk, decide_eq_true rfl⟩
  have hbuf (j : BufId) : (s.cache.brelse u.buf).buf j = { s.cache.buf j with
      refcnt := (s.uses.eraseIdx k).countP fun u => u.buf = j } := by
    have hcount := countP_eraseIdx hk fun v => v.buf = j
    rw [← h.refs] at hcount
    rw [brelse_buf]
    by_cases hj : u.buf = j
    · subst hj
      rw [update_self, ← hcount, decide_eq_true rfl]
      rfl
    · rw [decide_eq_false hj] at hcount
      rw [update_of_ne (Ne.symm hj)]
      exact congrArg (fun n => { s.cache.buf j with refcnt := n }) hcount.symm
  refine h.recount (h.toTracked.recount ?_ hbuf ?_ ?_) hbuf rfl rfl rfl ?_
  · obtain ⟨l, hl⟩ := h.listed
    obtain ⟨xs, ys, rfl⟩ := append_of_mem (hl.all u.buf)
    exact ⟨_, hl.brelse hpos⟩
  · intro j
    have hcount := countP_eraseIdx hk fun v => v.buf = j ∧ v.owns
    simpa only [hown, Bool.false_eq_true, and_false, decide_false, Bool.toNat_false,
      Nat.add_zero] using hcount
  · exact fun v hv => .inl (mem_of_mem_eraseIdx hv)
  intro v hv hvst
  have hne : v ≠ u := by
    rintro rfl
    rw [hst] at hvst
    cases hvst
  dsimp only
  rw [hs] at hv
  rw [herase]
  simp only [mem_append, mem_cons, hne, false_or] at hv ⊢
  exact hv

theorem countP_concat (l : List Use) (v : Use) (p : Use → Bool) :
    (l ++ [v]).countP p = l.countP p + (p v).toNat := by
  rw [countP_append, countP_singleton]
  cases p v <;> rfl

theorem Coherent.hit (h : Coherent s) (pid : Nat) (hdev : (s.cache.buf i).dev = dev)
    (hblockno : (s.cache.buf i).blockno = blockno) :
    Coherent { s with
      cache := s.cache.setBuf i { s.cache.buf i with refcnt := (s.cache.buf i).refcnt + 1 }
      uses := s.uses ++ [⟨pid, dev, blockno, i, .waiting⟩] } := by
  have hbuf (j : BufId) :
      (s.cache.setBuf i { s.cache.buf i with refcnt := (s.cache.buf i).refcnt + 1 }).buf j =
      { s.cache.buf j with refcnt :=
        (s.uses ++ [(⟨pid, dev, blockno, i, .waiting⟩ : Use)]).countP fun u => u.buf = j } := by
    rw [countP_concat, ← h.refs]
    by_cases hj : i = j
    · rw [← hj, setBuf_self, decide_eq_true rfl]
      rfl
    · rw [setBuf_of_ne (Ne.symm hj), decide_eq_false hj]
      rfl
  refine h.recount (h.toTracked.recount ?_ hbuf ?_ ?_) hbuf rfl rfl rfl ?_
  · obtain ⟨l, hl⟩ := h.listed
    exact ⟨l, hl.setBuf i _⟩
  · intro j
    dsimp only
    rw [countP_concat]
    simp [Use.owns]
  · intro v hv
    simp only [mem_append, mem_singleton] at hv
    rcases hv with hv | rfl
    · exact .inl hv
    · exact .inr ⟨rfl, hdev, hblockno⟩
  · exact fun v hv _ => mem_append_left _ hv

theorem Tracked.not_used (h : Tracked s) (href : (s.cache.buf i).refcnt = 0) (hu : u ∈ s.uses) :
    u.buf ≠ i := by
  rw [h.refs, countP_eq_zero] at href
  exact fun hui => href u hu (decide_eq_true hui)

theorem Tracked.recycled (h : Tracked s) {b : Buf} (pid : Nat)
    (hnew : ∀ j, ¬ ((s.cache.buf j).dev = b.dev ∧ (s.cache.buf j).blockno = b.blockno))
    (href : (s.cache.buf i).refcnt = 0) (hone : b.refcnt = 1)
    (hlocked : b.locked = (s.cache.buf i).locked) :
    Tracked { s with
      cache := s.cache.setBuf i b
      uses := s.uses ++ [⟨pid, b.dev, b.blockno, i, .waiting⟩] } := by
  constructor
  case listed =>
    obtain ⟨l, hl⟩ := h.listed
    exact ⟨l, hl.setBuf i b⟩
  case refs =>
    intro j
    dsimp only
    rw [countP_concat, ← h.refs]
    by_cases hj : i = j
    · rw [← hj, setBuf_self, decide_eq_true rfl, href, hone]
      rfl
    · rw [setBuf_of_ne (Ne.symm hj), decide_eq_false hj]
      rfl
  case locks =>
    intro j
    have hsame : ((s.cache.setBuf i b).buf j).locked = (s.cache.buf j).locked := by
      by_cases hj : j = i
      · rw [hj, setBuf_self, hlocked]
      · rw [setBuf_of_ne hj]
    dsimp only
    rw [countP_concat, hsame, h.locks j]
    simp [Use.owns]
  case named =>
    intro v hv
    simp only [mem_append, mem_singleton] at hv
    rcases hv with hv | rfl
    · rw [setBuf_of_ne (h.not_used href hv)]
      exact h.named v hv
    · rw [setBuf_self]
      exact ⟨rfl, rfl⟩
  case opened =>
    intro v hv saved hst
    simp only [mem_append, mem_singleton] at hv
    rcases hv with hv | rfl
    · rw [setBuf_of_ne (h.not_used href hv)]
      exact h.opened v hv saved hst
    · cases hst
  case unique =>
    intro j k hj hd hb
    by_cases hji : j = i <;> by_cases hki : k = i
    · rw [hji, hki]
    · rw [hji, setBuf_self, setBuf_of_ne hki] at hd hb
      exact (hnew k ⟨hd.symm, hb.symm⟩).elim
    · rw [hki, setBuf_self, setBuf_of_ne hji] at hd hb
      exact (hnew j ⟨hd, hb⟩).elim
    · rw [setBuf_of_ne hji] at hj hd hb
      rw [setBuf_of_ne hki] at hd hb
      exact h.unique j k hj hd hb

theorem Coherent.recycled (h : Coherent s) {b : Buf} (pid : Nat)
    (hnew : ∀ j, ¬ ((s.cache.buf j).dev = b.dev ∧ (s.cache.buf j).blockno = b.blockno))
    (href : (s.cache.buf i).refcnt = 0) (hclean : (s.cache.buf i).dirty = false)
    (hone : b.refcnt = 1) (hlocked : b.locked = (s.cache.buf i).locked)
    (hvalid : b.valid = false) (hdirty : b.dirty = false) :
    Coherent { s with
      cache := s.cache.setBuf i b
      uses := s.uses ++ [⟨pid, b.dev, b.blockno, i, .waiting⟩] } := by
  have hne {j : BufId} (hj : j = i → False) : (s.cache.setBuf i b).buf j = s.cache.buf j :=
    setBuf_of_ne hj ..
  have hvalid' {j : BufId} (hj : ((s.cache.setBuf i b).buf j).valid = true) : j = i → False := by
    rintro rfl
    rw [setBuf_self, hvalid] at hj
    cases hj
  have hdirty' {j : BufId} (hj : ((s.cache.setBuf i b).buf j).dirty = true) : j = i → False := by
    rintro rfl
    rw [setBuf_self, hdirty] at hj
    cases hj
  refine { h.toTracked.recycled pid hnew href hone hlocked with
    valid := ?_, dev := ?_, data := ?_, disk := ?_, dirty := ?_, logged := ?_ }
  · intro j hj
    have hji := hdirty' hj
    rw [hne hji] at hj ⊢
    exact h.valid j hj
  · intro j hj
    have hji := hvalid' hj
    rw [hne hji] at hj ⊢
    exact h.dev j hj
  · intro j hj
    have hji := hvalid' hj
    rw [hne hji] at hj ⊢
    exact h.data j hj
  · intro c
    refine (h.disk c).imp_right fun ⟨j, hjd, hjb, hjv, hkeep⟩ => ⟨j, ?_⟩
    have hji : j = i → False := by
      rintro rfl
      rcases hkeep with hd | ⟨v, hv, hvj, -⟩
      · rw [hclean] at hd
        cases hd
      · exact h.not_used href hv hvj
    unfold Shared.keeps
    dsimp only
    rw [hne hji]
    exact ⟨hjd, hjb, hjv, hkeep.imp_right fun ⟨v, hv, hvj, hst⟩ =>
      ⟨v, mem_append_left _ hv, hvj, hst⟩⟩
  · intro j hj
    have hji := hdirty' hj
    rw [hne hji] at hj ⊢
    exact h.dirty j hj
  · intro d c hdc
    obtain ⟨j, hjd, hjb, hj⟩ := h.logged d c hdc
    have hji : j = i → False := by
      rintro rfl
      rw [hclean] at hj
      cases hj
    refine ⟨j, ?_⟩
    dsimp only
    rw [hne hji]
    exact ⟨hjd, hjb, hj⟩

theorem goes_setBuf {b : Buf} {stage : UseStage} (hk : s.uses[k]? = some u)
    (huses : t.uses = s.uses.set k { u with stage := stage })
    (hcache : t.cache = s.cache.setBuf u.buf b) (hdev : b.dev = (s.cache.buf u.buf).dev)
    (hblockno : b.blockno = (s.cache.buf u.buf).blockno)
    (hrefcnt : b.refcnt = (s.cache.buf u.buf).refcnt) : Goes s t u b stage := by
  obtain ⟨xs, ys, hs, hset, -⟩ := uses_split hk
  exact ⟨⟨xs, ys, hs, huses.trans (hset _)⟩, hcache, hdev, hblockno, hrefcnt⟩

theorem Coherent.act {a : UseAct} {r : Shared × Option UseStage} (h : Coherent s)
    (hk : s.uses[k]? = some u) (hact : s.act u a = some r) :
    Coherent { r.1 with uses := match r.2 with
      | some stage => s.uses.set k { u with stage := stage }
      | none => s.uses.eraseIdx k } := by
  unfold Shared.act at hact
  dsimp only at hact
  split at hact
  · rename_i hst
    split at hact
    · cases hact
    · rename_i hfree
      cases hact
      exact h.acquire (goes_setBuf hk rfl rfl rfl rfl rfl) hst (Bool.eq_false_iff.2 hfree) rfl rfl rfl
  · rename_i hst
    split at hact
    · rename_i hv
      cases hact
      refine h.found (goes_setBuf hk rfl ?_ rfl rfl rfl) hst hv rfl rfl rfl
      rw [Bcache.setBuf, update_eq_self]
    rename_i hv
    have hv := Bool.eq_false_iff.2 hv
    obtain ⟨t, hr, rfl⟩ := Option.map_eq_some_iff.1 hact
    obtain ⟨hone, rfl⟩ := iderw_eq hr
    have hd : ¬ (s.cache.buf u.buf).dirty = true := fun hd => by
      rw [h.valid u.buf hd] at hv
      cases hv
    rw [if_neg hd]
    exact h.read (goes_setBuf hk rfl rfl rfl rfl rfl) hst hv hone rfl rfl rfl
  · rename_i hst
    cases hact
    exact h.modify (goes_setBuf hk rfl rfl rfl rfl rfl) hst rfl rfl rfl
  · rename_i hst
    cases hact
    exact h.logWrite (goes_setBuf hk rfl rfl rfl rfl rfl) hst rfl rfl rfl
  · rename_i hst
    obtain ⟨t, hr, rfl⟩ := Option.map_eq_some_iff.1 hact
    obtain ⟨-, rfl⟩ := iderw_eq hr
    have hself : (s.setBuf u.buf { s.cache.buf u.buf with dirty := true }).cache.buf u.buf =
        { s.cache.buf u.buf with dirty := true } := setBuf_self ..
    rw [hself, if_pos rfl]
    refine h.bwrite (goes_setBuf hk rfl ?_ rfl rfl rfl) hst rfl rfl rfl
    exact congrArg (Bcache.mk s.cache.links) (update_idem ..)
  · rename_i hst
    cases hact
    exact h.unlock (goes_setBuf hk rfl rfl rfl rfl rfl) hst rfl rfl rfl
  · rename_i hst
    cases hact
    exact h.drop hk hst
  · cases hact

end Act

theorem coherent_binit (disk : Nat → Block) :
    Coherent ⟨binit, disk, [], fun _ b => disk b.toNat, fun _ _ => false⟩ where
  listed := ⟨_, binit_listed⟩
  refs := fun _ => rfl
  locks := fun _ => rfl
  named := fun _ hu => (not_mem_nil hu).elim
  opened := fun _ hu => (not_mem_nil hu).elim
  unique := fun _ _ hi => (hi rfl).elim
  valid := fun _ hj => Bool.noConfusion hj
  dev := fun _ hj => Bool.noConfusion hj
  data := fun _ hj => Bool.noConfusion hj
  disk := fun _ => .inl rfl
  dirty := fun _ hj => Bool.noConfusion hj
  logged := fun _ _ hj => Bool.noConfusion hj

theorem coherent_of_reach {ok : Shared → UseOp → Prop} (h : useMachine.Reach ok s) :
    Coherent s := by
  refine Machine.Reach.invariant (P := Coherent) h ?_ ?_
  · rintro _ ⟨disk, rfl⟩
    exact coherent_binit disk
  intro s op t _ hs _ hn
  cases op with
  | bget pid dev blockno =>
    obtain ⟨⟨i, c⟩, hget, rfl⟩ := Option.map_eq_some_iff.1 hn
    obtain ⟨l, hl⟩ := hs.listed
    cases hl.bget hget with
    | hit hdev hblockno => exact hs.hit pid hdev hblockno
    | recycled _ _ hnew href hclean => exact hs.recycled pid hnew href hclean rfl rfl rfl rfl
  | act k a =>
    simp only [useMachine] at hn
    split at hn
    · obtain ⟨r, hr, rfl⟩ := Option.map_eq_some_iff.1 hn
      exact hs.act ‹_› hr
    · cases hn

def emptyCache : Shared := ⟨binit, fun _ _ => 0, [], fun _ _ _ => 0, fun _ _ => false⟩

def logThenRead : List UseOp :=
  [.bget 1 1 5, .act 0 .acquire, .act 0 .fill, .act 0 (.modify fun _ => 7), .act 0 .logWrite,
    .act 0 .unlock, .act 0 .drop, .bget 2 1 5, .act 0 .acquire, .act 0 .fill]

/-- In every interleaving `refcnt` counts the uses of a buffer, one process at a time has a block
locked, and the disk has what was last written to every block as soon as nothing is logged and no
holder has changes that it has not saved. -/
theorem buffer_uses_exclusive (h : useMachine.Reachable s) :
    (∀ i, (s.cache.buf i).refcnt = s.uses.countP fun u => u.buf = i) ∧
    (∀ dev blockno : Word, dev ≠ 0 →
      s.uses.countP (fun u => u.dev = dev ∧ u.blockno = blockno ∧ u.owns) ≤ 1) ∧
    ((∀ d b, s.logged d b = false) → (∀ u ∈ s.uses, u.stage ≠ .holding false) →
      ∀ b : Word, s.memdisk b.toNat = s.written 1 b) := by
  have hs := coherent_of_reach h
  refine ⟨hs.refs, fun dev blockno hdev => ?_, fun hlog hsaved b => ?_⟩
  · by_cases hu : ∃ u ∈ s.uses, u.dev = dev ∧ u.blockno = blockno
    · obtain ⟨u, hu, rfl, rfl⟩ := hu
      obtain ⟨hd, hb⟩ := hs.named u hu
      have hle := countP_mono_left (p := fun v => v.dev = u.dev ∧ v.blockno = u.blockno ∧ v.owns)
        (q := fun v => v.buf = u.buf ∧ v.owns) (l := s.uses) fun v hv hp => by
          obtain ⟨hvd, hvb, ho⟩ := of_decide_eq_true hp
          obtain ⟨hd', hb'⟩ := hs.named v hv
          have hbuf : v.buf = u.buf := hs.unique v.buf u.buf (by rwa [hd', hvd])
            (by rw [hd', hvd, hd]) (by rw [hb', hvb, hb])
          exact decide_eq_true ⟨hbuf, ho⟩
      rw [hs.locks] at hle
      exact hle.trans (Bool.toNat_le _)
    · rw [countP_eq_zero.2 fun u hm hp => hu ⟨u, hm, (of_decide_eq_true hp).1,
        (of_decide_eq_true hp).2.1⟩]
      exact Nat.zero_le 1
  · rcases hs.disk b with hb | ⟨i, _, _, _, hd | ⟨u, hu, _, hst⟩⟩
    · exact hb
    · cases (hlog _ _).symm.trans (hs.dirty i hd)
    · exact (hsaved u hu hst).elim

theorem buffer_uses_exclusive_read : ∃ s, useMachine.run emptyCache logThenRead = some s ∧
    s.uses.countP (fun u => u.dev = 1 ∧ u.blockno = 5 ∧ u.owns) ≤ 1 := by
  obtain ⟨s, hs⟩ := Option.isSome_iff_exists.1
    (show (useMachine.run emptyCache logThenRead).isSome = true by decide +kernel)
  have hreach : useMachine.Reachable s := Machine.Reachable.run (.init ⟨_, rfl⟩) hs
  exact ⟨s, hs, (buffer_uses_exclusive hreach).2.1 1 5 (by decide)⟩

end Xv6Signals.Bio
