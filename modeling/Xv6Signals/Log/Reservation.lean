import Xv6Signals.Log.Recovery

namespace Xv6Signals
open Lib List

variable {geo : Geometry} {s t : LogState} {b : Word} {lh : List Word} {ops : List Op} {op : Op}
  {logged : List Word} {n i : Nat} {l : LogLabel} {disk : Word → Block} {pc : CommitPc}

/-- Operations are outstanding only between two commits, and `log.committing` says where a commit
is under way. -/
structure Exclusive (s : LogState) : Prop where
  quiet : s.pc.busy = true → s.ops = []
  committing : (∀ msg, s.pc ≠ .panicked msg) → s.committing = (s.pc.busy && s.pc.up)
  safe : s.pc ≠ .panicked .committing

theorem Exclusive.of_pc (h : Exclusive s) (hpc : s.pc = pc)
    (hsafe : ∀ msg, pc ≠ .panicked msg) : s.committing = (pc.busy && pc.up) := by
  subst hpc
  exact h.committing hsafe

theorem Exclusive.intro (hpc : s.pc = pc) (hops : pc.busy = true → s.ops = [])
    (hcom : s.committing = (pc.busy && pc.up)) (hsafe : pc ≠ .panicked .committing) :
    Exclusive s := by
  subst hpc
  exact ⟨hops, fun _ => hcom, hsafe⟩

theorem Exclusive.congr (h : Exclusive s) (hpc : t.pc = s.pc) (hcom : t.committing = s.committing)
    (hops : s.pc.busy = true → t.ops = s.ops) : Exclusive t := by
  refine ⟨fun hb => ?_, fun hsafe => ?_, ?_⟩ <;> rw [hpc] at *
  · exact (hops hb).trans (h.quiet hb)
  · exact hcom.trans (h.committing hsafe)
  · exact h.safe

theorem Exclusive.not_busy (h : Exclusive s) (hop : s.ops[i]? = some op) : s.pc.busy = false := by
  rw [Bool.eq_false_iff]
  intro hb
  rw [h.quiet hb] at hop
  cases hop

theorem Exclusive.advance (h : Exclusive s) (hs : s.pc.busy = true) (ht : t.pc.busy = true)
    (hup : t.pc.up = s.pc.up) (hops : t.ops = s.ops) (hcom : t.committing = s.committing) :
    Exclusive t := by
  refine ⟨fun _ => hops.trans (h.quiet hs), fun _ => ?_, fun he => ?_⟩
  · rw [hcom, ht, hup, ← hs]
    refine h.committing fun msg he => ?_
    rw [he] at hs
    cases hs
  · rw [he] at ht
    cases ht

theorem Exclusive.reboot (disk : Word → Block) : Exclusive (.reboot disk) :=
  .intro rfl (fun _ => rfl) rfl fun he => by cases he

theorem Exclusive.commit (h : Exclusive s) (hs : commitStep geo s = some t) : Exclusive t := by
  cases commitStep_cases hs with
  | writeLog hpc _ ht htpc | writeHead hpc ht htpc | install hpc _ ht htpc | readHead hpc ht htpc =>
    exact h.advance (by rw [hpc]; rfl) (by rw [htpc]; rfl) (by rw [hpc, htpc]; rfl) ht.ops
      ht.committing
  | logWritten hpc | installed hpc =>
    exact h.advance (by rw [hpc]; rfl) rfl (by rw [hpc]; rfl) rfl rfl
  | @clear recovering _ hpc ht htpc =>
    have hcom := ht.committing.trans (h.of_pc hpc fun _ he => by cases he)
    have hops := ht.ops.trans (h.quiet (by rw [hpc]; rfl))
    cases recovering with
    | false => exact .intro htpc (fun _ => hops) hcom fun he => by cases he
    | true => exact .intro htpc (fun _ => hops) hcom fun he => by cases he
  | finish => exact .intro rfl (fun hb => by cases hb) rfl fun he => by cases he

theorem Exclusive.step (h : Exclusive s) (hs : logStep geo s l = some t) : Exclusive t := by
  cases logStep_cases hs with
  | begin hup hcom =>
    refine h.congr rfl rfl fun hb => ?_
    have hcom' := h.committing fun msg he => by rw [he] at hup; cases hup
    rw [hcom, hb, hup] at hcom'
    cases hcom'
  | tooBig =>
    refine ⟨fun hb => ?_, fun hsafe => (hsafe _ rfl).elim, fun he => ?_⟩
    · cases hb
    · cases he
  | check hop => exact h.congr rfl rfl fun hb => absurd hb (by rw [h.not_busy hop]; decide)
  | append hop => exact h.congr rfl rfl fun hb => absurd hb (by rw [h.not_busy hop]; decide)
  | committing hop hup hcom =>
    have hcom' := h.committing fun msg he => by rw [he] at hup; cases hup
    rw [hcom, h.not_busy hop] at hcom'
    cases hcom'
  | start =>
    unfold LogState.startCommit
    split
    · exact .intro rfl (fun _ => rfl) rfl fun he => by cases he
    · exact .intro rfl (fun _ => rfl) rfl fun he => by cases he
  | endOp hop => exact h.congr rfl rfl fun hb => absurd hb (by rw [h.not_busy hop]; decide)
  | commit hs => exact h.commit hs
  | load b =>
    obtain ⟨_, _, hops, hcom, hpc⟩ := bread_fields s b
    exact h.congr hpc hcom fun _ => hops
  | evict => exact h.congr rfl rfl fun _ => rfl
  | crash => exact .reboot s.disk

def room (ops : List Op) : Nat := (ops.map fun op => maxOpBlocks - op.logged.length).sum

theorem room_le (ops : List Op) : room ops ≤ ops.length * maxOpBlocks := by
  induction ops with
  | nil => exact Nat.le_refl 0
  | cons op ops ih =>
    simp only [room, map_cons, sum_cons, length_cons, Nat.succ_mul] at ih ⊢
    omega

theorem room_split {next : Option Word} (hop : ops[i]? = some ⟨logged, next⟩)
    (logged' : List Word) (next' : Option Word) :
    room ops = room (ops.eraseIdx i) + (maxOpBlocks - logged.length) ∧
    room (ops.set i ⟨logged', next'⟩) =
      room (ops.eraseIdx i) + (maxOpBlocks - logged'.length) := by
  induction ops generalizing i with
  | nil => cases hop
  | cons x ops ih =>
    cases i with
    | zero =>
      cases hop
      simp only [room, eraseIdx_cons_zero, set_cons_zero, map_cons, sum_cons]
      omega
    | succ i =>
      have ih := ih hop
      simp only [room, eraseIdx_cons_succ, set_cons_succ, map_cons,
        sum_cons] at ih ⊢
      omega

structure Header (geo : Geometry) (n : Nat) (lh : List Word) : Prop where
  nodup : lh.Nodup
  home : ∀ b ∈ lh, geo.home b
  le : lh.length ≤ n

theorem Header.nil (geo : Geometry) (n : Nat) : Header geo n [] :=
  ⟨nodup_nil, fun _ hb => (not_mem_nil hb).elim, Nat.zero_le n⟩

/-- An operation has logged only blocks of the header, and is not over its bound when it holds the
buffer of another one. -/
structure OpInv (geo : Geometry) (lh : List Word) (op : Op) : Prop where
  logged : ∀ b ∈ op.logged, b ∈ lh
  home : ∀ b, op.next = some b → geo.home b
  bound : ∀ b, op.next = some b → b ∉ op.logged → op.logged.length < maxOpBlocks

/-- The header in memory and what the operations may still add to it stay below `n`. -/
structure Reserved (geo : Geometry) (n : Nat) (s : LogState) : Prop where
  disk : Header geo n (decodeHead (s.disk geo.start))
  head : Header geo n s.lh
  ops : ∀ op ∈ s.ops, OpInv geo s.lh op
  fits : s.lh.length + room s.ops ≤ n

def Bounded (s : LogState) : LogLabel → Prop
  | .check i b _ => ∀ op ∈ s.ops[i]?, b ∈ op.logged ∨ op.logged.length < maxOpBlocks
  | _ => True

instance decidableBounded (s : LogState) : (l : LogLabel) → Decidable (Bounded s l)
  | .check i _ _ => inferInstanceAs (Decidable (∀ op ∈ s.ops[i]?, _ ∨ _))
  | .begin | .append _ | .endOp _ | .commit | .load _ | .evict _ | .crash =>
    inferInstanceAs (Decidable True)

theorem OpInv.mono (h : OpInv geo lh op) {lh' : List Word} (hle : ∀ b ∈ lh, b ∈ lh') :
    OpInv geo lh' op :=
  ⟨fun b hb => hle b (h.logged b hb), h.home, h.bound⟩

theorem Reserved.congr (h : Reserved geo n s) (hdisk : t.disk = s.disk) (hlh : t.lh = s.lh)
    (hops : ∀ op ∈ t.ops, OpInv geo s.lh op) (hroom : room t.ops ≤ room s.ops) :
    Reserved geo n t := by
  refine ⟨hdisk ▸ h.disk, hlh ▸ h.head, fun op hop => hlh ▸ hops op hop, ?_⟩
  rw [hlh]
  exact Nat.le_trans (Nat.add_le_add_left hroom _) h.fits

theorem Reserved.of_quiet (hdisk : Header geo n (decodeHead (t.disk geo.start)))
    (hhead : Header geo n t.lh) (hops : t.ops = []) : Reserved geo n t := by
  refine ⟨hdisk, hhead, fun op hop => ?_, ?_⟩
  · rw [hops] at hop
    cases hop
  · rw [hops]
    exact hhead.le

section

variable (h : Reserved geo n s)
include h

theorem Reserved.write (hops : s.ops = []) {data : Block}
    (ht : DiskWrite geo s t b data) (hne : b ≠ geo.start) : Reserved geo n t := by
  refine .of_quiet ?_ (ht.lh ▸ h.head) (ht.ops.trans hops)
  rw [ht.disk, Function.update_of_ne hne.symm]
  exact h.disk

theorem Reserved.writeHead (hn : n ≤ logSize) (hops : s.ops = [])
    {old : Block} (ht : DiskWrite geo s t geo.start (encodeHead s.lh old)) : Reserved geo n t := by
  refine .of_quiet ?_ (ht.lh ▸ h.head) (ht.ops.trans hops)
  rw [ht.disk, Function.update_self, decodeHead_encodeHead _ (h.head.le.trans hn)]
  exact h.head

theorem Reserved.commit (hn : n ≤ logSize) (hm : MemInv geo s)
    (hops : s.pc.busy = true → s.ops = []) (hs : commitStep geo s = some t) :
    Reserved geo n t := by
  cases commitStep_cases hs with
  | @writeLog tail b _ hpc hb ht =>
    have hlog : logSize < 2 ^ 32 := by decide
    have hle := h.head.le
    have htail : tail < s.lh.length := (List.getElem?_eq_some_iff.1 hb).1
    exact h.write (hops (by rw [hpc]; rfl)) ht (Geometry.logBlock_ne_start (by omega))
  | install hpc hb ht =>
    have hhome := h.head.home _ (mem_of_getElem? hb)
    exact h.write (hops (by rw [hpc]; rfl)) ht (Geometry.ne_of_home hhome geo.not_home_start)
  | writeHead hpc ht | clear hpc ht => exact h.writeHead hn (hops (by rw [hpc]; rfl)) ht
  | logWritten hpc | finish hpc => exact .of_quiet h.disk h.head (hops (by rw [hpc]; rfl))
  | installed hpc => exact .of_quiet h.disk (.nil geo n) (hops (by rw [hpc]; rfl))
  | readHead hpc ht =>
    refine .of_quiet ?_ ?_ (ht.ops.trans (hops (by rw [hpc]; rfl)))
    · rw [ht.disk]
      exact h.disk
    · rw [ht.lh, hm.contents geo.not_home_start]
      exact h.disk

theorem Reserved.append (hop : s.ops[i]? = some ⟨logged, some b⟩) (hdisk : t.disk = s.disk)
    (hlh : t.lh = if b ∈ s.lh then s.lh else s.lh ++ [b])
    (hops : t.ops = s.ops.set i ⟨if b ∈ logged then logged else b :: logged, none⟩) :
    Reserved geo n t := by
  have hinv := h.ops _ (mem_of_getElem? hop)
  have hfits := h.fits
  obtain ⟨hroom, hroom'⟩ := room_split hop (if b ∈ logged then logged else b :: logged) none
  have hmono : ∀ b' ∈ s.lh, b' ∈ t.lh := by
    intro b' hb'
    rw [hlh]
    split
    · exact hb'
    · exact mem_append_left _ hb'
  have hmem : b ∈ t.lh := by
    rw [hlh]
    split
    · assumption
    · exact mem_concat_self
  have hlen : t.lh.length + room t.ops ≤ n := by
    rw [hlh, hops, hroom']
    by_cases hb : b ∈ s.lh
    · rw [if_pos hb]
      have hle : logged.length ≤ (if b ∈ logged then logged else b :: logged).length := by
        split
        · exact Nat.le_refl _
        · exact Nat.le_succ _
      omega
    · have hnew : b ∉ logged := fun hb' => hb (hinv.logged b hb')
      have hbound : logged.length < maxOpBlocks := hinv.bound b rfl hnew
      rw [if_neg hb, if_neg hnew, length_append, length_singleton, length_cons]
      omega
  refine ⟨hdisk ▸ h.disk, ⟨?_, fun b' hb' => ?_, by omega⟩, fun op hop' => ?_, hlen⟩
  · rw [hlh]
    split
    · exact h.head.nodup
    · rename_i hb
      rw [← concat_eq_append]
      exact h.head.nodup.concat hb
  · rw [hlh] at hb'
    split at hb'
    · exact h.head.home b' hb'
    · rcases mem_append.1 hb' with hb' | hb'
      · exact h.head.home b' hb'
      · rw [mem_singleton.1 hb']
        exact hinv.home b rfl
  · rw [hops] at hop'
    rcases mem_or_eq_of_mem_set hop' with hop' | rfl
    · exact (h.ops op hop').mono hmono
    refine ⟨fun b' hb' => ?_, fun _ hn => (Option.some_ne_none _ hn.symm).elim,
      fun _ hn => (Option.some_ne_none _ hn.symm).elim⟩
    simp only at hb'
    split at hb'
    · exact hmono b' (hinv.logged b' hb')
    · rcases mem_cons.1 hb' with rfl | hb'
      · exact hmem
      · exact hmono b' (hinv.logged b' hb')

theorem Reserved.step (hn : n ≤ logSize) (hm : MemInv geo s) (he : Exclusive s) (hb : Bounded s l)
    (hbegin : l = .begin → s.lh.length + (s.ops.length + 1) * maxOpBlocks ≤ n)
    (hs : logStep geo s l = some t) : Reserved geo n t := by
  cases logStep_cases hs with
  | begin =>
    have hle := room_le s.ops
    have hnew := hbegin rfl
    refine ⟨h.disk, h.head, fun op hop => ?_, ?_⟩
    · rcases mem_append.1 hop with hop | hop
      · exact h.ops op hop
      · rw [mem_singleton.1 hop]
        exact ⟨fun _ hb => (not_mem_nil hb).elim,
          fun _ hn => (Option.some_ne_none _ hn.symm).elim,
          fun _ hn => (Option.some_ne_none _ hn.symm).elim⟩
    · rw [Nat.succ_mul] at hnew
      simp only [room, map_append, sum_append, map_singleton, sum_singleton,
        length_nil] at hle ⊢
      omega
  | tooBig => exact h.congr rfl rfl h.ops (Nat.le_refl _)
  | @check i b _ logged _ hop _ hhome =>
    have hinv := h.ops _ (mem_of_getElem? hop)
    obtain ⟨hroom, hroom'⟩ := room_split hop logged (some b)
    refine h.congr rfl rfl (fun op hop' => ?_) (hroom'.trans hroom.symm).le
    rcases mem_or_eq_of_mem_set hop' with hop' | rfl
    · exact h.ops op hop'
    · refine ⟨hinv.logged, fun b' hb' => ?_, fun b' hb' hnew => ?_⟩ <;> cases hb'
      · exact hhome
      · exact (hb _ hop).resolve_left hnew
  | append hop => exact h.append hop rfl rfl rfl
  | committing hop | endOp hop =>
    obtain ⟨hroom, -⟩ := room_split hop [] none
    refine h.congr rfl rfl (fun op hop' => h.ops op (mem_of_mem_eraseIdx hop')) ?_
    exact (Nat.le_add_right ..).trans hroom.ge
  | start => exact .of_quiet h.disk h.head rfl
  | commit hs => exact h.commit hn hm he.quiet hs
  | load b =>
    obtain ⟨hdisk, hlh, hops, _⟩ := bread_fields s b
    refine h.congr hdisk hlh ?_ ?_ <;> rw [hops]
    exact h.ops
  | evict => exact h.congr rfl rfl h.ops (Nat.le_refl _)
  | crash => exact .of_quiet h.disk (.nil geo n) rfl

end

theorem Reserved.reach {ok : LogState → LogLabel → Prop} (hn : n ≤ logSize)
    (hok : ∀ s l t, ok s l → logStep geo s l = some t → Bounded s l ∧
      (l = .begin → s.lh.length + (s.ops.length + 1) * maxOpBlocks ≤ n))
    (hr : (logMachine geo disk).Reach ok s) : MemInv geo s ∧ Exclusive s ∧ Reserved geo n s := by
  refine hr.invariant (P := fun s => MemInv geo s ∧ Exclusive s ∧ Reserved geo n s) ?_ ?_
  · rintro s ⟨hhead, rfl⟩
    refine ⟨.reboot geo disk, .reboot disk, .of_quiet ?_ (.nil geo n) rfl⟩
    simp only [LogState.reboot, hhead]
    exact .nil geo n
  · rintro s l t _ ⟨hm, he, h⟩ hl hs
    obtain ⟨hb, hbegin⟩ := hok s l t hl hs
    exact ⟨hm.step hs, he.step hs, h.step hn hm he hb hbegin hs⟩

/-- `begin_op` leaves two blocks of the log free: that of the header, and the one that `log_write`
asks for before it looks for the block in the header. -/
def Spare (geo : Geometry) (s : LogState) : LogLabel → Prop
  | .begin => s.lh.length + (s.ops.length + 1) * maxOpBlocks + 2 ≤ geo.size
  | _ => True

instance decidableSpare (geo : Geometry) (s : LogState) : (l : LogLabel) → Decidable (Spare geo s l)
  | .begin => inferInstanceAs (Decidable (_ ≤ _))
  | .check .. | .append _ | .endOp _ | .commit | .load _ | .evict _ | .crash =>
    inferInstanceAs (Decidable True)

theorem commitStep_not_panicked (hs : commitStep geo s = some t) (msg : LogPanic) :
    t.pc ≠ .panicked msg := by
  intro he
  cases commitStep_cases hs with
  | writeLog _ _ _ htpc | install _ _ _ htpc => cases htpc.symm.trans he
  | writeHead _ _ htpc | readHead _ _ htpc => cases htpc.symm.trans he
  | @clear recovering _ _ _ htpc => cases recovering <;> cases htpc.symm.trans he
  | logWritten | installed | finish => cases he

theorem Reserved.not_tooBig (h : Reserved geo n s) (hn : n < logSize) (hsize : n + 2 ≤ geo.size)
    (hpc : s.pc ≠ .panicked .tooBig) (hs : logStep geo s l = some t) :
    t.pc ≠ .panicked .tooBig := by
  have hle := h.head.le
  cases logStep_cases hs with
  | tooBig _ hfull => omega
  | commit hs => exact commitStep_not_panicked hs .tooBig
  | load b => rwa [(bread_fields s b).2.2.2.2]
  | start =>
    unfold LogState.startCommit
    split
    · exact fun he => by cases he
    · exact fun he => by cases he
  | committing | crash => exact fun he => by cases he
  | begin | check | append | endOp | evict => exact hpc

theorem not_tooBig_reach
    (hr : (logMachine mkfsLog disk).Reach (fun s l => Bounded s l ∧ Spare mkfsLog s l) s) :
    s.pc ≠ .panicked .tooBig := by
  refine hr.invariant (P := fun s => s.pc ≠ .panicked .tooBig) ?_ ?_
  · rintro s ⟨_, rfl⟩
    exact fun he => by cases he
  intro s l t hr hpc _ hs
  have h : Reserved mkfsLog 28 s := by
    refine (Reserved.reach (by decide) (fun s l t hok _ => ⟨hok.1, fun hl => ?_⟩) hr).2.2
    subst hl
    exact Nat.le_of_add_le_add_right hok.2
  exact h.not_tooBig (by decide) (by decide) hpc hs

/-- However the operations interleave, `end_op` does not panic, no operation is outstanding while
`commit` runs and no block is listed twice; and `log_write` does not panic where `begin_op` leaves
two blocks free. -/
theorem reservation_sound (hr : (logMachine mkfsLog disk).Reach Bounded s) :
    s.pc ≠ .panicked .committing ∧ (s.pc.busy = true → s.ops = []) ∧ s.lh.Nodup ∧
    ((logMachine mkfsLog disk).Reach (fun s l => Bounded s l ∧ Spare mkfsLog s l) s →
      s.pc ≠ .panicked .tooBig) := by
  have hbegin : ∀ s l t, Bounded s l → logStep mkfsLog s l = some t → Bounded s l ∧
      (l = .begin → s.lh.length + (s.ops.length + 1) * maxOpBlocks ≤ logSize) := by
    rintro s l t hb hs
    refine ⟨hb, fun hl => ?_⟩
    subst hl
    cases logStep_cases hs with
    | begin _ _ hfits => exact hfits
  obtain ⟨_, he, h⟩ := Reserved.reach (Nat.le_refl logSize) hbegin hr
  exact ⟨he.safe, he.quiet, h.head.nodup, not_tooBig_reach⟩

def twoOps : List LogLabel :=
  List.replicate 3 .commit ++ List.replicate 2 .begin ++
    logBlocks 0 7 [100, 101, 102, 103, 104, 105, 106, 107] ++
    logBlocks 1 7 [110, 111, 112, 113, 114, 115, 116, 117, 118, 119] ++ logBlocks 1 8 [119]

theorem reservation_sound_two : ∃ s, (logMachine mkfsLog fun _ _ => 0).Reach
    (fun s l => Bounded s l ∧ Spare mkfsLog s l) s ∧ s.lh.length = 18 ∧ s.lh.Nodup ∧
    s.pc ≠ .panicked .tooBig := by
  have hboot : (logMachine mkfsLog fun _ _ => 0).Reach
      (fun s l => Bounded s l ∧ Spare mkfsLog s l) (.reboot fun _ _ => 0) := .init ⟨rfl, rfl⟩
  obtain ⟨s, hr, hlen⟩ := hboot.exists_run (l := twoOps) (P := fun s => s.lh.length = 18)
    (by decide +kernel) (by decide +kernel)
  obtain ⟨_, _, hnodup, hbig⟩ := reservation_sound (hr.mono fun _ _ hok => hok.1)
  exact ⟨s, hr, hlen, hnodup, hbig hr⟩

def threeOps : List LogLabel :=
  List.replicate 3 .commit ++ List.replicate 3 .begin ++
    logBlocks 0 7 [100, 101, 102, 103, 104, 105, 106, 107, 108, 109] ++
    logBlocks 1 7 [110, 111, 112, 113, 114, 115, 116, 117, 118, 119] ++
    logBlocks 2 7 [120, 121, 122, 123, 124, 125, 126, 127, 128] ++ [.check 2 129 fun _ => 7]

/-- The thirtieth block that the three reserved is too much for `log_write`. -/
theorem third_op_too_big : ∃ s, (logMachine mkfsLog fun _ _ => 0).Reach Bounded s ∧
    s.pc = .panicked .tooBig := by
  have hboot : (logMachine mkfsLog fun _ _ => 0).Reach Bounded (.reboot fun _ _ => 0) :=
    .init ⟨rfl, rfl⟩
  exact hboot.exists_run (l := threeOps) (by decide +kernel) (by decide +kernel)

end Xv6Signals
