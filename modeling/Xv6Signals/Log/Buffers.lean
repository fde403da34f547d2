import Xv6Signals.Log.Machine

namespace Xv6Signals
open Lib Function List

variable {geo : Geometry} {s t : LogState} {b b' : Word} {data : Block} {k i tail : Nat}
  {logged logged' : List Word} {recovering : Bool} {l : LogLabel}

theorem Geometry.not_home_start (geo : Geometry) : ¬ geo.home geo.start := by
  rw [Geometry.home, BitVec.sub_self, BitVec.toNat_zero]
  exact Nat.not_le_of_lt geo.size_pos

theorem Geometry.logBlock_offset (hk : k + 1 < geo.size) :
    (geo.logBlock k - geo.start).toNat = k + 1 := by
  have hle := geo.size_le
  rw [Geometry.logBlock, BitVec.add_comm, BitVec.add_sub_cancel, BitVec.toNat_ofNat,
    Nat.mod_eq_of_lt (by omega)]

theorem Geometry.not_home_logBlock (hk : k + 1 < geo.size) : ¬ geo.home (geo.logBlock k) := by
  rw [Geometry.home, Geometry.logBlock_offset hk]
  omega

theorem Geometry.logBlock_ne_start (hk : k + 1 < 2 ^ 32) : geo.logBlock k ≠ geo.start := by
  intro h
  have hz : (geo.logBlock k - geo.start).toNat = 0 := by rw [h, BitVec.sub_self, BitVec.toNat_zero]
  rw [Geometry.logBlock, BitVec.add_comm, BitVec.add_sub_cancel, BitVec.toNat_ofNat,
    Nat.mod_eq_of_lt hk] at hz
  omega

theorem Geometry.logBlock_inj {k' : Nat} (hk : k + 1 < geo.size) (hk' : k' + 1 < geo.size)
    (h : geo.logBlock k = geo.logBlock k') : k = k' := by
  have ho := Geometry.logBlock_offset hk
  rw [h, Geometry.logBlock_offset hk'] at ho
  omega

theorem Geometry.ne_of_home (hb : geo.home b) (hb' : ¬ geo.home b') : b ≠ b' := by
  rintro rfl
  exact hb' hb

/-- Buffers that are not dirty and that no operation holds are those of the disk, and blocks of the
log are never dirty. -/
structure MemInv (geo : Geometry) (s : LogState) : Prop where
  clean : ∀ b x, s.cache b = some x → x.dirty = false → ¬ s.held b → x.data = s.disk b
  dirty : ∀ b x, s.cache b = some x → x.dirty = true → geo.home b
  held : ∀ b, s.held b → geo.home b

theorem MemInv.contents (h : MemInv geo s) (hb : ¬ geo.home b) : s.contents b = s.disk b := by
  unfold LogState.contents
  split
  · rename_i x hx
    refine h.clean b x hx ?_ fun hheld => hb (h.held b hheld)
    rw [Bool.eq_false_iff]
    exact fun hd => hb (h.dirty b x hx hd)
  · rfl

theorem bread_fields (s : LogState) (b : Word) : (s.bread b).disk = s.disk ∧
    (s.bread b).lh = s.lh ∧ (s.bread b).ops = s.ops ∧ (s.bread b).committing = s.committing ∧
    (s.bread b).pc = s.pc := by
  unfold LogState.bread
  split <;> exact ⟨rfl, rfl, rfl, rfl, rfl⟩

theorem bread_cache (s : LogState) (b b' : Word) : (s.bread b).cache b' = s.cache b' ∨
    s.cache b' = none ∧ (s.bread b).cache b' = some ⟨s.disk b', false⟩ := by
  unfold LogState.bread
  split
  · exact .inl rfl
  rename_i hb
  by_cases he : b' = b
  · subst he
    exact .inr ⟨hb, update_self ..⟩
  · exact .inl (update_of_ne he ..)

theorem held_congr (h : t.ops = s.ops) (b : Word) : t.held b ↔ s.held b := by
  rw [LogState.held, h]
  rfl

theorem MemInv.congr (h : MemInv geo s) (hcache : t.cache = s.cache) (hdisk : t.disk = s.disk)
    (hheld : ∀ b, t.held b ↔ s.held b) : MemInv geo t := by
  refine ⟨fun b x hx hd hh => ?_, fun b x hx hd => ?_, fun b hh => h.held b ((hheld b).1 hh)⟩
  · rw [hcache] at hx
    rw [hdisk]
    exact h.clean b x hx hd fun hh' => hh ((hheld b).2 hh')
  · rw [hcache] at hx
    exact h.dirty b x hx hd

theorem bread_cache_some {x : Buf} (h : s.cache b' = some x) (b : Word) :
    (s.bread b).cache b' = some x := by
  rcases bread_cache s b b' with hc | ⟨hn, _⟩
  · exact hc.trans h
  · cases hn.symm.trans h

theorem MemInv.bread (h : MemInv geo s) (b : Word) : MemInv geo (s.bread b) := by
  obtain ⟨hdisk, _, hops, _, _⟩ := bread_fields s b
  have hheld := held_congr hops
  refine ⟨fun b' x hx hd hh => ?_, fun b' x hx hd => ?_, fun b' hh => h.held b' ((hheld b').1 hh)⟩
  · rw [hdisk]
    rcases bread_cache s b b' with hc | ⟨_, hc⟩
    · exact h.clean b' x (hc.symm.trans hx) hd (fun hh' => hh ((hheld b').2 hh'))
    · cases hc.symm.trans hx
      rfl
  · rcases bread_cache s b b' with hc | ⟨_, hc⟩
    · exact h.dirty b' x (hc.symm.trans hx) hd
    · cases hc.symm.trans hx
      cases hd

theorem MemInv.bwrite (h : MemInv geo s) (b : Word) (data : Block) :
    MemInv geo (s.bwrite b data) := by
  refine ⟨fun b' x hx hd hh => ?_, fun b' x hx hd => ?_, h.held⟩
  · simp only [LogState.bwrite] at hx ⊢
    by_cases he : b' = b
    · subst he
      rw [update_self] at hx ⊢
      cases hx
      rfl
    · rw [update_of_ne he] at hx ⊢
      exact h.clean b' x hx hd hh
  · simp only [LogState.bwrite] at hx
    by_cases he : b' = b
    · subst he
      rw [update_self] at hx
      cases hx
      cases hd
    · rw [update_of_ne he] at hx
      exact h.dirty b' x hx hd

/-- A step of the commit that writes a block leaves the header in memory and the operations alone,
and the buffers of other blocks that were there. -/
structure DiskWrite (geo : Geometry) (s t : LogState) (b : Word) (data : Block) : Prop where
  disk : t.disk = update s.disk b data
  lh : t.lh = s.lh
  ops : t.ops = s.ops
  committing : t.committing = s.committing
  cache : ∀ b' x, b' ≠ b → s.cache b' = some x → t.cache b' = some x
  mem : MemInv geo s → MemInv geo t

theorem commitStep_writeLog (hpc : s.pc = .writeLog tail) (hs : commitStep geo s = some t) :
    (∃ b, s.lh[tail]? = some b ∧ DiskWrite geo s t (geo.logBlock tail) (s.contents b) ∧
      t.pc = .writeLog (tail + 1)) ∨
    s.lh[tail]? = none ∧ t = { s with pc := .writeHead } := by
  simp only [commitStep, hpc] at hs
  split at hs
  · rename_i b hb
    cases hs
    obtain ⟨hdisk₁, hlh₁, hops₁, hcom₁, -⟩ := bread_fields s (geo.logBlock tail)
    obtain ⟨hdisk₂, hlh₂, hops₂, hcom₂, -⟩ := bread_fields (s.bread (geo.logBlock tail)) b
    refine .inl ⟨b, hb, ⟨?_, hlh₂.trans hlh₁, hops₂.trans hops₁, hcom₂.trans hcom₁,
      fun b' x hne hx => ?_,
      fun h => (((h.bread _).bread _).bwrite ..).congr rfl rfl fun _ => Iff.rfl⟩, rfl⟩
    · rw [LogState.bwrite, hdisk₂, hdisk₁]
    · exact (update_of_ne hne ..).trans (bread_cache_some (bread_cache_some hx _) _)
  · cases hs
    exact .inr ⟨‹_›, rfl⟩

theorem commitStep_install (hpc : s.pc = .install tail recovering)
    (hs : commitStep geo s = some t) :
    (∃ b, s.lh[tail]? = some b ∧ DiskWrite geo s t b (s.contents (geo.logBlock tail)) ∧
      t.pc = .install (tail + 1) recovering) ∨
    s.lh[tail]? = none ∧ t = { s with lh := [], pc := .clear recovering } := by
  simp only [commitStep, hpc] at hs
  split at hs
  · rename_i b hb
    cases hs
    obtain ⟨hdisk, hlh, hops, hcom, -⟩ := bread_fields s (geo.logBlock tail)
    refine .inl ⟨b, hb, ⟨?_, hlh, hops, hcom, fun b' x hne hx => ?_,
      fun h => ((h.bread _).bwrite ..).congr rfl rfl fun _ => Iff.rfl⟩, rfl⟩
    · rw [LogState.bwrite, hdisk]
    · exact (update_of_ne hne ..).trans (bread_cache_some hx _)
  · cases hs
    exact .inr ⟨‹_›, rfl⟩

theorem commitStep_head (recovering : Bool) (hpc : s.pc = .writeHead ∨ s.pc = .clear recovering)
    (hs : commitStep geo s = some t) :
    DiskWrite geo s t geo.start (encodeHead s.lh (s.contents geo.start)) ∧
      t.pc = (if s.pc = .writeHead then .install 0 false else if recovering then .idle else .finish)
    := by
  rcases hpc with hpc | hpc <;> simp only [commitStep, hpc] at hs <;> cases hs <;>
    refine ⟨⟨rfl, rfl, rfl, rfl, fun b' x hne hx => (update_of_ne hne ..).trans hx,
      fun h => (h.bwrite ..).congr rfl rfl fun _ => Iff.rfl⟩, ?_⟩ <;> rw [hpc] <;> rfl

structure HeadRead (geo : Geometry) (s t : LogState) : Prop where
  disk : t.disk = s.disk
  lh : t.lh = decodeHead (s.contents geo.start)
  ops : t.ops = s.ops
  committing : t.committing = s.committing
  mem : MemInv geo s → MemInv geo t

theorem commitStep_readHead (hpc : s.pc = .readHead) (hs : commitStep geo s = some t) :
    HeadRead geo s t ∧ t.pc = .install 0 true := by
  simp only [commitStep, hpc] at hs
  cases hs
  obtain ⟨hdisk, _, hops, hcom, _⟩ := bread_fields s geo.start
  exact ⟨⟨hdisk, rfl, hops, hcom, fun h => (h.bread _).congr rfl rfl fun _ => Iff.rfl⟩, rfl⟩

inductive CommitMove (geo : Geometry) (s : LogState) : LogState → Prop
  | writeLog {tail : Nat} {b : Word} {t : LogState} (hpc : s.pc = .writeLog tail)
      (hb : s.lh[tail]? = some b) (ht : DiskWrite geo s t (geo.logBlock tail) (s.contents b))
      (htpc : t.pc = .writeLog (tail + 1)) : CommitMove geo s t
  | logWritten {tail : Nat} (hpc : s.pc = .writeLog tail) :
      CommitMove geo s { s with pc := .writeHead }
  | writeHead {t : LogState} (hpc : s.pc = .writeHead)
      (ht : DiskWrite geo s t geo.start (encodeHead s.lh (s.contents geo.start)))
      (htpc : t.pc = .install 0 false) : CommitMove geo s t
  | install {tail : Nat} {recovering : Bool} {b : Word} {t : LogState}
      (hpc : s.pc = .install tail recovering) (hb : s.lh[tail]? = some b)
      (ht : DiskWrite geo s t b (s.contents (geo.logBlock tail)))
      (htpc : t.pc = .install (tail + 1) recovering) : CommitMove geo s t
  | installed {tail : Nat} {recovering : Bool} (hpc : s.pc = .install tail recovering) :
      CommitMove geo s { s with lh := [], pc := .clear recovering }
  | clear {recovering : Bool} {t : LogState} (hpc : s.pc = .clear recovering)
      (ht : DiskWrite geo s t geo.start (encodeHead s.lh (s.contents geo.start)))
      (htpc : t.pc = if recovering then .idle else .finish) : CommitMove geo s t
  | finish (hpc : s.pc = .finish) : CommitMove geo s { s with committing := false, pc := .idle }
  | readHead {t : LogState} (hpc : s.pc = .readHead) (ht : HeadRead geo s t)
      (htpc : t.pc = .install 0 true) : CommitMove geo s t

theorem commitStep_cases (hs : commitStep geo s = some t) : CommitMove geo s t := by
  cases hpc : s.pc with
  | writeLog tail =>
    rcases commitStep_writeLog hpc hs with ⟨b, hb, ht, htpc⟩ | ⟨_, rfl⟩
    · exact .writeLog hpc hb ht htpc
    · exact .logWritten hpc
  | install tail recovering =>
    rcases commitStep_install hpc hs with ⟨b, hb, ht, htpc⟩ | ⟨_, rfl⟩
    · exact .install hpc hb ht htpc
    · exact .installed hpc
  | writeHead =>
    obtain ⟨ht, htpc⟩ := commitStep_head false (.inl hpc) hs
    rw [if_pos hpc] at htpc
    exact .writeHead hpc ht htpc
  | clear recovering =>
    obtain ⟨ht, htpc⟩ := commitStep_head recovering (.inr hpc) hs
    rw [if_neg fun he => by cases hpc.symm.trans he] at htpc
    exact .clear hpc ht htpc
  | finish =>
    simp only [commitStep, hpc] at hs
    cases hs
    exact .finish hpc
  | readHead =>
    obtain ⟨ht, htpc⟩ := commitStep_readHead hpc hs
    exact .readHead hpc ht htpc
  | idle =>
    simp only [commitStep, hpc] at hs
    cases hs
  | panicked msg =>
    simp only [commitStep, hpc] at hs
    cases hs

theorem mem_set_of_ne {x y op : Op} {ops : List Op} {i : Nat} (hi : ops[i]? = some x)
    (hop : op ∈ ops) (hne : op ≠ x) : op ∈ ops.set i y := by
  obtain ⟨j, hj⟩ := getElem?_of_mem hop
  have hij : i ≠ j := by
    rintro rfl
    exact hne (Option.some.inj (hj.symm.trans hi))
  exact mem_of_getElem? ((getElem?_set_ne hij).trans hj)

theorem MemInv.reboot (geo : Geometry) (disk : Word → Block) : MemInv geo (.reboot disk) where
  clean _ _ hx := by cases hx
  dirty _ _ hx := by cases hx
  held _ hh := by
    obtain ⟨op, hop, _⟩ := hh
    cases hop

theorem held_hold (hop : s.ops[i]? = some ⟨logged, none⟩)
    (hops : t.ops = s.ops.set i ⟨logged', some b⟩) (b' : Word) :
    t.held b' ↔ s.held b' ∨ b' = b := by
  constructor
  · rintro ⟨op, hmem, hnext⟩
    rw [hops] at hmem
    rcases mem_or_eq_of_mem_set hmem with hmem | rfl
    · exact .inl ⟨op, hmem, hnext⟩
    · exact .inr (Option.some.inj hnext).symm
  · rintro (⟨op, hmem, hnext⟩ | rfl)
    · refine ⟨op, hops ▸ mem_set_of_ne hop hmem ?_, hnext⟩
      rintro rfl
      cases hnext
    · exact ⟨_, hops ▸ mem_set (List.getElem?_eq_some_iff.1 hop).1 .., rfl⟩

theorem held_of_release (hops : t.ops = s.ops.set i ⟨logged', none⟩) (hh : t.held b') :
    s.held b' := by
  obtain ⟨op, hmem, hnext⟩ := hh
  rw [hops] at hmem
  rcases mem_or_eq_of_mem_set hmem with hmem | rfl
  · exact ⟨op, hmem, hnext⟩
  · cases hnext

theorem held_release (hop : s.ops[i]? = some ⟨logged, some b⟩)
    (hops : t.ops = s.ops.set i ⟨logged', none⟩) (hne : b' ≠ b) : t.held b' ↔ s.held b' := by
  refine ⟨held_of_release hops, fun hh => ?_⟩
  obtain ⟨op, hmem, hnext⟩ := hh
  refine ⟨op, hops ▸ mem_set_of_ne hop hmem ?_, hnext⟩
  rintro rfl
  exact hne (Option.some.inj hnext).symm

theorem held_eraseIdx (hop : s.ops[i]? = some ⟨logged, none⟩) (hops : t.ops = s.ops.eraseIdx i)
    (b : Word) : t.held b ↔ s.held b := by
  constructor
  · rintro ⟨op, hmem, hnext⟩
    rw [hops] at hmem
    exact ⟨op, mem_of_mem_eraseIdx hmem, hnext⟩
  rintro ⟨op, hmem, hnext⟩
  obtain ⟨j, hj⟩ := getElem?_of_mem hmem
  refine ⟨op, hops ▸ mem_eraseIdx_iff_getElem?.2 ⟨j, ?_, hj⟩, hnext⟩
  rintro rfl
  cases hop.symm.trans hj
  cases hnext

theorem held_begin (hops : t.ops = s.ops ++ [⟨[], none⟩]) (b : Word) : t.held b ↔ s.held b := by
  simp [LogState.held, hops]

theorem MemInv.update {x : Buf} (h : MemInv geo s) (hhome : geo.home b)
    (hcache : t.cache = update s.cache b (some x)) (hdisk : t.disk = s.disk)
    (hx : x.dirty = true ∨ t.held b) (hheld : ∀ b', b' ≠ b → (t.held b' ↔ s.held b')) :
    MemInv geo t := by
  refine ⟨fun b' x' hx' hd hh => ?_, fun b' x' hx' hd => ?_, fun b' hh => ?_⟩
  · by_cases hne : b' = b
    · subst hne
      rw [hcache, update_self] at hx'
      cases hx'
      exact (hx.elim (fun he => Bool.false_ne_true (hd.symm.trans he)) hh).elim
    · rw [hcache, update_of_ne hne] at hx'
      rw [hdisk]
      exact h.clean b' x' hx' hd fun hh' => hh ((hheld b' hne).2 hh')
  · by_cases hne : b' = b
    · rw [hne]
      exact hhome
    · rw [hcache, update_of_ne hne] at hx'
      exact h.dirty b' x' hx' hd
  · by_cases hne : b' = b
    · rw [hne]
      exact hhome
    · exact h.held b' ((hheld b' hne).1 hh)

theorem MemInv.evict (h : MemInv geo s) (b : Word) :
    MemInv geo { s with cache := Function.update s.cache b none } := by
  have hold {b' : Word} {x : Buf} (hx : Function.update s.cache b none b' = some x) :
      s.cache b' = some x := by
    by_cases hne : b' = b
    · rw [hne, update_self] at hx
      cases hx
    · exact (update_of_ne hne ..).symm.trans hx
  exact ⟨fun b' x hx => h.clean b' x (hold hx), fun b' x hx => h.dirty b' x (hold hx), h.held⟩

theorem MemInv.commit (h : MemInv geo s) (hs : commitStep geo s = some t) : MemInv geo t := by
  cases commitStep_cases hs with
  | writeLog _ _ ht | writeHead _ ht | install _ _ ht | clear _ ht => exact ht.mem h
  | readHead _ ht => exact ht.mem h
  | logWritten | installed | finish => exact h.congr rfl rfl fun _ => Iff.rfl

theorem MemInv.step (h : MemInv geo s) (hs : logStep geo s l = some t) : MemInv geo t := by
  cases logStep_cases hs with
  | begin => exact h.congr rfl rfl (held_begin rfl)
  | tooBig => exact h.congr rfl rfl fun _ => Iff.rfl
  | check hop _ hhome =>
    refine h.update hhome rfl rfl (.inr ((held_hold hop rfl _).2 (.inr rfl))) fun b' hne => ?_
    exact (held_hold hop rfl b').trans (or_iff_left hne)
  | append hop =>
    have hhome := h.held _ ⟨_, mem_of_getElem? hop, rfl⟩
    exact h.update hhome rfl rfl (.inl rfl) fun b' hne => held_release hop rfl hne
  | committing hop => exact h.congr rfl rfl (held_eraseIdx hop rfl)
  | start hop _ _ hlast => exact h.congr rfl rfl (held_eraseIdx hop hlast.symm)
  | endOp hop => exact h.congr rfl rfl (held_eraseIdx hop rfl)
  | commit hs => exact h.commit hs
  | load b => exact h.bread b
  | evict => exact h.evict _
  | crash => exact .reboot geo s.disk

end Xv6Signals
