import Xv6Signals.Log.Buffers

namespace Xv6Signals
open Lib Function List Geometry

variable {geo : Geometry} {s t : LogState} {b b' : Word} {data : Block} {lh : List Word} {k : Nat}
  {disk : Word → Block} {v : Word → Block} {blocks : List Word}

theorem decodeHead_encodeHead (old : Block) (h : lh.length ≤ logSize) :
    decodeHead (encodeHead lh old) = lh := by
  have hlen : lh.length ≤ 30 := h
  have hn : (encodeHead lh old 0).toNat = lh.length := by
    show (BitVec.ofNat 32 lh.length).toNat = _
    rw [BitVec.toNat_ofNat, Nat.mod_eq_of_lt (by omega)]
  apply ext_getElem
  · rw [decodeHead, length_map, length_range, hn]
  intro i hi hi'
  have hlt : i + 1 < 128 := by omega
  simp only [decodeHead, getElem_map, getElem_range, dif_pos hlt, encodeHead,
    Nat.succ_ne_zero, if_false, Nat.add_sub_cancel]
  exact getD_eq_getElem _ _ hi'

abbrev Tx := List (Word × Block)

/-- The history of the log: what has been logged since the last commit, the transactions whose
commit was called, how many of these commits have finished, and whether the header of the one that
has not is on the disk. -/
structure LogHistory where
  writes : Tx
  committed : List Tx
  finished : Nat
  onDisk : Bool

def LogHistory.kept (g : LogHistory) : Nat := if g.onDisk then g.committed.length else g.finished

def LogHistory.after (g : LogHistory) (s : LogState) : LogLabel → LogHistory
  | .append i =>
    match s.ops[i]? with
    | some ⟨_, some b⟩ => { g with writes := g.writes ++ [(b, s.contents b)] }
    | _ => g
  | .endOp i =>
    if s.ops.eraseIdx i = [] ∧ ¬ s.committing then
      { g with writes := [], committed := g.committed ++ [g.writes] }
    else g
  | .commit =>
    match s.pc with
    | .writeHead => { g with onDisk := true }
    | .finish => { g with finished := g.committed.length, onDisk := false }
    -- a recovery ends: the transaction that was interrupted is there or it is not
    | .clear true =>
      { g with committed := g.committed.take g.kept, finished := g.kept, onDisk := false }
    | _ => g
  | .crash => { g with writes := [] }
  | _ => g

def LogHistory.survives (g : LogHistory) (disk : Word → Block) : Word → Block :=
  replay disk (g.committed.take g.kept)

structure Logged (geo : Geometry) (disk : Word → Block) (blocks : List Word)
    (v : Word → Block) : Prop where
  home : ∀ b ∈ blocks, geo.home b
  fits : blocks.length < geo.size
  copy : ∀ k b, blocks[k]? = some b → disk (geo.logBlock k) = v b
  other : ∀ b, geo.home b → b ∉ blocks → disk b = v b

structure DiskInv (geo : Geometry) (disk₀ : Word → Block) (disk : Word → Block)
    (g : LogHistory) : Prop where
  finished : g.finished ≤ g.committed.length
  last : g.committed.length ≤ g.finished + 1
  logged : Logged geo disk (decodeHead (disk geo.start)) (g.survives disk₀)
  empty : g.onDisk = false → decodeHead (disk geo.start) = []

/-- The header in memory lists the blocks that the transaction has written, and their buffers are
pinned with what was written last. -/
structure Wrote (geo : Geometry) (s : LogState) (writes : Tx) : Prop where
  mem : ∀ b, b ∈ s.lh ↔ b ∈ writes.map Prod.fst
  pinned : ∀ b ∈ s.lh, ∃ d, s.cache b = some ⟨d, true⟩ ∧
    (¬ s.held b → d = overwrite s.disk writes b)
  home : ∀ b ∈ s.lh, geo.home b
  fits : s.lh.length < geo.size
  small : s.lh.length ≤ logSize

structure Copying (geo : Geometry) (disk₀ : Word → Block) (s : LogState) (g : LogHistory)
    (tail : Nat) : Prop where
  offDisk : g.onDisk = false
  last : ∃ txs tx, g.committed = txs ++ [tx] ∧ txs.length = g.finished ∧ Wrote geo s tx
  copied : ∀ k b, k < tail → s.lh[k]? = some b →
    s.disk (geo.logBlock k) = replay disk₀ g.committed b

def PhaseInv (geo : Geometry) (disk₀ : Word → Block) (s : LogState) (g : LogHistory) : Prop :=
  match s.pc with
  | .idle => g.onDisk = false ∧ g.finished = g.committed.length ∧ Wrote geo s g.writes
  | .writeLog tail => Copying geo disk₀ s g tail
  | .writeHead => Copying geo disk₀ s g s.lh.length
  | .install tail recovering => s.lh = decodeHead (s.disk geo.start) ∧
      (recovering = false → g.onDisk = true) ∧
      ∀ k b, k < tail → s.lh[k]? = some b → s.disk b = g.survives disk₀ b
  | .clear recovering => s.lh = [] ∧ (recovering = false → g.onDisk = true) ∧
      ∀ b, geo.home b → s.disk b = g.survives disk₀ b
  | .finish => s.lh = [] ∧ decodeHead (s.disk geo.start) = [] ∧
      ∀ b, geo.home b → s.disk b = replay disk₀ g.committed b
  | .readHead => True
  | .panicked _ => True

def CommitPc.busy : CommitPc → Bool
  | .idle | .panicked _ => false
  | _ => true

structure LogInv (geo : Geometry) (disk₀ : Word → Block) (s : LogState)
    (g : LogHistory) : Prop where
  disk : DiskInv geo disk₀ s.disk g
  mem : MemInv geo s
  quiet : s.pc.busy = true → s.ops = [] ∧ g.writes = []
  committing : s.pc.busy = true → s.pc.up = true → s.committing = true
  phase : PhaseInv geo disk₀ s g

theorem Logged.of_installed (h : ∀ b, geo.home b → disk b = v b) : Logged geo disk [] v where
  home _ hb := (not_mem_nil hb).elim
  fits := geo.size_pos
  copy _ _ hb := by cases hb
  other b hb _ := h b hb

theorem Logged.writeLog (h : Logged geo disk [] v) (hk : k + 1 < geo.size) :
    Logged geo (update disk (geo.logBlock k) data) [] v := by
  refine .of_installed fun b hb => ?_
  rw [update_of_ne (ne_of_home hb (not_home_logBlock hk))]
  exact h.other b hb not_mem_nil

theorem Logged.writeHead (h : Logged geo disk blocks v) :
    Logged geo (update disk geo.start data) blocks v := by
  refine ⟨h.home, h.fits, fun k b hb => ?_, fun b hb hn => ?_⟩
  · have hk : k < blocks.length := (List.getElem?_eq_some_iff.1 hb).1
    have hfits := h.fits
    have hle := geo.size_le
    rw [update_of_ne (logBlock_ne_start (by omega))]
    exact h.copy k b hb
  · rw [update_of_ne (ne_of_home hb geo.not_home_start)]
    exact h.other b hb hn

theorem Logged.install (h : Logged geo disk blocks v)
    (hb : b ∈ blocks) : Logged geo (update disk b data) blocks v := by
  refine ⟨h.home, h.fits, fun k b' hb' => ?_, fun b' hb' hn => ?_⟩
  · have hk : k < blocks.length := (List.getElem?_eq_some_iff.1 hb').1
    have hfits := h.fits
    have hne := ne_of_home (h.home b hb) (not_home_logBlock (k := k) (by omega))
    rw [update_of_ne hne.symm]
    exact h.copy k b' hb'
  · have hne : b' ≠ b := by
      rintro rfl
      exact hn hb
    rw [update_of_ne hne]
    exact h.other b' hb' hn

variable {g : LogHistory} {disk₀ : Word → Block} {l : LogLabel} {tail : Nat} {recovering : Bool}
  {tx : Tx}

theorem LogHistory.survives_of_offDisk (h : g.onDisk = false) :
    g.survives disk₀ = replay disk₀ (g.committed.take g.finished) := by
  rw [LogHistory.survives, LogHistory.kept, h]
  rfl

theorem LogHistory.survives_of_onDisk (h : g.onDisk = true) :
    g.survives disk₀ = replay disk₀ g.committed := by
  rw [LogHistory.survives, LogHistory.kept, h, if_pos rfl, take_length]

theorem Wrote.congr (h : Wrote geo s tx) (hlh : t.lh = s.lh) (hheld : ∀ b, t.held b ↔ s.held b)
    (hcache : ∀ b ∈ s.lh, ∀ x, s.cache b = some x → t.cache b = some x) : Wrote geo t tx := by
  refine ⟨fun b => ?_, fun b hb => ?_, fun b hb => ?_, ?_, ?_⟩
  · rw [hlh]
    exact h.mem b
  · rw [hlh] at hb
    obtain ⟨d, hd, hv⟩ := h.pinned b hb
    refine ⟨d, hcache b hb _ hd, fun hh => ?_⟩
    rw [overwrite_of_mem t.disk s.disk ((h.mem b).1 hb)]
    exact hv fun hh' => hh ((hheld b).2 hh')
  · rw [hlh] at hb
    exact h.home b hb
  · rw [hlh]
    exact h.fits
  · rw [hlh]
    exact h.small

theorem DiskInv.writeLog (h : DiskInv geo disk₀ disk g) (hoff : g.onDisk = false)
    (hk : k + 1 < geo.size) : DiskInv geo disk₀ (update disk (geo.logBlock k) data) g := by
  have hhead : update disk (geo.logBlock k) data geo.start = disk geo.start :=
    update_of_ne (logBlock_ne_start (hk.trans_le geo.size_le)).symm ..
  have hlogged := h.logged
  rw [h.empty hoff] at hlogged
  refine ⟨h.finished, h.last, ?_, fun _ => ?_⟩ <;> rw [hhead, h.empty hoff]
  exact hlogged.writeLog hk

theorem Wrote.nil (geo : Geometry) (hlh : s.lh = []) : Wrote geo s [] := by
  refine ⟨fun b => ?_, fun b hb => ?_, fun b hb => ?_, ?_, ?_⟩ <;> rw [hlh] at *
  · exact Iff.rfl
  · cases hb
  · cases hb
  · exact geo.size_pos
  · exact Nat.zero_le _

theorem DiskInv.kept_le (h : DiskInv geo disk₀ disk g) : g.kept ≤ g.committed.length := by
  unfold LogHistory.kept
  split
  · exact Nat.le_refl _
  · exact h.finished

theorem Copying.value (h : Copying geo disk₀ s g tail) (hops : s.ops = []) (hb : b ∈ s.lh) :
    s.cache b = some ⟨replay disk₀ g.committed b, true⟩ := by
  obtain ⟨txs, tx, hc, _, hw⟩ := h.last
  obtain ⟨d, hd, hv⟩ := hw.pinned b hb
  have hheld : ¬ s.held b := by
    rintro ⟨op, hop, _⟩
    rw [hops] at hop
    cases hop
  rw [hd, hc, replay_concat, hv hheld,
    overwrite_of_mem s.disk (replay disk₀ txs) ((hw.mem b).1 hb)]

theorem Copying.other (h : Copying geo disk₀ s g tail) (hd : DiskInv geo disk₀ s.disk g)
    (hb : geo.home b) (hn : b ∉ s.lh) : s.disk b = replay disk₀ g.committed b := by
  obtain ⟨txs, tx, hc, hl, hw⟩ := h.last
  have hdisk := hd.logged.other b hb (by rw [hd.empty h.offDisk]; exact not_mem_nil)
  rw [LogHistory.survives_of_offDisk h.offDisk, hc, ← hl, take_left'] at hdisk
  · rw [hc, replay_concat, overwrite_of_notMem fun hm => hn ((hw.mem b).2 hm)]
    exact hdisk
  · rfl

theorem LogInv.commit_writeLog (h : LogInv geo disk₀ s g) (hpc : s.pc = .writeLog tail)
    (hs : commitStep geo s = some t) : LogInv geo disk₀ t g := by
  have hphase := h.phase
  obtain ⟨hops, hwrites⟩ := h.quiet (by rw [hpc]; rfl)
  have hcom := h.committing (by rw [hpc]; rfl) (by rw [hpc]; rfl)
  simp only [PhaseInv, hpc] at hphase
  obtain ⟨txs, tx, hc, hl, hw⟩ := hphase.last
  have hfits := hw.fits
  rcases commitStep_writeLog hpc hs with ⟨b, hb, ht, htpc⟩ | ⟨hb, rfl⟩
  · have hmem : b ∈ s.lh := mem_of_getElem? hb
    have htail : tail < s.lh.length := (List.getElem?_eq_some_iff.1 hb).1
    have hvalue := hphase.value hops hmem
    refine ⟨?_, ht.mem h.mem, fun _ => ⟨ht.ops.trans hops, hwrites⟩,
      fun _ _ => ht.committing.trans hcom, ?_⟩
    · rw [ht.disk]
      exact h.disk.writeLog hphase.offDisk (by omega)
    simp only [PhaseInv, htpc]
    refine ⟨hphase.offDisk, ⟨txs, tx, hc, hl, ?_⟩, fun k b' hk hb' => ?_⟩
    · refine hw.congr ht.lh (held_congr ht.ops) fun b' hb' x hx => ht.cache b' x ?_ hx
      exact ne_of_home (hw.home b' hb') (not_home_logBlock (by omega))
    rw [ht.lh] at hb'
    have hklt : k < s.lh.length := (List.getElem?_eq_some_iff.1 hb').1
    rw [ht.disk]
    by_cases hkt : k = tail
    · subst hkt
      cases hb.symm.trans hb'
      rw [update_self, LogState.contents, hvalue]
    · rw [update_of_ne fun he => hkt (logBlock_inj (by omega) (by omega) he)]
      exact hphase.copied k b' (by omega) hb'
  · rw [List.getElem?_eq_none_iff] at hb
    refine ⟨h.disk, h.mem.congr rfl rfl fun _ => Iff.rfl, fun _ => ⟨hops, hwrites⟩, fun _ _ => hcom,
      hphase.offDisk,
      ⟨txs, tx, hc, hl, hw.congr rfl (fun _ => Iff.rfl) fun _ _ _ hx => hx⟩, fun k b hk hkb => ?_⟩
    exact hphase.copied k b (Nat.lt_of_lt_of_le hk hb) hkb

theorem LogInv.commit_writeHead (h : LogInv geo disk₀ s g) (hpc : s.pc = .writeHead)
    (hs : commitStep geo s = some t) : LogInv geo disk₀ t { g with onDisk := true } := by
  have hphase := h.phase
  obtain ⟨hops, hwrites⟩ := h.quiet (by rw [hpc]; rfl)
  have hcom := h.committing (by rw [hpc]; rfl) (by rw [hpc]; rfl)
  simp only [PhaseInv, hpc] at hphase
  obtain ⟨txs, tx, hc, hl, hw⟩ := hphase.last
  obtain ⟨ht, htpc⟩ := commitStep_head false (.inl hpc) hs
  rw [if_pos hpc] at htpc
  have hhead : decodeHead (t.disk geo.start) = s.lh := by
    rw [ht.disk, update_self, decodeHead_encodeHead _ hw.small]
  have hlogged : Logged geo s.disk s.lh (replay disk₀ g.committed) :=
    ⟨hw.home, hw.fits, fun k b hb => hphase.copied k b (List.getElem?_eq_some_iff.1 hb).1 hb,
      fun b hb hn => hphase.other h.disk hb hn⟩
  refine ⟨⟨h.disk.finished, h.disk.last, ?_, fun he => by cases he⟩, ht.mem h.mem,
    fun _ => ⟨ht.ops.trans hops, hwrites⟩, fun _ _ => ht.committing.trans hcom, ?_⟩
  · rw [hhead, ht.disk, LogHistory.survives_of_onDisk rfl]
    exact hlogged.writeHead
  · simp only [PhaseInv, htpc]
    exact ⟨ht.lh.trans hhead.symm, fun _ => trivial, fun k b hk => by cases hk⟩

theorem DiskInv.install (h : DiskInv geo disk₀ disk g) (hb : b ∈ decodeHead (disk geo.start)) :
    DiskInv geo disk₀ (update disk b data) g := by
  have hne := ne_of_home (h.logged.home b hb) geo.not_home_start
  have hhead : update disk b data geo.start = disk geo.start :=
    update_of_ne hne.symm ..
  refine ⟨h.finished, h.last, ?_, fun hoff => ?_⟩ <;> rw [hhead]
  · exact h.logged.install hb
  · exact h.empty hoff

section

variable (h : LogInv geo disk₀ s g)
include h

theorem LogInv.commit_install (hpc : s.pc = .install tail recovering)
    (hs : commitStep geo s = some t) : LogInv geo disk₀ t g := by
  have hphase := h.phase
  obtain ⟨hops, hwrites⟩ := h.quiet (by rw [hpc]; rfl)
  simp only [PhaseInv, hpc] at hphase
  obtain ⟨hlh, hon, hdone⟩ := hphase
  have hlogged := h.disk.logged
  have hfits := hlogged.fits
  rw [← hlh] at hlogged hfits
  rcases commitStep_install hpc hs with ⟨b, hb, ht, htpc⟩ | ⟨hb, rfl⟩
  · have hmem : b ∈ s.lh := mem_of_getElem? hb
    have htail : tail < s.lh.length := (List.getElem?_eq_some_iff.1 hb).1
    have hvalue : s.contents (geo.logBlock tail) = g.survives disk₀ b := by
      rw [h.mem.contents (not_home_logBlock (by omega))]
      exact hlogged.copy tail b hb
    have hstart := ne_of_home (hlogged.home b hmem) geo.not_home_start
    refine ⟨?_, ht.mem h.mem, fun _ => ⟨ht.ops.trans hops, hwrites⟩, fun _ hup => ?_, ?_⟩
    · rw [ht.disk]
      exact h.disk.install (hlh ▸ hmem)
    · rw [htpc] at hup
      exact ht.committing.trans (h.committing (by rw [hpc]; rfl) (by rw [hpc]; exact hup))
    simp only [PhaseInv, htpc]
    refine ⟨?_, hon, fun k b' hk hb' => ?_⟩
    · rw [ht.lh, ht.disk, update_of_ne hstart.symm]
      exact hlh
    rw [ht.lh] at hb'
    rw [ht.disk]
    by_cases he : b' = b
    · subst he
      rw [update_self, hvalue]
    rw [update_of_ne he]
    refine hdone k b' (Nat.lt_of_le_of_ne (Nat.le_of_lt_succ hk) ?_) hb'
    rintro rfl
    cases hb.symm.trans hb'
    exact he rfl
  · rw [List.getElem?_eq_none_iff] at hb
    refine ⟨h.disk, h.mem.congr rfl rfl fun _ => Iff.rfl, fun _ => ⟨hops, hwrites⟩,
      fun _ hup => h.committing (by rw [hpc]; rfl) (by rw [hpc]; exact hup), rfl, hon,
      fun b' hb' => ?_⟩
    by_cases hm : b' ∈ s.lh
    · obtain ⟨k, hk⟩ := getElem?_of_mem hm
      exact hdone k b' (Nat.lt_of_lt_of_le (List.getElem?_eq_some_iff.1 hk).1 hb) hk
    · exact hlogged.other b' hb' hm

theorem LogInv.commit_clear (hpc : s.pc = .clear recovering)
    (hs : commitStep geo s = some t) : LogInv geo disk₀ t (g.after s .commit) := by
  have hphase := h.phase
  obtain ⟨hops, hwrites⟩ := h.quiet (by rw [hpc]; rfl)
  simp only [PhaseInv, hpc] at hphase
  obtain ⟨hlh, hon, hhome⟩ := hphase
  obtain ⟨ht, htpc⟩ := commitStep_head recovering (.inr hpc) hs
  rw [hpc, if_neg (fun he => by cases he)] at htpc
  have hhead : decodeHead (t.disk geo.start) = [] := by
    rw [ht.disk, update_self, hlh, decodeHead_encodeHead _ (Nat.zero_le _)]
  have hhome' (b : Word) (hb : geo.home b) : t.disk b = g.survives disk₀ b := by
    rw [ht.disk, update_of_ne (ne_of_home hb geo.not_home_start)]
    exact hhome b hb
  have hmem := ht.mem h.mem
  cases recovering with
  | false =>
    have hg : g.after s .commit = g := by simp only [LogHistory.after, hpc]
    rw [hg]
    have hcom := h.committing (by rw [hpc]; rfl) (by rw [hpc]; rfl)
    refine ⟨⟨h.disk.finished, h.disk.last, ?_, fun _ => hhead⟩, hmem,
      fun _ => ⟨ht.ops.trans hops, hwrites⟩, fun _ _ => ht.committing.trans hcom, ?_⟩
    · rw [hhead]
      exact .of_installed hhome'
    · simp only [PhaseInv, htpc]
      rw [LogHistory.survives_of_onDisk (hon rfl)] at hhome'
      exact ⟨ht.lh.trans hlh, hhead, hhome'⟩
  | true =>
    have hg : g.after s .commit =
        { g with committed := g.committed.take g.kept, finished := g.kept, onDisk := false } := by
      simp only [LogHistory.after, hpc]
    have hlen : (g.committed.take g.kept).length = g.kept := by
      rw [length_take, Nat.min_eq_left h.disk.kept_le]
    have hsurvives : LogHistory.survives
        { g with committed := g.committed.take g.kept, finished := g.kept, onDisk := false }
        disk₀ = g.survives disk₀ := by
      rw [LogHistory.survives_of_offDisk rfl, LogHistory.survives, take_take, Nat.min_self]
    rw [hg]
    refine ⟨⟨hlen.ge, ?_, ?_, fun _ => hhead⟩, hmem, fun hb => ?_, fun hb => ?_, ?_⟩
    · rw [hlen]
      exact Nat.le_succ _
    · rw [hhead, hsurvives]
      exact .of_installed hhome'
    · rw [htpc] at hb
      cases hb
    · rw [htpc] at hb
      cases hb
    · simp only [PhaseInv, htpc]
      refine ⟨trivial, hlen.symm, ?_⟩
      rw [hwrites]
      exact .nil geo (ht.lh.trans hlh)

theorem LogInv.commit_finish (hpc : s.pc = .finish) (hs : commitStep geo s = some t) :
    LogInv geo disk₀ t { g with finished := g.committed.length, onDisk := false } := by
  have hphase := h.phase
  obtain ⟨hops, hwrites⟩ := h.quiet (by rw [hpc]; rfl)
  simp only [PhaseInv, hpc] at hphase
  obtain ⟨hlh, hhead, hhome⟩ := hphase
  simp only [commitStep, hpc] at hs
  cases hs
  refine ⟨⟨Nat.le_refl _, Nat.le_succ _, ?_, fun _ => hhead⟩, h.mem.congr rfl rfl fun _ => Iff.rfl,
    fun hb => (Bool.false_ne_true hb).elim, fun hb => (Bool.false_ne_true hb).elim, rfl, rfl, ?_⟩
  · rw [LogHistory.survives_of_offDisk rfl, take_length]
    simp only [hhead]
    exact .of_installed hhome
  · rw [hwrites]
    exact .nil geo hlh

theorem LogInv.commit_readHead (hpc : s.pc = .readHead)
    (hs : commitStep geo s = some t) : LogInv geo disk₀ t g := by
  obtain ⟨hops, hwrites⟩ := h.quiet (by rw [hpc]; rfl)
  obtain ⟨ht, htpc⟩ := commitStep_readHead hpc hs
  refine ⟨ht.disk ▸ h.disk, ht.mem h.mem, fun _ => ⟨ht.ops.trans hops, hwrites⟩, fun _ hup => ?_,
    ?_⟩
  · rw [htpc] at hup
    cases hup
  · simp only [PhaseInv, htpc]
    refine ⟨?_, fun he => (Bool.false_ne_true he.symm).elim, fun k b hk => by cases hk⟩
    rw [ht.lh, ht.disk, h.mem.contents geo.not_home_start]

theorem LogInv.commit (hs : commitStep geo s = some t) :
    LogInv geo disk₀ t (g.after s .commit) := by
  cases hpc : s.pc with
  | clear recovering => exact h.commit_clear hpc hs
  | writeLog tail =>
    simp only [LogHistory.after, hpc]
    exact h.commit_writeLog hpc hs
  | writeHead =>
    simp only [LogHistory.after, hpc]
    exact h.commit_writeHead hpc hs
  | install tail recovering =>
    simp only [LogHistory.after, hpc]
    exact h.commit_install hpc hs
  | finish =>
    simp only [LogHistory.after, hpc]
    exact h.commit_finish hpc hs
  | readHead =>
    simp only [LogHistory.after, hpc]
    exact h.commit_readHead hpc hs
  | idle =>
    simp only [commitStep, hpc] at hs
    cases hs
  | panicked msg =>
    simp only [commitStep, hpc] at hs
    cases hs

end

theorem LogInv.pc_idle {i : Nat} {op : Op} (h : LogInv geo disk₀ s g) (hup : s.pc.up = true)
    (hop : s.ops[i]? = some op) : s.pc = .idle := by
  cases hpc : s.pc with
  | idle => rfl
  | panicked msg =>
    rw [hpc] at hup
    cases hup
  | _ =>
    rw [(h.quiet (by rw [hpc]; rfl)).1] at hop
    cases hop

theorem LogInv.of_idle (h : LogInv geo disk₀ s g) (hmem : MemInv geo t) (hpc : s.pc = .idle)
    (htpc : t.pc = s.pc) (hdisk : t.disk = s.disk) (hw : Wrote geo t tx) :
    LogInv geo disk₀ t { g with writes := tx } := by
  have hphase := h.phase
  simp only [PhaseInv, hpc] at hphase
  rw [hpc] at htpc
  refine ⟨?_, hmem, fun hb => ?_, fun hb => ?_, ?_⟩
  · rw [hdisk]
    exact ⟨h.disk.finished, h.disk.last, h.disk.logged, h.disk.empty⟩
  · rw [htpc] at hb
    cases hb
  · rw [htpc] at hb
    cases hb
  · simp only [PhaseInv, htpc]
    exact ⟨hphase.1, hphase.2.1, hw⟩

theorem LogInv.wrote (h : LogInv geo disk₀ s g) (hpc : s.pc = .idle) : Wrote geo s g.writes := by
  have hphase := h.phase
  simp only [PhaseInv, hpc] at hphase
  exact hphase.2.2

theorem LogInv.panic {msg : LogPanic} (h : LogInv geo disk₀ s g) (hmem : MemInv geo t)
    (hdisk : t.disk = s.disk) (hpc : t.pc = .panicked msg) : LogInv geo disk₀ t g := by
  refine ⟨hdisk ▸ h.disk, hmem, fun hb => ?_, fun hb => ?_, ?_⟩
  · rw [hpc] at hb
    cases hb
  · rw [hpc] at hb
    cases hb
  · simp only [PhaseInv, hpc]

theorem LogInv.pc_idle_of_begin (h : LogInv geo disk₀ s g) (hup : s.pc.up = true)
    (hcom : s.committing = false) : s.pc = .idle := by
  cases hpc : s.pc with
  | idle => rfl
  | panicked msg =>
    rw [hpc] at hup
    cases hup
  | _ =>
    have hbusy := h.committing (by rw [hpc]; rfl) hup
    exact (Bool.false_ne_true (hcom.symm.trans hbusy)).elim

theorem Wrote.check {dirty : Bool} (h : Wrote geo s tx)
    (hlh : t.lh = s.lh) (hdisk : t.disk = s.disk)
    (hcache : t.cache = update s.cache b (some ⟨data, dirty⟩))
    (hdirty : ∀ x, s.cache b = some x → x.dirty = dirty)
    (hheld : ∀ b', t.held b' ↔ s.held b' ∨ b' = b) : Wrote geo t tx := by
  refine ⟨fun b' => hlh ▸ h.mem b', fun b' hb' => ?_, hlh ▸ h.home, hlh ▸ h.fits, hlh ▸ h.small⟩
  rw [hlh] at hb'
  obtain ⟨d, hd, hv⟩ := h.pinned b' hb'
  rw [hcache, hdisk]
  by_cases hne : b' = b
  · subst hne
    rw [update_self, ← hdirty _ hd]
    exact ⟨data, rfl, fun hh => (hh ((hheld b').2 (.inr rfl))).elim⟩
  · rw [update_of_ne hne]
    exact ⟨d, hd, fun hh => hv fun hh' => hh ((hheld b').2 (.inl hh'))⟩

/-- A new block is appended only where the log has a place for it. -/
def Fitting (geo : Geometry) (s : LogState) : LogLabel → Prop
  | .append i => ∀ op ∈ s.ops[i]?, ∀ b ∈ op.next, b ∉ s.lh →
      s.lh.length < logSize ∧ s.lh.length + 1 < geo.size
  | _ => True

instance decidableFitting (geo : Geometry) (s : LogState) :
    (l : LogLabel) → Decidable (Fitting geo s l)
  | .append i =>
    -- the instance for all words would be found first
    have (op : Op) : Decidable (∀ b ∈ op.next, b ∉ s.lh →
        s.lh.length < logSize ∧ s.lh.length + 1 < geo.size) := Option.decidableForallMem op.next
    inferInstanceAs (Decidable (∀ op ∈ s.ops[i]?, _))
  | .begin | .check .. | .endOp _ | .commit | .load _ | .evict _ | .crash =>
    inferInstanceAs (Decidable True)

theorem Wrote.append (h : Wrote geo s tx) (hhome : geo.home b)
    (hlh : t.lh = if b ∈ s.lh then s.lh else s.lh ++ [b]) (hdisk : t.disk = s.disk)
    (hcache : t.cache = update s.cache b (some ⟨data, true⟩))
    (hheld : ∀ b', b' ≠ b → (t.held b' ↔ s.held b'))
    (hfit : b ∉ s.lh → s.lh.length < logSize ∧ s.lh.length + 1 < geo.size) :
    Wrote geo t (tx ++ [(b, data)]) := by
  have hmem (b' : Word) : b' ∈ t.lh ↔ b' ∈ s.lh ∨ b' = b := by
    rw [hlh]
    split
    · rename_i hb
      exact (or_iff_left_of_imp fun he => he ▸ hb).symm
    · rw [mem_append, mem_singleton]
  have hlen : t.lh.length < geo.size ∧ t.lh.length ≤ logSize := by
    rw [hlh]
    split
    · exact ⟨h.fits, h.small⟩
    · rename_i hb
      rw [length_append]
      exact (hfit hb).symm
  refine ⟨fun b' => ?_, fun b' hb' => ?_, fun b' hb' => ?_, hlen.1, hlen.2⟩
  · rw [hmem, map_append, mem_append, h.mem b', map_singleton, mem_singleton]
  · rw [hcache, hdisk, overwrite_concat]
    by_cases hne : b' = b
    · subst hne
      rw [update_self, update_self]
      exact ⟨_, rfl, fun _ => rfl⟩
    · rw [update_of_ne hne, update_of_ne hne]
      obtain ⟨d, hd, hv⟩ := h.pinned b' (((hmem b').1 hb').resolve_right hne)
      exact ⟨d, hd, fun hh => hv fun hh' => hh ((hheld b' hne).2 hh')⟩
  · rcases (hmem b').1 hb' with hb' | rfl
    · exact h.home b' hb'
    · exact hhome

theorem LogInv.start (h : LogInv geo disk₀ s g) (hmem : MemInv geo s.startCommit)
    (hpc : s.pc = .idle) (hheld : ∀ b, s.startCommit.held b ↔ s.held b) :
    LogInv geo disk₀ s.startCommit
      { g with writes := [], committed := g.committed ++ [g.writes] } := by
  have hphase := h.phase
  simp only [PhaseInv, hpc] at hphase
  obtain ⟨hoff, hfin, hw⟩ := hphase
  have hsurvives : LogHistory.survives
      { g with writes := [], committed := g.committed ++ [g.writes] } disk₀ =
      g.survives disk₀ := by
    simp only [LogHistory.survives, LogHistory.kept, hoff, Bool.false_eq_true, if_false,
      take_append_of_le_length hfin.le]
  refine ⟨⟨?_, ?_, ?_, h.disk.empty⟩, hmem, fun _ => ⟨rfl, rfl⟩, fun _ _ => rfl, ?_⟩
  · rw [length_append]
    exact Nat.le_add_right_of_le h.disk.finished
  · rw [length_append, hfin]
    exact Nat.le_refl _
  · rw [hsurvives]
    exact h.disk.logged
  by_cases hlh : s.lh = []
  · simp only [PhaseInv, LogState.startCommit, if_pos hlh]
    refine ⟨hlh, h.disk.empty hoff, fun b hb => ?_⟩
    have hnot : b ∉ g.writes.map Prod.fst := by
      rw [← hw.mem, hlh]
      exact not_mem_nil
    rw [replay_concat, overwrite_of_notMem hnot, h.disk.logged.other b hb,
      LogHistory.survives_of_offDisk hoff, hfin, take_length]
    rw [h.disk.empty hoff]
    exact not_mem_nil
  · simp only [PhaseInv, LogState.startCommit, if_neg hlh]
    exact ⟨hoff, ⟨g.committed, g.writes, rfl, hfin.symm, hw.congr rfl hheld fun _ _ _ hx => hx⟩,
      fun k b hk => (Nat.not_lt_zero k hk).elim⟩

theorem LogInv.cached (h : LogInv geo disk₀ s g) (hmem : MemInv geo t)
    (hdisk : t.disk = s.disk) (hlh : t.lh = s.lh) (hops : t.ops = s.ops)
    (hcom : t.committing = s.committing) (hpc : t.pc = s.pc)
    (hcache : ∀ b d, s.cache b = some ⟨d, true⟩ → t.cache b = some ⟨d, true⟩) :
    LogInv geo disk₀ t g := by
  have hw {tx : Tx} (hw : Wrote geo s tx) : Wrote geo t tx := by
    refine hw.congr hlh (held_congr hops) fun b hb x hx => ?_
    obtain ⟨d, hd, _⟩ := hw.pinned b hb
    cases hd.symm.trans hx
    exact hcache b d hd
  have hcopying {tail : Nat} (hc : Copying geo disk₀ s g tail) : Copying geo disk₀ t g tail := by
    obtain ⟨txs, tx, hcm, hl, htx⟩ := hc.last
    refine ⟨hc.offDisk, ⟨txs, tx, hcm, hl, hw htx⟩, fun k b hk hb => ?_⟩
    rw [hdisk]
    exact hc.copied k b hk (hlh ▸ hb)
  refine ⟨hdisk ▸ h.disk, hmem, ?_, ?_, ?_⟩
  · rw [hpc, hops]
    exact h.quiet
  · rw [hpc, hcom]
    exact h.committing
  have hphase := h.phase
  unfold PhaseInv at hphase ⊢
  rw [hpc, hdisk, hlh]
  split at hphase
  · exact ⟨hphase.1, hphase.2.1, hw hphase.2.2⟩
  · exact hcopying hphase
  · exact hcopying hphase
  · exact hphase
  · exact hphase
  · exact hphase
  · trivial
  · trivial

theorem LogInv.crash (h : LogInv geo disk₀ s g) :
    LogInv geo disk₀ (.reboot s.disk) { g with writes := [] } where
  disk := ⟨h.disk.finished, h.disk.last, h.disk.logged, h.disk.empty⟩
  mem := .reboot geo s.disk
  quiet _ := ⟨rfl, rfl⟩
  committing _ hup := (Bool.false_ne_true hup).elim
  phase := trivial

theorem LogInv.step (h : LogInv geo disk₀ s g) (hfit : Fitting geo s l)
    (hs : logStep geo s l = some t) : LogInv geo disk₀ t (g.after s l) := by
  have hmem := h.mem.step hs
  cases logStep_cases hs with
  | begin hup hcom =>
    have hpc := h.pc_idle_of_begin hup hcom
    exact h.of_idle hmem hpc rfl rfl
      ((h.wrote hpc).congr rfl (held_begin rfl) fun _ _ _ hx => hx)
  | tooBig => exact h.panic hmem rfl rfl
  | check hop hup _ hdirty =>
    have hpc := h.pc_idle hup hop
    exact h.of_idle hmem hpc rfl rfl ((h.wrote hpc).check rfl rfl rfl hdirty (held_hold hop rfl))
  | append hop hup =>
    have hpc := h.pc_idle hup hop
    have hhome := h.mem.held _ ⟨_, mem_of_getElem? hop, rfl⟩
    simp only [LogHistory.after, hop]
    exact h.of_idle hmem hpc rfl rfl ((h.wrote hpc).append hhome rfl rfl rfl
      (fun _ hne => held_release hop rfl hne) (hfit _ hop _ rfl))
  | committing _ _ hcom =>
    rw [LogHistory.after, if_neg fun he => he.2 hcom]
    exact h.panic hmem rfl rfl
  | start hop hup hcom hlast =>
    rw [LogHistory.after, if_pos ⟨hlast, Bool.eq_false_iff.1 hcom⟩]
    exact h.start hmem (h.pc_idle hup hop) (held_eraseIdx hop hlast.symm)
  | endOp hop hup _ hlast =>
    have hpc := h.pc_idle hup hop
    rw [LogHistory.after, if_neg fun he => hlast he.1]
    exact h.of_idle hmem hpc rfl rfl
      ((h.wrote hpc).congr rfl (held_eraseIdx hop rfl) fun _ _ _ hx => hx)
  | commit hs => exact h.commit hs
  | load b =>
    obtain ⟨hdisk, hlh, hops, hcom, hpc⟩ := bread_fields s b
    exact h.cached hmem hdisk hlh hops hcom hpc fun b' d hd => bread_cache_some hd b
  | @evict b _ hclean =>
    refine h.cached hmem rfl rfl rfl rfl rfl fun b' d hd => ?_
    have hne : b' ≠ b := by
      rintro rfl
      cases hclean.symm.trans hd
    exact (update_of_ne hne ..).trans hd
  | crash => exact h.crash

def LogHistory.boot : LogHistory := ⟨[], [], 0, false⟩

def historyMachine (geo : Geometry) (disk : Word → Block) :
    Machine (LogState × LogHistory) LogLabel :=
  (logMachine geo disk).track .boot LogHistory.after

theorem LogInv.boot (hhead : decodeHead (disk₀ geo.start) = []) :
    LogInv geo disk₀ (.reboot disk₀) .boot where
  disk := by
    refine ⟨Nat.le_refl _, Nat.le_succ _, ?_, fun _ => hhead⟩
    simp only [LogState.reboot, hhead]
    exact .of_installed fun _ _ => rfl
  mem := .reboot geo disk₀
  quiet _ := ⟨rfl, rfl⟩
  committing _ hup := (Bool.false_ne_true hup).elim
  phase := trivial

theorem LogInv.reach {s : LogState × LogHistory}
    (h : (historyMachine geo disk₀).Reach (fun s => Fitting geo s.1) s) :
    LogInv geo disk₀ s.1 s.2 := by
  refine h.invariant (P := fun s => LogInv geo disk₀ s.1 s.2) ?_ ?_
  · rintro ⟨s, g⟩ ⟨⟨hhead, rfl⟩, rfl⟩
    exact .boot hhead
  · intro s l t _ hi hok h
    obtain ⟨u, hu, rfl⟩ := Option.map_eq_some_iff.1 h
    exact hi.step hok hu

def logBlocks (i : Nat) (w : Word) (blocks : List Word) : List LogLabel :=
  blocks.flatMap fun b => [.check i b fun _ => w, .append i]

end Xv6Signals
