import Xv6Signals.Fs.Blocks
import Xv6Signals.Fs.Names

namespace Xv6Signals
open Lib Function List Bytes

structure Mkfs where
  inode : Nat → Dinode
  data : Nat → Bytes
  freeinode : Nat
  freeblock : Nat

inductive MkfsError
  -- a sector behind the end of the image
  | rsect
  | assertFbn | assertName | assertUsed
  deriving DecidableEq

abbrev MkM := EStateM MkfsError Mkfs

def fssize : Nat := 1000

def freeInode : Dinode := ⟨.free, 0, 0, 0, 0, fun _ => 0⟩

def Mkfs.start : Mkfs := ⟨fun _ => freeInode, fun _ _ => 0, 1, mkfsSb.nmeta⟩

namespace Mkfs

def setInode (m : Mkfs) (inum : Nat) (d : Dinode) : Mkfs :=
  { m with inode := update m.inode inum d }

def winode (inum : Nat) (d : Dinode) : MkM Unit := modify fun m => m.setInode inum d

def ialloc (type : FileType) : MkM Nat := do
  let m ← get
  modify fun m => { m with freeinode := m.freeinode + 1 }
  winode m.freeinode ⟨type, 0, 0, 1, 0, fun _ => 0⟩
  pure m.freeinode

def rsect (b : Nat) : MkM Bytes := do
  let m ← get
  if b < fssize then pure (m.data b) else throw .rsect

def wsect (b : Nat) (bytes : Bytes) : MkM Unit :=
  modify fun m => { m with data := update m.data b bytes }

def nextblock : MkM Nat := do
  let m ← get
  modify fun m => { m with freeblock := m.freeblock + 1 }
  pure m.freeblock

def addrFor (din : Dinode) (k : Nat) : MkM Dinode :=
  if din.addrs k = 0 then do
    let b ← nextblock
    pure (din.setAddr k b)
  else pure din

def entryFor (ind j : Nat) : MkM Nat := do
  let indirect ← rsect ind
  if indirect.word j = 0 then do
    let b ← nextblock
    wsect ind (indirect.setWord j b)
    pure b
  else pure (indirect.word j)

def blockFor (din : Dinode) (fbn : Nat) : MkM (Dinode × Nat) :=
  if fbn < 12 then do
    let din ← addrFor din fbn
    pure (din, din.addrs fbn)
  else do
    let din ← addrFor din 12
    let x ← entryFor (din.addrs 12) (fbn - 12)
    pure (din, x)

def appendLoop : Nat → Dinode → Nat → List Byte → MkM (Dinode × Nat)
  | 0, din, off, _ => pure (din, off)
  | fuel + 1, din, off, src =>
    if src = [] then pure (din, off)
    else if off / 512 < 140 then do
      let r ← blockFor din (off / 512)
      let n := min src.length ((off / 512 + 1) * 512 - off)
      let buf ← rsect r.2
      wsect r.2 (buf.write (off - off / 512 * 512) (src.take n))
      appendLoop fuel r.1 (off + n) (src.drop n)
    else throw .assertFbn

def iappend (inum : Nat) (src : List Byte) : MkM Unit := do
  let m ← get
  let r ← appendLoop src.length (m.inode inum) (m.inode inum).size src
  winode inum { r.1 with size := r.2 }

structure Input where
  name : List Byte
  bytes : List Byte

def underscore : Byte := 95

def Input.entryName (f : Input) : List Byte :=
  if f.name.head? = some underscore then f.name.tail else f.name

def copyLoop (inum : Nat) : Nat → List Byte → MkM Unit
  | 0, _ => pure ()
  | fuel + 1, bytes =>
    if bytes = [] then pure ()
    else do
      iappend inum (bytes.take 512)
      copyLoop inum fuel (bytes.drop 512)

def addFile (f : Input) : MkM Unit :=
  if slash ∈ f.name then throw .assertName
  else do
    let inum ← ialloc .file
    iappend rootIno (Dirent.encode ⟨inum, strncpy 14 f.entryName⟩)
    copyLoop inum f.bytes.length f.bytes

/-- The root directory is made as long as its blocks, and then one block longer if it was already.
-/
def fixRoot : MkM Unit := do
  let m ← get
  winode rootIno { m.inode rootIno with size := ((m.inode rootIno).size / 512 + 1) * 512 }

/-- The bitmap is written last: the blocks were used in order. -/
def balloc : MkM Vol := do
  let m ← get
  if m.freeblock < 512 * 8 then pure ⟨m.inode, fun b => decide (b < m.freeblock), m.data⟩
  else throw .assertUsed

end Mkfs

def mkfs (files : List Mkfs.Input) : MkM Vol := do
  let _ ← Mkfs.ialloc .dir
  Mkfs.iappend rootIno (Dirent.encode ⟨rootIno, strncpy 14 dot⟩)
  Mkfs.iappend rootIno (Dirent.encode ⟨rootIno, strncpy 14 dotdot⟩)
  files.forM Mkfs.addFile
  Mkfs.fixRoot
  Mkfs.balloc

variable {m m' : Mkfs} {din : Dinode} {v v' : Vol} {i k b x off fuel : Nat} {src : List Byte}
  {E : MkfsError → Mkfs → Prop} {din' din'' : Dinode} {bytes : List Byte}

/-- The image with the bitmap that it would get now, and with one inode that is not written yet. -/
def Mkfs.view (m : Mkfs) (i : Nat) (din : Dinode) : Vol :=
  ⟨update m.inode i din, fun b => decide (b < m.freeblock), m.data⟩

def Mkfs.Fresh (m : Mkfs) : Prop := ∀ b, m.freeblock ≤ b → m.data b = fun _ => 0

theorem view_used_next (m : Mkfs) : (fun b => decide (b < m.freeblock + 1)) =
      update (fun b => decide (b < m.freeblock)) m.freeblock true := by
  funext b
  by_cases hb : b = m.freeblock
  · simp [hb]
  · rw [update_of_ne hb]
    exact decide_eq_decide.2 (by omega)

theorem view_inode_self (m : Mkfs) (i : Nat) (din : Dinode) : (m.view i din).inode i = din :=
  update_self ..

def Mkfs.next (m : Mkfs) (data : Nat → Bytes) : Mkfs :=
  { m with freeblock := m.freeblock + 1, data := data }

theorem wp_nextblock {α : Type} {f : Nat → MkM α} {Q : α → Mkfs → Prop}
    (h : Wp (f m.freeblock) (m.next m.data) Q E) :
    Wp (Mkfs.nextblock >>= f) m Q E := h

theorem view_alloc_addr (ho : Owned mkfsSb (m.view i din)) (hi : (m.view i din).live mkfsSb i)
    (hf : m.Fresh) (hk : k < 13) (hz : din.addrs k = 0) (hb : m.freeblock < fssize) :
    Alloc mkfsSb (m.view i din) ((m.next m.data).view i (din.setAddr k m.freeblock)) i k
      m.freeblock := by
  refine .addr ho hi hk ?_ ?_ hb (fun j hj => ?_) ?_ (view_used_next m) ?_
  · rwa [view_inode_self]
  · exact decide_eq_false (Nat.lt_irrefl _)
  · exact (update_of_ne hj ..).trans (update_of_ne hj ..).symm
  · rw [view_inode_self, view_inode_self]
  · show m.data = update m.data m.freeblock _
    rw [← hf m.freeblock le_rfl, update_eq_self]

theorem view_alloc_entry (ho : Owned mkfsSb (m.view i din)) (hi : (m.view i din).live mkfsSb i)
    (hf : m.Fresh) (hk : k < 128) (hind : din.addrs 12 ≠ 0)
    (hz : (m.data (din.addrs 12)).word k = 0) (hb : m.freeblock < fssize) :
    Alloc mkfsSb (m.view i din)
      ((m.next (update m.data (din.addrs 12)
        ((m.data (din.addrs 12)).setWord k m.freeblock))).view i din) i (k + 13) m.freeblock := by
  refine .entry ho hi hk ?_ ?_ ?_ hb rfl (view_used_next m) ?_
  · rwa [view_inode_self]
  · rwa [view_inode_self]
  · exact decide_eq_false (Nat.lt_irrefl _)
  · rw [view_inode_self]
    show update m.data _ _ = update (update m.data m.freeblock _) _ _
    rw [← hf m.freeblock le_rfl, update_eq_self]
    rfl

structure Mkfs.Open (m : Mkfs) (i : Nat) (din : Dinode) : Prop where
  owned : Owned mkfsSb (m.view i din)
  live : (m.view i din).live mkfsSb i
  fresh : m.Fresh
  full : m.freeblock ≤ fssize

structure Mkfs.Appended (m m' : Mkfs) (i : Nat) (din din' : Dinode) (off : Nat)
    (src : List Byte) : Prop where
  edit : Edit mkfsSb (m.view i din) (m'.view i din') i off src
  freeinode : m'.freeinode = m.freeinode
  fresh : m'.Fresh
  full : m'.freeblock ≤ fssize

theorem Mkfs.Appended.refl (h : m.Open i din) (off : Nat) : m.Appended m i din din off [] :=
  ⟨.refl h.owned i off, rfl, h.fresh, h.full⟩

theorem Mkfs.Appended.open {din' : Dinode} (h : m.Appended m' i din din' off src)
    (ho : m.Open i din) : m'.Open i din' :=
  ⟨h.edit.owned, (h.edit.live i).2 ho.live, h.fresh, h.full⟩

theorem Mkfs.Appended.trans {m'' : Mkfs} {src' : List Byte} (h : m.Appended m' i din din' off src)
    (h' : m'.Appended m'' i din' din'' (off + src.length) src') :
    m.Appended m'' i din din'' off (src ++ src') :=
  ⟨h.edit.trans h'.edit, h'.freeinode.trans h.freeinode, h'.fresh, h'.full⟩

theorem Mkfs.Appended.after_nil {m'' : Mkfs}
    (h : m.Appended m' i din din' off []) (h' : m'.Appended m'' i din' din'' off src) :
    m.Appended m'' i din din'' off src :=
  ⟨h.edit.after_nil h'.edit, h'.freeinode.trans h.freeinode, h'.fresh, h'.full⟩

theorem Mkfs.Fresh.next {data : Nat → Bytes} (h : m.Fresh)
    (hd : ∀ b, m.freeblock < b → data b = m.data b) :
    (m.next data).Fresh := by
  intro b hb
  have hb : m.freeblock < b := hb
  exact (hd b hb).trans (h b hb.le)

theorem addrFor_wp (h : m.Open i din) (hk : k < 13) (off : Nat) : Wp (Mkfs.addrFor din k) m
      (fun din' m' => din'.addrs k < fssize → m.Appended m' i din din' off [] ∧ din'.addrs k ≠ 0)
      fun _ _ => False := by
  apply wp_ite
  · intro hz
    apply wp_nextblock
    refine wp_pure fun hb => ?_
    have hself : (din.setAddr k m.freeblock).addrs k = m.freeblock := update_self ..
    rw [hself] at hb ⊢
    have ha := view_alloc_addr h.owned h.live h.fresh hk hz hb
    refine ⟨⟨ha.edit h.owned h.live off, rfl, h.fresh.next fun _ _ => rfl, hb⟩, ?_⟩
    have := of_decide_eq_true (h.owned.reserved 0 (by decide))
    omega
  · intro hne
    exact wp_pure fun _ => ⟨.refl h off, hne⟩

theorem rsect_wp (m : Mkfs) (b : Nat) :
    Wp (Mkfs.rsect b) m (fun r m' => b < fssize ∧ r = m.data b ∧ m' = m)
      (fun e _ => e = .rsect) := by
  apply wp_get_bind
  apply wp_ite
  · intro hb
    exact wp_pure ⟨hb, rfl, rfl⟩
  · intro _
    exact wp_throw rfl

theorem entryFor_wp (h : din.addrs 12 < fssize → m.Open i din ∧ din.addrs 12 ≠ 0) (hk : k < 128)
    (off : Nat) :
    Wp (Mkfs.entryFor (din.addrs 12) k) m
      (fun x m' => din.addrs 12 < fssize ∧ (x < fssize → m.Appended m' i din din off [] ∧
        (m'.view i din).held i (k + 13) = x ∧ x ≠ 0))
      (fun e _ => e = .rsect) := by
  apply wp_seq (rsect_wp m _)
  rintro r m' ⟨hlt, rfl, rfl⟩
  obtain ⟨h, hind⟩ := h hlt
  apply wp_ite
  · intro hz
    apply wp_nextblock
    apply wp_modify_bind
    refine wp_pure ⟨hlt, fun hb => ?_⟩
    have ha := view_alloc_entry h.owned h.live h.fresh hk hind hz hb
    refine ⟨⟨ha.edit h.owned h.live off, rfl, h.fresh.next fun b hb => ?_, hb⟩, ha.new, ?_⟩
    · refine update_of_ne ?_ ..
      rintro rfl
      have hm := h.owned.marked i 12 (din.addrs 12) ⟨h.live, by decide, ?_, hind⟩
      · have := of_decide_eq_true hm
        omega
      · rw [held_of_lt (by decide), view_inode_self]
    · have := of_decide_eq_true (h.owned.reserved 0 (by decide))
      omega
  · intro hne
    refine wp_pure ⟨hlt, fun _ => ⟨.refl h off, ?_, hne⟩⟩
    rw [held_entry, view_inode_self]
    · rfl
    · rwa [view_inode_self]

theorem blockFor_wp (h : m.Open i din) (hoff : off / 512 < 140) :
    Wp (Mkfs.blockFor din (off / 512)) m
      (fun r m' => r.2 < fssize → m.Appended m' i din r.1 off [] ∧
        (m'.view i r.1).addr i (off / 512) = r.2 ∧ r.2 ≠ 0)
      (fun e _ => e = .rsect) := by
  apply wp_ite
  · intro hlt
    apply wp_step (addrFor_wp h (by omega) off)
    intro din' m' hp
    refine wp_pure fun hb => ?_
    obtain ⟨ha, hne⟩ := hp hb
    refine ⟨ha, ?_, hne⟩
    rw [addr_of_lt hlt, view_inode_self]
  intro hge
  have hle : 12 ≤ off / 512 := Nat.le_of_not_lt hge
  apply wp_step (addrFor_wp h (by decide) off)
  intro din' m' hp
  refine wp_seq (entryFor_wp (i := i) (fun hb => ?_) (by omega) off) ?_
  · exact ⟨(hp hb).1.open h, (hp hb).2⟩
  rintro x m'' ⟨hind, hx⟩
  refine wp_pure fun hb => ?_
  obtain ⟨ha', hx, hne⟩ := hx hb
  refine ⟨(hp hind).1.after_nil ha', ?_, hne⟩
  rw [addr_of_le hle]
  exact hx

theorem Mkfs.Appended.write (h : m.Open i din) (hbn : off / 512 < 140)
    (hx : (m.view i din).addr i (off / 512) = x) (hne : x ≠ 0)
    (hfit : off % 512 + src.length ≤ 512) :
    m.Appended { m with data := update m.data x ((m.data x).write (off % 512) src) }
      i din din off src := by
  subst hx
  refine ⟨.write h.owned h.live hbn hne hfit rfl rfl rfl, rfl, fun b hb => ?_, h.full⟩
  have hb : m.freeblock ≤ b := hb
  refine (update_of_ne ?_ ..).trans (h.fresh b hb)
  rintro rfl
  have hlt : _ < m.freeblock :=
    of_decide_eq_true (h.owned.marked i _ _ ⟨h.live, place_lt hbn, rfl, hne⟩)
  exact Nat.lt_irrefl _ (hlt.trans_le hb)

theorem appendLoop_wp (h : m.Open i din) (hoff : off + src.length ≤ 140 * 512)
    (hfuel : src.length ≤ fuel) :
    Wp (Mkfs.appendLoop fuel din off src) m
      (fun r m' => r.2 = off + src.length ∧ m.Appended m' i din r.1 off src)
      (fun e _ => e = .rsect) := by
  induction fuel generalizing m din off src with
  | zero =>
    cases eq_nil_of_length_eq_zero (Nat.le_zero.1 hfuel)
    exact wp_pure ⟨rfl, .refl h off⟩
  | succ fuel ih =>
    apply wp_ite
    · rintro rfl
      exact wp_pure ⟨rfl, .refl h off⟩
    intro hne
    have hpos : 0 < src.length := length_pos_iff.2 hne
    have hbn : off / 512 < 140 := by omega
    rw [if_pos hbn]
    apply wp_seq (blockFor_wp h hbn)
    intro r m' hr
    apply wp_seq (rsect_wp m' r.2)
    rintro buf m'' ⟨hb, rfl, rfl⟩
    obtain ⟨ha, hx, hnz⟩ := hr hb
    -- the part that fits in the block
    obtain ⟨n, hn⟩ : ∃ n, n = min src.length ((off / 512 + 1) * 512 - off) := ⟨_, rfl⟩
    rw [← hn, (by omega : off - off / 512 * 512 = off % 512)]
    have hlen : (src.take n).length = n := by
      rw [length_take]
      omega
    have ha := ha.after_nil
      (.write (ha.open h) hbn hx hnz (by omega : off % 512 + (src.take n).length ≤ 512))
    apply wp_modify_bind
    refine (ih (ha.open h) ?_ ?_).post ?_
    · rw [length_drop]
      omega
    · rw [length_drop]
      omega
    rintro r u ⟨hr, ha'⟩
    rw [length_drop] at hr
    refine ⟨by omega, ?_⟩
    rw [(by rw [hlen] : off + n = off + (src.take n).length)] at ha'
    have hall := ha.trans ha'
    rwa [take_append_drop] at hall

def Mkfs.vol (m : Mkfs) : Vol := ⟨m.inode, fun b => decide (b < m.freeblock), m.data⟩

theorem view_self (m : Mkfs) (i : Nat) : m.view i (m.inode i) = m.vol := by
  rw [Mkfs.view, update_eq_self]
  rfl

theorem setInode_vol_self (m : Mkfs) (i : Nat) (d : Dinode) : (m.setInode i d).vol.inode i = d :=
  update_self ..

theorem setInode_vol_of_ne {j : Nat} {d : Dinode} (hj : j ≠ i) :
    (m.setInode i d).vol.inode j = m.vol.inode j :=
  update_of_ne hj ..

structure Mkfs.Sound (m : Mkfs) : Prop where
  owned : Owned mkfsSb m.vol
  fresh : m.Fresh
  full : m.freeblock ≤ fssize

theorem iappend_wp (h : m.Sound) (hi : m.vol.live mkfsSb i)
    (hsize : (m.inode i).size + src.length ≤ 140 * 512) :
    Wp (Mkfs.iappend i src) m
      (fun _ m' => Written mkfsSb m.vol m'.vol i (m.inode i).size src ∧ m'.Sound ∧
        m'.freeinode = m.freeinode)
      (fun e _ => e = .rsect) := by
  have hopen : m.Open i (m.inode i) := by
    constructor
    · rw [view_self]
      exact h.owned
    · rw [view_self]
      exact hi
    · exact h.fresh
    · exact h.full
  apply wp_get_bind
  apply wp_seq (appendLoop_wp hopen hsize le_rfl)
  rintro r m' ⟨hr, ha⟩
  have hedit := ha.edit
  rw [view_self] at hedit
  have hsize' : r.1.size = (m.inode i).size := by
    have := hedit.size i
    rw [view_inode_self] at this
    exact this
  have hw := hedit.written (w := (m'.setInode i { r.1 with size := r.2 }).vol) h.owned hi le_rfl
    (fun j hj => ?_) ?_ rfl rfl
  · exact wp_modify ⟨hw, ⟨hw.owned, ha.fresh, ha.full⟩, ha.freeinode⟩
  · exact (update_of_ne hj ..).trans (update_of_ne hj ..).symm
  · rw [view_inode_self, hsize', Nat.max_eq_right (Nat.le_add_right ..), hr]
    exact update_self ..

structure Mkfs.IsFile (v : Vol) (i : Nat) (bytes : List Byte) : Prop where
  type : (v.inode i).type = .file
  nlink : (v.inode i).nlink = 1
  size : (v.inode i).size = bytes.length
  contents : (v.byte i).read 0 bytes.length = bytes

theorem Mkfs.IsFile.untouched (h : Mkfs.IsFile v i bytes)
    (hu : Untouched v v' i) (ho : Owned mkfsSb v) (hi : v.live mkfsSb i) :
    Mkfs.IsFile v' i bytes := by
  obtain ⟨htype, hnlink, hsize, hcontents⟩ := h
  refine ⟨by rw [hu.inode, htype], by rw [hu.inode, hnlink], by rw [hu.inode, hsize], ?_⟩
  refine (read_congr fun k hk => ?_).trans hcontents
  exact hu.bytes ho hi (by omega)

theorem Mkfs.IsFile.append (h : Mkfs.IsFile v i bytes)
    (hw : Written mkfsSb v v' i bytes.length src) : Mkfs.IsFile v' i (bytes ++ src) := by
  obtain ⟨htype, hnlink, hsize, hcontents⟩ := h
  constructor
  · rw [hw.fields, htype]
  · rw [hw.fields, hnlink]
  · rw [hw.size, hsize, length_append, Nat.max_eq_right (Nat.le_add_right ..)]
  rw [length_append, read_add]
  congr 1
  · refine (read_congr fun k hk => ?_).trans hcontents
    rw [hw.bytes _ (.inl (by omega)), write_outside (by omega)]
  · rw [Nat.zero_add]
    refine (read_congr fun k hk => ?_).trans (read_write (v.byte i) bytes.length src)
    exact hw.bytes _ (.inr ⟨by omega, by omega⟩)

theorem copyLoop_wp {bytes rest : List Byte} (h : m.Sound) (hi : i < 200)
    (hf : Mkfs.IsFile m.vol i bytes) (hsize : bytes.length + rest.length ≤ 140 * 512)
    (hfuel : rest.length ≤ fuel) :
    Wp (Mkfs.copyLoop i fuel rest) m
      (fun _ m' => m'.Sound ∧ m'.freeinode = m.freeinode ∧ Mkfs.IsFile m'.vol i (bytes ++ rest) ∧
        (∀ j, j ≠ i → m'.inode j = m.inode j) ∧
        ∀ j, j ≠ i → m.vol.live mkfsSb j → Untouched m.vol m'.vol j)
      (fun e _ => e = .rsect) := by
  have hdone : m.Sound ∧ m.freeinode = m.freeinode ∧ Mkfs.IsFile m.vol i (bytes ++ []) ∧
      (∀ j, j ≠ i → m.inode j = m.inode j) ∧
      ∀ j, j ≠ i → m.vol.live mkfsSb j → Untouched m.vol m.vol j := by
    rw [append_nil]
    exact ⟨h, rfl, hf, fun _ _ => rfl, fun j _ _ => .refl _ j⟩
  induction fuel generalizing m bytes rest with
  | zero =>
    cases eq_nil_of_length_eq_zero (Nat.le_zero.1 hfuel)
    exact wp_pure hdone
  | succ fuel ih =>
    apply wp_ite
    · rintro rfl
      exact wp_pure hdone
    intro hne
    have hpos : 0 < rest.length := length_pos_iff.2 hne
    have hlive : m.vol.live mkfsSb i := by
      refine ⟨hi, ?_⟩
      rw [hf.type]
      decide
    have hsz : (m.inode i).size = bytes.length := hf.size
    have htake : (rest.take 512).length ≤ rest.length := length_take_le' ..
    refine wp_seq (iappend_wp h hlive (by omega)) ?_
    rintro _ m' ⟨hw, hs, hfree⟩
    rw [hsz] at hw
    have hf' := hf.append hw
    have hlen : (bytes ++ rest.take 512).length + (rest.drop 512).length =
        bytes.length + rest.length := by
      rw [length_append, length_take, length_drop]
      omega
    refine (ih hs hf' (by omega) ?_ ?_).post ?_
    · rw [length_drop]
      omega
    · rw [append_nil]
      exact ⟨hs, rfl, hf', fun _ _ => rfl, fun j _ _ => .refl _ j⟩
    rintro _ m'' ⟨hs', hfree', hf'', hino, hunt⟩
    rw [append_assoc, take_append_drop] at hf''
    refine ⟨hs', hfree'.trans hfree, hf'', fun j hj => (hino j hj).trans (hw.inode j hj),
      fun j hj hl => ?_⟩
    have hu := hw.others j hj hl
    exact hu.trans (hunt j hj (hu.live.2 hl))

/-- The root directory of the image has these entries, and zeroes behind them. -/
structure Mkfs.IsRoot (v : Vol) (es : List Dirent) : Prop where
  type : (v.inode rootIno).type = .dir
  nlink : (v.inode rootIno).nlink = 1
  size : (v.inode rootIno).size = 16 * es.length
  entry : ∀ k de, es[k]? = some de → v.entry rootIno k = de
  blank : ∀ k, 16 * es.length ≤ k → k < 140 * 512 → v.addr rootIno (k / 512) ≠ 0 →
    v.byte rootIno k = 0

variable {es : List Dirent} {de : Dirent} {files done : List Mkfs.Input} {f : Mkfs.Input}

theorem Mkfs.IsRoot.live (h : Mkfs.IsRoot v es) : v.live mkfsSb rootIno := by
  refine ⟨by decide, ?_⟩
  rw [h.type]
  decide

theorem Mkfs.IsRoot.untouched (h : Mkfs.IsRoot v es) (hu : Untouched v v' rootIno)
    (ho : Owned mkfsSb v) : Mkfs.IsRoot v' es := by
  constructor
  · rw [hu.inode, h.type]
  · rw [hu.inode, h.nlink]
  · rw [hu.inode, h.size]
  · intro k de hk
    have hlt : k < es.length := (List.getElem?_eq_some_iff.1 hk).1
    rw [hu.entry ho h.live (by rw [h.size]; omega), h.entry k de hk]
  · intro k hk hlt hne
    rw [hu.addr] at hne
    rw [hu.byte hlt hne, h.blank k hk hlt hne]

theorem Mkfs.IsRoot.append (h : Mkfs.IsRoot v es) (hname : de.name.length = 14)
    (hinum : de.inum < 2 ^ 16) (hw : Written mkfsSb v v' rootIno (16 * es.length) de.encode) :
    Mkfs.IsRoot v' (es ++ [de]) := by
  have hlen : de.encode.length = 16 := by rw [length_encode, hname]
  have hes : (es ++ [de]).length = es.length + 1 := length_append
  constructor
  · rw [hw.fields, h.type]
  · rw [hw.fields, h.nlink]
  · rw [hw.size, h.size, hlen, hes]
    omega
  · intro k e hk
    by_cases hlt : k < es.length
    · rw [getElem?_append_left hlt] at hk
      rw [hw.entry_of_ne hlen (by omega) (by rw [h.size]; omega), h.entry k e hk]
    have hk' : k = es.length := by
      have := (List.getElem?_eq_some_iff.1 hk).1
      omega
    subst hk'
    rw [getElem?_append_right le_rfl, Nat.sub_self] at hk
    cases hk
    rw [hw.entry_self hlen, decode_encode hinum]
  · intro k hk hlt hne
    have hout : k < 16 * es.length ∨ 16 * es.length + de.encode.length ≤ k := by omega
    by_cases hz : v.addr rootIno (k / 512) = 0
    · exact hw.blank k hlt hz hne hout
    · rw [hw.rest k hlt hz hout, h.blank k (by omega) hlt hz]

def Mkfs.rootEntries (files : List Mkfs.Input) : List Dirent :=
  ⟨rootIno, strncpy 14 dot⟩ :: ⟨rootIno, strncpy 14 dotdot⟩ ::
    files.mapIdx fun k f => ⟨k + 2, strncpy 14 f.entryName⟩

theorem Mkfs.rootEntries_append (files : List Mkfs.Input) (f : Mkfs.Input) :
    Mkfs.rootEntries (files ++ [f]) =
      Mkfs.rootEntries files ++ [⟨files.length + 2, strncpy 14 f.entryName⟩] := by
  rw [Mkfs.rootEntries, mapIdx_concat]
  rfl

theorem Mkfs.length_rootEntries (files : List Mkfs.Input) :
    (Mkfs.rootEntries files).length = files.length + 2 := by
  rw [Mkfs.rootEntries, length_cons, length_cons, length_mapIdx]

structure Mkfs.Built (done : List Mkfs.Input) (m : Mkfs) : Prop where
  sound : m.Sound
  count : m.freeinode = done.length + 2
  unused : ∀ i, done.length + 2 ≤ i ∨ i = 0 → (m.inode i).type = .free
  root : Mkfs.IsRoot m.vol (Mkfs.rootEntries done)
  files : ∀ k f, done[k]? = some f → Mkfs.IsFile m.vol (k + 2) f.bytes

theorem ialloc_wp {type : FileType} (h : m.Sound) (hfree : (m.inode m.freeinode).type = .free) :
    Wp (Mkfs.ialloc type) m
      (fun i m' => i = m.freeinode ∧ m'.Sound ∧ m'.freeinode = m.freeinode + 1 ∧
        m'.inode i = ⟨type, 0, 0, 1, 0, fun _ => 0⟩ ∧ ∀ j, j ≠ i → Untouched m.vol m'.vol j ∧
          m'.inode j = m.inode j)
      fun _ _ => False := by
  have hself : update m.inode m.freeinode ⟨type, 0, 0, 1, 0, fun _ => 0⟩ m.freeinode =
      ⟨type, 0, 0, 1, 0, fun _ => 0⟩ := update_self ..
  have hother (j : Nat) (hj : j ≠ m.freeinode) :
      update m.inode m.freeinode ⟨type, 0, 0, 1, 0, fun _ => 0⟩ j = m.inode j :=
    update_of_ne hj ..
  apply wp_get_bind
  apply wp_modify_bind
  apply wp_modify_bind
  refine wp_pure ⟨rfl, ⟨?_, h.fresh, h.full⟩, rfl, hself, fun j hj => ?_⟩
  · refine h.owned.create (i := m.freeinode) hfree (fun j hj => hother j hj) ?_ (fun k => ?_) rfl rfl
    · exact congrArg Dinode.size hself
    · exact congrArg (fun d => d.addrs k) hself
  · exact ⟨⟨hother j hj, fun _ _ _ => rfl⟩, hother j hj⟩

theorem addFile_wp (h : m.Built done) (hcount : done.length + 2 < 200)
    (hname : slash ∉ f.name) (hsize : f.bytes.length ≤ 140 * 512) :
    Wp (Mkfs.addFile f) m (fun _ m' => m'.Built (done ++ [f])) (fun e _ => e = .rsect) := by
  have hlen := Mkfs.length_rootEntries done
  unfold Mkfs.addFile
  rw [if_neg hname]
  have hfree : (m.inode m.freeinode).type = .free := by
    rw [h.count]
    exact h.unused _ (.inl le_rfl)
  apply wp_step (ialloc_wp h.sound hfree)
  rintro i m₁ ⟨rfl, hs₁, hfi₁, hnew, hother₁⟩
  rw [h.count] at hfi₁ hnew hother₁ ⊢
  have hroot₁ : Mkfs.IsRoot m₁.vol (Mkfs.rootEntries done) :=
    h.root.untouched (hother₁ rootIno (by unfold rootIno; omega)).1 h.sound.owned
  -- the entry in the root directory
  have hsz : (m₁.inode rootIno).size = 16 * (Mkfs.rootEntries done).length := hroot₁.size
  have henc : (Dirent.encode ⟨done.length + 2, strncpy 14 f.entryName⟩).length = 16 := by
    rw [length_encode, length_strncpy]
  refine wp_seq (iappend_wp hs₁ hroot₁.live (by omega)) ?_
  rintro _ m₂ ⟨hw, hs₂, hfi₂⟩
  rw [hsz] at hw
  have hroot₂ := hroot₁.append (length_strncpy 14 _) (show done.length + 2 < 2 ^ 16 by omega) hw
  rw [← Mkfs.rootEntries_append] at hroot₂
  have hne : done.length + 2 ≠ rootIno := by
    unfold rootIno
    omega
  have hfile₂ : Mkfs.IsFile m₂.vol (done.length + 2) [] := by
    have hino : m₂.vol.inode (done.length + 2) = _ := (hw.inode _ hne).trans hnew
    constructor
    all_goals first | rw [hino] | rfl
    rfl
  refine (copyLoop_wp hs₂ hcount hfile₂ (by simpa using hsize) le_rfl).post ?_
  rintro _ m₃ ⟨hs₃, hfi₃, hfile₃, hino₃, hother₃⟩
  constructor
  · exact hs₃
  · rw [hfi₃, hfi₂, hfi₁, length_append]
    rfl
  · intro i hi
    rw [length_append, length_singleton] at hi
    have hi1 : i ≠ rootIno := by
      unfold rootIno
      omega
    have hi2 : i ≠ done.length + 2 := by omega
    rw [hino₃ i hi2]
    have : m₂.inode i = m₁.inode i := hw.inode i hi1
    rw [this, (hother₁ i hi2).2]
    exact h.unused i (by omega)
  · exact hroot₂.untouched (hother₃ rootIno hne.symm hroot₂.live) hs₂.owned
  intro k g hk
  by_cases hlt : k < done.length
  · rw [getElem?_append_left hlt] at hk
    have hold := h.files k g hk
    have hl : m.vol.live mkfsSb (k + 2) := by
      refine ⟨by show k + 2 < 200; omega, ?_⟩
      rw [hold.type]
      decide
    have hu₁ := (hother₁ (k + 2) (by omega)).1
    have hu₂ := hw.others (k + 2) (by unfold rootIno; omega) (hu₁.live.2 hl)
    have hu₃ := hother₃ (k + 2) (by omega) (hu₂.live.2 (hu₁.live.2 hl))
    exact hold.untouched (hu₁.trans (hu₂.trans hu₃)) h.sound.owned hl
  · have hk' : k = done.length := by
      have := (List.getElem?_eq_some_iff.1 hk).1
      rw [length_append, length_singleton] at this
      omega
    subst hk'
    rw [getElem?_append_right le_rfl, Nat.sub_self] at hk
    cases hk
    exact hfile₃

theorem start_sound : Mkfs.start.Sound := by
  have hdead (i : Nat) : ¬ Mkfs.start.vol.live mkfsSb i := fun h => h.2 rfl
  refine ⟨?_, fun _ _ => rfl, by decide⟩
  constructor
  · intro i _ hl
    exact (hdead i hl).elim
  · intro i _ _ hh
    exact (hdead i hh.live).elim
  · intro i _ _ hh
    exact (hdead i hh.live).elim
  · intro i _ _ _ _ hh
    exact (hdead i hh.live).elim
  · intro b hle _ hb
    have hlt : b < mkfsSb.nmeta := of_decide_eq_true hb
    omega
  · intro b hb
    exact decide_eq_true hb

theorem addFiles_wp (h : m.Built []) (hcount : files.length + 1 < 200)
    (hnames : ∀ f ∈ files, slash ∉ f.name) (hsizes : ∀ f ∈ files, f.bytes.length ≤ 140 * 512) :
    Wp (files.forM Mkfs.addFile) m (fun _ m' => m'.Built files) (fun e _ => e = .rsect) := by
  apply (wp_forM (fun rest m' => ∃ done, files = done ++ rest ∧ m'.Built done) ⟨[], rfl, h⟩ ?_).post
  rintro _ m' ⟨done, hd, hb⟩
  rw [append_nil] at hd
  exact hd ▸ hb
  · rintro f rest m' ⟨done, hd, hb⟩
    have hlen : files.length = done.length + (rest.length + 1) := by
      rw [hd, length_append, length_cons]
    have hf : f ∈ files := by
      rw [hd]
      exact mem_append_right _ (mem_cons_self ..)
    apply (addFile_wp hb (by omega) (hnames f hf) (hsizes f hf)).post
    intro _ m'' hb'
    exact ⟨done ++ [f], by rw [hd, append_assoc]; rfl, hb'⟩

theorem mkdots_wp {R : Vol → Mkfs → Prop} {x : MkM Vol}
    (hE : ∀ m, E .rsect m) (hx : ∀ m, m.Built [] → Wp x m R E) :
    Wp (do
      let _ ← Mkfs.ialloc .dir
      Mkfs.iappend rootIno (Dirent.encode ⟨rootIno, strncpy 14 dot⟩)
      Mkfs.iappend rootIno (Dirent.encode ⟨rootIno, strncpy 14 dotdot⟩)
      x) Mkfs.start R E := by
  have henc (name : List Byte) : (Dirent.encode ⟨rootIno, strncpy 14 name⟩).length = 16 := by
    rw [length_encode, length_strncpy]
  apply wp_step (ialloc_wp start_sound rfl)
  rintro i m₁ ⟨rfl, hs₁, hfi₁, hnew, hother₁⟩
  have hroot₁ : Mkfs.IsRoot m₁.vol [] := by
    have hino : m₁.vol.inode rootIno = _ := hnew
    constructor
    · rw [hino]
    · rw [hino]
    · rw [hino]
      rfl
    · intro k de hk
      cases hk
    · intro k _ _ hne
      rw [Vol.addr, Vol.held, hino] at hne
      split at hne
      · exact (hne rfl).elim
      · exact (hne rfl).elim
  refine wp_bind (iappend_wp hs₁ hroot₁.live ?_) (fun e t he => he ▸ hE t) ?_
  · rw [henc]
    exact hroot₁.size ▸ (by decide)
  rintro _ m₂ ⟨hw₂, hs₂, hfi₂⟩
  rw [show (m₁.inode rootIno).size = 16 * ([] : List Dirent).length from hroot₁.size] at hw₂
  have hroot₂ := hroot₁.append (length_strncpy 14 dot) (by decide) hw₂
  refine wp_bind (iappend_wp hs₂ hroot₂.live ?_) (fun e t he => he ▸ hE t) ?_
  · rw [henc]
    exact hroot₂.size ▸ (by decide)
  rintro _ m₃ ⟨hw₃, hs₃, hfi₃⟩
  rw [show (m₂.inode rootIno).size = 16 * _ from hroot₂.size] at hw₃
  have hroot₃ := hroot₂.append (length_strncpy 14 dotdot) (by decide) hw₃
  apply hx
  refine ⟨hs₃, by rw [hfi₃, hfi₂, hfi₁]; rfl, fun i hi => ?_, hroot₃, fun k f hk => ?_⟩
  · have hi : i ≠ rootIno := by
      unfold rootIno
      simp only [length_nil] at hi
      omega
    have h₃ : m₃.inode i = m₂.inode i := hw₃.inode i hi
    have h₂ : m₂.inode i = m₁.inode i := hw₂.inode i hi
    rw [h₃, h₂, (hother₁ i hi).2]
    rfl
  · cases hk

structure Mkfs.Image (v : Vol) (files : List Mkfs.Input) : Prop where
  owned : Owned mkfsSb v
  rootType : (v.inode rootIno).type = .dir
  rootLinks : (v.inode rootIno).nlink = 1
  entries : ∀ k, 16 * k < (v.inode rootIno).size → (v.entry rootIno k).inum ≠ 0 →
    (Mkfs.rootEntries files)[k]? = some (v.entry rootIno k)
  named : ∀ k de, (Mkfs.rootEntries files)[k]? = some de →
    16 * k < (v.inode rootIno).size ∧ v.entry rootIno k = de
  size : (v.inode rootIno).size % 16 = 0
  file : ∀ k f, files[k]? = some f → Mkfs.IsFile v (k + 2) f.bytes
  unused : ∀ i, files.length + 2 ≤ i ∨ i = 0 → (v.inode i).type = .free

theorem fixRoot_image (h : m.Built files) (hmod : (files.length + 2) % 32 ≠ 0) :
    Mkfs.Image (m.setInode rootIno { m.inode rootIno with
      size := ((m.inode rootIno).size / 512 + 1) * 512 }).vol files := by
  obtain ⟨hs, -, hunused, hroot, hfiles⟩ := h
  have hlen := Mkfs.length_rootEntries files
  have hsize : (m.vol.inode rootIno).size = (m.inode rootIno).size := rfl
  have hsz : (m.inode rootIno).size = 16 * (files.length + 2) := by rw [← hsize, hroot.size, hlen]
  obtain ⟨w, hw⟩ : ∃ w, w = (m.setInode rootIno { m.inode rootIno with
    size := ((m.inode rootIno).size / 512 + 1) * 512 }).vol := ⟨_, rfl⟩
  rw [← hw]
  have hself : w.inode rootIno = { m.inode rootIno with
      size := ((m.inode rootIno).size / 512 + 1) * 512 } := by
    rw [hw, setInode_vol_self]
  have hother (j : Nat) (hj : j ≠ rootIno) : w.inode j = m.vol.inode j := by
    rw [hw, setInode_vol_of_ne hj]
  have haddrs (j : Nat) : (w.inode j).addrs = (m.vol.inode j).addrs := by
    by_cases hj : j = rootIno
    · rw [hj, hself]
      rfl
    · rw [hother j hj]
  have hdata : w.data = m.vol.data := by rw [hw]; rfl
  have hheld (j p : Nat) : w.held j p = m.vol.held j p := by
    rw [Vol.held, Vol.held, haddrs, hdata]
  have hlive (j : Nat) : w.live mkfsSb j ↔ m.vol.live mkfsSb j := by
    by_cases hj : j = rootIno
    · subst hj
      rw [Vol.live, Vol.live, hself]
      rfl
    · rw [Vol.live, Vol.live, hother j hj]
  have hbyte (j k : Nat) : w.byte j k = m.vol.byte j k := by
    rw [Vol.byte, Vol.byte, Vol.addr, Vol.addr, hheld, hdata]
  have hentry (j k : Nat) : w.entry j k = m.vol.entry j k := by
    rw [Vol.entry, Vol.entry, funext (hbyte j)]
  have hfull (bn : Nat) (hbn : bn * 512 < ((m.inode rootIno).size / 512 + 1) * 512) :
      bn < 140 ∧ m.vol.addr rootIno bn ≠ 0 := by
    apply hs.owned.full rootIno bn hroot.live
    rw [hsize]
    omega
  constructor
  · refine hs.owned.congr hlive (by rw [hw]; rfl) (fun j q _ _ => hheld j q) fun j bn hl hlt => ?_
    rw [Vol.addr, hheld]
    by_cases hj : j = rootIno
    · subst hj
      rw [hself] at hlt
      exact hfull bn hlt
    · rw [hother j hj] at hlt
      exact hs.owned.full j bn hl hlt
  · rw [hself]
    exact hroot.type
  · rw [hself]
    exact hroot.nlink
  · intro k hk hne
    rw [hself] at hk
    have hk : 16 * k < ((m.inode rootIno).size / 512 + 1) * 512 := hk
    rw [hentry] at hne ⊢
    by_cases hlt : k < (Mkfs.rootEntries files).length
    · rw [getElem?_eq_getElem hlt]
      exact congrArg some (hroot.entry k _ (getElem?_eq_getElem hlt)).symm
    -- the bytes behind the entries are zero
    have hz : (m.vol.byte rootIno).read (16 * k) 16 = List.replicate 16 0 := by
      have hzero : (m.vol.byte rootIno).read (16 * k) 16 = Bytes.read (fun _ => 0) (16 * k) 16 := by
        refine read_congr fun c hc => ?_
        have hb := hfull ((16 * k + c) / 512) (by omega)
        exact hroot.blank (16 * k + c) (by omega) (by omega) hb.2
      rw [hzero]
      rfl
    rw [Vol.entry, hz, decode_zero] at hne
    exact (hne rfl).elim
  · intro k de hk
    have hlt := (List.getElem?_eq_some_iff.1 hk).1
    refine ⟨?_, ?_⟩
    · rw [hself]
      show 16 * k < ((m.inode rootIno).size / 512 + 1) * 512
      omega
    · rw [hentry, hroot.entry k de hk]
  · rw [hself]
    show ((m.inode rootIno).size / 512 + 1) * 512 % 16 = 0
    omega
  · intro k f hk
    have hj : k + 2 ≠ rootIno := by
      unfold rootIno
      omega
    obtain ⟨htype, hnlink, hsize, hcontents⟩ := hfiles k f hk
    refine ⟨by rw [hother _ hj, htype], by rw [hother _ hj, hnlink], by rw [hother _ hj, hsize], ?_⟩
    rw [funext (hbyte (k + 2)), hcontents]
  · intro i hi
    rw [hother i]
    · exact hunused i hi
    · unfold rootIno
      omega

theorem mkfs_wp (hcount : files.length + 1 < 200) (hnames : ∀ f ∈ files, slash ∉ f.name)
    (hsizes : ∀ f ∈ files, f.bytes.length ≤ 140 * 512) (hmod : (files.length + 2) % 32 ≠ 0) :
    Wp (mkfs files) Mkfs.start (fun v _ => Mkfs.Image v files) (fun e _ => e = .rsect) := by
  apply mkdots_wp fun _ => rfl
  intro m hm
  apply wp_seq (addFiles_wp hm hcount hnames hsizes)
  intro _ m' hb
  apply wp_bind (P := fun _ t => t = m'.setInode rootIno { m'.inode rootIno with
    size := ((m'.inode rootIno).size / 512 + 1) * 512 }) (F := fun _ _ => False)
    (wp_get_bind (wp_modify rfl)) fun _ _ he => he.elim
  rintro _ _ rfl
  apply wp_get_bind
  have hfull : m'.freeblock ≤ 1000 := hb.sound.full
  apply wp_ite
  · intro _
    exact wp_pure (fixRoot_image hb hmod)
  · intro hbig
    have hbig : ¬ m'.freeblock < 512 * 8 := hbig
    omega

/-- What the kernel assumes of the image, and what the image is to hold. -/
structure Mkfs.Valid (v : Vol) (files : List Mkfs.Input) : Prop where
  owned : Owned mkfsSb v
  entries : ∀ k, 16 * k < (v.inode rootIno).size → (v.entry rootIno k).inum ≠ 0 →
    (Mkfs.rootEntries files)[k]? = some (v.entry rootIno k)
  reads : ∀ k f, files[k]? = some f → ∀ (s : Fs) (ip : Slot), s.disk = v →
    (s.icache ip).inum = k + 2 → (s.icache ip).d = v.inode (k + 2) →
    (s.icache ip).d.size = f.bytes.length ∧
      readi mkfsSb ip 0 f.bytes.length s = .ok (some f.bytes) s

theorem Mkfs.Image.valid {v : Vol} (h : Mkfs.Image v files) (hcount : files.length + 1 < 200) :
    Mkfs.Valid v files := by
  refine ⟨h.owned, h.entries, fun k f hk s ip hdisk hinum hd => ?_⟩
  have hlt := (List.getElem?_eq_some_iff.1 hk).1
  obtain ⟨htype, -, hsize, hcontents⟩ := h.file k f hk
  have hsize' : (s.icache ip).d.size = f.bytes.length := by rw [hd, hsize]
  refine ⟨hsize', ?_⟩
  have hvol : s.vol ip = v := by rw [Fs.vol, hdisk, hinum, hd, setInode_inode_self]
  have hlive : (s.vol ip).live mkfsSb (s.icache ip).inum := by
    rw [hvol, hinum]
    refine ⟨by show k + 2 < 200; omega, ?_⟩
    rw [htype]
    decide
  have hle := h.owned.size_le (hvol ▸ hinum ▸ hlive)
  rw [hsize] at hle
  obtain ⟨r, t, hrun, hr, rfl⟩ :=
    (readi_wp (hvol ▸ h.owned) hlive 0 f.bytes.length).total fun _ _ he => he
  rw [hrun, hr, if_neg (by omega), hsize', Nat.sub_zero, Nat.min_self, hvol, hinum, hcontents]

theorem Mkfs.ok_of_runs (files : List Mkfs.Input) (test : Vol → Bool)
    (h : runsTo (mkfs files) Mkfs.start (fun v _ => test v) = true) :
    ∃ v m, mkfs files Mkfs.start = .ok v m ∧ test v = true :=
  exists_of_runsTo (mkfs files) Mkfs.start (fun v _ => test v) h

theorem Mkfs.image_of_runs (files : List Mkfs.Input) (test : Vol → Bool)
    (h : runsTo (mkfs files) Mkfs.start (fun v _ => test v) = true)
    (hcount : files.length + 1 < 200) (hnames : ∀ f ∈ files, slash ∉ f.name)
    (hsizes : ∀ f ∈ files, f.bytes.length ≤ 140 * 512) (hmod : (files.length + 2) % 32 ≠ 0) :
    ∃ v, Mkfs.Image v files ∧ test v = true := by
  obtain ⟨v, m, hrun, ht⟩ := Mkfs.ok_of_runs files test h
  exact ⟨v, (mkfs_wp hcount hnames hsizes hmod).ok hrun, ht⟩

def imageOf (files : List Mkfs.Input) : Vol :=
  match mkfs files Mkfs.start with
  | .ok v _ => v
  | .error _ _ => ⟨fun _ => freeInode, fun _ => false, fun _ _ => 0⟩

theorem imageOf_image (files : List Mkfs.Input)
    (h : runsTo (mkfs files) Mkfs.start (fun _ _ => true) = true)
    (hcount : files.length + 1 < 200) (hnames : ∀ f ∈ files, slash ∉ f.name)
    (hsizes : ∀ f ∈ files, f.bytes.length ≤ 140 * 512) (hmod : (files.length + 2) % 32 ≠ 0) :
    Mkfs.Image (imageOf files) files := by
  obtain ⟨v, m, hrun, -⟩ := Mkfs.ok_of_runs files (fun _ => true) h
  rw [imageOf, hrun]
  exact (mkfs_wp hcount hnames hsizes hmod).ok hrun

def helloFile : Mkfs.Input := ⟨[95, 104], [104, 101, 108, 108, 111]⟩

end Xv6Signals
