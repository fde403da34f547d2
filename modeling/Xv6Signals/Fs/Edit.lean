import Xv6Signals.Fs.Volume
import Mathlib.Data.Finset.Card

namespace Xv6Signals
open Lib Function Finset Bytes

variable {sb : Superblock} {v v' w : Vol} {i j p q b k bn off n : Nat} {bs cs : List Byte}

/-- Bytes are written to the contents of an inode, and blocks allocated to it as they are needed;
all blocks that were there stay, and no other inode is affected. -/
structure Edit (sb : Superblock) (v v' : Vol) (i off : Nat) (bs : List Byte) : Prop where
  owned : Owned sb v'
  inode : ∀ j, j ≠ i → v'.inode j = v.inode j
  others : ∀ j, j ≠ i → v.live sb j → Untouched v v' j
  addrs : v'.inode i = { v.inode i with addrs := (v'.inode i).addrs }
  stable : ∀ p, p < 141 → v.held i p ≠ 0 → v'.held i p = v.held i p
  there : ∀ k, off ≤ k → k < off + bs.length → k < 140 * 512 ∧ v'.addr i (k / 512) ≠ 0
  bytes : ∀ k, k < 140 * 512 → v.addr i (k / 512) ≠ 0 ∨ off ≤ k ∧ k < off + bs.length →
    v'.byte i k = (v.byte i).write off bs k
  blank : ∀ k, k < 140 * 512 → v.addr i (k / 512) = 0 → v'.addr i (k / 512) ≠ 0 →
    k < off ∨ off + bs.length ≤ k → v'.byte i k = 0

theorem Edit.refl (h : Owned sb v) (i off : Nat) : Edit sb v v i off [] := by
  refine ⟨h, fun _ _ => rfl, fun j _ _ => .refl v j, rfl, fun _ _ _ => rfl, fun k hle hlt => ?_,
    fun k _ _ => ?_, fun k _ hz hne _ => (hne hz).elim⟩
  · rw [List.length_nil] at hlt
    omega
  · rw [write_nil]

theorem Edit.addr (h : Edit sb v v' i off bs) (hbn : bn < 140) (hne : v.addr i bn ≠ 0) :
    v'.addr i bn = v.addr i bn :=
  h.stable (place bn) (place_lt hbn) hne

theorem Edit.live (h : Edit sb v v' i off bs) (j : Nat) : v'.live sb j ↔ v.live sb j := by
  by_cases hj : j = i
  · subst hj
    rw [Vol.live, Vol.live, h.addrs]
  · rw [Vol.live, Vol.live, h.inode j hj]

theorem Edit.size (h : Edit sb v v' i off bs) (j : Nat) : (v'.inode j).size = (v.inode j).size := by
  by_cases hj : j = i
  · subst hj
    rw [h.addrs]
  · rw [h.inode j hj]

theorem Edit.trans (h : Edit sb v v' i off bs) (h' : Edit sb v' w i (off + bs.length) cs) :
    Edit sb v w i off (bs ++ cs) := by
  constructor
  · exact h'.owned
  · intro j hj
    exact (h'.inode j hj).trans (h.inode j hj)
  · intro j hj hl
    have hu := h.others j hj hl
    exact hu.trans (h'.others j hj (hu.live.2 hl))
  · rw [h'.addrs, h.addrs]
  · intro p hp hne
    have he := h.stable p hp hne
    exact (h'.stable p hp (he ▸ hne)).trans he
  · intro k hle hlt
    rw [List.length_append] at hlt
    by_cases hk : k < off + bs.length
    · obtain ⟨hmax, hne⟩ := h.there k hle hk
      have hbn : k / 512 < 140 := by omega
      exact ⟨hmax, by rwa [h'.addr hbn hne]⟩
    · exact h'.there k (by omega) (by omega)
  · intro k hk hor
    rw [List.length_append] at hor
    have hbn : k / 512 < 140 := by omega
    rw [write_append]
    by_cases hold : v.addr i (k / 512) ≠ 0 ∨ off ≤ k ∧ k < off + bs.length
    · have hne : v'.addr i (k / 512) ≠ 0 := by
        rcases hold with hne | ⟨hle, hlt⟩
        · rwa [h.addr hbn hne]
        · exact (h.there k hle hlt).2
      rw [h'.bytes k hk (.inl hne)]
      exact write_congr (.inl (h.bytes k hk hold))
    have hin : off + bs.length ≤ k ∧ k < off + bs.length + cs.length := by
      rcases hor with hne | hin
      · exact (hold (.inl hne)).elim
      · rw [not_or, not_and] at hold
        have := hold.2 hin.1
        omega
    rw [h'.bytes k hk (.inr hin)]
    exact write_congr (.inr hin)
  · intro k hk hz hne hout
    rw [List.length_append] at hout
    by_cases hz' : v'.addr i (k / 512) = 0
    · refine h'.blank k hk hz' hne ?_
      rcases hout with hlt | hle
      · exact .inl (by omega)
      · exact .inr (by omega)
    · rw [h'.bytes k hk (.inl hz'), write_outside (by omega)]
      exact h.blank k hk hz hz' (by omega)

theorem Edit.after_nil (h : Edit sb v v' i off []) (h' : Edit sb v' w i off bs) :
    Edit sb v w i off bs := by
  have ht := h.trans h'
  rwa [List.nil_append] at ht

theorem held_of_fresh (ho : Owned sb v) (hi : v.live sb i) (hfree : v.used b = false)
    (hinode : v'.inode i = v.inode i) (hdata : ∀ c, c ≠ b → v'.data c = v.data c) :
    Untouched v v' i := by
  refine ⟨hinode, fun p hp hne => hdata _ ?_⟩
  exact ho.ne_of_free hfree ⟨hi, hp, rfl, hne⟩

structure Alloc (sb : Superblock) (v v' : Vol) (i p b : Nat) : Prop where
  lt : p < 141
  zero : v.held i p = 0
  free : v.used b = false
  size : b < sb.size
  inode : ∀ j, j ≠ i → v'.inode j = v.inode j
  addrs : v'.inode i = { v.inode i with addrs := (v'.inode i).addrs }
  used : v'.used = update v.used b true
  new : v'.held i p = b
  held : ∀ q, q < 141 → q ≠ p → v'.held i q = v.held i q
  others : ∀ j, j ≠ i → v.live sb j → Untouched v v' j
  data : ∀ q, q < 141 → q ≠ 12 → v.held i q ≠ 0 → v'.data (v.held i q) = v.data (v.held i q)
  blank : v'.data b = fun _ => 0

theorem Alloc.edit (h : Alloc sb v v' i p b) (ho : Owned sb v) (hi : v.live sb i) (off : Nat) :
    Edit sb v v' i off [] := by
  have hlive (j : Nat) : v'.live sb j ↔ v.live sb j := by
    by_cases hj : j = i
    · subst hj
      rw [Vol.live, Vol.live, h.addrs]
    · rw [Vol.live, Vol.live, h.inode j hj]
  have hsize (j : Nat) : (v'.inode j).size = (v.inode j).size := by
    by_cases hj : j = i
    · subst hj
      rw [h.addrs]
    · rw [h.inode j hj]
  have hstable : ∀ q, q < 141 → v.held i q ≠ 0 → v'.held i q = v.held i q := by
    intro q hq hne
    apply h.held q hq
    rintro rfl
    exact hne h.zero
  refine ⟨?_, h.inode, h.others, h.addrs, hstable, fun c hle hlt => ?_, fun c hc hor => ?_,
    fun c hc hz hne _ => ?_⟩
  · refine ho.extend hi h.lt h.zero h.free h.size hlive hsize h.used h.new fun j q hl hq hne => ?_
    by_cases hj : j = i
    · subst hj
      exact h.held q hq (hne rfl)
    · exact (h.others j hj hl).held q
  · rw [List.length_nil] at hlt
    omega
  · rw [write_nil]
    have hne : v.addr i (c / 512) ≠ 0 := by
      rcases hor with hne | hin
      · exact hne
      · rw [List.length_nil] at hin
        omega
    have hlt : place (c / 512) < 141 := place_lt (by omega)
    rw [Vol.byte, Vol.byte, Vol.addr, Vol.addr, hstable _ hlt hne,
      h.data _ hlt (place_ne _) hne]
  · have hp : place (c / 512) = p := by
      by_contra hp
      rw [Vol.addr, h.held _ (place_lt (by omega)) hp] at hne
      exact hne hz
    rw [Vol.byte, Vol.addr, hp, h.new, h.blank]

def touches (off n p : Nat) : Prop :=
  if p < 12 then off / 512 ≤ p ∧ p * 512 < off + n
  else if p = 12 then 12 * 512 < off + n
  else off / 512 ≤ p - 1 ∧ (p - 1) * 512 < off + n

instance decidableTouches (off n p : Nat) : Decidable (touches off n p) := by
  unfold touches
  infer_instance

def Vol.missing (v : Vol) (i off n : Nat) : Nat :=
  ((Finset.range 141).filter fun p => touches off n p ∧ v.held i p = 0).card

def Vol.free (sb : Superblock) (v : Vol) : Nat :=
  ((Finset.range sb.size).filter fun b => v.used b = false).card

theorem touches_place (hle : off / 512 ≤ bn) (hlt : bn * 512 < off + n) :
    touches off n (place bn) := by
  unfold touches place
  by_cases h : bn < 12
  · rw [if_pos h, if_pos h]
    exact ⟨hle, hlt⟩
  · rw [if_neg h, if_neg (by omega : ¬ bn + 1 < 12), if_neg (by omega : ¬ bn + 1 = 12)]
    exact ⟨hle, hlt⟩

theorem touches_indirect (hle : 12 ≤ bn) (hlt : bn * 512 < off + n) : touches off n 12 := by
  have h : 12 * 512 < off + n := Nat.lt_of_le_of_lt (Nat.mul_le_mul_right 512 hle) hlt
  simpa only [touches, lt_irrefl, if_false, if_true] using h

theorem touches_rest {m : Nat} (hm : m ≤ n) (h : touches (off + m) (n - m) p) :
    touches off n p := by
  unfold touches at h ⊢
  split at h
  · rw [if_pos ‹_›]
    omega
  rw [if_neg ‹_›]
  split at h
  · rw [if_pos ‹_›]
    omega
  · rw [if_neg ‹_›]
    omega

theorem missing_le_of_stable {m n' off' : Nat} (hm : ∀ p, touches off' n' p → touches off m p)
    (hs : ∀ p, p < 141 → v.held i p ≠ 0 → v'.held i p ≠ 0) :
    v'.missing i off' n' ≤ v.missing i off m := by
  apply card_le_card
  intro p hp
  obtain ⟨hlt, ht, hz⟩ := mem_filter.1 hp
  refine mem_filter.2 ⟨hlt, hm p ht, ?_⟩
  by_contra hne
  exact hs p (mem_range.1 hlt) hne hz

theorem Alloc.room (h : Alloc sb v v' i p b) (ho : Owned sb v) (ht : touches off n p)
    (hroom : v.missing i off n ≤ v.free sb) : v'.missing i off n ≤ v'.free sb := by
  have hb : b ≠ 0 := by
    have := ho.nmeta_le h.free
    have := sb.nmeta_pos
    omega
  have hmiss : v'.missing i off n + 1 ≤ v.missing i off n := by
    apply card_lt_card
    refine ssubset_iff_of_subset ?_ |>.2 ⟨p, ?_, ?_⟩
    · intro q hq
      obtain ⟨hlt, hq, hz⟩ := mem_filter.1 hq
      refine mem_filter.2 ⟨hlt, hq, ?_⟩
      by_cases he : q = p
      · rw [he, h.zero]
      · rw [← h.held q (mem_range.1 hlt) he, hz]
    · exact mem_filter.2 ⟨mem_range.2 h.lt, ht, h.zero⟩
    · intro hp
      exact hb (h.new.symm.trans (mem_filter.1 hp).2.2)
  have hfree : v.free sb ≤ v'.free sb + 1 := by
    rw [← card_singleton b]
    refine (card_le_card fun c hc => ?_).trans (card_union_le _ _)
    obtain ⟨hlt, hu⟩ := mem_filter.1 hc
    by_cases he : c = b
    · exact mem_union_right _ (mem_singleton.2 he)
    · refine mem_union_left _ (mem_filter.2 ⟨hlt, ?_⟩)
      rw [h.used, update_of_ne he, hu]
  omega

theorem Alloc.addr (ho : Owned sb v) (hi : v.live sb i) (hk : k < 13)
    (hzero : (v.inode i).addrs k = 0) (hfree : v.used b = false) (hb : b < sb.size)
    (hinode : ∀ j, j ≠ i → v'.inode j = v.inode j) (hnew : v'.inode i = (v.inode i).setAddr k b)
    (hused : v'.used = update v.used b true)
    (hdata : v'.data = update v.data b fun _ => 0) : Alloc sb v v' i k b := by
  have hd : ∀ c, c ≠ b → v'.data c = v.data c := by
    intro c hc
    rw [hdata, update_of_ne hc]
  have hadd (c : Nat) (hc : c ≠ k) : (v'.inode i).addrs c = (v.inode i).addrs c := by
    rw [hnew]
    exact update_of_ne hc ..
  have hkb : (v'.inode i).addrs k = b := by
    rw [hnew]
    exact update_self ..
  constructor
  · omega
  · exact (held_of_lt hk).trans hzero
  · exact hfree
  · exact hb
  · exact hinode
  · rw [hnew]
    rfl
  · exact hused
  · exact (held_of_lt hk).trans hkb
  · intro q hq hne
    by_cases hlt : q < 13
    · rw [held_of_lt hlt, held_of_lt hlt, hadd q hne]
    unfold Vol.held
    rw [if_neg hlt, if_neg hlt]
    -- an indirect block that is new has no entries
    by_cases hk12 : k = 12
    · subst hk12
      rw [hzero, if_pos rfl, hkb, hdata, update_self, word_zero, ite_self]
    rw [hadd 12 fun he => hk12 he.symm]
    split
    · rfl
    · rename_i hne12
      rw [hd _ (ho.ne_of_free hfree ⟨hi, by decide, held_of_lt (by decide), hne12⟩)]
  · intro j hj hl
    exact held_of_fresh ho hl hfree (hinode j hj) hd
  · intro q hq _ hne
    exact hd _ (ho.ne_of_free hfree ⟨hi, hq, rfl, hne⟩)
  · rw [hdata, update_self]

theorem Alloc.entry (ho : Owned sb v) (hi : v.live sb i) (hn : n < 128)
    (hind : (v.inode i).addrs 12 ≠ 0) (hzero : (v.data ((v.inode i).addrs 12)).word n = 0)
    (hfree : v.used b = false) (hb : b < sb.size) (hinode : v'.inode = v.inode)
    (hused : v'.used = update v.used b true)
    (hdata : v'.data = update (update v.data b fun _ => 0) ((v.inode i).addrs 12)
      ((v.data ((v.inode i).addrs 12)).setWord n b)) : Alloc sb v v' i (n + 13) b := by
  have hh : Holds sb v i 12 ((v.inode i).addrs 12) := ⟨hi, by decide, held_of_lt (by decide), hind⟩
  have hd : ∀ c, c ≠ b → c ≠ (v.inode i).addrs 12 → v'.data c = v.data c := by
    intro c hc hc'
    rw [hdata, update_of_ne hc', update_of_ne hc]
  have hentry (q : Nat) (hq : ¬ q < 13) : v'.held i q =
      ((v.data ((v.inode i).addrs 12)).setWord n b).word (q - 13) := by
    unfold Vol.held
    rw [if_neg hq, hinode, if_neg hind, hdata, update_self]
  have hsize := sb.size_le
  constructor
  · omega
  · unfold Vol.held
    rw [if_neg (by omega), if_neg hind, Nat.add_sub_cancel]
    exact hzero
  · exact hfree
  · exact hb
  · intro j _
    rw [hinode]
  · rw [hinode]
  · exact hused
  · rw [hentry _ (by omega), Nat.add_sub_cancel]
    exact word_setWord _ _ (by omega)
  · intro q hq hne
    by_cases hlt : q < 13
    · rw [held_of_lt hlt, held_of_lt hlt, hinode]
    · rw [hentry q hlt, word_setWord_of_ne (by omega)]
      unfold Vol.held
      rw [if_neg hlt, if_neg hind]
  · intro j hj hl
    refine ⟨by rw [hinode], fun q hq hne => hd _ ?_ ?_⟩
    · exact ho.ne_of_free hfree ⟨hl, hq, rfl, hne⟩
    · intro he
      exact hj (ho.once j q i 12 _ ⟨hl, hq, he, hind⟩ hh).1
  · intro q hq hq12 hne
    apply hd
    · exact ho.ne_of_free hfree ⟨hi, hq, rfl, hne⟩
    · intro he
      exact hq12 (ho.once i q i 12 _ ⟨hi, hq, he, hind⟩ hh).2
  · rw [hdata, update_of_ne (ho.ne_of_free hfree hh).symm, update_self]

theorem Edit.write (ho : Owned sb v) (hi : v.live sb i) (hbn : off / 512 < 140)
    (hne : v.addr i (off / 512) ≠ 0) (hfit : off % 512 + bs.length ≤ 512)
    (hinode : v'.inode = v.inode) (hused : v'.used = v.used)
    (hdata : v'.data = update v.data (v.addr i (off / 512))
      ((v.data (v.addr i (off / 512))).write (off % 512) bs)) :
    Edit sb v v' i off bs := by
  have hh : Holds sb v i (place (off / 512)) (v.addr i (off / 512)) := ⟨hi, place_lt hbn, rfl, hne⟩
  -- the block is not one that some inode has as its indirect block
  have hd : ∀ j q, v.live sb j → q < 141 → v.held j q ≠ 0 →
      ¬ (j = i ∧ q = place (off / 512)) → v'.data (v.held j q) = v.data (v.held j q) := by
    intro j q hl hq hnz hnot
    rw [hdata, update_of_ne]
    intro he
    exact hnot (ho.once j q i _ _ ⟨hl, hq, he, hne⟩ hh)
  have hheld : ∀ j q, v.live sb j → v'.held j q = v.held j q := by
    intro j q hl
    apply held_eq_of_inode (by rw [hinode])
    intro hnz
    exact hd j 12 hl (by decide) hnz fun he => place_ne _ he.2.symm
  have hlive (j : Nat) : v'.live sb j ↔ v.live sb j := by rw [Vol.live, Vol.live, hinode]
  have haddr (k : Nat) : v'.addr i k = v.addr i k := hheld i _ hi
  refine ⟨?_, fun j _ => by rw [hinode], fun j hj hl => ?_, by rw [hinode], fun p _ _ => hheld i p hi,
    fun c hle hlt => ?_, fun c hc hor => ?_, fun c _ hz hne _ => ?_⟩
  · refine ho.congr hlive hused (fun j q hl _ => hheld j q hl) fun j k hl hlt => ?_
    rw [hinode] at hlt
    rw [Vol.addr, hheld j _ hl]
    exact ho.full j k hl hlt
  · exact ⟨by rw [hinode], fun q hq hnz => hd j q hl hq hnz fun he => hj he.1⟩
  · have hc : c / 512 = off / 512 := by omega
    rw [haddr, hc]
    exact ⟨by omega, hne⟩
  · rw [Vol.byte, haddr]
    by_cases hc' : c / 512 = off / 512
    · rw [hc', hdata, update_self]
      simp only [Bytes.write, Vol.byte, hc']
      have hle : off % 512 ≤ c % 512 ↔ off ≤ c := by omega
      simp only [hle]
      split
      · rw [show c % 512 - off % 512 = c - off by omega]
      · rfl
    · have hout : c < off ∨ off + bs.length ≤ c := by omega
      rw [write_outside hout, Vol.byte]
      have hnz : v.addr i (c / 512) ≠ 0 := by
        rcases hor with hnz | hin
        · exact hnz
        · omega
      have hq : place (c / 512) < 141 := place_lt (by omega)
      rw [Vol.addr, hd i _ hi hq hnz fun he => hc' (place_inj he.2)]
  · rw [haddr] at hne
    exact (hne hz).elim

structure Written (sb : Superblock) (v v' : Vol) (i off : Nat) (bs : List Byte) : Prop where
  owned : Owned sb v'
  inode : ∀ j, j ≠ i → v'.inode j = v.inode j
  others : ∀ j, j ≠ i → v.live sb j → Untouched v v' j
  fields : v'.inode i = { v.inode i with
    size := max (v.inode i).size (off + bs.length), addrs := (v'.inode i).addrs }
  bytes : ∀ k, k < (v.inode i).size ∨ off ≤ k ∧ k < off + bs.length →
    v'.byte i k = (v.byte i).write off bs k
  blank : ∀ k, k < 140 * 512 → v.addr i (k / 512) = 0 → v'.addr i (k / 512) ≠ 0 →
    k < off ∨ off + bs.length ≤ k → v'.byte i k = 0
  rest : ∀ k, k < 140 * 512 → v.addr i (k / 512) ≠ 0 → k < off ∨ off + bs.length ≤ k →
    v'.byte i k = v.byte i k

theorem Written.size (h : Written sb v v' i off bs) :
    (v'.inode i).size = max (v.inode i).size (off + bs.length) := by
  rw [h.fields]

theorem Written.live (h : Written sb v v' i off bs) (j : Nat) : v'.live sb j ↔ v.live sb j := by
  by_cases hj : j = i
  · subst hj
    rw [Vol.live, Vol.live, h.fields]
  · rw [Vol.live, Vol.live, h.inode j hj]

theorem Edit.written (h : Edit sb v v' i off bs) (ho : Owned sb v) (hi : v.live sb i)
    (hoff : off ≤ (v.inode i).size) (hother : ∀ j, j ≠ i → w.inode j = v'.inode j)
    (hw : w.inode i = { v'.inode i with size := max (v'.inode i).size (off + bs.length) })
    (hused : w.used = v'.used) (hdata : w.data = v'.data) : Written sb v w i off bs := by
  have haddrs (j : Nat) : (w.inode j).addrs = (v'.inode j).addrs := by
    by_cases hj : j = i
    · rw [hj, hw]
    · rw [hother j hj]
  have hheld (j p : Nat) : w.held j p = v'.held j p := by
    rw [Vol.held, Vol.held, haddrs, hdata]
  have hlive (j : Nat) : w.live sb j ↔ v'.live sb j := by
    by_cases hj : j = i
    · subst hj
      rw [Vol.live, Vol.live, hw]
    · rw [Vol.live, Vol.live, hother j hj]
  have hthere (k : Nat) (hk : k < (v.inode i).size ∨ off ≤ k ∧ k < off + bs.length) :
      k < 140 * 512 ∧ v'.addr i (k / 512) ≠ 0 := by
    rcases hk with hk | ⟨hle, hlt⟩
    · obtain ⟨hlt, hne⟩ := ho.addr_ne hi hk
      have hbn : k / 512 < 140 := by omega
      exact ⟨hlt, by rwa [h.addr hbn hne]⟩
    · exact h.there k hle hlt
  constructor
  · refine h.owned.congr hlive hused (fun j q _ _ => hheld j q) fun j bn hl hlt => ?_
    by_cases hj : j = i
    · subst hj
      rw [hw, h.size] at hlt
      have hbn : bn * 512 < (v.inode j).size ∨ off ≤ bn * 512 ∧ bn * 512 < off + bs.length := by
        simp only [lt_max_iff] at hlt
        omega
      obtain ⟨hmax, hne⟩ := hthere _ hbn
      rw [Nat.mul_div_cancel bn (by decide : 0 < 512)] at hne
      rw [Vol.addr, hheld]
      exact ⟨by omega, hne⟩
    · rw [hother j hj] at hlt
      rw [Vol.addr, hheld]
      exact h.owned.full j bn hl hlt
  · intro j hj
    rw [hother j hj, h.inode j hj]
  · intro j hj hl
    have hu := h.others j hj hl
    refine ⟨by rw [hother j hj, hu.inode], fun p hp hne => ?_⟩
    rw [hdata]
    exact hu.data p hp hne
  · rw [hw, h.size, h.addrs]
  · intro k hk
    obtain ⟨hmax, hne⟩ := hthere k hk
    rw [Vol.byte, Vol.addr, hheld, hdata]
    refine h.bytes k hmax ?_
    rcases hk with hk | hk
    · exact .inl (ho.addr_ne hi hk).2
    · exact .inr hk
  · intro k hk hz hne hout
    rw [Vol.addr, hheld] at hne
    rw [Vol.byte, Vol.addr, hheld, hdata]
    exact h.blank k hk hz hne hout
  · intro k hk hne hout
    rw [Vol.byte, Vol.addr, hheld, hdata]
    exact (h.bytes k hk (.inl hne)).trans (write_outside hout)

end Xv6Signals
