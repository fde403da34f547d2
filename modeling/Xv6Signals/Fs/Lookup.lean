import Xv6Signals.Fs.Directory

namespace Xv6Signals
open Lib

variable {sb : Superblock} {s t u : Fs} {ip jp cwd : Slot} {i d k : Nat} {K : Nat → Prop}
  {R R₁ R₂ : Slot → Nat} {L : Finset Slot} {path name : List Byte} {parent : Bool}

/-- A set of inodes that lookups do not lead out of, and of which none is freed when a lookup gives
its reference back. -/
structure Traced (sb : Superblock) (R : Slot → Nat) (K : Nat → Prop) (s : Fs) : Prop where
  step : ∀ d k, K d → s.disk.live sb d → (s.disk.inode d).type = .dir →
    16 * k + 16 ≤ (s.disk.inode d).size → (s.disk.entry d k).inum ≠ 0 → K (s.disk.entry d k).inum
  kept : ∀ i, K i → s.disk.live sb i → (s.disk.inode i).nlink ≠ 0 ∨ s.refd R i

theorem Traced.same (h : Traced sb R K s) (hsame : Same s t) (hs : Stays R s t) :
    Traced sb R K t := by
  constructor
  · rw [hsame.1]
    exact h.step
  · intro i hi hl
    rw [hsame.1] at hl ⊢
    exact (h.kept i hi hl).imp_right hs.refd

theorem not_last (hs : Sound sb R₁ L s) (hpos : 0 < R₁ ip) (h₁ : ∀ jp, R jp ≤ R₁ jp)
    (h₂ : R ip ≤ R₂ ip) (hkept : s.disk.live sb (s.icache ip).inum →
      (s.disk.inode (s.icache ip).inum).nlink ≠ 0 ∨ s.refd R (s.icache ip).inum) :
    ¬ Last R₂ ip s := by
  rintro ⟨hz, hv, hn⟩
  obtain ⟨he, ht⟩ := hs.copy ip hpos hv
  rcases hkept ⟨hs.range ip hpos, he ▸ ht⟩ with hne | ⟨jp, hjp, hi⟩
  · exact hne hn
  · obtain rfl := hs.refs.uniq jp ip (hjp.trans_le (h₁ jp)) hpos hi
    omega

theorem Traced.not_last (h : Traced sb R K s) (hs : Sound sb R₁ L s) (hpos : 0 < R₁ ip)
    (h₁ : ∀ jp, R jp ≤ R₁ jp) (h₂ : R ip ≤ R₂ ip) (hip : K (s.icache ip).inum) :
    ¬ Last R₂ ip s :=
  Xv6Signals.not_last hs hpos h₁ h₂ fun hl => h.kept _ hip hl

structure Walked (sb : Superblock) (R : Slot → Nat) (L : Finset Slot) (start : Nat) (s : Fs)
    (r : Option (Slot × List Byte)) (t : Fs) : Prop where
  failed : r = none → Sound sb R L t
  found : ∀ ip name, r = some (ip, name) → Sound sb (addRef R ip) L t
  stays : Stays R s t
  exact : ∀ K, Traced sb R K s → K start →
    Same s t ∧ ∀ ip name, r = some (ip, name) → K (t.icache ip).inum

structure WalkFailed (sb : Superblock) (R : Slot → Nat) (start : Nat) (s : Fs) (e : FsPanic)
    (t : Fs) : Prop where
  bfree : e ≠ .freeingFreeBlock
  exact : ∀ K, Traced sb R K s → K start → Same s t

theorem ilock_safe (h : Sound sb R L s) (hip : 0 < R ip) : Wp (ilock ip) s
      (fun _ t => ip ∉ L ∧ Sound sb R (insert ip L) t ∧ Stays R s t ∧ Same s t)
      (fun e t => e ≠ .freeingFreeBlock ∧ Same s t) := by
  apply (ilock_sound h hip).mono (fun _ _ ht => ht)
  rintro e t ⟨⟨rfl, -⟩ | ⟨rfl, -⟩, hsame⟩
  · exact ⟨by decide, hsame⟩
  · exact ⟨by decide, hsame⟩

theorem namexEnd_sound (h : Sound sb (addRef R ip) L s) :
    Wp (namexEnd sb parent ip) s (Walked sb R L (s.icache ip).inum s)
      (WalkFailed sb R (s.icache ip).inum s) := by
  apply wp_ite
  · intro _
    apply wp_bind (iput_sound h)
    · rintro e t ⟨rfl, -, rfl⟩
      exact ⟨by decide, fun _ _ _ => .refl t⟩
    · rintro _ t ⟨ht, hs, hput⟩
      refine wp_pure ⟨fun _ => ht, (fun _ _ he => by cases he), hs, fun K hK hip => ⟨?_, ?_⟩⟩
      · exact hput.none (hK.not_last h (addRef_pos R ip) (le_addRef R ip) le_rfl hip)
      · exact fun _ _ he => by cases he
  · intro _
    refine wp_pure ⟨(fun he => by cases he), fun jp name he => ?_, .refl R s,
      fun K _ hip => ⟨.refl s, fun jp name he => ?_⟩⟩
    · cases he
      exact h
    · cases he
      exact hip

theorem namexLoop_sound (fuel : Nat) (h : Sound sb (addRef R ip) L s) :
    Wp (namexLoop sb parent fuel ip path) s (Walked sb R L (s.icache ip).inum s)
      (WalkFailed sb R (s.icache ip).inum s) := by
  induction fuel generalizing s ip path with
  | zero => exact namexEnd_sound h
  | succ fuel ih =>
    unfold namexLoop
    split
    · exact namexEnd_sound h
    rename_i name rest _
    have hpos := addRef_pos R ip
    apply wp_bind (ilock_safe h hpos) fun _ _ he => ⟨he.1, fun _ _ _ => he.2⟩
    rintro _ t ⟨hm, ht, hs, hsame⟩
    have hinum := (hs ip hpos).1
    have hs := hs.of_add
    -- the reference can be given back at any time
    have hput {R' : Slot → Nat} {L' : Finset Slot} {u w : Fs} (hu : Sound sb R' L' u)
        (hpos : 0 < R' ip) (hR : ∀ jp, R jp ≤ R' jp) {R'' : Slot → Nat} (hR' : R ip ≤ R'' ip)
        (hs' : Stays (addRef R ip) t u) (hsame' : Same t u) (hput : Put sb R'' ip u w)
        (K : Nat → Prop) (hK : Traced sb R K s) (hip : K (s.icache ip).inum) : Same s w := by
      have hK' := hK.same (hsame.trans hsame') (hs.trans hs'.of_add)
      refine hsame.trans (hsame'.trans (hput.none (hK'.not_last hu hpos hR hR' ?_)))
      rw [(hs' ip (addRef_pos R ip)).1, hinum]
      exact hip
    apply wp_get_bind
    apply wp_ite
    · intro _
      apply wp_step (iunlockput_sound ht hm)
      rintro _ u ⟨hu, hs', hput'⟩
      refine wp_pure ⟨fun _ => hu, (fun _ _ he => by cases he), hs.trans hs',
        fun K hK hip => ⟨?_, fun _ _ he => by cases he⟩⟩
      exact hput ht hpos (le_addRef R ip) le_rfl (.refl _ t) (.refl t) hput' K hK hip
    intro hd
    apply wp_ite
    · intro _
      apply wp_step (iunlock_sound ht hm)
      rintro _ u ⟨hu, hs', hsame'⟩
      refine wp_pure ⟨(fun he => by cases he), fun jp name he => ?_, hs.trans hs'.of_add,
        fun K hK hip => ⟨hsame.trans hsame', fun jp name he => ?_⟩⟩
      · cases he
        exact hu
      · cases he
        rw [(hs' ip hpos).1, hinum]
        exact hip
    intro _
    have hd := Decidable.not_not.1 hd
    have hmem : ip ∈ insert ip L := Finset.mem_insert_self ..
    apply wp_bind (dirlookup_safe ht hmem name)
    · rintro e u ⟨he, rfl⟩
      exact ⟨he, fun _ _ _ => hsame⟩
    rintro r u ⟨-, hr⟩
    cases r with
    | none =>
      obtain ⟨rfl, -⟩ := hr
      apply wp_step (iunlockput_sound ht hm)
      rintro _ w ⟨hw, hs', hput'⟩
      refine wp_pure ⟨fun _ => hw, (fun _ _ he => by cases he), hs.trans hs',
        fun K hK hip => ⟨?_, fun _ _ he => by cases he⟩⟩
      exact hput ht hpos (le_addRef R ip) le_rfl (.refl _ u) (.refl u) hput' K hK hip
    | some r =>
      obtain ⟨hu, hs', hsame', -, k, -, hk, -, hnext⟩ := hr
      have hu' := hu
      rw [addRef_comm] at hu'
      apply wp_step (iunlockput_sound hu' hm)
      rintro _ w ⟨hw, hs'', hput'⟩
      have hnext' : (w.icache r.1).inum = (t.disk.entry (t.icache ip).inum k).inum := by
        rw [(hs'' r.1 (addRef_pos R r.1)).1, hnext]
      have hstays : Stays R s w := hs.trans (hs'.of_add.trans hs''.of_add)
      have hsame (K : Nat → Prop) (hK : Traced sb R K s) (hip : K (s.icache ip).inum) :
          Same s w ∧ K (w.icache r.1).inum := by
        refine ⟨hput hu ?_ ?_ ?_ hs' hsame' hput' K hK hip, ?_⟩
        · exact hpos.trans_le (le_addRef ..)
        · exact fun jp => (le_addRef R ip jp).trans (le_addRef ..)
        · exact le_addRef ..
        have hd' : (t.disk.inode (t.icache ip).inum).type = .dir := by
          rwa [ht.inode_eq hmem]
        rw [hnext', hinum, hsame.1]
        rw [hsame.1, hinum] at hk hd'
        have hl := ht.live hmem
        rw [hsame.1, hinum] at hl
        exact hK.step _ k hip hl hd' hk.1 hk.2.1
      apply (ih hw).mono
      · rintro r' x hx
        refine ⟨hx.failed, hx.found, hstays.trans hx.stays, fun K hK hip => ?_⟩
        obtain ⟨hsame, hnext⟩ := hsame K hK hip
        obtain ⟨hsame', hres⟩ := hx.exact K (hK.same hsame hstays) hnext
        exact ⟨hsame.trans hsame', hres⟩
      · rintro e x hx
        refine ⟨hx.bfree, fun K hK hip => ?_⟩
        obtain ⟨hsame, hnext⟩ := hsame K hK hip
        exact hsame.trans (hx.exact K (hK.same hsame hstays) hnext)

def Fs.start (s : Fs) (cwd : Slot) (path : List Byte) : Nat :=
  if (path.takeWhile (· ≠ 0)).head? = some slash then rootIno else (s.icache cwd).inum

theorem namex_sound (h : Sound sb R L s) (hcwd : 0 < R cwd) (parent : Bool) (path : List Byte) :
    Wp (namex sb parent cwd path) s (Walked sb R L (s.start cwd path) s)
      (WalkFailed sb R (s.start cwd path) s) := by
  apply wp_bind (P := fun ip t => Sound sb (addRef R ip) L t ∧ Stays R s t ∧ Same s t ∧
    (t.icache ip).inum = s.start cwd path) (F := fun e t => e = .igetNoInodes ∧ t = s)
  · apply wp_ite
    · intro hslash
      apply (iget_sound h h.proper.root).mono
      · rintro ip t ⟨ht, hs, hsame, hi, -⟩
        exact ⟨ht, hs, hsame, by rw [hi, Fs.start, if_pos hslash]⟩
      · exact fun _ _ he => ⟨he.1.1, he.2⟩
    · intro hslash
      apply (idup_sound h hcwd).mono
      · rintro ip t ⟨rfl, ht, hs, hsame, hi⟩
        exact ⟨ht, hs, hsame, by rw [hi, Fs.start, if_neg hslash]⟩
      · exact fun _ _ he => he.elim
  · rintro e t ⟨rfl, rfl⟩
    exact ⟨by decide, fun _ _ _ => .refl t⟩
  · rintro ip t ⟨ht, hs, hsame, hi⟩
    apply (namexLoop_sound _ ht).mono
    · intro r u hu
      rw [hi] at hu
      refine ⟨hu.failed, hu.found, hs.trans hu.stays, fun K hK hstart => ?_⟩
      obtain ⟨hsame', hres⟩ := hu.exact K (hK.same hsame hs) hstart
      exact ⟨hsame.trans hsame', hres⟩
    · intro e u hu
      rw [hi] at hu
      exact ⟨hu.bfree, fun K hK hstart => hsame.trans (hu.exact K (hK.same hsame hs) hstart)⟩

theorem namei_sound (h : Sound sb R L s) (hcwd : 0 < R cwd) (path : List Byte) :
    Wp (namei sb cwd path) s
      (fun r t => ∃ r', r = r'.map Prod.fst ∧ Walked sb R L (s.start cwd path) s r' t)
      (WalkFailed sb R (s.start cwd path) s) := by
  apply wp_seq (namex_sound h hcwd false path)
  intro r t ht
  exact wp_pure ⟨r, rfl, ht⟩

structure Entered (sb : Superblock) (R : Slot → Nat) (L : Finset Slot) (start : Nat) (ip : Slot)
    (s t : Fs) : Prop where
  notin : ip ∉ L
  sound : Sound sb (addRef R ip) (insert ip L) t
  stays : Stays R s t
  exact : ∀ K, Traced sb R K s → K start → Same s t ∧ K (t.icache ip).inum

theorem Walked.ilock {start : Nat} (h : Walked sb R L start s (some (ip, name)) t) :
    Wp (ilock ip) t (fun _ u => Entered sb R L start ip s u) (WalkFailed sb R start s) := by
  have hpos := addRef_pos R ip
  apply (ilock_safe (h.found ip name rfl) hpos).mono
  · rintro _ u ⟨hm, hu, hs, hsame⟩
    refine ⟨hm, hu, h.stays.trans hs.of_add, fun K hK hstart => ?_⟩
    obtain ⟨hsame', hi⟩ := h.exact K hK hstart
    rw [(hs ip hpos).1]
    exact ⟨hsame'.trans hsame, hi ip name rfl⟩
  rintro e u ⟨he, hsame⟩
  exact ⟨he, fun K hK hstart => (h.exact K hK hstart).1.trans hsame⟩

theorem Entered.leave {start : Nat} (h : Entered sb R L start ip s t) : Wp (iunlockput sb ip) t
      (fun _ u => Sound sb R L u ∧ Stays R s u ∧ ∀ K, Traced sb R K s → K start → Same s u)
      fun _ _ => False := by
  apply (iunlockput_sound h.sound h.notin).post
  rintro _ u ⟨hu, hs, hput⟩
  refine ⟨hu, h.stays.trans hs, fun K hK hstart => ?_⟩
  obtain ⟨hsame, hi⟩ := h.exact K hK hstart
  have hK := hK.same hsame h.stays
  exact hsame.trans (hput.none (hK.not_last h.sound (addRef_pos R ip) (le_addRef R ip) le_rfl hi))

end Xv6Signals
