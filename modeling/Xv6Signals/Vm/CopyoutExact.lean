import Xv6Signals.Vm.Tables

namespace Xv6Signals.Vm
open Lib Frames List

variable {m m' : Frames} {d f g i j k n t e a va len r : Nat} {buf : List Byte}
  {E : Fault → Frames → Prop}

def Frames.userFrame (m : Frames) (d k : Nat) : Option Nat :=
  (m.pte d k).bind fun e => if userBit e then some (frameOf e) else none

theorem Frames.userFrame_spec (h : m.userFrame d k = some f) :
    ∃ e, m.pte d k = some e ∧ userBit e = true ∧ frameOf e = f := by
  obtain ⟨e, he, hf⟩ := Option.bind_eq_some_iff.1 h
  split at hf
  · exact ⟨e, he, ‹_›, Option.some.inj hf⟩
  · cases hf

/-- The byte `i` of the range at `va`, which goes round the end of the address space. -/
def byteAddr (va i : Nat) : Nat := (va + i) % 2 ^ 32

def Frames.Accessible (m : Frames) (d va i : Nat) : Prop :=
  (m.userFrame d (byteAddr va i / 4096)).isSome = true

/-- Pages that the user can access are in different frames, and none of these is the page directory
or one of its tables. -/
structure Frames.Separate (m : Frames) (d : Nat) : Prop where
  frames : ∀ k k' f, m.userFrame d k = some f → m.userFrame d k' = some f → k = k'
  dir : ∀ k, m.userFrame d k ≠ some d
  table : ∀ k i t, m.tab d i = some t → m.userFrame d k ≠ some t

theorem Rep.separate {H : Type} {I : Image} {D : Dirs H} {K : Wholes H} {T : Set Nat} {A : Spaces H}
    {x : H} (h : Rep I D K T A m) (hd : D x = some d)
    (hkernel : ∀ k e, userPages ≤ k → m.pte d k = some e → userBit e = false) :
    m.Separate d := by
  have huser : ∀ {k f}, m.userFrame d k = some f → At m D K T (.user x k) f := by
    intro k f hf
    obtain ⟨e, he, hu, hfe⟩ := userFrame_spec hf
    refine ⟨Nat.lt_of_not_le fun hk => ?_, d, e, hd, he, hfe⟩
    rw [hkernel k e hk he] at hu
    cases hu
  refine ⟨fun k k' f hf hf' => ?_, fun k hf => ?_, fun k i t ht hf => ?_⟩
  · cases h.placed.one (huser hf) (huser hf')
    rfl
  · cases h.placed.one (huser hf) (At.dir hd)
  · cases h.placed.one (huser hf) (At.table hd ht)

/-- The page tables of the range exist, up to the first page that the user cannot access. -/
def Frames.Tabled (m : Frames) (d va len : Nat) : Prop :=
  ∀ i, i < len → (∀ i', i' < i → m.Accessible d va i') →
    (m.tab d (byteAddr va i / 4096 / 1024)).isSome = true

/-- What `copyout` may do to the memory: the bytes that change are behind the range, and the page
directory shows the same pages. -/
structure CopiedOut (m : Frames) (d va : Nat) (buf : List Byte) (ok : Bool) (m' : Frames) :
    Prop where
  tab : m'.tab d = m.tab d
  pte : m'.pte d = m.pte d
  free : m'.free = m.free
  confined : ∀ f o, m'.page f o ≠ m.page f o → ∃ i, i < buf.length ∧
    m.userFrame d (byteAddr va i / 4096) = some f ∧ byteAddr va i % 4096 = o
  reads : ok = true → ∀ i, i < buf.length → ∃ f,
    m.userFrame d (byteAddr va i / 4096) = some f ∧
      some (m'.page f (byteAddr va i % 4096)) = buf[i]?
  failed : ok = false → ∃ i, i < buf.length ∧ ¬ m.Accessible d va i

theorem uva2ka_null (hk : k < 2 ^ 20) (ht : m.tab d (k / 1024) = none) :
    Wp (uva2ka d (k * 4096)) m (fun _ _ => False) fun e m' => e = .nullPte ∧ m' = m := by
  apply wp_walkpgdir (by omega)
  rw [pdx_page, ht]
  exact wp_throw ⟨rfl, rfl⟩

theorem uva2ka_frame (hk : k < 2 ^ 20) (ht : m.tab d (k / 1024) = some t) :
    Wp (uva2ka d (k * 4096)) m (fun r m' => r = m.userFrame d k ∧ m' = m) E := by
  apply wp_walkpgdir (by omega)
  rw [pdx_page, ht]
  apply wp_get_bind
  rw [ptx_page, Frames.userFrame, pte_of_tab ht]
  cases hp : present (m.word t (k % 1024)) <;> cases hu : userBit (m.word t (k % 1024)) <;>
    exact wp_pure ⟨by simp [hu], rfl⟩

theorem Frames.Separate.setPage (h : m.Separate d) (hf : m.userFrame d k = some f) (b : Bytes) :
    (m.setPage f b).tab d = m.tab d ∧ (m.setPage f b).pte d = m.pte d := by
  have hd : (m.setPage f b).page d = m.page d :=
    page_setPage_of_ne fun he => h.dir k (he ▸ hf)
  refine ⟨funext fun i => tab_congr hd i, funext fun j => pte_congr hd ?_⟩
  intro t ht
  exact page_setPage_of_ne fun he => h.table k _ t ht (he ▸ hf)

theorem Frames.userFrame_congr (h : m'.pte d = m.pte d) (k : Nat) :
    m'.userFrame d k = m.userFrame d k := by
  rw [Frames.userFrame, h, Frames.userFrame]

theorem Frames.Separate.congr (h : m.Separate d) (htab : m'.tab d = m.tab d)
    (hpte : m'.pte d = m.pte d) : m'.Separate d where
  frames k k' f := by
    rw [userFrame_congr hpte, userFrame_congr hpte]
    exact h.frames k k' f
  dir k := by
    rw [userFrame_congr hpte]
    exact h.dir k
  table k i t := by
    rw [htab, userFrame_congr hpte]
    exact h.table k i t

/-! ### One round -/

def chunk (va len : Nat) : Nat := min (4096 - va % 4096) len

theorem byteAddr_first (hva : va < 2 ^ 32) (hi : i < chunk va len) :
    byteAddr va i / 4096 = va / 4096 ∧ byteAddr va i % 4096 = va % 4096 + i := by
  unfold chunk at hi
  unfold byteAddr
  omega

theorem byteAddr_rest (hi : chunk va len + j < len) :
    byteAddr ((va / 4096 * 4096 + 4096) % 2 ^ 32) j = byteAddr va (chunk va len + j) := by
  unfold chunk at hi ⊢
  unfold byteAddr
  omega

theorem byteAddr_inj (hi : i < 2 ^ 32) (hj : j < 2 ^ 32) (h : byteAddr va i = byteAddr va j) :
    i = j := by
  unfold byteAddr at h
  omega

theorem CopiedOut.nil (m : Frames) (d va : Nat) : CopiedOut m d va [] true m where
  tab := rfl
  pte := rfl
  free := rfl
  confined _ _ h := (h rfl).elim
  reads _ _ hi := (Nat.not_lt_zero _ hi).elim
  failed h := by cases h

theorem CopiedOut.blocked (hi : 0 < buf.length) (h : ¬ m.Accessible d va 0) :
    CopiedOut m d va buf false m where
  tab := rfl
  pte := rfl
  free := rfl
  confined _ _ h := (h rfl).elim
  reads h := by cases h
  failed _ := ⟨0, hi, h⟩

theorem CopiedOut.cons {ok : Bool} (hsep : m.Separate d) (hva : va < 2 ^ 32)
    (hlen : buf.length ≤ 2 ^ 32) (hf : m.userFrame d (va / 4096) = some f)
    (h : CopiedOut (m.setPage f ((m.page f).write (va % 4096) (buf.take (chunk va buf.length))))
      d ((va / 4096 * 4096 + 4096) % 2 ^ 32) (buf.drop (chunk va buf.length)) ok m') :
    CopiedOut m d va buf ok m' := by
  obtain ⟨htab, hpte⟩ := hsep.setPage hf
    ((m.page f).write (va % 4096) (buf.take (chunk va buf.length)))
  have huser := userFrame_congr hpte
  have hn : chunk va buf.length ≤ buf.length := Nat.min_le_right _ _
  have htake : (buf.take (chunk va buf.length)).length = chunk va buf.length := by
    rw [length_take, Nat.min_eq_left hn]
  have hdrop : (buf.drop (chunk va buf.length)).length = buf.length - chunk va buf.length :=
    length_drop
  generalize hm₁ : m.setPage f ((m.page f).write (va % 4096) (buf.take (chunk va buf.length))) = m₁
    at h htab hpte huser
  -- a byte of the rest is a later byte of the whole range
  have hrest : ∀ j, j < buf.length - chunk va buf.length →
      byteAddr ((va / 4096 * 4096 + 4096) % 2 ^ 32) j = byteAddr va (chunk va buf.length + j) :=
    fun j hj => byteAddr_rest (by omega)
  refine ⟨h.tab.trans htab, h.pte.trans hpte, h.free.trans (hm₁ ▸ rfl), ?_, ?_, ?_⟩
  · intro g o hne
    by_cases hsame : m'.page g o = m₁.page g o
    · rw [hsame, ← hm₁] at hne
      have hg : g = f := by
        by_contra hg
        rw [page_setPage_of_ne hg] at hne
        exact hne rfl
      subst hg
      rw [page_setPage] at hne
      have hin : va % 4096 ≤ o ∧ o < va % 4096 + chunk va buf.length := by
        by_contra hout
        exact hne (Bytes.write_outside (by omega))
      have hlt : o - va % 4096 < chunk va buf.length := by omega
      obtain ⟨hdiv, hmod⟩ := byteAddr_first hva hlt
      refine ⟨o - va % 4096, by omega, ?_, by omega⟩
      rw [hdiv, hf]
    · obtain ⟨j, hj, hframe, ho⟩ := h.confined g o hsame
      rw [hdrop] at hj
      rw [huser, hrest j hj] at hframe
      rw [hrest j hj] at ho
      exact ⟨chunk va buf.length + j, by omega, hframe, ho⟩
  · intro hok i hi
    by_cases hin : i < chunk va buf.length
    · obtain ⟨hdiv, hmod⟩ := byteAddr_first hva hin
      refine ⟨f, by rw [hdiv, hf], ?_⟩
      have hkept : m'.page f (byteAddr va i % 4096) = m₁.page f (byteAddr va i % 4096) := by
        by_contra hne
        obtain ⟨j, hj, hframe, ho⟩ := h.confined f _ hne
        rw [hdrop] at hj
        rw [huser, hrest j hj] at hframe
        rw [hrest j hj] at ho
        have hdiv' := hsep.frames _ _ _ hframe hf
        have heq : byteAddr va (chunk va buf.length + j) = byteAddr va i := by omega
        have := byteAddr_inj (by omega) (by omega) heq
        omega
      have hwritten : m₁.page f (va % 4096 + i) = buf[i] := by
        rw [← hm₁, page_setPage, Bytes.write_at (by omega), getElem_take]
      rw [hkept, hmod, hwritten, getElem?_eq_getElem hi]
    · obtain ⟨g, hframe, hread⟩ := h.reads hok (i - chunk va buf.length) (by omega)
      rw [huser, hrest _ (by omega), Nat.add_sub_cancel' (Nat.le_of_not_lt hin)] at hframe
      rw [hrest _ (by omega), Nat.add_sub_cancel' (Nat.le_of_not_lt hin), getElem?_drop,
        Nat.add_sub_cancel' (Nat.le_of_not_lt hin)] at hread
      exact ⟨g, hframe, hread⟩
  · intro hok
    obtain ⟨j, hj, hno⟩ := h.failed hok
    rw [hdrop] at hj
    rw [Frames.Accessible, huser, hrest j hj] at hno
    exact ⟨chunk va buf.length + j, by omega, hno⟩

theorem Frames.tabled_cons (hva : va < 2 ^ 32) (htab : m'.tab d = m.tab d)
    (hpte : m'.pte d = m.pte d) (hf : m.userFrame d (va / 4096) = some f) :
    m.Tabled d va len ↔
      m'.Tabled d ((va / 4096 * 4096 + 4096) % 2 ^ 32) (len - chunk va len) := by
  have huser := userFrame_congr hpte
  have hrest : ∀ j, j < len - chunk va len →
      byteAddr ((va / 4096 * 4096 + 4096) % 2 ^ 32) j = byteAddr va (chunk va len + j) :=
    fun j hj => byteAddr_rest (by omega)
  have hfirst : ∀ i, i < chunk va len → m.Accessible d va i := by
    intro i hi
    rw [Frames.Accessible, (byteAddr_first hva hi).1, hf]
    rfl
  constructor
  · intro h j hj hacc
    rw [htab, hrest j hj]
    refine h (chunk va len + j) (by omega) fun i hi => ?_
    by_cases hin : i < chunk va len
    · exact hfirst i hin
    · have hacc' := hacc (i - chunk va len) (by omega)
      rw [Frames.Accessible, huser, hrest _ (by omega),
        Nat.add_sub_cancel' (Nat.le_of_not_lt hin)] at hacc'
      exact hacc'
  · intro h i hi hacc
    by_cases hin : i < chunk va len
    · obtain ⟨e, he, _⟩ := userFrame_spec hf
      obtain ⟨t, ht⟩ := exists_tab he
      rw [(byteAddr_first hva hin).1, ht]
      rfl
    have hi' := h (i - chunk va len) (by omega) fun j hj => by
      rw [Frames.Accessible, huser, hrest j (by omega)]
      exact hacc _ (by omega)
    rw [htab, hrest _ (by omega), Nat.add_sub_cancel' (Nat.le_of_not_lt hin)] at hi'
    exact hi'

theorem Frames.tabled_zero : m.Tabled d va 0 := fun _ hi => (Nat.not_lt_zero _ hi).elim

theorem Frames.Tabled.first (h : m.Tabled d va len) (hva : va < 2 ^ 32) (hpos : 0 < len) :
    (m.tab d (va / 4096 / 1024)).isSome = true := by
  have h₀ := h 0 hpos fun i hi => (Nat.not_lt_zero _ hi).elim
  rw [byteAddr, Nat.add_zero, Nat.mod_eq_of_lt hva] at h₀
  exact h₀

theorem Frames.tabled_blocked (hva : va < 2 ^ 32) (ht : m.tab d (va / 4096 / 1024) = some t)
    (hf : m.userFrame d (va / 4096) = none) : m.Tabled d va len := by
  intro i hi hacc
  cases i with
  | zero =>
    rw [byteAddr, Nat.add_zero, Nat.mod_eq_of_lt hva, ht]
    rfl
  | succ i =>
    have h₀ := hacc 0 (Nat.succ_pos i)
    rw [Frames.Accessible, byteAddr, Nat.add_zero, Nat.mod_eq_of_lt hva, hf] at h₀
    cases h₀

theorem copyoutLoop_exact (hsep : m.Separate d) (hva : va < 2 ^ 32) (hlen : buf.length ≤ 2 ^ 32)
    (hr : buf.length < r) :
    (m.Tabled d va buf.length → Wp (copyoutLoop d r va buf) m (CopiedOut m d va buf) E) ∧
      (¬ m.Tabled d va buf.length →
        Wp (copyoutLoop d r va buf) m (fun _ _ => False) fun e _ => e = .nullPte) := by
  induction r generalizing m va buf with
  | zero => omega
  | succ r ih =>
    unfold copyoutLoop
    by_cases hnil : buf.length = 0
    · rw [if_pos hnil]
      have hbuf := length_eq_zero_iff.1 hnil
      subst hbuf
      exact ⟨fun _ => wp_pure (.nil m d va), fun h => (h tabled_zero).elim⟩
    rw [if_neg hnil]
    have hpos : 0 < buf.length := Nat.pos_of_ne_zero hnil
    have hk : va / 4096 < 2 ^ 20 := by omega
    have hoff : va - pgRoundDown va = va % 4096 := by
      unfold pgRoundDown
      omega
    have hround : pgRoundDown va = va / 4096 * 4096 := rfl
    rw [hoff, hround]
    cases ht : m.tab d (va / 4096 / 1024) with
    | none =>
      have hno : ¬ m.Tabled d va buf.length := by
        intro h
        have hsome := h.first hva hpos
        rw [ht] at hsome
        cases hsome
      refine ⟨fun h => (hno h).elim, fun _ => ?_⟩
      exact wp_bind (uva2ka_null hk ht) (fun _ _ he => he.1) fun _ _ hf => hf.elim
    | some t =>
      cases hf : m.userFrame d (va / 4096) with
      | none =>
        have hacc : ¬ m.Accessible d va 0 := by
          rw [Frames.Accessible, byteAddr, Nat.add_zero, Nat.mod_eq_of_lt hva, hf]
          exact Bool.false_ne_true
        refine ⟨fun _ => ?_, fun h => (h (tabled_blocked hva ht hf)).elim⟩
        apply wp_seq (uva2ka_frame hk ht)
        rintro _ _ ⟨rfl, rfl⟩
        rw [hf]
        exact wp_pure (.blocked hpos hacc)
      | some f =>
        obtain ⟨htab, hpte⟩ := hsep.setPage hf
          ((m.page f).write (va % 4096) (buf.take (chunk va buf.length)))
        have hchunk : 0 < chunk va buf.length := by
          unfold chunk
          omega
        have hdrop : (buf.drop (chunk va buf.length)).length =
            buf.length - chunk va buf.length := length_drop
        have hlt : (buf.drop (chunk va buf.length)).length < r := by omega
        have hih := ih (hsep.congr htab hpte)
          (Nat.mod_lt (va / 4096 * 4096 + 4096) (by decide)) (by omega) hlt
        rw [hdrop] at hih
        have hcons : m.Tabled d va buf.length ↔ _ := tabled_cons hva htab hpte hf
        constructor
        · intro h
          apply wp_seq (uva2ka_frame hk ht)
          rintro _ _ ⟨rfl, rfl⟩
          rw [hf]
          apply wp_modify_bind
          apply (hih.1 (hcons.1 h)).post
          exact fun _ _ hm => .cons hsep hva hlen hf hm
        · intro h
          apply wp_seq (uva2ka_frame hk ht)
          rintro _ _ ⟨rfl, rfl⟩
          rw [hf]
          apply wp_modify_bind
          exact hih.2 fun h' => h (hcons.2 h')

theorem copyout_copies (hsep : m.Separate d) (hva : va < 2 ^ 32) (hlen : buf.length < 2 ^ 32) :
    Wp (copyout d va buf) m (CopiedOut m d va buf) fun e _ => e = .nullPte := by
  obtain ⟨hok, hnull⟩ := copyoutLoop_exact hsep hva (Nat.le_of_lt hlen)
    (Nat.lt_succ_self buf.length)
  by_cases h : m.Tabled d va buf.length
  · exact hok h
  · exact (hnull h).post (fun _ _ hf => hf.elim)

def Frames.byteAt (m : Frames) (d a : Nat) : Option Byte :=
  (m.userFrame d (a / 4096)).map fun f => m.page f (a % 4096)

theorem byteAddr_eq (h : va + i < 2 ^ 32) : byteAddr va i = va + i := Nat.mod_eq_of_lt h

def Frames.Holds (m : Frames) (d a : Nat) (bs : List Byte) : Prop :=
  ∀ i, i < bs.length → m.byteAt d (a + i) = bs[i]?

theorem Frames.Holds.congr {bs : List Byte} (h : m.Holds d a bs)
    (hsame : ∀ i, i < bs.length → m'.byteAt d (a + i) = m.byteAt d (a + i)) : m'.Holds d a bs :=
  fun i hi => (hsame i hi).trans (h i hi)

theorem Frames.Holds.right {bs cs : List Byte} (h : m.Holds d a (bs ++ cs)) :
    m.Holds d (a + bs.length) cs := by
  intro i hi
  have hlt : bs.length + i < (bs ++ cs).length := by
    rw [length_append]
    omega
  rw [Nat.add_assoc, h _ hlt, getElem?_append_right (Nat.le_add_right ..),
    Nat.add_sub_cancel_left]

theorem Frames.Holds.left {bs cs : List Byte} (h : m.Holds d a (bs ++ cs)) : m.Holds d a bs := by
  intro i hi
  have hlt : i < (bs ++ cs).length := by
    rw [length_append]
    omega
  rw [h i hlt, getElem?_append_left hi]

theorem CopiedOut.holds (h : CopiedOut m d va buf true m') (hfit : va + buf.length ≤ 2 ^ 32) :
    m'.Holds d va buf := by
  intro i hi
  obtain ⟨f, hf, hread⟩ := h.reads rfl i hi
  rw [byteAddr_eq (by omega)] at hf hread
  rw [Frames.byteAt, userFrame_congr h.pte, hf, Option.map_some, hread]

theorem CopiedOut.byteAt_out {ok : Bool} (hsep : m.Separate d) (h : CopiedOut m d va buf ok m')
    (hfit : va + buf.length ≤ 2 ^ 32) (ha : a < va ∨ va + buf.length ≤ a) :
    m'.byteAt d a = m.byteAt d a := by
  rw [Frames.byteAt, Frames.byteAt, userFrame_congr h.pte]
  cases hf : m.userFrame d (a / 4096) with
  | none => rfl
  | some f =>
    rw [Option.map_some, Option.map_some]
    congr 1
    by_contra hne
    obtain ⟨i, hi, hframe, ho⟩ := h.confined f _ hne
    have hdiv := hsep.frames _ _ _ hframe hf
    rw [byteAddr_eq (by omega)] at hdiv ho
    omega

/-- `copyout` reads no entry that does not exist, writes only behind the user-accessible pages of
the range, and when it succeeds the range reads as the buffer. -/
def CopyoutExact (m : Frames) (d va : Nat) (buf : List Byte) : Prop :=
  ∃ ok m', copyout d va buf m = .ok ok m' ∧ CopiedOut m d va buf ok m'

/-- `copyout` is exact exactly when the page tables of the range exist, up to the first page that
the user cannot access. -/
theorem copyout_exact_iff (m : Frames) (d va : Nat) (buf : List Byte) (hsep : m.Separate d)
    (hva : va < 2 ^ 32) (hlen : buf.length < 2 ^ 32) :
    CopyoutExact m d va buf ↔ m.Tabled d va buf.length := by
  obtain ⟨hok, hnull⟩ := copyoutLoop_exact (E := fun _ _ => False) hsep hva
    (Nat.le_of_lt hlen) (Nat.lt_succ_self buf.length)
  constructor
  · rintro ⟨ok, m', hrun, _⟩
    by_contra hno
    exact (hnull hno).ok hrun
  · intro h
    exact (hok h).total fun _ _ he => he

def onePage : Frames := ((⟨fun _ _ => 0, [], []⟩ : Frames).setWord 5 0 0x6007).setWord 6 0 0x7007

theorem onePage_tab (i : Nat) : onePage.tab 5 i = if i = 0 then some 6 else none := by
  have hne : (5 : Nat) ≠ 6 := by decide
  have htab : onePage.tab 5 i = ((⟨fun _ _ => 0, [], []⟩ : Frames).setWord 5 0 0x6007).tab 5 i :=
    tab_congr (page_setPage_of_ne hne) i
  rw [htab, Frames.tab]
  by_cases hi : i = 0
  · subst hi
    rw [word_setWord (by decide)]
    rfl
  · rw [word_setWord_of_ne hi, if_neg hi, Frames.word, Bytes.word_zero]
    exact if_neg fun hc => by cases hc.2

theorem onePage_userFrame (k : Nat) : onePage.userFrame 5 k = if k = 0 then some 7 else none := by
  by_cases hdiv : k / 1024 = 0
  · have ht : onePage.tab 5 (k / 1024) = some 6 := by rw [onePage_tab, if_pos hdiv]
    rw [Frames.userFrame, pte_of_tab ht, onePage]
    by_cases hk : k = 0
    · subst hk
      rw [word_setWord (by decide)]
      rfl
    have hmod : k % 1024 ≠ 0 := by omega
    have hne : (6 : Nat) ≠ 5 := by decide
    rw [word_setWord_of_ne hmod, Frames.word, Frames.setWord,
      page_setPage_of_ne hne, Bytes.word_zero, if_neg hk]
    rfl
  · have ht : onePage.tab 5 (k / 1024) = none := by rw [onePage_tab, if_neg hdiv]
    have hk : k ≠ 0 := by
      rintro rfl
      exact hdiv rfl
    rw [Frames.userFrame, pte_of_no_tab ht, if_neg hk]
    rfl

theorem onePage_separate : onePage.Separate 5 := by
  refine ⟨fun k k' f hf hf' => ?_, fun k hf => ?_, fun k i t ht hf => ?_⟩
  · rw [onePage_userFrame] at hf hf'
    split at hf
    · split at hf'
      · rename_i hk hk'
        rw [hk, hk']
      · cases hf'
    · cases hf
  · rw [onePage_userFrame] at hf
    split at hf <;> cases hf
  · rw [onePage_tab] at ht
    rw [onePage_userFrame] at hf
    split at ht
    · cases ht
      split at hf <;> cases hf
    · cases ht

theorem copyout_exact_page : CopyoutExact onePage 5 100 [1, 2, 3] := by
  refine (copyout_exact_iff onePage 5 100 [1, 2, 3] onePage_separate (by decide)
    (by decide)).2 fun i hi _ => ?_
  have hi' : i < 3 := hi
  have hdiv : byteAddr 100 i / 4096 / 1024 = 0 := by
    unfold byteAddr
    omega
  rw [hdiv, onePage_tab]
  rfl

/-- There is no table for the page at `0x400000`: its entry is read through a null pointer. -/
theorem copyout_null_entry :
    (∃ m', copyout 5 0x400000 [97] onePage = .error .nullPte m') ∧
      onePage.Separate 5 ∧ ¬ CopyoutExact onePage 5 0x400000 [97] := by
  have hfail : failsWith (copyout 5 0x400000 [97]) onePage .nullPte = true := by decide +kernel
  obtain ⟨m', hrun⟩ := exists_of_failsWith hfail
  refine ⟨⟨m', hrun⟩, onePage_separate, ?_⟩
  rintro ⟨ok, m'', hok, _⟩
  rw [hrun] at hok
  cases hok

end Xv6Signals.Vm
