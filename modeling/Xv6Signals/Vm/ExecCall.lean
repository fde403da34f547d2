import Xv6Signals.Vm.ExecStack

namespace Xv6Signals.Vm
open Lib Function

variable {H : Type} [DecidableEq H] {I : Image} {D : Dirs H} {K : Wholes H} {T : Set Nat}
  {A : Spaces H} {x y : H} {p q : Space} {s t u : ExecState} {m m' : Frames}
  {d i j k e n sz top used entry : Nat} {argv : List (List Byte)} {log : List FileRead}
  {E : Fault → ExecState → Prop}

theorem length_stackBytes (ws : List Nat) : (stackBytes ws).length = 4 * ws.length := by
  unfold stackBytes
  rw [length_wordsBytes, List.length_map]

theorem length_ustack (sp : Nat) (us : List Nat) : (ustack sp us).length = us.length + 4 := by
  simp only [ustack, List.length_append, List.length_cons, List.length_nil]
  omega

theorem pushVector_spec {us : List Nat} {F : Fault → Frames → Prop}
    (h : Rep I D K T A m) (hd : D x = some d) (hp : A x = some p) (hs : StackSpace I p n)
    (htop : top = n * 4096) (hused : used ≤ 4096) (hus : us.length ≤ maxArg) :
    sub32 (top - used) ((3 + us.length + 1) * 4) = top - used - 4 * (us.length + 4) ∧
    Wp (copyout d (top - used - 4 * (us.length + 4)) (stackBytes (ustack (top - used) us))) m
      (fun b m' => ((b = true ↔ used + 4 * (us.length + 4) ≤ 4096) ∧
        ∃ mem, Rep I D K T (update A x (some (p.setMem mem))) m') ∧
        CopiedOut m d (top - used - 4 * (us.length + 4)) (stackBytes (ustack (top - used) us)) b
          m') F := by
  have hsize : n < 524288 := hs.size
  have htwo := hs.two
  have hus' : us.length ≤ 32 := hus
  have hlen : (stackBytes (ustack (top - used) us)).length = 4 * (us.length + 4) := by
    rw [length_stackBytes, length_ustack]
  have hne : stackBytes (ustack (top - used) us) ≠ [] := by
    intro he
    rw [he, List.length_nil] at hlen
    omega
  constructor
  · unfold sub32
    omega
  have hcopy : Wp (copyout d (top - used - 4 * (us.length + 4))
      (stackBytes (ustack (top - used) us))) m _ _ :=
    copyout_copies (hs.separate h hd hp) (by omega) (by omega)
  by_cases hfit : used + 4 * (us.length + 4) ≤ 4096
  · have hok : ∀ j, (top - used - 4 * (us.length + 4)) / 4096 ≤ j → j < n → p.Writable j := by
      intro j hj hj'
      exact hs.writable hj' (by omega)
    have hend : top - used - 4 * (us.length + 4) +
        (stackBytes (ustack (top - used) us)).length ≤ n * 4096 := by
      rw [hlen]
      omega
    apply ((copyout_spec h hd hp hne (by omega) hok (.inl hend)).and hcopy).mono _
      fun _ _ he => he.1
    rintro b m' ⟨⟨hb, _, _, hrep⟩, hcopied⟩
    exact ⟨⟨hb.trans ⟨fun _ => hfit, fun _ => hend⟩, hrep⟩, hcopied⟩
  · have hend : ¬ (top - used - 4 * (us.length + 4) +
        (stackBytes (ustack (top - used) us)).length ≤ (n - 2) * 4096) := by
      rw [hlen]
      omega
    apply ((copyout_spec h hd hp hne (by omega) (fun j hj hj' => by omega)
      (.inr hs.blocked_guard)).and hcopy).mono _ fun _ _ he => he.1
    rintro b m' ⟨⟨hb, _, _, hrep⟩, hcopied⟩
    exact ⟨⟨hb.trans ⟨fun hc => (hend hc).elim, fun hc => (hfit hc).elim⟩, hrep⟩, hcopied⟩

theorem UserSpace.roundUp (h : UserSpace I p sz) (hlt : pages sz * 4096 < kernBase) :
    UserSpace I p (pages sz * 4096) := by
  have hpages : pages (pages sz * 4096) = pages sz := by
    unfold pages
    omega
  refine ⟨hlt, ?_, ?_, ?_, h.kernel⟩
  · rw [hpages]
    exact h.mapped
  · rw [hpages]
    exact h.above
  · rw [hpages]
    exact h.table

def ExecState.opened (s : ExecState) : ExecState :=
  { s with ops := s.ops + 1, refs := s.refs + 1, locked := true }

def ExecState.shut (s : ExecState) : ExecState :=
  { s with refs := s.refs - 1, locked := false, ops := s.ops - 1 }

theorem Inner.close (h : Inner s.opened t) (hs : s.locked = false) : Inner s t.shut := by
  obtain ⟨h₁, h₂, h₃, h₄, h₅, _⟩ := h
  refine ⟨h₁, h₂, h₃, ?_, ?_, hs.symm⟩
  · show t.ops - 1 = s.ops
    rw [h₄]
    exact Int.add_sub_cancel ..
  · show t.refs - 1 = s.refs
    rw [h₅]
    exact Int.add_sub_cancel ..

theorem bad_unlocked (h : Rep I D K ∅ A s.vm) (hd : D x = some d) :
    Wp (bad I (some d) false) s (fun r t => r = none ∧ Inner s t ∧
      Rep I (update D x none) K ∅ (update A x none) t.vm) E := by
  apply wp_onVm (freevm_spec (E := fun _ _ => False) h hd) fun _ _ he => he.elim
  intro _ m hrep
  exact wp_pure ⟨rfl, .vm s m, hrep⟩

theorem bad_locked (h : Rep I D K ∅ A t.vm) (hd : D x = some d) (ht : Inner s.opened t)
    (hs : s.locked = false) :
    Wp (bad I (some d) true) t (fun r u => r = none ∧ Inner s u ∧
      Rep I (update D x none) K ∅ (update A x none) u.vm) E := by
  apply wp_onVm (freevm_spec (E := fun _ _ => False) h hd) fun _ _ he => he.elim
  intro _ m hrep
  exact And.intro rfl ⟨(ht.trans (.vm t m)).close hs, hrep⟩

theorem bad_early (ht : Inner s.opened t) (hs : s.locked = false) :
    Wp (bad I none true) t (fun r u => r = none ∧ Inner s u ∧ u.vm = t.vm) E :=
  And.intro rfl ⟨ht.close hs, rfl⟩

def pushStack (I : Image) (d top entry : Nat) (argv : List (List Byte)) :
    ExecM (Option NewImage) := do
  match ← onVm (pushArgs d argv 0 top) with
  | none => bad I (some d) false
  | some (sp, us) =>
    let esp := sub32 sp ((3 + us.length + 1) * 4)
    if ← onVm (copyout d esp (stackBytes (ustack sp us))) then
      pure (some ⟨d, top, entry, esp⟩)
    else bad I (some d) false

theorem buildStack_rule {Q : Option NewImage → ExecState → Prop} (h : Rep I D K ∅ A s.vm)
    (hd : D x = some d) (hp : A x = some p) (hu : UserSpace I p sz)
    (hbad : ∀ m q, Rep I D K ∅ (update A x (some q)) m →
      (∀ S, (∀ j, pages sz ≤ j → j < pages sz + 2 → j / 1024 ∈ S) →
        (pages sz + 2) * 4096 < kernBase → ¬ Plenty S p 2 s.vm) →
      Wp (bad I (some d) false) { s with vm := m } Q E)
    (hgo : ∀ m q n, Rep I D K ∅ (update A x (some q)) m → StackSpace I q n →
      n = pages sz + 2 → Wp (pushStack I d (n * 4096) entry argv) { s with vm := m } Q E) :
    Wp (buildStack I d sz entry argv) s Q E := by
  have hsize : sz < 0x80000000 := hu.size
  have hround : pgRoundUp sz = pages sz * 4096 := pgRoundUp_eq (Nat.le_of_lt hu.size)
  have hpages : pages (pages sz * 4096) = pages sz := by
    unfold pages
    omega
  have hlt : pages sz < 524289 := by
    unfold pages
    omega
  have hnew : (pages sz * 4096 + 8192) % 2 ^ 32 = (pages sz + 2) * 4096 := by
    rw [Nat.add_mul, Nat.mod_eq_of_lt (by omega)]
  have hnewpages : pages ((pages sz + 2) * 4096) = pages sz + 2 := by
    show ((pages sz + 2) * 4096 + 4095) / 4096 = _
    omega
  have habove : ∀ j, pages (pages sz * 4096) ≤ j → j < userPages → p.pte j = none := by
    rw [hpages]
    exact hu.above
  have hsame : Rep I D K ∅ (update A x (some p)) s.vm := by
    rw [← hp, update_eq_self]
    exact h
  unfold buildStack
  rw [hround, hnew]
  apply wp_onVm (allocuvm_spec (E := fun _ _ => False) h hd hp habove) fun _ _ he => he.elim
  rintro r m (⟨hge, rfl, rfl⟩ | ⟨hkb, hlt', rfl, rfl⟩ | ⟨hkb, hle, hr⟩)
  · rw [if_pos rfl]
    exact hbad _ _ hsame fun S _ hc => (Nat.not_lt.2 hge hc).elim
  · omega
  rw [hpages] at hr
  cases hr with
  | failed hrep _ _ hscarce =>
    rw [if_pos rfl]
    refine hbad _ _ hrep fun S hS _ hm => ?_
    rw [hnewpages] at hscarce
    refine hscarce (n := 0) hS ?_
    rw [Nat.add_sub_cancel_left]
    exact hm
  | @grown _ q hrep hg _ =>
    have hround' : pages sz * 4096 < kernBase :=
      Nat.lt_of_le_of_lt (Nat.mul_le_mul_right 4096 (Nat.le_add_right _ 2)) hkb
    have hg' : p.Filled Zeroed q (pages (pages sz * 4096)) (pages ((pages sz + 2) * 4096)) := by
      rw [hpages]
      exact hg
    have hq : UserSpace I q ((pages sz + 2) * 4096) := (hu.roundUp hround').grow hkb hle hg'
    have htwo : 2 ≤ pages sz + 2 := Nat.le_add_left ..
    have hguard : pages sz < pages ((pages sz + 2) * 4096) := by omega
    obtain ⟨e, he, _⟩ := hq.mapped (pages sz) hguard
    obtain ⟨_, _, _, hpres, _⟩ := hrep.pte_spec hd (update_self ..) he
    have hku : pages sz < userPages := by
      have hkb' : (pages sz + 2) * 4096 < 0x80000000 := hkb
      show pages sz < 524288
      omega
    have hsub : (pages sz + 2) * 4096 - 8192 = pages sz * 4096 := by
      rw [Nat.add_mul, Nat.add_sub_cancel]
    rw [if_neg (by omega), hsub]
    apply wp_onVm (clearpteu_spec (E := fun _ _ => False) hrep hd (update_self ..) hku
      he) fun _ _ he => he.elim
    rintro _ m' ⟨hrep', _, _⟩
    rw [update_idem] at hrep'
    have hstack := hq.stack (b := q.mem (pages sz)) htwo hpres
    rw [Nat.add_sub_cancel] at hstack
    exact hgo m' _ _ hrep' hstack rfl

inductive Built (I : Image) (D : Dirs H) (K : Wholes H) (A : Spaces H) (x : H)
    (s : ExecState) : Option NewImage → ExecState → Prop
  | failed {t : ExecState} (inner : Inner s t) (rep : Rep I D K ∅ A t.vm) : Built I D K A x s none t
  | built {t : ExecState} {q : Space} {n : Nat} {img : NewImage} (inner : Inner s t)
      (rep : Rep I (update D x (some img.pgdir)) K ∅ (update A x (some q)) t.vm)
      (stack : StackSpace I q n) (size : img.sz = n * 4096) : Built I D K A x s (some img) t

structure StackFits (argv : List (List Byte)) : Prop where
  args : ArgsFit 0 0 argv
  vector : stackUsed 0 argv + 4 * (argv.length + 4) ≤ 4096

structure NewImage.Encodes (img : NewImage) (m : Frames) (d top : Nat)
    (argv : List (List Byte)) : Prop where
  pgdir : img.pgdir = d
  sz : img.sz = top
  fits : StackFits argv
  esp : img.esp = top - stackUsed 0 argv - 4 * (argv.length + 4)
  vector : m.Holds d img.esp
    (stackBytes (ustack (top - stackUsed 0 argv) (stackPtrs top 0 argv)))
  strings : List.Forall₂ (fun ptr arg => m.Holds d ptr (arg ++ [0])) (stackPtrs top 0 argv) argv

/-- A string is so long that its place on the stack of the new image is below the devices. -/
def LongFault (I : Image) (D : Dirs H) (K : Wholes H) (A : Spaces H) (x : H)
    (argv : List (List Byte)) (e : Fault) (t : ExecState) : Prop :=
  e = .nullPte ∧ ∃ d q n, StackSpace I q n ∧ LongArg (n * 4096 + 0x2000000) 0 0 argv ∧
    Rep I (update D x (some d)) K ∅ (update A x (some q)) t.vm

section Fresh

variable (hx : D x = none) (hA : A x = none) {found : Bool}
include hx hA

section

variable (h : Rep I (update D x (some d)) K ∅ (update A x (some p)) t.vm) (ht : Inner s t)
include h ht

theorem giveUp_spec : Wp (bad I (some d) false) t (fun r u => Built I D K A x s r u ∧
      ∀ img ∈ r, img.Encodes u.vm d top argv) E := by
  apply (bad_unlocked h (update_self ..)).post
  rintro _ u ⟨rfl, hinner, hrep⟩
  rw [update_idem, update_idem] at hrep
  rw [← hx, ← hA, update_eq_self, update_eq_self] at hrep
  exact ⟨.failed (ht.trans hinner) hrep, fun img himg => by cases himg⟩

theorem pushStack_spec (hs : StackSpace I p n)
    (htop : top = n * 4096) (hargv : ∀ arg ∈ argv, arg.length < physTop) :
    Wp (pushStack I d top entry argv) t (fun r u => (Built I D K A x s r u ∧
      ∀ img ∈ r, img.Encodes u.vm d top argv) ∧ (StackFits argv → r.isSome = true))
      (LongFault I D K A x argv) := by
  have hd : update D x (some d) x = some d := update_self ..
  have hsize : n < 524288 := hs.size
  have htwo := hs.two
  unfold pushStack
  by_cases hlong : LongArg (top + 0x2000000) 0 0 argv
  · have hargs := pushArgs_null h hd (update_self ..) hs htop (Nat.zero_le _) rfl hargv hlong
    refine wp_onVm hargs ?_ fun _ _ he => he.elim
    rintro e m ⟨he, mem, hrep⟩
    rw [update_idem] at hrep
    rw [htop] at hlong
    exact ⟨he, d, _, n, hs.setMem mem, hlong, hrep⟩
  have hargs := pushArgs_spec (E := fun _ _ => False) h hd (update_self ..) hs htop
    (Nat.zero_le _) rfl (Nat.zero_le _) hargv hlong
  apply wp_onVm hargs fun _ _ he => he.elim
  rintro r m ⟨⟨mem, hrep⟩, hpush, hnone⟩
  rw [update_idem] at hrep
  by_cases hfitArgs : ArgsFit 0 0 argv
  swap
  · rw [hnone hfitArgs]
    exact (giveUp_spec hx hA hrep (ht.trans (.vm t m))).post (fun r u hu => ⟨hu, fun hfits => (hfitArgs hfits.args).elim⟩)
  obtain ⟨hr, _, hheld⟩ := hpush hfitArgs
  have hbytes := hfitArgs.bytes
  have hcount : (stackPtrs top 0 argv).length ≤ maxArg := by
    rw [length_stackPtrs, ← Nat.zero_add argv.length]
    exact hfitArgs.count
  obtain ⟨hsub, hvec⟩ := pushVector_spec (F := fun _ _ => False) hrep hd
    (update_self ..) (hs.setMem mem) htop hbytes hcount
  rw [hr]
  dsimp only
  rw [hsub]
  apply wp_onVm hvec fun _ _ he => he.elim
  rintro b m' ⟨⟨hb, mem', hrep'⟩, hcopied⟩
  rw [update_idem] at hrep'
  apply wp_ite
  swap
  · intro hno
    rw [hb, length_stackPtrs] at hno
    exact (giveUp_spec hx hA hrep' (ht.trans (.vm t m'))).post (fun r u hu => ⟨hu, fun hfits => (hno hfits.vector).elim⟩)
  intro hbt
  have hfit := hb.1 hbt
  subst hbt
  have hlen : (stackBytes (ustack (top - stackUsed 0 argv) (stackPtrs top 0 argv))).length =
      4 * (argv.length + 4) := by
    rw [length_stackBytes, length_ustack, length_stackPtrs]
  rw [length_stackPtrs] at hfit hcopied ⊢
  refine wp_pure ⟨⟨.built (ht.trans (.vm t m')) hrep' (hs.setMem mem') htop, ?_⟩, fun _ => rfl⟩
  rintro _ ⟨⟩
  refine ⟨rfl, rfl, ⟨hfitArgs, hfit⟩, rfl, hcopied.holds (by omega), held_of_above hheld ?_⟩
  -- the vector is below the strings
  intro a ha
  have hsep := (hs.setMem mem).separate hrep hd (update_self ..)
  exact hcopied.byteAt_out hsep (by omega) (.inr (by omega))

theorem buildStack_spec (hu : UserSpace I p sz) (hargv : ∀ arg ∈ argv, arg.length < physTop) :
    Wp (buildStack I d sz entry argv) t (fun r u => Built I D K A x s r u ∧
      ∀ img ∈ r, img.Encodes u.vm d ((pages sz + 2) * 4096) argv) (LongFault I D K A x argv) := by
  refine buildStack_rule h (update_self ..) (update_self ..) hu ?_ ?_
  · intro m q hrep _
    rw [update_idem] at hrep
    exact giveUp_spec hx hA hrep (ht.trans (.vm t m))
  · rintro m q n hrep hs rfl
    rw [update_idem] at hrep
    exact (pushStack_spec hx hA hrep (ht.trans (.vm t m)) hs rfl hargv).post (fun _ _ hb => hb.1)

end

end Fresh

theorem Logged.buildImage_rule {Q : Option NewImage → ExecState × List FileRead → Prop}
    {F : Fault → ExecState × List FileRead → Prop} (h : Rep I D K ∅ A s.vm) (hx : D x = none)
    (hs : s.locked = false)
    (hfail : ∀ t d log, Inner s t → Rep I D K ∅ A t.vm →
      Loaded I (update D x (some d)) K x kernBase log → Q none (t, log))
    (hgo : ∀ t d q sz entry log, Inner s t →
      Rep I (update D x (some d)) K ∅ (update A x (some q)) t.vm →
      UserSpace I q sz → Loaded I (update D x (some d)) K x sz log →
      Wp (buildStack I d sz entry argv) t (fun r u => Q r (u, log)) fun e u => F e (u, log)) :
    Wp (buildImage I found argv) (s, []) Q F := by
  have hA : A x = none := by rw [h.spaces, hx, Option.map_none]
  have hempty : ∀ d sz, Loaded I (update D x (some d)) K x sz [] :=
    fun _ _ _ hst => by cases hst
  have hearly : ∀ {t}, Inner s.opened t → Rep I D K ∅ A t.vm →
      Wp (ghost (bad I none true)) (t, []) Q F := by
    intro t ht hrep
    apply (bad_early (E := fun _ _ => False) ht hs).ghost.mono _ fun _ _ he => he.2.elim
    rintro _ ⟨u, _⟩ ⟨rfl, rfl, hinner, hvm⟩
    refine hfail u 0 _ hinner ?_ (hempty _ _)
    rw [hvm]
    exact hrep
  unfold buildImage
  apply wp_modify_bind
  cases found with
  | false =>
    exact hfail _ 0 _ ⟨rfl, rfl, rfl, Int.add_sub_cancel .., rfl, rfl⟩ h (hempty _ _)
  | true =>
    apply wp_modify_bind
    apply wp_ghost (readi_spec (E := fun _ _ => False) _ _) fun _ _ he => he.elim
    rintro a t ⟨hinner, hvm, _⟩
    have ht : Inner s.opened t := hinner
    have h' : Rep I D K ∅ A t.vm := by
      rw [hvm]
      exact h
    cases a with
    | none => exact hearly ht h'
    | some bs =>
      apply wp_ite fun _ => hearly ht h'
      intro _
      apply wp_ghost_onVm (setupkvm_spec (E := fun _ _ => False) h' hx) fun _ _ he => he.elim
      intro r m hr
      have ht' : Inner s.opened { t with vm := m } := ht.trans (.vm t m)
      cases hr with
      | failed hrep _ => exact hearly ht' hrep
      | @made _ d hrep _ =>
        apply wp_seq (loadSegments_spec (s := { t with vm := m }) hrep (update_self ..)
          (update_self ..) (.of_kernelSpace I) (hempty d 0))
        rintro r ⟨u, log⟩ ⟨q, hb, hlog, hq⟩
        have hrep' := hb.rep
        rw [update_idem] at hrep'
        have hu : Inner s.opened u := ht'.trans hb.inner
        cases r with
        | none =>
          apply (bad_locked (E := fun _ _ => False) hrep' (update_self ..) hu
            hs).ghost.mono _ fun _ _ he => he.2.elim
          rintro _ ⟨v, _⟩ ⟨rfl, rfl, hv, hrep''⟩
          rw [update_idem, update_idem] at hrep''
          rw [← hx, ← hA, update_eq_self, update_eq_self] at hrep''
          exact hfail v d _ hv hrep'' hlog
        | some sz =>
          obtain ⟨hsz, hloaded⟩ := hq sz rfl
          show Wp (ghost (buildStack I d sz (ElfHdr.ofBytes bs).entry argv)) (u.shut, log) Q F
          apply (hgo u.shut d q sz (ElfHdr.ofBytes bs).entry log (hu.close hs) hrep' hsz
            hloaded).ghost.mono
          · rintro r ⟨v, _⟩ ⟨rfl, hv⟩
            exact hv
          · rintro e ⟨v, _⟩ ⟨rfl, hv⟩
            exact hv

structure BuiltLogged (I : Image) (D : Dirs H) (K : Wholes H) (A : Spaces H) (x : H)
    (argv : List (List Byte)) (s : ExecState) (r : Option NewImage)
    (t : ExecState × List FileRead) : Prop where
  built : Built I D K A x s r t.1
  loaded : ∃ d, Loaded I (update D x (some d)) K x kernBase t.2
  encodes : ∀ img ∈ r, img.Encodes t.1.vm img.pgdir img.sz argv
  within : ∀ img ∈ r, ∀ st ∈ t.2, st.size ≤ img.sz

section

variable (h : Rep I D K ∅ A s.vm) (hx : D x = none) (hs : s.locked = false)
  (hargv : ∀ arg ∈ argv, arg.length < physTop)
include h hx hs hargv

theorem Logged.buildImage_spec : Wp (buildImage I found argv) (s, []) (BuiltLogged I D K A x argv s)
      fun e t => LongFault I D K A x argv e t.1 ∧
        ∃ d, Loaded I (update D x (some d)) K x kernBase t.2 := by
  have hA : A x = none := by rw [h.spaces, hx, Option.map_none]
  refine buildImage_rule h hx hs ?_ ?_
  · intro t d log ht hrep hlog
    exact ⟨.failed ht hrep, ⟨d, hlog⟩, fun _ he => (by cases he), fun _ he => (by cases he)⟩
  intro t d q sz entry log ht hrep hsz hlog
  apply (buildStack_spec hx hA hrep ht hsz hargv).mono
  · rintro r u ⟨hb, himg⟩
    refine ⟨hb, ⟨d, hlog.weaken⟩, fun img hr => ?_, fun img hr st hst => ?_⟩
    · rw [(himg img hr).pgdir, (himg img hr).sz]
      exact himg img hr
    have hle : sz ≤ (pages sz + 2) * 4096 := by
      unfold pages
      omega
    rw [(himg img hr).sz]
    exact Nat.le_trans (hlog st hst).2 hle
  · intro e u he
    exact ⟨he, d, hlog.weaken⟩

theorem buildImage_encodes :
    Wp (buildImage I found argv) s (fun r t => Built I D K A x s r t ∧
      ∀ img ∈ r, img.Encodes t.vm img.pgdir img.sz argv) (LongFault I D K A x argv) :=
  (Logged.buildImage_erases I found argv).wp ((Logged.buildImage_spec h hx hs hargv).mono
    (fun _ _ hb => ⟨hb.built, hb.encodes⟩) fun _ _ he => he.1)

theorem buildImage_spec (hshort : ¬ LongArg 0x2002000 0 0 argv) :
    Wp (buildImage I found argv) s (Built I D K A x s) E := by
  apply (buildImage_encodes h hx hs hargv).mono (fun _ _ hb => hb.1)
  rintro e t ⟨_, d, q, n, hstack, hlong, _⟩
  have htop : 8192 ≤ n * 4096 := Nat.mul_le_mul_right 4096 hstack.two
  exact (hshort (hlong.mono (by omega))).elim

end

end Xv6Signals.Vm
