import Xv6Signals.Fs.DirMap
import Mathlib.Data.List.TakeWhile

namespace Xv6Signals
open Lib List Option

variable {sb : Superblock} {s t u : Fs} {ip jp cwd : Slot} {i d k : Nat} {K : Nat → Prop} {v : Vol}
  {R : Slot → Nat} {L : Finset Slot} {path rest name buf : List Byte} {names : List (List Byte)}
  {parent : Bool} {e : FsPanic}

/-- The maximal pieces of a path without slashes that are not empty. -/
def pieces (path : List Byte) : List (List Byte) := (path.splitOn slash).filter (· ≠ [])

theorem pieces_nil : pieces [] = [] := rfl

theorem pieces_slash (path : List Byte) : pieces (slash :: path) = pieces path := by
  have hsplit := splitOnP_append_cons (p := (· == slash)) [] path (beq_self_eq_true slash)
  rw [nil_append] at hsplit
  rw [pieces, pieces, List.splitOn, List.splitOn, hsplit, filter_append]
  rfl

theorem pieces_dropWhile (path : List Byte) :
    pieces (path.dropWhile (· = slash)) = pieces path := by
  induction path with
  | nil => rfl
  | cons c path ih =>
    by_cases hc : c = slash
    · rw [dropWhile_cons_of_pos (by simpa using hc), hc, pieces_slash, ih]
    · rw [dropWhile_cons_of_neg (by simpa using hc)]

theorem not_of_dropWhile {p : Byte → Bool} {c : Byte} (h : path.dropWhile p = c :: rest) :
    p c = false := by
  have hhead := head?_dropWhile_not p path
  rw [h] at hhead
  exact hhead

theorem pieces_cons {c : Byte} (hc : c ≠ slash) (path : List Byte) :
    pieces (c :: path) = (c :: path).takeWhile (· ≠ slash) ::
      pieces ((c :: path).dropWhile (· ≠ slash)) := by
  have hsplit := takeWhile_append_dropWhile (p := (· ≠ slash)) (l := c :: path)
  have hfree : slash ∉ (c :: path).takeWhile (· ≠ slash) := by
    intro hm
    simpa using mem_takeWhile_imp hm
  have hne : (c :: path).takeWhile (· ≠ slash) ≠ [] := by
    rw [takeWhile_cons_of_pos (by simpa using hc)]
    exact cons_ne_nil _ _
  have hsingle := splitOn_eq_singleton hfree
  cases hrest : (c :: path).dropWhile (· ≠ slash) with
  | nil =>
    rw [hrest, append_nil] at hsplit
    rw [hsplit] at hsingle hne ⊢
    rw [pieces, hsingle, pieces_nil, filter_cons_of_pos (p := (· ≠ [])) (decide_eq_true hne), filter_nil]
  | cons x rest =>
    have hx : x = slash := by simpa using not_of_dropWhile hrest
    rw [hrest, hx] at hsplit
    have happ := splitOnP_append_cons (p := (· == slash))
      ((c :: path).takeWhile (· ≠ slash)) rest (beq_self_eq_true slash)
    rw [hsplit, ← List.splitOn, ← List.splitOn, ← List.splitOn, hsingle] at happ
    rw [hx, pieces_slash, pieces, happ, singleton_append,
      filter_cons_of_pos (p := (· ≠ [])) (decide_eq_true hne), pieces]

/-- What `skipelem` finds before it copies: the element, and what follows its slashes. -/
def nextPiece (path : List Byte) : Option (List Byte × List Byte) :=
  let p := path.dropWhile (· = slash)
  if p = [] then none
  else some (p.takeWhile (· ≠ slash), (p.dropWhile (· ≠ slash)).dropWhile (· = slash))

theorem nextPiece_cases (path : List Byte) : nextPiece path = none ∧ pieces path = [] ∨
    ∃ piece rest, nextPiece path = some (piece, rest) ∧ pieces path = piece :: pieces rest ∧
      (rest = [] ↔ pieces rest = []) ∧ rest.length < path.length ∧
      (∀ c ∈ piece, c ∈ path) ∧ ∀ c ∈ rest, c ∈ path := by
  unfold nextPiece
  rw [← pieces_dropWhile path]
  have hsub := dropWhile_sublist (· = slash) (l := path)
  cases hp : path.dropWhile (· = slash) with
  | nil => exact .inl ⟨rfl, rfl⟩
  | cons c q =>
    rw [hp] at hsub
    have hc : c ≠ slash := by simpa using not_of_dropWhile hp
    have hrest := dropWhile_sublist (· = slash) (l := (c :: q).dropWhile (· ≠ slash))
    have htail := dropWhile_sublist (· ≠ slash) (l := q)
    rw [← dropWhile_cons_of_pos (a := c) (by simpa using hc)] at htail
    refine .inr ⟨_, _, if_neg (cons_ne_nil c q), ?_, ?_, ?_, fun x hx => ?_, fun x hx => ?_⟩
    · rw [pieces_dropWhile, pieces_cons hc]
    · constructor
      · intro hnil
        rw [hnil, pieces_nil]
      · intro hnil
        -- what is left has no slash in front, so it would have a piece
        cases hr : ((c :: q).dropWhile (· ≠ slash)).dropWhile (· = slash) with
        | nil => rfl
        | cons x p =>
          rw [hr, pieces_cons (by simpa using not_of_dropWhile hr)] at hnil
          cases hnil
    · have := hrest.length_le
      have := htail.length_le
      have := hsub.length_le
      rw [length_cons] at this
      omega
    · exact hsub.subset ((takeWhile_sublist _).subset hx)
    · exact hsub.subset (mem_cons_of_mem c (htail.subset (hrest.subset hx)))

theorem skipelem_eq (path : List Byte) :
    skipelem path = (nextPiece path).map fun r => (r.1.take 14, r.2) := by
  unfold skipelem nextPiece
  dsimp only
  split <;> rfl

/-- How the element is copied to the caller's buffer: one that is too long is cut and has no NUL,
and behind the NUL of a shorter one the old bytes stay. -/
def copyName (buf piece : List Byte) : List Byte :=
  if 14 ≤ piece.length then piece.take 14 else piece ++ 0 :: buf.drop (piece.length + 1)

def skipelemInto (buf path : List Byte) : Option (List Byte × List Byte) :=
  (nextPiece path).map fun r => (copyName buf r.1, r.2)

theorem length_copyName (hbuf : buf.length = 14) (piece : List Byte) :
    (copyName buf piece).length = 14 := by
  unfold copyName
  split
  · rw [length_take]
    omega
  · rw [length_append, length_cons, length_drop]
    omega

theorem cut_copyName {piece : List Byte} (hz : (0 : Byte) ∉ piece) (buf : List Byte) :
    cut 14 (copyName buf piece) = piece.take 14 := by
  have hall (p : List Byte) (hp : (0 : Byte) ∉ p) (q : List Byte) :
      (p ++ q).takeWhile (· ≠ 0) = p ++ q.takeWhile (· ≠ 0) :=
    takeWhile_append_of_pos fun c hc => by
      simpa using fun h : c = 0 => hp (h ▸ hc)
  unfold copyName cut
  split
  · have hall := hall (piece.take 14) (fun hm => hz (mem_of_mem_take hm)) []
    rw [append_nil, takeWhile_nil, append_nil] at hall
    rw [hall, take_take]
    rfl
  · rw [hall piece hz, takeWhile_cons_of_neg (by decide), append_nil]

/-- The buffers that calls of `skipelem` leave, each on what the call before has left of the path,
until one returns 0. -/
inductive Elements : List Byte → List Byte → List (List Byte) → Prop
  | last {buf path : List Byte} : skipelemInto buf path = none → Elements buf path []
  | next {buf path buf' rest : List Byte} {bufs : List (List Byte)} :
      skipelemInto buf path = some (buf', rest) → Elements buf' rest bufs →
      Elements buf path (buf' :: bufs)

theorem exists_elements (hbuf : buf.length = 14) (hz : (0 : Byte) ∉ path) : ∃ bufs,
    Elements buf path bufs ∧ (∀ b ∈ bufs, b.length = 14) ∧
      bufs.map (cut 14) = (pieces path).map (List.take 14) := by
  induction hn : path.length using Nat.strong_induction_on generalizing path buf with
  | _ n ih =>
    rcases nextPiece_cases path with ⟨hnone, hp⟩ | ⟨piece, rest, hsome, hp, -, hlt, hpiece, hrest⟩
    · refine ⟨[], .last ?_, fun _ hm => (not_mem_nil hm).elim, by rw [hp]; rfl⟩
      rw [skipelemInto, hnone, map_none]
    have hlen := length_copyName hbuf piece
    obtain ⟨bufs, hel, hlens, hcut⟩ :=
      ih rest.length (by omega) hlen (fun hm => hz (hrest 0 hm)) rfl
    refine ⟨copyName buf piece :: bufs, .next ?_ hel, forall_mem_cons.2 ⟨hlen, hlens⟩, ?_⟩
    · rw [skipelemInto, hsome, map_some]
    · rw [hp, map_cons, map_cons, hcut, cut_copyName fun hm => hz (hpiece 0 hm)]

def namesOf (path : List Byte) : List (List Byte) := (pieces path).map (List.take 14)

theorem skipelem_cases (path : List Byte) : skipelem path = none ∧ namesOf path = [] ∨
    ∃ name rest, skipelem path = some (name, rest) ∧ namesOf path = name :: namesOf rest ∧
      (rest = [] ↔ namesOf rest = []) ∧ rest.length < path.length := by
  unfold namesOf
  rw [skipelem_eq]
  rcases nextPiece_cases path with ⟨hnone, hp⟩ | ⟨piece, rest, hsome, hp, hnil, hlt, -, -⟩
  · exact .inl ⟨by rw [hnone, map_none], by rw [hp, map_nil]⟩
  · refine .inr ⟨piece.take 14, rest, ?_, ?_, ?_, hlt⟩
    · rw [hsome, map_some]
    · rw [hp, map_cons]
    · rw [hnil, map_eq_nil_iff]

def Vol.lookup (v : Vol) (d : Nat) (name : List Byte) : Option Nat :=
  if (v.inode d).type = .dir then v.dirMap d (cut 14 name) else none

def Vol.walk (v : Vol) (start : Nat) (names : List (List Byte)) : Option Nat :=
  names.foldlM v.lookup start

def Vol.walkParent (v : Vol) (start : Nat) (names : List (List Byte)) : Option (Nat × List Byte) :=
  names.getLast?.bind fun name => (v.walk start names.dropLast).bind fun d =>
    if (v.inode d).type = .dir then some (d, name) else none

theorem walk_cons (v : Vol) (d : Nat) (name : List Byte) (names : List (List Byte)) :
    v.walk d (name :: names) = (v.lookup d name).bind fun i => v.walk i names :=
  foldlM_cons

theorem walkParent_last (v : Vol) (d : Nat) (name : List Byte) :
    v.walkParent d [name] = if (v.inode d).type = .dir then some (d, name) else none := rfl

theorem dir_of_walkParent (h : v.walkParent i names = some (d, name)) :
    (v.inode d).type = .dir := by
  obtain ⟨x, -, h⟩ := bind_eq_some_iff.1 h
  obtain ⟨j, -, h⟩ := bind_eq_some_iff.1 h
  split at h
  · cases h
    assumption
  · cases h

theorem walkParent_cons (v : Vol) (d : Nat) (name : List Byte) (h : names ≠ []) :
    v.walkParent d (name :: names) = (v.lookup d name).bind fun i => v.walkParent i names := by
  obtain ⟨x, xs, rfl⟩ := exists_cons_of_ne_nil h
  unfold Vol.walkParent
  rw [getLast?_cons_cons, dropLast_cons_cons, walk_cons]
  cases v.lookup d name with
  | none =>
    rw [bind_none, bind_none]
    cases (x :: xs).getLast? <;> rfl
  | some i => rfl

theorem walk_eq_bind_walkParent (v : Vol) (d : Nat) (h : names ≠ []) :
    v.walk d names = (v.walkParent d names).bind fun e => v.lookup e.1 e.2 := by
  induction names generalizing d with
  | nil => exact (h rfl).elim
  | cons name names ih =>
    rw [walk_cons]
    by_cases hn : names = []
    · subst hn
      rw [walkParent_last]
      by_cases hd : (v.inode d).type = .dir
      · rw [if_pos hd, bind_some]
        cases v.lookup d name <;> rfl
      · rw [if_neg hd, bind_none, Vol.lookup, if_neg hd, bind_none]
    · rw [walkParent_cons v d name hn, bind_assoc]
      congr 1
      funext i
      exact ih i hn

def Vol.follow (v : Vol) (parent : Bool) (d : Nat) (names : List (List Byte)) :
    Option (Nat × List Byte) :=
  if parent = true then v.walkParent d names else (v.walk d names).map fun i => (i, [])

theorem follow_nil (v : Vol) (parent : Bool) (d : Nat) :
    v.follow parent d [] = if parent = true then none else some (d, []) := rfl

theorem follow_not_dir (hd : (v.inode d).type ≠ .dir) (parent : Bool) (name : List Byte)
    (names : List (List Byte)) : v.follow parent d (name :: names) = none := by
  have hnone : v.lookup d name = none := if_neg hd
  unfold Vol.follow
  split
  · by_cases hn : names = []
    · rw [hn, walkParent_last, if_neg hd]
    · rw [walkParent_cons v d name hn, hnone, bind_none]
  · rw [walk_cons, hnone, bind_none, map_none]

theorem follow_cons (h : ¬ (parent = true ∧ names = [])) (v : Vol) (d : Nat) (name : List Byte) :
    v.follow parent d (name :: names) = (v.lookup d name).bind fun i => v.follow parent i names := by
  unfold Vol.follow
  split
  · rename_i hp
    exact walkParent_cons v d name fun hn => h ⟨hp, hn⟩
  · rw [walk_cons, Option.map_bind]
    rfl

/-- A directory tree that lookups stay in: all its inodes are allocated, with links or in use, and
its directories consist of whole entries. -/
structure DirTree (sb : Superblock) (R : Slot → Nat) (K : Nat → Prop) (s : Fs) : Prop extends
    Traced sb R K s where
  live : ∀ i, K i → s.disk.live sb i
  size : ∀ i, K i → (s.disk.inode i).type = .dir → (s.disk.inode i).size % 16 = 0

theorem DirTree.same (h : DirTree sb R K s) (hsame : Same s t) (hs : Stays R s t) :
    DirTree sb R K t := by
  refine ⟨h.toTraced.same hsame hs, ?_, ?_⟩
  · rw [hsame.1]
    exact h.live
  · rw [hsame.1]
    exact h.size

theorem DirTree.lookup (h : DirTree sb R K s) (hd : K d) (hi : s.disk.lookup d name = some i) :
    K i := by
  unfold Vol.lookup at hi
  split at hi
  · rename_i hdir
    obtain ⟨k, hk⟩ := Slots.exists_of_get hi
    obtain ⟨hsize, hne, rfl, -⟩ := slots_eq_some_iff.1 hk
    exact h.step d k hd (h.live d hd) hdir hsize hne
  · cases hi

/-- Why a lookup cannot go on: it waits for a lock, or it needs a second entry of the inode cache
when at most one is free. -/
def Stuck (R : Slot → Nat) (L : Finset Slot) (e : FsPanic) : Prop :=
  e = .deadlock ∧ L ≠ ∅ ∨ e = .igetNoInodes ∧ ∀ ip jp, R ip = 0 → R jp = 0 → ip = jp

theorem stuck_of_mem (hip : ip ∈ L) (R : Slot → Nat) : Stuck R L .deadlock :=
  .inl ⟨rfl, Finset.ne_empty_of_mem hip⟩

theorem stuck_of_full (hfull : ∀ jp, 0 < addRef R ip jp) (L : Finset Slot) :
    Stuck R L .igetNoInodes := by
  have heq (jp : Slot) (hz : R jp = 0) : jp = ip := by
    by_contra hne
    have := hfull jp
    rw [addRef_of_ne hne] at this
    omega
  exact .inr ⟨rfl, fun jp kp hj hk => (heq jp hj).trans (heq kp hk).symm⟩

def reached (r : Option (Slot × List Byte)) (t : Fs) : Option (Nat × List Byte) :=
  r.map fun e => ((t.icache e.1).inum, e.2)

theorem DirTree.dirlookup (h : DirTree sb R K s) (hs : Sound sb (addRef R ip) (insert ip L) s)
    (hip : K (s.icache ip).inum) (hd : (s.icache ip).d.type = .dir) (name : List Byte) :
    Wp (dirlookup sb ip name) s
      (fun r t => Looked sb (addRef R ip) (insert ip L) s (s.icache ip).inum name r t ∧
        foundInum r t = s.disk.lookup (s.icache ip).inum name)
      fun e _ => Stuck R L e := by
  have hmem : ip ∈ insert ip L := Finset.mem_insert_self ..
  have hdir : (s.disk.inode (s.icache ip).inum).type = .dir := by rwa [hs.inode_eq hmem]
  apply (dirlookup_sound hs hmem name).mono
  · rintro r t ⟨-, hr⟩
    refine ⟨hr, ?_⟩
    rw [hr.foundInum, Vol.lookup, if_pos hdir]
  rintro e t ⟨⟨-, hne⟩ | ⟨-, hmod⟩ | ⟨rfl, hfull⟩, -⟩
  · exact (hne hd).elim
  · refine (hmod ?_).elim
    rw [← hs.inode_eq hmem]
    exact h.size _ hip hdir
  · exact stuck_of_full hfull L

theorem namexEnd_follows (h : Sound sb (addRef R ip) L s) (parent : Bool) :
    Wp (namexEnd sb parent ip) s
      (fun r t => reached r t = s.disk.follow parent (s.icache ip).inum []) fun e _ => Stuck R L e := by
  rw [follow_nil]
  apply wp_ite
  · intro hp
    apply wp_bind (iput_sound h)
    · rintro e t ⟨rfl, hm, -⟩
      exact stuck_of_mem hm R
    · intro _ t _
      exact wp_pure (by rw [if_pos hp]; rfl)
  · intro hp
    exact wp_pure (by rw [if_neg hp]; rfl)

theorem namexLoop_follows (fuel : Nat) (hfuel : path.length ≤ fuel)
    (h : Sound sb (addRef R ip) L s) (htree : DirTree sb R K s) (hip : K (s.icache ip).inum) :
    Wp (namexLoop sb parent fuel ip path) s
      (fun r t => reached r t = s.disk.follow parent (s.icache ip).inum (namesOf path))
      fun e _ => Stuck R L e := by
  induction fuel generalizing s ip path with
  | zero =>
    have hnil : path = [] := length_eq_zero_iff.1 (Nat.le_zero.1 hfuel)
    rw [hnil]
    exact namexEnd_follows h parent
  | succ fuel ih =>
    unfold namexLoop
    rcases skipelem_cases path with ⟨hnone, hn⟩ | ⟨name, rest, hsome, hn, hrest, hlt⟩
    · rw [hnone, hn]
      exact namexEnd_follows h parent
    rw [hsome, hn]
    have hpos := addRef_pos R ip
    apply wp_bind (ilock_sound h hpos)
    · rintro e t ⟨⟨rfl, hm⟩ | ⟨rfl, hl⟩, -⟩
      · exact stuck_of_mem hm R
      · exact (hl (htree.live _ hip)).elim
    rintro _ t ⟨hm, ht, hs, hsame⟩
    have hinum := (hs ip hpos).1
    have htree := htree.same hsame hs.of_add
    rw [← hinum] at hip ⊢
    rw [← hsame.1]
    have hmem : ip ∈ insert ip L := Finset.mem_insert_self ..
    apply wp_get_bind
    apply wp_ite
    · intro hd
      apply wp_step (iunlockput_sound ht hm)
      intro _ u _
      refine wp_pure ?_
      rw [follow_not_dir]
      · rfl
      · rwa [ht.inode_eq hmem]
    intro hd
    have hd := Decidable.not_not.1 hd
    apply wp_ite
    · rintro ⟨hp, hnil⟩
      apply wp_step (iunlock_sound ht hm)
      rintro _ u ⟨-, hs', -⟩
      refine wp_pure ?_
      rw [hrest.1 hnil, Vol.follow, if_pos hp, walkParent_last, if_pos, ← (hs' ip hpos).1]
      · rfl
      · rwa [ht.inode_eq hmem]
    intro hmore
    rw [hrest] at hmore
    rw [follow_cons hmore]
    apply wp_seq (htree.dirlookup ht hip hd name)
    rintro r u ⟨hr, hfound⟩
    rw [← hfound]
    cases r with
    | none =>
      obtain ⟨rfl, -⟩ := hr
      apply wp_step (iunlockput_sound ht hm)
      exact fun _ w _ => wp_pure rfl
    | some r =>
      obtain ⟨hu, hs', hsame', -⟩ := hr
      have hnext : K (u.icache r.1).inum := htree.lookup hip hfound.symm
      have htree' := htree.same hsame' hs'.of_add
      have hu' := hu
      rw [addRef_comm] at hu'
      apply wp_step (iunlockput_sound hu' hm)
      rintro _ w ⟨hw, hs'', hput⟩
      have hinum' := (hs'' r.1 (addRef_pos R r.1)).1
      -- the directory has a link or another reference, so nothing is freed
      have hsame'' : Same u w := by
        apply hput.none
        refine htree'.not_last hu (hpos.trans_le (le_addRef ..)) ?_ (le_addRef ..) ?_
        · exact fun jp => (le_addRef R ip jp).trans (le_addRef ..)
        · rw [(hs' ip hpos).1]
          exact hip
      have hlen : rest.length ≤ fuel := by omega
      have hw' := ih hlen hw (htree'.same hsame'' hs''.of_add) (hinum' ▸ hnext)
      apply hw'.post
      intro r' x hx
      rw [hx, hinum', hsame''.1, hsame'.1]
      rfl

/-- What a process looks up from: the inode cache as it has to be, a working directory, and a tree
that has the inode its path starts from. -/
structure Ready (sb : Superblock) (R : Slot → Nat) (L : Finset Slot) (K : Nat → Prop) (cwd : Slot)
    (path : List Byte) (s : Fs) : Prop where
  sound : Sound sb R L s
  held : 0 < R cwd
  tree : DirTree sb R K s
  start : K (s.start cwd path)

theorem namex_follows (h : Ready sb R L K cwd path s) (parent : Bool) :
    Wp (namex sb parent cwd path) s
      (fun r t => reached r t =
        s.disk.follow parent (s.start cwd path) (namesOf (path.takeWhile (· ≠ 0))))
      fun e _ => Stuck R L e := by
  apply wp_bind (P := fun ip t => Sound sb (addRef R ip) L t ∧ Stays R s t ∧ Same s t ∧
    (t.icache ip).inum = s.start cwd path) (F := fun e t => Stuck R L e)
  · apply wp_ite
    · intro hslash
      apply (iget_sound h.sound h.sound.proper.root).mono
      · rintro ip t ⟨ht, hs, hsame, hi, -⟩
        exact ⟨ht, hs, hsame, by rw [hi, Fs.start, if_pos hslash]⟩
      · rintro e t ⟨⟨rfl, hfull⟩, -⟩
        have hfull (jp : Slot) : 0 < addRef R cwd jp := (hfull jp).trans_le (le_addRef ..)
        exact stuck_of_full hfull L
    · intro hslash
      apply (idup_sound h.sound h.held).mono
      · rintro ip t ⟨rfl, ht, hs, hsame, hi⟩
        exact ⟨ht, hs, hsame, by rw [hi, Fs.start, if_neg hslash]⟩
      · exact fun _ _ he => he.elim
  · exact fun _ _ he => he
  · rintro ip t ⟨ht, hs, hsame, hi⟩
    have hlen := (takeWhile_sublist (· ≠ (0 : Byte)) (l := path)).length_le
    apply (namexLoop_follows _ hlen ht (h.tree.same hsame hs) (hi ▸ h.start)).post
    intro r u hu
    rw [hu, hi, hsame.1]

def inumOf (r : Option Slot) (t : Fs) : Option Nat := r.map fun ip => (t.icache ip).inum

theorem namei_walks (h : Ready sb R L K cwd path s) : Wp (namei sb cwd path) s
      (fun r t => inumOf r t = s.disk.walk (s.start cwd path) (namesOf (path.takeWhile (· ≠ 0))))
      fun e _ => Stuck R L e := by
  apply wp_seq (namex_follows h false)
  intro r t hr
  refine wp_pure ?_
  have hwalk := congrArg (Option.map Prod.fst) hr
  rw [reached, Vol.follow, if_neg (by decide), Option.map_map, Option.map_map] at hwalk
  rw [inumOf, Option.map_map]
  exact hwalk.trans map_id_apply

theorem nameiparent_walks (h : Ready sb R L K cwd path s)
    (hp : pieces (path.takeWhile (· ≠ 0)) ≠ []) :
    Wp (nameiparent sb cwd path) s
      (fun r t => match r with
        | none => s.disk.walk (s.start cwd path) (namesOf (path.takeWhile (· ≠ 0))) = none
        | some (dp, x) => Wp (do ilock dp; dirlookup sb dp x) t
            (fun q u => foundInum q u =
              s.disk.walk (s.start cwd path) (namesOf (path.takeWhile (· ≠ 0))))
            fun e _ => Stuck R L e)
      fun e _ => Stuck R L e := by
  have hne : namesOf (path.takeWhile (· ≠ 0)) ≠ [] := fun hn => hp (map_eq_nil_iff.1 hn)
  rw [walk_eq_bind_walkParent _ _ hne]
  apply ((namex_follows h true).and (namex_sound h.sound h.held true path)).mono
  · rintro r t ⟨hr, hw⟩
    rw [Vol.follow, if_pos rfl] at hr
    rw [← hr]
    obtain ⟨hsame, hK⟩ := hw.exact K h.tree.toTraced h.start
    have htree := h.tree.same hsame hw.stays
    cases r with
    | none => rfl
    | some r =>
      obtain ⟨dp, x⟩ := r
      have hdir := dir_of_walkParent hr.symm
      have hpos := addRef_pos R dp
      have hdp := hK dp x rfl
      show Wp _ t (fun q u => foundInum q u = s.disk.lookup (t.icache dp).inum x) _
      rw [← hsame.1] at hdir ⊢
      apply wp_bind (ilock_sound (hw.found dp x rfl) hpos)
      · rintro e u ⟨⟨rfl, hm⟩ | ⟨rfl, hl⟩, -⟩
        · exact stuck_of_mem hm R
        · exact (hl (htree.live _ hdp)).elim
      rintro _ u ⟨-, hu, hs, hsame'⟩
      have hinum := (hs dp hpos).1
      rw [← hinum] at hdir hdp ⊢
      rw [← hsame'.1] at hdir ⊢
      rw [hu.inode_eq (Finset.mem_insert_self ..)] at hdir
      apply ((htree.same hsame' hs.of_add).dirlookup hu hdp hdir x).post
      exact fun _ _ hq => hq.2
  · exact fun _ _ he => he.1

/-- Path lookup follows the components of the path. `skipelem` copies the pieces of the path one
after the other, cut to 14 bytes; `namei` does one `dirlookup` after the other with them, from the
root or the working directory, and fails at the first inode that is no directory or does not have
the name; `nameiparent` gives a directory and a name for which `dirlookup` gives what `namei` gives,
or both fail. A lookup ends in no other way, unless it waits for a lock that is held or the inode
cache is full. -/
theorem path_lookup (h : Ready sb R L K cwd path s) :
    (∀ buf : List Byte, buf.length = 14 → ∃ bufs, Elements buf (path.takeWhile (· ≠ 0)) bufs ∧
      (∀ b ∈ bufs, b.length = 14) ∧
      bufs.map (cut 14) = (pieces (path.takeWhile (· ≠ 0))).map (List.take 14)) ∧
    Wp (namei sb cwd path) s
      (fun r t => inumOf r t = ((pieces (path.takeWhile (· ≠ 0))).map (List.take 14)).foldlM
        s.disk.lookup (s.start cwd path))
      (fun e _ => Stuck R L e) ∧
    (pieces (path.takeWhile (· ≠ 0)) ≠ [] → Wp (nameiparent sb cwd path) s
      (fun r t => match r with
        | none => Wp (namei sb cwd path) s (fun r' _ => r' = none) fun e _ => Stuck R L e
        | some (dp, x) => Wp (do ilock dp; dirlookup sb dp x) t
            (fun q u => Wp (namei sb cwd path) s (fun r' w => inumOf r' w = foundInum q u)
              fun e _ => Stuck R L e)
            fun e _ => Stuck R L e)
      fun e _ => Stuck R L e) := by
  have hnamei := namei_walks h
  refine ⟨fun buf hbuf => exists_elements hbuf fun hz => ?_, hnamei, fun hp => ?_⟩
  · simpa using mem_takeWhile_imp hz
  apply (nameiparent_walks h hp).post
  rintro (_ | ⟨dp, x⟩) t hr
  · apply hnamei.post
    intro r' w hw
    rw [hr] at hw
    exact map_eq_none_iff.1 hw
  apply hr.post
  intro q u hq
  apply hnamei.post
  intro r' w hw
  rw [hw, hq]

theorem Mkfs.Image.dirTree {files : List Mkfs.Input} (h : Mkfs.Image v files)
    (hcount : files.length + 1 < 200) : DirTree mkfsSb bootRefs (v.live mkfsSb) (bootFs v) := by
  refine ⟨⟨fun d k hd _ hdir hk hne => ?_, fun i hi _ => .inl ?_⟩, fun _ hi => hi, fun i hi hdir => ?_⟩
  · obtain rfl := h.dir_eq hd hdir
    show v.live mkfsSb (v.entry rootIno k).inum
    rcases h.entry_cases hk hne with ⟨-, he⟩ | ⟨j, f, hf, -, he⟩
    · rw [he]
      exact hd
    have hj := (List.getElem?_eq_some_iff.1 hf).1
    rw [he]
    refine ⟨?_, fun hfree => ?_⟩
    · show j + 2 < 200
      omega
    · cases (h.file j f hf).type.symm.trans hfree
  · show (v.inode i).nlink ≠ 0
    rw [h.nlink hi]
    decide
  · obtain rfl := h.dir_eq hi hdir
    exact h.size

theorem Mkfs.Image.ready {files : List Mkfs.Input} (h : Mkfs.Image v files)
    (hcount : files.length + 1 < 200) (path : List Byte) :
    Ready mkfsSb bootRefs ∅ (v.live mkfsSb) slot0 path (bootFs v) := by
  refine ⟨bootFs_sound (h.proper hcount), by decide, h.dirTree hcount, ?_⟩
  have hstart : (bootFs v).start slot0 path = rootIno := ite_self _
  rw [hstart]
  exact ⟨by decide, fun hfree => by cases h.rootType.symm.trans hfree⟩

theorem path_lookup_hello : ∃ v, Mkfs.Image v [helloFile] ∧
    Wp (namei mkfsSb slot0 [47, 47, 104, 47]) (bootFs v) (fun r t => inumOf r t = some 2)
      fun e _ => Stuck bootRefs ∅ e := by
  obtain ⟨v, himage, htest⟩ := Mkfs.image_of_runs [helloFile]
    (fun v => decide (v.walk rootIno [[104]] = some 2)) (by decide +kernel) (by decide) (by decide)
    (by decide) (by decide)
  refine ⟨v, himage, (path_lookup (himage.ready (by decide) [47, 47, 104, 47])).2.1.mono ?_ ?_⟩
  · intro r t hr
    exact hr.trans (of_decide_eq_true htest)
  · exact fun _ _ he => he

end Xv6Signals
