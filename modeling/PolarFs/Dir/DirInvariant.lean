/-
The invariant of the directories: the direntries with their names form a tree, the lists hold exactly the
direntries of their directories, and inodes and direntries name each other. `pfs_dir_add`, `pfs_dir_del`
and `pfs_dir_move` keep it, each under what its callers have checked.
-/
import PolarFs.Dir.EntryList
import PolarFs.Lib.NameTree

namespace PolarFs.Dir

open PolarFs.Meta (InodeType)
open Function (update update_idem update_self update_of_ne)
open NameTree (IsTree Reach Below)

/-- The tree the head direntries describe. -/
def treeOf (de : Nat → Direntry) (e : Nat) : Option (NameTree.Entry Nat Name) :=
  match (de e).dirino, (de e).ino, direntryGetname de e with
  | some d, some i, some name => some ⟨i, d, name⟩
  | _, _, _ => none

/-- `in_size` of a directory with `n` entries: that of the root does not count the two files of `mkfs`. -/
def dirSize (d n : Nat) : UInt64 := metaobjSize * UInt64.ofNat n - if d = 0 then 2 * metaobjSize else 0

/-- The invariant, for the lists `ents` of entries. -/
structure DirInv (g : Geometry) (fs : Fs) (ents : Nat → List Nat) : Prop where
  deFree : FreeClear fs.de
  deUsed : ∀ e, (fs.de e).used = true → e ∈ g.denos ∧ (fs.de e).ino ≠ none
  deRoot : (fs.de 0).used = true ∧ (fs.de 0).ino = some 0 ∧ (fs.de 0).dirino = none
  inFree : ∀ i, (fs.inode i).used = false → (fs.inode i).type = .none ∧ (fs.inode i).deno = none ∧
    fs.links.head i = 0 ∧ fs.links.tail i = 0
  inRoot : (fs.inode 0).type = .dir ∧ (fs.inode 0).deno = some 0
  linked : ∀ i e, (fs.inode i).deno = some e → (fs.inode i).nlink = 1 ∧ (fs.inode i).type ≠ .none ∧
    (fs.de e).ino = some i ∧ (i ≠ 0 → (fs.de e).dirino ≠ none)
  unlinked : ∀ i, (fs.inode i).deno = none → (fs.inode i).nlink = 0
  primary : ∀ e d, (fs.de e).dirino = some d → (fs.de e).used = true ∧ (fs.inode d).type = .dir ∧
    (fs.inode d).deno ≠ none ∧ (∃ i, (fs.de e).ino = some i ∧ (fs.inode i).deno = some e) ∧ ∃ name, Named fs.de e name
  lists : ListsOk fs.links (fun d => (fs.inode d).type = .dir) ents
  mem : ∀ d e, e ∈ ents d ↔ (fs.de e).dirino = some d
  size : ∀ d, (fs.inode d).type = .dir → (fs.inode d).size = dirSize d (ents d).length
  tree : IsTree 0 (treeOf fs.de)

/-! ## Reading the invariant -/

section
variable {g : Geometry} {fs fs' : Fs} {ents : Nat → List Nat} {d e i x y : Nat} {name : Name} {de de' : Nat → Direntry}
  {inode : Nat → Inode} {al : Alloc} {isdir : Bool}

theorem treeOf_eq_some {a : NameTree.Entry Nat Name} :
    treeOf de e = some a ↔ (de e).dirino = some a.dir ∧ (de e).ino = some a.ino ∧ direntryGetname de e = some a.name := by
  unfold treeOf
  split
  case h_1 d i name hd hi hn =>
    rw [hd, hi, hn]
    constructor
    · rintro ⟨⟩
      exact ⟨rfl, rfl, rfl⟩
    · rintro ⟨hd, hi, hn⟩
      cases a
      simp_all
  case h_2 hnone =>
    constructor
    · nofun
    · rintro ⟨hd, hi, hn⟩
      exact absurd hn (hnone _ _ _ hd hi)

theorem treeOf_named (hd : (de e).dirino = some d) (hi : (de e).ino = some i) (hn : Named de e name) :
    treeOf de e = some ⟨i, d, name⟩ :=
  treeOf_eq_some.2 ⟨hd, hi, hn.getname⟩

theorem treeOf_eq_none (hd : (de e).dirino = none) : treeOf de e = none := by
  rw [Option.eq_none_iff_forall_ne_some]
  intro a ha
  rw [(treeOf_eq_some.1 ha).1] at hd
  cases hd

namespace DirInv

variable (h : DirInv g fs ents)

include h

theorem treeOf_primary (hd : (fs.de e).dirino = some d) :
    ∃ i name, treeOf fs.de e = some ⟨i, d, name⟩ ∧ (fs.de e).ino = some i ∧ (fs.inode i).deno = some e ∧
      Named fs.de e name := by
  obtain ⟨-, -, -, ⟨i, hi, hdeno⟩, name, hname⟩ := h.primary e d hd
  exact ⟨i, name, treeOf_named hd hi hname, hi, hdeno, hname⟩

/-- The name of an entry, if the direntries of its directory have others. -/
theorem name_ne {a : NameTree.Entry Nat Name} (ha : treeOf fs.de e = some a) (had : a.dir = d)
    (hnew : ∀ nm, (fs.de e).dirino = some d → Named fs.de e nm → nm ≠ name) : a.name ≠ name := by
  obtain ⟨he, -, hn⟩ := treeOf_eq_some.1 ha
  obtain ⟨-, -, -, -, nm, hnm⟩ := h.primary e a.dir he
  have heq : a.name = nm := Option.some.inj (hn.symm.trans hnm.getname)
  rw [heq]
  exact hnew nm (he.trans (congrArg some had)) hnm

theorem ne_zero_of_primary (hd : (fs.de e).dirino = some d) : e ≠ 0 := by
  rintro rfl
  rw [h.deRoot.2.2] at hd
  cases hd

theorem ne_zero_of_free (hfree : (fs.de e).used = false) : e ≠ 0 := by
  rintro rfl
  exact absurd (h.deRoot.1.symm.trans hfree) (by decide)

theorem reach (hi : (fs.inode i).deno ≠ none) : Reach 0 (treeOf fs.de) i := by
  obtain ⟨e, he⟩ := Option.ne_none_iff_exists'.1 hi
  obtain ⟨-, -, hino, hdir⟩ := h.linked i e he
  by_cases hi0 : i = 0
  · rw [hi0]
  · obtain ⟨d, hd⟩ := Option.ne_none_iff_exists'.1 (hdir hi0)
    obtain ⟨i', name, htree, hi', -, -⟩ := h.treeOf_primary hd
    obtain rfl : i = i' := Option.some.inj (hino.symm.trans hi')
    exact h.tree.reach_ino htree

/-- No entry is in an inode that is free, a file, unlinked, or a directory with an empty list. -/
theorem noEntry (hi : (fs.inode i).type = .dir → fs.links.head i = 0) (e : Nat) : (fs.de e).dirino ≠ some i := by
  intro he
  have hdir := (h.primary e i he).2.1
  have hnil := (h.lists.head_eq_zero_iff hdir).1 (hi hdir)
  have hmem := (h.mem i e).2 he
  rw [hnil] at hmem
  cases hmem

theorem ents_nodup (d : Nat) : (ents d).Nodup := by
  by_cases hd : (fs.inode d).type = .dir
  · exact (h.lists.ring d hd).nodup_tail
  have hnil : ents d = [] := by
    rw [List.eq_nil_iff_forall_not_mem]
    intro e he
    exact hd (h.primary e d ((h.mem d e).1 he)).2.1
  rw [hnil]
  exact List.nodup_nil

end DirInv

/-! ## Changes of one head direntry -/

theorem Spare.dirino {x : Direntry} (h : Spare e x) : x.dirino = none := by
  rcases h with rfl | ⟨-, -, hd⟩
  · rfl
  · exact hd

theorem ExtFrame.dirino (hf : ExtFrame g e de de') (hy : y ≠ e) : (de' y).dirino = (de y).dirino := by
  rcases hf y hy with heq | ⟨hs, hs', -⟩
  · rw [heq]
  · rw [hs.dirino, hs'.dirino]

theorem ExtFrame.head (hf : ExtFrame g e de de') (hy : y ≠ e) (hd : (de y).dirino ≠ none) : de' y = de y :=
  (hf y hy).resolve_right fun hs => hd hs.1.dirino

/-- Besides its size an inode is as it was. -/
def Inode.Alike (a b : Inode) : Prop := a.used = b.used ∧ a.type = b.type ∧ a.deno = b.deno ∧ a.nlink = b.nlink

namespace DirInv

variable (h : DirInv g fs ents) (hf : ExtFrame g e fs.de fs'.de)

include h hf

/-- What is free or extends no other direntry can be changed without a trace in the tree elsewhere. -/
theorem treeOf_frame (he : NoExt (fs.de e)) (hy : y ≠ e) : treeOf fs'.de y = treeOf fs.de y := by
  cases hd : (fs.de y).dirino with
  | none => rw [treeOf_eq_none hd, treeOf_eq_none ((hf.dirino hy).trans hd)]
  | some d =>
    have heq : fs'.de y = fs.de y := hf.head hy (by simp [hd])
    obtain ⟨-, -, -, -, name, hname⟩ := h.primary y d hd
    unfold treeOf
    rw [heq, hname.getname, (hf.named he hy heq hname).getname]

theorem treeOf_update (he : NoExt (fs.de e)) : treeOf fs'.de = update (treeOf fs.de) e (treeOf fs'.de e) := by
  funext y
  by_cases hye : y = e
  · rw [hye, update_self]
  · rw [update_of_ne hye, h.treeOf_frame hf he hye]

theorem frame_root (he0 : e ≠ 0) : fs'.de 0 = fs.de 0 := by
  refine (hf 0 (Ne.symm he0)).resolve_right ?_
  obtain ⟨hu, hi, -⟩ := h.deRoot
  rintro ⟨hfree | ⟨-, hie, -⟩, -⟩
  · rw [hfree] at hu
    cases hu
  · exact he0 (Option.some.inj (hie.symm.trans hi))

theorem frame_linked (he0 : e ≠ 0) (hi : (fs.inode i).deno = some y) (hy : y ≠ e) : fs'.de y = fs.de y := by
  obtain ⟨-, -, -, hdir⟩ := h.linked i y hi
  by_cases hi0 : i = 0
  · rw [hi0, h.inRoot.2] at hi
    cases hi
    exact h.frame_root hf he0
  · exact hf.head hy (hdir hi0)

/-- The fields of the invariant about direntries alone. -/
theorem de_frame (he0 : e ≠ 0)
    (hself : fs'.de e = .free ∨ ((fs'.de e).used = true ∧ (fs'.de e).ino ≠ none ∧ e ∈ g.denos)) :
    FreeClear fs'.de ∧ (∀ y, (fs'.de y).used = true → y ∈ g.denos ∧ (fs'.de y).ino ≠ none) ∧
      ((fs'.de 0).used = true ∧ (fs'.de 0).ino = some 0 ∧ (fs'.de 0).dirino = none) := by
  refine ⟨fun y hy => ?_, fun y hy => ?_, ?_⟩
  · by_cases hye : y = e
    · subst hye
      exact hself.resolve_right fun hs => absurd (hs.1.symm.trans hy) (by decide)
    · rcases hf y hye with heq | ⟨-, hs | ⟨hu, -⟩, -⟩
      · rw [heq] at hy ⊢
        exact h.deFree y hy
      · exact hs
      · exact absurd (hu.symm.trans hy) (by decide)
  · by_cases hye : y = e
    · subst hye
      rcases hself with hfree | ⟨-, hi, hmem⟩
      · rw [hfree] at hy
        cases hy
      · exact ⟨hmem, hi⟩
    · rcases hf y hye with heq | ⟨-, hs | ⟨-, hi, -⟩, hmem⟩
      · rw [heq] at hy ⊢
        exact h.deUsed y hy
      · rw [hs] at hy
        cases hy
      · exact ⟨hmem hy, by simp [hi]⟩
  · rw [h.frame_root hf he0]
    exact h.deRoot

/-- The other head direntries, where their directories and inodes are as before. -/
theorem primary_frame (he : NoExt (fs.de e))
    (hkeep : ∀ x y, y ≠ e → (fs.de y).dirino = some x ∨ (fs.inode x).deno = some y → (fs'.inode x).Alike (fs.inode x))
    (hy : y ≠ e) (hd : (fs'.de y).dirino = some d) : (fs'.de y).used = true ∧ (fs'.inode d).type = .dir ∧
      (fs'.inode d).deno ≠ none ∧ (∃ i, (fs'.de y).ino = some i ∧ (fs'.inode i).deno = some y) ∧
        ∃ name, Named fs'.de y name := by
  rw [hf.dirino hy] at hd
  have heq : fs'.de y = fs.de y := hf.head hy (by simp [hd])
  obtain ⟨hu, htype, hdeno, ⟨i, hi, hideno⟩, name, hname⟩ := h.primary y d hd
  obtain ⟨-, htype', hdeno', -⟩ := hkeep d y hy (.inl hd)
  obtain ⟨-, -, hino, -⟩ := hkeep i y hy (.inr hideno)
  refine ⟨by rw [heq, hu], htype'.trans htype, by rw [hdeno']; exact hdeno, ⟨i, by rw [heq, hi], hino.trans hideno⟩,
    name, hf.named he hy heq hname⟩

theorem linked_frame (he0 : e ≠ 0) (hx : (fs'.inode x).Alike (fs.inode x)) (hye : (fs.de y).ino = some x → y ≠ e)
    (hy : (fs'.inode x).deno = some y) : (fs'.inode x).nlink = 1 ∧ (fs'.inode x).type ≠ .none ∧ (fs'.de y).ino = some x ∧
      (x ≠ 0 → (fs'.de y).dirino ≠ none) := by
  obtain ⟨-, htype, hdeno, hnlink⟩ := hx
  rw [hdeno] at hy
  obtain ⟨h1, h2, h3, h4⟩ := h.linked x y hy
  rw [h.frame_linked hf he0 hy (hye h3)]
  exact ⟨hnlink.trans h1, by rw [htype]; exact h2, h3, h4⟩

omit hf in
theorem inRoot_frame (h0 : (fs'.inode 0).Alike (fs.inode 0)) : (fs'.inode 0).type = .dir ∧ (fs'.inode 0).deno = some 0 :=
  ⟨h0.2.1.trans h.inRoot.1, h0.2.2.1.trans h.inRoot.2⟩

omit hf in
theorem unlinked_frame (hx : (fs'.inode x).Alike (fs.inode x)) (hdeno : (fs'.inode x).deno = none) :
    (fs'.inode x).nlink = 0 :=
  hx.2.2.2.trans (h.unlinked x (hx.2.2.1 ▸ hdeno))

end DirInv

theorem dirSize_succ (d n : Nat) : dirSize d (n + 1) = dirSize d n + metaobjSize := by
  unfold dirSize
  rw [UInt64.ofNat_add]
  grind

theorem dirSize_pred {d n : Nat} (hn : 0 < n) : dirSize d (n - 1) = dirSize d n + -metaobjSize := by
  obtain ⟨m, rfl⟩ : ∃ m, n = m + 1 := ⟨n - 1, by omega⟩
  rw [Nat.add_sub_cancel, dirSize_succ]
  grind

theorem addSize_self (inode : Nat → Inode) (d : Nat) (delta : UInt64) :
    addSize inode d delta d = { inode d with size := (inode d).size + delta } :=
  update_self ..

theorem addSize_of_ne {x : Nat} {delta : UInt64} (h : x ≠ d) : addSize inode d delta x = inode x :=
  update_of_ne h ..

theorem addSize_keep (inode : Nat → Inode) (d x : Nat) (delta : UInt64) :
    (addSize inode d delta x).Alike (inode x) := by
  by_cases hx : x = d
  · subst hx
    rw [addSize_self]
    exact ⟨rfl, rfl, rfl, rfl⟩
  · rw [addSize_of_ne hx]
    exact ⟨rfl, rfl, rfl, rfl⟩

/-- Every directory has the size of its list. -/
def SizesOk (inode : Nat → Inode) (ents : Nat → List Nat) : Prop :=
  ∀ d, (inode d).type = .dir → (inode d).size = dirSize d (ents d).length

theorem SizesOk.insert (h : SizesOk inode ents) (d e : Nat) :
    SizesOk (addSize inode d metaobjSize) (update ents d (ents d ++ [e])) := by
  intro x hx
  rw [(addSize_keep inode d x metaobjSize).2.1] at hx
  by_cases hxd : x = d
  · subst hxd
    rw [addSize_self, update_self, List.length_append, List.length_singleton, dirSize_succ, h x hx]
  · rw [addSize_of_ne hxd, update_of_ne hxd, h x hx]

theorem SizesOk.delete (h : SizesOk inode ents) (he : e ∈ ents d) :
    SizesOk (addSize inode d (-metaobjSize)) (update ents d ((ents d).erase e)) := by
  intro x hx
  rw [(addSize_keep inode d x (-metaobjSize)).2.1] at hx
  by_cases hxd : x = d
  · subst hxd
    rw [addSize_self, update_self, List.length_erase_of_mem he, dirSize_pred (List.length_pos_of_mem he), h x hx]
  · rw [addSize_of_ne hxd, update_of_ne hxd, h x hx]

/-! ## Adding an entry -/

theorem checkDir_eq_ok {u : Unit} : checkDir fs d = .ok u ↔ (fs.inode d).type = .dir := by
  simp only [checkDir, bind_eq_ok, ensure_eq_ok]
  constructor
  · rintro ⟨-, -, hd⟩
    exact hd
  · intro hd
    exact ⟨(), by simp [hd], hd⟩

theorem metaAllocInode_eq_ok {inode' : Nat → Inode} (h : metaAllocInode g al inode = .ok (inode', i)) :
    i ∈ g.inos ∧ (inode i).used = false ∧ inode' = update inode i { inode i with used := true } := by
  unfold metaAllocInode at h
  split at h
  case h_1 e he =>
    cases h
    obtain ⟨-, he⟩ := Option.filter_eq_some_iff.1 he
    simpa using he
  case h_2 => cases h

/-- The objects of a new entry, and what the direntry of it is. -/
theorem dirAdd_eq_ok {btime : Nat} (h : DirInv g fs ents) (hok : dirAdd g al fs d name isdir btime = .ok fs')
    (hlen : name.length < 256) :
    ∃ e i, (fs.inode d).type = .dir ∧ e ∈ g.denos ∧ (fs.de e).used = false ∧ (fs.inode i).used = false ∧ i ≠ d ∧
      fs'.inode = addSize (update fs.inode i ⟨true, if isdir then .dir else .file, some e, 1, 0, btime⟩) d
        metaobjSize ∧
      fs'.links = metaListInsert fs.links d e ∧ ExtFrame g e fs.de fs'.de ∧ (fs'.de e).used = true ∧
      (fs'.de e).ino = some i ∧ (fs'.de e).dirino = some d ∧ Named fs'.de e name := by
  simp only [dirAdd, bind_eq_ok, checkDir_eq_ok, pure_eq_ok] at hok
  obtain ⟨-, hd, ⟨de₁, e⟩, hde, ⟨inode₁, i⟩, hino, de₂, hinit, inode₂, hphy, rfl⟩ := hok
  obtain ⟨hmem, hfree, rfl⟩ := metaAllocDirentry_eq_ok hde
  obtain ⟨-, hifree, rfl⟩ := metaAllocInode_eq_ok hino
  simp only [inodephyInit, bind_eq_ok, verify_eq_ok, pure_eq_ok] at hphy
  obtain ⟨-, -, rfl⟩ := hphy
  have hid : i ≠ d := by
    rintro rfl
    rw [(h.inFree i hifree).1] at hd
    cases hd
  have he0 := h.ne_zero_of_free hfree
  have hdenos : ∀ y, (update fs.de e { fs.de e with used := true } y).used = true → y ∈ g.denos := by
    intro y hy
    by_cases hye : y = e
    · exact hye ▸ hmem
    · rw [update_of_ne hye] at hy
      exact (h.deUsed y hy).1
  have hclear : FreeClear (update fs.de e { fs.de e with used := true }) := h.deFree.update (by simp)
  have h0 : (update fs.de e { fs.de e with used := true } 0).used = true := by
    rw [update_of_ne (Ne.symm he0)]
    exact h.deRoot.1
  have hspec := direntryInit_spec hinit hclear h0 hdenos (by simp) hlen
  dsimp only at hspec
  rw [update_idem] at hspec
  refine ⟨e, i, hd, hmem, hfree, hifree, hid, ?_, rfl, ?_, hspec.used, ?_, ?_, hspec.named⟩
  · simp only [update_idem, update_self]
  · intro y hye
    have := hspec.frame y hye
    rwa [update_of_ne hye] at this
  · rw [hspec.ino, update_self]
  · rw [hspec.dirino, update_self]

theorem DirInv.dirAdd {btime : Nat} (h : DirInv g fs ents) (hok : dirAdd g al fs d name isdir btime = .ok fs')
    (hlen : name.length < 256) (hdlink : (fs.inode d).deno ≠ none)
    (hnew : ∀ y nm, (fs.de y).dirino = some d → Named fs.de y nm → nm ≠ name) : ∃ ents', DirInv g fs' ents' := by
  obtain ⟨e, i, hd, hmem, hfree, hifree, hid, hinode, hlinks, hf, hu, hi, hdir, hnamed⟩ := dirAdd_eq_ok h hok hlen
  obtain ⟨hitype, hideno, hihead, hitail⟩ := h.inFree i hifree
  have hde : fs.de e = .free := h.deFree e hfree
  have hdirino : (fs.de e).dirino = none := by rw [hde]; rfl
  have he0 := h.ne_zero_of_free hfree
  have hi0 : i ≠ 0 := by
    rintro rfl
    rw [h.inRoot.1] at hitype
    cases hitype
  have hnoext : NoExt (fs.de e) := fun hused => absurd (hused.symm.trans hfree) (by decide)
  have hout : ∀ d', e ∉ ents d' := fun d' hm => by
    rw [h.mem d' e, hdirino] at hm
    cases hm
  have hnoentry : ∀ y, (fs.de y).dirino ≠ some i := h.noEntry fun hdir' => by rw [hitype] at hdir'; cases hdir'
  -- the inodes
  have hself : fs'.inode i = ⟨true, if isdir then .dir else .file, some e, 1, 0, btime⟩ := by
    rw [hinode, addSize_of_ne hid, update_self]
  have hkeep : ∀ x, x ≠ i → (fs'.inode x).Alike (fs.inode x) := by
    intro x hxi
    have hadd := addSize_keep (update fs.inode i ⟨true, if isdir then .dir else .file, some e, 1, 0, btime⟩) d x
      metaobjSize
    rwa [← hinode, update_of_ne hxi] at hadd
  refine ⟨update ents d (ents d ++ [e]), ?_⟩
  obtain ⟨hdeFree, hdeUsed, hdeRoot⟩ := h.de_frame hf he0 (.inr ⟨hu, by simp [hi], hmem⟩)
  obtain ⟨hhead, -, -⟩ := h.lists.insert_frame (e := e) hd
  have htail : ∀ x, x ≠ d → fs'.links.tail x = fs.links.tail x := fun x hx => by
    rw [hlinks, metaListInsert_tail, update_of_ne hx]
  have hdused : (fs.inode d).used = true := by
    by_contra hdu
    rw [(h.inFree d (by simpa using hdu)).1] at hd
    cases hd
  have hlists := h.lists.insert hd he0 hout
  have hients : update ents d (ents d ++ [e]) i = [] := by
    rw [update_of_ne hid, List.eq_nil_iff_forall_not_mem]
    intro y hy
    exact hnoentry y ((h.mem i y).1 hy)
  refine ⟨hdeFree, hdeUsed, hdeRoot, ?inFree, ?inRoot, ?linked, ?unlinked, ?primary, ?lists, ?mem, ?size, ?tree⟩
  case inFree =>
    intro x hx
    have hxi : x ≠ i := by
      rintro rfl
      rw [hself] at hx
      cases hx
    obtain ⟨husedx, htypex, hdenox, -⟩ := hkeep x hxi
    rw [husedx] at hx
    have hxd : x ≠ d := by
      rintro rfl
      exact absurd (hdused.symm.trans hx) (by decide)
    obtain ⟨h1, h2, h3, h4⟩ := h.inFree x hx
    refine ⟨htypex.trans h1, hdenox.trans h2, ?_, (htail x hxd).trans h4⟩
    rw [hlinks, hhead x hxd, h3]
  case inRoot => exact h.inRoot_frame (hkeep 0 (Ne.symm hi0))
  case linked =>
    intro x y hy
    by_cases hxi : x = i
    · subst hxi
      rw [hself] at hy
      cases hy
      refine ⟨by rw [hself], ?_, hi, fun _ => by simp [hdir]⟩
      rw [hself]
      cases isdir <;> simp
    · refine h.linked_frame hf he0 (hkeep x hxi) ?_ hy
      rintro hino rfl
      rw [hde] at hino
      cases hino
  case unlinked =>
    intro x hx
    have hxi : x ≠ i := by
      rintro rfl
      rw [hself] at hx
      cases hx
    exact h.unlinked_frame (hkeep x hxi) hx
  case primary =>
    intro y d' hd'
    by_cases hye : y = e
    · subst hye
      obtain rfl : d = d' := Option.some.inj (hdir.symm.trans hd')
      obtain ⟨-, htyped, hdenod, -⟩ := hkeep d (Ne.symm hid)
      exact ⟨hu, htyped.trans hd, by rw [hdenod]; exact hdlink, ⟨i, hi, by rw [hself]⟩, name, hnamed⟩
    · refine h.primary_frame hf hnoext (fun x z _ hz => hkeep x ?_) hye hd'
      rintro rfl
      rcases hz with hz | hz
      · exact hnoentry z hz
      · rw [hideno] at hz
        cases hz
  case lists =>
    rw [hlinks]
    refine hlists.congr ?_ ?_ (fun _ _ _ => ⟨rfl, rfl⟩) rfl rfl
    · intro x hx hne
      have hxi : x ≠ i := fun heq => hne (heq ▸ hients)
      exact (hkeep x hxi).2.1 ▸ hx
    · intro x hx hnil
      by_cases hxi : x = i
      · rw [hxi, hhead i hid, metaListInsert_tail, update_of_ne hid]
        exact ⟨hihead, hitail⟩
      · have hx' : (fs.inode x).type = .dir := (hkeep x hxi).2.1 ▸ hx
        exact ⟨(hlists.head_eq_zero_iff hx').2 hnil, (hlists.tail_eq_zero_iff hx').2 hnil⟩
  case mem =>
    intro d' y
    rw [mem_update_append]
    by_cases hye : y = e
    · subst hye
      simp [hout d', hdir, eq_comm]
    · rw [h.mem, hf.dirino hye]
      simp [hye]
  case size =>
    have hbase : SizesOk (update fs.inode i ⟨true, if isdir then .dir else .file, some e, 1, 0, btime⟩) ents := by
      intro x hx
      by_cases hxi : x = i
      · rw [update_of_ne hid] at hients
        rw [hxi, update_self, hients]
        simp [dirSize, hi0]
      · rw [update_of_ne hxi] at hx ⊢
        exact h.size x hx
    rw [hinode]
    exact hbase.insert d e
  case tree =>
    rw [h.treeOf_update hf hnoext, treeOf_named hdir hi hnamed]
    refine h.tree.add (treeOf_eq_none hdirino) hi0 ?_ ?_ (h.reach hdlink)
    · intro y a ha hai
      obtain ⟨hy, hyi, -⟩ := treeOf_eq_some.1 ha
      obtain ⟨-, -, -, ⟨i', hi', hdeno'⟩, -⟩ := h.primary y a.dir hy
      obtain rfl : i' = i := (Option.some.inj (hi'.symm.trans hyi)).trans hai
      rw [hideno] at hdeno'
      cases hdeno'
    · exact fun y a ha had => h.name_ne ha had (hnew y)

/-! ## Removing an entry -/

theorem dirDel_eq_ok {nm : Option Name} (h : DirInv g fs ents) (hok : dirDel g al fs d i nm isdir = .ok fs')
    (hpar : ∀ e, (fs.inode i).deno = some e → (fs.de e).dirino = some d) :
    ∃ e, (fs.inode d).type = .dir ∧ ((fs.inode i).type = .dir → fs.links.head i = 0) ∧ (fs.inode i).deno = some e ∧
      fs'.inode = update (addSize fs.inode d (-metaobjSize)) i
        { addSize fs.inode d (-metaobjSize) i with deno := none, nlink := 0 } ∧
      fs'.links = metaListDelete fs.links d e ∧ ExtFrame g e fs.de fs'.de ∧ fs'.de e = .free := by
  simp only [dirDel, bind_eq_ok, checkDir_eq_ok] at hok
  obtain ⟨-, hd, -, -, hrest⟩ := hok
  split at hrest
  case h_1 => cases hrest
  case h_2 e he =>
    simp only [bind_eq_ok, ensure_eq_ok, verify_eq_ok, pure_eq_ok] at hrest
    obtain ⟨-, -, -, hempty, -, -, -, -, de₁, hfini, -, -, rfl⟩ := hrest
    obtain ⟨hu, -, -, -, old, hold⟩ := h.primary e d (hpar e he)
    obtain ⟨hf, hfree⟩ := direntryFini_spec hfini h.deFree h.deRoot.1 (fun y hy => (h.deUsed y hy).1) hu (hpar e he) hold
    exact ⟨e, hd, hempty, he, rfl, rfl, hf, hfree⟩

/-- `pfs_dir_del` of the entry of `i`: besides the inode only its place in the tree goes. -/
structure Deleted (g : Geometry) (fs fs' : Fs) (i e : Nat) : Prop where
  inv : ∃ ents', DirInv g fs' ents'
  deno : (fs.inode i).deno = some e
  keep : ∀ x, x ≠ i → (fs'.inode x).used = (fs.inode x).used ∧ (fs'.inode x).type = (fs.inode x).type ∧
    (fs'.inode x).deno = (fs.inode x).deno ∧ (fs'.inode x).nlink = (fs.inode x).nlink
  noEntry : ∀ y, (fs.de y).dirino ≠ some i
  dirino : ∀ y, y ≠ e → (fs'.de y).dirino = (fs.de y).dirino
  tree : treeOf fs'.de = Function.update (treeOf fs.de) e none

theorem DirInv.dirDel {nm : Option Name} (h : DirInv g fs ents) (hok : dirDel g al fs d i nm isdir = .ok fs')
    (hpar : ∀ e, (fs.inode i).deno = some e → (fs.de e).dirino = some d) : ∃ e, Deleted g fs fs' i e := by
  obtain ⟨e, hd, hempty, hdeno, hinode, hlinks, hf, hfree⟩ := dirDel_eq_ok h hok hpar
  have hdir := hpar e hdeno
  have he0 : e ≠ 0 := h.ne_zero_of_primary hdir
  have hnoext : NoExt (fs.de e) := fun _ => by simp [hdir]
  have hnoentry : ∀ y, (fs.de y).dirino ≠ some i := h.noEntry hempty
  have hmem : e ∈ ents d := (h.mem d e).2 hdir
  have hi0 : i ≠ 0 := by
    rintro rfl
    rw [h.inRoot.2] at hdeno
    cases hdeno
    exact he0 rfl
  have hino : (fs.de e).ino = some i := (h.linked i e hdeno).2.2.1
  have hself : (fs'.inode i).deno = none ∧ (fs'.inode i).nlink = 0 := by
    rw [hinode, update_self]
    exact ⟨rfl, rfl⟩
  have htypes : ∀ x, (fs'.inode x).type = (fs.inode x).type ∧ (fs'.inode x).used = (fs.inode x).used := by
    intro x
    obtain ⟨hu, ht, -⟩ := addSize_keep fs.inode d x (-metaobjSize)
    rw [hinode]
    by_cases hxi : x = i
    · subst hxi
      rw [update_self]
      exact ⟨ht, hu⟩
    · rw [update_of_ne hxi]
      exact ⟨ht, hu⟩
  have hkeep : ∀ x, x ≠ i → (fs'.inode x).Alike (fs.inode x) := by
    intro x hxi
    have hadd := addSize_keep fs.inode d x (-metaobjSize)
    rw [hinode, update_of_ne hxi]
    exact hadd
  have htree : treeOf fs'.de = update (treeOf fs.de) e none := by
    rw [h.treeOf_update hf hnoext, treeOf_eq_none (by rw [hfree]; rfl)]
  refine ⟨e, ⟨update ents d ((ents d).erase e), ?_⟩, hdeno, hkeep, hnoentry, fun y hy => hf.dirino hy, htree⟩
  obtain ⟨hdeFree, hdeUsed, hdeRoot⟩ := h.de_frame hf he0 (.inl hfree)
  have hlists := h.lists.delete hd hmem
  refine ⟨hdeFree, hdeUsed, hdeRoot, ?inFree, ?inRoot, ?linked, ?unlinked, ?primary, ?lists, ?mem, ?size, ?tree⟩
  case inFree =>
    intro x hx
    rw [(htypes x).2] at hx
    obtain ⟨h1, h2, h3, h4⟩ := h.inFree x hx
    have hxi : x ≠ i := by
      rintro rfl
      rw [hdeno] at h2
      cases h2
    have hxd : x ≠ d := by
      rintro rfl
      rw [hd] at h1
      cases h1
    obtain ⟨hhead, htail⟩ := metaListDelete_ends (h.lists.prev_ne hd hmem) hxd
    rw [hlinks]
    exact ⟨(htypes x).1.trans h1, (hkeep x hxi).2.2.1.trans h2, hhead.trans h3, htail.trans h4⟩
  case inRoot => exact h.inRoot_frame (hkeep 0 (Ne.symm hi0))
  case linked =>
    intro x y hy
    have hxi : x ≠ i := by
      rintro rfl
      rw [hself.1] at hy
      cases hy
    refine h.linked_frame hf he0 (hkeep x hxi) ?_ hy
    rintro h3 rfl
    exact hxi (Option.some.inj (h3.symm.trans hino))
  case unlinked =>
    intro x hx
    by_cases hxi : x = i
    · rw [hxi, hself.2]
    · exact h.unlinked_frame (hkeep x hxi) hx
  case primary =>
    intro y d' hd'
    have hye : y ≠ e := by
      rintro rfl
      rw [hfree] at hd'
      cases hd'
    refine h.primary_frame hf hnoext (fun x z hze hz => hkeep x ?_) hye hd'
    rintro rfl
    rcases hz with hz | hz
    · exact hnoentry z hz
    · rw [hdeno] at hz
      exact hze (Option.some.inj hz).symm
  case lists =>
    rw [hlinks]
    simpa only [htypes] using hlists
  case mem =>
    intro d' y
    rw [mem_update_erase (h.ents_nodup d), h.mem]
    by_cases hye : y = e
    · subst hye
      simp [hdir, hfree, Direntry.free, eq_comm]
    · simp [hf.dirino hye, hye]
  case size =>
    intro x hx
    rw [(htypes x).1] at hx
    have hsize := (show SizesOk fs.inode ents from h.size).delete hmem x
      (by rw [(addSize_keep fs.inode d x (-metaobjSize)).2.1, hx])
    rw [← hsize, hinode]
    by_cases hxi : x = i
    · subst hxi
      rw [update_self]
    · rw [update_of_ne hxi]
  case tree =>
    rw [htree]
    obtain ⟨i', name, hte, hi', -, -⟩ := h.treeOf_primary hdir
    obtain rfl : i = i' := Option.some.inj (hino.symm.trans hi')
    refine h.tree.remove hte ?_
    intro y a ha had
    exact hnoentry y ((treeOf_eq_some.1 ha).1.trans (congrArg some had))

/-! ## Moving an entry -/

theorem Named.setDirino (h : Named de e name) (hd : (de e).dirino ≠ none) (x : Option Nat) :
    Named (update de e { de e with dirino := x }) e name := by
  obtain ⟨l, hchain, hnd, hlen, hname⟩ := h
  have hl : ∀ y ∈ l, update de e { de e with dirino := x } y = de y := by
    intro y hy
    refine update_of_ne ?_ ..
    rintro rfl
    exact hd (hchain.mem y hy).2.2.2
  refine ⟨l, ?_, hnd, hlen, ?_⟩
  · rw [update_self]
    exact hchain.congr hl
  · rw [chainName_congr hl, update_self]
    exact hname

theorem dirMove_eq_ok {od nd : Nat} (h : DirInv g fs ents) (hok : dirMove g al fs od e nd name = .ok fs')
    (hdir : (fs.de e).dirino = some od) (hlen : name.length < 256) :
    (fs.inode od).type = .dir ∧ (fs.inode nd).type = .dir ∧
      fs'.inode = addSize (addSize fs.inode od (-metaobjSize)) nd metaobjSize ∧
      fs'.links = metaListInsert (metaListDelete fs.links od e) nd e ∧ ExtFrame g e fs.de fs'.de ∧
      (fs'.de e).used = true ∧ (fs'.de e).ino = (fs.de e).ino ∧ (fs'.de e).dirino = some nd ∧ Named fs'.de e name := by
  simp only [dirMove, bind_eq_ok, verify_eq_ok, ensure_eq_ok, pure_eq_ok] at hok
  obtain ⟨-, ⟨hod, hnd⟩, -, -, de₁, hset, rfl⟩ := hok
  obtain ⟨hu, -, -, -, old, hold⟩ := h.primary e od hdir
  have hspec := direntrySetname_spec hset h.deFree h.deRoot.1 (fun y hy => (h.deUsed y hy).1) hu hdir hold hlen
  refine ⟨hod, hnd, rfl, rfl, ?_, ?_, ?_, ?_, ?_⟩
  · intro y hye
    simp only [update_of_ne hye]
    exact hspec.frame y hye
  · simp only [update_self, hspec.used]
  · simp only [update_self, hspec.ino]
  · simp only [update_self]
  · exact hspec.named.setDirino (by rw [hspec.dirino, hdir]; simp) _

theorem DirInv.dirMove {od nd : Nat} (h : DirInv g fs ents) (hok : dirMove g al fs od e nd name = .ok fs')
    (hdir : (fs.de e).dirino = some od) (hlen : name.length < 256) (hnd : (fs.inode nd).deno ≠ none)
    (hnot : ∀ i, (fs.de e).ino = some i → ¬ Below (treeOf fs.de) i nd)
    (hnew : ∀ y nm, y ≠ e → (fs.de y).dirino = some nd → Named fs.de y nm → nm ≠ name) :
    ∃ ents', DirInv g fs' ents' := by
  obtain ⟨hodtype, hndtype, hinode, hlinks, hf, hu, hino, hdir', hnamed⟩ := dirMove_eq_ok h hok hdir hlen
  have he0 : e ≠ 0 := h.ne_zero_of_primary hdir
  have hnoext : NoExt (fs.de e) := fun _ => by simp [hdir]
  have hmem : e ∈ ents od := (h.mem od e).2 hdir
  obtain ⟨i, old, hte, hi, hdeno, -⟩ := h.treeOf_primary hdir
  have hkeep : ∀ x, (fs'.inode x).Alike (fs.inode x) := by
    intro x
    obtain ⟨h1, h2, h3, h4⟩ := addSize_keep fs.inode od x (-metaobjSize)
    obtain ⟨k1, k2, k3, k4⟩ := addSize_keep (addSize fs.inode od (-metaobjSize)) nd x metaobjSize
    rw [hinode]
    exact ⟨k1.trans h1, k2.trans h2, k3.trans h3, k4.trans h4⟩
  have hout : ∀ d', e ∉ update ents od ((ents od).erase e) d' := by
    intro d' hm
    obtain ⟨hm, hne⟩ := (mem_update_erase (h.ents_nodup od)).1 hm
    exact hne ⟨h.lists.disjoint hm hmem, rfl⟩
  have hdel := h.lists.delete hodtype hmem
  have hlists := hdel.insert hndtype he0 hout
  obtain ⟨hhead, -, -⟩ := hdel.insert_frame (e := e) hndtype
  obtain ⟨hdeFree, hdeUsed, hdeRoot⟩ := h.de_frame hf he0 (.inr ⟨hu, by simp [hino, hi], (h.deUsed e (h.primary e od hdir).1).1⟩)
  have hdirs : (fun d => (fs'.inode d).type = .dir) = fun d => (fs.inode d).type = .dir := by
    funext d
    rw [(hkeep d).2.1]
  rw [← hlinks, ← hdirs] at hlists
  refine ⟨_, hdeFree, hdeUsed, hdeRoot, ?inFree, ?inRoot, ?linked, ?unlinked, ?primary, hlists, ?mem, ?size, ?tree⟩
  case inFree =>
    intro x hx
    rw [(hkeep x).1] at hx
    obtain ⟨h1, h2, h3, h4⟩ := h.inFree x hx
    have hxdir : ∀ {d'}, (fs.inode d').type = .dir → x ≠ d' := by
      rintro d' hd' rfl
      rw [h1] at hd'
      cases hd'
    obtain ⟨hhead', htail'⟩ := metaListDelete_ends (h.lists.prev_ne hodtype hmem) (hxdir hodtype)
    refine ⟨(hkeep x).2.1.trans h1, (hkeep x).2.2.1.trans h2, ?_, ?_⟩
    · rw [hlinks, hhead x (hxdir hndtype), hhead', h3]
    · rw [hlinks, metaListInsert_tail, update_of_ne (hxdir hndtype), htail', h4]
  case inRoot => exact h.inRoot_frame (hkeep 0)
  case linked =>
    intro x y hy
    by_cases hye : y = e
    · subst hye
      obtain ⟨-, htypex, hdenox, hnlinkx⟩ := hkeep x
      obtain ⟨h1, h2, h3, -⟩ := h.linked x y (hdenox ▸ hy)
      exact ⟨hnlinkx.trans h1, by rw [htypex]; exact h2, hino.trans h3, fun _ => by simp [hdir']⟩
    · exact h.linked_frame hf he0 (hkeep x) (fun _ => hye) hy
  case unlinked => exact fun x hx => h.unlinked_frame (hkeep x) hx
  case primary =>
    intro y d' hd'
    by_cases hye : y = e
    · subst hye
      obtain rfl : nd = d' := Option.some.inj (hdir'.symm.trans hd')
      exact ⟨hu, (hkeep nd).2.1.trans hndtype, by rw [(hkeep nd).2.2.1]; exact hnd,
        ⟨i, hino.trans hi, (hkeep i).2.2.1.trans hdeno⟩, name, hnamed⟩
    · exact h.primary_frame hf hnoext (fun x _ _ _ => hkeep x) hye hd'
  case mem =>
    intro d' y
    rw [mem_update_append, mem_update_erase (h.ents_nodup od), h.mem]
    by_cases hye : y = e
    · subst hye
      rw [hdir, hdir']
      simp only [Option.some.injEq, and_true]
      constructor
      · rintro (⟨heq, hne⟩ | heq)
        · exact absurd heq.symm hne
        · exact heq.symm
      · intro heq
        exact .inr heq.symm
    · simp [hf.dirino hye, hye]
  case size =>
    have hsizes := ((show SizesOk fs.inode ents from h.size).delete hmem).insert nd e
    rw [hinode]
    exact hsizes
  case tree =>
    rw [h.treeOf_update hf hnoext, treeOf_named hdir' (hino.trans hi) hnamed]
    refine h.tree.move hte (h.reach hnd) (hnot i hi) ?_
    exact fun y a hye ha had => h.name_ne ha had fun nm => hnew y nm hye

end

end PolarFs.Dir
