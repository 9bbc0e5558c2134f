/-
What the edits of a directory change of the entries, as triples of name, inode and whether it is a
directory, and of the sizes: a creation adds one triple to one directory, a removal takes out that of one
inode, a rename takes out those of two and adds one. Everything else stays.
-/
import PolarFs.Dir.DirTree

namespace PolarFs.Dir

open PolarFs.Meta (InodeType)
open Function (update update_self update_of_ne)

/-- The directory `d` holds `name` as a link to the inode `i`. -/
def HasEntry (fs : Fs) (d : Nat) (name : Name) (i : Nat) (isdir : Bool) : Prop :=
  (∃ e, treeOf fs.de e = some ⟨i, d, name⟩) ∧ isdir = decide ((fs.inode i).type = .dir)

variable {g : Geometry} {fs fs' : Fs} {ents : Nat → List Nat} {al : Alloc} {d e i : Nat} {name : Name}

variable (h : DirInv g fs ents)

include h

theorem DirInv.linked_of_tree (ht : treeOf fs.de e = some ⟨i, d, name⟩) : (fs.inode i).deno = some e := by
  obtain ⟨hd, hi, -⟩ := treeOf_eq_some.1 ht
  obtain ⟨-, -, -, ⟨i', hi', hdeno⟩, -⟩ := h.primary e d hd
  obtain rfl : i' = i := Option.some.inj (hi'.symm.trans hi)
  exact hdeno

theorem DirInv.tree_inj {e' d' : Nat} {name' : Name} (ht : treeOf fs.de e = some ⟨i, d, name⟩)
    (ht' : treeOf fs.de e' = some ⟨i, d', name'⟩) : e = e' ∧ d = d' ∧ name = name' := by
  obtain rfl : e = e' := Option.some.inj ((h.linked_of_tree ht).symm.trans (h.linked_of_tree ht'))
  cases ht.symm.trans ht'
  exact ⟨rfl, rfl, rfl⟩

theorem DirInv.holds_ino {d' : Nat} {name' : Name} {b b' : Bool} (hh : HasEntry fs d name i b)
    (hh' : HasEntry fs d' name' i b') : d = d' ∧ name = name' ∧ b = b' := by
  obtain ⟨⟨e, ht⟩, hb⟩ := hh
  obtain ⟨⟨e', ht'⟩, hb'⟩ := hh'
  obtain ⟨-, hd, hn⟩ := h.tree_inj ht ht'
  exact ⟨hd, hn, hb.trans hb'.symm⟩

/-- The entries of a list and the triples of its directory. -/
theorem DirInv.holds_of_mem (he : e ∈ ents d) :
    ∃ i name, (fs.de e).ino = some i ∧ direntryGetname fs.de e = some name ∧ treeOf fs.de e = some ⟨i, d, name⟩ := by
  obtain ⟨i, name, ht, hi, -, hn⟩ := h.treeOf_primary ((h.mem d e).1 he)
  exact ⟨i, name, hi, hn.getname, ht⟩

/-! ## Creation -/

/-- `pfs_dir_add` of the inode `i` in the entry `e`. -/
structure Added (fs fs' : Fs) (d : Nat) (name : Name) (isdir : Bool) (e i : Nat) : Prop where
  dir : (fs.inode d).type = .dir
  free : treeOf fs.de e = none
  new : (fs.inode i).type = .none ∧ (fs.inode i).deno = none
  tree : treeOf fs'.de = update (treeOf fs.de) e (some ⟨i, d, name⟩)
  self : (fs'.inode i).type = if isdir then .dir else .file
  type : ∀ x, x ≠ i → (fs'.inode x).type = (fs.inode x).type
  size : ∀ x, x ≠ i → (fs'.inode x).size = if x = d then (fs.inode x).size + metaobjSize else (fs.inode x).size

omit h in
theorem addSize_size (inode : Nat → Inode) (d x : Nat) (delta : UInt64) :
    (addSize inode d delta x).size = if x = d then (inode x).size + delta else (inode x).size := by
  by_cases hx : x = d
  · subst hx
    rw [addSize_self, if_pos rfl]
  · rw [addSize_of_ne hx, if_neg hx]

theorem DirInv.dirAdd_added {isdir : Bool} {btime : Nat} (hok : Dir.dirAdd g al fs d name isdir btime = .ok fs')
    (hlen : name.length < 256) :
    ∃ e i inode, metaAllocInode g al fs.inode = .ok (inode, i) ∧ Added fs fs' d name isdir e i := by
  obtain ⟨e, i, hd, -, hfree, hifree, hid, hinode, -, hf, -, hi, hdir, hnamed⟩ := dirAdd_eq_ok h hok hlen
  have hfreed : fs.de e = .free := h.deFree e hfree
  have hnoext : NoExt (fs.de e) := fun hused => absurd (hused.symm.trans hfree) (by decide)
  have htype : ∀ x, (fs'.inode x).type = (update fs.inode i
      ⟨true, if isdir then .dir else .file, some e, 1, 0, btime⟩ x).type := by
    intro x
    rw [hinode]
    exact (addSize_keep _ d x metaobjSize).2.1
  -- the inode that was allocated is the one the new entry leads to
  obtain ⟨inode, i', hal, hi'⟩ : ∃ inode i', metaAllocInode g al fs.inode = .ok (inode, i') ∧ (fs'.de e).ino = some i' := by
    simp only [Dir.dirAdd, bind_eq_ok, checkDir_eq_ok, pure_eq_ok] at hok
    obtain ⟨-, -, ⟨de₁, e'⟩, hde, ⟨inode₁, i'⟩, hino, de₂, hinit, inode₂, hphy, rfl⟩ := hok
    refine ⟨inode₁, i', hino, ?_⟩
    simp only [inodephyInit, bind_eq_ok, verify_eq_ok, pure_eq_ok] at hphy
    obtain ⟨-, -, rfl⟩ := hphy
    obtain ⟨-, hifree', rfl⟩ := metaAllocInode_eq_ok hino
    have hdeno : ((addSize (update fs.inode i ⟨true, if isdir then .dir else .file, some e, 1, 0, btime⟩) d
        metaobjSize) i).deno = some e := by
      rw [addSize_of_ne hid, update_self]
    have heq := congrFun hinode i
    dsimp only at heq hi
    by_cases hii : i = i'
    · rw [← hii]
      exact hi
    · rw [addSize_of_ne hid, update_of_ne hii, update_of_ne hii, addSize_of_ne hid,
        update_self] at heq
      rw [heq] at hifree
      cases hifree
  obtain rfl : i = i' := Option.some.inj (hi.symm.trans hi')
  refine ⟨e, i, inode, hal, hd, treeOf_eq_none (by rw [hfreed]; rfl), ⟨(h.inFree i hifree).1, (h.inFree i hifree).2.1⟩,
    ?tree, ?self, ?type, ?size⟩
  case tree => rw [h.treeOf_update hf hnoext, treeOf_named hdir hi hnamed]
  case self => rw [htype, update_self]
  case type =>
    intro x hx
    rw [htype, update_of_ne hx]
  case size =>
    intro x hx
    rw [hinode, addSize_size, update_of_ne hx]

theorem Added.holds {isdir : Bool} (ha : Added fs fs' d name isdir e i) {d' x : Nat} {nm : Name} {b : Bool} :
    HasEntry fs' d' nm x b ↔ HasEntry fs d' nm x b ∨ (d' = d ∧ nm = name ∧ x = i ∧ b = isdir) := by
  have hold : ∀ y d'' nm', treeOf fs.de y ≠ some ⟨i, d'', nm'⟩ := by
    intro y d'' nm' ht
    have := h.linked_of_tree ht
    rw [ha.new.2] at this
    cases this
  have hself : ∀ b, b = decide ((fs'.inode i).type = .dir) ↔ b = isdir := by
    intro b
    rw [ha.self]
    cases isdir <;> simp
  constructor
  · rintro ⟨⟨y, ht⟩, hb⟩
    rw [ha.tree] at ht
    by_cases hye : y = e
    · rw [hye, update_self] at ht
      cases ht
      exact .inr ⟨rfl, rfl, rfl, (hself b).1 hb⟩
    · rw [update_of_ne hye] at ht
      have hxi : x ≠ i := by
        rintro rfl
        exact hold y d' nm ht
      rw [ha.type x hxi] at hb
      exact .inl ⟨⟨y, ht⟩, hb⟩
  · rintro (⟨⟨y, ht⟩, hb⟩ | ⟨rfl, rfl, rfl, rfl⟩)
    · have hxi : x ≠ i := by
        rintro rfl
        exact hold y d' nm ht
      refine ⟨⟨y, ?_⟩, by rw [ha.type x hxi]; exact hb⟩
      rw [ha.tree, update_of_ne, ht]
      rintro rfl
      rw [ha.free] at ht
      cases ht
    · exact ⟨⟨e, by rw [ha.tree, update_self]⟩, (hself b).2 rfl⟩

/-! ## Removal -/

/-- `pfs_dir_del` of the inode `i` with the entry `e` of `d`. -/
structure Removed (fs fs' : Fs) (d i e : Nat) : Prop where
  dir : (fs.inode d).type = .dir
  deno : (fs.inode i).deno = some e
  ne : i ≠ d
  tree : treeOf fs'.de = update (treeOf fs.de) e none
  type : ∀ x, (fs'.inode x).type = (fs.inode x).type
  size : ∀ x, (fs'.inode x).size = if x = d then (fs.inode x).size + -metaobjSize else (fs.inode x).size

theorem DirInv.dirDel_removed {nm : Option Name} {isdir : Bool} (hok : Dir.dirDel g al fs d i nm isdir = .ok fs')
    (hpar : ∀ e, (fs.inode i).deno = some e → (fs.de e).dirino = some d) :
    ∃ e, Removed fs fs' d i e ∧ ∃ ents', DirInv g fs' ents' := by
  obtain ⟨e, hd, -, hdeno, hinode, -, -, -⟩ := dirDel_eq_ok h hok hpar
  obtain ⟨e', hdel⟩ := h.dirDel hok hpar
  obtain rfl : e = e' := Option.some.inj (hdeno.symm.trans hdel.deno)
  have hid : i ≠ d := by
    rintro rfl
    exact hdel.noEntry e (hpar e hdeno)
  refine ⟨e, ⟨hd, hdeno, hid, hdel.tree, fun x => ?_, fun x => ?_⟩, hdel.inv⟩
  · rw [hinode]
    by_cases hxi : x = i
    · subst hxi
      rw [update_self]
      exact (addSize_keep fs.inode d x _).2.1
    · rw [update_of_ne hxi]
      exact (addSize_keep fs.inode d x _).2.1
  · rw [hinode]
    by_cases hxi : x = i
    · subst hxi
      rw [update_self]
      exact addSize_size fs.inode d x _
    · rw [update_of_ne hxi]
      exact addSize_size fs.inode d x _

theorem Removed.holds (hr : Removed fs fs' d i e) {d' x : Nat} {nm : Name} {b : Bool} :
    HasEntry fs' d' nm x b ↔ HasEntry fs d' nm x b ∧ x ≠ i := by
  unfold HasEntry
  rw [hr.type, hr.tree]
  constructor
  · rintro ⟨⟨y, ht⟩, hb⟩
    obtain ⟨hye, ht⟩ := NameTree.IsTree.update_none_eq_some.1 ht
    refine ⟨⟨⟨y, ht⟩, hb⟩, ?_⟩
    rintro rfl
    exact hye (Option.some.inj ((h.linked_of_tree ht).symm.trans hr.deno))
  · rintro ⟨⟨⟨y, ht⟩, hb⟩, hxi⟩
    refine ⟨⟨y, NameTree.IsTree.update_none_eq_some.2 ⟨?_, ht⟩⟩, hb⟩
    rintro rfl
    have hi := (h.linked i y hr.deno).2.2.1
    rw [(treeOf_eq_some.1 ht).2.1] at hi
    exact hxi (Option.some.inj hi)

/-! ## Move -/

/-- `pfs_dir_move` of the entry `e` of the inode `o` from `od` to `nd`. -/
structure Moved (fs fs' : Fs) (od o nd : Nat) (name : Name) (e : Nat) : Prop where
  dirs : (fs.inode od).type = .dir ∧ (fs.inode nd).type = .dir
  deno : (fs.inode o).deno = some e
  tree : treeOf fs'.de = update (treeOf fs.de) e (some ⟨o, nd, name⟩)
  type : ∀ x, (fs'.inode x).type = (fs.inode x).type
  inode : ∀ x, (fs'.inode x).size = (addSize (addSize fs.inode od (-metaobjSize)) nd metaobjSize x).size

theorem DirInv.dirMove_moved {od o nd : Nat} (hok : Dir.dirMove g al fs od e nd name = .ok fs')
    (ho : (fs.inode o).deno = some e) (hdir : (fs.de e).dirino = some od) (hlen : name.length < 256) :
    Moved fs fs' od o nd name e := by
  obtain ⟨hodtype, hndtype, hinode, -, hf, -, hino, hdir', hnamed⟩ := dirMove_eq_ok h hok hdir hlen
  have hnoext : NoExt (fs.de e) := fun _ => by simp [hdir]
  have hi : (fs.de e).ino = some o := (h.linked o e ho).2.2.1
  refine ⟨⟨hodtype, hndtype⟩, ho, ?_, fun x => ?_, fun x => by rw [hinode]⟩
  · rw [h.treeOf_update hf hnoext, treeOf_named hdir' (hino.trans hi) hnamed]
  · rw [hinode]
    exact (addSize_keep _ nd x _).2.1.trans (addSize_keep fs.inode od x _).2.1

theorem Moved.holds {od o nd : Nat} (hm : Moved fs fs' od o nd name e) {d' x : Nat} {nm : Name} {b : Bool} :
    HasEntry fs' d' nm x b ↔
      (HasEntry fs d' nm x b ∧ x ≠ o) ∨ (d' = nd ∧ nm = name ∧ x = o ∧ b = decide ((fs.inode o).type = .dir)) := by
  unfold HasEntry
  rw [hm.type, hm.tree]
  constructor
  · rintro ⟨⟨y, ht⟩, hb⟩
    by_cases hye : y = e
    · rw [hye, update_self] at ht
      cases ht
      exact .inr ⟨rfl, rfl, rfl, hb⟩
    · rw [update_of_ne hye] at ht
      refine .inl ⟨⟨⟨y, ht⟩, hb⟩, ?_⟩
      rintro rfl
      exact hye (Option.some.inj ((h.linked_of_tree ht).symm.trans hm.deno))
  · rintro (⟨⟨⟨y, ht⟩, hb⟩, hxo⟩ | ⟨rfl, rfl, rfl, rfl⟩)
    · refine ⟨⟨y, ?_⟩, hb⟩
      rw [update_of_ne, ht]
      rintro rfl
      have hi := (h.linked o y hm.deno).2.2.1
      rw [(treeOf_eq_some.1 ht).2.1] at hi
      exact hxo (Option.some.inj hi)
    · exact ⟨⟨e, update_self ..⟩, rfl⟩

end PolarFs.Dir
