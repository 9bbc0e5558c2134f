/-
The directory tree over whole runs: from the image of `mkfs`, after any sequence of committed or rolled
back creations, removals, renames and releases, the linked inodes form a tree with unique names whose
entry lists, sizes and back references are consistent. The size of the root is the exception: `mkfs` does
not count the two files it puts there.
-/
import PolarFs.Dir.DirInvariant

namespace PolarFs.Dir

open PolarFs.Meta (InodeType)
open Function (update update_self update_of_ne)
open NameTree (IsTree Reach Below)

variable {g : Geometry} {fs fs' : Fs} {ents : Nat → List Nat} {al : Alloc} {d o nd i : Nat} {name : Name} {stk : Instack}
  {e : Nat}

/-! ## What an operation has checked -/

section

variable (h : DirInv g fs ents) {isdir : Bool}

include h

theorem DirInv.length_le (d : Nat) : (ents d).length ≤ g.denos.card := by
  rw [← List.toFinset_card_of_nodup (h.ents_nodup d)]
  refine Finset.card_le_card fun e he => ?_
  rw [List.mem_toFinset, h.mem] at he
  exact (h.deUsed e (h.primary e d he).1).1

theorem DirInv.entries_eq (hd : (fs.inode d).type = .dir) : fs.entries g d = ents d := by
  have hlen := h.length_le d
  exact (h.lists.ring d hd).walk_eq (by omega)

theorem DirInv.not_found (hd : (fs.inode d).type = .dir) (hfind : inodeDirFind g fs d name = none) {y : Nat} {nm : Name}
    (hy : (fs.de y).dirino = some d) (hnm : Named fs.de y nm) : nm ≠ name := by
  rintro rfl
  rw [inodeDirFind, h.entries_eq hd, List.find?_eq_none] at hfind
  exact hfind y ((h.mem d y).2 hy) (by simpa using hnm.getname)

omit h in
/-- A valid stack: its top is linked and of the type asked for, and the entry under it is its directory. -/
theorem pathCheck_eq_ok {type : InodeType} {u : Unit} (h : pathCheck fs stk type = .ok u) :
    ∃ e, (fs.inode stk.top.ino).deno = some e ∧ (type = .none ∨ (fs.inode stk.top.ino).type = type) ∧
      (e = 0 ∨ direntryGetname fs.de e = some stk.top.name) ∧ (fs.de e).dirino = stk.rest.head?.map StkEnt.ino := by
  rw [pathCheck, ensure_eq_ok, instkIsvalid, Bool.and_eq_true, Bool.and_eq_true] at h
  obtain ⟨⟨-, htop⟩, hrest⟩ := h
  cases hdeno : (fs.inode stk.top.ino).deno with
  | none => simp [stkentIsvalid, hdeno] at htop
  | some e =>
    simp only [stkentIsvalid, hdeno, Bool.and_eq_true, Bool.or_eq_true, beq_iff_eq] at htop
    obtain ⟨⟨⟨-, htype⟩, -⟩, hname⟩ := htop
    refine ⟨e, rfl, htype, hname, ?_⟩
    rw [hdeno, Option.bind_some] at hrest
    cases hstk : stk.rest with
    | nil =>
      rw [hstk, instkIsvalid, Option.isNone_iff_eq_none] at hrest
      simpa using hrest
    | cons se rest =>
      rw [hstk, instkIsvalid, Bool.and_eq_true, Bool.and_eq_true, beq_iff_eq] at hrest
      simpa using hrest.1.1

/-- The entry of a target other than the root is in the directory below it on the stack. -/
theorem DirInv.parent {type : InodeType} {u : Unit} (hok : pathCheck fs stk type = .ok u) (h0 : stk.top.ino ≠ 0)
    (he : (fs.inode stk.top.ino).deno = some e) :
    (fs.de e).dirino = some stk.parent.ino ∧ direntryGetname fs.de e = some stk.top.name := by
  obtain ⟨e', he', -, hname, hdir⟩ := pathCheck_eq_ok hok
  obtain rfl : e = e' := Option.some.inj (he.symm.trans he')
  have hprim := (h.linked _ e he).2.2.2 h0
  obtain ⟨d, hd⟩ := Option.ne_none_iff_exists'.1 hprim
  refine ⟨?_, hname.resolve_left (h.ne_zero_of_primary hd)⟩
  rw [hdir] at hprim ⊢
  unfold Instack.parent
  cases hrest : stk.rest with
  | nil =>
    rw [hrest] at hprim
    exact absurd rfl hprim
  | cons se rest => rfl

/-! ## Renaming -/

omit h in
/-- A climb that ends elsewhere than at `o` has not come by it. -/
theorem DirInv.climb (h : DirInv g fs ents) (ho : o ≠ 0) : ∀ {fuel d d' : Nat}, climb fs o fuel d = .ok d' → d' ≠ o →
    ¬ Below (treeOf fs.de) o d
  | 0, d, d', hok, _ => by cases hok
  | fuel + 1, d, d', hok, hne => by
    rw [Dir.climb] at hok
    split at hok
    case isTrue hd =>
      rw [bind_eq_ok] at hok
      obtain ⟨p, hinfo, hrest⟩ := hok
      rw [dirInfo, if_neg (by omega)] at hinfo
      simp only [bind_eq_ok, ensure_eq_ok] at hinfo
      obtain ⟨-, -, hinfo⟩ := hinfo
      split at hinfo
      case h_1 => cases hinfo
      case h_2 e he =>
        simp only [bind_eq_ok, verify_eq_ok] at hinfo
        obtain ⟨-, hino, hinfo⟩ := hinfo
        split at hinfo
        case h_1 => cases hinfo
        case h_2 p' hp =>
          cases hinfo
          intro hbelow
          obtain ⟨d'', nm, htree, hd'', -, -⟩ := h.treeOf_primary hp
          obtain rfl : d = d'' := Option.some.inj (hino.symm.trans hd'')
          rcases h.tree.below_cases hbelow htree rfl with heq | hup
          · exact hd.2 heq
          · exact h.climb ho hrest hne hup
    case isFalse hd =>
      cases hok
      have h0 : d = 0 := by omega
      rw [h0]
      exact h.tree.not_below_root ho

theorem DirInv.checkSubdir (ho : o ≠ 0) (hnd : (fs.inode nd).type = .dir) {u : Unit}
    (hok : checkSubdir g fs o nd = .ok u) : ¬ Below (treeOf fs.de) o nd := by
  rw [Dir.checkSubdir] at hok
  split at hok
  case isTrue =>
    simp only [bind_eq_ok, ensure_eq_ok] at hok
    obtain ⟨d, hclimb, -, hne, -⟩ := hok
    exact h.climb ho hclimb hne
  case isFalse hfile =>
    -- a file has nothing below it
    intro hbelow
    rcases Relation.ReflTransGen.cases_head hbelow with heq | ⟨c, ⟨y, a, ha, hdir, -⟩, -⟩
    · exact hfile (heq ▸ hnd)
    · have hy := (treeOf_eq_some.1 ha).1
      rw [hdir] at hy
      exact hfile (h.primary y o hy).2.1

/-- The state after the removal of the target, as `pfs_dir_move` finds it. -/
structure Cleared (g : Geometry) (fs fs₁ : Fs) (o e nd : Nat) (name : Name) : Prop where
  inv : ∃ ents', DirInv g fs₁ ents'
  deno : (fs₁.inode o).deno = some e
  dirino : (fs₁.de e).dirino = (fs.de e).dirino
  ino : (fs₁.de e).ino = some o
  dir : (fs₁.inode nd).deno ≠ none
  below : ¬ Below (treeOf fs₁.de) o nd
  fresh : ∀ y nm, (fs₁.de y).dirino = some nd → Named fs₁.de y nm → nm ≠ name

omit h in
theorem dirReplace_some {fs₁ : Fs} {n : Nat} (hok : dirReplace g al fs nd (some n) = .ok fs₁) :
    ∃ isdir, dirDel g al fs nd n none isdir = .ok fs₁ := by
  rw [dirReplace, bind_eq_ok] at hok
  obtain ⟨-, -, hok⟩ := hok
  split at hok
  · exact ⟨_, hok⟩
  · exact ⟨_, hok⟩
  · cases hok

theorem DirInv.dirReplace {n : Option Nat} {fs₁ : Fs} (hok : dirReplace g al fs nd n = .ok fs₁)
    (he : (fs.inode o).deno = some e) (hno : n ≠ some o) (hnd : (fs.inode nd).deno ≠ none)
    (hbelow : ¬ Below (treeOf fs.de) o nd) (hold : ∀ i, n = some i → ∀ e', (fs.inode i).deno = some e' →
      (fs.de e').dirino = some nd ∧ direntryGetname fs.de e' = some name)
    (hnew : n = none → ∀ y nm, (fs.de y).dirino = some nd → Named fs.de y nm → nm ≠ name) :
    Cleared g fs fs₁ o e nd name := by
  have hino : (fs.de e).ino = some o := (h.linked o e he).2.2.1
  cases n with
  | none =>
    cases hok
    exact ⟨⟨ents, h⟩, he, rfl, hino, hnd, hbelow, hnew rfl⟩
  | some n =>
    obtain ⟨isdir, hdel⟩ := dirReplace_some hok
    obtain ⟨e', hdeleted⟩ := h.dirDel hdel fun e' he' => (hold n rfl e' he').1
    obtain ⟨ents₁, hinv⟩ := hdeleted.inv
    have hon : o ≠ n := fun heq => hno (heq ▸ rfl)
    have hndn : nd ≠ n := by
      rintro rfl
      exact hdeleted.noEntry e' (hold nd rfl e' hdeleted.deno).1
    have hdeno : (fs₁.inode o).deno = some e := (hdeleted.keep o hon).2.2.1.trans he
    have hee' : e ≠ e' := by
      rintro rfl
      exact hon (Option.some.inj (hino.symm.trans (h.linked n e hdeleted.deno).2.2.1))
    refine ⟨⟨ents₁, hinv⟩, hdeno, hdeleted.dirino e hee', (hinv.linked o e hdeno).2.2.1, ?_, ?_, ?_⟩
    · rw [(hdeleted.keep nd hndn).2.2.1]
      exact hnd
    · rw [hdeleted.tree]
      exact fun hb => hbelow (NameTree.IsTree.below_of_update_none hb)
    · -- the only entry of that name was that of the target
      rintro y nm hy hnm rfl
      obtain ⟨i, nm', htree, -, -, hnm'⟩ := hinv.treeOf_primary hy
      obtain rfl : nm = nm' := Option.some.inj (hnm.getname.symm.trans hnm'.getname)
      rw [hdeleted.tree, NameTree.IsTree.update_none_eq_some] at htree
      obtain ⟨hye', htree⟩ := htree
      obtain ⟨hdir', hname'⟩ := hold n rfl e' hdeleted.deno
      obtain ⟨i', nm'', htree', -, -, hnm''⟩ := h.treeOf_primary hdir'
      obtain rfl : nm = nm'' := Option.some.inj (hname'.symm.trans hnm''.getname)
      exact hye' (h.tree.nameInj htree htree' rfl rfl)

/-- A call of `pfs_dir_rename` for the entry `e` of an inode of `od`; the target, if there is one, has the new
name. -/
structure Renames (g : Geometry) (al : Alloc) (fs fs' : Fs) (od o nd : Nat) (n : Option Nat) (name : Name) (e : Nat) :
    Prop where
  run : dirRename g al fs od o nd n name = .ok fs'
  deno : (fs.inode o).deno = some e
  dirino : (fs.de e).dirino = some od
  ne : n ≠ some o
  len : name.length < 256
  dir : (fs.inode nd).deno ≠ none
  old : ∀ i, n = some i → ∀ e', (fs.inode i).deno = some e' →
    (fs.de e').dirino = some nd ∧ direntryGetname fs.de e' = some name
  new : n = none → ∀ y nm, (fs.de y).dirino = some nd → Named fs.de y nm → nm ≠ name

theorem Renames.cleared {n : Option Nat} {od : Nat} (hr : Renames g al fs fs' od o nd n name e) :
    ∃ fs₁, dirReplace g al fs nd n = .ok fs₁ ∧ Cleared g fs fs₁ o e nd name ∧ dirMove g al fs₁ od e nd name = .ok fs' := by
  have hok := hr.run
  simp only [Dir.dirRename, bind_eq_ok, checkDir_eq_ok, verify_eq_ok] at hok
  obtain ⟨-, -, -, hndtype, u, hsub, fs₁, hreplace, -, ⟨ho, -⟩, hmove⟩ := hok
  have hbelow := h.checkSubdir (by omega) hndtype hsub
  have hcleared := h.dirReplace hreplace hr.deno hr.ne hr.dir hbelow hr.old hr.new
  rw [hcleared.deno] at hmove
  exact ⟨fs₁, hreplace, hcleared, hmove⟩

theorem DirInv.renames {n : Option Nat} {od : Nat} (hr : Renames g al fs fs' od o nd n name e) :
    ∃ ents', DirInv g fs' ents' := by
  obtain ⟨fs₁, -, hcleared, hmove⟩ := hr.cleared h
  obtain ⟨ents₁, hinv⟩ := hcleared.inv
  refine hinv.dirMove hmove (hcleared.dirino.trans hr.dirino) hr.len hcleared.dir ?_ fun y nm _ => hcleared.fresh y nm
  intro i hi
  obtain rfl : o = i := Option.some.inj (hcleared.ino.symm.trans hi)
  exact hcleared.below

/-! ## The operations keep the invariant -/

omit h in
theorem Geometry.maxnamelen_le (g : Geometry) : g.maxnamelen ≤ 256 := by
  unfold Geometry.maxnamelen
  split <;> omega

theorem DirInv.memdirCreate {btime : Nat} (hok : memdirCreate g al fs stk name isdir btime = .ok fs') :
    ∃ ents', DirInv g fs' ents' := by
  simp only [Dir.memdirCreate, bind_eq_ok, ensure_eq_ok] at hok
  obtain ⟨-, hlen, u, hpath, -, hfind, hadd⟩ := hok
  obtain ⟨e, he, htype, -, -⟩ := pathCheck_eq_ok hpath
  have hdir : (fs.inode stk.top.ino).type = .dir := htype.resolve_left (by decide)
  have hmax := g.maxnamelen_le
  exact h.dirAdd hadd (by omega) (by simp [he]) fun y nm hy hnm => h.not_found hdir hfind hy hnm

theorem DirInv.memdirXremove (hok : memdirXremove g al fs stk isdir = .ok fs') : ∃ ents', DirInv g fs' ents' := by
  simp only [Dir.memdirXremove, bind_eq_ok, ensure_eq_ok] at hok
  obtain ⟨u, hpath, -, h0, hdel⟩ := hok
  obtain ⟨e, hdeleted⟩ := h.dirDel hdel fun e he => (h.parent hpath h0 he).1
  exact hdeleted.inv

/-- `pfs_memdir_xrename` does nothing, if the two paths lead to one inode, or moves the inode of the old path. -/
theorem DirInv.memdirXrename_cases {ostk nstk : Instack} {newname : Option Name}
    (hok : memdirXrename g al fs isdir ostk nstk newname = .ok fs') :
    fs' = fs ∨ ∃ n name e, Renames g al fs fs' ostk.parent.ino ostk.top.ino
        (if newname.isSome then nstk.top.ino else nstk.parent.ino) n name e ∧
      ∀ i, n = some i → newname = none ∧ i = nstk.top.ino := by
  have hmax := g.maxnamelen_le
  simp only [Dir.memdirXrename, bind_eq_ok] at hok
  obtain ⟨u, hopath, hok⟩ := hok
  obtain ⟨e, he, -⟩ := pathCheck_eq_ok hopath
  cases newname with
  | none =>
    simp only [Dir.inodeDirRename, bind_eq_ok, ensure_eq_ok] at hok
    obtain ⟨-, hlen, u', hnpath, -, ⟨ho, hn⟩, hok⟩ := hok
    obtain ⟨e', he', -⟩ := pathCheck_eq_ok hnpath
    have hn0 : nstk.top.ino ≠ 0 := fun h0 => hn (congrArg some h0)
    split at hok
    case isTrue =>
      cases hok
      exact .inl rfl
    case isFalse hno =>
      refine .inr ⟨_, _, e, ⟨hok, he, (h.parent hopath ho he).1, hno, by omega, ?_, ?_, nofun⟩, ?_⟩
      · exact (h.primary e' _ (h.parent hnpath hn0 he').1).2.2.1
      · intro i hi e₁ he₁
        obtain rfl := Option.some.inj hi
        exact h.parent hnpath hn0 he₁
      · exact fun i hi => ⟨rfl, (Option.some.inj hi).symm⟩
  | some name =>
    simp only [Dir.inodeDirRename, bind_eq_ok, ensure_eq_ok] at hok
    obtain ⟨-, hlen, u', hnpath, -, hfind, -, ⟨ho, -⟩, hok⟩ := hok
    rw [if_neg nofun] at hok
    obtain ⟨e', he', htype, -, -⟩ := pathCheck_eq_ok hnpath
    have hdir : (fs.inode nstk.top.ino).type = .dir := htype.resolve_left (by decide)
    refine .inr ⟨_, _, e, ⟨hok, he, (h.parent hopath ho he).1, nofun, by omega, by simp [he'], nofun, ?_⟩, nofun⟩
    exact fun _ y nm hy hnm => h.not_found hdir hfind hy hnm

theorem DirInv.memdirXrename {ostk nstk : Instack} {newname : Option Name}
    (hok : memdirXrename g al fs isdir ostk nstk newname = .ok fs') : ∃ ents', DirInv g fs' ents' := by
  rcases h.memdirXrename_cases hok with rfl | ⟨n, name, e, hr, -⟩
  · exact ⟨ents, h⟩
  · exact h.renames hr

/-- A change of inodes and list ends that leaves directories and linked inodes alone. -/
theorem DirInv.inodes {inode : Nat → Inode} {lk : Links}
    (hlinked : ∀ x, (fs.inode x).deno ≠ none → (inode x).type = (fs.inode x).type ∧ (inode x).deno = (fs.inode x).deno ∧
      (inode x).nlink = (fs.inode x).nlink)
    (hunlinked : ∀ x, (fs.inode x).deno = none → (inode x).deno = none ∧ (inode x).nlink = 0)
    (hdir : ∀ x, (inode x).type = .dir → inode x = fs.inode x ∧ lk.head x = fs.links.head x ∧ lk.tail x = fs.links.tail x)
    (hfree : ∀ x, (inode x).used = false → (inode x).type = .none ∧ (inode x).deno = none ∧ lk.head x = 0 ∧ lk.tail x = 0)
    (hnext : lk.next = fs.links.next) (hprev : lk.prev = fs.links.prev) : DirInv g ⟨inode, fs.de, lk⟩ ents := by
  have hdeno : ∀ x, (inode x).deno = (fs.inode x).deno := by
    intro x
    by_cases hx : (fs.inode x).deno = none
    · rw [hx, (hunlinked x hx).1]
    · exact (hlinked x hx).2.1
  have hroot := hlinked 0 (by simp [h.inRoot.2])
  refine ⟨h.deFree, h.deUsed, h.deRoot, hfree, ⟨hroot.1.trans h.inRoot.1, hroot.2.1.trans h.inRoot.2⟩, ?_, ?_, ?_, ?_, h.mem,
    ?_, h.tree⟩
  · intro x y hy
    dsimp only at hy ⊢
    rw [hdeno] at hy
    obtain ⟨h1, h2, h3, h4⟩ := h.linked x y hy
    obtain ⟨k1, -, k3⟩ := hlinked x (by simp [hy])
    exact ⟨k3.trans h1, by rw [k1]; exact h2, h3, h4⟩
  · intro x hx
    dsimp only at hx ⊢
    rw [hdeno] at hx
    exact (hunlinked x hx).2
  · intro y d' hd'
    obtain ⟨h1, h2, h3, ⟨i, h4, h5⟩, h6⟩ := h.primary y d' hd'
    dsimp only
    refine ⟨h1, (hlinked d' h3).1.trans h2, by rw [hdeno]; exact h3, ⟨i, h4, (hdeno i).trans h5⟩, h6⟩
  · refine h.lists.congr ?_ ?_ ?_ hnext hprev
    · intro x hx _
      dsimp only at hx
      rw [← (hdir x hx).1, hx]
    · intro x hx hnil
      dsimp only at hx
      obtain ⟨heq, hhead, htail⟩ := hdir x hx
      have hx' : (fs.inode x).type = .dir := heq ▸ hx
      exact ⟨hhead.trans ((h.lists.head_eq_zero_iff hx').2 hnil), htail.trans ((h.lists.tail_eq_zero_iff hx').2 hnil)⟩
    · intro x hx _
      exact (hdir x hx).2
  · intro x hx
    have heq : inode x = fs.inode x := (hdir x hx).1
    dsimp only at hx ⊢
    rw [heq] at hx ⊢
    exact h.size x hx

theorem DirInv.inodephyRelease {btime : Nat} (hok : inodephyRelease fs i btime = .ok fs') : DirInv g fs' ents := by
  simp only [Dir.inodephyRelease, bind_eq_ok, ensure_eq_ok, verify_eq_ok, pure_eq_ok] at hok
  obtain ⟨-, htype, -, -, -, hnlink, -, hempty, rfl⟩ := hok
  have hdeno : (fs.inode i).deno = none := by
    by_contra hlink
    obtain ⟨e, he⟩ := Option.ne_none_iff_exists'.1 hlink
    rw [(h.linked i e he).1] at hnlink
    cases hnlink
  generalize hlk : (if (fs.inode i).type = .file then
      { fs.links with head := update fs.links.head i 0, tail := update fs.links.tail i 0 }
    else fs.links) = lk
  have hends : ∀ x, x ≠ i → lk.head x = fs.links.head x ∧ lk.tail x = fs.links.tail x := by
    intro x hx
    rw [← hlk]
    split <;> simp [hx]
  have hzero : lk.head i = 0 ∧ lk.tail i = 0 := by
    rw [← hlk]
    split
    case isTrue => simp
    case isFalse hfile =>
      -- an unlinked directory has no entries
      have hdir : (fs.inode i).type = .dir := by
        cases ht : (fs.inode i).type with
        | none => exact absurd ht htype
        | file => exact absurd ht hfile
        | dir => rfl
      have hnil := (h.lists.head_eq_zero_iff hdir).1 (hempty.resolve_left hfile)
      exact ⟨(h.lists.head_eq_zero_iff hdir).2 hnil, (h.lists.tail_eq_zero_iff hdir).2 hnil⟩
  refine h.inodes ?_ ?_ ?_ ?_ (by rw [← hlk]; split <;> rfl) (by rw [← hlk]; split <;> rfl)
  · intro x hx
    have hxi : x ≠ i := fun heq => hx (heq ▸ hdeno)
    rw [update_of_ne hxi]
    exact ⟨rfl, rfl, rfl⟩
  · intro x hx
    by_cases hxi : x = i
    · subst hxi
      simp
    · rw [update_of_ne hxi]
      exact ⟨hx, h.unlinked x hx⟩
  · intro x hx
    have hxi : x ≠ i := by
      rintro rfl
      rw [update_self] at hx
      cases hx
    rw [update_of_ne hxi]
    exact ⟨rfl, hends x hxi⟩
  · intro x hx
    by_cases hxi : x = i
    · subst hxi
      rw [update_self]
      exact ⟨rfl, rfl, hzero⟩
    · rw [update_of_ne hxi] at hx ⊢
      obtain ⟨h1, h2, h3, h4⟩ := h.inFree x hx
      exact ⟨h1, h2, (hends x hxi).1.trans h3, (hends x hxi).2.trans h4⟩

theorem DirInv.fileModify {head tail : Nat} {size : UInt64} (hok : fileModify fs i head tail size = .ok fs') :
    DirInv g fs' ents := by
  simp only [Dir.fileModify, bind_eq_ok, ensure_eq_ok, pure_eq_ok] at hok
  obtain ⟨-, hfile, rfl⟩ := hok
  have hkeep : ∀ x, (update fs.inode i { fs.inode i with size := size } x).type = (fs.inode x).type ∧
      (update fs.inode i { fs.inode i with size := size } x).deno = (fs.inode x).deno ∧
      (update fs.inode i { fs.inode i with size := size } x).nlink = (fs.inode x).nlink ∧
      (update fs.inode i { fs.inode i with size := size } x).used = (fs.inode x).used := by
    intro x
    by_cases hx : x = i
    · subst hx
      rw [update_self]
      exact ⟨rfl, rfl, rfl, rfl⟩
    · rw [update_of_ne hx]
      exact ⟨rfl, rfl, rfl, rfl⟩
  have hne : ∀ x, (fs.inode x).type ≠ .file → x ≠ i := fun x hx heq => hx (heq ▸ hfile)
  refine h.inodes ?_ ?_ ?_ ?_ rfl rfl
  · intro x _
    exact ⟨(hkeep x).1, (hkeep x).2.1, (hkeep x).2.2.1⟩
  · intro x hx
    exact ⟨(hkeep x).2.1.trans hx, (hkeep x).2.2.1.trans (h.unlinked x hx)⟩
  · intro x hx
    rw [(hkeep x).1] at hx
    have hxi : x ≠ i := hne x (by simp [hx])
    simp [hxi]
  · intro x hx
    rw [(hkeep x).2.2.2] at hx
    obtain ⟨h1, h2, h3, h4⟩ := h.inFree x hx
    have hxi : x ≠ i := hne x (by simp [h1])
    exact ⟨(hkeep x).1.trans h1, (hkeep x).2.1.trans h2, by simp [hxi, h3], by simp [hxi, h4]⟩

theorem DirInv.exec {op : Op} (hok : exec g fs op = .ok fs') : ∃ ents', DirInv g fs' ents' := by
  cases op with
  | create al stk name isdir btime => exact h.memdirCreate hok
  | remove al stk isdir => exact h.memdirXremove hok
  | rename al isdir ostk nstk newname => exact h.memdirXrename hok
  | release ino btime => exact ⟨ents, h.inodephyRelease hok⟩
  | file ino head tail size => exact ⟨ents, h.fileModify hok⟩

end

/-! ## The image of mkfs -/

/-- The entries of the image: the two files in the root. -/
def mkfsEnts (d : Nat) : List Nat := if d = 0 then [1, 2] else []

theorem mkfs_dirino (now e d : Nat) : ((mkfs now).de e).dirino = some d ↔ d = 0 ∧ (e = 1 ∨ e = 2) := by
  unfold mkfs
  dsimp only
  split_ifs with h0 h1 h2
  · simp [h0]
  · simp [h1, eq_comm]
  · simp [h2, eq_comm]
  · simp [Direntry.free, h1, h2]

theorem mkfs_type (now i : Nat) : ((mkfs now).inode i).type = .dir ↔ i = 0 := by
  unfold mkfs
  dsimp only
  split_ifs with h0 h1
  · simp [h0]
  · simp [h0]
  · simp [h0]

theorem mkfs_named (now : Nat) (he : e = 1 ∨ e = 2) : Named (mkfs now).de e ((mkfs now).de e).name := by
  refine ⟨[], ?_, List.nodup_nil, by simp, by simp [chainName]⟩
  rcases he with rfl | rfl <;> rfl

theorem mkfs_treeOf {now : Nat} {a : NameTree.Entry Nat Name} (h : treeOf (mkfs now).de e = some a) :
    (e = 1 ∨ e = 2) ∧ a = ⟨e, 0, ((mkfs now).de e).name⟩ := by
  obtain ⟨hd, hi, hn⟩ := treeOf_eq_some.1 h
  obtain ⟨h0, he⟩ := (mkfs_dirino now e a.dir).1 hd
  rw [(mkfs_named now he).getname] at hn
  refine ⟨he, ?_⟩
  obtain ⟨ino, dir, name⟩ := a
  have hino : ino = e := by
    rcases he with rfl | rfl <;> exact (Option.some.inj hi).symm
  have hname : name = ((mkfs now).de e).name := (Option.some.inj hn).symm
  rw [hino, hname, show dir = 0 from h0]

theorem dirInv_mkfs (g : Geometry) (now : Nat) : DirInv g (mkfs now) mkfsEnts := by
  refine ⟨?deFree, ?deUsed, ⟨rfl, rfl, rfl⟩, ?inFree, ⟨rfl, rfl⟩, ?linked, ?unlinked, ?primary, ?lists, ?mem, ?size, ?tree⟩
  case deFree =>
    intro e he
    unfold mkfs at he ⊢
    dsimp only at he ⊢
    split_ifs at he ⊢ with h0 h1 h2
    rfl
  case deUsed =>
    intro e he
    unfold mkfs at he ⊢
    dsimp only at he ⊢
    split_ifs at he ⊢ with h0 h1 h2
    · exact ⟨(g.reserved e (by omega)).2, by simp⟩
    · exact ⟨(g.reserved e (by omega)).2, by simp⟩
    · exact ⟨(g.reserved e (by omega)).2, by simp⟩
    · cases he
  case inFree =>
    intro i hi
    unfold mkfs at hi ⊢
    dsimp only at hi ⊢
    split_ifs at hi ⊢ with h0 h1
    simp
  case linked =>
    intro i e he
    unfold mkfs at he ⊢
    dsimp only at he ⊢
    split_ifs at he with h0 h1
    · cases he
      simp [h0]
    · cases he
      rcases h1 with rfl | rfl <;> simp
  case unlinked =>
    intro i hi
    unfold mkfs at hi ⊢
    dsimp only at hi ⊢
    split_ifs at hi ⊢ with h0 h1
    rfl
  case primary =>
    intro e d hd
    obtain ⟨rfl, he⟩ := (mkfs_dirino now e d).1 hd
    refine ⟨?_, rfl, by simp [mkfs], ⟨e, ?_, ?_⟩, _, mkfs_named now he⟩
    · rcases he with rfl | rfl <;> rfl
    · rcases he with rfl | rfl <;> rfl
    · rcases he with rfl | rfl <;> rfl
  case lists =>
    refine ⟨fun d hd => ?_, fun {d d' e} h₁ h₂ => ?_, fun e he => ?_, fun d hd => ?_⟩
    · obtain rfl := (mkfs_type now d).1 hd
      refine ⟨?_, by decide⟩
      simp [mkfsEnts, LinkedRing.Linked, mkfs, Links.fwd, Links.bwd]
    · unfold mkfsEnts at h₁ h₂
      split_ifs at h₁ h₂ with hd hd'
      · rw [hd, hd']
      all_goals simp at h₁ h₂
    · have h12 : e ∉ [1, 2] := by simpa [mkfsEnts] using he 0
      simp only [List.mem_cons, List.not_mem_nil, or_false, not_or] at h12
      simp [mkfs, h12.1, h12.2]
    · unfold mkfsEnts at hd
      split_ifs at hd <;> simp at hd
  case mem =>
    intro d e
    rw [mkfs_dirino]
    unfold mkfsEnts
    split_ifs with hd <;> simp [hd]
  case size =>
    intro d hd
    obtain rfl := (mkfs_type now d).1 hd
    rfl
  case tree =>
    refine ⟨?_, ?_, ?_, ?_⟩
    · intro e e' a b ha hb hino
      obtain ⟨-, rfl⟩ := mkfs_treeOf ha
      obtain ⟨-, rfl⟩ := mkfs_treeOf hb
      exact hino
    · intro e a ha
      obtain ⟨he, rfl⟩ := mkfs_treeOf ha
      rcases he with rfl | rfl <;> simp
    · intro e e' a b ha hb _ hname
      obtain ⟨he, rfl⟩ := mkfs_treeOf ha
      obtain ⟨he', rfl⟩ := mkfs_treeOf hb
      rcases he with rfl | rfl <;> rcases he' with rfl | rfl
      · rfl
      · exact absurd hname (by simp [mkfs])
      · exact absurd hname (by simp [mkfs])
      · rfl
    · intro e a ha
      obtain ⟨-, rfl⟩ := mkfs_treeOf ha
      exact .refl

theorem dirInv_reachable (g : Geometry) {fs : Fs} (h : (dirSystem g).Reachable fs) : ∃ ents, DirInv g fs ents := by
  refine h.invariant (P := fun fs => ∃ ents, DirInv g fs ents) ?_ ?_
  · rintro _ ⟨now, rfl⟩
    exact ⟨mkfsEnts, dirInv_mkfs g now⟩
  · rintro fs ⟨op, commit⟩ fs' - ⟨ents, hinv⟩ hstep
    simp only [dirSystem] at hstep
    split at hstep
    case h_1 fs₁ hok =>
      cases hstep
      exact hinv.exec hok
    case h_2 =>
      cases hstep
      exact ⟨ents, hinv⟩

/-! ## The tree -/

/-- `l` are the direntries on the way from the root to `i`, each in the list of the directory before it. -/
inductive Path (g : Geometry) (fs : Fs) : Nat → List Nat → Prop where
  | root : Path g fs 0 []
  | step {d e i : Nat} {l : List Nat} : Path g fs d l → (fs.inode d).type = .dir → e ∈ fs.entries g d →
      (fs.de e).ino = some i → Path g fs i (l ++ [e])

/-- `i` has an entry in the list of `d`. -/
def Holds (g : Geometry) (fs : Fs) (d i : Nat) : Prop :=
  (fs.inode d).type = .dir ∧ ∃ e ∈ fs.entries g d, (fs.de e).ino = some i

/-- What holds of the directories of a device. -/
structure DirTree (g : Geometry) (fs : Fs) : Prop where
  path : ∀ i, (fs.inode i).used = true → (fs.inode i).nlink = 1 → ∃! l, Path g fs i l
  acyclic : ∀ i, ¬ Relation.TransGen (Holds g fs) i i
  deno : ∀ i, (fs.inode i).used = true → (fs.inode i).nlink = 1 →
    ∃ e, (fs.inode i).deno = some e ∧ (fs.de e).used = true ∧ (fs.de e).ino = some i
  ino : ∀ e, (fs.de e).used = true → (fs.de e).isExt = false →
    ∃ i, (fs.de e).ino = some i ∧ (fs.inode i).deno = some e ∧ (fs.inode i).used = true ∧ (fs.inode i).nlink = 1
  listed : ∀ e, (fs.de e).used = true → (fs.de e).isExt = false → ∃ d, (fs.de e).dirino = some d ∧
    (fs.inode d).type = .dir ∧ ∀ d', (fs.inode d').type = .dir → (e ∈ fs.entries g d' ↔ d' = d)
  primary : ∀ d, (fs.inode d).type = .dir → ∀ e ∈ fs.entries g d, (fs.de e).used = true ∧ (fs.de e).isExt = false
  links : ∀ d, (fs.inode d).type = .dir → LinkedRing.Ring (fs.links.fwd d) (fs.links.bwd d) 0 (fs.entries g d)
  size : ∀ d, d ≠ 0 → (fs.inode d).type = .dir → (fs.inode d).size.toNat = 128 * (fs.entries g d).length
  rootSize : (fs.inode 0).size = 128 * UInt64.ofNat (fs.entries g 0).length - 256
  named : ∀ d, (fs.inode d).type = .dir → ∀ e ∈ fs.entries g d, (direntryGetname fs.de e).isSome = true
  unique : ∀ d, (fs.inode d).type = .dir → ∀ e ∈ fs.entries g d, ∀ e' ∈ fs.entries g d,
    direntryGetname fs.de e = direntryGetname fs.de e' → e = e'

namespace DirInv

variable (h : DirInv g fs ents)

include h

theorem treeOf_mem (hd : (fs.inode d).type = .dir) (he : e ∈ fs.entries g d) (hi : (fs.de e).ino = some i) :
    ∃ name, treeOf fs.de e = some ⟨i, d, name⟩ := by
  rw [h.entries_eq hd, h.mem] at he
  obtain ⟨i', name, htree, hi', -⟩ := h.treeOf_primary he
  obtain rfl : i = i' := Option.some.inj (hi.symm.trans hi')
  exact ⟨name, htree⟩

theorem mem_of_treeOf {a : NameTree.Entry Nat Name} (ha : treeOf fs.de e = some a) :
    (fs.inode a.dir).type = .dir ∧ e ∈ fs.entries g a.dir ∧ (fs.de e).ino = some a.ino := by
  obtain ⟨hd, hi, -⟩ := treeOf_eq_some.1 ha
  have hdir := (h.primary e a.dir hd).2.1
  refine ⟨hdir, ?_, hi⟩
  rw [h.entries_eq hdir, h.mem]
  exact hd

theorem path_iff {l : List Nat} : Path g fs i l ↔ NameTree.Path 0 (treeOf fs.de) i l := by
  constructor
  · intro hp
    induction hp with
    | root => exact .root
    | step _ hd he hi ih =>
      obtain ⟨name, htree⟩ := h.treeOf_mem hd he hi
      exact NameTree.Path.step (a := ⟨_, _, name⟩) ih htree
  · intro hp
    induction hp with
    | root => exact .root
    | step _ he ih =>
      obtain ⟨hd, hmem, hi⟩ := h.mem_of_treeOf he
      exact .step ih hd hmem hi

theorem parent_of_holds (hh : Holds g fs d i) : NameTree.Parent (treeOf fs.de) d i := by
  obtain ⟨hd, e, he, hi⟩ := hh
  obtain ⟨name, htree⟩ := h.treeOf_mem hd he hi
  exact ⟨e, _, htree, rfl, rfl⟩

theorem linked_of_nlink (hn : (fs.inode i).nlink = 1) : ∃ e, (fs.inode i).deno = some e := by
  refine Option.ne_none_iff_exists'.1 fun hnone => ?_
  rw [h.unlinked i hnone] at hn
  cases hn

theorem used_of_type (ht : (fs.inode i).type ≠ .none) : (fs.inode i).used = true := by
  by_contra hu
  exact ht (h.inFree i (by simpa using hu)).1

theorem primary_of_not_ext (hu : (fs.de e).used = true) (hext : (fs.de e).isExt = false) :
    ∃ d, (fs.de e).dirino = some d := by
  refine Option.ne_none_iff_exists'.1 fun hnone => ?_
  have hino := (h.deUsed e hu).2
  rw [Direntry.isExt, hnone, Option.isNone_none, Bool.and_true, Option.isSome_eq_false_iff, Option.isNone_iff_eq_none] at hext
  exact hino hext

theorem size_toNat (hd0 : d ≠ 0) (hd : (fs.inode d).type = .dir) : (fs.inode d).size.toNat = 128 * (ents d).length := by
  have hlen := h.length_le d
  have hfits := g.fits
  rw [h.size d hd, dirSize, if_neg hd0, UInt64.sub_zero, UInt64.toNat_mul, UInt64.toNat_ofNat', metaobjSize]
  rw [Nat.mod_eq_of_lt (show (ents d).length < 2 ^ 64 by omega)]
  exact Nat.mod_eq_of_lt (by show 128 * (ents d).length < 2 ^ 64; omega)

theorem dirTree : DirTree g fs := by
  refine ⟨?path, ?acyclic, ?deno, ?ino, ?listed, ?primary, ?links, ?size, ?rootSize, ?named, ?unique⟩
  case path =>
    intro i _ hn
    obtain ⟨e, he⟩ := h.linked_of_nlink hn
    obtain ⟨l, hl⟩ := NameTree.exists_path (h.reach (i := i) (by simp [he]))
    refine ⟨l, h.path_iff.2 hl, fun m hm => ?_⟩
    exact h.tree.path_unique (h.path_iff.1 hm) hl
  case acyclic =>
    intro i hcyc
    exact h.tree.acyclic i (Relation.TransGen.mono (fun _ _ hh => h.parent_of_holds hh) i i hcyc)
  case deno =>
    intro i _ hn
    obtain ⟨e, he⟩ := h.linked_of_nlink hn
    have hino := (h.linked i e he).2.2.1
    refine ⟨e, he, ?_, hino⟩
    by_contra hu
    rw [h.deFree e (by simpa using hu)] at hino
    cases hino
  case ino =>
    intro e hu hext
    obtain ⟨d, hd⟩ := h.primary_of_not_ext hu hext
    obtain ⟨-, -, -, ⟨i, hi, hdeno⟩, -⟩ := h.primary e d hd
    obtain ⟨hn, ht, -⟩ := h.linked i e hdeno
    exact ⟨i, hi, hdeno, h.used_of_type ht, hn⟩
  case listed =>
    intro e hu hext
    obtain ⟨d, hd⟩ := h.primary_of_not_ext hu hext
    refine ⟨d, hd, (h.primary e d hd).2.1, fun d' hd' => ?_⟩
    rw [h.entries_eq hd', h.mem, hd, Option.some.injEq, eq_comm]
  case primary =>
    intro d hd e he
    rw [h.entries_eq hd, h.mem] at he
    exact ⟨(h.primary e d he).1, by simp [Direntry.isExt, he]⟩
  case links =>
    intro d hd
    rw [h.entries_eq hd]
    exact h.lists.ring d hd
  case size =>
    intro d hd0 hd
    rw [h.entries_eq hd, h.size_toNat hd0 hd]
  case rootSize =>
    rw [h.entries_eq h.inRoot.1, h.size 0 h.inRoot.1]
    rfl
  case named =>
    intro d hd e he
    rw [h.entries_eq hd, h.mem] at he
    obtain ⟨-, -, -, -, name, hname⟩ := h.primary e d he
    rw [hname.getname]
    rfl
  case unique =>
    intro d hd e he e' he' hname
    rw [h.entries_eq hd, h.mem] at he he'
    obtain ⟨i, nm, htree, -, -, hnm⟩ := h.treeOf_primary he
    obtain ⟨i', nm', htree', -, -, hnm'⟩ := h.treeOf_primary he'
    rw [hnm.getname, hnm'.getname] at hname
    exact h.tree.nameInj htree htree' rfl (Option.some.inj hname)

end DirInv

/-- In every state of every run the directories form a tree with consistent lists. -/
theorem dir_tree_reachable (g : Geometry) {fs : Fs} (h : (dirSystem g).Reachable fs) : DirTree g fs := by
  obtain ⟨ents, hinv⟩ := dirInv_reachable g h
  exact hinv.dirTree

/-- A device with eight inodes and eight direntries. -/
def smallGeometry : Geometry where
  inos := Finset.range 8
  denos := Finset.range 8
  extname := true
  reserved := by decide
  fits := by decide

/-- The lowest free number from 3 on. -/
def firstFree : Alloc where
  deno de := [3, 4, 5, 6, 7].find? fun e => !(de e).used
  ino inode := [3, 4, 5, 6, 7].find? fun i => !(inode i).used

def rootStk : Instack := ⟨⟨0, 9, []⟩, []⟩

/-- A directory `a` with a file `f`, and a directory `b` that `a` is moved into as `c`. -/
def moveRun : List (Op × Bool) :=
  [(.create firstFree rootStk [97] true 5, true),
   (.create firstFree ⟨⟨3, 5, [97]⟩, [rootStk.top]⟩ [102] false 6, true),
   (.create firstFree rootStk [98] true 7, true),
   (.rename firstFree true ⟨⟨3, 5, [97]⟩, [rootStk.top]⟩ ⟨⟨5, 7, [98]⟩, [rootStk.top]⟩ (some [99]), true),
   (.rename firstFree true ⟨⟨5, 7, [98]⟩, [rootStk.top]⟩
     ⟨⟨3, 5, [99]⟩, [⟨5, 7, [98]⟩, rootStk.top]⟩ (some [100]), true)]

theorem dir_tree_reachable_moved :
    ∃ fs, (dirSystem smallGeometry).Reachable fs ∧ fs.entries smallGeometry 0 = [1, 2, 5] ∧
      fs.entries smallGeometry 5 = [3] ∧ fs.entries smallGeometry 3 = [4] ∧ DirTree smallGeometry fs := by
  have hs := (dirSystem smallGeometry).reachable_last (mkfs 9) moveRun ⟨9, rfl⟩ (by decide +kernel)
  exact ⟨_, hs, by decide +kernel, by decide +kernel, by decide +kernel, dir_tree_reachable smallGeometry hs⟩

/-- The size of the root does not count its entries: on a new device it is 0 with two entries. -/
theorem not_root_size : ¬ ∀ g fs, (dirSystem g).Reachable fs → ∀ d, (fs.inode d).type = .dir →
    (fs.inode d).size.toNat = 128 * (fs.entries g d).length := by
  intro h
  have hroot := h smallGeometry (mkfs 0) (.init ⟨0, rfl⟩) 0 rfl
  exact absurd hroot (by decide)

end PolarFs.Dir
