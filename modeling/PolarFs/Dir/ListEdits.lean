/-
What the operations do to the entry list of one directory, in its order: some entries are taken out, the
others stay as they are and where they are, and a new entry comes in at the end. An entry that is renamed
within its directory goes to the end too, with another name.
-/
import PolarFs.Dir.DirEdits

namespace PolarFs.Dir

open LinkedRing (Ring)
open PolarFs.Meta (InodeType)
open Function (update update_self update_of_ne)

/-- `struct dirent`. -/
structure Dirent where
  ino : Nat
  type : InodeType
  name : Name
  deriving DecidableEq, Repr

/-- `d_ino`, `d_type` and `d_name` of a direntry. There are none if `de_ino` is no inode or the name does not fit:
both are asserted. -/
def Fs.dirent (fs : Fs) (e : Nat) : Option Dirent := do
  let ino ← (fs.de e).ino
  let name ← direntryGetname fs.de e
  return ⟨ino, (fs.inode ino).type, name⟩

/-- The entries of a directory. -/
def Fs.listing (g : Geometry) (fs : Fs) (d : Nat) : List Dirent :=
  if (fs.inode d).type = .dir then (fs.entries g d).filterMap fs.dirent else []

/-- The operation takes the entry `e` out of its directory. -/
def Op.takes (fs : Fs) (e : Nat) : Op → Prop
  | .remove _ stk _ => (fs.inode stk.top.ino).deno = some e
  | .rename _ _ ostk nstk newname =>
    (fs.inode ostk.top.ino).deno = some e ∨ (newname = none ∧ (fs.inode nstk.top.ino).deno = some e)
  | .create .. | .release .. | .file .. => False

instance (fs : Fs) (e : Nat) : ∀ op : Op, Decidable (op.takes fs e)
  | .remove _ _ _ => inferInstanceAs (Decidable (_ = _))
  | .rename _ _ _ _ _ => inferInstanceAs (Decidable (_ ∨ (_ ∧ _)))
  | .create .. | .release .. | .file .. => inferInstanceAs (Decidable False)

variable {g : Geometry} {fs fs' : Fs} {ents ents' : Nat → List Nat} {al : Alloc} {d e i : Nat} {name : Name}

/-! ## Reading entries -/

theorem dirent_of_tree (ht : treeOf fs.de e = some ⟨i, d, name⟩) : fs.dirent e = some ⟨i, (fs.inode i).type, name⟩ := by
  obtain ⟨-, hi, hn⟩ := treeOf_eq_some.1 ht
  unfold Fs.dirent
  rw [hi, hn]
  rfl

variable (h : DirInv g fs ents)

include h

theorem DirInv.listing_eq (hd : (fs.inode d).type = .dir) : fs.listing g d = (ents d).filterMap fs.dirent := by
  rw [Fs.listing, if_pos hd, h.entries_eq hd]

/-- Entries of a directory that read the same are the same. -/
theorem DirInv.dirent_inj {y : Nat} (he : e ∈ ents d) (hy : y ∈ ents d) (heq : fs.dirent e = fs.dirent y) : e = y := by
  obtain ⟨i, nm, -, -, ht⟩ := h.holds_of_mem he
  obtain ⟨i', nm', -, -, ht'⟩ := h.holds_of_mem hy
  rw [dirent_of_tree ht, dirent_of_tree ht'] at heq
  cases heq
  exact (h.tree_inj ht ht').1

theorem DirInv.nodup_dirents (d : Nat) : ((ents d).filterMap fs.dirent).Nodup := by
  refine List.pairwise_filterMap.2 ((h.ents_nodup d).pairwise_of_forall_ne fun e he y hy hne x hx x' hx' heq => hne ?_)
  exact h.dirent_inj he hy (hx.trans (heq ▸ hx'.symm))

theorem DirInv.dirent_congr (he : e ∈ ents d) (ht : treeOf fs'.de e = treeOf fs.de e)
    (htype : ∀ x, (fs.inode x).deno = some e → (fs'.inode x).type = (fs.inode x).type) :
    fs'.dirent e = fs.dirent e := by
  obtain ⟨i, nm, -, -, htree⟩ := h.holds_of_mem he
  rw [dirent_of_tree htree, dirent_of_tree (ht.trans htree), htype i (h.linked_of_tree htree)]

/-! ## Lists after an edit -/

theorem DirInv.ents_of_ring (hd : (fs.inode d).type = .dir) {l : List Nat}
    (hr : Ring (fs.links.fwd d) (fs.links.bwd d) 0 l) : ents d = l :=
  (h.lists.ring d hd).unique hr

/-- `gone` is taken out of the list `l`; what is new reads as no entry of `l` did. -/
structure ListEdit (fs fs' : Fs) (l l' gone : List Nat) : Prop where
  list : ∃ new, l' = l.filter (· ∉ gone) ++ new ∧ ∀ e ∈ new, ∀ y ∈ l, fs'.dirent e ≠ fs.dirent y
  same : ∀ e ∈ l, e ∉ gone → fs'.dirent e = fs.dirent e

omit h in
theorem ListEdit.refl (fs : Fs) (l : List Nat) : ListEdit fs fs l l [] :=
  ⟨⟨[], by simp, nofun⟩, fun _ _ _ => rfl⟩

/-- The list of every directory without an entry of one. -/
theorem DirInv.erase_eq_filter (he : e ∈ ents d) (d' : Nat) :
    update ents d ((ents d).erase e) d' = (ents d').filter (· ∉ [e]) := by
  by_cases hd : d' = d
  · subst hd
    rw [update_self, (h.ents_nodup d').erase_eq_filter]
    exact List.filter_congr fun y _ => by simp [bne, beq_eq_decide]
  · rw [update_of_ne hd, List.filter_eq_self.2]
    intro y hy
    have hne : y ≠ e := by
      rintro rfl
      exact hd (h.lists.disjoint hy he)
    simpa using hne

theorem DirInv.dirAdd_edit {isdir : Bool} {btime d' : Nat} (h' : DirInv g fs' ents')
    (hok : Dir.dirAdd g al fs d name isdir btime = .ok fs') (hlen : name.length < 256)
    (hd' : (fs.inode d').type = .dir) : (fs'.inode d').type = .dir ∧ ListEdit fs fs' (ents d') (ents' d') [] := by
  obtain ⟨e, i, hd, -, hfree, hifree, hid, hinode, hlinks, hf, hu, hi, hdir, hnamed⟩ := dirAdd_eq_ok h hok hlen
  have hnoext : NoExt (fs.de e) := fun hused => absurd (hused.symm.trans hfree) (by decide)
  have hdirino : (fs.de e).dirino = none := by rw [h.deFree e hfree]; rfl
  have hout : ∀ d', e ∉ ents d' := fun d' hm => by
    rw [h.mem d' e, hdirino] at hm
    cases hm
  have he0 := h.ne_zero_of_free hfree
  have htype : ∀ x, x ≠ i → (fs'.inode x).type = (fs.inode x).type := by
    intro x hx
    rw [hinode, (addSize_keep _ d x metaobjSize).2.1, update_of_ne hx]
  have hd'i : d' ≠ i := by
    rintro rfl
    rw [(h.inFree d' hifree).1] at hd'
    cases hd'
  have hdir' := (htype d' hd'i).trans hd'
  refine ⟨hdir', ⟨if d' = d then [e] else [], ?_, fun y hy z hz => ?_⟩, fun y hy _ => ?_⟩
  · have hring := (h.lists.insert hd he0 hout).ring d' hd'
    rw [← hlinks] at hring
    rw [h'.ents_of_ring hdir' hring]
    by_cases hdd : d' = d
    · subst hdd
      simp
    · simp [hdd]
  · -- the inode of the new entry is a new one
    have hye : y = e := by
      split at hy
      · exact List.mem_singleton.1 hy
      · cases hy
    rw [hye, dirent_of_tree (treeOf_named hdir hi hnamed)]
    obtain ⟨i', nm, -, -, ht⟩ := h.holds_of_mem hz
    rw [dirent_of_tree ht]
    intro heq
    obtain ⟨rfl, -, -⟩ := Dirent.mk.inj (Option.some.inj heq)
    have hlink := h.linked_of_tree ht
    rw [(h.inFree i hifree).2.1] at hlink
    cases hlink
  · have hye : y ≠ e := fun heq => hout d' (heq ▸ hy)
    refine h.dirent_congr hy (h.treeOf_frame hf hnoext hye) fun x hx => htype x ?_
    rintro rfl
    rw [(h.inFree x hifree).2.1] at hx
    cases hx

theorem DirInv.dirDel_edit {nm : Option Name} {isdir : Bool} {d' : Nat} (h' : DirInv g fs' ents')
    (hok : Dir.dirDel g al fs d i nm isdir = .ok fs')
    (hpar : ∀ e, (fs.inode i).deno = some e → (fs.de e).dirino = some d) (hdeno : (fs.inode i).deno = some e)
    (hd' : (fs.inode d').type = .dir) : ents' d' = (ents d').filter (· ∉ [e]) ∧ (fs'.inode d').type = .dir ∧
      ∀ y ∈ ents d', y ≠ e → fs'.dirent y = fs.dirent y := by
  obtain ⟨e₁, hd, -, hdeno₁, -, hlinks, -, -⟩ := dirDel_eq_ok h hok hpar
  obtain rfl : e = e₁ := Option.some.inj (hdeno.symm.trans hdeno₁)
  obtain ⟨e₁, hrem, -⟩ := h.dirDel_removed hok hpar
  obtain rfl : e = e₁ := Option.some.inj (hdeno.symm.trans hrem.deno)
  have hmem : e ∈ ents d := (h.mem d e).2 (hpar e hdeno)
  have hdir' := (hrem.type d').trans hd'
  refine ⟨?_, hdir', fun y hy hye => ?_⟩
  · have hring := (h.lists.delete hd hmem).ring d' hd'
    rw [← hlinks] at hring
    rw [h'.ents_of_ring hdir' hring, h.erase_eq_filter hmem]
  · refine h.dirent_congr hy ?_ fun x _ => hrem.type x
    rw [hrem.tree, update_of_ne hye]

theorem DirInv.dirMove_edit {od o nd d' : Nat} (h' : DirInv g fs' ents')
    (hok : Dir.dirMove g al fs od e nd name = .ok fs') (ho : (fs.inode o).deno = some e)
    (hdir : (fs.de e).dirino = some od) (hlen : name.length < 256) (hd' : (fs.inode d').type = .dir) :
    ents' d' = (ents d').filter (· ∉ [e]) ++ (if d' = nd then [e] else []) ∧ (fs'.inode d').type = .dir ∧
      (∀ y ∈ ents d', y ≠ e → fs'.dirent y = fs.dirent y) ∧ fs'.dirent e = some ⟨o, (fs.inode o).type, name⟩ := by
  obtain ⟨hod, hnd, -, hlinks, -⟩ := dirMove_eq_ok h hok hdir hlen
  have hmoved := h.dirMove_moved hok ho hdir hlen
  have hmem : e ∈ ents od := (h.mem od e).2 hdir
  have hdir' := (hmoved.type d').trans hd'
  have hout : ∀ x, e ∉ update ents od ((ents od).erase e) x := by
    intro x hm
    rw [h.erase_eq_filter hmem] at hm
    simp at hm
  refine ⟨?_, hdir', fun y hy hye => ?_, ?_⟩
  · have hring := ((h.lists.delete hod hmem).insert hnd (h.ne_zero_of_primary hdir) hout).ring d' hd'
    rw [← hlinks] at hring
    rw [h'.ents_of_ring hdir' hring]
    by_cases hdn : d' = nd
    · subst hdn
      rw [update_self, h.erase_eq_filter hmem, if_pos rfl]
    · rw [update_of_ne hdn, h.erase_eq_filter hmem, if_neg hdn, List.append_nil]
  · refine h.dirent_congr hy ?_ fun x _ => hmoved.type x
    rw [hmoved.tree, update_of_ne hye]
  · have ht : treeOf fs'.de e = some ⟨o, nd, name⟩ := by rw [hmoved.tree, update_self]
    rw [dirent_of_tree ht, hmoved.type o]

theorem DirInv.dirReplace_edit {n : Option Nat} {nd d' : Nat} {fs₁ : Fs} {ents₁ : Nat → List Nat}
    (h₁ : DirInv g fs₁ ents₁) (hok : Dir.dirReplace g al fs nd n = .ok fs₁)
    (hold : ∀ i, n = some i → ∀ e, (fs.inode i).deno = some e → (fs.de e).dirino = some nd)
    (hd' : (fs.inode d').type = .dir) :
    ∃ targets : List Nat, (∀ y ∈ targets, ∃ i, n = some i ∧ (fs.inode i).deno = some y) ∧
      ents₁ d' = (ents d').filter (· ∉ targets) ∧ (fs₁.inode d').type = .dir ∧
        ∀ y ∈ ents d', y ∉ targets → fs₁.dirent y = fs.dirent y := by
  cases n with
  | none =>
    cases hok
    refine ⟨[], nofun, ?_, hd', fun _ _ _ => rfl⟩
    rw [← h₁.entries_eq hd', ← h.entries_eq hd']
    simp
  | some n =>
    obtain ⟨isdir, hdel⟩ := dirReplace_some hok
    obtain ⟨e, hdeleted⟩ := h.dirDel hdel (hold n rfl)
    obtain ⟨hlist, hdir, hsame⟩ := h.dirDel_edit h₁ hdel (hold n rfl) hdeleted.deno hd'
    refine ⟨[e], fun y hy => ⟨n, rfl, ?_⟩, hlist, hdir, fun y hy hgone => hsame y hy fun heq => hgone ?_⟩
    · rw [List.mem_singleton.1 hy]
      exact hdeleted.deno
    · exact List.mem_singleton.2 heq

/-- The entries that go are those of the inode and of the target. -/
theorem DirInv.renames_edit {n : Option Nat} {od o nd d' : Nat} (h' : DirInv g fs' ents')
    (hr : Renames g al fs fs' od o nd n name e) (hd' : (fs.inode d').type = .dir) :
    (fs'.inode d').type = .dir ∧ ∃ gone : List Nat,
      (∀ y ∈ gone, y = e ∨ ∃ i, n = some i ∧ (fs.inode i).deno = some y) ∧ ListEdit fs fs' (ents d') (ents' d') gone := by
  obtain ⟨fs₁, hreplace, hcleared, hmove⟩ := hr.cleared h
  obtain ⟨ents₁, hinv⟩ := hcleared.inv
  obtain ⟨targets, htargets, hlist₁, hdir₁, hsame₁⟩ :=
    h.dirReplace_edit hinv hreplace (fun i hi e' he' => (hr.old i hi e' he').1) hd'
  obtain ⟨hlist, hdir', hsame, hself⟩ := hinv.dirMove_edit h' hmove hcleared.deno (hcleared.dirino.trans hr.dirino) hr.len hdir₁
  have hmem₁ : ∀ y, y ∈ ents₁ d' ↔ y ∈ ents d' ∧ y ∉ targets := fun y => by simp [hlist₁]
  refine ⟨hdir', targets ++ [e], fun y hy => ?_, ⟨if d' = nd then [e] else [], ?_, fun y hy z hz heq => ?_⟩,
    fun y hy hgone => ?_⟩
  · rcases List.mem_append.1 hy with hy | hy
    · exact .inr (htargets y hy)
    · exact .inl (List.mem_singleton.1 hy)
  · rw [hlist, hlist₁, List.filter_filter]
    congr 1
    exact List.filter_congr fun y _ => by simp [and_comm]
  · -- no other entry of the new directory has the new name
    obtain ⟨hdn, rfl⟩ : d' = nd ∧ y = e := by
      split at hy
      · next hdn => exact ⟨hdn, List.mem_singleton.1 hy⟩
      · cases hy
    subst hdn
    rw [hself] at heq
    by_cases hzt : z ∈ targets
    · obtain ⟨k, hk, hdeno⟩ := htargets z hzt
      obtain ⟨i, nm, hi, -, ht⟩ := h.holds_of_mem hz
      rw [dirent_of_tree ht] at heq
      obtain ⟨rfl, -, -⟩ := Dirent.mk.inj (Option.some.inj heq)
      have hik : o = k := Option.some.inj (hi.symm.trans (h.linked k z hdeno).2.2.1)
      exact hr.ne (hik ▸ hk)
    · have hz₁ := (hmem₁ z).2 ⟨hz, hzt⟩
      obtain ⟨i, nm, -, -, ht⟩ := hinv.holds_of_mem hz₁
      rw [← hsame₁ z hz hzt, dirent_of_tree ht] at heq
      obtain ⟨-, -, rfl⟩ := Dirent.mk.inj (Option.some.inj heq)
      have hdirino := (treeOf_eq_some.1 ht).1
      obtain ⟨_, nm, ht', -, -, hnamed⟩ := hinv.treeOf_primary hdirino
      cases ht.symm.trans ht'
      exact hcleared.fresh z name hdirino hnamed rfl
  · have hy₁ : y ∉ targets := fun hyt => hgone (List.mem_append_left _ hyt)
    have hye : y ≠ e := fun heq => hgone (List.mem_append_right _ (List.mem_singleton.2 heq))
    exact (hsame y ((hmem₁ y).2 ⟨hy, hy₁⟩) hye).trans (hsame₁ y hy hy₁)

/-! ## The operations -/

/-- The list stays if the entries stay and the linked inodes keep their types. -/
theorem DirInv.keep_edit (h' : DirInv g fs' ents') (hents : DirInv g fs' ents) (hde : fs'.de = fs.de)
    (htype : ∀ x, (fs.inode x).deno ≠ none → (fs'.inode x).type = (fs.inode x).type) (hd : (fs.inode d).type = .dir)
    (hlink : (fs.inode d).deno ≠ none) : (fs'.inode d).type = .dir ∧ ListEdit fs fs' (ents d) (ents' d) [] := by
  have hdir := (htype d hlink).trans hd
  refine ⟨hdir, ⟨[], ?_, nofun⟩, fun y hy _ => h.dirent_congr hy (by rw [hde]) fun x hx => htype x (by simp [hx])⟩
  rw [← h'.entries_eq hdir, hents.entries_eq hdir]
  simp

/-- What an operation does to the list of a directory that is linked. -/
theorem DirInv.exec_edit (h' : DirInv g fs' ents') {op : Op} (hok : Dir.exec g fs op = .ok fs')
    (hd : (fs.inode d).type = .dir) (hlink : (fs.inode d).deno ≠ none) :
    (fs'.inode d).type = .dir ∧ ∃ gone : List Nat, (∀ y ∈ gone, op.takes fs y) ∧
      ListEdit fs fs' (ents d) (ents' d) gone := by
  cases op with
  | create al stk name isdir btime =>
    simp only [Dir.exec, Dir.memdirCreate, bind_eq_ok, ensure_eq_ok] at hok
    obtain ⟨-, hlen, -, -, -, -, hadd⟩ := hok
    have hmax := g.maxnamelen_le
    obtain ⟨hdir, hedit⟩ := h.dirAdd_edit h' hadd (by omega) hd
    exact ⟨hdir, [], by simp, hedit⟩
  | remove al stk isdir =>
    simp only [Dir.exec, Dir.memdirXremove, bind_eq_ok, ensure_eq_ok] at hok
    obtain ⟨u, hpath, -, h0, hdel⟩ := hok
    obtain ⟨e, he, -⟩ := pathCheck_eq_ok hpath
    obtain ⟨hlist, hdir, hsame⟩ := h.dirDel_edit h' hdel (fun e he => (h.parent hpath h0 he).1) he hd
    refine ⟨hdir, [e], fun y hy => ?_, ⟨[], by rw [hlist, List.append_nil], by simp⟩, fun y hy hgone => ?_⟩
    · rw [List.mem_singleton.1 hy]
      exact he
    · exact hsame y hy fun heq => hgone (List.mem_singleton.2 heq)
  | rename al isdir ostk nstk newname =>
    rcases h.memdirXrename_cases hok with rfl | ⟨n, name, e, hr, htarget⟩
    · refine ⟨hd, [], by simp, ?_⟩
      rw [← h.entries_eq hd, ← h'.entries_eq hd]
      exact .refl ..
    · obtain ⟨hdir, gone, hgone, hedit⟩ := h.renames_edit h' hr hd
      refine ⟨hdir, gone, fun y hy => ?_, hedit⟩
      rcases hgone y hy with rfl | ⟨i, hi, hdeno⟩
      · exact .inl hr.deno
      · obtain ⟨hnew, rfl⟩ := htarget i hi
        exact .inr ⟨hnew, hdeno⟩
  | release ino btime =>
    have hents := h.inodephyRelease hok
    simp only [Dir.exec, Dir.inodephyRelease, bind_eq_ok, ensure_eq_ok, verify_eq_ok, pure_eq_ok] at hok
    obtain ⟨-, -, -, -, -, hnlink, -, -, rfl⟩ := hok
    have hedit := h.keep_edit h' hents rfl ?_ hd hlink
    · exact ⟨hedit.1, [], by simp, hedit.2⟩
    · -- an inode that is released is not linked
      intro x hx
      obtain ⟨e, he⟩ := Option.ne_none_iff_exists'.1 hx
      have hxi : x ≠ ino := by
        rintro rfl
        rw [(h.linked x e he).1] at hnlink
        cases hnlink
      simp [hxi]
  | file ino head tail size =>
    have hents := h.fileModify hok
    simp only [Dir.exec, Dir.fileModify, bind_eq_ok, ensure_eq_ok, pure_eq_ok] at hok
    obtain ⟨-, -, rfl⟩ := hok
    have hedit := h.keep_edit h' hents rfl ?_ hd hlink
    · exact ⟨hedit.1, [], by simp, hedit.2⟩
    · intro x _
      by_cases hxi : x = ino
      · simp [hxi]
      · simp [hxi]

end PolarFs.Dir
