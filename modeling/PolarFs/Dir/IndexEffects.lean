/-
What an operation does to the indexes in memory and to the name cache. It leaves an inode alone together with its
entries, or makes it stale, or notes records that turn an index of the entries before into one of those after
(`DirEffect`). A lookup answers what the directory holds, and no operation fails an assertion of the index.
-/
import PolarFs.Dir.DirIndex

namespace PolarFs.Dir.Index

open PolarFs.Meta (InodeType)
open Function (update_of_ne forall_update_iff)

variable {g : Geometry} {hash : Name → UInt32} {fs fs' fs₁ : Fs} {ents : Nat → List Nat} {al : Alloc} {d e i : Nat}
  {name : Name} {isdir enabled : Bool} {v v' : View} {m m' : MemDir} {x x' : DxRoot × UInt64}

/-! ## Lookup and rebuilding -/

/-- The name is in the entry list of the directory, with the inode `i`. -/
def Listed (g : Geometry) (fs : Fs) (d : Nat) (name : Name) (i : Nat) : Prop :=
  ∃ e ∈ fs.entries g d, (fs.de e).ino = some i ∧ direntryGetname fs.de e = some name

theorem listed_iff (h : DirInv g fs ents) (hd : (fs.inode d).type = .dir) :
    Listed g fs d name i ↔ ∃ e, treeOf fs.de e = some ⟨i, d, name⟩ := by
  simp only [Listed, h.entries_eq hd, h.mem, treeOf_eq_some]

theorem listed_of_tree (h : DirInv g fs ents) (ht : treeOf fs.de e = some ⟨i, d, name⟩) : Listed g fs d name i :=
  (listed_iff h (h.primary e d (treeOf_eq_some.1 ht).1).2.1).2 ⟨e, ht⟩

theorem not_listed_iff (h : DirInv g fs ents) (hd : (fs.inode d).type = .dir) :
    inodeDirFind g fs d name = none ↔ ∀ i b, ¬ HasEntry fs d name i b := by
  rw [inodeDirFind, h.entries_eq hd, List.find?_eq_none]
  constructor
  · rintro hno i b ⟨⟨e, ht⟩, -⟩
    obtain ⟨hdir, -, hn⟩ := treeOf_eq_some.1 ht
    exact hno e ((h.mem d e).2 hdir) (by simpa using hn)
  · intro hno e he hn
    obtain ⟨i, nm, -, hnm, ht⟩ := h.holds_of_mem he
    rw [decide_eq_true_iff, hnm] at hn
    cases hn
    exact hno i _ ⟨⟨e, ht⟩, rfl⟩

/-- The loop over a chain of entries of the directory finds the entry of the name if the chain has one. -/
theorem dxFind_spec (h : DirInv g fs ents) (name : Name) : ∀ {chain : List Dxent},
    (∀ y ∈ chain, ∃ nm, HasEntry fs d nm y.ino y.isdir) →
    (∃ i e, dxFind fs name chain = .ok (i, e) ∧ treeOf fs.de e = some ⟨i, d, name⟩) ∨
      (dxFind fs name chain = .error (.errno .enoent) ∧ ∀ y ∈ chain, ¬ HasEntry fs d name y.ino y.isdir)
  | [], _ => .inr ⟨rfl, nofun⟩
  | ent :: rest, hchain => by
    obtain ⟨nm, ⟨e, ht⟩, hb⟩ := hchain ent List.mem_cons_self
    have hdeno := h.linked_of_tree ht
    have hname := (treeOf_eq_some.1 ht).2.2
    by_cases hnm : nm = name
    · subst hnm
      refine .inl ⟨ent.ino, e, ?_, ht⟩
      simp [dxFind, hdeno, hname]
    · have heq : dxFind fs name (ent :: rest) = dxFind fs name rest := by simp [dxFind, hdeno, hname, hnm]
      rw [heq]
      refine (dxFind_spec h name fun y hy => hchain y (List.mem_cons_of_mem _ hy)).imp_right ?_
      rintro ⟨hfind, hno⟩
      refine ⟨hfind, List.forall_mem_cons.2 ⟨fun hh => hnm ?_, hno⟩⟩
      exact (h.holds_ino ⟨⟨e, ht⟩, hb⟩ hh).2.1

/-- The index and the size of a directory agree with the metadata. -/
structure Fresh (hash : Name → UInt32) (fs : Fs) (d : Nat) (x : DxRoot × UInt64) : Prop where
  type : (fs.inode d).type = .dir
  index : Indexes hash x.1 (HasEntry fs d)
  size : x.2 = (fs.inode d).size

theorem Fresh.dxFind (hf : Fresh hash fs d x) (h : DirInv g fs ents) (name : Name) :
    (∃ i e, dxFind fs name (x.1 (hash name)) = .ok (i, e) ∧ treeOf fs.de e = some ⟨i, d, name⟩) ∨
      (dxFind fs name (x.1 (hash name)) = .error (.errno .enoent) ∧ ∀ i b, ¬ HasEntry fs d name i b) := by
  refine (dxFind_spec h name fun y hy => ?_).imp_right ?_
  · obtain ⟨nm, -, hh⟩ := (hf.index.mem _ y).1 hy
    exact ⟨nm, hh⟩
  · rintro ⟨hfind, hno⟩
    refine ⟨hfind, fun i b hh => hno ⟨i, b⟩ ?_ hh⟩
    exact (hf.index.mem _ _).2 ⟨name, rfl, hh⟩

theorem foldlM_buildStep (h : DirInv g fs ents) : ∀ (es pre : List Nat) {root : DxRoot}, pre ++ es = ents d →
    Indexes hash root (fun nm i b => HasEntry fs d nm i b ∧ ∃ e ∈ pre, (fs.inode i).deno = some e) →
    ∃ root', es.foldlM (buildStep hash fs) root = .ok root' ∧ Indexes hash root' (HasEntry fs d)
  | [], pre, root, hes, hix => by
    refine ⟨root, rfl, hix.congr fun nm i b => ⟨And.left, fun hh => ⟨hh, ?_⟩⟩⟩
    obtain ⟨⟨e, ht⟩, -⟩ := hh
    refine ⟨e, ?_, h.linked_of_tree ht⟩
    rw [← List.append_nil pre, hes, h.mem]
    exact (treeOf_eq_some.1 ht).1
  | e :: es, pre, root, hes, hix => by
    have hmem : e ∈ ents d := hes ▸ List.mem_append_right _ List.mem_cons_self
    obtain ⟨i, nm, hi, hnm, ht⟩ := h.holds_of_mem hmem
    have hlink := h.linked_of_tree ht
    have hnot : e ∉ pre := by
      have hnd := hes ▸ h.ents_nodup d
      exact fun hin => (List.nodup_append.1 hnd).2.2 e hin e List.mem_cons_self rfl
    have hstep : buildStep hash fs root e = .ok (dxAdd root (hash nm) i (decide ((fs.inode i).type = .dir))) := by
      simp [buildStep, hi, hnm]
    rw [List.foldlM_cons, hstep]
    refine foldlM_buildStep h es (pre ++ [e]) (by rw [List.append_assoc]; exact hes) ((hix.dxAdd ?_).congr ?_)
    · rintro nm' b ⟨-, e', he', hlink'⟩
      obtain rfl : e = e' := Option.some.inj (hlink.symm.trans hlink')
      exact hnot he'
    · intro nm' j b
      simp only [List.mem_append, List.mem_singleton]
      constructor
      · rintro (⟨hh, e', he', hl⟩ | ⟨rfl, rfl, rfl⟩)
        · exact ⟨hh, e', .inl he', hl⟩
        · exact ⟨⟨⟨e, ht⟩, rfl⟩, e, .inr rfl, hlink⟩
      · rintro ⟨hh, e', he' | rfl, hl⟩
        · exact .inl ⟨hh, e', he', hl⟩
        · obtain rfl : i = j := Option.some.inj (hi.symm.trans (h.linked j e' hl).2.2.1)
          obtain ⟨-, rfl, rfl⟩ := h.holds_ino ⟨⟨e', ht⟩, rfl⟩ hh
          exact .inr ⟨rfl, rfl, rfl⟩

theorem buildDindex_indexes (hash : Name → UInt32) (h : DirInv g fs ents) (hd : (fs.inode d).type = .dir) :
    ∃ root, buildDindex g hash fs d = .ok root ∧ Indexes hash root (HasEntry fs d) := by
  rw [buildDindex, h.entries_eq hd]
  refine foldlM_buildStep h (ents d) [] rfl (Indexes.nil.congr fun nm i b => ?_)
  simp

/-! ## Lookup through the name cache -/

/-- What the operations find of a directory they have locked. -/
structure Ready (hash : Name → UInt32) (v : View) (d : Nat) : Prop where
  done : (v.dirs d).cb = .done
  redo : (v.dirs d).redo = []
  fresh : (v.dirs d).stale = false → Fresh hash v.fs d ((v.dirs d).root, (v.dirs d).size)

/-- The entries of the name cache are entries of the directories. -/
def CacheOk (fs : Fs) (cache : List CacheEnt) : Prop :=
  ∀ c ∈ cache, treeOf fs.de c.deno = some ⟨c.ino, c.parent, c.name⟩

/-- What `pfs_namecache_enter` makes of the cache. -/
structure Entered (fs : Fs) (cache cache' : List CacheEnt) : Prop where
  denos : (cache.map CacheEnt.deno).Nodup → (cache'.map CacheEnt.deno).Nodup
  ok : CacheOk fs cache'

theorem namecacheEnter_entered {cache : List CacheEnt} {c : CacheEnt} (enabled : Bool) (h : DirInv g fs ents)
    (hc : CacheOk fs cache) (ht : treeOf fs.de c.deno = some ⟨c.ino, c.parent, c.name⟩) :
    ∃ cache', namecacheEnter cache enabled c = .ok cache' ∧ Entered fs cache cache' := by
  unfold namecacheEnter
  split
  case isTrue => exact ⟨cache, rfl, id, hc⟩
  case isFalse =>
    split
    case h_1 c' hfind =>
      -- a name has one entry
      have hc' := hc c' (List.mem_of_find?_eq_some hfind)
      obtain ⟨hpar, hname⟩ : c'.parent = c.parent ∧ c'.name = c.name := by simpa using List.find?_some hfind
      rw [hpar, hname] at hc'
      have hdeno := h.tree.nameInj hc' ht rfl rfl
      rw [hdeno, ht, Option.some.injEq, NameTree.Entry.mk.injEq] at hc'
      refine ⟨cache, ?_, id, hc⟩
      rw [bind_eq_ok]
      exact ⟨(), verify_eq_ok.2 ⟨hc'.1.symm, hdeno⟩, rfl⟩
    case h_2 hfind =>
      refine ⟨c :: cache, rfl, fun hnd => List.nodup_cons.2 ⟨fun hin => ?_, hnd⟩, List.forall_mem_cons.2 ⟨ht, hc⟩⟩
      obtain ⟨c', hc', hdeno⟩ := List.mem_map.1 hin
      have ht' := hc c' hc'
      rw [show c'.deno = c.deno from hdeno, ht, Option.some.injEq, NameTree.Entry.mk.injEq] at ht'
      obtain ⟨-, hpar, hname⟩ := ht'
      exact absurd (List.find?_eq_none.1 hfind c' hc') (by simp [hpar, hname])

theorem CacheOk.hit {cache : List CacheEnt} (hc : CacheOk fs cache)
    (hlook : namecacheLookup cache enabled d name = some i) :
    (enabled = true ∧ name = [46]) ∨ ∃ e, treeOf fs.de e = some ⟨i, d, name⟩ := by
  unfold namecacheLookup at hlook
  obtain ⟨hen, hlook⟩ := Option.ite_none_right_eq_some.1 hlook
  split at hlook
  case isTrue hdot => exact .inl ⟨hen, hdot⟩
  case isFalse =>
    obtain ⟨c, hfind, rfl⟩ := Option.map_eq_some_iff.1 hlook
    have ht := hc c (List.mem_of_find?_eq_some hfind)
    obtain ⟨hpar, hname⟩ : c.parent = d ∧ c.name = name := by simpa using List.find?_some hfind
    rw [hpar, hname] at ht
    exact .inr ⟨c.deno, ht⟩

/-- `pfs_inode_dir_find` of a directory that is locked. The name `.` is answered by the cache itself. -/
theorem dirFind_spec (enabled : Bool) (name : Name) (h : DirInv g v.fs ents) (hc : CacheOk v.fs v.cache)
    (hr : Ready hash v d) :
    (∃ i v', dirFind hash v enabled d name = .ok (Found.mk' v.fs i, v') ∧ Entered v.fs v.cache v'.cache ∧
      ((enabled = true ∧ name = [46]) ∨ ∃ e, treeOf v.fs.de e = some ⟨i, d, name⟩)) ∨
    (dirFind hash v enabled d name = .error (.errno .enoent) ∧ (v.dirs d).stale = false ∧
      ∀ i b, ¬ HasEntry v.fs d name i b) ∨
    (dirFind hash v enabled d name = .error (.errno .eagain) ∧ (v.dirs d).stale = true) := by
  unfold dirFind
  cases hlook : namecacheLookup v.cache enabled d name with
  | some i => exact .inl ⟨i, v, rfl, ⟨id, hc⟩, hc.hit hlook⟩
  | none =>
    cases hstale : (v.dirs d).stale with
    | true => exact .inr (.inr ⟨by simp [checkStale, hstale, ensure, bind, Except.bind], rfl⟩)
    | false =>
      have hcheck : checkStale v d = .ok () := ensure_eq_ok.2 hstale
      rcases (hr.fresh hstale).dxFind h name with ⟨i, e, hdx, ht⟩ | ⟨hdx, hno⟩
      · obtain ⟨cache', henter, hentered⟩ := namecacheEnter_entered enabled h hc (c := ⟨d, name, i, e⟩) ht
        refine .inl ⟨i, { v with cache := cache' }, ?_, hentered, .inr ⟨e, ht⟩⟩
        dsimp only at hdx
        simp only [hcheck, hdx, henter, bind, Except.bind]
        rfl
      · refine .inr (.inl ⟨?_, rfl, hno⟩)
        dsimp only at hdx
        simp only [hcheck, hdx, bind, Except.bind]

/-! ## Records -/

/-- An index of `P` with the size `sz`. -/
def Ix (hash : Name → UInt32) (P : Name → Nat → Bool → Prop) (sz : UInt64) (x : DxRoot × UInt64) : Prop :=
  Indexes hash x.1 P ∧ x.2 = sz

variable {P Q : Name → Nat → Bool → Prop} {sz sz' : UInt64} {recs : List DxRec} {u : Unit} {op : Dxop} {stk : Instack}
  {btime : Nat} {f : Fail}

/-- What the records make of an index of `P` is one of `Q`. -/
def Turns (hash : Name → UInt32) (recs : List DxRec) (P : Name → Nat → Bool → Prop) (sz : UInt64)
    (Q : Name → Nat → Bool → Prop) (sz' : UInt64) : Prop :=
  ∀ x, Ix hash P sz x → ∃ x', recs.foldlM applyRec x = .ok x' ∧ Ix hash Q sz' x'

theorem Turns.nil (h : ∀ nm i b, P nm i b ↔ Q nm i b) : Turns hash [] P sz Q sz :=
  fun x hx => ⟨x, rfl, hx.1.congr h, hx.2⟩

theorem Turns.congr_left {P' : Name → Nat → Bool → Prop} (h : Turns hash recs P sz Q sz')
    (hP : ∀ nm i b, P' nm i b ↔ P nm i b) : Turns hash recs P' sz Q sz' :=
  fun x hx => h x ⟨hx.1.congr hP, hx.2⟩

theorem Turns.add (hnew : ∀ nm b, ¬ P nm i b)
    (h : Turns hash recs (fun nm j b => P nm j b ∨ (nm = name ∧ j = i ∧ b = isdir)) (sz + metaobjSize) Q sz') :
    Turns hash (⟨.add, hash name, i, isdir⟩ :: recs) P sz Q sz' := by
  rintro x ⟨hx, rfl⟩
  exact h (dxAdd x.1 (hash name) i isdir, x.2 + metaobjSize) ⟨hx.dxAdd hnew, rfl⟩

theorem Turns.del {b : Bool} (hP : P name i b) (hone : ∀ nm b', P nm i b' → nm = name ∧ b' = b)
    (hb : isdir = true → b = true) (h : Turns hash recs (fun nm j b => P nm j b ∧ j ≠ i) (sz + -metaobjSize) Q sz') :
    Turns hash (⟨.del, hash name, i, isdir⟩ :: recs) P sz Q sz' := by
  rintro x ⟨hx, rfl⟩
  obtain ⟨root', hdel, hx'⟩ := hx.dxDel hP hone hb
  have hstep : applyRec x ⟨.del, hash name, i, isdir⟩ = .ok (root', x.2 + -metaobjSize) := by
    simp only [applyRec, hdel]
    rfl
  rw [List.foldlM_cons, hstep]
  exact h _ ⟨hx', rfl⟩

/-- The entries and the size of the directory `d` are the same. -/
structure Same (fs fs' : Fs) (d : Nat) : Prop where
  type : (fs'.inode d).type = .dir
  size : (fs'.inode d).size = (fs.inode d).size
  holds : ∀ nm i b, HasEntry fs' d nm i b ↔ HasEntry fs d nm i b

theorem Same.refl (h : (fs.inode d).type = .dir) : Same fs fs d := ⟨h, rfl, fun _ _ _ => Iff.rfl⟩

theorem Same.trans (h : Same fs fs₁ d) (h' : Same fs₁ fs' d) : Same fs fs' d :=
  ⟨h'.type, h'.size.trans h.size, fun nm i b => (h'.holds nm i b).trans (h.holds nm i b)⟩

theorem Fresh.same (hf : Fresh hash fs d x) (hs : Same fs fs' d) : Fresh hash fs' d x :=
  ⟨hs.type, hf.index.congr fun nm i b => (hs.holds nm i b).symm, hf.size.trans hs.size.symm⟩

/-- What an operation does to the inode of the directory `d`. -/
inductive DirEffect (hash : Name → UInt32) (fs fs' : Fs) (d : Nat) (m : MemDir) : MemDir → Prop
  | kept (h : (fs.inode d).type = .dir → Same fs fs' d) : DirEffect hash fs fs' d m m
  | released : DirEffect hash fs fs' d m { m with stale := true }
  | recorded {m' : MemDir} (recs : List DxRec) (hstale : m.stale = false) (hcb : m.cb = .done)
      (htype : (fs'.inode d).type = .dir)
      (h : Turns hash recs (HasEntry fs d) (fs.inode d).size (HasEntry fs' d) (fs'.inode d).size)
      (hm : m' = { m with redo := m.redo ++ recs, cb := .inTx }) : DirEffect hash fs fs' d m m'

theorem checkStale_eq_ok : checkStale v d = .ok u ↔ (v.dirs d).stale = false := by
  rw [checkStale, ensure_eq_ok]

theorem dxredoRecord_eq_ok (h : dxredoRecord hash v d op name i isdir = .ok v') :
    v'.fs = v.fs ∧ v'.cache = v.cache ∧ ∀ y, v'.dirs y =
      if y = d then { v.dirs y with redo := (v.dirs y).redo ++ [⟨op, hash name, i, isdir⟩] } else v.dirs y := by
  simp only [dxredoRecord, bind_eq_ok, pure_eq_ok] at h
  obtain ⟨-, -, rfl⟩ := h
  refine ⟨rfl, rfl, fun y => ?_⟩
  by_cases hy : y = d
  · subst hy
    simp
  · simp [hy]

theorem setCallback_eq_ok (h : setCallback v d = .ok v') :
    v'.fs = v.fs ∧ v'.cache = v.cache ∧
      ∀ y, v'.dirs y = if y = d then { v.dirs y with cb := .inTx } else v.dirs y := by
  simp only [setCallback, bind_eq_ok, pure_eq_ok] at h
  obtain ⟨-, -, rfl⟩ := h
  refine ⟨rfl, rfl, fun y => ?_⟩
  by_cases hy : y = d
  · subst hy
    simp
  · simp [hy]

/-! ## What an operation does to one directory -/

theorem deleteByDeno_ok {cache : List CacheEnt} (hnd : (cache.map CacheEnt.deno).Nodup) {c : CacheEnt}
    (hc : c ∈ deleteByDeno cache e) : c ∈ cache ∧ c.deno ≠ e := by
  refine ⟨List.mem_of_mem_eraseP hc, ?_⟩
  rintro rfl
  induction cache with
  | nil => cases hc
  | cons a cache ih =>
    obtain ⟨hnot, hnd⟩ := List.nodup_cons.1 hnd
    by_cases ha : a.deno = c.deno
    · rw [deleteByDeno, List.eraseP_cons_of_pos (by simpa using ha)] at hc
      exact hnot (ha ▸ List.mem_map_of_mem hc)
    · rw [deleteByDeno, List.eraseP_cons_of_neg (by simpa using ha)] at hc
      rcases List.mem_cons.1 hc with rfl | hc
      · exact ha rfl
      · exact ih hnd hc

theorem checkTarget_eq_ok (h : checkTarget fs i isdir = .ok u) : isdir = true → (fs.inode i).type = .dir := by
  rintro rfl
  simp only [checkTarget, bind_eq_ok, ensure_eq_ok, if_true] at h
  obtain ⟨-, -, -, hdir, -⟩ := h
  exact hdir

theorem type_of_path (hpath : pathCheck fs stk (if isdir then .dir else .file) = .ok u) :
    isdir = decide ((fs.inode stk.top.ino).type = .dir) := by
  obtain ⟨-, -, htype, -, -⟩ := pathCheck_eq_ok hpath
  cases isdir with
  | true => simpa using htype
  | false =>
    have hfile : (fs.inode stk.top.ino).type = .file := by simpa using htype
    simp [hfile]

section

variable {od o nd : Nat} {n : Option Nat} {oldname : Name}

/-- The records of a rename for the directory `d`, those of the removal of the target first. -/
def moveRecs (hash : Name → UInt32) (isdir : Bool) (od o : Nat) (oldname : Name) (nd : Nat) (name : Name) (d : Nat) :
    List DxRec :=
  (if d = od then [⟨.del, hash oldname, o, isdir⟩] else []) ++ if d = nd then [⟨.add, hash name, o, isdir⟩] else []

def targetRecs (hash : Name → UInt32) (isdir : Bool) (nd : Nat) (n : Option Nat) (name : Name) (d : Nat) : List DxRec :=
  if d = nd then n.toList.map fun i => ⟨.del, hash name, i, isdir⟩ else []

theorem recordRename_eq_ok (hok : recordRename hash v isdir od o oldname nd n name = .ok v') :
    v'.fs = v.fs ∧ v'.cache = v.cache ∧ ∀ y, v'.dirs y =
      if y = od ∨ y = nd then
        { v.dirs y with
          redo := (v.dirs y).redo ++ (targetRecs hash isdir nd n name y ++ moveRecs hash isdir od o oldname nd name y)
          cb := .inTx }
      else v.dirs y := by
  simp only [recordRename, bind_eq_ok] at hok
  obtain ⟨v₁, h₁, v₂, h₂, v₃, h₃, v₄, h₄, h₅⟩ := hok
  have hv₁ : v₁.fs = v.fs ∧ v₁.cache = v.cache ∧
      ∀ y, v₁.dirs y = { v.dirs y with redo := (v.dirs y).redo ++ targetRecs hash isdir nd n name y } := by
    cases n with
    | none =>
      cases h₁
      exact ⟨rfl, rfl, fun y => by simp [targetRecs]⟩
    | some i =>
      obtain ⟨hfs, hcache, hdirs⟩ := dxredoRecord_eq_ok h₁
      refine ⟨hfs, hcache, fun y => ?_⟩
      rw [hdirs y]
      by_cases hy : y = nd <;> simp [targetRecs, hy]
  obtain ⟨hfs₂, hcache₂, hdirs₂⟩ := dxredoRecord_eq_ok h₂
  obtain ⟨hfs₃, hcache₃, hdirs₃⟩ := dxredoRecord_eq_ok h₃
  obtain ⟨hfs₄, hcache₄, hdirs₄⟩ := setCallback_eq_ok h₄
  have hv₅ : v'.fs = v₄.fs ∧ v'.cache = v₄.cache ∧
      ∀ y, v'.dirs y = if y = nd then { v₄.dirs y with cb := .inTx } else v₄.dirs y := by
    split at h₅
    case isTrue => exact setCallback_eq_ok h₅
    case isFalse heq =>
      cases h₅
      refine ⟨rfl, rfl, fun y => ?_⟩
      split
      case isFalse => rfl
      case isTrue hy =>
        rw [hdirs₄ y, if_pos (hy.trans (not_not.1 heq))]
  refine ⟨by rw [hv₅.1, hfs₄, hfs₃, hfs₂, hv₁.1], by rw [hv₅.2.1, hcache₄, hcache₃, hcache₂, hv₁.2.1], fun y => ?_⟩
  rw [hv₅.2.2 y, hdirs₄ y, hdirs₃ y, hdirs₂ y, hv₁.2.2 y]
  by_cases hyo : y = od
  · subst hyo
    by_cases hyn : y = nd
    · subst hyn
      simp [moveRecs]
    · simp [moveRecs, targetRecs, hyn]
  · by_cases hyn : y = nd
    · subst hyn
      simp [moveRecs, hyo]
    · simp [targetRecs, hyo, hyn]

/-- The state between the removal of the target of a rename and the move of `o`. -/
structure Replaced (g : Geometry) (hash : Name → UInt32) (v : View) (fs₁ : Fs) (isdir : Bool) (nd : Nat) (n : Option Nat)
    (name : Name) : Prop where
  inv : ∃ ents, DirInv g fs₁ ents
  tree : ∀ e a, treeOf v.fs.de e = some a → n ≠ some a.ino → treeOf fs₁.de e = some a
  type : ∀ y, (fs₁.inode y).type = (v.fs.inode y).type
  same : ∀ d, d ≠ nd → (v.fs.inode d).type = .dir → Same v.fs fs₁ d
  turns : ∀ {recs Q sz'}, Turns hash recs (HasEntry fs₁ nd) (fs₁.inode nd).size Q sz' →
    Turns hash (targetRecs hash isdir nd n name nd ++ recs) (HasEntry v.fs nd) (v.fs.inode nd).size Q sz'
  sub : (forgetTarget v n).cache.Sublist v.cache
  cache : CacheOk fs₁ (forgetTarget v n).cache

variable (h : DirInv g fs ents)

include h

theorem added_same {d' : Nat} (ha : Added fs fs' d name isdir e i) (hd : d' ≠ d) (ht : (fs.inode d').type = .dir) :
    Same fs fs' d' := by
  have hdi : d' ≠ i := by
    rintro rfl
    rw [ha.new.1] at ht
    cases ht
  refine ⟨(ha.type d' hdi).trans ht, (ha.size d' hdi).trans (if_neg hd), fun nm x b => ?_⟩
  rw [ha.holds h]
  simp [hd]

theorem added_turns (ha : Added fs fs' d name isdir e i) : (fs'.inode d).type = .dir ∧
    Turns hash [⟨.add, hash name, i, isdir⟩] (HasEntry fs d) (fs.inode d).size (HasEntry fs' d) (fs'.inode d).size := by
  have hdi : d ≠ i := by
    rintro rfl
    cases ha.new.1.symm.trans ha.dir
  refine ⟨(ha.type d hdi).trans ha.dir, Turns.add ?_ ?_⟩
  · rintro nm b ⟨⟨y, ht⟩, -⟩
    cases (h.linked_of_tree ht).symm.trans ha.new.2
  · rw [ha.size d hdi, if_pos rfl]
    refine Turns.nil fun nm x b => ?_
    rw [ha.holds h]
    simp

theorem removed_same {d' : Nat} (hr : Removed fs fs' d i e) (ht : treeOf fs.de e = some ⟨i, d, name⟩) (hd : d' ≠ d)
    (htype : (fs.inode d').type = .dir) : Same fs fs' d' := by
  refine ⟨(hr.type d').trans htype, (hr.size d').trans (if_neg hd), fun nm x b => ?_⟩
  rw [hr.holds h]
  refine and_iff_left_of_imp ?_
  rintro hh rfl
  exact hd (h.holds_ino hh ⟨⟨e, ht⟩, rfl⟩).1

theorem turns_del (ht : treeOf fs.de e = some ⟨i, d, name⟩) (hisdir : isdir = true → (fs.inode i).type = .dir)
    (hrecs : Turns hash recs (fun nm j b => HasEntry fs d nm j b ∧ j ≠ i) (sz + -metaobjSize) Q sz') :
    Turns hash (⟨.del, hash name, i, isdir⟩ :: recs) (HasEntry fs d) sz Q sz' := by
  have hh : HasEntry fs d name i (decide ((fs.inode i).type = .dir)) := ⟨⟨e, ht⟩, rfl⟩
  refine Turns.del hh (fun nm b' hh' => ?_) (fun hb => decide_eq_true (hisdir hb)) hrecs
  obtain ⟨-, hnm, hb⟩ := h.holds_ino hh' hh
  exact ⟨hnm, hb⟩

theorem moved_turns (hm : Moved fs fs' od o nd name e) (ht : treeOf fs.de e = some ⟨o, od, oldname⟩)
    (hisdir : isdir = decide ((fs.inode o).type = .dir)) (hd : d = od ∨ d = nd) :
    Turns hash (moveRecs hash isdir od o oldname nd name d) (HasEntry fs d) (fs.inode d).size (HasEntry fs' d)
      (fs'.inode d).size := by
  have hdel : isdir = true → (fs.inode o).type = .dir := fun hb => of_decide_eq_true (hisdir.symm.trans hb)
  have hhere : ∀ {d nm b}, HasEntry fs d nm o b → d = od := fun hh => (h.holds_ino hh ⟨⟨e, ht⟩, rfl⟩).1
  have hsize : (fs'.inode d).size =
      if d = nd then (if d = od then (fs.inode d).size + -metaobjSize else (fs.inode d).size) + metaobjSize
      else if d = od then (fs.inode d).size + -metaobjSize else (fs.inode d).size := by
    rw [hm.inode, addSize_size, addSize_size]
  unfold moveRecs
  by_cases hdo : d = od
  · subst hdo
    by_cases hdn : d = nd
    · subst hdn
      rw [if_pos rfl, if_pos rfl] at hsize ⊢
      refine turns_del h ht hdel (Turns.add (fun nm b hh => hh.2 rfl) ?_)
      rw [hsize]
      refine Turns.nil fun nm x b => ?_
      rw [hm.holds h, hisdir]
      simp
    · rw [if_neg hdn, if_pos rfl] at hsize ⊢
      refine turns_del h ht hdel ?_
      rw [hsize]
      refine Turns.nil fun nm x b => ?_
      rw [hm.holds h]
      simp [hdn]
  · by_cases hdn : d = nd
    · subst hdn
      rw [if_neg hdo, if_pos rfl] at hsize ⊢
      refine Turns.add (fun nm b hh => hdo (hhere hh)) ?_
      rw [hsize]
      refine Turns.nil fun nm x b => ?_
      rw [hm.holds h, hisdir]
      refine or_congr (and_iff_left_of_imp ?_).symm (by simp)
      rintro hh rfl
      exact hdo (hhere hh)
    · exact absurd hd (not_or.2 ⟨hdo, hdn⟩)

theorem moved_same (hm : Moved fs fs' od o nd name e) (ht : treeOf fs.de e = some ⟨o, od, oldname⟩) (hdo : d ≠ od)
    (hdn : d ≠ nd) (htype : (fs.inode d).type = .dir) : Same fs fs' d := by
  refine ⟨(hm.type d).trans htype, ?_, fun nm x b => ?_⟩
  · rw [hm.inode, addSize_size, addSize_size, if_neg hdn, if_neg hdo]
  · rw [hm.holds h]
    constructor
    · rintro (⟨hh, -⟩ | ⟨hd, -⟩)
      · exact hh
      · exact absurd hd hdn
    · intro hh
      refine .inl ⟨hh, ?_⟩
      rintro rfl
      exact hdo (h.holds_ino hh ⟨⟨e, ht⟩, rfl⟩).1

/-- A valid stack whose top is not the root: the entry of the top. -/
theorem tree_of_path {type : InodeType} (hpath : pathCheck fs stk type = .ok u) (h0 : stk.top.ino ≠ 0) {e : Nat}
    (he : (fs.inode stk.top.ino).deno = some e) :
    treeOf fs.de e = some ⟨stk.top.ino, stk.parent.ino, stk.top.name⟩ := by
  obtain ⟨hdir, hname⟩ := h.parent hpath h0 he
  exact treeOf_eq_some.2 ⟨hdir, (h.linked _ e he).2.2.1, hname⟩

/-- A change of one inode, not a linked directory, that leaves the direntries alone. -/
theorem same_of_inode {d : Nat} (hde : fs'.de = fs.de) (hd : fs'.inode d = fs.inode d)
    (hkeep : ∀ y, (fs.inode y).deno ≠ none → (fs'.inode y).type = (fs.inode y).type) (ht : (fs.inode d).type = .dir) :
    Same fs fs' d := by
  refine ⟨hd ▸ ht, by rw [hd], fun nm y b => ?_⟩
  unfold HasEntry
  rw [hde]
  refine and_congr_right ?_
  rintro ⟨e, hte⟩
  rw [hkeep y (by simp [h.linked_of_tree hte])]

theorem release_same (hok : inodephyRelease fs i btime = .ok fs') :
    fs'.de = fs.de ∧ ∀ d, d ≠ i → (fs.inode d).type = .dir → Same fs fs' d := by
  simp only [inodephyRelease, bind_eq_ok, ensure_eq_ok, verify_eq_ok, pure_eq_ok] at hok
  obtain ⟨-, -, -, -, -, hnlink, -, -, rfl⟩ := hok
  refine ⟨rfl, fun d hd => same_of_inode h rfl (update_of_ne hd ..) fun y hy => ?_⟩
  obtain ⟨e, he⟩ := Option.ne_none_iff_exists'.1 hy
  have hyi : y ≠ i := by
    rintro rfl
    rw [(h.linked y e he).1] at hnlink
    cases hnlink
  dsimp only
  rw [update_of_ne hyi]

theorem file_same {head tail : Nat} {size : UInt64} (hok : fileModify fs i head tail size = .ok fs') :
    fs'.de = fs.de ∧ ∀ d, (fs.inode d).type = .dir → Same fs fs' d := by
  simp only [fileModify, bind_eq_ok, ensure_eq_ok, pure_eq_ok] at hok
  obtain ⟨-, hfile, rfl⟩ := hok
  refine ⟨rfl, fun d ht => ?_⟩
  have hd : d ≠ i := by
    rintro rfl
    cases ht.symm.trans hfile
  refine same_of_inode h rfl (update_of_ne hd ..) (fun y _ => ?_) ht
  by_cases hy : y = i
  · subst hy
    simp
  · simp [hy]

end

/-! ## Operations -/

/-- A successful operation. -/
structure Done (g : Geometry) (hash : Name → UInt32) (op : Op) (v v' : View) : Prop where
  exec : Dir.exec g v.fs op = .ok v'.fs
  dirs : ∀ d, DirEffect hash v.fs v'.fs d (v.dirs d) (v'.dirs d)
  sub : v'.cache.Sublist v.cache
  cache : CacheOk v'.fs v'.cache

section

variable {od o nd : Nat} {n : Option Nat} {oldname : Name}

variable (h : DirInv g v.fs ents) (hc : CacheOk v.fs v.cache)

include h hc

theorem ensureAbsent_eq_ok (hr : Ready hash v d) (hok : ensureAbsent hash v enabled d name = .ok v') :
    v' = v ∧ (v.dirs d).stale = false ∧ ∀ i b, ¬ HasEntry v.fs d name i b := by
  unfold ensureAbsent at hok
  rcases dirFind_spec enabled name h hc hr with ⟨r, v₁, hfind, -⟩ | ⟨hfind, hstale, hno⟩ | ⟨hfind, -⟩
  · rw [hfind] at hok
    cases hok
  · rw [hfind] at hok
    cases hok
    exact ⟨rfl, hstale, hno⟩
  · rw [hfind] at hok
    cases hok

theorem create_done (hr : Ready hash v stk.top.ino)
    (hok : memdirCreate g hash al enabled v stk name isdir btime = .ok v') :
    Done g hash (.create al stk name isdir btime) v v' := by
  simp only [memdirCreate, bind_eq_ok, ensure_eq_ok] at hok
  obtain ⟨-, hlen, u, hpath, v₁, habsent, hadd⟩ := hok
  obtain ⟨rfl, hstale, hno⟩ := ensureAbsent_eq_ok h hc hr habsent
  simp only [inodeDirAdd, bind_eq_ok, checkStale_eq_ok] at hadd
  obtain ⟨-, -, fs', hdir, ⟨inode, i⟩, halloc, v₂, hrec, hset⟩ := hadd
  have hmax := g.maxnamelen_le
  obtain ⟨e, i', inode', halloc', ha⟩ := h.dirAdd_added hdir (by omega)
  cases halloc.symm.trans halloc'
  obtain ⟨hfs₂, hcache₂, hdirs₂⟩ := dxredoRecord_eq_ok hrec
  obtain ⟨hfs', hcache', hdirs'⟩ := setCallback_eq_ok hset
  have hfs : v'.fs = fs' := hfs'.trans hfs₂
  have hcache : v'.cache = v₁.cache := hcache'.trans hcache₂
  refine ⟨?exec, fun d => ?dirs, by rw [hcache], ?cache⟩
  case exec =>
    have hfind := (not_listed_iff h ha.dir).2 hno
    simp only [Dir.exec, Dir.memdirCreate, bind_eq_ok, ensure_eq_ok]
    exact ⟨(), hlen, u, hpath, (), hfind, by rw [hfs]; exact hdir⟩
  case dirs =>
    rw [hfs, hdirs' d, hdirs₂ d]
    by_cases hd : d = stk.top.ino
    · subst hd
      obtain ⟨htype, hturns⟩ := added_turns h ha
      exact .recorded _ hstale hr.done htype hturns (by simp)
    · rw [if_neg hd, if_neg hd]
      exact .kept fun ht => added_same h ha hd ht
  case cache =>
    intro c hcin
    rw [hcache] at hcin
    rw [hfs, ha.tree, update_of_ne, hc c hcin]
    rintro heq
    cases ha.free.symm.trans (heq ▸ hc c hcin)

theorem release_done (hok : release v i btime = .ok v') : Done g hash (.release i btime) v v' := by
  simp only [release, bind_eq_ok, pure_eq_ok] at hok
  obtain ⟨fs', hrel, rfl⟩ := hok
  obtain ⟨hde, hsame⟩ := release_same h hrel
  exact ⟨hrel, (forall_update_iff v.dirs fun d => DirEffect hash v.fs fs' d (v.dirs d)).2
    ⟨.released, fun d hd => .kept (hsame d hd)⟩, .refl _, fun c hcin => hde ▸ hc c hcin⟩

variable (hnd : (v.cache.map CacheEnt.deno).Nodup)

include hnd

theorem remove_done (hr : Ready hash v stk.parent.ino) (hok : memdirXremove g hash al v stk isdir = .ok v') :
    Done g hash (.remove al stk isdir) v v' := by
  simp only [memdirXremove, inodeDirDel, bind_eq_ok, ensure_eq_ok, checkStale_eq_ok] at hok
  obtain ⟨u, hpath, -, h0, -, hstale, fs', hdel, v₂, hrec, hset⟩ := hok
  obtain ⟨e, hrem, -⟩ := h.dirDel_removed hdel fun e he => (h.parent hpath h0 he).1
  have ht := tree_of_path h hpath h0 hrem.deno
  have hisdir : isdir = true → (v.fs.inode stk.top.ino).type = .dir := by
    simp only [dirDel, bind_eq_ok] at hdel
    obtain ⟨-, -, _, htarget, -⟩ := hdel
    exact checkTarget_eq_ok htarget
  obtain ⟨hfs₂, hcache₂, hdirs₂⟩ := dxredoRecord_eq_ok hrec
  obtain ⟨hfs', hcache', hdirs'⟩ := setCallback_eq_ok hset
  have hfs : v'.fs = fs' := hfs'.trans hfs₂
  have hcache : v'.cache = deleteByDeno v.cache e := by
    rw [hcache', hcache₂]
    simp [forget, hrem.deno]
  refine ⟨?exec, fun d => ?dirs, by rw [hcache]; exact List.eraseP_sublist, fun c hcin => ?cache⟩
  case exec =>
    simp only [Dir.exec, Dir.memdirXremove, bind_eq_ok, ensure_eq_ok]
    exact ⟨u, hpath, (), h0, by rw [hfs]; exact hdel⟩
  case dirs =>
    rw [hfs, hdirs' d, hdirs₂ d]
    by_cases hd : d = stk.parent.ino
    · subst hd
      refine .recorded [⟨.del, hash stk.top.name, stk.top.ino, isdir⟩] hstale hr.done ((hrem.type _).trans hrem.dir)
        (turns_del h ht hisdir ?_) (by simp [forget])
      rw [hrem.size, if_pos rfl]
      exact Turns.nil fun nm x b => (hrem.holds h).symm
    · rw [if_neg hd, if_neg hd]
      exact .kept fun htype => removed_same h hrem ht hd htype
  case cache =>
    rw [hcache] at hcin
    obtain ⟨hcin, hne⟩ := deleteByDeno_ok hnd hcin
    rw [hfs, hrem.tree, update_of_ne hne, hc c hcin]

theorem dirReplace_replaced (hok : dirReplace g al v.fs nd n = .ok fs₁)
    (hold : ∀ i e, n = some i → (v.fs.inode i).deno = some e → treeOf v.fs.de e = some ⟨i, nd, name⟩)
    (hisdir : ∀ i, n = some i → isdir = true → (v.fs.inode i).type = .dir) : Replaced g hash v fs₁ isdir nd n name := by
  cases n with
  | none =>
    cases hok
    exact ⟨⟨ents, h⟩, fun e a ha _ => ha, fun _ => rfl, fun d _ ht => .refl ht, fun ht => by simpa [targetRecs] using ht,
      List.Sublist.refl _, hc⟩
  | some i =>
    obtain ⟨b, hdel⟩ : ∃ b, dirDel g al v.fs nd i none b = .ok fs₁ := by
      rw [dirReplace, bind_eq_ok] at hok
      obtain ⟨-, -, hok⟩ := hok
      split at hok
      · exact ⟨_, hok⟩
      · exact ⟨_, hok⟩
      · cases hok
    obtain ⟨e, hrem, hinv⟩ := h.dirDel_removed hdel fun e he => (treeOf_eq_some.1 (hold i e rfl he)).1
    have ht := hold i e rfl hrem.deno
    have hcache : (forgetTarget v (some i)).cache = deleteByDeno v.cache e := by simp [forgetTarget, forget, hrem.deno]
    refine ⟨hinv, fun e' a ha hne => ?tree, hrem.type, fun d hd htype => removed_same h hrem ht hd htype,
      fun hturns => ?turns, ?sub, fun c hcin => ?cache⟩
    case tree =>
      rw [hrem.tree, update_of_ne, ha]
      rintro rfl
      cases ha.symm.trans ht
      exact hne rfl
    case turns =>
      rw [targetRecs, if_pos rfl]
      refine turns_del h ht (hisdir i rfl) ?_
      rw [hrem.size, if_pos rfl] at hturns
      exact hturns.congr_left fun nm x b => (hrem.holds h).symm
    case sub =>
      rw [hcache]
      exact List.eraseP_sublist
    case cache =>
      rw [hcache] at hcin
      obtain ⟨hcin, hne⟩ := deleteByDeno_ok hnd hcin
      rw [hrem.tree, update_of_ne hne, hc c hcin]

/-- A rename that gets as far as the records. -/
theorem rename_done (hro : Ready hash v od) (hrn : Ready hash v nd) (ht : treeOf v.fs.de e = some ⟨o, od, oldname⟩)
    (hold : ∀ i e, n = some i → (v.fs.inode i).deno = some e → treeOf v.fs.de e = some ⟨i, nd, name⟩)
    (hisdir : isdir = decide ((v.fs.inode o).type = .dir))
    (htarget : ∀ i, n = some i → isdir = true → (v.fs.inode i).type = .dir) (hno : n ≠ some o)
    (hlen : name.length < 256) (hso : (v.dirs od).stale = false) (hsn : (v.dirs nd).stale = false)
    (hren : dirRename g al v.fs od o nd n name = .ok fs')
    (hrec : recordRename hash { forget (forgetTarget v n) o with fs := fs' } isdir od o oldname nd n name = .ok v') :
    v'.fs = fs' ∧ (∀ d, DirEffect hash v.fs v'.fs d (v.dirs d) (v'.dirs d)) ∧ v'.cache.Sublist v.cache ∧
      CacheOk v'.fs v'.cache := by
  simp only [dirRename, bind_eq_ok, checkDir_eq_ok, verify_eq_ok] at hren
  obtain ⟨-, hodtype, -, hndtype, -, -, fs₁, hrep, -, -, hmove⟩ := hren
  have hr : Replaced g hash v fs₁ isdir nd n name := dirReplace_replaced h hc hnd hrep hold htarget
  obtain ⟨ents₁, h₁⟩ := hr.inv
  have ht₁ := hr.tree e _ ht hno
  have hdeno₁ := h₁.linked_of_tree ht₁
  rw [hdeno₁] at hmove
  have hm := h₁.dirMove_moved hmove hdeno₁ (treeOf_eq_some.1 ht₁).1 hlen
  have hisdir₁ : isdir = decide ((fs₁.inode o).type = .dir) := by rw [hr.type, hisdir]
  obtain ⟨hfs, hcache, hdirs⟩ := recordRename_eq_ok hrec
  have hfs : v'.fs = fs' := hfs
  have hdirs₀ : (forget (forgetTarget v n) o).dirs = v.dirs := by cases n <;> rfl
  have hcache : v'.cache = deleteByDeno (forgetTarget v n).cache e := by
    have hfst : (forgetTarget v n).fs = v.fs := by cases n <;> rfl
    rw [hcache]
    simp [forget, hfst, h.linked_of_tree ht]
  refine ⟨hfs, fun d => ?dirs, ?sub, fun c hcin => ?cache⟩
  case dirs =>
    rw [hfs, hdirs d]
    dsimp only
    rw [hdirs₀]
    have htype : ∀ y, (fs'.inode y).type = (v.fs.inode y).type := fun y => (hm.type y).trans (hr.type y)
    by_cases hdn : d = nd
    · subst hdn
      rw [if_pos (.inr rfl)]
      exact .recorded _ hsn hrn.done ((htype d).trans hndtype) (hr.turns (moved_turns h₁ hm ht₁ hisdir₁ (.inr rfl))) rfl
    · by_cases hdo : d = od
      · subst hdo
        rw [if_pos (.inl rfl), targetRecs, if_neg hdn]
        have hs := hr.same d hdn hodtype
        refine .recorded _ hso hro.done ((htype d).trans hodtype) ?_ rfl
        rw [← hs.size]
        exact (moved_turns h₁ hm ht₁ hisdir₁ (.inl rfl)).congr_left fun nm x b => (hs.holds nm x b).symm
      · rw [if_neg (not_or.2 ⟨hdo, hdn⟩)]
        refine .kept fun htd => (hr.same d hdn htd).trans (moved_same h₁ hm ht₁ hdo hdn ((hr.type d).trans htd))
  case sub =>
    rw [hcache]
    exact List.eraseP_sublist.trans hr.sub
  case cache =>
    rw [hcache] at hcin
    obtain ⟨hcin, hne⟩ := deleteByDeno_ok (hnd.sublist (hr.sub.map _)) hcin
    rw [hfs, hm.tree, update_of_ne hne, hr.cache c hcin]

theorem inodeDirRename_done (hro : Ready hash v od) (hrn : Ready hash v nd)
    (ht : o ≠ 0 → treeOf v.fs.de e = some ⟨o, od, oldname⟩)
    (hold : n ≠ some 0 → ∀ i e, n = some i → (v.fs.inode i).deno = some e → treeOf v.fs.de e = some ⟨i, nd, name⟩)
    (hisdir : isdir = decide ((v.fs.inode o).type = .dir))
    (htarget : ∀ i, n = some i → isdir = true → (v.fs.inode i).type = .dir) (hlen : name.length < 256)
    (hok : inodeDirRename g hash al v isdir od o oldname nd n name = .ok v') :
    Dir.inodeDirRename g al v.fs od o nd n name = .ok v'.fs ∧
      (∀ d, DirEffect hash v.fs v'.fs d (v.dirs d) (v'.dirs d)) ∧ v'.cache.Sublist v.cache ∧ CacheOk v'.fs v'.cache := by
  simp only [inodeDirRename, bind_eq_ok, ensure_eq_ok] at hok
  obtain ⟨u, ⟨ho, hn⟩, hok⟩ := hok
  simp only [Dir.inodeDirRename, bind_eq_ok, ensure_eq_ok]
  split at hok
  case isTrue heq =>
    cases hok
    exact ⟨⟨u, ⟨ho, hn⟩, by rw [if_pos heq]; rfl⟩, fun d => .kept .refl, .refl _, hc⟩
  case isFalse hno =>
    simp only [bind_eq_ok, checkStale_eq_ok] at hok
    obtain ⟨-, hso, -, hsn, fs', hren, hrec⟩ := hok
    obtain ⟨hfs, hrest⟩ := rename_done h hc hnd hro hrn (ht ho) (hold hn) hisdir htarget hno hlen hso hsn hren hrec
    exact ⟨⟨u, ⟨ho, hn⟩, by rw [if_neg hno, hfs]; exact hren⟩, hrest⟩

theorem xrename_done {ostk nstk : Instack} {newname : Option Name}
    (hr : ∀ d ∈ Op.dirs (.rename al isdir ostk nstk newname), Ready hash v d)
    (hok : memdirXrename g hash al enabled v isdir ostk nstk newname = .ok v') :
    Done g hash (.rename al isdir ostk nstk newname) v v' := by
  have hmax := g.maxnamelen_le
  simp only [memdirXrename, bind_eq_ok] at hok
  obtain ⟨u, hopath, hok⟩ := hok
  obtain ⟨e, he, -⟩ := pathCheck_eq_ok hopath
  have hro := hr ostk.parent.ino List.mem_cons_self
  have hisdir := type_of_path hopath
  have ht := fun h0 => tree_of_path h hopath h0 he
  cases newname with
  | none =>
    simp only [bind_eq_ok, ensure_eq_ok] at hok
    obtain ⟨-, hlen, u', hnpath, hok⟩ := hok
    have hrn := hr nstk.parent.ino (List.mem_cons_of_mem _ List.mem_cons_self)
    have hold : some nstk.top.ino ≠ some 0 → ∀ i e', some nstk.top.ino = some i → (v.fs.inode i).deno = some e' →
        treeOf v.fs.de e' = some ⟨i, nstk.parent.ino, nstk.top.name⟩ := by
      rintro hn i e' ⟨⟩ he'
      exact tree_of_path h hnpath (fun h0 => hn (congrArg some h0)) he'
    have htarget : ∀ i, some nstk.top.ino = some i → isdir = true → (v.fs.inode i).type = .dir := by
      rintro i ⟨⟩ hb
      exact of_decide_eq_true ((type_of_path hnpath).symm.trans hb)
    obtain ⟨hexec, hdirs, hsub, hcache⟩ := inodeDirRename_done h hc hnd hro hrn ht hold hisdir htarget (by omega) hok
    refine ⟨?_, hdirs, hsub, hcache⟩
    simp only [Dir.exec, Dir.memdirXrename, bind_eq_ok, ensure_eq_ok]
    exact ⟨u, hopath, (), hlen, u', hnpath, hexec⟩
  | some name =>
    simp only [bind_eq_ok, ensure_eq_ok] at hok
    obtain ⟨-, hlen, u', hnpath, v₁, habsent, hok⟩ := hok
    have hrn := hr nstk.top.ino (List.mem_cons_of_mem _ List.mem_cons_self)
    obtain ⟨rfl, -, hno⟩ := ensureAbsent_eq_ok h hc hrn habsent
    have hlen' : name.length < 256 := by omega
    obtain ⟨hexec, hdirs, hsub, hcache⟩ :=
      inodeDirRename_done h hc hnd hro hrn ht (fun _ i e' hi => by cases hi) hisdir (fun i hi => by cases hi) hlen' hok
    obtain ⟨-, -, htype, -, -⟩ := pathCheck_eq_ok hnpath
    have hfind := (not_listed_iff h (htype.resolve_left (by decide))).2 hno
    refine ⟨?_, hdirs, hsub, hcache⟩
    simp only [Dir.exec, Dir.memdirXrename, bind_eq_ok, ensure_eq_ok]
    exact ⟨u, hopath, (), hlen, u', hnpath, (), hfind, hexec⟩

theorem exec_done {op : Op} (hr : ∀ d ∈ Op.dirs op, Ready hash v d) (hok : exec g hash enabled v op = .ok v') :
    Done g hash op v v' := by
  cases op with
  | create al stk name isdir btime => exact create_done h hc (hr _ List.mem_cons_self) hok
  | remove al stk isdir => exact remove_done h hc hnd (hr _ List.mem_cons_self) hok
  | rename al isdir ostk nstk newname => exact xrename_done h hc hnd hr hok
  | release i btime => exact release_done h hc hok
  | file i head tail size =>
    simp only [exec, bind_eq_ok, pure_eq_ok] at hok
    obtain ⟨fs', hfile, rfl⟩ := hok
    obtain ⟨hde, hsame⟩ := file_same h hfile
    exact ⟨hfile, fun d => .kept (hsame d), .refl _, fun c hcin => hde ▸ hc c hcin⟩

end

/-! ## Assertions -/

theorem bind_eq_error {ε α β : Type} {x : Except ε α} {f : α → Except ε β} {err : ε} :
    (x >>= f) = .error err ↔ x = .error err ∨ ∃ a, x = .ok a ∧ f a = .error err := by
  cases x with
  | error e => simp [bind, Except.bind]
  | ok a => simp [bind, Except.bind]

theorem ensure_eq_error {c : Prop} [Decidable c] {n : Errno} (h : ensure c n = .error f) : ∃ n, f = .errno n := by
  unfold ensure at h
  split at h
  · cases h
  · cases h
    exact ⟨n, rfl⟩

theorem ensureAbsent_eq_error (h : DirInv g v.fs ents) (hc : CacheOk v.fs v.cache) (hr : Ready hash v d)
    (hf : ensureAbsent hash v enabled d name = .error f) : ∃ n, f = .errno n := by
  unfold ensureAbsent at hf
  rcases dirFind_spec enabled name h hc hr with ⟨i, v₁, hfind, -⟩ | ⟨hfind, -⟩ | ⟨hfind, -⟩
  · rw [hfind] at hf
    cases hf
    exact ⟨_, rfl⟩
  · rw [hfind] at hf
    cases hf
  · rw [hfind] at hf
    cases hf
    exact ⟨_, rfl⟩

theorem dxredoRecord_ok (hlen : (v.dirs d).redo.length < 4) : ∃ v', dxredoRecord hash v d op name i isdir = .ok v' := by
  simp only [dxredoRecord, bind_eq_ok, pure_eq_ok]
  exact ⟨_, (), verify_eq_ok.2 hlen, rfl⟩

theorem setCallback_ok (hcb : (v.dirs d).cb = .done) : ∃ v', setCallback v d = .ok v' := by
  simp only [setCallback, bind_eq_ok, pure_eq_ok]
  exact ⟨_, (), verify_eq_ok.2 hcb, rfl⟩

/-- One record and the callback of an inode that has neither. -/
theorem record_ok (hredo : (v.dirs d).redo = []) (hcb : (v.dirs d).cb = .done) :
    (dxredoRecord hash v d op name i isdir >>= fun v => setCallback v d) ≠ .error f := by
  intro hf
  obtain ⟨v₁, h₁⟩ : ∃ v₁, dxredoRecord hash v d op name i isdir = .ok v₁ := dxredoRecord_ok (by simp [hredo])
  obtain ⟨-, -, hdirs⟩ := dxredoRecord_eq_ok h₁
  obtain ⟨v₂, h₂⟩ : ∃ v₂, setCallback v₁ d = .ok v₂ := setCallback_ok (by simp [hdirs, hcb])
  rw [h₁] at hf
  cases h₂.symm.trans hf

theorem dxredoRecord_grows (h : dxredoRecord hash v d op name i isdir = .ok v') (y : Nat) :
    (v'.dirs y).cb = (v.dirs y).cb ∧ (v'.dirs y).redo.length ≤ (v.dirs y).redo.length + 1 := by
  obtain ⟨-, -, hdirs⟩ := dxredoRecord_eq_ok h
  rw [hdirs]
  split <;> simp

/-- A rename notes at most three records in one inode. -/
theorem recordRename_ok {od o nd : Nat} {n : Option Nat} {oldname : Name} (hro : (v.dirs od).redo = [])
    (hco : (v.dirs od).cb = .done) (hrn : (v.dirs nd).redo = []) (hcn : (v.dirs nd).cb = .done) :
    ∃ v', recordRename hash v isdir od o oldname nd n name = .ok v' := by
  obtain ⟨v₁, h₁, hv₁⟩ : ∃ v₁, recordTarget hash v isdir nd name n = .ok v₁ ∧ ∀ y,
      (v₁.dirs y).cb = (v.dirs y).cb ∧ (v₁.dirs y).redo.length ≤ (v.dirs y).redo.length + 1 := by
    cases n with
    | none => exact ⟨v, rfl, fun y => ⟨rfl, Nat.le_succ _⟩⟩
    | some n =>
      obtain ⟨v₁, h₁⟩ : ∃ v₁, dxredoRecord hash v nd .del name n isdir = .ok v₁ := dxredoRecord_ok (by simp [hrn])
      exact ⟨v₁, h₁, dxredoRecord_grows h₁⟩
  have hlo := (hv₁ od).2
  have hln := (hv₁ nd).2
  rw [hro, List.length_nil] at hlo
  rw [hrn, List.length_nil] at hln
  obtain ⟨v₂, h₂⟩ : ∃ v₂, dxredoRecord hash v₁ od .del oldname o isdir = .ok v₂ := dxredoRecord_ok (by omega)
  have hv₂ := dxredoRecord_grows h₂
  have hln₂ := (hv₂ nd).2
  obtain ⟨v₃, h₃⟩ : ∃ v₃, dxredoRecord hash v₂ nd .add name o isdir = .ok v₃ := dxredoRecord_ok (by omega)
  have hcb₃ : ∀ y, (v₃.dirs y).cb = (v.dirs y).cb := fun y =>
    (dxredoRecord_grows h₃ y).1.trans ((hv₂ y).1.trans (hv₁ y).1)
  obtain ⟨v₄, h₄⟩ := setCallback_ok ((hcb₃ od).trans hco)
  obtain ⟨v₅, h₅⟩ : ∃ v₅, (if nd ≠ od then setCallback v₄ nd else pure v₄) = .ok v₅ := by
    split
    case isFalse => exact ⟨v₄, rfl⟩
    case isTrue hne =>
      obtain ⟨-, -, hdirs₄⟩ := setCallback_eq_ok h₄
      exact setCallback_ok (by rw [hdirs₄, if_neg hne, hcb₃, hcn])
  simp only [recordRename, bind_eq_ok]
  exact ⟨v₅, v₁, h₁, v₂, h₂, v₃, h₃, v₄, h₄, h₅⟩

/-- What `x` fails with is an error, or what `y` fails with. -/
def FailsAs {α β : Type} (x : Except Fail α) (y : Except Fail β) : Prop :=
  ∀ f, x = .error f → (∃ n, f = .errno n) ∨ y = .error f

namespace FailsAs

variable {α β γ : Type} {x : Except Fail α} {y : Except Fail β} {k : α → Except Fail γ} {l : α → Except Fail β}

theorem both (h : ∀ a, x = .ok a → FailsAs (k a) (l a)) : FailsAs (x >>= k) (x >>= l) := by
  intro f hf
  rcases bind_eq_error.1 hf with hf | ⟨a, ha, hf⟩
  · exact .inr (bind_eq_error.2 (.inl hf))
  · exact (h a ha f hf).imp_right fun hl => bind_eq_error.2 (.inr ⟨a, ha, hl⟩)

theorem check (hx : ∀ f, x = .error f → ∃ n, f = .errno n) (h : ∀ a, x = .ok a → FailsAs (k a) y) :
    FailsAs (x >>= k) y := by
  intro f hf
  rcases bind_eq_error.1 hf with hf | ⟨a, ha, hf⟩
  · exact .inl (hx f hf)
  · exact h a ha f hf

/-- The calls that follow the last one of the second. -/
theorem last (h : ∀ a, x = .ok a → ∀ f, k a ≠ .error f) : FailsAs (x >>= k) x := by
  intro f hf
  rcases bind_eq_error.1 hf with hf | ⟨a, ha, hf⟩
  · exact .inr hf
  · exact absurd hf (h a ha f)

end FailsAs

theorem create_error (h : DirInv g v.fs ents) (hc : CacheOk v.fs v.cache) (hr : Ready hash v stk.top.ino) :
    FailsAs (memdirCreate g hash al enabled v stk name isdir btime)
      (Dir.memdirCreate g al v.fs stk name isdir btime) := by
  refine .both fun _ hlen => .both fun _ hpath => .check (fun _ => ensureAbsent_eq_error h hc hr) fun v₁ habsent => ?_
  obtain ⟨rfl, -, hno⟩ := ensureAbsent_eq_ok h hc hr habsent
  obtain ⟨-, -, htype, -, -⟩ := pathCheck_eq_ok hpath
  rw [ensure, if_pos ((not_listed_iff h (htype.resolve_left (by decide))).2 hno)]
  refine .check (fun _ => ensure_eq_error) fun _ _ => .last fun fs' hadd f => ?_
  have hmax := g.maxnamelen_le
  have hlen' := ensure_eq_ok.1 hlen
  obtain ⟨e, i, inode, halloc, -⟩ := h.dirAdd_added hadd (by omega)
  rw [halloc]
  exact record_ok hr.redo hr.done

theorem remove_error (hr : Ready hash v stk.parent.ino) :
    FailsAs (memdirXremove g hash al v stk isdir) (Dir.memdirXremove g al v.fs stk isdir) := by
  refine .both fun _ _ => .both fun _ _ => .check (fun _ => ensure_eq_error) fun _ _ => .last fun fs' _ f => ?_
  exact record_ok hr.redo hr.done

theorem inodeDirRename_error {od o nd : Nat} {n : Option Nat} {oldname : Name} (hro : Ready hash v od)
    (hrn : Ready hash v nd) : FailsAs (inodeDirRename g hash al v isdir od o oldname nd n name)
      (Dir.inodeDirRename g al v.fs od o nd n name) := by
  refine .both fun _ _ => ?_
  split
  case isTrue => exact nofun
  case isFalse =>
    refine .check (fun _ => ensure_eq_error) fun _ _ => .check (fun _ => ensure_eq_error) fun _ _ =>
      .last fun fs' _ f hf => ?_
    have hdirs : (forget (forgetTarget v n) o).dirs = v.dirs := by cases n <;> rfl
    obtain ⟨v', hok⟩ : ∃ v', recordRename hash { forget (forgetTarget v n) o with fs := fs' } isdir od o oldname nd n name =
        .ok v' := recordRename_ok (by simp [hdirs, hro.redo]) (by simp [hdirs, hro.done]) (by simp [hdirs, hrn.redo])
          (by simp [hdirs, hrn.done])
    cases hok.symm.trans hf

theorem xrename_error {ostk nstk : Instack} {newname : Option Name} (h : DirInv g v.fs ents)
    (hc : CacheOk v.fs v.cache) (hr : ∀ d ∈ Op.dirs (.rename al isdir ostk nstk newname), Ready hash v d) :
    FailsAs (memdirXrename g hash al enabled v isdir ostk nstk newname)
      (Dir.memdirXrename g al v.fs isdir ostk nstk newname) := by
  have hro := hr ostk.parent.ino List.mem_cons_self
  refine .both fun _ _ => ?_
  cases newname with
  | none =>
    have hrn := hr nstk.parent.ino (List.mem_cons_of_mem _ List.mem_cons_self)
    exact .both fun _ _ => .both fun _ _ => inodeDirRename_error hro hrn
  | some name =>
    have hrn := hr nstk.top.ino (List.mem_cons_of_mem _ List.mem_cons_self)
    refine .both fun _ _ => .both fun _ hnpath => .check (fun _ => ensureAbsent_eq_error h hc hrn) fun v₁ habsent => ?_
    obtain ⟨rfl, -, hno⟩ := ensureAbsent_eq_ok h hc hrn habsent
    obtain ⟨-, -, htype, -, -⟩ := pathCheck_eq_ok hnpath
    rw [ensure, if_pos ((not_listed_iff h (htype.resolve_left (by decide))).2 hno)]
    exact inodeDirRename_error hro hrn

/-- An operation fails an assertion only if `pfs_dir.cc` fails it. -/
theorem exec_error {op : Op} (h : DirInv g v.fs ents) (hc : CacheOk v.fs v.cache)
    (hr : ∀ d ∈ Op.dirs op, Ready hash v d) (hf : exec g hash enabled v op = .error f) :
    (∃ n, f = .errno n) ∨ Dir.exec g v.fs op = .error f := by
  cases op with
  | create al stk name isdir btime => exact create_error h hc (hr _ List.mem_cons_self) f hf
  | remove al stk isdir => exact remove_error (hr _ List.mem_cons_self) f hf
  | rename al isdir ostk nstk newname => exact xrename_error h hc hr f hf
  | release | file => exact FailsAs.last (fun _ _ _ hk => by cases hk) f hf

end PolarFs.Dir.Index
