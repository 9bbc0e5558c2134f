/-
The walk of `pfs_namei_lookup` over the components of a path. A reference resolves them one by one in the directories
(`resolve`). The invariant of the loop: the stack is the way from the root to the inode reached (`Spells`), its string
is the path of that inode, and the rest of the path still fits behind it; a turn does what the reference does with
the component (`At.turn`).
-/
import PolarFs.Dir.IndexInvariant
import PolarFs.Dir.Namei

namespace PolarFs.Dir.Namei

open CString
open PolarFs.Meta (InodeType)
open Index (View Found inodeReload namecacheLookup dirFind Ready CacheOk DirOk)

/-! ## Component by component -/

/-- The inode under a name in the entry list of a directory. -/
def childOf (g : Geometry) (fs : Fs) (d : Nat) (name : Name) : Option Nat :=
  (inodeDirFind g fs d name).bind fun e => (fs.de e).ino

/-- The directory an inode is in; that of the root is the root. -/
def parentOf (fs : Fs) (i : Nat) : Nat := if i = 0 then 0 else ((fs.inode i).deno.bind fun e => (fs.de e).dirino).getD 0

/-- One component from the inode `cur` on. -/
def resolveOne (g : Geometry) (fs : Fs) (cur : Nat) (name : Name) : Except Errno Nat :=
  if g.maxnamelen ≤ name.length then .error .enametoolong
  else if (fs.inode cur).type ≠ .dir then .error .enotdir
  else if name = [46] then .ok cur
  else if name = [46, 46] then .ok (parentOf fs cur)
  else
    match childOf g fs cur name with
    | some i => .ok i
    | none => .error .enoent

inductive Resolution where
  | found (ino : Nat)
  /-- the last component is not in the directory -/
  | missing (dir : Nat) (name : Name)
  /-- the path ends before its last component, or not with its absence -/
  | broken (last : Nat) (e : Errno)
  deriving DecidableEq, Repr

def resolve (g : Geometry) (fs : Fs) : Nat → List Name → Resolution
  | cur, [] => .found cur
  | cur, name :: names =>
    match resolveOne g fs cur name with
    | .ok i => resolve g fs i names
    | .error e => if e = .enoent ∧ names = [] then .missing cur name else .broken cur e

/-- What the caller is told. -/
inductive Answer where
  | found (dir ino : Nat) (type : InodeType)
  | missing (dir : Nat) (name : Name)
  | failed (last : Nat) (e : Errno)
  deriving DecidableEq, Repr

/-- The answer to a lookup that wants the type `tgt`. -/
def answer (fs : Fs) (tgt : InodeType) (oflags : Oflags) : Resolution → Answer
  | .missing d name => .missing d name
  | .broken last e => .failed last e
  | .found i =>
    if oflags.excl = true ∧ oflags.creat = true then .failed i .eexist
    else if tgt ≠ .none ∧ (fs.inode i).type ≠ tgt then
      .failed i (if (fs.inode i).type = .dir then .eisdir else .enotdir)
    else .found (parentOf fs i) i (fs.inode i).type

/-- The answer a return of `pfs_namei_lookup` gives. A failure leaves the last inode there was on the stack. -/
def Looked.Gives (r : Looked) : Answer → Prop
  | .found d i t => r.err = none ∧ r.ni.brokenPath = false ∧ r.ni.ino = some i ∧ r.dirin = some d ∧ r.tgtin = some i ∧
      r.type = some t
  | .missing d name => r.err = some .enoent ∧ r.ni.brokenPath = false ∧ r.ni.parIno = d ∧ r.ni.srchName = name ∧
      r.ni.ino = none ∧ r.dirin = some d ∧ r.tgtin = none
  | .failed last e => r.err = some e ∧ (e = .enoent → r.ni.brokenPath = true) ∧
      ∃ se ∈ r.ni.instk.vec.head?, se.ino = last

/-! ## Directories -/

theorem ensure_bind {β : Type} {c : Prop} [Decidable c] {e : Errno} {f : Unit → Except Fail β} (hc : c) :
    (ensure c e >>= f) = f () := by
  rw [ensure, if_pos hc]
  rfl

theorem ensure_bind_error {β : Type} {c : Prop} [Decidable c] {e : Errno} {f : Unit → Except Fail β} (hc : ¬ c) :
    (ensure c e >>= f) = .error (.errno e) := by
  rw [ensure, if_neg hc]
  rfl

theorem verify_bind {β : Type} {c : Prop} [Decidable c] {f : Unit → Except Fail β} (hc : c) : (verify c >>= f) = f () := by
  rw [verify, if_pos hc]
  rfl

section

variable {g : Geometry} {hash : Name → UInt32} {enabled : Bool} {fs : Fs} {ents : Nat → List Nat} {pbd name : Name}
  {d e i cur room : Nat} {v v' : View} {s : List UInt8} {vec : List Stkent} {stk : Instk} {w w' : Walk} {tgt : InodeType}

theorem childOf_eq_some (h : DirInv g fs ents) (hd : (fs.inode d).type = .dir)
    (ht : treeOf fs.de e = some ⟨i, d, name⟩) : childOf g fs d name = some i := by
  unfold childOf
  cases hfind : inodeDirFind g fs d name with
  | none => exact absurd ⟨⟨e, ht⟩, rfl⟩ ((Index.not_listed_iff h hd).1 hfind i _)
  | some e' =>
    rw [inodeDirFind, h.entries_eq hd] at hfind
    obtain ⟨i', nm, hi', hnm, ht'⟩ := h.holds_of_mem (List.mem_of_find?_eq_some hfind)
    have heq : direntryGetname fs.de e' = some name := by simpa using List.find?_some hfind
    obtain rfl : nm = name := Option.some.inj (hnm.symm.trans heq)
    obtain rfl := h.tree.nameInj ht ht' rfl rfl
    rw [ht'] at ht
    cases ht
    exact hi'

theorem childOf_eq_none (h : DirInv g fs ents) (hd : (fs.inode d).type = .dir)
    (hno : ∀ i b, ¬ HasEntry fs d name i b) : childOf g fs d name = none := by
  rw [childOf, (Index.not_listed_iff h hd).2 hno]
  rfl

theorem parentOf_eq (h : DirInv g fs ents) (ht : treeOf fs.de e = some ⟨i, d, name⟩) : parentOf fs i = d := by
  rw [parentOf, if_neg (h.tree.noRoot ht), h.linked_of_tree ht, Option.bind_some, (treeOf_eq_some.1 ht).1]
  rfl

theorem dirInfo_eq (h : DirInv g fs ents) (hd : (fs.inode d).type = .dir) (hl : (fs.inode d).deno ≠ none) :
    dirInfo fs d = .ok (parentOf fs d) ∧ ∃ nm, dirInfoName fs d = .ok nm := by
  by_cases h0 : d = 0
  · subst h0
    exact ⟨rfl, [], rfl⟩
  obtain ⟨e, he⟩ := Option.ne_none_iff_exists'.1 hl
  obtain ⟨-, -, hino, hdir⟩ := h.linked d e he
  obtain ⟨p, hp⟩ := Option.ne_none_iff_exists'.1 (hdir h0)
  obtain ⟨i, nm, ht, -, -, -⟩ := h.treeOf_primary hp
  have hname := (treeOf_eq_some.1 ht).2.2
  constructor
  · simp [dirInfo, parentOf, h0, hd, he, hino, hp, ensure, verify, bind, Except.bind, pure, Except.pure]
  · exact ⟨nm, by simp [dirInfoName, h0, he, hname]⟩

/-! ## Searching a name -/

/-- What a thread sees of the metadata `fs` while nothing changes. -/
structure ViewOk (g : Geometry) (hash : Name → UInt32) (fs : Fs) (v : View) : Prop where
  same : v.fs = fs
  inv : ∃ ents, DirInv g fs ents
  cache : CacheOk fs v.cache
  ready : ∀ d, Ready hash v d

theorem ViewOk.reload (hv : ViewOk g hash fs v) (hd : (fs.inode d).type = .dir) :
    ∃ m, inodeReload g hash fs d (v.dirs d) = .ok m ∧ m.stale = false ∧
      ViewOk g hash fs { v with dirs := Function.update v.dirs d m } := by
  obtain ⟨ents, h⟩ := hv.inv
  obtain ⟨root, hbuild, -⟩ := Index.buildDindex_indexes hash h hd
  obtain ⟨m, hok, hst, hcb⟩ : ∃ m, inodeReload g hash fs d (v.dirs d) = .ok m ∧ m.stale = false ∧
      m.cb = (v.dirs d).cb := by
    refine ⟨{ v.dirs d with root := root, size := (fs.inode d).size, redo := [], stale := false }, ?_, rfl, rfl⟩
    simp [inodeReload, hd, hbuild, ensure, bind, Except.bind, pure, Except.pure]
  have hdone := (hv.ready d).done
  have hm := Index.inodeReload_ok h hdone hok
  rw [← hv.same] at hm
  refine ⟨m, hok, hst, hv.same, hv.inv, hv.cache, fun d' => ?_⟩
  by_cases hdd : d' = d
  · have hr : Ready hash { v with dirs := fun _ => m } d := hm.ready (hcb.trans hdone)
    subst hdd
    exact ⟨by simpa using hr.done, by simpa using hr.redo, by simpa using hr.fresh⟩
  · have hr := hv.ready d'
    exact ⟨by simpa [hdd] using hr.done, by simpa [hdd] using hr.redo, by simpa [hdd] using hr.fresh⟩

theorem ViewOk.sync (hv : ViewOk g hash fs v) (hd : (fs.inode d).type = .dir) :
    ∃ v', inodeSyncFirst g hash v d (fs.inode d).btime = .ok v' ∧ (v'.dirs d).stale = false ∧ ViewOk g hash fs v' := by
  have hdone := (hv.ready d).done
  cases hst : (v.dirs d).stale with
  | false =>
    refine ⟨v, ?_, hst, hv⟩
    simp [inodeSyncFirst, hdone, hst, hv.same, hd, ensure, bind, Except.bind, pure, Except.pure]
  | true =>
    obtain ⟨m, hm, hmst, hv'⟩ := hv.reload hd
    refine ⟨_, ?_, by simpa using hmst, hv'⟩
    simp [inodeSyncFirst, hdone, hst, hv.same, hd, hm, ensure, bind, Except.bind, pure, Except.pure]

theorem ViewOk.sync_error (hv : ViewOk g hash fs v) (hnone : (fs.inode d).type ≠ .none) (hd : (fs.inode d).type ≠ .dir) :
    inodeSyncFirst g hash v d (fs.inode d).btime = .error (.errno .enotdir) := by
  simp [inodeSyncFirst, (hv.ready d).done, hv.same, hnone, hd, ensure, bind, Except.bind, pure, Except.pure]

theorem dirFind_frame {r : Found} (hok : dirFind hash v enabled d name = .ok (r, v')) :
    v'.fs = v.fs ∧ v'.dirs = v.dirs := by
  unfold dirFind at hok
  split at hok
  · cases hok
    exact ⟨rfl, rfl⟩
  · simp only [bind_eq_ok, pure_eq_ok, Prod.mk.injEq] at hok
    obtain ⟨-, -, -, -, -, -, -, rfl⟩ := hok
    exact ⟨rfl, rfl⟩

/-- What a search in `d` finds. -/
def search (g : Geometry) (fs : Fs) (d : Nat) (name : Name) : Except Errno Found :=
  if (fs.inode d).type ≠ .dir then .error .enotdir
  else
    match childOf g fs d name with
    | some i => .ok (Found.mk' fs i)
    | none => .error .enoent

theorem search_of_tree (h : DirInv g fs ents) (ht : treeOf fs.de e = some ⟨i, d, name⟩) :
    search g fs d name = .ok (Found.mk' fs i) := by
  have hd := (h.primary e d (treeOf_eq_some.1 ht).1).2.1
  rw [search, if_neg (not_not.2 hd), childOf_eq_some h hd ht]

/-- A search in the cache and the index answers what the entry list says. -/
theorem nameiFind_eq (enabled : Bool) (hv : ViewOk g hash fs v) (hnone : (fs.inode d).type ≠ .none) (hdot : name ≠ [46]) :
    ∃ v', ViewOk g hash fs v' ∧
      nameiFind g hash enabled v d (fs.inode d).btime name = .ok (search g fs d name, v') := by
  obtain ⟨ents, h⟩ := hv.inv
  have htree : ∀ {u : View} {i : Nat} {u' : View}, ViewOk g hash fs u → dirFind hash u enabled d name = .ok (Found.mk' fs i, u') →
      search g fs d name = .ok (Found.mk' fs i) ∧ ViewOk g hash fs u' := by
    intro u i u' hu hfind
    obtain ⟨hfs', hdirs'⟩ := dirFind_frame hfind
    have hu' := hu.same
    rcases Index.dirFind_spec enabled name (hu'.symm ▸ h) (hu'.symm ▸ hu.cache) (hu.ready d) with
      ⟨j, u₁, hok, hent, ⟨-, hd⟩ | ⟨e, ht⟩⟩ | ⟨hok, -⟩ | ⟨hok, -⟩
    · exact absurd hd hdot
    · rw [hu'] at hok hent ht
      cases hfind.symm.trans hok
      refine ⟨search_of_tree h ht, hfs'.trans hu', hu.inv, hent.ok, fun d' => ?_⟩
      obtain ⟨hdone, hredo, hfresh⟩ := hu.ready d'
      exact ⟨by rwa [hdirs'], by rwa [hdirs'], by rwa [hdirs', hfs']⟩
    · cases hfind.symm.trans hok
    · cases hfind.symm.trans hok
  unfold nameiFind
  cases hlook : namecacheLookup v.cache enabled d name with
  | some i =>
    have hfind : dirFind hash v enabled d name = .ok (Found.mk' fs i, v) := by simp [dirFind, hlook, hv.same]
    refine ⟨v, hv, ?_⟩
    rw [(htree hv hfind).1]
    simp [hv.same]
  | none =>
    by_cases hd : (fs.inode d).type = .dir
    · obtain ⟨u, hsync, hst, hu⟩ := hv.sync hd
      have hu' := hu.same
      dsimp only
      rw [hsync]
      rcases Index.dirFind_spec enabled name (hu'.symm ▸ h) (hu'.symm ▸ hu.cache) (hu.ready d) with
        ⟨j, u₁, hok, -⟩ | ⟨hok, -, hno⟩ | ⟨hok, hst'⟩
      · rw [hu'] at hok
        obtain ⟨hs, hu₁⟩ := htree hu hok
        exact ⟨u₁, hu₁, by simp [hok, hs]⟩
      · rw [hu'] at hno
        refine ⟨u, hu, ?_⟩
        simp [hok, search, hd, childOf_eq_none h hd hno]
      · rw [hst] at hst'
        cases hst'
    · refine ⟨v, hv, ?_⟩
      simp [hv.sync_error hnone hd, search, hd]

/-! ## The stack and its string -/

/-- The entries of the stack are on the way from the root, and `s` is the path without the slash behind a root. -/
inductive Spells (fs : Fs) (pbd : Name) : List Stkent → List UInt8 → Prop where
  | root : Spells fs pbd [⟨0, (fs.inode 0).btime⟩] (slash :: pbd)
  | sub {p : Stkent} {vec : List Stkent} {s : List UInt8} {e i : Nat} {name : Name} : Spells fs pbd (p :: vec) s →
      treeOf fs.de e = some ⟨i, p.ino, name⟩ → slash ∉ name → 0 ∉ name →
      Spells fs pbd (⟨i, (fs.inode i).btime⟩ :: p :: vec) (s ++ slash :: name)

/-- The string a stack is to hold. -/
def rooted (vec : List Stkent) (s : List UInt8) : List UInt8 := if vec.length = 1 then s ++ [slash] else s

structure StkOk (fs : Fs) (pbd : Name) (stk : Instk) (s : List UInt8) : Prop where
  spells : Spells fs pbd stk.vec s
  str : IsStr stk.path (rooted stk.vec s)
  pos : stk.nextpos = s.length

theorem Spells.ne_nil (h : Spells fs pbd vec s) : vec ≠ [] := by
  cases h <;> exact List.cons_ne_nil _ _

theorem take_rooted (vec : List Stkent) (s : List UInt8) : s.length ≤ (rooted vec s).length ∧
    (rooted vec s).take s.length = s := by
  unfold rooted
  split
  · simp
  · simp

theorem length_rooted_le (vec : List Stkent) (s : List UInt8) : (rooted vec s).length ≤ s.length + 1 := by
  unfold rooted
  split
  · simp
  · omega

theorem Spells.top (h : Spells fs pbd vec s) (hi : DirInv g fs ents) : ∃ i rest, vec = ⟨i, (fs.inode i).btime⟩ :: rest ∧
    (fs.inode i).type ≠ .none ∧ (fs.inode i).deno ≠ none := by
  cases h with
  | root =>
    refine ⟨0, [], rfl, ?_, ?_⟩
    · rw [hi.inRoot.1]
      nofun
    · rw [hi.inRoot.2]
      nofun
  | @sub p vec s e i name _ ht _ _ =>
    have hdeno := hi.linked_of_tree ht
    exact ⟨i, p :: vec, rfl, (hi.linked i e hdeno).2.1, by rw [hdeno]; nofun⟩

/-- What the stack holds is what `dir_path_impl` writes. -/
theorem Spells.dirPathImpl_eq (h : Spells fs pbd vec s) (hi : DirInv g fs ents) :
    ∀ {se : Stkent} {rest : List Stkent} {fuel len : Nat}, vec = se :: rest → vec.length ≤ fuel → s.length < len →
      ∃ e, (fs.inode se.ino).deno = some e ∧ dirPathImpl fs pbd fuel e len = .ok s := by
  induction h with
  | root =>
    rintro se rest (_ | fuel) len ⟨⟩ hfuel hlen
    · exact absurd hfuel (by simp)
    · rw [List.length_cons] at hlen
      exact ⟨0, hi.inRoot.2, by simp [dirPathImpl, hlen, ensure, bind, Except.bind, pure, Except.pure]⟩
  | @sub p vec s e i name _ ht _ _ ih =>
    rintro se rest (_ | fuel) len ⟨⟩ hfuel hlen
    · exact absurd hfuel (by simp)
    · obtain ⟨hdir, hino, hname⟩ := treeOf_eq_some.1 ht
      have he := hi.ne_zero_of_primary hdir
      simp only [List.length_append, List.length_cons] at hlen hfuel
      have hrest : s.length < len - (1 + name.length) := by omega
      obtain ⟨e', he', hpath⟩ := ih rfl (by simpa using hfuel) hrest
      have hroom : 1 + name.length < len := by omega
      refine ⟨e, hi.linked_of_tree ht, ?_⟩
      simp [dirPathImpl, he, hino, hname, hdir, he', hroom, hpath, ensure, bind, Except.bind, pure, Except.pure]

/-- The string of the stack is the path of the inode on its top. -/
def Spelled (fs : Fs) (pbd : Name) (stk : Instk) : Prop :=
  ∃ se rest, stk.vec = se :: rest ∧ ∀ fuel, stk.vec.length ≤ fuel →
    dirPath fs pbd fuel se.ino se.btime = .ok (some (CString.str stk.path))

theorem StkOk.spelled (h : StkOk fs pbd stk s) (hi : DirInv g fs ents) (hlen : (rooted stk.vec s).length < maxPathlen) :
    Spelled fs pbd stk := by
  obtain ⟨i, rest, hvec, htype, -⟩ := h.spells.top hi
  refine ⟨_, rest, hvec, fun fuel hfuel => ?_⟩
  obtain ⟨e, he, hpath⟩ := h.spells.dirPathImpl_eq hi hvec hfuel (lt_of_le_of_lt (take_rooted stk.vec s).1 hlen)
  dsimp only at he
  rw [h.str.str_eq]
  unfold rooted at hlen ⊢
  have hroot : i = 0 ↔ stk.vec.length = 1 := by
    have hs := h.spells
    rw [hvec] at hs ⊢
    cases hs with
    | root => simp
    | sub _ ht => simpa using hi.tree.noRoot ht
  by_cases h0 : i = 0
  · rw [if_pos (hroot.1 h0)] at hlen ⊢
    rw [List.length_append, List.length_singleton] at hlen
    subst h0
    simp [dirPath, htype, he, hpath, hlen, ensure, bind, Except.bind, pure, Except.pure]
  · rw [if_neg (mt hroot.2 h0)]
    simp [dirPath, htype, he, hpath, h0, ensure, bind, Except.bind, pure, Except.pure]

theorem StkOk.push {p : Stkent} (h : StkOk fs pbd stk s) (hi : DirInv g fs ents) (hvec : stk.vec = p :: vec)
    (ht : treeOf fs.de e = some ⟨i, p.ino, name⟩) (hsl : slash ∉ name) (h0 : 0 ∉ name)
    (hlen : s.length + (name.length + 1) < maxPathlen) :
    ∃ stk', instkPush stk i (fs.inode i).btime name = .ok stk' ∧ stk'.vec = ⟨i, (fs.inode i).btime⟩ :: stk.vec ∧
      StkOk fs pbd stk' (s ++ slash :: name) := by
  have hclean : stk.Clean := fun hnil => absurd hnil h.spells.ne_nil
  have hfits : name.length + 1 < maxPathlen - stk.nextpos := by
    rw [h.pos]
    omega
  refine ⟨⟨⟨i, (fs.inode i).btime⟩ :: stk.vec, print stk.path stk.nextpos (slash :: name), stk.nextpos + (name.length + 1)⟩,
    ?_, rfl, ?_, ?_, ?_⟩
  · simp [instkPush, verify, hclean, hfits, hi.tree.noRoot ht, bind, Except.bind, pure, Except.pure]
  · have hs := h.spells
    rw [hvec] at hs ⊢
    exact hs.sub ht hsl h0
  · obtain ⟨hle, htake⟩ := take_rooted stk.vec s
    have hstr := h.str.print hle (List.not_mem_cons_of_ne_of_not_mem (by decide : (0 : UInt8) ≠ slash) h0)
    rw [htake, ← h.pos] at hstr
    simpa [rooted, hvec] using hstr
  · simp [h.pos]

theorem StkOk.pop (h : StkOk fs pbd stk s) (hsize : 1 < stk.vec.length) :
    ∃ stk' se s' e name, instkPop stk = .ok stk' ∧ StkOk fs pbd stk' s' ∧ s'.length + 1 ≤ s.length ∧
      ∃ p ∈ stk'.vec.head?, stk.vec = se :: stk'.vec ∧ treeOf fs.de e = some ⟨se.ino, p.ino, name⟩ := by
  obtain ⟨vec₀, path, nextpos⟩ := stk
  obtain ⟨hs, hstr, hpos⟩ := h
  dsimp only at hs hstr hpos hsize
  cases hs with
  | root => exact absurd hsize (by simp)
  | @sub p vec s e i name hs ht hsl h0 =>
    have hlast : strrchr slash (CString.str path) = some s.length := by
      rw [hstr.str_eq]
      simpa [rooted] using strrchr_append s hsl
    have hlen : s.length + 1 ≤ (s ++ slash :: name).length := by simp
    rw [show rooted (⟨i, (fs.inode i).btime⟩ :: p :: vec) (s ++ slash :: name) = s ++ slash :: name by simp [rooted]] at hstr
    cases vec with
    | nil =>
      -- back at the root
      refine ⟨⟨[p], store path (s.length + 1) [0], s.length⟩, ⟨i, (fs.inode i).btime⟩, s, e, name, ?_, ⟨hs, ?_, rfl⟩, hlen,
        p, rfl, rfl, ht⟩
      · simp [instkPop, popPos, hlast, verify, Instk.Clean, bind, Except.bind, pure, Except.pure]
      · simpa [rooted, List.take_append, List.take_of_length_le] using hstr.cut hlen
    | cons q vec =>
      refine ⟨⟨p :: q :: vec, store path s.length [0], s.length⟩, ⟨i, (fs.inode i).btime⟩, s, e, name, ?_, ⟨hs, ?_, rfl⟩,
        hlen, p, rfl, rfl, ht⟩
      · simp [instkPop, popPos, hlast, verify, Instk.Clean, bind, Except.bind, pure, Except.pure]
      · simpa [rooted] using hstr.cut (Nat.le_of_succ_le hlen)

/-! ## The loop -/

/-- The walk stands at the inode `cur`. -/
structure Stands (g : Geometry) (hash : Name → UInt32) (fs : Fs) (pbd : Name) (tgt : InodeType) (w : Walk) (cur room : Nat) :
    Prop where
  view : ViewOk g hash fs w.view
  stk : ∃ s, StkOk fs pbd w.ni.instk s ∧ s.length + room < maxPathlen ∧ (rooted w.ni.instk.vec s).length < maxPathlen
  top : w.ni.instk.vec.head? = some ⟨cur, (fs.inode cur).btime⟩
  tgt : w.ni.tgtType = tgt

/-- At the head of a turn, with `room` bytes of the path to come. -/
structure At (g : Geometry) (hash : Name → UInt32) (fs : Fs) (pbd : Name) (tgt : InodeType) (w : Walk) (cur room : Nat) :
    Prop extends Stands g hash fs pbd tgt w cur room where
  ino : w.ni.ino = some cur
  par : w.ni.parIno = parentOf fs cur
  type : w.type = (fs.inode cur).type
  brokenPath : w.ni.brokenPath = true
  err : w.err = none
  badname : w.badname = none

/-- A name was not in the directory `d`. -/
structure Missed (g : Geometry) (hash : Name → UInt32) (fs : Fs) (pbd : Name) (tgt : InodeType) (w : Walk) (d : Nat)
    (name : Name) : Prop extends Stands g hash fs pbd tgt w d 0 where
  ino : w.ni.ino = none
  par : w.ni.parIno = d
  srchName : w.ni.srchName = name
  brokenPath : w.ni.brokenPath = true
  err : w.err = some .enoent
  badname : w.badname = some name

/-- The loop was left with an error. -/
structure Left (g : Geometry) (hash : Name → UInt32) (fs : Fs) (pbd : Name) (tgt : InodeType) (w : Walk) (cur : Nat)
    (e : Errno) : Prop extends Stands g hash fs pbd tgt w cur 0 where
  brokenPath : w.ni.brokenPath = true
  err : w.err = some e

theorem Stands.mono (h : Stands g hash fs pbd tgt w cur room) {room' : Nat} (hle : room' ≤ room) :
    Stands g hash fs pbd tgt w cur room' := by
  obtain ⟨s, hs, hroom, hone⟩ := h.stk
  exact { h with stk := ⟨s, hs, by omega, hone⟩ }

/-- Nothing but the variables besides the stack changes. -/
theorem Stands.keep (h : Stands g hash fs pbd tgt w cur room) (hview : ViewOk g hash fs w'.view)
    (hstk : w'.ni.instk = w.ni.instk) (htgt : w'.ni.tgtType = w.ni.tgtType) : Stands g hash fs pbd tgt w' cur room :=
  ⟨hview, by rw [hstk]; exact h.stk, by rw [hstk]; exact h.top, htgt.trans h.tgt⟩

/-- The string is that of the inode the walk stands at. -/
theorem Stands.spelled (h : Stands g hash fs pbd tgt w cur room) : Spelled fs pbd w.ni.instk := by
  obtain ⟨ents, hi⟩ := h.view.inv
  obtain ⟨s, hs, -, hone⟩ := h.stk
  exact hs.spelled hi hone

theorem Stands.linked (h : Stands g hash fs pbd tgt w cur room) :
    (fs.inode cur).type ≠ .none ∧ (fs.inode cur).deno ≠ none := by
  obtain ⟨ents, hi⟩ := h.view.inv
  obtain ⟨s, hs, -⟩ := h.stk
  obtain ⟨i, rest, hvec, hlinked⟩ := hs.spells.top hi
  have htop := h.top
  rw [hvec, List.head?_cons] at htop
  cases htop
  exact hlinked

theorem At.dotdot (h : At g hash fs pbd tgt w cur room) (hd : (fs.inode cur).type = .dir) :
    ∃ w', nameiDotdot w = .ok w' ∧ At g hash fs pbd tgt w' (parentOf fs cur) room := by
  obtain ⟨ents, hi⟩ := h.view.inv
  obtain ⟨s, hs, hroom, hone⟩ := h.stk
  -- the stack of the parent
  obtain ⟨stk', s', hpop, hs', hroom', hone', htop', hpd, hpl⟩ : ∃ stk' s',
      instkUp w.ni.instk = .ok stk' ∧ StkOk fs pbd stk' s' ∧
      s'.length + room < maxPathlen ∧ (rooted stk'.vec s').length < maxPathlen ∧
      stk'.vec.head? = some ⟨parentOf fs cur, (fs.inode (parentOf fs cur)).btime⟩ ∧
      (fs.inode (parentOf fs cur)).type = .dir ∧ (fs.inode (parentOf fs cur)).deno ≠ none := by
    unfold instkUp
    by_cases hsize : 1 < w.ni.instk.vec.length
    · rw [if_pos hsize]
      obtain ⟨stk', se, s', e, name, hpop, hs', hle, p, hp, hvec, ht⟩ := hs.pop hsize
      obtain ⟨i, rest, hvec', -⟩ := hs'.spells.top hi
      have htop := h.top
      rw [hvec, List.head?_cons, Option.some.injEq] at htop
      rw [htop] at ht
      have hpar := parentOf_eq hi ht
      rw [hvec', List.head?_cons, Option.mem_some_iff] at hp
      rw [hpar]
      have hprim := hi.primary e p.ino (treeOf_eq_some.1 ht).1
      refine ⟨stk', s', hpop, hs', by omega, ?_, ?_, hprim.2.1, hprim.2.2.1⟩
      · have hrooted := length_rooted_le stk'.vec s'
        omega
      · rw [hvec', List.head?_cons, ← hp]
    · rw [if_neg hsize]
      have hspells := hs.spells
      have htop := h.top
      obtain rfl : cur = 0 := by
        generalize w.ni.instk.vec = vec at hspells hsize htop
        cases hspells with
        | sub => exact absurd (by simp) hsize
        | root =>
          cases htop
          rfl
      refine ⟨w.ni.instk, s, rfl, hs, hroom, hone, h.top, hi.inRoot.1, ?_⟩
      rw [show parentOf fs 0 = 0 from rfl, hi.inRoot.2]
      nofun
  obtain ⟨hinfo, nm, hnm⟩ := dirInfo_eq hi hpd hpl
  have hsame := h.view.same
  refine ⟨{ w with ni := { w.ni with
    instk := stk', ino := some (parentOf fs cur), parIno := parentOf fs (parentOf fs cur), srchName := nm } }, ?_, ?_⟩
  · rw [nameiDotdot, hpop]
    simp [h.par, hsame, hinfo, hnm, bind, Except.bind, pure, Except.pure]
  · exact ⟨⟨h.view, ⟨s', hs', hroom', hone'⟩, htop', h.tgt⟩, rfl, rfl, by rw [hpd, ← hd]; exact h.type, h.brokenPath,
      h.err, h.badname⟩

/-- What a turn with the next component makes of the walk. -/
inductive Turned (g : Geometry) (hash : Name → UInt32) (fs : Fs) (pbd : Name) (tgt : InodeType) (cur room : Nat) (name : Name) :
    Walk → Bool → Prop where
  | moved {w : Walk} {i : Nat} : resolveOne g fs cur name = .ok i → At g hash fs pbd tgt w i room →
      Turned g hash fs pbd tgt cur room name w true
  | missed {w : Walk} : resolveOne g fs cur name = .error .enoent → Missed g hash fs pbd tgt w cur name →
      Turned g hash fs pbd tgt cur room name w true
  | left {w : Walk} {e : Errno} : resolveOne g fs cur name = .error e → e ≠ .enoent → Left g hash fs pbd tgt w cur e →
      Turned g hash fs pbd tgt cur room name w false

theorem At.entry (h : At g hash fs pbd tgt w cur (name.length + 1 + room)) (hsl : slash ∉ name) (h0 : 0 ∉ name)
    (hshort : ¬ g.maxnamelen ≤ name.length) (hdot : name ≠ [46]) (hdd : name ≠ [46, 46]) :
    ∃ w' more, nameiEntry g hash enabled w cur name = .ok (w', more) ∧ Turned g hash fs pbd tgt cur room name w' more := by
  obtain ⟨ents, hi⟩ := h.view.inv
  obtain ⟨s, hs, hroom, hone⟩ := h.stk
  obtain ⟨rest, hvec⟩ : ∃ rest, w.ni.instk.vec = ⟨cur, (fs.inode cur).btime⟩ :: rest := by
    have htop := h.top
    cases hv : w.ni.instk.vec with
    | nil =>
      rw [hv] at htop
      cases htop
    | cons se rest =>
      rw [hv] at htop
      cases htop
      exact ⟨rest, rfl⟩
  obtain ⟨v', hv', hfind⟩ := nameiFind_eq enabled h.view h.linked.1 hdot
  have htop : instkTop w.ni.instk = .ok ⟨cur, (fs.inode cur).btime⟩ := by simp [instkTop, hvec]
  have hkeep : ∀ (ni : Nameinfo) (type : InodeType) (err : Option Errno) (bad : Option Name), ni.instk = w.ni.instk →
      ni.tgtType = w.ni.tgtType → Stands g hash fs pbd tgt ⟨ni, v', type, err, bad⟩ cur 0 :=
    fun _ _ _ _ hstk htgt => (h.toStands.keep hv' hstk htgt).mono (Nat.zero_le _)
  by_cases hd : (fs.inode cur).type = .dir
  · cases hchild : childOf g fs cur name with
    | some i =>
      have hsearch : search g fs cur name = .ok (Found.mk' fs i) := by simp [search, hd, hchild]
      have hres : resolveOne g fs cur name = .ok i := by simp [resolveOne, hshort, hd, hdot, hdd, hchild]
      obtain ⟨e, ht⟩ : ∃ e, treeOf fs.de e = some ⟨i, cur, name⟩ := by
        obtain ⟨e, he, hino⟩ := Option.bind_eq_some_iff.1 hchild
        rw [inodeDirFind, hi.entries_eq hd] at he
        have hn : direntryGetname fs.de e = some name := by simpa using List.find?_some he
        exact ⟨e, treeOf_eq_some.2 ⟨(hi.mem cur e).1 (List.mem_of_find?_eq_some he), hino, hn⟩⟩
      obtain ⟨stk', hpush, hvec', hs'⟩ := hs.push hi hvec ht hsl h0 (by omega)
      have htype := (hi.linked i e (hi.linked_of_tree ht)).2.1
      refine ⟨⟨{ w.ni with parIno := cur, srchName := name, instk := stk', ino := some i }, v', (fs.inode i).type, none, none⟩,
        true, ?_, .moved hres ⟨⟨hv', ⟨_, hs', ?_, ?_⟩, ?_, h.tgt⟩, rfl, (parentOf_eq hi ht).symm, rfl, h.brokenPath, rfl, rfl⟩⟩
      · simp [nameiEntry, htop, hfind, hsearch, Found.mk', hpush, htype, verify, bind, Except.bind, pure, Except.pure]
      · simp only [List.length_append, List.length_cons]
        omega
      · rw [rooted, if_neg (by simp [hvec', hvec])]
        simp only [List.length_append, List.length_cons]
        omega
      · rw [hvec']
        rfl
    | none =>
      have hsearch : search g fs cur name = .error .enoent := by simp [search, hd, hchild]
      have hres : resolveOne g fs cur name = .error .enoent := by simp [resolveOne, hshort, hd, hdot, hdd, hchild]
      refine ⟨⟨{ w.ni with parIno := cur, srchName := name, ino := none }, v', w.type, some .enoent, some name⟩, true, ?_,
        .missed hres ⟨hkeep _ _ _ _ rfl rfl, rfl, rfl, rfl, h.brokenPath, rfl, rfl⟩⟩
      simp [nameiEntry, htop, hfind, hsearch, bind, Except.bind, pure, Except.pure]
  · have hsearch : search g fs cur name = .error .enotdir := by simp [search, hd]
    have hres : resolveOne g fs cur name = .error .enotdir := by simp [resolveOne, hshort, hd]
    refine ⟨⟨{ w.ni with parIno := cur, srchName := name, ino := none }, v', w.type, some .enotdir, none⟩, false, ?_,
      .left hres (by decide) ⟨hkeep _ _ _ _ rfl rfl, h.brokenPath, rfl⟩⟩
    simp [nameiEntry, htop, hfind, hsearch, bind, Except.bind, pure, Except.pure]

theorem At.turn (enabled : Bool) (h : At g hash fs pbd tgt w cur (name.length + 1 + room)) (hsl : slash ∉ name)
    (h0 : 0 ∉ name) :
    ∃ w' more, nameiTurn g hash enabled w name = .ok (w', more) ∧ Turned g hash fs pbd tgt cur room name w' more := by
  have hleft : ∀ e type bad, Left g hash fs pbd tgt ⟨w.ni, w.view, type, some e, bad⟩ cur e := by
    intro e type bad
    have hs := h.toStands.mono (Nat.zero_le _)
    exact ⟨{ hs with }, h.brokenPath, rfl⟩
  rw [nameiTurn, h.badname, if_neg (by simp), h.ino, h.type]
  by_cases hlong : g.maxnamelen ≤ name.length
  · rw [if_pos hlong]
    exact ⟨_, false, rfl, .left (if_pos hlong) (by decide) (hleft .enametoolong _ _)⟩
  rw [if_neg hlong]
  dsimp only
  by_cases hdot : name = [46]
  · rw [if_pos hdot]
    by_cases hd : (fs.inode cur).type = .dir
    · rw [if_neg (not_not.2 hd)]
      refine ⟨w, true, rfl, .moved ?_ ⟨h.toStands.mono (Nat.le_add_left ..), h.ino, h.par, h.type, h.brokenPath, h.err,
        h.badname⟩⟩
      rw [resolveOne, if_neg hlong, if_neg (not_not.2 hd), if_pos hdot]
    · rw [if_pos hd]
      refine ⟨_, false, rfl, .left ?_ (by decide) (hleft .enotdir _ _)⟩
      rw [resolveOne, if_neg hlong, if_pos hd]
  rw [if_neg hdot]
  by_cases hdd : name = [46, 46]
  · rw [if_pos hdd]
    by_cases hd : (fs.inode cur).type = .dir
    · rw [if_neg (not_not.2 hd)]
      obtain ⟨w', hw', hat⟩ := h.dotdot hd
      refine ⟨w', true, ?_, .moved ?_ ⟨hat.toStands.mono (Nat.le_add_left ..), hat.ino, hat.par, hat.type, hat.brokenPath,
        hat.err, hat.badname⟩⟩
      · simp [hw', hat.err, bind, Except.bind, pure, Except.pure]
      · rw [resolveOne, if_neg hlong, if_neg (not_not.2 hd), if_neg hdot, if_pos hdd]
    · rw [if_pos hd]
      refine ⟨_, false, rfl, .left ?_ (by decide) (hleft .enotdir _ _)⟩
      rw [resolveOne, if_neg hlong, if_pos hd]
  · rw [if_neg hdd]
    exact h.entry hsl h0 hlong hdot hdd

/-- What the loop leaves when the components resolve to `res`. -/
def Ended (g : Geometry) (hash : Name → UInt32) (fs : Fs) (pbd : Name) (tgt : InodeType) (w : Walk) : Resolution → Prop
  | .found i => At g hash fs pbd tgt { w with ni := { w.ni with brokenPath := true } } i 0 ∧ w.ni.brokenPath = false
  | .missing d name => Missed g hash fs pbd tgt { w with ni := { w.ni with brokenPath := true } } d name ∧
      w.ni.brokenPath = false
  | .broken last e => Left g hash fs pbd tgt w last e

/-- A missing name ends the loop: in the next turn, or as the last one. -/
theorem Missed.loop (h : Missed g hash fs pbd tgt w d name) (names : List Name) :
    ∃ w', nameiLoop g hash enabled names w = .ok w' ∧
      Ended g hash fs pbd tgt w' (if names = [] then .missing d name else .broken d .enoent) := by
  cases names with
  | nil =>
    refine ⟨_, rfl, ?_, rfl⟩
    exact ⟨h.toStands.keep h.view rfl rfl, h.ino, h.par, h.srchName, rfl, h.err, h.badname⟩
  | cons next names =>
    have hturn : nameiTurn g hash enabled w next = .ok (w, false) := by
      simp [nameiTurn, h.badname, h.err, verify, bind, Except.bind, pure, Except.pure]
    refine ⟨w, by simp [nameiLoop, hturn, bind, Except.bind, pure, Except.pure], ?_⟩
    exact ⟨h.toStands, h.brokenPath, h.err⟩

theorem At.loop (enabled : Bool) : ∀ {names : List Name} {w : Walk} {cur : Nat}, At g hash fs pbd tgt w cur (weight names) →
    (∀ name ∈ names, slash ∉ name ∧ 0 ∉ name) →
    ∃ w', nameiLoop g hash enabled names w = .ok w' ∧ Ended g hash fs pbd tgt w' (resolve g fs cur names)
  | [], w, cur, h, _ => by
    refine ⟨_, rfl, ?_, rfl⟩
    exact ⟨h.toStands.keep h.view rfl rfl, h.ino, h.par, h.type, rfl, h.err, h.badname⟩
  | name :: names, w, cur, h, hnames => by
    rw [weight_cons] at h
    obtain ⟨hsl, h0⟩ := hnames name List.mem_cons_self
    obtain ⟨w₁, more, hturn, hturned⟩ := h.turn enabled hsl h0
    have hloop : nameiLoop g hash enabled (name :: names) w =
        if more = true then nameiLoop g hash enabled names w₁ else .ok w₁ := by
      simp [nameiLoop, hturn, bind, Except.bind, pure, Except.pure]
    rw [hloop, resolve]
    cases hturned with
    | moved hres hat =>
      rw [if_pos rfl, hres]
      exact At.loop enabled hat fun n hn => hnames n (List.mem_cons_of_mem _ hn)
    | missed hres hmiss =>
      rw [if_pos rfl, hres]
      simpa using hmiss.loop names
    | left hres hne hleft =>
      rw [if_neg (by simp), hres]
      refine ⟨w₁, rfl, ?_⟩
      dsimp only
      rw [if_neg fun hc => hne hc.1]
      exact hleft

theorem At.turns : ∀ {names : List Name} {w : Walk} {cur : Nat}, At g hash fs pbd tgt w cur (weight names) →
    (∀ name ∈ names, slash ∉ name ∧ 0 ∉ name) → ∀ w' ∈ nameiTurns g hash enabled names w, Spelled fs pbd w'.ni.instk
  | [], w, cur, h, _ => by
    simpa [nameiTurns] using h.toStands.spelled
  | name :: names, w, cur, h, hnames => by
    rw [weight_cons] at h
    obtain ⟨hsl, h0⟩ := hnames name List.mem_cons_self
    obtain ⟨w₁, more, hturn, hturned⟩ := h.turn enabled hsl h0
    intro w' hw'
    rw [nameiTurns, hturn, List.mem_cons] at hw'
    rcases hw' with rfl | hw'
    · exact h.toStands.spelled
    cases hturned with
    | moved hres hat => exact At.turns hat (fun n hn => hnames n (List.mem_cons_of_mem _ hn)) w' hw'
    | missed hres hmiss =>
      -- at most one more turn, which leaves the stack
      have hmem : ∀ (rest : List Name), w' ∈ nameiTurns g hash enabled rest w₁ → w' = w₁ := by
        intro rest hw'
        cases rest with
        | nil => simpa [nameiTurns] using hw'
        | cons next rest =>
          have hnext : nameiTurn g hash enabled w₁ next = .ok (w₁, false) := by
            simp [nameiTurn, hmiss.badname, hmiss.err, verify, bind, Except.bind, pure, Except.pure]
          simpa [nameiTurns, hnext] using hw'
      rw [hmem names hw']
      exact hmiss.toStands.spelled
    | left hres hne hleft =>
      rw [List.mem_singleton.1 hw']
      exact hleft.toStands.spelled

end

end PolarFs.Dir.Namei
