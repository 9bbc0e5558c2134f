/-
The index of a directory in memory (`pfs_inode.cc`): the subfiles under the hash of their names, built
from the entry list when the inode is loaded and kept up with redo records. A transaction notes what it adds and
deletes in the inodes of its directories; once it has ended, a callback for each applies the notes or, after a
failure, forgets them. `pfs_inode_dir_find` asks the name cache first.

The tree of hashes is a chain for every hash, and the hash of a name is any function.
-/
import PolarFs.Dir.DirEdits

namespace PolarFs.Dir.Index

open PolarFs.Meta (InodeType)
open Function (update update_self update_of_ne)

/-! ## The index -/

/-- `pfs_dxent_t`; `isdir` says whether it refers to an inode in memory (`e_in`). -/
structure Dxent where
  ino : Nat
  isdir : Bool
  deriving DecidableEq, Repr

/-- `in_dx_root`: the chain of each hash, from the entry in the tree on. -/
abbrev DxRoot := UInt32 → List Dxent

/-- `pfs_inode_dx_add`: a new entry comes after the first one. -/
def dxAdd (root : DxRoot) (nmhash : UInt32) (ino : Nat) (isdir : Bool) : DxRoot :=
  update root nmhash
    (match root nmhash with
    | [] => [⟨ino, isdir⟩]
    | first :: rest => first :: ⟨ino, isdir⟩ :: rest)

/-- The loop of `pfs_inode_dx_del`: the first entry of `ino`, and the chain without it. -/
def unchain (ino : Nat) : List Dxent → Option (Dxent × List Dxent)
  | [] => none
  | ent :: rest => if ent.ino = ino then some (ent, rest) else (unchain ino rest).map fun r => (r.1, ent :: r.2)

/-- `pfs_inode_dx_del`; a reference to an inode is put back only if there is one. -/
def dxDel (root : DxRoot) (nmhash : UInt32) (ino : Nat) (isdir : Bool) : Except Fail DxRoot :=
  match unchain ino (root nmhash) with
  | none => .error .verify
  | some (ent, chain) => do
    verify (isdir = true → ent.isdir = true)
    return update root nmhash chain

/-- The loop of `pfs_inode_dx_find`: the inode of the name and its direntry. -/
def dxFind (fs : Fs) (name : Name) : List Dxent → Except Fail (Nat × Nat)
  | [] => .error (.errno .enoent)
  | ent :: rest =>
    match (fs.inode ent.ino).deno with
    | none => .error .verify
    | some e =>
      match direntryGetname fs.de e with
      | none => .error .verify
      | some nm => if nm = name then .ok (ent.ino, e) else dxFind fs name rest

inductive Dxop where
  | add
  | del
  deriving DecidableEq, Repr

/-- `struct dxredo_rec`. -/
structure DxRec where
  op : Dxop
  nmhash : UInt32
  ino : Nat
  isdir : Bool
  deriving DecidableEq, Repr

/-- Where the callback of an inode's transaction is. -/
inductive Callback where
  /-- `in_cbdone` -/
  | done
  /-- in the list of the open transaction -/
  | inTx
  /-- to be called, the transaction has ended -/
  | ended (committed : Bool)
  deriving DecidableEq, Repr

/-- `pfs_inode_t` of a directory. -/
structure MemDir where
  root : DxRoot
  size : UInt64
  redo : List DxRec
  cb : Callback
  stale : Bool

/-- `pfs_inode_create`. -/
def MemDir.create : MemDir := ⟨fun _ => [], 0, [], .done, true⟩

/-- An entry of the name cache. -/
structure CacheEnt where
  parent : Nat
  name : Name
  ino : Nat
  deno : Nat
  deriving DecidableEq, Repr

/-- What a thread works on: the metadata, the inodes in memory, the name cache. -/
structure View where
  fs : Fs
  dirs : Nat → MemDir
  cache : List CacheEnt

section Functions

variable (g : Geometry) (hash : Name → UInt32)

/-- One step of the loop of `pfs_inode_build_dindex`. -/
def buildStep (fs : Fs) (root : DxRoot) (e : Nat) : Except Fail DxRoot :=
  match (fs.de e).ino, direntryGetname fs.de e with
  | some i, some nm => .ok (dxAdd root (hash nm) i (decide ((fs.inode i).type = .dir)))
  | _, _ => .error .verify

/-- `pfs_inode_build_dindex`. -/
def buildDindex (fs : Fs) (d : Nat) : Except Fail DxRoot := (fs.entries g d).foldlM (buildStep hash fs) fun _ => []

/-- `pfs_inode_reload` of a directory. -/
def inodeReload (fs : Fs) (d : Nat) (m : MemDir) : Except Fail MemDir := do
  ensure ((fs.inode d).type ≠ .none) .enoent
  ensure ((fs.inode d).type = .dir) .enotdir
  let root ← buildDindex g hash fs d
  return { m with root := root, size := (fs.inode d).size, redo := [], stale := false }

/-- One record in `pfs_inode_dxredo_apply`, with the index and the size. -/
def applyRec (x : DxRoot × UInt64) (r : DxRec) : Except Fail (DxRoot × UInt64) :=
  match r.op with
  | .add => .ok (dxAdd x.1 r.nmhash r.ino r.isdir, x.2 + metaobjSize)
  | .del => do
    let root ← dxDel x.1 r.nmhash r.ino r.isdir
    return (root, x.2 + -metaobjSize)

/-- `pfs_inode_dxredo_apply`. -/
def dxredoApply (m : MemDir) : Except Fail MemDir := do
  let (root, size) ← m.redo.foldlM applyRec (m.root, m.size)
  return { m with root := root, size := size }

/-- `pfs_inode_dir_update_done`. -/
def dirUpdateDone (m : MemDir) (committed : Bool) : Except Fail MemDir := do
  verify (m.cb ≠ .done)
  let m ← if committed then dxredoApply m else pure m
  return { m with redo := [], cb := .done }

/-- `pfs_inode_dxredo_record`, with `DXR_MAX_NREC`. -/
def dxredoRecord (v : View) (d : Nat) (op : Dxop) (name : Name) (ino : Nat) (isdir : Bool) : Except Fail View := do
  verify ((v.dirs d).redo.length < 4)
  let redo := (v.dirs d).redo ++ [⟨op, hash name, ino, isdir⟩]
  return { v with dirs := update v.dirs d { v.dirs d with redo := redo } }

/-- `pfs_inode_set_callback`. -/
def setCallback (v : View) (d : Nat) : Except Fail View := do
  verify ((v.dirs d).cb = .done)
  return { v with dirs := update v.dirs d { v.dirs d with cb := .inTx } }

/-- `pfs_inode_check_stale`. -/
def checkStale (v : View) (d : Nat) : Except Fail Unit := ensure ((v.dirs d).stale = false) .eagain

/-- `pfs_namecache_delete_by_deno`. -/
def deleteByDeno (cache : List CacheEnt) (e : Nat) : List CacheEnt := cache.eraseP fun c => c.deno = e

/-- `pfs_namecache_lookup`; `enabled` is `nc_enable`. -/
def namecacheLookup (cache : List CacheEnt) (enabled : Bool) (d : Nat) (name : Name) : Option Nat :=
  if enabled then
    if name = [46] then some d else (cache.find? fun c => c.parent = d ∧ c.name = name).map CacheEnt.ino
  else none

/-- `pfs_namecache_enter`, which asserts that it replaces nothing. -/
def namecacheEnter (cache : List CacheEnt) (enabled : Bool) (c : CacheEnt) : Except Fail (List CacheEnt) :=
  if enabled = false ∨ c.name = [] ∨ c.name ∈ dots then .ok cache
  else match cache.find? fun c' => c'.parent = c.parent ∧ c'.name = c.name with
    | some c' => do
      verify (c'.ino = c.ino ∧ c'.deno = c.deno)
      return cache
    | none => .ok (c :: cache)

/-- What `pfs_inode_dir_find` returns of an inode. -/
structure Found where
  ino : Nat
  type : InodeType
  btime : Nat
  deriving DecidableEq, Repr

def Found.mk' (fs : Fs) (i : Nat) : Found := ⟨i, (fs.inode i).type, (fs.inode i).btime⟩

/-- `pfs_inode_dir_find`. -/
def dirFind (v : View) (enabled : Bool) (d : Nat) (name : Name) : Except Fail (Found × View) :=
  match namecacheLookup v.cache enabled d name with
  | some i => .ok (Found.mk' v.fs i, v)
  | none => do
    checkStale v d
    let (i, e) ← dxFind v.fs name ((v.dirs d).root (hash name))
    let cache ← namecacheEnter v.cache enabled ⟨d, name, i, e⟩
    return (Found.mk' v.fs i, { v with cache := cache })

/-- The check before a creation that the name does not exist. -/
def ensureAbsent (v : View) (enabled : Bool) (d : Nat) (name : Name) : Except Fail View :=
  match dirFind hash v enabled d name with
  | .ok _ => .error (.errno .eagain)
  | .error (.errno .enoent) => .ok v
  | .error e => .error e

/-- `pfs_inode_dir_add`. The inode is the one `pfs_dir_add` has allocated. -/
def inodeDirAdd (al : Alloc) (v : View) (d : Nat) (name : Name) (isdir : Bool) (btime : Nat) : Except Fail View := do
  checkStale v d
  let fs ← dirAdd g al v.fs d name isdir btime
  let (_, i) ← metaAllocInode g al v.fs.inode
  let v ← dxredoRecord hash { v with fs := fs } d .add name i isdir
  setCallback v d

/-- The name cache loses the entry of an inode that is unlinked or moved. -/
def forget (v : View) (i : Nat) : View :=
  { v with cache := match (v.fs.inode i).deno with | some e => deleteByDeno v.cache e | none => v.cache }

/-- The same for the target of a rename, if there is one. -/
def forgetTarget (v : View) : Option Nat → View
  | some n => forget v n
  | none => v

/-- `pfs_inode_dir_del`. -/
def inodeDirDel (al : Alloc) (v : View) (d i : Nat) (name : Name) (isdir : Bool) : Except Fail View := do
  ensure (i ≠ 0) .einval
  checkStale v d
  let fs ← dirDel g al v.fs d i (some name) isdir
  let v ← dxredoRecord hash { forget v i with fs := fs } d .del name i isdir
  setCallback v d

/-- The record of the target of a rename, if there is one. -/
def recordTarget (v : View) (isdir : Bool) (nd : Nat) (newname : Name) : Option Nat → Except Fail View
  | some n => dxredoRecord hash v nd .del newname n isdir
  | none => .ok v

/-- The records of `pfs_inode_dir_rename`. -/
def recordRename (v : View) (isdir : Bool) (od o : Nat) (oldname : Name) (nd : Nat) (n : Option Nat) (newname : Name) :
    Except Fail View := do
  let v ← recordTarget hash v isdir nd newname n
  let v ← dxredoRecord hash v od .del oldname o isdir
  let v ← dxredoRecord hash v nd .add newname o isdir
  let v ← setCallback v od
  if nd ≠ od then setCallback v nd else pure v

/-- `pfs_inode_dir_rename`. -/
def inodeDirRename (al : Alloc) (v : View) (isdir : Bool) (od o : Nat) (oldname : Name) (nd : Nat) (n : Option Nat)
    (newname : Name) : Except Fail View := do
  ensure (o ≠ 0 ∧ n ≠ some 0) .ebusy
  if n = some o then return v
  else do
    checkStale v od
    checkStale v nd
    let fs ← dirRename g al v.fs od o nd n newname
    recordRename hash { forget (forgetTarget v n) o with fs := fs } isdir od o oldname nd n newname

/-! ## The operations on paths -/

/-- `pfs_memdir_xlookup` with `O_CREAT`. -/
def memdirCreate (al : Alloc) (enabled : Bool) (v : View) (stk : Instack) (name : Name) (isdir : Bool) (btime : Nat) :
    Except Fail View := do
  ensure (name.length < g.maxnamelen) .enametoolong
  pathCheck v.fs stk .dir
  let v ← ensureAbsent hash v enabled stk.top.ino name
  inodeDirAdd g hash al v stk.top.ino name isdir btime

/-- `pfs_memdir_xremove`. -/
def memdirXremove (al : Alloc) (v : View) (stk : Instack) (isdir : Bool) : Except Fail View := do
  pathCheck v.fs stk (if isdir then .dir else .file)
  inodeDirDel g hash al v stk.parent.ino stk.top.ino stk.top.name isdir

/-- `pfs_memdir_xrename`. -/
def memdirXrename (al : Alloc) (enabled : Bool) (v : View) (isdir : Bool) (ostk nstk : Instack) (newname : Option Name) :
    Except Fail View := do
  let type : InodeType := if isdir then .dir else .file
  pathCheck v.fs ostk type
  match newname with
  | none => do
    ensure (nstk.top.name.length < g.maxnamelen) .enametoolong
    pathCheck v.fs nstk type
    inodeDirRename g hash al v isdir ostk.parent.ino ostk.top.ino ostk.top.name nstk.parent.ino (some nstk.top.ino)
      nstk.top.name
  | some name => do
    ensure (name.length < g.maxnamelen) .enametoolong
    pathCheck v.fs nstk .dir
    let v ← ensureAbsent hash v enabled nstk.top.ino name
    inodeDirRename g hash al v isdir ostk.parent.ino ostk.top.ino ostk.top.name nstk.top.ino none name

/-- `pfs_inodephy_release`, with `pfs_inode_invalidate`. -/
def release (v : View) (i btime : Nat) : Except Fail View := do
  let fs ← inodephyRelease v.fs i btime
  return { v with fs := fs, dirs := update v.dirs i { v.dirs i with stale := true } }

/-- An operation, before its transaction ends. -/
def exec (enabled : Bool) (v : View) : Op → Except Fail View
  | .create al stk name isdir btime => memdirCreate g hash al enabled v stk name isdir btime
  | .remove al stk isdir => memdirXremove g hash al v stk isdir
  | .rename al isdir ostk nstk newname => memdirXrename g hash al enabled v isdir ostk nstk newname
  | .release i btime => release v i btime
  | .file i head tail size => do return { v with fs := ← fileModify v.fs i head tail size }

end Functions

/-- The directories whose inodes an operation locks. -/
def Op.dirs : Op → List Nat
  | .create _ stk _ _ _ => [stk.top.ino]
  | .remove _ stk _ => [stk.parent.ino]
  | .rename _ _ ostk nstk newname => [ostk.parent.ino, if newname.isSome then nstk.top.ino else nstk.parent.ino]
  | .release .. | .file .. => []

/-! ## The inodes over a run -/

/-- The last committed metadata and, while a transaction is open, the metadata it works on. -/
structure State where
  fs : Fs
  dirs : Nat → MemDir
  cache : List CacheEnt
  tx : Option Fs

def State.view (s : State) : View := ⟨s.fs, s.dirs, s.cache⟩

inductive Event where
  /-- an operation on paths, with `nc_enable` -/
  | op (op : Op) (enabled : Bool)
  | commit
  | rollback
  /-- the callback of a directory -/
  | callback (d : Nat)
  /-- `pfs_inode_sync_impl` of a stale directory -/
  | reload (d : Nat)
  /-- `pfs_inode_mark_stale` -/
  | stale (d : Nat)
  /-- a lookup of a path comes to a directory -/
  | find (d : Nat) (name : Name) (enabled : Bool)
  /-- the name cache drops an entry -/
  | evict (c : CacheEnt)

/-- `pfs_tx_commit` or `pfs_tx_rollback` hands the callbacks of the transaction out. -/
def MemDir.txEnd (m : MemDir) (committed : Bool) : MemDir :=
  { m with cb := if m.cb = .inTx then .ended committed else m.cb }

/-- The metadata is locked as long as a transaction is open; whoever locks a directory waits for its callback.
An error leaves everything as it was, a failed assertion ends the run. -/
def step (g : Geometry) (hash : Name → UInt32) (s : State) : Event → Option State
  | .op op enabled =>
    if s.tx.isNone ∧ ∀ d ∈ Op.dirs op, (s.dirs d).cb = .done then
      match exec g hash enabled s.view op with
      | .ok v => some ⟨s.fs, v.dirs, v.cache, some v.fs⟩
      | .error (.errno _) => some s
      | .error _ => none
    else none
  | .commit => s.tx.map fun fs => ⟨fs, fun d => (s.dirs d).txEnd true, s.cache, none⟩
  | .rollback => s.tx.map fun _ => ⟨s.fs, fun d => (s.dirs d).txEnd false, s.cache, none⟩
  | .callback d =>
    match (s.dirs d).cb with
    | .ended committed =>
      match dirUpdateDone (s.dirs d) committed with
      | .ok m => some { s with dirs := update s.dirs d m }
      | .error _ => none
    | _ => none
  | .reload d =>
    if s.tx.isNone ∧ (s.dirs d).cb = .done ∧ (s.dirs d).stale = true then
      match inodeReload g hash s.fs d (s.dirs d) with
      | .ok m => some { s with dirs := update s.dirs d m }
      | .error (.errno _) => some s
      | .error _ => none
    else none
  | .stale d => some { s with dirs := update s.dirs d { s.dirs d with stale := true } }
  | .find d name enabled =>
    if s.tx.isNone ∧ (s.dirs d).cb = .done then
      match dirFind hash s.view enabled d name with
      | .ok (_, v) => some { s with cache := v.cache }
      | .error (.errno _) => some s
      | .error _ => none
    else none
  | .evict c => some { s with cache := s.cache.erase c }

/-- From the image of `mkfs`, with no inode in memory. -/
def indexSystem (g : Geometry) (hash : Name → UInt32) : Transition.System State Event where
  init s := ∃ now, s = ⟨mkfs now, fun _ => .create, [], none⟩
  step := step g hash

/-! ## The chains -/

theorem unchain_eq_none {ino : Nat} : ∀ {chain : List Dxent}, unchain ino chain = none → ∀ x ∈ chain, x.ino ≠ ino
  | [], _, _, hx => by cases hx
  | ent :: rest, h, x, hx => by
    rw [unchain] at h
    split at h
    case isTrue => cases h
    case isFalse hne =>
      rcases List.mem_cons.1 hx with rfl | hx
      · exact hne
      · exact unchain_eq_none (Option.map_eq_none_iff.1 h) x hx

theorem unchain_eq_some {ino : Nat} {ent : Dxent} : ∀ {chain chain' : List Dxent}, unchain ino chain = some (ent, chain') →
    ent.ino = ino ∧ chain.Perm (ent :: chain')
  | [], _, h => by cases h
  | x :: rest, chain', h => by
    rw [unchain] at h
    split at h
    case isTrue heq =>
      cases h
      exact ⟨heq, List.Perm.refl _⟩
    case isFalse =>
      obtain ⟨⟨ent', rest'⟩, hr, heq⟩ := Option.map_eq_some_iff.1 h
      cases heq
      obtain ⟨hi, hp⟩ := unchain_eq_some hr
      exact ⟨hi, (hp.cons x).trans (List.Perm.swap ..)⟩

/-- The index holds the subfiles `P`. -/
structure Indexes (hash : Name → UInt32) (root : DxRoot) (P : Name → Nat → Bool → Prop) : Prop where
  nodup : ∀ h, ((root h).map Dxent.ino).Nodup
  mem : ∀ h x, x ∈ root h ↔ ∃ name, hash name = h ∧ P name x.ino x.isdir

variable {hash : Name → UInt32} {root root' : DxRoot} {P Q : Name → Nat → Bool → Prop} {name : Name} {i : Nat} {isdir : Bool}

theorem Indexes.congr (h : Indexes hash root P) (hPQ : ∀ nm x b, P nm x b ↔ Q nm x b) : Indexes hash root Q := by
  refine ⟨h.nodup, fun k x => ?_⟩
  rw [h.mem]
  simp only [hPQ]

theorem Indexes.nil : Indexes hash (fun _ => []) fun _ _ _ => False :=
  ⟨fun _ => List.nodup_nil, fun _ _ => by simp⟩

theorem dxAdd_perm (root : DxRoot) (h : UInt32) (i : Nat) (isdir : Bool) :
    (dxAdd root h i isdir h).Perm (⟨i, isdir⟩ :: root h) := by
  rw [dxAdd, update_self]
  cases root h with
  | nil => exact List.Perm.refl _
  | cons first rest => exact List.Perm.swap ..

theorem Indexes.dxAdd (h : Indexes hash root P) (hnew : ∀ nm b, ¬ P nm i b) :
    Indexes hash (dxAdd root (hash name) i isdir) fun nm x b => P nm x b ∨ (nm = name ∧ x = i ∧ b = isdir) := by
  have hmem : ∀ k x, x ∈ Index.dxAdd root (hash name) i isdir k ↔ x ∈ root k ∨ (k = hash name ∧ x = ⟨i, isdir⟩) := by
    intro k x
    by_cases hk : k = hash name
    · subst hk
      rw [(dxAdd_perm root (hash name) i isdir).mem_iff, List.mem_cons]
      simp [or_comm]
    · rw [Index.dxAdd, update_of_ne hk]
      simp [hk]
  refine ⟨fun k => ?_, fun k x => ?_⟩
  · by_cases hk : k = hash name
    · subst hk
      refine (((dxAdd_perm root (hash name) i isdir).map Dxent.ino).nodup_iff).2 (List.nodup_cons.2 ⟨fun hin => ?_, h.nodup _⟩)
      obtain ⟨x, hx, hxi⟩ := List.mem_map.1 hin
      obtain ⟨nm, -, hP⟩ := (h.mem _ x).1 hx
      rw [show x.ino = i from hxi] at hP
      exact hnew nm x.isdir hP
    · rw [Index.dxAdd, update_of_ne hk]
      exact h.nodup k
  · rw [hmem, h.mem]
    constructor
    · rintro (⟨nm, hnm, hP⟩ | ⟨rfl, rfl⟩)
      · exact ⟨nm, hnm, .inl hP⟩
      · exact ⟨name, rfl, .inr ⟨rfl, rfl, rfl⟩⟩
    · rintro ⟨nm, hnm, hP | ⟨rfl, hi, hb⟩⟩
      · exact .inl ⟨nm, hnm, hP⟩
      · refine .inr ⟨hnm.symm, ?_⟩
        cases x
        simp_all

theorem Indexes.dxDel (h : Indexes hash root P) {b : Bool} (hP : P name i b)
    (hone : ∀ nm b', P nm i b' → nm = name ∧ b' = b) (hb : isdir = true → b = true) :
    ∃ root', dxDel root (hash name) i isdir = .ok root' ∧ Indexes hash root' fun nm x b => P nm x b ∧ x ≠ i := by
  have hin : (⟨i, b⟩ : Dxent) ∈ root (hash name) := (h.mem _ _).2 ⟨name, rfl, hP⟩
  cases hu : unchain i (root (hash name)) with
  | none => exact absurd rfl (unchain_eq_none hu _ hin)
  | some r =>
    obtain ⟨ent, chain⟩ := r
    obtain ⟨hent, hperm⟩ := unchain_eq_some hu
    obtain ⟨hnot, hnd⟩ := List.nodup_cons.1 (((hperm.map Dxent.ino).nodup_iff).1 (h.nodup _))
    have hentb : ent.isdir = b := by
      obtain ⟨nm, -, hPe⟩ := (h.mem _ ent).1 (hperm.mem_iff.2 List.mem_cons_self)
      rw [hent] at hPe
      exact (hone nm _ hPe).2
    refine ⟨update root (hash name) chain, ?_, fun k => ?_, fun k x => ?_⟩
    · simp only [Index.dxDel, hu]
      rw [show verify (isdir = true → ent.isdir = true) = .ok () from verify_eq_ok.2 (hentb ▸ hb)]
      rfl
    · by_cases hk : k = hash name
      · rw [hk, update_self]
        exact hnd
      · rw [update_of_ne hk]
        exact h.nodup k
    · by_cases hk : k = hash name
      · subst hk
        rw [update_self]
        constructor
        · intro hx
          obtain ⟨nm, hnm, hPx⟩ := (h.mem _ x).1 (hperm.mem_iff.2 (List.mem_cons_of_mem _ hx))
          refine ⟨nm, hnm, hPx, fun hxi => hnot ?_⟩
          rw [hent, ← hxi]
          exact List.mem_map_of_mem hx
        · rintro ⟨nm, hnm, hPx, hxi⟩
          rcases List.mem_cons.1 (hperm.mem_iff.1 ((h.mem _ x).2 ⟨nm, hnm, hPx⟩)) with rfl | hx
          · exact absurd hent hxi
          · exact hx
      · rw [update_of_ne hk, h.mem]
        constructor
        · rintro ⟨nm, hnm, hPx⟩
          refine ⟨nm, hnm, hPx, fun hxi => hk ?_⟩
          rw [hxi] at hPx
          rw [← hnm, (hone nm _ hPx).1]
        · rintro ⟨nm, hnm, hPx, -⟩
          exact ⟨nm, hnm, hPx⟩

/-- Two indexes of the same subfiles have the same chains up to their order. -/
theorem Indexes.perm (h : Indexes hash root P) (h' : Indexes hash root' P) (k : UInt32) : (root k).Perm (root' k) := by
  refine (List.perm_ext_iff_of_nodup (List.Nodup.of_map _ (h.nodup k)) (List.Nodup.of_map _ (h'.nodup k))).2 fun x => ?_
  rw [h.mem, h'.mem]

end PolarFs.Dir.Index
