/-
Directories (`pfs_dir.cc`, the directory part of `pfs_inode.cc`, the path stack of `pfs_namei.cc` and the
entry lists of `pfs_meta.cc`): creating, removing and renaming as transactions over the inodes, the
direntries and the links of the lists, from the image `mkfs` writes.

An operation runs under the metadata lock with the path stack of the lookup before it, and checks first
that the stack is still valid. A failing operation and one whose commit fails are rolled back. The lookup
of a name (`pfs_inode_dir_find`) reads the directory itself here, not the index in memory.
-/
import PolarFs.Dir.Direntry
import PolarFs.Lib.LinkedRing
import PolarFs.Lib.Transition

namespace PolarFs.Dir

open PolarFs.Meta (InodeType)
open Function (update)

/-- `pfs_inode_phy_t` with `mo_used`; the list it heads is in `Links`. -/
structure Inode where
  used : Bool
  type : InodeType
  deno : Option Nat
  nlink : Nat
  size : UInt64
  btime : Nat
  deriving DecidableEq, Repr

/-- The links of the metadata objects: `mo_head` and `mo_tail` of inodes, `mo_next` and `mo_prev` of
direntries. The number 0 is no link. -/
structure Links where
  head : Nat → Nat
  tail : Nat → Nat
  next : Nat → Nat
  prev : Nat → Nat

structure Fs where
  inode : Nat → Inode
  de : Nat → Direntry
  links : Links

/-! ## Entry lists -/

/-- `pfs_meta_list_insert` of direntry `e` in the list of inode `d`. -/
def metaListInsert (lk : Links) (d e : Nat) : Links :=
  let lk₁ :=
    if lk.head d = 0 then { lk with head := update lk.head d e }
    else { lk with prev := update lk.prev e (lk.tail d), next := update lk.next (lk.tail d) e }
  { lk₁ with tail := update lk₁.tail d e }

/-- `pfs_meta_list_delete`. -/
def metaListDelete (lk : Links) (d e : Nat) : Links :=
  let lk₁ :=
    if lk.prev e ≠ 0 then { lk with next := update lk.next (lk.prev e) (lk.next e) }
    else { lk with head := update lk.head d (lk.next e) }
  let lk₂ :=
    if lk₁.next e ≠ 0 then { lk₁ with prev := update lk₁.prev (lk₁.next e) (lk₁.prev e) }
    else { lk₁ with tail := update lk₁.tail d (lk₁.prev e) }
  { lk₂ with prev := update lk₂.prev e 0, next := update lk₂.next e 0 }

/-- The forward links of the list of `d`, with 0 as its header. -/
def Links.fwd (lk : Links) (d e : Nat) : Nat := if e = 0 then lk.head d else lk.next e

def Links.bwd (lk : Links) (d e : Nat) : Nat := if e = 0 then lk.tail d else lk.prev e

/-- The entries of a directory, read from the head. -/
def Fs.entries (g : Geometry) (fs : Fs) (d : Nat) : List Nat :=
  LinkedRing.walk (fs.links.fwd d) 0 (g.denos.card + 1) (fs.links.head d)

/-- `pfs_inode_dir_find`. -/
def inodeDirFind (g : Geometry) (fs : Fs) (d : Nat) (name : Name) : Option Nat :=
  (fs.entries g d).find? fun e => direntryGetname fs.de e = some name

/-! ## Edits of a directory -/

/-- The direntries and inodes the allocator finds. -/
structure Alloc where
  deno : DenoAlloc
  ino : (Nat → Inode) → Option Nat

/-- `pfs_meta_alloc_inode`. -/
def metaAllocInode (g : Geometry) (al : Alloc) (inode : Nat → Inode) : Except Fail ((Nat → Inode) × Nat) :=
  match (al.ino inode).filter fun i => decide (i ∈ g.inos) && !(inode i).used with
  | some i => .ok (update inode i { inode i with used := true }, i)
  | none => .error (.errno .efile2many)

/-- `sizeof(pfs_metaobj_phy_t)`. -/
def metaobjSize : UInt64 := 128

/-- `in_size += delta`. -/
def addSize (inode : Nat → Inode) (d : Nat) (delta : UInt64) : Nat → Inode :=
  update inode d { inode d with size := (inode d).size + delta }

/-- The check of a directory's type. -/
def checkDir (fs : Fs) (d : Nat) : Except Fail Unit := do
  ensure ((fs.inode d).type ≠ .none) .enoent
  ensure ((fs.inode d).type = .dir) .enotdir

/-- `pfs_inodephy_init`. -/
def inodephyInit (inode : Nat → Inode) (i e : Nat) (isdir : Bool) (btime : Nat) : Except Fail (Nat → Inode) := do
  verify ((inode i).type = .none ∧ (inode i).nlink = 0 ∧ (inode i).deno = none)
  return update inode i ⟨(inode i).used, if isdir then .dir else .file, some e, 1, 0, btime⟩

/-- `pfs_dir_add`. -/
def dirAdd (g : Geometry) (al : Alloc) (fs : Fs) (d : Nat) (name : Name) (isdir : Bool) (btime : Nat) :
    Except Fail Fs := do
  checkDir fs d
  let (de₁, e) ← metaAllocDirentry g al.deno fs.de
  let (inode₁, i) ← metaAllocInode g al fs.inode
  let de₂ ← direntryInit g al.deno de₁ e (some d) i name
  let inode₂ ← inodephyInit inode₁ i e isdir btime
  return ⟨addSize inode₂ d metaobjSize, de₂, metaListInsert fs.links d e⟩

/-- The check of the type of an inode that is to be removed. -/
def checkTarget (fs : Fs) (i : Nat) (isdir : Bool) : Except Fail Unit := do
  ensure ((fs.inode i).type ≠ .none) .enoent
  if isdir then do
    ensure ((fs.inode i).type = .dir) .enotdir
    ensure (fs.links.head i = 0) .enotempty
  else ensure ((fs.inode i).type = .file) .eisdir

/-- `pfs_dir_del`. The name is checked if it is given. -/
def dirDel (g : Geometry) (al : Alloc) (fs : Fs) (d i : Nat) (name : Option Name) (isdir : Bool) : Except Fail Fs := do
  checkDir fs d
  checkTarget fs i isdir
  match (fs.inode i).deno with
  | none => .error .verify
  | some e =>
    ensure ((fs.de e).ino ≠ none) .enoent
    ensure ((fs.inode i).type = .dir → fs.links.head i = 0) .enotempty
    verify ((fs.de e).ino = some i)
    verify (∀ nm ∈ name, direntryGetname fs.de e = some nm)
    let de₁ ← direntryFini g al.deno fs.de e
    verify ((fs.inode i).nlink = 1)
    let inode₁ := addSize fs.inode d (-metaobjSize)
    return ⟨update inode₁ i { inode₁ i with deno := none, nlink := 0 }, metaFreeDirentry de₁ e,
      metaListDelete fs.links d e⟩

/-- `pfs_dir_move`. -/
def dirMove (g : Geometry) (al : Alloc) (fs : Fs) (od e nd : Nat) (newname : Name) : Except Fail Fs := do
  verify ((fs.inode od).type = .dir ∧ (fs.inode nd).type = .dir)
  ensure ((fs.de e).ino ≠ none) .enoent
  let inode₁ := addSize fs.inode od (-metaobjSize)
  let de₁ ← direntrySetname g al.deno fs.de e newname
  return ⟨addSize inode₁ nd metaobjSize, update de₁ e { de₁ e with dirino := some nd },
    metaListInsert (metaListDelete fs.links od e) nd e⟩

/-- `pfs_dir_info`: the parent of a directory. `PFS_DE_UNLINKED` is asserted away by the caller. -/
def dirInfo (fs : Fs) (d : Nat) : Except Fail Nat :=
  if d = 0 then .ok 0
  else do
    ensure ((fs.inode d).type = .dir) .enotdir
    match (fs.inode d).deno with
    | none => .error .verify
    | some e =>
      verify ((fs.de e).ino = some d)
      match (fs.de e).dirino with
      | none => .error .verify
      | some p => return p

/-- The loop of `pfs_dir_rename` from the new directory up to the root or to the inode that is moved. -/
def climb (fs : Fs) (o : Nat) : Nat → Nat → Except Fail Nat
  | 0, _ => .error .fuel
  | fuel + 1, d =>
    if 0 < d ∧ d ≠ o then do
      let p ← dirInfo fs d
      climb fs o fuel p
    else .ok d

/-- The check of `pfs_dir_rename` that the new path is not below the old one. -/
def checkSubdir (g : Geometry) (fs : Fs) (o nd : Nat) : Except Fail Unit :=
  if (fs.inode o).type = .dir then do
    let d ← climb fs o (g.denos.card + 1) nd
    ensure (d ≠ o) .einval
    verify (d = 0)
  else .ok ()

/-- The removal of the target in `pfs_dir_rename`, if there is one. -/
def dirReplace (g : Geometry) (al : Alloc) (fs : Fs) (nd : Nat) : Option Nat → Except Fail Fs
  | none => .ok fs
  | some n => do
    verify ((fs.inode n).deno ≠ none)
    match (fs.inode n).type with
    | .dir => dirDel g al fs nd n none true
    | .file => dirDel g al fs nd n none false
    | .none => .error .verify

/-- `pfs_dir_rename`. -/
def dirRename (g : Geometry) (al : Alloc) (fs : Fs) (od o nd : Nat) (n : Option Nat) (newname : Name) :
    Except Fail Fs := do
  checkDir fs od
  checkDir fs nd
  checkSubdir g fs o nd
  let fs₁ ← dirReplace g al fs nd n
  verify (0 < o ∧ n ≠ some 0)
  match (fs₁.inode o).deno with
  | none => .error .verify
  | some e => dirMove g al fs₁ od e nd newname

/-! ## Operations -/

/-- An entry of the path stack (`struct stkent`) with its part of the path. -/
structure StkEnt where
  ino : Nat
  btime : Nat
  name : Name
  deriving DecidableEq, Repr

/-- The checks of `instk_isvalid` on one entry: the inode is linked, of the wanted type and of the same age,
and its direntry has the name on the path, for the root that of the device. -/
def stkentIsvalid (fs : Fs) (type : InodeType) (se : StkEnt) : Bool :=
  let phyin := fs.inode se.ino
  phyin.type != .none && (type == .none || phyin.type == type) && phyin.btime == se.btime &&
    match phyin.deno with
    | none => false
    | some e => e == 0 || direntryGetname fs.de e == some se.name

/-- The loop of `instk_isvalid` from the top of the stack to the root; `ino` is where the direntry before led. -/
def instkIsvalid (fs : Fs) : InodeType → Option Nat → List StkEnt → Bool
  | _, ino, [] => ino.isNone
  | type, ino, se :: stk =>
    ino == some se.ino && stkentIsvalid fs type se &&
      instkIsvalid fs .dir ((fs.inode se.ino).deno.bind fun e => (fs.de e).dirino) stk

/-- A path stack: the top and what is under it. -/
structure Instack where
  top : StkEnt
  rest : List StkEnt

/-- `instk_parent_of_top`. -/
def Instack.parent (stk : Instack) : StkEnt := stk.rest.headD stk.top

/-- `pfs_path_check`. -/
def pathCheck (fs : Fs) (stk : Instack) (type : InodeType) : Except Fail Unit :=
  ensure (instkIsvalid fs type (some stk.top.ino) (stk.top :: stk.rest) = true) .eagain

/-- `pfs_memdir_xlookup` of a name that does not exist, with `O_CREAT`: the top of the stack is the directory. -/
def memdirCreate (g : Geometry) (al : Alloc) (fs : Fs) (stk : Instack) (name : Name) (isdir : Bool) (btime : Nat) :
    Except Fail Fs := do
  ensure (name.length < g.maxnamelen) .enametoolong
  pathCheck fs stk .dir
  ensure (inodeDirFind g fs stk.top.ino name = none) .eagain
  dirAdd g al fs stk.top.ino name isdir btime

/-- `pfs_memdir_xremove`: the top of the stack is the target. -/
def memdirXremove (g : Geometry) (al : Alloc) (fs : Fs) (stk : Instack) (isdir : Bool) : Except Fail Fs := do
  pathCheck fs stk (if isdir then .dir else .file)
  ensure (stk.top.ino ≠ 0) .einval
  dirDel g al fs stk.parent.ino stk.top.ino (some stk.top.name) isdir

/-- `pfs_inode_dir_rename`. -/
def inodeDirRename (g : Geometry) (al : Alloc) (fs : Fs) (od o nd : Nat) (n : Option Nat) (newname : Name) :
    Except Fail Fs := do
  ensure (o ≠ 0 ∧ n ≠ some 0) .ebusy
  if n = some o then return fs
  else dirRename g al fs od o nd n newname

/-- `pfs_memdir_xrename`. If the target exists it is the top of the new stack; otherwise that is the directory
and `newname` the name in it. -/
def memdirXrename (g : Geometry) (al : Alloc) (fs : Fs) (isdir : Bool) (ostk nstk : Instack) (newname : Option Name) :
    Except Fail Fs := do
  let type : InodeType := if isdir then .dir else .file
  pathCheck fs ostk type
  match newname with
  | none => do
    ensure (nstk.top.name.length < g.maxnamelen) .enametoolong
    pathCheck fs nstk type
    inodeDirRename g al fs ostk.parent.ino ostk.top.ino nstk.parent.ino (some nstk.top.ino) nstk.top.name
  | some name => do
    ensure (name.length < g.maxnamelen) .enametoolong
    pathCheck fs nstk .dir
    ensure (inodeDirFind g fs nstk.top.ino name = none) .eagain
    inodeDirRename g al fs ostk.parent.ino ostk.top.ino nstk.top.ino none name

/-- `pfs_inodephy_release`, which follows a removal once the file is closed, or at a mount. The block tags of a
file are taken off its list first. -/
def inodephyRelease (fs : Fs) (i btime : Nat) : Except Fail Fs := do
  ensure ((fs.inode i).type ≠ .none) .enoent
  ensure ((fs.inode i).btime = btime) .enoent
  verify ((fs.inode i).nlink = 0)
  verify ((fs.inode i).type = .file ∨ fs.links.head i = 0)
  let lk := if (fs.inode i).type = .file then
      { fs.links with head := update fs.links.head i 0, tail := update fs.links.tail i 0 }
    else fs.links
  return { fs with inode := update fs.inode i ⟨false, .none, none, 0, 0, (fs.inode i).btime⟩, links := lk }

/-- The other transactions on a file change its list of block tags and its size. -/
def fileModify (fs : Fs) (i head tail : Nat) (size : UInt64) : Except Fail Fs := do
  ensure ((fs.inode i).type = .file) .enoent
  return { fs with
    inode := update fs.inode i { fs.inode i with size := size }
    links := { fs.links with head := update fs.links.head i head, tail := update fs.links.tail i tail } }

inductive Op where
  | create (al : Alloc) (stk : Instack) (name : Name) (isdir : Bool) (btime : Nat)
  | remove (al : Alloc) (stk : Instack) (isdir : Bool)
  | rename (al : Alloc) (isdir : Bool) (ostk nstk : Instack) (newname : Option Name)
  | release (ino btime : Nat)
  | file (ino head tail : Nat) (size : UInt64)

def exec (g : Geometry) (fs : Fs) : Op → Except Fail Fs
  | .create al stk name isdir btime => memdirCreate g al fs stk name isdir btime
  | .remove al stk isdir => memdirXremove g al fs stk isdir
  | .rename al isdir ostk nstk newname => memdirXrename g al fs isdir ostk nstk newname
  | .release ino btime => inodephyRelease fs ino btime
  | .file ino head tail size => fileModify fs ino head tail size

/-- The image `mkfs` writes at time `now`: the root with `.pfs-paxos` and `.pfs-journal`. -/
def mkfs (now : Nat) : Fs where
  inode i :=
    if i = 0 then ⟨true, .dir, some 0, 1, 0, now⟩
    else if i = 1 ∨ i = 2 then ⟨true, .file, some i, 1, 0, 0⟩
    else ⟨false, .none, none, 0, 0, 0⟩
  de e :=
    if e = 0 then ⟨true, some 0, none, [], 0⟩
    else if e = 1 then ⟨true, some 1, some 0, [46, 112, 102, 115, 45, 112, 97, 120, 111, 115], 0⟩
    else if e = 2 then ⟨true, some 2, some 0, [46, 112, 102, 115, 45, 106, 111, 117, 114, 110, 97, 108], 0⟩
    else .free
  links :=
    { head := fun i => if i = 0 then 1 else 0
      tail := fun i => if i = 0 then 2 else 0
      next := fun e => if e = 1 then 2 else 0
      prev := fun e => if e = 2 then 1 else 0 }

/-- Transactions one after the other, each committed or rolled back. -/
def dirSystem (g : Geometry) : Transition.System Fs (Op × Bool) where
  init fs := ∃ now, fs = mkfs now
  step fs ev :=
    match exec g fs ev.1, ev.2 with
    | .ok fs', true => some fs'
    | _, _ => some fs

end PolarFs.Dir
