/-
Path resolution (`pfs_namei.cc`). `pfs_namei_init` makes up the full path and cuts off the name of the device;
`pfs_namei_lookup` goes from the root over the components. A stack holds the inodes on the way, with a string that
spells them. A name is looked up in the name cache first, then in the index of the directory, which is synced before.

Allocation of memory does not fail. `pfs_inode_sync_first` waits for pending callbacks; a wait nobody ends is a loop
that does not end.
-/
import PolarFs.Dir.DirIndex
import PolarFs.Lib.CString

namespace PolarFs.Dir.Namei

open CString
open PolarFs.Meta (InodeType)
open Index (View Found inodeReload namecacheLookup dirFind)

/-- `PFS_MAX_PATHLEN`, with the NUL. -/
def maxPathlen : Nat := 4096

/-- `PFS_MAX_PBDLEN`, with the NUL. -/
def maxPbdlen : Nat := 64

/-- The character `/`. -/
def slash : UInt8 := 47

/-- A string of C without its NUL. -/
structure CStr where
  bytes : List UInt8
  noNul : 0 ∉ bytes

/-- `work_dir`: empty, or what `pfs_dir_path` has written. -/
structure WorkDir extends CStr where
  short : bytes.length < maxPathlen
  abs : ∀ b ∈ bytes.head?, b = slash

/-! ## The stack -/

/-- `struct stkent`. -/
structure Stkent where
  ino : Nat
  btime : Nat
  deriving DecidableEq, Repr

/-- `struct instack`; `vec` is from the top. -/
structure Instk where
  vec : List Stkent
  path : List UInt8
  nextpos : Nat

/-- `instk_init`. -/
def Instk.init : Instk := ⟨[], List.replicate maxPathlen 0, 0⟩

/-- `instk_top`. -/
def instkTop (stk : Instk) : Except Fail Stkent :=
  match stk.vec with
  | [] => .error .verify
  | se :: _ => .ok se

/-- `instk_parent_of_top`. -/
def instkParentOfTop (stk : Instk) : Except Fail Stkent :=
  match stk.vec with
  | [] => .error .verify
  | [se] => .ok se
  | _ :: se :: _ => .ok se

/-- What is asserted of a stack without entries. -/
def Instk.Clean (stk : Instk) : Prop := stk.vec = [] → str stk.path = [] ∧ stk.nextpos = 0

instance (stk : Instk) : Decidable stk.Clean := inferInstanceAs (Decidable (_ → _))

/-- `instk_push`. -/
def instkPush (stk : Instk) (ino btime : Nat) (name : Name) : Except Fail Instk := do
  verify stk.Clean
  let rv := name.length + 1
  verify (rv < maxPathlen - stk.nextpos)
  let path := print stk.path stk.nextpos (slash :: name)
  let nextpos := stk.nextpos + rv
  return ⟨⟨ino, btime⟩ :: stk.vec, if ino = 0 then store path nextpos [slash] else path, nextpos⟩

/-- Where `instk_pop` cuts the string of a stack with `n` entries. -/
def popPos (n : Nat) (path : List UInt8) : Option Nat :=
  if n = 1 then some 0
  -- back to the root, whose slash stays
  else if n = 2 then (strrchr slash (str path)).map (· + 1)
  else strrchr slash (str path)

/-- `instk_pop`. -/
def instkPop (stk : Instk) : Except Fail Instk := do
  verify (0 < stk.vec.length)
  match popPos stk.vec.length stk.path with
  | none => .error .verify
  | some pos => do
    let stk' : Instk := ⟨stk.vec.tail, store stk.path pos [0], if stk.vec.length = 2 then pos - 1 else pos⟩
    verify stk'.Clean
    return stk'

/-- The step back of the stack for `..`, which stays at the root. -/
def instkUp (stk : Instk) : Except Fail Instk := if 1 < stk.vec.length then instkPop stk else .ok stk

/-! ## The path -/

/-- `nameinfo_t`; `INVALID_INO` is `none`. -/
structure Nameinfo where
  pbd : Name
  path : List UInt8
  srchName : Name
  parIno : Nat
  ino : Option Nat
  parBtime : Nat
  btime : Nat
  tgtType : InodeType
  brokenPath : Bool
  instk : Instk

/-- The full path in `ni_buf`. -/
def fullPath (wd : WorkDir) (path : CStr) : List UInt8 :=
  if path.bytes.head? = some slash then path.bytes else wd.bytes ++ slash :: path.bytes

/-- `pfs_namei_init`. -/
def nameiInit (wd : WorkDir) (path : CStr) (type : InodeType) : Except Fail Nameinfo := do
  ensure (path.bytes ≠ []) .einval
  -- `pfs_dir_getwd`
  ensure (path.bytes.head? = some slash ∨ wd.bytes ≠ []) .enoent
  let buf := fullPath wd path
  ensure (buf.length < maxPathlen) .enametoolong
  verify (buf.head? = some slash)
  let nmstart := buf.tail.dropWhile (· = slash)
  ensure (slash ∈ nmstart) .einval
  let pbd := nmstart.takeWhile (· ≠ slash)
  let nmend := nmstart.dropWhile (· ≠ slash)
  verify (0 < pbd.length)
  verify (nmend.head? = some slash)
  ensure (pbd.length < maxPbdlen) .enametoolong
  ensure (nmend.getLast? = some slash → type ≠ .file) .eisdir
  let type := if nmend.getLast? = some slash then .dir else type
  return ⟨pbd, nmend, [], 0, some 0, 0, 0, type, true, .init⟩

/-! ## Resolution -/

section Lookup

variable (g : Geometry) (hash : Name → UInt32) (enabled : Bool)

/-- `pfs_inode_sync_first` of an inode that is to be a directory. What a stale file loads is no part of the view;
type and birth time are those of the metadata. -/
def inodeSyncFirst (v : View) (d btime : Nat) : Except Fail View :=
  if (v.dirs d).cb ≠ .done then .error .fuel
  else do
    ensure ((v.fs.inode d).type ≠ .none) .enoent
    let v ←
      if (v.dirs d).stale = true ∧ (v.fs.inode d).type = .dir then do
        let m ← inodeReload g hash v.fs d (v.dirs d)
        pure { v with dirs := Function.update v.dirs d m }
      else pure v
    ensure ((v.fs.inode d).btime = btime) .enoent
    ensure ((v.fs.inode d).type = .dir) .enotdir
    return v

/-- The search for a name in the directory `d`: the name cache, then the index. -/
def nameiFind (v : View) (d btime : Nat) (name : Name) : Except Fail (Except Errno Found × View) :=
  match namecacheLookup v.cache enabled d name with
  | some i => .ok (.ok (Found.mk' v.fs i), v)
  | none =>
    match inodeSyncFirst g hash v d btime with
    | .error (.errno e) => .ok (.error e, v)
    | .error f => .error f
    | .ok v =>
      match dirFind hash v enabled d name with
      | .ok (r, v) => .ok (.ok r, v)
      | .error (.errno e) => .ok (.error e, v)
      | .error f => .error f

/-- The variables of the loop of `pfs_namei_lookup`, and what a thread sees. -/
structure Walk where
  ni : Nameinfo
  view : View
  type : InodeType
  err : Option Errno
  badname : Option Name

/-- The name `pfs_dir_info` copies. -/
def dirInfoName (fs : Fs) (d : Nat) : Except Fail Name :=
  if d = 0 then .ok []
  else
    match (fs.inode d).deno.bind (direntryGetname fs.de) with
    | none => .error .verify
    | some name => .ok name

/-- The component `..`. -/
def nameiDotdot (w : Walk) : Except Fail Walk := do
  let stk ← instkUp w.ni.instk
  let ino := w.ni.parIno
  let ni := { w.ni with instk := stk, ino := some ino }
  match dirInfo w.view.fs ino with
  | .error (.errno e) => return { w with ni := ni, err := some e }
  | .error f => .error f
  | .ok parIno => do
    let name ← dirInfoName w.view.fs ino
    return { w with ni := { ni with parIno := parIno, srchName := name } }

/-- A component that is a name, with the inode the walk is at. The flag says whether the loop goes on. -/
def nameiEntry (w : Walk) (ino : Nat) (name : Name) : Except Fail (Walk × Bool) := do
  let se ← instkTop w.ni.instk
  let (r, v) ← nameiFind g hash enabled w.view se.ino se.btime name
  let ni := { w.ni with parIno := ino, srchName := name }
  match r with
  | .ok f => do
    let stk ← instkPush ni.instk f.ino f.btime name
    verify (f.type ≠ .none)
    return (⟨{ ni with instk := stk, ino := some f.ino }, v, f.type, none, none⟩, true)
  -- whether the name was the last one is seen in the next turn
  | .error .enoent => return (⟨{ ni with ino := none }, v, w.type, some .enoent, some name⟩, true)
  | .error e => return (⟨{ ni with ino := none }, v, w.type, some e, none⟩, false)

/-- One turn of the loop, with the token `name`. -/
def nameiTurn (w : Walk) (name : Name) : Except Fail (Walk × Bool) :=
  if w.badname.isSome then do
    verify (w.err = some .enoent)
    return (w, false)
  else if g.maxnamelen ≤ name.length then .ok ({ w with err := some .enametoolong }, false)
  else
    match w.ni.ino with
    | none => .error .verify
    | some ino =>
      if name = [46] then .ok (if w.type ≠ .dir then ({ w with err := some .enotdir }, false) else (w, true))
      else if name = [46, 46] then
        if w.type ≠ .dir then .ok ({ w with err := some .enotdir }, false)
        else do
          let w ← nameiDotdot w
          return (w, w.err.isNone)
      else nameiEntry g hash enabled w ino name

/-- The loop over the tokens. -/
def nameiLoop : List Name → Walk → Except Fail Walk
  | [], w => .ok { w with ni := { w.ni with brokenPath := false } }
  | name :: names, w => do
    let (w, more) ← nameiTurn g hash enabled w name
    if more then nameiLoop names w else return w

/-- The states of the loop at the head of each turn, and at its end. -/
def nameiTurns : List Name → Walk → List Walk
  | [], w => [w]
  | name :: names, w =>
    w :: match nameiTurn g hash enabled w name with
      | .ok (w, true) => nameiTurns names w
      | .ok (w, false) => [w]
      | .error _ => []

/-- The flags of `open` that are read here. -/
structure Oflags where
  creat : Bool
  excl : Bool
  deriving DecidableEq, Repr

/-- What `pfs_namei_lookup` returns, with `*dirinp`, `*tgtinp` and `*typep` if they are written. -/
structure Looked where
  err : Option Errno
  ni : Nameinfo
  view : View
  dirin : Option Nat
  tgtin : Option Nat
  type : Option InodeType

/-- The root is pushed. -/
def nameiStart (v : View) (pbdname : Name) (ni : Nameinfo) : Except Fail Walk := do
  let stk ← instkPush ni.instk 0 (v.fs.inode 0).btime pbdname
  return ⟨{ ni with instk := stk }, v, .dir, none, none⟩

/-- `pfs_namei_lookup` after the loop. -/
def nameiFinish (oflags : Oflags) (w : Walk) : Except Fail Looked :=
  match w.err with
  | some e =>
    if e = .enoent ∧ w.ni.brokenPath = false then do
      verify (w.ni.ino = none)
      verify (oflags.creat = true → w.ni.tgtType ≠ .none)
      let se ← instkTop w.ni.instk
      return ⟨some e, { w.ni with parBtime := se.btime }, w.view, some se.ino, none, some w.type⟩
    else .ok ⟨some e, w.ni, w.view, none, none, none⟩
  | none => do
    verify (w.ni.brokenPath = false ∧ w.ni.ino ≠ none)
    if oflags.excl = true ∧ oflags.creat = true then return ⟨some .eexist, w.ni, w.view, none, none, none⟩
    else if w.type ≠ .none ∧ w.ni.tgtType ≠ .none ∧ w.type ≠ w.ni.tgtType then
      return ⟨some (if w.type = .dir then .eisdir else .enotdir), w.ni, w.view, none, none, none⟩
    else do
      let par ← instkParentOfTop w.ni.instk
      let top ← instkTop w.ni.instk
      return ⟨none, { w.ni with parBtime := par.btime, btime := top.btime }, w.view, some par.ino, some top.ino, some w.type⟩

/-- `pfs_namei_lookup` on the mount of the device `pbdname`. -/
def nameiLookup (v : View) (pbdname : Name) (oflags : Oflags) (ni : Nameinfo) : Except Fail Looked := do
  let w ← nameiStart v pbdname ni
  let w ← nameiLoop g hash enabled (tokens slash ni.path) w
  nameiFinish oflags w

end Lookup

/-! ## The path of a directory -/

/-- `dir_path_impl`, with a bound on its depth. -/
def dirPathImpl (fs : Fs) (pbdname : Name) : Nat → Nat → Nat → Except Fail (List UInt8)
  | 0, _, _ => .error .fuel
  | fuel + 1, deno, len =>
    if deno = 0 then do
      ensure (pbdname.length + 1 < len) .enametoolong
      return slash :: pbdname
    else do
      ensure ((fs.de deno).ino ≠ none) .enoent
      match direntryGetname fs.de deno, (fs.de deno).dirino.bind fun d => (fs.inode d).deno with
      | some name, some e => do
        ensure (1 + name.length < len) .enametoolong
        let path ← dirPathImpl fs pbdname fuel e (len - (1 + name.length))
        return path ++ slash :: name
      | _, _ => .error .verify

/-- `pfs_dir_path` into a buffer of `PFS_MAX_PATHLEN`; `PFS_DE_UNLINKED` is `none`. -/
def dirPath (fs : Fs) (pbdname : Name) (fuel ino btime : Nat) : Except Fail (Option (List UInt8)) := do
  ensure ((fs.inode ino).type ≠ .none ∧ (fs.inode ino).btime = btime) .enoent
  match (fs.inode ino).deno with
  | none => return none
  | some e => do
    let path ← dirPathImpl fs pbdname fuel e maxPathlen
    -- the root has one slash at the end
    if ino = 0 then do
      ensure (path.length + 1 < maxPathlen) .enametoolong
      return some (path ++ [slash])
    else return some path

end PolarFs.Dir.Namei
