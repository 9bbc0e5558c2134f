/-
The name cache (`pfs_namecache.cc`): entries chained by the hash of parent and name and by the hash of their
direntry, and in a list by last use from which the last is evicted. When the maximum has grown, a thread
expands the tables one bucket at a time; the other functions run between its steps and look for an entry
where the thread has got to. Each function runs under the lock of the cache.

An entry is its address; the hashes are any functions.
-/
import PolarFs.Dir.Direntry
import PolarFs.Lib.RehashTable
import PolarFs.Lib.Transition

namespace PolarFs.NameCache

open PolarFs.Dir (Name)
open RehashTable (Table Shape)
open RehashTable

/-- What an entry says. -/
structure Item where
  mnt : Nat
  parent : Nat
  name : Name
  ino : Nat
  deno : Nat
  deriving DecidableEq, Repr

/-- `struct namecache` without its links. -/
structure Entry where
  item : Item
  promoted : UInt64

/-- The options, which an administrator can set; `pfs_check_ival_normal` has the numbers positive. -/
structure Options where
  enable : Bool
  max : Nat
  lruWindow : Nat
  maxBucketLen : Nat
  max_pos : 0 < max
  bucketLen_pos : 0 < maxBucketLen

/-- `get_nc_max`, with `NC_HARD_LIMIT`. -/
def Options.ncMax (o : Options) : Nat := if o.max < 131072 then o.max else 131072

/-- `expand_info` while `nc_expanding`; `running` once the thread has been created. -/
structure Expand where
  bucket : Nat
  sz : Nat
  running : Bool

structure State where
  ent : Nat → Entry
  names : Table Nat
  denos : Table Nat
  sz : Nat
  expand : Option Expand
  lru : List Nat
  numcache : Nat
  opt : Options
  /-- the maximum has been lowered since the last new entry; not in the program -/
  lowered : Bool

/-- `calc_hash` and `calc_deno_hash`. -/
structure Hashes where
  name : Nat → Nat → Name → UInt32
  deno : Nat → Nat → UInt32

def Hashes.ofName (H : Hashes) (it : Item) : Nat := (H.name it.mnt it.parent it.name).toNat

def Hashes.ofDeno (H : Hashes) (it : Item) : Nat := (H.deno it.mnt it.deno).toNat

/-- The sizes and the progress of the expansion, from which `get_namehash_head` and `get_denohash_head` choose. -/
def State.shape (s : State) : Shape := ⟨s.sz - 1, s.expand.map fun x => (x.bucket, x.sz - 1)⟩

/-- The comparison of an entry with a key. -/
def State.isKey (s : State) (mnt parent : Nat) (name : Name) (p : Nat) : Bool :=
  (s.ent p).item.mnt == mnt && (s.ent p).item.parent == parent && (s.ent p).item.name == name

/-- `remove_entry`. -/
def removeEntry (s : State) (p : Nat) : State :=
  { s with
    lru := s.lru.erase p
    names := unlink s.names p
    denos := unlink s.denos p
    numcache := s.numcache - 1 }

/-- The loop of `evict_entries`. -/
def evictEntries : Nat → State → State
  | 0, s => s
  | fuel + 1, s =>
    if s.opt.ncMax < s.numcache then
      match s.lru.getLast? with
      | none => s
      | some p => evictEntries fuel (removeEntry s p)
    else s

/-- `should_promote`. -/
def shouldPromote (s : State) (now : UInt64) (p : Nat) : Bool :=
  let diff := (now - (s.ent p).promoted).toInt64.toInt
  decide (diff < 0 ∨ (s.opt.lruWindow : Int) ≤ diff)

/-- `promote_entry`. -/
def promoteEntry (s : State) (now : UInt64) (p : Nat) : State :=
  if s.lru.head? = some p then s
  else { s with lru := p :: s.lru.erase p, ent := Function.update s.ent p { s.ent p with promoted := now } }

/-- The loop of `hash_init`: the first power of two that is large enough, of a `u_long`. -/
def hashInit (elements : Nat) : Nat → Nat → Nat
  | 0, hashsize => hashsize
  | fuel + 1, hashsize => if hashsize < elements then hashInit elements fuel (2 * hashsize) else hashsize

/-- `should_rehash`, with `SEARCH_DEPTH`. -/
def shouldRehash (s : State) : Bool := decide (s.sz * 4 < s.opt.ncMax) && s.expand.isNone

/-- `rehash_namecache` up to the creation of the thread; `mem` is whether there is memory. -/
def rehashNamecache (mem : Bool) (s : State) : State :=
  if shouldRehash s && mem then
    { s with
      expand := some ⟨0, hashInit ((s.opt.ncMax + 3) / 4) 64 1, false⟩
      names := allocNew s.names
      denos := allocNew s.denos }
  else s

/-- The new entry of `pfs_namecache_enter`. -/
def insertEntry (H : Hashes) (s : State) (now : UInt64) (p : Nat) (it : Item) : State :=
  { s with
    ent := Function.update s.ent p ⟨it, now⟩
    names := insertHead s.names (s.shape.home (H.ofName it)) p
    denos := insertHead s.denos (s.shape.home (H.ofDeno it)) p
    lru := p :: s.lru
    numcache := s.numcache + 1
    lowered := false }

/-- The names the cache does not take: the empty one, `.` and `..`. -/
def reserved : List Name := [[], [46], [46, 46]]

/-- `pfs_namecache_enter` with the entry `p` it has allocated, if there was memory. It asserts that it replaces
nothing; `none` is the assertion. -/
def enter (H : Hashes) (s : State) (now : UInt64) (p : Option Nat) (mem : Bool) (it : Item) : Option State :=
  if s.opt.enable = false ∨ it.name ∈ reserved then some s
  else match p with
    | none => some s
    | some p =>
      let chain := s.names (s.shape.home (H.ofName it))
      match chain.find? (s.isKey it.mnt it.parent it.name) with
      | some q =>
        if (s.ent q).item.ino = it.ino ∧ (s.ent q).item.deno = it.deno then
          some (rehashNamecache mem (if shouldPromote s now q then promoteEntry s now q else s))
        else none
      | none =>
        if s.opt.maxBucketLen ≤ chain.length then some (rehashNamecache mem s)
        else
          let s' := insertEntry H s now p it
          some (rehashNamecache mem (evictEntries s'.numcache s'))

/-- `pfs_namecache_delete_by_deno`. -/
def deleteByDeno (H : Hashes) (s : State) (mnt deno : Nat) : State :=
  match (s.denos (s.shape.home (H.deno mnt deno).toNat)).find? fun p =>
      (s.ent p).item.mnt == mnt && (s.ent p).item.deno == deno with
  | none => s
  | some p => removeEntry s p

/-- `pfs_namecache_lookup`. -/
def lookup (H : Hashes) (s : State) (now : UInt64) (mnt parent : Nat) (name : Name) : Option Nat × State :=
  if s.opt.enable = false then (none, s)
  else if name = [46] then (some parent, s)
  else match (s.names (s.shape.home (H.name mnt parent name).toNat)).find? (s.isKey mnt parent name) with
    | none => (none, s)
    | some p => (some (s.ent p).item.ino, if shouldPromote s now p then promoteEntry s now p else s)

/-- The inner loop of `pfs_namecache_clear_mount`. -/
def clearBucket (mnt : Nat) (s : State) (i : Nat) : State :=
  ((s.names (false, i)).filter fun p => (s.ent p).item.mnt == mnt).foldl removeEntry s

/-- `pfs_namecache_clear_mount`, which waits for the end of an expansion. -/
def clearMount (s : State) (mnt : Nat) : State := (List.range s.sz).foldl (clearBucket mnt) s

/-- The assertions of `free_expand_info` about one of its tables. -/
def emptyBuckets (T : Table Nat) (side : Bool) (sz : Nat) : Bool := (List.range sz).all fun i => (T (side, i)).isEmpty

/-- `pthread_create` in `rehash_namecache`; if it fails the expansion is taken back. -/
def threadCreate (s : State) (x : Expand) (created : Bool) : Option State :=
  if created then some { s with expand := some { x with running := true } }
  else if emptyBuckets s.names true x.sz && emptyBuckets s.denos true x.sz then some { s with expand := none }
  else none

/-- One turn of the loop of `maintenance_thread`. After the last bucket the tables are swapped and the old ones
freed. -/
def maintenance (H : Hashes) (s : State) (x : Expand) : Option State :=
  let names := moveBucket (fun p => H.ofName (s.ent p).item) (x.sz - 1) s.names x.bucket
  let denos := moveBucket (fun p => H.ofDeno (s.ent p).item) (x.sz - 1) s.denos x.bucket
  if x.bucket + 1 = s.sz then
    if emptyBuckets names false s.sz && emptyBuckets denos false s.sz then
      some { s with names := swapIn names, denos := swapIn denos, sz := x.sz, expand := none }
    else none
  else some { s with names := names, denos := denos, expand := some { x with bucket := x.bucket + 1 } }

inductive Event where
  | enter (now : UInt64) (p : Option Nat) (mem : Bool) (it : Item)
  | lookup (now : UInt64) (mnt parent : Nat) (name : Name)
  | deleteByDeno (mnt deno : Nat)
  | clearMount (mnt : Nat)
  | threadCreate (created : Bool)
  | maintenance
  | setOptions (opt : Options)

/-- An allocated entry is not one that is in use. -/
def step (H : Hashes) (s : State) : Event → Option State
  | .enter now p mem it => if ∀ q ∈ p, q ∉ s.lru then enter H s now p mem it else none
  | .lookup now mnt parent name => some (lookup H s now mnt parent name).2
  | .deleteByDeno mnt deno => some (deleteByDeno H s mnt deno)
  | .clearMount mnt => if s.expand.isNone then some (clearMount s mnt) else none
  | .threadCreate created =>
    match s.expand with
    | some x => if x.running then none else threadCreate s x created
    | none => none
  | .maintenance =>
    match s.expand with
    | some x => if x.running then maintenance H s x else none
    | none => none
  | .setOptions opt => some { s with opt := opt, lowered := s.lowered || decide (opt.ncMax < s.opt.ncMax) }

/-- `pfs_nchinit`; `size` is `DEFAULT_NC_SIZE`, 8192 or, to debug the expansion, 4. -/
def init (opt : Options) (size : Nat) : State :=
  ⟨fun _ => ⟨⟨0, 0, [], 0, 0⟩, 0⟩, fun _ => [], fun _ => [], hashInit size 64 1, none, [], 0, opt, false⟩

def cacheSystem (H : Hashes) : Transition.System State Event where
  init s := ∃ opt size, s = init opt size
  step := step H

end PolarFs.NameCache
