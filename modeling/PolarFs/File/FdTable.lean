/-
The table of open files (`pfs_file.cc`). A slot of `fdtbl` holds the file opened under the descriptor, or, after it was
closed, twice the previously closed descriptor plus one; `fdtbl_free_last` is the descriptor closed last. While none is
free, `fdtbl_nopen` is the first one that was never used.
-/
import PolarFs.Lib.FreeList
import PolarFs.Lib.Transition

namespace PolarFs.File

open FreeList Transition
open Function (update update_self update_of_ne)

/-- A `pfs_file_t *`. Files are aligned, so that the lowest bit of a pointer is clear. -/
abbrev FilePtr := Nat

/-- `fdtbl` with its counters, and `f_fd` and `f_refcnt` of the files. -/
structure FdTable where
  inited : Bool
  slots : Nat → Nat
  nopen : Nat
  freeLast : Nat
  maxNfd : Nat
  fFd : FilePtr → Int
  refcnt : FilePtr → Int

namespace FdTable

def eagain : Int := -11

/-- `fd_set_init`; the memory of the table is zeroed. -/
def fdSetInit (fileMaxNfd : Nat) (t : FdTable) : Option FdTable :=
  if t.freeLast = 0 ∧ t.maxNfd = 0 then
    some { t with inited := true, slots := fun _ => 0, freeLast := fileMaxNfd, maxNfd := fileMaxNfd }
  else none

/-- `fd_get` once the table is there. -/
def fdPop (t : FdTable) (file : FilePtr) : FdTable × Int :=
  if t.freeLast = t.maxNfd then
    if t.nopen < t.maxNfd then
      ({ t with slots := update t.slots t.nopen file, nopen := t.nopen + 1 }, t.nopen)
    else (t, -1)
  else
    ({ t with
        slots := update t.slots t.freeLast file
        freeLast := t.slots t.freeLast / 2
        nopen := t.nopen + 1 }, t.freeLast)

/-- `fd_get`. -/
def fdGet (fileMaxNfd : Nat) (t : FdTable) (file : FilePtr) : Option (FdTable × Int) :=
  if t.inited then some (t.fdPop file) else (t.fdSetInit fileMaxNfd).map fun t => t.fdPop file

/-- `fd_put`. -/
def fdPut (t : FdTable) (fd : Nat) : FdTable :=
  { t with
    slots := update t.slots fd (t.freeLast * 2 + 1)
    freeLast := fd
    nopen := t.nopen - 1 }

/-- `fd_to_file`; a null pointer is `none`. -/
def fdToFile (t : FdTable) (fd : Nat) : Option FilePtr :=
  if t.slots fd % 2 = 1 then none else if t.slots fd = 0 then none else some (t.slots fd)

/-- `fd_alloc`, for a file whose memory was just zeroed. -/
def fdAlloc (fileMaxNfd : Nat) (t : FdTable) (file : FilePtr) : Option (FdTable × Int) :=
  (t.fdGet fileMaxNfd file).map fun r =>
    ({ r.1 with fFd := update r.1.fFd file r.2, refcnt := update r.1.refcnt file 0 }, r.2)

/-- `fd_free`; `none` when one of its assertions fails. -/
def fdFree (t : FdTable) (file : FilePtr) : Option (FdTable × Int) :=
  let fd := t.fFd file
  if t.inited ∧ 0 ≤ fd ∧ fd < t.maxNfd ∧ t.slots fd.toNat = file then
    if t.refcnt file ≤ 1 then some (t.fdPut fd.toNat, 0) else some (t, eagain)
  else none

/-- The file that `pfs_file_get` finds. -/
def lookup (t : FdTable) (fd : Int) : Option FilePtr :=
  if 0 ≤ fd ∧ fd < t.maxNfd then t.fdToFile fd.toNat else none

/-- `pfs_file_get`. -/
def fileGet (t : FdTable) (fd : Int) : FdTable × Option FilePtr :=
  match t.lookup fd with
  | none => (t, none)
  | some file => ({ t with refcnt := update t.refcnt file (t.refcnt file + 1) }, some file)

/-- `pfs_file_put`. -/
def filePut (t : FdTable) (file : FilePtr) : FdTable :=
  { t with refcnt := update t.refcnt file (t.refcnt file - 1) }

end FdTable

/-- The table, and the files that are open with the descriptors they were opened under. -/
structure FdState where
  table : FdTable
  opened : List (Nat × FilePtr)

inductive FdEvent where
  | alloc (file : FilePtr)
  | get (fd : Int)
  | put (file : FilePtr)
  | free (file : FilePtr)
  deriving DecidableEq, Repr

/-- One call. A file is allocated in memory that no open file occupies; one that is released is open. -/
def FdState.step (fileMaxNfd : Nat) (s : FdState) : FdEvent → Option FdState
  | .alloc file =>
    if file % 2 = 0 ∧ file ≠ 0 ∧ file ∉ s.opened.map Prod.snd then
      (s.table.fdAlloc fileMaxNfd file).map fun r =>
        ⟨r.1, if r.2 < 0 then s.opened else (r.2.toNat, file) :: s.opened⟩
    else none
  | .get fd => some { s with table := (s.table.fileGet fd).1 }
  | .put file => some { s with table := s.table.filePut file }
  | .free file =>
    if file ∈ s.opened.map Prod.snd then
      (s.table.fdFree file).map fun r =>
        ⟨r.1, if r.2 = 0 then s.opened.filter fun p => p.2 ≠ file else s.opened⟩
    else none

/-- A process that has opened nothing yet; `file_max_nfd` passes `pfs_check_ival_max_nfd`. -/
def fdSystem (fileMaxNfd : Nat) : System FdState FdEvent where
  init s := 0 < fileMaxNfd ∧ fileMaxNfd < 2048000 ∧ s.opened = [] ∧ s.table.inited = false ∧ s.table.nopen = 0 ∧
    s.table.freeLast = 0 ∧ s.table.maxNfd = 0 ∧ s.table.slots = fun _ => 0
  step := FdState.step fileMaxNfd

/-- The next closed descriptor after a closed one. -/
def FdTable.link (t : FdTable) (fd : Nat) : Option Nat :=
  if t.slots fd % 2 = 1 then some (t.slots fd / 2) else none

/-- How the slots are used: `free` is the free list, the slots from `used` on were never used. -/
structure FdState.Laid (s : FdState) (free : List Nat) (used : Nat) : Prop where
  threaded : Threaded s.table.link s.table.maxNfd s.table.freeLast free
  part : Partition used free (s.opened.map Prod.fst)
  used_le : used ≤ s.table.maxNfd
  nopen : s.table.nopen = s.opened.length
  files : (s.opened.map Prod.snd).Nodup
  taken : ∀ p ∈ s.opened, s.table.slots p.1 = p.2 ∧ p.2 % 2 = 0 ∧ p.2 ≠ 0 ∧ s.table.fFd p.2 = p.1
  unused : ∀ fd, used ≤ fd → s.table.slots fd = 0

/-- And the table is there as soon as a file is open. -/
structure FdState.Inv (fileMaxNfd : Nat) (s : FdState) : Prop where
  pos : 0 < fileMaxNfd
  laid : ∃ free used, s.Laid free used
  inited : s.table.inited = true → s.table.maxNfd = fileMaxNfd
  fresh : s.table.inited = false → s.table.freeLast = 0 ∧ s.table.maxNfd = 0 ∧ s.opened = []

namespace FdState.Laid

variable {s : FdState} {free : List Nat} {used nfd : Nat} {file : FilePtr} (h : s.Laid free used)

include h

theorem length : used = free.length + s.table.nopen := by
  rw [h.part.length, h.nopen, List.length_map]

/-- A closed slot is odd, an open one is the file. -/
theorem odd {fd : Nat} (hf : fd ∈ free) : s.table.slots fd % 2 = 1 := by
  have := h.threaded.isSome fd hf
  unfold FdTable.link at this
  split at this
  · assumption
  · cases this

theorem open_below {p : Nat × FilePtr} (hp : p ∈ s.opened) : p.1 < used :=
  (h.part.below p.1).mpr (List.mem_append_right _ (List.mem_map_of_mem hp))

/-- A lookup finds the files that are open under their descriptors and nothing else. -/
theorem lookup_iff (fd : Int) : s.table.lookup fd = some file ↔ ∃ n : Nat, fd = n ∧ (n, file) ∈ s.opened := by
  constructor
  · intro hl
    unfold FdTable.lookup at hl
    obtain ⟨hr, hl⟩ := Option.ite_none_right_eq_some.1 hl
    refine ⟨fd.toNat, by omega, ?_⟩
    unfold FdTable.fdToFile at hl
    split at hl
    case isTrue => cases hl
    case isFalse heven =>
      split at hl
      case isTrue => cases hl
      case isFalse hz =>
        cases hl
        -- a slot that is neither closed nor zero is the slot of an open file
        have hused : fd.toNat < used := by
          by_contra hge
          exact hz (h.unused _ (by omega))
        rcases List.mem_append.mp ((h.part.below fd.toNat).mp hused) with hf | ho
        · exact absurd (h.odd hf) heven
        · obtain ⟨p, hp, hpfd⟩ := List.mem_map.mp ho
          have := (h.taken p hp).1
          rw [← hpfd, this]
          exact hp
  · rintro ⟨n, rfl, hp⟩
    obtain ⟨hslot, heven, hz, _⟩ := h.taken _ hp
    have hlt : n < used := h.open_below hp
    have hle := h.used_le
    rw [FdTable.lookup, if_pos (by omega), FdTable.fdToFile, Int.toNat_natCast]
    dsimp only at hslot heven hz
    rw [hslot, if_neg (by rw [heven]; decide), if_neg hz]

/-! ## Allocation -/

theorem assign {free' : List Nat} {used' fd last : Nat} {t : FdTable}
    (hfile : file % 2 = 0 ∧ file ≠ 0 ∧ file ∉ s.opened.map Prod.snd)
    (hpart : Partition used' free' (fd :: s.opened.map Prod.fst)) (hused : used ≤ used') (hle : used' ≤ s.table.maxNfd)
    (hthr : Threaded s.table.link s.table.maxNfd last free') (hslots : t.slots = update s.table.slots fd file)
    (hlast : t.freeLast = last) (hmax : t.maxNfd = s.table.maxNfd) (hnopen : t.nopen = s.table.nopen + 1)
    (hfd : t.fFd = update s.table.fFd file (fd : Int)) : FdState.Laid ⟨t, (fd, file) :: s.opened⟩ free' used' := by
  have hnd := List.nodup_append.mp hpart.nodup
  have hfd_free : fd ∉ free' := fun hm => hnd.2.2 fd hm fd (by simp) rfl
  have hfd_open : fd ∉ s.opened.map Prod.fst := (List.nodup_cons.mp hnd.2.1).1
  refine ⟨?_, hpart, by rw [hmax]; exact hle, by simp only [hnopen, h.nopen, List.length_cons],
    List.nodup_cons.mpr ⟨hfile.2.2, h.files⟩, ?_, ?_⟩
  · simp only [hmax, hlast]
    refine hthr.congr fun x hx => ?_
    have hne : x ≠ fd := fun he => hfd_free (he ▸ hx)
    simp only [FdTable.link, hslots, update_of_ne hne]
  · intro p hp
    simp only [hslots, hfd]
    rcases List.mem_cons.mp hp with rfl | hp
    · exact ⟨update_self .., hfile.1, hfile.2.1, update_self ..⟩
    · have h1 : p.1 ≠ fd := fun he => hfd_open (he ▸ List.mem_map_of_mem hp)
      have h2 : p.2 ≠ file := fun he => hfile.2.2 (he ▸ List.mem_map_of_mem hp)
      rw [update_of_ne h1, update_of_ne h2]
      exact h.taken p hp
  · intro x hx
    have hfd_lt : fd < used' := (hpart.below fd).mpr (by simp)
    simp only [hslots, update_of_ne (show x ≠ fd by omega)]
    exact h.unused x (by omega)

/-- `fd_get` takes a slot unless all of them are taken. -/
theorem fdPop (hfile : file % 2 = 0 ∧ file ≠ 0 ∧ file ∉ s.opened.map Prod.snd) :
    (s.table.fdPop file = (s.table, -1) ∧ s.opened.length = s.table.maxNfd) ∨
    (s.opened.length < s.table.maxNfd ∧ (s.table.fdPop file).1.maxNfd = s.table.maxNfd ∧
      (s.table.fdPop file).1.inited = s.table.inited ∧ ∃ fd : Nat, (s.table.fdPop file).2 = fd ∧ ∃ free' used',
        FdState.Laid
          ⟨{ (s.table.fdPop file).1 with
              fFd := update (s.table.fdPop file).1.fFd file (fd : Int)
              refcnt := update (s.table.fdPop file).1.refcnt file 0 },
            (fd, file) :: s.opened⟩ free' used') := by
  have hlen := h.length
  have hnopen := h.nopen
  have hle := h.used_le
  have hthr := h.threaded
  unfold FdTable.fdPop
  by_cases hlast : s.table.freeLast = s.table.maxNfd
  · obtain rfl : free = [] := h.threaded.eq_nil_iff.mpr hlast
    rw [List.length_nil, Nat.zero_add] at hlen
    obtain rfl : used = s.table.nopen := hlen
    rw [if_pos hlast]
    by_cases hfull : s.table.nopen < s.table.maxNfd
    · rw [if_pos hfull]
      refine Or.inr ⟨by omega, rfl, rfl, s.table.nopen, rfl, [], s.table.nopen + 1, ?_⟩
      exact h.assign hfile h.part.extend (by omega) (by omega) hthr rfl rfl rfl rfl rfl
    · rw [if_neg hfull]
      exact Or.inl ⟨rfl, by omega⟩
  · rw [if_neg hlast]
    obtain ⟨x, l, rfl, hlink, hl⟩ := hthr.uncons hlast
    have hx : s.table.slots s.table.freeLast / 2 = x := by
      unfold FdTable.link at hlink
      split at hlink <;> cases hlink
      rfl
    rw [List.length_cons] at hlen
    refine Or.inr ⟨by omega, rfl, rfl, s.table.freeLast, rfl, l, used, ?_⟩
    exact h.assign hfile h.part.pop (Nat.le_refl _) hle hl rfl hx rfl rfl rfl

/-! ## Release -/

theorem fdPut {fd : Nat} (hp : (fd, file) ∈ s.opened) :
    FdState.Laid ⟨s.table.fdPut fd, s.opened.filter fun p => p.2 ≠ file⟩ (fd :: free) used := by
  have hnd := List.nodup_append.mp h.part.nodup
  have hfd : fd ∈ s.opened.map Prod.fst := List.mem_map_of_mem hp
  have hfd_free : fd ∉ free := fun hm => h.part.disjoint hm hfd
  have hlt : fd < used := h.open_below hp
  have hle := h.used_le
  -- the descriptor and the file name the same entry
  have hfilter : ∀ p ∈ s.opened, p.2 ≠ file ↔ p.1 ≠ fd := by
    intro p hpm
    refine not_congr ⟨fun he => ?_, fun he => ?_⟩
    · have h1 := (h.taken p hpm).2.2.2
      have h2 := (h.taken _ hp).2.2.2
      rw [he] at h1
      exact Int.ofNat.inj (h1.symm.trans h2)
    · have h1 := (h.taken p hpm).1
      have h2 := (h.taken _ hp).1
      rw [he] at h1
      exact h1.symm.trans h2
  have herase : (s.opened.filter fun p => p.2 ≠ file).map Prod.fst = (s.opened.map Prod.fst).erase fd := by
    rw [hnd.2.1.erase_eq_filter, List.filter_map]
    refine congrArg _ (List.filter_congr fun p hpm => ?_)
    have := hfilter p hpm
    simp only [Function.comp, ne_eq, decide_not, Bool.not_eq_eq_eq_not]
    by_cases hpf : p.2 = file
    · simp [hpf, not_not.mp (mt this.mpr (not_not.mpr hpf))]
    · simp [hpf, this.mp hpf]
  refine ⟨?_, ?_, hle, ?_, ?_, ?_, ?_⟩
  · have hlink : (s.table.fdPut fd).link fd = some s.table.freeLast := by
      simp only [FdTable.link, FdTable.fdPut, update_self]
      rw [if_pos (by omega)]
      congr 1
      omega
    refine Threaded.cons (show fd ≠ s.table.maxNfd by omega) hlink (h.threaded.congr fun x hx => ?_)
    have hne : x ≠ fd := fun he => hfd_free (he ▸ hx)
    simp only [FdTable.link, FdTable.fdPut, update_of_ne hne]
  · rw [herase]
    exact h.part.push hfd
  · have hlen := congrArg List.length herase
    rw [List.length_map, List.length_erase_of_mem hfd, List.length_map] at hlen
    simp only [FdTable.fdPut, h.nopen]
    omega
  · exact h.files.sublist (List.filter_sublist.map Prod.snd)
  · intro p hpf
    obtain ⟨hpm, hpn⟩ := List.mem_filter.mp hpf
    have hne : p.1 ≠ fd := (hfilter p hpm).mp (by simpa using hpn)
    simp only [FdTable.fdPut, update_of_ne hne]
    exact h.taken p hpm
  · intro x hx
    simp only [FdTable.fdPut, update_of_ne (show x ≠ fd by omega)]
    exact h.unused x hx

theorem fdFree_eq (hin : s.table.inited = true) {fd : Nat} (hp : (fd, file) ∈ s.opened) : s.table.fdFree file =
      if s.table.refcnt file ≤ 1 then some (s.table.fdPut fd, 0) else some (s.table, FdTable.eagain) := by
  obtain ⟨hslot, _, _, hfd⟩ := h.taken _ hp
  have hlt : fd < used := h.open_below hp
  have hle := h.used_le
  dsimp only at hslot hfd
  rw [FdTable.fdFree, hfd, Int.toNat_natCast, if_pos ⟨hin, by omega, by omega, hslot⟩]

end FdState.Laid

/-! ## Every call -/

section Inv

variable {s s' : FdState} {nfd : Nat}

theorem FdState.Inv.refcnt (h : s.Inv nfd) (r : FilePtr → Int) :
    FdState.Inv nfd ⟨{ s.table with refcnt := r }, s.opened⟩ := by
  obtain ⟨free, used, hl⟩ := h.laid
  exact { h with laid := ⟨free, used, hl.threaded, hl.part, hl.used_le, hl.nopen, hl.files, hl.taken, hl.unused⟩ }

/-- The table as `fd_get` finds it after `fd_set_init`, if that is needed. -/
theorem FdState.Inv.fdGet (h : s.Inv nfd) (file : FilePtr) :
    ∃ t : FdTable, s.table.fdGet nfd file = some (t.fdPop file) ∧ t.inited = true ∧ t.maxNfd = nfd ∧
      t.fFd = s.table.fFd ∧ t.refcnt = s.table.refcnt ∧ ∃ free used, FdState.Laid ⟨t, s.opened⟩ free used := by
  cases hin : s.table.inited with
  | true => exact ⟨s.table, by rw [FdTable.fdGet, if_pos hin], hin, h.inited hin, rfl, rfl, h.laid⟩
  | false =>
    obtain ⟨hlast, hmax, hop⟩ := h.fresh hin
    obtain ⟨free, used, hl⟩ := h.laid
    refine ⟨{ s.table with inited := true, slots := fun _ => 0, freeLast := nfd, maxNfd := nfd }, ?_, rfl, rfl, rfl,
      rfl, [], 0, ?_⟩
    · simp only [FdTable.fdGet, hin, Bool.false_eq_true, if_false, FdTable.fdSetInit, hlast, hmax, and_self, if_true,
        Option.map_some]
    · have hnopen := hl.nopen
      rw [hop] at hnopen ⊢
      exact ⟨.nil, partition_empty, Nat.zero_le _, hnopen, List.nodup_nil, by simp, fun _ _ => rfl⟩

theorem FdState.Inv.step_alloc {file : FilePtr} (h : s.Inv nfd) (hs : s.step nfd (.alloc file) = some s') :
    s'.Inv nfd := by
  rw [FdState.step] at hs
  obtain ⟨hfile, hs⟩ := Option.ite_none_right_eq_some.1 hs
  obtain ⟨t, hget, hin, hmax, hfd, hrc, free, used, hl⟩ := h.fdGet file
  rw [FdTable.fdAlloc, hget, Option.map_some, Option.map_some] at hs
  cases hs
  rcases hl.fdPop hfile with ⟨hfail, _⟩ | ⟨_, hmax', hin', fd, hret, free', used', hl'⟩
  · dsimp only at hfail
    simp only [hfail]
    rw [if_pos (by omega)]
    -- the file that got no descriptor is not open
    have hkeep : ∀ p ∈ s.opened, p.2 ≠ file := fun p hp he => hfile.2.2 (he ▸ List.mem_map_of_mem hp)
    refine ⟨h.pos, ⟨free, used, hl.threaded, hl.part, hl.used_le, hl.nopen, hl.files, ?_, hl.unused⟩, fun _ => hmax,
      fun hf => by rw [hin] at hf; cases hf⟩
    intro p hp
    simp only [update_of_ne (hkeep p hp)]
    exact hl.taken p hp
  · dsimp only at hret hl' hmax' hin'
    simp only [hret]
    rw [if_neg (by omega)]
    exact ⟨h.pos, ⟨free', used', hl'⟩, fun _ => hmax'.trans hmax, fun hf => by
      rw [hin', hin] at hf; cases hf⟩

theorem FdState.Inv.step_free {file : FilePtr} (h : s.Inv nfd) (hs : s.step nfd (.free file) = some s') :
    s'.Inv nfd := by
  rw [FdState.step] at hs
  obtain ⟨hfile, hs⟩ := Option.ite_none_right_eq_some.1 hs
  obtain ⟨⟨fd, f⟩, hp, rfl⟩ := List.mem_map.mp hfile
  obtain ⟨free, used, hl⟩ := h.laid
  have hin : s.table.inited = true := by
    by_contra hf
    rw [(h.fresh (by simpa using hf)).2.2] at hp
    cases hp
  rw [hl.fdFree_eq hin hp] at hs
  split at hs
  · cases hs
    exact ⟨h.pos, ⟨fd :: free, used, hl.fdPut hp⟩, h.inited, fun hf => by
      have : s.table.inited = false := hf
      rw [hin] at this; cases this⟩
  · cases hs
    exact h

theorem FdState.Inv.step {ev : FdEvent} (h : s.Inv nfd) (hs : s.step nfd ev = some s') : s'.Inv nfd := by
  cases ev with
  | alloc file => exact h.step_alloc hs
  | free file => exact h.step_free hs
  | put file =>
    cases hs
    exact h.refcnt _
  | get fd =>
    cases hs
    unfold FdTable.fileGet
    split
    · exact h
    · exact h.refcnt _

theorem FdState.Inv.reachable (h : (fdSystem nfd).Reachable s) : s.Inv nfd := by
  refine h.invariant (P := FdState.Inv nfd) ?_ fun s e s' _ hi hs => hi.step hs
  rintro s ⟨hpos, _, hop, hin, hn, hlast, hmax, hslots⟩
  refine ⟨hpos, ⟨[], 0, ?_⟩, fun hf => absurd (hin.symm.trans hf) Bool.false_ne_true, fun _ => ⟨hlast, hmax, hop⟩⟩
  refine ⟨?_, ?_, Nat.zero_le _, ?_, ?_, ?_, ?_⟩
  · rw [hlast, hmax]; exact .nil
  · rw [hop]; exact partition_empty
  · rw [hop, hn]; rfl
  · rw [hop]; exact List.nodup_nil
  · rw [hop]; simp
  · intro fd _; rw [hslots]

end Inv

/-- Over every sequence of allocations, lookups and releases: free list and open descriptors partition the used part of
the table, and the rest starts at `fdtbl_nopen` when the free list is empty; no two open files share a descriptor; a
lookup finds exactly the open files; a release of one passes its assertions, and an allocation fails only when all
descriptors are in use. -/
theorem fd_table_partition {nfd : Nat} {s : FdState} (h : (fdSystem nfd).Reachable s) :
    (∃ free used, s.Laid free used ∧ (free = [] → used = s.table.nopen)) ∧
    (s.opened.map Prod.fst).Nodup ∧
    (∀ (fd : Int) file, s.table.lookup fd = some file ↔ ∃ n : Nat, fd = n ∧ (n, file) ∈ s.opened) ∧
    (∀ file ∈ s.opened.map Prod.snd, (s.table.fdFree file).isSome = true) ∧
    (∀ file, file % 2 = 0 ∧ file ≠ 0 ∧ file ∉ s.opened.map Prod.snd →
      ∃ r, s.table.fdAlloc nfd file = some r ∧ (r.2 < 0 ↔ s.opened.length = nfd)) := by
  have hi := FdState.Inv.reachable h
  obtain ⟨free, used, hl⟩ := hi.laid
  refine ⟨⟨free, used, hl, ?_⟩, (List.nodup_append.mp hl.part.nodup).2.1, fun fd file => hl.lookup_iff fd, ?_, ?_⟩
  · rintro rfl
    simpa using hl.length
  · intro file hfile
    obtain ⟨⟨fd, f⟩, hp, rfl⟩ := List.mem_map.mp hfile
    have hin : s.table.inited = true := by
      by_contra hf
      rw [(hi.fresh (by simpa using hf)).2.2] at hp
      cases hp
    rw [hl.fdFree_eq hin hp]
    split <;> rfl
  · intro file hfile
    obtain ⟨t, hget, _, hmax, _, _, free', used', hl'⟩ := hi.fdGet file
    refine ⟨_, by rw [FdTable.fdAlloc, hget, Option.map_some], ?_⟩
    rcases hl'.fdPop hfile with ⟨hfail, hlen⟩ | ⟨hlen, _, _, fd, hret, _⟩
    · dsimp only at hfail hlen
      simp only [hfail]
      omega
    · dsimp only at hret hlen
      simp only [hret]
      omega

/-- A descriptor that was closed is handed out again, and finds the new file. -/
theorem fd_table_partition_reuse : ∃ s, (fdSystem 8).Reachable s ∧ s.opened = [(0, 6), (1, 4)] ∧
    s.table.lookup 0 = some 6 ∧ s.table.lookup 2 = none := by
  obtain ⟨s, hr, hopened⟩ : ∃ s, (fdSystem 8).Reachable s ∧ s.opened = [(0, 6), (1, 4)] :=
    ⟨_, (fdSystem 8).reachable_last ⟨⟨false, fun _ => 0, 0, 0, 0, fun _ => 0, fun _ => 0⟩, []⟩
      [.alloc 2, .alloc 4, .get 0, .free 2, .alloc 6] ⟨by decide, by decide, rfl, rfl, rfl, rfl, rfl, rfl⟩ (by decide +kernel),
      by decide +kernel⟩
  obtain ⟨_, _, hlookup, _, _⟩ := fd_table_partition hr
  refine ⟨s, hr, hopened, (hlookup 0 6).mpr ⟨0, rfl, by rw [hopened]; simp⟩, ?_⟩
  cases hfound : s.table.lookup 2 with
  | none => rfl
  | some file =>
    obtain ⟨n, hn, hp⟩ := (hlookup 2 file).mp hfound
    rw [hopened] at hp
    simp only [List.mem_cons, Prod.mk.injEq, List.not_mem_nil, or_false] at hp
    omega

end PolarFs.File
