/-
POSIX record locks on one file, write locks only: a lock belongs to a process and covers a byte range,
it is refused where it meets a lock of another process, and closing any descriptor of the file drops
every lock the process has on it.
-/
import Mathlib.Data.List.Basic

namespace RecordLock

/-- A byte range as `fcntl` takes it; length 0 reaches to the end of the file, however far it grows. -/
structure Range where
  start : Int
  len : Nat
  deriving DecidableEq, Repr

instance : Membership Int Range where
  mem r x := r.start ≤ x ∧ (r.len = 0 ∨ x < r.start + r.len)

def Range.overlaps (r r' : Range) : Bool :=
  decide ((r.len = 0 ∨ r'.start < r.start + r.len) ∧ (r'.len = 0 ∨ r.start < r'.start + r'.len))

theorem Range.overlaps_of_mem {r r' : Range} {x : Int} (h : x ∈ r) (h' : x ∈ r') : r.overlaps r' = true := by
  obtain ⟨h1, h2⟩ := h
  obtain ⟨h3, h4⟩ := h'
  rw [Range.overlaps, decide_eq_true_eq]
  omega

theorem Range.overlaps_comm (r r' : Range) : r.overlaps r' = r'.overlaps r := by
  simp only [Range.overlaps, and_comm]

/-- The locks on the file and the descriptors by which the processes have it open. -/
structure LockFile (P : Type) where
  locks : List (P × Range)
  fds : List (P × Nat)
  nextFd : Nat

namespace LockFile

variable {P : Type}

def openFd (f : LockFile P) (p : P) : LockFile P × Nat :=
  ({ f with fds := (p, f.nextFd) :: f.fds, nextFd := f.nextFd + 1 }, f.nextFd)

/-- Locks of different processes are disjoint. -/
def Exclusive (f : LockFile P) : Prop :=
  ∀ l ∈ f.locks, ∀ l' ∈ f.locks, l.1 ≠ l'.1 → l.2.overlaps l'.2 = false

/-- What calls of `p` can do to the file: the locks stay disjoint and the others keep theirs. -/
structure OwnStep (p : P) (f f' : LockFile P) : Prop where
  exclusive : f.Exclusive → f'.Exclusive
  other : ∀ l ∈ f.locks, l.1 ≠ p → l ∈ f'.locks

variable {f f' f'' : LockFile P} {p : P}

theorem OwnStep.refl (p : P) (f : LockFile P) : OwnStep p f f := ⟨id, fun _ h _ => h⟩

theorem OwnStep.trans (h : OwnStep p f f') (h' : OwnStep p f' f'') : OwnStep p f f'' :=
  ⟨fun hf => h'.exclusive (h.exclusive hf), fun l hl hp => h'.other l (h.other l hl hp) hp⟩

theorem OwnStep.openFd (f : LockFile P) (p : P) : OwnStep p f (f.openFd p).1 := ⟨id, fun _ h _ => h⟩

section Locks

variable [DecidableEq P]

/-- `fcntl(F_SETLK, F_WRLCK)`: a negative start is an error, and so is a lock of another process. -/
def setlk (f : LockFile P) (p : P) (r : Range) : Option (LockFile P) :=
  if r.start < 0 ∨ f.locks.any (fun l => decide (l.1 ≠ p) && l.2.overlaps r) = true then none
  else some { f with locks := (p, r) :: f.locks }

/-- `close`: the locks go with the first descriptor that is closed. -/
def closeFd (f : LockFile P) (p : P) (fd : Nat) : LockFile P :=
  if (p, fd) ∈ f.fds then
    { f with locks := f.locks.filter fun l => decide (l.1 ≠ p), fds := f.fds.erase (p, fd) }
  else f

/-- The process ends. -/
def exit (f : LockFile P) (p : P) : LockFile P :=
  { f with locks := f.locks.filter fun l => decide (l.1 ≠ p), fds := f.fds.filter fun d => decide (d.1 ≠ p) }

theorem OwnStep.of_filter (h : f'.locks = f.locks.filter fun l => decide (l.1 ≠ p)) : OwnStep p f f' := by
  constructor
  · intro hf l hl l' hl'
    rw [h] at hl hl'
    exact hf l (List.mem_of_mem_filter hl) l' (List.mem_of_mem_filter hl')
  · intro l hl hp
    rw [h, List.mem_filter]
    exact ⟨hl, decide_eq_true hp⟩

theorem OwnStep.closeFd (f : LockFile P) (p : P) (fd : Nat) : OwnStep p f (f.closeFd p fd) := by
  unfold LockFile.closeFd
  split
  · exact .of_filter rfl
  · exact .refl p f

theorem OwnStep.exit (f : LockFile P) (p : P) : OwnStep p f (f.exit p) := .of_filter rfl

/-- A lock that is granted meets no lock of another process. -/
theorem setlk_some {r : Range} (h : f.setlk p r = some f') :
    0 ≤ r.start ∧ f'.locks = (p, r) :: f.locks ∧ ∀ l ∈ f.locks, l.1 ≠ p → l.2.overlaps r = false := by
  unfold setlk at h
  split at h
  · cases h
  case isFalse hfree =>
    cases h
    rw [not_or, Int.not_lt] at hfree
    refine ⟨hfree.1, rfl, fun l hl hp => ?_⟩
    by_contra hover
    rw [Bool.not_eq_false] at hover
    refine hfree.2 (List.any_eq_true.mpr ⟨l, hl, ?_⟩)
    rw [Bool.and_eq_true]
    exact ⟨decide_eq_true hp, hover⟩

theorem OwnStep.setlk {r : Range} (h : f.setlk p r = some f') : OwnStep p f f' := by
  obtain ⟨_, hlocks, hfree⟩ := setlk_some h
  constructor
  · intro hf l hl l' hl' hne
    rw [hlocks, List.mem_cons] at hl hl'
    rcases hl with rfl | hl <;> rcases hl' with rfl | hl'
    · exact absurd rfl hne
    · rw [Range.overlaps_comm]; exact hfree l' hl' (Ne.symm hne)
    · exact hfree l hl hne
    · exact hf l hl l' hl' hne
  · intro l hl _
    rw [hlocks]
    exact List.mem_cons_of_mem _ hl

end Locks

/-- Two locks with a byte in common belong to one process. -/
theorem Exclusive.owner_eq (hf : f.Exclusive) {q : P} {r r' : Range} (h : (p, r) ∈ f.locks) (h' : (q, r') ∈ f.locks)
    {x : Int} (hx : x ∈ r) (hx' : x ∈ r') : p = q := by
  by_contra hne
  have := hf _ h _ h' hne
  rw [Range.overlaps_of_mem hx hx'] at this
  cases this

end LockFile

end RecordLock
