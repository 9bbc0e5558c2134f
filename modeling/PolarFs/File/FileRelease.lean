/-
`pfs_file_release` (`pfs_file.cc`): the file is opened, truncated, its inode released, and the file closed again, all
of it again as long as the result is `-EAGAIN`. The pointer to the open file is a variable outside of the loop, and
`pfs_file_open_impl` leaves it alone when it fails.

A file is named by the number of the open that returned it, which is not reused as a pointer may be.
-/
import Mathlib.Tactic

namespace PolarFs.File.Release

def enoent : Int := -2

def eagain : Int := -11

/-- What the calls of one round of the loop return; a call that is not reached does not matter. -/
structure Round where
  openErr : Int
  truncateErr : Int
  releaseErr : Int
  closeErr : Int
  deriving DecidableEq, Repr

/-- The calls that matter: an open that succeeds, and `pfs_file_close` with whether it closed the file. -/
inductive FileCall where
  | opened (file : Nat)
  | close (file : Nat) (done : Bool)
  deriving DecidableEq, Repr

/-- The variables of `pfs_file_release`, the number of files opened and the calls so far. -/
structure State where
  err : Int
  file : Option Nat
  next : Nat
  calls : List FileCall
  deriving DecidableEq, Repr

def State.init : State := ⟨0, none, 0, []⟩

/-- `err` at the end of a round. -/
def Round.err (r : Round) : Int :=
  let err := if r.openErr < 0 then r.openErr else if r.truncateErr < 0 then r.truncateErr else r.releaseErr
  if err = enoent then 0 else err

/-- `pfs_file_open_impl`, which stores the pointer only when it succeeds. -/
def State.openImpl (s : State) (r : Round) : State :=
  if r.openErr < 0 then s
  else { s with file := some s.next, next := s.next + 1, calls := s.calls ++ [.opened s.next] }

/-- `if (file) pfs_file_close(file)`. -/
def State.close (s : State) (r : Round) : State :=
  match s.file with
  | none => s
  | some file => { s with calls := s.calls ++ [.close file (decide (0 ≤ r.closeErr))] }

/-- The body of the loop. -/
def State.round (s : State) (r : Round) : State := { (s.openImpl r).close r with err := r.err }

/-- `pfs_file_release`, as far as the outcomes go. -/
def fileRelease : State → List Round → State
  | s, [] => s
  | s, r :: rs => if (s.round r).err = eagain then fileRelease (s.round r) rs else s.round r

/-- After a file is closed it is not passed to `pfs_file_close` again. -/
def NoReuse (calls : List FileCall) : Prop :=
  calls.Pairwise fun a b => ∀ file done, a = .close file true → b ≠ .close file done

/-- Every file that was opened is closed exactly once, and none is passed to `pfs_file_close` after that. -/
def ClosedOnce (calls : List FileCall) : Prop :=
  (∀ file, .opened file ∈ calls → calls.count (.close file true) = 1) ∧ NoReuse calls

/-- The rounds that are run. -/
def executed : List Round → List Round
  | [] => []
  | r :: rs => if r.err = eagain then r :: executed rs else [r]

/-! ## The file of the variable -/

open State

/-- What is known of the pointer: nothing was opened yet, the file it names is open, or it is closed. -/
inductive Pointer where
  | null
  | live
  | dangling
  deriving DecidableEq, Repr

/-- The pointer after the close at the end of a round. -/
def Round.pointer (r : Round) : Pointer := if 0 ≤ r.closeErr then .dangling else .live

/-- Which rounds leave no file open and close none twice: from a live pointer the open has to fail, from a dangling one
it has to succeed. -/
def Fine : Pointer → List Round → Prop
  | .null, [] => True
  | .live, [] => False
  | .dangling, [] => True
  | .null, r :: rs => if r.openErr < 0 then Fine .null rs else Fine r.pointer rs
  | .live, r :: rs => r.openErr < 0 ∧ Fine r.pointer rs
  | .dangling, r :: rs => 0 ≤ r.openErr ∧ Fine r.pointer rs

/-- The files named so far, all of them but `file` closed. -/
structure Named (s : State) (file : Nat) : Prop where
  var : s.file = some file
  lt : ∀ f, .opened f ∈ s.calls → f < s.next
  close_lt : ∀ f done, .close f done ∈ s.calls → f < s.next
  mem : .opened file ∈ s.calls
  others : ∀ f, .opened f ∈ s.calls → f ≠ file → .close f true ∈ s.calls
  noReuse : NoReuse s.calls

def State.At (s : State) : Pointer → Prop
  | .null => s.file = none ∧ s.calls = []
  | .live => ∃ file, Named s file ∧ .close file true ∉ s.calls
  | .dangling => ∃ file, Named s file ∧ .close file true ∈ s.calls

/-- A file was closed twice, or one that is open is no longer named by the pointer. -/
def State.Broken (s : State) : Prop :=
  ¬NoReuse s.calls ∨
    ∃ f < s.next, .opened f ∈ s.calls ∧ .close f true ∉ s.calls ∧ s.file ≠ some f

section Calls

variable {calls : List FileCall} {file : Nat}

theorem NoReuse.snoc_opened (h : NoReuse calls) (file : Nat) : NoReuse (calls ++ [.opened file]) := by
  refine List.pairwise_append.mpr ⟨h, List.pairwise_singleton _ _, ?_⟩
  intro a _ b hb f done _ hb'
  rw [List.mem_singleton.mp hb] at hb'
  cases hb'

theorem NoReuse.snoc_close (h : NoReuse calls) (hn : .close file true ∉ calls) (done : Bool) :
    NoReuse (calls ++ [.close file done]) := by
  refine List.pairwise_append.mpr ⟨h, List.pairwise_singleton _ _, ?_⟩
  intro a ha b hb f done' hac hbc
  rw [List.mem_singleton.mp hb] at hbc
  cases hbc
  exact hn (hac ▸ ha)

theorem not_noReuse_snoc (hm : .close file true ∈ calls) (done : Bool) : ¬NoReuse (calls ++ [.close file done]) := by
  intro h
  exact (List.pairwise_append.mp h).2.2 _ hm _ (List.mem_singleton_self _) file done rfl rfl

theorem NoReuse.of_append {calls' : List FileCall} (h : NoReuse (calls ++ calls')) : NoReuse calls :=
  (List.pairwise_append.mp h).1

/-- Without reuse a file that is closed is closed once. -/
theorem NoReuse.count (h : NoReuse calls) (hm : .close file true ∈ calls) : calls.count (.close file true) = 1 := by
  induction calls with
  | nil => cases hm
  | cons a calls ih =>
    obtain ⟨ha, hrest⟩ := List.pairwise_cons.mp h
    rw [List.count_cons]
    by_cases he : a = .close file true
    · have hnot : .close file true ∉ calls := fun hin => ha _ hin file true he rfl
      rw [List.count_eq_zero_of_not_mem hnot, he]
      simp
    · rw [ih hrest ((List.mem_cons.mp hm).resolve_left (Ne.symm he))]
      simp [he]

end Calls

section Round

variable {s : State} {r : Round} {rs : List Round}

theorem State.round_fail_null (ho : r.openErr < 0) (hf : s.file = none) : s.round r = { s with err := r.err } := by
  simp only [round, openImpl, if_pos ho, close, hf]

theorem State.round_fail {file : Nat} (ho : r.openErr < 0) (hf : s.file = some file) :
    s.round r = { s with calls := s.calls ++ [.close file (decide (0 ≤ r.closeErr))], err := r.err } := by
  simp only [round, openImpl, if_pos ho, close, hf]

theorem State.round_open (ho : 0 ≤ r.openErr) : s.round r =
    { err := r.err
      file := some s.next
      next := s.next + 1
      calls := s.calls ++ [.opened s.next] ++ [.close s.next (decide (0 ≤ r.closeErr))] } := by
  simp only [round, openImpl, if_neg (show ¬r.openErr < 0 by omega), close]

/-- A round only adds calls, and the pointer is either left alone or names a new file. -/
theorem State.round_calls (s : State) (r : Round) : ∃ added, (s.round r).calls = s.calls ++ added ∧
    (∀ f done, .close f done ∈ added → (s.round r).file = some f) ∧
    ((s.round r).file = s.file ∧ (s.round r).next = s.next ∨
      (s.round r).file = some s.next ∧ (s.round r).next = s.next + 1) := by
  rcases Int.lt_or_le r.openErr 0 with ho | ho
  · cases hf : s.file with
    | none =>
      rw [round_fail_null ho hf]
      exact ⟨[], by simp, by simp, Or.inl ⟨hf, rfl⟩⟩
    | some file =>
      rw [round_fail ho hf]
      refine ⟨[.close file (decide (0 ≤ r.closeErr))], rfl, ?_, Or.inl ⟨hf, rfl⟩⟩
      intro f done hm
      cases List.mem_singleton.mp hm
      exact hf
  · rw [round_open ho]
    refine ⟨[.opened s.next, .close s.next (decide (0 ≤ r.closeErr))], by simp, ?_, Or.inr ⟨rfl, rfl⟩⟩
    intro f done hm
    simp only [List.mem_cons, FileCall.close.injEq, List.not_mem_nil, or_false, reduceCtorEq, false_or] at hm
    rw [hm.1]

theorem State.Broken.round (h : s.Broken) (r : Round) : (s.round r).Broken := by
  obtain ⟨added, hcalls, hadded, hfile⟩ := s.round_calls r
  rcases h with h | ⟨f, hlt, hop, hcl, hne⟩
  · exact Or.inl fun hn => h (hcalls ▸ hn).of_append
  refine Or.inr ⟨f, ?_, ?_, ?_, ?_⟩
  · rcases hfile with ⟨_, hn⟩ | ⟨_, hn⟩ <;> omega
  · rw [hcalls]; exact List.mem_append_left _ hop
  · rw [hcalls]
    intro hm
    rcases List.mem_append.mp hm with hm | hm
    · exact hcl hm
    have hnow := hadded f true hm
    rcases hfile with ⟨he, _⟩ | ⟨he, _⟩
    · exact hne (he.symm.trans hnow)
    · rw [he] at hnow
      cases hnow
      exact absurd hlt (lt_irrefl _)
  · rcases hfile with ⟨he, _⟩ | ⟨he, _⟩
    · rw [he]; exact hne
    · rw [he]
      intro hc
      cases hc
      exact absurd hlt (lt_irrefl _)

theorem State.Broken.fileRelease (h : s.Broken) : ∀ rs, (fileRelease s rs).Broken := by
  intro rs
  induction rs generalizing s with
  | nil => exact h
  | cons r rs ih =>
    unfold Release.fileRelease
    split
    · exact ih (h.round r)
    · exact h.round r

theorem State.Broken.not_closedOnce (h : s.Broken) : ¬ClosedOnce s.calls := by
  rintro ⟨hcount, hno⟩
  rcases h with h | ⟨f, _, hop, hcl, _⟩
  · exact h hno
  · have := hcount f hop
    rw [List.count_eq_zero_of_not_mem hcl] at this
    omega

/-- The state after a round that opened a file, or that closed the one still open. -/
theorem Named.closed {file : Nat} (h : Named s file) (hn : .close file true ∉ s.calls) (r : Round) :
    ({ s with calls := s.calls ++ [.close file (decide (0 ≤ r.closeErr))], err := r.err } : State).At r.pointer := by
  have hnamed : Named { s with calls := s.calls ++ [.close file (decide (0 ≤ r.closeErr))], err := r.err } file := by
    refine ⟨h.var, ?_, ?_, by simp [h.mem], ?_, h.noReuse.snoc_close hn _⟩
    · intro f hf
      exact h.lt f (by simpa using hf)
    · intro f done hf
      simp only [List.mem_append, List.mem_singleton, FileCall.close.injEq] at hf
      rcases hf with hf | ⟨rfl, _⟩
      · exact h.close_lt f done hf
      · exact h.lt f h.mem
    · intro f hf hne
      have := h.others f (by simpa using hf) hne
      simp [this]
  unfold Round.pointer
  by_cases hc : 0 ≤ r.closeErr
  · rw [if_pos hc]
    exact ⟨file, hnamed, by simp [hc]⟩
  · rw [if_neg hc]
    exact ⟨file, hnamed, by simp [hc, hn]⟩

/-- A new file is named, the last one being closed. -/
theorem State.open_closed (hlt : ∀ f, .opened f ∈ s.calls → f < s.next)
    (hclt : ∀ f done, .close f done ∈ s.calls → f < s.next)
    (hall : ∀ f, .opened f ∈ s.calls → .close f true ∈ s.calls) (hno : NoReuse s.calls) (ho : 0 ≤ r.openErr) :
    (s.round r).At r.pointer := by
  have hnamed : Named { s with file := some s.next, next := s.next + 1, calls := s.calls ++ [.opened s.next] } s.next := by
    refine ⟨rfl, ?_, ?_, by simp, ?_, hno.snoc_opened _⟩
    · intro f hf
      simp only [List.mem_append, List.mem_singleton, FileCall.opened.injEq] at hf
      rcases hf with hf | rfl
      · exact Nat.lt_succ_of_lt (hlt f hf)
      · exact Nat.lt_succ_self _
    · intro f done hf
      exact Nat.lt_succ_of_lt (hclt f done (by simpa using hf))
    · intro f hf hne
      have hf' : .opened f ∈ s.calls := by simpa [hne] using hf
      simp [hall f hf']
  have hn : .close s.next true ∉ s.calls ++ [.opened s.next] := by
    intro hm
    exact absurd (hclt _ _ (by simpa using hm)) (lt_irrefl _)
  rw [round_open ho]
  exact hnamed.closed hn r

/-- What a round does to the pointer. -/
theorem State.At.round {p : Pointer} (h : s.At p) (r : Round) :
    (∃ q, (s.round r).At q ∧ ∀ rs, Fine p (r :: rs) ↔ Fine q rs) ∨
    ((s.round r).Broken ∧ ∀ rs, ¬Fine p (r :: rs)) := by
  rcases Int.lt_or_le r.openErr 0 with ho | ho
  · cases p with
    | null =>
      refine Or.inl ⟨.null, ?_, fun rs => by simp only [Fine, if_pos ho]⟩
      rw [round_fail_null ho h.1]
      exact h
    | live =>
      obtain ⟨file, hnamed, hn⟩ := h
      refine Or.inl ⟨r.pointer, ?_, fun rs => by simp only [Fine, ho, true_and]⟩
      rw [round_fail ho hnamed.var]
      exact hnamed.closed hn r
    | dangling =>
      -- the pointer of the last round is closed once more
      obtain ⟨file, hnamed, hm⟩ := h
      refine Or.inr ⟨Or.inl ?_, fun rs hf => absurd hf.1 (by omega)⟩
      rw [round_fail ho hnamed.var]
      exact not_noReuse_snoc hm _
  · cases p with
    | null =>
      refine Or.inl ⟨r.pointer, ?_, fun rs => by simp only [Fine, if_neg (show ¬r.openErr < 0 by omega)]⟩
      refine open_closed ?_ ?_ ?_ ?_ ho
      all_goals simp [h.2, NoReuse]
    | live =>
      -- the pointer is overwritten, and nobody closes the file any more
      obtain ⟨file, hnamed, hn⟩ := h
      have hlt := hnamed.lt file hnamed.mem
      refine Or.inr ⟨Or.inr ⟨file, ?_, ?_, ?_, ?_⟩, fun rs hf => absurd hf.1 (by omega)⟩
      all_goals rw [round_open ho]
      · exact Nat.lt_succ_of_lt hlt
      · simp [hnamed.mem]
      · simp [hn, hlt.ne]
      · simp [hlt.ne']
    | dangling =>
      obtain ⟨file, hnamed, hm⟩ := h
      refine Or.inl ⟨r.pointer, ?_, fun rs => by simp only [Fine, ho, true_and]⟩
      refine open_closed hnamed.lt hnamed.close_lt ?_ hnamed.noReuse ho
      intro f hf
      by_cases hne : f = file
      · rw [hne]; exact hm
      · exact hnamed.others f hf hne

/-- When the loop is left, the pointer tells whether every file was closed. -/
theorem State.At.closedOnce_iff {p : Pointer} (h : s.At p) : ClosedOnce s.calls ↔ Fine p [] := by
  cases p with
  | null =>
    rw [h.2]
    simp [Fine, ClosedOnce, NoReuse]
  | live =>
    obtain ⟨file, hnamed, hn⟩ := h
    refine iff_of_false ?_ id
    rintro ⟨hcount, _⟩
    have := hcount file hnamed.mem
    rw [List.count_eq_zero_of_not_mem hn] at this
    omega
  | dangling =>
    obtain ⟨file, hnamed, hm⟩ := h
    refine iff_of_true ⟨?_, hnamed.noReuse⟩ trivial
    intro f hf
    refine hnamed.noReuse.count ?_
    by_cases hne : f = file
    · rw [hne]; exact hm
    · exact hnamed.others f hf hne

end Round

/-! ## The loop -/

/-- From a state where the pointer is known, the files end up closed once exactly when the rounds are fine. -/
theorem closedOnce_iff_fine : ∀ (rs : List Round) {s : State} {p : Pointer}, s.At p →
    (ClosedOnce (fileRelease s rs).calls ↔ Fine p (executed rs))
  | [], s, p, hs => hs.closedOnce_iff
  | r :: rs, s, p, hs => by
    unfold fileRelease executed
    rw [show (s.round r).err = r.err from rfl]
    rcases hs.round r with ⟨q, hq, hfine⟩ | ⟨hbroken, hfine⟩
    · split
      · rw [hfine]; exact closedOnce_iff_fine rs hq
      · rw [hfine]; exact hq.closedOnce_iff
    · split
      · exact iff_of_false (hbroken.fileRelease rs).not_closedOnce (hfine _)
      · exact iff_of_false hbroken.not_closedOnce (hfine _)

/-- The rounds from the first one on that opened the file. -/
def opens (rs : List Round) : List Round := rs.dropWhile fun r => decide (r.openErr < 0)

/-- An open after the first one fails exactly when the close before it failed, and the last close does not fail. -/
def Reopens (rs : List Round) : Prop :=
  rs.IsChain (fun a b => b.openErr < 0 ↔ a.closeErr < 0) ∧ ∀ r ∈ rs.getLast?, 0 ≤ r.closeErr

theorem fine_pointer_iff : ∀ (rs : List Round) (r : Round), Fine r.pointer rs ↔ Reopens (r :: rs)
  | [], r => by
    unfold Round.pointer Reopens
    by_cases hc : 0 ≤ r.closeErr <;> simp [hc, Fine]
  | b :: rs, r => by
    have ih := fine_pointer_iff rs b
    have hreopens : Reopens (r :: b :: rs) ↔ (b.openErr < 0 ↔ r.closeErr < 0) ∧ Reopens (b :: rs) := by
      unfold Reopens
      rw [List.isChain_cons_cons, List.getLast?_cons_cons, and_assoc]
    rw [hreopens, ← ih]
    unfold Round.pointer
    by_cases hc : 0 ≤ r.closeErr
    · rw [if_pos hc, Fine]
      exact and_congr_left fun _ => by omega
    · rw [if_neg hc, Fine]
      exact and_congr_left fun _ => by omega

theorem fine_null_iff : ∀ rs : List Round, Fine .null rs ↔ Reopens (opens rs)
  | [] => by simp [Fine, opens, Reopens]
  | r :: rs => by
    unfold Fine opens
    split
    case isTrue ho =>
      rw [List.dropWhile_cons_of_pos (by simpa using ho)]
      exact fine_null_iff rs
    case isFalse ho =>
      rw [List.dropWhile_cons_of_neg (by simpa using ho)]
      exact fine_pointer_iff rs r

/-- `pfs_file_release` closes every file it opened exactly once, and none that is closed already, exactly when from the
first successful open on an open fails only if the close before it had failed. So when every close succeeds, no open may
fail once one has succeeded. -/
theorem closed_once_iff (rounds : List Round) :
    ClosedOnce (fileRelease init rounds).calls ↔ Reopens (opens (executed rounds)) := by
  rw [← fine_null_iff]
  exact closedOnce_iff_fine rounds ⟨rfl, rfl⟩

/-- The truncation has to be tried again, and then the inode is gone: the file is closed a second time. -/
theorem not_closed_once_of_failed_reopen :
    (fileRelease init [⟨5, eagain, 0, 0⟩, ⟨enoent, 0, 0, 0⟩]).calls =
        [.opened 0, .close 0 true, .close 0 true] ∧
      (fileRelease init [⟨5, eagain, 0, 0⟩, ⟨enoent, 0, 0, 0⟩]).err = 0 ∧
      ¬ClosedOnce (fileRelease init [⟨5, eagain, 0, 0⟩, ⟨enoent, 0, 0, 0⟩]).calls := by
  refine ⟨by decide, by decide, ?_⟩
  rintro ⟨hcount, _⟩
  exact absurd (hcount 0 (by decide)) (by decide)

end PolarFs.File.Release
