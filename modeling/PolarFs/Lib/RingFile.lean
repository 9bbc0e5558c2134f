/-
A file of equal slots that is used as a ring. Runs of slots are written and read at a position inside the file; a
position of the ring counts on past the end of the file and stands for its remainder.
-/
import Mathlib.Data.List.Basic
import Mathlib.Data.Nat.ModEq

namespace RingFile

variable {α : Type*}

/-- Slots `pos, pos + 1, …` are overwritten. -/
def writeRun (f : Nat → α) (pos : Nat) : List α → Nat → α
  | [] => f
  | a :: L => writeRun (Function.update f pos a) (pos + 1) L

/-- The `n` slots from `pos` on. -/
def readRun (f : Nat → α) (pos : Nat) : Nat → List α
  | 0 => []
  | n + 1 => f pos :: readRun f (pos + 1) n

/-- The ring positions `pos, pos + 1, …` are overwritten. -/
def ringWrite (size : Nat) (f : Nat → α) (pos : Nat) : List α → Nat → α
  | [] => f
  | a :: L => ringWrite size (Function.update f (pos % size) a) (pos + 1) L

@[simp] theorem length_readRun (f : Nat → α) : ∀ (pos n : Nat), (readRun f pos n).length = n
  | _, 0 => rfl
  | pos, n + 1 => by rw [readRun, List.length_cons, length_readRun f (pos + 1) n]

theorem ringWrite_append (size : Nat) : ∀ (L L' : List α) (f : Nat → α) (pos : Nat),
    ringWrite size f pos (L ++ L') = ringWrite size (ringWrite size f pos L) (pos + L.length) L'
  | [], _, _, _ => rfl
  | a :: L, L', f, pos => by
    rw [List.cons_append, ringWrite, ringWrite_append size L L', ringWrite, List.length_cons,
      Nat.add_right_comm, Nat.add_assoc]

/-- Positions with the same remainder are the same place. -/
theorem ringWrite_congr {size : Nat} : ∀ {pos pos' : Nat}, pos % size = pos' % size → ∀ (L : List α) (f : Nat → α),
    ringWrite size f pos L = ringWrite size f pos' L
  | _, _, _, [], _ => rfl
  | pos, pos', h, a :: L, f => by
    have hnext : (pos + 1) % size = (pos' + 1) % size := Nat.ModEq.add_right 1 h
    rw [ringWrite, ringWrite, h, ringWrite_congr hnext]

/-- A write that does not cross the end of the file is a write of the ring. -/
theorem writeRun_eq_ringWrite (size : Nat) : ∀ (L : List α) (f : Nat → α) (pos : Nat), pos + L.length ≤ size →
    writeRun f pos L = ringWrite size f pos L
  | [], _, _, _ => rfl
  | a :: L, f, pos, h => by
    rw [List.length_cons] at h
    rw [writeRun, ringWrite, Nat.mod_eq_of_lt (by omega), writeRun_eq_ringWrite size L _ (pos + 1) (by omega)]

/-- Two positions less than a ring apart are different places. -/
theorem mod_ne_mod (pos : Nat) {size i j : Nat} (hij : i < j) (hj : j < i + size) :
    (pos + i) % size ≠ (pos + j) % size := by
  intro heq
  have hmod : i ≡ j [MOD size] := Nat.ModEq.add_left_cancel' pos heq
  have hdvd : size ∣ j - i := (Nat.modEq_iff_dvd' hij.le).mp hmod
  have hle := Nat.le_of_dvd (by omega) hdvd
  omega

/-- A place ahead of the written run keeps its value. -/
theorem ringWrite_before {size : Nat} : ∀ (L : List α) (f : Nat → α) (pos i : Nat), L.length + i < size →
    ringWrite size f (pos + 1 + i) L (pos % size) = f (pos % size)
  | [], _, _, _, _ => rfl
  | a :: L, f, pos, i, h => by
    rw [List.length_cons] at h
    rw [ringWrite, Nat.add_assoc (pos + 1), ringWrite_before L _ pos (i + 1) (by omega),
      Function.update_of_ne]
    have hne := mod_ne_mod pos (show 0 < 1 + i by omega) (show 1 + i < 0 + size by omega)
    rwa [Nat.add_zero, ← Nat.add_assoc] at hne

/-- A run that is not longer than the ring is there after it was written. -/
theorem ringWrite_get (size : Nat) : ∀ (L : List α) (f : Nat → α) (pos i : Nat) (h : i < L.length), L.length ≤ size →
    ringWrite size f pos L ((pos + i) % size) = L[i]
  | [], _, _, _, h, _ => by cases h
  | a :: L, f, pos, 0, _, hlen => by
    rw [List.length_cons] at hlen
    rw [ringWrite, Nat.add_zero]
    exact (ringWrite_before L _ pos 0 (by omega)).trans (Function.update_self ..)
  | a :: L, f, pos, i + 1, h, hlen => by
    rw [List.length_cons] at h hlen
    have ih := ringWrite_get size L (Function.update f (pos % size) a) (pos + 1) i (by omega) (by omega)
    rw [ringWrite, List.getElem_cons_succ, ← ih, Nat.add_right_comm pos 1 i, Nat.add_assoc]

end RingFile
