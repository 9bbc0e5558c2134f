/-
Byte-addressed storage as a function of the address: reading and overwriting a range, and a file as a
byte array of a given size that reads zero where nothing was written.
-/
import Mathlib.Data.List.GetD
import Mathlib.Order.MinMax

namespace PolarFs.Bytes

variable {α : Type*} {a n : Nat} {m : Nat → α} {d : List α}

/-! ## Ranges -/

/-- The `n` values from address `a` on. -/
def readAt (m : Nat → α) (a n : Nat) : List α := (List.range n).map fun i => m (a + i)

/-- `d` stored from address `a` on. -/
def writeAt (m : Nat → α) (a : Nat) (d : List α) : Nat → α :=
  fun i => if a ≤ i then d.getD (i - a) (m i) else m i

@[simp] theorem length_readAt (m : Nat → α) (a n : Nat) : (readAt m a n).length = n := by simp [readAt]

@[simp] theorem readAt_zero (m : Nat → α) (a : Nat) : readAt m a 0 = [] := rfl

theorem getElem?_readAt (m : Nat → α) (a n i : Nat) :
    (readAt m a n)[i]? = if i < n then some (m (a + i)) else none := by
  by_cases hi : i < n <;> simp [readAt, hi]

theorem readAt_congr {m' : Nat → α} (h : ∀ i, a ≤ i → i < a + n → m i = m' i) : readAt m a n = readAt m' a n := by
  refine List.map_congr_left fun i hi => h (a + i) (Nat.le_add_right ..) ?_
  rw [List.mem_range] at hi
  omega

theorem readAt_add (m : Nat → α) (a n k : Nat) : readAt m a (n + k) = readAt m a n ++ readAt m (a + n) k := by
  simp only [readAt, List.range_add, List.map_append, List.map_map]
  refine congrArg _ (List.map_congr_left fun i _ => ?_)
  simp only [Function.comp, Nat.add_assoc]

/-- A part of a range that was read. -/
theorem take_drop_readAt {k l : Nat} (h : k + l ≤ n) : ((readAt m a n).drop k).take l = readAt m (a + k) l := by
  obtain ⟨r, rfl⟩ := Nat.exists_eq_add_of_le h
  rw [readAt_add, readAt_add, List.append_assoc, List.drop_left' (length_readAt ..), List.take_left' (length_readAt ..)]

theorem readAt_const {c : α} (h : ∀ i, a ≤ i → i < a + n → m i = c) : readAt m a n = List.replicate n c := by
  rw [readAt_congr h, readAt, List.map_const', List.length_range]

theorem writeAt_of_lt {i : Nat} (h : i < a) : writeAt m a d i = m i := by
  rw [writeAt, if_neg (by omega)]

theorem writeAt_of_ge {i : Nat} (h : a + d.length ≤ i) : writeAt m a d i = m i := by
  unfold writeAt
  split
  · rw [List.getD_eq_default _ _ (by omega)]
  · rfl

theorem writeAt_of_mem {i : Nat} (c : α) (h : a ≤ i) (h' : i < a + d.length) : writeAt m a d i = d.getD (i - a) c := by
  rw [writeAt, if_pos h, List.getD_eq_getElem _ _ (by omega), List.getD_eq_getElem _ _ (by omega)]

@[simp] theorem writeAt_nil (m : Nat → α) (a : Nat) : writeAt m a [] = m := by
  funext i
  simp [writeAt]

/-- The same write, seen from address `c` on. -/
theorem writeAt_shift (m : Nat → α) (c a i : Nat) (d : List α) :
    writeAt m (c + a) d (c + i) = writeAt (fun j => m (c + j)) a d i := by
  simp only [writeAt, Nat.add_le_add_iff_left, Nat.add_sub_add_left]

theorem writeAt_append (m : Nat → α) (a : Nat) (d e : List α) :
    writeAt (writeAt m a d) (a + d.length) e = writeAt m a (d ++ e) := by
  funext i
  rcases Nat.lt_or_ge i a with hlt | hge
  · rw [writeAt_of_lt (by omega), writeAt_of_lt hlt, writeAt_of_lt hlt]
  · rcases Nat.lt_or_ge i (a + d.length) with hd | hd
    · rw [writeAt_of_lt hd, writeAt, writeAt, if_pos hge, if_pos hge, List.getD_append _ _ _ _ (by omega)]
    · rw [writeAt, if_pos hd, writeAt_of_ge hd, writeAt, if_pos hge, List.getD_append_right _ _ _ _ (by omega)]
      congr 1
      omega

/-- What was read, stored back with `d` over a part of it, is `d` stored at that part. -/
theorem writeAt_readAt_splice {k : Nat} (h : k + d.length ≤ n) :
    writeAt m a ((readAt m a n).take k ++ d ++ (readAt m a n).drop (k + d.length)) = writeAt m (a + k) d := by
  have hkeep : ∀ (m' : Nat → α) (b l : Nat), (∀ i, b ≤ i → i < b + l → m' i = m i) →
      writeAt m' b (readAt m b l) = m' := by
    intro m' b l hm
    funext i
    rcases Nat.lt_or_ge i b with hlt | hge
    · exact writeAt_of_lt hlt
    rcases Nat.lt_or_ge i (b + l) with hl | hl
    · rw [writeAt, if_pos hge, List.getD_eq_getElem?_getD, getElem?_readAt, if_pos (by omega), Option.getD_some,
        hm i hge hl]
      congr 1
      omega
    · exact writeAt_of_ge (by simpa using hl)
  obtain ⟨r, rfl⟩ := Nat.exists_eq_add_of_le h
  have htake : (readAt m a (k + d.length + r)).take k = readAt m a k := by
    rw [Nat.add_assoc, readAt_add, List.take_left' (length_readAt ..)]
  have hdrop : (readAt m a (k + d.length + r)).drop (k + d.length) = readAt m (a + (k + d.length)) r := by
    rw [readAt_add, List.drop_left' (length_readAt ..)]
  rw [htake, hdrop, List.append_assoc, ← writeAt_append, length_readAt, hkeep m a k fun _ _ _ => rfl, ← writeAt_append,
    Nat.add_assoc]
  refine hkeep _ _ _ fun i hi _ => writeAt_of_ge ?_
  omega

/-! ## Files -/

/-- A file of `size` values; past its size there is nothing, so that a file that grows reads zero
there. -/
structure ByteFile (α : Type*) [Zero α] where
  size : Nat
  byte : Nat → α
  zero_past : ∀ i, size ≤ i → byte i = 0

namespace ByteFile

variable [Zero α]

def empty : ByteFile α := ⟨0, fun _ => 0, fun _ _ => rfl⟩

def read (f : ByteFile α) (off len : Nat) : List α := readAt f.byte off (min len (f.size - off))

/-- Writes past the end leave a gap that reads zero; a write of nothing does not grow the file. -/
def write (f : ByteFile α) (off : Nat) (d : List α) : ByteFile α where
  size := if d = [] then f.size else max f.size (off + d.length)
  byte := writeAt f.byte off d
  zero_past i hi := by
    by_cases hd : d = []
    · subst hd
      rw [writeAt_nil]
      exact f.zero_past i hi
    · rw [if_neg hd] at hi
      rw [writeAt_of_ge (le_trans (le_max_right ..) hi)]
      exact f.zero_past i (le_trans (le_max_left ..) hi)

def truncate (f : ByteFile α) (len : Nat) : ByteFile α where
  size := len
  byte i := if i < len then f.byte i else 0
  zero_past i hi := if_neg (by omega)

/-- Grows to at least `size`. -/
def grow (f : ByteFile α) (size : Nat) : ByteFile α where
  size := max f.size size
  byte := f.byte
  zero_past i hi := f.zero_past i (le_trans (le_max_left ..) hi)

/-- A write that failed: of the bytes below the size, those in `keep` may have changed. -/
def failWrite (f : ByteFile α) (off : Nat) (d : List α) (keep : Nat → Bool) : ByteFile α where
  size := f.size
  byte i := if i < f.size ∧ keep i then writeAt f.byte off d i else f.byte i
  zero_past i hi := by
    rw [if_neg fun hc => Nat.not_le.mpr hc.1 hi]
    exact f.zero_past i hi

end ByteFile

end PolarFs.Bytes
