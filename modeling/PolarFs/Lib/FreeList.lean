/-
A table of slots with a free list threaded through it: a free slot holds the index of the next free one, a mark that is
no index ends the list. Slots are taken from the list, and from the end of the used part of the table when it is empty.
-/
import Mathlib.Data.List.Nodup
import Mathlib.Data.List.Perm.Basic

namespace FreeList

/-- The list threaded from `h` through `link` up to the mark `stop`. -/
inductive Threaded (link : Nat → Option Nat) (stop : Nat) : Nat → List Nat → Prop where
  | nil : Threaded link stop stop []
  | cons {h h' : Nat} {l : List Nat} (hne : h ≠ stop) (hlink : link h = some h') (hl : Threaded link stop h' l) :
      Threaded link stop h (h :: l)

section Threaded

variable {link link' : Nat → Option Nat} {stop h : Nat} {l : List Nat}

theorem Threaded.congr (ht : Threaded link stop h l) (hlink : ∀ x ∈ l, link' x = link x) : Threaded link' stop h l := by
  induction ht with
  | nil => exact .nil
  | cons hne hnext _ ih =>
    refine .cons hne ((hlink _ (by simp)).trans hnext) (ih fun x hx => hlink x (by simp [hx]))

theorem Threaded.isSome (ht : Threaded link stop h l) : ∀ x ∈ l, (link x).isSome = true := by
  induction ht with
  | nil => simp
  | cons _ hnext _ ih =>
    intro x hx
    rcases List.mem_cons.mp hx with rfl | hx
    · rw [hnext]; rfl
    · exact ih x hx

theorem Threaded.eq_nil_iff (ht : Threaded link stop h l) : l = [] ↔ h = stop := by
  cases ht with
  | nil => simp
  | cons hne => simp [hne]

/-- A list that does not start with the mark has a first slot. -/
theorem Threaded.uncons (ht : Threaded link stop h l) (hne : h ≠ stop) :
    ∃ h' l', l = h :: l' ∧ link h = some h' ∧ Threaded link stop h' l' := by
  cases ht with
  | nil => exact absurd rfl hne
  | cons _ hlink hl => exact ⟨_, _, rfl, hlink, hl⟩

end Threaded

/-- The slots of a table: those below `used` are taken or on the free list, and not both. -/
structure Partition (used : Nat) (free taken : List Nat) : Prop where
  nodup : (free ++ taken).Nodup
  below : ∀ i, i < used ↔ i ∈ free ++ taken

section Partition

variable {used i : Nat} {free taken : List Nat}

theorem partition_empty : Partition 0 [] [] := ⟨List.nodup_nil, by simp⟩

theorem Partition.length (h : Partition used free taken) : used = free.length + taken.length := by
  have hp : (free ++ taken).Perm (List.range used) :=
    (List.perm_ext_iff_of_nodup h.nodup List.nodup_range).mpr fun a => by rw [List.mem_range]; exact (h.below a).symm
  simpa using hp.length_eq.symm

theorem Partition.disjoint (h : Partition used free taken) (hf : i ∈ free) : i ∉ taken :=
  fun ht => List.disjoint_of_nodup_append h.nodup hf ht

theorem Partition.of_perm {free' taken' : List Nat} (h : Partition used free taken)
    (hp : (free' ++ taken').Perm (free ++ taken)) : Partition used free' taken' :=
  ⟨hp.nodup_iff.mpr h.nodup, fun i => (h.below i).trans hp.mem_iff.symm⟩

/-- A slot is taken from the free list. -/
theorem Partition.pop (h : Partition used (i :: free) taken) : Partition used free (i :: taken) :=
  h.of_perm List.perm_middle

/-- A slot goes back to the free list. -/
theorem Partition.push (h : Partition used free taken) (hi : i ∈ taken) :
    Partition used (i :: free) (taken.erase i) := by
  refine h.of_perm ?_
  have hp : (i :: taken.erase i).Perm taken := (List.perm_cons_erase hi).symm
  exact (List.perm_middle.symm.trans (List.Perm.append_left free hp))

/-- The first slot that was never used is taken. -/
theorem Partition.extend (h : Partition used free taken) : Partition (used + 1) free (used :: taken) := by
  have hnot : used ∉ free ++ taken := fun hm => absurd ((h.below used).mpr hm) (Nat.lt_irrefl used)
  have hp : (free ++ used :: taken).Perm (used :: (free ++ taken)) := List.perm_middle
  refine ⟨hp.nodup_iff.mpr (List.nodup_cons.mpr ⟨hnot, h.nodup⟩), fun j => ?_⟩
  rw [hp.mem_iff, List.mem_cons, ← h.below j]
  omega

end Partition

end FreeList
