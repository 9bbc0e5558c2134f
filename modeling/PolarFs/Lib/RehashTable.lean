/-
Hash tables of chains that are expanded one bucket at a time. While an expansion is going on there are two tables:
an element belongs in the new one once the bucket it has in the old one has been moved. A table holds a list of
elements if every bucket is, up to its order, the part of the list that belongs in it.
-/
import Mathlib.Data.List.Perm.Basic
import Mathlib.Data.List.Nodup

namespace RehashTable

open Function (update update_self update_of_ne)

/-- The mask of the table and, during an expansion, how many buckets have been moved and the new mask. -/
structure Shape where
  mask : Nat
  expand : Option (Nat × Nat)

/-- A bucket: which table it is in (`true` for the new one) and its index. -/
abbrev Addr := Bool × Nat

/-- Where a hash belongs. -/
def Shape.home (sh : Shape) (hash : Nat) : Addr :=
  match sh.expand with
  | none => (false, hash &&& sh.mask)
  | some (moved, mask') => if hash &&& sh.mask < moved then (true, hash &&& mask') else (false, hash &&& sh.mask)

abbrev Table (α : Type*) := Addr → List α

section Operations

variable {α : Type*}

def insertHead (T : Table α) (b : Addr) (x : α) : Table α := update T b (x :: T b)

/-- An element is taken out of the chain it is in. -/
def unlink [DecidableEq α] (T : Table α) (x : α) : Table α := fun b => (T b).erase x

/-- The new table with empty buckets. -/
def allocNew (T : Table α) : Table α := fun b => if b.1 then [] else T b

/-- The chain of one bucket is moved element by element. -/
def moveBucket (hash : α → Nat) (mask' : Nat) (T : Table α) (i : Nat) : Table α :=
  (T (false, i)).foldl (fun T x => insertHead T (true, hash x &&& mask') x) (update T (false, i) [])

/-- The new table takes the place of the old one. -/
def swapIn (T : Table α) : Table α := fun b => if b.1 then [] else T (true, b.2)

/-- The table holds the elements of `l`, each in the bucket it belongs in. -/
def Linked (hash : α → Nat) (sh : Shape) (T : Table α) (l : List α) : Prop :=
  ∀ b, (T b).Perm (l.filter fun x => sh.home (hash x) = b)

end Operations

variable {α : Type*} {hash : α → Nat} {sh sh' : Shape} {T : Table α} {l l' : List α} {x : α} {b : Addr} {k mask' : Nat}

namespace Linked

variable (h : Linked hash sh T l)

include h

theorem mem : x ∈ T b ↔ x ∈ l ∧ sh.home (hash x) = b := by
  rw [(h b).mem_iff, List.mem_filter, decide_eq_true_iff]

/-- An element is in the bucket it belongs in and in no other. -/
theorem existsUnique (hx : x ∈ l) : ∃! b, x ∈ T b :=
  ⟨sh.home (hash x), h.mem.2 ⟨hx, rfl⟩, fun _ hb => (h.mem.1 hb).2.symm⟩

theorem nodup (hl : l.Nodup) (b : Addr) : (T b).Nodup :=
  ((h b).nodup_iff).2 (hl.filter _)

omit h in
theorem nil (hash : α → Nat) (sh : Shape) : Linked hash sh (fun _ => []) [] := fun _ => List.Perm.refl _

theorem perm (hl : l.Perm l') : Linked hash sh T l' :=
  fun b => (h b).trans (hl.filter _)

theorem congr {hash' : α → Nat} (hh : ∀ x ∈ l, hash' x = hash x) : Linked hash' sh T l := by
  intro b
  refine (h b).trans (List.Perm.of_eq (List.filter_congr fun x hx => ?_))
  rw [hh x hx]

theorem insertHead (x : α) : Linked hash sh (insertHead T (sh.home (hash x)) x) (x :: l) := by
  intro b
  by_cases hb : b = sh.home (hash x)
  · subst hb
    rw [RehashTable.insertHead, update_self, List.filter_cons_of_pos (by simp)]
    exact (h _).cons x
  · rw [RehashTable.insertHead, update_of_ne hb,
      List.filter_cons_of_neg (by simpa using fun heq => hb heq.symm)]
    exact h b

theorem unlink [DecidableEq α] (x : α) : Linked hash sh (unlink T x) (l.erase x) := by
  intro b
  refine ((h b).erase x).trans (List.Perm.of_eq ?_)
  rw [List.erase_filter]

end Linked

/-! ## Expansion -/

open Shape

/-- Before the first bucket is moved every element is still in the old table. -/
theorem home_of_moved_zero {h m : Nat} : home ⟨m, some (0, mask')⟩ h = home ⟨m, none⟩ h := by
  simp [home]

theorem Linked.start {m : Nat} (h : Linked hash ⟨m, none⟩ T l) (mask' : Nat) :
    Linked hash ⟨m, some (0, mask')⟩ (allocNew T) l := by
  rintro ⟨side, i⟩
  simp only [home_of_moved_zero]
  cases side with
  | false => exact h (false, i)
  | true => simp [allocNew, home]

theorem Linked.cancel {m : Nat} (h : Linked hash ⟨m, some (0, mask')⟩ T l) : Linked hash ⟨m, none⟩ T l := by
  intro b
  have hb := h b
  simp only [home_of_moved_zero] at hb
  exact hb

/-- The new table is empty before the first bucket is moved. -/
theorem Linked.new_nil {m : Nat} (h : Linked hash ⟨m, some (0, mask')⟩ T l) (i : Nat) : T (true, i) = [] := by
  rw [List.eq_nil_iff_forall_not_mem]
  intro x hx
  have hhome := (h.mem.1 hx).2
  simp [home] at hhome

/-- The old table is empty once every bucket has been moved. -/
theorem Linked.old_nil {m : Nat} (h : Linked hash ⟨m, some (k, mask')⟩ T l) (hk : m < k) (i : Nat) : T (false, i) = [] := by
  rw [List.eq_nil_iff_forall_not_mem]
  intro x hx
  have hhome := (h.mem.1 hx).2
  have hlt : hash x &&& m < k := Nat.lt_of_le_of_lt Nat.and_le_right hk
  simp [home, hlt] at hhome

theorem filter_or_perm {p q : α → Bool} : ∀ {l : List α}, (∀ x ∈ l, p x = true → q x = false) →
    (l.filter p ++ l.filter q).Perm (l.filter fun x => p x || q x)
  | [], _ => List.Perm.refl _
  | x :: l, h => by
    have ih := filter_or_perm (p := p) (q := q) fun y hy => h y (List.mem_cons_of_mem _ hy)
    cases hp : p x with
    | true =>
      have hq := h x List.mem_cons_self hp
      simpa [List.filter_cons, hp, hq] using ih.cons x
    | false =>
      cases hq : q x with
      | true =>
        simp only [List.filter_cons, hp, hq, Bool.false_or, if_true, Bool.false_eq_true, if_false]
        exact List.perm_middle.trans (ih.cons x)
      | false => simpa [List.filter_cons, hp, hq] using ih

/-- The loop that moves a chain: what it has in common with the table before it. -/
theorem foldl_insertHead_perm (mask' : Nat) : ∀ (xs : List α) (T : Table α) (b : Addr),
    (xs.foldl (fun T x => insertHead T (true, hash x &&& mask') x) T b).Perm
      (xs.filter (fun x => (true, hash x &&& mask') = b) ++ T b)
  | [], T, b => List.Perm.refl _
  | x :: xs, T, b => by
    rw [List.foldl_cons]
    refine (foldl_insertHead_perm mask' xs (insertHead T (true, hash x &&& mask') x) b).trans ?_
    by_cases hb : b = (true, hash x &&& mask')
    · subst hb
      rw [insertHead, update_self, List.filter_cons_of_pos (by simp)]
      exact List.perm_middle
    · rw [insertHead, update_of_ne hb, List.filter_cons_of_neg (by simpa using fun heq => hb heq.symm)]

theorem Linked.moveBucket {m : Nat} (h : Linked hash ⟨m, some (k, mask')⟩ T l) :
    Linked hash ⟨m, some (k + 1, mask')⟩ (moveBucket hash mask' T k) l := by
  -- an element changes its place only if its old bucket is the one that is moved
  have hhome : ∀ y, home ⟨m, some (k + 1, mask')⟩ (hash y) =
      if hash y &&& m = k then (true, hash y &&& mask') else home ⟨m, some (k, mask')⟩ (hash y) := by
    intro y
    by_cases hy : hash y &&& m = k
    · simp [home, hy]
    · have hiff : hash y &&& m < k + 1 ↔ hash y &&& m < k := by omega
      simp [home, hy, hiff]
  have hold : ∀ y, home ⟨m, some (k, mask')⟩ (hash y) = (false, k) ↔ hash y &&& m = k := by
    intro y
    unfold home
    dsimp only
    split
    · simp
      omega
    · simp
  rintro ⟨side, i⟩
  refine (foldl_insertHead_perm mask' (T (false, k)) _ (side, i)).trans ?_
  cases side with
  | false =>
    rw [List.filter_eq_nil_iff.2 (by simp), List.nil_append]
    by_cases hi : i = k
    · subst hi
      rw [update_self]
      refine List.Perm.of_eq (List.filter_eq_nil_iff.2 fun y _ => ?_).symm
      rw [decide_eq_true_iff, hhome]
      by_cases hy : hash y &&& m = i
      · simp [hy]
      · rw [if_neg hy, hold]
        exact hy
    · rw [update_of_ne (by simpa using hi)]
      refine (h (false, i)).trans (List.Perm.of_eq (List.filter_congr fun y _ => ?_))
      rw [decide_eq_decide, hhome]
      by_cases hy : hash y &&& m = k
      · rw [if_pos hy, (hold y).2 hy]
        simp [Ne.symm hi]
      · rw [if_neg hy]
  | true =>
    rw [update_of_ne (by simp)]
    refine ((List.Perm.filter _ (h (false, k))).append (h (true, i))).trans ?_
    rw [List.filter_filter]
    -- the moved ones and those that were there are disjoint parts of the list
    refine (filter_or_perm fun y _ hy => ?_).trans (List.Perm.of_eq (List.filter_congr fun y _ => ?_))
    · simp only [Bool.and_eq_true, decide_eq_true_iff] at hy
      rw [decide_eq_false_iff_not, hy.2]
      simp
    · rw [Bool.eq_iff_iff, Bool.or_eq_true, Bool.and_eq_true, decide_eq_true_iff, decide_eq_true_iff, decide_eq_true_iff,
        decide_eq_true_iff, hhome, hold]
      by_cases hy : hash y &&& m = k
      · rw [if_pos hy, (hold y).2 hy]
        simp [hy]
      · rw [if_neg hy]
        simp [hy]

/-- The end of an expansion: every bucket has been moved. -/
theorem Linked.swapIn {m : Nat} (h : Linked hash ⟨m, some (k, mask')⟩ T l) (hk : m < k) :
    Linked hash ⟨mask', none⟩ (swapIn T) l := by
  rintro ⟨side, i⟩
  cases side with
  | true =>
    refine List.Perm.of_eq (List.filter_eq_nil_iff.2 fun y _ => ?_).symm
    simp [home]
  | false =>
    refine (h (true, i)).trans (List.Perm.of_eq (List.filter_congr fun y _ => ?_))
    have hlt : hash y &&& m < k := Nat.lt_of_le_of_lt Nat.and_le_right hk
    simp [home, hlt]

/-! ## Lookup -/

/-- The first match in the bucket a key belongs in is the element of the list that has the key. -/
theorem Linked.find?_eq_some (h : Linked hash sh T l) {q : α → Bool} {hk : Nat} (hq : ∀ x ∈ l, q x = true → hash x = hk)
    (hone : ∀ x ∈ l, ∀ y ∈ l, q x = true → q y = true → x = y) :
    (T (sh.home hk)).find? q = some x ↔ x ∈ l ∧ q x = true := by
  constructor
  · intro hf
    exact ⟨(h.mem.1 (List.mem_of_find?_eq_some hf)).1, List.find?_some hf⟩
  · rintro ⟨hx, hqx⟩
    cases hf : (T (sh.home hk)).find? q with
    | none =>
      have hmem : x ∈ T (sh.home hk) := h.mem.2 ⟨hx, by rw [hq x hx hqx]⟩
      exact absurd hqx (List.find?_eq_none.1 hf x hmem)
    | some y =>
      have hy := (h.mem.1 (List.mem_of_find?_eq_some hf)).1
      rw [hone x hx y hy hqx (List.find?_some hf)]

theorem Linked.find?_eq_none (h : Linked hash sh T l) {q : α → Bool} {hk : Nat}
    (hq : ∀ x ∈ l, q x = true → hash x = hk) : (T (sh.home hk)).find? q = none ↔ ∀ x ∈ l, ¬ q x = true := by
  rw [List.find?_eq_none]
  constructor
  · intro hno x hx hqx
    exact hno x (h.mem.2 ⟨hx, by rw [hq x hx hqx]⟩) hqx
  · intro hno x hx
    exact hno x (h.mem.1 hx).1

end RehashTable
