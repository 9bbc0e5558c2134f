/-
A bitmap in words of 64 bits, the number of its set bits, and the search that goes once round a ring
of candidates: what a first-fit allocator is made of.
-/
import Mathlib.Data.BitVec
import Mathlib.Tactic

namespace PolarFs.Bitmap

/-! ## Words -/

/-- Bit `i` is bit `i % 64` of word `i / 64`. -/
abbrev Words := Nat → BitVec 64

def isSet (w : Words) (i : Nat) : Bool := (w (i / 64) &&& 1#64 <<< (i % 64)) != 0#64

/-- Flips bit `i` if `delta` is odd. -/
def flip (w : Words) (i : Nat) (delta : Int) : Words :=
  Function.update w (i / 64) (w (i / 64) ^^^ (BitVec.ofInt 64 delta &&& 1#64) <<< (i % 64))

theorem isSet_eq_getLsbD (w : Words) (i : Nat) : isSet w i = (w (i / 64)).getLsbD (i % 64) := by
  have hlt : i % 64 < 64 := Nat.mod_lt _ (by omega)
  have htwo : BitVec.twoPow 64 (i % 64) ≠ 0#64 := by
    intro h
    have hbit := congrArg (fun x => x.getLsbD (i % 64)) h
    simp [hlt] at hbit
  rw [isSet, ← BitVec.twoPow_eq, BitVec.and_twoPow]
  cases hb : (w (i / 64)).getLsbD (i % 64) with
  | false => simp
  | true => simpa using htwo

theorem getLsbD_parity {delta : Int} (hd : delta = 1 ∨ delta = 0 ∨ delta = -1) (k : Nat) :
    (BitVec.ofInt 64 delta &&& 1#64).getLsbD k = (decide (k = 0) && decide (delta ≠ 0)) := by
  rcases hd with rfl | rfl | rfl
  · rw [show BitVec.ofInt 64 1 &&& 1#64 = 1#64 by decide]; simp [BitVec.getLsbD_one]
  · rw [show BitVec.ofInt 64 0 &&& 1#64 = 0#64 by decide]; simp
  · rw [show BitVec.ofInt 64 (-1) &&& 1#64 = 1#64 by decide]; simp [BitVec.getLsbD_one]

/-- A step by one flips the bit, a step by zero leaves it; the other bits stay. -/
theorem isSet_flip {delta : Int} (hd : delta = 1 ∨ delta = 0 ∨ delta = -1) (w : Words) (i j : Nat) :
    isSet (flip w i delta) j = if j = i then isSet w i ^^ decide (delta ≠ 0) else isSet w j := by
  rw [isSet_eq_getLsbD, isSet_eq_getLsbD, isSet_eq_getLsbD, flip]
  have hj : j % 64 < 64 := Nat.mod_lt _ (by omega)
  by_cases hword : j / 64 = i / 64
  · rw [hword, Function.update_self, BitVec.getLsbD_xor, BitVec.getLsbD_shiftLeft, getLsbD_parity hd]
    by_cases hbit : j % 64 = i % 64
    · have hji : j = i := by omega
      subst hji
      simp [hj]
    · have hji : j ≠ i := fun h => hbit (by rw [h])
      rw [if_neg hji]
      by_cases hlt : j % 64 < i % 64
      · simp [hlt]
      · have hne : j % 64 - i % 64 ≠ 0 := by omega
        simp [hne]
  · have hji : j ≠ i := fun h => hword (by rw [h])
    rw [Function.update_of_ne hword, if_neg hji]

/-! ## The number of set bits -/

/-- How many of the first `n` values of `f` are true. -/
def card (f : Nat → Bool) (n : Nat) : Nat := Nat.count (fun i => f i = true) n

theorem card_congr {f g : Nat → Bool} {n : Nat} (h : ∀ i < n, f i = g i) : card f n = card g n := by
  induction n with
  | zero => rfl
  | succ n ih =>
    have hn : f n = g n := h n (Nat.lt_succ_self n)
    have ih := ih fun i hi => h i (Nat.lt_succ_of_lt hi)
    unfold card at ih ⊢
    rw [Nat.count_succ, Nat.count_succ, ih, hn]

theorem card_le (f : Nat → Bool) (n : Nat) : card f n ≤ n := Nat.count_le _

theorem card_succ (f : Nat → Bool) (n : Nat) : card f (n + 1) = card f n + (f n).toNat := by
  rw [card, Nat.count_succ, card]
  cases f n <;> rfl

theorem card_pos {f : Nat → Bool} {n i : Nat} (hi : i < n) (hf : f i = true) : 0 < card f n := by
  induction n with
  | zero => omega
  | succ n ih =>
    rw [card_succ]
    rcases Nat.lt_succ_iff_lt_or_eq.1 hi with hlt | rfl
    · have := ih hlt
      omega
    · rw [hf]
      exact Nat.succ_pos _

/-- One value changed moves the number by the difference. -/
theorem card_update (f : Nat → Bool) {n i : Nat} (hi : i < n) (b : Bool) :
    (card (Function.update f i b) n : Int) = card f n + (b.toInt - (f i).toInt) := by
  induction n with
  | zero => omega
  | succ n ih =>
    rw [card_succ, card_succ]
    by_cases hn : n = i
    · subst hn
      have hsame : card (Function.update f n b) n = card f n :=
        card_congr fun j hj => Function.update_of_ne (Nat.ne_of_lt hj) _ _
      rw [hsame, Function.update_self]
      cases b <;> cases f n <;> simp
    · have hlt : i < n := by omega
      rw [Function.update_of_ne hn, Nat.cast_add, ih hlt]
      push_cast
      ring

/-! ## Once round a ring -/

section Round

variable {β : Type*} (n start : Nat) (f : Nat → Option β)

/-- The `do … while` over the places of a ring of `n`: the place after the last is place zero, the
loop ends with the first result or where it began. -/
def roundFrom : Nat → Nat → Option β
  | 0, _ => none
  | fuel + 1, i =>
    match f i with
    | some r => some r
    | none =>
      let nxt := if n ≤ i + 1 then 0 else i + 1
      if nxt = start then none else roundFrom fuel nxt

def round : Option β := roundFrom n start f n start

variable {n start f}

theorem roundFrom_some : ∀ {fuel i : Nat} {r : β}, i < n → roundFrom n start f fuel i = some r →
    ∃ j < n, f j = some r
  | 0, _, _, _, h => by cases h
  | fuel + 1, i, r, hi, h => by
    unfold roundFrom at h
    cases hf : f i with
    | some r' =>
      rw [hf] at h
      cases h
      exact ⟨i, hi, hf⟩
    | none =>
      rw [hf] at h
      dsimp only at h
      split_ifs at h with hw hs hs
      · exact roundFrom_some (by omega) h
      · exact roundFrom_some (by omega) h

theorem round_some {r : β} (hs : start < n) (h : round n start f = some r) : ∃ j < n, f j = some r :=
  roundFrom_some hs h

/-- After `k` rounds the loop stands at `(start + k) % n`, and there are `n - k` places left. -/
theorem roundFrom_none (hs : start < n) : ∀ {fuel k : Nat}, fuel + k = n →
    roundFrom n start f fuel ((start + k) % n) = none → ∀ j, k ≤ j → j < n → f ((start + j) % n) = none
  | 0, k, hk, _, j, hkj, hjn => by omega
  | fuel + 1, k, hk, h, j, hkj, hjn => by
    unfold roundFrom at h
    cases hf : f ((start + k) % n) with
    | some r => rw [hf] at h; cases h
    | none =>
      rcases Nat.eq_or_lt_of_le hkj with rfl | hlt
      · exact hf
      have hnext : (if n ≤ (start + k) % n + 1 then 0 else (start + k) % n + 1) = (start + (k + 1)) % n := by
        have hmod := Nat.mod_lt (start + k) (show 0 < n by omega)
        have hone : 1 % n = 1 := Nat.mod_eq_of_lt (by omega)
        rw [← Nat.add_assoc, Nat.add_mod (start + k) 1 n, hone]
        generalize (start + k) % n = m at hmod
        by_cases hwrap : n ≤ m + 1
        · rw [if_pos hwrap, show m + 1 = n by omega, Nat.mod_self]
        · rw [if_neg hwrap, Nat.mod_eq_of_lt (by omega)]
      have hne : (start + (k + 1)) % n ≠ start := by
        intro heq
        rcases Nat.lt_or_ge (start + (k + 1)) n with hl | hg
        · rw [Nat.mod_eq_of_lt hl] at heq
          omega
        · rw [Nat.mod_eq_sub_mod hg, Nat.mod_eq_of_lt (by omega)] at heq
          omega
      rw [hf] at h
      dsimp only at h
      rw [hnext, if_neg hne] at h
      exact roundFrom_none hs (by omega) h j hlt hjn

/-- A search without result has seen every place. -/
theorem round_none (hs : start < n) (h : round n start f = none) (i : Nat) (hi : i < n) : f i = none := by
  have hstart : (start + 0) % n = start := Nat.mod_eq_of_lt hs
  have hall := roundFrom_none (f := f) hs (Nat.add_zero n) (by rw [hstart]; exact h)
  rcases Nat.lt_or_ge i start with hlt | hge
  · have hj := hall (i + n - start) (Nat.zero_le _) (by omega)
    rwa [show start + (i + n - start) = i + n by omega, Nat.add_mod_right, Nat.mod_eq_of_lt hi] at hj
  · have hj := hall (i - start) (Nat.zero_le _) (by omega)
    rwa [show start + (i - start) = i by omega, Nat.mod_eq_of_lt hi] at hj

end Round

end PolarFs.Bitmap
