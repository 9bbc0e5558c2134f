/-
The next power of two by spreading the highest bit of a word downwards, and the index of the lowest bit that is set.
-/
import Mathlib.Data.Nat.Bitwise
import Mathlib.Tactic

namespace PowerOfTwo

/-- Every bit is also set `n` places below. -/
def spread (n v : Nat) : Nat := v ||| v >>> n

/-- `val - 1` with its highest bit spread, plus one, in words of 64 bits. Irreducible, since unfolding the
addition of a large literal to a variable does not end. -/
@[irreducible] def roundup (val : Nat) : Nat :=
  let v := (val + (2 ^ 64 - 1)) % 2 ^ 64
  (spread 32 (spread 16 (spread 8 (spread 4 (spread 2 (spread 1 v))))) + 1) % 2 ^ 64

/-- One more than the index of the lowest bit of an `int` that is set, zero for zero. -/
def ffs (v : Nat) : Nat := (((List.range 32).find? fun i => v.testBit i).map (· + 1)).getD 0

/-- The bits of `v` are those of `v₀` and the `n - 1` below each. -/
def SpreadBy (v₀ n v : Nat) : Prop := ∀ i, v.testBit i = true ↔ ∃ j < n, v₀.testBit (i + j) = true

theorem spreadBy_one (v : Nat) : SpreadBy v 1 v := by
  intro i
  constructor
  · intro h
    exact ⟨0, Nat.one_pos, h⟩
  · rintro ⟨j, hj, h⟩
    obtain rfl : j = 0 := by omega
    exact h

theorem SpreadBy.spread {v₀ n v : Nat} (h : SpreadBy v₀ n v) : SpreadBy v₀ (n + n) (spread n v) := by
  intro i
  rw [PowerOfTwo.spread, Nat.testBit_or, Nat.testBit_shiftRight, Bool.or_eq_true, h i, h (n + i)]
  constructor
  · rintro (⟨j, hj, hb⟩ | ⟨j, hj, hb⟩)
    · exact ⟨j, by omega, hb⟩
    · exact ⟨n + j, by omega, by rwa [← Nat.add_assoc, Nat.add_comm i n]⟩
  · rintro ⟨j, hj, hb⟩
    rcases Nat.lt_or_ge j n with hlt | hge
    · exact Or.inl ⟨j, hlt, hb⟩
    · refine Or.inr ⟨j - n, by omega, ?_⟩
      rwa [show n + i + (j - n) = i + j by omega]

/-- Spread over the whole word, a number becomes all ones below its highest bit. -/
theorem SpreadBy.eq_ones {v₀ v k : Nat} (h : SpreadBy v₀ 64 v) (hk : v₀ < 2 ^ k) (hlow : 2 ^ k ≤ 2 * v₀ + 1)
    (hk64 : k < 64) : v = 2 ^ k - 1 := by
  refine Nat.eq_of_testBit_eq fun i => ?_
  rw [Nat.testBit_two_pow_sub_one]
  have hiff : v.testBit i = true ↔ i < k := by
    rw [h i]
    constructor
    · rintro ⟨j, _, hb⟩
      by_contra hge
      have := Nat.testBit_lt_two_pow (lt_of_lt_of_le hk (Nat.pow_le_pow_right (by decide) (show k ≤ i + j by omega)))
      rw [this] at hb
      cases hb
    · intro hi
      -- the highest bit of `v₀` is bit `k - 1`
      refine ⟨k - 1 - i, by omega, ?_⟩
      have htop : 2 ^ (k - 1) ≤ v₀ := by
        have : 2 ^ k = 2 * 2 ^ (k - 1) := by rw [← Nat.pow_succ']; congr 1; omega
        omega
      have hdiv : v₀ / 2 ^ (k - 1) = 1 := by
        refine Nat.div_eq_of_lt_le (by omega) ?_
        have : 2 ^ k = 2 ^ (k - 1) * 2 := by rw [← Nat.pow_succ]; congr 1; omega
        omega
      rw [show i + (k - 1 - i) = k - 1 by omega, Nat.testBit_eq_decide_div_mod_eq, hdiv]
      decide
  rcases hb : v.testBit i with _ | _
  · have : ¬i < k := fun hi => by rw [hiff.mpr hi] at hb; cases hb
    simp [this]
  · simp [hiff.mp hb]

/-- `roundup` of a number in `(2 ^ k / 2, 2 ^ k]`. -/
theorem roundup_eq {val k : Nat} (hval : 0 < val) (hle : val ≤ 2 ^ k) (hlow : 2 ^ k < 2 * val) (hk : k < 64) :
    roundup val = 2 ^ k := by
  have hpow : 2 ^ k < 2 ^ 64 := Nat.pow_lt_pow_right (by decide) hk
  have hpred : (val + (2 ^ 64 - 1)) % 2 ^ 64 = val - 1 := by omega
  have hspread : SpreadBy (val - 1) 64 (spread 32 (spread 16 (spread 8 (spread 4 (spread 2 (spread 1 (val - 1))))))) :=
    ((((((spreadBy_one (val - 1)).spread).spread).spread).spread).spread).spread
  simp only [roundup, hpred]
  rw [hspread.eq_ones (by omega) (by omega) hk]
  have : 0 < 2 ^ k := Nat.two_pow_pos k
  omega

theorem ffs_two_pow {k : Nat} (hk : k < 32) : ffs (2 ^ k) = k + 1 := by
  have hfind : ((List.range 32).find? fun i => (2 ^ k).testBit i) = some k := by
    rw [List.find?_range_eq_some]
    refine ⟨by simp, by simpa using hk, ?_⟩
    intro j hj
    simp [Nat.testBit_two_pow]
    omega
  rw [ffs, hfind]
  rfl

/-- The bits counted for `n` objects are enough to number them. -/
theorem le_two_pow_ffs_roundup {n : Nat} (hn : 0 < n) (hle : n ≤ 2 ^ 31) : n ≤ 2 ^ (ffs (roundup n) - 1) := by
  have hk : Nat.clog 2 n ≤ 31 := Nat.clog_le_of_le_pow hle
  have hup : n ≤ 2 ^ Nat.clog 2 n := Nat.le_pow_clog (by decide) n
  have hlow : 2 ^ Nat.clog 2 n < 2 * n := by
    rcases Nat.eq_or_lt_of_le hn with h1 | h1
    · rw [← h1]
      decide
    · have hlt := Nat.pow_pred_clog_lt_self (b := 2) (by decide) (show 1 < n from h1)
      have hpos := Nat.clog_pos (b := 2) (by decide) (show 2 ≤ n from h1)
      have hsucc : 2 ^ Nat.clog 2 n = 2 * 2 ^ (Nat.clog 2 n).pred := by
        rw [← Nat.pow_succ', Nat.succ_pred (by omega)]
      omega
  rw [roundup_eq hn hup hlow (by omega), ffs_two_pow (by omega), Nat.add_sub_cancel]
  exact hup

/-- Numbers below the shifted part do not reach into it. -/
theorem shiftLeft_or_inj {k a b x y : Nat} (hx : x < 2 ^ k) (hy : y < 2 ^ k) (h : a <<< k ||| x = b <<< k ||| y) :
    a = b ∧ x = y := by
  rw [← Nat.shiftLeft_add_eq_or_of_lt hx, ← Nat.shiftLeft_add_eq_or_of_lt hy, Nat.shiftLeft_eq, Nat.shiftLeft_eq] at h
  have hdiv : a = b := by
    have h₁ : (a * 2 ^ k + x) / 2 ^ k = a := by
      rw [Nat.mul_comm, Nat.mul_add_div (Nat.two_pow_pos k), Nat.div_eq_of_lt hx, Nat.add_zero]
    have h₂ : (b * 2 ^ k + y) / 2 ^ k = b := by
      rw [Nat.mul_comm, Nat.mul_add_div (Nat.two_pow_pos k), Nat.div_eq_of_lt hy, Nat.add_zero]
    rw [← h₁, h, h₂]
  subst hdiv
  exact ⟨rfl, by omega⟩

end PowerOfTwo
