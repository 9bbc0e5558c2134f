/-
C strings: the string at the start of a buffer, printing into it and cutting it, the last occurrence of a byte, and
the tokens `strtok_r` finds. The tokens are the nonempty pieces between the delimiters.
-/
import Mathlib.Tactic

namespace CString

/-! ## Buffers -/

/-- The string at the start of a buffer. -/
def str (buf : List UInt8) : List UInt8 := buf.takeWhile (· ≠ 0)

/-- The bytes `d` are stored at `pos`. -/
def store (buf : List UInt8) (pos : Nat) (d : List UInt8) : List UInt8 := buf.take pos ++ d ++ buf.drop (pos + d.length)

/-- What `snprintf` leaves of a string that fits. -/
def print (buf : List UInt8) (pos : Nat) (s : List UInt8) : List UInt8 := store buf pos (s ++ [0])

/-- `strrchr`, as a position. -/
def strrchr (c : UInt8) : List UInt8 → Option Nat
  | [] => none
  | b :: s =>
    match strrchr c s with
    | some i => some (i + 1)
    | none => if b = c then some 0 else none

/-- The buffer starts with the string `s`. -/
def IsStr (buf s : List UInt8) : Prop := 0 ∉ s ∧ ∃ rest, buf = s ++ 0 :: rest

variable {buf s t : List UInt8} {c : UInt8} {pos n : Nat}

theorem IsStr.str_eq (h : IsStr buf s) : str buf = s := by
  obtain ⟨hs, rest, rfl⟩ := h
  have hall : ∀ b ∈ s, decide (b ≠ 0) = true := by
    intro b hb
    simpa using ne_of_mem_of_not_mem hb hs
  rw [str, List.takeWhile_append_of_pos hall]
  simp

theorem IsStr.print (h : IsStr buf s) (hpos : pos ≤ s.length) (ht : 0 ∉ t) :
    IsStr (print buf pos t) (s.take pos ++ t) := by
  obtain ⟨hs, rest, rfl⟩ := h
  constructor
  · rw [List.mem_append, not_or]
    exact ⟨fun h0 => hs (List.mem_of_mem_take h0), ht⟩
  · rw [CString.print, store, List.take_append_of_le_length hpos]
    exact ⟨(s ++ 0 :: rest).drop (pos + (t ++ [0]).length), by simp only [List.append_assoc, List.singleton_append]⟩

theorem IsStr.cut (h : IsStr buf s) (hpos : pos ≤ s.length) : IsStr (store buf pos [0]) (s.take pos) := by
  simpa [CString.print] using h.print hpos (List.not_mem_nil (a := 0))

theorem print_replicate (t : List UInt8) (n : Nat) :
    print (List.replicate n 0) 0 t = t ++ 0 :: List.replicate (n - t.length - 1) 0 := by
  simp [CString.print, store, Nat.sub_sub]

@[simp] theorem str_replicate (n : Nat) : str (List.replicate n 0) = [] := by
  cases n <;> simp [str, List.replicate_succ]

/-- One more byte after a string in a buffer of zeros. -/
theorem isStr_append_byte (hs : 0 ∉ s) (hc : c ≠ 0) (hfit : s.length + 1 < n) :
    IsStr (store (print (List.replicate n 0) 0 s) s.length [c]) (s ++ [c]) := by
  constructor
  · simp [hs, Ne.symm hc]
  · obtain ⟨k, rfl⟩ : ∃ k, n = s.length + 1 + (k + 1) := ⟨n - s.length - 2, by omega⟩
    rw [print_replicate, show s.length + 1 + (k + 1) - s.length - 1 = k + 1 by omega, List.replicate_succ]
    exact ⟨List.replicate k 0, by simp [store, List.drop_append]⟩

theorem strrchr_eq_none (h : c ∉ s) : strrchr c s = none := by
  induction s with
  | nil => rfl
  | cons b s ih =>
    rw [List.mem_cons, not_or] at h
    rw [strrchr, ih h.2]
    exact if_neg (Ne.symm h.1)

theorem strrchr_append (s : List UInt8) (h : c ∉ t) : strrchr c (s ++ c :: t) = some s.length := by
  induction s with
  | nil => simp [strrchr, strrchr_eq_none h]
  | cons b s ih => rw [List.cons_append, strrchr, ih, List.length_cons]

/-! ## Tokens -/

section Tokens

variable {α : Type*} [DecidableEq α] {c : α} {s t : List α}

/-- `strtok_r`: the next token, and what it leaves for the next call. -/
def strtok (c : α) (s : List α) : Option (List α × List α) :=
  let s := s.dropWhile (· = c)
  if s = [] then none else some (s.takeWhile (· ≠ c), (s.dropWhile (· ≠ c)).drop 1)

/-- The tokens of a string up to the first call that finds none, for at most `n` calls. -/
def tokensUpTo (c : α) : Nat → List α → List (List α)
  | 0, _ => []
  | n + 1, s =>
    match strtok c s with
    | none => []
    | some (t, rest) => t :: tokensUpTo c n rest

/-- Every token takes a byte at least. -/
def tokens (c : α) (s : List α) : List (List α) := tokensUpTo c s.length s

/-- The nonempty pieces of `s` between the delimiters. -/
def pieces (c : α) (s : List α) : List (List α) := (s.splitOn c).filter (· ≠ [])

/-- The bytes that pieces take, each with a delimiter. -/
def weight (l : List (List α)) : Nat := (l.map fun t => t.length + 1).sum

omit [DecidableEq α] in
theorem weight_cons (t : List α) (l : List (List α)) : weight (t :: l) = t.length + 1 + weight l := by simp [weight]

theorem pieces_cons_self (c : α) (s : List α) : pieces c (c :: s) = pieces c s := by
  simp [pieces, List.splitOn, List.splitOnP_cons_eq_if_modifyHead]

theorem pieces_dropWhile (c : α) (s : List α) : pieces c (s.dropWhile (· = c)) = pieces c s := by
  induction s with
  | nil => rfl
  | cons b s ih =>
    by_cases hb : b = c
    · rw [List.dropWhile_cons_of_pos (by simpa using hb), ih, hb, pieces_cons_self]
    · rw [List.dropWhile_cons_of_neg (by simpa using hb)]

theorem pieces_append (ht : c ∉ t) (hne : t ≠ []) (s : List α) : pieces c (t ++ c :: s) = t :: pieces c s := by
  have hall : ∀ b ∈ t, (b == c) = false := by
    intro b hb
    simpa using ne_of_mem_of_not_mem hb ht
  rw [pieces, List.splitOn, List.splitOnP_append_cons_of_forall_mem hall c (by simp)]
  simp [hne, pieces, List.splitOn]

theorem pieces_eq_singleton (ht : c ∉ t) (hne : t ≠ []) : pieces c t = [t] := by
  have hall : ∀ b ∈ t, (b == c) = false := by
    intro b hb
    simpa using ne_of_mem_of_not_mem hb ht
  rw [pieces, List.splitOn, List.splitOnP_eq_singleton hall]
  simp [hne]

/-- A list at its first delimiter. -/
theorem takeWhile_cases (c : α) (s : List α) :
    (c ∉ s ∧ s.takeWhile (· ≠ c) = s ∧ s.dropWhile (· ≠ c) = []) ∨
      ∃ t r, c ∉ t ∧ s = t ++ c :: r ∧ s.takeWhile (· ≠ c) = t ∧ s.dropWhile (· ≠ c) = c :: r := by
  induction s with
  | nil => exact .inl ⟨List.not_mem_nil, rfl, rfl⟩
  | cons b s ih =>
    by_cases hb : b = c
    · exact .inr ⟨[], s, List.not_mem_nil, by simp [hb], by simp [hb], by simp [hb]⟩
    · rw [List.takeWhile_cons_of_pos (by simpa using hb), List.dropWhile_cons_of_pos (by simpa using hb)]
      rcases ih with ⟨hc, ht, hd⟩ | ⟨t, r, hc, hs, ht, hd⟩
      · exact .inl ⟨List.not_mem_cons_of_ne_of_not_mem (Ne.symm hb) hc, by rw [ht], hd⟩
      · exact .inr ⟨b :: t, r, List.not_mem_cons_of_ne_of_not_mem (Ne.symm hb) hc, by rw [hs, List.cons_append], by rw [ht],
          hd⟩

theorem pieces_eq_nil (h : pieces c s = []) : ∀ b ∈ s, b = c := by
  induction s with
  | nil => exact nofun
  | cons b s ih =>
    by_cases hb : b = c
    · rw [hb, pieces_cons_self] at h
      exact List.forall_mem_cons.2 ⟨hb, ih h⟩
    -- a byte that is no delimiter is in some piece
    exfalso
    rcases takeWhile_cases c (b :: s) with ⟨hc, -⟩ | ⟨t, r, hc, hs, -⟩
    · rw [pieces_eq_singleton hc (List.cons_ne_nil _ _)] at h
      cases h
    · have ht : t ≠ [] := by
        rintro rfl
        exact hb (List.cons.inj hs).1
      rw [hs, pieces_append hc ht] at h
      cases h

theorem weight_splitOn (c : α) (s : List α) : weight (s.splitOn c) = s.length + 1 := by
  induction s with
  | nil => rfl
  | cons b s ih =>
    rw [List.splitOn, List.splitOnP_cons_eq_if_modifyHead]
    split
    · rw [weight_cons, List.length_nil, List.length_cons, ← ih]
      simp [List.splitOn]
      omega
    · rw [List.splitOn] at ih
      cases hp : s.splitOnP (· == c) with
      | nil => exact absurd hp (List.splitOnP_ne_nil _ _)
      | cons t l =>
        rw [hp, weight_cons] at ih
        rw [List.modifyHead_cons, weight_cons, List.length_cons, List.length_cons]
        omega

theorem weight_pieces (c : α) (s : List α) : weight (pieces c s) ≤ s.length + 1 := by
  rw [← weight_splitOn c]
  exact (List.filter_sublist.map _).sum_le_sum fun _ _ => Nat.zero_le _

/-- Of what follows a delimiter the pieces take no more than the bytes there are. -/
theorem weight_pieces_cons (c : α) (s : List α) : weight (pieces c (c :: s)) ≤ (c :: s).length := by
  rw [pieces_cons_self]
  exact weight_pieces c s

theorem strtok_spec (c : α) (s : List α) :
    (strtok c s = none ∧ pieces c s = []) ∨
      ∃ t rest, strtok c s = some (t, rest) ∧ pieces c s = t :: pieces c rest ∧ rest.length < s.length := by
  unfold strtok
  dsimp only
  split
  case isTrue hnil =>
    refine .inl ⟨rfl, ?_⟩
    rw [← pieces_dropWhile, hnil]
    rfl
  case isFalse hne =>
    refine .inr ⟨_, _, rfl, ?_⟩
    rw [← pieces_dropWhile]
    have hlen : (s.dropWhile (· = c)).length ≤ s.length := (List.dropWhile_sublist _).length_le
    have hpos := List.length_pos_iff.2 hne
    have hhead := List.head_dropWhile_not (fun x => decide (x = c)) hne
    generalize s.dropWhile (· = c) = u at *
    -- the token is up to the next delimiter or to the end
    rcases takeWhile_cases c u with ⟨hc, ht, hd⟩ | ⟨t, r, hc, hs, ht, hd⟩
    · rw [ht, hd]
      exact ⟨pieces_eq_singleton hc hne, by simp; omega⟩
    rw [ht, hd, List.drop_one, List.tail_cons]
    subst hs
    have htne : t ≠ [] := by
      rintro rfl
      simp at hhead
    refine ⟨pieces_append hc htne r, ?_⟩
    simp only [List.length_append, List.length_cons] at hlen
    omega

theorem tokensUpTo_eq_pieces (c : α) : ∀ (n : Nat) (s : List α), s.length ≤ n → tokensUpTo c n s = pieces c s
  | 0, s, h => by
    rw [List.length_eq_zero_iff.1 (Nat.le_zero.1 h)]
    rfl
  | n + 1, s, h => by
    rw [tokensUpTo]
    rcases strtok_spec c s with ⟨hnone, hp⟩ | ⟨t, rest, hsome, hp, hlen⟩
    · rw [hnone, hp]
    · rw [hsome, hp]
      exact congrArg _ (tokensUpTo_eq_pieces c n rest (by omega))

theorem tokens_eq_pieces (c : α) (s : List α) : tokens c s = pieces c s := tokensUpTo_eq_pieces c _ s le_rfl

theorem mem_splitOn (c : α) (s : List α) : ∀ t ∈ s.splitOn c, c ∉ t ∧ t ⊆ s := by
  induction s with
  | nil => simp [List.splitOn]
  | cons b s ih =>
    rw [List.splitOn] at ih ⊢
    rw [List.splitOnP_cons_eq_if_modifyHead]
    split
    · intro t ht
      rcases List.mem_cons.1 ht with rfl | ht
      · exact ⟨List.not_mem_nil, List.nil_subset _⟩
      · exact ⟨(ih t ht).1, fun x hx => List.mem_cons_of_mem _ ((ih t ht).2 hx)⟩
    · rename_i hb
      cases hp : s.splitOnP (· == c) with
      | nil => exact absurd hp (List.splitOnP_ne_nil _ _)
      | cons u l =>
        rw [hp] at ih
        intro t ht
        rcases List.mem_cons.1 ht with rfl | ht
        · obtain ⟨hc, hsub⟩ := ih u List.mem_cons_self
          have hcb : c ≠ b := fun h => hb (by simp [h])
          exact ⟨List.not_mem_cons_of_ne_of_not_mem hcb hc, List.cons_subset_cons b hsub⟩
        · obtain ⟨hc, hsub⟩ := ih t (List.mem_cons_of_mem _ ht)
          exact ⟨hc, fun x hx => List.mem_cons_of_mem _ (hsub hx)⟩

/-- A piece is not empty, has no delimiter and is part of the string. -/
theorem mem_pieces (h : t ∈ pieces c s) : t ≠ [] ∧ c ∉ t ∧ t ⊆ s := by
  rw [pieces, List.mem_filter] at h
  exact ⟨by simpa using h.2, mem_splitOn c s t h.1⟩

end Tokens

end CString
