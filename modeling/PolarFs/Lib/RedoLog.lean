/-
Physical redo logs over a map from keys to values. A transaction is a list of writes, a history a
list of transactions, and `stateAt m₀ h k` the map after the first `k` transactions of `h`.

The main result is `redo_of_fuzzy`: a map whose entries were taken at different positions between `a`
and `b` becomes the state at `b` once the transactions after `a` are applied to it in order.
-/
import Mathlib.Tactic

namespace RedoLog

variable {κ β : Type*} {b a : Nat}

/-- The writes of one transaction, in order. -/
abbrev Tx (κ : Type*) (β : Type*) := List (κ × β)

/-- The transactions at the positions `a + 1 … b`. -/
def txSlice (h : List (Tx κ β)) (a b : Nat) : List (Tx κ β) := (h.take b).drop a

/-- Some transaction of the list writes the key. -/
def Touches (txs : List (Tx κ β)) (k : κ) : Prop := ∃ tx ∈ txs, k ∈ tx.map Prod.fst

/-! ## Slices of a history -/

section TxSlice

variable {h : List (Tx κ β)}

theorem take_eq_take_append_txSlice (hab : a ≤ b) : h.take b = h.take a ++ txSlice h a b := by
  have ha : h.take a = (h.take b).take a := by rw [List.take_take, Nat.min_eq_left hab]
  rw [ha, txSlice, List.take_append_drop]

theorem txSlice_append {c : Nat} (hab : a ≤ b) (hbc : b ≤ c) : txSlice h a c = txSlice h a b ++ txSlice h b c := by
  have h1 := take_eq_take_append_txSlice (h := h) (le_trans hab hbc)
  rw [take_eq_take_append_txSlice hbc, take_eq_take_append_txSlice hab, List.append_assoc] at h1
  exact (List.append_cancel_left h1).symm

theorem txSlice_self (a : Nat) : txSlice h a a = [] := by
  rw [txSlice, List.drop_eq_nil_iff, List.length_take]; exact Nat.min_le_left ..

theorem length_txSlice (hb : b ≤ h.length) : (txSlice h a b).length = b - a := by
  rw [txSlice, List.length_drop, List.length_take, Nat.min_eq_left hb]

theorem txSlice_append_of_le (hb : b ≤ h.length) (h' : List (Tx κ β)) : txSlice (h ++ h') a b = txSlice h a b := by
  rw [txSlice, List.take_append_of_le_length hb, txSlice]

theorem txSlice_succ (hab : a ≤ b) (hb : b < h.length) : txSlice h a (b + 1) = txSlice h a b ++ [h.get ⟨b, hb⟩] := by
  rw [txSlice_append hab (Nat.le_succ b)]
  congr 1
  rw [txSlice, List.take_add_one, List.drop_append_of_le_length (by rw [List.length_take]; omega)]
  simp [hb]

end TxSlice

/-! ## States -/

variable [DecidableEq κ]

/-- A map after the writes of a transaction. -/
def applyTx (m : κ → β) (tx : Tx κ β) : κ → β := tx.foldl (fun m w => Function.update m w.1 w.2) m

/-- A map after a list of transactions. -/
def redo (m : κ → β) (txs : List (Tx κ β)) : κ → β := txs.foldl applyTx m

/-- The state after the first `k` transactions. -/
def stateAt (m₀ : κ → β) (h : List (Tx κ β)) (k : Nat) : κ → β := redo m₀ (h.take k)

/-! ## One transaction -/

@[simp] theorem applyTx_cons (m : κ → β) (w : κ × β) (tx : Tx κ β) :
    applyTx m (w :: tx) = applyTx (Function.update m w.1 w.2) tx := rfl

theorem applyTx_append (m : κ → β) (tx tx' : Tx κ β) : applyTx m (tx ++ tx') = applyTx (applyTx m tx) tx' :=
  List.foldl_append ..

theorem applyTx_of_notMem {k : κ} : ∀ (tx : Tx κ β) (m : κ → β), k ∉ tx.map Prod.fst → applyTx m tx k = m k
  | [], _, _ => rfl
  | w :: tx, m, hk => by
    rw [List.map_cons, List.mem_cons, not_or] at hk
    rw [applyTx_cons, applyTx_of_notMem tx _ hk.2, Function.update_of_ne hk.1]

/-- A written key has the value of its last write, whatever the map held before. -/
theorem applyTx_congr {k : κ} : ∀ (tx : Tx κ β) (m m' : κ → β), k ∈ tx.map Prod.fst → applyTx m tx k = applyTx m' tx k
  | w :: tx, m, m', hk => by
    rw [applyTx_cons, applyTx_cons]
    by_cases hrest : k ∈ tx.map Prod.fst
    · exact applyTx_congr tx _ _ hrest
    have hw : k = w.1 := by
      rcases List.mem_cons.1 hk with h | h
      · exact h
      · exact absurd h hrest
    rw [applyTx_of_notMem tx _ hrest, applyTx_of_notMem tx _ hrest, hw, Function.update_self,
      Function.update_self]

/-- Where all writes to a key agree, so does the map after them. -/
theorem applyTx_of_forall {k : κ} {v : β} : ∀ (tx : Tx κ β) (m : κ → β), k ∈ tx.map Prod.fst →
    (∀ w ∈ tx, w.1 = k → w.2 = v) → applyTx m tx k = v
  | w :: tx, m, hk, hv => by
    rw [applyTx_cons]
    by_cases hrest : k ∈ tx.map Prod.fst
    · exact applyTx_of_forall tx _ hrest fun w' hw' => hv w' (List.mem_cons_of_mem _ hw')
    · have hw : w.1 = k := by
        rcases List.mem_cons.1 hk with h | h
        · exact h.symm
        · exact absurd h hrest
      rw [applyTx_of_notMem tx _ hrest, ← hw, Function.update_self, hv w (List.mem_cons_self ..) hw]

/-! ## Lists of transactions -/

@[simp] theorem redo_nil (m : κ → β) : redo m [] = m := rfl

@[simp] theorem redo_cons (m : κ → β) (tx : Tx κ β) (txs : List (Tx κ β)) :
    redo m (tx :: txs) = redo (applyTx m tx) txs := rfl

theorem redo_append (m : κ → β) (xs ys : List (Tx κ β)) : redo m (xs ++ ys) = redo (redo m xs) ys :=
  List.foldl_append ..

theorem redo_of_not_touches {k : κ} : ∀ (txs : List (Tx κ β)) (m : κ → β), ¬ Touches txs k → redo m txs k = m k
  | [], _, _ => rfl
  | tx :: txs, m, hk => by
    rw [redo_cons, redo_of_not_touches txs _ fun ⟨t, ht, h⟩ => hk ⟨t, List.mem_cons_of_mem _ ht, h⟩]
    exact applyTx_of_notMem tx m fun h => hk ⟨tx, List.mem_cons_self .., h⟩

theorem redo_congr {k : κ} : ∀ (txs : List (Tx κ β)) (m m' : κ → β), Touches txs k → redo m txs k = redo m' txs k
  | tx :: txs, m, m', hk => by
    rw [redo_cons, redo_cons]
    by_cases hrest : Touches txs k
    · exact redo_congr txs _ _ hrest
    have htx : k ∈ tx.map Prod.fst := by
      obtain ⟨t, ht, h⟩ := hk
      rcases List.mem_cons.1 ht with rfl | ht
      · exact h
      · exact absurd ⟨t, ht, h⟩ hrest
    rw [redo_of_not_touches txs _ hrest, redo_of_not_touches txs _ hrest, applyTx_congr tx m m' htx]

/-! ## Positions of a history -/

section History

variable {m₀ : κ → β} {h : List (Tx κ β)}

@[simp] theorem stateAt_zero : stateAt m₀ h 0 = m₀ := by simp [stateAt]

theorem stateAt_append_of_le {k : Nat} (hk : k ≤ h.length) (h' : List (Tx κ β)) :
    stateAt m₀ (h ++ h') k = stateAt m₀ h k := by
  rw [stateAt, List.take_append_of_le_length hk, stateAt]

theorem stateAt_length : stateAt m₀ h h.length = redo m₀ h := by rw [stateAt, List.take_length]

theorem stateAt_snoc (tx : Tx κ β) : stateAt m₀ (h ++ [tx]) (h.length + 1) = applyTx (stateAt m₀ h h.length) tx := by
  have hlen : h.length + 1 = (h ++ [tx]).length := by simp
  rw [hlen, stateAt_length, redo_append, stateAt_length]
  rfl

theorem stateAt_txSlice (hab : a ≤ b) : stateAt m₀ h b = redo (stateAt m₀ h a) (txSlice h a b) := by
  rw [stateAt, take_eq_take_append_txSlice hab, redo_append, stateAt]

/-- A key no transaction of `(a, b]` writes has the same value at every position of `[a, b]`. -/
theorem stateAt_of_not_touches {j : Nat} {k : κ} (hk : ¬ Touches (txSlice h a b) k) (haj : a ≤ j) (hjb : j ≤ b) :
    stateAt m₀ h j k = stateAt m₀ h b k := by
  rw [stateAt_txSlice hjb]
  refine (redo_of_not_touches _ _ fun ⟨tx, htx, h'⟩ => hk ⟨tx, ?_, h'⟩).symm
  rw [txSlice_append haj hjb]
  exact List.mem_append_right _ htx

end History

/-! ## Fuzzy checkpoints -/

section Fuzzy

variable {m₀ : κ → β} {h : List (Tx κ β)} {a b : Nat} {k : κ} {v : β} {m : κ → β}

/-- The value is the key's at some position between `a` and `b`. -/
def Taken (m₀ : κ → β) (h : List (Tx κ β)) (a b : Nat) (k : κ) (v : β) : Prop :=
  ∃ j, a ≤ j ∧ j ≤ b ∧ v = stateAt m₀ h j k

/-- Every entry of the map was taken at some position between `a` and `b`. -/
def Fuzzy (m₀ : κ → β) (h : List (Tx κ β)) (a b : Nat) (m : κ → β) : Prop := ∀ k, Taken m₀ h a b k (m k)

theorem Taken.mono {a' b' : Nat} (ht : Taken m₀ h a b k v) (ha : a' ≤ a) (hb : b ≤ b') : Taken m₀ h a' b' k v := by
  obtain ⟨j, h1, h2, h3⟩ := ht
  exact ⟨j, by omega, by omega, h3⟩

/-- The history may grow after the value was taken. -/
theorem Taken.append (ht : Taken m₀ h a b k v) (hb : b ≤ h.length) (h' : List (Tx κ β)) :
    Taken m₀ (h ++ h') a b k v := by
  obtain ⟨j, h1, h2, h3⟩ := ht
  exact ⟨j, h1, h2, by rw [stateAt_append_of_le (le_trans h2 hb), h3]⟩

/-- A key that `(a, c]` does not write may count as taken after `c`. -/
theorem Taken.raise {c : Nat} (ht : Taken m₀ h a b k v) (hk : ¬ Touches (txSlice h a c) k) (hc : c ≤ b) :
    Taken m₀ h c b k v := by
  obtain ⟨j, h1, h2, h3⟩ := ht
  rcases Nat.lt_or_ge j c with hjc | hjc
  · exact ⟨c, le_refl c, hc, by rw [h3, stateAt_of_not_touches hk h1 (Nat.le_of_lt hjc)]⟩
  · exact ⟨j, hjc, h2, h3⟩

theorem Taken.stateAt {j : Nat} (haj : a ≤ j) (hjb : j ≤ b) : Taken m₀ h a b k (stateAt m₀ h j k) :=
  ⟨j, haj, hjb, rfl⟩

theorem Fuzzy.mono {a' b' : Nat} (hf : Fuzzy m₀ h a b m) (ha : a' ≤ a) (hb : b ≤ b') : Fuzzy m₀ h a' b' m :=
  fun k => (hf k).mono ha hb

theorem Fuzzy.append (hf : Fuzzy m₀ h a b m) (hb : b ≤ h.length) (h' : List (Tx κ β)) : Fuzzy m₀ (h ++ h') a b m :=
  fun k => (hf k).append hb h'

/-- Redo of `(a, b]` from a value taken between `a` and `b`. -/
theorem redo_of_taken (hab : a ≤ b) (ht : Taken m₀ h a b k (m k)) : redo m (txSlice h a b) k = stateAt m₀ h b k := by
  obtain ⟨j, haj, hjb, hm⟩ := ht
  by_cases hk : Touches (txSlice h a b) k
  · rw [stateAt_txSlice hab]
    exact redo_congr _ _ _ hk
  · rw [redo_of_not_touches _ _ hk, hm, stateAt_of_not_touches hk haj hjb]

/-- Redo from a fuzzy checkpoint gives the exact state. -/
theorem redo_of_fuzzy (hab : a ≤ b) (hf : Fuzzy m₀ h a b m) : redo m (txSlice h a b) = stateAt m₀ h b :=
  funext fun k => redo_of_taken hab (hf k)

end Fuzzy

end RedoLog
