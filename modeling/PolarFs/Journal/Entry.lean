/-
The metadata journal on disk (`pfs_log.cc`, `pfs_tx.cc`): log entries, the leader record that
anchors the region `(tail, head]`, how `pfs_tx_log` lays a transaction out in the ring and how
`pfs_log_scan` reads a region back.

Offsets and sizes are counted in log entries: every offset of the source is a multiple of the entry
size. A metadata object is named by its sector address and its index in the sector.
-/
import PolarFs.Lib.RedoLog

namespace PolarFs.Journal

open RedoLog

/-- `(le_sector_bda, le_obj_idx)`. -/
abbrev Key := Nat × Nat

/-- The finished operations of a transaction: one new value per object. -/
abbrev TxOps (β : Type) := Tx Key β

/-- `pfs_logentry_phy_t`; the checksum is left out, a log entry never spans two sectors. -/
structure LogEntry (β : Type) where
  txid : Nat
  lsn : Nat
  key : Key
  objVal : β
  more : Bool
  deriving DecidableEq, Repr

/-- The log part of `pfs_leader_record_t`. -/
structure LeaderRecord where
  tailTxid : Nat
  headTxid : Nat
  tailOffset : Nat
  headOffset : Nat
  logSize : Nat
  headLsn : Nat
  deriving DecidableEq, Repr

variable {β : Type} {l size a : Nat} {L : List (LogEntry β)} {ring : Nat → LogEntry β} {h : List (TxOps β)}

/-! ## Positions in the ring -/

/-- `OFF_MODULAR_ADD`. -/
def offModularAdd (offset len modulus : Nat) : Nat :=
  if offset + len ≥ modulus then offset + len - modulus else offset + len

theorem offModularAdd_eq_mod {len : Nat} (hs : 0 < size) (hl : len ≤ size) :
    offModularAdd (l % size) len size = (l + len) % size := by
  have hlt := Nat.mod_lt l hs
  have hsum : (l + len) % size = (l % size + len) % size := by rw [Nat.mod_add_mod]
  unfold offModularAdd
  rw [hsum]
  split
  case isTrue hw =>
    rcases Nat.lt_or_ge (l % size + len - size) size with h | h
    · rw [Nat.mod_eq_sub_mod hw, Nat.mod_eq_of_lt h]
    · omega
  case isFalse hw => exact (Nat.mod_eq_of_lt (Nat.lt_of_not_le hw)).symm

/-- `pfs_log_usedspace`. -/
def logUsedspace (logSize tailOffset headOffset : Nat) : Nat :=
  if headOffset < tailOffset then headOffset + logSize - tailOffset else headOffset - tailOffset

/-- `pfs_log_space`. -/
def logSpace (lr : LeaderRecord) : Nat := lr.logSize - logUsedspace lr.logSize lr.tailOffset lr.headOffset

theorem logUsedspace_mod {n : Nat} (hn : n < size) : logUsedspace size (a % size) ((a + n) % size) = n := by
  have hlt := Nat.mod_lt a (Nat.zero_lt_of_lt hn)
  unfold logUsedspace
  rw [Nat.add_mod a n size, Nat.mod_eq_of_lt hn]
  by_cases hw : a % size + n < size
  · rw [Nat.mod_eq_of_lt hw, if_neg (by omega)]; omega
  · rw [Nat.mod_eq_sub_mod (by omega), Nat.mod_eq_of_lt (by omega), if_pos (by omega)]; omega

/-- The ring holds the entries `L` from the absolute position `l` on. -/
def RingHolds (ring : Nat → LogEntry β) (size l : Nat) (L : List (LogEntry β)) : Prop :=
  ∀ i (h : i < L.length), ring ((l + i) % size) = L.get ⟨i, h⟩

theorem RingHolds.head {e : LogEntry β} (h : RingHolds ring size l (e :: L)) : ring (l % size) = e :=
  h 0 (by simp)

theorem RingHolds.tail {e : LogEntry β} (h : RingHolds ring size l (e :: L)) : RingHolds ring size (l + 1) L := by
  intro i hi
  have := h (i + 1) (by simpa using hi)
  rwa [show l + 1 + i = l + (i + 1) by omega]

theorem RingHolds.append {L' : List (LogEntry β)} (h : RingHolds ring size l L)
    (h' : RingHolds ring size (l + L.length) L') : RingHolds ring size l (L ++ L') := by
  intro i hi
  rw [List.length_append] at hi
  rw [List.get_eq_getElem]
  rcases Nat.lt_or_ge i L.length with hlt | hge
  · rw [List.getElem_append_left hlt]; exact h i hlt
  · rw [List.getElem_append_right hge, show l + i = l + L.length + (i - L.length) by omega]
    exact h' (i - L.length) (by omega)

theorem RingHolds.drop {L' : List (LogEntry β)} (h : RingHolds ring size l (L ++ L')) :
    RingHolds ring size (l + L.length) L' := by
  intro i hi
  have := h (L.length + i) (by rw [List.length_append]; omega)
  rw [List.get_eq_getElem, List.getElem_append_right (by simp)] at this
  simp only [Nat.add_sub_cancel_left] at this
  rw [Nat.add_assoc, this, List.get_eq_getElem]

/-- A write ahead of the entries, less than a whole ring after their start, does not touch them. -/
theorem RingHolds.update {j : Nat} (h : RingHolds ring size l L) (hj : L.length ≤ j) (hjs : j < size) (e : LogEntry β) :
    RingHolds (Function.update ring ((l + j) % size) e) size l L := by
  intro i hi
  rw [Function.update_of_ne, h i hi]
  intro heq
  have hmod : (l + i) ≡ (l + j) [MOD size] := heq
  have := Nat.ModEq.add_left_cancel' l hmod
  rw [Nat.ModEq, Nat.mod_eq_of_lt (by omega), Nat.mod_eq_of_lt hjs] at this
  omega

theorem ringHolds_nil (ring : Nat → LogEntry β) (size l : Nat) : RingHolds ring size l [] := fun _ h => by cases h

theorem ringHolds_singleton {e : LogEntry β} (h : ring (l % size) = e) : RingHolds ring size l [e] := by
  intro i hi
  obtain rfl : i = 0 := by simpa using hi
  simpa using h

/-! ## Writing a transaction -/

/-- The entries `pfs_tx_log` writes for the operations of transaction `txid` after `lsn`. -/
def txLog (txid : Nat) : Nat → TxOps β → List (LogEntry β)
  | _, [] => []
  | lsn, op :: ops => ⟨txid, lsn + 1, op.1, op.2, !ops.isEmpty⟩ :: txLog txid (lsn + 1) ops

/-- The entries of the transactions after `(txid, lsn)`, one transaction after the other. -/
def journalLog : Nat → Nat → List (TxOps β) → List (LogEntry β)
  | _, _, [] => []
  | txid, lsn, tx :: txs => txLog (txid + 1) lsn tx ++ journalLog (txid + 1) (lsn + tx.length) txs

/-- The lsn after the first `k` transactions. -/
def lsnAt (h : List (TxOps β)) (k : Nat) : Nat := ((h.take k).map List.length).sum

@[simp] theorem length_txLog (txid : Nat) : ∀ (lsn : Nat) (ops : TxOps β), (txLog txid lsn ops).length = ops.length
  | _, [] => rfl
  | lsn, op :: ops => by rw [txLog, List.length_cons, length_txLog txid _ ops, List.length_cons]

theorem length_journalLog : ∀ (txid lsn : Nat) (txs : List (TxOps β)),
    (journalLog txid lsn txs).length = (txs.map List.length).sum
  | _, _, [] => rfl
  | txid, lsn, tx :: txs => by
    rw [journalLog, List.length_append, length_txLog, length_journalLog, List.map_cons, List.sum_cons]

theorem journalLog_append : ∀ (txid lsn : Nat) (xs ys : List (TxOps β)),
    journalLog txid lsn (xs ++ ys) =
      journalLog txid lsn xs ++ journalLog (txid + xs.length) (lsn + (xs.map List.length).sum) ys
  | _, _, [], _ => by simp [journalLog]
  | txid, lsn, x :: xs, ys => by
    rw [List.cons_append, journalLog, journalLog, journalLog_append, List.append_assoc]
    simp only [List.length_cons, List.map_cons, List.sum_cons]
    rw [show txid + 1 + xs.length = txid + (xs.length + 1) by omega, Nat.add_assoc lsn]

theorem lsnAt_append_of_le {k : Nat} (hk : k ≤ h.length) (h' : List (TxOps β)) : lsnAt (h ++ h') k = lsnAt h k := by
  rw [lsnAt, List.take_append_of_le_length hk, lsnAt]

theorem lsnAt_txSlice {b : Nat} (hab : a ≤ b) : lsnAt h b = lsnAt h a + ((txSlice h a b).map List.length).sum := by
  rw [lsnAt, take_eq_take_append_txSlice hab, List.map_append, List.sum_append, lsnAt]

theorem lsnAt_mono {b : Nat} (hab : a ≤ b) : lsnAt h a ≤ lsnAt h b := by
  rw [lsnAt_txSlice hab]; exact Nat.le_add_right ..

theorem lsnAt_succ {k : Nat} (hk : k < h.length) : lsnAt h (k + 1) = lsnAt h k + (h.get ⟨k, hk⟩).length := by
  rw [lsnAt_txSlice (Nat.le_succ _), txSlice_succ (le_refl _) hk, txSlice_self]
  simp

theorem lsnAt_snoc (h : List (TxOps β)) (tx : TxOps β) :
    lsnAt (h ++ [tx]) (h.length + 1) = lsnAt h h.length + tx.length := by
  have hall : (h ++ [tx]).take (h.length + 1) = h ++ [tx] := List.take_of_length_le (by simp)
  rw [lsnAt, hall, lsnAt, List.take_length]
  simp

/-- The journal of `(a, c]` is that of `(a, b]` and then that of `(b, c]`. -/
theorem journalLog_txSlice {b c : Nat} (hab : a ≤ b) (hbc : b ≤ c) (hb : b ≤ h.length) :
    journalLog a (lsnAt h a) (txSlice h a c) =
      journalLog a (lsnAt h a) (txSlice h a b) ++ journalLog b (lsnAt h b) (txSlice h b c) := by
  rw [txSlice_append hab hbc, journalLog_append, ← lsnAt_txSlice hab, length_txSlice hb, Nat.add_sub_cancel' hab]

theorem journalLog_snoc (ha : a ≤ h.length) (tx : TxOps β) :
    journalLog a (lsnAt (h ++ [tx]) a) (txSlice (h ++ [tx]) a (h ++ [tx]).length) =
      journalLog a (lsnAt h a) (txSlice h a h.length) ++ txLog (h.length + 1) (lsnAt h h.length) tx := by
  have hlast : txSlice (h ++ [tx]) h.length (h ++ [tx]).length = [tx] := by
    rw [txSlice, List.take_length, List.drop_left]
  rw [journalLog_txSlice ha (by simp) (by simp), hlast, txSlice_append_of_le (le_refl _), lsnAt_append_of_le ha,
    lsnAt_append_of_le (le_refl _)]
  simp [journalLog]

/-! ## `pfs_log_scan` -/

/-- The scan's local variables: the last entry's lsn and txid, and the transactions recreated so far. -/
structure ScanState (β : Type) where
  lastLsn : Option Nat
  lastTxid : Nat
  txs : List (Nat × TxOps β)

/-- `pfs_tx_recreate_op` into the last transaction, or into a new one when the txid changes. -/
def recreateOp (le : LogEntry β) : List (Nat × TxOps β) → List (Nat × TxOps β)
  | [] => [(le.txid, [(le.key, le.objVal)])]
  | [t] =>
    if t.1 = le.txid then [(t.1, t.2 ++ [(le.key, le.objVal)])]
    else [t, (le.txid, [(le.key, le.objVal)])]
  | t :: rest => t :: recreateOp le rest

/-- What one entry of the scan leads to: a failed assertion, the end of the scan, or the next one. -/
inductive ScanStep (β : Type) where
  | fail
  | done (txs : List (Nat × TxOps β))
  | more (st : ScanState β)

/-- The body of the scan loop for the region `(start, stop]`. -/
def scanEntry (start stop : Nat) (st : ScanState β) (le : LogEntry β) : ScanStep β :=
  if (∀ lsn ∈ st.lastLsn, le.lsn = lsn + 1) ∧ (le.txid = st.lastTxid ∨ le.txid = st.lastTxid + 1) ∧
      start < le.txid ∧ le.txid ≤ stop then
    let txs := recreateOp le st.txs
    if le.txid = stop ∧ !le.more then .done txs else .more ⟨some le.lsn, le.txid, txs⟩
  else .fail

def scanLoop (ring : Nat → LogEntry β) (size start stop : Nat) :
    Nat → Nat → ScanState β → Option (List (Nat × TxOps β))
  | 0, _, _ => none
  | fuel + 1, offset, st =>
    match scanEntry start stop st (ring offset) with
    | .fail => none
    | .done txs => some txs
    | .more st' => scanLoop ring size start stop fuel (offModularAdd offset 1 size) st'

/-- `pfs_log_scan`: the transactions of `(start, stop]`, `none` when an assertion fails. A region
never holds more than `size` entries. -/
def logScan (ring : Nat → LogEntry β) (size startOffset start stop : Nat) : Option (List (Nat × TxOps β)) :=
  if start = stop then some [] else scanLoop ring size start stop size startOffset ⟨none, start, []⟩

/-! ## What a scan returns -/

/-- The transactions with their ids, the first one `txid + 1`. -/
def numbered : Nat → List (TxOps β) → List (Nat × TxOps β)
  | _, [] => []
  | txid, tx :: txs => (txid + 1, tx) :: numbered (txid + 1) txs

theorem map_snd_numbered : ∀ (txid : Nat) (txs : List (TxOps β)), (numbered txid txs).map Prod.snd = txs
  | _, [] => rfl
  | txid, tx :: txs => by rw [numbered, List.map_cons, map_snd_numbered]

theorem recreateOp_append (le : LogEntry β) (last : Nat × TxOps β) :
    ∀ done : List (Nat × TxOps β), recreateOp le (done ++ [last]) = done ++ recreateOp le [last]
  | [] => rfl
  | [t] => rfl
  | t :: t' :: done => by
    have ih := recreateOp_append le last (t' :: done)
    have hstep : recreateOp le (t :: (t' :: done ++ [last])) = t :: recreateOp le (t' :: done ++ [last]) := by
      rw [List.cons_append, recreateOp]
      exact fun h => by cases h
    rw [List.cons_append, hstep, ih, List.cons_append, List.cons_append, List.cons_append]

/-- The scan of a list of entries that lie one after the other. -/
def scanList (start stop : Nat) : ScanState β → List (LogEntry β) → ScanStep β
  | st, [] => .more st
  | st, e :: L =>
    match scanEntry start stop st e with
    | .fail => .fail
    | .done txs => .done txs
    | .more st' => scanList start stop st' L

theorem scanLoop_of_scanList {ring : Nat → LogEntry β} {size start stop : Nat} (hs : 0 < size)
    {txs : List (Nat × TxOps β)} : ∀ (L : List (LogEntry β)) (st : ScanState β) (l fuel : Nat),
    RingHolds ring size l L → L.length ≤ fuel → scanList start stop st L = .done txs →
      scanLoop ring size start stop fuel (l % size) st = some txs
  | [], st, l, fuel, _, _, h => by cases h
  | e :: L, st, l, 0, _, hlen, _ => by simp at hlen
  | e :: L, st, l, fuel + 1, hr, hlen, h => by
    rw [scanList] at h
    rw [scanLoop, hr.head]
    cases he : scanEntry start stop st e with
    | fail => rw [he] at h; cases h
    | done txs' => rw [he] at h; cases h; rfl
    | more st' =>
      rw [he] at h
      rw [List.length_cons] at hlen
      have hoff : offModularAdd (l % size) 1 size = (l + 1) % size := offModularAdd_eq_mod hs hs
      simp only [hoff]
      exact scanLoop_of_scanList hs L st' (l + 1) fuel hr.tail (by omega) h

/-- The rest of a transaction's entries after its first one. -/
theorem scanList_txLog_rest {start stop txid : Nat} (h1 : start < txid) (h2 : txid ≤ stop)
    (done : List (Nat × TxOps β)) (L : List (LogEntry β)) : ∀ (ops ops₀ : TxOps β) (lsn : Nat), ops ≠ [] →
    scanList start stop ⟨some lsn, txid, done ++ [(txid, ops₀)]⟩ (txLog txid lsn ops ++ L) =
      if txid = stop then .done (done ++ [(txid, ops₀ ++ ops)])
      else scanList start stop ⟨some (lsn + ops.length), txid, done ++ [(txid, ops₀ ++ ops)]⟩ L
  | op :: ops, ops₀, lsn, _ => by
    have hrec : ∀ more, recreateOp ⟨txid, lsn + 1, op.1, op.2, more⟩ (done ++ [(txid, ops₀)]) =
        done ++ [(txid, ops₀ ++ [op])] := by
      intro more
      rw [recreateOp_append]; simp [recreateOp]
    rw [txLog, List.cons_append, scanList, scanEntry, if_pos (by simp [h1, h2]), hrec]
    cases ops with
    | nil =>
      by_cases hst : txid = stop
      · simp [hst]
      · simp [hst, txLog]
    | cons op' ops =>
      have ih := scanList_txLog_rest h1 h2 done L (op' :: ops) (ops₀ ++ [op]) (lsn + 1) (by simp)
      simp only [List.isEmpty_cons, Bool.not_false, Bool.not_true, Bool.false_eq_true, and_false, if_false]
      rw [ih, List.append_assoc, List.singleton_append]
      simp only [List.length_cons]
      rw [show lsn + 1 + (ops.length + 1) = lsn + (ops.length + 1 + 1) by omega]

theorem scanList_txLog {start stop txid : Nat} (h1 : start ≤ txid) (h2 : txid < stop)
    (done : List (Nat × TxOps β)) (hdone : ∀ t ∈ done, t.1 ≤ txid) (L : List (LogEntry β)) (ops : TxOps β)
    (hops : ops ≠ []) (lsn : Nat) (last : Option Nat) (hlast : ∀ l ∈ last, l = lsn) :
    scanList start stop ⟨last, txid, done⟩ (txLog (txid + 1) lsn ops ++ L) =
      if txid + 1 = stop then .done (done ++ [(txid + 1, ops)])
      else scanList start stop ⟨some (lsn + ops.length), txid + 1, done ++ [(txid + 1, ops)]⟩ L := by
  rcases ops with _ | ⟨op, ops⟩
  · exact absurd rfl hops
  -- a new txid opens a new transaction
  have hrec : ∀ more, recreateOp ⟨txid + 1, lsn + 1, op.1, op.2, more⟩ done = done ++ [(txid + 1, [op])] := by
    intro more
    rcases List.eq_nil_or_concat done with rfl | ⟨init, t, rfl⟩
    · rfl
    · have ht : t.1 ≤ txid := hdone t (by simp)
      rw [List.concat_eq_append, recreateOp_append, recreateOp, if_neg (by simp; omega)]
      simp
  have hok : (∀ l ∈ last, lsn + 1 = l + 1) ∧ (txid + 1 = txid ∨ txid + 1 = txid + 1) ∧
      start < txid + 1 ∧ txid + 1 ≤ stop :=
    ⟨fun l hl => by rw [hlast l hl], Or.inr rfl, by omega, by omega⟩
  rw [txLog, List.cons_append, scanList, scanEntry, if_pos hok, hrec]
  cases ops with
  | nil =>
    by_cases hst : txid + 1 = stop
    · simp [hst]
    · simp [hst, txLog]
  | cons op' ops =>
    have rest := scanList_txLog_rest (show start < txid + 1 by omega) (show txid + 1 ≤ stop by omega)
      done L (op' :: ops) [op] (lsn + 1) (by simp)
    simp only [List.isEmpty_cons, Bool.not_false, Bool.not_true, Bool.false_eq_true, and_false, if_false]
    rw [rest, List.singleton_append]
    simp only [List.length_cons]
    rw [show lsn + 1 + (ops.length + 1) = lsn + (ops.length + 1 + 1) by omega]

theorem scanList_journalLog {start stop : Nat} : ∀ (txs : List (TxOps β)) (txid lsn : Nat) (last : Option Nat)
    (done : List (Nat × TxOps β)), txs ≠ [] → (∀ tx ∈ txs, tx ≠ []) → start ≤ txid → txid + txs.length = stop →
    (∀ t ∈ done, t.1 ≤ txid) → (∀ l ∈ last, l = lsn) →
      scanList start stop ⟨last, txid, done⟩ (journalLog txid lsn txs) = .done (done ++ numbered txid txs)
  | [], _, _, _, _, h, _, _, _, _, _ => absurd rfl h
  | tx :: txs, txid, lsn, last, done, _, hne, hstart, hstop, hdone, hlast => by
    rw [List.length_cons] at hstop
    rw [journalLog, scanList_txLog hstart (by omega) done hdone _ tx (hne tx (by simp)) lsn last hlast, numbered]
    cases txs with
    | nil => rw [if_pos (by simpa using hstop)]; simp [numbered]
    | cons tx' txs =>
      rw [List.length_cons] at hstop
      rw [if_neg (by omega), scanList_journalLog (tx' :: txs) (txid + 1) (lsn + tx.length) _ _ (by simp)
        (fun t ht => hne t (List.mem_cons_of_mem _ ht)) (by omega) (by rw [List.length_cons]; omega) ?_ (by simp)]
      · rw [List.append_assoc, List.singleton_append]
      · intro t ht
        rcases List.mem_append.mp ht with h | h
        · exact Nat.le_succ_of_le (hdone t h)
        · rw [List.mem_singleton.mp h]

/-- A region of the ring that holds whole transactions with consecutive ids and lsns scans back to them. -/
theorem logScan_of_ringHolds {lsn start : Nat} {txs : List (TxOps β)} (hne : ∀ tx ∈ txs, tx ≠ [])
    (hring : RingHolds ring size lsn (journalLog start lsn txs)) (hfit : (txs.map List.length).sum ≤ size) :
    logScan ring size (lsn % size) start (start + txs.length) = some (numbered start txs) := by
  unfold logScan
  rcases txs with _ | ⟨tx, txs⟩
  · simp [numbered]
  have htx : 0 < tx.length := List.length_pos_iff.mpr (hne tx (by simp))
  rw [List.map_cons, List.sum_cons] at hfit
  rw [if_neg (by simp)]
  refine scanLoop_of_scanList (by omega) _ _ lsn size hring ?_ ?_
  · rw [length_journalLog, List.map_cons, List.sum_cons]; exact hfit
  · have hscan := scanList_journalLog (tx :: txs) start lsn none [] (by simp) hne (le_refl start) rfl
      (by simp) (by simp)
    simpa using hscan

end PolarFs.Journal
