/-
The journal file. `pfs_tx_log` collects the entries of a transaction in a work buffer of one fragment and
`pfs_log_write` writes the buffer in pieces that end with the file; `pfs_log_read` reads up to the end of a fragment
or of the file, and `pfs_log_scan` goes through what was read. Both agree on the ring of `PolarFs.Journal.Entry`.

Offsets and lengths are in bytes here, and the file is a sequence of entries. All device I/O succeeds; an assertion
that fails is `none`.
-/
import PolarFs.Lib.RingFile
import PolarFs.Journal.Writer

namespace PolarFs.Journal.LogFile

open RedoLog RingFile

/-- `sizeof(pfs_logentry_phy_t)`. -/
def leSize : Nat := 256

/-- `PFS_FRAG_SIZE`, which is also the size of the work buffer. -/
def fragSize : Nat := 16384

/-- A length returned as an `int` of 32 bits. -/
def toInt (n : Nat) : Int := if n % 4294967296 < 2147483648 then n % 4294967296 else n % 4294967296 - 4294967296

structure Log (β : Type) where
  file : Nat → LogEntry β
  leader : LeaderRecord

variable {β : Type} {n o : Nat} {lr : LeaderRecord}

/-- `LEN_MODULAR_CUT`. -/
def lenModularCut (len offset modulus : Nat) : Nat :=
  if len + offset > modulus then modulus - offset else len

/-! ## Writing -/

def filePwrite (file : Nat → LogEntry β) (buf : List (LogEntry β)) (offset : Nat) : Nat → LogEntry β :=
  writeRun file (offset / leSize) buf

/-- The loop of `pfs_log_write`; a round writes at least one entry. -/
def logWriteLoop (size : Nat) :
    Nat → (Nat → LogEntry β) → List (LogEntry β) → Nat → Option (Nat → LogEntry β)
  | _, file, [], _ => some file
  | 0, _, _ :: _, _ => none
  | fuel + 1, file, e :: L, offset =>
    let wlen := lenModularCut (leSize * (e :: L).length) offset size
    logWriteLoop size fuel (filePwrite file ((e :: L).take (wlen / leSize)) offset) ((e :: L).drop (wlen / leSize))
      (offModularAdd offset wlen size)

/-- `pfs_log_write`, which returns the length of the buffer. -/
def logWrite (lr : LeaderRecord) (file : Nat → LogEntry β) (buf : List (LogEntry β)) (offset : Nat) :
    Option (Nat → LogEntry β) :=
  if leSize * buf.length < logSpace lr then
    logWriteLoop lr.logSize buf.length file buf (offModularAdd offset 0 lr.logSize)
  else none

/-- The local variables of `pfs_tx_log`, with the file. -/
structure TxBuf (β : Type) where
  nle : Nat
  buf : List (LogEntry β)
  offset : Nat
  file : Nat → LogEntry β

/-- The buffer is written and emptied; the offset is not reduced. -/
def TxBuf.flush (lr : LeaderRecord) (b : TxBuf β) : Option (TxBuf β) :=
  (logWrite lr b.file b.buf b.offset).map fun file =>
    { b with buf := [], offset := b.offset + leSize * b.buf.length, file := file }

/-- `pfs_txop_log` into the buffer. -/
def TxBuf.txopLog (lr : LeaderRecord) (txid : Nat) (b : TxBuf β) (op : Key × β) (more : Bool) : TxBuf β :=
  { b with nle := b.nle + 1, buf := b.buf ++ [⟨txid, lr.headLsn + (b.nle + 1), op.1, op.2, more⟩] }

/-- The loop of `pfs_tx_log`. -/
def txLogLoop (lr : LeaderRecord) (txid : Nat) : TxBuf β → TxOps β → Option (TxBuf β)
  | b, [] => some b
  | b, op :: ops =>
    let b := b.txopLog lr txid op (!ops.isEmpty)
    if leSize * b.buf.length ≥ fragSize then
      if leSize * b.buf.length = fragSize then (b.flush lr).bind fun b => txLogLoop lr txid b ops else none
    else txLogLoop lr txid b ops

/-- `pfs_tx_log`. -/
def txLog (log : Log β) (ops : TxOps β) : Option (Int × (Nat → LogEntry β)) :=
  if ops = [] then none
  else do
    let b ← txLogLoop log.leader (log.leader.headTxid + 1) ⟨0, [], log.leader.headOffset, log.file⟩ ops
    let b ← if b.buf = [] then some b else b.flush log.leader
    some (toInt (b.offset - log.leader.headOffset), b.file)

/-- `pfs_log_commit` of a host whose leader record is the latest. -/
def logCommit (log : Log β) (ops : TxOps β) : Option (Int × Log β) := do
  let (rv, file) ← txLog log ops
  if rv < 0 then some (rv, { log with file := file })
  else
    let leader := { log.leader with
      headTxid := log.leader.headTxid + 1
      headLsn := log.leader.headLsn + rv.toNat / leSize
      headOffset := offModularAdd log.leader.headOffset rv.toNat log.leader.logSize }
    if forwardLeader leader log.leader then some (0, ⟨file, leader⟩) else none

/-- Transactions committed one after the other, all of them successfully. -/
def commitAll : Log β → List (TxOps β) → Option (Log β)
  | log, [] => some log
  | log, tx :: txs =>
    match logCommit log tx with
    | some (0, log') => commitAll log' txs
    | _ => none

/-! ## Reading -/

def filePread (file : Nat → LogEntry β) (len offset : Nat) : List (LogEntry β) :=
  readRun file (offset / leSize) (len / leSize)

/-- `pfs_log_read`. -/
def logRead (lr : LeaderRecord) (file : Nat → LogEntry β) (len offset : Nat) : Option (List (LogEntry β)) :=
  let offset := offModularAdd offset 0 lr.logSize
  let readlen := min (lenModularCut (fragSize - offset % fragSize) offset lr.logSize) len
  if offset < lr.logSize ∧ leSize ≤ readlen ∧ readlen % leSize = 0 then some (filePread file readlen offset) else none

/-- The buffer of `pfs_log_scan`: where it was read, its length, and the entries from `le` on. -/
structure ScanBuf (β : Type) where
  offset : Nat
  readlen : Nat
  rest : List (LogEntry β)

/-- The next piece is read when the buffer is exhausted. -/
def ScanBuf.refill (lr : LeaderRecord) (file : Nat → LogEntry β) (b : ScanBuf β) : Option (ScanBuf β) :=
  if b.rest.isEmpty then
    if b.offset < lr.logSize then
      let offset := offModularAdd b.offset b.readlen lr.logSize
      (logRead lr file fragSize offset).map fun buf => ⟨offset, leSize * buf.length, buf⟩
    else none
  else some b

/-- The loop of `pfs_log_scan`, with the entries counted. -/
def scanLoop (lr : LeaderRecord) (file : Nat → LogEntry β) (start stop : Nat) :
    Nat → ScanBuf β → ScanState β → Nat → Option (Int × List (Nat × TxOps β))
  | 0, _, _, _ => none
  | fuel + 1, b, st, nentry =>
    match b.refill lr file with
    | some ⟨offset, readlen, le :: rest⟩ =>
      match scanEntry start stop st le with
      | .fail => none
      | .done txs => some (toInt ((nentry + 1) * leSize), txs)
      | .more st' => scanLoop lr file start stop fuel ⟨offset, readlen, rest⟩ st' (nentry + 1)
    | _ => none

/-- `pfs_log_scan`: the value it returns and the transactions of `(start, stop]`. -/
def logScan (log : Log β) (startOffset start stop : Nat) : Option (Int × List (Nat × TxOps β)) :=
  if startOffset < log.leader.logSize then
    if start = stop then some (0, [])
    else
      scanLoop log.leader log.file start stop (log.leader.logSize / leSize) ⟨startOffset, 0, []⟩ ⟨none, start, []⟩ 0
  else none

/-! ## Positions -/

/-- Offsets are those of entries inside the file. -/
structure Valid (lr : LeaderRecord) : Prop where
  size : leSize ∣ lr.logSize
  tail : leSize ∣ lr.tailOffset
  tail_lt : lr.tailOffset < lr.logSize
  head : leSize ∣ lr.headOffset
  head_lt : lr.headOffset < lr.logSize

theorem toInt_of_lt (h : n < 2147483648) : toInt n = n := by
  unfold toInt
  split <;> omega

theorem toInt_lt (n : Nat) : toInt n < 2147483648 := by
  unfold toInt
  split <;> omega

/-- An offset advanced by whole entries, counted in entries. -/
theorem offModularAdd_mul {k : Nat} (ho : o < n) (hk : k ≤ n) :
    offModularAdd (leSize * o) (leSize * k) (leSize * n) = leSize * ((o + k) % n) := by
  have hmod := offModularAdd_eq_mod (l := o) (Nat.zero_lt_of_lt ho) hk
  rw [Nat.mod_eq_of_lt ho] at hmod
  rw [← hmod]
  unfold offModularAdd leSize
  split <;> split <;> omega

/-- An offset that ran past the end at most once is brought back. -/
theorem offModularAdd_zero (ho : o < 2 * n) : offModularAdd (leSize * o) 0 (leSize * n) = leSize * (o % n) := by
  unfold offModularAdd leSize
  rcases Nat.lt_or_ge o n with h | h
  · rw [Nat.mod_eq_of_lt h, if_neg (by omega)]; omega
  · rw [Nat.mod_eq_sub_mod h, Nat.mod_eq_of_lt (by omega), if_pos (by omega)]; omega

theorem lenModularCut_mul {k : Nat} (ho : o ≤ n) :
    lenModularCut (leSize * k) (leSize * o) (leSize * n) = leSize * min k (n - o) := by
  unfold lenModularCut leSize
  split <;> omega

theorem leSize_pos : 0 < leSize := by decide

theorem fragSize_pos : 0 < fragSize := by decide

theorem mul_leSize_div (k : Nat) : leSize * k / leSize = k := Nat.mul_div_cancel_left k leSize_pos

theorem Valid.offModularAdd (hv : Valid lr) {len : Nat} (hlen : len < logSpace lr) :
    offModularAdd lr.headOffset len lr.logSize = (lr.headOffset + len) % lr.logSize := by
  have hle : len ≤ lr.logSize := le_trans hlen.le (Nat.sub_le ..)
  have hmod := offModularAdd_eq_mod (l := lr.headOffset) (Nat.zero_lt_of_lt hv.head_lt) hle
  rwa [Nat.mod_eq_of_lt hv.head_lt] at hmod

/-! ## The writer -/

theorem logWriteLoop_eq {n : Nat} : ∀ (fuel : Nat) (file : Nat → LogEntry β) (buf : List (LogEntry β)) (o : Nat),
    buf.length ≤ fuel → o < n → logWriteLoop (leSize * n) fuel file buf (leSize * o) = some (ringWrite n file o buf)
  | _, file, [], o, _, _ => by unfold logWriteLoop; rfl
  | 0, _, _ :: _, _, h, _ => by simp at h
  | fuel + 1, file, e :: L, o, hlen, ho => by
    have hpos : 0 < (e :: L).length := by simp
    rw [logWriteLoop]
    generalize e :: L = buf at hlen hpos
    rw [lenModularCut_mul ho.le, mul_leSize_div]
    -- the piece that is written ends with the buffer or with the file
    obtain ⟨k, hk⟩ : ∃ k, k = min buf.length (n - o) := ⟨_, rfl⟩
    rw [← hk, offModularAdd_mul ho (by omega), filePwrite, mul_leSize_div,
      writeRun_eq_ringWrite n _ _ _ (by rw [List.length_take]; omega),
      logWriteLoop_eq fuel _ _ _ (by rw [List.length_drop]; omega) (Nat.mod_lt _ (by omega))]
    have hmod : (o + k) % n % n = (o + (buf.take k).length) % n := by
      rw [Nat.mod_mod, List.length_take, Nat.min_eq_left (by omega)]
    rw [ringWrite_congr hmod, ← ringWrite_append, List.take_append_drop]

theorem logWrite_eq {file : Nat → LogEntry β} {buf : List (LogEntry β)} (hn : lr.logSize = leSize * n)
    (hfit : leSize * buf.length < logSpace lr) (ho : o < 2 * n) :
    logWrite lr file buf (leSize * o) = some (ringWrite n file o buf) := by
  rw [logWrite, if_pos hfit, hn, offModularAdd_zero ho, logWriteLoop_eq _ _ _ _ (le_refl _) (Nat.mod_lt _ (by omega)),
    ringWrite_congr (Nat.mod_mod o n)]

/-- The file as it is once the buffer is written. -/
def TxBuf.flushed (n : Nat) (b : TxBuf β) : Nat → LogEntry β := ringWrite n b.file (b.offset / leSize) b.buf

theorem TxBuf.flush_eq {b : TxBuf β} (hn : lr.logSize = leSize * n) (hb : b.offset = leSize * o)
    (hfit : leSize * b.buf.length < logSpace lr) (ho : o < 2 * n) :
    b.flush lr = some ⟨b.nle, [], leSize * (o + b.buf.length), b.flushed n⟩ := by
  rw [flush, hb, logWrite_eq hn hfit ho, flushed, hb, mul_leSize_div, Nat.mul_add]
  rfl

/-- The loop of `pfs_tx_log`: the file and the buffer together hold the entries of the operations done. -/
theorem txLogLoop_spec {lr : LeaderRecord} {n : Nat} (hn : lr.logSize = leSize * n) (txid : Nat) :
    ∀ (ops : TxOps β) (b : TxBuf β) (o : Nat), b.offset = leSize * o → leSize * b.buf.length < fragSize →
      leSize * (b.buf.length + ops.length) < logSpace lr → o + (b.buf.length + ops.length) < 2 * n →
      ∃ b', txLogLoop lr txid b ops = some b' ∧
        (∃ o', b'.offset = leSize * o' ∧ o' + b'.buf.length = o + (b.buf.length + ops.length)) ∧
        b'.buf.length ≤ b.buf.length + ops.length ∧
        b'.flushed n = ringWrite n b.file o (b.buf ++ Journal.txLog txid (lr.headLsn + b.nle) ops)
  | [], b, o, hb, _, _, _ => by
    refine ⟨b, rfl, ⟨o, hb, rfl⟩, le_refl _, ?_⟩
    rw [TxBuf.flushed, hb, mul_leSize_div, Journal.txLog, List.append_nil]
  | op :: ops, b, o, hb, hbuf, hfit, ho => by
    obtain ⟨b₁, hb₁⟩ : ∃ b₁, b₁ = b.txopLog lr txid op (!ops.isEmpty) := ⟨_, rfl⟩
    have hlen : b₁.buf.length = b.buf.length + 1 := by rw [hb₁]; simp [TxBuf.txopLog]
    have hoff : b₁.offset = leSize * o := by rw [hb₁]; exact hb
    have hnle : b₁.nle = b.nle + 1 := by rw [hb₁]; rfl
    -- the new entry is the first one of what is left
    have hentries : ringWrite n b.file o (b.buf ++ Journal.txLog txid (lr.headLsn + b.nle) (op :: ops)) =
        ringWrite n b₁.file o (b₁.buf ++ Journal.txLog txid (lr.headLsn + b₁.nle) ops) := by
      rw [hb₁]
      simp only [TxBuf.txopLog, Journal.txLog, List.append_assoc, List.singleton_append, Nat.add_assoc]
    rw [List.length_cons] at hfit ho
    have htotal : b.buf.length + (ops.length + 1) = b₁.buf.length + ops.length := by omega
    have hfit₁ : leSize * (b₁.buf.length + ops.length) < logSpace lr := by rw [← htotal]; exact hfit
    rw [txLogLoop, ← hb₁, hentries, List.length_cons, htotal]
    by_cases hfull : leSize * b₁.buf.length ≥ fragSize
    · have heq : leSize * b₁.buf.length = fragSize := by unfold leSize fragSize at *; omega
      have hchunk : leSize * b₁.buf.length < logSpace lr := by
        refine lt_of_le_of_lt (Nat.mul_le_mul_left _ ?_) hfit₁; omega
      obtain ⟨b', hloop, ⟨o', hoff', hsum⟩, hle, hfile⟩ := txLogLoop_spec hn txid ops
        ⟨b₁.nle, [], leSize * (o + b₁.buf.length), b₁.flushed n⟩ (o + b₁.buf.length) rfl fragSize_pos
        (by refine lt_of_le_of_lt (Nat.mul_le_mul_left _ ?_) hfit₁; simp) (by simp; omega)
      simp only [List.length_nil, Nat.zero_add, List.nil_append] at hsum hle hfile
      refine ⟨b', ?_, ⟨o', hoff', by omega⟩, by omega, ?_⟩
      · rw [if_pos hfull, if_pos heq, TxBuf.flush_eq hn hoff hchunk (by omega)]
        exact hloop
      · rw [hfile, TxBuf.flushed, hoff, mul_leSize_div, ← ringWrite_append]
    · rw [if_neg hfull]
      exact txLogLoop_spec hn txid ops b₁ o hoff (by omega) hfit₁ (by omega)

theorem txLog_eq {log : Log β} {ops : TxOps β} (hv : Valid log.leader) (hne : ops ≠ [])
    (hfit : leSize * ops.length < logSpace log.leader) :
    txLog log ops = some (toInt (leSize * ops.length),
      ringWrite (log.leader.logSize / leSize) log.file (log.leader.headOffset / leSize)
        (Journal.txLog (log.leader.headTxid + 1) log.leader.headLsn ops)) := by
  obtain ⟨n, hn⟩ := hv.size
  obtain ⟨o, ho⟩ := hv.head
  have hspace : logSpace log.leader ≤ log.leader.logSize := Nat.sub_le ..
  have hlt := hv.head_lt
  have hbound : o + ops.length < 2 * n := by unfold leSize at *; omega
  obtain ⟨b, hloop, ⟨o', hoff, hsum⟩, hle, hfile⟩ := txLogLoop_spec hn (log.leader.headTxid + 1) ops
    ⟨0, [], log.leader.headOffset, log.file⟩ o ho fragSize_pos (by simpa using hfit) (by simpa using hbound)
  simp only [List.length_nil, Nat.zero_add, List.nil_append, Nat.add_zero] at hsum hle hfile
  have hchunk : leSize * b.buf.length < logSpace log.leader := lt_of_le_of_lt (Nat.mul_le_mul_left _ hle) hfit
  have hlen : leSize * (o + ops.length) - leSize * o = leSize * ops.length := by
    rw [Nat.mul_add, Nat.add_sub_cancel_left]
  rw [txLog, if_neg hne, hloop, ho, hn, mul_leSize_div, mul_leSize_div, ← hfile]
  by_cases hb : b.buf = []
  · have hnil : b.flushed n = b.file := by rw [TxBuf.flushed, hb]; rfl
    rw [hb, List.length_nil, Nat.add_zero] at hsum
    simp only [Option.bind_eq_bind, Option.bind_some, if_pos hb]
    rw [hoff, hsum, hlen, hnil]
  · simp only [Option.bind_eq_bind, Option.bind_some, if_neg hb]
    rw [TxBuf.flush_eq hn hoff hchunk (by omega), Option.bind_some, hsum, hlen]

/-- The leader record after transactions with `nle` entries in all. -/
def commitLeader (lr : LeaderRecord) (ntx nle : Nat) : LeaderRecord :=
  { lr with
    headTxid := lr.headTxid + ntx
    headLsn := lr.headLsn + nle
    headOffset := (lr.headOffset + leSize * nle) % lr.logSize }

theorem commitLeader_zero (hv : Valid lr) : commitLeader lr 0 0 = lr := by
  simp [commitLeader, Nat.mod_eq_of_lt hv.head_lt]

theorem commitLeader_add (lr : LeaderRecord) (a b k m : Nat) :
    commitLeader (commitLeader lr a k) b m = commitLeader lr (a + b) (k + m) := by
  simp only [commitLeader, Nat.mod_add_mod, Nat.add_assoc, Nat.mul_add]

theorem Valid.commitLeader {lr : LeaderRecord} (hv : Valid lr) (ntx nle : Nat) : Valid (commitLeader lr ntx nle) :=
  { hv with
    head := (Nat.dvd_mod_iff hv.size).mpr (Nat.dvd_add hv.head (Nat.dvd_mul_right ..))
    head_lt := Nat.mod_lt _ (Nat.zero_lt_of_lt hv.head_lt) }

theorem Valid.logSpace_commitLeader (hv : Valid lr) (ntx : Nat) {nle : Nat} (hfit : leSize * nle < logSpace lr) :
    logSpace (LogFile.commitLeader lr ntx nle) = logSpace lr - leSize * nle := by
  have htl := hv.tail_lt
  have hhl := hv.head_lt
  have hoff := hv.offModularAdd hfit
  simp only [logSpace, LogFile.commitLeader, ← hoff] at hfit ⊢
  unfold logUsedspace Journal.offModularAdd at *
  grind

/-- A commit whose entries take less than 2 GiB succeeds. -/
theorem logCommit_eq {log : Log β} {ops : TxOps β} (hv : Valid log.leader) (hne : ops ≠ [])
    (hfit : leSize * ops.length < logSpace log.leader) (hint : leSize * ops.length < 2147483648) :
    logCommit log ops = some (0, ⟨ringWrite (log.leader.logSize / leSize) log.file (log.leader.headOffset / leSize)
      (Journal.txLog (log.leader.headTxid + 1) log.leader.headLsn ops), commitLeader log.leader 1 ops.length⟩) := by
  have hpos : 0 < ops.length := List.length_pos_iff.mpr hne
  rw [logCommit, txLog_eq hv hne hfit, toInt_of_lt hint]
  simp only [Option.bind_eq_bind, Option.bind_some, if_neg (Int.not_lt.mpr (Int.natCast_nonneg _)), Int.toNat_natCast,
    mul_leSize_div, hv.offModularAdd hfit]
  exact if_pos (by simp [forwardLeader]; omega)

/-- The number of operations of the transactions, which is the number of their entries. -/
def opCount (txs : List (TxOps β)) : Nat := (txs.map List.length).sum

@[simp] theorem opCount_cons (tx : TxOps β) (txs : List (TxOps β)) : opCount (tx :: txs) = tx.length + opCount txs := by
  simp [opCount]

/-- Transactions that fit together are all committed, one after the other in the ring. -/
theorem commitAll_eq : ∀ (txs : List (TxOps β)) (log : Log β), Valid log.leader → (∀ tx ∈ txs, tx ≠ []) →
    leSize * opCount txs < logSpace log.leader → leSize * opCount txs < 2147483648 →
    commitAll log txs = some ⟨ringWrite (log.leader.logSize / leSize) log.file (log.leader.headOffset / leSize)
      (journalLog log.leader.headTxid log.leader.headLsn txs), commitLeader log.leader txs.length (opCount txs)⟩
  | [], log, hv, _, _, _ => by
    rw [commitAll, List.length_nil, show opCount ([] : List (TxOps β)) = 0 from rfl, commitLeader_zero hv]
    rfl
  | tx :: txs, log, hv, hne, hfit, hint => by
    rw [opCount_cons, Nat.mul_add] at hfit hint
    obtain ⟨n, hn⟩ := hv.size
    obtain ⟨o, ho⟩ := hv.head
    have hspace := hv.logSpace_commitLeader 1 (show leSize * tx.length < logSpace log.leader by omega)
    have hplace : (commitLeader log.leader 1 tx.length).headOffset / leSize % (log.leader.logSize / leSize) =
        (log.leader.headOffset / leSize + tx.length) % (log.leader.logSize / leSize) := by
      show (log.leader.headOffset + leSize * tx.length) % log.leader.logSize / leSize % _ = _
      rw [hn, ho, ← Nat.mul_add, Nat.mul_mod_mul_left, mul_leSize_div, mul_leSize_div, mul_leSize_div, Nat.mod_mod]
    rw [commitAll, logCommit_eq hv (hne tx (by simp)) (by omega) (by omega)]
    simp only
    rw [commitAll_eq txs _ (hv.commitLeader 1 tx.length) (fun t ht => hne t (List.mem_cons_of_mem _ ht))
      (by rw [hspace]; omega) (by omega)]
    simp only [commitLeader_add, opCount_cons, List.length_cons, journalLog, ringWrite_append, length_txLog,
      Nat.add_comm 1]
    exact congrArg (fun file => some (Log.mk file _)) (ringWrite_congr hplace _ _)

/-! ## The reader -/

/-- The next entry of the scan is the one at ring position `l`; the buffer ends with the entries at hand. -/
structure ScanBuf.At (n : Nat) (file : Nat → LogEntry β) (b : ScanBuf β) (l p : Nat) : Prop where
  offset : b.offset < leSize * n
  mod : p % n = l % n
  le : p + b.rest.length ≤ n
  rest : b.rest = readRun file p b.rest.length
  fin : b.offset + b.readlen = leSize * (p + b.rest.length)

theorem logRead_eq (hn : lr.logSize = leSize * n) (ho : o < n) (file : Nat → LogEntry β) :
    ∃ k, 0 < k ∧ o + k ≤ n ∧ logRead lr file fragSize (leSize * o) = some (readRun file o k) := by
  -- to the end of the fragment, or of the file
  refine ⟨min (64 - o % 64) (n - o), by omega, by omega, ?_⟩
  have hfrag : fragSize = leSize * 64 := rfl
  have hrest : fragSize - leSize * o % fragSize = leSize * (64 - o % 64) := by
    rw [hfrag, Nat.mul_mod_mul_left, Nat.mul_sub]
  have hmin : min (leSize * min (64 - o % 64) (n - o)) fragSize = leSize * min (64 - o % 64) (n - o) := by
    rw [hfrag]; exact Nat.min_eq_left (Nat.mul_le_mul_left _ (by omega))
  simp only [logRead, hn, offModularAdd_zero (show o < 2 * n by omega), Nat.mod_eq_of_lt ho, hrest,
    lenModularCut_mul ho.le, hmin]
  rw [if_pos ⟨Nat.mul_lt_mul_of_pos_left ho leSize_pos, Nat.le_mul_of_pos_right _ (by omega),
    Nat.mul_mod_right ..⟩, filePread, mul_leSize_div, mul_leSize_div]

/-- The buffer at hand after a refill starts with the next entry of the ring. -/
theorem ScanBuf.At.refill {l p : Nat} {file : Nat → LogEntry β} {b : ScanBuf β} (hn : lr.logSize = leSize * n)
    (h : b.At n file l p) : ∃ offset readlen rest, b.refill lr file = some ⟨offset, readlen, file (l % n) :: rest⟩ ∧
      ScanBuf.At n file ⟨offset, readlen, rest⟩ (l + 1) (l % n + 1) := by
  have hnpos : 0 < n := by have := h.offset; unfold leSize at this; omega
  have hstep : (l % n + 1) % n = (l + 1) % n := by rw [Nat.mod_add_mod]
  obtain ⟨offset, readlen, rest⟩ := b
  cases rest with
  | nil =>
    have hfin := h.fin
    have hle := h.le
    simp only [List.length_nil, Nat.add_zero] at hfin hle
    -- the piece before ended at `p`, which may be the end of the file
    have hoff : offModularAdd offset readlen lr.logSize = leSize * (l % n) := by
      rw [← h.mod, hn, Journal.offModularAdd, hfin]
      rcases Nat.lt_or_eq_of_le hle with hlt | rfl
      · rw [Nat.mod_eq_of_lt hlt, if_neg (by unfold leSize; omega)]
      · rw [Nat.mod_self, if_pos (le_refl _)]; omega
    obtain ⟨k, hk, hkn, hread⟩ := logRead_eq hn (Nat.mod_lt l hnpos) file
    obtain ⟨k, rfl⟩ : ∃ k', k = k' + 1 := ⟨k - 1, by omega⟩
    refine ⟨leSize * (l % n), leSize * (k + 1), readRun file (l % n + 1) k, ?_, ?_⟩
    · have hlt : offset < lr.logSize := by rw [hn]; exact h.offset
      simp only [ScanBuf.refill, List.isEmpty_nil, if_true, if_pos hlt, hoff, hread, Option.map_some, length_readRun]
      rfl
    · refine ⟨Nat.mul_lt_mul_of_pos_left (Nat.mod_lt l hnpos) leSize_pos, hstep, ?_, by rw [length_readRun], ?_⟩
      · simp only [length_readRun]; omega
      · simp only [length_readRun]; rw [← Nat.mul_add]; congr 1; omega
  | cons le rest =>
    have hle := h.le
    have hfin := h.fin
    have hrest := h.rest
    simp only [List.length_cons] at hle hfin hrest
    have hp : p = l % n := by rw [← h.mod, Nat.mod_eq_of_lt (by omega)]
    rw [readRun, List.cons.injEq] at hrest
    refine ⟨offset, readlen, rest, ?_, ?_⟩
    · rw [ScanBuf.refill, if_neg (by simp), ← hp, ← hrest.1]
    · refine ⟨h.offset, hstep, ?_, ?_, ?_⟩
      · simp only; omega
      · rw [← hp]; exact hrest.2
      · simp only; rw [hfin, hp]; congr 1; omega

/-- The number of operations recreated so far. -/
def recreated (txs : List (Nat × TxOps β)) : Nat := opCount (txs.map Prod.snd)

theorem recreated_recreateOp (le : LogEntry β) : ∀ txs : List (Nat × TxOps β),
    recreated (recreateOp le txs) = recreated txs + 1
  | [] => rfl
  | [t] => by
    rw [recreateOp]
    split <;> simp [recreated, opCount]
  | t :: t' :: txs => by
    have ih := recreated_recreateOp le (t' :: txs)
    simp only [recreated, recreateOp, List.map_cons, opCount_cons] at ih ⊢
    omega

theorem recreated_numbered (txid : Nat) (txs : List (TxOps β)) : recreated (numbered txid txs) = opCount txs := by
  rw [recreated, map_snd_numbered]

theorem scanEntry_done {start stop : Nat} {st : ScanState β} {le : LogEntry β} {txs : List (Nat × TxOps β)}
    (h : scanEntry start stop st le = .done txs) : recreated txs = recreated st.txs + 1 := by
  unfold scanEntry at h
  split at h
  · dsimp only at h
    split at h <;> cases h
    exact recreated_recreateOp le st.txs
  · cases h

theorem scanEntry_more {start stop : Nat} {st st' : ScanState β} {le : LogEntry β}
    (h : scanEntry start stop st le = .more st') : recreated st'.txs = recreated st.txs + 1 := by
  unfold scanEntry at h
  split at h
  · dsimp only at h
    split at h <;> cases h
    exact recreated_recreateOp le st.txs
  · cases h

/-- The scan through the buffer returns what the scan of the entries one by one does, and counts them. -/
theorem scanLoop_of_scanList {lr : LeaderRecord} {n start stop : Nat} {file : Nat → LogEntry β}
    (hn : lr.logSize = leSize * n) {txs : List (Nat × TxOps β)} :
    ∀ (L : List (LogEntry β)) (st : ScanState β) (fuel l p : Nat) (b : ScanBuf β), b.At n file l p →
      RingHolds file n l L → L.length ≤ fuel → scanList start stop st L = .done txs →
      scanLoop lr file start stop fuel b st (recreated st.txs) = some (toInt (recreated txs * leSize), txs)
  | [], _, _, _, _, _, _, _, _, h => by cases h
  | _ :: _, _, 0, _, _, _, _, _, hlen, _ => by simp at hlen
  | e :: L, st, fuel + 1, l, p, b, hb, hr, hlen, h => by
    obtain ⟨offset, readlen, rest, hrefill, hnext⟩ := hb.refill hn
    rw [hr.head] at hrefill
    rw [scanList] at h
    rw [scanLoop, hrefill]
    simp only
    cases he : scanEntry start stop st e with
    | fail => rw [he] at h; cases h
    | done txs' =>
      rw [he] at h
      cases h
      simp only [scanEntry_done he]
    | more st' =>
      rw [he] at h
      simp only
      rw [← scanEntry_more he]
      exact scanLoop_of_scanList hn L st' fuel (l + 1) _ _ hnext hr.tail (by simpa using hlen) h

theorem logScan_eq (log : Log β) {start lsn offset : Nat} {txs : List (TxOps β)}
    (hsize : leSize ∣ log.leader.logSize) (hoff : leSize ∣ offset) (hlt : offset < log.leader.logSize) (hne : ∀ tx ∈ txs, tx ≠ [])
    (hring : RingHolds log.file (log.leader.logSize / leSize) (offset / leSize) (journalLog start lsn txs))
    (hfit : leSize * opCount txs ≤ log.leader.logSize) :
    logScan log offset start (start + txs.length) = some (toInt (opCount txs * leSize), numbered start txs) := by
  obtain ⟨n, hn⟩ := hsize
  obtain ⟨o, rfl⟩ := hoff
  rw [hn, mul_leSize_div] at hring
  rw [mul_leSize_div] at hring
  rw [hn] at hlt hfit
  unfold logScan
  rw [hn, if_pos hlt]
  rcases txs with _ | ⟨tx, txs⟩
  · simp [numbered, opCount, toInt]
  rw [if_neg (by simp), mul_leSize_div]
  have hat : ScanBuf.At n log.file ⟨leSize * o, 0, []⟩ o o :=
    ⟨hlt, rfl, by unfold leSize at hlt; simp; omega, rfl, rfl⟩
  have hscan := scanList_journalLog (tx :: txs) start lsn none [] (by simp) hne (le_refl start) rfl
    (by simp) (by simp)
  have hlen : (journalLog start lsn (tx :: txs)).length ≤ n := by
    rw [length_journalLog]; exact Nat.le_of_mul_le_mul_left hfit leSize_pos
  have hloop := scanLoop_of_scanList hn _ ⟨none, start, []⟩ n o o _ hat hring hlen hscan
  rwa [List.nil_append, recreated_numbered] at hloop

/-! ## The round trip -/

/-- The transactions are committed, and the scan from the old head to the new one gives them back in their order, over
as many entries as the head lsn grew, numbered one by one, up to the new head offset. -/
def RoundTrip (log : Log β) (txs : List (TxOps β)) : Prop :=
  ∃ log', commitAll log txs = some log' ∧
    log'.leader.headLsn = log.leader.headLsn + opCount txs ∧
    logScan log' log.leader.headOffset log.leader.headTxid log'.leader.headTxid =
      some ((((log'.leader.headLsn - log.leader.headLsn) * leSize : Nat) : Int), numbered log.leader.headTxid txs) ∧
    (log.leader.headOffset + (log'.leader.headLsn - log.leader.headLsn) * leSize) % log.leader.logSize =
      log'.leader.headOffset ∧
    ∀ i < opCount txs, (log'.file ((log.leader.headOffset / leSize + i) % (log.leader.logSize / leSize))).lsn =
      log.leader.headLsn + i + 1

/-- The entries of a journal are numbered one by one. -/
theorem txLog_lsn (txid : Nat) : ∀ (lsn : Nat) (ops : TxOps β) (i : Nat) (h : i < (Journal.txLog txid lsn ops).length),
    (Journal.txLog txid lsn ops)[i].lsn = lsn + i + 1
  | _, [], _, h => by cases h
  | _, _ :: _, 0, _ => rfl
  | lsn, op :: ops, i + 1, h => by
    have ih := txLog_lsn txid (lsn + 1) ops i (by simpa [Journal.txLog] using h)
    simp only [Journal.txLog, List.getElem_cons_succ]
    rw [ih]; omega

theorem journalLog_lsn : ∀ (txid lsn : Nat) (txs : List (TxOps β)) (i : Nat) (h : i < (journalLog txid lsn txs).length),
    (journalLog txid lsn txs)[i].lsn = lsn + i + 1
  | _, _, [], _, h => by cases h
  | txid, lsn, tx :: txs, i, h => by
    simp only [journalLog]
    rcases Nat.lt_or_ge i (Journal.txLog (txid + 1) lsn tx).length with hlt | hge
    · rw [List.getElem_append_left hlt, txLog_lsn]
    · rw [List.getElem_append_right hge, journalLog_lsn]
      rw [length_txLog] at hge ⊢
      omega

/-- The value that a scan returns is an `int`. -/
theorem scanLoop_lt {lr : LeaderRecord} {file : Nat → LogEntry β} {start stop : Nat} {rv : Int}
    {txs : List (Nat × TxOps β)} : ∀ (fuel : Nat) (b : ScanBuf β) (st : ScanState β) (nentry : Nat),
    scanLoop lr file start stop fuel b st nentry = some (rv, txs) → rv < 2147483648
  | 0, _, _, _, h => by cases h
  | fuel + 1, b, st, nentry, h => by
    rw [scanLoop] at h
    split at h
    case h_2 => cases h
    case h_1 offset readlen le rest _ =>
      cases he : scanEntry start stop st le with
      | fail => rw [he] at h; cases h
      | done txs' =>
        rw [he] at h
        cases h
        exact toInt_lt _
      | more st' =>
        rw [he] at h
        exact scanLoop_lt fuel _ st' _ h

/-- The round trip needs the length of the region to be an `int`. -/
theorem RoundTrip.lt {log : Log β} {txs : List (TxOps β)} (h : RoundTrip log txs) :
    leSize * opCount txs < 2147483648 := by
  obtain ⟨log', _, hlsn, hscan, _, _⟩ := h
  rw [hlsn, Nat.add_sub_cancel_left, Nat.mul_comm] at hscan
  unfold logScan at hscan
  split at hscan
  case isFalse => cases hscan
  split at hscan
  case isTrue =>
    have hzero := congrArg Prod.fst (Option.some.inj hscan)
    simp only at hzero
    omega
  case isFalse => exact_mod_cast scanLoop_lt _ _ _ _ hscan

/-- Whatever the size of the journal, the positions of its tail and its head, and the transactions that fit in the
free space: the round trip works exactly if the entries take less than 2 GiB. -/
theorem round_trip_iff (log : Log β) (txs : List (TxOps β)) (hv : Valid log.leader) (hne : ∀ tx ∈ txs, tx ≠ [])
    (hfit : leSize * opCount txs < logSpace log.leader) : RoundTrip log txs ↔ leSize * opCount txs < 2147483648 := by
  constructor
  · intro h
    exact h.lt
  · intro hint
    have hsize : leSize * opCount txs ≤ log.leader.logSize := le_trans hfit.le (Nat.sub_le ..)
    obtain ⟨log', hlog'⟩ : ∃ log' : Log β, log' = ⟨ringWrite (log.leader.logSize / leSize) log.file
      (log.leader.headOffset / leSize) (journalLog log.leader.headTxid log.leader.headLsn txs),
      commitLeader log.leader txs.length (opCount txs)⟩ := ⟨_, rfl⟩
    have hlen : (journalLog log.leader.headTxid log.leader.headLsn txs).length = opCount txs := length_journalLog ..
    have hring : RingHolds log'.file (log.leader.logSize / leSize) (log.leader.headOffset / leSize)
        (journalLog log.leader.headTxid log.leader.headLsn txs) := by
      intro i hi
      rw [hlog', List.get_eq_getElem]
      refine ringWrite_get _ _ _ _ _ hi ?_
      rw [hlen]
      exact (Nat.le_div_iff_mul_le leSize_pos).mpr (by rwa [Nat.mul_comm])
    have hlsn : log'.leader.headLsn - log.leader.headLsn = opCount txs := by
      rw [hlog']; exact Nat.add_sub_cancel_left ..
    have hscan := logScan_eq log' (by rw [hlog']; exact hv.size) hv.head (by rw [hlog']; exact hv.head_lt) hne
      (by rw [hlog'] at hring ⊢; exact hring) (by rw [hlog']; exact hsize)
    refine ⟨log', ?_, ?_, ?_, ?_, ?_⟩
    · rw [hlog']; exact commitAll_eq txs log hv hne hfit hint
    · rw [hlog']; rfl
    · rw [hlsn, show log'.leader.headTxid = log.leader.headTxid + txs.length by rw [hlog']; rfl, hscan,
        toInt_of_lt (by rwa [Nat.mul_comm])]
    · rw [hlsn, hlog', Nat.mul_comm]; rfl
    · intro i hi
      rw [hring i (by rwa [hlen]), List.get_eq_getElem, journalLog_lsn]

/-- Two transactions over the end of a small journal. -/
theorem round_trip_iff_wrap :
    RoundTrip (β := Nat) ⟨fun _ => ⟨0, 0, (0, 0), 0, false⟩, ⟨4, 7, 1024, 3584, 4096, 20⟩⟩
      [[((9, 1), 5), ((9, 2), 6)], [((8, 0), 7)]] :=
  (round_trip_iff _ _ ⟨by decide, by decide, by decide, by decide, by decide⟩ (by decide) (by decide)).mpr (by decide)

/-- In a journal of 4 GiB there is room for 2 GiB of transactions, and the length that `pfs_log_scan` returns for
them is negative. -/
theorem no_round_trip_of_two_gib : ∃ (log : Log Unit) (txs : List (TxOps Unit)), Valid log.leader ∧
    (∀ tx ∈ txs, tx ≠ []) ∧ leSize * opCount txs < logSpace log.leader ∧ ¬ RoundTrip log txs := by
  obtain ⟨txs, htxs⟩ : ∃ txs : List (TxOps Unit), txs = List.replicate 8388608 [((0, 0), ())] := ⟨_, rfl⟩
  have hcount : opCount txs = 8388608 := by
    rw [htxs, opCount, List.map_replicate, List.sum_replicate]; rfl
  refine ⟨⟨fun _ => ⟨0, 0, (0, 0), (), false⟩, ⟨0, 0, 0, 0, 4294967296, 0⟩⟩, txs,
    ⟨by decide, by decide, by decide, by decide, by decide⟩, ?_, ?_, ?_⟩
  · intro tx htx
    rw [htxs] at htx
    rw [List.eq_of_mem_replicate htx]
    simp
  · rw [hcount]; decide
  · intro h
    have hlt := h.lt
    rw [hcount] at hlt
    exact absurd hlt (by decide)

end PolarFs.Journal.LogFile
