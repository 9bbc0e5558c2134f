/-
The operations of a write transaction (`pfs_tx.cc`). An operation is created, initialised with the object
it is about, and finished. The first one on an object holds the transaction's copy and is found by object
in a search tree; later ones get a pointer to that copy, and leave the transaction when they are finished.
Counters assert that the operations on one object are nested or follow each other.

Checksums are computed when an operation is finished: the copy of an object has a valid one exactly while
no operation on it is open.
-/
import PolarFs.Lib.Transition
import Mathlib.Tactic

namespace PolarFs.Meta.TxOps

open Transition
open Function (update update_self update_of_ne update_idem update_comm)

variable {κ α : Type}

/-! ## The model -/

/-- `pfs_metaobj_phy_t`: `mo_checksum` and the rest. -/
structure Mo (α : Type) where
  val : α
  checksum : Nat

/-- `pfs_txop_t`. The operations that `top_shadow` links are a list in their head. -/
structure TxOp (κ α : Type) where
  topLocal : Mo α
  key : Option κ
  inited : Bool
  done : Bool
  hasCb : Bool
  dupHead : Option Nat
  shadow : List Nat
  dupCnt : Int
  dupIdx : Int

/-- `pfs_tx_t`, with the operations created so far; an operation is known by its number. -/
structure Tx (κ α : Type) where
  op : Nat → TxOp κ α
  nop : Nat
  tOps : List Nat
  tNops : Int
  opsroot : κ → Option Nat

/-- What a pointer to an object points to: the copy in an operation, or the metadata cache. -/
inductive Ptr (κ : Type) where
  | topLocal (top : Nat)
  | buf (k : κ)

/-- `PFS_ASSERT`. -/
def assert (c : Prop) [Decidable c] : Option Unit := if c then some () else none

namespace Tx

variable (zero : Mo α) (crc : α → Nat) (tx : Tx κ α)

def setOp (top : Nat) (f : TxOp κ α → TxOp κ α) : Tx κ α := { tx with op := update tx.op top (f (tx.op top)) }

/-- `pfs_txop_create`, of memory set to zero. -/
def txopCreate : TxOp κ α := ⟨zero, none, false, false, false, none, [], 0, 0⟩

/-- `_pfs_tx_new_op`. -/
def newOp : Tx κ α :=
  { tx with
    op := update tx.op tx.nop (txopCreate zero)
    nop := tx.nop + 1
    tOps := tx.tOps ++ [tx.nop]
    tNops := tx.tNops + 1 }

/-- `pfs_tx_index_op`: the operation that is in the tree for the object, which is this one if none was. -/
def indexOp [DecidableEq κ] (top : Nat) (k : κ) : Tx κ α × Nat :=
  match tx.opsroot k with
  | some duphead => (tx, duphead)
  | none => ({ tx with opsroot := update tx.opsroot k (some top) }, top)

/-- `pfs_txop_init` of an object of the metadata cache. -/
def txopInit [DecidableEq κ] (cache : κ → Mo α) (top : Nat) (k : κ) : Option (Tx κ α × Ptr κ) := do
  assert ((tx.op top).inited = false ∧ (tx.op top).done = false)
  let (tx, duphead) := (tx.setOp top fun o => { o with inited := true, key := some k }).indexOp top k
  let tx := if duphead = top then tx.setOp top fun o => { o with topLocal := cache k } else tx
  let tx := tx.setOp top fun o => { o with dupHead := some duphead, dupCnt := 0 }
  let tx := tx.setOp top fun o => { o with dupIdx := (tx.op duphead).dupCnt }
  return (tx.setOp duphead fun o => { o with dupCnt := o.dupCnt + 1 }, .topLocal duphead)

/-- `pfs_tx_get_mo` before the transaction is done. -/
def getMo (k : κ) : Ptr κ :=
  match tx.opsroot k with
  | some duphead => .topLocal duphead
  | none => .buf k

/-- `pfs_txop_update`. -/
def txopUpdate (top : Nat) (cb : Bool) : Option (Tx κ α) := do
  assert ((tx.op top).inited = true ∧ (tx.op top).done = false)
  let duphead ← (tx.op top).dupHead
  let tx := tx.setOp duphead fun o => { o with topLocal := ⟨o.topLocal.val, crc o.topLocal.val⟩ }
  let tx := tx.setOp top fun o => { o with hasCb := cb, done := true }
  let tx := tx.setOp duphead fun o => { o with dupCnt := o.dupCnt - 1 }
  assert ((tx.op top).dupIdx = (tx.op duphead).dupCnt)
  assert ((tx.op top).dupCnt = 0)
  return tx

/-- `pfs_txop_merge`. -/
def txopMerge (duphead top : Nat) : Option (Tx κ α) := do
  assert ((tx.op duphead).inited = true)
  assert ((tx.op top).done = true)
  assert ((tx.op top).shadow = [])
  return if (tx.op top).hasCb then tx.setOp duphead fun o => { o with shadow := top :: o.shadow } else tx

/-- `_pfs_tx_done_op`. -/
def doneOp (top : Nat) (cb : Bool) : Option (Tx κ α) := do
  let tx ← tx.txopUpdate crc top cb
  let duphead ← (tx.op top).dupHead
  if top = duphead then return tx
  else txopMerge { tx with tOps := tx.tOps.erase top, tNops := tx.tNops - 1 } duphead top

/-- The entries that `pfs_txop_log` makes of the operations. -/
def txopLogs (crc : α → Nat) (op : Nat → TxOp κ α) : List Nat → Option (List (κ × Mo α))
  | [] => some []
  | top :: tops => do
    assert ((op top).done = true)
    assert ((op top).topLocal.checksum = crc (op top).topLocal.val)
    return (← (op top).key, (op top).topLocal) :: (← txopLogs crc op tops)

/-- `pfs_tx_log`, as far as the entries go. -/
def txLog : Option (List (κ × Mo α)) := do
  let les ← txopLogs crc tx.op tx.tOps
  assert ((les.length : Int) = tx.tNops)
  return les

end Tx

/-! ## Transactions -/

/-- A transaction that runs: the metadata cache, the transaction, and the pointers that the callers got for
their operations. The rest is for the statements: the cache at the beginning, the value last written to
each object, the open operations on it with the last one first, and the objects so far. -/
structure Run (κ α : Type) where
  cache : κ → Mo α
  tx : Tx κ α
  obj : Nat → Option (Ptr κ)
  committed : κ → Mo α
  view : κ → α
  stack : κ → List Nat
  opened : List κ

/-- What the code between the beginning and the end of a transaction does. -/
inductive Event (κ α : Type) where
  | newOp
  | init (top : Nat) (k : κ)
  | store (top : Nat) (v : α)
  | done (top : Nat) (cb : Bool)

namespace Run

variable (zero : Mo α) (crc : α → Nat) (s : Run κ α)

def begin (cache : κ → Mo α) : Run κ α where
  cache := cache
  tx := ⟨fun _ => Tx.txopCreate zero, 0, [], 0, fun _ => none⟩
  obj _ := none
  committed := cache
  view k := (cache k).val
  stack _ := []
  opened := []

def deref : Ptr κ → Mo α
  | .topLocal top => (s.tx.op top).topLocal
  | .buf k => s.cache k

/-- A lookup of an object within the transaction. -/
def lookup (k : κ) : Mo α := s.deref (s.tx.getMo k)

/-- An assignment to the object that a pointer points to. -/
def assign [DecidableEq κ] (v : α) : Ptr κ → Run κ α
  | .topLocal top => { s with tx := s.tx.setOp top fun o => { o with topLocal := { o.topLocal with val := v } } }
  | .buf k => { s with cache := update s.cache k { s.cache k with val := v } }

/-- The order the source asks for: an operation is initialised once, the object is changed and the operation
finished while it is open, and of the open operations on one object the last is finished first. -/
def Enabled : Event κ α → Prop
  | .newOp => True
  | .init top _ => top < s.tx.nop ∧ (s.tx.op top).inited = false
  | .store top _ => ∃ k ∈ (s.tx.op top).key, top ∈ s.stack k
  | .done top _ => ∃ k ∈ (s.tx.op top).key, (s.stack k).head? = some top

instance : (e : Event κ α) → Decidable (s.Enabled e)
  | .newOp => inferInstanceAs (Decidable True)
  | .init _ _ => inferInstanceAs (Decidable (_ ∧ _))
  | .store top _ | .done top _ => inferInstanceAs (Decidable (∃ k ∈ (s.tx.op top).key, _))

/-- `none` when an assertion fails. -/
def exec [DecidableEq κ] : Event κ α → Option (Run κ α)
  | .newOp => some { s with tx := s.tx.newOp zero }
  | .init top k => do
    let (tx, p) ← s.tx.txopInit s.cache top k
    return { s with
      tx := tx
      obj := update s.obj top (some p)
      stack := update s.stack k (top :: s.stack k)
      opened := k :: s.opened }
  | .store top v => do
    let p ← s.obj top
    let k ← (s.tx.op top).key
    return { s.assign v p with view := update s.view k v }
  | .done top cb => do
    let k ← (s.tx.op top).key
    let tx ← s.tx.doneOp crc top cb
    return { s with tx := tx, stack := update s.stack k (s.stack k).tail }

end Run

/-- A transaction from its beginning, on any cache. -/
def txSystem [DecidableEq κ] (zero : Mo α) (crc : α → Nat) : System (Run κ α) (Event κ α) where
  init s := ∃ cache, s = Run.begin zero cache
  step s e := if s.Enabled e then s.exec zero crc e else none

/-! ## The invariant -/

/-- The open operations on an object, the last one first: each counts those below it. -/
def Stacked (tx : Tx κ α) (k : κ) : List Nat → Prop
  | [] => True
  | i :: r => i < tx.nop ∧ (tx.op i).inited = true ∧ (tx.op i).done = false ∧ (tx.op i).key = some k ∧ i ∈ tx.tOps ∧
      (tx.op i).dupIdx = r.length ∧ i ∉ r ∧ Stacked tx k r

/-- What holds of an operation. -/
structure OpOk (s : Run κ α) (i : Nat) : Prop where
  new : (s.tx.op i).inited = false → (s.tx.op i).done = false ∧ (s.tx.op i).key = none ∧ (s.tx.op i).shadow = [] ∧
    i ∈ s.tx.tOps
  head : (s.tx.op i).inited = true → ∃ k h, (s.tx.op i).key = some k ∧ s.tx.opsroot k = some h ∧
    (s.tx.op i).dupHead = some h ∧ s.obj i = some (.topLocal h) ∧ ((s.tx.op i).done = false → i ∈ s.stack k)
  nested : (s.tx.op i).dupHead ≠ some i → (s.tx.op i).dupCnt = 0 ∧ (s.tx.op i).shadow = []
  listed : i ∈ s.tx.tOps → (s.tx.op i).done = true → (s.tx.op i).dupHead = some i

/-- What holds of the head of the operations on an object. -/
structure HeadOk (crc : α → Nat) (s : Run κ α) (k : κ) (h : Nat) : Prop where
  lt : h < s.tx.nop
  inited : (s.tx.op h).inited = true
  key : (s.tx.op h).key = some k
  dupHead : (s.tx.op h).dupHead = some h
  mem : h ∈ s.tx.tOps
  opened : k ∈ s.opened
  val : (s.tx.op h).topLocal.val = s.view k
  dupCnt : (s.tx.op h).dupCnt = (s.stack k).length
  closed : s.stack k = [] → (s.tx.op h).done = true ∧ (s.tx.op h).topLocal.checksum = crc (s.tx.op h).topLocal.val
  bottom : (s.tx.op h).done = false → (s.stack k).getLast? = some h

/-- What holds of an object. -/
structure KeyOk (crc : α → Nat) (s : Run κ α) (k : κ) : Prop where
  stacked : Stacked s.tx k (s.stack k)
  unopened : s.tx.opsroot k = none → s.stack k = [] ∧ k ∉ s.opened ∧ s.view k = (s.cache k).val
  head : ∀ h, s.tx.opsroot k = some h → HeadOk crc s k h

structure Inv (crc : α → Nat) (s : Run κ α) : Prop where
  cache : s.cache = s.committed
  nops : s.tx.tNops = s.tx.tOps.length
  nodup : s.tx.tOps.Nodup
  lt : ∀ i ∈ s.tx.tOps, i < s.tx.nop
  op : ∀ i < s.tx.nop, OpOk s i
  key : ∀ k, KeyOk crc s k

variable {zero : Mo α} {crc : α → Nat} {s s' : Run κ α} {k : κ} {top duphead : Nat} {tx : Tx κ α} {cb : Bool}

theorem inv_begin (cache : κ → Mo α) : Inv crc (Run.begin zero cache) where
  cache := rfl
  nops := rfl
  nodup := List.nodup_nil
  lt _ hi := by cases hi
  op _ hi := absurd hi (Nat.not_lt_zero _)
  key _ := ⟨trivial, fun _ => ⟨rfl, List.not_mem_nil, rfl⟩, nofun⟩

theorem Stacked.mem {tx : Tx κ α} {k : κ} : ∀ {l : List Nat}, Stacked tx k l → ∀ i ∈ l,
    i < tx.nop ∧ (tx.op i).inited = true ∧ (tx.op i).done = false ∧ (tx.op i).key = some k
  | i :: r, ⟨hlt, hi, hd, hk, _, _, _, hr⟩, j, hj => by
    rcases List.mem_cons.1 hj with rfl | hj
    · exact ⟨hlt, hi, hd, hk⟩
    · exact hr.mem j hj

/-- The open operations on an object do not change, and none of them leaves the transaction. -/
theorem Stacked.congr {tx tx' : Tx κ α} {k : κ} (hnop : tx.nop ≤ tx'.nop) : ∀ {l : List Nat}, Stacked tx k l →
    (∀ i ∈ l, (tx'.op i).inited = (tx.op i).inited ∧ (tx'.op i).done = (tx.op i).done ∧
      (tx'.op i).key = (tx.op i).key ∧ (tx'.op i).dupIdx = (tx.op i).dupIdx ∧ (i ∈ tx.tOps → i ∈ tx'.tOps)) →
    Stacked tx' k l
  | [], _, _ => trivial
  | i :: r, ⟨hlt, hi, hd, hk, hm, hx, hir, hr⟩, heq => by
    obtain ⟨e1, e2, e3, e4, e5⟩ := heq i List.mem_cons_self
    exact ⟨lt_of_lt_of_le hlt hnop, e1.trans hi, e2.trans hd, e3.trans hk, e5 hm, e4.trans hx, hir,
      hr.congr hnop fun j hj => heq j (List.mem_cons_of_mem _ hj)⟩

theorem KeyOk.of_head {j : Nat} (hroot : s.tx.opsroot k = some j) (hstacked : Stacked s.tx k (s.stack k))
    (hhead : HeadOk crc s k j) : KeyOk crc s k :=
  ⟨hstacked, by rw [hroot]; nofun, fun _ hi => Option.some.inj (hroot.symm.trans hi) ▸ hhead⟩

/-- What is said of an object depends on the operations on it only. -/
theorem KeyOk.congr (h : KeyOk crc s k) (hnop : s.tx.nop ≤ s'.tx.nop)
    (hop : ∀ i < s.tx.nop, (s.tx.op i).key = some k → s'.tx.op i = s.tx.op i ∧ (i ∈ s.tx.tOps → i ∈ s'.tx.tOps))
    (hroot : s'.tx.opsroot k = s.tx.opsroot k) (hstack : s'.stack k = s.stack k) (hview : s'.view k = s.view k)
    (hopened : k ∈ s'.opened ↔ k ∈ s.opened) (hcache : s'.cache k = s.cache k) : KeyOk crc s' k := by
  refine ⟨?_, ?_, ?_⟩
  · rw [hstack]
    refine h.stacked.congr hnop fun i hi => ?_
    obtain ⟨hlt, -, -, hk⟩ := h.stacked.mem i hi
    obtain ⟨heq, hmem⟩ := hop i hlt hk
    rw [heq]
    exact ⟨rfl, rfl, rfl, rfl, hmem⟩
  · rw [hroot, hstack, hview, hcache, hopened]
    exact h.unopened
  · intro i hi
    rw [hroot] at hi
    have hh := h.head i hi
    obtain ⟨heq, hmem⟩ := hop i hh.lt hh.key
    constructor
    case lt => exact lt_of_lt_of_le hh.lt hnop
    case inited => rw [heq]; exact hh.inited
    case key => rw [heq]; exact hh.key
    case dupHead => rw [heq]; exact hh.dupHead
    case mem => exact hmem hh.mem
    case opened => exact hopened.2 hh.opened
    case val => rw [heq, hview]; exact hh.val
    case dupCnt => rw [heq, hstack]; exact hh.dupCnt
    case closed => rw [heq, hstack]; exact hh.closed
    case bottom => rw [heq, hstack]; exact hh.bottom

/-- What is said of an operation that does not change, if its object keeps its head and it stays open. -/
theorem OpOk.congr {i : Nat} (h : OpOk s i) (hop : s'.tx.op i = s.tx.op i) (hobj : s'.obj i = s.obj i)
    (hmem : i ∈ s'.tx.tOps ↔ i ∈ s.tx.tOps)
    (hkey : ∀ k, (s.tx.op i).key = some k → (∀ j, s.tx.opsroot k = some j → s'.tx.opsroot k = some j) ∧
      (i ∈ s.stack k → i ∈ s'.stack k)) : OpOk s' i := by
  constructor <;> rw [hop]
  case new => rw [hmem]; exact h.new
  case head =>
    intro hinit
    obtain ⟨k, j, hk, hj, hd, ho, hs⟩ := h.head hinit
    exact ⟨k, j, hk, (hkey k hk).1 j hj, hd, hobj.trans ho, fun hdn => (hkey k hk).2 (hs hdn)⟩
  case nested => exact h.nested
  case listed => rw [hmem]; exact h.listed

theorem opOk_head {i : Nat} (hinit : (s.tx.op i).inited = true) (hkey : (s.tx.op i).key = some k)
    (hhead : (s.tx.op i).dupHead = some i) (hroot : s.tx.opsroot k = some i) (hobj : s.obj i = some (.topLocal i))
    (hopen : (s.tx.op i).done = false → i ∈ s.stack k) : OpOk s i where
  new hn := by
    rw [hinit] at hn
    cases hn
  head _ := ⟨k, i, hkey, hroot, hhead, hobj, hopen⟩
  nested hn := absurd hhead hn
  listed _ _ := hhead

/-- A step on operations on the object `k`. Of the others each stays as it is. -/
theorem Inv.touch (h : Inv crc s) (hnop : s'.tx.nop = s.tx.nop)
    (hcache : s'.cache = s.cache ∧ s'.committed = s.committed) (hnops : s'.tx.tNops = s'.tx.tOps.length)
    (hnodup : s'.tx.tOps.Nodup) (hsub : s'.tx.tOps ⊆ s.tx.tOps)
    (hother : ∀ k', k' ≠ k → s'.tx.opsroot k' = s.tx.opsroot k' ∧ s'.stack k' = s.stack k' ∧ s'.view k' = s.view k' ∧
      (k' ∈ s'.opened ↔ k' ∈ s.opened)) (hroot : ∀ j, s.tx.opsroot k = some j → s'.tx.opsroot k = some j)
    (hop : ∀ i < s.tx.nop, (OpOk s' i ∧ ∀ k', (s.tx.op i).key = some k' → k' = k) ∨
      (s'.tx.op i = s.tx.op i ∧ s'.obj i = s.obj i ∧ (i ∈ s'.tx.tOps ↔ i ∈ s.tx.tOps) ∧
        (i ∈ s.stack k → i ∈ s'.stack k))) (hkey : KeyOk crc s' k) : Inv crc s' := by
  refine ⟨by rw [hcache.1, hcache.2, h.cache], hnops, hnodup, fun i hi => hnop ▸ h.lt i (hsub hi), fun i hi => ?_,
    fun k' => ?_⟩
  · rw [hnop] at hi
    rcases hop i hi with ⟨hok, -⟩ | ⟨heq, hobj, hmem, hs⟩
    · exact hok
    refine (h.op i hi).congr heq hobj hmem fun k' _ => ?_
    by_cases hk : k' = k
    · subst hk
      exact ⟨hroot, hs⟩
    · obtain ⟨hr, hst, -⟩ := hother k' hk
      rw [hr, hst]
      exact ⟨fun _ => id, id⟩
  · by_cases hk : k' = k
    · subst hk
      exact hkey
    · obtain ⟨hr, hst, hview, hopened⟩ := hother k' hk
      refine (h.key k').congr hnop.ge (fun i hi hik => ?_) hr hst hview hopened (by rw [hcache.1])
      rcases hop i hi with ⟨-, hk'⟩ | ⟨heq, -, hmem, -⟩
      · exact absurd (hk' k' hik) hk
      · exact ⟨heq, hmem.2⟩

namespace Inv

variable (h : Inv crc s)
include h

theorem lookup_eq (k : κ) : (s.lookup k).val = s.view k := by
  rw [Run.lookup, Tx.getMo]
  cases hr : s.tx.opsroot k with
  | none => exact ((h.key k).unopened hr).2.2.symm
  | some i => exact ((h.key k).head i hr).val

/-- The head of an object, while it is open, is one of the open operations on it. -/
theorem head_open (hroot : s.tx.opsroot k = some duphead) :
    s.obj duphead = some (.topLocal duphead) ∧ ((s.tx.op duphead).done = false → duphead ∈ s.stack k) := by
  have hhead := (h.key k).head duphead hroot
  obtain ⟨k', j, hk', -, hd, ho, hs⟩ := (h.op duphead hhead.lt).head hhead.inited
  obtain rfl : k = k' := Option.some.inj (hhead.key.symm.trans hk')
  obtain rfl : duphead = j := Option.some.inj (hhead.dupHead.symm.trans hd)
  exact ⟨ho, hs⟩

/-! ## A new operation -/

theorem newOp : Inv crc { s with tx := s.tx.newOp zero } := by
  have hop : ∀ i < s.tx.nop, (s.tx.newOp zero).op i = s.tx.op i := fun i hi =>
    update_of_ne (ne_of_lt hi) _ _
  have hnew : (s.tx.newOp zero).op s.tx.nop = Tx.txopCreate zero := update_self ..
  have hmem : ∀ i, i ∈ (s.tx.newOp zero).tOps ↔ i ∈ s.tx.tOps ∨ i = s.tx.nop := by
    intro i
    simp [Tx.newOp]
  constructor
  case cache => exact h.cache
  case nops =>
    show s.tx.tNops + 1 = ((s.tx.tOps ++ [s.tx.nop]).length : Int)
    rw [h.nops, List.length_append]
    rfl
  case nodup =>
    refine List.nodup_append.2 ⟨h.nodup, List.nodup_singleton _, fun i hi j hj => ?_⟩
    rw [List.mem_singleton.1 hj]
    exact ne_of_lt (h.lt i hi)
  case lt =>
    intro i hi
    rcases (hmem i).1 hi with hi | rfl
    · exact Nat.lt_succ_of_lt (h.lt i hi)
    · exact Nat.lt_succ_self _
  case op =>
    intro i hi
    rcases Nat.lt_succ_iff_lt_or_eq.1 hi with hlt | rfl
    · refine (h.op i hlt).congr (hop i hlt) rfl ?_ fun k _ => ⟨fun _ => id, id⟩
      dsimp only
      rw [hmem, or_iff_left (ne_of_lt hlt)]
    · constructor
      case new =>
        dsimp only
        rw [hnew, hmem]
        exact fun _ => ⟨rfl, rfl, rfl, .inr rfl⟩
      case head => dsimp only; rw [hnew]; nofun
      case nested => dsimp only; rw [hnew]; exact fun _ => ⟨rfl, rfl⟩
      case listed => dsimp only; rw [hnew]; nofun
  case key =>
    intro k
    refine (h.key k).congr (Nat.le_succ _) (fun i hlt _ => ⟨hop i hlt, fun hm => (hmem i).2 (.inl hm)⟩) rfl rfl rfl
      Iff.rfl rfl

end Inv

/-! ## Initialisation -/

theorem txopInit_first [DecidableEq κ] {cache : κ → Mo α} (hi : (tx.op top).inited = false)
    (hd : (tx.op top).done = false) (hroot : tx.opsroot k = none) : tx.txopInit cache top k = some ({ tx with
      op := update tx.op top { tx.op top with
        topLocal := cache k, key := some k, inited := true, dupHead := some top, dupCnt := 1, dupIdx := 0 }
      opsroot := update tx.opsroot k (some top) }, .topLocal top) := by
  have hassert : assert ((tx.op top).inited = false ∧ (tx.op top).done = false) = some () := if_pos ⟨hi, hd⟩
  rw [Tx.txopInit, hassert]
  simp [Tx.indexOp, Tx.setOp, hroot]

theorem txopInit_again [DecidableEq κ] {cache : κ → Mo α} (hi : (tx.op top).inited = false)
    (hd : (tx.op top).done = false) (hroot : tx.opsroot k = some duphead) (hne : duphead ≠ top) :
    tx.txopInit cache top k = some ({ tx with
      op := update (update tx.op top { tx.op top with
        key := some k, inited := true, dupHead := some duphead, dupCnt := 0, dupIdx := (tx.op duphead).dupCnt })
        duphead { tx.op duphead with dupCnt := (tx.op duphead).dupCnt + 1 } }, .topLocal duphead) := by
  have hassert : assert ((tx.op top).inited = false ∧ (tx.op top).done = false) = some () := if_pos ⟨hi, hd⟩
  rw [Tx.txopInit, hassert]
  simp [Tx.indexOp, Tx.setOp, hroot, hne]

namespace Inv

variable [DecidableEq κ] (h : Inv crc s)
include h

theorem init_first (hlt : top < s.tx.nop) (hi : (s.tx.op top).inited = false) (hroot : s.tx.opsroot k = none) :
    ∃ s', s.exec zero crc (.init top k) = some s' ∧ Inv crc s' := by
  obtain ⟨hdone, hkey, hshadow, hmem⟩ := (h.op top hlt).new hi
  obtain ⟨hstack, hopened, hview⟩ := (h.key k).unopened hroot
  refine ⟨_, by rw [Run.exec, txopInit_first hi hdone hroot]; rfl, ?_⟩
  refine h.touch (k := k) rfl ⟨rfl, rfl⟩ h.nops h.nodup (fun _ => id) (fun k' hk => ?other) ?root (fun i hilt => ?op) ?key
  case other => simp [hk]
  case root => rw [hroot]; nofun
  case op =>
    by_cases hit : i = top
    · subst hit
      refine .inl ⟨?_, by rw [hkey]; nofun⟩
      apply opOk_head (k := k) <;> simp
    · exact .inr ⟨update_of_ne hit .., update_of_ne hit .., Iff.rfl, fun hs => by simp [hs]⟩
  case key =>
    refine .of_head (update_self ..) ?stacked ?head
    case stacked =>
      simp only [update_self, hstack]
      exact ⟨hlt, by simp, by simp [hdone], by simp, hmem, by simp, List.not_mem_nil, trivial⟩
    case head =>
      constructor <;> simp only [update_self, hstack]
      case lt => exact hlt
      case mem => exact hmem
      case opened => exact List.mem_cons_self
      case val => exact hview.symm
      case dupCnt => rfl
      case closed => nofun
      case bottom => exact fun _ => rfl

theorem init_again (hlt : top < s.tx.nop) (hi : (s.tx.op top).inited = false) (hroot : s.tx.opsroot k = some duphead) :
    ∃ s', s.exec zero crc (.init top k) = some s' ∧ Inv crc s' := by
  obtain ⟨hdone, hkey, hshadow, hmem⟩ := (h.op top hlt).new hi
  have hhead := (h.key k).head duphead hroot
  have hne : duphead ≠ top := by
    rintro rfl
    rw [hhead.inited] at hi
    cases hi
  refine ⟨_, by rw [Run.exec, txopInit_again hi hdone hroot hne]; rfl, ?_⟩
  refine h.touch (k := k) rfl ⟨rfl, rfl⟩ h.nops h.nodup (fun _ => id) (fun k' hk => ?other) (fun _ => id)
    (fun i hilt => ?op) ?key
  case other => simp [hk]
  case op =>
    by_cases hit : i = top
    · subst hit
      refine .inl ⟨?_, by rw [hkey]; nofun⟩
      constructor <;> simp only [update_of_ne hne.symm, update_self]
      case new => nofun
      case head => exact fun _ => ⟨k, duphead, rfl, hroot, rfl, rfl, fun _ => by simp⟩
      case nested => exact fun _ => ⟨trivial, hshadow⟩
      case listed => exact fun _ hd => absurd (hdone.symm.trans hd) (by decide)
    · by_cases hid : i = duphead
      · subst hid
        obtain ⟨hobj, hs⟩ := h.head_open hroot
        refine .inl ⟨?_, fun k' hk => Option.some.inj (hk.symm.trans hhead.key)⟩
        apply opOk_head (k := k) <;> simp +contextual [hit, hhead.inited, hhead.key, hhead.dupHead, hroot, hobj, hs]
      · exact .inr ⟨by simp [hit, hid], update_of_ne hit .., Iff.rfl, fun hs => by simp [hs]⟩
  case key =>
    have hstacked := (h.key k).stacked
    have htop : top ∉ s.stack k := fun hm => by
      have := (hstacked.mem top hm).2.1
      rw [hi] at this
      cases this
    refine .of_head hroot ?stacked ?head
    case stacked =>
      simp only [update_self]
      refine ⟨hlt, by simp [hne.symm], by simp [hne.symm, hdone], by simp [hne.symm], hmem, ?_, htop, ?_⟩
      · simp [hne.symm, hhead.dupCnt]
      · refine hstacked.congr (by exact le_refl _) fun i hm => ?_
        have hit : i ≠ top := fun heq => htop (heq ▸ hm)
        by_cases hid : i = duphead
        · subst hid
          simp
        · simp [hit, hid]
    case head =>
      constructor <;> simp only [update_self]
      case lt => exact hhead.lt
      case inited => exact hhead.inited
      case key => exact hhead.key
      case dupHead => exact hhead.dupHead
      case mem => exact hhead.mem
      case opened => exact List.mem_cons_self
      case val => exact hhead.val
      case dupCnt => rw [hhead.dupCnt, List.length_cons]; rfl
      case closed => nofun
      case bottom =>
        intro hd
        rw [List.getLast?_cons, hhead.bottom hd]
        rfl

/-! ## Changes of the copy -/

theorem store {v : α} (hen : s.Enabled (.store top v)) :
    ∃ s', s.exec zero crc (.store top v) = some s' ∧ Inv crc s' := by
  obtain ⟨k, hkey, hmem⟩ := hen
  obtain ⟨hlt, hinit, -, -⟩ := (h.key k).stacked.mem top hmem
  obtain ⟨k', duphead, hk', hroot, -, hobj, -⟩ := (h.op top hlt).head hinit
  obtain rfl : k = k' := Option.some.inj (hkey.symm.trans hk')
  have hhead := (h.key k).head duphead hroot
  refine ⟨{ s with
    tx := s.tx.setOp duphead fun o => { o with topLocal := { o.topLocal with val := v } }
    view := update s.view k v }, by rw [Run.exec, hobj, hk']; rfl, ?_⟩
  -- only the copy in the head changes
  refine h.touch (k := k) rfl ⟨rfl, rfl⟩ h.nops h.nodup (fun _ => id) (fun k' hk => ?other) (fun _ => id)
    (fun i hilt => ?op) ?key
  case other => simp [Tx.setOp, hk]
  case op =>
    by_cases hid : i = duphead
    · subst hid
      obtain ⟨hobj, hs⟩ := h.head_open hroot
      refine .inl ⟨?_, fun k' hk => Option.some.inj (hk.symm.trans hhead.key)⟩
      apply opOk_head (k := k) <;>
        simp +contextual [Tx.setOp, hhead.inited, hhead.key, hhead.dupHead, hroot, hobj, hs]
    · exact .inr ⟨update_of_ne hid .., rfl, Iff.rfl, id⟩
  case key =>
    refine .of_head hroot ?stacked ?head
    case stacked =>
      refine (h.key k).stacked.congr (by exact le_refl _) fun i _ => ?_
      by_cases hid : i = duphead
      · subst hid
        simp [Tx.setOp]
      · simp [Tx.setOp, hid]
    case head =>
      constructor <;> simp only [Tx.setOp, update_self]
      case lt => exact hhead.lt
      case inited => exact hhead.inited
      case key => exact hhead.key
      case dupHead => exact hhead.dupHead
      case mem => exact hhead.mem
      case opened => exact hhead.opened
      case dupCnt => exact hhead.dupCnt
      case closed =>
        intro hnil
        rw [hnil] at hmem
        cases hmem
      case bottom => exact hhead.bottom

end Inv

/-! ## The end of an operation -/

/-- The head is finished last of the open operations. -/
theorem doneOp_head (hi : (tx.op top).inited = true) (hd : (tx.op top).done = false)
    (hhead : (tx.op top).dupHead = some top) (hcnt : (tx.op top).dupCnt = 1) (hidx : (tx.op top).dupIdx = 0) :
    tx.doneOp crc top cb = some { tx with op := update tx.op top { tx.op top with
      topLocal := ⟨(tx.op top).topLocal.val, crc (tx.op top).topLocal.val⟩, hasCb := cb, done := true, dupCnt := 0 } } := by
  simp [Tx.doneOp, Tx.txopUpdate, Tx.setOp, assert, hi, hd, hhead, hcnt, hidx]

/-- An operation that is not the head leaves the transaction. -/
theorem doneOp_nested (hi : (tx.op top).inited = true) (hd : (tx.op top).done = false)
    (hhead : (tx.op top).dupHead = some duphead) (hne : top ≠ duphead) (hinit : (tx.op duphead).inited = true)
    (hcnt : (tx.op top).dupCnt = 0) (hshadow : (tx.op top).shadow = [])
    (hidx : (tx.op top).dupIdx = (tx.op duphead).dupCnt - 1) : tx.doneOp crc top cb = some { tx with
      op := update (update tx.op top { tx.op top with hasCb := cb, done := true }) duphead
        { tx.op duphead with
          topLocal := ⟨(tx.op duphead).topLocal.val, crc (tx.op duphead).topLocal.val⟩
          dupCnt := (tx.op duphead).dupCnt - 1
          shadow := if cb then top :: (tx.op duphead).shadow else (tx.op duphead).shadow }
      tOps := tx.tOps.erase top
      tNops := tx.tNops - 1 } := by
  have hcomm : ∀ a b c, update (update (update tx.op duphead a) top b) duphead c =
      update (update tx.op top b) duphead c := by
    intro a b c
    rw [update_comm hne.symm, update_idem]
  cases cb <;>
  simp [Tx.doneOp, Tx.txopUpdate, Tx.txopMerge, Tx.setOp, assert, hi, hd, hhead, hne, hne.symm, hcnt, hidx, hinit, hshadow,
    hcomm]

namespace Inv

variable [DecidableEq κ] (h : Inv crc s)
include h

theorem done_head {r : List Nat} (hkey : (s.tx.op top).key = some k) (hstack : s.stack k = top :: r)
    (hroot : s.tx.opsroot k = some top) : ∃ s', s.exec zero crc (.done top cb) = some s' ∧ Inv crc s' := by
  have hhead := (h.key k).head top hroot
  have hstacked := (h.key k).stacked
  rw [hstack] at hstacked
  obtain ⟨hlt, hinit, hdone, -, hmem, hidx, htop, -⟩ := hstacked
  -- the head is below all others, so it is the only one
  obtain rfl : r = [] := by
    have hlast := hhead.bottom hdone
    rw [hstack] at hlast
    cases r with
    | nil => rfl
    | cons j r =>
      refine absurd (List.mem_of_getLast? ?_) htop
      rwa [List.getLast?_cons_cons] at hlast
  have hcnt : (s.tx.op top).dupCnt = 1 := by
    rw [hhead.dupCnt, hstack]
    rfl
  refine ⟨_, by rw [Run.exec, hkey, doneOp_head hinit hdone hhead.dupHead hcnt hidx]; rfl, ?_⟩
  refine h.touch (k := k) rfl ⟨rfl, rfl⟩ h.nops h.nodup (fun _ => id) (fun k' hk => ?other) (fun _ => id)
    (fun i hilt => ?op) ?key
  case other => simp [hk]
  case op =>
    by_cases hit : i = top
    · subst hit
      refine .inl ⟨?_, fun k' hk => Option.some.inj (hk.symm.trans hkey)⟩
      apply opOk_head (k := k) <;> simp [hinit, hkey, hhead.dupHead, hroot, (h.head_open hroot).1]
    · refine .inr ⟨update_of_ne hit .., rfl, Iff.rfl, fun hik => ?_⟩
      rw [hstack] at hik
      exact absurd (List.mem_singleton.1 hik) hit
  case key =>
    refine .of_head hroot ?stacked ?head <;> simp only [update_self, hstack, List.tail_cons]
    case stacked => exact trivial
    case head =>
      constructor <;> simp only [update_self]
      case lt => exact hlt
      case inited => exact hinit
      case key => exact hkey
      case dupHead => exact hhead.dupHead
      case mem => exact hmem
      case opened => exact hhead.opened
      case val => exact hhead.val
      case dupCnt => rfl
      case closed => exact fun _ => ⟨trivial, trivial⟩
      case bottom => nofun

theorem done_nested {r : List Nat} (hkey : (s.tx.op top).key = some k) (hstack : s.stack k = top :: r)
    (hroot : s.tx.opsroot k = some duphead) (hne : top ≠ duphead) :
    ∃ s', s.exec zero crc (.done top cb) = some s' ∧ Inv crc s' := by
  have hhead := (h.key k).head duphead hroot
  have hstacked := (h.key k).stacked
  rw [hstack] at hstacked
  obtain ⟨hlt, hinit, hdone, -, hmem, hidx, htop, hrest⟩ := hstacked
  obtain ⟨k', j, hk', hj, hd, ho, -⟩ := (h.op top hlt).head hinit
  obtain rfl : k = k' := Option.some.inj (hkey.symm.trans hk')
  obtain rfl : duphead = j := Option.some.inj (hroot.symm.trans hj)
  obtain ⟨hcnt, hshadow⟩ := (h.op top hlt).nested fun heq => hne (Option.some.inj (heq.symm.trans hd))
  have hcnth : (s.tx.op duphead).dupCnt = r.length + 1 := by
    rw [hhead.dupCnt, hstack]
    rfl
  -- the head is not the only open operation, if it is open at all
  have hlast : (s.tx.op duphead).done = false → r.getLast? = some duphead := by
    intro hdn
    have hl := hhead.bottom hdn
    rw [hstack] at hl
    cases r with
    | nil => exact absurd (Option.some.inj hl) hne
    | cons i r => rwa [List.getLast?_cons_cons] at hl
  have herase : ∀ i, i ≠ top → i ∈ s.tx.tOps → i ∈ s.tx.tOps.erase top := fun i hi => (List.mem_erase_of_ne hi).2
  refine ⟨_, by
    rw [Run.exec, hkey, doneOp_nested hinit hdone hd hne hhead.inited hcnt hshadow (by rw [hidx, hcnth]; omega)]
    rfl, ?_⟩
  refine h.touch (k := k) rfl ⟨rfl, rfl⟩ ?nops (h.nodup.erase top) (fun i hi => List.mem_of_mem_erase hi)
    (fun k' hk => ?other) (fun _ => id) (fun i hilt => ?op) ?key
  case nops =>
    have hpos := List.length_pos_of_mem hmem
    dsimp only
    rw [h.nops, List.length_erase_of_mem hmem]
    omega
  case other => simp [hk]
  case op =>
    by_cases hit : i = top
    · subst hit
      refine .inl ⟨?_, fun k' hk => Option.some.inj (hk.symm.trans hkey)⟩
      constructor <;> simp only [update_of_ne hne, update_self]
      case new => exact fun hn => absurd (hinit.symm.trans hn) (by decide)
      case head => exact fun _ => ⟨k, duphead, hkey, hroot, hd, ho, nofun⟩
      case nested => exact fun _ => ⟨hcnt, hshadow⟩
      case listed => exact fun hm => absurd hm h.nodup.not_mem_erase
    · have hopen : i ∈ s.stack k → i ∈ update s.stack k (s.stack k).tail k := by
        rw [update_self, hstack]
        exact fun hik => (List.mem_cons.1 hik).resolve_left hit
      by_cases hid : i = duphead
      · subst hid
        obtain ⟨hobj, hs⟩ := h.head_open hroot
        refine .inl ⟨?_, fun k' hk => Option.some.inj (hk.symm.trans hhead.key)⟩
        refine opOk_head (k := k) ?_ ?_ ?_ hroot hobj fun hdn => hopen (hs (by simpa using hdn)) <;>
          simp [hhead.inited, hhead.key, hhead.dupHead]
      · exact .inr ⟨by simp [hit, hid], rfl, List.mem_erase_of_ne hit, hopen⟩
  case key =>
    refine .of_head hroot ?stacked ?head <;> simp only [update_self, hstack, List.tail_cons]
    case stacked =>
      refine hrest.congr (by exact le_refl _) fun i hm => ?_
      have hit : i ≠ top := fun heq => htop (heq ▸ hm)
      refine ⟨?_, ?_, ?_, ?_, herase i hit⟩ <;>
      · by_cases hid : i = duphead
        · subst hid
          simp
        · simp [hit, hid]
    case head =>
      constructor <;> simp only [update_self]
      case lt => exact hhead.lt
      case inited => exact hhead.inited
      case key => exact hhead.key
      case dupHead => exact hhead.dupHead
      case mem => exact herase _ hne.symm hhead.mem
      case opened => exact hhead.opened
      case val => exact hhead.val
      case dupCnt => rw [hcnth]; omega
      case closed =>
        intro hnil
        refine ⟨?_, trivial⟩
        cases hdn : (s.tx.op duphead).done with
        | true => rfl
        | false =>
          have hl := hlast hdn
          rw [hnil] at hl
          cases hl
      case bottom => exact hlast

/-! ## Every transaction -/

variable (zero) in
theorem exec {e : Event κ α} (hen : s.Enabled e) : ∃ s', s.exec zero crc e = some s' ∧ Inv crc s' := by
  cases e with
  | newOp => exact ⟨_, rfl, h.newOp⟩
  | init top k =>
    obtain ⟨hlt, hi⟩ := hen
    cases hroot : s.tx.opsroot k with
    | none => exact h.init_first hlt hi hroot
    | some duphead => exact h.init_again hlt hi hroot
  | store top v => exact h.store hen
  | done top cb =>
    obtain ⟨k, hkey, hhead⟩ := hen
    obtain ⟨r, hstack⟩ : ∃ r, s.stack k = top :: r := List.head?_eq_some_iff.1 hhead
    have hmem : top ∈ s.stack k := by rw [hstack]; exact List.mem_cons_self
    obtain ⟨hlt, hinit, -, -⟩ := (h.key k).stacked.mem top hmem
    obtain ⟨k', duphead, hk', hroot, -⟩ := (h.op top hlt).head hinit
    obtain rfl : k = k' := Option.some.inj (hkey.symm.trans hk')
    by_cases hne : top = duphead
    · subst hne
      exact h.done_head hkey hstack hroot
    · exact h.done_nested hkey hstack hroot hne

end Inv

theorem inv_reachable [DecidableEq κ] (h : (txSystem zero crc).Reachable s) : Inv crc s := by
  refine h.invariant (P := Inv crc) ?_ ?_
  · rintro s ⟨cache, rfl⟩
    exact inv_begin cache
  · intro s e s' _ hinv hstep
    rw [txSystem] at hstep
    dsimp only at hstep
    obtain ⟨hen, hstep⟩ := Option.ite_none_right_eq_some.1 hstep
    obtain ⟨s'', hexec, hinv'⟩ := hinv.exec zero hen
    cases hexec.symm.trans hstep
    exact hinv'

variable (crc) in
/-- The entries of operations that are each the head for its object. -/
theorem txopLogs_spec (tx : Tx κ α) : ∀ {l : List Nat}, l.Nodup → (∀ i ∈ l, (tx.op i).done = true ∧
      (tx.op i).topLocal.checksum = crc (tx.op i).topLocal.val ∧ ∃ k, (tx.op i).key = some k ∧ tx.opsroot k = some i) →
    ∃ les, Tx.txopLogs crc tx.op l = some les ∧ les.length = l.length ∧ (les.map Prod.fst).Nodup ∧
      ∀ le, le ∈ les ↔ ∃ i ∈ l, (tx.op i).key = some le.1 ∧ (tx.op i).topLocal = le.2
  | [], _, _ => ⟨[], rfl, rfl, List.nodup_nil, by simp⟩
  | i :: l, hnd, hall => by
    obtain ⟨hil, hnd⟩ := List.nodup_cons.1 hnd
    obtain ⟨hdone, hcrc, k, hkey, hroot⟩ := hall i List.mem_cons_self
    obtain ⟨les, hles, hlen, hkeys, hmem⟩ := txopLogs_spec tx hnd fun j hj => hall j (List.mem_cons_of_mem _ hj)
    refine ⟨(k, (tx.op i).topLocal) :: les, ?_, by rw [List.length_cons, List.length_cons, hlen], ?_, ?_⟩
    · rw [Tx.txopLogs, hles, hkey]
      simp [assert, hdone, hcrc]
    · -- an object with two entries would have two heads
      refine List.nodup_cons.2 ⟨fun hk => ?_, hkeys⟩
      obtain ⟨le, hle, hfst⟩ := List.mem_map.1 hk
      obtain ⟨j, hj, hkj, -⟩ := (hmem le).1 hle
      obtain ⟨-, -, k', hkj', hroot'⟩ := hall j (List.mem_cons_of_mem _ hj)
      have hk' : k' = k := Option.some.inj (hkj'.symm.trans (hkj.trans (congrArg some hfst)))
      rw [hk', hroot] at hroot'
      cases hroot'
      exact hil hj
    · intro le
      rw [List.mem_cons, hmem]
      constructor
      · rintro (rfl | ⟨j, hj, hle⟩)
        · exact ⟨i, List.mem_cons_self, hkey, rfl⟩
        · exact ⟨j, List.mem_cons_of_mem _ hj, hle⟩
      · rintro ⟨j, hj, hkj, hval⟩
        rcases List.mem_cons.1 hj with rfl | hj
        · refine .inl (Prod.ext ?_ hval.symm)
          exact Option.some.inj (hkj.symm.trans hkey)
        · exact .inr ⟨j, hj, hkj, hval⟩

/-- The log of a transaction: one entry for each object that an operation was opened on, with the value last
written to it and a valid checksum. -/
structure Logged (crc : α → Nat) (s : Run κ α) (les : List (κ × Mo α)) : Prop where
  nodup : (les.map Prod.fst).Nodup
  objects : ∀ k, k ∈ les.map Prod.fst ↔ k ∈ s.opened
  final : ∀ le ∈ les, le.2.val = s.view le.1 ∧ le.2.checksum = crc le.2.val

theorem Inv.logged (h : Inv crc s) (hdone : ∀ i < s.tx.nop, (s.tx.op i).done = true) :
    ∃ les, s.tx.txLog crc = some les ∧ Logged crc s les := by
  -- without open operations, the operations of the transaction are the heads
  have hhead : ∀ i ∈ s.tx.tOps, ∃ k, (s.tx.op i).key = some k ∧ s.tx.opsroot k = some i ∧ s.stack k = [] := by
    intro i hi
    have hlt := h.lt i hi
    have hd := hdone i hlt
    have hinit : (s.tx.op i).inited = true := by
      cases hin : (s.tx.op i).inited with
      | true => rfl
      | false =>
        have := ((h.op i hlt).new hin).1
        rw [hd] at this
        cases this
    obtain ⟨k, j, hk, hroot, hj, -⟩ := (h.op i hlt).head hinit
    obtain rfl : i = j := Option.some.inj (((h.op i hlt).listed hi hd).symm.trans hj)
    refine ⟨k, hk, hroot, ?_⟩
    refine List.eq_nil_iff_forall_not_mem.2 fun j hm => ?_
    obtain ⟨hjlt, -, hjd, -⟩ := (h.key k).stacked.mem j hm
    rw [hdone j hjlt] at hjd
    cases hjd
  obtain ⟨les, hles, hlen, hkeys, hmem⟩ := txopLogs_spec crc s.tx h.nodup (by
    intro i hi
    obtain ⟨k, hk, hroot, hstack⟩ := hhead i hi
    obtain ⟨hd, hcrc⟩ := ((h.key k).head i hroot).closed hstack
    exact ⟨hd, hcrc, k, hk, hroot⟩)
  refine ⟨les, ?_, hkeys, fun k => ?_, fun le hle => ?_⟩
  · rw [Tx.txLog, hles]
    simp [assert, hlen, h.nops]
  · constructor
    · intro hk
      obtain ⟨le, hle, rfl⟩ := List.mem_map.1 hk
      obtain ⟨i, hi, hkey, -⟩ := (hmem le).1 hle
      obtain ⟨k, hk', hroot, -⟩ := hhead i hi
      obtain rfl : le.1 = k := Option.some.inj (hkey.symm.trans hk')
      exact ((h.key _).head i hroot).opened
    · intro hk
      cases hroot : s.tx.opsroot k with
      | none => exact absurd hk ((h.key k).unopened hroot).2.1
      | some i =>
        have hok := (h.key k).head i hroot
        exact List.mem_map.2 ⟨(k, (s.tx.op i).topLocal), (hmem _).2 ⟨i, hok.mem, hok.key, rfl⟩, rfl⟩
  · obtain ⟨i, hi, hkey, hval⟩ := (hmem le).1 hle
    obtain ⟨k, hk, hroot, hstack⟩ := hhead i hi
    obtain rfl : le.1 = k := Option.some.inj (hkey.symm.trans hk)
    have hok := (h.key _).head i hroot
    rw [← hval]
    exact ⟨hok.val, (hok.closed hstack).2⟩

/-- In every state of every transaction: the next operation in the order the source asks for fails no assertion, a
lookup gives the value last written to the object or the committed one, `t_nops` is the length of the list of
operations and the cache is as it was; once all operations are finished, the log is that of the objects that
were changed. -/
theorem tx_view_and_merge [DecidableEq κ] (h : (txSystem zero crc).Reachable s) :
    (∀ e, s.Enabled e → ((txSystem zero crc).step s e).isSome) ∧ (∀ k, (s.lookup k).val = s.view k) ∧
      s.tx.tNops = s.tx.tOps.length ∧ s.cache = s.committed ∧
      ((∀ i < s.tx.nop, (s.tx.op i).done = true) → ∃ les, s.tx.txLog crc = some les ∧ Logged crc s les) := by
  have hinv := inv_reachable h
  refine ⟨fun e hen => ?_, hinv.lookup_eq, hinv.nops, hinv.cache, hinv.logged⟩
  obtain ⟨s', hexec, -⟩ := hinv.exec zero hen
  rw [txSystem]
  dsimp only
  rw [if_pos hen, hexec]
  rfl

/-- Object 5 is changed by an operation within another one and, after object 6, by a third. -/
def nestedRun : List (Event Nat Nat) :=
  [.newOp, .newOp, .init 0 5, .init 1 5, .store 1 7, .done 1 true, .store 0 8, .done 0 false,
    .newOp, .init 2 6, .store 2 9, .done 2 true, .newOp, .init 3 5, .store 3 10, .done 3 false]

theorem tx_view_and_merge_nested : ∃ s : Run Nat Nat, s.tx.tOps = [0, 2] ∧ s.view 5 = 10 ∧
    ∃ les, s.tx.txLog (· + 1) = some les ∧ Logged (· + 1) s les := by
  have hs := (txSystem ⟨0, 0⟩ (· + 1)).reachable_last (Run.begin ⟨0, 0⟩ fun _ => ⟨3, 4⟩) nestedRun ⟨_, rfl⟩ (by decide +kernel)
  exact ⟨_, by decide +kernel, by decide +kernel, (tx_view_and_merge hs).2.2.2.2 (by decide +kernel)⟩

end PolarFs.Meta.TxOps
