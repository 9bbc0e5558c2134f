/-
Where the device IO of concurrent calls lands. A block that was looked up under the inode lock can be
freed by a truncation or the removal of the file and be given to another file before the IO is done:
nothing holds a truncation back for an overwrite within the file, and `pfs_file_read` does not look
again behind its last piece. So a write can overwrite another file, and a read can return its bytes,
but not in runs where no truncation or removal frees a block with an IO in flight.
-/
import PolarFs.File.ConcurrentInvariant

namespace PolarFs.File

open Transition

variable {g : Geometry} {n shrinksize : Nat}

namespace Node

variable {s s' : Node n} {t : Fin n}

/-! ## What a reader is shown -/

theorem fblk_add (g : Geometry) (off j : Nat) (h : g.fblkoff off + j < g.blksize) :
    g.fblkid (off + j) = g.fblkid off ∧ g.fblkoff (off + j) = g.fblkoff off + j := by
  refine (Nat.div_mod_unique g.blk_pos).2 ⟨?_, h⟩
  have hdiv : g.fblkoff off + g.blksize * g.fblkid off = off := Nat.mod_add_div off g.blksize
  omega

/-- The read call `r` goes on as `r'`: it has read more bytes, which the file holds there now. -/
structure Shown (g : Geometry) (s : Node n) (r r' : ReadCall) : Prop where
  file : r'.file = r.file
  start : r'.start = r.start
  acc : ∃ bytes, r'.acc = r.acc ++ bytes ∧ ∀ j v, bytes[j]? = some v → s.stored g r.file (r.offset + j) v = true

theorem Shown.refl (g : Geometry) (s : Node n) (r : ReadCall) : Shown g s r r :=
  ⟨rfl, rfl, [], (List.append_nil _).symm, by simp⟩

/-- The read calls after a step are new or go on. -/
def Reads (g : Geometry) (s s' : Node n) : Prop :=
  ∀ t r', (s'.calls t).reader = some r' → r'.acc = [] ∨ ∃ r, (s.calls t).reader = some r ∧ Shown g s' r r'

theorem Reads.of_calls (h : s'.calls = s.calls) : Reads g s s' := by
  intro t r hr
  rw [h] at hr
  exact Or.inr ⟨r, hr, .refl g s' r⟩

theorem Reads.of_update {c : Call} (h : s'.calls = Function.update s.calls t c)
    (hc : ∀ r', c.reader = some r' → r'.acc = [] ∨ ∃ r, (s.calls t).reader = some r ∧ Shown g s' r r') : Reads g s s' := by
  intro t' r' hr
  rw [h] at hr
  by_cases ht : t' = t
  · subst ht
    rw [Function.update_self] at hr
    exact hc r' hr
  · rw [Function.update_of_ne ht] at hr
    exact Or.inr ⟨r', hr, .refl g s' r'⟩

theorem Reads.of_none {c : Call} (h : s'.calls = Function.update s.calls t c) (hc : c.reader = none) : Reads g s s' :=
  Reads.of_update h fun r' hr => absurd (hc.symm.trans hr) (by simp)

theorem Synced.stored_hole {f : FileId} (h : Synced g s t f s' true) {p : Nat}
    (hole : ((s'.mem f.ino).blks (g.fblkid p)).hole ≤ g.fblkoff p) : s'.stored g f p 0 = true := by
  obtain ⟨hstale, hbt⟩ := h.ok rfl
  obtain ⟨i, hi, hit, hwithin⟩ := (h.inv.mem f.ino hstale).inode
  have hdisk : s'.disk.inode f.ino = some i := by
    rw [← h.inv.view_inode (i := f.ino), hi]
    obtain ⟨m, rfl⟩ := h.eq
    exact h.tx
  have hle := (hwithin (g.fblkid p)).2.trans hole
  simp [Node.stored, hdisk, hit, hbt, hle]

theorem Inv.stored_read (h : s.Inv g) {r : ReadCall} {io : Io} (hc : s.calls t = .reading r io) {j : Nat} (hj : j < io.len) :
    s.stored g r.file (r.offset + j) (s.dev io.blkno (io.blkoff + j)).val = true := by
  have hok := h.reading t r io hc
  obtain ⟨hb, i, hi, hit, hib⟩ := (h.inFlight t r.file io (by rw [hc]; rfl)).1
  have hlen := hok.len
  have hoff := hok.blkoff
  obtain ⟨hid, hoff'⟩ := fblk_add g r.offset j (by omega)
  rw [hok.blkid] at hib
  have hcell : s.dev io.blkno (io.blkoff + j) = ⟨(s.dev io.blkno (io.blkoff + j)).val, some r.file⟩ := by
    rw [← hok.file j hj]
  simp only [Node.stored, hi, Option.any_some, hit, hid, hib, hoff', ← hoff]
  rw [← hcell]
  simp [hb]

/-- The thread goes on with bytes that the file holds behind those it has read. -/
theorem Reads.readNext {s₀ : Node n} {r r₀ : ReadCall} {bytes : List UInt8} (hcalls : s.calls = s₀.calls)
    (hc : (s₀.calls t).reader = some r₀) (hfile : r.file = r₀.file) (hstart : r.start = r₀.start) (hacc : r.acc = r₀.acc)
    (hb : ∀ j v, bytes[j]? = some v → s.stored g r₀.file (r₀.offset + j) v = true) :
    Reads g s₀ (s.readNext t r bytes) := by
  refine Reads.of_update (t := t) (by rw [← hcalls]; rfl) ?_
  intro r' hr'
  refine Or.inr ⟨r₀, hc, ?_⟩
  have hr' : r' = { r with acc := r.acc ++ bytes, left := r.left - bytes.length, first := false } := by
    split at hr' <;> cases hr' <;> rfl
  subst hr'
  exact ⟨hfile, hstart, bytes, by rw [hacc], hb⟩

theorem Reads.writeRound {s₀ : Node n} {w : WriteCall} (hcalls : s.calls = s₀.calls) : Reads g s₀ (s.writeRound g t w) := by
  unfold Node.writeRound
  dsimp only
  generalize (if w.first = true then (s.mem w.file.ino).size else w.fsize) = fsize
  (repeat' split) <;> exact Reads.of_none (by rw [← hcalls]; rfl) rfl

theorem Reads.readRound {r : ReadCall} (h : Synced g s t r.file s' true) (hc : s.calls t = .read r) :
    Reads g s (s'.readRound g t r) := by
  have hcalls : s'.calls = s.calls := by
    obtain ⟨m, rfl⟩ := h.eq
    rfl
  have hreader : (s.calls t).reader = some r := by rw [hc]; rfl
  unfold Node.readRound
  dsimp only
  generalize (if r.first = true then readLen (s'.mem r.file.ino).size r.start r.left else r.left) = left
  -- the call goes on with what it has
  have hsame : ∀ c : Call, c.reader = some { r with left := left, first := false } → Reads g s (s'.setCall t c) := by
    intro c hread
    refine Reads.of_update (t := t) (c := c) (by rw [← hcalls]; rfl) fun r' hr' => Or.inr ⟨r, hreader, ?_⟩
    obtain rfl := Option.some.inj (hread.symm.trans hr')
    exact ⟨rfl, rfl, [], (List.append_nil _).symm, by simp⟩
  split
  · exact hsame _ rfl
  split
  · exact Reads.of_none (by rw [← hcalls]; rfl) rfl
  split
  · rename_i hhole
    refine Reads.readNext hcalls hreader rfl rfl rfl ?_
    intro j v hj
    rw [List.getElem?_replicate] at hj
    split at hj
    case isFalse => cases hj
    cases hj
    obtain ⟨hid, hoff⟩ := fblk_add g r.offset j (by omega)
    refine h.stored_hole ?_
    rw [hid, hoff]
    omega
  · exact hsame _ rfl

theorem Inv.reads (h : s.Inv g) {e : NodeEvent n} (hs : s.step g shrinksize e = some s') : Reads g s s' := by
  have hinTx : ∀ {t f body}, s.inTx t f body = some s' → Reads g s s' := by
    intro t f body hs
    unfold Node.inTx at hs
    split at hs
    case h_2 => cases hs
    split at hs
    · cases hs
    obtain ⟨⟨s₁, ok⟩, hsync, hs⟩ := Option.bind_eq_some_iff.1 hs
    obtain ⟨m, rfl⟩ := (h.sync hsync).eq
    refine Reads.of_calls ?_
    cases ok with
    | false =>
      cases hs
      rfl
    | true =>
      dsimp only at hs
      split at hs
      · cases hs
        rfl
      · obtain ⟨r, -, rfl⟩ := Option.map_eq_some_iff.1 hs
        rfl
  cases e with
  | read t f start len =>
    simp only [Node.step] at hs
    split at hs
    · cases hs
      exact Reads.of_update (t := t) rfl (by rintro r' ⟨⟩; exact Or.inl rfl)
    · cases hs
  | write t f offset data =>
    simp only [Node.step] at hs
    split at hs
    · cases hs
      exact Reads.of_none (t := t) rfl rfl
    · cases hs
  | round t =>
    simp only [Node.step, Node.roundStep] at hs
    split at hs
    · rename_i w hc
      obtain ⟨⟨s₁, ok⟩, hsync, hs⟩ := Option.map_eq_some_iff.1 hs
      obtain ⟨m, rfl⟩ := (h.sync hsync).eq
      cases ok with
      | true =>
        cases hs
        exact Reads.writeRound rfl
      | false =>
        cases hs
        exact Reads.of_none (t := t) rfl rfl
    · rename_i r hc
      obtain ⟨⟨s₁, ok⟩, hsync, hs⟩ := Option.map_eq_some_iff.1 hs
      have hsy := h.sync hsync
      cases ok with
      | true =>
        cases hs
        exact Reads.readRound hsy hc
      | false =>
        cases hs
        obtain ⟨m, rfl⟩ := hsy.eq
        exact Reads.of_none (t := t) rfl rfl
    · cases hs
  | io t =>
    simp only [Node.step, Node.ioStep] at hs
    split at hs
    · cases hs
      exact Reads.of_none (t := t) rfl rfl
    · rename_i r io hc
      cases hs
      refine Reads.readNext rfl (by rw [hc]; rfl) rfl rfl rfl ?_
      intro j v hj
      obtain ⟨hlt, rfl⟩ : ∃ _ : j < io.len, (s.dev io.blkno (io.blkoff + j)).val = v := by
        simpa [List.getElem?_map, List.getElem?_range, Option.map_eq_some_iff, List.getElem?_eq_some_iff] using hj
      exact h.stored_read hc hlt
    · cases hs
  | flush t =>
    simp only [Node.step, Node.flushStep] at hs
    split at hs
    case h_2 => cases hs
    refine Reads.of_none (t := t) (c := .idle) ?_ rfl
    split at hs
    · cases hs
      rfl
    split at hs
    · cases hs
      rfl
    split at hs
    · cases hs
    split at hs <;> cases hs <;> rfl
  | done t =>
    simp only [Node.step] at hs
    split at hs
    · cases hs
      exact Reads.of_none (t := t) rfl rfl
    · cases hs
  | create ino btime =>
    simp only [Node.step, Node.create] at hs
    split at hs
    · cases hs
    · cases hs
      exact Reads.of_calls rfl
  | truncate t f len => exact hinTx hs
  | allocate t f off len keepSize free => exact hinTx hs
  | release t f => exact hinTx hs
  | txEnd ok =>
    simp only [Node.step, Node.txEnd] at hs
    obtain ⟨x, -, rfl⟩ := Option.map_eq_some_iff.1 hs
    refine Reads.of_calls ?_
    split <;> rfl

end Node

/-! ## Runs -/

/-- The blocks of the file that have an IO in flight begin before `len`. -/
def Node.inFlightBelow (g : Geometry) (s : Node n) (f : FileId) (len : Nat) : Bool :=
  decide (∀ t, (s.calls t).inFlight.all fun q => q.1 != f || decide (q.2.blkid * g.blksize < len))

theorem Node.inFlightBelow_iff {s : Node n} {f : FileId} {len : Nat} : s.inFlightBelow g f len = true ↔
    ∀ t io, (s.calls t).inFlight = some (f, io) → io.blkid * g.blksize < len := by
  simp only [Node.inFlightBelow, decide_eq_true_eq]
  refine forall_congr' fun t => ?_
  rcases (s.calls t).inFlight with - | ⟨f', io⟩
  · simp
  · by_cases hf : f' = f <;> simp [hf]

/-- No truncation or removal of a file frees a block that has an IO of the file in flight. A truncation goes by the
size that it finds with its sync. -/
def keepsInFlight (g : Geometry) (shrinksize : Nat) (s : Watched n) : NodeEvent n → Bool
  | .truncate t f len => (s.node.sync t f true).all fun r =>
      !r.2 || s.node.inFlightBelow g f (shrinkLen shrinksize (r.1.mem f.ino).size len)
  | .release t f => (s.node.sync t f true).all fun r => !r.2 || s.node.inFlightBelow g f 0
  | _ => true

theorem Node.Inv.step {s s' : Node n} {seen : Fin n → Nat → UInt8 → Bool} {e : NodeEvent n} (h : s.Inv g)
    (hok : keepsInFlight g shrinksize ⟨s, seen⟩ e = true) (hs : s.step g shrinksize e = some s') : s'.Inv g := by
  cases e with
  | round t => exact h.roundStep hs
  | io t => exact h.ioStep hs
  | flush t => exact h.flushStep hs
  | read | write | done =>
    simp only [Node.step] at hs
    split at hs
    · rename_i hc
      cases hs
      exact h.setRead (by rw [hc]; exact fun _ => id) rfl
    · cases hs
  | create ino btime => exact h.create hs
  | truncate t f len =>
    refine h.inTx hs fun s₁ p r hsync hready hcalls hr => hready.truncate hr ?_
    simp only [keepsInFlight, hsync, Option.all_some, Bool.not_true, Bool.false_or] at hok
    rw [hcalls]
    exact Node.inFlightBelow_iff.1 hok
  | allocate t f off len keepSize free => exact h.inTx hs fun s₁ p r _ hready _ hr => hready.allocate hr
  | release t f =>
    refine h.inTx hs fun s₁ p r hsync hready hcalls hr => hready.release hr ?_
    simp only [keepsInFlight, hsync, Option.all_some, Bool.not_true, Bool.false_or] at hok
    rw [hcalls]
    exact fun t' io hf => Nat.not_lt_zero _ (Node.inFlightBelow_iff.1 hok t' io hf)
  | txEnd ok => exact h.txEnd hs

/-- Every data write has landed on a block of its file. -/
def WritesLand (s : Watched n) : Prop := ∀ l ∈ s.node.landed, l.owner = some l.file

/-- Every byte that a read returns was held by the file at that position at some moment of the call. -/
def ReadsStored (s : Watched n) : Prop :=
  ∀ t r, s.node.calls t = .returned r → ∀ j v, r.acc[j]? = some v → s.seen t (r.start + j) v = true

structure Watched.Inv (g : Geometry) (s : Watched n) : Prop where
  node : s.node.Inv g
  seen : ∀ t r, (s.node.calls t).reader = some r → ∀ j v, r.acc[j]? = some v → s.seen t (r.start + j) v = true

theorem Watched.Inv.init {s : Watched n} (h : (nodeSystem g shrinksize n).init s) : s.Inv g := by
  obtain ⟨hdisk, htx, hmem, hcalls, hlanded⟩ := h
  have hok : MetaData.Ok g ⟨fun _ => none, fun _ => none⟩ s.node.dev := ⟨by simp, by simp⟩
  refine ⟨⟨hdisk ▸ hok, ?_, by simp [htx], ?_, ?_, ?_, ?_, by simp [hlanded]⟩, ?_⟩
  · rw [Node.view_of_none htx, hdisk]
    exact hok
  · intro i hi
    rw [(hmem i).1] at hi
    cases hi
  · intro i w hw
    rw [(hmem i).2] at hw
    cases hw
  · intro t f io hf
    rw [hcalls t] at hf
    cases hf
  · intro t r io hr
    rw [hcalls t] at hr
    cases hr
  · intro t r hr
    rw [hcalls t] at hr
    cases hr

theorem Watched.Inv.step {s s' : Watched n} {e : NodeEvent n} (h : s.Inv g) (hok : keepsInFlight g shrinksize s e = true)
    (hs : (nodeSystem g shrinksize n).step s e = some s') : s'.Inv g := by
  obtain ⟨node, hnode, rfl⟩ := Option.map_eq_some_iff.1 hs
  refine ⟨h.node.step hok hnode, ?_⟩
  intro t r' hr' j v hj
  rcases h.node.reads hnode t r' hr' with hnil | ⟨r, hr, hfile, hstart, bytes, hacc, hbytes⟩
  · rw [hnil] at hj
    cases hj
  -- a byte of before was seen, a new one is held now
  dsimp only at hr' ⊢
  rw [hr, hr', hstart]
  simp only [Option.isSome_some, Bool.true_and, Option.any_some, Bool.or_eq_true, hfile]
  rw [hacc] at hj
  by_cases hlt : j < r.acc.length
  · rw [List.getElem?_append_left hlt] at hj
    exact Or.inl (h.seen t r hr j v hj)
  · rw [List.getElem?_append_right (by omega)] at hj
    have hpos : r.offset + (j - r.acc.length) = r.start + j := by
      rw [ReadCall.offset]
      omega
    exact Or.inr (hpos ▸ hbytes _ v hj)

/-- `file_shrink_size`. -/
def fileShrinkSize : Nat := 10 * 2 ^ 30

/-- A node of two threads with nothing on it. -/
def emptyNode : Watched 2 :=
  { node :=
      { disk := ⟨fun _ => none, fun _ => none⟩
        tx := none
        mem := fun _ => ⟨0, 0, fun _ => zerodblk, none, true⟩
        dev := fun _ _ => ⟨0, none⟩
        calls := fun _ => .idle
        born := []
        landed := [] }
    seen := fun _ _ _ => false }

def fileF : FileId := ⟨5, 100⟩

def fileG : FileId := ⟨6, 101⟩

/-- A file is created and gets one byte of data on the block `blkno`. -/
def storeByte (t : Fin 2) (f : FileId) (blkno : Nat) (v : UInt8) : List (NodeEvent 2) :=
  [.create f.ino f.btime, .txEnd true, .allocate t f (some 0) 1 true [blkno], .txEnd true, .write t f (some 0) [v],
    .round t, .round t, .flush t, .txEnd true]

/-- A byte of F is overwritten: the block is looked up, F is truncated, its block goes to G, and the
data lands there. -/
def overwriteRun : List (NodeEvent 2) :=
  storeByte 0 fileF 1 65 ++ [.write 0 fileF (some 0) [66], .round 0, .truncate 1 fileF 0, .txEnd true] ++
    storeByte 1 fileG 1 71 ++ [.io 0]

/-- The same with a read of F, which returns the byte of G. -/
def readRun : List (NodeEvent 2) :=
  storeByte 0 fileF 1 65 ++ [.read 0 fileF 0 1, .round 0, .truncate 1 fileF 0, .txEnd true] ++
    storeByte 1 fileG 1 71 ++ [.io 0]

theorem emptyNode_init : (nodeSystem pfsGeometry fileShrinkSize 2).init emptyNode :=
  ⟨rfl, rfl, fun _ => ⟨rfl, rfl⟩, fun _ => rfl, rfl⟩

/-- The first byte that thread 0 has returned from a read of the start of a file. -/
def firstByte (s : Watched 2) : Option (Nat × UInt8) :=
  match s.node.calls 0 with
  | .returned r => r.acc[0]?.map fun v => (r.start, v)
  | _ => none

theorem firstByte_eq {s : Watched 2} {p : Nat} {v : UInt8} (h : firstByte s = some (p, v)) :
    ∃ r, s.node.calls 0 = .returned r ∧ r.start = p ∧ r.acc[0]? = some v := by
  unfold firstByte at h
  split at h
  · rename_i r hr
    obtain ⟨v', hv, hpv⟩ := Option.map_eq_some_iff.1 h
    cases hpv
    exact ⟨r, hr, rfl, hv⟩
  · cases h

end PolarFs.File
