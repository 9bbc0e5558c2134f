/-
Block IO on a device that fails (`pfs_blkio.cc` over `pfs_devio.cc`): the pieces of a long range are
issued without waiting, a piece that does not fill its sectors goes through one shared aligned buffer
and is waited for, and the device moves the bytes of what was issued, completes it or fails it at any
time.

The device's choices are a list of turns, one for each call it gets; after the last one it does
everything at once and without error. A thread has no IO outstanding when it calls (`pfs_tls_get_ioq`).
-/
import PolarFs.File.BlkIo
import PolarFs.Lib.IoQueue

namespace PolarFs.File.Devio

open Bytes IoQueue

/-! ## The device -/

/-- The device, the caller's buffer from `data` on, and the aligned buffer. -/
structure Mem where
  dev : Device
  data : Nat → UInt8
  albuf : Nat → UInt8

/-- `io_buf`. -/
inductive Buf where
  | data (off : Nat)
  | albuf
  deriving DecidableEq

/-- `PFSDEV_REQ_RD` and `PFSDEV_REQ_WR`. -/
inductive Req where
  | rd
  | wr
  deriving DecidableEq

/-- `pfs_devio_t`. -/
structure DevIo where
  op : Req
  buf : Buf
  len : Nat
  bda : Nat
  deriving DecidableEq

/-- `len` bytes of `src` from `a` on, those in `part`. -/
def copyPart (dst : Nat → UInt8) (a : Nat) (src : Nat → UInt8) (len : Nat) (part : Nat → Bool) : Nat → UInt8 :=
  fun j => if a ≤ j ∧ j < a + len ∧ part (j - a) = true then src (j - a) else dst j

def Mem.buf (m : Mem) : Buf → Nat → UInt8
  | .data off => fun i => m.data (off + i)
  | .albuf => m.albuf

def DevIo.move (io : DevIo) (part : Nat → Bool) (m : Mem) : Mem :=
  match io.op, io.buf with
  | .rd, .data off => { m with data := copyPart m.data off (fun i => m.dev (io.bda + i)) io.len part }
  | .rd, .albuf => { m with albuf := copyPart m.albuf 0 (fun i => m.dev (io.bda + i)) io.len part }
  | .wr, b => { m with dev := copyPart m.dev io.bda (m.buf b) io.len part }

/-- `memcpy` from offset `o` of the aligned buffer. -/
def Mem.fromAlbuf (m : Mem) (pos o len : Nat) : Mem :=
  { m with data := copyPart m.data pos (fun i => m.albuf (o + i)) len fun _ => true }

/-- `memcpy` to offset `o` of the aligned buffer. -/
def Mem.toAlbuf (m : Mem) (o pos len : Nat) : Mem :=
  { m with albuf := copyPart m.albuf o (fun i => m.data (pos + i)) len fun _ => true }

def eio : Nat := 5
def enobufs : Nat := 105
def etimedout : Nat := 110

/-- What the device does before it answers a call, its answer to `pfs_dev_submit_io` (0 or an error
number), and how the IO ends that `pfs_dev_wait_io` waits for. -/
structure Turn where
  events : List Event := []
  submit : Nat := 0
  err : Nat := 0

/-- `pfs_ioq_t`, and what the device will do. -/
structure Ioq where
  q : State DevIo Mem
  sched : List Turn

variable {depth : Nat} {io : DevIo}

namespace Ioq

/-- `pfs_io_wait`: the IO at an index of the queue, or any (`NULL`). -/
def ioWait (io : Option Nat) (s : Ioq) : Option (Nat × Ioq) :=
  let t := s.sched.headD {}
  let q := t.events.foldl (State.event DevIo.move) s.q
  (q.take DevIo.move (io.getD q.ready) t.err).map fun r => (r.1, ⟨r.2, s.sched.tail⟩)

/-- `pfs_dev_submit_io`. -/
def devSubmitIo (io : DevIo) (s : Ioq) : Nat × Ioq :=
  let t := s.sched.headD {}
  let q := t.events.foldl (State.event DevIo.move) s.q
  (t.submit, ⟨if t.submit = 0 then q.push io else q, s.sched.tail⟩)

/-- The first half of a round of `pfs_io_submit`: with `depth` IOs outstanding one of them is reaped. -/
def ioThrottle (depth : Nat) (waitio : Bool) (s : Ioq) : Option (Nat × Ioq) :=
  if depth ≤ s.q.ios.length ∨ waitio = true then ioWait none s else some (0, s)

theorem length_ioWait {io : Option Nat} {s s' : Ioq} {n : Nat} (h : ioWait io s = some (n, s')) :
    s'.q.ios.length + 1 = s.q.ios.length := by
  unfold ioWait at h
  obtain ⟨r, hr, heq⟩ := Option.map_eq_some_iff.mp h
  cases heq
  rw [length_take hr, ios_foldl_event]

theorem length_ioThrottle {n : Nat} {w : Bool} {s s' : Ioq} (h : ioThrottle depth w s = some (n, s')) :
    s'.q.ios.length ≤ s.q.ios.length ∧ (w = true → s'.q.ios.length < s.q.ios.length) := by
  unfold ioThrottle at h
  split at h
  · have := length_ioWait h
    omega
  · rename_i hw
    cases h
    exact ⟨le_refl _, fun h => absurd (.inr h) hw⟩

theorem ios_devSubmitIo {s : Ioq} (h : (devSubmitIo io s).1 ≠ 0) : (devSubmitIo io s).2.q.ios = s.q.ios := by
  have h' : (s.sched.headD {}).submit ≠ 0 := h
  simp only [devSubmitIo, if_neg h', ios_foldl_event]

/-- `pfs_io_submit`; `none` stands for a failed `PFS_VERIFY`. -/
def ioSubmit (depth : Nat) (io : DevIo) (waitio : Bool) (s : Ioq) : Option (Nat × Ioq) :=
  match _h : ioThrottle depth waitio s with
  | none => none
  | some (err, s₁) =>
    if err ≠ 0 then some (err, s₁)
    else if _h' : (devSubmitIo io s₁).1 = enobufs then ioSubmit depth io true (devSubmitIo io s₁).2
    else some (devSubmitIo io s₁)
termination_by 2 * s.q.ios.length + (!waitio).toNat
decreasing_by
  have hlen := length_ioThrottle _h
  rw [ios_devSubmitIo (by rw [_h']; decide)]
  cases waitio with
  | false => simp; omega
  | true => simpa using hlen.2 rfl

/-- `if (err < 0) return err;` -/
def andThen (o : Option (Nat × Ioq)) (f : Ioq → Option (Nat × Ioq)) : Option (Nat × Ioq) :=
  match o with
  | none => none
  | some (err, s) => if err ≠ 0 then some (err, s) else f s

/-- `pfsdev_do_io`; the IO that is waited for is the last of the queue. -/
def doIo (depth : Nat) (io : DevIo) (nowait : Bool) (s : Ioq) : Option (Nat × Ioq) :=
  andThen (ioSubmit depth io false s) fun s =>
    if nowait = true then some (0, s) else ioWait (some (s.q.ios.length - 1)) s

/-- `pfsdev_pread_flags` and `pfsdev_pwrite_flags` with their asserts. -/
def devRw (g : Geometry) (depth : Nat) (op : Req) (buf : Buf) (len bda : Nat) (nowait : Bool) (s : Ioq) :
    Option (Nat × Ioq) :=
  if bda % g.sectsize = 0 ∧ 0 < len ∧ len % g.sectsize = 0 then doIo depth ⟨op, buf, len, bda⟩ nowait s else none

/-- `ERR_UPDATE`. -/
def errUpdate (err err1 : Nat) : Nat := if err = 0 then err1 else err

/-- The loop of `pfsdev_wait_io` over at most `n` IOs. -/
def waitIoLoop : Nat → Nat → Ioq → Nat × Ioq
  | 0, err, s => (err, s)
  | n + 1, err, s =>
    match ioWait none s with
    | none => (err, s)
    | some (err1, s') => waitIoLoop n (errUpdate err err1) s'

/-- `pfsdev_wait_io`. -/
def waitIo (s : Ioq) : Nat × Ioq := waitIoLoop s.q.ios.length 0 s

/-! ## The block IO on it -/

def setMem (s : Ioq) (m : Mem) : Ioq := { s with q := { s.q with mem := m } }

/-- `pfs_blkio_read_segment`; `pos` is the position in the caller's buffer. -/
def blkioReadSegment (g : Geometry) (depth albda allen bda pos len : Nat) (nowait : Bool) (s : Ioq) :
    Option (Nat × Ioq) :=
  if allen ≠ len then
    andThen (devRw g depth .rd .albuf allen albda false s) fun s =>
      some (0, s.setMem (s.q.mem.fromAlbuf pos (bda - albda) len))
  else if albda = bda then devRw g depth .rd (.data pos) len bda nowait s
  else none

/-- `pfs_blkio_write_segment`. -/
def blkioWriteSegment (g : Geometry) (depth albda allen bda pos len : Nat) (nowait : Bool) (s : Ioq) :
    Option (Nat × Ioq) :=
  if allen ≠ len then
    andThen (devRw g depth .rd .albuf allen albda false s) fun s =>
      devRw g depth .wr .albuf allen albda false (s.setMem (s.q.mem.toAlbuf (bda - albda) pos len))
  else if albda = bda then devRw g depth .wr (.data pos) len bda nowait s
  else none

/-- The loop of `pfs_blkio_execute`. -/
def executeLoop (g : Geometry) (iofunc : Nat → Nat → Nat → Nat → Nat → Ioq → Option (Nat × Ioq))
    (blkno off pos left : Nat) (s : Ioq) : Option (Nat × Ioq) :=
  if _h : left = 0 then some (0, s)
  else
    let bda := blkno * g.blksize + off
    let al := g.blkioAlign bda left
    andThen (iofunc al.1 al.2.1 bda pos al.2.2 s) fun s =>
      executeLoop g iofunc blkno (off + al.2.2) (pos + al.2.2) (left - al.2.2) s
termination_by left
decreasing_by
  have := (g.blkioAlign_aligned (blkno * g.blksize + off) left).op_pos (by omega)
  omega

/-- `pfs_blkio_execute`: the length, or the error number it returns. -/
def blkioExecute (g : Geometry) (iofunc : Nat → Nat → Nat → Nat → Nat → Bool → Ioq → Option (Nat × Ioq))
    (blkno off len : Nat) (s : Ioq) : Option (Except Nat Nat × Ioq) :=
  let nowait := decide (2 * g.fragsize ≤ len)
  match executeLoop g (fun albda allen bda pos n => iofunc albda allen bda pos n nowait) blkno off 0 len s with
  | none => none
  | some (err, s) =>
    let done := if nowait then s.waitIo else (0, s)
    let err := errUpdate err done.1
    some (if err ≠ 0 then .error (if err = etimedout then etimedout else eio) else .ok len, done.2)

end Ioq

open Ioq

/-- `pfs_blkio_read`, of a thread with no IO outstanding. -/
def blkioRead (g : Geometry) (depth : Nat) (sched : List Turn) (m : Mem) (blkno off len : Nat) :
    Option (Except Nat Nat × Ioq) :=
  if off + len ≤ g.blksize then
    Ioq.blkioExecute g (Ioq.blkioReadSegment g depth) blkno off len ⟨⟨m, [], []⟩, sched⟩
  else none

/-- `pfs_blkio_write`; without a buffer (`data == NULL`) it writes from `pfs_zero_buf`, a block of zeros. -/
def blkioWrite (g : Geometry) (depth : Nat) (sched : List Turn) (m : Mem) (null : Bool) (blkno off len : Nat) :
    Option (Except Nat Nat × Ioq) :=
  if off + len ≤ g.blksize then
    Ioq.blkioExecute g (Ioq.blkioWriteSegment g depth) blkno off len
      ⟨⟨if null then { m with data := fun _ => 0 } else m, [], []⟩, sched⟩
  else none

/-! ## One IO -/

namespace Ioq

/-- Some IO failed, or was refused for another reason than want of buffers. -/
def Faulty (sched : List Turn) (q : State DevIo Mem) : Prop :=
  (∃ r ∈ q.results, r.2 ≠ 0) ∨ ∃ t ∈ sched, t.submit ≠ 0 ∧ t.submit ≠ enobufs

/-- How an operation that began in `s` ends when it returns `err`. -/
structure Ended (R : Rules DevIo.move) (nowait : Bool) (good : Ioq → Prop) (s : Ioq) (err : Nat) (s' : Ioq) : Prop where
  sched : s'.sched ⊆ s.sched
  inv : Inv R s'.q
  grows : s.q.results ⊆ s'.q.results
  settled : nowait = false → s'.q.ios ⊆ s.q.ios
  ok : err = 0 → Kept R s.q s'.q ∧ good s'
  faulty : err ≠ 0 → Faulty s.sched s'.q

/-- It returns, unless the device was out of buffers. -/
def Ends (R : Rules DevIo.move) (nowait : Bool) (good : Ioq → Prop) (s : Ioq) : Option (Nat × Ioq) → Prop
  | none => ∃ t ∈ s.sched, t.submit = enobufs
  | some r => Ended R nowait good s r.1 r.2

section

variable {R : Rules DevIo.move} {nowait : Bool} {good good' : Ioq → Prop} {s s' : Ioq}

theorem Faulty.mono {sched sched' : List Turn} {q q' : State DevIo Mem} (h : Faulty sched' q')
    (hs : sched' ⊆ sched) (hq : q'.results ⊆ q.results) : Faulty sched q :=
  h.imp (fun ⟨r, hr, h0⟩ => ⟨r, hq hr, h0⟩) fun ⟨t, ht, h0⟩ => ⟨t, hs ht, h0⟩

theorem Ends.andThen (hs : Inv R s.q) {o : Option (Nat × Ioq)} {f : Ioq → Option (Nat × Ioq)} (h : Ends R nowait good s o)
    (hf : ∀ s', Kept R s.q s'.q → good s' → Ends R nowait good' s' (f s')) : Ends R nowait good' s (andThen o f) := by
  rcases o with _ | ⟨err, s₁⟩
  · exact h
  unfold Ioq.andThen
  dsimp only
  by_cases h0 : err = 0
  · obtain ⟨hk, hg⟩ := h.ok h0
    rw [if_neg (by simpa using h0)]
    have h₂ := hf s₁ hk hg
    generalize f s₁ = o at h₂
    rcases o with _ | ⟨err₂, s₂⟩
    · obtain ⟨t, ht, heq⟩ := h₂
      exact ⟨t, h.sched ht, heq⟩
    · refine ⟨List.Subset.trans h₂.sched h.sched, h₂.inv, List.Subset.trans h.grows h₂.grows,
        fun hw => List.Subset.trans (h₂.settled hw) (h.settled hw), fun h0 => ⟨hk.trans hs (h₂.ok h0).1, (h₂.ok h0).2⟩,
        fun h0 => (h₂.faulty h0).mono h.sched fun _ => id⟩
  · rw [if_pos h0]
    exact { h with ok := fun h0' => absurd h0' h0 }

theorem Ends.imp {o : Option (Nat × Ioq)} (h : Ends R nowait good s o) {nowait' : Bool}
    (hw : nowait' = false → nowait = false) (hg : ∀ s', Kept R s.q s'.q → good s' → good' s') :
    Ends R nowait' good' s o := by
  rcases o with _ | ⟨err, s₁⟩
  · exact h
  · exact { h with settled := h.settled ∘ hw, ok := fun h0 => ⟨(h.ok h0).1, hg s₁ (h.ok h0).1 (h.ok h0).2⟩ }

theorem headD_mem_or (sched : List Turn) : sched.headD {} ∈ sched ∨ (sched.headD {}).submit = 0 := by
  cases sched with
  | nil => exact .inr rfl
  | cons t _ => exact .inl List.mem_cons_self

theorem ioWait_spec (h : Inv R s.q) (io : Option Nat) (hio : ∀ i, io = some i → i < s.q.ios.length) (hne : s.q.ios ≠ []) :
    ∃ i u n s', (∀ k, io = some k → i = k) ∧ s.q.ios[i]? = some u ∧ ioWait io s = some (n, s') ∧ Taken R s.q u n s'.q ∧
      s'.q.ios = s.q.ios.eraseIdx i ∧ s'.sched = s.sched.tail := by
  have hev := h.foldl_event (s.sched.headD {}).events
  have hios := ios_foldl_event DevIo.move (s.sched.headD {}).events s.q
  unfold ioWait
  dsimp only
  generalize List.foldl _ s.q (s.sched.headD {}).events = q at hev hios
  have hlt : io.getD q.ready < q.ios.length := by
    cases io with
    | none => exact ready_lt (hios ▸ hne)
    | some i =>
      rw [hios]
      exact hio i rfl
  have hi : io.getD q.ready < q.queue.length := by rwa [State.ios, List.length_map] at hlt
  obtain ⟨n, q', htake, htk, hq'⟩ := hev.inv.take (s.sched.headD {}).err (List.getElem?_eq_getElem hi)
  refine ⟨_, q.queue[io.getD q.ready].io, n, ⟨q', s.sched.tail⟩, ?_, ?_, by rw [htake]; rfl, ?_, by rw [hq', hios], rfl⟩
  · rintro k rfl
    rfl
  · rw [← hios, State.ios, List.getElem?_map, List.getElem?_eq_getElem hi]
    rfl
  · exact ⟨htk.inv, htk.recorded, List.Subset.trans hev.grows htk.grows,
      fun h0 => ⟨hev.trans h (htk.kept h0).1, (htk.kept h0).2⟩⟩

/-- A result that was taken is the outcome of the operation. -/
theorem Ends.of_taken {u : DevIo} {n : Nat} (ht : Taken R s.q u n s'.q) (hsub : s'.q.ios ⊆ s.q.ios)
    (hsched : s'.sched = s.sched.tail) : Ends R nowait (fun s => R.D u s.q.mem) s (some (n, s')) :=
  ⟨hsched ▸ (List.tail_sublist _).subset, ht.inv, ht.grows, fun _ => hsub, fun h0 => ht.kept h0,
    fun h0 => .inl ⟨_, ht.recorded, h0⟩⟩

theorem Ends.done (h : Inv R s.q) (hg : good s) : Ends R nowait good s (some (0, s)) :=
  ⟨fun _ => id, h, fun _ => id, fun _ _ => id, fun _ => ⟨Kept.refl h, hg⟩, fun h0 => absurd rfl h0⟩

theorem ioThrottle_spec (h : Inv R s.q) (hd : 0 < depth) {w : Bool} :
    ioThrottle depth w s = none ∧ w = true ∨ Ends R false (fun _ => True) s (ioThrottle depth w s) := by
  unfold ioThrottle
  split
  · rename_i hc
    by_cases hne : s.q.ios = []
    · rw [hne] at hc
      have hw : w = true := hc.resolve_left (by simp; omega)
      refine .inl ⟨?_, hw⟩
      cases hio : ioWait none s with
      | none => rfl
      | some r =>
        have := length_ioWait (show ioWait none s = some (r.1, r.2) from hio)
        rw [hne] at this
        cases this
    · obtain ⟨i, u, n, s', -, -, heq, ht, hios, hsched⟩ := ioWait_spec h none (fun _ hi => by cases hi) hne
      rw [heq]
      refine .inr ((Ends.of_taken ht ?_ hsched).imp id fun _ _ _ => trivial)
      rw [hios]
      exact List.eraseIdx_subset
  · exact .inr (Ends.done h trivial)

theorem ioThrottle_some (h : Inv R s.q) {err : Nat} (hd : 0 < depth) {w : Bool}
    (hth : ioThrottle depth w s = some (err, s')) : Ended R false (fun _ => True) s err s' := by
  rcases ioThrottle_spec h hd (w := w) with ⟨hc, -⟩ | hends
  · rw [hth] at hc
    cases hc
  · rw [hth] at hends
    exact hends

/-- The IO is the last of the queue. -/
def Last (io : DevIo) (old : List DevIo) (s : Ioq) : Prop := ∃ l ⊆ old, s.q.ios = l ++ [io]

theorem devSubmitIo_spec (h : Inv R s.q) (hQ : R.Q io) (hne : (devSubmitIo io s).1 ≠ enobufs) :
    Ended R true (Last io s.q.ios) s (devSubmitIo io s).1 (devSubmitIo io s).2 := by
  have hev := h.foldl_event (s.sched.headD {}).events
  have hios := ios_foldl_event DevIo.move (s.sched.headD {}).events s.q
  unfold devSubmitIo at hne ⊢
  dsimp only at hne ⊢
  generalize List.foldl _ s.q (s.sched.headD {}).events = q at hev hios
  by_cases h0 : (s.sched.headD {}).submit = 0
  · rw [if_pos h0, h0]
    have hk := hev.trans h (hev.inv.push hQ)
    refine ⟨(List.tail_sublist _).subset, hk.inv, hk.grows, nofun, fun _ => ⟨hk, q.ios, ?_, ios_push io q⟩,
      fun hc => absurd rfl hc⟩
    rw [hios]
    exact fun _ => id
  · rw [if_neg h0]
    refine ⟨(List.tail_sublist _).subset, hev.inv, hev.grows, nofun, fun hc => absurd hc h0, fun _ => .inr ?_⟩
    exact ⟨_, (headD_mem_or s.sched).resolve_right h0, h0, hne⟩

theorem devSubmitIo_nobufs (h : Inv R s.q) (hnb : (devSubmitIo io s).1 = enobufs) :
    Kept R s.q (devSubmitIo io s).2.q ∧ (devSubmitIo io s).2.q.ios = s.q.ios ∧
      (devSubmitIo io s).2.sched ⊆ s.sched ∧ ∃ t ∈ s.sched, t.submit = enobufs := by
  have hne : (s.sched.headD {}).submit ≠ 0 := fun h0 => absurd (h0.symm.trans hnb) (by decide)
  refine ⟨?_, ios_devSubmitIo (by rw [hnb]; decide), (List.tail_sublist _).subset, _,
    (headD_mem_or s.sched).resolve_right hne, hnb⟩
  simp only [devSubmitIo, if_neg hne]
  exact h.foldl_event _

/-- `pfs_io_submit` queues the IO, or reports an error and does not. -/
theorem ioSubmit_spec (hd : 0 < depth) (hQ : R.Q io) (w : Bool) (s : Ioq) (h : Inv R s.q) :
    (ioSubmit depth io w s = none ∧ (w = true ∨ ∃ t ∈ s.sched, t.submit = enobufs)) ∨
      ∃ err s', ioSubmit depth io w s = some (err, s') ∧ Ended R true (Last io s.q.ios) s err s' ∧
        (err ≠ 0 → s'.q.ios ⊆ s.q.ios) := by
  induction w, s using ioSubmit.induct depth io with
  | case1 w s hth =>
    rw [ioSubmit, hth]
    rcases ioThrottle_spec h hd (w := w) with ⟨-, hw⟩ | hends
    · exact .inl ⟨rfl, .inl hw⟩
    · rw [hth] at hends
      exact .inl ⟨rfl, .inr hends⟩
  | case2 w s err s₁ hth h0 =>
    have ht := ioThrottle_some h hd hth
    rw [ioSubmit, hth]
    refine .inr ⟨err, s₁, if_pos h0, ?_, fun _ => ht.settled rfl⟩
    exact { ht with settled := nofun, ok := fun h0' => absurd h0' h0 }
  | case3 w s err s₁ hth h0 hnb ih =>
    have ht := ioThrottle_some h hd hth
    have hk := (ht.ok (not_not.mp h0)).1
    -- the IO was refused for want of buffers, and the next round reaps one first
    obtain ⟨hk₁, hios, hsched, hnobufs⟩ := devSubmitIo_nobufs hk.inv hnb
    have hsched' := List.Subset.trans hsched ht.sched
    have heq : ioSubmit depth io w s = ioSubmit depth io true (devSubmitIo io s₁).2 := by
      rw [ioSubmit, hth]
      exact (if_neg h0).trans (dif_pos hnb)
    have hsub : (devSubmitIo io s₁).2.q.ios ⊆ s.q.ios := by
      rw [hios]
      exact ht.settled rfl
    rw [heq]
    rcases ih hk₁.inv with ⟨hnone, -⟩ | ⟨err', s', heq', he, herr⟩
    · obtain ⟨t, htm, hteq⟩ := hnobufs
      exact .inl ⟨hnone, .inr ⟨t, ht.sched htm, hteq⟩⟩
    refine .inr ⟨err', s', heq', ?_, fun h0 => List.Subset.trans (herr h0) hsub⟩
    refine ⟨List.Subset.trans he.sched hsched', he.inv,
      List.Subset.trans ht.grows (List.Subset.trans hk₁.grows he.grows), nofun, fun h0 => ?_,
      fun h0 => (he.faulty h0).mono hsched' fun _ => id⟩
    obtain ⟨hk₂, l, hl, hlast⟩ := he.ok h0
    exact ⟨hk.trans h (hk₁.trans hk.inv hk₂), l, List.Subset.trans hl hsub, hlast⟩
  | case4 w s err s₁ hth h0 hnb =>
    have ht := ioThrottle_some h hd hth
    have hk := (ht.ok (not_not.mp h0)).1
    have hsub := devSubmitIo_spec hk.inv hQ hnb
    rw [ioSubmit, hth]
    refine .inr ⟨(devSubmitIo io s₁).1, (devSubmitIo io s₁).2, (if_neg h0).trans (dif_neg hnb), ?_, fun hne => ?_⟩
    · refine ⟨List.Subset.trans hsub.sched ht.sched, hsub.inv, List.Subset.trans ht.grows hsub.grows, nofun, fun h0 => ?_,
        fun h0 => (hsub.faulty h0).mono ht.sched fun _ => id⟩
      obtain ⟨hk', l, hl, hios⟩ := hsub.ok h0
      exact ⟨hk.trans h hk', l, List.Subset.trans hl (ht.settled rfl), hios⟩
    · rw [ios_devSubmitIo hne]
      exact ht.settled rfl

theorem doIo_nowait (h : Inv R s.q) (hd : 0 < depth) (hQ : R.Q io) :
    Ends R true (fun s => io ∈ s.q.ios) s (doIo depth io true s) := by
  unfold doIo
  rcases ioSubmit_spec hd hQ false s h with ⟨hnone, hw | hnb⟩ | ⟨err, s', heq, he, -⟩
  · cases hw
  · rw [hnone]
    exact hnb
  · rw [heq]
    refine Ends.andThen h (o := some (err, s')) he fun s₁ hk hlast => Ends.done hk.inv ?_
    obtain ⟨l, -, hios⟩ := hlast
    rw [hios]
    exact List.mem_append_right _ (List.mem_singleton.mpr rfl)

/-- `pfsdev_do_io` with waiting: the IO is done, and nothing is added to the queue. -/
theorem doIo_wait (h : Inv R s.q) (hd : 0 < depth) (hQ : R.Q io) :
    Ends R false (fun s => R.D io s.q.mem) s (doIo depth io false s) := by
  unfold doIo
  rcases ioSubmit_spec hd hQ false s h with ⟨hnone, hw | hnb⟩ | ⟨err, s', heq, he, hios⟩
  · cases hw
  · rw [hnone]
    exact hnb
  · rw [heq]
    unfold andThen
    dsimp only
    by_cases h0 : err = 0
    · obtain ⟨hk, l, hl, hlast⟩ := he.ok h0
      rw [if_neg (not_not.mpr h0), if_neg Bool.false_ne_true]
      have hlen : s'.q.ios.length = l.length + 1 := by rw [hlast, List.length_append, List.length_singleton]
      obtain ⟨i, u, n, s₂, hi, hu, heq₂, ht, hios₂, hsched⟩ := ioWait_spec hk.inv (some (s'.q.ios.length - 1))
        (fun i hi => by cases hi; omega) (by rw [hlast]; simp)
      obtain rfl : i = l.length := by rw [hi _ rfl, hlen, Nat.add_sub_cancel]
      obtain rfl : io = u := by
        rw [hlast, List.getElem?_append_right (le_refl _), Nat.sub_self] at hu
        exact Option.some.inj hu
      rw [heq₂]
      have hsub : s₂.q.ios ⊆ s.q.ios := by
        rw [hios₂, hlast, List.eraseIdx_append_of_length_le (le_refl _), Nat.sub_self]
        simpa using hl
      have hw : Ended R false (fun s => R.D io s.q.mem) s' n s₂ :=
        Ends.of_taken ht (by rw [hios₂]; exact List.eraseIdx_subset) hsched
      exact ⟨List.Subset.trans hw.sched he.sched, hw.inv, List.Subset.trans he.grows hw.grows, fun _ => hsub,
        fun h0 => ⟨hk.trans h (hw.ok h0).1, (hw.ok h0).2⟩, fun h0 => (hw.faulty h0).mono he.sched fun _ => id⟩
    · rw [if_pos h0]
      exact { he with settled := fun _ => hios h0, ok := fun h0' => absurd h0' h0 }

/-- The rounds of `pfsdev_wait_io` empty the queue, and an error among the results is returned. -/
theorem waitIoLoop_spec (n err : Nat) (s : Ioq) (h : Inv R s.q) (hn : s.q.ios.length = n) :
    ((waitIoLoop n err s).2.q.ios = [] ∧ Inv R (waitIoLoop n err s).2.q ∧
      s.q.results ⊆ (waitIoLoop n err s).2.q.results) ∧
    ((waitIoLoop n err s).1 = 0 → err = 0 ∧ Kept R s.q (waitIoLoop n err s).2.q) ∧
    ((waitIoLoop n err s).1 ≠ 0 → err ≠ 0 ∨ ∃ r ∈ (waitIoLoop n err s).2.q.results, r.2 ≠ 0) := by
  induction n generalizing err s with
  | zero => exact ⟨⟨List.length_eq_zero_iff.mp hn, h, fun _ => id⟩, fun h0 => ⟨h0, Kept.refl h⟩, .inl⟩
  | succ n ih =>
    have hne : s.q.ios ≠ [] := by
      intro hnil
      rw [hnil] at hn
      cases hn
    obtain ⟨i, u, m, s', -, -, heq, ht, -, -⟩ := ioWait_spec h none nofun hne
    have hlen := length_ioWait heq
    obtain ⟨⟨hnil, hinv, hgrow⟩, hok, herr⟩ := ih (errUpdate err m) s' ht.inv (by omega)
    simp only [waitIoLoop, heq]
    refine ⟨⟨hnil, hinv, List.Subset.trans ht.grows hgrow⟩, fun h0 => ?_, fun h0 => ?_⟩
    · obtain ⟨hup, hk⟩ := hok h0
      have hboth : err = 0 ∧ m = 0 := by
        unfold errUpdate at hup
        split at hup
        · exact ⟨‹_›, hup⟩
        · exact absurd hup ‹_›
      exact ⟨hboth.1, (ht.kept hboth.2).1.trans h hk⟩
    · rcases herr h0 with hup | hr
      · by_cases he : err = 0
        · rw [errUpdate, if_pos he] at hup
          exact .inr ⟨_, hgrow ht.recorded, hup⟩
        · exact .inl he
      · exact .inr hr

end

end Ioq

end PolarFs.File.Devio
