/-
Listing a directory through the daemon (`pfsd_opendir`, `pfsd_readdir_r`): the client asks for a buffer of
entries, the worker fills it with one `pfsd_readdir_svr` per entry, and between any two of these other
transactions may be committed. The cursor is the number of the next direntry and a count of the entries
before it. If the direntry at the cursor is gone, `pfsd_readdir_svr` looks for the entry at that count, but
hands out the one before it, or none at all at count 0.
-/
import PolarFs.Dir.ListEdits
import PolarFs.Lib.ListCursor

namespace PolarFs.Dir

open LinkedRing (Ring)
open ListCursor (Cursor)
open PolarFs.Meta (InodeType)
open Transition (System)

/-! ## The server -/

/-- `pfsd_dirent_ino`. -/
def pfsdDirentIno (fs : Fs) (dino ino : Nat) : Option Nat :=
  if (fs.de ino).ino ≠ none ∧ (fs.de ino).dirino = some dino then some ino else none

/-- What `pfsd_readdir_svr` returns. -/
inductive SvrRet where
  /-- `PFSD_DIR_END` -/
  | dirEnd
  /-- 0, with what it stores in `entry` and `next_ino`, if anything -/
  | ok (entry : Option (Dirent × Nat))
  /-- a failed assertion -/
  | abort
  deriving DecidableEq

/-- The loop that looks for the entry at `offset`: the first `deno` and `de` it stops with. -/
def relocate (fs : Fs) : Nat → Nat → Option Nat → Nat × Option Nat
  | 0, deno, de => (deno, de)
  | n + 1, deno, de => if deno = 0 then (deno, de) else relocate fs n (fs.links.next deno) (some deno)

def fillDirent (fs : Fs) (de : Nat) : SvrRet :=
  match fs.dirent de with
  | some x => .ok (some (x, fs.links.next de))
  | none => .abort

/-- `pfsd_readdir_svr`, with the metadata up to date and locked. -/
def pfsdReaddirSvr (fs : Fs) (dino ino offset : Nat) : SvrRet :=
  match pfsdDirentIno fs dino ino with
  | some de => fillDirent fs de
  | none =>
    if (fs.inode dino).deno = none then .dirEnd
    else
      let (deno, de) := relocate fs offset (fs.links.head dino) none
      if deno = 0 then .dirEnd
      else
        -- `de` is the entry before `deno`
        match de with
        | some de => fillDirent fs de
        | none => .ok none

/-- `sizeof(struct dirent)`. -/
def direntSize : Nat := 280

/-- `PFSD_DIRENT_BUFFER_SIZE`. -/
def pfsdDirentBufferSize : Nat := 20 * 1024

/-- `pfsd_worker_handle_readdir`: `cur_ino`, `cur_offset`, `next_ino`, and the buffer up to `data_size`, where `none` is
an entry that was not filled in. -/
structure Handler where
  curIno : Nat
  curOffset : Nat
  nextIno : Nat
  buf : List (Option Dirent)
  deriving DecidableEq

/-- The condition of its loop. -/
def Handler.More (h : Handler) : Prop := h.curIno ≠ 0 ∧ (h.buf.length + 1) * direntSize ≤ pfsdDirentBufferSize

instance (h : Handler) : Decidable h.More := inferInstanceAs (Decidable (_ ∧ _))

/-- One more entry. -/
def Handler.push (h : Handler) (entry : Option (Dirent × Nat)) : Handler :=
  let next := (entry.map Prod.snd).getD h.nextIno
  ⟨next, h.curOffset + 1, next, h.buf ++ [entry.map Prod.fst]⟩

/-! ## The client -/

/-- `pfsd_dirstream_t`; `data` is what is left of `d_data`. -/
structure Dirstream where
  ino : Nat
  nextOffset : Nat
  nextIno : Nat
  data : List (Option Dirent)
  deriving DecidableEq

/-- A stream: the call that is being served, the entries returned so far, whether it has ended. Of the directory
since `pfsd_opendir`: what has been in it all the time, at some time, and whether it has not changed. -/
structure Listing where
  fs : Fs
  stream : Option Dirstream
  call : Option Handler
  out : List (Option Dirent)
  ended : Bool
  aborted : Bool
  stayed : List Dirent
  seen : List Dirent
  quiet : Bool

inductive ListEvent where
  /-- a transaction of anyone, committed or not -/
  | change (op : Op) (commit : Bool)
  | opendir (d : Nat)
  /-- a call of `pfsd_readdir_r` -/
  | readdirR
  /-- `pfsd_readdir_svr`, and whether `pfs_mount_sync` succeeds -/
  | svr (synced : Bool)
  /-- the loop has ended -/
  | respond

namespace Listing

variable (g : Geometry) (s : Listing)

/-- The metadata becomes `fs`. -/
def changed (fs : Fs) : Listing :=
  match s.stream with
  | none => { s with fs := fs }
  | some st =>
    { s with
      fs := fs
      stayed := s.stayed.filter (· ∈ fs.listing g st.ino)
      seen := s.seen ++ fs.listing g st.ino
      quiet := s.quiet && decide (fs.listing g st.ino = s.fs.listing g st.ino) }

/-- `pfsd_opendir`. -/
def opendir (d : Nat) : Option Listing :=
  if s.stream = none ∧ (s.fs.inode d).type = .dir ∧ (s.fs.inode d).deno ≠ none then
    some { s with
      stream := some ⟨d, 0, s.fs.links.head d, []⟩
      stayed := s.fs.listing g d
      seen := s.fs.listing g d
      quiet := true }
  else none

/-- `pfsd_readdir_r` up to the request. -/
def readdirR (st : Dirstream) : Listing :=
  match st.data with
  | x :: data => { s with stream := some { st with data := data }, out := s.out ++ [x] }
  | [] => if st.nextIno = 0 then { s with ended := true } else { s with call := some ⟨st.nextIno, st.nextOffset, 0, []⟩ }

/-- `pfsd_readdir_r` from the response on, if there are entries in it. -/
def respond (st : Dirstream) (h : Handler) (rIno : Nat) : Option Listing :=
  match h.buf with
  | x :: data => some { s with stream := some ⟨st.ino, h.curOffset, rIno, data⟩, call := none, out := s.out ++ [x] }
  | [] => none

/-- One turn of the loop of the worker. -/
def svr (st : Dirstream) (h : Handler) (synced : Bool) : Option Listing :=
  if synced then
    match pfsdReaddirSvr s.fs st.ino h.curIno h.curOffset with
    | .ok entry => some { s with call := some (h.push entry) }
    | .dirEnd => if h.buf = [] then some { s with call := none, ended := true } else s.respond st h 0
    | .abort => some { s with aborted := true }
  else if h.buf = [] then some { s with call := none }
  else s.respond st h h.curIno

/-- The client makes one call at a time, up to the end of the directory. -/
def step : ListEvent → Option Listing
  | .change op commit =>
    match exec g s.fs op, commit with
    | .ok fs, true => some (s.changed g fs)
    | _, _ => some s
  | .opendir d => s.opendir g d
  | .readdirR =>
    match s.stream, s.call with
    | some st, none => if s.ended ∨ s.aborted then none else some (s.readdirR st)
    | _, _ => none
  | .svr synced =>
    match s.stream, s.call with
    | some st, some h => if h.More ∧ s.aborted = false then s.svr st h synced else none
    | _, _ => none
  | .respond =>
    match s.stream, s.call with
    | some st, some h => if h.More then none else s.respond st h h.curIno
    | _, _ => none

/-- The direntry the listing goes on with, 0 if there is none, and the count. -/
def cursor : Nat × Nat :=
  match s.stream, s.call with
  | none, _ => (0, 0)
  | some st, none => (st.nextIno, st.nextOffset)
  | some _, some h => (h.curIno, h.curOffset)

/-- There is no direntry at the cursor, and the listing ends. -/
def Over (fs : Fs) (d : Nat) (cur : Nat × Nat) : Prop := cur.1 = 0 ∨ pfsdReaddirSvr fs d cur.1 cur.2 = .dirEnd

instance (fs : Fs) (d : Nat) (cur : Nat × Nat) : Decidable (Over fs d cur) := inferInstanceAs (Decidable (_ ∨ _))

/-- The operation leaves the entry at the cursor in its directory, or takes it out as the last one, or comes when the
listing is over. -/
def KeepsPlace (fs fs' : Fs) (op : Op) (d : Nat) (cur : Nat × Nat) : Prop :=
  (¬ Over fs d cur ∧ ¬ op.takes fs cur.1) ∨ ((Over fs d cur ∨ fs.links.next cur.1 = 0) ∧ Over fs' d cur)

instance (fs fs' : Fs) (op : Op) (d : Nat) (cur : Nat × Nat) : Decidable (KeepsPlace fs fs' op d cur) :=
  inferInstanceAs (Decidable (_ ∨ _))

/-- Every transaction that is committed before the end of the listing keeps its place. -/
def regular : ListEvent → Bool
  | .change op true =>
    match s.stream, exec g s.fs op with
    | some st, .ok fs => s.ended || decide (KeepsPlace s.fs fs op st.ino s.cursor)
    | _, _ => true
  | _ => true

/-- What a listing gives: entries that have been in the directory, none left uninitialised; what was there all the
time, once; a directory that does not change, as it is. -/
structure Faithful : Prop where
  alive : s.aborted = false
  init : ∀ y ∈ s.out, ∃ x ∈ s.seen, y = some x
  atMost : ∀ x ∈ s.stayed, s.out.count (some x) ≤ 1
  once : s.ended = true → ∀ x ∈ s.stayed, s.out.count (some x) = 1
  quiet : s.ended = true → s.quiet = true → ∀ st, s.stream = some st → s.out = (s.fs.listing g st.ino).map some

end Listing

/-- Any device, and one stream that is opened and read. -/
def listSystem (g : Geometry) : System Listing ListEvent where
  init s := ∃ fs, (dirSystem g).Reachable fs ∧ s = ⟨fs, none, none, [], false, false, [], [], true⟩
  step := Listing.step g

/-! ## Where the cursor stands -/

open Listing

section

variable {g : Geometry} {fs fs' : Fs} {ents ents' : Nat → List Nat} {d : Nat} {cur : Nat × Nat} {c : Cursor Dirent}

/-- The cursor is at the end, or at the first entry that is not read. -/
def Stands (g : Geometry) (fs : Fs) (d : Nat) (cur : Nat × Nat) (c : Cursor Dirent) : Prop :=
  (Over fs d cur ∧ c.rest = []) ∨
    ((fs.inode d).type = .dir ∧ ∃ pre post, fs.entries g d = pre ++ cur.1 :: post ∧
      c.before = pre.filterMap fs.dirent ∧ c.rest = (cur.1 :: post).filterMap fs.dirent)

/-- The link behind a part of the list leads to the first entry of the rest. -/
theorem stands_of_split (hd : (fs.inode d).type = .dir) (pre post : List Nat) (hl : fs.entries g d = pre ++ post)
    (hcur : (post ++ [0]).head? = some cur.1) (hb : c.before = pre.filterMap fs.dirent)
    (hr : c.rest = post.filterMap fs.dirent) : Stands g fs d cur c := by
  cases post with
  | nil => exact .inl ⟨.inl (Option.some.inj hcur).symm, hr⟩
  | cons y post =>
    obtain rfl : y = cur.1 := Option.some.inj hcur
    exact .inr ⟨hd, pre, post, hl, hb, hr⟩

theorem DirInv.stands_start (h : DirInv g fs ents) (hd : (fs.inode d).type = .dir) (offset : Nat) :
    Stands g fs d (fs.links.head d, offset) (Cursor.start (fs.listing g d)) := by
  refine stands_of_split hd [] (ents d) (h.entries_eq hd) ?_ rfl (h.listing_eq hd)
  exact (h.lists.ring d hd).fwd_header

theorem DirInv.readdirSvr_mem (h : DirInv g fs ents) (hmem : cur.1 ∈ ents d) :
    ∃ x, fs.dirent cur.1 = some x ∧ pfsdReaddirSvr fs d cur.1 cur.2 = .ok (some (x, fs.links.next cur.1)) := by
  obtain ⟨i, nm, hi, -, ht⟩ := h.holds_of_mem hmem
  have hfound : pfsdDirentIno fs d cur.1 = some cur.1 := if_pos ⟨by simp [hi], (h.mem d cur.1).1 hmem⟩
  refine ⟨_, dirent_of_tree ht, ?_⟩
  unfold pfsdReaddirSvr
  rw [hfound]
  dsimp only [fillDirent]
  rw [dirent_of_tree ht]

theorem DirInv.not_over (h : DirInv g fs ents) (hmem : cur.1 ∈ ents d) : ¬ Over fs d cur := by
  obtain ⟨x, -, hsvr⟩ := h.readdirSvr_mem hmem
  rintro (h0 | hend)
  · exact h.lists.ne_zero hmem h0
  · rw [hsvr] at hend
    cases hend

theorem DirInv.rest_of_over (h : DirInv g fs ents) (hs : Stands g fs d cur c) (hover : Over fs d cur) : c.rest = [] := by
  rcases hs with ⟨-, hrest⟩ | ⟨hd, pre, post, hl, -⟩
  · exact hrest
  · rw [h.entries_eq hd] at hl
    exact absurd hover (h.not_over (by rw [hl]; simp))

/-- The link of an entry leads to the first one behind it. -/
theorem DirInv.next_split (h : DirInv g fs ents) (hd : (fs.inode d).type = .dir) {pre post : List Nat} {e : Nat}
    (hl : ents d = pre ++ e :: post) : (post ++ [0]).head? = some (fs.links.next e) := by
  have he : e ∈ ents d := by
    rw [hl]
    simp
  have hring := h.lists.ring d hd
  rw [hl] at hring
  have hfwd := hring.split.2
  rwa [Links.fwd_of_ne _ _ (h.lists.ne_zero he)] at hfwd

theorem DirInv.stands_next (h : DirInv g fs ents) (hs : Stands g fs d cur c) (hover : ¬ Over fs d cur) (offset : Nat) :
    ∃ x rest, c.rest = x :: rest ∧ pfsdReaddirSvr fs d cur.1 cur.2 = .ok (some (x, fs.links.next cur.1)) ∧
      Stands g fs d (fs.links.next cur.1, offset) c.next := by
  obtain ⟨hd, pre, post, hl, hb, hr⟩ := hs.resolve_left fun h0 => hover h0.1
  have hents : ents d = pre ++ cur.1 :: post := (h.entries_eq hd).symm.trans hl
  obtain ⟨x, hx, hsvr⟩ := h.readdirSvr_mem (show cur.1 ∈ ents d by rw [hents]; simp)
  rw [List.filterMap_cons_some hx] at hr
  refine ⟨x, _, hr, hsvr, ?_⟩
  rw [Cursor.next_eq hr]
  refine stands_of_split hd (pre ++ [cur.1]) post (by rw [hl]; simp) (h.next_split hd hents) ?_ rfl
  simp [hb, hx]

theorem DirInv.nodup_listing (h : DirInv g fs ents) (d : Nat) : (fs.listing g d).Nodup := by
  by_cases hd : (fs.inode d).type = .dir
  · rw [h.listing_eq hd]
    exact h.nodup_dirents d
  · rw [Fs.listing, if_neg hd]
    exact List.nodup_nil

/-- What an edit leaves of a part of a list reads as before. -/
theorem ListEdit.filterMap_eq {l l' gone : List Nat} (he : ListEdit fs fs' l l' gone) (part : List Nat)
    (hpart : ∀ y ∈ part, y ∈ l) :
    (part.filter (· ∉ gone)).filterMap fs'.dirent = (part.filter (· ∉ gone)).filterMap fs.dirent := by
  refine List.filterMap_congr fun y hy => ?_
  obtain ⟨hy, hgone⟩ := List.mem_filter.1 hy
  exact he.same y (hpart y hy) (of_decide_eq_true hgone)

/-- An entry that is no longer at the cursor is not in the directory under that name. -/
theorem DirInv.notMem_listing (h : DirInv g fs ents) (h' : DirInv g fs' ents') {gone : List Nat}
    (hd' : (fs'.inode d).type = .dir) (hedit : ListEdit fs fs' (ents d) (ents' d) gone) (hmem : cur.1 ∈ ents d)
    (hover : Over fs' d cur) {x : Dirent} (hx : fs.dirent cur.1 = some x) : x ∉ fs'.listing g d := by
  intro hin
  rw [h'.listing_eq hd'] at hin
  obtain ⟨e, he, hex⟩ := List.mem_filterMap.1 hin
  obtain ⟨new, hnew, hfresh⟩ := hedit.list
  have he' := he
  rw [hnew, List.mem_append, List.mem_filter] at he'
  rcases he' with ⟨hold, hstay⟩ | hnew
  · have hsame := hedit.same e hold (of_decide_eq_true hstay)
    obtain rfl : e = cur.1 := h.dirent_inj hold hmem (hsame.symm.trans (hex.trans hx.symm))
    exact h'.not_over he hover
  · exact hfresh e hnew _ hmem (hex.trans hx.symm)

theorem DirInv.stands_change (h : DirInv g fs ents) (h' : DirInv g fs' ents') {op : Op} (hok : Dir.exec g fs op = .ok fs')
    (hc : c.Inv) (hs : Stands g fs d cur c) (hkeep : KeepsPlace fs fs' op d cur) :
    ∃ before rest, fs'.listing g d = before ++ rest ∧ (c.change before rest).Inv ∧
      Stands g fs' d cur (c.change before rest) := by
  rcases hs with ⟨hover, hend⟩ | ⟨hd, pre, post, hl, hb, hr⟩
  · have hover' := (hkeep.resolve_left fun hn => hn.1 hover).2
    exact ⟨fs'.listing g d, [], by simp, hc.change_end (by simp [hend]) (h'.nodup_listing d), .inl ⟨hover', rfl⟩⟩
  have hents : ents d = pre ++ cur.1 :: post := (h.entries_eq hd).symm.trans hl
  have hmem : cur.1 ∈ ents d := by
    rw [hents]
    simp
  obtain ⟨hd', gone, hgone, hedit⟩ := h.exec_edit h' hok hd (h.primary cur.1 d ((h.mem d cur.1).1 hmem)).2.2.1
  rcases hkeep with ⟨-, htakes⟩ | ⟨hlast, hover'⟩
  · have hstay : cur.1 ∉ gone := fun hc => htakes (hgone cur.1 hc)
    rw [hents] at hedit
    obtain ⟨new, hnew, hfresh⟩ := hedit.list
    -- the list is cut at the cursor, before and after
    have hkept : (cur.1 :: post).filter (· ∉ gone) = cur.1 :: post.filter (· ∉ gone) :=
      List.filter_cons_of_pos (by simpa)
    have hents' : ents' d = pre.filter (· ∉ gone) ++ cur.1 :: (post.filter (· ∉ gone) ++ new) := by
      rw [hnew, List.filter_append, hkept, List.append_assoc, List.cons_append]
    have hbefore := hedit.filterMap_eq pre fun y hy => List.mem_append_left _ hy
    have hrest := hedit.filterMap_eq (cur.1 :: post) fun y hy => List.mem_append_right _ hy
    have hlisting : fs'.listing g d = (pre.filter (· ∉ gone)).filterMap fs'.dirent ++
        (cur.1 :: (post.filter (· ∉ gone) ++ new)).filterMap fs'.dirent := by
      rw [h'.listing_eq hd', hents', List.filterMap_append]
    refine ⟨_, _, hlisting, hc.change ⟨hlisting ▸ h'.nodup_listing d, ?_,
      ((cur.1 :: post).filter (· ∉ gone)).filterMap fs.dirent, new.filterMap fs'.dirent, ?_, ?_, ?_⟩, ?_⟩
    · rw [hbefore, hb]
      exact List.filter_sublist.filterMap _
    · rw [← List.cons_append, ← hkept, List.filterMap_append, hrest]
    · rw [hr]
      exact List.filter_sublist.filterMap _
    · intro x hx hold
      obtain ⟨e, he, hex⟩ := List.mem_filterMap.1 hx
      rw [hb, hr, ← List.filterMap_append] at hold
      obtain ⟨y, hy, hyx⟩ := List.mem_filterMap.1 hold
      exact hfresh e he y hy (hex.trans hyx.symm)
    · exact .inr ⟨hd', _, _, (h'.entries_eq hd').trans hents', rfl, rfl⟩
  · -- the entry at the cursor was the last one
    have hpost : post = [] := by
      have hnext := h.next_split hd hents
      rw [hlast.resolve_left (h.not_over hmem)] at hnext
      cases post with
      | nil => rfl
      | cons y post => exact absurd (Option.some.inj hnext) (h.lists.ne_zero (hents ▸ by simp : y ∈ ents d))
    refine ⟨fs'.listing g d, [], by simp, hc.change_end (fun x hx => ?_) (h'.nodup_listing d), .inl ⟨hover', rfl⟩⟩
    rw [hr, hpost] at hx
    obtain ⟨e, he, hex⟩ := List.mem_filterMap.1 hx
    rw [List.mem_singleton.1 he] at hex
    exact h.notMem_listing h' hd' hedit hmem hover' hex

end

/-! ## The invariant -/

/-- The entries the worker has read and not sent. -/
def Listing.pending (s : Listing) : List (Option Dirent) := (s.call.map Handler.buf).getD []

/-- The stream reads the directory as the cursor `c` does. -/
structure Follows (g : Geometry) (s : Listing) (st : Dirstream) (c : Cursor Dirent) : Prop where
  inv : c.Inv
  stayed : c.stayed = s.stayed
  seen : c.seen = s.seen
  quiet : c.quiet = s.quiet
  list : s.fs.listing g st.ino = c.before ++ c.rest
  stands : s.ended = false → Stands g s.fs st.ino s.cursor c
  read : c.read.map some = s.out ++ (st.data ++ s.pending)
  call : ∀ h, s.call = some h → st.data = [] ∧ (h.buf = [] → (h.curIno, h.curOffset) = (st.nextIno, st.nextOffset))
  ended : s.ended = true → s.call = none ∧ st.data = [] ∧ c.rest = []

structure ListInv (g : Geometry) (s : Listing) : Prop where
  dirs : ∃ ents, DirInv g s.fs ents
  alive : s.aborted = false
  closed : s.stream = none → s.call = none ∧ s.out = [] ∧ s.ended = false ∧ s.stayed = []
  follows : ∀ st, s.stream = some st → ∃ c, Follows g s st c

variable {g : Geometry} {s s' : Listing} {st : Dirstream}

theorem Listing.changed_none (h : s.stream = none) (fs : Fs) : s.changed g fs = { s with fs := fs } := by
  unfold changed
  rw [h]

theorem Listing.changed_some (h : s.stream = some st) (fs : Fs) : s.changed g fs = { s with
      fs := fs
      stayed := s.stayed.filter (· ∈ fs.listing g st.ino)
      seen := s.seen ++ fs.listing g st.ino
      quiet := s.quiet && decide (fs.listing g st.ino = s.fs.listing g st.ino) } := by
  unfold changed
  rw [h]

theorem ListInv.changed (h : ListInv g s) {op : Op} {fs : Fs} (hok : exec g s.fs op = .ok fs)
    (hkeep : ∀ st, s.stream = some st → s.ended = false → Listing.KeepsPlace s.fs fs op st.ino s.cursor) :
    ListInv g (s.changed g fs) := by
  obtain ⟨ents, hinv⟩ := h.dirs
  obtain ⟨ents', hinv'⟩ := hinv.exec hok
  cases hst : s.stream with
  | none =>
    rw [changed_none hst]
    exact ⟨⟨ents', hinv'⟩, h.alive, h.closed, fun st hs => nomatch hst.symm.trans hs⟩
  | some st =>
    rw [changed_some hst]
    obtain ⟨c, hc⟩ := h.follows st hst
    obtain ⟨before, rest, hlist, hcinv, hstands, hend⟩ : ∃ before rest, fs.listing g st.ino = before ++ rest ∧
        (c.change before rest).Inv ∧ (s.ended = false → Stands g fs st.ino s.cursor (c.change before rest)) ∧
        (s.ended = true → rest = []) := by
      cases he : s.ended with
      | true =>
        exact ⟨_, [], by simp, hc.inv.change_end (by simp [(hc.ended he).2.2]) (hinv'.nodup_listing st.ino), nofun,
          fun _ => rfl⟩
      | false =>
        obtain ⟨before, rest, hlist, hcinv, hstands⟩ :=
          hinv.stands_change hinv' hok hc.inv (hc.stands he) (hkeep st hst he)
        exact ⟨before, rest, hlist, hcinv, fun _ => hstands, nofun⟩
    refine ⟨⟨ents', hinv'⟩, h.alive, (fun hn => nomatch hst.symm.trans hn), fun st' hs => ?_⟩
    obtain rfl : st = st' := Option.some.inj (hst.symm.trans hs)
    refine ⟨c.change before rest, hcinv, ?_, ?_, ?_, hlist, hstands, hc.read, hc.call,
      fun he => ⟨(hc.ended he).1, (hc.ended he).2.1, hend he⟩⟩
    · dsimp only [Cursor.change]
      rw [hc.stayed, hlist]
    · dsimp only [Cursor.change]
      rw [hc.seen, hlist]
    · dsimp only [Cursor.change]
      rw [hc.quiet, hlist, hc.list]

theorem ListInv.opendir (h : ListInv g s) {d : Nat} (hstep : s.opendir g d = some s') : ListInv g s' := by
  unfold Listing.opendir at hstep
  obtain ⟨hg, hstep⟩ := Option.ite_none_right_eq_some.1 hstep
  cases hstep
  obtain ⟨hst, hd, -⟩ := hg
  obtain ⟨hcall, hout, hended, -⟩ := h.closed hst
  obtain ⟨ents, hinv⟩ := h.dirs
  refine ⟨⟨ents, hinv⟩, h.alive, nofun, fun st hs => ?_⟩
  cases hs
  refine ⟨Cursor.start (s.fs.listing g d), ListCursor.Cursor.inv_start (hinv.nodup_listing d), rfl, rfl, rfl, rfl,
    fun _ => ?_, ?_, ?_, ?_⟩
  · simpa only [cursor, hcall] using hinv.stands_start hd 0
  · show [] = s.out ++ ([] ++ (s.call.map Handler.buf).getD [])
    rw [hout, hcall]
    rfl
  · intro h' hh
    cases hcall.symm.trans hh
  · intro he
    cases hended.symm.trans he

/-- A step of the stream that reads nothing new. -/
theorem Follows.keep {st st' : Dirstream} {c : Cursor Dirent} (hc : Follows g s st c) (hfs : s'.fs = s.fs)
    (hpast : s'.stayed = s.stayed ∧ s'.seen = s.seen ∧ s'.quiet = s.quiet) (hino : st'.ino = st.ino)
    (hstands : s'.ended = false → Stands g s.fs st.ino s'.cursor c)
    (hread : s'.out ++ (st'.data ++ s'.pending) = s.out ++ (st.data ++ s.pending))
    (hcall : ∀ h, s'.call = some h → st'.data = [] ∧
      (h.buf = [] → (h.curIno, h.curOffset) = (st'.nextIno, st'.nextOffset)))
    (hended : s'.ended = true → s'.call = none ∧ st'.data = [] ∧ c.rest = []) : Follows g s' st' c where
  inv := hc.inv
  stayed := hc.stayed.trans hpast.1.symm
  seen := hc.seen.trans hpast.2.1.symm
  quiet := hc.quiet.trans hpast.2.2.symm
  list := by rw [hfs, hino]; exact hc.list
  stands := by rw [hfs, hino]; exact hstands
  read := hc.read.trans hread.symm
  call := hcall
  ended := hended

theorem ListInv.of_follows (h : ListInv g s) {c : Cursor Dirent} (hfs : s'.fs = s.fs) (halive : s'.aborted = false)
    (hst : s'.stream = some st) (hc : Follows g s' st c) : ListInv g s' := by
  refine ⟨hfs ▸ h.dirs, halive, (fun hn => nomatch hst.symm.trans hn), fun st' hs => ?_⟩
  obtain rfl : st = st' := Option.some.inj (hst.symm.trans hs)
  exact ⟨c, hc⟩

theorem ListInv.readdirR (h : ListInv g s) (hst : s.stream = some st) (hcall : s.call = none) (hopen : s.ended = false) :
    ListInv g (s.readdirR st) := by
  obtain ⟨c, hc⟩ := h.follows st hst
  have hstands := hc.stands hopen
  simp only [cursor, hst, hcall] at hstands
  unfold Listing.readdirR
  cases hdata : st.data with
  | cons x data =>
    refine h.of_follows rfl h.alive rfl (hc.keep rfl ⟨rfl, rfl, rfl⟩ rfl (fun _ => ?_) ?_ ?_ fun he => ?_)
    · simpa only [cursor, hcall] using hstands
    · simp [pending, hcall, hdata]
    · exact fun h' hh => nomatch hcall.symm.trans hh
    · cases hopen.symm.trans he
  | nil =>
    dsimp only
    by_cases h0 : st.nextIno = 0
    · rw [if_pos h0]
      obtain ⟨ents, hinv⟩ := h.dirs
      exact h.of_follows rfl h.alive hst (hc.keep rfl ⟨rfl, rfl, rfl⟩ rfl nofun rfl hc.call
        fun _ => ⟨hcall, hdata, hinv.rest_of_over hstands (.inl h0)⟩)
    · rw [if_neg h0]
      refine h.of_follows rfl h.alive hst (hc.keep rfl ⟨rfl, rfl, rfl⟩ rfl (fun _ => ?_) ?_ ?_ fun he => ?_)
      · simpa only [cursor, hst] using hstands
      · simp [pending, hcall]
      · intro h' hh
        cases hh
        exact ⟨hdata, fun _ => rfl⟩
      · cases hopen.symm.trans he

section Call

variable {hd : Handler} {c : Cursor Dirent} (hst : s.stream = some st) (hcall : s.call = some hd)

include hcall

theorem Follows.open_of_call (hc : Follows g s st c) : s.ended = false :=
  Bool.eq_false_iff.2 fun he => nomatch hcall.symm.trans (hc.ended he).1

include hst

theorem Follows.stands_call (hc : Follows g s st c) : Stands g s.fs st.ino (hd.curIno, hd.curOffset) c := by
  simpa only [cursor, hst, hcall] using hc.stands (hc.open_of_call hcall)

/-- The response takes over the cursor of the worker, unless the listing is over. -/
theorem ListInv.respond (h : ListInv g s) {rIno : Nat}
    (hino : rIno = hd.curIno ∨ (rIno = 0 ∧ Listing.Over s.fs st.ino (hd.curIno, hd.curOffset)))
    (hstep : s.respond st hd rIno = some s') : ListInv g s' := by
  obtain ⟨c, hc⟩ := h.follows st hst
  have hdata := (hc.call hd hcall).1
  unfold Listing.respond at hstep
  cases hbuf : hd.buf with
  | nil =>
    rw [hbuf] at hstep
    cases hstep
  | cons x data =>
    rw [hbuf] at hstep
    cases hstep
    refine h.of_follows rfl h.alive rfl (hc.keep rfl ⟨rfl, rfl, rfl⟩ rfl (fun _ => ?_) ?_ nofun fun he => ?_)
    · have hstands := hc.stands_call hst hcall
      rcases hino with rfl | ⟨rfl, hover⟩
      · exact hstands
      · obtain ⟨ents, hinv⟩ := h.dirs
        exact .inl ⟨.inl rfl, hinv.rest_of_over hstands hover⟩
    · simp [pending, hcall, hdata, hbuf]
    · cases (hc.open_of_call hcall).symm.trans he

theorem ListInv.svr (h : ListInv g s) (hmore : hd.More) {synced : Bool} (hstep : s.svr st hd synced = some s') :
    ListInv g s' := by
  obtain ⟨c, hc⟩ := h.follows st hst
  obtain ⟨hdata, hfirst⟩ := hc.call hd hcall
  have hopen := hc.open_of_call hcall
  have hstands := hc.stands_call hst hcall
  obtain ⟨ents, hinv⟩ := h.dirs
  unfold Listing.svr at hstep
  cases synced with
  | false =>
    rw [if_neg Bool.false_ne_true] at hstep
    by_cases hbuf : hd.buf = []
    · -- the call fails and may be made again
      rw [if_pos hbuf] at hstep
      cases hstep
      refine h.of_follows rfl h.alive hst (hc.keep rfl ⟨rfl, rfl, rfl⟩ rfl (fun _ => ?_) ?_ nofun fun he => ?_)
      · rw [hfirst hbuf] at hstands
        simpa only [cursor, hst] using hstands
      · simp [pending, hcall, hbuf]
      · cases hopen.symm.trans he
    · rw [if_neg hbuf] at hstep
      exact h.respond hst hcall (.inl rfl) hstep
  | true =>
    rw [if_pos rfl] at hstep
    by_cases hover : Listing.Over s.fs st.ino (hd.curIno, hd.curOffset)
    · -- the last entry has been taken out at the cursor
      have hsvr : pfsdReaddirSvr s.fs st.ino hd.curIno hd.curOffset = .dirEnd := hover.resolve_left hmore.1
      rw [hsvr] at hstep
      by_cases hbuf : hd.buf = []
      · rw [if_pos hbuf] at hstep
        cases hstep
        refine h.of_follows rfl h.alive hst (hc.keep rfl ⟨rfl, rfl, rfl⟩ rfl nofun ?_ nofun
          fun _ => ⟨rfl, hdata, hinv.rest_of_over hstands hover⟩)
        simp [pending, hcall, hbuf]
      · rw [if_neg hbuf] at hstep
        exact h.respond hst hcall (.inr ⟨rfl, hover⟩) hstep
    · obtain ⟨x, rest, hrest, hsvr, hnext⟩ := hinv.stands_next hstands hover (hd.curOffset + 1)
      rw [hsvr] at hstep
      cases hstep
      have hcinv := hc.inv.next hrest
      rw [Cursor.next_eq hrest] at hcinv hnext
      refine h.of_follows rfl h.alive hst
        ⟨hcinv, hc.stayed, hc.seen, hc.quiet, ?_, fun _ => ?_, ?_, fun h' hh => ⟨hdata, ?_⟩, fun he => ?_⟩
      · refine hc.list.trans ?_
        rw [hrest]
        simp
      · simp only [cursor, hst]
        exact hnext
      · have hread := hc.read
        simp only [pending, hcall, Option.map_some, Option.getD_some] at hread
        simp [pending, Handler.push, hread]
      · cases hh
        simp [Handler.push]
      · cases hopen.symm.trans he

end Call

theorem ListInv.step (h : ListInv g s) {e : ListEvent} (hreg : s.regular g e = true) (hstep : s.step g e = some s') :
    ListInv g s' := by
  cases e <;> unfold Listing.step at hstep <;> dsimp only at hstep
  case change op commit =>
    split at hstep
    · rename_i fs hok
      cases hstep
      refine h.changed hok fun st hst hopen => ?_
      simpa [regular, hst, hok, hopen] using hreg
    · cases hstep
      exact h
  case opendir d => exact h.opendir hstep
  case readdirR =>
    split at hstep
    · rename_i st hst hcall
      split at hstep
      · cases hstep
      · rename_i hopen
        cases hstep
        exact h.readdirR hst hcall (Bool.eq_false_iff.2 fun he => hopen (.inl he))
    · cases hstep
  case svr synced =>
    split at hstep
    · rename_i st hd hst hcall
      split at hstep
      · next hmore => exact h.svr hst hcall hmore.1 hstep
      · cases hstep
    · cases hstep
  case respond =>
    split at hstep
    · rename_i st hd hst hcall
      split at hstep
      · cases hstep
      · exact h.respond hst hcall (.inl rfl) hstep
    · cases hstep

theorem listInv_reachable (h : ((listSystem g).restrict fun s e => s.regular g e = true).Reachable s) : ListInv g s := by
  refine h.invariant_restrict (P := ListInv g) ?_ fun s e s' hs hok hstep => hs.step hok hstep
  rintro _ ⟨fs, hfs, rfl⟩
  exact ⟨dirInv_reachable g hfs, rfl, fun _ => ⟨rfl, rfl, rfl, rfl⟩, nofun⟩

/-! ## Listings -/

theorem count_map_some (l : List Dirent) (x : Dirent) : (l.map some).count (some x) = l.count x :=
  List.count_map_of_injective l some (Option.some_injective _) x

/-- A directory `a` with the files `f`, `g` and `h`. -/
def threeFiles : List ListEvent :=
  let stk : Instack := ⟨⟨3, 5, [97]⟩, [rootStk.top]⟩
  [.change (.create firstFree rootStk [97] true 5) true, .change (.create firstFree stk [102] false 6) true,
   .change (.create firstFree stk [103] false 7) true, .change (.create firstFree stk [104] false 8) true, .opendir 3]

/-- The removal of a file of `a`. -/
def unlink (ino btime : Nat) (name : Name) : ListEvent :=
  .change (.remove firstFree ⟨⟨ino, btime, name⟩, [⟨3, 5, [97]⟩, rootStk.top]⟩ false) true

def newListing : Listing := ⟨mkfs 9, none, none, [], false, false, [], [], true⟩

end PolarFs.Dir
