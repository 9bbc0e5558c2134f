/-
The index of a directory in memory holds what the entry list holds, over every run of operations, of commits and
rollbacks with the callbacks after them, of reloads and lookups. While a transaction is open or its callback is
pending, the index with the records is that of the metadata the records are for (`DirOk`).
-/
import PolarFs.Dir.IndexEffects

namespace PolarFs.Dir.Index

open MemDir

variable {g : Geometry} {hash : Name → UInt32} {fs fs' : Fs} {ents : Nat → List Nat} {d : Nat} {name : Name}
  {enabled : Bool} {v v' : View} {m m' : MemDir} {x : DxRoot × UInt64} {s s' : State} {tx : Option Fs}

/-! ## The invariant -/

/-- The index that belongs to the committed metadata, if `x` is what the records make of the inode's. -/
def MemDir.before (m : MemDir) (x : DxRoot × UInt64) : DxRoot × UInt64 :=
  if m.cb = .ended true then x else (m.root, m.size)

/-- The index that belongs to the metadata of the open transaction. -/
def MemDir.after (m : MemDir) (x : DxRoot × UInt64) : DxRoot × UInt64 :=
  if m.cb = .ended true ∨ m.cb = .inTx then x else (m.root, m.size)

/-- The inode of the directory `d`. -/
structure DirOk (hash : Name → UInt32) (fs : Fs) (tx : Option Fs) (d : Nat) (m : MemDir) : Prop where
  done : m.cb = .done → m.redo = []
  inTx : m.cb = .inTx → tx.isSome
  applies : ∃ x, m.redo.foldlM applyRec (m.root, m.size) = .ok x ∧ (m.stale = false →
    Fresh hash fs d (m.before x) ∧ ∀ fs', tx = some fs' → Fresh hash fs' d (m.after x))

structure Inv (g : Geometry) (hash : Name → UInt32) (s : State) : Prop where
  fs : ∃ ents, DirInv g s.fs ents
  tx : ∀ fs', s.tx = some fs' → ∃ ents, DirInv g fs' ents
  dirs : ∀ d, DirOk hash s.fs s.tx d (s.dirs d)
  denos : (s.cache.map CacheEnt.deno).Nodup
  cache : CacheOk s.fs s.cache
  cacheTx : ∀ fs', s.tx = some fs' → CacheOk fs' s.cache

theorem DirOk.stale (h : DirOk hash fs tx d m) : DirOk hash fs tx d { m with stale := true } := by
  obtain ⟨x, hx, -⟩ := h.applies
  exact ⟨h.done, h.inTx, x, hx, nofun⟩

theorem DirOk.effect (h : DirOk hash fs none d m) (he : DirEffect hash fs fs' d m m') :
    DirOk hash fs (some fs') d m' := by
  obtain ⟨x, hx, hfresh⟩ := h.applies
  have hnot : m.cb ≠ .inTx := fun hcb => by cases h.inTx hcb
  have hafter : m.after x = m.before x := by simp [after, before, hnot]
  cases he with
  | kept hsame =>
    refine ⟨h.done, fun hcb => absurd hcb hnot, x, hx, fun hst => ⟨(hfresh hst).1, ?_⟩⟩
    rintro _ ⟨⟩
    rw [hafter]
    exact (hfresh hst).1.same (hsame (hfresh hst).1.type)
  | released => exact ⟨h.done, fun hcb => absurd hcb hnot, x, hx, nofun⟩
  | recorded recs hstale hcb htype hturns hm =>
    subst hm
    have hredo := h.done hcb
    have hbefore : m.before x = (m.root, m.size) := by simp [before, hcb]
    have hf := (hfresh hstale).1
    rw [hbefore] at hf
    obtain ⟨x', hx', hix⟩ := hturns _ ⟨hf.index, hf.size⟩
    refine ⟨nofun, fun _ => rfl, x', by simpa [hredo] using hx', fun _ => ⟨hf, ?_⟩⟩
    rintro _ ⟨⟩
    exact ⟨htype, hix.1, hix.2⟩

theorem MemDir.txEnd_done {c : Bool} (h : (m.txEnd c).cb = .done) : m.cb = .done := by
  unfold txEnd at h
  dsimp only at h
  split at h
  · cases h
  · exact h

theorem MemDir.txEnd_ne_inTx (m : MemDir) (c : Bool) : (m.txEnd c).cb ≠ .inTx := by
  unfold txEnd
  dsimp only
  split
  · nofun
  · assumption

theorem DirOk.commit (h : DirOk hash fs (some fs') d m) : DirOk hash fs' none d (m.txEnd true) := by
  obtain ⟨x, hx, hfresh⟩ := h.applies
  have heq : (m.txEnd true).before x = m.after x := by
    by_cases hcb : m.cb = .inTx <;> simp [txEnd, before, after, hcb]
  refine ⟨fun hcb => h.done (txEnd_done hcb), fun hcb => absurd hcb (m.txEnd_ne_inTx true), x, hx, fun hst => ?_⟩
  rw [heq]
  exact ⟨(hfresh hst).2 fs' rfl, nofun⟩

theorem DirOk.rollback (h : DirOk hash fs tx d m) : DirOk hash fs none d (m.txEnd false) := by
  obtain ⟨x, hx, hfresh⟩ := h.applies
  have heq : (m.txEnd false).before x = m.before x := by
    by_cases hcb : m.cb = .inTx <;> simp [txEnd, before, hcb]
  refine ⟨fun hcb => h.done (txEnd_done hcb), fun hcb => absurd hcb (m.txEnd_ne_inTx false), x, hx, fun hst => ?_⟩
  rw [heq]
  exact ⟨(hfresh hst).1, nofun⟩

/-- The callback after the end of a transaction does not fail, and nothing is pending then. -/
theorem DirOk.callback {c : Bool} (h : DirOk hash fs tx d m) (hcb : m.cb = .ended c) :
    ∃ m', dirUpdateDone m c = .ok m' ∧ DirOk hash fs tx d m' := by
  obtain ⟨x, hx, hfresh⟩ := h.applies
  have hafter : m.after x = m.before x := by simp [after, before, hcb]
  refine ⟨{ m with root := (m.before x).1, size := (m.before x).2, redo := [], cb := .done }, ?_, fun _ => rfl, nofun,
    m.before x, rfl, fun hst => ?_⟩
  · cases c with
    | true =>
      simp only [dirUpdateDone, dxredoApply, hx, before, hcb, bind, Except.bind]
      rfl
    | false =>
      simp only [dirUpdateDone, before, hcb, bind, Except.bind]
      rfl
  · obtain ⟨hb, ha⟩ := hfresh hst
    exact ⟨hb, fun fs' htx => hafter ▸ ha fs' htx⟩

theorem DirOk.ready (h : DirOk hash v.fs tx d (v.dirs d)) (hcb : (v.dirs d).cb = .done) : Ready hash v d := by
  refine ⟨hcb, h.done hcb, fun hst => ?_⟩
  obtain ⟨x, -, hfresh⟩ := h.applies
  have hf := (hfresh hst).1
  rwa [show (v.dirs d).before x = ((v.dirs d).root, (v.dirs d).size) by simp [before, hcb]] at hf

theorem inodeReload_ok (h : DirInv g fs ents) (hcb : m.cb = .done) (hok : inodeReload g hash fs d m = .ok m') :
    DirOk hash fs none d m' := by
  simp only [inodeReload, bind_eq_ok, ensure_eq_ok, pure_eq_ok] at hok
  obtain ⟨-, -, -, hdir, root, hbuild, rfl⟩ := hok
  obtain ⟨root', hbuild', hix⟩ := buildDindex_indexes hash h hdir
  cases hbuild.symm.trans hbuild'
  refine ⟨fun _ => rfl, fun hin => ?_, (root, (fs.inode d).size), rfl, fun _ => ⟨?_, by simp⟩⟩
  · cases hin.symm.trans hcb
  · rw [before, if_neg (by simp [hcb])]
    exact ⟨hdir, hix, rfl⟩

/-! ## Runs -/

theorem Inv.init (g : Geometry) (hash : Name → UInt32) (now : Nat) : Inv g hash ⟨mkfs now, fun _ => .create, [], none⟩ :=
  ⟨⟨mkfsEnts, dirInv_mkfs g now⟩, nofun, fun _ => ⟨fun _ => rfl, nofun, _, rfl, nofun⟩, List.nodup_nil, nofun, nofun⟩

theorem Inv.setDir (h : Inv g hash s) (hm : DirOk hash s.fs s.tx d m) :
    Inv g hash { s with dirs := Function.update s.dirs d m } := by
  refine { h with dirs := fun d' => ?_ }
  by_cases hd : d' = d
  · subst hd
    simpa using hm
  · simpa [hd] using h.dirs d'

theorem Inv.op {op : Op} (h : Inv g hash s) (htx : s.tx = none) (hcb : ∀ d ∈ Op.dirs op, (s.dirs d).cb = .done)
    (hok : exec g hash enabled s.view op = .ok v') : Inv g hash ⟨s.fs, v'.dirs, v'.cache, some v'.fs⟩ := by
  obtain ⟨ents, hfs⟩ := h.fs
  have hdone : Done g hash op s.view v' :=
    exec_done hfs h.cache h.denos (fun d hd => DirOk.ready (v := s.view) (h.dirs d) (hcb d hd)) hok
  refine ⟨h.fs, ?_, fun d => ?_, h.denos.sublist (hdone.sub.map _), fun c hc => h.cache c (hdone.sub.subset hc), ?_⟩
  · rintro _ ⟨⟩
    exact hfs.exec hdone.exec
  · have hd := h.dirs d
    rw [htx] at hd
    exact hd.effect (hdone.dirs d)
  · rintro _ ⟨⟩
    exact hdone.cache

theorem Inv.step {ev : Event} (h : Inv g hash s) (hs : step g hash s ev = some s') : Inv g hash s' := by
  obtain ⟨ents, hfs⟩ := h.fs
  cases ev <;> simp only [Index.step] at hs
  case op op enabled =>
    obtain ⟨hcond, hs⟩ := Option.ite_none_right_eq_some.1 hs
    split at hs
    case h_1 v hok =>
      cases hs
      exact h.op (Option.isNone_iff_eq_none.1 hcond.1) hcond.2 hok
    case h_2 =>
      cases hs
      exact h
    case h_3 => cases hs
  case commit =>
    obtain ⟨fs', htx, rfl⟩ := Option.map_eq_some_iff.1 hs
    refine ⟨h.tx fs' htx, nofun, fun d => ?_, h.denos, h.cacheTx fs' htx, nofun⟩
    have hd := h.dirs d
    rw [htx] at hd
    exact hd.commit
  case rollback =>
    obtain ⟨fs', htx, rfl⟩ := Option.map_eq_some_iff.1 hs
    exact ⟨h.fs, nofun, fun d => (h.dirs d).rollback, h.denos, h.cache, nofun⟩
  case callback d =>
    split at hs
    case h_2 => cases hs
    case h_1 c hcb =>
      obtain ⟨m', hdone, hok⟩ := (h.dirs d).callback hcb
      rw [hdone] at hs
      cases hs
      exact h.setDir hok
  case reload d =>
    obtain ⟨hcond, hs⟩ := Option.ite_none_right_eq_some.1 hs
    split at hs
    case h_1 m hok =>
      cases hs
      have hm := inodeReload_ok hfs hcond.2.1 hok
      rw [← Option.isNone_iff_eq_none.1 hcond.1] at hm
      exact h.setDir hm
    case h_2 =>
      cases hs
      exact h
    case h_3 => cases hs
  case stale d =>
    cases hs
    exact h.setDir (h.dirs d).stale
  case find d name enabled =>
    obtain ⟨hcond, hs⟩ := Option.ite_none_right_eq_some.1 hs
    have htx := Option.isNone_iff_eq_none.1 hcond.1
    rcases dirFind_spec (v := s.view) enabled name hfs h.cache ((h.dirs d).ready hcond.2) with
      ⟨i, v', hfind, hent, -⟩ | ⟨hfind, -⟩ | ⟨hfind, -⟩
    · rw [hfind] at hs
      cases hs
      exact ⟨h.fs, h.tx, h.dirs, hent.denos h.denos, hent.ok, fun fs' hfs' => by cases htx.symm.trans hfs'⟩
    · rw [hfind] at hs
      cases hs
      exact h
    · rw [hfind] at hs
      cases hs
      exact h
  case evict c =>
    cases hs
    have hsub : (s.cache.erase c).Sublist s.cache := List.erase_sublist
    exact ⟨h.fs, h.tx, h.dirs, h.denos.sublist (hsub.map _), fun c' hc => h.cache c' (hsub.subset hc),
      fun fs' htx c' hc => h.cacheTx fs' htx c' (hsub.subset hc)⟩

theorem inv_reachable (h : (indexSystem g hash).Reachable s) : Inv g hash s := by
  refine h.invariant (P := Inv g hash) ?_ fun _ _ _ _ hi hs => hi.step hs
  rintro _ ⟨now, rfl⟩
  exact Inv.init g hash now

/-! ## The index is the directory -/

/-- A lookup of a name other than `.` in a directory that is locked and not stale answers what the entry list says. -/
structure FindOk (g : Geometry) (hash : Name → UInt32) (s : State) (enabled : Bool) (d : Nat) (name : Name) : Prop where
  sound : ∀ r v, dirFind hash s.view enabled d name = .ok (r, v) → Listed g s.fs d name r.ino ∧ r = Found.mk' s.fs r.ino
  complete : ∀ f, dirFind hash s.view enabled d name = .error f →
    f = .errno .eagain ∧ (s.dirs d).stale = true ∨ f = .errno .enoent ∧ ∀ i, ¬ Listed g s.fs d name i

/-- What holds of the inodes in memory. -/
structure IndexOk (g : Geometry) (hash : Name → UInt32) (s : State) : Prop where
  rebuilt : ∀ d, (s.dirs d).stale = false → (s.dirs d).cb = .done → ∃ root, buildDindex g hash s.fs d = .ok root ∧
    (∀ h, ((s.dirs d).root h).Perm (root h)) ∧ (s.dirs d).size = (s.fs.inode d).size
  find : ∀ enabled d name, (s.dirs d).cb = .done → name ≠ [46] → FindOk g hash s enabled d name
  callback : ∀ d committed, (s.dirs d).cb = .ended committed → ∃ m, dirUpdateDone (s.dirs d) committed = .ok m
  asserts : ∀ op enabled f, (∀ d ∈ Op.dirs op, (s.dirs d).cb = .done) → exec g hash enabled s.view op = .error f →
    (∃ n, f = .errno n) ∨ Dir.exec g s.fs op = .error f

theorem Inv.findOk (h : Inv g hash s) (enabled : Bool) (hcb : (s.dirs d).cb = .done) (hdot : name ≠ [46]) :
    FindOk g hash s enabled d name := by
  obtain ⟨ents, hfs⟩ := h.fs
  have hr : Ready hash s.view d := (h.dirs d).ready hcb
  refine ⟨fun r v hok => ?_, fun f hf => ?_⟩
  · rcases dirFind_spec enabled name hfs h.cache hr with ⟨i, v', hfind, -, ⟨-, hd⟩ | ⟨e, ht⟩⟩ | ⟨hfind, -⟩ | ⟨hfind, -⟩
    · exact absurd hd hdot
    · cases hok.symm.trans hfind
      exact ⟨listed_of_tree hfs ht, rfl⟩
    · cases hok.symm.trans hfind
    · cases hok.symm.trans hfind
  · rcases dirFind_spec enabled name hfs h.cache hr with ⟨i, v', hfind, -⟩ | ⟨hfind, hst, hno⟩ | ⟨hfind, hst⟩
    · cases hf.symm.trans hfind
    · cases hf.symm.trans hfind
      refine .inr ⟨rfl, fun i hlisted => ?_⟩
      obtain ⟨e, ht⟩ := (listed_iff hfs (hr.fresh hst).type).1 hlisted
      exact hno i _ ⟨⟨e, ht⟩, rfl⟩
    · cases hf.symm.trans hfind
      exact .inl ⟨rfl, hst⟩

/-- In every run of operations, committed or rolled back, with any hash of the names: the index of a directory
that is loaded and has no callback pending has the chains of an index built anew, up to their order; a lookup
finds the entry the list has, if any; callbacks and records fail no assertion. -/
theorem dir_index_eq_directory (g : Geometry) (hash : Name → UInt32) (s : State)
    (h : (indexSystem g hash).Reachable s) : IndexOk g hash s := by
  have hinv := inv_reachable h
  obtain ⟨ents, hfs⟩ := hinv.fs
  refine ⟨fun d hst hcb => ?rebuilt, fun enabled d name hcb hdot => hinv.findOk enabled hcb hdot,
    fun d c hcb => ?callback, fun op enabled f hcb hf => ?asserts⟩
  case rebuilt =>
    have hr : Ready hash s.view d := (hinv.dirs d).ready hcb
    have hf := hr.fresh hst
    obtain ⟨root, hbuild, hix⟩ := buildDindex_indexes hash hfs hf.type
    exact ⟨root, hbuild, fun k => hf.index.perm hix k, hf.size⟩
  case callback =>
    obtain ⟨m, hm, -⟩ := (hinv.dirs d).callback hcb
    exact ⟨m, hm⟩
  case asserts =>
    have hr : ∀ d ∈ Op.dirs op, Ready hash s.view d := fun d hd => (hinv.dirs d).ready (hcb d hd)
    exact exec_error (v := s.view) hfs hinv.cache hr hf

/-- Two files are created in the root under one hash, the second is renamed over the first. -/
def collideRun : List Event :=
  [.reload 0, .op (.create firstFree rootStk [97] false 10) true, .commit, .callback 0,
    .op (.create firstFree rootStk [98] false 11) true, .rollback, .callback 0, .stale 0, .reload 0,
    .op (.create firstFree rootStk [98] false 12) true, .commit, .callback 0, .find 0 [97] true,
    .op (.rename firstFree false ⟨⟨4, 12, [98]⟩, [⟨0, 9, []⟩]⟩ ⟨⟨3, 10, [97]⟩, [⟨0, 9, []⟩]⟩ none) true, .commit, .callback 0]

theorem dir_index_eq_directory_collide : ∃ s, (indexSystem smallGeometry fun _ => 0).Reachable s ∧
    (((s.dirs 0).root 0).map Dxent.ino = [1, 4, 2] ∧ (s.dirs 0).stale = false ∧ (s.dirs 0).cb = .done) ∧
      IndexOk smallGeometry (fun _ => 0) s := by
  have hs := (indexSystem smallGeometry fun _ => 0).reachable_last ⟨mkfs 9, fun _ => .create, [], none⟩ collideRun ⟨9, rfl⟩
    (by decide +kernel)
  exact ⟨_, hs, by decide +kernel, dir_index_eq_directory _ _ _ hs⟩

end PolarFs.Dir.Index
