/-
`pfs_namei_lookup` resolves a path as one does component by component in the directories: the same inode or the same
error at the same place, whatever the name cache and the indexes in memory hold. While it goes, its string is
the path of the inode on top of the stack, as `pfs_dir_path` writes it.
-/
import PolarFs.Dir.NameiWalk
import PolarFs.Dir.NameCoherence

namespace PolarFs.Dir.Namei

open CString
open PolarFs.Meta (InodeType)
open Index (View)

section

variable {g : Geometry} {hash : Name → UInt32} {fs : Fs} {pbd : Name} {cur room : Nat} {v : View} {w : Walk}
  {tgt : InodeType}

/-! ## The end of a lookup -/

theorem Ended.spelled {res : Resolution} (h : Ended g hash fs pbd tgt w res) : Spelled fs pbd w.ni.instk := by
  cases res with
  | found i => exact h.1.toStands.spelled
  | missing d name => exact h.1.toStands.spelled
  | broken last e => exact h.toStands.spelled

theorem Stands.instkTop_eq (h : Stands g hash fs pbd tgt w cur room) :
    instkTop w.ni.instk = .ok ⟨cur, (fs.inode cur).btime⟩ ∧
      ∃ par, instkParentOfTop w.ni.instk = .ok par ∧ par.ino = parentOf fs cur := by
  obtain ⟨ents, hi⟩ := h.view.inv
  obtain ⟨s, hs, -⟩ := h.stk
  have hspells := hs.spells
  have htop := h.top
  unfold instkTop instkParentOfTop
  generalize w.ni.instk.vec = vec at hspells htop
  cases hspells with
  | root =>
    cases htop
    exact ⟨rfl, _, rfl, rfl⟩
  | @sub p vec s e i name _ ht _ _ =>
    cases htop
    exact ⟨rfl, p, rfl, (parentOf_eq hi ht).symm⟩

theorem Ended.finish {res : Resolution} {oflags : Oflags} (h : Ended g hash fs pbd tgt w res)
    (hcreat : oflags.creat = true → tgt ≠ .none) :
    ∃ r, nameiFinish oflags w = .ok r ∧ r.Gives (answer fs tgt oflags res) ∧ r.ni.instk = w.ni.instk := by
  cases res with
  | missing d name =>
    obtain ⟨hm, hbroken⟩ := h
    have herr : w.err = some .enoent := hm.err
    have hino : w.ni.ino = none := hm.ino
    have htgt : w.ni.tgtType = tgt := hm.tgt
    have htop : instkTop w.ni.instk = _ := hm.toStands.instkTop_eq.1
    refine ⟨⟨some .enoent, { w.ni with parBtime := (fs.inode d).btime }, w.view, some d, none, some w.type⟩, ?_,
      ⟨rfl, hbroken, hm.par, hm.srchName, hino, rfl, rfl⟩, rfl⟩
    rw [nameiFinish, herr]
    dsimp only
    rw [if_pos ⟨rfl, hbroken⟩, verify_bind hino, verify_bind fun hc => htgt ▸ hcreat hc, htop]
    rfl
  | broken last e =>
    have hbroken : w.ni.brokenPath = true := h.brokenPath
    refine ⟨⟨some e, w.ni, w.view, none, none, none⟩, ?_, ⟨rfl, fun _ => hbroken, _, h.top, rfl⟩, rfl⟩
    rw [nameiFinish, h.err]
    dsimp only
    rw [if_neg fun hc => by rw [hbroken] at hc; cases hc.2]
  | found i =>
    obtain ⟨hat, hbroken⟩ := h
    have herr : w.err = none := hat.err
    have hino : w.ni.ino = some i := hat.ino
    have htgt : w.ni.tgtType = tgt := hat.tgt
    have htype : w.type = (fs.inode i).type := hat.type
    have htop : w.ni.instk.vec.head? = _ := hat.top
    have hnone := hat.toStands.linked.1
    obtain ⟨htop', par, hpar, hparino⟩ := hat.toStands.instkTop_eq
    dsimp only at htop' hpar
    have hrun : nameiFinish oflags w =
        if oflags.excl = true ∧ oflags.creat = true then .ok ⟨some .eexist, w.ni, w.view, none, none, none⟩
        else if tgt ≠ .none ∧ (fs.inode i).type ≠ tgt then
          .ok ⟨some (if (fs.inode i).type = .dir then .eisdir else .enotdir), w.ni, w.view, none, none, none⟩
        else .ok ⟨none, { w.ni with parBtime := par.btime, btime := (fs.inode i).btime }, w.view, some par.ino, some i,
          some (fs.inode i).type⟩ := by
      simp [nameiFinish, herr, hbroken, hino, htype, htgt, hnone, hpar, htop', verify, bind, Except.bind, pure, Except.pure]
    rw [hrun, answer]
    by_cases hexcl : oflags.excl = true ∧ oflags.creat = true
    · rw [if_pos hexcl, if_pos hexcl]
      exact ⟨_, rfl, ⟨rfl, by simp, _, htop, rfl⟩, rfl⟩
    rw [if_neg hexcl, if_neg hexcl]
    by_cases hty : tgt ≠ .none ∧ (fs.inode i).type ≠ tgt
    · rw [if_pos hty, if_pos hty]
      refine ⟨_, rfl, ⟨rfl, fun he => ?_, _, htop, rfl⟩, rfl⟩
      split at he <;> cases he
    · rw [if_neg hty, if_neg hty]
      exact ⟨_, rfl, ⟨rfl, hbroken, hino, congrArg some hparino, rfl, rfl⟩, rfl⟩

/-! ## The path -/

/-- Of the paths with a device and something behind it, those within the limits. A slash at the end asks for a
directory. -/
structure Accepted (wd : WorkDir) (path : CStr) (type : InodeType) (pbd : Name) (comps : List Name) : Prop where
  nonempty : path.bytes ≠ []
  based : path.bytes.head? = some slash ∨ wd.bytes ≠ []
  short : (fullPath wd path).length < maxPathlen
  parts : pieces slash (fullPath wd path) = pbd :: comps
  behind : comps ≠ [] ∨ (fullPath wd path).getLast? = some slash
  pbdShort : pbd.length < maxPbdlen
  form : (fullPath wd path).getLast? = some slash → type ≠ .file

/-- The type a path asks for. -/
def wanted (wd : WorkDir) (path : CStr) (type : InodeType) : InodeType :=
  if (fullPath wd path).getLast? = some slash then .dir else type

/-- A full path, cut behind the name of the device. -/
structure Cut (buf pbd rest : List UInt8) : Prop where
  take : (buf.tail.dropWhile (· = slash)).takeWhile (· ≠ slash) = pbd
  drop : (buf.tail.dropWhile (· = slash)).dropWhile (· ≠ slash) = slash :: rest
  mem : slash ∈ buf.tail.dropWhile (· = slash)
  pos : 0 < pbd.length
  parts : pieces slash buf = pbd :: pieces slash rest
  behind : pieces slash rest ≠ [] ∨ buf.getLast? = some slash
  last : (slash :: rest).getLast? = buf.getLast?
  length : pbd.length + rest.length + 2 ≤ buf.length
  sub : pbd ++ rest ⊆ buf

theorem cut_cases (t : List UInt8) :
    (∃ pbd rest, Cut (slash :: t) pbd rest) ∨ (slash ∉ t.dropWhile (· = slash) ∧
      ∀ pbd comps, pieces slash (slash :: t) = pbd :: comps → comps = [] ∧ (slash :: t).getLast? ≠ some slash) := by
  obtain ⟨pre, hpre⟩ : ∃ pre, t = pre ++ t.dropWhile (· = slash) :=
    ⟨_, (List.takeWhile_append_dropWhile (p := fun b => decide (b = slash)) (l := t)).symm⟩
  have hpieces : pieces slash (slash :: t) = pieces slash (t.dropWhile (· = slash)) := by
    rw [pieces_cons_self, pieces_dropWhile]
  have hhead : ∀ b ∈ (t.dropWhile (· = slash)).head?, b ≠ slash := by
    intro b hb
    have := List.head?_dropWhile_not (fun b => decide (b = slash)) t
    rw [Option.mem_def.1 hb] at this
    simpa using this
  have hlast : t.dropWhile (· = slash) ≠ [] → (slash :: t).getLast? = (t.dropWhile (· = slash)).getLast? := by
    intro hne
    nth_rewrite 1 [hpre]
    rw [← List.cons_append, List.getLast?_append_of_ne_nil _ hne]
  have hsub : t.dropWhile (· = slash) ⊆ slash :: t := fun b hb =>
    List.mem_cons_of_mem _ ((List.dropWhile_sublist _).subset hb)
  have hlen : (t.dropWhile (· = slash)).length ≤ t.length := (List.dropWhile_sublist _).length_le
  rcases takeWhile_cases slash (t.dropWhile (· = slash)) with ⟨hno, -⟩ | ⟨pbd, rest, hpbd, hnm, htake, hdrop⟩
  · refine .inr ⟨hno, fun pbd comps hp => ?_⟩
    rw [hpieces] at hp
    have hne : t.dropWhile (· = slash) ≠ [] := by
      intro hnil
      rw [hnil] at hp
      cases hp
    rw [pieces_eq_singleton hno hne] at hp
    cases hp
    refine ⟨rfl, fun hl => hno ?_⟩
    rw [hlast hne] at hl
    exact List.mem_of_getLast? hl
  · have hne : pbd ≠ [] := by
      rintro rfl
      rw [hnm] at hhead
      exact hhead slash rfl rfl
    have hlast' : (slash :: rest).getLast? = (slash :: t).getLast? := by
      rw [hlast (by rw [hnm]; simp), hnm, List.getLast?_append_of_ne_nil _ (List.cons_ne_nil _ _)]
    refine .inl ⟨pbd, rest, htake, hdrop, by rw [List.tail_cons, hnm]; simp, List.length_pos_iff.2 hne, ?_, ?_, hlast', ?_, ?_⟩
    · rw [hpieces, hnm, pieces_append hpbd hne]
    · by_cases hp : pieces slash rest = []
      · obtain ⟨b, hb⟩ : ∃ b, (slash :: rest).getLast? = some b := ⟨_, List.getLast?_eq_some_getLast (List.cons_ne_nil _ _)⟩
        have hall := pieces_eq_nil ((pieces_cons_self slash rest).trans hp)
        rw [← hlast', hb, hall b (List.mem_of_getLast? hb)]
        exact .inr rfl
      · exact .inl hp
    · rw [hnm] at hlen
      simp only [List.length_append, List.length_cons] at hlen ⊢
      omega
    · intro b hb
      refine hsub ?_
      rw [hnm]
      rw [List.mem_append] at hb ⊢
      exact hb.imp_right (List.mem_cons_of_mem _)

theorem fullPath_eq (wd : WorkDir) (path : CStr) (h : path.bytes.head? = some slash ∨ wd.bytes ≠ []) :
    ∃ t, fullPath wd path = slash :: t ∧ 0 ∉ fullPath wd path := by
  unfold fullPath
  by_cases habs : path.bytes.head? = some slash
  · rw [if_pos habs]
    obtain ⟨t, ht⟩ := List.head?_eq_some_iff.1 habs
    exact ⟨t, ht, path.noNul⟩
  · rw [if_neg habs]
    obtain ⟨b, t, ht⟩ := List.exists_cons_of_ne_nil (h.resolve_left habs)
    have hb : b = slash := wd.abs b (by rw [ht]; rfl)
    refine ⟨t ++ slash :: path.bytes, by rw [ht, hb, List.cons_append], ?_⟩
    rw [List.mem_append, List.mem_cons, not_or, not_or]
    exact ⟨wd.noNul, by decide, path.noNul⟩

/-- What `pfs_namei_init` leaves of an accepted path. -/
structure Parsed (wd : WorkDir) (path : CStr) (type : InodeType) (ni : Nameinfo) (comps : List Name) : Prop where
  accepted : Accepted wd path type ni.pbd comps
  tokens : tokens slash ni.path = comps
  fits : ni.pbd.length + 1 + weight comps < maxPathlen
  noNul : 0 ∉ ni.pbd
  names : ∀ name ∈ comps, slash ∉ name ∧ 0 ∉ name
  start : ni = ⟨ni.pbd, ni.path, [], 0, some 0, 0, 0, wanted wd path type, true, .init⟩

/-- `pfs_namei_init` accepts the paths within the limits and fails no assertion. -/
theorem nameiInit_cases (wd : WorkDir) (path : CStr) (type : InodeType) :
    (∃ ni comps, nameiInit wd path type = .ok ni ∧ Parsed wd path type ni comps) ∨
      ∃ e, nameiInit wd path type = .error (.errno e) ∧ ∀ pbd comps, ¬ Accepted wd path type pbd comps := by
  unfold nameiInit
  by_cases hne : path.bytes = []
  · exact .inr ⟨.einval, ensure_bind_error (not_not.2 hne), fun _ _ ha => ha.nonempty hne⟩
  rw [ensure_bind hne]
  by_cases hbased : path.bytes.head? = some slash ∨ wd.bytes ≠ []
  swap
  · exact .inr ⟨.enoent, ensure_bind_error hbased, fun _ _ ha => hbased ha.based⟩
  rw [ensure_bind hbased]
  obtain ⟨t, ht, hnul⟩ := fullPath_eq wd path hbased
  by_cases hshort : (fullPath wd path).length < maxPathlen
  swap
  · exact .inr ⟨.enametoolong, ensure_bind_error hshort, fun _ _ ha => hshort ha.short⟩
  rw [ensure_bind hshort, verify_bind (by rw [ht]; rfl)]
  rcases cut_cases t with ⟨pbd, rest, hcut⟩ | ⟨hno, hparts⟩
  swap
  · rw [← ht] at hparts
    refine .inr ⟨.einval, ensure_bind_error (by rwa [ht, List.tail_cons]), fun pbd comps ha => ?_⟩
    obtain ⟨hnil, hlast⟩ := hparts pbd comps ha.parts
    rcases ha.behind with hb | hb
    · exact hb hnil
    · exact hlast hb
  rw [← ht] at hcut
  rw [ensure_bind hcut.mem, hcut.take, hcut.drop, verify_bind hcut.pos, verify_bind (List.head?_cons), hcut.last]
  by_cases hpbd : pbd.length < maxPbdlen
  swap
  · refine .inr ⟨.enametoolong, ensure_bind_error hpbd, fun _ _ ha => hpbd ?_⟩
    cases ha.parts.symm.trans hcut.parts
    exact ha.pbdShort
  rw [ensure_bind hpbd]
  by_cases hform : (fullPath wd path).getLast? = some slash → type ≠ .file
  swap
  · exact .inr ⟨.eisdir, ensure_bind_error hform, fun _ _ ha => hform ha.form⟩
  rw [ensure_bind hform]
  have hweight := weight_pieces_cons slash rest
  have hlen := hcut.length
  rw [pieces_cons_self, List.length_cons] at hweight
  refine .inl ⟨_, pieces slash rest, rfl, ⟨hne, hbased, hshort, hcut.parts, hcut.behind, hpbd, hform⟩, ?_, ?_, ?_, ?_, rfl⟩
  · dsimp only
    rw [tokens_eq_pieces, pieces_cons_self]
  · dsimp only
    omega
  · exact fun h0 => hnul (hcut.sub (List.mem_append_left _ h0))
  · intro name hname
    obtain ⟨-, hsl, hsub⟩ := mem_pieces hname
    exact ⟨hsl, fun h0 => hnul (hcut.sub (List.mem_append_right _ (hsub h0)))⟩

/-! ## Lookups -/

theorem stkOk_root (fs : Fs) (hnul : 0 ∉ pbd) (hlen : pbd.length + 2 < maxPathlen) :
    ∃ stk, instkPush .init 0 (fs.inode 0).btime pbd = .ok stk ∧ stk.vec = [⟨0, (fs.inode 0).btime⟩] ∧
      StkOk fs pbd stk (slash :: pbd) := by
  refine ⟨⟨[⟨0, (fs.inode 0).btime⟩], store (print (List.replicate maxPathlen 0) 0 (slash :: pbd)) (pbd.length + 1) [slash],
    pbd.length + 1⟩, ?_, rfl, .root, ?_, rfl⟩
  · rw [instkPush, verify_bind, verify_bind]
    · simp [Instk.init, pure, Except.pure]
    · simp only [Instk.init]
      omega
    · exact fun _ => ⟨str_replicate _, rfl⟩
  · have h0 : (0 : UInt8) ∉ slash :: pbd := List.not_mem_cons_of_ne_of_not_mem (by decide) hnul
    exact isStr_append_byte h0 (by decide) (by rw [List.length_cons]; omega)

theorem Parsed.start_at {wd : WorkDir} {path : CStr} {type : InodeType} {ni : Nameinfo} {comps : List Name}
    (hp : Parsed wd path type ni comps) (hv : ViewOk g hash fs v) :
    ∃ w, nameiStart v ni.pbd ni = .ok w ∧ At g hash fs ni.pbd (wanted wd path type) w 0 (weight comps) := by
  obtain ⟨ents, hi⟩ := hv.inv
  have hfits := hp.fits
  have hlen : ni.pbd.length + 2 < maxPathlen := by
    have hshort := hp.accepted.pbdShort
    unfold maxPbdlen at hshort
    unfold maxPathlen
    omega
  obtain ⟨stk, hpush, hvec, hstk⟩ := stkOk_root fs hp.noNul hlen
  refine ⟨⟨{ ni with instk := stk }, v, .dir, none, none⟩, ?_, ⟨hv, ⟨_, hstk, ?_, ?_⟩, ?_, ?_⟩, ?_, ?_, hi.inRoot.1.symm, ?_, rfl, rfl⟩
  · have hinstk : ni.instk = .init := by rw [hp.start]
    rw [nameiStart, hinstk, hv.same, hpush]
    rfl
  · rw [List.length_cons]
    omega
  · refine lt_of_le_of_lt (length_rooted_le ..) ?_
    rw [List.length_cons]
    omega
  · dsimp only
    rw [hvec]
    rfl
  · rw [hp.start]
  · rw [hp.start]
  · rw [hp.start]
    rfl
  · rw [hp.start]

end

/-- No transaction is open and no callback pending: nothing changes while a lookup goes on. -/
structure Quiet (s : Index.State) : Prop where
  tx : s.tx = none
  done : ∀ d, (s.dirs d).cb = .done

theorem viewOk_of_quiet {g : Geometry} {hash : Name → UInt32} {s : Index.State} (h : Index.Inv g hash s) (hq : Quiet s) :
    ViewOk g hash s.fs s.view :=
  ⟨rfl, h.fs, h.cache, fun d => (h.dirs d).ready (hq.done d)⟩

/-- What holds of the lookup of a path. -/
structure LookupOk (g : Geometry) (hash : Name → UInt32) (s : Index.State) (enabled : Bool) (wd : WorkDir) (path : CStr)
    (type : InodeType) (oflags : Oflags) : Prop where
  rejected : ∀ f, nameiInit wd path type = .error f →
    (∃ e, f = .errno e) ∧ ∀ pbd comps, ¬ Accepted wd path type pbd comps
  resolved : ∀ ni, nameiInit wd path type = .ok ni → ∃ comps r, Accepted wd path type ni.pbd comps ∧
    nameiLookup g hash enabled s.view ni.pbd oflags ni = .ok r ∧
    r.Gives (answer s.fs (wanted wd path type) oflags (resolve g s.fs 0 comps)) ∧ Spelled s.fs ni.pbd r.ni.instk
  spelled : ∀ ni w, nameiInit wd path type = .ok ni → nameiStart s.view ni.pbd ni = .ok w →
    ∀ w' ∈ nameiTurns g hash enabled (tokens slash ni.path) w, Spelled s.fs ni.pbd w'.ni.instk

/-- In every state the directories and the memory of a node can get to, while nothing changes: the lookup of any path within
the limits, with any of `.`, `..` and slashes, gives what resolving its components one by one gives, and the string on
the stack is always the path of the inode on top. A file is created only with its type. -/
theorem namei_lookup_resolves (g : Geometry) (hash : Name → UInt32) (s : Index.State)
    (h : (Index.nodeSystem g hash).Reachable s) (hq : Quiet s) (enabled : Bool) (wd : WorkDir) (path : CStr)
    (type : InodeType) (oflags : Oflags) (hcreat : oflags.creat = true → type ≠ .none) :
    LookupOk g hash s enabled wd path type oflags := by
  have hv := viewOk_of_quiet (Index.node_inv_reachable h) hq
  have hwanted : oflags.creat = true → wanted wd path type ≠ .none := by
    intro hc
    unfold wanted
    split
    · nofun
    · exact hcreat hc
  rcases nameiInit_cases wd path type with ⟨ni, comps, hinit, hp⟩ | ⟨e, hinit, hno⟩
  · obtain ⟨w, hstart, hat⟩ := hp.start_at hv
    refine ⟨fun f hf => (nomatch hinit.symm.trans hf), fun ni' hni' => ?_, fun ni' w' hni' hw' => ?_⟩
    · cases hinit.symm.trans hni'
      obtain ⟨w₁, hloop, hended⟩ := At.loop enabled hat hp.names
      obtain ⟨r, hfinish, hgives, hstk⟩ := hended.finish hwanted
      refine ⟨comps, r, hp.accepted, ?_, hgives, ?_⟩
      · rw [nameiLookup, hstart, hp.tokens]
        exact (congrArg (· >>= nameiFinish oflags) hloop).trans hfinish
      · rw [hstk]
        exact hended.spelled
    · cases hinit.symm.trans hni'
      cases hstart.symm.trans hw'
      rw [hp.tokens]
      exact hat.turns hp.names
  · refine ⟨fun f hf => ?_, fun ni hni => ?_, fun ni w hni => ?_⟩
    · cases hinit.symm.trans hf
      exact ⟨⟨e, rfl⟩, hno⟩
    · cases hinit.symm.trans hni
    · cases hinit.symm.trans hni

/-- `/d//../.pfs-journal/.`: the journal is a file. -/
def journalPath : CStr where
  bytes := [47, 100, 47, 47, 46, 46, 47, 46, 112, 102, 115, 45, 106, 111, 117, 114, 110, 97, 108, 47, 46]
  noNul := by decide

def noWorkDir : WorkDir where
  bytes := []
  noNul := by decide
  short := by decide
  abs := nofun

/-- `/d/b/c/../c//f`: `c` was made in the root and moved. -/
def movedPath : CStr where
  bytes := [47, 100, 47, 98, 47, 99, 47, 46, 46, 47, 99, 47, 47, 102]
  noNul := by decide

theorem namei_lookup_resolves_moved : ∃ fs, (dirSystem smallGeometry).Reachable fs ∧
    (resolve smallGeometry fs 0 ((pieces slash (fullPath noWorkDir movedPath)).tail) = .found 4 ∧
      LookupOk smallGeometry (fun _ => 0) ⟨fs, fun _ => .create, [], none⟩ true noWorkDir movedPath .file ⟨true, true⟩) ∧
    resolve smallGeometry fs 0 ((pieces slash (fullPath noWorkDir journalPath)).tail) = .broken 2 .enotdir ∧
      LookupOk smallGeometry (fun _ => 0) ⟨fs, fun _ => .create, [], none⟩ true noWorkDir journalPath .file ⟨true, true⟩ := by
  have hs := (dirSystem smallGeometry).reachable_last (mkfs 9) moveRun ⟨9, rfl⟩ (by decide +kernel)
  have hok (path : CStr) :=
    namei_lookup_resolves smallGeometry (fun _ => 0) _ (.init ⟨_, hs, rfl⟩) ⟨rfl, fun _ => rfl⟩ true noWorkDir path .file
      ⟨true, true⟩ fun _ => by decide
  exact ⟨_, hs, ⟨by decide +kernel, hok movedPath⟩, by decide +kernel, hok journalPath⟩

end PolarFs.Dir.Namei
