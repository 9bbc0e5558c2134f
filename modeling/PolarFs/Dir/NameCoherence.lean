/-
The name cache of a node. A writer changes directories in transactions of its own, and forgets the entry of
a direntry that it takes out of a directory at once, whether the transaction commits or not. A follower replays
the transactions of the log under the metadata lock (`pfs_txlist_replay`): the entry of each direntry of a
transaction is forgotten (`pfs_metaobj_redo_direntry`), each of its directories in memory goes stale
(`pfs_meta_inode_change`). Lookups enter names in between. A node here does both, in any order.
-/
import PolarFs.Dir.IndexInvariant
import PolarFs.Dir.ListEdits
import PolarFs.Dir.NameCacheMap

namespace PolarFs.Dir.Index

variable {g : Geometry} {hash : Name → UInt32} {fs fs' : Fs} {ents : Nat → List Nat} {d e i : Nat} {name : Name}
  {s s' : State} {op : Op} {x : DxRoot × UInt64} {cache : List CacheEnt}

/-! ## Replaying -/

/-- The direntries that an operation takes out of a directory. Its transaction logs them. -/
def Op.taken (fs : Fs) : Op → List Nat
  | .remove _ stk _ => (fs.inode stk.top.ino).deno.toList
  | .rename _ _ ostk nstk newname =>
    (fs.inode ostk.top.ino).deno.toList ++ if newname = none then (fs.inode nstk.top.ino).deno.toList else []
  | .create .. | .release .. | .file .. => []

/-- The inodes of directories that an operation writes. Its transaction logs them. -/
def Op.written : Op → List Nat
  | .release ino _ => [ino]
  | op => Op.dirs op

/-- The redo of a transaction that has made `fs` of the metadata: `pfs_namecache_delete_by_deno` for its direntries,
`pfs_inode_mark_stale` for its directories. -/
def State.redo (s : State) (fs : Fs) (denos inos : List Nat) : State :=
  { s with
    fs := fs
    dirs := fun d => if d ∈ inos then { s.dirs d with stale := true } else s.dirs d
    cache := denos.foldl deleteByDeno s.cache }

inductive NodeEvent where
  /-- a step that is not told by the log -/
  | own (ev : Event)
  /-- `pfs_tx_replay` of an operation's transaction, with the other direntries and inodes in it -/
  | replay (op : Op) (denos inos : List Nat)

def nodeStep (g : Geometry) (hash : Name → UInt32) (s : State) : NodeEvent → Option State
  | .own ev => step g hash s ev
  | .replay op denos inos =>
    if s.tx.isNone then
      match Dir.exec g s.fs op with
      | .ok fs => some (s.redo fs (Op.taken s.fs op ++ denos) (Op.written op ++ inos))
      | .error _ => none
    else none

/-- A node mounts an image with nothing in memory. -/
def nodeSystem (g : Geometry) (hash : Name → UInt32) : Transition.System State NodeEvent where
  init s := ∃ fs, (dirSystem g).Reachable fs ∧ s = ⟨fs, fun _ => .create, [], none⟩
  step := nodeStep g hash

/-! ## What a transaction leaves alone -/

theorem replace_same {al : Alloc} {n : Option Nat} {nd : Nat} (h : DirInv g fs ents)
    (hok : Dir.dirReplace g al fs nd n = .ok fs')
    (hold : ∀ i, n = some i → ∀ e, (fs.inode i).deno = some e → (fs.de e).dirino = some nd) (hd : d ≠ nd)
    (ht : (fs.inode d).type = .dir) : Same fs fs' d := by
  cases n with
  | none =>
    cases hok
    exact .refl ht
  | some i =>
    obtain ⟨isdir, hdel⟩ := dirReplace_some hok
    obtain ⟨e, hrem, -⟩ := h.dirDel_removed hdel (hold i rfl)
    obtain ⟨i', nm, htree, hi', -, -⟩ := h.treeOf_primary (hold i rfl e hrem.deno)
    obtain rfl : i = i' := Option.some.inj ((h.linked i e hrem.deno).2.2.1.symm.trans hi')
    exact removed_same h hrem htree hd ht

theorem exec_same (h : DirInv g fs ents) (hok : Dir.exec g fs op = .ok fs') (hd : d ∉ Op.written op)
    (ht : (fs.inode d).type = .dir) : Same fs fs' d := by
  have hmax := g.maxnamelen_le
  cases op with
  | create al stk name isdir btime =>
    simp only [Dir.exec, Dir.memdirCreate, bind_eq_ok, ensure_eq_ok] at hok
    obtain ⟨-, hlen, -, -, -, -, hadd⟩ := hok
    obtain ⟨e, i, inode, -, ha⟩ := h.dirAdd_added hadd (by omega)
    exact added_same h ha (fun heq => hd (List.mem_singleton.2 heq)) ht
  | remove al stk isdir =>
    simp only [Dir.exec, Dir.memdirXremove, bind_eq_ok, ensure_eq_ok] at hok
    obtain ⟨u, hpath, -, h0, hdel⟩ := hok
    obtain ⟨e, hrem, -⟩ := h.dirDel_removed hdel fun e he => (h.parent hpath h0 he).1
    exact removed_same h hrem (tree_of_path h hpath h0 hrem.deno) (fun heq => hd (List.mem_singleton.2 heq)) ht
  | rename al isdir ostk nstk newname =>
    obtain ⟨hdo, hdn⟩ : d ≠ ostk.parent.ino ∧ d ≠ if newname.isSome then nstk.top.ino else nstk.parent.ino := by
      simpa [Op.written, Op.dirs] using hd
    rcases h.memdirXrename_cases hok with rfl | ⟨n, name, e, hr, -⟩
    · exact .refl ht
    obtain ⟨fs₁, hreplace, hcleared, hmove⟩ := hr.cleared h
    obtain ⟨ents₁, h₁⟩ := hcleared.inv
    have hsame := replace_same h hreplace (fun i hi e he => (hr.old i hi e he).1) hdn ht
    have hdir := hcleared.dirino.trans hr.dirino
    obtain ⟨o, nm, htree, ho, -, -⟩ := h₁.treeOf_primary hdir
    obtain rfl := Option.some.inj (ho.symm.trans hcleared.ino)
    exact hsame.trans (moved_same h₁ (h₁.dirMove_moved hmove hcleared.deno hdir hr.len) htree hdo hdn hsame.type)
  | release ino btime => exact (release_same h hok).2 d (fun heq => hd (List.mem_singleton.2 heq)) ht
  | file ino head tail size => exact (file_same h hok).2 d ht

theorem mem_taken (h : op.takes fs e) : e ∈ Op.taken fs op := by
  cases op with
  | remove al stk isdir => exact Option.mem_toList.2 h
  | rename al isdir ostk nstk newname =>
    rcases h with h | ⟨rfl, h⟩
    · exact List.mem_append_left _ (Option.mem_toList.2 h)
    · exact List.mem_append_right _ (Option.mem_toList.2 h)
  | create | release | file => cases h

theorem exec_tree (h : DirInv g fs ents) (hok : Dir.exec g fs op = .ok fs') (he : e ∉ Op.taken fs op)
    (ht : treeOf fs.de e = some ⟨i, d, name⟩) : treeOf fs'.de e = some ⟨i, d, name⟩ := by
  obtain ⟨ents', h'⟩ := h.exec hok
  have hdirino := (treeOf_eq_some.1 ht).1
  obtain ⟨-, hdir, hlink, -, -⟩ := h.primary e d hdirino
  have hmem : e ∈ ents d := (h.mem d e).2 hdirino
  obtain ⟨-, gone, hgone, ⟨new, hlist, -⟩, hsame⟩ := h.exec_edit h' hok hdir hlink
  have hnot : e ∉ gone := fun hg => he (mem_taken (hgone e hg))
  have hmem' : e ∈ ents' d := by
    rw [hlist]
    exact List.mem_append_left _ (List.mem_filter.2 ⟨hmem, by simpa using hnot⟩)
  obtain ⟨i', nm, -, -, ht'⟩ := h'.holds_of_mem hmem'
  have hread := hsame e hmem hnot
  rw [dirent_of_tree ht, dirent_of_tree ht'] at hread
  obtain ⟨rfl, -, rfl⟩ := Dirent.mk.inj (Option.some.inj hread)
  exact ht'

/-! ## The invariant of a node -/

theorem foldl_deleteByDeno (denos : List Nat) : ∀ {cache : List CacheEnt}, (cache.map CacheEnt.deno).Nodup →
    (denos.foldl deleteByDeno cache).Sublist cache ∧ ∀ c ∈ denos.foldl deleteByDeno cache, c.deno ∉ denos := by
  induction denos with
  | nil => exact fun _ => ⟨.refl _, fun _ _ => List.not_mem_nil⟩
  | cons e denos ih =>
    intro cache hnd
    have hsub : (deleteByDeno cache e).Sublist cache := List.eraseP_sublist
    obtain ⟨hsub', hnot⟩ := ih (hnd.sublist (hsub.map _))
    refine ⟨hsub'.trans hsub, fun c hc hmem => ?_⟩
    rcases List.mem_cons.1 hmem with heq | hmem
    · exact (deleteByDeno_ok hnd (hsub'.subset hc)).2 heq
    · exact hnot c hc hmem

theorem Inv.redo {denos inos : List Nat} (h : Inv g hash s) (htx : s.tx = none) (hok : Dir.exec g s.fs op = .ok fs')
    (hdenos : Op.taken s.fs op ⊆ denos) (hinos : Op.written op ⊆ inos) : Inv g hash (s.redo fs' denos inos) := by
  obtain ⟨ents, hfs⟩ := h.fs
  obtain ⟨hsub, hnot⟩ := foldl_deleteByDeno denos h.denos
  refine ⟨hfs.exec hok, by rw [State.redo, htx]; nofun, fun d => ?dirs, h.denos.sublist (hsub.map _), fun c hc => ?cache,
    by rw [State.redo, htx]; nofun⟩
  case dirs =>
    obtain ⟨hdone, hin, x, hx, hfresh⟩ := h.dirs d
    simp only [State.redo, htx] at hin ⊢
    by_cases hd : d ∈ inos
    · rw [if_pos hd]
      exact ⟨hdone, hin, x, hx, nofun⟩
    · rw [if_neg hd]
      refine ⟨hdone, hin, x, hx, fun hst => ⟨?_, nofun⟩⟩
      have hf := (hfresh hst).1
      exact hf.same (exec_same hfs hok (fun hw => hd (hinos hw)) hf.type)
  case cache => exact exec_tree hfs hok (fun ht => hnot c hc (hdenos ht)) (h.cache c (hsub.subset hc))

theorem node_inv_reachable (h : (nodeSystem g hash).Reachable s) : Inv g hash s := by
  refine h.invariant (P := Inv g hash) ?_ ?_
  · rintro _ ⟨fs, hfs, rfl⟩
    exact ⟨dirInv_reachable g hfs, nofun, fun _ => ⟨fun _ => rfl, nofun, _, rfl, nofun⟩, List.nodup_nil, nofun, nofun⟩
  · rintro s (ev | ⟨op, denos, inos⟩) s' - hinv hstep
    · exact hinv.step hstep
    · simp only [nodeSystem, nodeStep] at hstep
      obtain ⟨htx, hstep⟩ := Option.ite_none_right_eq_some.1 hstep
      split at hstep
      case h_2 => cases hstep
      case h_1 fs hok =>
        cases hstep
        exact hinv.redo (Option.isNone_iff_eq_none.1 htx) hok (List.subset_append_left ..) (List.subset_append_left ..)

/-! ## The name cache -/

/-- What holds of the name cache: an entry is one of its directory, also for the thread of an open transaction; a
hit is what an index built from the directory finds, and what the index in memory finds; a name that the
directory does not have is not found. -/
structure Coherent (g : Geometry) (hash : Name → UInt32) (s : State) : Prop where
  entry : ∀ c ∈ s.cache, Listed g s.fs c.parent c.name c.ino ∧
    ∀ fs, s.tx = some fs → Listed g fs c.parent c.name c.ino
  hit : ∀ enabled d name i, name ≠ [46] → namecacheLookup s.cache enabled d name = some i → ∃ e,
    (∃ root, buildDindex g hash s.fs d = .ok root ∧ dxFind s.fs name (root (hash name)) = .ok (i, e)) ∧
    ((s.dirs d).stale = false → (s.dirs d).cb = .done → dxFind s.fs name ((s.dirs d).root (hash name)) = .ok (i, e))
  absent : ∀ enabled d name, name ≠ [46] → (∀ i, ¬ Listed g s.fs d name i) → namecacheLookup s.cache enabled d name = none

theorem Fresh.dxFind_tree (hf : Fresh hash fs d x) (h : DirInv g fs ents) (ht : treeOf fs.de e = some ⟨i, d, name⟩) :
    Index.dxFind fs name (x.1 (hash name)) = .ok (i, e) := by
  rcases hf.dxFind h name with ⟨i', e', hfind, ht'⟩ | ⟨-, hno⟩
  · obtain rfl := h.tree.nameInj ht ht' rfl rfl
    cases ht.symm.trans ht'
    exact hfind
  · exact absurd ⟨⟨e, ht⟩, rfl⟩ (hno i _)

/-- In every run of a node the name cache agrees with the directories. -/
theorem name_cache_coherent (g : Geometry) (hash : Name → UInt32) (s : State) (h : (nodeSystem g hash).Reachable s) :
    Coherent g hash s := by
  have hinv := node_inv_reachable h
  obtain ⟨ents, hfs⟩ := hinv.fs
  refine ⟨fun c hc => ⟨listed_of_tree hfs (hinv.cache c hc), fun fs htx => ?_⟩, fun enabled d name i hdot hlook => ?_,
    fun enabled d name hdot hno => ?_⟩
  · obtain ⟨ents', hfs'⟩ := hinv.tx fs htx
    exact listed_of_tree hfs' (hinv.cacheTx fs htx c hc)
  · obtain ⟨e, ht⟩ := (hinv.cache.hit hlook).resolve_left fun hd => hdot hd.2
    have hdir := (hfs.primary e d (treeOf_eq_some.1 ht).1).2.1
    obtain ⟨root, hbuild, hix⟩ := buildDindex_indexes hash hfs hdir
    have hbuilt : Fresh hash s.fs d (root, (s.fs.inode d).size) := ⟨hdir, hix, rfl⟩
    refine ⟨e, ⟨root, hbuild, hbuilt.dxFind_tree hfs ht⟩, fun hst hcb => ?_⟩
    have hr : Ready hash s.view d := (hinv.dirs d).ready hcb
    exact (hr.fresh hst).dxFind_tree hfs ht
  · refine Option.eq_none_iff_forall_ne_some.2 fun i hlook => ?_
    obtain ⟨e, ht⟩ := (hinv.cache.hit hlook).resolve_left fun hd => hdot hd.2
    exact hno i (listed_of_tree hfs ht)

/-! ## The table behind the list -/

section Table

open NameCache (Item MapStep reserved)

abbrev CacheEnt.ofItem (it : Item) : CacheEnt := ⟨it.parent, it.name, it.ino, it.deno⟩

/-- What the table, which is one for all mounts, has of a mount. -/
def cacheOf (mnt : Nat) (t : NameCache.State) : List CacheEnt := (t.items.filter fun i => i.mnt = mnt).map .ofItem

/-- What an event of the table is for the list. -/
def cacheStep (mnt : Nat) (enabled : Bool) (cache : List CacheEnt) : NameCache.Event → Except Fail (List CacheEnt)
  | .enter _ (some _) _ it => if it.mnt = mnt then namecacheEnter cache enabled (.ofItem it) else .ok cache
  | .deleteByDeno m deno => .ok (if m = mnt then deleteByDeno cache deno else cache)
  | .clearMount m => .ok (if m = mnt then [] else cache)
  | _ => .ok cache

variable {H : NameCache.Hashes} {t t' : NameCache.State} {mnt : Nat} {it : Item}

theorem mem_cacheOf : .ofItem it ∈ cacheOf it.mnt t ↔ it ∈ t.items := by
  simp only [cacheOf, List.mem_map, List.mem_filter, decide_eq_true_eq]
  refine ⟨?_, fun hit => ⟨it, ⟨hit, rfl⟩, rfl⟩⟩
  rintro ⟨⟨m, _, _, _, _⟩, ⟨hi, hm⟩, heq⟩
  cases it
  cases heq
  cases hm
  exact hi

theorem lookup_cacheOf (h : NameCache.Core H t) (now : UInt64) (d : Nat) (name : Name) :
    (NameCache.lookup H t now mnt d name).1 = namecacheLookup (cacheOf mnt t) t.opt.enable d name := by
  unfold namecacheLookup
  split
  case isFalse hen => rw [NameCache.lookup, if_pos (Bool.eq_false_iff.2 hen)]
  case isTrue hen =>
    split
    case isTrue hdot => simp [NameCache.lookup, hen, hdot]
    case isFalse hdot =>
      rw [NameCache.lookup_fst h now hen hdot, cacheOf, List.find?_map, List.find?_filter, Option.map_map]
      congr 2
      funext i
      rw [Bool.eq_iff_iff]
      simp [Item.hasKey, and_assoc]

theorem mem_namecacheEnter {cache cache' : List CacheEnt} {c : CacheEnt}
    (h : namecacheEnter cache enabled c = .ok cache') :
    cache ⊆ cache' ∧ (enabled = true → c.name ∉ reserved → c ∈ cache') := by
  unfold namecacheEnter at h
  split at h
  case isTrue hno =>
    cases h
    exact ⟨fun _ => id, fun hen hres => absurd hno (by simpa [hen, reserved, dots] using hres)⟩
  case isFalse =>
    split at h
    case h_1 c' hf =>
      simp only [bind_eq_ok, verify_eq_ok, pure_eq_ok] at h
      obtain ⟨-, ⟨hino, hdeno⟩, rfl⟩ := h
      obtain ⟨hpar, hname⟩ : c'.parent = c.parent ∧ c'.name = c.name := by simpa using List.find?_some hf
      obtain rfl : c' = c := by cases c; cases c'; simp_all
      exact ⟨fun _ => id, fun _ _ => List.mem_of_find?_eq_some hf⟩
    case h_2 =>
      cases h
      exact ⟨fun _ => List.mem_cons_of_mem _, fun _ _ => List.mem_cons_self⟩

/-- Whatever a step of the list gives, the table holds no more than that after it: from the list entries may be
evicted at any time. -/
theorem step_cacheOf (h : NameCache.Inv H t) (hnd : ((cacheOf mnt t).map CacheEnt.deno).Nodup) {ev : NameCache.Event}
    (hs : NameCache.step H t ev = some t') {cache : List CacheEnt}
    (hc : cacheStep mnt t.opt.enable (cacheOf mnt t) ev = .ok cache) : cacheOf mnt t' ⊆ cache := by
  suffices hsub : ∀ it ∈ t'.items, it.mnt = mnt → .ofItem it ∈ cache by
    intro c hc
    obtain ⟨it, hit, rfl⟩ := List.mem_map.1 hc
    exact hsub it (List.mem_filter.1 hit).1 (of_decide_eq_true (List.mem_filter.1 hit).2)
  rintro it hit rfl
  have hold : it ∈ t.items → .ofItem it ∈ cacheOf it.mnt t := mem_cacheOf.2
  have hstep := (h.step hs).2
  generalize t'.items = l' at hstep hit
  have henter : ∀ {now p mem new}, cacheStep it.mnt t.opt.enable (cacheOf it.mnt t) (.enter now p mem new) = .ok cache →
      (it ∈ t.items → .ofItem it ∈ cache) ∧ (p ≠ none → t.opt.enable = true → new.name ∉ reserved → it = new →
        .ofItem it ∈ cache) := by
    intro now p mem new hc
    cases p with
    | none => cases hc; exact ⟨hold, fun hp => absurd rfl hp⟩
    | some p =>
      rw [cacheStep] at hc
      split at hc
      case isTrue hm =>
        obtain ⟨hsub, hin⟩ := mem_namecacheEnter hc
        exact ⟨fun hit => hsub (hold hit), fun _ hen hres heq => heq ▸ hin hen hres⟩
      case isFalse hm => cases hc; exact ⟨hold, fun _ _ _ heq => absurd (heq ▸ rfl) hm⟩
  cases hstep with
  | known | ignored | refused => exact (henter hc).1 hit
  | refreshed hj => exact (henter hc).1 ((List.mem_cons.1 hit).elim (· ▸ hj) List.mem_of_mem_erase)
  | entered hen hres =>
    rcases List.mem_cons.1 (List.mem_of_mem_take hit) with heq | hit
    · exact (henter hc).2 nofun hen hres heq
    · exact (henter hc).1 hit
  | looked | threadCreate | maintenance | setOptions => cases hc; exact hold hit
  | found hj => cases hc; exact hold ((List.mem_cons.1 hit).elim (· ▸ hj) List.mem_of_mem_erase)
  | @deleted m deno i hi hm hd =>
    have hin := hold (List.mem_of_mem_erase hit)
    cases hc
    split
    case isFalse => exact hin
    case isTrue heq =>
      refine (List.mem_eraseP_of_neg ?_).2 hin
      simp only [decide_eq_true_eq]
      rintro rfl
      -- a direntry has one entry
      have hi' : CacheEnt.ofItem i ∈ cacheOf it.mnt t := by
        rw [← heq, ← hm]
        exact mem_cacheOf.2 hi
      have hent := List.inj_on_of_nodup_map hnd hin hi' hd.symm
      obtain rfl : it = i := h.items_inj (List.mem_of_mem_erase hit) hi
        ⟨(hm.trans heq).symm, congrArg CacheEnt.parent hent, congrArg CacheEnt.name hent⟩
      exact h.nodup_items.not_mem_erase hit
  | absent hno =>
    cases hc
    split
    case isFalse => exact hold hit
    case isTrue heq =>
      refine (List.mem_eraseP_of_neg ?_).2 (hold hit)
      simpa [heq] using hno it hit
  | cleared =>
    obtain ⟨hit, hm⟩ := List.mem_filter.1 hit
    cases hc
    rw [if_neg fun heq => of_decide_eq_true hm heq.symm]
    exact hold hit

end Table

/-- A follower enters a name, replays a rename of the file, and enters the new name. -/
def followRun : List NodeEvent :=
  [.replay (.create firstFree rootStk [97] false 10) [3] [3], .own (.reload 0), .own (.find 0 [97] true),
    .replay (.rename firstFree false ⟨⟨3, 10, [97]⟩, [⟨0, 9, []⟩]⟩ ⟨⟨0, 9, []⟩, []⟩ (some [98])) [] [],
    .own (.reload 0), .own (.find 0 [98] true)]

theorem name_cache_coherent_followed : ∃ s, (nodeSystem smallGeometry fun _ => 0).Reachable s ∧
    s.cache = [⟨0, [98], 3, 3⟩] ∧ Coherent smallGeometry (fun _ => 0) s := by
  have hs := (nodeSystem smallGeometry fun _ => 0).reachable_last ⟨mkfs 9, fun _ => .create, [], none⟩ followRun
    ⟨mkfs 9, .init ⟨9, rfl⟩, rfl⟩ (by decide +kernel)
  exact ⟨_, hs, by decide +kernel, name_cache_coherent _ _ _ hs⟩

end PolarFs.Dir.Index
