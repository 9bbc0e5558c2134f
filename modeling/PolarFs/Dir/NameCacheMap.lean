/-
The name cache is a bounded map. The list by last use, read as what its entries say, takes the steps of a map from
keys to inodes that holds at most the configured number of items (`MapStep`); chains, hashes and the progress of an
expansion do not show. Every entry of the list is in one chain of each kind, in the table where a lookup at that
moment looks for it.
-/
import PolarFs.Dir.NameCache

namespace PolarFs.NameCache

open PolarFs.Dir (Name)
open RehashTable (Table Shape Linked)

/-! ## The map -/

/-- The entries have the same mount, parent and name. -/
def Item.sameKey (i j : Item) : Prop := i.mnt = j.mnt ∧ i.parent = j.parent ∧ i.name = j.name

def Item.hasKey (i : Item) (mnt parent : Nat) (name : Name) : Bool := i.mnt == mnt && i.parent == parent && i.name == name

/-- The items in the cache, the last used first. -/
def State.items (s : State) : List Item := s.lru.map fun p => (s.ent p).item

/-- The steps of a bounded map; `bucket` says which items share the room of a bucket. -/
inductive MapStep (o : Options) (bucket : Item → RehashTable.Addr) (l : List Item) : Event → List Item → Prop
  | known {now p mem it} : it ∈ l → MapStep o bucket l (.enter now p mem it) l
  | refreshed {now p mem it} : it ∈ l → MapStep o bucket l (.enter now p mem it) (it :: l.erase it)
  /-- a new item, for which the least used one goes if the map is full -/
  | entered {now p mem it} : o.enable = true → it.name ∉ reserved → (∀ i ∈ l, ¬ i.sameKey it) →
      (l.filter fun i => bucket i = bucket it).length < o.maxBucketLen →
      MapStep o bucket l (.enter now (some p) mem it) ((it :: l).take o.ncMax)
  /-- the bucket of the item is full -/
  | refused {now p mem it} : (∀ i ∈ l, ¬ i.sameKey it) →
      o.maxBucketLen ≤ (l.filter fun i => bucket i = bucket it).length → MapStep o bucket l (.enter now (some p) mem it) l
  | ignored {now p mem it} : o.enable = false ∨ it.name ∈ reserved ∨ p = none → MapStep o bucket l (.enter now p mem it) l
  | looked {now mnt parent name} : MapStep o bucket l (.lookup now mnt parent name) l
  | found {now mnt parent name i} : i ∈ l → i.hasKey mnt parent name = true →
      MapStep o bucket l (.lookup now mnt parent name) (i :: l.erase i)
  | deleted {mnt deno i} : i ∈ l → i.mnt = mnt → i.deno = deno → MapStep o bucket l (.deleteByDeno mnt deno) (l.erase i)
  | absent {mnt deno} : (∀ i ∈ l, ¬ (i.mnt = mnt ∧ i.deno = deno)) → MapStep o bucket l (.deleteByDeno mnt deno) l
  | cleared {mnt} : MapStep o bucket l (.clearMount mnt) (l.filter fun i => i.mnt ≠ mnt)
  | threadCreate {created} : MapStep o bucket l (.threadCreate created) l
  | maintenance : MapStep o bucket l .maintenance l
  | setOptions {opt} : MapStep o bucket l (.setOptions opt) l

/-! ## The invariant -/

variable {H : Hashes} {s s' : State} {p q : Nat} {it : Item} {now : UInt64} {mem : Bool} {mnt parent deno : Nat} {name : Name}

/-- The list and the chains. -/
structure Core (H : Hashes) (s : State) : Prop where
  nodup : s.lru.Nodup
  names : Linked (fun p => H.ofName (s.ent p).item) s.shape s.names s.lru
  denos : Linked (fun p => H.ofDeno (s.ent p).item) s.shape s.denos s.lru
  count : s.numcache = s.lru.length
  keys : ∀ p ∈ s.lru, ∀ q ∈ s.lru, (s.ent p).item.sameKey (s.ent q).item → p = q
  sz : 0 < s.sz
  expand : ∀ x, s.expand = some x → 0 < x.sz ∧ x.bucket < s.sz ∧ (x.running = false → x.bucket = 0)

structure Inv (H : Hashes) (s : State) : Prop extends Core H s where
  bound : s.lowered = false → s.numcache ≤ s.opt.ncMax

/-- A step that only takes entries out. -/
structure Frame (s s' : State) : Prop where
  ent : s'.ent = s.ent
  sz : s'.sz = s.sz
  expand : s'.expand = s.expand
  opt : s'.opt = s.opt
  lowered : s'.lowered = s.lowered

theorem Frame.refl (s : State) : Frame s s := ⟨rfl, rfl, rfl, rfl, rfl⟩

theorem Frame.trans {s'' : State} (h : Frame s s') (h' : Frame s' s'') : Frame s s'' :=
  ⟨h'.ent.trans h.ent, h'.sz.trans h.sz, h'.expand.trans h.expand, h'.opt.trans h.opt, h'.lowered.trans h.lowered⟩

theorem Frame.shape (h : Frame s s') : s'.shape = s.shape := by rw [State.shape, State.shape, h.sz, h.expand]

theorem Frame.items_filter (h : Frame s s') {f : Nat → Bool} (hl : s'.lru = s.lru.filter f) {f' : Item → Bool}
    (hf : ∀ p ∈ s.lru, f p = f' (s.ent p).item) : s'.items = s.items.filter f' := by
  rw [State.items, State.items, h.ent, hl, List.filter_map]
  exact congrArg _ (List.filter_congr hf)

theorem isKey_iff : s.isKey mnt parent name p = true ↔
    (s.ent p).item.mnt = mnt ∧ (s.ent p).item.parent = parent ∧ (s.ent p).item.name = name := by
  simp [State.isKey, and_assoc]

theorem Core.item_inj (h : Core H s) (hp : p ∈ s.lru) (hq : q ∈ s.lru) (heq : (s.ent p).item = (s.ent q).item) : p = q :=
  h.keys p hp q hq (heq ▸ ⟨rfl, rfl, rfl⟩)

theorem Core.items_inj (h : Core H s) {i j : Item} (hi : i ∈ s.items) (hj : j ∈ s.items) (hk : i.sameKey j) : i = j := by
  obtain ⟨p, hp, rfl⟩ := List.mem_map.1 hi
  obtain ⟨q, hq, rfl⟩ := List.mem_map.1 hj
  rw [h.keys p hp q hq hk]

theorem Core.nodup_items (h : Core H s) : s.items.Nodup := h.nodup.map_on fun _ hp _ hq heq => h.item_inj hp hq heq

/-- Taking an entry out of the list takes its item out of the items. -/
theorem Core.items_erase (h : Core H s) (hp : p ∈ s.lru) :
    (s.lru.erase p).map (fun q => (s.ent q).item) = s.items.erase (s.ent p).item := by
  have hinj : ∀ l : List Nat, (∀ q ∈ l, (s.ent q).item = (s.ent p).item → q = p) →
      (l.erase p).map (fun q => (s.ent q).item) = (l.map fun q => (s.ent q).item).erase (s.ent p).item := by
    intro l
    induction l with
    | nil => exact fun _ => rfl
    | cons q l ih =>
      intro hl
      by_cases hqp : q = p
      · subst hqp
        simp
      · have hne : (s.ent q).item ≠ (s.ent p).item := fun heq => hqp (hl q List.mem_cons_self heq)
        rw [List.erase_cons_tail (by simpa using hqp), List.map_cons, List.map_cons, List.erase_cons_tail (by simpa using hne),
          ih fun q hq => hl q (List.mem_cons_of_mem _ hq)]
  exact hinj s.lru fun q hq heq => h.item_inj hq hp heq

/-! ## Removal -/

theorem removeEntry_frame (s : State) (p : Nat) : Frame s (removeEntry s p) := ⟨rfl, rfl, rfl, rfl, rfl⟩

theorem Core.removeEntry (h : Core H s) (hp : p ∈ s.lru) : Core H (removeEntry s p) where
  nodup := h.nodup.erase p
  names := h.names.unlink p
  denos := h.denos.unlink p
  count := by
    rw [NameCache.removeEntry]
    dsimp only
    rw [h.count, List.length_erase_of_mem hp]
  keys q hq r hr := h.keys q (List.mem_of_mem_erase hq) r (List.mem_of_mem_erase hr)
  sz := h.sz
  expand := h.expand

theorem erase_getLast {l : List Nat} (hl : l.Nodup) (hne : l ≠ []) : l.erase (l.getLast hne) = l.dropLast := by
  have happ := List.dropLast_append_getLast hne
  have hnot : l.getLast hne ∉ l.dropLast := by
    intro hin
    rw [← happ, List.nodup_append] at hl
    exact hl.2.2 _ hin _ List.mem_cons_self rfl
  have herase : (l.dropLast ++ [l.getLast hne]).erase (l.getLast hne) = l.dropLast := by
    rw [List.erase_append_right _ hnot]
    simp
  rwa [happ] at herase

/-- `evict_entries` keeps the items that were used last. -/
theorem Core.evictEntries : ∀ (fuel : Nat) {s : State}, Core H s → s.numcache ≤ fuel + s.opt.ncMax →
    Core H (evictEntries fuel s) ∧ Frame s (evictEntries fuel s) ∧ (evictEntries fuel s).lru = s.lru.take s.opt.ncMax
  | 0, s, h, hle => by
    rw [NameCache.evictEntries]
    refine ⟨h, Frame.refl s, (List.take_of_length_le ?_).symm⟩
    rw [← h.count]
    omega
  | fuel + 1, s, h, hle => by
    rw [NameCache.evictEntries]
    split
    case isFalse hnot =>
      refine ⟨h, Frame.refl s, (List.take_of_length_le ?_).symm⟩
      rw [← h.count]
      omega
    case isTrue hlt =>
      have hne : s.lru ≠ [] := by
        rintro hnil
        rw [h.count, hnil, List.length_nil] at hlt
        omega
      rw [List.getLast?_eq_getLast_of_ne_nil hne]
      have hlast := List.getLast_mem hne
      have hc := h.removeEntry hlast
      have hless : s.numcache - 1 ≤ fuel + s.opt.ncMax := by omega
      obtain ⟨hcore, hframe, hlru⟩ := Core.evictEntries fuel hc hless
      refine ⟨hcore, (removeEntry_frame s _).trans hframe, hlru.trans ?_⟩
      show (s.lru.erase (s.lru.getLast hne)).take s.opt.ncMax = s.lru.take s.opt.ncMax
      rw [erase_getLast h.nodup hne, List.dropLast_eq_take, List.take_take]
      rw [h.count] at hlt
      congr 1
      omega

theorem Core.foldl_removeEntry : ∀ (ps : List Nat) {s : State}, Core H s → ps.Nodup → (∀ p ∈ ps, p ∈ s.lru) →
    Core H (ps.foldl NameCache.removeEntry s) ∧ Frame s (ps.foldl NameCache.removeEntry s) ∧
      (ps.foldl NameCache.removeEntry s).lru = s.lru.filter (fun p => decide (p ∉ ps))
  | [], s, h, _, _ => ⟨h, Frame.refl s, by simp⟩
  | p :: ps, s, h, hnd, hin => by
    obtain ⟨hnot, hnd⟩ := List.nodup_cons.1 hnd
    have hc := h.removeEntry (hin p List.mem_cons_self)
    have hrest : ∀ q ∈ ps, q ∈ s.lru.erase p := by
      intro q hq
      have hqp : q ≠ p := by
        rintro rfl
        exact hnot hq
      exact (List.mem_erase_of_ne hqp).2 (hin q (List.mem_cons_of_mem _ hq))
    obtain ⟨hcore, hframe, hlru⟩ := Core.foldl_removeEntry ps hc hnd hrest
    refine ⟨hcore, (removeEntry_frame s p).trans hframe, hlru.trans ?_⟩
    show (s.lru.erase p).filter _ = _
    rw [h.nodup.erase_eq_filter, List.filter_filter]
    refine List.filter_congr fun q _ => ?_
    by_cases hq : q = p <;> simp [hq]

/-- The entries of the mount that are in the bucket go. -/
theorem Core.clearBucket (h : Core H s) (mnt i : Nat) :
    Core H (clearBucket mnt s i) ∧ Frame s (clearBucket mnt s i) ∧ (clearBucket mnt s i).lru =
      s.lru.filter fun p => decide (¬ ((s.ent p).item.mnt = mnt ∧ s.shape.home (H.ofName (s.ent p).item) = (false, i))) := by
  unfold NameCache.clearBucket
  obtain ⟨hcore, hframe, hlru⟩ := Core.foldl_removeEntry ((s.names (false, i)).filter fun p => (s.ent p).item.mnt == mnt) h
    ((h.names.nodup h.nodup _).filter _) fun p hp => (h.names.mem.1 (List.mem_filter.1 hp).1).1
  refine ⟨hcore, hframe, hlru.trans (List.filter_congr fun p hp => ?_)⟩
  rw [decide_eq_decide, List.mem_filter, h.names.mem]
  simp [hp, and_comm]

theorem Core.foldl_clearBucket (mnt : Nat) : ∀ (is : List Nat) {s : State}, Core H s →
    Core H (is.foldl (NameCache.clearBucket mnt) s) ∧ Frame s (is.foldl (NameCache.clearBucket mnt) s) ∧
      (is.foldl (NameCache.clearBucket mnt) s).lru = s.lru.filter fun p =>
        decide (¬ ((s.ent p).item.mnt = mnt ∧ ∃ i ∈ is, s.shape.home (H.ofName (s.ent p).item) = (false, i)))
  | [], s, h => ⟨h, Frame.refl s, by simp⟩
  | i :: is, s, h => by
    obtain ⟨hc, hf, hl⟩ := h.clearBucket mnt i
    obtain ⟨hcore, hframe, hlru⟩ := Core.foldl_clearBucket mnt is hc
    refine ⟨hcore, hf.trans hframe, hlru.trans ?_⟩
    rw [hl, List.filter_filter, hf.ent, hf.shape]
    refine List.filter_congr fun p _ => ?_
    simp only [List.mem_cons, exists_eq_or_imp]
    by_cases hm : (s.ent p).item.mnt = mnt <;> simp [hm, Bool.and_comm]

/-- Without an expansion every entry is in the old table, below its size. -/
theorem home_of_expand_none (h : s.expand = none) (hsz : 0 < s.sz) (hash : Nat) :
    ∃ i < s.sz, s.shape.home hash = (false, i) := by
  refine ⟨hash &&& (s.sz - 1), ?_, by simp [State.shape, Shape.home, h]⟩
  have : hash &&& (s.sz - 1) ≤ s.sz - 1 := Nat.and_le_right
  omega

theorem Core.clearMount (h : Core H s) (hx : s.expand = none) (mnt : Nat) :
    Core H (clearMount s mnt) ∧ Frame s (clearMount s mnt) ∧
      (clearMount s mnt).items = s.items.filter fun i => decide (i.mnt ≠ mnt) := by
  obtain ⟨hcore, hframe, hlru⟩ := Core.foldl_clearBucket mnt (List.range s.sz) h
  refine ⟨hcore, hframe, hframe.items_filter hlru fun p _ => ?_⟩
  obtain ⟨i, hi, hhome⟩ := home_of_expand_none hx h.sz (H.ofName (s.ent p).item)
  rw [decide_eq_decide, hhome]
  simp [hi]

theorem items_removeEntry (h : Core H s) (hp : p ∈ s.lru) : (removeEntry s p).items = s.items.erase (s.ent p).item :=
  h.items_erase hp

theorem deleteByDeno_spec (h : Core H s) (mnt deno : Nat) :
    Core H (deleteByDeno H s mnt deno) ∧ Frame s (deleteByDeno H s mnt deno) ∧
      ((∃ i ∈ s.items, i.mnt = mnt ∧ i.deno = deno ∧ (deleteByDeno H s mnt deno).items = s.items.erase i) ∨
        (∀ i ∈ s.items, ¬ (i.mnt = mnt ∧ i.deno = deno)) ∧ (deleteByDeno H s mnt deno).items = s.items) := by
  have hq : ∀ p ∈ s.lru, ((s.ent p).item.mnt == mnt && (s.ent p).item.deno == deno) = true →
      H.ofDeno (s.ent p).item = (H.deno mnt deno).toNat := by
    intro p _ hp
    simp only [Bool.and_eq_true, beq_iff_eq] at hp
    rw [Hashes.ofDeno, hp.1, hp.2]
  unfold deleteByDeno
  split
  case h_1 hfind =>
    refine ⟨h, Frame.refl s, .inr ⟨?_, rfl⟩⟩
    rintro i hi ⟨hm, hd⟩
    obtain ⟨p, hp, rfl⟩ := List.mem_map.1 hi
    exact (h.denos.find?_eq_none hq).1 hfind p hp (by simp [hm, hd])
  case h_2 p hfind =>
    have hp := (h.denos.mem.1 (List.mem_of_find?_eq_some hfind)).1
    have hmatch := List.find?_some hfind
    simp only [Bool.and_eq_true, beq_iff_eq] at hmatch
    exact ⟨h.removeEntry hp, removeEntry_frame s p, .inl ⟨_, List.mem_map_of_mem hp, hmatch.1, hmatch.2,
      items_removeEntry h hp⟩⟩

/-! ## Promotion -/

theorem Core.promoteEntry (h : Core H s) (now : UInt64) (hp : p ∈ s.lru) :
    Core H (promoteEntry s now p) ∧ (promoteEntry s now p).items = (s.ent p).item :: s.items.erase (s.ent p).item := by
  unfold NameCache.promoteEntry
  split
  case isTrue hhead =>
    refine ⟨h, ?_⟩
    obtain ⟨l, hl⟩ : ∃ l, s.lru = p :: l := by
      cases hlru : s.lru with
      | nil => simp [hlru] at hhead
      | cons q l =>
        rw [hlru] at hhead
        cases hhead
        exact ⟨l, rfl⟩
    simp [State.items, hl]
  case isFalse =>
    have hitem : ∀ q, (Function.update s.ent p { s.ent p with promoted := now } q).item = (s.ent q).item := by
      intro q
      by_cases hq : q = p
      · subst hq
        simp
      · simp [hq]
    have hperm : s.lru.Perm (p :: s.lru.erase p) := List.perm_cons_erase hp
    refine ⟨⟨hperm.nodup_iff.1 h.nodup, ?_, ?_, ?_, ?_, h.sz, h.expand⟩, ?_⟩
    · exact (h.names.perm hperm).congr fun q _ => by dsimp only; rw [hitem]
    · exact (h.denos.perm hperm).congr fun q _ => by dsimp only; rw [hitem]
    · exact h.count.trans hperm.length_eq
    · intro q hq r hr hkey
      dsimp only at hkey
      rw [hitem, hitem] at hkey
      exact h.keys q (hperm.mem_iff.2 hq) r (hperm.mem_iff.2 hr) hkey
    · rw [State.items]
      dsimp only
      rw [List.map_cons, hitem]
      refine congrArg _ ((List.map_congr_left fun q _ => hitem q).trans ?_)
      exact h.items_erase hp

theorem promoteEntry_frame (s : State) (now : UInt64) (p : Nat) :
    (promoteEntry s now p).opt = s.opt ∧ (promoteEntry s now p).lowered = s.lowered ∧
      (promoteEntry s now p).numcache = s.numcache := by
  unfold promoteEntry
  split <;> exact ⟨rfl, rfl, rfl⟩

/-! ## Expansion -/

theorem hashInit_pos (elements : Nat) : ∀ (fuel : Nat) {hashsize : Nat}, 0 < hashsize → 0 < hashInit elements fuel hashsize
  | 0, _, h => h
  | fuel + 1, hashsize, h => by
    rw [hashInit]
    split
    · exact hashInit_pos elements fuel (by omega)
    · exact h

theorem rehashNamecache_frame (mem : Bool) (s : State) : (rehashNamecache mem s).items = s.items ∧
    (rehashNamecache mem s).numcache = s.numcache ∧ (rehashNamecache mem s).opt = s.opt ∧
      (rehashNamecache mem s).lowered = s.lowered := by
  unfold rehashNamecache
  split <;> exact ⟨rfl, rfl, rfl, rfl⟩

theorem Core.rehashNamecache (h : Core H s) (mem : Bool) : Core H (rehashNamecache mem s) := by
  unfold NameCache.rehashNamecache
  split
  case isFalse => exact h
  case isTrue hcond =>
    simp only [shouldRehash, Bool.and_eq_true, Option.isNone_iff_eq_none] at hcond
    have hshape : s.shape = ⟨s.sz - 1, none⟩ := by rw [State.shape, hcond.1.2]; rfl
    have hn := h.names
    have hd := h.denos
    rw [hshape] at hn hd
    refine ⟨h.nodup, hn.start _, hd.start _, h.count, h.keys, h.sz, ?_⟩
    rintro x ⟨⟩
    exact ⟨hashInit_pos _ _ Nat.one_pos, h.sz, fun _ => rfl⟩

theorem emptyBuckets_of_nil {T : Table Nat} {side : Bool} (h : ∀ i, T (side, i) = []) (sz : Nat) :
    emptyBuckets T side sz = true := by
  simp [emptyBuckets, h]

theorem threadCreate_spec (h : Core H s) {x : Expand} (hx : s.expand = some x) (hrun : x.running = false) (created : Bool) :
    ∃ s', threadCreate s x created = some s' ∧ Core H s' ∧ s'.items = s.items ∧ s'.numcache = s.numcache ∧
      s'.opt = s.opt ∧ s'.lowered = s.lowered := by
  obtain ⟨hxsz, hbucket, hzero⟩ := h.expand x hx
  have hshape : s.shape = ⟨s.sz - 1, some (x.bucket, x.sz - 1)⟩ := by rw [State.shape, hx]; rfl
  cases created with
  | true =>
    refine ⟨{ s with expand := some { x with running := true } }, rfl, ⟨h.nodup, ?_, ?_, h.count, h.keys, h.sz, ?_⟩, rfl, rfl,
      rfl, rfl⟩
    · have hn := h.names
      rw [hshape] at hn
      exact hn
    · have hd := h.denos
      rw [hshape] at hd
      exact hd
    · rintro _ ⟨⟩
      exact ⟨hxsz, hbucket, nofun⟩
  | false =>
    have hn := h.names
    have hd := h.denos
    rw [hshape, hzero hrun] at hn hd
    refine ⟨{ s with expand := none }, ?_, ⟨h.nodup, hn.cancel, hd.cancel, h.count, h.keys, h.sz, nofun⟩, rfl, rfl, rfl, rfl⟩
    simp [threadCreate, emptyBuckets_of_nil hn.new_nil, emptyBuckets_of_nil hd.new_nil]

/-- One turn of the thread moves the chains of one bucket; at the end nothing is left in the old tables. -/
theorem maintenance_spec (h : Core H s) {x : Expand} (hx : s.expand = some x) (hrun : x.running = true) :
    ∃ s', maintenance H s x = some s' ∧ Core H s' ∧ s'.items = s.items ∧ s'.numcache = s.numcache ∧
      s'.opt = s.opt ∧ s'.lowered = s.lowered := by
  obtain ⟨hxsz, hbucket, hzero⟩ := h.expand x hx
  have hshape : s.shape = ⟨s.sz - 1, some (x.bucket, x.sz - 1)⟩ := by rw [State.shape, hx]; rfl
  have hn := h.names
  have hd := h.denos
  rw [hshape] at hn hd
  have hn' := hn.moveBucket
  have hd' := hd.moveBucket
  unfold maintenance
  dsimp only
  split
  case isTrue hlast =>
    have hall : s.sz - 1 < x.bucket + 1 := by omega
    rw [emptyBuckets_of_nil (hn'.old_nil hall), emptyBuckets_of_nil (hd'.old_nil hall)]
    exact ⟨_, rfl, ⟨h.nodup, hn'.swapIn hall, hd'.swapIn hall, h.count, h.keys, hxsz, nofun⟩, rfl, rfl, rfl, rfl⟩
  case isFalse hmore =>
    refine ⟨_, rfl, ⟨h.nodup, hn', hd', h.count, h.keys, h.sz, ?_⟩, rfl, rfl, rfl, rfl⟩
    rintro _ ⟨⟩
    refine ⟨hxsz, ?_, fun hnot => ?_⟩
    · dsimp only
      omega
    · cases hrun.symm.trans hnot

/-! ## Entering and looking up -/

theorem Core.isKey_hash (_ : Core H s) : ∀ p ∈ s.lru, s.isKey mnt parent name p = true →
    H.ofName (s.ent p).item = (H.name mnt parent name).toNat := by
  intro p _ hp
  obtain ⟨hm, hpar, hnm⟩ := isKey_iff.1 hp
  rw [Hashes.ofName, hm, hpar, hnm]

theorem Core.isKey_unique (h : Core H s) : ∀ p ∈ s.lru, ∀ q ∈ s.lru, s.isKey mnt parent name p = true →
    s.isKey mnt parent name q = true → p = q := by
  intro p hp q hq hkp hkq
  obtain ⟨hm, hpar, hnm⟩ := isKey_iff.1 hkp
  obtain ⟨hm', hpar', hnm'⟩ := isKey_iff.1 hkq
  exact h.keys p hp q hq ⟨hm.trans hm'.symm, hpar.trans hpar'.symm, hnm.trans hnm'.symm⟩

theorem lookup_fst (h : Core H s) (now : UInt64) (hen : s.opt.enable = true) (hdot : name ≠ [46]) :
    (lookup H s now mnt parent name).1 = (s.items.find? fun i => i.hasKey mnt parent name).map Item.ino := by
  have hfind : s.items.find? (fun i => i.hasKey mnt parent name) =
      (s.lru.find? (s.isKey mnt parent name)).map fun p => (s.ent p).item := by
    rw [State.items, List.find?_map]
    rfl
  rw [lookup, if_neg (by simp [hen]), if_neg hdot, hfind]
  cases hf : (s.names (s.shape.home (H.name mnt parent name).toNat)).find? (s.isKey mnt parent name) with
  | none =>
    have hnone := (h.names.find?_eq_none h.isKey_hash).1 hf
    rw [List.find?_eq_none.2 hnone]
    rfl
  | some p =>
    obtain ⟨hp, hk⟩ := (h.names.find?_eq_some h.isKey_hash h.isKey_unique).1 hf
    cases hl : s.lru.find? (s.isKey mnt parent name) with
    | none => exact absurd hk (List.find?_eq_none.1 hl p hp)
    | some q =>
      obtain rfl := h.isKey_unique p hp q (List.mem_of_find?_eq_some hl) hk (List.find?_some hl)
      rfl

theorem Core.insertEntry (h : Core H s) (now : UInt64) (hp : p ∉ s.lru)
    (hnew : ∀ q ∈ s.lru, ¬ (s.ent q).item.sameKey it) : Core H (insertEntry H s now p it) ∧
      (insertEntry H s now p it).items = it :: s.items := by
  have hitem : ∀ q ∈ s.lru, Function.update s.ent p ⟨it, now⟩ q = s.ent q := by
    intro q hq
    refine Function.update_of_ne ?_ ..
    rintro rfl
    exact hp hq
  have hself : Function.update s.ent p ⟨it, now⟩ p = ⟨it, now⟩ := Function.update_self ..
  have hn : Linked (fun q => H.ofName (Function.update s.ent p ⟨it, now⟩ q).item) s.shape s.names s.lru :=
    h.names.congr fun q hq => by rw [hitem q hq]
  have hd : Linked (fun q => H.ofDeno (Function.update s.ent p ⟨it, now⟩ q).item) s.shape s.denos s.lru :=
    h.denos.congr fun q hq => by rw [hitem q hq]
  have hn' := hn.insertHead p
  have hd' := hd.insertHead p
  rw [hself] at hn' hd'
  refine ⟨⟨List.nodup_cons.2 ⟨hp, h.nodup⟩, hn', hd', by simp [NameCache.insertEntry, h.count], ?keys, h.sz, h.expand⟩, ?items⟩
  case keys =>
    intro q hq r hr hkey
    dsimp only [NameCache.insertEntry] at hq hr hkey
    rcases List.mem_cons.1 hq with hqp | hq' <;> rcases List.mem_cons.1 hr with hrp | hr'
    · exact hqp.trans hrp.symm
    · rw [hqp, hself, hitem r hr'] at hkey
      exact absurd ⟨hkey.1.symm, hkey.2.1.symm, hkey.2.2.symm⟩ (hnew r hr')
    · rw [hrp, hself, hitem q hq'] at hkey
      exact absurd hkey (hnew q hq')
    · rw [hitem q hq', hitem r hr'] at hkey
      exact h.keys q hq' r hr' hkey
  case items =>
    dsimp only [State.items, NameCache.insertEntry]
    rw [List.map_cons, hself]
    exact congrArg _ (List.map_congr_left fun q hq => by rw [hitem q hq])

/-- The bucket a chain belongs to, and the items that share it. -/
theorem Core.chain_length (h : Core H s) (b : RehashTable.Addr) :
    (s.names b).length = (s.items.filter fun i => decide (s.shape.home (H.ofName i) = b)).length := by
  rw [(h.names b).length_eq, State.items, List.filter_map, List.length_map]
  rfl

/-- The part of a new entry that is left after evictions. -/
theorem enter_new (h : Inv H s) (now : UInt64) (hp : p ∉ s.lru) (hnew : ∀ q ∈ s.lru, ¬ (s.ent q).item.sameKey it) :
    Inv H (evictEntries (insertEntry H s now p it).numcache (insertEntry H s now p it)) ∧
      (evictEntries (insertEntry H s now p it).numcache (insertEntry H s now p it)).items =
        (it :: s.items).take s.opt.ncMax := by
  obtain ⟨hins, hitems⟩ := h.toCore.insertEntry now hp hnew
  obtain ⟨hcore, hframe, hlru⟩ := Core.evictEntries (insertEntry H s now p it).numcache hins (Nat.le_add_right ..)
  have htake : (evictEntries (insertEntry H s now p it).numcache (insertEntry H s now p it)).items =
      (it :: s.items).take s.opt.ncMax := by
    rw [State.items, hframe.ent, hlru, List.map_take]
    exact congrArg _ hitems
  refine ⟨⟨hcore, fun _ => ?_⟩, htake⟩
  rw [hcore.count, hlru, hframe.opt, List.length_take]
  exact Nat.min_le_left ..

theorem Inv.promote (h : Inv H s) (now : UInt64) (hp : p ∈ s.lru) :
    Inv H (if shouldPromote s now p then promoteEntry s now p else s) ∧
      ((if shouldPromote s now p then promoteEntry s now p else s).items = s.items ∨
        (if shouldPromote s now p then promoteEntry s now p else s).items =
          (s.ent p).item :: s.items.erase (s.ent p).item) := by
  split
  case isFalse => exact ⟨h, .inl rfl⟩
  case isTrue =>
    obtain ⟨hcore, hitems⟩ := h.toCore.promoteEntry now hp
    obtain ⟨hopt, hlow, hnum⟩ := promoteEntry_frame s now p
    refine ⟨⟨hcore, fun hl => ?_⟩, .inr hitems⟩
    rw [hnum, hopt]
    exact h.bound (hlow ▸ hl)

theorem Inv.rehashNamecache (h : Inv H s) (mem : Bool) : Inv H (rehashNamecache mem s) := by
  obtain ⟨-, hnum, hopt, hlow⟩ := rehashNamecache_frame mem s
  refine ⟨h.toCore.rehashNamecache mem, fun hl => ?_⟩
  rw [hnum, hopt]
  exact h.bound (hlow ▸ hl)

theorem enter_step {p : Option Nat} (h : Inv H s) (hp : ∀ q ∈ p, q ∉ s.lru) (hs : enter H s now p mem it = some s') :
    Inv H s' ∧ MapStep s.opt (fun i => s.shape.home (H.ofName i)) s.items (.enter now p mem it) s'.items := by
  unfold enter at hs
  split at hs
  case isTrue hign =>
    cases hs
    exact ⟨h, .ignored (hign.imp_right .inl)⟩
  case isFalse hign =>
    rw [not_or, Bool.not_eq_false] at hign
    cases p with
    | none =>
      cases hs
      exact ⟨h, .ignored (.inr (.inr rfl))⟩
    | some p =>
      dsimp only at hs
      have hpn := hp p rfl
      cases hf : (s.names (s.shape.home (H.ofName it))).find? (s.isKey it.mnt it.parent it.name) with
      | some q =>
        rw [hf] at hs
        dsimp only at hs
        obtain ⟨heq, hs⟩ := Option.ite_none_right_eq_some.1 hs
        cases hs
        obtain ⟨hq, hk⟩ := (h.names.find?_eq_some h.isKey_hash h.isKey_unique).1 hf
        have hitem : (s.ent q).item = it := by
          obtain ⟨hm, hpar, hnm⟩ := isKey_iff.1 hk
          cases hit : (s.ent q).item
          rw [hit] at hm hpar hnm heq
          cases it
          simp_all
        have hmem : it ∈ s.items := hitem ▸ List.mem_map_of_mem hq
        obtain ⟨hinv, hitems⟩ := h.promote now hq
        refine ⟨hinv.rehashNamecache mem, ?_⟩
        rw [(rehashNamecache_frame mem _).1]
        rcases hitems with hitems | hitems
        · rw [hitems]
          exact .known hmem
        · rw [hitems, hitem]
          exact .refreshed hmem
      | none =>
        rw [hf] at hs
        dsimp only at hs
        have hnone : ∀ q ∈ s.lru, ¬ (s.ent q).item.sameKey it := fun q hq hk =>
          (h.names.find?_eq_none h.isKey_hash).1 hf q hq (isKey_iff.2 hk)
        have hnew : ∀ i ∈ s.items, ¬ i.sameKey it := by
          rintro i hi
          obtain ⟨q, hq, rfl⟩ := List.mem_map.1 hi
          exact hnone q hq
        rw [h.chain_length] at hs
        split at hs
        case isTrue hfull =>
          cases hs
          refine ⟨h.rehashNamecache mem, ?_⟩
          rw [(rehashNamecache_frame mem _).1]
          exact .refused hnew hfull
        case isFalse hroom =>
          cases hs
          obtain ⟨hinv, hitems⟩ := enter_new h now hpn hnone
          refine ⟨hinv.rehashNamecache mem, ?_⟩
          rw [(rehashNamecache_frame mem _).1, hitems]
          exact .entered hign.1 hign.2 hnew (Nat.not_le.1 hroom)

theorem lookup_step (h : Inv H s) (now : UInt64) (mnt parent : Nat) (name : Name) :
    Inv H (lookup H s now mnt parent name).2 ∧ MapStep s.opt (fun i => s.shape.home (H.ofName i)) s.items
      (.lookup now mnt parent name) (lookup H s now mnt parent name).2.items := by
  unfold lookup
  split
  case isTrue => exact ⟨h, .looked⟩
  case isFalse =>
    split
    case isTrue => exact ⟨h, .looked⟩
    case isFalse =>
      split
      case h_1 => exact ⟨h, .looked⟩
      case h_2 p hf =>
        obtain ⟨hp, hk⟩ := (h.names.find?_eq_some h.isKey_hash h.isKey_unique).1 hf
        obtain ⟨hinv, hitems⟩ := h.promote now hp
        refine ⟨hinv, ?_⟩
        dsimp only
        rcases hitems with hitems | hitems
        · rw [hitems]
          exact .looked
        · rw [hitems]
          exact .found (List.mem_map_of_mem hp) hk

/-! ## Runs -/

theorem Inv.shrink (h : Inv H s) (hc : Core H s') (hf : Frame s s') (hle : s'.numcache ≤ s.numcache) : Inv H s' := by
  refine ⟨hc, fun hl => ?_⟩
  rw [hf.opt]
  exact hle.trans (h.bound (hf.lowered ▸ hl))

theorem Inv.same (h : Inv H s) (hc : Core H s') (hnum : s'.numcache = s.numcache) (hopt : s'.opt = s.opt)
    (hlow : s'.lowered = s.lowered) : Inv H s' := by
  refine ⟨hc, fun hl => ?_⟩
  rw [hnum, hopt]
  exact h.bound (hlow ▸ hl)

theorem Core.numcache_eq (h : Core H s) : s.numcache = s.items.length := by
  rw [h.count, State.items, List.length_map]

theorem Inv.step {ev : Event} (h : Inv H s) (hs : step H s ev = some s') :
    Inv H s' ∧ MapStep s.opt (fun i => s.shape.home (H.ofName i)) s.items ev s'.items := by
  cases ev <;> simp only [NameCache.step] at hs
  case enter now p mem it =>
    split at hs
    case isTrue hp => exact enter_step h hp hs
    case isFalse => cases hs
  case lookup now mnt parent name =>
    cases hs
    exact lookup_step h now mnt parent name
  case deleteByDeno mnt deno =>
    cases hs
    obtain ⟨hc, hf, ⟨i, hi, hm, hd, hitems⟩ | ⟨hno, hitems⟩⟩ := deleteByDeno_spec h.toCore mnt deno
    · refine ⟨h.shrink hc hf ?_, hitems ▸ .deleted hi hm hd⟩
      rw [hc.numcache_eq, h.toCore.numcache_eq, hitems]
      exact (List.erase_sublist).length_le
    · have hnum : (deleteByDeno H s mnt deno).numcache = s.numcache := by
        rw [hc.numcache_eq, h.toCore.numcache_eq, hitems]
      refine ⟨h.shrink hc hf hnum.le, ?_⟩
      rw [hitems]
      exact .absent hno
  case clearMount mnt =>
    obtain ⟨hx, hs⟩ := Option.ite_none_right_eq_some.1 hs
    cases hs
    obtain ⟨hc, hf, hitems⟩ := h.toCore.clearMount (Option.isNone_iff_eq_none.1 hx) mnt
    refine ⟨h.shrink hc hf ?_, hitems ▸ .cleared⟩
    rw [hc.numcache_eq, h.toCore.numcache_eq, hitems]
    exact List.length_filter_le ..
  case threadCreate created =>
    split at hs
    case h_2 => cases hs
    case h_1 x hx =>
      split at hs
      case isTrue => cases hs
      case isFalse hrun =>
        obtain ⟨t, ht, hc, hitems, hnum, hopt, hlow⟩ := threadCreate_spec h.toCore hx (Bool.not_eq_true _ ▸ hrun) created
        cases hs.symm.trans ht
        exact ⟨h.same hc hnum hopt hlow, hitems ▸ .threadCreate⟩
  case maintenance =>
    split at hs
    case h_2 => cases hs
    case h_1 x hx =>
      obtain ⟨hrun, hs⟩ := Option.ite_none_right_eq_some.1 hs
      obtain ⟨t, ht, hc, hitems, hnum, hopt, hlow⟩ := maintenance_spec h.toCore hx hrun
      cases hs.symm.trans ht
      exact ⟨h.same hc hnum hopt hlow, hitems ▸ .maintenance⟩
  case setOptions opt =>
    cases hs
    refine ⟨⟨{ h with }, fun hl => ?_⟩, .setOptions⟩
    simp only [Bool.or_eq_false_iff, decide_eq_false_iff_not] at hl
    exact (h.bound hl.1).trans (Nat.not_lt.1 hl.2)

theorem inv_init (H : Hashes) (opt : Options) (size : Nat) : Inv H (init opt size) :=
  ⟨⟨List.nodup_nil, .nil _ _, .nil _ _, rfl, nofun, hashInit_pos _ _ Nat.one_pos, nofun⟩, fun _ => Nat.zero_le _⟩

theorem inv_reachable (h : (cacheSystem H).Reachable s) : Inv H s := by
  refine h.invariant (P := Inv H) ?_ fun _ _ _ _ hi hs => (hi.step hs).1
  rintro _ ⟨opt, size, rfl⟩
  exact inv_init H opt size

/-- The cache at some point of a run. -/
structure Refines (H : Hashes) (s : State) : Prop where
  /-- an entry is in one chain of names and in one of direntries, once in each, and in the list once -/
  linked : ∀ p ∈ s.lru, (∃! b, p ∈ s.names b) ∧ ∃! b, p ∈ s.denos b
  once : s.lru.Nodup ∧ ∀ b, (s.names b).Nodup ∧ (s.denos b).Nodup
  only : ∀ b p, p ∈ s.names b ∨ p ∈ s.denos b → p ∈ s.lru
  count : s.numcache = s.lru.length
  bound : s.lowered = false → s.numcache ≤ s.opt.ncMax
  lookup : ∀ now mnt parent name, s.opt.enable = true → name ≠ [46] →
    (lookup H s now mnt parent name).1 = (s.items.find? fun i => i.hasKey mnt parent name).map Item.ino
  step : ∀ ev s', NameCache.step H s ev = some s' →
    MapStep s.opt (fun i => s.shape.home (H.ofName i)) s.items ev s'.items
  /-- the assertions about the tables that are freed -/
  thread : ∀ x, s.expand = some x → (x.running = true → maintenance H s x ≠ none) ∧
    (x.running = false → ∀ created, threadCreate s x created ≠ none)

/-- The name cache refines a bounded map, whatever the progress of an expansion. -/
theorem namecache_refines_map (H : Hashes) (s : State) (h : (cacheSystem H).Reachable s) : Refines H s := by
  have hi := inv_reachable h
  refine ⟨fun p hp => ⟨hi.names.existsUnique hp, hi.denos.existsUnique hp⟩,
    ⟨hi.nodup, fun b => ⟨hi.names.nodup hi.nodup b, hi.denos.nodup hi.nodup b⟩⟩, ?only, hi.count, hi.bound,
    fun now mnt parent name hen hdot => lookup_fst hi.toCore now hen hdot, fun ev s' hs => (hi.step hs).2, ?thread⟩
  case only =>
    rintro b p (hp | hp)
    · exact (hi.names.mem.1 hp).1
    · exact (hi.denos.mem.1 hp).1
  case thread =>
    intro x hx
    constructor
    · intro hrun hnone
      obtain ⟨t, ht, -⟩ := maintenance_spec hi.toCore hx hrun
      cases ht.symm.trans hnone
    · intro hrun created hnone
      obtain ⟨t, ht, -⟩ := threadCreate_spec hi.toCore hx hrun created
      cases ht.symm.trans hnone

/-- Hashes that never differ. -/
def zeroHashes : Hashes := ⟨fun _ _ _ => 0, fun _ _ => 0⟩

def smallOptions (max maxBucketLen : Nat) (hm : 0 < max) (hb : 0 < maxBucketLen) : Options :=
  ⟨true, max, 100000, maxBucketLen, hm, hb⟩

/-- Two names are entered, the second while one of two buckets has been moved. -/
def expandRun : List Event :=
  [.enter 1 (some 10) true ⟨0, 0, [97], 3, 3⟩, .threadCreate true, .maintenance,
    .enter 2 (some 11) true ⟨0, 0, [98], 4, 4⟩, .lookup 200000 0 0 [97]]

theorem namecache_refines_map_expanding : ∃ s, (cacheSystem zeroHashes).Reachable s ∧
    (s.expand.map Expand.bucket = some 1 ∧ s.lru = [10, 11]) ∧ Refines zeroHashes s := by
  have hs := (cacheSystem zeroHashes).reachable_last (init (smallOptions 16 200 (by decide) (by decide)) 2) expandRun
    ⟨_, _, rfl⟩ (by decide +kernel)
  exact ⟨_, hs, by decide +kernel, namecache_refines_map _ _ hs⟩

/-- A name entered into a bucket that has all the entries it may have is not found; the name `.` is found though
nothing has been entered. -/
theorem not_found_as_entered :
    (¬ ∀ H s s' now p mem it, (cacheSystem H).Reachable s → step H s (.enter now (some p) mem it) = some s' →
      s'.opt.enable = true → it.name ∉ reserved → (lookup H s' now it.mnt it.parent it.name).1 = some it.ino) ∧
    ∃ s, (cacheSystem zeroHashes).Reachable s ∧ s.items = [] ∧ (lookup zeroHashes s 0 0 5 [46]).1 = some 5 := by
  constructor
  · intro h
    have hs := (cacheSystem zeroHashes).reachable_last (init (smallOptions 16 1 (by decide) (by decide)) 4)
      [.enter 1 (some 10) true ⟨0, 0, [97], 3, 3⟩] ⟨_, _, rfl⟩ (by decide +kernel)
    have hfound := h zeroHashes _ _ 2 11 true ⟨0, 0, [98], 4, 4⟩ hs (Option.some_get (by decide +kernel)).symm
      (by decide +kernel) (by decide)
    revert hfound
    decide +kernel
  · exact ⟨init (smallOptions 16 1 (by decide) (by decide)) 4, .init ⟨_, _, rfl⟩, rfl, by decide +kernel⟩

end PolarFs.NameCache
