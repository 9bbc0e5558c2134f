/-
Which inode `pfs_put_inode` evicts (`pfs_mount.cc`). The list of a shard holds the inodes in use and the others.
`pfs_add_inode` puts an inode at the end and `pfs_get_inode` moves one there that was not in use; `pfs_put_inode`
moves one that is no longer in use to the front, from where inodes are evicted. So of the inodes that were released
the last one goes first, and an inode that was added and not yet got is behind those in use.
-/
import PolarFs.Dir.InodeCache

namespace PolarFs.InodeCache

open Transition (System)
open Function (update update_self update_of_ne update_eq_self update_eq_self_iff)
open Cache

/-! ## When an inode was released -/

/-- An inode of the tree that is not in use. -/
def Cache.Idle (s : Cache) (a : Addr) : Prop := a ∈ s.tree ∧ s.refcnt a = 0

instance (s : Cache) (a : Addr) : Decidable (s.Idle a) := inferInstanceAs (Decidable (_ ∧ _))

/-- The cache and a clock. `since` is when an inode was released last, or was added if it has not been in use since;
`released` tells which of the two it was. -/
structure Timed where
  cache : Cache
  now : Nat
  since : Addr → Nat
  released : Addr → Bool

/-- The times of the inodes that are idle in `c` and were not before. -/
def Timed.next (s : Timed) (c : Cache) : Timed where
  cache := c
  now := s.now + 1
  since a := if c.Idle a ∧ ¬ s.cache.Idle a then s.now else s.since a
  released a := if c.Idle a ∧ ¬ s.cache.Idle a then decide (a ∈ s.cache.tree) else s.released a

/-- The calls of `pfs_get_inode` and `pfs_put_inode` for an index are calls like any other here. -/
def Event.isCall : Event → Bool
  | .dxAdd .. | .dxDel .. => false
  | _ => true

/-- Every sequence of calls, of any number of threads. -/
def lruSystem (p : Params) : System Timed Event where
  init s := (cacheSystem p).init s.cache ∧ ∀ a, s.since a = 0
  step s e := if e.isCall then (s.cache.step p e).map s.next else none

/-- What the pass from `s` to `s'` takes from the shard `i`: the inode that has been idle for the longest time, if
any is idle. -/
structure EvictsOldest (s s' : Timed) (i : Nat) : Prop where
  oldest : ∀ a ∈ s.cache.lists i, a ∉ s'.cache.lists i → s.cache.Idle a ∧
    ∀ b ∈ s.cache.lists i, s.cache.Idle b → s.since a ≤ s.since b
  yields : (∃ b ∈ s.cache.lists i, s.cache.Idle b) → ∃ a ∈ s.cache.lists i, a ∉ s'.cache.lists i

/-- No inode of the shard was released after another one became idle that still is; and if none was released, the one
at the front is idle. -/
structure OldestFirst (s : Timed) (i : Nat) : Prop where
  released : ∀ a ∈ s.cache.lists i, s.cache.Idle a → s.released a = true →
    ∀ b ∈ s.cache.lists i, s.cache.Idle b → s.since a ≤ s.since b
  added : (∀ a ∈ s.cache.lists i, s.cache.Idle a → s.released a = false) → (∃ b ∈ s.cache.lists i, s.cache.Idle b) →
    ∀ a ∈ (s.cache.lists i).head?, s.cache.Idle a

/-! ## The order of a list -/

namespace Timed

variable {p : Params} {s : Timed} {c : Cache} {a b : Addr}

/-- `a` may be in front of `b`. -/
structure Before (s : Timed) (a b : Addr) : Prop where
  released : s.cache.Idle b → s.released b = true → s.cache.Idle a ∧ s.released a = true ∧ s.since b ≤ s.since a
  added : s.cache.Idle a → s.released a = false → s.cache.Idle b → s.released b = false → s.since a ≤ s.since b

structure Inv (p : Params) (s : Timed) : Prop where
  cache : s.cache.Inv p
  leaf : ∀ a, s.cache.dxRoot a = []
  past : ∀ a, s.since a ≤ s.now
  lists : ∀ i, (s.cache.lists i).Pairwise s.Before

/-- An inode that is idle as before has the times of before. -/
theorem next_of_iff (h : c.Idle a ↔ s.cache.Idle a) : (s.next c).since a = s.since a ∧ (s.next c).released a = s.released a := by
  have hno : ¬ (c.Idle a ∧ ¬ s.cache.Idle a) := fun ⟨hc, hs⟩ => hs (h.1 hc)
  exact ⟨if_neg hno, if_neg hno⟩

theorem next_of_idle (hc : c.Idle a) (hs : ¬ s.cache.Idle a) :
    (s.next c).since a = s.now ∧ (s.next c).released a = decide (a ∈ s.cache.tree) :=
  ⟨if_pos ⟨hc, hs⟩, if_pos ⟨hc, hs⟩⟩

theorem Before.next (h : s.Before a b) (ha : c.Idle a ↔ s.cache.Idle a) (hb : c.Idle b ↔ s.cache.Idle b) :
    (s.next c).Before a b := by
  obtain ⟨hsa, hra⟩ := next_of_iff ha
  obtain ⟨hsb, hrb⟩ := next_of_iff hb
  refine ⟨fun hi hr => ?_, fun hi hr hi' hr' => ?_⟩
  · rw [hrb] at hr
    rw [hra, hsa, hsb]
    obtain ⟨hi', h'⟩ := h.released (hb.1 hi) hr
    exact ⟨ha.2 hi', h'⟩
  · rw [hra] at hr
    rw [hrb] at hr'
    rw [hsa, hsb]
    exact h.added (ha.1 hi) hr (hb.1 hi') hr'

/-- An inode that is not idle may be behind any other. -/
theorem before_of_not_idle (h : ¬ s.cache.Idle b) : s.Before a b := ⟨fun hi => absurd hi h, fun _ _ hi => absurd hi h⟩

namespace Inv

variable (h : s.Inv p)

include h

theorem since_next_le (x : Addr) : (s.next c).since x ≤ s.now := by
  change (if _ then _ else _) ≤ _
  split
  · exact le_rfl
  · exact h.past x

/-- A step after which the lists are in order. -/
theorem next (hc : c.Inv p) (hleaf : c.dxRoot = s.cache.dxRoot)
    (hl : ∀ i, (c.lists i).Pairwise (s.next c).Before) : (s.next c).Inv p :=
  ⟨hc, fun a => (congrFun hleaf a).trans (h.leaf a), fun a => (h.since_next_le a).trans (Nat.le_succ _), hl⟩

/-- A list with some of the inodes of before, all of them idle or in use as before. -/
theorem sublist {i : Nat} {l : List Addr} (hsub : l.Sublist (s.cache.lists i))
    (hkept : ∀ x ∈ l, c.Idle x ↔ s.cache.Idle x) : l.Pairwise (s.next c).Before :=
  ((h.lists i).sublist hsub).imp_of_mem fun hx hy hb => hb.next (hkept _ hx) (hkept _ hy)

/-- The others of the list of `a` are idle or in use as before, and so are the inodes of the other lists. -/
theorem erase (hkept : ∀ x, x ≠ a → (c.Idle x ↔ s.cache.Idle x)) :
    ((s.cache.lists (s.cache.shardId a)).erase a).Pairwise (s.next c).Before :=
  h.sublist List.erase_sublist fun x hx => hkept x ((h.cache.lists.nodup _).mem_erase_iff.1 hx).1

theorem relist (hkept : ∀ x, x ≠ a → (c.Idle x ↔ s.cache.Idle x)) {l : List Addr}
    (hl : l.Pairwise (s.next c).Before) (hlists : c.lists = update s.cache.lists (s.cache.shardId a) l) (i : Nat) :
    (c.lists i).Pairwise (s.next c).Before := by
  rw [hlists]
  by_cases hi : i = s.cache.shardId a
  · rw [hi, update_self]
    exact hl
  · rw [update_of_ne hi]
    refine h.sublist (.refl _) fun x hx => hkept x ?_
    rintro rfl
    exact hi ((h.cache.lists.mem i x).1 hx).2.symm

/-- An inode that was in use and still is stays where it is. -/
theorem same (hkept : ∀ x, x ≠ a → (c.Idle x ↔ s.cache.Idle x)) (hbusy : ¬ c.Idle a)
    (hbusy' : ¬ s.cache.Idle a) (hlists : c.lists = s.cache.lists) (i : Nat) : (c.lists i).Pairwise (s.next c).Before := by
  rw [hlists]
  refine h.sublist (.refl _) fun x _ => ?_
  by_cases hx : x = a
  · rw [hx]
    exact iff_of_false hbusy hbusy'
  · exact hkept x hx

/-! ## The calls -/

theorem add (hc : (s.cache.addInode a).Inv p) (ha : a ∈ s.cache.alive) (hout : a ∉ s.cache.tree) :
    (s.next (s.cache.addInode a)).Inv p := by
  refine h.next hc (by unfold addInode; split <;> rfl) ?_
  unfold addInode
  split
  · exact fun i => h.sublist (.refl _) fun _ _ => Iff.rfl
  generalize hs' : ({ s.cache with tree := a :: s.cache.tree, lists := _ } : Cache) = c
  have hkept : ∀ x, x ≠ a → (c.Idle x ↔ s.cache.Idle x) := fun x hx => by simp [← hs', Cache.Idle, hx]
  have hidle : c.Idle a := by
    rw [← hs']
    exact ⟨List.mem_cons_self, h.cache.private_ a ha hout⟩
  obtain ⟨hsince, hrel⟩ := next_of_idle hidle fun hi => hout hi.1
  have hlist : a ∉ s.cache.lists (s.cache.shardId a) := fun hm => hout ((h.cache.lists.mem _ a).1 hm).1
  refine h.relist hkept (List.pairwise_append.2 ⟨?_, List.pairwise_singleton _ _, fun x _ y hy => ?_⟩) (by rw [← hs'])
  · exact h.sublist (.refl _) fun x hx => hkept x fun heq => hlist (heq ▸ hx)
  · rw [List.mem_singleton.1 hy]
    refine ⟨fun _ hr => ?_, fun _ _ _ _ => hsince ▸ h.since_next_le x⟩
    rw [hrel, decide_eq_true_eq] at hr
    exact absurd hr hout

theorem refcnt_eq (ha : a ∈ s.cache.tree) : ∃ n : Nat, s.cache.refcnt a = s.cache.gets a + n :=
  ⟨_, h.cache.refs.count a (h.cache.tree a ha)⟩

theorem get (ha : a ∈ s.cache.tree) :
    (s.next { s.cache.getInode a with gets := update s.cache.gets a (s.cache.gets a + 1) }).Inv p := by
  obtain ⟨n, hn⟩ := h.refcnt_eq ha
  refine h.next (h.cache.get ha) rfl ?_
  generalize hc : ({ s.cache.getInode a with gets := _ } : Cache) = c
  have hkept : ∀ x, x ≠ a → (c.Idle x ↔ s.cache.Idle x) := fun x hx => by simp [← hc, Cache.Idle, getInode, hx]
  have hcnt : c.refcnt a = s.cache.refcnt a + 1 := by rw [← hc]; exact update_self ..
  have hbusy : ¬ c.Idle a := fun hi => by
    have h0 := hi.2
    omega
  by_cases h1 : s.cache.refcnt a + 1 = 1
  · refine h.relist hkept (List.pairwise_append.2 ⟨h.erase hkept, List.pairwise_singleton _ _, fun x _ y hy => ?_⟩)
      (by rw [← hc]; exact if_pos h1)
    rw [List.mem_singleton.1 hy]
    exact before_of_not_idle hbusy
  · -- it was in use already and stays where it is
    have hbusy' : ¬ s.cache.Idle a := fun hi => h1 (by rw [hi.2]; rfl)
    exact h.same hkept hbusy hbusy' (by rw [← hc]; exact if_neg h1)

theorem put (ha : 0 < s.cache.gets a) :
    (s.next { s.cache.putInode p a with gets := update s.cache.gets a (s.cache.gets a - 1) }).Inv p := by
  have htree := h.cache.mem_tree_of_held ha
  obtain ⟨n, hn⟩ := h.refcnt_eq htree
  have hbusy : ¬ s.cache.Idle a := fun hi => by
    have h0 := hi.2
    omega
  refine h.next (h.cache.put ha) rfl ?_
  generalize hc : ({ s.cache.putInode p a with gets := _ } : Cache) = c
  have hkept : ∀ x, x ≠ a → (c.Idle x ↔ s.cache.Idle x) := fun x hx => by simp [← hc, Cache.Idle, putInode, hx]
  have hcnt : c.refcnt a = s.cache.refcnt a - 1 := by rw [← hc]; exact update_self ..
  by_cases h0 : s.cache.refcnt a - 1 = 0
  · -- it is the one released last
    have hidle : c.Idle a := ⟨by rw [← hc]; exact htree, hcnt.trans h0⟩
    obtain ⟨hsince, hrel⟩ := next_of_idle hidle hbusy
    rw [decide_eq_true htree] at hrel
    refine h.relist hkept (List.pairwise_cons.2 ⟨fun x _ => ⟨fun _ _ => ⟨hidle, hrel, ?_⟩, fun _ hr => ?_⟩, h.erase hkept⟩)
      (by rw [← hc]; exact if_pos h0)
    · rw [hsince]
      exact h.since_next_le x
    · cases hrel.symm.trans hr
  · have hbusy' : ¬ c.Idle a := fun hi => h0 (hcnt ▸ hi.2)
    exact h.same hkept hbusy' hbusy (by rw [← hc]; exact if_neg h0)

end Inv

end Timed

/-! ## The eviction pass -/

namespace Cache

variable {p : Params} {s : Cache}

/-- What the turn of a shard leaves of its list. -/
def popIdle (refcnt : Addr → Int) : List Addr → List Addr
  | [] => []
  | a :: l => if refcnt a = 0 then l else a :: l

theorem popIdle_sublist (refcnt : Addr → Int) : ∀ l, (popIdle refcnt l).Sublist l
  | [] => .refl _
  | a :: l => by
    rw [popIdle]
    split
    · exact List.sublist_cons_self a l
    · exact .refl _

/-- The turn of a shard, where no inode refers to another one. -/
theorem evictShard_lists (hr : s.reentered = false) (hleaf : ∀ a, s.dxRoot a = []) (i : Nat) :
    (s.evictShard i).refcnt = s.refcnt ∧ (s.evictShard i).dxRoot = s.dxRoot ∧ (s.evictShard i).reentered = false ∧
      (s.evictShard i).lists = update s.lists i (popIdle s.refcnt (s.lists i)) := by
  have hchild : ∀ a, ¬ s.HasChild a := fun a ⟨ent, hent, _⟩ => by
    rw [hleaf a] at hent
    cases hent
  unfold evictShard
  rw [if_neg (by rw [hr]; decide)]
  split
  · next hl => exact ⟨rfl, rfl, hr, by rw [hl, popIdle, ← hl, update_eq_self]⟩
  rename_i a l hl
  rw [hl, popIdle]
  split
  · dsimp only
    rw [if_neg (by exact hchild a)]
    exact ⟨rfl, rfl, hr, rfl⟩
  · exact ⟨rfl, rfl, hr, by rw [← hl, update_eq_self]⟩

theorem foldl_evictShard_lists : ∀ {l : List Nat} {s : Cache}, l.Nodup → s.reentered = false → (∀ a, s.dxRoot a = []) →
    (l.foldl evictShard s).refcnt = s.refcnt ∧ (l.foldl evictShard s).dxRoot = s.dxRoot ∧
      ∀ i, (l.foldl evictShard s).lists i = if i ∈ l then popIdle s.refcnt (s.lists i) else s.lists i
  | [], _, _, _, _ => ⟨rfl, rfl, fun _ => rfl⟩
  | j :: l, s, hnd, hr, hleaf => by
    obtain ⟨hj, hnd⟩ := List.nodup_cons.1 hnd
    obtain ⟨hcnt, hdx, hr', hlists⟩ := evictShard_lists hr hleaf j
    obtain ⟨hcnt', hdx', hlists'⟩ := foldl_evictShard_lists hnd hr' fun a => (congrFun hdx a).trans (hleaf a)
    refine ⟨hcnt'.trans hcnt, hdx'.trans hdx, fun i => ?_⟩
    rw [List.foldl_cons, hlists', hcnt, hlists]
    by_cases hi : i = j
    · rw [hi, update_self, if_neg hj, if_pos List.mem_cons_self]
    · rw [update_of_ne hi]
      simp [hi]

/-- The pass takes the first inode of each list, if it is not in use. -/
theorem evict_lists (hr : s.reentered = false) (hleaf : ∀ a, s.dxRoot a = []) : (s.evict p).refcnt = s.refcnt ∧
    (s.evict p).dxRoot = s.dxRoot ∧
      ∀ i, (s.evict p).lists i = if i < p.numShards then popIdle s.refcnt (s.lists i) else s.lists i := by
  obtain ⟨hcnt, hdx, hlists⟩ := foldl_evictShard_lists (s := s) List.nodup_range hr hleaf
  refine ⟨hcnt, hdx, fun i => (hlists i).trans ?_⟩
  simp only [List.mem_range]

end Cache

namespace Timed

variable {p : Params} {s s' : Timed} {i : Nat}

theorem Inv.evict (h : s.Inv p) (hc : (({ s.cache with excess := s.cache.excess - 1 } : Cache).evict p).Inv p) :
    (s.next (({ s.cache with excess := s.cache.excess - 1 } : Cache).evict p)).Inv p := by
  obtain ⟨hcnt, hdx, hlists⟩ := evict_lists (p := p) (s := { s.cache with excess := s.cache.excess - 1 })
    h.cache.notEntered h.leaf
  refine h.next hc hdx fun i => ?_
  have hsub : ((({ s.cache with excess := s.cache.excess - 1 } : Cache).evict p).lists i).Sublist (s.cache.lists i) := by
    rw [hlists]
    split
    · exact popIdle_sublist ..
    · exact .refl _
  refine h.sublist hsub fun x hx => ?_
  have htree := ((h.cache.lists.mem i x).1 (hsub.subset hx)).1
  rw [Cache.Idle, Cache.Idle, hcnt]
  exact and_congr_left fun _ => iff_of_true ((hc.lists.mem i x).1 hx).1 htree

theorem Inv.step (h : s.Inv p) {e : Event} (hs : (lruSystem p).step s e = some s') : s'.Inv p := by
  obtain ⟨hcall, hs⟩ := Option.ite_none_right_eq_some.1 hs
  obtain ⟨c, hstep, rfl⟩ := Option.map_eq_some_iff.1 hs
  have hreg : s.cache.Regular p e := by
    cases e with
    | evict =>
      rintro i - a - - ⟨ent, hent, -⟩
      rw [h.leaf a] at hent
      cases hent
    | _ => trivial
  have hc := h.cache.step hreg hstep
  cases e with
  | create a ino =>
    obtain ⟨ha, hs⟩ := Option.ite_none_right_eq_some.1 hstep
    cases hs
    refine h.next hc (update_eq_self_iff.2 (h.leaf a).symm) fun i => h.sublist (.refl _) fun x hx => ?_
    have hxa : x ≠ a := fun heq => ha (heq ▸ h.cache.tree x ((h.cache.lists.mem i x).1 hx).1)
    simp [Cache.Idle, inodeCreate, hxa]
  | add a =>
    obtain ⟨⟨-, ha, hout⟩, hs⟩ := Option.ite_none_right_eq_some.1 hstep
    cases hs
    exact h.add hc ha hout
  | get ino =>
    obtain ⟨-, hs⟩ := Option.ite_none_left_eq_some.1 hstep
    split at hs
    · cases hs
      exact h.next hc rfl fun i => h.sublist (.refl _) fun _ _ => Iff.rfl
    · rename_i a ha
      cases hs
      exact h.get (find_mem ha)
  | put a =>
    obtain ⟨⟨-, ha⟩, hs⟩ := Option.ite_none_right_eq_some.1 hstep
    cases hs
    exact h.put ha
  | free a =>
    obtain ⟨-, hs⟩ := Option.ite_none_right_eq_some.1 hstep
    cases hs
    exact h.next hc rfl fun i => h.sublist (.refl _) fun _ _ => Iff.rfl
  | evict =>
    obtain ⟨-, hs⟩ := Option.ite_none_right_eq_some.1 hstep
    cases hs
    exact h.evict hc
  | dxAdd | dxDel => cases hcall

theorem inv_reachable (h : (lruSystem p).Reachable s) : s.Inv p := by
  refine h.invariant (P := Timed.Inv p) ?_ fun _ _ _ _ hi hs => hi.step hs
  rintro s ⟨h0, hsince⟩
  refine ⟨inv_init p h0, ?_, fun a => (hsince a).le.trans (Nat.zero_le _), ?_⟩ <;> rw [show s.cache = _ from h0]
  · exact fun _ => rfl
  · exact fun _ => List.Pairwise.nil

/-- What a pass takes from a shard is the first inode of its list, if that is idle. -/
theorem Inv.evicted (h : s.Inv p) (hs : (lruSystem p).step s .evict = some s') (hi : i < p.numShards) {a : Addr} :
    a ∈ s.cache.lists i ∧ a ∉ s'.cache.lists i ↔ (s.cache.lists i).head? = some a ∧ s.cache.Idle a := by
  have hnd := h.cache.lists.nodup i
  have htree : ∀ x ∈ s.cache.lists i, x ∈ s.cache.tree := fun x hx => ((h.cache.lists.mem i x).1 hx).1
  have hpop : s'.cache.lists i = popIdle s.cache.refcnt (s.cache.lists i) := by
    obtain ⟨c, hstep, rfl⟩ := Option.map_eq_some_iff.1 hs
    obtain ⟨-, hstep⟩ := Option.ite_none_right_eq_some.1 hstep
    cases hstep
    obtain ⟨-, -, hlists⟩ := evict_lists (p := p) (s := { s.cache with excess := s.cache.excess - 1 })
      h.cache.notEntered h.leaf
    exact (hlists i).trans (if_pos hi)
  rw [hpop]
  cases hl : s.cache.lists i with
  | nil => simp
  | cons x l =>
    rw [hl] at hnd htree
    have hx := htree x List.mem_cons_self
    have hxl := (List.nodup_cons.1 hnd).1
    rw [popIdle, List.head?_cons, Option.some.injEq]
    split
    · rename_i h0
      constructor
      · rintro ⟨ha, hal⟩
        obtain rfl := (List.mem_cons.1 ha).resolve_right hal
        exact ⟨rfl, hx, h0⟩
      · rintro ⟨rfl, -⟩
        exact ⟨List.mem_cons_self, hxl⟩
    · rename_i h0
      constructor
      · exact fun ⟨ha, hna⟩ => absurd ha hna
      · rintro ⟨rfl, hidle⟩
        exact absurd hidle.2 h0

end Timed

/-- For every sequence of calls, number of shards and `inodetree_lru_size`: an eviction pass takes the inode of a
shard that has been idle longest, and takes one if any is idle, exactly if no inode of the shard was released after
another one became idle that still is and, if none was released, the one at the front is idle. -/
theorem evicts_oldest_iff (p : Params) {s s' : Timed} (h : (lruSystem p).Reachable s)
    (hs : (lruSystem p).step s .evict = some s') (i : Nat) (hi : i < p.numShards) : EvictsOldest s s' i ↔ OldestFirst s i := by
  have hinv := Timed.inv_reachable h
  have hev := @Timed.Inv.evicted p s s' i hinv hs hi
  have hord := hinv.lists i
  constructor
  · rintro ⟨holdest, hyields⟩
    refine ⟨fun a ha hidle hrel b hb hib => ?_, fun _ hex a hfirst => ?_⟩
    · obtain ⟨x, hx, hgone⟩ := hyields ⟨a, ha, hidle⟩
      obtain ⟨-, hmin⟩ := holdest x hx hgone
      have hhead := (hev.1 ⟨hx, hgone⟩).1
      refine le_trans ?_ (hmin b hb hib)
      -- the first inode was released no earlier than any other one
      obtain ⟨l, hl⟩ := List.head?_eq_some_iff.1 hhead
      rw [hl] at ha hord
      rcases List.mem_cons.1 ha with rfl | ha
      · exact le_rfl
      · exact ((List.pairwise_cons.1 hord).1 a ha |>.released hidle hrel).2.2
    · obtain ⟨x, hx, hgone⟩ := hyields hex
      obtain ⟨hhead, hidle⟩ := hev.1 ⟨hx, hgone⟩
      cases hhead.symm.trans hfirst
      exact hidle
  · rintro ⟨hreleased, hadded⟩
    cases hl : s.cache.lists i with
    | nil =>
      constructor
      · intro a ha
        rw [hl] at ha
        cases ha
      · rintro ⟨b, hb, -⟩
        rw [hl] at hb
        cases hb
    | cons x l =>
      have hx : x ∈ s.cache.lists i := hl ▸ List.mem_cons_self
      rw [hl] at hord
      have hbefore := (List.pairwise_cons.1 hord).1
      refine ⟨fun a ha hgone => ?_, fun hex => ⟨x, hev.2 ⟨by rw [hl]; rfl, ?_⟩⟩⟩
      · obtain ⟨hhead, hidle⟩ := hev.1 ⟨ha, hgone⟩
        obtain rfl : x = a := by simpa [hl] using hhead
        refine ⟨hidle, fun b hb hib => ?_⟩
        cases hrel : s.released x with
        | true => exact hreleased x ha hidle hrel b hb hib
        | false =>
          -- the first inode was added, so no other one that is idle was released
          rw [hl] at hb
          rcases List.mem_cons.1 hb with rfl | hb
          · exact le_rfl
          · cases hrelb : s.released b with
            | true => cases hrel.symm.trans ((hbefore b hb).released hib hrelb).2.1
            | false => exact (hbefore b hb).added hidle hrel hib hrelb
      · by_cases hany : ∃ b ∈ s.cache.lists i, s.cache.Idle b ∧ s.released b = true
        · obtain ⟨b, hb, hib, hrel⟩ := hany
          rw [hl] at hb
          rcases List.mem_cons.1 hb with rfl | hb
          · exact hib
          · exact ((hbefore b hb).released hib hrel).1
        · refine hadded (fun b hb hib => ?_) hex x (by rw [hl]; rfl)
          exact Bool.eq_false_iff.2 fun hrel => hany ⟨b, hb, hib, hrel⟩

/-! ## Three inodes, and room for two -/

def roomForTwo : Params := { oneShard with lruSize := 2 }

def emptyTimed : Timed := ⟨emptyCache, 0, fun _ => 0, fun _ => false⟩

/-- Inode 0 is released, then inode 1 is added; inode 2 is got twice and put once, and this call evicts. -/
theorem evicts_oldest_iff_released : ∃ s s', (lruSystem roomForTwo).Reachable s ∧
    (lruSystem roomForTwo).step s .evict = some s' ∧ s.cache.lists 0 = [10, 11, 12] ∧ s.cache.Idle 10 ∧ s.cache.Idle 11 ∧
      OldestFirst s 0 ∧ EvictsOldest s s' 0 := by
  have hs := (lruSystem roomForTwo).reachable_last emptyTimed [.create 10 0, .add 10, .get 0, .put 10, .create 11 1, .add 11,
    .create 12 2, .add 12, .get 2, .get 2, .put 12] ⟨rfl, fun _ => rfl⟩ (by decide +kernel)
  generalize hlast : Option.get .. = s at hs
  obtain ⟨hdue, hl, h10, h11, h12, hr, hle⟩ : ((lruSystem roomForTwo).step s .evict).isSome ∧
      s.cache.lists 0 = [10, 11, 12] ∧ s.cache.Idle 10 ∧ s.cache.Idle 11 ∧ ¬ s.cache.Idle 12 ∧ s.released 10 = true ∧
        s.released 11 = false ∧ s.since 10 ≤ s.since 11 := by
    rw [← hlast]
    decide +kernel
  obtain ⟨s', hs'⟩ := Option.isSome_iff_exists.1 hdue
  have hfirst : OldestFirst s 0 := by
    constructor <;> simp [hl, h10, h11, h12, hr, hle]
  exact ⟨s, s', hs, hs', hl, h10, h11, hfirst, (evicts_oldest_iff roomForTwo hs hs' 0 Nat.zero_lt_one).2 hfirst⟩

/-- Inodes 0, 1 and 2 are released one after the other. The first two calls find room; the third takes inode 2 and
leaves inode 0. -/
theorem evicts_last_released : ¬ ∀ (p : Params) (s s' : Timed), (lruSystem p).Reachable s →
    (lruSystem p).step s .evict = some s' → ∀ i < p.numShards, EvictsOldest s s' i := by
  intro hall
  have hs := (lruSystem roomForTwo).reachable_last emptyTimed [.create 10 0, .add 10, .get 0, .create 11 1, .add 11, .get 1,
    .put 10, .put 11, .create 12 2, .add 12, .get 2, .put 12] ⟨rfl, fun _ => rfl⟩ (by decide +kernel)
  generalize hlast : Option.get .. = s at hs
  obtain ⟨s', hs', ha, hgone, hb, h10, hlt⟩ : ∃ s', (lruSystem roomForTwo).step s .evict = some s' ∧
      12 ∈ s.cache.lists 0 ∧ 12 ∉ s'.cache.lists 0 ∧ 10 ∈ s.cache.lists 0 ∧ s.cache.Idle 10 ∧ s.since 10 < s.since 12 := by
    rw [← hlast]
    exact ⟨_, rfl, by decide +kernel⟩
  exact absurd (((hall roomForTwo s s' hs hs' 0 Nat.zero_lt_one).oldest 12 ha hgone).2 10 hb h10) (Nat.not_le.2 hlt)

end PolarFs.InodeCache
