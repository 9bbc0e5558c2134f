/-
The entry lists of all directories at once: the list of each directory is a ring through its header, the
lists share no direntry, and a direntry in no list has no links. `pfs_meta_list_insert` appends to one list
and `pfs_meta_list_delete` takes out of one; the others stay.
-/
import PolarFs.Dir.Memdir

namespace PolarFs.Dir

open LinkedRing (Ring)
open Function (update update_self update_of_ne)
open Links

/-- `ents d` are the entries of the directory `d`. -/
structure ListsOk (lk : Links) (dir : Nat → Prop) (ents : Nat → List Nat) : Prop where
  ring : ∀ d, dir d → Ring (lk.fwd d) (lk.bwd d) 0 (ents d)
  disjoint : ∀ {d d' e}, e ∈ ents d → e ∈ ents d' → d = d'
  out : ∀ e, (∀ d, e ∉ ents d) → lk.next e = 0 ∧ lk.prev e = 0
  nonzero : ∀ d, 0 ∉ ents d

variable {lk : Links} {dir dir' : Nat → Prop} {ents : Nat → List Nat} {d e : Nat}

@[simp] theorem Links.fwd_zero (lk : Links) (d : Nat) : lk.fwd d 0 = lk.head d := rfl

@[simp] theorem Links.bwd_zero (lk : Links) (d : Nat) : lk.bwd d 0 = lk.tail d := rfl

theorem Links.fwd_of_ne (lk : Links) (d : Nat) (h : e ≠ 0) : lk.fwd d e = lk.next e := if_neg h

theorem Links.bwd_of_ne (lk : Links) (d : Nat) (h : e ≠ 0) : lk.bwd d e = lk.prev e := if_neg h

theorem metaListInsert_tail (lk : Links) (d e : Nat) : (metaListInsert lk d e).tail = update lk.tail d e := by
  unfold metaListInsert
  split <;> rfl

theorem metaListInsert_nil (hhead : lk.head d = 0) :
    (metaListInsert lk d e).head = update lk.head d e ∧ (metaListInsert lk d e).next = lk.next ∧
      (metaListInsert lk d e).prev = lk.prev := by
  simp [metaListInsert, hhead]

theorem metaListInsert_cons (hhead : lk.head d ≠ 0) :
    (metaListInsert lk d e).head = lk.head ∧ (metaListInsert lk d e).next = update lk.next (lk.tail d) e ∧
      (metaListInsert lk d e).prev = update lk.prev e (lk.tail d) := by
  simp [metaListInsert, hhead]

theorem mem_update_append {x d' : Nat} : x ∈ update ents d (ents d ++ [e]) d' ↔ x ∈ ents d' ∨ (d' = d ∧ x = e) := by
  by_cases hd : d' = d
  · subst hd
    simp
  · simp [hd]

theorem mem_update_erase {x d' : Nat} (hnd : (ents d).Nodup) :
    x ∈ update ents d ((ents d).erase e) d' ↔ x ∈ ents d' ∧ ¬ (d' = d ∧ x = e) := by
  by_cases hd : d' = d
  · subst hd
    simp [hnd.mem_erase_iff, and_comm]
  · simp [hd]

/-- The links `pfs_meta_list_delete` leaves, field by field. -/
theorem metaListDelete_eq (lk : Links) (d e : Nat) (hpe : lk.prev e ≠ e) :
    metaListDelete lk d e =
      { head := if lk.prev e = 0 then update lk.head d (lk.next e) else lk.head
        tail := if lk.next e = 0 then update lk.tail d (lk.prev e) else lk.tail
        next := update (if lk.prev e = 0 then lk.next else update lk.next (lk.prev e) (lk.next e)) e 0
        prev := update (if lk.next e = 0 then lk.prev else update lk.prev (lk.next e) (lk.prev e)) e 0 } := by
  have hnext : update lk.next (lk.prev e) (lk.next e) e = lk.next e := update_of_ne (Ne.symm hpe) ..
  by_cases hp : lk.prev e = 0 <;> by_cases hn : lk.next e = 0
  · simp [metaListDelete, hp, hn]
  · simp [metaListDelete, hp, hn]
  · rw [hn] at hnext
    simp [metaListDelete, hp, hn, hnext]
  · simp [metaListDelete, hp, hn, hnext]

/-- The forward links of the lists that are left: the entry before `e`, or the header, leads to the one behind. -/
theorem metaListDelete_fwd (hpe : lk.prev e ≠ e) {d' y : Nat} (hye : y ≠ e) :
    (metaListDelete lk d e).fwd d' y = if y = lk.prev e ∧ (y = 0 → d' = d) then lk.next e else lk.fwd d' y := by
  rw [metaListDelete_eq lk d e hpe]
  by_cases hy0 : y = 0
  · subst hy0
    by_cases hp : lk.prev e = 0
    · by_cases hd : d' = d
      · simp [hp, hd]
      · simp [hp, hd]
    · simp [hp, Ne.symm hp]
  · by_cases hp : lk.prev e = 0
    · simp [fwd, hp, hy0, hye]
    · by_cases hyp : y = lk.prev e
      · simp [fwd, hp, hyp, hpe]
      · simp [fwd, hp, hy0, hye, hyp]

theorem metaListDelete_bwd (hpe : lk.prev e ≠ e) (hne : lk.next e ≠ e) {d' y : Nat} (hye : y ≠ e) :
    (metaListDelete lk d e).bwd d' y = if y = lk.next e ∧ (y = 0 → d' = d) then lk.prev e else lk.bwd d' y := by
  rw [metaListDelete_eq lk d e hpe]
  by_cases hy0 : y = 0
  · subst hy0
    by_cases hn : lk.next e = 0
    · by_cases hd : d' = d
      · simp [hn, hd]
      · simp [hn, hd]
    · simp [hn, Ne.symm hn]
  · by_cases hn : lk.next e = 0
    · simp [bwd, hn, hy0, hye]
    · by_cases hyn : y = lk.next e
      · simp [bwd, hn, hyn, hne]
      · simp [bwd, hn, hy0, hye, hyn]

theorem metaListDelete_ends (hpe : lk.prev e ≠ e) {d' : Nat} (hd : d' ≠ d) :
    (metaListDelete lk d e).head d' = lk.head d' ∧ (metaListDelete lk d e).tail d' = lk.tail d' := by
  rw [metaListDelete_eq lk d e hpe]
  constructor
  · by_cases hp : lk.prev e = 0 <;> simp [hp, hd]
  · by_cases hn : lk.next e = 0 <;> simp [hn, hd]

/-! ## The lists -/

namespace ListsOk

variable (h : ListsOk lk dir ents)

include h

theorem ne_zero (he : e ∈ ents d) : e ≠ 0 := fun h0 => h.nonzero d (h0 ▸ he)

theorem head_eq_zero_iff (hd : dir d) : lk.head d = 0 ↔ ents d = [] :=
  (h.ring d hd).fwd_eq_iff

theorem tail_eq_zero_iff (hd : dir d) : lk.tail d = 0 ↔ ents d = [] :=
  (h.ring d hd).bwd_eq_iff

theorem tail_mem (hd : dir d) (hne : ents d ≠ []) : lk.tail d ∈ ents d :=
  (h.ring d hd).bwd_header_mem hne

/-- The lists read the links of their entries and the ends of their directories. -/
theorem congr {lk' : Links} (hdir : ∀ d, dir' d → ents d ≠ [] → dir d)
    (hnil : ∀ d, dir' d → ents d = [] → lk'.head d = 0 ∧ lk'.tail d = 0)
    (hends : ∀ d, dir' d → ents d ≠ [] → lk'.head d = lk.head d ∧ lk'.tail d = lk.tail d) (hnext : lk'.next = lk.next)
    (hprev : lk'.prev = lk.prev) : ListsOk lk' dir' ents := by
  refine ⟨fun d hd => ?_, h.disjoint, fun e he => ?_, h.nonzero⟩
  · by_cases hl : ents d = []
    · rw [hl]
      exact LinkedRing.Ring.nil_iff.2 (hnil d hd hl)
    · obtain ⟨hhead, htail⟩ := hends d hd hl
      refine (h.ring d (hdir d hd hl)).congr (fun y _ => ?_) (fun y _ => ?_)
      · simp only [fwd, hhead, hnext]
      · simp only [bwd, htail, hprev]
  · rw [hnext, hprev]
    exact h.out e he

/-- The links of the list that grows, whether it was empty or not. -/
theorem insert_ring (hd : dir d) (he0 : e ≠ 0) (hout : ∀ d, e ∉ ents d) :
    Ring ((metaListInsert lk d e).fwd d) ((metaListInsert lk d e).bwd d) 0 (ents d ++ [e]) := by
  obtain ⟨hnext, hprev⟩ := h.out e hout
  have hx : e ∉ 0 :: ents d := by simp [he0, hout d]
  have htail' : (metaListInsert lk d e).bwd d 0 = e := by simp [metaListInsert_tail]
  by_cases hl : ents d = []
  · have hhead : lk.head d = 0 := (h.head_eq_zero_iff hd).2 hl
    have htail : lk.tail d = 0 := (h.tail_eq_zero_iff hd).2 hl
    obtain ⟨hh, hn, hp⟩ := metaListInsert_nil (e := e) hhead
    refine (h.ring d hd).push hx ?_ ?_ ?_ htail' ?_ ?_
    · simp [htail, hh]
    · rw [fwd_of_ne _ _ he0, hn, hnext]
    · rw [bwd_of_ne _ _ he0, hp, hprev, bwd_zero, htail]
    · intro y hy hne
      rw [hl, List.mem_singleton] at hy
      exact absurd (hy.trans htail.symm) hne
    · intro y hy
      rw [hl] at hy
      cases hy
  · have hhead : lk.head d ≠ 0 := fun h0 => hl ((h.head_eq_zero_iff hd).1 h0)
    have hmem : lk.tail d ∈ ents d := h.tail_mem hd hl
    have htail : lk.tail d ≠ 0 := h.ne_zero hmem
    have hte : e ≠ lk.tail d := fun heq => hout d (heq ▸ hmem)
    obtain ⟨hh, hn, hp⟩ := metaListInsert_cons (e := e) hhead
    refine (h.ring d hd).push hx ?_ ?_ ?_ htail' ?_ ?_
    · rw [bwd_zero, fwd_of_ne _ _ htail, hn, update_self]
    · rw [fwd_of_ne _ _ he0, hn, update_of_ne hte, hnext]
    · rw [bwd_of_ne _ _ he0, hp, update_self, bwd_zero]
    · intro y hy hne
      rw [bwd_zero] at hne
      by_cases hy0 : y = 0
      · rw [hy0, fwd_zero, fwd_zero, hh]
      · rw [fwd_of_ne _ _ hy0, fwd_of_ne _ _ hy0, hn, update_of_ne hne]
    · intro y hy
      have hy0 : y ≠ 0 := h.ne_zero hy
      have hye : y ≠ e := fun heq => hout d (heq ▸ hy)
      rw [bwd_of_ne _ _ hy0, bwd_of_ne _ _ hy0, hp, update_of_ne hye]

/-- What `pfs_meta_list_insert` leaves outside the list and the new entry. -/
theorem insert_frame (hd : dir d) : (∀ d', d' ≠ d → (metaListInsert lk d e).head d' = lk.head d') ∧
      (∀ y, y ∉ ents d → (metaListInsert lk d e).next y = lk.next y) ∧
      ∀ y, y ≠ e → (metaListInsert lk d e).prev y = lk.prev y := by
  by_cases hhead : lk.head d = 0
  · obtain ⟨hh, hn, hp⟩ := metaListInsert_nil (e := e) hhead
    refine ⟨fun d' hne => ?_, fun y _ => ?_, fun y _ => ?_⟩
    · rw [hh, update_of_ne hne]
    · rw [hn]
    · rw [hp]
  · obtain ⟨hh, hn, hp⟩ := metaListInsert_cons (e := e) hhead
    have hmem : lk.tail d ∈ ents d := h.tail_mem hd fun hl => hhead ((h.head_eq_zero_iff hd).2 hl)
    refine ⟨fun d' _ => ?_, fun y hy => ?_, fun y hye => ?_⟩
    · rw [hh]
    · have hyt : y ≠ lk.tail d := fun heq => hy (heq ▸ hmem)
      rw [hn, update_of_ne hyt]
    · rw [hp, update_of_ne hye]

theorem insert (hd : dir d) (he0 : e ≠ 0) (hout : ∀ d, e ∉ ents d) :
    ListsOk (metaListInsert lk d e) dir (update ents d (ents d ++ [e])) := by
  obtain ⟨hhead, hnext, hprev⟩ := h.insert_frame (e := e) hd
  refine ⟨?_, ?_, ?_, ?_⟩
  · intro d' hd'
    by_cases hne : d' = d
    · subst hne
      rw [update_self]
      exact h.insert_ring hd he0 hout
    · rw [update_of_ne hne]
      refine (h.ring d' hd').congr ?_ ?_
      · intro y hy
        rcases List.mem_cons.1 hy with rfl | hy
        · rw [fwd_zero, fwd_zero, hhead d' hne]
        · have hyd : y ∉ ents d := fun hmem => hne (h.disjoint hy hmem)
          rw [fwd_of_ne _ _ (h.ne_zero hy), fwd_of_ne _ _ (h.ne_zero hy), hnext y hyd]
      · intro y hy
        rcases List.mem_cons.1 hy with rfl | hy
        · rw [bwd_zero, bwd_zero, metaListInsert_tail, update_of_ne hne]
        · have hye : y ≠ e := fun heq => hout d' (heq ▸ hy)
          rw [bwd_of_ne _ _ (h.ne_zero hy), bwd_of_ne _ _ (h.ne_zero hy), hprev y hye]
  · intro d₁ d₂ x h₁ h₂
    rcases mem_update_append.1 h₁ with hx₁ | ⟨hd₁, he₁⟩ <;> rcases mem_update_append.1 h₂ with hx₂ | ⟨hd₂, he₂⟩
    · exact h.disjoint hx₁ hx₂
    · exact absurd (he₂ ▸ hx₁) (hout d₁)
    · exact absurd (he₁ ▸ hx₂) (hout d₂)
    · rw [hd₁, hd₂]
  · intro y hy
    have hyd : ∀ d', y ∉ ents d' := fun d' hmem => hy d' (mem_update_append.2 (.inl hmem))
    have hye : y ≠ e := fun heq => hy d (mem_update_append.2 (.inr ⟨rfl, heq⟩))
    rw [hnext y (hyd d), hprev y hye]
    exact h.out y hyd
  · intro d' hmem
    rcases mem_update_append.1 hmem with hmem | ⟨-, h0⟩
    · exact h.nonzero d' hmem
    · exact he0 h0.symm

theorem prev_ne (hd : dir d) (he : e ∈ ents d) : lk.prev e ≠ e := by
  have hne := ((h.ring d hd).neighbours he).2.1
  rwa [bwd_of_ne _ _ (h.ne_zero he)] at hne

theorem delete (hd : dir d) (he : e ∈ ents d) :
    ListsOk (metaListDelete lk d e) dir (update ents d ((ents d).erase e)) := by
  have he0 : e ≠ 0 := h.ne_zero he
  have hnd : (ents d).Nodup := (h.ring d hd).nodup_tail
  obtain ⟨hpmem, hpe, hnmem, hne⟩ := (h.ring d hd).neighbours he
  rw [bwd_of_ne _ _ he0] at hpmem hpe
  rw [fwd_of_ne _ _ he0] at hnmem hne
  refine ⟨?_, ?_, ?_, ?_⟩
  · intro d' hd'
    by_cases hdd : d' = d
    · subst hdd
      rw [update_self]
      refine (h.ring d' hd').erase he ?_ ?_ ?_ ?_
      · rw [bwd_of_ne _ _ he0, fwd_of_ne _ _ he0, metaListDelete_fwd hpe hpe]
        simp
      · rw [bwd_of_ne _ _ he0, fwd_of_ne _ _ he0, metaListDelete_bwd hpe hne hne]
        simp
      · intro y _ hyp hye
        rw [bwd_of_ne _ _ he0] at hyp
        rw [metaListDelete_fwd hpe hye, if_neg fun hy => hyp hy.1]
      · intro y _ hyn hye
        rw [fwd_of_ne _ _ he0] at hyn
        rw [metaListDelete_bwd hpe hne hye, if_neg fun hy => hyn hy.1]
    · -- another list has no entry in common with this one; its header is not this one's
      rw [update_of_ne hdd]
      have hshared : ∀ {y x}, y ∈ 0 :: ents d' → x ∈ 0 :: ents d → y = x → y = 0 := by
        rintro y _ hy hx rfl
        rcases List.mem_cons.1 hy with h0 | hy
        · exact h0
        · rcases List.mem_cons.1 hx with h0 | hx
          · exact h0
          · exact absurd (h.disjoint hy hx) hdd
      have hye : ∀ {y}, y ∈ 0 :: ents d' → y ≠ e := fun hy heq =>
        he0 (heq ▸ hshared hy (List.mem_cons_of_mem _ he) heq)
      refine (h.ring d' hd').congr ?_ ?_
      · intro y hy
        rw [metaListDelete_fwd hpe (hye hy), if_neg fun hc => hdd (hc.2 (hshared hy hpmem hc.1))]
      · intro y hy
        rw [metaListDelete_bwd hpe hne (hye hy), if_neg fun hc => hdd (hc.2 (hshared hy hnmem hc.1))]
  · intro d₁ d₂ x h₁ h₂
    exact h.disjoint ((mem_update_erase hnd).1 h₁).1 ((mem_update_erase hnd).1 h₂).1
  · intro y hy
    by_cases hye : y = e
    · subst hye
      rw [metaListDelete_eq lk d y hpe]
      simp
    · have hyout : ∀ d', y ∉ ents d' := fun d' hmem => hy d' ((mem_update_erase hnd).2 ⟨hmem, fun hc => hye hc.2⟩)
      have hkeep : ∀ {x}, x ∈ 0 :: ents d → x ≠ 0 → y ≠ x := fun hx hx0 heq =>
        hyout d (heq ▸ (List.mem_cons.1 hx).resolve_left hx0)
      obtain ⟨hnext, hprev⟩ := h.out y hyout
      rw [metaListDelete_eq lk d e hpe]
      constructor
      · by_cases hp : lk.prev e = 0
        · simp [hp, hye, hnext]
        · simp [hp, hye, hkeep hpmem hp, hnext]
      · by_cases hn : lk.next e = 0
        · simp [hn, hye, hprev]
        · simp [hn, hye, hkeep hnmem hn, hprev]
  · intro d' hmem
    exact h.nonzero d' ((mem_update_erase hnd).1 hmem).1

end ListsOk

end PolarFs.Dir
