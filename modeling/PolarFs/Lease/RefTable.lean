/-
The table in which a pfsd counts the clients of its shared mount, for each host id: `pfs_host_incref` and its
kin (`pfs_mount.cc`).
-/
import Mathlib.Tactic

namespace PolarFs.Lease

open Function (update update_self update_of_ne update_eq_self)

def defaultMaxHosts : Nat := 254

/-- `pfsd_mount_shared_info_t`. -/
structure SharedInfo where
  refCount : Nat
  isRwmnt : Bool
  deriving DecidableEq, Repr

/-- `pfsd_mount_shared_infos`, `pfsd_mnt_wrref_count` and `pfsd_mnt_ref_count`. -/
structure RefTable where
  infos : Nat → SharedInfo
  wrrefCount : Nat
  refCount : Nat

namespace RefTable

variable (t : RefTable)

/-- `pfs_host_incref`. -/
def hostIncref (hostId : Nat) (wr : Bool) : Option RefTable :=
  let info := t.infos hostId
  if wr then
    if info.refCount ≠ 0 then none
    else some ⟨update t.infos hostId ⟨info.refCount + 1, true⟩, t.wrrefCount + 1, t.refCount + 1⟩
  else if info.refCount ≠ 0 ∧ info.isRwmnt then none
  else some ⟨update t.infos hostId ⟨info.refCount + 1, info.isRwmnt⟩, t.wrrefCount, t.refCount + 1⟩

/-- `pfs_host_decref`. -/
def hostDecref (hostId : Nat) : Option RefTable :=
  let info := t.infos hostId
  if info.refCount = 0 then none
  else some ⟨update t.infos hostId ⟨info.refCount - 1, false⟩,
    if info.isRwmnt then t.wrrefCount - 1 else t.wrrefCount, t.refCount - 1⟩

/-- `pfs_host_promot_ref`. -/
def hostPromotRef (hostId : Nat) : Option RefTable :=
  let info := t.infos hostId
  if info.refCount = 0 ∨ info.isRwmnt ∨ info.refCount ≠ 1 then none
  else some ⟨update t.infos hostId ⟨info.refCount, true⟩, t.wrrefCount + 1, t.refCount⟩

/-- `pfs_host_depromot_ref`. -/
def hostDepromotRef (hostId : Nat) : Option RefTable :=
  let info := t.infos hostId
  if info.refCount = 0 ∨ !info.isRwmnt ∨ info.refCount ≠ 1 then none
  else some ⟨update t.infos hostId ⟨info.refCount, false⟩, t.wrrefCount - 1, t.refCount⟩

/-- `pfs_host_get_another_id`. -/
def hostGetAnotherId : Option Nat :=
  (List.range' 1 defaultMaxHosts).find? fun i => decide (0 < (t.infos i).refCount)

/-- `pfs_host_get_another_wrid`. -/
def hostGetAnotherWrid : Option Nat :=
  (List.range' 1 defaultMaxHosts).find? fun i => (t.infos i).isRwmnt

/-- The indices of the table. -/
def hosts : Finset Nat := Finset.range (defaultMaxHosts + 1)

theorem mem_hosts {i : Nat} : i ∈ hosts ↔ i ≤ defaultMaxHosts := by
  rw [hosts, Finset.mem_range]; omega

/-- What the counts stand for. -/
structure Ok : Prop where
  total : t.refCount = ∑ i ∈ hosts, (t.infos i).refCount
  writers : t.wrrefCount = (hosts.filter fun i => (t.infos i).isRwmnt).card
  single : ∀ i ∈ hosts, (t.infos i).isRwmnt = true → (t.infos i).refCount = 1

variable {t} {k : Nat} {t' : RefTable}

theorem sum_update {β : Type} (f : β → Nat) (g : Nat → β) (hk : k ∈ hosts) (x : β) :
    (∑ i ∈ hosts, f (update g k x i)) + f (g k) = (∑ i ∈ hosts, f (g i)) + f x := by
  have hcomp : (fun i => f (update g k x i)) = update (fun i => f (g i)) k (f x) := by
    funext i
    by_cases hi : i = k
    · subst hi; simp
    · simp [update_of_ne hi]
  rw [hcomp, Finset.sum_update_of_mem hk, Finset.sdiff_singleton_eq_erase, ← Finset.add_sum_erase hosts _ hk]
  omega

theorem writers_eq_sum (infos : Nat → SharedInfo) :
    (hosts.filter fun i => (infos i).isRwmnt).card = ∑ i ∈ hosts, (infos i).isRwmnt.toNat := by
  rw [Finset.card_filter]
  exact Finset.sum_congr rfl fun i _ => by cases (infos i).isRwmnt <;> rfl

theorem hostIncref_some {wr : Bool} (h : t.hostIncref k wr = some t') :
    t' = ⟨update t.infos k ⟨(t.infos k).refCount + 1, wr || (t.infos k).isRwmnt⟩, t.wrrefCount + wr.toNat,
      t.refCount + 1⟩ ∧ (wr = true → (t.infos k).refCount = 0) ∧
      (wr = false → (t.infos k).isRwmnt = true → (t.infos k).refCount = 0) := by
  unfold RefTable.hostIncref at h
  cases wr with
  | true =>
    simp only [if_true, ne_eq, ite_not, Option.ite_none_right_eq_some, Option.some.injEq] at h
    exact ⟨h.2.symm, fun _ => h.1, fun hf => by cases hf⟩
  | false =>
    simp only [Bool.false_eq_true, if_false, Option.ite_none_left_eq_some, Option.some.injEq] at h
    exact ⟨by simpa using h.2.symm, fun hf => (by cases hf), fun _ hrw => by_contra fun hne => h.1 ⟨hne, hrw⟩⟩

theorem hostDecref_some (h : t.hostDecref k = some t') :
    t' = ⟨update t.infos k ⟨(t.infos k).refCount - 1, false⟩, t.wrrefCount - (t.infos k).isRwmnt.toNat,
      t.refCount - 1⟩ ∧ (t.infos k).refCount ≠ 0 := by
  unfold RefTable.hostDecref at h
  simp only [Option.ite_none_left_eq_some, Option.some.injEq] at h
  obtain ⟨hne, rfl⟩ := h
  exact ⟨by cases (t.infos k).isRwmnt <;> rfl, hne⟩

theorem hostPromotRef_some (h : t.hostPromotRef k = some t') :
    t' = ⟨update t.infos k ⟨1, true⟩, t.wrrefCount + 1, t.refCount⟩ ∧ t.infos k = ⟨1, false⟩ := by
  unfold RefTable.hostPromotRef at h
  simp only [Option.ite_none_left_eq_some, Option.some.injEq, not_or, not_not, Bool.not_eq_true] at h
  obtain ⟨⟨-, hro, hone⟩, rfl⟩ := h
  rw [hone]
  exact ⟨rfl, by rw [← hone, ← hro]⟩

theorem hostDepromotRef_some (h : t.hostDepromotRef k = some t') :
    t' = ⟨update t.infos k ⟨1, false⟩, t.wrrefCount - 1, t.refCount⟩ ∧ t.infos k = ⟨1, true⟩ := by
  unfold RefTable.hostDepromotRef at h
  simp only [Option.ite_none_left_eq_some, Option.some.injEq, not_or, not_not, Bool.not_eq_true', Bool.not_eq_false] at h
  obtain ⟨⟨-, hrw, hone⟩, rfl⟩ := h
  rw [hone]
  exact ⟨rfl, by rw [← hone, ← hrw]⟩

namespace Ok

variable (ht : t.Ok) (hk : k ∈ hosts)

include ht hk

/-- A change of one entry that the two counts follow. -/
theorem set {wr total : Nat} {x : SharedInfo} (htotal : total + (t.infos k).refCount = t.refCount + x.refCount)
    (hwr : wr + (t.infos k).isRwmnt.toNat = t.wrrefCount + x.isRwmnt.toNat) (hx : x.isRwmnt = true → x.refCount = 1) :
    Ok ⟨update t.infos k x, wr, total⟩ := by
  constructor
  · have := sum_update SharedInfo.refCount t.infos hk x
    have := ht.total
    dsimp only
    omega
  · have := sum_update (fun i => i.isRwmnt.toNat) t.infos hk x
    have := ht.writers
    dsimp only
    rw [writers_eq_sum] at *
    omega
  · intro i hi hrw
    dsimp only at hrw ⊢
    by_cases hik : i = k
    · subst hik; rw [update_self] at hrw ⊢; exact hx hrw
    · rw [update_of_ne hik] at hrw ⊢; exact ht.single i hi hrw

theorem refCount_le : (t.infos k).refCount ≤ t.refCount := by
  rw [ht.total]
  exact Finset.single_le_sum (f := fun i => (t.infos i).refCount) (fun _ _ => Nat.zero_le _) hk

theorem isRwmnt_le : (t.infos k).isRwmnt.toNat ≤ t.wrrefCount := by
  rw [ht.writers, writers_eq_sum]
  exact Finset.single_le_sum (f := fun i => (t.infos i).isRwmnt.toNat) (fun _ _ => Nat.zero_le _) hk

/-- A host without a reference is not marked read-write. -/
theorem not_rwmnt (h0 : (t.infos k).refCount ≠ 1) : (t.infos k).isRwmnt = false := by
  by_contra hrw
  exact h0 (ht.single k hk (by simpa using hrw))

theorem hostIncref {wr : Bool} (h : t.hostIncref k wr = some t') : t'.Ok := by
  obtain ⟨rfl, hwr, hro⟩ := hostIncref_some h
  have hsingle := ht.single k hk
  refine ht.set hk (by dsimp only; omega) ?_ ?_ <;> cases wr <;> cases hrw : (t.infos k).isRwmnt <;>
    simp [hrw] at hwr hro hsingle ⊢ <;> omega

theorem hostDecref (h : t.hostDecref k = some t') : t'.Ok := by
  obtain ⟨rfl, hne⟩ := hostDecref_some h
  have hle := ht.refCount_le hk
  have hwle := ht.isRwmnt_le hk
  refine ht.set hk (by dsimp only; omega) ?_ (by simp)
  dsimp only [Bool.toNat_false]
  omega

theorem hostPromotRef (h : t.hostPromotRef k = some t') : t'.Ok := by
  obtain ⟨rfl, hi⟩ := hostPromotRef_some h
  exact ht.set hk (by rw [hi]) (by simp [hi]) (fun _ => rfl)

/-- The first reference is always granted. -/
theorem hostIncref_first (h0 : t.refCount = 0) (wr : Bool) : ∃ t', t.hostIncref k wr = some t' := by
  have hz : (t.infos k).refCount = 0 := by
    have := ht.refCount_le hk
    omega
  cases wr <;> simp [RefTable.hostIncref, hz]

/-- `pfs_host_decref` undoes the `pfs_host_incref` of a writer. -/
theorem decref_incref (h : t.hostIncref k true = some t') : t'.hostDecref k = some t := by
  obtain ⟨rfl, hwr, -⟩ := hostIncref_some h
  have h0 := hwr rfl
  have hinfo : t.infos k = ⟨0, false⟩ := by
    rw [← h0, ← ht.not_rwmnt hk (by omega)]
  have hback : update t.infos k ⟨0, false⟩ = t.infos := by rw [← hinfo, update_eq_self]
  simp [RefTable.hostDecref, h0, hback]

end Ok

/-- `pfs_host_depromot_ref` undoes `pfs_host_promot_ref`. -/
theorem depromot_promot (h : t.hostPromotRef k = some t') : t'.hostDepromotRef k = some t := by
  obtain ⟨rfl, hi⟩ := hostPromotRef_some h
  have hback : update t.infos k ⟨1, false⟩ = t.infos := by rw [← hi, update_eq_self]
  simp [RefTable.hostDepromotRef, hback]

theorem hostGetAnotherId_some (h : t.hostGetAnotherId = some k) : k ∈ hosts ∧ 0 < (t.infos k).refCount := by
  have hk := List.mem_of_find?_eq_some h
  rw [List.mem_range'_1] at hk
  exact ⟨mem_hosts.2 (by omega), by simpa using List.find?_some h⟩

theorem hostGetAnotherWrid_some (h : t.hostGetAnotherWrid = some k) : k ∈ hosts ∧ (t.infos k).isRwmnt = true := by
  have hk := List.mem_of_find?_eq_some h
  rw [List.mem_range'_1] at hk
  exact ⟨mem_hosts.2 (by omega), by simpa using List.find?_some h⟩

end RefTable

end PolarFs.Lease
