/-
A table of a fixed number of slots that is filled by lookups: a key that is in the table is found there,
any other one needs a free slot before it is known whether it will be recorded. The lookups succeed
exactly if each key that is not recorded yet finds fewer recorded keys than there are slots.
-/
import Mathlib.Tactic

namespace PolarFs.SlotTable

variable {κ : Type*} [DecidableEq κ] (cap : Nat) (hit : κ → Bool)

/-- The keys in the slots after one lookup; `none` if there was no slot left. -/
def look (r : List κ) (k : κ) : Option (List κ) :=
  if k ∈ r then some r else if r.length < cap then some (if hit k then r ++ [k] else r) else none

def run : List κ → List κ → Option (List κ)
  | r, [] => some r
  | r, k :: ks => (look cap hit r k).bind fun r => run r ks

/-- The keys of `p` that are recorded. -/
def hits (p : List κ) : Finset κ := p.toFinset.filter fun k => hit k = true

/-- Each key that is looked up is recorded, or finds fewer than `cap` recorded ones. -/
def Fits (ks : List κ) : Prop := ∀ p k q, ks = p ++ k :: q → k ∈ hits hit p ∨ (hits hit p).card < cap

variable {cap hit} {r p ks : List κ}

/-- The slots hold the recorded keys of `p`, each once. -/
structure Holds (hit : κ → Bool) (p r : List κ) : Prop where
  nodup : r.Nodup
  mem : ∀ k, k ∈ r ↔ k ∈ p ∧ hit k = true

theorem Holds.length (h : Holds hit p r) : r.length = (hits hit p).card := by
  rw [← List.toFinset_card_of_nodup h.nodup]
  congr 1
  ext k
  simp [hits, h.mem]

omit [DecidableEq κ] in
theorem Holds.snoc {r' : List κ} {k : κ} (h : Holds hit p r) (hnd : r'.Nodup)
    (hmem : ∀ x, x ∈ r' ↔ x ∈ r ∨ x = k ∧ hit k = true) : Holds hit (p ++ [k]) r' := by
  refine ⟨hnd, fun x => ?_⟩
  rw [hmem, h.mem, List.mem_append, List.mem_singleton, or_and_right]
  exact or_congr_right (and_congr_right fun hx => hx ▸ Iff.rfl)

theorem Holds.look {r' : List κ} {k : κ} (h : Holds hit p r) (hl : look cap hit r k = some r') :
    Holds hit (p ++ [k]) r' := by
  unfold SlotTable.look at hl
  split at hl
  · rename_i hk
    cases hl
    refine h.snoc h.nodup fun x => ⟨.inl, ?_⟩
    rintro (hx | ⟨rfl, -⟩)
    exacts [hx, hk]
  · rename_i hk
    obtain ⟨-, hl⟩ := Option.ite_none_right_eq_some.1 hl
    cases hl
    by_cases hhit : hit k = true
    · rw [if_pos hhit]
      refine h.snoc (List.nodup_append.mpr ⟨h.nodup, List.nodup_singleton k, ?_⟩) fun x => by simp [hhit]
      rintro a ha b hb rfl
      exact hk (List.mem_singleton.mp hb ▸ ha)
    · rw [if_neg hhit]
      exact h.snoc h.nodup fun x => by simp [hhit]

theorem Holds.look_isSome (h : Holds hit p r) (k : κ) :
    (∃ r', SlotTable.look cap hit r k = some r') ↔ k ∈ hits hit p ∨ (hits hit p).card < cap := by
  have hk : k ∈ hits hit p ↔ k ∈ r := by simp [hits, h.mem]
  rw [hk, ← h.length]
  unfold SlotTable.look
  by_cases hr : k ∈ r
  · simp [hr]
  · by_cases hlt : r.length < cap <;> simp [hr, hlt]

theorem Fits.cons {k : κ} : (∀ q x t, k :: ks = q ++ x :: t → x ∈ hits hit (p ++ q) ∨ (hits hit (p ++ q)).card < cap) ↔
      (k ∈ hits hit p ∨ (hits hit p).card < cap) ∧
        ∀ q x t, ks = q ++ x :: t → x ∈ hits hit (p ++ [k] ++ q) ∨ (hits hit (p ++ [k] ++ q)).card < cap := by
  constructor
  · refine fun h => ⟨by simpa using h [] k ks rfl, ?_⟩
    rintro q x t rfl
    simpa using h (k :: q) x t rfl
  · rintro ⟨hk, h⟩ q x t heq
    cases q with
    | nil =>
      cases heq
      simpa using hk
    | cons y q =>
      cases heq
      simpa using h q x t rfl

/-- The lookups after those of `p`; the induction is on them. -/
theorem run_spec (h : Holds hit p r) (ks : List κ) : ((∃ r', run cap hit r ks = some r') ↔
      ∀ q x t, ks = q ++ x :: t → x ∈ hits hit (p ++ q) ∨ (hits hit (p ++ q)).card < cap) ∧
    ∀ r', run cap hit r ks = some r' → Holds hit (p ++ ks) r' := by
  induction ks generalizing p r with
  | nil =>
    refine ⟨⟨fun _ q x t heq => ?_, fun _ => ⟨r, rfl⟩⟩, fun r' hr => ?_⟩
    · cases q <;> cases heq
    · cases hr
      simpa using h
  | cons k ks ih =>
    rw [Fits.cons, ← h.look_isSome k]
    refine ⟨⟨?_, ?_⟩, fun r' hr => ?_⟩
    · rintro ⟨r', hr⟩
      obtain ⟨r₁, hl, hr⟩ := Option.bind_eq_some_iff.mp hr
      exact ⟨⟨r₁, hl⟩, (ih (h.look hl)).1.mp ⟨r', hr⟩⟩
    · rintro ⟨⟨r₁, hl⟩, hrest⟩
      obtain ⟨r', hr⟩ := (ih (h.look hl)).1.mpr hrest
      exact ⟨r', Option.bind_eq_some_iff.mpr ⟨r₁, hl, hr⟩⟩
    · obtain ⟨r₁, hl, hr⟩ := Option.bind_eq_some_iff.mp hr
      simpa using (ih (h.look hl)).2 r' hr

omit [DecidableEq κ] in
theorem holds_nil : Holds hit [] [] := ⟨List.nodup_nil, fun k => by simp⟩

theorem run_isSome_iff : (∃ r, run cap hit [] ks = some r) ↔ Fits cap hit ks := (run_spec holds_nil ks).1

theorem run_holds (h : run cap hit [] ks = some r) : Holds hit ks r := (run_spec holds_nil ks).2 r h

/-! ## Lists that fit -/

theorem hits_subset (p : List κ) : hits hit p ⊆ p.toFinset := Finset.filter_subset ..

/-- No more keys than slots. -/
theorem Fits.of_card_le (h : ks.toFinset.card ≤ cap) : Fits cap hit ks := by
  rintro p k q rfl
  by_cases hk : k ∈ hits hit p
  · exact .inl hk
  refine .inr (Nat.lt_of_lt_of_le ?_ h)
  have hmem : k ∈ (p ++ k :: q).toFinset := by simp
  have hsub : hits hit p ⊆ (p ++ k :: q).toFinset := fun x hx => by
    have := hits_subset p hx
    simp_all
  exact Finset.card_lt_card ⟨hsub, fun hc => hk (hc hmem)⟩

theorem card_hits (h : p.Nodup) : (hits hit p).card = p.countP hit := by
  rw [List.countP_eq_length_filter, ← List.toFinset_card_of_nodup (h.filter _)]
  congr 1
  ext k
  simp [hits]

/-- Different keys fit if those before the last do not fill the slots. -/
theorem fits_iff_of_nodup (h : ks.Nodup) (hcap : 0 < cap) : Fits cap hit ks ↔ ks.dropLast.countP hit < cap := by
  rcases List.eq_nil_or_concat ks with rfl | ⟨l, k, rfl⟩
  · refine ⟨fun _ => by simpa using hcap, fun _ p k q heq => ?_⟩
    cases p <;> cases heq
  rw [List.concat_eq_append] at h ⊢
  obtain ⟨hl, -, hdis⟩ := List.nodup_append.mp h
  rw [List.dropLast_concat, ← card_hits hl]
  constructor
  · intro hfits
    refine (hfits l k [] rfl).resolve_left fun hk => ?_
    have hkl : k ∈ l := List.mem_toFinset.mp (hits_subset l hk)
    exact hdis k hkl k (List.mem_singleton.mpr rfl) rfl
  · intro hlt p x q heq
    -- what comes before a key comes before the last one
    have hpl : p <+: l := by
      have hdrop : p <+: (l ++ [k]).dropLast := by
        rw [heq, List.dropLast_append_of_ne_nil (List.cons_ne_nil x q)]
        exact List.prefix_append ..
      rwa [List.dropLast_concat] at hdrop
    refine .inr (Nat.lt_of_le_of_lt (Finset.card_le_card ?_) hlt)
    exact Finset.filter_subset_filter _ fun x hx => List.mem_toFinset.mpr (hpl.subset (List.mem_toFinset.mp hx))

/-- Looking a key up again right away makes no difference. -/
theorem run_again {k : κ} {g : List κ} (hg : ∀ x ∈ g, x = k) (r ks : List κ) :
    run cap hit r (k :: g ++ ks) = run cap hit r (k :: ks) := by
  induction g with
  | nil => rfl
  | cons x g ih =>
    obtain rfl : x = k := hg x List.mem_cons_self
    rw [← ih fun y hy => hg y (List.mem_cons_of_mem _ hy)]
    have hlook : ∀ r', look cap hit r x = some r' → look cap hit r' x = some r' := by
      intro r' h
      unfold look at h ⊢
      split at h
      · rename_i hx
        cases h
        rw [if_pos hx]
      · rename_i hx
        split at h
        · rename_i hlt
          cases h
          by_cases hhit : hit x = true
          · simp [hhit]
          · simp [hhit, hx, hlt]
        · cases h
    show (look cap hit r x).bind (fun r => (look cap hit r x).bind fun r => run cap hit r (g ++ ks)) = (look cap hit r x).bind _
    cases hr : look cap hit r x with
    | none => rfl
    | some r' =>
      simp only [Option.bind_some]
      rw [hlook r' hr]
      rfl

theorem run_flatMap {g : κ → List κ} (hg : ∀ k, ∀ x ∈ g k, x = k) (l r : List κ) :
    run cap hit r (l.flatMap fun k => k :: g k) = run cap hit r l := by
  induction l generalizing r with
  | nil => rfl
  | cons k l ih =>
    rw [List.flatMap_cons, run_again (hg k)]
    show (look cap hit r k).bind _ = (look cap hit r k).bind _
    simp only [ih]

theorem fits_flatMap {g : κ → List κ} (hg : ∀ k, ∀ x ∈ g k, x = k) (l : List κ) :
    Fits cap hit (l.flatMap fun k => k :: g k) ↔ Fits cap hit l := by
  rw [← run_isSome_iff, ← run_isSome_iff, run_flatMap hg]

end PolarFs.SlotTable
