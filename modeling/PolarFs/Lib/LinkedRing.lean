/-
Doubly linked lists seen as rings: a list with a head and a tail is a ring through a header node whose
forward link is the head and whose backward link is the tail, so that the ends are no special cases.
An edit is described by the links it leaves, not by the writes that made it.
-/
import Mathlib.Tactic

namespace LinkedRing

variable {α : Type*} {fwd bwd fwd' bwd' : α → α} {c x : α} {l : List α}

/-- Two neighbours are linked both ways. -/
def Linked (fwd bwd : α → α) (x y : α) : Prop := fwd x = y ∧ bwd y = x

/-- The ring through `c` whose other nodes are `l`, in the order of the forward links. -/
structure Ring (fwd bwd : α → α) (c : α) (l : List α) : Prop where
  links : (c :: l ++ [c]).IsChain (Linked fwd bwd)
  nodup : (c :: l).Nodup

/-- A chain reads the forward links of all nodes but the last and the backward links of all but the first. -/
theorem isChain_congr : ∀ {l : List α}, (∀ a ∈ l.dropLast, fwd' a = fwd a) → (∀ b ∈ l.tail, bwd' b = bwd b) →
    l.IsChain (Linked fwd bwd) → l.IsChain (Linked fwd' bwd')
  | [], _, _, _ => .nil
  | [x], _, _, _ => .singleton x
  | x :: y :: l, hf, hb, h => by
    obtain ⟨⟨hxy, hyx⟩, hrest⟩ := List.isChain_cons_cons.1 h
    refine List.isChain_cons_cons.2 ⟨⟨?_, ?_⟩, isChain_congr ?_ ?_ hrest⟩
    · rw [hf x (by simp), hxy]
    · rw [hb y (by simp), hyx]
    · intro a ha
      exact hf a (by rw [List.dropLast_cons_cons]; exact List.mem_cons_of_mem _ ha)
    · intro b hb'
      exact hb b (List.mem_cons_of_mem _ hb')

namespace Ring

variable (h : Ring fwd bwd c l)

include h

theorem congr (hf : ∀ y ∈ c :: l, fwd' y = fwd y) (hb : ∀ y ∈ c :: l, bwd' y = bwd y) : Ring fwd' bwd' c l := by
  refine ⟨isChain_congr ?_ ?_ h.links, h.nodup⟩
  · intro a ha
    rw [List.dropLast_concat] at ha
    exact hf a ha
  · intro b hb'
    refine hb b ?_
    rw [List.cons_append, List.tail_cons] at hb'
    simpa [or_comm] using hb'

omit h in
theorem nil_iff : Ring fwd bwd c [] ↔ fwd c = c ∧ bwd c = c := by
  constructor
  · intro h
    simpa [Linked] using h.links
  · rintro ⟨hf, hb⟩
    exact ⟨by simpa [Linked] using ⟨hf, hb⟩, List.nodup_singleton c⟩

theorem notMem : c ∉ l := (List.nodup_cons.1 h.nodup).1

theorem nodup_tail : l.Nodup := (List.nodup_cons.1 h.nodup).2

/-- The header links to itself exactly if there is no other node. -/
theorem fwd_eq_iff : fwd c = c ↔ l = [] := by
  cases l with
  | nil => simpa using (nil_iff.1 h).1
  | cons y l =>
    have hy : fwd c = y := (List.isChain_cons_cons.1 h.links).1.1
    have hne : c ≠ y := fun hc => h.notMem (by simp [hc])
    simp [hy, hne.symm]

omit h in
/-- The links round the node between `a` and `b`. -/
theorem split {a b : List α} (h : Ring fwd bwd c (a ++ x :: b)) :
    (c :: a).getLast? = some (bwd x) ∧ (b ++ [c]).head? = some (fwd x) := by
  have hlinks : (c :: a ++ x :: (b ++ [c])).IsChain (Linked fwd bwd) := by simpa using h.links
  obtain ⟨hleft, hright⟩ := List.isChain_split.1 hlinks
  constructor
  · obtain ⟨a', p, hp⟩ : ∃ a' p, c :: a = a' ++ [p] := ⟨_, _, (List.dropLast_append_getLast (by simp)).symm⟩
    rw [hp, List.append_assoc, List.singleton_append, List.isChain_append_cons_cons] at hleft
    rw [hp, List.getLast?_concat, hleft.2.1.2]
  · cases hb : b ++ [c] with
    | nil => simp at hb
    | cons n b' =>
      rw [hb] at hright
      rw [List.head?_cons, (List.isChain_cons_cons.1 hright).1.1]

theorem fwd_header : (l ++ [c]).head? = some (fwd c) := by
  cases l with
  | nil => rw [(nil_iff.1 h).1]; rfl
  | cons y l => exact congrArg some (List.isChain_cons_cons.1 h.links).1.1.symm

theorem bwd_header : (c :: l).getLast? = some (bwd c) := by
  obtain ⟨a, p, hp⟩ : ∃ a p, c :: l = a ++ [p] := ⟨_, _, (List.dropLast_append_getLast (by simp)).symm⟩
  have hlinks := h.links
  rw [hp, List.append_assoc, List.singleton_append, List.isChain_append_cons_cons] at hlinks
  rw [hp, List.getLast?_concat, hlinks.2.1.2]

theorem bwd_header_mem (hl : l ≠ []) : bwd c ∈ l := by
  have hlast := h.bwd_header
  rw [List.getLast?_cons_of_ne_nil hl] at hlast
  exact List.mem_of_getLast? hlast

/-- The header links back to itself exactly if there is no other node. -/
theorem bwd_eq_iff : bwd c = c ↔ l = [] := by
  constructor
  · intro hc
    by_contra hl
    exact h.notMem (hc ▸ h.bwd_header_mem hl)
  · rintro rfl
    exact (nil_iff.1 h).2

/-- A node other than the header is between two other nodes. -/
theorem neighbours (hx : x ∈ l) : bwd x ∈ c :: l ∧ bwd x ≠ x ∧ fwd x ∈ c :: l ∧ fwd x ≠ x := by
  obtain ⟨a, b, rfl⟩ := List.append_of_mem hx
  obtain ⟨hlast, hfirst⟩ := h.split
  have hnd : (c :: a ++ x :: b).Nodup := h.nodup
  rw [List.nodup_append] at hnd
  obtain ⟨-, hndb, hdisj⟩ := hnd
  have hp := List.mem_of_getLast? hlast
  have hn := List.mem_of_head? hfirst
  refine ⟨?_, ?_, ?_, ?_⟩
  · exact List.mem_append_left (x :: b) hp
  · intro heq
    exact hdisj x (heq ▸ hp) x (by simp) rfl
  · rcases List.mem_append.1 hn with hb | hc
    · simp [hb]
    · simp [List.mem_singleton.1 hc]
  · intro heq
    rw [heq] at hn
    rcases List.mem_append.1 hn with hb | hc
    · exact (List.nodup_cons.1 hndb).1 hb
    · exact hdisj x (by simp [List.mem_singleton.1 hc]) x (by simp) rfl

/-- A node put in before the header, at the end of the list. -/
theorem push (hx : x ∉ c :: l) (hlast : fwd' (bwd c) = x) (hnext : fwd' x = c) (hprev : bwd' x = bwd c)
    (htail : bwd' c = x) (hf : ∀ y ∈ c :: l, y ≠ bwd c → fwd' y = fwd y) (hb : ∀ y ∈ l, bwd' y = bwd y) :
    Ring fwd' bwd' c (l ++ [x]) := by
  obtain ⟨a, p, hp⟩ : ∃ a p, c :: l = a ++ [p] := ⟨_, _, (List.dropLast_append_getLast (by simp)).symm⟩
  have hbp : bwd c = p := by
    have := h.bwd_header
    rw [hp, List.getLast?_concat] at this
    exact (Option.some.inj this).symm
  rw [hbp] at hlast hprev hf
  have hpa : p ∉ a := by
    have hnd := h.nodup
    rw [hp, List.nodup_append] at hnd
    exact fun hmem => hnd.2.2 p hmem p (by simp) rfl
  have hchain : (a ++ [p]).IsChain (Linked fwd' bwd') := by
    refine isChain_congr ?_ ?_ (List.IsChain.left_of_append (hp ▸ h.links))
    · intro y hy
      rw [List.dropLast_concat] at hy
      exact hf y (by rw [hp]; simp [hy]) (fun he => hpa (he ▸ hy))
    · intro y hy
      rw [← hp, List.tail_cons] at hy
      exact hb y hy
  refine ⟨?_, ?_⟩
  · have hsplit : c :: (l ++ [x]) ++ [c] = a ++ p :: x :: [c] := by
      rw [← List.cons_append, hp]; simp
    rw [hsplit, List.isChain_append_cons_cons]
    exact ⟨hchain, ⟨hlast, hprev⟩, List.isChain_cons_cons.2 ⟨⟨hnext, htail⟩, .singleton c⟩⟩
  · rw [← List.cons_append, List.nodup_append]
    refine ⟨h.nodup, List.nodup_singleton x, ?_⟩
    intro y hy z hz he
    rw [List.mem_singleton] at hz
    exact hx (hz ▸ he ▸ hy)

/-- A node taken out: its neighbours are linked to each other. -/
theorem erase [DecidableEq α] (hx : x ∈ l) (hnext : fwd' (bwd x) = fwd x) (hprev : bwd' (fwd x) = bwd x)
    (hf : ∀ y ∈ c :: l, y ≠ bwd x → y ≠ x → fwd' y = fwd y) (hb : ∀ y ∈ c :: l, y ≠ fwd x → y ≠ x → bwd' y = bwd y) :
    Ring fwd' bwd' c (l.erase x) := by
  obtain ⟨a, b, rfl⟩ := List.append_of_mem hx
  obtain ⟨hlast, hfirst⟩ := h.split
  generalize bwd x = p at hlast hnext hprev hf
  generalize fwd x = n at hfirst hnext hprev hb
  obtain ⟨a', hp⟩ := List.getLast?_eq_some_iff.1 hlast
  obtain ⟨b', hn⟩ := List.head?_eq_some_iff.1 hfirst
  -- the nodes of the ring are `a' ++ [p]`, `x` and `b`; each is there once
  have hnd : (c :: a ++ x :: b).Nodup := h.nodup
  rw [List.nodup_append] at hnd
  obtain ⟨hnda, hndb, hdisj⟩ := hnd
  have hxa : x ∉ c :: a := fun hmem => hdisj x hmem x (by simp) rfl
  have hxb : x ∉ b := (List.nodup_cons.1 hndb).1
  have hpa' : p ∉ a' := by
    rw [hp, List.nodup_append] at hnda
    exact fun hmem => hnda.2.2 p hmem p (by simp) rfl
  have hcb : c ∉ b := fun hmem => hdisj c (by simp) c (List.mem_cons_of_mem _ hmem) rfl
  have hnb' : n ∉ b' := by
    have : (b ++ [c]).Nodup := by
      rw [List.nodup_append]
      refine ⟨(List.nodup_cons.1 hndb).2, List.nodup_singleton c, ?_⟩
      rintro y hy z hz rfl
      exact hcb (List.mem_singleton.1 hz ▸ hy)
    rw [hn] at this
    exact (List.nodup_cons.1 this).1
  have hlinks : (a' ++ p :: (x :: n :: b')).IsChain (Linked fwd bwd) := by
    have : c :: (a ++ x :: b) ++ [c] = a' ++ p :: (x :: n :: b') := by
      rw [← hn, ← List.cons_append, hp]; simp
    exact this ▸ h.links
  have herase : (a ++ x :: b).erase x = a ++ b := by
    rw [List.erase_append_right _ (fun hmem => hxa (List.mem_cons_of_mem _ hmem)), List.erase_cons_head]
  rw [herase]
  refine ⟨?_, ?_⟩
  · have hsplit : c :: (a ++ b) ++ [c] = a' ++ p :: n :: b' := by
      rw [← hn, ← List.cons_append, hp]; simp
    rw [hsplit, List.isChain_append_cons_cons]
    obtain ⟨hleft, hright⟩ := List.isChain_split.1 hlinks
    refine ⟨isChain_congr ?_ ?_ hleft, ⟨hnext, hprev⟩, isChain_congr ?_ ?_ hright.tail.tail⟩
    · intro y hy
      rw [List.dropLast_concat] at hy
      have hmem : y ∈ c :: a := by rw [hp]; simp [hy]
      exact hf y (by simpa using Or.imp_right Or.inl (List.mem_cons.1 hmem)) (fun he => hpa' (he ▸ hy))
        (fun he => hxa (he ▸ hmem))
    · intro y hy
      rw [← hp, List.tail_cons] at hy
      refine hb y (by simp [hy]) ?_ (fun he => hxa (he ▸ List.mem_cons_of_mem _ hy))
      rintro rfl
      have hmem : y ∈ b ++ [c] := by rw [hn]; simp
      rcases List.mem_append.1 hmem with hyb | hyc
      · exact hdisj y (List.mem_cons_of_mem _ hy) y (List.mem_cons_of_mem _ hyb) rfl
      · exact (List.nodup_cons.1 hnda).1 (List.mem_singleton.1 hyc ▸ hy)
    · intro y hy
      rw [← hn, List.dropLast_concat] at hy
      refine hf y (by simp [hy]) ?_ (fun he => hxb (he ▸ hy))
      rintro rfl
      exact hdisj y (by rw [hp]; simp) y (List.mem_cons_of_mem _ hy) rfl
    · intro y hy
      rw [List.tail_cons] at hy
      have hmem : y ∈ b ++ [c] := by rw [hn]; simp [hy]
      refine hb y ?_ (fun he => hnb' (he ▸ hy)) ?_
      · rcases List.mem_append.1 hmem with hyb | hyc
        · simp [hyb]
        · simp [List.mem_singleton.1 hyc]
      · rintro rfl
        rcases List.mem_append.1 hmem with hyb | hyc
        · exact hxb hyb
        · exact hxa (by simp [List.mem_singleton.1 hyc])
  · rw [← List.cons_append, List.nodup_append]
    exact ⟨hnda, (List.nodup_cons.1 hndb).2, fun y hy z hz => hdisj y hy z (List.mem_cons_of_mem _ hz)⟩

end Ring

/-! ## Reading a ring -/

/-- The nodes from `x` on up to the header, at most as many as there is fuel. -/
def walk [DecidableEq α] (fwd : α → α) (c : α) : Nat → α → List α
  | 0, _ => []
  | fuel + 1, x => if x = c then [] else x :: walk fwd c fuel (fwd x)

theorem walk_of_isChain [DecidableEq α] : ∀ {l : List α} {x : α} {fuel : Nat}, (x :: l ++ [c]).IsChain (Linked fwd bwd) →
    c ∉ l → l.length < fuel → walk fwd c fuel (fwd x) = l
  | [], x, fuel + 1, h, _, _ => by
    have hx : fwd x = c := (List.isChain_cons_cons.1 h).1.1
    simp [walk, hx]
  | y :: l, x, fuel + 1, h, hc, hlen => by
    have hx : fwd x = y := (List.isChain_cons_cons.1 h).1.1
    have hne : y ≠ c := fun he => hc (by simp [he])
    have hrest : walk fwd c fuel (fwd y) = l := walk_of_isChain (List.isChain_cons_cons.1 h).2
      (fun hmem => hc (List.mem_cons_of_mem _ hmem)) (by simpa using hlen)
    rw [walk, hx, if_neg hne, hrest]

/-- Reading from the head gives the nodes, when there is fuel for one more than all of them. -/
theorem Ring.walk_eq [DecidableEq α] (h : Ring fwd bwd c l) {fuel : Nat} (hfuel : l.length < fuel) :
    walk fwd c fuel (fwd c) = l :=
  walk_of_isChain h.links h.notMem hfuel

/-- The links determine the ring. -/
theorem Ring.unique [DecidableEq α] {l' : List α} (h : Ring fwd bwd c l) (h' : Ring fwd bwd c l') : l = l' :=
  calc
    l = walk fwd c (l.length + l'.length + 1) (fwd c) := (h.walk_eq (by omega)).symm
    _ = l' := h'.walk_eq (by omega)

end LinkedRing
