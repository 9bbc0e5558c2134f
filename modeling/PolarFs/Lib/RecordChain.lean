/-
Chains of numbered records, of which each names the next one and 0 is none, and the change of a chain from its end:
records are taken into it, keep their place with new contents, or are cleared.
-/
import Mathlib.Data.List.Nodup

namespace RecordChain

variable {α β γ δ : Type}

/-- The chain `l` starts at `x`; its records are such that `P`. -/
def Chain (P : Nat → α → Prop) (next : α → Nat) (f : Nat → α) : Nat → List Nat → Prop
  | x, [] => x = 0
  | x, y :: l => x = y ∧ y ≠ 0 ∧ P y (f y) ∧ Chain P next f (next (f y)) l

namespace Chain

variable {P : Nat → α → Prop} {next : α → Nat} {f f' : Nat → α} {x : Nat} {l : List Nat}

theorem nil_iff (h : Chain P next f x l) : x = 0 ↔ l = [] := by
  cases l with
  | nil => exact iff_of_true h rfl
  | cons y l =>
    obtain ⟨rfl, h0, -⟩ := h
    simp [h0]

theorem mem : ∀ {x : Nat} {l : List Nat}, Chain P next f x l → ∀ y ∈ l, y ≠ 0 ∧ P y (f y)
  | _, [], _, _, hy => by cases hy
  | x, y :: l, ⟨_, h0, hp, hrest⟩, z, hz => by
    rcases List.mem_cons.1 hz with rfl | hz
    · exact ⟨h0, hp⟩
    · exact hrest.mem z hz

theorem congr : ∀ {x : Nat} {l : List Nat}, Chain P next f x l → (∀ y ∈ l, f' y = f y) → Chain P next f' x l
  | _, [], h, _ => h
  | x, y :: l, ⟨hx, h0, hp, hrest⟩, heq => by
    have hy := heq y (by simp)
    refine ⟨hx, h0, by rw [hy]; exact hp, ?_⟩
    rw [hy]
    exact hrest.congr fun z hz => heq z (List.mem_cons_of_mem _ hz)

theorem unique : ∀ {x : Nat} {l l' : List Nat}, Chain P next f x l → Chain P next f x l' → l = l'
  | _, [], [], _, _ => rfl
  | _, [], y :: l', h, ⟨hx, h0, _⟩ => absurd (hx.symm.trans h) h0
  | _, y :: l, [], ⟨hx, h0, _⟩, h => absurd (hx.symm.trans h) h0
  | _, y :: l, y' :: l', ⟨hx, _, _, h⟩, ⟨hx', _, _, h'⟩ => by
    obtain rfl : y = y' := hx.symm.trans hx'
    rw [h.unique h']

/-- What follows a member is a chain of its own. -/
theorem split : ∀ {x : Nat} {l : List Nat}, Chain P next f x l → ∀ y ∈ l,
    ∃ l₁ l₂, l = l₁ ++ y :: l₂ ∧ Chain P next f (next (f y)) l₂
  | _, [], _, _, hy => by cases hy
  | x, z :: l, ⟨_, _, _, hrest⟩, y, hy => by
    rcases List.mem_cons.1 hy with rfl | hy
    · exact ⟨[], l, rfl, hrest⟩
    · obtain ⟨l₁, l₂, rfl, h⟩ := hrest.split y hy
      exact ⟨z :: l₁, l₂, rfl, h⟩

/-- A chain that ends does not come back to a member. -/
theorem nodup : ∀ {x : Nat} {l : List Nat}, Chain P next f x l → l.Nodup
  | _, [], _ => List.nodup_nil
  | x, y :: l, ⟨_, _, _, hrest⟩ => by
    refine List.nodup_cons.2 ⟨fun hy => ?_, hrest.nodup⟩
    obtain ⟨l₁, l₂, hl, h⟩ := hrest.split y hy
    have hlen := congrArg List.length (hrest.unique h)
    rw [hl, List.length_append, List.length_cons] at hlen
    omega

/-- The chain of records that stand for those of another chain. -/
theorem map {P' : Nat → γ → Prop} {next' : γ → Nat} (abs : α → γ) (hP : ∀ y a, P y a → P' y (abs a))
    (hnext : ∀ a, next' (abs a) = next a) : ∀ {x : Nat} {l : List Nat}, Chain P next f x l →
    Chain P' next' (fun y => abs (f y)) x l
  | _, [], h => h
  | x, y :: l, ⟨hx, h0, hp, hrest⟩ => ⟨hx, h0, hP y _ hp, by rw [hnext]; exact hrest.map abs hP hnext⟩

end Chain

/-- The records of `f'` have the chain `l'`, with the contents `c`, in place of the chain `l` of `f`: what came in is
`Fresh`, what went out is `Clear`. -/
structure Rechained (Fresh : Nat → α → Prop) (Clear : α → Prop) (piece : α → β) (f f' : Nat → α) (l l' : List Nat)
    (c : List β) : Prop where
  pieces : l'.map (fun y => piece (f' y)) = c
  other : ∀ y, y ∉ l → y ∉ l' → f' y = f y
  fresh : ∀ y ∈ l', y ∉ l → Fresh y (f y)
  freed : ∀ y ∈ l, y ∉ l' → Clear (f' y)

namespace Rechained

variable {Fresh : Nat → α → Prop} {Clear : α → Prop} {piece : α → β} {f₀ f f₁ f' : Nat → α} {l l' : List Nat} {c : List β}
  {e : Nat}

theorem nil (Fresh : Nat → α → Prop) (Clear : α → Prop) (piece : α → β) (f : Nat → α) :
    Rechained Fresh Clear piece f f [] [] [] :=
  ⟨rfl, fun _ _ _ => rfl, by simp, by simp⟩

theorem length_eq (h : Rechained Fresh Clear piece f f' l l' c) : l'.length = c.length := by
  rw [← h.pieces, List.length_map]

theorem notMem (h : Rechained Fresh Clear piece f f' l l' c) (he : e ∉ l) (hbusy : ¬ Fresh e (f e)) : e ∉ l' :=
  fun hmem => hbusy (h.fresh e hmem he)

/-- A record in front of the chain keeps its place. -/
theorem cons {p : β} (h : Rechained Fresh Clear piece f f₁ l l' c) (he : e ∉ l) (hbusy : ¬ Fresh e (f e))
    (hother : ∀ y, y ≠ e → f' y = f₁ y) (hp : piece (f' e) = p) :
    Rechained Fresh Clear piece f f' (e :: l) (e :: l') (p :: c) := by
  have hel' := h.notMem he hbusy
  refine ⟨?_, fun y hy hy' => ?_, fun y hy hy' => ?_, fun y hy hy' => ?_⟩
  · rw [List.map_cons, hp, ← h.pieces]
    congr 1
    exact List.map_congr_left fun y hy => by rw [hother y fun heq => hel' (heq ▸ hy)]
  all_goals simp only [List.mem_cons, not_or] at hy hy'
  · rw [hother y hy.1, h.other y hy.2 hy'.2]
  · exact h.fresh y (hy.resolve_left hy'.1) hy'.2
  · rw [hother y hy'.1]
    exact h.freed y (hy.resolve_left hy'.1) hy'.2

/-- A record in front of the chain becomes its first one. -/
theorem cons_chain {P : Nat → α → Prop} {next : α → Nat} {x : Nat} {p : β}
    (h : Rechained Fresh Clear piece f f₁ l l' c) (hchain : Chain P next f₁ x l') (he : e ∉ l) (he0 : e ≠ 0)
    (hbusy : ¬ Fresh e (f e)) (hother : ∀ y, y ≠ e → f' y = f₁ y)
    (hself : f₁ e = f e → P e (f' e) ∧ next (f' e) = x ∧ piece (f' e) = p) :
    Chain P next f' e (e :: l') ∧ Rechained Fresh Clear piece f f' (e :: l) (e :: l') (p :: c) := by
  have hel' := h.notMem he hbusy
  obtain ⟨hP, rfl, hp⟩ := hself (h.other e he hel')
  exact ⟨⟨rfl, he0, hP, hchain.congr fun y hy => hother y fun heq => hel' (heq ▸ hy)⟩, h.cons he hbusy hother hp⟩

/-- With the rest of the chain goes the record in front of it. -/
theorem cut (h : Rechained Fresh Clear piece f f₁ l [] []) (hother : ∀ y, y ≠ e → f' y = f₁ y) (hclear : Clear (f' e)) :
    Rechained Fresh Clear piece f f' (e :: l) [] [] := by
  refine ⟨rfl, fun y hy hy' => ?_, by simp, fun y hy _ => ?_⟩
  · simp only [List.mem_cons, not_or] at hy
    rw [hother y hy.1, h.other y hy.2 hy']
  · by_cases hye : y = e
    · exact hye ▸ hclear
    · rw [hother y hye]
      exact h.freed y ((List.mem_cons.1 hy).resolve_left hye) List.not_mem_nil

/-- The change since a state in which the first record was still as in `f₀`. -/
theorem of_eq_off (h : Rechained Fresh Clear piece f f' (e :: l) (e :: l') c) (hf : ∀ y, y ≠ e → f y = f₀ y) :
    Rechained Fresh Clear piece f₀ f' (e :: l) (e :: l') c := by
  refine ⟨h.pieces, fun y hy hy' => ?_, fun y hy hy' => ?_, h.freed⟩
  · rw [h.other y hy hy', hf y fun heq => hy (heq ▸ List.mem_cons_self)]
  · rw [← hf y fun heq => hy' (heq ▸ List.mem_cons_self)]
    exact h.fresh y hy hy'

/-- The first record came in as well. -/
theorem grow (h : Rechained Fresh Clear piece f f' [e] (e :: l') c) (hf : ∀ y, y ≠ e → f y = f₀ y)
    (hfresh : Fresh e (f₀ e)) : Rechained Fresh Clear piece f₀ f' [] (e :: l') c := by
  have h₀ := h.of_eq_off hf
  refine ⟨h₀.pieces, fun y _ hy' => ?_, fun y hy _ => ?_, by simp⟩
  · exact h₀.other y (fun hy => hy' (List.mem_singleton.1 hy ▸ List.mem_cons_self)) hy'
  · by_cases hye : y = e
    · exact hye ▸ hfresh
    · exact h₀.fresh y hy (by simp [hye])

/-- The change, in the records that stand for those of `f` and `f'`. -/
theorem map {Fresh' : Nat → γ → Prop} {Clear' : γ → Prop} {piece' : γ → δ} {q : β → δ} (abs : α → γ)
    (h : Rechained Fresh Clear piece f f' l l' c) (hF : ∀ y a, Fresh y a → Fresh' y (abs a))
    (hC : ∀ a, Clear a → Clear' (abs a)) (hp : ∀ a, piece' (abs a) = q (piece a)) :
    Rechained Fresh' Clear' piece' (fun y => abs (f y)) (fun y => abs (f' y)) l l' (c.map q) := by
  refine ⟨?_, fun y hy hy' => congrArg abs (h.other y hy hy'), fun y hy hy' => hF y _ (h.fresh y hy hy'),
    fun y hy hy' => hC _ (h.freed y hy hy')⟩
  rw [← h.pieces, List.map_map]
  exact List.map_congr_left fun y _ => hp _

end Rechained

end RecordChain
