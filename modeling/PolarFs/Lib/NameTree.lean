/-
Trees given by their entries: an entry places a node under a parent with a name. A set of entries is a
tree if no node has two entries, the root has none, siblings have different names and every parent is
reached from the root. Adding an entry, removing that of a leaf and moving one to a place not below it
keep a tree.
-/
import Mathlib.Tactic

namespace NameTree

open Relation (ReflTransGen TransGen)
open Function (update update_self update_of_ne)

/-- The place of a node: its parent and its name there. -/
structure Entry (ι ν : Type*) where
  ino : ι
  dir : ι
  name : ν

variable {ι ε ν : Type*} {r : ι} {t : ε → Option (Entry ι ν)} {i j o : ι} {l m : List ε}

def Parent (t : ε → Option (Entry ι ν)) (p i : ι) : Prop := ∃ e a, t e = some a ∧ a.dir = p ∧ a.ino = i

/-- `i` is reached from the root `r`. -/
abbrev Reach (r : ι) (t : ε → Option (Entry ι ν)) (i : ι) : Prop := ReflTransGen (Parent t) r i

/-- `i` is `o` or below it. -/
abbrev Below (t : ε → Option (Entry ι ν)) (o i : ι) : Prop := ReflTransGen (Parent t) o i

/-- The entries of `t` form a tree under `r`. -/
structure IsTree (r : ι) (t : ε → Option (Entry ι ν)) : Prop where
  inoInj : ∀ {e e' a b}, t e = some a → t e' = some b → a.ino = b.ino → e = e'
  noRoot : ∀ {e a}, t e = some a → a.ino ≠ r
  nameInj : ∀ {e e' a b}, t e = some a → t e' = some b → a.dir = b.dir → a.name = b.name → e = e'
  reach : ∀ {e a}, t e = some a → Reach r t a.dir

/-- `l` are the entries on the way from the root to `i`. -/
inductive Path (r : ι) (t : ε → Option (Entry ι ν)) : ι → List ε → Prop where
  | root : Path r t r []
  | step {l : List ε} {e : ε} {a : Entry ι ν} : Path r t a.dir l → t e = some a → Path r t a.ino (l ++ [e])

/-! ## Paths -/

theorem Path.cases_last (h : Path r t i l) :
    (i = r ∧ l = []) ∨ ∃ m e a, l = m ++ [e] ∧ t e = some a ∧ a.ino = i ∧ Path r t a.dir m := by
  cases h with
  | root => exact .inl ⟨rfl, rfl⟩
  | step hp he => exact .inr ⟨_, _, _, rfl, he, rfl, hp⟩

theorem exists_path (h : Reach r t i) : ∃ l, Path r t i l := by
  induction h with
  | refl => exact ⟨[], .root⟩
  | tail _ hpar ih =>
    obtain ⟨e, a, he, rfl, rfl⟩ := hpar
    obtain ⟨l, hl⟩ := ih
    exact ⟨l ++ [e], hl.step he⟩

theorem Path.extend (h : Path r t i l) (hij : TransGen (Parent t) i j) : ∃ m, Path r t j m ∧ l.length < m.length := by
  induction hij with
  | single hpar =>
    obtain ⟨e, a, he, rfl, rfl⟩ := hpar
    exact ⟨l ++ [e], h.step he, by simp⟩
  | tail _ hpar ih =>
    obtain ⟨e, a, he, rfl, rfl⟩ := hpar
    obtain ⟨m, hm, hlen⟩ := ih
    exact ⟨m ++ [e], hm.step he, by simp; omega⟩

namespace IsTree

variable (h : IsTree r t)

include h

theorem path_unique (hl : Path r t i l) (hm : Path r t i m) : l = m := by
  induction hl generalizing m with
  | root =>
    rcases hm.cases_last with ⟨-, rfl⟩ | ⟨_, _, a, -, ha, hroot, -⟩
    · rfl
    · exact absurd hroot (h.noRoot ha)
  | step _ he ih =>
    rcases hm.cases_last with ⟨hroot, -⟩ | ⟨m', e', b, rfl, hb, hino, hm'⟩
    · exact absurd hroot (h.noRoot he)
    · obtain rfl := h.inoInj hb he hino
      obtain rfl := Option.some.inj (hb.symm.trans he)
      rw [ih hm']

theorem reach_ino {e : ε} {a : Entry ι ν} (he : t e = some a) : Reach r t a.ino :=
  (h.reach he).tail ⟨e, a, he, rfl, rfl⟩

theorem reach_of_parent (hij : Parent t i j) : Reach r t i := by
  obtain ⟨e, a, he, rfl, rfl⟩ := hij
  exact h.reach he

theorem acyclic (i : ι) : ¬ TransGen (Parent t) i i := by
  intro hcyc
  obtain ⟨j, hij, -⟩ := TransGen.head'_iff.1 hcyc
  obtain ⟨l, hl⟩ := exists_path (h.reach_of_parent hij)
  obtain ⟨m, hm, hlen⟩ := hl.extend hcyc
  rw [h.path_unique hl hm] at hlen
  exact lt_irrefl _ hlen

/-- What is below `o` is `o` itself or has its parent below `o`. -/
theorem below_cases (hb : Below t o i) {e : ε} {a : Entry ι ν} (he : t e = some a) (hi : a.ino = i) :
    i = o ∨ Below t o a.dir := by
  rcases ReflTransGen.cases_tail hb with hoi | ⟨p, hop, e', b, hb', hdir, hino⟩
  · exact .inl hoi
  · obtain rfl := h.inoInj hb' he (hino.trans hi.symm)
    obtain rfl := Option.some.inj (hb'.symm.trans he)
    exact .inr (hdir ▸ hop)

theorem not_below_root (ho : o ≠ r) : ¬ Below t o r := by
  intro hb
  rcases ReflTransGen.cases_tail hb with hro | ⟨p, -, e, a, he, -, hino⟩
  · exact ho hro.symm
  · exact h.noRoot he hino

/-! ## Edits -/

variable [DecidableEq ε] {e e' : ε} {a b : Entry ι ν}

omit h in
theorem update_some_eq_some : update t e (some a) e' = some b ↔ (e' = e ∧ b = a) ∨ (e' ≠ e ∧ t e' = some b) := by
  by_cases he : e' = e
  · subst he
    simp [eq_comm]
  · simp [he]

omit h in
theorem update_none_eq_some : update t e none e' = some b ↔ e' ≠ e ∧ t e' = some b := by
  by_cases he : e' = e
  · subst he
    simp
  · simp [he]

omit h in
theorem below_of_update_none (h : Below (update t e none) o i) : Below t o i := by
  refine ReflTransGen.mono (fun p j hpar => ?_) o i h
  obtain ⟨e', b, he', hdir, hino⟩ := hpar
  exact ⟨e', b, (update_none_eq_some.1 he').2, hdir, hino⟩

/-- An entry put in place of whatever `e` was, where nothing loses its way to the root. -/
theorem place (hroot : a.ino ≠ r) (hino : ∀ e' b, e' ≠ e → t e' = some b → b.ino ≠ a.ino)
    (hname : ∀ e' b, e' ≠ e → t e' = some b → b.dir = a.dir → b.name ≠ a.name)
    (hreach : ∀ i, Reach r t i → Reach r (update t e (some a)) i) (hdir : Reach r t a.dir) :
    IsTree r (update t e (some a)) := by
  refine ⟨?_, ?_, ?_, ?_⟩
  · intro e₁ e₂ x y h₁ h₂ heq
    rcases update_some_eq_some.1 h₁ with ⟨rfl, rfl⟩ | ⟨hne₁, h₁⟩ <;>
      rcases update_some_eq_some.1 h₂ with ⟨he₂, hy⟩ | ⟨hne₂, h₂⟩
    · exact he₂.symm
    · exact absurd heq.symm (hino _ _ hne₂ h₂)
    · exact absurd (hy ▸ heq) (hino _ _ hne₁ h₁)
    · exact h.inoInj h₁ h₂ heq
  · intro e₁ x h₁
    rcases update_some_eq_some.1 h₁ with ⟨rfl, rfl⟩ | ⟨-, h₁⟩
    · exact hroot
    · exact h.noRoot h₁
  · intro e₁ e₂ x y h₁ h₂ hd hn
    rcases update_some_eq_some.1 h₁ with ⟨rfl, rfl⟩ | ⟨hne₁, h₁⟩ <;>
      rcases update_some_eq_some.1 h₂ with ⟨he₂, hy⟩ | ⟨hne₂, h₂⟩
    · exact he₂.symm
    · exact absurd hn.symm (hname _ _ hne₂ h₂ hd.symm)
    · exact absurd (hy ▸ hn) (hname _ _ hne₁ h₁ (hy ▸ hd))
    · exact h.nameInj h₁ h₂ hd hn
  · intro e₁ x h₁
    rcases update_some_eq_some.1 h₁ with ⟨rfl, rfl⟩ | ⟨-, h₁⟩
    · exact hreach _ hdir
    · exact hreach _ (h.reach h₁)

theorem add (hfree : t e = none) (hroot : a.ino ≠ r) (hino : ∀ e' b, t e' = some b → b.ino ≠ a.ino)
    (hname : ∀ e' b, t e' = some b → b.dir = a.dir → b.name ≠ a.name) (hdir : Reach r t a.dir) :
    IsTree r (update t e (some a)) := by
  refine h.place hroot (fun e' b _ => hino e' b) (fun e' b _ => hname e' b) (fun i hi => ?_) hdir
  refine ReflTransGen.mono (fun p j hpar => ?_) r i hi
  obtain ⟨e', b, he', rfl, rfl⟩ := hpar
  have hne : e' ≠ e := by
    rintro rfl
    rw [hfree] at he'
    cases he'
  exact ⟨e', b, update_some_eq_some.2 (.inr ⟨hne, he'⟩), rfl, rfl⟩

omit h in
/-- What does not go through `e` stays reached; the rest hangs below the node of `e`. -/
theorem reach_or_below (he : t e = some a) {v : Option (Entry ι ν)} (hi : Reach r t i) :
    Below t a.ino i ∨ Reach r (update t e v) i := by
  induction hi with
  | refl => exact .inr .refl
  | @tail p j _ hpar ih =>
    have hpar' := hpar
    obtain ⟨e', b, he', rfl, rfl⟩ := hpar
    rcases ih with hb | hr
    · exact .inl (hb.tail hpar')
    · by_cases heq : e' = e
      · subst heq
        obtain rfl := Option.some.inj (he'.symm.trans he)
        exact .inl .refl
      · exact .inr (hr.tail ⟨e', b, by rw [update_of_ne heq, he'], rfl, rfl⟩)

theorem remove (he : t e = some a) (hleaf : ∀ e' b, t e' = some b → b.dir ≠ a.ino) : IsTree r (update t e none) := by
  refine ⟨?_, ?_, ?_, ?_⟩
  · intro e₁ e₂ x y h₁ h₂
    exact h.inoInj (update_none_eq_some.1 h₁).2 (update_none_eq_some.1 h₂).2
  · intro e₁ x h₁
    exact h.noRoot (update_none_eq_some.1 h₁).2
  · intro e₁ e₂ x y h₁ h₂
    exact h.nameInj (update_none_eq_some.1 h₁).2 (update_none_eq_some.1 h₂).2
  · intro e₁ x h₁
    have hx := (update_none_eq_some.1 h₁).2
    refine (reach_or_below he (h.reach hx)).resolve_left fun hb => ?_
    -- a parent below the removed leaf would be an entry of the leaf
    rcases ReflTransGen.cases_head hb with heq | ⟨c, ⟨e', b, he', hdir, -⟩, -⟩
    · exact hleaf _ _ hx heq.symm
    · exact hleaf _ _ he' hdir

/-- Moving an entry, with all that is below its node, to a directory that is not below it. -/
theorem move (he : t e = some a) {d : ι} {nm : ν} (hdir : Reach r t d) (hnot : ¬ Below t a.ino d)
    (hname : ∀ e' b, e' ≠ e → t e' = some b → b.dir = d → b.name ≠ nm) :
    IsTree r (update t e (some ⟨a.ino, d, nm⟩)) := by
  have hd : Reach r (update t e (some ⟨a.ino, d, nm⟩)) d := (reach_or_below he hdir).resolve_left hnot
  have hino : Reach r (update t e (some ⟨a.ino, d, nm⟩)) a.ino :=
    hd.tail ⟨e, ⟨a.ino, d, nm⟩, update_self .., rfl, rfl⟩
  -- what is below the node follows it to the new place
  have hbelow : ∀ {i}, Below t a.ino i → Reach r (update t e (some ⟨a.ino, d, nm⟩)) i := by
    intro i hi
    induction hi with
    | refl => exact hino
    | tail _ hpar ih =>
      obtain ⟨e', b, he', rfl, rfl⟩ := hpar
      by_cases heq : e' = e
      · subst heq
        obtain rfl := Option.some.inj (he'.symm.trans he)
        exact hino
      · exact ih.tail ⟨e', b, by rw [update_of_ne heq, he'], rfl, rfl⟩
  have hroot : a.ino ≠ r := h.noRoot he
  refine h.place hroot ?_ hname (fun i hi => (reach_or_below he hi).elim hbelow id) hdir
  intro e' b hne he' heq
  exact hne (h.inoInj he' he heq)

end IsTree

end NameTree
