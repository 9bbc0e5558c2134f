/-
Counted objects: an object can be held from outside and referred to by other objects, and its counter is the
number of both. Each operation on references keeps this, and an object whose counter is 0 can be destroyed
without leaving a reference behind.
-/
import Mathlib.Algebra.BigOperators.Group.Finset.Basic

namespace PolarFs.RefCount

open Function (update update_self update_of_ne)

variable {α : Type*} [DecidableEq α]

/-- The objects, what each refers to, how often each is held from outside, and the counters. -/
structure State (α : Type*) where
  alive : Finset α
  out : α → List α
  held : α → Nat
  cnt : α → Int

namespace State

/-- How often the objects refer to `a`. -/
def refs (s : State α) (a : α) : Nat := ∑ b ∈ s.alive, (s.out b).count a

structure Ok (s : State α) : Prop where
  count : ∀ a ∈ s.alive, s.cnt a = s.held a + s.refs a
  out : ∀ b ∈ s.alive, ∀ a ∈ s.out b, a ∈ s.alive
  held : ∀ a, 0 < s.held a → a ∈ s.alive

/-- `a` is held `n` times from now on, and its counter changes by `δ`. -/
def hold (s : State α) (a : α) (n : Nat) (δ : Int) : State α :=
  { s with held := update s.held a n, cnt := update s.cnt a (s.cnt a + δ) }

/-- `b` refers to `l` from now on, and the counter of `a` changes by `δ`. -/
def refer (s : State α) (b : α) (l : List α) (a : α) (δ : Int) : State α :=
  { s with out := update s.out b l, cnt := update s.cnt a (s.cnt a + δ) }

def create (s : State α) (b : α) : State α :=
  { s with alive := insert b s.alive, out := update s.out b [], cnt := update s.cnt b 0 }

def destroy (s : State α) (a : α) : State α := { s with alive := s.alive.erase a }

variable {s : State α} {a b : α}

theorem refs_refer (hb : b ∈ s.alive) (l : List α) (a x : α) (δ : Int) :
    (s.refer b l a δ).refs x + (s.out b).count x = s.refs x + l.count x := by
  have hold := Finset.add_sum_erase s.alive (fun y => (s.out y).count x) hb
  have hnew := Finset.add_sum_erase s.alive (fun y => (update s.out b l y).count x) hb
  have hrest : ∑ y ∈ s.alive.erase b, (update s.out b l y).count x = ∑ y ∈ s.alive.erase b, (s.out y).count x :=
    Finset.sum_congr rfl fun y hy => by rw [update_of_ne (Finset.ne_of_mem_erase hy)]
  rw [update_self, hrest] at hnew
  unfold refs refer
  dsimp only
  omega

theorem refs_eq_zero : s.refs a = 0 ↔ ∀ b ∈ s.alive, a ∉ s.out b := by
  unfold refs
  rw [Finset.sum_eq_zero_iff]
  exact forall₂_congr fun b _ => List.count_eq_zero

theorem Ok.hold (h : s.Ok) (ha : a ∈ s.alive) {n : Nat} {δ : Int} (hn : (n : Int) = s.held a + δ) : (s.hold a n δ).Ok := by
  refine ⟨fun x hx => ?_, h.out, fun x hx => ?_⟩
  · have hcount := h.count x hx
    show update s.cnt a _ x = ((update s.held a n x : Nat) : Int) + (s.refs x : Nat)
    by_cases hxa : x = a
    · subst hxa
      rw [update_self, update_self]
      omega
    · rw [update_of_ne hxa, update_of_ne hxa, hcount]
  · by_cases hxa : x = a
    · rw [hxa]
      exact ha
    · exact h.held x (by simpa [State.hold, hxa] using hx)

/-- One reference of `b` more or less. -/
theorem Ok.refer (h : s.Ok) (hb : b ∈ s.alive) {l : List α} {δ : Int} (hl : ∀ x ∈ l, x ∈ s.alive)
    (hδ : ∀ x, (l.count x : Int) = (s.out b).count x + if x = a then δ else 0) : (s.refer b l a δ).Ok := by
  refine ⟨fun x hx => ?_, fun y hy x hx => ?_, h.held⟩
  · have hcount := h.count x hx
    have hrefs := refs_refer hb l a x δ
    have hx := hδ x
    show update s.cnt a _ x = (s.held x : Int) + ((s.refer b l a δ).refs x : Nat)
    by_cases hxa : x = a
    · subst hxa
      rw [if_pos rfl] at hx
      rw [update_self]
      omega
    · rw [if_neg hxa] at hx
      rw [update_of_ne hxa]
      omega
  · by_cases hyb : y = b
    · subst hyb
      exact hl x (by simpa [State.refer] using hx)
    · exact h.out y hy x (by simpa [State.refer, hyb] using hx)

theorem Ok.create (h : s.Ok) (hb : b ∉ s.alive) : (s.create b).Ok := by
  have hne : ∀ y ∈ s.alive, y ≠ b := fun y hy heq => hb (heq ▸ hy)
  have hrefs : ∀ x, (s.create b).refs x = s.refs x := by
    intro x
    unfold refs State.create
    rw [Finset.sum_insert hb]
    dsimp only
    rw [update_self, List.count_nil, Nat.zero_add]
    exact Finset.sum_congr rfl fun y hy => by rw [update_of_ne (hne y hy)]
  refine ⟨fun x hx => ?_, fun y hy x hx => ?_, fun x hx => Finset.mem_insert_of_mem (h.held x hx)⟩
  · rw [hrefs]
    show update s.cnt b 0 x = _
    rcases Finset.mem_insert.1 hx with rfl | hx
    · have hheld : s.held x = 0 := Nat.eq_zero_of_not_pos fun hpos => hb (h.held x hpos)
      have hzero : s.refs x = 0 := refs_eq_zero.2 fun y hy hm => hb (h.out y hy x hm)
      rw [update_self, hzero]
      show (0 : Int) = (s.held x : Int) + (0 : Nat)
      omega
    · rw [update_of_ne (hne x hx)]
      exact h.count x hx
  · rcases Finset.mem_insert.1 hy with rfl | hy
    · simp [State.create] at hx
    · exact Finset.mem_insert_of_mem (h.out y hy x (by simpa [State.create, hne y hy] using hx))

/-- An object with counter 0 is neither held nor referred to. -/
theorem Ok.of_cnt_zero (h : s.Ok) (ha : a ∈ s.alive) (hcnt : s.cnt a = 0) :
    s.held a = 0 ∧ ∀ b ∈ s.alive, a ∉ s.out b := by
  have hcount := h.count a ha
  exact ⟨by omega, refs_eq_zero.1 (by omega)⟩

theorem Ok.destroy (h : s.Ok) (ha : a ∈ s.alive) (hcnt : s.cnt a = 0) (hout : s.out a = []) : (s.destroy a).Ok := by
  obtain ⟨hheld, hrefs⟩ := h.of_cnt_zero ha hcnt
  refine ⟨fun x hx => ?_, fun y hy x hx => ?_, fun x hx => ?_⟩
  · have hsum := Finset.add_sum_erase s.alive (fun y => (s.out y).count x) ha
    rw [hout, List.count_nil, Nat.zero_add] at hsum
    rw [show (s.destroy a).refs x = s.refs x from hsum]
    exact h.count x (Finset.mem_of_mem_erase hx)
  · have hy := Finset.mem_of_mem_erase hy
    exact Finset.mem_erase.2 ⟨fun heq => hrefs y hy (heq ▸ hx), h.out y hy x hx⟩
  · refine Finset.mem_erase.2 ⟨?_, h.held x hx⟩
    rintro rfl
    exact absurd hx (by show ¬ 0 < s.held x; omega)

end State

end PolarFs.RefCount
