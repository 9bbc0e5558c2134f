/-
A list that is read element by element while others change it: elements are taken out anywhere but where
the reader stands, and new ones come in at the end. What stays in the list all the time is read exactly
once, in the order of the list.
-/
import Mathlib.Data.List.Nodup
import Mathlib.Data.List.Count

namespace PolarFs.ListCursor

variable {β : Type*} [DecidableEq β]

/-- The list in two parts, `before` and from the reader on, and what was read. Of the past: what has been in
the list all the time, what has been in it at some time, and whether it has not changed. -/
structure Cursor (β : Type*) where
  before : List β
  rest : List β
  read : List β
  stayed : List β
  seen : List β
  quiet : Bool

namespace Cursor

def start (l : List β) : Cursor β := ⟨[], l, [], l, l, true⟩

def next (c : Cursor β) : Cursor β :=
  match c.rest with
  | [] => c
  | x :: rest => { c with before := c.before ++ [x], rest := rest, read := c.read ++ [x] }

/-- The list becomes `before ++ rest`, with the reader in between. -/
def change (c : Cursor β) (before rest : List β) : Cursor β where
  before := before
  rest := rest
  read := c.read
  stayed := c.stayed.filter (· ∈ before ++ rest)
  seen := c.seen ++ (before ++ rest)
  quiet := c.quiet && decide (before ++ rest = c.before ++ c.rest)

/-- Elements are taken out and new ones put in at the end. -/
structure Edits (c : Cursor β) (before rest : List β) : Prop where
  nodup : (before ++ rest).Nodup
  before : before.Sublist c.before
  rest : ∃ kept new, rest = kept ++ new ∧ kept.Sublist c.rest ∧ ∀ x ∈ new, x ∉ c.before ++ c.rest

structure Inv (c : Cursor β) : Prop where
  nodup : (c.before ++ c.rest).Nodup
  stayed : ∀ x ∈ c.stayed, (x ∈ c.before ∧ c.read.count x = 1) ∨ (x ∈ c.rest ∧ c.read.count x = 0)
  rest : ∀ x ∈ c.rest, x ∈ c.seen
  read : ∀ x ∈ c.read, x ∈ c.seen
  quiet : c.quiet = true → c.read = c.before

variable {c : Cursor β} {before rest : List β}

theorem inv_start {l : List β} (h : l.Nodup) : (start l).Inv :=
  ⟨h, fun _ hx => .inr ⟨hx, rfl⟩, fun _ hx => hx, nofun, fun _ => rfl⟩

omit [DecidableEq β] in
theorem next_eq {x : β} (hrest : c.rest = x :: rest) :
    c.next = { c with before := c.before ++ [x], rest := rest, read := c.read ++ [x] } := by
  unfold Cursor.next
  rw [hrest]

theorem Inv.next (h : c.Inv) {x : β} (hrest : c.rest = x :: rest) : c.next.Inv := by
  have hnodup := h.nodup
  rw [hrest] at hnodup
  rw [next_eq hrest]
  refine ⟨by simpa using hnodup, fun y hy => ?_, fun y hy => ?_, fun y hy => ?_, fun hq => ?_⟩
  · have hold := h.stayed y hy
    rw [hrest] at hold
    rw [List.count_append, List.count_singleton]
    by_cases hyx : x = y
    · -- where the reader stands nothing was read yet
      subst hyx
      have hnot : x ∉ c.before := fun hmem => (List.nodup_append.1 hnodup).2.2 x hmem x List.mem_cons_self rfl
      obtain ⟨-, hcount⟩ := hold.resolve_left fun hb => hnot hb.1
      exact .inl ⟨by simp, by simp [hcount]⟩
    · have hne : (x == y) = false := beq_false_of_ne hyx
      rw [hne]
      rcases hold with ⟨hb, hcount⟩ | ⟨hr, hcount⟩
      · exact .inl ⟨List.mem_append_left _ hb, hcount⟩
      · exact .inr ⟨(List.mem_cons.1 hr).resolve_left (Ne.symm hyx), hcount⟩
  · exact h.rest y (hrest ▸ List.mem_cons_of_mem _ hy)
  · rcases List.mem_append.1 hy with hy | hy
    · exact h.read y hy
    · rw [List.mem_singleton.1 hy]
      exact h.rest x (hrest ▸ List.mem_cons_self)
  · exact congrArg (· ++ [x]) (h.quiet hq)

omit [DecidableEq β] in
/-- An edit that leaves the list as it was leaves the reader where it was. -/
theorem Edits.before_eq (he : c.Edits before rest) (heq : before ++ rest = c.before ++ c.rest) : before = c.before := by
  obtain ⟨kept, new, rfl, hkept, hnew⟩ := he.rest
  have hnil : new = [] := by
    refine List.eq_nil_iff_forall_not_mem.2 fun x hx => hnew x hx ?_
    rw [← heq]
    exact List.mem_append_right _ (List.mem_append_right _ hx)
  have hlen := congrArg List.length heq
  have hb := he.before.length_le
  have hk := hkept.length_le
  simp only [hnil, List.length_append, List.length_nil] at hlen
  exact he.before.eq_of_length (by omega)

theorem Inv.change (h : c.Inv) (he : c.Edits before rest) : (c.change before rest).Inv := by
  refine ⟨he.nodup, fun x hx => ?_, fun x hx => ?_, fun x hx => ?_, fun hq => ?_⟩
  · obtain ⟨hx, hmem⟩ := List.mem_filter.1 hx
    have hmem : x ∈ before ++ rest := of_decide_eq_true hmem
    obtain ⟨kept, new, hrest, hkept, hnew⟩ := he.rest
    have hold := h.stayed x hx
    have hnodup := List.nodup_append.1 h.nodup
    rcases List.mem_append.1 hmem with hb | hr
    · have hnot : x ∉ c.rest := fun hr => hnodup.2.2 x (he.before.subset hb) x hr rfl
      exact .inl ⟨hb, (hold.resolve_right fun hc => hnot hc.1).2⟩
    refine .inr ⟨hr, ?_⟩
    rw [hrest] at hr
    rcases List.mem_append.1 hr with hk | hn
    · have hnot : x ∉ c.before := fun hb => hnodup.2.2 x hb x (hkept.subset hk) rfl
      exact (hold.resolve_left fun hc => hnot hc.1).2
    · -- what is new has not been there all the time
      exact absurd (List.mem_append.2 (hold.imp And.left And.left)) (hnew x hn)
  · exact List.mem_append_right _ (List.mem_append_right _ hx)
  · exact List.mem_append_left _ (h.read x hx)
  · obtain ⟨hq, heq⟩ := Bool.and_eq_true_iff.1 hq
    exact (h.quiet hq).trans (he.before_eq (of_decide_eq_true heq)).symm

/-- Once everything is read, or what is not read is taken out, the list may become any other. -/
theorem Inv.change_end (h : c.Inv) (hrest : ∀ x ∈ c.rest, x ∉ before) (hnodup : before.Nodup) :
    (c.change before []).Inv := by
  refine ⟨by simpa [Cursor.change] using hnodup, fun x hx => ?_, nofun, fun x hx => ?_, fun hq => ?_⟩
  · obtain ⟨hx, hmem⟩ := List.mem_filter.1 hx
    have hmem : x ∈ before := by simpa using hmem
    exact .inl ⟨hmem, ((h.stayed x hx).resolve_right fun hc => hrest x hc.1 hmem).2⟩
  · exact List.mem_append_left _ (h.read x hx)
  · obtain ⟨hq, heq⟩ := Bool.and_eq_true_iff.1 hq
    have heq : before = c.before ++ c.rest := by simpa using of_decide_eq_true heq
    have hnil : c.rest = [] :=
      List.eq_nil_iff_forall_not_mem.2 fun x hx => hrest x hx (heq ▸ List.mem_append_right _ hx)
    rw [hnil, List.append_nil] at heq
    exact (h.quiet hq).trans heq.symm

theorem Inv.count_of_end (h : c.Inv) (hend : c.rest = []) {x : β} (hx : x ∈ c.stayed) : c.read.count x = 1 := by
  have hnot : x ∉ c.rest := by simp [hend]
  exact ((h.stayed x hx).resolve_right fun hc => hnot hc.1).2

end Cursor

end PolarFs.ListCursor
