/-
A queue of asynchronous transfers on a memory: a queued transfer moves its parts at any time until it
completes, with success once all of it was moved or with an error after any part of it. Its entry
stays in the queue until its result is taken.

What every transfer may do is given by `Rules`; what a caller may then rely on is `Kept`: nothing that
was finished is undone, and no error disappears unless it is handed out.
-/
import Mathlib.Data.List.InsertIdx

namespace PolarFs.IoQueue

variable {τ σ : Type}

/-- A transfer and its result: `none` in flight, `some 0` done, otherwise the error number. -/
structure Entry (τ : Type) where
  io : τ
  error : Option Nat

structure State (τ σ : Type) where
  mem : σ
  queue : List (Entry τ)
  /-- Every result the device gave, the oldest first. -/
  results : List (τ × Nat)

/-- What the device does by itself to the entry at index `i`. -/
inductive Event where
  | move (i : Nat) (part : Nat → Bool)
  | complete (i : Nat) (err : Nat)

namespace State

section Ops

variable (move : τ → (Nat → Bool) → σ → σ)

def complete (i err : Nat) (s : State τ σ) : State τ σ :=
  match s.queue[i]? with
  | some ⟨io, none⟩ =>
    { mem := if err = 0 then move io (fun _ => true) s.mem else s.mem
      queue := s.queue.set i ⟨io, some err⟩
      results := s.results ++ [(io, err)] }
  | _ => s

def event (s : State τ σ) : Event → State τ σ
  | .move i part =>
    match s.queue[i]? with
    | some ⟨io, none⟩ => { s with mem := move io part s.mem }
    | _ => s
  | .complete i err => s.complete move i err

/-- Takes the result of entry `i`, which completes with `err` if it has not yet. -/
def take (i err : Nat) (s : State τ σ) : Option (Nat × State τ σ) :=
  let s := s.complete move i err
  match s.queue[i]? with
  | some ⟨_, some n⟩ => some (n, { s with queue := s.queue.eraseIdx i })
  | _ => none

end Ops

def push (io : τ) (s : State τ σ) : State τ σ := { s with queue := s.queue ++ [⟨io, none⟩] }

def ios (s : State τ σ) : List τ := s.queue.map Entry.io

/-- The first entry with a result, otherwise the first one. -/
def ready (s : State τ σ) : Nat := (s.queue.findIdx? fun e => e.error.isSome).getD 0

end State

/-! ## What the transfers in the queue may do -/

/-- `P` holds of the memory throughout, `Q` of the transfers in the queue, and `D` of the memory once a
transfer is done. -/
structure Rules (move : τ → (Nat → Bool) → σ → σ) where
  P : σ → Prop
  Q : τ → Prop
  D : τ → σ → Prop
  keep : ∀ {t part m}, P m → Q t → P (move t part m)
  whole : ∀ {t m}, P m → Q t → D t (move t (fun _ => true) m)
  stay : ∀ {t u part m}, P m → Q t → Q u → D u m → D u (move t part m)

variable {move : τ → (Nat → Bool) → σ → σ}

structure Inv (R : Rules move) (s : State τ σ) : Prop where
  mem : R.P s.mem
  sound : ∀ e ∈ s.queue, R.Q e.io
  done : ∀ e ∈ s.queue, e.error = some 0 → R.D e.io s.mem
  recorded : ∀ e ∈ s.queue, ∀ n, e.error = some n → (e.io, n) ∈ s.results

/-- Every error is still in the queue. -/
def NoneLost (s : State τ σ) : Prop :=
  ∀ r ∈ s.results, r.2 ≠ 0 → ∃ e ∈ s.queue, ∃ n, n ≠ 0 ∧ e.error = some n

/-- What the device, and taking a result that is no error, leaves of `s`. -/
structure Kept (R : Rules move) (s s' : State τ σ) : Prop where
  inv : Inv R s'
  done : ∀ u, R.Q u → R.D u s.mem → R.D u s'.mem
  issued : ∀ u ∈ s.ios, u ∈ s'.ios ∨ R.D u s'.mem
  lost : NoneLost s → NoneLost s'
  grows : s.results ⊆ s'.results

section

variable {R : Rules move} {s s' s'' : State τ σ}

theorem Inv.sound_ios (h : Inv R s) {u : τ} (hu : u ∈ s.ios) : R.Q u := by
  obtain ⟨e, he, rfl⟩ := List.mem_map.mp hu
  exact h.sound e he

theorem Kept.refl (h : Inv R s) : Kept R s s := ⟨h, fun _ _ hd => hd, fun _ hu => .inl hu, id, fun _ => id⟩

theorem Kept.trans (hs : Inv R s) (h : Kept R s s') (h' : Kept R s' s'') : Kept R s s'' := by
  refine ⟨h'.inv, fun u hQ hd => h'.done u hQ (h.done u hQ hd), fun u hu => ?_, h'.lost ∘ h.lost,
    fun _ hx => h'.grows (h.grows hx)⟩
  rcases h.issued u hu with hq | hd
  · exact h'.issued u hq
  · exact .inr (h'.done u (hs.sound_ios hu) hd)

theorem NoneLost.of_nil (h : NoneLost s) (hq : s.queue = []) {r : τ × Nat} (hr : r ∈ s.results) : r.2 = 0 := by
  by_contra hne
  obtain ⟨e, he, -⟩ := h r hr hne
  rw [hq] at he
  exact absurd he List.not_mem_nil

/-! ## The device -/

theorem ios_set {i : Nat} {io : τ} {o o' : Option Nat} {q : List (Entry τ)} (h : q[i]? = some ⟨io, o⟩) :
    (q.set i ⟨io, o'⟩).map Entry.io = q.map Entry.io := by
  apply List.ext_getElem?
  intro j
  rw [List.getElem?_map, List.getElem?_map, List.getElem?_set]
  by_cases hij : i = j
  · subst hij
    rw [if_pos rfl, if_pos (List.getElem?_eq_some_iff.mp h).1, h]
    rfl
  · rw [if_neg hij]

/-- An entry with a result survives when the entry `i`, in flight, gets one. -/
theorem mem_set_of_error {i n : Nat} {io : τ} {q : List (Entry τ)} {b e : Entry τ} (h : q[i]? = some ⟨io, none⟩)
    (he : e ∈ q) (hn : e.error = some n) : e ∈ q.set i b := by
  obtain ⟨j, hj⟩ := List.mem_iff_getElem?.mp he
  have hij : i ≠ j := by
    rintro rfl
    rw [h] at hj
    cases hj
    cases hn
  exact List.mem_iff_getElem?.mpr ⟨j, by rw [List.getElem?_set_ne hij, hj]⟩

variable (move) in
@[simp] theorem ios_complete (i err : Nat) (s : State τ σ) : (s.complete move i err).ios = s.ios := by
  unfold State.complete
  split
  · next h => exact ios_set h
  · rfl

@[simp] theorem ios_event (s : State τ σ) (ev : Event) : (s.event move ev).ios = s.ios := by
  cases ev with
  | move i part => unfold State.event; dsimp only; split <;> rfl
  | complete i err => exact ios_complete move i err s

theorem Inv.setMem (h : Inv R s) {m : σ} (hP : R.P m) (hD : ∀ u, R.Q u → R.D u s.mem → R.D u m) :
    Kept R s { s with mem := m } :=
  ⟨⟨hP, h.sound, fun e he h0 => hD e.io (h.sound e he) (h.done e he h0), h.recorded⟩, hD, fun _ hu => .inl hu, id,
    fun _ => id⟩

theorem Inv.complete (h : Inv R s) (i err : Nat) : Kept R s (s.complete move i err) := by
  have hios := ios_complete move i err s
  unfold State.complete at hios ⊢
  split
  · rename_i io hi
    have hmem := List.mem_of_getElem? hi
    have hQ : R.Q io := h.sound _ hmem
    -- the memory after the last part was moved, or as it is
    have hm : R.P (if err = 0 then move io (fun _ => true) s.mem else s.mem) ∧
        (∀ u, R.Q u → R.D u s.mem → R.D u (if err = 0 then move io (fun _ => true) s.mem else s.mem)) ∧
        (err = 0 → R.D io (if err = 0 then move io (fun _ => true) s.mem else s.mem)) := by
      by_cases h0 : err = 0
      · simp only [if_pos h0]
        exact ⟨R.keep h.mem hQ, fun u hu hd => R.stay h.mem hQ hu hd, fun _ => R.whole h.mem hQ⟩
      · simp only [if_neg h0]
        exact ⟨h.mem, fun _ _ hd => hd, fun h0' => absurd h0' h0⟩
    refine ⟨⟨hm.1, fun e he => ?_, fun e he h0 => ?_, fun e he n hn => ?_⟩, hm.2.1, fun u hu => .inl ?_, fun hl r hr hne => ?_,
      List.subset_append_left ..⟩
    · rcases List.mem_or_eq_of_mem_set he with he | rfl
      exacts [h.sound e he, hQ]
    · rcases List.mem_or_eq_of_mem_set he with he | rfl
      · exact hm.2.1 _ (h.sound e he) (h.done e he h0)
      · exact hm.2.2 (Option.some.inj h0)
    · rcases List.mem_or_eq_of_mem_set he with he | rfl
      · exact List.mem_append_left _ (h.recorded e he n hn)
      · obtain rfl := Option.some.inj hn
        exact List.mem_append_right _ (List.mem_singleton.mpr rfl)
    · rw [hi] at hios
      rw [← hios] at hu
      exact hu
    · rcases List.mem_append.mp hr with hr | hr
      · obtain ⟨e, he, n, hn, heq⟩ := hl r hr hne
        exact ⟨e, mem_set_of_error hi he heq, n, hn, heq⟩
      · obtain rfl := List.mem_singleton.mp hr
        exact ⟨_, List.mem_set (List.getElem?_eq_some_iff.mp hi).1 _, err, hne, rfl⟩
  · exact Kept.refl h

theorem Inv.event (h : Inv R s) (ev : Event) : Kept R s (s.event move ev) := by
  cases ev with
  | move i part =>
    unfold State.event
    dsimp only
    split
    · rename_i hi
      have hQ := h.sound _ (List.mem_of_getElem? hi)
      exact h.setMem (R.keep h.mem hQ) fun u hu hd => R.stay h.mem hQ hu hd
    · exact Kept.refl h
  | complete i err => exact h.complete i err

variable (move) in
theorem ios_foldl_event (evs : List Event) (s : State τ σ) : (evs.foldl (State.event move) s).ios = s.ios := by
  induction evs generalizing s with
  | nil => rfl
  | cons ev evs ih => rw [List.foldl_cons, ih, ios_event]

theorem Inv.foldl_event (h : Inv R s) (evs : List Event) : Kept R s (evs.foldl (State.event move) s) := by
  induction evs generalizing s with
  | nil => exact Kept.refl h
  | cons ev evs ih => exact (h.event ev).trans h (ih (h.event ev).inv)

/-! ## Queueing and taking -/

theorem Inv.push (h : Inv R s) {io : τ} (hQ : R.Q io) : Kept R s (s.push io) := by
  refine ⟨⟨h.mem, fun e he => ?_, fun e he h0 => ?_, fun e he n hn => ?_⟩, fun _ _ hd => hd, fun u hu => .inl ?_,
    fun hl r hr hne => ?_, fun _ => id⟩
  · rcases List.mem_append.mp he with he | he
    · exact h.sound e he
    · rw [List.mem_singleton.mp he]
      exact hQ
  · rcases List.mem_append.mp he with he | he
    · exact h.done e he h0
    · rw [List.mem_singleton.mp he] at h0
      cases h0
  · rcases List.mem_append.mp he with he | he
    · exact h.recorded e he n hn
    · rw [List.mem_singleton.mp he] at hn
      cases hn
  · rw [State.ios, State.push, List.map_append]
    exact List.mem_append_left _ hu
  · obtain ⟨e, he, hn⟩ := hl r hr hne
    exact ⟨e, List.mem_append_left _ he, hn⟩

@[simp] theorem ios_push (io : τ) (s : State τ σ) : (s.push io).ios = s.ios ++ [io] := by
  simp [State.ios, State.push]

variable (move) in
/-- After it completed, entry `i` has a result. -/
theorem complete_getElem? (err : Nat) {i : Nat} {e : Entry τ} (h : s.queue[i]? = some e) :
    ∃ n, (s.complete move i err).queue[i]? = some ⟨e.io, some n⟩ := by
  rcases e with ⟨io, _ | n⟩
  · refine ⟨err, ?_⟩
    rw [State.complete, h]
    exact List.getElem?_set_self (List.getElem?_eq_some_iff.mp h).1
  · refine ⟨n, ?_⟩
    rw [State.complete, h]
    exact h

/-- What taking the result `n` of the transfer `io` leaves. -/
structure Taken (R : Rules move) (s : State τ σ) (io : τ) (n : Nat) (s' : State τ σ) : Prop where
  inv : Inv R s'
  recorded : (io, n) ∈ s'.results
  grows : s.results ⊆ s'.results
  kept : n = 0 → Kept R s s' ∧ R.D io s'.mem

theorem Inv.take (h : Inv R s) (err : Nat) {i : Nat} {e : Entry τ} (he : s.queue[i]? = some e) :
    ∃ n s', s.take move i err = some (n, s') ∧ Taken R s e.io n s' ∧ s'.ios = s.ios.eraseIdx i := by
  have hc := h.complete i err
  have hios := ios_complete move i err s
  obtain ⟨n, hn⟩ := complete_getElem? move err he
  unfold State.take
  generalize s.complete move i err = s₁ at hc hn hios
  refine ⟨n, { s₁ with queue := s₁.queue.eraseIdx i }, by simp only [hn], ?_, ?_⟩
  · have hmem := List.mem_of_getElem? hn
    have hsub : ∀ x ∈ s₁.queue.eraseIdx i, x ∈ s₁.queue := fun x => List.mem_of_mem_eraseIdx
    have hinv : Inv R { s₁ with queue := s₁.queue.eraseIdx i } :=
      ⟨hc.inv.mem, fun x hx => hc.inv.sound x (hsub x hx), fun x hx => hc.inv.done x (hsub x hx),
        fun x hx => hc.inv.recorded x (hsub x hx)⟩
    refine ⟨hinv, hc.inv.recorded _ hmem n rfl, hc.grows, ?_⟩
    rintro rfl
    have hD : R.D e.io s₁.mem := hc.inv.done ⟨e.io, some 0⟩ hmem rfl
    -- any other entry is still there
    have hstay : ∀ x ∈ s₁.queue, x = ⟨e.io, some 0⟩ ∨ x ∈ s₁.queue.eraseIdx i := by
      intro x hx
      obtain ⟨j, hj⟩ := List.mem_iff_getElem?.mp hx
      by_cases hji : j = i
      · rw [hji, hn] at hj
        exact .inl (Option.some.inj hj).symm
      · exact .inr (List.mem_eraseIdx_iff_getElem?.mpr ⟨j, hji, hj⟩)
    refine ⟨⟨hinv, hc.done, fun u hu => ?_, fun hl r hr hne => ?_, hc.grows⟩, hD⟩
    · rcases hc.issued u hu with hq | hd
      · obtain ⟨x, hx, rfl⟩ := List.mem_map.mp hq
        rcases hstay x hx with rfl | hx
        · exact .inr hD
        · exact .inl (List.mem_map_of_mem hx)
      · exact .inr hd
    · obtain ⟨x, hx, m, hm, hxm⟩ := hc.lost hl r hr hne
      rcases hstay x hx with rfl | hx
      · exact absurd (Option.some.inj hxm).symm hm
      · exact ⟨x, hx, m, hm, hxm⟩
  · rw [← hios]
    exact (List.eraseIdx_map _ _ _).symm

theorem length_take {i err n : Nat} (h : s.take move i err = some (n, s')) : s'.ios.length + 1 = s.ios.length := by
  unfold State.take at h
  dsimp only at h
  split at h
  · rename_i hi
    have hlt := (List.getElem?_eq_some_iff.mp hi).1
    cases h
    rw [← ios_complete move i err s, State.ios, State.ios, List.length_map, List.length_map, List.length_eraseIdx,
      if_pos hlt]
    omega
  · cases h

theorem ready_lt (h : s.ios ≠ []) : s.ready < s.ios.length := by
  have hlen : s.ios.length = s.queue.length := List.length_map ..
  have hpos := List.length_pos_iff.mpr h
  unfold State.ready
  cases hf : s.queue.findIdx? fun e => e.error.isSome with
  | none => exact hpos
  | some i =>
    rw [Option.getD_some, hlen]
    exact (List.findIdx?_eq_some_iff_findIdx_eq.mp hf).1

end

end PolarFs.IoQueue
