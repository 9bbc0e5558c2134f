/-
Setting a long name within a transaction (`pfs_dir.cc`), on the copies of the transaction, with the
allocation nodes and the bytes of `de_name` as they lie on the device. A name that fits is copied with
its NUL; the rest of a longer one is in a chain of extension direntries. When no direntry is left for the
next component the call returns an error with the chain half changed, and the caller rolls back.

A call that returns 0 leaves a chain that holds the name and no other direntry newly in use; after an
error the rollback leaves every name and every free direntry as it was.
-/
import PolarFs.Dir.Direntry
import PolarFs.Meta.Allocator

namespace PolarFs.Dir.Phy

open PolarFs.Meta RecordChain
open Function (update update_idem update_self update_of_ne forall_update_iff)

/-! ## The model -/

/-- `de_name`. -/
abbrev Component := Vector UInt8 64

/-- `pfs_direntry_phy_t`; `mo_used` is in the object. -/
structure DirentryPhy where
  ino : Option Nat
  dirino : Option Nat
  name : Component
  extdeno : Nat

/-- `strncpy` of a string into `de_name`: its first 64 bytes, or all of it and NULs. -/
def strncpy (name : Name) : Component := Vector.ofFn fun i => name.getD i 0

/-- What `pfs_direntry_fini` leaves. -/
def DirentryPhy.clear : DirentryPhy := ⟨none, none, strncpy [], 0⟩

/-- `DE_ISEXT`. -/
def DirentryPhy.isExt (d : DirentryPhy) : Bool := d.ino.isSome && d.dirino.isNone

/-- A direntry as the running transaction sees it. -/
def de (s : Mount DirentryPhy) (n : Nat) : MetaObj DirentryPhy := s.getMo (.direntry, n)

/-- A change of a direntry with an operation of the transaction. -/
def put (s : Mount DirentryPhy) (n : Nat) (d : DirentryPhy) : Mount DirentryPhy :=
  s.write (.direntry, n) { de s n with data := d }

/-- The string that starts a buffer. -/
def cstring (buf : List UInt8) : Name := buf.takeWhile (· != 0)

section Model

variable (cfg : Config) (extname : Bool)

/-- The loop of `pfs_direntry_getname`; the buffer has room for `room` more components. -/
def getnameLoop (s : Mount DirentryPhy) : Nat → Nat → Except Fail (List UInt8)
  | 0, _ => .error .verify
  | room + 1, n =>
    let d := (de s n).data
    if d.extdeno = 0 then .ok d.name.toList
    else do
      verify (cfg.Valid (.direntry, d.extdeno))
      return d.name.toList ++ (← getnameLoop s room d.extdeno)

/-- `pfs_direntry_getname` and the string in its buffer of `PFS_MAX_NAMELEN`. -/
def direntryGetname (s : Mount DirentryPhy) (n : Nat) : Except Fail Name := (getnameLoop cfg s 4 n).map cstring

/-- What `pfs_direntry_setname_ext` leaves: the mount, `*pextdeno` and the error it returns. -/
structure Ret where
  mnt : Mount DirentryPhy
  extdeno : Nat
  err : Option Errno

/-- `pfs_direntry_setname_ext`. -/
def direntrySetnameExt : Nat → Mount DirentryPhy → Nat → Nat → Option Name → Except Fail Ret
  | 0, _, _, _, _ => .error .fuel
  | fuel + 1, s, deno, headdeno, newname =>
    match newname with
    | none =>
      if deno = 0 then .ok ⟨s, 0, none⟩
      -- the rest of the chain goes, from its end
      else do
        verify (extname = true ∧ cfg.Valid (.direntry, deno))
        verify ((de s deno).data.isExt = true ∧ (de s deno).data.ino = some headdeno)
        let r ← direntrySetnameExt fuel s (de s deno).data.extdeno headdeno none
        let d : DirentryPhy := { (de r.mnt deno).data with extdeno := r.extdeno, name := strncpy [] }
        verify (d.name.get 0 = 0 ∧ d.extdeno = 0)
        return ⟨(put r.mnt deno { d with ino := none, dirino := none }).metaFree cfg (.direntry, deno), 0, r.err⟩
    | some name =>
      if deno = 0 then do
        verify (extname = true)
        match s.metaAlloc cfg .direntry none with
        -- `*pextdeno` stays as it is
        | none => return ⟨s, deno, some .efile2many⟩
        | some (e, s₁) =>
          let d := (de s₁ e).data
          verify (d.name.get 0 = 0 ∧ d.ino = none ∧ d.dirino = none ∧ d.extdeno = 0)
          let s₂ := put s₁ e { d with ino := some headdeno, dirino := none, name := strncpy name }
          let r ← direntrySetnameExt fuel s₂ 0 headdeno (extnameForward name)
          return ⟨put r.mnt e { (de r.mnt e).data with extdeno := r.extdeno }, e, r.err⟩
      else do
        verify (extname = true ∧ cfg.Valid (.direntry, deno))
        verify ((de s deno).data.isExt = true ∧ (de s deno).data.ino = some headdeno)
        let s₁ := put s deno { (de s deno).data with name := strncpy name }
        let r ← direntrySetnameExt fuel s₁ (de s deno).data.extdeno headdeno (extnameForward name)
        return ⟨put r.mnt deno { (de r.mnt deno).data with extdeno := r.extdeno }, deno, r.err⟩

/-- `pfs_direntry_setname`, with the error it returns. -/
def direntrySetname (s : Mount DirentryPhy) (n : Nat) (newname : Name) :
    Except Fail (Mount DirentryPhy × Option Errno) := do
  let s₁ := put s n { (de s n).data with name := strncpy newname }
  if (de s n).data.isExt then
    verify (extname = true)
    return (s₁, none)
  else
    verify (newname ∉ dots)
    let r ← direntrySetnameExt cfg extname (cfg.bound .direntry + newname.length + 2) s₁ (de s n).data.extdeno n
      (extnameForward newname)
    return (put r.mnt n { (de r.mnt n).data with extdeno := r.extdeno }, r.err)

end Model

/-! ## The components of a name -/

theorem toList_strncpy (name : Name) :
    (strncpy name).toList = name.take densize ++ List.replicate (densize - name.length) 0 := by
  refine List.ext_getElem? fun i => ?_
  rcases Nat.lt_or_ge i 64 with hi | hi
  · have hget : (strncpy name).toList[i]? = some (name.getD i 0) := by
      rw [List.getElem?_eq_getElem (by simpa using hi)]
      simp [strncpy]
    rw [hget]
    rcases Nat.lt_or_ge i name.length with hn | hn
    · rw [List.getElem?_append_left (by rw [List.length_take, densize]; omega), densize, List.getElem?_take_of_lt hi,
        List.getElem?_eq_getElem hn]
      simp [hn]
    · rw [List.getElem?_append_right (by rw [List.length_take]; omega), List.getElem?_replicate, List.length_take, if_pos]
      · simp [hn]
      · rw [densize]
        omega
  · rw [List.getElem?_eq_none (by simpa using hi), List.getElem?_eq_none]
    rw [List.length_append, List.length_take, List.length_replicate, densize]
    omega

theorem cstring_append_of_notMem {a b : List UInt8} (h : 0 ∉ a) : cstring (a ++ b) = a ++ cstring b :=
  List.takeWhile_append_of_pos fun x hx => by
    have : x ≠ 0 := fun heq => h (heq ▸ hx)
    simpa using this

theorem cstring_strncpy {name : Name} (hnul : 0 ∉ name) : cstring (strncpy name).toList = name.take densize := by
  rw [toList_strncpy, cstring_append_of_notMem fun h => hnul (List.mem_of_mem_take h)]
  cases densize - name.length <;> simp [cstring, List.replicate_succ]

/-- The components read one after the other are the name. -/
theorem cstring_rests {name : Name} (hnul : 0 ∉ name) :
    cstring ((rests (some name)).map fun nm => (strncpy nm).toList).flatten = name := by
  induction hlen : name.length using Nat.strong_induction_on generalizing name with
  | _ n ih =>
    have htake : 0 ∉ name.take densize := fun h => hnul (List.mem_of_mem_take h)
    rw [rests_some, List.map_cons, List.flatten_cons, toList_strncpy]
    unfold extnameForward
    split
    case isTrue h =>
      -- the last component ends with a NUL
      obtain ⟨k, hk⟩ : ∃ k, densize - name.length = k + 1 := ⟨densize - name.length - 1, by omega⟩
      rw [List.append_assoc, cstring_append_of_notMem htake, hk, List.replicate_succ]
      simp [cstring, List.take_of_length_le (show name.length ≤ densize by omega)]
    case isFalse h =>
      have hrest := ih (name.drop densize).length (by rw [List.length_drop, densize]; unfold densize at h; omega)
        (fun hmem => hnul (List.mem_of_mem_drop hmem)) rfl
      rw [show densize - name.length = 0 by omega, List.replicate_zero, List.append_nil, cstring_append_of_notMem htake,
        hrest, List.take_append_drop]

/-! ## Operations of the transaction -/

variable {cfg : Config} {extname : Bool} {s s' s'' : Mount DirentryPhy} {n e : Nat}

/-- `s'` is a later state of the transaction that is open in `s`. -/
structure Within (cfg : Config) (s s' : Mount DirentryPhy) : Prop where
  ok : s'.Ok cfg
  objs : s'.objs = s.objs
  tx : ∀ tx, s.tx = some tx → ∃ tx', s'.tx = some tx' ∧ tx'.before = tx.before

theorem Within.refl (h : s.Ok cfg) : Within cfg s s := ⟨h, rfl, fun tx htx => ⟨tx, htx, rfl⟩⟩

theorem Within.trans (h₁ : Within cfg s s') (h₂ : Within cfg s' s'') : Within cfg s s'' := by
  refine ⟨h₂.ok, h₂.objs.trans h₁.objs, fun tx htx => ?_⟩
  obtain ⟨tx₁, htx₁, hb₁⟩ := h₁.tx tx htx
  obtain ⟨tx₂, htx₂, hb₂⟩ := h₂.tx tx₁ htx₁
  exact ⟨tx₂, htx₂, hb₂.trans hb₁⟩

theorem Within.isSome (h : Within cfg s s') (htx : s.tx.isSome) : s'.tx.isSome := by
  obtain ⟨tx, heq⟩ := Option.isSome_iff_exists.1 htx
  obtain ⟨tx', heq', -⟩ := h.tx tx heq
  rw [heq']
  rfl

theorem within_of_edited {k : Key} {mo : MetaObj DirentryPhy} (hok : s'.Ok cfg) (h : Mount.Edited s s' k mo) :
    Within cfg s s' := by
  refine ⟨hok, h.objs, fun tx htx => ?_⟩
  obtain ⟨heads, topLocal, heq⟩ := h.tx tx htx
  exact ⟨_, heq, rfl⟩

theorem de_of_view {mo : MetaObj DirentryPhy} (h : s'.getMo = update s.getMo (.direntry, n) mo) :
    de s' = update (de s) n mo := by
  funext y
  rw [de, h]
  by_cases hy : y = n
  · subst hy
    rw [update_self, update_self]
  · rw [update_of_ne hy, update_of_ne (fun heq => hy (congrArg Prod.snd heq)), de]

theorem put_spec (hok : s.Ok cfg) (htx : s.tx.isSome) (hv : cfg.Valid (.direntry, n)) (d : DirentryPhy) :
    Within cfg s (put s n d) ∧ de (put s n d) = update (de s) n { de s n with data := d } := by
  have hok' : (put s n d).Ok cfg := hok.write_same htx hv nofun rfl nofun nofun
  refine ⟨⟨hok', Mount.objs_write _ _, fun tx heq => ⟨_, congrArg Mount.tx (Mount.write_eq heq _ _), rfl⟩⟩, ?_⟩
  exact de_of_view (Mount.getMo_write htx _ _)

theorem metaAlloc_spec (hok : s.Ok cfg) (htx : s.tx.isSome) (h : s.metaAlloc cfg .direntry none = some (e, s')) :
    cfg.Valid (.direntry, e) ∧ (de s e).used = false ∧ Within cfg s s' ∧
      de s' = update (de s) e { de s e with used := true } := by
  have hall := hok.allocCommon_some htx (t := .direntry) nofun h
  obtain ⟨mo, hed, -⟩ := hall.edited
  refine ⟨hall.valid, hall.unused, within_of_edited hall.ok hed, de_of_view ?_⟩
  -- the copy that the allocation writes
  obtain ⟨⟨val, s₁⟩, hpick, heq⟩ := Option.map_eq_some_iff.1 (show (s.anodeAlloc cfg .direntry).map _ = _ from h)
  obtain ⟨rfl, rfl⟩ := Prod.mk.inj heq
  obtain ⟨-, -, an, rfl, -⟩ := hok.anodeAlloc_some hpick
  exact Mount.getMo_write (s := s.setAnode .direntry an) htx _ _

theorem metaFree_spec (hok : s.Ok cfg) (htx : s.tx.isSome) (hv : cfg.Valid (.direntry, e)) (hu : (de s e).used = true) :
    Within cfg s (s.metaFree cfg (.direntry, e)) ∧
      de (s.metaFree cfg (.direntry, e)) = update (de s) e { de s e with used := false } := by
  have hfree := hok.freeCommon htx (t := .direntry) nofun hv hu
  obtain ⟨mo, hed, -⟩ := hfree.edited
  exact ⟨within_of_edited hfree.ok hed, de_of_view (Mount.getMo_write htx _ _)⟩

/-! ## Chains -/

/-- The chain of extensions of `head` that starts at a direntry. -/
abbrev Chain (cfg : Config) (de : Nat → MetaObj DirentryPhy) (head : Nat) : Nat → List Nat → Prop :=
  RecordChain.Chain (fun y mo => cfg.Valid (.direntry, y) ∧ mo.used = true ∧ mo.data.ino = some head ∧ mo.data.dirino = none)
    (·.data.extdeno) de

theorem length_le_of_chain {f : Nat → MetaObj DirentryPhy} {head x : Nat} {l : List Nat} (h : Chain cfg f head x l) :
    l.length ≤ cfg.bound .direntry := by
  have hsub : l ⊆ List.range (cfg.bound .direntry) := fun y hy => List.mem_range.2 (h.mem y hy).2.1.lt_bound
  have hle := (h.nodup.subperm hsub).length_le
  rwa [List.length_range] at hle

/-- A free direntry is clear. -/
def FreeClear (f : Nat → MetaObj DirentryPhy) : Prop := ∀ n, (f n).used = false → (f n).data = .clear

theorem FreeClear.update {f : Nat → MetaObj DirentryPhy} (h : FreeClear f) {mo : MetaObj DirentryPhy}
    (hmo : mo.used = true) : FreeClear (update f n mo) :=
  (forall_update_iff f fun _ mo => mo.used = false → mo.data = .clear).2 ⟨by simp [hmo], fun y _ => h y⟩

/-- The first part of the name is copied to `n`, which is not in the chain. -/
theorem put_name (hok : s.Ok cfg) (htx : s.tx.isSome) (hv : cfg.Valid (.direntry, n)) (hfree : FreeClear (de s))
    (hu : (de s n).used = true) (name : Name) {head x : Nat} {l : List Nat} (hchain : Chain cfg (de s) head x l)
    (hnl : n ∉ l) : ∃ s₁, put s n { (de s n).data with name := strncpy name } = s₁ ∧ Within cfg s s₁ ∧ s₁.tx.isSome ∧
      FreeClear (de s₁) ∧ Chain cfg (de s₁) head x l ∧
      de s₁ n = { de s n with data := { (de s n).data with name := strncpy name } } ∧ ∀ y, y ≠ n → de s₁ y = de s y := by
  obtain ⟨hw, hde⟩ := put_spec hok htx hv { (de s n).data with name := strncpy name }
  refine ⟨_, rfl, hw, hw.isSome htx, hde ▸ hfree.update hu, hchain.congr fun y hy => ?_, ?_, fun y hy => ?_⟩
  · rw [hde, update_of_ne (ne_of_mem_of_not_mem hy hnl)]
  · rw [hde, update_self]
  · rw [hde, update_of_ne hy]

/-- What a change of the chain leaves: `l'` in place of `l`, with the components of the name. -/
abbrev ExtSet (cfg : Config) (f f' : Nat → MetaObj DirentryPhy) (l l' : List Nat) (newname : Option Name) : Prop :=
  Rechained (fun y mo => cfg.Valid (.direntry, y) ∧ mo.used = false) (fun mo => mo.used = false ∧ mo.data = .clear)
    (·.data.name) f f' l l' ((rests newname).map strncpy)

/-- What a call leaves in either case, and what it leaves when it returns 0. -/
structure RetOk (cfg : Config) (s : Mount DirentryPhy) (r : Ret) (head : Nat) (l : List Nat) (newname : Option Name) :
    Prop where
  within : Within cfg s r.mnt
  frame : ∀ y, y ∉ l → (de s y).used = true → de r.mnt y = de s y
  done : r.err = none → ∃ l', Chain cfg (de r.mnt) head r.extdeno l' ∧ ExtSet cfg (de s) (de r.mnt) l l' newname
  cut : newname = none → r.err = none

/-- The direntry `e` with its component of the name, and after it what the rest of the name has left. -/
theorem RetOk.link {s₁ : Mount DirentryPhy} {r : Ret} {head e : Nat} {l₀ : List Nat} {name : Name}
    (hw : Within cfg s s₁) (htx : s₁.tx.isSome) (hother : ∀ y, y ≠ e → de s₁ y = de s y)
    (hv : cfg.Valid (.direntry, e)) (he0 : e ≠ 0) (hel : e ∉ l₀)
    (he : (de s₁ e).used = true ∧ (de s₁ e).data.ino = some head ∧ (de s₁ e).data.dirino = none)
    (hname : (de s₁ e).data.name = strncpy name) (hret : RetOk cfg s₁ r head l₀ (extnameForward name)) :
    let s' := put r.mnt e { (de r.mnt e).data with extdeno := r.extdeno }
    Within cfg s s' ∧ (∀ y, y ≠ e → y ∉ l₀ → (de s y).used = true → de s' y = de s y) ∧
      (r.err = none → ∃ l₁, Chain cfg (de s') head e (e :: l₁) ∧
        ExtSet cfg (de s₁) (de s') (e :: l₀) (e :: l₁) (some name)) := by
  obtain ⟨hw', hde⟩ := put_spec hret.within.ok (hret.within.isSome htx) hv
    { (de r.mnt e).data with extdeno := r.extdeno }
  refine ⟨(hw.trans hret.within).trans hw', fun y hye hy hyu => ?_, fun herr => ?_⟩
  · rw [hde, update_of_ne hye, hret.frame y hy (by rw [hother y hye, hyu]), hother y hye]
  · obtain ⟨l₁, hchain, hset⟩ := hret.done herr
    obtain ⟨hchain', hset'⟩ := hset.cons_chain hchain hel he0 (by rw [he.1]; simp)
      (fun y hy => (congrFun hde y).trans (update_of_ne hy ..)) fun heq => by
        rw [hde, update_self, heq]
        exact ⟨⟨hv, he⟩, rfl, rfl⟩
    refine ⟨l₁, hchain', ?_⟩
    rw [ExtSet, rests_some, List.map_cons, ← hname]
    exact hset'

theorem verify_link {d : DirentryPhy} {head : Nat} (hext : extname = true) (hv : cfg.Valid (.direntry, e))
    (hi : d.ino = some head) (hd : d.dirino = none) :
    verify (extname = true ∧ cfg.Valid (.direntry, e)) = .ok () ∧
      verify (d.isExt = true ∧ d.ino = some head) = .ok () :=
  ⟨verify_eq_ok.2 ⟨hext, hv⟩, verify_eq_ok.2 ⟨by simp [DirentryPhy.isExt, hi, hd], hi⟩⟩

variable (extname) in
theorem direntrySetnameExt_ret {head : Nat} : ∀ (fuel : Nat) {s : Mount DirentryPhy} {x : Nat} (name : Option Name)
    {l : List Nat}, s.Ok cfg → s.tx.isSome → FreeClear (de s) → (de s 0).used = true → Chain cfg (de s) head x l →
    (extname = false → l = [] ∧ name = none) → l.length + (rests name).length < fuel →
    ∃ r, direntrySetnameExt cfg extname fuel s x head name = .ok r ∧ RetOk cfg s r head l name
  | 0, _, _, _, _, _, _, _, _, _, _, hlt => by omega
  | fuel + 1, s, x, none, l, hok, htx, hfree, h0, hchain, hext, hlt => by
    by_cases hx : x = 0
    · obtain rfl := hchain.nil_iff.1 hx
      refine ⟨⟨s, 0, none⟩, by rw [direntrySetnameExt, if_pos hx], .refl hok, fun _ _ _ => rfl, fun _ => ?_, fun _ => rfl⟩
      exact ⟨[], rfl, .nil ..⟩
    · cases l with
      | nil => exact absurd hchain hx
      | cons y l₀ =>
        have hnd := hchain.nodup
        obtain ⟨rfl, hx0, ⟨hv, hu, hi, hd⟩, hrest⟩ := hchain
        obtain ⟨hxl, -⟩ := List.nodup_cons.1 hnd
        have hextname : extname = true := Bool.eq_true_of_not_eq_false fun he => nomatch (hext he).1
        obtain ⟨r, hr, hret⟩ := direntrySetnameExt_ret fuel none hok htx hfree h0 hrest (by simp [hextname])
          (by simp only [List.length_cons] at hlt; omega)
        obtain ⟨l₁, hchain₁, hset⟩ := hret.done (hret.cut rfl)
        obtain rfl : l₁ = [] := List.eq_nil_of_length_eq_zero hset.length_eq
        have hr2 : r.extdeno = 0 := hchain₁
        have hx' : de r.mnt x = de s x := hret.frame x hxl hu
        obtain ⟨hw₁, hde₁⟩ := put_spec hret.within.ok (hret.within.isSome htx) hv
          ⟨none, none, strncpy [], r.extdeno⟩
        obtain ⟨hw₂, hde₂⟩ := metaFree_spec hw₁.ok (hw₁.isSome (hret.within.isSome htx)) hv
          (by rw [hde₁, update_self, hx', hu])
        have hde : de ((put r.mnt x ⟨none, none, strncpy [], r.extdeno⟩).metaFree cfg (.direntry, x)) =
            update (de r.mnt) x { de s x with used := false, data := .clear } := by
          rw [hde₂, hde₁, update_idem, update_self, hx', hr2]
          rfl
        refine ⟨⟨(put r.mnt x ⟨none, none, strncpy [], r.extdeno⟩).metaFree cfg (.direntry, x), 0, r.err⟩, ?_,
          (hret.within.trans hw₁).trans hw₂, ?_, fun _ => ⟨[], rfl, hset.cut (e := x) ?_ ?_⟩, fun _ => hret.cut rfl⟩
        · obtain ⟨hver, hver'⟩ := verify_link hextname hv hi hd
          have hver'' : verify ((strncpy []).get 0 = 0 ∧ r.extdeno = 0) = .ok () := verify_eq_ok.2 ⟨rfl, hr2⟩
          rw [direntrySetnameExt, if_neg hx, hver, hver', hr]
          simp only [bind, Except.bind]
          rw [hver'']
          rfl
        · intro y hy hyu
          simp only [List.mem_cons, not_or] at hy
          rw [hde, update_of_ne hy.1, hret.frame y hy.2 hyu]
        · intro y hy
          rw [hde, update_of_ne hy]
        · rw [hde, update_self]
          exact ⟨rfl, rfl⟩
  | fuel + 1, s, x, some name, l, hok, htx, hfree, h0, hchain, hext, hlt => by
    have hextname : extname = true := Bool.eq_true_of_not_eq_false fun he => nomatch (hext he).2
    have hrests : (rests (some name)).length = (rests (extnameForward name)).length + 1 := by
      rw [rests_some, List.length_cons]
    by_cases hx : x = 0
    · obtain rfl := hchain.nil_iff.1 hx
      have hver : verify (extname = true) = .ok () := verify_eq_ok.2 hextname
      cases halloc : s.metaAlloc cfg .direntry none with
      | none =>
        refine ⟨⟨s, x, some .efile2many⟩, ?_, .refl hok, fun _ _ _ => rfl, nofun, nofun⟩
        rw [direntrySetnameExt, if_pos hx, hver]
        simp only [bind, Except.bind, halloc]
        rfl
      | some p =>
        obtain ⟨e, s₁⟩ := p
        obtain ⟨hv, hunused, hw₁, hde₁⟩ := metaAlloc_spec hok htx halloc
        have hclear := hfree e hunused
        have htx₁ := hw₁.isSome htx
        obtain ⟨hw₂, hde₂⟩ := put_spec hw₁.ok htx₁ hv ⟨some head, none, strncpy name, 0⟩
        have he0 : e ≠ 0 := by
          rintro rfl
          rw [h0] at hunused
          cases hunused
        generalize hs₂ : put s₁ e ⟨some head, none, strncpy name, 0⟩ = s₂ at hw₂ hde₂
        have hde : de s₂ = update (de s) e ⟨true, (de s e).bt, ⟨some head, none, strncpy name, 0⟩⟩ := by
          rw [hde₂, hde₁, update_idem, update_self]
        have hself : de s₂ e = ⟨true, (de s e).bt, ⟨some head, none, strncpy name, 0⟩⟩ := by
          rw [hde, update_self]
        have hother : ∀ y, y ≠ e → de s₂ y = de s y := fun y hy => by rw [hde, update_of_ne hy]
        have hnil : Chain cfg (de s₂) head 0 [] := rfl
        obtain ⟨r, hr, hret⟩ := direntrySetnameExt_ret fuel (extnameForward name)
          hw₂.ok (hw₂.isSome htx₁) (hde ▸ hfree.update rfl) (by rw [hother 0 he0.symm, h0]) hnil
          (by simp [hextname]) (by omega)
        obtain ⟨hw, hframe, hdone⟩ := hret.link (hw₁.trans hw₂) (hw₂.isSome htx₁) hother hv he0 (by simp)
          (by rw [hself]; exact ⟨rfl, rfl, rfl⟩) (by rw [hself])
        refine ⟨⟨put r.mnt e { (de r.mnt e).data with extdeno := r.extdeno }, e, r.err⟩, ?_, hw, ?_, fun herr => ?_, nofun⟩
        · have hd₁ : (de s₁ e).data = .clear := by rw [hde₁, update_self, hclear]
          have hinit : verify ((de s₁ e).data.name.get 0 = 0 ∧ (de s₁ e).data.ino = none ∧ (de s₁ e).data.dirino = none ∧
              (de s₁ e).data.extdeno = 0) = .ok () := by
            rw [hd₁]
            exact verify_eq_ok.2 ⟨rfl, rfl, rfl, rfl⟩
          rw [direntrySetnameExt, if_pos hx, hver]
          simp only [bind, Except.bind, halloc]
          rw [hinit]
          simp only [hd₁, DirentryPhy.clear]
          rw [hs₂, hr]
          rfl
        · intro y _ hyu
          have hye : y ≠ e := by
            rintro rfl
            rw [hunused] at hyu
            cases hyu
          exact hframe y hye (by simp) hyu
        · obtain ⟨l₁, hchain', hset⟩ := hdone herr
          exact ⟨e :: l₁, hchain', hset.grow hother ⟨hv, hunused⟩⟩
    · cases l with
      | nil => exact absurd hchain hx
      | cons y l₀ =>
        have hnd := hchain.nodup
        obtain ⟨rfl, hx0, ⟨hv, hu, hi, hd⟩, hrest⟩ := hchain
        obtain ⟨hxl, -⟩ := List.nodup_cons.1 hnd
        obtain ⟨s₁, hs₁, hw₁, htx₁, hfree₁, hrest₁, hself, hother⟩ := put_name hok htx hv hfree hu name hrest hxl
        obtain ⟨r, hr, hret⟩ := direntrySetnameExt_ret fuel (extnameForward name) hw₁.ok htx₁ hfree₁
          (by rw [hother 0 hx0.symm, h0]) hrest₁ (by simp [hextname])
          (by simp only [List.length_cons] at hlt; omega)
        obtain ⟨hw, hframe, hdone⟩ := hret.link hw₁ htx₁ hother hv hx0 hxl (by rw [hself]; exact ⟨hu, hi, hd⟩)
          (by rw [hself])
        refine ⟨⟨put r.mnt x { (de r.mnt x).data with extdeno := r.extdeno }, x, r.err⟩, ?_, hw, ?_, fun herr => ?_, nofun⟩
        · obtain ⟨hver, hver'⟩ := verify_link hextname hv hi hd
          rw [direntrySetnameExt, if_neg hx, hver, hver']
          simp only [bind, Except.bind]
          rw [hs₁, hr]
          rfl
        · intro y hy hyu
          simp only [List.mem_cons, not_or] at hy
          exact hframe y hy.1 hy.2 hyu
        · obtain ⟨l₁, hchain', hset⟩ := hdone herr
          exact ⟨x :: l₁, hchain', hset.of_eq_off hother⟩

/-! ## The name of a head direntry -/

theorem getnameLoop_eq {head : Nat} : ∀ {l : List Nat} {n room : Nat}, Chain cfg (de s) head (de s n).data.extdeno l →
    l.length < room → getnameLoop cfg s room n = .ok (((n :: l).map fun y => (de s y).data.name.toList).flatten)
  | [], n, room + 1, h, _ => by
    have hext : (de s n).data.extdeno = 0 := h
    rw [getnameLoop, if_pos hext]
    simp
  | y :: l, n, room + 1, ⟨hy, h0, ⟨hv, _⟩, hrest⟩, hlen => by
    have hne : (de s n).data.extdeno ≠ 0 := hy ▸ h0
    have hver : verify (cfg.Valid (.direntry, y)) = .ok () := verify_eq_ok.2 hv
    rw [getnameLoop, if_neg hne, hy, hver, getnameLoop_eq hrest (by simpa using hlen)]
    simp only [List.map_cons, List.flatten_cons]
    rfl

/-- After a call that returns 0: a chain `l'` of the length the name needs, from which it is read; what is left
of the old chain is free, what is new was free, and all others are as before. -/
structure NameSet (cfg : Config) (s s' : Mount DirentryPhy) (n : Nat) (l : List Nat) (name : Name) : Prop where
  getname : direntryGetname cfg s' n = .ok name
  ino : (de s' n).data.ino = (de s n).data.ino ∧ (de s' n).data.dirino = (de s n).data.dirino
  chain : ∃ l', Chain cfg (de s') n (de s' n).data.extdeno l' ∧ l'.length = name.length / densize ∧
    (∀ y ∈ l, y ∉ l' → (de s' y).used = false ∧ (de s' y).data = .clear) ∧
    (∀ y ∈ l', y ∉ l → (de s y).used = false) ∧ ∀ y, y ≠ n → y ∉ l → y ∉ l' → de s' y = de s y
  allocator : AllocatorOk cfg s'

/-- After an error and the rollback: every direntry, so every name, and the free direntries are as they were when
the transaction began. -/
structure RolledBack (cfg : Config) (s s' : Mount DirentryPhy) : Prop where
  objs : (s'.txRollback cfg).getMo = s.objs
  getname : ∀ n, direntryGetname cfg (s'.txRollback cfg) n = direntryGetname cfg { s with tx := none } n
  anode : ∀ tx, s.tx = some tx → ∀ t, ((s'.txRollback cfg).anode t).SameFree (cfg.shape t) (tx.before.anode t)
  allocator : AllocatorOk cfg (s'.txRollback cfg)

theorem Within.rolledBack (h : Within cfg s s') (htx : s.tx.isSome) : RolledBack cfg s s' := by
  obtain ⟨tx, heq⟩ := Option.isSome_iff_exists.1 htx
  obtain ⟨tx', heq', hbefore⟩ := h.tx tx heq
  have hobjs : (s'.txRollback cfg).getMo = s.objs := (h.ok.getMo_txRollback heq').trans h.objs
  refine ⟨hobjs, fun n => ?_, fun tx₀ heq₀ t => ?_, h.ok.txRollback.allocatorOk⟩
  · have hde : de (s'.txRollback cfg) = de { s with tx := none } := by
      funext y
      rw [de, hobjs]
      rfl
    have hloop : ∀ room n, getnameLoop cfg (s'.txRollback cfg) room n = getnameLoop cfg { s with tx := none } room n := by
      intro room
      induction room with
      | zero => exact fun _ => rfl
      | succ room ih =>
        intro n
        rw [getnameLoop, getnameLoop, hde]
        simp only [ih]
    rw [direntryGetname, direntryGetname, hloop]
  · cases heq.symm.trans heq₀
    rw [← hbefore]
    exact (h.ok.allocatorOk.rollback tx' heq').2 t

/-- What a call that returns 0 leaves: the chain `l'` in place of `l` behind the head. -/
structure HeadSet (cfg : Config) (s s' : Mount DirentryPhy) (n : Nat) (l l' : List Nat) (name : Name) : Prop where
  within : Within cfg s s'
  used : (de s' n).used = (de s n).used
  ino : (de s' n).data.ino = (de s n).data.ino
  dirino : (de s' n).data.dirino = (de s n).data.dirino
  chain : Chain cfg (de s') n (de s' n).data.extdeno l'
  set : ExtSet cfg (de s) (de s') (n :: l) (n :: l') (some name)

theorem HeadSet.length_eq {l l' : List Nat} {name : Name} (h : HeadSet cfg s s' n l l' name) :
    l'.length = name.length / densize := by
  have := h.set.length_eq
  rw [rests_some, List.length_map, List.length_cons, List.length_cons, length_rests_forward] at this
  omega

theorem HeadSet.nameSet {l l' : List Nat} {x : Nat} {name : Name} (h : HeadSet cfg s s' n l l' name)
    (hchain : Chain cfg (de s) n x l) (hd : (de s n).data.dirino ≠ none) (hlen : name.length < 256) (hnul : 0 ∉ name) :
    NameSet cfg s s' n l name := by
  have hnl : n ∉ l := fun hmem => hd (hchain.mem n hmem).2.2.2.2
  have hnl' : n ∉ l' := fun hmem => hd (h.dirino ▸ (h.chain.mem n hmem).2.2.2.2)
  refine ⟨?_, ⟨h.ino, h.dirino⟩, ⟨l', h.chain, h.length_eq, fun y hy hy' => ?_, fun y hy hy' => ?_,
    fun y hyn hy hy' => h.set.other y (by simp [hyn, hy]) (by simp [hyn, hy'])⟩, h.within.ok.allocatorOk⟩
  · have hmap := congrArg (List.map Vector.toList) h.set.pieces
    rw [List.map_map, List.map_map] at hmap
    rw [direntryGetname, getnameLoop_eq h.chain (by rw [h.length_eq, densize]; omega)]
    exact congrArg Except.ok ((congrArg (fun l => cstring l.flatten) hmap).trans (cstring_rests hnul))
  · have hyn : y ≠ n := fun heq => hnl (heq ▸ hy)
    exact h.set.freed y (List.mem_cons_of_mem n hy) (by simp [hyn, hy'])
  · have hyn : y ≠ n := fun heq => hnl' (heq ▸ hy)
    exact (h.set.fresh y (List.mem_cons_of_mem n hy) (by simp [hyn, hy'])).2

variable (extname) in
theorem direntrySetname_ret (hok : s.Ok cfg) (htx : s.tx.isSome) (hfree : FreeClear (de s)) (h0 : (de s 0).used = true)
    {l : List Nat} {name : Name} (hv : cfg.Valid (.direntry, n)) (hu : (de s n).used = true)
    (hd : (de s n).data.dirino ≠ none) (hchain : Chain cfg (de s) n (de s n).data.extdeno l)
    (hext : extname = false → l = [] ∧ name.length < densize) (hdots : name ∉ dots) :
    ∃ s' err, direntrySetname cfg extname s n name = .ok (s', err) ∧ Within cfg s s' ∧
      (err = none → ∃ l', HeadSet cfg s s' n l l' name) := by
  have hnl : n ∉ l := fun hmem => hd (hchain.mem n hmem).2.2.2.2
  obtain ⟨s₁, hs₁, hw₁, htx₁, hfree₁, hchain₁, hself, hother⟩ := put_name hok htx hv hfree hu name hchain hnl
  have h0₁ : (de s₁ 0).used = true := by
    by_cases hn : n = 0
    · subst hn
      rw [hself]
      exact hu
    · rw [hother 0 (Ne.symm hn), h0]
  obtain ⟨r, hr, hret⟩ := direntrySetnameExt_ret extname (cfg.bound .direntry + name.length + 2)
    (extnameForward name) hw₁.ok htx₁ hfree₁ h0₁ hchain₁
    (fun he => ⟨(hext he).1, if_pos (hext he).2⟩) (by
      have := length_le_of_chain hchain
      have := Nat.div_le_self name.length densize
      have := length_rests_forward name
      omega)
  obtain ⟨hw₂, hde₂⟩ := put_spec hret.within.ok (hret.within.isSome htx₁) hv { (de r.mnt n).data with extdeno := r.extdeno }
  have hw := (hw₁.trans hret.within).trans hw₂
  refine ⟨put r.mnt n { (de r.mnt n).data with extdeno := r.extdeno }, r.err, ?_, hw, fun herr => ?_⟩
  · have hisExt : (de s n).data.isExt = false := by simp [DirentryPhy.isExt, Option.isSome_iff_ne_none.2 hd]
    have hver : verify (name ∉ dots) = .ok () := verify_eq_ok.2 hdots
    rw [direntrySetname]
    simp only [hisExt, Bool.false_eq_true, if_false]
    rw [hver, hs₁]
    simp only [bind, Except.bind]
    rw [hr]
    rfl
  · obtain ⟨l', hchain', hset⟩ := hret.done herr
    have hbusy : ¬ (cfg.Valid (.direntry, n) ∧ (de s₁ n).used = false) := by simp [hself, hu]
    have hnl' := hset.notMem hnl hbusy
    generalize put r.mnt n { (de r.mnt n).data with extdeno := r.extdeno } = s' at hw hde₂
    have hself' : de s' n = { de s n with data := { (de s n).data with name := strncpy name, extdeno := r.extdeno } } := by
      rw [hde₂, update_self, hset.other n hnl hnl', hself]
    have hother' : ∀ y, y ≠ n → de s' y = de r.mnt y := fun y hy => by rw [hde₂, update_of_ne hy]
    refine ⟨l', hw, by rw [hself'], by rw [hself'], by rw [hself'], ?_, ?_⟩
    · rw [hself']
      exact hchain'.congr fun y hy => hother' y fun heq => hnl' (heq ▸ hy)
    · rw [ExtSet, rests_some]
      exact (hset.cons hnl hbusy hother' (by rw [hself'])).of_eq_off hother

/-! ## Names as strings -/

/-- A direntry with the string in its `de_name`. -/
def view (mo : MetaObj DirentryPhy) : Direntry :=
  ⟨mo.used, mo.data.ino, mo.data.dirino, cstring mo.data.name.toList, mo.data.extdeno⟩

theorem view_clear {mo : MetaObj DirentryPhy} (h : mo.used = false ∧ mo.data = .clear) : view mo = .free := by
  have hname : cstring (strncpy []).toList = [] := cstring_strncpy List.not_mem_nil
  simp only [view, h.1, h.2, DirentryPhy.clear, hname, Direntry.free]

theorem freeClear_view {f : Nat → MetaObj DirentryPhy} (h : FreeClear f) : Dir.FreeClear fun y => view (f y) :=
  fun y hy => view_clear ⟨hy, h y hy⟩

theorem notMem_rests {name nm : Name} (hnul : 0 ∉ name) (h : nm ∈ rests (some name)) : 0 ∉ nm := by
  obtain ⟨i, -, rfl⟩ := List.mem_map.1 h
  exact fun hmem => hnul (List.mem_of_mem_drop hmem)

/-- What a call that returns 0 leaves is, in strings, what `Dir.direntrySetname` leaves. -/
theorem HeadSet.refines {g : Geometry} {l l' : List Nat} {x : Nat} {name : Name} (h : HeadSet cfg s s' n l l' name)
    (hg : ∀ y, cfg.Valid (.direntry, y) → y ∈ g.denos) (hfree : FreeClear (de s)) (hchain : Chain cfg (de s) n x l)
    (hu : (de s n).used = true) (hlen : name.length < 256) (hnul : 0 ∉ name) :
    Dir.NameSet g (fun y => view (de s y)) (fun y => view (de s' y)) n name := by
  have hext : ∀ {f : Nat → MetaObj DirentryPhy} {x : Nat} {l : List Nat}, Chain cfg f n x l →
      ExtChain (fun y => view (f y)) n x l := fun hc => hc.map view (fun _ _ hp => hp.2) fun _ => rfl
  have hset : Dir.ExtSet g (fun y => view (de s y)) (fun y => view (de s' y)) (n :: l) (n :: l') (some name) := by
    have hmap : (rests (some name)).map (·.take densize) =
        ((rests (some name)).map strncpy).map fun c => cstring c.toList := by
      rw [List.map_map]
      refine List.map_congr_left fun nm hnm => ?_
      rw [Function.comp_apply, cstring_strncpy (notMem_rests hnul hnm)]
    rw [Dir.ExtSet, hmap]
    exact h.set.map view (fun y mo hf => ⟨hf.2, hg y hf.1⟩) (fun _ => view_clear) fun _ => rfl
  exact hset.nameSet (hext hchain) (hext h.chain) (freeClear_view hfree) (fun y hy => hg y (hchain.mem y hy).2.1)
    (h.used.trans hu) h.ino h.dirino hlen

/-- `PFS_MAX_NAMELEN` or `PFS_MAX_NAMELEN_OLD`, with the NUL. -/
def maxnamelen (extname : Bool) : Nat := if extname then 256 else 64

/-- For every head direntry with its chain and every new name: a call returns, with 0 and the name set, or with an
error, and then the rollback takes everything back. -/
theorem direntry_setname_round_trip (hok : s.Ok cfg) (htx : s.tx.isSome) (hfree : FreeClear (de s))
    (h0 : (de s 0).used = true) {n d : Nat} {l : List Nat} {name : Name} (hv : cfg.Valid (.direntry, n))
    (hu : (de s n).used = true) (hd : (de s n).data.dirino = some d)
    (hchain : Chain cfg (de s) n (de s n).data.extdeno l) (hold : extname = false → l = [])
    (hlen : name.length < maxnamelen extname) (hnul : 0 ∉ name) (hdots : name ∉ dots) :
    ∃ s' err, direntrySetname cfg extname s n name = .ok (s', err) ∧
      (err = none → NameSet cfg s s' n l name) ∧ (err ≠ none → RolledBack cfg s s') := by
  have hlen' : name.length < 256 ∧ (extname = false → name.length < densize) := by
    unfold maxnamelen at hlen
    cases extname with
    | true => exact ⟨hlen, nofun⟩
    | false => exact ⟨lt_trans hlen (by decide), fun _ => hlen⟩
  have hd' : (de s n).data.dirino ≠ none := by simp [hd]
  obtain ⟨s', err, hcall, hw, hset⟩ := direntrySetname_ret extname hok htx hfree h0 hv hu hd' hchain
    (fun he => ⟨hold he, hlen'.2 he⟩) hdots
  refine ⟨s', err, hcall, fun herr => ?_, fun _ => hw.rolledBack htx⟩
  obtain ⟨l', hhead⟩ := hset herr
  exact hhead.nameSet hchain hd' hlen'.1 hnul

/-- One chunk of four objects a type. -/
def fourConfig : Config where
  nchunk := 1
  shape _ := ⟨4, 2, by decide, by decide, by decide⟩
  holelen := 0
  discardNinp := 1

/-- The root's direntry 0, a file's direntry 1 with an extension 2, and one free direntry. -/
def fourObjs (k : Key) : MetaObj DirentryPhy :=
  if k = (.direntry, 0) then ⟨true, ⟨.none, 0, 0, 0⟩, ⟨some 0, some 0, strncpy [], 0⟩⟩
  else if k = (.direntry, 1) then ⟨true, ⟨.none, 0, 0, 0⟩, ⟨some 3, some 0, strncpy (List.replicate 64 97), 2⟩⟩
  else if k = (.direntry, 2) then ⟨true, ⟨.none, 0, 0, 0⟩, ⟨some 1, none, strncpy [98], 0⟩⟩
  else ⟨false, ⟨.none, 0, 0, 0⟩, .clear⟩

/-- A transaction on the four direntries. -/
def fourMount : Mount DirentryPhy := (Mount.mount fourConfig fourObjs).txBegin .file

theorem fourMount_ok : fourMount.Ok fourConfig := by
  refine (Mount.mount_ok fun k => ?_).txBegin rfl .file
  intro ht
  have hobj : fourObjs k = ⟨false, ⟨.none, 0, 0, 0⟩, .clear⟩ := by
    obtain ⟨t, n⟩ := k
    cases ht
    rfl
  rw [hobj]
  exact ⟨nofun, nofun, nofun, fun _ => ⟨rfl, rfl⟩⟩

theorem de_fourMount (n : Nat) : de fourMount n = fourObjs (.direntry, n) :=
  congrFun (Mount.getMo_txBegin (s := Mount.mount fourConfig fourObjs) rfl .file) (.direntry, n)

theorem fourMount_freeClear : FreeClear (de fourMount) := by
  intro n hn
  rw [de_fourMount] at hn ⊢
  unfold fourObjs at hn ⊢
  split at hn
  · cases hn
  split at hn
  · cases hn
  split at hn
  · cases hn
  rename_i h0 h1 h2
  rw [if_neg h0, if_neg h1, if_neg h2]

theorem fourMount_chain : Chain fourConfig (de fourMount) 1 (de fourMount 1).data.extdeno [2] := by
  rw [de_fourMount]
  refine ⟨rfl, by decide, ⟨by decide, ?_, ?_, ?_⟩, ?_⟩ <;> rw [de_fourMount] <;> rfl

/-- The name of direntry 1 becomes one of 130 bytes, which takes the free direntry, and one of 200, for which there
are too few. -/
theorem direntry_setname_round_trip_long :
    (∃ s', direntrySetname fourConfig true fourMount 1 (List.replicate 130 99) = .ok (s', none) ∧
      NameSet fourConfig fourMount s' 1 [2] (List.replicate 130 99)) ∧
    ∃ s', direntrySetname fourConfig true fourMount 1 (List.replicate 200 99) = .ok (s', some .efile2many) ∧
      RolledBack fourConfig fourMount s' := by
  have h (k : Nat) (hk : k < 256) (hdots : List.replicate k 99 ∉ dots) :=
    direntry_setname_round_trip (d := 0) fourMount_ok rfl fourMount_freeClear (by rw [de_fourMount]; rfl) (by decide)
      (by rw [de_fourMount]; rfl) (by rw [de_fourMount]; rfl) fourMount_chain
      (show true = false → [2] = [] from nofun)
      (by rwa [List.length_replicate]) (fun h => absurd (List.eq_of_mem_replicate h) (by decide)) hdots
  -- the error that each call returns
  have herr : ∀ {k : Nat} {r : Option Errno} {s' : Mount DirentryPhy} {err : Option Errno},
      (direntrySetname fourConfig true fourMount 1 (List.replicate k 99)).toOption.map Prod.snd = some r →
      direntrySetname fourConfig true fourMount 1 (List.replicate k 99) = .ok (s', err) → err = r := by
    intro k r s' err hr hcall
    rw [hcall] at hr
    exact Option.some.inj hr
  obtain ⟨s₁, err₁, hcall₁, hset, -⟩ := h 130 (by decide) (by decide +kernel)
  obtain rfl := herr (r := none) (by decide +kernel) hcall₁
  obtain ⟨s₂, err₂, hcall₂, -, hback⟩ := h 200 (by decide) (by decide +kernel)
  obtain rfl := herr (r := some .efile2many) (by decide +kernel) hcall₂
  exact ⟨⟨s₁, hcall₁, hset rfl⟩, s₂, hcall₂, hback (by decide)⟩

end PolarFs.Dir.Phy
