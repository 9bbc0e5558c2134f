/-
Directory entries and their names (`pfs_dir.cc`). A direntry holds 64 bytes of name; the rest of a longer
name is in extension direntries, a chain that starts at `de_extdeno` and whose members name the head
direntry in place of the inode. A change of the name extends, overwrites or cuts the chain.

A byte string stands for a name up to its NUL. `INVALID_INO` is `none` and `INVALID_EXTDENO` is 0.
-/
import PolarFs.Lib.RecordChain
import PolarFs.Meta.Orphans

namespace PolarFs.Dir

open RecordChain
open Function (update update_self update_of_ne update_idem forall_update_iff)

abbrev Name := List UInt8

instance : LawfulBEq Name := inferInstance

/-- `pfs_direntry_phy_t` with `mo_used`. -/
structure Direntry where
  used : Bool
  ino : Option Nat
  dirino : Option Nat
  name : Name
  extdeno : Nat
  deriving DecidableEq, Repr

/-- What `mkfs` and `pfs_direntry_fini` leave. -/
def Direntry.free : Direntry := ⟨false, none, none, [], 0⟩

/-- `DE_ISEXT`. -/
def Direntry.isExt (d : Direntry) : Bool := d.ino.isSome && d.dirino.isNone

inductive Errno where
  | enoent
  | enotdir
  | eisdir
  | enotempty
  | einval
  | ebusy
  | eagain
  | enametoolong
  | eexist
  | efile2many
  deriving DecidableEq, Repr

/-- Why a call gives no new state: an error, an assertion that fails, or a loop that has not ended yet. -/
inductive Fail where
  | errno (e : Errno)
  | verify
  | fuel
  deriving DecidableEq, Repr

/-- `PFS_ASSERT`, `PFS_VERIFY`. -/
def verify (c : Prop) [Decidable c] : Except Fail Unit := if c then .ok () else .error .verify

/-- The error `e` unless `c`. -/
def ensure (c : Prop) [Decidable c] (e : Errno) : Except Fail Unit := if c then .ok () else .error (.errno e)

/-- The object numbers of a device, of which each object takes 128 bytes, and whether the version on it
knows extension direntries. -/
structure Geometry where
  inos : Finset Nat
  denos : Finset Nat
  extname : Bool
  reserved : ∀ n < 3, n ∈ inos ∧ n ∈ denos
  fits : 128 * denos.card < 2 ^ 64

/-- `PFS_MAX_NAMELEN` or `PFS_MAX_NAMELEN_OLD`, with the NUL. -/
def Geometry.maxnamelen (g : Geometry) : Nat := if g.extname then 256 else 64

/-- `sizeof(de->de_name)`. -/
def densize : Nat := 64

/-- The direntries the allocator finds; `none` when there is no free one. -/
abbrev DenoAlloc := (Nat → Direntry) → Option Nat

/-- `pfs_meta_alloc_direntry`. -/
def metaAllocDirentry (g : Geometry) (al : DenoAlloc) (de : Nat → Direntry) : Except Fail ((Nat → Direntry) × Nat) :=
  match (al de).filter fun e => decide (e ∈ g.denos) && !(de e).used with
  | some e => .ok (update de e { de e with used := true }, e)
  | none => .error (.errno .efile2many)

/-- `pfs_meta_free_direntry`. -/
def metaFreeDirentry (de : Nat → Direntry) (e : Nat) : Nat → Direntry :=
  update de e { de e with used := false }

/-! ## Names -/

/-- `extname_forward`. -/
def extnameForward (name : Name) : Option Name := if name.length + 1 ≤ densize then none else some (name.drop densize)

/-- The loop of `pfs_direntry_getname`, which asserts that the buffer has room for one more component. -/
def getnameLoop (de : Nat → Direntry) : Nat → Nat → Option Name
  | 0, _ => none
  | room + 1, e =>
    if (de e).extdeno = 0 then some (de e).name
    else (getnameLoop de room (de e).extdeno).map ((de e).name ++ ·)

/-- `pfs_direntry_getname`: the buffer of `PFS_MAX_NAMELEN` holds four components. -/
def direntryGetname (de : Nat → Direntry) (e : Nat) : Option Name := getnameLoop de 4 e

/-- `strncpy` into `de_name`. -/
def copyName (de : Nat → Direntry) (e : Nat) (name : Name) : Nat → Direntry :=
  update de e { de e with name := name.take densize }

/-- `pfs_direntry_init` up to the name. -/
def initFields (de : Nat → Direntry) (e : Nat) (dirino : Option Nat) (ino : Nat) : Except Fail (Nat → Direntry) := do
  verify ((de e).name = [] ∧ (de e).ino = none ∧ (de e).dirino = none ∧ (de e).extdeno = 0)
  return update de e { de e with ino := some ino, dirino := dirino }

/-- `pfs_direntry_fini` once the name is gone. -/
def clearFields (de : Nat → Direntry) (e : Nat) : Except Fail (Nat → Direntry) := do
  verify ((de e).name = [] ∧ (de e).extdeno = 0)
  return update de e { de e with ino := none, dirino := none }

/-- The result of a call that stores an extension through `&de->de_extdeno`. -/
def setExtdeno (r : (Nat → Direntry) × Nat) (e : Nat) : Nat → Direntry :=
  update r.1 e { r.1 e with extdeno := r.2 }

/-- `pfs_direntry_setname_ext`. -/
def direntrySetnameExt (g : Geometry) (al : DenoAlloc) :
    Nat → (Nat → Direntry) → Nat → Nat → Option Name → Except Fail ((Nat → Direntry) × Nat)
  | 0, _, _, _, _ => .error .fuel
  | fuel + 1, de, deno, headdeno, newname =>
    match newname with
    | none =>
      -- the name fits in the chain so far
      if deno = 0 then .ok (de, 0)
      -- the rest of the chain is redundant
      else do
        verify (g.extname = true)
        verify ((de deno).isExt = true ∧ (de deno).ino = some headdeno)
        let r ← direntrySetnameExt g al fuel de (de deno).extdeno headdeno none
        let de₁ ← clearFields (copyName (setExtdeno r deno) deno []) deno
        return (metaFreeDirentry de₁ deno, 0)
    | some name =>
      -- one more extension
      if deno = 0 then do
        verify (g.extname = true)
        let (de₁, e) ← metaAllocDirentry g al de
        let de₂ ← initFields de₁ e none headdeno
        let r ← direntrySetnameExt g al fuel (copyName de₂ e name) 0 headdeno (extnameForward name)
        return (setExtdeno r e, e)
      -- a component of the new name
      else do
        verify (g.extname = true)
        verify ((de deno).isExt = true ∧ (de deno).ino = some headdeno)
        let r ← direntrySetnameExt g al fuel (copyName de deno name) (de deno).extdeno headdeno (extnameForward name)
        return (setExtdeno r deno, deno)

/-- The names `.` and `..`. -/
def dots : List Name := [[46], [46, 46]]

/-- `pfs_direntry_setname`. -/
def direntrySetname (g : Geometry) (al : DenoAlloc) (de : Nat → Direntry) (e : Nat) (newname : Name) :
    Except Fail (Nat → Direntry) :=
  if (de e).isExt then do
    verify (g.extname = true)
    return copyName de e newname
  else do
    verify (newname ∉ dots)
    let r ← direntrySetnameExt g al (g.denos.card + newname.length + 1) (copyName de e newname) (de e).extdeno e
      (extnameForward newname)
    return setExtdeno r e

/-- `pfs_direntry_init`. -/
def direntryInit (g : Geometry) (al : DenoAlloc) (de : Nat → Direntry) (e : Nat) (dirino : Option Nat) (ino : Nat)
    (name : Name) : Except Fail (Nat → Direntry) := do
  let de₁ ← initFields de e dirino ino
  direntrySetname g al de₁ e name

/-- `pfs_direntry_fini`. -/
def direntryFini (g : Geometry) (al : DenoAlloc) (de : Nat → Direntry) (e : Nat) : Except Fail (Nat → Direntry) := do
  let de₁ ← direntrySetname g al de e []
  clearFields de₁ e

/-! ## Inversion of the calls -/

theorem bind_eq_ok {ε α β : Type} {x : Except ε α} {f : α → Except ε β} {b : β} :
    (x >>= f) = .ok b ↔ ∃ a, x = .ok a ∧ f a = .ok b := by
  cases x with
  | error e => simp [bind, Except.bind]
  | ok a => simp [bind, Except.bind]

@[simp] theorem verify_eq_ok {c : Prop} [Decidable c] {u : Unit} : verify c = .ok u ↔ c := by
  by_cases hc : c <;> simp [verify, hc]

@[simp] theorem ensure_eq_ok {c : Prop} [Decidable c] {e : Errno} {u : Unit} : ensure c e = .ok u ↔ c := by
  by_cases hc : c <;> simp [ensure, hc]

@[simp] theorem pure_eq_ok {ε α : Type} {a b : α} : (pure a : Except ε α) = .ok b ↔ a = b := by
  simp [pure, Except.pure]

variable {de de' : Nat → Direntry} {e : Nat} {g : Geometry} {name : Name}

theorem metaAllocDirentry_eq_ok {al : DenoAlloc} (h : metaAllocDirentry g al de = .ok (de', e)) :
    e ∈ g.denos ∧ (de e).used = false ∧ de' = update de e { de e with used := true } := by
  unfold metaAllocDirentry at h
  split at h
  case h_1 e he =>
    cases h
    obtain ⟨-, he⟩ := Option.filter_eq_some_iff.1 he
    simpa using he
  case h_2 => cases h

theorem initFields_eq_ok {ino : Nat} {dirino : Option Nat} (h : initFields de e dirino ino = .ok de') :
    (de e).extdeno = 0 ∧ de' = update de e { de e with ino := some ino, dirino := dirino } := by
  simp only [initFields, bind_eq_ok, verify_eq_ok, pure_eq_ok] at h
  obtain ⟨-, ⟨-, -, -, hext⟩, rfl⟩ := h
  exact ⟨hext, rfl⟩

theorem clearFields_eq_ok (h : clearFields de e = .ok de') :
    (de e).name = [] ∧ (de e).extdeno = 0 ∧ de' = update de e { de e with ino := none, dirino := none } := by
  simp only [clearFields, bind_eq_ok, verify_eq_ok, pure_eq_ok] at h
  obtain ⟨-, ⟨hname, hext⟩, rfl⟩ := h
  exact ⟨hname, hext, rfl⟩

/-! ## Chains of extensions -/

/-- What is left of a name at each of the direntries that hold it. -/
def rests : Option Name → List Name
  | none => []
  | some name => (List.range (name.length / densize + 1)).map fun i => name.drop (densize * i)

theorem rests_some (name : Name) : rests (some name) = name :: rests (extnameForward name) := by
  unfold extnameForward
  split
  case isTrue h =>
    have hdiv : name.length / densize = 0 := Nat.div_eq_of_lt (by omega)
    simp [rests, hdiv]
  case isFalse h =>
    have hdiv : name.length / densize + 1 = (name.drop densize).length / densize + 1 + 1 := by
      rw [List.length_drop]
      unfold densize at h ⊢
      omega
    simp only [rests]
    rw [hdiv, List.range_succ_eq_map, List.map_cons, List.map_map]
    simp only [Nat.mul_zero, List.drop_zero, List.cons.injEq, true_and]
    refine List.map_congr_left fun i _ => ?_
    simp only [Function.comp_apply, List.drop_drop]
    congr 1
    rw [Nat.mul_succ, Nat.add_comm]

theorem length_rests_forward (name : Name) : (rests (extnameForward name)).length = name.length / densize := by
  have hlen := congrArg List.length (rests_some name)
  rw [List.length_cons] at hlen
  have hall : (rests (some name)).length = name.length / densize + 1 := by simp [rests]
  omega

theorem flatten_rests (name : Name) : ((rests (some name)).map (·.take densize)).flatten = name := by
  induction hlen : name.length using Nat.strong_induction_on generalizing name with
  | _ n ih =>
    rw [rests_some, List.map_cons, List.flatten_cons]
    unfold extnameForward
    split
    case isTrue h => simp [rests, List.take_of_length_le (show name.length ≤ densize by omega)]
    case isFalse h =>
      rw [ih (name.drop densize).length (by rw [List.length_drop, densize]; unfold densize at h; omega) _ rfl,
        List.take_append_drop]

/-- `l` is the chain of extensions of `head` that starts at `x`. -/
abbrev ExtChain (de : Nat → Direntry) (head : Nat) : Nat → List Nat → Prop :=
  Chain (fun _ d => d.used = true ∧ d.ino = some head ∧ d.dirino = none) Direntry.extdeno de

/-- What a change of the chain of `head` leaves: the chain `l'` in place of `l`. -/
abbrev ExtSet (g : Geometry) (de de' : Nat → Direntry) (l l' : List Nat) (newname : Option Name) : Prop :=
  Rechained (fun y d => d.used = false ∧ y ∈ g.denos) (· = .free) Direntry.name de de' l l'
    ((rests newname).map (·.take densize))

/-- The bytes of name in a chain. -/
def chainName (de : Nat → Direntry) (l : List Nat) : Name := (l.map fun y => (de y).name).flatten

theorem chainName_congr {l : List Nat} (h : ∀ y ∈ l, de' y = de y) : chainName de' l = chainName de l := by
  unfold chainName
  rw [List.map_congr_left fun y hy => by rw [h y hy]]

theorem getnameLoop_eq {de : Nat → Direntry} {head : Nat} : ∀ {l : List Nat} {e room : Nat},
    ExtChain de head (de e).extdeno l → l.length < room → getnameLoop de room e = some ((de e).name ++ chainName de l)
  | [], e, room + 1, h, _ => by
    have hext : (de e).extdeno = 0 := h
    rw [getnameLoop, if_pos hext]
    simp [chainName]
  | y :: l, e, room + 1, ⟨hy, h0, _, hrest⟩, hlen => by
    have hne : (de e).extdeno ≠ 0 := hy ▸ h0
    rw [getnameLoop, if_neg hne, hy, getnameLoop_eq hrest (by simpa using hlen)]
    simp [chainName]

/-- A free direntry is clear. -/
def FreeClear (de : Nat → Direntry) : Prop := ∀ e, (de e).used = false → de e = .free

theorem FreeClear.update (h : FreeClear de) {d : Direntry} (hd : d.used = false → d = .free) :
    FreeClear (update de e d) :=
  (forall_update_iff de fun _ d => d.used = false → d = .free).2 ⟨hd, fun y _ => h y⟩

theorem setExtdeno_of_ne {r : (Nat → Direntry) × Nat} {y : Nat} (h : y ≠ e) : setExtdeno r e y = r.1 y :=
  update_of_ne h ..

theorem setExtdeno_self (r : (Nat → Direntry) × Nat) (e : Nat) : setExtdeno r e e = { r.1 e with extdeno := r.2 } :=
  update_self ..

theorem copyName_of_ne {y : Nat} (h : y ≠ e) : copyName de e name y = de y :=
  update_of_ne h ..

theorem copyName_self (de : Nat → Direntry) (e : Nat) (name : Name) :
    copyName de e name e = { de e with name := name.take densize } :=
  update_self ..

theorem direntrySetnameExt_spec {g : Geometry} {al : DenoAlloc} : ∀ {fuel : Nat} {de : Nat → Direntry} {x head : Nat}
    {name : Option Name} {r : (Nat → Direntry) × Nat} {l : List Nat},
    direntrySetnameExt g al fuel de x head name = .ok r → FreeClear de →
    (de 0).used = true → ExtChain de head x l → ∃ l', ExtChain r.1 head r.2 l' ∧ ExtSet g de r.1 l l' name
  | 0, _, _, _, _, _, _, h, _, _, _ => by cases h
  | fuel + 1, de, x, head, none, r, l, h, hfree, h0, hchain => by
    rw [direntrySetnameExt] at h
    by_cases hx : x = 0
    · obtain rfl := hchain.nil_iff.1 hx
      rw [if_pos hx] at h
      cases h
      exact ⟨[], rfl, .nil ..⟩
    · cases l with
      | nil => exact absurd hchain hx
      | cons y l₀ =>
        obtain ⟨rfl, -, -, hrest⟩ := hchain
        simp only [if_neg hx, bind_eq_ok, verify_eq_ok, pure_eq_ok] at h
        obtain ⟨-, -, -, -, r₁, hr₁, de₁, hclear, rfl⟩ := h
        obtain ⟨l₁, hchain₁, hset⟩ := direntrySetnameExt_spec hr₁ hfree h0 hrest
        obtain rfl : l₁ = [] := List.eq_nil_of_length_eq_zero hset.length_eq
        have hr2 : r₁.2 = 0 := hchain₁
        obtain ⟨-, -, rfl⟩ := clearFields_eq_ok hclear
        refine ⟨[], rfl, hset.cut (e := x) (fun z hz => ?_) ?_⟩
        · simp [metaFreeDirentry, copyName, setExtdeno, hz]
        · simp [metaFreeDirentry, copyName, setExtdeno, Direntry.free, hr2]
  | fuel + 1, de, x, head, some name, r, l, h, hfree, h0, hchain => by
    rw [direntrySetnameExt] at h
    by_cases hx : x = 0
    · obtain rfl := hchain.nil_iff.1 hx
      simp only [if_pos hx, bind_eq_ok, verify_eq_ok, pure_eq_ok] at h
      obtain ⟨-, -, ⟨de₁, e⟩, halloc, de₂, hinit, r₁, hr₁, rfl⟩ := h
      obtain ⟨hmem, hunused, rfl⟩ := metaAllocDirentry_eq_ok halloc
      obtain ⟨-, rfl⟩ := initFields_eq_ok hinit
      dsimp only at hr₁ ⊢
      have he0 : e ≠ 0 := by
        rintro rfl
        rw [h0] at hunused
        cases hunused
      obtain ⟨de₃, hde₃, hr₁⟩ : ∃ de₃, de₃ = update de e ⟨true, some head, none, name.take densize, 0⟩ ∧
          direntrySetnameExt g al fuel de₃ 0 head (extnameForward name) = .ok r₁ := by
        refine ⟨_, ?_, hr₁⟩
        rw [copyName, update_idem, update_idem]
        simp only [update_self, hfree e hunused, Direntry.free]
      have hself : de₃ e = ⟨true, some head, none, name.take densize, 0⟩ := by rw [hde₃, update_self]
      have hother : ∀ y, y ≠ e → de₃ y = de y := fun y hy => by rw [hde₃, update_of_ne hy]
      have hfree₃ : FreeClear de₃ := hde₃ ▸ hfree.update nofun
      have h0₃ : (de₃ 0).used = true := by rw [hother 0 he0.symm, h0]
      obtain ⟨l₁, hchain₁, hset⟩ := direntrySetnameExt_spec (l := []) hr₁ hfree₃ h0₃ rfl
      obtain ⟨hchain', hset'⟩ := hset.cons_chain hchain₁ (e := e) (by simp) he0 (by simp [hself])
        (fun y => setExtdeno_of_ne) fun heq => by
          rw [setExtdeno_self, heq, hself]
          exact ⟨⟨rfl, rfl, rfl⟩, rfl, rfl⟩
      refine ⟨e :: l₁, hchain', ?_⟩
      rw [ExtSet, rests_some]
      exact hset'.grow hother ⟨hunused, hmem⟩
    · cases l with
      | nil => exact absurd hchain hx
      | cons y l₀ =>
        obtain ⟨hyl, -⟩ := List.nodup_cons.1 hchain.nodup
        obtain ⟨rfl, hy0, ⟨hu, hi, hd⟩, hrest⟩ := hchain
        simp only [if_neg hx, bind_eq_ok, verify_eq_ok, pure_eq_ok] at h
        obtain ⟨-, -, -, -, r₁, hr₁, rfl⟩ := h
        have hother : ∀ y, y ≠ x → copyName de x name y = de y := fun y hy => copyName_of_ne hy
        have hself := copyName_self de x name
        have hfree₃ : FreeClear (copyName de x name) := hfree.update fun hx => absurd (hu.symm.trans hx) (by decide)
        have h0₃ : (copyName de x name 0).used = true := by rw [hother 0 hy0.symm, h0]
        have hrest₃ : ExtChain (copyName de x name) head (de x).extdeno l₀ :=
          hrest.congr fun y hy => hother y fun heq => hyl (heq ▸ hy)
        obtain ⟨l₁, hchain₁, hset⟩ := direntrySetnameExt_spec hr₁ hfree₃ h0₃ hrest₃
        obtain ⟨hchain', hset'⟩ := hset.cons_chain hchain₁ hyl hy0 (by simp [hself, hu])
          (fun y => setExtdeno_of_ne) fun heq => by
            rw [setExtdeno_self, heq, hself]
            exact ⟨⟨hu, hi, hd⟩, rfl, rfl⟩
        refine ⟨x :: l₁, hchain', ?_⟩
        rw [ExtSet, rests_some]
        exact hset'.of_eq_off hother

/-! ## The name of a head direntry -/

/-- `name` is the name of the head direntry `e`. -/
def Named (de : Nat → Direntry) (e : Nat) (name : Name) : Prop :=
  ∃ l, ExtChain de e (de e).extdeno l ∧ l.Nodup ∧ l.length ≤ 3 ∧ (de e).name ++ chainName de l = name

theorem Named.getname (h : Named de e name) : direntryGetname de e = some name := by
  obtain ⟨l, hchain, -, hlen, rfl⟩ := h
  exact getnameLoop_eq hchain (by omega)

/-- A direntry that is no head but perhaps an extension of `e`. -/
def Spare (e : Nat) (d : Direntry) : Prop := d = .free ∨ (d.used = true ∧ d.ino = some e ∧ d.dirino = none)

/-- Besides `e`, only extensions of `e` change. -/
def ExtFrame (g : Geometry) (e : Nat) (de de' : Nat → Direntry) : Prop :=
  ∀ y, y ≠ e → de' y = de y ∨ (Spare e (de y) ∧ Spare e (de' y) ∧ ((de' y).used = true → y ∈ g.denos))

/-- A direntry that is free or a head. -/
def NoExt (d : Direntry) : Prop := d.used = true → d.dirino ≠ none

theorem ExtFrame.named {y : Nat} (h : ExtFrame g e de de') (he : NoExt (de e))
    (hye : y ≠ e) (hy : de' y = de y) (hn : Named de y name) : Named de' y name := by
  obtain ⟨l, hchain, hnd, hlen, hname⟩ := hn
  have hl : ∀ z ∈ l, de' z = de z := by
    intro z hz
    obtain ⟨-, hu, hi, hd⟩ := hchain.mem z hz
    have hze : z ≠ e := by
      rintro rfl
      exact he hu hd
    refine (h z hze).resolve_right ?_
    rintro ⟨hfree | ⟨-, hi', -⟩, -⟩
    · rw [hfree] at hu
      cases hu
    · exact hye (Option.some.inj (hi.symm.trans hi'))
  refine ⟨l, ?_, hnd, hlen, ?_⟩
  · rw [hy]
    exact hchain.congr hl
  · rw [hy, chainName_congr hl, hname]

/-- What setting the name of a head direntry leaves. -/
structure NameSet (g : Geometry) (de de' : Nat → Direntry) (e : Nat) (name : Name) : Prop where
  frame : ExtFrame g e de de'
  used : (de' e).used = true
  ino : (de' e).ino = (de e).ino
  dirino : (de' e).dirino = (de e).dirino
  named : Named de' e name

theorem ExtSet.nameSet {l l' : List Nat} {x : Nat} (h : ExtSet g de de' (e :: l) (e :: l') (some name))
    (hchain : ExtChain de e x l) (hchain' : ExtChain de' e (de' e).extdeno l') (hfree : FreeClear de)
    (hdenos : ∀ y ∈ l, y ∈ g.denos) (hu : (de' e).used = true) (hi : (de' e).ino = (de e).ino)
    (hd : (de' e).dirino = (de e).dirino) (hlen : name.length < 256) : NameSet g de de' e name := by
  have hl' : l'.length = name.length / densize := by
    have := h.length_eq
    rw [rests_some, List.length_map, List.length_cons, List.length_cons, length_rests_forward] at this
    omega
  refine ⟨fun y hye => ?_, hu, hi, hd, l', hchain', hchain'.nodup, by rw [hl', densize]; omega, ?_⟩
  · have hcons : ∀ {l : List Nat}, y ∉ l → y ∉ e :: l := fun hy => by simp [hye, hy]
    by_cases hy : y ∈ l <;> by_cases hy' : y ∈ l'
    · exact .inr ⟨.inr (hchain.mem y hy).2, .inr (hchain'.mem y hy').2, fun _ => hdenos y hy⟩
    · exact .inr ⟨.inr (hchain.mem y hy).2, .inl (h.freed y (List.mem_cons_of_mem e hy) (hcons hy')), fun _ => hdenos y hy⟩
    · obtain ⟨hu, hmem⟩ := h.fresh y (List.mem_cons_of_mem e hy') (hcons hy)
      exact .inr ⟨.inl (hfree y hu), .inr (hchain'.mem y hy').2, fun _ => hmem⟩
    · exact .inl (h.other y (hcons hy) (hcons hy'))
  · have hname := congrArg List.flatten h.pieces
    rwa [flatten_rests] at hname

section
variable {g : Geometry} {al : DenoAlloc} {de de' : Nat → Direntry} {e d ino : Nat} {name old : Name}

theorem direntrySetname_spec (h : direntrySetname g al de e name = .ok de') (hfree : FreeClear de)
    (h0 : (de 0).used = true) (hdenos : ∀ y, (de y).used = true → y ∈ g.denos) (hu : (de e).used = true)
    (hd : (de e).dirino = some d) (hold : Named de e old) (hlen : name.length < 256) : NameSet g de de' e name := by
  obtain ⟨l, hchain, -, -, -⟩ := hold
  have hext : (de e).isExt = false := by simp [Direntry.isExt, hd]
  simp only [direntrySetname, hext, Bool.false_eq_true, if_false, bind_eq_ok, verify_eq_ok, pure_eq_ok] at h
  obtain ⟨-, -, r, hr, rfl⟩ := h
  have hel : e ∉ l := fun hmem => by
    have := (hchain.mem e hmem).2.2.2
    rw [hd] at this
    cases this
  have hcopy : ∀ y, y ≠ e → copyName de e name y = de y := fun y hy => copyName_of_ne hy
  have hcopy0 : (copyName de e name 0).used = true := by
    by_cases he : e = 0
    · subst he
      rw [copyName_self]
      exact h0
    · rw [hcopy 0 (Ne.symm he), h0]
  have hcopyFree : FreeClear (copyName de e name) := hfree.update fun he => absurd (hu.symm.trans he) (by decide)
  have hcopyChain : ExtChain (copyName de e name) e (de e).extdeno l :=
    hchain.congr fun y hy => hcopy y fun heq => hel (heq ▸ hy)
  obtain ⟨l', hchain', hset⟩ := direntrySetnameExt_spec hr hcopyFree hcopy0 hcopyChain
  have hbusy : ¬ ((copyName de e name e).used = false ∧ e ∈ g.denos) := by simp [copyName_self, hu]
  have hel' := hset.notMem hel hbusy
  have hself : setExtdeno r e e = { de e with name := name.take densize, extdeno := r.2 } := by
    rw [setExtdeno_self, hset.other e hel hel', copyName_self]
  have hall : ExtSet g de (setExtdeno r e) (e :: l) (e :: l') (some name) := by
    rw [ExtSet, rests_some]
    exact (hset.cons hel hbusy (fun y => setExtdeno_of_ne) (by rw [hself])).of_eq_off hcopy
  have hnewChain : ExtChain (setExtdeno r e) e (setExtdeno r e e).extdeno l' := by
    rw [hself]
    exact hchain'.congr fun y hy => setExtdeno_of_ne fun heq => hel' (heq ▸ hy)
  exact hall.nameSet hchain hnewChain hfree (fun y hy => hdenos y (hchain.mem y hy).2.1) (by rw [hself]; exact hu)
    (by rw [hself]) (by rw [hself]) hlen

theorem direntryInit_spec (h : direntryInit g al de e (some d) ino name = .ok de') (hfree : FreeClear de)
    (h0 : (de 0).used = true) (hdenos : ∀ y, (de y).used = true → y ∈ g.denos) (hu : (de e).used = true)
    (hlen : name.length < 256) : NameSet g (update de e ⟨true, some ino, some d, [], 0⟩) de' e name := by
  simp only [direntryInit, bind_eq_ok] at h
  obtain ⟨de₁, hinit, hset⟩ := h
  simp only [initFields, bind_eq_ok, verify_eq_ok, pure_eq_ok] at hinit
  obtain ⟨-, ⟨hname, -, -, hext⟩, rfl⟩ := hinit
  rw [hname, hext, hu] at hset
  have hold : Named (update de e ⟨true, some ino, some d, [], 0⟩) e [] :=
    ⟨[], by rw [update_self]; rfl, List.nodup_nil, by simp, by simp [chainName]⟩
  refine direntrySetname_spec (d := d) hset (hfree.update nofun) ?_ ?_ ?_ ?_ hold hlen
  · by_cases he : e = 0
    · rw [he, update_self]
    · rw [update_of_ne (Ne.symm he), h0]
  · intro y hy
    by_cases hye : y = e
    · exact hdenos y (hye ▸ hu)
    · rw [update_of_ne hye] at hy
      exact hdenos y hy
  · rw [update_self]
  · rw [update_self]

/-- A head direntry that is taken down: its extensions are free as well. -/
theorem direntryFini_spec (h : direntryFini g al de e = .ok de') (hfree : FreeClear de) (h0 : (de 0).used = true)
    (hdenos : ∀ y, (de y).used = true → y ∈ g.denos) (hu : (de e).used = true) (hd : (de e).dirino = some d)
    (hold : Named de e old) : ExtFrame g e de (metaFreeDirentry de' e) ∧ metaFreeDirentry de' e e = .free := by
  simp only [direntryFini, bind_eq_ok] at h
  obtain ⟨de₁, hset, hclear⟩ := h
  have hspec := direntrySetname_spec hset hfree h0 hdenos hu hd hold (by simp)
  obtain ⟨hname, hext, rfl⟩ := clearFields_eq_ok hclear
  constructor
  · intro y hye
    simp only [metaFreeDirentry, update_of_ne hye]
    exact hspec.frame y hye
  · simp [metaFreeDirentry, hname, hext, Direntry.free]

end

end PolarFs.Dir
