import Mathlib.Data.Int.Notation
import Sfslite.Lib.Run

/-!
The attribute and access cache of `attrcache.C`. What an access reply says about the bits it was
asked for is merged into one pair of words, the bits that are known and the bits that are granted.
-/

namespace Sfslite.Sfsmisc.Attrcache

open Sfslite.Lib (Run)

/-- The attributes of a file as the cache looks at them, and the others that it only hands out. -/
structure Fattr3exp (ρ : Type*) where
  mode : BitVec 32
  uid : BitVec 32
  gid : BitVec 32
  expire : BitVec 32
  rest : ρ

/-- The bits that the replies covered, and what they said. -/
structure AccessDat where
  mask : BitVec 32
  perm : BitVec 32
deriving DecidableEq

/-- What a cache keeps for a file handle. -/
structure AttrDat (φ α ρ : Type*) where
  cache : ℕ
  fh : φ
  attr : Fattr3exp ρ
  access : α → Option AccessDat

/-- The entries of all the caches, the one that was used last at the end. -/
abbrev Lrulist (φ α ρ : Type*) := List (AttrDat φ α ρ)

def maxAttrDat : ℕ := 1024

variable {φ α ρ : Type*} [DecidableEq φ] [DecidableEq α]

namespace Fattr3exp

/-- What an access check of the server depends on. -/
def owner (a : Fattr3exp ρ) : BitVec 32 × BitVec 32 × BitVec 32 := (a.mode, a.uid, a.gid)

end Fattr3exp

namespace AttrDat

/-- The time of day is that of the event loop, which stands still within a call. -/
def valid (ad : AttrDat φ α ρ) (now : ℤ) : Bool := now < (ad.attr.expire.toNat : ℤ)

def set (ad : AttrDat φ α ρ) (a : Fattr3exp ρ) : AttrDat φ α ρ :=
  { ad with
    access := if a.owner ≠ ad.attr.owner then fun _ => none else ad.access
    attr := a }

/-- `qhash::insert`, or a change of the record in place. -/
def setAccess (ad : AttrDat φ α ρ) (aid : α) (ac : Option AccessDat) : AttrDat φ α ρ :=
  { ad with access := Function.update ad.access aid ac }

end AttrDat

/-- The record of a user after a reply with `perm` about the bits of `mask`. -/
def merge (mask perm : BitVec 32) : Option AccessDat → AccessDat
  | none => ⟨mask, perm⟩
  | some ac => ⟨ac.mask ||| mask, (ac.perm &&& ~~~perm) ||| (mask &&& perm)⟩

namespace Lrulist

/-- `attrs[fh]` of a cache. -/
def get (s : Lrulist φ α ρ) (c : ℕ) (fh : φ) : Option (AttrDat φ α ρ) :=
  s.find? fun ad => ad.cache = c ∧ ad.fh = fh

def remove (s : Lrulist φ α ρ) (c : ℕ) (fh : φ) : Lrulist φ α ρ :=
  s.filter fun ad => ¬ (ad.cache = c ∧ ad.fh = fh)

/-- An entry that was changed goes to the end of the list. -/
def touch (s : Lrulist φ α ρ) (ad : AttrDat φ α ρ) : Lrulist φ α ρ :=
  s.remove ad.cache ad.fh ++ [ad]

/-- An entry that was changed stays where it is. -/
def replace (s : Lrulist φ α ρ) (ad : AttrDat φ α ρ) : Lrulist φ α ρ :=
  s.map fun old => if old.cache = ad.cache ∧ old.fh = ad.fh then ad else old

/-- The constructor of `attr_dat`: the entries that were used longest ago are deleted. -/
def create (s : Lrulist φ α ρ) (c : ℕ) (fh : φ) (a : Fattr3exp ρ) : Lrulist φ α ρ :=
  let s' := s ++ [{ cache := c, fh := fh, attr := a, access := fun _ => none }]
  s'.drop (s'.length - maxAttrDat)

/-- `flush_attr`, and the destructor of the cache. -/
def flushAttr (s : Lrulist φ α ρ) (c : ℕ) : Lrulist φ α ρ := s.filter fun ad => ad.cache ≠ c

/-- `flush_access` of a user. -/
def flushAid (s : Lrulist φ α ρ) (c : ℕ) (aid : α) : Lrulist φ α ρ :=
  s.map fun ad => if ad.cache = c then ad.setAccess aid none else ad

/-- `flush_access` of a file handle and a user. -/
def flushAccess (s : Lrulist φ α ρ) (c : ℕ) (fh : φ) (aid : α) : Lrulist φ α ρ :=
  match s.get c fh with
  | some ad => s.replace (ad.setAccess aid none)
  | none => s

def attrEnter (s : Lrulist φ α ρ) (c : ℕ) (fh : φ) (a : Option (Fattr3exp ρ)) : Lrulist φ α ρ :=
  match a, s.get c fh with
  | none, some ad => s.replace { ad with attr := { ad.attr with expire := 0 } }
  | none, none => s
  | some a, none => s.create c fh a
  | some a, some ad => s.touch (ad.set a)

def attrLookup (s : Lrulist φ α ρ) (c : ℕ) (fh : φ) (now : ℤ) :
    Option (Fattr3exp ρ) × Lrulist φ α ρ :=
  match s.get c fh with
  | some ad => if ad.valid now then (some ad.attr, s.touch ad) else (none, s)
  | none => (none, s)

def accessEnter (s : Lrulist φ α ρ) (c : ℕ) (fh : φ) (aid : α) (mask perm : BitVec 32) :
    Lrulist φ α ρ :=
  match s.get c fh with
  | some ad => s.touch (ad.setAccess aid (some (merge mask perm (ad.access aid))))
  | none => s

/-- The answer is an `int32_t`, and `-1` is none. -/
def accessLookup (s : Lrulist φ α ρ) (c : ℕ) (fh : φ) (aid : α) (mask : BitVec 32) (now : ℤ) :
    BitVec 32 × Lrulist φ α ρ :=
  match s.get c fh with
  | some ad =>
    if ad.valid now then
      match ad.access aid with
      | some ac => if mask &&& ac.mask = mask then (ac.perm &&& mask, s.touch ad) else (-1, s)
      | none => (-1, s)
    else (-1, s)
  | none => (-1, s)

end Lrulist

/-- The calls of the caches. -/
inductive Op (φ α ρ : Type*)
  | attrEnter (c : ℕ) (fh : φ) (a : Option (Fattr3exp ρ))
  | attrLookup (c : ℕ) (fh : φ) (now : ℤ)
  | accessEnter (c : ℕ) (fh : φ) (aid : α) (mask perm : BitVec 32)
  | accessLookup (c : ℕ) (fh : φ) (aid : α) (mask : BitVec 32) (now : ℤ)
  | flushAccess (c : ℕ) (fh : φ) (aid : α)
  | flushAid (c : ℕ) (aid : α)
  | flushAttr (c : ℕ)

def step (s : Lrulist φ α ρ) : Op φ α ρ → Lrulist φ α ρ
  | .attrEnter c fh a => s.attrEnter c fh a
  | .attrLookup c fh now => (s.attrLookup c fh now).2
  | .accessEnter c fh aid mask perm => s.accessEnter c fh aid mask perm
  | .accessLookup c fh aid mask now => (s.accessLookup c fh aid mask now).2
  | .flushAccess c fh aid => s.flushAccess c fh aid
  | .flushAid c aid => s.flushAid c aid
  | .flushAttr c => s.flushAttr c

/-- The attributes of a file that were entered last, the newest call in front. -/
def lastAttr (c : ℕ) (fh : φ) : List (Op φ α ρ) → Option (Fattr3exp ρ)
  | [] => none
  | .attrEnter c' fh' (some a) :: h => if c' = c ∧ fh' = fh then some a else lastAttr c fh h
  | _ :: h => lastAttr c fh h

/-- What the latest reply that covered a bit said about it, unless the access was flushed or the
mode or the owner of the file changed since. -/
def answer (c : ℕ) (fh : φ) (aid : α) (i : ℕ) : List (Op φ α ρ) → Option Bool
  | [] => none
  | .attrEnter c' fh' (some a) :: h =>
    if c' = c ∧ fh' = fh ∧ (lastAttr c fh h).any (·.owner ≠ a.owner) then none
    else answer c fh aid i h
  | .accessEnter c' fh' aid' mask perm :: h =>
    if (c' = c ∧ fh' = fh ∧ aid' = aid) ∧ mask.getLsbD i then some (perm.getLsbD i)
    else answer c fh aid i h
  | .flushAccess c' fh' aid' :: h =>
    if c' = c ∧ fh' = fh ∧ aid' = aid then none else answer c fh aid i h
  | .flushAid c' aid' :: h => if c' = c ∧ aid' = aid then none else answer c fh aid i h
  | .flushAttr c' :: h => if c' = c then none else answer c fh aid i h
  | _ :: h => answer c fh aid i h

/-- The reply can be merged into the record: of the bits that are granted there it denies none,
and it has none of them set that it does not cover. -/
def Mergeable (s : Lrulist φ α ρ) : Op φ α ρ → Prop
  | .accessEnter c fh aid mask perm =>
    ∀ ad ∈ s.get c fh, ∀ ac ∈ ad.access aid,
      ac.perm &&& ((mask &&& ~~~perm) ||| (ac.mask &&& ~~~mask &&& perm)) = 0
  | _ => True

instance (s : Lrulist φ α ρ) : (op : Op φ α ρ) → Decidable (Mergeable s op)
  | .accessEnter c fh aid mask perm =>
    inferInstanceAs (Decidable (∀ ad ∈ s.get c fh, ∀ ac ∈ ad.access aid,
      ac.perm &&& ((mask &&& ~~~perm) ||| (ac.mask &&& ~~~mask &&& perm)) = 0))
  | .attrEnter .. | .attrLookup .. | .accessLookup .. | .flushAccess .. | .flushAid ..
  | .flushAttr .. => .isTrue trivial

/-- The merge gives what the reply says about the bits that it covers, and what the record says
about the others, exactly when the reply can be merged. -/
theorem merge_right_iff (mask perm : BitVec 32) (ac : AccessDat) :
    (∀ i, (merge mask perm (some ac)).mask.getLsbD i →
      (merge mask perm (some ac)).perm.getLsbD i =
        if mask.getLsbD i then perm.getLsbD i else ac.perm.getLsbD i) ↔
      ac.perm &&& ((mask &&& ~~~perm) ||| (ac.mask &&& ~~~mask &&& perm)) = 0 := by
  constructor
  · intro h
    apply BitVec.eq_of_getLsbD_eq
    intro i hi
    have hbit := h i
    simp only [merge, BitVec.getLsbD_or, BitVec.getLsbD_and, BitVec.getLsbD_not] at hbit ⊢
    cases hm : mask.getLsbD i <;> cases ha : ac.mask.getLsbD i <;> simp_all
  · intro h i hi
    have hbit := congrArg (·.getLsbD i) h
    have hlt : i < 32 := by
      by_contra hge
      rw [BitVec.getLsbD_of_ge _ _ (by omega)] at hi
      cases hi
    simp only [merge, BitVec.getLsbD_or, BitVec.getLsbD_and, BitVec.getLsbD_not] at hbit hi ⊢
    cases hm : mask.getLsbD i <;> cases ha : ac.mask.getLsbD i <;> simp_all

/-- An entry agrees with what was entered for its file: the attributes are those entered last,
and what is known of a user's access is what the latest replies said. -/
def Right (h : List (Op φ α ρ)) (ad : AttrDat φ α ρ) : Prop :=
  (∃ a, lastAttr ad.cache ad.fh h = some a ∧ a.owner = ad.attr.owner) ∧
    ∀ aid, ∀ ac ∈ ad.access aid, ∀ i, ac.mask.getLsbD i →
      answer ad.cache ad.fh aid i h = some (ac.perm.getLsbD i)

namespace Lrulist

variable {s : Lrulist φ α ρ} {c : ℕ} {fh : φ} {ad x : AttrDat φ α ρ}

omit [DecidableEq α] in
theorem get_mem (h : s.get c fh = some ad) : ad ∈ s ∧ ad.cache = c ∧ ad.fh = fh := by
  have hkey := List.find?_some h
  simp only [decide_eq_true_eq] at hkey
  exact ⟨List.mem_of_find?_eq_some h, hkey⟩

omit [DecidableEq α] in
theorem get_none (h : s.get c fh = none) (hx : x ∈ s) : ¬ (x.cache = c ∧ x.fh = fh) := by
  have hkey := List.find?_eq_none.mp h x hx
  simpa using hkey

omit [DecidableEq α] in
theorem mem_touch (hx : x ∈ s.touch ad) :
    x = ad ∨ (x ∈ s ∧ ¬ (x.cache = ad.cache ∧ x.fh = ad.fh)) := by
  rcases List.mem_append.mp hx with hold | hnew
  · obtain ⟨hmem, hkey⟩ := List.mem_filter.mp hold
    exact .inr ⟨hmem, of_decide_eq_true hkey⟩
  · exact .inl (List.mem_singleton.mp hnew)

omit [DecidableEq α] in
theorem mem_replace (hx : x ∈ s.replace ad) :
    x = ad ∨ (x ∈ s ∧ ¬ (x.cache = ad.cache ∧ x.fh = ad.fh)) := by
  obtain ⟨old, hmem, hold⟩ := List.mem_map.mp hx
  split_ifs at hold with hkey
  · exact .inl hold.symm
  · subst hold
    exact .inr ⟨hmem, hkey⟩

omit [DecidableEq φ] [DecidableEq α] in
theorem mem_create {a : Fattr3exp ρ} (hx : x ∈ s.create c fh a) :
    x = { cache := c, fh := fh, attr := a, access := fun _ => none } ∨ x ∈ s := by
  rcases List.mem_append.mp (List.mem_of_mem_drop hx) with hold | hnew
  · exact .inr hold
  · exact .inl (List.mem_singleton.mp hnew)

end Lrulist

section Step

variable {s : Lrulist φ α ρ} {h : List (Op φ α ρ)} {ad : AttrDat φ α ρ} {c : ℕ} {fh : φ}

theorem Right.frame {op : Op φ α ρ} (hr : Right h ad)
    (hattr : lastAttr ad.cache ad.fh (op :: h) = lastAttr ad.cache ad.fh h)
    (hanswer : ∀ aid i, answer ad.cache ad.fh aid i (op :: h) = answer ad.cache ad.fh aid i h) :
    Right (op :: h) ad := by
  refine ⟨?_, ?_⟩
  · rw [hattr]
    exact hr.1
  · intro aid ac hac i hi
    rw [hanswer]
    exact hr.2 aid ac hac i hi

attribute [local simp] answer lastAttr in
theorem Right.attrEnter_other (hr : Right h ad) (a : Fattr3exp ρ)
    (hne : ¬ (ad.cache = c ∧ ad.fh = fh)) : Right (.attrEnter c fh (some a) :: h) ad := by
  have hne' : ¬ (c = ad.cache ∧ fh = ad.fh) := fun he => hne ⟨he.1.symm, he.2.symm⟩
  refine hr.frame ?_ ?_
  · simp only [lastAttr, if_neg hne']
  · intro aid i
    have hand : ¬ (c = ad.cache ∧ fh = ad.fh ∧
        (lastAttr ad.cache ad.fh h).any (·.owner ≠ a.owner)) := fun he => hne' ⟨he.1, he.2.1⟩
    simp only [answer, if_neg hand]

theorem Right.set (hr : Right h ad) (a : Fattr3exp ρ) :
    Right (.attrEnter ad.cache ad.fh (some a) :: h) (ad.set a) := by
  obtain ⟨⟨b, hb, howner⟩, haccess⟩ := hr
  refine ⟨⟨a, ?_, rfl⟩, ?_⟩
  · simp [lastAttr, AttrDat.set]
  · intro aid ac hac i hi
    have hsame : a.owner = ad.attr.owner := by
      by_contra hne
      simp [AttrDat.set, hne] at hac
    have hold : ac ∈ ad.access aid := by
      simpa [AttrDat.set, hsame] using hac
    simpa [answer, AttrDat.set, hb, howner, hsame] using haccess aid ac hold i hi

theorem Right.accessEnter_other (hr : Right h ad) (aid : α) (mask perm : BitVec 32)
    (hne : ¬ (ad.cache = c ∧ ad.fh = fh)) : Right (.accessEnter c fh aid mask perm :: h) ad := by
  refine hr.frame rfl ?_
  intro aid' i
  have hand : ¬ ((c = ad.cache ∧ fh = ad.fh ∧ aid = aid') ∧ mask.getLsbD i) :=
    fun he => hne ⟨he.1.1.symm, he.1.2.1.symm⟩
  simp only [answer, if_neg hand]

theorem Right.merge {aid : α} {mask perm : BitVec 32} (hr : Right h ad) (hm : ∀ ac ∈ ad.access aid,
      ac.perm &&& ((mask &&& ~~~perm) ||| (ac.mask &&& ~~~mask &&& perm)) = 0) :
    Right (.accessEnter ad.cache ad.fh aid mask perm :: h)
      (ad.setAccess aid (some (merge mask perm (ad.access aid)))) := by
  refine ⟨hr.1, ?_⟩
  intro aid' ac' hac i hi
  by_cases haid : aid = aid'
  · subst haid
    obtain rfl : Attrcache.merge mask perm (ad.access aid) = ac' := by
      simpa [AttrDat.setAccess] using hac
    by_cases hbit : mask.getLsbD i
    · cases hold : ad.access aid with
      | none => simp [answer, AttrDat.setAccess, hbit, Attrcache.merge]
      | some ac =>
        rw [hold] at hi
        have hright := (merge_right_iff mask perm ac).mpr (hm ac hold) i hi
        rw [if_pos hbit] at hright
        simp [answer, AttrDat.setAccess, hbit, hright]
    · cases hold : ad.access aid with
      | none =>
        rw [hold] at hi
        exact absurd hi hbit
      | some ac =>
        rw [hold] at hi
        have hright := (merge_right_iff mask perm ac).mpr (hm ac hold) i hi
        rw [if_neg hbit] at hright
        have hcovered : ac.mask.getLsbD i := by
          simpa [Attrcache.merge, BitVec.getLsbD_or, hbit] using hi
        simpa [answer, AttrDat.setAccess, hbit, hright] using hr.2 aid ac hold i hcovered
  · have hold : ac' ∈ ad.access aid' := by
      simpa [AttrDat.setAccess, Function.update_of_ne (Ne.symm haid)] using hac
    simpa [answer, AttrDat.setAccess, haid] using hr.2 aid' ac' hold i hi

theorem Right.flushAccess_other (hr : Right h ad) (aid : α)
    (hne : ¬ (ad.cache = c ∧ ad.fh = fh)) : Right (.flushAccess c fh aid :: h) ad := by
  refine hr.frame rfl ?_
  intro aid' i
  have hand : ¬ (c = ad.cache ∧ fh = ad.fh ∧ aid = aid') :=
    fun he => hne ⟨he.1.symm, he.2.1.symm⟩
  simp only [answer, if_neg hand]

theorem Right.flushAccess (hr : Right h ad) (aid : α) :
    Right (.flushAccess ad.cache ad.fh aid :: h) (ad.setAccess aid none) := by
  refine ⟨hr.1, ?_⟩
  intro aid' ac hac i hi
  by_cases haid : aid = aid'
  · subst haid
    simp [AttrDat.setAccess] at hac
  · have hold : ac ∈ ad.access aid' := by
      simpa [AttrDat.setAccess, Function.update_of_ne (Ne.symm haid)] using hac
    simpa [answer, AttrDat.setAccess, haid] using hr.2 aid' ac hold i hi

theorem Right.flushAid (hr : Right h ad) (aid : α) :
    Right (.flushAid c aid :: h) (if ad.cache = c then ad.setAccess aid none else ad) := by
  by_cases hc : ad.cache = c
  · rw [if_pos hc]
    refine ⟨hr.1, ?_⟩
    intro aid' ac hac i hi
    by_cases haid : aid = aid'
    · subst haid
      simp [AttrDat.setAccess] at hac
    · have hold : ac ∈ ad.access aid' := by
        simpa [AttrDat.setAccess, Function.update_of_ne (Ne.symm haid)] using hac
      simpa [answer, AttrDat.setAccess, haid] using hr.2 aid' ac hold i hi
  · rw [if_neg hc]
    refine hr.frame rfl ?_
    intro aid' i
    have hand : ¬ (c = ad.cache ∧ aid = aid') := fun he => hc he.1.symm
    simp only [answer, if_neg hand]

end Step

/-- Every entry agrees with what was entered. -/
def Inv (s : Lrulist φ α ρ) (h : List (Op φ α ρ)) : Prop := ∀ ad ∈ s, Right h ad

theorem Inv.attrEnter {s : Lrulist φ α ρ} {h : List (Op φ α ρ)} (hinv : Inv s h) (c : ℕ) (fh : φ)
    (a : Option (Fattr3exp ρ)) : Inv (s.attrEnter c fh a) (.attrEnter c fh a :: h) := by
  intro x hx
  unfold Lrulist.attrEnter at hx
  cases hget : s.get c fh with
  | none =>
    cases a with
    | none =>
      rw [hget] at hx
      exact (hinv x hx).frame rfl fun _ _ => rfl
    | some a =>
      rw [hget] at hx
      rcases Lrulist.mem_create hx with rfl | hold
      · refine ⟨⟨a, by simp [lastAttr], rfl⟩, ?_⟩
        rintro aid ac hac
        cases hac
      · exact (hinv x hold).attrEnter_other a (Lrulist.get_none hget hold)
  | some ad =>
    obtain ⟨hmem, rfl, rfl⟩ := Lrulist.get_mem hget
    cases a with
    | none =>
      rw [hget] at hx
      rcases Lrulist.mem_replace hx with rfl | ⟨hold, -⟩
      · exact (hinv ad hmem).frame rfl fun _ _ => rfl
      · exact (hinv x hold).frame rfl fun _ _ => rfl
    | some a =>
      rw [hget] at hx
      rcases Lrulist.mem_touch hx with rfl | ⟨hold, hne⟩
      · exact (hinv ad hmem).set a
      · exact (hinv x hold).attrEnter_other a hne

theorem Inv.accessEnter {s : Lrulist φ α ρ} {h : List (Op φ α ρ)} {c : ℕ} {fh : φ} {aid : α}
    {mask perm : BitVec 32} (hinv : Inv s h) (hm : Mergeable s (.accessEnter c fh aid mask perm)) :
    Inv (s.accessEnter c fh aid mask perm) (.accessEnter c fh aid mask perm :: h) := by
  intro x hx
  unfold Lrulist.accessEnter at hx
  cases hget : s.get c fh with
  | none =>
    rw [hget] at hx
    exact (hinv x hx).accessEnter_other aid mask perm (Lrulist.get_none hget hx)
  | some ad =>
    have hrecord := hm ad hget
    obtain ⟨hmem, rfl, rfl⟩ := Lrulist.get_mem hget
    rw [hget] at hx
    rcases Lrulist.mem_touch hx with rfl | ⟨hold, hne⟩
    · exact (hinv ad hmem).merge hrecord
    · exact (hinv x hold).accessEnter_other aid mask perm hne

theorem Inv.flushAccess {s : Lrulist φ α ρ} {h : List (Op φ α ρ)} (hinv : Inv s h) (c : ℕ)
    (fh : φ) (aid : α) : Inv (s.flushAccess c fh aid) (.flushAccess c fh aid :: h) := by
  intro x hx
  unfold Lrulist.flushAccess at hx
  cases hget : s.get c fh with
  | none =>
    rw [hget] at hx
    exact (hinv x hx).flushAccess_other aid (Lrulist.get_none hget hx)
  | some ad =>
    obtain ⟨hmem, rfl, rfl⟩ := Lrulist.get_mem hget
    rw [hget] at hx
    rcases Lrulist.mem_replace hx with rfl | ⟨hold, hne⟩
    · exact (hinv ad hmem).flushAccess aid
    · exact (hinv x hold).flushAccess_other aid hne

omit [DecidableEq α] in
theorem Lrulist.mem_of_mem_touch_get {s : Lrulist φ α ρ} {c : ℕ} {fh : φ} {ad x : AttrDat φ α ρ}
    (hget : s.get c fh = some ad) (hx : x ∈ s.touch ad) : x ∈ s := by
  rcases Lrulist.mem_touch hx with rfl | ⟨hold, -⟩
  · exact (Lrulist.get_mem hget).1
  · exact hold

omit [DecidableEq α] in
theorem Lrulist.mem_of_mem_attrLookup {s : Lrulist φ α ρ} {c : ℕ} {fh : φ} {now : ℤ}
    {x : AttrDat φ α ρ} (hx : x ∈ (s.attrLookup c fh now).2) : x ∈ s := by
  unfold Lrulist.attrLookup at hx
  split at hx
  · split_ifs at hx
    · exact Lrulist.mem_of_mem_touch_get ‹_› hx
    · exact hx
  · exact hx

omit [DecidableEq α] in
theorem Lrulist.mem_of_mem_accessLookup {s : Lrulist φ α ρ} {c : ℕ} {fh : φ} {aid : α}
    {mask : BitVec 32} {now : ℤ} {x : AttrDat φ α ρ}
    (hx : x ∈ (s.accessLookup c fh aid mask now).2) : x ∈ s := by
  unfold Lrulist.accessLookup at hx
  split at hx
  · split_ifs at hx
    · split at hx
      · split_ifs at hx
        · exact Lrulist.mem_of_mem_touch_get ‹_› hx
        · exact hx
      · exact hx
    · exact hx
  · exact hx

theorem Inv.after {s : Lrulist φ α ρ} {h : List (Op φ α ρ)} {op : Op φ α ρ} (hinv : Inv s h)
    (hm : Mergeable s op) : Inv (step s op) (op :: h) := by
  cases op with
  | attrEnter c fh a => exact hinv.attrEnter c fh a
  | accessEnter c fh aid mask perm => exact hinv.accessEnter hm
  | flushAccess c fh aid => exact hinv.flushAccess c fh aid
  | attrLookup c fh now =>
    intro x hx
    exact (hinv x (Lrulist.mem_of_mem_attrLookup hx)).frame rfl fun _ _ => rfl
  | accessLookup c fh aid mask now =>
    intro x hx
    exact (hinv x (Lrulist.mem_of_mem_accessLookup hx)).frame rfl fun _ _ => rfl
  | flushAid c aid =>
    intro x hx
    obtain ⟨ad, hmem, rfl⟩ := List.mem_map.mp hx
    exact (hinv ad hmem).flushAid aid
  | flushAttr c =>
    intro x hx
    obtain ⟨hmem, hkey⟩ := List.mem_filter.mp hx
    have hne : ¬ c = x.cache := by
      rintro rfl
      simp at hkey
    refine (hinv x hmem).frame rfl ?_
    intro aid i
    simp only [answer, if_neg hne]

theorem Inv.run {ops : List (Op φ α ρ)} {s : Lrulist φ α ρ}
    (hrun : Run (fun s op => some (step s op)) Mergeable [] ops s) : Inv s ops.reverse := by
  induction hrun with
  | nil =>
    intro ad had
    cases had
  | snoc _ hm hs ih =>
    cases hs
    rw [List.reverse_append]
    exact ih.after hm

omit [DecidableEq α] in
theorem Lrulist.accessLookup_found {s : Lrulist φ α ρ} {c : ℕ} {fh : φ} {aid : α}
    {mask : BitVec 32} {now : ℤ} (h : (s.accessLookup c fh aid mask now).1 ≠ -1) :
    ∃ ad ac, s.get c fh = some ad ∧ ad.valid now ∧ ad.access aid = some ac ∧
      mask &&& ac.mask = mask ∧ (s.accessLookup c fh aid mask now).1 = ac.perm &&& mask := by
  cases hget : s.get c fh with
  | none => simp [accessLookup, hget] at h
  | some ad =>
    cases hvalid : ad.valid now with
    | false => simp [accessLookup, hget, hvalid] at h
    | true =>
      cases hac : ad.access aid with
      | none => simp [accessLookup, hget, hvalid, hac] at h
      | some ac =>
        by_cases hcover : mask &&& ac.mask = mask
        · exact ⟨ad, ac, rfl, hvalid, hac, hcover,
            by simp [accessLookup, hget, hvalid, hac, hcover]⟩
        · simp [accessLookup, hget, hvalid, hac, hcover] at h

/-- In every run in which each reply can be merged into the record that it meets, a lookup answers
only when each bit was covered since the last flush or change of mode or owner, with what the latest
reply said about it, and it grants no other bit. -/
theorem accessLookup_latest {ops : List (Op φ α ρ)} {s : Lrulist φ α ρ}
    (hrun : Run (fun s op => some (step s op)) Mergeable [] ops s) (c : ℕ) (fh : φ) (aid : α)
    (mask : BitVec 32) (now : ℤ) (hanswer : (s.accessLookup c fh aid mask now).1 ≠ -1) (i : ℕ) :
    (mask.getLsbD i → answer c fh aid i ops.reverse =
        some ((s.accessLookup c fh aid mask now).1.getLsbD i)) ∧
      (¬ mask.getLsbD i → (s.accessLookup c fh aid mask now).1.getLsbD i = false) := by
  obtain ⟨ad, ac, hget, -, hac, hcover, hresult⟩ := Lrulist.accessLookup_found hanswer
  obtain ⟨hmem, rfl, rfl⟩ := Lrulist.get_mem hget
  rw [hresult, BitVec.getLsbD_and]
  constructor
  · intro hi
    have hbit : ac.mask.getLsbD i := by
      have hboth := hi
      rw [← hcover, BitVec.getLsbD_and, Bool.and_eq_true] at hboth
      exact hboth.2
    rw [(Inv.run hrun ad hmem).2 aid ac hac i hbit, hi, Bool.and_true]
  · intro hi
    simp [hi]

section Examples

def someAttr : Fattr3exp Unit := ⟨0o644, 0, 0, 9, ()⟩

def twoReplies : List (Op ℕ ℕ Unit) :=
  [.attrEnter 0 7 (some someAttr), .accessEnter 0 7 5 1 1, .accessEnter 0 7 5 2 0]

theorem accessLookup_latest_two :
    ((twoReplies.foldl step []).accessLookup 0 7 5 3 0).1 = 1 ∧
      answer 0 7 5 1 twoReplies.reverse = some false := by
  have hlookup : ((twoReplies.foldl step []).accessLookup 0 7 5 3 0).1 = 1 := by decide
  have hrun : Run (fun s op => some (step s op)) Mergeable [] twoReplies
      (twoReplies.foldl step []) := Run.of_checked rfl
  have hanswer := (accessLookup_latest hrun 0 7 5 3 0 (by rw [hlookup]; decide) 1).1 (by decide)
  rw [hlookup] at hanswer
  exact ⟨hlookup, hanswer⟩

/-- Of two replies about the same bit the first one grants it and the second one denies it: the
permission that was revoked is still reported. -/
theorem accessLookup_revoked : ¬ ∀ (ops : List (Op ℕ ℕ Unit)) (s : Lrulist ℕ ℕ Unit),
    Run (fun s op => some (step s op)) (fun _ _ => True) [] ops s →
    ∀ c fh aid mask now, (s.accessLookup c fh aid mask now).1 ≠ -1 →
    ∀ i, mask.getLsbD i → answer c fh aid i ops.reverse =
      some ((s.accessLookup c fh aid mask now).1.getLsbD i) := by
  intro h
  have hrun := h [.attrEnter 0 7 (some someAttr), .accessEnter 0 7 5 1 1, .accessEnter 0 7 5 1 0]
    _ (Run.of_foldlM rfl) 0 7 5 1 0 (by decide) 0 (by decide)
  revert hrun
  decide

end Examples

end Sfslite.Sfsmisc.Attrcache
