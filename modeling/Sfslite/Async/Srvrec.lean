import Mathlib.Algebra.BigOperators.Group.List.Basic
import Mathlib.Data.List.Sort
import Mathlib.Data.List.TakeWhile
import Sfslite.Async.Dnsparse

/-!
`srvrec_randomize` of `dnsparse.C`. A pointer to a record is the list of the records from it on,
and `base++` gives one up. `qsort` and `arandom` are arguments.
-/

namespace Sfslite.Async.Dnsparse

structure Srvrec where
  prio : BitVec 16
  weight : BitVec 16
  port : BitVec 16
  name : Name
deriving DecidableEq, Repr

def srvrecCmp (a b : Srvrec) : ℤ :=
  let d : ℤ := a.prio.toNat - b.prio.toNat
  if d ≠ 0 then d else b.weight.toNat - a.weight.toNat

namespace Randomize

/-- Why the loops do not come to their end. -/
inductive Fault where
  | outside
  | division
  | assertion
  | endless
deriving DecidableEq, Repr

/-- The exchange of `*base` and `base[which]`. -/
def swap : List Srvrec → ℕ → Except Fault (List Srvrec)
  | [], _ => .error .outside
  | r :: l, 0 => .ok (r :: l)
  | r :: l, which + 1 =>
    match l[which]? with
    | none => .error .outside
    | some x => .ok (x :: l.set which r)

/-- `while (++lastprio < last && ...)`: how far `lastprio` comes, and the total weight. -/
def lastprio (more : Srvrec → Bool) (weight : Srvrec → BitVec 32) :
    List Srvrec → ℕ → BitVec 32 → ℕ × BitVec 32
  | [], n, totweight => (n, totweight)
  | r :: l, n, totweight =>
    if more r then lastprio more weight l (n + 1) (totweight + weight r) else (n, totweight)

/-- What the loops over one priority leave: the records up to `base`, the ones from `base` on, the
total weight, the indices of `base` and of the record chosen in each turn, and how often `arandom`
was called. -/
structure Drawn where
  out : List Srvrec
  rest : List Srvrec
  totweight : BitVec 32
  chosen : List (ℕ × ℕ)
  calls : ℕ

/-- `while (base + 1 < lastprio)`, with `n` for `lastprio - base` and `at` for the index of `base`.
The loops differ in how they choose a record and what they take off the total weight. -/
def drawLoop (choose : List Srvrec → BitVec 32 → BitVec 32 → Except Fault ℕ)
    (less : BitVec 32 → Srvrec → BitVec 32) (arandom : ℕ → BitVec 32) :
    ℕ → List Srvrec → BitVec 32 → ℕ → ℕ → Except Fault Drawn
  | n + 2, l, totweight, base, calls => do
      let which ← choose l totweight (arandom calls)
      match ← swap l which with
      | [] => .error .outside
      | r :: l =>
        let d ← drawLoop choose less arandom (n + 1) l (less totweight r) (base + 1) (calls + 1)
        pure { d with out := r :: d.out, chosen := (base, base + which) :: d.chosen }
  | _, l, totweight, _, calls => pure ⟨[], l, totweight, [], calls⟩

/-- `arandom () % totweight`. -/
def chooseZero (_ : List Srvrec) (totweight rnd : BitVec 32) : Except Fault ℕ :=
  if totweight = 0 then .error .division else .ok (rnd % totweight).toNat

/-- `for (nextrec = base; nextrec->weight < rndweight; nextrec++)`, from the index `k` on. -/
def nextrec : List Srvrec → BitVec 32 → ℕ → Except Fault ℕ
  | [], _, _ => .error .outside
  | r :: l, rndweight, k =>
    if r.weight.setWidth 32 < rndweight then nextrec l (rndweight - r.weight.setWidth 32) (k + 1)
    else .ok k

def chooseWeight (l : List Srvrec) (totweight rnd : BitVec 32) : Except Fault ℕ :=
  if totweight = 0 then .error .division else nextrec l (rnd % totweight + 1) 0

/-- One turn of the outer loop, up to its `base++`, at the record `r`. -/
def group (arandom : ℕ → BitVec 32) (r : Srvrec) (l : List Srvrec) (base calls : ℕ) :
    Except Fault Drawn :=
  if r.weight = 0 then
    let (n, totweight) := lastprio (fun x => x.prio = r.prio) (fun _ => 1) l 1 1
    drawLoop chooseZero (fun totweight _ => totweight - 1) arandom n (r :: l) totweight base calls
  else do
    let (n, totweight) := lastprio (fun x => x.weight ≠ 0 ∧ x.prio = r.prio)
      (fun x => x.weight.setWidth 32) l 1 (r.weight.setWidth 32)
    let d ← drawLoop chooseWeight (fun totweight x => totweight - x.weight.setWidth 32) arandom n
      (r :: l) totweight base calls
    -- assert (totweight == base->weight)
    if d.rest.head?.map (fun x => x.weight.setWidth 32) = some d.totweight then pure d
    else .error .assertion

/-- `while (base < last)`, for some turns: the records, and the choices. -/
def loop (arandom : ℕ → BitVec 32) :
    ℕ → List Srvrec → ℕ → ℕ → Except Fault (List Srvrec × List (ℕ × ℕ))
  | _, [], _, _ => .ok ([], [])
  | 0, _ :: _, _, _ => .error .endless
  | fuel + 1, r :: l, base, calls => do
      let d ← group arandom r l base calls
      match d.rest with
      | [] => .error .outside
      | x :: rest =>
        let (out, chosen) ← loop arandom fuel rest (base + d.out.length + 1) d.calls
        pure (d.out ++ x :: out, d.chosen ++ chosen)

end Randomize

/-- With the choices, as the indices of `base` and of the record chosen. -/
def srvrecRandomize (qsort : List Srvrec → List Srvrec) (arandom : ℕ → BitVec 32)
    (recs : List Srvrec) : Except Randomize.Fault (List Srvrec × List (ℕ × ℕ)) :=
  Randomize.loop arandom recs.length (qsort recs) 0 0

namespace Randomize

variable {choose : List Srvrec → BitVec 32 → BitVec 32 → Except Fault ℕ}
  {less : BitVec 32 → Srvrec → BitVec 32} {arandom : ℕ → BitVec 32}
  {Total : BitVec 32 → List Srvrec → Prop} {g rest l : List Srvrec} {r : Srvrec}
  {totweight : BitVec 32} {base calls : ℕ}

variable (rest) in
theorem swap_spec {which : ℕ} (h : which < g.length) :
    ∃ x g', swap (g ++ rest) which = .ok (x :: (g' ++ rest)) ∧ (x :: g').Perm g := by
  cases g with
  | nil => simp at h
  | cons r g =>
    cases which with
    | zero => exact ⟨r, g, rfl, .refl _⟩
    | succ which =>
      have hlt : which < g.length := by simpa using h
      refine ⟨g[which], g.set which r, ?_, ?_⟩
      · have hget : (g ++ rest)[which]? = some g[which] := by
          rw [List.getElem?_append_left hlt, List.getElem?_eq_getElem hlt]
        simp only [List.cons_append, swap, hget, List.set_append_left _ _ hlt]
      · exact (List.set_perm_cons_eraseIdx hlt r).cons _ |>.trans <|
          (List.Perm.swap _ _ _).trans <| .cons _ (List.getElem_cons_eraseIdx_perm hlt)

/-- `Total` says that the total weight is the one of some records: then one of them is chosen, and
what is taken off with one leaves the total of the others. -/
structure Draws (choose : List Srvrec → BitVec 32 → BitVec 32 → Except Fault ℕ)
    (less : BitVec 32 → Srvrec → BitVec 32) (Total : BitVec 32 → List Srvrec → Prop) : Prop where
  choose : ∀ g rest totweight rnd, Total totweight g → g ≠ [] →
    ∃ which, choose (g ++ rest) totweight rnd = .ok which ∧ which < g.length
  less : ∀ g g' x totweight, Total totweight g → (x :: g').Perm g → g' ≠ [] →
    Total (less totweight x) g'

variable (arandom rest) in
theorem drawLoop_spec (h : Draws choose less Total) {n : ℕ} (base calls : ℕ) (hn : g.length = n + 1)
    (htotal : Total totweight g) :
    ∃ d x, drawLoop choose less arandom (n + 1) (g ++ rest) totweight base calls = .ok d ∧
      d.rest = x :: rest ∧ (d.out ++ [x]).Perm g ∧ Total d.totweight [x] ∧
      ∀ c ∈ d.chosen, base ≤ c.1 ∧ c.1 ≤ c.2 ∧ c.2 < base + g.length := by
  induction n generalizing g totweight base calls with
  | zero =>
    obtain ⟨x, rfl⟩ := List.length_eq_one_iff.mp hn
    exact ⟨⟨[], x :: rest, totweight, [], calls⟩, x, rfl, rfl, .refl _, htotal, by simp⟩
  | succ n ih =>
    have hne : g ≠ [] := List.ne_nil_of_length_eq_add_one hn
    obtain ⟨which, hchoose, hwhich⟩ := h.choose g rest totweight (arandom calls) htotal hne
    obtain ⟨r, g', hswap, hperm⟩ := swap_spec rest hwhich
    have hlen : g'.length = n + 1 := by
      have := hperm.length_eq
      simp only [List.length_cons] at this
      omega
    have htotal' := h.less g g' r totweight htotal hperm (List.ne_nil_of_length_eq_add_one hlen)
    obtain ⟨d, x, hdraw, hrest, hout, hlast, hchosen⟩ :=
      ih (base + 1) (calls + 1) hlen htotal'
    refine ⟨{ d with out := r :: d.out, chosen := (base, base + which) :: d.chosen }, x, ?_,
      hrest, (hout.cons r).trans hperm, hlast, ?_⟩
    · simp only [drawLoop, hchoose, hswap, hdraw, bind, Except.bind, pure, Except.pure]
    · intro c hc
      rcases List.mem_cons.mp hc with rfl | hc
      · exact ⟨le_rfl, Nat.le_add_right _ _, by omega⟩
      · obtain ⟨hbase, hle, hlt⟩ := hchosen c hc
        omega

def TotalZero (totweight : BitVec 32) (g : List Srvrec) : Prop :=
  totweight.toNat = g.length

theorem draws_zero : Draws chooseZero (fun totweight _ => totweight - 1) TotalZero where
  choose g rest totweight rnd htotal hne := by
    have hpos : 0 < totweight.toNat := htotal ▸ List.length_pos_iff.mpr hne
    have h0 : totweight ≠ 0 := by
      rintro rfl
      simp at hpos
    refine ⟨_, if_neg h0, ?_⟩
    rw [BitVec.toNat_umod, ← htotal]
    exact Nat.mod_lt _ hpos
  less g g' x totweight htotal hperm _ := by
    have hlen := hperm.length_eq
    simp only [TotalZero, List.length_cons] at htotal hlen ⊢
    bv_omega

/-- The sum of the weights, of which none is zero. -/
structure TotalWeight (totweight : BitVec 32) (g : List Srvrec) : Prop where
  sum : totweight.toNat = (g.map fun x => x.weight.toNat).sum
  pos : ∀ x ∈ g, x.weight ≠ 0

theorem toNat_weight (x : Srvrec) : (x.weight.setWidth 32).toNat = x.weight.toNat := by
  rw [BitVec.toNat_setWidth]
  have := x.weight.isLt
  omega

variable (rest) in
theorem nextrec_spec {rndweight : BitVec 32} (hpos : 0 < rndweight.toNat)
    (hle : rndweight.toNat ≤ (g.map fun x => x.weight.toNat).sum) (k : ℕ) :
    ∃ which, nextrec (g ++ rest) rndweight k = .ok (k + which) ∧ which < g.length := by
  induction g generalizing rndweight k with
  | nil =>
    simp only [List.map_nil, List.sum_nil] at hle
    omega
  | cons r g ih =>
    have hweight := toNat_weight r
    simp only [List.map_cons, List.sum_cons] at hle
    by_cases hlt : r.weight.setWidth 32 < rndweight
    · have hlt' : r.weight.toNat < rndweight.toNat := by
        rw [← hweight]
        exact BitVec.lt_def.mp hlt
      have hsub : (rndweight - r.weight.setWidth 32).toNat =
          rndweight.toNat - r.weight.toNat := by
        rw [BitVec.toNat_sub_of_le (BitVec.le_of_lt hlt), hweight]
      have hpos' : 0 < rndweight.toNat - r.weight.toNat := by omega
      have hrest : rndweight.toNat - r.weight.toNat ≤ (g.map fun x => x.weight.toNat).sum := by
        omega
      rw [← hsub] at hrest hpos'
      obtain ⟨which, hnext, hwhich⟩ := ih hpos' hrest (k + 1)
      refine ⟨which + 1, ?_, by simpa using hwhich⟩
      rw [List.cons_append, nextrec, if_pos hlt, hnext]
      congr 1
      omega
    · exact ⟨0, if_neg hlt, by simp⟩

theorem draws_weight : Draws chooseWeight
    (fun totweight x => totweight - x.weight.setWidth 32) TotalWeight where
  choose g rest totweight rnd htotal hne := by
    obtain ⟨x, g', rfl⟩ := List.exists_cons_of_ne_nil hne
    have hx : x.weight.toNat ≠ 0 := by
      intro h
      exact htotal.pos x (by simp) (BitVec.eq_of_toNat_eq h)
    have hsum := htotal.sum
    simp only [List.map_cons, List.sum_cons] at hsum
    have h0 : totweight ≠ 0 := by
      rintro rfl
      simp at hsum
      omega
    have hmod : (rnd % totweight).toNat < totweight.toNat := by
      rw [BitVec.toNat_umod]
      exact Nat.mod_lt _ (by omega)
    have hadd : (rnd % totweight + 1).toNat = (rnd % totweight).toNat + 1 := by
      have := totweight.isLt
      bv_omega
    have hpos : 0 < (rnd % totweight + 1).toNat := by omega
    have hle : (rnd % totweight + 1).toNat ≤ ((x :: g').map fun x => x.weight.toNat).sum := by
      rw [← htotal.sum]
      omega
    obtain ⟨which, hnext, hwhich⟩ := nextrec_spec rest hpos hle 0
    rw [Nat.zero_add] at hnext
    exact ⟨which, (if_neg h0).trans hnext, hwhich⟩
  less g g' x totweight htotal hperm _ := by
    have hsum := htotal.sum
    rw [← (hperm.map _).sum_eq] at hsum
    simp only [List.map_cons, List.sum_cons] at hsum
    have hweight := toNat_weight x
    constructor
    · rw [BitVec.toNat_sub_of_le (BitVec.le_def.mpr (by omega)), hweight]
      omega
    · intro y hy
      exact htotal.pos y (hperm.mem_iff.mp (List.mem_cons_of_mem x hy))

theorem lastprio_spec (more : Srvrec → Bool) (weight : Srvrec → BitVec 32) (n : ℕ)
    (hfits : totweight.toNat + ((l.takeWhile more).map fun x => (weight x).toNat).sum < 2 ^ 32) :
    ∃ totweight', lastprio more weight l n totweight =
        (n + (l.takeWhile more).length, totweight') ∧
      totweight'.toNat =
        totweight.toNat + ((l.takeWhile more).map fun x => (weight x).toNat).sum := by
  induction l generalizing n totweight with
  | nil => exact ⟨totweight, rfl, rfl⟩
  | cons r l ih =>
    by_cases hmore : more r = true
    · simp only [List.takeWhile_cons_of_pos hmore, List.map_cons, List.sum_cons] at hfits ⊢
      have hadd : (totweight + weight r).toNat = totweight.toNat + (weight r).toNat := by
        bv_omega
      rw [← Nat.add_assoc, ← hadd] at hfits ⊢
      obtain ⟨totweight', hlast, htotal⟩ := ih (n + 1) hfits
      refine ⟨totweight', ?_, htotal⟩
      rw [lastprio, if_pos hmore, hlast, List.length_cons]
      congr 1
      omega
    · refine ⟨totweight, ?_, ?_⟩
      · rw [lastprio, if_neg hmore, List.takeWhile_cons_of_neg hmore]
        rfl
      · rw [List.takeWhile_cons_of_neg hmore]
        rfl

theorem sum_weight_le (g : List Srvrec) :
    (g.map fun x => x.weight.toNat).sum ≤ g.length * (2 ^ 16 - 1) := by
  induction g with
  | nil => simp
  | cons x g ih =>
    have := x.weight.isLt
    simp only [List.map_cons, List.sum_cons, List.length_cons]
    omega

theorem group_spec (arandom : ℕ → BitVec 32) (r : Srvrec) (l : List Srvrec) (base calls : ℕ)
    (hlen : (r :: l).length < 2 ^ 16) :
    ∃ d x g rest, group arandom r l base calls = .ok d ∧ r :: l = g ++ rest ∧
      d.rest = x :: rest ∧ (d.out ++ [x]).Perm g ∧ (∀ y ∈ g, y.prio = r.prio) ∧
      ∀ c ∈ d.chosen, base ≤ c.1 ∧ c.1 ≤ c.2 ∧ c.2 < base + g.length := by
  rw [List.length_cons] at hlen
  by_cases hw : r.weight = 0
  · let more : Srvrec → Bool := fun x => x.prio = r.prio
    have hle : (l.takeWhile more).length ≤ l.length := (List.takeWhile_prefix more).length_le
    have hones : (1 : BitVec 32).toNat +
        ((l.takeWhile more).map fun _ => (1 : BitVec 32).toNat).sum =
          (r :: l.takeWhile more).length := by
      simp
      omega
    have hfits : (r :: l.takeWhile more).length < 2 ^ 32 := by
      simp only [List.length_cons]
      omega
    obtain ⟨totweight, hlast, htotal⟩ :=
      lastprio_spec more (fun _ => (1 : BitVec 32)) 1 (hones ▸ hfits)
    have htotal' : TotalZero totweight (r :: l.takeWhile more) := htotal.trans hones
    obtain ⟨d, x, hdraw, hrest, hperm, -, hchosen⟩ := drawLoop_spec arandom (l.dropWhile more)
      draws_zero base calls (List.length_cons ..) htotal'
    rw [List.cons_append, List.takeWhile_append_dropWhile] at hdraw
    refine ⟨d, x, r :: l.takeWhile more, l.dropWhile more, ?_, ?_, hrest, hperm, ?_, hchosen⟩
    · rw [group, if_pos hw, hlast, Nat.add_comm]
      exact hdraw
    · rw [List.cons_append, List.takeWhile_append_dropWhile]
    · intro y hy
      rcases List.mem_cons.mp hy with rfl | hy
      · rfl
      · simpa [more] using List.mem_takeWhile_imp hy
  · let more : Srvrec → Bool := fun x => x.weight ≠ 0 ∧ x.prio = r.prio
    have hle : (l.takeWhile more).length ≤ l.length := (List.takeWhile_prefix more).length_le
    have hweights : (r.weight.setWidth 32).toNat +
        ((l.takeWhile more).map fun x => (x.weight.setWidth 32).toNat).sum =
          ((r :: l.takeWhile more).map fun x => x.weight.toNat).sum := by
      simp only [toNat_weight, List.map_cons, List.sum_cons]
    have hfits : ((r :: l.takeWhile more).map fun x => x.weight.toNat).sum < 2 ^ 32 := by
      have hsum := sum_weight_le (r :: l.takeWhile more)
      simp only [List.length_cons] at hsum
      have : ((l.takeWhile more).length + 1) * (2 ^ 16 - 1) ≤ (2 ^ 16 - 1) * (2 ^ 16 - 1) :=
        Nat.mul_le_mul_right _ (by omega)
      omega
    obtain ⟨totweight, hlast, htotal⟩ :=
      lastprio_spec more (fun x => x.weight.setWidth 32) 1 (hweights ▸ hfits)
    have hmore : ∀ y ∈ l.takeWhile more, y.weight ≠ 0 ∧ y.prio = r.prio := by
      intro y hy
      simpa [more] using List.mem_takeWhile_imp hy
    have htotal' : TotalWeight totweight (r :: l.takeWhile more) := by
      refine ⟨htotal.trans hweights, fun y hy => ?_⟩
      rcases List.mem_cons.mp hy with rfl | hy
      · exact hw
      · exact (hmore y hy).1
    obtain ⟨d, x, hdraw, hrest, hperm, hx, hchosen⟩ := drawLoop_spec arandom (l.dropWhile more)
      draws_weight base calls (List.length_cons ..) htotal'
    rw [List.cons_append, List.takeWhile_append_dropWhile] at hdraw
    refine ⟨d, x, r :: l.takeWhile more, l.dropWhile more, ?_, ?_, hrest, hperm, ?_, hchosen⟩
    · -- the last record of the priority has the weight that is left
      have hleft : x.weight.setWidth 32 = d.totweight := by
        apply BitVec.eq_of_toNat_eq
        rw [hx.sum, toNat_weight]
        simp
      rw [group, if_neg hw, hlast]
      simp only [Nat.add_comm 1, hdraw, bind, Except.bind, hrest, List.head?_cons, Option.map_some,
        hleft, if_true]
      rfl
    · rw [List.cons_append, List.takeWhile_append_dropWhile]
    · intro y hy
      rcases List.mem_cons.mp hy with rfl | hy
      · rfl
      · exact (hmore y hy).2

/-- The record chosen is not in front of the one that it is exchanged with, and they have one
priority; the records of `l` are those from the index `base` on. -/
def InGroup (l : List Srvrec) (base : ℕ) (c : ℕ × ℕ) : Prop :=
  base ≤ c.1 ∧ c.1 ≤ c.2 ∧ ∃ prio, l[c.1 - base]?.map Srvrec.prio = some prio ∧
    l[c.2 - base]?.map Srvrec.prio = some prio

theorem loop_spec (arandom : ℕ → BitVec 32) {fuel : ℕ} (base calls : ℕ) (hfuel : l.length ≤ fuel)
    (hlen : l.length < 2 ^ 16) (hsorted : l.Pairwise fun a b => a.prio ≤ b.prio) :
    ∃ out chosen, loop arandom fuel l base calls = .ok (out, chosen) ∧ out.Perm l ∧
      (out.Pairwise fun a b => a.prio ≤ b.prio) ∧
      ∀ c ∈ chosen, InGroup l base c := by
  induction fuel generalizing l base calls with
  | zero =>
    have hnil : l = [] := List.length_eq_zero_iff.mp (by omega)
    subst hnil
    exact ⟨[], [], rfl, .refl _, .nil, by simp⟩
  | succ fuel ih =>
    cases l with
    | nil => exact ⟨[], [], rfl, .refl _, .nil, by simp⟩
    | cons r l =>
      obtain ⟨d, x, g, rest, hgroup, hsplit, hrest, hperm, hprio, hchosen⟩ :=
        group_spec arandom r l base calls hlen
      have hglen := hperm.length_eq
      have hlens := congrArg List.length hsplit
      simp only [List.length_append, List.length_cons, List.length_nil]
        at hglen hlens hfuel hlen
      rw [hsplit] at hsorted
      obtain ⟨-, hsorted', hcross⟩ := List.pairwise_append.mp hsorted
      obtain ⟨out, chosen, hloop, hperm', hpair, hchosen'⟩ :=
        ih (base + d.out.length + 1) d.calls (by omega) (by omega) hsorted'
      refine ⟨d.out ++ x :: out, d.chosen ++ chosen, ?_, ?_, ?_, ?_⟩
      · simp only [loop, hgroup, bind, Except.bind, hrest, hloop, pure, Except.pure]
      · rw [List.append_cons, hsplit]
        exact hperm.append hperm'
      · rw [List.append_cons]
        refine List.pairwise_append.mpr ⟨?_, hpair, ?_⟩
        · refine List.pairwise_of_forall_mem_list fun y hy z hz => ?_
          rw [hprio y (hperm.mem_iff.mp hy), hprio z (hperm.mem_iff.mp hz)]
          exact BitVec.le_refl _
        · intro y hy z hz
          exact hcross y (hperm.mem_iff.mp hy) z (hperm'.mem_iff.mp hz)
      · intro c hc
        rw [hsplit]
        rcases List.mem_append.mp hc with hc | hc
        · obtain ⟨hbase, hle, hlt⟩ := hchosen c hc
          have hprios : ∀ i < g.length,
              (g ++ rest)[i]?.map Srvrec.prio = some r.prio := by
            intro i hi
            rw [List.getElem?_append_left hi, List.getElem?_eq_getElem hi, Option.map_some,
              hprio _ (List.getElem_mem hi)]
          exact ⟨hbase, hle, r.prio, hprios _ (by omega), hprios _ (by omega)⟩
        · obtain ⟨hbase, hle, prio, h1, h2⟩ := hchosen' c hc
          have hshift : ∀ i, base + d.out.length + 1 ≤ i →
              (g ++ rest)[i - base]? = rest[i - (base + d.out.length + 1)]? := by
            intro i hi
            rw [List.getElem?_append_right (by omega)]
            congr 1
            omega
          refine ⟨by omega, hle, prio, ?_, ?_⟩
          · rw [hshift _ hbase]
            exact h1
          · rw [hshift _ (by omega)]
            exact h2

end Randomize

theorem srvrecCmp_le_zero_iff {a b : Srvrec} : srvrecCmp a b ≤ 0 ↔
    a.prio.toNat < b.prio.toNat ∨
      a.prio.toNat = b.prio.toNat ∧ b.weight.toNat ≤ a.weight.toNat := by
  by_cases hd : (a.prio.toNat : ℤ) - b.prio.toNat ≠ 0
  · simp only [srvrecCmp, if_pos hd]
    omega
  · simp only [srvrecCmp, if_neg hd]
    omega

/-- For every list of records that one answer can hold: the loops end and the assertion holds, the
records are in the order of their priorities, and each one chosen has the priority of the one that
it is exchanged with. -/
theorem srvrecRandomize_spec (qsort : List Srvrec → List Srvrec) (arandom : ℕ → BitVec 32)
    (recs : List Srvrec)
    (hqsort : ∀ l, (qsort l).Perm l ∧ (qsort l).Pairwise fun a b => srvrecCmp a b ≤ 0)
    (hlen : recs.length < 2 ^ 16) :
    ∃ out chosen, srvrecRandomize qsort arandom recs = .ok (out, chosen) ∧ out.Perm recs ∧
      (out.Pairwise fun a b => a.prio ≤ b.prio) ∧
      ∀ c ∈ chosen, Randomize.InGroup (qsort recs) 0 c := by
  obtain ⟨hperm, hpair⟩ := hqsort recs
  have hlength := hperm.length_eq
  have hsorted : (qsort recs).Pairwise fun a b => a.prio ≤ b.prio := by
    refine hpair.imp fun {a b} hcmp => ?_
    rw [BitVec.le_def]
    have := srvrecCmp_le_zero_iff.mp hcmp
    omega
  obtain ⟨out, chosen, hloop, hout, hprio, hchosen⟩ :=
    Randomize.loop_spec arandom 0 0 hlength.le (by omega) hsorted
  exact ⟨out, chosen, hloop, hout.trans hperm, hprio, hchosen⟩

/-- One order that `qsort` may give. -/
def sortSrvrecs : List Srvrec → List Srvrec :=
  List.insertionSort fun a b => srvrecCmp a b ≤ 0

theorem sortSrvrecs_spec (l : List Srvrec) :
    (sortSrvrecs l).Perm l ∧ (sortSrvrecs l).Pairwise fun a b => srvrecCmp a b ≤ 0 := by
  have : Std.Total fun a b => srvrecCmp a b ≤ 0 := ⟨fun a b => by
    simp only [srvrecCmp_le_zero_iff]
    omega⟩
  have : IsTrans Srvrec fun a b => srvrecCmp a b ≤ 0 := ⟨fun a b c => by
    simp only [srvrecCmp_le_zero_iff]
    omega⟩
  exact ⟨List.perm_insertionSort _ l, List.pairwise_insertionSort _ l⟩

/-- Two priorities, a weight of zero and weights that are equal. -/
theorem srvrecRandomize_spec_five : ∃ out chosen,
    srvrecRandomize sortSrvrecs (BitVec.ofNat 32)
        [⟨1, 0, 53, []⟩, ⟨0, 7, 53, []⟩, ⟨0, 0, 53, []⟩, ⟨0, 7, 54, []⟩, ⟨1, 0, 54, []⟩] =
      .ok (out, chosen) ∧
    out.Perm [⟨1, 0, 53, []⟩, ⟨0, 7, 53, []⟩, ⟨0, 0, 53, []⟩, ⟨0, 7, 54, []⟩, ⟨1, 0, 54, []⟩] ∧
    (out.Pairwise fun a b => a.prio ≤ b.prio) ∧
    ∀ c ∈ chosen, Randomize.InGroup (sortSrvrecs
      [⟨1, 0, 53, []⟩, ⟨0, 7, 53, []⟩, ⟨0, 0, 53, []⟩, ⟨0, 7, 54, []⟩, ⟨1, 0, 54, []⟩]) 0 c :=
  srvrecRandomize_spec _ _ _ sortSrvrecs_spec (by decide)

end Sfslite.Async.Dnsparse
