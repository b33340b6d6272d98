import Sfslite.Crypt.MpVar

/-!
`mpz_xor.C`: exclusive or of signed numbers, limb by limb.
-/

namespace Sfslite.Crypt

open Sfslite.Lib

namespace Vars

variable {ι : Type} [DecidableEq ι]

def readOne (a : ι) (st : Vars ι) (i : ℕ) : Option Limb := st.limb a i

/-- The first loop of `setlen1`: a limb more, up to one that does not become zero. -/
def incBody (_ : ℕ) (x : Limb) (_ : Limb) : Limb × Limb × Bool :=
  (x + 1, x + 1, decide (x + 1 ≠ 0))

/-- The second loop of `setlen1`: one behind the last limb that is not zero. -/
def lastLoop (r : ι) : ℕ → ℕ → ℕ → Vars ι → Option ℕ
  | 0, _, nz, _ => some nz
  | n + 1, i, nz, st => do
      let lv ← st.limb r i
      lastLoop r n (i + 1) (if lv ≠ 0 then i + 1 else nz) st

/-- The label `carryout` of `setlen1`. -/
def carryout (r : ι) (max : ℕ) (st : Vars ι) : Option (Vars ι) :=
  let max := max + 1
  let st := st.setSize r (-(max : ℤ))
  let st := if (st r).alloc < max then st.realloc r max else st
  st.put r (max - 1) 1

def setlen1 (r : ι) (max : ℕ) (st : Vars ι) : Option (Vars ι) := do
  let (i, lv, st) ← limbLoop (readOne r) r incBody max 0 0#64 st
  if lv = 0#64 then carryout r max st
  else
    let nz ← lastLoop r (max - i) i i st
    some (st.setSize r (-(nz : ℤ)))

variable {st : Vars ι} {r : ι}

theorem inc_carry {x : Limb} (hx : x + 1#64 = 0#64) (l : List Limb) :
    Words.inc (x :: l) = (0#64 :: (Words.inc l).1, (Words.inc l).2) := if_pos hx

theorem inc_end {x : Limb} (hx : x + 1#64 ≠ 0#64) (l : List Limb) :
    Words.inc (x :: l) = ((x + 1#64) :: l, false) := if_neg hx

theorem scan_inc (l : List Limb) (i : ℕ) :
    ∃ out lv, scan incBody i 0#64 l = (out, lv) ∧
      (Words.inc l).1 = out ++ l.drop out.length ∧
      ((Words.inc l).2 = true → lv = 0#64 ∧ out.length = l.length) ∧
      ((Words.inc l).2 = false → lv ≠ 0#64 ∧ ∃ init, out = init ++ [lv]) := by
  induction l generalizing i with
  | nil => exact ⟨[], 0#64, rfl, rfl, fun _ => ⟨rfl, rfl⟩, by simp [Words.inc]⟩
  | cons x l ih =>
    by_cases hx : x + 1#64 = 0#64
    · obtain ⟨out, lv, hscan, hinc, hcarry, hend⟩ := ih (i + 1)
      rw [inc_carry hx]
      refine ⟨0#64 :: out, lv, ?_, ?_, ?_, ?_⟩
      · simp [scan, incBody, hx, hscan]
      · simp only [hinc]
        rfl
      · intro h
        exact ⟨(hcarry h).1, by rw [List.length_cons, (hcarry h).2, List.length_cons]⟩
      · intro h
        obtain ⟨hlv, init, hout⟩ := hend h
        exact ⟨hlv, 0#64 :: init, by rw [hout, List.cons_append]⟩
    · rw [inc_end hx]
      refine ⟨[x + 1#64], x + 1#64, ?_, rfl, ?_, fun _ => ⟨hx, [], rfl⟩⟩
      · simp [scan, incBody, hx]
      · intro h
        cases h

variable {l : List Limb}

omit [DecidableEq ι] in
theorem lastLoop_eq (nz : ℕ) {i : ℕ} (hseg : MpVar.seg (st r).d i l.length = l)
    (hroom : i + l.length ≤ (st r).alloc) :
    lastLoop r l.length i nz st = some (Words.lastUsed i nz l) := by
  induction l generalizing i nz with
  | nil => rfl
  | cons x l ih =>
    rw [List.length_cons, MpVar.seg_succ] at hseg
    rw [List.length_cons] at hroom
    have hx : (st r).d i = x := (List.cons.inj hseg).1
    rw [List.length_cons, lastLoop, limb_eq (by omega), hx]
    simp only [Option.bind_eq_bind, Option.bind_some]
    exact ih _ (List.cons.inj hseg).2 (by omega)

omit [DecidableEq ι] in
theorem limb_of_seg {st st' : Vars ι} {a : ι} {j : ℕ} {x : Limb}
    (hseg : MpVar.seg (st a).d 0 l.length = l) (hroom : l.length ≤ (st a).alloc)
    (hx : l[j]? = some x) (hagree : AgreeAt st st' j) : st'.limb a j = some x := by
  obtain ⟨hj, rfl⟩ := List.getElem?_eq_some_iff.mp hx
  have hd : (st a).d j = l[j] := by
    have hget := MpVar.getElem?_seg (d := (st a).d) (i := 0) hj
    rw [hseg, Nat.zero_add, List.getElem?_eq_getElem hj] at hget
    exact (Option.some.inj hget).symm
  rw [limb_eq (by rw [(hagree a).1]; omega), (hagree a).2, hd]

theorem carryout_eq (hseg : MpVar.seg (st r).d 0 l.length = l) :
    ∃ st', carryout r l.length st = some st' ∧ (st' r).Wf ∧
      (st' r).toInt = -((Words.val l + (2 ^ 64) ^ l.length : ℕ) : ℤ) ∧
      ∀ v, v ≠ r → st' v = st v := by
  obtain ⟨st₂, hst₂⟩ : ∃ st₂, (if ((st.setSize r (-((l.length + 1 : ℕ) : ℤ))) r).alloc <
      l.length + 1 then (st.setSize r (-((l.length + 1 : ℕ) : ℤ))).realloc r (l.length + 1)
      else st.setSize r (-((l.length + 1 : ℕ) : ℤ))) = st₂ := ⟨_, rfl⟩
  have hr : (st₂ r).size = -((l.length + 1 : ℕ) : ℤ) ∧ (st₂ r).d = (st r).d ∧
      l.length + 1 ≤ (st₂ r).alloc := by
    rw [← hst₂]
    split
    · refine ⟨?_, by simp [realloc, setSize, MpVar.realloc], by simp [realloc, MpVar.realloc]⟩
      rw [realloc, Function.update_self, MpVar.realloc, setSize, Function.update_self,
        Int.natAbs_neg, Int.natAbs_natCast]
      exact if_neg (Nat.lt_irrefl _)
    · rename_i hge
      exact ⟨by simp [setSize], by simp [setSize], Nat.le_of_not_lt hge⟩
  have hother : ∀ v, v ≠ r → st₂ v = st v := by
    intro v hne
    rw [← hst₂]
    split
    · simp [realloc, setSize, hne]
    · simp [setSize, hne]
  have hput : st₂.put r (l.length + 1 - 1) 1 = some (st₂.write r l.length [1]) :=
    put_eq (by omega)
  have hlen : (l ++ [1#64]).length = l.length + 1 := by simp
  have hlimbs : MpVar.seg (st₂.write r l.length [1] r).d 0 (l ++ [1#64]).length = l ++ [1#64] := by
    have hnew := MpVar.seg_write (st₂ r).d l.length [1]
    rw [List.length_singleton] at hnew
    rw [write_self, hlen, MpVar.seg_add, MpVar.seg_write_of_le (by omega), hr.2.1, hseg,
      Nat.zero_add, ← hr.2.1, hnew]
    rfl
  obtain ⟨hwf, hmag⟩ := MpVar.wf_of_used hlimbs (by rw [alloc_write, hlen]; exact hr.2.2) (by
    rw [Words.lastUsed_concat _ (by decide), size_write, hr.1, hlen]
    omega)
  have hneg : (st₂.write r l.length [1] r).size ≤ 0 := by
    rw [size_write, hr.1]
    omega
  have hone : (1#64).toNat = 1 := rfl
  refine ⟨_, by rw [carryout, hst₂]; exact hput, hwf, ?_, fun v hne => ?_⟩
  · rw [MpVar.toInt_of_nonpos hneg, hmag, Words.val_append, Words.val_cons, Words.val_nil, hone,
      Nat.mul_zero, Nat.add_zero, Nat.mul_one]
  · rw [write_of_ne hne, hother v hne]

theorem setlen1_eq (hseg : MpVar.seg (st r).d 0 l.length = l) (hroom : l.length ≤ (st r).alloc) :
    ∃ st', setlen1 r l.length st = some st' ∧ (st' r).Wf ∧
      (st' r).toInt = -((Words.val l : ℤ) + 1) ∧ ∀ v, v ≠ r → st' v = st v := by
  obtain ⟨out, lv, hscan, hinc, hcarry, hend⟩ := scan_inc l 0
  have hloop := limbLoop_eq (readOne r) incBody st 0 0#64 l
    (fun j x hx st' hagree => limb_of_seg hseg hroom ((Nat.zero_add j).symm ▸ hx) hagree)
    (fun j _ => AgreeAt.refl st _) (by rw [Nat.zero_add]; exact hroom)
  have hval := Words.val_inc l
  have hlen := Words.length_inc l
  have hle : out.length ≤ l.length := by
    rw [hinc, List.length_append, List.length_drop] at hlen
    omega
  obtain ⟨k, hk⟩ := Nat.exists_eq_add_of_le hle
  rw [hscan] at hloop
  unfold setlen1
  rw [hloop]
  simp only [Option.bind_eq_bind, Option.bind_some, Nat.zero_add]
  have halloc : (st.write r 0 out r).alloc = (st r).alloc := alloc_write ..
  have hrest : MpVar.seg (st.write r 0 out r).d out.length k = l.drop out.length := by
    have hdrop := MpVar.drop_seg (d := (st r).d) (i := 0) hle
    rw [hseg] at hdrop
    rw [write_self, MpVar.seg_write_of_ge (Nat.zero_add _ ▸ Nat.le_refl _), hdrop, hk,
      Nat.add_sub_cancel_left, Nat.zero_add]
  have hlimbs : MpVar.seg (st.write r 0 out r).d 0 (Words.inc l).1.length = (Words.inc l).1 := by
    have hhead := MpVar.seg_write (st r).d 0 out
    rw [hlen, hk, MpVar.seg_add, Nat.zero_add, hrest, write_self, hhead, hinc]
  have hother : ∀ v, v ≠ r → st.write r 0 out v = st v := fun v hv => write_of_ne hv ..
  generalize st.write r 0 out = st₁ at hlimbs halloc hother hrest
  cases hc : (Words.inc l).2 with
  | true =>
    obtain ⟨rfl, hfull⟩ := hcarry hc
    rw [hc, Bool.toNat_true, Nat.mul_one] at hval
    obtain ⟨st', hout, hwf, hint, hsame⟩ := carryout_eq hlimbs
    rw [if_pos rfl, ← hlen, hout]
    refine ⟨st', rfl, hwf, ?_, fun v hne => by rw [hsame v hne, hother v hne]⟩
    rw [hint, hlen, hval]
    push_cast
    rfl
  | false =>
    obtain ⟨hlv, init, hout⟩ := hend hc
    rw [hc, Bool.toNat_false, Nat.mul_zero, Nat.add_zero] at hval
    have hdrop : (l.drop out.length).length = k := by
      rw [List.length_drop]
      omega
    have hlast := lastLoop_eq out.length (hdrop.symm ▸ hrest)
      (by rw [hdrop, halloc]; omega)
    have hused : Words.lastUsed out.length out.length (l.drop out.length) =
        Words.lastUsed 0 0 (Words.inc l).1 := by
      have hfull := Words.lastUsed_concat init hlv
      rw [hinc, Words.lastUsed_append, Nat.zero_add, hout, hfull]
    have hsub : l.length - out.length = (l.drop out.length).length := by rw [List.length_drop]
    rw [if_neg hlv, hsub, hlast]
    simp only [Option.bind_some, hused]
    refine ⟨_, rfl, ?_⟩
    have hself : st₁.setSize r (-(Words.lastUsed 0 0 (Words.inc l).1 : ℤ)) r =
        { st₁ r with size := -(Words.lastUsed 0 0 (Words.inc l).1 : ℤ) } :=
      Function.update_self ..
    obtain ⟨hwf, hmag⟩ := MpVar.wf_of_used
      (x := { st₁ r with size := -(Words.lastUsed 0 0 (Words.inc l).1 : ℤ) }) hlimbs
      (by rw [hlen]; exact halloc ▸ hroom) (by simp)
    rw [hself]
    refine ⟨hwf, ?_, fun v hne => (Function.update_of_ne hne ..).trans (hother v hne)⟩
    rw [MpVar.toInt_of_nonpos (by simp), hmag, hval]
    push_cast
    rfl

end Vars

end Sfslite.Crypt
