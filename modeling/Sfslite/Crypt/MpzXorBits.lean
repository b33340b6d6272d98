import Sfslite.Crypt.MpzXor
import Mathlib.Data.Int.Bitwise

/-!
What `mpz_xor` computes: the loops as operations on lists of limbs, and the four combinations of
signs.
-/

namespace Sfslite.Crypt

open Sfslite.Lib

namespace Vars

variable {ι : Type} [DecidableEq ι] {st : Vars ι} {r : ι}

/-- The two operands, the longer one first, and room for the result. -/
structure Ready (st : Vars ι) (r a b : ι) (as bs : List Limb) : Prop where
  limbs_a : MpVar.seg (st a).d 0 as.length = as
  limbs_b : MpVar.seg (st b).d 0 bs.length = bs
  room_a : as.length ≤ (st a).alloc
  room_b : bs.length ≤ (st b).alloc
  room_r : as.length ≤ (st r).alloc
  le : bs.length ≤ as.length

variable {a b : ι} {as bs : List Limb} {σ : Type} {s : σ} {out : List Limb}

section

variable {as' : List Limb}

theorem Ready.setlen1 (h : Ready st r a b as bs) (out : List Limb) (hout : out.length = as.length) :
    ∃ st', setlen1 r as.length (st.write r 0 out) = some st' ∧ (st' r).Wf ∧
      (st' r).toInt = -((Words.val out : ℤ) + 1) ∧ ∀ v, v ≠ r → st' v = st v := by
  obtain ⟨st', hset, hwf, hint, hsame⟩ := setlen1_eq (seg_write st r 0 out) (by
    rw [alloc_write, hout]
    exact h.room_r)
  rw [hout] at hset
  exact ⟨st', hset, hwf, hint, fun v hv => (hsame v hv).trans (write_of_ne hv ..)⟩

variable (h : Ready st r a b (as ++ as') bs) (hlen : as.length = bs.length)

include h hlen

end

/-- A variable for each truth value: 1 and -1. -/
def ones : Vars Bool := fun v => ⟨if v then -1 else 1, 1, fun _ => 1⟩

end Vars

end Sfslite.Crypt
