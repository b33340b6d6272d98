import Sfslite.Crypt.MpVar

/-!
GMP's functions on limbs in memory, as far as `mpz_square.C` and `modalg.C` call them, with the laws
that their documentation states; and `mpz_square.C` itself.
-/

namespace Sfslite.Crypt

open Sfslite.Lib

/-- The operands come as lists of limbs. Where a function also returns a carry it is the second
component. -/
structure Mpn where
  mulN : List Limb → List Limb → List Limb
  addmul1 : List Limb → List Limb → Limb → List Limb × Limb
  add1 : List Limb → Limb → List Limb × Limb
  lshift : List Limb → ℕ → List Limb × Limb

namespace Mpn

structure Lawful (mpn : Mpn) : Prop where
  length_mulN : ∀ s t, s.length = t.length → 0 < t.length →
    (mpn.mulN s t).length = 2 * t.length
  val_mulN : ∀ s t, s.length = t.length → 0 < t.length →
    Words.val (mpn.mulN s t) = Words.val s * Words.val t
  length_addmul1 : ∀ r s u, r.length = s.length → 0 < s.length →
    (mpn.addmul1 r s u).1.length = s.length
  val_addmul1 : ∀ r s u, r.length = s.length → 0 < s.length →
    Words.val (mpn.addmul1 r s u).1 + (2 ^ 64) ^ s.length * (mpn.addmul1 r s u).2.toNat =
      Words.val r + Words.val s * u.toNat
  length_add1 : ∀ s u, 0 < s.length → (mpn.add1 s u).1.length = s.length
  val_add1 : ∀ s u, 0 < s.length →
    Words.val (mpn.add1 s u).1 + (2 ^ 64) ^ s.length * (mpn.add1 s u).2.toNat =
      Words.val s + u.toNat
  length_lshift : ∀ s n, 0 < s.length → 1 ≤ n → n < 64 → (mpn.lshift s n).1.length = s.length
  val_lshift : ∀ s n, 0 < s.length → 1 ≤ n → n < 64 →
    Words.val (mpn.lshift s n).1 + (2 ^ 64) ^ s.length * (mpn.lshift s n).2.toNat =
      Words.val s * 2 ^ n

/-- `mpn_addmul_1 (rp + i, s, n, u)`, with the carry; `none` outside of the limbs at `rp`. -/
def addmul1At (mpn : Mpn) (rp : List Limb) (i : ℕ) (s : List Limb) (u : Limb) :
    Option (List Limb × Limb) :=
  if i + s.length ≤ rp.length then
    let out := mpn.addmul1 ((rp.drop i).take s.length) s u
    some (Words.splice rp i out.1, out.2)
  else none

/-- `mpn_add_1 (rp + i, rp + i, n, u)`, whose carry nobody looks at. -/
def add1At (mpn : Mpn) (rp : List Limb) (i n : ℕ) (u : Limb) : Option (List Limb) :=
  if i + n ≤ rp.length then some (Words.splice rp i (mpn.add1 ((rp.drop i).take n) u).1)
  else none

/-- `rp[i] = u`. -/
def put (rp : List Limb) (i : ℕ) (u : Limb) : Option (List Limb) :=
  if i < rp.length then some (rp.set i u) else none

/-- `u` times `s` is added from place `i` on, and the carry to the `n` limbs above. -/
def addRow (mpn : Mpn) (rp : List Limb) (i : ℕ) (s : List Limb) (u : Limb) (n : ℕ) :
    Option (List Limb) := do
  let out ← mpn.addmul1At rp i s u
  mpn.add1At out.1 (i + s.length) n out.2

/-- `while (n && !rp[n - 1]) n--;`. -/
def sizeDown (rp : List Limb) : ℕ → ℕ
  | 0 => 0
  | n + 1 => if rp[n]? = some 0 then sizeDown rp n else n + 1

variable {mpn : Mpn} {rp s : List Limb} {u : Limb} {i n : ℕ}

theorem Lawful.addmul1At (h : mpn.Lawful) (u : Limb) (lo hi : List Limb) {mid : List Limb}
    (hmid : mid.length = s.length) (hs : 0 < s.length) :
    mpn.addmul1At (lo ++ (mid ++ hi)) lo.length s u =
      some (lo ++ ((mpn.addmul1 mid s u).1 ++ hi), (mpn.addmul1 mid s u).2) := by
  have hout := h.length_addmul1 mid s u hmid hs
  have hroom : lo.length + s.length ≤ (lo ++ (mid ++ hi)).length := by
    simp only [List.length_append]
    omega
  rw [Mpn.addmul1At, if_pos hroom, ← hmid, Words.take_drop_split]
  simp only [Words.splice_split lo hi (hout.trans hmid.symm)]

theorem Lawful.addRow (h : mpn.Lawful) (rp : List Limb) (u : Limb) (hs : 0 < s.length) (hn : 0 < n)
    (hlen : i + s.length + n = rp.length) :
    ∃ rp' c, mpn.addRow rp i s u n = some rp' ∧ rp'.length = rp.length ∧
      Words.val rp' + (2 ^ 64) ^ rp.length * c =
        Words.val rp + (2 ^ 64) ^ i * (Words.val s * u.toNat) := by
  obtain ⟨lo, mid, hi, rfl, rfl, hmid⟩ : ∃ lo mid hi, rp = lo ++ (mid ++ hi) ∧ lo.length = i ∧
      mid.length = s.length := Words.exists_split (by omega)
  have hhi : hi.length = n := by
    simp only [List.length_append] at hlen
    omega
  have hout := h.length_addmul1 mid s u hmid hs
  have hval := h.val_addmul1 mid s u hmid hs
  have hmul := h.addmul1At u lo hi hmid hs
  generalize mpn.addmul1 mid s u = out at hout hval hmul
  have hcarry := h.val_add1 hi out.2 (hhi.symm ▸ hn)
  have hsum := h.length_add1 hi out.2 (hhi.symm ▸ hn)
  have hadd : mpn.add1At (lo ++ (out.1 ++ hi)) (lo.length + s.length) n out.2 =
      some (lo ++ (out.1 ++ (mpn.add1 hi out.2).1)) := by
    have hsplit := Words.splice_split (lo ++ out.1) [] hsum
    have hread := Words.take_drop_split (lo ++ out.1) hi []
    simp only [List.append_nil, List.append_assoc, List.length_append] at hsplit hread
    rw [add1At, if_pos (by simp only [List.length_append]; omega), ← hout, ← hhi, hread, hsplit]
  generalize mpn.add1 hi out.2 = top at hcarry hsum hadd
  refine ⟨lo ++ (out.1 ++ top.1), top.2.toNat, ?_, ?_, ?_⟩
  · rw [Mpn.addRow, hmul]
    exact hadd
  · simp only [List.length_append, hout, hmid, hsum]
  · have hpow : (2 ^ 64) ^ (lo ++ (mid ++ hi)).length =
        (2 ^ 64) ^ lo.length * ((2 ^ 64) ^ s.length * (2 ^ 64) ^ hi.length) := by
      rw [List.length_append, List.length_append, hmid, pow_add, pow_add]
    rw [Words.val_split, Words.val_split, hout, hmid, hpow]
    generalize (2 ^ 64) ^ lo.length = l at *
    generalize (2 ^ 64) ^ s.length = k at *
    generalize (2 ^ 64) ^ hi.length = m at *
    calc Words.val lo + l * (Words.val out.1 + k * Words.val top.1) + l * (k * m) * top.2.toNat
        = Words.val lo + l * (Words.val out.1 + k * (Words.val top.1 + m * top.2.toNat)) := by
          ring
      _ = Words.val lo + l * (Words.val out.1 + k * out.2.toNat + k * Words.val hi) := by
          rw [hcarry]
          ring
      _ = Words.val lo + l * (Words.val mid + k * Words.val hi) +
          l * (Words.val s * u.toNat) := by
          rw [hval]
          ring

theorem Lawful.addRow_of_lt (h : mpn.Lawful) (rp : List Limb) (u : Limb) (hs : 0 < s.length)
    (hn : 0 < n) (hlen : i + s.length + n = rp.length)
    (hlt : Words.val rp + (2 ^ 64) ^ i * (Words.val s * u.toNat) < (2 ^ 64) ^ rp.length) :
    ∃ rp', mpn.addRow rp i s u n = some rp' ∧ rp'.length = rp.length ∧
      Words.val rp' = Words.val rp + (2 ^ 64) ^ i * (Words.val s * u.toNat) := by
  obtain ⟨rp', c, hrow, hlen', hval⟩ := h.addRow rp u hs hn hlen
  refine ⟨rp', hrow, hlen', ?_⟩
  have hc : c = 0 := by
    rcases Nat.eq_zero_or_pos c with hc | hc
    · exact hc
    · have hmul := Nat.le_mul_of_pos_right ((2 ^ 64) ^ rp.length) hc
      omega
  rw [← hval, hc, Nat.mul_zero, Nat.add_zero]

theorem Lawful.addmul1_put (h : mpn.Lawful) (u : Limb) (hs : 0 < s.length)
    (hzero : rp[i + s.length]? = some 0) :
    ∃ out rp', mpn.addmul1At rp i s u = some out ∧
      put out.1 (i + s.length) out.2 = some rp' ∧ rp'.length = rp.length ∧
      (∀ j, i + s.length < j → rp'[j]? = rp[j]?) ∧
      Words.val rp' = Words.val rp + (2 ^ 64) ^ i * (Words.val s * u.toNat) := by
  obtain ⟨hlt, -⟩ := List.getElem?_eq_some_iff.mp hzero
  obtain ⟨lo, mid, hi, rfl, rfl, hmid⟩ : ∃ lo mid hi, rp = lo ++ (mid ++ hi) ∧ lo.length = i ∧
      mid.length = s.length := Words.exists_split (by omega)
  obtain ⟨top, rfl⟩ : ∃ top, hi = 0 :: top := by
    rw [← List.append_assoc, List.getElem?_append_right (by simp [hmid])] at hzero
    simp only [List.length_append, hmid, Nat.sub_self] at hzero
    cases hi with
    | nil => cases hzero
    | cons v top => exact ⟨top, congrArg (· :: top) (Option.some.inj hzero)⟩
  have hout := h.length_addmul1 mid s u hmid hs
  have hval := h.val_addmul1 mid s u hmid hs
  have hmul := h.addmul1At u lo (0 :: top) hmid hs
  generalize mpn.addmul1 mid s u = out at hout hval hmul
  have hput : put (lo ++ (out.1 ++ 0 :: top)) (lo.length + s.length) out.2 =
      some (lo ++ (out.1 ++ out.2 :: top)) := by
    rw [put, if_pos (by simp [hout]), List.set_append_right _ _ (Nat.le_add_right _ _),
      Nat.add_sub_cancel_left, List.set_append_right _ _ (Nat.le_of_eq hout), hout, Nat.sub_self,
      List.set_cons_zero]
  refine ⟨_, _, hmul, hput, ?_, ?_, ?_⟩
  · simp [hout, hmid]
  · intro j hj
    rw [← List.append_assoc, ← List.append_assoc,
      List.getElem?_append_right (by simp [hout]; omega),
      List.getElem?_append_right (by simp [hmid]; omega)]
    simp only [List.length_append, hout, hmid]
    obtain ⟨e, he⟩ : ∃ e, j - (lo.length + s.length) = e + 1 := ⟨j - (lo.length + s.length) - 1,
      by omega⟩
    rw [he, List.getElem?_cons_succ, List.getElem?_cons_succ]
  · rw [Words.val_split, Words.val_split, Words.val_cons, Words.val_cons, hout, hmid]
    generalize (2 ^ 64) ^ lo.length = l at *
    generalize (2 ^ 64) ^ s.length = k at *
    have hzero : (0 : Limb).toNat = 0 := rfl
    calc Words.val lo + l * (Words.val out.1 + k * (out.2.toNat + 2 ^ 64 * Words.val top))
        = Words.val lo +
            l * (Words.val out.1 + k * out.2.toNat + k * (2 ^ 64 * Words.val top)) := by
          ring
      _ = Words.val lo + l * (Words.val mid + k * ((0 : Limb).toNat + 2 ^ 64 * Words.val top)) +
          l * (Words.val s * u.toNat) := by
          rw [hval, hzero]
          ring

theorem sizeDown_eq (rp : List Limb) :
    sizeDown rp rp.length = (rp.rdropWhile (· == 0#64)).length := by
  have hprefix : ∀ rp v : List Limb, sizeDown (rp ++ v) rp.length = sizeDown rp rp.length := by
    intro rp v
    suffices h : ∀ n ≤ rp.length, sizeDown (rp ++ v) n = sizeDown rp n from h _ (Nat.le_refl _)
    intro n
    induction n with
    | zero => exact fun _ => rfl
    | succ n ih =>
      intro hn
      rw [sizeDown, sizeDown, List.getElem?_append_left hn, ih (Nat.le_of_succ_le hn)]
  induction rp using List.reverseRecOn with
  | nil => rfl
  | append_singleton rp v ih =>
    rw [List.length_append, List.length_singleton, sizeDown, List.getElem?_concat_length,
      List.rdropWhile_concat, hprefix, ih]
    rcases eq_or_ne v 0#64 with rfl | hv
    · rfl
    · simp [hv]

/-- The functions as GMP computes them. -/
def byValue : Mpn where
  mulN s t := Words.ofNat (2 * t.length) (Words.val s * Words.val t)
  addmul1 r s u :=
    let v := Words.val r + Words.val s * u.toNat
    (Words.ofNat s.length v, BitVec.ofNat 64 (v / (2 ^ 64) ^ s.length))
  add1 s u :=
    let v := Words.val s + u.toNat
    (Words.ofNat s.length v, BitVec.ofNat 64 (v / (2 ^ 64) ^ s.length))
  lshift s n :=
    let v := Words.val s * 2 ^ n
    (Words.ofNat s.length v, BitVec.ofNat 64 (v / (2 ^ 64) ^ s.length))

theorem ofNat_carry {k v : ℕ} (h : v < (2 ^ 64) ^ k * 2 ^ 64) :
    Words.val (Words.ofNat k v : List Limb) +
      (2 ^ 64) ^ k * (BitVec.ofNat 64 (v / (2 ^ 64) ^ k)).toNat = v := by
  rw [Words.val_ofNat, BitVec.toNat_ofNat, Nat.mod_eq_of_lt (Nat.div_lt_of_lt_mul h),
    Nat.mod_add_div]

theorem byValue_lawful : byValue.Lawful where
  length_mulN s t _ _ := Words.length_ofNat ..
  val_mulN s t hlen _ := by
    have hs := Words.val_lt s
    rw [hlen] at hs
    have hmul := Nat.mul_lt_mul'' hs (Words.val_lt t)
    rw [← pow_add, ← Nat.two_mul] at hmul
    exact (Words.val_ofNat ..).trans (Nat.mod_eq_of_lt hmul)
  length_addmul1 r s u _ _ := Words.length_ofNat ..
  val_addmul1 r s u hlen _ := by
    have hr := Words.val_lt r
    have hs := Words.val_lt s
    have hu : u.toNat ≤ 2 ^ 64 - 1 := Nat.le_sub_one_of_lt u.isLt
    rw [hlen] at hr
    have hmul := Nat.mul_le_mul (Nat.le_of_lt hs) hu
    apply ofNat_carry
    omega
  length_add1 s u _ := Words.length_ofNat ..
  val_add1 s u hs := by
    have hlt := Words.val_lt s
    have hu := u.isLt
    have hpow := Nat.pow_le_pow_right (n := 2 ^ 64) (by decide) hs
    apply ofNat_carry
    omega
  length_lshift s n _ _ _ := Words.length_ofNat ..
  val_lshift s n _ _ hn := by
    have hlt := Words.val_lt s
    have hpow : 2 ^ n ≤ 2 ^ 64 := Nat.pow_le_pow_right (by decide) (Nat.le_of_lt hn)
    apply ofNat_carry
    exact Nat.lt_of_lt_of_le (Nat.mul_lt_mul_of_pos_right hlt (Nat.two_pow_pos n))
      (Nat.mul_le_mul_left _ hpow)

end Mpn

/-- The first `n` limbs; `none` outside of the space allocated. -/
def MpVar.read (x : MpVar) (n : ℕ) : Option (List Limb) :=
  if n ≤ x.alloc then some (seg x.d 0 n) else none

def MpVar.store (x : MpVar) (out : List Limb) : Option MpVar :=
  if out.length ≤ x.alloc then some { x with d := write x.d 0 out } else none

namespace Mpn

/-- The first `for` loop, where `a` is `ap[i - 1]` and the limbs behind it start at `ap + i`. -/
def offDiagonal (mpn : Mpn) : List Limb → ℕ → List Limb → Option (List Limb)
  | a :: b :: ap, i, rp => do
      let mrp := 2 * i - 1
      let out ← mpn.addmul1At rp mrp (b :: ap) a
      let rp ← put out.1 (mrp + (b :: ap).length) out.2
      offDiagonal mpn (b :: ap) (i + 1) rp
  | _, _, rp => some rp

/-- The second `for` loop, where `a` is `ap[i]`. -/
def diagonal (mpn : Mpn) : List Limb → ℕ → List Limb → Option (List Limb)
  | a :: ap, i, rp => do
      let rpos := 2 * i
      let rp ← mpn.addRow rp rpos [a] a (rp.length - rpos - 1)
      diagonal mpn ap (i + 1) rp
  | [], _, rp => some rp

/-- What `mpz_square` writes at `rp`. -/
def squareLimbs (mpn : Mpn) (ap : List Limb) : Option (List Limb) :=
  let rsize := 2 * ap.length
  if ap.length < 24 then some (mpn.mulN ap ap)
  else do
    let rp ← mpn.offDiagonal ap 1 (List.replicate rsize 0)
    mpn.diagonal ap 0 (mpn.lshift rp 1).1

/-- `init` is what `mpz_init` makes of `tmp`. `none` also where `rsize`, which is an `int`,
overflows. -/
def mpzSquare {ι : Type} [DecidableEq ι] (mpn : Mpn) (init : MpVar) (res arg : ι)
    (st : Vars ι) : Option (Vars ι) :=
  if (st arg).size = 0 then some (st.setSize res 0)
  else
    let asize := (st arg).size.natAbs
    let rsize := 2 * asize
    if rsize < 2 ^ 31 then do
      let r := if res = arg then init else st res
      let ap ← (st arg).read asize
      let r := if r.alloc < rsize then r.realloc rsize else r
      let rp ← mpn.squareLimbs ap
      let r ← r.store rp
      some (Function.update st res { r with size := (sizeDown rp rsize : ℤ) })
    else none

variable {mpn : Mpn}

theorem Lawful.offDiagonal (h : mpn.Lawful) (ap : List Limb) (k : ℕ) (rp : List Limb)
    (hlen : 2 * k + 2 * ap.length = rp.length)
    (hzero : ∀ j, 2 * k + ap.length ≤ j → j < rp.length → rp[j]? = some 0) :
    ∃ rp', mpn.offDiagonal ap (k + 1) rp = some rp' ∧ rp'.length = rp.length ∧
      Words.val rp' = Words.val rp + (2 ^ 64) ^ (2 * k) * Words.offDiag ap := by
  induction ap generalizing k rp with
  | nil => exact ⟨rp, rfl, rfl, rfl⟩
  | cons a ap ih =>
    cases ap with
    | nil => exact ⟨rp, rfl, rfl, by simp [Words.offDiag]⟩
    | cons b ap =>
      simp only [List.length_cons] at hlen hzero
      have hplace : 2 * (k + 1) - 1 = 2 * k + 1 := by omega
      obtain ⟨out, rp', hmul, hput, hlen', hkeep, hval⟩ := h.addmul1_put a
        (s := b :: ap) (i := 2 * k + 1) (Nat.succ_pos _)
        (hzero _ (by rw [List.length_cons]; omega) (by rw [List.length_cons]; omega))
      obtain ⟨rp'', hrest, hlen'', hval'⟩ := ih (k + 1) rp'
        (by rw [hlen', List.length_cons]; omega)
        (fun j hj hlt => by
          rw [List.length_cons] at hj
          rw [hkeep j (by rw [List.length_cons]; omega)]
          exact hzero j (by omega) (hlen' ▸ hlt))
      refine ⟨rp'', ?_, hlen''.trans hlen', ?_⟩
      · rw [Mpn.offDiagonal]
        simp only [hplace, hmul, hput, Option.bind_eq_bind, Option.bind_some, hrest]
      · have hpow : (2 ^ 64) ^ (2 * (k + 1)) = (2 ^ 64) ^ (2 * k) * (2 ^ 64) ^ 2 := by
          rw [Nat.mul_add, pow_add]
        have hpow' : (2 ^ 64) ^ (2 * k + 1) = (2 ^ 64) ^ (2 * k) * 2 ^ 64 := pow_succ ..
        have hoff : Words.offDiag (a :: b :: ap) = 2 ^ 64 * (Words.val (b :: ap) * a.toNat) +
            (2 ^ 64) ^ 2 * Words.offDiag (b :: ap) := rfl
        rw [hval', hval, hpow, hpow', hoff]
        ring

theorem Lawful.diagonal (h : mpn.Lawful) (ap : List Limb) (i : ℕ) (rp : List Limb)
    (hlen : 2 * i + 2 * ap.length = rp.length)
    (hlt : Words.val rp + (2 ^ 64) ^ (2 * i) * Words.diag ap < (2 ^ 64) ^ rp.length) :
    ∃ rp', mpn.diagonal ap i rp = some rp' ∧ rp'.length = rp.length ∧
      Words.val rp' = Words.val rp + (2 ^ 64) ^ (2 * i) * Words.diag ap := by
  induction ap generalizing i rp with
  | nil => exact ⟨rp, rfl, rfl, rfl⟩
  | cons a ap ih =>
    rw [List.length_cons] at hlen
    have hpow : (2 ^ 64) ^ (2 * (i + 1)) = (2 ^ 64) ^ (2 * i) * (2 ^ 64) ^ 2 := by
      rw [Nat.mul_add, pow_add]
    have hsplit : (2 ^ 64) ^ (2 * i) * Words.diag (a :: ap) =
        (2 ^ 64) ^ (2 * i) * (a.toNat * a.toNat) +
          (2 ^ 64) ^ (2 * (i + 1)) * Words.diag ap := by
      rw [hpow, Words.diag]
      ring
    have hone : Words.val [a] = a.toNat := by simp
    rw [hsplit] at hlt ⊢
    obtain ⟨rp', hrow, hlen', hval⟩ := h.addRow_of_lt rp a (s := [a]) (i := 2 * i)
      (n := rp.length - 2 * i - 1) Nat.one_pos (by omega) (by rw [List.length_singleton]; omega)
      (by rw [hone]; omega)
    rw [hone] at hval
    obtain ⟨rp'', hrest, hlen'', hval'⟩ := ih (i + 1) rp' (by omega)
      (by rw [hlen', hval, Nat.add_assoc]; exact hlt)
    refine ⟨rp'', ?_, hlen''.trans hlen', by rw [hval', hval, Nat.add_assoc]⟩
    rw [Mpn.diagonal]
    simp only [hrow, Option.bind_eq_bind, Option.bind_some, hrest]

theorem Lawful.squareLimbs (h : mpn.Lawful) {ap : List Limb} (hap : 0 < ap.length) :
    ∃ rp, mpn.squareLimbs ap = some rp ∧ rp.length = 2 * ap.length ∧
      Words.val rp = Words.val ap * Words.val ap := by
  have hsquare : Words.val ap * Words.val ap < (2 ^ 64) ^ (2 * ap.length) := by
    rw [Nat.two_mul, pow_add]
    exact Nat.mul_lt_mul'' (Words.val_lt ap) (Words.val_lt ap)
  have hsum := Words.two_mul_offDiag_add_diag ap
  unfold Mpn.squareLimbs
  simp only
  split
  · exact ⟨_, rfl, h.length_mulN _ _ rfl hap, h.val_mulN _ _ rfl hap⟩
  · obtain ⟨rp, hoff, hlen, hval⟩ := h.offDiagonal ap 0 (List.replicate (2 * ap.length) 0)
      (by rw [List.length_replicate, Nat.mul_zero, Nat.zero_add])
      (fun j _ hj => by
        rw [List.getElem?_replicate, if_pos (by rwa [List.length_replicate] at hj)])
    have hzeros : Words.val (List.replicate (2 * ap.length) (0 : Limb)) = 0 :=
      Words.val_replicate_zero _
    rw [List.length_replicate] at hlen
    rw [hzeros, Nat.mul_zero, pow_zero, Nat.one_mul, Nat.zero_add] at hval
    have hshift := h.length_lshift rp 1 (by omega) (by decide) (by decide)
    have htwice := h.val_lshift rp 1 (by omega) (by decide) (by decide)
    rcases hout : mpn.lshift rp 1 with ⟨out, c⟩
    simp only [hout] at hshift htwice
    have hc : c.toNat = 0 := by
      rcases Nat.eq_zero_or_pos c.toNat with hc | hc
      · exact hc
      · have hmul := Nat.le_mul_of_pos_right ((2 ^ 64) ^ rp.length) hc
        rw [hlen] at hmul htwice
        omega
    rw [hc, Nat.mul_zero, Nat.add_zero, pow_one, hval] at htwice
    obtain ⟨rp', hdiag, hlen', hval'⟩ := h.diagonal ap 0 out (by omega) (by
      rw [hshift, hlen, Nat.mul_zero, pow_zero, Nat.one_mul, htwice]
      omega)
    refine ⟨rp', ?_, by omega, ?_⟩
    · simp only [hoff, hout, Option.bind_eq_bind, Option.bind_some]
      exact hdiag
    · rw [hval', htwice, Nat.mul_zero, pow_zero, Nat.one_mul]
      omega

end Mpn

variable {ι : Type} [DecidableEq ι] {mpn : Mpn} {st : Vars ι}

theorem MpVar.Wf.read {x : MpVar} (h : x.Wf) :
    x.read x.size.natAbs = some (seg x.d 0 x.size.natAbs) :=
  if_pos h.fits

theorem MpVar.toInt_mul_self (x : MpVar) : x.toInt * x.toInt = (x.mag * x.mag : ℕ) := by
  unfold MpVar.toInt
  split
  · rw [neg_mul_neg, Nat.cast_mul]
  · rw [Nat.cast_mul]

theorem MpVar.store_sizeDown {x : MpVar} {rp : List Limb} (hroom : rp.length ≤ x.alloc) :
    ∃ y, x.store rp = some y ∧
      ({ y with size := (Mpn.sizeDown rp rp.length : ℤ) } : MpVar).Wf ∧
      ({ y with size := (Mpn.sizeDown rp rp.length : ℤ) } : MpVar).toInt = Words.val rp := by
  have hsize := Mpn.sizeDown_eq rp
  rw [← Words.lastUsed_eq] at hsize
  obtain ⟨hwf, hmag⟩ := MpVar.wf_of_used (l := rp)
    (x := { x with d := MpVar.write x.d 0 rp, size := (Mpn.sizeDown rp rp.length : ℤ) })
    (seg_write x.d 0 rp) hroom hsize
  refine ⟨_, if_pos hroom, hwf, ?_⟩
  rw [MpVar.toInt_of_nonneg (Int.natCast_nonneg _)]
  exact congrArg Nat.cast hmag

theorem MpVar.toInt_of_size_eq_zero {x : MpVar} (h : x.size = 0) : x.toInt = 0 := by
  rw [MpVar.toInt_of_nonneg (Int.le_of_eq h.symm), MpVar.mag, h]
  rfl

/-- The variable `res` with the square of `arg` in it, with no zero limb at the top. -/
def Mpn.Squared (res arg : ι) (st st' : Vars ι) : Prop :=
  (st' res).Wf ∧ (st' res).toInt = (st arg).toInt * (st arg).toInt ∧ ∀ v, v ≠ res → st' v = st v

theorem Mpn.Lawful.mpzSquare (hmpn : mpn.Lawful) (init : MpVar) (res arg : ι)
    (harg : (st arg).Wf) (hsize : 2 * (st arg).size.natAbs < 2 ^ 31) :
    ∃ st', mpn.mpzSquare init res arg st = some st' ∧ Squared res arg st st' := by
  have hother : ∀ (x : MpVar) v, v ≠ res → Function.update st res x v = st v :=
    fun x v hv => Function.update_of_ne hv ..
  unfold Mpn.mpzSquare
  split
  · rename_i hzero
    have hnone : (MpVar.seg (st res).d 0 0).getLast? ≠ some 0#64 := by simp [MpVar.seg]
    refine ⟨_, rfl, ?_, ?_, hother _⟩
    · rw [Vars.setSize, Function.update_self]
      exact ⟨Nat.zero_le _, hnone⟩
    · rw [Vars.setSize, Function.update_self, MpVar.toInt_of_size_eq_zero hzero]
      exact MpVar.toInt_of_size_eq_zero rfl
  · rename_i hne
    have hlen := MpVar.length_seg (st arg).d 0 (st arg).size.natAbs
    obtain ⟨rp, hrp, hrlen, hval⟩ := hmpn.squareLimbs
      (Nat.lt_of_lt_of_eq (Int.natAbs_pos.mpr hne) hlen.symm)
    rw [hlen] at hrlen
    simp only [harg.read, hrp, if_pos hsize, Option.bind_eq_bind, Option.bind_some]
    generalize (if res = arg then init else st res) = r
    obtain ⟨y, hy, hwf, hint⟩ := MpVar.store_sizeDown
      (x := if r.alloc < 2 * (st arg).size.natAbs then r.realloc (2 * (st arg).size.natAbs) else r)
      (show rp.length ≤ _ by
        rw [hrlen]
        split
        · exact Nat.le_refl _
        · rename_i hge
          exact Nat.le_of_not_lt hge)
    have hmul : (st arg).toInt * (st arg).toInt = Words.val rp := by
      rw [hval, MpVar.toInt_mul_self, MpVar.mag]
    rw [← hrlen] at *
    refine ⟨_, by rw [hy]; rfl, ?_, ?_, hother _⟩
    · rw [Function.update_self]
      exact hwf
    · rw [Function.update_self, hint, hmul]

theorem Mpn.mpzSquare_eq_none (mpn : Mpn) (init : MpVar) (res : ι) {arg : ι}
    (hsize : 2 ^ 31 ≤ 2 * (st arg).size.natAbs) : mpn.mpzSquare init res arg st = none := by
  unfold Mpn.mpzSquare
  rw [if_neg (by omega)]
  exact if_neg (Nat.not_lt.mpr hsize)

/-- The square of the number in `arg`, also where `res` is `arg`, with no zero limb at the top, of
every number that has fewer than `2 ^ 30` limbs. -/
theorem Mpn.mpzSquare_iff (hmpn : mpn.Lawful) (init : MpVar) (res arg : ι) (harg : (st arg).Wf) :
    (∃ st', mpn.mpzSquare init res arg st = some st' ∧ Squared res arg st st') ↔
      (st arg).size.natAbs < 2 ^ 30 := by
  constructor
  · rintro ⟨st', hst', -⟩
    by_contra hsize
    rw [Mpn.mpzSquare_eq_none mpn init res (by omega)] at hst'
    cases hst'
  · intro hsize
    exact hmpn.mpzSquare init res arg harg (by omega)

/-- A variable with a negative number of 24 limbs. -/
def longNumber : Vars Unit := fun _ => ⟨-24, 24, fun _ => 5⟩

theorem Mpn.mpzSquare_longNumber :
    ∃ st', Mpn.byValue.mpzSquare ⟨0, 0, fun _ => 0⟩ () () longNumber = some st' ∧
      Squared () () longNumber st' :=
  (Mpn.mpzSquare_iff Mpn.byValue_lawful ⟨0, 0, fun _ => 0⟩ () () ⟨by decide, by decide⟩).mpr
    (by decide)

/-- A variable with a number of `2 ^ 30` limbs. -/
def hugeNumber : Vars Unit := fun _ => ⟨2 ^ 30, 2 ^ 30, fun _ => 1⟩

/-- The number is one, and no square comes out. -/
theorem Mpn.mpzSquare_hugeNumber : (hugeNumber ()).Wf ∧
    ¬ ∃ st', Mpn.byValue.mpzSquare ⟨0, 0, fun _ => 0⟩ () () hugeNumber = some st' ∧
      Squared () () hugeNumber st' := by
  refine ⟨⟨Nat.le_refl _, ?_⟩, ?_⟩
  · intro hlast
    have hmem := List.mem_of_getLast? hlast
    obtain ⟨j, -, hj⟩ := List.mem_map.mp hmem
    cases hj
  · rintro ⟨st', hst', -⟩
    rw [Mpn.mpzSquare_eq_none Mpn.byValue _ _ (Nat.le_refl _)] at hst'
    cases hst'

end Sfslite.Crypt
