import Mathlib.Algebra.BigOperators.ModEq
import Mathlib.Algebra.Polynomial.BigOperators

/-!
`polynomial`: coefficients from roots, in place, and evaluation from the top coefficient. The two
versions of each function are one definition; they differ in the reduction.
-/

namespace Sfslite.Crypt.Poly

open Polynomial (X C)

/-- `%= modulus`: GMP divides with the sign of the dividend, and not by zero. -/
def tdivR (modulus a : ℤ) : Option ℤ :=
  if modulus = 0 then none else some (a.tmod modulus)

/-- The loop over `j`, from `j` down to 1. -/
def coeffLoop (reduce : ℤ → Option ℤ) (root : ℤ) : (j : ℕ) → List ℤ → Option (List ℤ)
  | 0, coeffs => some coeffs
  | j + 1, coeffs => do
      let coeff ← coeffs[j + 1]?
      let coeff ← reduce (coeff * root)
      let below ← coeffs[j]?
      let coeff ← reduce (coeff * -1 + below)
      coeffLoop reduce root j (coeffs.set (j + 1) coeff)

/-- What one pass of the loop over `i` does, with `root` for `roots[i - 1]`. -/
def rootStep (reduce : ℤ → Option ℤ) (root : ℤ) (i : ℕ) (coeffs : List ℤ) :
    Option (List ℤ) := do
  let top ← coeffs[i - 1]?
  let coeffs ← coeffLoop reduce root (i - 1) (coeffs.set i top)
  let coeff ← coeffs[0]?
  let coeff ← reduce (coeff * root * -1)
  some (coeffs.set 0 coeff)

/-- The loop over `i`, with the roots from `i - 1` on. -/
def rootLoop (reduce : ℤ → Option ℤ) : (i : ℕ) → (roots coeffs : List ℤ) → Option (List ℤ)
  | _, [], coeffs => some coeffs
  | i, root :: roots, coeffs => do
      let coeffs ← rootStep reduce root i coeffs
      rootLoop reduce (i + 1) roots coeffs

/-- Both versions of `generate_coeffs`. -/
def generate (reduce : ℤ → Option ℤ) (roots : List ℤ) : Option (List ℤ) :=
  rootLoop reduce 1 roots (1 :: List.replicate roots.length 0)

/-- `generate_coeffs (roots, modulus)` -/
def generateCoeffsMod (roots : List ℤ) (modulus : ℤ) : Option (List ℤ) :=
  generate (tdivR modulus) roots

/-- The loop of `evaluate`, from `i - 1` down. -/
def evaluateLoop (reduce : ℤ → Option ℤ) (coeffs : List ℤ) (x : ℤ) : (i : ℕ) → ℤ → Option ℤ
  | 0, y => some y
  | i + 1, y => do
      let y ← reduce (y * x)
      let coeff ← coeffs[i]?
      evaluateLoop reduce coeffs x i (y + coeff)

/-- Both versions of `evaluate`; `none` where a coefficient is read that does not exist. -/
def evaluateWith (reduce : ℤ → Option ℤ) (coeffs : List ℤ) (x : ℤ) : Option ℤ := do
  let deg := coeffs.length
  let y ← coeffs[deg]?
  let y ← evaluateLoop reduce coeffs x deg y
  reduce y

/-- `evaluate (y, x)` -/
def evaluate (coeffs : List ℤ) (x : ℤ) : Option ℤ := evaluateWith some coeffs x

/-- `evaluate (y, x, modulus)` -/
def evaluateMod (coeffs : List ℤ) (x modulus : ℤ) : Option ℤ :=
  evaluateWith (tdivR modulus) coeffs x

noncomputable def ofRoots (roots : List ℤ) : Polynomial ℤ :=
  (roots.map fun r => X - C r).prod

/-- `coeffs` holds the coefficients of `p` modulo `m`, the constant one first. -/
structure Holds (m : ℤ) (coeffs : List ℤ) (p : Polynomial ℤ) : Prop where
  coeff : ∀ i, coeffs.getD i 0 ≡ p.coeff i [ZMOD m]
  natDegree_lt : p.natDegree < coeffs.length

/-- `reduce` gives a number that is the same modulo `m`; with `m = 0`, the number itself. -/
def Reduces (m : ℤ) (reduce : ℤ → Option ℤ) : Prop :=
  ∀ a, ∃ b, reduce a = some b ∧ b ≡ a [ZMOD m]

variable {m root x : ℤ} {reduce : ℤ → Option ℤ} {roots coeffs : List ℤ}

theorem reduces_tdivR (hm : m ≠ 0) : Reduces m (tdivR m) := by
  refine fun a => ⟨a.tmod m, if_neg hm, ?_⟩
  rw [Int.modEq_iff_dvd, Int.tmod_def, Int.sub_sub_self]
  exact Dvd.intro _ rfl

/-- The loop over `j` multiplies in place: it writes an index before the one below it. -/
theorem coeffLoop_spec (hreduce : Reduces m reduce) (root : ℤ) (coeffs : List ℤ) (j : ℕ)
    (hj : j < coeffs.length) :
    ∃ coeffs', coeffLoop reduce root j coeffs = some coeffs' ∧ coeffs'.length = coeffs.length ∧
      (∀ i, i = 0 ∨ j < i → coeffs'.getD i 0 = coeffs.getD i 0) ∧
      ∀ i, i < j → coeffs'.getD (i + 1) 0 ≡
        coeffs.getD i 0 - coeffs.getD (i + 1) 0 * root [ZMOD m] := by
  induction j generalizing coeffs with
  | zero => exact ⟨coeffs, rfl, rfl, fun _ _ => rfl, fun _ hi => absurd hi (Nat.not_lt_zero _)⟩
  | succ j ih =>
    obtain ⟨b, hb, hmodb⟩ := hreduce (coeffs.getD (j + 1) 0 * root)
    obtain ⟨c, hc, hmodc⟩ := hreduce (b * -1 + coeffs.getD j 0)
    obtain ⟨coeffs', hloop, hlen, hkeep, hbelow⟩ :=
      ih (coeffs.set (j + 1) c) (by rw [List.length_set]; omega)
    rw [List.length_set] at hlen
    have hread : ∀ i, i ≤ j + 1 → coeffs[i]? = some (coeffs.getD i 0) := by
      intro i hi
      rw [List.getD_eq_getElem?_getD, List.getElem?_eq_getElem (by omega)]
      rfl
    have hset : ∀ i, (coeffs.set (j + 1) c).getD i 0 =
        if j + 1 = i then c else coeffs.getD i 0 := by
      intro i
      rw [List.getD_eq_getElem?_getD, List.getElem?_set, List.getD_eq_getElem?_getD]
      split_ifs
      · rfl
      · rfl
    refine ⟨coeffs', ?_, hlen, fun i hi => ?_, fun i hi => ?_⟩
    · rw [coeffLoop, hread (j + 1) (Nat.le_refl _), hread j (Nat.le_succ _)]
      simp only [Option.bind_eq_bind, Option.bind_some, hb, hc]
      exact hloop
    · rw [hkeep i (by omega), hset, if_neg (by omega)]
    · rcases Nat.lt_or_eq_of_le (Nat.le_of_lt_succ hi) with hlt | rfl
      · have hval := hbelow i hlt
        rwa [hset, if_neg (by omega), hset, if_neg (by omega)] at hval
      · rw [hkeep (i + 1) (by omega), hset, if_pos rfl]
        have hval : coeffs.getD (i + 1) 0 * root * -1 + coeffs.getD i 0 =
            coeffs.getD i 0 - coeffs.getD (i + 1) 0 * root := by
          ring
        rw [← hval]
        exact hmodc.trans ((hmodb.mul_right (-1)).add_right _)

variable {p : Polynomial ℤ}

theorem rootStep_spec {i : ℕ} (hreduce : Reduces m reduce) (root : ℤ)
    (hholds : Holds m coeffs p) (hdeg : p.natDegree < i) (hi : i < coeffs.length) :
    ∃ coeffs', rootStep reduce root i coeffs = some coeffs' ∧ coeffs'.length = coeffs.length ∧
      coeffs'.getD i 0 = coeffs.getD (i - 1) 0 ∧ Holds m coeffs' (p * (X - C root)) := by
  have hset : ∀ (l : List ℤ) (k : ℕ) (c : ℤ), k < l.length → ∀ n, (l.set k c).getD n 0 =
      if k = n then c else l.getD n 0 := by
    intro l k c hk n
    rw [List.getD_eq_getElem?_getD, List.getElem?_set, List.getD_eq_getElem?_getD]
    split_ifs
    · rfl
    · rfl
  have hread : ∀ (l : List ℤ) (k : ℕ), k < l.length → l[k]? = some (l.getD k 0) := by
    intro l k hk
    rw [List.getD_eq_getElem?_getD, List.getElem?_eq_getElem hk]
    rfl
  obtain ⟨coeffs₂, hloop, hlen, hkeep, hbelow⟩ := coeffLoop_spec hreduce root
    (coeffs.set i (coeffs.getD (i - 1) 0)) (i - 1) (by
      rw [List.length_set]
      omega)
  rw [List.length_set] at hlen
  obtain ⟨c, hc, hmodc⟩ := hreduce (coeffs₂.getD 0 0 * root * -1)
  refine ⟨coeffs₂.set 0 c, ?_, by rw [List.length_set, hlen], ?_, ?_⟩
  · rw [rootStep, hread coeffs (i - 1) (by omega)]
    simp only [Option.bind_eq_bind, Option.bind_some, hloop]
    rw [hread coeffs₂ 0 (by omega)]
    simp only [Option.bind_some, hc]
  · rw [hset coeffs₂ 0 c (by omega), if_neg (by omega), hkeep i (Or.inr (by omega)),
      hset _ _ _ hi, if_pos rfl]
  · have hnat : (p * (X - C root)).natDegree ≤ p.natDegree + 1 :=
      Nat.le_trans Polynomial.natDegree_mul_le
        (Nat.add_le_add_left (Polynomial.natDegree_X_sub_C_le root) _)
    have hzero : ∀ n, i ≤ n → p.coeff n = 0 := fun n hn =>
      Polynomial.coeff_eq_zero_of_natDegree_lt (Nat.lt_of_lt_of_le hdeg hn)
    refine ⟨fun n => ?_, by rw [List.length_set, hlen]; omega⟩
    rw [hset coeffs₂ 0 c (by omega)]
    cases n with
    | zero =>
      have hfirst : coeffs₂.getD 0 0 = coeffs.getD 0 0 := by
        rw [hkeep 0 (Or.inl rfl), hset _ _ _ hi, if_neg (by omega)]
      have hcoeff : (p * (X - C root)).coeff 0 = p.coeff 0 * root * -1 := by
        simp [Polynomial.mul_coeff_zero]
      rw [if_pos rfl, hcoeff]
      rw [hfirst] at hmodc
      exact hmodc.trans (((hholds.coeff 0).mul_right root).mul_right (-1))
    | succ n =>
      rw [if_neg (Nat.succ_ne_zero n).symm, Polynomial.coeff_mul_X_sub_C]
      rcases Nat.lt_trichotomy (n + 1) i with hlt | rfl | hgt
      · have hval := hbelow n (by omega)
        rw [hset _ _ _ hi, if_neg (by omega), hset _ _ _ hi, if_neg (by omega)] at hval
        exact hval.trans ((hholds.coeff n).sub ((hholds.coeff (n + 1)).mul_right root))
      · -- the new top coefficient
        rw [hkeep (n + 1) (Or.inr (by omega)), hset _ _ _ hi, if_pos rfl,
          hzero (n + 1) (Nat.le_refl _), Int.zero_mul, Int.sub_zero]
        exact hholds.coeff n
      · rw [hkeep (n + 1) (Or.inr (by omega)), hset _ _ _ hi, if_neg (by omega),
          hzero n (by omega), Int.zero_sub, hzero (n + 1) (by omega), Int.zero_mul]
        have hval := hholds.coeff (n + 1)
        rwa [hzero (n + 1) (by omega)] at hval

theorem rootLoop_spec {i : ℕ} (hreduce : Reduces m reduce) (roots : List ℤ)
    (hholds : Holds m coeffs p) (hdeg : p.natDegree < i) (hlen : i + roots.length ≤ coeffs.length) :
    ∃ coeffs', rootLoop reduce i roots coeffs = some coeffs' ∧ coeffs'.length = coeffs.length ∧
      coeffs'.getD (i - 1 + roots.length) 0 = coeffs.getD (i - 1) 0 ∧
      Holds m coeffs' (p * ofRoots roots) := by
  induction roots generalizing i coeffs p with
  | nil => exact ⟨coeffs, rfl, rfl, rfl, by simpa [ofRoots] using hholds⟩
  | cons root roots ih =>
    rw [List.length_cons] at hlen
    obtain ⟨coeffs₁, hstep, hlen₁, htop₁, hholds₁⟩ :=
      rootStep_spec hreduce root hholds hdeg (by omega)
    have hdeg₁ : (p * (X - C root)).natDegree < i + 1 :=
      Nat.lt_of_le_of_lt (Nat.le_trans Polynomial.natDegree_mul_le
        (Nat.add_le_add_left (Polynomial.natDegree_X_sub_C_le root) _)) (by omega)
    obtain ⟨coeffs', hloop, hlen', htop, hholds'⟩ := ih hholds₁ hdeg₁ (by omega)
    refine ⟨coeffs', ?_, hlen'.trans hlen₁, ?_, ?_⟩
    · rw [rootLoop, hstep]
      exact hloop
    · have hindex : i - 1 + (root :: roots).length = i + 1 - 1 + roots.length := by
        rw [List.length_cons]
        omega
      rw [hindex, htop, ← htop₁, Nat.add_sub_cancel]
    · rw [ofRoots, List.map_cons, List.prod_cons, ← mul_assoc]
      exact hholds'

/-- What `generate_coeffs` builds are the coefficients of the product, one more than roots; the
top one is 1 itself. -/
theorem generate_spec (hreduce : Reduces m reduce) (roots : List ℤ) :
    ∃ coeffs, generate reduce roots = some coeffs ∧ coeffs.length = roots.length + 1 ∧
      coeffs.getD roots.length 0 = 1 ∧ Holds m coeffs (ofRoots roots) := by
  have hone : Holds m (1 :: List.replicate roots.length 0) 1 := by
    refine ⟨fun i => ?_, by simp⟩
    cases i with
    | zero => simp
    | succ i =>
      rw [List.getD_cons_succ, Polynomial.coeff_one, if_neg (Nat.succ_ne_zero i),
        List.getD_eq_getElem?_getD, List.getElem?_replicate]
      split_ifs
      · exact Int.ModEq.refl 0
      · exact Int.ModEq.refl 0
  obtain ⟨coeffs, hloop, hlen, htop, hholds⟩ :=
    rootLoop_spec (i := 1) hreduce roots hone (by simp) (by simp; omega)
  rw [one_mul] at hholds
  exact ⟨coeffs, hloop, by simpa using hlen, by simpa using htop, hholds⟩

theorem Holds.eval (h : Holds m coeffs p) (x : ℤ) :
    ∑ k ∈ Finset.range coeffs.length, coeffs.getD k 0 * x ^ k ≡ p.eval x [ZMOD m] := by
  rw [Polynomial.eval_eq_sum_range' h.natDegree_lt]
  exact Int.ModEq.sum fun k _ => (h.coeff k).mul_right _

theorem evaluateWith_eq_none (reduce : ℤ → Option ℤ) (coeffs : List ℤ) (x : ℤ) :
    evaluateWith reduce coeffs x = none := by
  rw [evaluateWith, List.getElem?_eq_none (Nat.le_refl _)]
  rfl

section Pm

variable {Ctext : Type}

/-- What `pm.C` uses of a key. -/
structure Homoenc (Ctext : Type) where
  ptextModulus : ℤ
  encrypt : ℤ → Option Ctext
  mult : Ctext → ℤ → Ctext
  add : Ctext → Ctext → Ctext

variable {sk : Homoenc Ctext}

/-- `decrypt` undoes `encrypt`, and takes `mult` and `add` to the product and the sum. -/
structure Homoenc.Decrypts (sk : Homoenc Ctext) (decrypt : Ctext → ℤ) : Prop where
  encrypt : ∀ a c, sk.encrypt a = some c → decrypt c ≡ a [ZMOD sk.ptextModulus]
  mult : ∀ c a, decrypt (sk.mult c a) ≡ decrypt c * a [ZMOD sk.ptextModulus]
  add : ∀ c c', decrypt (sk.add c c') ≡ decrypt c + decrypt c' [ZMOD sk.ptextModulus]

/-- The loop of `set_polynomial`. -/
def encryptLoop (sk : Homoenc Ctext) : List ℤ → Option (List Ctext)
  | [] => some []
  | coeff :: pcoeffs => do
      let c ← sk.encrypt coeff
      let coeffs ← encryptLoop sk pcoeffs
      some (c :: coeffs)

/-- `pm_client::set_polynomial`: the top coefficient, which has to be 1, is not sent. -/
def setPolynomial (sk : Homoenc Ctext) (inputs : List ℤ) : Option (List Ctext) := do
  let pcoeffs ← generateCoeffsMod inputs sk.ptextModulus
  let top ← pcoeffs[pcoeffs.length - 1]?
  if top = 1 then encryptLoop sk (pcoeffs.take (pcoeffs.length - 1)) else none

/-- The loop of `pm_server::evaluate_polynomial`, from the encrypted 1. -/
def evaluatePolynomial (pk : Homoenc Ctext) (ccoeffs : List Ctext) (px : ℤ) :
    (deg : ℕ) → Ctext → Option Ctext
  | 0, cy => some cy
  | deg + 1, cy => do
      let ccoeff ← ccoeffs[deg]?
      evaluatePolynomial pk ccoeffs px deg (pk.add (pk.mult cy px) ccoeff)

theorem encryptLoop_spec {decrypt : Ctext → ℤ} (hsk : sk.Decrypts decrypt) {pcoeffs : List ℤ}
    {ccoeffs : List Ctext} (h : encryptLoop sk pcoeffs = some ccoeffs) :
    ccoeffs.length = pcoeffs.length ∧ ∀ k, k < pcoeffs.length → ∃ c, ccoeffs[k]? = some c ∧
      decrypt c ≡ pcoeffs.getD k 0 [ZMOD sk.ptextModulus] := by
  induction pcoeffs generalizing ccoeffs with
  | nil =>
    obtain rfl := Option.some.inj h
    exact ⟨rfl, fun k hk => absurd hk (Nat.not_lt_zero k)⟩
  | cons coeff pcoeffs ih =>
    obtain ⟨c, hc, hrest⟩ := Option.bind_eq_some_iff.mp h
    obtain ⟨coeffs, hcoeffs, hcons⟩ := Option.bind_eq_some_iff.mp hrest
    obtain rfl := Option.some.inj hcons
    obtain ⟨hlen, hread⟩ := ih hcoeffs
    refine ⟨congrArg (· + 1) hlen, fun k hk => ?_⟩
    cases k with
    | zero => exact ⟨c, rfl, hsk.encrypt coeff c hc⟩
    | succ k => exact hread k (Nat.lt_of_succ_lt_succ hk)

theorem evaluatePolynomial_spec {decrypt : Ctext → ℤ} (hsk : sk.Decrypts decrypt)
    {ccoeffs : List Ctext} {n : ℕ} (coeffs : List ℤ) (x : ℤ)
    (hread : ∀ k, k < n → ∃ c, ccoeffs[k]? = some c ∧
      decrypt c ≡ coeffs.getD k 0 [ZMOD sk.ptextModulus]) (deg : ℕ) (hdeg : deg ≤ n)
    (cy : Ctext) :
    ∃ res, evaluatePolynomial sk ccoeffs x deg cy = some res ∧
      decrypt res ≡ decrypt cy * x ^ deg + ∑ k ∈ Finset.range deg, coeffs.getD k 0 * x ^ k
        [ZMOD sk.ptextModulus] := by
  induction deg generalizing cy with
  | zero => exact ⟨cy, rfl, by simp⟩
  | succ deg ih =>
    obtain ⟨c, hc, hdecrypt⟩ := hread deg hdeg
    obtain ⟨res, hres, hmod⟩ := ih (Nat.le_of_succ_le hdeg) (sk.add (sk.mult cy x) c)
    refine ⟨res, ?_, ?_⟩
    · rw [evaluatePolynomial, hc]
      exact hres
    · have hstep := (hsk.add (sk.mult cy x) c).trans ((hsk.mult cy x).add hdecrypt)
      have hhorner : (decrypt cy * x + coeffs.getD deg 0) * x ^ deg +
          ∑ k ∈ Finset.range deg, coeffs.getD k 0 * x ^ k =
            decrypt cy * x ^ (deg + 1) +
              ∑ k ∈ Finset.range (deg + 1), coeffs.getD k 0 * x ^ k := by
        rw [Finset.sum_range_succ]
        ring
      rw [← hhorner]
      exact hmod.trans ((hstep.mul_right _).add_right _)

/-- The server, which starts at the 1 that is not sent, evaluates the product at its input. -/
theorem evaluatePolynomial_setPolynomial {decrypt : Ctext → ℤ} (hsk : sk.Decrypts decrypt)
    (hmodulus : sk.ptextModulus ≠ 0) {inputs : List ℤ} {ccoeffs : List Ctext} {encone : Ctext}
    (hset : setPolynomial sk inputs = some ccoeffs) (hone : sk.encrypt 1 = some encone) (px : ℤ) :
    ∃ cy, evaluatePolynomial sk ccoeffs px ccoeffs.length encone = some cy ∧
      decrypt cy ≡ (ofRoots inputs).eval px [ZMOD sk.ptextModulus] := by
  obtain ⟨pcoeffs, hgenerate, hlen, htop, hholds⟩ := generate_spec (reduces_tdivR hmodulus) inputs
  obtain ⟨pcoeffs', hpcoeffs, hrest⟩ := Option.bind_eq_some_iff.mp hset
  obtain rfl := Option.some.inj (hgenerate.symm.trans hpcoeffs)
  obtain ⟨top, -, hloop⟩ := Option.bind_eq_some_iff.mp hrest
  rw [hlen, Nat.add_sub_cancel] at hloop
  split_ifs at hloop
  obtain ⟨hsent, hread⟩ := encryptLoop_spec hsk hloop
  have htake : (pcoeffs.take inputs.length).length = inputs.length := by
    rw [List.length_take, hlen, Nat.min_eq_left (Nat.le_succ _)]
  rw [htake] at hsent hread
  obtain ⟨cy, hcy, hmod⟩ := evaluatePolynomial_spec hsk (pcoeffs.take inputs.length) px
    hread inputs.length (Nat.le_refl _) encone
  refine ⟨cy, hsent ▸ hcy, hmod.trans ?_⟩
  have heval := hholds.eval px
  rw [hlen, Finset.sum_range_succ, htop, Int.add_comm] at heval
  have hsum : ∑ k ∈ Finset.range inputs.length, (pcoeffs.take inputs.length).getD k 0 * px ^ k =
      ∑ k ∈ Finset.range inputs.length, pcoeffs.getD k 0 * px ^ k := by
    refine Finset.sum_congr rfl fun k hk => ?_
    rw [List.getD_eq_getElem?_getD, List.getElem?_take_of_lt (Finset.mem_range.mp hk),
      ← List.getD_eq_getElem?_getD]
  rw [hsum]
  exact (((hsk.encrypt 1 encone hone).mul_right _).add_right _).trans heval

def plainKey : Homoenc ℤ := ⟨7, some, (· * ·), (· + ·)⟩

/-- The client's input is 2 and the server's is 9, which is the same modulo 7. -/
theorem evaluatePolynomial_setPolynomial_two :
    ∃ cy, evaluatePolynomial plainKey [-2] 9 1 1 = some cy ∧ cy ≡ 0 [ZMOD 7] := by
  have hkey : plainKey.Decrypts id :=
    ⟨fun a c h => by rw [← Option.some.inj h, id_eq], fun _ _ => rfl, fun _ _ => rfl⟩
  have hset : setPolynomial plainKey [2] = some [-2] := by decide
  obtain ⟨cy, hcy, heval⟩ := evaluatePolynomial_setPolynomial hkey (by decide) hset rfl 9
  refine ⟨cy, hcy, heval.trans ?_⟩
  simp [ofRoots, plainKey, Int.ModEq]

end Pm

/-- The coefficients are those of the product of the `X - r`, and `evaluate` reads only them and
gives the value there. -/
def Documented (roots : List ℤ) (m x : ℤ) : Prop :=
  ∃ coeffs y, generateCoeffsMod roots m = some coeffs ∧ Holds m coeffs (ofRoots roots) ∧
    evaluateMod coeffs x m = some y ∧ y ≡ (ofRoots roots).eval x [ZMOD m]

/-- `evaluate` never does what it should; the coefficients (of fewer roots than an `int` counts)
are right. -/
theorem evaluate_not_documented (roots : List ℤ) (m x : ℤ) :
    ¬ Documented roots m x ∧
      (m ≠ 0 → roots.length + 1 < 2 ^ 31 →
        ∃ coeffs, generateCoeffsMod roots m = some coeffs ∧ coeffs.length = roots.length + 1 ∧
          Holds m coeffs (ofRoots roots) ∧ evaluateMod coeffs x m = none) := by
  refine ⟨?_, fun hm _ => ?_⟩
  · rintro ⟨coeffs, y, -, -, heval, -⟩
    rw [evaluateMod, evaluateWith_eq_none] at heval
    exact absurd heval (by simp)
  · obtain ⟨coeffs, hgenerate, hlen, -, hholds⟩ := generate_spec (reduces_tdivR hm) roots
    exact ⟨coeffs, hgenerate, hlen, hholds, evaluateWith_eq_none _ _ _⟩

/-- One root, 2, modulo 7, evaluated there. -/
theorem evaluate_two : ¬ ∀ (roots : List ℤ) (m x : ℤ), m ≠ 0 → Documented roots m x := by
  intro h
  obtain ⟨coeffs, y, hgenerate, -, heval, -⟩ := h [2] 7 2 (by decide)
  have hcoeffs : generateCoeffsMod [2] 7 = some [-2, 1] := by decide
  obtain rfl := Option.some.inj (hgenerate.symm.trans hcoeffs)
  revert heval
  have hnone : evaluateMod [-2, 1] 2 7 = none := by decide
  rw [hnone]
  exact fun heval => absurd heval (by simp)

end Sfslite.Crypt.Poly
