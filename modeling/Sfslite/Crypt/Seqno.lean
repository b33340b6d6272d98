import Mathlib.Data.Vector.Basic

/-!
The window of sequence numbers: `seqno.C`. A window of `n` bits is kept in memory, so that
`3 * nbits` stays in range, and no sum exceeds the number presented.
-/

namespace Sfslite.Crypt

/-- `nbits` is `n`; the two bit vectors follow each other from `bottom` on. -/
structure Seqcheck (n : ℕ) where
  bottom : ℕ
  bv0 : Vector Bool n
  bv1 : Vector Bool n
deriving DecidableEq

namespace Seqcheck

variable {n : ℕ}

def zeros : Vector Bool n := Vector.replicate n false

def init (n : ℕ) : Seqcheck n := ⟨0, zeros, zeros⟩

/-- The first part of `check`: the window is moved up to `bottom + seqno` where that is beyond it,
and `seqno` is counted from the new bottom. -/
def advance (s : Seqcheck n) (seqno : ℕ) : Seqcheck n × ℕ :=
  if 3 * n ≤ seqno then (⟨s.bottom + seqno, zeros, zeros⟩, 0)
  else if 2 * n ≤ seqno then (⟨s.bottom + n, s.bv1, zeros⟩, seqno - n)
  else (s, seqno)

/-- The test of a bit and its setting. Outside of the vector there is no bit to read. -/
def mark (v : Vector Bool n) (seqno : ℕ) : Option (Bool × Vector Bool n) :=
  v[seqno]?.map fun seen => if seen then (false, v) else (true, v.setIfInBounds seqno true)

def check (s : Seqcheck n) (seqno : ℕ) : Option (Bool × Seqcheck n) :=
  if seqno < s.bottom then some (false, s)
  else
    let (s, seqno) := s.advance (seqno - s.bottom)
    if n ≤ seqno then (mark s.bv1 (seqno - n)).map fun (ok, v) => (ok, { s with bv1 := v })
    else (mark s.bv0 seqno).map fun (ok, v) => (ok, { s with bv0 := v })

/-- What has been accepted, and the last number that emptied both vectors. -/
structure History where
  accepted : List ℕ
  jump : ℕ
deriving DecidableEq

def present (st : Seqcheck n × History) (seqno : ℕ) : Option (Seqcheck n × History) :=
  (st.1.check seqno).map fun (ok, s) =>
    (s, { accepted := if ok then seqno :: st.2.accepted else st.2.accepted
          jump := if st.1.bottom + 3 * n ≤ seqno then seqno else st.2.jump })

def start (n : ℕ) : Seqcheck n × History := (init n, ⟨[], 0⟩)

/-- What the answer to `seqno` has to be after the numbers of `h`. -/
structure Answers (s : Seqcheck n) (h : History) (seqno : ℕ) (ok : Bool) (s' : Seqcheck n) :
    Prop where
  once : seqno ∈ h.accepted → ok = false
  newest : (∀ x ∈ h.accepted, x < seqno) → ok = true
  inside : seqno ∉ h.accepted → h.jump ≤ seqno → (∀ x ∈ h.accepted, x ≤ seqno + n) → ok = true
  unchanged : ok = false → s' = s

/-- The bits of `v` say which of the numbers from `base` on are in `acc`. -/
def Marks (v : Vector Bool n) (base : ℕ) (acc : List ℕ) : Prop :=
  ∀ i, i < n → v[i]? = some (decide (base + i ∈ acc))

structure Window (s : Seqcheck n) (acc : List ℕ) : Prop where
  low : Marks s.bv0 s.bottom acc
  high : Marks s.bv1 (s.bottom + n) acc
  below : ∀ x ∈ acc, x < s.bottom + 2 * n

variable {s : Seqcheck n} {acc : List ℕ} {h : History} {v : Vector Bool n} {base seqno : ℕ}

theorem marks_zeros (hacc : ∀ x ∈ acc, x < base) : Marks (zeros : Vector Bool n) base acc := by
  intro i hi
  have hnot : base + i ∉ acc := by
    intro hmem
    have hlt := hacc _ hmem
    omega
  simp [zeros, hi, hnot]

theorem Marks.cons (hm : Marks v base acc) (hout : seqno < base ∨ base + n ≤ seqno) :
    Marks v base (seqno :: acc) := by
  intro i hi
  have hne : base + i ≠ seqno := by omega
  rw [hm i hi]
  simp [hne]

theorem Marks.mark (hm : Marks v base acc) {i : ℕ} (hi : i < n) :
    ∃ v', Seqcheck.mark v i = some (decide (base + i ∉ acc), v') ∧
      (base + i ∈ acc → v' = v) ∧ (base + i ∉ acc → Marks v' base ((base + i) :: acc)) := by
  unfold Seqcheck.mark
  rw [hm i hi]
  by_cases hmem : base + i ∈ acc
  · refine ⟨v, by simp [hmem], fun _ => rfl, fun hnot => absurd hmem hnot⟩
  · refine ⟨v.setIfInBounds i true, by simp [hmem], fun hin => absurd hin hmem, fun _ j hj => ?_⟩
    rw [Vector.getElem?_setIfInBounds]
    by_cases hij : i = j
    · subst hij
      simp [hi]
    · have hne : j ≠ i := Ne.symm hij
      rw [if_neg hij, hm j hj]
      simp [hne]

theorem Window.advance (hw : Window s acc) (hn : 0 < n) (d : ℕ) :
    Window (s.advance d).1 acc ∧ (s.advance d).1.bottom + (s.advance d).2 = s.bottom + d ∧
      (s.advance d).2 < 2 * n ∧ (d < 2 * n → s.advance d = (s, d)) := by
  unfold Seqcheck.advance
  split
  · have hacc : ∀ x ∈ acc, x < s.bottom + d := by
      intro x hx
      have hlt := hw.below x hx
      omega
    refine ⟨⟨marks_zeros hacc, marks_zeros ?_, ?_⟩, by simp, by simp [hn], by omega⟩
    · intro x hx
      exact Nat.lt_of_lt_of_le (hacc x hx) (Nat.le_add_right _ _)
    · intro x hx
      exact Nat.lt_of_lt_of_le (hacc x hx) (Nat.le_add_right _ _)
  · split
    · refine ⟨⟨hw.high, marks_zeros ?_, ?_⟩, by simp only; omega, by simp only; omega, by omega⟩
      · intro x hx
        have hlt := hw.below x hx
        simp only
        omega
      · intro x hx
        have hlt := hw.below x hx
        simp only
        omega
    · exact ⟨hw, rfl, by simp only; omega, fun _ => rfl⟩

theorem bottom_advance (s : Seqcheck n) (d : ℕ) :
    3 * n ≤ d ∧ (s.advance d).1.bottom = s.bottom + d ∨
      d < 3 * n ∧ 2 * n ≤ d ∧ (s.advance d).1.bottom = s.bottom + n ∨
      d < 3 * n ∧ (s.advance d).1.bottom = s.bottom := by
  unfold Seqcheck.advance
  split
  · left
    exact ⟨by assumption, rfl⟩
  · right
    split
    · left
      exact ⟨by omega, by assumption, rfl⟩
    · right
      exact ⟨by omega, rfl⟩

theorem Window.check (hw : Window s acc) (hn : 0 < n) (seqno : ℕ) :
    ∃ s', s.check seqno = some (decide (s.bottom ≤ seqno ∧ seqno ∉ acc), s') ∧
      (¬ (s.bottom ≤ seqno ∧ seqno ∉ acc) → s' = s) ∧
      (s.bottom ≤ seqno ∧ seqno ∉ acc → Window s' (seqno :: acc) ∧
        s'.bottom = (s.advance (seqno - s.bottom)).1.bottom) := by
  unfold Seqcheck.check
  split
  · rename_i hlt
    have hnot : ¬ (s.bottom ≤ seqno ∧ seqno ∉ acc) := by omega
    exact ⟨s, by simp [hnot], fun _ => rfl, fun hin => absurd hin hnot⟩
  · rename_i hge
    have hge' : s.bottom ≤ seqno := Nat.le_of_not_lt hge
    obtain ⟨hw', hsum, hlt, hstay⟩ := hw.advance hn (seqno - s.bottom)
    have hseen : seqno ∈ acc → s.advance (seqno - s.bottom) = (s, seqno - s.bottom) := by
      intro hmem
      apply hstay
      have hbelow := hw.below seqno hmem
      omega
    rw [Nat.add_sub_cancel' hge'] at hsum
    rcases hadv : s.advance (seqno - s.bottom) with ⟨t, d⟩
    rw [hadv] at hw' hsum hlt hseen
    simp only at hw' hsum hlt hseen ⊢
    split
    · rename_i hhigh
      obtain ⟨v', hmark, hold, hnew⟩ := hw'.high.mark (i := d - n) (by omega)
      have hidx : t.bottom + n + (d - n) = seqno := by omega
      rw [hidx] at hmark hold hnew
      refine ⟨{ t with bv1 := v' }, by simp [hmark, hge'], ?_, ?_⟩
      · intro hnot
        have hmem : seqno ∈ acc := by
          by_contra hmem
          exact hnot ⟨hge', hmem⟩
        have hts := congrArg Prod.fst (hseen hmem)
        rw [hold hmem]
        exact hts
      · rintro ⟨_, hmem⟩
        refine ⟨⟨hw'.low.cons (Or.inr (by omega)), hnew hmem, ?_⟩, rfl⟩
        intro x hx
        rcases List.mem_cons.mp hx with rfl | hx
        · exact (by omega : x < t.bottom + 2 * n)
        · exact hw'.below x hx
    · rename_i hlow
      obtain ⟨v', hmark, hold, hnew⟩ := hw'.low.mark (i := d) (by omega)
      rw [hsum] at hmark hold hnew
      refine ⟨{ t with bv0 := v' }, by simp [hmark, hge'], ?_, ?_⟩
      · intro hnot
        have hmem : seqno ∈ acc := by
          by_contra hmem
          exact hnot ⟨hge', hmem⟩
        have hts := congrArg Prod.fst (hseen hmem)
        rw [hold hmem]
        exact hts
      · rintro ⟨_, hmem⟩
        refine ⟨⟨hnew hmem, hw'.high.cons (Or.inl (by omega)), ?_⟩, rfl⟩
        intro x hx
        rcases List.mem_cons.mp hx with rfl | hx
        · exact (by omega : x < t.bottom + 2 * n)
        · exact hw'.below x hx

structure Inv (st : Seqcheck n × History) : Prop where
  window : Window st.1 st.2.accepted
  nodup : st.2.accepted.Nodup
  top : st.1.bottom = 0 ∨ ∃ x ∈ st.2.accepted, st.1.bottom ≤ x
  reach : st.1.bottom = st.2.jump ∨ ∃ x ∈ st.2.accepted, st.1.bottom + n ≤ x

variable {st : Seqcheck n × History}

theorem inv_start (n : ℕ) : Inv (start n) where
  window := ⟨marks_zeros (by simp [start]), marks_zeros (by simp [start]), by simp [start]⟩
  nodup := List.nodup_nil
  top := Or.inl rfl
  reach := Or.inl rfl

theorem Inv.present (hi : Inv st) (hn : 0 < n) (seqno : ℕ) :
    ∃ st', Seqcheck.present st seqno = some st' ∧ Inv st' := by
  obtain ⟨s, h⟩ := st
  obtain ⟨s', hcheck, hkeep, hnew⟩ := hi.window.check hn seqno
  unfold Seqcheck.present
  simp only at hcheck hkeep hnew ⊢
  rw [hcheck]
  refine ⟨_, rfl, ?_⟩
  by_cases hacc : s.bottom ≤ seqno ∧ seqno ∉ h.accepted
  · obtain ⟨hw', hbottom⟩ := hnew hacc
    simp only [hacc, not_false_eq_true, and_self, decide_true, if_true]
    refine ⟨hw', List.nodup_cons.mpr ⟨hacc.2, hi.nodup⟩, ?_, ?_⟩
    · right
      have hle : s'.bottom ≤ seqno := by
        rcases bottom_advance s (seqno - s.bottom) with hadv | hadv | hadv <;> omega
      exact ⟨seqno, List.mem_cons_self .., hle⟩
    · rcases bottom_advance s (seqno - s.bottom) with hadv | hadv | hadv
      · left
        rw [hbottom, hadv.2, if_pos (by omega)]
        exact Nat.add_sub_cancel' hacc.1
      · right
        have hle : s'.bottom + n ≤ seqno := by omega
        exact ⟨seqno, List.mem_cons_self .., hle⟩
      · rw [hbottom, hadv.2, if_neg (by omega)]
        apply hi.reach.imp_right
        rintro ⟨x, hx, hle⟩
        exact ⟨x, List.mem_cons_of_mem _ hx, hle⟩
  · have hjump : ¬ s.bottom + 3 * n ≤ seqno := by
      intro hle
      apply hacc
      refine ⟨by omega, fun hmem => ?_⟩
      have hlt := hi.window.below seqno hmem
      simp only at hlt
      omega
    rw [hkeep hacc]
    simp only [hacc, decide_false, Bool.false_eq_true, if_false, hjump]
    exact hi

theorem Inv.answers (hi : Inv st) (hn : 0 < n) (seqno : ℕ) :
    ∃ ok s', st.1.check seqno = some (ok, s') ∧ Answers st.1 st.2 seqno ok s' := by
  obtain ⟨s, h⟩ := st
  obtain ⟨s', hcheck, hkeep, _⟩ := hi.window.check hn seqno
  simp only at hcheck hkeep ⊢
  refine ⟨_, s', hcheck, ?_, ?_, ?_, ?_⟩
  · intro hmem
    simp [hmem]
  · intro hlt
    have hbottom : s.bottom ≤ seqno := by
      rcases hi.top with hzero | ⟨x, hx, hle⟩
      · simp only at hzero
        omega
      · exact Nat.le_of_lt (Nat.lt_of_le_of_lt hle (hlt x hx))
    have hmem : seqno ∉ h.accepted := fun hmem => Nat.lt_irrefl _ (hlt seqno hmem)
    simp [hbottom, hmem]
  · intro hmem hjump hwithin
    have hbottom : s.bottom ≤ seqno := by
      rcases hi.reach with heq | ⟨x, hx, hle⟩
      · exact Nat.le_trans (Nat.le_of_eq heq) hjump
      · have hxle := hwithin x hx
        simp only at hle
        omega
    simp [hbottom, hmem]
  · intro hno
    exact hkeep (of_decide_eq_false hno)

/-- Whatever has been presented to a window of `n` bits, no number was accepted twice, and the
next one gets the answer it has to. -/
def Serves (n : ℕ) : Prop :=
  ∀ seqs : List ℕ, ∃ st, seqs.foldlM present (start n) = some st ∧ st.2.accepted.Nodup ∧
    ∀ seqno, ∃ ok s', st.1.check seqno = some (ok, s') ∧ Answers st.1 st.2 seqno ok s'

theorem Inv.presented (hi : Inv st) (hn : 0 < n) (seqs : List ℕ) :
    ∃ st', seqs.foldlM Seqcheck.present st = some st' ∧ Inv st' := by
  induction seqs generalizing st with
  | nil => exact ⟨st, rfl, hi⟩
  | cons seqno seqs ih =>
    obtain ⟨st', hstep, hi'⟩ := hi.present hn seqno
    obtain ⟨st'', hrest, hi''⟩ := ih hi'
    refine ⟨st'', ?_, hi''⟩
    rw [List.foldlM_cons, hstep]
    exact hrest

theorem check_init_zero : (init 0).check 0 = none := by decide

theorem not_serves_zero : ¬ Serves 0 := by
  intro h
  obtain ⟨st, hst, _, hcheck⟩ := h []
  obtain ⟨ok, s', hnext, _⟩ := hcheck 0
  cases hst
  rw [start, check_init_zero] at hnext
  cases hnext

theorem serves_iff (n : ℕ) : Serves n ↔ 0 < n := by
  constructor
  · intro h
    apply Nat.pos_of_ne_zero
    rintro rfl
    exact not_serves_zero h
  · intro hn seqs
    obtain ⟨st, hst, hi⟩ := (inv_start n).presented hn seqs
    exact ⟨st, hst, hi.nodup, hi.answers hn⟩

/-- The first number presented to a window of size 0 is read outside of the bit vector. -/
theorem not_serves_every_size : ¬ ∀ n, Serves n := fun h => not_serves_zero (h 0)

end Seqcheck

end Sfslite.Crypt
