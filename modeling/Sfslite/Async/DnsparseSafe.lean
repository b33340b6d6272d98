import Mathlib.Tactic.Cases
import Sfslite.Async.Dnsparse

/-!
When `rrparse` and the loops over it stay inside of a packet and its records.
-/

namespace Sfslite.Async.Dnsparse

open Sfslite.Arpc (Byte)

/-- `dn_expand` takes no byte behind the packet. -/
def StaysInside (expand : Expand) : Prop :=
  ∀ pkt cp size n name, expand pkt cp size = some (n, name) → cp + n ≤ pkt.length

section Reads

variable (pkt : List Byte) (cp : ℕ)

theorem getbytes_ok (n : ℕ) (h : cp + n ≤ pkt.length) : ∃ s, getbytes pkt cp n = .ok s :=
  ⟨_, if_pos h⟩

theorem getbyte_ok (h : cp + 1 ≤ pkt.length) : ∃ c, getbyte pkt cp = .ok c := by
  have hlen : 1 ≤ (pkt.drop cp).length := by simp; omega
  unfold getbyte
  match pkt.drop cp, hlen with
  | a :: _, _ => exact ⟨a, rfl⟩

theorem getshort_ok (h : cp + 2 ≤ pkt.length) : ∃ v, getshort pkt cp = .ok v := by
  have hlen : 2 ≤ (pkt.drop cp).length := by simp; omega
  unfold getshort
  match pkt.drop cp, hlen with
  | a :: b :: _, _ => exact ⟨a ++ b, rfl⟩

theorem getlong_ok (h : cp + 4 ≤ pkt.length) : ∃ v, getlong pkt cp = .ok v := by
  have hlen : 4 ≤ (pkt.drop cp).length := by simp; omega
  unfold getlong
  match pkt.drop cp, hlen with
  | a :: b :: c :: d :: _, _ => exact ⟨a ++ b ++ c ++ d, rfl⟩

end Reads

section Records

variable {expand : Expand} {pkt : List Byte}

/-- The bytes that the data of a record take in the packet, unless the parser refuses them. -/
def rdsize (expand : Expand) (pkt : List Byte) (cp rdlen : ℕ) : Case → Option ℕ
  | .a => some 4
  | .name => (expand pkt cp maxdname).map Prod.fst
  | .mx => if rdlen < 2 then none else (expand pkt (cp + 2) maxdname).map (2 + ·.1)
  | .soa =>
    (expand pkt cp maxdname).bind fun (n, _) =>
      (expand pkt (cp + n) maxdname).bind fun (m, _) =>
        if cp + n + m + 20 > pkt.length then none else some (n + m + 20)
  | .srv => if rdlen < 7 then none else (expand pkt (cp + 6) maxdname).map (6 + ·.1)
  | .txt | .default => some rdlen

/-- The data of the record at `cp`, if there is one inside of the packet, take the bytes that
its `rdlen` announces. -/
def Fits (expand : Expand) (pkt : List Byte) (cp : ℕ) : Prop :=
  ∀ n name type rdlen, expand pkt cp maxdname = some (n, name) →
    getshort pkt (cp + n) = .ok type → getshort pkt (cp + n + 8) = .ok rdlen →
    cp + n + 10 + rdlen.toNat ≤ pkt.length →
    ∀ size ∈ rdsize expand pkt (cp + n + 10) rdlen.toNat (.of type.toNat), size = rdlen.toNat

/-- The parser fails, or leaves the cursor at the end that the record announces. -/
def Sound (expand : Expand) (pkt : List Byte) (cp : ℕ) : Prop :=
  rrparse expand pkt cp = .ok none ∨
    ∃ n name rr, expand pkt cp maxdname = some (n, name) ∧
      getshort pkt (cp + n + 8) = .ok rr.rdlen ∧
      cp + n + 10 + rr.rdlen.toNat ≤ pkt.length ∧
      rrparse expand pkt cp = .ok (some (cp + n + 10 + rr.rdlen.toNat, rr))

theorem txtLoop_ends (cp rdlen : ℕ) (dp : List Byte) (h : cp + rdlen ≤ pkt.length) :
    txtLoop pkt cp rdlen dp = .ok none ∨
      ∃ text, txtLoop pkt cp rdlen dp = .ok (some (cp + rdlen, text)) := by
  induction rdlen using Nat.strongRecOn generalizing cp dp with
  | _ rdlen ih =>
    rw [txtLoop]
    by_cases h0 : rdlen = 0
    · subst h0
      exact Or.inr ⟨dp, rfl⟩
    rw [if_neg h0]
    obtain ⟨c, hc⟩ := getbyte_ok pkt cp (by omega)
    rw [hc]
    by_cases hlong : c.toNat + 1 > rdlen
    · exact Or.inl (if_pos hlong)
    obtain ⟨s, hs⟩ := getbytes_ok pkt (cp + 1) c.toNat (by omega)
    have hnext := ih (rdlen - (c.toNat + 1)) (by omega) (cp + (c.toNat + 1)) (dp ++ s)
      (by omega)
    have hend : cp + (c.toNat + 1) + (rdlen - (c.toNat + 1)) = cp + rdlen := by omega
    rw [hend] at hnext
    have hstep : (Except.ok c >>= fun c =>
        if c.toNat + 1 > rdlen then Except.ok none
        else do
          let s ← getbytes pkt (cp + 1) c.toNat
          txtLoop pkt (cp + (c.toNat + 1)) (rdlen - (c.toNat + 1)) (dp ++ s)) =
        txtLoop pkt (cp + (c.toNat + 1)) (rdlen - (c.toNat + 1)) (dp ++ s) := by
      simp only [bind, Except.bind, if_neg hlong, hs]
    rwa [hstep]

/-- What the switch does with data whose size is known: it fails, advances by that size, or
reads behind the packet when that size is not the announced one. -/
def Switched (expand : Expand) (pkt : List Byte) (cp rdlen : ℕ) (c : Case) : Prop :=
  match rdsize expand pkt cp rdlen c with
  | none => rdparse expand pkt cp rdlen c = .ok none
  | some n =>
    (∃ data, rdparse expand pkt cp rdlen c = .ok (some (cp + n, data))) ∨
      (n = rdlen ∧ rdparse expand pkt cp rdlen c = .ok none) ∨
      (n ≠ rdlen ∧ rdparse expand pkt cp rdlen c = .error .outside)

theorem switched_a {cp rdlen : ℕ} (h : cp + rdlen ≤ pkt.length) :
    Switched expand pkt cp rdlen .a := by
  by_cases h4 : cp + 4 ≤ pkt.length
  · obtain ⟨addr, haddr⟩ := getbytes_ok pkt cp 4 h4
    refine Or.inl ⟨.a addr, ?_⟩
    simp only [rdparse, haddr, bind, Except.bind]
  · refine Or.inr (Or.inr ⟨by omega, ?_⟩)
    simp only [rdparse, getbytes, if_neg h4, bind, Except.bind]

theorem switched_name {cp rdlen : ℕ} : Switched expand pkt cp rdlen .name := by
  unfold Switched
  cases hx : expand pkt cp maxdname with
  | none => simp only [rdsize, hx, Option.map_none, rdparse]
  | some r =>
    simp only [rdsize, hx, Option.map_some, rdparse]
    exact Or.inl ⟨_, rfl⟩

theorem switched_mx {cp rdlen : ℕ} (h : cp + rdlen ≤ pkt.length) :
    Switched expand pkt cp rdlen .mx := by
  unfold Switched
  by_cases h2 : rdlen < 2
  · simp only [rdsize, if_pos h2, rdparse]
  obtain ⟨pref, hpref⟩ := getshort_ok pkt cp (by omega)
  cases hx : expand pkt (cp + 2) maxdname with
  | none =>
    simp only [rdsize, if_neg h2, hx, Option.map_none, rdparse, hpref, bind, Except.bind]
  | some r =>
    simp only [rdsize, if_neg h2, hx, Option.map_some, rdparse, hpref, bind, Except.bind,
      ← Nat.add_assoc]
    exact Or.inl ⟨_, rfl⟩

theorem switched_txt {cp rdlen : ℕ} (h : cp + rdlen ≤ pkt.length) :
    Switched expand pkt cp rdlen .txt := by
  simp only [Switched, rdsize, rdparse]
  by_cases hr : rdlen ≥ sizeofTxt ∨ rdlen < 1
  · exact Or.inr (Or.inl ⟨trivial, if_pos hr⟩)
  simp only [if_neg hr]
  rcases txtLoop_ends cp rdlen [] h with hloop | ⟨text, hloop⟩
  · exact Or.inr (Or.inl ⟨trivial, by rw [hloop]; rfl⟩)
  · exact Or.inl ⟨.txt text, by rw [hloop]; rfl⟩

theorem switched_soa {cp rdlen : ℕ} : Switched expand pkt cp rdlen .soa := by
  unfold Switched
  cases hm : expand pkt cp maxdname with
  | none => simp only [rdsize, hm, Option.bind_none, rdparse]
  | some r =>
    obtain ⟨n, mname⟩ := r
    cases hr : expand pkt (cp + n) maxdname with
    | none => simp only [rdsize, hm, hr, Option.bind_some, Option.bind_none, rdparse]
    | some r =>
      obtain ⟨m, rname⟩ := r
      by_cases hend : cp + n + m + 20 > pkt.length
      · simp only [rdsize, hm, hr, Option.bind_some, if_pos hend, rdparse]
      obtain ⟨serial, hserial⟩ := getlong_ok pkt (cp + n + m) (by omega)
      obtain ⟨refresh, hrefresh⟩ :=
        getlong_ok pkt (cp + n + m + 4) (by omega)
      obtain ⟨retry, hretry⟩ := getlong_ok pkt (cp + n + m + 8) (by omega)
      obtain ⟨expire, hexpire⟩ :=
        getlong_ok pkt (cp + n + m + 12) (by omega)
      obtain ⟨minimum, hminimum⟩ :=
        getlong_ok pkt (cp + n + m + 16) (by omega)
      have hsize : cp + (n + m + 20) = cp + n + m + 20 := by omega
      simp only [rdsize, hm, hr, Option.bind_some, if_neg hend, rdparse, hserial, hrefresh,
        hretry, hexpire, hminimum, bind, Except.bind, hsize]
      exact Or.inl ⟨_, rfl⟩

theorem switched_srv {cp rdlen : ℕ} (h : cp + rdlen ≤ pkt.length) :
    Switched expand pkt cp rdlen .srv := by
  unfold Switched
  by_cases h7 : rdlen < 7
  · simp only [rdsize, if_pos h7, rdparse]
  obtain ⟨prio, hprio⟩ := getshort_ok pkt cp (by omega)
  obtain ⟨weight, hweight⟩ := getshort_ok pkt (cp + 2) (by omega)
  obtain ⟨port, hport⟩ := getshort_ok pkt (cp + 4) (by omega)
  cases hx : expand pkt (cp + 6) maxdname with
  | none =>
    simp only [rdsize, if_neg h7, hx, Option.map_none, rdparse, hprio, hweight, hport, bind,
      Except.bind]
  | some r =>
    simp only [rdsize, if_neg h7, hx, Option.map_some, rdparse, hprio, hweight, hport, bind,
      Except.bind, ← Nat.add_assoc]
    exact Or.inl ⟨_, rfl⟩

theorem rdparse_switched {cp rdlen : ℕ} (c : Case) (h : cp + rdlen ≤ pkt.length) :
    Switched expand pkt cp rdlen c := by
  cases c with
  | a => exact switched_a h
  | name => exact switched_name
  | mx => exact switched_mx h
  | txt => exact switched_txt h
  | soa => exact switched_soa
  | srv => exact switched_srv h
  | default => exact Or.inl ⟨.unknown, rfl⟩

theorem rrparse_fields {cp n : ℕ} {name : Name} (hx : expand pkt cp maxdname = some (n, name))
    (hlen : cp + n + 10 ≤ pkt.length) :
    ∃ type cls ttl rdlen, getshort pkt (cp + n) = .ok type ∧
      getshort pkt (cp + n + 8) = .ok rdlen ∧
      rrparse expand pkt cp =
        if cp + n + 10 + rdlen.toNat > pkt.length then .ok none
        else (rdparse expand pkt (cp + n + 10) rdlen.toNat (.of type.toNat)).bind
          (finish (cp + n + 10 + rdlen.toNat)
            fun data => ⟨name, cls, type, ttl, rdlen, data⟩) := by
  obtain ⟨type, htype⟩ := getshort_ok pkt (cp + n) (by omega)
  obtain ⟨cls, hcls⟩ := getshort_ok pkt (cp + n + 2) (by omega)
  obtain ⟨ttl, httl⟩ := getlong_ok pkt (cp + n + 4) (by omega)
  obtain ⟨rdlen, hrdlen⟩ := getshort_ok pkt (cp + n + 8) (by omega)
  refine ⟨type, cls, ttl, rdlen, htype, hrdlen, ?_⟩
  simp only [rrparse, hx, if_neg (by omega : ¬ cp + n + 10 > pkt.length), htype, hcls, httl,
    hrdlen, bind, Except.bind]

theorem sound_of_fails {cp : ℕ} (h : rrparse expand pkt cp = .ok none) :
    Sound expand pkt cp := Or.inl h

theorem not_sound_of_faults {cp : ℕ} {f : Fault} (h : rrparse expand pkt cp = .error f) :
    ¬ Sound expand pkt cp := by
  rintro (hs | ⟨n, name, rr, -, -, -, hs⟩)
  · rw [h] at hs
    cases hs
  · rw [h] at hs
    cases hs

theorem sound_iff_fits (expand : Expand) (pkt : List Byte) (cp : ℕ) :
    Sound expand pkt cp ↔ Fits expand pkt cp := by
  cases hx : expand pkt cp maxdname with
  | none =>
    refine iff_of_true (Or.inl (by simp only [rrparse, hx])) ?_
    intro n name type rdlen hsome
    rw [hx] at hsome
    cases hsome
  | some r =>
    obtain ⟨n, name⟩ := r
    by_cases hlen : cp + n + 10 ≤ pkt.length
    swap
    · refine iff_of_true (Or.inl ?_) ?_
      · simp only [rrparse, hx, if_pos (by omega : cp + n + 10 > pkt.length)]
      · intro n' name' type rdlen hsome _ _ hend
        rw [hx] at hsome
        cases hsome
        omega
    obtain ⟨type, cls, ttl, rdlen, htype, hrdlen, hrr⟩ := rrparse_fields hx hlen
    by_cases hend : cp + n + 10 + rdlen.toNat > pkt.length
    · refine iff_of_true (sound_of_fails (hrr.trans (if_pos hend))) ?_
      intro n' name' type' rdlen' hsome _ hrdlen' hend'
      rw [hx] at hsome
      cases hsome
      cases hrdlen.symm.trans hrdlen'
      omega
    rw [if_neg hend] at hrr
    have hfits : Fits expand pkt cp ↔ ∀ size ∈
        rdsize expand pkt (cp + n + 10) rdlen.toNat (.of type.toNat), size = rdlen.toNat := by
      constructor
      · intro h
        exact h n name type rdlen hx htype hrdlen (by omega)
      · intro h n' name' type' rdlen' hsome htype' hrdlen' _
        rw [hx] at hsome
        cases hsome
        cases htype.symm.trans htype'
        cases hrdlen.symm.trans hrdlen'
        exact h
    rw [hfits]
    have hsw : Switched expand pkt (cp + n + 10) rdlen.toNat (.of type.toNat) :=
      rdparse_switched _ (by omega)
    unfold Switched at hsw
    cases hsize : rdsize expand pkt (cp + n + 10) rdlen.toNat (.of type.toNat) with
    | none =>
      rw [hsize] at hsw
      rw [hsw] at hrr
      exact iff_of_true (sound_of_fails hrr) (fun _ h => by cases h)
    | some size =>
      rw [hsize] at hsw
      rcases hsw with ⟨data, hok⟩ | ⟨heq, hfail⟩ | ⟨hne, hout⟩
      · rw [hok] at hrr
        by_cases heq : size = rdlen.toNat
        · subst heq
          refine iff_of_true (Or.inr ⟨n, name, ⟨name, cls, type, ttl, rdlen, data⟩, hx, hrdlen,
            not_lt.mp hend, ?_⟩) ?_
          · exact hrr.trans (if_pos rfl)
          · intro size' h
            cases h
            rfl
        · -- The assertion at the end of the switch fails.
          refine iff_of_false (@not_sound_of_faults _ _ _ .assertion ?_) ?_
          · exact hrr.trans (if_neg (by omega))
          · exact fun h => heq (h size rfl)
      · rw [hfail] at hrr
        refine iff_of_true (sound_of_fails hrr) ?_
        intro size' h
        cases h
        exact heq
      · rw [hout] at hrr
        exact iff_of_false (not_sound_of_faults hrr) fun h => hne (h size rfl)

/-- `rrparse` keeps to the record and to the packet, and its assertion holds, exactly where the
data of the record fit. -/
theorem rrparse_keeps_iff (expand : Expand) (pkt : List Byte) (cp : ℕ) :
    (Sound expand pkt cp ∧ ∀ f, rrparse expand pkt cp ≠ .error f) ↔ Fits expand pkt cp := by
  constructor
  · rintro ⟨hsound, -⟩
    exact (sound_iff_fits expand pkt cp).mp hsound
  · intro hfits
    have hsound := (sound_iff_fits expand pkt cp).mpr hfits
    exact ⟨hsound, fun f hf => not_sound_of_faults hf hsound⟩

/-- A `dn_expand` that knows no name but the root. -/
def rootExpand : Expand := fun pkt cp _ => if pkt[cp]? = some 0#8 then some (1, []) else none

theorem rootExpand_staysInside : StaysInside rootExpand := by
  intro pkt cp size n name h
  unfold rootExpand at h
  split at h
  · rename_i hcp
    cases h
    obtain ⟨hlt, -⟩ := List.getElem?_eq_some_iff.mp hcp
    exact hlt
  · cases h

/-- A name server of the root, which is the root: one byte where five are announced. -/
theorem rrparse_asserts : ¬ ∀ expand, StaysInside expand → ∀ pkt cp, Sound expand pkt cp := by
  intro h
  have hfault : rrparse rootExpand [0, 0, 2, 0, 1, 0, 0, 0, 0, 0, 5, 0, 0, 0, 0, 0] 0 =
      .error .assertion := by decide
  exact not_sound_of_faults hfault (h rootExpand rootExpand_staysInside _ 0)

end Records

end Sfslite.Async.Dnsparse
