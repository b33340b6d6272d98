import Mathlib.Data.List.Count
import Sfslite.Async.DnsparseSafe
import Sfslite.Async.Srvrec

/-!
The list of the servers of a service: `tosrvlist` of `dnsparse.C`.
-/

namespace Sfslite.Async.Dnsparse

open Sfslite.Arpc (Byte)

structure Srvlist where
  name : Name
  hints : List Addrhint
  srvs : List Srvrec
deriving DecidableEq, Repr

/-- What `tosrvlist` keeps: the names of its `nameset`, the name that was asked for and the
records. -/
structure SrvScan where
  nset : List Name
  name : Option Name
  recs : List Srvrec

/-- `for (int i = recs.size (); i-- > 0;)`: the `continue` in it goes on with the next record. -/
def addWeights (prio weight port : BitVec 16) (target : Name) (recs : List Srvrec) : BitVec 16 :=
  recs.foldr (fun r weight =>
    if r.prio = prio ∧ r.port = port ∧ target = r.name then weight + r.weight else weight) weight

def addSrv (prio weight port : BitVec 16) (target : Name) (recs : List Srvrec) : List Srvrec :=
  recs ++ [⟨prio, addWeights prio weight port target recs, port, target⟩]

def SrvScan.step (s : SrvScan) (rr : Resrec) : SrvScan :=
  if rr.cls.toNat = cIn ∧ rr.type.toNat = tSrv then
    match rr.data with
    | .srv prio weight port target =>
      match s.name with
      | none =>
        ⟨target :: rr.name :: s.nset, some rr.name, addSrv prio weight port target s.recs⟩
      | some name =>
        if strcasecmp name rr.name ≠ 0 then s
        else
          { s with
            nset := target :: s.nset, recs := addSrv prio weight port target s.recs }
    | _ => s
  else s

/-- The list, or the null pointer and the error. A fault of `srvrec_randomize` is one of its
assertion. -/
def tosrvlist (expand : Expand) (skipname : Skipname) (qsort : List Srvrec → List Srvrec)
    (arandom : ℕ → BitVec 32) (p : Packet) : Except Fault (Option Srvlist × ℕ) :=
  match p.anp with
  | none => .ok (none, p.error)
  | some cp => do
      match ← records expand p.buf SrvScan.step p.ancount cp ⟨[], none, []⟩ with
      | none => .ok (none, arerrBadresp)
      | some (_, s) =>
        match s.name with
        | none => .ok (none, arerrNxrec)
        | some name => do
            match ← gethints expand skipname p s.nset cp with
            | none => .ok (none, arerrBadresp)
            | some hints =>
              match srvrecRandomize qsort arandom s.recs with
              | .error _ => .error .assertion
              | .ok (srvs, _) => .ok (some ⟨name, hints, srvs⟩, p.error)

/-- An answer about a server, and the name that it is for. -/
def srvOf (rr : Resrec) : Option (Name × Srvrec) :=
  if rr.cls.toNat = cIn ∧ rr.type.toNat = tSrv then
    match rr.data with
    | .srv prio weight port target => some (rr.name, ⟨prio, weight, port, target⟩)
    | _ => none
  else none

def srvsFor (name : Name) (rrs : List Resrec) : List Srvrec :=
  ((rrs.filterMap srvOf).filter fun a => strcasecmp name a.1 = 0).map Prod.snd

/-- The answers for the name that the first one is for. -/
def srvAnswers (rrs : List Resrec) : List Srvrec :=
  match rrs.filterMap srvOf with
  | [] => []
  | (name, _) :: _ => srvsFor name rrs

def Srvrec.key (r : Srvrec) : BitVec 16 × BitVec 16 × Name := (r.prio, r.port, r.name)

/-- One record for each priority, port and target of an answer, with the sum of the weights of
the answers that it stands for. -/
structure Merged (answers srvs : List Srvrec) : Prop where
  once : ∀ a ∈ answers, (srvs.map Srvrec.key).count a.key = 1
  weight : ∀ r ∈ srvs,
    r.weight.toNat = ((answers.filter fun a => a.key = r.key).map fun a => a.weight.toNat).sum
  answer : ∀ r ∈ srvs, ∃ a ∈ answers, a.key = r.key

def addAnswer (recs : List Srvrec) (a : Srvrec) : List Srvrec :=
  addSrv a.prio a.weight a.port a.name recs

variable {expand : Expand} {recs answers srvs : List Srvrec} {a : Srvrec}

theorem map_key_addAnswers (answers : List Srvrec) :
    (answers.foldl addAnswer recs).map Srvrec.key =
      recs.map Srvrec.key ++ answers.map Srvrec.key := by
  induction answers generalizing recs with
  | nil => simp
  | cons a answers ih =>
    rw [List.foldl_cons, ih]
    simp [addAnswer, addSrv, Srvrec.key]

theorem addAnswer_new (h : a.key ∉ recs.map Srvrec.key) : addAnswer recs a = recs ++ [a] := by
  have hweights : ∀ weight, addWeights a.prio weight a.port a.name recs = weight := by
    intro weight
    induction recs with
    | nil => rfl
    | cons r recs ih =>
      simp only [List.map_cons, List.mem_cons, not_or] at h
      have hr : ¬ (r.prio = a.prio ∧ r.port = a.port ∧ a.name = r.name) := by
        rintro ⟨hprio, hport, hname⟩
        exact h.1 (by simp [Srvrec.key, hprio, hport, hname])
      rw [addWeights, List.foldr_cons, if_neg hr]
      exact ih h.2
  rw [addAnswer, addSrv, hweights]

theorem addAnswers_nodup (h : ((recs ++ answers).map Srvrec.key).Nodup) :
    answers.foldl addAnswer recs = recs ++ answers := by
  induction answers generalizing recs with
  | nil => simp
  | cons a answers ih =>
    have hnew : a.key ∉ recs.map Srvrec.key := by
      rw [List.map_append, List.map_cons, List.nodup_middle, List.nodup_cons] at h
      exact fun hmem => h.1 (List.mem_append_left _ hmem)
    rw [List.foldl_cons, addAnswer_new hnew, ih (by simpa using h), List.append_assoc,
      List.singleton_append]

theorem merged_self (h : (answers.map Srvrec.key).Nodup) : Merged answers answers where
  once a ha := List.count_eq_one_of_mem h (List.mem_map_of_mem ha)
  weight r hr := by
    obtain ⟨l₁, l₂, rfl⟩ := List.append_of_mem hr
    simp only [List.map_append, List.map_cons, List.nodup_middle, List.nodup_cons,
      List.mem_append, List.mem_map, not_or, not_exists, not_and] at h
    have hother : ∀ l : List Srvrec, (∀ a ∈ l, ¬ a.key = r.key) →
        (l.filter fun a => a.key = r.key) = [] := by
      intro l hl
      simpa [List.filter_eq_nil_iff] using hl
    rw [List.filter_append, List.filter_cons_of_pos (by simp), hother l₁ h.1.1, hother l₂ h.1.2]
    simp
  answer r hr := ⟨r, hr, rfl⟩

theorem Merged.perm {srvs' : List Srvrec} (h : Merged answers srvs) (hperm : srvs'.Perm srvs) :
    Merged answers srvs' where
  once a ha := by rw [(hperm.map _).count_eq, h.once a ha]
  weight r hr := h.weight r (hperm.mem_iff.mp hr)
  answer r hr := h.answer r (hperm.mem_iff.mp hr)

theorem merged_iff (hperm : srvs.Perm (answers.foldl addAnswer [])) :
    Merged answers srvs ↔ (answers.map Srvrec.key).Nodup := by
  constructor
  · intro h
    have hkeys : (srvs.map Srvrec.key).Perm (answers.map Srvrec.key) := by
      simpa [map_key_addAnswers] using hperm.map Srvrec.key
    rw [List.nodup_iff_count_eq_one]
    intro k hk
    obtain ⟨a, ha, rfl⟩ := List.mem_map.mp hk
    rw [← hkeys.count_eq]
    exact h.once a ha
  · intro h
    have hself : answers.foldl addAnswer [] = answers := addAnswers_nodup h
    rw [hself] at hperm
    exact (merged_self h).perm hperm

theorem strcasecmp_self (name : Name) : strcasecmp name name = 0 := by
  induction name with
  | nil => rfl
  | cons c name ih => rw [strcasecmp, if_pos rfl, ih]

theorem SrvScan.step_none {s : SrvScan} {rr : Resrec} (h : srvOf rr = none) : s.step rr = s := by
  unfold srvOf at h
  split_ifs at h with hsrv
  · rw [step, if_pos hsrv]
    cases hdata : rr.data <;> simp_all
  · rw [step, if_neg hsrv]

theorem SrvScan.step_some {s : SrvScan} {rr : Resrec} {name : Name}
    (h : srvOf rr = some (name, a)) :
    s.step rr =
      match s.name with
      | none => ⟨a.name :: name :: s.nset, some name, addAnswer s.recs a⟩
      | some first =>
        if strcasecmp first name ≠ 0 then s
        else { s with nset := a.name :: s.nset, recs := addAnswer s.recs a } := by
  unfold srvOf at h
  split_ifs at h with hsrv
  rw [step, if_pos hsrv]
  cases hdata : rr.data <;> rw [hdata] at h <;> cases h
  rfl

theorem scan_named {name : Name} (rrs : List Resrec) (s : SrvScan) (h : s.name = some name) :
    (rrs.foldl SrvScan.step s).name = some name ∧
      (rrs.foldl SrvScan.step s).recs = (srvsFor name rrs).foldl addAnswer s.recs := by
  induction rrs generalizing s with
  | nil => exact ⟨h, rfl⟩
  | cons rr rrs ih =>
    rw [List.foldl_cons]
    cases hsrv : srvOf rr with
    | none =>
      rw [SrvScan.step_none hsrv]
      simpa [srvsFor, hsrv] using ih s h
    | some r =>
      obtain ⟨other, a⟩ := r
      rw [SrvScan.step_some hsrv, h]
      by_cases hname : strcasecmp name other = 0
      · simpa [srvsFor, hsrv, hname] using
          ih ⟨a.name :: s.nset, some name, addAnswer s.recs a⟩ rfl
      · simpa [srvsFor, hsrv, hname] using ih s h

theorem scan_recs (rrs : List Resrec) (nset : List Name) :
    (rrs.foldl SrvScan.step ⟨nset, none, []⟩).recs = (srvAnswers rrs).foldl addAnswer [] := by
  induction rrs with
  | nil => rfl
  | cons rr rrs ih =>
    rw [List.foldl_cons]
    cases hsrv : srvOf rr with
    | none =>
      rw [SrvScan.step_none hsrv, ih]
      simp only [srvAnswers, srvsFor, List.filterMap_cons, hsrv]
    | some r =>
      obtain ⟨name, a⟩ := r
      rw [SrvScan.step_some hsrv]
      obtain ⟨-, hrecs⟩ := scan_named rrs
        ⟨a.name :: name :: nset, some name, addAnswer [] a⟩ rfl
      rw [hrecs]
      simp [srvAnswers, srvsFor, hsrv, strcasecmp_self]

theorem records_foldl {σ : Type} (expand : Expand) (pkt : List Byte) (f : σ → Resrec → σ)
    (n cp : ℕ) (s : σ) (rrs : List Resrec) :
    records expand pkt f n cp (rrs.foldl f s) =
      (records expand pkt (fun rrs rr => rrs ++ [rr]) n cp rrs).map
        (Option.map fun r => (r.1, r.2.foldl f s)) := by
  induction n generalizing cp rrs with
  | zero => rfl
  | succ n ih =>
    rw [records, records]
    cases hrr : rrparse expand pkt cp with
    | error e => rfl
    | ok r =>
      cases r with
      | none => rfl
      | some r =>
        have hsnoc : f (rrs.foldl f s) r.2 = (rrs ++ [r.2]).foldl f s := by simp
        simp only [bind, Except.bind, hsnoc]
        exact ih r.1 (rrs ++ [r.2])

theorem length_records {pkt : List Byte} {n cp cp' : ℕ} {rrs rrs' : List Resrec}
    (h : records expand pkt (fun rrs rr => rrs ++ [rr]) n cp rrs = .ok (some (cp', rrs'))) :
    rrs'.length = rrs.length + n := by
  induction n generalizing cp rrs with
  | zero =>
    cases h
    rfl
  | succ n ih =>
    rw [records] at h
    cases hrr : rrparse expand pkt cp with
    | error e =>
      rw [hrr] at h
      cases h
    | ok r =>
      rw [hrr] at h
      cases r with
      | none => cases h
      | some r =>
        have := ih h
        simp only [List.length_append, List.length_singleton] at this
        omega

theorem length_srvAnswers_le (rrs : List Resrec) : (srvAnswers rrs).length ≤ rrs.length := by
  unfold srvAnswers
  split
  · simp
  · rw [srvsFor, List.length_map]
    exact (List.length_filter_le _ _).trans (List.length_filterMap_le _ _)

theorem dnsparse_ancount_lt {skipname : Skipname} {buf : List Byte} {answer : Bool} {p : Packet}
    (h : dnsparse skipname buf answer = .ok p) : p.ancount < 2 ^ 16 := by
  by_cases hlen : buf.length > sizeofHeader
  swap
  · rw [dnsparse, if_neg hlen] at h
    cases h
    exact Nat.two_pow_pos 16
  have h12 : 12 < buf.length := hlen
  obtain ⟨flags, hflags⟩ := getbyte_ok buf 2 (by omega)
  obtain ⟨rcode, hrcode⟩ := getbyte_ok buf 3 (by omega)
  obtain ⟨qdcount, hqd⟩ := getshort_ok buf 4 (by omega)
  obtain ⟨ancount, han⟩ := getshort_ok buf 6 (by omega)
  obtain ⟨nscount, hns⟩ := getshort_ok buf 8 (by omega)
  obtain ⟨arcount, har⟩ := getshort_ok buf 10 (by omega)
  have hlt : ancount.toNat < 2 ^ 16 := ancount.isLt
  simp only [dnsparse, if_pos hlen, hflags, hrcode, hqd, han, hns, har, bind, Except.bind,
    Except.ok.injEq] at h
  subst h
  split_ifs
  · exact hlt
  · exact hlt
  · exact hlt
  · cases skipQuestions skipname buf qdcount.toNat sizeofHeader <;> exact hlt

theorem tosrvlist_some {skipname : Skipname} {qsort : List Srvrec → List Srvrec}
    {arandom : ℕ → BitVec 32} {p : Packet} {l : Srvlist} {error : ℕ}
    (h : tosrvlist expand skipname qsort arandom p = .ok (some l, error)) :
    ∃ cp cp' s chosen, p.anp = some cp ∧
      records expand p.buf SrvScan.step p.ancount cp ⟨[], none, []⟩ = .ok (some (cp', s)) ∧
      srvrecRandomize qsort arandom s.recs = .ok (l.srvs, chosen) := by
  unfold tosrvlist at h
  cases hcp : p.anp with
  | none =>
    rw [hcp] at h
    cases h
  | some cp =>
    rw [hcp] at h
    cases hrecs : records expand p.buf SrvScan.step p.ancount cp ⟨[], none, []⟩ with
    | error e =>
      simp only [hrecs, bind, Except.bind] at h
      cases h
    | ok r =>
      cases r with
      | none =>
        simp only [hrecs, bind, Except.bind] at h
        cases h
      | some r =>
        obtain ⟨cp', s⟩ := r
        simp only [hrecs, bind, Except.bind] at h
        cases hname : s.name with
        | none =>
          rw [hname] at h
          cases h
        | some name =>
          simp only [hname] at h
          cases hhints : gethints expand skipname p s.nset cp with
          | error e =>
            simp only [hhints] at h
            cases h
          | ok hints =>
            cases hints with
            | none =>
              simp only [hhints] at h
              cases h
            | some hints =>
              simp only [hhints] at h
              cases hsrvs : srvrecRandomize qsort arandom s.recs with
              | error e =>
                rw [hsrvs] at h
                cases h
              | ok r =>
                rw [hsrvs] at h
                cases h
                exact ⟨cp, cp', s, r.2, rfl, hrecs, hsrvs⟩

/-- For every packet that a list is made of: it has one record for each priority, port and target,
with the sum of the weights, if and only if no two of the answers have these three in common. -/
theorem tosrvlist_merges_iff (expand : Expand) (skipname : Skipname)
    (qsort : List Srvrec → List Srvrec) (arandom : ℕ → BitVec 32)
    (hqsort : ∀ l, (qsort l).Perm l ∧ (qsort l).Pairwise fun a b => srvrecCmp a b ≤ 0)
    (buf : List Byte) (p : Packet) (hp : dnsparse skipname buf true = .ok p) (l : Srvlist)
    (error : ℕ) (h : tosrvlist expand skipname qsort arandom p = .ok (some l, error)) :
    ∃ cp cp' rrs, p.anp = some cp ∧
      records expand p.buf (fun rrs rr => rrs ++ [rr]) p.ancount cp [] = .ok (some (cp', rrs)) ∧
      (Merged (srvAnswers rrs) l.srvs ↔ ((srvAnswers rrs).map Srvrec.key).Nodup) := by
  obtain ⟨cp, cp', s, chosen, hcp, hscan, hsrvs⟩ := tosrvlist_some h
  have hrecs := records_foldl expand p.buf SrvScan.step p.ancount cp ⟨[], none, []⟩ []
  rw [List.foldl_nil, hscan] at hrecs
  cases hrrs : records expand p.buf (fun rrs rr => rrs ++ [rr]) p.ancount cp [] with
  | error e =>
      rw [hrrs] at hrecs
      cases hrecs
  | ok r =>
      cases r with
      | none =>
          rw [hrrs] at hrecs
          cases hrecs
      | some r =>
          obtain ⟨cp'', rrs⟩ := r
          rw [hrrs] at hrecs
          obtain ⟨-, rfl⟩ : cp' = cp'' ∧ s = rrs.foldl SrvScan.step ⟨[], none, []⟩ := by
            simpa [Except.map] using hrecs
          refine ⟨cp, cp'', rrs, hcp, hrrs, ?_⟩
          rw [scan_recs] at hsrvs
          have hlen : ((srvAnswers rrs).foldl addAnswer []).length < 2 ^ 16 := by
            have hkeys := congrArg List.length (@map_key_addAnswers [] (srvAnswers rrs))
            simp only [List.length_map, List.map_nil, List.nil_append] at hkeys
            have hle := length_srvAnswers_le rrs
            have hcount := length_records hrrs
            have hlt := dnsparse_ancount_lt hp
            simp only [List.length_nil] at hcount
            omega
          obtain ⟨out, chosen', hspec, hperm, -, -⟩ :=
            srvrecRandomize_spec qsort arandom _ hqsort hlen
          rw [hspec] at hsrvs
          cases hsrvs
          exact merged_iff hperm

/-- `dn_skipname` on a name that is the root. -/
def rootSkip : Skipname := fun pkt cp => if pkt[cp]? = some 0#8 then some 1 else none

/-- An answer with two records for the root: they have the weight 7, and the second one has this
priority. -/
def twoServers (prio : Byte) : List Byte :=
  [0, 1, 0x80, 0, 0, 1, 0, 2, 0, 0, 0, 0, 0, 0, 33, 0, 1,
    0, 0, 33, 0, 1, 0, 0, 0, 0, 0, 7, 0, 0, 0, 7, 0, 53, 0,
    0, 0, 33, 0, 1, 0, 0, 0, 0, 0, 7, 0, prio, 0, 7, 0, 53, 0]

theorem tosrvlist_merges_iff_two : ∃ cp cp' rrs,
    (⟨twoServers 1, some 17, 0, 2, 0, 0⟩ : Packet).anp = some cp ∧
    records rootExpand (twoServers 1) (fun rrs rr => rrs ++ [rr]) 2 cp [] =
      .ok (some (cp', rrs)) ∧
    (Merged (srvAnswers rrs) [⟨0, 7, 53, []⟩, ⟨1, 7, 53, []⟩] ↔
      ((srvAnswers rrs).map Srvrec.key).Nodup) :=
  tosrvlist_merges_iff rootExpand rootSkip sortSrvrecs (fun _ => 0) sortSrvrecs_spec (twoServers 1)
    ⟨twoServers 1, some 17, 0, 2, 0, 0⟩ (by decide) ⟨[], [], [⟨0, 7, 53, []⟩, ⟨1, 7, 53, []⟩]⟩ 0
    (by decide)

/-- Two answers that have the three in common stay two records. -/
theorem tosrvlist_keeps_duplicates : ¬ ∀ (expand : Expand) (skipname : Skipname)
    (qsort : List Srvrec → List Srvrec) (arandom : ℕ → BitVec 32),
    (∀ l, (qsort l).Perm l ∧ (qsort l).Pairwise fun a b => srvrecCmp a b ≤ 0) →
    ∀ (buf : List Byte) (p : Packet), dnsparse skipname buf true = .ok p →
    ∀ (l : Srvlist) (error : ℕ),
    tosrvlist expand skipname qsort arandom p = .ok (some l, error) →
    ∀ cp cp' rrs, p.anp = some cp →
    records expand p.buf (fun rrs rr => rrs ++ [rr]) p.ancount cp [] = .ok (some (cp', rrs)) →
    Merged (srvAnswers rrs) l.srvs := by
  intro h
  have hmerged := h rootExpand rootSkip sortSrvrecs (fun _ => 0) sortSrvrecs_spec (twoServers 0)
    ⟨twoServers 0, some 17, 0, 2, 0, 0⟩ (by decide)
    ⟨[], [], [⟨0, 14, 53, []⟩, ⟨0, 7, 53, []⟩]⟩ 0 (by decide) 17 53
    [⟨[], 1, 33, 0, 7, .srv 0 7 53 []⟩, ⟨[], 1, 33, 0, 7, .srv 0 7 53 []⟩] rfl (by decide)
  have hone := hmerged.once ⟨0, 7, 53, []⟩ (by decide)
  revert hone
  decide

end Sfslite.Async.Dnsparse
