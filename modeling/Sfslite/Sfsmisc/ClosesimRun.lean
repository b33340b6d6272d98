import Sfslite.Lib.Run
import Sfslite.Sfsmisc.Closesim

/-!
The queue and the tables of `closesim.C` over whole runs: what each operation keeps, and under
which condition a clean-up follows no entry that is missing or was freed.
-/

namespace Sfslite.Sfsmisc.Closesim

open Sfslite.Lib (Run)

variable {φ : Type} {mo : ℤ} {s s' : Fileq φ}

namespace Fileq

/-- A clean-up in the call of a `CLOSE`. The saved successor is still the first of the queue unless
it was used in the meantime, and then it does not expire within the clean-up. -/
structure Closing (s : Fileq φ) (nfht : Option ℕ) (since : ℤ) (cont : Option ℕ) : Prop where
  begun : since ≤ s.now
  soon : s.now ≤ since + minlife
  opens : ∀ i, cont = some i → ∃ t, s.obj i = some t ∧ since + minlife ≤ t.expire
  next : ∀ i, nfht = some i →
    ∃ t, s.obj i = some t ∧ (t.expire < since + minlife → s.timeq.head? = some i)
  last : nfht = none → s.timeq = []

/-- What holds where `fhclean` is. -/
def Within (s : Fileq φ) : Prop :=
  match s.pc with
  | .idle => True
  | .entry cont => ∀ i, cont = some i → ∃ t, s.obj i = some t ∧ s.now + minlife ≤ t.expire
  | .closing nfht since cont => Closing s nfht since cont

variable {nfht cont : Option ℕ} {since : ℤ}

theorem Closing.touched {i : ℕ} (hinv : Inv mo s)
    (h : Touched s i s') (hc : Closing s nfht since cont) : Closing s' nfht since cont := by
  obtain ⟨t, t', ht, ht', -, hlife⟩ := h.self
  have hbegun := hc.begun
  refine ⟨h.now ▸ hc.begun, h.now ▸ hc.soon, fun j hj => ?_, fun j hj => ?_, fun hnone => ?_⟩
  · by_cases hji : j = i
    · subst hji
      exact ⟨t', ht', by omega⟩
    · rw [h.others j hji]
      exact hc.opens j hj
  · by_cases hji : j = i
    · subst hji
      exact ⟨t', ht', fun hlt => by omega⟩
    · obtain ⟨tj, htj, hhead⟩ := hc.next j hj
      rw [h.others j hji]
      refine ⟨tj, htj, fun hlt => ?_⟩
      rw [h.timeq]
      refine head?_insertq (head?_erase (hhead hlt) (Ne.symm hji)) ?_
      rw [h.expire_ne hji, expire_eq htj, expire_eq ht']
      omega
  · have hin := (hinv.queue i).mpr ⟨t, ht⟩
    rw [hc.last hnone] at hin
    cases hin

theorem Closing.fhalloc (hinv : Inv mo s) (serv : ℕ) (fh : φ)
    (hc : Closing s nfht since cont) (hsome : nfht ≠ none) :
    Closing (s.fhalloc serv fh) nfht since cont := by
  have hbegun := hc.begun
  have hold : ∀ {j t}, s.obj j = some t → (s.fhalloc serv fh).obj j = some t := by
    intro j t ht
    rw [fhalloc_others serv fh, ht]
    rintro rfl
    rw [hinv.fresh _ (Nat.le_refl _)] at ht
    cases ht
  refine ⟨hc.begun, hc.soon, fun j hj => ?_, fun j hj => ?_, fun hnone => absurd hnone hsome⟩
  · obtain ⟨t, ht, hle⟩ := hc.opens j hj
    exact ⟨t, hold ht, hle⟩
  · obtain ⟨t, ht, hhead⟩ := hc.next j hj
    refine ⟨t, hold ht, fun hlt => head?_insertq (hhead hlt) ?_⟩
    change (s.fhalloc serv fh).expire j ≤ (s.fhalloc serv fh).expire s.alloc
    rw [expire_eq (hold ht), expire_eq (fhalloc_self s serv fh)]
    change t.expire ≤ s.now + minlife
    omega

theorem Closing.freed {L : List ℕ} (h : Freed s L s')
    (hc : Closing s nfht since cont) (hL : ∀ i, nfht = some i ∨ cont = some i → i ∉ L) :
    Closing s' nfht since cont := by
  refine ⟨h.now ▸ hc.begun, h.now ▸ hc.soon, fun j hj => ?_, fun j hj => ?_, fun hnone => ?_⟩
  · rw [h.others j (hL j (.inr hj))]
    exact hc.opens j hj
  · have hj' := hL j (.inl hj)
    obtain ⟨t, ht, hhead⟩ := hc.next j hj
    rw [h.others j hj', h.timeq]
    exact ⟨t, ht, fun hlt => head?_foldl_erase hj' (hhead hlt)⟩
  · rw [h.timeq, hc.last hnone]
    clear hL h
    induction L with
    | nil => rfl
    | cons i L ih => exact ih

theorem drop_eq {i : ℕ} {t : Fhtimer φ} {rest : List ℕ}
    (hinv : Inv mo s) (hq : s.timeq = i :: rest) (ht : s.obj i = some t)
    (hbegun : since ≤ s.now) (hsoon : s.now ≤ since + minlife) (hlt : t.expire < s.now)
    (hcont : ∀ j, cont = some j → ∃ t, s.obj j = some t ∧ since + minlife ≤ t.expire) :
    ∃ s', s.drop i t since cont = some s' ∧ Inv mo s' ∧ Within s' ∧ s'.timeq = rest ∧
      s'.closes = i :: s.closes := by
  obtain ⟨s₁, hs₁, hinv₁, hfreed⟩ := fhfree_eq hinv ht
  have hrest : s₁.timeq = rest := by
    rw [hfreed.timeq, hq, List.foldl_cons, List.foldl_nil]
    exact List.erase_cons_head i rest
  have hnext : nextq i s.timeq = rest.head? := by rw [hq, nextq_head]
  refine ⟨{ s₁ with pc := .closing rest.head? since cont, closes := i :: s.closes }, ?_, ?_, ?_,
    hrest, rfl⟩
  · rw [drop, hs₁, hnext]
    rfl
  · exact { hinv₁ with }
  · refine ⟨?_, ?_, fun j hj => ?_, fun j hj => ?_, fun hnone => ?_⟩
    · exact hfreed.now ▸ hbegun
    · exact hfreed.now ▸ hsoon
    · obtain ⟨tj, htj, hle⟩ := hcont j hj
      have hji : j ∉ [i] := by
        intro hmem
        rw [List.mem_singleton.mp hmem, ht] at htj
        cases htj
        omega
      exact ⟨tj, (hfreed.others j hji).trans htj, hle⟩
    · have hjq : j ∈ s₁.timeq := by
        rw [hrest]
        exact List.mem_of_head? hj
      obtain ⟨tj, htj⟩ := (hinv₁.queue j).mp hjq
      exact ⟨tj, htj, fun _ => by rw [← hj]; exact congrArg List.head? hrest⟩
    · exact hrest.trans (List.head?_eq_none_iff.mp hnone)

theorem finish_eq {fht : Option ℕ} (hinv : Inv mo s)
    (hfht : ∀ i, fht = some i → ∃ t, s.obj i = some t)
    (hcont : ∀ i, cont = some i → ∃ t, s.obj i = some t) :
    ∃ s', s.finish fht cont = some s' ∧ Inv mo s' ∧ s'.pc = .idle ∧ s'.timeq.Perm s.timeq ∧
      s'.closes = s.closes := by
  obtain ⟨tmo, htmo⟩ : ∃ tmo, s.setTmo fht = some tmo := by
    cases fht with
    | none => exact ⟨_, rfl⟩
    | some i =>
      obtain ⟨t, ht⟩ := hfht i rfl
      rw [setTmo, ht, Option.map_some]
      split_ifs
      · exact ⟨_, rfl⟩
      · exact ⟨_, rfl⟩
  have hinv' : Inv mo { s with pc := .idle, tmo := tmo } :=
    { hinv with }
  cases cont with
  | none => exact ⟨_, by rw [finish.eq_def, htmo]; rfl, hinv', rfl, .refl _, rfl⟩
  | some i =>
    obtain ⟨t, ht⟩ := hcont i rfl
    obtain ⟨s', hs', htouched⟩ := fhopen_eq (s := { s with pc := .idle, tmo := tmo }) ht
    refine ⟨s', by rw [finish.eq_def, htmo]; exact hs', ?_⟩
    exact ⟨htouched.inv hinv', htouched.pc, htouched.perm hinv', htouched.closes⟩

/-- What `fhclean` does when it goes on: it ends, or it drops the first entry of the queue, which
has expired, with one `CLOSE`. -/
def Turn (s s' : Fileq φ) : Prop :=
  (s'.closes = s.closes ∧ s'.timeq.Perm s.timeq) ∨
    ∃ i t, s.timeq = i :: s'.timeq ∧ s.obj i = some t ∧ t.expire < s.now ∧
      (∀ j ∈ s.timeq, s.expire i ≤ s.expire j) ∧ s'.closes = i :: s.closes

theorem go_eq (hmo : 0 ≤ mo) (hinv : Inv mo s) (hwithin : Within s) (hpc : s.pc ≠ .idle) :
    ∃ s', s.go = some s' ∧ Inv mo s' ∧ Within s' ∧ Turn s s' := by
  have hend : ∀ fht cont, (∀ i, fht = some i → ∃ t, s.obj i = some t) →
      (∀ i, cont = some i → ∃ t, s.obj i = some t) →
      ∃ s', s.finish fht cont = some s' ∧ Inv mo s' ∧ Within s' ∧ Turn s s' := by
    intro fht cont hfht hcont
    obtain ⟨s', hs', hinv', hidle, hperm, hcloses⟩ := finish_eq hinv hfht hcont
    refine ⟨s', hs', hinv', ?_, .inl ⟨hcloses, hperm⟩⟩
    rw [Within, hidle]
    trivial
  have hdrop : ∀ i t since cont, s.timeq.head? = some i → s.obj i = some t → since ≤ s.now →
      s.now ≤ since + minlife → t.expire < s.now →
      (∀ j, cont = some j → ∃ t, s.obj j = some t ∧ since + minlife ≤ t.expire) →
      ∃ s', s.drop i t since cont = some s' ∧ Inv mo s' ∧ Within s' ∧ Turn s s' := by
    intro i t since cont hhead ht hbegun hsoon hlt hcont
    obtain ⟨rest, hq⟩ := List.head?_eq_some_iff.mp hhead
    obtain ⟨s', hs', hinv', hwithin', hrest, hcloses⟩ :=
      drop_eq hinv hq ht hbegun hsoon hlt hcont
    refine ⟨s', hs', hinv', hwithin', .inr ⟨i, t, hrest ▸ hq, ht, hlt, fun j hj => ?_, hcloses⟩⟩
    have hsorted := hinv.sorted
    rw [hq] at hsorted hj
    rcases List.mem_cons.mp hj with rfl | hj
    · exact Int.le_refl _
    · exact (List.pairwise_cons.mp hsorted).1 j hj
  have hnever : ∀ i, (none : Option ℕ) = some i → ∃ t, s.obj i = some t := by
    intro i hi
    cases hi
  cases hat : s.pc with
  | idle => exact absurd hat hpc
  | entry cont =>
    rw [Within, hat] at hwithin
    have hcont : ∀ i, cont = some i → ∃ t, s.obj i = some t := fun i hi =>
      (hwithin i hi).imp fun _ h => h.1
    cases hhead : s.timeq.head? with
    | none =>
      simp only [go, hat, hhead]
      exact hend none cont hnever hcont
    | some i =>
      obtain ⟨t, ht⟩ := (hinv.queue i).mp (List.mem_of_head? hhead)
      simp only [go, hat, hhead, ht, Option.bind_eq_bind, Option.bind_some]
      split_ifs with hneg hlt
      · exact hdrop i t s.now cont hhead ht (Int.le_refl _) (by simp only [minlife]; omega)
          hlt hwithin
      · refine hend (some i) cont (fun j hj => ?_) hcont
        cases hj
        exact ⟨t, ht⟩
      · exact hend none cont hnever hcont
  | closing nfht since cont =>
    rw [Within, hat] at hwithin
    have hcont : ∀ i, cont = some i → ∃ t, s.obj i = some t := fun i hi =>
      (hwithin.opens i hi).imp fun _ h => h.1
    have hfht : ∀ i, nfht = some i → ∃ t, s.obj i = some t := fun i hi =>
      (hwithin.next i hi).imp fun _ h => h.1
    cases nfht with
    | none =>
      have hzero : ¬ s.minopen < 0 := by
        rw [hinv.count, hwithin.last rfl, List.length_nil]
        omega
      simp only [go, hat, if_neg hzero]
      exact hend none cont hnever hcont
    | some i =>
      obtain ⟨t, ht, hhead⟩ := hwithin.next i rfl
      simp only [go, hat, ht, Option.bind_eq_bind, Option.bind_some]
      split_ifs with hneg hlt
      · have hsoon := hwithin.soon
        exact hdrop i t since cont (hhead (by omega)) ht hwithin.begun hsoon hlt
          hwithin.opens
      · exact hend (some i) cont hfht hcont
      · exact hend (some i) cont hfht hcont

end Fileq

open Fileq

/-- What the events other than a clean-up leave of the calls made. -/
def Moves (s : Fileq φ) (e : Event φ) (s' : Fileq φ) : Prop :=
  match e with
  | .go => Turn s s'
  | _ => s'.closes = s.closes

theorem within_of_touched {i : ℕ} (hinv : Inv mo s) (hwithin : Within s) (hhead : ¬ s.pc.atHead)
    (h : Touched s i s') : Within s' := by
  rw [Within] at hwithin ⊢
  rw [h.pc]
  cases hat : s.pc with
  | idle => trivial
  | entry cont =>
    rw [hat] at hhead
    exact absurd rfl hhead
  | closing nfht since cont =>
    rw [hat] at hwithin
    exact hwithin.touched hinv h

theorem Inv.start (mo now : ℤ) : Inv mo (start (φ := φ) mo now) where
  table serv i := by
    refine iff_of_false (fun h => ?_) ?_
    · cases h
    · rintro ⟨t, ht, -⟩
      cases ht
  queue i := by
    refine iff_of_false (fun h => ?_) ?_
    · cases h
    · rintro ⟨t, ht⟩
      cases ht
  tnodup _ := List.nodup_nil
  nodup := List.nodup_nil
  sorted := List.Pairwise.nil
  fresh _ _ := rfl
  count := (Int.sub_zero mo).symm

variable [DecidableEq φ]

theorem dofh_eq {serv : ℕ} {fh : φ} {openit : Bool} (hinv : Inv mo s) (hwithin : Within s)
    (hhead : ¬ s.pc.atHead) (hlast : s.pc.atLast → (s.find serv fh).isSome) :
    ∃ s', s.dofh serv fh openit = some s' ∧ Inv mo s' ∧ Within s' ∧ s'.closes = s.closes := by
  rw [dofh]
  cases hfind : s.find serv fh with
  | some i =>
    have hin : i ∈ s.fhtab serv := List.mem_of_find?_eq_some hfind
    obtain ⟨t, ht, -⟩ := (hinv.table serv i).mp hin
    cases openit with
    | true =>
      obtain ⟨s', hs', htouched⟩ := fhopen_eq ht
      exact ⟨s', hs', htouched.inv hinv, within_of_touched hinv hwithin hhead htouched,
        htouched.closes⟩
    | false =>
      obtain ⟨s', hs', htouched⟩ := fhtouch_eq ht
      exact ⟨s', hs', htouched.inv hinv, within_of_touched hinv hwithin hhead htouched,
        htouched.closes⟩
  | none =>
    have hinv' := fhalloc_inv hinv serv fh
    have hself := fhalloc_self s serv fh
    simp only
    by_cases hlock : (s.fhalloc serv fh).cleanlock
    · have hwithin' : Within (s.fhalloc serv fh) := by
        cases hat : s.pc with
        | idle =>
          have hidle : (s.fhalloc serv fh).pc = .idle := hat
          rw [cleanlock, hidle] at hlock
          cases hlock
        | entry cont =>
          rw [hat] at hhead
          exact absurd rfl hhead
        | closing nfht since cont =>
          have hclosing : (s.fhalloc serv fh).pc = .closing nfht since cont := hat
          rw [Within, hat] at hwithin
          rw [Within, hclosing]
          refine hwithin.fhalloc hinv serv fh ?_
          rintro rfl
          rw [hat, hfind] at hlast
          cases hlast rfl
      have hhead' : ¬ (s.fhalloc serv fh).pc.atHead := hhead
      rw [if_pos hlock]
      cases openit with
      | true =>
        obtain ⟨s', hs', htouched⟩ := fhopen_eq hself
        exact ⟨s', hs', htouched.inv hinv', within_of_touched hinv' hwithin' hhead' htouched,
          htouched.closes⟩
      | false => exact ⟨_, rfl, hinv', hwithin', rfl⟩
    · rw [if_neg hlock]
      refine ⟨_, rfl, { hinv' with }, ?_, rfl⟩
      intro i hi
      cases openit with
      | true =>
        cases hi
        exact ⟨_, hself, Int.le_refl _⟩
      | false => cases hi

theorem destroy_eq {serv : ℕ} (hinv : Inv mo s) (hwithin : Within s) (hhead : ¬ s.pc.atHead)
    (hfollow : ∀ i ∈ s.pc.followed, ∀ t ∈ s.obj i, t.serv ≠ serv) :
    ∃ s', step s (.destroy serv) = some s' ∧ Inv mo s' ∧ Within s' ∧ s'.closes = s.closes := by
  obtain ⟨s', hs', hinv', hfreed⟩ := foldlM_fhfree hinv (hinv.tnodup serv)
    fun i hi => (hinv.table serv i).mp hi
  refine ⟨{ s' with servs := s.servs.erase serv }, by rw [step, hs']; rfl, { hinv' with }, ?_,
    hfreed.closes⟩
  have hpc : ({ s' with servs := s.servs.erase serv } : Fileq φ).pc = s.pc := hfreed.pc
  rw [Within] at hwithin ⊢
  rw [hpc]
  cases hat : s.pc with
  | idle => trivial
  | entry cont =>
    rw [hat] at hhead
    exact absurd rfl hhead
  | closing nfht since cont =>
    rw [hat] at hwithin hfollow
    have hL : ∀ i, nfht = some i ∨ cont = some i → i ∉ s.fhtab serv := by
      intro i hi hin
      obtain ⟨t, ht, hserv⟩ := (hinv.table serv i).mp hin
      refine hfollow i ?_ t ht hserv
      refine List.mem_append.mpr (hi.imp (fun h => ?_) fun h => ?_)
      · rw [h]
        exact List.mem_singleton.mpr rfl
      · rw [h]
        exact List.mem_singleton.mpr rfl
    have hclosing := hwithin.freed hfreed hL
    exact { hclosing with }

theorem step_eq {e : Event φ} (hmo : 0 ≤ mo) (hinv : Inv mo s) (hwithin : Within s)
    (hcan : Can s e) (hfine : Fine s e) :
    ∃ s', step s e = some s' ∧ Inv mo s' ∧ Within s' ∧ Moves s e s' := by
  cases e with
  | dofh serv fh openit => exact dofh_eq hinv hwithin hcan.2 hfine
  | go => exact go_eq hmo hinv hwithin hcan
  | timer =>
    refine ⟨_, rfl, { hinv with }, ?_, rfl⟩
    intro i hi
    cases hi
  | tick t =>
    refine ⟨_, rfl, { hinv with }, ?_, rfl⟩
    have hpc : ({ s with now := t } : Fileq φ).pc = s.pc := rfl
    rw [Within] at hwithin ⊢
    rw [hpc]
    cases hat : s.pc with
    | idle => trivial
    | entry cont =>
      rw [Can, hat] at hcan
      exact absurd rfl hcan
    | closing nfht since cont =>
      rw [hat] at hwithin
      rw [Fine, hat] at hfine
      obtain ⟨hbegun, hsoon⟩ := hfine since rfl
      exact { hwithin with begun := hbegun, soon := hsoon }
  | create serv =>
    refine ⟨_, rfl, { hinv with }, ?_, rfl⟩
    have hpc : ({ s with servs := serv :: s.servs } : Fileq φ).pc = s.pc := rfl
    rw [Within] at hwithin ⊢
    rw [hpc]
    cases hat : s.pc with
    | idle => trivial
    | entry cont =>
      rw [hat] at hwithin
      exact hwithin
    | closing nfht since cont =>
      rw [hat] at hwithin
      exact { hwithin with }
  | destroy serv => exact destroy_eq hinv hwithin hcan.2 hfine

/-- The queue and the tables hold the same entries, each once. -/
def SameEntries (s : Fileq φ) : Prop :=
  s.timeq.Nodup ∧ (∀ serv, (s.fhtab serv).Nodup) ∧
    ∀ serv i, i ∈ s.fhtab serv ↔ i ∈ s.timeq ∧ ∃ t, s.obj i = some t ∧ t.serv = serv

/-- With a limit that is not negative, in every run whose steps all meet the condition the queue and
the tables hold the same entries, `minopen` is what is left of the limit, and every event goes
through; a `CLOSE` is sent by a clean-up only, for the first entry to expire, once it has expired.
-/
theorem fhclean_run {now : ℤ} {es : List (Event φ)} (hmo : 0 ≤ mo)
    (hrun : Run step (fun s e => Can s e ∧ Fine s e) (start mo now) es s) :
    SameEntries s ∧ s.minopen = mo - s.timeq.length ∧
      ∀ e, Can s e → Fine s e → ∃ s', step s e = some s' ∧ Moves s e s' := by
  have hkept : Inv mo s ∧ Within s := by
    refine hrun.invariant (I := fun s => Inv mo s ∧ Within s) ⟨.start mo now, trivial⟩ ?_
    rintro a e b ⟨hinv, hwithin⟩ ⟨hcan, hfine⟩ hstep
    obtain ⟨s', hs', hinv', hwithin', -⟩ := step_eq hmo hinv hwithin hcan hfine
    rw [hstep] at hs'
    cases hs'
    exact ⟨hinv', hwithin'⟩
  obtain ⟨hinv, hwithin⟩ := hkept
  refine ⟨⟨hinv.nodup, hinv.tnodup, fun serv i => ?_⟩, hinv.count, fun e hcan hfine => ?_⟩
  · rw [hinv.table, hinv.queue]
    refine ⟨fun h => ⟨h.imp fun _ ht => ht.1, h⟩, fun h => h.2⟩
  · obtain ⟨s', hs', -, -, hmoves⟩ := step_eq hmo hinv hwithin hcan hfine
    exact ⟨s', hs', hmoves⟩

/-- Two servers share the queue; later the timer comes, and the second server uses a new handle
while the `CLOSE` of the first entry is at work. -/
theorem fhclean_run_two : ∃ s s' : Fileq ℕ, s.timeq.length = 3 ∧ s.minopen = -3 ∧ SameEntries s ∧
    step s .go = some s' ∧ Turn s s' := by
  have hex : (([.create 0, .create 1, .dofh 0 5 true, .go, .tick 1, .dofh 1 6 false, .go,
      .dofh 1 7 false, .go, .tick 400, .timer, .go, .dofh 1 6 false].foldlM
        (fun s e => if Can s e ∧ Fine s e then step s e else none)
          (start 0 0)).map fun s : Fileq ℕ => (s.timeq.length, s.minopen, s.pc)) =
      some (3, -3, .closing (some 2) 400 none) := by
    decide
  obtain ⟨s, hs, hout⟩ := Option.map_eq_some_iff.mp hex
  simp only [Prod.mk.injEq] at hout
  obtain ⟨hlen, hminopen, hpc⟩ := hout
  obtain ⟨hsame, -, hsteps⟩ := fhclean_run (Int.le_refl 0) (Run.of_checked hs)
  have hcan : Can s .go := by
    rw [Can, hpc]
    decide
  obtain ⟨s', hs', hturn⟩ := hsteps .go hcan trivial
  exact ⟨s, s', hlen, hminopen, hsame, hs', hturn⟩

/-- The `CLOSE` of the only entry is at work, and the server that is asked for it answers another
call first, with a new handle: the loop goes on with the successor that was not there. -/
theorem fhclean_follows_null : ¬ ∀ (es : List (Event ℕ)) (s : Fileq ℕ),
    Run step Can (start 0 0) es s → ∀ e, Can s e → ∃ s', step s e = some s' := by
  intro h
  have hex : (([.create 0, .dofh 0 5 false, .go, .tick 61, .timer, .go, .dofh 0 6 false].foldlM
      (fun s e => if Can s e then step s e else none) (start 0 0)).map
        fun s : Fileq ℕ => (s.pc, (step s .go).isSome)) =
      some (.closing none 61 none, false) := by
    decide
  obtain ⟨s, hs, hout⟩ := Option.map_eq_some_iff.mp hex
  simp only [Prod.mk.injEq] at hout
  have hcan : Can s .go := by
    rw [Can, hout.1]
    decide
  obtain ⟨s', hs'⟩ := h _ s (Run.of_checked hs) .go hcan
  rw [hs'] at hout
  cases hout.2

end Sfslite.Sfsmisc.Closesim
