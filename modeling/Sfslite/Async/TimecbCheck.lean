import Sfslite.Async.TimecbTree
import Sfslite.Lib.Run

/-!
Calls of `timecb_check`, over every behaviour of the callbacks: which timers run, and how long
the select wait is.
-/

namespace Sfslite.Async.Timecb

open Sfslite.Lib (Run)

def nanos (ts : Timespec) : ℤ := ts.tvSec * 1000000000 + ts.tvNsec

/-- A `timeval` in nanoseconds. -/
def waitNanos (w : ℤ × ℤ) : ℤ := w.1 * 1000000000 + w.2 * 1000

theorem nanos_le {a b : Timespec} (h : tscmp a b ≤ 0) (ha : a.tvNsec < bil) :
    nanos a ≤ nanos b := by
  rw [tscmp_nonpos_iff] at h
  simp only [bil, nanos] at *
  omega

theorem waitFor_spec {ts now : Timespec} (hts : ts.tvNsec < bil) (hnow : now.tvNsec < bil) :
    0 ≤ (Core.waitFor ts now).1 ∧ 0 ≤ (Core.waitFor ts now).2 ∧
      waitNanos (Core.waitFor ts now) ≤ max 0 (nanos ts - nanos now) := by
  simp only [bil] at hts hnow
  unfold Core.waitFor
  split_ifs with hlt hge
  · simp only [waitNanos]
    omega
  · have hsec : now.tvSec ≤ ts.tvSec := by
      rw [tscmp_neg_iff] at hlt
      omega
    rw [Int.tdiv_eq_ediv_of_nonneg (by omega)]
    simp only [waitNanos, nanos]
    omega
  · have hsec : now.tvSec < ts.tvSec := by
      rw [tscmp_neg_iff] at hlt
      omega
    rw [Int.tdiv_eq_ediv_of_nonneg (by omega)]
    simp only [waitNanos, nanos]
    omega

/-- `a` is `n` or behind it. -/
def From (L : List ℕ) (n a : ℕ) : Prop := (n = a ∧ a ∈ L) ∨ [n, a].Sublist L

section From

variable {L L' : List ℕ} {n a : ℕ}

theorem From.mem (h : From L n a) : a ∈ L := by
  rcases h with ⟨-, h⟩ | h
  · exact h
  · exact h.subset (by simp)

theorem From.mem_left (h : From L n a) : n ∈ L := by
  rcases h with ⟨rfl, h⟩ | h
  · exact h
  · exact h.subset (by simp)

theorem From.mono (h : From L n a) (hsub : L.Sublist L') : From L' n a := by
  rcases h with ⟨hna, h⟩ | h
  · exact Or.inl ⟨hna, hsub.subset h⟩
  · exact Or.inr (h.trans hsub)

theorem from_head (h : a ∈ L) : From L (L.headD 0) a := by
  cases L with
  | nil => cases h
  | cons x L =>
    rcases List.mem_cons.mp h with rfl | h
    · exact Or.inl ⟨rfl, by simp⟩
    · exact Or.inr (List.Sublist.cons_cons x (List.singleton_sublist.mpr h))

theorem From.cut {pre post : List ℕ} (h : From (pre ++ n :: post) n a) (hne : a ≠ n)
    (hnd : (pre ++ n :: post).Nodup) : From (pre ++ post) (post.headD 0) a := by
  have hpost : a ∈ post := by
    rcases h with ⟨rfl, -⟩ | h
    · exact absurd rfl hne
    · obtain ⟨l₁, l₂, hl, h₁, h₂⟩ := List.sublist_append_iff.mp h
      cases l₁ with
      | nil =>
        rw [List.nil_append] at hl
        subst hl
        exact List.singleton_sublist.mp (List.cons_sublist_cons.mp h₂)
      | cons x l₁ =>
        obtain ⟨rfl, -⟩ := List.cons.inj hl
        have hn : n ∈ pre := h₁.subset (by simp)
        exact absurd rfl ((List.nodup_append.mp hnd).2.2 n hn n (by simp))
  exact (from_head hpost).mono (List.sublist_append_right pre post)

end From

def Done (s : Core) (d : Timer) : Prop := d ∈ s.ran ∨ d ∈ s.removed

/-- The timers of `P` that were due at `now` are done or still pending. -/
def Kept (P : List Timer) (s : Core) (L : List ℕ) (now : Timespec) : Prop :=
  ∀ d ∈ P, tscmp d.ts now ≤ 0 → Done s d ∨ ∃ a ∈ L, s.timer a = d

/-- They are done or not before `n`. -/
def Ahead (P : List Timer) (s : Core) (L : List ℕ) (n : ℕ) (now : Timespec) : Prop :=
  (n = 0 ∨ n ∈ L) ∧ ∀ d ∈ P, tscmp d.ts now ≤ 0 → Done s d ∨ ∃ a, s.timer a = d ∧ From L n a

/-- Every timer that ran was due. -/
def RanDue (s : Core) (now : Timespec) : Prop := ∀ x ∈ s.ran, tscmp x.ts now ≤ 0

/-- Inside the body of the loop, where the saved timer `ntp` counts unless a timer was
removed. -/
structure Calling (P : List Timer) (s : Core) (L : List ℕ) (ntp : ℕ) (now : Timespec) :
    Prop where
  began : s.began = some now
  ranDue : RanDue s now
  going : if s.altered then Kept P s L now else Ahead P s L ntp now

/-- Behind the loop. -/
structure Ended (P : List Timer) (s : Core) (now : Timespec) : Prop where
  began : s.began = some now
  ranDue : RanDue s now
  done : ∀ d ∈ P, tscmp d.ts now ≤ 0 → Done s d

/-- The select wait is not negative and no longer than any pending timer allows. -/
def WaitOk (s : Core) (L : List ℕ) (now : Timespec) : Prop :=
  0 ≤ s.selwait.1 ∧ 0 ≤ s.selwait.2 ∧
    ∀ a ∈ L, waitNanos s.selwait ≤ max 0 (nanos (s.timer a).ts - nanos now)

def Place (P : List Timer) (s : Core) (L : List ℕ) : Prop :=
  match s.pc with
  | .entry => L.map s.timer = P ∧ s.ran = [] ∧ s.removed = [] ∧ s.began = none
  | .test tp myTs => s.began = some myTs ∧ RanDue s myTs ∧ Ahead P s L tp myTs
  | .callback _ ntp myTs | .deleted ntp myTs => Calling P s L ntp myTs
  | .wait => ∃ now, Ended P s now
  | .over => (∃ now, Ended P s now) ∧ ∃ now, s.ended = some now ∧ WaitOk s L now

/-- `P` are the timers that were pending when `timecb_check` was called, and `n₀` is the number
of timers made before. -/
structure Inv (P : List Timer) (n₀ : ℕ) (s : Core) (L : List ℕ) : Prop where
  wf : Wf s L
  place : Place P s L
  count : s.ran.length + s.removed.length + L.length + n₀ = P.length + s.nextId

section Step

variable {P : List Timer} {n₀ : ℕ} {s s' : Core} {L : List ℕ}

theorem Wf.of_eq (h : Wf s L) (htree : s'.timecbs = s.timecbs) (htimer : s'.timer = s.timer)
    (hlive : s'.live = s.live) (hrunning : s'.running = s.running) (hran : s'.ran = s.ran)
    (hremoved : s'.removed = s.removed) (hnext : s'.nextId = s.nextId) : Wf s' L where
  tree := htree ▸ h.tree
  sorted := by
    unfold Core.cmp
    rw [htimer]
    exact h.sorted
  live := hlive ▸ hrunning ▸ h.live
  nodup := hlive ▸ h.nodup
  norm := htimer ▸ h.norm
  ids := by
    rw [hran, hremoved, htimer]
    exact h.ids
  fresh := by
    rw [hran, hremoved, htimer, hnext]
    exact h.fresh

theorem place_calling (hcall : s.calling = true) :
    ∃ ntp myTs, ∀ s' : Core, s'.pc = s.pc → ∀ L', Place P s' L' ↔ Calling P s' L' ntp myTs := by
  cases hpc : s.pc with
  | callback tp ntp myTs =>
    refine ⟨ntp, myTs, fun s' hs' L' => ?_⟩
    simp only [Place, hs']
  | deleted ntp myTs =>
    refine ⟨ntp, myTs, fun s' hs' L' => ?_⟩
    simp only [Place, hs']
  | _ => simp [Core.calling, hpc, Pc.isCallback, Pc.isDeleted] at hcall

theorem Inv.start (h : Inv P n₀ s L) (hpc : s.pc = .entry) {m : Moment}
    (hcur : Current s (.start m)) : ∃ s', s.start m = some s' ∧ Inv P n₀ s' L := by
  have hrun : s.running = [] := by rw [Core.running, hpc]
  have hplace := h.place
  simp only [Place, hpc] at hplace
  obtain ⟨hP, hran, hremoved, -⟩ := hplace
  have hfirst := h.wf.first_eq
  cases L with
  | nil =>
    refine ⟨{ s with pc := .wait, began := some m.now }, ?_, ?_, ?_, h.count⟩
    · simp only [Core.start, hfirst, Option.bind_eq_bind, Option.bind_some, List.headD_nil,
        if_true]
    · exact h.wf.of_eq rfl rfl rfl hrun.symm rfl rfl rfl
    · refine ⟨m.now, rfl, fun x hx => ?_, fun d hd => ?_⟩
      · have hx : x ∈ s.ran := hx
        rw [hran] at hx
        cases hx
      · rw [← hP] at hd
        cases hd
  | cons x L =>
    have hx : x ≠ 0 := h.wf.ne_zero List.mem_cons_self
    have hnow : (s.clock.setTimestamp.getTsnow false m).tsnow = m.now := hcur x hfirst hx
    refine ⟨{ s with
      clock := s.clock.setTimestamp.getTsnow false m
      pc := .test x m.now
      began := some m.now }, ?_, ?_, ?_, h.count⟩
    · simp only [Core.start, hfirst, Option.bind_eq_bind, Option.bind_some, List.headD_cons,
        if_neg hx, hnow]
    · exact h.wf.of_eq rfl rfl rfl hrun.symm rfl rfl rfl
    · refine ⟨rfl, fun y hy => ?_, Or.inr List.mem_cons_self, fun d hd _ => Or.inr ?_⟩
      · have hy : y ∈ s.ran := hy
        rw [hran] at hy
        cases hy
      · rw [← hP] at hd
        obtain ⟨a, ha, rfl⟩ := List.mem_map.mp hd
        exact ⟨a, rfl, from_head ha⟩

variable {myTs : Timespec}

theorem Inv.test (h : Inv P n₀ s L) {tp : ℕ} (hpc : s.pc = .test tp myTs) :
    ∃ s' L', s.test tp myTs = some s' ∧ Inv P n₀ s' L' := by
  have hrun : s.running = [] := by rw [Core.running, hpc]
  have hplace := h.place
  simp only [Place, hpc] at hplace
  obtain ⟨hbegan, hran, htp, hdone⟩ := hplace
  have hstop : (∀ d ∈ P, tscmp d.ts myTs ≤ 0 → ∀ a, s.timer a = d → ¬ From L tp a) →
      Inv P n₀ { s with pc := .wait } L := by
    intro hnone
    refine ⟨h.wf.of_eq rfl rfl rfl hrun.symm rfl rfl rfl, ⟨myTs, hbegan, hran, ?_⟩, h.count⟩
    intro d hd hdue
    rcases hdone d hd hdue with hd' | ⟨a, ha, hfrom⟩
    · exact hd'
    · exact absurd hfrom (hnone d hd hdue a ha)
  by_cases h0 : tp = 0
  · refine ⟨_, L, if_pos h0, hstop fun d _ _ a _ hfrom => ?_⟩
    exact h.wf.ne_zero hfrom.mem_left h0
  have hmem : tp ∈ L := htp.resolve_left h0
  have hlive : ¬ tp ∉ s.live := not_not.mpr (h.wf.mem_live hmem)
  by_cases hdue : tscmp (s.timer tp).ts myTs ≤ 0
  swap
  · refine ⟨{ s with pc := .wait }, L, ?_, hstop ?_⟩
    · rw [Core.test, if_neg h0, if_neg hlive, if_neg hdue]
    · rintro d hd hd' a rfl hfrom
      have hle : tscmp (s.timer tp).ts (s.timer a).ts ≤ 0 := by
        rcases hfrom with ⟨rfl, -⟩ | hsub
        · exact Int.le_of_eq (tscmp_self _)
        · exact (List.pairwise_cons.mp (h.wf.sorted.sublist hsub)).1 a (by simp)
      exact hdue (tscmp_trans hle hd')
  obtain ⟨t, pre, post, hdel, hL, htree⟩ := h.wf.delete_eq hmem
  have hnext := h.wf.next_eq hL
  refine ⟨s.called tp (post.headD 0) myTs t, pre ++ post, ?_, h.wf.called hrun hL htree _ _, ?_,
    ?_⟩
  · rw [Core.test, if_neg h0, if_neg hlive, if_pos hdue, hnext]
    simp only [Option.bind_eq_bind, Option.bind_some, hdel]
    rfl
  · refine ⟨hbegan, fun x hx => ?_, ?_, fun d hd hdd => ?_⟩
    · rcases List.mem_append.mp hx with hx | hx
      · exact hran x hx
      · rw [List.mem_singleton.mp hx]
        exact hdue
    · cases post with
      | nil => exact Or.inl rfl
      | cons x post => exact Or.inr (by simp)
    · rcases hdone d hd hdd with (hd' | hd') | ⟨a, ha, hfrom⟩
      · exact Or.inl (Or.inl (List.mem_append_left _ hd'))
      · exact Or.inl (Or.inr hd')
      · by_cases hat : a = tp
        · subst hat
          subst ha
          exact Or.inl (Or.inl (List.mem_append_right _ (List.mem_singleton.mpr rfl)))
        · rw [hL] at hfrom
          have hnd := h.wf.list_nodup
          rw [hL] at hnd
          exact Or.inr ⟨a, ha, hfrom.cut hat hnd⟩
  · have hcount := h.count
    rw [hL] at hcount
    simp only [Core.called, List.length_append, List.length_cons, List.length_nil] at hcount ⊢
    omega

variable {tcb ntp : ℕ}

theorem Inv.timecb (h : Inv P n₀ s L) (hcall : s.calling = true) (hne : tcb ≠ 0)
    (hfree : tcb ∉ s.live) (ts : Timespec) :
    ∃ s' L', s.timecb tcb ts = some s' ∧ Inv P n₀ s' L' := by
  obtain ⟨ntp, myTs, hpl⟩ := place_calling hcall
  obtain ⟨hbegan, hran, hgoing⟩ := (hpl s rfl L).mp h.place
  obtain ⟨t, before, after, hadd, hL, hwf⟩ := h.wf.timecb_eq hne hfree ts
  have htcb : tcb ∉ L := fun hmem => hfree (h.wf.mem_live hmem)
  have hsub : L.Sublist (before ++ tcb :: after) := by
    rw [hL]
    exact List.Sublist.append_left (List.sublist_cons_self tcb after) before
  have hsame : ∀ a ∈ L, (s.added tcb ts t).timer a = s.timer a := by
    intro a ha
    have hat : a ≠ tcb := fun heq => htcb (heq ▸ ha)
    exact Function.update_of_ne hat _ _
  refine ⟨_, _, hadd, hwf, (hpl (s.added tcb ts t) rfl _).mpr ⟨hbegan, hran, ?_⟩, ?_⟩
  · show if s.altered then _ else _
    split_ifs at hgoing ⊢
    · intro d hd hdue
      rcases hgoing d hd hdue with hd' | ⟨a, ha, had⟩
      · exact Or.inl hd'
      · exact Or.inr ⟨a, hsub.subset ha, (hsame a ha).trans had⟩
    · refine ⟨hgoing.1.imp id fun hmem => hsub.subset hmem, fun d hd hdue => ?_⟩
      rcases hgoing.2 d hd hdue with hd' | ⟨a, had, hfrom⟩
      · exact Or.inl hd'
      · exact Or.inr ⟨a, (hsame a hfrom.mem).trans had, hfrom.mono hsub⟩
  · have hcount := h.count
    rw [hL] at hcount
    simp only [Core.added, List.length_append, List.length_cons] at hcount ⊢
    omega

theorem Calling.kept {now : Timespec} (h : Calling P s L ntp now) : Kept P s L now := by
  have hgoing := h.going
  split_ifs at hgoing
  · exact hgoing
  · intro d hd hdue
    rcases hgoing.2 d hd hdue with hd' | ⟨a, had, hfrom⟩
    · exact Or.inl hd'
    · exact Or.inr ⟨a, hfrom.mem, had⟩

theorem Inv.remove (h : Inv P n₀ s L) (hcall : s.calling = true)
    (hok : tcb = 0 ∨ (tcb ∈ s.live ∧ tcb ∉ s.running)) (junk : Timer) (link : ItreeEntry) :
    ∃ s' L', s.timecbRemove tcb junk link = some s' ∧ Inv P n₀ s' L' := by
  by_cases h0 : tcb = 0
  · exact ⟨s, L, if_pos h0, h⟩
  obtain ⟨hlive, hrunning⟩ := hok.resolve_left h0
  obtain ⟨ntp, myTs, hpl⟩ := place_calling hcall
  have hplace := (hpl s rfl L).mp h.place
  obtain ⟨t, pre, post, hrem, hL, hwf⟩ :=
    h.wf.timecbRemove_eq (h.wf.mem_of_live hlive hrunning) junk link
  have hnot : tcb ∉ pre ++ post := by
    have hnd := h.wf.list_nodup
    rw [hL] at hnd
    exact (List.nodup_cons.mp (List.perm_middle.nodup_iff.mp hnd)).1
  refine ⟨_, _, hrem, hwf, (hpl (s.dropped tcb t junk link) rfl _).mpr
    ⟨hplace.began, hplace.ranDue, ?_⟩, ?_⟩
  · show Kept P (s.dropped tcb t junk link) (pre ++ post) myTs
    intro d hd hdue
    rcases hplace.kept d hd hdue with (hd' | hd') | ⟨a, ha, had⟩
    · exact Or.inl (Or.inl hd')
    · exact Or.inl (Or.inr (List.mem_append_left _ hd'))
    · by_cases hat : a = tcb
      · subst hat
        subst had
        exact Or.inl (Or.inr (List.mem_append_right _ (List.mem_singleton.mpr rfl)))
      · have ha' : a ∈ pre ++ post := by
          rw [hL] at ha
          exact (List.mem_cons.mp (List.perm_middle.mem_iff.mp ha)).resolve_left hat
        have hsame : (s.dropped tcb t junk link).timer a = s.timer a :=
          Function.update_of_ne hat _ _
        exact Or.inr ⟨a, ha', hsame.trans had⟩
  · have hcount := h.count
    rw [hL] at hcount
    simp only [Core.dropped, List.length_append, List.length_cons, List.length_nil] at hcount ⊢
    omega

theorem Inv.setClock (h : Inv P n₀ s L) (hcall : s.calling = true) (c : Clock) :
    Inv P n₀ { s with clock := c } L := by
  obtain ⟨ntp, myTs, hpl⟩ := place_calling hcall
  have hplace := (hpl s rfl L).mp h.place
  exact ⟨h.wf.of_eq rfl rfl rfl rfl rfl rfl rfl,
    (hpl { s with clock := c } rfl L).mpr { hplace with }, h.count⟩

theorem Inv.delaycb (h : Inv P n₀ s L) (hcall : s.calling = true) (hne : tcb ≠ 0)
    (hfree : tcb ∉ s.live) (sec : ℤ) (nsec : ℕ) (m : Moment) :
    ∃ s' L', s.delaycb tcb sec nsec m = some s' ∧ Inv P n₀ s' L' := by
  unfold Core.delaycb
  split_ifs
  · exact h.timecb hcall hne hfree _
  · exact (h.setClock hcall (s.clock.getTsnow true m)).timecb hcall hne hfree _

theorem Inv.ret (h : Inv P n₀ s L) {tp : ℕ}
    (hpc : s.pc = .callback tp ntp myTs) (junk : Timer) (link : ItreeEntry) :
    tp ∈ s.live ∧ Inv P n₀ { s.free tp junk link with pc := .deleted ntp myTs } L := by
  obtain ⟨hlive, hwf⟩ := h.wf.freed hpc junk link
  have hplace := h.place
  simp only [Place, hpc] at hplace
  obtain ⟨hbegan, hran, hgoing⟩ := hplace
  have htp : tp ∉ L := by
    have hperm := h.wf.live
    rw [Core.running, hpc] at hperm
    exact (List.nodup_cons.mp (hperm.nodup_iff.mp h.wf.nodup)).1
  have hsame : ∀ a ∈ L, (s.free tp junk link).timer a = s.timer a := by
    intro a ha
    have hat : a ≠ tp := fun heq => htp (heq ▸ ha)
    exact Function.update_of_ne hat _ _
  refine ⟨hlive, hwf, ⟨hbegan, hran, ?_⟩, h.count⟩
  show if s.altered then _ else _
  split_ifs at hgoing ⊢
  · intro d hd hdue
    rcases hgoing d hd hdue with hd' | ⟨a, ha, had⟩
    · exact Or.inl hd'
    · exact Or.inr ⟨a, ha, (hsame a ha).trans had⟩
  · refine ⟨hgoing.1, fun d hd hdue => ?_⟩
    rcases hgoing.2 d hd hdue with hd' | ⟨a, had, hfrom⟩
    · exact Or.inl hd'
    · exact Or.inr ⟨a, (hsame a hfrom.mem).trans had, hfrom⟩

theorem Inv.advance (h : Inv P n₀ s L) (hpc : s.pc = .deleted ntp myTs) :
    ∃ s', s.advance ntp myTs = some s' ∧ Inv P n₀ s' L := by
  have hrun : s.running = [] := by rw [Core.running, hpc]
  have hplace := h.place
  simp only [Place, hpc] at hplace
  obtain ⟨hbegan, hran, hgoing⟩ := hplace
  have hgo : ∀ n, Ahead P s L n myTs → Inv P n₀ { s with pc := .test n myTs } L := fun n hn =>
    ⟨h.wf.of_eq rfl rfl rfl hrun.symm rfl rfl rfl, ⟨hbegan, hran, hn⟩, h.count⟩
  unfold Core.advance
  by_cases halt : s.altered
  · rw [if_pos halt] at hgoing
    refine ⟨{ s with pc := .test (L.headD 0) myTs }, ?_, hgo _ ⟨?_, fun d hd hdue => ?_⟩⟩
    · simp only [if_pos halt, h.wf.first_eq, Option.bind_eq_bind, Option.bind_some]
    · cases L with
      | nil => exact Or.inl rfl
      | cons x L => exact Or.inr List.mem_cons_self
    · rcases hgoing d hd hdue with hd' | ⟨a, ha, had⟩
      · exact Or.inl hd'
      · exact Or.inr ⟨a, had, from_head ha⟩
  · rw [if_neg halt] at hgoing
    refine ⟨{ s with pc := .test ntp myTs }, ?_, hgo _ hgoing⟩
    simp only [if_neg halt, Option.bind_eq_bind, Option.bind_some]

theorem Inv.wait (h : Inv P n₀ s L) (hpc : s.pc = .wait) {m : Moment} (hm : m.now.tvNsec < bil)
    (hcur : Current s (.wait m)) : ∃ s', s.wait m = some s' ∧ Inv P n₀ s' L := by
  have hrun : s.running = [] := by rw [Core.running, hpc]
  have hplace := h.place
  simp only [Place, hpc] at hplace
  obtain ⟨now, hbegan, hran, hdone⟩ := hplace
  have hover : ∀ (c : Clock) (w : ℤ × ℤ), WaitOk { s with selwait := w } L m.now →
      Inv P n₀ { s with pc := .over, ended := some m.now, clock := c, selwait := w } L := by
    intro c w hw
    exact ⟨h.wf.of_eq rfl rfl rfl hrun.symm rfl rfl rfl,
      ⟨⟨now, hbegan, hran, hdone⟩, m.now, rfl, hw⟩, h.count⟩
  have hzero : WaitOk { s with selwait := (0, 0) } L m.now := by
    refine ⟨Int.le_refl _, Int.le_refl _, fun a _ => ?_⟩
    simp only [waitNanos]
    omega
  have hfirst := h.wf.first_eq
  by_cases hbusy : s.busywait ∨ s.sigdocheck
  · exact ⟨_, if_pos hbusy, hover s.clock (0, 0) hzero⟩
  have hfirst' : Core.first { s with pc := .over, ended := some m.now } = some (L.headD 0) :=
    hfirst
  simp only [Core.wait, if_neg hbusy, hfirst', Option.bind_eq_bind, Option.bind_some]
  cases L with
  | nil =>
    refine ⟨_, if_pos rfl, hover s.clock (86400, 0) ⟨?_, Int.le_refl _, by simp⟩⟩
    show (0 : ℤ) ≤ 86400
    decide
  | cons x L =>
    have hx : x ≠ 0 := h.wf.ne_zero List.mem_cons_self
    have hlive : ¬ x ∉ s.live := not_not.mpr (h.wf.mem_live List.mem_cons_self)
    rw [List.headD_cons, if_neg hx, if_neg hlive]
    by_cases hsec : (s.timer x).ts.tvSec = 0
    · exact ⟨_, if_pos hsec, hover s.clock (0, 0) hzero⟩
    have hnow : (s.clock.setTimestamp.getTsnow false m).tsnow = m.now :=
      hcur x hfirst hx hbusy hsec
    rw [if_neg hsec, hnow]
    refine ⟨_, rfl, hover _ _ ?_⟩
    have hxn : (s.timer x).ts.tvNsec < bil := h.wf.norm x List.mem_cons_self
    obtain ⟨h1, h2, h3⟩ := waitFor_spec hxn hm
    refine ⟨h1, h2, fun a ha => ?_⟩
    have hle : nanos (s.timer x).ts ≤ nanos (s.timer a).ts := by
      rcases List.mem_cons.mp ha with rfl | ha
      · exact Int.le_refl _
      · exact nanos_le ((List.pairwise_cons.mp h.wf.sorted).1 a ha) hxn
    have h3 : waitNanos (Core.waitFor (s.timer x).ts m.now) ≤
        max 0 (nanos (s.timer x).ts - nanos m.now) := h3
    show waitNanos (Core.waitFor (s.timer x).ts m.now) ≤
      max 0 (nanos (s.timer a).ts - nanos m.now)
    omega

theorem Inv.step (h : Inv P n₀ s L) {e : Event} (hok : Allowed s e) (hcur : Current s e) :
    ∃ s' L', step s e = some s' ∧ Inv P n₀ s' L' := by
  cases e with
  | start m =>
    obtain ⟨s', hs', hinv⟩ := h.start hok.1 hcur
    exact ⟨s', L, hs', hinv⟩
  | test =>
    cases hpc : s.pc with
    | test tp myTs =>
      obtain ⟨s', L', hs', hinv⟩ := h.test hpc
      refine ⟨s', L', ?_, hinv⟩
      simp only [Timecb.step, hpc, hs']
    | _ => simp [Allowed, hpc, Pc.isTest] at hok
  | timecb tcb ts => exact h.timecb hok.1 hok.2.1 hok.2.2 ts
  | delaycb tcb sec nsec m => exact h.delaycb hok.1 hok.2.1 hok.2.2 sec nsec m
  | remove tcb junk link => exact h.remove hok.1 hok.2 junk link
  | setClock c => exact ⟨_, L, rfl, h.setClock hok c⟩
  | signal =>
    refine ⟨{ s with sigdocheck := true }, L, rfl, h.wf.of_eq rfl rfl rfl rfl rfl rfl rfl, ?_,
      h.count⟩
    have hplace := h.place
    unfold Place at hplace ⊢
    cases hpc : s.pc <;> simp only [hpc] at hplace ⊢
    · exact hplace
    · exact hplace
    · exact { hplace with }
    · exact { hplace with }
    · obtain ⟨now, hnow⟩ := hplace
      exact ⟨now, hnow.began, hnow.ranDue, hnow.done⟩
    · obtain ⟨⟨now, hnow⟩, hwait⟩ := hplace
      exact ⟨⟨now, hnow.began, hnow.ranDue, hnow.done⟩, hwait⟩
  | ret junk link =>
    cases hpc : s.pc with
    | callback tp ntp myTs =>
      obtain ⟨hlive, hinv⟩ := h.ret hpc junk link
      refine ⟨_, L, ?_, hinv⟩
      simp only [Timecb.step, hpc, if_pos hlive]
    | _ => simp [Allowed, hpc, Pc.isCallback] at hok
  | advance =>
    cases hpc : s.pc with
    | deleted ntp myTs =>
      obtain ⟨s', hs', hinv⟩ := h.advance hpc
      refine ⟨s', L, ?_, hinv⟩
      simp only [Timecb.step, hpc, hs']
    | _ => simp [Allowed, hpc, Pc.isDeleted] at hok
  | wait m =>
    obtain ⟨s', hs', hinv⟩ := h.wait hok.1 hok.2 hcur
    exact ⟨s', L, hs', hinv⟩

/-- No event that can come makes the program panic, run out of the tree or look at a timer that
was deleted, whatever the clock says. -/
theorem Inv.step_ok (h : Inv P n₀ s L) {e : Event} (hok : Allowed s e) :
    ∃ s', Timecb.step s e = some s' := by
  have hother : Current s e → ∃ s', Timecb.step s e = some s' := fun hcur => by
    obtain ⟨s', -, hs', -⟩ := h.step hok hcur
    exact ⟨s', hs'⟩
  have hfirst := h.wf.first_eq
  cases e with
  | start m =>
    show ∃ s', s.start m = some s'
    simp only [Core.start, hfirst, Option.bind_eq_bind, Option.bind_some]
    split_ifs <;> exact ⟨_, rfl⟩
  | wait m =>
    show ∃ s', s.wait m = some s'
    have hfirst' : Core.first { s with pc := .over, ended := some m.now } =
        some (L.headD 0) := hfirst
    simp only [Core.wait, hfirst', Option.bind_eq_bind, Option.bind_some]
    by_cases hbusy : s.busywait ∨ s.sigdocheck
    · exact ⟨_, if_pos hbusy⟩
    rw [if_neg hbusy]
    cases L with
    | nil => exact ⟨_, if_pos rfl⟩
    | cons x L =>
      have hlive : ¬ x ∉ s.live := not_not.mpr (h.wf.mem_live List.mem_cons_self)
      rw [List.headD_cons, if_neg (h.wf.ne_zero List.mem_cons_self), if_neg hlive]
      split_ifs <;> exact ⟨_, rfl⟩
  | _ => exact hother trivial

end Step

/-- What a call that began in `s₀`, with the timers `L₀` pending, keeps to up to `s`. -/
structure Checked (s₀ : Core) (L₀ : List ℕ) (s : Core) : Prop where
  pending : ∃ L, Wf s L
  once : (s.ran.map Timer.id).Nodup
  notRemoved : ∀ x ∈ s.removed, x.id ∉ s.ran.map Timer.id
  due : ∀ now ∈ s.began, ∀ x ∈ s.ran, tscmp x.ts now ≤ 0
  all : s.pc = .over → ∀ now ∈ s.began, ∀ a ∈ L₀, tscmp (s₀.timer a).ts now ≤ 0 →
    s₀.timer a ∈ s.ran ∨ s₀.timer a ∈ s.removed
  wait : s.pc = .over → 0 ≤ s.selwait.1 ∧ 0 ≤ s.selwait.2 ∧ ∀ now ∈ s.ended, ∀ a ∈ s.live,
    waitNanos s.selwait ≤ max 0 (nanos (s.timer a).ts - nanos now)
  safe : ∀ e, Allowed s e → ∃ s', step s e = some s'
  turns : s.ran.length + s₀.nextId ≤ L₀.length + s.nextId

/-- The state in which `timecb_check` is called, with the timers `L` pending. -/
structure Ready (s : Core) (L : List ℕ) : Prop where
  wf : Wf s L
  entry : s.pc = .entry
  ran : s.ran = []
  removed : s.removed = []
  began : s.began = none

theorem Inv.checked {s₀ s : Core} {L₀ L : List ℕ} {n₀ : ℕ} (hn₀ : n₀ = s₀.nextId)
    (h : Inv (L₀.map s₀.timer) n₀ s L) : Checked s₀ L₀ s := by
  have hids := h.wf.ids
  rw [List.map_append, List.map_append] at hids
  have hspent := (List.nodup_append.mp hids).1
  obtain ⟨honce, -, hdisj⟩ := List.nodup_append.mp hspent
  refine ⟨⟨L, h.wf⟩, honce, ?_, ?_, ?_, ?_, fun e he => h.step_ok he, ?_⟩
  · intro x hx hran
    exact hdisj x.id hran x.id (List.mem_map_of_mem hx) rfl
  · intro now hnow x hx
    have hplace := h.place
    unfold Place at hplace
    have hdue : ∀ now', s.began = some now' → RanDue s now' → tscmp x.ts now ≤ 0 := by
      intro now' hbegan hran
      cases hbegan.symm.trans hnow
      exact hran x hx
    cases hpc : s.pc <;> simp only [hpc] at hplace
    · rw [hplace.2.2.2] at hnow
      cases hnow
    · exact hdue _ hplace.1 hplace.2.1
    · exact hdue _ hplace.began hplace.ranDue
    · exact hdue _ hplace.began hplace.ranDue
    · obtain ⟨now', hend⟩ := hplace
      exact hdue _ hend.began hend.ranDue
    · obtain ⟨⟨now', hend⟩, -⟩ := hplace
      exact hdue _ hend.began hend.ranDue
  · intro hpc now hnow a ha hdue
    have hplace := h.place
    simp only [Place, hpc] at hplace
    obtain ⟨⟨now', hend⟩, -⟩ := hplace
    cases hend.began.symm.trans hnow
    exact hend.done _ (List.mem_map_of_mem ha) hdue
  · intro hpc
    have hplace := h.place
    simp only [Place, hpc] at hplace
    obtain ⟨-, now', hended, h1, h2, h3⟩ := hplace
    refine ⟨h1, h2, fun now hnow a ha => ?_⟩
    cases hended.symm.trans hnow
    refine h3 a (h.wf.mem_of_live ha ?_)
    rw [Core.running, hpc]
    exact List.not_mem_nil
  · have hcount := h.count
    rw [List.length_map] at hcount
    omega

/-- A call of `timecb_check` during which the clock is current wherever it is read runs every
timer that is due, none twice, early or after its removal, and sets a select wait that every
remaining timer allows. -/
theorem timecb_check_run {s₀ s : Core} {L₀ : List ℕ} {es : List Event} (h₀ : Ready s₀ L₀)
    (hrun : Run step (fun s e => Allowed s e ∧ Current s e) s₀ es s) : Checked s₀ L₀ s := by
  have hinit : ∃ L, Inv (L₀.map s₀.timer) s₀.nextId s₀ L := by
    refine ⟨L₀, h₀.wf, ?_, ?_⟩
    · simp only [Place, h₀.entry]
      exact ⟨trivial, h₀.ran, h₀.removed, h₀.began⟩
    · simp only [h₀.ran, h₀.removed, List.length_nil, List.length_map]
      omega
  obtain ⟨L, h⟩ := hrun.invariant (I := fun s => ∃ L, Inv (L₀.map s₀.timer) s₀.nextId s L) hinit
    (by
      rintro a e b ⟨L, ha⟩ ⟨hok, hcur⟩ hstep
      obtain ⟨b', L', hb', hinv⟩ := ha.step hok hcur
      cases hb'.symm.trans hstep
      exact ⟨L', hinv⟩)
  exact h.checked rfl

theorem wf_init : Wf Core.init [] where
  tree := ⟨.nil, ⟨rfl, trivial, List.nodup_nil⟩, ⟨rfl, 0, rfl⟩, rfl⟩
  sorted := List.Pairwise.nil
  live := .nil
  nodup := List.nodup_nil
  norm := nofun
  ids := List.nodup_nil
  fresh := nofun

def oneTimer : Core := (Core.init.timecb 8 ⟨100, 0⟩).getD .init

theorem ready_oneTimer : Ready oneTimer [8] := by
  obtain ⟨t, before, after, hadd, hL, hwf⟩ :=
    wf_init.timecb_eq (by decide : 8 ≠ 0) (by decide) ⟨100, 0⟩
  have hone : oneTimer = Core.init.added 8 ⟨100, 0⟩ t := by
    rw [oneTimer, hadd]
    rfl
  obtain ⟨rfl, rfl⟩ := List.append_eq_nil_iff.mp hL.symm
  rw [hone]
  exact ⟨hwf, rfl, rfl, rfl, rfl⟩

def second (n : ℤ) : Moment := ⟨⟨n, 0⟩, ⟨n, 0⟩⟩

def junkTimer : Timer := ⟨0, ⟨-1, 0⟩⟩

def junkLink : ItreeEntry := ⟨1, 2, 3, .red⟩

/-- The callback sets a timer for one second later, and takes `late` seconds to return. -/
def setsTimer (late : ℤ) : List Event :=
  [.start (second 100), .test, .delaycb 24 1 0 (second 100), .ret junkTimer junkLink, .advance,
    .test, .wait (second (100 + late))]

def Core.outcome (s : Core) : Pc × (ℤ × ℤ) × Option Timespec × List ℕ × Timespec :=
  (s.pc, s.selwait, s.ended, s.live, (s.timer 24).ts)

/-- The callback returns at once: the wait is the second up to the new timer. -/
theorem timecb_check_run_prompt :
    ∃ s, s.outcome = (.over, (1, 0), some ⟨100, 0⟩, [24], ⟨101, 0⟩) ∧
      Checked oneTimer [8] s := by
  have hex : ((setsTimer 0).foldlM
      (fun s e => if Allowed s e ∧ Current s e then step s e else none) oneTimer).map
        Core.outcome = some (.over, (1, 0), some ⟨100, 0⟩, [24], ⟨101, 0⟩) := by
    decide
  obtain ⟨s, hs, hout⟩ := Option.map_eq_some_iff.mp hex
  exact ⟨s, hout, timecb_check_run ready_oneTimer (Run.of_checked hs)⟩

/-- The callback returns after three seconds: `delaycb` has read the clock outside of the loop,
so the reading is not renewed, and the wait is a second past the new timer. -/
theorem timecb_check_late : ¬ ∀ s₀ L₀ es s, Ready s₀ L₀ → Run step Allowed s₀ es s →
    Checked s₀ L₀ s := by
  intro h
  have hex : ((setsTimer 3).foldlM (fun s e => if Allowed s e then step s e else none)
      oneTimer).map Core.outcome = some (.over, (1, 0), some ⟨103, 0⟩, [24], ⟨101, 0⟩) := by
    decide
  obtain ⟨s, hs, hout⟩ := Option.map_eq_some_iff.mp hex
  simp only [Core.outcome, Prod.mk.injEq] at hout
  obtain ⟨hpc, hw, hended, hlive, hts⟩ := hout
  obtain ⟨-, -, hwait⟩ := (h oneTimer [8] _ s ready_oneTimer (Run.of_checked hs)).wait hpc
  have hle := hwait ⟨103, 0⟩ hended 24 (by rw [hlive]; exact List.mem_singleton.mpr rfl)
  rw [hw, hts] at hle
  revert hle
  decide

end Sfslite.Async.Timecb
