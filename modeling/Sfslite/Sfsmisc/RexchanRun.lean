import Sfslite.Lib.Run
import Sfslite.Sfsmisc.Rexchan

/-!
The count of the channels of a rex session: under which condition each event keeps it, and when the
end callback runs.
-/

namespace Sfslite.Sfsmisc.Rexchan

open Sfslite.Lib (Run)

/-- The number of a new channel is not that of a channel with descriptors. Where the last descriptor
of a channel is at its end, the channel is in `channels`, and if its exit is still to come no other
one with its number waits for that. An exit that finds the channel shut is not the end of the
descriptors that it was given since. -/
def Fine (s : Rexsession) : Event → Prop
  | .madechannel _ (some channo) => s.channels.lookup channo = none
  | .shut i f how => (s.chan i).LastOut f how →
      s.channels.lookup (s.chan i).channo = some i ∧
        ((s.chan i).gotExitCb ∨ s.channelsPendingExit.lookup (s.chan i).channo = none)
  | .exit channo => s.channels.lookup channo = none →
      ∀ i ∈ s.channelsPendingExit.lookup channo, ¬ (s.chan i).OutAtExit
  | _ => True

instance (s : Rexsession) : (e : Event) → Decidable (Fine s e)
  | .madechannel _ (some _) => inferInstanceAs (Decidable (_ = _))
  | .madechannel _ none => .isTrue trivial
  | .shut .. => inferInstanceAs (Decidable (_ → _))
  | .exit _ => inferInstanceAs (Decidable (_ → _))
  | .makechannel => .isTrue trivial
  | .made => .isTrue trivial
  | .insertFd .. => .isTrue trivial
  | .setendcb _ => .isTrue trivial
  | .fail => .isTrue trivial
  | .resumed => .isTrue trivial

variable {s s' : Rexsession}

namespace Rexsession

open Rexchannel

/-- Where a channel can be: asked for, in one of the tables, or counted down. -/
def places (s : Rexsession) : List ℕ :=
  s.calls ++ (ids s.channels ++ (ids s.channelsPendingExit ++ s.downs))

/-- No channel is left, and none is asked for. -/
def Idle (s : Rexsession) : Prop :=
  s.channels.entries = [] ∧ s.channelsPendingExit.entries = [] ∧ s.calls = []

/-- No `madechannel` is at work either. -/
def Quiet (s : Rexsession) : Prop := s.Idle ∧ s.making = 0

structure Inv (s : Rexsession) : Prop where
  fdc : ∀ i, (s.chan i).fdc = (s.chan i).openFds
  born : ∀ i ∈ s.places, i < s.born
  distinct : s.places.Nodup
  waiting : s.channelspending = s.calls.length
  number : ∀ ch i, s.channels.lookup ch = some i → (s.chan i).channo = ch
  count : s.cchan = s.channels.entries.length + s.channelsPendingExit.entries.length

/-- How the end callback runs within one event: at most once, only where nothing is left and
something was before, and, if it is set, whenever the last of it goes. -/
structure Ends (s s' : Rexsession) : Prop where
  once : s'.ended = s.ended ∨ s'.ended = s.ended + 1
  ran : s.ended < s'.ended → s'.Idle ∧ ¬ s.Quiet
  last : s.endcb → ¬ s.Quiet → s'.Quiet → s.ended < s'.ended

theorem Ends.quiet (hended : s'.ended = s.ended) (hquiet : s'.Quiet → s.Quiet) : Ends s s' where
  once := .inl hended
  ran h := by omega
  last _ hs hs' := absurd (hquiet hs') hs

theorem Inv.idle_iff (h : Inv s) : s.Idle ↔ s.cchan = 0 ∧ s.channelspending = 0 := by
  rw [h.count, h.waiting, List.length_eq_zero_iff]
  constructor
  · rintro ⟨hchannels, hpending, hcalls⟩
    rw [hchannels, hpending]
    exact ⟨rfl, hcalls⟩
  · rintro ⟨hcount, hcalls⟩
    refine ⟨List.eq_nil_of_length_eq_zero ?_, List.eq_nil_of_length_eq_zero ?_, hcalls⟩
    · omega
    · omega

theorem Inv.checkEnd (h : Inv s) : Inv s.checkEnd := by
  rw [Rexsession.checkEnd]
  split_ifs with hend
  · exact { h with }
  · exact h

theorem Ends.checkEnd {t : Rexsession} (ht : Inv t) (hended : t.ended = s.ended)
    (hcb : t.endcb = s.endcb) (hs : ¬ s.Quiet) : Ends s t.checkEnd := by
  rw [Rexsession.checkEnd]
  split_ifs with hend
  · have hidle : t.Idle := ht.idle_iff.mpr ⟨hend.1, hend.2.1⟩
    exact {
      once := .inr (congrArg (· + 1) hended)
      ran := fun _ => ⟨hidle, hs⟩
      last := fun _ _ _ => by
        change s.ended < t.ended + 1
        omega }
  · refine ⟨.inl hended, fun h => by omega, fun hset _ hquiet => ?_⟩
    obtain ⟨hcchan, hcalls⟩ := ht.idle_iff.mp hquiet.1
    exact absurd ⟨hcchan, hcalls, hcb.trans hset⟩ hend

variable {ch no : UInt32} {i : ℕ}

theorem mem_places_of_lookup (h : s.channels.lookup ch = some i) : i ∈ s.places := by
  refine List.mem_append_right _ (List.mem_append_left _ ?_)
  exact (ids_erase h).mem_iff.mpr List.mem_cons_self

theorem not_quiet_of_lookup (h : s.channels.lookup ch = some i) : ¬ s.Quiet := by
  rintro ⟨⟨hnil, -⟩, -⟩
  have hperm := ids_erase h
  rw [ids, hnil] at hperm
  exact List.not_perm_nil_cons _ _ hperm

theorem not_quiet_of_pendingExit (h : s.channelsPendingExit.lookup ch = some i) : ¬ s.Quiet := by
  rintro ⟨⟨-, hnil, -⟩, -⟩
  have hperm := ids_erase h
  rw [ids, hnil] at hperm
  exact List.not_perm_nil_cons _ _ hperm

theorem length_erase {t : Table} (h : t.lookup ch = some i) :
    t.entries.length = (t.erase ch).entries.length + 1 := by
  have hlen := (ids_erase h).length_eq
  simpa only [ids, List.length_map, List.length_cons] using hlen

theorem Inv.setChan (h : Inv s) {c : Rexchannel}
    (hfdc : c.fdc = c.openFds) (hno : c.channo = (s.chan i).channo) : Inv (s.setChan i c) := by
  refine { h with fdc := fun j => ?_, number := fun ch j hj => ?_ }
  · by_cases hij : j = i
    · subst hij
      simpa only [Rexsession.setChan, Function.update_self] using hfdc
    · simpa only [Rexsession.setChan, Function.update_of_ne hij] using h.fdc j
  · by_cases hij : j = i
    · subst hij
      simp only [Rexsession.setChan, Function.update_self]
      exact hno.trans (h.number ch j hj)
    · simpa only [Rexsession.setChan, Function.update_of_ne hij] using h.number ch j hj

/-- The last descriptor of a channel in `channels` is gone: it is counted down if its exit was
seen, and waits for that otherwise. -/
theorem removeChan_moves (h : Inv s) (hin : s.channels.lookup no = some i)
    (hwait : (s.chan i).gotExitCb ∨ s.channelsPendingExit.lookup no = none) :
    Inv (s.removeChan i no) ∧ Ends s (s.removeChan i no) := by
  have hids := ids_erase hin
  have hlen := length_erase hin
  have hnumber : ∀ ch j, (s.channels.erase no).lookup ch = some j → (s.chan j).channo = ch := by
    intro ch j hj
    by_cases hch : ch = no
    · rw [hch, AList.lookup_erase] at hj
      cases hj
    · rw [AList.lookup_erase_ne hch] at hj
      exact h.number ch j hj
  have hcount := h.count
  rw [removeChan, hin]
  by_cases hexit : (s.chan i).gotExitCb
  · simp only [hexit, if_true]
    have hinv : Inv { s with
        channels := s.channels.erase no, cchan := s.cchan - 1, downs := i :: s.downs } := by
      have hperm : (s.calls ++ (ids (s.channels.erase no) ++
          (ids s.channelsPendingExit ++ i :: s.downs))).Perm s.places := by
        refine List.perm_iff_count.mpr fun a => ?_
        have ha := hids.count_eq a
        simp only [places, List.count_append, List.count_cons] at ha ⊢
        omega
      refine ⟨h.fdc, fun j hj => h.born j (hperm.mem_iff.mp hj), hperm.nodup_iff.mpr h.distinct,
        h.waiting, hnumber, ?_⟩
      change s.cchan - 1 =
        ((s.channels.erase no).entries.length : ℤ) + s.channelsPendingExit.entries.length
      omega
    exact ⟨hinv.checkEnd, .checkEnd hinv rfl rfl (not_quiet_of_lookup hin)⟩
  · have hnone := hwait.resolve_left hexit
    simp only [hexit, Bool.false_eq_true, if_false]
    have hins : (s.channelsPendingExit.insert no i).entries.length =
        s.channelsPendingExit.entries.length + 1 := by
      rw [AList.entries_insert_of_notMem (AList.lookup_eq_none.mp hnone), List.length_cons]
    have hperm : (s.calls ++ (ids (s.channels.erase no) ++
        (ids (s.channelsPendingExit.insert no i) ++ s.downs))).Perm s.places := by
      refine List.perm_iff_count.mpr fun a => ?_
      have ha := hids.count_eq a
      rw [ids_insert i hnone]
      simp only [places, List.count_append, List.count_cons] at ha ⊢
      omega
    refine ⟨⟨h.fdc, fun j hj => h.born j (hperm.mem_iff.mp hj), hperm.nodup_iff.mpr h.distinct,
      h.waiting, hnumber, ?_⟩, .quiet rfl ?_⟩
    · change s.cchan = _
      simp only [hins]
      omega
    · rintro ⟨⟨-, hnil, -⟩, -⟩
      have hzero : (s.channelsPendingExit.insert no i).entries.length = 0 :=
        congrArg List.length hnil
      omega

theorem removeChanPendingExit_moves (h : Inv s) (hin : s.channelsPendingExit.lookup no = some i) :
    Inv (s.removeChanPendingExit i no) ∧ Ends s (s.removeChanPendingExit i no) := by
  have hids := ids_erase hin
  have hlen := length_erase hin
  have hcount := h.count
  have hinv : Inv { s with
      channelsPendingExit := s.channelsPendingExit.erase no, cchan := s.cchan - 1,
      downs := i :: s.downs } := by
    have hperm : (s.calls ++ (ids s.channels ++
        (ids (s.channelsPendingExit.erase no) ++ i :: s.downs))).Perm s.places := by
      refine List.perm_iff_count.mpr fun a => ?_
      have ha := hids.count_eq a
      simp only [places, List.count_append, List.count_cons] at ha ⊢
      omega
    refine ⟨h.fdc, fun j hj => h.born j (hperm.mem_iff.mp hj), hperm.nodup_iff.mpr h.distinct,
      h.waiting, h.number, ?_⟩
    change s.cchan - 1 =
      (s.channels.entries.length : ℤ) + (s.channelsPendingExit.erase no).entries.length
    omega
  exact ⟨hinv.checkEnd, .checkEnd hinv rfl rfl (not_quiet_of_pendingExit hin)⟩

theorem updateConnstate_cases (h : Inv s) (i f : ℕ) (how : How) :
    (∃ c, s.updateConnstate i f how = s.setChan i c ∧ c.fdc = c.openFds ∧
        c.channo = (s.chan i).channo ∧ c.gotExitCb = (s.chan i).gotExitCb ∧
        ∀ g d, (s.chan i).getFd g = some d → ¬ (g = f ∧ (d.shut how).isOver) →
          ∃ d', c.getFd g = some d' ∧ (d' = d ∨ d' = d.shut how)) ∨
      ((s.chan i).LastOut f how ∧ ∃ c,
        s.updateConnstate i f how = (s.setChan i c).removeChan i (s.chan i).channo ∧
        c.fdc = c.openFds ∧ c.channo = (s.chan i).channo ∧
        c.gotExitCb = (s.chan i).gotExitCb ∧ c.openFds = 0) := by
  have hfdc := h.fdc i
  rw [updateConnstate]
  cases hget : (s.chan i).getFd f with
  | none =>
    refine .inl ⟨s.chan i, ?_, hfdc, rfl, rfl, fun g d hg _ => ⟨d, hg, .inl rfl⟩⟩
    simp only [setChan, Function.update_eq_self]
  | some d =>
    have hsome := @openFds_setFd_some _ _ _ (d.shut how) hget
    have hnone := openFds_setFd_none hget
    by_cases hover : (d.shut how).isOver
    · have hfdcNone : (s.chan i).fdc - 1 = ((s.chan i).setFd f none).openFds := by omega
      have hkept : ∀ g d', (s.chan i).getFd g = some d' → ¬ (g = f ∧ (d'.shut how).isOver) →
          ((s.chan i).setFd f none).getFd g = some d' := by
        intro g d' hg hstay
        have hne : f ≠ g := by
          rintro rfl
          rw [hget] at hg
          cases hg
          exact hstay ⟨rfl, hover⟩
        rw [getFd_setFd_ne hne]
        exact hg
      simp only [hover, if_true, removeFd, setChan, Function.update_self,
        Function.update_idem]
      by_cases hzero : (s.chan i).fdc - 1 = 0
      · refine .inr ⟨⟨by omega, ?_⟩, { (s.chan i).setFd f none with fdc := _ }, ?_, hfdcNone,
          rfl, rfl, ?_⟩
        · rw [hget]
          exact hover
        · simp only [setFd, List.set_set, hzero, if_true]
        · change ((s.chan i).setFd f none).openFds = 0
          omega
      · refine .inl ⟨{ (s.chan i).setFd f none with fdc := _ }, ?_, hfdcNone, rfl, rfl,
          fun g d' hg hstay => ⟨d', hkept g d' hg hstay, .inl rfl⟩⟩
        simp only [setFd, List.set_set, hzero, if_false]
    · simp only [hover, Bool.false_eq_true, if_false]
      refine .inl ⟨_, rfl, ?_, rfl, rfl, fun g d' hg _ => ?_⟩
      · rw [hsome]
        exact hfdc
      · by_cases hgf : f = g
        · subst hgf
          rw [hget] at hg
          cases hg
          exact ⟨_, getFd_setFd_some hget, .inr rfl⟩
        · exact ⟨d', (getFd_setFd_ne hgf).trans hg, .inl rfl⟩

theorem setChan_chan (s : Rexsession) (i : ℕ) (c : Rexchannel) : (s.setChan i c).chan i = c := by
  simp only [setChan, Function.update_self]

theorem setChan_setChan (s : Rexsession) (i : ℕ) (c c' : Rexchannel) :
    (s.setChan i c).setChan i c' = s.setChan i c' := by
  simp only [setChan, Function.update_idem]

theorem updateConnstate_moves {f : ℕ} {how : How} (h : Inv s)
    (hfine : (s.chan i).LastOut f how → s.channels.lookup (s.chan i).channo = some i ∧
      ((s.chan i).gotExitCb ∨ s.channelsPendingExit.lookup (s.chan i).channo = none)) :
    Inv (s.updateConnstate i f how) ∧ Ends s (s.updateConnstate i f how) := by
  rcases updateConnstate_cases h i f how with
    ⟨c, heq, hfdc, hno, -, -⟩ | ⟨hlast, c, heq, hfdc, hno, hexit, -⟩
  · rw [heq]
    exact ⟨h.setChan hfdc hno, .quiet rfl id⟩
  · obtain ⟨hin, hwait⟩ := hfine hlast
    rw [heq]
    rw [← hexit] at hwait
    have hwait' : ((s.setChan i c).chan i).gotExitCb ∨
        (s.setChan i c).channelsPendingExit.lookup (s.chan i).channo = none := by
      rw [setChan_chan]
      exact hwait
    have hmoves := removeChan_moves (h.setChan hfdc hno) hin hwait'
    exact ⟨hmoves.1, hmoves.2.once, hmoves.2.ran, hmoves.2.last⟩

theorem foldl_fdExited_eq (h : (s.chan i).openFds = 0) (fs : List ℕ) :
    fs.foldl (fdExited i) s = s := by
  induction fs with
  | nil => rfl
  | cons f fs ih => rw [List.foldl_cons, fdExited, getFd_eq_none_of_openFds h f, ih]

theorem fdExited_cases (i : ℕ) (s : Rexsession) (f : ℕ) :
    fdExited i s f = s ∨ ∃ d, (s.chan i).getFd f = some d ∧ d.shutrdonexit ∧
      fdExited i s f = s.updateConnstate i f .rd := by
  rw [fdExited]
  cases hget : (s.chan i).getFd f with
  | none => exact .inl rfl
  | some d =>
    by_cases hshut : d.shutrdonexit
    · exact .inr ⟨d, rfl, hshut, by simp only [hshut, if_true]⟩
    · exact .inl (by simp only [hshut, Bool.false_eq_true, if_false])

theorem removeChan_chan (s : Rexsession) (i : ℕ) (no : UInt32) :
    (s.removeChan i no).chan = s.chan := by
  rw [removeChan]
  split
  · split_ifs
    · rw [countDown, checkEnd]
      split_ifs <;> rfl
    · rfl
  · rw [countDown, checkEnd]
    split_ifs <;> rfl

theorem exited_moves (h : Inv s)
    (hin : s.channels.lookup (s.chan i).channo = some i) (hexit : (s.chan i).gotExitCb)
    (fs : List ℕ) : Inv (fs.foldl (fdExited i) s) ∧ Ends s (fs.foldl (fdExited i) s) := by
  induction fs generalizing s with
  | nil => exact ⟨h, .quiet rfl id⟩
  | cons f fs ih =>
    rw [List.foldl_cons]
    rcases fdExited_cases i s f with hsame | ⟨d, -, -, hupdate⟩
    · rw [hsame]
      exact ih h hin hexit
    · rw [hupdate]
      have hmoves := @updateConnstate_moves s i f .rd h fun _ => ⟨hin, .inl hexit⟩
      rcases updateConnstate_cases h i f .rd with
        ⟨c, heq, hfdc, hno, hgot, -⟩ | ⟨-, c, heq, -, -, -, hzero⟩
      · rw [heq]
        have hchan := setChan_chan s i c
        have hrest := ih (h.setChan hfdc hno) (by rw [hchan, hno]; exact hin)
          (by rw [hchan, hgot]; exact hexit)
        exact ⟨hrest.1, hrest.2.once, hrest.2.ran, hrest.2.last⟩
      · have hnone : ((s.updateConnstate i f .rd).chan i).openFds = 0 := by
          rw [heq, removeChan_chan, setChan_chan]
          exact hzero
        rw [foldl_fdExited_eq hnone]
        exact hmoves

theorem exited_of_survives (h : Inv s) (hstay : (s.chan i).Survives)
    (fs : List ℕ) : ∃ c, fs.foldl (fdExited i) s = s.setChan i c ∧ c.fdc = c.openFds ∧
      c.channo = (s.chan i).channo := by
  induction fs generalizing s with
  | nil =>
    refine ⟨s.chan i, ?_, h.fdc i, rfl⟩
    simp only [List.foldl_nil, setChan, Function.update_eq_self]
  | cons f fs ih =>
    rw [List.foldl_cons]
    rcases fdExited_cases i s f with hsame | ⟨d, hget, hshut, hupdate⟩
    · rw [hsame]
      exact ih h hstay
    · obtain ⟨g, d', hg, hnot⟩ := hstay
      have hgf : ¬ (g = f ∧ (d'.shut .rd).isOver) := by
        rintro ⟨rfl, hover⟩
        rw [hget] at hg
        cases hg
        rw [Rexfd.overAtExit, hshut, hover] at hnot
        cases hnot
      rcases updateConnstate_cases h i f .rd with
        ⟨c, heq, hfdc, hno, -, hkept⟩ | ⟨⟨hone, hover⟩, -⟩
      · rw [hupdate, heq]
        have hchan := setChan_chan s i c
        obtain ⟨d'', hg'', hd''⟩ := hkept g d' hg hgf
        have hstay' : ((s.setChan i c).chan i).Survives := by
          rw [hchan]
          refine ⟨g, d'', hg'', ?_⟩
          rcases hd'' with rfl | rfl
          · exact hnot
          · exact hnot
        obtain ⟨c', heq', hfdc', hno'⟩ := ih (h.setChan hfdc hno) hstay'
        rw [setChan_setChan] at heq'
        rw [hchan, hno] at hno'
        exact ⟨c', heq', hfdc', hno'⟩
      · have hne : f ≠ g := by
          rintro rfl
          rw [hget] at hg
          cases hg
          rw [hget] at hover
          exact hgf ⟨rfl, hover⟩
        have hout := openFds_setFd_none hget
        have hleft := openFds_setFd_none ((getFd_setFd_ne (d := none) hne).trans hg)
        omega

theorem exit_moves (h : Inv s) (hfine : Fine s (.exit no))
    (hs : step s (.exit no) = some s') : Inv s' ∧ Ends s s' := by
  have hgot : ∀ i, Inv (s.gotExit i) := fun i => h.setChan (h.fdc i) rfl
  cases hin : s.channels.lookup no with
  | some i =>
    simp only [step, hin, Option.some.injEq] at hs
    subst hs
    have hchan := setChan_chan s i { s.chan i with gotExitCb := true }
    have hin' : (s.gotExit i).channels.lookup ((s.gotExit i).chan i).channo = some i := by
      rw [gotExit, hchan]
      change s.channels.lookup (s.chan i).channo = some i
      rw [h.number no i hin, hin]
    have hexit : ((s.gotExit i).chan i).gotExitCb := by rw [gotExit, hchan]
    have hmoves := exited_moves (hgot i) hin' hexit
      (List.range ((s.gotExit i).chan i).vfds.length)
    exact ⟨hmoves.1, hmoves.2.once, hmoves.2.ran, hmoves.2.last⟩
  | none =>
    cases hpending : s.channelsPendingExit.lookup no with
    | none =>
      simp only [step, hin, hpending] at hs
      cases hs
    | some i =>
      simp only [step, hin, hpending, Option.some.injEq] at hs
      subst hs
      have hchan := setChan_chan s i { s.chan i with gotExitCb := true }
      have hexited : ∃ c, (s.gotExit i).exited i = s.setChan i c ∧ c.fdc = c.openFds ∧
          c.channo = (s.chan i).channo := by
        rcases Nat.eq_zero_or_pos (s.chan i).openFds with hzero | hpos
        · refine ⟨_, foldl_fdExited_eq ?_ _, h.fdc i, rfl⟩
          rw [gotExit, hchan]
          exact hzero
        · have hstay : ((s.gotExit i).chan i).Survives := by
            rw [gotExit, hchan]
            exact Survives.of_not_outAtExit hpos (hfine hin i hpending)
          obtain ⟨c, heq, hfdc, hno⟩ := exited_of_survives (hgot i) hstay
            (List.range ((s.gotExit i).chan i).vfds.length)
          rw [gotExit, setChan_setChan] at heq
          rw [gotExit, hchan] at hno
          exact ⟨c, heq, hfdc, hno⟩
      obtain ⟨c, heq, hfdc, hno⟩ := hexited
      rw [heq]
      have hmoves := removeChanPendingExit_moves (h.setChan hfdc hno) hpending
      exact ⟨hmoves.1, hmoves.2.once, hmoves.2.ran, hmoves.2.last⟩

theorem makechannel_moves (h : Inv s)
    (hs : step s .makechannel = some s') : Inv s' ∧ Ends s s' := by
  cases hs
  have hnew : ∀ i ∈ s.places, i ≠ s.born := fun i hi => Nat.ne_of_lt (h.born i hi)
  have hchan : ∀ j, j ≠ s.born → Function.update s.chan s.born .fresh j = s.chan j :=
    fun j hj => Function.update_of_ne hj _ _
  refine ⟨⟨fun j => ?_, fun j hj => ?_, ?_, ?_, fun ch j hj => ?_, h.count⟩, .quiet rfl ?_⟩
  · by_cases hj : j = s.born
    · subst hj
      simp only [Function.update_self]
      rfl
    · simp only [hchan j hj]
      exact h.fdc j
  · rcases List.mem_cons.mp hj with rfl | hj
    · exact Nat.lt_succ_self _
    · exact Nat.lt_succ_of_lt (h.born j hj)
  · exact List.nodup_cons.mpr ⟨fun hmem => hnew _ hmem rfl, h.distinct⟩
  · exact congrArg (· + 1) h.waiting
  · simp only [hchan j (hnew j (mem_places_of_lookup hj))]
    exact h.number ch j hj
  · rintro ⟨⟨-, -, hnil⟩, -⟩
    cases hnil

theorem madechannel_moves {res : Option UInt32} (h : Inv s)
    (hfine : Fine s (.madechannel i res)) (hs : step s (.madechannel i res) = some s') :
    Inv s' ∧ Ends s s' := by
  rw [step] at hs
  split_ifs at hs with hcall
  obtain ⟨hmem, -⟩ := hcall
  have hcalls := List.perm_cons_erase hmem
  have hlen : s.channelspending - 1 = (s.calls.erase i).length := by
    rw [h.waiting, List.length_erase_of_mem hmem]
  have hapart : ∀ ch j, s.channels.lookup ch = some j → j ≠ i := by
    rintro ch j hj rfl
    have hin : j ∈ ids s.channels := (ids_erase hj).mem_iff.mpr List.mem_cons_self
    exact (List.nodup_append.mp h.distinct).2.2 j hmem j (List.mem_append_left _ hin) rfl
  have hdata : ∀ no, (∀ j, (Function.update s.chan i
      { s.chan i with proxy := true, channo := no } j).fdc = (Function.update s.chan i
      { s.chan i with proxy := true, channo := no } j).openFds) := by
    intro no j
    by_cases hj : j = i
    · subst hj
      simp only [Function.update_self]
      exact h.fdc j
    · simp only [Function.update_of_ne hj]
      exact h.fdc j
  have hquiet : s.making + 1 ≠ 0 := Nat.succ_ne_zero _
  cases res with
  | none =>
    cases hs
    have hsub : (s.calls.erase i ++ (ids s.channels ++ (ids s.channelsPendingExit ++
        s.downs))).Sublist s.places := List.erase_sublist.append_right _
    refine ⟨⟨hdata 0, fun j hj => h.born j (hsub.subset hj), h.distinct.sublist hsub, hlen,
      fun ch j hj => ?_, h.count⟩, .quiet rfl fun hq => absurd hq.2 hquiet⟩
    simp only [setChan, Function.update_of_ne (hapart ch j hj)]
    exact h.number ch j hj
  | some no =>
    cases hs
    have hnone : s.channels.lookup no = none := hfine
    have hperm : (s.calls.erase i ++ (ids (s.channels.insert no i) ++
        (ids s.channelsPendingExit ++ s.downs))).Perm s.places := by
      refine List.perm_iff_count.mpr fun a => ?_
      have ha := hcalls.count_eq a
      rw [ids_insert i hnone]
      simp only [places, List.count_append, List.count_cons] at ha ⊢
      omega
    refine ⟨⟨hdata no, fun j hj => h.born j (hperm.mem_iff.mp hj),
      hperm.nodup_iff.mpr h.distinct, hlen, fun ch j hj => ?_, ?_⟩,
      .quiet rfl fun hq => absurd hq.2 hquiet⟩
    · by_cases hch : ch = no
      · subst hch
        have hlook : (s.channels.insert ch i).lookup ch = some j := hj
        rw [AList.lookup_insert] at hlook
        cases hlook
        simp only [setChan, Function.update_self]
      · have hlook : (s.channels.insert no i).lookup ch = some j := hj
        rw [AList.lookup_insert_ne hch] at hlook
        simp only [setChan, Function.update_of_ne (hapart ch j hlook)]
        exact h.number ch j hlook
    · have hins : (s.channels.insert no i).entries.length = s.channels.entries.length + 1 := by
        rw [AList.entries_insert_of_notMem (AList.lookup_eq_none.mp hnone), List.length_cons]
      have hcount := h.count
      change s.cchan + 1 = ((s.channels.insert no i).entries.length : ℤ) +
        s.channelsPendingExit.entries.length
      omega

end Rexsession

open Rexsession

theorem step_moves {e : Event} (h : Inv s) (hfine : Fine s e)
    (hs : step s e = some s') : Inv s' ∧ Ends s s' := by
  cases e with
  | makechannel => exact makechannel_moves h hs
  | madechannel i res => exact madechannel_moves h hfine hs
  | made =>
    rw [step] at hs
    split_ifs at hs with hmaking
    cases hs
    have hinv : Inv { s with making := s.making - 1 } :=
      { h with }
    exact ⟨hinv.checkEnd, .checkEnd hinv rfl rfl fun hq => Nat.ne_of_gt hmaking hq.2⟩
  | insertFd i fdn shutrdonexit =>
    rw [step] at hs
    split_ifs at hs with hfree
    cases hs
    have hfdc : ((s.chan i).insertFd fdn.toNat ⟨false, false, shutrdonexit⟩).fdc =
        ((s.chan i).insertFd fdn.toNat ⟨false, false, shutrdonexit⟩).openFds := by
      have hopen := Rexchannel.openFds_insertFd (d := ⟨false, false, shutrdonexit⟩) hfree.2.2
      have hfdc := h.fdc i
      change (s.chan i).fdc + 1 = _
      omega
    exact ⟨h.setChan hfdc rfl, .quiet rfl id⟩
  | shut i f how =>
    cases hs
    exact updateConnstate_moves h hfine
  | exit no => exact exit_moves h hfine hs
  | setendcb cb =>
    cases hs
    exact ⟨{ h with }, .quiet rfl id⟩
  | fail =>
    rw [step] at hs
    split_ifs at hs
    · cases hs
      exact ⟨h, .quiet rfl id⟩
    · cases hs
      exact ⟨{ h with }, .quiet rfl id⟩
    · cases hs
      exact ⟨{ h with }, .quiet rfl id⟩
  | resumed =>
    cases hs
    exact ⟨{ h with }, .quiet rfl id⟩

theorem Rexsession.Inv.start (endcb failcb : Bool) : Inv (Rexsession.start endcb failcb) where
  fdc _ := rfl
  born i hi := by cases hi
  distinct := List.nodup_nil
  waiting := rfl
  number ch i h := by cases h
  count := rfl

theorem Rexsession.Inv.run {es : List Event} (h : Inv s) (hrun : Run step Fine s es s') : Inv s' :=
  hrun.invariant h fun _ _ _ hs hfine hstep => (step_moves hs hfine hstep).1

/-- `cchan` counts the channels of both tables, and a channel that was counted down is in neither
and is not counted down again. -/
structure Counted (s : Rexsession) : Prop where
  count : s.cchan = s.channels.entries.length + s.channelsPendingExit.entries.length
  once : s.downs.Nodup
  gone : ∀ i ∈ s.downs, i ∉ ids s.channels ∧ i ∉ ids s.channelsPendingExit

theorem Rexsession.Inv.counted (h : Inv s) : Counted s := by
  obtain ⟨-, hrest, -⟩ := List.nodup_append.mp h.distinct
  obtain ⟨-, hrest', hapart⟩ := List.nodup_append.mp hrest
  obtain ⟨-, hdowns, hapart'⟩ := List.nodup_append.mp hrest'
  exact {
    count := h.count
    once := hdowns
    gone := fun i hi => ⟨fun hin => hapart i hin i (List.mem_append_right _ hi) rfl,
      fun hin => hapart' i hin i hi rfl⟩ }

/-- In every run whose steps all meet the condition the channels are counted right, and the end
callback runs, once, when the last channel goes and none is asked for. -/
theorem session_run {endcb failcb : Bool} {es : List Event} {s : Rexsession}
    (hrun : Run step Fine (start endcb failcb) es s) :
    Counted s ∧ ∀ e s', Fine s e → step s e = some s' → Ends s s' := by
  have h := Inv.run (.start endcb failcb) hrun
  exact ⟨h.counted, fun e s' hfine hs => (step_moves h hfine hs).2⟩

/-- A channel loses its last descriptor and waits for its exit, which is then the end of the
session. -/
theorem session_run_one : ∃ s s', step s (.exit 7) = some s' ∧ s.cchan = 1 ∧ Counted s ∧
    s'.ended = 1 ∧ Ends s s' := by
  have hex : (([.makechannel, .madechannel 0 (some 7), .made, .insertFd 0 0 true,
      .shut 0 0 .rdwr].foldlM (fun s e => if Fine s e then step s e else none)
        (start true false)).bind fun s => if Fine s (.exit 7) then
          (step s (.exit 7)).map fun s' => (s.cchan, s'.ended) else none) = some (1, 1) := by
    decide
  obtain ⟨s, hs, hexit⟩ := Option.bind_eq_some_iff.mp hex
  split_ifs at hexit with hfine
  obtain ⟨s', hs', hout⟩ := Option.map_eq_some_iff.mp hexit
  simp only [Prod.mk.injEq] at hout
  obtain ⟨hcounted, hends⟩ := session_run (Run.of_checked hs)
  exact ⟨s, s', hs', hout.1, hcounted, hout.2, hends _ _ hfine hs'⟩

/-- A descriptor that comes after the last one was gone, and goes too: the session is at its end
while the channel still waits for its exit, and the exit counts the channel down again. -/
theorem session_counts_twice : ∃ es s s', Run step (fun _ _ => True) (start true false) es s ∧
    ¬ Counted s ∧ s.ended = 1 ∧ ¬ s.Idle ∧ step s (.exit 7) = some s' ∧ s'.cchan = -1 ∧
      ¬ s'.downs.Nodup := by
  have hex : (([.makechannel, .madechannel 0 (some 7), .made, .insertFd 0 0 false,
      .shut 0 0 .rdwr, .insertFd 0 1 false, .shut 0 1 .rdwr].foldlM step
        (start true false)).bind fun s => (step s (.exit 7)).map fun s' =>
          (s.cchan, s.channelsPendingExit.entries, s.ended, s'.cchan, s'.downs)) =
      some (0, [⟨7, 0⟩], 1, -1, [0, 0]) := by
    decide
  obtain ⟨s, hs, hexit⟩ := Option.bind_eq_some_iff.mp hex
  obtain ⟨s', hs', hout⟩ := Option.map_eq_some_iff.mp hexit
  simp only [Prod.mk.injEq] at hout
  obtain ⟨hcchan, hpending, hended, hcchan', hdowns⟩ := hout
  refine ⟨_, s, s', Run.of_foldlM hs, fun h => ?_, hended, fun h => ?_, hs', hcchan', ?_⟩
  · have hcount := h.count
    rw [hcchan, hpending, List.length_singleton] at hcount
    omega
  · have hnil := h.2.1
    rw [hpending] at hnil
    cases hnil
  · rw [hdowns]
    decide

end Sfslite.Sfsmisc.Rexchan
