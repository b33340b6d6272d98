import Mathlib.Data.List.Nodup
import Mathlib.Data.List.Induction
import Sfslite.Arpc.AsrvUnreliable

/-!
`asrv_delayed_eof`, which keeps the end of the file from its callback as long as calls are not
answered: what the owner of such a server sees of it, from the first call to the null pointer.
-/

namespace Sfslite.Arpc

open Sfslite.Lib (Run)

/-- What the owner of a server knows. `told` and `done` say that the callback for an early end and
the one with the null pointer ran, and `owed` has the calls that it has to answer. -/
structure Watch where
  eof : Bool
  told : Bool
  done : Bool
  owed : List ℕ
deriving DecidableEq, Repr

namespace Watch

def start : Watch := ⟨false, false, false, []⟩

/-- What may come next; `none` is what the comment in `asrv.h` rules out. -/
def step (w : Watch) : Out → Option Watch
  | .send _ _ _ => some w
  | .serve sbp => if w.done then none else some { w with owed := w.owed ++ [sbp] }
  | .answered sbp => some { w with owed := w.owed.erase sbp }
  | .eof => if w.eof then none else some { w with eof := true }
  | .eofcb =>
      if w.eof ∧ w.told = false ∧ w.owed ≠ [] then some { w with told := true } else none
  | .null =>
      if w.eof ∧ w.done = false ∧ w.owed = [] then some { w with done := true } else none

end Watch

/-- What `reject` takes where there is something to send: neither `AUTH_OK`, nor a status that
`asrv_accepterr` panics at for a program that is served. -/
def RejectStat.Sendable : RejectStat → Prop
  | .auth stat => stat ≠ 0
  | .accept stat => stat = .procUnavail ∨ stat = .garbageArgs ∨ stat = .systemErr

namespace Asrv

def watch (s : Asrv) : Option Watch := s.log.foldlM Watch.step Watch.start

variable {s s' : Asrv} {w : Watch} {mid : List ℕ} {sbp : ℕ}

theorem watch_out (h : s.watch = some w) (o : Out) : (s.out o).watch = w.step o := by
  have hlog : (s.log ++ [o]).foldlM Watch.step Watch.start =
      (s.log.foldlM Watch.step Watch.start).bind fun w => [o].foldlM Watch.step w :=
    List.foldlM_append
  have hone : [o].foldlM Watch.step w = w.step o := by
    cases hstep : w.step o <;> simp [List.foldlM, hstep]
  rw [watch, out, hlog, ← watch, h, Option.bind_some, hone]

/-- What holds between two steps, with the calls `mid` in the middle of being answered. -/
structure EofInv (s : Asrv) (w : Watch) (mid : List ℕ) : Prop where
  kind : s.kind = .delayedEof
  watch : s.watch = some w
  eof : w.eof = s.eof
  rcb : s.eof = true → s.xi.rcb = false
  told : w.told = true → s.eofcb = false
  toldEof : w.told = true → w.eof = true
  count : s.count = w.owed.length
  perm : w.owed.Perm (s.given ++ s.pend.map Rest.sbp ++ mid)
  nodup : w.owed.Nodup
  lt_brk : ∀ i ∈ w.owed, i < s.brk
  pend : ∀ r ∈ s.pend, ∀ i nocache, r ≠ .replay i nocache
  done : w.done = true ↔ w.eof = true ∧ w.owed = []
  held : ∀ i ∈ s.given, ∃ b, s.svccbs i = some b ∧ s.xi.connected = b.addr.isNone

theorem EofInv.congr (h : EofInv s w mid) (hkind : s'.kind = s.kind) (hwatch : s'.watch = some w)
    (heof : s'.eof = s.eof) (hrcb : s'.xi.rcb = s.xi.rcb) (heofcb : s'.eofcb = s.eofcb)
    (hcount : s'.count = s.count) (hgiven : s'.given = s.given) (hpend : s'.pend = s.pend)
    (hbrk : s.brk ≤ s'.brk) (hconn : s'.xi.connected = s.xi.connected)
    (hsvccbs : ∀ i ∈ s.given, s'.svccbs i = s.svccbs i) : EofInv s' w mid := by
  constructor
  · exact hkind.trans h.kind
  · exact hwatch
  · exact h.eof.trans heof.symm
  · rw [heof, hrcb]
    exact h.rcb
  · rw [heofcb]
    exact h.told
  · exact h.toldEof
  · exact hcount.trans h.count
  · rw [hgiven, hpend]
    exact h.perm
  · exact h.nodup
  · intro i hi
    exact Nat.lt_of_lt_of_le (h.lt_brk i hi) hbrk
  · rw [hpend]
    exact h.pend
  · exact h.done
  · intro i hi
    rw [hgiven] at hi
    rw [hsvccbs i hi, hconn]
    exact h.held i hi

/-- A call in the middle of being answered was handed out and is not in the hands of the callback. -/
theorem EofInv.not_given (h : EofInv s w mid) : ∀ i ∈ mid, i ∉ s.given := by
  intro i hmid hgiven
  have hnodup := h.perm.nodup_iff.mp h.nodup
  exact List.disjoint_of_nodup_append hnodup (List.mem_append_left _ hgiven) hmid

theorem EofInv.lt_of_given (h : EofInv s w mid) : ∀ i ∈ s.given, i < s.brk := fun i hi =>
  h.lt_brk i (h.perm.mem_iff.mpr (List.mem_append_left _ (List.mem_append_left _ hi)))

variable {io : Io} {ok sync : Bool}

theorem rcb_of_sendv {xi xi' : Xhinfo} {len : ℕ} {dest : Option (List Byte)}
    (h : xi.sendv len dest io = some (ok, xi')) :
    xi'.rcb = xi.rcb ∧ xi'.connected = xi.connected := by
  unfold Xhinfo.sendv at h
  split at h
  · split at h
    · cases h
      exact ⟨rfl, rfl⟩
    · cases h
  split at h
  · cases h
  split at h <;> cases h <;> exact ⟨rfl, rfl⟩

variable {x : List Byte}

theorem EofInv.sendv (h : EofInv s w mid) {osbp : Option ℕ} {addr : Option (List Byte)}
    (hs : s.sendv osbp x addr io = some (ok, s')) : EofInv s' w mid := by
  simp only [Asrv.sendv, Option.bind_eq_bind, Option.bind_eq_some_iff, Option.some.injEq,
    Prod.mk.injEq] at hs
  obtain ⟨⟨ok', xi⟩, hxi, -, rfl⟩ := hs
  obtain ⟨hrcb, hconn⟩ := rcb_of_sendv hxi
  have hsame : EofInv { s with xi := xi } w mid :=
    h.congr rfl h.watch rfl hrcb rfl rfl rfl rfl le_rfl hconn fun _ _ => rfl
  dsimp only
  split
  · refine hsame.congr rfl ?_ rfl rfl rfl rfl rfl rfl le_rfl rfl fun _ _ => rfl
    rw [watch_out hsame.watch]
    rfl
  · exact hsame

theorem given_of_sendv {osbp : Option ℕ} {addr : Option (List Byte)}
    (hs : s.sendv osbp x addr io = some (ok, s')) : s'.given = s.given := by
  simp only [Asrv.sendv, Option.bind_eq_bind, Option.bind_eq_some_iff, Option.some.injEq,
    Prod.mk.injEq] at hs
  obtain ⟨⟨ok', xi⟩, -, -, rfl⟩ := hs
  dsimp only
  split <;> rfl

theorem EofInv.delete (h : EofInv s w mid) (hnot : sbp ∉ s.given)
    (hs : s.delete sbp = some s') : EofInv s' w mid := by
  obtain ⟨b, xi, -, hxi, rfl⟩ := delete_eq_some.mp hs
  have hconn : xi.connected = s.xi.connected := (sameXhinfo_svcdel hxi).connected
  have hrcb : xi.rcb = s.xi.rcb := by
    cases hsrv : b.srv
    · rw [hsrv, if_neg Bool.false_ne_true] at hxi
      cases hxi
      rfl
    · rw [hsrv, if_pos rfl] at hxi
      obtain ⟨-, rfl⟩ := svcdel_eq_some.mp hxi
      rfl
  refine h.congr rfl h.watch rfl hrcb rfl rfl rfl rfl le_rfl hconn ?_
  intro i hi
  have hne : i ≠ sbp := by
    rintro rfl
    exact hnot hi
  exact Function.update_of_ne hne _ _

theorem decSvccbCount_of_kind (h : s.kind = .delayedEof) :
    s.decSvccbCount =
      if s.count - 1 < 0 then none
      else if s.count - 1 = 0 ∧ s.eof then some ({ s with count := s.count - 1 }.out .null)
      else some { s with count := s.count - 1 } := by
  unfold decSvccbCount
  split
  · rfl
  · next hne => exact absurd h hne

theorem cbNull_of_kind (h : s.kind = .delayedEof) :
    s.cbNull =
      if s.count = 0 then { s.out .eof with eof := true, eofcb := false }.out .null
      else if s.eofcb then { s.out .eof with eof := true, eofcb := false }.out .eofcb
      else { s.out .eof with eof := true, eofcb := false } := by
  have hout : (s.out .eof).kind = .delayedEof := h
  rw [cbNull]
  simp only [hout]
  rfl

theorem finishNull_of_kind (h : s.kind = .delayedEof) :
    s.finishNull sbp =
      if s.eof ∨ s.xi.ateof then (s.out (.answered sbp)).decSvccbCount else s.finishAsrv sbp := by
  unfold finishNull
  split
  · next hne => cases h.symm.trans hne
  · rfl
  · next hne => cases h.symm.trans hne
  · next hne => cases h.symm.trans hne

/-- The count goes down with the calls that are owed, and with the last one the null pointer is
passed if the end was seen before. The assertion holds. -/
theorem EofInv.dec (hkind : s.kind = .delayedEof) (hwatch : s.watch = some w) (heof : w.eof = s.eof)
    (hrcb : s.eof = true → s.xi.rcb = false) (htold : w.told = true → s.eofcb = false)
    (htoldEof : w.told = true → w.eof = true)
    (hcount : s.count = w.owed.length + 1) (hperm : w.owed.Perm (s.given ++ s.pend.map Rest.sbp))
    (hnodup : w.owed.Nodup) (hbrk : ∀ i ∈ w.owed, i < s.brk)
    (hpend : ∀ r ∈ s.pend, ∀ i nocache, r ≠ .replay i nocache) (hdone : w.done = false)
    (hheld : ∀ i ∈ s.given, ∃ b, s.svccbs i = some b ∧ s.xi.connected = b.addr.isNone) :
    ∃ s' w', s.decSvccbCount = some s' ∧ s'.given = s.given ∧ EofInv s' w' [] := by
  have hperm' : w.owed.Perm (s.given ++ s.pend.map Rest.sbp ++ []) := by
    rwa [List.append_nil]
  have hdown : s.count - 1 = w.owed.length := by omega
  have hnotneg : ¬ s.count - 1 < 0 := by omega
  rw [decSvccbCount_of_kind hkind, if_neg hnotneg]
  split
  case isTrue hlast =>
    obtain ⟨hzero, hend⟩ := hlast
    have hnil : w.owed = [] := List.length_eq_zero_iff.mp (by omega)
    have hnull : w.step .null = some { w with done := true } :=
      if_pos ⟨heof.trans hend, hdone, hnil⟩
    refine ⟨_, { w with done := true }, rfl, rfl, hkind, ?_, heof, hrcb, htold, htoldEof, hdown,
      hperm', hnodup, hbrk, hpend, ?_, hheld⟩
    · rw [watch_out (s := { s with count := s.count - 1 }) hwatch, hnull]
    · exact iff_of_true rfl ⟨heof.trans hend, hnil⟩
  case isFalse hrest =>
    refine ⟨_, w, rfl, rfl, hkind, hwatch, heof, hrcb, htold, htoldEof, hdown, hperm', hnodup, hbrk,
      hpend, ?_, hheld⟩
    rw [hdone]
    refine iff_of_false Bool.false_ne_true ?_
    rintro ⟨hend, hnil⟩
    rw [hnil] at hdown
    exact hrest ⟨hdown, heof ▸ hend⟩

theorem EofInv.answered (h : EofInv s w [sbp]) :
    ∃ s' w', (s.out (.answered sbp)).decSvccbCount = some s' ∧ s'.given = s.given ∧
      EofInv s' w' [] := by
  have hmem : sbp ∈ w.owed := by
    apply h.perm.mem_iff.mpr
    exact List.mem_append_right _ (List.mem_singleton.mpr rfl)
  have hnotdone : w.done = false := by
    rw [← Bool.not_eq_true]
    intro hdone
    rw [(h.done.mp hdone).2] at hmem
    cases hmem
  have hpos : 0 < w.owed.length := List.length_pos_of_mem hmem
  have hperm := (h.perm.trans (List.perm_append_singleton _ _)).erase sbp
  rw [List.erase_cons_head] at hperm
  refine EofInv.dec (w := { w with owed := w.owed.erase sbp }) h.kind ?_ h.eof h.rcb h.told
    h.toldEof ?_ hperm (h.nodup.erase sbp) ?_ h.pend hnotdone h.held
  · rw [watch_out h.watch]
    rfl
  · have hcount := h.count
    have hlen := List.length_erase_of_mem hmem
    simp only [out]
    omega
  · intro i hi
    exact h.lt_brk i (List.mem_of_mem_erase hi)

theorem EofInv.finishAsrv (h : EofInv s w [sbp]) (hs : s.finishAsrv sbp = some s') :
    ∃ w', EofInv s' w' [] := by
  obtain ⟨t, w', ht, hgiven, hinv⟩ := h.answered
  rw [Asrv.finishAsrv, ht] at hs
  have hnot : sbp ∉ t.given := by
    rw [hgiven]
    exact h.not_given sbp (List.mem_singleton.mpr rfl)
  exact ⟨w', hinv.delete hnot hs⟩

theorem EofInv.swallow (h : EofInv s w [sbp])
    (hs : (s.out (.answered sbp)).decSvccbCount = some s') : ∃ w', EofInv s' w' [] := by
  obtain ⟨t, w', ht, -, hinv⟩ := h.answered
  cases ht.symm.trans hs
  exact ⟨w', hinv⟩

theorem EofInv.finishNull (h : EofInv s w [sbp]) (hs : s.finishNull sbp = some s') :
    ∃ w', EofInv s' w' [] := by
  rw [finishNull_of_kind h.kind] at hs
  split at hs
  · exact h.swallow hs
  · exact h.finishAsrv hs

theorem EofInv.finish (h : EofInv s w [sbp]) {r : Rest} (hr : r.sbp = sbp)
    (hreplay : ∀ i nocache, r ≠ .replay i nocache) (hs : s.finish r = some s') :
    ∃ w', EofInv s' w' [] := by
  cases r with
  | asrv i =>
      cases hr
      exact h.finishAsrv hs
  | replay i nocache => exact absurd rfl (hreplay i nocache)
  | null i =>
      cases hr
      exact h.finishNull hs

theorem EofInv.xhinfoSeteof (h : EofInv s w mid) (hrcb : s.xi.rcb = true) :
    ∃ w', EofInv s.xhinfoSeteof w' mid := by
  have hnoteof : s.eof = false := by
    rw [← Bool.not_eq_true]
    intro heof
    rw [h.rcb heof] at hrcb
    cases hrcb
  have hweof : w.eof = false := h.eof.trans hnoteof
  have hnotdone : w.done = false := by
    rw [← Bool.not_eq_true, h.done, hweof]
    exact fun hend => Bool.false_ne_true hend.1
  have hnottold : w.told = false := by
    rw [← Bool.not_eq_true]
    intro htold
    rw [h.toldEof htold] at hweof
    cases hweof
  rw [Asrv.xhinfoSeteof]
  split
  case isFalse => exact ⟨w, h⟩
  have hseen : ∀ c, ({ { s with xi := { s.xi with rcb := false } }.out .eof with
      eof := true, eofcb := c } : Asrv).watch = some { w with eof := true } := by
    intro c
    have hstep : w.step .eof = some { w with eof := true } :=
      if_neg (by rw [hweof]; exact Bool.false_ne_true)
    exact (watch_out (s := { s with xi := { s.xi with rcb := false } }) h.watch .eof).trans hstep
  rw [cbNull_of_kind (s := { s with xi := { s.xi with rcb := false } }) h.kind]
  dsimp only
  split
  case isTrue hzero =>
    have hnil : w.owed = [] := List.length_eq_zero_iff.mp (by have := h.count; omega)
    have hnull : ({ w with eof := true } : Watch).step .null =
        some { w with eof := true, done := true } := if_pos ⟨rfl, hnotdone, hnil⟩
    refine ⟨{ w with eof := true, done := true }, h.kind, ?_, rfl, fun _ => rfl, fun _ => rfl,
      fun _ => rfl, h.count, h.perm, h.nodup, h.lt_brk, h.pend, iff_of_true rfl ⟨rfl, hnil⟩, h.held⟩
    exact (watch_out (hseen false) .null).trans hnull
  case isFalse hcount =>
  have howed : w.owed ≠ [] := by
    intro hnil
    have hzero := h.count
    rw [hnil] at hzero
    exact hcount hzero
  have hdone : ∀ told, ({ w with eof := true, told := told } : Watch).done = true ↔
      ({ w with eof := true, told := told } : Watch).eof = true ∧ w.owed = [] := by
    intro told
    exact iff_of_false (by rw [hnotdone]; exact Bool.false_ne_true) fun hend => howed hend.2
  split
  · have heofcb : ({ w with eof := true } : Watch).step .eofcb =
        some { w with eof := true, told := true } := if_pos ⟨rfl, hnottold, howed⟩
    refine ⟨{ w with eof := true, told := true }, h.kind, ?_, rfl, fun _ => rfl, fun _ => rfl,
      fun _ => rfl, h.count, h.perm, h.nodup, h.lt_brk, h.pend, hdone true, h.held⟩
    exact (watch_out (hseen false) .eofcb).trans heofcb
  · exact ⟨{ w with eof := true }, h.kind, hseen false, rfl, fun _ => rfl, fun _ => rfl,
      fun _ => rfl, h.count, h.perm, h.nodup, h.lt_brk, h.pend, hdone w.told, h.held⟩

theorem EofInv.sent (h : EofInv s w [sbp]) {r : Rest} (hr : r.sbp = sbp)
    (hreplay : ∀ i nocache, r ≠ .replay i nocache) (hs : s.sent r sync = some s') :
    ∃ w', EofInv s' w' [] := by
  rw [Asrv.sent] at hs
  split at hs
  · next hbroke =>
    cases hs
    obtain ⟨w', heof⟩ := h.xhinfoSeteof hbroke.2.2
    refine ⟨w', { heof with perm := ?_, pend := ?_ }⟩
    · refine heof.perm.trans ?_
      rw [List.append_nil, List.map_cons, hr]
      have hfront : (s.xhinfoSeteof.pend.map Rest.sbp ++ [sbp]).Perm
          (sbp :: s.xhinfoSeteof.pend.map Rest.sbp) := List.perm_append_singleton _ _
      rw [List.append_assoc]
      exact hfront.append_left _
    · intro r' hr'
      rcases List.mem_cons.mp hr' with rfl | hr'
      · exact hreplay
      · exact heof.pend r' hr'
  · exact h.finish hr hreplay hs

theorem EofInv.asrvSendreply (h : EofInv s w [sbp]) {io' : Io}
    (hs : s.asrvSendreply sbp x io io' sync = some s') : ∃ w', EofInv s' w' [] := by
  obtain ⟨b, -, hs⟩ := Option.bind_eq_some_iff.mp hs
  split at hs
  · exact h.finishAsrv hs
  · obtain ⟨⟨ok, t⟩, ht, hs⟩ := Option.bind_eq_some_iff.mp hs
    have hsent := h.sendv ht
    dsimp only at hs
    split at hs
    · obtain ⟨e, -, hs⟩ := Option.bind_eq_some_iff.mp hs
      obtain ⟨⟨ok', u⟩, hu, hs⟩ := Option.bind_eq_some_iff.mp hs
      exact (hsent.sendv hu).sent rfl (by rintro _ _ ⟨⟩) hs
    · exact hsent.sent rfl (by rintro _ _ ⟨⟩) hs

theorem EofInv.sendreply (h : EofInv s w [sbp]) {nocache : Bool} {io' : Io}
    (hs : s.sendreply sbp x nocache io io' sync = some s') : ∃ w', EofInv s' w' [] := by
  simp only [Asrv.sendreply, h.kind] at hs
  split at hs
  · exact h.swallow hs
  · exact h.asrvSendreply hs

theorem EofInv.reject (h : EofInv s w [sbp]) {stat : RejectStat}
    (hs : s.reject sbp stat io sync = some s') : ∃ w', EofInv s' w' [] := by
  simp only [Asrv.reject, Option.bind_eq_bind, Option.bind_eq_some_iff] at hs
  obtain ⟨b, -, hs⟩ := hs
  split at hs
  · exact h.finishNull hs
  · have hsent : ∀ e, (s.sendv none e b.addr io).bind
        (fun r => r.2.sent (.null sbp) sync) = some s' → ∃ w', EofInv s' w' [] := by
      intro e he
      obtain ⟨⟨ok, t⟩, ht, ht'⟩ := Option.bind_eq_some_iff.mp he
      exact (h.sendv ht).sent rfl (by rintro _ _ ⟨⟩) ht'
    cases stat with
    | auth stat =>
        obtain ⟨e, -, he⟩ := Option.bind_eq_some_iff.mp hs
        exact hsent e he
    | accept stat =>
        obtain ⟨e, -, he⟩ := Option.bind_eq_some_iff.mp hs
        exact hsent e he

theorem EofInv.take (h : EofInv s w []) (hs : s.take sbp = some s') : EofInv s' w [sbp] := by
  obtain ⟨hmem, rfl⟩ := take_eq_some.mp hs
  refine { h with perm := ?_, held := fun i hi => h.held i (List.mem_of_mem_erase hi) }
  have hperm := h.perm
  rw [List.perm_iff_count] at hperm ⊢
  intro a
  have hcount := hperm a
  have herase := (List.perm_iff_count.mp (List.perm_cons_erase hmem)) a
  simp only [List.count_append, List.count_cons, List.count_nil] at hcount herase ⊢
  omega

theorem isreplay_of_kind (h : s.kind = .delayedEof) (io : Io) :
    s.isreplay sbp io = some (false, s) := by
  unfold isreplay
  split
  · rfl
  · rfl
  · next hne => cases h.symm.trans hne
  · next hne => cases h.symm.trans hne

theorem incSvccbCount_of_kind (h : s.kind = .delayedEof) :
    s.incSvccbCount = { s with count := s.count + 1 } := by
  unfold incSvccbCount
  split
  · rfl
  · next hne => exact absurd h hne

theorem EofInv.answerNew (h : EofInv s w []) (hdone : w.done = false) (hfresh : sbp ∉ w.owed) :
    ∃ s' w', (({ s with count := s.count + 1 } : Asrv).out (.answered sbp)).decSvccbCount = some s' ∧
      s'.given = s.given ∧ EofInv s' w' [] := by
  have hperm := h.perm
  rw [List.append_nil] at hperm
  have hanswered : w.step (.answered sbp) = some w := by
    rw [Watch.step, List.erase_of_not_mem hfresh]
  exact EofInv.dec h.kind
    ((watch_out (s := { s with count := s.count + 1 }) h.watch _).trans hanswered) h.eof h.rcb h.told
    h.toldEof (congrArg (· + 1) h.count) hperm h.nodup h.lt_brk h.pend hdone h.held

variable {src : Option (List Byte)}

theorem EofInv.serve (h : EofInv s w []) (hdone : w.done = false) (m : CallMsg)
    (hsrc : SrcOk s.xi src) :
    EofInv { ({ s.init m src with count := s.count + 1 } : Asrv).out (.serve s.brk) with
      given := s.given ++ [s.brk] } { w with owed := w.owed ++ [s.brk] } [] := by
  have hfresh : s.brk ∉ w.owed := fun hmem => Nat.lt_irrefl _ (h.lt_brk _ hmem)
  refine ⟨h.kind, ?_, h.eof, h.rcb, h.told, h.toldEof, ?_, ?_, ?_, ?_, h.pend, ?_, ?_⟩
  · have hserve : w.step (.serve s.brk) = some { w with owed := w.owed ++ [s.brk] } :=
      if_neg (by rw [hdone]; exact Bool.false_ne_true)
    exact (watch_out (s := { s.init m src with count := s.count + 1 }) h.watch _).trans hserve
  · have hcount := h.count
    simp only [out, List.length_append, List.length_singleton]
    omega
  · have hperm := h.perm
    rw [List.perm_iff_count] at hperm ⊢
    intro a
    have hcount := hperm a
    simp only [out, init, put, List.count_append, List.count_cons, List.count_nil] at hcount ⊢
    omega
  · exact List.nodup_append.mpr ⟨h.nodup, List.nodup_singleton _, fun a ha b hb heq =>
      hfresh (List.mem_singleton.mp hb ▸ heq ▸ ha)⟩
  · intro i hi
    rcases List.mem_append.mp hi with hi | hi
    · exact Nat.lt_succ_of_lt (h.lt_brk i hi)
    · rw [List.mem_singleton.mp hi]
      exact Nat.lt_succ_self _
  · refine iff_of_false ?_ fun hend => ?_
    · rw [hdone]
      exact Bool.false_ne_true
    · exact absurd hend.2 (List.append_ne_nil_of_right_ne_nil _ (List.cons_ne_nil _ _))
  · intro i hi
    rcases List.mem_append.mp hi with hi | hi
    · have hne : i ≠ s.brk := Nat.ne_of_lt (h.lt_of_given i hi)
      obtain ⟨b, hb, hconn⟩ := h.held i hi
      exact ⟨b, (Function.update_of_ne hne _ _).trans hb, hconn⟩
    · rw [List.mem_singleton.mp hi]
      refine ⟨newSvccb s.xi m src, Function.update_self _ _ _, ?_⟩
      have hlen := hsrc
      rw [SrcOk] at hlen
      cases hc : s.xi.connected
      · rw [hc, if_neg Bool.false_ne_true] at hlen
        obtain ⟨a, rfl, -⟩ := Option.map_eq_some_iff.mp hlen
        simp [init, Xhinfo.svcadd, newSvccb, hc, put, out]
      · simp [init, Xhinfo.svcadd, newSvccb, hc, put, out]

theorem EofInv.recv (h : EofInv s w []) (hrcb : s.xi.rcb = true) {m : CallMsg} {body : List Byte}
    (hsrc : SrcOk s.xi src) (hs : s.recv m body src io = some s') : ∃ w', EofInv s' w' [] := by
  have hnoteof : s.eof = false := by
    rw [← Bool.not_eq_true]
    intro heof
    rw [h.rcb heof] at hrcb
    cases hrcb
  have hnotdone : w.done = false := by
    rw [← Bool.not_eq_true, h.done, h.eof, hnoteof]
    exact fun hend => Bool.false_ne_true hend.1
  have hnew : s.brk ∉ s.given := fun hmem => Nat.lt_irrefl _ (h.lt_of_given _ hmem)
  have hinit : EofInv (s.init m src) w [] := by
    refine h.congr rfl h.watch rfl rfl rfl rfl rfl rfl (Nat.le_succ _) rfl ?_
    intro i hi
    have hne : i ≠ s.brk := by
      rintro rfl
      exact hnew hi
    exact Function.update_of_ne hne _ _
  rw [Asrv.recv] at hs
  dsimp only at hs
  split at hs
  · obtain ⟨e, -, hs⟩ := Option.bind_eq_some_iff.mp hs
    obtain ⟨⟨ok, t⟩, ht, hs⟩ := Option.bind_eq_some_iff.mp hs
    have hgiven : t.given = s.given := given_of_sendv (s := s.init m src) ht
    exact ⟨w, (hinit.sendv ht).delete (hgiven ▸ hnew) hs⟩
  rw [isreplay_of_kind hinit.kind] at hs
  simp only [Option.bind_eq_bind, Option.bind_some, Bool.false_eq_true, if_false] at hs
  split at hs
  case isTrue =>
    obtain ⟨e, -, hs⟩ := Option.bind_eq_some_iff.mp hs
    obtain ⟨⟨ok, t⟩, ht, hs⟩ := Option.bind_eq_some_iff.mp hs
    have hsent := hinit.sendv ht
    have hgiven : t.given = s.given := given_of_sendv (s := s.init m src) ht
    obtain ⟨u, w', hu, hugiven, hinv⟩ :=
      hsent.answerNew hnotdone fun hmem => Nat.lt_irrefl _ (h.lt_brk _ hmem)
    rw [incSvccbCount_of_kind hsent.kind,
      finishNull_of_kind (s := { t with count := t.count + 1 }) hsent.kind] at hs
    split at hs
    · cases hu.symm.trans hs
      exact ⟨w', hinv⟩
    · rw [Asrv.finishAsrv, hu] at hs
      have hnot : s.brk ∉ u.given := by
        rw [hugiven, hgiven]
        exact hnew
      exact ⟨w', hinv.delete hnot hs⟩
  case isFalse =>
    cases hs
    rw [incSvccbCount_of_kind hinit.kind]
    exact ⟨_, h.serve hnotdone m hsrc⟩

/-- The answers to the calls that the callback has. -/
def Answers (s : Asrv) : Event → Prop
  | .reply sbp _ _ _ _ _ => sbp ∈ s.given
  | .reject sbp stat _ _ => sbp ∈ s.given ∧ (s.xi.ateof ∨ stat.Sendable)
  | .ignore sbp => sbp ∈ s.given
  | _ => False

/-- Behind the end a call that is being answered is counted down, and no assertion fails. -/
theorem EofInv.finishNull_isSome (h : EofInv s w [sbp]) (heof : s.eof = true) :
    (s.finishNull sbp).isSome := by
  obtain ⟨t, w', ht, -, -⟩ := h.answered
  rw [finishNull_of_kind h.kind, if_pos (.inl heof), ht, Option.isSome_some]

theorem EofInv.sendreply_isSome (h : EofInv s w [sbp]) (heof : s.eof = true) (x : List Byte)
    (nocache : Bool) (io io' : Io) (sync : Bool) :
    (s.sendreply sbp x nocache io io' sync).isSome := by
  obtain ⟨t, w', ht, -, -⟩ := h.answered
  simp only [Asrv.sendreply, h.kind]
  rw [if_pos (.inl heof), ht, Option.isSome_some]

theorem EofInv.reject_isSome (h : EofInv s w [sbp]) (heof : s.eof = true) {b : Svccb}
    (hb : s.svccbs sbp = some b) (hconn : s.xi.connected = b.addr.isNone) {stat : RejectStat}
    (hstat : s.xi.ateof = true ∨ stat.Sendable) (io : Io) (sync : Bool) :
    (s.reject sbp stat io sync).isSome := by
  simp only [Asrv.reject, hb, Option.bind_eq_bind, Option.bind_some]
  by_cases hend : s.xi.ateof = true
  · rw [if_pos hend]
    exact h.finishNull_isSome heof
  rw [if_neg hend]
  have hsent : ∀ e, ((s.sendv none e b.addr io).bind
      fun r => r.2.sent (.null sbp) sync).isSome := by
    intro e
    obtain ⟨⟨ok, t⟩, ht⟩ : ∃ r, s.sendv none e b.addr io = some r := by
      have hxi : (s.xi.sendv e.length b.addr io).isSome := by
        unfold Xhinfo.sendv
        rw [if_pos hconn, if_neg hend]
        split
        · rfl
        cases io <;> rfl
      obtain ⟨r, hr⟩ := Option.isSome_iff_exists.mp hxi
      exact ⟨_, by rw [Asrv.sendv, hr]; rfl⟩
    have hinv := h.sendv ht
    have hteof : t.eof = true := hinv.eof.symm.trans (h.eof.trans heof)
    rw [ht, Option.bind_some, Asrv.sent]
    split
    · rfl
    · exact hinv.finishNull_isSome hteof
  have hstat := hstat.resolve_left hend
  cases stat with
  | auth stat =>
      have hne : stat ≠ 0 := hstat
      simp only [asrvAuthReject, if_neg hne, Option.bind_some]
      exact hsent _
  | accept stat =>
      rcases hstat with rfl | rfl | rfl <;>
      · simp only [asrvAccepterr, Option.bind_some]
        exact hsent _

variable (xdrCallmsg : List Byte → Option (CallMsg × List Byte))

theorem EofInv.answer_isSome (h : EofInv s w []) (heof : s.eof = true) {e : Event}
    (he : s.Answers e) : (s.step xdrCallmsg e).isSome := by
  have htake : ∀ sbp ∈ s.given, s.take sbp = some { s with given := s.given.erase sbp } :=
    fun sbp hmem => take_eq_some.mpr ⟨hmem, rfl⟩
  cases e with
  | reply sbp res nocache io io' sync =>
      have ht := htake sbp he
      simp only [step, ht, Option.bind_eq_bind, Option.bind_some]
      exact (h.take ht).sendreply_isSome heof res nocache io io' sync
  | reject sbp stat io sync =>
      have ht := htake sbp he.1
      obtain ⟨b, hb, hconn⟩ := h.held sbp he.1
      simp only [step, ht, Option.bind_eq_bind, Option.bind_some]
      exact (h.take ht).reject_isSome heof hb hconn he.2 io sync
  | ignore sbp =>
      have ht := htake sbp he
      simp only [step, ht, Option.bind_eq_bind, Option.bind_some]
      exact (h.take ht).finishNull_isSome heof
  | packet | eof | fail | encodeFails | unwind => exact absurd he id

/-- Calls can be parsed, and replies encode. -/
def Tidy (s : Asrv) : Event → Prop
  | .packet pkt _ _ => rpcInput xdrCallmsg s.xi.clist pkt ≠ .badCallmsg
  | .encodeFails _ => False
  | _ => True

variable {xdrCallmsg}

theorem EofInv.dispatch (h : EofInv s w []) (hrcb : s.xi.rcb = true) {pkt : List Byte}
    (hsrc : SrcOk s.xi src) (hpkt : rpcInput xdrCallmsg s.xi.clist pkt ≠ .badCallmsg)
    (hs : s.dispatch xdrCallmsg pkt src io = some s') : ∃ w', EofInv s' w' [] := by
  rw [Asrv.dispatch] at hs
  split at hs
  · cases hs
    exact h.xhinfoSeteof hrcb
  · cases hs
    exact ⟨w, h⟩
  · next hbad => exact absurd hbad hpkt
  · split at hs
    · obtain ⟨⟨ok, t⟩, ht, hs⟩ := Option.bind_eq_some_iff.mp hs
      cases hs
      exact ⟨w, h.sendv ht⟩
    split at hs
    · exact h.recv hrcb hsrc hs
    split at hs
    · cases hs
      exact ⟨w, h⟩
    · obtain ⟨e, -, hs⟩ := Option.bind_eq_some_iff.mp hs
      obtain ⟨⟨ok, t⟩, ht, hs⟩ := Option.bind_eq_some_iff.mp hs
      cases hs
      exact ⟨w, h.sendv ht⟩

theorem EofInv.step (h : EofInv s w []) {e : Event} (he : s.Tidy xdrCallmsg e)
    (hs : s.step xdrCallmsg e = some s') : ∃ w', EofInv s' w' [] := by
  cases e with
  | packet pkt src io =>
      obtain ⟨⟨hrcb, hsrc⟩, hs⟩ := Option.ite_none_right_eq_some.mp hs
      exact h.dispatch hrcb hsrc he hs
  | eof =>
      obtain ⟨⟨hrcb, -⟩, hs⟩ := Option.ite_none_right_eq_some.mp hs
      cases hs
      have hclosed : EofInv { s with xi := { s.xi with closed := true } } w [] :=
        h.congr rfl h.watch rfl rfl rfl rfl rfl rfl le_rfl rfl fun _ _ => rfl
      exact hclosed.xhinfoSeteof hrcb
  | fail =>
      obtain ⟨-, hs⟩ := Option.ite_none_right_eq_some.mp hs
      cases hs
      exact ⟨w, h.congr rfl h.watch rfl rfl rfl rfl rfl rfl le_rfl rfl fun _ _ => rfl⟩
  | reply sbp res nocache io io' sync =>
      obtain ⟨t, ht, hs⟩ := Option.bind_eq_some_iff.mp hs
      exact (h.take ht).sendreply hs
  | encodeFails sbp => exact absurd he id
  | reject sbp stat io sync =>
      obtain ⟨t, ht, hs⟩ := Option.bind_eq_some_iff.mp hs
      exact (h.take ht).reject hs
  | ignore sbp =>
      obtain ⟨t, ht, hs⟩ := Option.bind_eq_some_iff.mp hs
      exact (h.take ht).finishNull hs
  | unwind =>
      rw [Asrv.step] at hs
      split at hs
      · cases hs
      next r pend hr =>
      have hmid : EofInv { s with pend := pend } w [r.sbp] := by
        refine { h with perm := ?_, pend := ?_ }
        · have hperm := h.perm
          rw [hr] at hperm
          rw [List.perm_iff_count] at hperm ⊢
          intro a
          have hcount := hperm a
          simp only [List.map_cons, List.count_append, List.count_cons, List.count_nil] at hcount ⊢
          omega
        · intro r' hr'
          exact h.pend r' (hr ▸ List.mem_cons_of_mem _ hr')
      exact hmid.finish rfl (h.pend r (hr ▸ List.mem_cons_self)) hs

end Asrv

theorem Watch.counts {log : List Out} {w : Watch} (h : log.foldlM Watch.step Watch.start = some w) :
    log.count .null = w.done.toNat ∧ log.count .eofcb = w.told.toNat ∧
      log.count .eof = w.eof.toNat := by
  induction log using List.reverseRecOn generalizing w with
  | nil =>
      cases h
      exact ⟨rfl, rfl, rfl⟩
  | append_singleton log o ih =>
      rw [List.foldlM_append] at h
      obtain ⟨v, hv, hstep⟩ := Option.bind_eq_some_iff.mp h
      obtain ⟨hnull, heofcb, heof⟩ := ih hv
      obtain ⟨u, hu, hnil⟩ := Option.bind_eq_some_iff.mp hstep
      cases hnil
      simp only [List.count_append, hnull, heofcb, heof]
      cases o with
      | send | answered =>
          cases hu
          exact ⟨rfl, rfl, rfl⟩
      | serve sbp =>
          obtain ⟨-, hu⟩ := Option.ite_none_left_eq_some.mp hu
          cases hu
          exact ⟨rfl, rfl, rfl⟩
      | eof =>
          obtain ⟨hnot, hu⟩ := Option.ite_none_left_eq_some.mp hu
          cases hu
          rw [Bool.not_eq_true] at hnot
          rw [hnot]
          exact ⟨rfl, rfl, rfl⟩
      | eofcb =>
          obtain ⟨⟨-, hnot, -⟩, hu⟩ := Option.ite_none_right_eq_some.mp hu
          cases hu
          rw [hnot]
          exact ⟨rfl, rfl, rfl⟩
      | null =>
          obtain ⟨⟨-, hnot, -⟩, hu⟩ := Option.ite_none_right_eq_some.mp hu
          cases hu
          rw [hnot]
          exact ⟨rfl, rfl, rfl⟩

namespace Asrv

variable {xdrCallmsg : List Byte → Option (CallMsg × List Byte)}

theorem eofInv_start (rpcprog : RpcProgram) (xi : Xhinfo) (eofcb : Bool) :
    EofInv (start .delayedEof rpcprog xi eofcb) .start [] where
  kind := rfl
  watch := rfl
  eof := rfl
  rcb h := absurd h Bool.false_ne_true
  told h := absurd h Bool.false_ne_true
  toldEof h := absurd h Bool.false_ne_true
  count := rfl
  perm := .nil
  nodup := .nil
  lt_brk _ h := absurd h List.not_mem_nil
  pend _ h := absurd h List.not_mem_nil
  done := iff_of_false Bool.false_ne_true fun h => Bool.false_ne_true h.1
  held _ h := absurd h List.not_mem_nil

/-- In every run in which calls can be parsed and replies encode, the owner sees each of the two
ends at most once; what it owes is what it was given and did not answer, and the null pointer was
passed exactly when the end was seen and nothing is owed. Answers behind the end meet no failed
assertion. -/
theorem delayed_eof_watched {rpcprog : RpcProgram} {xi : Xhinfo} {eofcb : Bool} {es : List Event}
    {s : Asrv}
    (hrun : Run (step xdrCallmsg) (Tidy xdrCallmsg) (start .delayedEof rpcprog xi eofcb) es s) :
    ∃ w, s.watch = some w ∧ w.eof = s.eof ∧
      w.owed.Perm (s.given ++ s.pend.map Rest.sbp) ∧
      (w.done = true ↔ s.eof = true ∧ s.given = [] ∧ s.pend = []) ∧
      s.log.count .null = w.done.toNat ∧ s.log.count .eofcb = w.told.toNat ∧
      (s.eof = true → ∀ e, s.Answers e → (s.step xdrCallmsg e).isSome) := by
  have hinv : ∃ w, EofInv s w [] := by
    apply hrun.invariant (I := fun s => ∃ w, EofInv s w []) ⟨_, eofInv_start rpcprog xi eofcb⟩
    rintro a e b ⟨w, ha⟩ he hs
    exact ha.step he hs
  obtain ⟨w, hinv⟩ := hinv
  have hperm := hinv.perm
  rw [List.append_nil] at hperm
  have hnil : w.owed = [] ↔ s.given = [] ∧ s.pend = [] := by
    constructor
    · intro hnil
      rw [hnil] at hperm
      have happ := List.nil_perm.mp hperm
      exact ⟨List.append_eq_nil_iff.mp happ |>.1,
        List.map_eq_nil_iff.mp (List.append_eq_nil_iff.mp happ).2⟩
    · rintro ⟨hgiven, hpend⟩
      rw [hgiven, hpend] at hperm
      exact List.perm_nil.mp hperm
  obtain ⟨hnull, heofcb, -⟩ := Watch.counts hinv.watch
  refine ⟨w, hinv.watch, hinv.eof, hperm, ?_, hnull, heofcb, ?_⟩
  · rw [hinv.done, hinv.eof, hnil]
  · intro heof e he
    exact hinv.answer_isSome xdrCallmsg heof he

def pipe : Xhinfo := ⟨0, true, true, 0, by decide, false, true, false, [], 0, 0, 0⟩

/-- The end comes before the answers: a reply is swallowed, and the other call can be rejected. -/
theorem delayed_eof_watched_early :
    ∃ (s : Asrv) (w : Watch), s.watch = some w ∧ w.told = true ∧
      s.log.count .null = w.done.toNat ∧
      (s.step nullCallmsg (.reject 1 (.accept .systemErr) .ok false)).isSome := by
  have hsteps : ((step nullCallmsg (start .delayedEof nullProgram pipe true)
      (.packet nullCall none .ok)).bind fun s =>
        (s.step nullCallmsg (.packet nullCall none .ok)).bind fun s =>
        (s.step nullCallmsg .eof).bind fun s =>
        (s.step nullCallmsg (.reply 0 [1] false .ok .ok false)).map
          fun s => (s.log, s.given, s.eof)) =
      some ([.serve 0, .serve 1, .eof, .eofcb, .answered 0], [1], true) := by
    decide +kernel
  obtain ⟨s₁, h₁, hs⟩ := Option.bind_eq_some_iff.mp hsteps
  obtain ⟨s₂, h₂, hs⟩ := Option.bind_eq_some_iff.mp hs
  obtain ⟨s₃, h₃, hs⟩ := Option.bind_eq_some_iff.mp hs
  obtain ⟨s, h₄, hend⟩ := Option.map_eq_some_iff.mp hs
  have hlog := congrArg Prod.fst hend
  have hgiven := congrArg (·.2.1) hend
  have heof := congrArg (·.2.2) hend
  dsimp only at hlog hgiven heof
  have hparsed : rpcInput nullCallmsg false nullCall ≠ .badCallmsg := by
    decide +kernel
  have hrun : Run (step nullCallmsg) (Tidy nullCallmsg) (start .delayedEof nullProgram pipe true)
      [.packet nullCall none .ok, .packet nullCall none .ok, .eof, .reply 0 [1] false .ok .ok false]
      s :=
    .cons hparsed h₁ (.cons hparsed h₂ (.cons trivial h₃ (.cons trivial h₄ (.nil _))))
  obtain ⟨w, hw, -, -, -, hnull, -, hanswer⟩ := delayed_eof_watched hrun
  have hwatch : s.watch = some ⟨true, true, false, [1]⟩ := by
    rw [watch, hlog]
    rfl
  cases hwatch.symm.trans hw
  refine ⟨s, _, hwatch, rfl, hnull, hanswer heof _ ⟨?_, .inr (.inr (.inr rfl))⟩⟩
  rw [hgiven]
  exact List.mem_singleton.mpr rfl

/-- A call that cannot be parsed is taken for the end of the file, of which there may be many. -/
example :
    ((step nullCallmsg (start .delayedEof nullProgram pipe false)
      (.packet (nullCall.take 36) none .ok)).bind fun s =>
        (s.step nullCallmsg (.packet (nullCall.take 36) none .ok)).map fun s =>
          (s.log, s.watch)) = some ([.eof, .null, .eof, .null], none) := by
  decide +kernel

end Asrv

end Sfslite.Arpc
