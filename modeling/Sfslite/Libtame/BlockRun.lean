import Mathlib.Algebra.Group.Int.Defs
import Mathlib.Algebra.Group.Nat.Defs
import Sfslite.Libtame.Block

/-!
A closure goes on behind each of its blocks once, when control has left the block and every event
of the block was triggered. The counter is the number of the events that were not, and one more
for the body, as long as that is a number that an `int` can have.
-/

namespace Sfslite.Libtame.Block

open Sfslite.Lib

/-- Whether an event counts for the block. -/
def Event.counts (ev : Event) : Bool := !ev.performed

/-- An event that has its closure can be triggered, and was not. -/
def Event.Ready (ev : Event) : Prop :=
  ev.closure = true → ev.base.cancelled = false ∧ ev.base.cleared = false ∧
    ev.base.performing = false ∧ ev.performed = false

/-- A change that is not a trigger of an event with its closure. -/
structure Quiet (ev ev' : Event) : Prop where
  performed : ev'.performed = ev.performed
  block : ev'.block = ev.block
  closure : ev'.closure = true → ev.closure = true
  ready : ev.Ready → ev'.Ready

variable {ev ev' : Event}

theorem Event.Ready.canTrigger (h : ev.Ready) (hc : ev.closure = true) :
    ev.base.canTrigger = true := by
  obtain ⟨hcancelled, hcleared, hperforming, -⟩ := h hc
  rw [EventCancelBase.canTrigger, hcancelled, hcleared, hperforming]
  rfl

theorem quiet_clear (ev : Event) : Quiet ev ev.clear := by
  rw [Event.clear]
  split
  · exact ⟨rfl, rfl, id, id⟩
  · exact ⟨rfl, rfl, nofun, fun _ => nofun⟩

theorem quiet_cancel (ev : Event) : Quiet ev ev.cancel := by
  rw [Event.cancel, Event.clear]
  split
  · next hcleared =>
    refine ⟨rfl, rfl, id, fun hready hc => ?_⟩
    exact absurd hcleared (by rw [Bool.not_eq_true]; exact (hready hc).2.1)
  · exact ⟨rfl, rfl, nofun, fun _ => nofun⟩

theorem quiet_setReuse (ev : Event) (b : Bool) : Quiet ev { ev with base.reuse := b } :=
  ⟨rfl, rfl, id, id⟩

theorem quiet_endTrigger (hc : ev.closure = false) (b : Bool) : Quiet ev (ev.endTrigger b) :=
  ⟨rfl, rfl, id, fun _ h => absurd (hc.symm.trans h) Bool.false_ne_true⟩

section Modify

variable {l : List Event} {e : ℕ} {f : Event → Event}

theorem countP_modify (hf : ∀ ev, l[e]? = some ev → (f ev).counts = ev.counts) :
    (l.modify e f).countP Event.counts = l.countP Event.counts := by
  induction l generalizing e with
  | nil => cases e <;> rfl
  | cons ev l ih =>
    cases e with
    | zero => rw [List.modify_zero_cons, List.countP_cons, List.countP_cons, hf ev rfl]
    | succ e =>
      rw [List.modify_succ_cons, List.countP_cons, List.countP_cons,
        ih fun ev h => hf ev (by rw [List.getElem?_cons_succ]; exact h)]

theorem countP_modify_closed (hev : l[e]? = some ev) (hcounts : ev.counts = true)
    (hf : (f ev).counts = false) :
    (l.modify e f).countP Event.counts + 1 = l.countP Event.counts := by
  induction l generalizing e with
  | nil => cases hev
  | cons ev' l ih =>
    cases e with
    | zero =>
      cases hev
      rw [List.modify_zero_cons, List.countP_cons, List.countP_cons, hcounts, hf]
      rfl
    | succ e =>
      rw [List.getElem?_cons_succ] at hev
      have := ih hev
      rw [List.modify_succ_cons, List.countP_cons, List.countP_cons]
      omega

end Modify

/-- One for the body of a block that control is in. -/
def bodyCount (c : Control) : ℤ := if c = .block then 1 else 0

/-- What holds between any two steps. -/
structure Inv (s : State) : Prop where
  count : s.count.toInt = s.events.countP Event.counts + bodyCount s.control
  code : s.control = .code → s.count.toInt = 0
  blocked : s.control = .blocked → 0 < s.count.toInt
  current : ∀ (e : ℕ) (ev : Event), s.events[e]? = some ev → ev.counts = true →
    ev.block = s.entered.length
  ready : ∀ (e : ℕ) (ev : Event), s.events[e]? = some ev → ev.Ready
  stack : ∀ e ∈ s.stack, ∃ ev, s.events[e]? = some ev ∧ ev.closure = false
  continued : s.continued = if s.control = .code then s.entered else s.entered.dropLast
  jumpto : s.control ≠ .code → s.entered.getLast? = some s.jumpto

theorem Inv.init : Inv .init where
  count := rfl
  code _ := rfl
  blocked := nofun
  current := nofun
  ready := nofun
  stack := nofun
  continued := rfl
  jumpto h := absurd rfl h

theorem getElem?_modifyEvent {s : State} {e i : ℕ} {f : Event → Event}
    (h : (s.modifyEvent e f).events[i]? = some ev') :
    ∃ ev, s.events[i]? = some ev ∧ ev' = if e = i then f ev else ev := by
  rw [State.modifyEvent, List.getElem?_modify] at h
  obtain ⟨ev, hev, h⟩ := Option.map_eq_some_iff.mp h
  exact ⟨ev, hev, h.symm⟩

section Steps

variable {s : State} {e : ℕ} {f : Event → Event}

theorem Inv.modify (h : Inv s)
    (hf : ∀ ev, s.events[e]? = some ev → Quiet ev (f ev)) : Inv (s.modifyEvent e f) := by
  have hquiet : ∀ (i : ℕ) (ev' : Event), (s.modifyEvent e f).events[i]? = some ev' →
      ∃ ev, s.events[i]? = some ev ∧ Quiet ev ev' := by
    intro i ev' hev'
    obtain ⟨ev, hev, rfl⟩ := getElem?_modifyEvent hev'
    refine ⟨ev, hev, ?_⟩
    split
    · next heq => exact hf ev (heq ▸ hev)
    · exact ⟨rfl, rfl, id, id⟩
  have hcount : (s.modifyEvent e f).events.countP Event.counts = s.events.countP Event.counts :=
    countP_modify fun ev hev => congrArg (!·) (hf ev hev).performed
  refine ⟨?_, h.code, h.blocked, ?_, ?_, ?_, h.continued, h.jumpto⟩
  · rw [hcount]
    exact h.count
  · intro i ev' hev' hcounts
    obtain ⟨ev, hev, hq⟩ := hquiet i ev' hev'
    rw [hq.block]
    exact h.current i ev hev (by rw [Event.counts, ← hq.performed]; exact hcounts)
  · intro i ev' hev'
    obtain ⟨ev, hev, hq⟩ := hquiet i ev' hev'
    exact hq.ready (h.ready i ev hev)
  · intro i hi
    obtain ⟨ev, hev, hclosed⟩ := h.stack i hi
    have hev' : (s.modifyEvent e f).events[i]? = some (if e = i then f ev else ev) := by
      rw [State.modifyEvent, List.getElem?_modify, hev]
      rfl
    refine ⟨_, hev', ?_⟩
    obtain ⟨ev₀, hev₀, hq⟩ := hquiet i _ hev'
    rw [hev, Option.some.injEq] at hev₀
    subst hev₀
    rw [← Bool.not_eq_true]
    intro hc
    exact absurd (hclosed.symm.trans (hq.closure hc)) Bool.false_ne_true

theorem Inv.enter (h : Inv s) (hcode : s.control = .code) (id : ℕ) : Inv (s.enter id) := by
  have hzero := h.code hcode
  have hcount := h.count
  have hclosed : s.events.countP Event.counts = 0 := by
    rw [hzero, hcode] at hcount
    have hbody : bodyCount .code = 0 := rfl
    omega
  refine ⟨?_, nofun, nofun, ?_, h.ready, h.stack, ?_, fun _ => ?_⟩
  · change (1 : BitVec 32).toInt = s.events.countP Event.counts + bodyCount .block
    rw [hclosed]
    rfl
  · intro i ev hev hcounts
    have hnone := List.countP_eq_zero.mp hclosed ev (List.mem_of_getElem? hev)
    exact absurd hcounts hnone
  · change s.continued = (s.entered ++ [id]).dropLast
    rw [List.dropLast_concat, h.continued, if_pos hcode]
  · exact List.getLast?_concat ..

theorem getElem?_mkevent {i : ℕ} (h : s.mkevent.events[i]? = some ev) :
    s.events[i]? = some ev ∨ ev = ⟨.new, true, s.entered.length, false⟩ := by
  rw [State.mkevent, List.getElem?_append] at h
  split at h
  · exact Or.inl h
  · exact Or.inr (List.mem_singleton.mp (List.mem_of_getElem? h))

def State.waiting (s : State) : ℕ := s.events.countP Event.counts

/-- When an event is made, the ones that were not triggered, this one and the body can be counted by
an `int`. -/
def Fits (s : State) (a : Act) : Prop := a = .mkevent → s.waiting + 2 < 2 ^ 31

variable {count : BitVec 32}

theorem toInt_inc (h : count.toInt + 1 < 2 ^ 31) : (count + 1).toInt = count.toInt + 1 := by
  have hlow := BitVec.le_toInt count
  have hone : (1 : BitVec 32).toInt = 1 := rfl
  rw [BitVec.toInt_add, hone]
  apply Int.bmod_eq_of_le <;> omega

theorem toInt_dec (h : 0 < count.toInt) : (count - 1).toInt = count.toInt - 1 := by
  have hhigh := BitVec.toInt_lt (x := count)
  have hone : (1 : BitVec 32).toInt = 1 := rfl
  rw [BitVec.toInt_sub, hone]
  apply Int.bmod_eq_of_le <;> omega

theorem Inv.mkevent (h : Inv s) (hblock : s.control = .block) (hfits : s.waiting + 2 < 2 ^ 31) :
    Inv s.mkevent := by
  refine ⟨?_, fun hc => ?_, fun hc => ?_, ?_, ?_, ?_, h.continued, h.jumpto⟩
  · have hcount := h.count
    have hbody : bodyCount s.control = 1 := by rw [hblock]; rfl
    rw [hbody] at hcount
    rw [State.waiting] at hfits
    change (s.count + 1).toInt = (s.events ++ [_]).countP Event.counts + bodyCount s.control
    rw [toInt_inc (by omega), hbody, List.countP_append]
    change s.count.toInt + 1 = ((s.events.countP Event.counts + 1 : ℕ) : ℤ) + 1
    omega
  · exact absurd (hblock.symm.trans hc) nofun
  · exact absurd (hblock.symm.trans hc) nofun
  · intro i ev hev hcounts
    rcases getElem?_mkevent hev with hev | rfl
    · exact h.current i ev hev hcounts
    · rfl
  · intro i ev hev
    rcases getElem?_mkevent hev with hev | rfl
    · exact h.ready i ev hev
    · exact fun _ => ⟨rfl, rfl, rfl, rfl⟩
  · intro i hi
    obtain ⟨ev, hev, hclosed⟩ := h.stack i hi
    refine ⟨ev, ?_, hclosed⟩
    rw [State.mkevent, List.getElem?_append_left (List.getElem?_eq_some_iff.mp hev).1, hev]

theorem blockDecCount_of_pos (h : 0 < count.toInt) :
    blockDecCount count = (decide (count.toInt = 1), count - 1) := by
  have hdec := toInt_dec h
  rw [blockDecCount, if_neg (by omega)]
  congr 1
  apply decide_eq_decide.mpr
  have hzero : (0 : BitVec 32).toInt = 0 := rfl
  rw [← BitVec.toInt_inj, hdec, hzero]
  omega

theorem Inv.leave (h : Inv s) (hblock : s.control = .block) : Inv s.leave := by
  have hcount := h.count
  have hbody : bodyCount s.control = 1 := by rw [hblock]; rfl
  rw [hbody] at hcount
  have hne : s.control ≠ .code := by rw [hblock]; nofun
  have hcont := h.continued
  rw [if_neg hne] at hcont
  have hlast := h.jumpto hne
  have hpos : 0 < s.count.toInt := by omega
  have hdec := toInt_dec hpos
  rw [State.leave, blockDecCount_of_pos hpos]
  by_cases hone : s.count.toInt = 1
  · simp only [hone, decide_true, if_true]
    refine ⟨?_, fun _ => ?_, nofun, h.current, h.ready, h.stack, ?_, nofun⟩
    · change (s.count - 1).toInt = s.events.countP Event.counts + 0
      omega
    · change (s.count - 1).toInt = 0
      omega
    · change s.continued ++ s.entered.getLast?.toList = s.entered
      rw [hcont, hlast]
      exact List.dropLast_append_getLast? _ hlast
  · simp only [hone, decide_false, Bool.false_eq_true, if_false]
    refine ⟨?_, nofun, fun _ => ?_, h.current, h.ready, h.stack, ?_, fun _ => hlast⟩
    · change (s.count - 1).toInt = s.events.countP Event.counts + 0
      omega
    · change 0 < (s.count - 1).toInt
      omega
    · rw [hcont]
      rfl

/-- The trigger of an event that still counts; the last one comes when the closure is gone. -/
theorem Inv.trigger_closure (h : Inv s) (hev : s.events[e]? = some ev)
    (hclosure : ev.closure = true) : Inv ((s.modifyEvent e Event.fire).maybeReenter e) := by
  have hcounts : ev.counts = true := by
    rw [Event.counts, (h.ready e ev hev hclosure).2.2.2]
    rfl
  have hfewer : (s.modifyEvent e Event.fire).events.countP Event.counts + 1 =
      s.events.countP Event.counts := countP_modify_closed hev hcounts rfl
  have hcount := h.count
  have hbody : bodyCount s.control = if s.control = .block then 1 else 0 := rfl
  have hpos : 0 < s.count.toInt := by
    rw [hcount, hbody]
    split <;> omega
  have hless := toInt_dec hpos
  have hne : s.control ≠ .code := fun hcode => by
    have := h.code hcode
    omega
  have hcont := h.continued
  rw [if_neg hne] at hcont
  have hlast := h.jumpto hne
  have hcurrent : ∀ (i : ℕ) (ev' : Event), (s.modifyEvent e Event.fire).events[i]? = some ev' →
      ev'.counts = true → ev'.block = s.entered.length := by
    intro i ev' hev' hcounts'
    obtain ⟨ev, hev, rfl⟩ := getElem?_modifyEvent hev'
    split at hcounts'
    · cases hcounts'
    · next hi =>
      rw [if_neg hi]
      exact h.current i ev hev hcounts'
  have hready : ∀ (i : ℕ) (ev' : Event), (s.modifyEvent e Event.fire).events[i]? = some ev' →
      ev'.Ready := by
    intro i ev' hev'
    obtain ⟨ev, hev, rfl⟩ := getElem?_modifyEvent hev'
    split
    · exact nofun
    · exact h.ready i ev hev
  have hstack : ∀ i ∈ e :: s.stack, ∃ ev', (s.modifyEvent e Event.fire).events[i]? = some ev' ∧
      ev'.closure = false := by
    intro i hi
    have hlookup : ∀ ev', s.events[i]? = some ev' → (s.modifyEvent e Event.fire).events[i]? =
        some (if e = i then ev'.fire else ev') := by
      intro ev' hev'
      rw [State.modifyEvent, List.getElem?_modify, hev']
      rfl
    rcases List.mem_cons.mp hi with rfl | hi
    · exact ⟨_, hlookup ev hev, by rw [if_pos rfl]; rfl⟩
    · obtain ⟨ev', hev', hclosed⟩ := h.stack i hi
      refine ⟨_, hlookup ev' hev', ?_⟩
      split
      · rfl
      · exact hclosed
  have hdec : blockDecCount (s.modifyEvent e Event.fire).count =
      (decide (s.count.toInt = 1), s.count - 1) := blockDecCount_of_pos hpos
  rw [State.maybeReenter, hdec]
  by_cases hone : s.count.toInt = 1
  · simp only [hone, decide_true, if_true]
    have hzero : bodyCount s.control = 0 := by
      rw [hbody, if_neg]
      intro hblock
      rw [hblock] at hcount
      change s.count.toInt = s.events.countP Event.counts + 1 at hcount
      omega
    refine ⟨?_, fun _ => ?_, nofun, hcurrent, hready, hstack, ?_, nofun⟩
    · change (s.count - 1).toInt = (s.modifyEvent e Event.fire).events.countP Event.counts + 0
      omega
    · change (s.count - 1).toInt = 0
      omega
    · change s.continued ++ [s.jumpto] = s.entered
      rw [hcont]
      exact List.dropLast_append_getLast? _ hlast
  · simp only [hone, decide_false, Bool.false_eq_true, if_false]
    have hinv : Inv { s.modifyEvent e Event.fire with count := s.count - 1 } := by
      refine ⟨?_, fun hcode => absurd hcode hne, fun _ => ?_, hcurrent, hready,
        fun i hi => hstack i (List.mem_cons_of_mem _ hi), h.continued, h.jumpto⟩
      · change (s.count - 1).toInt =
          (s.modifyEvent e Event.fire).events.countP Event.counts + bodyCount s.control
        omega
      · change 0 < (s.count - 1).toInt
        omega
    refine hinv.modify fun ev' hev' => quiet_endTrigger ?_ true
    obtain ⟨ev, -, rfl⟩ := getElem?_modifyEvent hev'
    rw [if_pos rfl]
    rfl

theorem Inv.trigger (h : Inv s) (hev : s.events[e]? = some ev) : Inv (s.trigger e ev) := by
  rw [State.trigger]
  split
  · split
    · next hclosure => exact h.trigger_closure hev hclosure
    · next hclosure =>
      refine h.modify fun ev' hev' => quiet_endTrigger ?_ false
      rw [hev, Option.some.injEq] at hev'
      subst hev'
      exact Bool.eq_false_iff.mpr hclosure
  · exact h

theorem Inv.step {a : Act} {s' : State} (h : Inv s) (hfits : Fits s a)
    (hs : step s a = some s') : Inv s' := by
  cases a with
  | enter id =>
    obtain ⟨hcode, ⟨⟩⟩ := Option.ite_none_right_eq_some.mp hs
    exact h.enter hcode id
  | mkevent =>
    obtain ⟨hblock, ⟨⟩⟩ := Option.ite_none_right_eq_some.mp hs
    exact h.mkevent hblock (hfits rfl)
  | leave =>
    obtain ⟨hblock, ⟨⟩⟩ := Option.ite_none_right_eq_some.mp hs
    exact h.leave hblock
  | jumpOut id =>
    obtain ⟨hcode, ⟨⟩⟩ := Option.ite_none_right_eq_some.mp hs
    exact { h with jumpto := fun hne => absurd hcode hne }
  | trigger e =>
    obtain ⟨ev, hev, rfl⟩ := Option.map_eq_some_iff.mp hs
    exact h.trigger hev
  | ret =>
    rw [Block.step] at hs
    split at hs
    · cases hs
    next e stack hstack =>
    cases hs
    have hpop : Inv { s with stack := stack } :=
      { h with stack := fun i hi => h.stack i (by rw [hstack]; exact List.mem_cons_of_mem _ hi) }
    refine hpop.modify fun ev hev => quiet_endTrigger ?_ true
    obtain ⟨ev', hev', hclosed⟩ := h.stack e (by rw [hstack]; exact List.mem_cons_self)
    have heq : some ev = some ev' := hev.symm.trans hev'
    cases heq
    exact hclosed
  | cancel e =>
    obtain ⟨-, ⟨⟩⟩ := Option.ite_none_right_eq_some.mp hs
    exact h.modify fun ev _ => quiet_cancel ev
  | finish e =>
    obtain ⟨-, ⟨⟩⟩ := Option.ite_none_right_eq_some.mp hs
    exact h.modify fun ev _ => quiet_clear ev
  | setReuse e b =>
    obtain ⟨-, ⟨⟩⟩ := Option.ite_none_right_eq_some.mp hs
    exact h.modify fun ev _ => quiet_setReuse ev b

end Steps

/-- An event was triggered before it was cancelled or finished. -/
def Triggered (h : List Act) (e : ℕ) : Prop :=
  ∃ h₁ h₂, h = h₁ ++ .trigger e :: h₂ ∧ .cancel e ∉ h₁ ∧ .finish e ∉ h₁

theorem triggered_concat {h : List Act} {a : Act} {e : ℕ} :
    Triggered (h ++ [a]) e ↔
      Triggered h e ∨ (a = .trigger e ∧ .cancel e ∉ h ∧ .finish e ∉ h) := by
  constructor
  · rintro ⟨h₁, h₂, heq, hcancel, hfinish⟩
    rcases List.eq_nil_or_concat h₂ with rfl | ⟨h₂, b, rfl⟩
    · obtain ⟨rfl, ha⟩ := List.append_inj' heq rfl
      exact Or.inr ⟨(List.cons.inj ha).1, hcancel, hfinish⟩
    · rw [List.concat_eq_append, ← List.cons_append, ← List.append_assoc] at heq
      obtain ⟨rfl, -⟩ := List.append_inj' heq rfl
      exact Or.inl ⟨h₁, h₂, rfl, hcancel, hfinish⟩
  · rintro (⟨h₁, h₂, rfl, hcancel, hfinish⟩ | ⟨rfl, hcancel, hfinish⟩)
    · exact ⟨h₁, h₂ ++ [a], by rw [List.append_assoc, List.cons_append], hcancel, hfinish⟩
    · exact ⟨h, [], rfl, hcancel, hfinish⟩

/-- What the history of an event says about it. -/
structure Agrees (h : List Act) (e : ℕ) (ev : Event) : Prop where
  performed : ev.performed = true ↔ Triggered h e
  closure : ev.closure = true ↔ ¬Triggered h e ∧ .cancel e ∉ h ∧ .finish e ∉ h

theorem Agrees.concat {h : List Act} {a : Act} {e : ℕ} (hag : Agrees h e ev)
    (htrigger : a ≠ .trigger e) (hcancel : a ≠ .cancel e) (hfinish : a ≠ .finish e) :
    Agrees (h ++ [a]) e ev := by
  have htriggered : Triggered (h ++ [a]) e ↔ Triggered h e := by
    rw [triggered_concat, or_iff_left fun hr => htrigger hr.1]
  have hmem : ∀ b, a ≠ b → (b ∉ h ++ [a] ↔ b ∉ h) := by
    intro b hb
    rw [List.mem_append, List.mem_singleton, or_iff_left fun heq => hb heq.symm]
  refine ⟨by rw [htriggered, hag.performed], ?_⟩
  rw [htriggered, hmem _ hcancel, hmem _ hfinish, hag.closure]

structure Known (h : List Act) (s : State) : Prop where
  agrees : ∀ (e : ℕ) (ev : Event), s.events[e]? = some ev → Agrees h e ev
  fresh : ∀ e, s.events.length ≤ e → .trigger e ∉ h ∧ .cancel e ∉ h ∧ .finish e ∉ h

section Known

variable {h : List Act} {s s' : State} {a : Act} {e : ℕ}

theorem Known.same (hk : Known h s) (hevents : s'.events = s.events)
    (ha : ∀ i, a ≠ .trigger i ∧ a ≠ .cancel i ∧ a ≠ .finish i) : Known (h ++ [a]) s' := by
  have hmem : ∀ b, a ≠ b → b ∉ h → b ∉ h ++ [a] := by
    intro b hb hmem
    rw [List.mem_append, List.mem_singleton]
    exact fun hor => hor.elim hmem fun heq => hb heq.symm
  constructor
  · intro i ev hev
    rw [hevents] at hev
    exact (hk.agrees i ev hev).concat (ha i).1 (ha i).2.1 (ha i).2.2
  · intro i hi
    obtain ⟨htrigger, hcancel, hfinish⟩ := hk.fresh i (hevents ▸ hi)
    exact ⟨hmem _ (ha i).1 htrigger, hmem _ (ha i).2.1 hcancel, hmem _ (ha i).2.2 hfinish⟩

theorem Known.change (hk : Known h s) {f : Event → Event}
    (hevents : s'.events = s.events.modify e f) (he : e < s.events.length)
    (ha : ∀ i, i ≠ e → a ≠ .trigger i ∧ a ≠ .cancel i ∧ a ≠ .finish i)
    (hf : ∀ ev, s.events[e]? = some ev → Agrees h e ev → Agrees (h ++ [a]) e (f ev)) :
    Known (h ++ [a]) s' := by
  have hmem : ∀ b, a ≠ b → b ∉ h → b ∉ h ++ [a] := by
    intro b hb hmem
    rw [List.mem_append, List.mem_singleton]
    exact fun hor => hor.elim hmem fun heq => hb heq.symm
  constructor
  · intro i ev' hev'
    rw [hevents, List.getElem?_modify] at hev'
    obtain ⟨ev, hev, rfl⟩ := Option.map_eq_some_iff.mp hev'
    split
    · next heq =>
      subst heq
      exact hf ev hev (hk.agrees e ev hev)
    · next hne =>
      obtain ⟨htrigger, hcancel, hfinish⟩ := ha i (Ne.symm hne)
      exact (hk.agrees i ev hev).concat htrigger hcancel hfinish
  · intro i hi
    rw [hevents, List.length_modify] at hi
    have hne : i ≠ e := by omega
    obtain ⟨htrigger, hcancel, hfinish⟩ := hk.fresh i hi
    obtain ⟨htrigger', hcancel', hfinish'⟩ := ha i hne
    exact ⟨hmem _ htrigger' htrigger, hmem _ hcancel' hcancel, hmem _ hfinish' hfinish⟩

theorem Agrees.fire (hag : Agrees h e ev) (hclosure : ev.closure = true)
    (hperformed : ev'.performed = true) (hclosed : ev'.closure = false) :
    Agrees (h ++ [.trigger e]) e ev' := by
  obtain ⟨-, hcancel, hfinish⟩ := hag.closure.mp hclosure
  have htriggered : Triggered (h ++ [.trigger e]) e :=
    triggered_concat.mpr (Or.inr ⟨rfl, hcancel, hfinish⟩)
  exact ⟨iff_of_true hperformed htriggered,
    iff_of_false (by rw [hclosed]; nofun) fun hn => hn.1 htriggered⟩

theorem Agrees.trigger_again (hag : Agrees h e ev) (hclosure : ev.closure = false)
    (hperformed : ev'.performed = ev.performed) (hclosed : ev'.closure = false) :
    Agrees (h ++ [.trigger e]) e ev' := by
  have hgone : ¬(¬Triggered h e ∧ .cancel e ∉ h ∧ .finish e ∉ h) := by
    rw [← hag.closure, hclosure]
    nofun
  have htriggered : Triggered (h ++ [.trigger e]) e ↔ Triggered h e := by
    rw [triggered_concat]
    constructor
    · rintro (ht | ⟨-, hcancel, hfinish⟩)
      · exact ht
      · exact by_contra fun hn => hgone ⟨hn, hcancel, hfinish⟩
    · exact Or.inl
  refine ⟨by rw [hperformed, hag.performed, htriggered], iff_of_false (by rw [hclosed]; nofun) ?_⟩
  rintro ⟨hn, hcancel, hfinish⟩
  rw [htriggered] at hn
  exact hgone ⟨hn, fun hm => hcancel (List.mem_append_left _ hm),
    fun hm => hfinish (List.mem_append_left _ hm)⟩

theorem Agrees.drop (hag : Agrees h e ev) (ha : a = .cancel e ∨ a = .finish e)
    (hperformed : ev'.performed = ev.performed) (hclosed : ev'.closure = false) :
    Agrees (h ++ [a]) e ev' := by
  have hne : a ≠ .trigger e := by rcases ha with rfl | rfl <;> nofun
  have htriggered : Triggered (h ++ [a]) e ↔ Triggered h e := by
    rw [triggered_concat, or_iff_left fun hr => hne hr.1]
  refine ⟨by rw [hperformed, hag.performed, htriggered], iff_of_false (by rw [hclosed]; nofun) ?_⟩
  rintro ⟨-, hcancel, hfinish⟩
  rcases ha with rfl | rfl
  · exact hcancel (by simp)
  · exact hfinish (by simp)

theorem events_maybeReenter (s : State) (e : ℕ) (f : Event → Event) :
    ((s.modifyEvent e f).maybeReenter e).events = s.events.modify e f ∨
      ((s.modifyEvent e f).maybeReenter e).events =
        s.events.modify e fun ev => (f ev).endTrigger true := by
  rw [State.maybeReenter]
  split
  · exact Or.inl rfl
  · refine Or.inr ?_
    change (s.events.modify e f).modify e _ = _
    rw [List.modify_modify_eq]
    rfl

theorem closure_clear (h : ev.base.cleared = true → ev.closure = false) :
    ev.clear.closure = false := by
  rw [Event.clear]
  split
  · next hcleared => exact h hcleared
  · rfl

theorem Event.Ready.cleared (h : ev.Ready) (hcleared : ev.base.cleared = true) :
    ev.closure = false := by
  cases hc : ev.closure with
  | false => rfl
  | true => exact absurd (hcleared.symm.trans (h hc).2.1) nofun

theorem Known.trigger (hk : Known h s) (hi : Inv s) (hev : s.events[e]? = some ev) :
    Known (h ++ [.trigger e]) (s.trigger e ev) := by
  have he : e < s.events.length := (List.getElem?_eq_some_iff.mp hev).1
  have hother : ∀ i, i ≠ e → Act.trigger e ≠ .trigger i ∧ Act.trigger e ≠ .cancel i ∧
      Act.trigger e ≠ .finish i :=
    fun i hne => ⟨fun heq => hne (Act.trigger.inj heq).symm, nofun, nofun⟩
  have hself : ∀ ev', s.events[e]? = some ev' → ev' = ev := by
    intro ev' hev'
    rw [hev, Option.some.injEq] at hev'
    exact hev'.symm
  rw [State.trigger]
  split
  · split
    · next hclosure =>
      rcases events_maybeReenter s e Event.fire with hevents | hevents
      · refine hk.change hevents he hother fun ev' hev' hag => ?_
        rw [hself ev' hev'] at hag ⊢
        exact hag.fire hclosure rfl rfl
      · refine hk.change hevents he hother fun ev' hev' hag => ?_
        rw [hself ev' hev'] at hag ⊢
        exact hag.fire hclosure rfl rfl
    · next hclosure =>
      refine hk.change rfl he hother fun ev' hev' hag => ?_
      rw [hself ev' hev'] at hag ⊢
      have hclosed : ev.closure = false := Bool.eq_false_iff.mpr hclosure
      exact hag.trigger_again hclosed rfl hclosed
  · next hcan =>
    have hclosed : ev.closure = false := by
      cases hc : ev.closure with
      | false => rfl
      | true => exact absurd ((hi.ready e ev hev).canTrigger hc) hcan
    refine hk.change (f := id) (by rw [List.modify_id]) he hother fun ev' hev' hag => ?_
    rw [hself ev' hev'] at hag ⊢
    exact hag.trigger_again hclosed rfl hclosed

theorem Known.mkevent (hk : Known h s) : Known (h ++ [.mkevent]) s.mkevent := by
  have hmem : ∀ b, Act.mkevent ≠ b → b ∉ h → b ∉ h ++ [.mkevent] := by
    intro b hb hmem
    rw [List.mem_append, List.mem_singleton]
    exact fun hor => hor.elim hmem fun heq => hb heq.symm
  have hfresh : ∀ i, s.events.length ≤ i → .trigger i ∉ h ++ [.mkevent] ∧
      .cancel i ∉ h ++ [.mkevent] ∧ .finish i ∉ h ++ [.mkevent] := by
    intro i hi
    obtain ⟨htrigger, hcancel, hfinish⟩ := hk.fresh i hi
    exact ⟨hmem _ nofun htrigger, hmem _ nofun hcancel, hmem _ nofun hfinish⟩
  constructor
  · intro i ev hev
    rw [State.mkevent, List.getElem?_append] at hev
    split at hev
    · exact (hk.agrees i ev hev).concat nofun nofun nofun
    · next hi =>
      rw [List.mem_singleton.mp (List.mem_of_getElem? hev)]
      obtain ⟨htrigger, hcancel, hfinish⟩ := hfresh i (by omega)
      have hnot : ¬Triggered (h ++ [.mkevent]) i := by
        rintro ⟨h₁, h₂, heq, -⟩
        rw [heq] at htrigger
        exact htrigger (by simp)
      exact ⟨iff_of_false nofun hnot, iff_of_true rfl ⟨hnot, hcancel, hfinish⟩⟩
  · intro i hi
    rw [State.mkevent, List.length_append] at hi
    exact hfresh i (by omega)

theorem Known.step (hk : Known h s) (hi : Inv s) (hs : step s a = some s') :
    Known (h ++ [a]) s' := by
  cases a with
  | enter id =>
    obtain ⟨-, ⟨⟩⟩ := Option.ite_none_right_eq_some.mp hs
    exact hk.same rfl fun i => ⟨nofun, nofun, nofun⟩
  | mkevent =>
    obtain ⟨-, ⟨⟩⟩ := Option.ite_none_right_eq_some.mp hs
    exact hk.mkevent
  | leave =>
    obtain ⟨-, ⟨⟩⟩ := Option.ite_none_right_eq_some.mp hs
    refine hk.same ?_ fun i => ⟨nofun, nofun, nofun⟩
    rw [State.leave]
    split <;> rfl
  | jumpOut id =>
    obtain ⟨-, ⟨⟩⟩ := Option.ite_none_right_eq_some.mp hs
    exact hk.same rfl fun i => ⟨nofun, nofun, nofun⟩
  | trigger e =>
    obtain ⟨ev, hev, rfl⟩ := Option.map_eq_some_iff.mp hs
    exact hk.trigger hi hev
  | ret =>
    rw [Block.step] at hs
    split at hs
    · cases hs
    next e stack hstack =>
    cases hs
    obtain ⟨ev, hev, -⟩ := hi.stack e (by rw [hstack]; exact List.mem_cons_self)
    exact hk.change rfl (List.getElem?_eq_some_iff.mp hev).1
      (fun i _ => ⟨nofun, nofun, nofun⟩) fun ev _ hag => by
        have hag : Agrees (h ++ [.ret]) e ev := hag.concat nofun nofun nofun
        exact ⟨hag.performed, hag.closure⟩
  | cancel e =>
    obtain ⟨he, ⟨⟩⟩ := Option.ite_none_right_eq_some.mp hs
    refine hk.change rfl he
      (fun i hne => ⟨nofun, fun heq => hne (Act.cancel.inj heq).symm, nofun⟩)
      fun ev hev hag => hag.drop (Or.inl rfl) (quiet_cancel ev).performed ?_
    exact closure_clear (hi.ready e ev hev).cleared
  | finish e =>
    obtain ⟨he, ⟨⟩⟩ := Option.ite_none_right_eq_some.mp hs
    refine hk.change rfl he
      (fun i hne => ⟨nofun, nofun, fun heq => hne (Act.finish.inj heq).symm⟩)
      fun ev hev hag => hag.drop (Or.inr rfl) (quiet_clear ev).performed ?_
    exact closure_clear (hi.ready e ev hev).cleared
  | setReuse e b =>
    obtain ⟨he, ⟨⟩⟩ := Option.ite_none_right_eq_some.mp hs
    exact hk.change rfl he (fun i _ => ⟨nofun, nofun, nofun⟩) fun ev _ hag => by
      have hag : Agrees (h ++ [.setReuse e b]) e ev := hag.concat nofun nofun nofun
      exact ⟨hag.performed, hag.closure⟩

end Known

theorem inv_run {h : List Act} {s : State} (hrun : Run step Fits .init h s) :
    Inv s ∧ Known h s := by
  induction hrun with
  | nil => exact ⟨.init, ⟨nofun, fun _ _ => ⟨nofun, nofun, nofun⟩⟩⟩
  | snoc _ hfits hs ih =>
    obtain ⟨hinv, hknown⟩ := ih
    exact ⟨hinv.step hfits hs, hknown.step hinv hs⟩

/-- The closure goes on behind the blocks it has entered in their order, each time from the label
of the block. It has gone on behind the `k`th block exactly when control has left that block and
every event of the block was triggered. -/
def Waits (h : List Act) (s : State) : Prop :=
  s.continued <+: s.entered ∧
    ∀ k, 1 ≤ k → k ≤ s.entered.length →
      (k ≤ s.continued.length ↔
        ¬(s.control = .block ∧ k = s.entered.length) ∧
          ∀ (e : ℕ) (ev : Event), s.events[e]? = some ev → ev.block = k → Triggered h e)

/-- In every run in which fewer than `2 ^ 31 - 2` events wait when one is made. -/
theorem twait_block {h : List Act} {s : State} (hrun : Run step Fits .init h s) : Waits h s := by
  obtain ⟨hinv, hknown⟩ := inv_run hrun
  have hcont := hinv.continued
  have hlast : ∀ (e : ℕ) (ev : Event), s.events[e]? = some ev →
      ¬Triggered h e → ev.block = s.entered.length := by
    intro e ev hev hn
    refine hinv.current e ev hev ?_
    rw [← (hknown.agrees e ev hev).performed, Bool.not_eq_true] at hn
    rw [Event.counts, hn]
    rfl
  constructor
  · rw [hcont]
    split
    · exact List.prefix_rfl
    · exact List.dropLast_prefix _
  intro k hk1 hk
  by_cases hcode : s.control = .code
  · rw [hcont, if_pos hcode]
    have hleft : ¬(s.control = .block ∧ k = s.entered.length) := fun hb =>
      nomatch hcode.symm.trans hb.1
    refine iff_of_true hk ⟨hleft, fun e ev hev _ => ?_⟩
    have hcount := hinv.count
    rw [hinv.code hcode, hcode] at hcount
    have hnone : s.events.countP Event.counts = 0 := by
      have hbody : bodyCount .code = 0 := rfl
      omega
    have hclosed := List.countP_eq_zero.mp hnone ev (List.mem_of_getElem? hev)
    rw [Event.counts, Bool.not_eq_true, Bool.not_eq_false'] at hclosed
    exact (hknown.agrees e ev hev).performed.mp hclosed
  · rw [hcont, if_neg hcode, List.length_dropLast]
    constructor
    · intro hlt
      refine ⟨fun hb => by omega, fun e ev hev hblock => ?_⟩
      refine by_contra fun hn => ?_
      have := hlast e ev hev hn
      omega
    · rintro ⟨hleft, htriggered⟩
      by_contra hge
      have hkeq : k = s.entered.length := by omega
      have hblocked : s.control = .blocked := by
        match hc : s.control with
        | .code => exact absurd hc hcode
        | .block => exact absurd ⟨hc, hkeq⟩ hleft
        | .blocked => rfl
      have hcount := hinv.count
      have hpos := hinv.blocked hblocked
      have hbody : bodyCount s.control = 0 := by rw [hblocked]; rfl
      have hsome : 0 < s.events.countP Event.counts := by omega
      obtain ⟨ev, hmem, hcounts⟩ := List.countP_pos_iff.mp hsome
      obtain ⟨e, hev⟩ := List.getElem?_of_mem hmem
      have hblock := hinv.current e ev hev hcounts
      have hperformed := (hknown.agrees e ev hev).performed.mpr
        (htriggered e ev hev (hblock.trans hkeq.symm))
      rw [Event.counts, hperformed] at hcounts
      cases hcounts

/-- A block with two events: one is triggered in its body and once more, the other after the
closure has returned. -/
theorem twait_block_two :
    ∃ s, Run step Fits .init
        [.enter 1, .mkevent, .mkevent, .trigger 0, .trigger 0, .leave, .trigger 1] s ∧
      s.continued <+: [1] ∧ 1 ≤ s.continued.length := by
  have hfits : ∀ s a, a ≠ .mkevent → Fits s a := fun s a hne heq => absurd heq hne
  have hrun : Run step Fits .init
      [.enter 1, .mkevent, .mkevent, .trigger 0, .trigger 0, .leave, .trigger 1] _ :=
    .cons (hfits _ _ nofun) rfl <| .cons (fun _ => by decide) rfl <|
      .cons (fun _ => by decide) rfl <| .cons (hfits _ _ nofun) rfl <|
      .cons (hfits _ _ nofun) rfl <| .cons (hfits _ _ nofun) rfl <|
      .cons (hfits _ _ nofun) rfl <| .nil _
  have h := twait_block hrun
  refine ⟨_, hrun, h.1, (h.2 1 (Nat.le_refl 1) (by decide)).mpr ⟨by decide, ?_⟩⟩
  rintro e ev hev -
  match e with
  | 0 => exact ⟨[.enter 1, .mkevent, .mkevent], _, rfl, by decide, by decide⟩
  | 1 => exact ⟨[.enter 1, .mkevent, .mkevent, .trigger 0, .trigger 0, .leave], _, rfl,
      by decide, by decide⟩
  | e + 2 => cases hev

theorem run_mkevents {s : State} (hblock : s.control = .block) (n : ℕ) :
    Run step (fun _ _ => True) s (List.replicate n .mkevent)
      { s with
        count := s.count + BitVec.ofNat 32 n
        events := s.events ++ List.replicate n ⟨.new, true, s.entered.length, false⟩ } := by
  induction n with
  | zero =>
    have hnone : s.count + BitVec.ofNat 32 0 = s.count := BitVec.add_zero _
    simp only [List.replicate_zero, List.append_nil, hnone]
    exact .nil s
  | succ n ih =>
    rw [List.replicate_succ', List.replicate_succ', ← List.append_assoc, BitVec.ofNat_add,
      ← BitVec.add_assoc]
    exact ih.snoc trivial (if_pos hblock)

theorem leave_of_one {s : State} (h : s.count = 1) :
    s.leave = { s with
      count := 0
      control := .code
      continued := s.continued ++ s.entered.getLast?.toList } := by
  have hdec : blockDecCount s.count = (true, 0) := by
    rw [h]
    decide
  rw [State.leave, hdec]
  rfl

/-- Where the count comes round, the closure goes on with no event triggered. -/
theorem not_waits_of_wrap {n : ℕ} (hn : BitVec.ofNat 32 n = 0#32) (hpos : 0 < n) :
    ∃ s, Run step (fun _ _ => True) .init (.enter 1 :: List.replicate n .mkevent ++ [.leave]) s ∧
      ¬ Waits (.enter 1 :: List.replicate n .mkevent ++ [.leave]) s := by
  have hrun := Run.cons (s := State.init) (e := .enter 1) trivial rfl
    (run_mkevents (s := State.init.enter 1) rfl n)
  rw [hn, BitVec.add_zero] at hrun
  have hleave : ∀ {s : State}, s.control = .block → step s .leave = some s.leave :=
    fun hblock => if_pos hblock
  refine ⟨_, hrun.snoc trivial (hleave rfl), fun hwaits => ?_⟩
  rw [leave_of_one rfl] at hwaits
  obtain ⟨k, rfl⟩ : ∃ k, n = k + 1 := ⟨n - 1, by omega⟩
  obtain ⟨-, htriggered⟩ := (hwaits.2 1 (Nat.le_refl 1) (Nat.le_refl 1)).mp (Nat.le_refl 1)
  obtain ⟨h₁, h₂, heq, -, -⟩ := htriggered 0 ⟨.new, true, 1, false⟩ rfl rfl
  have hmem : Act.trigger 0 ∈ .enter 1 :: List.replicate (k + 1) .mkevent ++ [.leave] := by
    rw [heq]
    exact List.mem_append_right _ List.mem_cons_self
  simp at hmem

/-- With `2 ^ 32` events the count is that of a block without any. -/
theorem twait_block_wraps : ¬ ∀ (h : List Act) (s : State),
    Run step (fun _ _ => True) .init h s → Waits h s := by
  intro hall
  obtain ⟨s, hrun, hnot⟩ := not_waits_of_wrap (n := 2 ^ 32) (by decide) (by decide)
  exact hnot (hall _ _ hrun)

end Sfslite.Libtame.Block
