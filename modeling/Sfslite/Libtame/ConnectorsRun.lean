import Sfslite.Libtame.ConnectorsEnd

/-!
Every order of what can happen to a connector. At its first wait its rendezvous is as it was made,
and from there each source can be followed to the end.
-/

namespace Sfslite.Libtame.Connector

open Sfslite.Lib (Run)
open Rendezvous

section First

variable {ν : Type}

/-- What a connector that has just come to its end shows. -/
def Ends (code : Code) (a : Act ν) : Prop :=
  (((start code).bind fun s => step s a).map fun s => (ended s, s.ocp, s.slots, s.triggered)) =
    some (true, (Seen.add code ⟨none, none, false⟩ a).ocp,
      (Seen.add code ⟨none, none, false⟩ a).slots, 1)

theorem cnc_inner (cobj timeout : Bool) (v : ν) : Ends (.cnc cobj timeout) (.inner v) := by
  cases cobj <;> cases timeout <;> rfl

theorem cnc_discard (cobj timeout : Bool) : Ends (ν := ν) (.cnc cobj timeout) .discard := by
  cases cobj <;> cases timeout <;> rfl

theorem cnc_timer (cobj : Bool) : Ends (ν := ν) (.cnc cobj true) .timer := by
  cases cobj <;> rfl

theorem cnc_cancelOuter (timeout : Bool) : Ends (ν := ν) (.cnc true timeout) .cancelOuter := by
  cases timeout <;> rfl

theorem cnc_ignores (timeout : Bool) :
    ((start (ν := ν) (.cnc false timeout)).bind fun s => step s .cancelOuter) =
      start (.cnc false timeout) := by
  cases timeout <;> rfl

theorem kto_inner (v : ν) : Ends .kto (.inner v) := rfl

theorem start_seen {code : Code} {s : Conn ν} (hs : start code = some s) :
    s.ocp = none ∧ s.slots = none ∧ s.triggered = 0 ∧ s.rv.stack = [] ∧ step s .ret = none ∧
      s.timer.isSome = decide (Outcome.timedout ∈ code.events) := by
  have hrun : (start code).map (fun s : Conn ν => (s.ocp, s.slots, s.triggered, s.rv.stack,
      (step s .ret).isNone, s.timer.isSome)) =
      some (none, none, 0, [], true, decide (Outcome.timedout ∈ code.events)) := by
    cases code with
    | kto => rfl
    | cnc cobj timeout => cases cobj <;> cases timeout <;> rfl
  rw [hs, Option.map_some, Option.some.injEq] at hrun
  simp only [Prod.mk.injEq, Option.isNone_iff_eq_none] at hrun
  exact hrun

end First

section Runs

variable {ν : Type} {code : Code} {s s' : Conn ν} {t : Seen ν}

/-- The wrapped event was triggered, and no source can move anything any more. -/
structure Finished (code : Code) (s : Conn ν) (t : Seen ν) : Prop where
  delivery : Delivery s.rv
  isOver : Over s
  told : t.ocp.isSome
  ocp : s.ocp = t.ocp
  slots : s.slots = t.slots
  triggered : s.triggered = 1
  settled : code = .kto → (t.dead || t.slots.isSome) = true

theorem Seen.add_settled (hsome : t.ocp.isSome)
    (hsettled : code = .kto → (t.dead || t.slots.isSome) = true) (a : Act ν) :
    (t.add code a).ocp = t.ocp ∧ (t.add code a).slots = t.slots ∧
      (code = .kto → ((t.add code a).dead || (t.add code a).slots.isSome) = true) := by
  obtain ⟨o, ho⟩ := Option.isSome_iff_exists.mp hsome
  cases code with
  | cnc cobj timeout =>
    simp only [Seen.add, hsome, if_true, true_and]
    intro hk
    cases hk
  | kto =>
    have hset := hsettled rfl
    cases a with
    | inner v => simp [Seen.add, hset]
    | timer => simp [Seen.add, hset, ho]
    | discard => simp [Seen.add]
    | cancelOuter => simp [Seen.add, hset]
    | ret => simp [Seen.add, hset]

variable {a : Act ν}

theorem Finished.step (h : Finished code s t) (hs : step s a = some s') :
    Finished code s' (t.add code a) := by
  have htimer : a ≠ .timer := by
    rintro rfl
    simp only [Connector.step, h.isOver.timer] at hs
    cases hs
  have hret : a = .ret → s.rv.stack ≠ [] := by
    rintro rfl hnil
    rw [ret_none (by rw [h.isOver.phase]; decide) hnil] at hs
    cases hs
  obtain ⟨s'', hs'', hover, hmoved⟩ := h.isOver.step h.delivery htimer hret
  cases hs''.symm.trans hs
  obtain ⟨hocp, hslots, hsettled⟩ := t.add_settled h.told h.settled a
  exact ⟨step_delivery h.delivery hs, hover, by rw [hocp]; exact h.told,
    hmoved.ocp.trans (h.ocp.trans hocp.symm), hmoved.slots.trans (h.slots.trans hslots.symm),
    hmoved.triggered.trans h.triggered, hsettled⟩

theorem Ends.finished (h : Ends code a) (hs : start code = some s) (hstep : step s a = some s')
    (hsome : (Seen.add code ⟨none, none, false⟩ a).ocp.isSome)
    (hsettled : code = .kto → ((Seen.add code ⟨none, none, false⟩ a).dead ||
      (Seen.add code ⟨none, none, false⟩ a).slots.isSome) = true) :
    Finished code s' (Seen.add code ⟨none, none, false⟩ a) := by
  rw [Ends, hs, Option.bind_some, hstep, Option.map_some, Option.some.injEq] at h
  simp only [Prod.mk.injEq] at h
  obtain ⟨hended, hocp, hslots, htriggered⟩ := h
  exact ⟨step_delivery (start_delivery hs) hstep, over_of_ended hended, hsome, hocp, hslots,
    htriggered, hsettled⟩

theorem Ends.isSome (h : Ends code a) (hs : start code = some s) : ∃ s', step s a = some s' := by
  rw [Ends, hs, Option.bind_some] at h
  obtain ⟨s', hs', -⟩ := Option.map_eq_some_iff.mp h
  exact ⟨s', hs'⟩

/-- `cnc` waits as it was made, or it has come to its end. -/
def CncInv (cobj timeout : Bool) (s : Conn ν) (t : Seen ν) : Prop :=
  (start (.cnc cobj timeout) = some s ∧ t = ⟨none, none, false⟩) ∨
    Finished (.cnc cobj timeout) s t

variable {cobj timeout : Bool}

theorem CncInv.step (h : CncInv cobj timeout s t)
    (hs : step s a = some s') : CncInv cobj timeout s' (t.add (.cnc cobj timeout) a) := by
  rcases h with ⟨hstart, rfl⟩ | h
  · have hk : Code.cnc cobj timeout = .kto → ∀ b : Bool, b = true := by
      intro hk
      cases hk
    cases a with
    | inner v =>
      exact .inr ((cnc_inner cobj timeout v).finished hstart hs rfl fun he => hk he _)
    | discard =>
      exact .inr ((cnc_discard cobj timeout).finished hstart hs rfl fun he => hk he _)
    | timer =>
      cases timeout with
      | true => exact .inr ((cnc_timer cobj).finished hstart hs rfl fun he => hk he _)
      | false =>
        obtain ⟨-, -, -, -, -, htimer⟩ := start_seen hstart
        cases htm : s.timer with
        | none =>
          simp only [Connector.step, htm] at hs
          cases hs
        | some e =>
          rw [htm] at htimer
          cases cobj <;> cases htimer
    | cancelOuter =>
      cases cobj with
      | true =>
        exact .inr ((cnc_cancelOuter timeout).finished hstart hs rfl fun he => hk he _)
      | false =>
        have hsame := cnc_ignores (ν := ν) timeout
        rw [hstart, Option.bind_some, hs] at hsame
        cases hsame
        exact .inl ⟨hstart, rfl⟩
    | ret =>
      have hnone := (start_seen hstart).2.2.2.2.1
      rw [hnone] at hs
      cases hs
  · exact .inr (h.step hs)

def Ready (rv : State Outcome) (e : ℕ) : Prop :=
  ∃ ev, rv.lookup e = some ev ∧ rv.live ev = true ∧ ev.value = .succ ∧ ev.base.reuse = false

theorem fire_spent {e : ℕ} (hspent : Spent s.rv e) (he : (s.rv.lookup e).isSome) :
    s.fire e = some s := by
  obtain ⟨ev, hev⟩ := Option.isSome_iff_exists.mp he
  have hstep : Rendezvous.step s.rv (.trigger e) = some s.rv := by
    simp only [Rendezvous.step, hev, Option.bind_some, State.trigger, hspent.canTrigger hev,
      Bool.false_eq_true, if_false]
  simp only [Conn.fire, Conn.act, hstep, Option.map_some, Option.bind_eq_bind, Option.bind_some,
    if_true]

theorem trigger_pending {rv : State Outcome} {e : ℕ} (hd : Delivery rv)
    (hjoin : rv.joinMethod = .none) (hready : Ready rv e) :
    ∃ rv', Rendezvous.step rv (.trigger e) = some rv' ∧ rv'.joinMethod = .none ∧
      rv'.reentered = rv.reentered ∧ rv'.stack = rv.stack ∧ rv'.dead = rv.dead ∧
      rv'.pending = rv.pending ++ [.succ] ∧ Spent rv' e ∧ SameFreed rv rv' := by
  obtain ⟨ev, hev, hlive, hvalue, hreuse⟩ := hready
  obtain ⟨hmem, hfreed⟩ := lookup_eq_some_iff.mp hev
  have hnone : (rv.modifyEvent e fun ev => { ev with base.performing := true }).joinMethod ≠
      .events := fun he => by cases hjoin.symm.trans he
  have htrigger : rv.trigger e ev = some (((rv.modifyEvent e fun ev =>
      { ev with base.performing := true }).push e .succ false).endTrigger e false) := by
    rw [trigger_live (hd.actions e ev hmem) hfreed hlive, hvalue, hreuse]
    exact join_queue _ _ hnone
  have hstep : Rendezvous.step rv (.trigger e) = rv.trigger e ev := by
    simp only [Rendezvous.step, hev, Option.bind_some]
  refine ⟨_, hstep.trans htrigger, ?_, ?_, ?_, rfl, ?_,
    hd.spent_trigger hev hlive hreuse htrigger, ?_⟩
  · exact (push_joinMethod _ _).trans hjoin
  · exact push_reentered _ _
  · exact push_stack _ _
  · exact push_pending _ _
  · have hmark : SameFreed rv (rv.modifyEvent e fun ev =>
        { ev with base.performing := true }) := sameFreed_modify rfl fun _ => rfl
    refine hmark.trans (SameFreed.trans ?_ (sameFreed_endTrigger _))
    rw [SameFreed, push_events]

theorem trigger_late {rv : State Outcome} {e : ℕ} (hd : Delivery rv)
    (hjoin : rv.joinMethod = .events) (hready : Ready rv e) :
    ∃ rv', Rendezvous.step rv (.trigger e) = some rv' ∧ rv'.joinMethod = .none ∧
      rv'.reentered ≠ rv.reentered ∧ rv'.stack = .perform e false :: rv.stack ∧
      rv'.consumed = rv.consumed ++ [.succ] ∧ Spent rv' e ∧ SameFreed rv rv' := by
  obtain ⟨ev, hev, hlive, hvalue, hreuse⟩ := hready
  obtain ⟨hmem, hfreed⟩ := lookup_eq_some_iff.mp hev
  obtain ⟨hpending, w, hcls⟩ := hd.blocked hjoin
  let t := rv.modifyEvent e fun ev => { ev with base.performing := true }
  have htrigger := trigger_live (e := e) (hd.actions e ev hmem) hfreed hlive
  rw [hvalue, hreuse, join_reenter (s := t) (w := w) _ _ hjoin hpending hcls] at htrigger
  have hstep : Rendezvous.step rv (.trigger e) = rv.trigger e ev := by
    simp only [Rendezvous.step, hev, Option.bind_some]
  refine ⟨_, hstep.trans htrigger, rfl, ?_, rfl, rfl,
    hd.spent_trigger hev hlive hreuse htrigger, ?_⟩
  · exact fun heq => absurd (List.append_right_eq_self.mp heq) (List.cons_ne_nil _ _)
  · exact sameFreed_modify (push_events _ _) fun _ => rfl

/-- The timer came first. The connector triggers the wrapped event, or waits for the inner one. -/
structure Timedout (s : Conn ν) (t : Seen ν) : Prop where
  delivery : Delivery s.rv
  code : s.code = .kto
  timer : s.timer = none
  outer : s.outer = none
  discarded : s.discarded = none
  held : (s.rv.lookup s.out).isSome
  told : t.ocp = some .timedout
  ocp : s.ocp = some .timedout
  slots : s.slots = t.slots
  triggered : s.triggered = 1
  out : if t.dead || t.slots.isSome then Spent s.rv s.out else Ready s.rv s.out
  phase : (s.phase = .triggering ∧ s.rv.joinMethod = .none ∧ s.rv.dead = false ∧
      (∃ e, s.rv.stack = [.perform e false] ∧ e ≠ s.out) ∧
      s.rv.pending = t.slots.toList.map fun _ => .succ) ∨
    (s.phase = .late ∧ s.rv.joinMethod = .events ∧ s.rv.stack = [] ∧ t.slots = none)

theorem kto_timer (hs : start .kto = some s) (hstep : step s .timer = some s') :
    Timedout s' ⟨some .timedout, none, false⟩ := by
  have hd := step_delivery (start_delivery hs) hstep
  cases hs
  cases hstep
  exact ⟨hd, rfl, rfl, rfl, rfl, rfl, rfl, rfl, rfl, rfl, ⟨_, rfl, rfl, rfl, rfl⟩,
    .inl ⟨rfl, rfl, rfl, ⟨0, rfl, Nat.zero_ne_one⟩, rfl⟩⟩

theorem Timedout.inner (h : Timedout s t) (v : ν) :
    ∃ s', step s (.inner v) = some s' ∧
      (Timedout s' (t.add .kto (.inner v)) ∨ Finished .kto s' (t.add .kto (.inner v))) := by
  by_cases hgone : (t.dead || t.slots.isSome) = true
  · have hspent : Spent s.rv s.out := by
      have hout := h.out
      rwa [if_pos hgone] at hout
    have hadd : t.add .kto (.inner v) = t := by simp only [Seen.add, hgone, if_true]
    obtain ⟨ev, hev⟩ := Option.isSome_iff_exists.mp h.held
    refine ⟨s, ?_, .inl (hadd.symm ▸ h)⟩
    simp only [Connector.step, hev, Option.bind_eq_bind, Option.bind_some, hspent.canTrigger hev,
      Bool.false_eq_true, if_false, fire_spent hspent h.held]
  · have hready : Ready s.rv s.out := by
      have hout := h.out
      rwa [if_neg hgone] at hout
    rw [Bool.or_eq_true, not_or] at hgone
    have hnone : t.slots = none := by simpa using hgone.2
    have hadd : t.add .kto (.inner v) = { t with ocp := some .timedout, slots := some v } := by
      simp [Seen.add, hgone, hnone, h.told]
    have hcan : ∀ ev, s.rv.lookup s.out = some ev → ev.base.canTrigger = true := by
      intro ev hev
      obtain ⟨ev', hev', hlive, -⟩ := hready
      cases hev.symm.trans hev'
      rw [ev.base.canTrigger_eq]
      exact ((Bool.and_eq_true _ _).mp hlive).1
    obtain ⟨ev, hev⟩ := Option.isSome_iff_exists.mp h.held
    have hassign : step s (.inner v) = ({ s with slots := some v } : Conn ν).fire s.out := by
      simp only [Connector.step, hev, Option.bind_eq_bind, Option.bind_some, hcan ev hev, if_true]
    rw [hassign, hadd]
    rcases h.phase with ⟨hphase, hjoin, hlive, ⟨e, he, hne⟩, hpending⟩ | ⟨hphase, hjoin, he, -⟩
    · obtain ⟨rv, hrv, hjoin', hreentered, hstack, hdead, hpending', hspent, hfreed⟩ :=
        trigger_pending h.delivery hjoin hready
      have hfire : ({ s with slots := some v } : Conn ν).fire s.out =
          some { s with slots := some v, rv := rv } := by
        simp only [Conn.fire, Conn.act, hrv, Option.map_some, Option.bind_eq_bind,
          Option.bind_some, hreentered, if_true]
      refine ⟨_, hfire, .inl ⟨(h.delivery.step hrv).1.delivery, h.code, h.timer, h.outer,
        h.discarded, (hfreed.lookup _).trans h.held, rfl, h.ocp, rfl, h.triggered, ?_, .inl ⟨hphase,
        hjoin', hdead.trans hlive, ⟨e, hstack.trans he, hne⟩, ?_⟩⟩⟩
      · simpa using hspent
      · rw [hpending', hpending, hnone]
        rfl
    · obtain ⟨rv, hrv, hjoin', hreentered, hstack, hconsumed, hspent, hfreed⟩ :=
        trigger_late h.delivery hjoin hready
      have hfire : ({ s with slots := some v } : Conn ν).fire s.out =
          some { s with slots := some v, rv := rv, phase := .done } := by
        simp only [Conn.fire, Conn.act, hrv, Option.map_some, Option.bind_eq_bind,
          Option.bind_some, if_neg hreentered, hconsumed, List.getLast?_concat, Conn.resume,
          h.code, hphase, if_true]
      refine ⟨_, hfire, .inr ⟨(h.delivery.step hrv).1.delivery, ⟨rfl, h.timer, hjoin', hspent,
        ⟨(hfreed.lookup _).trans h.held, ?_, ?_⟩, ?_⟩, rfl, h.ocp, rfl, h.triggered, ?_⟩⟩
      · intro e hout
        cases h.outer.symm.trans hout
      · intro e hdisc
        cases h.discarded.symm.trans hdisc
      · intro f hf
        rw [hstack, he, List.mem_singleton] at hf
        exact ⟨_, _, hf⟩
      · intro _
        exact Bool.or_true _

theorem Timedout.discard (h : Timedout s t) :
    ∃ s', step s .discard = some s' ∧ Timedout s' (t.add .kto .discard) := by
  obtain ⟨rv, hrv, hsame, hspent, hstack, hdead, hfreed⟩ := cancelEvent_quiet h.held
  have hact : s.act (.cancelEvent s.out) = some { s with rv := rv } := by
    simp only [Conn.act, hrv, Option.map_some]
  refine ⟨{ s with rv := rv }, ?_, { h with
    delivery := act_delivery h.delivery hact
    held := (hfreed.lookup _).trans h.held
    out := ?_
    phase := ?_ }⟩
  · simp only [Connector.step, hact, Option.bind_eq_bind, Option.bind_some, h.discarded,
      Conn.notify]
  · simpa [Seen.add] using hspent
  · rcases h.phase with ⟨hphase, hjoin, hlive, ⟨e, he, hne⟩, hpending⟩ | ⟨hphase, hjoin, he, hslots⟩
    · exact .inl ⟨hphase, hsame.joinMethod.trans hjoin, hdead.trans hlive,
        ⟨e, hstack.trans he, hne⟩, hsame.pending.trans hpending⟩
    · exact .inr ⟨hphase, hsame.joinMethod.trans hjoin, hstack.trans he, hslots⟩

/-- The trigger of the wrapped event returns to the connector, which takes what the inner event
has brought meanwhile, or waits for it. -/
theorem Timedout.ret (h : Timedout s t) (hstack : s.rv.stack ≠ []) :
    ∃ s', step s .ret = some s' ∧
      (Timedout s' (t.add .kto .ret) ∨ Finished .kto s' (t.add .kto .ret)) := by
  have hadd : t.add .kto .ret = t := rfl
  rw [hadd]
  rcases h.phase with ⟨hphase, hjoin, hlive, ⟨e, he, hne⟩, hpending⟩ | ⟨-, -, hnil, -⟩
  · cases hslots : t.slots with
    | none =>
      rw [hslots] at hpending
      let rv₁ : State Outcome := { s.rv with
        joinMethod := .events, joinCls := some s.rv.waits, waits := s.rv.waits + 1 }
      let rv₂ : State Outcome := { rv₁ with stack := [] }.endTrigger e false
      have hwait : Rendezvous.step s.rv .twait = some rv₁ := by
        simp only [Rendezvous.step, hlive, Bool.false_eq_true, if_false, State.twait, hpending,
          hjoin, Option.toList_none, List.map_nil, if_true, rv₁]
      have hend : Rendezvous.step rv₁ .ret = some rv₂ := by
        simp only [Rendezvous.step, rv₁, he, rv₂]
      have hd₁ := (h.delivery.step hwait).1.delivery
      have hagain : s.waitAgain = some { s with rv := rv₁, phase := .late } := by
        simp only [Conn.waitAgain, if_pos hphase, Conn.act, hwait, Option.map_some,
          Option.bind_eq_bind, Option.bind_some, rv₁, if_true]
      refine ⟨_, ret_eq hagain he, .inl ⟨(hd₁.step hend).1.delivery, h.code, h.timer, ?_, ?_, ?_, h.told,
        h.ocp, h.slots, h.triggered, ?_, .inr ⟨rfl, rfl, rfl, hslots⟩⟩⟩
      · simp only [Conn.dropNotifier, h.outer, ite_self]
      · simp only [Conn.dropNotifier, h.discarded, ite_self]
      · exact ((@sameFreed_endTrigger { rv₁ with stack := [] } _ false).lookup _).trans h.held
      · have hout := h.out
        split_ifs at hout ⊢ with hgone
        · have hspent₁ := h.delivery.spent_step hout (keepsReuse_of_ne (by simp)) hwait
          exact hd₁.spent_step hspent₁ (keepsReuse_of_ne (by simp)) hend
        · obtain ⟨ev, hev, hev', hvalue, hreuse⟩ := hout
          obtain ⟨hmem, hfreed⟩ := lookup_eq_some_iff.mp hev
          refine ⟨ev, lookup_eq_some_iff.mpr ⟨?_, hfreed⟩, hev', hvalue, hreuse⟩
          exact (getElem?_modifyEvent_ne hne).trans hmem
    | some v =>
      rw [hslots] at hpending
      let rv₁ : State Outcome := { s.rv with
        pending := [], consumed := s.rv.consumed ++ [.succ], joinMethod := .none }
      let rv₂ : State Outcome := { rv₁ with stack := [] }.endTrigger e false
      have hcls : (if s.rv.joinMethod = .events then none else s.rv.joinCls) = s.rv.joinCls :=
        if_neg (by rw [hjoin]; decide)
      have hwait : Rendezvous.step s.rv .twait = some rv₁ := by
        simp only [Rendezvous.step, hlive, Bool.false_eq_true, if_false, State.twait, hpending,
          Option.toList_some, List.map_cons, List.map_nil, hcls, rv₁]
      have hend : Rendezvous.step rv₁ .ret = some rv₂ := by
        simp only [Rendezvous.step, rv₁, he, rv₂]
      have hd₁ := (h.delivery.step hwait).1.delivery
      have hmore : ¬ s.rv.consumed ++ [Outcome.succ] = s.rv.consumed :=
        fun heq => absurd (List.append_right_eq_self.mp heq) (List.cons_ne_nil _ _)
      have hagain : s.waitAgain = some { s with rv := rv₁, phase := .done } := by
        simp only [Conn.waitAgain, if_pos hphase, Conn.act, hwait, Option.map_some,
          Option.bind_eq_bind, Option.bind_some, rv₁, if_neg hmore, List.getLast?_concat,
          Conn.resume, h.code, if_true]
      have hspent : Spent s.rv s.out := by
        have hout := h.out
        rwa [hslots, Option.isSome_some, Bool.or_true, if_pos rfl] at hout
      have hspent₁ := h.delivery.spent_step hspent (keepsReuse_of_ne (by simp)) hwait
      refine ⟨_, ret_eq hagain he, .inr ⟨(hd₁.step hend).1.delivery, ⟨rfl, h.timer, rfl,
        hd₁.spent_step hspent₁ (keepsReuse_of_ne (by simp)) hend,
        Held.dropNotifier ⟨?_, ?_, ?_⟩ e, ?_⟩, ?_, h.ocp.trans h.told.symm, h.slots, h.triggered,
        ?_⟩⟩
      · exact ((@sameFreed_endTrigger { rv₁ with stack := [] } _ false).lookup _).trans h.held
      · intro i hi
        cases h.outer.symm.trans hi
      · intro i hi
        cases h.discarded.symm.trans hi
      · intro f hf
        cases hf
      · rw [h.told]
        rfl
      · intro _
        rw [hslots]
        exact Bool.or_true _
  · exact absurd hnil hstack

theorem Timedout.step (h : Timedout s t) (hs : step s a = some s') :
    Timedout s' (t.add .kto a) ∨ Finished .kto s' (t.add .kto a) := by
  cases a with
  | inner v =>
    obtain ⟨s'', hs'', hinv⟩ := h.inner v
    cases hs''.symm.trans hs
    exact hinv
  | timer =>
    simp only [Connector.step, h.timer] at hs
    cases hs
  | cancelOuter =>
    simp only [Connector.step, h.outer, Conn.notify] at hs
    cases hs
    exact .inl h
  | discard =>
    obtain ⟨s'', hs'', hinv⟩ := h.discard
    cases hs''.symm.trans hs
    exact .inl hinv
  | ret =>
    by_cases hstack : s.rv.stack = []
    · rcases h.phase with ⟨-, -, -, ⟨e, he, -⟩, -⟩ | ⟨hphase, -, -, -⟩
      · cases hstack.symm.trans he
      · rw [ret_none (by rw [hphase]; decide) hstack] at hs
        cases hs
    · obtain ⟨s'', hs'', hinv⟩ := h.ret hstack
      cases hs''.symm.trans hs
      exact hinv

/-- The timeout connector whose inner event is cancelled before the timer comes. -/
def startDead : Option (Conn ν) := (start .kto).bind fun s => step s .discard

theorem startDead_seen (hs : startDead = some s) :
    s.ocp = none ∧ s.slots = none ∧ s.triggered = 0 ∧ s.rv.stack = [] ∧ step s .ret = none ∧
      s.timer.isSome = true ∧ (step s .timer).isSome = true ∧ step s .cancelOuter = some s ∧
      step s .discard = some s ∧ ∀ v, step s (.inner v) = some s := by
  cases hs
  exact ⟨rfl, rfl, rfl, rfl, rfl, rfl, rfl, rfl, rfl, fun _ => rfl⟩

theorem startDead_timer (hs : startDead = some s) (hstep : step s .timer = some s') :
    Timedout s' ⟨some .timedout, none, true⟩ := by
  obtain ⟨s₀, hs₀, hdiscard⟩ := Option.bind_eq_some_iff.mp hs
  have hd := step_delivery (step_delivery (start_delivery hs₀) hdiscard) hstep
  cases hs
  cases hstep
  exact ⟨hd, rfl, rfl, rfl, rfl, rfl, rfl, rfl, rfl, rfl, ⟨_, rfl, .inr (.inl rfl)⟩,
    .inl ⟨rfl, rfl, rfl, ⟨0, rfl, Nat.zero_ne_one⟩, rfl⟩⟩

/-- `__kto` waits, with an inner event that can be triggered or not, or the timer came first, or
it has come to its end. -/
def KtoInv (s : Conn ν) (t : Seen ν) : Prop :=
  (start .kto = some s ∧ t = ⟨none, none, false⟩) ∨ (startDead = some s ∧ t = ⟨none, none, true⟩) ∨
    Timedout s t ∨ Finished .kto s t

theorem KtoInv.step (h : KtoInv s t) (hs : step s a = some s') : KtoInv s' (t.add .kto a) := by
  rcases h with ⟨hstart, rfl⟩ | ⟨hdead, rfl⟩ | h | h
  · cases a with
    | inner v =>
      exact .inr (.inr (.inr ((kto_inner v).finished hstart hs rfl fun _ => rfl)))
    | timer => exact .inr (.inr (.inl (kto_timer hstart hs)))
    | cancelOuter =>
      have hsame : ((start .kto).bind fun s : Conn ν => Connector.step s .cancelOuter) =
          start .kto := rfl
      rw [hstart, Option.bind_some, hs] at hsame
      cases hsame
      exact .inl ⟨hstart, rfl⟩
    | discard =>
      refine .inr (.inl ⟨?_, rfl⟩)
      rw [startDead, hstart, Option.bind_some, hs]
    | ret =>
      rw [(start_seen hstart).2.2.2.2.1] at hs
      cases hs
  · obtain ⟨-, -, -, -, hret, -, -, hcancel, hdiscard, hinner⟩ := startDead_seen hdead
    cases a with
    | inner v =>
      cases (hinner v).symm.trans hs
      exact .inr (.inl ⟨hdead, rfl⟩)
    | timer => exact .inr (.inr (.inl (startDead_timer hdead hs)))
    | cancelOuter =>
      cases hcancel.symm.trans hs
      exact .inr (.inl ⟨hdead, rfl⟩)
    | discard =>
      cases hdiscard.symm.trans hs
      exact .inr (.inl ⟨hdead, rfl⟩)
    | ret =>
      cases hret.symm.trans hs
  · exact (h.step hs).elim (fun h => .inr (.inr (.inl h))) fun h => .inr (.inr (.inr h))
  · exact .inr (.inr (.inr (h.step hs)))

/-- Everything that can happen goes through: the timer if it is set, a trigger that returns if
there is one, and the others always. -/
def Goes (s : Conn ν) : Prop :=
  ∀ a, (step s a).isSome ↔ (a = .timer → s.timer.isSome) ∧ (a = .ret → s.rv.stack ≠ [])

theorem goes_of_no_timer (htimer : s.timer = none) (hret : s.rv.stack = [] → step s .ret = none)
    (hgo : ∀ a, a ≠ .timer → (a = .ret → s.rv.stack ≠ []) → ∃ s', step s a = some s') : Goes s := by
  intro a
  constructor
  · intro hsome
    refine ⟨?_, ?_⟩
    · rintro rfl
      simp only [Connector.step, htimer] at hsome
      cases hsome
    · rintro rfl hnil
      rw [hret hnil] at hsome
      cases hsome
  · rintro ⟨ht, hstack⟩
    have hne : a ≠ .timer := by
      rintro rfl
      have hset := ht rfl
      rw [htimer] at hset
      cases hset
    obtain ⟨s', hs'⟩ := hgo a hne hstack
    rw [hs']
    rfl

theorem Finished.goes (h : Finished code s t) : Goes s := by
  refine goes_of_no_timer h.isOver.timer (ret_none (by rw [h.isOver.phase]; decide)) ?_
  intro a hne hstack
  obtain ⟨s', hs', -⟩ := h.isOver.step h.delivery hne hstack
  exact ⟨s', hs'⟩

theorem Timedout.goes (h : Timedout s t) : Goes s := by
  refine goes_of_no_timer h.timer ?_ ?_
  · intro hnil
    rcases h.phase with ⟨-, -, -, ⟨e, he, -⟩, -⟩ | ⟨hphase, -, -, -⟩
    · cases hnil.symm.trans he
    · exact ret_none (by rw [hphase]; decide) hnil
  · intro a hne hstack
    cases a with
    | inner v =>
      obtain ⟨s', hs', -⟩ := h.inner v
      exact ⟨s', hs'⟩
    | timer => exact absurd rfl hne
    | cancelOuter => exact ⟨s, by simp only [Connector.step, h.outer, Conn.notify]⟩
    | discard =>
      obtain ⟨s', hs', -⟩ := h.discard
      exact ⟨s', hs'⟩
    | ret =>
      obtain ⟨s', hs', -⟩ := h.ret (hstack rfl)
      exact ⟨s', hs'⟩

theorem goes_start (hs : start code = some s)
    (hgo : ∀ a, a ≠ .ret → (a = .timer → s.timer.isSome) → ∃ s', step s a = some s') : Goes s := by
  obtain ⟨-, -, -, hstack, hret, -⟩ := start_seen hs
  intro a
  constructor
  · intro hsome
    refine ⟨?_, ?_⟩
    · rintro rfl
      cases htimer : s.timer with
      | none =>
        simp only [Connector.step, htimer] at hsome
        cases hsome
      | some e => rfl
    · rintro rfl
      rw [hret] at hsome
      cases hsome
  · rintro ⟨ht, hne⟩
    have hnot : a ≠ .ret := fun he => hne he hstack
    obtain ⟨s', hs'⟩ := hgo a hnot ht
    rw [hs']
    rfl

theorem goes_cnc (hs : start (.cnc cobj timeout) = some s) : Goes s := by
  refine goes_start hs ?_
  intro a hret ht
  cases a with
  | inner v => exact (cnc_inner cobj timeout v).isSome hs
  | discard => exact (cnc_discard cobj timeout).isSome hs
  | timer =>
    cases timeout with
    | true => exact (cnc_timer cobj).isSome hs
    | false =>
      have hset := ht rfl
      rw [(start_seen hs).2.2.2.2.2] at hset
      cases cobj <;> cases hset
  | cancelOuter =>
    cases cobj with
    | true => exact (cnc_cancelOuter timeout).isSome hs
    | false =>
      have hsame := cnc_ignores (ν := ν) timeout
      rw [hs, Option.bind_some] at hsame
      exact ⟨s, hsame⟩
  | ret => exact absurd rfl hret

theorem goes_kto (hs : start .kto = some s) : Goes s := by
  refine goes_start hs ?_
  intro a hret ht
  cases hs
  cases a with
  | ret => exact absurd rfl hret
  | inner v => exact ⟨_, rfl⟩
  | timer => exact ⟨_, rfl⟩
  | cancelOuter => exact ⟨_, rfl⟩
  | discard => exact ⟨_, rfl⟩

theorem goes_startDead (hs : startDead = some s) : Goes s := by
  obtain ⟨-, -, -, hstack, hret, htimer, hfires, hcancel, hdiscard, hinner⟩ := startDead_seen hs
  intro a
  cases a with
  | inner v => simp [hinner v]
  | timer => simp [htimer, hfires]
  | cancelOuter => simp [hcancel]
  | discard => simp [hdiscard]
  | ret => simp [hret, hstack]

/-- What a connector shows after every run. -/
structure Shows (code : Code) (s : Conn ν) (t : Seen ν) : Prop where
  ocp : s.ocp = t.ocp
  slots : s.slots = t.slots
  triggered : s.triggered = if s.ocp.isSome then 1 else 0
  timer : s.timer.isSome = (decide (.timedout ∈ code.events) && s.ocp.isNone)
  goes : Goes s

theorem shows_start (hs : start code = some s) (hgoes : Goes s) :
    Shows code s ⟨none, none, false⟩ := by
  obtain ⟨hocp, hslots, htriggered, -, -, htimer⟩ := start_seen hs
  exact ⟨hocp, hslots, by rw [hocp, htriggered]; rfl,
    by rw [hocp, htimer, Option.isNone_none, Bool.and_true], hgoes⟩

theorem Finished.shows (h : Finished code s t) : Shows code s t := by
  obtain ⟨o, ho⟩ := Option.isSome_iff_exists.mp h.told
  have hocp : s.ocp = some o := h.ocp.trans ho
  exact ⟨h.ocp, h.slots, by rw [hocp, h.triggered]; rfl,
    by rw [h.isOver.timer, hocp, Option.isNone_some, Bool.and_false]; rfl, h.goes⟩

theorem CncInv.shows (h : CncInv cobj timeout s t) : Shows (.cnc cobj timeout) s t := by
  rcases h with ⟨hstart, rfl⟩ | h
  · exact shows_start hstart (goes_cnc hstart)
  · exact h.shows

theorem KtoInv.shows (h : KtoInv s t) : Shows .kto s t := by
  rcases h with ⟨hstart, rfl⟩ | ⟨hdead, rfl⟩ | h | h
  · exact shows_start hstart (goes_kto hstart)
  · obtain ⟨hocp, hslots, htriggered, -, -, htimer, -⟩ := startDead_seen hdead
    exact ⟨hocp, hslots, by rw [hocp, htriggered]; rfl, by rw [hocp, htimer]; rfl,
      goes_startDead hdead⟩
  · exact ⟨h.ocp.trans h.told.symm, h.slots, by rw [h.ocp, h.triggered]; rfl,
      by rw [h.timer, h.ocp]; rfl, h.goes⟩
  · exact h.shows

/-- In every run the wrapped event is triggered once, with the outcome of the source that comes
first, and the timer is gone then. After that only the inner event of the timeout connector assigns
its slots, late; and whatever can happen goes through. -/
theorem connector_run (code : Code) : ∃ s₀ : Conn ν, start code = some s₀ ∧
    ∀ as s, Run step (fun _ _ => True) s₀ as s → Shows code s (seen code as) := by
  have hseen : ∀ (as : List (Act ν)) (a : Act ν),
      seen code (as ++ [a]) = (seen code as).add code a := by
    intro as a
    rw [seen, List.foldl_append]
    rfl
  cases code with
  | kto =>
      refine ⟨_, rfl, fun as s hrun => ?_⟩
      have hinv : KtoInv s (seen .kto as) := by
        induction hrun with
        | nil => exact .inl ⟨rfl, rfl⟩
        | snoc _ _ hs ih =>
            rw [hseen]
            exact ih.step hs
      exact hinv.shows
  | cnc cobj timeout =>
      have hstart : ∃ s₀ : Conn ν, start (.cnc cobj timeout) = some s₀ := by
        cases cobj <;> cases timeout <;> exact ⟨_, rfl⟩
      obtain ⟨s₀, hs₀⟩ := hstart
      refine ⟨s₀, hs₀, fun as s hrun => ?_⟩
      have hinv : CncInv cobj timeout s (seen (.cnc cobj timeout) as) := by
        induction hrun with
        | nil => exact .inl ⟨hs₀, rfl⟩
        | snoc _ _ hs ih =>
            rw [hseen]
            exact ih.step hs
      exact hinv.shows

/-- The timer of the timeout connector comes, and after the wrapped event was triggered the inner
event still assigns its slots. -/
theorem kto_assigns_late : ¬ ∀ (code : Code) (s₀ : Conn ℕ), start code = some s₀ →
    ∀ as s, Run step (fun _ _ => True) s₀ as s → s.ocp.isSome →
      ∀ a s', step s a = some s' → Unmoved s s' := by
  intro h
  have hrun : ((start .kto).bind fun s₀ : Conn ℕ => ([.timer, .ret].foldlM step s₀).bind fun s =>
      (step s (.inner 7)).map fun s' => (s.ocp, s.slots, s'.slots)) =
      some (some .timedout, none, some 7) := rfl
  obtain ⟨s₀, hs₀, hrun⟩ := Option.bind_eq_some_iff.mp hrun
  obtain ⟨s, hs, hrun⟩ := Option.bind_eq_some_iff.mp hrun
  obtain ⟨s', hs', hout⟩ := Option.map_eq_some_iff.mp hrun
  simp only [Prod.mk.injEq] at hout
  obtain ⟨hocp, hslots, hslots'⟩ := hout
  have hmoved := h .kto s₀ hs₀ _ s (Run.of_foldlM hs) (by rw [hocp]; rfl) _ s' hs'
  have hsame := hmoved.slots
  rw [hslots, hslots'] at hsame
  cases hsame

end Runs

end Sfslite.Libtame.Connector
