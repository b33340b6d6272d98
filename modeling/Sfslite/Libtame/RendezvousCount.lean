import Mathlib.Algebra.Group.Nat.Defs
import Sfslite.Libtame.Rendezvous

/-!
The count of the events of a rendezvous and their list. An event leaves the list by its trigger or
by its action, whichever comes first; what goes wrong is that it leaves a second time.
-/

namespace Sfslite.Libtame.Rendezvous

open Sfslite.Lib Sfslite.Lib.Hlist

variable {V : Type*}

/-- What keeps the count: the rendezvous is cancelled when no event is left in its list, and an
event whose trigger has taken it off the list, and has not returned, is not cancelled, finished or
triggered in the same way again. -/
def Careful (s : State V) : Act V → Prop
  | .cancel => s.links.head () = none
  | .cancelEvent e | .finish e => s.alive = true → .perform e false ∉ s.stack
  | .trigger e => s.alive = true → .perform e false ∈ s.stack →
      (s.events[e]?.all fun ev => !ev.base.canTrigger || ev.base.reuse) = true
  | _ => True

instance (s : State V) (a : Act V) : Decidable (Careful s a) :=
  match a with
  | .cancel => inferInstanceAs (Decidable (s.links.head () = none))
  | .cancelEvent e | .finish e =>
    inferInstanceAs (Decidable (s.alive = true → .perform e false ∉ s.stack))
  | .trigger e =>
    inferInstanceAs (Decidable (s.alive = true → .perform e false ∈ s.stack →
      (s.events[e]?.all fun ev => !ev.base.canTrigger || ev.base.reuse) = true))
  | .mkevent _ | .setReuse _ _ | .free _ | .twait | .destroy | .ret | .loop => .isTrue trivial

/-- The count is the length of the list as long as that is below `2 ^ 32`, and its low bits beyond.
No event was taken off the list twice, or is still in it. While the rendezvous is alive the list has
the events that can still join. -/
def Counted (s : State V) : Prop :=
  ∃ L, s.links.IsList (.head ()) L ∧ (L.length < 2 ^ 32 → s.nEvents.toNat = L.length) ∧
    s.nEvents = BitVec.ofNat 32 L.length ∧ (L ++ s.removed).Nodup ∧
    (s.alive = true → ∀ (e : ℕ) (ev : Event V), s.events[e]? = some ev →
      (e ∈ L ↔ ev.actionCleared = false ∧ .perform e false ∉ s.stack))

/-- What holds between two steps, but for the event `x`, which has just left the list. -/
structure Inv (s : State V) (L : List ℕ) (x : Option ℕ) : Prop where
  list : s.links.IsList (.head ()) L
  count : s.nEvents = BitVec.ofNat 32 L.length
  nodup : (L ++ s.removed).Nodup
  bound : ∀ e ∈ L ++ s.removed, e < s.events.length
  listed : s.alive = true → ∀ e ∈ L, ∀ ev : Event V, s.events[e]? = some ev →
    ev.actionCleared = false
  gone : ∀ (e : ℕ) (ev : Event V), s.events[e]? = some ev → e ∉ L →
    ev.actionCleared = true ∨ .perform e false ∈ s.stack ∨ x = some e
  performing : ∀ e, .perform e false ∈ s.stack → e ∉ L ∧ e < s.events.length
  cleared : ∀ (e : ℕ) (ev : Event V), s.events[e]? = some ev → ev.base.cleared = true →
    ev.actionCleared = true
  cancelling : .cancelling ∉ s.stack
  cleanup : .cleanup ∈ s.stack → s.dead = true

theorem Inv.init : Inv (State.init : State V) [] none where
  list := rfl
  count := rfl
  nodup := List.nodup_nil
  bound := nofun
  listed _ := nofun
  gone := nofun
  performing := nofun
  cleared := nofun
  cancelling := nofun
  cleanup := nofun

theorem Inv.counted {s : State V} {L : List ℕ} (h : Inv s L none) : Counted s := by
  have hnumber : L.length < 2 ^ 32 → s.nEvents.toNat = L.length := by
    intro hlt
    rw [h.count, BitVec.toNat_ofNat, Nat.mod_eq_of_lt hlt]
  refine ⟨L, h.list, hnumber, h.count, h.nodup,
    fun halive e ev hev => ⟨fun he => ?_, fun hlive => ?_⟩⟩
  · exact ⟨h.listed halive e he ev hev, fun hp => (h.performing e hp).1 he⟩
  · refine by_contra fun he => ?_
    rcases h.gone e ev hev he with hc | hp | hx
    · exact absurd (hlive.1.symm.trans hc) nofun
    · exact hlive.2 hp
    · cases hx

section Steps

variable {s : State V} {L : List ℕ} {e : ℕ} {f : Event V → Event V} {ev' ev : Event V}

theorem getElem?_modifyEvent {i : ℕ} (h : (s.modifyEvent e f).events[i]? = some ev') :
    ∃ ev, s.events[i]? = some ev ∧ ev' = if e = i then f ev else ev := by
  rw [State.modifyEvent, List.getElem?_modify] at h
  obtain ⟨ev, hev, h⟩ := Option.map_eq_some_iff.mp h
  exact ⟨ev, hev, h.symm⟩

variable {x : Option ℕ}

theorem Inv.flags (h : Inv s L x) (haction : ∀ ev, (f ev).actionCleared = ev.actionCleared)
    (hcleared : ∀ ev, (f ev).base.cleared = ev.base.cleared) : Inv (s.modifyEvent e f) L x := by
  have hback : ∀ (i : ℕ) (ev' : Event V), (s.modifyEvent e f).events[i]? = some ev' →
      ∃ ev, s.events[i]? = some ev ∧ ev'.actionCleared = ev.actionCleared ∧
        ev'.base.cleared = ev.base.cleared := by
    intro i ev' hev'
    obtain ⟨ev, hev, rfl⟩ := getElem?_modifyEvent hev'
    refine ⟨ev, hev, ?_⟩
    split
    · exact ⟨haction ev, hcleared ev⟩
    · exact ⟨rfl, rfl⟩
  refine ⟨h.list, h.count, h.nodup, ?_, ?_, ?_, ?_, ?_, h.cancelling, h.cleanup⟩
  · intro i hi
    rw [State.modifyEvent, List.length_modify]
    exact h.bound i hi
  · intro halive i hi ev' hev'
    obtain ⟨ev, hev, ha, -⟩ := hback i ev' hev'
    rw [ha]
    exact h.listed halive i hi ev hev
  · intro i ev' hev' hi
    obtain ⟨ev, hev, ha, -⟩ := hback i ev' hev'
    rw [ha]
    exact h.gone i ev hev hi
  · intro i hp
    rw [State.modifyEvent, List.length_modify]
    exact h.performing i hp
  · intro i ev' hev' hc
    obtain ⟨ev, hev, ha, hc'⟩ := hback i ev' hev'
    rw [ha]
    exact h.cleared i ev hev (hc' ▸ hc)

theorem Inv.settle (h : Inv s L x) (hx : x = none ∨ x = some e) (he : s.alive = true → e ∉ L)
    (haction : ∀ ev, s.events[e]? = some ev → (f ev).actionCleared = true) :
    Inv (s.modifyEvent e f) L none := by
  refine ⟨h.list, h.count, h.nodup, ?_, ?_, ?_, ?_, ?_, h.cancelling, h.cleanup⟩
  · intro i hi
    rw [State.modifyEvent, List.length_modify]
    exact h.bound i hi
  · intro halive i hi ev' hev'
    obtain ⟨ev, hev, rfl⟩ := getElem?_modifyEvent hev'
    have hne : e ≠ i := fun heq => he halive (heq ▸ hi)
    rw [if_neg hne]
    exact h.listed halive i hi ev hev
  · intro i ev' hev' hi
    obtain ⟨ev, hev, rfl⟩ := getElem?_modifyEvent hev'
    split
    · next heq => exact Or.inl (haction ev (heq ▸ hev))
    · next hne =>
      rcases h.gone i ev hev hi with hc | hp | hxi
      · exact Or.inl hc
      · exact Or.inr (Or.inl hp)
      · rcases hx with rfl | rfl
        · cases hxi
        · exact absurd (Option.some.inj hxi) hne
  · intro i hp
    rw [State.modifyEvent, List.length_modify]
    exact h.performing i hp
  · intro i ev' hev' hc
    obtain ⟨ev, hev, rfl⟩ := getElem?_modifyEvent hev'
    split
    · next heq => exact haction ev (heq ▸ hev)
    · next hne =>
      rw [if_neg hne] at hc
      exact h.cleared i ev hev hc

theorem ofNat_succ_sub_one (n : ℕ) : BitVec.ofNat 32 (n + 1) - 1 = BitVec.ofNat 32 n := by
  rw [BitVec.ofNat_add]
  exact BitVec.add_sub_cancel _ _

theorem Inv.remove (h : Inv s L none) (he : e ∈ L) :
    ∃ L', Inv (s.remove e) L' (some e) ∧ e ∉ L' ∧ ∀ i ∈ L', i ∈ L := by
  obtain ⟨l₁, l₂, rfl⟩ := List.append_of_mem he
  have hnodup : (l₁ ++ e :: l₂).Nodup := (List.nodup_append.mp h.nodup).1
  have hnot : e ∉ l₁ ++ l₂ := (List.nodup_cons.mp (List.nodup_middle.mp hnodup)).1
  have hperm : (l₁ ++ l₂ ++ (s.removed ++ [e])).Perm (l₁ ++ e :: l₂ ++ s.removed) := by
    rw [List.perm_iff_count]
    intro a
    simp only [List.count_append, List.count_cons, List.count_nil]
    omega
  have hsub : ∀ i ∈ l₁ ++ l₂, i ∈ l₁ ++ e :: l₂ := by
    intro i hi
    rcases List.mem_append.mp hi with hi | hi
    · exact List.mem_append_left _ hi
    · exact List.mem_append_right _ (List.mem_cons_of_mem _ hi)
  refine ⟨l₁ ++ l₂, ?_, hnot, hsub⟩
  refine ⟨h.list.unlink hnodup, ?_, hperm.nodup_iff.mpr h.nodup,
    fun i hi => h.bound i (hperm.mem_iff.mp hi), ?_, ?_, ?_, h.cleared, h.cancelling, h.cleanup⟩
  · change s.nEvents - 1 = _
    rw [h.count, List.length_append, List.length_cons, ← Nat.add_assoc, ofNat_succ_sub_one,
      List.length_append]
  · exact fun halive i hi => h.listed halive i (hsub i hi)
  · intro i ev hev hi
    by_cases hie : i = e
    · exact Or.inr (Or.inr (congrArg some hie.symm))
    · have hmem : i ∉ l₁ ++ e :: l₂ := by
        rw [List.mem_append, List.mem_cons]
        rw [List.mem_append] at hi
        tauto
      rcases h.gone i ev hev hmem with hc | hp | hx
      · exact Or.inl hc
      · exact Or.inr (Or.inl hp)
      · cases hx
  · exact fun i hp => ⟨fun hi => (h.performing i hp).1 (hsub i hi), (h.performing i hp).2⟩

theorem modifyEvent_modifyEvent (f g : Event V → Event V) :
    (s.modifyEvent e f).modifyEvent e g = s.modifyEvent e (g ∘ f) := by
  rw [State.modifyEvent, State.modifyEvent, State.modifyEvent, List.modify_modify_eq]

theorem Inv.clearAction (h : Inv s L none) (hev : s.events[e]? = some ev')
    (haction : ev'.actionCleared = ev.actionCleared)
    (hp : s.alive = true → .perform e false ∉ s.stack) {g : Event V → Event V}
    (hg : ∀ ev, (g ev).actionCleared = ev.actionCleared) :
    ∃ L', Inv ((s.clearAction e ev).modifyEvent e g) L' none := by
  have hself : ∀ ev₀, s.events[e]? = some ev₀ → ev₀ = ev' := by
    intro ev₀ hev₀
    rw [hev, Option.some.injEq] at hev₀
    exact hev₀.symm
  rw [State.clearAction]
  split
  · next hc =>
    refine ⟨L, h.settle (Or.inl rfl) (fun halive he => ?_) fun ev₀ hev₀ => ?_⟩
    · have := h.listed halive e he ev' hev
      rw [haction, hc] at this
      cases this
    · rw [hg, hself ev₀ hev₀, haction, hc]
  · next hc =>
    rw [modifyEvent_modifyEvent]
    split
    · next halive =>
      have he : e ∈ L := by
        refine by_contra fun he => ?_
        rcases h.gone e ev' hev he with hc' | hp' | hx
        · exact hc (haction ▸ hc')
        · exact hp halive hp'
        · cases hx
      obtain ⟨L', hinv, hnot, -⟩ := h.remove he
      exact ⟨L', hinv.settle (Or.inr rfl) (fun _ => hnot) fun ev₀ _ => hg _⟩
    · next halive =>
      exact ⟨L, h.settle (Or.inl rfl) (fun ha => absurd ha halive) fun ev₀ _ => hg _⟩

theorem Inv.clear (h : Inv s L none) (hev : s.events[e]? = some ev')
    (haction : ev'.actionCleared = ev.actionCleared)
    (hp : s.alive = true → .perform e false ∉ s.stack) : ∃ L', Inv (s.clear e ev) L' none := by
  rw [State.clear]
  split
  · exact ⟨L, h⟩
  · exact h.clearAction hev haction hp fun _ => rfl

theorem getElem?_modifyEvent_self
    (hev : s.events[e]? = some ev) : (s.modifyEvent e f).events[e]? = some (f ev) := by
  rw [State.modifyEvent, List.getElem?_modify, hev]
  exact congrArg some (if_pos rfl)

theorem Inv.cancelEvent (h : Inv s L none) (hev : s.events[e]? = some ev)
    (hp : s.alive = true → .perform e false ∉ s.stack) :
    ∃ L', Inv (s.cancelEvent e ev) L' none := by
  have hflags : Inv (s.modifyEvent e fun ev => { ev with base.cancelled := true }) L none :=
    h.flags (fun _ => rfl) fun _ => rfl
  exact hflags.clear (getElem?_modifyEvent_self hev) rfl hp

theorem Inv.free (h : Inv s L none) (hev : s.events[e]? = some ev)
    (hp : s.alive = true → .perform e false ∉ s.stack) : ∃ L', Inv (s.free e ev) L' none := by
  rw [State.free]
  split
  · exact ⟨L, h.flags (fun _ => rfl) fun _ => rfl⟩
  · exact h.clearAction hev rfl hp fun _ => rfl

variable {s' : State V}

theorem Inv.congr (h : Inv s L x) (hlinks : s'.links = s.links)
    (hcount : s'.nEvents = s.nEvents) (hremoved : s'.removed = s.removed)
    (hevents : s'.events = s.events) (hstack : s'.stack = s.stack) (hdead : s'.dead = s.dead)
    (halive : s'.alive = s.alive) : Inv s' L x := by
  refine ⟨?_, ?_, ?_, ?_, ?_, ?_, ?_, ?_, ?_, ?_⟩
  · rw [hlinks]
    exact h.list
  · rw [hcount]
    exact h.count
  · rw [hremoved]
    exact h.nodup
  · rw [hremoved, hevents]
    exact h.bound
  · rw [halive, hevents]
    exact h.listed
  · rw [hevents, hstack]
    exact h.gone
  · rw [hstack, hevents]
    exact h.performing
  · rw [hevents]
    exact h.cleared
  · rw [hstack]
    exact h.cancelling
  · rw [hstack, hdead]
    exact h.cleanup

theorem Inv.twait (h : Inv s L x) (hs : s.twait = some s') : Inv s' L x := by
  rw [State.twait] at hs
  split at hs
  · cases hs
    exact h.congr rfl rfl rfl rfl rfl rfl rfl
  · obtain ⟨-, ⟨⟩⟩ := Option.ite_none_right_eq_some.mp hs
    exact h.congr rfl rfl rfl rfl rfl rfl rfl

theorem Inv.frame (h : Inv s L x) (reuse : Bool) (hx : x = if reuse then none else some e)
    (he : reuse = false → e ∉ L ∧ e < s.events.length) :
    Inv { s with stack := .perform e reuse :: s.stack } L none := by
  refine ⟨h.list, h.count, h.nodup, h.bound, h.listed, ?_, ?_, h.cleared, ?_, ?_⟩
  · intro i ev hev hi
    rcases h.gone i ev hev hi with hc | hp | hxi
    · exact Or.inl hc
    · exact Or.inr (Or.inl (List.mem_cons_of_mem _ hp))
    · subst hx
      cases reuse with
      | true => cases hxi
      | false =>
        cases hxi
        exact Or.inr (Or.inl List.mem_cons_self)
  · intro i hi
    rcases List.mem_cons.mp hi with heq | hi
    · cases heq
      exact he rfl
    · exact h.performing i hi
  · intro hmem
    rcases List.mem_cons.mp hmem with heq | hmem
    · cases heq
    · exact h.cancelling hmem
  · intro hmem
    rcases List.mem_cons.mp hmem with heq | hmem
    · cases heq
    · exact h.cleanup hmem

theorem Inv.endTrigger (h : Inv s L x) (reuse : Bool)
    (hx : x = if reuse then none else some e) (he : reuse = false → e ∉ L) :
    Inv (s.endTrigger e reuse) L none := by
  cases reuse with
  | true =>
    subst hx
    exact h.flags (fun ev => Bool.or_false _) fun ev => Bool.or_false _
  | false => exact h.settle (Or.inr hx) (fun _ => he rfl) fun ev _ => Bool.or_true _

theorem Inv.push (h : Inv s L none) {v : V} {reuse : Bool} (he : reuse = false → e ∈ L) :
    ∃ L', Inv (s.push e v reuse) L' (if reuse then none else some e) ∧
      (reuse = false → e ∉ L' ∧ e < (s.push e v reuse).events.length) := by
  have hvalue : Inv { s with
      pending := s.pending ++ [v], produced := s.produced ++ [(e, v)] } L none :=
    h.congr rfl rfl rfl rfl rfl rfl rfl
  cases reuse with
  | true => exact ⟨L, hvalue, nofun⟩
  | false =>
    obtain ⟨L', hinv, hnot, -⟩ := hvalue.remove (he rfl)
    exact ⟨L', hinv, fun _ => ⟨hnot, h.bound e (List.mem_append_left _ (he rfl))⟩⟩

theorem Inv.join (h : Inv s L none) {v : V} {reuse : Bool}
    (he : reuse = false → e ∈ L) (hs : s.join e v reuse = some s') : ∃ L', Inv s' L' none := by
  obtain ⟨L', hinv, hnot⟩ := h.push (v := v) he
  rw [State.join] at hs
  generalize s.push e v reuse = s₁ at hs hinv hnot
  split at hs
  · rw [State.reenter] at hs
    split at hs
    · cases hs
    · next w _ =>
      have hframe : Inv { s₁ with
          joinCls := none
          joinMethod := .none
          reentered := s₁.reentered ++ [w]
          stack := .perform e reuse :: s₁.stack } L' none :=
        (hinv.frame reuse rfl hnot).congr rfl rfl rfl rfl rfl rfl rfl
      exact ⟨L', hframe.twait hs⟩
  · cases hs
    exact ⟨L', hinv.endTrigger reuse rfl fun hreuse => (hnot hreuse).1⟩

theorem Inv.trigger (h : Inv s L none) (hev : s.events[e]? = some ev)
    (hcare : Careful s (.trigger e)) (hs : s.trigger e ev = some s') : ∃ L', Inv s' L' none := by
  have hperforming : Inv (s.modifyEvent e fun ev => { ev with base.performing := true }) L none :=
    h.flags (fun _ => rfl) fun _ => rfl
  rw [State.trigger] at hs
  split at hs
  case isFalse =>
    cases hs
    exact ⟨L, h⟩
  next hcan =>
  dsimp only at hs
  split at hs
  · cases hs
    exact ⟨L, hperforming.endTrigger true rfl nofun⟩
  next haction =>
  split at hs
  · next halive =>
    refine hperforming.join (fun hreuse => ?_) hs
    refine by_contra fun he => ?_
    rcases h.gone e ev hev he with hc | hp | hx
    · exact haction hc
    · have hall := hcare halive hp
      rw [hev, Option.all_some, hcan, hreuse] at hall
      cases hall
    · cases hx
  · cases hs
    exact ⟨L, hperforming.endTrigger true rfl nofun⟩

theorem Inv.mkevent (h : Inv s L none) (v : V) : ∃ L', Inv (s.mkevent v) L' none := by
  rw [State.mkevent]
  split
  · exact ⟨L, h⟩
  have hnew : s.events.length ∉ L := fun hmem =>
    absurd (h.bound _ (List.mem_append_left _ hmem)) (Nat.lt_irrefl _)
  have hback : ∀ (i : ℕ) (ev : Event V), (s.events ++ [⟨.new, v, false, false⟩])[i]? = some ev →
      s.events[i]? = some ev ∨ (i = s.events.length ∧ ev = ⟨.new, v, false, false⟩) := by
    intro i ev hev
    have hlt := (List.getElem?_eq_some_iff.mp hev).1
    rw [List.length_append, List.length_singleton] at hlt
    rw [List.getElem?_append] at hev
    split at hev
    · exact Or.inl hev
    · next hi =>
      exact Or.inr ⟨by omega, List.mem_singleton.mp (List.mem_of_getElem? hev)⟩
  refine ⟨s.events.length :: L, ?_⟩
  refine ⟨h.list.push hnew (List.nodup_append.mp h.nodup).1, ?_, ?_, ?_, ?_, ?_, ?_, ?_,
    h.cancelling, h.cleanup⟩
  · change s.nEvents + 1 = _
    rw [h.count, List.length_cons, BitVec.ofNat_add]
    rfl
  · rw [List.cons_append, List.nodup_cons]
    exact ⟨fun hmem => absurd (h.bound _ hmem) (Nat.lt_irrefl _), h.nodup⟩
  · intro i hi
    change i < (s.events ++ [_]).length
    rw [List.length_append, List.length_singleton]
    rw [List.cons_append, List.mem_cons] at hi
    rcases hi with rfl | hi
    · omega
    · have := h.bound i hi
      omega
  · intro halive i hi ev hev
    rcases hback i ev hev with hev | ⟨-, rfl⟩
    · rcases List.mem_cons.mp hi with rfl | hi
      · exact absurd (List.getElem?_eq_some_iff.mp hev).1 (Nat.lt_irrefl _)
      · exact h.listed halive i hi ev hev
    · rfl
  · intro i ev hev hi
    rcases hback i ev hev with hev | ⟨rfl, -⟩
    · exact h.gone i ev hev fun hmem => hi (List.mem_cons_of_mem _ hmem)
    · exact absurd List.mem_cons_self hi
  · intro i hp
    obtain ⟨hnot, hlt⟩ := h.performing i hp
    refine ⟨fun hi => ?_, ?_⟩
    · rcases List.mem_cons.mp hi with rfl | hi
      · exact Nat.lt_irrefl _ hlt
      · exact hnot hi
    · change i < (s.events ++ [_]).length
      rw [List.length_append, List.length_singleton]
      omega
  · intro i ev hev hc
    rcases hback i ev hev with hev | ⟨-, rfl⟩
    · exact h.cleared i ev hev hc
    · cases hc

theorem Inv.cleanup_turn (h : Inv s L none) (hdead : s.dead = true)
    (hs : s.cancelAllEvents .cleanup = some s') : ∃ L', Inv s' L' none := by
  have halive : ∀ t : State V, t.dead = true → t.alive = false := by
    intro t ht
    rw [State.alive, ht]
    rfl
  rw [State.cancelAllEvents] at hs
  split at hs
  · cases hs
    exact ⟨L, h⟩
  next b hhead =>
  split at hs
  · cases hs
  next ev hev =>
  split at hs
  · cases hs
  cases hs
  have hb : b ∈ L := h.list.mem_of_get hhead
  obtain ⟨L', hinv, hnot, -⟩ := h.remove hb
  have hflags : Inv ((s.remove b).modifyEvent b fun ev => { ev with base.cancelled := true }) L'
      (some b) := hinv.flags (fun _ => rfl) fun _ => rfl
  have hev' : ((s.remove b).modifyEvent b fun ev =>
      { ev with base.cancelled := true }).events[b]? =
      some { ev with base.cancelled := true } := getElem?_modifyEvent_self hev
  have hself : ∀ ev₀, ((s.remove b).modifyEvent b fun ev =>
      { ev with base.cancelled := true }).events[b]? = some ev₀ →
      ev₀ = { ev with base.cancelled := true } := by
    intro ev₀ hev₀
    rw [hev', Option.some.injEq] at hev₀
    exact hev₀.symm
  have hcancel : Inv ((s.remove b).cancelEvent b ev) L' none ∧
      ((s.remove b).cancelEvent b ev).dead = true := by
    rw [State.cancelEvent, State.clear]
    split
    · next hcleared =>
      have haction := h.cleared b ev hev hcleared
      refine ⟨?_, hdead⟩
      have hid := hflags.settle (Or.inr rfl) (fun _ => hnot) (f := id) fun ev₀ hev₀ => by
        rw [hself ev₀ hev₀]
        exact haction
      rw [State.modifyEvent, List.modify_id] at hid
      exact hid
    · rw [State.clearAction]
      split
      · next haction =>
        refine ⟨hflags.settle (Or.inr rfl) (fun _ => hnot) fun ev₀ hev₀ => ?_, hdead⟩
        rw [hself ev₀ hev₀]
        exact haction
      · rw [if_neg (by rw [halive _ (by exact hdead)]; nofun), modifyEvent_modifyEvent]
        exact ⟨hflags.settle (Or.inr rfl) (fun _ => hnot) fun _ _ => rfl, hdead⟩
  obtain ⟨hinv, hdead'⟩ := hcancel
  refine ⟨L', hinv.list, hinv.count, hinv.nodup, hinv.bound, hinv.listed, ?_, ?_, hinv.cleared,
    ?_, fun _ => hdead'⟩
  · intro i ev hev hi
    exact (hinv.gone i ev hev hi).imp_right (Or.imp_left (List.mem_cons_of_mem _))
  · intro i hi
    rcases List.mem_cons.mp hi with heq | hi
    · cases heq
    · exact hinv.performing i hi
  · intro hmem
    rcases List.mem_cons.mp hmem with heq | hmem
    · cases heq
    · exact hinv.cancelling hmem

theorem Inv.ret (h : Inv s L none) {reuse : Bool} {stack : List Frame}
    (hstack : s.stack = .perform e reuse :: stack) :
    Inv ({ s with stack := stack }.endTrigger e reuse) L none := by
  have hmem : ∀ fr ∈ stack, fr ∈ s.stack := fun fr hfr => by
    rw [hstack]
    exact List.mem_cons_of_mem _ hfr
  have hpop : Inv { s with stack := stack } L (if reuse then none else some e) := by
    refine ⟨h.list, h.count, h.nodup, h.bound, h.listed, ?_, fun i hi => h.performing i (hmem _ hi),
      h.cleared, fun hc => h.cancelling (hmem _ hc), fun hc => h.cleanup (hmem _ hc)⟩
    intro i ev hev hi
    rcases h.gone i ev hev hi with hc | hp | hx
    · exact Or.inl hc
    · rw [hstack, List.mem_cons] at hp
      rcases hp with heq | hp
      · cases heq
        exact Or.inr (Or.inr rfl)
      · exact Or.inr (Or.inl hp)
    · cases hx
  refine hpop.endTrigger reuse rfl fun hreuse => ?_
  subst hreuse
  exact (h.performing e (by rw [hstack]; exact List.mem_cons_self)).1

theorem lookup_eq_some (h : s.lookup e = some ev) : s.events[e]? = some ev :=
  (Option.filter_eq_some_iff.mp h).1

theorem Inv.step {a : Act V} (h : Inv s L none) (hcare : Careful s a)
    (hs : step s a = some s') : ∃ L', Inv s' L' none := by
  cases a with
  | mkevent v =>
    obtain ⟨-, ⟨⟩⟩ := Option.ite_none_left_eq_some.mp hs
    exact h.mkevent v
  | trigger e =>
    obtain ⟨ev, hev, hs⟩ := Option.bind_eq_some_iff.mp hs
    exact h.trigger (lookup_eq_some hev) hcare hs
  | cancelEvent e =>
    obtain ⟨ev, hev, rfl⟩ := Option.map_eq_some_iff.mp hs
    exact h.cancelEvent (lookup_eq_some hev) hcare
  | finish e =>
    obtain ⟨ev, hev, rfl⟩ := Option.map_eq_some_iff.mp hs
    exact h.clear (lookup_eq_some hev) rfl hcare
  | setReuse e b =>
    obtain ⟨ev, hev, rfl⟩ := Option.map_eq_some_iff.mp hs
    exact ⟨L, h.flags (fun _ => rfl) fun _ => rfl⟩
  | free e =>
    obtain ⟨hheld, hs⟩ := Option.ite_none_left_eq_some.mp hs
    obtain ⟨ev, hev, rfl⟩ := Option.map_eq_some_iff.mp hs
    exact h.free (lookup_eq_some hev) fun _ hp => hheld (Or.inr hp)
  | twait =>
    obtain ⟨-, hs⟩ := Option.ite_none_left_eq_some.mp hs
    exact ⟨L, h.twait hs⟩
  | cancel =>
    obtain ⟨-, hs⟩ := Option.ite_none_left_eq_some.mp hs
    have hhead : s.links.head () = none := hcare
    rw [State.cancelAllEvents] at hs
    simp only [hhead, Option.some.injEq, if_true] at hs
    subst hs
    refine ⟨L, h.list, h.count, h.nodup, h.bound, fun halive => ?_, h.gone, h.performing,
      h.cleared, h.cancelling, h.cleanup⟩
    rw [State.alive, Bool.not_true, Bool.and_false] at halive
    cases halive
  | destroy =>
    obtain ⟨-, hs⟩ := Option.ite_none_left_eq_some.mp hs
    have hdead : Inv { s with dead := true } L none :=
      { h with listed := nofun, cleanup := fun _ => rfl }
    exact hdead.cleanup_turn rfl hs
  | ret =>
    rw [Rendezvous.step] at hs
    split at hs
    · next e reuse stack hstack =>
      cases hs
      exact ⟨L, h.ret hstack⟩
    · cases hs
  | loop =>
    rw [Rendezvous.step] at hs
    split at hs
    · next stack hstack =>
      exact absurd (by rw [hstack]; exact List.mem_cons_self) h.cancelling
    · next stack hstack =>
      have hpop : Inv { s with stack := stack } L none := by
        have hmem : ∀ fr ∈ stack, fr ∈ s.stack := fun fr hfr => by
          rw [hstack]
          exact List.mem_cons_of_mem _ hfr
        refine ⟨h.list, h.count, h.nodup, h.bound, h.listed, ?_,
          fun i hi => h.performing i (hmem _ hi), h.cleared, fun hc => h.cancelling (hmem _ hc),
          fun hc => h.cleanup (hmem _ hc)⟩
        intro i ev hev hi
        rcases h.gone i ev hev hi with hc | hp | hx
        · exact Or.inl hc
        · rw [hstack, List.mem_cons] at hp
          rcases hp with heq | hp
          · cases heq
          · exact Or.inr (Or.inl hp)
        · cases hx
      have hdead : s.dead = true := h.cleanup (by rw [hstack]; exact List.mem_cons_self)
      exact hpop.cleanup_turn hdead hs
    · cases hs

end Steps

/-- In every run that is careful the count is the length of the list, and no event is taken off
the list or the count twice. -/
theorem rendezvous_counted {es : List (Act V)} {s : State V}
    (hrun : Run step Careful State.init es s) : Counted s := by
  have hinv : ∃ L, Inv s L none := by
    refine hrun.invariant (I := fun s => ∃ L, Inv s L none) ⟨[], .init⟩ ?_
    rintro s a s' ⟨L, hL⟩ hcare hs
    exact hL.step hcare hs
  obtain ⟨L, hL⟩ := hinv
  exact hL.counted

/-- A closure waits; the event that re-enters it is made again, cancelled, and its rendezvous is
destroyed. -/
theorem rendezvous_counted_example :
    ∃ s : State ℕ, Run step Careful State.init
        [.twait, .mkevent 7, .trigger 0, .mkevent 8, .cancelEvent 1, .ret, .cancel, .destroy] s ∧
      Counted s := by
  have hrun : Run step Careful (State.init : State ℕ)
      [.twait, .mkevent 7, .trigger 0, .mkevent 8, .cancelEvent 1, .ret, .cancel, .destroy] _ :=
    Run.of_checked rfl
  exact ⟨_, hrun, rendezvous_counted hrun⟩

/-- `cancel` takes every event off the list and the count, and has its action do so again. -/
theorem rendezvous_cancel_twice :
    ¬∀ (es : List (Act ℕ)) s, Run step (fun _ _ => True) State.init es s → Counted s := by
  intro h
  have hrun : Run step (fun _ _ => True) (State.init : State ℕ)
      [.mkevent 7, .cancel, .loop] _ := Run.of_foldlM rfl
  obtain ⟨L, -, -, -, hnodup, -⟩ := h _ _ hrun
  have hsub : [0, 0].Nodup := (List.nodup_append.mp hnodup).2.1
  exact absurd hsub (by decide)

end Sfslite.Libtame.Rendezvous
