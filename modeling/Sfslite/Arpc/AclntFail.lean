import Mathlib.Data.List.Count
import Mathlib.Data.List.Nodup
import Mathlib.Data.List.Range

/-!
`aclnt::fail`: the loop that finishes the calls of a client when its transport fails. It reads the
next call before it finishes one, and the callback of that one may delete it.
-/

namespace Sfslite.Arpc.Aclnt

/-- What a callback may do: cancel a call, or make one, with a write that may break the transport.
A call that fails before it is in the queue runs its callback at once, and what that does follows
here. -/
inductive Action where
  | cancel (call : ℕ)
  | call (breaks : Bool)
deriving DecidableEq

/-- `calls` of an `aclnt`, and whether its transport is at its end. The calls are numbered; `failed`
are those whose callback `fail` has run, `cancelled` those that were cancelled. -/
structure Client where
  calls : List ℕ
  nextCall : ℕ
  ateof : Bool
  failed : List ℕ
  cancelled : List ℕ

/-- A client with `n` calls outstanding, numbered in the order of the queue. -/
def Client.outstanding (n : ℕ) (ateof : Bool) : Client :=
  { calls := List.range n, nextCall := n, ateof := ateof, failed := [], cancelled := [] }

/-- `callbase::cancel` of an outstanding call, and `aclnt::call`. -/
def Client.act (c : Client) : Action → Client
  | .cancel call =>
    if call ∈ c.calls then
      { c with calls := c.calls.erase call, cancelled := c.cancelled ++ [call] }
    else c
  | .call breaks =>
    if c.ateof then c
    else
      { c with calls := c.calls ++ [c.nextCall], nextCall := c.nextCall + 1, ateof := breaks }

/-- `rpccb::finish (RPC_CANTRECV)`: the call is deleted before its callback runs. -/
def Client.finish (acts : ℕ → List Action) (c : Client) (rb : ℕ) : Client :=
  (acts rb).foldl Client.act { c with calls := c.calls.erase rb, failed := c.failed ++ [rb] }

/-- `calls.next (rb)` -/
def next : List ℕ → ℕ → Option ℕ
  | [], _ => none
  | call :: calls, rb => if call = rb then calls.head? else next calls rb

/-- One pass of the loop of `fail`, with `nrb`; `none` where `rb` was deleted. -/
def failStep (acts : ℕ → List Action) (c : Client) (rb : ℕ) : Option (Client × Option ℕ) :=
  if rb ∈ c.calls then some (c.finish acts rb, next c.calls rb) else none

/-- The loop of `fail` for `k` passes, or fewer where it ends before. -/
def failLoop (acts : ℕ → List Action) : ℕ → Client → Option ℕ → Option (Client × Option ℕ)
  | 0, c, rb => some (c, rb)
  | _ + 1, c, none => some (c, none)
  | k + 1, c, some rb => do
      let (c, nrb) ← failStep acts c rb
      failLoop acts k c nrb

/-- `aclnt::fail`, after `k` passes. -/
def fail (acts : ℕ → List Action) (k : ℕ) (c : Client) : Option (Client × Option ℕ) :=
  failLoop acts k c c.calls.head?

/-- No deleted call is touched; and from some pass on, each of the `n` calls has been finished with
the failure exactly once, or was cancelled and not finished. -/
def FailsAll (acts : ℕ → List Action) (n : ℕ) (ateof : Bool) : Prop :=
  (∀ k, (fail acts k (.outstanding n ateof)).isSome) ∧
    ∃ k₀, ∀ k, k₀ ≤ k → ∀ c rb, fail acts k (.outstanding n ateof) = some (c, rb) →
      ∀ call, call < n → c.failed.count call = if call ∈ c.cancelled then 0 else 1

/-- No callback that `fail` runs cancels the call behind its own in the queue. -/
def SparesNext (acts : ℕ → List Action) (n : ℕ) (ateof : Bool) : Prop :=
  ∀ k c rb nrb, fail acts k (.outstanding n ateof) = some (c, some rb) →
    next c.calls rb = some nrb → Action.cancel nrb ∉ acts rb

variable {acts : ℕ → List Action} {c c' : Client} {rb nrb : ℕ} {n : ℕ}

/-- The queue is in the order of the numbers; each of the first `n` calls is in it, finished or
cancelled, and this once. -/
structure Client.Good (c : Client) (n : ℕ) : Prop where
  sorted : c.calls.Pairwise (· < ·)
  lt_next : ∀ call ∈ c.calls, call < c.nextCall
  le_next : n ≤ c.nextCall
  count : ∀ call, call < n →
    c.calls.count call + c.failed.count call + c.cancelled.count call = 1

theorem Client.good_outstanding (n : ℕ) (ateof : Bool) : (outstanding n ateof).Good n where
  sorted := List.pairwise_lt_range
  lt_next call h := List.mem_range.mp h
  le_next := le_refl n
  count call h := by
    have hmem := List.count_eq_one_of_mem List.nodup_range (List.mem_range.mpr h)
    simp [outstanding, hmem]

theorem Client.Good.nodup (h : c.Good n) : c.calls.Nodup :=
  h.sorted.imp fun hlt => Nat.ne_of_lt hlt

theorem count_erase_add {l : List ℕ} (hmem : rb ∈ l) (call : ℕ) :
    (l.erase rb).count call + (if rb = call then 1 else 0) = l.count call := by
  have hperm := (List.perm_cons_erase hmem).count_eq call
  rw [hperm, List.count_cons]
  simp

theorem Client.Good.act (h : c.Good n) (a : Action) : (c.act a).Good n := by
  cases a with
  | cancel call =>
    rw [Client.act]
    split_ifs with hmem
    · refine ⟨h.sorted.sublist List.erase_sublist,
        fun x hx => h.lt_next x (List.mem_of_mem_erase hx), h.le_next, fun x hx => ?_⟩
      have hcount := h.count x hx
      have herase := count_erase_add hmem x
      rw [List.count_append, List.count_singleton]
      simp only [beq_iff_eq]
      omega
    · exact h
  | call breaks =>
    rw [Client.act]
    split_ifs
    · exact h
    · refine ⟨?_, ?_, Nat.le_succ_of_le h.le_next, fun x hx => ?_⟩
      · rw [List.pairwise_append]
        refine ⟨h.sorted, List.pairwise_singleton _ _, fun x hx y hy => ?_⟩
        rw [List.mem_singleton.mp hy]
        exact h.lt_next x hx
      · intro x hx
        rcases List.mem_append.mp hx with hx | hx
        · exact Nat.lt_succ_of_lt (h.lt_next x hx)
        · rw [List.mem_singleton.mp hx]
          exact Nat.lt_succ_self _
      · have hcount := h.count x hx
        have hle := h.le_next
        rw [List.count_append, List.count_singleton]
        simp only [beq_iff_eq]
        split_ifs with heq
        · omega
        · omega

theorem Client.Good.foldl_act (h : c.Good n) (as : List Action) :
    (as.foldl Client.act c).Good n := by
  induction as generalizing c with
  | nil => exact h
  | cons a as ih => exact ih (h.act a)

theorem Client.Good.deleted (h : c.Good n) (hmem : rb ∈ c.calls) :
    Client.Good { c with calls := c.calls.erase rb, failed := c.failed ++ [rb] } n := by
  refine ⟨h.sorted.sublist List.erase_sublist,
    fun x hx => h.lt_next x (List.mem_of_mem_erase hx), h.le_next, fun x hx => ?_⟩
  have hcount := h.count x hx
  have herase := count_erase_add hmem x
  rw [List.count_append, List.count_singleton]
  simp only [beq_iff_eq]
  omega

theorem Client.Good.finish (h : c.Good n) (hmem : rb ∈ c.calls) : (c.finish acts rb).Good n :=
  (h.deleted hmem).foldl_act _

variable {call : ℕ}

theorem not_mem_acts (hlt : call < c.nextCall) (hnot : call ∉ c.calls)
    (as : List Action) : call ∉ (as.foldl Client.act c).calls := by
  induction as generalizing c with
  | nil => exact hnot
  | cons a as ih =>
    cases a with
    | cancel other =>
      rw [List.foldl_cons, Client.act]
      split_ifs
      · exact ih hlt fun hmem => hnot (List.mem_of_mem_erase hmem)
      · exact ih hlt hnot
    | call breaks =>
      rw [List.foldl_cons, Client.act]
      split_ifs
      · exact ih hlt hnot
      · refine ih (Nat.lt_succ_of_lt hlt) fun hmem => ?_
        rcases List.mem_append.mp hmem with hmem | hmem
        · exact hnot hmem
        · rw [List.mem_singleton.mp hmem] at hlt
          exact Nat.lt_irrefl _ hlt

theorem not_mem_of_cancel (hgood : c.Good n) (hlt : call < c.nextCall)
    {as : List Action} (hcancel : Action.cancel call ∈ as) :
    call ∉ (as.foldl Client.act c).calls := by
  induction as generalizing c with
  | nil => exact absurd hcancel List.not_mem_nil
  | cons a as ih =>
    rw [List.foldl_cons]
    have hnext : c.nextCall ≤ (c.act a).nextCall := by
      cases a with
      | cancel other =>
        rw [Client.act]
        split_ifs <;> exact le_refl _
      | call breaks =>
        rw [Client.act]
        split_ifs
        · exact le_refl _
        · exact Nat.le_succ _
    rcases List.mem_cons.mp hcancel with rfl | hrest
    · refine not_mem_acts (Nat.lt_of_lt_of_le hlt hnext) ?_ as
      rw [Client.act]
      split_ifs with hmem
      · exact hgood.nodup.not_mem_erase
      · exact hmem
    · exact ih (hgood.act a) (Nat.lt_of_lt_of_le hlt hnext) hrest

theorem head?_acts (hhead : c.calls.head? = some call) {as : List Action}
    (hcancel : Action.cancel call ∉ as) : (as.foldl Client.act c).calls.head? = some call := by
  obtain ⟨rest, hcalls⟩ : ∃ rest, c.calls = call :: rest := by
    cases hc : c.calls with
    | nil => simp [hc] at hhead
    | cons first rest =>
      rw [hc, List.head?_cons, Option.some.injEq] at hhead
      exact ⟨rest, by rw [hhead]⟩
  clear hhead
  induction as generalizing c rest with
  | nil => rw [List.foldl_nil, hcalls, List.head?_cons]
  | cons a as ih =>
    rw [List.foldl_cons]
    have hrest : Action.cancel call ∉ as := fun h => hcancel (List.mem_cons_of_mem a h)
    cases a with
    | cancel other =>
      have hne : call ≠ other := by
        rintro rfl
        exact hcancel List.mem_cons_self
      rw [Client.act]
      split_ifs
      · refine ih hrest (rest.erase other) ?_
        simp only [hcalls]
        rw [List.erase_cons_tail (by simpa using hne)]
      · exact ih hrest rest hcalls
    | call breaks =>
      rw [Client.act]
      split_ifs
      · exact ih hrest rest hcalls
      · exact ih hrest (rest ++ [c.nextCall]) (by simp [hcalls])

theorem next_head {rest : List ℕ} (hcalls : c.calls = rb :: rest) :
    next c.calls rb = rest.head? := by
  rw [hcalls, next, if_pos rfl]

theorem mem_of_next {l : List ℕ} (h : next l rb = some nrb) : nrb ∈ l := by
  induction l with
  | nil => exact absurd h (by simp [next])
  | cons call l ih =>
    rw [next] at h
    split_ifs at h
    · exact List.mem_cons_of_mem call (List.mem_of_mem_head? h)
    · exact List.mem_cons_of_mem call (ih h)

/-- What holds before each pass: the call to finish is the one in front, and where the loop is at
its end none of the `n` calls is left. -/
structure Reached (c : Client) (rb : Option ℕ) (n : ℕ) : Prop where
  good : c.Good n
  front : ∀ call, rb = some call → c.calls.head? = some call
  done : rb = none → ∀ call ∈ c.calls, n ≤ call

theorem reached_outstanding (n : ℕ) (ateof : Bool) :
    Reached (.outstanding n ateof) (Client.outstanding n ateof).calls.head? n where
  good := Client.good_outstanding n ateof
  front _ h := h
  done h := by
    rw [List.head?_eq_none_iff] at h
    rw [h]
    exact fun _ hmem => absurd hmem List.not_mem_nil

/-- How many of the `n` calls are left. -/
def left (c : Client) (n : ℕ) : ℕ := c.calls.countP fun call => call < n

theorem left_acts (h : c.Good n) (as : List Action) : left (as.foldl Client.act c) n ≤ left c n := by
  induction as generalizing c with
  | nil => exact le_refl _
  | cons a as ih =>
    refine Nat.le_trans (ih (h.act a)) ?_
    cases a with
    | cancel other =>
      rw [Client.act]
      split_ifs
      · exact List.Sublist.countP_le List.erase_sublist
      · exact le_refl _
    | call breaks =>
      rw [Client.act]
      split_ifs
      · exact le_refl _
      · have hnext := h.le_next
        simp [left, List.countP_append, Nat.not_lt.mpr hnext]

/-- The step lemma: a pass whose callback leaves the saved call alone does not touch a deleted call,
and one call less is left, or none. -/
theorem Reached.failStep (h : Reached c (some call) n)
    (hspares : ∀ nrb, next c.calls call = some nrb → Action.cancel nrb ∉ acts call) :
    ∃ c' nrb, Aclnt.failStep acts c call = some (c', nrb) ∧ Reached c' nrb n ∧
      left c' n ≤ left c n - 1 := by
  have hhead := h.front call rfl
  obtain ⟨rest, hcalls⟩ : ∃ rest, c.calls = call :: rest := by
    cases hc : c.calls with
    | nil => simp [hc] at hhead
    | cons first rest =>
      rw [hc, List.head?_cons, Option.some.injEq] at hhead
      exact ⟨rest, by rw [hhead]⟩
  have hmem : call ∈ c.calls := hcalls ▸ List.mem_cons_self
  have herase : c.calls.erase call = rest := by
    rw [hcalls, List.erase_cons_head]
  have hsorted := h.good.sorted
  rw [hcalls, List.pairwise_cons] at hsorted
  have hgood : (c.finish acts call).Good n := h.good.finish hmem
  have hleft : left (c.finish acts call) n ≤ rest.countP fun call => call < n := by
    rw [← herase]
    exact left_acts (h.good.deleted hmem) (acts call)
  refine ⟨c.finish acts call, next c.calls call, if_pos hmem, ⟨hgood, ?_, ?_⟩, ?_⟩
  · intro nrb hnrb
    have hspare := hspares nrb hnrb
    rw [next_head hcalls] at hnrb
    refine head?_acts ?_ hspare
    rw [herase]
    exact hnrb
  · intro hnone x hx
    rw [next_head hcalls, List.head?_eq_none_iff] at hnone
    rw [hnone, List.countP_nil, Nat.le_zero, left, List.countP_eq_zero] at hleft
    simpa using hleft x hx
  · refine Nat.le_trans hleft ?_
    rw [left, hcalls, List.countP_cons]
    split_ifs with hlt
    · exact Nat.le_refl _
    · -- the calls behind have still higher numbers
      have hnone : (rest.countP fun call => call < n) = 0 := by
        refine List.countP_eq_zero.mpr fun x hx => ?_
        have hgt := hsorted.1 x hx
        simp only [decide_eq_true_eq] at hlt ⊢
        omega
      rw [hnone]

theorem failLoop_none (k : ℕ) (c : Client) : failLoop acts k c none = some (c, none) := by
  cases k <;> rfl

theorem failLoop_succ (k : ℕ) (c : Client) (rb : Option ℕ) :
    failLoop acts (k + 1) c rb = (failLoop acts k c rb).bind fun r => failLoop acts 1 r.1 r.2 := by
  induction k generalizing c rb with
  | zero =>
    rw [failLoop.eq_def acts 0]
    rfl
  | succ k ih =>
    cases rb with
    | none => rw [failLoop_none, failLoop_none, Option.bind_some, failLoop_none]
    | some call =>
      rw [failLoop, failLoop]
      cases Aclnt.failStep acts c call with
      | none => rfl
      | some r => exact ih r.1 r.2

theorem reached_fail {ateof : Bool} (h : SparesNext acts n ateof) (k : ℕ) :
    ∃ c rb, fail acts k (.outstanding n ateof) = some (c, rb) ∧ Reached c rb n ∧
      left c n ≤ n - k := by
  induction k with
  | zero =>
    refine ⟨_, _, rfl, reached_outstanding n ateof, ?_⟩
    exact Nat.le_trans List.countP_le_length (Nat.le_of_eq List.length_range)
  | succ k ih =>
    obtain ⟨c, rb, hfail, hreached, hleft⟩ := ih
    rw [fail, failLoop_succ]
    rw [fail] at hfail
    rw [hfail, Option.bind_some]
    cases rb with
    | none =>
      refine ⟨c, none, rfl, hreached, ?_⟩
      have hzero : left c n = 0 := by
        rw [left, List.countP_eq_zero]
        intro x hx
        have hge := hreached.done rfl x hx
        simp only [decide_eq_true_eq]
        omega
      omega
    | some call =>
      obtain ⟨c', nrb, hstep, hreached', hless⟩ :=
        hreached.failStep fun nrb hnrb => h k c call nrb hfail hnrb
      refine ⟨c', nrb, ?_, hreached', by omega⟩
      simp only [failLoop, hstep, Option.bind_eq_bind, Option.bind_some]

theorem good_fail {ateof : Bool} (k : ℕ) {rb : Option ℕ}
    (h : fail acts k (.outstanding n ateof) = some (c, rb)) : c.Good n := by
  induction k generalizing c rb with
  | zero =>
    obtain ⟨rfl, -⟩ := Prod.mk.inj (Option.some.inj h)
    exact Client.good_outstanding n ateof
  | succ k ih =>
    rw [fail, failLoop_succ] at h
    obtain ⟨⟨d, call⟩, hd, hlast⟩ := Option.bind_eq_some_iff.mp h
    have hgood := ih hd
    cases call with
    | none =>
      obtain ⟨rfl, -⟩ := Prod.mk.inj (Option.some.inj hlast)
      exact hgood
    | some call =>
      obtain ⟨⟨d', call'⟩, hstep, hend⟩ := Option.bind_eq_some_iff.mp hlast
      obtain ⟨rfl, -⟩ := Prod.mk.inj (Option.some.inj hend)
      rw [Aclnt.failStep] at hstep
      split_ifs at hstep with hmem
      obtain ⟨rfl, -⟩ := Prod.mk.inj (Option.some.inj hstep)
      exact hgood.finish hmem

/-- For every behaviour of the callbacks: `fail` touches no deleted call and finishes each call that
nobody cancels exactly once, if and only if no callback that it runs cancels the call that stands
behind its own in the queue. -/
theorem failsAll_iff (acts : ℕ → List Action) (n : ℕ) (ateof : Bool) :
    FailsAll acts n ateof ↔ SparesNext acts n ateof := by
  constructor
  · rintro ⟨hsome, -⟩ k c rb nrb hfail hnext hcancel
    have hgood := good_fail k hfail
    have hstep := hsome (k + 1)
    have hafter := hsome (k + 2)
    rw [fail, failLoop_succ] at hstep hafter
    rw [fail] at hfail
    rw [failLoop_succ, hfail, Option.bind_some] at hafter
    by_cases hmem : rb ∈ c.calls
    · have hgone : nrb ∉ (c.finish acts rb).calls :=
        not_mem_of_cancel (hgood.deleted hmem)
          (hgood.lt_next nrb (mem_of_next hnext)) hcancel
      simp [failLoop, Aclnt.failStep, hmem, hnext, hgone] at hafter
    · simp [failLoop, Aclnt.failStep, hmem] at hafter
  · intro h
    refine ⟨fun k => ?_, n, fun k hk c rb hfail call hcall => ?_⟩
    · obtain ⟨c, rb, hfail, -⟩ := reached_fail h k
      rw [hfail]
      rfl
    · obtain ⟨c', rb', hfail', hreached, hleft⟩ := reached_fail h k
      obtain ⟨rfl, -⟩ := Prod.mk.inj (Option.some.inj (hfail.symm.trans hfail'))
      have hcount := hreached.good.count call hcall
      have hzero : c.calls.count call = 0 := by
        have hnone : left c n = 0 := by
          omega
        rw [left, List.countP_eq_zero] at hnone
        refine List.count_eq_zero.mpr fun hmem => ?_
        have hge := hnone call hmem
        simp only [decide_eq_true_eq] at hge
        exact hge hcall
      split_ifs with hcancelled
      · have hpos := List.count_pos_iff.mpr hcancelled
        omega
      · rw [List.count_eq_zero.mpr hcancelled] at hcount
        omega

/-- Two calls, and the callback of the first cancels the second. -/
theorem fail_cancel_next : ¬ ∀ (acts : ℕ → List Action) (n : ℕ) (ateof : Bool),
    FailsAll acts n ateof := by
  intro h
  have hsome := (h (fun call => if call = 0 then [.cancel 1] else []) 2 true).1 2
  revert hsome
  decide

end Sfslite.Arpc.Aclnt
