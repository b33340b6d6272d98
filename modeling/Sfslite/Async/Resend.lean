import Sfslite.Async.IhashRun

/-!
The loops over the requests of a resolver: `resolver::cantsend` and `resolver::resend` of `dns.C`.
They read the next request before they go on with one, and what that leads to may delete it.
-/

namespace Sfslite.Async.Dns

open Ihash (Core Hash Stop)

/-- What happens while a request is failed or sent: one is deleted, by `dnsreq_cancel` or by a loop
further in; one is made, with the hash of its id; or the sockets change. -/
inductive Action where
  | delete (q : ℕ)
  | make (id : Hash)
  | socks (udpsock tcpsock : Bool)
deriving DecidableEq, Repr

/-- Why a loop does not come to its end: it goes to a request that was deleted, or there is a fault
in the table. -/
inductive Fault where
  | freed
  | table (stop : Stop)
deriving DecidableEq, Repr

/-- The requests are numbered. `handled` are those that the loop has gone on with, and `gone` those
that were deleted before that. -/
structure Resolver where
  reqtab : Core
  usetcp : List ℕ
  udpsock : Bool
  tcpsock : Bool
  destroyed : Bool
  nextReq : ℕ
  handled : List ℕ
  gone : List ℕ

namespace Resolver

def reqs (s : Resolver) : List ℕ := s.reqtab.live.map Prod.fst

def table (s : Resolver) (e : Ihash.Event) : Except Fault Resolver :=
  match Ihash.call s.reqtab e with
  | .ok reqtab => .ok { s with reqtab := reqtab }
  | .error stop => .error (.table stop)

def act (s : Resolver) : Action → Except Fault Resolver
  | .delete q =>
    if q ∈ s.reqs then
      ({ s with gone := if q ∈ s.handled then s.gone else s.gone ++ [q] } : Resolver).table
        (.remove q)
    else .ok s
  | .make id => { s with nextReq := s.nextReq + 1 }.table (.insertVal s.nextReq id)
  | .socks udpsock tcpsock => .ok { s with udpsock := udpsock, tcpsock := tcpsock }

end Resolver

/-- `cantsend ()` and `resend (udp, tcp)`. -/
inductive Loop where
  | cantsend
  | resend (udp tcp : Bool)
deriving DecidableEq, Repr

/-- What a loop does with a request: `failreq`, `sendreq`, another start in the retransmission
queue, or nothing. -/
inductive Handling where
  | failreq
  | sendreq
  | restart
  | skip
deriving DecidableEq, Repr

def Loop.handling (s : Resolver) (r : ℕ) : Loop → Handling
  | .cantsend => .failreq
  | .resend udp tcp =>
    if r ∈ s.usetcp then
      if tcp && s.tcpsock then .sendreq
      else if tcp then .failreq
      else .skip
    else if udp && s.udpsock then .restart
    else .skip

/-- `acts` has what happens while a request is failed or sent. One that was failed is deleted when
its callback returns. -/
def handle (acts : ℕ → List Action) (loop : Loop) (s : Resolver) (r : ℕ) : Except Fault Resolver :=
  let how := loop.handling s r
  let s := { s with handled := s.handled ++ [r] }
  match how with
  | .skip => .ok s
  | .sendreq => (acts r).foldlM Resolver.act s
  | .restart => (acts r).foldlM Resolver.act s
  | .failreq => do
      let s ← (acts r).foldlM Resolver.act s
      -- delete this
      if r ∈ s.reqs then s.table (.remove r) else .error .freed

/-- One turn, with `nr`. -/
def turn (acts : ℕ → List Action) (loop : Loop) (s : Resolver) (r : ℕ) :
    Except Fault (Resolver × Option ℕ) :=
  if r ∈ s.reqs then
    match s.reqtab.next r with
    | .error stop => .error (.table stop)
    | .ok nr => do
        let s ← handle acts loop s r
        .ok (s, nr)
  else .error .freed

/-- Some turns, or fewer where the loop ends before. -/
def turns (acts : ℕ → List Action) (loop : Loop) :
    ℕ → Resolver → Option ℕ → Except Fault (Resolver × Option ℕ)
  | 0, s, r => .ok (s, r)
  | _ + 1, s, none => .ok (s, none)
  | k + 1, s, some r =>
    if s.destroyed then .ok (s, none)
    else do
      let (s, nr) ← turn acts loop s r
      turns acts loop k s nr

/-- A loop, up to its turn `k`. -/
def run (acts : ℕ → List Action) (loop : Loop) (k : ℕ) (s : Resolver) :
    Except Fault (Resolver × Option ℕ) :=
  match s.reqtab.first with
  | .error stop => .error (.table stop)
  | .ok r => turns acts loop k s r

/-- The loop comes to its end without going to a deleted request, and it has gone on with each of
the requests once that were there when it started and were not deleted before. -/
def HandlesAll (acts : ℕ → List Action) (loop : Loop) (s : Resolver) : Prop :=
  ∃ k s', run acts loop k s = .ok (s', none) ∧
    ∀ q ∈ s.reqs, s'.handled.count q = if q ∈ s'.gone then 0 else 1

/-- While a request is handled nobody deletes the next one, nor the one that is failed. -/
def Spares (acts : ℕ → List Action) (loop : Loop) (s : Resolver) : Prop :=
  ∀ k s' r, run acts loop k s = .ok (s', some r) → loop.handling s' r ≠ .skip →
    (∀ nr, s'.reqtab.next r = .ok (some nr) → Action.delete nr ∉ acts r) ∧
      (loop.handling s' r = .failreq → Action.delete r ∉ acts r)

/-- The table has room for each request that is made in between. -/
def HasRoom : Resolver → List Action → Prop
  | _, [] => True
  | s, a :: as =>
    (∀ id, a = .make id → s.reqtab.t.entries + 1 < s.reqtab.t.buckets) ∧
      ∀ s', s.act a = .ok s' → HasRoom s' as

/-- The table does not grow while the loop runs. -/
def Roomy (acts : ℕ → List Action) (loop : Loop) (s : Resolver) : Prop :=
  ∀ k s' r, run acts loop k s = .ok (s', some r) →
    HasRoom { s' with handled := s'.handled ++ [r] } (acts r)

/-- The loop starts: the table is what some calls of it have left. -/
structure Outstanding (s : Resolver) : Prop where
  table : ∃ m s₀ es, Ihash.construct m = .ok s₀ ∧
    Lib.Run Ihash.step (fun s e => Ihash.Allowed s e ∧ Ihash.InTable s e) s₀ es s.reqtab
  old : ∀ q ∈ s.reqs, q < s.nextReq
  alive : s.destroyed = false
  handled : s.handled = []
  gone : s.gone = []

open Ihash (Wf Kept behind bucketOf tailOf)

/-- Each of the requests of the start is handled once, gone, or still to come. -/
structure Resolver.Account (s : Resolver) (start : List ℕ) : Prop where
  old : ∀ q ∈ s.reqs, q < s.nextReq
  early : ∀ q ∈ start, q < s.nextReq
  count : ∀ q ∈ start, s.handled.count q + s.gone.count q +
    (if q ∈ s.reqs ∧ q ∉ s.handled then 1 else 0) = 1

/-- What some actions leave alone. -/
structure Later (s s' : Resolver) : Prop where
  handled : s'.handled = s.handled
  destroyed : s'.destroyed = s.destroyed
  nextReq : s.nextReq ≤ s'.nextReq
  reqs : ∀ q ∈ s'.reqs, q ∈ s.reqs ∨ s.nextReq ≤ q

variable {acts : ℕ → List Action} {loop : Loop} {s s' s'' : Resolver} {L L' : List ℕ}
  {start : List ℕ} {n r : ℕ}

theorem Later.refl (s : Resolver) : Later s s :=
  ⟨rfl, rfl, le_rfl, fun _ hq => Or.inl hq⟩

theorem Later.trans (h : Later s s') (h' : Later s' s'') : Later s s'' where
  handled := h'.handled.trans h.handled
  destroyed := h'.destroyed.trans h.destroyed
  nextReq := h.nextReq.trans h'.nextReq
  reqs q hq := by
    rcases h'.reqs q hq with hq | hq
    · exact h.reqs q hq
    · exact Or.inr (h.nextReq.trans hq)

theorem mem_reqs_iff (h : Wf s.reqtab L) : n ∈ s.reqs ↔ n ∈ L :=
  h.perm.mem_iff.symm

theorem table_remove (h : Wf s.reqtab L) (hn : n ∈ L) : ∃ s' : Resolver,
    s.table (.remove n) = .ok s' ∧ Wf s'.reqtab (L.filter (· ≠ n)) ∧ Later s s' ∧
      s'.gone = s.gone ∧ (∀ q, q ∈ s'.reqs ↔ q ∈ s.reqs ∧ q ≠ n) ∧
      ∀ m ∈ L, m ≠ n → Kept s.nextReq s.reqtab L s'.reqtab (L.filter (· ≠ n)) m := by
  obtain ⟨reqtab, hcall, hwf, hbuckets, hlive, hbucket⟩ := h.remove_walk hn
  have hreqs : ∀ q, q ∈ ({ s with reqtab := reqtab } : Resolver).reqs ↔ q ∈ s.reqs ∧ q ≠ n := by
    intro q
    rw [mem_reqs_iff (s := { s with reqtab := reqtab }) hwf, mem_reqs_iff h, List.mem_filter,
      decide_eq_true_eq]
  refine ⟨{ s with reqtab := reqtab }, by rw [Resolver.table, hcall], hwf, ?_, rfl, hreqs, ?_⟩
  · exact ⟨rfl, rfl, le_rfl, fun q hq => Or.inl ((hreqs q).mp hq).1⟩
  · intro m hm hne
    exact h.remove_kept hwf hm hne hbuckets hbucket s.nextReq

theorem act_make (h : Wf s.reqtab L) (hacc : s.Account start) (id : Hash)
    (hroom : s.reqtab.t.entries + 1 < s.reqtab.t.buckets) : ∃ s' : Resolver,
    s.act (.make id) = .ok s' ∧ Wf s'.reqtab (s.nextReq :: L) ∧ s'.Account start ∧ Later s s' ∧
      ∀ m ∈ L, Kept s.nextReq s.reqtab L s'.reqtab (s.nextReq :: L) m := by
  have hnew : s.nextReq ∉ s.reqs := fun hmem => Nat.lt_irrefl _ (hacc.old _ hmem)
  have hnewL : s.nextReq ∉ L := fun hmem => hnew ((mem_reqs_iff h).mpr hmem)
  obtain ⟨reqtab, hcall, hwf, hbuckets, hlive, hbucket⟩ := h.insert_room id hnew hroom
  have hreqs : ∀ q, q ∈ ({ s with nextReq := s.nextReq + 1, reqtab := reqtab } : Resolver).reqs ↔
      q = s.nextReq ∨ q ∈ s.reqs := by
    intro q
    rw [mem_reqs_iff (s := { s with nextReq := s.nextReq + 1, reqtab := reqtab }) hwf,
      mem_reqs_iff h, List.mem_cons]
  refine ⟨{ s with nextReq := s.nextReq + 1, reqtab := reqtab }, ?_, hwf, ⟨?_, ?_, ?_⟩,
    ⟨rfl, rfl, Nat.le_succ _, ?_⟩, ?_⟩
  · simp only [Resolver.act, Resolver.table, hcall]
  · intro q hq
    rcases (hreqs q).mp hq with rfl | hq
    · exact Nat.lt_succ_self _
    · exact Nat.lt_succ_of_lt (hacc.old q hq)
  · intro q hq
    exact Nat.lt_succ_of_lt (hacc.early q hq)
  · intro q hq
    have hne : q ≠ s.nextReq := Nat.ne_of_lt (hacc.early q hq)
    simpa only [hreqs, hne, false_or] using hacc.count q hq
  · intro q hq
    rcases (hreqs q).mp hq with rfl | hq
    · exact Or.inr le_rfl
    · exact Or.inl hq
  · intro m hm
    exact h.insert_kept hwf hm hnewL hbuckets hbucket

theorem act_delete (h : Wf s.reqtab L) (hacc : s.Account start) (n : ℕ) : ∃ s' : Resolver,
    s.act (.delete n) = .ok s' ∧ Wf s'.reqtab (L.filter (· ≠ n)) ∧ s'.Account start ∧
      Later s s' ∧ ∀ m ∈ L, m ≠ n →
        Kept s.nextReq s.reqtab L s'.reqtab (L.filter (· ≠ n)) m := by
  by_cases hn : n ∈ s.reqs
  · let s₁ : Resolver := { s with gone := if n ∈ s.handled then s.gone else s.gone ++ [n] }
    have h₁ : Wf s₁.reqtab L := h
    obtain ⟨s', htable, hwf, hlater, hgone, hreqs, hkept⟩ :=
      table_remove h₁ ((mem_reqs_iff h).mp hn)
    have hlater' : Later s s' := { hlater with }
    refine ⟨s', ?_, hwf, ⟨?_, ?_, ?_⟩, hlater', hkept⟩
    · rw [Resolver.act, if_pos hn]
      exact htable
    · intro q hq
      exact (hacc.old q ((hreqs q).mp hq).1).trans_le hlater.nextReq
    · intro q hq
      exact (hacc.early q hq).trans_le hlater.nextReq
    · intro q hq
      have hcount := hacc.count q hq
      have hreqs₁ : q ∈ s₁.reqs ↔ q ∈ s.reqs := Iff.rfl
      rw [hgone, hlater'.handled]
      simp only [hreqs, hreqs₁]
      by_cases hqn : q = n
      · subst hqn
        by_cases hhandled : q ∈ s.handled
        · simpa [s₁, hn, hhandled] using hcount
        · simp only [hn, hhandled, not_false_eq_true, and_self, if_true] at hcount
          simp only [s₁, hhandled, if_false, List.count_append, List.count_singleton_self, ne_eq,
            not_true_eq_false, and_false, false_and]
          omega
      · have hnot : ¬ n = q := fun heq => hqn heq.symm
        by_cases hhandled : n ∈ s.handled
        · simpa [s₁, hqn, hhandled] using hcount
        · simpa [s₁, hqn, hnot, hhandled, List.count_singleton] using hcount
  · have hfilter : L.filter (· ≠ n) = L := by
      refine List.filter_eq_self.mpr fun q hq => ?_
      have hne : q ≠ n := by
        rintro rfl
        exact hn ((mem_reqs_iff h).mpr hq)
      simpa using hne
    rw [hfilter]
    refine ⟨s, ?_, h, hacc, .refl s, fun m hm _ => .refl hm⟩
    rw [Resolver.act, if_neg hn]

theorem acts_spec (h : Wf s.reqtab L) (hacc : s.Account start) {as : List Action}
    (hroom : HasRoom s as) : ∃ (s' : Resolver) (L' : List ℕ),
    as.foldlM Resolver.act s = .ok s' ∧ Wf s'.reqtab L' ∧ s'.Account start ∧ Later s s' ∧
      (∀ m ∈ L, Action.delete m ∉ as → Kept s.nextReq s.reqtab L s'.reqtab L' m) ∧
      ∀ m < s.nextReq, Action.delete m ∈ as → m ∉ s'.reqs := by
  induction as generalizing s L with
  | nil =>
    exact ⟨s, L, rfl, h, hacc, .refl s, fun m hm _ => .refl hm,
      fun m _ hmem => absurd hmem List.not_mem_nil⟩
  | cons a as ih =>
    have hone : ∃ (s₁ : Resolver) (L₁ : List ℕ), s.act a = .ok s₁ ∧ Wf s₁.reqtab L₁ ∧
        s₁.Account start ∧ Later s s₁ ∧
        (∀ m ∈ L, a ≠ .delete m → Kept s.nextReq s.reqtab L s₁.reqtab L₁ m) ∧
        ∀ m, a = .delete m → m ∉ L₁ := by
      cases a with
      | delete n =>
        obtain ⟨s₁, hact, hwf, hacc₁, hlater, hkept⟩ := act_delete h hacc n
        refine ⟨s₁, _, hact, hwf, hacc₁, hlater, ?_, ?_⟩
        · intro m hm hne
          exact hkept m hm fun heq => hne (by rw [heq])
        · rintro m ⟨⟩
          simp
      | make id =>
        obtain ⟨s₁, hact, hwf, hacc₁, hlater, hkept⟩ := act_make h hacc id (hroom.1 id rfl)
        exact ⟨s₁, _, hact, hwf, hacc₁, hlater, fun m hm _ => hkept m hm, by simp⟩
      | socks udpsock tcpsock =>
        refine ⟨_, L, rfl, h, { hacc with },
          ⟨rfl, rfl, le_rfl, fun _ hq => Or.inl hq⟩, fun m hm _ => .refl hm, by simp⟩
    obtain ⟨s₁, L₁, hact, hwf₁, hacc₁, hlater₁, hkept₁, hgone₁⟩ := hone
    obtain ⟨s', L', hacts, hwf, hacc', hlater, hkept, hgone⟩ := ih hwf₁ hacc₁ (hroom.2 s₁ hact)
    have hback : ∀ q ∈ L, q ∈ L' → q ∈ L₁ := by
      intro q hq hq'
      rcases hlater.reqs q ((mem_reqs_iff hwf).mpr hq') with hmem | hle
      · exact (mem_reqs_iff hwf₁).mp hmem
      · have := hacc.old q ((mem_reqs_iff h).mpr hq)
        have := hlater₁.nextReq
        omega
    refine ⟨s', L', ?_, hwf, hacc', hlater₁.trans hlater, ?_, ?_⟩
    · rw [List.foldlM_cons, hact]
      exact hacts
    · intro m hm hnot
      rw [List.mem_cons, not_or] at hnot
      have h₁ := hkept₁ m hm fun heq => hnot.1 heq.symm
      exact h₁.trans ((hkept m h₁.mem hnot.2).mono hlater₁.nextReq) hback
        fun q hq => h.mem_of_behind hq
    · intro m hm hmem
      rcases List.mem_cons.mp hmem with heq | hmem
      · intro hreq
        rcases hlater.reqs m hreq with hin | hle
        · exact hgone₁ m heq.symm ((mem_reqs_iff hwf₁).mp hin)
        · have := hlater₁.nextReq
          omega
      · exact hgone m (hm.trans_le hlater₁.nextReq) hmem

theorem Resolver.Account.handled (hacc : s.Account start) (hr : r ∈ s.reqs) (hnew : r ∉ s.handled) :
    Account { s with handled := s.handled ++ [r] } start := by
  refine ⟨hacc.old, hacc.early, fun q hq => ?_⟩
  have hcount := hacc.count q hq
  have hreqs : q ∈ ({ s with handled := s.handled ++ [r] } : Resolver).reqs ↔ q ∈ s.reqs := Iff.rfl
  simp only [hreqs, List.count_append, List.mem_append, List.mem_singleton]
  by_cases hqr : q = r
  · subst hqr
    simp only [hr, hnew, not_false_eq_true, and_self, if_true] at hcount
    simp only [List.count_singleton_self, or_true, not_true_eq_false, and_false, if_false]
    omega
  · have hnot : ¬ r = q := fun heq => hqr heq.symm
    simpa [List.count_singleton, hqr, hnot] using hcount

variable (loop) in
/-- The request `r` is handled, and what is behind another one stays there unless that is deleted.
One that is failed and deleted before its callback returns is deleted again. -/
theorem handle_spec (h : Wf s.reqtab L) (hacc : s.Account start) (hr : r ∈ L)
    (hnew : r ∉ s.handled) (hroom : HasRoom { s with handled := s.handled ++ [r] } (acts r)) :
    (loop.handling s r = .failreq ∧ Action.delete r ∈ acts r ∧
        handle acts loop s r = .error .freed) ∨
      (loop.handling s r = .failreq → Action.delete r ∉ acts r) ∧
      ∃ (s' : Resolver) (L' : List ℕ), handle acts loop s r = .ok s' ∧ Wf s'.reqtab L' ∧
        s'.Account start ∧ Later { s with handled := s.handled ++ [r] } s' ∧
        (∀ m ∈ L, m ≠ r → (loop.handling s r ≠ .skip → Action.delete m ∉ acts r) →
          Kept s.nextReq s.reqtab L s'.reqtab L' m) ∧
        ∀ m ∈ L, loop.handling s r ≠ .skip → Action.delete m ∈ acts r → m ∉ s'.reqs := by
  have hrs : r ∈ s.reqs := (mem_reqs_iff h).mpr hr
  have h₁ : Wf ({ s with handled := s.handled ++ [r] } : Resolver).reqtab L := h
  have hacc₁ := hacc.handled hrs hnew
  obtain ⟨s', L', hacts, hwf, hacc', hlater, hkept, hgone⟩ := acts_spec h₁ hacc₁ hroom
  have hold : ∀ m ∈ L, m < s.nextReq := fun m hm => hacc.old m ((mem_reqs_iff h).mpr hm)
  cases hhow : loop.handling s r with
  | skip =>
    refine Or.inr ⟨by simp, { s with handled := s.handled ++ [r] }, L, ?_, h₁, hacc₁, .refl _,
      fun m hm _ _ => .refl hm, by simp⟩
    rw [handle, hhow]
  | sendreq =>
    refine Or.inr ⟨by simp, s', L', ?_, hwf, hacc', hlater,
      fun m hm _ hnot => hkept m hm (hnot (by simp)),
      fun m hm _ hmem => hgone m (hold m hm) hmem⟩
    rw [handle, hhow]
    exact hacts
  | restart =>
    refine Or.inr ⟨by simp, s', L', ?_, hwf, hacc', hlater,
      fun m hm _ hnot => hkept m hm (hnot (by simp)),
      fun m hm _ hmem => hgone m (hold m hm) hmem⟩
    rw [handle, hhow]
    exact hacts
  | failreq =>
    by_cases hdel : Action.delete r ∈ acts r
    · refine Or.inl ⟨rfl, hdel, ?_⟩
      rw [handle, hhow]
      simp only [hacts, bind, Except.bind, if_neg (hgone r (hold r hr) hdel)]
    · have hr' : r ∈ L' := (hkept r hr hdel).mem
      obtain ⟨s'', htable, hwf'', hlater'', hgone'', hreqs, hkept''⟩ := table_remove hwf hr'
      have hhandled : r ∈ s'.handled := by
        rw [hlater.handled]
        simp
      refine Or.inr ⟨fun _ => hdel, s'', _, ?_, hwf'', ⟨?_, ?_, ?_⟩, hlater.trans hlater'', ?_,
        ?_⟩
      · rw [handle, hhow]
        simp only [hacts, bind, Except.bind, if_pos ((mem_reqs_iff hwf).mpr hr'), htable]
      · intro q hq
        exact (hacc'.old q ((hreqs q).mp hq).1).trans_le hlater''.nextReq
      · intro q hq
        exact (hacc'.early q hq).trans_le hlater''.nextReq
      · intro q hq
        have hcount := hacc'.count q hq
        rw [hlater''.handled, hgone'']
        by_cases hqr : q = r
        · subst hqr
          simpa [hreqs, hhandled] using hcount
        · simpa [hreqs, hqr] using hcount
      · intro m hm hne hnot
        have hm' := hkept m hm (hnot (by simp))
        refine hm'.trans ((hkept'' m hm'.mem hne).mono hlater.nextReq) ?_ ?_
        · intro q _ hq
          exact (List.mem_filter.mp hq).1
        · exact fun q hq => h.mem_of_behind hq
      · intro m hm _ hmem hreq
        exact hgone m (hold m hm) hmem ((hreqs m).mp hreq).1

/-- What holds before each turn: the requests that were handled are in front of the one that is to
come, and those of the start that were not are there or behind it. -/
structure Reached (s : Resolver) (L : List ℕ) (r : Option ℕ) (start : List ℕ) : Prop where
  wf : Wf s.reqtab L
  acc : s.Account start
  alive : s.destroyed = false
  old : ∀ q ∈ s.handled, q < s.nextReq
  mem : ∀ n, r = some n → n ∈ L
  front : ∀ n, r = some n → ∀ q ∈ s.handled, q ≠ n ∧ q ∉ behind s.reqtab L n
  todo : ∀ n, r = some n → ∀ q ∈ start, q ∈ s.reqs → q ∉ s.handled →
    q = n ∨ q ∈ behind s.reqtab L n
  done : r = none → ∀ q ∈ start, q ∈ s.reqs → q ∈ s.handled

/-- How far the loop has come: the bucket of the request, and what is behind it there. -/
def Forward (s : Resolver) (L : List ℕ) (r : ℕ) (s' : Resolver) (L' : List ℕ) (n : ℕ) : Prop :=
  s'.reqtab.t.buckets = s.reqtab.t.buckets ∧
    (bucketOf s.reqtab r < bucketOf s'.reqtab n ∨
      bucketOf s.reqtab r = bucketOf s'.reqtab n ∧
        (tailOf s'.reqtab L' n).length < (tailOf s.reqtab L r).length)

variable (loop) in
theorem turn_spec (h : Reached s L (some r) start)
    (hroom : HasRoom { s with handled := s.handled ++ [r] } (acts r)) :
    (loop.handling s r = .failreq ∧ Action.delete r ∈ acts r ∧
        turn acts loop s r = .error .freed) ∨
      (loop.handling s r = .failreq → Action.delete r ∉ acts r) ∧
      ∃ s' nr, turn acts loop s r = .ok (s', nr) ∧ s.reqtab.next r = .ok nr ∧
        ((∃ n, nr = some n ∧ loop.handling s r ≠ .skip ∧ Action.delete n ∈ acts r ∧
            n ∉ s'.reqs ∧ s'.destroyed = false) ∨
          (∀ n, nr = some n → loop.handling s r ≠ .skip → Action.delete n ∉ acts r) ∧
          ∃ L', Reached s' L' nr start ∧ ∀ n, nr = some n → Forward s L r s' L' n) := by
  have hr := h.mem r rfl
  have hrs : r ∈ s.reqs := (mem_reqs_iff h.wf).mpr hr
  have hnew : r ∉ s.handled := fun hmem => (h.front r rfl r hmem).1 rfl
  have hnext := h.wf.next_behind hr
  rcases handle_spec loop h.wf h.acc hr hnew hroom with
    ⟨hhow, hdel, hfreed⟩ | ⟨hsingle, s', L', hhandle, hwf, hacc, hlater, hkept, hgone⟩
  · refine Or.inl ⟨hhow, hdel, ?_⟩
    simp only [turn, if_pos hrs, hnext, hfreed, bind, Except.bind]
  · refine Or.inr ⟨hsingle, s', (behind s.reqtab L r).head?, ?_, hnext, ?_⟩
    · simp only [turn, if_pos hrs, hnext, hhandle, bind, Except.bind]
    have halive : s'.destroyed = false := hlater.destroyed.trans h.alive
    have hhandled : s'.handled = s.handled ++ [r] := hlater.handled
    have hold : ∀ q ∈ s'.handled, q < s.nextReq := by
      intro q hq
      rw [hhandled, List.mem_append, List.mem_singleton] at hq
      rcases hq with hq | rfl
      · exact h.old q hq
      · exact h.acc.old q hrs
    have hback : ∀ q ∈ start, q ∈ s'.reqs → q ∈ s.reqs := by
      intro q hq hreq
      rcases hlater.reqs q hreq with hmem | hle
      · exact hmem
      · exact absurd (h.acc.early q hq) (Nat.not_lt.mpr hle)
    cases hhead : (behind s.reqtab L r).head? with
    | none =>
      refine Or.inr ⟨by simp, L', ⟨hwf, hacc, halive, ?_, by simp, by simp, by simp, ?_⟩,
        by simp⟩
      · exact fun q hq => (hold q hq).trans_le hlater.nextReq
      · intro _ q hq hreq
        rw [hhandled, List.mem_append, List.mem_singleton]
        by_contra hnot
        rw [not_or] at hnot
        rcases h.todo r rfl q hq (hback q hq hreq) hnot.1 with heq | hmem
        · exact hnot.2 heq
        · rw [List.head?_eq_none_iff.mp hhead] at hmem
          exact List.not_mem_nil hmem
    | some n =>
      obtain ⟨hcons, hn, hforward⟩ := h.wf.behind_cons hr hhead
      have hne : n ≠ r := by
        rintro rfl
        exact h.wf.not_mem_behind hr (hcons ▸ List.mem_cons_self)
      by_cases hdel : loop.handling s r ≠ .skip ∧ Action.delete n ∈ acts r
      · exact Or.inl ⟨n, rfl, hdel.1, hdel.2, hgone n hn hdel.1 hdel.2, halive⟩
      · rw [not_and] at hdel
        have hk := hkept n hn hne hdel
        refine Or.inr ⟨?_, L', ⟨hwf, hacc, halive, ?_, ?_, ?_, ?_, by simp⟩, ?_⟩
        · rintro _ ⟨⟩
          exact hdel
        · exact fun q hq => (hold q hq).trans_le hlater.nextReq
        · rintro _ ⟨⟩
          exact hk.mem
        · rintro _ ⟨⟩ q hq
          have hqold := hold q hq
          have hfront : q ∉ n :: behind s.reqtab L n := by
            rw [← hcons]
            rw [hhandled, List.mem_append, List.mem_singleton] at hq
            rcases hq with hq | rfl
            · exact (h.front r rfl q hq).2
            · exact h.wf.not_mem_behind hr
          rw [List.mem_cons, not_or] at hfront
          refine ⟨hfront.1, fun hmem => ?_⟩
          rcases hk.come q hmem with hmem | hle
          · exact hfront.2 hmem
          · omega
        · rintro _ ⟨⟩ q hq hreq hnot
          rw [hhandled, List.mem_append, List.mem_singleton, not_or] at hnot
          rcases h.todo r rfl q hq (hback q hq hreq) hnot.1 with heq | hmem
          · exact absurd heq hnot.2
          · rw [hcons, List.mem_cons] at hmem
            exact hmem.imp id fun hmem => hk.stay q hmem ((mem_reqs_iff hwf).mp hreq)
        · rintro _ ⟨⟩
          refine ⟨hk.buckets, ?_⟩
          rw [hk.bucket]
          rcases hforward with hlater | ⟨hsame, hshort⟩
          · exact Or.inl hlater
          · exact Or.inr ⟨hsame, hk.shorter.trans_lt hshort⟩

theorem turns_none (k : ℕ) (s : Resolver) : turns acts loop k s none = .ok (s, none) := by
  cases k <;> rfl

theorem turns_add (k m : ℕ) (s : Resolver) (r : Option ℕ) :
    turns acts loop (k + m) s r =
      (turns acts loop k s r).bind fun x => turns acts loop m x.1 x.2 := by
  induction k generalizing s r with
  | zero => rw [Nat.zero_add, turns]; rfl
  | succ k ih =>
    rw [Nat.add_right_comm]
    cases r with
    | none => rw [turns_none, turns_none, Except.bind, turns_none]
    | some r =>
      rw [turns, turns]
      split_ifs
      · rw [Except.bind, turns_none]
      · cases hturn : turn acts loop s r with
        | error e => rfl
        | ok x => exact ih x.1 x.2

theorem run_add (k m : ℕ) (s : Resolver) :
    run acts loop (k + m) s = (run acts loop k s).bind fun x => turns acts loop m x.1 x.2 := by
  rw [run, run]
  cases s.reqtab.first with
  | error stop => rfl
  | ok r => exact turns_add k m s r

theorem turns_one (h : s.destroyed = false) (r : ℕ) :
    turns acts loop 1 s (some r) = turn acts loop s r := by
  have hnot : ¬ s.destroyed = true := by simp [h]
  rw [turns, if_neg hnot]
  cases turn acts loop s r <;> rfl

variable (acts loop) in
theorem reached_start (h : Outstanding s) :
    ∃ L r, run acts loop 0 s = .ok (s, r) ∧ Reached s L r s.reqs := by
  obtain ⟨m, s₀, es, hconstruct, hrun⟩ := h.table
  obtain ⟨s₁, h₁, hwf₁⟩ := Ihash.construct_eq m
  cases hconstruct.symm.trans h₁
  obtain ⟨L, hwf⟩ := hwf₁.run hrun
  have hperm : ((List.range' 0 s.reqtab.t.buckets).flatMap (Ihash.chain s.reqtab L)).Perm L := by
    rw [← List.range_eq_range']
    exact hwf.table.buckets.perm fun e _ => hwf.table.key_lt e
  have hfirst := hwf.first_eq
  have hcount : ∀ q ∈ s.reqs, s.handled.count q + s.gone.count q +
      (if q ∈ s.reqs ∧ q ∉ s.handled then 1 else 0) = 1 := by
    intro q hq
    simp [h.handled, h.gone, hq]
  refine ⟨L, _, by rw [run, hfirst]; rfl, hwf, ⟨h.old, h.old, hcount⟩, h.alive, ?_, ?_, ?_, ?_, ?_⟩
  · simp [h.handled]
  · intro n hn
    exact (Wf.flatMap_chain_cons (Nat.zero_add _) hn).2.1
  · simp [h.handled]
  · intro n hn q hq _ _
    have hcons := (Wf.flatMap_chain_cons (Nat.zero_add _) hn).1
    have hmem : q ∈ n :: behind s.reqtab L n := by
      rw [← hcons]
      exact hperm.mem_iff.mpr ((mem_reqs_iff hwf).mp hq)
    exact List.mem_cons.mp hmem
  · intro hnone q hq _
    rw [List.head?_eq_none_iff] at hnone
    have hmem := hperm.mem_iff.mpr ((mem_reqs_iff hwf).mp hq)
    rw [hnone] at hmem
    exact absurd hmem List.not_mem_nil

variable {s₀ s₁ : Resolver}

/-- Where the requests are spared, the loop comes to its end: it goes through a bucket, in which
there are no more requests behind it, and then to one further on. -/
theorem ends_of_spares {k : ℕ} (hspares : Spares acts loop s₀) (hroom : Roomy acts loop s₀)
    (hrun : run acts loop k s₀ = .ok (s, some r)) (h : Reached s L (some r) start) :
    ∃ k' s' L', run acts loop k' s₀ = .ok (s', none) ∧ Reached s' L' none start := by
  obtain ⟨b, hb⟩ : ∃ b, s.reqtab.t.buckets - bucketOf s.reqtab r = b := ⟨_, rfl⟩
  obtain ⟨t, ht⟩ : ∃ t, (tailOf s.reqtab L r).length = t := ⟨_, rfl⟩
  induction b using Nat.strong_induction_on generalizing k s L r t with
  | _ b ihb =>
    induction t using Nat.strong_induction_on generalizing k s L r with
    | _ t iht =>
      rcases turn_spec loop h (hroom k s r hrun) with
        ⟨hhow, hdel, -⟩ | ⟨-, s', nr, hturn, hnext, hcases⟩
      · exact absurd hdel ((hspares k s r hrun (by simp [hhow])).2 hhow)
      have hrun' : run acts loop (k + 1) s₀ = .ok (s', nr) := by
        rw [run_add, hrun]
        exact (turns_one h.alive r).trans hturn
      rcases hcases with ⟨n, rfl, hhow, hdel, -⟩ | ⟨-, L', h', hforward⟩
      · exact absurd hdel ((hspares k s r hrun hhow).1 n hnext)
      cases nr with
      | none => exact ⟨k + 1, s', L', hrun', h'⟩
      | some n =>
        obtain ⟨hbuckets, hlt | ⟨heq, hlt⟩⟩ := hforward n rfl
        · have hless : s'.reqtab.t.buckets - bucketOf s'.reqtab n < b := by
            have := h'.wf.bucketOf_lt n
            omega
          exact ihb _ hless hrun' h' rfl _ rfl
        · have hsame : s'.reqtab.t.buckets - bucketOf s'.reqtab n = b := by
            rw [hbuckets, ← heq, hb]
          exact iht _ (ht ▸ hlt) hrun' h' hsame rfl

theorem Reached.count (h : Reached s L none start) :
    ∀ q ∈ start, s.handled.count q = if q ∈ s.gone then 0 else 1 := by
  intro q hq
  have hcount := h.acc.count q hq
  have hnot : ¬ (q ∈ s.reqs ∧ q ∉ s.handled) := fun hand => hand.2 (h.done rfl q hq hand.1)
  rw [if_neg hnot] at hcount
  split_ifs with hgone
  · have := List.count_pos_iff.mpr hgone
    omega
  · have := List.count_eq_zero.mpr hgone
    omega

theorem not_error {k K : ℕ} {e : Fault}
    (hend : run acts loop K s₀ = .ok (s₁, none)) (hrun : run acts loop k s₀ = .error e) :
    False := by
  rcases Nat.le_total k K with hle | hle
  · obtain ⟨m, rfl⟩ := Nat.exists_eq_add_of_le hle
    rw [run_add, hrun] at hend
    cases hend
  · obtain ⟨m, rfl⟩ := Nat.exists_eq_add_of_le hle
    rw [run_add, hend, Except.bind, turns_none] at hrun
    cases hrun

theorem turn_of_ends {k K : ℕ} (hend : run acts loop K s₀ = .ok (s₁, none))
    (hroom : Roomy acts loop s₀) (hrun : run acts loop k s₀ = .ok (s, some r))
    (h : Reached s L (some r) start) :
    (loop.handling s r = .failreq → Action.delete r ∉ acts r) ∧
      ∃ s' nr, run acts loop (k + 1) s₀ = .ok (s', nr) ∧ s.reqtab.next r = .ok nr ∧
        (∀ n, nr = some n → loop.handling s r ≠ .skip → Action.delete n ∉ acts r) ∧
        ∃ L', Reached s' L' nr start := by
  have hnext : run acts loop (k + 1) s₀ = turn acts loop s r := by
    rw [run_add, hrun]
    exact turns_one h.alive r
  rcases turn_spec loop h (hroom k s r hrun) with
    ⟨-, -, hfreed⟩ | ⟨hsingle, s', nr, hturn, hnr, hcases⟩
  · exact (not_error hend (hnext.trans hfreed)).elim
  · rcases hcases with ⟨n, rfl, -, -, hgone, halive⟩ | ⟨hnot, L', h', -⟩
    · -- the next turn goes to the deleted request
      have hfreed : run acts loop (k + 1 + 1) s₀ = .error .freed := by
        rw [run_add, hnext, hturn, Except.bind, turns_one halive, turn, if_neg hgone]
      exact (not_error hend hfreed).elim
    · exact ⟨hsingle, s', nr, hnext.trans hturn, hnr, hnot, L', h'⟩

theorem reached_of_ends {K : ℕ} (h₀ : Outstanding s₀)
    (hend : run acts loop K s₀ = .ok (s₁, none)) (hroom : Roomy acts loop s₀) (k : ℕ)
    (hrun : run acts loop k s₀ = .ok (s, some r)) : ∃ L, Reached s L (some r) s₀.reqs := by
  induction k generalizing s r with
  | zero =>
    obtain ⟨L, r', hstart, h⟩ := reached_start acts loop h₀
    rw [hstart] at hrun
    cases hrun
    exact ⟨L, h⟩
  | succ k ih =>
    have hprev := hrun
    rw [run_add] at hprev
    cases hk : run acts loop k s₀ with
    | error e => exact (not_error hend hk).elim
    | ok x =>
      obtain ⟨s', r'⟩ := x
      cases r' with
      | none =>
        rw [hk, Except.bind, turns_none] at hprev
        cases hprev
      | some r' =>
        obtain ⟨L, h⟩ := ih hk
        obtain ⟨-, s'', nr, hrun', -, -, L', h'⟩ := turn_of_ends hend hroom hk h
        rw [hrun] at hrun'
        cases hrun'
        exact ⟨L', h'⟩

/-- In a table that does not grow meanwhile, whatever happens while requests are failed or sent: a
loop handles each request once that is not gone before, and goes to no deleted one, if and only if
nobody deletes the request that it has saved as the next one or the one that is failed. -/
theorem loops_handle_all_iff (acts : ℕ → List Action) (loop : Loop) (s : Resolver)
    (hs : Outstanding s) (hroom : Roomy acts loop s) :
    HandlesAll acts loop s ↔ Spares acts loop s := by
  constructor
  · rintro ⟨K, s₁, hend, -⟩ k s' r hrun hskip
    obtain ⟨L, h⟩ := reached_of_ends hs hend hroom k hrun
    obtain ⟨hsingle, s'', nr, -, hnr, hnot, -⟩ := turn_of_ends hend hroom hrun h
    refine ⟨fun n hn => ?_, hsingle⟩
    rw [hnr] at hn
    cases hn
    exact hnot n rfl hskip
  · intro hspares
    obtain ⟨L, r, hrun, h⟩ := reached_start acts loop hs
    cases r with
    | none => exact ⟨0, s, hrun, h.count⟩
    | some r =>
        obtain ⟨k, s', L', hend, h'⟩ := ends_of_spares hspares hroom hrun h
        exact ⟨k, s', hend, h'.count⟩

def outstanding (ids : List Hash) : Option Resolver :=
  (Ihash.trace (fun s e => Ihash.Allowed s e ∧ Ihash.InTable s e)
    (ids.zipIdx.map fun (id, q) => .insertVal q id)).map fun reqtab =>
      ⟨reqtab, [], true, true, false, ids.length, [], []⟩

theorem outstanding_of_eq {ids : List Hash} (h : outstanding ids = some s)
    (hold : ∀ q ∈ s.reqs, q < s.nextReq) : Outstanding s := by
  obtain ⟨reqtab, hreqtab, rfl⟩ := Option.map_eq_some_iff.mp h
  obtain ⟨s₀, h₀, hrun⟩ := Ihash.run_of_trace hreqtab
  exact ⟨⟨Ihash.blank, s₀, _, h₀, hrun⟩, hold, rfl, rfl, rfl⟩

/-- The first request of three cancels the last one. -/
theorem loops_handle_all_iff_cancel : ∃ s, s.reqs = [2, 1, 0] ∧
    (HandlesAll (fun r => if r = 0 then [.delete 2] else []) .cantsend s ↔
      Spares (fun r => if r = 0 then [.delete 2] else []) .cantsend s) := by
  have hex : (outstanding [0, 1, 2]).map (fun s => (s.reqs, s.nextReq)) = some ([2, 1, 0], 3) := by
    decide
  obtain ⟨s, hs, hout⟩ := Option.map_eq_some_iff.mp hex
  obtain ⟨hreqs, hnext⟩ := Prod.mk.inj hout
  have hold : ∀ q ∈ s.reqs, q < s.nextReq := by
    rw [hreqs, hnext]
    decide
  refine ⟨s, hreqs, loops_handle_all_iff _ _ s (outstanding_of_eq hs hold) ?_⟩
  intro k s' r _
  by_cases hr : r = 0
  · simp only [if_pos hr]
    exact ⟨by simp, fun _ _ => trivial⟩
  · simp only [if_neg hr]
    trivial

/-- The callback of a request that is failed cancels the next one. -/
theorem cantsend_goes_to_deleted : ¬ ∀ (acts : ℕ → List Action) (loop : Loop) (s : Resolver),
    Outstanding s → HandlesAll acts loop s := by
  intro h
  have hex : (outstanding [0, 1, 2]).map (fun s => (decide (∀ q ∈ s.reqs, q < s.nextReq),
      (run (fun r => if r = 0 then [.delete 1] else []) .cantsend 2 s).toOption.isNone)) =
      some (true, true) := by
    decide
  obtain ⟨s, hs, hout⟩ := Option.map_eq_some_iff.mp hex
  obtain ⟨hold, hstop⟩ := Prod.mk.inj hout
  obtain ⟨K, s₁, hend, -⟩ := h (fun r => if r = 0 then [.delete 1] else []) .cantsend s
    (outstanding_of_eq hs (of_decide_eq_true hold))
  cases hrun : run (fun r => if r = 0 then [.delete 1] else []) .cantsend 2 s with
  | error e => exact not_error hend hrun
  | ok x =>
      rw [hrun] at hstop
      cases hstop

end Sfslite.Async.Dns
