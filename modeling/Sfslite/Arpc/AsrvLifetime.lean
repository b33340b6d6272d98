import Mathlib.Data.List.Nodup
import Sfslite.Arpc.AsrvUnreliable

/-!
How long the calls of the replay servers live: from the call to the eviction of the reply, the
resumption of a server and its end included.
-/

namespace Sfslite.Arpc

open Sfslite.Lib (Run)

/-- A replay server. Nothing is left of one that is dead but what it left in memory. -/
structure ReplaySrv where
  asrv : Asrv
  dead : Bool

namespace ReplaySrv

/-- `asrv_unreliable`, and `asrv_resumable::alloc`. -/
def alloc (rpcprog : RpcProgram) (xi : Xhinfo) : ReplaySrv :=
  ⟨.start (if xi.reliable then .resumable else .unreliable) rpcprog xi false, false⟩

/-- The loop of `asrv_resumable::resume` over the table; the new transport counts the calls. -/
def resumeTable (s : Asrv) : List ℕ → Option Asrv
  | [] => some s
  | sbp :: l => do
      let b ← s.svccbs sbp
      let s := s.put sbp { b with offset := 0 }
      resumeTable { s with xi := s.xi.svcadd } l

local instance : LawfulBEq (BitVec 32 × BitVec 32) := inferInstance

/-- `asrv_resumable::resume`. A transport that is at its end is not looked up. -/
def resume (s : Asrv) (newxi : Xhinfo) : Option Asrv :=
  -- panic ("resumable asrv on unreliable transport: unimplemented\n")
  if s.kind ≠ .resumable ∨ newxi.reliable = false then none
  else if newxi.ateof then some s
  -- panic ("attempt to reregister %s on same transport\n", rpcprog->name)
  else if (s.rpcprog.progno, s.rpcprog.versno) ∈ newxi.stab then none
  else
    resumeTable
      { s with
        xi := { newxi with stab := (s.rpcprog.progno, s.rpcprog.versno) :: newxi.stab } }
      s.rtab

/-- `asrv_replay::~asrv_replay`. -/
def destroyTable (s : Asrv) : List ℕ → Option Asrv
  | [] => some s
  | sbp :: l => do
      let s ← s.delsbp sbp
      destroyTable s l

/-- What can happen to a replay server. -/
inductive Act where
  | event (e : Asrv.Event)
  | resume (newxi : Xhinfo)
  | destroy

variable (xdrCallmsg : List Byte → Option (CallMsg × List Byte))

/-- One step. A server does not end as long as a call that is not answered refers to it. -/
def step (s : ReplaySrv) : Act → Option ReplaySrv
  | .event e => if s.dead then none else (s.asrv.step xdrCallmsg e).map fun a => ⟨a, false⟩
  | .resume newxi => if s.dead then none else (resume s.asrv newxi).map fun a => ⟨a, false⟩
  | .destroy =>
    if s.dead ∨ s.asrv.given ≠ [] ∨ s.asrv.pend ≠ [] then none
    else (destroyTable s.asrv s.asrv.rtab).map fun a => ⟨a, true⟩

def Encodes (_ : ReplaySrv) : Act → Prop
  | .event (.encodeFails _) => False
  | _ => True

/-- What holds of the calls between two steps. The ones in memory are the ones in the table: those
that nobody answered so far, those whose answer is on its way, and those whose reply is in the
queue; and with the server all of them are gone. -/
structure Lifetime (s : ReplaySrv) : Prop where
  perm : s.asrv.rtab.Perm (s.asrv.given ++ s.asrv.pend.map Rest.sbp ++ s.asrv.rq)
  nodup : s.asrv.rtab.Nodup
  inMemory : ∀ i, (s.asrv.svccbs i).isSome ↔ i ∈ s.asrv.rtab
  replied : ∀ i ∈ s.asrv.rq, ∃ b r, s.asrv.svccbs i = some b ∧ b.res = some r
  dead : s.dead = true → s.asrv.rtab = []

end ReplaySrv

variable {l : List ℕ}

namespace Asrv

/-- The calls in memory: those of the table, of which some, `mid`, are being answered, and the
ones in `new`, which are being received. -/
structure Held (s : Asrv) (mid new : List ℕ) : Prop where
  kind : s.kind = .unreliable ∨ s.kind = .resumable
  perm : s.rtab.Perm (s.given ++ s.pend.map Rest.sbp ++ s.rq ++ mid)
  nodup : (s.rtab ++ new).Nodup
  inMemory : ∀ i, (s.svccbs i).isSome ↔ i ∈ s.rtab ++ new
  brk : ∀ i ∈ s.rtab ++ new, i < s.brk
  pend : ∀ r ∈ s.pend, ∀ i, r ≠ .asrv i
  replied : ∀ i b, s.svccbs i = some b → (i ∈ s.rq ∨ ∃ nocache, .replay i nocache ∈ s.pend) →
    b.res ≠ none

variable {s s' : Asrv} {mid new : List ℕ} {sbp : ℕ}

theorem Held.congr (h : Held s mid new) (hkind : s'.kind = s.kind) (hrtab : s'.rtab = s.rtab)
    (hgiven : s'.given = s.given) (hpend : s'.pend = s.pend) (hrq : s'.rq = s.rq)
    (hbrk : s'.brk = s.brk) (hsvccbs : s'.svccbs = s.svccbs) : Held s' mid new := by
  constructor
  · rw [hkind]
    exact h.kind
  · rw [hrtab, hgiven, hpend, hrq]
    exact h.perm
  · rw [hrtab]
    exact h.nodup
  · intro i
    rw [hrtab, hsvccbs]
    exact h.inMemory i
  · rw [hrtab, hbrk]
    exact h.brk
  · rw [hpend]
    exact h.pend
  · rw [hsvccbs, hrq, hpend]
    exact h.replied

theorem put_svccbs_self (b : Svccb) : (s.put sbp b).svccbs sbp = some b :=
  Function.update_self ..

theorem Held.put (h : Held s mid new) {b : Svccb} (b' : Svccb) (hb : s.svccbs sbp = some b)
    (hres : b'.res = b.res ∨ b'.res ≠ none) : Held (s.put sbp b') mid new := by
  have hput : ∀ i, (s.put sbp b').svccbs i = if i = sbp then some b' else s.svccbs i :=
    fun i => Function.update_apply ..
  refine { h with inMemory := fun i => ?_, replied := fun i c hc hi => ?_ }
  · rw [hput]
    split
    · next heq => exact iff_of_true rfl ((h.inMemory i).mp (by rw [heq, hb]; rfl))
    · exact h.inMemory i
  · rw [hput] at hc
    split at hc
    · next heq =>
      cases hc
      rcases hres with hres | hres
      · exact hres ▸ h.replied i b (heq ▸ hb) hi
      · exact hres
    · exact h.replied i c hc hi

theorem of_update_none {svccbs : ℕ → Option Svccb} {i : ℕ} {b : Svccb}
    (h : Function.update svccbs sbp none i = some b) : svccbs i = some b := by
  rw [Function.update_apply] at h
  split at h
  · cases h
  · exact h

theorem Held.delete_new (h : Held s mid [sbp]) (hs : s.delete sbp = some s') : Held s' mid [] := by
  obtain ⟨b, xi, -, -, rfl⟩ := delete_eq_some.mp hs
  obtain ⟨hnodup, -, hdisj⟩ := List.nodup_append.mp h.nodup
  have hnot : sbp ∉ s.rtab := fun hmem => hdisj sbp hmem sbp (List.mem_singleton.mpr rfl) rfl
  refine ⟨h.kind, h.perm, by rwa [List.append_nil], fun i => ?_, fun i hi => ?_, h.pend,
    fun i c hc => h.replied i c (of_update_none hc)⟩
  · have hmem := h.inMemory i
    rw [List.mem_append, List.mem_singleton] at hmem
    rw [List.append_nil]
    dsimp only
    by_cases hi : i = sbp
    · subst hi
      rw [Function.update_self]
      exact iff_of_false nofun hnot
    · rw [Function.update_of_ne hi, hmem, or_iff_left hi]
  · rw [List.append_nil] at hi
    exact h.brk i (List.mem_append_left _ hi)

theorem delete_held (hkind : s.kind = .unreliable ∨ s.kind = .resumable)
    (hperm : (s.rtab.erase sbp).Perm (s.given ++ s.pend.map Rest.sbp ++ s.rq ++ mid))
    (hmem : sbp ∈ s.rtab) (hnodup : (s.rtab ++ new).Nodup)
    (hmemory : ∀ i, (s.svccbs i).isSome ↔ i ∈ s.rtab ++ new) (hbrk : ∀ i ∈ s.rtab ++ new, i < s.brk)
    (hpend : ∀ r ∈ s.pend, ∀ i, r ≠ .asrv i)
    (hreplied : ∀ i b, s.svccbs i = some b → (i ∈ s.rq ∨ ∃ nocache, .replay i nocache ∈ s.pend) →
      b.res ≠ none)
    (hs : { s with rtab := s.rtab.erase sbp }.delete sbp = some s') : Held s' mid new := by
  obtain ⟨b, xi, -, -, rfl⟩ := delete_eq_some.mp hs
  obtain ⟨hrtab, hnew, hdisj⟩ := List.nodup_append.mp hnodup
  refine ⟨hkind, hperm, ?_, fun i => ?_, fun i hi => hbrk i ?_, hpend,
    fun i c hc => hreplied i c (of_update_none hc)⟩
  · exact hnodup.sublist (List.erase_sublist.append_right new)
  · have hi := hmemory i
    rw [List.mem_append] at hi ⊢
    dsimp only
    by_cases hne : i = sbp
    · subst hne
      rw [Function.update_self, hrtab.mem_erase_iff]
      refine iff_of_false nofun fun h => ?_
      rcases h with ⟨h, -⟩ | h
      · exact h rfl
      · exact hdisj i hmem i h rfl
    · rw [Function.update_of_ne hne, hi, hrtab.mem_erase_iff]
      exact or_congr_left (by rw [ne_eq, and_iff_right hne])
  · rw [List.mem_append] at hi ⊢
    exact hi.imp_left List.mem_of_mem_erase

theorem Held.drop (h : Held s [sbp] new) {rtab : List ℕ} (hrtab : remove s.rtab sbp = some rtab)
    (hs : { s with rtab := rtab }.delete sbp = some s') : Held s' [] new := by
  obtain ⟨hmem, rfl⟩ := remove_eq_some.mp hrtab
  refine delete_held h.kind ?_ hmem h.nodup h.inMemory h.brk h.pend h.replied hs
  have hperm := (h.perm.trans (List.perm_append_singleton _ _)).erase sbp
  rwa [List.erase_cons_head, ← List.append_nil (s.given ++ _ ++ _)] at hperm

theorem Held.delsbp (h : Held s mid new) (hs : s.delsbp sbp = some s') :
    Held s' mid new ∧ s'.rtab = s.rtab.erase sbp := by
  simp only [Asrv.delsbp, Option.bind_eq_bind, Option.bind_eq_some_iff, remove_eq_some] at hs
  obtain ⟨_, ⟨hmem, rfl⟩, _, ⟨hrq, rfl⟩, hs⟩ := hs
  have hfront : (s.given ++ s.pend.map Rest.sbp ++ s.rq ++ mid).Perm
      (sbp :: (s.given ++ s.pend.map Rest.sbp ++ s.rq.erase sbp ++ mid)) := by
    rw [List.perm_iff_count]
    intro a
    have hcount := (List.perm_iff_count.mp (List.perm_cons_erase hrq)) a
    simp only [List.count_append, List.count_cons] at hcount ⊢
    omega
  have hperm := (h.perm.trans hfront).erase sbp
  rw [List.erase_cons_head] at hperm
  have hheld := delete_held (s := { s with rq := s.rq.erase sbp }) h.kind hperm hmem h.nodup
    h.inMemory h.brk h.pend
    (fun i b hb hi => h.replied i b hb (hi.imp_left List.mem_of_mem_erase)) hs
  obtain ⟨b, xi, -, -, rfl⟩ := delete_eq_some.mp hs
  exact ⟨hheld, rfl⟩

theorem Held.evictWhile {p : ℕ → Bool} (h : Held s mid new)
    (hs : evictWhile p l s = some s') : Held s' mid new := by
  induction l generalizing s with
  | nil =>
    cases hs
    exact h
  | cons sbp l ih =>
    simp only [Asrv.evictWhile, Option.bind_eq_bind, Option.bind_eq_some_iff] at hs
    obtain ⟨b, -, hs⟩ := hs
    split at hs
    · obtain ⟨s₁, hs₁, hs⟩ := Option.bind_eq_some_iff.mp hs
      exact ih (h.delsbp hs₁).1 hs
    · cases hs
      exact h

theorem Held.evictOver (h : Held s mid new) (hs : evictOver l s = some s') : Held s' mid new := by
  induction l generalizing s with
  | nil =>
    rw [Asrv.evictOver] at hs
    split at hs
    · cases hs
      exact h
    · cases hs
  | cons sbp l ih =>
    rw [Asrv.evictOver] at hs
    split at hs
    · cases hs
      exact h
    · obtain ⟨s₁, hs₁, hs⟩ := Option.bind_eq_some_iff.mp hs
      have h₁ : Held { s₁ with rsize := s₁.rsize - 1 } mid new :=
        (h.delsbp hs₁).1.congr rfl rfl rfl rfl rfl rfl rfl
      exact ih h₁ hs

variable {io : Io}

theorem Held.sendv (h : Held s mid new) {osbp : Option ℕ} {x : List Byte}
    {addr : Option (List Byte)} {ok : Bool} (hs : s.sendv osbp x addr io = some (ok, s')) :
    Held s' mid new ∧ s'.svccbs = s.svccbs ∧ s'.brk = s.brk ∧ s'.kind = s.kind := by
  simp only [Asrv.sendv, Option.bind_eq_bind, Option.bind_eq_some_iff, Option.some.injEq,
    Prod.mk.injEq] at hs
  obtain ⟨⟨ok', xi⟩, -, -, rfl⟩ := hs
  split
  · exact ⟨h.congr rfl rfl rfl rfl rfl rfl rfl, rfl, rfl, rfl⟩
  · exact ⟨h.congr rfl rfl rfl rfl rfl rfl rfl, rfl, rfl, rfl⟩

theorem Held.ne_asrv (h : Held s mid new) : s.kind ≠ .asrv := by
  rcases h.kind with h | h <;> rw [h] <;> nofun

theorem Held.ne_delayedEof (h : Held s mid new) : s.kind ≠ .delayedEof := by
  rcases h.kind with h | h <;> rw [h] <;> nofun

theorem Held.out (h : Held s mid new) (o : Out) : Held (s.out o) mid new :=
  h.congr rfl rfl rfl rfl rfl rfl rfl

theorem Held.cbNull (h : Held s mid new) : Held s.cbNull mid new := by
  rw [cbNull_of_ne h.ne_delayedEof]
  exact (h.out .eof).out .null

theorem Held.xhinfoSeteof (h : Held s mid new) :
    Held s.xhinfoSeteof mid new ∧ s.xhinfoSeteof.svccbs = s.svccbs := by
  have hrcb : Held { s with xi := { s.xi with rcb := false } } mid new :=
    h.congr rfl rfl rfl rfl rfl rfl rfl
  rw [Asrv.xhinfoSeteof]
  split
  · refine ⟨hrcb.cbNull, ?_⟩
    rw [cbNull_of_ne hrcb.ne_delayedEof]
    rfl
  · exact ⟨h, rfl⟩

theorem Held.asrvSeteof (h : Held s mid new) : Held s.asrvSeteof mid new := by
  rw [Asrv.asrvSeteof]
  split
  · exact h.cbNull
  · exact h

theorem Held.finishNull (h : Held s [sbp] new) (hs : s.finishNull sbp = some s') :
    Held s' [] new := by
  have hreplay : (remove s.rtab sbp).bind (fun rtab =>
      ({ s with rtab := rtab }.out (.answered sbp)).delete sbp) = some s' := by
    rw [Asrv.finishNull] at hs
    split at hs
    · next hk => exact absurd hk h.ne_asrv
    · next hk => exact absurd hk h.ne_delayedEof
    · exact hs
    · exact hs
  obtain ⟨rtab, hrtab, hs⟩ := Option.bind_eq_some_iff.mp hreplay
  exact (h.out (.answered sbp)).drop hrtab hs

theorem Held.enqueue (h : Held s [sbp] new) (hres : ∀ b, s.svccbs sbp = some b → b.res ≠ none) :
    Held { s with rq := s.rq ++ [sbp] } [] new := by
  refine { h with perm := ?_, replied := fun i b hb hi => ?_ }
  rotate_left
  · rcases hi with hi | hi
    · rcases List.mem_append.mp hi with hi | hi
      · exact h.replied i b hb (.inl hi)
      · rw [List.mem_singleton.mp hi] at hb
        exact hres b hb
    · exact h.replied i b hb (.inr hi)
  have hperm := h.perm
  rw [List.append_assoc] at hperm
  rwa [List.append_nil]

theorem Held.finishReplay (h : Held s [sbp] new) {nocache : Bool}
    (hres : ∀ b, s.svccbs sbp = some b → b.res ≠ none)
    (hs : s.finishReplay sbp nocache = some s') : Held s' [] new := by
  simp only [Asrv.finishReplay, Option.bind_eq_bind, Option.bind_eq_some_iff] at hs
  obtain ⟨b, hb, hs⟩ := hs
  have hout := h.out (.answered sbp)
  have hput : ∀ b' : Svccb, b'.res = b.res →
      Held ((s.out (.answered sbp)).put sbp b') [sbp] new ∧
        ∀ c, ((s.out (.answered sbp)).put sbp b').svccbs sbp = some c → c.res ≠ none := by
    intro b' hb'
    refine ⟨hout.put _ hb (.inl hb'), fun c hc => ?_⟩
    cases (put_svccbs_self b').symm.trans hc
    rw [hb']
    exact hres b hb
  split at hs
  · obtain ⟨rtab, hrtab, hs⟩ := Option.bind_eq_some_iff.mp hs
    exact hout.drop hrtab hs
  · split at hs
    · obtain ⟨hheld, hres'⟩ := hput { b with srv := false } rfl
      have hsize : Held ({ (s.out (.answered sbp)).put sbp { b with srv := false } with
          rsize := s.rsize + 1 }) [sbp] new :=
        hheld.congr rfl rfl rfl rfl rfl rfl rfl
      exact (hsize.enqueue hres').evictOver hs
    · obtain ⟨hheld, hres'⟩ := hput { b with offset := s.xi.rawBytesSent, srv := false } rfl
      exact (hheld.enqueue hres').evictWhile hs
    · cases hs

/-- What is to be done of an answer: a reply is saved by now. -/
def RestOk (s : Asrv) (sbp : ℕ) (r : Rest) : Prop :=
  r.sbp = sbp ∧ (∀ i, r ≠ .asrv i) ∧
    ∀ nocache, r = .replay sbp nocache → ∀ b, s.svccbs sbp = some b → b.res ≠ none

theorem Held.finish (h : Held s [sbp] new) {r : Rest} (hr : RestOk s sbp r)
    (hs : s.finish r = some s') : Held s' [] new := by
  obtain ⟨hsbp, hasrv, hres⟩ := hr
  cases r with
  | asrv i => exact absurd rfl (hasrv i)
  | replay i nocache =>
    cases hsbp
    exact h.finishReplay (hres nocache rfl) hs
  | null i =>
    cases hsbp
    exact h.finishNull hs

theorem Held.sent (h : Held s [sbp] []) {r : Rest} {sync : Bool} (hr : RestOk s sbp r)
    (hs : s.sent r sync = some s') : Held s' [] [] := by
  rw [Asrv.sent] at hs
  split at hs
  · cases hs
    obtain ⟨heof, hsvccbs⟩ := h.xhinfoSeteof
    obtain ⟨hsbp, hasrv, hres⟩ := hr
    refine { heof with perm := ?_, pend := fun r' hr' => ?_, replied := fun i b hb hi => ?_ }
    · have hperm := heof.perm
      rw [List.perm_iff_count] at hperm ⊢
      intro a
      have hcount := hperm a
      simp only [List.map_cons, hsbp, List.count_append, List.count_cons,
        List.count_nil] at hcount ⊢
      omega
    · rcases List.mem_cons.mp hr' with rfl | hr'
      · exact hasrv
      · exact heof.pend r' hr'
    · rcases hi with hi | ⟨nocache, hi⟩
      · exact heof.replied i b hb (.inl hi)
      · rcases List.mem_cons.mp hi with rfl | hi
        · cases hsbp
          exact hres nocache rfl b (hsvccbs ▸ hb)
        · exact heof.replied i b hb (.inr ⟨nocache, hi⟩)
  · exact h.finish hr hs

theorem Held.take (h : Held s [] []) (hs : s.take sbp = some s') : Held s' [sbp] [] := by
  obtain ⟨hmem, rfl⟩ := take_eq_some.mp hs
  refine { h with perm := ?_ }
  have hperm := h.perm
  rw [List.perm_iff_count] at hperm ⊢
  intro a
  have hcount := hperm a
  have herase := (List.perm_iff_count.mp (List.perm_cons_erase hmem)) a
  simp only [List.count_append, List.count_cons, List.count_nil] at hcount herase ⊢
  omega

theorem Held.sendreply (h : Held s [sbp] []) {x : List Byte} {nocache sync : Bool} {io' : Io}
    (hs : s.sendreply sbp x nocache io io' sync = some s') : Held s' [] [] := by
  have hreplay : (if s.kind = .resumable ∧ nocache then none
      else (s.svccbs sbp).bind fun b =>
        let t := s.put sbp { b with res := some x }
        if t.xi.ateof then t.finish (.replay sbp nocache)
        else (t.sendv (some sbp) x b.addr io).bind fun r => r.2.sent (.replay sbp nocache) sync) =
      some s' := by
    rw [Asrv.sendreply] at hs
    split at hs
    · next hk => exact absurd hk h.ne_asrv
    · next hk => exact absurd hk h.ne_delayedEof
    · exact hs
    · exact hs
  split at hreplay
  · cases hreplay
  obtain ⟨b, hb, hreplay⟩ := Option.bind_eq_some_iff.mp hreplay
  have hput := h.put { b with res := some x } hb (.inr (by simp))
  have hrest : ∀ t : Asrv, t.svccbs = (s.put sbp { b with res := some x }).svccbs →
      RestOk t sbp (.replay sbp nocache) := by
    refine fun t ht => ⟨rfl, fun _ => by simp, fun _ _ c hc => ?_⟩
    rw [ht] at hc
    cases (put_svccbs_self { b with res := some x }).symm.trans hc
    simp
  dsimp only at hreplay
  split at hreplay
  · exact hput.finish (hrest _ rfl) hreplay
  · obtain ⟨⟨ok, t⟩, ht, hsent⟩ := Option.bind_eq_some_iff.mp hreplay
    obtain ⟨hheld, hsvccbs, -⟩ := hput.sendv ht
    exact hheld.sent (hrest t hsvccbs) hsent

theorem Held.reject (h : Held s [sbp] []) {stat : RejectStat} {sync : Bool}
    (hs : s.reject sbp stat io sync = some s') : Held s' [] [] := by
  simp only [Asrv.reject, Option.bind_eq_bind, Option.bind_eq_some_iff] at hs
  obtain ⟨b, -, hs⟩ := hs
  split at hs
  · exact h.finishNull hs
  · have hsent : ∀ e, (s.sendv none e b.addr io).bind
        (fun r => r.2.sent (.null sbp) sync) = some s' → Held s' [] [] := by
      intro e he
      obtain ⟨⟨ok, t⟩, ht, ht'⟩ := Option.bind_eq_some_iff.mp he
      have hrest : RestOk t sbp (.null sbp) := ⟨rfl, fun _ => by simp, fun _ => by simp⟩
      exact (h.sendv ht).1.sent hrest ht'
    cases stat with
    | auth stat =>
      obtain ⟨e, -, he⟩ := Option.bind_eq_some_iff.mp hs
      exact hsent e he
    | accept stat =>
      obtain ⟨e, -, he⟩ := Option.bind_eq_some_iff.mp hs
      exact hsent e he

theorem Held.init (h : Held s [] []) (m : CallMsg) (src : Option (List Byte)) :
    Held (s.init m src) [] [s.brk] := by
  have hnodup := h.nodup
  have hbrk := h.brk
  have hmemory := h.inMemory
  rw [List.append_nil] at hnodup hbrk
  refine ⟨h.kind, h.perm, ?_, fun i => ?_, fun i hi => ?_, h.pend, fun i b hb hi => ?_⟩
  · refine List.nodup_append.mpr ⟨hnodup, List.nodup_singleton _, fun a ha b hb => ?_⟩
    rw [List.mem_singleton.mp hb]
    exact Nat.ne_of_lt (hbrk a ha)
  · have hi := hmemory i
    rw [List.append_nil] at hi
    change (Function.update s.svccbs s.brk _ i).isSome ↔ i ∈ s.rtab ++ [s.brk]
    rw [List.mem_append, List.mem_singleton]
    by_cases hne : i = s.brk
    · subst hne
      rw [Function.update_self]
      exact iff_of_true rfl (.inr rfl)
    · rw [Function.update_of_ne hne, hi, or_iff_left hne]
  · rcases List.mem_append.mp hi with hi | hi
    · exact Nat.lt_succ_of_lt (hbrk i hi)
    · rw [List.mem_singleton.mp hi]
      exact Nat.lt_succ_self _
  · have hlt : i < s.brk := by
      refine hbrk i (h.perm.mem_iff.mpr ?_)
      rcases hi with hi | ⟨nocache, hi⟩
      · simp [show i ∈ s.rq from hi]
      · have hmem : i ∈ s.pend.map Rest.sbp := List.mem_map.mpr ⟨_, hi, rfl⟩
        simp only [List.mem_append, hmem, or_true, true_or]
    exact h.replied i b ((Function.update_of_ne (Nat.ne_of_lt hlt) _ _).symm.trans hb) hi

theorem Held.requeue (h : Held s mid new) {b b' : Svccb} (hb : s.svccbs sbp = some b)
    (hres : b'.res = b.res) (hmem : sbp ∈ s.rq) :
    Held { s.put sbp b' with rq := s.rq.erase sbp ++ [sbp] } mid new := by
  have hput := h.put _ hb (.inl hres)
  have hrq : ∀ i, i ∈ s.rq.erase sbp ++ [sbp] → i ∈ s.rq := by
    intro i hi
    rcases List.mem_append.mp hi with hi | hi
    · exact List.mem_of_mem_erase hi
    · exact List.mem_singleton.mp hi ▸ hmem
  refine { hput with
    perm := ?_
    replied := fun i c hc hi => hput.replied i c hc (hi.imp_left (hrq i)) }
  have hperm := hput.perm
  rw [List.perm_iff_count] at hperm ⊢
  intro a
  have hcount := hperm a
  have herase := (List.perm_iff_count.mp (List.perm_cons_erase hmem)) a
  simp only [Asrv.put, List.count_append, List.count_cons, List.count_nil] at hcount herase ⊢
  omega

theorem mem_of_find {svccbs : ℕ → Option Svccb} {b : Svccb} {i : ℕ}
    (h : find svccbs b l = some (some i)) : i ∈ l := by
  induction l with
  | nil => cases h
  | cons j l ih =>
    simp only [find, Option.bind_eq_bind, Option.bind_eq_some_iff] at h
    obtain ⟨ob, -, h⟩ := h
    split at h
    · obtain ⟨same, -, h⟩ := Option.bind_eq_some_iff.mp h
      split at h
      · cases h
        exact List.mem_cons_self
      · exact List.mem_cons_of_mem _ (ih h)
    · exact List.mem_cons_of_mem _ (ih h)

theorem Held.lookup (h : Held s [] [sbp]) {osbp : Option ℕ} (hs : s.lookup sbp = some (osbp, s')) :
    (osbp = none ∧ Held s' [sbp] []) ∨ ∃ i ∈ s.rtab, osbp = some i ∧ s' = s := by
  simp only [Asrv.lookup, Option.bind_eq_bind, Option.bind_eq_some_iff] at hs
  obtain ⟨b, -, found, hfind, hs⟩ := hs
  cases found with
  | none =>
    cases hs
    refine .inl ⟨rfl, h.kind, ?_, ?_, fun i => ?_, fun i hi => h.brk i ?_, h.pend, h.replied⟩
    · refine (h.perm.cons sbp).trans ?_
      rw [List.append_nil]
      exact (List.perm_append_singleton _ _).symm
    · rw [List.append_nil]
      exact (List.perm_append_singleton _ _).nodup_iff.mp h.nodup
    · rw [List.append_nil, List.mem_cons, or_comm, ← List.mem_singleton (b := sbp),
        ← List.mem_append]
      exact h.inMemory i
    · rw [List.append_nil] at hi
      exact (List.perm_append_singleton _ _).mem_iff.mpr hi
  | some i =>
    cases hs
    exact .inr ⟨i, mem_of_find hfind, rfl, rfl⟩

theorem Held.isreplay (h : Held s [] [sbp]) {replay : Bool}
    (hs : s.isreplay sbp io = some (replay, s')) :
    (replay = true ∧ Held s' [] [sbp]) ∨ (replay = false ∧ Held s' [sbp] []) := by
  simp only [Asrv.isreplay, Option.bind_eq_bind] at hs
  split at hs
  · next hk => exact absurd hk h.ne_asrv
  · next hk => exact absurd hk h.ne_delayedEof
  · obtain ⟨⟨osbp, t⟩, ht, hrest⟩ := Option.bind_eq_some_iff.mp hs
    rcases h.lookup ht with ⟨rfl, hheld⟩ | ⟨i, -, rfl, rfl⟩
    · obtain ⟨rfl, rfl⟩ := Prod.mk.inj (Option.some.inj hrest)
      exact .inr ⟨rfl, hheld⟩
    · obtain ⟨ob, -, hsend⟩ := Option.bind_eq_some_iff.mp hrest
      split at hsend
      · obtain ⟨rfl, rfl⟩ := Prod.mk.inj (Option.some.inj hsend)
        exact .inl ⟨rfl, h⟩
      · obtain ⟨⟨ok, u⟩, hu, hend⟩ := Option.bind_eq_some_iff.mp hsend
        obtain ⟨rfl, rfl⟩ := Prod.mk.inj (Option.some.inj hend)
        exact .inl ⟨rfl, (h.sendv hu).1⟩
  · obtain ⟨⟨osbp, t⟩, ht, hrest⟩ := Option.bind_eq_some_iff.mp hs
    rcases h.lookup ht with ⟨rfl, hheld⟩ | ⟨i, -, rfl, rfl⟩
    · obtain ⟨u, hu, hend⟩ := Option.bind_eq_some_iff.mp hrest
      obtain ⟨rfl, rfl⟩ := Prod.mk.inj (Option.some.inj hend)
      exact .inr ⟨rfl, hheld.evictWhile hu⟩
    · obtain ⟨ob, hob, hsend⟩ := Option.bind_eq_some_iff.mp hrest
      split at hsend
      · obtain ⟨rfl, rfl⟩ := Prod.mk.inj (Option.some.inj hsend)
        exact .inl ⟨rfl, h⟩
      · obtain ⟨⟨ok, u⟩, hu, hmove⟩ := Option.bind_eq_some_iff.mp hsend
        obtain ⟨rq, hrq, hend⟩ := Option.bind_eq_some_iff.mp hmove
        obtain ⟨rfl, rfl⟩ := Prod.mk.inj (Option.some.inj hend)
        obtain ⟨hmem, rfl⟩ := remove_eq_some.mp hrq
        obtain ⟨hsent, hsvccbs, -⟩ := h.sendv hu
        have hob : u.svccbs i = some ob := hsvccbs ▸ hob
        exact .inl ⟨rfl, hsent.requeue hob rfl hmem⟩

theorem Held.recv (h : Held s [] []) {m : CallMsg} {body : List Byte} {src : Option (List Byte)}
    (hs : s.recv m body src io = some s') : Held s' [] [] := by
  have hinit := h.init m src
  rw [Asrv.recv] at hs
  dsimp only at hs
  split at hs
  · simp only [Option.bind_eq_bind, Option.bind_eq_some_iff] at hs
    obtain ⟨e, -, ⟨ok, t⟩, ht, hs⟩ := hs
    exact (hinit.sendv ht).1.delete_new hs
  · obtain ⟨⟨replay, t⟩, ht, hs⟩ := Option.bind_eq_some_iff.mp hs
    rcases hinit.isreplay ht with ⟨rfl, hheld⟩ | ⟨rfl, hheld⟩
    · exact hheld.delete_new hs
    · rw [if_neg Bool.false_ne_true] at hs
      split at hs
      · simp only [Option.bind_eq_bind, Option.bind_eq_some_iff] at hs
        obtain ⟨e, -, ⟨ok, u⟩, hu, hs⟩ := hs
        have hsent := (hheld.sendv hu).1
        rw [incSvccbCount_of_ne hsent.ne_delayedEof] at hs
        exact hsent.finishNull hs
      · rw [incSvccbCount_of_ne hheld.ne_delayedEof] at hs
        cases hs
        refine { hheld with perm := ?_ }
        have hperm := hheld.perm
        rw [List.perm_iff_count] at hperm ⊢
        intro a
        have hcount := hperm a
        simp only [Asrv.out, List.count_append, List.count_cons, List.count_nil] at hcount ⊢
        omega

variable {xdrCallmsg : List Byte → Option (CallMsg × List Byte)}

theorem Held.dispatch (h : Held s [] []) {pkt : List Byte} {src : Option (List Byte)}
    (hs : s.dispatch xdrCallmsg pkt src io = some s') : Held s' [] [] := by
  rw [Asrv.dispatch] at hs
  split at hs
  · cases hs
    exact h.xhinfoSeteof.1
  · cases hs
    exact h
  · cases hs
    exact h.asrvSeteof
  · split at hs
    · obtain ⟨⟨ok, t⟩, ht, hs⟩ := Option.bind_eq_some_iff.mp hs
      cases hs
      exact (h.sendv ht).1
    · split at hs
      · exact h.recv hs
      · split at hs
        · cases hs
          exact h
        · simp only [Option.bind_eq_bind, Option.bind_eq_some_iff] at hs
          obtain ⟨e, -, ⟨ok, t⟩, ht, hs⟩ := hs
          cases hs
          exact (h.sendv ht).1

theorem Held.step (h : Held s [] []) {e : Event}
    (he : ∀ sbp, e ≠ .encodeFails sbp) (hs : s.step xdrCallmsg e = some s') : Held s' [] [] := by
  cases e with
  | packet pkt src io =>
    obtain ⟨-, hs⟩ := Option.ite_none_right_eq_some.mp hs
    exact h.dispatch hs
  | eof =>
    obtain ⟨-, ⟨⟩⟩ := Option.ite_none_right_eq_some.mp hs
    have hclosed : Held { s with xi := { s.xi with closed := true } } [] [] :=
      h.congr rfl rfl rfl rfl rfl rfl rfl
    exact hclosed.xhinfoSeteof.1
  | fail =>
    obtain ⟨-, ⟨⟩⟩ := Option.ite_none_right_eq_some.mp hs
    exact h.congr rfl rfl rfl rfl rfl rfl rfl
  | reply sbp res nocache io io' sync =>
    obtain ⟨t, ht, hs⟩ := Option.bind_eq_some_iff.mp hs
    exact (h.take ht).sendreply hs
  | encodeFails sbp => exact absurd rfl (he sbp)
  | reject sbp stat io sync =>
    obtain ⟨t, ht, hs⟩ := Option.bind_eq_some_iff.mp hs
    exact (h.take ht).reject hs
  | ignore sbp =>
    obtain ⟨t, ht, hs⟩ := Option.bind_eq_some_iff.mp hs
    exact (h.take ht).finishNull hs
  | unwind =>
    rw [Asrv.step] at hs
    split at hs
    · cases hs
    · next r pend hr =>
      have hheld : Held { s with pend := pend } [r.sbp] [] := by
        refine ⟨h.kind, ?_, h.nodup, h.inMemory, h.brk,
          fun r' hr' => h.pend r' (hr ▸ List.mem_cons_of_mem _ hr'), fun i b hb hi =>
          h.replied i b hb (hi.imp_right (Exists.imp fun _ hi =>
            hr ▸ List.mem_cons_of_mem _ hi))⟩
        have hperm := h.perm
        rw [hr] at hperm
        rw [List.perm_iff_count] at hperm ⊢
        intro a
        have hcount := hperm a
        simp only [List.map_cons, List.count_append, List.count_cons, List.count_nil] at hcount ⊢
        omega
      refine hheld.finish ⟨rfl, h.pend r (hr ▸ List.mem_cons_self), ?_⟩ hs
      rintro nocache heq b hb
      exact h.replied r.sbp b hb (.inr ⟨nocache, hr ▸ heq ▸ List.mem_cons_self⟩)

end Asrv

namespace ReplaySrv

open Asrv (Held)

variable {xdrCallmsg : List Byte → Option (CallMsg × List Byte)} {a a' : Asrv} {s s' : ReplaySrv}

theorem held_resumeTable (h : Held a [] []) (hs : resumeTable a l = some a') : Held a' [] [] := by
  induction l generalizing a with
  | nil =>
    cases hs
    exact h
  | cons sbp l ih =>
    obtain ⟨b, hb, hs⟩ := Option.bind_eq_some_iff.mp hs
    have hput := h.put { b with offset := 0 } hb (.inl rfl)
    have hxi : Held { a.put sbp { b with offset := 0 } with xi := a.xi.svcadd } [] [] :=
      hput.congr rfl rfl rfl rfl rfl rfl rfl
    exact ih hxi hs

theorem held_resume {newxi : Xhinfo} (h : Held a [] []) (hs : resume a newxi = some a') :
    Held a' [] [] := by
  rw [resume] at hs
  split at hs
  · cases hs
  split at hs
  · cases hs
    exact h
  split at hs
  · cases hs
  · have hxi : Held { a with
        xi := { newxi with stab := (a.rpcprog.progno, a.rpcprog.versno) :: newxi.stab } } [] [] :=
      h.congr rfl rfl rfl rfl rfl rfl rfl
    exact held_resumeTable hxi hs

theorem held_destroyTable (h : Held a [] []) (hs : destroyTable a l = some a') :
    Held a' [] [] ∧ ∀ i ∈ a'.rtab, i ∈ a.rtab ∧ i ∉ l := by
  induction l generalizing a with
  | nil =>
    cases hs
    exact ⟨h, fun i hi => ⟨hi, List.not_mem_nil⟩⟩
  | cons sbp l ih =>
    obtain ⟨t, ht, hs⟩ := Option.bind_eq_some_iff.mp hs
    obtain ⟨hheld, hrtab⟩ := h.delsbp ht
    have hnodup : a.rtab.Nodup := List.append_nil a.rtab ▸ h.nodup
    obtain ⟨hheld', hout⟩ := ih hheld hs
    refine ⟨hheld', fun i hi => ?_⟩
    obtain ⟨hmem, hnot⟩ := hout i hi
    rw [hrtab, hnodup.mem_erase_iff] at hmem
    refine ⟨hmem.2, fun hcons => ?_⟩
    rcases List.mem_cons.mp hcons with heq | hl
    · exact hmem.1 heq
    · exact hnot hl

theorem held_step {e : Act} (h : Held s.asrv [] []) (he : Encodes s e)
    (hs : step xdrCallmsg s e = some s') :
    Held s'.asrv [] [] ∧ (s'.dead = true → s'.asrv.rtab = []) := by
  cases e with
  | event e =>
    obtain ⟨-, hs⟩ := Option.ite_none_left_eq_some.mp hs
    obtain ⟨a, ha, rfl⟩ := Option.map_eq_some_iff.mp hs
    refine ⟨h.step (fun sbp heq => ?_) ha, nofun⟩
    subst heq
    exact he
  | resume newxi =>
    obtain ⟨-, hs⟩ := Option.ite_none_left_eq_some.mp hs
    obtain ⟨a, ha, rfl⟩ := Option.map_eq_some_iff.mp hs
    exact ⟨held_resume h ha, nofun⟩
  | destroy =>
    obtain ⟨-, hs⟩ := Option.ite_none_left_eq_some.mp hs
    obtain ⟨a, ha, rfl⟩ := Option.map_eq_some_iff.mp hs
    obtain ⟨hheld, hout⟩ := held_destroyTable h ha
    refine ⟨hheld, fun _ => List.eq_nil_iff_forall_not_mem.mpr fun i hi => ?_⟩
    obtain ⟨hmem, hnot⟩ := hout i hi
    exact hnot hmem

theorem held_alloc (rpcprog : RpcProgram) (xi : Xhinfo) : Held (alloc rpcprog xi).asrv [] [] := by
  refine ⟨?_, .nil, .nil, fun i => iff_of_false nofun nofun, nofun, nofun, nofun⟩
  rw [alloc, Asrv.start]
  cases xi.reliable
  · exact .inl rfl
  · exact .inr rfl

theorem lifetime_of_held (h : Held s.asrv [] []) (hdead : s.dead = true → s.asrv.rtab = []) :
    Lifetime s := by
  have hperm := h.perm
  have hnodup := h.nodup
  have hmemory := h.inMemory
  simp only [List.append_nil] at hperm hnodup hmemory
  refine ⟨hperm, hnodup, hmemory, fun i hi => ?_, hdead⟩
  have hmem : i ∈ s.asrv.rtab := hperm.mem_iff.mpr (List.mem_append_right _ hi)
  obtain ⟨b, hb⟩ := Option.isSome_iff_exists.mp ((hmemory i).mpr hmem)
  obtain ⟨r, hr⟩ := Option.ne_none_iff_exists'.mp (h.replied i b hb (.inl hi))
  exact ⟨b, r, hb, hr⟩

variable (xdrCallmsg)

/-- In every run in which every reply encodes, the calls in memory are the ones in the replay
table, and each of them is in progress or in the queue with its reply. A reply that does not
encode ends that. -/
theorem svccb_lifetime {rpcprog : RpcProgram} {xi : Xhinfo} {es : List Act} {s : ReplaySrv}
    (hrun : Run (step xdrCallmsg) Encodes (alloc rpcprog xi) es s) :
    Lifetime s ∧ ∀ sbp s', step xdrCallmsg s (.event (.encodeFails sbp)) = some s' →
      ¬ Lifetime s' := by
  have hheld : Held s.asrv [] [] ∧ (s.dead = true → s.asrv.rtab = []) := by
    refine hrun.invariant
      (I := fun s => Held s.asrv [] [] ∧ (s.dead = true → s.asrv.rtab = []))
      ⟨held_alloc rpcprog xi, nofun⟩ ?_
    intro s e s' h he hs
    exact held_step h.1 he hs
  refine ⟨lifetime_of_held hheld.1 hheld.2, fun sbp s' hs hlife => ?_⟩
  obtain ⟨-, hs⟩ := Option.ite_none_left_eq_some.mp hs
  obtain ⟨a, ha, rfl⟩ := Option.map_eq_some_iff.mp hs
  obtain ⟨t, ht, ha⟩ := Option.bind_eq_some_iff.mp ha
  obtain ⟨hmem, rfl⟩ := Asrv.take_eq_some.mp ht
  obtain ⟨b, xi, -, -, rfl⟩ := Asrv.delete_eq_some.mp ha
  have hrtab : sbp ∈ s.asrv.rtab := by
    refine hheld.1.perm.mem_iff.mpr ?_
    simp only [List.mem_append, hmem, true_or]
  have hgone := (hlife.inMemory sbp).mpr hrtab
  dsimp only at hgone
  rw [Function.update_self] at hgone
  cases hgone

open Asrv (nullCallmsg nullProgram nullCall dgram inetAddr)

/-- A call is answered, its copy gets the reply again, and the server ends. -/
theorem svccb_lifetime_null :
    ∃ s, Lifetime s ∧ s.dead = true ∧ s.asrv.brk = 2 := by
  have hsteps : (step nullCallmsg (alloc nullProgram (dgram false))
      (.event (.packet nullCall (some inetAddr) .ok))).bind (fun s₁ =>
        (step nullCallmsg s₁ (.event (.reply 0 [1] false .ok .ok false))).bind fun s₂ =>
          (step nullCallmsg s₂ (.event (.packet nullCall (some inetAddr) .ok))).bind fun s₃ =>
            (step nullCallmsg s₃ .destroy).map fun s => (s.dead, s.asrv.brk)) =
      some (true, 2) := by
    decide +kernel
  obtain ⟨s₁, h₁, hs⟩ := Option.bind_eq_some_iff.mp hsteps
  obtain ⟨s₂, h₂, hs⟩ := Option.bind_eq_some_iff.mp hs
  obtain ⟨s₃, h₃, hs⟩ := Option.bind_eq_some_iff.mp hs
  obtain ⟨s, h₄, hend⟩ := Option.map_eq_some_iff.mp hs
  obtain ⟨hdead, hbrk⟩ := Prod.mk.inj hend
  have hrun : Run (step nullCallmsg) Encodes (alloc nullProgram (dgram false))
      [.event (.packet nullCall (some inetAddr) .ok), .event (.reply 0 [1] false .ok .ok false),
        .event (.packet nullCall (some inetAddr) .ok), .destroy] s :=
    .cons trivial h₁ (.cons trivial h₂ (.cons trivial h₃ (.cons trivial h₄ (.nil _))))
  exact ⟨s, (svccb_lifetime nullCallmsg hrun).1, hdead, hbrk⟩

/-- A call whose reply does not encode is destroyed and stays in the table, where the next copy
of it comes upon freed memory. -/
theorem encodeFails_dangles :
    ∃ s, Run (step nullCallmsg) (fun _ _ => True) (alloc nullProgram (dgram false))
        [.event (.packet nullCall (some inetAddr) .ok), .event (.encodeFails 0)] s ∧
      0 ∈ s.asrv.rtab ∧ s.asrv.svccbs 0 = none ∧ ¬ Lifetime s ∧
      s.asrv.xi.rcb = true ∧
      step nullCallmsg s (.event (.packet nullCall (some inetAddr) .ok)) = none := by
  have hstep : (step nullCallmsg (alloc nullProgram (dgram false))
      (.event (.packet nullCall (some inetAddr) .ok))).bind (fun s₁ =>
        (step nullCallmsg s₁ (.event (.encodeFails 0))).map fun s =>
          (s.asrv.rtab, s.asrv.svccbs 0, s.asrv.xi.rcb,
            (step nullCallmsg s (.event (.packet nullCall (some inetAddr) .ok))).isNone)) =
      some ([0], none, true, true) := by
    decide +kernel
  obtain ⟨s₁, h₁, hs⟩ := Option.bind_eq_some_iff.mp hstep
  obtain ⟨s, h₂, hend⟩ := Option.map_eq_some_iff.mp hs
  simp only [Prod.mk.injEq, Option.isNone_iff_eq_none] at hend
  obtain ⟨hrtab, hgone, hrcb, hcrash⟩ := hend
  have hmem : 0 ∈ s.asrv.rtab := hrtab ▸ List.mem_cons_self
  refine ⟨s, .cons trivial h₁ (.cons trivial h₂ (.nil _)), hmem, hgone, fun hlife => ?_, hrcb,
    hcrash⟩
  have hlive := (hlife.inMemory 0).mpr hmem
  rw [hgone] at hlive
  cases hlive

end ReplaySrv

end Sfslite.Arpc
