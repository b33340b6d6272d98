import Sfslite.Lib.Run
import Sfslite.Arpc.Asrv

/-!
What `asrv_unreliable` remembers: the replay table is made of the calls in progress and of the queue
of replies, no two of its entries are copies of one call, and a second copy is dropped or answered
with the bytes that were sent first.
-/

namespace Sfslite.Arpc.Asrv

open Sfslite.Lib (Run)

/-- What was first sent for a call, and where to. -/
def firstSent (log : List Out) (sbp : ℕ) : Option (List Byte × Option (List Byte)) :=
  log.findSome? fun
    | .send (some i) x addr => if i = sbp then some (x, addr) else none
    | _ => none

variable {i j sbp : ℕ} {l : List Out}

theorem firstSent_append {log : List Out} :
    firstSent (log ++ l) i = (firstSent log i).or (firstSent l i) :=
  List.findSome?_append

variable {x : List Byte}

theorem firstSent_send {addr : Option (List Byte)} :
    firstSent [.send (some i) x addr] j = if i = j then some (x, addr) else none := by
  unfold firstSent
  by_cases h : i = j <;> simp [h]

/-- The table and the calls in it, apart from the size of the queue. -/
structure TableInv (s : Asrv) : Prop where
  kind : s.kind = .unreliable
  dgram : s.xi.reliable = false
  pend : s.pend = []
  perm : s.rtab.Perm (s.given ++ s.rq)
  nodup : s.rtab.Nodup
  fresh : ∀ i, s.brk ≤ i → s.svccbs i = none ∧ firstSent s.log i = none
  inProgress : ∀ i ∈ s.given, ∃ b, s.svccbs i = some b ∧ b.srv = true ∧ b.res = none ∧
    SrcOk s.xi b.addr ∧ firstSent s.log i = none
  cached : ∀ i ∈ s.rq, ∃ b r, s.svccbs i = some b ∧ b.srv = false ∧ b.res = some r ∧
    SrcOk s.xi b.addr ∧ firstSent s.log i = some (r, b.addr)
  keys : ∀ i ∈ s.rtab, ∀ j ∈ s.rtab, ∀ a b, s.svccbs i = some a → s.svccbs j = some b →
    a.key = b.key → i = j

/-- The whole invariant of a server. -/
structure ReplayInv (s : Asrv) : Prop extends TableInv s where
  rsize : s.rsize.toNat = s.rq.length
  bound : s.rsize ≤ maxrsize

variable {xi : Xhinfo} {src : Option (List Byte)} {b : Svccb} {m : CallMsg}

namespace TableInv

variable {s : Asrv}

theorem mem_rtab (h : TableInv s) : i ∈ s.rtab ↔ i ∈ s.given ∨ i ∈ s.rq := by
  rw [h.perm.mem_iff, List.mem_append]

theorem svccbs_of_mem (h : TableInv s) (hi : i ∈ s.rtab) :
    ∃ b, s.svccbs i = some b ∧ SrcOk s.xi b.addr := by
  rcases h.mem_rtab.mp hi with hi | hi
  · obtain ⟨b, hb, -, -, hsrc, -⟩ := h.inProgress i hi
    exact ⟨b, hb, hsrc⟩
  · obtain ⟨b, -, hb, -, -, hsrc, -⟩ := h.cached i hi
    exact ⟨b, hb, hsrc⟩

theorem ne_of_fresh (h : TableInv s) (hi : i ∈ s.rtab) (hj : s.brk ≤ j) : i ≠ j := by
  rintro rfl
  obtain ⟨b, hb, -⟩ := h.svccbs_of_mem hi
  rw [(h.fresh i hj).1] at hb
  cases hb

theorem given_ne_cached (h : TableInv s) (hi : i ∈ s.given) (hj : j ∈ s.rq) : i ≠ j := by
  rintro rfl
  obtain ⟨b, hb, hsrv, -⟩ := h.inProgress i hi
  obtain ⟨b', r, hb', hsrv', -⟩ := h.cached i hj
  rw [hb, Option.some.injEq] at hb'
  rw [hb', hsrv'] at hsrv
  cases hsrv

theorem nodup_given (h : TableInv s) : s.given.Nodup :=
  (List.nodup_append.mp (h.perm.nodup_iff.mp h.nodup)).1

theorem frame (h : TableInv s) {brk : ℕ} (hrel : xi.reliable = s.xi.reliable)
    (hconn : xi.connected = s.xi.connected) (hsize : xi.socksize = s.xi.socksize)
    (hbrk : s.brk ≤ brk) (hlog : ∀ i, firstSent (s.log ++ l) i = firstSent s.log i) :
    TableInv { s with xi := xi, brk := brk, log := s.log ++ l } where
  kind := h.kind
  dgram := hrel.trans h.dgram
  pend := h.pend
  perm := h.perm
  nodup := h.nodup
  fresh i hi := by
    rw [hlog]
    exact h.fresh i (hbrk.trans hi)
  inProgress i hi := by
    simp only [SrcOk, hconn, hsize, hlog]
    exact h.inProgress i hi
  cached i hi := by
    simp only [SrcOk, hconn, hsize, hlog]
    exact h.cached i hi
  keys := h.keys

theorem insert (h : TableInv s) (hsrc : SrcOk s.xi src)
    (hnew : ∀ i ∈ s.rtab, ∀ ob, s.svccbs i = some ob → ob.key ≠ (newSvccb s.xi m src).key) :
    TableInv ({ s.init m src with
      rtab := s.brk :: s.rtab
      given := s.given ++ [s.brk] }.out (.serve s.brk)) := by
  have hlog : ∀ i, firstSent (s.log ++ [.serve s.brk]) i = firstSent s.log i := by
    intro i
    simp [firstSent]
  have haddr : SrcOk s.xi (newSvccb s.xi m src).addr := by
    unfold SrcOk newSvccb at *
    cases hconn : s.xi.connected
    · simpa [hconn] using hsrc
    · simp
  have hother : ∀ i ∈ s.rtab,
      Function.update s.svccbs s.brk (some (newSvccb s.xi m src)) i = s.svccbs i :=
    fun i hi => Function.update_of_ne (h.ne_of_fresh hi le_rfl) _ _
  have hself : Function.update s.svccbs s.brk (some (newSvccb s.xi m src)) s.brk =
      some (newSvccb s.xi m src) := Function.update_self ..
  constructor
  case kind => exact h.kind
  case dgram => exact h.dgram
  case pend => exact h.pend
  case perm =>
    apply ((h.perm.cons s.brk).trans List.perm_middle.symm).trans
    simp [out, init, put]
  case nodup =>
    apply List.nodup_cons.mpr
    exact ⟨fun hi => h.ne_of_fresh hi le_rfl rfl, h.nodup⟩
  case fresh =>
    intro i hi
    have hi : s.brk + 1 ≤ i := hi
    constructor
    · exact (Function.update_of_ne (by omega) _ _).trans (h.fresh i (by omega)).1
    · exact (hlog i).trans (h.fresh i (by omega)).2
  case inProgress =>
    intro i hi
    rcases List.mem_append.mp hi with hi | hi
    · obtain ⟨b, hb, hsrv, hres, hsrcb, hsent⟩ := h.inProgress i hi
      exact ⟨b, (hother i (h.mem_rtab.mpr (.inl hi))).trans hb, hsrv, hres, hsrcb,
        (hlog i).trans hsent⟩
    · rw [List.mem_singleton] at hi
      subst hi
      exact ⟨_, hself, rfl, rfl, haddr, (hlog _).trans (h.fresh _ le_rfl).2⟩
  case cached =>
    intro i hi
    obtain ⟨b, r, hb, hsrv, hres, hsrcb, hsent⟩ := h.cached i hi
    exact ⟨b, r, (hother i (h.mem_rtab.mpr (.inr hi))).trans hb, hsrv, hres, hsrcb,
      (hlog i).trans hsent⟩
  case keys =>
    intro i hi j hj a b ha hb hkey
    change Function.update s.svccbs s.brk _ i = _ at ha
    change Function.update s.svccbs s.brk _ j = _ at hb
    rcases List.mem_cons.mp hi with rfl | hi <;> rcases List.mem_cons.mp hj with rfl | hj
    · rfl
    · rw [hself, Option.some.injEq] at ha
      rw [hother j hj] at hb
      exact absurd (ha ▸ hkey.symm) (hnew j hj b hb)
    · rw [hself, Option.some.injEq] at hb
      rw [hother i hi] at ha
      exact absurd (hb ▸ hkey) (hnew i hi a ha)
    · rw [hother i hi] at ha
      rw [hother j hj] at hb
      exact h.keys i hi j hj a b ha hb hkey

theorem forget (h : TableInv s) {given rq : List ℕ} {rsize : BitVec 32} {log : List Out}
    (hmem : sbp ∈ s.rtab) (hperm : (s.rtab.erase sbp).Perm (given ++ rq)) (hgiven : given ⊆ s.given)
    (hrq : rq ⊆ s.rq) (hrel : xi.reliable = s.xi.reliable) (hconn : xi.connected = s.xi.connected)
    (hsize : xi.socksize = s.xi.socksize)
    (hlog : ∀ i, i ≠ sbp → firstSent log i = firstSent s.log i) :
    TableInv { s with
      given := given
      rtab := s.rtab.erase sbp
      rq := rq
      rsize := rsize
      svccbs := Function.update s.svccbs sbp none
      xi := xi
      log := log } := by
  have hrtab : ∀ i ∈ s.rtab.erase sbp, i ≠ sbp ∧ i ∈ s.rtab :=
    fun i hi => h.nodup.mem_erase_iff.mp hi
  have hstay : ∀ i ∈ given ++ rq, i ≠ sbp := fun i hi => (hrtab i (hperm.mem_iff.mpr hi)).1
  have hother : ∀ i, i ≠ sbp → Function.update s.svccbs sbp none i = s.svccbs i :=
    fun i hi => Function.update_of_ne hi _ _
  constructor
  case kind => exact h.kind
  case dgram => exact hrel.trans h.dgram
  case pend => exact h.pend
  case perm => exact hperm
  case nodup => exact h.nodup.erase sbp
  case fresh =>
    intro i hi
    have hne : i ≠ sbp := (h.ne_of_fresh hmem hi).symm
    exact ⟨(hother i hne).trans (h.fresh i hi).1, (hlog i hne).trans (h.fresh i hi).2⟩
  case inProgress =>
    intro i hi
    have hne : i ≠ sbp := hstay i (List.mem_append_left _ hi)
    simp only [SrcOk, hconn, hsize, hlog i hne, hother i hne]
    exact h.inProgress i (hgiven hi)
  case cached =>
    intro i hi
    have hne : i ≠ sbp := hstay i (List.mem_append_right _ hi)
    simp only [SrcOk, hconn, hsize, hlog i hne, hother i hne]
    exact h.cached i (hrq hi)
  case keys =>
    intro i hi j hj a b ha hb
    obtain ⟨hnei, hi⟩ := hrtab i hi
    obtain ⟨hnej, hj⟩ := hrtab j hj
    exact h.keys i hi j hj a b ((hother i hnei).symm.trans ha) ((hother j hnej).symm.trans hb)

theorem drop (h : TableInv s) (hmem : sbp ∈ s.given) (hrel : xi.reliable = s.xi.reliable)
    (hconn : xi.connected = s.xi.connected) (hsize : xi.socksize = s.xi.socksize)
    (hlog : ∀ i, i ≠ sbp → firstSent (s.log ++ l) i = firstSent s.log i) :
    TableInv { s with
      given := s.given.erase sbp
      rtab := s.rtab.erase sbp
      svccbs := Function.update s.svccbs sbp none
      xi := xi
      log := s.log ++ l } := by
  have hperm := h.perm.erase sbp
  rw [List.erase_append_left _ hmem] at hperm
  exact h.forget (h.mem_rtab.mpr (.inl hmem)) hperm (List.erase_subset ..) (List.Subset.refl _)
    hrel hconn hsize hlog

theorem cache (h : TableInv s) (hmem : sbp ∈ s.given)
    (hb : s.svccbs sbp = some b) (rsize : BitVec 32) :
    TableInv { s with
      given := s.given.erase sbp
      rq := s.rq ++ [sbp]
      rsize := rsize
      svccbs := Function.update s.svccbs sbp (some { b with res := some x, srv := false })
      log := s.log ++ [.send (some sbp) x b.addr, .answered sbp] } := by
  have hgiven : ∀ i ∈ s.given.erase sbp, i ≠ sbp ∧ i ∈ s.given :=
    fun i hi => h.nodup_given.mem_erase_iff.mp hi
  have hother : ∀ i, i ≠ sbp →
      Function.update s.svccbs sbp (some { b with res := some x, srv := false }) i =
        s.svccbs i :=
    fun i hi => Function.update_of_ne hi _ _
  have hlog : ∀ i, firstSent (s.log ++ [.send (some sbp) x b.addr, .answered sbp]) i =
      (firstSent s.log i).or (if sbp = i then some (x, b.addr) else none) := by
    intro i
    rw [firstSent_append, ← firstSent_send]
    congr 1
  have hlogne : ∀ i, i ≠ sbp →
      firstSent (s.log ++ [.send (some sbp) x b.addr, .answered sbp]) i = firstSent s.log i := by
    intro i hi
    rw [hlog, if_neg (Ne.symm hi), Option.or_none]
  obtain ⟨b', hb', -, -, hsrc, hunsent⟩ := h.inProgress sbp hmem
  obtain rfl : b = b' := Option.some.inj (hb.symm.trans hb')
  constructor
  case kind => exact h.kind
  case dgram => exact h.dgram
  case pend => exact h.pend
  case perm =>
    apply h.perm.trans
    apply ((List.perm_cons_erase hmem).append_right s.rq).trans
    rw [List.cons_append, ← List.append_assoc]
    exact (List.perm_append_singleton _ _).symm
  case nodup => exact h.nodup
  case fresh =>
    intro i hi
    have hne : i ≠ sbp := (h.ne_of_fresh (h.mem_rtab.mpr (.inl hmem)) hi).symm
    exact ⟨(hother i hne).trans (h.fresh i hi).1, (hlogne i hne).trans (h.fresh i hi).2⟩
  case inProgress =>
    intro i hi
    obtain ⟨hne, hi⟩ := hgiven i hi
    simp only [hlogne i hne, hother i hne]
    exact h.inProgress i hi
  case cached =>
    intro i hi
    rcases List.mem_append.mp hi with hi | hi
    · have hne : i ≠ sbp := (h.given_ne_cached hmem hi).symm
      simp only [hlogne i hne, hother i hne]
      exact h.cached i hi
    · rw [List.mem_singleton] at hi
      subst hi
      refine ⟨_, x, Function.update_self .., rfl, rfl, hsrc, ?_⟩
      rw [hlog, hunsent, if_pos rfl, Option.none_or]
  case keys =>
    have hsame : ∀ i a,
        Function.update s.svccbs sbp (some { b with res := some x, srv := false }) i = some a →
          ∃ a', s.svccbs i = some a' ∧ a'.key = a.key := by
      intro i a ha
      by_cases hi : i = sbp
      · subst hi
        rw [Function.update_self, Option.some.injEq] at ha
        exact ⟨b, hb, ha ▸ rfl⟩
      · rw [hother i hi] at ha
        exact ⟨a, ha, rfl⟩
    intro i hi j hj a a' ha ha' hkey
    obtain ⟨c, hc, hck⟩ := hsame i a ha
    obtain ⟨c', hc', hck'⟩ := hsame j a' ha'
    exact h.keys i hi j hj c c' hc hc' (hck.trans (hkey.trans hck'.symm))

theorem evict (h : TableInv s) {rq : List ℕ} (hrq : s.rq = sbp :: rq) (rsize : BitVec 32) :
    TableInv { s with
      rtab := s.rtab.erase sbp
      rq := rq
      rsize := rsize
      svccbs := Function.update s.svccbs sbp none } := by
  have hmem : sbp ∈ s.rq := hrq ▸ List.mem_cons_self
  have hperm := h.perm
  rw [hrq] at hperm
  have hperm := (hperm.trans List.perm_middle).erase sbp
  rw [List.erase_cons_head] at hperm
  exact h.forget (h.mem_rtab.mpr (.inr hmem)) hperm (List.Subset.refl _)
    (hrq ▸ List.subset_cons_self ..) rfl rfl rfl fun i hi => rfl

end TableInv

theorem find_spec {svccbs : ℕ → Option Svccb} {l : List ℕ}
    (hmem : ∀ i ∈ l, ∃ ob, svccbs i = some ob ∧ b.addr.isSome = ob.addr.isSome)
    (hcmp : ∀ i ∈ l, ∀ ob, svccbs i = some ob → ob.key = b.key → b.Comparable ob) :
    (find svccbs b l = some none ∧ ∀ i ∈ l, ∀ ob, svccbs i = some ob → ob.key ≠ b.key) ∨
      ∃ i ∈ l, ∃ ob, svccbs i = some ob ∧ ob.key = b.key ∧ find svccbs b l = some (some i) := by
  induction l with
  | nil =>
    left
    exact ⟨rfl, fun i hi => absurd hi List.not_mem_nil⟩
  | cons j l ih =>
    obtain ⟨ob, hob, haddr⟩ := hmem j List.mem_cons_self
    have ih := ih (fun i hi => hmem i (List.mem_cons_of_mem _ hi))
      (fun i hi => hcmp i (List.mem_cons_of_mem _ hi))
    by_cases hkey : ob.key = b.key
    · obtain ⟨heq, hhash⟩ :=
        Svccb.eq_of_comparable (hcmp j List.mem_cons_self ob hob hkey) hkey.symm
      right
      refine ⟨j, List.mem_cons_self, ob, hob, hkey, ?_⟩
      simp [find, hob, hhash, heq]
    · -- the comparison is made and says no, so the search goes on
      have hnext : find svccbs b (j :: l) = find svccbs b l := by
        simp only [find, hob, Option.bind_eq_bind, Option.bind_some]
        split
        · cases heq : b.eq ob with
          | none => exact absurd (Svccb.key_eq_of_eq_none heq haddr).symm hkey
          | some r =>
            cases r
            · rfl
            · exact absurd (Svccb.key_eq_of_eq heq).symm hkey
        · rfl
      rw [hnext]
      rcases ih with ⟨hfind, hnone⟩ | ⟨i, hi, ob', hob', hkey', hfind⟩
      · left
        refine ⟨hfind, fun i hi => ?_⟩
        rcases List.mem_cons.mp hi with rfl | hi
        · intro ob' hob'
          obtain rfl : ob = ob' := Option.some.inj (hob.symm.trans hob')
          exact hkey
        · exact hnone i hi
      · right
        exact ⟨i, List.mem_cons_of_mem _ hi, ob', hob', hkey', hfind⟩

/-- The copies of a new call that are in the table can be told, and the counter of the
transport does not wrap when they come. -/
def CopiesFound (s : Asrv) (b : Svccb) : Prop :=
  ∀ i ∈ s.rtab, ∀ ob, s.svccbs i = some ob → ob.key = b.key →
    b.Comparable ob ∧ s.xi.nsvc + 1 ≠ 0

theorem SrcOk.isSome {addr : Option (List Byte)} (h : SrcOk xi addr) :
    addr.isSome = !xi.connected := by
  unfold SrcOk at h
  cases hc : xi.connected <;> cases addr <;> simp_all

theorem srcOk_newSvccb (h : SrcOk xi src) (m : CallMsg) : SrcOk xi (newSvccb xi m src).addr := by
  unfold SrcOk newSvccb at *
  cases hconn : xi.connected
  · simpa [hconn] using h
  · simp

/-- The answer to a second copy: nothing while the first is in progress, and what was sent
first when there is a reply. -/
def Resent (s : Asrv) (i : ℕ) (l : List Out) : Prop :=
  (i ∈ s.given ∧ l = []) ∨
    ∃ r addr, i ∈ s.rq ∧ firstSent s.log i = some (r, addr) ∧ l = [.send (some i) r addr]

theorem Resent.firstSent {s : Asrv} (h : Resent s i l) (j : ℕ) :
    firstSent (s.log ++ l) j = Asrv.firstSent s.log j := by
  rcases h with ⟨-, rfl⟩ | ⟨r, addr, -, hfirst, rfl⟩
  · rw [List.append_nil]
  · rw [firstSent_append, firstSent_send]
    by_cases hij : i = j
    · subst hij
      rw [hfirst, Option.some_or]
    · rw [if_neg hij, Option.or_none]

variable {io : Io}

theorem isreplay_of_find {s : Asrv} (hkind : s.kind = .unreliable) (hb : s.svccbs sbp = some b) :
    (find s.svccbs b s.rtab = some none →
      s.isreplay sbp io = some (false, { s with rtab := sbp :: s.rtab })) ∧
    (∀ i ob, find s.svccbs b s.rtab = some (some i) → s.svccbs i = some ob →
      (ob.res = none → s.isreplay sbp io = some (true, s)) ∧
      (∀ r ok s', ob.res = some r → s.sendv (some i) r ob.addr io = some (ok, s') →
        s.isreplay sbp io = some (true, s'))) := by
  constructor
  · intro hfind
    simp only [isreplay, hkind, lookup, hb, hfind, Option.bind_eq_bind, Option.bind_some]
  · intro i ob hfind hob
    constructor
    · intro hres
      simp only [isreplay, hkind, lookup, hb, hfind, hob, hres, Option.bind_eq_bind,
        Option.bind_some]
    · intro r ok s' hres hsend
      simp only [isreplay, hkind, lookup, hb, hfind, hob, hres, hsend, Option.bind_eq_bind,
        Option.bind_some]

namespace TableInv

variable {s : Asrv}

theorem isreplay_spec (h : TableInv s)
    (hsrc : SrcOk s.xi src) (hcopies : CopiesFound s (newSvccb s.xi m src)) (io : Io) :
    ((∀ i ∈ s.rtab, ∀ ob, s.svccbs i = some ob → ob.key ≠ (newSvccb s.xi m src).key) ∧
      (s.init m src).isreplay s.brk io =
        some (false, { s.init m src with rtab := s.brk :: s.rtab })) ∨
    ∃ i ∈ s.rtab, ∃ ob, s.svccbs i = some ob ∧ ob.key = (newSvccb s.xi m src).key ∧
      ∃ l, Resent s i l ∧
        (s.init m src).isreplay s.brk io =
          some (true, { s.init m src with log := s.log ++ l }) := by
  have hself : (s.init m src).svccbs s.brk = some (newSvccb s.xi m src) :=
    Function.update_self ..
  have hother : ∀ i ∈ s.rtab, (s.init m src).svccbs i = s.svccbs i :=
    fun i hi => Function.update_of_ne (h.ne_of_fresh hi le_rfl) _ _
  have hkind : (s.init m src).kind = .unreliable := h.kind
  have hmem : ∀ i ∈ s.rtab, ∃ ob, (s.init m src).svccbs i = some ob ∧
      (newSvccb s.xi m src).addr.isSome = ob.addr.isSome := by
    intro i hi
    obtain ⟨ob, hob, hsrcb⟩ := h.svccbs_of_mem hi
    exact ⟨ob, (hother i hi).trans hob,
      (srcOk_newSvccb hsrc m).isSome.trans hsrcb.isSome.symm⟩
  have hcmp : ∀ i ∈ s.rtab, ∀ ob, (s.init m src).svccbs i = some ob →
      ob.key = (newSvccb s.xi m src).key → (newSvccb s.xi m src).Comparable ob :=
    fun i hi ob hob hkey => (hcopies i hi ob ((hother i hi).symm.trans hob) hkey).1
  have hreplay := @isreplay_of_find _ _ io (s.init m src) hkind hself
  rcases find_spec hmem hcmp with ⟨hfind, hnone⟩ | ⟨i, hi, ob, hob, hkey, hfind⟩
  · left
    exact ⟨fun i hi ob hob => hnone i hi ob ((hother i hi).trans hob), hreplay.1 hfind⟩
  · right
    have hobs : s.svccbs i = some ob := (hother i hi).symm.trans hob
    refine ⟨i, hi, ob, hobs, hkey, ?_⟩
    rcases h.mem_rtab.mp hi with hgiven | hcached
    · obtain ⟨ob', hob', -, hres, -⟩ := h.inProgress i hgiven
      obtain rfl : ob = ob' := Option.some.inj (hobs.symm.trans hob')
      refine ⟨[], .inl ⟨hgiven, rfl⟩, ?_⟩
      rw [List.append_nil]
      exact (hreplay.2 i ob hfind hob).1 hres
    · obtain ⟨ob', r, hob', -, hres, hsrcb, hsent⟩ := h.cached i hcached
      obtain rfl : ob = ob' := Option.some.inj (hobs.symm.trans hob')
      have hsend : (s.init m src).sendv (some i) r ob.addr io =
          some (true, (s.init m src).out (.send (some i) r ob.addr)) :=
        sendv_dgram h.dgram hsrcb
      exact ⟨_, .inr ⟨r, ob.addr, hcached, hsent, rfl⟩,
        (hreplay.2 i ob hfind hob).2 r true _ hres hsend⟩

end TableInv

theorem delete_new {s t t' : Asrv} (hfresh : s.svccbs s.brk = none)
    (ht : t.svccbs = Function.update s.svccbs s.brk (some b)) (hdel : t.delete s.brk = some t') :
    ∃ xi, SameXhinfo t.xi xi ∧ t' = { t with svccbs := s.svccbs, xi := xi } := by
  obtain ⟨b', xi, -, hxi, rfl⟩ := delete_eq_some.mp hdel
  refine ⟨xi, sameXhinfo_svcdel hxi, ?_⟩
  rw [ht, Function.update_idem, ← hfresh, Function.update_eq_self]

theorem svcadd_svcdel (h : xi.nsvc + 1 ≠ 0) : xi.svcadd.svcdel = some xi := by
  rw [svcdel_eq_some]
  refine ⟨h, ?_⟩
  simp only [Xhinfo.svcadd, BitVec.add_sub_cancel]

namespace TableInv

variable {s s' : Asrv}

theorem recv_copy (h : TableInv s) (hsrc : SrcOk s.xi src)
    (hcopies : CopiesFound s (newSvccb s.xi m src)) (hproc : m.cb_proc < s.rpcprog.nproc)
    (hi : i ∈ s.rtab) {ob : Svccb} (hob : s.svccbs i = some ob)
    (hkey : ob.key = (newSvccb s.xi m src).key) (body : List Byte) (io : Io) :
    ∃ l, Resent s i l ∧
      s.recv m body src io = some { s with brk := s.brk + 1, log := s.log ++ l } := by
  rcases h.isreplay_spec hsrc hcopies io with ⟨hnone, -⟩ | ⟨j, hj, ob', hob', hkey', l, hl, hreplay⟩
  · exact absurd hkey (hnone i hi ob hob)
  · obtain rfl : i = j := h.keys i hi j hj ob ob' hob hob' (hkey.trans hkey'.symm)
    refine ⟨l, hl, ?_⟩
    have hvalid : ¬ (s.init m src).rpcprog.nproc ≤ m.cb_proc := BitVec.not_le.mpr hproc
    have hself : (s.init m src).svccbs s.brk = some (newSvccb s.xi m src) :=
      Function.update_self ..
    have hdel : ({ s.init m src with log := s.log ++ l } : Asrv).delete s.brk =
        some { s with brk := s.brk + 1, log := s.log ++ l } := by
      rw [delete_eq_some]
      refine ⟨_, s.xi, hself, svcadd_svcdel (hcopies i hi ob hob hkey).2, ?_⟩
      have hback : Function.update (s.init m src).svccbs s.brk none = s.svccbs := by
        rw [init, put, Function.update_idem, ← (h.fresh s.brk le_rfl).1,
          Function.update_eq_self]
      simp only [hback]
      rfl
    simp only [recv, if_neg hvalid, hreplay, Option.bind_eq_bind, Option.bind_some, if_true, hdel]

end TableInv

theorem ReplayInv.recv {s s' : Asrv} (h : ReplayInv s) {body : List Byte} (hsrc : SrcOk s.xi src)
    (hcopies : m.cb_proc < s.rpcprog.nproc → CopiesFound s (newSvccb s.xi m src))
    (hs : s.recv m body src io = some s') : ReplayInv s' := by
  have hfresh := (h.fresh s.brk le_rfl).1
  have hsend : ∀ (rtab : List ℕ) (e : List Byte),
      ({ s.init m src with rtab := rtab } : Asrv).sendv none e src io =
        some (true, ({ s.init m src with rtab := rtab } : Asrv).out (.send none e src)) :=
    fun rtab e => sendv_dgram h.dgram hsrc
  have hlog : ∀ (e : List Byte) (l : List Out), (∀ i, firstSent l i = none) →
      ∀ i, firstSent (s.log ++ ([.send none e src] ++ l)) i = firstSent s.log i := by
    intro e l hl i
    rw [firstSent_append, firstSent_append, hl]
    simp [firstSent]
  by_cases hproc : m.cb_proc < s.rpcprog.nproc
  · rcases h.isreplay_spec hsrc (hcopies hproc) io with
      ⟨hnew, hreplay⟩ | ⟨i, hi, ob, hob, hkey, -⟩
    · have hvalid : ¬ (s.init m src).rpcprog.nproc ≤ m.cb_proc := BitVec.not_le.mpr hproc
      simp only [Asrv.recv, if_neg hvalid, hreplay, Option.bind_eq_bind, Option.bind_some,
        Bool.false_eq_true, if_false] at hs
      split at hs
      · -- the arguments are garbage: the call leaves the table again
        simp only [Option.bind_eq_some_iff] at hs
        obtain ⟨e, he, ⟨ok, s₁⟩, hs₁, hs⟩ := hs
        rw [hsend, Option.some.injEq] at hs₁
        cases hs₁
        rw [incSvccbCount_of_ne (by simp [out, init, put, h.kind]),
          finishNull_unreliable ?kind ?mem] at hs
        case kind => exact h.kind
        case mem => exact List.mem_cons_self
        obtain ⟨xi, hxi, rfl⟩ := delete_new hfresh rfl hs
        have htable := h.toTableInv.frame hxi.reliable hxi.connected hxi.socksize
          (Nat.le_succ _) (hlog e [.answered s.brk] fun _ => rfl)
        rw [← List.append_assoc] at htable
        have hback : (s.brk :: s.rtab).erase s.brk = s.rtab := List.erase_cons_head ..
        simp only [out, init, put, hback]
        exact ⟨htable, h.rsize, h.bound⟩
      · rw [incSvccbCount_of_ne (by simp [init, put, h.kind]), Option.some.injEq] at hs
        subst hs
        exact ⟨h.toTableInv.insert hsrc hnew, h.rsize, h.bound⟩
    · obtain ⟨l, hl, hrecv⟩ := h.recv_copy hsrc (hcopies hproc) hproc hi hob hkey body io
      rw [hrecv, Option.some.injEq] at hs
      subst hs
      exact ⟨h.toTableInv.frame rfl rfl rfl (Nat.le_succ _) hl.firstSent, h.rsize, h.bound⟩
  · -- PROC_UNAVAIL
    have hinvalid : (s.init m src).rpcprog.nproc ≤ m.cb_proc := BitVec.not_lt.mp hproc
    simp only [Asrv.recv, if_pos hinvalid, Option.bind_eq_bind, Option.bind_eq_some_iff] at hs
    obtain ⟨e, he, ⟨ok, s₁⟩, hs₁, hs⟩ := hs
    rw [show (s.init m src).sendv none e src io = _ from hsend s.rtab e, Option.some.injEq] at hs₁
    cases hs₁
    obtain ⟨xi, hxi, rfl⟩ := delete_new hfresh rfl hs
    have htable := h.toTableInv.frame hxi.reliable hxi.connected hxi.socksize (Nat.le_succ _)
      (hlog e [] fun _ => rfl)
    exact ⟨htable, h.rsize, h.bound⟩

namespace TableInv

variable {s s' : Asrv}

theorem delsbp_front (h : TableInv s) {rq : List ℕ} (hrq : s.rq = i :: rq) :
    s.delsbp i = some { s with
      rtab := s.rtab.erase i
      rq := rq
      svccbs := Function.update s.svccbs i none } := by
  have hmem : i ∈ s.rq := hrq ▸ List.mem_cons_self
  obtain ⟨b, r, hb, hsrv, -⟩ := h.cached i hmem
  have hrtab : remove s.rtab i = some (s.rtab.erase i) :=
    remove_eq_some.mpr ⟨h.mem_rtab.mpr (.inr hmem), rfl⟩
  have hrq' : remove s.rq i = some rq :=
    remove_eq_some.mpr ⟨hmem, by rw [hrq, List.erase_cons_head]⟩
  simp only [delsbp, hrtab, hrq', Option.bind_eq_bind, Option.bind_some]
  rw [delete_eq_some]
  exact ⟨b, s.xi, hb, by rw [if_neg (by simp [hsrv])], rfl⟩

/-- The loop evicts at most one reply, the first of the queue. -/
theorem evictOver (h : TableInv s) (hsize : s.rsize.toNat = s.rq.length)
    (hle : s.rsize.toNat ≤ 17) (hs : evictOver s.rq s = some s') : ReplayInv s' := by
  unfold Asrv.evictOver at hs
  split at hs
  · rename_i hbound
    rw [Option.some.injEq] at hs
    exact hs ▸ ⟨h, hsize, hbound⟩
  · rename_i hover
    cases hrq : s.rq with
    | nil =>
      rw [hrq] at hs
      cases hs
    | cons i rq =>
      have hlen : s.rsize.toNat = rq.length + 1 := by rw [hsize, hrq, List.length_cons]
      have hsub : (s.rsize - 1).toNat = rq.length := by
        rw [BitVec.toNat_sub_of_le]
        · rw [hlen]
          rfl
        · rw [BitVec.le_def, hlen]
          exact Nat.le_add_left _ _
      have hbound : s.rsize - 1 ≤ maxrsize := by
        rw [BitVec.le_def, hsub]
        change rq.length ≤ 16
        omega
      simp only [hrq, h.delsbp_front hrq, Option.bind_eq_bind, Option.bind_some] at hs
      unfold Asrv.evictOver at hs
      rw [if_pos hbound, Option.some.injEq] at hs
      exact hs ▸ ⟨h.evict hrq _, hsub, hbound⟩

end TableInv

theorem sendreply_dgram {s : Asrv} {nocache sync : Bool} {io' : Io} (hkind : s.kind = .unreliable)
    (hrel : s.xi.reliable = false) (hb : s.svccbs sbp = some b) (hsrc : SrcOk s.xi b.addr) :
    s.sendreply sbp x nocache io io' sync =
      ((s.put sbp { b with res := some x }).out (.send (some sbp) x b.addr)).finishReplay
        sbp nocache := by
  have hateof : s.xi.ateof = false := by simp [Xhinfo.ateof, hrel]
  have hsend : (s.put sbp { b with res := some x }).sendv (some sbp) x b.addr io =
      some (true, (s.put sbp { b with res := some x }).out (.send (some sbp) x b.addr)) :=
    sendv_dgram hrel hsrc
  have hsent : ((s.put sbp { b with res := some x }).out (.send (some sbp) x b.addr)).xi.ateof =
      false := hateof
  have hput : (s.put sbp { b with res := some x }).xi.ateof = false := hateof
  simp only [sendreply, hkind, hb, hput, hsend, sent, hsent, finish, Option.bind_eq_bind,
    Option.bind_some, reduceCtorEq, false_and, and_false, if_false, Bool.false_eq_true]

theorem finishReplay_nocache {s : Asrv} (hb : s.svccbs sbp = some b) (hmem : sbp ∈ s.rtab) :
    s.finishReplay sbp true =
      { s.out (.answered sbp) with rtab := s.rtab.erase sbp }.delete sbp := by
  have hrtab : remove (s.out (.answered sbp)).rtab sbp = some (s.rtab.erase sbp) :=
    if_pos hmem
  simp only [finishReplay, hb, hrtab, Option.bind_eq_bind, Option.bind_some, if_true]

theorem finishReplay_unreliable {s : Asrv} (hkind : s.kind = .unreliable)
    (hb : s.svccbs sbp = some b) :
    s.finishReplay sbp false =
      evictOver (s.rq ++ [sbp])
        { (s.out (.answered sbp)).put sbp { b with srv := false } with
          rsize := s.rsize + 1, rq := s.rq ++ [sbp] } := by
  have hkind' : (s.out (.answered sbp)).kind = .unreliable := hkind
  simp only [finishReplay, hb, hkind', Option.bind_eq_bind, Option.bind_some,
    Bool.false_eq_true, if_false]
  rfl

theorem ReplayInv.reply {s s' : Asrv} (h : ReplayInv s) (hmem : sbp ∈ s.given)
    {nocache sync : Bool} {io' : Io}
    (hs : ({ s with given := s.given.erase sbp } : Asrv).sendreply sbp x nocache io io' sync =
      some s') : ReplayInv s' := by
  obtain ⟨b, hb, hsrv, hres, hsrc, hunsent⟩ := h.inProgress sbp hmem
  have hrtab : sbp ∈ s.rtab := h.mem_rtab.mpr (.inl hmem)
  rw [sendreply_dgram (b := b) ?kind ?rel ?svccbs ?src] at hs
  case kind => exact h.kind
  case rel => exact h.dgram
  case svccbs => exact hb
  case src => exact hsrc
  cases nocache
  · -- the reply is remembered, and another one may be evicted
    have htable := h.toTableInv.cache (x := x) hmem hb (s.rsize + 1)
    rw [finishReplay_unreliable ?kind (Function.update_self ..)] at hs
    case kind => exact h.kind
    have hrsize := h.rsize
    have hbound : s.rsize.toNat ≤ 16 := h.bound
    have hsize : (s.rsize + 1).toNat = (s.rq ++ [sbp]).length := by
      rw [BitVec.toNat_add, List.length_append, List.length_singleton]
      change (s.rsize.toNat + 1) % 2 ^ 32 = _
      omega
    apply htable.evictOver hsize
    · change (s.rsize + 1).toNat ≤ 17
      rw [hsize, List.length_append, List.length_singleton]
      omega
    · simp only [put, out, Function.update_idem, List.append_assoc, List.singleton_append] at hs
      exact hs
  · rw [finishReplay_nocache (Function.update_self ..) ?mem] at hs
    case mem => exact hrtab
    obtain ⟨b', xi, -, hxi, rfl⟩ := delete_eq_some.mp hs
    have hxi := sameXhinfo_svcdel hxi
    have hlog : ∀ i, i ≠ sbp →
        firstSent (s.log ++ [.send (some sbp) x b.addr, .answered sbp]) i = firstSent s.log i := by
      intro i hi
      rw [firstSent_append]
      simp [firstSent, Ne.symm hi]
    have htable := h.toTableInv.drop hmem hxi.reliable hxi.connected hxi.socksize hlog
    simp only [put, out, Function.update_idem, List.append_assoc, List.singleton_append]
    exact ⟨htable, h.rsize, h.bound⟩

theorem ReplayInv.ignore {s s' : Asrv} (h : ReplayInv s) (hmem : sbp ∈ s.given)
    (hl : ∀ i, firstSent l i = none)
    (hs : ({ s with given := s.given.erase sbp, log := s.log ++ l } : Asrv).finishNull sbp =
      some s') : ReplayInv s' := by
  rw [finishNull_unreliable ?kind ?mem] at hs
  case kind => exact h.kind
  case mem => exact h.mem_rtab.mpr (.inl hmem)
  obtain ⟨b, xi, -, hxi, rfl⟩ := delete_eq_some.mp hs
  have hxi := sameXhinfo_svcdel hxi
  have hlog : ∀ i, i ≠ sbp →
      firstSent (s.log ++ (l ++ [.answered sbp])) i = firstSent s.log i := by
    intro i hi
    rw [firstSent_append, firstSent_append, hl]
    simp [firstSent]
  have htable := h.toTableInv.drop hmem hxi.reliable hxi.connected hxi.socksize hlog
  rw [← List.append_assoc] at htable
  exact ⟨htable, h.rsize, h.bound⟩

theorem ReplayInv.reject {s s' : Asrv} (h : ReplayInv s) (hmem : sbp ∈ s.given)
    {stat : RejectStat} {sync : Bool}
    (hs : ({ s with given := s.given.erase sbp } : Asrv).reject sbp stat io sync = some s') :
    ReplayInv s' := by
  obtain ⟨b, hb, -, -, hsrc, -⟩ := h.inProgress sbp hmem
  have hateof : s.xi.ateof = false := by simp [Xhinfo.ateof, h.dgram]
  have hsend : ∀ e, ({ s with given := s.given.erase sbp } : Asrv).sendv none e b.addr io =
      some (true, ({ s with given := s.given.erase sbp } : Asrv).out (.send none e b.addr)) :=
    fun e => sendv_dgram h.dgram hsrc
  obtain ⟨e, hs⟩ : ∃ e, (({ s with given := s.given.erase sbp } : Asrv).out
      (.send none e b.addr)).sent (.null sbp) sync = some s' := by
    simp only [Asrv.reject, hb, hateof, hsend, Option.bind_eq_bind, Option.bind_some,
      Bool.false_eq_true, if_false] at hs
    cases stat with
    | auth stat =>
      simp only [Option.bind_eq_some_iff] at hs
      obtain ⟨e, -, hs⟩ := hs
      exact ⟨e, hs⟩
    | accept stat =>
      simp only [Option.bind_eq_some_iff] at hs
      obtain ⟨e, -, hs⟩ := hs
      exact ⟨e, hs⟩
  simp only [sent, out, hateof, Bool.false_eq_true, false_and, and_false, if_false, finish] at hs
  exact h.ignore hmem (fun i => rfl) hs

theorem ReplayInv.cbNull {s : Asrv} (h : ReplayInv s) (hxi : SameXhinfo s.xi xi) :
    ReplayInv ({ s with xi := xi } : Asrv).cbNull := by
  rw [cbNull_of_ne (by simp [h.kind])]
  have htable := h.toTableInv.frame (l := [.eof, .null]) hxi.reliable hxi.connected hxi.socksize
    le_rfl (fun i => by simp [firstSent])
  simp only [out, List.append_assoc, List.singleton_append]
  exact ⟨htable, h.rsize, h.bound⟩

theorem ReplayInv.out_none {s : Asrv} (h : ReplayInv s) (x : List Byte)
    (addr : Option (List Byte)) : ReplayInv (s.out (.send none x addr)) := by
  have htable := h.toTableInv.frame (l := [.send none x addr]) rfl rfl rfl le_rfl
    (fun i => by simp [firstSent])
  exact ⟨htable, h.rsize, h.bound⟩

variable (xdrCallmsg : List Byte → Option (CallMsg × List Byte))

/-- A packet is a call that reaches the server, for one of its procedures. -/
def IsCall (s : Asrv) (pkt : List Byte) (m : CallMsg) (body : List Byte) : Prop :=
  rpcInput xdrCallmsg s.xi.clist pkt = .call m body ∧ m.cb_rpcvers = rpcMsgVersion ∧
    (m.cb_prog, m.cb_vers) = (s.rpcprog.progno, s.rpcprog.versno) ∧
    m.cb_proc < s.rpcprog.nproc

/-- Every reply encodes, and a second copy of a call comes only where it can be told. -/
def CopiesCond (s : Asrv) : Event → Prop
  | .packet pkt src _ => ∀ m body, IsCall xdrCallmsg s pkt m body →
      CopiesFound s (newSvccb s.xi m src)
  | .encodeFails _ => False
  | _ => True

variable {xdrCallmsg}

theorem ReplayInv.dispatch {s s' : Asrv} (h : ReplayInv s) {pkt : List Byte} (hsrc : SrcOk s.xi src)
    (hcopies : ∀ m body, IsCall xdrCallmsg s pkt m body → CopiesFound s (newSvccb s.xi m src))
    (hs : s.dispatch xdrCallmsg pkt src io = some s') : ReplayInv s' := by
  have hsend : ∀ e, s.sendv none e src io = some (true, s.out (.send none e src)) :=
    fun e => sendv_dgram h.dgram hsrc
  simp only [Asrv.dispatch, hsend] at hs
  split at hs
  case h_1 =>
    rw [Option.some.injEq] at hs
    subst hs
    unfold xhinfoSeteof
    split
    · exact h.cbNull ⟨rfl, rfl, rfl, rfl⟩
    · exact h
  case h_2 => exact Option.some.inj hs ▸ h
  case h_3 =>
    rw [Option.some.injEq] at hs
    subst hs
    unfold asrvSeteof
    split
    · exact h.cbNull ⟨rfl, rfl, rfl, rfl⟩
    · exact h
  case h_4 m body hinput =>
    split at hs
    · exact Option.some.inj hs ▸ h.out_none _ _
    · rename_i hvers
      split at hs
      · rename_i hpv
        exact h.recv hsrc (fun hproc => hcopies m body ⟨hinput, not_not.mp hvers, hpv, hproc⟩) hs
      · split at hs
        · exact Option.some.inj hs ▸ h
        · simp only [Option.bind_eq_bind, Option.bind_some, Option.bind_eq_some_iff] at hs
          obtain ⟨e, -, hs⟩ := hs
          exact Option.some.inj hs ▸ h.out_none _ _

theorem ReplayInv.step {s s' : Asrv} {e : Event} (h : ReplayInv s)
    (hc : CopiesCond xdrCallmsg s e) (hs : s.step xdrCallmsg e = some s') : ReplayInv s' := by
  cases e with
  | packet pkt src io =>
    simp only [Asrv.step] at hs
    split at hs
    · rename_i hok
      exact h.dispatch hok.2 hc hs
    · cases hs
  | eof =>
    simp only [Asrv.step] at hs
    split at hs
    · rename_i hok
      have hs := Option.some.inj hs
      unfold xhinfoSeteof at hs
      rw [if_pos hok.2] at hs
      rw [← hs]
      exact h.cbNull ⟨rfl, rfl, rfl, rfl⟩
    · cases hs
  | fail => simp [Asrv.step, h.dgram] at hs
  | reply sbp res nocache io io' sync =>
    simp only [Asrv.step, Option.bind_eq_bind, Option.bind_eq_some_iff, take_eq_some] at hs
    obtain ⟨_, ⟨hmem, rfl⟩, hs⟩ := hs
    exact h.reply hmem hs
  | encodeFails sbp => exact absurd hc id
  | reject sbp stat io sync =>
    simp only [Asrv.step, Option.bind_eq_bind, Option.bind_eq_some_iff, take_eq_some] at hs
    obtain ⟨_, ⟨hmem, rfl⟩, hs⟩ := hs
    exact h.reject hmem hs
  | ignore sbp =>
    simp only [Asrv.step, Option.bind_eq_bind, Option.bind_eq_some_iff, take_eq_some] at hs
    obtain ⟨_, ⟨hmem, rfl⟩, hs⟩ := hs
    apply h.ignore (l := []) hmem (fun i => rfl)
    rwa [List.append_nil]
  | unwind => simp [Asrv.step, h.pend] at hs

theorem ReplayInv.alloc {rpcprog : RpcProgram} (hxi : xi.reliable = false) :
    ReplayInv (alloc rpcprog xi) where
  kind := by simp [Asrv.alloc, start, hxi]
  dgram := hxi
  pend := rfl
  perm := .refl _
  nodup := .nil
  fresh i hi := ⟨rfl, rfl⟩
  inProgress i hi := absurd hi List.not_mem_nil
  cached i hi := absurd hi List.not_mem_nil
  keys i hi := absurd hi List.not_mem_nil
  rsize := rfl
  bound := by
    change (0 : BitVec 32) ≤ 16
    decide

variable (xdrCallmsg)

/-- What the replay table of a server is for. -/
structure AtMostOnce (s : Asrv) : Prop where
  /-- The table is made of the calls in progress and of the replies remembered. -/
  union : s.rtab.Perm (s.given ++ s.rq) ∧ s.rtab.Nodup
  rsize : s.rsize.toNat = s.rq.length ∧ s.rsize ≤ maxrsize
  keys : ∀ i ∈ s.rtab, ∀ j ∈ s.rtab, ∃ a b, s.svccbs i = some a ∧ s.svccbs j = some b ∧
    (a.key = b.key → i = j)
  /-- A second copy of a call in the table changes nothing but the address that a new call
  would get, is not served, and is answered if there is an answer. -/
  copies : ∀ pkt src io m body i ob, IsCall xdrCallmsg s pkt m body → s.xi.rcb → SrcOk s.xi src →
    CopiesFound s (newSvccb s.xi m src) → i ∈ s.rtab → s.svccbs i = some ob →
    ob.key = (newSvccb s.xi m src).key →
    ∃ l, Resent s i l ∧
      s.step xdrCallmsg (.packet pkt src io) =
        some { s with brk := s.brk + 1, log := s.log ++ l }

theorem ReplayInv.atMostOnce {s : Asrv} (h : ReplayInv s) : AtMostOnce xdrCallmsg s where
  union := ⟨h.perm, h.nodup⟩
  rsize := ⟨h.rsize, h.bound⟩
  keys i hi j hj := by
    obtain ⟨a, ha, -⟩ := h.svccbs_of_mem hi
    obtain ⟨b, hb, -⟩ := h.svccbs_of_mem hj
    exact ⟨a, b, ha, hb, h.keys i hi j hj a b ha hb⟩
  copies pkt src io m body i ob hcall hrcb hsrc hcopies hi hob hkey := by
    obtain ⟨hinput, hvers, hpv, hproc⟩ := hcall
    obtain ⟨l, hl, hrecv⟩ := h.recv_copy hsrc hcopies hproc hi hob hkey body io
    refine ⟨l, hl, ?_⟩
    have hdispatch : s.dispatch xdrCallmsg pkt src io = s.recv m body src io := by
      simp only [Asrv.dispatch, hinput, hvers, hpv, ne_eq, not_true_eq_false, if_false, if_true]
    rw [Asrv.step, if_pos ⟨hrcb, hsrc⟩, hdispatch, hrecv]

/-- Where every reply encodes and second copies come only where they can be told, a server
on a transport for datagrams executes no call a second time while it remembers it. -/
theorem asrv_unreliable_run {rpcprog : RpcProgram} {xi : Xhinfo} (hxi : xi.reliable = false)
    {es : List Event} {s : Asrv}
    (hrun : Run (step xdrCallmsg) (CopiesCond xdrCallmsg) (alloc rpcprog xi) es s) :
    AtMostOnce xdrCallmsg s := by
  have hinv : ReplayInv s :=
    hrun.invariant (.alloc hxi) fun a e b ha hc hs => ha.step hc hs
  exact hinv.atMostOnce xdrCallmsg

/-- A program with one procedure, which has no arguments. -/
def nullProgram : RpcProgram := ⟨0x20000001, 1, 1, fun _ body => body.isEmpty⟩

def nullCallmsg (pkt : List Byte) : Option (CallMsg × List Byte) := do
  let (xid, b) ← getint pkt
  let (_, b) ← getint b
  let (rpcvers, b) ← getint b
  let (prog, b) ← getint b
  let (vers, b) ← getint b
  let (proc, b) ← getint b
  if b.length < 16 ∨ b.take 16 ≠ List.replicate 16 0 then none
  else some (⟨xid, rpcvers, prog, vers, proc⟩, b.drop 16)

def nullCall : List Byte := [7, 0, 2, 0x20000001, 1, 0, 0, 0, 0, 0].flatMap htonl

def dgram (connected : Bool) : Xhinfo :=
  ⟨0, false, connected, 16, fun _ => by decide, false, true, false, [], 0, 0, 0⟩

def inetAddr : List Byte := [2, 0, 3, 0xe8, 127, 0, 0, 1, 0, 0, 0, 0, 0, 0, 0, 0]

def nullMsg : CallMsg := ⟨7, 2, 0x20000001, 1, 0⟩

theorem rpcInput_nullCall (clist : Bool) :
    rpcInput nullCallmsg clist nullCall = .call nullMsg [] := by
  cases clist <;> decide +kernel

/-- A call that was answered is in the table and in the queue, and its second copy is answered
again. -/
theorem asrv_unreliable_run_null :
    ∃ s, AtMostOnce nullCallmsg s ∧ s.rtab = [0] ∧ s.rq = [0] ∧ s.given = [] := by
  have hcall : CopiesCond nullCallmsg (alloc nullProgram (dgram false))
      (.packet nullCall (some inetAddr) .ok) :=
    fun m body _ i hi => absurd hi List.not_mem_nil
  have hsteps : ((step nullCallmsg (alloc nullProgram (dgram false))
      (.packet nullCall (some inetAddr) .ok)).bind fun s =>
        (s.step nullCallmsg (.reply 0 [1] false .ok .ok false)).map fun s =>
          decide ((s.rtab = [0] ∧ s.rq = [0] ∧ s.given = []) ∧
            s.svccbs 0 = some ⟨nullMsg, false, some inetAddr, some [1], 0⟩ ∧
            (s.xi.nsvc = 1 ∧ s.xi.connected = false ∧ s.xi.socksize = 16 ∧ s.xi.rcb) ∧
            s.rpcprog.progno = 0x20000001 ∧ s.rpcprog.versno = 1 ∧ s.rpcprog.nproc = 1)) =
      some true := by
    decide +kernel
  obtain ⟨s₁, h₁, hs⟩ := Option.bind_eq_some_iff.mp hsteps
  obtain ⟨s₂, h₂, hs⟩ := Option.map_eq_some_iff.mp hs
  obtain ⟨hlists, hob, ⟨hnsvc, hconn, hsize, hrcb⟩, hprog, hvers, hproc⟩ := of_decide_eq_true hs
  have hrun : Run (step nullCallmsg) (CopiesCond nullCallmsg) (alloc nullProgram (dgram false))
      [.packet nullCall (some inetAddr) .ok, .reply 0 [1] false .ok .ok false] s₂ :=
    .cons hcall h₁ (.cons trivial h₂ (.nil _))
  have hfound : CopiesFound s₂ (newSvccb s₂.xi nullMsg (some inetAddr)) := by
    intro i hi ob hi' _
    obtain rfl : i = 0 := by simpa [hlists.1] using hi
    obtain rfl := Option.some.inj (hob.symm.trans hi')
    rw [newSvccb, hconn, hnsvc]
    exact ⟨⟨inetAddr, inetAddr, rfl, rfl, by decide, by decide, rfl, rfl⟩, by decide⟩
  have hagain : IsCall nullCallmsg s₂ nullCall nullMsg [] :=
    ⟨rpcInput_nullCall _, rfl, by rw [hprog, hvers]; rfl, by rw [hproc]; decide⟩
  have hcopies : CopiesCond nullCallmsg s₂ (.packet nullCall (some inetAddr) .ok) := by
    rintro m body ⟨hinput, -⟩
    rw [rpcInput_nullCall] at hinput
    cases hinput
    exact hfound
  obtain ⟨l, -, h₃⟩ := (asrv_unreliable_run nullCallmsg rfl hrun).copies nullCall (some inetAddr) .ok
    nullMsg [] 0 _ hagain hrcb (by rw [SrcOk, hconn, hsize]; rfl) hfound (by simp [hlists.1]) hob
    (by rw [newSvccb, hconn]; rfl)
  exact ⟨_, asrv_unreliable_run nullCallmsg rfl (hrun.snoc hcopies h₃), hlists⟩

/-- On a connected transport the second copy of a call that is in progress makes the server
follow a null pointer. -/
theorem asrv_unreliable_crashes :
    ∃ s, Run (step nullCallmsg) (fun _ e => ∀ sbp, e ≠ .encodeFails sbp)
        (alloc nullProgram (dgram true)) [.packet nullCall none .ok] s ∧
      s.rtab = [0] ∧ s.given = [0] ∧
      (s.svccbs 0).map Svccb.key =
        some (newSvccb s.xi ⟨7, 2, 0x20000001, 1, 0⟩ none).key ∧
      IsCall nullCallmsg s nullCall ⟨7, 2, 0x20000001, 1, 0⟩ [] ∧ s.xi.rcb ∧ SrcOk s.xi none ∧
      s.step nullCallmsg (.packet nullCall none .ok) = none := by
  have hstep : (step nullCallmsg (alloc nullProgram (dgram true))
      (.packet nullCall none .ok)).any fun s =>
        s.rtab = [0] ∧ s.given = [0] ∧
        (s.svccbs 0).map Svccb.key = some ⟨7, 0x20000001, 1, 0, none⟩ ∧
        (s.xi.connected ∧ s.xi.rcb ∧ s.xi.clist = false) ∧
        (s.rpcprog.progno = 0x20000001 ∧ s.rpcprog.versno = 1 ∧ s.rpcprog.nproc = 1) ∧
        (s.step nullCallmsg (.packet nullCall none .ok)).isNone := by
    decide +kernel
  have hinput : rpcInput nullCallmsg false nullCall = .call ⟨7, 2, 0x20000001, 1, 0⟩ [] := by
    decide +kernel
  obtain ⟨s, hs, hs'⟩ := (Option.any_eq_true ..).mp hstep
  simp only [decide_eq_true_eq, Option.isNone_iff_eq_none] at hs'
  obtain ⟨hrtab, hgiven, hkey, ⟨hconn, hrcb, hclist⟩, ⟨hprog, hvers, hproc⟩, hcrash⟩ := hs'
  refine ⟨s, .cons (fun sbp h => by cases h) hs (.nil _), hrtab, hgiven, ?_, ?_, hrcb, ?_, hcrash⟩
  · rw [hkey, newSvccb, if_pos hconn]
    rfl
  · rw [IsCall, hclist, hprog, hvers, hproc]
    exact ⟨hinput, rfl, rfl, by decide⟩
  · rw [SrcOk, if_pos hconn]
    rfl

end Sfslite.Arpc.Asrv
