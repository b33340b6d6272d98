import Sfslite.Arpc.AxprtDelivery
import Sfslite.Arpc.AxprtUnixQueue
import Mathlib.Data.List.TakeWhile

/-!
Descriptors between two transports. Up to each place of the stream at most as many markers are whole
as descriptors were written, because a call that writes sends the next descriptor and ends no later
than the next marker. So each marker finds its descriptor, as long as no read brings a fifth one to
a queue of four and none leaves more than the assertion behind the loop allows.
-/

namespace Sfslite.Arpc

open Sfslite.Lib

variable {φ : Type*}

namespace AxprtUnix

variable {s s' : AxprtUnix φ} {b b' : List Byte}

theorem doread_spec {fds : List φ} (hone : fds.length ≤ 1)
    (hroom : fds ≠ [] → s.fdrecvq.length < 4) (chunk : List Byte) :
    s.doread fds.head? chunk =
      { s with pktbuf := s.pktbuf ++ chunk, fdrecvq := s.fdrecvq ++ fds } := by
  match fds, hone with
  | [], _ => simp [doread]
  | [fd], _ =>
    have hlt := hroom (List.cons_ne_nil _ _)
    simp only [doread, List.head?_cons, if_neg (Nat.not_le_of_lt hlt)]

theorem getpkt_closed {r : Bool} (h : s.getpkt b = (r, b', s')) : s'.closed = s.closed := by
  have hs : s' = (s.getpkt b).2.2 := by rw [h]
  rw [hs, getpkt]
  split
  · rfl
  · split_ifs
    · cases hq : s.fdrecvq <;> simp [recvbreak, recvfd, hq]
    · split
      · rfl
      · split_ifs <;> rfl

theorem getpktLoop_closed {fuel : ℕ} (h : getpktLoop fuel s b = some (s', b')) :
    s'.closed = s.closed := by
  induction fuel generalizing s b with
  | zero => cases h
  | succ fuel ih =>
    obtain ⟨⟨r, b₁, s₁⟩, hget⟩ : ∃ r, s.getpkt b = r := ⟨_, rfl⟩
    have hclosed := getpkt_closed hget
    rw [getpktLoop, hget] at h
    cases r with
    | true => exact (ih h).trans hclosed
    | false =>
      cases h
      exact hclosed

theorem callgetpkt_closed (h : s.callgetpkt = some s') : s'.closed = s.closed := by
  obtain ⟨⟨s₁, b₁⟩, hloop, h⟩ := Option.bind_eq_some_iff.mp h
  have hclosed := getpktLoop_closed hloop
  dsimp only at h
  split_ifs at h
  · cases h
    exact hclosed
  · cases h
    exact hclosed

end AxprtUnix

namespace UnixWorld

open AxprtUnix

variable {w : UnixWorld φ} {pktsize : ℕ} {todo : List (Item φ)}

/-- The bytes that have left the sender and are not in a whole item yet. -/
def passed (w : UnixWorld φ) : ℕ := w.rcv.pktbuf.length + (wireBytes w.wire).length

/-- The items `todo` are under way. `ends` says where the sync points are, `count` that each
descriptor in the queue has one, `lead` and `early` that no marker is whole before its
descriptor is written. -/
structure Flow (pktsize : ℕ) (w : UnixWorld φ) (todo : List (Item φ)) : Prop where
  sndsize : w.snd.pktsize = pktsize
  rcvsize : w.rcv.pktsize = pktsize
  sndopen : w.snd.isopen = true
  rcvopen : w.rcv.isopen = true
  queue : w.snd.QueueOk
  sent : ∃ seen, w.sent = seen ++ todo ∧ w.rcv.got = seen.map Item.given ∧
    wireFds w.written = fdsOf seen ++ (w.rcv.fdrecvq ++ wireFds w.wire) ∧
    (wireBytes w.written).length = (stream seen).length + w.passed
  bytes : w.rcv.pktbuf ++ (wireBytes w.wire ++ w.snd.out.flatten) = stream todo
  fds : w.rcv.fdrecvq ++ (wireFds w.wire ++ w.snd.fdsendq) = fdsOf todo
  ends : ∀ n, markers todo (w.passed + n) =
    markers todo w.passed + w.snd.ends.countP (· ≤ n)
  count : w.snd.fdsendq.length ≤ w.snd.ends.length
  lead : ∀ before after, w.wire = before ++ after →
    markers todo (w.rcv.pktbuf.length + (wireBytes before).length) ≤
      w.rcv.fdrecvq.length + (wireFds before).length
  early : ∀ before after, w.written = before ++ after →
    markers w.sent (wireBytes before).length ≤ (wireFds before).length
  short : AxprtUnix.Short pktsize todo
  closed : w.rcv.closed = []
  kept : ∀ i is, todo = i :: is → w.rcv.pktbuf.length < i.size
  fits : w.rcv.pktbuf = [] ∨ w.rcv.pktbuf.length < pktsize

theorem flow_init : Flow pktsize (init pktsize : UnixWorld φ) [] := by
  refine ⟨rfl, rfl, rfl, rfl, ⟨nofun, .nil, nofun, nofun⟩, ⟨[], rfl, rfl, rfl, rfl⟩, rfl, rfl,
    fun n => rfl, Nat.le_refl _, fun before after _ => Nat.zero_le _,
    fun before after _ => Nat.zero_le _, nofun, rfl, nofun, Or.inl rfl⟩

theorem Flow.total (h : w.Flow pktsize todo) :
    (fdsOf todo).length = markers todo w.passed + w.snd.ends.length := by
  have hstream := congrArg List.length h.bytes
  rw [List.length_append, List.length_append, length_stream] at hstream
  have hall : ∀ n, w.snd.out.flatten.length ≤ n → markers todo (w.passed + n) =
      (fdsOf todo).length := by
    intro n hn
    rw [length_fdsOf]
    apply marks_all
    rw [passed]
    omega
  have hends : ∀ e ∈ w.snd.ends, e ≤ w.snd.out.flatten.length := by
    intro e he
    obtain ⟨p, -, rfl⟩ := List.mem_map.mp he
    have hle := length_flatten_take_le w.snd.out (Nat.le_max_left (p - w.snd.iovno) w.snd.out.length)
    rwa [List.take_of_length_le (Nat.le_max_right _ _)] at hle
  have hcount : w.snd.ends.countP (· ≤ w.snd.out.flatten.length) = w.snd.ends.length := by
    rw [List.countP_eq_length]
    exact fun e he => by simpa using hends e he
  rw [← hall _ (Nat.le_refl _), h.ends, hcount]

theorem Flow.markers_sent (h : w.Flow pktsize todo) (k : ℕ) :
    markers w.sent ((wireBytes w.written).length + k) + w.rcv.fdrecvq.length +
      (wireFds w.wire).length = (wireFds w.written).length + markers todo (w.passed + k) := by
  obtain ⟨seen, hsent, -, hlog, hlen⟩ := h.sent
  have hpast : (seen.map Item.size).sum ≤ (stream seen).length + w.passed + k := by
    rw [length_stream]
    omega
  have hsub : (seen.map Item.size).sum + w.passed + k - (seen.map Item.size).sum =
      w.passed + k := by omega
  rw [hsent, hlen, hlog, markers, marks_append hpast, length_stream, hsub, List.length_append,
    List.length_append, length_fdsOf, markers]
  omega

/-- One call writes a beginning of the queue that does not go beyond a sync point, and sends
the next descriptor if there is one. -/
theorem Flow.write (h : w.Flow pktsize todo) {fd : Option φ} {fds : List φ}
    (hfd : w.snd.fdsendq = fd.toList ++ fds) (hnone : fd = none → fds = []) {b : List Byte}
    (hlen : b.length ≤ w.snd.out.flatten.length) (hb : b = w.snd.out.flatten.take b.length)
    (hends : ∀ e ∈ w.snd.ends, b.length ≤ e) :
    (w.wrote ({ w.snd with fdsendq := fds }.rembytes b.length) [(fd, b)]).Flow pktsize todo ∧
      ∃ iovno out, ({ w.snd with fdsendq := fds }.rembytes b.length) =
        { w.snd with fdsendq := fds, iovno := iovno, out := out } ∧ w.snd.iovno ≤ iovno := by
  have hqueue : ({ w.snd with fdsendq := fds } : AxprtUnix φ).QueueOk :=
    { h.queue with }
  obtain ⟨iovno, out, hrem, hok, hflat, hshift⟩ := rembytes_spec hqueue hlen
  have hiovno : w.snd.iovno ≤ iovno := by
    have heq := congrArg AxprtUnix.iovno hrem
    simp only [rembytes] at heq
    omega
  have hends' : ({ w.snd with fdsendq := fds } : AxprtUnix φ).ends = w.snd.ends := rfl
  rw [hends'] at hshift
  rw [hrem]
  have hone := countP_le_one h.queue.ends_sorted hends
  have hkeep := length_filter_lt b.length w.snd.ends
  have hlen' : ((w.snd.ends.filter (b.length < ·)).map (· - b.length)).length =
      (w.snd.ends.filter (b.length < ·)).length := List.length_map _
  have hbytes : wireBytes (w.wire ++ [(fd, b)]) = wireBytes w.wire ++ b := by
    rw [wireBytes_append]
    exact congrArg _ (List.append_nil b)
  have hwfds : wireFds (w.wire ++ [(fd, b)]) = wireFds w.wire ++ fd.toList := by
    rw [wireFds_append, wireFds_cons]
    exact congrArg _ (List.append_nil _)
  have hwritten : wireBytes (w.written ++ [(fd, b)]) = wireBytes w.written ++ b := by
    rw [wireBytes_append]
    exact congrArg _ (List.append_nil b)
  have hwrittenFds : wireFds (w.written ++ [(fd, b)]) = wireFds w.written ++ fd.toList := by
    rw [wireFds_append, wireFds_cons]
    exact congrArg _ (List.append_nil _)
  have hpassed : w.rcv.pktbuf.length + (wireBytes (w.wire ++ [(fd, b)])).length =
      w.passed + b.length := by
    rw [hbytes, List.length_append, passed, Nat.add_assoc]
  have hends₂ : ∀ n, markers todo (w.passed + b.length + n) = markers todo (w.passed + b.length) +
      ((w.snd.ends.filter (b.length < ·)).map (· - b.length)).countP (· ≤ n) := by
    intro n
    rw [Nat.add_assoc, h.ends, h.ends, ← countP_shift (n := n) b.length w.snd.ends, Nat.add_assoc]
  have hcount : fds.length ≤ ((w.snd.ends.filter (b.length < ·)).map (· - b.length)).length := by
    have hold := h.count
    rw [hfd, List.length_append] at hold
    cases fd with
    | none => simp [hnone rfl]
    | some fd =>
      simp only [Option.toList, List.length_singleton] at hold
      omega
  have hnow : markers todo (w.passed + b.length) ≤
      w.rcv.fdrecvq.length + ((wireFds w.wire).length + fd.toList.length) := by
    have htotal := h.total
    have hpast := h.ends b.length
    rw [← h.fds, List.length_append, List.length_append, hfd, List.length_append] at htotal
    omega
  refine ⟨⟨h.sndsize, h.rcvsize, h.sndopen, h.rcvopen, hok, ?_, ?_, ?_, ?_, ?_, ?_, ?_, h.short,
    h.closed, h.kept, h.fits⟩, iovno, out, rfl, hiovno⟩
  · obtain ⟨seen, hsent, hgot, hlog, hlogLen⟩ := h.sent
    refine ⟨seen, hsent, hgot, ?_, ?_⟩
    · rw [wrote]
      dsimp only
      rw [hwrittenFds, hwfds, hlog]
      simp only [List.append_assoc]
    · rw [wrote, passed]
      dsimp only
      rw [hpassed, hwritten, List.length_append, hlogLen, Nat.add_assoc]
  · rw [wrote, ← h.bytes]
    dsimp only
    rw [hbytes, hflat]
    have hsplit : b ++ w.snd.out.flatten.drop b.length = w.snd.out.flatten := by
      conv_lhs => rw [hb]
      rw [List.length_take, Nat.min_eq_left hlen, List.take_append_drop]
    rw [List.append_assoc (wireBytes w.wire), hsplit]
  · rw [wrote, ← h.fds]
    dsimp only
    rw [hwfds, hfd, List.append_assoc]
  · intro n
    rw [wrote, passed]
    dsimp only
    rw [hpassed, hshift]
    exact hends₂ n
  · rw [wrote]
    dsimp only
    rw [hshift]
    exact hcount
  · intro before after hsplit
    rw [wrote] at hsplit ⊢
    dsimp only at hsplit ⊢
    rcases List.eq_nil_or_concat' after with rfl | ⟨after, c, rfl⟩
    · -- the call that was just made
      rw [List.append_nil] at hsplit
      rw [← hsplit, hpassed, hwfds, List.length_append]
      exact hnow
    · rw [← List.append_assoc] at hsplit
      exact h.lead before after (List.append_inj_left' hsplit rfl)
  · intro before after hsplit
    rw [wrote] at hsplit ⊢
    dsimp only at hsplit ⊢
    rcases List.eq_nil_or_concat' after with rfl | ⟨after, c, rfl⟩
    · rw [List.append_nil] at hsplit
      have hsent := h.markers_sent b.length
      rw [← hsplit, hwritten, hwrittenFds, List.length_append, List.length_append]
      omega
    · rw [← List.append_assoc] at hsplit
      exact h.early before after (List.append_inj_left' hsplit rfl)

theorem wrote_wrote (w : UnixWorld φ) (s s' : AxprtUnix φ) (a b : List (Chunk φ)) :
    (w.wrote s a).wrote s' b = w.wrote s' (a ++ b) := by
  simp only [wrote, List.append_assoc]

theorem wrote_self (w : UnixWorld φ) : w.wrote w.snd [] = w := by
  simp only [wrote, List.append_nil]

theorem Flow.suioOutput (h : w.Flow pktsize todo) (hfds : w.snd.fdsendq = []) {lim : Option ℕ}
    (hlim : ∀ p ∈ w.snd.live, ∃ l, lim = some l ∧ l ≤ p) {ws : List (Option ℕ)} (hws : none ∉ ws) :
    0 ≤ (AxprtUnix.suioOutput lim ws w.snd).1 ∧
      (w.wrote (AxprtUnix.suioOutput lim ws w.snd).2.1
        (AxprtUnix.suioOutput lim ws w.snd).2.2.1).Flow pktsize todo ∧
      none ∉ (AxprtUnix.suioOutput lim ws w.snd).2.2.2 := by
  induction ws generalizing w with
  | nil =>
    rw [AxprtUnix.suioOutput]
    exact ⟨Int.le_refl _, by rwa [wrote_self], hws⟩
  | cons r ws ih =>
    have hws' : none ∉ ws := fun hmem => hws (List.mem_cons_of_mem _ hmem)
    rw [AxprtUnix.suioOutput.eq_def]
    dsimp only
    split_ifs with hstop
    · exact ⟨Int.le_refl _, by rwa [wrote_self], hws⟩
    · match r with
      | none => exact absurd (List.mem_cons_self ..) hws
      | some 0 => exact ⟨Int.le_refl _, by rwa [wrote_self], hws'⟩
      | some (k + 1) =>
        obtain ⟨hlen, hb, hends⟩ := towrite_spec (s := w.snd) (k := k + 1) hlim
        obtain ⟨hflow, iovno, out, hrem, hle⟩ :=
          @Flow.write φ w pktsize todo h none [] hfds (fun _ => rfl) _ hlen hb hends
        have hsnd : ({ w.snd with fdsendq := [] } : AxprtUnix φ) = w.snd := by rw [← hfds]
        rw [hsnd] at hflow hrem
        have hlim' : ∀ p ∈ (w.snd.rembytes ((w.snd.towrite lim).take (k + 1)).length).live,
            ∃ l, lim = some l ∧ l ≤ p := by
          intro p hp
          rw [hrem] at hp
          obtain ⟨hmem, hlt⟩ := mem_live.mp hp
          exact hlim p (mem_live.mpr ⟨hmem, Nat.lt_of_le_of_lt hle hlt⟩)
        obtain ⟨hn, hrest, hleft⟩ := ih hflow (by rw [wrote, hrem]) hlim' hws'
        rw [wrote_wrote] at hrest
        dsimp only
        refine ⟨?_, hrest, hleft⟩
        rw [wrote] at hn
        dsimp only at hn
        rw [if_neg (Int.not_lt.mpr hn)]
        decide

theorem Flow.dowritev (h : w.Flow pktsize todo) {lim : Option ℕ}
    (hlim : ∀ p ∈ w.snd.live, ∃ l, lim = some l ∧ l ≤ p) {ws : List (Option ℕ)} (hws : none ∉ ws) :
    0 ≤ (w.snd.dowritev lim ws).1 ∧
      (w.wrote (w.snd.dowritev lim ws).2.1 (w.snd.dowritev lim ws).2.2.1).Flow pktsize todo ∧
      none ∉ (w.snd.dowritev lim ws).2.2.2 := by
  rw [AxprtUnix.dowritev]
  cases hfds : w.snd.fdsendq with
  | nil => exact h.suioOutput hfds hlim hws
  | cons fd fds =>
    match ws, hws with
    | [], hws => exact ⟨Int.le_refl _, by rwa [wrote_self], hws⟩
    | none :: ws, hws => exact absurd (List.mem_cons_self ..) hws
    | some 0 :: ws, hws =>
      exact ⟨Int.le_refl _, by rwa [wrote_self], fun hmem => hws (List.mem_cons_of_mem _ hmem)⟩
    | some (k + 1) :: ws, hws =>
      obtain ⟨hlen, hb, hends⟩ := towrite_spec (s := w.snd) (k := k + 1) hlim
      obtain ⟨hflow, -⟩ := @Flow.write φ w pktsize todo h (some fd) fds hfds nofun _ hlen hb hends
      exact ⟨Int.one_nonneg, hflow, fun hmem => hws (List.mem_cons_of_mem _ hmem)⟩

theorem Flow.dropSync (h : w.Flow pktsize todo) :
    ({ w with snd := { w.snd with
        syncpts := w.snd.syncpts.dropWhile (· ≤ w.snd.iovno) } } : UnixWorld φ).Flow pktsize todo ∧
      ∀ p ∈ ({ w.snd with
        syncpts := w.snd.syncpts.dropWhile (· ≤ w.snd.iovno) } : AxprtUnix φ).live,
          ∃ l, (w.snd.syncpts.dropWhile (· ≤ w.snd.iovno)).head? = some l ∧ l ≤ p := by
  have hsub : (w.snd.syncpts.dropWhile (· ≤ w.snd.iovno)).Sublist w.snd.syncpts :=
    List.dropWhile_sublist _
  have hsorted := h.queue.sorted.sublist hsub
  have hqueue : ({ w.snd with
      syncpts := w.snd.syncpts.dropWhile (· ≤ w.snd.iovno) } : AxprtUnix φ).QueueOk :=
    ⟨h.queue.pieces, hsorted, fun p hp => h.queue.bound p (hsub.subset hp),
      fun hbroken p hp => h.queue.behind hbroken p (hsub.subset hp)⟩
  have hlive : ({ w.snd with
      syncpts := w.snd.syncpts.dropWhile (· ≤ w.snd.iovno) } : AxprtUnix φ).ends = w.snd.ends := by
    have hfilter : (w.snd.syncpts.dropWhile (· ≤ w.snd.iovno)).filter (w.snd.iovno < ·) =
        w.snd.syncpts.filter (w.snd.iovno < ·) := by
      conv_rhs => rw [← List.takeWhile_append_dropWhile (p := (· ≤ w.snd.iovno))
        (l := w.snd.syncpts), List.filter_append]
      have hnil : (w.snd.syncpts.takeWhile (· ≤ w.snd.iovno)).filter (w.snd.iovno < ·) = [] := by
        rw [List.filter_eq_nil_iff]
        intro p hp
        have hle := List.mem_takeWhile_imp hp
        simpa using hle
      rw [hnil, List.nil_append]
    unfold AxprtUnix.ends AxprtUnix.live
    dsimp only
    rw [hfilter]
    rfl
  refine ⟨{ h with queue := hqueue, ends := ?_, count := ?_ }, fun p hp => ?_⟩
  · intro n
    dsimp only
    rw [hlive]
    exact h.ends n
  · dsimp only
    rw [hlive]
    exact h.count
  · obtain ⟨hmem, -⟩ := mem_live.mp hp
    dsimp only at hmem
    cases hdrop : w.snd.syncpts.dropWhile (· ≤ w.snd.iovno) with
    | nil =>
      rw [hdrop] at hmem
      exact absurd hmem List.not_mem_nil
    | cons l ls =>
      rw [hdrop] at hmem hsorted
      refine ⟨l, rfl, ?_⟩
      rcases List.mem_cons.mp hmem with rfl | hmem
      · exact Nat.le_refl _
      · exact Nat.le_of_lt (List.rel_of_pairwise_cons hsorted hmem)

theorem Flow.outputLoop (fuel : ℕ) (h : w.Flow pktsize todo) {ws : List (Option ℕ)}
    (hws : none ∉ ws) :
    0 ≤ (AxprtUnix.outputLoop fuel w.snd ws).1 ∧
      (w.wrote (AxprtUnix.outputLoop fuel w.snd ws).2.1
        (AxprtUnix.outputLoop fuel w.snd ws).2.2).Flow pktsize todo := by
  induction fuel generalizing w ws with
  | zero => exact ⟨Int.le_refl _, by rwa [AxprtUnix.outputLoop, wrote_self]⟩
  | succ fuel ih =>
    obtain ⟨hdrop, hlim⟩ := h.dropSync
    obtain ⟨hn, hflow, hws'⟩ := hdrop.dowritev hlim hws
    rw [AxprtUnix.outputLoop]
    dsimp only at hn hflow hws' ⊢
    split_ifs with hpos
    · obtain ⟨hn', hflow'⟩ := ih hflow hws'
      rw [wrote_wrote] at hflow'
      exact ⟨hn', hflow'⟩
    · exact ⟨hn, hflow⟩

theorem Flow.setWcbset (h : w.Flow pktsize todo) (c : Bool) :
    ({ w with snd := { w.snd with wcbset := c } } : UnixWorld φ).Flow pktsize todo :=
  { h with queue := { h.queue with } }

theorem Flow.output (h : w.Flow pktsize todo) {ws : List (Option ℕ)} (hws : none ∉ ws) :
    (w.wrote (w.snd.output ws).1 (w.snd.output ws).2).Flow pktsize todo ∧
      (w.snd.output ws).1.wcbset = decide ((w.snd.output ws).1.out ≠ []) := by
  obtain ⟨hn, hflow⟩ := h.outputLoop (ws.length + 1) hws
  simp only [AxprtUnix.output, if_neg (Int.not_lt.mpr hn)]
  exact ⟨hflow.setWcbset _, trivial⟩

theorem Flow.idle (h : w.Flow pktsize todo) (hout : w.snd.out = []) :
    w.snd.ends = [] ∧ w.snd.fdsendq = [] := by
  have hends : w.snd.ends = [] := by
    refine List.eq_nil_iff_forall_not_mem.mpr fun e he => ?_
    obtain ⟨p, hp, rfl⟩ := List.mem_map.mp he
    obtain ⟨hp, hlt⟩ := mem_live.mp hp
    have hle := h.queue.bound p hp
    rw [hout, List.length_nil] at hle
    omega
  have hcount := h.count
  rw [hends, List.length_nil] at hcount
  exact ⟨hends, List.length_eq_zero_iff.mp (Nat.le_zero.mp hcount)⟩

theorem Flow.kept_concat (h : w.Flow pktsize todo) (i : Item φ) :
    ∀ j is, todo ++ [i] = j :: is → w.rcv.pktbuf.length < j.size := by
  intro j is hcons
  cases todo with
  | nil =>
    obtain ⟨hbuf, -⟩ := List.append_eq_nil_iff.mp h.bytes
    have hsize := j.size_pos
    rw [hbuf, List.length_nil]
    omega
  | cons k ks =>
    obtain ⟨rfl, -⟩ := List.cons.inj hcons
    exact h.kept _ _ rfl

/-- A message is laid out behind the queue; where the queue is empty its beginning may be
written at once. -/
theorem Flow.message (h : w.Flow pktsize todo) {m : List Byte} (hm : m.length ≤ pktsize)
    (h31 : m.length < 2 ^ 31) (lay : Layout) {c rest : List Byte} {chunks : List (Chunk φ)}
    (hbytes : c ++ rest = frame m)
    (hchunks : (c = [] ∧ chunks = []) ∨ (chunks = [(none, c)] ∧ w.snd.out = [])) :
    (({ w with sent := w.sent ++ [Item.msg m] } : UnixWorld φ).wrote (w.snd.push lay rest)
      chunks).Flow pktsize (todo ++ [.msg m]) := by
  obtain ⟨out, broken, hpush, hqueue, hflat, hends, -⟩ := push_spec h.queue lay rest
  rw [hpush]
  have hwb : ∀ wire, wireBytes (wire ++ chunks) = wireBytes wire ++ c := by
    intro wire
    rw [wireBytes_append]
    rcases hchunks with ⟨rfl, rfl⟩ | ⟨rfl, -⟩
    · rfl
    · exact congrArg _ (List.append_nil c)
  have hwf : ∀ wire, wireFds (wire ++ chunks) = wireFds wire := by
    intro wire
    rw [wireFds_append]
    rcases hchunks with ⟨-, rfl⟩ | ⟨rfl, -⟩
    · exact List.append_nil _
    · exact List.append_nil _
  have hmark : ∀ (is : List (Item φ)) n, markers (is ++ [Item.msg m]) n = markers is n := by
    intro is n
    rw [markers, marks_concat]
    simp [Item.isFd, markers]
  have hall : w.snd.out = [] → ∀ n, markers todo n ≤
      w.rcv.fdrecvq.length + (wireFds w.wire).length := by
    intro hout n
    have hle : markers todo n ≤ (fdsOf todo).length := by
      rw [length_fdsOf]
      exact marks_le
    rwa [← h.fds, (h.idle hout).2, List.append_nil, List.length_append] at hle
  have hpassed : w.rcv.pktbuf.length + (wireBytes (w.wire ++ chunks)).length =
      w.passed + c.length := by
    rw [hwb, List.length_append, passed, Nat.add_assoc]
  have hfdsOf : fdsOf (todo ++ [Item.msg m]) = fdsOf todo := by
    rw [fdsOf_append]
    exact List.append_nil _
  obtain ⟨seen, hsent, hgot, hlog, hlogLen⟩ := h.sent
  refine ⟨h.sndsize, h.rcvsize, h.sndopen, h.rcvopen, hqueue, ⟨seen, ?_, hgot, ?_, ?_⟩, ?_, ?_,
    ?_, ?_, ?_, ?_, ?_, h.closed, h.kept_concat _, h.fits⟩
  · rw [wrote]
    dsimp only
    rw [hsent, List.append_assoc]
  · rw [wrote]
    dsimp only
    rw [hwf, hwf, hlog]
  · rw [wrote, passed]
    dsimp only
    rw [hpassed, hwb, List.length_append, hlogLen, Nat.add_assoc]
  · rw [wrote, stream_append, ← h.bytes]
    dsimp only
    have hone : stream [(Item.msg m : Item φ)] = frame m := List.append_nil _
    rw [hwb, hflat, hone, ← hbytes]
    rcases hchunks with ⟨rfl, -⟩ | ⟨-, hout⟩
    · simp only [List.append_nil, List.nil_append, List.append_assoc]
    · simp only [hout, List.flatten_nil, List.nil_append, List.append_nil, List.append_assoc]
  · rw [wrote, hfdsOf, ← h.fds]
    dsimp only
    rw [hwf]
  · intro n
    rw [wrote, passed]
    dsimp only
    rw [hpassed, hmark, hmark, hends]
    rcases hchunks with ⟨rfl, -⟩ | ⟨-, hout⟩
    · exact h.ends n
    · rw [Nat.add_assoc, h.ends, h.ends, (h.idle hout).1]
      rfl
  · rw [wrote]
    dsimp only
    rw [hends]
    exact h.count
  · intro before after hsplit
    rw [wrote] at hsplit ⊢
    dsimp only at hsplit ⊢
    rw [hmark]
    rcases hchunks with ⟨-, rfl⟩ | ⟨rfl, hout⟩
    · rw [List.append_nil] at hsplit
      exact h.lead before after hsplit
    · rcases List.eq_nil_or_concat' after with rfl | ⟨after, c', rfl⟩
      · -- all descriptors have been written
        rw [List.append_nil] at hsplit
        rw [← hsplit, hwf]
        exact hall hout _
      · rw [← List.append_assoc] at hsplit
        exact h.lead before after (List.append_inj_left' hsplit rfl)
  · intro before after hsplit
    rw [wrote] at hsplit ⊢
    dsimp only at hsplit ⊢
    rw [hmark]
    rcases hchunks with ⟨-, rfl⟩ | ⟨rfl, hout⟩
    · rw [List.append_nil] at hsplit
      exact h.early before after hsplit
    · rcases List.eq_nil_or_concat' after with rfl | ⟨after, c', rfl⟩
      · rw [List.append_nil] at hsplit
        have hnow := h.markers_sent c.length
        have hle := hall hout (w.passed + c.length)
        rw [← hsplit, hwf, hwb, List.length_append]
        omega
      · rw [← List.append_assoc] at hsplit
        exact h.early before after (List.append_inj_left' hsplit rfl)
  · intro m' hm'
    rcases List.mem_append.mp hm' with hm' | hm'
    · exact h.short m' hm'
    · cases List.mem_singleton.mp hm'
      exact ⟨hm, h31⟩

theorem Flow.descriptor (h : w.Flow pktsize todo) (fd : φ) (lay : Layout) :
    (({ w with sent := w.sent ++ [Item.fd fd] } : UnixWorld φ).wrote
      (({ w.snd with fdsendq := w.snd.fdsendq ++ [fd] } : AxprtUnix φ).push lay
        [0, 0, 0, 0]).wrsync []).Flow pktsize (todo ++ [.fd fd]) := by
  have hqueue₀ : ({ w.snd with fdsendq := w.snd.fdsendq ++ [fd] } : AxprtUnix φ).QueueOk :=
    { h.queue with }
  obtain ⟨out, broken, hpush, hqueue₁, hflat, hends₁, hbroken⟩ :=
    push_spec hqueue₀ lay [0, 0, 0, 0]
  have hout : out ≠ [] := by
    rintro rfl
    have hlen := congrArg List.length hflat
    simp at hlen
  obtain ⟨syncpts, broken', hsync, hqueue, hends₂⟩ := wrsync_spec hqueue₁ (hbroken (by decide)) hout
  have hends₀ : ({ w.snd with fdsendq := w.snd.fdsendq ++ [fd] } : AxprtUnix φ).ends =
      w.snd.ends := rfl
  dsimp only at hflat hsync hends₂
  rw [hends₁, hends₀] at hends₂
  rw [hpush, hsync]
  have hlen : out.flatten.length = w.snd.out.flatten.length + 4 := by
    rw [hflat, List.length_append]
    rfl
  have hstream := congrArg List.length h.bytes
  rw [List.length_append, List.length_append, length_stream] at hstream
  have hconcat : ∀ (is : List (Item φ)) n, markers (is ++ [Item.fd fd]) n = markers is n +
      if (stream is).length + 4 ≤ n then 1 else 0 := by
    intro is n
    have hsize : (Item.fd fd : Item φ).size = 4 := rfl
    rw [markers, marks_concat, hsize, length_stream]
    simp [Item.isFd, markers]
  have hmark : ∀ n, markers (todo ++ [Item.fd fd]) n = markers todo n +
      if w.passed + out.flatten.length ≤ n then 1 else 0 := by
    intro n
    have hsum : (stream todo).length + 4 = w.passed + out.flatten.length := by
      rw [length_stream, passed, hlen]
      omega
    rw [hconcat, hsum]
  have hbefore : ∀ n < w.passed + out.flatten.length,
      markers (todo ++ [Item.fd fd]) n = markers todo n := by
    intro n hn
    rw [hmark, if_neg (Nat.not_le_of_lt hn), Nat.add_zero]
  have hpos : 0 < out.flatten.length := by omega
  obtain ⟨seen, hsent, hgot, hlog, hlogLen⟩ := h.sent
  refine ⟨h.sndsize, h.rcvsize, h.sndopen, h.rcvopen, hqueue, ⟨seen, ?_, hgot, ?_, ?_⟩, ?_, ?_,
    ?_, ?_, ?_, ?_, ?_, h.closed, h.kept_concat _, h.fits⟩
  · rw [wrote]
    dsimp only
    rw [hsent, List.append_assoc]
  · rw [wrote]
    dsimp only
    rw [List.append_nil, List.append_nil]
    exact hlog
  · rw [wrote, passed]
    dsimp only
    rw [List.append_nil, List.append_nil]
    exact hlogLen
  · rw [wrote, stream_append, ← h.bytes]
    dsimp only
    rw [List.append_nil, hflat]
    simp only [List.append_assoc]
    rfl
  · rw [wrote, fdsOf_append, ← h.fds]
    dsimp only
    rw [List.append_nil]
    simp only [List.append_assoc]
    rfl
  · intro n
    rw [wrote, passed]
    dsimp only
    rw [List.append_nil, hends₂, List.countP_append, ← passed, hbefore w.passed (by omega), hmark,
      h.ends, Nat.add_assoc]
    congr 2
    have hiff : w.passed + out.flatten.length ≤ w.passed + n ↔ out.flatten.length ≤ n := by omega
    simp only [hiff, List.countP_cons, List.countP_nil, decide_eq_true_eq, Nat.zero_add]
  · rw [wrote]
    dsimp only
    rw [hends₂, List.length_append, List.length_append]
    exact Nat.add_le_add_right h.count 1
  · intro before after hsplit
    rw [wrote] at hsplit ⊢
    dsimp only at hsplit ⊢
    rw [List.append_nil] at hsplit
    have hle : (wireBytes before).length ≤ (wireBytes w.wire).length := by
      rw [hsplit, wireBytes_append, List.length_append]
      exact Nat.le_add_right _ _
    rw [hbefore _ (by rw [passed]; omega)]
    exact h.lead before after hsplit
  · intro before after hsplit
    rw [wrote] at hsplit ⊢
    dsimp only at hsplit ⊢
    rw [List.append_nil] at hsplit
    have hle : (wireBytes before).length ≤ (wireBytes w.written).length := by
      rw [hsplit, wireBytes_append, List.length_append]
      exact Nat.le_add_right _ _
    have hbytes : (wireBytes w.written).length ≤ (stream w.sent).length := by
      rw [hlogLen, hsent, stream_append, List.length_append, length_stream todo, ← hstream, passed]
      omega
    rw [hconcat, if_neg (by omega), Nat.add_zero]
    exact h.early before after hsplit
  · intro m hm
    rcases List.mem_append.mp hm with hm | hm
    · exact h.short m hm
    · cases List.mem_singleton.mp hm

theorem Flow.undelivered (h : w.Flow pktsize todo) : w.pending = todo := by
  obtain ⟨seen, hsent, hgot, -⟩ := h.sent
  rw [pending, hsent, hgot, List.length_map, List.drop_left]

theorem Flow.ahead (h : w.Flow pktsize todo) {n : ℕ} (hn : n ≤ (wireBytes w.wire).length) :
    markers todo (w.rcv.pktbuf.length + n) ≤
      w.rcv.fdrecvq.length + (takeWire n w.wire).1.length := by
  obtain ⟨-, -, -, hsplit⟩ := takeWire_spec hn
  obtain ⟨before, after, hwire, hlen, hcount⟩ := hsplit [] _ rfl
  have hlead := h.lead before after hwire
  rw [hcount] at hlead
  exact Nat.le_trans (marks_mono (by omega)) hlead

theorem Flow.deliver {todo' seen : List (Item φ)} (h : w.Flow pktsize (seen ++ todo'))
    {n : ℕ} (hn : n ≤ (wireBytes w.wire).length) {rest : List Byte} {fds : List φ}
    (hstream : rest ++ (wireBytes (takeWire n w.wire).2.2 ++ w.snd.out.flatten) = stream todo')
    (hfds : w.rcv.fdrecvq ++ (takeWire n w.wire).1 = fdsOf seen ++ fds)
    (hlen : w.rcv.pktbuf.length + n = (seen.map Item.size).sum + rest.length)
    (hkept : ∀ i is, todo' = i :: is → rest.length < i.size) (hfits : rest.length < pktsize) :
    ({ w with
      rcv := { w.rcv with
        pktbuf := rest
        fdrecvq := fds
        got := w.rcv.got ++ seen.map Item.given }
      wire := (takeWire n w.wire).2.2 } : UnixWorld φ).Flow pktsize todo' := by
  obtain ⟨hchunk, hbytes, hwfds, hsplit⟩ := takeWire_spec hn
  generalize takeWire n w.wire = taken at hstream hfds hchunk hbytes hwfds hsplit ⊢
  obtain ⟨came, chunk, wire⟩ := taken
  dsimp only at hstream hfds hchunk hbytes hwfds hsplit ⊢
  have hwire := congrArg List.length hbytes
  have hqueue := congrArg List.length hfds
  rw [List.length_append] at hwire
  rw [List.length_append, List.length_append] at hqueue
  have hshift : ∀ k, markers (seen ++ todo') ((seen.map Item.size).sum + k) =
      (fdsOf seen).length + markers todo' k := by
    intro k
    rw [markers, marks_append (Nat.le_add_right _ _), Nat.add_sub_cancel_left, length_fdsOf,
      markers]
  have hpassed : w.passed = (seen.map Item.size).sum + (rest.length + (wireBytes wire).length) := by
    rw [passed]
    omega
  obtain ⟨seen₀, hsent, hgot, hlog, hlogLen⟩ := h.sent
  refine ⟨h.sndsize, h.rcvsize, h.sndopen, h.rcvopen, h.queue, ⟨seen₀ ++ seen, ?_, ?_, ?_, ?_⟩,
    hstream, ?_, ?_, h.count, ?_, h.early, fun m hm => h.short m (List.mem_append_right _ hm),
    h.closed, hkept, Or.inr hfits⟩
  · rw [hsent, List.append_assoc]
  · dsimp only
    rw [hgot, List.map_append]
  · dsimp only
    rw [hlog, ← hwfds, ← List.append_assoc w.rcv.fdrecvq, hfds, fdsOf_append]
    simp only [List.append_assoc]
  · rw [passed]
    dsimp only
    rw [hlogLen, hpassed, stream_append, List.length_append, length_stream seen, Nat.add_assoc]
  · have hall := h.fds
    rw [← hwfds, fdsOf_append, List.append_assoc, ← List.append_assoc w.rcv.fdrecvq, hfds,
      List.append_assoc] at hall
    exact List.append_cancel_left hall
  · intro k
    have hends := h.ends k
    rw [hpassed, Nat.add_assoc, hshift, hshift] at hends
    rw [passed]
    dsimp only
    omega
  · intro before after hwire'
    obtain ⟨before', after', hwhole, hle, hcount⟩ := hsplit before after hwire'
    have hlead := h.lead before' after' hwhole
    have hmono : markers (seen ++ todo')
        ((seen.map Item.size).sum + (rest.length + (wireBytes before).length)) ≤
          markers (seen ++ todo') (w.rcv.pktbuf.length + (wireBytes before').length) :=
      marks_mono (by omega)
    rw [hshift] at hmono
    dsimp only
    omega

/-- What a read does: where it meets the condition it hands over the items that are whole, and
where it does not, the program stops or a descriptor is closed. -/
theorem Flow.read (h : w.Flow pktsize todo) {n : ℕ} (hlegal : w.Legal (.read n)) :
    (w.Works (.read n) → ∃ w' todo', w.step (.read n) = some w' ∧ w'.sent = w.sent ∧
      w'.snd = w.snd ∧ w'.Flow pktsize todo') ∧
    (¬ w.Works (.read n) → ∀ w', w.step (.read n) = some w' → w'.rcv.closed ≠ []) := by
  obtain ⟨hpos, hn, -, hone⟩ := hlegal
  obtain ⟨hchunk, hbytes, hwfds, -⟩ := takeWire_spec hn
  have hne : (takeWire n w.wire).2.1 ≠ [] := by
    rw [← List.length_pos_iff, hchunk]
    exact hpos
  have hinput : w.step (.read n) =
      ((w.rcv.doread (takeWire n w.wire).1.head? (takeWire n w.wire).2.1).callgetpkt).bind
        fun rcv => some { w with rcv := rcv, wire := (takeWire n w.wire).2.2 } := by
    simp only [step, input, h.rcvopen, not_true_eq_false, if_false, if_neg hne]
    rfl
  rw [hinput, Works, h.undelivered]
  by_cases hroom : (takeWire n w.wire).1 ≠ [] → w.rcv.fdrecvq.length < 4
  · rw [doread_spec hone hroom]
    obtain ⟨seen, rest, todo', fds, hloop, rfl, hstream, hq, hlen, hover, hkept⟩ :=
      getpktLoop_items (s := { w.rcv with
          pktbuf := w.rcv.pktbuf ++ (takeWire n w.wire).2.1
          fdrecvq := w.rcv.fdrecvq ++ (takeWire n w.wire).1 })
        (b := w.rcv.pktbuf ++ (takeWire n w.wire).2.1) (Nat.lt_succ_self _)
        (by rw [h.rcvsize]; exact h.short)
        (by rw [List.append_assoc, ← List.append_assoc _ (wireBytes _), hbytes, h.bytes])
        (by rw [List.append_assoc, ← List.append_assoc _ (wireFds _), hwfds, h.fds])
        (by rw [List.length_append, List.length_append, hchunk]; exact h.ahead hn)
    rw [List.length_append, hchunk] at hlen hover
    simp only [callgetpkt, hloop, Option.bind_eq_bind, Option.bind_some,
      if_neg (not_not_intro h.rcvopen), hover]
    constructor
    · rintro ⟨hfits, -⟩
      rw [if_pos hfits]
      rw [← hover, h.rcvsize] at hfits
      exact ⟨_, todo', rfl, rfl, rfl, h.deliver hn hstream hq hlen hkept hfits⟩
    · intro hfails w' hstep
      rw [if_neg fun hfits => hfails ⟨hfits, hroom⟩] at hstep
      cases hstep
  · constructor
    · rintro ⟨-, hroom'⟩
      exact absurd hroom' hroom
    · -- the fifth unclaimed descriptor is closed
      intro _ w' hstep
      obtain ⟨hcame, hfull⟩ := Classical.not_imp.mp hroom
      obtain ⟨fd, fds, hcons⟩ := List.exists_cons_of_ne_nil hcame
      obtain ⟨rcv, hrcv, hstep⟩ := Option.bind_eq_some_iff.mp hstep
      cases hstep
      have hclosed := callgetpkt_closed hrcv
      rw [hcons, List.head?_cons] at hclosed
      simp only [doread, if_pos (Nat.not_lt.mp hfull)] at hclosed
      dsimp only
      rw [hclosed]
      exact List.append_ne_nil_of_right_ne_nil _ (List.cons_ne_nil _ _)

instance (w : UnixWorld φ) : (op : UnixOp φ) → Decidable (w.Legal op)
  | .send .. => inferInstanceAs (Decidable (_ ∧ _ ∧ _))
  | .sendfd .. => inferInstanceAs (Decidable (_ ∉ _))
  | .output _ => inferInstanceAs (Decidable (_ ∧ _))
  | .read _ => inferInstanceAs (Decidable (_ ∧ _ ∧ _ ∧ _))

instance (w : UnixWorld φ) : (op : UnixOp φ) → Decidable (w.Works op)
  | .send .. => inferInstanceAs (Decidable (_ < _))
  | .sendfd .. => isTrue trivial
  | .output _ => isTrue trivial
  | .read _ => inferInstanceAs (Decidable (_ ∧ (_ → _)))

/-- The items `todo` are under way, and the queue is watched while something is in it. -/
structure Ok (pktsize : ℕ) (w : UnixWorld φ) (todo : List (Item φ)) : Prop where
  flow : w.Flow pktsize todo
  watched : w.snd.wcbset = decide (w.snd.out ≠ [])

theorem Flow.ok_output {s : AxprtUnix φ} {chunks : List (Chunk φ)}
    (h : (w.wrote s chunks).Flow pktsize todo) {ws : List (Option ℕ)} (hws : none ∉ ws) :
    (w.wrote (s.output ws).1 (chunks ++ (s.output ws).2)).Ok pktsize todo := by
  obtain ⟨hflow, hwatched⟩ := h.output hws
  have hsnd : (w.wrote s chunks).snd = s := rfl
  rw [hsnd, wrote_wrote] at hflow
  rw [hsnd] at hwatched
  exact ⟨hflow, hwatched⟩

theorem Ok.send (h : w.Ok pktsize todo) {iov : List (List Byte)} {lay : Layout}
    {skip : Option ℕ} {ws : List (Option ℕ)} (hlegal : w.Legal (.send iov lay skip ws))
    (hworks : w.Works (.send iov lay skip ws)) :
    ∃ w', w.step (.send iov lay skip ws) = some w' ∧
      w'.sent = w.sent ++ [Item.msg iov.flatten] ∧
      w'.Ok pktsize (todo ++ [.msg iov.flatten]) := by
  obtain ⟨hlen, hskip, hws⟩ := hlegal
  obtain ⟨n, rfl⟩ := Option.ne_none_iff_exists'.mp hskip
  have h31 : iov.flatten.length < 2 ^ 31 := hworks
  have hnat : (BitVec.ofNat 32 iov.flatten.length).toNat = iov.flatten.length := by
    rw [BitVec.toNat_ofNat, Nat.mod_eq_of_lt (by omega)]
  rw [hnat] at hlen
  have hm : iov.flatten.length ≤ pktsize := h.flow.sndsize ▸ hlen
  have hframe : htonl (0x80000000 ||| BitVec.ofNat 32 iov.flatten.length) ++ iov.flatten =
      frame iov.flatten := rfl
  have hopen : ¬ ¬ w.snd.isopen = true := not_not_intro h.flow.sndopen
  simp only [UnixWorld.step, sendv, if_neg hopen, hnat, if_neg (Nat.not_lt_of_le hlen), hframe]
  by_cases hfast : w.snd.out = [] ∧ iov.length < min 16 uioMaxiov
  · rw [if_pos hfast]
    have hflow := h.flow.message hm h31 lay (List.take_append_drop n (frame iov.flatten))
      (Or.inr ⟨rfl, hfast.1⟩)
    exact ⟨_, rfl, rfl, hflow.ok_output hws⟩
  · rw [if_neg hfast]
    have hflow := h.flow.message hm h31 lay (List.nil_append (frame iov.flatten))
      (Or.inl ⟨rfl, rfl⟩)
    exact ⟨_, rfl, rfl, hflow.ok_output hws⟩

theorem Ok.sendfd (h : w.Ok pktsize todo) {fd : φ} {lay : Layout} {ws : List (Option ℕ)}
    (hlegal : w.Legal (.sendfd fd lay ws)) :
    ∃ w', w.step (.sendfd fd lay ws) = some w' ∧ w'.sent = w.sent ++ [Item.fd fd] ∧
      w'.Ok pktsize (todo ++ [.fd fd]) :=
  ⟨_, rfl, rfl, (h.flow.descriptor fd lay).ok_output hlegal⟩

theorem Ok.output (h : w.Ok pktsize todo) {ws : List (Option ℕ)}
    (hlegal : w.Legal (.output ws)) : ∃ w', w.step (.output ws) = some w' ∧
      w'.sent = w.sent ∧ w'.Ok pktsize todo := by
  obtain ⟨hflow, hwatched⟩ := h.flow.output hlegal.2
  exact ⟨_, rfl, rfl, hflow, hwatched⟩

theorem Ok.step (h : w.Ok pktsize todo) {op : UnixOp φ} (hlegal : w.Legal op)
    (hworks : w.Works op) :
    ∃ w' todo', w.step op = some w' ∧ w'.Ok pktsize todo' ∧ w'.sent = w.sent ++ op.items := by
  cases op with
  | send iov lay skip ws =>
    obtain ⟨w', hstep, hsent, hok⟩ := h.send hlegal hworks
    exact ⟨w', _, hstep, hok, hsent⟩
  | sendfd fd lay ws =>
    obtain ⟨w', hstep, hsent, hok⟩ := h.sendfd hlegal
    exact ⟨w', _, hstep, hok, hsent⟩
  | output ws =>
    obtain ⟨w', hstep, hsent, hok⟩ := h.output hlegal
    exact ⟨w', todo, hstep, hok, hsent.trans (List.append_nil _).symm⟩
  | read n =>
    obtain ⟨w', todo', hstep, hsent, hsnd, hflow⟩ := (h.flow.read hlegal).1 hworks
    exact ⟨w', todo', hstep, ⟨hflow, by rw [hsnd]; exact h.watched⟩,
      hsent.trans (List.append_nil _).symm⟩

theorem Flow.quiet (h : w.Flow pktsize todo) (hout : w.snd.out = []) (hwire : w.wire = []) :
    todo = [] ∧ w.rcv.pktbuf = [] ∧ w.rcv.fdrecvq = [] := by
  have hbytes := h.bytes
  have hnil : wireBytes ([] : List (Chunk φ)) = [] := rfl
  rw [hout, hwire, hnil, List.flatten_nil, List.append_nil, List.append_nil] at hbytes
  cases todo with
  | nil =>
    exact ⟨rfl, hbytes, (List.append_eq_nil_iff.mp h.fds).1⟩
  | cons i is =>
    have hlt := h.kept i is rfl
    rw [hbytes, stream_cons, List.length_append, Item.length_bytes] at hlt
    omega

/-- If no message has 2^31 bytes and every read meets the condition, every operation succeeds. The
descriptors are written in the order they were sent, as many as markers are whole among the bytes
written, or more; the receiver sees the first items sent, each marker with its own descriptor, and
all once nothing is queued or under way. A read that does not meet the condition stops the program
or closes a descriptor. -/
theorem axprt_unix_passes (pktsize : ℕ) (ops : List (UnixOp φ)) (w : UnixWorld φ)
    (hrun : Run step (fun w op => w.Legal op ∧ w.Works op) (init pktsize) ops w) :
    (∃ n, w.rcv.got = (w.sent.take n).map Item.given) ∧
      (w.snd.out = [] → w.snd.fdsendq = []) ∧
      (w.snd.out = [] → w.wire = [] → w.rcv.got = w.sent.map Item.given ∧ w.rcv.pktbuf = [] ∧
        w.rcv.fdrecvq = []) ∧
      w.rcv.closed = [] ∧ wireFds w.written ++ w.snd.fdsendq = fdsOf w.sent ∧
      (∀ before after, w.written = before ++ after →
        markers w.sent (wireBytes before).length ≤ (wireFds before).length) ∧
      0 < w.rcv.room ∧ (w.snd.out ≠ [] → w.snd.wcbset = true) ∧
      (∀ op, w.Legal op → w.Works op → ∃ w', w.step op = some w' ∧
        w'.sent = w.sent ++ op.items) ∧
      ∀ n, w.Legal (.read n) → ¬ w.Works (.read n) →
        ∀ w', w.step (.read n) = some w' → w'.rcv.closed ≠ [] := by
  obtain ⟨todo, hok⟩ := hrun.invariant (I := fun w => ∃ todo, w.Ok pktsize todo)
    ⟨[], flow_init, rfl⟩ fun a op b ⟨todo, ha⟩ hcond hstep => by
    obtain ⟨b', todo', hb', hok, -⟩ := ha.step hcond.1 hcond.2
    exact ⟨todo', Option.some.inj (hb'.symm.trans hstep) ▸ hok⟩
  have hflow := hok.flow
  obtain ⟨seen, hsent, hgot, hlog, -⟩ := hflow.sent
  refine ⟨⟨seen.length, ?_⟩, fun hout => (hflow.idle hout).2, fun hout hwire => ?_,
    hflow.closed, ?_, hflow.early, ?_, fun hout => ?_, fun op hlegal hworks => ?_,
    fun n hlegal => (hflow.read hlegal).2⟩
  · rw [hsent, List.take_left, hgot]
  · obtain ⟨rfl, hquiet⟩ := hflow.quiet hout hwire
    rw [List.append_nil] at hsent
    exact ⟨by rw [hsent, hgot], hquiet⟩
  · rw [hlog, hsent, fdsOf_append, ← hflow.fds]
    simp only [List.append_assoc]
  · have hsize := hflow.rcvsize
    unfold AxprtUnix.room
    rcases hflow.fits with hnil | hlt
    · rw [hnil, List.length_nil]
      omega
    · omega
  · rw [hok.watched, decide_eq_true hout]
  · obtain ⟨w', _, hstep, -, hsent'⟩ := hok.step hlegal hworks
    exact ⟨w', hstep, hsent'⟩

/-- A message and a descriptor, written in three parts and read in three others. -/
theorem axprt_unix_passes_one : ∃ w : UnixWorld ℕ, w.sent = [.msg [7, 8, 9], .fd 5] ∧
    w.rcv.got = w.sent.map Item.given ∧ w.rcv.fdrecvq = [] ∧ w.rcv.closed = [] := by
  obtain ⟨w, hrun, hsent, hout, hwire⟩ : ∃ w : UnixWorld ℕ,
      Run step (fun w op => w.Legal op ∧ w.Works op) (init 16)
        [.send [[7], [8, 9]] ⟨false, [2]⟩ (some 3) [], .sendfd 5 ⟨true, []⟩ [some 2],
          .read 2, .output [some 9], .read 3, .read 6] w ∧
      w.sent = [.msg [7, 8, 9], .fd 5] ∧ w.snd.out = [] ∧ w.wire = [] := by
    exact ⟨_, Run.of_checked rfl, rfl, rfl, rfl⟩
  obtain ⟨-, -, hquiet, hclosed, -⟩ := axprt_unix_passes 16 _ w hrun
  obtain ⟨hgot, -, hrecvq⟩ := hquiet hout hwire
  exact ⟨w, hsent, hgot, hrecvq, hclosed⟩

/-- Five descriptors go with the five bytes of a message in front of their markers. The fifth
is closed, and its marker has none. -/
theorem axprt_unix_closes : ∃ w : UnixWorld ℕ,
    Run step Legal (init 16) ([.send [[7]] ⟨false, []⟩ (some 0) []] ++
      [0, 1, 2, 3, 4].flatMap (fun fd => [.sendfd fd ⟨false, []⟩ [some 1], .read 1]) ++
      [.output [some 4, some 4, some 4, some 4, some 4], .read 20]) w ∧
    w.rcv.closed = [4] ∧ w.rcv.got =
      [.pkt [7], .recvfd (some 0), .recvfd (some 1), .recvfd (some 2), .recvfd (some 3),
        .recvfd none] :=
  ⟨_, Run.of_checked rfl, rfl, rfl⟩

end UnixWorld

end Sfslite.Arpc
