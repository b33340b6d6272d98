import Sfslite.Async.Dnstcppkt

/-!
The sockets of a resolver, and their read loops: `dnssock_udp::rcb` and `dnssock_tcp::rcb` of
`dns.C`. What the receive callback does is an argument.
-/

namespace Sfslite.Async

open Sfslite.Arpc (Byte)

/-- A socket, and the flag `*destroyed`, which is there as long as somebody looks at it. `calls` has
what the receive callback was called with: a packet, or `none` for `(NULL, -1)`. -/
structure Dnssock where
  alive : Bool
  destroyed : Bool
  calls : List (Option (List Byte))
deriving DecidableEq, Repr

namespace Dnssock

/-- Why a loop does not come to its end: it goes to a field of a socket that was destroyed, or on
for ever, or there is a fault in the buffers of a stream. -/
inductive Fault where
  | freed
  | endless
  | tcpstate (f : Dnsparse.Fault)
deriving DecidableEq, Repr

/-- The receive callback, which may look at all it was called with: whether it drops the last
reference to the socket, and which bytes it leaves in the queue of a stream. -/
structure Receiver where
  drops : List (Option (List Byte)) → Bool
  queue : List (Option (List Byte)) → List Byte → List Byte

def init : Dnssock := ⟨true, false, []⟩

/-- `~dnssock () { *destroyed = false; }` -/
def delete (s : Dnssock) : Dnssock :=
  { s with alive := false, destroyed := false }

/-- `(*cb) (qb, n)` -/
def call (cb : Receiver) (s : Dnssock) (qb : Option (List Byte)) : Dnssock :=
  let s := { s with calls := s.calls ++ [qb] }
  if cb.drops s.calls then s.delete else s

def qbsize : ℕ := 512

/-- What `recv` gives: a datagram, which may be empty, nothing yet, or an error. -/
inductive Recv where
  | data (qb : List Byte)
  | again
  | error
deriving DecidableEq, Repr

/-- `dnssock_udp::rcb`, with what `recv` gives in turn, and nothing behind it. Each turn starts at
the field `fd`. -/
def udpRcb (cb : Receiver) : List Recv → Dnssock → Except Fault Dnssock
  | [], s => if ¬ s.alive then .error .freed else .ok s
  | r :: rs, s =>
    if ¬ s.alive then .error .freed
    else
      match r with
      | .again => .ok s
      | .error => .ok (s.call cb none)
      | .data [] => .ok (s.call cb none)
      | .data (b :: qb) =>
        let s := s.call cb (some ((b :: qb).take qbsize))
        if ¬ s.destroyed then udpRcb cb rs s else .ok s

/-- The destructor takes the callback off the descriptor. -/
def udpStep (cb : Receiver) (s : Dnssock) (rs : List Recv) : Except Fault Dnssock :=
  if s.alive then udpRcb cb rs s else .ok s

end Dnssock

structure DnssockTcp extends Dnssock where
  tcpstate : Dnstcppkt
deriving DecidableEq, Repr

namespace DnssockTcp

open Dnssock (Fault Receiver)

variable (junk : ℕ → Byte)

def init : DnssockTcp := ⟨.init, .init junk⟩

/-- `(*cb) (qb, n)`, in which packets may be sent. -/
def call (cb : Receiver) (s : DnssockTcp) (qb : Option (List Byte)) : DnssockTcp :=
  let base := s.toDnssock.call cb qb
  ⟨base, { s.tcpstate with outbuf := cb.queue base.calls s.tcpstate.outbuf }⟩

/-- `while (!*d && tcpstate.getpkt (&qb, &n))` -/
def getpkts (cb : Receiver) : ℕ → DnssockTcp → Except Fault DnssockTcp
  | 0, _ => .error .endless
  | fuel + 1, s =>
    if s.destroyed then .ok s
    else if ¬ s.alive then .error .freed
    else
      match s.tcpstate.getpkt with
      | .error f => .error (.tcpstate f)
      | .ok (none, tcpstate) => .ok { s with tcpstate := tcpstate }
      | .ok (some qb, tcpstate) =>
        getpkts cb fuel ({ s with tcpstate := tcpstate }.call cb (some qb))

/-- `dnssock_tcp::rcb`, where the descriptor has the bytes `fd`. -/
def rcb (cb : Receiver) (s : DnssockTcp) (fd : List Byte) (r : Readable) :
    Except Fault DnssockTcp :=
  if ¬ s.alive then .error .freed
  else
    match s.tcpstate.input junk fd r with
    | .error f => .error (.tcpstate f)
    | .ok (n, tcpstate, _) =>
      let s := { s with tcpstate := tcpstate }
      if n < 0 then .ok (s.call cb none)
      else s.getpkts cb (tcpstate.inbuf.length + 1)

/-- The destructor takes the callback off the descriptor. -/
def step (cb : Receiver) (s : DnssockTcp) (e : List Byte × Readable) : Except Fault DnssockTcp :=
  if s.alive then s.rcb junk cb e.1 e.2 else .ok s

end DnssockTcp

namespace Dnssock

/-- The packets that the loop over the datagrams comes to. -/
def datagrams : List Recv → List (List Byte)
  | .data (b :: qb) :: rs => (b :: qb).take qbsize :: datagrams rs
  | _ => []

/-- The callback keeps the socket at each of the packets, which come behind the calls that it has
had. -/
def Keeps (cb : Receiver) (calls : List (Option (List Byte))) (pkts : List (List Byte)) : Prop :=
  ∀ h, h <+: pkts → h ≠ [] → cb.drops (calls ++ h.map some) = false

/-- The call in which the socket is dropped is the last one. -/
structure Stops (cb : Receiver) (s : Dnssock) : Prop where
  last : ∀ h, h <+: s.calls → h ≠ [] → cb.drops h = true → s.alive = false ∧ h = s.calls

structure Sound (cb : Receiver) (s : Dnssock) : Prop extends s.Stops cb where
  flag : s.destroyed = false

variable {cb : Receiver} {s s' : Dnssock} {qb : List Byte} {pkts : List (List Byte)}
  {calls : List (Option (List Byte))}

theorem keeps_nil : Keeps cb calls [] := by
  intro h hpre hne
  exact absurd (List.prefix_nil.mp hpre) hne

theorem keeps_cons_iff : Keeps cb calls (qb :: pkts) ↔
    cb.drops (calls ++ [some qb]) = false ∧ Keeps cb (calls ++ [some qb]) pkts := by
  constructor
  · intro h
    refine ⟨h [qb] (by simp) (by simp), fun l hl _ => ?_⟩
    have := h (qb :: l) (List.cons_prefix_cons.mpr ⟨rfl, hl⟩) (by simp)
    simpa using this
  · rintro ⟨hone, hmore⟩ l hl hne
    cases l with
    | nil => exact absurd rfl hne
    | cons x l =>
      obtain ⟨rfl, hl'⟩ := List.cons_prefix_cons.mp hl
      by_cases hlnil : l = []
      · subst hlnil
        exact hone
      · simpa using hmore l hl' hlnil

theorem call_keep {c : Option (List Byte)} (h : cb.drops (s.calls ++ [c]) = false) :
    s.call cb c = { s with calls := s.calls ++ [c] } := by
  simp [call, h]

theorem call_drop {c : Option (List Byte)} (h : cb.drops (s.calls ++ [c]) = true) :
    s.call cb c = ⟨false, false, s.calls ++ [c]⟩ := by
  simp [call, h, delete]

theorem Sound.call (h : s.Sound cb) (halive : s.alive = true) (c : Option (List Byte)) :
    (s.call cb c).Sound cb := by
  have hpre : ∀ l, l <+: s.calls ++ [c] → l ≠ [] → cb.drops l = true → l = s.calls ++ [c] := by
    intro l hl hne hdrop
    rcases List.prefix_concat_iff.mp hl with hl | hl
    · exact hl
    · have := (h.last l hl hne hdrop).1
      rw [halive] at this
      cases this
  by_cases hdrop : cb.drops (s.calls ++ [c]) = true
  · rw [call_drop hdrop]
    exact ⟨⟨fun l hl hne hl' => ⟨rfl, hpre l hl hne hl'⟩⟩, rfl⟩
  · rw [Bool.not_eq_true] at hdrop
    rw [call_keep hdrop]
    refine ⟨⟨fun l hl hne hl' => ?_⟩, h.flag⟩
    rw [hpre l hl hne hl', hdrop] at hl'
    cases hl'

theorem sound_init : init.Sound cb :=
  ⟨⟨fun _ hpre hne => absurd (List.prefix_nil.mp hpre) hne⟩, rfl⟩

theorem udpRcb_spec (rs : List Recv) (h : s.Sound cb) (halive : s.alive = true) :
    (Keeps cb s.calls (datagrams rs) ∧ ∃ s', udpRcb cb rs s = .ok s' ∧ s'.Sound cb) ∨
      ¬ Keeps cb s.calls (datagrams rs) ∧ udpRcb cb rs s = .error .freed := by
  induction rs generalizing s with
  | nil =>
    refine Or.inl ⟨keeps_nil, s, ?_, h⟩
    rw [udpRcb, if_neg (by simp [halive])]
  | cons r rs ih =>
    have hthere : ¬ ¬ s.alive = true := by simp [halive]
    rcases r with qb | _ | _
    · cases qb with
      | nil =>
        refine Or.inl ⟨keeps_nil, s.call cb none, ?_, h.call halive none⟩
        rw [udpRcb, if_neg hthere]
      | cons b qb =>
        rw [udpRcb, if_neg hthere, datagrams, keeps_cons_iff]
        have hsound := h.call halive (some ((b :: qb).take qbsize))
        have hflag : ¬ (s.call cb (some ((b :: qb).take qbsize))).destroyed = true := by
          rw [hsound.flag]
          decide
        simp only [if_pos hflag]
        cases hdrop : cb.drops (s.calls ++ [some ((b :: qb).take qbsize)]) with
        | false =>
          rw [call_keep hdrop] at hsound ⊢
          simpa using ih hsound halive
        | true =>
          rw [call_drop hdrop]
          refine Or.inr ⟨by simp, ?_⟩
          cases rs <;> rfl
    · refine Or.inl ⟨keeps_nil, s, ?_, h⟩
      rw [udpRcb, if_neg hthere]
    · refine Or.inl ⟨keeps_nil, s.call cb none, ?_, h.call halive none⟩
      rw [udpRcb, if_neg hthere]

theorem udpStep_sound {rs : List Recv} (h : s.Sound cb) (hs : udpStep cb s rs = .ok s') :
    s'.Sound cb := by
  rw [udpStep] at hs
  split_ifs at hs with halive
  · rcases udpRcb_spec rs h halive with ⟨-, s₁, hs₁, h₁⟩ | ⟨-, hfreed⟩
    · rw [hs₁] at hs
      cases hs
      exact h₁
    · rw [hfreed] at hs
      cases hs
  · cases hs
    exact h

end Dnssock

namespace DnssockTcp

open Dnssock (Fault Receiver Keeps keeps_nil keeps_cons_iff call_keep call_drop sound_init)
open Dnstcppkt (framesize Whole)

theorem two_le_framesize (b : List Byte) : 2 ≤ framesize b := by
  match b with
  | [] | [_] => exact le_rfl
  | _ :: _ :: _ => exact Nat.le_add_left 2 _

def packets (b : List Byte) : List (List Byte) :=
  if Whole b then (b.take (framesize b)).drop 2 :: packets (b.drop (framesize b)) else []
termination_by b.length
decreasing_by
  rename_i hwhole
  have hle : framesize b ≤ b.length := hwhole
  have := two_le_framesize b
  rw [List.length_drop]
  omega

structure Sound (cb : Receiver) (s : DnssockTcp) : Prop extends s.toDnssock.Sound cb where
  ok : s.tcpstate.Ok

variable {junk : ℕ → Byte} {cb : Receiver} {s s' : DnssockTcp} {fuel : ℕ}

theorem Sound.call (h : s.Sound cb) (halive : s.alive = true) (c : Option (List Byte)) :
    (s.call cb c).Sound cb :=
  ⟨h.toSound.call halive c, h.ok.used, h.ok.pos⟩

theorem Sound.tcpstate {t : Dnstcppkt} (h : s.Sound cb) (ht : t.Ok) :
    Sound cb { s with tcpstate := t } :=
  ⟨h.toSound, ht⟩

theorem getpkts_spec (hfuel : s.tcpstate.unread.length < fuel) (h : s.Sound cb)
    (halive : s.alive = true) :
    (Keeps cb s.calls (packets s.tcpstate.unread) ∧
        ∃ s', s.getpkts cb fuel = .ok s' ∧ s'.Sound cb) ∨
      ¬ Keeps cb s.calls (packets s.tcpstate.unread) ∧ s.getpkts cb fuel = .error .freed := by
  induction fuel generalizing s with
  | zero => omega
  | succ fuel ih =>
    have hthere : ¬ ¬ s.alive = true := by simp [halive]
    have hflag : ¬ s.destroyed = true := by simp [h.flag]
    rw [getpkts, if_neg hflag, if_neg hthere, Dnstcppkt.getpkt_eq h.ok, packets]
    by_cases hwhole : Whole s.tcpstate.unread
    · obtain ⟨hok, hdrop⟩ := Dnstcppkt.used_spec h.ok hwhole
      simp only [if_pos hwhole, keeps_cons_iff]
      rw [← hdrop]
      have hshort : (Dnstcppkt.unread { s.tcpstate with
          inbufused := s.tcpstate.inbufused + framesize s.tcpstate.unread }).length < fuel := by
        have hle : framesize s.tcpstate.unread ≤ s.tcpstate.unread.length := hwhole
        have := two_le_framesize s.tcpstate.unread
        rw [hdrop, List.length_drop]
        omega
      generalize ({ s.tcpstate with
        inbufused := s.tcpstate.inbufused + framesize s.tcpstate.unread } : Dnstcppkt) = t at *
      generalize (s.tcpstate.unread.take (framesize s.tcpstate.unread)).drop 2 = qb
      have hsound := (h.tcpstate hok).call halive (some qb)
      cases hdrops : cb.drops (s.calls ++ [some qb]) with
      | false =>
        have hkeep : DnssockTcp.call cb { s with tcpstate := t } (some qb) =
            ⟨{ s.toDnssock with calls := s.calls ++ [some qb] },
              { t with outbuf := cb.queue (s.calls ++ [some qb]) t.outbuf }⟩ := by
          rw [DnssockTcp.call, call_keep hdrops]
        rw [hkeep] at hsound ⊢
        have hmore := ih hshort hsound halive
        simpa using hmore
      | true =>
        have hfreed : DnssockTcp.call cb { s with tcpstate := t } (some qb) =
            ⟨⟨false, false, s.calls ++ [some qb]⟩,
              { t with outbuf := cb.queue (s.calls ++ [some qb]) t.outbuf }⟩ := by
          rw [DnssockTcp.call, call_drop hdrops]
        rw [hfreed]
        refine Or.inr ⟨by simp, ?_⟩
        cases fuel with
        | zero => omega
        | succ fuel => rfl
    · simp only [if_neg hwhole]
      exact Or.inl ⟨keeps_nil, s, rfl, h⟩

variable (junk) in
/-- The packets that a call of `rcb` comes to: those that are complete behind the read, unless it
fails. -/
def arrived (s : DnssockTcp) (fd : List Byte) (r : Readable) : List (List Byte) :=
  match s.tcpstate.input junk fd r with
  | .ok (n, tcpstate, _) => if n < 0 then [] else packets tcpstate.unread
  | .error _ => []

theorem rcb_spec (h : s.Sound cb) (halive : s.alive = true) (fd : List Byte) (r : Readable) :
    (Keeps cb s.calls (s.arrived junk fd r) ∧ ∃ s', s.rcb junk cb fd r = .ok s' ∧ s'.Sound cb) ∨
      ¬ Keeps cb s.calls (s.arrived junk fd r) ∧ s.rcb junk cb fd r = .error .freed := by
  have hthere : ¬ ¬ s.alive = true := by simp [halive]
  obtain ⟨n, t, fd', hin, hok, -, -, -, -⟩ := Dnstcppkt.input_spec junk h.ok fd r
  have hsound := h.tcpstate hok
  rw [rcb, if_neg hthere, arrived, hin]
  by_cases hn : n < 0
  · simp only [if_pos hn]
    exact Or.inl ⟨keeps_nil, _, rfl, hsound.call halive none⟩
  · simp only [if_neg hn]
    have hfuel : t.unread.length < t.inbuf.length + 1 := by
      have hlen := Dnstcppkt.length_unread hok
      have hpos := hok.pos
      omega
    exact getpkts_spec hfuel hsound halive

theorem sound_init : (init junk).Sound cb :=
  ⟨Dnssock.sound_init, le_rfl, Nat.zero_le _⟩

theorem step_sound {e : List Byte × Readable} (h : s.Sound cb) (hs : s.step junk cb e = .ok s') :
    s'.Sound cb := by
  rw [step] at hs
  split_ifs at hs with halive
  · rcases rcb_spec h halive e.1 e.2 with ⟨-, s₁, hs₁, h₁⟩ | ⟨-, hfreed⟩
    · rw [hs₁] at hs
      cases hs
      exact h₁
    · rw [hfreed] at hs
      cases hs
  · cases hs
    exact h

end DnssockTcp

open Lib (foldlM_ok_invariant)
open Dnssock (Receiver Recv Keeps datagrams udpStep)

/-- For every sequence of calls of `rcb` and every callback: in the next call the loop stops where
the socket is dropped, and goes to no field of it then, if and only if the callback keeps the socket
at each packet that the call comes to. -/
theorem dnssock_stops_iff (junk : ℕ → Byte) (cb : Receiver) :
    (∀ (es : List (List Recv)) (s : Dnssock), es.foldlM (udpStep cb) .init = .ok s →
      ∀ rs, (∃ s', udpStep cb s rs = .ok s' ∧ s'.Stops cb) ↔
        (s.alive = true → Keeps cb s.calls (datagrams rs))) ∧
    ∀ (es : List (List Byte × Readable)) (s : DnssockTcp),
      es.foldlM (DnssockTcp.step junk cb) (.init junk) = .ok s →
      ∀ fd r, (∃ s', s.step junk cb (fd, r) = .ok s' ∧ s'.Stops cb) ↔
        (s.alive = true → Keeps cb s.calls (s.arrived junk fd r)) := by
  constructor
  · intro es s hs rs
    have h : s.Sound cb :=
      foldlM_ok_invariant (fun _ _ _ => Dnssock.udpStep_sound) Dnssock.sound_init hs
    rw [udpStep]
    by_cases halive : s.alive = true
    · rw [if_pos halive]
      rcases Dnssock.udpRcb_spec rs h halive with ⟨hkeeps, s', hs', h'⟩ | ⟨hkeeps, hfreed⟩
      · exact iff_of_true ⟨s', hs', h'.toStops⟩ fun _ => hkeeps
      · rw [hfreed]
        exact iff_of_false (by simp) fun hall => hkeeps (hall halive)
    · rw [if_neg halive]
      exact iff_of_true ⟨s, rfl, h.toStops⟩ fun hall => absurd hall halive
  · intro es s hs fd r
    have h : s.Sound cb :=
      foldlM_ok_invariant (fun _ _ _ => DnssockTcp.step_sound) DnssockTcp.sound_init hs
    rw [DnssockTcp.step]
    by_cases halive : s.alive = true
    · rw [if_pos halive]
      rcases DnssockTcp.rcb_spec h halive fd r with ⟨hkeeps, s', hs', h'⟩ | ⟨hkeeps, hfreed⟩
      · exact iff_of_true ⟨s', hs', h'.toStops⟩ fun _ => hkeeps
      · rw [hfreed]
        exact iff_of_false (by simp) fun hall => hkeeps (hall halive)
    · rw [if_neg halive]
      exact iff_of_true ⟨s, rfl, h.toStops⟩ fun hall => absurd hall halive

def dropsAt (call : Option (List Byte)) : Receiver :=
  ⟨fun calls => calls.getLast? = some call, fun _ out => out⟩

/-- The callback drops the socket where it is told of an error. -/
theorem dnssock_stops_iff_error :
    (∃ s', udpStep (dropsAt none) .init [.data [7], .data []] = .ok s' ∧
      s'.Stops (dropsAt none)) ∧
    ∃ s', (DnssockTcp.init fun _ => 0).step (fun _ => 0) (dropsAt none) ([], .eof) = .ok s' ∧
      s'.Stops (dropsAt none) := by
  obtain ⟨hudp, htcp⟩ := dnssock_stops_iff (fun _ => 0) (dropsAt none)
  constructor
  · refine (hudp [] .init rfl _).mpr fun _ => ?_
    exact Dnssock.keeps_cons_iff.mpr ⟨by decide, Dnssock.keeps_nil⟩
  · refine (htcp [] _ rfl [] .eof).mpr fun _ => ?_
    have hnone : (DnssockTcp.init fun _ => 0).arrived (fun _ => 0) [] .eof = [] := by
      decide +kernel
    rw [hnone]
    exact Dnssock.keeps_nil

/-- A callback that drops the socket at a packet: the loop goes on. -/
theorem dnssock_goes_on : ¬ ∀ (junk : ℕ → Byte) (cb : Receiver),
    (∀ (es : List (List Recv)) (s : Dnssock), es.foldlM (udpStep cb) .init = .ok s →
      ∀ rs, ∃ s', udpStep cb s rs = .ok s' ∧ s'.Stops cb) ∧
    ∀ (es : List (List Byte × Readable)) (s : DnssockTcp),
      es.foldlM (DnssockTcp.step junk cb) (.init junk) = .ok s →
      ∀ fd r, ∃ s', s.step junk cb (fd, r) = .ok s' ∧ s'.Stops cb := by
  intro h
  obtain ⟨s', hs', -⟩ := (h (fun _ => 0) (dropsAt (some [7]))).1 [] .init rfl [.data [7]]
  cases hs'

end Sfslite.Async
