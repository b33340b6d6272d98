import Sfslite.Arpc.AxprtPipe
import Sfslite.Async.Dnsparse
import Sfslite.Lib.Frames
import Sfslite.Lib.Run

/-!
Packets over a stream: `dnstcppkt` of `dnsparse.C`. Each packet goes out behind its length, which
has two bytes. What a fresh piece of memory holds is an argument.
-/

namespace Sfslite.Async

open Sfslite.Arpc (Byte)
open Sfslite.Lib
open Dnsparse (Fault getbytes getshort)

def mallocresv : ℕ := 16

def htons (v : BitVec 16) : List Byte :=
  [v.extractLsb' 8 8, v.extractLsb' 0 8]

/-- The buffers. The size of `inbuf` is `inbufsize`. -/
structure Dnstcppkt where
  inbuf : List Byte
  inbufpos : ℕ
  inbufused : ℕ
  outbuf : List Byte
deriving DecidableEq, Repr

/-- What a call of `read` meets: bytes, of which it gives at most `n + 1`, no bytes yet, the end of
the file or an error. -/
inductive Readable where
  | bytes (n : ℕ)
  | again
  | eof
  | error
deriving DecidableEq, Repr

namespace Dnstcppkt

section

variable (junk : ℕ → Byte)

/-- `n` bytes behind the first `k` of a fresh piece of memory. -/
def fresh (k n : ℕ) : List Byte :=
  (List.range n).map fun i => junk (k + i)

def init : Dnstcppkt :=
  ⟨fresh junk 0 (2048 - mallocresv), 0, 0, []⟩

/-- `memmove` to the start of the buffer. -/
def compact (d : Dnstcppkt) : Dnstcppkt :=
  if d.inbufused > 0 then
    let n := d.inbufpos - d.inbufused
    { d with
      inbuf :=
        if d.inbufpos > d.inbufused then (d.inbuf.drop d.inbufused).take n ++ d.inbuf.drop n
        else d.inbuf
      inbufpos := n
      inbufused := 0 }
  else d

def pktsize (d : Dnstcppkt) : Except Fault ℕ :=
  if d.inbufpos < d.inbufused + 2 then .ok 2
  else do
    let n ← getshort d.inbuf d.inbufused
    .ok (n.toNat + 2)

/-- `xrealloc`, where the buffer is too small. -/
def grow (d : Dnstcppkt) (sz : ℕ) : Dnstcppkt :=
  if sz > d.inbuf.length then
    { d with inbuf := d.inbuf ++ fresh junk d.inbuf.length (sz - d.inbuf.length) }
  else d

/-- The bytes that `read` gives. -/
def put (d : Dnstcppkt) (b : List Byte) : Dnstcppkt :=
  { d with
    inbuf := d.inbuf.take d.inbufpos ++ b ++ d.inbuf.drop (d.inbufpos + b.length)
    inbufpos := d.inbufpos + b.length }

/-- The buffers and what is left in the descriptor, unless `read` fails. -/
def read (d : Dnstcppkt) (fd : List Byte) : Readable → Option (Dnstcppkt × List Byte)
  | .bytes n =>
    let n := min (n + 1) (d.inbuf.length - d.inbufpos)
    some (d.put (fd.take n), fd.drop n)
  | .again => some (d, fd)
  | .eof => none
  | .error => none

/-- The result, the buffers and what is left in the descriptor, which has the bytes `fd`. -/
def input (d : Dnstcppkt) (fd : List Byte) (r : Readable) :
    Except Fault (ℤ × Dnstcppkt × List Byte) := do
  let d := d.compact
  let sz ← d.pktsize
  let d := d.grow junk sz
  match if d.inbufpos < sz then d.read fd r else some (d, fd) with
  | none => .ok (-1, d, fd)
  | some (d, fd) => do
      let sz ← d.pktsize
      .ok (if d.inbufpos ≥ sz then 1 else 0, d, fd)

end

/-- The result, the buffers and the bytes that were written; `ws` are the results of `writev`. -/
def output (d : Dnstcppkt) (ws : List (Option ℕ)) : ℤ × Dnstcppkt × List Byte :=
  let (n, out, w, _) := Arpc.AxprtPipe.suioOutput ws d.outbuf
  if n < 0 then (-1, { d with outbuf := out }, w)
  else (if out = [] then 1 else 0, { d with outbuf := out }, w)

/-- The packet, unless the answer is `false`. -/
def getpkt (d : Dnstcppkt) : Except Fault (Option (List Byte) × Dnstcppkt) := do
  let sz ← d.pktsize
  if sz > d.inbufpos - d.inbufused then .ok (none, d)
  else do
    let pkt ← getbytes d.inbuf (d.inbufused + 2) (sz - 2)
    .ok (some pkt, { d with inbufused := d.inbufused + sz })

def putpkt (d : Dnstcppkt) (pkt : List Byte) : Except Fault Dnstcppkt :=
  if pkt.length < 0x10000 then
    .ok { d with outbuf := d.outbuf ++ htons (BitVec.ofNat 16 pkt.length) ++ pkt }
  else .error .assertion

def unread (d : Dnstcppkt) : List Byte :=
  (d.inbuf.take d.inbufpos).drop d.inbufused

@[simp] theorem unread_outbuf (d : Dnstcppkt) (outbuf : List Byte) :
    unread { d with outbuf := outbuf } = d.unread := rfl

structure Ok (d : Dnstcppkt) : Prop where
  used : d.inbufused ≤ d.inbufpos
  pos : d.inbufpos ≤ d.inbuf.length

def frame (pkt : List Byte) : List Byte :=
  htons (BitVec.ofNat 16 pkt.length) ++ pkt

/-- What `pktsize` finds at the start of some bytes. -/
def framesize : List Byte → ℕ
  | a :: b :: _ => (a ++ b).toNat + 2
  | _ => 2

def Whole (b : List Byte) : Prop := framesize b ≤ b.length

instance (b : List Byte) : Decidable (Whole b) := inferInstanceAs (Decidable (_ ≤ _))

variable {junk : ℕ → Byte} {d : Dnstcppkt} {b later fd pkt : List Byte} {pkts : List (List Byte)}

theorem append_htons (v : BitVec 16) : v.extractLsb' 8 8 ++ v.extractLsb' 0 8 = v := by
  apply BitVec.eq_of_getLsbD_eq
  intro i hi
  simp only [BitVec.getLsbD_append, BitVec.getLsbD_extractLsb']
  interval_cases i <;> rfl

theorem length_frame (pkt : List Byte) : (frame pkt).length = pkt.length + 2 := by
  simp only [frame, htons, List.length_append, List.length_cons, List.length_nil]
  omega

theorem framesize_frame (h : pkt.length < 2 ^ 16) (b : List Byte) :
    framesize (frame pkt ++ b) = (frame pkt).length := by
  have hsize : (BitVec.ofNat 16 pkt.length).toNat = pkt.length := by
    rw [BitVec.toNat_ofNat, Nat.mod_eq_of_lt h]
  simp only [frame, htons, List.cons_append, framesize, append_htons, hsize, List.length_cons,
    List.nil_append]

theorem whole_frame (h : pkt.length < 2 ^ 16) (b : List Byte) : Whole (frame pkt ++ b) := by
  rw [Whole, framesize_frame h, List.length_append]
  omega

theorem not_whole_of_frame {b' : List Byte} (h : pkt.length < 2 ^ 16) (hb : b ++ b' = frame pkt)
    (hne : b' ≠ []) : ¬ Whole b := by
  have hlen := congrArg List.length hb
  have hpos := List.length_pos_iff.mpr hne
  rw [List.length_append, length_frame] at hlen
  match b with
  | [] | [_] => simp [Whole, framesize]
  | x :: y :: b =>
    have hsize := framesize_frame h []
    rw [List.append_nil, ← hb, List.length_append] at hsize
    simp only [List.cons_append, framesize, List.length_cons] at hsize
    simp only [Whole, framesize, List.length_cons]
    omega

theorem length_unread (h : d.Ok) : d.unread.length = d.inbufpos - d.inbufused := by
  rw [unread, List.length_drop, List.length_take, Nat.min_eq_left h.pos]

theorem drop_inbuf (h : d.Ok) : d.inbuf.drop d.inbufused = d.unread ++ d.inbuf.drop d.inbufpos := by
  conv_lhs => rw [← List.take_append_drop d.inbufpos d.inbuf]
  rw [List.drop_append_of_le_length, unread]
  rw [List.length_take, Nat.min_eq_left h.pos]
  exact h.used

theorem pktsize_eq (h : d.Ok) : d.pktsize = .ok (framesize d.unread) := by
  have hlen := length_unread h
  have hdrop := drop_inbuf h
  have hused := h.used
  by_cases hshort : d.inbufpos < d.inbufused + 2
  · rw [pktsize, if_pos hshort]
    match hb : d.unread with
    | [] | [_] => rfl
    | _ :: _ :: _ =>
      rw [hb] at hlen
      simp only [List.length_cons] at hlen
      omega
  · rw [pktsize, if_neg hshort]
    match hb : d.unread with
    | [] | [_] =>
      rw [hb] at hlen
      simp only [List.length_cons, List.length_nil] at hlen
      omega
    | x :: y :: b =>
      rw [hb, List.cons_append, List.cons_append] at hdrop
      rw [getshort, hdrop]
      rfl

theorem compact_spec (h : d.Ok) :
    d.compact.Ok ∧ d.compact.unread = d.unread ∧ d.compact.inbufused = 0 ∧
      d.compact.outbuf = d.outbuf := by
  have hused := h.used
  have hpos := h.pos
  by_cases hzero : d.inbufused > 0
  · rw [compact, if_pos hzero]
    have hlen := length_unread h
    have hmoved : (d.inbuf.drop d.inbufused).take (d.inbufpos - d.inbufused) = d.unread := by
      rw [drop_inbuf h, List.take_append_of_le_length hlen.ge, ← hlen, List.take_length]
    by_cases hmore : d.inbufpos > d.inbufused
    · simp only [if_pos hmore, hmoved]
      refine ⟨⟨Nat.zero_le _, ?_⟩, ?_, trivial, trivial⟩
      · simp only [List.length_append, hlen]
        omega
      · rw [unread, List.drop_zero, List.take_append_of_le_length hlen.ge, ← hlen,
          List.take_length]
    · simp only [if_neg hmore]
      have hnone : d.inbufpos - d.inbufused = 0 := by omega
      refine ⟨⟨Nat.zero_le _, ?_⟩, ?_, trivial, trivial⟩
      · simp only [hnone]
        exact Nat.zero_le _
      · rw [hnone] at hlen
        rw [List.length_eq_zero_iff.mp hlen, unread]
        simp [hnone]
  · rw [compact, if_neg hzero]
    exact ⟨h, rfl, by omega, rfl⟩

variable (junk) in
theorem grow_spec (h : d.Ok) (sz : ℕ) :
    (d.grow junk sz).Ok ∧ (d.grow junk sz).unread = d.unread ∧
      (d.grow junk sz).inbufused = d.inbufused ∧ (d.grow junk sz).inbufpos = d.inbufpos ∧
      sz ≤ (d.grow junk sz).inbuf.length ∧ (d.grow junk sz).outbuf = d.outbuf := by
  have hpos := h.pos
  by_cases hsz : sz > d.inbuf.length
  · rw [grow, if_pos hsz]
    refine ⟨⟨h.used, ?_⟩, ?_, rfl, rfl, ?_, rfl⟩
    · simp only [List.length_append]
      omega
    · rw [unread, unread, List.take_append_of_le_length hpos]
    · simp only [fresh, List.length_append, List.length_map, List.length_range]
      omega
  · rw [grow, if_neg hsz]
    exact ⟨h, rfl, rfl, rfl, by omega, rfl⟩

theorem put_spec (h : d.Ok) (hroom : d.inbufpos + b.length ≤ d.inbuf.length) :
    (d.put b).Ok ∧ (d.put b).unread = d.unread ++ b := by
  have hused := h.used
  have hpos := h.pos
  have hlen : (d.inbuf.take d.inbufpos ++ b).length = d.inbufpos + b.length := by
    rw [List.length_append, List.length_take, Nat.min_eq_left hpos]
  refine ⟨⟨?_, ?_⟩, ?_⟩
  · simp only [put]
    omega
  · simp only [put, List.length_append, List.length_take, List.length_drop]
    omega
  · simp only [unread, put]
    rw [List.take_append_of_le_length hlen.ge, ← hlen, List.take_length,
      List.drop_append_of_le_length]
    rw [List.length_take, Nat.min_eq_left hpos]
    exact hused

theorem inbufpos_of_compact (h : d.Ok) (hused : d.inbufused = 0) :
    d.inbufpos = d.unread.length := by
  rw [length_unread h, hused, Nat.sub_zero]

theorem read_spec (h : d.Ok) (hused : d.inbufused = 0) (hroom : d.inbufpos < d.inbuf.length)
    (fd : List Byte) (r : Readable) :
    (d.read fd r = none ∧ (r = .eof ∨ r = .error)) ∨
      ∃ d' fd', d.read fd r = some (d', fd') ∧ ¬ (r = .eof ∨ r = .error) ∧ d'.Ok ∧
        d'.inbufused = 0 ∧ d'.outbuf = d.outbuf ∧ d'.unread ++ fd' = d.unread ++ fd ∧
        (fd ≠ [] → ∀ n, r = .bytes n → fd'.length < fd.length) := by
  cases r with
  | bytes n =>
    let n' := min (n + 1) (d.inbuf.length - d.inbufpos)
    have hfits : d.inbufpos + (fd.take n').length ≤ d.inbuf.length := by
      rw [List.length_take]
      omega
    obtain ⟨hok, hunread⟩ := put_spec h hfits
    refine Or.inr ⟨d.put (fd.take n'), fd.drop n', rfl, by simp, hok, hused, rfl, ?_, ?_⟩
    · rw [hunread, List.append_assoc, List.take_append_drop]
    · intro hne _ _
      have hpos := List.length_pos_iff.mpr hne
      rw [List.length_drop]
      omega
  | again => exact Or.inr ⟨d, fd, rfl, by simp, h, hused, rfl, rfl, by simp⟩
  | eof => exact Or.inl ⟨rfl, by simp⟩
  | error => exact Or.inl ⟨rfl, by simp⟩

variable (junk) in
theorem input_spec (h : d.Ok) (fd : List Byte) (r : Readable) : ∃ z d' fd',
    d.input junk fd r = .ok (z, d', fd') ∧ d'.Ok ∧ d'.outbuf = d.outbuf ∧
      d'.unread ++ fd' = d.unread ++ fd ∧
      z = (if Whole d'.unread then 1 else if r = .eof ∨ r = .error then -1 else 0) ∧
      (¬ Whole d.unread → fd ≠ [] → ∀ n, r = .bytes n → fd'.length < fd.length) := by
  obtain ⟨hok₁, hunread₁, hused₁, hout₁⟩ := compact_spec h
  have hsize₁ := pktsize_eq hok₁
  rw [hunread₁] at hsize₁
  obtain ⟨hok, hunread, hused, -, hsz, hout⟩ := grow_spec junk hok₁ (framesize d.unread)
  rw [hunread₁] at hunread
  rw [hused₁] at hused
  rw [hout₁] at hout
  simp only [input, bind, Except.bind, hsize₁]
  generalize d.compact.grow junk (framesize d.unread) = e at *
  have hpos := inbufpos_of_compact hok hused
  rw [hunread] at hpos
  have hresult : ∀ {e' : Dnstcppkt}, e'.Ok → e'.inbufused = 0 →
      (if e'.inbufpos ≥ framesize e'.unread then (1 : ℤ) else 0) =
        if Whole e'.unread then 1 else 0 := by
    intro e' hok' hused'
    rw [inbufpos_of_compact hok' hused']
    rfl
  by_cases hwhole : Whole d.unread
  · have hnoread : ¬ e.inbufpos < framesize d.unread := by
      rw [hpos]
      exact Nat.not_lt.mpr hwhole
    refine ⟨1, e, fd, ?_, hok, hout, by rw [hunread], ?_, fun hne => absurd hwhole hne⟩
    · have hone := hresult hok hused
      rw [hunread, if_pos hwhole] at hone
      simp only [if_neg hnoread, pktsize_eq hok, hunread, hone]
    · rw [hunread, if_pos hwhole]
  · have hread : e.inbufpos < framesize d.unread := by
      rw [hpos]
      exact Nat.not_le.mp hwhole
    simp only [if_pos hread]
    rcases read_spec hok hused (hread.trans_le hsz) fd r with
      ⟨hfail, hr⟩ | ⟨e', fd', hgot, hr, hok', hused', hout', hstream, hless⟩
    · refine ⟨-1, e, fd, by simp only [hfail], hok, hout, by rw [hunread], ?_, ?_⟩
      · rw [hunread, if_neg hwhole, if_pos hr]
      · intro _ _ n hn
        subst hn
        simp at hr
    · refine ⟨if Whole e'.unread then 1 else 0, e', fd', ?_, hok', hout'.trans hout,
        by rw [hstream, hunread], by rw [if_neg hr], fun _ => hless⟩
      simp only [hgot, pktsize_eq hok', hresult hok' hused']

theorem getpkt_eq (h : d.Ok) :
    d.getpkt = .ok (if Whole d.unread then
      (some ((d.unread.take (framesize d.unread)).drop 2),
        { d with inbufused := d.inbufused + framesize d.unread })
      else (none, d)) := by
  have hlen := length_unread h
  have hpos := h.pos
  have hused := h.used
  simp only [getpkt, bind, Except.bind, pktsize_eq h, ← hlen]
  by_cases hwhole : Whole d.unread
  · have hle : framesize d.unread ≤ d.unread.length := hwhole
    have htwo : 2 ≤ framesize d.unread := by
      match d.unread with
      | [] | [_] => exact le_rfl
      | _ :: _ :: _ => exact Nat.le_add_left 2 _
    have hin : d.inbufused + 2 + (framesize d.unread - 2) ≤ d.inbuf.length := by omega
    rw [if_neg (Nat.not_lt.mpr hle), getbytes, if_pos hin, if_pos hwhole, ← List.drop_drop,
      drop_inbuf h, List.drop_append_of_le_length (htwo.trans hle),
      List.take_append_of_le_length, List.take_drop]
    · simp only [Nat.add_sub_cancel' htwo]
    · rw [List.length_drop]
      exact Nat.sub_le_sub_right hle 2
  · rw [if_pos (Nat.not_le.mp hwhole), if_neg hwhole]

theorem used_spec {n : ℕ} (h : d.Ok) (hn : n ≤ d.unread.length) :
    Ok { d with inbufused := d.inbufused + n } ∧
      unread { d with inbufused := d.inbufused + n } = d.unread.drop n := by
  rw [length_unread h] at hn
  refine ⟨⟨?_, h.pos⟩, ?_⟩
  · have hused := h.used
    simp only
    omega
  · simp only [unread, List.drop_drop]

theorem output_spec (d : Dnstcppkt) (ws : List (Option ℕ)) : ∃ z out w,
    d.output ws = (z, { d with outbuf := out }, w) ∧ w ++ out = d.outbuf := by
  have hbytes := Arpc.AxprtPipe.suioOutput_bytes ws d.outbuf
  by_cases hn : (Arpc.AxprtPipe.suioOutput ws d.outbuf).1 < 0
  · exact ⟨_, _, _, if_pos hn, hbytes⟩
  · exact ⟨_, _, _, if_neg hn, hbytes⟩

end Dnstcppkt

/-- A sender and a receiver, the bytes on their way, the packets that were put and those that were
got. -/
structure Dnstcp where
  tx : Dnstcppkt
  wire : List Byte
  rx : Dnstcppkt
  sent : List (List Byte)
  got : List (List Byte)
deriving DecidableEq, Repr

namespace Dnstcp

inductive Event where
  | putpkt (pkt : List Byte)
  | output (ws : List (Option ℕ))
  | input (r : Readable)
  | getpkt
deriving DecidableEq, Repr

variable (junk : ℕ → Byte)

def init : Dnstcp := ⟨.init junk, [], .init junk, [], []⟩

/-- A fault has no next state. -/
def step (s : Dnstcp) : Event → Option Dnstcp
  | .putpkt pkt =>
    match s.tx.putpkt pkt with
    | .ok tx => some { s with tx := tx, sent := s.sent ++ [pkt] }
    | .error _ => none
  | .output ws =>
    let (_, tx, b) := s.tx.output ws
    some { s with tx := tx, wire := s.wire ++ b }
  | .input r =>
    match s.rx.input junk s.wire r with
    | .ok (_, rx, wire) => some { s with rx := rx, wire := wire }
    | .error _ => none
  | .getpkt =>
    match s.rx.getpkt with
    | .ok (pkt, rx) => some { s with rx := rx, got := s.got ++ pkt.toList }
    | .error _ => none

open Dnstcppkt (frame Whole length_frame whole_frame)

def stream : List (List Byte) → List Byte :=
  frames (fun _ pkt => frame pkt) (fun u _ => u) ()

/-- What is on its way, from the buffer of the receiver to the one of the sender, is what was put
and not got so far. -/
structure Inv (s : Dnstcp) (rest : List (List Byte)) : Prop where
  ok : s.rx.Ok
  sent : s.sent = s.got ++ rest
  bytes : s.rx.unread ++ (s.wire ++ s.tx.outbuf) = stream rest
  fits : ∀ pkt ∈ rest, pkt.length < 2 ^ 16

variable {junk} {s s' : Dnstcp} {rest : List (List Byte)} {pkt : List Byte}

theorem Inv.next (h : s.Inv rest) :
    ((∀ pkt ∈ rest.head?, s.rx.unread.length < (frame pkt).length) ∧ ¬ Whole s.rx.unread) ∨
      ∃ pkt rest' b, rest = pkt :: rest' ∧ s.rx.unread = frame pkt ++ b ∧
        b ++ (s.wire ++ s.tx.outbuf) = stream rest' := by
  have hbytes := h.bytes
  cases rest with
  | nil =>
    obtain ⟨hunread, -⟩ := List.append_eq_nil_iff.mp hbytes
    rw [hunread]
    exact Or.inl ⟨by simp, by decide⟩
  | cons pkt rest =>
    rcases frames_cut hbytes with ⟨hshort, b', hne, hb⟩ | ⟨b, hb, hrest⟩
    · refine Or.inl ⟨?_, Dnstcppkt.not_whole_of_frame (h.fits pkt (by simp)) hb hne⟩
      intro pkt' hpkt'
      cases hpkt'
      exact hshort
    · exact Or.inr ⟨pkt, rest, b, rfl, hb, hrest⟩

theorem Inv.getpkt (h : s.Inv rest) :
    ((∀ pkt ∈ rest.head?, s.rx.unread.length < (frame pkt).length) ∧
      s.rx.getpkt = .ok (none, s.rx) ∧ ¬ Whole s.rx.unread) ∨
      ∃ pkt rest' rx, rest = pkt :: rest' ∧ (frame pkt).length ≤ s.rx.unread.length ∧
        s.rx.getpkt = .ok (some pkt, rx) ∧
        Inv { s with rx := rx, got := s.got ++ [pkt] } rest' := by
  rcases h.next with ⟨hshort, hnot⟩ | ⟨pkt, rest', b, rfl, hunread, hrest⟩
  · exact Or.inl ⟨hshort, by rw [Dnstcppkt.getpkt_eq h.ok, if_neg hnot], hnot⟩
  · have hfits := h.fits pkt (by simp)
    have hwhole : Whole s.rx.unread := by
      rw [hunread]
      exact whole_frame hfits b
    have hsize := Dnstcppkt.framesize_frame hfits b
    rw [← hunread] at hsize
    have hle : (frame pkt).length ≤ s.rx.unread.length := by
      rw [hunread, List.length_append]
      omega
    refine Or.inr ⟨pkt, rest',
      { s.rx with inbufused := s.rx.inbufused + (frame pkt).length }, rfl, hle, ?_, ?_⟩
    · rw [Dnstcppkt.getpkt_eq h.ok, if_pos hwhole, hsize]
      have hpkt : (s.rx.unread.take (frame pkt).length).drop 2 = pkt := by
        rw [hunread, List.take_left]
        rfl
      rw [hpkt]
    · obtain ⟨hok, hdrop⟩ := Dnstcppkt.used_spec h.ok hle
      refine ⟨hok, ?_, ?_, fun p hp => h.fits p (by simp [hp])⟩
      · simp only [h.sent, List.append_assoc, List.singleton_append]
      · simp only [hdrop, hunread, List.drop_left, hrest]

theorem inv_init : (init junk).Inv [] :=
  ⟨⟨le_rfl, Nat.zero_le _⟩, rfl, rfl, by simp⟩

variable (junk) in
theorem Inv.step (h : s.Inv rest) (e : Event) :
    (step junk s e = none ∧ ∃ pkt, e = .putpkt pkt ∧ 0x10000 ≤ pkt.length) ∨
      (∃ s' rest', step junk s e = some s' ∧ s'.Inv rest') ∧
        ¬ ∃ pkt, e = .putpkt pkt ∧ 0x10000 ≤ pkt.length := by
  cases e with
  | putpkt pkt =>
    by_cases hlen : pkt.length < 0x10000
    · let tx : Dnstcppkt :=
        { s.tx with outbuf := s.tx.outbuf ++ htons (BitVec.ofNat 16 pkt.length) ++ pkt }
      have hstep : Dnstcp.step junk s (.putpkt pkt) =
          some { s with tx := tx, sent := s.sent ++ [pkt] } := by
        simp only [Dnstcp.step, Dnstcppkt.putpkt, if_pos hlen]
        rfl
      refine Or.inr ⟨⟨_, rest ++ [pkt], hstep, h.ok, ?_, ?_, ?_⟩, ?_⟩
      · simp only [h.sent, List.append_assoc]
      · have hbytes := h.bytes
        rw [stream] at hbytes ⊢
        rw [frames_append, ← hbytes]
        simp only [frames, frame, List.append_assoc, List.append_nil, tx]
      · intro p hp
        rcases List.mem_append.mp hp with hp | hp
        · exact h.fits p hp
        · rw [List.mem_singleton.mp hp]
          exact hlen
      · rintro ⟨_, ⟨⟩, hlong⟩
        omega
    · have hstep : Dnstcp.step junk s (.putpkt pkt) = none := by
        simp only [Dnstcp.step, Dnstcppkt.putpkt, if_neg hlen]
      exact Or.inl ⟨hstep, pkt, rfl, by omega⟩
  | output ws =>
    obtain ⟨z, out, w, hout, hw⟩ := Dnstcppkt.output_spec s.tx ws
    have hstep : Dnstcp.step junk s (.output ws) =
        some { s with tx := { s.tx with outbuf := out }, wire := s.wire ++ w } := by
      simp only [Dnstcp.step, hout]
    refine Or.inr ⟨⟨_, rest, hstep, h.ok, h.sent, ?_, h.fits⟩, by simp⟩
    rw [← h.bytes, ← hw]
    simp only [List.append_assoc]
  | input r =>
    obtain ⟨z, d, fd, hin, hok, -, hbytes, -, -⟩ :=
      Dnstcppkt.input_spec junk h.ok s.wire r
    have hstep : Dnstcp.step junk s (.input r) = some { s with rx := d, wire := fd } := by
      simp only [Dnstcp.step, hin]
    refine Or.inr ⟨⟨_, rest, hstep, hok, h.sent, ?_, h.fits⟩, by simp⟩
    rw [← h.bytes, ← List.append_assoc, hbytes, List.append_assoc]
  | getpkt =>
    rcases h.getpkt with ⟨-, hget, -⟩ | ⟨pkt, rest', rx, -, -, hget, hinv⟩
    · have hstep : Dnstcp.step junk s .getpkt = some s := by
        simp only [Dnstcp.step, hget, Option.toList_none, List.append_nil]
      exact Or.inr ⟨⟨s, rest, hstep, h⟩, by simp⟩
    · have hstep : Dnstcp.step junk s .getpkt =
          some { s with rx := rx, got := s.got ++ [pkt] } := by
        simp only [Dnstcp.step, hget, Option.toList_some]
      exact Or.inr ⟨⟨_, rest', hstep, hinv⟩, by simp⟩

variable (junk) in
/-- What the two sides promise. -/
structure Correct (s : Dnstcp) (rest : List (List Byte)) : Prop where
  /-- The packets that were got are the first of those that were put. -/
  order : s.sent = s.got ++ rest
  /-- The next one is got as soon as all its bytes were read, and nothing before that. -/
  next : s.rx.getpkt = .ok (none, s.rx) ∧
      (∀ pkt ∈ rest.head?, s.rx.unread.length < (frame pkt).length) ∨
    ∃ pkt ∈ rest.head?, (frame pkt).length ≤ s.rx.unread.length ∧
      ∃ rx, s.rx.getpkt = .ok (some pkt, rx)
  /-- `input` says if there is a packet to get. -/
  ready : ∀ r, ∃ z rx wire, s.rx.input junk s.wire r = .ok (z, rx, wire) ∧
    (z = 1 ↔ ∃ pkt ∈ rest.head?, (frame pkt).length ≤ rx.unread.length)
  /-- It takes bytes that have arrived, unless a packet is to be got first. -/
  progress : s.rx.getpkt = .ok (none, s.rx) → s.wire ≠ [] → ∀ n, ∃ z rx wire,
    s.rx.input junk s.wire (.bytes n) = .ok (z, rx, wire) ∧ wire.length < s.wire.length
  /-- Nothing is left when all bytes have arrived. -/
  all : s.rx.getpkt = .ok (none, s.rx) → s.wire = [] → s.tx.outbuf = [] → s.got = s.sent
  /-- No step is a fault but for a packet that is too long. -/
  steps : ∀ e, step junk s e = none ↔ ∃ pkt, e = .putpkt pkt ∧ 0x10000 ≤ pkt.length

theorem Inv.correct (h : s.Inv rest) : s.Correct junk rest where
  order := h.sent
  next := by
    rcases h.getpkt with ⟨hshort, hget, -⟩ | ⟨pkt, rest', rx, rfl, hle, hget, -⟩
    · exact Or.inl ⟨hget, hshort⟩
    · exact Or.inr ⟨pkt, rfl, hle, rx, hget⟩
  ready r := by
    obtain ⟨z, rx, wire, hin, hok, -, hbytes, hz, -⟩ :=
      Dnstcppkt.input_spec junk h.ok s.wire r
    have h' : Inv { s with rx := rx, wire := wire } rest := by
      refine ⟨hok, h.sent, ?_, h.fits⟩
      rw [← h.bytes, ← List.append_assoc, hbytes, List.append_assoc]
    refine ⟨z, rx, wire, hin, ?_⟩
    rw [hz]
    rcases h'.next with ⟨hshort, hnot⟩ | ⟨pkt, rest', b, rfl, hunread, -⟩
    · constructor
      · rw [if_neg hnot]
        intro hone
        split_ifs at hone
        all_goals omega
      · rintro ⟨pkt, hpkt, hle⟩
        exact absurd hle (Nat.not_le.mpr (hshort pkt hpkt))
    · simp only at hunread
      have hwhole : Whole rx.unread := by
        rw [hunread]
        exact whole_frame (h.fits pkt (by simp)) b
      rw [if_pos hwhole]
      refine iff_of_true rfl ⟨pkt, rfl, ?_⟩
      rw [hunread, List.length_append]
      omega
  progress hnone hne n := by
    obtain ⟨z, rx, wire, hin, -, -, -, -, hless⟩ :=
      Dnstcppkt.input_spec junk h.ok s.wire (.bytes n)
    rcases h.getpkt with ⟨-, -, hnot⟩ | ⟨pkt, rest', rx, -, -, hget, -⟩
    · exact ⟨z, rx, wire, hin, hless hnot hne n rfl⟩
    · rw [hnone] at hget
      cases hget
  all hnone hwire hout := by
    have hbytes := h.bytes
    rw [hwire, hout, List.append_nil] at hbytes
    cases rest with
    | nil => rw [h.sent, List.append_nil]
    | cons pkt rest =>
      rcases h.getpkt with ⟨hshort, -, -⟩ | ⟨_, _, _, -, -, hget, -⟩
      · have hlen := congrArg List.length hbytes
        have := hshort pkt rfl
        simp only [stream, frames, List.length_append, List.length_nil] at hlen
        omega
      · rw [hnone] at hget
        cases hget
  steps e := by
    rcases h.step junk e with ⟨hstep, hlong⟩ | ⟨⟨s', rest', hstep, -⟩, hnot⟩
    · exact iff_of_true hstep hlong
    · exact iff_of_false (by simp [hstep]) hnot

/-- For every sequence of packets that are put, every way in which they are written and read and
every time at which packets are asked for: the two sides keep their promise. -/
theorem dnstcppkt_delivers {junk : ℕ → Byte} {es : List Event} {s : Dnstcp}
    (hrun : Run (step junk) (fun _ _ => True) (init junk) es s) :
    ∃ rest, s.Correct junk rest := by
  obtain ⟨rest, h⟩ : ∃ rest, s.Inv rest := by
    refine hrun.invariant (I := fun s => ∃ rest, s.Inv rest) ⟨[], inv_init⟩ ?_
    rintro a e b ⟨rest, ha⟩ - hs
    rcases ha.step junk e with ⟨hnone, -⟩ | ⟨⟨s', rest', hsome, h'⟩, -⟩
    · rw [hnone] at hs
      cases hs
    · rw [hsome] at hs
      cases hs
      exact ⟨rest', h'⟩
  exact ⟨rest, h.correct⟩

/-- Two packets, of which the second one is empty, in three pieces. -/
theorem dnstcppkt_delivers_pieces : ∃ (s : Dnstcp) (rest : List (List Byte)),
    s.got = [[1, 2, 3], []] ∧ s.sent = [[1, 2, 3], []] ∧ s.Correct (fun _ => 0) rest := by
  let es : List Event := [.putpkt [1, 2, 3], .output [some 1], .input (.bytes 7), .getpkt,
    .putpkt [], .output [some 5, some 1], .input .again, .input (.bytes 2), .getpkt,
    .input (.bytes 2), .getpkt, .getpkt]
  have hs : (es.foldlM (step fun _ => 0) (init fun _ => 0)).map (fun s => (s.got, s.sent)) =
      some ([[1, 2, 3], []], [[1, 2, 3], []]) := by
    decide +kernel
  obtain ⟨s, hrun, hpkts⟩ := Option.map_eq_some_iff.mp hs
  obtain ⟨hgot, hsent⟩ := Prod.mk.inj hpkts
  obtain ⟨rest, h⟩ := dnstcppkt_delivers (Run.of_foldlM hrun)
  exact ⟨s, rest, hgot, hsent, h⟩

end Dnstcp

end Sfslite.Async
