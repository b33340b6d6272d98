import Sfslite.Crypt.AxprtCrypt

/-!
A stream between two encrypted transports. A packet starts where the one before it ends in
the stream of keys, so the packets are frames whose code depends on the position; the
receiver has drawn the keys of the packet that is next, or none of it.
-/

namespace Sfslite.Crypt

open Sfslite.Arpc Sfslite.Lib

variable {ws : List (Option ℕ)}

namespace AxprtCrypt

variable {sha1 : Sha1} {ks : ℕ → Byte} {c : AxprtCrypt} {pos : ℕ} {m b : List Byte}

section

variable (sha1 ks)

/-- The authentication code of a message whose keys start at a position. -/
def macOf (pos : ℕ) (m : List Byte) : List Byte :=
  (sha1 (streamTake ks pos mackeysize ++ frame m ++
    streamTake ks (pos + mackeysize) mackeysize)).toList.take macsize

def packet (pos : ℕ) (m : List Byte) : List Byte :=
  xorStream ks (pos + 2 * mackeysize) (frame m ++ macOf sha1 ks pos m)

/-- The bytes of the stream that a packet takes. -/
def drawn (m : List Byte) : ℕ := 2 * mackeysize + (4 + m.length + macsize)

/-- Where the next packet starts. -/
def advance (pos : ℕ) (m : List Byte) : ℕ := pos + drawn m

/-- The word that masks the length of a packet. -/
def padAt (pos : ℕ) : BitVec 32 := ks pos ++ ks (pos + 1) ++ ks (pos + 2) ++ ks (pos + 3)

end

@[simp] theorem length_macOf : (macOf sha1 ks pos m).length = macsize := by
  rw [macOf, List.length_take, List.Vector.toList_length]
  rfl

@[simp] theorem length_xorStream (pos : ℕ) (b : List Byte) :
    (xorStream ks pos b).length = b.length := length_mask

theorem length_packet : (packet sha1 ks pos m).length = 4 + m.length + macsize := by
  rw [packet, length_xorStream, List.length_append, length_frame, length_macOf]

theorem xorStream_append (pos : ℕ) (a b : List Byte) :
    xorStream ks pos (a ++ b) = xorStream ks pos a ++ xorStream ks (pos + a.length) b :=
  mask_append

theorem xorStream_xorStream (pos : ℕ) (b : List Byte) : xorStream ks pos (xorStream ks pos b) = b :=
  mask_mask fun a k => by rw [BitVec.xor_assoc, BitVec.xor_self, BitVec.xor_zero]

theorem getint_xorStream (pos : ℕ) (v : BitVec 32) (b : List Byte) :
    getint (xorStream ks pos (htonl v) ++ b) = some (v ^^^ padAt ks pos, b) := by
  have hword : getint (htonl v ++ b) = some (v, b) := getint_htonl v b
  rw [htonl, List.cons_append, List.cons_append, List.cons_append, List.cons_append,
    List.nil_append, getint, Option.some.injEq, Prod.mk.injEq] at hword
  rw [htonl, xorStream, mask, mask, mask, mask, mask]
  simp only [List.cons_append, List.nil_append, getint, padAt]
  rw [← BitVec.xor_append, ← BitVec.xor_append, ← BitVec.xor_append, hword.1]

theorem packet_eq : packet sha1 ks pos m =
    xorStream ks (pos + 2 * mackeysize) (htonl (0x80000000 ||| BitVec.ofNat 32 m.length)) ++
      xorStream ks (pos + 2 * mackeysize + 4) (m ++ macOf sha1 ks pos m) := by
  rw [packet, frame, List.append_assoc, xorStream_append, length_htonl]

/-- The next packet starts at the position `pos` of the stream. -/
structure Ready (ks : ℕ → Byte) (c : AxprtCrypt) (pos : ℕ) : Prop where
  undrawn : c.macset = false → c.ctxRecv = pos
  drawn : c.macset = true → c.ctxRecv = pos + 2 * mackeysize + 4 ∧
    c.mackey1 = streamTake ks pos mackeysize ∧
    c.mackey2 = streamTake ks (pos + mackeysize) mackeysize ∧
    c.lenpad = padAt ks (pos + 2 * mackeysize)

/-- A transport that has drawn the keys of a packet. -/
def keyed (ks : ℕ → Byte) (c : AxprtCrypt) (pos : ℕ) : AxprtCrypt :=
  { c with
    mackey1 := streamTake ks pos mackeysize
    mackey2 := streamTake ks (pos + mackeysize) mackeysize
    lenpad := padAt ks (pos + 2 * mackeysize)
    ctxRecv := pos + 2 * mackeysize + 4
    macset := true }

theorem Ready.setmac (h : c.Ready ks pos) : c.setmac ks = c.keyed ks pos := by
  obtain ⟨pktsize, isopen, pktbuf, out, wcbset, raw, recvd, ctxSend, ctxRecv, macset, k₁, k₂,
    lenpad⟩ := c
  cases macset with
  | false =>
    obtain rfl : ctxRecv = pos := h.undrawn rfl
    rfl
  | true =>
    obtain ⟨hrecv, hk₁, hk₂, hpad⟩ := h.drawn rfl
    dsimp only at hrecv hk₁ hk₂ hpad
    subst hrecv hk₁ hk₂ hpad
    rfl

theorem ready_keyed : (c.keyed ks pos).Ready ks pos := ⟨nofun, fun _ => ⟨rfl, rfl, rfl, rfl⟩⟩

theorem getpkt_packet (h : c.Ready ks pos) (hm : m.length ≤ c.pktsize) (h31 : m.length < 2 ^ 31) :
    c.getpkt sha1 ks (packet sha1 ks pos m ++ b) =
      (true, b, { c.keyed ks pos with
        macset := false
        ctxRecv := advance pos m
        recvd := c.recvd ++ [some m] }) := by
  have hxor : ∀ v pad : BitVec 32, v ^^^ pad ^^^ pad = v := fun v pad => by
    rw [BitVec.xor_assoc, BitVec.xor_self, BitVec.xor_zero]
  have hpad : (c.keyed ks pos).lenpad = padAt ks (pos + 2 * mackeysize) := rfl
  have hsize : (c.keyed ks pos).pktsize = c.pktsize := rfl
  have hrecv : (c.keyed ks pos).ctxRecv = pos + 2 * mackeysize + 4 := rfl
  have hlen : (xorStream ks (pos + 2 * mackeysize + 4) (m ++ macOf sha1 ks pos m)).length =
      m.length + macsize := by
    rw [length_xorStream, List.length_append, length_macOf]
  have hmac : (sha1 ((c.keyed ks pos).mackey1 ++
      (htonl (0x80000000 ||| BitVec.ofNat 32 m.length) ++ m) ++
        (c.keyed ks pos).mackey2)).toList.take macsize = macOf sha1 ks pos m := rfl
  have hadvance : pos + 2 * mackeysize + 4 + (m.length + macsize) = advance pos m := by
    rw [advance, AxprtCrypt.drawn]
    omega
  simp only [getpkt, h.setmac]
  rw [packet_eq, List.append_assoc, getint_xorStream]
  simp only [hpad, hxor, if_neg (header_ne_zero h31), hsize, checklen_frame h31 hm]
  rw [if_neg (by rw [List.length_append, hlen]; omega), List.take_left' hlen, hrecv,
    xorStream_xorStream, List.take_left, List.drop_left, if_neg (not_not_intro hmac),
    List.drop_left' hlen, hadvance]
  rfl

theorem getpkt_part {b' : List Byte} (h : c.Ready ks pos) (hm : m.length ≤ c.pktsize)
    (h31 : m.length < 2 ^ 31) (hb : b ++ b' = packet sha1 ks pos m) (hb' : b' ≠ []) :
    c.getpkt sha1 ks b = (false, b, c.keyed ks pos) := by
  have hpos := List.length_pos_iff.mpr hb'
  have hlen := congrArg List.length hb
  rw [List.length_append, length_packet] at hlen
  simp only [getpkt, h.setmac]
  cases hget : getint b with
  | none => rfl
  | some r =>
    obtain ⟨word, cp⟩ := r
    obtain rfl := eq_of_getint hget
    have hword : getint (packet sha1 ks pos m) = some
        ((0x80000000 ||| BitVec.ofNat 32 m.length) ^^^ padAt ks (pos + 2 * mackeysize),
          xorStream ks (pos + 2 * mackeysize + 4) (m ++ macOf sha1 ks pos m)) := by
      rw [packet_eq, getint_xorStream]
    rw [← hb, List.append_assoc, getint_htonl, Option.some.injEq, Prod.mk.injEq] at hword
    rw [List.length_append, length_htonl] at hlen
    have hpad : (c.keyed ks pos).lenpad = padAt ks (pos + 2 * mackeysize) := rfl
    have hsize : (c.keyed ks pos).pktsize = c.pktsize := rfl
    have hxor : word ^^^ padAt ks (pos + 2 * mackeysize) =
        0x80000000 ||| BitVec.ofNat 32 m.length := by
      rw [hword.1, BitVec.xor_assoc, BitVec.xor_self, BitVec.xor_zero]
    simp only [hpad, hxor, if_neg (header_ne_zero h31), hsize, checklen_frame h31 hm]
    rw [if_pos (by omega)]

def packets (sha1 : Sha1) (ks : ℕ → Byte) (pos : ℕ) (ms : List (List Byte)) : List Byte :=
  frames (packet sha1 ks) advance pos ms

def packetLen (m : List Byte) : ℕ := 4 + m.length + macsize

theorem getpkt_nil (h : c.Ready ks pos) : c.getpkt sha1 ks [] = (false, [], c.keyed ks pos) := by
  simp only [getpkt, h.setmac, getint]

theorem getpktLoop_packets {fuel : ℕ} {later : List Byte} {todo : List (List Byte)}
    (hfuel : b.length < fuel) (h : c.Ready ks pos)
    (htodo : ∀ m ∈ todo, m.length ≤ c.pktsize ∧ m.length < 2 ^ 31)
    (hb : b ++ later = packets sha1 ks pos todo) :
    ∃ c' got rest todo', getpktLoop sha1 ks fuel c b = some (c', rest) ∧ todo = got ++ todo' ∧
      rest ++ later = packets sha1 ks (framesEnd advance pos got) todo' ∧
      c'.Ready ks (framesEnd advance pos got) ∧ c'.recvd = c.recvd ++ got.map some ∧
      c'.pktsize = c.pktsize ∧ c'.isopen = c.isopen ∧
      rest.length = leftOver (todo.map packetLen) b.length ∧
      ∀ m ms, todo' = m :: ms → rest.length < packetLen m := by
  induction todo generalizing fuel b c pos with
  | nil =>
    obtain ⟨rfl, rfl⟩ := List.append_eq_nil_iff.mp hb
    obtain ⟨fuel, rfl⟩ : ∃ k, fuel = k + 1 := ⟨fuel - 1, by omega⟩
    refine ⟨c.keyed ks pos, [], [], [], ?_, rfl, rfl, ready_keyed, ?_, rfl, rfl, rfl, nofun⟩
    · simp only [getpktLoop, getpkt_nil h]
    · exact (List.append_nil _).symm
  | cons m todo ih =>
    obtain ⟨fuel, rfl⟩ : ∃ k, fuel = k + 1 := ⟨fuel - 1, by omega⟩
    obtain ⟨hm, h31⟩ := htodo m (List.mem_cons_self ..)
    rcases frames_cut hb with ⟨hlt, b', hb', hpart⟩ | ⟨b', rfl, hrest⟩
    · rw [length_packet] at hlt
      have hget := getpkt_part h hm h31 hpart hb'
      refine ⟨c.keyed ks pos, [], b, m :: todo, ?_, rfl, hb, ready_keyed,
        (List.append_nil _).symm, rfl, rfl, ?_, ?_⟩
      · simp only [getpktLoop, hget]
      · rw [List.map_cons, leftOver, if_neg (by rw [packetLen]; omega)]
      · intro m' ms hcons
        obtain ⟨rfl, rfl⟩ := List.cons.inj hcons
        exact hlt
    · have hget := @getpkt_packet sha1 ks c pos m b' h hm h31
      rw [List.length_append, length_packet] at hfuel
      have hfuel' : b'.length < fuel := by omega
      obtain ⟨c', got, rest, todo', hloop, rfl, hstream, hready, hrecvd, hsize, hopen, hlen,
        hkept⟩ := ih
          (c := { c.keyed ks pos with
            macset := false
            ctxRecv := advance pos m
            recvd := c.recvd ++ [some m] })
          hfuel' ⟨fun _ => rfl, nofun⟩
          (fun m' hm' => htodo m' (List.mem_cons_of_mem _ hm')) hrest
      refine ⟨c', m :: got, rest, todo', ?_, rfl, hstream, hready, ?_, hsize, hopen, ?_, hkept⟩
      · simp only [getpktLoop, hget, hloop]
      · rw [hrecvd, List.map_cons, List.append_assoc, List.singleton_append]
      · have hle : packetLen m ≤ (packet sha1 ks pos m ++ b').length := by
          rw [List.length_append, length_packet, packetLen]
          omega
        have hsub : (packet sha1 ks pos m ++ b').length - packetLen m = b'.length := by
          rw [List.length_append, length_packet, packetLen]
          omega
        rw [hlen, List.map_cons, leftOver, if_pos hle, hsub]

theorem input_packets {chunk later : List Byte} {todo : List (List Byte)}
    (hopen : c.isopen = true) (h : c.Ready ks pos) (hchunk : chunk ≠ [])
    (htodo : ∀ m ∈ todo, m.length ≤ c.pktsize ∧ m.length < 2 ^ 31)
    (hb : c.pktbuf ++ (chunk ++ later) = packets sha1 ks pos todo) :
    ∃ (c' : AxprtCrypt) (got : List (List Byte)) (rest : List Byte) (todo' : List (List Byte)),
      c.input sha1 ks chunk =
        (if leftOver (todo.map packetLen) (c.pktbuf.length + chunk.length) < c.pktsize then
          some { c' with pktbuf := rest } else none) ∧
      todo = got ++ todo' ∧ rest ++ later = packets sha1 ks (framesEnd advance pos got) todo' ∧
      c'.Ready ks (framesEnd advance pos got) ∧ c'.recvd = c.recvd ++ got.map some ∧
      c'.pktsize = c.pktsize ∧ c'.isopen = true ∧
      rest.length = leftOver (todo.map packetLen) (c.pktbuf.length + chunk.length) ∧
      ∀ m ms, todo' = m :: ms → rest.length < packetLen m := by
  have hready : ({ c with pktbuf := c.pktbuf ++ chunk } : AxprtCrypt).Ready ks pos :=
    ⟨h.undrawn, h.drawn⟩
  obtain ⟨c', got, rest, todo', hloop, rfl, hstream, hready', hrecvd, hsize, hopen', hlen,
    hkept⟩ := getpktLoop_packets (b := c.pktbuf ++ chunk) (Nat.lt_succ_self _) hready htodo
      (by rw [List.append_assoc, hb])
  rw [List.length_append] at hlen
  refine ⟨c', got, rest, todo', ?_, rfl, hstream, hready', hrecvd, hsize, hopen'.trans hopen, hlen,
    hkept⟩
  have hisopen : c'.isopen = true := hopen'.trans hopen
  have hsize' : c'.pktsize = c.pktsize := hsize
  simp only [input, if_neg (not_not_intro hopen), if_neg hchunk, callgetpkt, hloop,
    Option.bind_eq_bind, Option.bind_some, if_neg (not_not_intro hisopen), hlen, hsize']
  rfl

theorem output_packets (hws : none ∉ ws) :
    ∃ out' w, c.output ws = ({ c with out := out', wcbset := out' ≠ [] }, w) ∧
      w ++ out' = c.out := by
  obtain ⟨hn, hw⟩ := AxprtPipe.outputLoop_spec (ws.length + 1) hws c.out
  refine ⟨(AxprtPipe.outputLoop (ws.length + 1) ws c.out).2.1,
    (AxprtPipe.outputLoop (ws.length + 1) ws c.out).2.2, ?_, hw⟩
  have hneg : ¬ (AxprtPipe.outputLoop (ws.length + 1) ws c.out).1 < 0 := Int.not_lt.mpr hn
  simp only [output, if_neg hneg]

theorem sendv_packet {iov : List (List Byte)} (hopen : c.isopen = true)
    (hlen : (BitVec.ofNat 32 iov.flatten.length).toNat ≤ c.pktsize)
    (h31 : iov.flatten.length < 2 ^ 31) (hws : none ∉ ws)
    (hwatched : c.wcbset = decide (c.out ≠ [])) :
    ∃ out' w raw, c.sendv sha1 ks iov ws =
        some (true, { c with
          ctxSend := advance c.ctxSend iov.flatten
          rawBytesSent := raw
          out := out'
          wcbset := out' ≠ [] }, w) ∧
      w ++ out' = c.out ++ packet sha1 ks c.ctxSend iov.flatten := by
  have hnat : (BitVec.ofNat 32 iov.flatten.length).toNat = iov.flatten.length := by
    rw [BitVec.toNat_ofNat, Nat.mod_eq_of_lt (by omega)]
  have hframe : htonl (0x80000000 ||| BitVec.ofNat 32 iov.flatten.length) ++ iov.flatten =
      frame iov.flatten := rfl
  have hbytes : xorStream ks (c.ctxSend + 2 * mackeysize) (frame iov.flatten) ++
      xorStream ks (c.ctxSend + 2 * mackeysize + (frame iov.flatten).length)
        (macOf sha1 ks c.ctxSend iov.flatten) = packet sha1 ks c.ctxSend iov.flatten := by
    rw [packet, xorStream_append]
  have hmac : (sha1 (streamTake ks c.ctxSend mackeysize ++ frame iov.flatten ++
      streamTake ks (c.ctxSend + mackeysize) mackeysize)).toList.take macsize =
        macOf sha1 ks c.ctxSend iov.flatten := rfl
  have hctx : c.ctxSend + 2 * mackeysize + (frame iov.flatten).length + macsize =
      advance c.ctxSend iov.flatten := by
    rw [length_frame, advance, drawn]
    omega
  rw [hnat] at hlen
  simp only [sendv, if_neg (not_not_intro hopen), hnat, if_neg (Nat.not_lt_of_le hlen),
    Nat.lt_irrefl, if_false, hframe, hmac, hbytes, hctx]
  by_cases hout : c.out = []
  · obtain ⟨out', w, houtput, hw⟩ := output_packets (c := { c with
      ctxSend := advance c.ctxSend iov.flatten
      rawBytesSent := c.rawBytesSent + (packet sha1 ks c.ctxSend iov.flatten).length
      out := c.out ++ packet sha1 ks c.ctxSend iov.flatten }) hws
    refine ⟨out', w, c.rawBytesSent + (packet sha1 ks c.ctxSend iov.flatten).length, ?_, hw⟩
    rw [if_neg (not_not_intro hout), houtput]
  · have hne : c.out ++ packet sha1 ks c.ctxSend iov.flatten ≠ [] :=
      List.append_ne_nil_of_left_ne_nil hout _
    refine ⟨c.out ++ packet sha1 ks c.ctxSend iov.flatten, [],
      c.rawBytesSent + (packet sha1 ks c.ctxSend iov.flatten).length, ?_, rfl⟩
    rw [if_pos hout, hwatched, decide_eq_true hout, decide_eq_true hne]

/-- Where the keys of the receiver's next packet start. -/
def pktpos (c : AxprtCrypt) : ℕ :=
  if c.macset then c.ctxRecv - (2 * mackeysize + 4) else c.ctxRecv

theorem Ready.pktpos_eq (h : c.Ready ks pos) : c.pktpos = pos := by
  unfold pktpos
  split_ifs with hset
  · rw [(h.drawn hset).1]
    omega
  · exact h.undrawn (by simpa using hset)

theorem framesEnd_advance (ms : List (List Byte)) :
    framesEnd advance pos ms = pos + (ms.map drawn).sum := by
  induction ms generalizing pos with
  | nil => rfl
  | cons m ms ih =>
    rw [framesEnd, ih, List.map_cons, List.sum_cons, advance]
    omega

end AxprtCrypt

namespace CryptWorld

open AxprtCrypt

variable {sha1 : Sha1} {ks : ℕ → Byte} {w : CryptWorld} {pktsize pos : ℕ}
  {todo : List (List Byte)}

/-- The messages `todo` are under way, from the position `pos` of the streams on. -/
structure Ok (sha1 : Sha1) (ks : ℕ → Byte) (pktsize : ℕ) (w : CryptWorld) (pos : ℕ)
    (todo : List (List Byte)) : Prop where
  sndsize : w.snd.pktsize = pktsize
  rcvsize : w.rcv.pktsize = pktsize
  sndopen : w.snd.isopen = true
  rcvopen : w.rcv.isopen = true
  watched : w.snd.wcbset = decide (w.snd.out ≠ [])
  sent : ∃ got, w.sent = got ++ todo ∧ w.rcv.recvd = got.map some
  ready : w.rcv.Ready ks pos
  ctx : w.snd.ctxSend = framesEnd advance pos todo
  stream : w.rcv.pktbuf ++ (w.wire ++ w.snd.out) = packets sha1 ks pos todo
  short : ∀ m ∈ todo, m.length ≤ pktsize ∧ m.length < 2 ^ 31
  kept : ∀ m ms, todo = m :: ms → w.rcv.pktbuf.length < packetLen m
  fits : w.rcv.pktbuf = [] ∨ w.rcv.pktbuf.length < pktsize

theorem ok_init : Ok sha1 ks pktsize (init pktsize) 0 [] :=
  ⟨rfl, rfl, rfl, rfl, rfl, ⟨[], rfl, rfl⟩, ⟨fun _ => rfl, nofun⟩, rfl, rfl, by simp, nofun,
    Or.inl rfl⟩

theorem Ok.undelivered (h : w.Ok sha1 ks pktsize pos todo) :
    w.sent.drop w.rcv.recvd.length = todo := by
  obtain ⟨got, hsent, hrecvd⟩ := h.sent
  rw [hsent, hrecvd, List.length_map, List.drop_left]

theorem Ok.send (h : w.Ok sha1 ks pktsize pos todo) {iov : List (List Byte)}
    (hlegal : w.Legal (.send iov ws)) (hworks : w.Works (.send iov ws)) :
    ∃ w', w.step sha1 ks (.send iov ws) = some w' ∧ w'.sent = w.sent ++ [iov.flatten] ∧
      w'.Ok sha1 ks pktsize pos (todo ++ [iov.flatten]) := by
  obtain ⟨out', bytes, raw, hsend, hout⟩ := @sendv_packet _ sha1 ks _ _ h.sndopen
    hlegal.1 hworks hlegal.2 h.watched
  obtain ⟨got, hsent, hrecvd⟩ := h.sent
  have hlen : iov.flatten.length ≤ pktsize := by
    rw [← h.sndsize]
    have hle := hlegal.1
    rwa [BitVec.toNat_ofNat, Nat.mod_eq_of_lt (Nat.lt_trans hworks (by decide))] at hle
  refine ⟨{ w with
    snd := { w.snd with
      ctxSend := advance w.snd.ctxSend iov.flatten
      rawBytesSent := raw
      out := out'
      wcbset := out' ≠ [] }
    wire := w.wire ++ bytes
    sent := w.sent ++ [iov.flatten] }, ?_, rfl, h.sndsize, h.rcvsize, h.sndopen, h.rcvopen, rfl,
    ⟨got, ?_, hrecvd⟩, h.ready, ?_, ?_, ?_, ?_, h.fits⟩
  · simp only [step, hsend, Option.bind_eq_bind, Option.bind_some, if_true]
    rfl
  · rw [hsent, List.append_assoc]
  · rw [framesEnd_append, ← h.ctx]
    rfl
  · have hone : packet sha1 ks w.snd.ctxSend iov.flatten =
        frames (packet sha1 ks) advance w.snd.ctxSend [iov.flatten] := (List.append_nil _).symm
    rw [packets, frames_append, ← h.ctx, ← hone, ← packets, ← h.stream]
    simp only [List.append_assoc, hout]
  · intro m hm
    rcases List.mem_append.mp hm with hm | hm
    · exact h.short m hm
    · rw [List.mem_singleton.mp hm]
      exact ⟨hlen, hworks⟩
  · intro m ms hcons
    cases todo with
    | nil =>
      obtain ⟨hbuf, -⟩ := List.append_eq_nil_iff.mp h.stream
      rw [hbuf, packetLen, List.length_nil]
      omega
    | cons m' ms' =>
      obtain ⟨rfl, -⟩ := List.cons.inj hcons
      exact h.kept _ _ rfl

theorem Ok.output (h : w.Ok sha1 ks pktsize pos todo)
    (hlegal : w.Legal (.output ws)) : ∃ w', w.step sha1 ks (.output ws) = some w' ∧
      w'.sent = w.sent ∧ w'.Ok sha1 ks pktsize pos todo := by
  obtain ⟨out', bytes, hstep, hout⟩ := output_packets (c := w.snd) hlegal.2
  refine ⟨{ w with
    snd := { w.snd with out := out', wcbset := out' ≠ [] }
    wire := w.wire ++ bytes }, ?_, rfl, h.sndsize, h.rcvsize, h.sndopen, h.rcvopen, rfl, h.sent,
    h.ready, h.ctx, ?_, h.short, h.kept, h.fits⟩
  · simp only [step, hstep]
  · rw [← h.stream, ← hout]
    simp only [List.append_assoc]

theorem Ok.read (h : w.Ok sha1 ks pktsize pos todo) {n : ℕ} (hlegal : w.Legal (.read n)) :
    (w.Works (.read n) → ∃ w' pos' todo', w.step sha1 ks (.read n) = some w' ∧
      w'.sent = w.sent ∧ w'.Ok sha1 ks pktsize pos' todo') ∧
    (¬ w.Works (.read n) → w.step sha1 ks (.read n) = none) := by
  obtain ⟨hn, hwire, -⟩ := hlegal
  have hlen : (w.wire.take n).length = n := by
    rw [List.length_take]
    omega
  have hchunk : w.wire.take n ≠ [] := by
    rw [← List.length_pos_iff, hlen]
    exact hn
  have hstream : w.rcv.pktbuf ++ (w.wire.take n ++ (w.wire.drop n ++ w.snd.out)) =
      packets sha1 ks pos todo := by
    rw [← List.append_assoc (w.wire.take n), List.take_append_drop, h.stream]
  obtain ⟨c', got', rest, todo', hinput, rfl, hrest, hready, hrecvd', hsize, hopen, hleft, hkept⟩ :=
    input_packets h.rcvopen h.ready hchunk (by rw [h.rcvsize]; exact h.short) hstream
  have hworks : w.Works (.read n) ↔ leftOver ((got' ++ todo').map packetLen)
      (w.rcv.pktbuf.length + n) < w.rcv.pktsize := by
    rw [Works, pending, h.undelivered]
    rfl
  rw [hlen] at hinput hleft
  constructor
  · intro hw
    rw [if_pos (hworks.mp hw)] at hinput
    obtain ⟨got, hsent, hrecvd⟩ := h.sent
    refine ⟨{ w with
      rcv := { c' with pktbuf := rest }
      wire := w.wire.drop n }, framesEnd advance pos got', todo', ?_, rfl, h.sndsize,
      hsize.trans h.rcvsize, h.sndopen, hopen, h.watched, ⟨got ++ got', ?_, ?_⟩,
      ⟨hready.undrawn, hready.drawn⟩, ?_, hrest, ?_, hkept, Or.inr ?_⟩
    · simp only [step, hinput, Option.bind_eq_bind, Option.bind_some]
      rfl
    · rw [hsent, List.append_assoc]
    · simp only [hrecvd', hrecvd, List.map_append]
    · exact h.ctx.trans framesEnd_append
    · exact fun m hm => h.short m (List.mem_append_right _ hm)
    · rw [hworks, ← hleft, h.rcvsize] at hw
      exact hw
  · intro hw
    rw [if_neg fun hlt => hw (hworks.mpr hlt)] at hinput
    simp only [step, hinput, Option.bind_eq_bind, Option.bind_none]

theorem Ok.step (h : w.Ok sha1 ks pktsize pos todo) {op : CryptOp} (hlegal : w.Legal op)
    (hworks : w.Works op) : ∃ w' pos' todo', w.step sha1 ks op = some w' ∧
      w'.Ok sha1 ks pktsize pos' todo' ∧ w'.sent = w.sent ++ op.messages := by
  cases op with
  | send iov ws =>
    obtain ⟨w', hstep, hsent, hok⟩ := h.send hlegal hworks
    exact ⟨w', _, _, hstep, hok, hsent⟩
  | output ws =>
    obtain ⟨w', hstep, hsent, hok⟩ := h.output hlegal
    exact ⟨w', _, _, hstep, hok, hsent.trans (List.append_nil _).symm⟩
  | read n =>
    obtain ⟨w', pos', todo', hstep, hsent, hok⟩ := (h.read hlegal).1 hworks
    exact ⟨w', pos', todo', hstep, hok, hsent.trans (List.append_nil _).symm⟩

theorem Ok.quiet (h : w.Ok sha1 ks pktsize pos todo) (hout : w.snd.out = [])
    (hwire : w.wire = []) : w.rcv.pktbuf = [] ∧ todo = [] := by
  have hstream := h.stream
  rw [hout, hwire, List.append_nil, List.append_nil] at hstream
  cases todo with
  | nil => exact ⟨hstream, rfl⟩
  | cons m ms =>
    have hlt := h.kept m ms rfl
    rw [hstream, packets, frames, List.length_append, length_packet, packetLen] at hlt
    omega

/-- If no message has 2^31 bytes and every read leaves fewer than `pktsize` bytes behind the packets
that are whole, every operation succeeds, the messages delivered are the first ones sent, and the
receiver's keys are the ones that the sender drew for the packet that is next. A read that leaves
more stops the program. -/
theorem axprt_crypt_delivers (sha1 : Sha1) (ks : ℕ → Byte) (pktsize : ℕ) (ops : List CryptOp)
    (w : CryptWorld)
    (hrun : Run (step sha1 ks) (fun w op => w.Legal op ∧ w.Works op) (init pktsize) ops w) :
    (∃ n, w.rcv.recvd = (w.sent.take n).map some) ∧
      (w.snd.out = [] → w.wire = [] → w.rcv.recvd = w.sent.map some ∧ w.rcv.pktbuf = []) ∧
      w.rcv.Ready ks w.rcv.pktpos ∧
      w.snd.ctxSend = w.rcv.pktpos + ((w.sent.drop w.rcv.recvd.length).map drawn).sum ∧
      0 < w.rcv.room ∧ (w.snd.out ≠ [] → w.snd.wcbset = true) ∧
      (∀ op, w.Legal op → w.Works op → ∃ w', w.step sha1 ks op = some w' ∧
        w'.sent = w.sent ++ op.messages) ∧
      ∀ n, w.Legal (.read n) → ¬ w.Works (.read n) → w.step sha1 ks (.read n) = none := by
  obtain ⟨pos, todo, hok⟩ := hrun.invariant
    (I := fun w => ∃ pos todo, w.Ok sha1 ks pktsize pos todo) ⟨0, [], ok_init⟩
    fun a op b ⟨pos, todo, ha⟩ hcond hstep => by
    obtain ⟨b', pos', todo', hb', hok, -⟩ := ha.step hcond.1 hcond.2
    exact ⟨pos', todo', Option.some.inj (hb'.symm.trans hstep) ▸ hok⟩
  obtain ⟨got, hsent, hrecvd⟩ := hok.sent
  refine ⟨⟨got.length, ?_⟩, fun hout hwire => ?_, ?_, ?_, ?_, fun hout => ?_,
    fun op hlegal hworks => ?_, fun n hlegal => (hok.read hlegal).2⟩
  · rw [hsent, List.take_left, hrecvd]
  · obtain ⟨hbuf, rfl⟩ := hok.quiet hout hwire
    rw [List.append_nil] at hsent
    exact ⟨by rw [hsent, hrecvd], hbuf⟩
  · rw [hok.ready.pktpos_eq]
    exact hok.ready
  · rw [hok.ready.pktpos_eq, hok.undelivered, hok.ctx, framesEnd_advance]
  · have hsize := hok.rcvsize
    have hmac : macsize = 16 := rfl
    simp only [room, bufsize]
    rcases hok.fits with hnil | hlt
    · rw [hnil, List.length_nil]
      omega
    · omega
  · rw [hok.watched, decide_eq_true hout]
  · obtain ⟨w', _, _, hstep, -, hsent'⟩ := hok.step hlegal hworks
    exact ⟨w', hstep, hsent'⟩

/-- A stream for examples, and a code that depends on all its input. -/
def countingStream (pos : ℕ) : Byte := BitVec.ofNat 8 (7 * pos + 3)

def xorSha1 : Sha1 := fun bs => List.Vector.replicate hashsize (bs.foldl (· ^^^ ·) 0)

/-- A message whose packet is written in one part and read in two. -/
theorem axprt_crypt_delivers_cut : ∃ w : CryptWorld, w.sent = [[7, 8, 9]] ∧
    w.rcv.recvd = w.sent.map some ∧ w.rcv.pktbuf = [] := by
  obtain ⟨w, hrun, hsent, hout, hwire⟩ : ∃ w, Run (step xorSha1 countingStream)
      (fun w op => w.Legal op ∧ w.Works op) (init 32)
      ([] ++ [.send [[7], [8, 9]] [some 40]] ++ [.read 2] ++ [.read 21]) w ∧
      w.sent = [[7, 8, 9]] ∧ w.snd.out = [] ∧ w.wire = [] := by
    refine ⟨_, .snoc (.snoc (.snoc (.nil _) ⟨?_, ?_⟩ rfl) ⟨?_, ?_⟩ rfl) ⟨?_, ?_⟩ rfl,
      rfl, rfl, rfl⟩ <;> decide
  obtain ⟨-, hquiet, -⟩ := axprt_crypt_delivers xorSha1 countingStream 32 _ w hrun
  exact ⟨w, hsent, hquiet hout hwire⟩

/-- The packet of a message of 13 bytes, cut before its last byte, stops the program where
packets may have 32 bytes. -/
theorem axprt_crypt_asserts : ∃ w : CryptWorld,
    [.send [List.replicate 13 7] [some 33]].foldlM (step xorSha1 countingStream) (init 32) =
      some w ∧ w.Legal (.read 32) ∧ w.step xorSha1 countingStream (.read 32) = none :=
  ⟨_, rfl, by decide, rfl⟩

end CryptWorld

end Sfslite.Crypt
