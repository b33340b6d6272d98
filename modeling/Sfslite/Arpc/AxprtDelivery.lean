import Sfslite.Arpc.AxprtFraming

/-!
A stream between two transports of the same packet size. The bytes of the packets sent and
not yet delivered are, in order, what the receiver has kept, what is under way and what
the sender has queued.
-/

namespace Sfslite.Arpc

open Sfslite.Lib

variable {ws : List (Option ℕ)}

namespace AxprtPipe

variable {p : AxprtPipe} {rcb : List (Option (List Byte)) → CbAct}

theorem suioOutput_spec (hws : none ∉ ws) (out : List Byte) :
    0 ≤ (suioOutput ws out).1 ∧
      (suioOutput ws out).2.2.1 ++ (suioOutput ws out).2.1 = out ∧
      ∀ r ∈ (suioOutput ws out).2.2.2, r ∈ ws := by
  suffices hrest : 0 ≤ (suioOutput ws out).1 ∧ ∀ r ∈ (suioOutput ws out).2.2.2, r ∈ ws from
    ⟨hrest.1, suioOutput_bytes ws out, hrest.2⟩
  fun_induction suioOutput ws out with
  | case1 ws => exact ⟨Int.le_refl _, fun r hr => hr⟩
  | case2 out => exact ⟨Int.le_refl _, fun r hr => hr⟩
  | case3 ws out => exact absurd (List.mem_cons_self ..) hws
  | case4 ws out => exact ⟨Int.le_refl _, fun r hr => List.mem_cons_of_mem _ hr⟩
  | case5 k ws out _ n out' w ws' heq ih =>
    rw [heq] at ih
    obtain ⟨hn, hmem⟩ := ih (fun h => hws (List.mem_cons_of_mem _ h))
    simp only at hn hmem
    refine ⟨?_, fun r hr => List.mem_cons_of_mem _ (hmem r hr)⟩
    simp only [if_neg (Int.not_lt.mpr hn)]
    decide

theorem outputLoop_spec (fuel : ℕ) (hws : none ∉ ws) (out : List Byte) :
    0 ≤ (outputLoop fuel ws out).1 ∧
      (outputLoop fuel ws out).2.2 ++ (outputLoop fuel ws out).2.1 = out := by
  induction fuel generalizing ws out with
  | zero => exact ⟨Int.le_refl _, rfl⟩
  | succ fuel ih =>
    obtain ⟨hn, hw, hmem⟩ := suioOutput_spec hws out
    simp only [outputLoop]
    split_ifs with hpos
    · obtain ⟨hn', hw'⟩ := ih (fun h => hws (hmem none h)) (suioOutput ws out).2.1
      exact ⟨hn', by rw [List.append_assoc, hw', hw]⟩
    · exact ⟨hn, hw⟩

variable (rcb) in
theorem output_spec (hws : none ∉ ws) :
    ∃ out' w, p.output rcb ws = ({ p with out := out', wcbset := out' ≠ [] }, w) ∧
      w ++ out' = p.out := by
  obtain ⟨hn, hw⟩ := outputLoop_spec (ws.length + 1) hws p.out
  refine ⟨(outputLoop (ws.length + 1) ws p.out).2.1, (outputLoop (ws.length + 1) ws p.out).2.2,
    ?_, hw⟩
  simp only [output, if_neg (show ¬ (outputLoop (ws.length + 1) ws p.out).1 < 0 by omega)]

variable (rcb) in
theorem sendv_spec {iov : List (List Byte)} {n : ℕ} (heof : p.ateof = false)
    (hlen : iov.flatten.length + 4 ≤ p.pktsize) (h31 : iov.flatten.length < 2 ^ 31)
    (hws : none ∉ ws) :
    ∃ out' w raw, p.sendv rcb iov (some n) ws =
        some (true, { p with out := out', wcbset := out' ≠ [], rawBytesSent := raw }, w) ∧
      w ++ out' = p.out ++ frame iov.flatten := by
  have hnat : (BitVec.ofNat 32 iov.flatten.length).toNat = iov.flatten.length := by
    rw [BitVec.toNat_ofNat, Nat.mod_eq_of_lt (by omega)]
  have hbig : ¬ p.pktsize < iov.flatten.length := by omega
  have hopen : ¬ p.ateof = true := by simp [heof]
  have hbytes : htonl (0x80000000 ||| BitVec.ofNat 32 iov.flatten.length) ++ iov.flatten =
      frame iov.flatten := rfl
  simp only [sendv, if_neg hopen, hnat, if_neg hbig, hbytes]
  by_cases hfast : p.out = [] ∧ iov.length < 16
  · obtain ⟨out', w, hout, hw⟩ := output_spec rcb
      (p := { p with
        rawBytesSent := p.rawBytesSent + iov.flatten.length + 4
        out := (frame iov.flatten).drop n }) hws
    refine ⟨out', (frame iov.flatten).take n ++ w, p.rawBytesSent + iov.flatten.length + 4, ?_, ?_⟩
    · rw [if_pos hfast, hout]
    · rw [List.append_assoc, hw, List.take_append_drop, hfast.1, List.nil_append]
  · obtain ⟨out', w, hout, hw⟩ := output_spec rcb
      (p := { p with
        rawBytesSent := p.rawBytesSent + iov.flatten.length + 4
        out := p.out ++ frame iov.flatten }) hws
    refine ⟨out', w, p.rawBytesSent + iov.flatten.length + 4, ?_, hw⟩
    rw [if_neg hfast, hout]

theorem getpktLoop_frames {fuel : ℕ} {b later : List Byte} {todo : List (List Byte)}
    (hfuel : b.length < fuel) (hcb : p.cb = true) (hkeep : ∀ tr, rcb tr = .keep)
    (htodo : ∀ m ∈ todo, m.length + 4 ≤ p.pktsize ∧ m.length < 2 ^ 31)
    (hb : b ++ later = todo.flatMap frame) :
    ∃ got rest todo', getpktLoop rcb fuel p b =
        some ({ p with recvd := p.recvd ++ got.map some }, rest) ∧
      todo = got ++ todo' ∧ rest ++ later = todo'.flatMap frame ∧
      (rest = [] ∨ ∃ m ∈ todo', rest.length < 4 + m.length) := by
  induction todo generalizing fuel b p with
  | nil =>
    obtain ⟨rfl, rfl⟩ := List.append_eq_nil_iff.mp hb
    obtain ⟨fuel, rfl⟩ : ∃ k, fuel = k + 1 := ⟨fuel - 1, by omega⟩
    refine ⟨[], [], [], ?_, rfl, rfl, Or.inl rfl⟩
    have hget := getpkt_unfinished rcb hcb (Or.inl (by simp) : Unfinished p.pktsize [])
    simp only [getpktLoop, hget, List.map_nil, List.append_nil]
  | cons m todo ih =>
    obtain ⟨fuel, rfl⟩ : ∃ k, fuel = k + 1 := ⟨fuel - 1, by omega⟩
    obtain ⟨hm, h31⟩ := htodo m (List.mem_cons_self ..)
    have hle : m.length ≤ p.pktsize := by omega
    rw [List.flatMap_cons] at hb
    have hcases : (∃ b', b' ≠ [] ∧ b ++ b' = frame m) ∨
        ∃ b', b = frame m ++ b' ∧ b' ++ later = todo.flatMap frame := by
      rcases List.append_eq_append_iff.mp hb with ⟨b', hframe, hrest⟩ | ⟨b', hframe, hrest⟩
      · by_cases hb' : b' = []
        · subst hb'
          rw [List.append_nil] at hframe
          exact Or.inr ⟨[], by rw [hframe, List.append_nil], hrest⟩
        · exact Or.inl ⟨b', hb', hframe.symm⟩
      · exact Or.inr ⟨b', hframe, hrest.symm⟩
    rcases hcases with ⟨b', hb', hframe⟩ | ⟨b', rfl, hrest⟩
    · have hcut := unfinished_of_frame hle h31 hframe hb'
      have hget := getpkt_unfinished rcb hcb hcut
      refine ⟨[], b, m :: todo, ?_, rfl, by rw [List.flatMap_cons, hb],
        Or.inr ⟨m, List.mem_cons_self .., ?_⟩⟩
      · simp only [getpktLoop, hget, List.map_nil, List.append_nil]
      · have hlen := congrArg List.length hframe
        have hpos := List.length_pos_iff.mpr hb'
        rw [length_frame, List.length_append] at hlen
        omega
    · have hget := getpkt_frame rcb (b := b') hcb hle h31
      rw [callcb_keep (hkeep _)] at hget
      rw [List.length_append, length_frame] at hfuel
      obtain ⟨got, rest, todo', hloop, rfl, hstream, hshort⟩ :=
        ih (p := { p with recvd := p.recvd ++ [some m] }) (b := b') (show _ < fuel by omega) hcb
          (fun m' hm' => htodo m' (List.mem_cons_of_mem _ hm')) hrest
      refine ⟨m :: got, rest, todo', ?_, rfl, hstream, hshort⟩
      simp only [getpktLoop, hget, hloop, List.map_cons, List.append_assoc, List.singleton_append]

variable (rcb) in
theorem input_frames {chunk later : List Byte} {todo : List (List Byte)}
    (hopen : p.ateof = false) (hcb : p.cb = true) (hkeep : ∀ tr, rcb tr = .keep)
    (hchunk : chunk ≠ []) (htodo : ∀ m ∈ todo, m.length + 4 ≤ p.pktsize ∧ m.length < 2 ^ 31)
    (hb : p.pktbuf ++ (chunk ++ later) = todo.flatMap frame) :
    ∃ got rest todo', p.input rcb chunk =
        some { p with recvd := p.recvd ++ got.map some, pktbuf := rest } ∧
      todo = got ++ todo' ∧ rest ++ later = todo'.flatMap frame ∧
      (rest = [] ∨ ∃ m ∈ todo', rest.length < 4 + m.length) := by
  obtain ⟨got, rest, todo', hloop, rfl, hstream, hshort⟩ := getpktLoop_frames
    (p := { p with pktbuf := p.pktbuf ++ chunk }) (b := p.pktbuf ++ chunk)
    (Nat.lt_succ_self _) hcb hkeep htodo
    (by rw [List.append_assoc, hb])
  have hassert : rest.length < p.pktsize := by
    rcases hshort with rfl | ⟨m, hm, hlen⟩
    · -- some packet is under way, and it has room for its length word
      cases hstart : got ++ todo' with
      | nil =>
        rw [hstart] at hb
        obtain ⟨-, hb⟩ := List.append_eq_nil_iff.mp hb
        exact absurd (List.append_eq_nil_iff.mp hb).1 hchunk
      | cons m ms =>
        have hle := (htodo m (hstart ▸ List.mem_cons_self ..)).1
        rw [List.length_nil]
        omega
    · have hle := (htodo m (List.mem_append_right _ hm)).1
      omega
  refine ⟨got, rest, todo', ?_, rfl, hstream, hshort⟩
  have hclosed : ¬ p.ateof = true := by simp [hopen]
  simp only [input, if_neg hclosed, if_neg hchunk, callgetpkt, hloop, Option.bind_eq_bind,
    Option.bind_some, if_pos hassert]
  rfl

end AxprtPipe

/-- Two transports, the bytes under way from the one to the other, and the messages that
were accepted. -/
structure PipeWorld where
  snd : AxprtPipe
  rcv : AxprtPipe
  wire : List Byte
  sent : List (List Byte)

/-- `send` and `output` carry what each `writev` accepts, `read` what a read takes. -/
inductive PipeOp where
  | send (iov : List (List Byte)) (skip : Option ℕ) (ws : List (Option ℕ))
  | output (ws : List (Option ℕ))
  | read (n : ℕ)

def PipeOp.messages : PipeOp → List (List Byte)
  | .send iov _ _ => [iov.flatten]
  | _ => []

namespace PipeWorld

/-- Two new transports; the receiver has its callback set. -/
def init (pktsize : ℕ) : PipeWorld :=
  ⟨.alloc pktsize, { AxprtPipe.alloc pktsize with cb := true }, [], []⟩

/-- A step; the receive callbacks stay set. -/
def step (w : PipeWorld) : PipeOp → Option PipeWorld
  | .send iov skip ws => do
      let (ret, snd, bytes) ← w.snd.sendv (fun _ => .keep) iov skip ws
      return { w with
        snd := snd
        wire := w.wire ++ bytes
        sent := if ret then w.sent ++ [iov.flatten] else w.sent }
  | .output ws =>
    let (snd, bytes) := w.snd.output (fun _ => .keep) ws
    some { w with snd := snd, wire := w.wire ++ bytes }
  | .read n => do
      let rcv ← w.rcv.input (fun _ => .keep) (w.wire.take n)
      return { w with rcv := rcv, wire := w.wire.drop n }

/-- Messages leave room for their length word, the queue is written while the descriptor
is watched, a read takes bytes that are there and that there is room for, and no write
fails. -/
def Legal (w : PipeWorld) : PipeOp → Prop
  | .send iov skip ws => iov.flatten.length + 4 ≤ w.snd.pktsize ∧ skip ≠ none ∧ none ∉ ws
  | .output ws => w.snd.wcbset = true ∧ none ∉ ws
  | .read n => 0 < n ∧ n ≤ w.wire.length ∧ n ≤ w.rcv.room

/-- The length of a message fits beside the flag of its length word. -/
def Fits : PipeOp → Prop
  | .send iov _ _ => iov.flatten.length < 2 ^ 31
  | _ => True

instance : (op : PipeOp) → Decidable (Fits op)
  | .send iov _ _ => inferInstanceAs (Decidable (iov.flatten.length < 2 ^ 31))
  | .output _ => .isTrue trivial
  | .read _ => .isTrue trivial

/-- The messages `todo` are under way. -/
structure Ok (pktsize : ℕ) (w : PipeWorld) (todo : List (List Byte)) : Prop where
  sndsize : w.snd.pktsize = pktsize
  rcvsize : w.rcv.pktsize = pktsize
  sndopen : w.snd.ateof = false
  rcvopen : w.rcv.ateof = false
  cb : w.rcv.cb = true
  watched : w.snd.wcbset = decide (w.snd.out ≠ [])
  sent : ∃ got, w.sent = got ++ todo ∧ w.rcv.recvd = got.map some
  stream : w.rcv.pktbuf ++ (w.wire ++ w.snd.out) = todo.flatMap frame
  short : ∀ m ∈ todo, m.length + 4 ≤ pktsize ∧ m.length < 2 ^ 31
  kept : w.rcv.pktbuf = [] ∨ ∃ m ∈ todo, w.rcv.pktbuf.length < 4 + m.length

variable {pktsize : ℕ} {w : PipeWorld} {todo : List (List Byte)}

theorem ok_init (pktsize : ℕ) : Ok pktsize (init pktsize) [] :=
  ⟨rfl, rfl, rfl, rfl, rfl, rfl, ⟨[], rfl, rfl⟩, rfl, by simp, Or.inl rfl⟩

theorem Ok.send (h : w.Ok pktsize todo) {iov : List (List Byte)} {skip : Option ℕ}
    (hlegal : w.Legal (.send iov skip ws)) (hfits : Fits (.send iov skip ws)) :
    ∃ w', w.step (.send iov skip ws) = some w' ∧ w'.sent = w.sent ++ [iov.flatten] ∧
      w'.Ok pktsize (todo ++ [iov.flatten]) := by
  obtain ⟨hlen, hskip, hws⟩ := hlegal
  obtain ⟨n, rfl⟩ := Option.ne_none_iff_exists'.mp hskip
  obtain ⟨out', bytes, raw, hsend, hout⟩ := AxprtPipe.sendv_spec (fun _ => .keep)
    (n := n) h.sndopen hlen hfits hws
  obtain ⟨got, hsent, hrecvd⟩ := h.sent
  refine ⟨{ w with
    snd := { w.snd with out := out', wcbset := out' ≠ [], rawBytesSent := raw }
    wire := w.wire ++ bytes
    sent := w.sent ++ [iov.flatten] }, ?_, rfl, h.sndsize, h.rcvsize, h.sndopen, h.rcvopen, h.cb,
    rfl, ⟨got, ?_, hrecvd⟩, ?_, ?_, ?_⟩
  · simp only [step, hsend, Option.bind_eq_bind, Option.bind_some, if_true]
    rfl
  · rw [hsent, List.append_assoc]
  · rw [List.flatMap_append, ← h.stream]
    simp only [List.append_assoc, hout, List.flatMap_singleton]
  · intro m hm
    rcases List.mem_append.mp hm with hm | hm
    · exact h.short m hm
    · rw [List.mem_singleton.mp hm, ← h.sndsize]
      exact ⟨hlen, hfits⟩
  · refine h.kept.imp_right fun hkept => ?_
    obtain ⟨m, hm, hlt⟩ := hkept
    exact ⟨m, List.mem_append_left _ hm, hlt⟩

theorem Ok.output (h : w.Ok pktsize todo)
    (hlegal : w.Legal (.output ws)) : ∃ w', w.step (.output ws) = some w' ∧
      w'.sent = w.sent ∧ w'.Ok pktsize todo := by
  obtain ⟨out', bytes, hstep, hout⟩ :=
    AxprtPipe.output_spec (p := w.snd) (fun _ => .keep) hlegal.2
  refine ⟨{ w with
    snd := { w.snd with out := out', wcbset := out' ≠ [] }
    wire := w.wire ++ bytes }, ?_, rfl, h.sndsize, h.rcvsize, h.sndopen, h.rcvopen, h.cb,
    rfl, h.sent, ?_, h.short, h.kept⟩
  · simp only [step, hstep]
  · rw [← h.stream, ← hout]
    simp only [List.append_assoc]

theorem Ok.read (h : w.Ok pktsize todo) {n : ℕ} (hlegal : w.Legal (.read n)) :
    ∃ w' todo', w.step (.read n) = some w' ∧ w'.sent = w.sent ∧ w'.Ok pktsize todo' := by
  obtain ⟨hn, hwire, -⟩ := hlegal
  have hchunk : w.wire.take n ≠ [] := by
    intro hnil
    have hlen := congrArg List.length hnil
    rw [List.length_take, List.length_nil] at hlen
    omega
  have hstream : w.rcv.pktbuf ++ (w.wire.take n ++ (w.wire.drop n ++ w.snd.out)) =
      todo.flatMap frame := by
    rw [← List.append_assoc (w.wire.take n), List.take_append_drop, h.stream]
  obtain ⟨got', rest, todo', hinput, rfl, hrest, hfits⟩ := AxprtPipe.input_frames (fun _ => .keep)
    h.rcvopen h.cb (fun _ => rfl) hchunk
    (by rw [h.rcvsize]; exact h.short) hstream
  obtain ⟨got, hsent, hrecvd⟩ := h.sent
  refine ⟨{ w with
    rcv := { w.rcv with recvd := w.rcv.recvd ++ got'.map some, pktbuf := rest }
    wire := w.wire.drop n }, todo', ?_, rfl, h.sndsize, h.rcvsize, h.sndopen, h.rcvopen, h.cb,
    h.watched, ⟨got ++ got', ?_, ?_⟩, hrest, ?_, hfits⟩
  · simp only [step, hinput, Option.bind_eq_bind, Option.bind_some]
    rfl
  · rw [hsent, List.append_assoc]
  · simp only [hrecvd, List.map_append]
  · exact fun m hm => h.short m (List.mem_append_right _ hm)

theorem Ok.quiet (h : w.Ok pktsize todo) (hout : w.snd.out = []) (hwire : w.wire = []) :
    w.rcv.pktbuf = [] ∧ todo = [] := by
  have hstream := h.stream
  rw [hout, hwire, List.append_nil, List.append_nil] at hstream
  have hle : ∀ m ∈ todo, 4 + m.length ≤ w.rcv.pktbuf.length := by
    intro m hm
    obtain ⟨ms, ms', rfl⟩ := List.append_of_mem hm
    rw [hstream, List.flatMap_append, List.flatMap_cons, ← length_frame]
    simp only [List.length_append]
    omega
  rcases h.kept with hnil | ⟨m, hm, hlt⟩
  · refine ⟨hnil, List.eq_nil_iff_forall_not_mem.mpr fun m hm => ?_⟩
    have h4 := hle m hm
    rw [hnil, List.length_nil] at h4
    omega
  · exact absurd hlt (Nat.not_lt_of_le (hle m hm))

theorem Ok.step (h : w.Ok pktsize todo) {op : PipeOp} (hlegal : w.Legal op) (hfits : Fits op) :
    ∃ w' todo', w.step op = some w' ∧ w'.Ok pktsize todo' ∧
      w'.sent = w.sent ++ op.messages := by
  cases op with
  | send iov skip ws =>
    obtain ⟨w', hstep, hsent, hok⟩ := h.send hlegal hfits
    exact ⟨w', _, hstep, hok, hsent⟩
  | output ws =>
    obtain ⟨w', hstep, hsent, hok⟩ := h.output hlegal
    exact ⟨w', todo, hstep, hok, hsent.trans (List.append_nil _).symm⟩
  | read n =>
    obtain ⟨w', todo', hstep, hsent, hok⟩ := h.read hlegal
    exact ⟨w', todo', hstep, hok, hsent.trans (List.append_nil _).symm⟩

/-- If the lengths of the messages fit, every operation succeeds, every message is accepted, those
delivered are the first ones sent, in order and byte for byte, and when nothing is queued or under
way all are delivered and the buffer is empty. -/
theorem axprt_pipe_delivers (pktsize : ℕ) (ops : List PipeOp) (w : PipeWorld)
    (hrun : Run step (fun w op => w.Legal op ∧ Fits op) (init pktsize) ops w) :
    (∃ n, w.rcv.recvd = (w.sent.take n).map some) ∧
      (w.snd.out = [] → w.wire = [] → w.rcv.recvd = w.sent.map some ∧ w.rcv.pktbuf = []) ∧
      0 < w.rcv.room ∧ (w.snd.out ≠ [] → w.snd.wcbset = true) ∧
      ∀ op, w.Legal op → Fits op → ∃ w', w.step op = some w' ∧
        w'.sent = w.sent ++ op.messages := by
  obtain ⟨todo, hok⟩ := hrun.invariant (I := fun w => ∃ todo, w.Ok pktsize todo)
    ⟨[], ok_init pktsize⟩ fun a op b ⟨todo, ha⟩ hcond hstep => by
    obtain ⟨b', todo', hb', hok, -⟩ := ha.step hcond.1 hcond.2
    exact ⟨todo', Option.some.inj (hb'.symm.trans hstep) ▸ hok⟩
  obtain ⟨got, hsent, hrecvd⟩ := hok.sent
  refine ⟨⟨got.length, ?_⟩, fun hout hwire => ?_, ?_, fun hout => ?_, fun op hlegal hfits => ?_⟩
  · rw [hsent, List.take_left, hrecvd]
  · obtain ⟨hbuf, rfl⟩ := hok.quiet hout hwire
    rw [List.append_nil] at hsent
    exact ⟨by rw [hsent, hrecvd], hbuf⟩
  · have hsize := hok.rcvsize
    simp only [AxprtPipe.room, AxprtPipe.bufsize]
    rcases hok.kept with hnil | ⟨m, hm, hlt⟩
    · rw [hnil, List.length_nil]
      omega
    · have hle := (hok.short m hm).1
      omega
  · rw [hok.watched, decide_eq_true hout]
  · obtain ⟨w', todo', hstep, -, hsent'⟩ := hok.step hlegal hfits
    exact ⟨w', hstep, hsent'⟩

/-- A message whose bytes are written in two parts and read in two others. -/
theorem axprt_pipe_delivers_cut :
    ∃ w : PipeWorld, w.sent = [[7, 8, 9]] ∧ w.rcv.recvd = w.sent.map some ∧ w.rcv.pktbuf = [] := by
  obtain ⟨w, hrun, hsent, hout, hwire⟩ : ∃ w, Run step (fun w op => w.Legal op ∧ Fits op) (init 8)
      ([] ++ [.send [[7], [8, 9]] (some 5) []] ++ [.read 2] ++ [.output [some 9]] ++ [.read 5]) w ∧
      w.sent = [[7, 8, 9]] ∧ w.snd.out = [] ∧ w.wire = [] := by
    refine ⟨_, .snoc (.snoc (.snoc (.snoc (.nil _) ⟨⟨?_, ?_, ?_⟩, ?_⟩ rfl) ⟨⟨?_, ?_, ?_⟩, trivial⟩
      rfl) ⟨⟨?_, ?_⟩, trivial⟩ rfl) ⟨⟨?_, ?_, ?_⟩, trivial⟩ rfl, rfl, rfl, rfl⟩ <;> decide
  obtain ⟨-, hquiet, -⟩ := axprt_pipe_delivers 8 _ w hrun
  exact ⟨w, hsent, hquiet hout hwire⟩

/-- A message of `2 ^ 31` bytes gets the length word of an empty one. -/
theorem sendv_long {m : List Byte} (hm : m.length = 2 ^ 31) :
    (AxprtPipe.alloc (2 ^ 31 + 4)).sendv (fun _ => .keep) [m] (some 4) [] =
      some (true, { AxprtPipe.alloc (2 ^ 31 + 4) with
        out := m, wcbset := true, rawBytesSent := 2 ^ 31 + 4 }, htonl 0x80000000) := by
  have hflat : [m].flatten = m := List.append_nil m
  have hnat : (BitVec.ofNat 32 m.length).toNat = 2 ^ 31 := by rw [hm]; rfl
  have hword : (0x80000000 : BitVec 32) ||| BitVec.ofNat 32 m.length = 0x80000000 := by
    rw [hm]
    rfl
  have hne : m ≠ [] := by
    rintro rfl
    cases hm
  have htake : (htonl 0x80000000 ++ m).take 4 = htonl 0x80000000 := rfl
  have hdrop : (htonl 0x80000000 ++ m).drop 4 = m := rfl
  have hout : AxprtPipe.suioOutput [] m = (0, m, [], []) := by
    cases m with
    | nil => exact absurd rfl hne
    | cons b m => rfl
  simp only [AxprtPipe.sendv, AxprtPipe.alloc, hflat, hnat, hword, htake, hdrop, AxprtPipe.output,
    AxprtPipe.outputLoop, List.length_nil, hout]
  simp [hne]

/-- The receiver takes it for an empty one. -/
theorem axprt_pipe_longMessage :
    ∃ w : PipeWorld, Run step Legal (init (2 ^ 31 + 4))
        [.send [List.replicate (2 ^ 31) 7] (some 4) [], .read 4] w ∧
      w.sent = [List.replicate (2 ^ 31) 7] ∧ w.rcv.recvd = [some []] := by
  obtain ⟨m, hm⟩ : ∃ m : List Byte, List.replicate (2 ^ 31) 7 = m := ⟨_, rfl⟩
  have hlen : m.length = 2 ^ 31 := by rw [← hm, List.length_replicate]
  rw [hm]
  have hflat : [m].flatten = m := List.append_nil m
  have hread : ({ AxprtPipe.alloc (2 ^ 31 + 4) with cb := true } : AxprtPipe).input
      (fun _ => .keep) (htonl 0x80000000) =
        some { AxprtPipe.alloc (2 ^ 31 + 4) with cb := true, recvd := [some []] } := by
    decide
  have hroom : 4 ≤ (init (2 ^ 31 + 4)).rcv.room := by decide
  have hfirst : (init (2 ^ 31 + 4)).step (.send [m] (some 4) []) = some
      { init (2 ^ 31 + 4) with
        snd := { AxprtPipe.alloc (2 ^ 31 + 4) with
          out := m, wcbset := true, rawBytesSent := 2 ^ 31 + 4 }
        wire := htonl 0x80000000
        sent := [m] } := by
    simp only [step, init, sendv_long hlen, hflat]
    rfl
  refine ⟨{ init (2 ^ 31 + 4) with
      snd := { AxprtPipe.alloc (2 ^ 31 + 4) with
        out := m, wcbset := true, rawBytesSent := 2 ^ 31 + 4 }
      rcv := { AxprtPipe.alloc (2 ^ 31 + 4) with cb := true, recvd := [some []] }
      sent := [m] }, .cons ⟨?_, by simp, by simp⟩ hfirst
      (.cons ⟨by decide, Nat.le_refl 4, hroom⟩ ?_ (.nil _)), rfl, rfl⟩
  · rw [hflat, hlen]
    exact Nat.le_refl _
  · have htake : (htonl 0x80000000).take 4 = htonl 0x80000000 := rfl
    simp only [step, init, htake, hread]
    rfl

end PipeWorld

end Sfslite.Arpc
