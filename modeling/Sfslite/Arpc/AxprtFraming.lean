import Sfslite.Arpc.AxprtPipe
import Sfslite.Lib.Run

/-!
What the loop over a buffer does: it delivers the whole packets at its beginning and leaves the
rest. Fewer than `pktsize` bytes are left, but for a packet of nearly the largest length, which may
leave up to three more.
-/

namespace Sfslite.Arpc

theorem toNat_low (v : BitVec 32) : (v &&& 0x7fffffff).toNat = v.toNat % 2 ^ 31 := by
  have hmask : (0x7fffffff : BitVec 32).toNat = 2 ^ 31 - 1 := rfl
  rw [BitVec.toNat_and, hmask, Nat.and_two_pow_sub_one_eq_mod]

theorem toNat_high (v : BitVec 32) : (v &&& 0x80000000).toNat = v.toNat / 2 ^ 31 * 2 ^ 31 := by
  have hv := v.isLt
  have hmask : (0x80000000 : BitVec 32).toNat = 2 ^ 31 := rfl
  apply Nat.eq_of_testBit_eq
  intro i
  rw [BitVec.toNat_and, hmask, Nat.testBit_and, Nat.testBit_two_pow, Nat.testBit_mul_two_pow,
    Nat.testBit_div_two_pow]
  by_cases hi : 31 ≤ i
  · rw [Nat.sub_add_cancel hi]
    by_cases h31 : 31 = i
    · simp [h31]
    · have hout : v.toNat.testBit i = false := by
        apply Nat.testBit_eq_false_of_lt
        exact Nat.lt_of_lt_of_le hv (Nat.pow_le_pow_right (by decide) (by omega))
      simp [hout]
  · simp [hi, show 31 ≠ i by omega]

theorem toNat_or_high {n : ℕ} (hn : n < 2 ^ 31) :
    ((0x80000000 : BitVec 32) ||| BitVec.ofNat 32 n).toNat = 2 ^ 31 + n := by
  have hmask : (0x80000000 : BitVec 32).toNat = 2 ^ 31 := rfl
  have hor := Nat.two_pow_add_eq_or_of_lt hn 1
  rw [BitVec.toNat_or, hmask, BitVec.toNat_ofNat, Nat.mod_eq_of_lt (by omega)]
  simpa using hor.symm

theorem checklen_eq_some {pktsize n : ℕ} {len : BitVec 32}
    (h : AxprtPipe.checklen pktsize len = some n) :
    n ≤ pktsize ∧ n < 2 ^ 31 ∧ len = 0x80000000 ||| BitVec.ofNat 32 n := by
  simp only [AxprtPipe.checklen] at h
  split_ifs at h with hhigh hbig
  rw [Option.some.injEq, toNat_low] at h
  rw [toNat_low] at hbig
  have hn : n < 2 ^ 31 := by omega
  refine ⟨by omega, hn, ?_⟩
  rw [← BitVec.toNat_inj, toNat_high] at hhigh
  have hlen := len.isLt
  have hzero : (0 : BitVec 32).toNat = 0 := rfl
  rw [← BitVec.toNat_inj, toNat_or_high hn]
  omega

theorem checklen_frame {pktsize n : ℕ} (hn : n < 2 ^ 31) (hle : n ≤ pktsize) :
    AxprtPipe.checklen pktsize (0x80000000 ||| BitVec.ofNat 32 n) = some n := by
  have hhigh : ¬ (0x80000000 ||| BitVec.ofNat 32 n) &&& 0x80000000 = (0 : BitVec 32) := by
    have hzero : (0 : BitVec 32).toNat = 0 := rfl
    rw [← BitVec.toNat_inj, toNat_high, toNat_or_high hn]
    omega
  have hmod : (2 ^ 31 + n) % 2 ^ 31 = n := by omega
  simp only [AxprtPipe.checklen, if_neg hhigh, toNat_low, toNat_or_high hn, hmod,
    if_neg (Nat.not_lt_of_le hle)]

theorem header_ne_zero {n : ℕ} (hn : n < 2 ^ 31) :
    (0x80000000 : BitVec 32) ||| BitVec.ofNat 32 n ≠ 0 := by
  have hzero : (0 : BitVec 32).toNat = 0 := rfl
  rw [Ne, ← BitVec.toNat_inj, toNat_or_high hn]
  omega

def frame (m : List Byte) : List Byte := htonl (0x80000000 ||| BitVec.ofNat 32 m.length) ++ m

theorem length_frame (m : List Byte) : (frame m).length = 4 + m.length := by
  rw [frame, List.length_append, length_htonl]

theorem getint_frame (m b : List Byte) :
    getint (frame m ++ b) = some (0x80000000 ||| BitVec.ofNat 32 m.length, m ++ b) := by
  rw [frame, List.append_assoc, getint_htonl]

/-- The bytes are not yet a whole packet of at most `pktsize` bytes. -/
def Unfinished (pktsize : ℕ) (b : List Byte) : Prop :=
  b.length < 4 ∨ ∃ n cp, n ≤ pktsize ∧ cp.length < n ∧ n < 2 ^ 31 ∧
    b = htonl (0x80000000 ||| BitVec.ofNat 32 n) ++ cp

theorem unfinished_of_frame {pktsize : ℕ} {m b b' : List Byte} (hm : m.length ≤ pktsize)
    (hm31 : m.length < 2 ^ 31) (h : b ++ b' = frame m) (hb' : b' ≠ []) : Unfinished pktsize b := by
  by_cases h4 : b.length < 4
  · exact Or.inl h4
  · obtain ⟨⟨len, cp⟩, hget⟩ : ∃ r, getint b = some r := by
      rw [← Option.ne_none_iff_exists', Ne, getint_eq_none_iff]
      exact h4
    obtain rfl := eq_of_getint hget
    have hframe : getint (frame m) = some (0x80000000 ||| BitVec.ofNat 32 m.length, m) := by
      simpa using getint_frame m []
    rw [← h, List.append_assoc, getint_htonl, Option.some.injEq, Prod.mk.injEq] at hframe
    obtain ⟨rfl, hcp⟩ := hframe
    have hlen := congrArg List.length hcp
    have hpos := List.length_pos_iff.mpr hb'
    rw [List.length_append] at hlen
    exact Or.inr ⟨m.length, cp, hm, by omega, hm31, rfl⟩

namespace AxprtPipe

variable {rcb : List (Option (List Byte)) → CbAct} {p p' : AxprtPipe} {b b' : List Byte}

variable (rcb) in
theorem getpkt_frame {m : List Byte} (hcb : p.cb = true) (hm : m.length ≤ p.pktsize)
    (h31 : m.length < 2 ^ 31) : p.getpkt rcb (frame m ++ b) = (true, b, p.callcb rcb (some m)) := by
  have hnot : ¬ (m ++ b).length < m.length := by simp
  simp only [getpkt, hcb, not_true_eq_false, if_false, getint_frame, if_neg (header_ne_zero h31),
    checklen_frame h31 hm, if_neg hnot, List.drop_left, List.take_left]

variable (rcb) in
theorem getpkt_unfinished (hcb : p.cb = true) (hb : Unfinished p.pktsize b) :
    p.getpkt rcb b = (false, b, p) := by
  simp only [getpkt, hcb, not_true_eq_false, if_false]
  rcases hb with h4 | ⟨n, cp, hn, hcp, h31, rfl⟩
  · rw [getint_eq_none_iff.mpr h4]
  · simp only [getint_htonl, if_neg (header_ne_zero h31), checklen_frame h31 hn, if_pos hcp]

/-- All that taking one packet can do: stop where the callback is not set or the packet is
not whole, deliver a packet, or fail the transport. -/
theorem getpkt_cases (r : Bool) (h : p.getpkt rcb b = (r, b', p')) :
    (r = false ∧ b' = b ∧ p' = p ∧ (p.cb = true → Unfinished p.pktsize b)) ∨
    (r = true ∧ ∃ m, m.length ≤ p.pktsize ∧ p.cb = true ∧ b = frame m ++ b' ∧
      p' = p.callcb rcb (some m)) ∨
    ((r = true → b'.length < b.length) ∧ p' = p.fail rcb true) := by
  simp only [getpkt] at h
  by_cases hcb : p.cb = true
  · rw [if_neg (not_not_intro hcb)] at h
    split at h
    · next hget =>
        cases h
        exact Or.inl ⟨rfl, rfl, rfl, fun _ => Or.inl (getint_eq_none_iff.mp hget)⟩
    · next len cp hget =>
        obtain rfl := eq_of_getint hget
        split_ifs at h with hzero
        · cases h
          refine Or.inr (Or.inr ⟨fun _ => ?_, rfl⟩)
          rw [List.length_append, length_htonl]
          omega
        · split at h
          · cases h
            exact Or.inr (Or.inr ⟨nofun, rfl⟩)
          · next n hlen =>
              obtain ⟨hn, h31, rfl⟩ := checklen_eq_some hlen
              split_ifs at h with hshort
              · cases h
                exact Or.inl ⟨rfl, rfl, rfl, fun _ => Or.inr ⟨n, cp, hn, hshort, h31, rfl⟩⟩
              · cases h
                have hm : (cp.take n).length = n := by
                  rw [List.length_take]
                  omega
                refine Or.inr (Or.inl ⟨rfl, cp.take n, by omega, hcb, ?_, rfl⟩)
                rw [frame, hm, List.append_assoc, List.take_append_drop]
  · rw [if_pos hcb] at h
    cases h
    exact Or.inl ⟨rfl, rfl, rfl, fun hset => absurd hset hcb⟩

@[simp] theorem callcb_pktsize (pkt : Option (List Byte)) :
    (p.callcb rcb pkt).pktsize = p.pktsize := by
  simp only [callcb]
  split <;> rfl

@[simp] theorem callcb_recvd (pkt : Option (List Byte)) :
    (p.callcb rcb pkt).recvd = p.recvd ++ [pkt] := by
  simp only [callcb]
  split <;> rfl

theorem callcb_ateof (pkt : Option (List Byte)) (h : p.ateof = true) :
    (p.callcb rcb pkt).ateof = true := by
  simp only [callcb]
  split <;> simp [h]

theorem callcb_keep {pkt : Option (List Byte)} (h : rcb (p.recvd ++ [pkt]) = .keep) :
    p.callcb rcb pkt = { p with recvd := p.recvd ++ [pkt] } := by
  simp only [callcb, h]

@[simp] theorem fail_pktsize (ingetpkt : Bool) : (p.fail rcb ingetpkt).pktsize = p.pktsize := by
  simp only [fail]
  split_ifs <;> simp

theorem fail_ateof (ingetpkt : Bool) : (p.fail rcb ingetpkt).ateof = true := by
  simp only [fail]
  split_ifs
  · exact callcb_ateof _ rfl
  · rfl

end AxprtPipe

open Sfslite.Lib

namespace AxprtPipe

/-- `Stops rcb pktsize tr b rest`: of the bytes `b` the loop leaves `rest`. The packets in
front are delivered to a callback that has had the calls `tr`, until it unsets itself or
no whole packet is left. -/
inductive Stops (rcb : List (Option (List Byte)) → CbAct) (pktsize : ℕ) :
    List (Option (List Byte)) → List Byte → List Byte → Prop
  | rest {tr : List (Option (List Byte))} {b : List Byte} : Unfinished pktsize b →
      Stops rcb pktsize tr b b
  | unset {tr : List (Option (List Byte))} {m b : List Byte} : m.length ≤ pktsize →
      rcb (tr ++ [some m]) = .unset → Stops rcb pktsize tr (frame m ++ b) b
  | next {tr : List (Option (List Byte))} {m b rest : List Byte} : m.length ≤ pktsize →
      rcb (tr ++ [some m]) = .keep → Stops rcb pktsize (tr ++ [some m]) b rest →
      Stops rcb pktsize tr (frame m ++ b) rest

variable {rcb : List (Option (List Byte)) → CbAct} {p : AxprtPipe} {b : List Byte}

variable {tr : List (Option (List Byte))} {rest : List Byte}

theorem Stops.length_le {pktsize : ℕ}
    (h : Stops rcb pktsize tr b rest) : rest.length ≤ b.length := by
  induction h with
  | rest => exact Nat.le_refl _
  | unset => simp
  | next _ _ _ ih =>
    rw [List.length_append]
    omega

variable (rcb) in
theorem getpktLoop_spec {fuel : ℕ} (hfuel : b.length < fuel) :
    ∃ p' b', getpktLoop rcb fuel p b = some (p', b') ∧ p'.pktsize = p.pktsize ∧
      (p.ateof = true → p'.ateof = true) ∧ (p.cb = false → b' = b) ∧
      (p.cb = true → p'.ateof = true ∨ Stops rcb p.pktsize p.recvd b b') := by
  induction fuel generalizing p b with
  | zero => omega
  | succ fuel ih =>
    obtain ⟨r, b₁, p₁, hget⟩ : ∃ r b₁ p₁, p.getpkt rcb b = (r, b₁, p₁) := ⟨_, _, _, rfl⟩
    rcases getpkt_cases r hget with ⟨rfl, rfl, rfl, hcut⟩ | ⟨rfl, m, hm, hcb, rfl, rfl⟩ |
      ⟨hlen, rfl⟩
    · refine ⟨p₁, b₁, by simp only [getpktLoop, hget], rfl, id, fun _ => rfl, fun hcb => ?_⟩
      exact Or.inr (.rest (hcut hcb))
    · rw [List.length_append, length_frame] at hfuel
      obtain ⟨p', b', hloop, hsize, heof, hunset, hset⟩ :=
        ih (p := p.callcb rcb (some m)) (b := b₁) (by omega)
      refine ⟨p', b', by simp only [getpktLoop, hget, hloop], by simpa using hsize,
        fun h => heof (callcb_ateof _ h), fun h => by simp [hcb] at h, fun _ => ?_⟩
      rw [callcb_pktsize, callcb_recvd] at hset
      cases hact : rcb (p.recvd ++ [some m]) with
      | keep =>
        have hcb' : (p.callcb rcb (some m)).cb = true := by rw [callcb_keep hact, hcb]
        exact (hset hcb').imp_right (.next hm hact)
      | unset =>
        have hcb' : (p.callcb rcb (some m)).cb = false := by simp only [callcb, hact]
        rw [hunset hcb']
        exact Or.inr (.unset hm hact)
      | fail =>
        refine Or.inl (heof ?_)
        simp only [callcb, hact]
    · cases r with
      | false =>
        refine ⟨p.fail rcb true, b₁, by simp only [getpktLoop, hget], fail_pktsize _,
          fun _ => fail_ateof _, fun hcb => ?_, fun _ => Or.inl (fail_ateof _)⟩
        simp only [getpkt, hcb] at hget
        exact (congrArg (·.2.1) hget).symm
      | true =>
        obtain ⟨p', b', hloop, hsize, heof, -, -⟩ :=
          ih (p := p.fail rcb true) (b := b₁) (Nat.lt_of_lt_of_le (hlen rfl) (by omega))
        refine ⟨p', b', by simp only [getpktLoop, hget, hloop], by simpa using hsize,
          fun _ => heof (fail_ateof _), fun hcb => ?_, fun _ => Or.inl (heof (fail_ateof _))⟩
        simp [getpkt, hcb] at hget

/-- `callgetpkt` keeps fewer than `pktsize` bytes where what the loop leaves is that short. -/
theorem callgetpkt_spec (hcb : p.cb = true)
    (hshort : ∀ rest, Stops rcb p.pktsize p.recvd p.pktbuf rest → rest.length < p.pktsize) :
    ∃ p', p.callgetpkt rcb = some p' ∧ (p'.ateof = true ∨ p'.pktbuf.length < p'.pktsize) := by
  obtain ⟨p₁, b₁, hloop, hsize, -, -, hset⟩ :=
    getpktLoop_spec rcb (p := p) (Nat.lt_succ_self p.pktbuf.length)
  by_cases heof : p₁.ateof = true
  · refine ⟨if p₁.cb then p₁.callcb rcb none else p₁, ?_, Or.inl ?_⟩
    · simp only [callgetpkt, hloop, Option.bind_eq_bind, Option.bind_some, if_pos heof]
      rfl
    · split_ifs
      · exact callcb_ateof _ heof
      · exact heof
  · have hlen : b₁.length < p₁.pktsize := by
      rw [hsize]
      exact hshort b₁ ((hset hcb).resolve_left heof)
    refine ⟨{ p₁ with pktbuf := b₁ }, ?_, Or.inr hlen⟩
    simp only [callgetpkt, hloop, Option.bind_eq_bind, Option.bind_some, if_neg heof, if_pos hlen]
    rfl

/-- What a transport may see: bytes that a read gave, none at the end of the file or
after an error, and a change of its receive callback. -/
inductive Ev where
  | read (chunk : List Byte)
  | setrcb (c : Bool)

variable (rcb) in
def step (p : AxprtPipe) : Ev → Option AxprtPipe
  | .read chunk => p.input rcb chunk
  | .setrcb c => p.setrcb rcb c

/-- A transport is read from while its callback is set, and no more than there is room for. -/
def Legal (p : AxprtPipe) : Ev → Prop
  | .read chunk => p.ateof = false ∧ p.cb = true ∧ chunk.length ≤ p.room
  | .setrcb _ => True

/-- The bytes begin with the packets `ms`, which the callback takes and stays set. -/
structure Front (rcb : List (Option (List Byte)) → CbAct) (pktsize : ℕ)
    (tr : List (Option (List Byte))) (b : List Byte) (ms : List (List Byte)) (rest : List Byte) :
    Prop where
  bytes : b = ms.flatMap frame ++ rest
  short : ∀ m ∈ ms, m.length ≤ pktsize
  keeps : ∀ i < ms.length, rcb (tr ++ (ms.take (i + 1)).map some) = .keep

variable (rcb) in
/-- Behind the packets in front no packet of nearly the largest length is cut with `pktsize`
bytes or more of it there, and the callback does not unset itself in front of as many; nor are
they the first bytes of a length word, where `pktsize` is as small. -/
def Works (p : AxprtPipe) : Ev → Prop
  | .read chunk => chunk ≠ [] →
      ∀ ms rest, Front rcb p.pktsize p.recvd (p.pktbuf ++ chunk) ms rest →
        (∀ n cp, p.pktsize - 4 < n → n ≤ p.pktsize → n < 2 ^ 31 → cp.length < n →
          rest = htonl (0x80000000 ||| BitVec.ofNat 32 n) ++ cp → rest.length < p.pktsize) ∧
        (∀ m b, m.length ≤ p.pktsize → rest = frame m ++ b →
          rcb (p.recvd ++ (ms ++ [m]).map some) = .unset → b.length < p.pktsize) ∧
        (rest.length < 4 → rest.length < p.pktsize)
  | .setrcb _ => True

theorem Front.cons {pktsize : ℕ} {m b : List Byte}
    {ms : List (List Byte)} (h : Front rcb pktsize (tr ++ [some m]) b ms rest)
    (hm : m.length ≤ pktsize) (hkeep : rcb (tr ++ [some m]) = .keep) :
    Front rcb pktsize tr (frame m ++ b) (m :: ms) rest := by
  refine ⟨by rw [h.bytes]; simp, fun m' hm' => ?_, fun i hi => ?_⟩
  · rcases List.mem_cons.mp hm' with rfl | hm'
    · exact hm
    · exact h.short m' hm'
  · cases i with
    | zero => exact hkeep
    | succ i =>
      have hnext := h.keeps i (Nat.lt_of_succ_lt_succ hi)
      rw [List.append_assoc] at hnext
      exact hnext

theorem Stops.front {pktsize : ℕ} (h : Stops rcb pktsize tr b rest) :
    ∃ ms, (Front rcb pktsize tr b ms rest ∧ Unfinished pktsize rest) ∨
      ∃ m, Front rcb pktsize tr b ms (frame m ++ rest) ∧ m.length ≤ pktsize ∧
        rcb (tr ++ (ms ++ [m]).map some) = .unset := by
  induction h with
  | rest hrest => exact ⟨[], Or.inl ⟨⟨rfl, by simp, by simp⟩, hrest⟩⟩
  | @unset tr m b hm hunset => exact ⟨[], Or.inr ⟨m, ⟨rfl, by simp, by simp⟩, hm, hunset⟩⟩
  | @next tr m b rest hm hkeep _ ih =>
    obtain ⟨ms, ⟨hfront, hcut⟩ | ⟨m', hfront, hm', hunset⟩⟩ := ih
    · exact ⟨m :: ms, Or.inl ⟨hfront.cons hm hkeep, hcut⟩⟩
    · rw [List.append_assoc] at hunset
      exact ⟨m :: ms, Or.inr ⟨m', hfront.cons hm hkeep, hm', hunset⟩⟩

theorem Works.rest_lt {chunk : List Byte} (h : p.Works rcb (.read chunk)) (hchunk : chunk ≠ [])
    (hstops : Stops rcb p.pktsize p.recvd (p.pktbuf ++ chunk) rest) : rest.length < p.pktsize := by
  obtain ⟨ms, ⟨hfront, hcut⟩ | ⟨m, hfront, hm, hunset⟩⟩ := hstops.front
  · obtain ⟨hlong, -, hword⟩ := h hchunk ms rest hfront
    rcases hcut with h4 | ⟨n, cp, hn, hcp, h31, rfl⟩
    · exact hword h4
    · by_cases hlast : p.pktsize - 4 < n
      · exact hlong n cp hlast hn h31 hcp rfl
      · rw [List.length_append, length_htonl]
        omega
  · obtain ⟨-, hback, -⟩ := h hchunk ms _ hfront
    exact hback m rest hm rfl hunset

def Kept (p : AxprtPipe) : Prop :=
  p.ateof = true ∨ p.pktbuf = [] ∨ p.pktbuf.length < p.pktsize

theorem Kept.step (h : p.Kept) {ev : Ev} (hlegal : p.Legal ev) (hworks : p.Works rcb ev) :
    ∃ p', p.step rcb ev = some p' ∧ p'.Kept := by
  cases ev with
  | read chunk =>
    obtain ⟨heof, hcb, -⟩ := hlegal
    have hinput : p.input rcb chunk = if chunk = [] then some (p.fail rcb false)
        else callgetpkt rcb { p with pktbuf := p.pktbuf ++ chunk } := by
      simp [input, heof]
    by_cases hchunk : chunk = []
    · exact ⟨_, hinput.trans (if_pos hchunk), Or.inl (fail_ateof _)⟩
    · obtain ⟨p', hcall, hkept⟩ :=
        @callgetpkt_spec rcb { p with pktbuf := p.pktbuf ++ chunk } hcb
          fun rest hrest => hworks.rest_lt hchunk hrest
      exact ⟨p', (hinput.trans (if_neg hchunk)).trans hcall, hkept.imp_right Or.inr⟩
  | setrcb c =>
    by_cases heof : p.ateof = true
    · refine ⟨if c then callcb rcb { p with cb := c } none else { p with cb := c }, ?_,
        Or.inl ?_⟩
      · simp [AxprtPipe.step, setrcb, heof]
      · split_ifs
        · exact callcb_ateof _ heof
        · exact heof
    · have hset : p.setrcb rcb c = if c = true ∧ p.pktbuf ≠ [] then
          callgetpkt rcb { p with cb := c } else some { p with cb := c } := by
        simp [setrcb, heof]
      by_cases hcall : c = true ∧ p.pktbuf ≠ []
      · obtain ⟨p', hcall', hkept⟩ := @callgetpkt_spec rcb { p with cb := c } hcall.1
          fun rest hrest => by
            have hle := hrest.length_le
            rcases h with h | h | h
            · exact absurd h heof
            · exact absurd h hcall.2
            · exact Nat.lt_of_le_of_lt hle h
        exact ⟨p', (hset.trans (if_pos hcall)).trans hcall', hkept.imp_right Or.inr⟩
      · exact ⟨_, hset.trans (if_neg hcall), h⟩

/-- Where no read cuts a packet with `pktsize` bytes or more of it there, the assertion never
fails and there is always room for the next read. -/
theorem callgetpkt_run_safe (pktsize : ℕ) (rcb : List (Option (List Byte)) → CbAct)
    (evs : List Ev) (p : AxprtPipe)
    (hrun : Run (step rcb) (fun p ev => p.Legal ev ∧ p.Works rcb ev) (alloc pktsize) evs p) :
    (p.ateof = false → 0 < p.room) ∧
      ∀ ev, p.Legal ev → p.Works rcb ev → ∃ p', p.step rcb ev = some p' := by
  have hkept : p.Kept := hrun.invariant_of_step (Or.inr (Or.inl rfl)) fun _ _ ha hcond =>
    ha.step hcond.1 hcond.2
  refine ⟨fun heof => ?_, fun ev hlegal hworks => ?_⟩
  · rcases hkept with h' | h' | h'
    · rw [heof] at h'
      cases h'
    · simp [room, bufsize, h']
    · simp only [room, bufsize]
      omega
  · obtain ⟨p', hstep, -⟩ := hkept.step hlegal hworks
    exact ⟨p', hstep⟩

theorem Works.of_length_lt {chunk : List Byte} (h : (p.pktbuf ++ chunk).length < p.pktsize) :
    p.Works rcb (.read chunk) := by
  intro _ ms rest hfront
  have hrest : rest.length < p.pktsize := by
    have hlen := (congrArg List.length hfront.bytes).trans List.length_append
    omega
  refine ⟨fun _ _ _ _ _ _ _ => hrest, fun m b _ hb _ => ?_, fun _ => hrest⟩
  rw [hb, List.length_append] at hrest
  omega

/-- A run that keeps three bytes of a packet, and the read of the rest of it. -/
theorem callgetpkt_run_safe_small :
    ∃ p : AxprtPipe, p.pktbuf = [0x80, 0, 0] ∧ 0 < p.room ∧
      ∃ p', p.step (fun _ => .keep) (.read [2, 7, 9]) = some p' := by
  let p₁ : AxprtPipe := { alloc 16 with cb := true }
  let p₂ : AxprtPipe := { p₁ with pktbuf := [0x80, 0, 0] }
  have hset : step (fun _ => .keep) (alloc 16) (.setrcb true) = some p₁ := by decide
  have hread : step (fun _ => .keep) p₁ (.read [0x80, 0, 0]) = some p₂ := by decide
  have hrun : Run (step fun _ => .keep) (fun p ev => p.Legal ev ∧ p.Works (fun _ => .keep) ev)
      (alloc 16) ([] ++ [.setrcb true] ++ [.read [0x80, 0, 0]]) p₂ := by
    refine Run.snoc (.snoc (.nil _) ⟨trivial, trivial⟩ hset) ?_ hread
    exact ⟨⟨rfl, rfl, by decide⟩, .of_length_lt (by decide)⟩
  obtain ⟨hroom, hsafe⟩ := callgetpkt_run_safe 16 (fun _ => .keep) _ p₂ hrun
  exact ⟨p₂, rfl, hroom rfl, hsafe (.read [2, 7, 9]) ⟨rfl, rfl, by decide⟩
    (.of_length_lt (by decide))⟩

/-- A packet of the largest length, cut before its last four bytes, makes the assertion
fail. -/
theorem callgetpkt_asserts :
    ∃ p : AxprtPipe, (alloc 8).step (fun _ => .keep) (.setrcb true) = some p ∧
      checklen 8 0x80000008 = some 8 ∧ p.Legal (.read [0x80, 0, 0, 8, 1, 2, 3, 4]) ∧
      p.step (fun _ => .keep) (.read [0x80, 0, 0, 8, 1, 2, 3, 4]) = none :=
  ⟨{ alloc 8 with cb := true }, by decide, by decide, ⟨rfl, rfl, by decide⟩, by decide⟩

end AxprtPipe

end Sfslite.Arpc
