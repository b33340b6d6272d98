import Sfslite.Async.BbuddyRoom

/-!
The buffers of `aiod` in `aio.C`: how they are allocated in the shared memory and given back, how
operations wait for them, and how the shared memory grows. The model is of an `aiod` that has not
failed: `fail` answers all operations that wait. A failed assertion answers `none`.
-/

namespace Sfslite.Async.Aiobuf

/-- The position and the length of a buffer. -/
abbrev Buf := ℕ × BitVec 64

/-- An operation, as what it does when it is tried. It asks for one buffer, or for a second one as
well; or its file was closed while it waited, and then it is answered, and the buffers that only it
referred to are given back. What is called with the answer is taken not to come back into `aiod`. -/
inductive Op
  | bufs (len : BitVec 64) (len2 : Option (BitVec 64))
  | gone (drops : List Buf)
deriving DecidableEq

/-- How far the growth of the shared memory is; `growlock` is set unless it is `idle`. -/
inductive Growth
  | idle
  /-- The reply for `bufalloc_cb1` is awaited. -/
  | asked (inc : ℕ)
  /-- The reply for `bufalloc_cb2` is awaited. -/
  | told (inc : ℕ)
deriving DecidableEq

/-- The allocator `bb` with the buffers in use, and the fields of `aiod`. `waking` says that the
loop of `bufwake` is at work. -/
structure Aiod where
  w : BbuddyWorld
  bbwaitq : List Op
  bufwakelock : Bool
  bufwakereq : Bool
  waking : Bool
  growth : Growth
  shmlen : ℕ
  shmmax : ℕ
  maxbuf : ℕ

namespace Aiod

def minbuf : BitVec 64 := 0x40

/-- The constructor. The free maps are made of memory with any contents. -/
def new (shmsize mb : BitVec 64) (junk : ℕ → ℕ → BitVec 64) : Option Aiod := do
  let bb ← Bbuddy.new 0 minbuf mb junk
  -- assert (shmsize > 0)
  if shmsize.toInt ≤ 0 then none
  return {
    w := ⟨bb, []⟩
    bbwaitq := []
    bufwakelock := false
    bufwakereq := false
    waking := false
    growth := .idle
    shmlen := 0
    shmmax := ((shmsize + mb - 1) &&& ~~~(mb - 1)).toNat
    maxbuf := mb.toNat }

def bufwait (s : Aiod) (op : Op) : Aiod := { s with bbwaitq := s.bbwaitq ++ [op] }

/-- `bufwake` up to its loop, which goes on pass by pass. -/
def bufwake (s : Aiod) : Aiod :=
  if s.bufwakelock then { s with bufwakereq := true }
  else { s with bufwakelock := true, waking := true }

/-- `aiobuf::~aiobuf` -/
def free (s : Aiod) (b : Buf) : Option Aiod :=
  if b ∈ s.w.live then do
    let w ← s.w.step (.dealloc b.1 b.2)
    let s := { s with w := w }
    return if s.bbwaitq.isEmpty then s else s.bufwake
  else some s

/-- What `bufalloc` does where no buffer is free. -/
def startGrowth (s : Aiod) : Aiod :=
  if s.growth = .idle ∧ s.shmlen + s.maxbuf ≤ s.shmmax then
    { s with growth := .asked (min (s.shmmax - s.shmlen) (max s.maxbuf (s.shmlen >>> 2))) }
  else s

def bufalloc (s : Aiod) (len : BitVec 64) : Option (Aiod × Option Buf) := do
  -- assert (len > 0), assert (len <= bb.maxalloc ())
  if len = 0 ∨ 2 ^ s.w.bb.log2maxalloc < len.toNat then none
  let (bb, pos) ← s.w.bb.alloc len
  if pos ≠ -1 then
    return ({ s with w := ⟨bb, (pos.toNat, len) :: s.w.live⟩ }, some (pos.toNat, len))
  else return (startGrowth { s with w := ⟨bb, s.w.live⟩ }, none)

def attempt (s : Aiod) : Op → Option Aiod
  | .gone drops => drops.foldlM free s
  | .bufs len len2 => do
      let (s, rqbuf) ← s.bufalloc len
      match rqbuf, len2 with
      | none, _ => return s.bufwait (.bufs len len2)
      | some _, none => return s
      | some rqbuf, some l2 =>
        let (s, fhbuf) ← s.bufalloc l2
        match fhbuf with
        | some _ => return s
        | none => (s.bufwait (.bufs len len2)).free rqbuf

/-- One pass of the loop of `bufwake`, with the test at its end. -/
def pass (s : Aiod) : Option Aiod := do
  let s ← s.bbwaitq.foldlM attempt { s with bufwakereq := false, bbwaitq := [] }
  return if s.bufwakereq then s else { s with bufwakelock := false, waking := false }

/-- `bufalloc_cb1`, where `ok` says that the daemon answered with a size. -/
def bufallocCb1 (s : Aiod) (inc : ℕ) (ok : Bool) : Aiod :=
  { s with growth := if ok then .told inc else .idle }

/-- `bufalloc_cb2`, where `ok` says that the daemon answered with the size it was told. -/
def bufallocCb2 (s : Aiod) (inc : ℕ) (ok : Bool) (junk : ℕ → ℕ → BitVec 64) : Option Aiod := do
  let s := { s with growth := .idle }
  if ok then
    let w ← s.w.step (.settotsize (BitVec.ofNat 64 (s.shmlen + inc)) junk)
    return bufwake { s with w := w, shmlen := w.bb.totsize }
  else return s

end Aiod

/-- What happens: an operation is called, a user allocates a buffer, the last reference to a buffer
goes, the file of the `i`-th operation that waits is closed, replies are read by `input` and the
reading ends, a reply to a request for growth is among them, and `bufwake` makes a pass. -/
inductive Event
  | call (len : BitVec 64) (len2 : Option (BitVec 64))
  | take (len : BitVec 64)
  | drop (b : Buf)
  | close (i : ℕ) (drops : List Buf)
  | input
  | inputEnd
  | cb1 (ok : Bool)
  | cb2 (ok : Bool) (junk : ℕ → ℕ → BitVec 64)
  | pass

namespace Aiod

def idleStep (s : Aiod) : Event → Option Aiod
  | .call len len2 => s.attempt (.bufs len len2)
  | .take len => (s.bufalloc len).map (·.1)
  | .drop b => if b ∈ s.w.live then s.free b else none
  | .close i drops =>
    if i < s.bbwaitq.length then some { s with bbwaitq := s.bbwaitq.set i (.gone drops) }
    else none
  -- assert (!bufwakelock)
  | .input => if s.bufwakelock then none else some { s with bufwakelock := true }
  | .inputEnd =>
    if s.bufwakelock then
      let s := { s with bufwakelock := false }
      some (if s.bufwakereq then s.bufwake else s)
    else none
  | .cb1 ok =>
    match s.bufwakelock, s.growth with
    | true, .asked inc => some (s.bufallocCb1 inc ok)
    | _, _ => none
  | .cb2 ok junk =>
    match s.bufwakelock, s.growth with
    | true, .told inc => s.bufallocCb2 inc ok junk
    | _, _ => none
  | .pass => none

def step (s : Aiod) (e : Event) : Option Aiod :=
  if s.waking then
    match e with
    | .pass => s.pass
    | _ => none
  else s.idleStep e

end Aiod

namespace Op

/-- The lengths that an operation asks for pass the assertions of `bufalloc`. -/
def Legal (w : BbuddyWorld) : Op → Prop
  | .bufs len len2 => w.Askable len ∧ ∀ l ∈ len2, w.Askable l
  | .gone _ => True

/-- Tried now, the operation does not wait any more. -/
def served (bb : Bbuddy) : Op → Bool
  | .bufs len none => bb.hands len
  | .bufs len (some l2) => bb.handsBoth len l2
  | .gone _ => true

/-- Tried now, the operation gets its first buffer only. -/
def half (bb : Bbuddy) : Op → Bool
  | .bufs len (some l2) => bb.hands len && !bb.handsBoth len l2
  | _ => false

theorem Legal.mono {w w' : BbuddyWorld} {op : Op} (h : op.Legal w)
    (hmax : w'.bb.log2maxalloc = w.bb.log2maxalloc) : op.Legal w' := by
  cases op with
  | bufs len len2 =>
    refine ⟨⟨h.1.1, hmax ▸ h.1.2⟩, fun l hl => ⟨(h.2 l hl).1, hmax ▸ (h.2 l hl).2⟩⟩
  | gone drops => trivial

end Op

namespace Aiod

/-- No operation that waits can get what it asks for, but one that asks for two buffers can get
its first one. -/
def Stuck (s : Aiod) : Prop :=
  (∀ op ∈ s.bbwaitq, op.served s.w.bb = false) ∧ ∃ op ∈ s.bbwaitq, op.half s.w.bb = true

instance (s : Aiod) : Decidable (Stuck s) := by
  unfold Stuck
  infer_instance

variable {s s' : Aiod} {w' : BbuddyWorld} {len : BitVec 64}

/-- What every step keeps of the allocator and of the growth. -/
structure Base (s : Aiod) : Prop where
  ok : s.w.Ok
  minalloc : s.w.bb.log2minalloc = 6
  legal : ∀ op ∈ s.bbwaitq, op.Legal s.w
  totsize : s.w.bb.totsize = s.shmlen
  room : 0 < s.maxbuf ∧ s.maxbuf ≤ s.shmmax
  bound : s.shmmax < 2 ^ 63
  grown : ∀ inc, s.growth = .asked inc ∨ s.growth = .told inc → s.shmlen + inc ≤ s.shmmax

namespace Base

theorem pos (h : Base s) : 0 < s.w.bb.log2minalloc := by
  rw [h.minalloc]
  decide

theorem setWorld (h : Base s) (hok : w'.Ok) (hspace : w'.SameSpace s.w) : Base { s with w := w' } :=
  ⟨hok, hspace.log2minalloc.trans h.minalloc,
    fun op hop => (h.legal op hop).mono hspace.log2maxalloc, hspace.totsize.trans h.totsize,
    h.room, h.bound, h.grown⟩

theorem wait (h : Base s) {op : Op} (hop : op.Legal s.w) : Base (s.bufwait op) := by
  refine { h with legal := fun op' hop' => ?_ }
  rcases List.mem_append.mp hop' with hop' | hop'
  · exact h.legal op' hop'
  · obtain rfl := List.mem_singleton.mp hop'
    exact hop

theorem setFlags (h : Base s) (lock req waking : Bool) :
    Base { s with bufwakelock := lock, bufwakereq := req, waking := waking } :=
  { h with }

theorem wake (h : Base s) : Base s.bufwake := by
  rw [Aiod.bufwake]
  split_ifs
  · exact h.setFlags ..
  · exact h.setFlags ..

theorem grow (h : Base s) : Base s.startGrowth := by
  rw [Aiod.startGrowth]
  split_ifs with hgrow
  · refine { h with grown := fun inc hinc => ?_ }
    rcases hinc with hinc | hinc
    · cases hinc
      have hle := Nat.min_le_left (s.shmmax - s.shmlen) (max s.maxbuf (s.shmlen >>> 2))
      have hlen := hgrow.2
      dsimp only
      omega
    · cases hinc
  · exact h

end Base

theorem startGrowth_frame (s : Aiod) : s.startGrowth = { s with growth := s.startGrowth.growth } := by
  rw [startGrowth]
  split_ifs <;> rfl

theorem Base.growing (h : Base s) (hlen : s.w.Askable len) (hno : s.w.bb.hands len = false)
    (hlive : s.w.live = []) : s.startGrowth.growth ≠ .idle := by
  intro hidle
  have hspace : s.shmlen = 0 := by
    by_contra hne
    have hyes := h.ok.hands_of_empty h.pos hlive (by rw [h.totsize]; omega) hlen
    exact absurd (hno.symm.trans hyes) Bool.false_ne_true
  rw [Aiod.startGrowth] at hidle
  split_ifs at hidle with hgrow
  have hroom := h.room.2
  exact hgrow ⟨hidle, by omega⟩

theorem Base.bufalloc_cases (h : Base s) (hlen : s.w.Askable len) :
    (∃ w', s.bufalloc len = some (Aiod.startGrowth { s with w := w' }, none) ∧
      s.w.bb.hands len = false ∧ w'.Like s.w ∧ w'.Ok) ∨
    ∃ w' b, s.bufalloc len = some ({ s with w := w' }, some b) ∧ s.w.bb.hands len = true ∧
      (∀ m, s.w.bb.handsBoth len m = w'.bb.hands m) ∧ w'.SameSpace s.w ∧
      w'.live = b :: s.w.live ∧ w'.Ok := by
  have hguard : ¬ (len = 0 ∨ 2 ^ s.w.bb.log2maxalloc < len.toNat) := by
    rintro (h0 | hlt)
    · exact hlen.1 h0
    · exact absurd hlen.2 (Nat.not_le_of_lt hlt)
  rcases h.ok.alloc_cases h.pos hlen with ⟨bb, halloc, hno, hlike, hok⟩ |
    ⟨bb, pos, halloc, hyes, hboth, hspace, hok⟩
  · refine .inl ⟨⟨bb, s.w.live⟩, ?_, hno, hlike, hok⟩
    simp only [bufalloc, if_neg hguard, halloc, Option.bind_eq_bind, Option.bind_some, ne_eq,
      not_true_eq_false, if_false]
    rfl
  · refine .inr ⟨⟨bb, (pos, len) :: s.w.live⟩, (pos, len), ?_, hyes, hboth, hspace, rfl, hok⟩
    have hne : (pos : Int) ≠ -1 := by omega
    simp only [bufalloc, if_neg hguard, halloc, Option.bind_eq_bind, Option.bind_some, if_pos hne,
      Int.toNat_natCast]
    rfl

theorem Base.free_eq (h : Base s) {b : Buf} (hb : b ∈ s.w.live) :
    ∃ w', w'.Ok ∧ w'.SameSpace s.w ∧ w'.live = s.w.live.erase b ∧
      s.free b = some (if s.bbwaitq.isEmpty then { s with w := w' }
        else Aiod.bufwake { s with w := w' }) := by
  have hlegal : (b.1, b.2) ∈ s.w.live := hb
  obtain ⟨w', hstep, hok, hspace, hlive⟩ := h.ok.dealloc hlegal
  refine ⟨w', hok, hspace, hlive, ?_⟩
  rw [free, if_pos hb, hstep]
  rfl

end Aiod

end Sfslite.Async.Aiobuf
