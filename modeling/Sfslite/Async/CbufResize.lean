import Sfslite.Async.Cbuf

/-!
`cbuf::resize` and `cbuf::clear`. The one sets `empty` where there are bytes and clears it where
there are none, and the other clears it always.
-/

namespace Sfslite.Async.Cbuf

open Sfslite.Lib

variable {β : Type*}

/-- `resize`, with what is in the new memory before. -/
def resize (c : Cbuf β) (nbuf : ℕ → β) (n : ℕ) : Option (Cbuf β) := do
  let nend := toInt c.size
  let len := (nend % 2 ^ 64).toNat
  let (dst, _) ← c.copyout len
  if n < len then none
  else some ⟨store nbuf 0 dst, n, nend ≠ 0, 0, len⟩

def clear (c : Cbuf β) : Cbuf β := { c with empty := false, start := 0, endPos := 0 }

/-- The bytes that are held, by the places that `at` takes them from. -/
def held (c : Cbuf β) : List β := window c.buf c.buflen c.start c.size

/-- What the functions of a buffer answer. -/
structure View (β : Type*) where
  size : ℕ
  space : ℕ
  at' : ℕ → Option β
  find : β → ℤ
  copyout : ℕ → Option (List β)
  out : List β
  room : ℕ

def view [DecidableEq β] (c : Cbuf β) : View β where
  size := c.size
  space := c.space
  at' := c.at'
  find := c.find
  copyout n := (c.copyout n).map Prod.fst
  out := (cells (c.outiov.take c.outiovcnt)).map c.buf
  room := (cells (c.iniov.take c.iniovcnt)).length

/-- What later operations show of two buffers is the same. -/
def Alike [DecidableEq β] (c c' : Cbuf β) : Prop :=
  ∀ es : List (Event β), (es.foldlM step c).map view = (es.foldlM step c').map view

/-- What `resize` is there for: whatever is in the new memory, the held bytes stay, and from
there on the buffer is like a new one that the bytes are added to. -/
def Keeps [DecidableEq β] (c : Cbuf β) (n : ℕ) : Prop :=
  ∀ nbuf, ∃ c' c₀, c.resize nbuf n = some c' ∧
    (new nbuf n).step (.addbytes c.held) = some c₀ ∧
    c'.held = c.held ∧ c'.size = c.size ∧ Alike c' c₀

theorem length_held (c : Cbuf β) : c.held.length = c.size := length_window

theorem size_clear (c : Cbuf β) : c.clear.size = c.buflen := by
  simp [clear, size]

/-- A buffer of length 0, whatever `empty` says. -/
structure Nothing (c : Cbuf β) : Prop where
  buflen : c.buflen = 0
  start : c.start = 0
  endPos : c.endPos = 0

variable {c c' : Cbuf β}

theorem Nothing.size (h : Nothing c) : c.size = 0 := by
  simp [Cbuf.size, h.buflen, h.start, h.endPos]

theorem Nothing.space (h : Nothing c) : c.space = 0 := by
  simp [Cbuf.space, h.buflen, h.start, h.endPos]

theorem Nothing.copyout (h : Nothing c) (n : ℕ) :
    c.copyout n = if n = 0 then some ([], c) else none := by
  rw [Cbuf.copyout, h.size]
  split
  · rename_i hn
    rw [if_neg (by omega)]
  · rename_i hn
    obtain rfl : n = 0 := by omega
    simp [rembytes]

theorem Nothing.view [DecidableEq β] (h : Nothing c) :
    c.view =
      ⟨0, 0, fun _ => none, fun _ => -1, fun n => if n = 0 then some [] else none, [], 0⟩ := by
  have hat : c.at' = fun _ => none := by
    funext n
    rw [at', h.size]
    rfl
  have hfind : c.find = fun _ => -1 := by
    funext ch
    simp [find, memchr, h.buflen, h.start, h.endPos]
  have hcopy : (fun n => (c.copyout n).map Prod.fst) =
      fun n => if n = 0 then some [] else none := by
    funext n
    rw [h.copyout]
    split
    · rfl
    · rfl
  have hout : cells (c.outiov.take c.outiovcnt) = [] := by
    cases he : c.empty <;>
      simp [outiov, outiovcnt, cells, he, h.buflen, h.start, h.endPos]
  have hin : cells (c.iniov.take c.iniovcnt) = [] := by
    cases he : c.empty <;>
      simp [iniov, iniovcnt, cells, he, h.buflen, h.start, h.endPos]
  rw [Cbuf.view, h.size, h.space, hat, hfind, hcopy, hout, hin]
  rfl

def Event.len : Event β → ℕ
  | .addbytes d => d.length
  | .rembytes n | .unrembytes n | .copyout n => n

theorem Nothing.addbytes (h : Nothing c) (n : ℕ) :
    c.addbytes n = if n = 0 then some c else none := by
  unfold Cbuf.addbytes
  split
  · rfl
  · rename_i hn
    rw [h.space, if_pos (Nat.pos_of_ne_zero hn)]

theorem Nothing.rembytes (h : Nothing c) (n : ℕ) :
    c.rembytes n = if n = 0 then some c else none := by
  unfold Cbuf.rembytes
  split
  · rfl
  · rename_i hn
    rw [h.size, if_pos (Nat.pos_of_ne_zero hn)]

theorem Nothing.unrembytes (h : Nothing c) (n : ℕ) :
    c.unrembytes n = if n = 0 then some c else none := by
  unfold Cbuf.unrembytes
  split
  · rfl
  · rename_i hn
    rw [h.space, if_pos (Nat.pos_of_ne_zero hn)]

theorem Nothing.step (h : Nothing c) (e : Event β) :
    ∃ c', Nothing c' ∧ c.step e = if e.len = 0 then some c' else none := by
  cases e with
  | addbytes d =>
    have hstored : Nothing { c with buf := scatter c.buf (c.iniov.take c.iniovcnt) d } :=
      { h with }
    exact ⟨_, hstored, hstored.addbytes d.length⟩
  | rembytes n => exact ⟨c, h, h.rembytes n⟩
  | unrembytes n => exact ⟨c, h, h.unrembytes n⟩
  | copyout n =>
    refine ⟨c, h, ?_⟩
    rw [Cbuf.step, h.copyout, Event.len]
    split
    · rfl
    · rfl

theorem Nothing.alike [DecidableEq β] (h : Nothing c) (h' : Nothing c') : Alike c c' := by
  intro es
  induction es generalizing c c' with
  | nil =>
    show some c.view = some c'.view
    rw [h.view, h'.view]
  | cons e es ih =>
    rw [List.foldlM_cons, List.foldlM_cons]
    obtain ⟨c₁, h₁, hs₁⟩ := h.step e
    obtain ⟨c₂, h₂, hs₂⟩ := h'.step e
    rw [hs₁, hs₂]
    split
    · exact ih h₁ h₂
    · rfl

theorem toInt_zero : toInt 0 = 0 := by
  have h : toInt 0 = ((0 : ℕ) : ℤ) := toInt_eq_iff.mpr (by omega)
  exact h

theorem resize_zero (h : c.size = 0) (nbuf : ℕ → β) :
    ∃ c', c.resize nbuf 0 = some c' ∧ Nothing c' := by
  obtain ⟨dst, hcopy⟩ : ∃ dst, c.copyout 0 = some (dst, c) := by
    rw [Cbuf.copyout, if_neg (by omega)]
    exact ⟨_, rfl⟩
  refine ⟨⟨store nbuf 0 dst, 0, false, 0, 0⟩, ?_, rfl, rfl, rfl⟩
  simp [resize, h, toInt_zero, hcopy]

theorem store_nil (buf : ℕ → β) (k : ℕ) : store buf k [] = buf := by
  funext j
  simp [store]

theorem copyout_zero {dst : List β} (h : c.copyout 0 = some (dst, c')) : dst = [] := by
  rw [Cbuf.copyout, if_neg (by omega)] at h
  obtain ⟨c₁, -, hdst⟩ := Option.map_eq_some_iff.mp h
  cases hdst
  split
  · rw [Nat.zero_min, segment_zero]
  · simp

theorem resize_cases {nbuf : ℕ → β} {n : ℕ} (h : c.resize nbuf n = some c') :
    c'.buflen = n ∧ c'.start = 0 ∧
      (toInt c.size ≠ 0 ∧ c'.empty = true ∨
        toInt c.size = 0 ∧ c'.empty = false ∧ c'.endPos = 0 ∧ c'.buf = nbuf) := by
  unfold resize at h
  generalize hend : toInt c.size = nend at h
  obtain ⟨⟨dst, c₁⟩, hcopy, h⟩ := Option.bind_eq_some_iff.mp h
  dsimp only at h
  split at h
  · cases h
  · cases h
    refine ⟨rfl, rfl, ?_⟩
    rcases eq_or_ne nend 0 with rfl | hne
    · have hlen : ((0 : ℤ) % 2 ^ 64).toNat = 0 := congrArg Int.toNat (Int.zero_emod _)
      rw [hlen] at hcopy
      refine Or.inr ⟨rfl, rfl, hlen, ?_⟩
      rw [copyout_zero hcopy, store_nil]
    · exact Or.inl ⟨hne, decide_eq_true hne⟩

theorem fresh_refines {nbuf : ℕ → β} {n : ℕ} {d : List β} {c₀ : Cbuf β}
    (h : (new nbuf n).step (.addbytes d) = some c₀) : ∃ q, Refines c₀ q ∧ q.held = d := by
  refine ⟨_, (Refines.new nbuf n).step h, ?_⟩
  simp [ByteQueue.held, ByteQueue.step, ByteQueue.after]

variable [DecidableEq β]

theorem not_keeps [Nontrivial β] {n : ℕ} (hn : 0 < n) : ¬ Keeps c n := by
  intro hkeeps
  obtain ⟨x, hx⟩ := exists_ne (c.buf (c.start % c.buflen))
  obtain ⟨c', c₀, hc', hc₀, hheld, hsize, halike⟩ := hkeeps fun _ => x
  obtain ⟨hbuflen, hstart, ⟨hne, hempty⟩ | ⟨-, hempty, hend, hbuf⟩⟩ := resize_cases hc'
  · -- `find` does not find the first byte
    have hview : some c'.view = some c₀.view := halike []
    have hfind : c'.find = c₀.find := congrArg View.find (Option.some.inj hview)
    obtain ⟨q, hq, hqheld⟩ := fresh_refines hc₀
    cases hfirst : c.held with
    | nil =>
      have hzero : c.size = 0 := by rw [← length_held, hfirst, List.length_nil]
      rw [hzero, toInt_zero] at hne
      exact hne rfl
    | cons ch d =>
      have hseen : c₀.find ch = 0 := by
        rw [hq.find_eq, hqheld, hfirst]
        simp [List.idxOf?_cons, toInt_zero]
      have hunseen : c'.find ch = -1 := by simp [find, hempty]
      rw [← hfind, hunseen] at hseen
      cases hseen
  · -- the buffer is full of what was in the memory
    have hfull : c'.size = n := by simp [size, hempty, hstart, hend, hbuflen]
    have hget := congrArg (fun l => l[0]?) hheld
    have hpos : 0 < c.size := by omega
    rw [held, held, getElem?_window (by omega), getElem?_window hpos, hbuf] at hget
    exact hx (Option.some.inj hget)

theorem keeps_zero (h : c.size = 0) : Keeps c 0 := by
  intro nbuf
  have hnil : ∀ {b : Cbuf β}, b.size = 0 → b.held = [] := by
    intro b hb
    exact List.eq_nil_of_length_eq_zero ((length_held b).trans hb)
  obtain ⟨c', hc', hnothing⟩ := resize_zero h nbuf
  have hnew : Nothing (new nbuf 0) := ⟨rfl, rfl, rfl⟩
  obtain ⟨c₀, hnothing₀, hc₀⟩ := hnew.step (.addbytes c.held)
  rw [hnil h] at hc₀
  refine ⟨c', c₀, hc', ?_, ?_, ?_, hnothing.alike hnothing₀⟩
  · rw [hnil h]
    exact hc₀
  · rw [hnil h, hnil hnothing.size]
  · rw [h, hnothing.size]

/-- Of every state, `resize` keeps the bytes in a buffer of length 0 only, where there are
none, and `clear` leaves none only in a buffer of length 0. -/
theorem resize_iff [Nontrivial β] (c : Cbuf β) {n : ℕ} (hn : c.size ≤ n) :
    (Keeps c n ↔ n = 0) ∧ (c.clear.size = 0 ↔ c.buflen = 0) := by
  refine ⟨⟨fun hkeeps => ?_, ?_⟩, by rw [size_clear]⟩
  · by_contra hne
    exact not_keeps (Nat.pos_of_ne_zero hne) hkeeps
  · rintro rfl
    exact keeps_zero (Nat.le_zero.mp hn)

instance : Nontrivial (BitVec 8) := ⟨0, 1, by decide⟩

/-- A buffer of four is resized to nothing. -/
theorem resize_iff_zero :
    Keeps (new (fun _ => (0 : BitVec 8)) 4) 0 ∧
      ¬ (new (fun _ => (0 : BitVec 8)) 4).clear.size = 0 := by
  have h := resize_iff (new (fun _ => (0 : BitVec 8)) 4) (n := 0) (by decide)
  exact ⟨h.1.mpr rfl, fun hzero => absurd (h.2.mp hzero) (by decide)⟩

/-- One byte in a buffer of four that is resized to eight, and an empty buffer. -/
theorem resize_loses :
    ∃ c : Cbuf (BitVec 8), Run step (fun _ _ => True) (new (fun _ => 0) 4) [.addbytes [7]] c ∧
      ¬ Keeps c 8 ∧ ((c.resize (fun _ => 0) 8).map fun c' => (c'.size, c'.find 7)) = some (1, -1) ∧
      ((new (fun _ => (0 : BitVec 8)) 4).resize (fun _ => 0) 8).map size = some 8 ∧
      c.clear.size = 4 := by
  have hrun : Run step (fun _ _ => True) (new (fun _ => (0 : BitVec 8)) 4) [.addbytes [7]] _ :=
    .cons trivial rfl (.nil _)
  exact ⟨_, hrun, not_keeps (by decide), by decide, by decide, by decide⟩

end Sfslite.Async.Cbuf
