import Sfslite.Lib.Circular
import Sfslite.Lib.Run

/-!
The circular buffer of `cbuf.C`, a bounded queue of bytes. Pointers are offsets into the buffer, and
a failed assertion answers `none`. The `int` that `find` returns can be too short.
-/

namespace Sfslite.Async

open Sfslite.Lib

/-- An `iovec`; `none` is a null pointer. -/
structure Iovec where
  iov_base : Option ℕ
  iov_len : ℕ
  deriving DecidableEq, Repr

structure Cbuf (β : Type*) where
  buf : ℕ → β
  buflen : ℕ
  empty : Bool
  start : ℕ
  endPos : ℕ

namespace Cbuf

variable {β : Type*}

def new (mem : ℕ → β) (n : ℕ) : Cbuf β := ⟨mem, n, true, 0, 0⟩

def space (c : Cbuf β) : ℕ :=
  (if c.empty ∨ c.start < c.endPos then c.buflen else 0) + c.start - c.endPos

def size (c : Cbuf β) : ℕ :=
  (if c.empty ∨ c.start < c.endPos then 0 else c.buflen) + c.endPos - c.start

def iniov (c : Cbuf β) : List Iovec :=
  if c.empty ∨ c.start < c.endPos then
    [⟨some c.endPos, c.buflen - c.endPos⟩, ⟨some 0, c.start⟩]
  else [⟨some c.endPos, c.start - c.endPos⟩, ⟨none, 0⟩]

def iniovcnt (c : Cbuf β) : ℕ :=
  if c.empty ∨ c.start < c.endPos then 1 + (if c.start ≠ 0 then 1 else 0)
  else if c.start ≠ c.endPos then 1 else 0

def outiov (c : Cbuf β) : List Iovec :=
  if c.endPos ≤ c.start ∧ ¬ c.empty then
    [⟨some c.start, c.buflen - c.start⟩, ⟨some 0, c.endPos⟩]
  else [⟨some c.start, c.endPos - c.start⟩, ⟨none, 0⟩]

def outiovcnt (c : Cbuf β) : ℕ :=
  if c.empty then 0
  else if c.start < c.endPos then 1
  else 1 + (if c.endPos ≠ 0 then 1 else 0)

def addbytes (c : Cbuf β) (n : ℕ) : Option (Cbuf β) :=
  if n = 0 then some c
  -- assert (n <= space ())
  else if c.space < n then none
  else
    let endPos := c.endPos + n
    some { c with
      empty := false
      endPos := if c.buflen ≤ endPos then endPos - c.buflen else endPos }

def rembytes (c : Cbuf β) (n : ℕ) : Option (Cbuf β) :=
  if n = 0 then some c
  -- assert (n <= size ())
  else if c.size < n then none
  else
    let start := (c.start + n) % c.buflen
    some { c with start := start, empty := start = c.endPos }

def unrembytes (c : Cbuf β) (n : ℕ) : Option (Cbuf β) :=
  if n = 0 then some c
  -- assert (n <= space ())
  else if c.space < n then none
  else
    some { c with start := (if n ≤ c.start then 0 else c.buflen) + c.start - n, empty := false }

def at' (c : Cbuf β) (n : ℕ) : Option β :=
  -- assert (n < size ())
  if n < c.size then some (c.buf ((n + c.start) % c.buflen)) else none

/-- What becomes of an offset that is returned as an `int`. -/
def toInt (n : ℕ) : ℤ := (n : ℤ).bmod (2 ^ 32)

def memchr [DecidableEq β] (buf : ℕ → β) (k : ℕ) (ch : β) (len : ℕ) : Option ℕ :=
  ((segment buf k len).idxOf? ch).map (k + ·)

def find [DecidableEq β] (c : Cbuf β) (ch : β) : ℤ :=
  if c.empty then -1
  else if c.start < c.endPos then
    match memchr c.buf c.start ch (c.endPos - c.start) with
    | some p => toInt (p - c.start)
    | none => -1
  else
    match memchr c.buf c.start ch (c.buflen - c.start) with
    | some p => toInt (p - c.start)
    | none =>
      match memchr c.buf 0 ch c.endPos with
      | some p => toInt (p + c.buflen - c.start)
      | none => -1

def copyout (c : Cbuf β) (len : ℕ) : Option (List β × Cbuf β) :=
  -- assert (len <= size ())
  if c.size < len then none
  else
    let dst :=
      if c.empty ∨ c.start < c.endPos then segment c.buf c.start (min len (c.endPos - c.start))
      else
        let n := min len (c.buflen - c.start)
        if n < len then segment c.buf c.start n ++ segment c.buf 0 (len - n)
        else segment c.buf c.start n
    (c.rembytes len).map fun c => (dst, c)

/-- Bytes that are written through a list of `iovec`s. -/
def scatter (buf : ℕ → β) : List Iovec → List β → ℕ → β
  | [], _ => buf
  | v :: iov, d =>
    scatter (store buf (v.iov_base.getD 0) (d.take v.iov_len)) iov (d.drop v.iov_len)

/-- What happens to a buffer: bytes are written to the free space and added, and bytes are
removed, copied out or put back. -/
inductive Event (β : Type*) where
  | addbytes (d : List β)
  | rembytes (n : ℕ)
  | unrembytes (n : ℕ)
  | copyout (n : ℕ)

def step (c : Cbuf β) : Event β → Option (Cbuf β)
  | .addbytes d =>
    ({ c with buf := scatter c.buf (c.iniov.take c.iniovcnt) d } : Cbuf β).addbytes d.length
  | .rembytes n => c.rembytes n
  | .unrembytes n => c.unrembytes n
  | .copyout n => (c.copyout n).map Prod.snd

/-- A queue of bytes that knows all it ever had: the bytes that were added, and how many of
them are removed. -/
structure ByteQueue (β : Type*) where
  added : List β
  removed : ℕ

namespace ByteQueue

def held (q : ByteQueue β) : List β := q.added.drop q.removed

def step (q : ByteQueue β) : Event β → ByteQueue β
  | .addbytes d => { q with added := q.added ++ d }
  | .rembytes n | .copyout n => { q with removed := q.removed + n }
  | .unrembytes n => { q with removed := q.removed - n }

/-- What a queue is after some events. The memory that the buffer starts with counts as
added and removed before. -/
def after (mem : ℕ → β) (n : ℕ) (es : List (Event β)) : ByteQueue β :=
  es.foldl step ⟨segment mem 0 n, n⟩

end ByteQueue

/-- A buffer holds the end of a queue: from `endPos` on around it has the last bytes that were
added, oldest first, of which the free space holds the removed ones. -/
structure Refines (c : Cbuf β) (q : ByteQueue β) : Prop where
  start_le : c.start ≤ c.buflen
  end_le : c.endPos ≤ c.buflen
  start_lt : 0 < c.buflen → c.start < c.buflen ∧ c.endPos < c.buflen
  empty : c.empty → c.start = c.endPos
  nonempty : c.buflen = 0 → c.empty
  removed : c.buflen ≤ q.removed + c.size ∧ q.removed + c.size = q.added.length
  ring : q.added.drop (q.added.length - c.buflen) = window c.buf c.buflen c.endPos c.buflen

namespace Refines

variable {c : Cbuf β} {q : ByteQueue β}

theorem size_add_space (h : Refines c q) : c.size + c.space = c.buflen := by
  have hstart := h.start_le
  have hend := h.end_le
  have hlt := h.start_lt
  unfold size space
  split
  · rename_i hcase
    have hle : c.start ≤ c.endPos := hcase.elim (fun he => (h.empty he).le) fun hlt => hlt.le
    omega
  · omega

theorem window_start (h : Refines c q) (len : ℕ) :
    window c.buf c.buflen (c.endPos + c.space) len = window c.buf c.buflen c.start len := by
  have hstart := h.start_le
  have hend := h.end_le
  by_cases hcase : c.empty ∨ c.start < c.endPos
  · have hle : c.start ≤ c.endPos := hcase.elim (fun he => (h.empty he).le) fun hlt => hlt.le
    have hsum : c.endPos + c.space = c.start + c.buflen := by
      simp only [space, if_pos hcase]
      omega
    rw [hsum, window_add_length]
  · have hsum : c.endPos + c.space = c.start := by
      simp only [space, if_neg hcase]
      omega
    rw [hsum]

theorem held_eq (h : Refines c q) : q.held = window c.buf c.buflen c.start c.size := by
  have hspace := h.size_add_space
  obtain ⟨hle, hlen⟩ := h.removed
  have hdrop : q.held = (q.added.drop (q.added.length - c.buflen)).drop c.space := by
    rw [List.drop_drop, ByteQueue.held]
    congr 1
    omega
  have hsum : c.buflen = c.space + c.size := by omega
  rw [hdrop, h.ring]
  conv_lhs => rw [show window c.buf c.buflen c.endPos c.buflen =
    window c.buf c.buflen c.endPos (c.space + c.size) by rw [← hsum]]
  rw [drop_window, h.window_start]

theorem scatter_iniov (h : Refines c q) {d : List β} (hd : d.length ≤ c.space) {i : ℕ}
    (hi : i < c.buflen) :
    scatter c.buf (c.iniov.take c.iniovcnt) d ((c.endPos + i) % c.buflen) =
      (d[i]?).getD (c.buf ((c.endPos + i) % c.buflen)) := by
  have hstart := h.start_le
  obtain ⟨hslt, helt⟩ := h.start_lt (by omega)
  by_cases hcase : c.empty ∨ c.start < c.endPos
  · have hle : c.start ≤ c.endPos := hcase.elim (fun he => (h.empty he).le) fun hlt => hlt.le
    simp only [space, if_pos hcase] at hd
    have hscatter : scatter c.buf (c.iniov.take c.iniovcnt) d =
        store (store c.buf c.endPos (d.take (c.buflen - c.endPos))) 0
          (d.drop (c.buflen - c.endPos)) := by
      simp only [iniov, iniovcnt, if_pos hcase]
      by_cases hs : c.start = 0
      · have hnil : d.drop (c.buflen - c.endPos) = [] := List.drop_eq_nil_of_le (by omega)
        have hstore : ∀ buf : ℕ → β, store buf 0 [] = buf := by
          intro buf
          funext j
          simp [store]
        simp [hs, scatter, hnil, hstore]
      · have htake : (d.drop (c.buflen - c.endPos)).take c.start = d.drop (c.buflen - c.endPos) := by
          apply List.take_of_length_le
          rw [List.length_drop]
          omega
        simp [hs, scatter, htake]
    rw [hscatter]
    by_cases hwrap : c.endPos + i < c.buflen
    · rw [Nat.mod_eq_of_lt hwrap, store_of_lt (by rw [List.length_drop]; omega)]
      simp only [store, Nat.le_add_right, if_true, Nat.add_sub_cancel_left]
      rw [List.getElem?_take_of_lt (by omega)]
    · have hmod : (c.endPos + i) % c.buflen = c.endPos + i - c.buflen := by
        rw [Nat.mod_eq_sub_mod (by omega), Nat.mod_eq_of_lt (by omega)]
      have hidx : c.buflen - c.endPos + (c.endPos + i - c.buflen) = i := by omega
      rw [hmod, store, if_pos (Nat.zero_le _), Nat.sub_zero, List.getElem?_drop, hidx,
        store_of_lt (by omega)]
  · simp only [space, if_neg hcase] at hd
    have hscatter : scatter c.buf (c.iniov.take c.iniovcnt) d = store c.buf c.endPos d := by
      simp only [iniov, iniovcnt, if_neg hcase]
      by_cases hs : c.start = c.endPos
      · have hnil : d = [] := List.eq_nil_of_length_eq_zero (by omega)
        subst hnil
        funext j
        simp [hs, scatter, store]
      · have htake : d.take (c.start - c.endPos) = d := List.take_of_length_le (by omega)
        simp [hs, scatter, htake]
    rw [hscatter]
    by_cases hwrap : c.endPos + i < c.buflen
    · rw [Nat.mod_eq_of_lt hwrap]
      simp only [store, Nat.le_add_right, if_true, Nat.add_sub_cancel_left]
    · have hmod : (c.endPos + i) % c.buflen = c.endPos + i - c.buflen := by
        rw [Nat.mod_eq_sub_mod (by omega), Nat.mod_eq_of_lt (by omega)]
      rw [hmod, store_of_lt (by omega), List.getElem?_eq_none (by omega), Option.getD_none]

theorem addbytes (h : Refines c q) {d : List β} {c' : Cbuf β}
    (hs : c.step (.addbytes d) = some c') : Refines c' (q.step (.addbytes d)) := by
  have hstart := h.start_le
  have hsum := h.size_add_space
  obtain ⟨hle, hlen⟩ := h.removed
  simp only [Cbuf.step, Cbuf.addbytes] at hs
  split at hs
  · -- nothing is written either
    rename_i hnil
    obtain rfl := List.eq_nil_of_length_eq_zero hnil
    have hbuf : ∀ i < c.buflen, scatter c.buf (c.iniov.take c.iniovcnt) []
        ((c.endPos + i) % c.buflen) = c.buf ((c.endPos + i) % c.buflen) :=
      fun i hi => h.scatter_iniov (Nat.zero_le _) hi
    rw [← Option.some.inj hs]
    refine { h with removed := ?_, ring := ?_ }
    · simpa [ByteQueue.step, size] using h.removed
    · simpa [ByteQueue.step, window_congr hbuf] using h.ring
  · rename_i hnil
    split at hs
    · cases hs
    · rename_i hspace
      have hspace : d.length ≤ c.space := not_lt.mp hspace
      obtain ⟨hslt, helt⟩ := h.start_lt (by omega)
      rw [Option.some.injEq] at hs
      subst hs
      have hend : (c.endPos + d.length) % c.buflen =
          if c.buflen ≤ c.endPos + d.length then c.endPos + d.length - c.buflen
          else c.endPos + d.length := by
        split
        · rw [Nat.mod_eq_sub_mod (by omega), Nat.mod_eq_of_lt (by omega)]
        · rw [Nat.mod_eq_of_lt (by omega)]
      have hscatter := fun i hi => h.scatter_iniov hspace (i := i) hi
      set buf := scatter c.buf (c.iniov.take c.iniovcnt) d with hbuf
      rw [← hend]
      have hsize' : size { c with
          buf := buf
          empty := false
          endPos := (c.endPos + d.length) % c.buflen } = c.size + d.length := by
        by_cases hcase : c.empty ∨ c.start < c.endPos
        · have hse : c.start ≤ c.endPos := hcase.elim (fun he => (h.empty he).le) fun hlt => hlt.le
          simp only [space, if_pos hcase] at hspace
          simp only [size, if_pos hcase, hend, Bool.false_eq_true, false_or]
          split <;> split <;> omega
        · simp only [space, if_neg hcase] at hspace
          simp only [size, if_neg hcase, hend, Bool.false_eq_true, false_or]
          split <;> split <;> omega
      have hlast : window buf c.buflen c.endPos d.length = d := by
        apply List.ext_getElem?
        intro i
        by_cases hi : i < d.length
        · rw [getElem?_window hi, hscatter i (by omega), List.getElem?_eq_getElem hi,
            Option.getD_some]
        · rw [List.getElem?_eq_none (by simpa using hi), List.getElem?_eq_none (by simpa using hi)]
      have hfirst : window buf c.buflen (c.endPos + d.length) (c.buflen - d.length) =
          window c.buf c.buflen (c.endPos + d.length) (c.buflen - d.length) := by
        apply window_congr
        intro i hi
        rw [Nat.add_assoc, hscatter (d.length + i) (by omega),
          List.getElem?_eq_none (by omega), Option.getD_none]
      refine ⟨h.start_le, (Nat.mod_lt _ (by omega)).le, fun hpos => ⟨hslt, Nat.mod_lt _ hpos⟩,
        fun he => Bool.noConfusion he, fun (hzero : c.buflen = 0) => by omega, ?_, ?_⟩
      · simp only [ByteQueue.step, List.length_append, hsize']
        omega
      · have hdrop : q.added.length + d.length - c.buflen =
            (q.added.length - c.buflen) + d.length := by omega
        have hsplit : c.buflen = d.length + (c.buflen - d.length) := by omega
        have hold : (q.added.drop (q.added.length - c.buflen)).drop d.length =
            window c.buf c.buflen (c.endPos + d.length) (c.buflen - d.length) := by
          rw [h.ring, ← drop_window (a := d.length), ← hsplit]
        have hnew : window buf c.buflen (c.endPos + d.length) c.buflen =
            window buf c.buflen (c.endPos + d.length) ((c.buflen - d.length) + d.length) := by
          rw [Nat.sub_add_cancel (by omega)]
        have hround : c.endPos + d.length + (c.buflen - d.length) = c.endPos + c.buflen := by omega
        calc (q.added ++ d).drop ((q.added ++ d).length - c.buflen)
            = q.added.drop ((q.added.length - c.buflen) + d.length) ++ d := by
              rw [List.length_append, hdrop, List.drop_append_of_le_length (by omega)]
          _ = window c.buf c.buflen (c.endPos + d.length) (c.buflen - d.length) ++ d := by
              rw [← List.drop_drop, hold]
          _ = window buf c.buflen (c.endPos + d.length) c.buflen := by
              rw [hnew, window_add, hfirst, hround, window_add_length, hlast]
          _ = window buf c.buflen ((c.endPos + d.length) % c.buflen) c.buflen := window_mod.symm

theorem rembytes (h : Refines c q) {n : ℕ} {c' : Cbuf β} (hs : c.rembytes n = some c') :
    Refines c' { q with removed := q.removed + n } := by
  unfold Cbuf.rembytes at hs
  split at hs
  · rename_i hn
    exact Option.some.inj hs ▸ hn ▸ h
  · split at hs
    · cases hs
    · rename_i hn hsize
      rw [not_lt] at hsize
      rw [Option.some.injEq] at hs
      subst hs
      have hsum := h.size_add_space
      obtain ⟨hslt, helt⟩ := h.start_lt (by omega)
      obtain ⟨hle, hlen⟩ := h.removed
      have hstart : (c.start + n) % c.buflen =
          if c.start + n < c.buflen then c.start + n else c.start + n - c.buflen := by
        split
        · rename_i hlt
          exact Nat.mod_eq_of_lt hlt
        · rw [Nat.mod_eq_sub_mod (by omega), Nat.mod_eq_of_lt (by omega)]
      have hsize' : size { c with
          start := (c.start + n) % c.buflen
          empty := (c.start + n) % c.buflen = c.endPos } + n = c.size := by
        have hempty := h.empty
        simp only [size, hstart, decide_eq_true_eq] at hsize ⊢
        split at hsize <;> split <;> split <;> omega
      exact ⟨(Nat.mod_lt _ (by omega)).le, h.end_le, fun hpos => ⟨Nat.mod_lt _ hpos, helt⟩,
        fun he => of_decide_eq_true he, fun (hzero : c.buflen = 0) => by omega,
        ⟨by simp only; omega, by simp only; omega⟩, h.ring⟩

theorem unrembytes (h : Refines c q) {n : ℕ} {c' : Cbuf β} (hs : c.unrembytes n = some c') :
    Refines c' { q with removed := q.removed - n } := by
  unfold Cbuf.unrembytes at hs
  split at hs
  · rename_i hn
    exact Option.some.inj hs ▸ hn ▸ h
  · split at hs
    · cases hs
    · rename_i hn hspace
      rw [not_lt] at hspace
      rw [Option.some.injEq] at hs
      subst hs
      have hsum := h.size_add_space
      obtain ⟨hslt, helt⟩ := h.start_lt (by omega)
      obtain ⟨hle, hlen⟩ := h.removed
      have hstart : (if n ≤ c.start then 0 else c.buflen) + c.start - n < c.buflen := by
        split <;> omega
      have hsize' : size { c with
          start := (if n ≤ c.start then 0 else c.buflen) + c.start - n
          empty := false } = c.size + n := by
        by_cases hcase : c.empty ∨ c.start < c.endPos
        · have hse : c.start ≤ c.endPos := hcase.elim (fun he => (h.empty he).le) fun hlt => hlt.le
          simp only [space, if_pos hcase] at hspace
          simp only [size, if_pos hcase, Bool.false_eq_true, false_or]
          split <;> split <;> omega
        · simp only [space, if_neg hcase] at hspace
          simp only [size, if_neg hcase, Bool.false_eq_true, false_or]
          split <;> split <;> omega
      exact ⟨hstart.le, h.end_le, fun _ => ⟨hstart, helt⟩, fun he => Bool.noConfusion he,
        fun (hzero : c.buflen = 0) => by omega,
        ⟨by simp only; omega, by simp only; omega⟩, h.ring⟩

theorem copyout (h : Refines c q) {n : ℕ} (hn : n ≤ c.size) :
    ∃ c', c.copyout n = some (q.held.take n, c') ∧ c.rembytes n = some c' := by
  have hheld : q.held.take n = window c.buf c.buflen c.start n := by
    have hsplit : c.size = n + (c.size - n) := by omega
    rw [h.held_eq, hsplit, take_window]
  have hsum := h.size_add_space
  obtain ⟨c', hc'⟩ : ∃ c', c.rembytes n = some c' := by
    unfold Cbuf.rembytes
    split
    · exact ⟨c, rfl⟩
    · rw [if_neg (by omega)]
      exact ⟨_, rfl⟩
  refine ⟨c', ?_, hc'⟩
  rw [Cbuf.copyout, if_neg (by omega), hc', hheld, Option.map_some]
  congr 2
  by_cases hcase : c.empty ∨ c.start < c.endPos
  · have hse : c.start ≤ c.endPos := hcase.elim (fun he => (h.empty he).le) fun hlt => hlt.le
    simp only [size, if_pos hcase] at hn
    have hend := h.end_le
    rw [if_pos hcase, Nat.min_eq_left (by omega), window_eq_segment (by omega)]
  · have hstart := h.start_le
    have hend := h.end_le
    simp only [size, if_neg hcase] at hn
    rw [if_neg hcase]
    dsimp only
    split
    · rename_i hlt
      have hmin : min n (c.buflen - c.start) = c.buflen - c.start := by omega
      have hrest : n - (c.buflen - c.start) = c.start + n - c.buflen := by omega
      rw [hmin, hrest, window_eq_segments hstart (by omega) (by omega)]
    · rename_i hlt
      have hmin : min n (c.buflen - c.start) = n := by omega
      rw [hmin, window_eq_segment (by omega)]

theorem step (h : Refines c q) {e : Event β} {c' : Cbuf β} (hs : c.step e = some c') :
    Refines c' (q.step e) := by
  cases e with
  | addbytes d => exact h.addbytes hs
  | rembytes n => exact h.rembytes hs
  | unrembytes n => exact h.unrembytes hs
  | copyout n =>
    simp only [Cbuf.step, Option.map_eq_some_iff] at hs
    obtain ⟨⟨dst, c''⟩, hcopy, rfl⟩ := hs
    by_cases hn : n ≤ c.size
    · obtain ⟨c₁, hcopy', hrem⟩ := h.copyout hn
      rw [hcopy', Option.some.injEq, Prod.mk.injEq] at hcopy
      exact hcopy.2 ▸ h.rembytes hrem
    · rw [Cbuf.copyout, if_pos (by omega)] at hcopy
      cases hcopy

theorem new (mem : ℕ → β) (n : ℕ) : Refines (new mem n) (ByteQueue.after mem n []) where
  start_le := Nat.zero_le _
  end_le := Nat.zero_le _
  start_lt hpos := ⟨hpos, hpos⟩
  empty _ := rfl
  nonempty _ := rfl
  removed := by simp [ByteQueue.after, Cbuf.new, size]
  ring := by
    simp only [ByteQueue.after, List.foldl_nil, Cbuf.new, length_segment, Nat.sub_self,
      List.drop_zero]
    exact (window_eq_segment (by omega)).symm

theorem length_held (h : Refines c q) : q.held.length = c.size := by
  rw [h.held_eq, length_window]

theorem at'_eq (h : Refines c q) (i : ℕ) : c.at' i = q.held[i]? := by
  unfold at'
  split
  · rename_i hi
    rw [h.held_eq, getElem?_window hi, Nat.add_comm]
  · rename_i hi
    rw [List.getElem?_eq_none (by rw [h.length_held]; omega)]

theorem held_segments (h : Refines c q) :
    q.held =
      if c.empty ∨ c.start < c.endPos then segment c.buf c.start (c.endPos - c.start)
      else segment c.buf c.start (c.buflen - c.start) ++ segment c.buf 0 c.endPos := by
  have hstart := h.start_le
  have hend := h.end_le
  rw [h.held_eq]
  split
  · rename_i hcase
    have hse : c.start ≤ c.endPos := hcase.elim (fun he => (h.empty he).le) fun hlt => hlt.le
    have hsize : c.size = c.endPos - c.start := by simp [size, hcase]
    rw [hsize, window_eq_segment (by omega)]
  · rename_i hcase
    have hsize : c.size = c.buflen + c.endPos - c.start := by simp only [size, if_neg hcase]
    rw [window_eq_segments hstart (by omega) (by omega)]
    congr 2
    omega

theorem find_eq [DecidableEq β] (h : Refines c q) (ch : β) :
    c.find ch =
      match q.held.idxOf? ch with
      | some i => toInt i
      | none => -1 := by
  have hstart := h.start_le
  rw [h.held_segments]
  unfold find
  by_cases he : c.empty
  · have hse := h.empty he
    simp [he, hse]
  · simp only [he, Bool.false_eq_true, false_or, if_false]
    split
    · cases hi : (segment c.buf c.start (c.endPos - c.start)).idxOf? ch <;> simp [memchr, hi]
    · have happ : (segment c.buf c.start (c.buflen - c.start) ++ segment c.buf 0 c.endPos).idxOf? ch =
          ((segment c.buf c.start (c.buflen - c.start)).idxOf? ch).or
            (((segment c.buf 0 c.endPos).idxOf? ch).map (· + (c.buflen - c.start))) := by
        simp [List.idxOf?]
      rw [happ]
      cases hi : (segment c.buf c.start (c.buflen - c.start)).idxOf? ch with
      | some i => simp [memchr, hi]
      | none =>
        cases hj : (segment c.buf 0 c.endPos).idxOf? ch with
        | some j => simp [memchr, hi, hj, Nat.add_sub_assoc hstart]
        | none => simp [memchr, hi, hj]

end Refines

end Cbuf

end Sfslite.Async

namespace Sfslite.Async.Cbuf

open Sfslite.Lib

variable {β : Type*}

/-- The places that a list of `iovec`s covers. -/
def cells (iov : List Iovec) : List ℕ :=
  iov.flatMap fun v => segment id (v.iov_base.getD 0) v.iov_len

namespace Refines

variable {c : Cbuf β} {q : ByteQueue β}

theorem cells_outiov (h : Refines c q) :
    cells (c.outiov.take c.outiovcnt) = window id c.buflen c.start c.size := by
  have hstart := h.start_le
  have hend := h.end_le
  by_cases he : c.empty
  · have hse := h.empty he
    simp [outiovcnt, he, cells, size, hse]
  · by_cases hlt : c.start < c.endPos
    · have hsize : c.size = c.endPos - c.start := by simp [size, hlt]
      have hge : ¬ (c.endPos ≤ c.start ∧ ¬ c.empty) := by omega
      rw [outiov, if_neg hge, outiovcnt, if_neg he, if_pos hlt, hsize,
        window_eq_segment (by omega)]
      simp [cells]
    · have hcase : ¬ (c.empty ∨ c.start < c.endPos) := by simp [he, hlt]
      have hsize : c.size = c.buflen + c.endPos - c.start := by simp only [size, if_neg hcase]
      have hge : c.endPos ≤ c.start ∧ ¬ c.empty := ⟨by omega, he⟩
      have hrest : c.start + (c.buflen + c.endPos - c.start) - c.buflen = c.endPos := by omega
      rw [outiov, if_pos hge, outiovcnt, if_neg he, if_neg hlt, hsize,
        window_eq_segments hstart (by omega) (by omega), hrest]
      by_cases hzero : c.endPos = 0 <;> simp [cells, hzero]

theorem cells_iniov (h : Refines c q) :
    cells (c.iniov.take c.iniovcnt) = window id c.buflen c.endPos c.space := by
  have hstart := h.start_le
  have hend := h.end_le
  by_cases hcase : c.empty ∨ c.start < c.endPos
  · have hse : c.start ≤ c.endPos := hcase.elim (fun he => (h.empty he).le) fun hlt => hlt.le
    have hspace : c.space = c.buflen + c.start - c.endPos := by simp only [space, if_pos hcase]
    have hrest : c.endPos + (c.buflen + c.start - c.endPos) - c.buflen = c.start := by omega
    rw [iniov, if_pos hcase, iniovcnt, if_pos hcase, hspace,
      window_eq_segments hend (by omega) (by omega), hrest]
    by_cases hzero : c.start = 0 <;> simp [cells, hzero]
  · have hspace : c.space = c.start - c.endPos := by
      simp only [space, if_neg hcase]
      omega
    rw [iniov, if_neg hcase, iniovcnt, if_neg hcase, hspace, window_eq_segment (by omega)]
    by_cases hzero : c.start = c.endPos <;> simp [cells, hzero]

theorem cells_perm (h : Refines c q) :
    (cells (c.outiov.take c.outiovcnt) ++ cells (c.iniov.take c.iniovcnt)).Perm
      (List.range c.buflen) := by
  have hstart := h.start_le
  have hsum := h.size_add_space
  have hend : window id c.buflen c.endPos c.space =
      window id c.buflen (c.start + c.size) c.space := by
    by_cases hcase : c.empty ∨ c.start < c.endPos
    · have hse : c.start ≤ c.endPos := hcase.elim (fun he => (h.empty he).le) fun hlt => hlt.le
      have hto : c.start + c.size = c.endPos := by
        simp only [size, if_pos hcase]
        omega
      rw [hto]
    · have hto : c.start + c.size = c.endPos + c.buflen := by
        simp only [size, if_neg hcase]
        omega
      rw [hto, window_add_length]
  have hrange : List.range c.buflen =
      segment id 0 c.start ++ segment id c.start (c.buflen - c.start) := by
    have hid : List.range c.buflen = segment id 0 c.buflen := by simp [Lib.segment]
    have hsplit : c.buflen = c.start + (c.buflen - c.start) := by omega
    rw [hid]
    conv_lhs => rw [hsplit]
    rw [segment_add, Nat.zero_add]
  have hback : c.start + c.buflen - c.buflen = c.start := by omega
  rw [h.cells_outiov, h.cells_iniov, hend, ← window_add, hsum,
    window_eq_segments hstart (by omega) le_rfl, hback, hrange]
  exact List.perm_append_comm

end Refines

def Within (c : Cbuf β) : Event β → Prop
  | .addbytes d => d.length ≤ c.space
  | .rembytes n | .copyout n => n ≤ c.size
  | .unrembytes n => n ≤ c.space

theorem step_of_within {c : Cbuf β} {q : ByteQueue β} (h : Refines c q) {e : Event β}
    (he : Within c e) : ∃ c', c.step e = some c' := by
  cases e with
  | addbytes d =>
    have he : d.length ≤ c.space := he
    simp only [step, addbytes]
    split
    · exact ⟨_, rfl⟩
    · split
      · rename_i hlt
        exact absurd hlt (not_lt.mpr he)
      · exact ⟨_, rfl⟩
  | rembytes n =>
    obtain ⟨c', -, hc'⟩ := h.copyout he
    exact ⟨c', hc'⟩
  | unrembytes n =>
    have he : n ≤ c.space := he
    simp only [step, unrembytes]
    split
    · exact ⟨_, rfl⟩
    · rw [if_neg (not_lt.mpr he)]
      exact ⟨_, rfl⟩
  | copyout n =>
    obtain ⟨c', hc', -⟩ := h.copyout he
    exact ⟨c', by simp [step, hc']⟩

/-- What a buffer shows of the queue it stands for. -/
structure Shows (c : Cbuf β) (q : ByteQueue β) : Prop where
  size : c.size = q.held.length
  space : c.size + c.space = c.buflen
  at' : ∀ i, c.at' i = q.held[i]?
  copyout : ∀ n ≤ c.size, ∃ c', c.copyout n = some (q.held.take n, c') ∧ c.rembytes n = some c'
  outiov : (cells (c.outiov.take c.outiovcnt)).map c.buf = q.held
  iniov : (cells (c.outiov.take c.outiovcnt) ++ cells (c.iniov.take c.iniovcnt)).Perm
    (List.range c.buflen)
  /-- Bytes that are written through `iniov` and added are the next ones of the queue. -/
  within : ∀ e, Within c e → ∃ c', c.step e = some c'

theorem Refines.shows {c : Cbuf β} {q : ByteQueue β} (h : Refines c q) : Shows c q where
  size := h.length_held.symm
  space := h.size_add_space
  at' := h.at'_eq
  copyout _ hn := h.copyout hn
  outiov := by
    rw [h.cells_outiov, h.held_eq]
    simp [window, Function.comp_def]
  iniov := h.cells_perm
  within _ he := step_of_within h he

theorem refines_run {mem : ℕ → β} {n : ℕ} {es : List (Event β)} {c : Cbuf β}
    (hrun : Run step (fun _ _ => True) (new mem n) es c) : Refines c (ByteQueue.after mem n es) := by
  induction hrun with
  | nil => exact .new mem n
  | snoc _ _ hs ih =>
    rw [ByteQueue.after, List.foldl_append]
    exact ih.step hs

theorem buflen_rembytes {c c' : Cbuf β} {n : ℕ} (hs : c.rembytes n = some c') :
    c'.buflen = c.buflen := by
  unfold rembytes at hs
  split at hs
  · exact Option.some.inj hs ▸ rfl
  · split at hs
    · cases hs
    · exact Option.some.inj hs ▸ rfl

theorem buflen_step {c c' : Cbuf β} {e : Event β} (hs : c.step e = some c') :
    c'.buflen = c.buflen := by
  cases e with
  | addbytes d =>
    simp only [step, addbytes] at hs
    split at hs
    · exact Option.some.inj hs ▸ rfl
    · split at hs
      · cases hs
      · exact Option.some.inj hs ▸ rfl
  | rembytes n => exact buflen_rembytes hs
  | unrembytes n =>
    simp only [step, unrembytes] at hs
    split at hs
    · exact Option.some.inj hs ▸ rfl
    · split at hs
      · cases hs
      · exact Option.some.inj hs ▸ rfl
  | copyout n =>
    simp only [step, copyout] at hs
    split at hs
    · cases hs
    · rw [Option.map_map, Option.map_eq_some_iff] at hs
      obtain ⟨c₁, hc₁, rfl⟩ := hs
      exact buflen_rembytes hc₁

theorem buflen_run {mem : ℕ → β} {n : ℕ} {es : List (Event β)} {c : Cbuf β}
    (hrun : Run step (fun _ _ => True) (new mem n) es c) : c.buflen = n :=
  hrun.invariant (I := fun c => c.buflen = n) rfl fun _ _ _ ha _ hs => (buflen_step hs).trans ha

theorem toInt_eq_iff {i : ℕ} : toInt i = i ↔ i < 2 ^ 31 := by
  unfold toInt
  constructor
  · intro h
    have hlt : (i : ℤ).bmod (2 ^ 32) < ((2 ^ 32 : ℕ) + 1) / 2 := Int.bmod_lt (by decide)
    rw [h] at hlt
    omega
  · intro h
    exact Int.bmod_eq_of_le (by omega) (by omega)

variable [DecidableEq β]

/-- In every run of a buffer of any length all that the buffer shows is that of the queue,
where `find` has the place of a byte if and only if that place is below `2 ^ 31`. -/
theorem cbuf_run {mem : ℕ → β} {n : ℕ} {es : List (Event β)} {c : Cbuf β}
    (hrun : Run step (fun _ _ => True) (new mem n) es c) :
    c.buflen = n ∧ Shows c (ByteQueue.after mem n es) ∧
      ∀ ch, c.find ch = (match (ByteQueue.after mem n es).held.idxOf? ch with
          | some i => (i : ℤ)
          | none => -1) ↔
        ∀ i, (ByteQueue.after mem n es).held.idxOf? ch = some i → i < 2 ^ 31 := by
  have h := refines_run hrun
  refine ⟨buflen_run hrun, h.shows, fun ch => ?_⟩
  rw [h.find_eq]
  cases (ByteQueue.after mem n es).held.idxOf? ch with
  | none => simp
  | some i => simpa using toInt_eq_iff

/-- Bytes wrap around the end of a buffer of four. -/
theorem cbuf_run_four :
    ∃ c : Cbuf ℕ, c.buflen = 4 ∧ Shows c ⟨[0, 0, 0, 0, 1, 2, 3, 4, 5], 6⟩ ∧ c.start = 2 ∧
      c.endPos = 1 := by
  have hrun : Run step (fun _ _ => True) (new (fun _ => 0) 4)
      [.addbytes [1, 2, 3], .rembytes 2, .addbytes [4, 5]] _ :=
    .cons trivial rfl (.cons trivial rfl (.cons trivial rfl (.nil _)))
  exact ⟨_, rfl, (cbuf_run hrun).2.1, rfl, rfl⟩

theorem find_behind (k : ℕ) :
    ∃ c : Cbuf ℕ, Run step (fun _ _ => True) (new (fun _ => 0) (k + 1))
        [.addbytes (List.replicate k 0 ++ [1])] c ∧
      c.at' k = some 1 ∧ c.find 1 = toInt k := by
  obtain ⟨c, hc⟩ := step_of_within (Refines.new (fun _ => 0) (k + 1))
    (e := .addbytes (List.replicate k 0 ++ [1])) (by simp [Within, new, space])
  have hrun : Run step (fun _ _ => True) (new (fun _ => 0) (k + 1))
      [.addbytes (List.replicate k 0 ++ [1])] c := .cons trivial hc (.nil _)
  have h := refines_run hrun
  have hheld : (ByteQueue.after (fun _ => 0) (k + 1)
      [.addbytes (List.replicate k 0 ++ [1])]).held = List.replicate k 0 ++ [1] := by
    simp [ByteQueue.after, ByteQueue.step, ByteQueue.held]
  have hidx : (List.replicate k 0 ++ [1]).idxOf? 1 = some k := by
    rw [List.idxOf?_eq_some_iff]
    refine ⟨by simp, by simp, fun j hj => ?_⟩
    simp [hj]
  refine ⟨c, hrun, ?_, ?_⟩
  · rw [h.at'_eq, hheld]
    simp
  · rw [h.find_eq, hheld, hidx]

/-- A byte behind `2 ^ 31` others is found at a negative place. -/
theorem cbuf_find_negative :
    ∃ c : Cbuf ℕ, Run step (fun _ _ => True) (new (fun _ => 0) (2 ^ 31 + 1))
        [.addbytes (List.replicate (2 ^ 31) 0 ++ [1])] c ∧
      c.at' (2 ^ 31) = some 1 ∧ c.find 1 = -2 ^ 31 :=
  find_behind (2 ^ 31)

end Sfslite.Async.Cbuf
