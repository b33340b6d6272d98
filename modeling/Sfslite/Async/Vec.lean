import Sfslite.Lib.Slots
import Mathlib.Data.List.Induction
import Sfslite.Arpc.XdrRoundTrip

/-!
`vec.h`: a vector with room in front of its elements and behind them. Addresses are natural numbers
and null is zero. An access to memory that is not there answers `none`, as a failed assertion does.

A slide to `basep` only happens when the gap in front of the elements is longer than the elements
are, so an element moves to a slot that no other one touches.
-/

namespace Sfslite.Async

open Sfslite.Lib

variable {α : Type}

/-- The element type `T` of `vec<T, N>`, with what its default constructor makes, the address of
`defbuf_space`, the answer of `_vec_obj_id` and the resizer that the program set. -/
structure VecType (α : Type) where
  sizeof : ℕ
  sizeof_pos : 0 < sizeof
  fresh : α
  N : ℕ
  defBasep : ℕ
  null : N = 0 ↔ defBasep = 0
  objId : ℤ
  resizer : Option (BitVec 32 → BitVec 32 → ℤ → BitVec 64)

/-- `mem` gives the elements constructed, and `blocks` the memory there is for them: address and
bytes of each block. -/
structure Vec (α : Type) where
  basep : ℕ
  firstp : ℕ
  lastp : ℕ
  limp : ℕ
  mem : ℕ → Option α
  blocks : List (ℕ × ℕ)

/-- `vec_resize_fn`. -/
def VecType.vecResizeFn (T : VecType α) (nalloc nwanted : ℕ) : Option ℕ :=
  match T.resizer with
  | some resize =>
    some (resize (BitVec.ofNat 32 nalloc) (BitVec.ofNat 32 nwanted) T.objId).toNat
  | none => Arpc.vecResizeFn nalloc nwanted

namespace Vec

variable (T : VecType α)

def defLimp : ℕ := T.defBasep + T.N * T.sizeof

def init : Vec α where
  basep := T.defBasep
  firstp := T.defBasep
  lastp := T.defBasep
  limp := defLimp T
  mem _ := none
  blocks := if T.N = 0 then [] else [(T.defBasep, T.N * T.sizeof)]

/-- `txmalloc`, which answers with `bytes` bytes at `a`. -/
def txmalloc (v : Vec α) (a bytes : ℕ) : Vec α := { v with blocks := (a, bytes) :: v.blocks }

def bfree (v : Vec α) (p : ℕ) : Option (Vec α) :=
  if p = T.defBasep then some v
  else if ∃ b ∈ v.blocks, b.1 = p then
    some { v with blocks := v.blocks.filter fun b => b.1 ≠ p }
  else none

/-- `construct` and `cconstruct`, on a slot in a block that no element has. -/
def construct (v : Vec α) (p : ℕ) (x : α) : Option (Vec α) :=
  if (∃ b ∈ v.blocks, b.1 ≤ p ∧ p + T.sizeof ≤ b.1 + b.2) ∧ Vacant T.sizeof v.mem p then
    some { v with mem := Function.update v.mem p (some x) }
  else none

def destroy (v : Vec α) (p : ℕ) : Option (Vec α) :=
  if (v.mem p).isSome then some { v with mem := Function.update v.mem p none } else none

/-- The loop of `move` from `src` on. -/
def moveLoop (lastp src dst : ℕ) (v : Vec α) : Option (Vec α) :=
  if src < lastp then do
    let x ← v.mem src
    let v ← v.construct T dst x
    let v ← v.destroy src
    moveLoop lastp (src + T.sizeof) (dst + T.sizeof) v
  else some v
termination_by lastp - src
decreasing_by
  have hpos := T.sizeof_pos
  omega

def move (v : Vec α) (dst : ℕ) : Option (Vec α) :=
  if dst = v.firstp then some v
  -- assert (dst < firstp || dst >= lastp)
  else if dst < v.firstp ∨ v.lastp ≤ dst then do
    let v' ← moveLoop T v.lastp v.firstp dst { v with basep := dst }
    let nElem := (v.lastp - v.firstp) / T.sizeof
    return { v' with firstp := v'.basep, lastp := v'.basep + nElem * T.sizeof }
  else none

def size (v : Vec α) : ℕ := (v.lastp - v.firstp) / T.sizeof

/-- `operator[]`. -/
def index (v : Vec α) (i : ℕ) : Option α := v.mem (v.firstp + i * T.sizeof)

/-- The elements that there is memory for, those in front of `firstp` included. -/
def nalloc (v : Vec α) : ℕ := (v.limp - v.basep) / T.sizeof

/-- `reserve`; a new block is at `a`. -/
def reserve (v : Vec α) (n a : ℕ) : Option (Vec α) :=
  if v.lastp + n * T.sizeof ≤ v.limp then some v
  else
    let nwanted := v.size T + n
    if v.nalloc T / 2 < nwanted then do
      let nalloc ← T.vecResizeFn (v.nalloc T) nwanted
      let obasep := v.basep
      let v ← (v.txmalloc a (nalloc * T.sizeof % 2 ^ 64)).move T a
      bfree T { v with limp := v.basep + nalloc * T.sizeof } obasep
    else v.move T v.basep

/-- The loop of `setsize` from `sp` on. -/
def constructLoop (lastp sp : ℕ) (v : Vec α) : Option (Vec α) :=
  if sp < lastp then do
    let v ← v.construct T sp T.fresh
    constructLoop lastp (sp + T.sizeof) v
  else some v
termination_by lastp - sp
decreasing_by
  have hpos := T.sizeof_pos
  omega

/-- The loop of `popn_back` from `sp` down. -/
def destroyBack (lastp sp : ℕ) (v : Vec α) : Option (Vec α) :=
  if lastp < sp then do
    let v ← v.destroy (sp - T.sizeof)
    destroyBack lastp (sp - T.sizeof) v
  else some v
termination_by sp
decreasing_by
  have hpos := T.sizeof_pos
  omega

def popnBack (v : Vec α) (n : ℕ) : Option (Vec α) :=
  let lastp := v.lastp - n * T.sizeof
  destroyBack T lastp v.lastp { v with lastp }

/-- The loop of `popn_front` from `sp` on. -/
def destroyFront (firstp sp : ℕ) (v : Vec α) : Option (Vec α) :=
  if sp < firstp then do
    let v ← v.destroy sp
    destroyFront firstp (sp + T.sizeof) v
  else some v
termination_by firstp - sp
decreasing_by
  have hpos := T.sizeof_pos
  omega

def popnFront (v : Vec α) (n : ℕ) : Option (Vec α) :=
  let firstp := v.firstp + n * T.sizeof
  destroyFront T firstp v.firstp { v with firstp }

def setsize (v : Vec α) (n a : ℕ) : Option (Vec α) :=
  let s := v.size T
  if n < s then v.popnBack T (s - n)
  else if n - s ≠ 0 then do
    let v ← v.reserve T (n - s) a
    let lastp := v.lastp + (n - s) * T.sizeof
    constructLoop T lastp v.lastp { v with lastp }
  else some v

/-- `push_back (e)`: `e` is read when the room is there. -/
def pushBack (v : Vec α) (e : Vec α → Option α) (a : ℕ) : Option (Vec α) := do
  let v ← v.reserve T 1 a
  let x ← e v
  let v' ← v.construct T v.lastp x
  return { v' with lastp := v.lastp + T.sizeof }

def popBack (v : Vec α) : Option (Vec α × α) := do
  let lastp := v.lastp - T.sizeof
  let x ← v.mem lastp
  let v ← v.destroy lastp
  return ({ v with lastp }, x)

def popFront (v : Vec α) : Option (Vec α × α) := do
  let x ← v.mem v.firstp
  let v' ← v.destroy v.firstp
  return ({ v' with firstp := v.firstp + T.sizeof }, x)

/-- The calls; `a` is where `txmalloc` finds a new block, should the call ask for one.
`pushBackOwn i` pushes the element `i` of the vector itself, by reference. -/
inductive Op (α : Type) where
  | pushBack (x : α) (a : ℕ)
  | pushBackOwn (i a : ℕ)
  | pushBackNew (a : ℕ)
  | popBack
  | popFront
  | popnFront (n : ℕ)
  | setsize (n a : ℕ)
  | reserve (n a : ℕ)
deriving DecidableEq, Repr

/-- A call: the vector after it, and the element it answers if it answers one. -/
def step (v : Vec α) : Op α → Option (Vec α × Option α)
  | .pushBack x a => (v.pushBack T (fun _ => some x) a).map (·, none)
  | .pushBackOwn i a =>
    let e := v.firstp + i * T.sizeof
    (v.pushBack T (·.mem e) a).map (·, none)
  | .pushBackNew a => (v.pushBack T (fun _ => some T.fresh) a).map (·, none)
  | .popBack => (v.popBack T).map fun r => (r.1, some r.2)
  | .popFront => (v.popFront T).map fun r => (r.1, some r.2)
  | .popnFront n => (v.popnFront T n).map (·, none)
  | .setsize n a => (v.setsize T n a).map (·, none)
  | .reserve n a => (v.reserve T n a).map (·, none)

def run (v : Vec α) : List (Op α) → Option (Vec α × List (Option α))
  | [] => some (v, [])
  | op :: ops => do
      let (v, x) ← v.step T op
      let (v, xs) ← v.run ops
      return (v, x :: xs)

end Vec

namespace Vec

variable {T : VecType α} {v v' : Vec α} {f c n a p d s : ℕ} {l xs ys : List α} {x : α}

/-- The vector holds the elements `l`, `f` slots behind `basep`, with room for `c` elements. -/
structure Holds (T : VecType α) (v : Vec α) (f c : ℕ) (l : List α) : Prop where
  firstp : v.firstp = v.basep + f * T.sizeof
  lastp : v.lastp = v.firstp + l.length * T.sizeof
  limp : v.limp = v.basep + c * T.sizeof
  room : f + l.length ≤ c
  mem : v.mem = slots T.sizeof v.firstp l
  live : 0 < c → (v.basep, c * T.sizeof) ∈ v.blocks
  owned : v.basep = T.defBasep ∨ 0 < c
  buffer : T.N ≠ 0 → (T.defBasep, T.N * T.sizeof) ∈ v.blocks

theorem holds_init (T : VecType α) : Holds T (init T) 0 T.N [] where
  firstp := by simp [init]
  lastp := by simp [init]
  limp := by simp [init, defLimp]
  room := by simp
  mem := by simp [init]
  live hN := by simp [init, Nat.pos_iff_ne_zero.mp hN]
  owned := .inl rfl
  buffer hN := by simp [init, hN]

theorem Holds.size (h : Holds T v f c l) : v.size T = l.length := by
  rw [Vec.size, h.lastp, Nat.add_sub_cancel_left, Nat.mul_div_cancel _ T.sizeof_pos]

theorem Holds.nalloc (h : Holds T v f c l) : v.nalloc T = c := by
  rw [Vec.nalloc, h.limp, Nat.add_sub_cancel_left, Nat.mul_div_cancel _ T.sizeof_pos]

theorem Holds.index (h : Holds T v f c l) (i : ℕ) : v.index T i = l[i]? := by
  rw [Vec.index, h.mem, slots_at T.sizeof_pos]

theorem Holds.ordered (h : Holds T v f c l) :
    v.basep ≤ v.firstp ∧ v.firstp ≤ v.lastp ∧ v.lastp ≤ v.limp := by
  have hroom := Nat.mul_le_mul_right T.sizeof h.room
  rw [Nat.add_mul] at hroom
  have hfirst := h.firstp
  have hlast := h.lastp
  have hlim := h.limp
  omega

/-- Room for `n` more elements, by the comparison that `reserve` makes. -/
theorem Holds.behind (h : Holds T v f c l) (n : ℕ) :
    v.lastp + n * T.sizeof ≤ v.limp ↔ f + l.length + n ≤ c := by
  rw [h.lastp, h.firstp, h.limp, Nat.add_assoc, Nat.add_assoc, Nat.add_le_add_iff_left,
    ← Nat.add_mul, ← Nat.add_mul, Nat.mul_le_mul_right_iff T.sizeof_pos, Nat.add_assoc]

variable {b : ℕ × ℕ}

theorem construct_eq (hb : b ∈ v.blocks) (hle : b.1 ≤ p)
    (hlim : p + T.sizeof ≤ b.1 + b.2) (hfree : Vacant T.sizeof v.mem p) :
    v.construct T p x = some { v with mem := Function.update v.mem p (some x) } :=
  if_pos ⟨⟨b, hb, hle, hlim⟩, hfree⟩

theorem destroy_eq (h : v.mem p = some x) :
    v.destroy p = some { v with mem := Function.update v.mem p none } := by
  have hsome : (v.mem p).isSome := by simp [h]
  exact if_pos hsome

theorem moveLoop_turn (hb : b ∈ v.blocks) (hle : b.1 ≤ d)
    (hlim : d + ys.length * T.sizeof + T.sizeof ≤ b.1 + b.2)
    (hsep : d + ys.length * T.sizeof + T.sizeof ≤ s ∨ s + (x :: xs).length * T.sizeof ≤ d)
    (hmem : v.mem = overlay (slots T.sizeof d ys) (slots T.sizeof s (x :: xs))) :
    v.mem s = some x ∧ ∃ v₁, v.construct T (d + ys.length * T.sizeof) x = some v₁ ∧
      v₁.destroy s = some { v with
        mem := overlay (slots T.sizeof d (ys ++ [x])) (slots T.sizeof (s + T.sizeof) xs) } := by
  have hpos := T.sizeof_pos
  have hlen := bytes_cons x xs T.sizeof
  rw [hlen] at hsep
  have hfree : Vacant T.sizeof v.mem (d + ys.length * T.sizeof) := by
    rw [hmem]
    apply Vacant.overlay
    · exact vacant_slots hpos (.inr (Nat.le_refl _))
    · apply vacant_slots hpos
      rw [hlen]
      omega
  have hnone : slots T.sizeof d (ys ++ [x]) s = none := by
    by_contra hne
    have hrange := slots_range hpos hne
    rw [bytes_concat] at hrange
    omega
  have hmem₁ : Function.update v.mem (d + ys.length * T.sizeof) (some x) =
      overlay (slots T.sizeof d (ys ++ [x])) (slots T.sizeof s (x :: xs)) := by
    rw [hmem, overlay_write, slots_append hpos]
  have hread₁ : Function.update v.mem (d + ys.length * T.sizeof) (some x) s = some x := by
    have hx := slots_at (p := s) (l := x :: xs) hpos 0
    rw [Nat.zero_mul, Nat.add_zero, List.getElem?_cons_zero] at hx
    rw [hmem₁, overlay, hnone, hx, Option.none_or]
  have hread : v.mem s = some x := by
    rwa [Function.update_of_ne (by omega)] at hread₁
  refine ⟨hread, _, construct_eq hb (by omega) hlim hfree, ?_⟩
  rw [destroy_eq hread₁, hmem₁, overlay_erase hnone, slots_erase_first hpos]

theorem moveLoop_spec (xs : List α) (hb : b ∈ v.blocks) (hle : b.1 ≤ d)
    (hlim : d + ys.length * T.sizeof + xs.length * T.sizeof ≤ b.1 + b.2)
    (hsep : d + ys.length * T.sizeof + xs.length * T.sizeof ≤ s ∨ s + xs.length * T.sizeof ≤ d)
    (hmem : v.mem = overlay (slots T.sizeof d ys) (slots T.sizeof s xs)) :
    moveLoop T (s + xs.length * T.sizeof) s (d + ys.length * T.sizeof) v =
      some { v with mem := slots T.sizeof d (ys ++ xs) } := by
  induction xs generalizing v s ys with
  | nil =>
    rw [slots_nil, overlay_none] at hmem
    rw [moveLoop, if_neg (by simp), List.append_nil, ← hmem]
  | cons x xs ih =>
    have hpos := T.sizeof_pos
    have hlen := bytes_cons x xs T.sizeof
    have hlen' := bytes_concat ys x T.sizeof
    obtain ⟨hread, v₁, hcons, hdes⟩ := moveLoop_turn hb hle (by omega) (by omega) hmem
    have hnext : moveLoop T (s + T.sizeof + xs.length * T.sizeof) (s + T.sizeof)
        (d + (ys ++ [x]).length * T.sizeof) { v with
          mem := overlay (slots T.sizeof d (ys ++ [x])) (slots T.sizeof (s + T.sizeof) xs) } =
        some { v with mem := slots T.sizeof d (ys ++ [x] ++ xs) } :=
      ih hb (by omega) (by omega) rfl
    rw [hlen', List.append_assoc, List.singleton_append, ← Nat.add_assoc] at hnext
    rw [moveLoop, if_pos (by omega), hread]
    simp only [Option.bind_eq_bind, Option.bind_some, hcons, hdes]
    rw [hlen, ← Nat.add_assoc]
    exact hnext

theorem moveLoop_all (hb : b ∈ v.blocks) (hle : b.1 ≤ d)
    (hlim : d + l.length * T.sizeof ≤ b.1 + b.2)
    (hsep : d + l.length * T.sizeof ≤ s ∨ s + l.length * T.sizeof ≤ d)
    (hmem : v.mem = slots T.sizeof s l) :
    moveLoop T (s + l.length * T.sizeof) s d v = some { v with mem := slots T.sizeof d l } := by
  have hspec : moveLoop T (s + l.length * T.sizeof) s
      (d + ([] : List α).length * T.sizeof) v =
      some { v with mem := slots T.sizeof d ([] ++ l) } :=
    moveLoop_spec l hb hle (by simpa using hlim) (by simpa using hsep) (by simpa using hmem)
  rwa [List.length_nil, Nat.zero_mul, Nat.add_zero, List.nil_append] at hspec

theorem constructLoop_spec (k : ℕ) (hb : b ∈ v.blocks) (hle : b.1 ≤ p)
    (hlim : p + l.length * T.sizeof + k * T.sizeof ≤ b.1 + b.2)
    (hmem : v.mem = slots T.sizeof p l) :
    constructLoop T (p + l.length * T.sizeof + k * T.sizeof) (p + l.length * T.sizeof) v =
      some { v with mem := slots T.sizeof p (l ++ List.replicate k T.fresh) } := by
  induction k generalizing v l with
  | zero => rw [constructLoop, if_neg (by simp), List.replicate_zero, List.append_nil, ← hmem]
  | succ k ih =>
    have hpos := T.sizeof_pos
    have hlen := bytes_concat l T.fresh T.sizeof
    rw [Nat.add_mul, Nat.one_mul] at hlim ⊢
    have hfree : Vacant T.sizeof v.mem (p + l.length * T.sizeof) := by
      rw [hmem]
      exact vacant_slots hpos (.inr (Nat.le_refl _))
    have hnext := ih (v := { v with mem := slots T.sizeof p (l ++ [T.fresh]) })
      (l := l ++ [T.fresh]) hb (by omega) rfl
    rw [hlen, List.append_assoc, List.singleton_append, ← List.replicate_succ,
      ← Nat.add_assoc] at hnext
    rw [constructLoop, if_pos (by omega), construct_eq hb (by omega) (by omega) hfree, hmem,
      slots_append hpos, Nat.add_comm (k * T.sizeof), ← Nat.add_assoc]
    exact hnext

theorem destroyFront_spec (xs : List α) (hmem : v.mem = slots T.sizeof p (xs ++ l)) :
    destroyFront T (p + xs.length * T.sizeof) p v =
      some { v with mem := slots T.sizeof (p + xs.length * T.sizeof) l } := by
  induction xs generalizing v p with
  | nil =>
    rw [List.nil_append] at hmem
    rw [destroyFront, if_neg (by simp), List.length_nil, Nat.zero_mul, Nat.add_zero, ← hmem]
  | cons x xs ih =>
    have hpos := T.sizeof_pos
    have hlen := bytes_cons x xs T.sizeof
    have hread : v.mem p = some x := by
      have hx := slots_at (p := p) (l := x :: xs ++ l) hpos 0
      rwa [Nat.zero_mul, Nat.add_zero, ← hmem] at hx
    have hnext := ih (v := { v with mem := slots T.sizeof (p + T.sizeof) (xs ++ l) }) rfl
    rw [destroyFront, if_pos (by omega), destroy_eq hread, hmem, List.cons_append,
      slots_erase_first hpos, hlen, ← Nat.add_assoc]
    exact hnext

theorem destroyBack_spec (xs : List α) (hmem : v.mem = slots T.sizeof p (l ++ xs)) :
    destroyBack T (p + l.length * T.sizeof) (p + (l ++ xs).length * T.sizeof) v =
      some { v with mem := slots T.sizeof p l } := by
  induction xs using List.reverseRecOn generalizing v with
  | nil =>
    rw [List.append_nil] at hmem ⊢
    rw [destroyBack, if_neg (Nat.lt_irrefl _), ← hmem]
  | append_singleton xs x ih =>
    have hpos := T.sizeof_pos
    rw [← List.append_assoc] at hmem ⊢
    have hlen := bytes_concat (l ++ xs) x T.sizeof
    have hle : l.length * T.sizeof ≤ (l ++ xs).length * T.sizeof := by
      apply Nat.mul_le_mul_right
      rw [List.length_append]
      exact Nat.le_add_right _ _
    have hread : v.mem (p + (l ++ xs).length * T.sizeof) = some x := by
      rw [hmem, slots_at hpos, List.getElem?_append_right (Nat.le_refl _), Nat.sub_self]
      rfl
    have hnext := ih (v := { v with mem := slots T.sizeof p (l ++ xs) }) rfl
    rw [destroyBack, hlen, ← Nat.add_assoc, if_pos (by omega), Nat.add_sub_cancel,
      destroy_eq hread, hmem, slots_erase_last hpos]
    exact hnext

theorem move_eq (hne : d ≠ v.firstp) (hle : d < v.firstp ∨ v.lastp ≤ d)
    (hloop : moveLoop T v.lastp v.firstp d { v with basep := d } =
      some { v with basep := d, mem := slots T.sizeof d l })
    (hsize : v.size T = l.length) :
    v.move T d = some { v with
      basep := d
      firstp := d
      lastp := d + l.length * T.sizeof
      mem := slots T.sizeof d l } := by
  rw [move, if_neg hne, if_pos hle, hloop, ← hsize]
  rfl

/-- The elements slide down to `basep`. The gap in front of them is the longer one. -/
theorem Holds.slide (h : Holds T v f c l) (hgap : l.length < f) :
    ∃ v', v.move T v.basep = some v' ∧ Holds T v' 0 c l := by
  have hpos := T.sizeof_pos
  have hgap' : (l.length + 1) * T.sizeof ≤ f * T.sizeof := Nat.mul_le_mul_right _ hgap
  have hroom := Nat.mul_le_mul_right T.sizeof h.room
  rw [Nat.add_mul] at hroom
  rw [Nat.add_mul, Nat.one_mul] at hgap'
  have hfirst := h.firstp
  have hcap := h.room
  have hloop := moveLoop_all (T := T) (v := { v with basep := v.basep }) (d := v.basep)
    (s := v.firstp) (h.live (by omega)) (Nat.le_refl _) (by simp only; omega) (by omega) h.mem
  rw [← h.lastp] at hloop
  refine ⟨_, move_eq (by omega) (by omega) hloop h.size, ?_⟩
  exact
    { firstp := by simp
      lastp := rfl
      limp := h.limp
      room := by have := h.room; omega
      mem := rfl
      live := h.live
      owned := h.owned
      buffer := h.buffer }

/-- What `txmalloc` answers with: memory that is not in use. -/
def FreshBlock (v : Vec α) (a bytes : ℕ) : Prop :=
  a ≠ 0 ∧ ∀ b ∈ v.blocks, a + bytes ≤ b.1 ∨ b.1 + b.2 ≤ a

instance (v : Vec α) (a bytes : ℕ) : Decidable (v.FreshBlock a bytes) :=
  inferInstanceAs (Decidable (a ≠ 0 ∧ ∀ b ∈ v.blocks, a + bytes ≤ b.1 ∨ b.1 + b.2 ≤ a))

theorem Holds.grow {m : ℕ} (h : Holds T v f c l) (hm : l.length ≤ m) (hm₀ : 0 < m)
    (hfresh : v.FreshBlock a (m * T.sizeof)) (ha : a ≠ v.firstp) :
    ∃ v₁ v', (v.txmalloc a (m * T.sizeof)).move T a = some v₁ ∧
      bfree T { v₁ with limp := v₁.basep + m * T.sizeof } v.basep = some v' ∧
      Holds T v' 0 m l := by
  have hpos := T.sizeof_pos
  have hbytes : 0 < m * T.sizeof := Nat.mul_pos hm₀ hpos
  have hroom := Nat.mul_le_mul_right T.sizeof h.room
  have hlen := Nat.mul_le_mul_right T.sizeof hm
  rw [Nat.add_mul] at hroom
  have hfirst := h.firstp
  have hlast := h.lastp
  have hapart : a + m * T.sizeof ≤ v.basep ∨ v.basep + c * T.sizeof ≤ a ∨ c = 0 := by
    rcases Nat.eq_zero_or_pos c with hc | hc
    · exact .inr (.inr hc)
    · have hsep := hfresh.2 _ (h.live hc)
      simp only at hsep
      omega
  have hsep : a + l.length * T.sizeof ≤ v.firstp ∨ v.lastp ≤ a := by
    rcases hapart with hlow | hhigh | hc
    · left
      omega
    · right
      omega
    · have hnil : l.length = 0 := by
        have hcap := h.room
        omega
      rw [hnil, Nat.zero_mul] at hlast ⊢
      omega
  have hne : v.basep ≠ T.defBasep → a ≠ v.basep := by
    intro hdef heq
    have hc := h.owned.resolve_left hdef
    have hbytes' := Nat.mul_pos hc hpos
    omega
  have hne' : a ≠ T.defBasep := by
    intro heq
    rcases Nat.eq_zero_or_pos T.N with hN | hN
    · exact hfresh.1 (heq.trans (T.null.mp hN))
    · have hbytes' := Nat.mul_pos hN hpos
      have hdis := hfresh.2 _ (h.buffer (by omega))
      simp only at hdis
      omega
  have hloop := moveLoop_all (T := T)
    (v := { v.txmalloc a (m * T.sizeof) with basep := a }) (d := a) (s := v.firstp)
    (b := (a, m * T.sizeof)) (List.mem_cons_self ..) (Nat.le_refl _) (by simp only; omega)
    (by omega) h.mem
  rw [← h.lastp] at hloop
  refine ⟨_, { v with
    basep := a
    firstp := a
    lastp := a + l.length * T.sizeof
    limp := a + m * T.sizeof
    mem := slots T.sizeof a l
    blocks := if v.basep = T.defBasep then (a, m * T.sizeof) :: v.blocks
      else (a, m * T.sizeof) :: v.blocks.filter fun b => b.1 ≠ v.basep },
    move_eq ha (by simp [txmalloc]; omega) hloop h.size, ?_, ?_⟩
  · rw [bfree]
    split_ifs with hdef hblk
    · rfl
    · simp [txmalloc, hne hdef]
    · have hc := h.owned.resolve_left hdef
      exact absurd ⟨_, List.mem_cons_of_mem _ (h.live hc), rfl⟩ hblk
  · exact
      { firstp := by simp
        lastp := rfl
        limp := rfl
        room := by omega
        mem := rfl
        live := fun _ => by
          simp only
          split_ifs <;> exact List.mem_cons_self ..
        owned := .inr hm₀
        buffer := fun hN => by
          simp only
          split_ifs with hdef
          · exact List.mem_cons_of_mem _ (h.buffer hN)
          · apply List.mem_cons_of_mem
            rw [List.mem_filter]
            exact ⟨h.buffer hN, by simpa using Ne.symm hdef⟩ }

end Vec

end Sfslite.Async
