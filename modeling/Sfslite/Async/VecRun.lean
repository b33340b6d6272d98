import Sfslite.Async.Vec

/-!
A run of calls on a `vec` and on the sequence of its elements. Every call answers as the sequence
does, as long as a vector that grows gets enough memory, in a block that does not start where the
elements do.
-/

namespace Sfslite.Async

open Sfslite.Lib

variable {α : Type}

namespace Vec

variable {T : VecType α} {v v' : Vec α} {f c n a : ℕ} {l xs : List α} {x : α}

/-- The resizer's answer is there and enough: the original one shifts an `int`, and a resizer of
the program must answer what is wanted. -/
def ResizeOk (T : VecType α) (nalloc nwanted : ℕ) : Prop :=
  match T.resizer with
  | some resize =>
    nwanted ≤ (resize (BitVec.ofNat 32 nalloc) (BitVec.ofNat 32 nwanted) T.objId).toNat
  | none => nalloc < 2 ^ 30 ∧ nwanted < 2 ^ 30

theorem ResizeOk.enough {nalloc nwanted : ℕ} (h : ResizeOk T nalloc nwanted) :
    ∃ m, T.vecResizeFn nalloc nwanted = some m ∧ nwanted ≤ m := by
  unfold ResizeOk at h
  unfold VecType.vecResizeFn
  cases hres : T.resizer with
  | some resize =>
    rw [hres] at h
    exact ⟨_, rfl, h⟩
  | none =>
    rw [hres] at h
    obtain ⟨k, -, heq, -, hlt⟩ := Arpc.RpcVec.vecResizeFn_eq h.1 h.2
    exact ⟨_, heq, hlt.le⟩

instance (T : VecType α) (nalloc nwanted : ℕ) : Decidable (ResizeOk T nalloc nwanted) := by
  unfold ResizeOk
  split <;> infer_instance

/-- When `reserve n` grows the vector: the resizer's answer is enough, the bytes of the block fit
a `size_t`, and the block found at `a` is not in use and does not start where the elements do. -/
def Room (T : VecType α) (v : Vec α) (n a : ℕ) : Prop :=
  v.limp < v.lastp + n * T.sizeof → v.nalloc T / 2 < v.size T + n →
    ResizeOk T (v.nalloc T) (v.size T + n) ∧
      ∀ m ∈ T.vecResizeFn (v.nalloc T) (v.size T + n),
        m * T.sizeof < 2 ^ 64 ∧ v.FreshBlock a (m * T.sizeof) ∧ a ≠ v.firstp

instance (T : VecType α) (v : Vec α) (n a : ℕ) : Decidable (Room T v n a) := by
  unfold Room
  infer_instance

theorem Holds.reserve_cases (h : Holds T v f c l) (hroom : Room T v n a) :
    (f + l.length + n ≤ c ∧ v.reserve T n a = some v) ∨
      c < f + l.length + n ∧
        ((c / 2 < l.length + n ∧ ∃ m v', T.vecResizeFn c (l.length + n) = some m ∧
            l.length + n ≤ m ∧ v.reserve T n a = some v' ∧ Holds T v' 0 m l) ∨
          (l.length + n ≤ c / 2 ∧ ∃ v', v.reserve T n a = some v' ∧ Holds T v' 0 c l)) := by
  unfold Vec.reserve
  split_ifs with hbehind
  · exact .inl ⟨(h.behind n).mp hbehind, rfl⟩
  · right
    have hn := (h.behind n).not.mp hbehind
    refine ⟨Nat.lt_of_not_le hn, ?_⟩
    simp only
    split_ifs with hgrow
    · left
      obtain ⟨hres, hblock⟩ := hroom (Nat.lt_of_not_le hbehind) hgrow
      obtain ⟨m, heq, hm⟩ := hres.enough
      obtain ⟨hbytes, hfresh, ha⟩ := hblock m heq
      have hcap := h.room
      rw [h.size] at hm
      obtain ⟨v₁, v', hmove, hfree, hnew⟩ := h.grow (m := m) (by omega) (by omega) hfresh ha
      rw [heq]
      simp only [Option.bind_eq_bind, Option.bind_some, Nat.mod_eq_of_lt hbytes, hmove, hfree]
      rw [h.nalloc, h.size] at hgrow heq
      exact ⟨hgrow, m, v', heq, hm, rfl, hnew⟩
    · right
      rw [h.nalloc, h.size] at hgrow
      obtain ⟨v', hmove, hnew⟩ := h.slide (by omega)
      exact ⟨Nat.le_of_not_lt hgrow, v', hmove, hnew⟩

theorem Holds.reserve (h : Holds T v f c l) (hroom : Room T v n a) :
    ∃ v' f' c', v.reserve T n a = some v' ∧ Holds T v' f' c' l ∧ f' + l.length + n ≤ c' := by
  rcases h.reserve_cases hroom with ⟨hfit, heq⟩ | ⟨-, ⟨-, m, v', -, hm, heq, h'⟩ |
    ⟨hle, v', heq, h'⟩⟩
  · exact ⟨v, f, c, heq, h, hfit⟩
  · exact ⟨v', 0, m, heq, h', by omega⟩
  · exact ⟨v', 0, c, heq, h', by omega⟩

theorem reserve_of_le (h : v.lastp + n * T.sizeof ≤ v.limp) : v.reserve T n a = some v :=
  if_pos h

theorem Holds.construct (h : Holds T v f c l) (hroom : f + l.length + 1 ≤ c) (x : α) :
    ∃ v', v.construct T v.lastp x = some v' ∧
      Holds T { v' with lastp := v.lastp + T.sizeof } f c (l ++ [x]) := by
  have hpos := T.sizeof_pos
  have hlim := (h.behind 1).mpr hroom
  have hfirst := h.firstp
  have hlast := h.lastp
  rw [h.limp, Nat.one_mul] at hlim
  have hfree : Vacant T.sizeof v.mem v.lastp := by
    rw [h.mem, hlast]
    exact vacant_slots hpos (.inr (Nat.le_refl _))
  refine ⟨_, construct_eq (h.live (by omega)) ?_ hlim hfree, ?_⟩
  · simp only
    omega
  · exact
      { firstp := h.firstp
        lastp := by
          rw [bytes_concat]
          simp only
          omega
        limp := h.limp
        room := by
          rw [List.length_append]
          exact hroom
        mem := by
          simp only
          rw [h.mem, hlast, slots_append hpos]
        live := h.live
        owned := h.owned
        buffer := h.buffer }

theorem Holds.pushBack (h : Holds T v f c l) (hroom : Room T v 1 a) (x : α) :
    ∃ v' f' c', v.pushBack T (fun _ => some x) a = some v' ∧ Holds T v' f' c' (l ++ [x]) := by
  obtain ⟨v₁, f', c', hres, h₁, hcap⟩ := h.reserve hroom
  obtain ⟨v₂, hcons, h₂⟩ := h₁.construct hcap x
  refine ⟨_, f', c', ?_, h₂⟩
  simp only [Vec.pushBack, hres, Option.bind_eq_bind, Option.bind_some, hcons]
  rfl

theorem Holds.pushBack_own {i : ℕ} (h : Holds T v f c l) (hroom : v.lastp + T.sizeof ≤ v.limp)
    (hi : l[i]? = some x) :
    ∃ v', v.pushBack T (·.mem (v.firstp + i * T.sizeof)) a = some v' ∧
      Holds T v' f c (l ++ [x]) := by
  have hres : v.reserve T 1 a = some v := reserve_of_le (by rwa [Nat.one_mul])
  have hcap := (h.behind 1).mp (by rwa [Nat.one_mul])
  have hread : v.mem (v.firstp + i * T.sizeof) = some x := (h.index i).trans hi
  obtain ⟨v₂, hcons, h₂⟩ := h.construct hcap x
  refine ⟨_, ?_, h₂⟩
  simp only [Vec.pushBack, hres, Option.bind_eq_bind, Option.bind_some, hread, hcons]
  rfl

theorem Holds.popnFront (h : Holds T v f c (xs ++ l)) :
    ∃ v', v.popnFront T xs.length = some v' ∧ Holds T v' (f + xs.length) c l := by
  have hloop := destroyFront_spec (T := T)
    (v := { v with firstp := v.firstp + xs.length * T.sizeof }) xs h.mem
  refine ⟨_, hloop, ?_⟩
  have hfirst := h.firstp
  have hlast := h.lastp
  have hroom := h.room
  rw [List.length_append] at hlast hroom
  rw [Nat.add_mul] at hlast
  exact
    { firstp := by
        simp only [Nat.add_mul]
        omega
      lastp := by
        simp only
        omega
      limp := h.limp
      room := by omega
      mem := rfl
      live := h.live
      owned := h.owned
      buffer := h.buffer }

theorem Holds.popnBack (h : Holds T v f c (l ++ xs)) :
    ∃ v', v.popnBack T xs.length = some v' ∧ Holds T v' f c l := by
  have hlast := h.lastp
  have hroom := h.room
  have hcut : v.lastp - xs.length * T.sizeof = v.firstp + l.length * T.sizeof := by
    rw [hlast, List.length_append, Nat.add_mul]
    omega
  have hloop := destroyBack_spec (T := T)
    (v := { v with lastp := v.firstp + l.length * T.sizeof }) xs h.mem
  rw [← hlast] at hloop
  refine ⟨{ v with lastp := v.firstp + l.length * T.sizeof, mem := slots T.sizeof v.firstp l },
    ?_, ?_⟩
  · rw [Vec.popnBack, hcut]
    exact hloop
  · rw [List.length_append] at hroom
    exact
      { firstp := h.firstp
        lastp := rfl
        limp := h.limp
        room := by omega
        mem := rfl
        live := h.live
        owned := h.owned
        buffer := h.buffer }

theorem Holds.popBack (h : Holds T v f c (l ++ [x])) :
    ∃ v', v.popBack T = some (v', x) ∧ Holds T v' f c l := by
  have hpos := T.sizeof_pos
  have hlast : v.lastp - T.sizeof = v.firstp + l.length * T.sizeof := by
    rw [h.lastp, bytes_concat]
    omega
  have hread : v.mem (v.firstp + l.length * T.sizeof) = some x := by
    rw [h.mem, slots_at hpos, List.getElem?_append_right (Nat.le_refl _), Nat.sub_self]
    rfl
  have hroom := h.room
  rw [List.length_append] at hroom
  refine ⟨{ v with
    lastp := v.firstp + l.length * T.sizeof
    mem := Function.update v.mem (v.firstp + l.length * T.sizeof) none }, ?_, ?_⟩
  · simp only [Vec.popBack, hlast, hread, Option.bind_eq_bind, Option.bind_some,
      destroy_eq hread]
    rfl
  · exact
      { firstp := h.firstp
        lastp := rfl
        limp := h.limp
        room := by omega
        mem := by
          simp only
          rw [h.mem, slots_erase_last hpos]
        live := h.live
        owned := h.owned
        buffer := h.buffer }

theorem Holds.popFront (h : Holds T v f c (x :: l)) :
    ∃ v', v.popFront T = some (v', x) ∧ Holds T v' (f + 1) c l := by
  have hpos := T.sizeof_pos
  have hread : v.mem v.firstp = some x := by
    have hx := h.index 0
    rwa [Vec.index, Nat.zero_mul, Nat.add_zero] at hx
  have hfirst := h.firstp
  have hlast := h.lastp
  have hroom := h.room
  rw [bytes_cons] at hlast
  rw [List.length_cons] at hroom
  refine ⟨{ v with
    firstp := v.firstp + T.sizeof
    mem := Function.update v.mem v.firstp none }, ?_, ?_⟩
  · simp only [Vec.popFront, hread, Option.bind_eq_bind, Option.bind_some, destroy_eq hread]
    rfl
  · exact
      { firstp := by
          simp only [Nat.add_mul, Nat.one_mul]
          omega
        lastp := by
          simp only
          omega
        limp := h.limp
        room := by omega
        mem := by
          simp only
          rw [h.mem, slots_erase_first hpos]
        live := h.live
        owned := h.owned
        buffer := h.buffer }

theorem Holds.constructs (h : Holds T v f c l) {k : ℕ} (hk : 0 < k) (hroom : f + l.length + k ≤ c) :
    ∃ v', constructLoop T (v.lastp + k * T.sizeof) v.lastp
        { v with lastp := v.lastp + k * T.sizeof } = some v' ∧
      Holds T v' f c (l ++ List.replicate k T.fresh) := by
  have hlim := (h.behind k).mpr hroom
  have hfirst := h.firstp
  have hlast := h.lastp
  rw [h.limp] at hlim
  have hloop := constructLoop_spec (T := T)
    (v := { v with lastp := v.lastp + k * T.sizeof }) (l := l) k (h.live (by omega))
    (show v.basep ≤ v.firstp by omega) (by simp only; omega) h.mem
  rw [← hlast] at hloop
  refine ⟨_, hloop, ?_⟩
  exact
    { firstp := h.firstp
      lastp := by
        simp only [List.length_append, List.length_replicate, Nat.add_mul]
        omega
      limp := h.limp
      room := by
        rw [List.length_append, List.length_replicate]
        omega
      mem := rfl
      live := h.live
      owned := h.owned
      buffer := h.buffer }

theorem Holds.setsize (h : Holds T v f c l) (hroom : Room T v (n - v.size T) a) :
    ∃ v' f' c', v.setsize T n a = some v' ∧
      Holds T v' f' c' (l.take n ++ List.replicate (n - l.length) T.fresh) := by
  rw [h.size] at hroom
  unfold Vec.setsize
  simp only [h.size]
  split_ifs with hlt hne
  · have hcut : Holds T v f c (l.take n ++ l.drop n) := by rwa [List.take_append_drop]
    obtain ⟨v', hpop, h'⟩ := hcut.popnBack
    rw [List.length_drop] at hpop
    refine ⟨v', f, c, hpop, ?_⟩
    rwa [Nat.sub_eq_zero_of_le hlt.le, List.replicate_zero, List.append_nil]
  · obtain ⟨v₁, f', c', hres, h₁, hcap⟩ := h.reserve hroom
    obtain ⟨v', hloop, h'⟩ := h₁.constructs (Nat.pos_of_ne_zero hne) hcap
    refine ⟨v', f', c', ?_, ?_⟩
    · simp only [hres, Option.bind_eq_bind, Option.bind_some, hloop]
    · rwa [List.take_of_length_le (by omega)]
  · refine ⟨v, f, c, rfl, ?_⟩
    rw [not_not.mp hne, List.replicate_zero, List.append_nil,
      List.take_of_length_le (by omega)]
    exact h

/-- A call on the sequence of the elements, with its answer. -/
def Op.contents (T : VecType α) (l : List α) : Op α → Option (List α × Option α)
  | .pushBack x _ => some (l ++ [x], none)
  | .pushBackOwn i _ => l[i]?.map fun x => (l ++ [x], none)
  | .pushBackNew _ => some (l ++ [T.fresh], none)
  | .popBack => l.getLast?.map fun x => (l.dropLast, some x)
  | .popFront => l.head?.map fun x => (l.tail, some x)
  | .popnFront n => if n ≤ l.length then some (l.drop n, none) else none
  | .setsize n _ => some (l.take n ++ List.replicate (n - l.length) T.fresh, none)
  | .reserve _ _ => some (l, none)

def contentsRun (T : VecType α) (l : List α) : List (Op α) → Option (List α × List (Option α))
  | [] => some (l, [])
  | op :: ops => do
      let (l, x) ← op.contents T l
      let (l, xs) ← contentsRun T l ops
      return (l, x :: xs)

/-- A call that grows the vector finds the room, and one that pushes an element of the vector
itself has the room behind the elements. -/
def Op.Fits (T : VecType α) (v : Vec α) : Op α → Prop
  | .pushBack _ a | .pushBackNew a => Room T v 1 a
  | .pushBackOwn _ _ => v.lastp + T.sizeof ≤ v.limp
  | .popBack | .popFront | .popnFront _ => True
  | .setsize n a => Room T v (n - v.size T) a
  | .reserve n a => Room T v n a

/-- Every call of a run fits in the state that it finds. -/
def FitsRun (T : VecType α) (v : Vec α) : List (Op α) → Prop
  | [] => True
  | op :: ops => op.Fits T v ∧ ∀ r ∈ v.step T op, FitsRun T r.1 ops

instance (T : VecType α) (v : Vec α) : (op : Op α) → Decidable (op.Fits T v)
  | .pushBack _ a | .pushBackNew a => inferInstanceAs (Decidable (Room T v 1 a))
  | .pushBackOwn _ _ => inferInstanceAs (Decidable (v.lastp + T.sizeof ≤ v.limp))
  | .popBack | .popFront | .popnFront _ => inferInstanceAs (Decidable True)
  | .setsize n a => inferInstanceAs (Decidable (Room T v (n - v.size T) a))
  | .reserve n a => inferInstanceAs (Decidable (Room T v n a))

def decFitsRun (T : VecType α) (v : Vec α) : (ops : List (Op α)) → Decidable (FitsRun T v ops)
  | [] => inferInstanceAs (Decidable True)
  | op :: ops =>
    have : ∀ r : Vec α × Option α, Decidable (FitsRun T r.1 ops) := fun r => decFitsRun T r.1 ops
    inferInstanceAs (Decidable (op.Fits T v ∧ ∀ r ∈ v.step T op, FitsRun T r.1 ops))

instance (T : VecType α) (v : Vec α) (ops : List (Op α)) : Decidable (FitsRun T v ops) :=
  decFitsRun T v ops

theorem Holds.step {op : Op α} {l' : List α} {y : Option α} (h : Holds T v f c l)
    (hcall : op.contents T l = some (l', y)) (hfits : op.Fits T v) :
    ∃ v' f' c', v.step T op = some (v', y) ∧ Holds T v' f' c' l' := by
  cases op with
  | pushBack x a =>
    cases hcall
    obtain ⟨v', f', c', hpush, h'⟩ := h.pushBack hfits x
    exact ⟨v', f', c', by rw [Vec.step, hpush]; rfl, h'⟩
  | pushBackOwn i a =>
    obtain ⟨x, hx, heq⟩ := Option.map_eq_some_iff.mp hcall
    cases heq
    obtain ⟨v', hpush, h'⟩ := h.pushBack_own (a := a) hfits hx
    exact ⟨v', f, c, by rw [Vec.step, hpush]; rfl, h'⟩
  | pushBackNew a =>
    cases hcall
    obtain ⟨v', f', c', hpush, h'⟩ := h.pushBack hfits T.fresh
    exact ⟨v', f', c', by rw [Vec.step, hpush]; rfl, h'⟩
  | popBack =>
    obtain ⟨x, hx, heq⟩ := Option.map_eq_some_iff.mp hcall
    cases heq
    rw [← List.dropLast_append_getLast? x hx] at h
    obtain ⟨v', hpop, h'⟩ := h.popBack
    exact ⟨v', f, c, by rw [Vec.step, hpop]; rfl, h'⟩
  | popFront =>
    obtain ⟨x, hx, heq⟩ := Option.map_eq_some_iff.mp hcall
    cases heq
    rw [← List.cons_head?_tail hx] at h
    obtain ⟨v', hpop, h'⟩ := h.popFront
    exact ⟨v', f + 1, c, by rw [Vec.step, hpop]; rfl, h'⟩
  | popnFront n =>
    simp only [Op.contents] at hcall
    split_ifs at hcall with hn
    cases hcall
    rw [← List.take_append_drop n l] at h
    obtain ⟨v', hpop, h'⟩ := h.popnFront
    rw [List.length_take_of_le hn] at hpop
    exact ⟨v', _, c, by rw [Vec.step, hpop]; rfl, h'⟩
  | setsize n a =>
    cases hcall
    obtain ⟨v', f', c', hset, h'⟩ := h.setsize hfits
    exact ⟨v', f', c', by rw [Vec.step, hset]; rfl, h'⟩
  | reserve n a =>
    cases hcall
    obtain ⟨v', f', c', hres, h', -⟩ := h.reserve hfits
    exact ⟨v', f', c', by rw [Vec.step, hres]; rfl, h'⟩

theorem Holds.run {ops : List (Op α)} {l' : List α} {ys : List (Option α)}
    (h : Holds T v f c l) (hcalls : contentsRun T l ops = some (l', ys)) (hfits : FitsRun T v ops) :
    ∃ v' f' c', v.run T ops = some (v', ys) ∧ Holds T v' f' c' l' := by
  induction ops generalizing v f c l ys with
  | nil =>
    cases hcalls
    exact ⟨v, f, c, rfl, h⟩
  | cons op ops ih =>
    obtain ⟨⟨l₁, y⟩, hop, hrest⟩ := Option.bind_eq_some_iff.mp hcalls
    obtain ⟨⟨l₂, ys'⟩, hops, heq⟩ := Option.bind_eq_some_iff.mp hrest
    cases heq
    obtain ⟨v₁, f₁, c₁, hstep, h₁⟩ := h.step hop hfits.1
    obtain ⟨v', f', c', hrun, h'⟩ := ih h₁ hops (hfits.2 _ hstep)
    refine ⟨v', f', c', ?_, h'⟩
    simp only [Vec.run, hstep, Option.bind_eq_bind, Option.bind_some, hrun]
    rfl

/-- A vector does what the sequence of its elements does, from an empty one on. No assertion
fails, and the elements read back are those of the sequence. -/
theorem run_contents {ops : List (Op α)} {l : List α} {ys : List (Option α)}
    (hcalls : contentsRun T [] ops = some (l, ys)) (hfits : FitsRun T (init T) ops) :
    ∃ v, (init T).run T ops = some (v, ys) ∧ v.size T = l.length ∧
      (∀ i, v.index T i = l[i]?) ∧
      v.basep ≤ v.firstp ∧ v.firstp ≤ v.lastp ∧ v.lastp ≤ v.limp := by
  obtain ⟨v, f, c, hrun, h⟩ := (holds_init T).run hcalls hfits
  exact ⟨v, hrun, h.size, h.index, h.ordered⟩

def byteVec : VecType ℕ where
  sizeof := 1
  sizeof_pos := by decide
  fresh := 0
  N := 0
  defBasep := 0
  null := by decide
  objId := 0
  resizer := none

/-- The last call slides the element down to `basep`. -/
theorem run_contents_slide :
    ∃ v, (init byteVec).run byteVec [.pushBack 5 16, .pushBack 6 0, .pushBack 7 32, .popnFront 2,
        .pushBack 8 0, .popFront, .pushBack 9 0] =
        some (v, [none, none, none, none, none, some 7, none]) ∧
      v.size byteVec = 2 ∧ (∀ i, v.index byteVec i = [8, 9][i]?) ∧
      v.basep ≤ v.firstp ∧ v.firstp ≤ v.lastp ∧ v.lastp ≤ v.limp := by
  have hfits : FitsRun byteVec (init byteVec) [.pushBack 5 16, .pushBack 6 0, .pushBack 7 32,
      .popnFront 2, .pushBack 8 0, .popFront, .pushBack 9 0] := by
    decide +kernel
  exact run_contents rfl hfits

theorem contentsRun_setsize (T : VecType α) (n a : ℕ) :
    contentsRun T [] [.setsize n a] = some (List.replicate n T.fresh, [none]) := by
  simp [contentsRun, Op.contents]

/-- From `2^30` elements on the shift in `vec_resize_fn` is undefined. -/
theorem setsize_shift :
    ∃ l ys, contentsRun byteVec [] [.setsize (2 ^ 30) 16] = some (l, ys) ∧ l.length < 2 ^ 31 ∧
      (init byteVec).run byteVec [.setsize (2 ^ 30) 16] = none := by
  have hlen : (List.replicate (2 ^ 30) byteVec.fresh).length < 2 ^ 31 := by
    rw [List.length_replicate]
    decide
  have hrun : ((init byteVec).run byteVec [.setsize (2 ^ 30) 16]).isNone := by decide +kernel
  exact ⟨_, _, contentsRun_setsize byteVec (2 ^ 30) 16, hlen, Option.isNone_iff_eq_none.mp hrun⟩

example : ((init byteVec).run byteVec
    [.pushBack 5 16, .pushBack 6 0, .pushBackOwn 0 32]).isNone := by
  decide +kernel

example : ((init byteVec).run byteVec [.pushBack 5 16, .pushBack 6 0, .popnFront 2,
    .reserve 2 18, .pushBack 7 0, .pushBack 8 0, .pushBack 9 64]).isNone := by
  decide +kernel

end Vec

end Sfslite.Async
