import Sfslite.Async.SuioAppend

/-!
The memory around one suio. The bytes of its list are in the program's memory, in the buffer inside
of the object, or in blocks that some suio is to give back, and nothing is in the free end of its
scratch buffer.
-/

namespace Sfslite.Async.Suio

def inBlock (b : Block) (a : ℕ) : Prop := b.1 ≤ a ∧ a < b.1 + b.2

def Apart (b b' : Block) : Prop := ∀ a, inBlock b a → ¬ inBlock b' a

def Cb.block? : Cb → Option Block
  | .deallocator buf size => some (buf, size)
  | .wrap _ => none

def home (s : Suio) : Block := (s.defbuf, smallbufsize)

def scratch (s : Suio) : Block := (s.scratchBuf, s.scratchLim - s.scratchBuf)

def condemned (s : Suio) : List Block := s.uiocbs.filterMap fun c => c.cb.block?

def owned (s : Suio) : List Block :=
  s.condemned ++ if s.scratchBuf = s.defbuf then [] else [s.scratch]

/-- In a buffer whose bytes are all removed when `n` more of them are. -/
def Due (s : Suio) (n : ℕ) (a : ℕ) : Prop :=
  ∃ c ∈ s.uiocbs, ∃ b, c.cb.block? = some b ∧ c.nbytes ≤ s.nrembytes + n ∧ inBlock b a

def Idle (s : Suio) (a : ℕ) : Prop := (s.scratchPos ≤ a ∧ a < s.scratchLim) ∨ s.Due 0 a

/-- In the object, or right in front of it: other members come before the buffer. -/
def inObject (s : Suio) (a : ℕ) : Prop := s.defbuf ≤ a + 1 ∧ a < s.defbuf + smallbufsize

variable {s : Suio} {b b' : Block} {a n : ℕ}

theorem Apart.symm (h : Apart b b') : Apart b' b := fun a hb' hb => h a hb hb'

theorem Apart.ne (h : Apart b b') (hsize : 0 < b.2) : b ≠ b' := by
  rintro rfl
  have hfirst : inBlock b b.1 := ⟨Nat.le_refl _, by omega⟩
  exact h b.1 hfirst hfirst

theorem inBlock_home_object (h : inBlock s.home a) : s.inObject a := by
  obtain ⟨hle, hlt⟩ := h
  exact ⟨Nat.le_succ_of_le hle, hlt⟩

theorem mem_condemned : b ∈ s.condemned ↔ ∃ c ∈ s.uiocbs, c.cb.block? = some b := by
  simp [condemned]

theorem mem_owned : b ∈ s.owned ↔ b ∈ s.condemned ∨ s.scratchBuf ≠ s.defbuf ∧ b = s.scratch := by
  unfold owned
  split
  · rename_i heq
    simp [heq]
  · rename_i hne
    simp [hne]

theorem due_owned (h : s.Due n a) : ∃ b ∈ s.owned, inBlock b a := by
  obtain ⟨c, hc, b, hb, -, ha⟩ := h
  exact ⟨b, mem_owned.mpr (Or.inl (mem_condemned.mpr ⟨c, hc, hb⟩)), ha⟩

section

variable {mem mem' : Mem} {bs : List (BitVec 8)} {base len : ℕ}

theorem write_of_not_mem (h : a ∉ List.range' base bs.length) : mem.write base bs a = mem a := by
  rw [List.mem_range'_1] at h
  unfold Mem.write
  split
  · rw [List.getElem?_eq_none (by omega), Option.getD_none]
  · rfl

theorem read_write : (List.range' base bs.length).map (mem.write base bs) = bs := by
  apply List.ext_getElem
  · rw [List.length_map, List.length_range']
  · intro i _ hi
    rw [List.getElem_map, List.getElem_range', Nat.one_mul, Mem.write, if_pos (Nat.le_add_right _ _),
      Nat.add_sub_cancel_left, List.getElem?_eq_getElem hi, Option.getD_some]

theorem copyout_eq (vs : List Iovec) (len : ℕ) :
    copyout mem vs len = ((addrs vs).take len).map mem := by
  induction vs generalizing len with
  | nil => simp [copyout]
  | cons v vs ih =>
    have hlen : (List.range' v.base v.len).length = v.len := List.length_range'
    rw [copyout, addrs_cons, List.take_append, hlen, List.map_append]
    split
    · rename_i hle
      have hwhole : (List.range' v.base v.len).take len = List.range' v.base v.len :=
        List.take_of_length_le (by omega)
      rw [ih, hwhole]
      rfl
    · rename_i hlt
      have hzero : len - v.len = 0 := by omega
      rw [hzero, List.take_zero, List.map_nil, List.append_nil, List.take_range'_of_length_ge (by omega)]
      rfl

end

/-- What holds of the fields of a suio. -/
structure Shape (s : Suio) : Prop where
  count : s.uiobytes = lens s.iovs
  pieces : ∀ v ∈ s.iovs, v.len ≠ 0
  last : s.lastiovend ≠ 0 → ∀ v, s.iovs.getLast? = some v → s.lastiovend = v.base + v.len
  stale : s.iovs = [] → s.lastiovend ≠ s.scratchPos ∧ s.lastiovend ≠ s.defbuf
  lower : 0 < s.defbuf ∧ 0 < s.scratchBuf
  bounds : s.scratchBuf ≤ s.scratchPos ∧ s.scratchPos ≤ s.scratchLim
  small : s.scratchBuf = s.defbuf → s.scratchLim = s.defbuf + smallbufsize
  fresh : s.iovs = [] → s.scratchPos = s.scratchBuf
  late : ∀ c ∈ s.uiocbs, ∀ b, c.cb.block? = some b →
    ∀ a ∈ (addrs s.iovs).drop (c.nbytes - s.nrembytes), ¬ inBlock b a

theorem Shape.pushiov (h : s.Shape) {base len : ℕ} (hbase : 0 < base)
    (hempty : s.iovs = [] → base ≠ s.lastiovend) :
    ∃ iovs lastiovend, s.pushiov base len = some { s with
        iovs := iovs
        lastiovend := lastiovend
        uiobytes := s.uiobytes + len
        scratchPos := if base = s.scratchPos then s.scratchPos + len else s.scratchPos } ∧
      addrs iovs = addrs s.iovs ++ List.range' base len ∧ (∀ v ∈ iovs, v.len ≠ 0) ∧
      (lastiovend ≠ 0 → ∀ v, iovs.getLast? = some v → lastiovend = v.base + v.len) ∧
      (iovs = [] → s.iovs = [] ∧ lastiovend = s.lastiovend ∧ len = 0) := by
  obtain ⟨s', hpush⟩ : ∃ s', s.pushiov base len = some s' := by
    unfold Suio.pushiov
    split
    · rename_i hend
      cases hlast : s.iovs.getLast? with
      | none => exact absurd hend (hempty (List.getLast?_eq_none_iff.mp hlast))
      | some v => exact ⟨_, rfl⟩
    · split
      · exact ⟨_, rfl⟩
      · exact ⟨_, rfl⟩
  obtain ⟨iovs, lastiovend, rfl, hcases⟩ := pushiov_cases hpush
  refine ⟨iovs, lastiovend, hpush, ?_⟩
  rcases hcases with ⟨hend, rfl, init, v, hiovs, rfl⟩ | ⟨-, hlen, rfl, rfl⟩ | ⟨-, rfl, rfl, rfl⟩
  · have hv : s.lastiovend = v.base + v.len :=
      h.last (by omega) v (by rw [hiovs, List.getLast?_concat])
    have hpieces := h.pieces
    rw [hiovs] at hpieces
    refine ⟨?_, ?_, ?_, fun hnil => absurd hnil (by simp)⟩
    · rw [hiovs, addrs_append, addrs_append, List.append_assoc, hend, hv]
      simp only [addrs_cons, addrs_nil, List.append_nil, List.range'_append_1]
    · intro u hu
      rcases List.mem_append.mp hu with hu | hu
      · exact hpieces u (List.mem_append_left _ hu)
      · rw [List.mem_singleton.mp hu]
        have hne := hpieces v (List.mem_append_right _ (List.mem_singleton_self v))
        dsimp only
        omega
    · intro _ u hu
      rw [List.getLast?_concat] at hu
      cases hu
      dsimp only
      omega
  · refine ⟨by simp, ?_, ?_, fun hnil => absurd hnil (by simp)⟩
    · intro u hu
      rcases List.mem_append.mp hu with hu | hu
      · exact h.pieces u hu
      · rw [List.mem_singleton.mp hu]
        exact hlen
    · intro _ u hu
      rw [List.getLast?_concat] at hu
      cases hu
      rfl
  · exact ⟨by simp, h.pieces, h.last, fun hnil => ⟨hnil, rfl, rfl⟩⟩

/-- The memory of the program, the objects, what must stay as it is, and the blocks of the
other suios. -/
structure Around where
  prog : Set ℕ
  objects : Set ℕ
  keep : Set ℕ
  blocks : Set Block

/-- A suio in its surroundings. -/
structure Focus (c : Around) (e : Env) (s : Suio) : Prop where
  shape : s.Shape
  sized : ∀ b ∈ s.owned, 0 < b.2
  live : ∀ b ∈ s.owned, b ∈ e.live
  apart : s.owned.Pairwise Apart
  outer : ∀ b ∈ c.blocks, b ∈ e.live ∧ ∀ b' ∈ s.owned, Apart b b'
  fixed : ∀ b ∈ e.live, ∀ a, inBlock b a → a ∉ c.prog ∧ a ∉ c.objects
  object : ∀ a, s.inObject a → a ∈ c.objects ∧ a ∉ c.prog
  homed : ∀ a, inBlock s.home a → a ∉ c.keep
  null : 0 ∉ c.keep ∧ ∀ b ∈ e.live, 0 < b.1
  known : ∀ a ∈ c.keep, a ∈ c.prog ∨ a ∈ c.objects ∨ ∃ b ∈ e.live, inBlock b a
  idle : ∀ a, s.Idle a → a ∉ c.keep ∧ a ∉ addrs s.iovs
  alive : ∀ a ∈ addrs s.iovs, a ∈ c.prog ∨ inBlock s.home a ∨
    ∃ b, (b ∈ s.owned ∨ b ∈ c.blocks) ∧ inBlock b a

/-- The allocator answers with blocks that are not next to anything that is in use. -/
def Fits (prog objects : Set ℕ) (malloc : Malloc) : Prop :=
  ∀ live size, 0 < malloc live size ∧ ∀ a, malloc live size ≤ a + 1 → a ≤ malloc live size + size →
    a ∉ prog ∧ a ∉ objects ∧ ∀ b ∈ live, ¬ inBlock b a

variable {c : Around} {e : Env} {malloc : Malloc}

theorem Focus.not_mem_owned (h : Focus c e s) (hb : b ∈ s.owned) (ha : inBlock b a)
    (hout : a ∈ c.prog ∨ ∃ b ∈ c.blocks, inBlock b a) : False := by
  rcases hout with hprog | ⟨b', hb', ha'⟩
  · exact (h.fixed b (h.live b hb) a ha).1 hprog
  · exact (h.outer b' hb').2 b hb a ha' ha

theorem Focus.inUse (h : Focus c e s) (ha : a ∈ c.keep ∨ a ∈ addrs s.iovs) :
    a ∈ c.prog ∨ a ∈ c.objects ∨ ∃ b ∈ e.live, inBlock b a := by
  rcases ha with ha | ha
  · exact h.known a ha
  · rcases h.alive a ha with hprog | hhome | ⟨b, hb | hb, hab⟩
    · exact Or.inl hprog
    · exact Or.inr (Or.inl (h.object a (inBlock_home_object hhome)).1)
    · exact Or.inr (Or.inr ⟨b, h.live b hb, hab⟩)
    · exact Or.inr (Or.inr ⟨b, (h.outer b hb).1, hab⟩)

theorem Fits.not_inUse (hm : Fits c.prog c.objects malloc) (h : Focus c e s) {size : ℕ}
    (hle : malloc e.live size ≤ a + 1) (hlt : a ≤ malloc e.live size + size)
    (ha : a ∈ c.keep ∨ a ∈ addrs s.iovs) : False := by
  obtain ⟨hprog, hobj, hlive⟩ := (hm e.live size).2 a hle hlt
  rcases h.inUse ha with h' | h' | ⟨b, hb, hab⟩
  · exact hprog h'
  · exact hobj h'
  · exact hlive b hb hab

theorem Shape.free_scratch (h : s.Shape) (hle : s.scratchPos ≤ a) (hlt : a < s.scratchLim) :
    inBlock s.scratch a := by
  obtain ⟨hbuf, hpos⟩ := h.bounds
  exact ⟨by dsimp only [scratch]; omega, by dsimp only [scratch]; omega⟩

theorem Shape.scratch_home (h : s.Shape) (hbuf : s.scratchBuf = s.defbuf) : s.scratch = s.home := by
  have hlim := h.small hbuf
  rw [scratch, home, hbuf, hlim, Nat.add_sub_cancel_left]

theorem Focus.scratch_idle (h : Focus c e s) (hnil : s.iovs = []) (ha : inBlock s.scratch a) :
    a ∉ c.keep := by
  obtain ⟨hbuf, hpos⟩ := h.shape.bounds
  have hfresh := h.shape.fresh hnil
  obtain ⟨hle, hlt⟩ := ha
  dsimp only [scratch] at hle hlt
  exact (h.idle a (Or.inl ⟨by omega, by omega⟩)).1

theorem Shape.iovs_nil (h : s.Shape) (hzero : s.uiobytes = 0) : s.iovs = [] := by
  have hcount := h.count
  rw [hzero] at hcount
  cases hiovs : s.iovs with
  | nil => rfl
  | cons v vs =>
    have hv := h.pieces v (hiovs ▸ List.mem_cons_self)
    rw [hiovs, lens_cons] at hcount
    omega

end Sfslite.Async.Suio
