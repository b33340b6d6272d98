import Mathlib.Order.Nat
import Sfslite.Async.Suio

/-!
What appending to a suio consists of. Every operation that appends is a chain of few steps,
and an invariant is proved for the steps.
-/

namespace Sfslite.Async.Suio

def addrs (vs : List Iovec) : List ℕ := vs.flatMap fun v => List.range' v.base v.len

def lens (vs : List Iovec) : ℕ := (vs.map Iovec.len).sum

variable {bs : List (BitVec 8)}

section

variable {vs us : List Iovec} {v : Iovec} {mem : Mem} {n : ℕ}

@[simp] theorem addrs_nil : addrs [] = [] := rfl

@[simp] theorem addrs_cons : addrs (v :: vs) = List.range' v.base v.len ++ addrs vs := rfl

@[simp] theorem addrs_append : addrs (vs ++ us) = addrs vs ++ addrs us := List.flatMap_append

@[simp] theorem lens_nil : lens [] = 0 := rfl

@[simp] theorem lens_cons : lens (v :: vs) = v.len + lens vs := rfl

@[simp] theorem lens_append : lens (vs ++ us) = lens vs + lens us := by
  rw [lens, List.map_append, List.sum_append]
  rfl

@[simp] theorem length_addrs : (addrs vs).length = lens vs := by
  induction vs with
  | nil => rfl
  | cons v vs ih => rw [addrs_cons, List.length_append, List.length_range', ih, lens_cons]

theorem drop_range'_append (b len n : ℕ) (l : List ℕ) (h : len ≤ n) :
    (List.range' b len ++ l).drop n = l.drop (n - len) := by
  have hlen : (List.range' b len).length = len := List.length_range'
  rw [List.drop_append, hlen, List.drop_of_length_le (hlen.trans_le h), List.nil_append]

theorem drop_range'_append_cut (b len n : ℕ) (l : List ℕ) (h : n ≤ len) :
    (List.range' b len ++ l).drop n = List.range' (b + n) (len - n) ++ l := by
  have hlen : (List.range' b len).length = len := List.length_range'
  rw [List.drop_append_of_le_length (h.trans_eq hlen.symm), List.drop_range', Nat.mul_one]

theorem remIovs_spec {us : List Iovec} (h : remIovs vs n = some us) :
    n ≤ lens vs ∧ addrs us = (addrs vs).drop n ∧ us.length ≤ vs.length := by
  induction vs generalizing n with
  | nil =>
    rw [remIovs] at h
    split at h
    · cases h
    · obtain rfl : n = 0 := by omega
      cases h
      exact ⟨Nat.le_refl _, rfl, Nat.le_refl _⟩
  | cons v vs ih =>
    rw [remIovs] at h
    split at h
    · rename_i hle
      obtain ⟨hn, haddrs, hlen⟩ := ih h
      refine ⟨by rw [lens_cons]; omega, ?_, by rw [List.length_cons]; omega⟩
      rw [haddrs, addrs_cons, drop_range'_append _ _ _ _ hle]
    · cases h
      refine ⟨by rw [lens_cons]; omega, ?_, Nat.le_refl _⟩
      rw [addrs_cons, addrs_cons, drop_range'_append_cut _ _ _ _ (by omega)]

theorem remIovs_isSome (h : n ≤ lens vs) : ∃ us, remIovs vs n = some us := by
  induction vs generalizing n with
  | nil =>
    rw [lens_nil] at h
    exact ⟨[], by rw [remIovs, if_neg (by omega)]⟩
  | cons v vs ih =>
    rw [lens_cons] at h
    rw [remIovs]
    split
    · exact ih (by omega)
    · exact ⟨_, rfl⟩

def Iovmgr.addrs (m : Iovmgr) : List ℕ := List.range' m.cur.base m.cur.len ++ Suio.addrs m.iov

theorem Iovmgr.addrs_new : (Iovmgr.new vs).addrs = Suio.addrs vs := by
  cases vs with
  | nil => rfl
  | cons v vs => rfl

theorem Iovmgr.size_eq (m : Iovmgr) : m.size = m.addrs.length := by
  rw [Iovmgr.size, Iovmgr.addrs, List.length_append, List.length_range', length_addrs]
  rfl

theorem skipIovs_spec (vs : List Iovec) (n : ℕ) :
    Suio.addrs (skipIovs vs n).1 = (Suio.addrs vs).drop (n - (skipIovs vs n).2) ∧
    (skipIovs vs n).2 ≤ n ∧ n - (skipIovs vs n).2 ≤ lens vs ∧
      ∀ v us, (skipIovs vs n).1 = v :: us → (skipIovs vs n).2 < v.len := by
  induction vs generalizing n with
  | nil => simp [skipIovs]
  | cons v vs ih =>
    rw [skipIovs]
    split
    · rename_i hle
      obtain ⟨haddrs, hrest, hlens, hhead⟩ := ih (n := n - v.len)
      refine ⟨?_, by omega, by rw [lens_cons]; omega, hhead⟩
      rw [haddrs, addrs_cons, drop_range'_append _ _ _ _ (by omega)]
      congr 1
      omega
    · refine ⟨by simp, Nat.le_refl _, by simp, ?_⟩
      rintro v' us h
      cases h
      dsimp only
      omega

theorem Iovmgr.skip_spec {m m' : Iovmgr} (h : m.skip n = some m') :
    n ≤ m.size ∧ m'.addrs = m.addrs.drop n := by
  rw [Iovmgr.skip] at h
  split at h
  · cases h
    refine ⟨by rw [Iovmgr.size]; omega, ?_⟩
    exact (drop_range'_append_cut _ _ _ _ (by omega)).symm
  obtain ⟨haddrs, hrest, hlens, hhead⟩ := skipIovs_spec m.iov (n - m.cur.len)
  have hsize : m.size = m.cur.len + lens m.iov := rfl
  have hdrop : m.addrs.drop n = (Suio.addrs m.iov).drop (n - m.cur.len) :=
    drop_range'_append _ _ _ _ (by omega)
  split at h
  · rename_i heq
    rw [heq] at haddrs hrest hlens
    cases h
    refine ⟨by dsimp only at hlens; omega, ?_⟩
    rw [hdrop, Iovmgr.addrs, haddrs]
    rfl
  · cases h
  · rename_i v vs k _ heq
    rw [heq] at haddrs hrest hlens hhead
    have hlt : k < v.len := hhead v vs rfl
    rw [if_neg (by omega)] at h
    cases h
    dsimp only at haddrs hrest hlens
    rw [addrs_cons] at haddrs
    constructor
    · have htotal : v.len + lens vs = lens m.iov - (n - m.cur.len - k) := by
        rw [← @length_addrs m.iov, ← List.length_drop, ← haddrs, List.length_append,
          List.length_range', length_addrs]
      omega
    · have hsum : n - m.cur.len = (n - m.cur.len - k) + k := by omega
      rw [hdrop, hsum, ← List.drop_drop, ← haddrs, drop_range'_append_cut _ _ _ _ (by omega)]
      rfl

theorem copyIovs_spec {us : List Iovec} {r : ℕ} (h : copyIovs mem vs n = (bs, us, r)) :
    bs = ((Suio.addrs vs).take (n - r)).map mem ∧
      Suio.addrs us = (Suio.addrs vs).drop (n - r) ∧ r ≤ n ∧ n - r ≤ lens vs ∧
      ∀ v us', us = v :: us' → r < v.len := by
  induction vs generalizing n bs us r with
  | nil =>
    cases h
    simp
  | cons v vs ih =>
    rw [copyIovs] at h
    split at h
    · rename_i hle
      obtain ⟨bs', us', r', heq⟩ : ∃ bs' us' r', copyIovs mem vs (n - v.len) = (bs', us', r') :=
        ⟨_, _, _, rfl⟩
      obtain ⟨hbs, haddrs, hrest, hlens, hhead⟩ := ih heq
      rw [heq] at h
      cases h
      have hlen : (List.range' v.base v.len).length = v.len := List.length_range'
      have htake : (List.range' v.base v.len).take (n - r) = List.range' v.base v.len :=
        List.take_of_length_le (by omega)
      have hcount : n - r - v.len = n - v.len - r := by omega
      refine ⟨?_, ?_, by omega, by rw [lens_cons]; omega, hhead⟩
      · rw [hbs, addrs_cons, List.take_append, hlen, htake, hcount, List.map_append]
        rfl
      · rw [haddrs, addrs_cons, drop_range'_append _ _ _ _ (by omega), hcount]
    · cases h
      refine ⟨by simp, by simp, Nat.le_refl _, by simp, ?_⟩
      rintro v' us h
      cases h
      omega

theorem Iovmgr.copyout_spec {m m' : Iovmgr} (h : m.copyout mem n = (bs, m')) :
    bs = (m.addrs.take n).map mem ∧ m'.addrs = m.addrs.drop n := by
  have hlen : (List.range' m.cur.base m.cur.len).length = m.cur.len := List.length_range'
  rw [Iovmgr.copyout] at h
  split at h
  · rename_i hlt
    cases h
    constructor
    · rw [Iovmgr.addrs, List.take_append_of_le_length (by omega), List.take_range'_of_length_ge (by omega),
        Mem.read]
    · exact (drop_range'_append_cut _ _ _ _ (by omega)).symm
  rename_i hge
  obtain ⟨cs, us, r, heq⟩ : ∃ cs us r, copyIovs mem m.iov (n - m.cur.len) = (cs, us, r) :=
    ⟨_, _, _, rfl⟩
  obtain ⟨hcs, haddrs, hrest, hlens, hhead⟩ := copyIovs_spec heq
  have htake : m.addrs.take n =
      List.range' m.cur.base m.cur.len ++ (Suio.addrs m.iov).take (n - m.cur.len) := by
    rw [Iovmgr.addrs, List.take_append, hlen, List.take_of_length_le (by omega)]
  have hdrop : m.addrs.drop n = (Suio.addrs m.iov).drop (n - m.cur.len) :=
    drop_range'_append _ _ _ _ (by omega)
  rw [htake, hdrop, List.map_append]
  dsimp only at h
  rw [heq] at h
  cases us with
  | nil =>
    have hend : lens m.iov = n - m.cur.len - r := by
      have hzero := congrArg List.length haddrs
      rw [List.length_drop, length_addrs, length_addrs, lens_nil] at hzero
      omega
    cases h
    constructor
    · rw [hcs, ← hend, List.take_of_length_le (by rw [length_addrs]),
        List.take_of_length_le (by rw [length_addrs]; omega)]
      rfl
    · rw [List.drop_of_length_le (by rw [length_addrs]; omega)]
      rfl
  | cons v us =>
    have hlt : r < v.len := hhead v us rfl
    have hsum : n - m.cur.len = (n - m.cur.len - r) + r := by omega
    have hrest' : (Suio.addrs m.iov).drop (n - m.cur.len) =
        List.range' (v.base + r) (v.len - r) ++ Suio.addrs us := by
      rw [hsum, ← List.drop_drop, ← haddrs, addrs_cons,
        drop_range'_append_cut _ _ _ _ (by omega)]
    have hread : (Suio.addrs m.iov).take (n - m.cur.len) =
        (Suio.addrs m.iov).take (n - m.cur.len - r) ++ List.range' v.base r := by
      have hv : (List.range' v.base v.len).length = v.len := List.length_range'
      rw [hsum, List.take_add, ← haddrs, addrs_cons, List.take_append_of_le_length (by omega),
        List.take_range'_of_length_ge (by omega), Nat.add_sub_cancel]
    rw [hrest', hread, List.map_append, ← hcs]
    cases r with
    | zero =>
      cases h
      exact ⟨by simp [Mem.read], by simp [Iovmgr.addrs]⟩
    | succ r =>
      cases h
      exact ⟨by simp [Mem.read], rfl⟩

end

section

variable {malloc : Malloc} {R : ℕ → ℕ → Prop} {e e' : Env} {s s' : Suio} {base buf : ℕ}
  {len n : ℕ} {r r' : Env × Suio}

theorem pushiov_cases (h : s.pushiov base len = some s') :
    ∃ iovs lastiovend,
      s' = { s with
        iovs := iovs
        lastiovend := lastiovend
        uiobytes := s.uiobytes + len
        scratchPos := if base = s.scratchPos then s.scratchPos + len else s.scratchPos } ∧
      ((base = s.lastiovend ∧ lastiovend = base + len ∧ ∃ init v, s.iovs = init ++ [v] ∧
          iovs = init ++ [⟨v.base, v.len + len⟩]) ∨
        (base ≠ s.lastiovend ∧ len ≠ 0 ∧ lastiovend = base + len ∧
          iovs = s.iovs ++ [⟨base, len⟩]) ∨
        (base ≠ s.lastiovend ∧ len = 0 ∧ lastiovend = s.lastiovend ∧ iovs = s.iovs)) := by
  rw [pushiov] at h
  split at h
  · rename_i hbase
    cases hlast : s.iovs.getLast? with
    | none =>
      rw [hlast] at h
      cases h
    | some v =>
      obtain ⟨init, hinit⟩ := List.getLast?_eq_some_iff.mp hlast
      rw [hlast] at h
      obtain rfl := Option.some.inj h
      refine ⟨s.iovs.dropLast ++ [⟨v.base, v.len + len⟩], s.lastiovend + len, ?_,
        Or.inl ⟨hbase, by rw [hbase], init, v, hinit, by rw [hinit, List.dropLast_concat]⟩⟩
      split <;> rfl
  · rename_i hbase
    split at h
    · rename_i hlen
      obtain rfl := Option.some.inj h
      refine ⟨_, _, ?_, Or.inr (Or.inl ⟨hbase, hlen, rfl, rfl⟩)⟩
      split <;> rfl
    · rename_i hlen
      obtain rfl := Option.some.inj h
      refine ⟨s.iovs, s.lastiovend, ?_, Or.inr (Or.inr ⟨hbase, by omega, rfl, rfl⟩)⟩
      split <;> rfl

theorem pushiov_pieces (h : s.pushiov base len = some s') (hs : ∀ v ∈ s.iovs, v.len ≠ 0) :
    ∀ v ∈ s'.iovs, v.len ≠ 0 := by
  obtain ⟨iovs, lastiovend, rfl, hcases⟩ := pushiov_cases h
  rcases hcases with ⟨-, -, init, v, hiovs, rfl⟩ | ⟨-, hlen, -, rfl⟩ | ⟨-, -, -, rfl⟩
  · rw [hiovs] at hs
    intro u hu
    rcases List.mem_append.mp hu with hu | hu
    · exact hs u (List.mem_append_left _ hu)
    · have hv := hs v (by simp)
      rw [List.mem_singleton.mp hu]
      dsimp only
      omega
  · intro u hu
    rcases List.mem_append.mp hu with hu | hu
    · exact hs u hu
    · rw [List.mem_singleton.mp hu]
      exact hlen
  · exact hs

theorem lens_pushiov (h : s.pushiov base len = some s') : lens s'.iovs = lens s.iovs + len := by
  obtain ⟨iovs, lastiovend, rfl, hcases⟩ := pushiov_cases h
  rcases hcases with ⟨-, -, init, v, hs, rfl⟩ | ⟨-, -, -, rfl⟩ | ⟨-, rfl, -, rfl⟩
  · rw [hs, lens_append, lens_append]
    simp
    omega
  · simp
  · rfl

/-- A suio that was appended to: bytes put in the scratch buffer or pushed by reference,
with scratch buffers left behind and found. `R` has what is pushed by reference. -/
inductive Appends (malloc : Malloc) (R : ℕ → ℕ → Prop) (r : Env × Suio) :
    ℕ → Env × Suio → Prop
  | refl : Appends malloc R r 0 r
  /-- Bytes are written and pushed where the scratch buffer is free. -/
  | put {n : ℕ} {e : Env} {s : Suio} {bs : List (BitVec 8)} {r' : Env × Suio} :
      Appends malloc R r n (e, s) → s.put e bs = some r' → Appends malloc R r (n + bs.length) r'
  | push {n : ℕ} {e : Env} {s s' : Suio} {base : ℕ} {len : ℕ} :
      Appends malloc R r n (e, s) → R base len → s.pushiov base len = some s' →
      Appends malloc R r (n + len) (e, s')
  | condemn {n : ℕ} {e : Env} {s : Suio} :
      Appends malloc R r n (e, s) → Appends malloc R r n (s.condemnScratch e)
  /-- Blocks are taken from the allocator and given back. -/
  | heap {n : ℕ} {e : Env} {s : Suio} {live : List Block} :
      Appends malloc R r n (e, s) → Appends malloc R r n ({ e with live := live }, s)
  | scratch {n : ℕ} {e : Env} {s : Suio} {live : List Block} {size : ℕ} {lim : ℕ} :
      Appends malloc R r n (e, s) → Appends malloc R r n (e, { s with
        scratchBuf := malloc live size
        scratchPos := malloc live size
        scratchLim := lim })

theorem Appends.cast {m : ℕ} (h : Appends malloc R r n r') (hn : n = m) : Appends malloc R r m r' :=
  hn ▸ h

theorem Appends.morescratch (h : Appends malloc R r n (e, s)) (size : ℕ) :
    Appends malloc R r n (s.morescratch malloc e size) :=
  h.condemn.heap.scratch

theorem Appends.trans {m : ℕ} {r'' : Env × Suio} (h : Appends malloc R r n r')
    (h' : Appends malloc R r' m r'') : Appends malloc R r (n + m) r'' := by
  induction h' with
  | refl => exact h
  | put _ hput ih => exact (ih.put hput).cast (by omega)
  | push _ hR hpush ih => exact (ih.push hR hpush).cast (by omega)
  | condemn _ ih => exact ih.condemn
  | heap _ ih => exact ih.heap
  | scratch _ ih => exact ih.scratch

theorem getspace_appends : Appends malloc R (e, s) 0 (s.getspace malloc e n) := by
  rw [getspace]
  split
  · exact .refl
  · exact Appends.refl.morescratch n

theorem slowcopy_appends (h : s.slowcopy malloc e bs = some r') :
    Appends malloc R (e, s) bs.length r' := by
  rw [slowcopy] at h
  split at h
  · exact (Appends.refl.put h).cast (Nat.zero_add _)
  split at h
  · obtain ⟨⟨e₁, s₁⟩, hfirst, h⟩ := Option.bind_eq_some_iff.mp h
    have hput := (((Appends.refl (R := R)).put hfirst).morescratch (bs.drop s.space).length).put h
    refine hput.cast ?_
    rw [List.length_take, List.length_drop]
    omega
  · exact (((Appends.refl (R := R)).morescratch bs.length).put h).cast (Nat.zero_add _)

theorem fill_appends {c : BitVec 8} {n : ℤ} (h : s.fill malloc e c n = some r') :
    Appends malloc R (e, s) n.toNat r' := by
  rw [fill] at h
  split at h
  · cases h
    exact Appends.refl.cast (by omega)
  split at h
  · exact (Appends.refl.put h).cast (by simp)
  · exact (slowcopy_appends h).cast (by simp)

theorem copy_appends (h : s.copy malloc e buf len = some r') : Appends malloc R (e, s) len r' := by
  rw [copy] at h
  split at h
  · exact (Appends.refl.put h).cast (by simp [Mem.read])
  · exact (slowcopy_appends h).cast (by simp [Mem.read])

theorem print_appends (hR : ¬(len ≤ smallbufsize ∧ buf ≠ s.scratchPos) → R buf len)
    (h : s.print malloc e buf len = some r') : Appends malloc R (e, s) len r' := by
  rw [print] at h
  split at h
  · exact copy_appends h
  · rename_i href
    obtain ⟨s', hpush, rfl⟩ := Option.map_eq_some_iff.mp h
    exact (Appends.refl.push (hR href) hpush).cast (Nat.zero_add _)

theorem copyvScratch_appends {iom iom' : Iovmgr} (h : s.copyvScratch e iom = some (e', s', iom')) :
    ∃ m, Appends malloc R (e, s) m (e', s') ∧ m + iom'.size = iom.size := by
  rw [copyvScratch] at h
  dsimp only at h
  split at h
  · obtain ⟨bs, iom₁, hout⟩ : ∃ bs iom₁, iom.copyout e.mem s.space = (bs, iom₁) := ⟨_, _, rfl⟩
    obtain ⟨hbs, haddrs⟩ := Iovmgr.copyout_spec hout
    have hlen : bs.length + iom₁.size = iom.size := by
      rw [hbs, Iovmgr.size_eq, Iovmgr.size_eq, haddrs, List.length_map, List.length_take,
        List.length_drop]
      omega
    rw [hout] at h
    dsimp only at h
    split at h
    · obtain ⟨r, hput, heq⟩ := Option.map_eq_some_iff.mp h
      cases heq
      exact ⟨_, Appends.refl.put hput, by omega⟩
    · cases h
      exact ⟨0, .refl, by omega⟩
  · cases h
    exact ⟨0, .refl, Nat.zero_add _⟩

theorem copyv_appends {iov : List Iovec} {skip : ℕ} (h : s.copyv malloc e iov skip = some r') :
    skip ≤ lens iov ∧ Appends malloc R (e, s) (lens iov - skip) r' := by
  obtain ⟨iom, hskip, h⟩ := Option.bind_eq_some_iff.mp h
  obtain ⟨hle, haddrs⟩ := Iovmgr.skip_spec hskip
  rw [Iovmgr.size_eq, Iovmgr.addrs_new, length_addrs] at hle
  have hsize : iom.size = lens iov - skip := by
    rw [Iovmgr.size_eq, haddrs, Iovmgr.addrs_new, List.length_drop, length_addrs]
  obtain ⟨⟨e₁, s₁, iom₁⟩, hfirst, h⟩ := Option.bind_eq_some_iff.mp h
  obtain ⟨m, hm, hsum⟩ : ∃ m, Appends malloc R (e, s) m (e₁, s₁) ∧ m + iom₁.size = iom.size :=
    copyvScratch_appends hfirst
  refine ⟨hle, ?_⟩
  dsimp only at h
  split at h
  · obtain ⟨bs, iom', hout⟩ : ∃ bs iom', iom₁.copyout (s₁.morescratch malloc e₁ iom₁.size).1.mem
        iom₁.size = (bs, iom') := ⟨_, _, rfl⟩
    obtain ⟨hbs, -⟩ := Iovmgr.copyout_spec hout
    have hlen : bs.length = iom₁.size := by
      rw [hbs, List.length_map, List.length_take, Iovmgr.size_eq, Nat.min_self]
    have hput := (hm.morescratch iom₁.size).put h
    rw [hout] at hput
    exact hput.cast (by dsimp only; omega)
  · cases h
    exact hm.cast (by omega)

theorem appendIov_appends {defbuf : ℕ} {v : Iovec}
    (hR : ¬(defbuf ≤ v.base ∧ v.base < defbuf + smallbufsize) → R v.base v.len)
    (h : appendIov malloc defbuf v e s = some r') : Appends malloc R (e, s) v.len r' := by
  rw [appendIov] at h
  split at h
  · exact copy_appends h
  · rename_i hout
    obtain ⟨s', hpush, rfl⟩ := Option.map_eq_some_iff.mp h
    exact (Appends.refl.push (hR hout) hpush).cast (Nat.zero_add _)

theorem appendIovs_appends {defbuf : ℕ} {vs : List Iovec}
    (hR : ∀ v ∈ vs, ¬(defbuf ≤ v.base ∧ v.base < defbuf + smallbufsize) → R v.base v.len)
    (h : appendIovs malloc defbuf vs e s = some r') : Appends malloc R (e, s) (lens vs) r' := by
  induction vs generalizing e s with
  | nil =>
    cases h
    exact .refl
  | cons v vs ih =>
    obtain ⟨⟨e₁, s₁⟩, hfirst, h⟩ := Option.bind_eq_some_iff.mp h
    have hrest := ih (fun u hu => hR u (List.mem_cons_of_mem v hu)) h
    exact (appendIov_appends (hR v List.mem_cons_self) hfirst).trans hrest

theorem putRead_appends (happ : Appends malloc R r n (e, s))
    (h : s.putRead e bs = some r') : Appends malloc R r (n + bs.length) r' := by
  rw [putRead] at h
  split at h
  · exact happ.put h
  · cases h
    exact happ.cast (by omega)

theorem input_appends (h : s.input malloc e len bs = some r') :
    Appends malloc R (e, s) bs.length r' := by
  rw [input] at h
  dsimp only at h
  split at h
  · exact (putRead_appends getspace_appends h).cast (Nat.zero_add _)
  split at h
  · obtain ⟨⟨e₁, s₁⟩, hfirst, h⟩ := Option.bind_eq_some_iff.mp h
    dsimp only at h
    split at h
    · cases h
    · have hall := ((Appends.refl (R := R)).heap.put hfirst).condemn.scratch.put h
      refine hall.cast ?_
      rw [List.length_take, List.length_drop]
      omega
  · obtain ⟨⟨e₁, s₁⟩, hfirst, h⟩ := Option.bind_eq_some_iff.mp h
    cases h
    exact (putRead_appends Appends.refl.heap hfirst).heap.cast (Nat.zero_add _)

theorem remIovs_pieces {vs us : List Iovec} (h : remIovs vs n = some us)
    (hvs : ∀ v ∈ vs, v.len ≠ 0) : ∀ u ∈ us, u.len ≠ 0 := by
  induction vs generalizing n with
  | nil =>
    rw [remIovs] at h
    split at h
    · cases h
    · cases h
      exact hvs
  | cons v vs ih =>
    rw [remIovs] at h
    have htail : ∀ u ∈ vs, u.len ≠ 0 := fun u hu => hvs u (List.mem_cons_of_mem v hu)
    split at h
    · exact ih h htail
    · cases h
      intro u hu
      rcases List.mem_cons.mp hu with rfl | hu
      · dsimp only
        omega
      · exact htail u hu

theorem remIovs_all (vs : List Iovec) : remIovs vs (lens vs) = some [] := by
  induction vs with
  | nil => rfl
  | cons v vs ih => rw [remIovs, lens_cons, if_pos (by omega), Nat.add_sub_cancel_left, ih]

theorem rembytes_cases (h : s.rembytes e n = some (e', s')) :
    n ≤ s.uiobytes ∧ ∃ us, remIovs s.iovs n = some us ∧
      (e', s'.uiocbs) = makeuiocbs (s.nrembytes + n) s.uiocbs e ∧
      s'.iovs = us ∧ s'.uiobytes = s.uiobytes - n ∧ s'.nrembytes = s.nrembytes + n ∧
      s'.lastiovend = (if us = [] then 0 else s.lastiovend) ∧
      s'.scratchPos = (if us = [] then s.scratchBuf else s.scratchPos) ∧
      s'.scratchBuf = s.scratchBuf ∧ s'.scratchLim = s.scratchLim ∧ s'.defbuf = s.defbuf := by
  rw [rembytes] at h
  split at h
  · cases h
  obtain ⟨us, hus, h⟩ := Option.bind_eq_some_iff.mp h
  refine ⟨by omega, us, hus, ?_⟩
  dsimp only at h
  split at h
  · cases h
    simp_all
  · cases h
    simp_all

theorem condemnScratch_eq : (s.condemnScratch e).2.iovs = s.iovs ∧
    (s.condemnScratch e).2.lastiovend = s.lastiovend ∧
    (s.condemnScratch e).2.defbuf = s.defbuf := by
  rw [condemnScratch]
  split
  · rw [iovcb]
    split <;> exact ⟨rfl, rfl, rfl⟩
  · exact ⟨rfl, rfl, rfl⟩

theorem take_cases {uio uio' : Suio} (h : s.take malloc e uio = some (e', s', uio')) :
    ∃ e₀ uio₀ t, uio.condemnScratch e = (e₀, uio₀) ∧
      appendIovs malloc uio.defbuf uio.iovs e₀ s = some (e', t) ∧
      s' = { t with
        uiocbs := t.uiocbs ++ uio₀.uiocbs.map fun c =>
          ⟨sub64 (c.nbytes + (s.nrembytes + s.uiobytes)) uio.nrembytes, c.cb⟩ } ∧
      uio' = { uio₀ with
        nrembytes := uio₀.nrembytes + uio₀.uiobytes
        nremiov := uio₀.nremiov + uio₀.iovs.length
        uiobytes := 0
        iovs := []
        uiocbs := []
        scratchBuf := uio₀.defbuf
        scratchPos := uio₀.defbuf
        scratchLim := uio₀.defbuf + smallbufsize } := by
  obtain ⟨hiovs, -, hdefbuf⟩ := condemnScratch_eq (s := uio) (e := e)
  obtain ⟨e₀, uio₀, hcond⟩ : ∃ e₀ uio₀, uio.condemnScratch e = (e₀, uio₀) := ⟨_, _, rfl⟩
  rw [take, hcond] at h
  rw [hcond] at hiovs hdefbuf
  obtain ⟨⟨e₁, t⟩, happ, h⟩ := Option.bind_eq_some_iff.mp h
  cases h
  rw [hiovs, hdefbuf] at happ
  exact ⟨e₀, uio₀, t, hcond, happ, rfl, rfl⟩

end

end Sfslite.Async.Suio
