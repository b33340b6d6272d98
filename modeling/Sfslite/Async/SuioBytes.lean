import Sfslite.Async.SuioFocus
import Sfslite.Async.SuioRoom
import Mathlib.Data.List.Forall2

/-!
What the operations of one suio append. Bytes that are copied come to addresses that nothing
else has; bytes pushed by reference stay where they are.
-/

namespace Sfslite.Async.Suio

variable {c : Around} {e : Env} {s : Suio} {malloc : Malloc} {r r' r'' : Env × Suio}
  {bs bs' : List (BitVec 8)} {buf len n a : ℕ}

/-- The allocator does not answer with the pointer that a `take` has left over. -/
def Fresh (malloc : Malloc) (s : Suio) : Prop :=
  s.iovs = [] → ∀ live size, malloc live size ≠ s.lastiovend

/-- Bytes were added at new addresses. -/
def Copied (c : Around) (r r' : Env × Suio) (bs : List (BitVec 8)) : Prop :=
  ∃ l, Added c r r' l ∧ l.map r'.1.mem = bs ∧ ∀ a ∈ l, a ∉ c.keep

theorem Added.fresh {l : List ℕ} (h : Added c r r' l) (hf : Fresh malloc r.2) :
    Fresh malloc r'.2 := by
  intro hnil live size
  obtain ⟨hnil', hlast⟩ := h.empty hnil
  rw [hlast]
  exact hf hnil' live size

theorem Added.reads {l l' : List ℕ} (h : Added c r r' l) (h' : Added c r' r'' l') :
    l.map r''.1.mem = l.map r'.1.mem := by
  apply List.map_congr_left
  intro a ha
  apply h'.mem
  rw [h.addrs]
  exact Or.inr (List.mem_append_right _ ha)

theorem Copied.refl (h : Focus c e s) : Copied c (e, s) (e, s) [] :=
  ⟨[], Added.refl h, rfl, fun _ ha => absurd ha List.not_mem_nil⟩

theorem Copied.trans (h : Copied c r r' bs) (h' : Copied c r' r'' bs') :
    Copied c r r'' (bs ++ bs') := by
  obtain ⟨l, hadd, hbytes, hnew⟩ := h
  obtain ⟨l', hadd', hbytes', hnew'⟩ := h'
  refine ⟨l ++ l', hadd.trans hadd', ?_, fun a ha => ?_⟩
  · rw [List.map_append, hadd.reads hadd', hbytes, hbytes']
  · exact (List.mem_append.mp ha).elim (hnew a) (hnew' a)

theorem Copied.focus (h : Copied c r r' bs) : Focus c r'.1 r'.2 := by
  obtain ⟨l, hadd, -⟩ := h
  exact hadd.focus

theorem Copied.fresh (h : Copied c r r' bs) (hf : Fresh malloc r.2) : Fresh malloc r'.2 := by
  obtain ⟨l, hadd, -⟩ := h
  exact hadd.fresh hf

theorem Copied.keep (h : Copied c r r' bs) (ha : a ∈ c.keep) : r'.1.mem a = r.1.mem a := by
  obtain ⟨l, hadd, -⟩ := h
  exact hadd.mem a (Or.inl ha)

theorem Focus.put_copied (h : Focus c e s) (hfit : bs.length ≤ s.scratchLim - s.scratchPos) :
    ∃ r', s.put e bs = some r' ∧ Copied c (e, s) r' bs := by
  obtain ⟨r', hput, hadd, hbytes, hnew⟩ := h.put hfit
  exact ⟨r', hput, _, hadd, hbytes, hnew⟩

theorem Shape.space_eq (h : s.Shape) : s.space = s.scratchLim - s.scratchPos :=
  if_pos h.bounds.2

theorem Focus.anew (h : Focus c e s) (hm : Fits c.prog c.objects malloc)
    (hf : Fresh malloc s) (hlen : bs.length ≤ n) :
    ∃ r', (s.morescratch malloc e n).2.put (s.morescratch malloc e n).1 bs = some r' ∧
      Copied c (e, s) r' bs ∧ r'.2.scratchLim ∉ c.keep := by
  obtain ⟨hadd, hroom, hlim⟩ := h.morescratch hm hf n
  obtain ⟨r', hput, hcopied⟩ := hadd.focus.put_copied (Nat.le_trans hlen hroom)
  have hnone : Copied c (e, s) (s.morescratch malloc e n) [] :=
    ⟨[], hadd, rfl, fun _ ha => absurd ha List.not_mem_nil⟩
  refine ⟨r', hput, hnone.trans hcopied, ?_⟩
  obtain ⟨iovs, lastiovend, rfl, -⟩ := put_cases hput
  exact hlim

theorem Focus.slowcopy (h : Focus c e s) (hm : Fits c.prog c.objects malloc)
    (hf : Fresh malloc s) (bs : List (BitVec 8)) :
    ∃ r', s.slowcopy malloc e bs = some r' ∧ Copied c (e, s) r' bs ∧
      (s.space < bs.length → r'.2.scratchLim ∉ c.keep) := by
  have hspace := h.shape.space_eq
  unfold Suio.slowcopy
  dsimp only
  split
  · rename_i hfit
    obtain ⟨r', hput, hcopied⟩ := @Focus.put_copied c e s bs h (by omega)
    exact ⟨r', hput, hcopied, fun hshort => absurd hfit (not_le.mpr hshort)⟩
  · split
    · obtain ⟨⟨e₁, s₁⟩, hput, hfirst⟩ := @Focus.put_copied c e s (bs.take s.space) h
        (by rw [List.length_take]; omega)
      obtain ⟨r', hput', hrest, hlim⟩ := hfirst.focus.anew hm (hfirst.fresh hf)
        (Nat.le_refl (bs.drop s.space).length)
      have hboth := hfirst.trans hrest
      rw [List.take_append_drop] at hboth
      refine ⟨r', ?_, hboth, fun _ => hlim⟩
      rw [hput]
      exact hput'
    · obtain ⟨r', hput, hcopied, hlim⟩ := h.anew hm hf (Nat.le_refl bs.length)
      exact ⟨r', hput, hcopied, fun _ => hlim⟩

theorem Focus.copy (h : Focus c e s) (hm : Fits c.prog c.objects malloc)
    (hf : Fresh malloc s) (buf len : ℕ) :
    ∃ r', s.copy malloc e buf len = some r' ∧ Copied c (e, s) r' (e.mem.read buf len) ∧
      (s.space < len → r'.2.scratchLim ∉ c.keep) := by
  have hread : (e.mem.read buf len).length = len := by simp [Mem.read]
  unfold Suio.copy
  split
  · rename_i hfit
    have hspace := h.shape.space_eq
    obtain ⟨r', hput, hcopied⟩ := @Focus.put_copied c e s (e.mem.read buf len) h (by omega)
    exact ⟨r', hput, hcopied, fun hshort => absurd hfit (not_le.mpr hshort)⟩
  · have hslow := h.slowcopy hm hf (e.mem.read buf len)
    rwa [hread] at hslow

theorem Focus.fill (h : Focus c e s) (hm : Fits c.prog c.objects malloc)
    (hf : Fresh malloc s) (ch : BitVec 8) (n : ℤ) : ∃ r', s.fill malloc e ch n = some r' ∧
      Copied c (e, s) r' (List.replicate n.toNat ch) := by
  unfold Suio.fill
  split
  · have hzero : n.toNat = 0 := by omega
    rw [hzero]
    exact ⟨_, rfl, Copied.refl h⟩
  · split
    · apply h.put_copied
      rw [List.length_replicate]
      omega
    · obtain ⟨r', hslow, hcopied, -⟩ := h.slowcopy hm hf (List.replicate n.toNat ch)
      exact ⟨r', hslow, hcopied⟩

theorem write_nil (mem : Mem) (a : ℕ) : mem.write a [] = mem := by
  funext x
  unfold Mem.write
  split <;> rfl

/-- The bytes are not at the end of a full scratch buffer, nor, where they are pushed by
reference, at the pointer that is left over in an empty suio. -/
def PrintWorks (s : Suio) (buf len : ℕ) : Prop :=
  (0 < len → buf ≠ s.scratchPos) ∧ (smallbufsize < len → s.iovs = [] → buf ≠ s.lastiovend)

theorem Focus.print (h : Focus c e s) (hm : Fits c.prog c.objects malloc) (hf : Fresh malloc s)
    (hbuf : ∀ a ∈ List.range' buf len, a ∈ c.prog ∧ a ∈ c.keep) (hworks : s.PrintWorks buf len) :
    ∃ r' l, s.print malloc e buf len = some r' ∧ Added c (e, s) r' l ∧
      l.map r'.1.mem = e.mem.read buf len ∧ ∀ a ∈ l, a ∉ c.keep ∨ a ∈ c.prog := by
  unfold Suio.print
  split
  · obtain ⟨r', hcopy, ⟨l, hadd, hbytes, hnew⟩, -⟩ := h.copy hm hf buf len
    exact ⟨r', l, hcopy, hadd, hbytes, fun a ha => Or.inl (hnew a ha)⟩
  · rename_i href
    by_cases hlen : len = 0
    · -- no bytes, at the free end
      subst hlen
      obtain rfl : buf = s.scratchPos := by
        by_contra hne
        exact href ⟨Nat.zero_le _, hne⟩
      obtain ⟨r', hput, hadd, -, -⟩ := @Focus.put c e s [] h (Nat.zero_le _)
      obtain ⟨s', hpush, heq⟩ := Option.bind_eq_some_iff.mp hput
      cases heq
      have hpush' : s.pushiov s.scratchPos 0 = some s' := hpush
      rw [write_nil] at hadd
      exact ⟨(e, s'), [], by rw [hpush']; rfl, hadd, rfl, fun _ ha => absurd ha List.not_mem_nil⟩
    · have hne := hworks.1 (Nat.pos_of_ne_zero hlen)
      have hbig : smallbufsize < len := by
        by_contra hsmall
        exact href ⟨Nat.not_lt.mp hsmall, hne⟩
      obtain ⟨s', hpush, hadd⟩ := @Focus.push c e s buf len h hlen
        (fun a ha => ⟨(hbuf a ha).2, Or.inl (hbuf a ha).1⟩) hne (hworks.2 hbig)
      exact ⟨(e, s'), _, by rw [hpush]; rfl, hadd, rfl, fun a ha => Or.inr (hbuf a ha).1⟩

theorem Iovmgr.skip_isSome {m : Iovmgr} (hn : n ≤ m.size) : ∃ m', m.skip n = some m' := by
  unfold Iovmgr.skip
  split
  · exact ⟨_, rfl⟩
  · obtain ⟨haddrs, hrest, hlens, hhead⟩ := skipIovs_spec m.iov (n - m.cur.len)
    have hsize : m.size = m.cur.len + lens m.iov := rfl
    generalize hskip : skipIovs m.iov (n - m.cur.len) = skipped at haddrs hrest hlens hhead
    obtain ⟨us, k⟩ := skipped
    dsimp only at haddrs hrest hlens hhead
    cases k with
    | zero => exact ⟨_, rfl⟩
    | succ k =>
      cases us with
      | nil =>
        have hzero := congrArg List.length haddrs
        rw [addrs_nil, List.length_nil, List.length_drop, length_addrs] at hzero
        omega
      | cons v us =>
        have hlt := hhead v us rfl
        refine ⟨⟨us, v.base + (k + 1), v.len - (k + 1)⟩, ?_⟩
        exact if_neg (by omega)

theorem Focus.copyvScratch (h : Focus c e s) (iom : Iovmgr) :
    ∃ r' iom' bs, s.copyvScratch e iom = some (r'.1, r'.2, iom') ∧ Copied c (e, s) r' bs ∧
      bs ++ iom'.addrs.map e.mem = iom.addrs.map e.mem ∧ ∀ a ∈ iom'.addrs, a ∈ iom.addrs := by
  have hspace := h.shape.space_eq
  unfold Suio.copyvScratch
  dsimp only
  split
  · obtain ⟨bs, iom', hout⟩ : ∃ bs iom', iom.copyout e.mem s.space = (bs, iom') := ⟨_, _, rfl⟩
    obtain ⟨hbs, haddrs⟩ := Iovmgr.copyout_spec hout
    have hall : bs ++ iom'.addrs.map e.mem = iom.addrs.map e.mem := by
      rw [hbs, haddrs, ← List.map_append, List.take_append_drop]
    have hsub : ∀ a ∈ iom'.addrs, a ∈ iom.addrs := by
      intro a ha
      rw [haddrs] at ha
      exact List.mem_of_mem_drop ha
    rw [hout]
    dsimp only
    split
    · obtain ⟨r', hput, hcopied⟩ := @Focus.put_copied c e s bs h (by
        rw [hbs, List.length_map, List.length_take]
        omega)
      exact ⟨r', iom', bs, by rw [hput]; rfl, hcopied, hall, hsub⟩
    · rename_i hlen
      have hnil : bs = [] := List.length_eq_zero_iff.mp (Nat.eq_zero_of_not_pos hlen)
      rw [hnil] at hall
      exact ⟨(e, s), iom', [], rfl, Copied.refl h, hall, hsub⟩
  · exact ⟨(e, s), iom, [], rfl, Copied.refl h, rfl, fun _ ha => ha⟩

theorem Focus.copyv (h : Focus c e s) (hm : Fits c.prog c.objects malloc) (hf : Fresh malloc s)
    {iov : List Iovec} {skip : ℕ} (hskip : skip ≤ lens iov) (hiov : ∀ a ∈ addrs iov, a ∈ c.keep) :
    ∃ r', s.copyv malloc e iov skip = some r' ∧
      Copied c (e, s) r' (((addrs iov).drop skip).map e.mem) := by
  obtain ⟨iom, hiom⟩ := Iovmgr.skip_isSome (m := Iovmgr.new iov) (n := skip)
    (by rw [Iovmgr.size_eq, Iovmgr.addrs_new, length_addrs]; exact hskip)
  obtain ⟨-, haddrs⟩ := Iovmgr.skip_spec hiom
  rw [Iovmgr.addrs_new] at haddrs
  obtain ⟨⟨e₁, s₁⟩, iom', bs, hscratch, hfirst, hall, hsub⟩ := h.copyvScratch iom
  have hkeep : ∀ a ∈ iom'.addrs, a ∈ c.keep := by
    intro a ha
    have hmem := hsub a ha
    rw [haddrs] at hmem
    exact hiov a (List.mem_of_mem_drop hmem)
  rw [← haddrs, ← hall]
  unfold Suio.copyv
  rw [hiom]
  simp only [Option.bind_eq_bind, Option.bind_some, hscratch]
  split
  · obtain ⟨hadd, -⟩ := hfirst.focus.morescratch hm (hfirst.fresh hf) iom'.size
    have hread : (iom'.copyout (s₁.morescratch malloc e₁ iom'.size).1.mem iom'.size).1 =
        iom'.addrs.map e.mem := by
      obtain ⟨hbs, -⟩ := Iovmgr.copyout_spec (Prod.eta (iom'.copyout
        (s₁.morescratch malloc e₁ iom'.size).1.mem iom'.size)).symm
      rw [hbs, List.take_of_length_le (Nat.le_of_eq iom'.size_eq.symm)]
      apply List.map_congr_left
      intro a ha
      rw [hadd.mem a (Or.inl (hkeep a ha)), hfirst.keep (hkeep a ha)]
    obtain ⟨r', hput, hrest, -⟩ := @Focus.anew c e₁ s₁ malloc (iom'.addrs.map e.mem) iom'.size
      hfirst.focus hm (hfirst.fresh hf) (by rw [List.length_map, iom'.size_eq])
    rw [hread]
    exact ⟨r', hput, hfirst.trans hrest⟩
  · rename_i hsize
    have hnil : iom'.addrs = [] := by
      apply List.length_eq_zero_iff.mp
      rw [← iom'.size_eq]
      omega
    rw [hnil, List.map_nil, List.append_nil]
    exact ⟨_, rfl, hfirst⟩

theorem forall₂_of_right {α β : Type*} {R : α → β → Prop} {l : List α} {l' : List β}
    (hlen : l.length = l'.length) (h : ∀ x, ∀ y ∈ l', R x y) : List.Forall₂ R l l' := by
  induction l generalizing l' with
  | nil =>
    rw [List.length_eq_zero_iff.mp hlen.symm]
    exact .nil
  | cons x l ih =>
    cases l' with
    | nil => cases hlen
    | cons y l' =>
      exact .cons (h x y List.mem_cons_self)
        (ih (Nat.succ.inj hlen) fun x y hy => h x y (List.mem_cons_of_mem _ hy))

/-- Bytes stay where they are, or are copied to addresses that nothing else has. -/
def Moved (c : Around) (l l' : List ℕ) : Prop :=
  List.Forall₂ (fun a a' => a' = a ∨ a' ∉ c.keep) l l'

theorem Moved.exists_of_right {l l' : List ℕ} (h : Moved c l l') (ha : a ∈ l') :
    ∃ a₀ ∈ l, a = a₀ ∨ a ∉ c.keep := by
  induction h with
  | nil => exact absurd ha List.not_mem_nil
  | @cons x y l l' hxy _ ih =>
    rcases List.mem_cons.mp ha with rfl | ha
    · exact ⟨x, List.mem_cons_self, hxy⟩
    · obtain ⟨a₀, ha₀, h⟩ := ih ha
      exact ⟨a₀, List.mem_cons_of_mem _ ha₀, h⟩

/-- What `take` and `borrow_data` may find in the other suio: pieces that are in its own
buffer, or in the program's memory and the blocks of other suios. -/
structure Source (c : Around) (defbuf : ℕ) (vs : List Iovec) : Prop where
  pieces : ∀ v ∈ vs, v.len ≠ 0
  keep : ∀ a ∈ addrs vs, a ∈ c.keep
  out : ∀ v ∈ vs, ¬(defbuf ≤ v.base ∧ v.base < defbuf + smallbufsize) →
    ∀ a ∈ List.range' v.base v.len, a ∈ c.prog ∨ ∃ b ∈ c.blocks, inBlock b a

variable {defbuf : ℕ} {vs : List Iovec}

theorem Source.base (h : Source c defbuf vs) {v : Iovec} (hv : v ∈ vs) : v.base ∈ c.keep := by
  have hlen := h.pieces v hv
  apply h.keep
  unfold addrs
  rw [List.mem_flatMap]
  exact ⟨v, hv, by rw [List.mem_range'_1]; omega⟩

theorem Source.tail {v : Iovec} (h : Source c defbuf (v :: vs)) : Source c defbuf vs :=
  ⟨fun u hu => h.pieces u (List.mem_cons_of_mem _ hu),
    fun a ha => h.keep a (by rw [addrs_cons]; exact List.mem_append_right _ ha),
    fun u hu => h.out u (List.mem_cons_of_mem _ hu)⟩

/-- No piece is pushed by reference at the end of a scratch buffer that is full by then, nor the
first one at the pointer that is left over in an empty suio. -/
def AppendWorks (s : Suio) (defbuf : ℕ) (vs : List Iovec) : Prop :=
  s.RefsApart defbuf vs ∧ (s.iovs = [] → ∀ v, vs.head? = some v → v.inside defbuf = false →
    v.base ≠ s.lastiovend)

theorem Focus.base_ne_pos (h : Focus c e s) (hlim : s.scratchLim ∉ c.keep) (ha : a ∈ c.keep) :
    a ≠ s.scratchPos := by
  rintro rfl
  obtain ⟨-, hle⟩ := h.shape.bounds
  rcases Nat.lt_or_eq_of_le hle with hlt | hfull
  · -- the free end has no bytes of anyone
    exact (h.idle _ (Or.inl ⟨Nat.le_refl _, hlt⟩)).1 ha
  · exact hlim (hfull ▸ ha)

theorem Focus.appendIov (h : Focus c e s) (hm : Fits c.prog c.objects malloc)
    (hf : Fresh malloc s) {v : Iovec}
    (hsrc : Source c defbuf (v :: vs)) (hpos : v.inside defbuf = false → v.base ≠ s.scratchPos)
    (hstale : s.iovs = [] → v.inside defbuf = false → v.base ≠ s.lastiovend) :
    ∃ r' l, appendIov malloc defbuf v e s = some r' ∧ Added c (e, s) r' l ∧
      l.map r'.1.mem = e.mem.read v.base v.len ∧ Moved c (List.range' v.base v.len) l ∧
      (Onward defbuf v s r'.2 ∨ r'.2.scratchLim ∉ c.keep) := by
  have hlen := hsrc.pieces v List.mem_cons_self
  by_cases hcond : defbuf ≤ v.base ∧ v.base < defbuf + smallbufsize
  · obtain ⟨r', hcopy, ⟨l, hadd, hbytes, hnew⟩, hlim⟩ := h.copy hm hf v.base v.len
    have happ : Suio.appendIov malloc defbuf v e s = some r' := by
      rw [Suio.appendIov, if_pos hcond, hcopy]
    have hlength := congrArg List.length hbytes
    rw [List.length_map, Mem.read, List.length_map] at hlength
    refine ⟨r', l, happ, hadd, hbytes, forall₂_of_right hlength.symm fun _ a' ha' =>
      Or.inr (hnew a' ha'), ?_⟩
    exact (appendIov_cases hlen hpos happ).imp_right fun hanew => hlim hanew.2.1
  · have hout : v.inside defbuf = false := decide_eq_false hcond
    have hkeep : ∀ a ∈ List.range' v.base v.len, a ∈ c.keep := by
      intro a ha
      apply hsrc.keep
      rw [addrs_cons]
      exact List.mem_append_left _ ha
    obtain ⟨s', hpush, hadd⟩ := h.push hlen
      (fun a ha => ⟨hkeep a ha, hsrc.out v List.mem_cons_self hcond a ha⟩) (hpos hout)
      fun hnil => hstale hnil hout
    have happ : Suio.appendIov malloc defbuf v e s = some (e, s') := by
      rw [Suio.appendIov, if_neg hcond, hpush]
      rfl
    refine ⟨(e, s'), _, happ, hadd, rfl, List.forall₂_same.mpr fun _ _ => Or.inl rfl, ?_⟩
    refine (appendIov_cases hlen hpos happ).imp_right fun hanew => ?_
    exact absurd hanew.1 (by rw [hout]; decide)

/-- The pieces come one behind the other as long as the first scratch buffer stays, or nothing that
is in use is at the end of the one that there is. -/
theorem Focus.appendIovs (h : Focus c e s) (hm : Fits c.prog c.objects malloc)
    (hf : Fresh malloc s) (hsrc : Source c defbuf vs)
    (hrefs : s.RefsApart defbuf vs ∨ s.scratchLim ∉ c.keep)
    (hstale : s.iovs = [] → ∀ v, vs.head? = some v → v.inside defbuf = false →
      v.base ≠ s.lastiovend) :
    ∃ r' l, appendIovs malloc defbuf vs e s = some r' ∧ Added c (e, s) r' l ∧
      l.map r'.1.mem = (addrs vs).map e.mem ∧ Moved c (addrs vs) l := by
  induction vs generalizing e s with
  | nil => exact ⟨(e, s), [], rfl, Added.refl h, rfl, .nil⟩
  | cons v vs ih =>
    have hpos : v.inside defbuf = false → v.base ≠ s.scratchPos := by
      intro hout
      rcases hrefs with hrefs | hlim
      · exact hrefs [] v vs rfl hout (Nat.zero_le _)
      · exact h.base_ne_pos hlim (hsrc.base List.mem_cons_self)
    obtain ⟨⟨e₁, s₁⟩, l₁, hfirst, hadd₁, hbytes₁, hmoved₁, hon⟩ :=
      h.appendIov hm hf hsrc hpos fun hnil => hstale hnil v rfl
    have hlen₁ : v.len = l₁.length := by
      rw [← hmoved₁.length_eq, List.length_range']
    have hrefs₁ : s₁.RefsApart defbuf vs ∨ s₁.scratchLim ∉ c.keep := by
      rcases hon with hon | hlim
      · refine hrefs.imp hon.refsApart fun hlim => ?_
        rw [hon.lim]
        exact hlim
      · exact Or.inr hlim
    have hstale₁ : s₁.iovs = [] → ∀ u, vs.head? = some u → u.inside defbuf = false →
        u.base ≠ s₁.lastiovend := by
      -- the list has bytes now
      intro hnil
      have haddrs := congrArg List.length hadd₁.addrs
      have hv := hsrc.pieces v List.mem_cons_self
      dsimp only at haddrs
      rw [hnil, List.length_append, ← hlen₁] at haddrs
      simp at haddrs
      omega
    obtain ⟨r', l₂, hrest, hadd₂, hbytes₂, hmoved₂⟩ :=
      ih hadd₁.focus (hadd₁.fresh hf) hsrc.tail hrefs₁ hstale₁
    refine ⟨r', l₁ ++ l₂, ?_, hadd₁.trans hadd₂, ?_, List.rel_append hmoved₁ hmoved₂⟩
    · rw [Suio.appendIovs, hfirst]
      exact hrest
    · have hsame : (addrs vs).map e₁.mem = (addrs vs).map e.mem :=
        List.map_congr_left fun a ha => hadd₁.mem a (Or.inl (hsrc.tail.keep a ha))
      rw [List.map_append, hadd₁.reads hadd₂, hbytes₁, hbytes₂, hsame, addrs_cons,
        List.map_append]
      rfl

end Sfslite.Async.Suio
