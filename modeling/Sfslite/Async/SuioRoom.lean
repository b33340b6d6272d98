import Sfslite.Async.SuioAppend

/-!
The scratch buffer while the pieces of another suio are appended: what is in the buffer of the
other one is copied, as long as there is room, and the first copy without room leaves the scratch
buffer behind.
-/

namespace Sfslite.Async.Suio

/-- In the buffer that a suio has at `defbuf`. -/
def Iovec.inside (defbuf : ℕ) (v : Iovec) : Bool :=
  decide (defbuf ≤ v.base ∧ v.base < defbuf + smallbufsize)

def copiedLen (defbuf : ℕ) (vs : List Iovec) : ℕ := lens (vs.filter (Iovec.inside defbuf))

/-- No piece that is pushed by reference starts where the copies in front of it end. -/
def RefsApart (s : Suio) (defbuf : ℕ) (vs : List Iovec) : Prop :=
  ∀ pre v post, vs = pre ++ v :: post → v.inside defbuf = false →
    copiedLen defbuf pre ≤ s.space → v.base ≠ s.scratchPos + copiedLen defbuf pre

/-- The end of the last piece behind `pre`, as long as the copies find room. -/
def endOf (s : Suio) (defbuf : ℕ) (pre : List Iovec) : ℕ :=
  match pre.getLast? with
  | none => s.lastiovend
  | some v => if v.inside defbuf then s.scratchPos + copiedLen defbuf pre else v.base + v.len

/-- How much of a copy behind `pre` that has no room is still put in the scratch buffer. -/
def lastRoom (s : Suio) (defbuf : ℕ) (pre : List Iovec) : ℕ :=
  if smallbufsize ≤ s.space - copiedLen defbuf pre ∨
      s.scratchPos + copiedLen defbuf pre = s.endOf defbuf pre then
    s.space - copiedLen defbuf pre
  else 0

/-- The scratch buffer, where it is left behind, waits for no byte behind the number `bound`. -/
def LeftBy (s : Suio) (defbuf : ℕ) (vs : List Iovec) (bound : ℕ) : Prop :=
  s.scratchBuf ≠ s.defbuf → ∀ pre v post, vs = pre ++ v :: post → v.inside defbuf →
    copiedLen defbuf pre ≤ s.space → s.space < copiedLen defbuf pre + v.len →
    s.nrembytes + s.uiobytes + lens pre + s.lastRoom defbuf pre ≤ bound

variable {malloc : Malloc} {e e' : Env} {s s' t : Suio} {r r' : Env × Suio} {v : Iovec}
  {pre vs : List Iovec} {bs : List (BitVec 8)} {defbuf bound : ℕ}

theorem copiedLen_cons :
    copiedLen defbuf (v :: vs) = copiedLen defbuf [v] + copiedLen defbuf vs := by
  unfold copiedLen
  cases h : v.inside defbuf <;> simp [h]

theorem copiedLen_append {us : List Iovec} :
    copiedLen defbuf (vs ++ us) = copiedLen defbuf vs + copiedLen defbuf us := by
  unfold copiedLen
  rw [List.filter_append, lens_append]

theorem copiedLen_inside (h : v.inside defbuf) : copiedLen defbuf [v] = v.len := by
  simp [copiedLen, h]

theorem copiedLen_outside (h : v.inside defbuf = false) : copiedLen defbuf [v] = 0 := by
  simp [copiedLen, h]

theorem RefsApart.of_inside (h : ∀ v ∈ vs, v.inside defbuf) : s.RefsApart defbuf vs := by
  intro pre v post hvs hout
  rw [h v (by simp [hvs])] at hout
  cases hout

/-- The piece is appended and the scratch buffer stays. -/
structure Onward (defbuf : ℕ) (v : Iovec) (s s' : Suio) : Prop where
  fits : copiedLen defbuf [v] ≤ s.space
  pos : s'.scratchPos = s.scratchPos + copiedLen defbuf [v]
  space : s'.space = s.space - copiedLen defbuf [v]
  last : s'.lastiovend = s.endOf defbuf [v]
  bytes : s'.uiobytes = s.uiobytes + v.len
  removed : s'.nrembytes = s.nrembytes
  buf : s'.scratchBuf = s.scratchBuf
  lim : s'.scratchLim = s.scratchLim
  defbuf : s'.defbuf = s.defbuf
  uiocbs : s'.uiocbs = s.uiocbs

theorem Onward.endOf (h : Onward defbuf v s s') :
    s'.endOf defbuf pre = s.endOf defbuf (v :: pre) := by
  cases pre with
  | nil => exact h.last
  | cons u pre =>
    unfold Suio.endOf
    rw [List.getLast?_cons_cons, List.getLast?_cons, h.pos,
      @copiedLen_cons v (u :: pre), Nat.add_assoc]

theorem Onward.refsApart (h : Onward defbuf v s s') (hrefs : s.RefsApart defbuf (v :: vs)) :
    s'.RefsApart defbuf vs := by
  intro pre u post hvs hout hroom
  have hfits := h.fits
  rw [h.space] at hroom
  have hne := hrefs (v :: pre) u post (by rw [hvs]; rfl) hout (by rw [copiedLen_cons]; omega)
  rw [copiedLen_cons] at hne
  rw [h.pos]
  omega

theorem Onward.leftBy (h : Onward defbuf v s s') (hleft : s.LeftBy defbuf (v :: vs) bound) :
    s'.LeftBy defbuf vs bound := by
  intro hheap pre u post hvs hin hroom hshort
  have hfits := h.fits
  rw [h.space] at hroom hshort
  rw [h.buf, h.defbuf] at hheap
  have hle := hleft hheap (v :: pre) u post (by rw [hvs]; rfl) hin
    (by rw [copiedLen_cons]; omega) (by rw [copiedLen_cons]; omega)
  have hlast : s'.lastRoom defbuf pre = s.lastRoom defbuf (v :: pre) := by
    unfold lastRoom
    rw [h.endOf, h.space, h.pos, @copiedLen_cons v pre, Nat.sub_sub, Nat.add_assoc]
  rw [hlast, h.removed, h.bytes]
  rw [lens_cons] at hle
  omega

theorem put_cases (h : s.put e bs = some r') :
    ∃ iovs lastiovend, r' = ({ e with mem := e.mem.write s.scratchPos bs }, { s with
      iovs := iovs
      lastiovend := lastiovend
      uiobytes := s.uiobytes + bs.length
      scratchPos := s.scratchPos + bs.length }) ∧
      (bs.length ≠ 0 → lastiovend = s.scratchPos + bs.length) := by
  obtain ⟨s', hpush, heq⟩ := Option.bind_eq_some_iff.mp h
  cases heq
  obtain ⟨iovs, lastiovend, rfl, hcases⟩ := pushiov_cases hpush
  rw [if_pos rfl]
  refine ⟨iovs, lastiovend, rfl, fun hlen => ?_⟩
  rcases hcases with ⟨-, hlast, -⟩ | ⟨-, -, hlast, -⟩ | ⟨-, hzero, -⟩
  · exact hlast
  · exact hlast
  · exact absurd hzero hlen

theorem sub64_add {x y n : ℕ} (h : n ≤ sub64 x y) : sub64 x (y + n) = sub64 x y - n := by
  unfold sub64 at h ⊢
  split at h <;> split <;> omega

/-- A copy of `len` bytes has no room: the scratch buffer is left behind for a new one. -/
structure Anew (malloc : Malloc) (len : ℕ) (s s' : Suio) : Prop where
  block : ∃ live k, k ≤ len ∧ s'.scratchPos = malloc live (scratchSize k) + k ∧
    s'.scratchLim = malloc live (scratchSize k) + scratchSize k
  uiocbs : ∀ c ∈ s'.uiocbs, c ∈ s.uiocbs ∨
    s.scratchBuf ≠ s.defbuf ∧ ∀ defbuf, c.nbytes = s.nrembytes + s.uiobytes + s.lastRoom defbuf []

theorem mem_condemnScratch {c : Uiocb} (h : c ∈ (s.condemnScratch e).2.uiocbs) :
    c ∈ s.uiocbs ∨ s.scratchBuf ≠ s.defbuf ∧ c.nbytes = s.nrembytes + s.uiobytes := by
  rw [condemnScratch] at h
  split at h
  · rename_i hheap
    rw [iovcb] at h
    split at h
    · rcases List.mem_append.mp h with h | h
      · exact Or.inl h
      · rw [List.mem_singleton] at h
        rw [h]
        exact Or.inr ⟨hheap, rfl⟩
    · exact Or.inl h
  · exact Or.inl h

theorem put_anew {n : ℕ} (h : (s.morescratch malloc e n).2.put (s.morescratch malloc e n).1 bs =
    some r') (hlen : bs.length = n) : ∃ live, r'.2.scratchPos = malloc live (scratchSize n) + n ∧
      r'.2.scratchLim = malloc live (scratchSize n) + scratchSize n ∧
      ∀ c ∈ r'.2.uiocbs, c ∈ s.uiocbs ∨
        s.scratchBuf ≠ s.defbuf ∧ c.nbytes = s.nrembytes + s.uiobytes := by
  obtain ⟨iovs, lastiovend, rfl, -⟩ := put_cases h
  rw [← hlen]
  exact ⟨_, rfl, rfl, fun c hc => mem_condemnScratch hc⟩

theorem slowcopy_cases (h : s.slowcopy malloc e bs = some r') :
    (bs.length ≤ s.space ∧ s.put e bs = some r') ∨
      (s.space < bs.length ∧ Anew malloc bs.length s r'.2) := by
  rw [slowcopy] at h
  split at h
  · rename_i hfit
    exact Or.inl ⟨hfit, h⟩
  · rename_i hshort
    refine Or.inr ⟨not_le.mp hshort, ?_⟩
    have hroom : ∀ defbuf, s.lastRoom defbuf [] =
        if smallbufsize ≤ s.space ∨ s.scratchPos = s.lastiovend then s.space else 0 :=
      fun _ => rfl
    split at h
    · rename_i hjoin
      obtain ⟨⟨e₁, s₁⟩, hput, h⟩ := Option.bind_eq_some_iff.mp h
      obtain ⟨iovs, lastiovend, heq, -⟩ := put_cases hput
      cases heq
      obtain ⟨live, hpos, hlim, hcbs⟩ := put_anew h rfl
      refine ⟨⟨live, _, by rw [List.length_drop]; omega, hpos, hlim⟩, fun c hc => ?_⟩
      refine (hcbs c hc).imp_right fun hnew => ⟨hnew.1, fun defbuf => ?_⟩
      have hnum := hnew.2
      rw [hroom, if_pos hjoin]
      dsimp only at hnum
      rw [List.length_take] at hnum
      omega
    · rename_i hjoin
      obtain ⟨live, hpos, hlim, hcbs⟩ := put_anew h rfl
      refine ⟨⟨live, _, Nat.le_refl _, hpos, hlim⟩, fun c hc => ?_⟩
      refine (hcbs c hc).imp_right fun hnew => ⟨hnew.1, fun defbuf => ?_⟩
      rw [hroom, if_neg hjoin, hnew.2, Nat.add_zero]

theorem copy_cases {buf len : ℕ} (h : s.copy malloc e buf len = some r') :
    (len ≤ s.space ∧ s.put e (e.mem.read buf len) = some r') ∨
      (s.space < len ∧ Anew malloc len s r'.2) := by
  have hread : (e.mem.read buf len).length = len := by simp [Mem.read]
  rw [copy] at h
  split at h
  · rename_i hfit
    exact Or.inl ⟨hfit, h⟩
  · have hcases := slowcopy_cases h
    rwa [hread] at hcases

theorem appendIov_cases (hlen : v.len ≠ 0) (href : v.inside defbuf = false → v.base ≠ s.scratchPos)
    (h : appendIov malloc defbuf v e s = some r') :
    Onward defbuf v s r'.2 ∨
      (v.inside defbuf ∧ s.space < v.len ∧ Anew malloc v.len s r'.2) := by
  rw [appendIov] at h
  split at h
  · rename_i hcond
    have hin : v.inside defbuf := decide_eq_true hcond
    have hcopied := copiedLen_inside hin
    rcases copy_cases h with ⟨hfit, hput⟩ | ⟨hshort, hanew⟩
    · have hread : (e.mem.read v.base v.len).length = v.len := by simp [Mem.read]
      obtain ⟨iovs, lastiovend, rfl, hlast⟩ := put_cases hput
      rw [hread] at hlast
      refine Or.inl ⟨by rw [hcopied]; exact hfit, by rw [hcopied, hread], ?_, ?_, by rw [hread],
        rfl, rfl, rfl, rfl, rfl⟩
      · rw [hcopied, hread]
        exact sub64_add hfit
      · rw [hlast hlen]
        simp [Suio.endOf, hin, hcopied]
    · exact Or.inr ⟨hin, hshort, hanew⟩
  · rename_i hcond
    have hout : v.inside defbuf = false := decide_eq_false hcond
    have hcopied := copiedLen_outside hout
    obtain ⟨s', hpush, rfl⟩ := Option.map_eq_some_iff.mp h
    obtain ⟨iovs, lastiovend, rfl, hcases⟩ := pushiov_cases hpush
    have hlast : lastiovend = v.base + v.len := by
      rcases hcases with ⟨-, hlast, -⟩ | ⟨-, -, hlast, -⟩ | ⟨-, hzero, -⟩
      · exact hlast
      · exact hlast
      · exact absurd hzero hlen
    rw [if_neg (href hout)]
    refine Or.inl ⟨by rw [hcopied]; exact Nat.zero_le _, by rw [hcopied]; rfl, by rw [hcopied]; rfl,
      ?_, rfl, rfl, rfl, rfl, rfl, rfl⟩
    rw [hlast]
    simp [Suio.endOf, hout]

theorem appendIovs_fit (hpieces : ∀ v ∈ vs, v.len ≠ 0) (hrefs : s.RefsApart defbuf vs)
    (hfit : copiedLen defbuf vs ≤ s.space) (h : appendIovs malloc defbuf vs e s = some (e', t)) :
    t.uiocbs = s.uiocbs := by
  induction vs generalizing e s with
  | nil =>
    cases h
    rfl
  | cons v vs ih =>
    obtain ⟨⟨e₁, s₁⟩, hfirst, h⟩ := Option.bind_eq_some_iff.mp h
    rw [copiedLen_cons] at hfit
    rcases appendIov_cases (hpieces v List.mem_cons_self)
      (fun hout => hrefs [] v vs rfl hout (Nat.zero_le _)) hfirst with hon | ⟨hin, hshort, -⟩
    · have hspace := hon.space
      rw [ih (fun u hu => hpieces u (List.mem_cons_of_mem v hu)) (hon.refsApart hrefs)
        (by rw [hspace]; omega) h, hon.uiocbs]
    · rw [copiedLen_inside hin] at hfit
      omega

/-- The allocator does not answer with memory that a piece is in or next to. -/
def Clear (malloc : Malloc) (vs : List Iovec) : Prop :=
  ∀ live size, ∀ v ∈ vs, v.base < malloc live size ∨ malloc live size + size < v.base

theorem Anew.fits {len : ℕ} (h : Anew malloc len s s')
    (hsmall : len + copiedLen defbuf vs ≤ smallbufsize) (hclear : Clear malloc vs) :
    s'.RefsApart defbuf vs ∧ copiedLen defbuf vs ≤ s'.space := by
  obtain ⟨live, k, hk, hpos, hlim⟩ := h.block
  have hsize : len + copiedLen defbuf vs ≤ scratchSize k := by
    unfold smallbufsize at hsmall
    unfold scratchSize blocksize mallocresv
    omega
  constructor
  · intro pre v post hvs _ _
    have hbase := hclear live (scratchSize k) v (by rw [hvs]; simp)
    rw [hvs, copiedLen_append] at hsize
    rw [hpos]
    omega
  · unfold space sub64
    rw [hpos, hlim, if_pos (by omega)]
    omega

theorem appendIovs_bound (hpieces : ∀ v ∈ vs, v.len ≠ 0) (hrefs : s.RefsApart defbuf vs)
    (hleft : s.LeftBy defbuf vs bound) (hsmall : copiedLen defbuf vs ≤ smallbufsize)
    (hclear : Clear malloc vs) (hs : ∀ c ∈ s.uiocbs, c.nbytes ≤ bound)
    (h : appendIovs malloc defbuf vs e s = some (e', t)) : ∀ c ∈ t.uiocbs, c.nbytes ≤ bound := by
  induction vs generalizing e s with
  | nil =>
    cases h
    exact hs
  | cons v vs ih =>
    have hpieces' : ∀ u ∈ vs, u.len ≠ 0 := fun u hu => hpieces u (List.mem_cons_of_mem v hu)
    have hclear' : Clear malloc vs := fun live size u hu =>
      hclear live size u (List.mem_cons_of_mem v hu)
    obtain ⟨⟨e₁, s₁⟩, hfirst, h⟩ := Option.bind_eq_some_iff.mp h
    rw [copiedLen_cons] at hsmall
    rcases appendIov_cases (hpieces v List.mem_cons_self)
      (fun hout => hrefs [] v vs rfl hout (Nat.zero_le _)) hfirst with hon | ⟨hin, hshort, hanew⟩
    · refine ih hpieces' (hon.refsApart hrefs) (hon.leftBy hleft) (by omega) hclear' ?_ h
      rw [hon.uiocbs]
      exact hs
    · -- the new buffer holds all the copies that are left
      rw [copiedLen_inside hin] at hsmall
      obtain ⟨hrefs', hfit⟩ := hanew.fits hsmall hclear'
      rw [appendIovs_fit hpieces' hrefs' hfit h]
      intro c hc
      rcases hanew.uiocbs c hc with hold | ⟨hheap, hnum⟩
      · exact hs c hold
      · have hle := hleft hheap [] v vs rfl hin (Nat.zero_le _)
          (by simpa [copiedLen] using hshort)
        rw [hnum defbuf]
        simpa using hle

end Sfslite.Async.Suio
