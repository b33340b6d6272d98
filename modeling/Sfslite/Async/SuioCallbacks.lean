import Sfslite.Async.SuioLast
import Sfslite.Async.SuioRoom
import Sfslite.Lib.MarkQueue

/-!
The callbacks of suios against queues of bytes with marks between them. The code keeps the
callbacks by the byte number they wait for and looks at the first one only.
-/

namespace Sfslite.Async.Suio

open Sfslite.Lib

/-- Queues of bytes with marks, and the marks that have gone. -/
structure Marks (ι : Type*) where
  queue : ι → MarkQueue Unit ℕ
  gone : List ℕ

section

variable {ι : Type*} [DecidableEq ι]

def Marks.set (v : Marks ι) (i : ι) (r : List ℕ × MarkQueue Unit ℕ) : Marks ι :=
  ⟨Function.update v.queue i r.2, v.gone ++ r.1⟩

def Marks.append (v : Marks ι) (i : ι) (n : ℕ) : Marks ι :=
  v.set i ([], (v.queue i).append (List.replicate n ()))

@[simp] theorem Marks.set_self (v : Marks ι) (i : ι) (r : List ℕ × MarkQueue Unit ℕ) :
    (v.set i r).queue i = r.2 := Function.update_self ..

theorem Marks.set_of_ne (v : Marks ι) {i k : ι} (r : List ℕ × MarkQueue Unit ℕ) (h : k ≠ i) :
    (v.set i r).queue k = v.queue k := Function.update_of_ne h ..

theorem Marks.set_queue (v : Marks ι) (i : ι) : v.set i ([], v.queue i) = v := by
  rw [Marks.set, Function.update_eq_self, List.append_nil]

/-- What an operation means: bytes are added, a mark is added, all of a queue goes behind
another, or bytes are removed with the marks they held back. -/
def Marks.step (v : Marks ι) : Op ι → Option (Marks ι)
  | .copy i _ len => some (v.append i len)
  | .print i _ len => some (v.append i len)
  | .fill i _ n => some (v.append i n.toNat)
  | .copyv i iov skip => some (v.append i (lens iov - skip))
  | .copyu i j => some (v.append i (v.queue j).count)
  | .take i j => some ((v.set i ([], v.queue i ++ v.queue j)).set j ([], []))
  | .borrowData i j => some (v.append i (v.queue j).count)
  | .iovcb i id => some (v.set i ((v.queue i).addMark id))
  | .rembytes i n => ((v.queue i).remove n).map (v.set i)
  | .clear i => ((v.queue i).remove (v.queue i).count).map (v.set i)
  | .input i _ bs => some (v.append i bs.length)
  | .breakiov _ => some v
  | .getspace _ _ => some v
  | .getspaceAligned _ _ => some v
  | .write _ _ => some v

end

def Cb.id? : Cb → Option ℕ
  | .wrap id => some id
  | .deallocator _ _ => none

/-- The program's own callbacks that have been made. -/
def userRan (ran : List Cb) : List ℕ := ran.filterMap Cb.id?

/-- The program's own callbacks that wait, each with the number of bytes it waits for. -/
def userMarks (s : Suio) : List (ℕ × ℕ) :=
  s.uiocbs.filterMap fun c => c.cb.id?.map fun id => (c.nbytes - s.nrembytes, id)

/-- The callbacks are sorted, and each waits for bytes that are in the queue. -/
structure CbInv (s : Suio) : Prop where
  count : s.uiobytes = lens s.iovs
  pieces : ∀ v ∈ s.iovs, v.len ≠ 0
  sorted : s.uiocbs.Pairwise fun c c' => c.nbytes ≤ c'.nbytes
  ahead : ∀ c ∈ s.uiocbs, s.nrembytes < c.nbytes
  within : ∀ c ∈ s.uiocbs, c.nbytes ≤ s.nrembytes + s.uiobytes

section

variable {malloc : Malloc} {R : ℕ → ℕ → Prop} {e e' : Env} {s s' : Suio} {base len n : ℕ}
  {r : Env × Suio} {cb : Cb}

theorem CbInv.new {defbuf : ℕ} : (Suio.new defbuf).CbInv where
  count := rfl
  pieces := fun _ hv => absurd hv List.not_mem_nil
  sorted := List.Pairwise.nil
  ahead := fun _ hc => absurd hc List.not_mem_nil
  within := fun _ hc => absurd hc List.not_mem_nil

theorem userRan_append (ran ran' : List Cb) :
    userRan (ran ++ ran') = userRan ran ++ userRan ran' := List.filterMap_append

/-- What a chain of appends leaves as it was, and what it adds. -/
structure Grown (n : ℕ) (r r' : Env × Suio) : Prop where
  inv : r'.2.CbInv
  bytes : r'.2.uiobytes = r.2.uiobytes + n
  removed : r'.2.nrembytes = r.2.nrembytes
  marks : userMarks r'.2 = userMarks r.2
  ran : userRan r'.1.ran = userRan r.1.ran

theorem Grown.pushiov (h : Grown n r (e, s)) (hpush : s.pushiov base len = some s')
    (hran : e'.ran = e.ran) : Grown (n + len) r (e', s') := by
  have hlens := lens_pushiov hpush
  have hpieces := pushiov_pieces hpush h.inv.pieces
  obtain ⟨iovs, lastiovend, rfl, -⟩ := pushiov_cases hpush
  obtain ⟨⟨hcount, -, hsorted, hahead, hwithin⟩, hbytes, hremoved, hmarks, huser⟩ := h
  dsimp only at *
  refine ⟨⟨by rw [hlens, hcount], hpieces, hsorted, hahead, ?_⟩, by dsimp only; omega, hremoved,
    hmarks, by dsimp only; rw [hran, huser]⟩
  intro c hc
  have := hwithin c hc
  dsimp only
  omega

theorem CbInv.iovcb (h : s.CbInv) (hpos : s.uiobytes ≠ 0) : (s.iovcb e cb).2.CbInv := by
  rw [Suio.iovcb, if_pos hpos]
  obtain ⟨hcount, hpieces, hsorted, hahead, hwithin⟩ := h
  refine ⟨hcount, hpieces, ?_, ?_, ?_⟩
  · rw [List.pairwise_append]
    refine ⟨hsorted, List.pairwise_singleton .., ?_⟩
    intro c hc c' hc'
    rw [List.mem_singleton] at hc'
    rw [hc']
    exact hwithin c hc
  · intro c hc
    rcases List.mem_append.mp hc with hc | hc
    · exact hahead c hc
    · rw [List.mem_singleton] at hc
      rw [hc]
      dsimp only
      omega
  · intro c hc
    rcases List.mem_append.mp hc with hc | hc
    · exact hwithin c hc
    · rw [List.mem_singleton] at hc
      rw [hc]

theorem Grown.condemnScratch (h : Grown n r (e, s)) : Grown n r (s.condemnScratch e) := by
  obtain ⟨hinv, hbytes, hremoved, hmarks, huser⟩ := h
  rw [Suio.condemnScratch]
  split
  · rw [Suio.iovcb]
    split
    · rename_i hpos
      have hadd : (s.iovcb e
          (.deallocator s.scratchBuf (s.scratchLim - s.scratchBuf))).2.CbInv := hinv.iovcb hpos
      rw [Suio.iovcb, if_pos hpos] at hadd
      refine ⟨hadd, hbytes, hremoved, ?_, huser⟩
      rw [← hmarks, userMarks, userMarks, List.filterMap_append]
      exact List.append_nil _
    · refine ⟨hinv, hbytes, hremoved, hmarks, ?_⟩
      rw [← huser]
      exact (userRan_append _ _).trans (List.append_nil _)
  · exact ⟨hinv, hbytes, hremoved, hmarks, huser⟩

theorem Grown.appends {r' : Env × Suio} (h : Appends malloc R r n r') (hs : r.2.CbInv) :
    Grown n r r' := by
  induction h with
  | refl => exact ⟨hs, rfl, rfl, rfl, rfl⟩
  | put _ hput ih =>
    obtain ⟨s'', hpush, heq⟩ := Option.bind_eq_some_iff.mp hput
    cases heq
    exact ih.pushiov hpush rfl
  | push _ _ hpush ih => exact ih.pushiov hpush rfl
  | condemn _ ih => exact ih.condemnScratch
  | heap _ ih => exact ⟨ih.inv, ih.bytes, ih.removed, ih.marks, ih.ran⟩
  | scratch _ ih =>
    have hinv := ih.inv
    exact ⟨{ hinv with }, ih.bytes, ih.removed, ih.marks,
      ih.ran⟩

@[simp] theorem Env.call_ran : (e.call cb).ran = e.ran ++ [cb] := by
  cases cb <;> rfl

variable {cs : List Uiocb}

theorem makeuiocbs_spec (hsorted : cs.Pairwise fun c c' => c.nbytes ≤ c'.nbytes) :
    (makeuiocbs n cs e).2 = cs.filter (fun c => n < c.nbytes) ∧
      (makeuiocbs n cs e).1.ran = e.ran ++ (cs.filter fun c => c.nbytes ≤ n).map Uiocb.cb := by
  induction cs generalizing e with
  | nil => simp [makeuiocbs]
  | cons c cs ih =>
    obtain ⟨hc, hcs⟩ := List.pairwise_cons.mp hsorted
    rw [makeuiocbs]
    split
    · rename_i hle
      obtain ⟨hrest, hran⟩ := ih (e := e.call c.cb) hcs
      constructor
      · rw [hrest, List.filter_cons_of_neg (by simpa using hle)]
      · rw [hran, List.filter_cons_of_pos (by simpa using hle), Env.call_ran, List.map_cons,
          List.append_assoc]
        rfl
    · rename_i hlt
      have hall : ∀ c' ∈ c :: cs, n < c'.nbytes := by
        intro c' hc'
        rcases List.mem_cons.mp hc' with rfl | hc'
        · omega
        · have := hc c' hc'
          omega
      have hnone : (c :: cs).filter (fun c => c.nbytes ≤ n) = [] := by
        rw [List.filter_eq_nil_iff]
        intro c' hc'
        have := hall c' hc'
        simpa using this
      constructor
      · exact (List.filter_eq_self.mpr fun c' hc' => decide_eq_true (hall c' hc')).symm
      · rw [hnone]
        simp

theorem userRan_filter {nrem : ℕ} (hahead : ∀ c ∈ cs, nrem < c.nbytes) :
    userRan ((cs.filter fun c => c.nbytes ≤ nrem + n).map Uiocb.cb) =
      ((cs.filterMap fun c => c.cb.id?.map fun id => (c.nbytes - nrem, id)).filter
        fun p => p.1 ≤ n).map Prod.snd := by
  induction cs with
  | nil => rfl
  | cons c cs ih =>
    have hc := hahead c List.mem_cons_self
    have ih := ih fun c' hc' => hahead c' (List.mem_cons_of_mem c hc')
    have hiff : c.nbytes ≤ nrem + n ↔ c.nbytes - nrem ≤ n := by omega
    rw [userRan] at ih ⊢
    rw [List.filter_cons, List.filterMap_cons]
    cases hid : c.cb.id? with
    | none =>
      by_cases hle : c.nbytes ≤ nrem + n <;> simp [hle, hid, ih]
    | some id =>
      by_cases hle : c.nbytes ≤ nrem + n
      · have hle' := hiff.mp hle
        simp [hle, hle', hid, ih]
      · have hle' := mt hiff.mpr hle
        simp [hle, hle', ih]

theorem userMarks_filter {nrem : ℕ} (hahead : ∀ c ∈ cs, nrem < c.nbytes) :
    ((cs.filter fun c => nrem + n < c.nbytes).filterMap fun c =>
        c.cb.id?.map fun id => (c.nbytes - (nrem + n), id)) =
      ((cs.filterMap fun c => c.cb.id?.map fun id => (c.nbytes - nrem, id)).filter
        fun p => n < p.1).map fun p => (p.1 - n, p.2) := by
  induction cs with
  | nil => rfl
  | cons c cs ih =>
    have hc := hahead c List.mem_cons_self
    have ih := ih fun c' hc' => hahead c' (List.mem_cons_of_mem c hc')
    have hiff : nrem + n < c.nbytes ↔ n < c.nbytes - nrem := by omega
    rw [List.filter_cons, List.filterMap_cons]
    cases hid : c.cb.id? with
    | none =>
      by_cases hlt : nrem + n < c.nbytes <;> simp [hlt, hid, ih]
    | some id =>
      by_cases hlt : nrem + n < c.nbytes
      · have hlt' := hiff.mp hlt
        simp [hlt, hlt', hid, ih, Nat.sub_sub]
      · have hlt' := mt hiff.mpr hlt
        simp [hlt, hlt', ih]

theorem CbInv.rembytes (hs : s.CbInv) (h : s.rembytes e n = some (e', s')) :
    s'.CbInv ∧ n ≤ s.uiobytes ∧ s'.uiobytes = s.uiobytes - n ∧
      userMarks s' = ((userMarks s).filter fun p => n < p.1).map (fun p => (p.1 - n, p.2)) ∧
      userRan e'.ran = userRan e.ran ++ ((userMarks s).filter fun p => p.1 ≤ n).map Prod.snd := by
  obtain ⟨hle, us, hus, hmake, hiovs, hbytes, hrem, -⟩ := rembytes_cases h
  obtain ⟨-, haddrs, -⟩ := remIovs_spec hus
  obtain ⟨hcbs, hran⟩ := makeuiocbs_spec (e := e) (n := s.nrembytes + n) hs.sorted
  rw [← hmake] at hcbs hran
  dsimp only at hcbs hran
  refine ⟨⟨?_, ?_, ?_, ?_, ?_⟩, hle, hbytes, ?_, ?_⟩
  · rw [hbytes, hiovs, ← length_addrs, haddrs, List.length_drop, length_addrs, hs.count]
  · rw [hiovs]
    exact remIovs_pieces hus hs.pieces
  · rw [hcbs]
    exact hs.sorted.filter _
  · intro c hc
    rw [hcbs, List.mem_filter] at hc
    rw [hrem]
    exact of_decide_eq_true hc.2
  · intro c hc
    rw [hcbs, List.mem_filter] at hc
    have := hs.within c hc.1
    omega
  · rw [userMarks, hcbs, hrem, userMarks_filter hs.ahead]
    rfl
  · rw [hran, userRan_append, userRan_filter hs.ahead]
    rfl

theorem CbInv.userMarks_le (hs : s.CbInv) : ∀ p ∈ userMarks s, p.1 ≤ s.uiobytes := by
  intro p hp
  obtain ⟨c, hc, hid⟩ := List.mem_filterMap.mp hp
  obtain ⟨id, -, rfl⟩ := Option.map_eq_some_iff.mp hid
  have := hs.within c hc
  dsimp only
  omega

theorem CbInv.clear (hs : s.CbInv) (h : s.clear e = some (e', s')) :
    s'.CbInv ∧ s'.uiobytes = 0 ∧ userMarks s' = [] ∧
      userRan e'.ran = userRan e.ran ++ (userMarks s).map Prod.snd := by
  obtain ⟨⟨e₁, s₁⟩, hrem, h⟩ := Option.bind_eq_some_iff.mp h
  obtain ⟨hinv, -, hbytes, -, hran⟩ := hs.rembytes hrem
  have hall : (userMarks s).filter (fun p => p.1 ≤ s.uiobytes) = userMarks s := by
    rw [List.filter_eq_self]
    exact fun p hp => decide_eq_true (hs.userMarks_le p hp)
  rw [Nat.sub_self] at hbytes
  rw [hall] at hran
  have hempty : ∀ {t : Suio}, t.iovs = [] → t.uiocbs = [] → t.uiobytes = 0 →
      t.CbInv ∧ t.uiobytes = 0 ∧ userMarks t = [] := by
    intro t hiovs hcbs hbytes
    refine ⟨⟨by rw [hbytes, hiovs]; rfl, ?_, ?_, ?_, ?_⟩, hbytes, by rw [userMarks, hcbs]; rfl⟩
    · rw [hiovs]
      exact fun _ hv => absurd hv List.not_mem_nil
    · rw [hcbs]
      exact List.Pairwise.nil
    · rw [hcbs]
      exact fun _ hc => absurd hc List.not_mem_nil
    · rw [hcbs]
      exact fun _ hc => absurd hc List.not_mem_nil
  dsimp only at h
  split at h
  · cases h
    obtain ⟨hinv', hzero, hmarks⟩ := hempty (t := { s₁ with
      scratchBuf := s₁.defbuf
      scratchLim := s₁.defbuf + smallbufsize
      scratchPos := s₁.defbuf
      iovs := []
      uiocbs := [] }) rfl rfl hbytes
    exact ⟨hinv', hzero, hmarks, hran⟩
  · cases h
    obtain ⟨hinv', hzero, hmarks⟩ := hempty (t := { s₁ with
      scratchPos := s₁.defbuf
      iovs := []
      uiocbs := [] }) rfl rfl hbytes
    exact ⟨hinv', hzero, hmarks, hran⟩

/-- What a `take` relies on: what the source has in its own buffer is no longer than it, and the
allocator does not answer with memory that bytes of the source are in. -/
def TakeLegal (malloc : Malloc) (uio : Suio) : Prop :=
  copiedLen uio.defbuf uio.iovs ≤ smallbufsize ∧ Clear malloc uio.iovs

/-- No piece is pushed by reference at the free end of the scratch buffer, and where the scratch
buffer is left behind, its release does not come behind a callback that waits in the source. -/
def TakeInOrder (s uio : Suio) : Prop :=
  s.RefsApart uio.defbuf uio.iovs ∧ ∀ c ∈ uio.uiocbs,
    s.LeftBy uio.defbuf uio.iovs (s.nrembytes + s.uiobytes + (c.nbytes - uio.nrembytes))

variable {uio uio' : Suio}

theorem moved_eq {nbytes nrem m : ℕ} (h : nrem < nbytes) :
    sub64 (nbytes + m) nrem = (nbytes - nrem) + m := by
  rw [sub64, if_pos (by omega)]
  omega

theorem CbInv.take (hs : s.CbInv) (huio : uio.CbInv) (hlegal : TakeLegal malloc uio)
    (hord : TakeInOrder s uio) (h : s.take malloc e uio = some (e', s', uio')) :
    (s'.CbInv ∧ uio'.CbInv) ∧ (s'.uiobytes = s.uiobytes + uio.uiobytes ∧ uio'.uiobytes = 0) ∧
      (userMarks s' = userMarks s ++ (userMarks uio).map (fun p => (p.1 + s.uiobytes, p.2)) ∧
        userMarks uio' = []) ∧
      userRan e'.ran = userRan e.ran := by
  obtain ⟨e₀, uio₀, t, hcond, happ, rfl, rfl⟩ := take_cases h
  have hgrown₀ : Grown 0 (e, uio) (e₀, uio₀) := by
    have hrefl : Grown 0 (e, uio) (e, uio) := ⟨huio, rfl, rfl, rfl, rfl⟩
    have := hrefl.condemnScratch
    rwa [hcond] at this
  obtain ⟨huio₀, hbytes₀, hrem₀, hmarks₀, hran₀⟩ := hgrown₀
  have hgrown : Grown (lens uio.iovs) (e₀, s) (e', t) :=
    Grown.appends (appendIovs_appends (R := fun _ _ => True) (fun _ _ _ => trivial) happ) hs
  obtain ⟨ht, hbytes, hrem, hmarks, hran⟩ := hgrown
  have hmem₀ : ∀ c ∈ uio₀.uiocbs, c ∈ uio.uiocbs ∨ c.nbytes = uio.nrembytes + uio.uiobytes := by
    intro c hc
    exact (mem_condemnScratch (e := e) (by rwa [hcond])).imp_right And.right
  have hcross : ∀ c ∈ uio.uiocbs, ∀ d ∈ t.uiocbs,
      d.nbytes ≤ s.nrembytes + s.uiobytes + (c.nbytes - uio.nrembytes) := by
    intro c hc
    apply appendIovs_bound huio.pieces hord.1 (hord.2 c hc) hlegal.1 hlegal.2 _ happ
    intro d hd
    have := hs.within d hd
    omega
  dsimp only at hbytes₀ hrem₀ hmarks₀ hran₀ hbytes hrem hmarks hran
  rw [← huio.count] at hbytes
  rw [Nat.add_zero] at hbytes₀
  have hahead₀ : ∀ c ∈ uio₀.uiocbs, uio.nrembytes < c.nbytes := by
    intro c hc
    rw [← hrem₀]
    exact huio₀.ahead c hc
  refine ⟨⟨⟨ht.count, ht.pieces, ?_, ?_, ?_⟩, ⟨rfl, fun _ hv => absurd hv List.not_mem_nil,
    List.Pairwise.nil, fun _ hc => absurd hc List.not_mem_nil,
    fun _ hc => absurd hc List.not_mem_nil⟩⟩, ⟨hbytes, rfl⟩, ⟨?_, rfl⟩, hran.trans hran₀⟩
  · rw [List.pairwise_append, List.pairwise_map]
    refine ⟨ht.sorted, ?_, ?_⟩
    · refine huio₀.sorted.imp_of_mem fun {c c'} hc hc' hle => ?_
      rw [moved_eq (hahead₀ c hc), moved_eq (hahead₀ c' hc')]
      dsimp only
      omega
    · intro c hc c' hc'
      obtain ⟨d, hd, rfl⟩ := List.mem_map.mp hc'
      have hd₀ := hahead₀ d hd
      have hwithin := ht.within c hc
      rw [moved_eq hd₀]
      dsimp only at hwithin ⊢
      rcases hmem₀ d hd with hd | hd
      · have := hcross d hd c hc
        omega
      · omega
  · intro c hc
    dsimp only at hc ⊢
    rcases List.mem_append.mp hc with hc | hc
    · exact ht.ahead c hc
    · obtain ⟨d, hd, rfl⟩ := List.mem_map.mp hc
      have hd₀ := hahead₀ d hd
      rw [moved_eq hd₀]
      dsimp only
      omega
  · intro c hc
    dsimp only at hc ⊢
    rcases List.mem_append.mp hc with hc | hc
    · exact ht.within c hc
    · obtain ⟨d, hd, rfl⟩ := List.mem_map.mp hc
      have hd₀ := hahead₀ d hd
      have hwithin := huio₀.within d hd
      rw [moved_eq hd₀]
      dsimp only at hwithin ⊢
      omega
  · rw [← hmarks, ← hmarks₀, userMarks, userMarks, userMarks, List.filterMap_append,
      List.filterMap_map, List.map_filterMap]
    congr 1
    apply List.filterMap_congr
    intro c hc
    have hmoved := moved_eq (m := s.nrembytes + s.uiobytes) (hahead₀ c hc)
    rw [Option.map_map, Function.comp_apply, hmoved]
    congr 1
    funext id
    simp only [Function.comp_apply, Prod.mk.injEq, and_true]
    omega

end

section

variable {ι : Type*} [DecidableEq ι] {w w' : World ι} {v : Marks ι} {malloc : Malloc} {op : Op ι}

/-- In every `take` the callbacks of the source fit behind those of the destination. -/
def OrderCond (w : World ι) (ev : Malloc × Op ι) : Prop :=
  match ev.2 with
  | .take i j => TakeLegal ev.1 (w.suios j) ∧ TakeInOrder (w.suios i) (w.suios j)
  | _ => True

/-- The suios and the queues they stand for. -/
structure Refines (w : World ι) (v : Marks ι) : Prop where
  inv : ∀ k, (w.suios k).CbInv
  count : ∀ k, (v.queue k).count = (w.suios k).uiobytes
  marks : ∀ k, (v.queue k).marks = userMarks (w.suios k)
  gone : v.gone = userRan w.env.ran

theorem Refines.set (hw : Refines w v) {i : ι} {r : Env × Suio} {q : List ℕ × MarkQueue Unit ℕ}
    (hinv : r.2.CbInv) (hcount : q.2.count = r.2.uiobytes) (hmarks : q.2.marks = userMarks r.2)
    (hgone : userRan r.1.ran = userRan w.env.ran ++ q.1) : Refines (w.set i r) (v.set i q) := by
  have hall : ∀ k, ((w.set i r).suios k).CbInv ∧
      ((v.set i q).queue k).count = ((w.set i r).suios k).uiobytes ∧
      ((v.set i q).queue k).marks = userMarks ((w.set i r).suios k) := by
    intro k
    by_cases hk : k = i
    · subst hk
      rw [World.set_self, Marks.set_self]
      exact ⟨hinv, hcount, hmarks⟩
    · rw [World.set_of_ne w r hk, Marks.set_of_ne v q hk]
      exact ⟨hw.inv k, hw.count k, hw.marks k⟩
  refine ⟨fun k => (hall k).1, fun k => (hall k).2.1, fun k => (hall k).2.2, ?_⟩
  rw [World.set_env, hgone, ← hw.gone]
  rfl

theorem Refines.keep (hw : Refines w v) {i : ι} {r : Env × Suio} (hinv : r.2.CbInv)
    (hbytes : r.2.uiobytes = (w.suios i).uiobytes) (hmarks : userMarks r.2 = userMarks (w.suios i))
    (hran : userRan r.1.ran = userRan w.env.ran) : Refines (w.set i r) v := by
  have hset := hw.set (i := i) (q := ([], v.queue i)) hinv (by rw [hw.count i, hbytes])
    (by rw [hw.marks i, hmarks]) (by rw [hran, List.append_nil])
  rwa [Marks.set_queue] at hset

theorem Refines.append (hw : Refines w v) {i : ι} {n : ℕ} {r : Env × Suio} {R : ℕ → ℕ → Prop}
    (happ : Appends malloc R (w.env, w.suios i) n r) : Refines (w.set i r) (v.append i n) := by
  obtain ⟨hinv, hbytes, -, hmarks, hran⟩ := Grown.appends happ (hw.inv i)
  apply hw.set hinv
  · rw [MarkQueue.count_append_elems, List.length_replicate, hw.count i, hbytes]
  · rw [MarkQueue.marks_append_elems, hw.marks i, hmarks]
  · rw [hran, List.append_nil]

theorem Refines.step (hw : Refines w v) (hcond : OrderCond w (malloc, op))
    (h : step w (malloc, op) = some w') : ∃ v', v.step op = some v' ∧ Refines w' v' := by
  cases op with
  | copy i buf len =>
    obtain ⟨r, hr, rfl⟩ := Option.map_eq_some_iff.mp h
    exact ⟨_, rfl, hw.append (R := fun _ _ => True) (copy_appends hr)⟩
  | print i buf len =>
    obtain ⟨r, hr, rfl⟩ := Option.map_eq_some_iff.mp h
    exact ⟨_, rfl, hw.append (R := fun _ _ => True) (print_appends (fun _ => trivial) hr)⟩
  | fill i c n =>
    obtain ⟨r, hr, rfl⟩ := Option.map_eq_some_iff.mp h
    exact ⟨_, rfl, hw.append (R := fun _ _ => True) (fill_appends hr)⟩
  | copyv i iov skip =>
    obtain ⟨r, hr, rfl⟩ := Option.map_eq_some_iff.mp h
    exact ⟨_, rfl, hw.append (R := fun _ _ => True) (copyv_appends hr).2⟩
  | copyu i j =>
    rw [Suio.step] at h
    split at h
    · cases h
    obtain ⟨r, hr, rfl⟩ := Option.map_eq_some_iff.mp h
    refine ⟨_, rfl, hw.append (R := fun _ _ => True) ((copyv_appends hr).2.cast ?_)⟩
    rw [hw.count j, (hw.inv j).count, Nat.sub_zero]
  | take i j =>
    rw [Suio.step] at h
    split at h
    · cases h
    rename_i hij
    obtain ⟨⟨e', s', uio'⟩, hr, rfl⟩ := Option.map_eq_some_iff.mp h
    obtain ⟨⟨hs, huio⟩, ⟨hbytes, hzero⟩, ⟨hmarks, hnil⟩, hran⟩ :=
      (hw.inv i).take (hw.inv j) hcond.1 hcond.2 hr
    refine ⟨_, rfl, (hw.set hs ?_ ?_ ?_).set huio hzero.symm hnil.symm ?_⟩
    · rw [MarkQueue.count_append, hw.count i, hw.count j, hbytes]
    · rw [MarkQueue.marks_append, hw.marks i, hw.marks j, hw.count i, hmarks]
    · rw [hran, List.append_nil]
    · rw [World.set_env, List.append_nil]
  | borrowData i j =>
    rw [Suio.step] at h
    split at h
    · cases h
    obtain ⟨r, hr, rfl⟩ := Option.map_eq_some_iff.mp h
    have happ := appendIovs_appends (R := fun _ _ => True) (fun _ _ _ => trivial) hr
    exact ⟨_, rfl, hw.append (happ.cast (by rw [hw.count j, (hw.inv j).count]))⟩
  | iovcb i id =>
    cases h
    have hinv := hw.inv i
    refine ⟨_, rfl, ?_⟩
    by_cases hpos : (w.suios i).uiobytes = 0
    · rw [MarkQueue.addMark, if_pos (by rw [hw.count i, hpos]), iovcb, if_neg (by omega)]
      refine hw.set hinv (hw.count i) (hw.marks i) ?_
      rw [Env.call_ran, userRan_append]
      rfl
    · obtain ⟨hadd, hmarks⟩ := MarkQueue.marks_addMark (q := v.queue i) (m := id)
        (by rw [hw.count i]; exact hpos)
      refine hw.set (hinv.iovcb hpos) ?_ ?_ ?_
      · rw [MarkQueue.count_addMark, hw.count i, iovcb, if_pos hpos]
      · rw [hmarks, hw.marks i, hw.count i, iovcb, if_pos hpos, userMarks, userMarks,
          List.filterMap_append]
        simp [Cb.id?]
      · rw [hadd, iovcb, if_pos hpos, List.append_nil]
  | breakiov i =>
    cases h
    have hinv := hw.inv i
    exact ⟨v, rfl, hw.keep { hinv with } rfl rfl rfl⟩
  | rembytes i n =>
    obtain ⟨⟨e', s'⟩, hr, rfl⟩ := Option.map_eq_some_iff.mp h
    obtain ⟨hs, hle, hbytes, hmarks, hran⟩ := (hw.inv i).rembytes hr
    obtain ⟨q, hremove, hcount, hqmarks⟩ := MarkQueue.remove_spec (q := v.queue i) (n := n)
      (by rw [hw.count i]; exact hle)
    refine ⟨_, by rw [Marks.step, hremove]; rfl, hw.set hs ?_ ?_ ?_⟩
    · rw [hcount, hw.count i, hbytes]
    · rw [hqmarks, hw.marks i, hmarks]
    · rw [hran, hw.marks i]
  | clear i =>
    obtain ⟨⟨e', s'⟩, hr, rfl⟩ := Option.map_eq_some_iff.mp h
    obtain ⟨hs, hzero, hnil, hran⟩ := (hw.inv i).clear hr
    obtain ⟨q, hremove, hcount, hqmarks⟩ := MarkQueue.remove_spec (q := v.queue i) (Nat.le_refl _)
    have hle : ∀ p ∈ (v.queue i).marks, p.1 ≤ (v.queue i).count := by
      rw [hw.marks i, hw.count i]
      exact (hw.inv i).userMarks_le
    have hgone : (v.queue i).marks.filter (fun p => p.1 ≤ (v.queue i).count) =
        (v.queue i).marks := List.filter_eq_self.mpr fun p hp => decide_eq_true (hle p hp)
    have hkept : (v.queue i).marks.filter (fun p => (v.queue i).count < p.1) = [] :=
      List.filter_eq_nil_iff.mpr fun p hp => by simpa using hle p hp
    refine ⟨_, by rw [Marks.step, hremove]; rfl, hw.set hs ?_ ?_ ?_⟩
    · rw [hcount, hzero, Nat.sub_self]
    · rw [hqmarks, hkept, hnil]
      rfl
    · rw [hran, hgone, hw.marks i]
  | getspace i n =>
    cases h
    have hgrown := @Grown.appends malloc (fun _ _ => True) _ _ _
      (getspace_appends (e := w.env) (n := n)) (hw.inv i)
    exact ⟨v, rfl, hw.keep hgrown.inv hgrown.bytes hgrown.marks hgrown.ran⟩
  | getspaceAligned i n =>
    cases h
    have hinv := hw.inv i
    have hgrown := @Grown.appends malloc (fun _ _ => True) _ _ _
      (getspace_appends (e := w.env) (n := n) (s := { w.suios i with
        scratchPos := (w.suios i).scratchPos + (4 - (w.suios i).scratchPos % 4) % 4 }))
      { hinv with }
    exact ⟨v, rfl, hw.keep hgrown.inv hgrown.bytes hgrown.marks hgrown.ran⟩
  | input i len bs =>
    rw [Suio.step] at h
    split at h
    · cases h
    obtain ⟨r, hr, rfl⟩ := Option.map_eq_some_iff.mp h
    exact ⟨_, rfl, hw.append (R := fun _ _ => True) (input_appends hr)⟩
  | write a bs =>
    cases h
    exact ⟨v, rfl, hw.inv, hw.count, hw.marks, hw.gone⟩

def Marks.start : Marks ι := ⟨fun _ => [], []⟩

/-- As long as every `take` is in order, the callbacks that were made are the marks that have
gone, in that order, the ones that wait are the marks that are left, and the queue of every
suio is sorted and waits for bytes that are still there. -/
theorem suio_callbacks (defbuf : ι → ℕ) (mem : Mem) (live : List Block)
    {es : List (Malloc × Op ι)}
    (hrun : Run step OrderCond ⟨⟨mem, live, []⟩, fun k => new (defbuf k)⟩ es w) :
    ∃ v, (es.map Prod.snd).foldlM Marks.step Marks.start = some v ∧
      userRan w.env.ran = v.gone ∧
      ∀ k, userMarks (w.suios k) = (v.queue k).marks ∧
        (w.suios k).uiobytes = (v.queue k).count ∧
        (w.suios k).uiocbs.Pairwise (fun c c' => c.nbytes ≤ c'.nbytes) ∧
        ∀ c ∈ (w.suios k).uiocbs, (w.suios k).nrembytes < c.nbytes ∧
          c.nbytes ≤ (w.suios k).nrembytes + (w.suios k).uiobytes := by
  have hrefines : ∃ v, (es.map Prod.snd).foldlM Marks.step Marks.start = some v ∧
      Refines w v := by
    induction hrun with
    | nil => exact ⟨_, rfl, fun _ => CbInv.new, fun _ => rfl, fun _ => rfl, rfl⟩
    | snoc _ hcond hstep ih =>
        obtain ⟨v, hv, hw⟩ := ih
        obtain ⟨v', hv', hw'⟩ := hw.step hcond hstep
        refine ⟨v', ?_, hw'⟩
        rw [List.map_append, List.foldlM_append, hv]
        exact (Option.bind_some ..).trans ((Option.bind_eq_some_iff).mpr ⟨v', hv', rfl⟩)
  obtain ⟨v, hv, hw⟩ := hrefines
  refine ⟨v, hv, hw.gone.symm, fun k => ⟨(hw.marks k).symm, (hw.count k).symm, (hw.inv k).sorted,
    fun c hc => ⟨(hw.inv k).ahead c hc, (hw.inv k).within c hc⟩⟩⟩

end

/-- A callback moves behind the bytes of the suio that takes it, and behind the release of a scratch
buffer that is left behind meanwhile. -/
theorem suio_callbacks_moved :
    ∃ (w : World Bool) (v : Marks Bool), [.getspace true 1000, .print true 4096 8096,
        .copy false 1000 110, .iovcb false 7, .take true false, .rembytes true 8206].foldlM
          Marks.step Marks.start = some v ∧
      userRan w.env.ran = v.gone ∧
      ∀ k : Bool, userMarks (w.suios k) = (v.queue k).marks ∧
        (w.suios k).uiobytes = (v.queue k).count ∧
        (w.suios k).uiocbs.Pairwise (fun c c' => c.nbytes ≤ c'.nbytes) ∧
        ∀ c ∈ (w.suios k).uiocbs, (w.suios k).nrembytes < c.nbytes ∧
          c.nbytes ≤ (w.suios k).nrembytes + (w.suios k).uiobytes := by
  have hsteps : ((step twoSuios (mallocAt 4096, .getspace true 1000)).bind fun w =>
      (step w (mallocAt 4096, .print true 4096 8096)).bind fun w =>
        (step w (mallocAt 4096, .copy false 1000 110)).bind fun w =>
          step w (mallocAt 4096, .iovcb false 7)).any fun w =>
      ((w.suios false).iovs = [⟨256, 110⟩] ∧ (w.suios false).defbuf = 256) ∧
        (∀ c ∈ (w.suios false).uiocbs, (w.suios true).nrembytes + (w.suios true).uiobytes +
          (w.suios true).lastRoom 256 [] ≤ (w.suios true).nrembytes + (w.suios true).uiobytes +
            (c.nbytes - (w.suios false).nrembytes)) ∧
        ((step w (mallocAt 16384, .take true false)).bind fun w =>
          step w (mallocAt 16384, .rembytes true 8206)).isSome := by
    decide +kernel
  obtain ⟨w₄, hw₄, hw₄'⟩ := (Option.any_eq_true ..).mp hsteps
  obtain ⟨w₁, h₁, hw₄⟩ := Option.bind_eq_some_iff.mp hw₄
  obtain ⟨w₂, h₂, hw₄⟩ := Option.bind_eq_some_iff.mp hw₄
  obtain ⟨w₃, h₃, h₄⟩ := Option.bind_eq_some_iff.mp hw₄
  simp only [decide_eq_true_eq, Option.isSome_iff_exists] at hw₄'
  obtain ⟨⟨hiovs, hdefbuf⟩, hroom, w₆, hw₆⟩ := hw₄'
  obtain ⟨w₅, h₅, h₆⟩ := Option.bind_eq_some_iff.mp hw₆
  have hlegal : TakeLegal (mallocAt 16384) (w₄.suios false) := by
    rw [TakeLegal, hiovs, hdefbuf]
    refine ⟨by decide, fun live size v hv => Or.inl ?_⟩
    rw [List.mem_singleton.mp hv]
    unfold mallocAt
    dsimp only
    omega
  have hord : TakeInOrder (w₄.suios true) (w₄.suios false) := by
    rw [TakeInOrder, hiovs, hdefbuf]
    refine ⟨RefsApart.of_inside (by decide), fun c hc _ pre v post hvs _ _ _ => ?_⟩
    have hpre : pre = [] := by
      cases pre with
      | nil => rfl
      | cons u pre => simp at hvs
    rw [hpre]
    exact hroom c hc
  have hrun : Run step OrderCond twoSuios [(mallocAt 4096, .getspace true 1000),
      (mallocAt 4096, .print true 4096 8096), (mallocAt 4096, .copy false 1000 110),
      (mallocAt 4096, .iovcb false 7), (mallocAt 16384, .take true false),
      (mallocAt 16384, .rembytes true 8206)] w₆ :=
    .cons trivial h₁ (.cons trivial h₂ (.cons trivial h₃ (.cons trivial h₄
      (.cons ⟨hlegal, hord⟩ h₅ (.cons trivial h₆ (.nil _))))))
  obtain ⟨v, hv, hspec⟩ := suio_callbacks _ _ _ hrun
  simp only [List.map_cons, List.map_nil] at hv
  exact ⟨w₆, v, hv, hspec⟩

theorem step_through_mark {a b c : ℕ} (hb : b ≠ 0) (id : ℕ) :
    ∃ v : Marks Bool, [.getspace true 1000, .print true 4096 a, .copy false 1000 b,
      .iovcb false id, .copy false 1000 c, .take true false, .rembytes true (a + b)].foldlM
        Marks.step Marks.start = some v ∧ v.gone = [id] := by
  have hmark : MarkQueue.addMark (MarkQueue.append [] (List.replicate b ())) id =
      ([], MarkQueue.append [] (List.replicate b ()) ++ [.mark id]) := by
    refine if_neg ?_
    rw [MarkQueue.count_append_elems, List.length_replicate]
    exact fun h => hb ((Nat.zero_add b).symm.trans h)
  obtain ⟨q, hremove, -⟩ := MarkQueue.remove_spec (n := a + b)
    (q := MarkQueue.append [] (List.replicate a ()) ++ MarkQueue.append
      (MarkQueue.append [] (List.replicate b ()) ++ [.mark id]) (List.replicate c ()))
    (by simp [MarkQueue.count])
  have hgone : ((MarkQueue.marks (MarkQueue.append [] (List.replicate a ()) ++ MarkQueue.append
      (MarkQueue.append [] (List.replicate b ()) ++ [.mark id]) (List.replicate c ()))).filter
      fun p => p.1 ≤ a + b).map Prod.snd = [id] := by
    simp [MarkQueue.marks_append, MarkQueue.marks, MarkQueue.count, Nat.add_comm]
  rw [hgone] at hremove
  simp [Marks.step, Marks.append, Marks.set, Marks.start, hmark, hremove]

/-- The bytes in front of the callback are removed, and it is not made: in front of it is the
release of a buffer that waits for more bytes. -/
theorem suio_callback_late :
    ∃ (w : World Bool) (v : Marks Bool), Run step (fun _ _ => True) twoSuios
        [(mallocAt 4096, .getspace true 1000), (mallocAt 4096, .print true 4096 8096),
          (mallocAt 16384, .copy false 1000 60), (mallocAt 16384, .iovcb false 7),
          (mallocAt 16384, .copy false 1000 50), (mallocAt 16384, .take true false),
          (mallocAt 16384, .rembytes true 8156)] w ∧
      [.getspace true 1000, .print true 4096 8096, .copy false 1000 60, .iovcb false 7,
        .copy false 1000 50, .take true false, .rembytes true 8156].foldlM Marks.step Marks.start =
          some v ∧
      v.gone = [7] ∧ userRan w.env.ran = [] ∧
      (w.suios true).uiocbs = [⟨8176, .deallocator 4096 8176⟩, ⟨8156, .wrap 7⟩] := by
  have hcode : ([(mallocAt 4096, .getspace true 1000), (mallocAt 4096, .print true 4096 8096),
      (mallocAt 16384, .copy false 1000 60), (mallocAt 16384, .iovcb false 7),
      (mallocAt 16384, .copy false 1000 50), (mallocAt 16384, .take true false),
      (mallocAt 16384, .rembytes true 8156)].foldlM step twoSuios).any fun w =>
        userRan w.env.ran = [] ∧
          (w.suios true).uiocbs = [⟨8176, .deallocator 4096 8176⟩, ⟨8156, .wrap 7⟩] := by
    decide +kernel
  obtain ⟨v, hv, hgone⟩ := step_through_mark (a := 8096) (b := 60) (c := 50) (by decide) 7
  obtain ⟨w, hw, hw'⟩ := (Option.any_eq_true ..).mp hcode
  simp only [decide_eq_true_eq] at hw'
  exact ⟨w, v, Run.of_foldlM hw, hv, hgone, hw'.1, hw'.2⟩

end Sfslite.Async.Suio
