import Sfslite.Async.SuioAppend
import Sfslite.Lib.Run

/-!
`lastiovend` against the list of iovecs. Every operation keeps the two in step but one:
`take` empties the list of the suio it takes from and leaves the pointer there.
-/

namespace Sfslite.Async.Suio

open Sfslite.Lib

/-- The pointer is null, or the end of the last iovec. -/
def LastOk (s : Suio) : Prop :=
  s.lastiovend ≠ 0 → ∃ init v, s.iovs = init ++ [v] ∧ s.lastiovend = v.base + v.len

/-- What goes with it through the operations: the count of the bytes, and no null pointer
where bytes are or will be. -/
structure LastInv (s : Suio) : Prop where
  last : s.LastOk
  count : s.uiobytes = lens s.iovs
  base : ∀ v ∈ s.iovs, v.base ≠ 0
  scratch : s.scratchPos ≠ 0
  buf : s.scratchBuf ≠ 0
  defbuf : s.defbuf ≠ 0

section

variable {malloc : Malloc} {R : ℕ → ℕ → Prop} {e e' : Env} {s s' : Suio} {base : ℕ}
  {len n : ℕ} {r : Env × Suio}

theorem LastInv.new {defbuf : ℕ} (h : defbuf ≠ 0) : (Suio.new defbuf).LastInv where
  last := fun hlast => absurd rfl hlast
  count := rfl
  base := fun _ hv => absurd hv List.not_mem_nil
  scratch := h
  buf := h
  defbuf := h

theorem LastInv.pushiov (hs : s.LastInv) (hbase : base ≠ 0) (h : s.pushiov base len = some s') :
    s'.LastInv := by
  have hcount := lens_pushiov h
  obtain ⟨iovs, lastiovend, rfl, hcases⟩ := pushiov_cases h
  have hscratch : (if base = s.scratchPos then s.scratchPos + len else s.scratchPos) ≠ 0 := by
    have := hs.scratch
    split <;> omega
  refine ⟨?_, by rw [hcount, hs.count], ?_, hscratch, hs.buf, hs.defbuf⟩
  · rcases hcases with ⟨hend, rfl, init, v, hiovs, rfl⟩ | ⟨-, -, rfl, rfl⟩ | ⟨-, -, rfl, rfl⟩
    · intro _
      obtain ⟨init', v', hiovs', hlast⟩ := hs.last (by rwa [← hend])
      obtain ⟨-, hv⟩ := List.append_inj' (hiovs.symm.trans hiovs') rfl
      obtain rfl : v = v' := (List.cons.inj hv).1
      refine ⟨init, _, rfl, ?_⟩
      change base + len = v.base + (v.len + len)
      omega
    · exact fun _ => ⟨s.iovs, _, rfl, rfl⟩
    · exact hs.last
  · have hmem := hs.base
    rcases hcases with ⟨-, -, init, v, hiovs, rfl⟩ | ⟨-, -, -, rfl⟩ | ⟨-, -, -, rfl⟩
    · intro u hu
      rw [hiovs] at hmem
      rcases List.mem_append.mp hu with hu | hu
      · exact hmem u (List.mem_append_left _ hu)
      · rw [List.mem_singleton] at hu
        rw [hu]
        exact hmem v (List.mem_append_right _ (List.mem_singleton.mpr rfl))
    · intro u hu
      rcases List.mem_append.mp hu with hu | hu
      · exact hmem u hu
      · rw [List.mem_singleton] at hu
        rw [hu]
        exact hbase
    · exact hmem

theorem LastInv.pushiov_isSome (hs : s.LastInv) (hbase : base ≠ 0) :
    ∃ s', s.pushiov base len = some s' := by
  unfold Suio.pushiov
  split
  · rename_i hend
    obtain ⟨init, v, hiovs, -⟩ := hs.last (by rwa [← hend])
    rw [hiovs, List.getLast?_concat]
    exact ⟨_, rfl⟩
  · split
    · exact ⟨_, rfl⟩
    · exact ⟨_, rfl⟩

theorem LastInv.of_eq (hs : s.LastInv) (hiovs : s'.iovs = s.iovs)
    (hlast : s'.lastiovend = s.lastiovend) (hbytes : s'.uiobytes = s.uiobytes)
    (hpos : s'.scratchPos ≠ 0) (hbuf : s'.scratchBuf ≠ 0) (hdefbuf : s'.defbuf = s.defbuf) :
    s'.LastInv := by
  refine ⟨?_, by rw [hbytes, hiovs, hs.count], by rw [hiovs]; exact hs.base, hpos, hbuf,
    by rw [hdefbuf]; exact hs.defbuf⟩
  rw [LastOk, hlast, hiovs]
  exact hs.last

theorem LastInv.iovcb {cb : Cb} (hs : s.LastInv) : (s.iovcb e cb).2.LastInv := by
  rw [Suio.iovcb]
  split
  · exact hs.of_eq rfl rfl rfl hs.scratch hs.buf rfl
  · exact hs

theorem LastInv.condemnScratch (hs : s.LastInv) : (s.condemnScratch e).2.LastInv := by
  rw [Suio.condemnScratch]
  split
  · exact hs.iovcb
  · exact hs

theorem LastInv.appends (hmalloc : ∀ live size, malloc live size ≠ 0)
    (hR : ∀ base len, R base len → base ≠ 0) (h : Appends malloc R r n (e', s'))
    (hs : r.2.LastInv) : s'.LastInv := by
  generalize hr' : (e', s') = r' at h
  have hinv : r'.2.LastInv := by
    clear hr'
    induction h with
    | refl => exact hs
    | put _ hput ih =>
      obtain ⟨s'', hpush, heq⟩ := Option.bind_eq_some_iff.mp hput
      cases heq
      exact ih.pushiov ih.scratch hpush
    | push _ hbase hpush ih => exact ih.pushiov (hR _ _ hbase) hpush
    | condemn _ ih => exact ih.condemnScratch
    | heap _ ih => exact ih
    | scratch _ ih => exact ih.of_eq rfl rfl rfl (hmalloc _ _) (hmalloc _ _) rfl
  rw [← hr'] at hinv
  exact hinv

theorem remIovs_last {vs us init : List Iovec} {v : Iovec} (h : remIovs vs n = some us)
    (hvs : vs = init ++ [v]) :
    us = [] ∨ ∃ init' u, us = init' ++ [u] ∧ u.base + u.len = v.base + v.len := by
  induction vs generalizing n init with
  | nil => exact absurd hvs (by simp)
  | cons w vs ih =>
    rw [remIovs] at h
    split at h
    · cases init with
      | nil =>
        obtain ⟨rfl, rfl⟩ := List.cons.inj hvs
        rw [remIovs] at h
        split at h
        · cases h
        · cases h
          exact Or.inl rfl
      | cons x init => exact ih h (List.cons.inj hvs).2
    · cases h
      right
      cases init with
      | nil =>
        obtain ⟨rfl, rfl⟩ := List.cons.inj hvs
        refine ⟨[], _, rfl, ?_⟩
        dsimp only
        omega
      | cons x init =>
        obtain ⟨rfl, rfl⟩ := List.cons.inj hvs
        exact ⟨_ :: init, v, rfl, rfl⟩

theorem remIovs_base {vs us : List Iovec} (h : remIovs vs n = some us)
    (hvs : ∀ v ∈ vs, v.base ≠ 0) : ∀ u ∈ us, u.base ≠ 0 := by
  induction vs generalizing n with
  | nil =>
    rw [remIovs] at h
    split at h
    · cases h
    · cases h
      exact hvs
  | cons v vs ih =>
    rw [remIovs] at h
    have htail : ∀ u ∈ vs, u.base ≠ 0 := fun u hu => hvs u (List.mem_cons_of_mem v hu)
    split at h
    · exact ih h htail
    · cases h
      intro u hu
      rcases List.mem_cons.mp hu with rfl | hu
      · have := hvs v List.mem_cons_self
        dsimp only
        omega
      · exact htail u hu

theorem LastInv.rembytes (hs : s.LastInv) (h : s.rembytes e n = some (e', s')) : s'.LastInv := by
  obtain ⟨hle, us, hus, -, hiovs, hbytes, -, hlast, hpos, hbuf, -, hdefbuf⟩ := rembytes_cases h
  obtain ⟨hn, haddrs, -⟩ := remIovs_spec hus
  have hscratch := hs.scratch
  have hscratchBuf := hs.buf
  refine ⟨?_, ?_, by rw [hiovs]; exact remIovs_base hus hs.base, ?_, by rwa [hbuf],
    by rw [hdefbuf]; exact hs.defbuf⟩
  · intro hne
    rw [hlast] at hne ⊢
    split at hne
    · exact absurd rfl hne
    rename_i hus'
    obtain ⟨init, v, hinit, hend⟩ := hs.last hne
    rcases remIovs_last hus hinit with hnil | ⟨init', u, hu, hbase⟩
    · exact absurd hnil hus'
    · rw [if_neg hus', hend, hiovs]
      exact ⟨init', u, hu, hbase.symm⟩
  · rw [hbytes, hiovs, ← length_addrs, haddrs, List.length_drop, length_addrs, hs.count]
  · rw [hpos]
    split <;> assumption

theorem LastInv.clear (hs : s.LastInv) (h : s.clear e = some (e', s')) : s'.LastInv := by
  obtain ⟨⟨e₁, s₁⟩, hrem, h⟩ := Option.bind_eq_some_iff.mp h
  have hinv := hs.rembytes hrem
  obtain ⟨-, us, hus, -, hiovs, hbytes, -, hlast, -, -, -, hdefbuf⟩ := rembytes_cases hrem
  rw [hs.count, remIovs_all] at hus
  obtain rfl := Option.some.inj hus
  rw [if_pos rfl] at hlast
  have hzero : s₁.uiobytes = 0 := by rw [hbytes, Nat.sub_self]
  have hempty : ∀ {t : Suio}, t.iovs = [] → t.lastiovend = 0 → t.uiobytes = 0 →
      t.scratchPos ≠ 0 → t.scratchBuf ≠ 0 → t.defbuf ≠ 0 → t.LastInv := by
    intro t hiovs hlast hbytes hpos hbuf hdefbuf
    refine ⟨fun hne => absurd hlast hne, by rw [hbytes, hiovs]; rfl, ?_, hpos, hbuf, hdefbuf⟩
    rw [hiovs]
    exact fun _ hv => absurd hv List.not_mem_nil
  dsimp only at h
  split at h
  · cases h
    exact hempty rfl hlast hzero hinv.defbuf hinv.defbuf hinv.defbuf
  · cases h
    exact hempty rfl hlast hzero hinv.defbuf hinv.buf hinv.defbuf

variable {uio uio' : Suio}

theorem LastInv.appendIovs {vs : List Iovec} {defbuf : ℕ}
    (hmalloc : ∀ live size, malloc live size ≠ 0) (hs : s.LastInv) (hvs : ∀ v ∈ vs, v.base ≠ 0)
    (h : appendIovs malloc defbuf vs e s = some (e', s')) : s'.LastInv := by
  have happ := appendIovs_appends (R := fun base _ => base ≠ 0) (fun v hv _ => hvs v hv) h
  exact LastInv.appends hmalloc (fun _ _ hR => hR) happ hs

theorem LastInv.take (hmalloc : ∀ live size, malloc live size ≠ 0) (hs : s.LastInv)
    (huio : uio.LastInv) (hlast : uio.lastiovend = 0)
    (h : s.take malloc e uio = some (e', s', uio')) : s'.LastInv ∧ uio'.LastInv := by
  obtain ⟨e₀, uio₀, t, hcond, happ, rfl, rfl⟩ := take_cases h
  have ht := hs.appendIovs hmalloc huio.base happ
  have huio₀ : uio₀.LastInv := by
    have hinv := huio.condemnScratch (e := e)
    rwa [hcond] at hinv
  have hlast₀ : uio₀.lastiovend = 0 := by
    have hend := (condemnScratch_eq (s := uio) (e := e)).2.1
    rwa [hcond, hlast] at hend
  constructor
  · exact ht.of_eq rfl rfl rfl ht.scratch ht.buf rfl
  · exact ⟨fun hne => absurd hlast₀ hne, rfl, fun _ hv => absurd hv List.not_mem_nil,
      huio₀.defbuf, huio₀.defbuf, huio₀.defbuf⟩

end

section

variable {ι : Type*} [DecidableEq ι] {w w' : World ι} {i : ι} {malloc : Malloc} {op : Op ι}
  {es : List (Malloc × Op ι)}

/-- No buffer is at the null pointer, and what is taken from has no `lastiovend`. -/
def LastCond (w : World ι) (ev : Malloc × Op ι) : Prop :=
  (∀ live size, ev.1 live size ≠ 0) ∧
    match ev.2 with
    | .print _ buf len => len ≠ 0 → buf ≠ 0
    | .take _ j => (w.suios j).lastiovend = 0
    | _ => True

theorem World.set_forall {P : Suio → Prop} {r : Env × Suio} (hw : ∀ k, P (w.suios k))
    (hr : P r.2) : ∀ k, P ((w.set i r).suios k) := by
  intro k
  by_cases hk : k = i
  · subst hk
    rw [World.set_self]
    exact hr
  · rw [World.set_of_ne w r hk]
    exact hw k

theorem LastInv.step (hw : ∀ k, (w.suios k).LastInv) (hcond : LastCond w (malloc, op))
    (h : step w (malloc, op) = some w') : ∀ k, (w'.suios k).LastInv := by
  obtain ⟨hmalloc, hop⟩ := hcond
  have happend : ∀ {i r n} {R : ℕ → ℕ → Prop}, (∀ base len, R base len → base ≠ 0) →
      Appends malloc R (w.env, w.suios i) n r → ∀ k, ((w.set i r).suios k).LastInv := by
    intro i r n R hR happ
    exact World.set_forall hw (LastInv.appends hmalloc hR happ (hw i))
  have hnone : ∀ base len : ℕ, False → base ≠ 0 := fun _ _ h => h.elim
  cases op with
  | copy i buf len =>
    obtain ⟨r, hr, rfl⟩ := Option.map_eq_some_iff.mp h
    exact happend hnone (copy_appends hr)
  | print i buf len =>
    obtain ⟨r, hr, rfl⟩ := Option.map_eq_some_iff.mp h
    refine happend (R := fun base _ => base ≠ 0) (fun _ _ h => h) (print_appends ?_ hr)
    intro href
    by_cases hlen : len = 0
    · -- no bytes are pushed only where the scratch buffer is free
      have hpos : buf = (w.suios i).scratchPos := by
        by_contra hne
        exact href ⟨by omega, hne⟩
      rw [hpos]
      exact (hw i).scratch
    · exact hop hlen
  | fill i c n =>
    obtain ⟨r, hr, rfl⟩ := Option.map_eq_some_iff.mp h
    exact happend hnone (fill_appends hr)
  | copyv i iov skip =>
    obtain ⟨r, hr, rfl⟩ := Option.map_eq_some_iff.mp h
    exact happend hnone (copyv_appends hr).2
  | copyu i j =>
    rw [Suio.step] at h
    split at h
    · cases h
    obtain ⟨r, hr, rfl⟩ := Option.map_eq_some_iff.mp h
    exact happend hnone (copyv_appends hr).2
  | take i j =>
    rw [Suio.step] at h
    split at h
    · cases h
    rename_i hij
    obtain ⟨⟨e', s', uio'⟩, hr, rfl⟩ := Option.map_eq_some_iff.mp h
    obtain ⟨hs, huio⟩ := (hw i).take hmalloc (hw j) hop hr
    exact World.set_forall (World.set_forall hw hs) huio
  | borrowData i j =>
    rw [Suio.step] at h
    split at h
    · cases h
    obtain ⟨r, hr, rfl⟩ := Option.map_eq_some_iff.mp h
    exact World.set_forall hw ((hw i).appendIovs hmalloc (hw j).base hr)
  | iovcb i id =>
    cases h
    exact World.set_forall hw (hw i).iovcb
  | breakiov i =>
    cases h
    have hi := hw i
    exact World.set_forall hw { hi with last := fun hne => absurd rfl hne }
  | rembytes i n =>
    obtain ⟨r, hr, rfl⟩ := Option.map_eq_some_iff.mp h
    exact World.set_forall hw ((hw i).rembytes hr)
  | clear i =>
    obtain ⟨r, hr, rfl⟩ := Option.map_eq_some_iff.mp h
    exact World.set_forall hw ((hw i).clear hr)
  | getspace i n =>
    cases h
    exact happend hnone getspace_appends
  | getspaceAligned i n =>
    cases h
    have hi := hw i
    have haligned : LastInv { w.suios i with
        scratchPos := (w.suios i).scratchPos + (4 - (w.suios i).scratchPos % 4) % 4 } := by
      refine hi.of_eq rfl rfl rfl ?_ hi.buf rfl
      have := hi.scratch
      dsimp only
      omega
    exact World.set_forall hw (LastInv.appends hmalloc hnone getspace_appends haligned)
  | input i len bs =>
    rw [Suio.step] at h
    split at h
    · cases h
    obtain ⟨r, hr, rfl⟩ := Option.map_eq_some_iff.mp h
    exact happend hnone (input_appends hr)
  | write a bs =>
    cases h
    exact hw

/-- As long as each suio that is taken from has no `lastiovend`, the pointer of every suio is
null or the end of its last iovec, and `pushiov` finds the iovec it extends. -/
theorem suio_lastiovend (defbuf : ι → ℕ) (hdefbuf : ∀ k, defbuf k ≠ 0) (env : Env)
    (hrun : Run step LastCond ⟨env, fun k => new (defbuf k)⟩ es w) (i : ι) :
    (w.suios i).LastOk ∧ ∀ base len, base ≠ 0 → ∃ s', (w.suios i).pushiov base len = some s' := by
  have hinv : ∀ k, (w.suios k).LastInv :=
    hrun.invariant (fun k => LastInv.new (hdefbuf k)) fun _ ⟨_, _⟩ _ hw hcond hstep =>
      LastInv.step hw hcond hstep
  exact ⟨(hinv i).last, fun base len hbase => (hinv i).pushiov_isSome hbase⟩

end

def twoSuios : World Bool := ⟨⟨fun _ => 0, [], []⟩, fun i => new (if i then 512 else 256)⟩

def mallocAt (a : ℕ) : Malloc := fun _ _ => a

/-- With `breakiov` in front of the `take`. -/
theorem suio_lastiovend_breakiov :
    ∃ w : World Bool, Run step LastCond twoSuios [(mallocAt 4096, .print false 1000 200),
        (mallocAt 4096, .breakiov false), (mallocAt 4096, .take true false)] w ∧
      (w.suios false).LastOk ∧
        ∀ base len, base ≠ 0 → ∃ s', (w.suios false).pushiov base len = some s' := by
  have hmalloc : ∀ live size, mallocAt 4096 live size ≠ 0 := fun _ _ => Nat.succ_ne_zero 4095
  have hsteps : ((step twoSuios (mallocAt 4096, .print false 1000 200)).bind fun w =>
      step w (mallocAt 4096, .breakiov false)).any fun w =>
        (w.suios false).lastiovend = 0 ∧ (step w (mallocAt 4096, .take true false)).isSome := by
    decide
  obtain ⟨w₂, hw₂, hw₂'⟩ := (Option.any_eq_true ..).mp hsteps
  obtain ⟨w₁, h₁, h₂⟩ := Option.bind_eq_some_iff.mp hw₂
  simp only [decide_eq_true_eq, Option.isSome_iff_exists] at hw₂'
  obtain ⟨hlast, w₃, h₃⟩ := hw₂'
  have hrun : Run step LastCond twoSuios [(mallocAt 4096, .print false 1000 200),
      (mallocAt 4096, .breakiov false), (mallocAt 4096, .take true false)] w₃ :=
    .cons ⟨hmalloc, fun _ => by decide⟩ h₁ (.cons ⟨hmalloc, trivial⟩ h₂
      (.cons ⟨hmalloc, hlast⟩ h₃ (.nil _)))
  have hdefbuf : ∀ k : Bool, (if k then 512 else 256) ≠ 0 := by decide
  exact ⟨w₃, hrun, suio_lastiovend _ hdefbuf _ hrun false⟩

/-- The next print of the bytes behind those that were taken goes in front of the vector. -/
theorem take_leaves_lastiovend :
    ∃ w : World Bool, Run step (fun _ _ => True) twoSuios
        [(mallocAt 4096, .print false 1000 200), (mallocAt 4096, .take true false)] w ∧
      ¬(w.suios false).LastOk ∧ step w (mallocAt 4096, .print false 1200 200) = none := by
  have hsteps : ((step twoSuios (mallocAt 4096, .print false 1000 200)).bind fun w =>
      step w (mallocAt 4096, .take true false)).any fun w =>
        (w.suios false).lastiovend = 1200 ∧ (w.suios false).iovs = [] ∧
          (step w (mallocAt 4096, .print false 1200 200)).isNone := by
    decide
  obtain ⟨w, hw, hw'⟩ := (Option.any_eq_true ..).mp hsteps
  obtain ⟨w₁, h₁, h₂⟩ := Option.bind_eq_some_iff.mp hw
  simp only [decide_eq_true_eq, Option.isNone_iff_eq_none] at hw'
  obtain ⟨hlast, hiovs, hnone⟩ := hw'
  refine ⟨w, .cons trivial h₁ (.cons trivial h₂ (.nil _)), ?_, hnone⟩
  rw [LastOk, hlast, hiovs]
  intro hok
  obtain ⟨init, v, hnil, -⟩ := hok (by decide)
  exact absurd hnil (by simp)

end Sfslite.Async.Suio
