import Sfslite.Async.SuioBytes

/-!
The memory of several suios. Each has its own buffers and blocks, and nobody has bytes where
one of them may write.
-/

namespace Sfslite.Async.Suio

variable {ι : Type*} {prog : Set ℕ} {w : World ι} {i j k : ι} {a : ℕ} {b : Block}
  {e' : Env} {s' : Suio}

def objects (w : World ι) : Set ℕ := {a | ∃ k, (w.suios k).inObject a}

structure Safe (prog : Set ℕ) (w : World ι) : Prop where
  shape : ∀ k, (w.suios k).Shape
  sized : ∀ k, ∀ b ∈ (w.suios k).owned, 0 < b.2
  live : ∀ k, ∀ b ∈ (w.suios k).owned, b ∈ w.env.live
  apart : ∀ k, (w.suios k).owned.Pairwise Apart
  across : ∀ i k, i ≠ k → ∀ b ∈ (w.suios i).owned, ∀ b' ∈ (w.suios k).owned, Apart b b'
  fixed : ∀ b ∈ w.env.live, ∀ a, inBlock b a → a ∉ prog ∧ a ∉ objects w
  placed : ∀ i k, i ≠ k → ∀ a, (w.suios i).inObject a → ¬ (w.suios k).inObject a
  progs : ∀ a ∈ prog, a ∉ objects w
  null : 0 ∉ prog ∧ ∀ b ∈ w.env.live, 0 < b.1
  idle : ∀ i a, (w.suios i).Idle a → ∀ k, a ∉ addrs (w.suios k).iovs
  alive : ∀ k, ∀ a ∈ addrs (w.suios k).iovs, a ∈ prog ∨ inBlock (w.suios k).home a ∨
    ∃ i, ∃ b ∈ (w.suios i).owned, inBlock b a

/-- What the suio `i` has around it. -/
def around (prog : Set ℕ) (w : World ι) (i : ι) : Around where
  prog := prog
  objects := objects w
  keep := {a | a ∈ prog ∨ ∃ k, k ≠ i ∧ (a ∈ addrs (w.suios k).iovs ∨
    inBlock (w.suios k).home a ∨ ∃ b ∈ (w.suios k).owned, inBlock b a)}
  blocks := {b | ∃ k, k ≠ i ∧ b ∈ (w.suios k).owned}

theorem home_mem_objects (ha : inBlock (w.suios k).home a) : a ∈ objects w :=
  ⟨k, inBlock_home_object ha⟩

theorem Shape.idle_place {s : Suio} (h : s.Shape) (ha : s.Idle a) :
    inBlock s.home a ∨ ∃ b ∈ s.owned, inBlock b a := by
  rcases ha with ⟨hle, hlt⟩ | hdue
  · have hscratch := h.free_scratch hle hlt
    by_cases hbuf : s.scratchBuf = s.defbuf
    · rw [h.scratch_home hbuf] at hscratch
      exact Or.inl hscratch
    · exact Or.inr ⟨s.scratch, mem_owned.mpr (Or.inr ⟨hbuf, rfl⟩), hscratch⟩
  · exact Or.inr (due_owned hdue)

theorem Shape.returns_place {s : Suio} {n : ℕ} (h : s.Shape) (ha : s.Returns n a) :
    inBlock s.home a ∨ ∃ b ∈ s.owned, inBlock b a := by
  rcases ha with hdue | ⟨-, hscratch⟩
  · exact Or.inr (due_owned hdue)
  · by_cases hbuf : s.scratchBuf = s.defbuf
    · rw [h.scratch_home hbuf] at hscratch
      exact Or.inl hscratch
    · exact Or.inr ⟨s.scratch, mem_owned.mpr (Or.inr ⟨hbuf, rfl⟩), hscratch⟩

theorem Safe.keep_of_place (h : Safe prog w)
    (hplace : inBlock (w.suios i).home a ∨ ∃ b ∈ (w.suios i).owned, inBlock b a)
    (ha : a ∈ (around prog w i).keep) : ∃ k, k ≠ i ∧ a ∈ addrs (w.suios k).iovs := by
  rcases ha with hprog | ⟨k, hk, hbytes | hhome | ⟨b, hb, hab⟩⟩
  · rcases hplace with hhome | ⟨b, hb, hab⟩
    · exact absurd (home_mem_objects hhome) (h.progs a hprog)
    · exact absurd hprog (h.fixed b (h.live i b hb) a hab).1
  · exact ⟨k, hk, hbytes⟩
  · rcases hplace with hhome' | ⟨b, hb, hab⟩
    · exact absurd (inBlock_home_object hhome') (h.placed k i hk a (inBlock_home_object hhome))
    · exact absurd (home_mem_objects hhome) (h.fixed b (h.live i b hb) a hab).2
  · rcases hplace with hhome | ⟨b', hb', hab'⟩
    · exact absurd (home_mem_objects hhome) (h.fixed b (h.live k b hb) a hab).2
    · exact absurd hab' (h.across k i hk b hb b' hb' a hab)

theorem Safe.not_object (h : Safe prog w) (hik : i ≠ k) (ha : a ∈ addrs (w.suios k).iovs) :
    ¬ (w.suios i).inObject a := by
  intro hobj
  rcases h.alive k a ha with hprog | hhome | ⟨j, b, hb, hab⟩
  · exact h.progs a hprog ⟨i, hobj⟩
  · exact h.placed i k hik a hobj (inBlock_home_object hhome)
  · exact (h.fixed b (h.live j b hb) a hab).2 ⟨i, hobj⟩

theorem Safe.focus (h : Safe prog w) (i : ι) : Focus (around prog w i) w.env (w.suios i) := by
  refine ⟨h.shape i, h.sized i, h.live i, h.apart i, ?_, h.fixed, ?_, ?_, ⟨?_, h.null.2⟩, ?_,
    fun a ha => ⟨?_, h.idle i a ha i⟩, ?_⟩
  · rintro b ⟨k, hk, hb⟩
    exact ⟨h.live k b hb, h.across k i hk b hb⟩
  · exact fun a ha => ⟨⟨i, ha⟩, fun hprog => h.progs a hprog ⟨i, ha⟩⟩
  · intro a ha hkeep
    have hobj := inBlock_home_object ha
    rcases hkeep with hprog | ⟨k, hk, hbytes | hhome | ⟨b, hb, hab⟩⟩
    · exact h.progs a hprog ⟨i, hobj⟩
    · exact h.not_object hk.symm hbytes hobj
    · exact h.placed k i hk a (inBlock_home_object hhome) hobj
    · exact (h.fixed b (h.live k b hb) a hab).2 ⟨i, hobj⟩
  · have hblock : ∀ k, ∀ b ∈ (w.suios k).owned, ¬ inBlock b 0 := by
      intro k b hb hzero
      have hpos := h.null.2 b (h.live k b hb)
      exact absurd hzero.1 (Nat.not_le_of_lt hpos)
    have hhome : ∀ k, ¬ inBlock (w.suios k).home 0 :=
      fun k hzero => absurd hzero.1 (Nat.not_le_of_lt (h.shape k).lower.1)
    rintro (hprog | ⟨k, -, hbytes | hin | ⟨b, hb, hzero⟩⟩)
    · exact h.null.1 hprog
    · rcases h.alive k 0 hbytes with hprog | hin | ⟨j, b, hb, hzero⟩
      · exact h.null.1 hprog
      · exact hhome k hin
      · exact hblock j b hb hzero
    · exact hhome k hin
    · exact hblock k b hb hzero
  · rintro a (hprog | ⟨k, -, hbytes | hhome | ⟨b, hb, hab⟩⟩)
    · exact Or.inl hprog
    · rcases h.alive k a hbytes with hprog | hhome | ⟨j, b, hb, hab⟩
      · exact Or.inl hprog
      · exact Or.inr (Or.inl (home_mem_objects hhome))
      · exact Or.inr (Or.inr ⟨b, h.live j b hb, hab⟩)
    · exact Or.inr (Or.inl (home_mem_objects hhome))
    · exact Or.inr (Or.inr ⟨b, h.live k b hb, hab⟩)
  · intro hkeep
    obtain ⟨k, -, hbytes⟩ := h.keep_of_place ((h.shape i).idle_place ha) hkeep
    exact h.idle i a ha k hbytes
  · intro a ha
    rcases h.alive i a ha with hprog | hhome | ⟨k, b, hb, hab⟩
    · exact Or.inl hprog
    · exact Or.inr (Or.inl hhome)
    · refine Or.inr (Or.inr ⟨b, ?_, hab⟩)
      by_cases hk : k = i
      · exact Or.inl (hk ▸ hb)
      · exact Or.inr ⟨k, hk, hb⟩

theorem Safe.source (h : Safe prog w) (hij : i ≠ j)
    (hown : ∀ a ∈ addrs (w.suios j).iovs, ∀ b ∈ (w.suios i).owned, ¬ inBlock b a) :
    Source (around prog w i) (w.suios j).defbuf (w.suios j).iovs := by
  refine ⟨(h.shape j).pieces, fun a ha => Or.inr ⟨j, hij.symm, Or.inl ha⟩, ?_⟩
  intro v hv hout a ha
  have hmem : ∀ x ∈ List.range' v.base v.len, x ∈ addrs (w.suios j).iovs := by
    intro x hx
    unfold addrs
    exact List.mem_flatMap.mpr ⟨v, hv, hx⟩
  rcases h.alive j a (hmem a ha) with hprog | ⟨hle, hlt⟩ | ⟨k, b, hb, hab⟩
  · exact Or.inl hprog
  · -- a piece that reaches the buffer from below would have the byte in front of it
    dsimp only [home] at hle hlt
    rw [List.mem_range'_1] at ha
    have hfront : (w.suios j).defbuf - 1 ∈ List.range' v.base v.len := by
      rw [List.mem_range'_1]
      omega
    have hlower := (h.shape j).lower.1
    have hobj : (w.suios j).inObject ((w.suios j).defbuf - 1) := ⟨by omega, by omega⟩
    rcases h.alive j _ (hmem _ hfront) with hprog | ⟨hle', -⟩ | ⟨k, b, hb, hab⟩
    · exact absurd ⟨j, hobj⟩ (h.progs _ hprog)
    · dsimp only [home] at hle'
      omega
    · exact absurd ⟨j, hobj⟩ (h.fixed b (h.live k b hb) _ hab).2
  · refine Or.inr ⟨b, ⟨k, ?_, hb⟩, hab⟩
    rintro rfl
    exact hown a (hmem a ha) b hb hab

theorem Safe.lastiovend_ne (h : Safe prog w) (j : ι) :
    (w.suios j).lastiovend ≠ (w.suios j).defbuf := by
  intro heq
  have hlower := (h.shape j).lower.1
  cases hlast : (w.suios j).iovs.getLast? with
  | none => exact ((h.shape j).stale (List.getLast?_eq_none_iff.mp hlast)).2 heq
  | some v =>
    have hend := (h.shape j).last (by omega) v hlast
    have hv := List.mem_of_getLast? hlast
    have hlen := (h.shape j).pieces v hv
    have hmem : (w.suios j).defbuf - 1 ∈ addrs (w.suios j).iovs := by
      unfold addrs
      rw [List.mem_flatMap]
      exact ⟨v, hv, by rw [List.mem_range'_1]; omega⟩
    have hobj : (w.suios j).inObject ((w.suios j).defbuf - 1) := ⟨by omega, by omega⟩
    rcases h.alive j _ hmem with hprog | ⟨hle, -⟩ | ⟨k, b, hb, hab⟩
    · exact h.progs _ hprog ⟨j, hobj⟩
    · dsimp only [home] at hle
      omega
    · exact (h.fixed b (h.live k b hb) _ hab).2 ⟨j, hobj⟩

theorem moved_late {s t : Suio} {l : List ℕ} {m : ℕ} {d : Uiocb} {c : Around} (hti : w.suios i = t)
    (hshape : ∀ a ∈ (addrs s.iovs).drop (d.nbytes - s.nrembytes), ¬ inBlock b a)
    (hdue : d.nbytes ≤ s.nrembytes → ∀ k, ∀ a ∈ addrs (w.suios k).iovs, ¬ inBlock b a)
    (hkeep : ∀ a, inBlock b a → a ∈ c.keep)
    (haddrs : ∃ l₀, addrs t.iovs = l₀ ++ l ∧ l₀.length = m) (hmoved : Moved c (addrs s.iovs) l) :
    (∀ a ∈ (addrs t.iovs).drop
        (sub64 (d.nbytes + (t.nrembytes + m)) s.nrembytes - t.nrembytes), ¬ inBlock b a) ∧
      (sub64 (d.nbytes + (t.nrembytes + m)) s.nrembytes ≤ t.nrembytes →
        ∀ k, ∀ a ∈ addrs (w.suios k).iovs, ¬ inBlock b a) := by
  obtain ⟨l₀, haddrs, hlen⟩ := haddrs
  by_cases hover : d.nbytes ≤ s.nrembytes
  · refine ⟨fun a ha => hdue hover i a ?_, fun _ => hdue hover⟩
    rw [hti]
    exact List.mem_of_mem_drop ha
  · have hpos : sub64 (d.nbytes + (t.nrembytes + m)) s.nrembytes =
        t.nrembytes + (m + (d.nbytes - s.nrembytes)) := by
      rw [sub64, if_pos (by omega)]
      omega
    rw [hpos, Nat.add_sub_cancel_left]
    refine ⟨fun a ha hab => ?_, fun hle => absurd hle (by omega)⟩
    rw [haddrs, ← hlen, ← List.drop_drop, List.drop_left] at ha
    obtain ⟨a₀, ha₀, hsame | hnew⟩ :=
      Moved.exists_of_right (List.forall₂_drop (d.nbytes - s.nrembytes) hmoved) ha
    · exact hshape a₀ ha₀ (hsame ▸ hab)
    · exact hnew (hkeep a hab)

variable [DecidableEq ι]

theorem objects_set {r : Env × Suio} (hdefbuf : r.2.defbuf = (w.suios i).defbuf) :
    objects (w.set i r) = objects w := by
  have hsame : ∀ k a, ((w.set i r).suios k).inObject a ↔ (w.suios k).inObject a := by
    intro k a
    by_cases hk : k = i
    · subst hk
      rw [World.set_self, inObject, inObject, hdefbuf]
    · rw [World.set_of_ne w r hk]
  unfold objects
  simp only [hsame]

theorem Focus.safe (hf : Focus (around prog w i) e' s') (h : Safe prog w)
    (hdefbuf : s'.defbuf = (w.suios i).defbuf)
    (hheld : ∀ a ∈ (around prog w i).keep, ∀ b ∈ (w.suios i).owned, inBlock b a →
      ∃ b ∈ s'.owned, inBlock b a)
    (hnew : ∀ a ∈ addrs s'.iovs, a ∉ (around prog w i).keep ∨ a ∈ prog ∨
      ∃ j, a ∈ addrs (w.suios j).iovs) : Safe prog (w.set i (e', s')) := by
  have hobjects := objects_set (r := (e', s')) hdefbuf
  have hself : (w.set i (e', s')).suios i = s' := World.set_self ..
  have hother : ∀ k, k ≠ i → (w.set i (e', s')).suios k = w.suios k :=
    fun k hk => World.set_of_ne w _ hk
  have hplace : ∀ k, k ≠ i → ∀ a, (w.suios k).Idle a → a ∈ (around prog w i).keep ∧ a ∉ prog := by
    intro k hk a ha
    rcases (h.shape k).idle_place ha with hhome | ⟨b, hb, hab⟩
    · exact ⟨Or.inr ⟨k, hk, Or.inr (Or.inl hhome)⟩,
        fun hprog => h.progs a hprog (home_mem_objects hhome)⟩
    · exact ⟨Or.inr ⟨k, hk, Or.inr (Or.inr ⟨b, hb, hab⟩)⟩,
        (h.fixed b (h.live k b hb) a hab).1⟩
  refine ⟨World.set_forall h.shape hf.shape,
    World.set_forall (P := fun s => ∀ b ∈ s.owned, 0 < b.2) h.sized hf.sized, fun k => ?_,
    World.set_forall (P := fun s => s.owned.Pairwise Apart) h.apart hf.apart, fun k k' hne => ?_,
    fun b hb a hab => ?_, fun k k' hne => ?_, fun a ha => ?_, ⟨h.null.1, hf.null.2⟩,
    fun k a ha k' => ?_, fun k a ha => ?_⟩
  · by_cases hk : k = i
    · subst hk
      rw [hself]
      exact hf.live
    · rw [hother k hk]
      exact fun b hb => (hf.outer b ⟨k, hk, hb⟩).1
  · by_cases hk : k = i
    · subst hk
      rw [hself, hother k' hne.symm]
      intro b hb b' hb'
      exact ((hf.outer b' ⟨k', hne.symm, hb'⟩).2 b hb).symm
    · rw [hother k hk]
      by_cases hk' : k' = i
      · subst hk'
        rw [hself]
        exact fun b hb => (hf.outer b ⟨k, hk, hb⟩).2
      · rw [hother k' hk']
        exact h.across k k' hne
  · rw [hobjects]
    exact hf.fixed b hb a hab
  · have hsame : ∀ k a, ((w.set i (e', s')).suios k).inObject a → (w.suios k).inObject a := by
      intro k a ha
      by_cases hk : k = i
      · subst hk
        rwa [hself, inObject, hdefbuf] at ha
      · rwa [hother k hk] at ha
    exact fun a ha ha' => h.placed k k' hne a (hsame k a ha) (hsame k' a ha')
  · rw [hobjects]
    exact h.progs a ha
  · by_cases hk : k = i
    · subst hk
      rw [hself] at ha
      obtain ⟨hkeep, hs⟩ := hf.idle a ha
      by_cases hk' : k' = k
      · rw [hk', hself]
        exact hs
      · rw [hother k' hk']
        exact fun hbytes => hkeep (Or.inr ⟨k', hk', Or.inl hbytes⟩)
    · rw [hother k hk] at ha
      by_cases hk' : k' = i
      · subst hk'
        rw [hself]
        intro hbytes
        obtain ⟨hkeep, hprog⟩ := hplace k hk a ha
        rcases hnew a hbytes with hnot | hin | ⟨j, hj⟩
        · exact hnot hkeep
        · exact hprog hin
        · exact h.idle k a ha j hj
      · rw [hother k' hk']
        exact h.idle k a ha k'
  · by_cases hk : k = i
    · subst hk
      rw [hself] at ha ⊢
      rcases hf.alive a ha with hprog | hhome | ⟨b, hb | ⟨k', hk', hb⟩, hab⟩
      · exact Or.inl hprog
      · exact Or.inr (Or.inl hhome)
      · exact Or.inr (Or.inr ⟨k, b, by rw [hself]; exact hb, hab⟩)
      · exact Or.inr (Or.inr ⟨k', b, by rw [hother k' hk']; exact hb, hab⟩)
    · rw [hother k hk] at ha ⊢
      rcases h.alive k a ha with hprog | hhome | ⟨k', b, hb, hab⟩
      · exact Or.inl hprog
      · exact Or.inr (Or.inl hhome)
      · by_cases hk' : k' = i
        · subst hk'
          obtain ⟨b', hb', hab'⟩ := hheld a (Or.inr ⟨k, hk, Or.inl ha⟩) b hb hab
          exact Or.inr (Or.inr ⟨k', b', by rw [hself]; exact hb', hab'⟩)
        · exact Or.inr (Or.inr ⟨k', b, by rw [hother k' hk']; exact hb, hab⟩)

/-- What `take` makes of the other suio. -/
def emptied (u : Suio) : Suio := { u with
  nrembytes := u.nrembytes + u.uiobytes
  nremiov := u.nremiov + u.iovs.length
  uiobytes := 0
  iovs := []
  uiocbs := []
  scratchBuf := u.defbuf
  scratchPos := u.defbuf
  scratchLim := u.defbuf + smallbufsize }

theorem owned_emptied (u : Suio) : u.emptied.owned = [] := by
  unfold owned condemned emptied
  rw [if_pos rfl]
  rfl

theorem Shape.emptied {u : Suio} (h : u.Shape) (hend : u.lastiovend ≠ u.defbuf) :
    u.emptied.Shape := by
  have hlower := h.lower.1
  exact ⟨rfl, fun _ hv => absurd hv List.not_mem_nil,
    fun _ _ hv => absurd hv (by simp [Suio.emptied]),
    fun _ => ⟨hend, hend⟩, ⟨hlower, hlower⟩, ⟨Nat.le_refl _, Nat.le_add_right _ _⟩,
    fun _ => rfl, fun _ => rfl, fun _ hd => absurd hd List.not_mem_nil⟩

theorem Shape.append_uiocbs {s : Suio} {ds : List Uiocb} (h : s.Shape)
    (hlate : ∀ d ∈ ds, ∀ b, d.cb.block? = some b →
      ∀ a ∈ (addrs s.iovs).drop (d.nbytes - s.nrembytes), ¬ inBlock b a) :
    Shape { s with uiocbs := s.uiocbs ++ ds } := by
  refine { h with late := ?_ }
  intro d hd b hb
  rcases List.mem_append.mp hd with hd | hd
  · exact h.late d hd b hb
  · exact hlate d hd b hb

theorem pairwise_append_uiocbs {s : Suio} {ds : List Uiocb} (hs : s.owned.Pairwise Apart)
    (hds : (ds.filterMap fun d => d.cb.block?).Pairwise Apart)
    (hcross : ∀ b ∈ s.owned, ∀ b' ∈ ds.filterMap fun d => d.cb.block?, Apart b b') :
    ({ s with uiocbs := s.uiocbs ++ ds } : Suio).owned.Pairwise Apart := by
  have hparts : ({ s with uiocbs := s.uiocbs ++ ds } : Suio).owned =
      s.condemned ++ (ds.filterMap fun d => d.cb.block?) ++
        if s.scratchBuf = s.defbuf then [] else [s.scratch] := by
    rw [owned, condemned, List.filterMap_append]
    rfl
  rw [owned] at hs
  obtain ⟨hcond, hscratch, hold⟩ := List.pairwise_append.mp hs
  rw [hparts, List.pairwise_append, List.pairwise_append]
  refine ⟨⟨hcond, hds, fun b hb b' hb' => ?_⟩, hscratch, fun b hb b' hb' => ?_⟩
  · exact hcross b (List.mem_append_left _ hb) b' hb'
  · rcases List.mem_append.mp hb with hb | hb
    · exact hold b hb b' hb'
    · exact (hcross b' (List.mem_append_right _ hb') b hb).symm

/-- A suio without a scratch buffer hands its blocks over, with callbacks that come late enough,
and has no bytes any more. -/
theorem Safe.handOver (h : Safe prog w) (hij : i ≠ j) {ds : List Uiocb}
    (hshut : (w.suios j).scratchBuf = (w.suios j).defbuf)
    (hend : (w.suios j).lastiovend ≠ (w.suios j).defbuf)
    (hds : (ds.filterMap fun d => d.cb.block?) = (w.suios j).condemned)
    (hlate : ∀ d ∈ ds, ∀ b, d.cb.block? = some b →
      (∀ a ∈ (addrs (w.suios i).iovs).drop (d.nbytes - (w.suios i).nrembytes), ¬ inBlock b a) ∧
      (d.nbytes ≤ (w.suios i).nrembytes → ∀ k, ∀ a ∈ addrs (w.suios k).iovs, ¬ inBlock b a)) :
    Safe prog ((w.set i (w.env, { w.suios i with uiocbs := (w.suios i).uiocbs ++ ds })).set j
      (w.env, (w.suios j).emptied)) := by
  generalize hw : (w.set i (w.env, { w.suios i with uiocbs := (w.suios i).uiocbs ++ ds })).set j
    (w.env, (w.suios j).emptied) = w'
  have henv : w'.env = w.env := by rw [← hw]; rfl
  have hi : w'.suios i = { w.suios i with uiocbs := (w.suios i).uiocbs ++ ds } := by
    rw [← hw, World.set_of_ne _ _ hij, World.set_self]
  have hj : w'.suios j = (w.suios j).emptied := by rw [← hw, World.set_self]
  have hk : ∀ k, k ≠ i → k ≠ j → w'.suios k = w.suios k := by
    intro k hki hkj
    rw [← hw, World.set_of_ne _ _ hkj, World.set_of_ne _ _ hki]
  have hownedj : (w.suios j).owned = (w.suios j).condemned := by
    rw [owned, if_pos hshut, List.append_nil]
  have hcondi : (w'.suios i).condemned = (w.suios i).condemned ++ (w.suios j).condemned := by
    rw [hi, ← hds]
    exact List.filterMap_append
  have howned : ∀ k b, b ∈ (w'.suios k).owned →
      (b ∈ (w.suios k).owned ∧ k ≠ j) ∨ k = i ∧ b ∈ (w.suios j).owned := by
    intro k b hb
    by_cases hki : k = i
    · subst hki
      rcases mem_owned.mp hb with hb | ⟨hne, hb⟩
      · rw [hcondi] at hb
        rcases List.mem_append.mp hb with hb | hb
        · exact Or.inl ⟨mem_owned.mpr (Or.inl hb), hij⟩
        · exact Or.inr ⟨rfl, hownedj ▸ hb⟩
      · rw [hi] at hne hb
        exact Or.inl ⟨mem_owned.mpr (Or.inr ⟨hne, hb⟩), hij⟩
    · by_cases hkj : k = j
      · rw [hkj, hj, owned_emptied] at hb
        exact absurd hb List.not_mem_nil
      · rw [hk k hki hkj] at hb
        exact Or.inl ⟨hb, hkj⟩
  have hbytes : ∀ k a, a ∈ addrs (w'.suios k).iovs → a ∈ addrs (w.suios k).iovs ∧ k ≠ j := by
    intro k a ha
    by_cases hki : k = i
    · subst hki
      rw [hi] at ha
      exact ⟨ha, hij⟩
    · by_cases hkj : k = j
      · rw [hkj, hj] at ha
        exact absurd ha List.not_mem_nil
      · rw [hk k hki hkj] at ha
        exact ⟨ha, hkj⟩
  have hobj : ∀ k, (w'.suios k).defbuf = (w.suios k).defbuf := by
    intro k
    by_cases hki : k = i
    · rw [hki, hi]
    · by_cases hkj : k = j
      · rw [hkj, hj]
        rfl
      · rw [hk k hki hkj]
  have hobjects : objects w' = objects w := by
    unfold objects
    simp only [inObject, hobj]
  refine ⟨fun k => ?_, fun k b hb => ?_, fun k b hb => ?_, fun k => ?_, fun k k' hne b hb b' hb' => ?_,
    ?_, fun k k' hne a => ?_, ?_, ?_, fun k a ha k' ha' => ?_, fun k a ha => ?_⟩
  · by_cases hki : k = i
    · subst hki
      rw [hi]
      exact (h.shape k).append_uiocbs fun d hd b hb => (hlate d hd b hb).1
    · by_cases hkj : k = j
      · rw [hkj, hj]
        exact (h.shape j).emptied hend
      · rw [hk k hki hkj]
        exact h.shape k
  · rcases howned k b hb with ⟨hb, -⟩ | ⟨-, hb⟩
    · exact h.sized k b hb
    · exact h.sized j b hb
  · rw [henv]
    rcases howned k b hb with ⟨hb, -⟩ | ⟨-, hb⟩
    · exact h.live k b hb
    · exact h.live j b hb
  · by_cases hki : k = i
    · subst hki
      rw [hi]
      refine pairwise_append_uiocbs (h.apart k) ?_ fun b hb b' hb' => ?_
      · rw [hds, ← hownedj]
        exact h.apart j
      · rw [hds, ← hownedj] at hb'
        exact h.across k j hij b hb b' hb'
    · by_cases hkj : k = j
      · rw [hkj, hj, owned_emptied]
        exact .nil
      · rw [hk k hki hkj]
        exact h.apart k
  · rcases howned k b hb with ⟨hb, hkj⟩ | ⟨hki, hb⟩
    · rcases howned k' b' hb' with ⟨hb', -⟩ | ⟨-, hb'⟩
      · exact h.across k k' hne b hb b' hb'
      · exact h.across k j hkj b hb b' hb'
    · rcases howned k' b' hb' with ⟨hb', hkj'⟩ | ⟨hki', -⟩
      · exact h.across j k' hkj'.symm b hb b' hb'
      · exact absurd (hki.trans hki'.symm) hne
  · rw [henv, hobjects]
    exact h.fixed
  · rw [inObject, inObject, hobj, hobj]
    exact h.placed k k' hne a
  · rw [hobjects]
    exact h.progs
  · rw [henv]
    exact h.null
  · obtain ⟨hin, hkj'⟩ := hbytes k' a ha'
    by_cases hki : k = i
    · subst hki
      rw [hi] at ha
      rcases ha with hfree | ⟨d, hd, b, hb, hdue, hab⟩
      · exact h.idle k a (Or.inl hfree) k' hin
      · rcases List.mem_append.mp hd with hd | hd
        · exact h.idle k a (Or.inr ⟨d, hd, b, hb, hdue, hab⟩) k' hin
        · exact (hlate d hd b hb).2 hdue k' a hin hab
    · by_cases hkj : k = j
      · subst hkj
        rw [hj] at ha
        rcases ha with ⟨hle, hlt⟩ | ⟨d, hd, -⟩
        · exact h.not_object hkj'.symm hin (inBlock_home_object ⟨hle, hlt⟩)
        · exact absurd hd List.not_mem_nil
      · rw [hk k hki hkj] at ha
        exact h.idle k a ha k' hin
  · obtain ⟨hin, hkj⟩ := hbytes k a ha
    rcases h.alive k a hin with hprog | hhome | ⟨m, b, hb, hab⟩
    · exact Or.inl hprog
    · rw [home, hobj]
      exact Or.inr (Or.inl hhome)
    · refine Or.inr (Or.inr ?_)
      by_cases hmj : m = j
      · subst hmj
        refine ⟨i, b, mem_owned.mpr (Or.inl ?_), hab⟩
        rw [hcondi]
        exact List.mem_append_right _ (hownedj ▸ hb)
      · by_cases hmi : m = i
        · subst hmi
          refine ⟨m, b, mem_owned.mpr ?_, hab⟩
          rw [hcondi, hi]
          rcases mem_owned.mp hb with hb | hb
          · exact Or.inl (List.mem_append_left _ hb)
          · exact Or.inr hb
        · exact ⟨m, b, by rw [hk m hmi hmj]; exact hb, hab⟩

end Sfslite.Async.Suio
