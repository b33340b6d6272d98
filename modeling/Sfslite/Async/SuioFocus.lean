import Sfslite.Async.SuioLast
import Sfslite.Async.SuioMemory

/-!
The steps of an append against the memory around the suio: a scratch buffer is left behind,
another one is found, bytes are put in its free end or pushed by reference. None of them
touches bytes that are in use.
-/

namespace Sfslite.Async.Suio

variable {c : Around} {e e' : Env} {s s' : Suio} {malloc : Malloc} {r r' r'' : Env × Suio}
  {l l' : List ℕ} {bs : List (BitVec 8)} {base len n a : ℕ} {b : Block}

/-- Bytes at the addresses `l` were added. Nothing that was in use has changed, and the blocks
that others look into are still there. -/
structure Added (c : Around) (r r' : Env × Suio) (l : List ℕ) : Prop where
  focus : Focus c r'.1 r'.2
  addrs : Suio.addrs r'.2.iovs = Suio.addrs r.2.iovs ++ l
  mem : ∀ a, a ∈ c.keep ∨ a ∈ Suio.addrs r.2.iovs → r'.1.mem a = r.1.mem a
  held : ∀ a ∈ c.keep, ∀ b ∈ r.2.owned, inBlock b a → ∃ b ∈ r'.2.owned, inBlock b a
  empty : r'.2.iovs = [] → r.2.iovs = [] ∧ r'.2.lastiovend = r.2.lastiovend
  removed : r'.2.nrembytes = r.2.nrembytes
  defbuf : r'.2.defbuf = r.2.defbuf

theorem Added.refl (h : Focus c e s) : Added c (e, s) (e, s) [] :=
  ⟨h, (List.append_nil _).symm, fun _ _ => rfl, fun _ _ b hb ha => ⟨b, hb, ha⟩,
    fun hnil => ⟨hnil, rfl⟩, rfl, rfl⟩

theorem Added.trans (h : Added c r r' l) (h' : Added c r' r'' l') : Added c r r'' (l ++ l') := by
  refine ⟨h'.focus, ?_, fun a ha => ?_, fun a ha b hb hab => ?_, fun hnil => ?_,
    h'.removed.trans h.removed, h'.defbuf.trans h.defbuf⟩
  · rw [h'.addrs, h.addrs, List.append_assoc]
  · have hlater : a ∈ c.keep ∨ a ∈ Suio.addrs r'.2.iovs := by
      rw [h.addrs]
      exact ha.imp_right (List.mem_append_left _)
    rw [h'.mem a hlater, h.mem a ha]
  · obtain ⟨b', hb', hab'⟩ := h.held a ha b hb hab
    exact h'.held a ha b' hb' hab'
  · obtain ⟨hmid, hlast⟩ := h'.empty hnil
    obtain ⟨hnil, hlast'⟩ := h.empty hmid
    exact ⟨hnil, hlast.trans hlast'⟩

def shut (s : Suio) : Suio := { s with
  scratchBuf := s.defbuf
  scratchPos := if s.iovs = [] then s.defbuf else s.defbuf + smallbufsize
  scratchLim := s.defbuf + smallbufsize }

theorem owned_shut (s : Suio) : s.shut.owned = s.condemned := by
  unfold owned shut condemned
  rw [if_pos rfl, List.append_nil]

theorem condemnScratch_cases (e : Env) (s : Suio) :
    (s.scratchBuf = s.defbuf ∧ s.condemnScratch e = (e, s)) ∨
      (s.scratchBuf ≠ s.defbuf ∧ s.uiobytes ≠ 0 ∧ s.condemnScratch e =
        (e, { s with uiocbs := s.uiocbs ++
          [⟨s.nrembytes + s.uiobytes, .deallocator s.scratch.1 s.scratch.2⟩] })) ∨
      (s.scratchBuf ≠ s.defbuf ∧ s.uiobytes = 0 ∧ s.condemnScratch e =
        ({ e.deallocate s.scratch.1 s.scratch.2 with
          ran := e.ran ++ [.deallocator s.scratch.1 s.scratch.2] }, s)) := by
  unfold condemnScratch iovcb
  by_cases hbuf : s.scratchBuf = s.defbuf
  · exact Or.inl ⟨hbuf, if_neg (not_not_intro hbuf)⟩
  · rw [if_pos hbuf]
    by_cases hbytes : s.uiobytes = 0
    · rw [if_neg (not_not_intro hbytes)]
      exact Or.inr (Or.inr ⟨hbuf, hbytes, rfl⟩)
    · rw [if_pos hbytes]
      exact Or.inr (Or.inl ⟨hbuf, hbytes, rfl⟩)

theorem Focus.leave (h : Focus c e s) {cs : List Uiocb}
    (hcs : ∀ d ∈ cs, d ∈ s.uiocbs ∨ d.nbytes = s.nrembytes + s.uiobytes ∧ s.uiobytes ≠ 0)
    (howned : ∀ b ∈ ({ s with uiocbs := cs } : Suio).condemned, b ∈ s.owned ∧ b ∈ e'.live)
    (hapart : ({ s with uiocbs := cs } : Suio).condemned.Pairwise Apart)
    (hold : ∀ b ∈ s.owned, b ∈ ({ s with uiocbs := cs } : Suio).condemned ∨
      s.iovs = [] ∧ b = s.scratch)
    (hsub : ∀ b ∈ e'.live, b ∈ e.live)
    (hlive : ∀ b ∈ e.live, b ∈ e'.live ∨ s.iovs = [] ∧ b = s.scratch ∧ b ∈ s.owned) :
    Focus c e' ({ s with uiocbs := cs } : Suio).shut ∧
      ∀ a ∈ c.keep, ∀ b ∈ s.owned, inBlock b a →
        ∃ b ∈ ({ s with uiocbs := cs } : Suio).shut.owned, inBlock b a := by
  rw [owned_shut]
  have hnone : ({ s with uiocbs := cs } : Suio).shut.owned =
      ({ s with uiocbs := cs } : Suio).condemned := owned_shut _
  have hkept : ∀ a, a ∈ c.keep ∨ a ∈ addrs s.iovs → ∀ b ∈ s.owned, inBlock b a →
      b ∈ ({ s with uiocbs := cs } : Suio).condemned := by
    intro a ha b hb hab
    rcases hold b hb with hb | ⟨hnil, rfl⟩
    · exact hb
    · rcases ha with ha | ha
      · exact absurd ha (h.scratch_idle hnil hab)
      · rw [hnil] at ha
        exact absurd ha List.not_mem_nil
  refine ⟨⟨⟨h.shape.count, h.shape.pieces, h.shape.last, ?_, ⟨h.shape.lower.1, h.shape.lower.1⟩,
    ?_, fun _ => rfl, fun hnil => if_pos hnil, ?_⟩, ?_, ?_, ?_, ?_, ?_, h.object, h.homed, ?_, ?_,
    ?_, ?_⟩, fun a ha b hb hab => ⟨b, hkept a (Or.inl ha) b hb hab, hab⟩⟩
  · intro hnil
    have hstale := (h.shape.stale hnil).2
    have hpos : ({ s with uiocbs := cs } : Suio).shut.scratchPos = s.defbuf := if_pos hnil
    rw [hpos]
    exact ⟨hstale, hstale⟩
  · unfold shut
    dsimp only
    split <;> omega
  · intro d hd b hb a ha
    rcases hcs d hd with hd | ⟨hbytes, -⟩
    · exact h.shape.late d hd b hb a ha
    · have hall : d.nbytes - s.nrembytes = lens s.iovs := by
        rw [hbytes, h.shape.count, Nat.add_sub_cancel_left]
      have hnil : (addrs s.iovs).drop (d.nbytes - s.nrembytes) = [] := by
        rw [hall, ← length_addrs, List.drop_length]
      exact absurd ha (by rw [shut]; dsimp only; rw [hnil]; exact List.not_mem_nil)
  · rw [hnone]
    exact fun b hb => h.sized b (howned b hb).1
  · rw [hnone]
    exact fun b hb => (howned b hb).2
  · rw [hnone]
    exact hapart
  · rw [hnone]
    intro b hb
    obtain ⟨hblive, hbapart⟩ := h.outer b hb
    refine ⟨?_, fun b' hb' => hbapart b' (howned b' hb').1⟩
    rcases hlive b hblive with hb' | ⟨-, -, hown⟩
    · exact hb'
    · exact absurd rfl ((hbapart b hown).ne (h.sized b hown))
  · exact fun b hb => h.fixed b (hsub b hb)
  · exact ⟨h.null.1, fun b hb => h.null.2 b (hsub b hb)⟩
  · intro a ha
    rcases h.known a ha with hprog | hobj | ⟨b, hb, hab⟩
    · exact Or.inl hprog
    · exact Or.inr (Or.inl hobj)
    · rcases hlive b hb with hb | ⟨hnil, rfl, -⟩
      · exact Or.inr (Or.inr ⟨b, hb, hab⟩)
      · exact absurd ha (h.scratch_idle hnil hab)
  · intro a ha
    rcases ha with ⟨hle, hlt⟩ | ⟨d, hd, b, hb, hdue, hab⟩
    · unfold shut at hle hlt
      dsimp only at hle hlt
      split at hle
      · rename_i hnil
        refine ⟨h.homed a ⟨hle, hlt⟩, ?_⟩
        rw [shut]
        dsimp only
        rw [hnil]
        exact List.not_mem_nil
      · omega
    · rcases hcs d hd with hd | ⟨hbytes, hpos⟩
      · exact h.idle a (Or.inr ⟨d, hd, b, hb, hdue, hab⟩)
      · rw [shut] at hdue
        dsimp only at hdue
        omega
  · rw [hnone]
    intro a ha
    rcases h.alive a ha with hprog | hhome | ⟨b, hb | hb, hab⟩
    · exact Or.inl hprog
    · exact Or.inr (Or.inl hhome)
    · exact Or.inr (Or.inr ⟨b, Or.inl (hkept a (Or.inr ha) b hb hab), hab⟩)
    · exact Or.inr (Or.inr ⟨b, Or.inr hb, hab⟩)

theorem Focus.condemnScratch (h : Focus c e s) :
    ∃ e' cs, s.condemnScratch e = (e', { s with uiocbs := cs }) ∧ e'.mem = e.mem ∧
      Focus c e' ({ s with uiocbs := cs } : Suio).shut ∧
      ∀ a ∈ c.keep, ∀ b ∈ s.owned, inBlock b a →
        ∃ b ∈ ({ s with uiocbs := cs } : Suio).shut.owned, inBlock b a := by
  rcases condemnScratch_cases e s with ⟨hbuf, heq⟩ | ⟨hbuf, hbytes, heq⟩ | ⟨hbuf, hbytes, heq⟩
  · have howned : s.owned = s.condemned := by
      rw [owned, if_pos hbuf, List.append_nil]
    have hapart := h.apart
    rw [howned] at hapart
    refine ⟨e, s.uiocbs, heq, rfl, h.leave (fun d hd => Or.inl hd) (fun b hb => ?_) hapart
      (fun b hb => Or.inl ?_) (fun b hb => hb) fun b hb => Or.inl hb⟩
    · have hb' : b ∈ s.owned := by
        rw [howned]
        exact hb
      exact ⟨hb', h.live b hb'⟩
    · rw [howned] at hb
      exact hb
  · have hall : ({ s with uiocbs := s.uiocbs ++
        [⟨s.nrembytes + s.uiobytes, .deallocator s.scratch.1 s.scratch.2⟩] } : Suio).condemned =
          s.owned := by
      rw [owned, if_neg hbuf, condemned, condemned, List.filterMap_append]
      rfl
    refine ⟨e, _, heq, rfl, h.leave (fun d hd => ?_) ?_ ?_ ?_ (fun b hb => hb)
      fun b hb => Or.inl hb⟩
    · rcases List.mem_append.mp hd with hd | hd
      · exact Or.inl hd
      · rw [List.mem_singleton.mp hd]
        exact Or.inr ⟨rfl, hbytes⟩
    · rw [hall]
      exact fun b hb => ⟨hb, h.live b hb⟩
    · rw [hall]
      exact h.apart
    · rw [hall]
      exact fun b hb => Or.inl hb
  · have howned : s.owned = s.condemned ++ [s.scratch] := by rw [owned, if_neg hbuf]
    have hnil := h.shape.iovs_nil hbytes
    have hmem : s.scratch ∈ s.owned := mem_owned.mpr (Or.inr ⟨hbuf, rfl⟩)
    obtain ⟨hapart, -, hlast⟩ := List.pairwise_append.mp (howned ▸ h.apart)
    have hstay : ∀ b ∈ e.live, b ∈ e.live.erase (s.scratch.1, s.scratch.2) ∨
        s.iovs = [] ∧ b = s.scratch ∧ b ∈ s.owned := by
      intro b hb
      by_cases hne : b = s.scratch
      · exact Or.inr ⟨hnil, hne, hne ▸ hmem⟩
      · exact Or.inl ((List.mem_erase_of_ne hne).mpr hb)
    refine ⟨_, s.uiocbs, heq, rfl, h.leave (fun d hd => Or.inl hd) (fun b hb => ?_) hapart
      (fun b hb => ?_) (fun b hb => List.mem_of_mem_erase hb) hstay⟩
    · have hb' : b ∈ s.owned := mem_owned.mpr (Or.inl hb)
      have hne := (hlast b hb s.scratch (List.mem_singleton_self _)).ne (h.sized b hb')
      exact ⟨hb', (List.mem_erase_of_ne hne).mpr (h.live b hb')⟩
    · rcases mem_owned.mp hb with hb | ⟨-, rfl⟩
      · exact Or.inl hb
      · exact Or.inr ⟨hnil, rfl⟩

theorem le_scratchSize (n : ℕ) : n ≤ scratchSize n ∧ 0 < scratchSize n := by
  unfold scratchSize blocksize mallocresv
  omega

theorem Focus.renew (h : Focus c e s) (hbuf : s.scratchBuf = s.defbuf)
    (hm : Fits c.prog c.objects malloc)
    (hstale : s.iovs = [] → ∀ live size, malloc live size ≠ s.lastiovend) {size : ℕ}
    (hsize : 0 < size) :
    Focus c (e.allocate malloc size).1 { s with
      scratchBuf := malloc e.live size
      scratchPos := malloc e.live size
      scratchLim := malloc e.live size + size } := by
  obtain ⟨hpos, hfree⟩ := hm e.live size
  have howned : s.owned = s.condemned := by rw [owned, if_pos hbuf, List.append_nil]
  have hdefbuf : malloc e.live size ≠ s.defbuf := by
    intro heq
    have hobj : s.inObject s.defbuf := ⟨Nat.le_succ _, Nat.lt_add_of_pos_right (by decide)⟩
    exact (hfree s.defbuf (by omega) (by omega)).2.1 (h.object _ hobj).1
  have hscratch : ({ s with
      scratchBuf := malloc e.live size
      scratchPos := malloc e.live size
      scratchLim := malloc e.live size + size } : Suio).scratch = (malloc e.live size, size) := by
    unfold scratch
    dsimp only
    rw [Nat.add_sub_cancel_left]
  have howned' : ({ s with
      scratchBuf := malloc e.live size
      scratchPos := malloc e.live size
      scratchLim := malloc e.live size + size } : Suio).owned =
        s.owned ++ [(malloc e.live size, size)] := by
    rw [howned]
    unfold owned
    dsimp only
    rw [if_neg hdefbuf, hscratch]
    rfl
  have hnew : ∀ b ∈ e.live, Apart b (malloc e.live size, size) := by
    intro b hb a hab ⟨hle, hlt⟩
    dsimp only at hle hlt
    exact (hfree a (by omega) (by omega)).2.2 b hb hab
  refine ⟨⟨h.shape.count, h.shape.pieces, h.shape.last, fun hnil => ?_, ⟨h.shape.lower.1, hpos⟩,
    ⟨Nat.le_refl _, Nat.le_add_right _ _⟩, fun heq => absurd heq hdefbuf, fun _ => rfl,
    h.shape.late⟩, ?_, ?_, ?_, ?_, ?_, h.object, h.homed, ?_, ?_, ?_, ?_⟩
  · exact ⟨(hstale hnil _ _).symm, (h.shape.stale hnil).2⟩
  · rw [howned']
    intro b hb
    rcases List.mem_append.mp hb with hb | hb
    · exact h.sized b hb
    · rw [List.mem_singleton.mp hb]
      exact hsize
  · rw [howned']
    intro b hb
    rcases List.mem_append.mp hb with hb | hb
    · exact List.mem_cons_of_mem _ (h.live b hb)
    · rw [List.mem_singleton.mp hb]
      exact List.mem_cons_self
  · rw [howned', List.pairwise_append]
    refine ⟨h.apart, List.pairwise_singleton _ _, fun b hb b' hb' => ?_⟩
    rw [List.mem_singleton.mp hb']
    exact hnew b (h.live b hb)
  · rw [howned']
    intro b hb
    obtain ⟨hblive, hbapart⟩ := h.outer b hb
    refine ⟨List.mem_cons_of_mem _ hblive, fun b' hb' => ?_⟩
    rcases List.mem_append.mp hb' with hb' | hb'
    · exact hbapart b' hb'
    · rw [List.mem_singleton.mp hb']
      exact hnew b hblive
  · intro b hb
    rcases List.mem_cons.mp hb with rfl | hb
    · rintro a ⟨hle, hlt⟩
      dsimp only at hle hlt
      obtain ⟨hprog, hobj, -⟩ := hfree a (by omega) (by omega)
      exact ⟨hprog, hobj⟩
    · exact h.fixed b hb
  · refine ⟨h.null.1, fun b hb => ?_⟩
    rcases List.mem_cons.mp hb with rfl | hb
    · exact hpos
    · exact h.null.2 b hb
  · intro a ha
    rcases h.known a ha with hprog | hobj | ⟨b, hb, hab⟩
    · exact Or.inl hprog
    · exact Or.inr (Or.inl hobj)
    · exact Or.inr (Or.inr ⟨b, List.mem_cons_of_mem _ hb, hab⟩)
  · rintro a (⟨hle, hlt⟩ | hdue)
    · dsimp only at hle hlt
      have hlower : malloc e.live size ≤ a + 1 := Nat.le_succ_of_le hle
      have hupper : a ≤ malloc e.live size + size := Nat.le_of_lt hlt
      exact ⟨fun ha => hm.not_inUse h hlower hupper (Or.inl ha),
        fun ha => hm.not_inUse h hlower hupper (Or.inr ha)⟩
    · exact h.idle a (Or.inr hdue)
  · rw [howned']
    intro a ha
    rcases h.alive a ha with hprog | hhome | ⟨b, hb | hb, hab⟩
    · exact Or.inl hprog
    · exact Or.inr (Or.inl hhome)
    · exact Or.inr (Or.inr ⟨b, Or.inl (List.mem_append_left _ hb), hab⟩)
    · exact Or.inr (Or.inr ⟨b, Or.inr hb, hab⟩)

theorem Focus.morescratch (h : Focus c e s) (hm : Fits c.prog c.objects malloc)
    (hstale : s.iovs = [] → ∀ live size, malloc live size ≠ s.lastiovend) (n : ℕ) :
    Added c (e, s) (s.morescratch malloc e n) [] ∧
      n ≤ (s.morescratch malloc e n).2.scratchLim - (s.morescratch malloc e n).2.scratchPos ∧
      (s.morescratch malloc e n).2.scratchLim ∉ c.keep := by
  obtain ⟨e₁, cs, hcond, hmem, hfocus, hheld⟩ := h.condemnScratch
  obtain ⟨hle, hpos⟩ := le_scratchSize n
  have hnew := hfocus.renew rfl hm hstale hpos
  rw [Suio.morescratch, hcond]
  refine ⟨⟨hnew, (List.append_nil _).symm, ?_, ?_, fun hnil => ⟨hnil, rfl⟩, rfl, rfl⟩, ?_, ?_⟩
  · intro a _
    exact congrFun hmem a
  · intro a ha b hb hab
    obtain ⟨b', hb', hab'⟩ := hheld a ha b hb hab
    rw [owned_shut] at hb'
    exact ⟨b', mem_owned.mpr (Or.inl hb'), hab'⟩
  · dsimp only [Env.allocate]
    omega
  · intro ha
    exact hm.not_inUse hfocus (Nat.le_trans (Nat.le_add_right _ _) (Nat.le_succ _)) (Nat.le_refl _)
      (Or.inl ha)

theorem Focus.condemned_scratch (h : Focus c e s) (hb : b ∈ s.condemned) (hab : inBlock b a)
    (ha : inBlock s.scratch a) : False := by
  have howned : b ∈ s.owned := mem_owned.mpr (Or.inl hb)
  by_cases hhome : s.scratchBuf = s.defbuf
  · rw [h.shape.scratch_home hhome] at ha
    exact (h.fixed b (h.live b howned) a hab).2 (h.object a (inBlock_home_object ha)).1
  · have hapart := h.apart
    rw [owned, if_neg hhome] at hapart
    obtain ⟨-, -, hlast⟩ := List.pairwise_append.mp hapart
    exact hlast b hb s.scratch (List.mem_singleton_self _) a hab ha

theorem Focus.put (h : Focus c e s) (hfit : bs.length ≤ s.scratchLim - s.scratchPos) :
    ∃ r', s.put e bs = some r' ∧ Added c (e, s) r' (List.range' s.scratchPos bs.length) ∧
      (List.range' s.scratchPos bs.length).map r'.1.mem = bs ∧
      ∀ a ∈ List.range' s.scratchPos bs.length, a ∉ c.keep := by
  obtain ⟨hbuf, hpos⟩ := h.shape.bounds
  have hlower := h.shape.lower.2
  obtain ⟨iovs, lastiovend, hpush, haddrs, hpieces, hlast, hnil⟩ := @Shape.pushiov
    s h.shape s.scratchPos bs.length (by omega) fun hnil => (h.shape.stale hnil).1.symm
  rw [if_pos rfl] at hpush
  have hfree : ∀ a ∈ List.range' s.scratchPos bs.length, s.Idle a ∧ inBlock s.scratch a := by
    intro a ha
    rw [List.mem_range'_1] at ha
    exact ⟨Or.inl ⟨ha.1, by omega⟩, h.shape.free_scratch ha.1 (by omega)⟩
  have hkeep : ∀ a ∈ List.range' s.scratchPos bs.length, a ∉ c.keep :=
    fun a ha => (h.idle a (hfree a ha).1).1
  have hput : s.put e bs = some ({ e with mem := e.mem.write s.scratchPos bs }, { s with
      iovs := iovs
      lastiovend := lastiovend
      uiobytes := s.uiobytes + bs.length
      scratchPos := s.scratchPos + bs.length }) := by
    rw [Suio.put, hpush]
    rfl
  have hempty : iovs = [] → s.iovs = [] ∧ lastiovend = s.lastiovend ∧ bs.length = 0 := hnil
  refine ⟨_, hput, ⟨⟨⟨?_, hpieces, hlast, fun hnil => ?_, h.shape.lower, ⟨?_, ?_⟩, h.shape.small,
    fun hnil => ?_, ?_⟩, h.sized, h.live, h.apart, h.outer, h.fixed, h.object, h.homed, h.null,
    h.known, ?_, ?_⟩, haddrs, ?_, fun a _ b hb hab => ⟨b, hb, hab⟩, fun hnil => ?_,
    rfl, rfl⟩, read_write, hkeep⟩
  · have hlens := congrArg List.length haddrs
    rw [List.length_append, List.length_range', length_addrs, length_addrs] at hlens
    dsimp only
    rw [hlens, h.shape.count]
  · obtain ⟨hs, hend, hzero⟩ := hempty hnil
    dsimp only
    rw [hend, hzero, Nat.add_zero]
    exact h.shape.stale hs
  · dsimp only
    omega
  · dsimp only
    omega
  · obtain ⟨hs, -, hzero⟩ := hempty hnil
    dsimp only
    rw [hzero, Nat.add_zero]
    exact h.shape.fresh hs
  · intro d hd b hb a ha
    dsimp only at ha
    rw [haddrs, List.drop_append] at ha
    rcases List.mem_append.mp ha with ha | ha
    · exact h.shape.late d hd b hb a ha
    · intro hab
      exact h.condemned_scratch (mem_condemned.mpr ⟨d, hd, hb⟩) hab
        (hfree a (List.mem_of_mem_drop ha)).2
  · rintro a (⟨hle, hlt⟩ | hdue)
    · dsimp only at hle hlt
      obtain ⟨hk, ha⟩ := h.idle a (Or.inl ⟨by omega, hlt⟩)
      refine ⟨hk, ?_⟩
      dsimp only
      rw [haddrs, List.mem_append, List.mem_range'_1]
      rintro (ha' | ha')
      · exact ha ha'
      · omega
    · obtain ⟨hk, ha⟩ := h.idle a (Or.inr hdue)
      refine ⟨hk, ?_⟩
      dsimp only
      rw [haddrs, List.mem_append]
      rintro (ha' | ha')
      · exact ha ha'
      · obtain ⟨d, hd, b, hb, -, hab⟩ := hdue
        exact h.condemned_scratch (mem_condemned.mpr ⟨d, hd, hb⟩) hab (hfree a ha').2
  · intro a ha
    dsimp only at ha
    rw [haddrs] at ha
    rcases List.mem_append.mp ha with ha | ha
    · exact h.alive a ha
    · have hscratch := (hfree a ha).2
      by_cases hhome : s.scratchBuf = s.defbuf
      · rw [h.shape.scratch_home hhome] at hscratch
        exact Or.inr (Or.inl hscratch)
      · exact Or.inr (Or.inr ⟨s.scratch, Or.inl (mem_owned.mpr (Or.inr ⟨hhome, rfl⟩)), hscratch⟩)
  · intro a ha
    apply write_of_not_mem
    intro hmem
    obtain ⟨hk, hs⟩ := h.idle a (hfree a hmem).1
    exact ha.elim hk hs
  · obtain ⟨hs, hend, -⟩ := hempty hnil
    exact ⟨hs, hend⟩

/-- Bytes that someone else holds, at an address where `pushiov` takes them for neither its
last ones nor its own. -/
theorem Focus.push (h : Focus c e s) (hlen : len ≠ 0) (hbytes : ∀ a ∈ List.range' base len,
      a ∈ c.keep ∧ (a ∈ c.prog ∨ ∃ b ∈ c.blocks, inBlock b a))
    (hpos : base ≠ s.scratchPos) (hstale : s.iovs = [] → base ≠ s.lastiovend) :
    ∃ s', s.pushiov base len = some s' ∧ Added c (e, s) (e, s') (List.range' base len) := by
  have hfirst : base ∈ List.range' base len := by
    rw [List.mem_range'_1]
    omega
  have hbase : 0 < base := by
    apply Nat.pos_of_ne_zero
    rintro rfl
    exact h.null.1 (hbytes 0 hfirst).1
  obtain ⟨iovs, lastiovend, hpush, haddrs, hpieces, hlast, hnil⟩ := @Shape.pushiov
    s h.shape base len hbase hstale
  rw [if_neg hpos] at hpush
  have hne : iovs ≠ [] := fun heq => hlen (hnil heq).2.2
  have hnot : ∀ a ∈ List.range' base len, ∀ b ∈ s.owned, ¬ inBlock b a :=
    fun a ha b hb hab => h.not_mem_owned hb hab (hbytes a ha).2
  refine ⟨_, hpush, ⟨⟨?_, hpieces, hlast, fun heq => absurd heq hne, h.shape.lower,
    h.shape.bounds, h.shape.small, fun heq => absurd heq hne, ?_⟩, h.sized, h.live, h.apart,
    h.outer, h.fixed, h.object, h.homed, h.null, h.known, ?_, ?_⟩, haddrs, fun _ _ => rfl,
    fun a _ b hb hab => ⟨b, hb, hab⟩, fun heq => absurd heq hne, rfl, rfl⟩
  · have hlens := congrArg List.length haddrs
    rw [List.length_append, List.length_range', length_addrs, length_addrs] at hlens
    dsimp only
    rw [hlens, h.shape.count]
  · intro d hd b hb a ha
    dsimp only at ha
    rw [haddrs, List.drop_append] at ha
    rcases List.mem_append.mp ha with ha | ha
    · exact h.shape.late d hd b hb a ha
    · have howned : b ∈ s.owned := mem_owned.mpr (Or.inl (mem_condemned.mpr ⟨d, hd, hb⟩))
      exact hnot a (List.mem_of_mem_drop ha) b howned
  · intro a ha
    obtain ⟨hk, hs⟩ := h.idle a ha
    refine ⟨hk, ?_⟩
    dsimp only
    rw [haddrs, List.mem_append]
    rintro (ha' | ha')
    · exact hs ha'
    · exact hk (hbytes a ha').1
  · intro a ha
    dsimp only at ha
    rw [haddrs] at ha
    rcases List.mem_append.mp ha with ha | ha
    · exact h.alive a ha
    · rcases (hbytes a ha).2 with hprog | ⟨b, hb, hab⟩
      · exact Or.inl hprog
      · exact Or.inr (Or.inr ⟨b, Or.inr hb, hab⟩)

theorem Focus.iovcb (h : Focus c e s) (id : ℕ) :
    Focus c (s.iovcb e (.wrap id)).1 (s.iovcb e (.wrap id)).2 ∧
      (s.iovcb e (.wrap id)).2.owned = s.owned := by
  unfold Suio.iovcb
  split
  · have howned : ({ s with uiocbs :=
        s.uiocbs ++ [⟨s.nrembytes + s.uiobytes, .wrap id⟩] } : Suio).owned = s.owned := by
      unfold owned condemned
      rw [List.filterMap_append]
      exact congrArg (· ++ _) (List.append_nil _)
    have hold : ∀ d ∈ s.uiocbs ++ [⟨s.nrembytes + s.uiobytes, .wrap id⟩], ∀ b,
        d.cb.block? = some b → d ∈ s.uiocbs := by
      intro d hd b hb
      rcases List.mem_append.mp hd with hd | hd
      · exact hd
      · rw [List.mem_singleton.mp hd] at hb
        cases hb
    have hs := h.shape
    refine ⟨⟨⟨hs.count, hs.pieces, hs.last, hs.stale, hs.lower, hs.bounds, hs.small, hs.fresh,
      fun d hd b hb => hs.late d (hold d hd b hb) b hb⟩, ?_, ?_, ?_, ?_, h.fixed, h.object, h.homed,
      h.null, h.known, fun a ha => h.idle a ?_, ?_⟩, howned⟩
    · rw [howned]
      exact h.sized
    · rw [howned]
      exact h.live
    · rw [howned]
      exact h.apart
    · rw [howned]
      exact h.outer
    · rcases ha with hfree | ⟨d, hd, b, hb, hdue, hab⟩
      · exact Or.inl hfree
      · exact Or.inr ⟨d, hold d hd b hb, b, hb, hdue, hab⟩
    · rw [howned]
      exact h.alive
  · exact ⟨{ h with }, rfl⟩

theorem Focus.breakiov (h : Focus c e s) : Focus c e s.breakiov := by
  have hs := h.shape
  obtain ⟨hdefbuf, hbuf⟩ := hs.lower
  have hpos := hs.bounds.1
  refine { h with
    shape := { hs with
      last := fun hne => absurd rfl hne
      stale := fun _ => ⟨?_, ?_⟩ } }
  · unfold Suio.breakiov
    dsimp only
    omega
  · unfold Suio.breakiov
    dsimp only
    omega

/-- In a buffer that is given back, or used again, when `n` bytes are removed. -/
def Returns (s : Suio) (n : ℕ) (a : ℕ) : Prop :=
  s.Due n a ∨ n = s.uiobytes ∧ inBlock s.scratch a

theorem makeuiocbs_front (n : ℕ) (cs : List Uiocb) (e : Env) :
    ∃ front, cs = front ++ (makeuiocbs n cs e).2 ∧ (∀ d ∈ front, d.nbytes ≤ n) ∧
      (makeuiocbs n cs e).1.mem = e.mem ∧ (∀ b ∈ (makeuiocbs n cs e).1.live, b ∈ e.live) ∧
      ∀ b ∈ e.live, b ∈ (makeuiocbs n cs e).1.live ∨ ∃ d ∈ front, d.cb.block? = some b := by
  induction cs generalizing e with
  | nil => exact ⟨[], rfl, fun _ hd => absurd hd List.not_mem_nil, rfl, fun _ hb => hb,
      fun _ hb => Or.inl hb⟩
  | cons d cs ih =>
    rw [makeuiocbs]
    split
    · rename_i hle
      obtain ⟨front, hcs, hdue, hmem, hsub, hlive⟩ := ih (e.call d.cb)
      have hcall : (e.call d.cb).mem = e.mem ∧ (∀ b ∈ (e.call d.cb).live, b ∈ e.live) ∧
          ∀ b ∈ e.live, b ∈ (e.call d.cb).live ∨ d.cb.block? = some b := by
        cases d.cb with
        | wrap id => exact ⟨rfl, fun _ hb => hb, fun _ hb => Or.inl hb⟩
        | deallocator buf size =>
          refine ⟨rfl, fun b hb => List.mem_of_mem_erase hb, fun b hb => ?_⟩
          by_cases hne : b = (buf, size)
          · exact Or.inr (congrArg some hne.symm)
          · exact Or.inl ((List.mem_erase_of_ne hne).mpr hb)
      obtain ⟨hcallMem, hcallSub, hcallLive⟩ := hcall
      refine ⟨d :: front, by rw [List.cons_append, ← hcs], ?_, hmem.trans hcallMem,
        fun b hb => hcallSub b (hsub b hb), fun b hb => ?_⟩
      · intro d' hd'
        rcases List.mem_cons.mp hd' with rfl | hd'
        · exact hle
        · exact hdue d' hd'
      · rcases hcallLive b hb with hb | hb
        · rcases hlive b hb with hb | ⟨d', hd', hb⟩
          · exact Or.inl hb
          · exact Or.inr ⟨d', List.mem_cons_of_mem _ hd', hb⟩
        · exact Or.inr ⟨d, List.mem_cons_self, hb⟩
    · exact ⟨[], rfl, fun _ hd => absurd hd List.not_mem_nil, rfl, fun _ hb => hb,
        fun _ hb => Or.inl hb⟩

theorem Focus.rembytes (h : Focus c e s) (hn : n ≤ s.uiobytes)
    (hkeep : ∀ a ∈ c.keep, ¬ s.Returns n a) :
    ∃ e' s', s.rembytes e n = some (e', s') ∧ Focus c e' s' ∧ e'.mem = e.mem ∧
      addrs s'.iovs = (addrs s.iovs).drop n ∧ s'.nrembytes = s.nrembytes + n ∧
      s'.defbuf = s.defbuf ∧
      ∀ a ∈ c.keep, ∀ b ∈ s.owned, inBlock b a → ∃ b ∈ s'.owned, inBlock b a := by
  have hcount := h.shape.count
  have hle : n ≤ lens s.iovs := by omega
  obtain ⟨us, hus⟩ := remIovs_isSome hle
  obtain ⟨⟨e', s'⟩, hrem⟩ : ∃ r, s.rembytes e n = some r := by
    rw [Suio.rembytes, if_neg (by omega), hus]
    exact ⟨_, rfl⟩
  obtain ⟨-, us', hus', hmake, hiovs, hbytes, hremoved, hlast, hpos, hbuf, hlim, hdefbuf⟩ :=
    rembytes_cases hrem
  obtain rfl := Option.some.inj (hus.symm.trans hus')
  obtain ⟨-, haddrs, -⟩ := remIovs_spec hus
  obtain ⟨front, hcs, hdue, hmem, hsub, hlive⟩ := makeuiocbs_front (s.nrembytes + n) s.uiocbs e
  rw [← hmake] at hcs hmem hsub hlive
  dsimp only at hcs hmem hsub hlive
  have hscratch : s'.scratch = s.scratch := by rw [scratch, hbuf, hlim, scratch]
  have howned : s.owned = (front.filterMap fun d => d.cb.block?) ++ s'.owned := by
    unfold owned condemned
    rw [hcs, List.filterMap_append, hbuf, hdefbuf, hscratch, List.append_assoc]
  have hgone : ∀ b, (∃ d ∈ front, d.cb.block? = some b) → b ∈ s.owned ∧
      (∀ a, inBlock b a → s.Due n a) ∧ ∀ a ∈ (addrs s.iovs).drop n, ¬ inBlock b a := by
    rintro b ⟨d, hd, hb⟩
    have hd' : d ∈ s.uiocbs := hcs ▸ List.mem_append_left _ hd
    have hle := hdue d hd
    refine ⟨mem_owned.mpr (Or.inl (mem_condemned.mpr ⟨d, hd', hb⟩)),
      fun a hab => ⟨d, hd', b, hb, hle, hab⟩, fun a ha => ?_⟩
    exact h.shape.late d hd' b hb a (List.drop_subset_drop_left _ (by omega) ha)
  have hstays : ∀ b ∈ s.owned, b ∈ s'.owned ∨ ∃ d ∈ front, d.cb.block? = some b := by
    intro b hb
    rw [howned] at hb
    rcases List.mem_append.mp hb with hb | hb
    · exact Or.inr (by simpa using hb)
    · exact Or.inl hb
  have hsubset : ∀ b ∈ s'.owned, b ∈ s.owned := by
    intro b hb
    rw [howned]
    exact List.mem_append_right _ hb
  have hapart := h.apart
  rw [howned] at hapart
  obtain ⟨-, hapart', hcross⟩ := List.pairwise_append.mp hapart
  have hempty : us = [] → n = s.uiobytes := by
    rintro rfl
    have hzero := congrArg List.length haddrs
    rw [List.length_drop, length_addrs, length_addrs, lens_nil] at hzero
    omega
  refine ⟨e', s', hrem, ⟨⟨?_, ?_, ?_, fun hnil => ?_, ?_, ?_, ?_, fun hnil => ?_, ?_⟩,
    fun b hb => h.sized b (hsubset b hb), fun b hb => ?_, hapart', fun b hb => ?_,
    fun b hb => h.fixed b (hsub b hb), fun a ha => ?_, fun a ha => ?_,
    ⟨h.null.1, fun b hb => h.null.2 b (hsub b hb)⟩, fun a ha => ?_, fun a ha => ?_,
    fun a ha => ?_⟩, hmem, hiovs ▸ haddrs, hremoved, hdefbuf, fun a ha b hb hab => ?_⟩
  · rw [hbytes, hiovs, ← length_addrs, haddrs, List.length_drop, length_addrs, hcount]
  · rw [hiovs]
    exact remIovs_pieces hus h.shape.pieces
  · intro hne v hv
    rw [hlast] at hne ⊢
    split at hne
    · exact absurd rfl hne
    rename_i hus'
    obtain ⟨init, w, hinit⟩ := List.getLast?_eq_some_iff.mp (hiovs ▸ hv)
    rw [if_neg hus']
    cases hs : s.iovs.getLast? with
    | none =>
      rw [List.getLast?_eq_none_iff.mp hs, remIovs] at hus
      split at hus
      · cases hus
      · exact absurd (Option.some.inj hus).symm hus'
    | some u =>
      obtain ⟨init', hu⟩ := List.getLast?_eq_some_iff.mp hs
      rcases remIovs_last hus hu with hnil | ⟨init'', u', hu', hend⟩
      · exact absurd hnil hus'
      · rw [h.shape.last hne u hs, ← hend]
        rw [hiovs, hu', List.getLast?_concat] at hv
        rw [Option.some.inj hv]
  · have hnil' : us = [] := hiovs ▸ hnil
    rw [hlast, hpos, if_pos hnil', if_pos hnil', hdefbuf]
    exact ⟨(Nat.ne_of_gt h.shape.lower.2).symm, (Nat.ne_of_gt h.shape.lower.1).symm⟩
  · rw [hdefbuf, hbuf]
    exact h.shape.lower
  · obtain ⟨hlo, hhi⟩ := h.shape.bounds
    rw [hbuf, hpos, hlim]
    split <;> omega
  · rw [hbuf, hdefbuf, hlim]
    exact h.shape.small
  · have hnil' : us = [] := hiovs ▸ hnil
    rw [hpos, if_pos hnil', hbuf]
  · intro d hd b hb a ha
    have hd' : d ∈ s.uiocbs := hcs ▸ List.mem_append_right _ hd
    rw [hiovs, haddrs, hremoved, List.drop_drop] at ha
    exact h.shape.late d hd' b hb a (List.drop_subset_drop_left _ (by omega) ha)
  · rcases hlive b (h.live b (hsubset b hb)) with hb' | ⟨d, hd, hb'⟩
    · exact hb'
    · have hfront : b ∈ front.filterMap fun d => d.cb.block? := List.mem_filterMap.mpr ⟨d, hd, hb'⟩
      exact absurd rfl ((hcross b hfront b hb).ne (h.sized b (hsubset b hb)))
  · obtain ⟨hblive, hbapart⟩ := h.outer b hb
    refine ⟨?_, fun b' hb' => hbapart b' (hsubset b' hb')⟩
    rcases hlive b hblive with hb' | hfront
    · exact hb'
    · have hown := (hgone b hfront).1
      exact absurd rfl ((hbapart b hown).ne (h.sized b hown))
  · rw [inObject, hdefbuf] at ha
    exact h.object a ha
  · rw [home, hdefbuf] at ha
    exact h.homed a ha
  · rcases h.known a ha with hprog | hobj | ⟨b, hb, hab⟩
    · exact Or.inl hprog
    · exact Or.inr (Or.inl hobj)
    · rcases hlive b hb with hb' | hfront
      · exact Or.inr (Or.inr ⟨b, hb', hab⟩)
      · exact absurd (Or.inl ((hgone b hfront).2.1 a hab)) (hkeep a ha)
  · rw [hiovs, haddrs]
    rcases ha with ⟨hle, hlt⟩ | ⟨d, hd, b, hb, hbound, hab⟩
    · rw [hpos] at hle
      rw [hlim] at hlt
      split at hle
      · rename_i hnil
        obtain ⟨hlo, hhi⟩ := h.shape.bounds
        have hin : inBlock s.scratch a := ⟨hle, by dsimp only [scratch]; omega⟩
        refine ⟨fun ha => hkeep a ha (Or.inr ⟨hempty hnil, hin⟩), ?_⟩
        rw [← haddrs, hnil]
        exact List.not_mem_nil
      · obtain ⟨hk, hs⟩ := h.idle a (Or.inl ⟨hle, hlt⟩)
        exact ⟨hk, fun ha => hs (List.mem_of_mem_drop ha)⟩
    · have hd' : d ∈ s.uiocbs := hcs ▸ List.mem_append_right _ hd
      rw [hremoved, Nat.add_zero] at hbound
      refine ⟨fun ha => hkeep a ha (Or.inl ⟨d, hd', b, hb, hbound, hab⟩), fun ha => ?_⟩
      exact h.shape.late d hd' b hb a (List.drop_subset_drop_left _ (by omega) ha) hab
  · rw [hiovs, haddrs] at ha
    rcases h.alive a (List.mem_of_mem_drop ha) with hprog | hhome | ⟨b, hb | hb, hab⟩
    · exact Or.inl hprog
    · rw [home, hdefbuf]
      exact Or.inr (Or.inl hhome)
    · rcases hstays b hb with hb' | hfront
      · exact Or.inr (Or.inr ⟨b, Or.inl hb', hab⟩)
      · exact absurd hab ((hgone b hfront).2.2 a ha)
    · exact Or.inr (Or.inr ⟨b, Or.inr hb, hab⟩)
  · rcases hstays b hb with hb' | hfront
    · exact ⟨b, hb', hab⟩
    · exact absurd (Or.inl ((hgone b hfront).2.1 a hab)) (hkeep a ha)

end Sfslite.Async.Suio
