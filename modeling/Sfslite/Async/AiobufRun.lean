import Sfslite.Async.Aiobuf

/-!
Runs of the buffers of `aiod`. A pass of `bufwake` in which nothing is served leaves the allocator
and the queue as they were, so the loop ends unless such a pass asks for another one.
-/

namespace Sfslite.Async.Aiobuf

open Sfslite.Lib

namespace Aiod

variable {s s' : Aiod} {w w' : BbuddyWorld} {len : BitVec 64} {op : Op}

/-- What waits is woken by a buffer that is given back, by the growth, or by the next pass. -/
def Fed (s : Aiod) : Prop :=
  s.bbwaitq ≠ [] → s.w.live ≠ [] ∨ s.growth ≠ .idle ∨ s.bufwakereq = true

theorem startGrowth_setWorld (s : Aiod) (w w' : BbuddyWorld) (op : Op) :
    { bufwait (startGrowth { s with w := w }) op with w := w' } =
      bufwait (startGrowth { s with w := w' }) op := by
  rw [startGrowth, startGrowth]
  split_ifs <;> rfl

/-- The three outcomes of an operation that asks for buffers: it is served, or it waits without
having got any, or it waits and gives its first buffer back. -/
theorem Base.attempt_cases (h : Base s) {len2 : Option (BitVec 64)}
    (hop : (Op.bufs len len2).Legal s.w) :
    (∃ w', s.attempt (.bufs len len2) = some { s with w := w' } ∧
      (Op.bufs len len2).served s.w.bb = true ∧ w'.SameSpace s.w ∧ w'.Ok ∧ w'.live ≠ []) ∨
    (∃ w', s.attempt (.bufs len len2) =
        some (bufwait (startGrowth { s with w := w' }) (.bufs len len2)) ∧
      (Op.bufs len len2).served s.w.bb = false ∧ (Op.bufs len len2).half s.w.bb = false ∧
      s.w.bb.hands len = false ∧ w'.Like s.w ∧ w'.Ok) ∨
    ∃ w', s.attempt (.bufs len len2) =
        some (bufwake (bufwait (startGrowth { s with w := w' }) (.bufs len len2))) ∧
      (Op.bufs len len2).served s.w.bb = false ∧ (Op.bufs len len2).half s.w.bb = true ∧
      w'.Like s.w ∧ w'.Ok := by
  rcases h.bufalloc_cases hop.1 with ⟨w₁, halloc, hno, hlike, hok⟩ |
    ⟨w₁, b, halloc, hyes, hboth, hspace, hlive, hok⟩
  · -- the first buffer is not free
    refine .inr (.inl ⟨w₁, ?_, ?_, ?_, hno, hlike, hok⟩)
    · simp only [attempt, halloc, Option.bind_eq_bind, Option.bind_some]
      rfl
    · cases len2 with
      | none => exact hno
      | some l2 =>
        have hboth : s.w.bb.handsBoth len l2 = false := by
          rw [Bbuddy.handsBoth]
          rw [Bbuddy.hands] at hno
          cases hal : s.w.bb.alloc len with
          | none => rfl
          | some r =>
            rw [hal] at hno
            simp only [hno, Bool.false_and]
        exact hboth
    · cases len2 with
      | none => rfl
      | some l2 => simp only [Op.half, hno, Bool.false_and]
  · cases len2 with
    | none =>
      refine .inl ⟨w₁, ?_, hyes, hspace, hok, by rw [hlive]; exact List.cons_ne_nil _ _⟩
      simp only [attempt, halloc, Option.bind_eq_bind, Option.bind_some]
      rfl
    | some l2 =>
      have h₁ : Base { s with w := w₁ } := h.setWorld hok hspace
      have hl2 : w₁.Askable l2 := by
        obtain ⟨hne, hle⟩ := hop.2 l2 rfl
        exact ⟨hne, hspace.log2maxalloc ▸ hle⟩
      rcases h₁.bufalloc_cases hl2 with ⟨w₂, halloc₂, hno₂, hlike₂, hok₂⟩ |
        ⟨w₂, b₂, halloc₂, hyes₂, -, hspace₂, hlive₂, hok₂⟩
      · -- only the first one is
        have hboth₂ : s.w.bb.handsBoth len l2 = false := (hboth l2).trans hno₂
        have h₂ : Base (bufwait (startGrowth { s with w := w₂ }) (.bufs len (some l2))) := by
          have hlegal : (Op.bufs len (some l2)).Legal w₂ :=
            hop.mono (hlike₂.log2maxalloc.trans hspace.log2maxalloc)
          refine Base.wait (h.setWorld hok₂ (hlike₂.toSameSpace.trans hspace)).grow ?_
          rw [startGrowth_frame]
          exact hlegal
        have hw₂ : (bufwait (startGrowth { s with w := w₂ }) (.bufs len (some l2))).w = w₂ := by
          rw [startGrowth_frame]
          rfl
        have hlive₂ : w₂.live = b :: s.w.live := hlike₂.live.trans hlive
        obtain ⟨w₃, hok₃, hspace₃, hlive₃, hfree⟩ := h₂.free_eq (b := b)
          (by rw [hw₂, hlive₂]; exact List.mem_cons_self)
        rw [hw₂] at hspace₃ hlive₃
        refine .inr (.inr ⟨w₃, ?_, hboth₂, ?_, BbuddyWorld.Like.of_dealloc hlive₂
          (hlike₂.toSameSpace.trans hspace) hspace₃ hlive₃, hok₃⟩)
        · simp only [attempt, halloc, halloc₂, Option.bind_eq_bind, Option.bind_some]
          rw [hfree, startGrowth_setWorld]
          have hne : (bufwait (startGrowth { s with w := w₂ }) (.bufs len (some l2))).bbwaitq.isEmpty
              = false := by
            simp [bufwait]
          rw [hne]
          rfl
        · simp only [Op.half, hyes, hboth₂, Bool.not_false, Bool.and_self]
      · refine .inl ⟨w₂, ?_, (hboth l2).trans hyes₂, hspace₂.trans hspace, hok₂,
          by rw [hlive₂]; exact List.cons_ne_nil _ _⟩
        simp only [attempt, halloc, halloc₂, Option.bind_eq_bind, Option.bind_some]
        rfl

/-- What a step with the lock held keeps. -/
structure Kept (s s' : Aiod) : Prop where
  base : Base s'
  lock : s'.bufwakelock = true
  waking : s'.waking = s.waking
  space : s'.w.SameSpace s.w
  fed : Fed s → Fed s'

theorem Kept.trans {s'' : Aiod} (h : Kept s s') (h' : Kept s' s'') : Kept s s'' :=
  ⟨h'.base, h'.lock, h'.waking.trans h.waking, h'.space.trans h.space, fun hf => h'.fed (h.fed hf)⟩

theorem Kept.refl (h : Base s) (hlock : s.bufwakelock = true) : Kept s s :=
  ⟨h, hlock, rfl, ⟨rfl, rfl, rfl⟩, fun hf => hf⟩

theorem bufwake_of_lock (hlock : s.bufwakelock = true) :
    s.bufwake = { s with bufwakereq := true } := by
  rw [bufwake, if_pos hlock]

theorem Base.free_kept (h : Base s) (hlock : s.bufwakelock = true) (b : Buf) :
    ∃ s', s.free b = some s' ∧ Kept s s' ∧ s'.bbwaitq = s.bbwaitq := by
  by_cases hb : b ∈ s.w.live
  · obtain ⟨w', hok, hspace, hlive, hfree⟩ := h.free_eq hb
    have hset : Base { s with w := w' } := h.setWorld hok hspace
    refine ⟨_, hfree, ?_, ?_⟩
    · split_ifs with hempty
      · refine ⟨hset, hlock, rfl, hspace, fun _ hne => ?_⟩
        exact absurd (List.isEmpty_iff.mp hempty) hne
      · have hwake := hset.wake
        rw [bufwake_of_lock (s := { s with w := w' }) hlock] at hwake ⊢
        exact ⟨hwake, hlock, rfl, hspace, fun _ _ => .inr (.inr rfl)⟩
    · split_ifs
      · rfl
      · rw [bufwake_of_lock (s := { s with w := w' }) hlock]
  · exact ⟨s, if_neg hb, .refl h hlock, rfl⟩

theorem Base.drops_kept (h : Base s) (hlock : s.bufwakelock = true) (drops : List Buf) :
    ∃ s', drops.foldlM free s = some s' ∧ Kept s s' ∧ s'.bbwaitq = s.bbwaitq := by
  induction drops generalizing s with
  | nil => exact ⟨s, rfl, .refl h hlock, rfl⟩
  | cons b drops ih =>
    obtain ⟨s₁, hfree, hkept, hq⟩ := h.free_kept hlock b
    obtain ⟨s₂, hrest, hkept₂, hq₂⟩ := ih hkept.base hkept.lock
    refine ⟨s₂, ?_, hkept.trans hkept₂, hq₂.trans hq⟩
    rw [List.foldlM_cons, hfree]
    exact hrest

theorem Base.wait_fed (h : Base s) (hop : op.Legal s.w) (hlike : w'.Like s.w) (hok : w'.Ok)
    (hfed : s.w.live ≠ [] ∨ s.startGrowth.growth ≠ .idle) :
    Base (bufwait (startGrowth { s with w := w' }) op) ∧
      Fed (bufwait (startGrowth { s with w := w' }) op) := by
  have hgrowth : (startGrowth { s with w := w' }).growth = s.startGrowth.growth := by
    rw [startGrowth, startGrowth]
    split_ifs <;> rfl
  have hgrow := (h.setWorld hok hlike.toSameSpace).grow
  rw [startGrowth_frame] at hgrow ⊢
  refine ⟨hgrow.wait (hop.mono hlike.log2maxalloc), fun _ => ?_⟩
  rcases hfed with hfed | hfed
  · refine .inl ?_
    change w'.live ≠ []
    rwa [hlike.live]
  · refine .inr (.inl ?_)
    change (startGrowth { s with w := w' }).growth ≠ .idle
    rwa [hgrowth]

theorem Base.fed_or (h : Base s) (hlen : s.w.Askable len) (hno : s.w.bb.hands len = false) :
    s.w.live ≠ [] ∨ s.startGrowth.growth ≠ .idle := by
  by_cases hlive : s.w.live = []
  · exact .inr (h.growing hlen hno hlive)
  · exact .inl hlive

theorem Base.attempt_kept (h : Base s) (hlock : s.bufwakelock = true) (hop : op.Legal s.w) :
    ∃ s', s.attempt op = some s' ∧ Kept s s' ∧
      ((op.served s.w.bb = true ∧ s'.bbwaitq = s.bbwaitq) ∨
        (op.served s.w.bb = false ∧ s'.bbwaitq = s.bbwaitq ++ [op] ∧ s'.w.Like s.w ∧
          s'.bufwakereq = (s.bufwakereq || op.half s.w.bb))) := by
  cases op with
  | gone drops =>
    obtain ⟨s', hdrops, hkept, hq⟩ := h.drops_kept hlock drops
    exact ⟨s', hdrops, hkept, .inl ⟨rfl, hq⟩⟩
  | bufs len len2 =>
    rcases h.attempt_cases hop with ⟨w', hatt, hserved, hspace, hok, hlive⟩ |
      ⟨w', hatt, hserved, hhalf, hno, hlike, hok⟩ | ⟨w', hatt, hserved, hhalf, hlike, hok⟩
    · exact ⟨_, hatt, ⟨h.setWorld hok hspace, hlock, rfl, hspace, fun _ _ => .inl hlive⟩,
        .inl ⟨hserved, rfl⟩⟩
    · obtain ⟨hbase, hfed⟩ := h.wait_fed hop hlike hok (h.fed_or hop.1 hno)
      rw [startGrowth_frame] at hatt hbase hfed
      refine ⟨_, hatt, ⟨hbase, hlock, rfl, hlike.toSameSpace, fun _ => hfed⟩,
        .inr ⟨hserved, rfl, hlike, ?_⟩⟩
      rw [hhalf, Bool.or_false]
      rfl
    · have hgrow := (h.setWorld hok hlike.toSameSpace).grow
      rw [startGrowth_frame] at hgrow hatt
      have hwait := hgrow.wait (hop.mono hlike.log2maxalloc)
      refine ⟨_, hatt, ?_, .inr ⟨hserved, ?_⟩⟩
      · have hwake := hwait.wake
        rw [bufwake_of_lock (by exact hlock)] at hwake ⊢
        exact ⟨hwake, hlock, rfl, hlike.toSameSpace, fun _ _ => .inr (.inr rfl)⟩
      · rw [hhalf, Bool.or_true, bufwake_of_lock (by exact hlock)]
        exact ⟨rfl, hlike, rfl⟩

theorem served_eq (hlike : w.Like w') (hok : w.Ok) (hok' : w'.Ok) (hpos : 0 < w.bb.log2minalloc)
    (op : Op) : op.served w.bb = op.served w'.bb := by
  cases op with
  | bufs len len2 =>
    cases len2 with
    | none => exact hlike.hands_eq hok hok' hpos len
    | some l2 => exact hlike.handsBoth_eq hok hok' hpos len l2
  | gone drops => rfl

theorem half_eq (hlike : w.Like w') (hok : w.Ok) (hok' : w'.Ok) (hpos : 0 < w.bb.log2minalloc)
    (op : Op) : op.half w.bb = op.half w'.bb := by
  cases op with
  | bufs len len2 =>
    cases len2 with
    | none => rfl
    | some l2 =>
      rw [Op.half, Op.half, hlike.hands_eq hok hok' hpos len,
        hlike.handsBoth_eq hok hok' hpos len l2]
  | gone drops => rfl

theorem Base.fold_kept (h : Base s) (hlock : s.bufwakelock = true) {l : List Op}
    (hl : ∀ op ∈ l, op.Legal s.w) : ∃ s', l.foldlM attempt s = some s' ∧ Kept s s' ∧
      s'.bbwaitq.length ≤ s.bbwaitq.length + l.length := by
  induction l generalizing s with
  | nil => exact ⟨s, rfl, .refl h hlock, le_rfl⟩
  | cons op l ih =>
    obtain ⟨s₁, hatt, hkept, hcase⟩ := h.attempt_kept hlock (hl op List.mem_cons_self)
    obtain ⟨s₂, hrest, hkept₂, hlen⟩ := ih hkept.base hkept.lock
      (fun op' hop' => (hl op' (List.mem_cons_of_mem _ hop')).mono hkept.space.log2maxalloc)
    refine ⟨s₂, ?_, hkept.trans hkept₂, ?_⟩
    · rw [List.foldlM_cons, hatt]
      exact hrest
    · have hone : s₁.bbwaitq.length ≤ s.bbwaitq.length + 1 := by
        rcases hcase with ⟨-, hq⟩ | ⟨-, hq, -⟩
        · rw [hq]
          omega
        · simp [hq]
      rw [List.length_cons]
      omega

theorem Base.fold_unserved (h : Base s) (hlock : s.bufwakelock = true) {l : List Op}
    (hl : ∀ op ∈ l, op.Legal s.w) (hlike : s.w.Like w) (hok : w.Ok)
    (hno : ∀ op ∈ l, op.served w.bb = false) : ∃ s', l.foldlM attempt s = some s' ∧ Kept s s' ∧
      s'.w.Like w ∧ s'.bbwaitq = s.bbwaitq ++ l ∧
      s'.bufwakereq = (s.bufwakereq || l.any (·.half w.bb)) := by
  induction l generalizing s with
  | nil => exact ⟨s, rfl, .refl h hlock, hlike, (List.append_nil _).symm, by simp⟩
  | cons op l ih =>
    obtain ⟨s₁, hatt, hkept, hcase⟩ := h.attempt_kept hlock (hl op List.mem_cons_self)
    have hunserved : op.served s.w.bb = false :=
      (served_eq hlike h.ok hok h.pos op).trans (hno op List.mem_cons_self)
    rcases hcase with ⟨hserved, -⟩ | ⟨-, hq, hlike₁, hreq⟩
    · exact absurd (hunserved.symm.trans hserved) Bool.false_ne_true
    · obtain ⟨s₂, hrest, hkept₂, hlike₂, hq₂, hreq₂⟩ := ih hkept.base hkept.lock
        (fun op' hop' => (hl op' (List.mem_cons_of_mem _ hop')).mono hkept.space.log2maxalloc)
        (hlike₁.trans hlike) (fun op' hop' => hno op' (List.mem_cons_of_mem _ hop'))
      refine ⟨s₂, ?_, hkept.trans hkept₂, hlike₂, ?_, ?_⟩
      · rw [List.foldlM_cons, hatt]
        exact hrest
      · rw [hq₂, hq, List.append_assoc, List.singleton_append]
      · rw [hreq₂, hreq, half_eq hlike h.ok hok h.pos op, List.any_cons, Bool.or_assoc]

theorem Base.fold_served (h : Base s) (hlock : s.bufwakelock = true) {l : List Op}
    (hl : ∀ op ∈ l, op.Legal s.w) (hlike : s.w.Like w) (hok : w.Ok)
    (hyes : ∃ op ∈ l, op.served w.bb = true) : ∃ s', l.foldlM attempt s = some s' ∧ Kept s s' ∧
      s'.bbwaitq.length < s.bbwaitq.length + l.length := by
  induction l generalizing s with
  | nil =>
    obtain ⟨op, hop, -⟩ := hyes
    cases hop
  | cons op l ih =>
    obtain ⟨s₁, hatt, hkept, hcase⟩ := h.attempt_kept hlock (hl op List.mem_cons_self)
    have hl₁ : ∀ op' ∈ l, op'.Legal s₁.w := fun op' hop' =>
      (hl op' (List.mem_cons_of_mem _ hop')).mono hkept.space.log2maxalloc
    rcases hcase with ⟨-, hq⟩ | ⟨hno, hq, hlike₁, -⟩
    · obtain ⟨s₂, hrest, hkept₂, hlen⟩ := hkept.base.fold_kept hkept.lock hl₁
      refine ⟨s₂, ?_, hkept.trans hkept₂, ?_⟩
      · rw [List.foldlM_cons, hatt]
        exact hrest
      · rw [hq] at hlen
        rw [List.length_cons]
        omega
    · have hmore : ∃ op' ∈ l, op'.served w.bb = true := by
        obtain ⟨op', hop', hserved⟩ := hyes
        rcases List.mem_cons.mp hop' with rfl | hmem
        · rw [← served_eq hlike h.ok hok h.pos, hno] at hserved
          cases hserved
        · exact ⟨op', hmem, hserved⟩
      obtain ⟨s₂, hrest, hkept₂, hlen⟩ := ih hkept.base hkept.lock hl₁ (hlike₁.trans hlike) hmore
      refine ⟨s₂, ?_, hkept.trans hkept₂, ?_⟩
      · rw [List.foldlM_cons, hatt]
        exact hrest
      · rw [hq, List.length_append, List.length_singleton] at hlen
        rw [List.length_cons]
        omega

/-- A pass leaves everything as it was, and is the last one unless some operation got its first
buffer only, or fewer operations wait after it. -/
theorem Base.pass_cases (h : Base s) (hlock : s.bufwakelock = true) : ∃ s₁,
    s.pass = some (if s₁.bufwakereq then s₁
      else { s₁ with bufwakelock := false, waking := false }) ∧
    Base s₁ ∧ s₁.bufwakelock = true ∧ s₁.waking = s.waking ∧ Fed s₁ ∧
    (((∀ op ∈ s.bbwaitq, op.served s.w.bb = false) ∧ s₁.w.Like s.w ∧ s₁.bbwaitq = s.bbwaitq ∧
        s₁.bufwakereq = s.bbwaitq.any (·.half s.w.bb)) ∨
      ((∃ op ∈ s.bbwaitq, op.served s.w.bb = true) ∧ s₁.bbwaitq.length < s.bbwaitq.length)) := by
  have h₀ : Base { s with bufwakereq := false, bbwaitq := [] } :=
    { h with legal := fun op hop => (by cases hop) }
  have hfed₀ : Fed { s with bufwakereq := false, bbwaitq := [] } := fun hne => absurd rfl hne
  have hlock₀ : { s with bufwakereq := false, bbwaitq := [] }.bufwakelock = true := hlock
  by_cases hyes : ∃ op ∈ s.bbwaitq, op.served s.w.bb = true
  · obtain ⟨s₁, hfold, hkept, hlen⟩ := h₀.fold_served hlock₀ h.legal (.refl s.w) h.ok hyes
    refine ⟨s₁, ?_, hkept.base, hkept.lock, hkept.waking, hkept.fed hfed₀, .inr ⟨hyes, ?_⟩⟩
    · rw [pass, hfold]
      rfl
    · simpa using hlen
  · have hno : ∀ op ∈ s.bbwaitq, op.served s.w.bb = false := fun op hop =>
      Bool.eq_false_iff.mpr fun hserved => hyes ⟨op, hop, hserved⟩
    obtain ⟨s₁, hfold, hkept, hlike, hq, hreq⟩ :=
      h₀.fold_unserved hlock₀ h.legal (.refl s.w) h.ok hno
    refine ⟨s₁, ?_, hkept.base, hkept.lock, hkept.waking, hkept.fed hfed₀,
      .inl ⟨hno, hlike, by simpa using hq, by simpa using hreq⟩⟩
    rw [pass, hfold]
    rfl

/-- Where an operation gets its first buffer only and none is served, the next pass begins in a
state of the same kind. -/
theorem Base.pass_stuck (h : Base s) (hlock : s.bufwakelock = true) (hstuck : Stuck s) :
    ∃ s', s.pass = some s' ∧ Base s' ∧ s'.bufwakelock = true ∧ s'.waking = s.waking ∧ Stuck s' := by
  obtain ⟨hno, op, hop, hhalf⟩ := hstuck
  obtain ⟨s₁, hpass, hbase, hlock₁, hwaking, -, hcase⟩ := h.pass_cases hlock
  rcases hcase with ⟨-, hlike, hq, hreq⟩ | ⟨⟨op', hop', hserved⟩, -⟩
  · have hany : s.bbwaitq.any (·.half s.w.bb) = true := List.any_eq_true.mpr ⟨op, hop, hhalf⟩
    rw [hreq, hany, if_pos rfl] at hpass
    refine ⟨s₁, hpass, hbase, hlock₁, hwaking, ?_, op, hq ▸ hop, ?_⟩
    · intro op' hop'
      rw [served_eq hlike hbase.ok h.ok hbase.pos]
      exact hno op' (hq ▸ hop')
    · rw [half_eq hlike hbase.ok h.ok hbase.pos]
      exact hhalf
  · exact absurd ((hno op' hop').symm.trans hserved) Bool.false_ne_true

theorem stuck_passes (h : Base s) (hlock : s.bufwakelock = true) (hwaking : s.waking = true)
    (hstuck : Stuck s) (k : ℕ) :
    ∃ s', (List.replicate k Event.pass).foldlM step s = some s' ∧ s'.waking = true := by
  induction k generalizing s with
  | zero => exact ⟨s, rfl, hwaking⟩
  | succ k ih =>
    obtain ⟨s₁, hpass, hbase, hlock₁, hwaking₁, hstuck₁⟩ := h.pass_stuck hlock hstuck
    obtain ⟨s₂, hrest, hwaking₂⟩ := ih hbase hlock₁ (hwaking₁.trans hwaking) hstuck₁
    refine ⟨s₂, ?_, hwaking₂⟩
    rw [List.replicate_succ, List.foldlM_cons, step, if_pos hwaking, hpass]
    exact hrest

/-- What can happen in a state. Callers keep to the lengths that `bufalloc` asserts. -/
def Can (s : Aiod) : Event → Prop
  | .pass => s.waking = true
  | .call len len2 => s.waking = false ∧ (Op.bufs len len2).Legal s.w
  | .take len => s.waking = false ∧ s.w.Askable len
  | .drop b => s.waking = false ∧ b ∈ s.w.live
  | .close i _ => s.waking = false ∧ i < s.bbwaitq.length
  | .input => s.waking = false ∧ s.bufwakelock = false
  | .inputEnd => s.waking = false ∧ s.bufwakelock = true
  | .cb1 _ => s.waking = false ∧ s.bufwakelock = true ∧ ∃ inc, s.growth = .asked inc
  | .cb2 _ _ => s.waking = false ∧ s.bufwakelock = true ∧ ∃ inc, s.growth = .told inc

/-- The event does not reach a defect: a pass does not begin in a stuck state, and growth does not
fail while operations wait, no buffer is in use and no pass is to come. -/
def Cond (s : Aiod) : Event → Prop
  | .pass => ¬ Stuck s
  | .cb1 false => s.bbwaitq = [] ∨ s.w.live ≠ [] ∨ s.bufwakereq = true
  | .cb2 false _ => s.bbwaitq = [] ∨ s.w.live ≠ [] ∨ s.bufwakereq = true
  | _ => True

structure Inv (s : Aiod) : Prop where
  base : Base s
  quiet : s.bufwakelock = false → s.bufwakereq = false
  wakes : s.waking = true → s.bufwakelock = true
  fed : s.waking = false → Fed s

theorem Inv.bufwake (h : Base s) (hwaking : s.waking = false) : Inv s.bufwake := by
  refine ⟨h.wake, ?_, ?_, ?_⟩
  all_goals
    rw [Aiod.bufwake]
    split_ifs with hlock
  · exact fun hno => absurd (hno.symm.trans hlock) Bool.false_ne_true
  · exact fun hno => (by cases hno)
  · exact fun hyes => absurd (hwaking.symm.trans hyes) Bool.false_ne_true
  · exact fun _ => rfl
  · exact fun _ _ => .inr (.inr rfl)
  · exact fun hno => (by cases hno)

theorem Inv.call (h : Inv s) (hwaking : s.waking = false) {len2 : Option (BitVec 64)}
    (hop : (Op.bufs len len2).Legal s.w) : ∃ s', s.attempt (.bufs len len2) = some s' ∧ Inv s' := by
  rcases h.base.attempt_cases hop with ⟨w', hatt, -, hspace, hok, hlive⟩ |
    ⟨w', hatt, -, -, hno, hlike, hok⟩ | ⟨w', hatt, -, -, hlike, hok⟩
  · exact ⟨_, hatt, h.base.setWorld hok hspace, h.quiet, h.wakes, fun _ _ => .inl hlive⟩
  · obtain ⟨hbase, hfed⟩ := h.base.wait_fed hop hlike hok (h.base.fed_or hop.1 hno)
    rw [startGrowth_frame] at hatt hbase hfed
    exact ⟨_, hatt, hbase, h.quiet, h.wakes, fun _ => hfed⟩
  · have hgrow := (h.base.setWorld hok hlike.toSameSpace).grow
    rw [startGrowth_frame] at hgrow hatt
    exact ⟨_, hatt, .bufwake (hgrow.wait (hop.mono hlike.log2maxalloc)) hwaking⟩

theorem Inv.take (h : Inv s) (hwaking : s.waking = false) (hlen : s.w.Askable len) :
    ∃ s', (s.bufalloc len).map (·.1) = some s' ∧ Inv s' := by
  rcases h.base.bufalloc_cases hlen with ⟨w', halloc, hno, hlike, hok⟩ |
    ⟨w', b, halloc, -, -, hspace, hlive, hok⟩
  · rw [halloc]
    refine ⟨_, rfl, ?_⟩
    have hset := h.base.setWorld hok hlike.toSameSpace
    have hgrow := hset.grow
    have hkeep : s.growth ≠ .idle → (startGrowth { s with w := w' }).growth ≠ .idle := by
      intro hne
      rw [startGrowth, if_neg (fun hc => hne hc.1)]
      exact hne
    rw [startGrowth_frame] at hgrow ⊢
    refine ⟨hgrow, h.quiet, h.wakes, fun _ hne => ?_⟩
    rcases h.fed hwaking hne with hlive | hgrowth | hreq
    · refine .inl ?_
      change w'.live ≠ []
      rwa [hlike.live]
    · exact .inr (.inl (hkeep hgrowth))
    · exact .inr (.inr hreq)
  · rw [halloc]
    refine ⟨_, rfl, h.base.setWorld hok hspace, h.quiet, h.wakes, fun _ _ => .inl ?_⟩
    change w'.live ≠ []
    rw [hlive]
    exact List.cons_ne_nil _ _

theorem Inv.drop (h : Inv s) (hwaking : s.waking = false) {b : Buf} (hb : b ∈ s.w.live) :
    ∃ s', s.free b = some s' ∧ Inv s' := by
  obtain ⟨w', hok, hspace, -, hfree⟩ := h.base.free_eq hb
  have hset := h.base.setWorld hok hspace
  refine ⟨_, hfree, ?_⟩
  split_ifs with hempty
  · exact ⟨hset, h.quiet, h.wakes, fun _ hne => absurd (List.isEmpty_iff.mp hempty) hne⟩
  · exact .bufwake hset hwaking

theorem Inv.cb2 (h : Inv s) (hwaking : s.waking = false) {inc : ℕ} (hgrowth : s.growth = .told inc)
    (ok : Bool) (junk : ℕ → ℕ → BitVec 64) (hcond : s.Cond (.cb2 ok junk)) :
    ∃ s', s.bufallocCb2 inc ok junk = some s' ∧ Inv s' := by
  have hidle : Base { s with growth := .idle } :=
    { h.base with grown := fun _ hinc => by rcases hinc with hinc | hinc <;> cases hinc }
  cases ok with
  | false =>
    refine ⟨{ s with growth := .idle }, rfl, hidle, h.quiet, h.wakes, fun _ hne => ?_⟩
    rcases hcond with hempty | hlive | hreq
    · exact absurd hempty hne
    · exact .inl hlive
    · exact .inr (.inr hreq)
  | true =>
    have hle := h.base.grown inc (.inr hgrowth)
    have hmax := h.base.bound
    have hnat : (BitVec.ofNat 64 (s.shmlen + inc)).toNat = s.shmlen + inc := by
      rw [BitVec.toNat_ofNat, Nat.mod_eq_of_lt (by omega)]
    have hint : (BitVec.ofNat 64 (s.shmlen + inc)).toInt = (s.shmlen + inc : ℕ) := by
      rw [BitVec.toInt_eq_toNat_cond, hnat, if_pos (by omega)]
    have hmore : (s.w.bb.totsize : Int) ≤ (BitVec.ofNat 64 (s.shmlen + inc)).toInt := by
      rw [hint, h.base.totsize]
      omega
    obtain ⟨w', hstep, hok, hlo, hhi, -⟩ := h.base.ok.settotsize hmore junk
    have hset : Base { s with growth := .idle, w := w', shmlen := w'.bb.totsize } := by
      refine ⟨hok, hlo.trans h.base.minalloc, fun op hop => (h.base.legal op hop).mono hhi, rfl,
        h.base.room, h.base.bound, fun _ hinc => ?_⟩
      rcases hinc with hinc | hinc <;> cases hinc
    refine ⟨_, ?_, .bufwake hset hwaking⟩
    simp only [bufallocCb2, if_true, hstep, Option.bind_eq_bind, Option.bind_some]
    rfl

theorem Inv.pass (h : Inv s) (hwaking : s.waking = true) (hcond : ¬ Stuck s) :
    ∃ s', s.pass = some s' ∧ Inv s' ∧
      (s'.waking = true → s'.bbwaitq.length < s.bbwaitq.length) := by
  obtain ⟨s₁, hpass, hbase, hlock, hwaking₁, hfed, hcase⟩ := h.base.pass_cases (h.wakes hwaking)
  cases hreq : s₁.bufwakereq with
  | true =>
    rw [hreq, if_pos rfl] at hpass
    refine ⟨s₁, hpass, ⟨hbase, fun hno => ?_, fun _ => hlock, fun _ => hfed⟩, fun _ => ?_⟩
    · exact absurd (hno.symm.trans hlock) Bool.false_ne_true
    · rcases hcase with ⟨hno, -, -, hreq₁⟩ | ⟨-, hlt⟩
      · rw [hreq] at hreq₁
        exact absurd ⟨hno, List.any_eq_true.mp hreq₁.symm⟩ hcond
      · exact hlt
  | false =>
    rw [if_neg (Bool.eq_false_iff.mp hreq)] at hpass
    exact ⟨_, hpass, ⟨hbase.setFlags .., fun _ => hreq, fun hyes => (by cases hyes), fun _ => hfed⟩,
      fun hyes => (by cases hyes)⟩

theorem Inv.close (h : Inv s) (hwaking : s.waking = false) {i : ℕ} (hi : i < s.bbwaitq.length)
    (drops : List Buf) : Inv { s with bbwaitq := s.bbwaitq.set i (.gone drops) } := by
  refine ⟨{ h.base with legal := fun op hop => ?_ }, h.quiet, h.wakes, fun _ _ => h.fed hwaking ?_⟩
  · rcases List.mem_or_eq_of_mem_set hop with hop | rfl
    · exact h.base.legal op hop
    · trivial
  · exact List.ne_nil_of_length_pos (Nat.zero_lt_of_lt hi)

theorem Inv.cb1 (h : Inv s) {inc : ℕ} (hgrowth : s.growth = .asked inc) (ok : Bool)
    (hcond : s.Cond (.cb1 ok)) : Inv (s.bufallocCb1 inc ok) := by
  refine ⟨{ h.base with grown := fun inc' hinc => ?_ }, h.quiet, h.wakes, fun _ hne => ?_⟩
  · cases ok with
    | false => rcases hinc with hinc | hinc <;> cases hinc
    | true =>
      rcases hinc with hinc | hinc
      · cases hinc
      · cases hinc
        exact h.base.grown inc (.inl hgrowth)
  · cases ok with
    | false =>
      rcases hcond with hempty | hlive | hreq
      · exact absurd hempty hne
      · exact .inl hlive
      · exact .inr (.inr hreq)
    | true => exact .inr (.inl fun hidle => (by cases hidle))

theorem Inv.inputEnd (h : Inv s) (hwaking : s.waking = false) :
    Inv (if s.bufwakereq then Aiod.bufwake { s with bufwakelock := false }
      else { s with bufwakelock := false }) := by
  have hbase : Base { s with bufwakelock := false } := h.base.setFlags ..
  split_ifs with hreq
  · exact .bufwake hbase hwaking
  · exact ⟨hbase, fun _ => Bool.eq_false_iff.mpr hreq,
      fun hyes => absurd (hwaking.symm.trans hyes) Bool.false_ne_true, fun _ => h.fed hwaking⟩

theorem step_pass (hwaking : s.waking = true) : s.step .pass = s.pass := by
  rw [Aiod.step, if_pos hwaking]

theorem step_idle (hwaking : s.waking = false) (e : Event) : s.step e = s.idleStep e :=
  if_neg (Bool.eq_false_iff.mp hwaking)

theorem Inv.step (h : Inv s) {e : Event} (hcan : s.Can e) (hcond : s.Cond e) :
    ∃ s', s.step e = some s' ∧ Inv s' := by
  cases e with
  | pass =>
    obtain ⟨s', hpass, hinv, -⟩ := h.pass hcan hcond
    exact ⟨s', (step_pass hcan).trans hpass, hinv⟩
  | call len len2 =>
    rw [step_idle hcan.1]
    exact h.call hcan.1 hcan.2
  | take len =>
    rw [step_idle hcan.1]
    exact h.take hcan.1 hcan.2
  | drop b =>
    obtain ⟨s', hfree, hinv⟩ := h.drop hcan.1 hcan.2
    rw [step_idle hcan.1]
    exact ⟨s', (if_pos hcan.2).trans hfree, hinv⟩
  | close i drops =>
    rw [step_idle hcan.1]
    exact ⟨_, if_pos hcan.2, h.close hcan.1 hcan.2 drops⟩
  | input =>
    rw [step_idle hcan.1]
    exact ⟨{ s with bufwakelock := true }, if_neg (Bool.eq_false_iff.mp hcan.2),
      h.base.setFlags .., fun hno => (by cases hno), fun _ => rfl, fun _ => h.fed hcan.1⟩
  | inputEnd =>
    rw [step_idle hcan.1]
    exact ⟨_, if_pos hcan.2, h.inputEnd hcan.1⟩
  | cb1 ok =>
    obtain ⟨hwaking, hlock, inc, hgrowth⟩ := hcan
    rw [step_idle hwaking]
    refine ⟨s.bufallocCb1 inc ok, ?_, h.cb1 hgrowth ok hcond⟩
    simp only [idleStep, hlock, hgrowth]
  | cb2 ok junk =>
    obtain ⟨hwaking, hlock, inc, hgrowth⟩ := hcan
    obtain ⟨s', hcb2, hinv⟩ := h.cb2 hwaking hgrowth ok junk hcond
    rw [step_idle hwaking]
    refine ⟨s', ?_, hinv⟩
    simpa only [idleStep, hlock, hgrowth] using hcb2

theorem Inv.of_new {shmsize mb : BitVec 64} {n : ℕ} (hsize : 0 < shmsize.toInt)
    (hmb : 2 ^ 5 < mb.toNat ∧ mb.toNat ≤ 2 ^ 30)
    (hmax : ((shmsize + mb - 1) &&& ~~~(mb - 1)).toNat = n) (hroom : mb.toNat ≤ n ∧ n < 2 ^ 63)
    (junk : ℕ → ℕ → BitVec 64) : ∃ s, Aiod.new shmsize mb junk = some s ∧ Inv s := by
  have hlevels : 6 ≤ Nat.clog 2 mb.toNat ∧ Nat.clog 2 mb.toNat ≤ 30 :=
    ⟨(Nat.lt_clog_iff_pow_lt (by decide)).mpr hmb.1,
      (Nat.clog_le_iff_le_pow (by decide)).mpr hmb.2⟩
  obtain ⟨bb, hnew, hok, hlo, hround⟩ :=
    BbuddyWorld.Ok.of_new hlevels.1 hlevels.2 (show 0 ≤ (0 : BitVec 64).toInt by decide) junk
  have hne : mb ≠ 0 := by
    rintro rfl
    exact absurd hmb.1 (by decide)
  have hsame : Bbuddy.new 0 minbuf mb junk = some bb := by
    rw [← hnew]
    have hlog : log2c64 mb = log2c64 (BitVec.ofNat 64 (2 ^ Nat.clog 2 mb.toNat)) := by
      rw [BbuddyWorld.log2c64_eq_clog hne, log2c64_two_pow (by omega)]
    simp only [Bbuddy.new, hlog]
    rfl
  have htot : bb.totsize = 0 := hround.trans (by simp)
  refine ⟨⟨⟨bb, []⟩, [], false, false, false, .idle, 0, n, mb.toNat⟩, ?_, ?_⟩
  · simp only [Aiod.new, hsame, hmax, Option.bind_eq_bind, Option.bind_some,
      if_neg (Int.not_le.mpr hsize)]
    rfl
  · refine ⟨⟨hok, hlo, fun op hop => (by cases hop), htot, ⟨?_, hroom.1⟩, hroom.2, ?_⟩,
      fun _ => rfl, fun hyes => (by cases hyes), fun _ hne => absurd rfl hne⟩
    · have hpos := hmb.1
      dsimp only
      omega
    · intro inc hinc
      rcases hinc with hinc | hinc <;> cases hinc

def Allowed (s : Aiod) (e : Event) : Prop := s.Can e ∧ s.Cond e

/-- Whatever waits will be woken: a buffer is in use, the shared memory grows, or `bufwake` is
still to make a pass. -/
def WillWake (s : Aiod) : Prop :=
  s.bbwaitq ≠ [] → s.w.live ≠ [] ∨ s.growth ≠ .idle ∨
    (s.bufwakelock = true ∧ (s.bufwakereq = true ∨ s.waking = true))

theorem Inv.run (h : Inv s) {es : List Event} (hrun : Run Aiod.step Allowed s es s') : Inv s' :=
  hrun.invariant_of_step h fun _ _ hinv hallowed => hinv.step hallowed.1 hallowed.2

theorem Inv.willWake (h : Inv s) : WillWake s := by
  intro hne
  cases hwaking : s.waking with
  | true => exact .inr (.inr ⟨h.wakes hwaking, .inr rfl⟩)
  | false =>
    rcases h.fed hwaking hne with hlive | hgrowth | hreq
    · exact .inl hlive
    · exact .inr (.inl hgrowth)
    · refine .inr (.inr ⟨?_, .inl hreq⟩)
      by_contra hlock
      have hno := h.quiet (Bool.eq_false_iff.mpr hlock)
      exact absurd (hno.symm.trans hreq) Bool.false_ne_true

theorem Inv.passes_le (h : Inv s) {k : ℕ}
    (hrun : Run Aiod.step Allowed s (List.replicate k .pass) s') : k ≤ s.bbwaitq.length + 1 := by
  induction k generalizing s with
  | zero => omega
  | succ k ih =>
    rw [List.replicate_succ] at hrun
    obtain ⟨s₁, hallowed, hstep, hrest⟩ := hrun.of_cons
    obtain ⟨s₂, hpass, hinv, hlt⟩ := h.pass hallowed.1 hallowed.2
    rw [step_pass hallowed.1] at hstep
    obtain rfl := Option.some.inj (hpass.symm.trans hstep)
    have hle := ih hinv hrest
    cases k with
    | zero => omega
    | succ k =>
      rw [List.replicate_succ] at hrest
      obtain ⟨-, hallowed₁, -⟩ := hrest.of_cons
      have hless := hlt hallowed₁.1
      omega

end Aiod

/-- Where the largest buffer fits the shared memory, in every state that is reached without a stuck
pass and without a growth that fails while nothing else will wake what waits: no waiting operation
is forgotten, every event is dealt with, and a `bufwake` makes at most one pass more than operations
wait. A pass that begins stuck is followed by passes without end. -/
theorem aiobuf_run (shmsize mb : BitVec 64) (junk : ℕ → ℕ → BitVec 64)
    (hsize : 0 < shmsize.toInt) (hmb : 2 ^ 5 < mb.toNat ∧ mb.toNat ≤ 2 ^ 30)
    (hroom : mb.toNat ≤ ((shmsize + mb - 1) &&& ~~~(mb - 1)).toNat)
    (hmax : ((shmsize + mb - 1) &&& ~~~(mb - 1)).toNat < 2 ^ 63) :
    ∃ s₀, Aiod.new shmsize mb junk = some s₀ ∧
      ∀ es s, Run Aiod.step Aiod.Allowed s₀ es s →
        s.WillWake ∧
        (∀ e, s.Allowed e → ∃ s', s.step e = some s') ∧
        (∀ k s', Run Aiod.step Aiod.Allowed s (List.replicate k .pass) s' →
          k ≤ s.bbwaitq.length + 1) ∧
        (s.waking = true → s.Stuck → ∀ k, ∃ s',
          (List.replicate k Event.pass).foldlM Aiod.step s = some s' ∧ s'.waking = true) := by
  obtain ⟨s₀, hnew, hinit⟩ := Aiod.Inv.of_new hsize hmb rfl ⟨hroom, hmax⟩ junk
  refine ⟨s₀, hnew, fun es s hrun => ?_⟩
  have hinv := hinit.run hrun
  refine ⟨hinv.willWake, fun e hallowed => ?_, fun k s' => hinv.passes_le,
    fun hwaking hstuck => ?_⟩
  · obtain ⟨s', hstep, -⟩ := hinv.step hallowed.1 hallowed.2
    exact ⟨s', hstep⟩
  · exact Aiod.stuck_passes hinv.base (hinv.wakes hwaking) hwaking hstuck

/-- An operation waits until the memory has grown, and gets its buffer. -/
theorem aiobuf_run_grows :
    ∃ s₀ s, Aiod.new 64 64 (fun _ _ => 0) = some s₀ ∧
      Run Aiod.step Aiod.Allowed s₀
        [.call 40 none, .input, .cb1 true, .cb2 true fun _ _ => 0, .inputEnd, .pass] s ∧
      s.w.live = [(0, 40)] ∧ s.bbwaitq = [] ∧ s.WillWake := by
  obtain ⟨s₀, hnew, hkept⟩ := aiobuf_run 64 64 (fun _ _ => 0) (by decide) (by decide) (by decide)
    (by decide)
  obtain rfl := Option.some.inj ((show Aiod.new 64 64 (fun _ _ => 0) =
    some ⟨⟨⟨0, 6, 6, [⟨[], 0, 0, 0, 0⟩], 0⟩, []⟩, [], false, false, false, .idle, 0, 64, 64⟩
    from rfl).symm.trans hnew)
  have hpass : ¬ Aiod.Stuck ⟨⟨⟨64, 6, 6, [⟨[1], 1, 0, 1, 1⟩], 64⟩, []⟩, [.bufs 40 none], true, true,
      true, .idle, 64, 64, 64⟩ := by decide
  have hrun : Run Aiod.step Aiod.Allowed
      ⟨⟨⟨0, 6, 6, [⟨[], 0, 0, 0, 0⟩], 0⟩, []⟩, [], false, false, false, .idle, 0, 64, 64⟩
      [.call 40 none, .input, .cb1 true, .cb2 true fun _ _ => 0, .inputEnd, .pass]
      ⟨⟨⟨64, 6, 6, [⟨[0], 1, 0, 0, 1⟩], 0⟩, [(0, 40)]⟩, [], false, false, false, .idle, 64, 64, 64⟩ :=
    .cons ⟨⟨rfl, ⟨by decide, by decide⟩, by simp⟩, trivial⟩ rfl
      (.cons ⟨⟨rfl, rfl⟩, trivial⟩ rfl (.cons ⟨⟨rfl, rfl, _, rfl⟩, trivial⟩ rfl
        (.cons ⟨⟨rfl, rfl, _, rfl⟩, trivial⟩ rfl (.cons ⟨⟨rfl, rfl⟩, trivial⟩ rfl
          (.cons ⟨rfl, hpass⟩ rfl (.nil _))))))
  exact ⟨_, _, rfl, hrun, rfl, rfl, (hkept _ _ hrun).1⟩

/-- The defects, with a single block of 64 bytes. An operation that asks for two buffers waits until
the memory has grown; then every pass of `bufwake` gives it the first one and takes it back. And
where the growth fails, an operation waits although no buffer is in use and nothing goes on. -/
theorem aiobuf_endless :
    (∃ s, (do
        let s ← Aiod.new 64 64 fun _ _ => 0
        [.call 40 (some 33), .input, .cb1 true, .cb2 true fun _ _ => 0, .inputEnd].foldlM
          Aiod.step s) = some s ∧ s.waking = true ∧
      ∀ k, (List.replicate k Event.pass).foldlM Aiod.step s = some s) ∧
    ∃ s, (do
        let s ← Aiod.new 64 64 fun _ _ => 0
        [.call 40 (some 33), .input, .cb1 false, .inputEnd].foldlM Aiod.step s) = some s ∧
      s.bbwaitq ≠ [] ∧ s.w.live = [] ∧ s.growth = .idle ∧ s.bufwakelock = false := by
  refine ⟨⟨⟨⟨⟨64, 6, 6, [⟨[1], 1, 0, 1, 1⟩], 64⟩, []⟩, [.bufs 40 (some 33)], true, true, true, .idle,
    64, 64, 64⟩, rfl, rfl, fun k => ?_⟩, ⟨⟨⟨0, 6, 6, [⟨[], 0, 0, 0, 0⟩], 0⟩, []⟩,
    [.bufs 40 (some 33)], false, false, false, .idle, 0, 64, 64⟩, rfl, ?_, rfl, rfl, rfl⟩
  · induction k with
    | zero => rfl
    | succ k ih =>
        rw [List.replicate_succ, List.foldlM_cons]
        exact ih
  · exact List.cons_ne_nil _ _

end Sfslite.Async.Aiobuf
