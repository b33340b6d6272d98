import Sfslite.Async.IhashGrow

/-!
What the operations of the table do: each one keeps the elements that are in the table in their
buckets, or it looks behind the table of primes.
-/

namespace Sfslite.Async.Ihash

open Sfslite.Lib.Hlist

namespace Mem

variable (m : Mem) (e b : ℕ) (hval : Hash)

@[simp] theorem entry_setVal : (m.setVal e hval).entry b =
    if b = e then { m.entry b with val := hval } else m.entry b := by
  simp only [setVal, Function.update_apply]
  split_ifs with hb
  · rw [hb]
  · rfl

@[simp] theorem cell_setVal : (m.setVal e hval).cell = m.cell := rfl

@[simp] theorem len_setVal : (m.setVal e hval).len = m.len := rfl

@[simp] theorem links_setVal : (m.setVal e hval).links = m.links := by
  have hnext : ∀ b, ((m.setVal e hval).entry b).next = (m.entry b).next := by
    intro b
    rw [entry_setVal]
    split_ifs <;> rfl
  have hpprev : ∀ b, ((m.setVal e hval).entry b).pprev = (m.entry b).pprev := by
    intro b
    rw [entry_setVal]
    split_ifs <;> rfl
  simp only [links, cell_setVal, hnext, hpprev]

end Mem

variable {t : IhashTable} {elm : ℕ}

theorem Table.insert {m : Mem} {L : List ℕ} (h : Table m t L) (helm : elm ∉ L) (hval : Hash) :
    Table ((m.setVal elm hval).withLinks
      (m.links.push (slot t.tab (hval.toNat % t.buckets)) elm)) t (elm :: L) := by
  have hkey : (m.setVal elm hval).key t.buckets elm = hval.toNat % t.buckets := by
    simp [Mem.key]
  have hL : m.links.Buckets (slot t.tab) t.buckets ((m.setVal elm hval).key t.buckets) L :=
    h.buckets.congr_key fun e he => by
      simp [Mem.key, ne_of_mem_of_not_mem he helm]
  refine { h with buckets := ?_ }
  rw [← hkey]
  exact hL.push (slot_injective t.tab) (Nat.mod_lt _ h.pos) helm

theorem remove_eq {m : Mem} (hself : (m.entry elm).next ≠ some elm)
    (hplace : ∀ tab i, (m.entry elm).pprev = .head (tab, i) → i < m.len tab) :
    remove m t elm =
      .ok (m.withLinks (m.links.unlink elm), { t with entries := t.entries - 1 }) := by
  have helm : (m.setBack (m.entry elm).next (m.entry elm).pprev).entry elm = m.entry elm := by
    rw [Mem.entry_setBack, if_neg hself]
  simp only [remove, helm]
  cases hp : (m.entry elm).pprev with
  | head k =>
    obtain ⟨tab, i⟩ := k
    have hi := hplace tab i hp
    simp only [Mem.assign]
    rw [Mem.store_eq _ (by simpa using hi)]
    refine congrArg (fun m => Except.ok (m, _)) (Mem.ext (funext fun b => ?_)
      (funext fun k => ?_) (by simp) (by simp))
    · by_cases hnext : (m.entry elm).next = some b
      all_goals simp [hp, hnext]
    · simp [hp, Function.update_apply, eq_comm]
  | next e =>
    refine congrArg (fun m => Except.ok (m, _)) (Mem.ext (funext fun b => ?_)
      (funext fun k => ?_) (by simp) (by simp))
    · by_cases hb : b = e
      · subst hb
        by_cases hnext : (m.entry elm).next = some b
        all_goals simp [hp, hnext]
      · have hbe : e ≠ b := Ne.symm hb
        by_cases hnext : (m.entry elm).next = some b
        all_goals simp [hp, hnext, hb, hbe]
    · simp [hp]

theorem Table.remove_eq {m : Mem} {L : List ℕ} (h : Table m t L) (helm : elm ∈ L) :
    remove m t elm =
      .ok (m.withLinks (m.links.unlink elm), { t with entries := t.entries - 1 }) := by
  have hown := h.buckets.isList _ (h.key_lt elm)
  have hmem : elm ∈ L.filter fun e => m.key t.buckets e = m.key t.buckets elm :=
    List.mem_filter.mpr ⟨helm, decide_eq_true rfl⟩
  refine Ihash.remove_eq ?_ ?_
  · -- What is behind the element is another element of its bucket.
    intro hnext
    obtain ⟨l₁, l₂, hsplit⟩ := List.append_of_mem hmem
    have hnd : (l₁ ++ elm :: l₂).Nodup := hsplit ▸ h.buckets.nodup.filter _
    rw [hsplit] at hown
    have hhead : l₂.head? = some elm := hown.next_eq.symm.trans hnext
    obtain ⟨-, hnd, -⟩ := List.nodup_append.mp hnd
    exact (List.nodup_cons.mp hnd).1 (List.mem_of_mem_head? hhead)
  · intro tab i hp
    rcases hown.pprev_cases hmem with hback | ⟨b, -, hback⟩
    · have hslot : slot t.tab (m.key t.buckets elm) = (tab, i) :=
        Place.head.inj (hback.symm.trans hp)
      obtain ⟨rfl, rfl⟩ := Prod.mk.inj hslot
      rw [h.len]
      exact h.key_lt elm
    · exact nomatch hback.symm.trans hp

theorem Table.unlink {m : Mem} {L : List ℕ} {entries : ℕ} (h : Table m t L) (helm : elm ∈ L) :
    Table (m.withLinks (m.links.unlink elm)) { t with entries := entries }
      (L.filter (· ≠ elm)) :=
  { h with buckets := h.buckets.unlink (h.key_lt elm) helm }

/-- The buckets have the elements that were inserted and not removed. -/
structure Wf (s : Core) (L : List ℕ) : Prop where
  table : Table s.mem s.t L
  perm : L.Perm (s.live.map Prod.fst)
  vals : ∀ x ∈ s.live, (s.mem.entry x.1).val = x.2
  entries : s.t.entries = s.live.length

/-- A growth of the event that takes its number of buckets from the table of primes finds it
there. -/
def InTable (s : Core) : Event → Prop
  | .insertVal _ _ => s.t.buckets ≤ s.t.entries + 1 → s.t.buckets ≤ 2 ^ 31
  | .reserve sz => (sz.toNat = 0 ∨ sz.toNat < s.t.buckets) → s.t.buckets ≤ 2 ^ 31
  | .remove _ => True
  | .clear => True

instance (s : Core) : (e : Event) → Decidable (InTable s e)
  | .insertVal _ _ =>
    inferInstanceAs (Decidable (s.t.buckets ≤ s.t.entries + 1 → s.t.buckets ≤ 2 ^ 31))
  | .reserve sz => inferInstanceAs
      (Decidable ((sz.toNat = 0 ∨ sz.toNat < s.t.buckets) → s.t.buckets ≤ 2 ^ 31))
  | .remove _ => inferInstanceAs (Decidable True)
  | .clear => inferInstanceAs (Decidable True)

namespace Wf

variable {s : Core} {L : List ℕ}

theorem length (h : Wf s L) : L.length = s.t.entries := by
  rw [h.perm.length_eq, List.length_map, h.entries]

theorem nodup (h : Wf s L) : (s.live.map Prod.fst).Nodup :=
  h.perm.nodup_iff.mp h.table.buckets.nodup

theorem grow {entries nbuckets n : ℕ} (h : Wf s L) (hentries : s.t.entries ≤ entries)
    (hgrown : grownBuckets s.t.buckets nbuckets = .ok n) (hn : 0 < n) (hroom : n < 2 ^ 61) :
    ∃ m t L', ihashGrow s.mem { s.t with entries := entries } nbuckets = .ok (m, t) ∧
      Table m t L' ∧ L'.Perm L ∧ t.entries = entries ∧
      ∀ e, (m.entry e).val = (s.mem.entry e).val := by
  obtain ⟨m, L', hgrow, hperm, hval, htable⟩ :=
    ihashGrow_spec (t := { s.t with entries := entries }) h.table.buckets
      (fun e _ => h.table.key_lt e) h.table.len.ge h.table.made (h.length.trans_le hentries)
      hgrown hn hroom
  exact ⟨m, _, L', hgrow, htable, hperm, rfl, hval⟩

theorem growFull (h : Wf s L) {hval : Hash} (hin : InTable s (.insertVal elm hval)) :
    ∃ m t L', Ihash.growFull s.mem { s.t with entries := s.t.entries + 1 } = .ok (m, t) ∧
      Table m t L' ∧ L'.Perm L ∧ t.entries = s.t.entries + 1 ∧
      (∀ e, (m.entry e).val = (s.mem.entry e).val) ∧
      (s.t.entries + 1 < s.t.buckets → L' = L ∧ t.buckets = s.t.buckets) := by
  rw [Ihash.growFull]
  split_ifs with hfull
  · obtain ⟨n, hgrown, hn, hroom⟩ := grownBuckets_table (.inl rfl) (hin hfull)
    obtain ⟨m, t, L', hgrow, htable, hperm, hentries, hkept⟩ :=
      h.grow (Nat.le_succ _) hgrown hn hroom
    exact ⟨m, t, L', hgrow, htable, hperm, hentries, hkept,
      fun hlt => absurd hlt (Nat.not_lt.mpr hfull)⟩
  · have ht := h.table
    exact ⟨_, _, L, rfl, { ht with }, .refl L, rfl,
      fun _ => rfl, fun _ => ⟨rfl, rfl⟩⟩

theorem insertVal (h : Wf s L) (hval : Hash)
    (hnew : elm ∉ s.live.map Prod.fst) (hin : InTable s (.insertVal elm hval)) :
    ∃ s' L', call s (.insertVal elm hval) = .ok s' ∧ Wf s' L' ∧
      s'.live = (elm, hval) :: s.live ∧
      (∀ e, e ≠ elm → (s'.mem.entry e).val = (s.mem.entry e).val) ∧
      (s.t.entries + 1 < s.t.buckets → L' = elm :: L ∧ s'.t.buckets = s.t.buckets) := by
  obtain ⟨m, t, L', hgrow, htable, hperm, hentries, hkept, hroom⟩ := h.growFull hin
  have helm : elm ∉ L' := fun hmem => hnew (h.perm.subset (hperm.subset hmem))
  have hlt : hval.toNat % t.buckets < (m.setVal elm hval).len t.tab :=
    htable.len.ge.trans_lt' (Nat.mod_lt _ htable.pos)
  have hstore := store_front' (m := m.setVal elm hval) (e := elm) hlt
  refine ⟨⟨(m.setVal elm hval).withLinks (m.links.push (slot t.tab (hval.toNat % t.buckets)) elm), t,
    (elm, hval) :: s.live⟩, elm :: L', ?_, ⟨htable.insert helm hval, ?_, ?_, ?_⟩, rfl, ?_, ?_⟩
  · simp only [call, Ihash.insertVal, hgrow, Mem.load_eq hlt, hstore, Mem.links_setVal, bind,
      Except.bind, pure, Except.pure]
  · exact (hperm.trans h.perm).cons elm
  · intro x hx
    rcases List.mem_cons.mp hx with rfl | hx
    · simp
    · have hne : x.1 ≠ elm := ne_of_mem_of_not_mem (List.mem_map_of_mem hx) hnew
      simp [hne, hkept, h.vals x hx]
  · rw [hentries, h.entries]
    rfl
  · intro e he
    simp [he, hkept]
  · intro hlt
    obtain ⟨rfl, hbuckets⟩ := hroom hlt
    exact ⟨rfl, hbuckets⟩

theorem remove (h : Wf s L) (hold : elm ∈ s.live.map Prod.fst) :
    ∃ s', call s (.remove elm) = .ok s' ∧ Wf s' (L.filter (· ≠ elm)) ∧
      s'.live = s.live.filter (·.1 ≠ elm) ∧ s'.t.buckets = s.t.buckets ∧
      ∀ e, (s'.mem.entry e).val = (s.mem.entry e).val := by
  have helm : elm ∈ L := h.perm.symm.subset hold
  have hkeys : (s.live.filter (·.1 ≠ elm)).map Prod.fst = (s.live.map Prod.fst).filter (· ≠ elm) := by
    rw [List.filter_map]
    rfl
  refine ⟨⟨s.mem.withLinks (s.mem.links.unlink elm), { s.t with entries := s.t.entries - 1 },
    s.live.filter (·.1 ≠ elm)⟩, ?_, ⟨h.table.unlink helm, ?_, ?_, ?_⟩, rfl, rfl, fun _ => rfl⟩
  · simp only [call, h.table.remove_eq helm, bind, Except.bind, pure, Except.pure]
  · rw [hkeys]
    exact h.perm.filter _
  · intro x hx
    exact h.vals x (List.mem_filter.mp hx).1
  · have herase : (s.live.map Prod.fst).filter (· ≠ elm) = (s.live.map Prod.fst).erase elm := by
      rw [h.nodup.erase_eq_filter]
      exact List.filter_congr fun e _ => by rw [bne, beq_eq_decide, decide_not]
    have hlength : (s.live.filter (·.1 ≠ elm)).length =
        ((s.live.filter (·.1 ≠ elm)).map Prod.fst).length := by rw [List.length_map]
    rw [h.entries, hlength, hkeys, herase, List.length_erase_of_mem hold, List.length_map]

theorem reserve (h : Wf s L) (sz : BitVec 64) (hin : InTable s (.reserve sz)) :
    call s (.reserve sz) = .error .noMemory ∨
      ∃ s' L', call s (.reserve sz) = .ok s' ∧ Wf s' L' := by
  by_cases hroom : ∃ n, grownBuckets s.t.buckets sz.toNat = .ok n ∧ 0 < n ∧ n < 2 ^ 61
  · obtain ⟨n, hgrown, hn, hroom⟩ := hroom
    obtain ⟨m, t, L', hgrow, htable, hperm, hentries, hval⟩ :=
      h.grow (Nat.le_refl _) hgrown hn hroom
    refine .inr ⟨⟨m, t, s.live⟩, L', ?_, htable, hperm.trans h.perm, ?_, hentries.trans h.entries⟩
    · simp only [call, hgrow, bind, Except.bind, pure, Except.pure]
    · intro x hx
      rw [hval, h.vals x hx]
  · -- The caller asks for more buckets than there is memory for.
    by_cases hfrom : sz.toNat = 0 ∨ sz.toNat < s.t.buckets
    · exact absurd (grownBuckets_table hfrom (hin hfrom)) hroom
    · have hgrown : grownBuckets s.t.buckets sz.toNat = .ok sz.toNat := if_neg hfrom
      have hlarge : ¬ sz.toNat < 2 ^ 61 := fun hlt => hroom ⟨_, hgrown, by omega, hlt⟩
      refine .inl ?_
      simp only [call, ihashGrow, hgrown, Mem.newArray, if_neg hlarge, bind, Except.bind]

end Wf

theorem init_eq (m : Mem) : ∃ m' t, init m = .ok (m', t) ∧ Table m' t [] ∧ t.entries = 0 := by
  have hgrown : grownBuckets 0 0 = .ok 3 := by decide
  obtain ⟨m', L', hgrow, hperm, -, htable⟩ := ihashGrow_spec (m := m) (t := ⟨0, 0, 0⟩) (L := [])
    ⟨List.nodup_nil, nofun⟩ nofun (Nat.zero_le _) (Nat.zero_le _) (Nat.le_refl _) hgrown
    (by decide) (by decide)
  obtain rfl := hperm.eq_nil
  exact ⟨m', _, hgrow, htable, rfl⟩

theorem call_clear (s : Core) : ∃ s', call s .clear = .ok s' ∧ Wf s' [] := by
  obtain ⟨m, t, hinit, htable, hentries⟩ := init_eq (s.mem.deleteArray s.t.tab)
  refine ⟨⟨m, t, []⟩, ?_, htable, .refl _, nofun, hentries⟩
  simp only [call, Ihash.clear, hinit, bind, Except.bind, pure, Except.pure]

theorem construct_eq (m : Mem) : ∃ s, construct m = .ok s ∧ Wf s [] := by
  obtain ⟨m, t, hinit, htable, hentries⟩ := init_eq m
  refine ⟨⟨m, t, []⟩, ?_, htable, .refl _, nofun, hentries⟩
  simp only [construct, hinit, bind, Except.bind, pure, Except.pure]

theorem Wf.call {s : Core} {L : List ℕ} (h : Wf s L) {e : Event} (hok : Allowed s e)
    (hin : InTable s e) : call s e = .error .noMemory ∨ ∃ s' L', call s e = .ok s' ∧ Wf s' L' := by
  cases e with
  | insertVal elm hval =>
    obtain ⟨s', L', hs', hwf, -⟩ := h.insertVal hval hok hin
    exact .inr ⟨s', L', hs', hwf⟩
  | remove elm =>
    obtain ⟨s', hs', hwf, -⟩ := h.remove hok
    exact .inr ⟨s', _, hs', hwf⟩
  | reserve sz => exact h.reserve sz hin
  | clear =>
    obtain ⟨s', hs', hwf⟩ := call_clear s
    exact .inr ⟨s', [], hs', hwf⟩

theorem Wf.call_outside {s : Core} {L : List ℕ} (h : Wf s L) {e : Event} (hout : ¬ InTable s e) :
    Ihash.call s e = .error .outside := by
  have hbelow := h.table.below
  cases e with
  | insertVal elm hval =>
    simp only [InTable, Classical.not_imp, not_le] at hout
    obtain ⟨hfull, hlarge⟩ := hout
    have hgrown := grownBuckets_outside (.inl rfl : (0 = 0 ∨ 0 < s.t.buckets)) hlarge (by omega)
    simp only [Ihash.call, Ihash.insertVal, Ihash.growFull, ge_iff_le, if_pos hfull, ihashGrow,
      hgrown, bind, Except.bind]
  | reserve sz =>
    simp only [InTable, Classical.not_imp, not_le] at hout
    obtain ⟨hfrom, hlarge⟩ := hout
    have hgrown := grownBuckets_outside hfrom hlarge (by omega)
    simp only [Ihash.call, ihashGrow, hgrown, bind, Except.bind]
  | remove elm => exact absurd trivial hout
  | clear => exact absurd trivial hout

end Sfslite.Async.Ihash
