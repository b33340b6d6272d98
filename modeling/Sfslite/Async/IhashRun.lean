import Sfslite.Async.IhashOps

/-!
What a caller sees of the table: the lookups by hash value, and the walk by `first` and `next` while
elements are inserted and removed.
-/

namespace Sfslite.Async.Ihash

open Sfslite.Lib Sfslite.Lib.Hlist

theorem visit_append {succ : ℕ → Except Stop (Option ℕ)} {l r : List ℕ} {fuel : ℕ}
    (hsucc : ∀ l₁ a l₂, l = l₁ ++ a :: l₂ → succ a = .ok (l₂ ++ r).head?)
    (hr : Core.visit succ fuel r.head? = .ok r) :
    Core.visit succ (l.length + fuel) (l ++ r).head? = .ok (l ++ r) := by
  induction l with
  | nil =>
    rw [List.length_nil, Nat.zero_add]
    exact hr
  | cons a l ih =>
    have hrest := ih fun l₁ b l₂ hl => hsucc (a :: l₁) b l₂ (congrArg (a :: ·) hl)
    rw [List.length_cons, Nat.add_right_comm]
    simp only [List.cons_append, List.head?_cons, Core.visit, hsucc [] a l rfl, hrest, bind,
      Except.bind, pure, Except.pure]

theorem visit_none (succ : ℕ → Except Stop (Option ℕ)) (fuel : ℕ) :
    Core.visit succ fuel none = .ok [] := by cases fuel <;> rfl

theorem Core.findVal_eq {s : Core} {hval : Hash} {fuel : ℕ} {o : Option ℕ} {l : List ℕ}
    (hpath : s.mem.links.Path o l) (hfuel : l.length ≤ fuel) :
    s.findVal hval fuel o = .ok (l.filter fun e => (s.mem.entry e).val = hval).head? := by
  induction l generalizing fuel o with
  | nil =>
    have ho : o = none := hpath
    rw [ho]
    cases fuel <;> rfl
  | cons e l ih =>
    obtain ⟨rfl, hpath⟩ := hpath
    obtain ⟨fuel, rfl⟩ : ∃ k, fuel = k + 1 :=
      ⟨fuel - 1, by simp only [List.length_cons] at hfuel; omega⟩
    rw [Core.findVal]
    by_cases hval' : (s.mem.entry e).val = hval
    · rw [if_neg (not_not.mpr hval'), List.filter_cons_of_pos (by simpa using hval')]
      rfl
    · rw [if_pos hval', List.filter_cons_of_neg (by simpa using hval')]
      exact ih hpath (by simpa using hfuel)

def chain (s : Core) (L : List ℕ) (i : ℕ) : List ℕ :=
  L.filter fun e => s.mem.key s.t.buckets e = i

namespace Wf

variable {s : Core} {L : List ℕ}

theorem isList (h : Wf s L) {i : ℕ} (hi : i < s.t.buckets) :
    s.mem.links.IsList (.head (slot s.t.tab i)) (chain s L i) := h.table.buckets.isList i hi

theorem load_eq (h : Wf s L) {i : ℕ} (hi : i < s.t.buckets) :
    s.mem.load s.t.tab i = .ok (chain s L i).head? := by
  rw [Mem.load_eq (h.table.len.symm ▸ hi)]
  exact congrArg _ (h.isList hi).get_eq

theorem length_chain_le (h : Wf s L) (i : ℕ) : (chain s L i).length ≤ s.t.entries :=
  (List.length_filter_le _ _).trans h.length.le

theorem findBucket_eq (h : Wf s L) {n i : ℕ} (hle : i + n ≤ s.t.buckets) :
    s.findBucket n i = .ok ((List.range' i n).flatMap (chain s L)).head? := by
  induction n generalizing i with
  | zero => rfl
  | succ n ih =>
    rw [Core.findBucket, h.load_eq (by omega), List.range'_succ, List.flatMap_cons]
    cases hc : chain s L i with
    | nil => exact ih (by omega)
    | cons e l => rfl

theorem lookupVal_eq (h : Wf s L) (hval : Hash) :
    s.lookupVal hval = .ok ((chain s L (hval.toNat % s.t.buckets)).filter
      fun e => (s.mem.entry e).val = hval).head? := by
  have hlt : hval.toNat % s.t.buckets < s.t.buckets := Nat.mod_lt _ h.table.pos
  have hpath := (h.isList hlt).path
  rw [(h.isList hlt).get_eq] at hpath
  simp only [Core.lookupVal, h.load_eq hlt, bind, Except.bind]
  exact Core.findVal_eq hpath (h.length_chain_le _)

theorem nextVal_eq (h : Wf s L) {i : ℕ} (hi : i < s.t.buckets) {a : ℕ} {l₁ l₂ : List ℕ}
    (hsplit : chain s L i = l₁ ++ a :: l₂) :
    s.nextVal a =
      .ok (l₂.filter fun e => (s.mem.entry e).val = (s.mem.entry a).val).head? := by
  have hlist := h.isList hi
  have hlen := h.length_chain_le i
  rw [hsplit] at hlist hlen
  simp only [List.length_append, List.length_cons] at hlen
  exact Core.findVal_eq hlist.behind.path (by omega)

theorem visitVal_eq (h : Wf s L) (hval : Hash) :
    s.visitVal hval = .ok ((chain s L (hval.toNat % s.t.buckets)).filter
      fun e => (s.mem.entry e).val = hval) := by
  have hlt : hval.toNat % s.t.buckets < s.t.buckets := Nat.mod_lt _ h.table.pos
  set found := (chain s L (hval.toNat % s.t.buckets)).filter
    fun e => (s.mem.entry e).val = hval with hfound
  obtain ⟨spare, hspare⟩ := Nat.exists_eq_add_of_le
    ((List.length_filter_le _ _).trans (h.length_chain_le _) : found.length ≤ s.t.entries)
  have hnext : ∀ l₁ a l₂, found = l₁ ++ a :: l₂ → s.nextVal a = .ok (l₂ ++ []).head? := by
    intro l₁ a l₂ hl
    obtain ⟨x, y, hchain, -, hy⟩ := List.filter_eq_append_iff.mp (hfound.symm.trans hl)
    obtain ⟨z, c, rfl, -, ha, hc⟩ := List.filter_eq_cons_iff.mp hy
    rw [← List.append_assoc] at hchain
    have hval' : (s.mem.entry a).val = hval := by simpa using ha
    rw [h.nextVal_eq hlt hchain, hval', hc, List.append_nil]
  have hvisit := visit_append hnext (visit_none s.nextVal spare)
  rw [List.append_nil, ← hspare] at hvisit
  simp only [Core.visitVal, h.lookupVal_eq, bind, Except.bind]
  exact hvisit

theorem mem_live (h : Wf s L) {e : ℕ} {hval : Hash} :
    (e, hval) ∈ s.live ↔ e ∈ L ∧ (s.mem.entry e).val = hval := by
  rw [h.perm.mem_iff]
  constructor
  · intro hmem
    exact ⟨List.mem_map_of_mem hmem, h.vals _ hmem⟩
  · rintro ⟨hmem, rfl⟩
    obtain ⟨x, hx, rfl⟩ := List.mem_map.mp hmem
    rw [h.vals x hx]
    exact hx

theorem mem_chain (h : Wf s L) {e i : ℕ} :
    e ∈ chain s L i ↔ ∃ hval, (e, hval) ∈ s.live ∧ hval.toNat % s.t.buckets = i := by
  simp only [chain, List.mem_filter, decide_eq_true_eq, h.mem_live]
  constructor
  · rintro ⟨he, hkey⟩
    exact ⟨_, ⟨he, rfl⟩, hkey⟩
  · rintro ⟨hval, ⟨he, rfl⟩, hkey⟩
    exact ⟨he, hkey⟩

theorem next_eq (h : Wf s L) {i : ℕ} (hi : i < s.t.buckets) {a : ℕ} {l₁ l₂ : List ℕ}
    (hsplit : chain s L i = l₁ ++ a :: l₂) :
    s.next a = .ok (l₂ ++
      (List.range' (i + 1) (s.t.buckets - (i + 1))).flatMap (chain s L)).head? := by
  have hlist := h.isList hi
  have hkey : s.mem.key s.t.buckets a = i := by
    have hmem : a ∈ chain s L i := hsplit ▸ by simp
    simpa using (List.mem_filter.mp hmem).2
  rw [hsplit] at hlist
  have hnext : (s.mem.entry a).next = l₂.head? := hlist.next_eq
  rw [Core.next, hnext]
  cases l₂ with
  | nil =>
    rw [Mem.key] at hkey
    simp only [List.head?_nil, List.nil_append, hkey]
    exact h.findBucket_eq (by omega)
  | cons b l => rfl

theorem visit_buckets (h : Wf s L) {n i : ℕ} (hn : i + n = s.t.buckets) :
    Core.visit s.next ((List.range' i n).flatMap (chain s L)).length
        ((List.range' i n).flatMap (chain s L)).head? =
      .ok ((List.range' i n).flatMap (chain s L)) := by
  induction n generalizing i with
  | zero => rfl
  | succ n ih =>
    rw [List.range'_succ, List.flatMap_cons, List.length_append]
    refine visit_append ?_ (ih (by omega))
    intro l₁ a l₂ hl
    rw [h.next_eq (by omega) hl, show s.t.buckets - (i + 1) = n by omega]

theorem visitAll_eq (h : Wf s L) : ∃ l, s.visitAll = .ok l ∧ l.Perm (s.live.map Prod.fst) := by
  have hperm : ((List.range' 0 s.t.buckets).flatMap (chain s L)).Perm L := by
    rw [← List.range_eq_range']
    exact h.table.buckets.perm fun e _ => h.table.key_lt e
  have hlen := hperm.length_eq.trans h.length
  refine ⟨_, ?_, hperm.trans h.perm⟩
  have hvisit := h.visit_buckets (Nat.zero_add _)
  rw [hlen] at hvisit
  have hfirst : s.first =
      .ok ((List.range' 0 s.t.buckets).flatMap (chain s L)).head? := by
    rw [Core.first]
    split_ifs with hsome
    · exact h.findBucket_eq (Nat.le_of_eq (Nat.zero_add _))
    · rw [List.eq_nil_of_length_eq_zero (hlen.trans (not_not.mp hsome))]
      rfl
  simp only [Core.visitAll, hfirst, bind, Except.bind]
  exact hvisit

end Wf

/-- The table has the elements that were inserted and not removed, each in the bucket of its
hash, and the lookups and the walk find them. -/
structure Good (s : Core) : Prop where
  array : s.mem.len s.t.tab = s.t.buckets
  chains : ∃ c : ℕ → List ℕ, ∀ i < s.t.buckets,
    s.mem.links.IsList (.head (s.t.tab, i)) (c i) ∧ (c i).Nodup ∧
      ∀ e, e ∈ c i ↔ ∃ hval, (e, hval) ∈ s.live ∧ hval.toNat % s.t.buckets = i
  vals : ∀ e hval, (e, hval) ∈ s.live → (s.mem.entry e).val = hval
  nodup : (s.live.map Prod.fst).Nodup
  entries : s.t.entries = s.live.length
  lookup : ∀ hval, ∃ l, s.visitVal hval = .ok l ∧ l.Nodup ∧ ∀ e, e ∈ l ↔ (e, hval) ∈ s.live
  walk : ∃ l, s.visitAll = .ok l ∧ l.Perm (s.live.map Prod.fst)

theorem Wf.good {s : Core} {L : List ℕ} (h : Wf s L) : Good s where
  array := h.table.len
  chains := ⟨chain s L, fun _ hi =>
    ⟨h.isList hi, h.table.buckets.nodup.filter _, fun _ => h.mem_chain⟩⟩
  vals _ _ hmem := h.vals _ hmem
  nodup := h.nodup
  entries := h.entries
  lookup hval := by
    refine ⟨_, h.visitVal_eq hval, (h.table.buckets.nodup.filter _).filter _, ?_⟩
    intro e
    rw [List.mem_filter, h.mem_live]
    constructor
    · rintro ⟨hmem, hval'⟩
      exact ⟨(List.mem_filter.mp hmem).1, of_decide_eq_true hval'⟩
    · rintro ⟨hmem, rfl⟩
      exact ⟨List.mem_filter.mpr ⟨hmem, decide_eq_true rfl⟩, decide_eq_true rfl⟩
  walk := h.visitAll_eq

/-- The call returns, unless there is no memory for what it asks for. -/
def Returns (s : Core) (e : Event) : Prop :=
  call s e = .error .noMemory ∨ ∃ s', call s e = .ok s'

theorem Wf.returns_iff {s : Core} {L : List ℕ} (h : Wf s L) {e : Event} (hok : Allowed s e) :
    Returns s e ↔ InTable s e := by
  constructor
  · intro hreturns
    by_contra hout
    have hcall := h.call_outside hout
    rcases hreturns with hstop | ⟨s', hs'⟩
    · cases hcall.symm.trans hstop
    · cases hcall.symm.trans hs'
  · intro hin
    rcases h.call hok hin with hstop | ⟨s', L', hs', -⟩
    · exact .inl hstop
    · exact .inr ⟨s', hs'⟩

theorem Wf.run {s₀ s : Core} {L₀ : List ℕ} {es : List Event} (h : Wf s₀ L₀)
    (hrun : Run step (fun s e => Allowed s e ∧ InTable s e) s₀ es s) : ∃ L, Wf s L := by
  refine hrun.invariant (I := fun s => ∃ L, Wf s L) ⟨L₀, h⟩ ?_
  rintro a e b ⟨L, ha⟩ ⟨hok, hin⟩ hstep
  rcases ha.call hok hin with hstop | ⟨b', L', hb', hwf⟩
  · rw [step, hstop] at hstep
    cases hstep
  · rw [step, hb'] at hstep
    cases hstep
    exact ⟨L', hwf⟩

/-- After every sequence of calls whose growths find their number of buckets in the table of
primes the hash table is good, and the next call returns if its growth finds one, too. -/
theorem ihash_run {m : Mem} {s₀ s : Core} {es : List Event} (h₀ : construct m = .ok s₀)
    (hrun : Run step (fun s e => Allowed s e ∧ InTable s e) s₀ es s) :
    Good s ∧ ∀ e, Allowed s e → (Returns s e ↔ InTable s e) := by
  obtain ⟨s₁, h₁, hwf₁⟩ := construct_eq m
  cases h₀.symm.trans h₁
  obtain ⟨L, hwf⟩ := hwf₁.run hrun
  exact ⟨hwf.good, fun e hok => hwf.returns_iff hok⟩

def blank : Mem := ⟨fun _ => ⟨none, .next 0, 0⟩, fun _ => none, fun _ => 0, 0⟩

/-- The calls that the checks of the code allow, in order, from a new table on. -/
def trace (C : Core → Event → Prop) [∀ s e, Decidable (C s e)] (es : List Event) : Option Core :=
  (construct blank).toOption.bind fun s₀ =>
    es.foldlM (fun s e => if C s e then step s e else none) s₀

theorem run_of_trace {C : Core → Event → Prop} [∀ s e, Decidable (C s e)] {es : List Event}
    {s : Core} (h : trace C es = some s) : ∃ s₀, construct blank = .ok s₀ ∧ Run step C s₀ es s := by
  obtain ⟨s₀, h₀, -⟩ := construct_eq blank
  rw [trace, h₀] at h
  exact ⟨s₀, h₀, Run.of_checked h⟩

/-- The third element makes the table grow, from three buckets to seven. -/
theorem ihash_run_grows :
    ∃ s, s.t = ⟨7, 3, 2⟩ ∧ s.visitAll.toOption = some [12, 13, 10] ∧
      (s.visitVal 5#32).toOption = some [13, 10] ∧
      Good s ∧ ∀ e, Allowed s e → (Returns s e ↔ InTable s e) := by
  have hex : (trace (fun s e => Allowed s e ∧ InTable s e)
      [.insertVal 10 5, .insertVal 11 8, .insertVal 12 1, .remove 11, .insertVal 13 5]).map
        (fun s => (s.t, s.visitAll.toOption, (s.visitVal 5#32).toOption)) =
      some (⟨7, 3, 2⟩, some [12, 13, 10], some [13, 10]) := by
    decide
  obtain ⟨s, hs, hout⟩ := Option.map_eq_some_iff.mp hex
  obtain ⟨s₀, h₀, hrun⟩ := run_of_trace hs
  obtain ⟨ht, hall, hval⟩ : s.t = ⟨7, 3, 2⟩ ∧ s.visitAll.toOption = some [12, 13, 10] ∧
      (s.visitVal 5#32).toOption = some [13, 10] := by simpa using hout
  exact ⟨s, ht, hall, hval, ihash_run h₀ hrun⟩

/-- `reserve` makes a table of more than `2 ^ 31` buckets, and the next growth that does not
name its number of buckets looks behind the table of primes. -/
theorem ihash_reserve_outside : ¬ ∀ m s₀ es s, construct m = .ok s₀ →
    Run step Allowed s₀ es s → Good s ∧ ∀ e, Allowed s e → Returns s e := by
  intro h
  have hex : (trace Allowed [.reserve (2 ^ 31 + 1)]).map (fun s => s.t.buckets) =
      some (2 ^ 31 + 1) := by
    decide
  obtain ⟨s, hs, hbuckets⟩ := Option.map_eq_some_iff.mp hex
  obtain ⟨s₀, h₀, hrun⟩ := run_of_trace hs
  have hgrown : grownBuckets s.t.buckets 0 = .error .outside := by
    rw [hbuckets]
    exact grownBuckets_outside (.inl rfl) (by decide) (by decide)
  have hcall : call s (.reserve 0) = .error .outside := by
    change (ihashGrow s.mem s.t 0 >>= _) = _
    simp only [ihashGrow, hgrown, bind, Except.bind]
  rcases (h blank s₀ _ s h₀ hrun).2 (.reserve 0) trivial with hstop | ⟨s', hs'⟩
  · cases hcall.symm.trans hstop
  · cases hcall.symm.trans hs'

def bucketOf (s : Core) (e : ℕ) : ℕ := s.mem.key s.t.buckets e

def tailOf (s : Core) (L : List ℕ) (e : ℕ) : List ℕ :=
  ((chain s L (bucketOf s e)).dropWhile (· ≠ e)).tail

/-- The elements that `next` comes to behind one. -/
def behind (s : Core) (L : List ℕ) (e : ℕ) : List ℕ :=
  tailOf s L e ++
    (List.range' (bucketOf s e + 1) (s.t.buckets - (bucketOf s e + 1))).flatMap (chain s L)

namespace Wf

variable {s : Core} {L : List ℕ} {e x : ℕ}

theorem bucketOf_lt (h : Wf s L) (e : ℕ) : bucketOf s e < s.t.buckets := h.table.key_lt e

theorem mem_chain_iff {i : ℕ} : e ∈ chain s L i ↔ e ∈ L ∧ bucketOf s e = i := by
  simp only [chain, List.mem_filter, decide_eq_true_eq, bucketOf]

theorem tailOf_eq (h : Wf s L) {l₁ l₂ : List ℕ}
    (hsplit : chain s L (bucketOf s e) = l₁ ++ e :: l₂) : tailOf s L e = l₂ := by
  have hnodup : (chain s L (bucketOf s e)).Nodup := h.table.buckets.nodup.filter _
  rw [hsplit] at hnodup
  have hnot : e ∉ l₁ := fun hl => (List.nodup_append.mp hnodup).2.2 e hl e (by simp) rfl
  have hdrop : (l₁ ++ e :: l₂).dropWhile (· ≠ e) = e :: l₂ := by
    rw [List.dropWhile_append_of_pos (by
      intro y hy
      have hne : y ≠ e := ne_of_mem_of_not_mem hy hnot
      simpa using hne)]
    simp
  rw [tailOf, hsplit, hdrop, List.tail_cons]

theorem chain_split (h : Wf s L) (he : e ∈ L) :
    ∃ l, chain s L (bucketOf s e) = l ++ e :: tailOf s L e := by
  have hmem : e ∈ chain s L (bucketOf s e) := mem_chain_iff.mpr ⟨he, rfl⟩
  obtain ⟨l₁, l₂, hsplit⟩ := List.append_of_mem hmem
  exact ⟨l₁, by rw [h.tailOf_eq hsplit, hsplit]⟩

theorem next_behind (h : Wf s L) (he : e ∈ L) : s.next e = .ok (behind s L e).head? := by
  obtain ⟨l, hsplit⟩ := h.chain_split he
  exact h.next_eq (h.bucketOf_lt e) hsplit

theorem mem_behind_iff (h : Wf s L) :
    x ∈ behind s L e ↔ x ∈ tailOf s L e ∨ x ∈ L ∧ bucketOf s e < bucketOf s x := by
  have hx := h.bucketOf_lt x
  simp only [behind, List.mem_append, List.mem_flatMap, List.mem_range'_1, mem_chain_iff]
  constructor
  · rintro (hx | ⟨i, hi, hmem, rfl⟩)
    · exact Or.inl hx
    · exact Or.inr ⟨hmem, by omega⟩
  · rintro (hx | ⟨hmem, hlt⟩)
    · exact Or.inl hx
    · exact Or.inr ⟨bucketOf s x, by omega, hmem, rfl⟩

theorem mem_of_tailOf (hx : x ∈ tailOf s L e) : x ∈ L ∧ bucketOf s x = bucketOf s e := by
  have hsub : x ∈ chain s L (bucketOf s e) :=
    (List.dropWhile_sublist _).subset (List.mem_of_mem_tail hx)
  exact mem_chain_iff.mp hsub

theorem flatMap_chain_cons {n i : ℕ} (hn : i + n = s.t.buckets)
    (hhead : ((List.range' i n).flatMap (chain s L)).head? = some e) :
    (List.range' i n).flatMap (chain s L) = e :: behind s L e ∧ e ∈ L ∧ i ≤ bucketOf s e := by
  induction n generalizing i with
  | zero => simp at hhead
  | succ n ih =>
    rw [List.range'_succ, List.flatMap_cons] at hhead ⊢
    cases hc : chain s L i with
    | nil =>
      rw [hc, List.nil_append] at hhead
      obtain ⟨heq, hmem, hle⟩ := ih (by omega) hhead
      exact ⟨by rw [List.nil_append, heq], hmem, by omega⟩
    | cons a l =>
      rw [hc, List.cons_append, List.head?_cons, Option.some.injEq] at hhead
      subst hhead
      obtain ⟨hmem, hbucket⟩ := mem_chain_iff.mp (hc ▸ List.mem_cons_self : a ∈ chain s L i)
      have htail : tailOf s L a = l := by
        rw [tailOf, hbucket, hc, List.dropWhile_cons_of_neg (by simp), List.tail_cons]
      refine ⟨?_, hmem, hbucket.ge⟩
      rw [behind, htail, hbucket, List.cons_append,
        show s.t.buckets - (i + 1) = n by omega]

theorem first_eq (h : Wf s L) :
    s.first = .ok ((List.range' 0 s.t.buckets).flatMap (chain s L)).head? := by
  have hperm : ((List.range' 0 s.t.buckets).flatMap (chain s L)).Perm L := by
    rw [← List.range_eq_range']
    exact h.table.buckets.perm fun e _ => h.table.key_lt e
  rw [Core.first]
  split_ifs with hsome
  · exact h.findBucket_eq (Nat.le_of_eq (Nat.zero_add _))
  · have hnil := List.eq_nil_of_length_eq_zero
      ((hperm.length_eq.trans h.length).trans (not_not.mp hsome))
    rw [hnil]
    rfl

theorem behind_cons (h : Wf s L) (he : e ∈ L) (hhead : (behind s L e).head? = some x) :
    behind s L e = x :: behind s L x ∧ x ∈ L ∧
      (bucketOf s e < bucketOf s x ∨
        bucketOf s e = bucketOf s x ∧ (tailOf s L x).length < (tailOf s L e).length) := by
  cases htail : tailOf s L e with
  | nil =>
    have hlt := h.bucketOf_lt e
    rw [behind, htail, List.nil_append] at hhead ⊢
    obtain ⟨heq, hmem, hle⟩ := flatMap_chain_cons (by omega) hhead
    exact ⟨heq, hmem, Or.inl hle⟩
  | cons y l =>
    rw [behind, htail, List.cons_append, List.head?_cons, Option.some.injEq] at hhead
    subst hhead
    obtain ⟨hmem, hbucket⟩ := mem_of_tailOf (htail ▸ List.mem_cons_self : y ∈ tailOf s L e)
    have hy : tailOf s L y = l := by
      obtain ⟨l₁, hsplit⟩ := h.chain_split he
      rw [htail, List.append_cons, ← hbucket] at hsplit
      exact h.tailOf_eq hsplit
    refine ⟨?_, hmem, Or.inr ⟨hbucket.symm, ?_⟩⟩
    · rw [behind, behind, htail, hy, hbucket, List.cons_append]
    · rw [hy, List.length_cons]
      exact Nat.lt_succ_self _

theorem insert_room (h : Wf s L) (hval : Hash) (hnew : x ∉ s.live.map Prod.fst)
    (hroom : s.t.entries + 1 < s.t.buckets) :
    ∃ s', Ihash.call s (.insertVal x hval) = .ok s' ∧ Wf s' (x :: L) ∧
      s'.t.buckets = s.t.buckets ∧ s'.live = (x, hval) :: s.live ∧
      ∀ e, e ≠ x → bucketOf s' e = bucketOf s e := by
  have hin : InTable s (.insertVal x hval) := fun hle => absurd hroom (Nat.not_lt.mpr hle)
  obtain ⟨s', L', hs', hwf, hlive, hvals, hkeep⟩ := h.insertVal hval hnew hin
  obtain ⟨rfl, hbuckets⟩ := hkeep hroom
  refine ⟨s', hs', hwf, hbuckets, hlive, fun e he => ?_⟩
  rw [bucketOf, bucketOf, Mem.key, Mem.key, hvals e he, hbuckets]

theorem tailOf_insert {s' : Core} (hne : e ≠ x)
    (hbuckets : ∀ e, e ≠ x → bucketOf s' e = bucketOf s e)
    (hx : x ∉ L) : tailOf s' (x :: L) e = tailOf s L e := by
  have hrest : chain s' L (bucketOf s e) = chain s L (bucketOf s e) := by
    refine List.filter_congr fun y hy => ?_
    have hy' := hbuckets y (ne_of_mem_of_not_mem hy hx)
    rw [bucketOf, bucketOf] at hy'
    rw [hy']
  rw [tailOf, tailOf, hbuckets e hne, ← hrest, chain, List.filter_cons]
  split_ifs
  · rw [List.dropWhile_cons_of_pos (by simpa using hne.symm)]
    rfl
  · rfl

theorem remove_walk (h : Wf s L) (hx : x ∈ L) :
    ∃ s', Ihash.call s (.remove x) = .ok s' ∧ Wf s' (L.filter (· ≠ x)) ∧
      s'.t.buckets = s.t.buckets ∧ s'.live = s.live.filter (·.1 ≠ x) ∧
      ∀ e, bucketOf s' e = bucketOf s e := by
  obtain ⟨s', hs', hwf, hlive, hbuckets, hvals⟩ := h.remove (h.perm.subset hx)
  refine ⟨s', hs', hwf, hbuckets, hlive, fun e => ?_⟩
  rw [bucketOf, bucketOf, Mem.key, Mem.key, hvals e, hbuckets]

theorem dropWhile_filter_ne (hne : e ≠ x) (l : List ℕ) :
    ((l.filter (· ≠ x)).dropWhile (· ≠ e)).tail =
      ((l.dropWhile (· ≠ e)).tail).filter (· ≠ x) := by
  induction l with
  | nil => rfl
  | cons y l ih =>
    by_cases hy : y = e
    · subst hy
      rw [List.filter_cons_of_pos (by simpa using hne), List.dropWhile_cons_of_neg (by simp),
        List.dropWhile_cons_of_neg (by simp), List.tail_cons, List.tail_cons]
    · rw [List.dropWhile_cons_of_pos (by simpa using hy), ← ih, List.filter_cons]
      split_ifs
      · rw [List.dropWhile_cons_of_pos (by simpa using hy)]
      · rfl

theorem tailOf_remove {s' : Core} (hne : e ≠ x) (hbuckets : ∀ e, bucketOf s' e = bucketOf s e) :
    tailOf s' (L.filter (· ≠ x)) e = (tailOf s L e).filter (· ≠ x) := by
  have hchain : chain s' (L.filter (· ≠ x)) (bucketOf s e) =
      (chain s L (bucketOf s e)).filter (· ≠ x) := by
    rw [chain, chain, List.filter_comm]
    congr 1
    refine List.filter_congr fun y _ => ?_
    have hy := hbuckets y
    rw [bucketOf, bucketOf] at hy
    rw [hy]
  rw [tailOf, tailOf, hbuckets e, hchain, dropWhile_filter_ne hne]

end Wf

/-- What is behind the element `n` stays there, unless it leaves the table, and only elements from
the number `k` on come there; its bucket gets no longer behind it. -/
structure Kept (k : ℕ) (s : Core) (L : List ℕ) (s' : Core) (L' : List ℕ) (n : ℕ) : Prop where
  mem : n ∈ L'
  buckets : s'.t.buckets = s.t.buckets
  bucket : bucketOf s' n = bucketOf s n
  shorter : (tailOf s' L' n).length ≤ (tailOf s L n).length
  stay : ∀ q ∈ behind s L n, q ∈ L' → q ∈ behind s' L' n
  come : ∀ q ∈ behind s' L' n, q ∈ behind s L n ∨ k ≤ q

namespace Kept

variable {s s' s'' : Core} {L L' L'' : List ℕ} {k k' n x : ℕ} {hval : Hash}

theorem refl (h : n ∈ L) : Kept k s L s L n :=
  ⟨h, rfl, rfl, le_rfl, fun _ hq _ => hq, fun _ hq => Or.inl hq⟩

theorem mono (h : Kept k' s L s' L' n) (hk : k ≤ k') : Kept k s L s' L' n :=
  { h with come := fun q hq => (h.come q hq).imp id hk.trans }

theorem trans (h : Kept k s L s' L' n) (h' : Kept k s' L' s'' L'' n)
    (hback : ∀ q ∈ L, q ∈ L'' → q ∈ L') (hbehind : ∀ q ∈ behind s L n, q ∈ L) :
    Kept k s L s'' L'' n where
  mem := h'.mem
  buckets := h'.buckets.trans h.buckets
  bucket := h'.bucket.trans h.bucket
  shorter := h'.shorter.trans h.shorter
  stay q hq hmem := h'.stay q (h.stay q hq (hback q (hbehind q hq) hmem)) hmem
  come q hq := by
    rcases h'.come q hq with hq | hq
    · exact h.come q hq
    · exact Or.inr hq

end Kept

namespace Wf

variable {s s' : Core} {L : List ℕ} {n x : ℕ} {hval : Hash}

theorem mem_of_behind (h : Wf s L) (hx : x ∈ behind s L n) : x ∈ L := by
  rcases h.mem_behind_iff.mp hx with hx | ⟨hx, -⟩
  · exact (mem_of_tailOf hx).1
  · exact hx

theorem not_mem_behind (h : Wf s L) (hn : n ∈ L) : n ∉ behind s L n := by
  intro hmem
  rcases h.mem_behind_iff.mp hmem with htail | ⟨-, hlt⟩
  · obtain ⟨l, hsplit⟩ := h.chain_split hn
    have hnodup : (chain s L (bucketOf s n)).Nodup := h.table.buckets.nodup.filter _
    rw [hsplit] at hnodup
    obtain ⟨-, hnodup, -⟩ := List.nodup_append.mp hnodup
    exact (List.nodup_cons.mp hnodup).1 htail
  · exact Nat.lt_irrefl _ hlt

theorem insert_kept (h : Wf s L) (h' : Wf s' (x :: L)) (hn : n ∈ L) (hx : x ∉ L)
    (hbuckets : s'.t.buckets = s.t.buckets) (hbucket : ∀ e, e ≠ x → bucketOf s' e = bucketOf s e) :
    Kept x s L s' (x :: L) n := by
  have hne : n ≠ x := ne_of_mem_of_not_mem hn hx
  have htail : tailOf s' (x :: L) n = tailOf s L n := tailOf_insert hne hbucket hx
  refine ⟨List.mem_cons_of_mem _ hn, hbuckets, hbucket n hne, by rw [htail], ?_, ?_⟩
  · intro q hq _
    rw [h'.mem_behind_iff, htail, hbucket n hne]
    rcases h.mem_behind_iff.mp hq with hq | ⟨hq, hlt⟩
    · exact Or.inl hq
    · rw [← hbucket q (ne_of_mem_of_not_mem hq hx)] at hlt
      exact Or.inr ⟨List.mem_cons_of_mem _ hq, hlt⟩
  · intro q hq
    rw [h'.mem_behind_iff, htail, hbucket n hne] at hq
    rw [h.mem_behind_iff]
    rcases hq with hq | ⟨hq, hlt⟩
    · exact Or.inl (Or.inl hq)
    · rcases List.mem_cons.mp hq with rfl | hq
      · exact Or.inr le_rfl
      · rw [hbucket q (ne_of_mem_of_not_mem hq hx)] at hlt
        exact Or.inl (Or.inr ⟨hq, hlt⟩)

theorem remove_kept (h : Wf s L) (h' : Wf s' (L.filter (· ≠ x))) (hn : n ∈ L) (hne : n ≠ x)
    (hbuckets : s'.t.buckets = s.t.buckets) (hbucket : ∀ e, bucketOf s' e = bucketOf s e) (k : ℕ) :
    Kept k s L s' (L.filter (· ≠ x)) n := by
  have htail : tailOf s' (L.filter (· ≠ x)) n = (tailOf s L n).filter (· ≠ x) :=
    tailOf_remove hne hbucket
  refine ⟨List.mem_filter.mpr ⟨hn, by simpa using hne⟩, hbuckets, hbucket n, ?_, ?_, ?_⟩
  · rw [htail]
    exact List.length_filter_le _ _
  · intro q hq hmem
    rw [h'.mem_behind_iff, htail, hbucket n, hbucket q]
    rcases h.mem_behind_iff.mp hq with hq | ⟨-, hlt⟩
    · exact Or.inl (List.mem_filter.mpr ⟨hq, (List.mem_filter.mp hmem).2⟩)
    · exact Or.inr ⟨hmem, hlt⟩
  · intro q hq
    rw [h'.mem_behind_iff, htail, hbucket n, hbucket q] at hq
    refine Or.inl (h.mem_behind_iff.mpr ?_)
    rcases hq with hq | ⟨hq, hlt⟩
    · exact Or.inl (List.mem_filter.mp hq).1
    · exact Or.inr ⟨(List.mem_filter.mp hq).1, hlt⟩

end Wf

end Sfslite.Async.Ihash
