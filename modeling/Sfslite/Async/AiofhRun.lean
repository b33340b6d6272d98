import Sfslite.Lib.Run
import Sfslite.Async.Aiofh

/-!
The handle numbers of `aiod` over whole runs: as long as no object is destroyed before its close
was processed everywhere, a number that is given again is free of its previous use.
-/

namespace Sfslite.Async.Aiofh

open Sfslite.Lib (Run)

variable {π ι : Type} {N : ℕ} {s s' : Aiod π ι}

/-- The numbers: those of the objects that exist are not free, and of two objects with one number
the older one is gone. -/
structure Numbers (s : Aiod π ι) : Prop where
  alive_lt : ∀ x ∈ s.alive, x < s.born
  alive_nodup : s.alive.Nodup
  no_lt : ∀ x < s.born, (s.fh x).fhno < s.fhnoCtr
  avail_lt : ∀ n ∈ s.fhnoAvail, n < s.fhnoCtr
  avail_nodup : s.fhnoAvail.Nodup
  avail_free : ∀ x ∈ s.alive, (s.fh x).fhno ∉ s.fhnoAvail
  older : ∀ x y, x < y → y < s.born → (s.fh x).fhno = (s.fh y).fhno → x ∉ s.alive

/-- The shared memory: an object that exists has its record, and those in the pipe exist. -/
structure Memory (s : Aiod π ι) : Prop where
  record : ∀ x ∈ s.alive, ∃ af, s.shm (s.fh x).pos = some af ∧ af.handle = (s.fh x).fhno ∧ af.id = x
  apart : ∀ x ∈ s.alive, ∀ y ∈ s.alive, (s.fh x).pos = (s.fh y).pos → x = y
  pipe : ∀ m ∈ s.pipe, m.op ≠ .closes ∧ m.pos = (s.fh m.id).pos ∧ m.id ∈ s.alive

/-- The closes: each daemon gets at most one of an object, and has processed that of an object that
is gone. -/
structure Closes (N : ℕ) (s : Aiod π ι) : Prop where
  dead : ∀ x < s.born, x ∉ s.alive → ∀ d < N, (s.dv d).closed x
  done : ∀ d < N, ∀ x, (s.dv d).closed x → x < s.born ∧ (s.fh x).closed ∧ x ∉ s.waiting
  sock : ∀ d < N, ∀ m ∈ (s.dv d).sock, m.op = .closes ∧ m.pos = (s.fh m.id).pos ∧
    m.id < s.born ∧ (s.fh m.id).closed ∧ m.id ∉ s.waiting ∧ (s.dv d).closed m.id = false
  sock_nodup : ∀ d < N, ((s.dv d).sock.map (·.id)).Nodup
  waiting : ∀ x ∈ s.waiting, x ∈ s.alive ∧ (s.fh x).closed
  waiting_nodup : s.waiting.Nodup

/-- The tables: an entry is that of an object with its number. -/
structure Entries (N : ℕ) (s : Aiod π ι) : Prop where
  fht : ∀ d < N, ∀ n e, (s.dv d).fht n = some e → e.id < s.born ∧ (s.fh e.id).fhno = n
  dht : ∀ d < N, ∀ n e, (s.dv d).dht n = some e → e.id < s.born ∧ (s.fh e.id).fhno = n

structure Inv (N : ℕ) (s : Aiod π ι) : Prop where
  numbers : Numbers s
  memory : Memory s
  closes : Closes N s
  entries : Entries N s

variable {d : ℕ}

theorem Closes.update (h : Closes N s) {r : Daemon π ι} {s' : Aiod π ι}
    (hdv : s'.dv = Function.update s.dv d r) (hsock : r.sock = (s.dv d).sock)
    (hclosed : r.closed = (s.dv d).closed) (hborn : s'.born = s.born) (halive : s'.alive = s.alive)
    (hwaiting : s'.waiting = s.waiting) (hpos : ∀ x, (s'.fh x).pos = (s.fh x).pos)
    (hfh : ∀ x, (s'.fh x).closed = (s.fh x).closed) : Closes N s' := by
  have hsocks : ∀ d', (s'.dv d').sock = (s.dv d').sock ∧ (s'.dv d').closed = (s.dv d').closed := by
    intro d'
    rw [hdv]
    by_cases hdd : d' = d
    · subst hdd
      rw [Function.update_self]
      exact ⟨hsock, hclosed⟩
    · rw [Function.update_of_ne hdd]
      exact ⟨rfl, rfl⟩
  refine ⟨fun x hx hnot d' hd' => ?_, fun d' hd' x hx => ?_, fun d' hd' m hm => ?_,
    fun d' hd' => ?_, fun x hx => ?_, hwaiting ▸ h.waiting_nodup⟩
  · rw [(hsocks d').2]
    exact h.dead x (hborn ▸ hx) (halive ▸ hnot) d' hd'
  · rw [(hsocks d').2] at hx
    rw [hborn, hwaiting, hfh]
    exact h.done d' hd' x hx
  · rw [(hsocks d').1] at hm
    rw [hborn, hwaiting, hfh, hpos, (hsocks d').2]
    exact h.sock d' hd' m hm
  · rw [(hsocks d').1]
    exact h.sock_nodup d' hd'
  · rw [hwaiting] at hx
    rw [halive, hfh]
    exact h.waiting x hx

namespace Inv

theorem process (h : Inv N s) {m : Msg} {af : AiodFile π ι} {d₀ : Daemon π ι}
    {r : Daemon π ι × AiodFile π ι} (pipe : List Msg) (hd : d < N) (hlive : m.id ∈ s.alive)
    (hpos : m.pos = (s.fh m.id).pos) (hshm : s.shm m.pos = some af) (hp : Processed d₀ m af r)
    (hfht : d₀.fht = (s.dv d).fht) (hdht : d₀.dht = (s.dv d).dht)
    (hpipe : ∀ m' ∈ pipe, m' ∈ s.pipe) :
    Memory { s with
      pipe := pipe, dv := Function.update s.dv d r.1
      shm := Function.update s.shm m.pos (some r.2) } ∧
    Entries N { s with
      pipe := pipe, dv := Function.update s.dv d r.1
      shm := Function.update s.shm m.pos (some r.2) } := by
  obtain ⟨af', haf', hhandle, hid⟩ := h.memory.record m.id hlive
  rw [← hpos, hshm] at haf'
  cases haf'
  have hborn := h.numbers.alive_lt m.id hlive
  have hent : ∀ {κ : Type} {t t' : Tab κ}, (∀ n e, t n = some e →
      e.id < s.born ∧ (s.fh e.id).fhno = n) → (∀ n e, t' n = some e →
        t n = some e ∨ (n = af.handle ∧ e.id = af.id)) → ∀ n e, t' n = some e →
          e.id < s.born ∧ (s.fh e.id).fhno = n := by
    intro κ t t' hold hnew n e he
    rcases hnew n e he with he | ⟨hn, heid⟩
    · exact hold n e he
    · rw [heid, hid, hn, hhandle]
      exact ⟨hborn, rfl⟩
  refine ⟨⟨fun x hx => ?_, h.memory.apart, fun m' hm' => h.memory.pipe m' (hpipe m' hm')⟩,
    ⟨fun d' hd' => ?_, fun d' hd' => ?_⟩⟩
  · by_cases hx' : (s.fh x).pos = m.pos
    · have hxm := h.memory.apart x hx m.id hlive (hx'.trans hpos)
      subst hxm
      refine ⟨r.2, ?_, hp.handle.trans hhandle, hp.id.trans hid⟩
      simp only [hx', Function.update_self]
    · simp only [Function.update_of_ne hx']
      exact h.memory.record x hx
  · by_cases hdd : d' = d
    · subst hdd
      simp only [Function.update_self]
      exact hent (h.entries.fht d' hd) (hfht ▸ hp.fht)
    · simp only [Function.update_of_ne hdd]
      exact h.entries.fht d' hd'
  · by_cases hdd : d' = d
    · subst hdd
      simp only [Function.update_self]
      exact hent (h.entries.dht d' hd) (hdht ▸ hp.dht)
    · simp only [Function.update_of_ne hdd]
      exact h.entries.dht d' hd'

theorem alive_of_sock (h : Inv N s) (hd : d < N) {m : Msg} (hm : m ∈ (s.dv d).sock) :
    m.id ∈ s.alive := by
  obtain ⟨-, -, hborn, -, -, hnot⟩ := h.closes.sock d hd m hm
  by_contra hdead
  rw [h.closes.dead m.id hborn hdead d hd] at hnot
  cases hnot

variable [DecidableEq π] [DecidableEq ι]

theorem pipe_eq (h : Inv N s) {res : Option ι}
    (hs : step N s (.pipe d res) = some s') : Inv N s' := by
  rw [step] at hs
  cases hpipe : s.pipe with
  | nil =>
    simp only [hpipe] at hs
    cases hs
  | cons m rest =>
    simp only [hpipe] at hs
    split_ifs at hs with hd
    obtain ⟨af, haf, rfl⟩ := Option.map_eq_some_iff.mp hs
    obtain ⟨hop, hpos, hlive⟩ := h.memory.pipe m (hpipe ▸ List.mem_cons_self)
    have hp := getmsg_processed (s.dv d) m af res
    obtain ⟨hmemory, hentries⟩ := h.process rest hd hlive hpos haf hp rfl rfl
      fun m' hm' => hpipe ▸ List.mem_cons_of_mem _ hm'
    have hclosed := hp.closed
    rw [if_neg hop] at hclosed
    exact ⟨{ h.numbers with }, hmemory,
      h.closes.update rfl hp.sock hclosed rfl rfl rfl (fun _ => rfl) fun _ => rfl,
      hentries⟩

theorem sock_eq (h : Inv N s) {res : Option ι}
    (hs : step N s (.sock d res) = some s') : Inv N s' := by
  rw [step] at hs
  cases hsock : (s.dv d).sock with
  | nil =>
    simp only [hsock] at hs
    cases hs
  | cons m rest =>
    simp only [hsock] at hs
    split_ifs at hs with hd
    obtain ⟨af, haf, rfl⟩ := Option.map_eq_some_iff.mp hs
    have hm : m ∈ (s.dv d).sock := hsock ▸ List.mem_cons_self
    obtain ⟨hop, hpos, hborn, hclosedm, hwaitm, -⟩ := h.closes.sock d hd m hm
    have hlive := h.alive_of_sock hd hm
    have hp := getmsg_processed { s.dv d with sock := rest } m af res
    obtain ⟨hmemory, hentries⟩ := h.process s.pipe hd hlive hpos haf hp rfl rfl
      fun _ hm' => hm'
    have hclosed := hp.closed
    rw [if_pos hop] at hclosed
    have hnodup := h.closes.sock_nodup d hd
    rw [hsock, List.map_cons, List.nodup_cons] at hnodup
    refine ⟨{ h.numbers with }, hmemory,
      ⟨fun x hx hnot d' hd' => ?_, fun d' hd' x hx => ?_, fun d' hd' m' hm' => ?_,
        fun d' hd' => ?_, h.closes.waiting, h.closes.waiting_nodup⟩, hentries⟩
    · by_cases hdd : d' = d
      · subst hdd
        simp only [Function.update_self, hclosed]
        by_cases hxm : x = m.id
        · subst hxm
          exact Function.update_self _ _ _
        · rw [Function.update_of_ne hxm]
          exact h.closes.dead x hx hnot d' hd
      · simp only [Function.update_of_ne hdd]
        exact h.closes.dead x hx hnot d' hd'
    · by_cases hdd : d' = d
      · subst hdd
        simp only [Function.update_self, hclosed] at hx
        by_cases hxm : x = m.id
        · subst hxm
          exact ⟨hborn, hclosedm, hwaitm⟩
        · rw [Function.update_of_ne hxm] at hx
          exact h.closes.done d' hd x hx
      · simp only [Function.update_of_ne hdd] at hx
        exact h.closes.done d' hd' x hx
    · by_cases hdd : d' = d
      · subst hdd
        simp only [Function.update_self, hp.sock] at hm'
        have hne : m'.id ≠ m.id := fun heq =>
          hnodup.1 (List.mem_map.mpr ⟨m', hm', heq⟩)
        simp only [Function.update_self, hclosed, Function.update_of_ne hne]
        exact h.closes.sock d' hd m' (hsock ▸ List.mem_cons_of_mem _ hm')
      · simp only [Function.update_of_ne hdd] at hm' ⊢
        exact h.closes.sock d' hd' m' hm'
    · by_cases hdd : d' = d
      · subst hdd
        simp only [Function.update_self, hp.sock]
        exact hnodup.2
      · simp only [Function.update_of_ne hdd]
        exact h.closes.sock_nodup d' hd'

end Inv

theorem sendclose_fh (s : Aiod π ι) (x : ℕ) (avail : Bool) (y : ℕ) :
    ((s.sendclose N x avail).fh y).fhno = (s.fh y).fhno ∧
    ((s.sendclose N x avail).fh y).pos = (s.fh y).pos ∧
    ((s.sendclose N x avail).fh y).closed = ((s.fh y).closed || decide (y = x)) := by
  have hfh : (s.sendclose N x avail).fh = Function.update s.fh x { s.fh x with closed := true } := by
    cases avail <;> rfl
  rw [hfh]
  by_cases hyx : y = x
  · subst hyx
    simp only [Function.update_self, decide_true, Bool.or_true, and_self]
  · simp only [Function.update_of_ne hyx, hyx, decide_false, Bool.or_false, and_self]

theorem Inv.sendclose (h : Inv N s) {x : ℕ} (avail : Bool) (hlive : x ∈ s.alive)
    (hwait : x ∉ s.waiting)
    (hnot : ∀ d < N, (s.dv d).closed x = false ∧ ∀ m ∈ (s.dv d).sock, m.id ≠ x) :
    Inv N (s.sendclose N x avail) := by
  have hfh := sendclose_fh (N := N) s x avail
  have hsame : (s.sendclose N x avail).alive = s.alive ∧ (s.sendclose N x avail).born = s.born ∧
      (s.sendclose N x avail).fhnoCtr = s.fhnoCtr ∧
      (s.sendclose N x avail).fhnoAvail = s.fhnoAvail ∧ (s.sendclose N x avail).shm = s.shm ∧
      (s.sendclose N x avail).pipe = s.pipe := by
    cases avail <;> exact ⟨rfl, rfl, rfl, rfl, rfl, rfl⟩
  have hdv : ∀ d, ((s.sendclose N x avail).dv d).fht = (s.dv d).fht ∧
      ((s.sendclose N x avail).dv d).dht = (s.dv d).dht ∧
      ((s.sendclose N x avail).dv d).closed = (s.dv d).closed := by
    intro d
    cases avail with
    | false => exact ⟨rfl, rfl, rfl⟩
    | true =>
      by_cases hd : d < N
      · simp only [Aiod.sendclose, Aiod.broadcast, hd, if_true, and_self]
      · simp only [Aiod.sendclose, Aiod.broadcast, hd, if_false, if_true, and_self]
  obtain ⟨halive, hborn, hctr, havail, hshm, hpipe⟩ := hsame
  refine ⟨⟨?_, ?_, ?_, ?_, ?_, ?_, ?_⟩, ⟨?_, ?_, ?_⟩, ⟨?_, ?_, ?_, ?_, ?_, ?_⟩, ⟨?_, ?_⟩⟩
  · rw [halive, hborn]
    exact h.numbers.alive_lt
  · rw [halive]
    exact h.numbers.alive_nodup
  · intro y hy
    rw [(hfh y).1, hctr]
    exact h.numbers.no_lt y (hborn ▸ hy)
  · rw [havail, hctr]
    exact h.numbers.avail_lt
  · rw [havail]
    exact h.numbers.avail_nodup
  · intro y hy
    rw [(hfh y).1, havail]
    exact h.numbers.avail_free y (halive ▸ hy)
  · intro y z hyz hz hno
    rw [(hfh y).1, (hfh z).1] at hno
    rw [halive]
    exact h.numbers.older y z hyz (hborn ▸ hz) hno
  · intro y hy
    rw [(hfh y).2.1, (hfh y).1, hshm]
    exact h.memory.record y (halive ▸ hy)
  · intro y hy z hz hpos
    rw [(hfh y).2.1, (hfh z).2.1] at hpos
    exact h.memory.apart y (halive ▸ hy) z (halive ▸ hz) hpos
  · intro m hm
    rw [(hfh m.id).2.1, halive]
    exact h.memory.pipe m (hpipe ▸ hm)
  · intro y hy hdead d hd
    rw [(hdv d).2.2]
    exact h.closes.dead y (hborn ▸ hy) (halive ▸ hdead) d hd
  · intro d hd y hy
    rw [(hdv d).2.2] at hy
    obtain ⟨hyborn, hyclosed, hywait⟩ := h.closes.done d hd y hy
    refine ⟨hborn.symm ▸ hyborn, ?_, ?_⟩
    · rw [(hfh y).2.2, hyclosed, Bool.true_or]
    · cases avail with
      | true => exact hywait
      | false =>
        rintro (_ | ⟨_, hin⟩)
        · rw [(hnot d hd).1] at hy
          cases hy
        · exact hywait hin
  · intro d hd m hm
    rw [(hdv d).2.2, (hfh m.id).2.1, (hfh m.id).2.2, hborn]
    cases avail with
    | false =>
      obtain ⟨hop, hpos, hmborn, hmclosed, hmwait, hmnot⟩ := h.closes.sock d hd m hm
      refine ⟨hop, hpos, hmborn, by rw [hmclosed, Bool.true_or], ?_, hmnot⟩
      intro hin
      rcases List.mem_cons.mp hin with heq | hin
      · exact (hnot d hd).2 m hm heq
      · exact hmwait hin
    | true =>
      simp only [Aiod.sendclose, Aiod.broadcast, hd, if_true, List.mem_append,
        List.mem_singleton] at hm
      rcases hm with hm | rfl
      · obtain ⟨hop, hpos, hmborn, hmclosed, hmwait, hmnot⟩ := h.closes.sock d hd m hm
        exact ⟨hop, hpos, hmborn, by rw [hmclosed, Bool.true_or], hmwait, hmnot⟩
      · refine ⟨rfl, ?_, h.numbers.alive_lt x hlive, ?_, hwait, (hnot d hd).1⟩
        · simp only [Function.update_self]
        · simp only [decide_true, Bool.or_true]
  · intro d hd
    cases avail with
    | false => exact h.closes.sock_nodup d hd
    | true =>
      simp only [Aiod.sendclose, Aiod.broadcast, hd, if_true, List.map_append, List.map_cons,
        List.map_nil]
      refine List.nodup_append.mpr ⟨h.closes.sock_nodup d hd, List.nodup_singleton _, ?_⟩
      intro y hy z hz
      obtain ⟨m, hm, rfl⟩ := List.mem_map.mp hy
      rw [List.mem_singleton.mp hz]
      exact (hnot d hd).2 m hm
  · intro y hy
    rw [halive, (hfh y).2.2]
    cases avail with
    | true =>
      obtain ⟨hyalive, hyclosed⟩ := h.closes.waiting y hy
      exact ⟨hyalive, by rw [hyclosed, Bool.true_or]⟩
    | false =>
      rcases List.mem_cons.mp hy with rfl | hy
      · exact ⟨hlive, by simp only [decide_true, Bool.or_true]⟩
      · obtain ⟨hyalive, hyclosed⟩ := h.closes.waiting y hy
        exact ⟨hyalive, by rw [hyclosed, Bool.true_or]⟩
  · cases avail with
    | true => exact h.closes.waiting_nodup
    | false => exact List.nodup_cons.mpr ⟨hwait, h.closes.waiting_nodup⟩
  · intro d hd n e he
    rw [(hdv d).1] at he
    rw [(hfh e.id).1, hborn]
    exact h.entries.fht d hd n e he
  · intro d hd n e he
    rw [(hdv d).2.1] at he
    rw [(hfh e.id).1, hborn]
    exact h.entries.dht d hd n e he

theorem Inv.destroy (h : Inv N s) {x : ℕ} (hlive : x ∈ s.alive) (hheld : s.held N x = false)
    (hclosed : ∀ d < N, (s.dv d).closed x) :
    Inv N ({ s with alive := s.alive.erase x }.fhnoFree (s.fh x).fhno) := by
  have hmem : ∀ y, y ∈ s.alive.erase x ↔ y ≠ x ∧ y ∈ s.alive :=
    fun y => h.numbers.alive_nodup.mem_erase_iff
  simp only [Aiod.held, Bool.or_eq_false_iff] at hheld
  obtain ⟨⟨hpipe, hwait⟩, -⟩ := hheld
  have hwait' : x ∉ s.waiting := fun hin => by
    rw [List.contains_iff_mem.mpr hin] at hwait
    cases hwait
  refine ⟨⟨?_, h.numbers.alive_nodup.erase x, h.numbers.no_lt, ?_, ?_, ?_, ?_⟩, ⟨?_, ?_, ?_⟩,
    { h.closes with dead := ?_, waiting := ?_ },
    ⟨h.entries.fht, h.entries.dht⟩⟩
  · exact fun y hy => h.numbers.alive_lt y ((hmem y).mp hy).2
  · intro n hn
    rcases List.mem_append.mp hn with hn | hn
    · exact h.numbers.avail_lt n hn
    · rw [List.mem_singleton.mp hn]
      exact h.numbers.no_lt x (h.numbers.alive_lt x hlive)
  · refine List.nodup_append.mpr ⟨h.numbers.avail_nodup, List.nodup_singleton _, ?_⟩
    intro n hn n' hn' heq
    rw [heq, List.mem_singleton.mp hn'] at hn
    exact h.numbers.avail_free x hlive hn
  · intro y hy hin
    obtain ⟨hyx, hy⟩ := (hmem y).mp hy
    rcases List.mem_append.mp hin with hin | hin
    · exact h.numbers.avail_free y hy hin
    · have hno := List.mem_singleton.mp hin
      rcases Nat.lt_or_gt_of_ne hyx with hlt | hgt
      · exact h.numbers.older y x hlt (h.numbers.alive_lt x hlive) hno hy
      · exact h.numbers.older x y hgt (h.numbers.alive_lt y hy) hno.symm hlive
  · intro y z hyz hz hno hy
    exact h.numbers.older y z hyz hz hno ((hmem y).mp hy).2
  · exact fun y hy => h.memory.record y ((hmem y).mp hy).2
  · exact fun y hy z hz => h.memory.apart y ((hmem y).mp hy).2 z ((hmem z).mp hz).2
  · intro m hm
    obtain ⟨hop, hpos, halive⟩ := h.memory.pipe m hm
    refine ⟨hop, hpos, (hmem m.id).mpr ⟨fun heq => ?_, halive⟩⟩
    have hany : s.pipe.any (·.id = x) = true :=
      List.any_eq_true.mpr ⟨m, hm, decide_eq_true heq⟩
    rw [hany] at hpipe
    cases hpipe
  · intro y hy hdead d hd
    by_cases hyx : y = x
    · rw [hyx]
      exact hclosed d hd
    · exact h.closes.dead y hy (fun hin => hdead ((hmem y).mpr ⟨hyx, hin⟩)) d hd
  · intro y hy
    obtain ⟨hyalive, hyclosed⟩ := h.closes.waiting y hy
    exact ⟨(hmem y).mpr ⟨fun heq => hwait' (heq ▸ hy), hyalive⟩, hyclosed⟩

theorem fhnoAlloc_spec (h : Numbers s) : ∃ n s₁, s.fhnoAlloc = (n, s₁) ∧
    s₁ = { s with fhnoCtr := s₁.fhnoCtr, fhnoAvail := s₁.fhnoAvail } ∧
    (∀ x ∈ s.alive, (s.fh x).fhno ≠ n) ∧ n < s₁.fhnoCtr ∧ s.fhnoCtr ≤ s₁.fhnoCtr ∧
    (∀ k ∈ s₁.fhnoAvail, k ∈ s.fhnoAvail ∧ k ≠ n) ∧ s₁.fhnoAvail.Nodup := by
  rw [Aiod.fhnoAlloc]
  cases hlast : s.fhnoAvail.getLast? with
  | none =>
    have hnil := List.getLast?_eq_none_iff.mp hlast
    refine ⟨_, _, rfl, rfl, fun x hx => ?_, Nat.lt_succ_self _, Nat.le_succ _, fun k hk => ?_,
      h.avail_nodup⟩
    · exact Nat.ne_of_lt (h.no_lt x (h.alive_lt x hx))
    · exact ⟨hk, Nat.ne_of_lt (h.avail_lt k hk)⟩
  | some n =>
    obtain ⟨front, hfront⟩ := List.getLast?_eq_some_iff.mp hlast
    have hnodup := h.avail_nodup
    rw [hfront] at hnodup
    obtain ⟨hnodup, -, hapart⟩ := List.nodup_append.mp hnodup
    have hin : n ∈ s.fhnoAvail := hfront ▸ List.mem_append_right _ (List.mem_singleton.mpr rfl)
    have hdrop : s.fhnoAvail.dropLast = front := by rw [hfront, List.dropLast_concat]
    refine ⟨_, _, rfl, rfl, fun x hx heq => ?_, h.avail_lt n hin, Nat.le_refl _, ?_, ?_⟩
    · exact h.avail_free x hx (heq ▸ hin)
    · simp only [hdrop]
      exact fun k hk => ⟨hfront ▸ List.mem_append_left _ hk,
        hapart k hk n (List.mem_singleton.mpr rfl)⟩
    · simp only [hdrop]
      exact hnodup

theorem Inv.opens (h : Inv N s) {dir : Bool} {path : π} {pos n : ℕ} {s₁ : Aiod π ι}
    (hpos : ∀ x ∈ s.alive, (s.fh x).pos ≠ pos) (halloc : s.fhnoAlloc = (n, s₁)) :
    Inv N { s₁ with
      fh := Function.update s.fh s.born ⟨n, pos, dir, false, false⟩
      born := s.born + 1
      alive := s.born :: s.alive
      shm := Function.update s.shm pos (some ⟨n, path, none, s.born⟩)
      pipe := s.pipe ++ [⟨.opens, dir, pos, s.born⟩] } := by
  obtain ⟨n', s₁', halloc', hsame, hfree, hlt, hctr, havail, hnodup⟩ := fhnoAlloc_spec h.numbers
  rw [halloc] at halloc'
  cases halloc'
  rw [hsame]
  have hold : ∀ x, x < s.born → Function.update s.fh s.born ⟨n, pos, dir, false, false⟩ x = s.fh x :=
    fun x hx => Function.update_of_ne (Nat.ne_of_lt hx) _ _
  have hnew : s.born ∉ s.alive := fun hin => Nat.lt_irrefl _ (h.numbers.alive_lt _ hin)
  have halive : ∀ x ∈ s.alive, x < s.born := h.numbers.alive_lt
  refine ⟨⟨fun x hx => ?_, List.nodup_cons.mpr ⟨hnew, h.numbers.alive_nodup⟩, fun x hx => ?_,
    fun k hk => ?_, hnodup, fun x hx => ?_, fun x y hxy hy hno => ?_⟩, ⟨fun x hx => ?_,
    fun x hx y hy heq => ?_, fun m hm => ?_⟩, ⟨fun x hx hdead d hd => ?_, fun d hd x hx => ?_,
    fun d hd m hm => ?_, h.closes.sock_nodup, fun x hx => ?_, h.closes.waiting_nodup⟩,
    ⟨fun d hd k e he => ?_, fun d hd k e he => ?_⟩⟩
  · rcases List.mem_cons.mp hx with rfl | hx
    · exact Nat.lt_succ_self _
    · exact Nat.lt_succ_of_lt (halive x hx)
  · rcases Nat.lt_succ_iff_lt_or_eq.mp hx with hx | rfl
    · simp only [hold x hx]
      exact Nat.lt_of_lt_of_le (h.numbers.no_lt x hx) hctr
    · simp only [Function.update_self]
      exact hlt
  · exact Nat.lt_of_lt_of_le (h.numbers.avail_lt k (havail k hk).1) hctr
  · rcases List.mem_cons.mp hx with rfl | hx
    · simp only [Function.update_self]
      exact fun hin => (havail n hin).2 rfl
    · simp only [hold x (halive x hx)]
      exact fun hin => h.numbers.avail_free x hx (havail _ hin).1
  · have hx : x < s.born := by
      have hy' : y < s.born + 1 := hy
      omega
    simp only [hold x hx] at hno
    refine fun hin => ?_
    rcases List.mem_cons.mp hin with heq | hin
    · omega
    · rcases Nat.lt_succ_iff_lt_or_eq.mp hy with hy | rfl
      · simp only [hold y hy] at hno
        exact h.numbers.older x y hxy hy hno hin
      · simp only [Function.update_self] at hno
        exact hfree x hin hno
  · rcases List.mem_cons.mp hx with rfl | hx
    · simp only [Function.update_self]
      exact ⟨_, rfl, rfl, rfl⟩
    · simp only [hold x (halive x hx), Function.update_of_ne (hpos x hx)]
      exact h.memory.record x hx
  · rcases List.mem_cons.mp hx with rfl | hx
    · rcases List.mem_cons.mp hy with rfl | hy
      · rfl
      · simp only [Function.update_self, hold y (halive y hy)] at heq
        exact absurd heq.symm (hpos y hy)
    · rcases List.mem_cons.mp hy with rfl | hy
      · simp only [Function.update_self, hold x (halive x hx)] at heq
        exact absurd heq (hpos x hx)
      · simp only [hold x (halive x hx), hold y (halive y hy)] at heq
        exact h.memory.apart x hx y hy heq
  · rcases List.mem_append.mp hm with hm | hm
    · obtain ⟨hop, hmpos, hmalive⟩ := h.memory.pipe m hm
      simp only [hold m.id (halive m.id hmalive)]
      exact ⟨hop, hmpos, List.mem_cons_of_mem _ hmalive⟩
    · rw [List.mem_singleton.mp hm]
      simp only [Function.update_self]
      exact ⟨by decide, trivial, List.mem_cons_self⟩
  · have hne : x ≠ s.born := fun heq => hdead (heq ▸ List.mem_cons_self)
    have hlt' : x < s.born + 1 := hx
    exact h.closes.dead x (by omega) (fun hin => hdead (List.mem_cons_of_mem _ hin)) d hd
  · obtain ⟨hxborn, hxclosed, hxwait⟩ := h.closes.done d hd x hx
    simp only [hold x hxborn]
    exact ⟨Nat.lt_succ_of_lt hxborn, hxclosed, hxwait⟩
  · obtain ⟨hop, hmpos, hmborn, hmclosed, hmwait, hmnot⟩ := h.closes.sock d hd m hm
    simp only [hold m.id hmborn]
    exact ⟨hop, hmpos, Nat.lt_succ_of_lt hmborn, hmclosed, hmwait, hmnot⟩
  · obtain ⟨hxalive, hxclosed⟩ := h.closes.waiting x hx
    simp only [hold x (halive x hxalive)]
    exact ⟨List.mem_cons_of_mem _ hxalive, hxclosed⟩
  · obtain ⟨hborn, hno⟩ := h.entries.fht d hd k e he
    simp only [hold e.id hborn]
    exact ⟨Nat.lt_succ_of_lt hborn, hno⟩
  · obtain ⟨hborn, hno⟩ := h.entries.dht d hd k e he
    simp only [hold e.id hborn]
    exact ⟨Nat.lt_succ_of_lt hborn, hno⟩

theorem Inv.answer (h : Inv N s) (d : ℕ) (x : ℕ) (rest : List (Msg × Bool)) (given : Bool) :
    Inv N { s with
      dv := Function.update s.dv d { s.dv d with back := rest }
      fh := if given then Function.update s.fh x { s.fh x with given := true } else s.fh } := by
  have hfh : ∀ y, ((if given then Function.update s.fh x { s.fh x with given := true }
      else s.fh) y).fhno = (s.fh y).fhno ∧ ((if given then Function.update s.fh x
        { s.fh x with given := true } else s.fh) y).pos = (s.fh y).pos ∧
      ((if given then Function.update s.fh x { s.fh x with given := true }
        else s.fh) y).closed = (s.fh y).closed := by
    intro y
    split_ifs
    · by_cases hyx : y = x
      · subst hyx
        rw [Function.update_self]
        exact ⟨rfl, rfl, rfl⟩
      · rw [Function.update_of_ne hyx]
        exact ⟨rfl, rfl, rfl⟩
    · exact ⟨rfl, rfl, rfl⟩
  have htab : ∀ d', (Function.update s.dv d { s.dv d with back := rest } d').fht =
      (s.dv d').fht ∧ (Function.update s.dv d { s.dv d with back := rest } d').dht =
        (s.dv d').dht := by
    intro d'
    by_cases hdd : d' = d
    · subst hdd
      rw [Function.update_self]
      exact ⟨rfl, rfl⟩
    · rw [Function.update_of_ne hdd]
      exact ⟨rfl, rfl⟩
  refine ⟨{ h.numbers with
    no_lt := fun y hy => ?_
    avail_free := fun y hy => ?_
    older := fun y z hyz hz hno => ?_ }, ⟨fun y hy => ?_,
    fun y hy z hz hpos => ?_, fun m hm => ?_⟩,
    h.closes.update rfl rfl rfl rfl rfl rfl (fun y => (hfh y).2.1) fun y => (hfh y).2.2,
    ⟨fun d' hd' n e he => ?_, fun d' hd' n e he => ?_⟩⟩
  · rw [(hfh y).1]
    exact h.numbers.no_lt y hy
  · rw [(hfh y).1]
    exact h.numbers.avail_free y hy
  · rw [(hfh y).1, (hfh z).1] at hno
    exact h.numbers.older y z hyz hz hno
  · rw [(hfh y).1, (hfh y).2.1]
    exact h.memory.record y hy
  · rw [(hfh y).2.1, (hfh z).2.1] at hpos
    exact h.memory.apart y hy z hz hpos
  · rw [(hfh m.id).2.1]
    exact h.memory.pipe m hm
  · rw [(htab d').1] at he
    rw [(hfh e.id).1]
    exact h.entries.fht d' hd' n e he
  · rw [(htab d').2] at he
    rw [(hfh e.id).1]
    exact h.entries.dht d' hd' n e he

theorem Inv.start : Inv N (Aiod.start (π := π) (ι := ι)) where
  numbers := {
    alive_lt := fun x hx => by cases hx
    alive_nodup := List.nodup_nil
    no_lt := fun x hx => absurd hx (Nat.not_lt_zero x)
    avail_lt := fun n hn => by cases hn
    avail_nodup := List.nodup_nil
    avail_free := fun x hx => by cases hx
    older := fun x y _ hy => absurd hy (Nat.not_lt_zero y) }
  memory := {
    record := fun x hx => by cases hx
    apart := fun x hx => by cases hx
    pipe := fun m hm => by cases hm }
  closes := {
    dead := fun x hx => absurd hx (Nat.not_lt_zero x)
    done := fun d _ x hx => by cases hx
    sock := fun d _ m hm => by cases hm
    sock_nodup := fun _ _ => List.nodup_nil
    waiting := fun x hx => by cases hx
    waiting_nodup := List.nodup_nil }
  entries := {
    fht := fun d _ n e he => by cases he
    dht := fun d _ n e he => by cases he }

variable [DecidableEq π] [DecidableEq ι]

theorem step_inv {e : Event π ι} (h : Inv N s) (hfine : Fine N s e)
    (hs : step N s e = some s') : Inv N s' := by
  cases e with
  | opens dir path pos =>
    rw [step] at hs
    split_ifs at hs with hany
    cases halloc : s.fhnoAlloc with
    | mk n s₁ =>
      rw [halloc] at hs
      cases hs
      refine h.opens (fun x hx heq => hany ?_) halloc
      exact List.any_eq_true.mpr ⟨x, hx, decide_eq_true heq⟩
  | uses x dir =>
    rw [step] at hs
    split_ifs at hs with hlive hclosed
    · cases hs
      exact h
    · cases hs
      refine ⟨{ h.numbers with },
        { h.memory with pipe := fun m hm => ?_ },
        { h.closes with }, ⟨h.entries.fht, h.entries.dht⟩⟩
      rcases List.mem_append.mp hm with hm | hm
      · exact h.memory.pipe m hm
      · rw [List.mem_singleton.mp hm]
        exact ⟨fun hop => (by cases hop), rfl, hlive.1⟩
  | closes x avail =>
    rw [step] at hs
    split_ifs at hs with hlive hclosed
    · cases hs
      exact h
    · cases hs
      refine h.sendclose avail hlive.1 (fun hin => hclosed (h.closes.waiting x hin).2)
        fun d hd => ⟨?_, fun m hm heq => ?_⟩
      · exact Bool.eq_false_iff.mpr fun hdone => hclosed (h.closes.done d hd x hdone).2.1
      · obtain ⟨-, -, -, hmclosed, -⟩ := h.closes.sock d hd m hm
        rw [heq] at hmclosed
        exact hclosed hmclosed
  | retry x avail =>
    rw [step] at hs
    split_ifs at hs with hwait
    cases hs
    have hmem : ∀ y, y ∈ s.waiting.erase x ↔ y ≠ x ∧ y ∈ s.waiting :=
      fun y => h.closes.waiting_nodup.mem_erase_iff
    have hinv : Inv N { s with waiting := s.waiting.erase x } := by
      refine ⟨{ h.numbers with },
        { h.memory with },
        ⟨h.closes.dead, fun d hd y hy => ?_, fun d hd m hm => ?_, h.closes.sock_nodup,
          fun y hy => h.closes.waiting y ((hmem y).mp hy).2, h.closes.waiting_nodup.erase x⟩,
        ⟨h.entries.fht, h.entries.dht⟩⟩
      · obtain ⟨hborn, hclosed, hnot⟩ := h.closes.done d hd y hy
        exact ⟨hborn, hclosed, fun hin => hnot ((hmem y).mp hin).2⟩
      · obtain ⟨hop, hpos, hborn, hclosed, hnot, hdone⟩ := h.closes.sock d hd m hm
        exact ⟨hop, hpos, hborn, hclosed, fun hin => hnot ((hmem m.id).mp hin).2, hdone⟩
    refine hinv.sendclose avail (h.closes.waiting x hwait).1
      (fun hin => ((hmem x).mp hin).1 rfl) fun d hd => ⟨?_, fun m hm heq => ?_⟩
    · exact Bool.eq_false_iff.mpr fun hdone => (h.closes.done d hd x hdone).2.2 hwait
    · obtain ⟨-, -, -, -, hnot, -⟩ := h.closes.sock d hd m hm
      rw [heq] at hnot
      exact hnot hwait
  | destroy x avail =>
    rw [step] at hs
    split_ifs at hs with hlive hclosed havail
    · cases hs
      exact h.destroy hlive.1 (Bool.eq_false_iff.mpr hlive.2) hfine
    · -- Only without daemons can an object that is not closed be closed everywhere.
      cases hs
      have hnone : ∀ d, ¬ d < N := fun d hd =>
        hclosed (h.closes.done d hd x (hfine d hd)).2.1
      have hsent := h.sendclose true hlive.1
        (fun hin => hclosed (h.closes.waiting x hin).2) fun d hd => absurd hd (hnone d)
      have hheld : (s.sendclose N x true).held N x = false := by
        have hN : N = 0 := Nat.eq_zero_of_not_pos (hnone 0)
        subst hN
        exact Bool.eq_false_iff.mpr hlive.2
      have hgone := hsent.destroy hlive.1 hheld fun d hd => absurd hd (hnone d)
      rw [(sendclose_fh s x true x).1] at hgone
      exact hgone
  | pipe d res => exact h.pipe_eq hs
  | sock d res => exact h.sock_eq hs
  | answer d =>
    rw [step] at hs
    cases hback : (s.dv d).back with
    | nil =>
      simp only [hback] at hs
      cases hs
    | cons a rest =>
      obtain ⟨m, ok⟩ := a
      simp only [hback] at hs
      split_ifs at hs with hd hok
      · cases hs
        exact h.answer d m.id rest true
      · cases hs
        exact h.answer d m.id rest false
  | reuse pos af =>
    rw [step] at hs
    split_ifs at hs with hany
    cases hs
    refine ⟨{ h.numbers with },
      ⟨fun x hx => ?_, h.memory.apart, h.memory.pipe⟩,
      { h.closes with }, ⟨h.entries.fht, h.entries.dht⟩⟩
    have hne : (s.fh x).pos ≠ pos := fun heq =>
      hany (List.any_eq_true.mpr ⟨x, hx, decide_eq_true heq⟩)
    simp only [Function.update_of_ne hne]
    exact h.memory.record x hx

/-- Of two objects with one number the older one is gone, and every daemon has processed its
close. -/
def Fresh (N : ℕ) (s : Aiod π ι) : Prop :=
  ∀ x y, x < y → y < s.born → (s.fh x).fhno = (s.fh y).fhno →
    x ∉ s.alive ∧ ∀ d < N, (s.dv d).closed x

/-- The close that a daemon processes next takes out no entry of a newer object. -/
def Spares (N : ℕ) (s : Aiod π ι) : Prop :=
  ∀ d < N, ∀ m, (s.dv d).sock.head? = some m → ∀ af, s.shm m.pos = some af →
    ∀ y, (s.dv d).taken m af = some y → y ≤ m.id

omit [DecidableEq π] [DecidableEq ι] in
theorem Inv.spares (h : Inv N s) : Spares N s := by
  intro d hd m hhead af haf y hy
  have hm := List.mem_of_head? hhead
  have hlive := h.alive_of_sock hd hm
  obtain ⟨-, hpos, -⟩ := h.closes.sock d hd m hm
  obtain ⟨af', haf', hhandle, -⟩ := h.memory.record m.id hlive
  rw [← hpos, haf] at haf'
  cases haf'
  have hentry : y < s.born ∧ (s.fh y).fhno = af.handle := by
    rw [Daemon.taken] at hy
    split_ifs at hy
    · obtain ⟨e, he, rfl⟩ := Option.map_eq_some_iff.mp hy
      exact h.entries.dht d hd af.handle e he
    · obtain ⟨e, he, rfl⟩ := Option.map_eq_some_iff.mp hy
      exact h.entries.fht d hd af.handle e he
  refine Nat.le_of_not_lt fun hlt => ?_
  exact h.numbers.older m.id y hlt hentry.1 (hhandle.symm.trans hentry.2.symm) hlive

/-- In every run in which each object is destroyed only after every daemon has processed its close,
with any number of daemons, a number is given again only after its previous use was closed
everywhere, and no close takes out the entry of a newer file. -/
theorem aiofh_run {es : List (Event π ι)} (hrun : Run (step N) (Fine N) Aiod.start es s) :
    Fresh N s ∧ Spares N s := by
  have h : Inv N s := hrun.invariant .start fun _ _ _ h hfine hs => step_inv h hfine hs
  refine ⟨fun x y hxy hy hno => ?_, h.spares⟩
  have hdead := h.numbers.older x y hxy hy hno
  exact ⟨hdead, h.closes.dead x (Nat.lt_trans hxy hy) hdead⟩

/-- Two daemons; the first file is closed by both before its object goes and its number is given to
the second one. -/
theorem aiofh_run_two : ∃ s : Aiod ℕ ℕ, s.born = 2 ∧ (s.fh 0).fhno = 1 ∧ (s.fh 1).fhno = 1 ∧
    Fresh 2 s ∧ Spares 2 s := by
  have hex : (([.opens false 7 64, .pipe 0 (some 3), .answer 0, .closes 0 true, .sock 1 none,
      .sock 0 none, .destroy 0 true, .opens false 7 64].foldlM
        (fun s e => if Fine 2 s e then step 2 s e else none) Aiod.start).map
          fun s : Aiod ℕ ℕ => (s.born, (s.fh 0).fhno, (s.fh 1).fhno)) = some (2, 1, 1) := by
    decide
  obtain ⟨s, hs, hout⟩ := Option.map_eq_some_iff.mp hex
  simp only [Prod.mk.injEq] at hout
  obtain ⟨hfresh, hspares⟩ := aiofh_run (Run.of_checked hs)
  exact ⟨s, hout.1, hout.2.1, hout.2.2, hfresh, hspares⟩

/-- The object of a file that was closed goes while the closes are on their way, and its number is
given to another file; the second daemon opens that one before it reads the close, which then takes
out the new entry. -/
theorem aiofh_closes_newer : ¬ ∀ (es : List (Event ℕ ℕ)) (s : Aiod ℕ ℕ),
    Run (step 2) (fun _ _ => True) Aiod.start es s → Fresh 2 s ∧ Spares 2 s := by
  intro h
  have hex : (([.opens false 7 64, .pipe 0 (some 3), .answer 0, .closes 0 true, .destroy 0 true,
      .opens false 8 64, .pipe 1 (some 4)].foldlM (step 2) Aiod.start).map
        fun s : Aiod ℕ ℕ => ((s.dv 1).sock.head?, s.shm 64, (s.dv 1).taken
          ⟨.closes, false, 64, 0⟩ ⟨1, 8, some 4, 1⟩)) =
      some (some ⟨.closes, false, 64, 0⟩, some ⟨1, 8, some 4, 1⟩, some 1) := by
    decide
  obtain ⟨s, hs, hout⟩ := Option.map_eq_some_iff.mp hex
  simp only [Prod.mk.injEq] at hout
  obtain ⟨hhead, hshm, htaken⟩ := hout
  have hle := (h _ s (Run.of_foldlM hs)).2 1 (by decide) _ hhead _ hshm 1 htaken
  exact absurd hle (by decide)

end Sfslite.Async.Aiofh
