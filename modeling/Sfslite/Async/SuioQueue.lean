import Sfslite.Async.SuioSafe

/-!
Suios against queues of bytes. What is appended are the bytes that the memory has when the call
is made; the suios keep some of them in their own buffers and find the others where they are.
-/

namespace Sfslite.Async.Suio

open Sfslite.Lib

structure ByteQueue where
  bytes : List (BitVec 8)
  removed : ℕ

namespace ByteQueue

def empty : ByteQueue := ⟨[], 0⟩

def append (q : ByteQueue) (bs : List (BitVec 8)) : ByteQueue := ⟨q.bytes ++ bs, q.removed⟩

def remove (q : ByteQueue) (n : ℕ) : ByteQueue := ⟨q.bytes.drop n, q.removed + n⟩

end ByteQueue

section

variable {ι : Type*}

/-- The suios and the memory that is the program's own. -/
structure Host (ι : Type*) where
  world : World ι
  prog : Set ℕ

inductive HostOp (ι : Type*)
  | call (malloc : Malloc) (op : Op ι)
  /-- The program gets memory or gives some up. -/
  | own (prog : Set ℕ)

namespace Host

/-- The bytes that can be reached through the iovecs. -/
def contents (h : Host ι) (i : ι) : List (BitVec 8) :=
  (addrs (h.world.suios i).iovs).map h.world.env.mem

/-- What a caller of one of the operations answers for. The buffers are its own, and it does
not write to bytes that a suio still refers to. No more bytes are removed or skipped than there
are. Data that `borrow_data` lends stay in the lender as long as they are borrowed, and do not
go back to it. -/
def LegalOp (h : Host ι) : Op ι → Prop
  | .copy _ buf len => ∀ a ∈ List.range' buf len, a ∈ h.prog
  | .print _ buf len => ∀ a ∈ List.range' buf len, a ∈ h.prog
  | .fill _ _ _ => True
  | .copyv _ iov skip => skip ≤ lens iov ∧ ∀ a ∈ addrs iov, a ∈ h.prog
  | .copyu i j => i ≠ j
  | .take i j => i ≠ j ∧ ∀ a ∈ addrs (h.world.suios j).iovs,
      ∀ b ∈ (h.world.suios i).owned, ¬ inBlock b a
  | .borrowData i j => i ≠ j ∧ ∀ a ∈ addrs (h.world.suios j).iovs,
      ∀ b ∈ (h.world.suios i).owned, ¬ inBlock b a
  | .iovcb _ _ => True
  | .breakiov _ => True
  | .rembytes i n => n ≤ (h.world.suios i).uiobytes ∧
      ∀ k, k ≠ i → ∀ a ∈ addrs (h.world.suios k).iovs, ¬ (h.world.suios i).Returns n a
  | .write a bs => ∀ x ∈ List.range' a bs.length, x ∈ h.prog ∧
      ∀ k, x ∉ addrs (h.world.suios k).iovs
  | _ => False

def Legal (h : Host ι) : HostOp ι → Prop
  | .call malloc op => Fits h.prog (objects h.world) malloc ∧ h.LegalOp op
  | .own prog => 0 ∉ prog ∧ (∀ a ∈ prog, a ∉ objects h.world) ∧
      (∀ a ∈ prog, ∀ b ∈ h.world.env.live, ¬ inBlock b a) ∧
      ∀ k, ∀ a ∈ addrs (h.world.suios k).iovs, a ∈ h.prog → a ∈ prog

/-- Bytes are not pushed at the pointer that `take` leaves in an empty suio, nor by reference
at the end of a full scratch buffer. -/
def Works (h : Host ι) : HostOp ι → Prop
  | .call malloc (.copy i _ _) => Fresh malloc (h.world.suios i)
  | .call malloc (.print i buf len) =>
    Fresh malloc (h.world.suios i) ∧ (h.world.suios i).PrintWorks buf len
  | .call malloc (.fill i _ _) => Fresh malloc (h.world.suios i)
  | .call malloc (.copyv i _ _) => Fresh malloc (h.world.suios i)
  | .call malloc (.copyu i _) => Fresh malloc (h.world.suios i)
  | .call malloc (.take i j) =>
    Fresh malloc (h.world.suios i) ∧
      (h.world.suios i).AppendWorks (h.world.suios j).defbuf (h.world.suios j).iovs
  | .call malloc (.borrowData i j) =>
    Fresh malloc (h.world.suios i) ∧
      (h.world.suios i).AppendWorks (h.world.suios j).defbuf (h.world.suios j).iovs
  | _ => True

/-- The suios have what the queues say. -/
structure Holds (h : Host ι) (q : ι → ByteQueue) : Prop where
  safe : Safe h.prog h.world
  bytes : ∀ k, h.contents k = (q k).bytes
  removed : ∀ k, (h.world.suios k).nrembytes = (q k).removed

variable {h : Host ι} {q : ι → ByteQueue} {i j : ι} {malloc : Malloc} {bs : List (BitVec 8)}

theorem Holds.write (hh : Holds h q) {a : ℕ} (hlegal : h.LegalOp (.write a bs)) :
    Holds ⟨{ h.world with env := { h.world.env with mem := h.world.env.mem.write a bs } }, h.prog⟩
      q := by
  have hs := hh.safe
  refine ⟨{ hs with }, fun k => ?_, hh.removed⟩
  rw [← hh.bytes k]
  apply List.map_congr_left
  intro x hx
  apply write_of_not_mem
  intro hin
  exact (hlegal x hin).2 k hx

theorem Holds.own (hh : Holds h q) {prog : Set ℕ} (hlegal : h.Legal (.own prog)) :
    Holds ⟨h.world, prog⟩ q := by
  obtain ⟨hzero, hobj, hlive, hrefs⟩ := hlegal
  have hs := hh.safe
  refine ⟨{ hs with
    fixed := fun b hb a hab => ?_
    progs := hobj
    null := ⟨hzero, hs.null.2⟩
    alive := fun k a ha => ?_ }, hh.bytes, hh.removed⟩
  · exact ⟨fun ha => hlive a ha b hb hab, (hs.fixed b hb a hab).2⟩
  · exact (hs.alive k a ha).imp_left (hrefs k a ha)

/-- New suios, and the memory that is the program's own. -/
def start (defbuf : ι → ℕ) (mem : Mem) (prog : Set ℕ) : Host ι :=
  ⟨⟨⟨mem, [], []⟩, fun k => new (defbuf k)⟩, prog⟩

theorem holds_start {defbuf : ι → ℕ} {mem : Mem} {prog : Set ℕ} (hdefbuf : ∀ k, 0 < defbuf k)
    (hplaced : ∀ i k, i ≠ k →
      defbuf i + smallbufsize < defbuf k ∨ defbuf k + smallbufsize < defbuf i)
    (hzero : 0 ∉ prog)
    (hprog : ∀ a ∈ prog, ∀ k, ¬(defbuf k ≤ a + 1 ∧ a < defbuf k + smallbufsize)) :
    Holds (start defbuf mem prog) fun _ => .empty := by
  have howned : ∀ k, (new (defbuf k)).owned = [] := fun k => if_pos rfl
  refine ⟨⟨fun k => ?_, ?_, ?_, ?_, ?_, fun b hb => absurd hb List.not_mem_nil, ?_, ?_,
    ⟨hzero, fun b hb => absurd hb List.not_mem_nil⟩, fun i a _ k ha => absurd ha List.not_mem_nil,
    fun k a ha => absurd ha List.not_mem_nil⟩, fun k => rfl, fun k => rfl⟩
  · have hpos := hdefbuf k
    exact ⟨rfl, fun v hv => absurd hv List.not_mem_nil, fun hne => absurd rfl hne,
      fun _ => ⟨Nat.ne_of_lt hpos, Nat.ne_of_lt hpos⟩, ⟨hpos, hpos⟩,
      ⟨Nat.le_refl _, Nat.le_add_right _ _⟩, fun _ => rfl, fun _ => rfl,
      fun d hd => absurd hd List.not_mem_nil⟩
  · intro k b hb
    rw [start, howned] at hb
    exact absurd hb List.not_mem_nil
  · intro k b hb
    rw [start, howned] at hb
    exact absurd hb List.not_mem_nil
  · intro k
    rw [start, howned]
    exact .nil
  · intro i k _ b hb
    rw [start, howned] at hb
    exact absurd hb List.not_mem_nil
  · rintro i k hne a ⟨hlo, hhi⟩ ⟨hlo', hhi'⟩
    have hgap := hplaced i k hne
    dsimp only [start, new] at hlo hhi hlo' hhi'
    omega
  · rintro a ha ⟨k, hobj⟩
    exact hprog a ha k hobj

variable [DecidableEq ι]

/-- What the operations mean, where the memory is `mem`. -/
def queueStep (mem : Mem) (q : ι → ByteQueue) : Op ι → ι → ByteQueue
  | .copy i buf len => Function.update q i ((q i).append (mem.read buf len))
  | .print i buf len => Function.update q i ((q i).append (mem.read buf len))
  | .fill i c n => Function.update q i ((q i).append (List.replicate n.toNat c))
  | .copyv i iov skip =>
    Function.update q i ((q i).append ((iov.flatMap fun v => mem.read v.base v.len).drop skip))
  | .copyu i j => Function.update q i ((q i).append (q j).bytes)
  | .take i j =>
    Function.update (Function.update q i ((q i).append (q j).bytes)) j
      ((q j).remove (q j).bytes.length)
  | .borrowData i j => Function.update q i ((q i).append (q j).bytes)
  | .rembytes i n => Function.update q i ((q i).remove n)
  | _ => q

def step (h : Host ι) : HostOp ι → Option (Host ι)
  | .call malloc op => (Suio.step h.world (malloc, op)).map fun w => ⟨w, h.prog⟩
  | .own prog => some ⟨h.world, prog⟩

def traced (r : Host ι × (ι → ByteQueue)) (ev : HostOp ι) : Option (Host ι × (ι → ByteQueue)) :=
  (r.1.step ev).map fun h => (h, match ev with
    | .call _ op => queueStep r.1.world.env.mem r.2 op
    | .own _ => r.2)

variable {r : Env × Suio}

theorem Holds.others (hh : Holds h q) {bs : ByteQueue} (hsafe : Safe h.prog (h.world.set i r))
    (hmem : ∀ a ∈ (around h.prog h.world i).keep, r.1.mem a = h.world.env.mem a)
    (hself : (addrs r.2.iovs).map r.1.mem = bs.bytes ∧ r.2.nrembytes = bs.removed) :
    Holds ⟨h.world.set i r, h.prog⟩ (Function.update q i bs) := by
  refine ⟨hsafe, fun k => ?_, fun k => ?_⟩
  · by_cases hk : k = i
    · subst hk
      rw [contents, World.set_self, World.set_env, Function.update_self]
      exact hself.1
    · rw [contents, World.set_of_ne _ _ hk, World.set_env, Function.update_of_ne hk, ← hh.bytes k]
      exact List.map_congr_left fun a ha => hmem a (Or.inr ⟨k, hk, Or.inl ha⟩)
  · by_cases hk : k = i
    · subst hk
      rw [World.set_self, Function.update_self]
      exact hself.2
    · rw [World.set_of_ne _ _ hk, Function.update_of_ne hk]
      exact hh.removed k

theorem Holds.added (hh : Holds h q) {l : List ℕ}
    (hadd : Added (around h.prog h.world i) (h.world.env, h.world.suios i) r l)
    (hbytes : l.map r.1.mem = bs) (hnew : ∀ a ∈ l, a ∉ (around h.prog h.world i).keep ∨ a ∈ h.prog ∨
      ∃ j, a ∈ addrs (h.world.suios j).iovs) :
    Holds ⟨h.world.set i r, h.prog⟩ (Function.update q i ((q i).append bs)) := by
  have hsafe : Safe h.prog (h.world.set i r) := by
    apply hadd.focus.safe hh.safe hadd.defbuf hadd.held
    intro a ha
    rw [hadd.addrs] at ha
    rcases List.mem_append.mp ha with ha | ha
    · exact Or.inr (Or.inr ⟨i, ha⟩)
    · exact hnew a ha
  apply hh.others hsafe fun a ha => hadd.mem a (Or.inl ha)
  constructor
  · rw [hadd.addrs, List.map_append, hbytes, ByteQueue.append, ← hh.bytes i]
    congr 1
    exact List.map_congr_left fun a ha => hadd.mem a (Or.inr ha)
  · rw [hadd.removed]
    exact hh.removed i

theorem Holds.copied (hh : Holds h q)
    (hcopied : Copied (around h.prog h.world i) (h.world.env, h.world.suios i) r bs) :
    Holds ⟨h.world.set i r, h.prog⟩ (Function.update q i ((q i).append bs)) := by
  obtain ⟨l, hadd, hbytes, hnew⟩ := hcopied
  exact hh.added hadd hbytes fun a ha => Or.inl (hnew a ha)

theorem read_iovecs (mem : Mem) (iov : List Iovec) :
    (iov.flatMap fun v => mem.read v.base v.len) = (addrs iov).map mem := by
  unfold addrs
  rw [List.map_flatMap]
  rfl

theorem Holds.borrowData (hh : Holds h q) (hm : Fits h.prog (objects h.world) malloc)
    (hlegal : h.LegalOp (.borrowData i j)) (hworks : h.Works (.call malloc (.borrowData i j))) :
    ∃ r, (h.world.suios i).borrowData malloc h.world.env (h.world.suios j) = some r ∧
      Holds ⟨h.world.set i r, h.prog⟩ (Function.update q i ((q i).append (q j).bytes)) := by
  obtain ⟨hij, hown⟩ := hlegal
  obtain ⟨r, l, happ, hadd, hbytes, hmoved⟩ := (hh.safe.focus i).appendIovs hm hworks.1
    (hh.safe.source hij hown) (Or.inl hworks.2.1) hworks.2.2
  rw [← hh.bytes j]
  refine ⟨r, happ, hh.added hadd hbytes fun a ha => ?_⟩
  obtain ⟨a₀, ha₀, hsame | hnew⟩ := hmoved.exists_of_right ha
  · exact Or.inr (Or.inr ⟨j, hsame ▸ ha₀⟩)
  · exact Or.inl hnew

theorem Holds.take (hh : Holds h q) (hm : Fits h.prog (objects h.world) malloc)
    (hlegal : h.LegalOp (.take i j)) (hworks : h.Works (.call malloc (.take i j))) :
    ∃ e' s' uio', (h.world.suios i).take malloc h.world.env (h.world.suios j) =
        some (e', s', uio') ∧
      Holds ⟨(h.world.set i (e', s')).set j (e', uio'), h.prog⟩
        (Function.update (Function.update q i ((q i).append (q j).bytes)) j
          ((q j).remove (q j).bytes.length)) := by
  obtain ⟨hij, hown⟩ := hlegal
  obtain ⟨hf, happw⟩ := hworks
  obtain ⟨e₀, cs, hcond, hmem₀, hfocus₀, hheld₀⟩ := (hh.safe.focus j).condemnScratch
  have hsafe₁ := hfocus₀.safe hh.safe rfl hheld₀ fun a ha => Or.inr (Or.inr ⟨j, ha⟩)
  generalize hw₁ : h.world.set j (e₀, ({ h.world.suios j with uiocbs := cs } : Suio).shut) = w₁
    at hsafe₁
  have hs₁ : w₁.suios i = h.world.suios i := by rw [← hw₁, World.set_of_ne _ _ hij]
  have hu₁ : w₁.suios j = ({ h.world.suios j with uiocbs := cs } : Suio).shut := by
    rw [← hw₁, World.set_self]
  have he₁ : w₁.env = e₀ := by rw [← hw₁, World.set_env]
  have hobjects : objects w₁ = objects h.world := by
    rw [← hw₁]
    exact objects_set rfl
  have hfocus₁ := hsafe₁.focus i
  have hsource₁ := hsafe₁.source hij (by rw [hu₁, hs₁]; exact hown)
  rw [hs₁, he₁] at hfocus₁
  rw [hu₁] at hsource₁
  have hm₁ : Fits (around h.prog w₁ i).prog (around h.prog w₁ i).objects malloc := by
    rw [around, hobjects]
    exact hm
  obtain ⟨⟨e', t⟩, l, happ, hadd, hbytes, hmoved⟩ :=
    hfocus₁.appendIovs hm₁ hf hsource₁ (Or.inl happw.1) happw.2
  have hsafe₂ : Safe h.prog (w₁.set i (e', t)) := by
    apply hadd.focus.safe hsafe₁ (by rw [hs₁]; exact hadd.defbuf) (by rw [hs₁]; exact hadd.held)
    intro a ha
    rw [hadd.addrs] at ha
    rcases List.mem_append.mp ha with ha | ha
    · exact Or.inr (Or.inr ⟨i, by rw [hs₁]; exact ha⟩)
    · obtain ⟨a₀, ha₀, hsame | hnew⟩ := hmoved.exists_of_right ha
      · exact Or.inr (Or.inr ⟨j, by rw [hu₁, hsame]; exact ha₀⟩)
      · exact Or.inl hnew
  generalize hw₂ : w₁.set i (e', t) = w₂ at hsafe₂
  have ht₂ : w₂.suios i = t := by rw [← hw₂, World.set_self]
  have hu₂ : w₂.suios j = ({ h.world.suios j with uiocbs := cs } : Suio).shut := by
    rw [← hw₂, World.set_of_ne _ _ hij.symm, hu₁]
  have he₂ : w₂.env = e' := by rw [← hw₂, World.set_env]
  have hremoved : t.nrembytes = (h.world.suios i).nrembytes := hadd.removed
  have hcount := (hh.safe.shape i).count
  generalize hds : (cs.map fun c : Uiocb => (⟨sub64 (c.nbytes + ((h.world.suios i).nrembytes +
    (h.world.suios i).uiobytes)) (h.world.suios j).nrembytes, c.cb⟩ : Uiocb)) = ds
  have hblocks : (ds.filterMap fun d => d.cb.block?) = (w₂.suios j).condemned := by
    rw [hu₂, ← hds, List.filterMap_map]
    rfl
  have hsafe₃ := hsafe₂.handOver hij (by rw [hu₂]; rfl) (hsafe₂.lastiovend_ne j) hblocks (by
      rw [← hds]
      intro d hd b hb
      obtain ⟨c, hc, rfl⟩ := List.mem_map.mp hd
      have hcu : c ∈ (w₁.suios j).uiocbs := by
        rw [hu₁]
        exact hc
      have hblock : ∀ a, inBlock b a → a ∈ (around h.prog w₁ i).keep := fun a hab =>
        Or.inr ⟨j, hij.symm, Or.inr (Or.inr ⟨b, mem_owned.mpr (Or.inl
          (mem_condemned.mpr ⟨c, hcu, hb⟩)), hab⟩)⟩
      have hdue : c.nbytes ≤ (h.world.suios j).nrembytes →
          ∀ k, ∀ a ∈ addrs (w₂.suios k).iovs, ¬ inBlock b a := by
        intro hle k a ha hab
        refine hsafe₂.idle j a (Or.inr ⟨c, ?_, b, hb, ?_, hab⟩) k ha
        · rw [hu₂]
          exact hc
        · rw [hu₂]
          exact hle
      have hlate : ∀ a ∈ (addrs (h.world.suios j).iovs).drop
          (c.nbytes - (h.world.suios j).nrembytes), ¬ inBlock b a :=
        hfocus₀.shape.late c hc b hb
      have hall := moved_late ht₂ hlate hdue hblock
        ⟨addrs (h.world.suios i).iovs, hadd.addrs, length_addrs.trans hcount.symm⟩ hmoved
      rw [ht₂, ← hremoved]
      exact hall)
  have htake : (h.world.suios i).take malloc h.world.env (h.world.suios j) =
      some (e', { t with uiocbs := t.uiocbs ++ ds }, (w₂.suios j).emptied) := by
    have happ' : appendIovs malloc (h.world.suios j).defbuf (h.world.suios j).iovs e₀
        (h.world.suios i) = some (e', t) := happ
    rw [hu₂, ← hds, Suio.take, hcond]
    simp only [happ', Option.bind_eq_bind, Option.bind_some]
    rfl
  have hworld : (w₂.set i (w₂.env, { w₂.suios i with uiocbs := (w₂.suios i).uiocbs ++ ds })).set j
      (w₂.env, (w₂.suios j).emptied) =
        (h.world.set i (e', { t with uiocbs := t.uiocbs ++ ds })).set j
          (e', (w₂.suios j).emptied) := by
    rw [he₂, ht₂, ← hw₂, ← hw₁]
    unfold World.set
    dsimp only
    congr 1
    funext k
    by_cases hkj : k = j
    · subst hkj
      rw [Function.update_self, Function.update_self]
    · rw [Function.update_of_ne hkj, Function.update_of_ne hkj]
      by_cases hki : k = i
      · subst hki
        rw [Function.update_self, Function.update_self]
      · rw [Function.update_of_ne hki, Function.update_of_ne hki, Function.update_of_ne hki,
          Function.update_of_ne hkj]
  rw [hworld] at hsafe₃
  have hmem : ∀ k, k ≠ j → ∀ a ∈ addrs (h.world.suios k).iovs, e'.mem a = h.world.env.mem a := by
    intro k hkj a ha
    rw [← hmem₀]
    apply hadd.mem
    by_cases hki : k = i
    · exact Or.inr (hki ▸ ha)
    · refine Or.inl (Or.inr ⟨k, hki, Or.inl ?_⟩)
      rw [← hw₁, World.set_of_ne _ _ hkj]
      exact ha
  have hlenj : (q j).bytes.length = (h.world.suios j).uiobytes := by
    rw [← hh.bytes j, contents, List.length_map, length_addrs, (hh.safe.shape j).count]
  refine ⟨_, _, _, htake, hsafe₃, fun k => ?_, fun k => ?_⟩
  · by_cases hkj : k = j
    · subst hkj
      rw [contents, World.set_self, Function.update_self, ByteQueue.remove, List.drop_length]
      rfl
    · rw [contents, World.set_of_ne _ _ hkj, World.set_env, Function.update_of_ne hkj]
      by_cases hki : k = i
      · subst hki
        have hold : (addrs (h.world.suios k).iovs).map e'.mem = (q k).bytes :=
          (List.map_congr_left (hmem k hkj)).trans (hh.bytes k)
        have hnew : l.map e'.mem = (q j).bytes := by
          rw [← hh.bytes j, contents, ← hmem₀]
          exact hbytes
        rw [World.set_self, Function.update_self, ByteQueue.append, ← hold, ← hnew,
          ← List.map_append]
        exact congrArg _ hadd.addrs
      · rw [World.set_of_ne _ _ hki, Function.update_of_ne hki, ← hh.bytes k]
        exact List.map_congr_left (hmem k hkj)
  · by_cases hkj : k = j
    · subst hkj
      rw [World.set_self, Function.update_self, ByteQueue.remove, hlenj, ← hh.removed k, hu₂]
      rfl
    · rw [World.set_of_ne _ _ hkj, Function.update_of_ne hkj]
      by_cases hki : k = i
      · subst hki
        rw [World.set_self, Function.update_self]
        exact hremoved.trans (hh.removed k)
      · rw [World.set_of_ne _ _ hki, Function.update_of_ne hki]
        exact hh.removed k

theorem Holds.rembytes (hh : Holds h q) {n : ℕ} (hlegal : h.LegalOp (.rembytes i n)) :
    ∃ r, (h.world.suios i).rembytes h.world.env n = some r ∧
      Holds ⟨h.world.set i r, h.prog⟩ (Function.update q i ((q i).remove n)) := by
  obtain ⟨hn, hlent⟩ := hlegal
  obtain ⟨e', s', hrem, hfocus, hmem, haddrs, hremoved, hdefbuf, hheld⟩ :=
    (hh.safe.focus i).rembytes hn fun a ha hret => by
      obtain ⟨k, hk, hbytes⟩ := hh.safe.keep_of_place ((hh.safe.shape i).returns_place hret) ha
      exact hlent k hk a hbytes hret
  have hsafe : Safe h.prog (h.world.set i (e', s')) := by
    apply hfocus.safe hh.safe hdefbuf hheld
    intro a ha
    rw [haddrs] at ha
    exact Or.inr (Or.inr ⟨i, List.mem_of_mem_drop ha⟩)
  refine ⟨_, hrem, hh.others hsafe (fun a _ => congrFun hmem a) ⟨?_, ?_⟩⟩
  · dsimp only [ByteQueue.remove]
    rw [hmem, haddrs, ← hh.bytes i, contents, List.map_drop]
  · dsimp only [ByteQueue.remove]
    rw [hremoved, hh.removed i]

theorem Holds.kept (hh : Holds h q) (hfocus : Focus (around h.prog h.world i) r.1 r.2)
    (hdefbuf : r.2.defbuf = (h.world.suios i).defbuf) (howned : r.2.owned = (h.world.suios i).owned)
    (hmem : r.1.mem = h.world.env.mem) (hiovs : r.2.iovs = (h.world.suios i).iovs)
    (hremoved : r.2.nrembytes = (h.world.suios i).nrembytes) :
    Holds ⟨h.world.set i r, h.prog⟩ q := by
  have hsafe : Safe h.prog (h.world.set i r) := by
    apply hfocus.safe hh.safe hdefbuf
    · intro a _ b hb hab
      exact ⟨b, howned ▸ hb, hab⟩
    · intro a ha
      rw [hiovs] at ha
      exact Or.inr (Or.inr ⟨i, ha⟩)
  have hself : (addrs r.2.iovs).map r.1.mem = (q i).bytes ∧ r.2.nrembytes = (q i).removed := by
    rw [hmem, hiovs, hremoved]
    exact ⟨hh.bytes i, hh.removed i⟩
  have hsame := hh.others hsafe (fun a _ => congrFun hmem a) hself
  rwa [Function.update_eq_self] at hsame

theorem Holds.step (hh : Holds h q) {ev : HostOp ι} (hlegal : h.Legal ev) (hworks : h.Works ev) :
    ∃ h' q', traced (h, q) ev = some (h', q') ∧ Holds h' q' := by
  cases ev with
  | own prog => exact ⟨_, _, rfl, hh.own hlegal⟩
  | call malloc op =>
    obtain ⟨hm, hop⟩ := hlegal
    have hrun : ∀ {i : ι} {f : Option (Env × Suio)} {r : Env × Suio} {q' : ι → ByteQueue},
        f = some r → Suio.step h.world (malloc, op) = f.map (h.world.set i) →
        queueStep h.world.env.mem q op = q' → Holds ⟨h.world.set i r, h.prog⟩ q' →
        ∃ h' q', traced (h, q) (.call malloc op) = some (h', q') ∧ Holds h' q' := by
      intro i f r q' hf hstep hq hholds
      refine ⟨_, q', ?_, hholds⟩
      rw [traced, Host.step, hstep, hf, ← hq]
      rfl
    cases op with
    | copy i buf len =>
      obtain ⟨r, hr, hcopied, -⟩ := (hh.safe.focus i).copy hm hworks buf len
      exact hrun hr rfl rfl (hh.copied hcopied)
    | print i buf len =>
      obtain ⟨r, l, hr, hadd, hbytes, hnew⟩ := (hh.safe.focus i).print hm hworks.1
        (fun a ha => ⟨hop a ha, Or.inl (hop a ha)⟩) hworks.2
      exact hrun hr rfl rfl (hh.added hadd hbytes fun a ha => (hnew a ha).imp_right Or.inl)
    | fill i ch n =>
      obtain ⟨r, hr, hcopied⟩ := (hh.safe.focus i).fill hm hworks ch n
      exact hrun hr rfl rfl (hh.copied hcopied)
    | copyv i iov skip =>
      obtain ⟨r, hr, hcopied⟩ := (hh.safe.focus i).copyv hm hworks hop.1
        fun a ha => Or.inl (hop.2 a ha)
      rw [List.map_drop, ← read_iovecs] at hcopied
      exact hrun hr rfl rfl (hh.copied hcopied)
    | copyu i j =>
      have hij : i ≠ j := hop
      obtain ⟨r, hr, hcopied⟩ := (hh.safe.focus i).copyv hm hworks (Nat.zero_le _)
        fun a ha => Or.inr ⟨j, hij.symm, Or.inl ha⟩
      rw [List.drop_zero] at hcopied
      have hbytes := hh.bytes j
      rw [contents] at hbytes
      rw [hbytes] at hcopied
      exact hrun hr (if_neg hij) rfl (hh.copied hcopied)
    | take i j =>
      obtain ⟨e', s', uio', htake, hholds⟩ := hh.take hm hop hworks
      refine ⟨_, _, ?_, hholds⟩
      rw [traced, Host.step, Suio.step, if_neg hop.1, htake]
      rfl
    | borrowData i j =>
      obtain ⟨r, hr, hholds⟩ := hh.borrowData hm hop hworks
      exact hrun hr (if_neg hop.1) rfl hholds
    | iovcb i id =>
      obtain ⟨hfocus, howned⟩ := (hh.safe.focus i).iovcb id
      refine hrun (r := (h.world.suios i).iovcb h.world.env (.wrap id)) rfl rfl rfl
        (hh.kept hfocus ?_ howned ?_ ?_ ?_)
      all_goals
        unfold iovcb
        split <;> rfl
    | breakiov i =>
      exact hrun (r := (h.world.env, (h.world.suios i).breakiov)) rfl rfl rfl
        (hh.kept (hh.safe.focus i).breakiov rfl rfl rfl rfl rfl)
    | rembytes i n =>
      obtain ⟨r, hr, hholds⟩ := hh.rembytes hop
      exact hrun hr rfl rfl hholds
    | write a bs => exact ⟨_, _, rfl, hh.write hop⟩
    | clear i => exact hop.elim
    | getspace i n => exact hop.elim
    | getspaceAligned i n => exact hop.elim
    | input i len bs => exact hop.elim

/-- As long as nothing is pushed at a pointer that `take` has left over or at the end of a full
scratch buffer, every operation succeeds, and the suios are queues of bytes: the iovecs have what
was appended without what was removed, `resid` and `byteno` count it, and `copyout` gives its
beginning. -/
theorem suio_byte_queue (defbuf : ι → ℕ) (mem : Mem) (prog : Set ℕ) (hdefbuf : ∀ k, 0 < defbuf k)
    (hplaced : ∀ i k, i ≠ k →
      defbuf i + smallbufsize < defbuf k ∨ defbuf k + smallbufsize < defbuf i)
    (hzero : 0 ∉ prog)
    (hprog : ∀ a ∈ prog, ∀ k, ¬(defbuf k ≤ a + 1 ∧ a < defbuf k + smallbufsize))
    (evs : List (HostOp ι)) (h : Host ι) (q : ι → ByteQueue)
    (hrun : Run traced (fun r ev => r.1.Legal ev ∧ r.1.Works ev)
      (start defbuf mem prog, fun _ => .empty) evs (h, q)) :
    (∀ k, h.contents k = (q k).bytes ∧
      (h.world.suios k).uiobytes = (q k).bytes.length ∧
      (h.world.suios k).nrembytes = (q k).removed ∧
      ((q k).bytes = [] → (h.world.suios k).iovs = []) ∧
      ∀ len, copyout h.world.env.mem (h.world.suios k).iovs len = (q k).bytes.take len) ∧
    ∀ ev, h.Legal ev → h.Works ev → ∃ r, traced (h, q) ev = some r := by
  have hholds : Holds h q := hrun.invariant (I := fun r => Holds r.1 r.2)
    (holds_start hdefbuf hplaced hzero hprog) fun a ev b ha hcond hstep => by
    obtain ⟨h', q', hstep', hh⟩ := ha.step hcond.1 hcond.2
    rwa [← Option.some.inj (hstep'.symm.trans hstep)]
  refine ⟨fun k => ?_, fun ev hlegal hworks => ?_⟩
  · have hshape := hholds.safe.shape k
    have hbytes := hholds.bytes k
    have hlen : (h.world.suios k).uiobytes = (q k).bytes.length := by
      rw [← hbytes, contents, List.length_map, length_addrs, hshape.count]
    refine ⟨hbytes, hlen, hholds.removed k, fun hnil => ?_, fun len => ?_⟩
    · apply hshape.iovs_nil
      rw [hlen, hnil, List.length_nil]
    · rw [copyout_eq, List.map_take, ← hbytes]
      rfl
  · obtain ⟨h', q', hstep, -⟩ := hholds.step hlegal hworks
    exact ⟨_, hstep⟩

end Host

end

/-- An allocator that answers above everything that is in use. -/
def topMalloc (floor : ℕ) : Malloc := fun live _ =>
  live.foldr (fun b m => max m (b.1 + b.2 + 2)) floor

theorem le_topMalloc (floor : ℕ) (live : List Block) (size : ℕ) :
    floor ≤ topMalloc floor live size ∧ ∀ b ∈ live, b.1 + b.2 + 2 ≤ topMalloc floor live size := by
  unfold topMalloc
  induction live with
  | nil => exact ⟨Nat.le_refl _, fun b hb => absurd hb List.not_mem_nil⟩
  | cons b live ih =>
    rw [List.foldr_cons]
    refine ⟨Nat.le_trans ih.1 (Nat.le_max_left _ _), fun b' hb' => ?_⟩
    rcases List.mem_cons.mp hb' with rfl | hb'
    · exact Nat.le_max_right _ _
    · exact Nat.le_trans (ih.2 b' hb') (Nat.le_max_left _ _)

theorem topMalloc_fits {prog objs : Set ℕ} {floor : ℕ} (hfloor : 0 < floor)
    (hprog : ∀ a ∈ prog, a + 1 < floor) (hobjs : ∀ a ∈ objs, a + 1 < floor) :
    Fits prog objs (topMalloc floor) := by
  intro live size
  obtain ⟨hle, hblocks⟩ := le_topMalloc floor live size
  refine ⟨by omega, fun a hlo _ => ⟨fun ha => ?_, fun ha => ?_, ?_⟩⟩
  · have hlt := hprog a ha
    omega
  · have hlt := hobjs a ha
    omega
  · rintro b hb ⟨-, hlt⟩
    have hle := hblocks b hb
    omega

/-- Two objects and a thousand bytes of memory, in which each byte says where it is. -/
def byteAt : Mem := fun a => BitVec.ofNat 8 a

def ownBytes : Set ℕ := {a | 1000 ≤ a ∧ a < 2000}

def twoHosts : Host Bool := Host.start (fun k => if k then 512 else 256) byteAt ownBytes

theorem top_fits {h : Host Bool} (hprog : h.prog = ownBytes)
    (htrue : (h.world.suios true).defbuf = 512) (hfalse : (h.world.suios false).defbuf = 256) :
    Fits h.prog (objects h.world) (topMalloc 5000) := by
  apply topMalloc_fits (by decide)
  · intro a ha
    rw [hprog] at ha
    exact Nat.lt_trans (Nat.succ_lt_succ ha.2) (by decide)
  · rintro a ⟨k, -, hlt⟩
    cases k with
    | true =>
      rw [htrue, smallbufsize] at hlt
      omega
    | false =>
      rw [hfalse, smallbufsize] at hlt
      omega

theorem top_fresh {s : Suio} (hlast : s.lastiovend < 5000) : Fresh (topMalloc 5000) s := by
  intro _ live size heq
  have hle := (le_topMalloc 5000 live size).1
  omega

theorem twoHosts_taken : ∃ h q, Run Host.traced (fun r ev => r.1.Legal ev ∧ r.1.Works ev)
      (twoHosts, fun _ => .empty)
      [.call (topMalloc 5000) (.fill true 7 3), .call (topMalloc 5000) (.copy false 1000 2),
        .call (topMalloc 5000) (.take true false), .call (topMalloc 5000) (.rembytes true 4)]
      (h, q) ∧ (q true).bytes = [233] ∧ (q true).removed = 4 ∧ (q false).bytes = [] := by
  refine ⟨_, _, .cons ?_ rfl (.cons ?_ rfl (.cons ?_ rfl (.cons ?_ rfl (.nil _)))), ?_, ?_, ?_⟩
  · exact ⟨⟨top_fits rfl rfl rfl, trivial⟩, top_fresh (by decide)⟩
  · refine ⟨⟨top_fits rfl rfl rfl, fun a ha => ?_⟩, top_fresh (by decide)⟩
    rw [List.mem_range'_1] at ha
    exact ⟨ha.1, by omega⟩
  · exact ⟨⟨top_fits rfl rfl rfl, by decide, fun a _ b hb => absurd hb List.not_mem_nil⟩,
      top_fresh (of_decide_eq_true rfl), RefsApart.of_inside (of_decide_eq_true rfl),
      of_decide_eq_true rfl⟩
  · refine ⟨⟨top_fits rfl rfl rfl, of_decide_eq_true rfl, fun k hk a ha => ?_⟩, trivial⟩
    cases k with
    | true => exact absurd rfl hk
    | false => exact absurd ha List.not_mem_nil
  · decide
  · decide
  · decide

theorem suio_byte_queue_taken : ∃ h q, Run Host.traced (fun r ev => r.1.Legal ev ∧ r.1.Works ev)
      (twoHosts, fun _ => .empty)
      [.call (topMalloc 5000) (.fill true 7 3), .call (topMalloc 5000) (.copy false 1000 2),
        .call (topMalloc 5000) (.take true false), .call (topMalloc 5000) (.rembytes true 4)]
      (h, q) ∧
    h.contents true = [233] ∧ (h.world.suios true).uiobytes = 1 ∧
    (h.world.suios true).nrembytes = 4 ∧ (h.world.suios false).iovs = [] := by
  obtain ⟨h, q, hrun, hbytes, hremoved, hnil⟩ := twoHosts_taken
  have hqueue := (Host.suio_byte_queue _ byteAt ownBytes (by decide) (by decide)
    (fun hzero => absurd hzero.1 (by decide)) (fun a ha k => ?_) _ h q hrun).1
  · obtain ⟨hcontents, hresid, hbyteno, -⟩ := hqueue true
    refine ⟨h, q, hrun, hcontents.trans hbytes, ?_, hbyteno.trans hremoved, ?_⟩
    · rw [hresid, hbytes]
      rfl
    · exact (hqueue false).2.2.2.1 hnil
  · have hlow := ha.1
    have hk : (if k = true then 512 else 256) + smallbufsize ≤ 640 := by cases k <;> decide
    omega

/-- After a `take` the other suio is empty, but more bytes cannot be pushed behind those that it
had. -/
theorem suio_byte_queue_stale : ∃ r, Run Host.traced (fun r ev => r.1.Legal ev)
      (twoHosts, fun _ => .empty)
      [.call (topMalloc 5000) (.print false 1000 200), .call (topMalloc 5000) (.take true false)] r ∧
    (r.1.world.suios false).iovs = [] ∧
    r.1.Legal (.call (topMalloc 5000) (.print false 1200 200)) ∧
    Host.traced r (.call (topMalloc 5000) (.print false 1200 200)) = none := by
  have hprint : ∀ buf, 1000 ≤ buf → buf ≤ 1800 → ∀ a ∈ List.range' buf 200, a ∈ ownBytes := by
    intro buf hlo hhi a ha
    rw [List.mem_range'_1] at ha
    exact ⟨by omega, by omega⟩
  refine ⟨_, .cons ⟨?_, ?_⟩ rfl (.cons ⟨?_, ?_⟩ rfl (.nil _)), rfl, ⟨?_, ?_⟩, rfl⟩
  · exact top_fits rfl rfl rfl
  · exact hprint 1000 (by decide) (by decide)
  · exact top_fits rfl rfl rfl
  · exact ⟨by decide, fun a _ b hb => absurd hb List.not_mem_nil⟩
  · exact top_fits rfl rfl rfl
  · exact hprint 1200 (by decide) (by decide)

end Sfslite.Async.Suio
