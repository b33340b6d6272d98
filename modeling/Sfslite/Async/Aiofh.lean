import Mathlib.Data.List.Nodup

/-!
The file handles of `aiod`: the objects of the client in `aio.C`, and the tables of the daemons in
`aiod.C`. Operations go to whichever daemon reads the shared pipe first, a close to each daemon by a
socket of its own. An `aiod` that has failed opens nothing any more and is left out.
-/

namespace Sfslite.Async.Aiofh

/-- `AIOD_OPEN` and `AIOD_OPENDIR`, `AIOD_CLOSE` and `AIOD_CLOSEDIR`, and the other operations of
an open file or directory. -/
inductive Op
  | opens
  | closes
  | uses
deriving DecidableEq

/-- A request; `pos` is where the `aiod_file` of the handle is, and `id` the object that sent it. -/
structure Msg where
  op : Op
  dir : Bool
  pos : ℕ
  id : ℕ
deriving DecidableEq

/-- An `aiod_file` in the shared memory. `ident` are the device and the inode, which the daemon that
opens the file fills in, and `id` is the object that the record was written for. -/
structure AiodFile (π ι : Type) where
  handle : ℕ
  path : π
  ident : Option ι
  id : ℕ
deriving DecidableEq

/-- A `fh` in the table of a daemon: what it is compared by, and the object it was opened for. -/
structure Ent (κ : Type) where
  id : ℕ
  key : κ
deriving DecidableEq

/-- `qhash<int, ref<fh> >`. -/
abbrev Tab (κ : Type) := ℕ → Option (Ent κ)

section Model

variable {π ι : Type} [DecidableEq π] [DecidableEq ι]

namespace Fhtab

/-- `fhtab::alloc`, where `res` is the file that `open` and `fstat` find, if they do. -/
def alloc (t : Tab ι) (af : AiodFile π ι) (create : Bool) (res : Option ι) : Tab ι × AiodFile π ι :=
  match res with
  | none => (Function.update t af.handle none, af)
  | some i =>
    if create then
      (Function.update t af.handle (some ⟨af.id, i⟩), { af with ident := some i })
    else if af.ident = some i then (Function.update t af.handle (some ⟨af.id, i⟩), af)
    else (Function.update t af.handle none, af)

def lookup (t : Tab ι) (af : AiodFile π ι) (res : Option ι) : Tab ι × AiodFile π ι :=
  match t af.handle with
  | none => alloc t af false res
  | some h =>
    if af.ident = some h.key then (t, af)
    else alloc (Function.update t af.handle none) af false res

end Fhtab

namespace Dhtab

/-- `dhtab::alloc`, where `res` says whether `opendir` succeeds. -/
def alloc (t : Tab π) (af : AiodFile π ι) (res : Bool) : Tab π :=
  if res then Function.update t af.handle (some ⟨af.id, af.path⟩)
  else Function.update t af.handle none

def lookup (t : Tab π) (af : AiodFile π ι) (res : Bool) : Tab π :=
  match t af.handle with
  | none => alloc t af res
  | some h =>
    if af.path = h.key then t else alloc (Function.update t af.handle none) af res

end Dhtab

/-- A daemon: its tables, the requests on its socket and the answers it has sent. `closed` are the
objects whose close it has processed. -/
structure Daemon (π ι : Type) where
  fht : Tab ι
  dht : Tab π
  sock : List Msg
  back : List (Msg × Bool)
  closed : ℕ → Bool

namespace Daemon

/-- `aiosrv::fhop` and `aiosrv::dhop`: the daemon, the record, and whether an open succeeded. -/
def getmsg (d : Daemon π ι) (m : Msg) (af : AiodFile π ι) (res : Option ι) :
    Daemon π ι × AiodFile π ι :=
  match m.op, m.dir with
  | .opens, false =>
    let r := Fhtab.alloc d.fht af true res
    ({ d with fht := r.1, back := d.back ++ [(m, res.isSome)] }, r.2)
  | .opens, true =>
    ({ d with dht := Dhtab.alloc d.dht af res.isSome, back := d.back ++ [(m, res.isSome)] }, af)
  | .closes, false =>
    ({ d with
      fht := Function.update d.fht af.handle none
      back := d.back ++ [(m, true)]
      closed := Function.update d.closed m.id true }, af)
  | .closes, true =>
    ({ d with
      dht := Function.update d.dht af.handle none
      back := d.back ++ [(m, true)]
      closed := Function.update d.closed m.id true }, af)
  | .uses, false =>
    let r := Fhtab.lookup d.fht af res
    ({ d with fht := r.1, back := d.back ++ [(m, true)] }, r.2)
  | .uses, true =>
    ({ d with dht := Dhtab.lookup d.dht af res.isSome, back := d.back ++ [(m, true)] }, af)

/-- The entry that a close takes out of its table. -/
def taken (d : Daemon π ι) (m : Msg) (af : AiodFile π ι) : Option ℕ :=
  if m.dir then (d.dht af.handle).map (·.id) else (d.fht af.handle).map (·.id)

end Daemon

/-- An `aiofh`; `given` says that the callback of its open has handed it out. -/
structure Fh where
  fhno : ℕ
  pos : ℕ
  isdir : Bool
  closed : Bool
  given : Bool
deriving DecidableEq

/-- The state: the objects made so far by number, those of them that exist, the closes that wait
for a buffer, and the shared memory. -/
structure Aiod (π ι : Type) where
  fh : ℕ → Fh
  born : ℕ
  alive : List ℕ
  waiting : List ℕ
  fhnoCtr : ℕ
  fhnoAvail : List ℕ
  shm : ℕ → Option (AiodFile π ι)
  pipe : List Msg
  dv : ℕ → Daemon π ι

namespace Aiod

def start : Aiod π ι :=
  { fh := fun _ => ⟨0, 0, false, false, false⟩, born := 0, alive := [], waiting := [],
    fhnoCtr := 1, fhnoAvail := [], shm := fun _ => none, pipe := [],
    dv := fun _ => ⟨fun _ => none, fun _ => none, [], [], fun _ => false⟩ }

/-- `fhno_alloc`: the number and the state after it. -/
def fhnoAlloc (s : Aiod π ι) : ℕ × Aiod π ι :=
  match s.fhnoAvail.getLast? with
  | none => (s.fhnoCtr, { s with fhnoCtr := s.fhnoCtr + 1 })
  | some n => (n, { s with fhnoAvail := s.fhnoAvail.dropLast })

def fhnoFree (s : Aiod π ι) (n : ℕ) : Aiod π ι := { s with fhnoAvail := s.fhnoAvail ++ [n] }

/-- The pending callbacks of opens and operations, and the closes that wait, hold a reference. -/
def held (N : ℕ) (s : Aiod π ι) (x : ℕ) : Bool :=
  s.pipe.any (·.id = x) || s.waiting.contains x ||
    (List.range N).any fun d => (s.dv d).back.any fun a => a.1.op ≠ .closes ∧ a.1.id = x

def broadcast (N : ℕ) (s : Aiod π ι) (x : ℕ) : Aiod π ι :=
  { s with dv := fun d =>
    if d < N then
      { s.dv d with sock := (s.dv d).sock ++ [⟨.closes, (s.fh x).isdir, (s.fh x).pos, x⟩] }
    else s.dv d }

/-- `aiofh::sendclose`; `avail` says whether there is a buffer for the request. -/
def sendclose (N : ℕ) (s : Aiod π ι) (x : ℕ) (avail : Bool) : Aiod π ι :=
  let s' := { s with fh := Function.update s.fh x { s.fh x with closed := true } }
  if avail then s'.broadcast N x else { s' with waiting := x :: s'.waiting }

end Aiod

/-- What can happen: an open with its buffer at `pos`, an operation, a close, a close that tries
again for a buffer, the end of an object, a message that a daemon reads from the pipe or from its
socket, an answer that the client reads, and other data in a buffer that was given back. -/
inductive Event (π ι : Type)
  | opens (dir : Bool) (path : π) (pos : ℕ)
  | uses (x : ℕ) (dir : Bool)
  | closes (x : ℕ) (avail : Bool)
  | retry (x : ℕ) (avail : Bool)
  | destroy (x : ℕ) (avail : Bool)
  | pipe (d : ℕ) (res : Option ι)
  | sock (d : ℕ) (res : Option ι)
  | answer (d : ℕ)
  | reuse (pos : ℕ) (af : AiodFile π ι)

open Aiod in
/-- One event; `N` is the number of daemons. It answers `none` where the event cannot happen, and
where a destructor hands out a reference to its object. -/
def step (N : ℕ) (s : Aiod π ι) : Event π ι → Option (Aiod π ι)
  | .opens dir path pos =>
    if s.alive.any fun x => (s.fh x).pos = pos then none
    else
      let (n, s') := s.fhnoAlloc
      some { s' with
        fh := Function.update s.fh s.born ⟨n, pos, dir, false, false⟩
        born := s.born + 1
        alive := s.born :: s.alive
        shm := Function.update s.shm pos (some ⟨n, path, none, s.born⟩)
        pipe := s.pipe ++ [⟨.opens, dir, pos, s.born⟩] }
  | .uses x dir =>
    if x ∈ s.alive ∧ (s.fh x).given then
      if (s.fh x).closed then some s
      else some { s with pipe := s.pipe ++ [⟨.uses, dir, (s.fh x).pos, x⟩] }
    else none
  | .closes x avail =>
    if x ∈ s.alive ∧ (s.fh x).given then
      if (s.fh x).closed then some s else some (s.sendclose N x avail)
    else none
  | .retry x avail =>
    if x ∈ s.waiting then
      some ({ s with waiting := s.waiting.erase x }.sendclose N x avail)
    else none
  | .destroy x avail =>
    if x ∈ s.alive ∧ ¬ s.held N x then
      let gone := { s with alive := s.alive.erase x }
      if (s.fh x).closed then some (gone.fhnoFree (s.fh x).fhno)
      else if avail then some ((gone.sendclose N x true).fhnoFree (s.fh x).fhno)
      else none
    else none
  | .pipe d res =>
    match s.pipe with
    | m :: rest =>
      if d < N then
        (s.shm m.pos).map fun af =>
          let r := (s.dv d).getmsg m af res
          { s with
            pipe := rest
            dv := Function.update s.dv d r.1
            shm := Function.update s.shm m.pos (some r.2) }
      else none
    | [] => none
  | .sock d res =>
    match (s.dv d).sock with
    | m :: rest =>
      if d < N then
        (s.shm m.pos).map fun af =>
          let r := { s.dv d with sock := rest }.getmsg m af res
          { s with
            dv := Function.update s.dv d r.1
            shm := Function.update s.shm m.pos (some r.2) }
      else none
    | [] => none
  | .answer d =>
    match (s.dv d).back with
    | (m, ok) :: rest =>
      if d < N then
        some { s with
          dv := Function.update s.dv d { s.dv d with back := rest }
          fh :=
            if m.op = .opens ∧ ok then
              Function.update s.fh m.id { s.fh m.id with given := true }
            else s.fh }
      else none
    | [] => none
  | .reuse pos af =>
    if s.alive.any fun x => (s.fh x).pos = pos then none
    else some { s with shm := Function.update s.shm pos (some af) }

/-- An object is destroyed only after every daemon has processed its close. -/
def Fine (N : ℕ) (s : Aiod π ι) : Event π ι → Prop
  | .destroy x _ => ∀ d < N, (s.dv d).closed x
  | _ => True

instance (N : ℕ) (s : Aiod π ι) : (e : Event π ι) → Decidable (Fine N s e)
  | .destroy x _ => inferInstanceAs (Decidable (∀ d < N, (s.dv d).closed x))
  | .opens .. => .isTrue trivial
  | .uses .. => .isTrue trivial
  | .closes .. => .isTrue trivial
  | .retry .. => .isTrue trivial
  | .pipe .. => .isTrue trivial
  | .sock .. => .isTrue trivial
  | .answer _ => .isTrue trivial
  | .reuse .. => .isTrue trivial

end Model

variable {π ι : Type}

section Tables

variable {κ : Type} {t : Tab κ} {h n : ℕ} {e : Ent κ}

theorem update_none (he : Function.update t h none n = some e) : t n = some e := by
  by_cases hn : n = h
  · subst hn
    rw [Function.update_self] at he
    cases he
  · rwa [Function.update_of_ne hn] at he

theorem update_ent {i : ℕ} {k : κ} (he : Function.update t h (some ⟨i, k⟩) n = some e) :
    t n = some e ∨ (n = h ∧ e.id = i) := by
  by_cases hn : n = h
  · subst hn
    rw [Function.update_self] at he
    cases he
    exact .inr ⟨rfl, rfl⟩
  · rw [Function.update_of_ne hn] at he
    exact .inl he

end Tables

section Fhtab

variable [DecidableEq ι] {t : Tab ι} {af : AiodFile π ι} {res : Option ι} {n : ℕ} {e : Ent ι}

theorem Fhtab.alloc_entry {create : Bool} (h : (alloc t af create res).1 n = some e) :
    t n = some e ∨ (n = af.handle ∧ e.id = af.id) := by
  cases res with
  | none => exact .inl (update_none h)
  | some i =>
    simp only [alloc] at h
    split_ifs at h
    · exact update_ent h
    · exact update_ent h
    · exact .inl (update_none h)

theorem Fhtab.lookup_entry (h : (lookup t af res).1 n = some e) :
    t n = some e ∨ (n = af.handle ∧ e.id = af.id) := by
  rw [lookup] at h
  cases hold : t af.handle with
  | none =>
    simp only [hold] at h
    exact alloc_entry h
  | some old =>
    simp only [hold] at h
    split_ifs at h
    · exact .inl h
    · exact (alloc_entry h).imp_left update_none

theorem Fhtab.alloc_record (t : Tab ι) (af : AiodFile π ι) (create : Bool) (res : Option ι) :
    (alloc t af create res).2.handle = af.handle ∧ (alloc t af create res).2.id = af.id := by
  cases res with
  | none => exact ⟨rfl, rfl⟩
  | some i =>
    simp only [alloc]
    split_ifs <;> exact ⟨rfl, rfl⟩

theorem Fhtab.lookup_record (t : Tab ι) (af : AiodFile π ι) (res : Option ι) :
    (lookup t af res).2.handle = af.handle ∧ (lookup t af res).2.id = af.id := by
  rw [lookup]
  split
  · exact alloc_record _ _ _ _
  · split_ifs
    · exact ⟨rfl, rfl⟩
    · exact alloc_record _ _ _ _

end Fhtab

section Dhtab

variable {t : Tab π} {af : AiodFile π ι} {res : Bool} {n : ℕ} {e : Ent π}

theorem Dhtab.alloc_entry (h : alloc t af res n = some e) :
    t n = some e ∨ (n = af.handle ∧ e.id = af.id) := by
  rw [alloc] at h
  split_ifs at h
  · exact update_ent h
  · exact .inl (update_none h)

theorem Dhtab.lookup_entry [DecidableEq π] (h : lookup t af res n = some e) :
    t n = some e ∨ (n = af.handle ∧ e.id = af.id) := by
  rw [lookup] at h
  cases hold : t af.handle with
  | none =>
    simp only [hold] at h
    exact alloc_entry h
  | some old =>
    simp only [hold] at h
    split_ifs at h
    · exact .inl h
    · exact (alloc_entry h).imp_left update_none

end Dhtab

/-- What a daemon does with a request: the socket stays, an entry that is new is that of the
record, and a close is noted. -/
structure Processed (d : Daemon π ι) (m : Msg) (af : AiodFile π ι)
    (r : Daemon π ι × AiodFile π ι) : Prop where
  sock : r.1.sock = d.sock
  closed : r.1.closed = if m.op = .closes then Function.update d.closed m.id true else d.closed
  fht : ∀ n e, r.1.fht n = some e → d.fht n = some e ∨ (n = af.handle ∧ e.id = af.id)
  dht : ∀ n e, r.1.dht n = some e → d.dht n = some e ∨ (n = af.handle ∧ e.id = af.id)
  handle : r.2.handle = af.handle
  id : r.2.id = af.id

theorem getmsg_processed [DecidableEq π] [DecidableEq ι] (d : Daemon π ι) (m : Msg)
    (af : AiodFile π ι) (res : Option ι) : Processed d m af (d.getmsg m af res) := by
  obtain ⟨op, dir, pos, id⟩ := m
  cases op with
  | opens =>
    cases dir with
    | false =>
      have hrec := Fhtab.alloc_record d.fht af true res
      exact ⟨rfl, rfl, fun _ _ => Fhtab.alloc_entry, fun _ _ => .inl, hrec.1, hrec.2⟩
    | true => exact ⟨rfl, rfl, fun _ _ => .inl, fun _ _ => Dhtab.alloc_entry, rfl, rfl⟩
  | closes =>
    cases dir with
    | false => exact ⟨rfl, rfl, fun _ _ h => .inl (update_none h), fun _ _ => .inl, rfl, rfl⟩
    | true => exact ⟨rfl, rfl, fun _ _ => .inl, fun _ _ h => .inl (update_none h), rfl, rfl⟩
  | uses =>
    cases dir with
    | false =>
      have hrec := Fhtab.lookup_record d.fht af res
      exact ⟨rfl, rfl, fun _ _ => Fhtab.lookup_entry, fun _ _ => .inl, hrec.1, hrec.2⟩
    | true => exact ⟨rfl, rfl, fun _ _ => .inl, fun _ _ => Dhtab.lookup_entry, rfl, rfl⟩

end Sfslite.Async.Aiofh
