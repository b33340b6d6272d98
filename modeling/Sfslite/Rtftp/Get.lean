import Sfslite.Rtftp.PutRun

/-!
A client that gets a file, as `get2_cli_t` of `cli.T` does, with its calls on the way to the
server and the answers on the way back. Other events of the server come in between.
-/

namespace Sfslite.Rtftp

open Sfslite.Arpc Sfslite.Lib

/-- `RC_OK`, `RC_EXISTS` and the negative `RC_ERR` and `RC_ERPC`. -/
inductive Rc where
  | ok
  | exist
  | err
  | erpc
  deriving DecidableEq, Repr

def Rc.failed : Rc → Bool
  | .err | .erpc => true
  | _ => false

inductive Phase where
  | start
  | request
  | transfer
  | eof
  | done
  deriving DecidableEq, Repr

/-- `get2_cli_t` with the variables of `transfer_file`: `ids` slots of the window are free,
`out` is in the local file. -/
structure GetCli (S : Sha1) where
  file : RtftpId
  chunkSz : ℕ
  windowSz : ℕ
  phase : Phase
  id : ℕ
  sz : ℕ
  hsh : Hash
  ids : ℕ
  nbrq : ℕ
  nbrc : ℕ
  cr : ℕ
  cs : ℕ
  ctx : S.Ctx
  out : List Byte
  rc : Rc

namespace GetCli

variable {S : Sha1}

def new (S : Sha1) (file : RtftpId) (chunkSz windowSz : ℕ) : GetCli S where
  file := file
  chunkSz := chunkSz
  windowSz := windowSz
  phase := .start
  id := 0
  sz := 0
  hsh := Hash.zero
  ids := windowSz
  nbrq := 0
  nbrc := 0
  cr := 0
  cs := 0
  ctx := S.init
  out := []
  rc := .ok

/-- The loop of `transfer_file` goes on. -/
def Looping (g : GetCli S) : Prop := (g.nbrq < g.sz ∨ g.ids < g.windowSz) ∧ g.rc.failed = false

/-- It requests a chunk, and waits for one otherwise. -/
def Sending (g : GetCli S) : Prop := 0 < g.ids ∧ g.nbrq < g.sz

instance (g : GetCli S) : Decidable g.Looping := inferInstanceAs (Decidable (_ ∧ _))
instance (g : GetCli S) : Decidable g.Sending := inferInstanceAs (Decidable (_ ∧ _))

/-- The call that the client makes next; `none` where it waits or stops at an assertion. -/
def send (g : GetCli S) : Option (GetCli S × Get2Arg) :=
  match g.phase with
  | .start => some ({ g with phase := .request }, .begin g.file)
  | .transfer =>
    if g.Looping then
      -- assert (cr <= cs)
      if g.cr ≤ g.cs ∧ g.Sending then
        let size := BitVec.ofNat 32 g.chunkSz
        some ({ g with ids := g.ids - 1, nbrq := g.nbrq + size.toNat, cs := g.cs + 1 },
          .ok ⟨g.id, BitVec.ofNat 32 g.nbrq, size⟩)
      else none
    -- assert (cr == cs); assert (nbrq >= _sz); assert (ids.size () == wsz)
    else if g.rc = .ok ∧ ¬ (g.cr = g.cs ∧ g.sz ≤ g.nbrq ∧ g.ids = g.windowSz) then none
    else some ({ g with phase := .eof }, .eof g.id)
  | _ => none

/-- The answer to `request_file`; the local file is opened with `O_TRUNC`. Where this fails
`perform_T` leaves the result as it is. -/
def header (g : GetCli S) (stat : Bool) (io : Io) : Get2Res → GetCli S
  | .begin h =>
    if stat = false then { g with phase := .done, rc := .erpc }
    else if io.openOk then
      { g with phase := .transfer, id := h.xferId, sz := h.size.toNat, hsh := h.hash }
    else { g with phase := .done }
  | res =>
    { g with phase := .done
             rc := if stat = false then .erpc
                   else if res = .status .noent then .exist else .err }

/-- One answer in the loop of `transfer_file`. -/
def chunk (g : GetCli S) (stat : Bool) (io : Io) (res : Get2Res) : GetCli S :=
  let g := { g with cr := g.cr + 1, ids := g.ids + 1 }
  if stat = false then { g with rc := .erpc }
  else
    match res with
    | .ok chunk =>
      if chunk.id.xferId ≠ g.id then { g with rc := .err }
      else if chunk.id.offset.toNat ≠ g.nbrc then { g with rc := .err }
      else
        match io.rw₁.count chunk.data.length with
        | none => { g with rc := .err }
        | some n =>
          let g := { g with out := g.out ++ chunk.data.take n }
          if n ≠ chunk.data.length then { g with rc := .err }
          else { g with ctx := S.update g.ctx chunk.data,
                        nbrc := g.nbrc + chunk.data.length }
    | _ => { g with rc := .err }

def checkFile (g : GetCli S) : Bool := g.nbrc = g.sz ∧ (S.final g.ctx).2 = g.hsh

/-- The end of `transfer_file` and of `perform_T`: the answer to the last call does not count. -/
def finish (g : GetCli S) : GetCli S :=
  { g with phase := .done, rc := if g.rc.failed ∨ g.checkFile then g.rc else .err }

/-- The client receives the answer `res` to its call `arg`, or the failure of the call. -/
def recv (g : GetCli S) (arg : Get2Arg) (res : Get2Res) (stat : Bool) (io : Io) :
    Option (GetCli S) :=
  match g.phase with
  | .request => some (g.header stat io res)
  | .transfer =>
    if g.Looping ∧ ¬ g.Sending ∧ g.cr ≤ g.cs then some (g.chunk stat io res) else none
  | .eof =>
    match arg with
    | .eof _ => some g.finish
    | _ => some g  -- rv.cancel ()
  | _ => none

end GetCli

/-- The server and a client `cid` that gets a file, with what is on the way. -/
structure Sys (S : Sha1) where
  w : World S
  cid : ℕ
  g : GetCli S
  reqs : List Get2Arg
  ress : List (Get2Arg × Get2Res)

inductive SysEvent where
  | other (e : Event)
  | send
  | serve (io : Io)
  | recv (stat : Bool) (io : Io)

/-- The event is one of the exchange. -/
def SysEvent.Own : SysEvent → Prop
  | .other _ => False
  | _ => True

/-- The event is not of the client `cid`, begins no transfer of `n` and is not for `tid`. -/
def Event.Apart (cid : ℕ) (n : RtftpId) (tid : ℕ × ℕ) : Event → Prop
  | .newcli => True
  | .hangup c _ => c ≠ cid
  | .call c (.get2 _) _ => c ≠ cid
  | .call c (.put2 (.begin name)) _ => c ≠ cid ∧ name ≠ n
  | .call c (.put2 (.ok data)) _ => c ≠ cid ∧ (c, data.id.xferId) ≠ tid
  | .call c (.put2 (.eof footer)) _ => c ≠ cid ∧ (c, footer.xferId) ≠ tid
  | .call c (.put2 .other) _ => c ≠ cid

namespace Sys

variable {S : Sha1}

def init (w : World S) (cid : ℕ) (n : RtftpId) (chunkSz windowSz : ℕ) : Sys S :=
  ⟨w, cid, GetCli.new S n chunkSz windowSz, [], []⟩

def step (s : Sys S) : SysEvent → Option (Sys S)
  | .other e => (s.w.step e).map fun w => { s with w := w }
  | .send => s.g.send.map fun (g, arg) => { s with g := g, reqs := s.reqs ++ [arg] }
  | .serve io =>
    match s.reqs with
    | [] => none
    | arg :: reqs =>
      match s.w.exec (.call s.cid (.get2 arg) io) with
      | some (w, .get2 res) =>
        some { s with w := w, reqs := reqs, ress := s.ress ++ [(arg, res)] }
      | _ => none
  | .recv stat io =>
    match s.ress with
    | [] => none
    | (arg, res) :: ress =>
      (s.g.recv arg res stat io).map fun g => { s with g := g, ress := ress }

/-- What the exchange relies on: calls and input and output succeed, and nothing else is
sent for the transfer `tid` or begun on its name `n`. -/
def Quiet (n : RtftpId) (tid : ℕ × ℕ) (s : Sys S) : SysEvent → Prop
  | .other e => s.w.Clean e ∧ e.Apart s.cid n tid
  | .send => True
  | .serve io => io.openOk = true ∧ io.rw₁ = .full ∧ io.rw₂ = .full
  | .recv stat io => stat = true ∧ io.openOk = true ∧ io.rw₁ = .full

instance (cid : ℕ) (n : RtftpId) (tid : ℕ × ℕ) : (e : Event) → Decidable (e.Apart cid n tid)
  | .newcli => isTrue trivial
  | .hangup _ _ => inferInstanceAs (Decidable (_ ≠ _))
  | .call _ (.get2 _) _ => inferInstanceAs (Decidable (_ ≠ _))
  | .call _ (.put2 (.begin _)) _ => inferInstanceAs (Decidable (_ ≠ _ ∧ _ ≠ _))
  | .call _ (.put2 (.ok _)) _ => inferInstanceAs (Decidable (_ ≠ _ ∧ _ ≠ _))
  | .call _ (.put2 (.eof _)) _ => inferInstanceAs (Decidable (_ ≠ _ ∧ _ ≠ _))
  | .call _ (.put2 .other) _ => inferInstanceAs (Decidable (_ ≠ _))

instance (n : RtftpId) (tid : ℕ × ℕ) (s : Sys S) : (e : SysEvent) → Decidable (s.Quiet n tid e)
  | .other e => inferInstanceAs (Decidable (s.w.Clean e ∧ e.Apart s.cid n tid))
  | .send => isTrue trivial
  | .serve io =>
    inferInstanceAs (Decidable (io.openOk = true ∧ io.rw₁ = .full ∧ io.rw₂ = .full))
  | .recv stat io =>
    inferInstanceAs (Decidable (stat = true ∧ io.openOk = true ∧ io.rw₁ = .full))

end Sys

end Sfslite.Rtftp
