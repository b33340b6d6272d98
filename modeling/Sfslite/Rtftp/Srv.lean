import Sfslite.Rtftp.Prot
import Sfslite.Lib.FileStore

/-!
The server of `srv.T` for `RTFTP_PUT2` and `RTFTP_GET2`, with any number of clients. What
the system answers to `open`, `lseek`, `read`, `write` and `unlink` is an input of the
step. A step is `none` where the program stops at an assertion.
-/

namespace Sfslite.Rtftp

open Sfslite.Arpc Sfslite.Lib

abbrev Store : Type := FileStore RtftpId Byte

/-- What a `read` or a `write` answers. -/
inductive IoRc where
  | error
  | short (n : ℕ)
  | full
  deriving DecidableEq, Repr

def IoRc.count : IoRc → ℕ → Option ℕ
  | .error, _ => none
  | .short n, len => some (min n len)
  | .full, len => some len

/-- What the system answers during one call: `rw₁` and `rw₂` to the first and the second
`read` or `write`. -/
structure Io where
  openOk : Bool
  seekOk : Bool
  rw₁ : IoRc
  rw₂ : IoRc
  unlinkOk : RtftpId → Bool

/-- An open file: its number, its position and whether it is open for writing. -/
structure Fd where
  ino : ℕ
  pos : ℕ
  wr : Bool
  deriving DecidableEq, Repr

/-- The most that one `read` transfers. -/
def maxRead : ℕ := 0x7ffff000

def Fd.write (fd : Fd) (fs : Store) (rc : IoRc) (v : List Byte) : Store × Fd × Option ℕ :=
  if fd.wr then
    match rc.count v.length with
    | none => (fs, fd, none)
    | some n => (fs.write 0 fd.ino fd.pos (v.take n), { fd with pos := fd.pos + n }, some n)
  else (fs, fd, none)

def Fd.read (fd : Fd) (fs : Store) (rc : IoRc) (len : ℕ) : Fd × Option (List Byte) :=
  if fd.wr then (fd, none)
  else
    match rc.count (min len maxRead) with
    | none => (fd, none)
    | some n =>
      let v := fs.read fd.ino fd.pos n
      ({ fd with pos := fd.pos + v.length }, some v)

/-- From this length on a path is too long for `open`. -/
def pathMax : ℕ := 4096

/-- `open_file` of `util.C`: `some none` is the result -1. A name that starts with a slash
stops the program in `mymkdir`. -/
def openFile (fs : Store) (nm : RtftpId) (wr : Bool) (io : Io) : Option (Option (Store × Fd)) :=
  match nm.1 with
  | [] => some none
  | c :: _ =>
    -- assert (dir < end)
    if c = 47 then none
    else if pathMax ≤ nm.1.length ∨ io.openOk = false then some none
    else if wr then
      let (fs, i) := fs.create nm
      some (some (fs, ⟨i, 0, true⟩))
    else
      match fs.dir nm with
      | none => some none
      | some i => some (some (fs, ⟨i, 0, false⟩))

inductive Mode where
  | put
  | get
  deriving DecidableEq, Repr

/-- `file_t`, once it is open. -/
structure File (S : Sha1) where
  file : RtftpId
  fd : Fd
  sz : ℕ
  id : ℕ
  ctx : S.Ctx
  offset : ℕ
  headerOffset : ℕ
  expectedSz : ℕ
  expectedHash : Hash
  mode : Mode
  putStatus : Status

namespace File

variable {S : Sha1}

def new (S : Sha1) (n : RtftpId) (m : Mode) (fd : Fd) : File S where
  file := n
  fd := fd
  sz := 0
  id := 0
  ctx := S.init
  offset := 0
  headerOffset := 0
  expectedSz := 0
  expectedHash := Hash.zero
  mode := m
  putStatus := .incomplete

def myWrite (f : File S) (fs : Store) (rc : IoRc) (v : List Byte) : Store × File S × Bool :=
  let (fs, fd, rc) := f.fd.write fs rc v
  (fs, { f with fd := fd }, rc == some v.length)

def writeHeader (f : File S) (fs : Store) (io : Io) (h : Header) : Store × File S × Bool :=
  match xdr2str h with
  | none => (fs, f, false)  -- not for a header with a name
  | some s =>
    match f.myWrite fs io.rw₁ (sizeBytes s.length) with
    | (fs, f, false) => (fs, f, false)
    | (fs, f, true) => f.myWrite fs io.rw₂ s

def writeHeaderPlaceholder (f : File S) (fs : Store) (io : Io) : Store × File S × Bool :=
  f.writeHeader fs io ⟨magic, some f.file.1, Hash.zero, 0⟩

def writeChunk (f : File S) (fs : Store) (io : Io) (arg : Chunk) : Store × File S × Status :=
  if arg.id.offset.toNat ≠ f.sz then (fs, f, .outOfSeq)
  else
    let f := { f with ctx := S.update f.ctx arg.data }
    match f.myWrite fs io.rw₁ arg.data with
    | (fs, f, false) => (fs, f, .efs)
    | (fs, f, true) => (fs, { f with sz := f.sz + arg.data.length }, .ok)

def putFooter (f : File S) (fs : Store) (io : Io) (footer : Footer) : Store × File S × Status :=
  let (ctx, buf) := S.final f.ctx
  let f := { f with ctx := ctx }
  if f.sz ≠ footer.size.toNat then (fs, f, .corrupt)
  else if footer.hash ≠ buf then (fs, f, .corrupt)
  else if io.seekOk then
    let f := { f with fd := { f.fd with pos := 0 } }
    match f.writeHeader fs io ⟨magic, some f.file.1, buf, BitVec.ofNat 32 f.sz⟩ with
    | (fs, f, true) => (fs, f, .ok)
    | (fs, f, false) => (fs, f, .efs)
  else (fs, f, .efs)

/-- `read_header`: `none` is the result `false`, with which the file is given up. -/
def readHeader (f : File S) (fs : Store) (io : Io) : Option (File S) :=
  match f.fd.read fs io.rw₁ 8 with
  | (_, none) => none
  | (fd, some v) =>
    let sz := Words.val v
    if v.length ≠ 8 ∨ 0x10000 < sz then none
    else
      match fd.read fs io.rw₂ sz with
      | (_, none) => none
      | (fd, some buf) =>
        if buf.length ≠ sz then none
        else
          match buf2xdr buf with
          | none => none
          | some h =>
            if h.magic ≠ magic then none
            else
              some { f with
                fd := fd
                offset := f.offset + 8 + sz
                headerOffset := f.offset + 8 + sz
                expectedHash := h.hash
                expectedSz := h.size.toNat }

/-- The result of `lseek` is kept as an `int`. -/
def seekChunk (f : File S) (io : Io) (o : ℕ) : File S × Bool :=
  if o = f.offset then (f, true)
  else if io.seekOk then
    ({ f with fd := { f.fd with pos := o } }, !(BitVec.ofNat 32 o).msb)
  else (f, false)

def readChunk (f : File S) (fs : Store) (io : Io) (chnk : ChunkId) : Option (File S × Get2Res) :=
  -- assert (n <= max) of setsize
  if rpcInfinity < chnk.size.toNat then none
  else
    match f.seekChunk io (chnk.offset.toNat + f.headerOffset) with
    | (f, false) => some (f, .status .efs)
    | (f, true) =>
      match f.fd.read fs io.rw₁ chnk.size.toNat with
      | (fd, none) => some ({ f with fd := fd }, .status .efs)
      | (fd, some []) => some ({ f with fd := fd }, .status .eof)
      | (fd, some v) =>
        some ({ f with fd := fd, offset := f.offset + v.length }, .ok ⟨chnk, v⟩)

/-- `set_xfer_header`. -/
def xferHeader (f : File S) : XferHeader :=
  ⟨f.id, BitVec.ofNat 32 f.expectedSz, f.expectedHash⟩

def clean (f : File S) (fs : Store) (io : Io) : Store :=
  if f.mode = .put ∧ f.putStatus ≠ .ok ∧ io.unlinkOk f.file then fs.unlink f.file else fs

end File

/-- `cli_t`: its transfers and the number of the next one. -/
structure Cli (S : Sha1) where
  tab : ℕ → Option (File S)
  id : ℕ

namespace Cli

variable {S : Sha1}

def new (S : Sha1) : Cli S := ⟨fun _ => none, 0⟩

def setFile (cli : Cli S) (id : ℕ) (f : File S) : Cli S :=
  { cli with tab := Function.update cli.tab id (some f) }

def addFile (cli : Cli S) (f : File S) : Cli S :=
  { tab := Function.update cli.tab cli.id (some { f with id := cli.id }), id := cli.id + 1 }

def doPut2 (cli : Cli S) (fs : Store) (io : Io) :
    Put2Arg → Option (Store × Cli S × Put2Res)
  | .begin name =>
    match openFile fs name true io with
    | none => none
    | some none => some (fs, cli, .status .efs)
    | some (some (fs, fd)) =>
      match (File.new S name .put fd).writeHeaderPlaceholder fs io with
      | (fs, _, false) => some (fs, cli, .status .efs)
      | (fs, f, true) => some (fs, cli.addFile f, .begin cli.id)
  | .ok data =>
    match cli.tab data.id.xferId with
    | none => some (fs, cli, .status .noent)
    | some f =>
      let (fs, f, s) := f.writeChunk fs io data
      some (fs, cli.setFile data.id.xferId f, .status s)
  | .eof footer =>
    match cli.tab footer.xferId with
    | none => some (fs, cli, .status .noent)
    | some f =>
      let (fs, f, s) := f.putFooter fs io footer
      -- assert (_mode == FILE_PUT) of set_put_status
      if f.mode ≠ .put then none
      else some (fs, cli.setFile footer.xferId { f with putStatus := s }, .status s)
  | .other => some (fs, cli, .status .err)

def doGet2 (cli : Cli S) (fs : Store) (io : Io) : Get2Arg → Option (Cli S × Get2Res)
  | .begin name =>
    match openFile fs name false io with
    | none => none
    | some none => some (cli, .status .noent)
    | some (some (fs, fd)) =>
      match (File.new S name .get fd).readHeader fs io with
      | none => some (cli, .status .corrupt)
      | some f => some (cli.addFile f, .begin { f with id := cli.id }.xferHeader)
  | .ok chunk =>
    match cli.tab chunk.xferId with
    | none => some (cli, .status .noent)
    | some f =>
      match f.readChunk fs io chunk with
      | none => none
      | some (f, res) => some (cli.setFile chunk.xferId f, res)
  | .eof id =>
    match cli.tab id with
    | none => some (cli, .status .noent)
    | some _ => some ({ cli with tab := Function.update cli.tab id none }, .status .ok)
  | .other => some (cli, .status .err)

def cleanFiles (cli : Cli S) (fs : Store) (io : Io) : Store :=
  (List.range cli.id).foldl
    (fun fs i => match cli.tab i with | none => fs | some f => f.clean fs io) fs

end Cli

structure Srv (S : Sha1) where
  fs : Store
  clis : ℕ → Option (Cli S)
  ncli : ℕ

inductive Req where
  | put2 (arg : Put2Arg)
  | get2 (arg : Get2Arg)
  deriving DecidableEq

inductive Res where
  | none
  | put2 (res : Put2Res)
  | get2 (res : Get2Res)
  deriving DecidableEq

inductive Event where
  | newcli
  | call (cid : ℕ) (req : Req) (io : Io)
  | hangup (cid : ℕ) (io : Io)

namespace Srv

variable {S : Sha1}

/-- A transfer is named by its client and its number there. -/
def transfer (s : Srv S) (tid : ℕ × ℕ) : Option (File S) :=
  (s.clis tid.1).bind fun cli => cli.tab tid.2

def setCli (s : Srv S) (fs : Store) (cid : ℕ) (cli : Option (Cli S)) : Srv S :=
  { s with fs := fs, clis := Function.update s.clis cid cli }

/-- `dispatch` of a call. -/
def call (s : Srv S) (cid : ℕ) (req : Req) (io : Io) : Option (Srv S × Res) := do
  let cli ← s.clis cid
  match req with
  | .put2 arg =>
    let (fs, cli, res) ← cli.doPut2 s.fs io arg
    return (s.setCli fs cid (some cli), .put2 res)
  | .get2 arg =>
    let (cli, res) ← cli.doGet2 s.fs io arg
    return (s.setCli s.fs cid (some cli), .get2 res)

def newcli (s : Srv S) : Srv S where
  fs := s.fs
  clis := Function.update s.clis s.ncli (some (Cli.new S))
  ncli := s.ncli + 1

def step (s : Srv S) : Event → Option (Srv S × Res)
  | .newcli => some (s.newcli, .none)
  | .call cid req io => s.call cid req io
  | .hangup cid io => do
      let cli ← s.clis cid
      return (s.setCli (cli.cleanFiles s.fs io) cid none, .none)

end Srv

end Sfslite.Rtftp
