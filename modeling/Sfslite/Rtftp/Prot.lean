import Sfslite.Arpc.XdrRoundTrip
import Sfslite.Lib.Words

/-!
The data of `rtftp_prot.x`, and the header that a file begins with: the `size_t` of its
length, then its encoding. The checksum of `sha1ctx` is a parameter.
-/

namespace Sfslite.Rtftp

open Sfslite.Arpc Sfslite.Lib

/-- `rtftp_status_t`. -/
inductive Status where
  | ok
  | noent
  | corrupt
  | eof
  | eexists
  | efs
  | begin
  | err
  | outOfSeq
  | incomplete
  deriving DecidableEq, Repr

/-- `rtftp_id_t`: the decoder refuses a string with a null byte. -/
def RtftpId : Type := { s : List Byte // 0 ∉ s }
  deriving DecidableEq

def rtftpHashsz : ℕ := 20

/-- `rtftp_hash_t`. -/
def Hash : Type := { p : List Byte // p.length = rtftpHashsz }
  deriving DecidableEq

def magic : BitVec 32 := 0xbeef4989

/-- `sha1ctx`. The digest depends on the bytes alone, not on how they are cut. -/
structure Sha1 where
  Ctx : Type
  init : Ctx
  update : Ctx → List Byte → Ctx
  final : Ctx → Ctx × Hash
  digest : List Byte → Hash
  final_updates : ∀ vs : List (List Byte), (final (vs.foldl update init)).2 = digest vs.flatten

/-- `rtftp_header_t`. -/
structure Header where
  magic : BitVec 32
  name : Option (List Byte)
  hash : Hash
  size : BitVec 32

/-- `rtftp_xfer_header_t`. -/
structure XferHeader where
  xferId : ℕ
  size : BitVec 32
  hash : Hash
  deriving DecidableEq

/-- `rtftp_chunkid_t`. -/
structure ChunkId where
  xferId : ℕ
  offset : BitVec 32
  size : BitVec 32
  deriving DecidableEq

/-- `rtftp_chunk_t`. -/
structure Chunk where
  id : ChunkId
  data : List Byte
  deriving DecidableEq

/-- `rtftp_footer_t`. -/
structure Footer where
  xferId : ℕ
  size : BitVec 32
  nChunks : BitVec 32
  hash : Hash
  deriving DecidableEq

/-- `rtftp_put2_arg_t`, by its status. -/
inductive Put2Arg where
  | begin (name : RtftpId)
  | ok (data : Chunk)
  | eof (footer : Footer)
  | other
  deriving DecidableEq

inductive Put2Res where
  | begin (xferId : ℕ)
  | status (s : Status)
  deriving DecidableEq

/-- `rtftp_get2_arg_t`, by its status. -/
inductive Get2Arg where
  | begin (name : RtftpId)
  | ok (chunk : ChunkId)
  | eof (id : ℕ)
  | other
  deriving DecidableEq

inductive Get2Res where
  | begin (header : XferHeader)
  | ok (chunk : Chunk)
  | status (s : Status)
  deriving DecidableEq

def traverseHash (x : XDR) (obj : Hash) : Bool × XDR × Hash :=
  let r := traverseOpaque x obj.1
  (r.1, r.2.1, ⟨r.2.2, (length_traverseOpaque x obj.1).trans obj.2⟩)

/-- `rpc_traverse` of a header, field by field until one fails. -/
def traverseHeader (x : XDR) (obj : Header) : Option (Bool × XDR × Header) := do
  let (ret, x, magic) := traverseU32 x obj.magic
  let obj := { obj with magic := magic }
  if ret then
    let (ret, x, name) ← traverseStr rpcInfinity x obj.name
    let obj := { obj with name := name }
    if ret then
      let (ret, x, hash) := traverseHash x obj.hash
      let obj := { obj with hash := hash }
      if ret then
        let (ret, x, size) := traverseU32 x obj.size
        return (ret, x, { obj with size := size })
      else return (ret, x, obj)
    else return (ret, x, obj)
  else return (ret, x, obj)

def Hash.zero : Hash := ⟨List.replicate rtftpHashsz 0, List.length_replicate⟩

/-- `xdr2str`. -/
def xdr2str (h : Header) : Option (List Byte) :=
  match traverseHeader (.encode []) h with
  | some (true, .encode out, _) => some out
  | _ => none

/-- `buf2xdr`: what is left of the buffer does not count. -/
def buf2xdr (buf : List Byte) : Option Header :=
  match traverseHeader (.decode buf) ⟨0, none, Hash.zero, 0⟩ with
  | some (true, _, h) => some h
  | _ => none

/-- The encoding of a header with a name. -/
def headerWire (name : List Byte) (hash : Hash) (size : BitVec 32) : List Byte :=
  htonl magic ++ htonl (BitVec.ofNat 32 name.length) ++ padded name ++ padded hash.1 ++ htonl size

theorem xdr2str_eq (name : List Byte) (hash : Hash) (size : BitVec 32) :
    xdr2str ⟨magic, some name, hash, size⟩ = some (headerWire name hash size) := by
  simp [xdr2str, traverseHeader, traverseU32, traverseStr, traverseHash, traverseOpaque,
    xdrPutpadbytes_eq, headerWire]

theorem buf2xdr_headerWire {name : List Byte} (hash : Hash) (size : BitVec 32)
    (hnul : 0 ∉ name) (hlen : name.length ≤ rpcInfinity) :
    buf2xdr (headerWire name hash size) = some ⟨magic, some name, hash, size⟩ := by
  have hdecodes : Decodes (traverseStr rpcInfinity) id none _ _ :=
    traverseStr_decodes (Nat.le_refl _) hlen hnul
  obtain ⟨obj, hstr, rfl⟩ := hdecodes (padded hash.1 ++ htonl size)
  have hhash := xdrGetpadbytes_append (p := hash.1) Hash.zero.1 (htonl size)
    (by rw [Hash.zero.2, hash.2])
  have hsize : getint (htonl size) = some (size, []) := by
    rw [← getint_htonl size [], List.append_nil]
  simp only [List.append_assoc] at hstr
  simp [buf2xdr, headerWire, traverseHeader, traverseU32, getint_htonl, traverseHash,
    traverseOpaque, hstr, hhash, hsize]
  rfl

theorem length_headerWire (name : List Byte) (hash : Hash) (size : BitVec 32) :
    (headerWire name hash size).length = 32 + name.length + padLen name.length := by
  have hpad : padLen rtftpHashsz = 0 := by decide
  simp only [headerWire, List.length_append, length_htonl, length_padded, hash.2, hpad]
  simp only [rtftpHashsz]
  omega

/-- A `size_t` in memory. -/
def sizeBytes (sz : ℕ) : List Byte := Words.ofNat 8 sz

/-- What a complete file has in front of its data. -/
def fileHeader (name : RtftpId) (hash : Hash) (size : BitVec 32) : List Byte :=
  sizeBytes (headerWire name.1 hash size).length ++ headerWire name.1 hash size

end Sfslite.Rtftp
