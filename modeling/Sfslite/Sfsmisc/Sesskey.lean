import Sfslite.Arpc.Asrv
import Sfslite.Crypt.Pad
import Sfslite.Crypt.Sha1

/-!
The server's side of the session key negotiation, `sfs_server_crypt` of `sfssesskey.C`, with the
public keys that `sfscrypt.C` makes of what a client sends. `rabin_pub::encrypt`, the server's own
key, the random bytes and the SHA-1 hash of an XDR encoding are arguments. A failed assertion and
the use of a null pointer answer `none`.
-/

namespace Sfslite.Sfsmisc.Sesskey

open Sfslite.Arpc (AcceptStat Byte)
open Sfslite.Crypt (Rnd)

inductive Keytype
  | nokey
  | rabin
  | twoschnorr
  | schnorr
  | oneschnorr
  | esign
  /-- A number without a name. -/
  | other (v : BitVec 32)
deriving DecidableEq

/-- `sfs_pubkey2`; every type that has no arm of its own takes the default one. -/
inductive Pubkey2
  | rabin (n : ℤ)
  | schnorr (p q g y : ℤ)
  | esign (n : ℤ) (k : BitVec 32)
  | void (t : Keytype) (h : t ∉ [Keytype.rabin, .schnorr, .esign])

def Pubkey2.type : Pubkey2 → Keytype
  | .rabin _ => .rabin
  | .schnorr _ _ _ _ => .schnorr
  | .esign _ _ => .esign
  | .void t _ => t

def sfsEncrypt : BitVec 8 := 1

def sfsDecrypt : BitVec 8 := 4

inductive Sfspub
  | rabin (n : ℤ) (opts : BitVec 8)
  | schnorr (p q g y : ℤ) (opts : BitVec 8)
  | esign (n : ℤ) (k : BitVec 32) (opts : BitVec 8)
deriving DecidableEq

namespace Sfspub

def opts : Sfspub → BitVec 8
  | .rabin _ o => o
  | .schnorr _ _ _ _ o => o
  | .esign _ _ o => o

def getOpt (pub : Sfspub) (o : BitVec 8) : Bool := pub.opts &&& o ≠ 0

/-- The constructor of `sfs_schnorr_pub`, with its assertion. -/
def makeSchnorr (p q g y : ℤ) (o : BitVec 8) : Option Sfspub :=
  let pub := Sfspub.schnorr p q g y o
  if pub.getOpt (sfsEncrypt ||| sfsDecrypt) then none else some pub

/-- `esign_pub::esign_pub`; `calc_log2k` has an assertion. -/
def makeEsign (n : ℤ) (k : BitVec 32) (o : BitVec 8) : Option Sfspub :=
  if 4 < k.toNat then some (.esign n k o) else none

end Sfspub

/-- An allocator of keys: its type, and the class that its `alloc` is of. -/
structure Sfsca where
  ktype : Keytype
  alloc : Pubkey2 → BitVec 8 → Option (Option Sfspub)

/-- `assert (k.type == ktype)`, then the arm of the union. -/
def sfsRabinAlloc : Sfsca where
  ktype := .rabin
  alloc k o :=
    match k with
    | .rabin n => some (some (.rabin n o))
    | _ => none

/-- The three kinds of Schnorr key share this `alloc`. -/
def sfsSchnorrAlloc (ktype : Keytype) : Sfsca where
  ktype := ktype
  alloc k o :=
    match k with
    | .schnorr p q g y => (Sfspub.makeSchnorr p q g y o).map some
    | _ => some none

def sfsEsignAlloc : Sfsca where
  ktype := .esign
  alloc k o :=
    match k with
    | .esign n k => if k.toNat ≤ 4 then some none else (Sfspub.makeEsign n k o).map some
    | _ => none

namespace Sfscrypt

def add (xttab : List Sfsca) (c : Sfsca) : List Sfsca :=
  if c.ktype ≠ .nokey ∧ (xttab.find? (·.ktype = c.ktype)).isNone then xttab ++ [c] else xttab

/-- The table `xttab` after `sfscrypt_t ()`. -/
def xttab : List Sfsca :=
  [sfsRabinAlloc, sfsSchnorrAlloc .schnorr, sfsSchnorrAlloc .oneschnorr,
    sfsSchnorrAlloc .twoschnorr, sfsEsignAlloc].foldl add []

def lookup (t : Keytype) : Option Sfsca := xttab.find? (·.ktype = t)

/-- `sfscrypt_t::alloc` of an `sfs_pubkey2`; `some none` is the null pointer. -/
def alloc2 (pk : Pubkey2) (o : BitVec 8) : Option (Option Sfspub) :=
  match lookup pk.type with
  | none => some none
  | some c => c.alloc pk o

/-- `sfscrypt_t::alloc` of an `sfs_pubkey`, which is the modulus of a Rabin key. -/
def alloc (pk : ℤ) (o : BitVec 8) : Option Sfspub :=
  match lookup .rabin with
  | none => none
  | some _ => some (.rabin pk o)

end Sfscrypt

namespace Sfspub

def sfsMinrsasize : ℕ := 768

def sfsMaxrsasize : ℕ := 24576

def sfsMindlogsize : ℕ := 768

def sfsMaxdlogsize : ℕ := 24576

def esignScale (x : ℕ) : ℕ := (3 * x) >>> 1

/-- `mpz_sizeinbase2` of the magnitude. -/
def nbits (n : ℤ) : ℕ := n.natAbs.size

/-- `sfspub::check_keysize`; what is wrong, or `none`. -/
def checkSize (nbits ll ul : ℕ) (l : String) : Option String :=
  if ul < nbits then
    some (l ++ " key is " ++ toString nbits ++ " bits but maximum allowed size is " ++
      toString ul ++ " bits")
  else if nbits < ll then
    some (l ++ " key is " ++ toString nbits ++ " bits but minimum allowed size is " ++
      toString ll ++ " bits")
  else none

/-- `sfs_schnorr_pub::check_keysize`. -/
def checkSchnorr (pbits qbits : ℕ) : Option String :=
  let qminsize := 100
  let qmaxsize := 300
  if qbits ≠ 0 ∧ qmaxsize < qbits then
    some ("2Schnorr q value is " ++ toString qbits ++ " bits but maximum allowed size is " ++
      toString qmaxsize ++ " bits")
  else if qbits ≠ 0 ∧ qbits < qminsize then
    some ("2Schnorr q value is " ++ toString qbits ++ " bits but minimum allowed size is " ++
      toString qminsize ++ " bits")
  else if sfsMaxdlogsize < pbits then
    some ("2Schnorr p value is " ++ toString pbits ++ " bits but maxiumum allowed size is " ++
      toString sfsMaxdlogsize ++ " bits")
  else if pbits < sfsMindlogsize then
    some ("2Schnorr p value is " ++ toString pbits ++ " bits but minimum allowed size is " ++
      toString sfsMindlogsize ++ " bits")
  else none

def checkKeysize : Sfspub → Option String
  | .rabin n _ => checkSize (nbits n) sfsMinrsasize sfsMaxrsasize "Rabin"
  | .schnorr p q _ _ _ => checkSchnorr (nbits p) (nbits q)
  | .esign n _ _ => checkSize (nbits n) (esignScale sfsMinrsasize) (esignScale sfsMaxrsasize) "Esign"

/-- The two functions `encrypt`, where `rabin` is `rabin_pub::encrypt` with 0 for its failure;
`some none` is a result of `false`. -/
def encrypt (rabin : ℤ → List Byte → ℤ) (msg : List Byte) : Sfspub → Option (Option ℤ)
  | .rabin n o =>
    if (Sfspub.rabin n o).getOpt sfsEncrypt then
      some (if rabin n msg = 0 then none else some (rabin n msg))
    else none
  | _ => some none

end Sfspub

/-- `check` of `hashcash.C`: the first `n` bits agree. -/
def hashcashAgree (l r : List (BitVec 32)) (n : ℕ) : Bool :=
  let nword := n / 32
  let nbits := n % 32
  l.take nword = r.take nword &&
    (nbits = 0 ||
      let mask : BitVec 32 := ~~~((1 <<< (32 - nbits)) - 1)
      l.getD nword 0 &&& mask = r.getD nword 0 &&& mask)

def hashWords (h : List Byte) : List (BitVec 32) := (List.range 5).map (Crypt.Sha1.getint h)

/-- `hashcash_check`. -/
def hashcashCheck (payment inithash target : List Byte) (bitcost : ℕ) : Bool :=
  let w := Crypt.Sha1.getint inithash
  let (a, b, c, d, e) := Crypt.Sha1.transform (w 0, w 1, w 2, w 3, w 4) payment
  hashcashAgree [a, b, c, d, e] (hashWords target) bitcost

/-- `sfs_ctext2` has one arm only. -/
structure Ctext2 where
  rabin : ℤ
deriving DecidableEq

/-- `sfs_encryptarg` and `sfs_encryptarg2`, the arguments of the two versions. -/
inductive Encryptarg
  | v1 (payment : List Byte) (kmsg pubkey : ℤ)
  | v2 (payment : List Byte) (kmsg : Ctext2) (pubkey : Pubkey2)

structure Kmsg where
  kcsShare : List Byte
  kscShare : List Byte
deriving DecidableEq

/-- `sizeof (sfs_kmsg)` -/
def kmsgsize : ℕ := 32

/-- The two shares at an address; `none` where memory behind the bytes is read. -/
def getKmsg (s : List Byte) : Option Kmsg :=
  if s.length < kmsgsize then none else some ⟨s.take 16, (s.drop 16).take 16⟩

/-- The server's key. What it decrypts has the length asked for. -/
structure Sfspriv where
  decrypt : ℤ → Option (List Byte)
  decrypt2 : Ctext2 → ℕ → Option (List Byte)
  length_decrypt : ∀ ct m, decrypt ct = some m → m.length = kmsgsize
  length_decrypt2 : ∀ ct sz m, decrypt2 ct sz = some m → m.length = sz

inductive Answer
  | reject (stat : AcceptStat)
  | reply (res : ℤ)
  | reply2 (res : Ctext2)
deriving DecidableEq

namespace Encryptarg

def payment : Encryptarg → List Byte
  | .v1 p _ _ => p
  | .v2 p _ _ => p

def alloc : Encryptarg → Option (Option Sfspub)
  | .v1 _ _ pk => some (Sfscrypt.alloc pk sfsEncrypt)
  | .v2 _ _ pk => Sfscrypt.alloc2 pk sfsEncrypt

def answer : Encryptarg → ℤ → Answer
  | .v1 _ _ _, res => .reply res
  | .v2 _ _ _, res => .reply2 ⟨res⟩

def decrypt (sk : Sfspriv) : Encryptarg → Option (List Byte)
  | .v1 _ ct _ => sk.decrypt ct
  | .v2 _ ct _ => sk.decrypt2 ct kmsgsize

end Encryptarg

abbrev Hash := List Byte

/-- What is hashed for a session: `sfs_sesskeydat` and `sfs_sessinfo`. -/
inductive Hashed (σ γ : Type)
  | sesskeydat (type : ℕ) (si : σ) (sshare : List Byte) (ci : γ) (kc : ℤ) (cshare : List Byte)
  | sessinfo (type : ℕ) (ksc kcs : Hash)

def sfsKsc : ℕ := 2

def sfsKcs : ℕ := 3

def sfsSessinfo : ℕ := 4

/-- What the call does not change: the arguments of `sfs_server_crypt`, and the functions and
random bytes that it uses. -/
structure Server (σ γ : Type) where
  sk : Sfspriv
  ci : γ
  civers : ℕ
  si : σ
  hostid : Hash
  target : Hash
  bitcost : ℕ
  /-- The argument `sessid` is not null. -/
  wantsSessid : Bool
  sha1xdr : Hashed σ γ → Hash
  rabinEncrypt : ℤ → List Byte → ℤ
  rnd : ℕ → Rnd

/-- The transport with its call. `draws` are the random numbers taken so far, `nsvc` is what
`xhip->svcnum ()` answers if `xhip` is not null: the transport may lie under the one on which
calls arrive. `keys` are all pairs of keys that it was given, and the last are in force. -/
structure Session where
  draws : ℕ
  answers : List Answer
  nsvc : Option ℕ
  failed : Bool
  keys : List (Hash × Hash)
  sessid : Hash
  warns : List String
deriving DecidableEq

namespace Session

def warn (s : Session) (msg : String) : Session := { s with warns := s.warns ++ [msg] }

/-- `svccb::~svccb`, with the assertion of `svcdel`. -/
def svcdel (s : Session) : Option Session :=
  match s.nsvc with
  | none => some s
  | some 0 => none
  | some (n + 1) => some { s with nsvc := some n }

/-- `svccb::reply` and `svccb::reject`. -/
def answer (s : Session) (a : Answer) : Option Session :=
  svcdel { s with answers := s.answers ++ [a] }

/-- `axprt_crypt::encrypt`. -/
def encrypt (s : Session) (ksc kcs : Hash) : Session :=
  if s.nsvc.any (· ≠ 0) then
    { s.warn "axprt_crypt::encrypt called while serving RPCs" with failed := true }
  else { s with keys := s.keys ++ [(ksc, kcs)] }

end Session

section

variable {σ γ : Type} (S : Server σ γ)

namespace Server

/-- `rnd.getbytes` -/
def getbytes (len : ℕ) (s : Session) : List Byte × Session :=
  ((S.rnd s.draws len).toList, { s with draws := s.draws + 1 })

def getSessid (ksc kcs : Hash) : Hash := S.sha1xdr (.sessinfo sfsSessinfo ksc kcs)

/-- `sfs_get_sesskey`: `ksc` and `kcs`. The field `kc` is left at its initial value. -/
def getSesskey (smsg cmsg : Kmsg) : Hash × Hash :=
  (S.sha1xdr (.sesskeydat sfsKsc S.si smsg.kscShare S.ci 0 cmsg.kscShare),
    S.sha1xdr (.sesskeydat sfsKcs S.si smsg.kcsShare S.ci 0 cmsg.kcsShare))

def setRandomKey (s : Session) : Session :=
  let (ksc, s) := S.getbytes Crypt.hashsize s
  let (kcs, s) := S.getbytes Crypt.hashsize s
  let s := s.encrypt ksc kcs
  if S.wantsSessid then { s with sessid := S.getSessid ksc kcs } else s

/-- The exits that reject the call. -/
def reject (s : Session) (msg : String) (stat : AcceptStat) : Option Session :=
  ((s.warn msg).answer (.reject stat)).map S.setRandomKey

/-- What is done with the client's key. -/
def encryptTo (clntpub : Sfspub) (arg : Encryptarg) (s : Session) : Option Session := do
  match clntpub.checkKeysize with
  | some e => S.reject s e .garbageArgs
  | none =>
    let (smsg, s) := S.getbytes kmsgsize s
    match ← clntpub.encrypt S.rabinEncrypt smsg with
    | none => S.reject s "could not encrypt with client's public key" .garbageArgs
    | some res =>
      let s ← s.answer (arg.answer res)
      match arg.decrypt S.sk with
      | none => some (S.setRandomKey s)
      | some cmsgptxt =>
        let smsg ← getKmsg smsg
        let cmsg ← getKmsg cmsgptxt
        let (ksc, kcs) := S.getSesskey smsg cmsg
        let s := if S.wantsSessid then { s with sessid := S.getSessid ksc kcs } else s
        some (s.encrypt ksc kcs)

/-- `sfs_server_crypt` -/
def crypt (arg : Encryptarg) (s : Session) : Option Session := do
  if S.civers = 0 then
    S.reject s "sfs_server_crypt: client called encrypt before connect?" .procUnavail
  else
    let clntpub ← arg.alloc
    if hashcashCheck arg.payment S.hostid S.target S.bitcost then
      let clntpub ← clntpub
      S.encryptTo clntpub arg s
    else S.reject s "payment doesn't match charge" .garbageArgs

end Server

/-- The allocator makes a key of this one. -/
def Pubkey2.made : Pubkey2 → Bool
  | .rabin _ => true
  | .esign _ k => 4 < k.toNat
  | _ => false

def Encryptarg.made : Encryptarg → Bool
  | .v1 _ _ _ => true
  | .v2 _ _ pk => pk.made

def Encryptarg.isSchnorr : Encryptarg → Bool
  | .v2 _ _ pk => pk.type = .schnorr
  | _ => false

theorem Sfscrypt.alloc2_void (t : Keytype) (h : t ∉ [Keytype.rabin, .schnorr, .esign])
    (o : BitVec 8) : Sfscrypt.alloc2 (.void t h) o = some none := by
  cases t with
  | nokey => rfl
  | rabin => simp at h
  | twoschnorr => rfl
  | schnorr => simp at h
  | oneschnorr => rfl
  | esign => simp at h
  | other v => rfl

theorem Encryptarg.alloc_of_made {arg : Encryptarg} (h : arg.made) :
    ∃ pub, arg.alloc = some (some pub) ∧ pub.opts = sfsEncrypt := by
  cases arg with
  | v1 payment kmsg pk => exact ⟨_, rfl, rfl⟩
  | v2 payment kmsg pk =>
    cases pk with
    | rabin n => exact ⟨_, rfl, rfl⟩
    | schnorr p q g y => cases h
    | esign n k =>
      have hk : 4 < k.toNat := by simpa [made, Pubkey2.made] using h
      refine ⟨.esign n k sfsEncrypt, ?_, rfl⟩
      have hmake : Sfspub.makeEsign n k sfsEncrypt = some (.esign n k sfsEncrypt) :=
        if_pos hk
      change (if k.toNat ≤ 4 then some none else (Sfspub.makeEsign n k sfsEncrypt).map some) = _
      rw [if_neg (by omega), hmake]
      rfl
    | void t ht => cases h

theorem Encryptarg.alloc_of_isSchnorr {arg : Encryptarg} (h : arg.isSchnorr) :
    arg.alloc = none := by
  cases arg with
  | v1 payment kmsg pk => cases h
  | v2 payment kmsg pk =>
    cases pk with
    | rabin n => cases h
    | schnorr p q g y =>
      have hopt : (Sfspub.schnorr p q g y sfsEncrypt).getOpt (sfsEncrypt ||| sfsDecrypt) := by
        change decide (sfsEncrypt &&& (sfsEncrypt ||| sfsDecrypt) ≠ 0) = true
        decide
      have hmake : Sfspub.makeSchnorr p q g y sfsEncrypt = none := if_pos hopt
      change (Sfspub.makeSchnorr p q g y sfsEncrypt).map some = none
      rw [hmake]
      rfl
    | esign n k => cases h
    | void t ht =>
      have ht' : t = .schnorr := of_decide_eq_true h
      simp [ht'] at ht

theorem Encryptarg.alloc_of_missing {arg : Encryptarg} (hmade : arg.made = false)
    (hschnorr : arg.isSchnorr = false) : arg.alloc = some none := by
  cases arg with
  | v1 payment kmsg pk => cases hmade
  | v2 payment kmsg pk =>
    cases pk with
    | rabin n => cases hmade
    | schnorr p q g y => cases hschnorr
    | esign n k =>
      have hk : k.toNat ≤ 4 := by simpa [made, Pubkey2.made] using hmade
      exact if_pos hk
    | void t ht => exact Sfscrypt.alloc2_void t ht sfsEncrypt

variable {pub : Sfspub}

theorem Encryptarg.made_of_alloc {arg : Encryptarg}
    (h : arg.alloc = some (some pub)) : arg.made := by
  by_contra hmade
  have hmade : arg.made = false := by simpa using hmade
  cases hschnorr : arg.isSchnorr with
  | true => simp [alloc_of_isSchnorr hschnorr] at h
  | false => simp [alloc_of_missing hmade hschnorr] at h

theorem Sfspub.encrypt_isSome (h : pub.opts = sfsEncrypt)
    (rabin : ℤ → List Byte → ℤ) (msg : List Byte) : ∃ r, pub.encrypt rabin msg = some r := by
  cases pub with
  | rabin n o =>
    have hopt : (Sfspub.rabin n o).getOpt sfsEncrypt := by
      change decide (o &&& sfsEncrypt ≠ 0) = true
      rw [show o = sfsEncrypt from h]
      decide
    exact ⟨_, if_pos hopt⟩
  | schnorr p q g y o => exact ⟨none, rfl⟩
  | esign n k o => exact ⟨none, rfl⟩

theorem getKmsg_of_length {m : List Byte} (h : m.length = kmsgsize) : ∃ k, getKmsg m = some k :=
  ⟨_, if_neg (by omega)⟩

theorem Encryptarg.length_decrypt {sk : Sfspriv} {arg : Encryptarg} {m : List Byte}
    (h : arg.decrypt sk = some m) : m.length = kmsgsize := by
  cases arg with
  | v1 payment ct pk => exact sk.length_decrypt ct m h
  | v2 payment ct pk => exact sk.length_decrypt2 ct kmsgsize m h

namespace Session

variable {s s' : Session}

/-- No call but this one is being served on the transport. -/
def Alone (s : Session) : Prop := s.nsvc = none ∨ s.nsvc = some 1

/-- The transport takes no keys. -/
def Busy (s : Session) : Bool := s.nsvc.any (· ≠ 0)

theorem answer_eq (s : Session) (a : Answer) : s.answer a =
    if s.nsvc = some 0 then none
    else some { s with answers := s.answers ++ [a], nsvc := s.nsvc.map (· - 1) } := by
  rcases s with ⟨draws, answers, nsvc, failed, keys, sessid, warns⟩
  rcases nsvc with _ | _ | n
  · rfl
  · rfl
  · simp [answer, svcdel]

theorem busy_answer {a : Answer} (h : s.answer a = some s') : s'.Busy = false ↔ s.Alone := by
  rw [answer_eq] at h
  split_ifs at h with hzero
  cases h
  rcases hn : s.nsvc with _ | n
  · simp [Busy, Alone, hn]
  · have hpos : n ≠ 0 := fun h0 => hzero (by rw [hn, h0])
    simp only [Busy, Alone, hn, Option.map_some, Option.any_some, reduceCtorEq, false_or,
      Option.some.injEq, decide_eq_false_iff_not, not_not]
    omega

theorem answer_frame {a : Answer} (h : s.answer a = some s') :
    s'.answers = s.answers ++ [a] ∧ s'.draws = s.draws ∧ s'.keys = s.keys ∧
      s'.failed = s.failed := by
  rw [answer_eq] at h
  split_ifs at h
  cases h
  exact ⟨rfl, rfl, rfl, rfl⟩

theorem exists_answer (h : s.Alone) (a : Answer) : ∃ s', s.answer a = some s' := by
  rw [answer_eq]
  have hzero : s.nsvc ≠ some 0 := by
    rcases h with h | h <;> simp [h]
  exact ⟨_, if_neg hzero⟩

theorem encrypt_keys (ksc kcs : Hash) : (s.encrypt ksc kcs).keys =
    if s.Busy then s.keys else s.keys ++ [(ksc, kcs)] := by
  rw [encrypt, Busy]
  split_ifs <;> rfl

theorem encrypt_frame (ksc kcs : Hash) : (s.encrypt ksc kcs).answers = s.answers ∧
    (s.encrypt ksc kcs).draws = s.draws ∧
    (s.Busy = false → (s.encrypt ksc kcs).failed = s.failed) := by
  rw [encrypt, Busy]
  split_ifs with hbusy
  · exact ⟨rfl, rfl, fun h => absurd (h.symm.trans hbusy) Bool.false_ne_true⟩
  · exact ⟨rfl, rfl, fun _ => rfl⟩

end Session

/-- What a call is to do: it is answered once, and the transport has new keys, those negotiated
if the answer is a reply and the client's shares can be read, and random bytes drawn for them
otherwise. -/
structure Served (arg : Encryptarg) (s s' : Session) : Prop where
  answered : ∃ a, s'.answers = s.answers ++ [a]
  alive : s'.failed = s.failed
  negotiated : ∀ res m, s'.answers = s.answers ++ [arg.answer res] →
    arg.decrypt S.sk = some m → ∃ pub smsg cmsg, arg.alloc = some (some pub) ∧
      pub.checkKeysize = none ∧
      pub.encrypt S.rabinEncrypt (S.rnd s.draws kmsgsize).toList = some (some res) ∧
      getKmsg (S.rnd s.draws kmsgsize).toList = some smsg ∧ getKmsg m = some cmsg ∧
      s'.keys = s.keys ++ [S.getSesskey smsg cmsg]
  random : (∀ res m, s'.answers = s.answers ++ [arg.answer res] → arg.decrypt S.sk ≠ some m) →
    ∃ n, s.draws ≤ n ∧ s'.draws = n + 2 ∧
      s'.keys = s.keys ++
        [((S.rnd n Crypt.hashsize).toList, (S.rnd (n + 1) Crypt.hashsize).toList)]

namespace Server

theorem setRandomKey_eq (s : Session) : ∃ e, e = { s with draws := s.draws + 2 }.encrypt
    (S.rnd s.draws Crypt.hashsize).toList (S.rnd (s.draws + 1) Crypt.hashsize).toList ∧
    (S.setRandomKey s).keys = e.keys ∧ (S.setRandomKey s).answers = e.answers ∧
    (S.setRandomKey s).draws = e.draws ∧ (S.setRandomKey s).failed = e.failed := by
  rw [setRandomKey]
  simp only [getbytes]
  split_ifs <;> exact ⟨_, rfl, rfl, rfl, rfl, rfl⟩

theorem setRandomKey_keys (s : Session) : (S.setRandomKey s).keys =
    if s.Busy then s.keys
    else s.keys ++
      [((S.rnd s.draws Crypt.hashsize).toList, (S.rnd (s.draws + 1) Crypt.hashsize).toList)] := by
  obtain ⟨e, rfl, hkeys, -⟩ := S.setRandomKey_eq s
  rw [hkeys]
  exact Session.encrypt_keys _ _

theorem setRandomKey_frame (s : Session) : (S.setRandomKey s).answers = s.answers ∧
    (S.setRandomKey s).draws = s.draws + 2 ∧
    (s.Busy = false → (S.setRandomKey s).failed = s.failed) := by
  obtain ⟨e, rfl, -, hanswers, hdraws, hfailed⟩ := S.setRandomKey_eq s
  rw [hanswers, hdraws, hfailed]
  exact Session.encrypt_frame _ _

variable {S} {s s' s₀ : Session} {arg : Encryptarg} {a : Answer}

theorem served_setRandomKey (halone : s₀.Alone) (hans : s₀.answer a = some s')
    (hs : s₀.answers = s.answers) (hdraws : s.draws ≤ s₀.draws) (hkeys : s₀.keys = s.keys)
    (hfailed : s₀.failed = s.failed)
    (hno : ∀ res m, a = arg.answer res → arg.decrypt S.sk ≠ some m) :
    Served S arg s (S.setRandomKey s') := by
  have hbusy : s'.Busy = false := (Session.busy_answer hans).mpr halone
  obtain ⟨hanswers, hdraws', hkeys', hfailed'⟩ := Session.answer_frame hans
  obtain ⟨hranswers, hrdraws, hrfailed⟩ := S.setRandomKey_frame s'
  have hall : (S.setRandomKey s').answers = s.answers ++ [a] := by
    rw [hranswers, hanswers, hs]
  refine ⟨⟨a, hall⟩, ?_, ?_, ?_⟩
  · rw [hrfailed hbusy, hfailed', hfailed]
  · intro res m hres hm
    have heq : a = arg.answer res := by
      simpa using hall.symm.trans hres
    exact absurd hm (hno res m heq)
  · intro _
    refine ⟨s'.draws, by omega, hrdraws, ?_⟩
    rw [setRandomKey_keys, hbusy, hkeys', hkeys]
    rfl

theorem served_reject (halone : s₀.Alone) (hs : s₀.answers = s.answers)
    (hdraws : s.draws ≤ s₀.draws) (hkeys : s₀.keys = s.keys) (hfailed : s₀.failed = s.failed)
    (msg : String) (stat : AcceptStat) :
    ∃ s', S.reject s₀ msg stat = some s' ∧ Served S arg s s' := by
  have halone' : (s₀.warn msg).Alone := halone
  obtain ⟨s', hs'⟩ := Session.exists_answer halone' (.reject stat)
  have hno : ∀ res m, Answer.reject stat = arg.answer res → arg.decrypt S.sk ≠ some m := by
    intro res m hres
    cases arg <;> cases hres
  refine ⟨S.setRandomKey s', by rw [reject, hs']; rfl, ?_⟩
  exact served_setRandomKey halone' hs' hs hdraws hkeys hfailed hno

theorem busy_answer_of_not_alone (halone : ¬ s.Alone) (h : s.answer a = some s') :
    s'.Busy = true := by
  by_contra hb
  exact halone ((Session.busy_answer h).mp (by simpa using hb))

theorem reject_keys {msg : String} {stat : AcceptStat} (halone : ¬ s.Alone)
    (h : S.reject s msg stat = some s') : s'.keys = s.keys := by
  obtain ⟨s₁, hs₁, rfl⟩ := Option.map_eq_some_iff.mp h
  have halone' : ¬ (s.warn msg).Alone := halone
  rw [setRandomKey_keys, if_pos (busy_answer_of_not_alone halone' hs₁)]
  exact (Session.answer_frame hs₁).2.2.1

theorem served_encrypt {res : ℤ} {m : List Byte} {smsg cmsg : Kmsg} {t : Session}
    (halloc : arg.alloc = some (some pub)) (hsize : pub.checkKeysize = none)
    (henc : pub.encrypt S.rabinEncrypt (S.rnd s.draws kmsgsize).toList = some (some res))
    (hsmsg : getKmsg (S.rnd s.draws kmsgsize).toList = some smsg) (hdec : arg.decrypt S.sk = some m)
    (hcmsg : getKmsg m = some cmsg) (hanswers : t.answers = s.answers ++ [arg.answer res])
    (hbusy : t.Busy = false) (hkeys : t.keys = s.keys) (hfailed : t.failed = s.failed) :
    Served S arg s (t.encrypt (S.getSesskey smsg cmsg).1 (S.getSesskey smsg cmsg).2) := by
  obtain ⟨heanswers, -, hefailed⟩ :=
    Session.encrypt_frame (s := t) (S.getSesskey smsg cmsg).1 (S.getSesskey smsg cmsg).2
  have hall := heanswers.trans hanswers
  refine ⟨⟨_, hall⟩, (hefailed hbusy).trans hfailed, ?_, ?_⟩
  · intro res' m' hres hm
    have hr : arg.answer res = arg.answer res' := by simpa using hall.symm.trans hres
    have hr : res = res' := by
      cases arg <;> simpa [Encryptarg.answer] using hr
    cases hr
    cases hdec.symm.trans hm
    refine ⟨pub, smsg, cmsg, halloc, hsize, henc, hsmsg, hcmsg, ?_⟩
    rw [Session.encrypt_keys, hbusy, hkeys]
    rfl
  · intro hno
    exact absurd hdec (hno res m hall)

theorem served_encryptTo (halone : s.Alone) (halloc : arg.alloc = some (some pub))
    (hopts : pub.opts = sfsEncrypt) : ∃ s', S.encryptTo pub arg s = some s' ∧ Served S arg s s' := by
  cases hsize : pub.checkKeysize with
  | some e =>
    simp only [encryptTo, hsize]
    exact served_reject halone rfl le_rfl rfl rfl e .garbageArgs
  | none =>
    obtain ⟨r, hr⟩ := Sfspub.encrypt_isSome hopts S.rabinEncrypt (S.rnd s.draws kmsgsize).toList
    simp only [encryptTo, hsize, getbytes, hr, Option.bind_eq_bind, Option.bind_some]
    have halone' : { s with draws := s.draws + 1 }.Alone := halone
    have hdraws : s.draws ≤ { s with draws := s.draws + 1 }.draws := Nat.le_succ _
    cases r with
    | none => exact served_reject (s := s) halone' rfl hdraws rfl rfl _ _
    | some res =>
      obtain ⟨s₁, hs₁⟩ := Session.exists_answer halone' (arg.answer res)
      simp only [hs₁, Option.bind_some]
      cases hdec : arg.decrypt S.sk with
      | none =>
        refine ⟨_, rfl, served_setRandomKey halone' hs₁ rfl hdraws rfl rfl ?_⟩
        intro _ m _ hm
        cases hdec.symm.trans hm
      | some m =>
        obtain ⟨smsg, hsmsg⟩ := getKmsg_of_length (S.rnd s.draws kmsgsize).toList_length
        obtain ⟨cmsg, hcmsg⟩ := getKmsg_of_length (Encryptarg.length_decrypt hdec)
        simp only [hsmsg, hcmsg, Option.bind_some]
        have hbusy := (Session.busy_answer hs₁).mpr halone'
        obtain ⟨hanswers, -, hkeys, hfailed⟩ := Session.answer_frame hs₁
        refine ⟨_, rfl, served_encrypt halloc hsize hr hsmsg hdec hcmsg ?_ ?_ ?_ ?_⟩
        all_goals split_ifs <;> assumption

theorem encryptTo_keys (halone : ¬ s.Alone)
    (h : S.encryptTo pub arg s = some s') : s'.keys = s.keys := by
  cases hsize : pub.checkKeysize with
  | some e =>
    simp only [encryptTo, hsize] at h
    exact reject_keys halone h
  | none =>
    simp only [encryptTo, hsize, getbytes, Option.bind_eq_bind, Option.bind_eq_some_iff] at h
    have halone' : ¬ { s with draws := s.draws + 1 }.Alone := halone
    obtain ⟨r, -, h⟩ := h
    cases r with
    | none => exact reject_keys (s := { s with draws := s.draws + 1 }) halone' h
    | some res =>
      obtain ⟨s₁, hs₁, h⟩ := Option.bind_eq_some_iff.mp h
      have hb := busy_answer_of_not_alone halone' hs₁
      have hkeys : s₁.keys = s.keys := (Session.answer_frame hs₁).2.2.1
      cases hdec : arg.decrypt S.sk with
      | none =>
        simp only [hdec] at h
        cases h
        rw [setRandomKey_keys, if_pos hb, hkeys]
      | some m =>
        simp only [hdec, Option.bind_eq_some_iff] at h
        obtain ⟨smsg, -, cmsg, -, h⟩ := h
        cases h
        rw [Session.encrypt_keys, if_pos (by split_ifs <;> exact hb)]
        split_ifs <;> exact hkeys

end Server

/-- The call does not come to a null pointer or a failed assertion over the client's key: it is
refused before the key is made, or the key is made, or the pointer is null and the payment wrong. -/
def KeySafe (arg : Encryptarg) : Prop :=
  S.civers = 0 ∨ arg.made = true ∨
    (arg.isSchnorr = false ∧ hashcashCheck arg.payment S.hostid S.target S.bitcost = false)

namespace Server

theorem crypt_keys {arg : Encryptarg} {s s' : Session} (halone : ¬ s.Alone)
    (h : S.crypt arg s = some s') : s'.keys = s.keys := by
  rw [crypt] at h
  split_ifs at h
  · exact reject_keys halone h
  · obtain ⟨clntpub, -, h⟩ := Option.bind_eq_some_iff.mp h
    obtain ⟨pub, -, h⟩ := Option.bind_eq_some_iff.mp h
    exact encryptTo_keys halone h
  · obtain ⟨clntpub, -, h⟩ := Option.bind_eq_some_iff.mp h
    exact reject_keys halone h

theorem keySafe_of_crypt {arg : Encryptarg} {s s' : Session} (h : S.crypt arg s = some s') :
    KeySafe S arg := by
  rw [crypt] at h
  split_ifs at h with hcivers hpay
  · exact .inl hcivers
  · obtain ⟨clntpub, halloc, h⟩ := Option.bind_eq_some_iff.mp h
    obtain ⟨pub, rfl, -⟩ := Option.bind_eq_some_iff.mp h
    exact .inr (.inl (Encryptarg.made_of_alloc halloc))
  · obtain ⟨clntpub, halloc, -⟩ := Option.bind_eq_some_iff.mp h
    cases hschnorr : arg.isSchnorr with
    | true => cases halloc.symm.trans (Encryptarg.alloc_of_isSchnorr hschnorr)
    | false => exact .inr (.inr ⟨hschnorr, by simpa using hpay⟩)

theorem served_crypt {arg : Encryptarg} {s : Session} (hsafe : KeySafe S arg) (halone : s.Alone) :
    ∃ s', S.crypt arg s = some s' ∧ Served S arg s s' := by
  rw [crypt]
  split_ifs with hcivers hpay
  · exact served_reject halone rfl le_rfl rfl rfl _ _
  · have hmade : arg.made = true := by
      rcases hsafe with h | h | ⟨-, h⟩
      · exact absurd h hcivers
      · exact h
      · exact absurd (h.symm.trans hpay) Bool.false_ne_true
    obtain ⟨pub, halloc, hopts⟩ := Encryptarg.alloc_of_made hmade
    rw [halloc]
    exact served_encryptTo halone halloc hopts
  · obtain ⟨clntpub, halloc⟩ : ∃ clntpub, arg.alloc = some clntpub := by
      cases hmade : arg.made with
      | true =>
        obtain ⟨pub, halloc, -⟩ := Encryptarg.alloc_of_made hmade
        exact ⟨_, halloc⟩
      | false =>
        rcases hsafe with h | h | ⟨h, -⟩
        · exact absurd h hcivers
        · cases hmade.symm.trans h
        · exact ⟨_, Encryptarg.alloc_of_missing hmade h⟩
    rw [halloc]
    exact served_reject halone rfl le_rfl rfl rfl _ _

end Server

/-- The call is served for exactly those arguments whose key is made if it is used, and when no
other call is being served on the transport, which takes no keys then. -/
theorem server_crypt_served (arg : Encryptarg) (s : Session) :
    (∃ s', S.crypt arg s = some s' ∧ Served S arg s s') ↔
      (S.civers = 0 ∨ arg.made = true ∨ (arg.isSchnorr = false ∧
        hashcashCheck arg.payment S.hostid S.target S.bitcost = false)) ∧
      (s.nsvc = none ∨ s.nsvc = some 1) := by
  constructor
  · rintro ⟨s', hcrypt, hserved⟩
    refine ⟨Server.keySafe_of_crypt S hcrypt, ?_⟩
    by_contra halone
    have hkeys := Server.crypt_keys S halone hcrypt
    have hlen : s'.keys.length = s.keys.length + 1 := by
      by_cases hex : ∃ res m, s'.answers = s.answers ++ [arg.answer res] ∧
          arg.decrypt S.sk = some m
      · obtain ⟨res, m, hans, hdec⟩ := hex
        obtain ⟨pub, smsg, cmsg, -, -, -, -, -, hnew⟩ := hserved.negotiated res m hans hdec
        simp [hnew]
      · obtain ⟨n, -, -, hnew⟩ := hserved.random (fun res m hans hdec =>
          hex ⟨res, m, hans, hdec⟩)
        simp [hnew]
    rw [hkeys] at hlen
    omega
  · rintro ⟨hsafe, halone⟩
    exact Server.served_crypt S hsafe halone

end

/-- A server that charges nothing and whose key decrypts nothing. -/
def freeServer : Server Unit Unit where
  sk := ⟨fun _ => none, fun _ _ => none, fun _ _ h => (by cases h), fun _ _ _ h => (by cases h)⟩
  ci := ()
  civers := 5
  si := ()
  hostid := List.replicate 20 0
  target := List.replicate 20 0
  bitcost := 0
  wantsSessid := true
  sha1xdr _ := List.replicate 20 0
  rabinEncrypt _ _ := 0
  rnd _ len := List.Vector.replicate len 0

/-- The transport in the call of its first procedure. -/
def firstCall : Session where
  draws := 0
  answers := []
  nsvc := some 1
  failed := false
  keys := []
  sessid := []
  warns := []

/-- A client's Esign key with the exponent 4 is not made, and its pointer is used. -/
theorem server_crypt_null : ¬ ∀ (S : Server Unit Unit) (arg : Encryptarg) (s : Session),
    s.nsvc = some 1 → ∃ s', S.crypt arg s = some s' ∧ Served S arg s s' := by
  intro h
  have hnull : freeServer.crypt (.v2 (List.replicate 64 0) ⟨0⟩ (.esign 1 4)) firstCall = none := by
    decide +kernel
  obtain ⟨s', hs', -⟩ := h freeServer (.v2 (List.replicate 64 0) ⟨0⟩ (.esign 1 4)) firstCall rfl
  cases hnull.symm.trans hs'

end Sfslite.Sfsmisc.Sesskey
