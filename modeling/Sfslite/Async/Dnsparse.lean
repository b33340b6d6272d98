import Sfslite.Arpc.Bytes

/-!
Answers of a name server: `dnsparse.h` and `dnsparse.C`. A pointer into the packet is an
offset. The resolver's `dn_expand` and `dn_skipname` are arguments, which answer `none` for
-1. A read behind the packet and a failed assertion are faults; `none` in a result is `false`
or the null pointer.
-/

namespace Sfslite.Async.Dnsparse

open Sfslite.Arpc (Byte)

inductive Fault where
  | outside
  | assertion
deriving DecidableEq, Repr

/-- A name, without the null byte that ends it. -/
abbrev Name := List Byte

def maxdname : ℕ := 1025

/-- `dn_expand (buf, eom, cp, dst, size)`: the bytes that a compressed name takes at `cp`, and
the name. -/
abbrev Expand := List Byte → ℕ → ℕ → Option (ℕ × Name)

/-- `dn_skipname (cp, eom)`. -/
abbrev Skipname := List Byte → ℕ → Option ℕ

def getbytes (pkt : List Byte) (cp n : ℕ) : Except Fault (List Byte) :=
  if cp + n ≤ pkt.length then .ok ((pkt.drop cp).take n) else .error .outside

def getbyte (pkt : List Byte) (cp : ℕ) : Except Fault Byte :=
  match pkt.drop cp with
  | a :: _ => .ok a
  | _ => .error .outside

def getshort (pkt : List Byte) (cp : ℕ) : Except Fault (BitVec 16) :=
  match pkt.drop cp with
  | a :: b :: _ => .ok (a ++ b)
  | _ => .error .outside

def getlong (pkt : List Byte) (cp : ℕ) : Except Fault (BitVec 32) :=
  match pkt.drop cp with
  | a :: b :: c :: d :: _ => .ok (a ++ b ++ c ++ d)
  | _ => .error .outside

def tA : ℕ := 1
def tNs : ℕ := 2
def tCname : ℕ := 5
def tSoa : ℕ := 6
def tPtr : ℕ := 12
def tMx : ℕ := 15
def tTxt : ℕ := 16
def tAfsdb : ℕ := 18
def tSrv : ℕ := 33
def tDname : ℕ := 39

def cIn : ℕ := 1

/-- The members of the union in a `resrec`. -/
inductive Rdata where
  | a (addr : List Byte)
  | cname (name : Name)
  | mx (pref : BitVec 16) (exch : Name)
  | txt (text : List Byte)
  | soa (mname rname : Name) (serial refresh retry expire minimum : BitVec 32)
  | srv (prio weight port : BitVec 16) (target : Name)
  | unknown
deriving DecidableEq, Repr

structure Resrec where
  name : Name
  cls : BitVec 16
  type : BitVec 16
  ttl : BitVec 32
  rdlen : BitVec 16
  data : Rdata
deriving DecidableEq, Repr

/-- The size of `rr_txt`: two names, filled up to a word, and five words. -/
def sizeofTxt : ℕ := (2 * maxdname + 2) + 5 * 4

/-- The cases of the switch in `rrparse`. -/
inductive Case where
  | a
  | name
  | mx
  | txt
  | soa
  | srv
  | default
deriving DecidableEq, Repr

def Case.of (type : ℕ) : Case :=
  if type = tA then .a
  else if type = tNs ∨ type = tCname ∨ type = tDname ∨ type = tPtr then .name
  else if type = tMx ∨ type = tAfsdb then .mx
  else if type = tTxt then .txt
  else if type = tSoa then .soa
  else if type = tSrv then .srv
  else .default

/-- The loop over the strings of a text record, with the strings before them. -/
def txtLoop (pkt : List Byte) (cp rdlen : ℕ) (dp : List Byte) :
    Except Fault (Option (ℕ × List Byte)) :=
  if rdlen = 0 then .ok (some (cp, dp))
  else do
    let c ← getbyte pkt cp
    if c.toNat + 1 > rdlen then .ok none
    else do
      let s ← getbytes pkt (cp + 1) c.toNat
      txtLoop pkt (cp + (c.toNat + 1)) (rdlen - (c.toNat + 1)) (dp ++ s)
termination_by rdlen
decreasing_by omega

/-- The switch of `rrparse`, at the data of a record, and the cursor behind it. -/
def rdparse (expand : Expand) (pkt : List Byte) (cp rdlen : ℕ) :
    Case → Except Fault (Option (ℕ × Rdata))
  | .a => do
      let addr ← getbytes pkt cp 4
      .ok (some (cp + 4, .a addr))
  | .name =>
    match expand pkt cp maxdname with
    | none => .ok none
    | some (n, name) => .ok (some (cp + n, .cname name))
  | .mx =>
    if rdlen < 2 then .ok none
    else do
      let pref ← getshort pkt cp
      match expand pkt (cp + 2) maxdname with
      | none => .ok none
      | some (n, exch) => .ok (some (cp + 2 + n, .mx pref exch))
  | .txt =>
    if rdlen ≥ sizeofTxt ∨ rdlen < 1 then .ok none
    else do
      match ← txtLoop pkt cp rdlen [] with
      | none => .ok none
      | some (cp, text) => .ok (some (cp, .txt text))
  | .soa =>
    match expand pkt cp maxdname with
    | none => .ok none
    | some (n, mname) =>
      match expand pkt (cp + n) maxdname with
      | none => .ok none
      | some (m, rname) =>
        if cp + n + m + 20 > pkt.length then .ok none
        else do
          let serial ← getlong pkt (cp + n + m)
          let refresh ← getlong pkt (cp + n + m + 4)
          let retry ← getlong pkt (cp + n + m + 8)
          let expire ← getlong pkt (cp + n + m + 12)
          let minimum ← getlong pkt (cp + n + m + 16)
          .ok (some (cp + n + m + 20,
            .soa mname rname serial refresh retry expire minimum))
  | .srv =>
    if rdlen < 7 then .ok none
    else do
      let prio ← getshort pkt cp
      let weight ← getshort pkt (cp + 2)
      let port ← getshort pkt (cp + 4)
      match expand pkt (cp + 6) maxdname with
      | none => .ok none
      | some (n, target) => .ok (some (cp + 6 + n, .srv prio weight port target))
  | .default => .ok (some (cp + rdlen, .unknown))

/-- The end of `rrparse`, with its assertion. -/
def finish (e : ℕ) (rrp : Rdata → Resrec) :
    Option (ℕ × Rdata) → Except Fault (Option (ℕ × Resrec))
  | none => .ok none
  | some (cp, data) => if cp = e then .ok (some (cp, rrp data)) else .error .assertion

/-- `rrparse` from a cursor: the cursor behind the record, and the record. -/
def rrparse (expand : Expand) (pkt : List Byte) (cp : ℕ) : Except Fault (Option (ℕ × Resrec)) :=
  match expand pkt cp maxdname with
  | none => .ok none
  | some (n, name) =>
    if cp + n + 10 > pkt.length then .ok none
    else do
      let type ← getshort pkt (cp + n)
      let cls ← getshort pkt (cp + n + 2)
      let ttl ← getlong pkt (cp + n + 4)
      let rdlen ← getshort pkt (cp + n + 8)
      let e := cp + n + 10 + rdlen.toNat
      if e > pkt.length then .ok none
      else do
        let r ← rdparse expand pkt (cp + n + 10) rdlen.toNat (.of type.toNat)
        finish e (fun data => ⟨name, cls, type, ttl, rdlen, data⟩) r

/-- The loops over records that hand each one to `f`. -/
def records (expand : Expand) (pkt : List Byte) (f : σ → Resrec → σ) :
    ℕ → ℕ → σ → Except Fault (Option (ℕ × σ))
  | 0, cp, s => .ok (some (cp, s))
  | n + 1, cp, s => do
      match ← rrparse expand pkt cp with
      | none => .ok none
      | some (cp, rr) => records expand pkt f n cp (f s rr)

def skipnrecs (skipname : Skipname) (pkt : List Byte) : ℕ → ℕ → Except Fault (Option ℕ)
  | 0, cp => .ok (some cp)
  | nrec + 1, cp =>
    match skipname pkt cp with
    | none => .ok none
    | some n =>
      if cp + n + 10 > pkt.length then .ok none
      else do
        let rdlen ← getshort pkt (cp + n + 8)
        if rdlen.toNat > pkt.length - (cp + n + 10) then .ok none
        else skipnrecs skipname pkt nrec (cp + n + 10 + rdlen.toNat)

def sizeofHeader : ℕ := 12

def arerrNxrec : ℕ := 0x101
def arerrBadresp : ℕ := 0x104

/-- A `dnsparse`: the packet, the start of the answers and the counts of the header. -/
structure Packet where
  buf : List Byte
  anp : Option ℕ
  error : ℕ
  ancount : ℕ
  nscount : ℕ
  arcount : ℕ
deriving DecidableEq, Repr

/-- The loop of the constructor over the questions. -/
def skipQuestions (skipname : Skipname) (pkt : List Byte) : ℕ → ℕ → Option ℕ
  | 0, cp => some cp
  | l + 1, cp =>
    match skipname pkt cp with
    | none => none
    | some n =>
      if cp + (n + 4) > pkt.length then none
      else skipQuestions skipname pkt l (cp + (n + 4))

/-- The constructor. -/
def dnsparse (skipname : Skipname) (buf : List Byte) (answer : Bool) : Except Fault Packet :=
  if buf.length > sizeofHeader then do
    let flags ← getbyte buf 2
    let rcode ← getbyte buf 3
    let qdcount ← getshort buf 4
    let ancount ← getshort buf 6
    let nscount ← getshort buf 8
    let arcount ← getshort buf 10
    let pkt : Packet := ⟨buf, none, 0, ancount.toNat, nscount.toNat, arcount.toNat⟩
    .ok <|
      if rcode &&& 0xf ≠ 0 then { pkt with error := (rcode &&& 0xf).toNat }
      else if flags.msb ≠ answer then { pkt with error := arerrBadresp }
      else if qdcount = 0 then { pkt with error := arerrBadresp }
      else
        match skipQuestions skipname buf qdcount.toNat sizeofHeader with
        | none => { pkt with error := arerrBadresp }
        | some cp => { pkt with anp := some cp }
  else .ok ⟨buf, none, arerrBadresp, 0, 0, 0⟩

structure Hostent where
  name : Name
  aliases : List Name
  addrList : List (List Byte)
deriving DecidableEq, Repr

def tolower (c : Byte) : Byte := if 0x41 ≤ c ∧ c ≤ 0x5a then c + 0x20 else c

/-- `strcasecmp`, on names that a null byte ends. -/
def strcasecmp : Name → Name → ℤ
  | [], [] => 0
  | [], b :: _ => -(tolower b).toNat
  | a :: _, [] => (tolower a).toNat
  | a :: as, b :: bs =>
    if tolower a = tolower b then strcasecmp as bs
    else (tolower a).toNat - (tolower b).toNat

structure Addrhint where
  name : Name
  address : List Byte
deriving DecidableEq, Repr

def hintStep (nset : List Name) (hv : List Addrhint) (rr : Resrec) : List Addrhint :=
  if rr.cls.toNat ≠ cIn ∨ rr.name ∉ nset then hv
  else
    match rr.data with
    | .a addr => hv ++ [⟨rr.name, addr⟩]
    | _ => hv

/-- `gethints`, from the start of the answers. -/
def gethints (expand : Expand) (skipname : Skipname) (p : Packet) (nset : List Name) (cp : ℕ) :
    Except Fault (Option (List Addrhint)) := do
  match ← skipnrecs skipname p.buf (p.ancount + p.nscount) cp with
  | none => .ok none
  | some cp => do
      match ← records expand p.buf (hintStep nset) p.arcount cp [] with
      | none => .ok none
      | some (_, hv) => .ok (some hv)

end Sfslite.Async.Dnsparse
