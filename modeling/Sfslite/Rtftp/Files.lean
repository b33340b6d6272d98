import Sfslite.Rtftp.Srv
import Sfslite.Lib.Run

/-!
What one operation on an open file does, and the record of the last transfer begun on every name.
`Sound` is the condition under which a transfer that ends with `RTFTP_OK` has left its bytes in the
file.
-/

namespace Sfslite.Rtftp

open Sfslite.Arpc Sfslite.Lib

variable {S : Sha1} {fs fs' : Store} {fd fd' : Fd} {f f' : File S} {io : Io} {rc : IoRc}

/-- The file behind `fd` may have changed, and the position. -/
structure Wrote (fs fs' : Store) (fd fd' : Fd) : Prop where
  dir : fs'.dir = fs.dir
  others : ∀ j, j ≠ fd.ino → fs'.data j = fs.data j
  ino : fd'.ino = fd.ino
  wr : fd'.wr = fd.wr

theorem Wrote.refl (fs : Store) (fd : Fd) : Wrote fs fs fd fd :=
  ⟨rfl, fun _ _ => rfl, rfl, rfl⟩

theorem Wrote.trans {fs'' : Store} {fd'' : Fd} (h : Wrote fs fs' fd fd')
    (h' : Wrote fs' fs'' fd' fd'') : Wrote fs fs'' fd fd'' where
  dir := h'.dir.trans h.dir
  others j hj := (h'.others j (by rwa [h.ino])).trans (h.others j hj)
  ino := h'.ino.trans h.ino
  wr := h'.wr.trans h.wr

theorem Fd.write_spec {r : Option ℕ} {v : List Byte} (h : fd.write fs rc v = (fs', fd', r)) :
    Wrote fs fs' fd fd' ∧ (r = some v.length →
      fs'.data fd.ino = overwrite 0 (fs.data fd.ino) fd.pos v ∧
      fd'.pos = fd.pos + v.length) := by
  unfold Fd.write at h
  split at h
  · split at h
    · obtain ⟨rfl, rfl, rfl⟩ := by simpa using h
      exact ⟨.refl _ _, by simp⟩
    · obtain ⟨rfl, rfl, rfl⟩ := by simpa using h
      refine ⟨⟨FileStore.dir_write .., fun j hj => FileStore.data_write_of_ne _ _ _ _ hj,
        rfl, rfl⟩, ?_⟩
      intro hr
      obtain rfl := Option.some.inj hr
      rw [List.take_length, FileStore.data_write_self]
      exact ⟨rfl, rfl⟩
  · obtain ⟨rfl, rfl, rfl⟩ := by simpa using h
    exact ⟨.refl _ _, by simp⟩

theorem Fd.write_nil {r : Option ℕ} (h : fd.write fs rc [] = (fs', fd', r)) :
    fs' = fs ∧ fd' = fd := by
  unfold Fd.write at h
  split at h
  · split at h
    · obtain ⟨rfl, rfl, rfl⟩ := by simpa using h
      exact ⟨rfl, rfl⟩
    · next n hn =>
        have hzero : n = 0 := by
          cases rc <;> simp [IoRc.count] at hn <;> omega
        obtain ⟨rfl, rfl, rfl⟩ := by simpa using h
        subst hzero
        exact ⟨by simp [FileStore.write], rfl⟩
  · obtain ⟨rfl, rfl, rfl⟩ := by simpa using h
    exact ⟨rfl, rfl⟩

theorem Fd.write_of_not_wr (hwr : fd.wr = false) (v : List Byte) :
    fd.write fs rc v = (fs, fd, none) := by
  simp [Fd.write, hwr]

theorem Fd.read_of_wr (hwr : fd.wr = true) (len : ℕ) : fd.read fs rc len = (fd, none) := by
  simp [Fd.read, hwr]

@[simp] theorem length_sizeBytes (sz : ℕ) : (sizeBytes sz).length = 8 := Words.length_ofNat 8 sz

/-- The length of the header depends on the name alone. -/
def headerLen (n : RtftpId) : ℕ := 40 + n.1.length + padLen n.1.length

theorem length_fileHeader (n : RtftpId) (hash : Hash) (size : BitVec 32) :
    (fileHeader n hash size).length = headerLen n := by
  simp only [fileHeader, List.length_append, length_sizeBytes, length_headerWire, headerLen]
  omega

/-- The two writes of `write_header`. -/
def putHeader (d : List Byte) (pos : ℕ) (n : RtftpId) (hash : Hash) (size : BitVec 32) :
    List Byte :=
  overwrite 0 (overwrite 0 d pos (sizeBytes (headerWire n.1 hash size).length)) (pos + 8)
    (headerWire n.1 hash size)

theorem prefix_putHeader (d : List Byte) (n : RtftpId) (hash : Hash) (size : BitVec 32) :
    fileHeader n hash size <+: putHeader d 0 n hash size := by
  have hsize := overwrite_prefix 0 (sizeBytes (headerWire n.1 hash size).length)
    (List.nil_prefix (l := d))
  have hwire := overwrite_prefix 0 (headerWire n.1 hash size) hsize
  rwa [List.nil_append, length_sizeBytes] at hwire

variable {n : RtftpId}

theorem putHeader_eq {old : List Byte} (hold : old.length = headerLen n)
    (hash : Hash) (size : BitVec 32) (s : List Byte) :
    putHeader (old ++ s) 0 n hash size = fileHeader n hash size ++ s := by
  have hlen : (old.take 8).length = 8 := by
    rw [List.length_take, hold, headerLen]
    omega
  have hrest : (old.drop 8).length = (headerWire n.1 hash size).length := by
    rw [List.length_drop, hold, length_headerWire, headerLen]
    omega
  have hfirst := overwrite_middle 0 [] (old.drop 8 ++ s)
    (p := old.take 8) (v := sizeBytes (headerWire n.1 hash size).length) (by simp [hlen])
  have hsecond := overwrite_middle 0 (sizeBytes (headerWire n.1 hash size).length) s hrest
  simp only [List.nil_append, List.length_nil, ← List.append_assoc, List.take_append_drop]
    at hfirst
  rw [length_sizeBytes] at hsecond
  rw [putHeader, hfirst, hsecond, fileHeader]

namespace File

theorem myWrite_spec {v : List Byte} {ok : Bool} (h : f.myWrite fs rc v = (fs', f', ok)) :
    ∃ fd', f' = { f with fd := fd' } ∧ Wrote fs fs' f.fd fd' ∧
      (ok = true → fs'.data f.fd.ino = overwrite 0 (fs.data f.fd.ino) f.fd.pos v ∧
        fd'.pos = f.fd.pos + v.length) := by
  rcases hw : f.fd.write fs rc v with ⟨fs₁, fd₁, r⟩
  simp only [myWrite, hw, Prod.mk.injEq] at h
  obtain ⟨rfl, rfl, rfl⟩ := h
  obtain ⟨hwrote, hfull⟩ := Fd.write_spec hw
  exact ⟨fd₁, rfl, hwrote, fun hok => hfull (by simpa using hok)⟩

theorem writeHeader_spec {hash : Hash} {size : BitVec 32} {ok : Bool}
    (h : f.writeHeader fs io ⟨magic, some n.1, hash, size⟩ = (fs', f', ok)) :
    ∃ fd', f' = { f with fd := fd' } ∧ Wrote fs fs' f.fd fd' ∧
      (ok = true → fs'.data f.fd.ino = putHeader (fs.data f.fd.ino) f.fd.pos n hash size ∧
        fd'.pos = f.fd.pos + headerLen n) := by
  simp only [writeHeader, xdr2str_eq] at h
  rcases hfirst : f.myWrite fs io.rw₁ (sizeBytes (headerWire n.1 hash size).length) with
    ⟨fs₁, f₁, ok₁⟩
  obtain ⟨fd₁, rfl, hwrote₁, hfull₁⟩ := myWrite_spec hfirst
  rw [hfirst] at h
  cases ok₁ with
  | false =>
    obtain ⟨rfl, rfl, rfl⟩ := by simpa using h
    exact ⟨fd₁, rfl, hwrote₁, by simp⟩
  | true =>
    obtain ⟨fd₂, rfl, hwrote₂, hfull₂⟩ := myWrite_spec h
    refine ⟨fd₂, rfl, hwrote₁.trans hwrote₂, fun hok => ?_⟩
    obtain ⟨hdata₁, hpos₁⟩ := hfull₁ rfl
    obtain ⟨hdata₂, hpos₂⟩ := hfull₂ hok
    simp only [hwrote₁.ino, hdata₁, hpos₁, length_sizeBytes] at hdata₂ hpos₂
    refine ⟨hdata₂, ?_⟩
    rw [hpos₂, length_headerWire, headerLen]
    omega

/-- Once a chunk is in sequence the context has its data, whether they are written or not. -/
theorem writeChunk_spec {arg : Chunk} {s : Status} (h : f.writeChunk fs io arg = (fs', f', s)) :
    (s = .outOfSeq ∧ arg.id.offset.toNat ≠ f.sz ∧ fs' = fs ∧ f' = f) ∨
    (arg.id.offset.toNat = f.sz ∧ ∃ fd', Wrote fs fs' f.fd fd' ∧
      (arg.data = [] → fs' = fs ∧ fd' = f.fd) ∧
      ((s = .efs ∧ f' = { f with ctx := S.update f.ctx arg.data, fd := fd' }) ∨
       (s = .ok ∧ f' = { f with ctx := S.update f.ctx arg.data, fd := fd',
                                sz := f.sz + arg.data.length } ∧
        fs'.data f.fd.ino = overwrite 0 (fs.data f.fd.ino) f.fd.pos arg.data ∧
        fd'.pos = f.fd.pos + arg.data.length))) := by
  unfold writeChunk at h
  split at h
  · next hseq =>
      obtain ⟨rfl, rfl, rfl⟩ := by simpa using h
      exact .inl ⟨rfl, hseq, rfl, rfl⟩
  · next hseq =>
      refine .inr ⟨not_not.mp hseq, ?_⟩
      rcases hw : f.fd.write fs io.rw₁ arg.data with ⟨fs₁, fd₁, r⟩
      obtain ⟨hwrote, hfull⟩ := Fd.write_spec hw
      have hnil : arg.data = [] → fs₁ = fs ∧ fd₁ = f.fd := by
        intro hnil
        rw [hnil] at hw
        exact Fd.write_nil hw
      simp only [myWrite, hw] at h
      cases hr : r == some arg.data.length with
      | false =>
        rw [hr] at h
        obtain ⟨rfl, rfl, rfl⟩ := by simpa using h
        exact ⟨fd₁, hwrote, hnil, .inl ⟨rfl, rfl⟩⟩
      | true =>
        rw [hr] at h
        obtain ⟨rfl, rfl, rfl⟩ := by simpa using h
        exact ⟨fd₁, hwrote, hnil, .inr ⟨rfl, rfl, hfull (by simpa using hr)⟩⟩

/-- The footer of `putFooter` agrees with what the file has received. -/
def Matches (f : File S) (footer : Footer) : Prop :=
  f.sz = footer.size.toNat ∧ footer.hash = (S.final f.ctx).2

instance (f : File S) (footer : Footer) : Decidable (f.Matches footer) :=
  inferInstanceAs (Decidable (_ ∧ _))

theorem putFooter_spec {footer : Footer} {s : Status}
    (h : f.putFooter fs io footer = (fs', f', s)) :
    (s = .corrupt ∧ ¬ f.Matches footer ∧ fs' = fs ∧
      f' = { f with ctx := (S.final f.ctx).1 }) ∨
    (f.Matches footer ∧ ∃ fd', Wrote fs fs' f.fd fd' ∧
      f' = { f with ctx := (S.final f.ctx).1, fd := fd' } ∧
      (s = .efs ∨ s = .ok ∧
        fs'.data f.fd.ino = putHeader (fs.data f.fd.ino) 0 f.file footer.hash footer.size)) := by
  unfold putFooter at h
  dsimp only at h
  split at h
  · next hsz =>
      obtain ⟨rfl, rfl, rfl⟩ := by simpa using h
      exact .inl ⟨rfl, fun hm => hsz hm.1, rfl, rfl⟩
  · next hsz =>
      split at h
      · next hhash =>
          obtain ⟨rfl, rfl, rfl⟩ := by simpa using h
          exact .inl ⟨rfl, fun hm => hhash hm.2, rfl, rfl⟩
      · next hhash =>
          have hsz : f.sz = footer.size.toNat := not_not.mp hsz
          have hhash : footer.hash = (S.final f.ctx).2 := not_not.mp hhash
          refine .inr ⟨⟨hsz, hhash⟩, ?_⟩
          split at h
          · rcases hw : ({ f with ctx := (S.final f.ctx).1,
                                  fd := { f.fd with pos := 0 } } : File S).writeHeader fs io
                ⟨magic, some f.file.1, (S.final f.ctx).2, BitVec.ofNat 32 f.sz⟩ with
              ⟨fs₁, f₁, ok⟩
            obtain ⟨fd₁, rfl, hwrote, hfull⟩ := writeHeader_spec hw
            have hwrote : Wrote fs fs₁ f.fd fd₁ :=
              { hwrote with }
            have hsize : BitVec.ofNat 32 f.sz = footer.size := by
              rw [hsz, BitVec.ofNat_toNat, BitVec.setWidth_eq]
            rw [hw] at h
            cases ok with
            | true =>
              obtain ⟨rfl, rfl, rfl⟩ := by simpa using h
              refine ⟨fd₁, hwrote, rfl, .inr ⟨rfl, ?_⟩⟩
              rw [hhash, ← hsize]
              exact (hfull rfl).1
            | false =>
              obtain ⟨rfl, rfl, rfl⟩ := by simpa using h
              exact ⟨fd₁, hwrote, rfl, .inl rfl⟩
          · obtain ⟨rfl, rfl, rfl⟩ := by simpa using h
            exact ⟨f.fd, .refl _ _, rfl, .inl rfl⟩

end File

/-- The name can be opened, if the system does not refuse. -/
def Openable (n : RtftpId) : Prop :=
  n.1.length < pathMax ∧ ∃ c rest, n.1 = c :: rest ∧ c ≠ 47

theorem openFile_put (h : openFile fs n true io = some (some (fs', fd))) :
    Openable n ∧ fs' = (fs.create n).1 ∧ fd = ⟨(fs.create n).2, 0, true⟩ := by
  unfold openFile at h
  split at h
  · simp at h
  · next c rest hn =>
      simp only [if_true] at h
      split_ifs at h with hslash hlen
      · exact absurd h (by simp)
      · obtain ⟨rfl, rfl⟩ := by simpa using h
        exact ⟨⟨by omega, c, rest, hn, hslash⟩, rfl, rfl⟩

theorem openFile_get {i : ℕ} (hn : Openable n) (hio : io.openOk = true)
    (hdir : fs.dir n = some i) : openFile fs n false io = some (some (fs, ⟨i, 0, false⟩)) := by
  obtain ⟨hlen, c, rest, hn, hslash⟩ := hn
  have hok : ¬ (pathMax ≤ n.1.length ∨ io.openOk = false) :=
    not_or.mpr ⟨Nat.not_le_of_lt hlen, by simp [hio]⟩
  unfold openFile
  split
  · next hnil => exact absurd (hn.symm.trans hnil) (by simp)
  · next hcons =>
      obtain ⟨rfl, -⟩ := List.cons.inj (hn.symm.trans hcons)
      rw [if_neg hslash, if_neg hok, if_neg (by simp), hdir]

/-- A transfer: the data of the chunks that were answered `RTFTP_OK`, the answer to the last
footer with that footer, and whether the data of a chunk could not be written. -/
structure Put where
  tid : ℕ × ℕ
  acked : List Byte
  status : Status
  footer : Option Footer
  spoiled : Bool
  deriving DecidableEq

namespace Put

def new (tid : ℕ × ℕ) : Put := ⟨tid, [], .incomplete, none, false⟩

def chunk (p : Put) (data : List Byte) : Put2Res → Put
  | .status .ok => { p with acked := p.acked ++ data }
  | .status .efs => { p with spoiled := p.spoiled || !data.isEmpty }
  | _ => p

def foot (p : Put) (footer : Footer) : Put2Res → Put
  | .begin _ | .status .noent => p
  | .status s => { p with status := s, footer := some footer }

end Put

/-- The server and the last transfer of every name. -/
structure World (S : Sha1) where
  srv : Srv S
  last : RtftpId → Option Put

namespace World

def init (S : Sha1) (fs : Store) : World S := ⟨⟨fs, fun _ => none, 0⟩, fun _ => none⟩

/-- The record of `tid` is changed, wherever it stands. -/
def onPut (last : RtftpId → Option Put) (tid : ℕ × ℕ) (g : Put → Put) : RtftpId → Option Put :=
  fun n => (last n).map fun p => if p.tid = tid then g p else p

/-- A name has no transfer once a later one has opened its file and failed. -/
def note (w : World S) : Event → Res → RtftpId → Option Put
  | .call cid (.put2 (.begin name)) _, .put2 (.begin id) =>
    Function.update w.last name (some (Put.new (cid, id)))
  | .call _ (.put2 (.begin name)) io, .put2 (.status _) =>
    match openFile w.srv.fs name true io with
    | some (some _) => Function.update w.last name none
    | _ => w.last
  | .call cid (.put2 (.ok data)) _, .put2 res =>
    onPut w.last (cid, data.id.xferId) fun p => p.chunk data.data res
  | .call cid (.put2 (.eof footer)) _, .put2 res =>
    onPut w.last (cid, footer.xferId) fun p => p.foot footer res
  | _, _ => w.last

def exec (w : World S) (e : Event) : Option (World S × Res) := do
  let (srv, res) ← w.srv.step e
  return (⟨srv, w.note e res⟩, res)

def step (w : World S) (e : Event) : Option (World S) := (w.exec e).map Prod.fst

/-- The condition `P` on the transfer `tid`, if it is a put. -/
def OnPut (w : World S) (tid : ℕ × ℕ) (P : File S → Prop) : Prop :=
  match w.srv.transfer tid with
  | none => True
  | some f => f.mode = .put → P f

/-- The transfer is the last one of its name, and `P` holds of its record. -/
def IsLast (w : World S) (tid : ℕ × ℕ) (f : File S) (P : Put → Prop) : Prop :=
  match w.last f.file with
  | none => False
  | some p => p.tid = tid ∧ P p

/-- One transfer of a name at a time: before one begins the last one has its file complete
or is gone, and chunks and footers are of the last one. -/
def OneTransfer (w : World S) : Event → Prop
  | .call _ (.put2 (.begin name)) _ =>
    match w.last name with
    | none => True
    | some p => p.status = .ok ∨ w.srv.transfer p.tid = none
  | .call cid (.put2 (.ok data)) _ =>
    w.OnPut (cid, data.id.xferId) fun f => w.IsLast (cid, data.id.xferId) f fun _ => True
  | .call cid (.put2 (.eof footer)) _ =>
    w.OnPut (cid, footer.xferId) fun f => w.IsLast (cid, footer.xferId) f fun _ => True
  | _ => True

/-- What the code does not see to. No data in sequence comes after the transfer was
answered `RTFTP_OK`; a footer whose size and checksum match is the first one, finds no
data that could not be written, and nothing in the file behind the data; and no read
moves the position of a put. -/
def Sound (w : World S) : Event → Prop
  | .call cid (.put2 (.ok data)) _ =>
    w.OnPut (cid, data.id.xferId) fun f =>
      f.putStatus = .ok → data.id.offset.toNat ≠ f.sz ∨ data.data = []
  | .call cid (.put2 (.eof footer)) _ =>
    w.OnPut (cid, footer.xferId) fun f =>
      f.Matches footer →
        f.putStatus = .incomplete ∧
        w.IsLast (cid, footer.xferId) f (fun p => p.spoiled = false) ∧
        (w.srv.fs.data f.fd.ino).length ≤ headerLen f.file + f.sz
  | .call cid (.get2 (.ok chunk)) _ =>
    w.OnPut (cid, chunk.xferId) fun _ => chunk.offset = 0
  | _ => True

def Clean (w : World S) (e : Event) : Prop := w.OneTransfer e ∧ w.Sound e

instance (w : World S) (tid : ℕ × ℕ) (P : File S → Prop) [∀ f, Decidable (P f)] :
    Decidable (w.OnPut tid P) :=
  match h : w.srv.transfer tid with
  | none => isTrue (by simp [OnPut, h])
  | some f => decidable_of_iff (f.mode = .put → P f) (by simp [OnPut, h])

instance (w : World S) (tid : ℕ × ℕ) (f : File S) (P : Put → Prop) [∀ p, Decidable (P p)] :
    Decidable (w.IsLast tid f P) :=
  match h : w.last f.file with
  | none => isFalse (by simp [IsLast, h])
  | some p => decidable_of_iff (p.tid = tid ∧ P p) (by simp [IsLast, h])

instance (w : World S) : (e : Event) → Decidable (w.OneTransfer e)
  | .call _ (.put2 (.begin name)) _ =>
    match h : w.last name with
    | none => isTrue (by simp [OneTransfer, h])
    | some p => decidable_of_iff (p.status = .ok ∨ (w.srv.transfer p.tid).isNone)
        (by simp [OneTransfer, h])
  | .call _ (.put2 (.ok _)) _ => inferInstanceAs (Decidable (w.OnPut _ _))
  | .call _ (.put2 (.eof _)) _ => inferInstanceAs (Decidable (w.OnPut _ _))
  | .call _ (.put2 .other) _ => isTrue trivial
  | .call _ (.get2 _) _ => isTrue trivial
  | .newcli => isTrue trivial
  | .hangup _ _ => isTrue trivial

instance (w : World S) : (e : Event) → Decidable (w.Sound e)
  | .call _ (.put2 (.begin _)) _ => isTrue trivial
  | .call _ (.put2 (.ok _)) _ => inferInstanceAs (Decidable (w.OnPut _ _))
  | .call _ (.put2 (.eof _)) _ => inferInstanceAs (Decidable (w.OnPut _ _))
  | .call _ (.put2 .other) _ => isTrue trivial
  | .call _ (.get2 (.ok _)) _ => inferInstanceAs (Decidable (w.OnPut _ _))
  | .call _ (.get2 (.begin _)) _ => isTrue trivial
  | .call _ (.get2 (.eof _)) _ => isTrue trivial
  | .call _ (.get2 .other) _ => isTrue trivial
  | .newcli => isTrue trivial
  | .hangup _ _ => isTrue trivial

instance (w : World S) (e : Event) : Decidable (w.Clean e) := inferInstanceAs (Decidable (_ ∧ _))

end World

end Sfslite.Rtftp
