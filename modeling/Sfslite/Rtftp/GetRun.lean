import Sfslite.Rtftp.Get

/-!
What a get receives of a file that a transfer has left complete, whatever else the server
does in between.
-/

namespace Sfslite.Rtftp

open Sfslite.Arpc Sfslite.Lib

variable {S : Sha1} {fs : Store} {f : File S} {io : Io}

theorem Fd.read_full (fs : Store) {fd : Fd} {rc : IoRc} {len : ℕ} (hwr : fd.wr = false)
    (hrc : rc = .full) (hlen : len ≤ maxRead) :
    fd.read fs rc len = ({ fd with pos := fd.pos + (fs.read fd.ino fd.pos len).length },
      some (fs.read fd.ino fd.pos len)) := by
  simp [Fd.read, hwr, hrc, IoRc.count, Nat.min_eq_left hlen]

theorem val_sizeBytes {sz : ℕ} (h : sz < 2 ^ 64) : Words.val (sizeBytes sz) = sz := by
  rw [sizeBytes, Words.val_ofNat]
  exact Nat.mod_eq_of_lt (by simpa using h)

variable {d : List Byte}

theorem File.readHeader_eq {n : RtftpId} {i : ℕ} {hash : Hash} {size : BitVec 32} (hn : Openable n)
    (hio : io.rw₁ = .full ∧ io.rw₂ = .full) (hdata : fs.data i = fileHeader n hash size ++ d) :
    (File.new S n .get ⟨i, 0, false⟩).readHeader fs io =
      some { File.new S n .get ⟨i, headerLen n, false⟩ with
        offset := headerLen n
        headerOffset := headerLen n
        expectedSz := size.toNat
        expectedHash := hash } := by
  have hpad : padLen n.1.length ≤ 3 := by rw [padLen_eq]; omega
  have hwire := length_headerWire n.1 hash size
  have hlen : n.1.length < 4096 := hn.1
  have hsmall : (headerWire n.1 hash size).length ≤ 0x10000 := by omega
  have hfirst : fs.read i 0 8 = sizeBytes (headerWire n.1 hash size).length := by
    rw [FileStore.read, hdata, fileHeader, List.append_assoc, List.drop_zero]
    exact List.take_left' (length_sizeBytes _)
  have hsecond : fs.read i 8 (headerWire n.1 hash size).length = headerWire n.1 hash size := by
    rw [FileStore.read, hdata, fileHeader, List.append_assoc,
      List.drop_left' (length_sizeBytes _)]
    exact List.take_left' rfl
  have hsum : 8 + (headerWire n.1 hash size).length = headerLen n := by
    rw [hwire, headerLen]
    omega
  have hbuf := buf2xdr_headerWire hash size n.2 (by rw [rpcInfinity]; omega)
  have hval : Words.val (sizeBytes (headerWire n.1 hash size).length) =
      (headerWire n.1 hash size).length := val_sizeBytes (by omega)
  unfold readHeader
  rw [Fd.read_full fs rfl hio.1 (by decide)]
  simp only [File.new, hfirst, hval, length_sizeBytes, ne_eq, not_true_eq_false, false_or,
    Nat.not_lt_of_le hsmall, if_false]
  rw [Fd.read_full fs rfl hio.2 (by rw [maxRead]; omega)]
  simp only [Nat.zero_add, hsecond, hbuf, not_true_eq_false, if_false, hsum]

/-- A transfer that has read `k` bytes of the data of the file `i`, of the name `n`. -/
structure Reading (n : RtftpId) (i k : ℕ) (f : File S) : Prop where
  mode : f.mode = .get
  fd : f.fd = ⟨i, headerLen n + k, false⟩
  offset : f.offset = headerLen n + k
  headerOffset : f.headerOffset = headerLen n

theorem File.readChunk_eq {n : RtftpId} {i k : ℕ} {header : List Byte} (chnk : ChunkId)
    (hf : Reading n i k f) (hoffset : chnk.offset.toNat = k) (hsize : 0 < chnk.size.toNat)
    (hmax : chnk.size.toNat ≤ maxRead) (hio : io.rw₁ = .full)
    (hdata : fs.data i = header ++ d) (hheader : header.length = headerLen n) (hk : k < d.length) :
    ∃ f', f.readChunk fs io chnk = some (f', .ok ⟨chnk, (d.drop k).take chnk.size.toNat⟩) ∧
      Reading n i (min (k + chnk.size.toNat) d.length) f' := by
  have hnext : k + ((d.drop k).take chnk.size.toNat).length =
      min (k + chnk.size.toNat) d.length := by
    rw [List.length_take, List.length_drop]
    omega
  have hread : fs.read i (headerLen n + k) chnk.size.toNat = (d.drop k).take chnk.size.toNat := by
    rw [FileStore.read, hdata, ← hheader, List.drop_append,
      List.drop_eq_nil_of_le (Nat.le_add_right _ _), Nat.add_sub_cancel_left, List.nil_append]
  obtain ⟨b, v, hv⟩ : ∃ b v, (d.drop k).take chnk.size.toNat = b :: v := by
    refine List.exists_cons_of_length_pos ?_
    rw [List.length_take, List.length_drop]
    omega
  have hinf : ¬ rpcInfinity < chnk.size.toNat := by
    rw [maxRead] at hmax
    rw [rpcInfinity]
    omega
  have hseek : f.seekChunk io (chnk.offset.toNat + f.headerOffset) = (f, true) := by
    rw [seekChunk, if_pos]
    rw [hoffset, hf.headerOffset, hf.offset, Nat.add_comm]
  have hwr : f.fd.wr = false := by rw [hf.fd]
  have hfull := Fd.read_full fs hwr hio hmax
  rw [hf.fd] at hfull
  dsimp only at hfull
  rw [hread] at hfull
  refine ⟨{ f with
    fd := ⟨i, headerLen n + k + ((d.drop k).take chnk.size.toNat).length, false⟩
    offset := f.offset + ((d.drop k).take chnk.size.toNat).length }, ?_, hf.mode, ?_, ?_,
    hf.headerOffset⟩
  · unfold readChunk
    rw [if_neg hinf, hseek]
    dsimp only
    rw [hf.fd, hfull, hv]
  · rw [← hnext, ← Nat.add_assoc]
  · rw [← hnext, hf.offset, ← Nat.add_assoc]

section Between

variable {w w' : World S} {cid : ℕ} {cli cli' : Cli S} {fs' : Store}

theorem Cli.dir_put2 {res : Put2Res} {arg : Put2Arg}
    (hput : cli.doPut2 fs io arg = some (fs', cli', res)) (harg : ∀ name, arg ≠ .begin name) :
    fs'.dir = fs.dir := by
  cases arg with
  | begin name => exact absurd rfl (harg name)
  | ok data =>
    simp only [Cli.doPut2] at hput
    split at hput
    · obtain ⟨rfl, -⟩ := by simpa using hput
      rfl
    · next f _ =>
        rcases hw : f.writeChunk fs io data with ⟨fs₁, f₁, s⟩
        rw [hw] at hput
        obtain ⟨rfl, -⟩ := by simpa using hput
        obtain ⟨-, -, rfl, -⟩ | ⟨-, fd₁, hwrote, -⟩ := File.writeChunk_spec hw
        · rfl
        · exact hwrote.dir
  | eof footer =>
    simp only [Cli.doPut2] at hput
    split at hput
    · obtain ⟨rfl, -⟩ := by simpa using hput
      rfl
    · next f _ =>
        rcases hw : f.putFooter fs io footer with ⟨fs₁, f₁, s⟩
        rw [hw] at hput
        dsimp only at hput
        split at hput
        · cases hput
        · obtain ⟨rfl, -⟩ := by simpa using hput
          obtain ⟨-, -, rfl, -⟩ | ⟨-, fd₁, hwrote, -⟩ := File.putFooter_spec hw
          · rfl
          · exact hwrote.dir
  | other =>
    obtain ⟨rfl, -⟩ := by simpa [Cli.doPut2] using hput
    rfl

theorem World.onPut_of_ne {last : RtftpId → Option Put} {n : RtftpId} {p : Put} {tid : ℕ × ℕ}
    (hp : last n = some p) (htid : tid ≠ p.tid) (g : Put → Put) :
    World.onPut last tid g n = some p := by
  rw [World.onPut, hp, Option.map_some, if_neg fun heq => htid heq.symm]

theorem Inv.exec_apart (h : Inv w) {e : Event} {res : Res} {n : RtftpId} {p : Put}
    (hapart : e.Apart cid n p.tid) (hcid : w.srv.clis cid = some cli)
    (hp : w.last n = some p) (hok : p.status = .ok) (hexec : w.exec e = some (w', res)) :
    w'.last n = some p ∧ w'.srv.fs.dir n = w.srv.fs.dir n ∧ w'.srv.clis cid = some cli := by
  simp only [World.exec, Option.bind_eq_bind, Option.bind_eq_some_iff, Option.pure_def,
    Option.some.injEq, Prod.mk.injEq, Prod.exists] at hexec
  obtain ⟨srv, res, hstep, rfl, rfl⟩ := hexec
  cases e with
  | newcli =>
    obtain ⟨rfl, rfl⟩ := by simpa [Srv.step] using hstep
    refine ⟨hp, rfl, ?_⟩
    exact (Function.update_of_ne (Nat.ne_of_lt (h.live cid cli hcid).1) ..).trans hcid
  | hangup c io =>
    simp only [Srv.step, Option.bind_eq_bind, Option.bind_eq_some_iff, Option.pure_def,
      Option.some.injEq, Prod.mk.injEq] at hstep
    obtain ⟨cl, hc, rfl, rfl⟩ := hstep
    refine ⟨hp, (h.hangup_keeps hc io hp (.inr hok)).1, ?_⟩
    rwa [Srv.clis_setCli_of_ne _ _ _ (Ne.symm hapart)]
  | call c req io =>
    simp only [Srv.step, Srv.call, Option.bind_eq_bind, Option.bind_eq_some_iff] at hstep
    obtain ⟨cl, hc, hstep⟩ := hstep
    cases req with
    | get2 arg =>
      simp only [Option.bind_eq_some_iff, Option.pure_def, Option.some.injEq,
        Prod.mk.injEq, Prod.exists] at hstep
      obtain ⟨cl', res, -, rfl, rfl⟩ := hstep
      exact ⟨hp, rfl, by rwa [Srv.clis_setCli_of_ne _ _ _ (Ne.symm hapart)]⟩
    | put2 arg =>
      simp only [Option.bind_eq_some_iff, Option.pure_def, Option.some.injEq,
        Prod.mk.injEq, Prod.exists] at hstep
      obtain ⟨fs₁, cl', res, hput, rfl, rfl⟩ := hstep
      cases arg with
      | begin name =>
        refine ⟨?_, (Cli.begin_keeps hput (Ne.symm hapart.2)).1,
          by rwa [Srv.clis_setCli_of_ne _ _ _ (Ne.symm hapart.1)]⟩
        have hother : ∀ q, Function.update w.last name q n = some p := fun q =>
          (Function.update_of_ne (Ne.symm hapart.2) ..).trans hp
        cases res with
        | begin id => exact hother _
        | status s =>
          rcases hopen : openFile w.srv.fs name true io with _ | _ | opened <;>
            simp only [World.note, hopen]
          · exact hp
          · exact hp
          · exact hother _
      | ok data =>
        exact ⟨World.onPut_of_ne hp hapart.2 _, congrFun (Cli.dir_put2 hput (by simp)) n,
          by rwa [Srv.clis_setCli_of_ne _ _ _ (Ne.symm hapart.1)]⟩
      | eof footer =>
        exact ⟨World.onPut_of_ne hp hapart.2 _, congrFun (Cli.dir_put2 hput (by simp)) n,
          by rwa [Srv.clis_setCli_of_ne _ _ _ (Ne.symm hapart.1)]⟩
      | other =>
        exact ⟨hp, congrFun (Cli.dir_put2 hput (by simp)) n,
          by rwa [Srv.clis_setCli_of_ne _ _ _ (Ne.symm hapart)]⟩

theorem World.exec_get2 {arg : Get2Arg} {res : Get2Res} (hcli : w.srv.clis cid = some cli)
    (hget : cli.doGet2 w.srv.fs io arg = some (cli', res)) :
    w.exec (.call cid (.get2 arg) io) =
      some (⟨w.srv.setCli w.srv.fs cid (some cli'), w.last⟩, .get2 res) := by
  simp [World.exec, Srv.step, Srv.call, hcli, hget, World.note]

end Between

/-- The number of chunks of `c` bytes. -/
def chunks (len c : ℕ) : ℕ := (len + c - 1) / c

theorem lt_chunks {len c j : ℕ} (hc : 0 < c) : j < chunks len c ↔ j * c < len := by
  rw [chunks, Nat.lt_iff_add_one_le, Nat.le_div_iff_mul_le hc, Nat.add_one_mul]
  omega

/-- The `j`-th request for a chunk. -/
def request (id c j : ℕ) : Get2Arg := .ok ⟨id, BitVec.ofNat 32 (j * c), BitVec.ofNat 32 c⟩

/-- The answer to it. -/
def answer (id c : ℕ) (d : List Byte) (j : ℕ) : Get2Arg × Get2Res :=
  (request id c j,
    .ok ⟨⟨id, BitVec.ofNat 32 (j * c), BitVec.ofNat 32 c⟩, (d.drop (j * c)).take c⟩)

/-- A complete transfer `p` of the name `n`, with its footer, in the file `i`. -/
structure Base (n : RtftpId) (p : Put) (i : ℕ) (s : Sys S) : Prop where
  inv : Inv s.w
  last : s.w.last n = some p
  ok : p.status = .ok
  dir : s.w.srv.fs.dir n = some i
  cli : ∃ cli, s.w.srv.clis s.cid = some cli

theorem Base.intact {n : RtftpId} {p : Put} {i : ℕ} {s : Sys S} {footer : Footer}
    (h : Base n p i s) (hfooter : p.footer = some footer) :
    s.w.srv.fs.data i = fileHeader n footer.hash footer.size ++ p.acked ∧
    p.acked.length = footer.size.toNat ∧ S.digest p.acked = footer.hash := by
  obtain ⟨j, footer', hdir, hfooter', hrest⟩ := (h.inv.good n p h.last).intact h.ok
  obtain rfl := Option.some.inj (h.dir.symm.trans hdir)
  obtain rfl := Option.some.inj (hfooter.symm.trans hfooter')
  exact hrest

/-- The server has a transfer for the client that has read `k` bytes. -/
def Serves (n : RtftpId) (i id k : ℕ) (s : Sys S) : Prop :=
  ∃ f, s.w.srv.transfer (s.cid, id) = some f ∧ Reading n i k f

/-- The client has the file. -/
structure Received (d : List Byte) (g : GetCli S) : Prop where
  rc : g.rc = .ok
  out : g.out = d
  check : g.checkFile = true

/-- Chunks are on the way: the first `cr` are received, those up to `v` are answered and
those up to `cs` requested. -/
structure Window (n : RtftpId) (d : List Byte) (hash : Hash) (i c wsz v : ℕ) (s : Sys S) :
    Prop where
  phase : s.g.phase = .transfer
  serves : Serves n i s.g.id (min (v * c) d.length) s
  sz : s.g.sz = d.length
  hsh : s.g.hsh = hash
  chunkSz : s.g.chunkSz = c
  windowSz : s.g.windowSz = wsz
  rc : s.g.rc = .ok
  received : s.g.cr ≤ v
  answered : v ≤ s.g.cs
  sent : s.g.cs ≤ chunks d.length c
  free : s.g.ids + s.g.cs = wsz + s.g.cr
  nbrq : s.g.nbrq = s.g.cs * c
  nbrc : s.g.nbrc = min (s.g.cr * c) d.length
  fed : Fed S s.g.ctx (d.take s.g.nbrc)
  out : s.g.out = d.take s.g.nbrc
  reqs : s.reqs = (List.range' v (s.g.cs - v)).map (request s.g.id c)
  ress : s.ress = (List.range' s.g.cr (v - s.g.cr)).map (answer s.g.id c d)

/-- The exchange is at a stage from which so many events of its own are left. -/
inductive Stage (n : RtftpId) (d : List Byte) (footer : Footer) (i c wsz : ℕ) (s : Sys S) :
    ℕ → Prop
  | start (hg : s.g = GetCli.new S n c wsz) (hreqs : s.reqs = []) (hress : s.ress = []) :
      Stage n d footer i c wsz s (3 * chunks d.length c + 6)
  | asked (hg : s.g = { GetCli.new S n c wsz with phase := .request })
      (hreqs : s.reqs = [.begin n]) (hress : s.ress = []) :
      Stage n d footer i c wsz s (3 * chunks d.length c + 5)
  | answered (id : ℕ) (hg : s.g = { GetCli.new S n c wsz with phase := .request })
      (hreqs : s.reqs = [])
      (hress : s.ress = [(.begin n, .begin ⟨id, footer.size, footer.hash⟩)])
      (hserves : Serves n i id 0 s) : Stage n d footer i c wsz s (3 * chunks d.length c + 4)
  | window (v : ℕ) (h : Window n d footer.hash i c wsz v s) : Stage n d footer i c wsz s
      (3 * (chunks d.length c - s.g.cs) + 2 * (s.g.cs - v) + (v - s.g.cr) + 3)
  | closing (hphase : s.g.phase = .eof) (hg : Received d s.g) (hreqs : s.reqs = [.eof s.g.id])
      (hress : s.ress = []) (hserves : Serves n i s.g.id d.length s) :
      Stage n d footer i c wsz s 2
  | closed (res : Get2Res) (hphase : s.g.phase = .eof) (hg : Received d s.g)
      (hreqs : s.reqs = []) (hress : s.ress = [(.eof s.g.id, res)]) :
      Stage n d footer i c wsz s 1
  | done (hphase : s.g.phase = .done) (hrc : s.g.rc = .ok) (hout : s.g.out = d)
      (hreqs : s.reqs = []) (hress : s.ress = []) : Stage n d footer i c wsz s 0

theorem Stage.other {n : RtftpId} {footer : Footer} {i c wsz k : ℕ} {s : Sys S} {w : World S}
    (h : Stage n d footer i c wsz s k) (hcli : w.srv.clis s.cid = s.w.srv.clis s.cid) :
    Stage n d footer i c wsz { s with w := w } k := by
  have hserves : ∀ {id k : ℕ}, Serves n i id k s → Serves n i id k { s with w := w } := by
    rintro id k ⟨f, hf, hread⟩
    refine ⟨f, ?_, hread⟩
    simpa [Srv.transfer, hcli] using hf
  cases h with
  | start hg hreqs hress => exact .start hg hreqs hress
  | asked hg hreqs hress => exact .asked hg hreqs hress
  | answered id hg hreqs hress hs => exact .answered id hg hreqs hress (hserves hs)
  | window v h => exact .window (s := { s with w := w }) v { h with serves := hserves h.serves }
  | closing hphase hg hreqs hress hs => exact .closing hphase hg hreqs hress (hserves hs)
  | closed res hphase hg hreqs hress => exact .closed res hphase hg hreqs hress
  | done hphase hrc hout hreqs hress => exact .done hphase hrc hout hreqs hress

section Own

variable {n : RtftpId} {p : Put} {footer : Footer} {i c wsz k : ℕ} {s s' : Sys S}

theorem toNat_offset {c j : ℕ} (hc : 0 < c) (hd : d.length < 2 ^ 32)
    (hj : j < chunks d.length c) : (BitVec.ofNat 32 (j * c)).toNat = j * c := by
  have hlt := (lt_chunks hc).mp hj
  rw [BitVec.toNat_ofNat, Nat.mod_eq_of_lt (by omega)]

theorem toNat_size {c : ℕ} (hmax : c ≤ maxRead) : (BitVec.ofNat 32 c).toNat = c := by
  rw [maxRead] at hmax
  rw [BitVec.toNat_ofNat, Nat.mod_eq_of_lt (by omega)]

theorem Window.received_all {v : ℕ} (h : Window n d footer.hash i c wsz v s)
    (hc : 0 < c) (hdigest : S.digest d = footer.hash) (hend : ¬ s.g.Looping) :
    Received d s.g ∧ chunks d.length c = s.g.cs ∧ s.g.cr = s.g.cs ∧ s.g.sz ≤ s.g.nbrq ∧
      s.g.ids = s.g.windowSz := by
  have hguard : ¬ (s.g.nbrq < s.g.sz ∨ s.g.ids < s.g.windowSz) := fun hor =>
    hend ⟨hor, by rw [h.rc]; rfl⟩
  obtain ⟨hnbrq, hids⟩ := not_or.mp hguard
  have hcs := h.received.trans h.answered
  have hfree := h.free
  have hwsz := h.windowSz
  have hcr : s.g.cr = s.g.cs := by omega
  have hnot : ¬ s.g.cs < chunks d.length c := by
    rw [lt_chunks hc, ← h.nbrq, ← h.sz]
    exact hnbrq
  have hall : d.length ≤ s.g.cs * c := by
    rw [← h.nbrq, ← h.sz]
    exact Nat.not_lt.mp hnbrq
  have hnbrc : s.g.nbrc = d.length := by rw [h.nbrc, hcr, Nat.min_eq_right hall]
  have hout := h.out
  have hfed := h.fed
  rw [hnbrc, List.take_length] at hout hfed
  refine ⟨⟨h.rc, hout, ?_⟩, ?_, hcr, Nat.not_lt.mp hnbrq, by omega⟩
  · simp [GetCli.checkFile, hnbrc, h.sz, hfed.final, hdigest, h.hsh]
  · exact Nat.le_antisymm (Nat.not_lt.mp hnot) h.sent

theorem Stage.send (h : Stage n d footer i c wsz s k) (hc : 0 < c)
    (hmax : c ≤ maxRead) (hdigest : S.digest d = footer.hash) (hstep : s.step .send = some s') :
    s'.w = s.w ∧ s'.cid = s.cid ∧ ∃ k', k = k' + 1 ∧ Stage n d footer i c wsz s' k' := by
  obtain ⟨⟨g, arg⟩, hsend, rfl⟩ := Option.map_eq_some_iff.mp hstep
  refine ⟨rfl, rfl, ?_⟩
  cases h with
  | start hg hreqs hress =>
    rw [hg] at hsend
    obtain ⟨rfl, rfl⟩ := by simpa [GetCli.send, GetCli.new] using hsend
    exact ⟨_, rfl, .asked rfl (by simp [hreqs]) hress⟩
  | asked hg => simp [hg, GetCli.send] at hsend
  | answered id hg => simp [hg, GetCli.send] at hsend
  | closing hphase => simp [hphase, GetCli.send] at hsend
  | closed res hphase => simp [hphase, GetCli.send] at hsend
  | done hphase => simp [hphase, GetCli.send] at hsend
  | window v h =>
    simp only [GetCli.send, h.phase, toNat_size hmax, h.chunkSz] at hsend
    have hle₁ := h.received
    have hle₂ := h.answered
    split at hsend
    · split at hsend
      · next hsending =>
          obtain ⟨rfl, rfl⟩ := by simpa using hsend
          obtain ⟨-, hids, hnbrq⟩ := hsending
          have hlt : s.g.cs < chunks d.length c := by
            rw [lt_chunks hc, ← h.nbrq, ← h.sz]
            exact hnbrq
          refine ⟨3 * (chunks d.length c - (s.g.cs + 1)) + 2 * (s.g.cs + 1 - v) +
            (v - s.g.cr) + 3, by omega, .window v { h with
              phase := rfl
              chunkSz := rfl
              answered := Nat.le_succ_of_le hle₂
              sent := hlt
              free := ?_
              nbrq := ?_
              reqs := ?_ }⟩
          · have hfree := h.free
            simp only
            omega
          · simp only [h.nbrq, Nat.add_one_mul]
          · have hrange : s.g.cs + 1 - v = s.g.cs - v + 1 := by omega
            simp only [h.reqs, hrange, List.range'_1_concat, List.map_append, List.map_cons,
              List.map_nil, Nat.add_sub_cancel' hle₂, request, h.nbrq]
      · cases hsend
    · next hend =>
        obtain ⟨hreceived, hall, hcr, hsz, hids⟩ := h.received_all hc hdigest hend
        split at hsend
        · cases hsend
        · obtain ⟨rfl, rfl⟩ := by simpa using hsend
          have hv : v = s.g.cs := by omega
          have hcs : ¬ s.g.cs < chunks d.length c := by omega
          rw [lt_chunks hc, Nat.not_lt] at hcs
          refine ⟨2, by omega, .closing rfl { hreceived with }
            ?_ ?_ ?_⟩
          · simp [h.reqs, hv]
          · simp [h.ress, hv, hcr]
          · have hserves := h.serves
            rwa [hv, Nat.min_eq_right hcs] at hserves

theorem Base.serve (h : Base n p i s) {cli cli' : Cli S} {arg : Get2Arg} {res : Get2Res}
    {reqs : List Get2Arg} (hcli : s.w.srv.clis s.cid = some cli) (hreqs : s.reqs = arg :: reqs)
    (hclean : s.w.Clean (.call s.cid (.get2 arg) io))
    (hget : cli.doGet2 s.w.srv.fs io arg = some (cli', res)) :
    ∃ s', s.step (.serve io) = some s' ∧ Base n p i s' ∧
      s' = { s with w := ⟨s.w.srv.setCli s.w.srv.fs s.cid (some cli'), s.w.last⟩
                    reqs := reqs
                    ress := s.ress ++ [(arg, res)] } := by
  have hexec := World.exec_get2 hcli hget
  refine ⟨_, ?_, ?_, rfl⟩
  · simp [Sys.step, hreqs, hexec]
  · exact ⟨h.inv.exec hclean hexec, h.last, h.ok, h.dir, cli', Srv.clis_setCli_self ..⟩

theorem Stage.serve (h : Stage n p.acked footer i c wsz s k) (hbase : Base n p i s)
    (hfooter : p.footer = some footer) (hc : 0 < c) (hmax : c ≤ maxRead)
    (hio : io.openOk = true ∧ io.rw₁ = .full ∧ io.rw₂ = .full) (hreqs : s.reqs ≠ []) :
    ∃ s', s.step (.serve io) = some s' ∧ Base n p i s' ∧ s'.cid = s.cid ∧
      ∃ k', k = k' + 1 ∧ Stage n p.acked footer i c wsz s' k' := by
  obtain ⟨cli, hcli⟩ := hbase.cli
  obtain ⟨hdata, hlen, hdigest⟩ := hbase.intact hfooter
  have hshort : p.acked.length < 2 ^ 32 := hlen ▸ footer.size.isLt
  cases h with
  | start hg hreqs' => exact absurd hreqs' hreqs
  | answered id hg hreqs' => exact absurd hreqs' hreqs
  | closed res hphase hg hreqs' => exact absurd hreqs' hreqs
  | done hphase hrc hout hreqs' => exact absurd hreqs' hreqs
  | asked hg hreqs' hress =>
    have hopenable := (hbase.inv.good n p hbase.last).openable
    have hget := File.readHeader_eq (S := S) hopenable hio.2 hdata
    have hbegin : cli.doGet2 s.w.srv.fs io (.begin n) =
        some (cli.addFile { File.new S n .get ⟨i, headerLen n, false⟩ with
          offset := headerLen n
          headerOffset := headerLen n
          expectedSz := footer.size.toNat
          expectedHash := footer.hash }, .begin ⟨cli.id, footer.size, footer.hash⟩) := by
      simp [Cli.doGet2, openFile_get hopenable hio.1 hbase.dir, hget, File.xferHeader]
    obtain ⟨s', hstep, hbase', rfl⟩ := hbase.serve hcli hreqs' ⟨trivial, trivial⟩ hbegin
    refine ⟨_, hstep, hbase', rfl, _, rfl, .answered cli.id hg rfl (by simp [hress]) ?_⟩
    exact ⟨_, (Srv.transfer_setCli_self ..).trans (cli.tab_addFile_self _), rfl, rfl, rfl, rfl⟩
  | window v h =>
    obtain ⟨f, hf, hreading⟩ := h.serves
    have htab : cli.tab s.g.id = some f := (Srv.transfer_of_cli hcli).symm.trans hf
    have hlt : v < s.g.cs := by
      refine Nat.lt_of_le_of_ne h.answered fun heq => hreqs ?_
      simp [h.reqs, heq]
    have hv : v < chunks p.acked.length c := Nat.lt_of_lt_of_le hlt h.sent
    have hpos := (lt_chunks hc).mp hv
    rw [Nat.min_eq_left (Nat.le_of_lt hpos)] at hreading
    have hrange : s.g.cs - v = s.g.cs - (v + 1) + 1 := by omega
    have hreqs' := h.reqs
    rw [hrange, List.range'_succ, List.map_cons] at hreqs'
    obtain ⟨f', hread, hreading'⟩ := File.readChunk_eq
      ⟨s.g.id, BitVec.ofNat 32 (v * c), BitVec.ofNat 32 c⟩ hreading
      (toNat_offset hc hshort hv) (by rwa [toNat_size hmax]) (by rwa [toNat_size hmax])
      hio.2.1 hdata (length_fileHeader _ _ _) hpos
    simp only [toNat_size hmax] at hread hreading'
    have hchunk : cli.doGet2 s.w.srv.fs io (request s.g.id c v) =
        some (cli.setFile s.g.id f', (answer s.g.id c p.acked v).2) := by
      simp [Cli.doGet2, request, htab, hread, answer]
    obtain ⟨s', hstep, hbase', rfl⟩ := hbase.serve hcli hreqs'
      ⟨trivial, by simp [World.Sound, World.OnPut, hf, hreading.mode, request]⟩ hchunk
    have hle := h.received
    refine ⟨_, hstep, hbase', rfl,
      3 * (chunks p.acked.length c - s.g.cs) + 2 * (s.g.cs - (v + 1)) + (v + 1 - s.g.cr) + 3,
      by omega, .window (v + 1) { h with
        serves := ?_
        received := Nat.le_succ_of_le hle
        answered := hlt
        reqs := rfl
        ress := ?_ }⟩
    · refine ⟨f', (Srv.transfer_setCli_self ..).trans (cli.tab_setFile_self f'), ?_⟩
      rwa [Nat.add_one_mul]
    · have hrange : v + 1 - s.g.cr = v - s.g.cr + 1 := by omega
      simp only [h.ress, hrange, List.range'_1_concat, List.map_append, List.map_cons,
        List.map_nil, Nat.add_sub_cancel' hle, answer]
  | closing hphase hg hreqs' hress hserves =>
    obtain ⟨f, hf, hreading⟩ := hserves
    have htab : cli.tab s.g.id = some f := (Srv.transfer_of_cli hcli).symm.trans hf
    have heof : cli.doGet2 s.w.srv.fs io (.eof s.g.id) =
        some ({ cli with tab := Function.update cli.tab s.g.id none }, .status .ok) := by
      simp [Cli.doGet2, htab]
    obtain ⟨s', hstep, hbase', rfl⟩ := hbase.serve hcli hreqs' ⟨trivial, trivial⟩ heof
    exact ⟨_, hstep, hbase', rfl, 1, rfl,
      .closed (.status .ok) hphase hg rfl (by simp [hress])⟩

theorem Window.chunk {hash : Hash} {v : ℕ} (h : Window n d hash i c wsz v s) (hc : 0 < c)
    (hd : d.length < 2 ^ 32) (hlt : s.g.cr < v) (io : Io) (hio : io.rw₁ = .full) :
    Window n d hash i c wsz v { s with
      g := s.g.chunk true io (answer s.g.id c d s.g.cr).2
      ress := (List.range' (s.g.cr + 1) (v - (s.g.cr + 1))).map (answer s.g.id c d) } ∧
    (s.g.chunk true io (answer s.g.id c d s.g.cr).2).cs = s.g.cs ∧
    (s.g.chunk true io (answer s.g.id c d s.g.cr).2).cr = s.g.cr + 1 := by
  have hcr : s.g.cr < chunks d.length c :=
    Nat.lt_of_lt_of_le hlt (Nat.le_trans h.answered h.sent)
  have hpos := (lt_chunks hc).mp hcr
  have hnbrc : s.g.nbrc = s.g.cr * c := by rw [h.nbrc, Nat.min_eq_left (Nat.le_of_lt hpos)]
  have hoffset : (BitVec.ofNat 32 (s.g.cr * c)).toNat = s.g.nbrc := by
    rw [toNat_offset hc hd hcr, hnbrc]
  have hnext : s.g.nbrc + ((d.drop (s.g.cr * c)).take c).length =
      min ((s.g.cr + 1) * c) d.length := by
    rw [List.length_take, List.length_drop, hnbrc, Nat.add_one_mul]
    omega
  have htake : d.take s.g.nbrc ++ (d.drop (s.g.cr * c)).take c =
      d.take (min ((s.g.cr + 1) * c) d.length) := by
    rw [hnbrc, ← List.take_add, ← List.take_eq_take_min, Nat.add_one_mul]
  have heq : s.g.chunk true io (answer s.g.id c d s.g.cr).2 = { s.g with
      cr := s.g.cr + 1
      ids := s.g.ids + 1
      out := s.g.out ++ (d.drop (s.g.cr * c)).take c
      ctx := S.update s.g.ctx ((d.drop (s.g.cr * c)).take c)
      nbrc := s.g.nbrc + ((d.drop (s.g.cr * c)).take c).length } := by
    simp only [GetCli.chunk, answer, Bool.true_eq_false, if_false, ne_eq, not_true_eq_false,
      hoffset, hio, IoRc.count, List.take_length]
  rw [heq]
  refine ⟨{ h with
    received := hlt
    free := ?_
    nbrc := hnext
    fed := ?_
    out := ?_
    ress := rfl }, rfl, rfl⟩
  · have hfree := h.free
    simp only
    omega
  · have hfed := h.fed.update ((d.drop (s.g.cr * c)).take c)
    rwa [htake, ← hnext] at hfed
  · simp only
    rw [h.out, htake, hnext]

theorem Stage.recv (h : Stage n d footer i c wsz s k) (hc : 0 < c)
    (hlen : d.length = footer.size.toNat) (hio : io.openOk = true ∧ io.rw₁ = .full)
    (hstep : s.step (.recv true io) = some s') :
    s'.w = s.w ∧ s'.cid = s.cid ∧ ∃ k', k = k' + 1 ∧ Stage n d footer i c wsz s' k' := by
  have hshort : d.length < 2 ^ 32 := hlen ▸ footer.size.isLt
  cases h with
  | start hg hreqs hress => simp [Sys.step, hress] at hstep
  | asked hg hreqs hress => simp [Sys.step, hress] at hstep
  | closing hphase hg hreqs hress => simp [Sys.step, hress] at hstep
  | done hphase hrc hout hreqs hress => simp [Sys.step, hress] at hstep
  | answered id hg hreqs hress hserves =>
    obtain rfl : { s with
        g := { GetCli.new S n c wsz with
          phase := .transfer
          id := id
          sz := footer.size.toNat
          hsh := footer.hash }
        ress := [] } = s' := by
      simpa [Sys.step, hress, hg, GetCli.recv, GetCli.header, hio.1] using hstep
    refine ⟨rfl, rfl, _, rfl, .window 0 ⟨rfl, ?_, hlen.symm, rfl, rfl, rfl, rfl, Nat.le_refl _,
      Nat.le_refl _, Nat.zero_le _, rfl, ?_, ?_, ?_, ?_, hreqs, rfl⟩⟩
    · simpa [Serves] using hserves
    · simp [GetCli.new]
    · simp [GetCli.new]
    · exact Fed.init S
    · simp [GetCli.new]
  | window v h =>
    have hle₁ := h.received
    have hle₂ := h.answered
    have hlt : s.g.cr < v := by
      refine Nat.lt_of_le_of_ne hle₁ fun heq => ?_
      simp [Sys.step, h.ress, heq] at hstep
    have hrange : v - s.g.cr = v - (s.g.cr + 1) + 1 := by omega
    have hress := h.ress
    rw [hrange, List.range'_succ, List.map_cons] at hress
    simp only [Sys.step, hress, GetCli.recv, h.phase] at hstep
    split_ifs at hstep with hloop
    · obtain rfl := Option.some.inj hstep
      obtain ⟨hwindow, hcs, hcr⟩ := h.chunk hc hshort hlt io hio.2
      refine ⟨rfl, rfl, 3 * (chunks d.length c - s.g.cs) + 2 * (s.g.cs - v) +
        (v - (s.g.cr + 1)) + 3, by omega, ?_⟩
      have hstage : Stage n d footer i c wsz _ _ := .window v hwindow
      rwa [hcs, hcr] at hstage
    · cases hstep
  | closed res hphase hg hreqs hress =>
    obtain rfl := by simpa [Sys.step, hress, GetCli.recv, hphase] using hstep
    refine ⟨rfl, rfl, 0, rfl, .done rfl ?_ hg.out hreqs rfl⟩
    simp [GetCli.finish, hg.check, hg.rc]

theorem Stage.step (h : Stage n p.acked footer i c wsz s k) (hbase : Base n p i s)
    (hfooter : p.footer = some footer) (hc : 0 < c) (hmax : c ≤ maxRead) {e : SysEvent}
    (hquiet : s.Quiet n p.tid e) (hstep : s.step e = some s') :
    Base n p i s' ∧ ∃ k', Stage n p.acked footer i c wsz s' k' ∧ (e.Own → k = k' + 1) := by
  obtain ⟨-, hlen, hdigest⟩ := hbase.intact hfooter
  cases e with
  | other e =>
    obtain ⟨w, hw, rfl⟩ := Option.map_eq_some_iff.mp hstep
    obtain ⟨⟨w', res⟩, hexec, rfl⟩ := Option.map_eq_some_iff.mp hw
    obtain ⟨cli, hcli⟩ := hbase.cli
    obtain ⟨hlast, hdir, hcli'⟩ :=
      hbase.inv.exec_apart hquiet.2 hcli hbase.last hbase.ok hexec
    exact ⟨⟨hbase.inv.exec hquiet.1 hexec, hlast, hbase.ok, hdir.trans hbase.dir, cli, hcli'⟩,
      k, h.other (hcli'.trans hcli.symm), fun hown => hown.elim⟩
  | send =>
    obtain ⟨hw, hcid, k', hk, hstage⟩ := h.send hc hmax hdigest hstep
    exact ⟨⟨hw ▸ hbase.inv, hw ▸ hbase.last, hbase.ok, hw ▸ hbase.dir, hw ▸ hcid ▸ hbase.cli⟩,
      k', hstage, fun _ => hk⟩
  | serve io =>
    have hreqs : s.reqs ≠ [] := by
      intro hnil
      simp [Sys.step, hnil] at hstep
    obtain ⟨s₁, hstep₁, hbase₁, -, k', hk, hstage⟩ :=
      h.serve hbase hfooter hc hmax hquiet hreqs
    obtain rfl := Option.some.inj (hstep₁.symm.trans hstep)
    exact ⟨hbase₁, k', hstage, fun _ => hk⟩
  | recv stat io =>
    obtain ⟨rfl, hio⟩ := hquiet
    obtain ⟨hw, hcid, k', hk, hstage⟩ := h.recv hc hlen hio hstep
    exact ⟨⟨hw ▸ hbase.inv, hw ▸ hbase.last, hbase.ok, hw ▸ hbase.dir, hw ▸ hcid ▸ hbase.cli⟩,
      k', hstage, fun _ => hk⟩

/-- The system answers every call in full. -/
def Io.good : Io := ⟨true, true, .full, .full, fun _ => true⟩

theorem Stage.next (h : Stage n p.acked footer i c wsz s (k + 1)) (hbase : Base n p i s)
    (hfooter : p.footer = some footer) (hc : 0 < c) (hmax : c ≤ maxRead) (hwsz : 0 < wsz) :
    ∃ e s', e.Own ∧ s.Quiet n p.tid e ∧ s.step e = some s' := by
  obtain ⟨-, -, hdigest⟩ := hbase.intact hfooter
  have hserve : s.reqs ≠ [] → ∃ e s', e.Own ∧ s.Quiet n p.tid e ∧ s.step e = some s' := by
    intro hreqs
    have hgood : Io.good.openOk = true ∧ Io.good.rw₁ = .full ∧ Io.good.rw₂ = .full :=
      ⟨rfl, rfl, rfl⟩
    obtain ⟨s', hstep, -⟩ := h.serve hbase hfooter hc hmax hgood hreqs
    exact ⟨.serve Io.good, s', trivial, hgood, hstep⟩
  have hsend : s.g.send ≠ none → ∃ e s', e.Own ∧ s.Quiet n p.tid e ∧ s.step e = some s' := by
    intro hsome
    obtain ⟨r, hr⟩ := Option.ne_none_iff_exists'.mp hsome
    exact ⟨.send, _, trivial, trivial, by simp [Sys.step, hr]; rfl⟩
  have hrecv : ∀ arg res ress, s.ress = (arg, res) :: ress →
      s.g.recv arg res true Io.good ≠ none →
      ∃ e s', e.Own ∧ s.Quiet n p.tid e ∧ s.step e = some s' := by
    intro arg res ress hress hsome
    obtain ⟨r, hr⟩ := Option.ne_none_iff_exists'.mp hsome
    exact ⟨.recv true Io.good, _, trivial, ⟨rfl, rfl, rfl⟩, by simp [Sys.step, hress, hr]; rfl⟩
  generalize hk : k + 1 = m at h
  cases h with
  | start hg => exact hsend (by simp [hg, GetCli.send, GetCli.new])
  | asked hg hreqs => exact hserve (by simp [hreqs])
  | answered id hg hreqs hress => exact hrecv _ _ _ hress (by simp [hg, GetCli.recv])
  | closing hphase hg hreqs => exact hserve (by simp [hreqs])
  | closed res hphase hg hreqs hress => exact hrecv _ _ _ hress (by simp [GetCli.recv, hphase])
  | done => cases hk
  | window v h =>
    have hle₁ := h.received
    have hle₂ := h.answered
    have hcs := hle₁.trans hle₂
    by_cases hsending : s.g.Sending
    · have hloop : s.g.Looping := ⟨.inl hsending.2, by rw [h.rc]; rfl⟩
      exact hsend (by simp [GetCli.send, h.phase, hloop, hcs, hsending])
    by_cases hv : v < s.g.cs
    · refine hserve ?_
      rw [h.reqs, ne_eq, List.map_eq_nil_iff, List.range'_eq_nil_iff]
      omega
    by_cases hcr : s.g.cr < v
    · have hrange : v - s.g.cr = v - (s.g.cr + 1) + 1 := by omega
      have hress := h.ress
      rw [hrange, List.range'_succ, List.map_cons] at hress
      have hfree := h.free
      have hwindow := h.windowSz
      have hloop : s.g.Looping := ⟨.inr (by omega), by rw [h.rc]; rfl⟩
      exact hrecv _ _ _ hress (by simp [GetCli.recv, h.phase, hloop, hcs, hsending])
    · have hfree := h.free
      have hwindow := h.windowSz
      have hend : ¬ s.g.Looping := by
        rintro ⟨hnbrq | hids, -⟩
        · exact hsending ⟨by omega, hnbrq⟩
        · omega
      obtain ⟨-, -, hcr, hsz, hids⟩ := h.received_all hc hdigest hend
      exact hsend (by simp [GetCli.send, h.phase, hend, hcr, hsz, hids])

theorem Stage.eq_zero (h : Stage n p.acked footer i c wsz s k) : s.g.phase = .done ↔ k = 0 := by
  cases h with
  | start hg => simp [hg, GetCli.new]
  | asked hg => simp [hg]
  | answered id hg => simp [hg]
  | window v h => simp [h.phase]
  | closing hphase => simp [hphase]
  | closed res hphase => simp [hphase]
  | done hphase => simp [hphase]

theorem Stage.finish (h : Stage n p.acked footer i c wsz s k) (hbase : Base n p i s)
    (hfooter : p.footer = some footer) (hc : 0 < c) (hmax : c ≤ maxRead) (hwsz : 0 < wsz) :
    ∃ es s', (∀ e ∈ es, e.Own) ∧ Run Sys.step (Sys.Quiet n p.tid) s es s' ∧
      s'.g.phase = .done := by
  induction k generalizing s with
  | zero => exact ⟨[], s, by simp, .nil s, h.eq_zero.mpr rfl⟩
  | succ k ih =>
    obtain ⟨e, s₁, hown, hquiet, hstep⟩ := h.next hbase hfooter hc hmax hwsz
    obtain ⟨hbase₁, k', hstage, hk⟩ := h.step hbase hfooter hc hmax hquiet hstep
    obtain rfl : k = k' := by have := hk hown; omega
    obtain ⟨es, s', howns, hrun, hdone⟩ := ih hstage hbase₁
    refine ⟨e :: es, s', ?_, .cons hquiet hstep hrun, hdone⟩
    intro e' he'
    rcases List.mem_cons.mp he' with rfl | he'
    · exact hown
    · exact howns e' he'

end Own

end Sfslite.Rtftp
