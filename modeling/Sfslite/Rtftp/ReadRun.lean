import Sfslite.Rtftp.GetRun

/-!
The chunks of a get, asked for in any order. `read_chunk` counts the bytes that it reads but does
not note where it seeks to, so after the first seek the position it remembers is never that of the
file again.
-/

namespace Sfslite.Rtftp

open Sfslite.Arpc Sfslite.Lib

variable {S : Sha1} {f f' : File S} {chnk : ChunkId}

def Get2Res.bytes : Get2Res → ℕ
  | .ok chunk => chunk.data.length
  | _ => 0

/-- A request for a chunk, with the files as it finds them. -/
structure Request where
  fs : Store
  io : Io
  chnk : ChunkId

/-- An open file, with the bytes that were sent of it and whether some request made it seek. -/
structure Transfer (S : Sha1) where
  file : File S
  sent : ℕ
  seeked : Bool

def Transfer.step (t : Transfer S) (r : Request) : Option (Transfer S) := do
  let (f, res) ← t.file.readChunk r.fs r.io r.chnk
  some ⟨f, t.sent + res.bytes,
    t.seeked || decide (r.chnk.offset.toNat ≠ t.sent) && r.io.seekOk⟩

def File.asked (f : File S) (chnk : ChunkId) : ℕ := chnk.offset.toNat + f.headerOffset

/-- From whatever the file holds, `chnk` is answered with the bytes at its offset. -/
def File.Right (f : File S) (chnk : ChunkId) : Prop :=
  ∀ (fs : Store) (io : Io), io.seekOk = true → io.rw₁ = .full →
    (f.readChunk fs io chnk).map Prod.snd =
      some (if (fs.data f.fd.ino).length ≤ f.asked chnk then .status .eof
        else .ok ⟨chnk, fs.read f.fd.ino (f.asked chnk) chnk.size.toNat⟩)

/-- Where `read_chunk` reads. -/
def File.place (f : File S) (io : Io) (o : ℕ) : ℕ :=
  if o ≠ f.offset ∧ io.seekOk then o else f.fd.pos

theorem File.seekChunk_eq (f : File S) (io : Io) (o : ℕ) :
    f.seekChunk io o = ({ f with fd := { f.fd with pos := f.place io o } },
      decide (o = f.offset) || io.seekOk && !(BitVec.ofNat 32 o).msb) := by
  unfold seekChunk place
  by_cases ho : o = f.offset
  · simp [ho]
  · cases io.seekOk <;> simp [ho]

theorem Fd.read_cases (fd : Fd) (fs : Store) (rc : IoRc) (len : ℕ) :
    fd.read fs rc len = (fd, none) ∨
      ∃ v, fd.read fs rc len = ({ fd with pos := fd.pos + v.length }, some v) := by
  unfold Fd.read
  split
  · exact Or.inl rfl
  · split
    · exact Or.inl rfl
    · exact Or.inr ⟨_, rfl⟩

theorem File.readChunk_moves {fs : Store} {io : Io} {res : Get2Res}
    (h : f.readChunk fs io chnk = some (f', res)) :
    f' = { f with
      fd := { f.fd with pos := f.place io (f.asked chnk) + res.bytes }
      offset := f.offset + res.bytes } := by
  unfold readChunk at h
  split at h
  · cases h
  rw [← asked, seekChunk_eq] at h
  split at h
  · rename_i hseek
    cases h
    rw [← (Prod.mk.inj hseek).1]
    rfl
  · rename_i hseek
    rw [← (Prod.mk.inj hseek).1] at h
    dsimp only at h
    obtain hread | ⟨v, hread⟩ := Fd.read_cases
      { f.fd with pos := f.place io (f.asked chnk) } fs io.rw₁ chnk.size.toNat
    · rw [hread] at h
      cases h
      rfl
    · rw [hread] at h
      cases v with
      | nil =>
        cases h
        rfl
      | cons b v =>
        cases h
        rfl

/-- What every request keeps. -/
structure Transfer.Inv (t : Transfer S) : Prop where
  wr : t.file.fd.wr = false
  offset : t.file.offset = t.file.headerOffset + t.sent
  pos : t.file.fd.pos = t.file.offset ↔ t.seeked = false

theorem Transfer.Inv.step {t t' : Transfer S} {r : Request} (ht : t.Inv)
    (h : t.step r = some t') : t'.Inv := by
  obtain ⟨⟨f', res⟩, hread, h⟩ := Option.bind_eq_some_iff.mp h
  obtain rfl := Option.some.inj h
  obtain rfl := File.readChunk_moves hread
  refine ⟨ht.wr, ?_, ?_⟩
  · exact (congrArg (· + res.bytes) ht.offset).trans (Nat.add_assoc _ _ _)
  · have hoff := ht.offset
    have hpos := ht.pos
    dsimp only [File.place, File.asked]
    by_cases ho : r.chnk.offset.toNat = t.sent
    · rw [if_neg (by omega)]
      simpa [ho] using hpos
    · cases hseek : r.io.seekOk
      · simpa [hseek] using hpos
      · rw [if_pos ⟨by omega, rfl⟩]
        exact iff_of_false (by omega) (by simp [ho])

/-- A store in which the file `i` holds `d`. -/
def holding (i : ℕ) (d : List Byte) : Store where
  dir := Function.const _ none
  data := Function.update (fun _ => []) i d
  next := i + 1
  bound _ _ h := absurd h.symm (Option.some_ne_none _)
  inj _ _ _ h := absurd h.symm (Option.some_ne_none _)

theorem File.readChunk_answer {fs : Store} {io : Io} (hwr : f.fd.wr = false)
    (hseek : io.seekOk = true) (hrw : io.rw₁ = .full) (hsize : chnk.size.toNat ≤ rpcInfinity) :
    (f.readChunk fs io chnk).map Prod.snd =
      some (if f.asked chnk ≠ f.offset ∧ (BitVec.ofNat 32 (f.asked chnk)).msb then .status .efs
        else match fs.read f.fd.ino (f.place io (f.asked chnk)) (min chnk.size.toNat maxRead) with
          | [] => .status .eof
          | v => .ok ⟨chnk, v⟩) := by
  unfold readChunk
  rw [if_neg (Nat.not_lt.mpr hsize), ← asked, seekChunk_eq, hseek]
  by_cases hefs : f.asked chnk ≠ f.offset ∧ (BitVec.ofNat 32 (f.asked chnk)).msb
  · simp [hefs.1, hefs.2]
  · have hok : (decide (f.asked chnk = f.offset) ||
        true && !(BitVec.ofNat 32 (f.asked chnk)).msb) = true := by
      simpa [Classical.or_iff_not_imp_left] using hefs
    rw [hok, if_neg hefs]
    simp only [Fd.read, hwr, hrw, IoRc.count, Bool.false_eq_true, if_false]
    cases fs.read f.fd.ino (f.place io (f.asked chnk)) (min chnk.size.toNat maxRead) <;> rfl

theorem File.Right.answer (hright : f.Right chnk) (hwr : f.fd.wr = false) {d : List Byte}
    (hd : f.asked chnk < d.length) :
    chnk.size.toNat ≤ rpcInfinity ∧
      ¬ (f.asked chnk ≠ f.offset ∧ (BitVec.ofNat 32 (f.asked chnk)).msb) ∧
      (d.drop (f.asked chnk)).take chnk.size.toNat ≠ [] ∧
      (d.drop (f.place Io.good (f.asked chnk))).take (min chnk.size.toNat maxRead) =
        (d.drop (f.asked chnk)).take chnk.size.toNat := by
  have hdata : (holding f.fd.ino d).data f.fd.ino = d := by
    simp [holding]
  have hanswer := hright (holding f.fd.ino d) Io.good rfl rfl
  rw [hdata, if_neg (Nat.not_le.mpr hd)] at hanswer
  by_cases hsize : chnk.size.toNat ≤ rpcInfinity
  swap
  · rw [readChunk, if_pos (Nat.lt_of_not_le hsize)] at hanswer
    cases hanswer
  rw [readChunk_answer hwr rfl rfl hsize] at hanswer
  have hanswer := Option.some.inj hanswer
  split_ifs at hanswer with hefs
  simp only [FileStore.read, hdata] at hanswer
  refine ⟨hsize, hefs, ?_⟩
  split at hanswer
  · cases hanswer
  · rename_i hne
    obtain ⟨-, hv⟩ := Chunk.mk.inj (Get2Res.ok.inj hanswer)
    exact ⟨hv ▸ hne, hv⟩

theorem File.Right.size (hright : f.Right chnk) (hwr : f.fd.wr = false) :
    0 < chnk.size.toNat ∧ chnk.size.toNat ≤ maxRead := by
  obtain ⟨-, -, hne, hlong⟩ := hright.answer hwr
    (d := List.replicate (f.asked chnk + chnk.size.toNat + 1) 0)
    (by rw [List.length_replicate]; omega)
  have hpos : 0 < chnk.size.toNat := Nat.pos_of_ne_zero fun h => hne (by rw [h]; rfl)
  have hlen := congrArg List.length hlong
  simp only [List.length_take, List.length_drop, List.length_replicate] at hlen
  exact ⟨hpos, by omega⟩

/-- If a right request is no seek, the file is at the place that is remembered: a mark that stands
there alone is found. -/
theorem File.Right.pos (hright : f.Right chnk) (hwr : f.fd.wr = false)
    (ho : f.asked chnk = f.offset) : f.fd.pos = f.offset := by
  obtain ⟨hpos, -⟩ := hright.size hwr
  obtain ⟨-, -, -, hmark⟩ := hright.answer hwr
    (d := List.replicate (f.asked chnk) 0 ++ [1]) (by simp)
  rw [List.drop_left' List.length_replicate, File.place, if_neg (by simp [ho]), ho] at hmark
  have hone := (congrArg (·[0]?) hmark).trans (congrArg (·[0]?) (List.take_of_length_le hpos))
  have hmax : 0 < maxRead := by decide
  rw [List.getElem?_take_of_lt (by omega), List.getElem?_drop, Nat.add_zero] at hone
  rcases Nat.lt_trichotomy f.fd.pos f.offset with hlt | heq | hgt
  · rw [List.getElem?_append_left (by simpa using hlt), List.getElem?_replicate_of_lt hlt] at hone
    exact absurd hone (by decide)
  · exact heq
  · rw [List.getElem?_eq_none (by simpa [Nat.succ_le_iff] using hgt)] at hone
    cases hone

end Sfslite.Rtftp
