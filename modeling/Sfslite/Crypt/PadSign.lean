import Sfslite.Crypt.Pad

/-!
`post_verify` of what `pre_sign` made, and what `post_verify_r` accepts: the bytes of
`pre_sign_r` with some pad.
-/

namespace Sfslite.Crypt

open Sfslite.Arpc (Byte)

section

variable {sha1 : Sha1} {g : Oracle} {rnd : Rnd} {sc msg r mp : List Byte} {nbits msglen : ℕ}
  {s : ℤ}

/-- What hides the pad and the message: an oracle on the hash, its spare bits cut. -/
def sigMask (g : Oracle) (mp : List Byte) (nbits : ℕ) : List Byte :=
  maskLast (msbmask nbits) (g ((nbits + 7) / 8 - hashsize) mp).toList

theorem sigMask_eq : maskLast (msbmask nbits) (g ((nbits + 7) / 8 - hashsize) mp).toList =
    sigMask g mp nbits := rfl

@[simp] theorem length_sigMask : (sigMask g mp nbits).length = (nbits + 7) / 8 - hashsize := by
  simp [sigMask]

@[simp] theorem length_sha1 {l : List Byte} : (sha1 l).toList.length = hashsize :=
  (sha1 l).toList_length

theorem preSign_of_fits (hfits : sigMinpad + sigRndbytes + hashsize ≤ nbits / 8) :
    preSign sha1 g rnd sc nbits =
      mpzSetRawmagLe ((sha1 (sc ++ (rnd sigRndbytes).toList)).toList ++
        xorBytes (sigMask g (sha1 (sc ++ (rnd sigRndbytes).toList)).toList nbits)
          (rnd sigRndbytes).toList) := by
  unfold preSign
  rw [if_neg (by omega)]
  rfl

theorem postVerify_preSign (hfits : sigMinpad + sigRndbytes + hashsize ≤ nbits / 8) :
    postVerify sha1 g sc (preSign sha1 g rnd sc nbits) nbits = true := by
  have hhash : hashsize = 20 := rfl
  have hminpad : sigMinpad = 16 := rfl
  have hrnd : sigRndbytes = 16 := rfl
  generalize hr : (rnd sigRndbytes).toList = r
  have hrlen : r.length = sigRndbytes := by rw [← hr, List.Vector.toList_length]
  generalize hmp : (sha1 (sc ++ r)).toList = mp
  have hmplen : mp.length = hashsize := by rw [← hmp, List.Vector.toList_length]
  have hmask : (sigMask g mp nbits).length = (nbits + 7) / 8 - hashsize := length_sigMask
  have hget : mpzGetRawmagLe ((nbits + 7) / 8) (preSign sha1 g rnd sc nbits) =
      mp ++ xorBytes (sigMask g mp nbits) r := by
    have hlen : (mp ++ xorBytes (sigMask g mp nbits) r).length = (nbits + 7) / 8 := by
      rw [List.length_append, length_xorBytes, hmask]
      omega
    rw [preSign_of_fits hfits, hr, hmp, ← hlen, mpzGetRawmagLe_set]
  have hfirst : (xorBytes (sigMask g mp nbits) r).take sigRndbytes =
      xorBytes ((sigMask g mp nbits).take sigRndbytes) r := take_xorBytes _
  have hrest : (xorBytes (sigMask g mp nbits) r).drop sigRndbytes =
      (sigMask g mp nbits).drop sigRndbytes := drop_xorBytes hrlen.le
  have hback : xorBytes (xorBytes ((sigMask g mp nbits).take sigRndbytes) r)
      ((sigMask g mp nbits).take sigRndbytes) = r := by
    apply xorBytes_left_cancel
    rw [List.length_take, hmask]
    omega
  have hlow : (mp ++ xorBytes (sigMask g mp nbits) r).take hashsize = mp := List.take_left' hmplen
  have hhigh : (mp ++ xorBytes (sigMask g mp nbits) r).drop hashsize =
      xorBytes (sigMask g mp nbits) r := List.drop_left' hmplen
  simp only [postVerify, hget]
  rw [if_neg (by omega), hlow, hhigh, ← sigMask, hrest, if_neg (fun h => h rfl), hfirst, hback,
    hmp]
  exact decide_eq_true rfl

theorem preSignR_of_fits (hfits : sigRndbytes + hashsize + max sigMinpad msg.length ≤ nbits / 8) :
    preSignR sha1 g rnd msg nbits =
      mpzSetRawmagLe ((sha1 (msg ++ (rnd sigRndbytes).toList)).toList ++
        xorBytes (sigMask g (sha1 (msg ++ (rnd sigRndbytes).toList)).toList nbits)
          ((rnd sigRndbytes).toList ++ embedded msg)) := by
  unfold preSignR
  rw [if_neg (by omega)]
  rfl

/-- A number that `post_verify_r` accepts has the pad and the message under the mask, and
the hash of both below it. -/
theorem postVerifyR_eq_some : postVerifyR sha1 g s msglen nbits = some (some msg) ↔
    sigRndbytes + hashsize + max sigMinpad msglen ≤ nbits / 8 ∧
      (nbits + 7) / 8 - hashsize < 2 ^ 32 ∧ msg.length = msglen ∧
      ∃ r : List Byte, r.length = sigRndbytes ∧
        mpzGetRawmagLe ((nbits + 7) / 8) s = (sha1 (msg ++ r)).toList ++
          xorBytes (sigMask g (sha1 (msg ++ r)).toList nbits) (r ++ msg) := by
  have hhash : hashsize = 20 := rfl
  have hrnd : sigRndbytes = 16 := rfl
  generalize hm : mpzGetRawmagLe ((nbits + 7) / 8) s = m
  have hmlen : m.length = (nbits + 7) / 8 := by rw [← hm, length_mpzGetRawmagLe]
  have hmask : ∀ mp, (m.drop hashsize).length = (sigMask g mp nbits).length := by
    intro mp
    rw [List.length_drop, length_sigMask, hmlen]
  simp only [postVerifyR, hm, sigMask_eq]
  constructor
  · intro h
    split at h
    · cases h
    split at h
    · cases h
    rename_i hfits hpad
    split at h
    · cases h
    split at h
    · cases h
    rename_i hzeros hsha1
    have hmsg := Option.some.inj (Option.some.inj h)
    generalize hhp : xorBytes (m.drop hashsize) (sigMask g (m.take hashsize) nbits) = hp at *
    have hhplen : hp.length = (nbits + 7) / 8 - hashsize := by
      rw [← hhp, length_xorBytes, List.length_drop, hmlen]
    have hmsglen : msg.length = msglen := by
      rw [← hmsg, List.length_take, List.length_drop]
      omega
    have hrlen : (hp.take sigRndbytes).length = sigRndbytes := by
      rw [List.length_take]
      omega
    rw [hmsg, ne_eq, not_not] at hsha1
    refine ⟨by omega, by omega, hmsglen, hp.take sigRndbytes, hrlen, ?_⟩
    rw [hsha1]
    have hrest : hp.drop (sigRndbytes + msglen) =
        List.replicate (hp.length - (sigRndbytes + msglen)) 0 := by
      have := any_ne_zero_eq_false.mp (Bool.eq_false_iff.mpr hzeros)
      rwa [List.length_drop] at this
    have hsplit : hp = hp.take sigRndbytes ++ msg ++
        List.replicate (hp.length - (sigRndbytes + msglen)) 0 := by
      rw [← hrest, ← hmsg, List.append_assoc, ← List.drop_drop, List.take_append_drop,
        List.take_append_drop]
    have hunmask : m.drop hashsize =
        xorBytes (sigMask g (m.take hashsize) nbits) (hp.take sigRndbytes ++ msg) := by
      apply (xorBytes_eq_append_replicate (n := hp.length - (sigRndbytes + msglen)) (hmask _) _).mp
      · rw [hhp, ← hsplit]
      · rw [List.length_append, hrlen, hmsglen, List.length_drop]
        omega
    rw [← hunmask, List.take_append_drop]
  · rintro ⟨hfits, hpad, hmsg, r, hr, hbytes⟩
    have hlow : m.take hashsize = (sha1 (msg ++ r)).toList := by
      rw [hbytes, List.take_left' length_sha1]
    have hhigh : m.drop hashsize =
        xorBytes (sigMask g (sha1 (msg ++ r)).toList nbits) (r ++ msg) := by
      rw [hbytes, List.drop_left' length_sha1]
    have hunmask : xorBytes (m.drop hashsize) (sigMask g (sha1 (msg ++ r)).toList nbits) =
        r ++ msg ++ List.replicate ((nbits + 7) / 8 - hashsize - (sigRndbytes + msglen)) 0 := by
      apply (xorBytes_eq_append_replicate (hmask _) _).mpr hhigh
      rw [List.length_append, hr, hmsg, List.length_drop]
      omega
    have hrest : (r ++ msg ++ List.replicate ((nbits + 7) / 8 - hashsize -
        (sigRndbytes + msglen)) (0 : Byte)).drop (sigRndbytes + msglen) =
        List.replicate ((nbits + 7) / 8 - hashsize - (sigRndbytes + msglen)) 0 :=
      List.drop_left' (by rw [List.length_append, hr, hmsg])
    rw [if_neg (by omega), if_neg (by omega), hlow, hunmask, hrest, List.append_assoc,
      List.drop_left' hr, List.take_left' hr, List.take_left' hmsg]
    simp

theorem embedded_of_lt (h : sigRndbytes + msg.length < 2 ^ 31) : embedded msg = msg := by
  have hsum : (((sigRndbytes + msg.length : ℕ) : ℤ).bmod (2 ^ 32)).toNat =
      sigRndbytes + msg.length := by
    rw [Int.bmod_def]
    split <;> omega
  rw [embedded, hsum, Nat.add_sub_cancel_left, List.take_length]

theorem embedded_of_ge (hge : 2 ^ 31 ≤ sigRndbytes + msg.length)
    (hlt : sigRndbytes + msg.length < 2 ^ 32) : embedded msg = [] := by
  have hsum : (((sigRndbytes + msg.length : ℕ) : ℤ).bmod (2 ^ 32)).toNat = 0 := by
    rw [Int.bmod_def]
    split <;> omega
  rw [embedded, hsum, Nat.zero_sub, List.take_zero]

/-- Every byte of the message is in the signature, or none is and they are all zero. -/
def MsgFits (msg : List Byte) : Prop :=
  sigRndbytes + msg.length < 2 ^ 31 ∨ ∀ b ∈ msg, b = 0

instance : Decidable (MsgFits msg) := inferInstanceAs (Decidable (_ ∨ _))

theorem length_embedded_le (msg : List Byte) : (embedded msg).length ≤ msg.length :=
  List.length_take_le' _ _

theorem embedded_append_zeros (hlt : sigRndbytes + msg.length < 2 ^ 32) :
    embedded msg ++ List.replicate (msg.length - (embedded msg).length) 0 = msg ↔
      MsgFits msg := by
  by_cases h : sigRndbytes + msg.length < 2 ^ 31
  · rw [embedded_of_lt h, Nat.sub_self, List.replicate_zero, List.append_nil]
    exact iff_of_true rfl (Or.inl h)
  · rw [embedded_of_ge (by omega) hlt, List.nil_append, List.length_nil, Nat.sub_zero, eq_comm,
      List.eq_replicate_iff]
    unfold MsgFits
    constructor
    · exact fun hmsg => Or.inr hmsg.2
    · exact fun hmsg => ⟨rfl, hmsg.resolve_left h⟩

theorem xorBytes_embedded {mask r' : List Byte} (hr : r.length = sigRndbytes)
    (hr' : r'.length = sigRndbytes) (hmask : sigRndbytes + msg.length ≤ mask.length)
    (hlt : sigRndbytes + msg.length < 2 ^ 32) :
    xorBytes mask (r ++ embedded msg) = xorBytes mask (r' ++ msg) ↔ r = r' ∧ MsgFits msg := by
  have hemb := length_embedded_le msg
  have hzeros : mask.length - sigRndbytes - (embedded msg).length =
      (msg.length - (embedded msg).length) + (mask.length - sigRndbytes - msg.length) := by omega
  rw [xorBytes_right_inj (m := mask.length - sigRndbytes - (embedded msg).length)
    (n := mask.length - sigRndbytes - msg.length)
    (by rw [List.length_append]; omega) (by rw [List.length_append]; omega), hzeros,
    List.replicate_add, ← embedded_append_zeros hlt]
  simp only [List.append_assoc]
  constructor
  · intro h
    obtain ⟨hpad, hrest⟩ := List.append_inj h (hr.trans hr'.symm)
    rw [← List.append_assoc] at hrest
    exact ⟨hpad, List.append_cancel_right hrest⟩
  · rintro ⟨rfl, hmsg⟩
    rw [← List.append_assoc (embedded msg), hmsg]

theorem mpzGetRawmagLe_preSignR
    (hfits : sigRndbytes + hashsize + max sigMinpad msg.length ≤ nbits / 8) :
    mpzGetRawmagLe ((nbits + 7) / 8) (preSignR sha1 g rnd msg nbits) =
      (sha1 (msg ++ (rnd sigRndbytes).toList)).toList ++
        xorBytes (sigMask g (sha1 (msg ++ (rnd sigRndbytes).toList)).toList nbits)
          ((rnd sigRndbytes).toList ++ embedded msg) := by
  have hlen : ((sha1 (msg ++ (rnd sigRndbytes).toList)).toList ++
      xorBytes (sigMask g (sha1 (msg ++ (rnd sigRndbytes).toList)).toList nbits)
        ((rnd sigRndbytes).toList ++ embedded msg)).length = (nbits + 7) / 8 := by
    rw [List.length_append, length_sha1, length_xorBytes, length_sigMask]
    omega
  rw [preSignR_of_fits hfits, ← hlen, mpzGetRawmagLe_set]

theorem postVerifyR_preSignR
    (hfits : sigRndbytes + hashsize + max sigMinpad msg.length ≤ nbits / 8) :
    postVerifyR sha1 g (preSignR sha1 g rnd msg nbits) msg.length nbits = some (some msg) ↔
      (nbits + 7) / 8 - hashsize < 2 ^ 32 ∧ MsgFits msg := by
  have hpadlen : sigRndbytes + msg.length ≤ (nbits + 7) / 8 - hashsize := by omega
  rw [postVerifyR_eq_some, mpzGetRawmagLe_preSignR hfits]
  constructor
  · rintro ⟨-, hpad, -, r, hr, hbytes⟩
    obtain ⟨hhash, hmask⟩ := List.append_inj hbytes (length_sha1.trans length_sha1.symm)
    rw [← hhash, xorBytes_embedded (List.Vector.toList_length _) hr (by rwa [length_sigMask])
      (by omega)] at hmask
    exact ⟨hpad, hmask.2⟩
  · rintro ⟨hpad, hmsg⟩
    refine ⟨hfits, hpad, rfl, (rnd sigRndbytes).toList, List.Vector.toList_length _, ?_⟩
    rw [(xorBytes_embedded (List.Vector.toList_length _) (List.Vector.toList_length _)
      (by rwa [length_sigMask]) (by omega)).mpr ⟨rfl, hmsg⟩]

/-- Random bytes that begin with `r`. -/
def rndOf (r : List Byte) : Rnd := fun len =>
  ⟨r.take len ++ List.replicate (len - r.length) 0, by
    rw [List.length_append, List.length_take, List.length_replicate]
    omega⟩

theorem rndOf_eq {len : ℕ} (hr : r.length = len) : (rndOf r len).toList = r := by
  change r.take len ++ List.replicate (len - r.length) 0 = r
  rw [← hr, Nat.sub_self, List.take_length, List.replicate_zero, List.append_nil]

theorem preSignR_of_postVerifyR (h : postVerifyR sha1 g s msglen nbits = some (some msg)) :
    (∃ rnd, preSignR sha1 g rnd msg nbits = s) ↔
      (0 ≤ s ∧ s < 256 ^ ((nbits + 7) / 8)) ∧ MsgFits msg := by
  obtain ⟨hfits, hpad, rfl, r, hr, hbytes⟩ := postVerifyR_eq_some.mp h
  have hpadlen : sigRndbytes + msg.length ≤ (nbits + 7) / 8 - hashsize := by omega
  rw [← mpzSetRawmagLe_get]
  constructor
  · rintro ⟨rnd, rfl⟩
    have hsame := @mpzGetRawmagLe_preSignR sha1 g rnd msg nbits hfits
    constructor
    · rw [hsame, preSignR_of_fits hfits]
    · rw [hbytes] at hsame
      obtain ⟨hhash, hmask⟩ := List.append_inj hsame (length_sha1.trans length_sha1.symm)
      rw [hhash, eq_comm, xorBytes_embedded (List.Vector.toList_length _) hr
        (by rwa [length_sigMask]) (by omega)] at hmask
      exact hmask.2
  · rintro ⟨hwhole, hmsg⟩
    refine ⟨rndOf r, ?_⟩
    have hmask : xorBytes (sigMask g (sha1 (msg ++ r)).toList nbits) (r ++ embedded msg) =
        xorBytes (sigMask g (sha1 (msg ++ r)).toList nbits) (r ++ msg) :=
      (xorBytes_embedded hr hr (by rwa [length_sigMask]) (by omega)).mpr ⟨rfl, hmsg⟩
    rw [preSignR_of_fits hfits, rndOf_eq hr, hmask, ← hbytes, hwhole]

/-- The three together: a signature is accepted, a message is recovered exactly when it is
all in it, and an accepted number was made by the signer exactly when it has no sign and no
more bytes than the modulus. -/
theorem postVerify_postVerifyR (sha1 : Sha1) (g : Oracle) (rnd : Rnd) (sc msg : List Byte)
    (nbits : ℕ) (hfits : sigRndbytes + hashsize + max sigMinpad msg.length ≤ nbits / 8) :
    postVerify sha1 g sc (preSign sha1 g rnd sc nbits) nbits = true ∧
      (postVerifyR sha1 g (preSignR sha1 g rnd msg nbits) msg.length nbits = some (some msg) ↔
        (nbits + 7) / 8 - hashsize < 2 ^ 32 ∧ MsgFits msg) ∧
      ∀ s msglen, postVerifyR sha1 g s msglen nbits = some (some msg) →
        ((∃ rnd, preSignR sha1 g rnd msg nbits = s) ↔
          (0 ≤ s ∧ s < 256 ^ ((nbits + 7) / 8)) ∧ MsgFits msg) := by
  constructor
  · apply postVerify_preSign
    have hmax : sigMinpad ≤ max sigMinpad msg.length := le_max_left _ _
    omega
  constructor
  · exact postVerifyR_preSignR hfits
  · intro s msglen h
    exact preSignR_of_postVerifyR h

theorem preSignR_nonneg (hfits : sigRndbytes + hashsize + max sigMinpad msg.length ≤ nbits / 8) :
    0 ≤ preSignR sha1 g rnd msg nbits := by
  rw [preSignR_of_fits hfits]
  exact Int.natCast_nonneg _

end

def zeroSha1 : Sha1 := fun _ => List.Vector.replicate hashsize 0

def plainOracle : Oracle := fun dstlen _ => List.Vector.replicate dstlen 0

theorem postVerify_postVerifyR_byte :
    postVerify zeroSha1 plainOracle [] (preSign zeroSha1 plainOracle (rndOf [5]) [] 423) 423 =
        true ∧
      (postVerifyR zeroSha1 plainOracle (preSignR zeroSha1 plainOracle (rndOf [5]) [7] 423) 1 423 =
          some (some [7]) ↔ (423 + 7) / 8 - hashsize < 2 ^ 32 ∧ MsgFits [7]) ∧
      ∀ s msglen, postVerifyR zeroSha1 plainOracle s msglen 423 = some (some [7]) →
        ((∃ rnd, preSignR zeroSha1 plainOracle rnd [7] 423 = s) ↔
          (0 ≤ s ∧ s < 256 ^ ((423 + 7) / 8)) ∧ MsgFits [7]) :=
  postVerify_postVerifyR zeroSha1 plainOracle (rndOf [5]) [] [7] 423 (by decide)

/-- The negative of a signature is accepted, and the signer makes no negative number. -/
theorem postVerifyR_accepts_neg :
    postVerifyR zeroSha1 plainOracle (-(5 * 256 ^ 20 + 7 * 256 ^ 36)) 1 423 = some (some [7]) ∧
      ¬∃ rnd, preSignR zeroSha1 plainOracle rnd [7] 423 = -(5 * 256 ^ 20 + 7 * 256 ^ 36) := by
  constructor
  · decide
  · rintro ⟨rnd, h⟩
    have hnonneg : 0 ≤ preSignR zeroSha1 plainOracle rnd [7] 423 := preSignR_nonneg (by decide)
    omega

end Sfslite.Crypt
