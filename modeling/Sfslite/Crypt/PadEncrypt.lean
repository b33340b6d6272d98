import Sfslite.Crypt.Pad

/-!
`post_decrypt` of what `pre_encrypt` packed. The one counts the message and its zeros in a
`size_t`, the other in a `u_int`, and they agree as long as the count fits.
-/

namespace Sfslite.Crypt

open Sfslite.Arpc (Byte)

section

variable {g h : Oracle} {rnd : Rnd} {msg : List Byte} {nbits : ℕ}

/-- The pad with its spare bits cut, as it is fed to `enc_gidx`. -/
def encPad (rnd : Rnd) (msglen nbits : ℕ) : List Byte :=
  maskLast (msbmask nbits) (rnd ((nbits + 7) / 8 - (msglen + encZbytes))).toList

/-- The low bytes of the result, which hide the message. -/
def encLow (g : Oracle) (rnd : Rnd) (msg : List Byte) (nbits : ℕ) : List Byte :=
  xorBytes (g (msg.length + encZbytes) (encPad rnd msg.length nbits)).toList msg

/-- The high bytes of the result, which hide the pad. -/
def encHigh (g h : Oracle) (rnd : Rnd) (msg : List Byte) (nbits : ℕ) : List Byte :=
  xorBytes (encPad rnd msg.length nbits)
    (h ((nbits + 7) / 8 - (msg.length + encZbytes)) (encLow g rnd msg nbits)).toList

theorem preEncrypt_of_fits (hfits : msg.length + encZbytes + encMinpad ≤ nbits / 8) :
    preEncrypt g h rnd msg nbits = mpzSetRawmagLe (encLow g rnd msg nbits ++
      maskLast (msbmask nbits) (encHigh g h rnd msg nbits)) := by
  unfold preEncrypt
  rw [if_neg (by omega)]
  rfl

@[simp] theorem length_encPad {msglen : ℕ} :
    (encPad rnd msglen nbits).length = (nbits + 7) / 8 - (msglen + encZbytes) := by
  simp [encPad]

@[simp] theorem length_encLow : (encLow g rnd msg nbits).length = msg.length + encZbytes := by
  simp [encLow]

@[simp] theorem length_encHigh :
    (encHigh g h rnd msg nbits).length = (nbits + 7) / 8 - (msg.length + encZbytes) := by
  simp [encHigh]

theorem length_low_append_high (hfits : msg.length + encZbytes + encMinpad ≤ nbits / 8) :
    (encLow g rnd msg nbits ++ encHigh g h rnd msg nbits).length = (nbits + 7) / 8 := by
  rw [List.length_append, length_encLow, length_encHigh]
  omega

theorem preEncrypt_lt (hfits : msg.length + encZbytes + encMinpad ≤ nbits / 8) :
    preEncrypt g h rnd msg nbits < 2 ^ nbits := by
  have hzbytes : encZbytes = 16 := rfl
  have hne : encHigh g h rnd msg nbits ≠ [] := by
    rw [← List.length_pos_iff, length_encHigh]
    have hminpad : encMinpad = 16 := rfl
    omega
  have hnbits : 0 < nbits := by omega
  have hlen : (encLow g rnd msg nbits ++ encHigh g h rnd msg nbits).length = (nbits + 7) / 8 :=
    length_low_append_high hfits
  have hlt := magOfBytes_maskLast_lt hnbits hlen
  rw [maskLast_append_of_ne_nil hne] at hlt
  rw [preEncrypt_of_fits hfits, mpzSetRawmagLe]
  exact_mod_cast hlt

theorem mpzGetRawmagLe_preEncrypt (hfits : msg.length + encZbytes + encMinpad ≤ nbits / 8) :
    mpzGetRawmagLe ((nbits + 7) / 8) (preEncrypt g h rnd msg nbits) =
      encLow g rnd msg nbits ++ maskLast (msbmask nbits) (encHigh g h rnd msg nbits) := by
  have hlen : (encLow g rnd msg nbits ++ encHigh g h rnd msg nbits).length = (nbits + 7) / 8 :=
    length_low_append_high hfits
  have hmasked : (encLow g rnd msg nbits ++
      maskLast (msbmask nbits) (encHigh g h rnd msg nbits)).length = (nbits + 7) / 8 := by
    rw [← hlen, List.length_append, List.length_append, length_maskLast]
  rw [preEncrypt_of_fits hfits, ← hmasked, mpzGetRawmagLe_set]

theorem xorBytes_encLow :
    xorBytes (encLow g rnd msg nbits)
        (g (msg.length + encZbytes) (encPad rnd msg.length nbits)).toList =
      msg ++ List.replicate encZbytes 0 := by
  unfold encLow
  rw [← xorBytes_append_replicate (b := msg) encZbytes]
  apply xorBytes_left_cancel
  rw [List.Vector.toList_length, List.length_append, List.length_replicate]

theorem postDecrypt_of_lt (hfits : msg.length + encZbytes + encMinpad ≤ nbits / 8)
    (hlt : msg.length + encZbytes < 2 ^ 32) :
    postDecrypt g h (preEncrypt g h rnd msg nbits) msg.length nbits = some (some msg) := by
  have hlow : (encLow g rnd msg nbits).length = msg.length + encZbytes := length_encLow
  have hhigh : (maskLast (msbmask nbits) (encHigh g h rnd msg nbits)).length =
      (nbits + 7) / 8 - (msg.length + encZbytes) := by simp
  have hpad : maskLast (msbmask nbits)
      (xorBytes (maskLast (msbmask nbits) (encHigh g h rnd msg nbits))
        (h ((nbits + 7) / 8 - (msg.length + encZbytes)) (encLow g rnd msg nbits)).toList) =
      encPad rnd msg.length nbits := maskLast_xorBytes_twice _ _
  simp only [postDecrypt, mpzGetRawmagLe_preEncrypt hfits]
  rw [Nat.mod_eq_of_lt hlt, if_neg (by omega), if_neg (by rw [List.length_append, hlow, hhigh]; omega),
    ← hlow, List.take_left, List.drop_left, hlow, List.take_of_length_le hhigh.le, hpad,
    xorBytes_encLow, List.drop_left, List.take_left]
  simp

theorem postDecrypt_of_ge {m : ℤ} {msglen : ℕ} (hfits : msglen + encZbytes + encMinpad ≤ nbits / 8)
    (hge : 2 ^ 32 ≤ msglen + encZbytes) : postDecrypt g h m msglen nbits = none := by
  have hcut : (msglen + encZbytes) % 2 ^ 32 < 2 ^ 32 := Nat.mod_lt _ (by positivity)
  simp only [postDecrypt]
  rw [if_neg (by omega), if_pos (by rw [length_mpzGetRawmagLe]; omega)]

/-- What is packed is a number of `nbits` bits, and the message is found in it as long as
its length and the zeros are a `u_int`. -/
theorem postDecrypt_preEncrypt (g h : Oracle) (rnd : Rnd) (msg : List Byte) (nbits : ℕ)
    (hfits : msg.length + encZbytes + encMinpad ≤ nbits / 8) :
    0 ≤ preEncrypt g h rnd msg nbits ∧ preEncrypt g h rnd msg nbits < 2 ^ nbits ∧
      (postDecrypt g h (preEncrypt g h rnd msg nbits) msg.length nbits = some (some msg) ↔
        msg.length + encZbytes < 2 ^ 32) := by
  constructor
  · rw [preEncrypt_of_fits hfits]
    exact Int.natCast_nonneg _
  constructor
  · exact preEncrypt_lt hfits
  constructor
  · intro hpost
    by_contra hge
    rw [postDecrypt_of_ge hfits (by omega)] at hpost
    cases hpost
  · exact postDecrypt_of_lt hfits

end

def zeroOracle : Oracle := fun dstlen _ => List.Vector.replicate dstlen 0

def zeroRnd : Rnd := fun len => List.Vector.replicate len 0

theorem postDecrypt_preEncrypt_byte :
    0 ≤ preEncrypt zeroOracle zeroOracle zeroRnd [7] 265 ∧
      preEncrypt zeroOracle zeroOracle zeroRnd [7] 265 < 2 ^ 265 ∧
      (postDecrypt zeroOracle zeroOracle (preEncrypt zeroOracle zeroOracle zeroRnd [7] 265) 1 265 =
          some (some [7]) ↔ 1 + encZbytes < 2 ^ 32) :=
  postDecrypt_preEncrypt zeroOracle zeroOracle zeroRnd [7] 265 (by decide)

/-- A message of four gigabytes is accepted, and is not found again. -/
theorem postDecrypt_misses_long : ∃ (msg : List Byte) (nbits : ℕ),
    msg.length + encZbytes + encMinpad ≤ nbits / 8 ∧
      postDecrypt zeroOracle zeroOracle (preEncrypt zeroOracle zeroOracle zeroRnd msg nbits)
        msg.length nbits ≠ some (some msg) := by
  have hfits : (List.replicate (2 ^ 32 - 16) (0 : Byte)).length + encZbytes + encMinpad ≤
      8 * (2 ^ 32 + 16) / 8 := by
    rw [List.length_replicate]
    decide
  have hge : 2 ^ 32 ≤ (List.replicate (2 ^ 32 - 16) (0 : Byte)).length + encZbytes := by
    rw [List.length_replicate]
    decide
  refine ⟨List.replicate (2 ^ 32 - 16) 0, 8 * (2 ^ 32 + 16), hfits, ?_⟩
  rw [postDecrypt_of_ge hfits hge]
  exact nofun

end Sfslite.Crypt
