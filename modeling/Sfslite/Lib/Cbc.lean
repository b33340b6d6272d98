import Mathlib.Data.List.Basic

/-!
Cipher block chaining over blocks of any kind: every block is combined with the one that was
enciphered before it.
-/

namespace Sfslite.Lib.Cbc

variable {β : Type*} (add : β → β → β)

def encipher (enc : β → β) : β → List β → List β
  | _, [] => []
  | iv, d :: ds => enc (add iv d) :: encipher enc (enc (add iv d)) ds

def decipher (dec : β → β) : β → List β → List β
  | _, [] => []
  | iv, d :: ds => add (dec d) iv :: decipher dec d ds

variable {add} {enc dec : β → β}

@[simp] theorem length_encipher (iv : β) (ds : List β) :
    (encipher add enc iv ds).length = ds.length := by
  induction ds generalizing iv with
  | nil => rfl
  | cons d ds ih => rw [encipher, List.length_cons, ih, List.length_cons]

@[simp] theorem length_decipher (iv : β) (ds : List β) :
    (decipher add dec iv ds).length = ds.length := by
  induction ds generalizing iv with
  | nil => rfl
  | cons d ds ih => rw [decipher, List.length_cons, ih, List.length_cons]

theorem decipher_encipher (hdec : ∀ b, dec (enc b) = b) (hadd : ∀ a b, add (add a b) a = b)
    (iv : β) (ds : List β) : decipher add dec iv (encipher add enc iv ds) = ds := by
  induction ds generalizing iv with
  | nil => rfl
  | cons d ds ih => rw [encipher, decipher, hdec, hadd, ih]

theorem encipher_decipher (henc : ∀ b, enc (dec b) = b) (hadd : ∀ a b, add a (add b a) = b)
    (iv : β) (ds : List β) : encipher add enc iv (decipher add dec iv ds) = ds := by
  induction ds generalizing iv with
  | nil => rfl
  | cons d ds ih => rw [decipher, encipher, hadd, henc, ih]

end Sfslite.Lib.Cbc
