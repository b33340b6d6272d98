import Sfslite.Arpc.Xdr
import Mathlib.Data.List.Basic

/-!
The wire format of the data types, and that `rpc_traverse` writes it and reads it back,
whatever the destination held before.
-/

namespace Sfslite.Arpc

open Sfslite.Async

theorem hyper_eq (v : BitVec 64) :
    ((v >>> 32).setWidth 32).setWidth 64 <<< 32 ||| (v.setWidth 32).setWidth 64 = v := by
  apply BitVec.eq_of_getLsbD_eq
  intro i hi
  simp only [BitVec.getLsbD_or, BitVec.getLsbD_shiftLeft, BitVec.getLsbD_setWidth,
    BitVec.getLsbD_ushiftRight]
  by_cases hlow : i < 32
  · simp [hi, hlow]
  · simp [hi, hlow, show i - 32 < 64 by omega, show i - 32 < 32 by omega,
      show 32 + (i - 32) = i by omega]

theorem padLen_eq (n : ℕ) : padLen n = (4 - n % 4) % 4 := by
  have hmask : (3#64).toNat = 2 ^ 2 - 1 := rfl
  rw [padLen, BitVec.toNat_and, hmask, Nat.and_two_pow_sub_one_eq_mod, BitVec.toNat_neg,
    BitVec.toNat_ofNat]
  omega

theorem toNat_and_not_three (size : BitVec 32) :
    (size &&& ~~~3#32).toNat = size.toNat / 2 ^ 2 * 2 ^ 2 := by
  apply Nat.eq_of_testBit_eq
  intro i
  rw [BitVec.testBit_toNat, BitVec.getLsbD_and, BitVec.getLsbD_not, Nat.testBit_mul_two_pow,
    Nat.testBit_div_two_pow, BitVec.getLsbD_ofNat, Nat.testBit_two_pow_sub_one (n := 2)]
  by_cases hi : 2 ≤ i
  · rw [Nat.sub_add_cancel hi, BitVec.testBit_toNat]
    by_cases hi32 : i < 32
    · have hnot : ¬ i < 2 := by omega
      simp [hi, hi32, hnot]
    · rw [BitVec.getLsbD_of_ge _ _ (by omega)]
      simp
  · have hi2 : i < 2 := by omega
    simp [hi, hi2]

theorem inlineLen_eq {size : BitVec 32} (hsize : size.toNat ≤ rpcInfinity) :
    ((size + 3) &&& ~~~3#32).toNat = size.toNat + padLen size.toNat := by
  have hle : size.toNat ≤ 0x7fffffff := hsize
  have hadd : (size + 3).toNat = size.toNat + 3 := by
    have h3 : (3 : BitVec 32).toNat = 3 := rfl
    rw [BitVec.toNat_add, h3]
    omega
  rw [toNat_and_not_three, hadd, padLen_eq]
  omega

theorem xdrGetbytes_append (p rest : List Byte) :
    xdrGetbytes p.length (p ++ rest) = some (p, rest) := by
  simp [xdrGetbytes]

def padded (p : List Byte) : List Byte := p ++ List.replicate (padLen p.length) 0

theorem length_padded (p : List Byte) : (padded p).length = p.length + padLen p.length := by
  simp [padded]

theorem xdrPutpadbytes_eq (p : List Byte) : xdrPutpadbytes p = padded p := by
  cases p with
  | nil => rfl
  | cons b p => simp [xdrPutpadbytes, padded]

theorem xdrGetpadbytes_append {p : List Byte} (q rest : List Byte) (hlen : q.length = p.length) :
    xdrGetpadbytes q (padded p ++ rest) = (true, p, rest) := by
  have hpad := xdrGetbytes_append (List.replicate (padLen p.length) 0) rest
  rw [List.length_replicate] at hpad
  simp only [xdrGetpadbytes, hlen, padded, List.append_assoc, xdrGetbytes_append, hpad]
  split
  · rfl
  · next h =>
      have h0 : padLen p.length = 0 := by simpa using h
      simp [h0]

theorem xdrGetbytes_padded {p : List Byte} (rest : List Byte) (hlen : p.length ≤ rpcInfinity) :
    (BitVec.ofNat 32 p.length).toNat = p.length ∧
    xdrGetbytes ((BitVec.ofNat 32 p.length + 3) &&& ~~~3#32).toNat (padded p ++ rest) =
      some (padded p, rest) ∧ (padded p).take p.length = p := by
  have hle : p.length ≤ 0x7fffffff := hlen
  have hsize : (BitVec.ofNat 32 p.length).toNat = p.length := by
    rw [BitVec.toNat_ofNat, Nat.mod_eq_of_lt (by omega)]
  refine ⟨hsize, ?_, ?_⟩
  · rw [inlineLen_eq (by rw [hsize]; exact hlen), hsize, ← length_padded]
    exact xdrGetbytes_append _ _
  · simp [padded]

namespace RpcVec

variable {α : Type} {v : RpcVec α} {max n N : ℕ}

/-- The vector owns its storage and can grow to `N` elements. -/
def HasRoom (v : RpcVec α) (N : ℕ) : Prop :=
  v.nofree = false ∧ (v.nalloc < 2 ^ 30 ∨ N ≤ v.elems.length + v.back)

theorem vecResizeFn_eq {a b : ℕ} (ha : a < 2 ^ 30) (hb : b < 2 ^ 30) :
    ∃ k ≤ 30, vecResizeFn a b = some (2 ^ k) ∧ a < 2 ^ k ∧ b < 2 ^ k := by
  have hsize : ∀ m < 2 ^ 30, ∃ k ≤ 30, intShl (fls32 (BitVec.ofNat 32 m)) = some (2 ^ k) ∧
      m < 2 ^ k := by
    intro m hm
    have hk : m.size ≤ 30 := Nat.size_le.mpr hm
    refine ⟨m.size, hk, ?_, Nat.lt_size_self m⟩
    rw [fls32_eq_size, BitVec.toNat_ofNat, Nat.mod_eq_of_lt (by omega), intShl_eq hk]
  simp only [vecResizeFn]
  split_ifs with hlt
  · obtain ⟨k, hk, heq, hbk⟩ := hsize b hb
    have hlt' : a < b := by
      have h := BitVec.lt_def.mp hlt
      rwa [BitVec.toNat_ofNat, BitVec.toNat_ofNat, Nat.mod_eq_of_lt (by omega),
        Nat.mod_eq_of_lt (by omega)] at h
    exact ⟨k, hk, heq, by omega, hbk⟩
  · obtain ⟨k, hk, heq, hak⟩ := hsize a ha
    have hle : b ≤ a := by
      have h := BitVec.lt_def.not.mp hlt
      rw [BitVec.toNat_ofNat, BitVec.toNat_ofNat, Nat.mod_eq_of_lt (by omega),
        Nat.mod_eq_of_lt (by omega)] at h
      omega
    exact ⟨k, hk, heq, hak, by omega⟩

theorem HasRoom.superReserve (h : v.HasRoom N) (hn : v.elems.length + n ≤ N) (hN : N < 2 ^ 30) :
    ∃ v', v.superReserve n = some v' ∧ v'.elems = v.elems ∧ n ≤ v'.back ∧ v'.HasRoom N := by
  obtain ⟨hfree, hroom⟩ := h
  by_cases hback : n ≤ v.back
  · exact ⟨v, if_pos hback, rfl, hback, hfree, hroom⟩
  · have hcap : v.nalloc < 2 ^ 30 := by omega
    simp only [RpcVec.superReserve, if_neg hback]
    by_cases hgrow : v.nalloc / 2 < v.elems.length + n
    · obtain ⟨k, hk, heq, -, hlt⟩ := vecResizeFn_eq hcap (show v.elems.length + n < 2 ^ 30 by omega)
      rw [if_pos hgrow, heq]
      refine ⟨_, rfl, rfl, ?_, hfree, ?_⟩
      · simp only
        omega
      · simp only [nalloc]
        rcases Nat.lt_or_eq_of_le hk with hk' | rfl
        · have hpow : 2 ^ k < 2 ^ 30 := Nat.pow_lt_pow_right (by decide) hk'
          omega
        · omega
    · rw [if_neg hgrow]
      refine ⟨_, rfl, rfl, ?_, hfree, Or.inl ?_⟩
      · simp only
        omega
      · simp only [nalloc] at hcap ⊢
        omega

theorem HasRoom.reserve (h : v.HasRoom N) (hn : v.elems.length + n ≤ N) (hN : N < 2 ^ 30)
    (hmax : v.elems.length + n ≤ max) :
    ∃ v', v.reserve max n = some v' ∧ v'.elems = v.elems ∧ v'.HasRoom N := by
  obtain ⟨v', hres, helems, -, hroom⟩ := h.superReserve hn hN
  refine ⟨v', ?_, helems, hroom⟩
  have hensure : ¬ (v.nofree = true ∨ max < v.elems.length + n) := by
    rw [h.1]
    simpa using hmax
  simp only [RpcVec.reserve, ensure, if_neg hensure]
  exact hres

theorem HasRoom.pushBack (h : v.HasRoom N) (hn : v.elems.length + 1 ≤ N) (hN : N < 2 ^ 30)
    (hmax : v.elems.length + 1 ≤ max) (fresh : α) :
    ∃ v', v.pushBack max fresh = some v' ∧ v'.elems = v.elems ++ [fresh] ∧ v'.HasRoom N := by
  obtain ⟨v', hres, helems, hback, hfree, hroom⟩ := h.superReserve hn hN
  have hensure : ¬ (v.nofree = true ∨ max < v.elems.length + 1) := by
    rw [h.1]
    simpa using hmax
  refine ⟨{ v' with elems := v'.elems ++ [fresh], back := v'.back - 1 }, ?_, by simp [helems],
    hfree, ?_⟩
  · simp only [RpcVec.pushBack, ensure, if_neg hensure, hres, Option.bind_eq_bind,
      Option.bind_some]
    rfl
  · simp only [nalloc, List.length_append, List.length_singleton] at hroom ⊢
    omega

theorem HasRoom.setsize (h : v.HasRoom N) (hn : n ≤ N) (hN : N < 2 ^ 30) (hmax : n ≤ max)
    (fresh : α) :
    ∃ v', v.setsize max n fresh = some v' ∧
      v'.elems = v.elems.take n ++ List.replicate (n - v.elems.length) fresh ∧ v'.HasRoom N := by
  have hassert : ¬ (v.nofree = true ∨ max < n) := by
    rw [h.1]
    simpa using hmax
  simp only [RpcVec.setsize, if_neg hassert]
  by_cases hlt : n < v.elems.length
  · rw [if_pos hlt, Nat.sub_eq_zero_of_le (Nat.le_of_lt hlt)]
    refine ⟨_, rfl, by simp, h.1, ?_⟩
    have hroom := h.2
    simp only [nalloc, List.length_take] at hroom ⊢
    omega
  · have htake : v.elems.take n = v.elems := List.take_of_length_le (by omega)
    rw [if_neg hlt, htake]
    by_cases h0 : n - v.elems.length = 0
    · rw [if_neg (by omega), h0]
      exact ⟨v, rfl, by simp, h⟩
    · obtain ⟨v', hres, helems, hback, hfree, hroom⟩ :=
        h.superReserve (n := n - v.elems.length) (by omega) hN
      rw [if_pos h0]
      refine ⟨{ v' with
        elems := v'.elems ++ List.replicate (n - v.elems.length) fresh
        back := v'.back - (n - v.elems.length) }, ?_, by simp [helems], hfree, ?_⟩
      · simp only [hres, Option.bind_eq_bind, Option.bind_some]
        rfl
      · simp only [nalloc, List.length_append, List.length_replicate] at hroom ⊢
        omega

end RpcVec

/-- The values of a type: what an object holds, however its vectors are stored. -/
def Val : XdrTy → Type
  | .u32 => BitVec 32
  | .u64 => BitVec 64
  | .bool => Bool
  | .rpcOpaque n _ => { p : List Byte // p.length = n.val }
  | .rpcBytes _ => List Byte
  | .rpcStr _ => Option (List Byte)
  | .rpcVec t _ => List (Val t)
  | .rpcPtr t => Option (Val t)

def Obj.val : (t : XdrTy) → Obj t → Val t
  | .u32 => id
  | .u64 => id
  | .bool => id
  | .rpcOpaque _ _ => id
  | .rpcBytes _ => RpcVec.elems
  | .rpcStr _ => id
  | .rpcVec t _ => fun obj => obj.elems.map (Obj.val t)
  | .rpcPtr t => Option.map (Obj.val t)

/-- A value within its bounds: strings are not null and have no NUL byte. -/
def Within : (t : XdrTy) → Val t → Prop
  | .rpcBytes max => fun (v : List Byte) => v.length ≤ max.val
  | .rpcStr max => fun (v : Option (List Byte)) => ∃ s, v = some s ∧ s.length ≤ max.val ∧ 0 ∉ s
  | .rpcVec t max => fun (v : List (Val t)) => v.length ≤ max.val ∧ ∀ e ∈ v, Within t e
  | .rpcPtr t => fun (v : Option (Val t)) => ∀ e ∈ v, Within t e
  | _ => fun _ => True

def Bounded : (t : XdrTy) → Val t → Prop
  | .rpcBytes max => fun (v : List Byte) => v.length ≤ max.val
  | .rpcStr max => fun (v : Option (List Byte)) => ∀ s ∈ v, s.length ≤ max.val
  | .rpcVec t max => fun (v : List (Val t)) => v.length ≤ max.val ∧ ∀ e ∈ v, Bounded t e
  | .rpcPtr t => fun (v : Option (Val t)) => ∀ e ∈ v, Bounded t e
  | _ => fun _ => True

/-- Every vector has fewer than `2 ^ 30` elements. -/
def Short : (t : XdrTy) → Val t → Prop
  | .rpcBytes _ => fun (v : List Byte) => v.length < 2 ^ 30
  | .rpcVec t _ => fun (v : List (Val t)) => v.length < 2 ^ 30 ∧ ∀ e ∈ v, Short t e
  | .rpcPtr t => fun (v : Option (Val t)) => ∀ e ∈ v, Short t e
  | _ => fun _ => True

/-- Every vector owns its storage, which has room for fewer than `2 ^ 30` elements. -/
def Owned : (t : XdrTy) → Obj t → Prop
  | .rpcBytes _ => fun (obj : RpcVec Byte) => obj.nofree = false ∧ obj.nalloc < 2 ^ 30
  | .rpcVec t _ => fun (obj : RpcVec (Obj t)) =>
    (obj.nofree = false ∧ obj.nalloc < 2 ^ 30) ∧ ∀ e ∈ obj.elems, Owned t e
  | .rpcPtr t => fun (obj : Option (Obj t)) => ∀ e ∈ obj, Owned t e
  | _ => fun _ => True

def wire : (t : XdrTy) → Val t → List Byte
  | .u32 => htonl
  | .u64 => fun (v : BitVec 64) => htonl ((v >>> 32).setWidth 32) ++ htonl (v.setWidth 32)
  | .bool => fun (v : Bool) => htonl (if v then 1 else 0)
  | .rpcOpaque _ _ => fun v => padded (Subtype.val v)
  | .rpcBytes _ => fun (v : List Byte) => htonl (BitVec.ofNat 32 v.length) ++ padded v
  | .rpcStr _ => fun (v : Option (List Byte)) =>
    match v with
    | some s => htonl (BitVec.ofNat 32 s.length) ++ padded s
    | none => []
  | .rpcVec t _ => fun (v : List (Val t)) => htonl (BitVec.ofNat 32 v.length) ++ v.flatMap (wire t)
  | .rpcPtr t => fun (v : Option (Val t)) =>
    match v with
    | some e => htonl 1 ++ wire t e
    | none => htonl 0

theorem dvd_length_padded (p : List Byte) : 4 ∣ (padded p).length := by
  rw [length_padded, padLen_eq]
  omega

theorem dvd_length_wire (t : XdrTy) (v : Val t) : 4 ∣ (wire t v).length := by
  induction t with
  | u32 => exact Nat.dvd_refl 4
  | u64 => exact ⟨2, rfl⟩
  | bool => exact Nat.dvd_refl 4
  | rpcOpaque n pos => exact dvd_length_padded _
  | rpcBytes max =>
    simp only [wire, List.length_append, length_htonl]
    exact Nat.dvd_add (Nat.dvd_refl 4) (dvd_length_padded _)
  | rpcStr max =>
    cases v with
    | none => exact Nat.dvd_zero 4
    | some s =>
      simp only [wire, List.length_append, length_htonl]
      exact Nat.dvd_add (Nat.dvd_refl 4) (dvd_length_padded _)
  | rpcVec t max ih =>
    simp only [wire, List.length_append, length_htonl]
    refine Nat.dvd_add (Nat.dvd_refl 4) ?_
    induction v with
    | nil => exact Nat.dvd_zero 4
    | cons e v ihv =>
      rw [List.flatMap_cons, List.length_append]
      exact Nat.dvd_add (ih e) ihv
  | rpcPtr t ih =>
    cases v with
    | none => exact Nat.dvd_refl 4
    | some e =>
      simp only [wire, List.length_append, length_htonl]
      exact Nat.dvd_add (Nat.dvd_refl 4) (ih e)

theorem Obj.owned_new (junk : BitVec 64) (t : XdrTy) : Owned t (Obj.new junk t) := by
  cases t with
  | rpcBytes max => exact ⟨rfl, Nat.two_pow_pos 30⟩
  | rpcVec t max => exact ⟨⟨rfl, Nat.two_pow_pos 30⟩, fun e he => absurd he (List.not_mem_nil)⟩
  | rpcPtr t => exact fun e he => absurd he (by simp [Obj.new])
  | _ => trivial

theorem Obj.bounded_new (junk : BitVec 64) (t : XdrTy) : Bounded t (Obj.val t (Obj.new junk t)) := by
  cases t with
  | rpcBytes max => exact Nat.zero_le _
  | rpcStr max =>
    intro s hs
    obtain rfl : [] = s := Option.some.inj hs
    exact Nat.zero_le _
  | rpcVec t max => exact ⟨Nat.zero_le _, fun e he => absurd he (List.not_mem_nil)⟩
  | rpcPtr t => exact fun e he => absurd he (by simp [Obj.new, Obj.val])
  | _ => trivial

section Vec

variable {α β : Type} {elm : XDR → α → Option (Bool × XDR × α)} {val : α → β}
  {enc : β → List Byte}

/-- Traversing an object on an encoding stream appends its bytes and leaves it as it is. -/
def Encodes (elm : XDR → α → Option (Bool × XDR × α)) (obj : α) (w : List Byte) : Prop :=
  ∀ out, elm (.encode out) obj = some (true, .encode (out ++ w), obj)

/-- Traversing an object on a decoding stream reads the bytes `w` and leaves the value `v`. -/
def Decodes (elm : XDR → α → Option (Bool × XDR × α)) (val : α → β) (obj : α) (w : List Byte)
    (v : β) : Prop :=
  ∀ rest, ∃ obj', elm (.decode (w ++ rest)) obj = some (true, .decode rest, obj') ∧ val obj' = v

theorem traverseSlots_encodes {es : List α} (h : ∀ e ∈ es, Encodes elm e (enc (val e))) :
    Encodes (traverseSlots elm) es ((es.map val).flatMap enc) := by
  intro out
  induction es generalizing out with
  | nil => simp [traverseSlots]
  | cons e es ih =>
    have hrest := ih (fun e' he' => h e' (List.mem_cons_of_mem _ he')) (out ++ enc (val e))
    simp only [traverseSlots, h e (List.mem_cons_self ..) out, Option.bind_eq_bind,
      Option.bind_some, if_true, hrest, List.map_cons, List.flatMap_cons, List.append_assoc]
    rfl

variable {obj : RpcVec α}

theorem traverseVec_encodes {max sz : ℕ} {fresh : α} (hmax : max ≤ rpcInfinity)
    (hlen : obj.elems.length ≤ max) (h : ∀ e ∈ obj.elems, Encodes elm e (enc (val e))) :
    Encodes (traverseVec elm max sz fresh) obj
      (htonl (BitVec.ofNat 32 obj.elems.length) ++ (obj.elems.map val).flatMap enc) := by
  intro out
  have hle : obj.elems.length ≤ 0x7fffffff := hlen.trans hmax
  have hsize : (BitVec.ofNat 32 obj.elems.length).toNat = obj.elems.length := by
    rw [BitVec.toNat_ofNat, Nat.mod_eq_of_lt (by omega)]
  have hslots := traverseSlots_encodes h (out ++ htonl (BitVec.ofNat 32 obj.elems.length))
  have hassert : ¬ (true = false ∨ max < obj.elems.length) := by simpa using hlen
  simp only [traverseVec, traverseU32, hsize, if_neg hassert, fitVec, Nat.lt_irrefl, if_false,
    Option.bind_eq_bind, Option.bind_some, hslots, if_true, Nat.sub_self, traversePushes,
    List.append_assoc]

theorem traverseSlots_decodes {es : List α} {vs : List β} (hlen : es.length = vs.length)
    (h : ∀ e ∈ es, ∀ v ∈ vs, Decodes elm val e (enc v) v) :
    Decodes (traverseSlots elm) (List.map val) es (vs.flatMap enc) vs := by
  intro rest
  induction es generalizing vs with
  | nil =>
    obtain rfl := List.length_eq_zero_iff.mp hlen.symm
    exact ⟨[], rfl, rfl⟩
  | cons e es ih =>
    cases vs with
    | nil => cases hlen
    | cons v vs =>
      obtain ⟨e', he, hval⟩ :=
        h e (List.mem_cons_self ..) v (List.mem_cons_self ..) (vs.flatMap enc ++ rest)
      obtain ⟨es', hes, hvals⟩ := ih (Nat.succ.inj hlen)
        (fun e he v hv => h e (List.mem_cons_of_mem _ he) v (List.mem_cons_of_mem _ hv))
      refine ⟨e' :: es', ?_, by rw [List.map_cons, hval, hvals]⟩
      simp only [traverseSlots, List.flatMap_cons, List.append_assoc, he,
        Option.bind_eq_bind, Option.bind_some, if_true, hes]
      rfl

theorem traversePushes_decodes {max N : ℕ} {fresh : α} {vs : List β}
    (hroom : obj.HasRoom N) (hN : N < 2 ^ 30) (hlen : obj.elems.length + vs.length ≤ N)
    (hmax : obj.elems.length + vs.length ≤ max) (h : ∀ v ∈ vs, Decodes elm val fresh (enc v) v) :
    Decodes (traversePushes elm max fresh vs.length) (fun obj => obj.elems.map val) obj
      (vs.flatMap enc) (obj.elems.map val ++ vs) := by
  intro rest
  induction vs generalizing obj with
  | nil => exact ⟨obj, rfl, by simp⟩
  | cons v vs ih =>
    rw [List.length_cons] at hlen hmax
    obtain ⟨obj', hpush, helems, hroom'⟩ :=
      hroom.pushBack (by omega) hN (show obj.elems.length + 1 ≤ max by omega) fresh
    obtain ⟨e, he, hval⟩ := h v (List.mem_cons_self ..) (vs.flatMap enc ++ rest)
    have hdrop : obj'.elems.dropLast ++ [e] = obj.elems ++ [e] := by
      rw [helems, List.dropLast_concat]
    have hroom'' : ({ obj' with elems := obj.elems ++ [e] } : RpcVec α).HasRoom N := by
      refine ⟨hroom'.1, ?_⟩
      have hcap := hroom'.2
      simp only [RpcVec.nalloc, helems, List.length_append, List.length_singleton] at hcap ⊢
      exact hcap
    obtain ⟨obj'', hrest, hvals⟩ := ih hroom''
      (by simp only [List.length_append, List.length_singleton]; omega)
      (by simp only [List.length_append, List.length_singleton]; omega)
      (fun v' hv' => h v' (List.mem_cons_of_mem _ hv'))
    refine ⟨obj'', ?_, ?_⟩
    · simp only [List.length_cons, traversePushes, hpush, List.flatMap_cons, List.append_assoc,
        he, Option.bind_eq_bind, Option.bind_some, if_true, hdrop]
      exact hrest
    · rw [hvals, List.map_append, List.map_cons, hval]
      simp

theorem fitVec_spec {max n : ℕ} (sz : ℕ) (fresh : α) (hroom : obj.HasRoom n)
    (hshort : n < 2 ^ 30) (hmax : n ≤ max) :
    ∃ obj', fitVec max sz n fresh obj = some obj' ∧ obj'.elems = obj.elems.take n ∧
      obj'.HasRoom n := by
  simp only [fitVec]
  split_ifs with hlt hgt hres
  · obtain ⟨obj', hset, helems, hroom'⟩ := hroom.setsize (Nat.le_refl _) hshort hmax fresh
    rw [Nat.sub_eq_zero_of_le (Nat.le_of_lt hlt), List.replicate_zero, List.append_nil] at helems
    exact ⟨obj', hset, helems, hroom'⟩
  · obtain ⟨obj', hset, helems, hroom'⟩ := hroom.reserve
      (show obj.elems.length + (min (0x10000 / sz) n - obj.elems.length) ≤ n by omega) hshort
      (show _ ≤ max by omega)
    exact ⟨obj', hset, by rw [helems, List.take_of_length_le (by omega)], hroom'⟩
  · exact ⟨obj, rfl, by rw [List.take_of_length_le (by omega)], hroom⟩
  · exact ⟨obj, rfl, by rw [List.take_of_length_le (by omega)], hroom⟩

theorem traverseVec_decodes {max sz : ℕ} {fresh : α} {vs : List β} (hmax : vs.length ≤ max)
    (hshort : vs.length < 2 ^ 30) (hfree : obj.nofree = false) (hcap : obj.nalloc < 2 ^ 30)
    (hslot : ∀ e ∈ obj.elems, ∀ v ∈ vs, Decodes elm val e (enc v) v)
    (hfresh : ∀ v ∈ vs, Decodes elm val fresh (enc v) v) :
    Decodes (traverseVec elm max sz fresh) (fun obj => obj.elems.map val) obj
      (htonl (BitVec.ofNat 32 vs.length) ++ vs.flatMap enc) vs := by
  intro rest
  have hsize : (BitVec.ofNat 32 vs.length).toNat = vs.length := by
    rw [BitVec.toNat_ofNat, Nat.mod_eq_of_lt (by omega)]
  have hassert : ¬ (true = false ∨ max < vs.length) := by simpa using hmax
  have hroom : obj.HasRoom vs.length := ⟨hfree, Or.inl hcap⟩
  obtain ⟨obj₁, hfit, helems, hroom₁⟩ := fitVec_spec sz fresh hroom hshort hmax
  have hlen₁ : obj₁.elems.length ≤ vs.length := by
    rw [helems, List.length_take]
    omega
  have hwire : vs.flatMap enc ++ rest = (vs.take obj₁.elems.length).flatMap enc ++
      ((vs.drop obj₁.elems.length).flatMap enc ++ rest) := by
    rw [← List.append_assoc, ← List.flatMap_append, List.take_append_drop]
  have hslots : Decodes (traverseSlots elm) (List.map val) obj₁.elems
      ((vs.take obj₁.elems.length).flatMap enc) (vs.take obj₁.elems.length) := by
    refine traverseSlots_decodes (by rw [List.length_take]; omega) ?_
    exact fun e he v hv => hslot e (List.mem_of_mem_take (helems ▸ he)) v
      (List.mem_of_mem_take hv)
  obtain ⟨es, hes, hvals⟩ := hslots ((vs.drop obj₁.elems.length).flatMap enc ++ rest)
  have heslen : es.length = obj₁.elems.length := by
    have h := congrArg List.length hvals
    rw [List.length_map, List.length_take] at h
    omega
  have hroom₂ : ({ obj₁ with elems := es } : RpcVec α).HasRoom vs.length := by
    refine ⟨hroom₁.1, ?_⟩
    have h := hroom₁.2
    simp only [RpcVec.nalloc, heslen] at h ⊢
    exact h
  have hpushes : Decodes (traversePushes elm max fresh (vs.drop es.length).length)
      (fun obj => obj.elems.map val) { obj₁ with elems := es } ((vs.drop es.length).flatMap enc)
      (es.map val ++ vs.drop es.length) :=
    traversePushes_decodes hroom₂ hshort (by simp only [List.length_drop]; omega)
      (by simp only [List.length_drop]; omega)
      (fun v hv => hfresh v (List.mem_of_mem_drop hv))
  obtain ⟨obj₂, hpush, hall⟩ := hpushes rest
  refine ⟨obj₂, ?_, ?_⟩
  · simp only [traverseVec, traverseU32, List.append_assoc, getint_htonl, hsize,
      if_neg hassert, hfit, Option.bind_eq_bind, Option.bind_some, hwire, hes, if_true]
    rw [List.length_drop, heslen] at hpush
    rw [heslen]
    exact hpush
  · rw [hall]
    show es.map val ++ vs.drop es.length = vs
    rw [hvals, heslen, List.take_append_drop]

end Vec

variable {sizeof : XdrTy → ℕ} {junk : BitVec 64}

theorem traverseU64_encodes (v : BitVec 64) :
    Encodes (fun x obj => some (traverseU64 x obj)) v (wire .u64 v) := by
  intro out
  simp only [traverseU64, traverseU32, hyper_eq, wire, List.append_assoc]

theorem traversePtr_encodes {α : Type} {elm : XDR → α → Option (Bool × XDR × α)} {fresh : α}
    (obj : Option α) (w : List Byte) (h : ∀ e ∈ obj, Encodes elm e w) :
    Encodes (traversePtr elm fresh) obj
      (if obj.isSome then htonl 1 ++ w else htonl 0) := by
  intro out
  cases obj with
  | none => rfl
  | some e =>
    have he := h e rfl (out ++ htonl 1)
    rw [List.append_assoc] at he
    simp only [traversePtr, traverseBool, traverseU32, Option.isSome_some, if_true,
      Option.getD_some]
    exact congrArg (Option.bind · fun r => some (r.1, r.2.1, some r.2.2)) he

theorem rpcTraverse_encodes (t : XdrTy) (obj : Obj t) (h : Within t (Obj.val t obj)) :
    Encodes (rpcTraverse sizeof junk t) obj (wire t (Obj.val t obj)) := by
  induction t with
  | u32 => exact fun out => rfl
  | u64 => exact traverseU64_encodes obj
  | bool =>
    intro out
    cases obj <;> rfl
  | rpcOpaque n pos =>
    intro out
    simp only [rpcTraverse, traverseOpaque, xdrPutpadbytes_eq]
    rfl
  | rpcBytes max =>
    intro out
    simp only [rpcTraverse, traverseBytes, xdrPutpadbytes_eq, List.append_assoc]
    rfl
  | rpcStr max =>
    obtain ⟨s, hs, -, -⟩ := h
    obtain rfl : obj = some s := hs
    intro out
    simp only [rpcTraverse, traverseStr, xdrPutpadbytes_eq, List.append_assoc]
    rfl
  | rpcVec t max ih =>
    obtain ⟨hlen, helems⟩ := h
    have hlen' : obj.elems.length ≤ max.val := by
      rw [← List.length_map (f := Obj.val t)]
      exact hlen
    have hvec : Encodes (rpcTraverse sizeof junk (.rpcVec t max)) obj
        (htonl (BitVec.ofNat 32 obj.elems.length) ++
          (obj.elems.map (Obj.val t)).flatMap (wire t)) := traverseVec_encodes max.le hlen'
      (fun e he => ih e (helems _ (List.mem_map_of_mem he)))
    have hwire : wire (.rpcVec t max) (Obj.val (.rpcVec t max) obj) =
        htonl (BitVec.ofNat 32 (obj.elems.map (Obj.val t)).length) ++
          (obj.elems.map (Obj.val t)).flatMap (wire t) := rfl
    rw [hwire, List.length_map]
    exact hvec
  | rpcPtr t ih =>
    cases obj with
    | none => exact traversePtr_encodes none [] (by simp)
    | some e =>
      refine traversePtr_encodes (some e) (wire t (Obj.val t e)) ?_
      rintro e' he
      obtain rfl : e = e' := Option.some.inj he
      exact ih e (h _ rfl)

theorem traverseU64_decodes (obj v : BitVec 64) :
    Decodes (fun x obj => some (traverseU64 x obj)) id obj (wire .u64 v) v := by
  intro rest
  refine ⟨v, ?_, rfl⟩
  simp only [traverseU64, traverseU32, wire, List.append_assoc, getint_htonl, hyper_eq]

theorem traverseBool_decodes (obj v : Bool) :
    Decodes (fun x obj => some (traverseBool x obj)) id obj (wire .bool v) v := by
  intro rest
  refine ⟨v, ?_, rfl⟩
  simp only [traverseBool, traverseU32, wire, getint_htonl]
  cases v <;> rfl

theorem traverseBytes_decodes {max : ℕ} {b : Byte} {obj : RpcVec Byte} {v : List Byte}
    (hinf : max ≤ rpcInfinity) (hmax : v.length ≤ max) (hshort : v.length < 2 ^ 30)
    (hfree : obj.nofree = false) (hcap : obj.nalloc < 2 ^ 30) :
    Decodes (traverseBytes max b) RpcVec.elems obj
      (htonl (BitVec.ofNat 32 v.length) ++ padded v) v := by
  intro rest
  obtain ⟨hsize, hget, htake⟩ := xdrGetbytes_padded rest (hmax.trans hinf)
  have hroom : obj.HasRoom v.length := ⟨hfree, Or.inl hcap⟩
  obtain ⟨obj', hset, -, -⟩ := hroom.setsize (Nat.le_refl _) hshort hmax b
  refine ⟨{ obj' with elems := v }, ?_, rfl⟩
  simp only [traverseBytes, List.append_assoc, getint_htonl, hsize,
    if_neg (Nat.not_lt_of_le hmax), hget, hset, Option.bind_eq_bind, Option.bind_some, htake]
  rfl

theorem traverseStr_decodes {max : ℕ} {obj : Option (List Byte)} {s : List Byte}
    (hinf : max ≤ rpcInfinity) (hmax : s.length ≤ max) (hnul : 0 ∉ s) :
    Decodes (traverseStr max) id obj (htonl (BitVec.ofNat 32 s.length) ++ padded s) (some s) := by
  intro rest
  obtain ⟨hsize, hget, htake⟩ := xdrGetbytes_padded rest (hmax.trans hinf)
  refine ⟨some s, ?_, rfl⟩
  simp only [traverseStr, List.append_assoc, getint_htonl, hsize, hget, htake, hnul,
    Nat.not_lt_of_le hmax, or_self, if_false]

theorem traversePtr_decodes {α β : Type} {elm : XDR → α → Option (Bool × XDR × α)} {fresh : α}
    {val : α → β} {obj : Option α} {v : Option β} {w : List Byte}
    (h : ∀ e, v = some e → Decodes elm val (obj.getD fresh) w e) :
    Decodes (traversePtr elm fresh) (Option.map val) obj
      (if v.isSome then htonl 1 ++ w else htonl 0) v := by
  intro rest
  cases v with
  | none =>
    refine ⟨none, ?_, rfl⟩
    simp [traversePtr, traverseBool, traverseU32, getint_htonl]
  | some e =>
    obtain ⟨p, hp, hval⟩ := h e rfl rest
    refine ⟨some p, ?_, by rw [Option.map_some, hval]⟩
    simp [traversePtr, traverseBool, traverseU32, getint_htonl, List.append_assoc, hp]

theorem rpcTraverse_decodes (t : XdrTy) (v : Val t) (hv : Within t v) (hshort : Short t v)
    (obj : Obj t) (hobj : Owned t obj) :
    Decodes (rpcTraverse sizeof junk t) (Obj.val t) obj (wire t v) v := by
  induction t with
  | u32 =>
    intro rest
    have hget := getint_htonl v rest
    refine ⟨v, ?_, rfl⟩
    simp only [rpcTraverse, traverseU32, wire, hget]
    rfl
  | u64 => exact traverseU64_decodes obj v
  | bool => exact traverseBool_decodes obj v
  | rpcOpaque n pos =>
    intro rest
    refine ⟨v, ?_, rfl⟩
    have hget := xdrGetpadbytes_append (p := v.1) obj.1 rest (obj.2.trans v.2.symm)
    simp only [rpcTraverse, traverseOpaque, wire, hget]
    rfl
  | rpcBytes max => exact traverseBytes_decodes max.le hv hshort hobj.1 hobj.2
  | rpcStr max =>
    obtain ⟨s, rfl, hlen, hnul⟩ := hv
    exact traverseStr_decodes max.le hlen hnul
  | rpcVec t max ih =>
    refine traverseVec_decodes hv.1 hshort.1 hobj.1.1 hobj.1.2 ?_ ?_
    · exact fun e he v' hv' => ih v' (hv.2 v' hv') (hshort.2 v' hv') e (hobj.2 e he)
    · exact fun v' hv' => ih v' (hv.2 v' hv') (hshort.2 v' hv') _ (Obj.owned_new junk t)
  | rpcPtr t ih =>
    have hown : Owned t (Option.getD obj (Obj.new junk t)) := by
      cases obj with
      | none => exact Obj.owned_new junk t
      | some e => exact hobj e rfl
    cases v with
    | none => exact traversePtr_decodes (v := none) (w := []) (by simp)
    | some e =>
      refine traversePtr_decodes (v := some e) (w := wire t e) ?_
      rintro e' he
      obtain rfl : e = e' := Option.some.inj he
      exact ih e (hv e rfl) (hshort e rfl) _ hown

end Sfslite.Arpc
