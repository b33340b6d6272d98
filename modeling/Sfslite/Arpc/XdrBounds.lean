import Sfslite.Arpc.XdrRoundTrip

/-!
On any bytes `rpc_traverse` decodes only strings and vectors within the bounds of their
types. With the round trip this is what the encoding is relied on for.
-/

namespace Sfslite.Arpc

open Sfslite.Async

/-- On any bytes a traversal leaves an object with `P` if it succeeds or had such an
object before. -/
def Keeps {α : Type} (elm : XDR → α → Option (Bool × XDR × α)) (P : α → Prop) : Prop :=
  ∀ inp obj ret x obj', elm (.decode inp) obj = some (ret, x, obj') →
    (∃ inp', x = .decode inp') ∧ (ret = true ∨ P obj → P obj')

theorem traverseU32_decode (inp : List Byte) (obj : BitVec 32) :
    ∃ inp', (traverseU32 (.decode inp) obj).2.1 = .decode inp' := by
  simp only [traverseU32]
  split <;> exact ⟨_, rfl⟩

theorem traverseBool_decode (inp : List Byte) (obj : Bool) :
    ∃ inp', (traverseBool (.decode inp) obj).2.1 = .decode inp' := by
  obtain ⟨inp', hinp⟩ := traverseU32_decode inp (if obj then 1 else 0)
  simp only [traverseBool]
  split
  · next h => exact ⟨inp', by rw [← hinp, h]⟩
  · next h => exact ⟨inp', by rw [← hinp, h]⟩

theorem traverseU64_decode (inp : List Byte) (obj : BitVec 64) :
    ∃ inp', (traverseU64 (.decode inp) obj).2.1 = .decode inp' := by
  obtain ⟨inp', hinp⟩ := traverseU32_decode inp ((obj >>> 32).setWidth 32)
  simp only [traverseU64]
  split
  · next h => exact ⟨inp', by rw [← hinp, h]⟩
  · next x hi h =>
      obtain rfl : x = .decode inp' := by rw [← hinp, h]
      obtain ⟨inp'', hinp'⟩ := traverseU32_decode inp' (obj.setWidth 32)
      split
      · next h' => exact ⟨inp'', by rw [← hinp', h']⟩
      · next h' => exact ⟨inp'', by rw [← hinp', h']⟩

theorem traverseBytes_keeps (max : ℕ) (b : Byte) :
    Keeps (traverseBytes max b) (fun obj => obj.elems.length ≤ max) := by
  intro inp obj ret x obj' h
  simp only [traverseBytes] at h
  split at h
  · cases h
    exact ⟨⟨_, rfl⟩, fun hP => hP.resolve_left Bool.false_ne_true⟩
  · split_ifs at h with hmax
    · cases h
      exact ⟨⟨_, rfl⟩, fun hP => hP.resolve_left Bool.false_ne_true⟩
    · split at h
      · cases h
        exact ⟨⟨_, rfl⟩, fun hP => hP.resolve_left Bool.false_ne_true⟩
      · simp only [Option.bind_eq_bind, Option.bind_eq_some_iff] at h
        obtain ⟨obj₁, -, h⟩ := h
        cases h
        refine ⟨⟨_, rfl⟩, fun _ => ?_⟩
        simp only [List.length_take]
        omega

theorem traverseStr_keeps (max : ℕ) :
    Keeps (traverseStr max) (fun obj => ∀ s ∈ obj, s.length ≤ max) := by
  intro inp obj ret x obj' h
  simp only [traverseStr] at h
  split at h
  · cases h
    exact ⟨⟨_, rfl⟩, fun hP => hP.resolve_left Bool.false_ne_true⟩
  · split_ifs at h with hmax
    · cases h
      exact ⟨⟨_, rfl⟩, fun hP => hP.resolve_left Bool.false_ne_true⟩
    · split at h
      · cases h
        exact ⟨⟨_, rfl⟩, fun hP => hP.resolve_left Bool.false_ne_true⟩
      · split_ifs at h with hnul hcheck
        · cases h
          exact ⟨⟨_, rfl⟩, fun hP => hP.resolve_left Bool.false_ne_true⟩
        · cases h
          refine ⟨⟨_, rfl⟩, fun _ s hs => ?_⟩
          obtain rfl := Option.some.inj hs
          exact Nat.le_of_not_lt fun hlt => hcheck (Or.inr hlt)

section Vec

variable {α : Type} {elm : XDR → α → Option (Bool × XDR × α)} {P : α → Prop}

theorem traverseSlots_keeps (h : Keeps elm P) :
    Keeps (traverseSlots elm) (fun es => ∀ e ∈ es, P e) := by
  intro inp es
  induction es generalizing inp with
  | nil =>
    rintro ret x es' hes
    cases hes
    exact ⟨⟨_, rfl⟩, fun _ e he => absurd he (List.not_mem_nil)⟩
  | cons e es ih =>
    intro ret x es' hes
    simp only [traverseSlots, Option.bind_eq_bind, Option.bind_eq_some_iff] at hes
    obtain ⟨⟨r₁, x₁, e₁⟩, he, hes⟩ := hes
    obtain ⟨⟨inp₁, rfl⟩, hP₁⟩ := h _ _ _ _ _ he
    cases r₁ with
    | false =>
      cases hes
      refine ⟨⟨_, rfl⟩, fun hP => ?_⟩
      have hall := hP.resolve_left Bool.false_ne_true
      obtain ⟨hPe, hPes⟩ := List.forall_mem_cons.mp hall
      exact List.forall_mem_cons.mpr ⟨hP₁ (Or.inr hPe), hPes⟩
    | true =>
      simp only [if_true, Option.bind_eq_some_iff] at hes
      obtain ⟨⟨r₂, x₂, es₂⟩, hrest, hes⟩ := hes
      cases hes
      obtain ⟨hdec, hP₂⟩ := ih _ _ _ _ hrest
      refine ⟨hdec, fun hP => ?_⟩
      refine List.forall_mem_cons.mpr ⟨hP₁ (Or.inl rfl), hP₂ (hP.imp_right fun hall => ?_)⟩
      exact (List.forall_mem_cons.mp hall).2

theorem length_traverseSlots {x x' : XDR} {es es' : List α} {ret : Bool}
    (h : traverseSlots elm x es = some (ret, x', es')) : es'.length = es.length := by
  induction es generalizing x ret x' es' with
  | nil => cases h; rfl
  | cons e es ih =>
    simp only [traverseSlots, Option.bind_eq_bind, Option.bind_eq_some_iff] at h
    obtain ⟨⟨r₁, x₁, e₁⟩, -, h⟩ := h
    cases r₁ with
    | false => cases h; rfl
    | true =>
      simp only [if_true, Option.bind_eq_some_iff] at h
      obtain ⟨⟨r₂, x₂, es₂⟩, hrest, h⟩ := h
      cases h
      simp only [List.length_cons, ih hrest]

variable {obj obj' : RpcVec α}

theorem RpcVec.superReserve_some {n : ℕ}
    (h : obj.superReserve n = some obj') : obj'.elems = obj.elems := by
  simp only [superReserve] at h
  split_ifs at h
  · cases h
    rfl
  · simp only [Option.bind_eq_bind, Option.bind_eq_some_iff] at h
    obtain ⟨n, -, h⟩ := h
    cases h
    rfl
  · cases h
    rfl

variable {fresh : α}

theorem RpcVec.pushBack_some {max : ℕ} (h : obj.pushBack max fresh = some obj') :
    obj'.elems = obj.elems ++ [fresh] ∧ obj.elems.length + 1 ≤ max := by
  simp only [pushBack, ensure] at h
  split_ifs at h with hfull
  · cases h
  · simp only [Option.bind_eq_bind, Option.bind_some, Option.bind_eq_some_iff] at h
    obtain ⟨obj₁, hres, h⟩ := h
    cases h
    exact ⟨by rw [superReserve_some hres], by omega⟩

theorem traversePushes_keeps (h : Keeps elm P) {max : ℕ} (hfresh : P fresh) (i : ℕ)
    {inp : List Byte} {ret : Bool} {x : XDR}
    (hobj : traversePushes elm max fresh i (.decode inp) obj = some (ret, x, obj'))
    (hlen : obj.elems.length ≤ max) :
    (∃ inp', x = .decode inp') ∧ obj'.elems.length ≤ max ∧
      ((∀ e ∈ obj.elems, P e) → ∀ e ∈ obj'.elems, P e) := by
  induction i generalizing inp obj with
  | zero =>
    cases hobj
    exact ⟨⟨_, rfl⟩, hlen, id⟩
  | succ i ih =>
    simp only [traversePushes, Option.bind_eq_bind, Option.bind_eq_some_iff] at hobj
    obtain ⟨obj₁, hpush, ⟨r₁, x₁, e₁⟩, he, hobj⟩ := hobj
    obtain ⟨helems, hmax⟩ := RpcVec.pushBack_some hpush
    obtain ⟨⟨inp₁, rfl⟩, hP₁⟩ := h _ _ _ _ _ he
    simp only [helems, List.dropLast_concat] at hobj
    have hall : (∀ e ∈ obj.elems, P e) → ∀ e ∈ obj.elems ++ [e₁], P e := by
      intro hP e he
      rcases List.mem_append.mp he with he | he
      · exact hP e he
      · rw [List.mem_singleton.mp he]
        exact hP₁ (Or.inr hfresh)
    cases r₁ with
    | false =>
      cases hobj
      exact ⟨⟨_, rfl⟩, by simpa using hmax, hall⟩
    | true =>
      obtain ⟨hdec, hlen', hP'⟩ := ih hobj (by simpa using hmax)
      exact ⟨hdec, hlen', fun hP => hP' (hall hP)⟩

theorem fitVec_some {max sz n : ℕ} (hmax : n ≤ max) (h : fitVec max sz n fresh obj = some obj') :
    obj'.elems.length ≤ max ∧ ∀ e ∈ obj'.elems, e ∈ obj.elems := by
  have hkeep : obj'.elems = obj.elems → obj.elems.length ≤ n →
      obj'.elems.length ≤ max ∧ ∀ e ∈ obj'.elems, e ∈ obj.elems := by
    intro helems hlen
    rw [helems]
    exact ⟨by omega, fun e he => he⟩
  simp only [fitVec] at h
  split_ifs at h with hlt hgt hres
  · simp only [RpcVec.setsize, if_pos hlt] at h
    split_ifs at h with hassert
    · cases h
    · cases h
      refine ⟨?_, fun e he => List.mem_of_mem_take he⟩
      simp only [List.length_take]
      omega
  · simp only [RpcVec.reserve, RpcVec.ensure] at h
    split_ifs at h with hassert
    · cases h
    · exact hkeep (RpcVec.superReserve_some h) (by omega)
  · cases h
    exact hkeep rfl (by omega)
  · cases h
    exact hkeep rfl (by omega)

theorem traverseVec_keeps (h : Keeps elm P) (max sz : ℕ) (hfresh : P fresh) :
    Keeps (traverseVec elm max sz fresh)
      (fun obj => obj.elems.length ≤ max ∧ ∀ e ∈ obj.elems, P e) := by
  intro inp obj ret x obj' hobj
  obtain ⟨inp₀, hinp₀⟩ := traverseU32_decode inp (BitVec.ofNat 32 obj.elems.length)
  simp only [traverseVec, hinp₀] at hobj
  split_ifs at hobj with hfail
  · cases hobj
    exact ⟨⟨_, rfl⟩, fun hP => hP.resolve_left Bool.false_ne_true⟩
  · simp only [Option.bind_eq_bind, Option.bind_eq_some_iff] at hobj
    obtain ⟨obj₁, hfit, ⟨r₁, x₁, es⟩, hslots, hobj⟩ := hobj
    obtain ⟨hlen₁, hmem₁⟩ := fitVec_some (by omega) hfit
    obtain ⟨⟨inp₁, rfl⟩, hP₁⟩ := traverseSlots_keeps h _ _ _ _ _ hslots
    have hlen : es.length ≤ max := by rwa [length_traverseSlots hslots]
    cases r₁ with
    | false =>
      cases hobj
      refine ⟨⟨_, rfl⟩, fun hP => ⟨hlen, hP₁ (Or.inr fun e he => ?_)⟩⟩
      exact (hP.resolve_left Bool.false_ne_true).2 e (hmem₁ e he)
    | true =>
      obtain ⟨hdec, hlen', hP'⟩ := traversePushes_keeps h hfresh _ hobj hlen
      exact ⟨hdec, fun _ => ⟨hlen', hP' (hP₁ (Or.inl rfl))⟩⟩

theorem traversePtr_keeps (h : Keeps elm P) (hfresh : P fresh) :
    Keeps (traversePtr elm fresh) (fun obj => ∀ e ∈ obj, P e) := by
  intro inp obj ret x obj' hobj
  obtain ⟨inp₀, hinp₀⟩ := traverseBool_decode inp obj.isSome
  simp only [traversePtr] at hobj
  split at hobj
  · next heq =>
      rw [heq] at hinp₀
      cases hobj
      exact ⟨⟨_, hinp₀⟩, fun hP => hP.resolve_left Bool.false_ne_true⟩
  · next x₁ heq =>
      rw [heq] at hinp₀
      obtain rfl : x₁ = .decode inp₀ := hinp₀
      simp only [Option.bind_eq_bind, Option.bind_eq_some_iff] at hobj
      obtain ⟨⟨r₁, x₂, p⟩, hp, hobj⟩ := hobj
      cases hobj
      obtain ⟨hdec, hP₁⟩ := h _ _ _ _ _ hp
      refine ⟨hdec, fun hP e he => ?_⟩
      obtain rfl := Option.some.inj he
      refine hP₁ (hP.imp_right fun hall => ?_)
      cases obj with
      | none => exact hfresh
      | some e => exact hall e rfl
  · next heq =>
      rw [heq] at hinp₀
      cases hobj
      exact ⟨⟨_, hinp₀⟩, fun _ e he => absurd he (Option.not_mem_none e)⟩

end Vec

variable {sizeof : XdrTy → ℕ} {junk : BitVec 64}

theorem keeps_true {α : Type} {f : XDR → α → Bool × XDR × α}
    (h : ∀ inp obj, ∃ inp', (f (.decode inp) obj).2.1 = .decode inp') :
    Keeps (fun x obj => some (f x obj)) (fun _ => True) := by
  intro inp obj ret x obj' hobj
  obtain ⟨inp', hinp⟩ := h inp obj
  rw [Option.some.injEq] at hobj
  rw [hobj] at hinp
  exact ⟨⟨inp', hinp⟩, fun _ => trivial⟩

theorem Keeps.congr {α : Type} {elm : XDR → α → Option (Bool × XDR × α)} {P Q : α → Prop}
    (h : Keeps elm P) (hPQ : ∀ obj, P obj ↔ Q obj) : Keeps elm Q := by
  intro inp obj ret x obj' hobj
  rw [← hPQ obj, ← hPQ obj']
  exact h inp obj ret x obj' hobj

theorem bounded_rpcVec {t : XdrTy} {max : Bound} (obj : RpcVec (Obj t)) :
    Bounded (.rpcVec t max) (Obj.val (.rpcVec t max) obj) ↔
      obj.elems.length ≤ max.val ∧ ∀ e ∈ obj.elems, Bounded t (Obj.val t e) := by
  show (obj.elems.map (Obj.val t)).length ≤ max.val ∧ (∀ v ∈ obj.elems.map (Obj.val t), Bounded t v)
    ↔ _
  rw [List.length_map, List.forall_mem_map]

theorem bounded_rpcPtr {t : XdrTy} (obj : Option (Obj t)) :
    Bounded (.rpcPtr t) (Obj.val (.rpcPtr t) obj) ↔ ∀ e ∈ obj, Bounded t (Obj.val t e) := by
  show (∀ v ∈ obj.map (Obj.val t), Bounded t v) ↔ _
  cases obj <;> simp

theorem rpcTraverse_keeps (t : XdrTy) :
    Keeps (rpcTraverse sizeof junk t) (fun obj => Bounded t (Obj.val t obj)) := by
  induction t with
  | u32 => exact keeps_true traverseU32_decode
  | u64 => exact keeps_true traverseU64_decode
  | bool => exact keeps_true traverseBool_decode
  | rpcOpaque n pos =>
    intro inp obj ret x obj' h
    cases h
    exact ⟨⟨_, rfl⟩, fun _ => trivial⟩
  | rpcBytes max => exact traverseBytes_keeps _ _
  | rpcStr max => exact traverseStr_keeps _
  | rpcVec t max ih =>
    exact (traverseVec_keeps ih max.val (sizeof t) (Obj.bounded_new junk t)).congr
      fun obj => (bounded_rpcVec obj).symm
  | rpcPtr t ih =>
    exact (traversePtr_keeps ih (Obj.bounded_new junk t)).congr
      fun obj => (bounded_rpcPtr obj).symm

/-- A value within its bounds, whose vectors have fewer than `2 ^ 30` elements, is written in whole
words, and reading these back leaves the same value in every destination whose vectors own their
storage. What is read from any bytes at all is within the bounds of its type. -/
theorem rpc_traverse_round_trip (sizeof : XdrTy → ℕ) (junk : BitVec 64) (t : XdrTy) :
    (∀ obj : Obj t, Within t (Obj.val t obj) → Short t (Obj.val t obj) →
      ∃ w, 4 ∣ w.length ∧
        (∀ out, rpcTraverse sizeof junk t (.encode out) obj =
          some (true, .encode (out ++ w), obj)) ∧
        ∀ dst : Obj t, Owned t dst → ∀ rest, ∃ obj',
          rpcTraverse sizeof junk t (.decode (w ++ rest)) dst = some (true, .decode rest, obj') ∧
          Obj.val t obj' = Obj.val t obj) ∧
    ∀ inp (dst : Obj t) ret x obj',
      rpcTraverse sizeof junk t (.decode inp) dst = some (ret, x, obj') →
      ret = true ∨ Bounded t (Obj.val t dst) → Bounded t (Obj.val t obj') := by
  refine ⟨fun obj hwithin hshort => ?_, fun inp dst ret x obj' h => ?_⟩
  · refine ⟨wire t (Obj.val t obj), dvd_length_wire t _, rpcTraverse_encodes t obj hwithin, ?_⟩
    exact fun dst hdst => rpcTraverse_decodes t _ hwithin hshort dst hdst
  · exact (rpcTraverse_keeps t inp dst ret x obj' h).2

/-- A vector of two byte strings, read into one that holds another; and a string. -/
theorem rpc_traverse_round_trip_nested :
    (∃ w : List Byte, 4 ∣ w.length ∧ ∃ obj' : RpcVec (RpcVec Byte),
      rpcTraverse (fun _ => 40) 7 (.rpcVec (.rpcBytes ⟨4, by decide⟩) ⟨3, by decide⟩)
        (.decode (w ++ [9])) (⟨false, 1, [⟨false, 0, [1], 3⟩], 2⟩ : RpcVec (RpcVec Byte)) =
          some (true, .decode [9], obj') ∧
      obj'.elems.map RpcVec.elems = [[5, 6, 7], [8]]) ∧
    Bounded (.rpcStr ⟨4, by decide⟩) (some [65] : Option (List Byte)) := by
  constructor
  · have hwithin : Within (.rpcVec (.rpcBytes ⟨4, by decide⟩) ⟨3, by decide⟩)
        ([[5, 6, 7], [8]] : List (List Byte)) := by
      show 2 ≤ 3 ∧ ∀ v ∈ ([[5, 6, 7], [8]] : List (List Byte)), v.length ≤ 4
      decide
    have hshort : Short (.rpcVec (.rpcBytes ⟨4, by decide⟩) ⟨3, by decide⟩)
        ([[5, 6, 7], [8]] : List (List Byte)) := by
      show 2 < 2 ^ 30 ∧ ∀ v ∈ ([[5, 6, 7], [8]] : List (List Byte)), v.length < 2 ^ 30
      simp
    have hdst : Owned (.rpcVec (.rpcBytes ⟨4, by decide⟩) ⟨3, by decide⟩)
        (⟨false, 1, [⟨false, 0, [1], 3⟩], 2⟩ : RpcVec (RpcVec Byte)) := by
      refine ⟨⟨rfl, ?_⟩, ?_⟩
      · show 1 + 1 + 2 < 2 ^ 30
        norm_num
      · show ∀ e ∈ ([⟨false, 0, [1], 3⟩] : List (RpcVec Byte)),
          e.nofree = false ∧ e.nalloc < 2 ^ 30
        simp [RpcVec.nalloc]
    obtain ⟨w, hdvd, -, hdec⟩ := (rpc_traverse_round_trip (fun _ => 40) 7
      (.rpcVec (.rpcBytes ⟨4, by decide⟩) ⟨3, by decide⟩)).1
      (⟨false, 0, [⟨false, 0, [5, 6, 7], 1⟩, ⟨false, 0, [8], 0⟩], 0⟩ : RpcVec (RpcVec Byte))
      hwithin hshort
    obtain ⟨obj', hobj, hval⟩ := hdec _ hdst [9]
    exact ⟨w, hdvd, obj', hobj, hval⟩
  · have hdec : traverseStr 4 (.decode [0, 0, 0, 1, 65, 0, 0, 0, 9]) (some []) =
        some (true, .decode [9], some [65]) := by decide
    exact (rpc_traverse_round_trip (fun _ => 40) 7 (.rpcStr ⟨4, by decide⟩)).2 _ _ _ _ _ hdec
      (Or.inl rfl)

/-- Where the program stops while it reads what it wrote: the destination does not own its
storage, or the vector needs room for `2 ^ 30` elements. -/
theorem rpc_traverse_decode_aborts :
    (∃ (obj dst : RpcVec Byte) (w : List Byte),
      Within (.rpcBytes ⟨4, by decide⟩) obj.elems ∧ dst.elems.length ≤ 4 ∧
      rpcTraverse (fun _ => 8) 0 (.rpcBytes ⟨4, by decide⟩) (.encode []) obj =
        some (true, .encode w, obj) ∧
      rpcTraverse (fun _ => 8) 0 (.rpcBytes ⟨4, by decide⟩) (.decode w) dst = none) ∧
    ∃ (obj dst : RpcVec Byte) (w : List Byte),
      Within (.rpcBytes ⟨rpcInfinity, Nat.le_refl _⟩) obj.elems ∧
      Owned (.rpcBytes ⟨rpcInfinity, Nat.le_refl _⟩) dst ∧
      rpcTraverse (fun _ => 8) 0 (.rpcBytes ⟨rpcInfinity, Nat.le_refl _⟩) (.encode []) obj =
        some (true, .encode w, obj) ∧
      rpcTraverse (fun _ => 8) 0 (.rpcBytes ⟨rpcInfinity, Nat.le_refl _⟩) (.decode w) dst =
        none := by
  constructor
  · have henc : traverseBytes 4 0 (.encode []) ⟨false, 0, [1, 2], 0⟩ =
        some (true, .encode [0, 0, 0, 2, 1, 2, 0, 0], ⟨false, 0, [1, 2], 0⟩) := by decide
    have hdec : traverseBytes 4 0 (.decode [0, 0, 0, 2, 1, 2, 0, 0]) ⟨true, 0, [3, 4, 5], 0⟩ =
        none := by decide
    have hlen : ([1, 2] : List Byte).length ≤ 4 := by decide
    exact ⟨⟨false, 0, [1, 2], 0⟩, ⟨true, 0, [3, 4, 5], 0⟩, _, hlen, by decide, henc, hdec⟩
  · have hlen : (List.replicate (2 ^ 30) (0 : Byte)).length = 2 ^ 30 := List.length_replicate
    generalize List.replicate (2 ^ 30) (0 : Byte) = p at hlen
    have hinf : p.length ≤ rpcInfinity := by
      rw [hlen]
      decide
    obtain ⟨hsize, hget, -⟩ := xdrGetbytes_padded [] hinf
    have henc : traverseBytes rpcInfinity 0 (.encode []) ⟨true, 0, p, 0⟩ =
        some (true, .encode (htonl (BitVec.ofNat 32 p.length) ++ padded p), ⟨true, 0, p, 0⟩) := by
      simp only [traverseBytes, xdrPutpadbytes_eq, List.nil_append]
    have hdec : traverseBytes rpcInfinity 0
        (.decode (htonl (BitVec.ofNat 32 p.length) ++ padded p)) RpcVec.new = none := by
      have hresize : vecResizeFn 0 (2 ^ 30) = none := by decide
      rw [List.append_nil] at hget
      have hset : (RpcVec.new : RpcVec Byte).setsize rpcInfinity p.length 0 = none := by
        rw [hlen] at hinf ⊢
        simp only [RpcVec.setsize, RpcVec.new, Bool.false_eq_true, false_or,
          if_neg (Nat.not_lt_of_le hinf), List.length_nil, Nat.not_lt_zero, if_false, Nat.sub_zero,
          RpcVec.superReserve, RpcVec.nalloc, Nat.add_zero, Nat.zero_add, Nat.zero_div, hresize]
        have hpos : 0 < 2 ^ 30 := Nat.two_pow_pos 30
        rw [if_pos (Nat.ne_of_gt hpos), if_neg (Nat.not_le_of_lt hpos), if_pos hpos]
        rfl
      simp only [traverseBytes, getint_htonl, hsize, if_neg (Nat.not_lt_of_le hinf), hget, hset,
        Option.bind_eq_bind, Option.bind_none]
    exact ⟨⟨true, 0, p, 0⟩, RpcVec.new, _, hinf, Obj.owned_new 0 (.rpcBytes _), henc, hdec⟩

end Sfslite.Arpc
