import Sfslite.Crypt.Umac

/-!
A call of `umac::update` at a word boundary takes one word after the other. What a call does that
starts inside a word is compared with that.
-/

namespace Sfslite.Crypt.Umac

open Sfslite.Arpc (Byte)

variable {H : Hash} {u u' : Umac H} {dp : List Byte} {l1pos : ℕ}

/-- The words of a message; the last one may have less than four bytes. -/
def wordsOf : List Byte → List (List Byte)
  | [] => []
  | a :: b :: c :: d :: dp => [a, b, c, d] :: wordsOf dp
  | dp => [dp]

/-- The next word. A full block is consumed when more comes, not before. -/
def push (u : Umac H) (word : List Byte) : Umac H :=
  let u := if u.l1len = l1KeyLen then { u.consume with l1len := 0 } else u
  { u with
    wbuf := u.wbuf.setIfInBounds (u.l1len / wordSize) (getword word)
    l1len := u.l1len + word.length }

def pushAll (u : Umac H) (dp : List Byte) : Umac H :=
  (wordsOf dp).foldl push u

/-- The state with `l1pos` full words in the block. -/
def seek (u : Umac H) (l1pos : ℕ) : Umac H :=
  { u with l1len := l1pos * wordSize }

theorem wordsOf_cons {a b c d : Byte} :
    wordsOf (a :: b :: c :: d :: dp) = [a, b, c, d] :: wordsOf dp := by
  simp [wordsOf]

theorem wordsOf_short (hne : dp ≠ []) (hlen : dp.length < wordSize) : wordsOf dp = [dp] := by
  unfold wordSize at hlen
  match dp, hne, hlen with
  | [_], _, _ => rfl
  | [_, _], _, _ => rfl
  | [_, _, _], _, _ => rfl
  | _ :: _ :: _ :: _ :: _, _, hlen => exact absurd hlen (by simp)

theorem word_cases (dp : List Byte) :
    dp.length < wordSize ∨ ∃ a b c d rest, dp = a :: b :: c :: d :: rest := by
  match dp with
  | [] => exact Or.inl (by decide)
  | [_] => exact Or.inl (by simp [wordSize])
  | [_, _] => exact Or.inl (by simp [wordSize])
  | [_, _, _] => exact Or.inl (by simp [wordSize])
  | a :: b :: c :: d :: rest => exact Or.inr ⟨a, b, c, d, rest, rfl⟩

theorem wordsOf_append (a b : List Byte) (ha : a.length % wordSize = 0) :
    wordsOf (a ++ b) = wordsOf a ++ wordsOf b := by
  induction a using wordsOf.induct with
  | case1 => rfl
  | case2 x y z w rest ih =>
    simp only [wordSize, List.length_cons] at ha ih
    simp only [List.cons_append, wordsOf_cons]
    rw [ih (by omega)]
  | case3 dp hne hcons =>
    rcases word_cases dp with hlt | ⟨x, y, z, w, rest, rfl⟩
    · rw [Nat.mod_eq_of_lt hlt, List.length_eq_zero_iff] at ha
      exact absurd ha hne
    · exact absurd rfl (hcons x y z w rest)

theorem pushAll_append (u : Umac H) (a b : List Byte) (ha : a.length % wordSize = 0) :
    pushAll u (a ++ b) = pushAll (pushAll u a) b := by
  rw [pushAll, wordsOf_append a b ha, List.foldl_append]
  rfl

theorem pushAll_cons (u : Umac H) {a b c d : Byte} :
    pushAll u (a :: b :: c :: d :: dp) = pushAll (push u [a, b, c, d]) dp := by
  rw [pushAll, wordsOf_cons, List.foldl_cons]
  rfl

theorem push_of_lt (hlen : u.l1len < l1KeyLen) (word : List Byte) :
    push u word = { u with
      wbuf := u.wbuf.setIfInBounds (u.l1len / wordSize) (getword word)
      l1len := u.l1len + word.length } := by
  have hne : u.l1len ≠ l1KeyLen := Nat.ne_of_lt hlen
  simp only [push, hne, if_false]

variable {word : List Byte}

theorem push_seek (hpos : l1pos < l1KeyWords) (hword : word.length = wordSize) :
    push (seek u l1pos) word =
      seek { u with wbuf := u.wbuf.setIfInBounds l1pos (getword word) } (l1pos + 1) := by
  unfold l1KeyWords at hpos
  have hroom : (seek u l1pos).l1len < l1KeyLen := by
    unfold seek wordSize l1KeyLen
    dsimp only
    omega
  have hindex : l1pos * wordSize / wordSize = l1pos :=
    Nat.mul_div_cancel l1pos (by decide)
  rw [push_of_lt hroom]
  simp only [seek, hindex, hword, Nat.succ_mul]

theorem pushAll_blockLoop (n : ℕ) (hlen : n * wordSize ≤ dp.length)
    (hpos : l1pos + n ≤ l1KeyWords) :
    pushAll (seek u l1pos) (dp.take (n * wordSize)) =
      seek { u with wbuf := blockLoop u.wbuf l1pos n dp } (l1pos + n) := by
  induction n generalizing u dp l1pos with
  | zero => simp [blockLoop, pushAll, wordsOf]
  | succ n ih =>
    rcases word_cases dp with hlt | ⟨a, b, c, d, rest, rfl⟩
    · unfold wordSize at hlen hlt
      omega
    · simp only [wordSize, List.length_cons] at hlen
      have htake : (a :: b :: c :: d :: rest).take ((n + 1) * wordSize) =
          a :: b :: c :: d :: rest.take (n * wordSize) := by
        rw [Nat.succ_mul]
        rfl
      rw [htake, pushAll_cons, push_seek (by omega) rfl,
        ih (by unfold wordSize; omega) (by omega), Nat.add_assoc, Nat.add_comm 1 n]
      rfl

theorem pushAll_full (hne : dp ≠ []) :
    pushAll (seek u l1KeyWords) dp = pushAll (seek u.consume 0) dp := by
  have hpush : ∀ word, push (seek u l1KeyWords) word = push (seek u.consume 0) word := by
    intro word
    simp [push, seek, l1KeyWords, wordSize, l1KeyLen, consume]
  rcases word_cases dp with hlt | ⟨a, b, c, d, rest, rfl⟩
  · simp only [pushAll, wordsOf_short hne hlt, List.foldl_cons, hpush]
  · simp only [pushAll, wordsOf_cons, List.foldl_cons, hpush]

variable (u dp) in
theorem keyLoop_spec (fuel : ℕ) (hpos : l1pos ≤ l1KeyWords)
    (hfuel : dp.length < fuel ∨ l1pos = 0 ∧ dp.length ≤ fuel) :
    pushAll (seek u l1pos) dp = pushAll (seek (keyLoop u fuel l1pos dp).1
        (keyLoop u fuel l1pos dp).2.1) (keyLoop u fuel l1pos dp).2.2 ∧
      (keyLoop u fuel l1pos dp).2.1 * wordSize + (keyLoop u fuel l1pos dp).2.2.length ≤
        l1KeyLen := by
  induction fuel generalizing u l1pos dp with
  | zero =>
    obtain ⟨rfl, hlen⟩ := hfuel.resolve_left (Nat.not_lt_zero _)
    refine ⟨rfl, ?_⟩
    simp only [keyLoop]
    omega
  | succ fuel ih =>
    unfold l1KeyWords at hpos
    rw [keyLoop]
    split_ifs with hmore
    · have hroom : l1KeyLen - l1pos * wordSize = (l1KeyWords - l1pos) * wordSize := by
        unfold l1KeyLen wordSize l1KeyWords
        omega
      have hrest : dp.drop (l1KeyLen - l1pos * wordSize) ≠ [] := by
        rw [ne_eq, List.drop_eq_nil_iff]
        omega
      have hstep : pushAll (seek u l1pos) dp =
          pushAll (seek { u with wbuf := blockLoop u.wbuf l1pos (l1KeyWords - l1pos) dp }.consume
            0) (dp.drop (l1KeyLen - l1pos * wordSize)) := by
        conv_lhs => rw [← List.take_append_drop (l1KeyLen - l1pos * wordSize) dp]
        rw [pushAll_append, ← pushAll_full hrest]
        · congr 1
          rw [hroom, pushAll_blockLoop _ (by omega) (by unfold l1KeyWords; omega)]
          congr 1
          unfold l1KeyWords
          omega
        · rw [List.length_take, Nat.min_eq_left (Nat.le_of_lt hmore), hroom, Nat.mul_mod_left]
      rw [hstep]
      refine ih _ _ (Nat.zero_le _) (Or.inr ⟨rfl, ?_⟩)
      rw [List.length_drop]
      unfold l1KeyLen wordSize at hmore ⊢
      omega
    · refine ⟨rfl, ?_⟩
      unfold l1KeyLen wordSize at hmore ⊢
      dsimp only
      omega

theorem wordLoop_short {wbuf : Wbuf} (hlen : dp.length < wordSize) :
    wordLoop wbuf l1pos dp = (wbuf, l1pos, dp) := by
  unfold wordSize at hlen
  match dp, hlen with
  | [], _ => rfl
  | [_], _ => rfl
  | [_, _], _ => rfl
  | [_, _, _], _ => rfl
  | _ :: _ :: _ :: _ :: _, hlen => exact absurd hlen (by simp)

theorem wordLoop_spec (hroom : l1pos * wordSize + dp.length ≤ l1KeyLen) (wbuf : Wbuf) :
    pushAll (seek { u with wbuf := wbuf } l1pos) dp =
      if (wordLoop wbuf l1pos dp).2.2.isEmpty then
        seek { u with wbuf := (wordLoop wbuf l1pos dp).1 } (wordLoop wbuf l1pos dp).2.1
      else
        { u with
          wbuf := (wordLoop wbuf l1pos dp).1.setIfInBounds (wordLoop wbuf l1pos dp).2.1
            (getword (wordLoop wbuf l1pos dp).2.2)
          l1len := (wordLoop wbuf l1pos dp).2.1 * wordSize +
            (wordLoop wbuf l1pos dp).2.2.length } := by
  induction dp using wordsOf.induct generalizing wbuf l1pos with
  | case1 => rfl
  | case2 a b c d dp ih =>
    simp only [List.length_cons, l1KeyLen, wordSize] at hroom
    rw [pushAll_cons, push_seek (by unfold l1KeyWords; omega) rfl]
    exact ih (by unfold l1KeyLen wordSize; omega) _
  | case3 dp hne hcons =>
    rcases word_cases dp with hlt | ⟨a, b, c, d, rest, rfl⟩
    · have hpos : 0 < dp.length := List.length_pos_of_ne_nil hne
      have hfull : dp.isEmpty ≠ true := fun hempty => hne (List.isEmpty_iff.mp hempty)
      have hlast : (seek { u with wbuf := wbuf } l1pos).l1len < l1KeyLen := by
        unfold seek
        dsimp only
        omega
      rw [wordLoop_short hlt, pushAll, wordsOf_short hne hlt, List.foldl_cons,
        push_of_lt hlast]
      rw [if_neg hfull]
      simp [seek, Nat.mul_div_cancel l1pos (show 0 < wordSize by decide)]
    · exact absurd rfl (hcons a b c d rest)

theorem updateWords_eq (hlen : u.l1len ≤ l1KeyLen) :
    u.updateWords dp = pushAll (seek u (u.l1len / wordSize)) dp := by
  have hpos : u.l1len / wordSize ≤ l1KeyWords := by
    unfold l1KeyLen at hlen
    unfold wordSize l1KeyWords
    omega
  obtain ⟨hloop, hroom⟩ := keyLoop_spec u dp (dp.length + 1) hpos
    (Or.inl (Nat.lt_succ_self _))
  rw [hloop, updateWords]
  generalize keyLoop u (dp.length + 1) (u.l1len / wordSize) dp = r at hroom
  obtain ⟨v, l1pos, rest⟩ := r
  have hwords := wordLoop_spec (u := v) hroom v.wbuf
  dsimp only at hwords ⊢
  rw [hwords, Nat.mul_div_cancel _ (show 0 < wordSize by decide)]
  rfl

theorem update_nil (u : Umac H) : u.update [] = some u := rfl

theorem l1len_push (hlen : u.l1len ≤ l1KeyLen) (halign : u.l1len % wordSize = 0)
    (hword : word.length ≤ wordSize) :
    (push u word).l1len ≤ l1KeyLen ∧
      (push u word).l1len % wordSize = word.length % wordSize := by
  unfold l1KeyLen wordSize at *
  unfold push l1KeyLen
  split_ifs
  · dsimp only
    omega
  · dsimp only
    omega

theorem l1len_pushAll (hlen : u.l1len ≤ l1KeyLen) (halign : u.l1len % wordSize = 0)
    (dp : List Byte) :
    (pushAll u dp).l1len ≤ l1KeyLen ∧ (pushAll u dp).l1len % wordSize = dp.length % wordSize := by
  induction dp using wordsOf.induct generalizing u with
  | case1 => exact ⟨hlen, halign⟩
  | case2 a b c d dp ih =>
    have hword : [a, b, c, d].length ≤ wordSize := Nat.le_refl 4
    obtain ⟨hlen', halign'⟩ := l1len_push hlen halign hword
    rw [pushAll_cons]
    have hrest := ih hlen' (halign'.trans (Nat.mod_self wordSize))
    exact ⟨hrest.1, hrest.2.trans (Nat.add_mod_right dp.length wordSize).symm⟩
  | case3 dp hne hcons =>
    rcases word_cases dp with hlt | ⟨a, b, c, d, rest, rfl⟩
    · rw [pushAll, wordsOf_short hne hlt]
      exact l1len_push hlen halign (Nat.le_of_lt hlt)
    · exact absurd rfl (hcons a b c d rest)

theorem seek_self (halign : u.l1len % wordSize = 0) : seek u (u.l1len / wordSize) = u := by
  have hback : u.l1len / wordSize * wordSize = u.l1len := Nat.div_mul_cancel
    (Nat.dvd_of_mod_eq_zero halign)
  simp only [seek, hback]

theorem update_aligned (hlen : u.l1len ≤ l1KeyLen) (halign : u.l1len % wordSize = 0)
    (dp : List Byte) : u.update dp = some (pushAll u dp) := by
  cases dp with
  | nil => rfl
  | cons b dp =>
    rw [update, if_neg (by simp), fillWord, if_pos halign]
    simp only [Option.bind_eq_bind, Option.bind_some]
    rw [updateWords_eq hlen, seek_self halign]

/-- Every piece that is not empty starts at a multiple of the word size; `off` bytes come first. -/
def Aligned : (off : ℕ) → List ℕ → Prop
  | _, [] => True
  | off, n :: lens => (n = 0 ∨ off % wordSize = 0) ∧ Aligned (off + n) lens

instance instDecidableAligned : (off : ℕ) → (lens : List ℕ) → Decidable (Aligned off lens)
  | _, [] => inferInstanceAs (Decidable True)
  | off, n :: lens =>
    haveI := instDecidableAligned (off + n) lens
    inferInstanceAs (Decidable (_ ∧ _))

variable {parts : List (List Byte)}

theorem Aligned.off {off : ℕ} (h : Aligned off (parts.map List.length)) (hne : parts.flatten ≠ []) :
    off % wordSize = 0 := by
  induction parts with
  | nil => exact absurd rfl hne
  | cons p parts ih =>
    obtain ⟨hp | hoff, hrest⟩ := h
    · rw [List.length_eq_zero_iff] at hp
      subst hp
      exact ih hrest hne
    · exact hoff

theorem updates_aligned {off : ℕ} (parts : List (List Byte)) (hlen : u.l1len ≤ l1KeyLen)
    (hoff : u.l1len % wordSize = off % wordSize) (h : Aligned off (parts.map List.length)) :
    u.updates parts = u.update parts.flatten := by
  induction parts generalizing u off with
  | nil => rfl
  | cons p parts ih =>
    rw [updates, List.foldlM_cons, List.flatten_cons]
    cases p with
    | nil => exact ih hlen hoff h.2
    | cons b p =>
      have halign : off % wordSize = 0 := h.1.resolve_left (by simp)
      rw [halign] at hoff
      obtain ⟨hlen', hoff'⟩ := l1len_pushAll hlen hoff (b :: p)
      rw [update_aligned hlen hoff, update_aligned hlen hoff]
      have hadd : (pushAll u (b :: p)).l1len % wordSize =
          (off + (b :: p).length) % wordSize := by
        rw [hoff', Nat.add_mod, halign, Nat.zero_add, Nat.mod_mod]
      have hrest := ih hlen' hadd h.2
      rw [updates] at hrest
      simp only [Option.bind_eq_bind, Option.bind_some]
      rw [hrest]
      generalize htail : parts.flatten = tail
      cases tail with
      | nil => rw [List.append_nil, update_nil]
      | cons c tail =>
        have hnext : (off + (b :: p).length) % wordSize = 0 :=
          h.2.off (by rw [htail]; exact List.cons_ne_nil c tail)
        rw [update_aligned hlen' (hadd.trans hnext), pushAll_append]
        rw [← hoff', hadd, hnext]

section Inside

/-- A second hash that counts the blocks, and notes whether a word came without its top bit. -/
def counting : Hash where
  Poly := ℕ × Bool
  polyReset := (0, false)
  consume poly wbuf := (poly.1 + 1, poly.2 || wbuf.any fun w => !w.msb)
  final _ _ _ _ := []

variable {u u' : Umac counting}

/-- The bytes that were taken, as `u` counts them. -/
def taken (u : Umac counting) : ℕ :=
  u.poly.1 * l1KeyLen + u.l1len

/-- One of the full words has no top bit. -/
def Holed (u : Umac counting) : Prop :=
  u.poly.2 = true ∨
    ∃ (i : ℕ) (h : i < l1KeyWords), (i + 1) * wordSize ≤ u.l1len ∧ u.wbuf[i].msb = false

/-- What holds between calls: a word that is not full ends with zeros. -/
structure Ready (u : Umac counting) : Prop where
  l1len_le : u.l1len ≤ l1KeyLen
  msb_last : ∀ h : u.l1len / wordSize < l1KeyWords, u.l1len % wordSize ≠ 0 →
    u.wbuf[u.l1len / wordSize].msb = false

theorem ready_reset (garbage : Wbuf) : Ready (reset counting garbage) where
  l1len_le := Nat.zero_le _
  msb_last _ hmod := absurd rfl hmod

theorem msb_getword (dp : List Byte) : (getword dp).msb = (dp.getD 3 0).msb := by
  simp only [getword, BitVec.msb_append]
  rfl

theorem holed_consume (hlen : u.l1len = l1KeyLen) :
    Holed { u.consume with l1len := 0 } ↔ Holed u := by
  unfold Holed
  rw [hlen]
  have hmore : ∀ (i : ℕ), ¬ (i + 1) * wordSize ≤ 0 := by
    unfold wordSize
    omega
  have hfit : ∀ i, i < l1KeyWords → (i + 1) * wordSize ≤ l1KeyLen := by
    unfold wordSize l1KeyWords l1KeyLen
    omega
  constructor
  · rintro (hpoly | ⟨i, -, hi, -⟩)
    · rcases Bool.or_eq_true_iff.mp hpoly with hold | hany
      · exact Or.inl hold
      · obtain ⟨i, hi, hmsb⟩ := Vector.any_eq_true.mp hany
        exact Or.inr ⟨i, hi, hfit i hi, by simpa using hmsb⟩
    · exact absurd hi (hmore i)
  · rintro (hpoly | ⟨i, hi, -, hmsb⟩)
    · exact Or.inl (Bool.or_eq_true_iff.mpr (Or.inl hpoly))
    · exact Or.inl (Bool.or_eq_true_iff.mpr (Or.inr
        (Vector.any_eq_true.mpr ⟨i, hi, by simpa using hmsb⟩)))

theorem holed_push_lt (hlen : u.l1len < l1KeyLen) (halign : u.l1len % wordSize = 0)
    (hword : word.length ≤ wordSize) :
    Holed (push u word) ↔
      Holed u ∨ word.length = wordSize ∧ (getword word).msb = false := by
  rw [push_of_lt hlen]
  unfold l1KeyLen wordSize at *
  unfold Holed wordSize
  constructor
  · rintro (hpoly | ⟨i, hi, hfit, hmsb⟩)
    · exact Or.inl (Or.inl hpoly)
    · dsimp only at hfit hmsb
      rw [Vector.getElem_setIfInBounds] at hmsb
      split_ifs at hmsb with hlast
      · exact Or.inr ⟨by omega, hmsb⟩
      · exact Or.inl (Or.inr ⟨i, hi, by omega, hmsb⟩)
  · rintro ((hpoly | ⟨i, hi, hfit, hmsb⟩) | ⟨hfull, hmsb⟩)
    · exact Or.inl hpoly
    · refine Or.inr ⟨i, hi, Nat.le_add_right_of_le hfit, ?_⟩
      rw [Vector.getElem_setIfInBounds, if_neg (by omega)]
      exact hmsb
    · refine Or.inr ⟨u.l1len / 4, by unfold l1KeyWords; omega, by dsimp only; omega, ?_⟩
      rw [Vector.getElem_setIfInBounds, if_pos rfl]
      exact hmsb

theorem holed_push (hlen : u.l1len ≤ l1KeyLen) (halign : u.l1len % wordSize = 0)
    (hword : word.length ≤ wordSize) :
    Holed (push u word) ↔
      Holed u ∨ word.length = wordSize ∧ (getword word).msb = false := by
  rcases Nat.lt_or_eq_of_le hlen with hlt | hfull
  · exact holed_push_lt hlt halign hword
  · have hpush : push u word = push { u.consume with l1len := 0 } word := by
      simp [push, hfull, l1KeyLen]
    rw [hpush, holed_push_lt (Nat.zero_lt_succ 1023) rfl hword, holed_consume hfull]

theorem taken_push (word : List Byte) : taken (push u word) = taken u + word.length := by
  unfold taken push
  split_ifs with hfull
  · simp only [consume, counting, hfull, Nat.succ_mul]
    omega
  · simp only [Nat.add_assoc]

theorem ready_push (hlen : u.l1len ≤ l1KeyLen) (halign : u.l1len % wordSize = 0)
    (hword : word.length ≤ wordSize) : Ready (push u word) := by
  obtain ⟨hlen', halign'⟩ := l1len_push hlen halign hword
  refine ⟨hlen', fun h hmod => ?_⟩
  have hshort : word.length < wordSize := by
    rw [halign'] at hmod
    refine Nat.lt_of_le_of_ne hword fun heq => hmod ?_
    rw [heq, Nat.mod_self]
  have hzero : (getword word).msb = false := by
    rw [msb_getword, List.getD_eq_default _ _ (by unfold wordSize at hshort; omega)]
    rfl
  have hindex : ∀ v : Umac counting, v.l1len % wordSize = 0 →
      (v.l1len + word.length) / wordSize = v.l1len / wordSize := by
    unfold wordSize at *
    omega
  unfold push at h ⊢
  split_ifs at h ⊢ with hfull
  · have heq := hindex { u.consume with l1len := 0 } rfl
    simp only [heq, Vector.getElem_setIfInBounds, if_true]
    exact hzero
  · have heq := hindex u halign
    simp only [heq, Vector.getElem_setIfInBounds, if_true]
    exact hzero

theorem Ready.of_aligned (hlen : u.l1len ≤ l1KeyLen) (halign : u.l1len % wordSize = 0) :
    Ready u where
  l1len_le := hlen
  msb_last _ hmod := absurd halign hmod

theorem pushAll_spec (hlen : u.l1len ≤ l1KeyLen) (halign : u.l1len % wordSize = 0)
    (dp : List Byte) :
    Ready (pushAll u dp) ∧ taken (pushAll u dp) = taken u + dp.length ∧
      (Holed u → Holed (pushAll u dp)) ∧
      ((∀ b ∈ dp, b.msb = true) → Holed (pushAll u dp) → Holed u) := by
  induction dp using wordsOf.induct generalizing u with
  | case1 => exact ⟨Ready.of_aligned hlen halign, (Nat.add_zero _).symm, id, fun _ => id⟩
  | case2 a b c d dp ih =>
    have hword : [a, b, c, d].length ≤ wordSize := Nat.le_refl 4
    obtain ⟨hlen', halign'⟩ := l1len_push hlen halign hword
    obtain ⟨hready, htaken, hkeep, hback⟩ := ih hlen' (halign'.trans (Nat.mod_self wordSize))
    rw [pushAll_cons]
    refine ⟨hready, ?_, fun h => ?_, fun hbytes h => ?_⟩
    · rw [htaken, taken_push]
      simp only [List.length_cons, List.length_nil]
      omega
    · exact hkeep ((holed_push hlen halign hword).mpr (Or.inl h))
    · rcases (holed_push hlen halign hword).mp (hback (fun b hb => hbytes b (by simp [hb])) h)
        with hold | ⟨-, hmsb⟩
      · exact hold
      · rw [msb_getword] at hmsb
        have htop := hbytes d (by simp)
        exact absurd (hmsb.symm.trans htop) (by decide)
  | case3 dp hne hcons =>
    rcases word_cases dp with hlt | ⟨a, b, c, d, rest, rfl⟩
    · rw [pushAll, wordsOf_short hne hlt, List.foldl_cons, List.foldl_nil]
      have hword := Nat.le_of_lt hlt
      refine ⟨ready_push hlen halign hword, taken_push dp,
        fun h => (holed_push hlen halign hword).mpr (Or.inl h), fun _ h => ?_⟩
      rcases (holed_push hlen halign hword).mp h with hold | ⟨hfull, -⟩
      · exact hold
      · exact absurd hfull (Nat.ne_of_lt hlt)
    · exact absurd rfl (hcons a b c d rest)

/-- Inside a word: the word stays without its top bit and counts as full, or bytes are lost. -/
theorem fillWord_spec (hready : Ready u) (hmod : u.l1len % wordSize ≠ 0) (hne : dp ≠ [])
    {v : Umac counting} {rest : List Byte} (h : u.fillWord dp = some (v, rest)) :
    v.l1len ≤ l1KeyLen ∧
      (Holed (seek v (v.l1len / wordSize)) ∨
        rest = [] ∧ taken (seek v (v.l1len / wordSize)) < taken u + dp.length ∧
          (Holed u → Holed (seek v (v.l1len / wordSize)))) := by
  have hpos := List.length_pos_of_ne_nil hne
  rw [fillWord, if_neg hmod] at h
  dsimp only at h
  split_ifs at h with hfit
  obtain ⟨rfl, rfl⟩ := Prod.mk.inj (Option.some.inj h)
  have hold := hready.msb_last
  generalize hbytes : dp.take (wordSize - u.l1len % wordSize) = bytes at hfit ⊢
  have hlen : bytes.length = min (wordSize - u.l1len % wordSize) dp.length := by
    rw [← hbytes, List.length_take]
  generalize hword : (u.l1len + bytes.length) / wordSize = k at hfit ⊢
  have hlast : u.l1len / wordSize < l1KeyWords := by
    refine Nat.lt_of_le_of_lt ?_ hfit
    rw [← hword]
    exact Nat.div_le_div_right (Nat.le_add_right _ _)
  have hfit' : k < 256 := hfit
  unfold wordSize l1KeyLen at *
  refine ⟨by dsimp only; omega, ?_⟩
  rcases Nat.lt_or_ge (u.l1len % 4 + bytes.length) 3 with hshort | hlong
  · -- two bytes of the word are there
    right
    refine ⟨List.drop_eq_nil_iff.mpr (by omega), ?_, ?_⟩
    · unfold taken seek l1KeyLen wordSize
      dsimp only
      omega
    · rintro (hpoly | ⟨i, hi, hfull, hmsb⟩)
      · exact Or.inl hpoly
      · unfold wordSize at hfull
        refine Or.inr ⟨i, hi, ?_, ?_⟩
        · unfold seek wordSize
          dsimp only
          omega
        · simp only [seek, Vector.getElem_set]
          rw [if_neg (by omega)]
          exact hmsb
  · left
    refine Or.inr ⟨u.l1len / 4, hlast, ?_, ?_⟩
    · unfold seek wordSize
      dsimp only
      omega
    · simp only [seek, Vector.getElem_set]
      split_ifs with hsame
      · -- three bytes of the word are there
        rw [BitVec.msb_or, msb_getword, List.getD_eq_default _ _ (by
          rw [List.length_append, List.length_replicate]
          omega)]
        simp only [hsame]
        rw [hold hlast hmod]
        rfl
      · exact hold hlast hmod

/-- A word has lost its top bit, or bytes are missing from `n`. -/
def Behind (u : Umac counting) (n : ℕ) : Prop :=
  Holed u ∨ taken u < n

theorem Ready.update (hready : Ready u) (h : u.update dp = some u') :
    Ready u' ∧ ∀ n, (Behind u n → Behind u' (n + dp.length)) ∧
      (dp ≠ [] → u.l1len % wordSize ≠ 0 → taken u ≤ n → Behind u' (n + dp.length)) := by
  cases dp with
  | nil =>
    obtain rfl := Option.some.inj h
    exact ⟨hready, fun n => ⟨id, fun hne => absurd rfl hne⟩⟩
  | cons b dp =>
    rcases Nat.eq_zero_or_pos (u.l1len % wordSize) with halign | hmod
    · rw [update_aligned hready.l1len_le halign] at h
      obtain rfl := Option.some.inj h
      obtain ⟨hready', htaken, hkeep, -⟩ := pushAll_spec hready.l1len_le halign (b :: dp)
      refine ⟨hready', fun n => ⟨?_, fun _ hmod => absurd halign hmod⟩⟩
      rintro (hholed | hlt)
      · exact Or.inl (hkeep hholed)
      · exact Or.inr (htaken ▸ Nat.add_lt_add_right hlt _)
    · have hne := List.cons_ne_nil b dp
      have hmod' := Nat.ne_of_gt hmod
      rw [Umac.update, if_neg (by simp)] at h
      obtain ⟨⟨v, rest⟩, hfill, hrest⟩ := Option.bind_eq_some_iff.mp h
      obtain rfl := Option.some.inj hrest
      obtain ⟨hlen, hcases⟩ := fillWord_spec hready hmod' hne hfill
      rw [updateWords_eq hlen]
      have hlen' : (seek v (v.l1len / wordSize)).l1len ≤ l1KeyLen :=
        Nat.le_trans (Nat.div_mul_le_self _ _) hlen
      obtain ⟨hready', htaken, hkeep, -⟩ :=
        pushAll_spec hlen' (Nat.mul_mod_left (v.l1len / wordSize) wordSize) rest
      refine ⟨hready', fun n => ?_⟩
      rcases hcases with hholed | ⟨rfl, hlost, hold⟩
      · exact ⟨fun _ => Or.inl (hkeep hholed), fun _ _ _ => Or.inl (hkeep hholed)⟩
      · rw [List.length_nil, Nat.add_zero] at htaken
        refine ⟨?_, fun _ _ hle => Or.inr ?_⟩
        · rintro (hholed | hlt)
          · exact Or.inl (hkeep (hold hholed))
          · exact Or.inr (by omega)
        · omega

theorem Behind.updates {n : ℕ} (hready : Ready u) (h : Behind u n)
    (hrun : u.updates parts = some u') : Behind u' (n + parts.flatten.length) := by
  induction parts generalizing u n with
  | nil =>
    obtain rfl := Option.some.inj hrun
    exact h
  | cons p parts ih =>
    rw [Umac.updates, List.foldlM_cons] at hrun
    obtain ⟨v, hv, hrest⟩ := Option.bind_eq_some_iff.mp hrun
    obtain ⟨hready', hstep⟩ := hready.update hv
    rw [List.flatten_cons, List.length_append, ← Nat.add_assoc]
    exact ih hready' ((hstep n).1 h) hrest

theorem behind_updates (hready : Ready u)
    (hnot : ¬ Aligned (taken u) (parts.map List.length)) (hrun : u.updates parts = some u') :
    Behind u' (taken u + parts.flatten.length) := by
  induction parts generalizing u with
  | nil => exact absurd trivial hnot
  | cons p parts ih =>
    have hrun' := hrun
    rw [Umac.updates, List.foldlM_cons] at hrun'
    obtain ⟨v, hv, hrest⟩ := Option.bind_eq_some_iff.mp hrun'
    obtain ⟨hready', hstep⟩ := hready.update hv
    rw [List.flatten_cons, List.length_append, ← Nat.add_assoc]
    have hoff : taken u % wordSize = u.l1len % wordSize := by
      unfold taken l1KeyLen wordSize
      omega
    rcases Nat.eq_zero_or_pos (u.l1len % wordSize) with halign | hmod
    · rw [update_aligned hready.l1len_le halign] at hv
      obtain rfl := Option.some.inj hv
      have htaken := (pushAll_spec hready.l1len_le halign p).2.1
      rw [← htaken]
      refine ih hready' (fun hrest => hnot ⟨Or.inr (hoff.trans halign), ?_⟩) hrest
      rwa [← htaken]
    · cases p with
      | nil =>
        obtain rfl := Option.some.inj hv
        rw [List.length_nil, Nat.add_zero]
        refine ih hready (fun hrest => hnot ⟨Or.inl rfl, ?_⟩) hrest
        rwa [List.length_nil, Nat.add_zero]
      | cons b p =>
        exact ((hstep (taken u)).2 (List.cons_ne_nil b p) (Nat.ne_of_gt hmod)
          (Nat.le_refl _)).updates hready' hrest

end Inside

/-- For pieces of these lengths: what the calls leave is what one call leaves, for every message,
every second hash and whatever the buffer held, if and only if each piece starts at a multiple of
four bytes. -/
theorem updates_eq_update_iff (lens : List ℕ) :
    (∀ (H : Hash) (garbage : Wbuf) (parts : List (List Byte)), parts.map List.length = lens →
      (reset H garbage).updates parts = (reset H garbage).update parts.flatten) ↔
      Aligned 0 lens := by
  constructor
  · intro h
    by_contra hnot
    have hlens : (lens.map fun n => List.replicate n (0xff : Byte)).map List.length = lens := by
      simp [Function.comp_def]
    have heq := h counting (Vector.replicate _ 0) _ hlens
    rw [update_aligned (Nat.zero_le _) rfl] at heq
    have hstart : taken (reset counting (Vector.replicate _ 0)) = 0 := rfl
    have hbehind := behind_updates (ready_reset _) (by rwa [hstart, hlens]) heq
    obtain ⟨-, htaken, -, hback⟩ := pushAll_spec (u := reset counting (Vector.replicate _ 0))
      (Nat.zero_le _) rfl (lens.map fun n => List.replicate n (0xff : Byte)).flatten
    rcases hbehind with hholed | hlost
    · have hbytes : ∀ b ∈ (lens.map fun n => List.replicate n (0xff : Byte)).flatten,
          b.msb = true := by
        intro b hb
        obtain ⟨l, hl, hbl⟩ := List.mem_flatten.mp hb
        obtain ⟨n, -, rfl⟩ := List.mem_map.mp hl
        rw [List.eq_of_mem_replicate hbl]
        rfl
      rcases hback hbytes hholed with hpoly | ⟨i, -, hfull, -⟩
      · exact absurd hpoly (by decide)
      · exact absurd hfull (by simp [reset, wordSize])
    · omega
  · rintro haligned H garbage parts rfl
    exact updates_aligned parts (Nat.zero_le _) rfl haligned

/-- Two bytes in one call and in two: the second call drops them both, and the tags differ. -/
theorem updates_two_bytes : ¬ ∀ (key : Keys) (garbage : Wbuf) (parts : List (List Byte)),
    ((reset (umacU32Le key) garbage).updates parts).map final =
      ((reset (umacU32Le key) garbage).update parts.flatten).map final := by
  intro h
  have hbad := h ⟨[], [1, 1, 1], List.replicate 3 (List.replicate 8 1), [0, 0, 0]⟩
    (Vector.replicate _ 0) [[1], [2]]
  revert hbad
  decide +kernel

end Sfslite.Crypt.Umac
