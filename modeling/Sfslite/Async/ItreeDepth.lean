import Mathlib.Algebra.Group.Nat.Defs
import Mathlib.Data.Nat.Log
import Sfslite.Async.ItreeLookup

/-!
How long a search takes: a loop from the root downwards turns no more often than a path is long,
and in a red-black tree a path is no longer than twice the logarithm of the size.
-/

namespace Sfslite.Lib.RedBlack.RbTree

variable {α : Type*}

def depth : RbTree α → ℕ
  | nil => 0
  | node _ l _ r => max l.depth r.depth + 1

theorem depth_le_of_bal {t : RbTree α} {n : ℕ} (h : t.Bal n) :
    t.depth ≤ 2 * n + if t.color = .red then 1 else 0 := by
  induction t generalizing n with
  | nil => simp [depth]
  | node c l x r ihl ihr =>
    cases c with
    | black =>
      obtain ⟨m, rfl, hl, hr⟩ := h
      have hdl := ihl hl
      have hdr := ihr hr
      split_ifs at hdl hdr <;> simp only [depth] <;> omega
    | red =>
      obtain ⟨hcl, hcr, hl, hr⟩ := h
      have hdl := ihl hl
      have hdr := ihr hr
      rw [hcl] at hdl
      rw [hcr] at hdr
      simp only [depth, color, if_true, reduceCtorEq, if_false] at hdl hdr ⊢
      omega

theorem two_pow_le_of_bal {t : RbTree α} {n : ℕ} (h : t.Bal n) : 2 ^ n ≤ t.toList.length + 1 := by
  induction t generalizing n with
  | nil => simp [show n = 0 from h]
  | node c l x r ihl ihr =>
    simp only [toList, List.length_append, List.length_cons]
    cases c with
    | black =>
      obtain ⟨m, rfl, hl, hr⟩ := h
      have hll := ihl hl
      have hlr := ihr hr
      rw [Nat.pow_succ]
      omega
    | red =>
      obtain ⟨-, -, hl, -⟩ := h
      have hll := ihl hl
      omega

theorem depth_le_log {t : RbTree α} (h : RB t) : t.depth ≤ 2 * Nat.log 2 (t.toList.length + 1) := by
  obtain ⟨hc, n, hn⟩ := h
  have hdepth := depth_le_of_bal hn
  rw [hc, if_neg (by decide)] at hdepth
  have hlog := Nat.le_log_of_pow_le Nat.one_lt_two (two_pow_le_of_bal hn)
  omega

end Sfslite.Lib.RedBlack.RbTree

namespace Sfslite.Async

open Sfslite.Lib.RedBlack

namespace Itree

variable {s : Itree} {t : RbTree ℕ} {u fuel : ℕ}

/-- A loop that goes down to a child with each turn ends. -/
theorem descent_isSome {loop : ℕ → ℕ → ℕ → Option ℕ}
    (hnil : ∀ fuel ret, (loop (fuel + 1) 0 ret).isSome)
    (hdown : ∀ fuel n ret, n ≠ 0 → ∃ d ret', loop (fuel + 1) n ret = loop fuel (s.child d n) ret')
    (ret : ℕ) (h : TreeAt s.mem u t) (hfuel : t.depth < fuel) :
    (loop fuel (addr t) ret).isSome := by
  obtain ⟨fuel, rfl⟩ := Nat.exists_eq_succ_of_ne_zero (Nat.ne_zero_of_lt hfuel)
  induction t generalizing u ret fuel with
  | nil => exact hnil fuel ret
  | node c l x r ihl ihr =>
    obtain ⟨hx, hm, hl, hr⟩ := h
    simp only [RbTree.depth] at hfuel
    obtain ⟨fuel, rfl⟩ := Nat.exists_eq_succ_of_ne_zero (by omega : fuel ≠ 0)
    obtain ⟨d, ret', hloop⟩ := hdown (fuel + 1) x ret hx
    rw [show addr (.node c l x r) = x from rfl, hloop, child, hm]
    cases d with
    | left => exact ihl ret' hl fuel (by omega)
    | right => exact ihr ret' hr fuel (by omega)

theorem itreeSearchLoop_isSome (cb : ℕ → Int) (ret : ℕ) (h : TreeAt s.mem u t)
    (hfuel : t.depth < fuel) : (itreeSearchLoop cb s fuel (addr t) ret).isSome := by
  refine descent_isSome (by simp [itreeSearchLoop]) (fun fuel n ret hn => ?_) ret h hfuel
  rw [itreeSearchLoop, if_neg hn]
  split_ifs <;> exact ⟨_, _, rfl⟩

theorem lowerBoundLoop_isSome (cb : ℕ → Int) (ret : ℕ) (h : TreeAt s.mem u t)
    (hfuel : t.depth < fuel) : (lowerBoundLoop cb s fuel (addr t) ret).isSome := by
  refine descent_isSome (by simp [lowerBoundLoop]) (fun fuel n ret hn => ?_) ret h hfuel
  rw [lowerBoundLoop, if_neg hn]
  split_ifs <;> exact ⟨_, _, rfl⟩

end Itree

/-- After any legal run, `search` and `lower_bound` end for every callback, however it answers, and
look at no more nodes than twice the logarithm of their number. -/
theorem itree_searches_log {cmpfn : ℕ → ℕ → Int} (hcmp : CmpOrder cmpfn) (s : Itree)
    (ops : List ItreeOp) (hops : LegalRun [] ops) (fuel : ℕ) (hfuel : ops.length < fuel) :
    ∃ s', ops.foldlM (Itree.step cmpfn fuel) s.clear = some s' ∧
      ∀ cb turns, 2 * Nat.log 2 ((ops.foldl ItreeOp.contents []).length + 1) < turns →
        (s'.itreeSearch cb turns).isSome ∧ (s'.lowerBoundImpl cb turns).isSome := by
  obtain ⟨s', t, hrun, h⟩ := valid_run hcmp ops (valid_clear cmpfn s) hops
    (show List.length [] + ops.length < fuel by simpa using hfuel)
  refine ⟨s', hrun, fun cb turns hturns => ?_⟩
  have hdepth := RbTree.depth_le_log h.rb
  rw [h.perm.length_eq] at hdepth
  have hroot : s'.rbRoot = addr t := h.rep.1
  rw [Itree.itreeSearch, Itree.lowerBoundImpl, hroot]
  exact ⟨Itree.itreeSearchLoop_isSome cb 0 h.rep.2.1 (by omega),
    Itree.lowerBoundLoop_isSome cb 0 h.rep.2.1 (by omega)⟩

/-- Five turns are enough for three nodes that went in in order. -/
theorem itree_searches_log_three :
    let cmpfn : ℕ → ℕ → Int := fun a b => a - b
    let ops : List ItreeOp := [.insert 1, .insert 2, .insert 3]
    ∃ s', ops.foldlM (Itree.step cmpfn 4) (Itree.clear ⟨0, fun _ => ⟨0, 0, 0, .invalid⟩⟩) = some s' ∧
      ∀ cb, (s'.itreeSearch cb 5).isSome ∧ (s'.lowerBoundImpl cb 5).isSome := by
  intro cmpfn ops
  have hcmp : CmpOrder cmpfn :=
    ⟨fun a b h => by simp only [cmpfn] at h ⊢; omega,
      fun a b c h h' => by simp only [cmpfn] at h h' ⊢; omega⟩
  obtain ⟨s', hrun, hlog⟩ := itree_searches_log hcmp ⟨0, fun _ => ⟨0, 0, 0, .invalid⟩⟩ ops
    (by simp [ops, LegalRun, ItreeOp.Legal, ItreeOp.contents]) 4 (by simp [ops])
  exact ⟨s', hrun, fun cb => hlog cb 5 (by decide)⟩

end Sfslite.Async
