import Sfslite.Arpc.AxprtUnix
import Sfslite.Lib.MarkedStream
import Sfslite.Arpc.AxprtFraming

/-!
The queue of a transport that sends descriptors. Its sync points are numbers of iovecs; what counts
is how many bytes are in front of each. Bytes that are written move all of them closer, and no write
goes beyond the first one.
-/

namespace Sfslite.Arpc

open Sfslite.Lib

variable {φ : Type*}

@[simp] theorem pieces_flatten (cuts : List ℕ) (b : List Byte) : (pieces cuts b).flatten = b := by
  fun_induction pieces cuts b with
  | case1 => rfl
  | case2 b => simp
  | case3 b k cuts hne ih => rw [List.flatten_cons, ih, List.take_append_drop]

theorem pieces_ne_nil {cuts : List ℕ} {b v : List Byte} (hv : v ∈ pieces cuts b) : v ≠ [] := by
  fun_induction pieces cuts b with
  | case1 => exact absurd hv List.not_mem_nil
  | case2 b hne =>
    rw [List.mem_singleton] at hv
    rw [hv]
    exact hne
  | case3 b k cuts hne ih =>
    rcases List.mem_cons.mp hv with rfl | hv
    · simpa using hne
    · exact ih hv

namespace AxprtUnix

variable {s s' : AxprtUnix φ} {b : List Byte}

/-- The sync points that are not yet behind the queue. -/
def live (s : AxprtUnix φ) : List ℕ := s.syncpts.filter (s.iovno < ·)

/-- The bytes in front of the iovec with a number. -/
def bytesTo (s : AxprtUnix φ) (p : ℕ) : ℕ := (s.out.take (p - s.iovno)).flatten.length

/-- The bytes in front of each sync point. -/
def ends (s : AxprtUnix φ) : List ℕ := s.live.map s.bytesTo

/-- No iovec is empty, and the sync points are places in the queue, in order; the next iovec
starts behind the last of them. -/
structure QueueOk (s : AxprtUnix φ) : Prop where
  pieces : ∀ v ∈ s.out, v ≠ []
  sorted : s.syncpts.Pairwise (· < ·)
  bound : ∀ p ∈ s.syncpts, p ≤ s.iovno + s.out.length
  behind : s.broken = false → ∀ p ∈ s.syncpts, p < s.iovno + s.out.length

theorem length_flatten_take_lt {vs : List (List Byte)} (hvs : ∀ v ∈ vs, v ≠ []) {i j : ℕ}
    (hij : i < j) (hj : j ≤ vs.length) :
    (vs.take i).flatten.length < (vs.take j).flatten.length := by
  obtain ⟨k, rfl⟩ : ∃ k, j = i + (k + 1) := ⟨j - i - 1, by omega⟩
  rw [List.take_add, List.flatten_append, List.length_append]
  have hi : i < vs.length := by omega
  have hne := hvs vs[i] (List.getElem_mem hi)
  have hpos := List.length_pos_iff.mpr hne
  rw [List.drop_eq_getElem_cons hi, List.take_succ_cons, List.flatten_cons, List.length_append]
  omega

theorem length_flatten_take_le (vs : List (List Byte)) {i j : ℕ} (hij : i ≤ j) :
    (vs.take i).flatten.length ≤ (vs.take j).flatten.length := by
  obtain ⟨k, rfl⟩ := Nat.exists_eq_add_of_le hij
  rw [List.take_add, List.flatten_append, List.length_append]
  exact Nat.le_add_right _ _

theorem mem_live {p : ℕ} : p ∈ s.live ↔ p ∈ s.syncpts ∧ s.iovno < p := by
  simp [live]

theorem QueueOk.ends_sorted (h : s.QueueOk) : s.ends.Pairwise (· < ·) := by
  unfold ends
  rw [List.pairwise_map]
  apply List.Pairwise.imp_of_mem _ (h.sorted.filter _)
  intro p q hp hq hlt
  obtain ⟨hp, hpn⟩ := mem_live.mp hp
  obtain ⟨hq, -⟩ := mem_live.mp hq
  have hbound := h.bound q hq
  exact length_flatten_take_lt h.pieces (by omega) (by omega)

theorem modify_concat {α : Type*} (f : α → α) (init : List α) (last : α) :
    (init ++ [last]).modify init.length f = init ++ [f last] := by
  induction init with
  | nil => rfl
  | cons x init ih => simp [ih]

theorem push_spec (h : s.QueueOk) (lay : Layout) (b : List Byte) :
    ∃ out broken, s.push lay b = { s with out := out, broken := broken } ∧
      ({ s with out := out, broken := broken } : AxprtUnix φ).QueueOk ∧
      out.flatten = s.out.flatten ++ b ∧
      ({ s with out := out, broken := broken } : AxprtUnix φ).ends = s.ends ∧
      (b ≠ [] → broken = false) := by
  have hflat := pieces_flatten lay.cuts b
  have hpieces : ∀ v ∈ pieces lay.cuts b, v ≠ [] := fun v hv => pieces_ne_nil hv
  unfold push
  cases hcuts : pieces lay.cuts b with
  | nil =>
    rw [hcuts, List.flatten_nil] at hflat
    exact ⟨s.out, s.broken, rfl, h, by rw [← hflat, List.append_nil], rfl,
      fun hb => absurd hflat.symm hb⟩
  | cons v vs =>
    rw [hcuts] at hflat hpieces
    dsimp only
    split_ifs with hmerge
    · obtain ⟨-, hbroken, hout⟩ := hmerge
      obtain ⟨init, last, hlast⟩ := (List.eq_nil_or_concat' s.out).resolve_left hout
      have hbroken : s.broken = false := by simpa using hbroken
      have hmodify : s.out.modify (s.out.length - 1) (· ++ v) ++ vs = init ++ (last ++ v) :: vs := by
        rw [hlast, List.length_append, List.length_singleton, Nat.add_sub_cancel, modify_concat,
          List.append_assoc, List.singleton_append]
      rw [hmodify]
      refine ⟨_, s.broken, rfl, ⟨?_, h.sorted, ?_, ?_⟩, ?_, ?_, fun _ => hbroken⟩
      · intro u hu
        rcases List.mem_append.mp hu with hu | hu
        · exact h.pieces u (hlast ▸ List.mem_append_left _ hu)
        · rcases List.mem_cons.mp hu with rfl | hu
          · have hne := h.pieces last (hlast ▸ List.mem_append_right _ (List.mem_singleton_self _))
            exact List.append_ne_nil_of_left_ne_nil hne _
          · exact hpieces u (List.mem_cons_of_mem _ hu)
      · intro p hp
        have hlt := h.behind hbroken p hp
        rw [hlast] at hlt
        simp only [List.length_append, List.length_cons, List.length_nil] at hlt ⊢
        omega
      · intro _ p hp
        have hlt := h.behind hbroken p hp
        rw [hlast] at hlt
        simp only [List.length_append, List.length_cons, List.length_nil] at hlt ⊢
        omega
      · rw [← hflat, hlast]
        simp
      · unfold ends
        apply List.map_congr_left
        intro p hp
        have hlt := h.behind hbroken p (mem_live.mp hp).1
        rw [hlast, List.length_append, List.length_singleton] at hlt
        have hle : p - s.iovno ≤ init.length := by omega
        simp only [bytesTo]
        rw [hlast, List.take_append_of_le_length hle, List.take_append_of_le_length hle]
    · refine ⟨_, false, rfl, ⟨?_, h.sorted, ?_, ?_⟩, ?_, ?_, fun _ => rfl⟩
      · intro u hu
        rcases List.mem_append.mp hu with hu | hu
        · exact h.pieces u hu
        · exact hpieces u hu
      · intro p hp
        have hle := h.bound p hp
        simp only [List.length_append]
        omega
      · intro _ p hp
        have hle := h.bound p hp
        simp only [List.length_append, List.length_cons]
        omega
      · rw [List.flatten_append, hflat]
      · unfold ends
        apply List.map_congr_left
        intro p hp
        have hle := h.bound p (mem_live.mp hp).1
        simp only [bytesTo]
        rw [List.take_append_of_le_length (by omega)]

theorem wrsync_spec (h : s.QueueOk) (hbroken : s.broken = false) (hout : s.out ≠ []) :
    ∃ syncpts broken, s.wrsync = { s with syncpts := syncpts, broken := broken } ∧
      ({ s with syncpts := syncpts, broken := broken } : AxprtUnix φ).QueueOk ∧
      ({ s with syncpts := syncpts, broken := broken } : AxprtUnix φ).ends =
        s.ends ++ [s.out.flatten.length] := by
  have hlt := h.behind hbroken
  have hpos := List.length_pos_iff.mpr hout
  have hlast : ¬ s.syncpts.getLast? = some (s.iovno + s.out.length) := by
    intro hlast
    exact Nat.lt_irrefl _ (hlt _ (List.mem_of_getLast? hlast))
  refine ⟨s.syncpts ++ [s.iovno + s.out.length], true, if_neg hlast, ⟨h.pieces, ?_, ?_, nofun⟩, ?_⟩
  · rw [List.pairwise_append]
    refine ⟨h.sorted, List.pairwise_singleton _ _, fun p hp q hq => ?_⟩
    rw [List.mem_singleton.mp hq]
    exact hlt p hp
  · intro p hp
    rcases List.mem_append.mp hp with hp | hp
    · exact h.bound p hp
    · rw [List.mem_singleton.mp hp]
  · have hnew : s.iovno < s.iovno + s.out.length := by omega
    simp only [ends, live, List.filter_append, List.map_append, List.filter_cons, hnew,
      decide_true, if_true, List.filter_nil, List.map_cons, List.map_nil]
    simp only [bytesTo, Nat.add_sub_cancel_left, List.take_length]
    rfl

theorem remIovs_spec {vs : List (List Byte)} (hvs : ∀ v ∈ vs, v ≠ []) {k : ℕ}
    (hk : k ≤ vs.flatten.length) :
    (remIovs k vs).2.flatten = vs.flatten.drop k ∧ (∀ v ∈ (remIovs k vs).2, v ≠ []) ∧
      (remIovs k vs).1 + (remIovs k vs).2.length = vs.length ∧
      (∀ j ≤ vs.length, j ≤ (remIovs k vs).1 ↔ (vs.take j).flatten.length ≤ k) ∧
      ∀ j, (remIovs k vs).1 ≤ j →
        ((remIovs k vs).2.take (j - (remIovs k vs).1)).flatten.length =
          (vs.take j).flatten.length - k := by
  induction vs generalizing k with
  | nil =>
    refine ⟨by simp [remIovs], nofun, rfl, fun j hj => ?_, fun j _ => by simp [remIovs]⟩
    simp at hj
    simp [hj, remIovs]
  | cons v vs ih =>
    rw [List.flatten_cons, List.length_append] at hk
    have hrest : ∀ u ∈ vs, u ≠ [] := fun u hu => hvs u (List.mem_cons_of_mem _ hu)
    rw [remIovs]
    by_cases hv : v.length ≤ k
    · obtain ⟨hflat, hne, hcount, hle, hlen⟩ := ih hrest (k := k - v.length) (by omega)
      rw [if_pos hv]
      refine ⟨?_, hne, ?_, fun j hj => ?_, fun j hj => ?_⟩
      · rw [hflat, List.flatten_cons, List.drop_append, List.drop_of_length_le hv,
          List.nil_append]
      · rw [List.length_cons]
        dsimp only
        omega
      · cases j with
        | zero => simp
        | succ j =>
          have hiff := hle j (by simpa using hj)
          rw [List.take_succ_cons, List.flatten_cons, List.length_append]
          dsimp only
          omega
      · dsimp only at hj ⊢
        obtain ⟨j, rfl⟩ : ∃ i, j = i + 1 := ⟨j - 1, by omega⟩
        rw [Nat.add_sub_add_right, hlen j (by omega), List.take_succ_cons, List.flatten_cons,
          List.length_append]
        omega
    · rw [if_neg hv]
      refine ⟨?_, ?_, ?_, fun j _ => ?_, fun j _ => ?_⟩
      · rw [List.flatten_cons, List.flatten_cons, List.drop_append_of_le_length (by omega)]
      · intro u hu
        rcases List.mem_cons.mp hu with rfl | hu
        · rw [← List.length_pos_iff, List.length_drop]
          omega
        · exact hrest u hu
      · simp
      · cases j with
        | zero => simp
        | succ j =>
          rw [List.take_succ_cons, List.flatten_cons, List.length_append]
          dsimp only
          omega
      · cases j with
        | zero => simp
        | succ j =>
          rw [Nat.sub_zero, List.take_succ_cons, List.take_succ_cons, List.flatten_cons,
            List.flatten_cons, List.length_append, List.length_append, List.length_drop]
          omega

theorem rembytes_spec (h : s.QueueOk) {k : ℕ} (hk : k ≤ s.out.flatten.length) :
    ∃ iovno out, s.rembytes k = { s with iovno := iovno, out := out } ∧
      ({ s with iovno := iovno, out := out } : AxprtUnix φ).QueueOk ∧
      out.flatten = s.out.flatten.drop k ∧
      ({ s with iovno := iovno, out := out } : AxprtUnix φ).ends =
        (s.ends.filter (k < ·)).map (· - k) := by
  obtain ⟨hflat, hne, hcount, hle, hlen⟩ := remIovs_spec h.pieces hk
  generalize hr : remIovs k s.out = r at hflat hne hcount hle hlen
  obtain ⟨r, out⟩ := r
  dsimp only at hflat hne hcount hle hlen
  have htotal : s.iovno + r + out.length = s.iovno + s.out.length := by omega
  refine ⟨s.iovno + r, out, by rw [rembytes, hr], ⟨hne, h.sorted, ?_, ?_⟩, hflat, ?_⟩
  · intro p hp
    rw [htotal]
    exact h.bound p hp
  · intro hbroken p hp
    rw [htotal]
    exact h.behind hbroken p hp
  · simp only [ends, live, List.filter_map, List.map_map, List.filter_filter]
    have hmem : ∀ p ∈ s.syncpts, (s.iovno + r < p ↔ k < s.bytesTo p ∧ s.iovno < p) := by
      intro p hp
      have hbound := h.bound p hp
      have hiff := hle (p - s.iovno) (by omega)
      simp only [bytesTo]
      omega
    have hfilter : s.syncpts.filter (s.iovno + r < ·) =
        s.syncpts.filter fun p => ((k < ·) ∘ s.bytesTo) p && decide (s.iovno < p) := by
      apply List.filter_congr
      intro p hp
      simp [hmem p hp]
    rw [hfilter]
    apply List.map_congr_left
    intro p hp
    obtain ⟨hp, hcond⟩ := List.mem_filter.mp hp
    have hlt : s.iovno + r < p := (hmem p hp).mpr (by simpa using hcond)
    have hsub := hlen (p - s.iovno) (by omega)
    simp only [bytesTo, Function.comp]
    rw [← Nat.sub_sub, hsub]

theorem towrite_spec {lim : Option ℕ} {k : ℕ} (hlim : ∀ p ∈ s.live, ∃ l, lim = some l ∧ l ≤ p) :
    ((s.towrite lim).take k).length ≤ s.out.flatten.length ∧
      (s.towrite lim).take k = s.out.flatten.take ((s.towrite lim).take k).length ∧
      ∀ e ∈ s.ends, ((s.towrite lim).take k).length ≤ e := by
  obtain ⟨j, htowrite, hj⟩ : ∃ j, s.towrite lim = (s.out.take j).flatten ∧
      ∀ p ∈ s.live, j ≤ p - s.iovno := by
    cases lim with
    | none =>
      refine ⟨uioMaxiov, rfl, fun p hp => ?_⟩
      obtain ⟨l, hl, -⟩ := hlim p hp
      cases hl
    | some l =>
      refine ⟨min (l - s.iovno) uioMaxiov, rfl, fun p hp => ?_⟩
      obtain ⟨l', hl, hle⟩ := hlim p hp
      cases hl
      omega
  have hsplit : s.out.flatten = (s.out.take j).flatten ++ (s.out.drop j).flatten := by
    rw [← List.flatten_append, List.take_append_drop]
  rw [htowrite]
  refine ⟨?_, ?_, ?_⟩
  · rw [hsplit, List.length_append, List.length_take]
    omega
  · rw [hsplit, List.take_append_of_le_length (by rw [List.length_take]; omega), List.length_take,
      ← List.take_take, List.take_length]
  · intro e he
    obtain ⟨p, hp, rfl⟩ := List.mem_map.mp he
    have hle := length_flatten_take_le s.out (hj p hp)
    rw [List.length_take, bytesTo]
    omega

end AxprtUnix

def stream (is : List (Item φ)) : List Byte :=
  frames (fun (_ : Unit) i => i.bytes) (fun _ _ => ()) () is

def fdsOf (is : List (Item φ)) : List φ := is.filterMap Item.toFd

/-- How many markers the first `n` bytes of some items have whole. -/
def markers (is : List (Item φ)) (n : ℕ) : ℕ := marks Item.size Item.isFd is n

theorem Item.length_bytes (i : Item φ) : i.bytes.length = i.size := by
  cases i with
  | msg m => exact length_frame m
  | fd f => rfl

theorem Item.size_pos (i : Item φ) : 4 ≤ i.size := by
  cases i with
  | msg m => exact Nat.le_add_right 4 m.length
  | fd f => exact Nat.le_refl 4

theorem stream_cons (i : Item φ) (is : List (Item φ)) : stream (i :: is) = i.bytes ++ stream is :=
  rfl

theorem stream_append (is js : List (Item φ)) : stream (is ++ js) = stream is ++ stream js :=
  frames_append

theorem length_stream (is : List (Item φ)) : (stream is).length = (is.map Item.size).sum := by
  induction is with
  | nil => rfl
  | cons i is ih =>
    rw [stream_cons, List.length_append, ih, i.length_bytes, List.map_cons, List.sum_cons]

theorem length_fdsOf (is : List (Item φ)) : (fdsOf is).length = is.countP Item.isFd := by
  induction is with
  | nil => rfl
  | cons i is ih =>
    cases i with
    | msg m => exact ih
    | fd f =>
      have hcount : (Item.fd f :: is).countP Item.isFd = is.countP Item.isFd + 1 :=
        List.countP_cons_of_pos rfl
      rw [hcount, ← ih]
      rfl

theorem fdsOf_append (is js : List (Item φ)) : fdsOf (is ++ js) = fdsOf is ++ fdsOf js :=
  List.filterMap_append ..

theorem wireBytes_append (a b : List (Chunk φ)) : wireBytes (a ++ b) = wireBytes a ++ wireBytes b :=
  List.flatMap_append ..

theorem wireFds_append (a b : List (Chunk φ)) : wireFds (a ++ b) = wireFds a ++ wireFds b :=
  List.filterMap_append ..

theorem wireFds_cons (c : Chunk φ) (wire : List (Chunk φ)) :
    wireFds (c :: wire) = c.1.toList ++ wireFds wire := by
  obtain ⟨fd, b⟩ := c
  cases fd <;> rfl

theorem takeWire_spec {n : ℕ} {wire : List (Chunk φ)} (hn : n ≤ (wireBytes wire).length) :
    (takeWire n wire).2.1.length = n ∧
      (takeWire n wire).2.1 ++ wireBytes (takeWire n wire).2.2 = wireBytes wire ∧
      (takeWire n wire).1 ++ wireFds (takeWire n wire).2.2 = wireFds wire ∧
      ∀ before after, (takeWire n wire).2.2 = before ++ after →
        ∃ before' after', wire = before' ++ after' ∧
          n + (wireBytes before).length ≤ (wireBytes before').length ∧
          (wireFds before').length = (takeWire n wire).1.length + (wireFds before).length := by
  induction wire generalizing n with
  | nil =>
    obtain rfl : n = 0 := by simpa [wireBytes] using hn
    refine ⟨rfl, rfl, rfl, fun before after hsplit => ⟨[], [], rfl, ?_, ?_⟩⟩
    · obtain ⟨rfl, -⟩ := List.append_eq_nil_iff.mp hsplit.symm
      exact Nat.le_refl _
    · obtain ⟨rfl, -⟩ := List.append_eq_nil_iff.mp hsplit.symm
      rfl
  | cons c wire ih =>
    obtain ⟨fd, b⟩ := c
    have hbytes : wireBytes ((fd, b) :: wire) = b ++ wireBytes wire := rfl
    cases n with
    | zero =>
      refine ⟨rfl, rfl, rfl, fun before after hsplit => ⟨before, after, hsplit, ?_, ?_⟩⟩
      · rw [Nat.zero_add]
      · exact (Nat.zero_add _).symm
    | succ n =>
      rw [hbytes, List.length_append] at hn
      rw [takeWire]
      by_cases hb : b.length ≤ n + 1
      · rw [if_pos hb]
        obtain ⟨hlen, hrest, hfds, hlead⟩ := ih (n := n + 1 - b.length) (by omega)
        refine ⟨?_, ?_, ?_, fun before after hsplit => ?_⟩
        · rw [List.length_append, hlen]
          omega
        · rw [List.append_assoc, hrest, hbytes]
        · rw [List.append_assoc, hfds, wireFds_cons]
        · obtain ⟨before', after', rfl, hle, hcount⟩ := hlead before after hsplit
          refine ⟨(fd, b) :: before', after', rfl, ?_, ?_⟩
          · have hcons : wireBytes ((fd, b) :: before') = b ++ wireBytes before' := rfl
            rw [hcons, List.length_append]
            omega
          · rw [wireFds_cons, List.length_append, List.length_append, hcount, Nat.add_assoc]
      · rw [if_neg hb]
        refine ⟨?_, ?_, ?_, fun before after hsplit => ?_⟩
        · rw [List.length_take]
          omega
        · have hcons : wireBytes ((none, b.drop (n + 1)) :: wire) =
              b.drop (n + 1) ++ wireBytes wire := rfl
          rw [hcons, ← List.append_assoc, List.take_append_drop, hbytes]
        · rw [wireFds_cons, wireFds_cons]
          rfl
        · cases before with
          | nil =>
            refine ⟨[(fd, b)], wire, rfl, ?_, ?_⟩
            · have hone : wireBytes [(fd, b)] = b := List.append_nil b
              have hnil : wireBytes ([] : List (Chunk φ)) = [] := rfl
              rw [hone, hnil, List.length_nil]
              omega
            · rw [wireFds_cons, List.length_append]
          | cons c before =>
            obtain ⟨rfl, rfl⟩ := List.cons.inj hsplit
            refine ⟨(fd, b) :: before, after, rfl, ?_, ?_⟩
            · have hcons : wireBytes ((none, b.drop (n + 1)) :: before) =
                  b.drop (n + 1) ++ wireBytes before := rfl
              have hcons' : wireBytes ((fd, b) :: before) = b ++ wireBytes before := rfl
              rw [hcons, hcons', List.length_append, List.length_append, List.length_drop]
              omega
            · rw [wireFds_cons, wireFds_cons, List.length_append]
              rfl

namespace AxprtUnix

variable {s : AxprtUnix φ} {b : List Byte}

theorem getpkt_unfinished (hb : Unfinished s.pktsize b) : s.getpkt b = (false, b, s) := by
  simp only [getpkt]
  rcases hb with h4 | ⟨n, cp, hn, hcp, h31, rfl⟩
  · rw [getint_eq_none_iff.mpr h4]
  · simp only [getint_htonl, if_neg (header_ne_zero h31), checklen_frame h31 hn, if_pos hcp]

theorem getpkt_msg {m : List Byte} (hm : m.length ≤ s.pktsize) (h31 : m.length < 2 ^ 31) :
    s.getpkt (frame m ++ b) = (true, b, { s with got := s.got ++ [.pkt m] }) := by
  have hnot : ¬ (m ++ b).length < m.length := by simp
  simp only [getpkt, getint_frame, if_neg (header_ne_zero h31), checklen_frame h31 hm, if_neg hnot,
    List.drop_left, List.take_left]

theorem getpkt_fd {fd : φ} {fds : List φ} (hfds : s.fdrecvq = fd :: fds) :
    s.getpkt ([0, 0, 0, 0] ++ b) =
      (true, b, { s with fdrecvq := fds, got := s.got ++ [.recvfd (some fd)] }) := by
  simp [getpkt, getint, recvbreak, recvfd, hfds]

def Short (pktsize : ℕ) (is : List (Item φ)) : Prop :=
  ∀ m, Item.msg m ∈ is → m.length ≤ pktsize ∧ m.length < 2 ^ 31

theorem unfinished_of_item {pktsize : ℕ} {i : Item φ} {b' : List Byte} (hi : Short pktsize [i])
    (hb : b ++ b' = i.bytes) (hb' : b' ≠ []) : Unfinished pktsize b := by
  cases i with
  | msg m =>
    obtain ⟨hm, h31⟩ := hi m (List.mem_singleton_self _)
    exact unfinished_of_frame hm h31 hb hb'
  | fd f =>
    have hlen := congrArg List.length hb
    have hpos := List.length_pos_iff.mpr hb'
    rw [List.length_append, Item.length_bytes] at hlen
    have hsize : (Item.fd f).size = 4 := rfl
    exact Or.inl (by omega)

theorem getpktLoop_items {fuel : ℕ} {later : List Byte} {more : List φ} {todo : List (Item φ)}
    (hfuel : b.length < fuel) (htodo : Short s.pktsize todo) (hb : b ++ later = stream todo)
    (hfds : s.fdrecvq ++ more = fdsOf todo) (hlead : markers todo b.length ≤ s.fdrecvq.length) :
    ∃ seen rest todo' fds, getpktLoop fuel s b =
        some ({ s with fdrecvq := fds, got := s.got ++ seen.map Item.given }, rest) ∧
      todo = seen ++ todo' ∧ rest ++ later = stream todo' ∧ s.fdrecvq = fdsOf seen ++ fds ∧
      b.length = (seen.map Item.size).sum + rest.length ∧
      rest.length = leftOver (todo.map Item.size) b.length ∧
      ∀ i is, todo' = i :: is → rest.length < i.size := by
  induction todo generalizing fuel b s with
  | nil =>
    obtain ⟨rfl, rfl⟩ := List.append_eq_nil_iff.mp hb
    obtain ⟨fuel, rfl⟩ : ∃ k, fuel = k + 1 := ⟨fuel - 1, by omega⟩
    have hget := getpkt_unfinished (s := s) (Or.inl (by decide) : Unfinished s.pktsize [])
    refine ⟨[], [], [], s.fdrecvq, ?_, rfl, rfl, rfl, rfl, rfl, nofun⟩
    simp only [getpktLoop, hget, List.map_nil, List.append_nil]
  | cons i todo ih =>
    obtain ⟨fuel, rfl⟩ : ∃ k, fuel = k + 1 := ⟨fuel - 1, by omega⟩
    have hone : Short s.pktsize [i] := by
      intro m hm
      exact htodo m (List.mem_singleton.mp hm ▸ List.mem_cons_self ..)
    have hrest : Short s.pktsize todo := fun m hm => htodo m (List.mem_cons_of_mem _ hm)
    rcases frames_cut hb with ⟨hlt, b', hb', hpart⟩ | ⟨b', rfl, hlater⟩
    · rw [Item.length_bytes] at hlt
      have hget := getpkt_unfinished (unfinished_of_item hone hpart hb')
      refine ⟨[], b, i :: todo, s.fdrecvq, ?_, rfl, hb, rfl, ?_, ?_, ?_⟩
      · simp only [getpktLoop, hget, List.map_nil, List.append_nil]
      · simp
      · rw [List.map_cons, leftOver, if_neg (by omega)]
      · intro i' is hcons
        obtain ⟨rfl, rfl⟩ := List.cons.inj hcons
        exact hlt
    · rw [List.length_append, Item.length_bytes] at hfuel hlead
      have hsize := i.size_pos
      have hsub : i.size + b'.length - i.size = b'.length := Nat.add_sub_cancel_left ..
      rw [markers, marks, if_pos (Nat.le_add_right _ _), hsub] at hlead
      have hleft : leftOver ((i :: todo).map Item.size) (i.bytes ++ b').length =
          leftOver (todo.map Item.size) b'.length := by
        rw [List.length_append, Item.length_bytes, List.map_cons, leftOver,
          if_pos (Nat.le_add_right _ _), hsub]
      have hfuel' : b'.length < fuel := by omega
      cases i with
      | msg m =>
        obtain ⟨hm, h31⟩ := hone m (List.mem_singleton_self _)
        have hget := getpkt_msg (b := b') hm h31
        obtain ⟨seen, rest, todo', fds, hloop, rfl, hstream, hq, hlen, hover, hkept⟩ :=
          ih (s := { s with got := s.got ++ [.pkt m] }) hfuel' hrest
            hlater hfds (by
              simp only [Item.isFd, Bool.false_eq_true, if_false, Nat.zero_add] at hlead
              exact hlead)
        refine ⟨.msg m :: seen, rest, todo', fds, ?_, rfl, hstream, hq, ?_, ?_, hkept⟩
        · have hbytes : (Item.msg m : Item φ).bytes = frame m := rfl
          simp only [getpktLoop, hbytes, hget, hloop, List.map_cons, List.append_assoc,
            List.singleton_append, Item.given]
        · rw [List.length_append, Item.length_bytes, List.map_cons, List.sum_cons, hlen]
          omega
        · rw [hleft, hover]
      | fd f =>
        obtain ⟨fds', hq'⟩ : ∃ fds', s.fdrecvq = f :: fds' := by
          cases hq : s.fdrecvq with
          | nil => rw [hq] at hlead; simp [Item.isFd] at hlead
          | cons f' fds' =>
            rw [hq, List.cons_append] at hfds
            obtain ⟨rfl, -⟩ := List.cons.inj hfds
            exact ⟨fds', rfl⟩
        have hget := getpkt_fd (b := b') hq'
        rw [hq', List.cons_append] at hfds
        rw [hq', List.length_cons] at hlead
        obtain ⟨seen, rest, todo', fds, hloop, rfl, hstream, hq, hlen, hover, hkept⟩ :=
          ih (s := { s with fdrecvq := fds', got := s.got ++ [.recvfd (some f)] }) hfuel'
            hrest hlater (List.cons.inj hfds).2 (by
              simp only [Item.isFd, if_true] at hlead
              rw [markers]
              dsimp only
              omega)
        refine ⟨.fd f :: seen, rest, todo', fds, ?_, rfl, hstream, ?_, ?_, ?_, hkept⟩
        · have hbytes : (Item.fd f : Item φ).bytes = [0, 0, 0, 0] := rfl
          simp only [getpktLoop, hbytes, hget, hloop, List.map_cons, List.append_assoc,
            List.singleton_append, Item.given]
        · dsimp only at hq
          rw [hq', hq]
          rfl
        · rw [List.length_append, Item.length_bytes, List.map_cons, List.sum_cons, hlen]
          omega
        · rw [hleft, hover]

end AxprtUnix

end Sfslite.Arpc
