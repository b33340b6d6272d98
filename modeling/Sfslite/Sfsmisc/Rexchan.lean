import Mathlib.Data.List.AList
import Mathlib.Data.List.Count
import Mathlib.Data.List.Perm.Basic

/-!
The channels of a rex session, from `rexchan.C`. A channel is over when its last descriptor is gone
and the exit of the remote module was seen, in either order; in between it waits in a second table.
-/

namespace Sfslite.Sfsmisc.Rexchan

/-- A descriptor of a channel, with the directions of a `unixfd` that are at their end. -/
structure Rexfd where
  weof : Bool
  reof : Bool
  shutrdonexit : Bool
deriving DecidableEq

/-- The argument of `update_connstate`. A plain `rexfd` has both ends at once. -/
inductive How
  | rd
  | wr
  | rdwr
deriving DecidableEq

namespace Rexfd

def shut (d : Rexfd) : How → Rexfd
  | .rd => { d with reof := true }
  | .wr => { d with weof := true }
  | .rdwr => { d with weof := true, reof := true }

/-- A descriptor with both ends leaves its channel. -/
def isOver (d : Rexfd) : Bool := d.weof && d.reof

/-- The exit of the remote module is the end of this descriptor. -/
def overAtExit (d : Rexfd) : Bool := d.shutrdonexit && (d.shut .rd).isOver

end Rexfd

/-- A channel; `proxy` says whether `channelinit` has given it the connection and a number. -/
structure Rexchannel where
  vfds : List (Option Rexfd)
  fdc : ℤ
  proxy : Bool
  channo : UInt32
  gotExitCb : Bool

namespace Rexchannel

def fresh : Rexchannel :=
  { vfds := [], fdc := 0, proxy := false, channo := 0, gotExitCb := false }

def getFd (c : Rexchannel) (f : ℕ) : Option Rexfd := (c.vfds[f]?).join

def setFd (c : Rexchannel) (f : ℕ) (d : Option Rexfd) : Rexchannel :=
  { c with vfds := c.vfds.set f d }

def openFds (c : Rexchannel) : ℕ := c.vfds.countP Option.isSome

/-- The vector grows with null pointers up to the new descriptor. -/
def insertFd (c : Rexchannel) (f : ℕ) (d : Rexfd) : Rexchannel :=
  { c with
    vfds := (c.vfds ++ List.replicate (f + 1 - c.vfds.length) none).set f (some d)
    fdc := c.fdc + 1 }

/-- `f` is the one descriptor that is left, and this is its end. -/
def LastOut (c : Rexchannel) (f : ℕ) (how : How) : Prop :=
  c.openFds = 1 ∧ (c.getFd f).any fun d => (d.shut how).isOver

instance (c : Rexchannel) (f : ℕ) (how : How) : Decidable (c.LastOut f how) :=
  inferInstanceAs (Decidable (_ ∧ _))

/-- There are descriptors, and the exit of the remote module is the end of each of them. -/
def OutAtExit (c : Rexchannel) : Prop :=
  0 < c.openFds ∧ ∀ o ∈ c.vfds, o.all Rexfd.overAtExit

instance (c : Rexchannel) : Decidable c.OutAtExit := inferInstanceAs (Decidable (_ ∧ _))

variable {c : Rexchannel} {f : ℕ}

theorem lt_of_getFd {d : Rexfd} (h : c.getFd f = some d) :
    ∃ hf : f < c.vfds.length, c.vfds[f] = some d := by
  rw [getFd, Option.join_eq_some_iff] at h
  exact List.getElem?_eq_some_iff.mp h

theorem openFds_setFd_some {d d' : Rexfd} (h : c.getFd f = some d) :
    (c.setFd f (some d')).openFds = c.openFds := by
  obtain ⟨hf, hd⟩ := lt_of_getFd h
  have hpos : 0 < c.vfds.countP Option.isSome :=
    List.countP_pos_iff.mpr ⟨some d, hd ▸ List.getElem_mem hf, rfl⟩
  simp only [openFds, setFd, List.countP_set hf, hd, Option.isSome_some, if_true]
  omega

theorem openFds_setFd_none {d : Rexfd} (h : c.getFd f = some d) :
    (c.setFd f none).openFds + 1 = c.openFds := by
  obtain ⟨hf, hd⟩ := lt_of_getFd h
  have hpos : 0 < c.vfds.countP Option.isSome :=
    List.countP_pos_iff.mpr ⟨some d, hd ▸ List.getElem_mem hf, rfl⟩
  simp only [openFds, setFd, List.countP_set hf, hd, Option.isSome_some, if_true,
    Option.isSome_none, Bool.false_eq_true, if_false]
  omega

theorem openFds_insertFd {d : Rexfd} (h : c.getFd f = none) :
    (c.insertFd f d).openFds = c.openFds + 1 := by
  have hlen : f < (c.vfds ++ List.replicate (f + 1 - c.vfds.length)
      (none : Option Rexfd)).length := by
    simp only [List.length_append, List.length_replicate]
    omega
  have hnone : (c.vfds ++ List.replicate (f + 1 - c.vfds.length)
      (none : Option Rexfd))[f] = none := by
    rw [List.getElem_append]
    split_ifs with hf
    · rw [getFd, List.getElem?_eq_getElem hf] at h
      exact h
    · rw [List.getElem_replicate]
  simp only [openFds, insertFd, List.countP_set hlen, hnone, Option.isSome_none,
    Option.isSome_some, Bool.false_eq_true, if_false, if_true, List.countP_append,
    List.countP_replicate]
  omega

theorem getFd_eq_none_of_openFds (h : c.openFds = 0) (f : ℕ) : c.getFd f = none := by
  cases hd : c.getFd f with
  | none => rfl
  | some d =>
    have hpos := openFds_setFd_none hd
    omega

theorem getFd_setFd_ne {g : ℕ} {d : Option Rexfd} (h : f ≠ g) :
    (c.setFd f d).getFd g = c.getFd g := by
  simp only [getFd, setFd, List.getElem?_set_ne h]

theorem getFd_setFd_some {d d' : Rexfd} (h : c.getFd f = some d) :
    (c.setFd f (some d')).getFd f = some d' := by
  obtain ⟨hf, -⟩ := lt_of_getFd h
  simp only [getFd, setFd, List.getElem?_set_self hf, Option.join_some]

/-- Some descriptor stays when the remote module exits. -/
def Survives (c : Rexchannel) : Prop := ∃ f d, c.getFd f = some d ∧ d.overAtExit = false

theorem Survives.of_not_outAtExit (hpos : 0 < c.openFds) (h : ¬ c.OutAtExit) : c.Survives := by
  rw [OutAtExit, not_and] at h
  have hex := h hpos
  push Not at hex
  obtain ⟨o, ho, hall⟩ := hex
  obtain ⟨f, hf, hget⟩ := List.getElem_of_mem ho
  cases o with
  | none => exact absurd rfl hall
  | some d =>
    refine ⟨f, d, ?_, ?_⟩
    · rw [getFd, List.getElem?_eq_getElem hf, hget]
      rfl
    · rw [Option.all_some] at hall
      exact Bool.eq_false_iff.mpr hall

end Rexchannel

/-- `qhash<u_int32_t, ref<rexchannel> >`. -/
abbrev Table := AList fun _ : UInt32 => ℕ

def ids (t : Table) : List ℕ := t.entries.map Sigma.snd

theorem ids_erase {t : Table} {ch : UInt32} {i : ℕ} (h : t.lookup ch = some i) :
    (ids t).Perm (i :: ids (t.erase ch)) := by
  have hmem : ch ∈ t.entries.keys := AList.lookup_isSome.mp (by rw [h]; rfl)
  obtain ⟨j, front, rest, hfront, hsplit, herase⟩ := List.exists_of_kerase hmem
  have hj : i = j := by
    have hlook : t.entries.dlookup ch = some i := h
    rw [hsplit, List.dlookup_append, List.dlookup_eq_none.mpr hfront] at hlook
    simpa using hlook.symm
  have hids : ids (t.erase ch) = (front ++ rest).map Sigma.snd := congrArg _ herase
  rw [ids, hids, hsplit, hj]
  simp only [List.map_append, List.map_cons]
  exact List.perm_middle

theorem ids_insert {t : Table} {ch : UInt32} (i : ℕ) (h : t.lookup ch = none) :
    ids (t.insert ch i) = i :: ids t := by
  rw [ids, AList.entries_insert_of_notMem (AList.lookup_eq_none.mp h)]
  rfl

/-- The session. The channels made so far are numbered, `calls` are those whose `REX_MKCHANNEL`
has no reply, and `making` those within their `madechannel`. `downs` are the channels that were
counted down, `ended` how often `endcb` ran for the last of them, and `lost` how often for the
connection. The source's two counts are `int`s, which hold these numbers while fewer than `2 ^ 31`
channels are live or asked for. -/
structure Rexsession where
  chan : ℕ → Rexchannel
  born : ℕ
  calls : List ℕ
  making : ℕ
  channels : Table
  channelsPendingExit : Table
  cchan : ℤ
  channelspending : ℕ
  endcb : Bool
  failcb : Bool
  suspended : Bool
  downs : List ℕ
  ended : ℕ
  lost : ℕ

namespace Rexsession

def start (endcb failcb : Bool) : Rexsession :=
  { chan := fun _ => .fresh, born := 0, calls := [], making := 0, channels := ∅,
    channelsPendingExit := ∅, cchan := 0, channelspending := 0, endcb := endcb,
    failcb := failcb, suspended := false, downs := [], ended := 0, lost := 0 }

def setChan (s : Rexsession) (i : ℕ) (c : Rexchannel) : Rexsession :=
  { s with chan := Function.update s.chan i c }

/-- `if (!cchan && !channelspending) if (endcb) endcb ()`. -/
def checkEnd (s : Rexsession) : Rexsession :=
  if s.cchan = 0 ∧ s.channelspending = 0 ∧ s.endcb then { s with ended := s.ended + 1 } else s

/-- `--cchan` for the channel `i`, with the test after it. -/
def countDown (s : Rexsession) (i : ℕ) : Rexsession :=
  { s with cchan := s.cchan - 1, downs := i :: s.downs }.checkEnd

/-- Called by the channel `i`, which gives its number. -/
def removeChan (s : Rexsession) (i : ℕ) (channo : UInt32) : Rexsession :=
  match s.channels.lookup channo with
  | some j =>
    if (s.chan j).gotExitCb then
      { s with channels := s.channels.erase channo }.countDown i
    else
      { s with
        channelsPendingExit := s.channelsPendingExit.insert channo j
        channels := s.channels.erase channo }
  | none => s.countDown i

def removeChanPendingExit (s : Rexsession) (i : ℕ) (channo : UInt32) : Rexsession :=
  { s with channelsPendingExit := s.channelsPendingExit.erase channo }.countDown i

/-- `rexchannel::remove_fd`. -/
def removeFd (s : Rexsession) (i f : ℕ) : Rexsession :=
  let c := { (s.chan i).setFd f none with fdc := (s.chan i).fdc - 1 }
  if c.fdc = 0 then (s.setChan i c).removeChan i c.channo else s.setChan i c

/-- `unixfd::update_connstate`. A descriptor that has left its channel does nothing. -/
def updateConnstate (s : Rexsession) (i f : ℕ) (how : How) : Rexsession :=
  match (s.chan i).getFd f with
  | some d =>
    let s' := s.setChan i ((s.chan i).setFd f (some (d.shut how)))
    if (d.shut how).isOver then s'.removeFd i f else s'
  | none => s

/-- `unixfd::exited` of one descriptor. -/
def fdExited (i : ℕ) (s : Rexsession) (f : ℕ) : Rexsession :=
  match (s.chan i).getFd f with
  | some d => if d.shutrdonexit then s.updateConnstate i f .rd else s
  | none => s

/-- `rexchannel::exited`. -/
def exited (s : Rexsession) (i : ℕ) : Rexsession :=
  (List.range (s.chan i).vfds.length).foldl (fdExited i) s

def gotExit (s : Rexsession) (i : ℕ) : Rexsession :=
  s.setChan i { s.chan i with gotExitCb := true }

end Rexsession

/-- What can happen to a session. A reply of `REX_MKCHANNEL` carries the number of the channel, or
is an error; `made` is the end of `madechannel`, after the channel's own hook has run. `abort` of
the session is `setendcb` without a callback and then `shut` of the descriptors. -/
inductive Event
  | makechannel
  | madechannel (i : ℕ) (res : Option UInt32)
  | made
  | insertFd (i : ℕ) (fdn : ℤ) (shutrdonexit : Bool)
  | shut (i f : ℕ) (how : How)
  | exit (channo : UInt32)
  | setendcb (cb : Bool)
  | fail
  | resumed

open Rexsession in
/-- One event. It answers `none` where an assertion stops the program, where a descriptor is made
for a channel that has no connection, and where the event cannot happen. -/
def step (s : Rexsession) : Event → Option Rexsession
  | .makechannel =>
    some { s with
      chan := Function.update s.chan s.born .fresh
      born := s.born + 1
      calls := s.born :: s.calls
      channelspending := s.channelspending + 1 }
  | .madechannel i res =>
    if i ∈ s.calls ∧ 0 < s.channelspending then
      let s' := { s with
        calls := s.calls.erase i
        channelspending := s.channelspending - 1
        making := s.making + 1 }
      match res with
      | none => some (s'.setChan i { s.chan i with proxy := true, channo := 0 })
      | some channo =>
        some ({ s' with
          cchan := s.cchan + 1
          channels := s.channels.insert channo i }.setChan i
            { s.chan i with proxy := true, channo := channo })
    else none
  | .made =>
    if 0 < s.making then some { s with making := s.making - 1 }.checkEnd else none
  | .insertFd i fdn shutrdonexit =>
    if 0 ≤ fdn ∧ (s.chan i).proxy ∧ (s.chan i).getFd fdn.toNat = none then
      some (s.setChan i ((s.chan i).insertFd fdn.toNat ⟨false, false, shutrdonexit⟩))
    else none
  | .shut i f how => some (s.updateConnstate i f how)
  | .exit channo =>
    match s.channels.lookup channo, s.channelsPendingExit.lookup channo with
    | some i, _ => some ((s.gotExit i).exited i)
    | none, some i => some (((s.gotExit i).exited i).removeChanPendingExit i channo)
    | none, none => none
  | .setendcb cb => some { s with endcb := cb }
  | .fail =>
    if s.suspended then some s
    else some { s with
      suspended := true
      lost := if !s.failcb && s.endcb then s.lost + 1 else s.lost }
  | .resumed => some { s with suspended := false }

end Sfslite.Sfsmisc.Rexchan
