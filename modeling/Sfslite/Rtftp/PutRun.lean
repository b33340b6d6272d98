import Sfslite.Rtftp.Files

/-!
The invariant of the server under the condition, kept by every event: what the file of a
transfer holds while chunks come in, and after `RTFTP_OK`.
-/

namespace Sfslite.Rtftp

open Sfslite.Arpc Sfslite.Lib

variable {S : Sha1}

/-- The context has received the bytes `d`. -/
def Fed (S : Sha1) (ctx : S.Ctx) (d : List Byte) : Prop :=
  ∃ vs : List (List Byte), ctx = vs.foldl S.update S.init ∧ vs.flatten = d

theorem Fed.init (S : Sha1) : Fed S S.init [] := ⟨[], rfl, rfl⟩

theorem Fed.update {ctx : S.Ctx} {d : List Byte} (h : Fed S ctx d) (v : List Byte) :
    Fed S (S.update ctx v) (d ++ v) := by
  obtain ⟨vs, rfl, rfl⟩ := h
  exact ⟨vs ++ [v], by simp, by simp⟩

theorem Fed.final {ctx : S.Ctx} {d : List Byte} (h : Fed S ctx d) :
    (S.final ctx).2 = S.digest d := by
  obtain ⟨vs, rfl, rfl⟩ := h
  exact S.final_updates vs

/-- The file is the header of the footer and the bytes put, which the footer agrees with. -/
def Intact (S : Sha1) (fs : Store) (n : RtftpId) (p : Put) : Prop :=
  ∃ i footer, fs.dir n = some i ∧ p.footer = some footer ∧
    fs.data i = fileHeader n footer.hash footer.size ++ p.acked ∧
    p.acked.length = footer.size.toNat ∧ S.digest p.acked = footer.hash

/-- The transfer `f` in a table is the one of the record `p`. Until the first footer, and
while all data could be written, they stand behind the empty header. -/
structure Follows (fs : Store) (n : RtftpId) (p : Put) (f : File S) : Prop where
  mode : f.mode = .put
  file : f.file = n
  status : f.putStatus = p.status
  dir : fs.dir n = some f.fd.ino
  sz : f.sz = p.acked.length
  fresh : p.status = .incomplete → p.spoiled = false →
    Fed S f.ctx p.acked ∧ f.fd.pos = headerLen n + f.sz ∧
      fileHeader n Hash.zero 0 ++ p.acked <+: fs.data f.fd.ino

structure Good (s : Srv S) (n : RtftpId) (p : Put) : Prop where
  known : p.tid.1 < s.ncli
  issued : ∀ cli, s.clis p.tid.1 = some cli → p.tid.2 < cli.id
  openable : Openable n
  follows : ∀ f, s.transfer p.tid = some f → Follows s.fs n p f
  intact : p.status = .ok → Intact S s.fs n p

/-- The store keeps the file of the name `n`. -/
def Keeps (fs fs' : Store) (n : RtftpId) : Prop :=
  fs'.dir n = fs.dir n ∧ ∀ i, fs.dir n = some i → fs'.data i = fs.data i

theorem Keeps.refl (fs : Store) (n : RtftpId) : Keeps fs fs n := ⟨rfl, fun _ _ => rfl⟩

variable {n : RtftpId} {p : Put}

theorem Intact.keep {fs fs' : Store} (h : Intact S fs n p)
    (hkeep : Keeps fs fs' n) : Intact S fs' n p := by
  obtain ⟨i, footer, hdir, hfooter, hdata, hrest⟩ := h
  exact ⟨i, footer, hkeep.1.trans hdir, hfooter, (hkeep.2 i hdir).trans hdata, hrest⟩

theorem Follows.keep {fs fs' : Store} {f : File S}
    (h : Follows fs n p f) (hkeep : Keeps fs fs' n) : Follows fs' n p f where
  mode := h.mode
  file := h.file
  status := h.status
  dir := hkeep.1.trans h.dir
  sz := h.sz
  fresh hs hp := by
    obtain ⟨hfed, hpos, hdata⟩ := h.fresh hs hp
    exact ⟨hfed, hpos, by rwa [hkeep.2 _ h.dir]⟩

theorem Wrote.keeps {fs fs' : Store} {fd fd' : Fd} {m : RtftpId} (h : Wrote fs fs' fd fd')
    (hdir : fs.dir n = some fd.ino) (hne : m ≠ n) : Keeps fs fs' m := by
  refine ⟨congrFun h.dir m, fun i hi => h.others i ?_⟩
  rintro rfl
  exact hne (fs.inj m n _ hi hdir)

/-- How an open file was opened follows from what it is for. -/
structure Opened (f : File S) : Prop where
  wr : f.fd.wr = true ↔ f.mode = .put
  start : f.mode = .put → f.offset = 0 ∧ f.headerOffset = 0

structure Inv (w : World S) : Prop where
  live : ∀ cid cli, w.srv.clis cid = some cli →
    cid < w.srv.ncli ∧ ∀ i, cli.id ≤ i → cli.tab i = none
  opened : ∀ tid f, w.srv.transfer tid = some f → Opened f
  puts : ∀ tid f, w.srv.transfer tid = some f → f.mode = .put →
    f.putStatus = .ok ∨ ∃ p, w.last f.file = some p ∧ p.tid = tid
  good : ∀ n p, w.last n = some p → Good w.srv n p

theorem Inv.init (S : Sha1) (fs : Store) : Inv (World.init S fs) where
  live := by simp [World.init]
  opened := by simp [World.init, Srv.transfer]
  puts := by simp [World.init, Srv.transfer]
  good := by simp [World.init]

variable {tid : ℕ × ℕ}

namespace Srv

variable (s : Srv S) (fs : Store) {cid c : ℕ}

@[simp] theorem clis_setCli_self (cli : Option (Cli S)) : (s.setCli fs cid cli).clis cid = cli :=
  Function.update_self ..

theorem clis_setCli_of_ne (cli : Option (Cli S)) (h : c ≠ cid) :
    (s.setCli fs cid cli).clis c = s.clis c :=
  Function.update_of_ne h ..

theorem transfer_of_cli {s : Srv S} {cli : Cli S} (h : s.clis tid.1 = some cli) :
    s.transfer tid = cli.tab tid.2 := by
  simp [transfer, h]

theorem transfer_setCli_self (cli : Cli S) (i : ℕ) :
    (s.setCli fs cid (some cli)).transfer (cid, i) = cli.tab i :=
  transfer_of_cli (clis_setCli_self s fs _)

theorem transfer_setCli_of_ne (cli : Option (Cli S)) (h : tid.1 ≠ cid) :
    (s.setCli fs cid cli).transfer tid = s.transfer tid := by
  simp only [transfer, clis_setCli_of_ne s fs cli h]

end Srv

namespace Cli

variable (cli : Cli S) (f : File S) {i id : ℕ}

@[simp] theorem tab_setFile_self : (cli.setFile id f).tab id = some f := Function.update_self ..

theorem tab_setFile_of_ne (h : i ≠ id) : (cli.setFile id f).tab i = cli.tab i :=
  Function.update_of_ne h ..

@[simp] theorem tab_addFile_self : (cli.addFile f).tab cli.id = some { f with id := cli.id } :=
  Function.update_self ..

theorem tab_addFile_of_ne (h : i ≠ cli.id) : (cli.addFile f).tab i = cli.tab i :=
  Function.update_of_ne h ..

end Cli

section Frame

variable {w : World S} {cid : ℕ} {cli cli' : Cli S} {fs' : Store} {last' : RtftpId → Option Put}

theorem Good.frame {s : Srv S} (h : Good s n p)
    (hcli : s.clis cid = some cli) (hid : cli.id ≤ cli'.id)
    (htid : p.tid.1 = cid → cli'.tab p.tid.2 = cli.tab p.tid.2 ∨ cli'.tab p.tid.2 = none)
    (hkeep : Keeps s.fs fs' n) : Good (s.setCli fs' cid (some cli')) n p := by
  obtain ⟨⟨c, i⟩, acked, status, footer, spoiled⟩ := p
  by_cases hcid : c = cid
  · subst hcid
    refine ⟨h.known, ?_, h.openable, ?_, fun hok => (h.intact hok).keep hkeep⟩
    · intro cl hcl
      obtain rfl := Option.some.inj ((Srv.clis_setCli_self ..).symm.trans hcl)
      exact Nat.lt_of_lt_of_le (h.issued cli hcli) hid
    · intro f hf
      rw [Srv.transfer_setCli_self] at hf
      obtain hsame | hnone := htid rfl
      · refine (h.follows f ?_).keep hkeep
        rw [Srv.transfer_of_cli hcli, ← hsame, hf]
      · exact absurd (hnone.symm.trans hf) (by simp)
  · refine ⟨h.known, ?_, h.openable, ?_, fun hok => (h.intact hok).keep hkeep⟩
    · intro cl hcl
      rw [Srv.clis_setCli_of_ne _ _ _ hcid] at hcl
      exact h.issued cl hcl
    · intro f hf
      rw [Srv.transfer_setCli_of_ne _ _ _ hcid] at hf
      exact (h.follows f hf).keep hkeep

theorem Inv.set (h : Inv w) (hcli : w.srv.clis cid = some cli)
    (hfree : ∀ i, cli'.id ≤ i → cli'.tab i = none) (hopened : ∀ i f, cli'.tab i = some f → Opened f)
    (hputs : ∀ i f, cli'.tab i = some f → f.mode = .put →
      f.putStatus = .ok ∨ ∃ p, last' f.file = some p ∧ p.tid = (cid, i))
    (hother : ∀ tid f p, tid.1 ≠ cid → w.srv.transfer tid = some f → f.mode = .put →
      f.putStatus ≠ .ok → w.last f.file = some p → p.tid = tid → last' f.file = some p)
    (hgood : ∀ n p, last' n = some p → Good (w.srv.setCli fs' cid (some cli')) n p) :
    Inv ⟨w.srv.setCli fs' cid (some cli'), last'⟩ where
  live c cl hc := by
    by_cases hcid : c = cid
    · subst hcid
      obtain rfl := Option.some.inj ((Srv.clis_setCli_self ..).symm.trans hc)
      exact ⟨(h.live c cli hcli).1, hfree⟩
    · rw [Srv.clis_setCli_of_ne _ _ _ hcid] at hc
      exact h.live c cl hc
  opened tid f hf := by
    obtain ⟨c, i⟩ := tid
    by_cases hcid : c = cid
    · subst hcid
      rw [Srv.transfer_setCli_self] at hf
      exact hopened i f hf
    · rw [Srv.transfer_setCli_of_ne _ _ _ hcid] at hf
      exact h.opened _ f hf
  puts tid f hf hmode := by
    obtain ⟨c, i⟩ := tid
    by_cases hcid : c = cid
    · subst hcid
      rw [Srv.transfer_setCli_self] at hf
      exact hputs i f hf hmode
    · rw [Srv.transfer_setCli_of_ne _ _ _ hcid] at hf
      by_cases hok : f.putStatus = .ok
      · exact .inl hok
      · obtain hok' | ⟨p, hp, htid⟩ := h.puts _ f hf hmode
        · exact absurd hok' hok
        · exact .inr ⟨p, hother _ f p hcid hf hmode hok hp htid, htid⟩
  good := hgood

theorem Inv.read (h : Inv w) (hcli : w.srv.clis cid = some cli) (hid : cli.id ≤ cli'.id)
    (hfree : ∀ i, cli'.id ≤ i → cli'.tab i = none)
    (htab : ∀ i f, cli'.tab i = some f → cli.tab i = some f ∨
      f.mode = .get ∧ f.fd.wr = false ∧ ∀ f₀, cli.tab i = some f₀ → f₀.mode = .get)
    (hnew : ∀ i, cli.tab i = none → i < cli.id → cli'.tab i = none) :
    Inv ⟨w.srv.setCli w.srv.fs cid (some cli'), w.last⟩ := by
  have hold : ∀ i, w.srv.transfer (cid, i) = cli.tab i := fun i => Srv.transfer_of_cli hcli
  refine h.set hcli hfree ?_ ?_ (fun _ _ _ _ _ _ _ hp _ => hp) ?_
  · intro i f hf
    obtain hsame | ⟨hget, hwr, -⟩ := htab i f hf
    · exact h.opened (cid, i) f (by rw [hold, hsame])
    · exact ⟨by simp [hget, hwr], by simp [hget]⟩
  · intro i f hf hmode
    obtain hsame | ⟨hget, -⟩ := htab i f hf
    · exact h.puts (cid, i) f (by rw [hold, hsame]) hmode
    · rw [hget] at hmode
      cases hmode
  · intro n p hp
    have hgood := h.good n p hp
    refine hgood.frame hcli hid (fun hcid => ?_) (.refl _ _)
    have hlt : p.tid.2 < cli.id := hgood.issued cli (by rw [hcid]; exact hcli)
    cases hnow : cli'.tab p.tid.2 with
    | none => exact .inr rfl
    | some f =>
      refine .inl ?_
      obtain hsame | ⟨-, -, hget⟩ := htab _ f hnow
      · exact hsame.symm
      · cases hbefore : cli.tab p.tid.2 with
        | none => exact absurd ((hnew _ hbefore hlt).symm.trans hnow) (by simp)
        | some f₀ =>
          have hclis : w.srv.clis p.tid.1 = some cli := by rw [hcid]; exact hcli
          have hfollows := hgood.follows f₀ ((Srv.transfer_of_cli hclis).trans hbefore)
          exact absurd (hfollows.mode.symm.trans (hget f₀ hbefore)) (by simp)

theorem Inv.write (h : Inv w) (hcli : w.srv.clis cid = some cli) {id : ℕ} {f f' : File S}
    {g : Put → Put} (hf : cli.tab id = some f) (hlast : w.last f.file = some p)
    (htid : p.tid = (cid, id)) (hwrote : Wrote w.srv.fs fs' f.fd f'.fd)
    (hstart : f'.offset = f.offset ∧ f'.headerOffset = f.headerOffset)
    (hg : (g p).tid = p.tid) (hfollows : Follows fs' f.file (g p) f')
    (hintact : (g p).status = .ok → Intact S fs' f.file (g p)) :
    Inv ⟨w.srv.setCli fs' cid (some (cli.setFile id f')), World.onPut w.last (cid, id) g⟩ := by
  have hcur : w.srv.transfer (cid, id) = some f := (Srv.transfer_of_cli hcli).trans hf
  have hgood := h.good _ p hlast
  have hold : Follows w.srv.fs f.file p f := hgood.follows f (by rw [htid, hcur])
  have hlt : id < cli.id := by
    have hlt := hgood.issued cli (by rw [htid]; exact hcli)
    rwa [htid] at hlt
  have htab : ∀ i, i ≠ id → (cli.setFile id f').tab i = cli.tab i := fun i hi =>
    cli.tab_setFile_of_ne f' hi
  have hself : (cli.setFile id f').tab id = some f' := cli.tab_setFile_self f'
  have hnames : ∀ m q, w.last m = some q → q.tid = (cid, id) → m = f.file := by
    intro m q hq hqtid
    exact ((h.good m q hq).follows f (by rw [hqtid, hcur])).file.symm
  have hothers : ∀ m q, m ≠ f.file → w.last m = some q →
      World.onPut w.last (cid, id) g m = some q := by
    intro m q hm hq
    rw [World.onPut, hq, Option.map_some, if_neg (fun hqtid => hm (hnames m q hq hqtid))]
  have hown : World.onPut w.last (cid, id) g f.file = some (g p) := by
    rw [World.onPut, hlast, Option.map_some, if_pos htid]
  refine h.set hcli ?_ ?_ ?_ ?_ ?_
  · intro i hi
    have hi : cli.id ≤ i := hi
    rw [htab i (by omega)]
    exact (h.live cid cli hcli).2 i hi
  · intro i f₁ hf₁
    by_cases hi : i = id
    · subst hi
      obtain rfl := Option.some.inj (hself.symm.trans hf₁)
      have hopened := h.opened _ f hcur
      exact ⟨by rw [hwrote.wr, hopened.wr, hold.mode, hfollows.mode], fun _ =>
        ⟨hstart.1.trans (hopened.start hold.mode).1, hstart.2.trans (hopened.start hold.mode).2⟩⟩
    · rw [htab i hi] at hf₁
      exact h.opened (cid, i) f₁ ((Srv.transfer_of_cli hcli).trans hf₁)
  · intro i f₁ hf₁ hmode
    by_cases hi : i = id
    · subst hi
      obtain rfl := Option.some.inj (hself.symm.trans hf₁)
      exact .inr ⟨g p, by rw [hfollows.file, hown], hg.trans htid⟩
    · rw [htab i hi] at hf₁
      obtain hok | ⟨q, hq, hqtid⟩ :=
        h.puts (cid, i) f₁ ((Srv.transfer_of_cli hcli).trans hf₁) hmode
      · exact .inl hok
      · refine .inr ⟨q, hothers _ q ?_ hq, hqtid⟩
        intro heq
        rw [heq, hlast] at hq
        obtain rfl := Option.some.inj hq
        exact hi (congrArg Prod.snd (hqtid.symm.trans htid))
  · intro tid f₁ q hcid hf₁ _ _ hq hqtid
    refine hothers _ q ?_ hq
    intro heq
    rw [heq, hlast] at hq
    obtain rfl := Option.some.inj hq
    exact hcid (congrArg Prod.fst (hqtid.symm.trans htid))
  · intro m q hq
    by_cases hm : m = f.file
    · subst hm
      obtain rfl := Option.some.inj (hown.symm.trans hq)
      refine ⟨by rw [hg]; exact hgood.known, ?_, hgood.openable, ?_, hintact⟩
      · intro cl hcl
        rw [hg, htid] at hcl ⊢
        obtain rfl := Option.some.inj ((Srv.clis_setCli_self ..).symm.trans hcl)
        exact hlt
      · intro f₁ hf₁
        rw [hg, htid, Srv.transfer_setCli_self, hself] at hf₁
        obtain rfl := Option.some.inj hf₁
        exact hfollows
    · cases hbefore : w.last m with
      | none => simp [World.onPut, hbefore] at hq
      | some q₀ =>
        obtain rfl := Option.some.inj ((hothers m q₀ hm hbefore).symm.trans hq)
        refine (h.good m q₀ hbefore).frame hcli (Nat.le_refl _) (fun hcid => .inl ?_)
          (hwrote.keeps hold.dir hm)
        refine htab _ fun hi => hm (hnames m q₀ hbefore ?_)
        rw [← hcid, ← hi]

theorem Inv.complete (h : Inv w) {f : File S}
    (hone : ∀ p, w.last n = some p → p.status = .ok ∨ w.srv.transfer p.tid = none)
    (hf : w.srv.transfer tid = some f) (hmode : f.mode = .put) (hfile : f.file = n) :
    f.putStatus = .ok := by
  obtain hok | ⟨p, hp, rfl⟩ := h.puts tid f hf hmode
  · exact hok
  · rw [hfile] at hp
    obtain hok | hgone := hone p hp
    · rw [((h.good n p hp).follows f hf).status, hok]
    · exact absurd (hgone.symm.trans hf) (by simp)

theorem Inv.start (h : Inv w) (hcli : w.srv.clis cid = some cli) {f : File S}
    (hone : ∀ p, w.last n = some p → p.status = .ok ∨ w.srv.transfer p.tid = none)
    (hkeep : ∀ m, m ≠ n → Keeps w.srv.fs fs' m) (hopenable : Openable n)
    (hopened : Opened { f with id := cli.id })
    (hfollows : Follows fs' n (Put.new (cid, cli.id)) { f with id := cli.id }) :
    Inv ⟨w.srv.setCli fs' cid (some (cli.addFile f)),
      Function.update w.last n (some (Put.new (cid, cli.id)))⟩ := by
  have htab : ∀ i, i ≠ cli.id → (cli.addFile f).tab i = cli.tab i := fun i hi =>
    cli.tab_addFile_of_ne f hi
  have hself : (cli.addFile f).tab cli.id = some { f with id := cli.id } := cli.tab_addFile_self f
  have hnew : Function.update w.last n (some (Put.new (cid, cli.id))) n =
      some (Put.new (cid, cli.id)) := Function.update_self ..
  have hothers : ∀ m, m ≠ n →
      Function.update w.last n (some (Put.new (cid, cli.id))) m = w.last m := fun m hm =>
    Function.update_of_ne hm ..
  refine h.set hcli ?_ ?_ ?_ ?_ ?_
  · intro i hi
    have hi : cli.id + 1 ≤ i := hi
    rw [htab i (by omega)]
    exact (h.live cid cli hcli).2 i (by omega)
  · intro i f₁ hf₁
    by_cases hi : i = cli.id
    · subst hi
      obtain rfl := Option.some.inj (hself.symm.trans hf₁)
      exact hopened
    · rw [htab i hi] at hf₁
      exact h.opened (cid, i) f₁ ((Srv.transfer_of_cli hcli).trans hf₁)
  · intro i f₁ hf₁ hmode
    by_cases hi : i = cli.id
    · subst hi
      obtain rfl := Option.some.inj (hself.symm.trans hf₁)
      exact .inr ⟨_, by rw [hfollows.file, hnew], rfl⟩
    · rw [htab i hi] at hf₁
      have hbefore : w.srv.transfer (cid, i) = some f₁ := (Srv.transfer_of_cli hcli).trans hf₁
      by_cases hfile : f₁.file = n
      · exact .inl (h.complete hone hbefore hmode hfile)
      · rw [hothers _ hfile]
        exact h.puts (cid, i) f₁ hbefore hmode
  · intro tid f₁ q _ hf₁ hmode hstatus hq hqtid
    by_cases hfile : f₁.file = n
    · exact absurd (h.complete hone hf₁ hmode hfile) hstatus
    · rwa [hothers _ hfile]
  · intro m q hq
    by_cases hm : m = n
    · subst hm
      obtain rfl := Option.some.inj (hnew.symm.trans hq)
      refine ⟨(h.live cid cli hcli).1, ?_, hopenable, ?_, by simp [Put.new]⟩
      · intro cl hcl
        obtain rfl := Option.some.inj ((Srv.clis_setCli_self ..).symm.trans hcl)
        exact Nat.lt_succ_self _
      · intro f₁ hf₁
        obtain rfl := Option.some.inj
          (hself.symm.trans ((Srv.transfer_setCli_self ..).symm.trans hf₁))
        exact hfollows
    · rw [hothers m hm] at hq
      have hgood := h.good m q hq
      refine hgood.frame hcli (Nat.le_succ _) (fun hcid => .inl (htab _ ?_)) (hkeep m hm)
      exact Nat.ne_of_lt (hgood.issued cli (by rw [hcid]; exact hcli))

theorem Inv.fail (h : Inv w) (hcli : w.srv.clis cid = some cli)
    (hone : ∀ p, w.last n = some p → p.status = .ok ∨ w.srv.transfer p.tid = none)
    (hkeep : ∀ m, m ≠ n → Keeps w.srv.fs fs' m) :
    Inv ⟨w.srv.setCli fs' cid (some cli), Function.update w.last n none⟩ := by
  have hothers : ∀ m, m ≠ n → Function.update w.last n none m = w.last m := fun m hm =>
    Function.update_of_ne hm ..
  refine h.set hcli (h.live cid cli hcli).2 ?_ ?_ ?_ ?_
  · exact fun i f hf => h.opened (cid, i) f ((Srv.transfer_of_cli hcli).trans hf)
  · intro i f hf hmode
    have hbefore : w.srv.transfer (cid, i) = some f := (Srv.transfer_of_cli hcli).trans hf
    by_cases hfile : f.file = n
    · exact .inl (h.complete hone hbefore hmode hfile)
    · rw [hothers _ hfile]
      exact h.puts (cid, i) f hbefore hmode
  · intro tid f q _ hf hmode hstatus hq hqtid
    by_cases hfile : f.file = n
    · exact absurd (h.complete hone hf hmode hfile) hstatus
    · rwa [hothers _ hfile]
  · intro m q hq
    by_cases hm : m = n
    · simp [hm] at hq
    · rw [hothers m hm] at hq
      exact (h.good m q hq).frame hcli (Nat.le_refl _) (fun _ => .inl rfl) (hkeep m hm)

end Frame

section Events

variable {w : World S} {cid : ℕ} {cli cli' : Cli S} {fs' : Store} {io : Io}

theorem Inv.newcli (h : Inv w) : Inv ⟨w.srv.newcli, w.last⟩ := by
  have hself : w.srv.newcli.clis w.srv.ncli = some (Cli.new S) := Function.update_self ..
  have hclis : ∀ c, c ≠ w.srv.ncli → w.srv.newcli.clis c = w.srv.clis c := fun c hc =>
    Function.update_of_ne hc ..
  have hfresh : w.srv.clis w.srv.ncli = none := by
    cases hc : w.srv.clis w.srv.ncli with
    | none => rfl
    | some cl => exact absurd (h.live _ cl hc).1 (Nat.lt_irrefl _)
  have htransfer : ∀ tid, w.srv.newcli.transfer tid = w.srv.transfer tid := by
    intro tid
    by_cases hc : tid.1 = w.srv.ncli
    · simp [Srv.transfer, hc, hself, hfresh, Cli.new]
    · simp [Srv.transfer, hclis _ hc]
  refine ⟨?_, ?_, ?_, ?_⟩
  · intro c cl hcl
    by_cases hc : c = w.srv.ncli
    · subst hc
      obtain rfl := Option.some.inj (hself.symm.trans hcl)
      exact ⟨Nat.lt_succ_self _, fun _ _ => rfl⟩
    · obtain ⟨hlt, hfree⟩ := h.live c cl ((hclis c hc).symm.trans hcl)
      exact ⟨Nat.lt_succ_of_lt hlt, hfree⟩
  · intro tid f hf
    exact h.opened tid f ((htransfer tid).symm.trans hf)
  · intro tid f hf
    exact h.puts tid f ((htransfer tid).symm.trans hf)
  · intro n p hp
    have hgood := h.good n p hp
    refine ⟨Nat.lt_succ_of_lt hgood.known, ?_, hgood.openable, ?_, hgood.intact⟩
    · intro cl hcl
      exact hgood.issued cl ((hclis _ (Nat.ne_of_lt hgood.known)).symm.trans hcl)
    · intro f hf
      exact hgood.follows f ((htransfer _).symm.trans hf)

theorem Cli.cleanFiles_spec (cli : Cli S) (fs : Store) (io : Io) :
    (cli.cleanFiles fs io).data = fs.data ∧
    ∀ n, (cli.cleanFiles fs io).dir n = fs.dir n ∨
      ∃ i f, cli.tab i = some f ∧ f.mode = .put ∧ f.putStatus ≠ .ok ∧ f.file = n := by
  unfold cleanFiles
  generalize List.range cli.id = l
  induction l generalizing fs with
  | nil => exact ⟨rfl, fun _ => .inl rfl⟩
  | cons i l ih =>
    rw [List.foldl_cons]
    cases hf : cli.tab i with
    | none => exact ih fs
    | some f =>
      dsimp only
      obtain ⟨hdata, hdir⟩ := ih (f.clean fs io)
      by_cases hclean : f.mode = .put ∧ f.putStatus ≠ .ok ∧ io.unlinkOk f.file
      · have heq : f.clean fs io = fs.unlink f.file := if_pos hclean
        rw [heq] at hdata hdir ⊢
        refine ⟨hdata, fun n => ?_⟩
        obtain hkept | hgone := hdir n
        · by_cases hn : n = f.file
          · exact .inr ⟨i, f, hf, hclean.1, hclean.2.1, hn.symm⟩
          · exact .inl (hkept.trans (FileStore.dir_unlink_of_ne fs hn))
        · exact .inr hgone
      · have heq : f.clean fs io = fs := if_neg hclean
        rw [heq] at hdata hdir ⊢
        exact ⟨hdata, hdir⟩

theorem Inv.hangup_keeps (h : Inv w) (hcli : w.srv.clis cid = some cli) (io : Io)
    (hp : w.last n = some p) (hcase : p.tid.1 ≠ cid ∨ p.status = .ok) :
    Keeps w.srv.fs (cli.cleanFiles w.srv.fs io) n := by
  obtain ⟨hdata, hdir⟩ := cli.cleanFiles_spec w.srv.fs io
  refine ⟨?_, fun i _ => congrFun hdata i⟩
  obtain hkept | ⟨i, f, hf, hmode, hstatus, rfl⟩ := hdir n
  · exact hkept
  · have hcur : w.srv.transfer (cid, i) = some f := (Srv.transfer_of_cli hcli).trans hf
    obtain hok | ⟨q, hq, hqtid⟩ := h.puts (cid, i) f hcur hmode
    · exact absurd hok hstatus
    · obtain rfl := Option.some.inj (hp.symm.trans hq)
      have hfollows := (h.good _ p hp).follows f (by rw [hqtid, hcur])
      obtain hne | hok := hcase
      · exact absurd (congrArg Prod.fst hqtid) hne
      · exact absurd (hfollows.status.trans hok) hstatus

theorem Inv.hangup (h : Inv w) (hcli : w.srv.clis cid = some cli) (io : Io) :
    Inv ⟨w.srv.setCli (cli.cleanFiles w.srv.fs io) cid none, w.last⟩ := by
  have htransfer : ∀ tid f, (w.srv.setCli (cli.cleanFiles w.srv.fs io) cid none).transfer tid =
      some f → tid.1 ≠ cid ∧ w.srv.transfer tid = some f := by
    intro tid f hf
    by_cases hc : tid.1 = cid
    · simp [Srv.transfer, hc] at hf
    · rw [Srv.transfer_setCli_of_ne _ _ _ hc] at hf
      exact ⟨hc, hf⟩
  refine ⟨?_, ?_, ?_, ?_⟩
  · intro c cl hc
    by_cases hcid : c = cid
    · simp [hcid] at hc
    · rw [Srv.clis_setCli_of_ne _ _ _ hcid] at hc
      exact h.live c cl hc
  · exact fun tid f hf => h.opened tid f (htransfer tid f hf).2
  · exact fun tid f hf => h.puts tid f (htransfer tid f hf).2
  · intro n p hp
    have hgood := h.good n p hp
    refine ⟨hgood.known, ?_, hgood.openable, ?_, ?_⟩
    · intro cl hc
      by_cases hcid : p.tid.1 = cid
      · simp [hcid] at hc
      · rw [Srv.clis_setCli_of_ne _ _ _ hcid] at hc
        exact hgood.issued cl hc
    · intro f hf
      obtain ⟨hcid, hbefore⟩ := htransfer _ f hf
      exact (hgood.follows f hbefore).keep (h.hangup_keeps hcli io hp (.inl hcid))
    · intro hok
      exact (hgood.intact hok).keep (h.hangup_keeps hcli io hp (.inr hok))

theorem openFile_get_wr {fs fs₁ : Store} {fd : Fd}
    (h : openFile fs n false io = some (some (fs₁, fd))) : fd.wr = false := by
  unfold openFile at h
  split at h
  · simp at h
  · simp only [Bool.false_eq_true, if_false] at h
    split_ifs at h
    · exact absurd h (by simp)
    · split at h
      · simp at h
      · obtain ⟨-, rfl⟩ := by simpa using h
        rfl

theorem Fd.wr_read {fd fd' : Fd} {fs : Store} {rc : IoRc} {len : ℕ} {r : Option (List Byte)}
    (h : fd.read fs rc len = (fd', r)) : fd'.wr = fd.wr := by
  unfold Fd.read at h
  split at h
  · obtain ⟨rfl, rfl⟩ := by simpa using h
    rfl
  · split at h <;>
    · obtain ⟨rfl, rfl⟩ := by simpa using h
      rfl

namespace File

variable {f f' : File S} {fs : Store}

theorem readHeader_keeps (h : f.readHeader fs io = some f') :
    f'.mode = f.mode ∧ f'.fd.wr = f.fd.wr := by
  unfold readHeader at h
  split at h
  · cases h
  · next fd₁ v hfirst =>
      dsimp only at h
      split at h
      · cases h
      · split at h
        · cases h
        · next fd₂ buf hsecond =>
            split at h
            · cases h
            · split at h
              · cases h
              · split at h
                · cases h
                · obtain rfl := Option.some.inj h
                  exact ⟨rfl, (Fd.wr_read hsecond).trans (Fd.wr_read hfirst)⟩

theorem seekChunk_keeps {o : ℕ} {ok : Bool} (h : f.seekChunk io o = (f', ok)) :
    f'.mode = f.mode ∧ f'.fd.wr = f.fd.wr ∧ (o = f.offset → f' = f) := by
  unfold seekChunk at h
  split at h
  · obtain ⟨rfl, rfl⟩ := by simpa using h
    exact ⟨rfl, rfl, fun _ => rfl⟩
  · next hne =>
      split at h <;>
      · obtain ⟨rfl, -⟩ := Prod.mk.inj h
        exact ⟨rfl, rfl, fun heq => absurd heq hne⟩

theorem readChunk_keeps {chnk : ChunkId} {res : Get2Res} (hopened : Opened f)
    (h : f.readChunk fs io chnk = some (f', res)) :
    f'.mode = f.mode ∧ f'.fd.wr = f.fd.wr ∧ (f.mode = .put → chnk.offset = 0 → f' = f) := by
  unfold readChunk at h
  split at h
  · cases h
  · rcases hseek : f.seekChunk io (chnk.offset.toNat + f.headerOffset) with ⟨f₁, ok⟩
    obtain ⟨hmode, hwr, hsame⟩ := seekChunk_keeps hseek
    have hput : f.mode = .put → chnk.offset = 0 → f₁ = f := by
      intro hput hzero
      obtain ⟨hoff, hhoff⟩ := hopened.start hput
      exact hsame (by simp [hzero, hoff, hhoff])
    rw [hseek] at h
    cases ok with
    | false =>
      obtain ⟨rfl, rfl⟩ := by simpa using h
      exact ⟨hmode, hwr, hput⟩
    | true =>
      dsimp only at h
      rcases hread : f₁.fd.read fs io.rw₁ chnk.size.toNat with ⟨fd₁, r⟩
      have hwr₁ := (Fd.wr_read hread).trans hwr
      have hfd : f.mode = .put → chnk.offset = 0 → fd₁ = f.fd ∧ r = none := by
        intro hmode' hzero
        obtain rfl := hput hmode' hzero
        rw [Fd.read_of_wr (hopened.wr.mpr hmode')] at hread
        obtain ⟨rfl, rfl⟩ := by simpa using hread
        exact ⟨rfl, rfl⟩
      rw [hread] at h
      cases r with
      | none =>
        obtain ⟨rfl, rfl⟩ := by simpa using h
        refine ⟨hmode, hwr₁, fun hmode' hzero => ?_⟩
        obtain rfl := hput hmode' hzero
        rw [(hfd hmode' hzero).1]
      | some v =>
        have hnot : f.mode = .put → chnk.offset = 0 → False := fun hmode' hzero =>
          absurd (hfd hmode' hzero).2 (by simp)
        cases v <;>
        · obtain ⟨rfl, rfl⟩ := by simpa using h
          exact ⟨hmode, hwr₁, fun hmode' hzero => (hnot hmode' hzero).elim⟩

end File

theorem Inv.readFile (h : Inv w) (hcli : w.srv.clis cid = some cli) {id : ℕ} {f f' : File S}
    (hf : cli.tab id = some f)
    (hcase : f' = f ∨ f.mode = .get ∧ f'.mode = .get ∧ f'.fd.wr = false) :
    Inv ⟨w.srv.setCli w.srv.fs cid (some (cli.setFile id f')), w.last⟩ := by
  have hfree := (h.live cid cli hcli).2
  have htab : ∀ i, i ≠ id → (cli.setFile id f').tab i = cli.tab i := fun i hi =>
    cli.tab_setFile_of_ne f' hi
  have hne : ∀ i, cli.tab i = none → i ≠ id := by
    rintro i hnone rfl
    exact absurd (hnone.symm.trans hf) (by simp)
  refine h.read hcli (Nat.le_refl _) ?_ ?_ ?_
  · intro i hi
    rw [htab i (hne i (hfree i hi))]
    exact hfree i hi
  · intro i f₁ hf₁
    by_cases hi : i = id
    · subst hi
      obtain rfl := Option.some.inj ((cli.tab_setFile_self f').symm.trans hf₁)
      obtain rfl | ⟨hget, hget', hwr⟩ := hcase
      · exact .inl hf
      · refine .inr ⟨hget', hwr, fun f₀ hf₀ => ?_⟩
        obtain rfl := Option.some.inj (hf.symm.trans hf₀)
        exact hget
    · exact .inl (by rwa [htab i hi] at hf₁)
  · intro i hnone _
    rw [htab i (hne i hnone), hnone]

theorem Inv.same (h : Inv w) (hcli : w.srv.clis cid = some cli) :
    Inv ⟨w.srv.setCli w.srv.fs cid (some cli), w.last⟩ :=
  h.read hcli (Nat.le_refl _) (h.live cid cli hcli).2 (fun _ _ hf => .inl hf)
    (fun _ hnone _ => hnone)

theorem Opened.not_wr {f : File S} (h : Opened f) (hmode : f.mode = .get) : f.fd.wr = false := by
  rw [Bool.eq_false_iff]
  intro hwr
  exact absurd ((h.wr.mp hwr).symm.trans hmode) (by simp)

theorem Inv.get2 (h : Inv w) (hcli : w.srv.clis cid = some cli) {arg : Get2Arg} {res : Get2Res}
    (hsound : w.Sound (.call cid (.get2 arg) io))
    (hget : cli.doGet2 w.srv.fs io arg = some (cli', res)) :
    Inv ⟨w.srv.setCli w.srv.fs cid (some cli'), w.last⟩ := by
  have hfree := (h.live cid cli hcli).2
  have hsame := h.same hcli
  cases arg with
  | begin name =>
    simp only [Cli.doGet2] at hget
    split at hget
    · cases hget
    · obtain ⟨rfl, -⟩ := by simpa using hget
      exact hsame
    · next fs₁ fd hopen =>
        split at hget
        · obtain ⟨rfl, -⟩ := by simpa using hget
          exact hsame
        · next f hread =>
            obtain ⟨rfl, -⟩ := by simpa using hget
            obtain ⟨hmode, hwr⟩ := File.readHeader_keeps hread
            have htab : ∀ i, i ≠ cli.id → (cli.addFile f).tab i = cli.tab i := fun i hi =>
              cli.tab_addFile_of_ne f hi
            refine h.read hcli (Nat.le_succ _) ?_ ?_ ?_
            · intro i hi
              have hi : cli.id + 1 ≤ i := hi
              rw [htab i (by omega)]
              exact hfree i (by omega)
            · intro i f₁ hf₁
              by_cases hi : i = cli.id
              · subst hi
                obtain rfl := Option.some.inj ((cli.tab_addFile_self f).symm.trans hf₁)
                refine .inr ⟨hmode, hwr.trans (openFile_get_wr hopen), fun f₀ hf₀ => ?_⟩
                exact absurd ((hfree _ (Nat.le_refl _)).symm.trans hf₀) (by simp)
              · exact .inl (by rwa [htab i hi] at hf₁)
            · intro i hnone hlt
              rw [htab i (Nat.ne_of_lt hlt), hnone]
  | ok chunk =>
    simp only [Cli.doGet2] at hget
    cases hf : cli.tab chunk.xferId with
    | none =>
      rw [hf] at hget
      obtain ⟨rfl, -⟩ := by simpa using hget
      exact hsame
    | some f =>
      rw [hf] at hget
      dsimp only at hget
      split at hget
      · cases hget
      · next f₁ res₁ hread =>
          obtain ⟨rfl, -⟩ := by simpa using hget
          have hcur : w.srv.transfer (cid, chunk.xferId) = some f :=
            (Srv.transfer_of_cli hcli).trans hf
          have hopened := h.opened _ f hcur
          obtain ⟨hmode, hwr, hput⟩ := File.readChunk_keeps hopened hread
          simp only [World.Sound, World.OnPut, hcur] at hsound
          refine h.readFile hcli hf ?_
          cases hm : f.mode with
          | put => exact .inl (hput hm (hsound hm))
          | get => exact .inr ⟨rfl, hmode.trans hm, hwr.trans (hopened.not_wr hm)⟩
  | eof id =>
    simp only [Cli.doGet2] at hget
    cases hf : cli.tab id with
    | none =>
      rw [hf] at hget
      obtain ⟨rfl, -⟩ := by simpa using hget
      exact hsame
    | some f =>
      rw [hf] at hget
      obtain ⟨rfl, -⟩ := by simpa using hget
      have htab : ∀ i, Function.update cli.tab id none i = none ∨
          Function.update cli.tab id none i = cli.tab i := by
        intro i
        by_cases hi : i = id
        · exact .inl (by rw [hi, Function.update_self])
        · exact .inr (Function.update_of_ne hi ..)
      refine h.read hcli (Nat.le_refl _) ?_ ?_ ?_
      · intro i hi
        exact (htab i).elim (fun hnone => hnone) fun heq => heq.trans (hfree i hi)
      · intro i f₁ hf₁
        refine .inl ((htab i).elim (fun hnone => ?_) fun heq => heq.symm.trans hf₁)
        exact absurd (hnone.symm.trans hf₁) (by simp)
      · intro i hnone _
        exact (htab i).elim (fun hnone => hnone) fun heq => heq.trans hnone
  | other =>
    obtain ⟨rfl, -⟩ := by simpa [Cli.doGet2] using hget
    exact hsame

theorem Inv.onPut_get (h : Inv w) {g : Put → Put}
    (hnot : ∀ f, w.srv.transfer tid = some f → f.mode = .get)
    (hnone : w.srv.transfer tid = none → ∀ p, g p = p) : World.onPut w.last tid g = w.last := by
  funext n
  cases hp : w.last n with
  | none => simp [World.onPut, hp]
  | some p =>
    rw [World.onPut, hp, Option.map_some]
    split_ifs with htid
    · cases hf : w.srv.transfer tid with
      | none => rw [hnone hf]
      | some f =>
        have hput := ((h.good n p hp).follows f (by rw [htid, hf])).mode
        exact absurd (hput.symm.trans (hnot f hf)) (by simp)
    · rfl

theorem File.writeChunk_get {f f' : File S} {fs : Store} {arg : Chunk} {s : Status}
    (hwr : f.fd.wr = false) (h : f.writeChunk fs io arg = (fs', f', s)) :
    fs' = fs ∧ f'.fd = f.fd ∧ f'.mode = f.mode := by
  unfold File.writeChunk File.myWrite at h
  split at h
  · obtain ⟨rfl, rfl, -⟩ := by simpa using h
    exact ⟨rfl, rfl, rfl⟩
  · simp only [Fd.write_of_not_wr hwr] at h
    obtain ⟨rfl, rfl, -⟩ := by simpa using h
    exact ⟨rfl, rfl, rfl⟩

theorem World.IsLast.record {f : File S} {P : Put → Prop}
    (h : w.IsLast tid f P) : ∃ p, w.last f.file = some p ∧ p.tid = tid ∧ P p := by
  unfold World.IsLast at h
  split at h
  · exact h.elim
  · next p hp => exact ⟨p, hp, h⟩

variable {res : Put2Res}

/-- The chunks of a transfer. Before the first footer they are behind one another; after
`RTFTP_OK` only empty ones are in sequence. -/
theorem Inv.chunk (h : Inv w) (hcli : w.srv.clis cid = some cli) {data : Chunk}
    (hclean : w.Clean (.call cid (.put2 (.ok data)) io))
    (hput : cli.doPut2 w.srv.fs io (.ok data) = some (fs', cli', res)) :
    Inv ⟨w.srv.setCli fs' cid (some cli'),
      World.onPut w.last (cid, data.id.xferId) fun p => p.chunk data.data res⟩ := by
  have htransfer : w.srv.transfer (cid, data.id.xferId) = cli.tab data.id.xferId :=
    Srv.transfer_of_cli hcli
  simp only [Cli.doPut2] at hput
  cases hf : cli.tab data.id.xferId with
  | none =>
    rw [hf] at hput htransfer
    obtain ⟨rfl, rfl, rfl⟩ := by simpa using hput
    rw [h.onPut_get (g := fun p => p.chunk data.data _) (by simp [htransfer]) (fun _ _ => rfl)]
    exact h.same hcli
  | some f =>
    rw [hf] at hput htransfer
    dsimp only at hput
    rcases hw : f.writeChunk w.srv.fs io data with ⟨fs₁, f₁, s⟩
    rw [hw] at hput
    obtain ⟨rfl, rfl, rfl⟩ := by simpa using hput
    have hopened := h.opened _ f htransfer
    cases hm : f.mode with
    | get =>
      obtain ⟨rfl, hfd, hmode⟩ := File.writeChunk_get (hopened.not_wr hm) hw
      rw [h.onPut_get (by simp [htransfer, hm]) (by simp [htransfer])]
      exact h.readFile hcli hf
        (.inr ⟨hm, hmode.trans hm, by rw [hfd, hopened.not_wr hm]⟩)
    | put =>
      obtain ⟨hone, hsound⟩ := hclean
      simp only [World.OneTransfer, World.Sound, World.OnPut, htransfer] at hone hsound
      obtain ⟨p, hp, htid, -⟩ := (hone hm).record
      have hgood := h.good _ p hp
      have hold : Follows w.srv.fs f.file p f := hgood.follows f (by rw [htid, htransfer])
      have hempty : p.status = .ok → data.id.offset.toNat = f.sz → data.data = [] := by
        intro hok hseq
        exact (hsound hm (hold.status.trans hok)).resolve_left (not_not.mpr hseq)
      obtain ⟨rfl, -, rfl, rfl⟩ | ⟨hseq, fd₁, hwrote, hnil, hcase⟩ :=
        File.writeChunk_spec hw
      · exact h.write hcli hf hp htid (.refl _ _) ⟨rfl, rfl⟩ rfl hold hgood.intact
      obtain ⟨rfl, rfl⟩ | ⟨rfl, rfl, hdata, hpos⟩ := hcase
      · refine h.write hcli hf hp htid hwrote ⟨rfl, rfl⟩ rfl ?_ ?_
        · refine ⟨hm, rfl, hold.status, ?_, hold.sz, ?_⟩
          · rw [hwrote.dir, hwrote.ino]
            exact hold.dir
          · intro hs hspoiled
            obtain ⟨hp₁, hempty⟩ : p.spoiled = false ∧ data.data = [] := by
              simpa [Put.chunk] using hspoiled
            obtain ⟨rfl, rfl⟩ := hnil hempty
            obtain ⟨hfed, hrest⟩ := hold.fresh hs hp₁
            have hfed := hfed.update data.data
            rw [hempty, List.append_nil] at hfed
            rw [hempty]
            exact ⟨hfed, hrest⟩
        · intro hok
          obtain ⟨rfl, -⟩ := hnil (hempty hok hseq)
          exact hgood.intact hok
      · refine h.write hcli hf hp htid hwrote ⟨rfl, rfl⟩ rfl ?_ ?_
        · refine ⟨hm, rfl, hold.status, ?_, ?_, ?_⟩
          · rw [hwrote.dir, hwrote.ino]
            exact hold.dir
          · simp [Put.chunk, hold.sz]
          · intro hs hspoiled
            obtain ⟨hfed, hpos₀, hprefix⟩ := hold.fresh hs hspoiled
            refine ⟨hfed.update data.data, ?_, ?_⟩
            · rw [hpos, hpos₀, Nat.add_assoc]
            · have hlen : f.fd.pos = (fileHeader f.file Hash.zero 0 ++ p.acked).length := by
                rw [hpos₀, List.length_append, length_fileHeader, hold.sz]
              rw [hwrote.ino, hdata, hlen]
              simp only [Put.chunk, ← List.append_assoc]
              exact overwrite_prefix 0 data.data hprefix
        · intro hok
          have hempty := hempty hok hseq
          obtain ⟨rfl, -⟩ := hnil hempty
          simpa [Put.chunk, hempty, Intact] using hgood.intact hok

theorem Inv.footer (h : Inv w) (hcli : w.srv.clis cid = some cli) {footer : Footer}
    (hclean : w.Clean (.call cid (.put2 (.eof footer)) io))
    (hput : cli.doPut2 w.srv.fs io (.eof footer) = some (fs', cli', res)) :
    Inv ⟨w.srv.setCli fs' cid (some cli'),
      World.onPut w.last (cid, footer.xferId) fun p => p.foot footer res⟩ := by
  have htransfer : w.srv.transfer (cid, footer.xferId) = cli.tab footer.xferId :=
    Srv.transfer_of_cli hcli
  simp only [Cli.doPut2] at hput
  cases hf : cli.tab footer.xferId with
  | none =>
    rw [hf] at hput htransfer
    obtain ⟨rfl, rfl, rfl⟩ := by simpa using hput
    rw [h.onPut_get (g := fun p => p.foot footer _) (by simp [htransfer]) (fun _ _ => rfl)]
    exact h.same hcli
  | some f =>
    rw [hf] at hput htransfer
    dsimp only at hput
    rcases hw : f.putFooter w.srv.fs io footer with ⟨fs₁, f₁, s⟩
    rw [hw] at hput
    dsimp only at hput
    split at hput
    · cases hput
    next hmode =>
    obtain ⟨rfl, rfl, rfl⟩ := by simpa using hput
    have hspec := File.putFooter_spec hw
    have hm : f.mode = .put := by
      obtain ⟨-, -, -, rfl⟩ | ⟨-, fd₁, -, rfl, -⟩ := hspec <;> exact not_not.mp hmode
    obtain ⟨hone, hsound⟩ := hclean
    simp only [World.OneTransfer, World.Sound, World.OnPut, htransfer] at hone hsound
    obtain ⟨p, hp, htid, -⟩ := (hone hm).record
    have hgood := h.good _ p hp
    have hold : Follows w.srv.fs f.file p f := hgood.follows f (by rw [htid, htransfer])
    obtain ⟨rfl, -, rfl, rfl⟩ | ⟨hmatch, fd₁, hwrote, rfl, hcase⟩ := hspec
    · refine h.write hcli hf hp htid (.refl _ _) ⟨rfl, rfl⟩ rfl ?_ (fun hok => nomatch hok)
      exact ⟨hm, rfl, rfl, hold.dir, hold.sz, fun hs => nomatch hs⟩
    have hdir : fs₁.dir f.file = some fd₁.ino := by
      rw [hwrote.dir, hwrote.ino]
      exact hold.dir
    obtain rfl | ⟨rfl, hdata⟩ := hcase
    · refine h.write hcli hf hp htid hwrote ⟨rfl, rfl⟩ rfl ?_ (fun hok => nomatch hok)
      exact ⟨hm, rfl, rfl, hdir, hold.sz, fun hs => nomatch hs⟩
    · refine h.write hcli hf hp htid hwrote ⟨rfl, rfl⟩ rfl
        ⟨hm, rfl, rfl, hdir, hold.sz, fun hs => nomatch hs⟩ fun _ => ?_
      obtain ⟨hs, hlast, hlen⟩ := hsound hm hmatch
      obtain ⟨q, hq, -, hspoiled⟩ := hlast.record
      obtain rfl := Option.some.inj (hp.symm.trans hq)
      obtain ⟨hfed, -, hprefix⟩ := hold.fresh (hold.status.symm.trans hs) hspoiled
      have hwhole : fileHeader f.file Hash.zero 0 ++ p.acked = w.srv.fs.data f.fd.ino := by
        refine hprefix.eq_of_length_le ?_
        rw [List.length_append, length_fileHeader, ← hold.sz]
        exact hlen
      refine ⟨fd₁.ino, footer, hdir, rfl, ?_, ?_, ?_⟩
      · rw [hwrote.ino, hdata, ← hwhole]
        exact putHeader_eq (length_fileHeader _ _ _) _ _ _
      · exact hold.sz.symm.trans hmatch.1
      · exact hfed.final.symm.trans hmatch.2.symm

theorem Keeps.trans {fs fs' fs'' : Store} (h : Keeps fs fs' n)
    (h' : Keeps fs' fs'' n) : Keeps fs fs'' n :=
  ⟨h'.1.trans h.1, fun i hi => (h'.2 i (h.1.trans hi)).trans (h.2 i hi)⟩

theorem Cli.begin_keeps {fs : Store} {name m : RtftpId}
    (hput : cli.doPut2 fs io (.begin name) = some (fs', cli', res)) (hm : m ≠ name) :
    Keeps fs fs' m := by
  simp only [Cli.doPut2] at hput
  split at hput
  · cases hput
  · obtain ⟨rfl, -⟩ := by simpa using hput
    exact .refl _ _
  · next fs₁ fd hopen =>
      obtain ⟨-, hfs₁, rfl⟩ := openFile_put hopen
      rcases hw : (File.new S name .put ⟨(fs.create name).2, 0, true⟩).writeHeaderPlaceholder
        fs₁ io with ⟨fs₂, f, ok⟩
      obtain ⟨fd₂, -, hwrote, -⟩ := File.writeHeader_spec hw
      have hfs₂ : fs₂ = fs' := by
        rw [hw] at hput
        cases ok <;> exact congrArg Prod.fst (Option.some.inj hput)
      have hcreate : Keeps fs fs₁ m := by
        rw [hfs₁]
        exact ⟨FileStore.dir_create_of_ne _ hm, fun i hi => FileStore.data_create _ hi⟩
      rw [← hfs₂]
      refine hcreate.trans (hwrote.keeps ?_ hm)
      rw [hfs₁]
      exact FileStore.dir_create_self _

theorem Inv.begin (h : Inv w) (hcli : w.srv.clis cid = some cli) {name : RtftpId}
    (hclean : w.Clean (.call cid (.put2 (.begin name)) io))
    (hput : cli.doPut2 w.srv.fs io (.begin name) = some (fs', cli', res)) :
    Inv ⟨w.srv.setCli fs' cid (some cli'),
      w.note (.call cid (.put2 (.begin name)) io) (.put2 res)⟩ := by
  have hone : ∀ p, w.last name = some p → p.status = .ok ∨ w.srv.transfer p.tid = none := by
    intro p hp
    have hone := hclean.1
    rwa [World.OneTransfer, hp] at hone
  have hkeep : ∀ m, m ≠ name → Keeps w.srv.fs fs' m := fun m hm => Cli.begin_keeps hput hm
  simp only [Cli.doPut2] at hput
  split at hput
  · cases hput
  · next hopen =>
      obtain ⟨rfl, rfl, rfl⟩ := by simpa using hput
      simp only [World.note, hopen]
      exact h.same hcli
  · next fs₁ fd hopen =>
      obtain ⟨hopenable, hfs₁, rfl⟩ := openFile_put hopen
      rcases hw : (File.new S name .put ⟨(w.srv.fs.create name).2, 0, true⟩).writeHeaderPlaceholder
        fs₁ io with ⟨fs₂, f, ok⟩
      obtain ⟨fd₂, rfl, hwrote, hfull⟩ := File.writeHeader_spec hw
      rw [hw] at hput
      cases ok with
      | false =>
        obtain ⟨rfl, rfl, rfl⟩ := by simpa using hput
        simp only [World.note, hopen]
        exact h.fail hcli hone hkeep
      | true =>
        obtain ⟨rfl, rfl, rfl⟩ := by simpa using hput
        obtain ⟨hdata, hpos⟩ := hfull rfl
        refine h.start hcli hone hkeep hopenable ?_ ?_
        · exact ⟨by simp [File.new, hwrote.wr], fun _ => ⟨rfl, rfl⟩⟩
        · refine ⟨rfl, rfl, rfl, ?_, rfl, fun _ _ => ⟨Fed.init S, ?_, ?_⟩⟩
          · rw [hwrote.dir, hwrote.ino, hfs₁]
            exact FileStore.dir_create_self _
          · exact hpos.trans (Nat.zero_add _)
          · show fileHeader name Hash.zero 0 ++ [] <+: fs₂.data fd₂.ino
            rw [List.append_nil, hwrote.ino]
            exact hdata ▸ prefix_putHeader _ _ _ _

theorem Inv.exec (h : Inv w) {e : Event} {w' : World S} {res : Res} (hclean : w.Clean e)
    (hexec : w.exec e = some (w', res)) : Inv w' := by
  simp only [World.exec, Option.bind_eq_bind, Option.bind_eq_some_iff, Option.pure_def,
    Option.some.injEq, Prod.mk.injEq, Prod.exists] at hexec
  obtain ⟨srv, res, hstep, rfl, rfl⟩ := hexec
  cases e with
  | newcli =>
    obtain ⟨rfl, rfl⟩ := by simpa [Srv.step] using hstep
    exact h.newcli
  | hangup cid io =>
    simp only [Srv.step, Option.bind_eq_bind, Option.bind_eq_some_iff, Option.pure_def,
      Option.some.injEq, Prod.mk.injEq] at hstep
    obtain ⟨cli, hcli, rfl, rfl⟩ := hstep
    exact h.hangup hcli io
  | call cid req io =>
    simp only [Srv.step, Srv.call, Option.bind_eq_bind, Option.bind_eq_some_iff] at hstep
    obtain ⟨cli, hcli, hstep⟩ := hstep
    cases req with
    | get2 arg =>
      simp only [Option.bind_eq_some_iff, Option.pure_def, Option.some.injEq,
        Prod.mk.injEq, Prod.exists] at hstep
      obtain ⟨cli', res, hget, rfl, rfl⟩ := hstep
      exact h.get2 hcli hclean.2 hget
    | put2 arg =>
      simp only [Option.bind_eq_some_iff, Option.pure_def, Option.some.injEq,
        Prod.mk.injEq, Prod.exists] at hstep
      obtain ⟨fs', cli', res, hput, rfl, rfl⟩ := hstep
      cases arg with
      | begin name => exact h.begin hcli hclean hput
      | ok data => exact h.chunk hcli hclean hput
      | eof footer => exact h.footer hcli hclean hput
      | other =>
        obtain ⟨rfl, rfl, rfl⟩ := by simpa [Cli.doPut2] using hput
        exact h.same hcli

end Events

theorem Inv.run {fs : Store} {w : World S} {es : List Event}
    (hrun : Run World.step World.Clean (World.init S fs) es w) : Inv w := by
  refine hrun.invariant (Inv.init S fs) ?_
  intro a e b ha hclean hstep
  obtain ⟨⟨w', res⟩, hexec, rfl⟩ := Option.map_eq_some_iff.mp hstep
  exact ha.exec hclean hexec

end Sfslite.Rtftp
