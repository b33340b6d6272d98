import Sfslite.Crypt.Srp
import Mathlib.Tactic.NormNum.Prime

/-!
The two ends of an SRP run compute one secret, and what `srp_server::phase2` does and does not
keep out.
-/

namespace Sfslite.Crypt

open Sfslite.Arpc

variable {env : SrpEnv} {st st' : SrpStatic} {N g k v A : ℤ} {x a b u : ℕ}

/-- The client takes the server's multiple of the verifier away; what is left is `g ^ b`. -/
theorem client_base (hv : v ≡ g ^ x [ZMOD N]) :
    (k * v + powm g b N).tmod N - k * powm g x N ≡ g ^ b [ZMOD N] := by
  have hpow := powm_modEq g x N
  calc (k * v + powm g b N).tmod N - k * powm g x N
    _ ≡ (k * g ^ x + g ^ b) - k * g ^ x [ZMOD N] :=
        ((tmod_modEq _ N).trans ((hv.mul_left k).add (powm_modEq g b N))).sub (hpow.mul_left k)
    _ = g ^ b := by ring

theorem secret_eq (hv : v ≡ g ^ x [ZMOD N]) :
    powm ((k * v + powm g b N).tmod N - k * powm g x N) (a + u * x) N =
      powm (powm g a N * powm v u N) b N := by
  have hserver : powm g a N * powm v u N ≡ g ^ a * (g ^ x) ^ u [ZMOD N] :=
    (powm_modEq g a N).mul ((powm_modEq v u N).trans (hv.pow u))
  rw [powm_congr (client_base hv), powm_congr hserver, powm, powm]
  congr 1
  ring

/-- The members that the session hashes are made of. -/
structure SameHashed (s s' : SrpBase) : Prop where
  sessid : s.sessid = s'.sessid
  N : s.N = s'.N
  g : s.g = s'.g
  user : s.user = s'.user
  salt : s.salt = s'.salt
  A : s.A = s'.A
  B : s.B = s'.B

theorem setS_spec (env : SrpEnv) (s : SrpBase) (SS : ℤ) :
    ∃ M H, s.setS env SS = (true, { s with S := SS, M := M, H := H }) ∧
      ∀ s', SameHashed s s' → s'.setS env SS = (true, { s' with S := SS, M := M, H := H }) := by
  refine ⟨_, _, rfl, ?_⟩
  intro s' hsame
  obtain ⟨hsessid, hN, hg, huser, hsalt, hA, hB⟩ := hsame
  rw [SrpBase.setS]
  simp only [← hsessid, ← hN, ← hg, ← huser, ← hsalt, ← hA, ← hB]
  rfl

/-- How many bits `pw_getint` is asked for. -/
def pwBits (N : ℤ) : ℕ := (nbits N + (2 ^ 64 - 1)) % 2 ^ 64

/-- The client answers the first message with its public value: at once where it has the
password, else after it was given. -/
inductive Greets (env : SrpEnv) (draw : ℕ) (pwd : List Byte) (c : SrpClient) (msgin : SrpMsg) :
    SrpMsg → SrpClient → Prop where
  | given {st st' : SrpStatic} {msgout : SrpMsg} {c' : SrpClient} (hpwd : c.pwd = some pwd)
      (hnext : c.next env st draw msgin = some (.next, msgout, c', st')) :
      Greets env draw pwd c msgin msgout c'
  | asked {st st' st'' : SrpStatic} {draw' : ℕ} {msg msg' msgout : SrpMsg} {c' c'' : SrpClient}
      (hpwd : c.pwd = none)
      (hask : c.next env st draw' msgin = some (.setpwd, msg, c', st'))
      (hnext : (c'.setpwd pwd).next env st' draw msg' = some (.next, msgout, c'', st'')) :
      Greets env draw pwd c msgin msgout c''

/-- The client after its public value went out. -/
structure SentA (env : SrpEnv) (draw : ℕ) (pwd : List Byte) (m : SrpMsg1) (c : SrpClient)
    (msgout : SrpMsg) (c' : SrpClient) : Prop where
  phase : c'.phase = .phase3
  N_pos : 0 < m.N
  N : c'.N = m.N
  g : c'.g = m.g
  salt : c'.salt = m.salt
  x : c'.x = env.pwGetint pwd m.salt (pwBits m.N)
  a : c'.a = draw
  A : c'.A = powm m.g draw m.N
  msgout : msgout = .bigint c'.A
  k : c'.k = c.k
  user : c'.user = c.user
  sessid : c'.sessid = c.sessid

variable {msgout : SrpMsg} {draw : ℕ} {pwd : List Byte} {c c' : SrpClient}

theorem phase1b_spec {res : Srpres} (hpwd : c.pwd = some pwd)
    (h : c.phase1b env draw = some (res, msgout, c')) :
    res = .next ∧ SentA env draw pwd ⟨c.salt, c.N, c.g⟩ c msgout c' := by
  unfold SrpClient.phase1b randomZn at h
  by_cases hN : 0 < c.N
  · rw [hpwd, if_pos hN] at h
    simp only [Option.bind_eq_bind, Option.bind_some, mpzPowm_natCast hN.ne', pure,
      Option.some.injEq, Prod.mk.injEq] at h
    obtain ⟨hres, hmsg, hc⟩ := h
    subst hc
    exact ⟨hres.symm, rfl, hN, rfl, rfl, rfl, rfl, rfl, rfl, hmsg.symm, rfl, rfl, rfl⟩
  · simp [hpwd, hN] at h

/-- The client after it took the parameters and the salt of the first message. -/
structure TookMsg1 (m : SrpMsg1) (c c' : SrpClient) : Prop where
  N : c'.N = m.N
  g : c'.g = m.g
  salt : c'.salt = m.salt
  k : c'.k = c.k
  user : c'.user = c.user
  sessid : c'.sessid = c.sessid
  pwd : c'.pwd = c.pwd

variable {m : SrpMsg1}

theorem SentA.of_took {c'' : SrpClient} (htook : TookMsg1 m c c')
    (h : SentA env draw pwd ⟨c'.salt, c'.N, c'.g⟩ c' msgout c'') :
    SentA env draw pwd m c msgout c'' := by
  have hm : (⟨c'.salt, c'.N, c'.g⟩ : SrpMsg1) = m := by rw [htook.salt, htook.N, htook.g]
  rw [hm] at h
  exact { h with
    k := h.k.trans htook.k
    user := h.user.trans htook.user
    sessid := h.sessid.trans htook.sessid }

theorem phase1aSalt_cases {c0 : SrpClient} {res : Srpres}
    (htook : TookMsg1 m c { c0 with salt := m.salt })
    (h : c0.phase1aSalt env st draw m.salt = some (res, msgout, c', st')) :
    res = .fail ∨
    (res = .setpwd ∧ c.pwd = none ∧ c'.phase = .phase1b ∧ TookMsg1 m c c') ∨
    ∃ c1, TookMsg1 m c c1 ∧ c1.phase1b env draw = some (res, msgout, c') := by
  obtain ⟨hN, hg, hsalt, hk, huser, hsessid, hpwd⟩ := htook
  unfold SrpClient.phase1aSalt at h
  split at h
  · left
    exact (congrArg Prod.fst (Option.some.inj h)).symm
  · dsimp only at h
    split at h
    · rename_i hnone
      right
      left
      simp only [Option.some.injEq, Prod.mk.injEq] at h
      obtain ⟨hres, -, hc, -⟩ := h
      subst hc
      exact ⟨hres.symm, hpwd.symm.trans hnone, rfl, hN, hg, hsalt, hk, huser, hsessid, hpwd⟩
    · right
      right
      simp only [Option.bind_eq_bind, Option.bind_eq_some_iff] at h
      obtain ⟨⟨res1, msg1, c1⟩, hphase, heq⟩ := h
      simp only [pure, Option.some.injEq, Prod.mk.injEq] at heq
      obtain ⟨rfl, rfl, rfl, -⟩ := heq
      refine ⟨_, ?_, hphase⟩
      exact ⟨hN, hg, hsalt, hk, huser, hsessid, hpwd⟩

theorem phase1a_cases {res : Srpres}
    (h : c.phase1a env st draw (.msg1 m) = some (res, msgout, c', st')) :
    res = .fail ∨
    (res = .setpwd ∧ c.pwd = none ∧ c'.phase = .phase1b ∧ TookMsg1 m c c') ∨
    ∃ c1, TookMsg1 m c c1 ∧ c1.phase1b env draw = some (res, msgout, c') := by
  unfold SrpClient.phase1a at h
  dsimp only at h
  split at h
  · unfold SrpClient.setparam at h
    split at h
    · exact absurd h nofun
    · left
      exact (congrArg Prod.fst (Option.some.inj h)).symm
    · rename_i c0 st0 hset
      split at hset
      · exact absurd hset nofun
      · simp only [Option.some.injEq, Prod.mk.injEq, true_and] at hset
        obtain ⟨rfl, rfl⟩ := hset
        apply phase1aSalt_cases _ h
        exact ⟨rfl, rfl, rfl, rfl, rfl, rfl, rfl⟩
      · simp at hset
  · rename_i hsame
    rw [not_or, not_not, not_not] at hsame
    exact phase1aSalt_cases ⟨hsame.1.symm, hsame.2.symm, rfl, rfl, rfl, rfl, rfl⟩ h

theorem Greets.sentA (hphase : c.phase = .phase1) (h : Greets env draw pwd c (.msg1 m) msgout c') :
    SentA env draw pwd m c msgout c' := by
  cases h with
  | given hpwd hnext =>
    unfold SrpClient.next at hnext
    simp only [hphase] at hnext
    rcases phase1a_cases hnext with hfail | ⟨hask, -⟩ | ⟨c1, htook, hphase1b⟩
    · exact absurd hfail (by decide)
    · exact absurd hask (by decide)
    · obtain ⟨-, hsent⟩ := phase1b_spec (htook.pwd.trans hpwd) hphase1b
      obtain ⟨h1, h2, h3, h4, h5, h6, h7, h8, h9, h10, h11, h12⟩ := hsent.of_took htook
      exact ⟨h1, h2, h3, h4, h5, h6, h7, h8, h9, h10, h11, h12⟩
  | @asked _ _ _ _ _ _ _ c1 _ hpwd hask hnext =>
    unfold SrpClient.next at hask
    simp only [hphase] at hask
    rcases phase1a_cases hask with hfail | ⟨-, -, hphase1b, htook⟩ | ⟨c2, htook, hphase1b⟩
    · exact absurd hfail (by decide)
    · unfold SrpClient.next at hnext
      have hcur : (c1.setpwd pwd).phase = .phase1b := hphase1b
      simp only [hcur, Option.bind_eq_bind, Option.bind_eq_some_iff] at hnext
      obtain ⟨⟨res, msg, c2⟩, hstep, heq⟩ := hnext
      simp only [pure, Option.some.injEq, Prod.mk.injEq] at heq
      obtain ⟨rfl, rfl, rfl, -⟩ := heq
      obtain ⟨-, hsent⟩ := @phase1b_spec _ _ _ pwd _ _ _ rfl hstep
      have htook' : TookMsg1 m c { c1.setpwd pwd with pwd := c.pwd, phase := .over } :=
        { htook with pwd := rfl }
      exact SentA.of_took htook' { hsent with }
    · unfold SrpClient.phase1b at hphase1b
      have hnone : c2.pwd = none := htook.pwd.trans hpwd
      rw [hnone] at hphase1b
      exact absurd hphase1b nofun

theorem SrpServer.init_next {s s' : SrpServer} {sid : SrpHash} {uu : List Byte} {info : SrpInfo}
    {version : ℤ}
    (h : s.init env st .empty sid uu (some info) version = some (.next, msgout, s', st')) :
    msgout = .msg1 ⟨info.salt, info.N, info.g⟩ ∧
      s' = { s with
        k := multiplier version, N := info.N, g := info.g, user := uu, salt := info.salt,
        sessid := sid, v := info.v, phase := .phase2 } := by
  unfold SrpServer.init at h
  simp only [Option.bind_eq_bind, Option.bind_eq_some_iff] at h
  obtain ⟨⟨ok, st1⟩, -, hrest⟩ := h
  cases ok with
  | false => simp at hrest
  | true =>
    simp only [Bool.not_true, Bool.false_eq_true, if_false, pure, Option.some.injEq,
      Prod.mk.injEq] at hrest
    obtain ⟨-, rfl, rfl, -⟩ := hrest
    exact ⟨rfl, rfl⟩

theorem SrpServer.phase2_eq (s : SrpServer) (b u : ℕ) (A : ℤ) (hN : 0 < s.N) (hA : A ≠ 0) :
    s.phase2 b u (.bigint A) =
      some (.next, .msg3 ⟨(s.k * s.v + powm s.g b s.N).tmod s.N, u⟩, { s with
        A := A, b := b, B := (s.k * s.v + powm s.g b s.N).tmod s.N, u := u,
        phase := .phase4 }) := by
  unfold SrpServer.phase2 randomZn
  simp only [if_neg hA, if_pos hN, Option.bind_eq_bind, Option.bind_some,
    mpzPowm_natCast hN.ne']
  rfl

theorem SrpServer.phase2_zero (s : SrpServer) (b u : ℕ) :
    s.phase2 b u (.bigint 0) = some (.fail, .empty, { s with A := 0 }) := by
  unfold SrpServer.phase2
  exact if_pos rfl

theorem SrpServer.phase4_secret (env : SrpEnv) {s : SrpServer} {b u : ℕ} (hN : 0 < s.N)
    (hb : s.b = b) (hu : s.u = u) (m : SrpHash) :
    ∃ res msgout s', s.phase4 env (.hash m) = some (res, msgout, s') ∧
      s'.S = powm (s.A * powm s.v u s.N) b s.N := by
  obtain ⟨M, H, hset, -⟩ := setS_spec env s.toSrpBase (powm (s.A * powm s.v u s.N) b s.N)
  unfold SrpServer.phase4
  simp only [hb, hu, mpzPowm_natCast hN.ne', Option.bind_eq_bind, Option.bind_some, hset]
  split
  · exact ⟨_, _, _, rfl, rfl⟩
  · exact ⟨_, _, _, rfl, rfl⟩

theorem proofs_accepted {s : SrpServer} {m : SrpMsg3} {vc vs SS : ℤ}
    (hc : c.phase = .phase3) (hs : s.phase = .phase4) (hm : ¬ (m.B = 0 ∨ m.u = 0))
    (hvc : mpzPowm c.g c.x c.N = some vc)
    (hSc : mpzPowm (m.B - c.k * vc) (c.a + m.u * c.x) c.N = some SS)
    (hvs : mpzPowm s.v s.u s.N = some vs) (hSs : mpzPowm (s.A * vs) s.b s.N = some SS)
    (hsame : SameHashed { c.toSrpBase with B := m.B } s.toSrpBase) (st : SrpStatic)
    (draw draw' : ℕ) :
    ∃ c2 c3 s2, c.next env st draw (.msg3 m) = some (.next, .hash c2.M, c2, st) ∧
      s.next env draw draw' (.hash c2.M) = some (.last, .hash s2.H, s2) ∧
      c2.next env st draw (.hash s2.H) = some (.done, .empty, c3, st) ∧
      c2.S = s2.S ∧ c2.M = s2.M ∧ c2.H = s2.H ∧ c3.hostOk = true := by
  obtain ⟨M, H, hset, hother⟩ := setS_spec env { c.toSrpBase with B := m.B } SS
  have hset' := hother s.toSrpBase hsame
  refine ⟨{ c with B := m.B, S := SS, M := M, H := H, phase := .phase5 },
    { c with B := m.B, S := SS, M := M, H := H, phase := .over, hostOk := true },
    { s with S := SS, M := M, H := H, phase := .over }, ?_, ?_, ?_, rfl, rfl, rfl, rfl⟩
  · unfold SrpClient.next SrpClient.phase3
    simp only [hc, if_neg hm, hvc, hSc, Option.bind_eq_bind, Option.bind_some, hset]
    rfl
  · unfold SrpServer.next SrpServer.phase4
    simp only [hs, hvs, hSs, Option.bind_eq_bind, Option.bind_some, hset']
    simp
  · unfold SrpClient.next SrpClient.phase5
    simp

/-- A server and a client for the user's password come to one secret and to the same session
hashes, and each accepts the proof of the other; or the client refuses the server's message,
which it does where the public value or `u` is zero. -/
theorem srp_agreement {s s0 s1 : SrpServer} {c c1 : SrpClient} {info : SrpInfo} {sid : SrpHash}
    {user pwd : List Byte} {pp : Option (List Byte)} {version : ℤ} {a b u : ℕ} {m1 mA m3 : SrpMsg}
    (hv : info.v = powm info.g (env.pwGetint pwd info.salt (pwBits info.N)) info.N)
    (hinit : s.init env st .empty sid user (some info) version = some (.next, m1, s0, st'))
    (hclient : Greets env a pwd (c.init sid user pp version).2.2 m1 mA c1)
    (hphase2 : s0.next env b u mA = some (.next, m3, s1)) (stc : SrpStatic) (draw draw' : ℕ) :
    (s1.B = 0 ∨ s1.u = 0) ∧
        (∃ c2, c1.next env stc draw m3 = some (.fail, .empty, c2, stc)) ∨
      ∃ c2 c3 s2, c1.next env stc draw m3 = some (.next, .hash c2.M, c2, stc) ∧
        s1.next env draw draw' (.hash c2.M) = some (.last, .hash s2.H, s2) ∧
        c2.next env stc draw (.hash s2.H) = some (.done, .empty, c3, stc) ∧
        c2.S = s2.S ∧ c2.M = s2.M ∧ c2.H = s2.H ∧ c3.hostOk = true := by
  obtain ⟨rfl, rfl⟩ := SrpServer.init_next hinit
  obtain ⟨hphase, hN, hcN, hcg, hcsalt, hx, ha, hA, rfl, hk, huser, hsessid⟩ := hclient.sentA rfl
  dsimp only at hN hcN hcg hcsalt hx hA
  have hA0 : c1.A ≠ 0 := by
    intro hzero
    unfold SrpServer.next at hphase2
    dsimp only at hphase2
    rw [hzero, SrpServer.phase2_zero] at hphase2
    simp at hphase2
  unfold SrpServer.next at hphase2
  dsimp only at hphase2
  rw [SrpServer.phase2_eq _ b u c1.A hN hA0] at hphase2
  simp only [Option.some.injEq, Prod.mk.injEq, true_and] at hphase2
  obtain ⟨rfl, rfl⟩ := hphase2
  dsimp only
  obtain ⟨B, hB⟩ : ∃ B, B =
      (multiplier version * info.v + powm info.g b info.N).tmod info.N := ⟨_, rfl⟩
  rw [← hB]
  by_cases hrefuse : B = 0 ∨ (u : ℤ) = 0
  · left
    refine ⟨hrefuse, ?_⟩
    unfold SrpClient.next SrpClient.phase3
    simp only [hphase, if_pos hrefuse, Option.bind_eq_bind, Option.bind_some]
    exact ⟨_, rfl⟩
  · right
    have hexp : c1.a + u * c1.x = ((a + u * env.pwGetint pwd info.salt (pwBits info.N) : ℕ) : ℤ) := by
      rw [ha, hx]
      push_cast
      rfl
    have hmod : (info.v : ℤ) ≡ info.g ^ env.pwGetint pwd info.salt (pwBits info.N) [ZMOD info.N] := by
      rw [hv]
      exact powm_modEq _ _ _
    have hsecret := secret_eq (k := multiplier version) (a := a) (b := b) (u := u) hmod
    rw [← hA, ← hB] at hsecret
    apply proofs_accepted hphase rfl hrefuse
    · rw [hcg, hcN, hx]
      exact mpzPowm_natCast hN.ne' _ _
    · rw [hexp, hcN, hk]
      exact mpzPowm_natCast hN.ne' _ _
    · exact mpzPowm_natCast hN.ne' _ _
    · dsimp only
      rw [mpzPowm_natCast hN.ne']
      exact congrArg some hsecret.symm
    · exact ⟨hsessid, hcN, hcg, huser, hcsalt, rfl, rfl⟩

/-- The group of 23 with the generator 5, and the password's number 6. -/
def sampleEnv : SrpEnv where
  sha1 _ := List.Vector.replicate hashsize 0#8
  srpprimeTest _ _ := true
  pwDearmorsalt _ := some (0, [])
  pwGetint _ _ _ := 6

def sampleStatic : SrpStatic := ⟨0, [(23, 32), (0, 0)], 0⟩

def sampleBase : SrpBase where
  salt := []
  A := 4
  B := 11
  M := List.Vector.replicate hashsize 0#8
  H := List.Vector.replicate hashsize 0#8
  k := 3
  sessid := List.Vector.replicate hashsize 0#8
  user := []
  S := 0
  N := 23
  g := 5

def sampleClient : SrpClient := ⟨sampleBase, .phase3, 6, 4, none, some [], false, 0⟩

def sampleServer : SrpServer := ⟨sampleBase, .phase4, 8, 3, 5⟩

theorem checkparam_sample : ∀ iter ≤ 32,
    checkparam sampleEnv sampleStatic 23 5 iter = some (true, sampleStatic) := by
  intro iter hiter
  have hmin : ¬ nbits 23 < sampleStatic.minprimsize := Nat.not_lt_zero _
  have hpow : mpzPowm 5 (Int.tdiv 23 2) 23 = some 22 := rfl
  have hfind : sampleStatic.cache.findIdx? (fun c => c.1 = 23 ∧ iter ≤ c.2 ∧ (23 : ℤ) ≠ 0) =
      some 0 := by
    simp [sampleStatic, hiter, List.findIdx?_cons]
  unfold checkparam
  simp only [if_neg hmin, hpow, hfind]
  rfl

theorem srp_agreement_sample :
    (sampleServer.B = 0 ∨ sampleServer.u = 0) ∧
        (∃ c2, sampleClient.next sampleEnv sampleStatic 0 (.msg3 ⟨11, 5⟩) =
          some (.fail, .empty, c2, sampleStatic)) ∨
      ∃ c2 c3 s2, sampleClient.next sampleEnv sampleStatic 0 (.msg3 ⟨11, 5⟩) =
          some (.next, .hash c2.M, c2, sampleStatic) ∧
        sampleServer.next sampleEnv 0 0 (.hash c2.M) = some (.last, .hash s2.H, s2) ∧
        c2.next sampleEnv sampleStatic 0 (.hash s2.H) = some (.done, .empty, c3, sampleStatic) ∧
        c2.S = s2.S ∧ c2.M = s2.M ∧ c2.H = s2.H ∧ c3.hostOk = true := by
  have hinit : sampleServer.init sampleEnv sampleStatic .empty sampleServer.sessid [] (some
      ⟨23, 5, [], 8⟩) 6 = some (.next, .msg1 ⟨[], 23, 5⟩, { sampleServer with phase := .phase2 },
        sampleStatic) := by
    unfold SrpServer.init
    simp only [Nat.cast_ofNat, checkparam_sample 1 (by decide)]
    rfl
  have hgreet : Greets sampleEnv 4 [] (sampleClient.init sampleServer.sessid [] (some []) 6).2.2
      (.msg1 ⟨[], 23, 5⟩) (.bigint 4) sampleClient := by
    apply Greets.given rfl
    · exact @rfl _ (some (Srpres.next, SrpMsg.bigint 4, sampleClient, sampleStatic))
  have hphase2 : SrpServer.next sampleEnv 3 5 { sampleServer with phase := .phase2 } (.bigint 4) =
      some (.next, .msg3 ⟨11, 5⟩, sampleServer) := rfl
  exact srp_agreement rfl hinit hgreet hphase2 sampleStatic 0 0

/-- A server in the group of a prime that waits for the client's public value. -/
structure Awaits (p : ℕ) (s : SrpServer) : Prop where
  phase : s.phase = .phase2
  N : s.N = p
  v : ¬ (p : ℤ) ∣ s.v

def LetsThrough (env : SrpEnv) (s : SrpServer) (A : ℤ) (b u : ℕ) (s' : SrpServer) : Prop :=
  ∃ msgout, s.next env b u (.bigint A) = some (.next, msgout, s')

/-- The server lets `A` through and computes the secret `S` when it is sent a proof. -/
def Computes (env : SrpEnv) (s : SrpServer) (A : ℤ) (b u : ℕ) (S : ℤ) : Prop :=
  ∃ s', LetsThrough env s A b u s' ∧ ∃ draw draw' h res msgout s'',
    s'.next env draw draw' (.hash h) = some (res, msgout, s'') ∧ s''.S = S

/-- What the check of `A` is for: a value that is let through is not zero in the group and never
leads to the secret zero, so that no two runs have that secret. -/
def KeepsOut (env : SrpEnv) (p : ℕ) (A : ℤ) : Prop :=
  (∀ s s' b u, Awaits p s → LetsThrough env s A b u s' → ¬ (p : ℤ) ∣ A) ∧
  (∀ s b u S, Awaits p s → Computes env s A b u S → ¬ (p : ℤ) ∣ S) ∧
  ∀ s s' b b' u u', Awaits p s → Awaits p s' → b ≠ 0 → b' ≠ 0 →
    ¬ (Computes env s A b u 0 ∧ Computes env s' A b' u' 0)

section

variable {p : ℕ} {s s' : SrpServer}

theorem Awaits.letsThrough_iff (h : Awaits p s) (hp : p.Prime) :
    LetsThrough env s A b u s' ↔ A ≠ 0 ∧ s' = { s with
      A := A, b := b, B := (s.k * s.v + powm s.g b s.N).tmod s.N, u := u, phase := .phase4 } := by
  have hN : 0 < s.N := by
    rw [h.N]
    exact_mod_cast hp.pos
  unfold LetsThrough SrpServer.next
  simp only [h.phase]
  by_cases hA : A = 0
  · subst hA
    rw [SrpServer.phase2_zero]
    simp
  · rw [SrpServer.phase2_eq { s with phase := .over } b u A hN hA]
    simp [hA, eq_comm]

theorem Awaits.computes_iff (h : Awaits p s) (hp : p.Prime) {S : ℤ} :
    Computes env s A b u S ↔ A ≠ 0 ∧ S = powm (A * powm s.v u s.N) b s.N := by
  have hN : 0 < s.N := by
    rw [h.N]
    exact_mod_cast hp.pos
  unfold Computes
  constructor
  · rintro ⟨s', hlets, draw, draw', m, res, msgout, s'', hnext, rfl⟩
    obtain ⟨hA, rfl⟩ := (h.letsThrough_iff hp).mp hlets
    obtain ⟨res', msgout', s₂, hphase4, hS⟩ := @SrpServer.phase4_secret env { s with
      A := A, b := b, B := (s.k * s.v + powm s.g b s.N).tmod s.N, u := u, phase := .over }
      b u hN rfl rfl m
    unfold SrpServer.next at hnext
    dsimp only at hnext hS
    rw [hphase4] at hnext
    simp only [Option.some.injEq, Prod.mk.injEq] at hnext
    obtain ⟨-, -, rfl⟩ := hnext
    exact ⟨hA, hS⟩
  · rintro ⟨hA, rfl⟩
    obtain ⟨res', msgout', s₂, hphase4, hS⟩ := @SrpServer.phase4_secret env { s with
      A := A, b := b, B := (s.k * s.v + powm s.g b s.N).tmod s.N, u := u, phase := .over }
      b u hN rfl rfl (List.Vector.replicate hashsize 0#8)
    exact ⟨_, (h.letsThrough_iff hp).mpr ⟨hA, rfl⟩, 0, 0, _, res', msgout', s₂, hphase4, hS⟩

theorem not_dvd_secret (hp : p.Prime) (hA : ¬ (p : ℤ) ∣ A) (hv : ¬ (p : ℤ) ∣ v) (b u : ℕ) :
    ¬ (p : ℤ) ∣ powm (A * powm v u p) b p := by
  have hprime : Prime (p : ℤ) := Nat.prime_iff_prime_int.mp hp
  have hdvd : ∀ (z : ℤ) (e : ℕ), ¬ (p : ℤ) ∣ z → ¬ (p : ℤ) ∣ powm z e p := by
    intro z e hz hpow
    apply hz
    apply hprime.dvd_of_dvd_pow
    exact (powm_modEq z e p).dvd_iff.mp hpow
  apply hdvd
  intro hmul
  rcases hprime.dvd_or_dvd hmul with hdvdA | hdvdv
  · exact hA hdvdA
  · exact hdvd v u hv hdvdv

/-- A server in the group of a prime, with the verifier 1, before the client's public value. -/
def awaiting (p : ℕ) : SrpServer where
  salt := []
  A := 0
  B := 0
  M := List.Vector.replicate hashsize 0#8
  H := List.Vector.replicate hashsize 0#8
  k := 3
  sessid := List.Vector.replicate hashsize 0#8
  user := []
  S := 0
  N := p
  g := 1
  phase := .phase2
  v := 1
  b := 0
  u := 0

theorem awaits_awaiting (hp : p.Prime) : Awaits p (awaiting p) := by
  refine ⟨rfl, rfl, ?_⟩
  intro hdvd
  exact hp.one_lt.ne' (by exact_mod_cast Int.natCast_dvd_natCast.mp hdvd |> Nat.dvd_one.mp)

/-- The check is of the integer: of the multiples of the prime it keeps out only zero. -/
theorem phase2_keepsOut_iff (hp : p.Prime) :
    KeepsOut env p A ↔ A = 0 ∨ ¬ (p : ℤ) ∣ A := by
  constructor
  · rintro ⟨hlets, -, -⟩
    by_cases hA : A = 0
    · exact Or.inl hA
    · right
      have haw := awaits_awaiting hp
      exact hlets _ _ 0 0 haw ((haw.letsThrough_iff hp).mpr ⟨hA, rfl⟩)
  · intro h
    have hsecret : ∀ s b u S, Awaits p s → Computes env s A b u S → ¬ (p : ℤ) ∣ S := by
      intro s b u S haw hcomp
      obtain ⟨hA, rfl⟩ := (haw.computes_iff hp).mp hcomp
      rw [haw.N]
      exact not_dvd_secret hp (h.resolve_left hA) haw.v b u
    refine ⟨?_, hsecret, ?_⟩
    · intro s s' b u haw hlets
      exact h.resolve_left ((haw.letsThrough_iff hp).mp hlets).1
    · rintro s s' b b' u u' haw - - - ⟨hcomp, -⟩
      exact hsecret s b u 0 haw hcomp (dvd_zero _)

theorem phase2_keepsOut_four : KeepsOut sampleEnv 23 4 := by
  apply (phase2_keepsOut_iff (by norm_num)).mpr
  right
  decide

/-- The prime itself is let through. -/
theorem phase2_prime : ¬ KeepsOut sampleEnv 23 23 := by
  rintro ⟨hlets, -, -⟩
  have haw : Awaits 23 (awaiting 23) := awaits_awaiting (by norm_num)
  apply hlets _ _ 0 0 haw ((haw.letsThrough_iff (by norm_num)).mpr ⟨by decide, rfl⟩)
  exact dvd_refl _

end

end Sfslite.Crypt
