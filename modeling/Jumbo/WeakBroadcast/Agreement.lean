import Jumbo.WeakBroadcast.Network

/-
  Agreement of the weak reliable broadcast.

  READYs alone decide it: a correct party sends one READY for
  a height, so two followers cannot decide two hashes, and a
  value is put out with the hash that has been decided.

  Main declarations:
    * `Paired`
    * `Net.Sound`
    * `Net.sound`
    * `Net.followers_agree`
-/

------------------------------------------------------------
-- Values and Decisions
------------------------------------------------------------

namespace Jumbo

namespace WeakBroadcast

open Protocol
open ReliableBroadcast (Bytes)

/- A value is put out with the decision for it. -/
def Config.Pairs (cfg : Config) (x : Val × Roundinfo) : Prop :=
  x.1.round = x.2.height ∧
    cfg.sha256 x.1.value = x.2.valuehash

/-
  What `handle_val` has made of the values and decisions that
  it has read.
-/
structure Paired
    (cfg : Config) (g : HandleVal) (vals : List Val)
    (infos : List Roundinfo) : Prop where
  buffered : ∀ val ∈ g.valbuf, val ∈ vals
  paired :
    ∃ done : List (Val × Roundinfo),
      infos = done.map Prod.snd ++ g.roundinfobuf ∧
        g.output =
            done.map (fun x => cfg.backBlock x.1 x.2) ∧
          ∀ x ∈ done, x.1 ∈ vals ∧ cfg.Pairs x
  echoed : ∀ x ∈ g.echoes, ∃ val ∈ vals, x = cfg.echo val

section Paired

variable {cfg : Config} {g g' : HandleVal}
variable {vals : List Val} {infos : List Roundinfo}

namespace HandleVal

/- What the loop takes from the front fits together. -/
theorem matching_pairs
    {valbuf valbuf' : List Val}
    {roundinfobuf roundinfobuf' : List Roundinfo}
    {output output' : List BackBlock}
    (hMatching :
      matching cfg valbuf roundinfobuf output =
        some (valbuf', roundinfobuf', output')) :
    ∃ done : List (Val × Roundinfo),
      valbuf = done.map Prod.fst ++ valbuf' ∧
        roundinfobuf = done.map Prod.snd ++ roundinfobuf' ∧
          output' =
              output ++
                done.map (fun x => cfg.backBlock x.1 x.2) ∧
            ∀ x ∈ done, cfg.Pairs x := by
  fun_induction matching cfg valbuf roundinfobuf output with
  | case1 val valbuf roundinfo roundinfobuf output hRound hHash
      ih =>
      rcases ih hMatching with
        ⟨done, rfl, rfl, rfl, hPairs⟩
      refine
        ⟨(val, roundinfo) :: done, rfl, rfl, ?_, ?_⟩
      · rw [List.map_cons, List.append_assoc]
        rfl
      · exact
          List.forall_mem_cons.mpr ⟨⟨hRound, hHash⟩, hPairs⟩
  | case2 => cases hMatching
  | case3 val valbuf roundinfo roundinfobuf output hRound =>
      cases hMatching
      exact
        ⟨[], rfl, rfl, (List.append_nil _).symm,
          List.forall_mem_nil _⟩
  | case4 valbuf roundinfobuf output hNone =>
      cases hMatching
      exact
        ⟨[], rfl, rfl, (List.append_nil _).symm,
          List.forall_mem_nil _⟩

/- The loop leaves the echoes alone. -/
theorem generate_echoes
    (hGenerate : g.generate cfg = some g') :
    g'.echoes = g.echoes := by
  rcases Option.map_eq_some_iff.mp hGenerate with
    ⟨x, _, rfl⟩
  rfl

/- A value of the round that is echoed is in the buffer. -/
theorem mem_echoRound
    {round : Int} {valbuf : List Val} {x : Int × Bytes}
    (hMem : x ∈ echoRound cfg round valbuf) :
    ∃ val ∈ valbuf, x = cfg.echo val := by
  induction valbuf with
  | nil => cases hMem
  | cons val valbuf ih =>
      unfold echoRound at hMem
      split at hMem
      · rename_i hRound
        rcases List.mem_cons.mp hMem with rfl | hRest
        · refine ⟨val, List.mem_cons_self, ?_⟩
          unfold Config.echo
          rw [hRound]
        · rcases ih hRest with ⟨other, hOther, hEq⟩
          exact ⟨other, List.mem_cons_of_mem _ hOther, hEq⟩
      · split at hMem
        · cases hMem
        · rcases ih hMem with ⟨other, hOther, hEq⟩
          exact ⟨other, List.mem_cons_of_mem _ hOther, hEq⟩

end HandleVal

theorem paired_new : Paired cfg HandleVal.new [] [] where
  buffered := List.forall_mem_nil _
  paired := ⟨[], rfl, rfl, List.forall_mem_nil _⟩
  echoed := List.forall_mem_nil _

/- An output has a value and a decision. -/
theorem Paired.generate
    (hPaired : Paired cfg g vals infos)
    (hGenerate : g.generate cfg = some g') :
    Paired cfg g' vals infos := by
  have hEchoes := HandleVal.generate_echoes hGenerate
  rcases Option.map_eq_some_iff.mp hGenerate with
    ⟨⟨valbuf, roundinfobuf, output⟩, hMatching, rfl⟩
  rcases HandleVal.matching_pairs hMatching with
    ⟨done, hVals, hInfos, hOutput, hPairs⟩
  rcases hPaired.paired with
    ⟨before, hBefore, hPutOut, hAll⟩
  have hBuffered := hPaired.buffered
  rw [hVals] at hBuffered
  refine
    { buffered := fun val hMem =>
        hBuffered val (List.mem_append_right _ hMem)
      paired := ⟨before ++ done, ?_, ?_, ?_⟩
      echoed := hPaired.echoed }
  · rw [hBefore, hInfos, List.map_append, List.append_assoc]
  · change output = _
    rw [hOutput, hPutOut, List.map_append]
  · intro x hMem
    rcases List.mem_append.mp hMem with hOld | hNew
    · exact hAll x hOld
    · refine ⟨?_, hPairs x hNew⟩
      apply hBuffered
      exact
        List.mem_append_left _ (List.mem_map_of_mem hNew)

/- Reading a value keeps them paired. -/
theorem Paired.readVal
    {val : Val} (hPaired : Paired cfg g vals infos)
    (hRead : g.readVal cfg val = some g') :
    Paired cfg g' (vals ++ [val]) infos := by
  refine Paired.generate ?_ hRead
  rcases hPaired.paired with ⟨done, hInfos, hOutput, hAll⟩
  refine
    { buffered := ?_
      paired := ⟨done, hInfos, hOutput, ?_⟩
      echoed := ?_ }
  · intro other hMem
    rcases List.mem_append.mp
        (List.mem_insertionSort _ |>.mp hMem) with
      hOld | hNew
    · exact
        List.mem_append_left _ (hPaired.buffered other hOld)
    · exact List.mem_append_right _ hNew
  · intro x hMem
    exact
      ⟨List.mem_append_left _ (hAll x hMem).1,
        (hAll x hMem).2⟩
  · intro x hMem
    dsimp only at hMem
    have hOld :
        x ∈ g.echoes →
          ∃ val' ∈ vals ++ [val], x = cfg.echo val' := by
      intro hIn
      rcases hPaired.echoed x hIn with ⟨old, hVal, hEq⟩
      exact ⟨old, List.mem_append_left _ hVal, hEq⟩
    split at hMem
    · rcases List.mem_append.mp hMem with hIn | hNew
      · exact hOld hIn
      · cases List.mem_singleton.mp hNew
        exact
          ⟨val, List.mem_append_right _
            (List.mem_singleton_self val), rfl⟩
    · exact hOld hMem

/- Reading a decision keeps them paired. -/
theorem Paired.readRoundinfo
    {roundinfo : Roundinfo}
    (hPaired : Paired cfg g vals infos)
    (hRead : g.readRoundinfo cfg roundinfo = some g') :
    Paired cfg g' vals (infos ++ [roundinfo]) := by
  refine Paired.generate ?_ hRead
  rcases hPaired.paired with ⟨done, hInfos, hOutput, hAll⟩
  refine
    { buffered := hPaired.buffered
      paired := ⟨done, ?_, hOutput, hAll⟩
      echoed := ?_ }
  · rw [hInfos, List.append_assoc]
  · intro x hMem
    rcases List.mem_append.mp hMem with hIn | hNew
    · exact hPaired.echoed x hIn
    · rcases HandleVal.mem_echoRound hNew with
        ⟨val, hVal, hEq⟩
      exact ⟨val, hPaired.buffered val hVal, hEq⟩

end Paired

end WeakBroadcast

end Jumbo

------------------------------------------------------------
-- What Is Kept
------------------------------------------------------------

namespace Jumbo

namespace WeakBroadcast

open Protocol
open Protocol.Relay
open ReliableBroadcast (Bytes threshold)

variable {n : Nat}

/- `auth` says of a READY that it is genuine. -/
structure PartyOk
    (cfg : Config) (auth : WRBCMsg n → Prop) (s : Party n)
    (announced : List (Nat × Bytes)) : Prop where
  follower : FollowerOk auth s.bcf announced
  paired :
    Paired cfg s.val s.vals (s.bcf.roundinfoCH.take s.taken)
  taken : s.taken ≤ s.bcf.roundinfoCH.length
  echoing : ∀ x ∈ s.echoing, x ∈ s.val.echoes

section Party

variable {cfg : Config} {auth auth' : WRBCMsg n → Prop}
variable {s s' : Party n} {announced : List (Nat × Bytes)}
variable {p : Fin n}

theorem partyOk_init :
    PartyOk cfg auth (Party.init n) [] where
  follower := followerOk_init
  paired := paired_new
  taken := Nat.le_refl _
  echoing := List.forall_mem_nil _

/- More votes keep a party backed. -/
theorem PartyOk.mono
    (hOk : PartyOk cfg auth s announced)
    (hAuth : ∀ msg, auth msg → auth' msg) :
    PartyOk cfg auth' s announced :=
  { hOk with follower := hOk.follower.mono hAuth }

/- ECHOs that are sent are of what has been read. -/
theorem mem_spawned
    {old new : HandleVal} {x : Int × Bytes}
    (hMem : x ∈ Party.spawned old new) : x ∈ new.echoes :=
  List.mem_of_mem_drop hMem

/- An ECHO that was sent stays sent. -/
theorem readVal_echoes
    {g g' : HandleVal} {val : Val}
    (hRead : g.readVal cfg val = some g') :
    ∀ x ∈ g.echoes, x ∈ g'.echoes := by
  intro x hMem
  rw [HandleVal.generate_echoes hRead]
  dsimp only
  split
  · exact List.mem_append_left _ hMem
  · exact hMem

/- So it is with a decision. -/
theorem readRoundinfo_echoes
    {g g' : HandleVal} {roundinfo : Roundinfo}
    (hRead : g.readRoundinfo cfg roundinfo = some g') :
    ∀ x ∈ g.echoes, x ∈ g'.echoes := by
  intro x hMem
  rw [HandleVal.generate_echoes hRead]
  exact List.mem_append_left _ hMem

/- Reading a value needs no vote. -/
theorem PartyOk.readVal
    {val : Val} (hOk : PartyOk cfg auth s announced)
    (hRead : s.readVal cfg val = some s') :
    PartyOk cfg auth s' announced := by
  rcases Option.map_eq_some_iff.mp hRead with ⟨g, hVal, rfl⟩
  refine
    { follower := hOk.follower
      paired := hOk.paired.readVal hVal
      taken := hOk.taken
      echoing := ?_ }
  intro x hMem
  rcases List.mem_append.mp hMem with hOld | hNew
  · exact readVal_echoes hVal x (hOk.echoing x hOld)
  · exact mem_spawned hNew

/- Reading a decision needs no new vote. -/
theorem PartyOk.readRoundinfo
    (hOk : PartyOk cfg auth s announced)
    (hRead : s.readRoundinfo cfg = some s') :
    PartyOk cfg auth s' announced := by
  unfold Party.readRoundinfo at hRead
  split at hRead
  · cases hRead
  · rename_i roundinfo hAt
    rcases Option.map_eq_some_iff.mp hRead with
      ⟨g, hInfo, rfl⟩
    refine
      { follower := hOk.follower
        paired := ?_
        taken := (List.getElem?_eq_some_iff.mp hAt).1
        echoing := ?_ }
    · dsimp only
      rw [List.take_add_one, hAt]
      exact hOk.paired.readRoundinfo hInfo
    · intro x hMem
      rcases List.mem_append.mp hMem with hOld | hNew
      · exact readRoundinfo_echoes hInfo x (hOk.echoing x hOld)
      · exact mem_spawned hNew

/- What has been decided stays decided. -/
theorem exec_roundinfoCH
    {s s' : BCF n} {action : BCFAction n}
    (hExec : s.exec p action = some s') :
    s.roundinfoCH <+: s'.roundinfoCH := by
  cases action with
  | readyIn msg =>
      dsimp only [BCF.exec] at hExec
      split at hExec
      · cases hExec
        exact List.prefix_refl _
      · cases hExec
        exact List.prefix_refl _
  | echoIn msg =>
      dsimp only [BCF.exec] at hExec
      split at hExec
      · cases hExec
        exact List.prefix_refl _
      · cases hExec
        exact List.prefix_refl _
  | sendEcho round hash =>
      cases hExec
      exact List.prefix_refl _
  | sendReady k =>
      rcases Option.bind_eq_some_iff.mp hExec with
        ⟨⟨height, hash⟩, _, hEq⟩
      cases hEq
      exact List.prefix_refl _
  | start =>
      dsimp only [BCF.exec] at hExec
      unfold BCF.start at hExec
      split at hExec
      · rcases Option.bind_eq_some_iff.mp hExec with
          ⟨echo, _, hEq⟩
        cases hEq
        exact List.prefix_refl _
      · rcases Option.bind_eq_some_iff.mp hExec with
          ⟨ready, _, hEq⟩
        cases hEq
        exact List.prefix_refl _
      · split at hExec
        · cases hExec
        · cases hExec
          exact List.prefix_refl _
      · split at hExec
        · cases hExec
        · cases hExec
          exact List.prefix_append _ _
      · rcases Option.bind_eq_some_iff.mp hExec with
          ⟨echo, _, hRest⟩
        rcases Option.bind_eq_some_iff.mp hRest with
          ⟨ready, _, hEq⟩
        cases hEq
        exact List.prefix_refl _
      · rcases Option.bind_eq_some_iff.mp hExec with
          ⟨echo, _, hRest⟩
        rcases Option.bind_eq_some_iff.mp hRest with
          ⟨ready, _, hEq⟩
        cases hEq
        exact List.prefix_refl _
  | echo i a =>
      rcases Option.bind_eq_some_iff.mp hExec with
        ⟨echo, _, hEq⟩
      cases hEq
      unfold BCF.signalled
      split
      · exact List.prefix_refl _
      · exact List.prefix_refl _
  | ready i a =>
      rcases Option.bind_eq_some_iff.mp hExec with
        ⟨ready, _, hEq⟩
      cases hEq
      unfold BCF.signalled
      split
      · exact List.prefix_refl _
      · exact List.prefix_refl _

/- Every step keeps a party backed. -/
theorem PartyOk.exec
    (hOk : PartyOk cfg auth s announced)
    (hOwn : ∀ x ∈ announced, auth ⟨p, x.1, x.2⟩)
    {action : BCFAction n} {bcf : BCF n}
    (hMsg : ∀ msg, action = .readyIn msg → auth msg)
    (hOnce :
      ∀ i, action = .ready i .work →
        (ballot n).countsOnce (readyHandler n) s.bcf.ready i =
          true)
    (hExec : s.bcf.exec p action = some bcf) :
    PartyOk cfg auth { s with bcf := bcf }
      (announced ++ s.bcf.announces action) := by
  have hPrefix := exec_roundinfoCH hExec
  have hTake :
      bcf.roundinfoCH.take s.taken =
        s.bcf.roundinfoCH.take s.taken := by
    rcases hPrefix with ⟨more, hMore⟩
    rw [← hMore, List.take_append_of_le_length hOk.taken]
  refine
    { follower := hOk.follower.exec hOwn hMsg hOnce hExec
      paired := ?_
      taken := hOk.taken.trans hPrefix.length_le
      echoing := hOk.echoing }
  dsimp only
  rw [hTake]
  exact hOk.paired

/- A block that is put out is of a value that has been read. -/
theorem PartyOk.output_at
    (hOk : PartyOk cfg auth s announced)
    {i : Nat} {block : BackBlock}
    (hAt : s.val.output[i]? = some block) :
    ∃ val ∈ s.vals, val.round = i ∧
      block = cfg.backBlock val ⟨i, cfg.sha256 val.value⟩ ∧
        Quorum auth (threshold n * 2 + 1) i
          (cfg.sha256 val.value) := by
  rcases hOk.paired.paired with ⟨done, hInfos, hOutput, hAll⟩
  rw [hOutput, List.getElem?_map] at hAt
  rcases Option.map_eq_some_iff.mp hAt with ⟨x, hx, rfl⟩
  rcases hAll x (List.mem_of_getElem? hx) with
    ⟨hIn, hRound, hHash⟩
  have hInfo : s.bcf.roundinfoCH[i]? = some x.2 := by
    have hTake :
        (s.bcf.roundinfoCH.take s.taken)[i]? = some x.2 := by
      rw [hInfos,
        List.getElem?_append_left (by
          rw [List.length_map]
          exact (List.getElem?_eq_some_iff.mp hx).1),
        List.getElem?_map, hx]
      rfl
    rw [List.getElem?_take] at hTake
    exact (Option.ite_none_right_eq_some.mp hTake).2
  rcases hOk.follower.infos i x.2 hInfo with
    ⟨hHeight, hQuorum⟩
  refine
    ⟨x.1, hIn, hRound.trans hHeight, ?_, ?_⟩
  · unfold Config.backBlock
    rw [hHeight]
  · rw [hHash]
    exact hQuorum

end Party

namespace Net

/- A READY of a correct party is one that it is ready for. -/
def voted
    (inst : Instance n) (net : Net n) (msg : WRBCMsg n) :
    Prop :=
  msg.id ∈ inst.byz ∨
    ∀ height : Nat, msg.round = height →
      (height, msg.content) ∈ net.announced msg.id

/- What each party knows is backed by votes. -/
structure Sound (inst : Instance n) (net : Net n) : Prop where
  party :
    ∀ p, inst.follows p = true →
      PartyOk inst.src.cfg (net.voted inst) (net.party p)
        (net.announced p)
  source :
    inst.src.nid ∉ inst.byz →
      ∀ x ∈ net.announced inst.src.nid,
        x.2 = inst.src.myhash x.1
  readying :
    inst.src.nid ∉ inst.byz →
      ∀ height ∈ net.leader.readying,
        (height, inst.src.myhash height) ∈
          net.announced inst.src.nid
  readies : ∀ msg ∈ net.readies, net.voted inst msg

section Sound

variable {inst : Instance n} {net net' : Net n} {p : Fin n}

/- Votes are only added. -/
theorem voted_mono
    (hGrows :
      ∀ j x, x ∈ net.announced j → x ∈ net'.announced j)
    {msg : WRBCMsg n} (hVoted : net.voted inst msg) :
    net'.voted inst msg :=
  hVoted.imp_right fun hAll height hRound =>
    hGrows _ _ (hAll height hRound)

/- What is announced is only added. -/
theorem grows_update
    (announced : Fin n → List (Nat × Bytes)) (p : Fin n)
    (new : List (Nat × Bytes)) :
    ∀ j x, x ∈ announced j →
      x ∈ Function.update announced p (announced p ++ new) j :=
    by
  intro j x hMem
  by_cases hSame : j = p
  · subst hSame
    rw [Function.update_self]
    exact List.mem_append_left _ hMem
  · rw [Function.update_of_ne hSame]
    exact hMem

/- A follower is correct and not the broadcaster. -/
theorem follows_iff :
    inst.follows p = true ↔
      p ∉ inst.byz ∧ p ≠ inst.src.nid := by
  unfold Instance.follows
  rw [decide_eq_true_eq]

theorem sound_init : (init inst).Sound inst where
  party _ _ := partyOk_init
  source _ := List.forall_mem_nil _
  readying _ := List.forall_mem_nil _
  readies := List.forall_mem_nil _

/- What a party has decided to be ready for is a vote. -/
theorem voted_own
    {x : Nat × Bytes} (hMem : x ∈ net.announced p) :
    net.voted inst ⟨p, x.1, x.2⟩ := by
  refine .inr fun height hRound => ?_
  have hEq : x.1 = height := Int.ofNat_inj.mp hRound
  rw [← hEq]
  exact hMem

/- The change of one party is looked at by itself. -/
theorem Sound.setParty
    (hSound : net.Sound inst) {s : Party n}
    (hOk :
      inst.follows p = true →
        PartyOk inst.src.cfg (net.voted inst) s
          (net.announced p)) :
    (net.setParty p s).Sound inst := by
  refine { hSound with party := ?_, readies := hSound.readies }
  intro q hFollows
  unfold Net.setParty
  dsimp only
  by_cases hSame : q = p
  · subst hSame
    rw [Function.update_self]
    exact hOk hFollows
  · rw [Function.update_of_ne hSame]
    exact hSound.party q hFollows

/- The READYs of a step are of what is announced. -/
theorem mem_readies
    {bcf : BCF n} {announced : List (Nat × Bytes)}
    {action : BCFAction n} {msg : WRBCMsg n}
    (hReadying : ∀ x ∈ bcf.readying, x ∈ announced)
    (hMem : msg ∈ bcf.readies p action) :
    ∃ x ∈ announced, msg = ⟨p, x.1, x.2⟩ := by
  unfold BCF.readies at hMem
  split at hMem
  · rename_i k
    rcases List.mem_map.mp hMem with ⟨x, hx, rfl⟩
    have hAt := Option.mem_toList.mp hx
    exact
      ⟨x, hReadying x (List.mem_of_getElem? hAt), rfl⟩
  · cases hMem

/- A step of a follower keeps the votes behind it. -/
theorem Sound.stepFollower
    (hSound : net.Sound inst) {action : BCFAction n}
    (hMsg :
      ∀ msg, action = .readyIn msg → net.voted inst msg)
    (hOnce :
      ∀ i, action = .ready i .work →
        (ballot n).countsOnce (readyHandler n)
          (net.party p).bcf.ready i = true)
    (hExec : net.stepFollower inst p action = some net') :
    net'.Sound inst := by
  rcases Option.ite_none_right_eq_some.mp hExec with
    ⟨hFollows, hMap⟩
  rcases Option.map_eq_some_iff.mp hMap with
    ⟨bcf, hBcf, rfl⟩
  rcases follows_iff.mp hFollows with ⟨hCorrect, hNotLeader⟩
  have hOk := hSound.party p hFollows
  have hGrows :=
    grows_update net.announced p
      ((net.party p).bcf.announces action)
  have hNext :=
    hOk.exec (fun x hMem => voted_own hMem) hMsg hOnce hBcf
  have hSame :
      Function.update net.announced p
          (net.announced p ++
            (net.party p).bcf.announces action)
          inst.src.nid =
        net.announced inst.src.nid :=
    Function.update_of_ne hNotLeader.symm _ _
  refine
    { party := ?_
      source := ?_
      readying := ?_
      readies := ?_ }
  · intro q hOther
    unfold Net.setParty
    dsimp only
    by_cases hEq : q = p
    · subst hEq
      rw [Function.update_self, Function.update_self]
      exact hNext.mono fun msg hVoted => voted_mono hGrows hVoted
    · rw [Function.update_of_ne hEq, Function.update_of_ne hEq]
      exact
        (hSound.party q hOther).mono
          fun msg hVoted => voted_mono hGrows hVoted
  · dsimp only
    rw [hSame]
    exact hSound.source
  · dsimp only
    rw [hSame]
    exact hSound.readying
  · intro msg hMem
    rcases List.mem_append.mp hMem with hOld | hNew
    · exact voted_mono hGrows (hSound.readies msg hOld)
    · rcases mem_readies hOk.follower.readying hNew with
        ⟨x, hx, rfl⟩
      exact voted_mono hGrows (voted_own hx)

end Sound

end Net

end WeakBroadcast

end Jumbo

------------------------------------------------------------
-- Every Run
------------------------------------------------------------

namespace Jumbo

namespace WeakBroadcast

open Protocol
open Protocol.Relay
open ReliableBroadcast (Bytes threshold)

variable {n : Nat}

/- Lists that are the same where both are. -/
theorem prefix_of_same
    {α : Type*} {l l' : List α}
    (hSame :
      ∀ (i : Nat) a a',
        l[i]? = some a → l'[i]? = some a' → a = a') :
    l <+: l' ∨ l' <+: l := by
  rcases Nat.le_total l.length l'.length with hLe | hLe
  · left
    rw [List.prefix_iff_getElem?]
    intro i hi
    have hAt := List.getElem?_eq_getElem (hi.trans_le hLe)
    rw [hAt, hSame i _ _ (List.getElem?_eq_getElem hi) hAt]
  · right
    rw [List.prefix_iff_getElem?]
    intro i hi
    have hAt := List.getElem?_eq_getElem (hi.trans_le hLe)
    rw [hAt, hSame i _ _ hAt (List.getElem?_eq_getElem hi)]

section Leader

variable {src : Source n} {s s' : BCL n} {action : BCLAction n}

/- The goroutines that send READY are for what is announced. -/
theorem start_readying (hExec : s.start src = some s') :
    ∀ height ∈ s'.readying,
      height ∈ s.readying ∨
        (height, src.myhash height) ∈ s.announces src .start := by
  intro height hMem
  unfold BCL.start at hExec
  split at hExec
  · cases hExec
    exact .inl hMem
  · rcases Option.bind_eq_some_iff.mp hExec with
      ⟨echo, _, hEq⟩
    cases hEq
    exact .inl hMem
  · rcases Option.bind_eq_some_iff.mp hExec with
      ⟨ready, _, hEq⟩
    cases hEq
    exact .inl hMem
  · rename_i hPc
    rcases Option.ite_none_left_eq_some.mp hExec with
      ⟨hSignal, hEq⟩
    cases hEq
    rcases List.mem_append.mp hMem with hOld | hNew
    · exact .inl hOld
    · cases List.mem_singleton.mp hNew
      right
      unfold BCL.announces
      rw [if_pos ⟨hPc, hSignal⟩]
      exact List.mem_singleton_self _
  · rcases Option.ite_none_left_eq_some.mp hExec with
      ⟨_, hEq⟩
    cases hEq
    exact .inl hMem
  · rcases Option.bind_eq_some_iff.mp hExec with
      ⟨echo, _, hRest⟩
    rcases Option.bind_eq_some_iff.mp hRest with
      ⟨ready, _, hEq⟩
    cases hEq
    exact .inl hMem
  · rcases Option.bind_eq_some_iff.mp hExec with
      ⟨echo, _, hRest⟩
    rcases Option.bind_eq_some_iff.mp hRest with
      ⟨ready, _, hEq⟩
    cases hEq
    exact .inl hMem

/- The leader sends READY for what it has announced. -/
theorem exec_readying (hExec : s.exec src action = some s') :
    ∀ height ∈ s'.readying,
      height ∈ s.readying ∨
        (height, src.myhash height) ∈
          s.announces src action := by
  cases action with
  | readyIn msg =>
      dsimp only [BCL.exec] at hExec
      split at hExec
      · cases hExec
        exact fun _ => .inl
      · cases hExec
        exact fun _ => .inl
  | echoIn msg =>
      dsimp only [BCL.exec] at hExec
      split at hExec
      · cases hExec
        exact fun _ => .inl
      · cases hExec
        exact fun _ => .inl
  | sendVal k =>
      rcases Option.bind_eq_some_iff.mp hExec with
        ⟨height, _, hSent⟩
      rcases Option.ite_none_left_eq_some.mp hSent with
        ⟨_, hEq⟩
      cases hEq
      exact fun _ => .inl
  | sendEcho k =>
      rcases Option.bind_eq_some_iff.mp hExec with
        ⟨height, _, hEq⟩
      cases hEq
      exact fun _ => .inl
  | sendReady k =>
      rcases Option.bind_eq_some_iff.mp hExec with
        ⟨height, _, hEq⟩
      cases hEq
      exact fun _ hMem => .inl (List.mem_of_mem_eraseIdx hMem)
  | start => exact start_readying hExec
  | echo i a =>
      rcases Option.bind_eq_some_iff.mp hExec with
        ⟨echo, _, hEq⟩
      cases hEq
      unfold BCL.signalled
      split
      · exact fun _ => .inl
      · exact fun _ => .inl
  | ready i a =>
      rcases Option.bind_eq_some_iff.mp hExec with
        ⟨ready, _, hEq⟩
      cases hEq
      unfold BCL.signalled
      split
      · exact fun _ => .inl
      · exact fun _ => .inl

/- The leader announces its own hash. -/
theorem announces_eq
    {x : Nat × Bytes} (hMem : x ∈ s.announces src action) :
    x.2 = src.myhash x.1 := by
  unfold BCL.announces at hMem
  split at hMem
  · split at hMem
    · cases List.mem_singleton.mp hMem
      rfl
    · cases hMem
  · cases hMem

/- A READY of the leader is for its own hash. -/
theorem mem_leader_readies
    {msg : WRBCMsg n} (hMem : msg ∈ s.readies src action) :
    ∃ height ∈ s.readying, msg = src.vote height := by
  unfold BCL.readies at hMem
  split at hMem
  · rcases List.mem_map.mp hMem with ⟨height, hAt, rfl⟩
    exact
      ⟨height,
        List.mem_of_getElem? (Option.mem_toList.mp hAt), rfl⟩
  · cases hMem

end Leader

namespace Net

section Run

variable {inst : Instance n} {net net' : Net n} {p : Fin n}

/- A step of the leader keeps the votes behind it. -/
theorem Sound.stepLeader
    (hSound : net.Sound inst) {action : BCLAction n}
    (hExec : net.stepLeader inst action = some net') :
    net'.Sound inst := by
  rcases Option.ite_none_right_eq_some.mp hExec with
    ⟨hCorrect, hMap⟩
  rcases Option.map_eq_some_iff.mp hMap with
    ⟨leader, hLeader, rfl⟩
  have hGrows :=
    grows_update net.announced inst.src.nid
      (net.leader.announces inst.src action)
  refine
    { party := ?_
      source := ?_
      readying := ?_
      readies := ?_ }
  · intro q hFollows
    rcases follows_iff.mp hFollows with ⟨_, hNot⟩
    dsimp only
    rw [Function.update_of_ne hNot]
    exact
      (hSound.party q hFollows).mono
        fun msg hVoted => voted_mono hGrows hVoted
  · intro _ x hMem
    dsimp only at hMem
    rw [Function.update_self] at hMem
    rcases List.mem_append.mp hMem with hOld | hNew
    · exact hSound.source hCorrect x hOld
    · exact announces_eq hNew
  · intro _ height hMem
    dsimp only
    rw [Function.update_self]
    rcases exec_readying hLeader height hMem with hOld | hNew
    · exact
        List.mem_append_left _
          (hSound.readying hCorrect height hOld)
    · exact List.mem_append_right _ hNew
  · intro msg hMem
    rcases List.mem_append.mp hMem with hOld | hNew
    · exact voted_mono hGrows (hSound.readies msg hOld)
    · rcases mem_leader_readies hNew with ⟨height, hIn, rfl⟩
      exact
        voted_mono hGrows
          (voted_own (hSound.readying hCorrect height hIn))

/- Messages are added, and nothing else changes. -/
theorem Sound.post
    (hSound : net.Sound inst) (vals : List (Fin n × Val))
    (echoes readies : List (WRBCMsg n))
    (hReadies : ∀ msg ∈ readies, net.voted inst msg) :
    Sound inst
      { net with
        vals := vals, echoes := echoes, readies := readies } :=
  { hSound with readies := hReadies }

/- Every step keeps them, if nobody is counted twice. -/
theorem Sound.exec
    (hSound : net.Sound inst) {a : NetAction n}
    (hSingle : net.single a = true)
    (hExec : net.exec inst a = some net') :
    net'.Sound inst := by
  unfold Net.exec at hExec
  cases a with
  | forgeVal j val =>
      rcases Option.ite_none_right_eq_some.mp hExec with
        ⟨_, hEq⟩
      cases hEq
      exact hSound.post _ _ _ hSound.readies
  | forgeEcho msg =>
      rcases Option.ite_none_right_eq_some.mp hExec with
        ⟨_, hEq⟩
      cases hEq
      exact hSound.post _ _ _ hSound.readies
  | forgeReady msg =>
      rcases Option.ite_none_right_eq_some.mp hExec with
        ⟨hByz, hEq⟩
      cases hEq
      apply hSound.post
      intro other hMem
      rcases List.mem_append.mp hMem with hOld | hNew
      · exact hSound.readies other hOld
      · cases List.mem_singleton.mp hNew
        exact .inl hByz
  | deliverVal p k =>
      dsimp only at hExec
      split at hExec
      · cases hExec
      · rcases Option.ite_none_right_eq_some.mp hExec with
          ⟨hFollows, hMap⟩
        rcases Option.map_eq_some_iff.mp hMap with
          ⟨s, hRead, rfl⟩
        exact
          hSound.setParty fun _ =>
            (hSound.party p hFollows).readVal hRead
  | deliverEcho p k =>
      dsimp only at hExec
      split at hExec
      · cases hExec
      · unfold Net.arrive at hExec
        split at hExec
        · exact hSound.stepLeader hExec
        · refine hSound.stepFollower ?_ ?_ hExec
          · intro msg hEq
            cases hEq
          · intro i hEq
            cases hEq
  | deliverReady p k =>
      dsimp only at hExec
      split at hExec
      · cases hExec
      · rename_i msg hAt
        unfold Net.arrive at hExec
        split at hExec
        · exact hSound.stepLeader hExec
        · refine hSound.stepFollower ?_ ?_ hExec
          · intro other hEq
            cases hEq
            exact hSound.readies msg (List.mem_of_getElem? hAt)
          · intro i hEq
            cases hEq
  | leader action =>
      rcases Option.ite_none_right_eq_some.mp hExec with
        ⟨_, hStep⟩
      exact hSound.stepLeader hStep
  | follower p action =>
      rcases Option.ite_none_right_eq_some.mp hExec with
        ⟨hOwn, hStep⟩
      refine hSound.stepFollower ?_ ?_ hStep
      · rintro msg rfl
        cases hOwn
      · rintro i rfl
        exact hSingle
  | roundinfo p =>
      rcases Option.ite_none_right_eq_some.mp hExec with
        ⟨hFollows, hMap⟩
      rcases Option.map_eq_some_iff.mp hMap with
        ⟨s, hRead, rfl⟩
      exact
        hSound.setParty fun _ =>
          (hSound.party p hFollows).readRoundinfo hRead
  | sendEcho p k =>
      dsimp only at hExec
      split at hExec
      · cases hExec
      · rcases Option.map_eq_some_iff.mp hExec with
          ⟨net', hStep, rfl⟩
        have hNext : net'.Sound inst := by
          refine hSound.stepFollower ?_ ?_ hStep
          · intro msg hEq
            cases hEq
          · intro i hEq
            cases hEq
        have hSame :
            (net'.party p).val = (net.party p).val ∧
              (net'.party p).echoing =
                (net.party p).echoing := by
          rcases Option.ite_none_right_eq_some.mp hStep with
            ⟨_, hMap⟩
          rcases Option.map_eq_some_iff.mp hMap with
            ⟨bcf, _, rfl⟩
          unfold Net.setParty
          dsimp only
          rw [Function.update_self]
          exact ⟨rfl, rfl⟩
        refine Sound.post (hNext.setParty ?_) _ _ _ hNext.readies
        intro hFollows
        have hOk := hNext.party p hFollows
        refine { hOk with echoing := ?_ }
        intro x hMem
        apply hOk.echoing
        rw [hSame.2]
        exact List.mem_of_mem_eraseIdx hMem

/- It holds in every such run. -/
theorem sound
    (hReach :
      (network inst).ReachableBy
        (fun net a => net.single a = true) net) :
    net.Sound inst :=
  hReach.invariant (Sound inst) sound_init
    fun _ _ _ _ hSound hSingle hExec =>
      hSound.exec hSingle hExec

/- The values that correct followers have read. -/
def read (inst : Instance n) (net : Net n) : Set Bytes :=
  { value | ∃ p, inst.follows p = true ∧
      ∃ val ∈ (net.party p).vals, val.value = value }

/- A correct party votes once at a height. -/
theorem Sound.voted_once
    (hSound : net.Sound inst) {j : Fin n} (hj : j ∉ inst.byz)
    {height : Nat} {hash hash' : Bytes}
    (hVoted : net.voted inst ⟨j, height, hash⟩)
    (hVoted' : net.voted inst ⟨j, height, hash'⟩) :
    hash = hash' := by
  have hIn := hVoted.resolve_left hj height rfl
  have hIn' := hVoted'.resolve_left hj height rfl
  by_cases hLeader : j = inst.src.nid
  · subst hLeader
    exact
      (hSound.source hj _ hIn).trans
        (hSound.source hj _ hIn').symm
  · have hOk :=
      (hSound.party j (follows_iff.mpr ⟨hj, hLeader⟩)).follower
    exact congrArg Prod.snd (hOk.once _ hIn _ hIn' rfl)

/-
  Whoever is Byzantine, the broadcaster or followers: what two
  correct followers put out is the same as far as both have
  come.
-/
theorem followers_agree
    {f : Nat} (hSize : n = 3 * f + 1)
    (hByz : inst.byz.card ≤ f)
    (hReach :
      (network inst).ReachableBy
        (fun net a => net.single a = true) net)
    (hInj : Set.InjOn inst.src.cfg.sha256 (net.read inst))
    {p q : Fin n} (hp : inst.follows p = true)
    (hq : inst.follows q = true) :
    (net.party p).val.output <+: (net.party q).val.output ∨
      (net.party q).val.output <+:
        (net.party p).val.output := by
  have hSound := sound hReach
  have hSame :
      ∀ (i : Nat) block block',
        (net.party p).val.output[i]? = some block →
          (net.party q).val.output[i]? = some block' →
            block = block' := by
    intro i block block' hBlock hBlock'
    rcases (hSound.party p hp).output_at hBlock with
      ⟨val, hVal, _, rfl, hQuorum⟩
    rcases (hSound.party q hq).output_at hBlock' with
      ⟨val', hVal', _, rfl, hQuorum'⟩
    have hHash :=
      Quorum.unique hSize hByz
        (fun j hj => hSound.voted_once hj) hQuorum hQuorum'
    have hValue :=
      hInj ⟨p, hp, val, hVal, rfl⟩ ⟨q, hq, val', hVal', rfl⟩
        hHash
    unfold Config.backBlock
    rw [hValue]
  exact prefix_of_same hSame

end Run

end Net

------------------------------------------------------------
-- One Height
------------------------------------------------------------

/- Party 3 is Byzantine, party 0 broadcasts. -/
def fourInstance : Instance 4 where
  src :=
    { cfg := { sha256 := id, lid := 1, sid := 1 }
      nid := 0
      inputs := fun height =>
        List.replicate 10 (UInt8.ofNat height) }
  byz := {3}

/- A handler of the first height reads three messages. -/
def readThree
    (p : Fin 4) (handler : Act → BCFAction 4) :
    List (NetAction 4) :=
  (List.replicate 3
    [handler .check, handler (.receive .incoming),
      handler .work]).flatten.map (.follower p)

/- Party 2 has decided, party 1 has also put out a block. -/
def fourRun : List (NetAction 4) :=
  ([.leader .start, .leader (.sendVal 0),
    .leader (.sendEcho 0), .deliverVal 1 0, .deliverVal 2 0,
    .sendEcho 1 0, .sendEcho 2 0, .forgeReady ⟨3, 0, fourInstance.src.myhash 0⟩,
    .follower 1 .start, .follower 1 .start,
    .follower 1 .start, .follower 1 .start,
    .follower 2 .start, .follower 2 .start,
    .follower 2 .start, .follower 2 .start,
    .deliverEcho 1 0, .deliverEcho 1 2, .deliverEcho 2 0,
    .deliverEcho 2 1] : List (NetAction 4)) ++
    readThree 1 (.echo 0) ++ readThree 2 (.echo 0) ++
    ([.follower 1 .start, .follower 1 (.sendReady 0),
      .follower 2 .start, .follower 2 (.sendReady 0),
      .deliverReady 1 0, .deliverReady 1 2,
      .deliverReady 2 0,
      .deliverReady 2 1] : List (NetAction 4)) ++
    readThree 1 (.ready 0) ++ readThree 2 (.ready 0) ++
    ([.follower 1 .start, .roundinfo 1,
      .follower 2 .start] : List (NetAction 4))

/- Where that run ends. -/
def fourNet : Net 4 :=
  (network fourInstance).drive
    (fun net a => net.faithful fourInstance a)
    (network fourInstance).init fourRun

/- All its steps are faithful. -/
theorem fourNet_faithful :
    (network fourInstance).ReachableBy
      (fun net a => net.faithful fourInstance a = true)
      fourNet :=
  Machine.ReachableBy.drive .init fourRun

/- A block is put out, and a decision waits. -/
theorem fourNet_spec :
    (fourNet.party 1).val.output.length = 1 ∧
      (fourNet.party 2).bcf.roundinfoCH[
          (fourNet.party 2).taken]? =
        some ⟨0, fourInstance.src.myhash 0⟩ := by
  decide +kernel

/- Two followers agree there. -/
theorem followers_agree_four :
    (fourNet.party 1).val.output <+:
        (fourNet.party 2).val.output ∨
      (fourNet.party 2).val.output <+:
        (fourNet.party 1).val.output :=
  @Net.followers_agree 4 fourInstance fourNet 1 rfl
    (Nat.le_refl 1)
    (fourNet_faithful.mono fun _ _ hFaithful =>
      (Bool.and_eq_true_iff.mp hFaithful).1)
    (fun _ _ _ _ hEq => hEq) 1 2 (by decide) (by decide)

end WeakBroadcast

end Jumbo
