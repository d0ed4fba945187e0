import Jumbo.WeakBroadcast.Agreement

/-
  Validity of the weak reliable broadcast.

  A correct broadcaster echoes and is ready for its own hash.
  Followers that read its values only echo the same, so more
  than a third never echoes or is ready for anything else, and
  what followers decide and put out is what it broadcasts.

  Main declarations:
    * `Instance.rightly`
    * `Net.Valid`
    * `Net.valid`
    * `Net.followers_valid`
    * `Net.never_wrong`
-/

------------------------------------------------------------
-- What Is Echoed
------------------------------------------------------------

namespace Jumbo

namespace WeakBroadcast

open Protocol
open Protocol.Relay
open ReliableBroadcast (Bytes threshold)

variable {n : Nat}

/- The vote of a correct party is for the right hash. -/
def Instance.rightly
    (inst : Instance n) (msg : WRBCMsg n) : Prop :=
  msg.id ∈ inst.byz ∨
    ∀ height : Nat, msg.round = height →
      msg.content = inst.src.myhash height

section Rightly

variable {inst : Instance n} {height : Nat} {hash : Bytes}

/- The broadcaster votes rightly for itself. -/
theorem rightly_own (j : Fin n) (height : Nat) :
    inst.rightly ⟨j, height, inst.src.myhash height⟩ := by
  refine .inr fun other hRound => ?_
  have hEq : height = other := Int.ofNat_inj.mp hRound
  rw [← hEq]

/- More than the Byzantine parties vote for the right hash. -/
theorem Quorum.right
    {k : Nat} (hByz : inst.byz.card < k)
    (hQuorum : Quorum inst.rightly k height hash) :
    hash = inst.src.myhash height := by
  rcases hQuorum.correct hByz with ⟨j, hCorrect, hRightly⟩
  exact hRightly.resolve_left hCorrect height rfl

/- What is justified is the broadcaster's hash. -/
theorem Justified.right
    {f : Nat} (hSize : n = 3 * f + 1)
    (hByz : inst.byz.card ≤ f)
    (hJustified :
      Justified inst.rightly inst.rightly height hash) :
    hash = inst.src.myhash height := by
  have hThreshold : threshold n = f := by
    unfold threshold
    omega
  rcases hJustified with hEcho | hReady
  · exact hEcho.right (by omega)
  · exact hReady.right (by omega)

end Rightly

namespace Net

/- With a correct broadcaster, whose values alone are read. -/
structure Valid (inst : Instance n) (net : Net n) : Prop where
  vals :
    ∀ x ∈ net.vals, x.1 = inst.src.nid →
      ∃ height, x.2 = inst.src.val height
  read :
    ∀ p, inst.follows p = true →
      ∀ val ∈ (net.party p).vals,
        ∃ height, val = inst.src.val height
  echoes : ∀ msg ∈ net.echoes, inst.rightly msg
  justifies :
    ∀ p, inst.follows p = true →
      Justifies inst.rightly inst.rightly (net.party p).bcf
        (net.announced p)

section Valid

variable {inst : Instance n} {net net' : Net n} {p : Fin n}
variable {f : Nat}

/- At the start there is no vote. -/
theorem valid_init : (init inst).Valid inst where
  vals := List.forall_mem_nil _
  read _ _ := List.forall_mem_nil _
  echoes := List.forall_mem_nil _
  justifies _ _ := justifies_init

/- Nobody correct is ready for anything else. -/
theorem Valid.announced
    (hSize : n = 3 * f + 1) (hByz : inst.byz.card ≤ f)
    (hSound : net.Sound inst) (hValid : net.Valid inst)
    (hp : p ∉ inst.byz) {x : Nat × Bytes}
    (hMem : x ∈ net.announced p) :
    x.2 = inst.src.myhash x.1 := by
  by_cases hLeader : p = inst.src.nid
  · subst hLeader
    exact hSound.source hp x hMem
  · have hJust :=
      hValid.justifies p (follows_iff.mpr ⟨hp, hLeader⟩)
    exact (hJust.announced x hMem).right hSize hByz

/- All votes are for the broadcaster's hash. -/
theorem Valid.rightly
    (hSize : n = 3 * f + 1) (hByz : inst.byz.card ≤ f)
    (hSound : net.Sound inst) (hValid : net.Valid inst)
    {msg : WRBCMsg n} (hVoted : net.voted inst msg) :
    inst.rightly msg := by
  by_cases hCorrect : msg.id ∈ inst.byz
  · exact .inl hCorrect
  · refine .inr fun height hRound => ?_
    have hIn := hVoted.resolve_left hCorrect height hRound
    exact hValid.announced hSize hByz hSound hCorrect hIn

/- The ECHOs of a follower are of values it has read. -/
theorem Valid.echoing
    (hSound : net.Sound inst) (hValid : net.Valid inst)
    (hFollows : inst.follows p = true) {x : Int × Bytes}
    (hMem : x ∈ (net.party p).echoing) :
    inst.rightly ⟨p, x.1, x.2⟩ := by
  have hOk := hSound.party p hFollows
  rcases hOk.paired.echoed x (hOk.echoing x hMem) with
    ⟨val, hVal, rfl⟩
  rcases hValid.read p hFollows val hVal with ⟨height, rfl⟩
  exact rightly_own p height

/- The broadcaster sends what it broadcasts. -/
theorem leader_vals
    {src : Source n} {s : BCL n} {action : BCLAction n}
    {val : Val} (hMem : val ∈ s.vals src action) :
    ∃ height, val = src.val height := by
  unfold BCL.vals at hMem
  split at hMem
  · rcases List.mem_map.mp hMem with ⟨height, _, rfl⟩
    exact ⟨height, rfl⟩
  · cases hMem

/- An ECHO of the leader is for its own hash. -/
theorem leader_echoes
    {src : Source n} {s : BCL n} {action : BCLAction n}
    {msg : WRBCMsg n} (hMem : msg ∈ s.echoes src action) :
    ∃ height, msg = src.vote height := by
  unfold BCL.echoes at hMem
  split at hMem
  · rcases List.mem_map.mp hMem with ⟨height, _, rfl⟩
    exact ⟨height, rfl⟩
  · cases hMem

/- A step of the leader keeps this. -/
theorem Valid.stepLeader
    (hValid : net.Valid inst) {action : BCLAction n}
    (hExec : net.stepLeader inst action = some net') :
    net'.Valid inst := by
  rcases Option.ite_none_right_eq_some.mp hExec with
    ⟨_, hMap⟩
  rcases Option.map_eq_some_iff.mp hMap with
    ⟨leader, _, rfl⟩
  refine
    { vals := ?_
      read := hValid.read
      echoes := ?_
      justifies := ?_ }
  · intro x hMem hFrom
    rcases List.mem_append.mp hMem with hOld | hNew
    · exact hValid.vals x hOld hFrom
    · rcases List.mem_map.mp hNew with ⟨val, hVal, rfl⟩
      exact leader_vals hVal
  · intro msg hMem
    rcases List.mem_append.mp hMem with hOld | hNew
    · exact hValid.echoes msg hOld
    · rcases leader_echoes hNew with ⟨height, rfl⟩
      exact rightly_own inst.src.nid height
  · intro q hFollows
    rcases follows_iff.mp hFollows with ⟨_, hNot⟩
    dsimp only
    rw [Function.update_of_ne hNot]
    exact hValid.justifies q hFollows

/- A step of a follower keeps this. -/
theorem Valid.stepFollower
    (hSize : n = 3 * f + 1) (hByz : inst.byz.card ≤ f)
    (hSound : net.Sound inst) (hValid : net.Valid inst)
    {action : BCFAction n}
    (hEcho :
      ∀ msg,
        (action = .echoIn msg ∨
          action = .sendEcho msg.round msg.content ∧
            msg.id = p) → inst.rightly msg)
    (hOnce :
      ∀ i, action = .ready i .work →
        (ballot n).countsOnce (readyHandler n)
          (net.party p).bcf.ready i = true)
    (hEchoOnce :
      ∀ i, action = .echo i .work →
        (ballot n).countsOnce (echoHandler n)
          (net.party p).bcf.echo i = true)
    (hExec : net.stepFollower inst p action = some net') :
    net'.Valid inst := by
  rcases Option.ite_none_right_eq_some.mp hExec with
    ⟨hFollows, hMap⟩
  rcases Option.map_eq_some_iff.mp hMap with
    ⟨bcf, hBcf, rfl⟩
  have hOk :
      FollowerOk inst.rightly (net.party p).bcf
        (net.announced p) :=
    (hSound.party p hFollows).follower.mono
      fun msg hVoted => hValid.rightly hSize hByz hSound hVoted
  have hNext :=
    (hValid.justifies p hFollows).exec hOk hEcho hOnce
      hEchoOnce hBcf
  refine
    { vals := hValid.vals
      read := ?_
      echoes := hValid.echoes
      justifies := ?_ }
  · intro q hOther
    unfold Net.setParty
    dsimp only
    by_cases hEq : q = p
    · subst hEq
      rw [Function.update_self]
      exact hValid.read q hOther
    · rw [Function.update_of_ne hEq]
      exact hValid.read q hOther
  · intro q hOther
    unfold Net.setParty
    dsimp only
    by_cases hEq : q = p
    · subst hEq
      rw [Function.update_self, Function.update_self]
      exact hNext
    · rw [Function.update_of_ne hEq, Function.update_of_ne hEq]
      exact hValid.justifies q hOther

/- `handle_val` reads; the broadcaster's values only. -/
theorem Valid.setParty
    (hValid : net.Valid inst) {s : Party n}
    (hBcf : s.bcf = (net.party p).bcf)
    (hVals :
      ∀ val ∈ s.vals,
        val ∈ (net.party p).vals ∨
          ∃ height, val = inst.src.val height) :
    (net.setParty p s).Valid inst := by
  refine
    { vals := hValid.vals
      read := ?_
      echoes := hValid.echoes
      justifies := ?_ }
  · intro q hFollows
    unfold Net.setParty
    dsimp only
    by_cases hEq : q = p
    · subst hEq
      rw [Function.update_self]
      intro val hMem
      rcases hVals val hMem with hOld | hNew
      · exact hValid.read q hFollows val hOld
      · exact hNew
    · rw [Function.update_of_ne hEq]
      exact hValid.read q hFollows
  · intro q hFollows
    unfold Net.setParty
    dsimp only
    by_cases hEq : q = p
    · subst hEq
      rw [Function.update_self, hBcf]
      exact hValid.justifies q hFollows
    · rw [Function.update_of_ne hEq]
      exact hValid.justifies q hFollows

/- Messages of correct parties keep this. -/
theorem Valid.post
    (hValid : net.Valid inst) {vals : List (Fin n × Val)}
    {echoes : List (WRBCMsg n)} (readies : List (WRBCMsg n))
    (hVals :
      ∀ x ∈ vals, x.1 = inst.src.nid →
        ∃ height, x.2 = inst.src.val height)
    (hEchoes : ∀ msg ∈ echoes, inst.rightly msg) :
    Valid inst
      { net with
        vals := vals, echoes := echoes, readies := readies } :=
  { hValid with vals := hVals, echoes := hEchoes }

/- Every faithful step keeps this. -/
theorem Valid.exec
    (hSize : n = 3 * f + 1) (hByz : inst.byz.card ≤ f)
    (hCorrect : inst.src.nid ∉ inst.byz)
    (hSound : net.Sound inst) (hValid : net.Valid inst)
    {a : NetAction n} (hFaithful : net.faithful inst a = true)
    (hExec : net.exec inst a = some net') :
    net'.Valid inst := by
  rcases Bool.and_eq_true_iff.mp hFaithful with
    ⟨hSingle, hFaithful⟩
  unfold Net.exec at hExec
  cases a with
  | forgeVal j val =>
      rcases Option.ite_none_right_eq_some.mp hExec with
        ⟨hForged, hEq⟩
      cases hEq
      refine hValid.post _ ?_ hValid.echoes
      intro x hMem hFrom
      rcases List.mem_append.mp hMem with hOld | hNew
      · exact hValid.vals x hOld hFrom
      · cases List.mem_singleton.mp hNew
        cases hFrom
        exact absurd hForged hCorrect
  | forgeEcho msg =>
      rcases Option.ite_none_right_eq_some.mp hExec with
        ⟨hForged, hEq⟩
      cases hEq
      refine hValid.post _ hValid.vals ?_
      intro other hMem
      rcases List.mem_append.mp hMem with hOld | hNew
      · exact hValid.echoes other hOld
      · cases List.mem_singleton.mp hNew
        exact .inl hForged
  | forgeReady msg =>
      rcases Option.ite_none_right_eq_some.mp hExec with
        ⟨_, hEq⟩
      cases hEq
      exact hValid.post _ hValid.vals hValid.echoes
  | deliverVal p k =>
      dsimp only at hExec hFaithful
      split at hExec
      · cases hExec
      · rename_i j val hAt
        rcases Option.ite_none_right_eq_some.mp hExec with
          ⟨_, hMap⟩
        rcases Option.map_eq_some_iff.mp hMap with
          ⟨s, hRead, rfl⟩
        rcases Option.map_eq_some_iff.mp hRead with
          ⟨g, _, rfl⟩
        rw [hAt] at hFaithful
        have hFrom : j = inst.src.nid :=
          of_decide_eq_true hFaithful
        refine hValid.setParty rfl ?_
        intro other hMem
        rcases List.mem_append.mp hMem with hOld | hNew
        · exact .inl hOld
        · cases List.mem_singleton.mp hNew
          exact
            .inr
              (hValid.vals _ (List.mem_of_getElem? hAt) hFrom)
  | deliverEcho p k =>
      dsimp only at hExec
      split at hExec
      · cases hExec
      · rename_i msg hAt
        unfold Net.arrive at hExec
        split at hExec
        · exact hValid.stepLeader hExec
        · refine
            hValid.stepFollower hSize hByz hSound ?_ ?_ ?_ hExec
          · rintro other (hEq | ⟨hEq, _⟩)
            · cases hEq
              exact
                hValid.echoes msg (List.mem_of_getElem? hAt)
            · cases hEq
          · intro i hEq
            cases hEq
          · intro i hEq
            cases hEq
  | deliverReady p k =>
      dsimp only at hExec
      split at hExec
      · cases hExec
      · unfold Net.arrive at hExec
        split at hExec
        · exact hValid.stepLeader hExec
        · refine
            hValid.stepFollower hSize hByz hSound ?_ ?_ ?_ hExec
          · rintro other (hEq | ⟨hEq, _⟩)
            · cases hEq
            · cases hEq
          · intro i hEq
            cases hEq
          · intro i hEq
            cases hEq
  | leader action =>
      rcases Option.ite_none_right_eq_some.mp hExec with
        ⟨_, hStep⟩
      exact hValid.stepLeader hStep
  | follower p action =>
      rcases Option.ite_none_right_eq_some.mp hExec with
        ⟨hOwn, hStep⟩
      refine hValid.stepFollower hSize hByz hSound ?_ ?_ ?_ hStep
      · rintro msg (rfl | ⟨rfl, _⟩)
        · cases hOwn
        · cases hOwn
      · rintro i rfl
        exact hSingle
      · rintro i rfl
        exact hFaithful
  | roundinfo p =>
      rcases Option.ite_none_right_eq_some.mp hExec with
        ⟨_, hMap⟩
      rcases Option.map_eq_some_iff.mp hMap with
        ⟨s, hRead, rfl⟩
      unfold Party.readRoundinfo at hRead
      split at hRead
      · cases hRead
      · rcases Option.map_eq_some_iff.mp hRead with
          ⟨g, _, rfl⟩
        exact hValid.setParty rfl fun val hMem => .inl hMem
  | sendEcho p k =>
      dsimp only at hExec
      split at hExec
      · cases hExec
      · rename_i round hash hAt
        rcases Option.map_eq_some_iff.mp hExec with
          ⟨net', hStep, rfl⟩
        have hFollows :=
          (Option.ite_none_right_eq_some.mp hStep).1
        have hRightly : inst.rightly ⟨p, round, hash⟩ :=
          hValid.echoing hSound hFollows
            (List.mem_of_getElem? hAt)
        have hNext : net'.Valid inst := by
          refine
            hValid.stepFollower hSize hByz hSound ?_ ?_ ?_ hStep
          · rintro ⟨id, round', hash'⟩ (hEq | ⟨hEq, hId⟩)
            · cases hEq
            · cases hEq
              cases hId
              exact hRightly
          · intro i hEq
            cases hEq
          · intro i hEq
            cases hEq
        have hErased :
            (net'.setParty p
              { net'.party p with
                echoing :=
                  (net.party p).echoing.eraseIdx k }).Valid
              inst :=
          hNext.setParty rfl fun val hMem => .inl hMem
        refine hErased.post _ hNext.vals ?_
        intro msg hMem
        rcases List.mem_append.mp hMem with hOld | hNew
        · exact hValid.echoes msg hOld
        · cases List.mem_singleton.mp hNew
          exact hRightly

/- A run under the stronger condition is one of the weaker. -/
theorem sound_of_faithful
    (hReach :
      (network inst).ReachableBy
        (fun net a => net.faithful inst a = true) net) :
    net.Sound inst :=
  sound
    (hReach.mono fun _ _ hFaithful =>
      (Bool.and_eq_true_iff.mp hFaithful).1)

/- It holds in every faithful run. -/
theorem valid
    (hSize : n = 3 * f + 1) (hByz : inst.byz.card ≤ f)
    (hCorrect : inst.src.nid ∉ inst.byz)
    (hReach :
      (network inst).ReachableBy
        (fun net a => net.faithful inst a = true) net) :
    net.Valid inst :=
  hReach.invariant (Valid inst) valid_init
    fun _ _ _ hBefore hValid hFaithful hExec =>
      hValid.exec hSize hByz hCorrect
        (sound_of_faithful hBefore) hFaithful hExec

/- What a follower decides is the hash of what is broadcast. -/
theorem Valid.decides
    (hSize : n = 3 * f + 1) (hByz : inst.byz.card ≤ f)
    (hSound : net.Sound inst) (hValid : net.Valid inst)
    {height : Nat} {hash : Bytes}
    (hQuorum :
      Quorum (net.voted inst) (threshold n * 2 + 1) height
        hash) :
    hash = inst.src.myhash height := by
  have hFew : inst.byz.card < threshold n * 2 + 1 := by
    unfold threshold
    omega
  apply Quorum.right hFew
  exact
    hQuorum.mono fun msg hVoted =>
      hValid.rightly hSize hByz hSound hVoted

/-
  With a correct broadcaster whose values alone are read, a
  correct follower puts out what it broadcasts, in order.
-/
theorem followers_valid
    (hSize : n = 3 * f + 1) (hByz : inst.byz.card ≤ f)
    (hCorrect : inst.src.nid ∉ inst.byz)
    (hReach :
      (network inst).ReachableBy
        (fun net a => net.faithful inst a = true) net)
    (hp : inst.follows p = true) :
    (net.party p).val.output =
      (List.range (net.party p).val.output.length).map
        fun height =>
          inst.src.cfg.backBlock (inst.src.val height)
            ⟨height, inst.src.myhash height⟩ := by
  have hSound := sound_of_faithful hReach
  have hValid := valid hSize hByz hCorrect hReach
  apply List.ext_getElem?
  intro i
  rw [List.getElem?_map]
  cases hAt : (net.party p).val.output[i]? with
  | none =>
      have hLe := List.getElem?_eq_none_iff.mp hAt
      rw [List.getElem?_eq_none (by
        rw [List.length_range]
        exact hLe)]
      rfl
  | some block =>
      have hLt := (List.getElem?_eq_some_iff.mp hAt).1
      rcases (hSound.party p hp).output_at hAt with
        ⟨val, hVal, hRound, rfl, _⟩
      rcases hValid.read p hp val hVal with ⟨height, rfl⟩
      have hSame : height = i := Int.ofNat_inj.mp hRound
      subst hSame
      rw [List.getElem?_range hLt]
      rfl

/- Values and decisions of one hash never clash. -/
theorem matching_isSome
    {cfg : Config} {valbuf : List Val}
    {roundinfobuf : List Roundinfo} {output : List BackBlock}
    (hFit :
      ∀ val ∈ valbuf, ∀ roundinfo ∈ roundinfobuf,
        val.round = roundinfo.height →
          cfg.sha256 val.value = roundinfo.valuehash) :
    (HandleVal.matching cfg valbuf roundinfobuf
      output).isSome := by
  fun_induction HandleVal.matching cfg valbuf roundinfobuf
    output with
  | case1 val valbuf roundinfo roundinfobuf output hRound hHash
      ih =>
      apply ih
      intro other hOther info hInfo
      exact
        hFit other (List.mem_cons_of_mem _ hOther) info
          (List.mem_cons_of_mem _ hInfo)
  | case2 val valbuf roundinfo roundinfobuf output hRound
      hHash =>
      exact
        absurd
          (hFit val List.mem_cons_self roundinfo
            List.mem_cons_self hRound)
          hHash
  | case3 => rfl
  | case4 => rfl

/- The decisions that are waiting for their values. -/
theorem Valid.waiting
    (hSize : n = 3 * f + 1) (hByz : inst.byz.card ≤ f)
    (hSound : net.Sound inst) (hValid : net.Valid inst)
    (hp : inst.follows p = true) {i : Nat}
    {roundinfo : Roundinfo}
    (hAt :
      (net.party p).bcf.roundinfoCH[i]? = some roundinfo) :
    roundinfo.height = i ∧
      roundinfo.valuehash = inst.src.myhash i := by
  have hOk := (hSound.party p hp).follower
  rcases hOk.infos i roundinfo hAt with ⟨hHeight, hQuorum⟩
  exact
    ⟨hHeight,
      hValid.decides hSize hByz hSound hQuorum⟩

/-
  Then `handle_val` of a correct follower never finds a wrong
  broadcaster: it reads every value and every decision.
-/
theorem never_wrong
    (hSize : n = 3 * f + 1) (hByz : inst.byz.card ≤ f)
    (hCorrect : inst.src.nid ∉ inst.byz)
    (hReach :
      (network inst).ReachableBy
        (fun net a => net.faithful inst a = true) net)
    (hp : inst.follows p = true) :
    (∀ x ∈ net.vals, x.1 = inst.src.nid →
        ((net.party p).readVal inst.src.cfg x.2).isSome) ∧
      ∀ roundinfo,
        (net.party p).bcf.roundinfoCH[(net.party p).taken]? =
            some roundinfo →
          ((net.party p).readRoundinfo inst.src.cfg).isSome := by
  have hSound := sound_of_faithful hReach
  have hValid := valid hSize hByz hCorrect hReach
  have hOk := hSound.party p hp
  rcases hOk.paired.paired with ⟨done, hInfos, _, _⟩
  have hRead := hValid.read p hp
  -- a decision and a value of its round have one hash
  have hFit :
      ∀ val : Val, (∃ height, val = inst.src.val height) →
        ∀ (i : Nat) roundinfo,
          (net.party p).bcf.roundinfoCH[i]? = some roundinfo →
            val.round = roundinfo.height →
              inst.src.cfg.sha256 val.value =
                roundinfo.valuehash := by
    rintro val ⟨height, rfl⟩ i roundinfo hAt hRound
    rcases hValid.waiting hSize hByz hSound hp hAt with
      ⟨hHeight, hHash⟩
    rw [hHeight] at hRound
    have hSame : height = i := Int.ofNat_inj.mp hRound
    rw [hHash, ← hSame]
    rfl
  have hBuffered :
      ∀ roundinfo ∈ (net.party p).val.roundinfobuf,
        ∃ i : Nat,
          (net.party p).bcf.roundinfoCH[i]? =
            some roundinfo := by
    intro roundinfo hMem
    have hIn :
        roundinfo ∈ (net.party p).bcf.roundinfoCH := by
      apply List.mem_of_mem_take
      rw [hInfos]
      exact List.mem_append_right _ hMem
    exact List.getElem?_of_mem hIn
  constructor
  · intro x hx hFrom
    unfold Party.readVal HandleVal.readVal HandleVal.generate
    rw [Option.isSome_map, Option.isSome_map]
    apply matching_isSome
    intro val hVal roundinfo hInfo hRound
    rcases hBuffered roundinfo hInfo with ⟨i, hAt⟩
    refine hFit val ?_ i roundinfo hAt hRound
    rcases List.mem_append.mp
        (List.mem_insertionSort _ |>.mp hVal) with
      hOld | hNew
    · exact hRead val (hOk.paired.buffered val hOld)
    · cases List.mem_singleton.mp hNew
      exact hValid.vals x hx hFrom
  · intro next hNext
    unfold Party.readRoundinfo
    rw [hNext]
    dsimp only
    unfold HandleVal.readRoundinfo HandleVal.generate
    rw [Option.isSome_map, Option.isSome_map]
    apply matching_isSome
    intro val hVal roundinfo hInfo hRound
    have hAt :
        ∃ i : Nat,
          (net.party p).bcf.roundinfoCH[i]? =
            some roundinfo := by
      rcases List.mem_append.mp hInfo with hOld | hNew
      · exact hBuffered roundinfo hOld
      · cases List.mem_singleton.mp hNew
        exact ⟨_, hNext⟩
    rcases hAt with ⟨i, hAt⟩
    exact
      hFit val (hRead val (hOk.paired.buffered val hVal)) i
        roundinfo hAt hRound

end Valid

end Net

/- The output is for the broadcaster's value. -/
theorem followers_valid_four :
    (fourNet.party 1).val.output =
      [fourInstance.src.cfg.backBlock (fourInstance.src.val 0)
        ⟨0, fourInstance.src.myhash 0⟩] := by
  have hOutput :=
    @Net.followers_valid 4 fourInstance fourNet 1 1 rfl
      (Nat.le_refl 1) (by decide) fourNet_faithful (by decide)
  rw [fourNet_spec.1] at hOutput
  exact hOutput

/- The decision that waits can be read. -/
theorem never_wrong_four :
    ((fourNet.party 2).readRoundinfo
      fourInstance.src.cfg).isSome :=
  (@Net.never_wrong 4 fourInstance fourNet 2 1 rfl
    (Nat.le_refl 1) (by decide) fourNet_faithful
    (by decide)).2 _ fourNet_spec.2

end WeakBroadcast

end Jumbo
