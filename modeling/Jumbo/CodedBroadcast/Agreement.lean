import Jumbo.CodedBroadcast.Network

/-
  What correct parties output for a height is one payload, in
  every run whose steps meet the condition.

  Main declarations:
    * `Net.Sound`
    * `Net.sound`
    * `Net.outputs_agree`
-/

------------------------------------------------------------
-- What Is Kept
------------------------------------------------------------

namespace Jumbo

namespace CodedBroadcast

open Crypto (Bytes)
open DumboMVBA (number)
open ReliableBroadcast (threshold)
open Protocol
open Protocol.Relay

variable {n : Nat}

namespace Net

/-
  The broadcaster votes for its root of a height, the others
  for what they have announced.
-/
def votes (inst : Instance n) (net : Net n) : Votes n where
  byz := inst.byz
  voted j height root :=
    if j = inst.lid then
      root = (inst.src.root inst.cfg height).getD []
    else (height, root) ∈ net.announced j

/- Decodings of one height and root have one length. -/
def SameLength (net : Net n) : Prop :=
  ∀ p q, ∀ d ∈ net.decodings p, ∀ d' ∈ net.decodings q,
    d.height = d'.height → d.root = d'.root →
      d.msglen = d'.msglen

/- What each party knows is backed by what was voted. -/
structure Sound (inst : Instance n) (net : Net n) : Prop where
  follower :
    ∀ p, p ∉ inst.byz → p ≠ inst.lid →
      FollowerOk inst.cfg (net.votes inst).Authentic
        ((net.votes inst).Quorum (threshold n * 2 + 1))
        (net.follower p) (net.announced p) (net.decodings p)
  leader :
    inst.lid ∉ inst.byz →
      LeaderOk inst.cfg inst.src
        ((net.votes inst).Foreign inst.lid)
        ((net.votes inst).Others inst.lid (threshold n * 2))
        net.leader
  genuine :
    ∀ packet ∈ net.readies,
      (net.votes inst).Authentic packet.msg
  foreign :
    inst.lid ∉ inst.byz →
      ∀ packet ∈ net.readies, packet.dest inst.lid = true →
        (net.votes inst).Foreign inst.lid packet.msg
  same : net.SameLength
  source :
    inst.lid ∉ inst.byz →
      ∀ p, ∀ d ∈ net.decodings p,
        inst.src.root inst.cfg d.height = some d.root →
          d.msglen.toInt =
            (inst.src.inputs d.height).length

section Steps

variable {inst : Instance n} {net net' : Net n}

/- Votes are only added. -/
theorem votes_le
    (hAnnounced :
      ∀ j, net.announced j ⊆ net'.announced j) :
    (net.votes inst).Le (net'.votes inst) := by
  refine ⟨rfl, fun j height root hVoted => ?_⟩
  unfold votes at hVoted ⊢
  dsimp only at hVoted ⊢
  by_cases hLeader : j = inst.lid
  · rw [if_pos hLeader] at hVoted ⊢
    exact hVoted
  · rw [if_neg hLeader] at hVoted ⊢
    exact hAnnounced j hVoted

/-
  What is put together for one root has one length, and that
  of the leader if it is correct.
-/
theorem sameLength_iff {d : Decoding} :
    net.sameLength inst d = true ↔
      (∀ q, ∀ other ∈ net.decodings q,
        other.height = d.height → other.root = d.root →
          other.msglen = d.msglen) ∧
        (inst.lid ∉ inst.byz →
          inst.src.root inst.cfg d.height = some d.root →
            d.msglen.toInt =
              (inst.src.inputs d.height).length) := by
  unfold sameLength
  rw [Bool.and_eq_true, List.all_eq_true,
    decide_eq_true_iff]
  refine and_congr_left fun _ => ⟨fun hAll q => ?_, ?_⟩
  · intro other hMem
    exact
      of_decide_eq_true
        (List.all_eq_true.mp
          (hAll q (List.mem_finRange q)) other hMem)
  · intro hAll q _
    exact
      List.all_eq_true.mpr fun other hMem =>
        decide_eq_true (hAll q other hMem)

/- Only the ECHO handler puts something together. -/
theorem sameLength_of_single
    {p : Fin n} {action : BCFAction}
    (hSingle : net.single inst (.follower p action) = true) :
    ∀ d ∈ (net.follower p).decoding inst.cfg action,
      net.sameLength inst d = true := by
  cases action with
  | echo i act =>
      cases act with
      | work => exact List.all_eq_true.mp hSingle
      | check => exact List.forall_mem_nil _
      | stop => exact List.forall_mem_nil _
      | receive source => exact List.forall_mem_nil _
  | readyIn msg => exact List.forall_mem_nil _
  | echoIn msg => exact List.forall_mem_nil _
  | sendReady k => exact List.forall_mem_nil _
  | start => exact List.forall_mem_nil _
  | val i act => exact List.forall_mem_nil _
  | ready i act => exact List.forall_mem_nil _

theorem sound_init : (init inst).Sound inst where
  follower _ _ _ := followerOk_init
  leader _ := leaderOk_init
  genuine := List.forall_mem_nil _
  foreign _ := List.forall_mem_nil _
  same _ _ := List.forall_mem_nil _
  source _ _ := List.forall_mem_nil _

/- More READYs on their way, all of them genuine. -/
theorem Sound.post
    (hSound : net.Sound inst) {more : List (Packet n)}
    (hGenuine :
      ∀ packet ∈ more,
        (net.votes inst).Authentic packet.msg)
    (hForeign :
      inst.lid ∉ inst.byz →
        ∀ packet ∈ more, packet.dest inst.lid = true →
          (net.votes inst).Foreign inst.lid packet.msg) :
    { net with readies := net.readies ++ more }.Sound inst where
  follower := hSound.follower
  leader := hSound.leader
  genuine := by
    intro packet hMem
    rcases List.mem_append.mp hMem with hOld | hNew
    · exact hSound.genuine packet hOld
    · exact hGenuine packet hNew
  foreign := by
    intro hCorrect packet hMem
    rcases List.mem_append.mp hMem with hOld | hNew
    · exact hSound.foreign hCorrect packet hOld
    · exact hForeign hCorrect packet hNew
  same := hSound.same
  source := hSound.source

/- ECHOs do not matter. -/
theorem Sound.echoes
    (hSound : net.Sound inst) (echoes : List (Packet n)) :
    { net with echoes := echoes }.Sound inst :=
  ⟨hSound.follower, hSound.leader, hSound.genuine,
    hSound.foreign, hSound.same, hSound.source⟩

/- A packet that is taken was sent as it is. -/
theorem mem_modify_taken
    {packets : List (Packet n)} {k : Nat} {p : Fin n}
    {packet : Packet n}
    (hMem : packet ∈ packets.modify k (·.taken p)) :
    ∃ old ∈ packets, packet.msg = old.msg ∧
      ∀ q, packet.dest q = true → old.dest q = true := by
  rcases List.mem_iff_getElem?.mp hMem with ⟨i, hAt⟩
  rw [List.getElem?_modify] at hAt
  rcases Option.map_eq_some_iff.mp hAt with ⟨old, hOld, hEq⟩
  refine ⟨old, List.mem_of_getElem? hOld, ?_⟩
  split at hEq
  · rw [← hEq]
    refine ⟨rfl, fun q hDest => ?_⟩
    unfold Packet.taken at hDest
    dsimp only at hDest
    by_cases hq : q = p
    · rw [hq, Function.update_self] at hDest
      cases hDest
    · rw [Function.update_of_ne hq] at hDest
      exact hDest
  · rw [← hEq]
    exact ⟨rfl, fun _ hDest => hDest⟩

/- Taking a packet changes no vote. -/
theorem Sound.take
    (hSound : net.Sound inst) (k : Nat) (p : Fin n) :
    { net with
      readies := net.readies.modify k (·.taken p) }.Sound
        inst where
  follower := hSound.follower
  leader := hSound.leader
  genuine := by
    intro packet hMem
    rcases mem_modify_taken hMem with ⟨old, hOld, hMsg, _⟩
    rw [hMsg]
    exact hSound.genuine old hOld
  foreign := by
    intro hCorrect packet hMem hDest
    rcases mem_modify_taken hMem with ⟨old, hOld, hMsg, hMore⟩
    rw [hMsg]
    exact hSound.foreign hCorrect old hOld (hMore _ hDest)
  same := hSound.same
  source := hSound.source

/- Forged READYs are votes of Byzantine parties. -/
theorem genuine_of_forged
    {packet : Packet n} (hForged : forged inst packet = true) :
    (net.votes inst).Authentic packet.msg ∧
      (inst.lid ∉ inst.byz →
        (net.votes inst).Foreign inst.lid packet.msg) := by
  rcases of_decide_eq_true hForged with ⟨j, hByz, hId⟩
  refine ⟨⟨j, hId, .inl hByz⟩, fun hCorrect => ?_⟩
  refine ⟨j, hId, ?_, .inl hByz⟩
  rintro rfl
  exact hCorrect hByz

/- The READYs of the broadcaster are votes for its roots. -/
theorem genuine_of_leader
    {action : BCLAction} {packet : Packet n}
    (hMem :
      packet ∈ net.leader.readies inst.cfg inst.src inst.lid
        action) :
    (net.votes inst).Authentic packet.msg ∧
      packet.dest inst.lid = false := by
  have hOwn {round : Int} {root : Bytes} {next : Nat}
      (hRoot :
        ∀ height : Nat, round = height →
          root = (inst.src.root inst.cfg height).getD [])
      (hMem :
        packet ∈ inst.src.readies inst.cfg inst.lid round root
          next) :
      (net.votes inst).Authentic packet.msg ∧
        packet.dest inst.lid = false := by
    rcases List.mem_map.mp hMem with ⟨i, hOther, hEq⟩
    rw [← hEq]
    refine ⟨⟨inst.lid, rfl, .inr ?_⟩, ?_⟩
    · intro height hRound
      unfold votes
      dsimp only
      rw [if_pos rfl]
      exact hRoot height hRound
    · refine decide_eq_false fun hSame => ?_
      exact
        of_decide_eq_true (List.mem_filter.mp hOther).2
          hSame.symm
  unfold BCL.readies at hMem
  split at hMem
  · split at hMem
    · refine hOwn ?_ hMem
      intro height hRound
      omega
    · cases hMem
  · split at hMem
    · cases hMem
    · refine hOwn ?_ hMem
      intro height hRound
      rw [Int.ofNat.inj hRound]
  · cases hMem

/- The READY of a follower is what it has announced. -/
theorem Sound.genuine_of_follower
    (hSound : net.Sound inst) {p : Fin n}
    (hCorrect : p ∉ inst.byz) (hFollower : p ≠ inst.lid)
    {action : BCFAction} {packet : Packet n}
    (hMem : packet ∈ (net.follower p).readies p action) :
    (net.votes inst).Authentic packet.msg ∧
      (net.votes inst).Foreign inst.lid packet.msg := by
  unfold BCF.readies at hMem
  split at hMem
  · split at hMem
    · cases hMem
    · rename_i height root hAt
      cases List.mem_singleton.mp hMem
      have hAnnounced :=
        (hSound.follower p hCorrect hFollower).readying _
          (List.mem_of_getElem? hAt)
      have hGenuine :
          (net.votes inst).Genuine
            (readyMsg p height root) p := by
        refine .inr fun height' hRound => ?_
        unfold votes
        dsimp only
        rw [if_neg hFollower, ← Int.ofNat.inj hRound]
        exact hAnnounced
      exact ⟨⟨p, rfl, hGenuine⟩, p, rfl, hFollower, hGenuine⟩
  · cases hMem

/- A step of the broadcaster. -/
theorem Sound.stepLeader
    (hSound : net.Sound inst) (hCorrect : inst.lid ∉ inst.byz)
    {action : BCLAction}
    (hMsg :
      ∀ msg, action = .readyIn msg →
        (net.votes inst).Foreign inst.lid msg)
    (hOnce :
      ∀ i, action = .ready i .work →
        countsOnce net.leader.ready i = true)
    (hExec : net.stepLeader inst action = some net') :
    net'.Sound inst := by
  rcases Option.bind_eq_some_iff.mp hExec with
    ⟨leader, hLeader, hEq⟩
  cases hEq
  have hGenuine (packet : Packet n)
      (hMem :
        packet ∈ net.leader.readies inst.cfg inst.src inst.lid
          action) :=
    @genuine_of_leader n inst net action packet hMem
  have hPost :=
    hSound.post (fun packet hMem => (hGenuine packet hMem).1)
      (fun _ packet hMem hDest => by
        rw [(hGenuine packet hMem).2] at hDest
        cases hDest)
  exact
    { follower := hSound.follower
      leader := fun _ =>
        (hSound.leader hCorrect).exec Votes.quorate_others
          hMsg hOnce hLeader
      genuine := hPost.genuine
      foreign := hPost.foreign
      same := hSound.same
      source := hSound.source }

/- A step of a follower. -/
theorem Sound.stepFollower
    (hSound : net.Sound inst) {p : Fin n}
    (hCorrect : p ∉ inst.byz) (hFollower : p ≠ inst.lid)
    {action : BCFAction}
    (hMsg :
      ∀ msg, action = .readyIn msg →
        (net.votes inst).Authentic msg)
    (hOnce :
      ∀ i, action = .ready i .work →
        countsOnce (net.follower p).ready i = true)
    (hLength :
      ∀ d ∈ (net.follower p).decoding inst.cfg action,
        net.sameLength inst d = true)
    (hExec : net.stepFollower inst p action = some net') :
    net'.Sound inst := by
  rcases Option.bind_eq_some_iff.mp hExec with
    ⟨s', hStep, hEq⟩
  cases hEq
  have hOk := hSound.follower p hCorrect hFollower
  have hGenuine (packet : Packet n)
      (hMem : packet ∈ (net.follower p).readies p action) :=
    hSound.genuine_of_follower hCorrect hFollower hMem
  have hPost :=
    hSound.post (fun packet hMem => (hGenuine packet hMem).1)
      (fun _ packet hMem _ => (hGenuine packet hMem).2)
  have hAuth :
      ∀ x ∈ net.announced p,
        (net.votes inst).Authentic (readyMsg p x.1 x.2) := by
    intro x hMem
    refine ⟨p, rfl, .inr fun height hRound => ?_⟩
    unfold votes
    dsimp only
    rw [if_neg hFollower, ← Int.ofNat.inj hRound]
    exact hMem
  have hNew :=
    hOk.exec Votes.quorate hAuth hMsg hOnce hStep
  have hLe :
      (net.votes inst).Le
        (votes inst
          { net with
            announced :=
              Function.update net.announced p
                (net.announced p ++
                  (net.follower p).announces action) }) := by
    refine votes_le fun j x hMem => ?_
    dsimp only
    by_cases hj : j = p
    · rw [hj] at hMem ⊢
      rw [Function.update_self]
      exact List.mem_append_left _ hMem
    · rw [Function.update_of_ne hj]
      exact hMem
  -- a decoding is an old one, or the new one of the party
  have hDecodings (q : Fin n) (d : Decoding)
      (hMem :
        d ∈ Function.update net.decodings p
          (net.decodings p ++
            (net.follower p).decoding inst.cfg action) q) :
      d ∈ net.decodings q ∨
        d ∈ (net.follower p).decoding inst.cfg action := by
    by_cases hq : q = p
    · rw [hq, Function.update_self] at hMem
      rw [hq]
      exact List.mem_append.mp hMem
    · rw [Function.update_of_ne hq] at hMem
      exact .inl hMem
  refine
    { follower := ?_
      leader := ?_
      genuine := ?_
      foreign := ?_
      same := ?_
      source := ?_ }
  · intro q hq hOther
    dsimp only
    by_cases hSame : q = p
    · rw [hSame, Function.update_self, Function.update_self,
        Function.update_self]
      exact
        hNew.mono (fun _ h => h.mono hLe)
          (fun _ _ h => h.mono hLe)
    · rw [Function.update_of_ne hSame,
        Function.update_of_ne hSame,
        Function.update_of_ne hSame]
      exact
        (hSound.follower q hq hOther).mono
          (fun _ h => h.mono hLe) (fun _ _ h => h.mono hLe)
  · intro hLeader
    exact
      (hSound.leader hLeader).mono (fun _ h => h.mono hLe)
        (fun _ _ h => h.mono hLe)
  · intro packet hMem
    exact (hPost.genuine packet hMem).mono hLe
  · intro hLeader packet hMem hDest
    exact (hPost.foreign hLeader packet hMem hDest).mono hLe
  · intro q r d hMem d' hMem' hHeight hRoot
    rcases hDecodings q d hMem with hOld | hNew
    · rcases hDecodings r d' hMem' with hOld' | hNew'
      · exact hSound.same q r d hOld d' hOld' hHeight hRoot
      · exact
          (sameLength_iff.mp (hLength d' hNew')).1 q d hOld
            hHeight hRoot
    · rcases hDecodings r d' hMem' with hOld' | hNew'
      · exact
          ((sameLength_iff.mp (hLength d hNew)).1 r d' hOld'
            hHeight.symm hRoot.symm).symm
      · rw [decoding_unique hNew hNew']
  · intro hLeader q d hMem
    rcases hDecodings q d hMem with hOld | hNew
    · exact hSound.source hLeader q d hOld
    · exact (sameLength_iff.mp (hLength d hNew)).2 hLeader

/-
  A step keeps the votes behind what is known, as long as
  nobody is counted twice.
-/
theorem Sound.exec
    (hSound : net.Sound inst) {action : NetAction n}
    (hSingle : net.single inst action = true)
    (hExec : net.exec inst action = some net') :
    net'.Sound inst := by
  cases action with
  | forgeReady packet =>
      rcases Option.ite_none_right_eq_some.mp hExec with
        ⟨hForged, hEq⟩
      cases hEq
      refine hSound.post ?_ ?_
      · intro other hMem
        cases List.mem_singleton.mp hMem
        exact (genuine_of_forged hForged).1
      · intro hCorrect other hMem _
        cases List.mem_singleton.mp hMem
        exact (genuine_of_forged hForged).2 hCorrect
  | forgeEcho packet =>
      rcases Option.ite_none_right_eq_some.mp hExec with
        ⟨_, hEq⟩
      cases hEq
      exact hSound.echoes _
  | deliverReady p k =>
      dsimp only [Net.exec] at hExec
      split at hExec
      · cases hExec
      · rename_i packet hAt
        have hMem := List.mem_of_getElem? hAt
        rcases Option.ite_none_right_eq_some.mp hExec with
          ⟨⟨hCorrect, hDest⟩, hExec⟩
        split at hExec
        · rename_i hLeader
          rw [hLeader] at hCorrect hDest
          refine
            (hSound.take k p).stepLeader hCorrect ?_ ?_ hExec
          · intro msg hEq
            cases hEq
            exact hSound.foreign hCorrect packet hMem hDest
          · intro i hEq
            cases hEq
        · rename_i hFollower
          refine
            (hSound.take k p).stepFollower hCorrect hFollower
              ?_ ?_ (List.forall_mem_nil _) hExec
          · intro msg hEq
            cases hEq
            exact hSound.genuine packet hMem
          · intro i hEq
            cases hEq
  | deliverEcho p k =>
      dsimp only [Net.exec] at hExec
      split at hExec
      · cases hExec
      · rcases Option.ite_none_right_eq_some.mp hExec with
          ⟨⟨hCorrect, _⟩, hExec⟩
        split at hExec
        · rename_i hLeader
          rw [hLeader] at hCorrect
          refine
            (hSound.echoes _).stepLeader hCorrect ?_ ?_ hExec
          · intro msg hEq
            cases hEq
          · intro i hEq
            cases hEq
        · rename_i hFollower
          refine
            (hSound.echoes _).stepFollower hCorrect hFollower
              ?_ ?_ (List.forall_mem_nil _) hExec
          · intro msg hEq
            cases hEq
          · intro i hEq
            cases hEq
  | leader action =>
      rcases Option.ite_none_right_eq_some.mp hExec with
        ⟨⟨hCorrect, hOwn⟩, hExec⟩
      refine hSound.stepLeader hCorrect ?_ ?_ hExec
      · rintro msg rfl
        cases hOwn
      · rintro i rfl
        exact hSingle
  | follower p action =>
      rcases Option.ite_none_right_eq_some.mp hExec with
        ⟨⟨hCorrect, hFollower, hOwn⟩, hExec⟩
      refine
        hSound.stepFollower hCorrect hFollower ?_ ?_ ?_ hExec
      · rintro msg rfl
        cases hOwn
      · rintro i rfl
        exact hSingle
      · exact sameLength_of_single hSingle

/- It holds in every such run. -/
theorem sound
    (hReach :
      (network inst).ReachableBy
        (fun net a => net.single inst a = true) net) :
    net.Sound inst :=
  hReach.invariant (Sound inst) sound_init
    fun _ _ _ _ hSound hSingle hExec =>
      hSound.exec hSingle hExec

end Steps

end Net

end CodedBroadcast

end Jumbo

------------------------------------------------------------
-- Agreement
------------------------------------------------------------

namespace Jumbo

namespace CodedBroadcast

open Crypto (Bytes)
open ReliableBroadcast (threshold)
open Protocol

variable {n : Nat}

namespace Net

/-
  Everything that correct parties have hashed for trees: over
  what they have put together, and the broadcaster over its
  shards up to the height it is at.
-/
def Hashed (inst : Instance n) (net : Net n) : Set Bytes :=
  { y |
    (∃ p, ∃ d ∈ net.decodings p,
        y ∈ treeHashed inst.cfg.sha d.shards d.root) ∨
      inst.lid ∉ inst.byz ∧
        ∃ height ≤ net.leader.height,
          ∃ shards levels root,
            inst.src.tree inst.cfg height =
                some (shards, levels, root) ∧
              y ∈ treeHashed inst.cfg.sha shards root }

section Agree

variable {inst : Instance n} {net : Net n}

/- Nobody correct votes for two roots at one height. -/
theorem Sound.voted_once
    (hSound : net.Sound inst) (height : Nat) :
    ∀ j, j ∉ (net.votes inst).byz → ∀ root root',
      (net.votes inst).voted j height root →
        (net.votes inst).voted j height root' →
          root = root' := by
  intro j hCorrect root root' hVoted hVoted'
  unfold votes at hVoted hVoted'
  dsimp only at hVoted hVoted'
  by_cases hLeader : j = inst.lid
  · rw [if_pos hLeader] at hVoted hVoted'
    rw [hVoted, hVoted']
  · rw [if_neg hLeader] at hVoted hVoted'
    have hSame :=
      (hSound.follower j hCorrect hLeader).once _ hVoted _
        hVoted' rfl
    exact congrArg Prod.snd hSame

/- What the output of a follower rests on. -/
theorem Sound.follower_output
    (hSound : net.Sound inst) {p : Fin n}
    (hCorrect : p ∉ inst.byz) (hFollower : p ≠ inst.lid)
    {height : Nat} {output : Bytes}
    (hOutput : (height, output) ∈ net.outputs inst p) :
    ∃ root,
      (net.votes inst).Quorum (threshold n * 2 + 1) height
          root ∧
        Yields (net.decodings p) height root output := by
  unfold outputs at hOutput
  rw [if_neg hFollower] at hOutput
  exact
    (hSound.follower p hCorrect hFollower).output _ hOutput

/- What the output of the broadcaster rests on. -/
theorem Sound.leader_output
    (hSound : net.Sound inst) (hCorrect : inst.lid ∉ inst.byz)
    {height : Nat} {output : Bytes}
    (hOutput : (height, output) ∈ net.outputs inst inst.lid) :
    output = inst.src.inputs height ∧
      height ≤ net.leader.height ∧
        ∃ shards levels root,
          (net.votes inst).Quorum (threshold n * 2 + 1)
              height root ∧
            inst.src.tree inst.cfg height =
              some (shards, levels, root) := by
  unfold outputs at hOutput
  rw [if_pos rfl] at hOutput
  rcases (hSound.leader hCorrect).output _ hOutput with
    ⟨hInput, hHeight, root, hRoot, hOthers⟩
  rcases Option.map_eq_some_iff.mp hRoot with
    ⟨⟨shards, levels, root'⟩, hTree, hEq⟩
  cases hEq
  refine
    ⟨hInput, hHeight, shards, levels, _, hOthers.quorum ?_,
      hTree⟩
  unfold votes
  dsimp only
  rw [if_pos rfl, hRoot, Option.getD_some]

/- What is hashed for a decoding is among all that is. -/
theorem hashed_of_decoding
    {p : Fin n} {d : Decoding} (hMem : d ∈ net.decodings p) :
    treeHashed inst.cfg.sha d.shards d.root ⊆
      net.Hashed inst :=
  fun _ hHashed => .inl ⟨p, d, hMem, hHashed⟩

/- A follower and the broadcaster. -/
theorem Sound.agree_source
    (hSound : net.Sound inst) {f : Nat}
    (hSize : n = 3 * f + 1) (hByz : inst.byz.card ≤ f)
    (hCoding : Coding inst.cfg inst.src)
    (hHash : ∀ x, (inst.cfg.sha x).length = 32)
    (hInj : Set.InjOn inst.cfg.sha (net.Hashed inst))
    {p : Fin n} (hCorrect : p ∉ inst.byz)
    (hFollower : p ≠ inst.lid) (hLeader : inst.lid ∉ inst.byz)
    {height : Nat} {output output' : Bytes}
    (hOutput : (height, output) ∈ net.outputs inst p)
    (hOutput' :
      (height, output') ∈ net.outputs inst inst.lid) :
    output = output' := by
  rcases hSound.follower_output hCorrect hFollower hOutput with
    ⟨root, hQuorum, d, hMem, hHeight, hRoot, hTake⟩
  rcases hSound.leader_output hLeader hOutput' with
    ⟨hInput, hAt, shards, levels, root', hQuorum', hTree⟩
  have hSame :=
    Votes.root_unique hSize hByz (hSound.voted_once height)
      hQuorum hQuorum'
  rw [← hSame, ← hRoot] at hTree
  have hSourceRoot :
      inst.src.root inst.cfg d.height = some d.root := by
    unfold Source.root
    rw [hHeight, hTree]
    rfl
  have hLength :=
    hSound.source hLeader p d hMem hSourceRoot
  rw [hHeight] at hLength
  rw [hInput]
  refine
    Rooted.source hCoding hHash hInj (hashed_of_decoding hMem)
      (fun y hy =>
        .inr ⟨hLeader, height, hAt, shards, levels, _, hTree,
          hy⟩)
      ((hSound.follower p hCorrect hFollower).rooted d hMem)
      hTree hLength hTake

/-
  In every run whose steps meet the condition, what correct
  parties output for a height is the same.
-/
theorem outputs_agree
    {f : Nat} (hSize : n = 3 * f + 1)
    (hByz : inst.byz.card ≤ f)
    (hCoding : Coding inst.cfg inst.src)
    (hHash : ∀ x, (inst.cfg.sha x).length = 32)
    (hReach :
      (network inst).ReachableBy
        (fun net a => net.single inst a = true) net)
    (hInj : Set.InjOn inst.cfg.sha (net.Hashed inst))
    {p q : Fin n} (hp : p ∉ inst.byz) (hq : q ∉ inst.byz)
    {height : Nat} {output output' : Bytes}
    (hOutput : (height, output) ∈ net.outputs inst p)
    (hOutput' : (height, output') ∈ net.outputs inst q) :
    output = output' := by
  have hSound := sound hReach
  by_cases hpl : p = inst.lid
  · by_cases hql : q = inst.lid
    · rw [hpl] at hp hOutput
      rw [hql] at hOutput'
      rw [(hSound.leader_output hp hOutput).1,
        (hSound.leader_output hp hOutput').1]
    · rw [hpl] at hp hOutput
      exact
        (hSound.agree_source hSize hByz hCoding hHash hInj hq
          hql hp hOutput' hOutput).symm
  · by_cases hql : q = inst.lid
    · rw [hql] at hq hOutput'
      exact
        hSound.agree_source hSize hByz hCoding hHash hInj hp
          hpl hq hOutput hOutput'
    · rcases hSound.follower_output hp hpl hOutput with
        ⟨root, hQuorum, d, hMem, hHeight, hRoot, hTake⟩
      rcases hSound.follower_output hq hql hOutput' with
        ⟨root', hQuorum', d', hMem', hHeight', hRoot', hTake'⟩
      have hSame :=
        Votes.root_unique hSize hByz
          (hSound.voted_once height) hQuorum hQuorum'
      have hRoots : d.root = d'.root := by
        rw [hRoot, hRoot', hSame]
      refine
        Rooted.agree hCoding hHash hInj
          (hashed_of_decoding hMem) (hashed_of_decoding hMem')
          ((hSound.follower p hp hpl).rooted d hMem)
          ((hSound.follower q hq hql).rooted d' hMem')
          hRoots ?_ hTake hTake'
      exact
        hSound.same p q d hMem d' hMem'
          (hHeight.trans hHeight'.symm) hRoots

end Agree

end Net

end CodedBroadcast

end Jumbo
