import Jumbo.Lib.Quorum
import Jumbo.Lib.RelayVotes
import Jumbo.WeakBroadcast.Follower

/-
  READYs and ECHOs as votes for the hash of a height, and what
  a follower of the weak reliable broadcast does with them.

  A follower is ready for one hash of a height. What it
  decides for a height has the READYs of two thirds, and what
  it is ready for the ECHOs of two thirds or the READYs of a
  third.

  Main declarations:
    * `Quorum`
    * `Quorum.unique`
    * `FollowerOk`
    * `FollowerOk.exec`
    * `Justifies`
    * `Justifies.exec`
-/

------------------------------------------------------------
-- Quorums
------------------------------------------------------------

namespace Jumbo

namespace WeakBroadcast

open Protocol
open Protocol.Relay
open ReliableBroadcast (Bytes increment threshold)

variable {n : Nat}

/- The sender of a message votes for its hash. -/
def ballot (n : Nat) : Ballot (WRBCMsg n) (Fin n) Bytes where
  sender := WRBCMsg.id
  value := WRBCMsg.content

/- As many parties have voted for the hash of a height. -/
def Quorum
    (auth : WRBCMsg n → Prop) (k : Nat) (height : Nat)
    (hash : Bytes) : Prop :=
  ∃ S : Finset (Fin n), S.card = k ∧
    ∀ j ∈ S, auth ⟨j, height, hash⟩

section Quorum

variable {auth auth' : WRBCMsg n → Prop} {k height : Nat}
variable {hash hash' : Bytes}

/- More votes keep a quorum. -/
theorem Quorum.mono
    (hQuorum : Quorum auth k height hash)
    (hAuth : ∀ msg, auth msg → auth' msg) :
    Quorum auth' k height hash := by
  rcases hQuorum with ⟨S, hCard, hS⟩
  exact ⟨S, hCard, fun j hMem => hAuth _ (hS j hMem)⟩

/- More than the faulty ones have a correct one with them. -/
theorem Quorum.correct
    {byz : Finset (Fin n)} (hByz : byz.card < k)
    (hQuorum : Quorum auth k height hash) :
    ∃ j, j ∉ byz ∧ auth ⟨j, height, hash⟩ := by
  rcases hQuorum with ⟨S, hCard, hS⟩
  rcases Finset.exists_mem_notMem_of_card_lt_card
      (hByz.trans_eq hCard.symm) with ⟨j, hMem, hNot⟩
  exact ⟨j, hNot, hS j hMem⟩

/- Parties that vote once cannot decide two hashes. -/
theorem Quorum.unique
    {f : Nat} {byz : Finset (Fin n)} (hSize : n = 3 * f + 1)
    (hByz : byz.card ≤ f)
    (hOnce :
      ∀ j, j ∉ byz → auth ⟨j, height, hash⟩ →
        auth ⟨j, height, hash'⟩ → hash = hash')
    (hQuorum : Quorum auth (threshold n * 2 + 1) height hash)
    (hQuorum' :
      Quorum auth (threshold n * 2 + 1) height hash') :
    hash = hash' := by
  rcases hQuorum with ⟨S, hCard, hS⟩
  rcases hQuorum' with ⟨S', hCard', hS'⟩
  have hLarge :
      Fintype.card (Fin n) + byz.card < S.card + S'.card := by
    rw [hCard, hCard', Fintype.card_fin]
    unfold threshold
    omega
  rcases exists_mem_inter_of_third hLarge with
    ⟨j, hMem, hMem', hCorrect⟩
  exact hOnce j hCorrect (hS j hMem) (hS' j hMem')

end Quorum

------------------------------------------------------------
-- What Handlers Count
------------------------------------------------------------

section Handlers

variable {stop : Bool} {i : Nat} {msg : WRBCMsg n}

/- The handler of READY makes up no message. -/
theorem readyHandler_sendsOn : SendsOn (readyHandler n) := by
  intro stop i g msg reading hRead other hMem
  rw [readyHandler_later hRead] at hMem
  split at hMem
  · exact List.mem_singleton.mp hMem
  · cases hMem

/- Nor does the handler of ECHO. -/
theorem echoHandler_sendsOn : SendsOn (echoHandler n) := by
  intro stop i g msg reading hRead other hMem
  rw [echoHandler_later hRead] at hMem
  split at hMem
  · cases hMem
  · split at hMem
    · exact List.mem_singleton.mp hMem
    · cases hMem

/- A vote counts for its own hash. -/
theorem increment_ballot
    (map : Bytes → Nat) (msg : WRBCMsg n) (hash : Bytes) :
    increment map msg.content hash =
      map hash +
        if (ballot n).value msg = hash then 1 else 0 :=
  ReliableBroadcast.increment_apply _ _ _

/- The handler of READY counts votes. -/
theorem readyHandler_tallies :
    (ballot n).Tallies (readyHandler n)
      fun state => state.1.readymap where
  new _ := rfl
  own := by
    intro stop i state msg reading hRead hOwn hash
    change msg.round = i at hOwn
    unfold readyHandler at hRead
    dsimp only at hRead
    cases hRead
    dsimp only
    unfold HandleReady.read
    rw [if_neg (by omega), if_pos hOwn]
    exact increment_ballot _ _ _
  other := by
    intro stop i state msg reading hRead hOther hash
    change msg.round ≠ i at hOther
    unfold readyHandler at hRead
    dsimp only at hRead
    cases hRead
    dsimp only
    unfold HandleReady.read
    rw [if_neg hOther]
    split
    · rfl
    · rfl

/- So does the handler of ECHO. -/
theorem echoHandler_tallies :
    (ballot n).Tallies (echoHandler n)
      fun state => state.1.echomap where
  new _ := rfl
  own := by
    intro stop i state msg reading hRead hOwn hash
    change msg.round = i at hOwn
    unfold echoHandler at hRead
    dsimp only at hRead
    cases hRead
    dsimp only
    unfold HandleEcho.read
    rw [if_pos hOwn]
    exact increment_ballot _ _ _
  other := by
    intro stop i state msg reading hRead hOther hash
    change msg.round ≠ i at hOther
    unfold echoHandler at hRead
    dsimp only at hRead
    cases hRead
    dsimp only
    unfold HandleEcho.read
    rw [if_neg hOther]

/- A READY is signalled at a third, a decision at two. -/
theorem readyHandler_fired
    {state : HandleReady n × Signals}
    {reading : Reading (WRBCMsg n) (HandleReady n × Signals)}
    (hRead :
      (readyHandler n).read stop i state msg = some reading) :
    (∀ hash ∈ reading.state.2.readysignal,
        reading.state.1.readymap hash = threshold n + 1) ∧
      ∀ hash ∈ reading.state.2.outputsignal,
        reading.state.1.readymap hash =
          threshold n * 2 + 1 := by
  unfold readyHandler at hRead
  dsimp only at hRead
  cases hRead
  dsimp only
  unfold HandleReady.read
  split
  · exact ⟨List.forall_mem_nil _, List.forall_mem_nil _⟩
  · split
    · constructor
      · intro hash hMem
        split at hMem
        · rename_i hFired
          cases List.mem_singleton.mp hMem
          exact of_decide_eq_true hFired
        · cases hMem
      · intro hash hMem
        split at hMem
        · rename_i hFired
          cases List.mem_singleton.mp hMem
          exact of_decide_eq_true hFired
        · cases hMem
    · exact ⟨List.forall_mem_nil _, List.forall_mem_nil _⟩

/- It signals a hash with enough votes only. -/
theorem echoHandler_fired
    {state : HandleEcho n × Signals}
    {reading : Reading (WRBCMsg n) (HandleEcho n × Signals)}
    (hRead :
      (echoHandler n).read stop i state msg = some reading) :
    reading.state.2.outputsignal = [] ∧
      ∀ hash ∈ reading.state.2.readysignal,
        reading.state.1.echomap hash =
          threshold n * 2 + 1 := by
  unfold echoHandler at hRead
  dsimp only at hRead
  cases hRead
  refine ⟨rfl, ?_⟩
  dsimp only
  unfold HandleEcho.read
  intro hash hMem
  split at hMem
  · rename_i hOwn
    rw [if_pos hOwn]
    dsimp only at hMem ⊢
    split at hMem
    · rename_i hFired
      cases List.mem_singleton.mp hMem
      exact
        of_decide_eq_true (Bool.and_eq_true_iff.mp hFired).2
    · cases hMem
  · cases hMem

end Handlers

end WeakBroadcast

end Jumbo

------------------------------------------------------------
-- What a Follower Decides
------------------------------------------------------------

namespace Jumbo

namespace WeakBroadcast

open Protocol
open Protocol.Relay
open ReliableBroadcast (Bytes threshold)

variable {n : Nat}

namespace BCF

/- What `Start` decides to be ready for in a step. -/
def announces (s : BCF n) : BCFAction n → List (Nat × Bytes)
| .start =>
    match s.pc, s.readysignal with
    | .readysignal, hash :: _ => [(s.height, hash)]
    | _, _ => []
| _ => []

/- READY of this height has been decided on. -/
def Announced (s : BCF n) : Prop :=
  match s.pc with
  | .outputsignal => True
  | .close => True
  | .next => True
  | _ => False

/- How many heights have been decided. -/
def decided (s : BCF n) : Nat :=
  match s.pc with
  | .close => s.height + 1
  | .next => s.height + 1
  | _ => s.height

end BCF

/-
  What holds of a follower. `auth` says of a READY that it is
  genuine.
-/
structure FollowerOk
    (auth : WRBCMsg n → Prop) (s : BCF n)
    (announced : List (Nat × Bytes)) : Prop where
  past :
    ∀ x ∈ announced,
      x.1 < s.height ∨ x.1 = s.height ∧ s.Announced
  once :
    ∀ x ∈ announced, ∀ y ∈ announced, x.1 = y.1 → x = y
  readying : ∀ x ∈ s.readying, x ∈ announced
  ready :
    (ballot n).Audited (readyHandler n)
      (fun state => state.1.readymap) auth s.ready
  signalled :
    ∀ hash ∈ s.outputsignal,
      Quorum auth (threshold n * 2 + 1) s.height hash
  decided : s.roundinfoCH.length = s.decided
  infos :
    ∀ (i : Nat) info, s.roundinfoCH[i]? = some info →
      info.height = i ∧
        Quorum auth (threshold n * 2 + 1) i info.valuehash

section Follower

variable {nid : Fin n} {auth auth' : WRBCMsg n → Prop}
variable {s s' : BCF n} {announced : List (Nat × Bytes)}

/- A follower that has not started knows nothing. -/
theorem followerOk_init :
    FollowerOk auth (BCF.init n) [] where
  past := List.forall_mem_nil _
  once := List.forall_mem_nil _
  readying := List.forall_mem_nil _
  ready := Ballot.audited_init readyHandler_tallies
  signalled := List.forall_mem_nil _
  decided := rfl
  infos := by
    intro i info hAt
    cases hAt

/- More votes keep a follower backed. -/
theorem FollowerOk.mono
    (hOk : FollowerOk auth s announced)
    (hAuth : ∀ msg, auth msg → auth' msg) :
    FollowerOk auth' s announced :=
  { hOk with
    ready := hOk.ready.mono hAuth
    signalled := fun hash hMem =>
      (hOk.signalled hash hMem).mono hAuth
    infos := fun i info hAt =>
      ⟨(hOk.infos i info hAt).1,
        (hOk.infos i info hAt).2.mono hAuth⟩ }

/- Messages that come only have to be genuine. -/
theorem FollowerOk.readyIn
    (hOk : FollowerOk auth s announced)
    {msg : WRBCMsg n} (hMsg : auth msg)
    (hExec : s.exec nid (.readyIn msg) = some s') :
    FollowerOk auth s' announced := by
  dsimp only [BCF.exec] at hExec
  split at hExec
  · cases hExec
    exact { hOk with ready := hOk.ready.arrive hMsg }
  · cases hExec
    exact hOk

/- An ECHO that comes is not counted yet. -/
theorem FollowerOk.echoIn
    (hOk : FollowerOk auth s announced) {msg : WRBCMsg n}
    (hExec : s.exec nid (.echoIn msg) = some s') :
    FollowerOk auth s' announced := by
  dsimp only [BCF.exec] at hExec
  split at hExec
  · cases hExec
    exact { hOk with }
  · cases hExec
    exact hOk

/- The own READY is announced before it is sent. -/
theorem FollowerOk.sendReady
    (hOk : FollowerOk auth s announced)
    (hOwn : ∀ x ∈ announced, auth ⟨nid, x.1, x.2⟩)
    {k : Nat}
    (hExec : s.exec nid (.sendReady k) = some s') :
    FollowerOk auth s' announced := by
  rcases Option.bind_eq_some_iff.mp hExec with
    ⟨⟨height, hash⟩, hAt, hEq⟩
  cases hEq
  have hMem := hOk.readying _ (List.mem_of_getElem? hAt)
  refine
    { hOk with
      readying := ?_
      ready := hOk.ready.arrive (hOwn _ hMem) }
  intro x hx
  exact hOk.readying x (List.mem_of_mem_eraseIdx hx)

/- Where nothing is announced for a height yet. -/
theorem FollowerOk.before
    (hOk : FollowerOk auth s announced)
    (hNot : ¬ s.Announced) :
    ∀ x ∈ announced, x.1 < s.height := by
  intro x hMem
  rcases hOk.past x hMem with hLt | ⟨_, hAnnounced⟩
  · exact hLt
  · exact absurd hAnnounced hNot

/- The first signal of a height is announced. -/
theorem FollowerOk.announce
    (hOk : FollowerOk auth s announced)
    (hPc : s.pc = .readysignal)
    {hash : Bytes} {rest : List Bytes} :
    FollowerOk auth
      { s with
        readysignal := rest
        readying := s.readying ++ [(s.height, hash)]
        pc := .outputsignal }
      (announced ++ [(s.height, hash)]) := by
  have hBefore := hOk.before (by
    unfold BCF.Announced
    rw [hPc]
    exact not_false)
  have hDecided := hOk.decided
  unfold BCF.decided at hDecided
  rw [hPc] at hDecided
  refine
    { hOk with
      past := ?_
      once :=
        once_append hOk.once fun x hMem =>
          Nat.ne_of_lt (hBefore x hMem)
      readying := ?_
      decided := hDecided }
  · intro x hMem
    rcases List.mem_append.mp hMem with hOld | hNew
    · exact .inl (hBefore x hOld)
    · cases List.mem_singleton.mp hNew
      exact .inr ⟨rfl, trivial⟩
  · intro x hx
    rcases List.mem_append.mp hx with hOld | hNew
    · exact List.mem_append_left _ (hOk.readying x hOld)
    · exact List.mem_append_right _ hNew

/- What is decided has a quorum. -/
theorem FollowerOk.decide
    (hOk : FollowerOk auth s announced)
    (hPc : s.pc = .outputsignal)
    {hash : Bytes} {rest : List Bytes}
    (hSignal : s.outputsignal = hash :: rest) :
    FollowerOk auth
      { s with
        outputsignal := rest
        roundinfoCH := s.roundinfoCH ++ [⟨s.height, hash⟩]
        pc := .close }
      announced := by
  have hEnough := hOk.signalled
  rw [hSignal] at hEnough
  have hDecided := hOk.decided
  unfold BCF.decided at hDecided
  rw [hPc] at hDecided
  refine
    { hOk with
      past := ?_
      signalled := fun other hMem =>
        hEnough other (List.mem_cons_of_mem _ hMem)
      decided := ?_
      infos := ?_ }
  · intro x hMem
    rcases hOk.past x hMem with hLt | ⟨hEq, _⟩
    · exact .inl hLt
    · exact .inr ⟨hEq, trivial⟩
  · rw [List.length_append, hDecided]
    rfl
  · intro i info hAt
    rcases Nat.lt_or_ge i s.roundinfoCH.length with hOld | hNew
    · rw [List.getElem?_append_left hOld] at hAt
      exact hOk.infos i info hAt
    · rw [List.getElem?_append_right hNew,
        List.getElem?_singleton] at hAt
      split at hAt
      · rename_i hZero
        cases hAt
        have hEq : i = s.height := by
          rw [hDecided] at hNew hZero
          dsimp only at hNew hZero
          omega
        subst hEq
        exact ⟨rfl, hEnough hash List.mem_cons_self⟩
      · cases hAt

/- The main loop announces a hash it has a signal for. -/
theorem FollowerOk.start
    (hOk : FollowerOk auth s announced)
    (hExec : s.start = some s') :
    FollowerOk auth s' (announced ++ s.announces .start) := by
  unfold BCF.announces
  unfold BCF.start at hExec
  have hPast := hOk.past
  have hDecided := hOk.decided
  unfold BCF.Announced at hPast
  unfold BCF.decided at hDecided
  split at hExec
  · rename_i hPc
    rw [hPc] at hPast hDecided ⊢
    rcases Option.bind_eq_some_iff.mp hExec with
      ⟨echo, _, hEq⟩
    cases hEq
    dsimp only
    rw [List.append_nil]
    refine { hOk with past := ?_, decided := ?_ }
    · intro x hMem
      exact .inl ((hPast x hMem).resolve_right fun h => h.2)
    · unfold BCF.decided
      dsimp only
      split
      · rename_i hNot
        split at hNot
        · cases hNot
        · cases hNot
      · rename_i hNot
        split at hNot
        · cases hNot
        · cases hNot
      · exact hDecided
  · rename_i hPc
    rw [hPc] at hPast hDecided ⊢
    rcases Option.bind_eq_some_iff.mp hExec with
      ⟨ready, hReady, hEq⟩
    cases hEq
    dsimp only
    rw [List.append_nil]
    refine
      { hOk with
        past := ?_
        ready := hOk.ready.prepare readyHandler_tallies hReady
        decided := ?_ }
    · intro x hMem
      exact .inl ((hPast x hMem).resolve_right fun h => h.2)
    · unfold BCF.decided
      dsimp only
      split
      · rename_i hNot
        split at hNot
        · cases hNot
        · cases hNot
      · rename_i hNot
        split at hNot
        · cases hNot
        · cases hNot
      · exact hDecided
  · rename_i hPc
    split at hExec
    · cases hExec
    · rename_i hash rest hSignal
      cases hExec
      rw [hPc, hSignal]
      exact hOk.announce hPc
  · rename_i hPc
    split at hExec
    · cases hExec
    · rename_i hash rest hSignal
      cases hExec
      rw [hPc]
      dsimp only
      rw [List.append_nil]
      exact hOk.decide hPc hSignal
  · rename_i hPc
    rw [hPc] at hPast hDecided ⊢
    rcases Option.bind_eq_some_iff.mp hExec with
      ⟨echo, _, hRest⟩
    rcases Option.bind_eq_some_iff.mp hRest with
      ⟨ready, hReady, hEq⟩
    cases hEq
    dsimp only
    rw [List.append_nil]
    exact
      { hOk with
        past := hPast
        ready := hOk.ready.close hReady
        decided := hDecided }
  · rename_i hPc
    rw [hPc] at hPast hDecided ⊢
    rcases Option.bind_eq_some_iff.mp hExec with
      ⟨echo, _, hRest⟩
    rcases Option.bind_eq_some_iff.mp hRest with
      ⟨ready, hReady, hEq⟩
    cases hEq
    dsimp only
    rw [List.append_nil]
    refine
      { hOk with
        past := ?_
        ready := hOk.ready.next hReady
        signalled := List.forall_mem_nil _
        decided := hDecided }
    intro x hMem
    rcases hPast x hMem with hLt | ⟨hEq, _⟩
    · exact .inl (Nat.lt_succ_of_lt hLt)
    · exact .inl (Nat.lt_succ_of_le (Nat.le_of_eq hEq))

/- What the handler of the round has signalled. -/
theorem FollowerOk.signal
    (hOk : FollowerOk auth s announced)
    (i : Nat) (a : Act) (signals : Signals)
    (hQuorum :
      a = .work → i = s.height →
        ∀ hash ∈ signals.outputsignal,
          Quorum auth (threshold n * 2 + 1) s.height hash) :
    FollowerOk auth (s.signalled i a signals) announced := by
  unfold BCF.signalled
  split
  · rename_i hAt
    refine { hOk with signalled := ?_ }
    intro hash hMem
    rcases List.mem_append.mp hMem with hOld | hNew
    · exact hOk.signalled hash hOld
    · exact hQuorum hAt.1 hAt.2 hash hNew
  · exact hOk

/- Reading an ECHO counts no READY. -/
theorem FollowerOk.echo
    (hOk : FollowerOk auth s announced) {i : Nat} {a : Act}
    (hExec : s.exec nid (.echo i a) = some s') :
    FollowerOk auth s' announced := by
  rcases Option.bind_eq_some_iff.mp hExec with
    ⟨echo, hEcho, hEq⟩
  cases hEq
  have hBefore :
      FollowerOk auth { s with echo := echo } announced :=
    { hOk with }
  apply hBefore.signal
  rintro rfl _ hash hMem
  rcases Lane.act_work hEcho with
    ⟨msg, reading, _, hRead, hWorker⟩
  rw [hWorker] at hMem
  dsimp only at hMem
  rw [(echoHandler_fired hRead).1] at hMem
  cases hMem

/- A vote counted in the lane counts for the quorum. -/
theorem audited_quorum
    {σ : Type} {hd : Handler (WRBCMsg n) σ}
    {count : σ → Bytes → Nat} {L : Lane (WRBCMsg n) σ}
    (hAudited : (ballot n).Audited hd count auth L)
    (hRound : ∀ msg, hd.round msg = msg.round)
    {i k : Nat} {hash : Bytes}
    (hCount : count (L.workers i).state hash = k) :
    Quorum auth k i hash := by
  rcases hAudited.quorum hCount with ⟨S, hCard, hS⟩
  refine ⟨S, hCard, fun j hMem => ?_⟩
  rcases hS j hMem with ⟨msg, hAuth, hOwn, rfl, rfl⟩
  have hSame : msg = ⟨msg.id, i, msg.content⟩ := by
    rw [← hOwn, hRound]
  rw [hSame] at hAuth
  exact hAuth

/- A READY is counted with its sender. -/
theorem FollowerOk.ready_act
    (hOk : FollowerOk auth s announced) {i : Nat} {a : Act}
    (hOnce :
      a = .work →
        (ballot n).countsOnce (readyHandler n) s.ready i =
          true)
    (hExec : s.exec nid (.ready i a) = some s') :
    FollowerOk auth s' announced := by
  rcases Option.bind_eq_some_iff.mp hExec with
    ⟨ready, hReady, hEq⟩
  cases hEq
  have hLane :=
    hOk.ready.act readyHandler_tallies readyHandler_sendsOn
      hOnce hReady
  have hBefore :
      FollowerOk auth { s with ready := ready } announced :=
    { hOk with ready := hLane }
  apply hBefore.signal
  rintro rfl hHeight hash hMem
  rcases Lane.act_work hReady with
    ⟨msg, reading, _, hRead, hWorker⟩
  rw [hWorker] at hMem
  have hCount := (readyHandler_fired hRead).2 hash hMem
  change i = s.height at hHeight
  rw [← hHeight]
  apply audited_quorum hLane fun _ => rfl
  rw [hWorker]
  exact hCount

/- Every step keeps a follower backed. -/
theorem FollowerOk.exec
    (hOk : FollowerOk auth s announced)
    (hOwn : ∀ x ∈ announced, auth ⟨nid, x.1, x.2⟩)
    {action : BCFAction n}
    (hMsg : ∀ msg, action = .readyIn msg → auth msg)
    (hOnce :
      ∀ i, action = .ready i .work →
        (ballot n).countsOnce (readyHandler n) s.ready i =
          true)
    (hExec : s.exec nid action = some s') :
    FollowerOk auth s' (announced ++ s.announces action) := by
  cases action with
  | readyIn msg =>
      dsimp only [BCF.announces]
      rw [List.append_nil]
      exact hOk.readyIn (hMsg msg rfl) hExec
  | echoIn msg =>
      dsimp only [BCF.announces]
      rw [List.append_nil]
      exact hOk.echoIn hExec
  | sendEcho round hash =>
      dsimp only [BCF.announces]
      rw [List.append_nil]
      cases hExec
      exact { hOk with }
  | sendReady k =>
      dsimp only [BCF.announces]
      rw [List.append_nil]
      exact hOk.sendReady hOwn hExec
  | start => exact hOk.start hExec
  | echo i a =>
      dsimp only [BCF.announces]
      rw [List.append_nil]
      exact hOk.echo hExec
  | ready i a =>
      dsimp only [BCF.announces]
      rw [List.append_nil]
      refine hOk.ready_act ?_ hExec
      rintro rfl
      exact hOnce i rfl

end Follower

end WeakBroadcast

end Jumbo

------------------------------------------------------------
-- What a Follower Is Ready For
------------------------------------------------------------

namespace Jumbo

namespace WeakBroadcast

open Protocol
open Protocol.Relay
open ReliableBroadcast (Bytes threshold)

variable {n : Nat}

/- Two thirds echo the hash, or a third is ready for it. -/
def Justified
    (echoAuth auth : WRBCMsg n → Prop) (height : Nat)
    (hash : Bytes) : Prop :=
  Quorum echoAuth (threshold n * 2 + 1) height hash ∨
    Quorum auth (threshold n + 1) height hash

/- Every READY of a follower is justified. -/
structure Justifies
    (echoAuth auth : WRBCMsg n → Prop) (s : BCF n)
    (announced : List (Nat × Bytes)) : Prop where
  echo :
    (ballot n).Audited (echoHandler n)
      (fun state => state.1.echomap) echoAuth s.echo
  signalled :
    ∀ hash ∈ s.readysignal,
      Justified echoAuth auth s.height hash
  announced :
    ∀ x ∈ announced, Justified echoAuth auth x.1 x.2

section Justifies

variable {nid : Fin n}
variable {echoAuth echoAuth' auth auth' : WRBCMsg n → Prop}
variable {s s' : BCF n} {announced : List (Nat × Bytes)}

theorem justifies_init :
    Justifies echoAuth auth (BCF.init n) [] where
  echo := Ballot.audited_init echoHandler_tallies
  signalled := List.forall_mem_nil _
  announced := List.forall_mem_nil _

/- The main loop announces a justified hash. -/
theorem Justifies.start
    (hJust : Justifies echoAuth auth s announced)
    (hExec : s.start = some s') :
    Justifies echoAuth auth s'
      (announced ++ s.announces .start) := by
  unfold BCF.announces
  unfold BCF.start at hExec
  split at hExec
  · rename_i hPc
    rcases Option.bind_eq_some_iff.mp hExec with
      ⟨echo, hEcho, hEq⟩
    cases hEq
    rw [hPc]
    dsimp only
    rw [List.append_nil]
    exact
      { hJust with
        echo := hJust.echo.prepare echoHandler_tallies hEcho }
  · rename_i hPc
    rcases Option.bind_eq_some_iff.mp hExec with
      ⟨ready, _, hEq⟩
    cases hEq
    rw [hPc]
    dsimp only
    rw [List.append_nil]
    exact { hJust with }
  · rename_i hPc
    split at hExec
    · cases hExec
    · rename_i hash rest hSignal
      cases hExec
      have hBacked := hJust.signalled
      rw [hSignal] at hBacked
      rw [hPc, hSignal]
      refine
        { hJust with
          signalled := fun other hMem =>
            hBacked other (List.mem_cons_of_mem _ hMem)
          announced := ?_ }
      intro x hMem
      rcases List.mem_append.mp hMem with hOld | hNew
      · exact hJust.announced x hOld
      · cases List.mem_singleton.mp hNew
        exact hBacked hash List.mem_cons_self
  · rename_i hPc
    split at hExec
    · cases hExec
    · cases hExec
      rw [hPc]
      dsimp only
      rw [List.append_nil]
      exact { hJust with }
  · rename_i hPc
    rcases Option.bind_eq_some_iff.mp hExec with
      ⟨echo, hEcho, hRest⟩
    rcases Option.bind_eq_some_iff.mp hRest with
      ⟨ready, _, hEq⟩
    cases hEq
    rw [hPc]
    dsimp only
    rw [List.append_nil]
    exact { hJust with echo := hJust.echo.close hEcho }
  · rename_i hPc
    rcases Option.bind_eq_some_iff.mp hExec with
      ⟨echo, hEcho, hRest⟩
    rcases Option.bind_eq_some_iff.mp hRest with
      ⟨ready, _, hEq⟩
    cases hEq
    rw [hPc]
    dsimp only
    rw [List.append_nil]
    exact
      { hJust with
        echo := hJust.echo.next hEcho
        signalled := List.forall_mem_nil _ }

/- A signal for a justified hash may come. -/
theorem Justifies.signal
    (hJust : Justifies echoAuth auth s announced)
    (i : Nat) (a : Act) (signals : Signals)
    (hJustified :
      a = .work → i = s.height →
        ∀ hash ∈ signals.readysignal,
          Justified echoAuth auth s.height hash) :
    Justifies echoAuth auth (s.signalled i a signals)
      announced := by
  unfold BCF.signalled
  split
  · rename_i hAt
    refine { hJust with signalled := ?_ }
    intro hash hMem
    rcases List.mem_append.mp hMem with hOld | hNew
    · exact hJust.signalled hash hOld
    · exact hJustified hAt.1 hAt.2 hash hNew
  · exact hJust

/- An ECHO is counted with its sender. -/
theorem Justifies.echo_act
    (hJust : Justifies echoAuth auth s announced)
    {i : Nat} {a : Act}
    (hOnce :
      a = .work →
        (ballot n).countsOnce (echoHandler n) s.echo i = true)
    (hExec : s.exec nid (.echo i a) = some s') :
    Justifies echoAuth auth s' announced := by
  rcases Option.bind_eq_some_iff.mp hExec with
    ⟨echo, hEcho, hEq⟩
  cases hEq
  have hLane :=
    hJust.echo.act echoHandler_tallies echoHandler_sendsOn
      hOnce hEcho
  have hBefore :
      Justifies echoAuth auth { s with echo := echo }
        announced :=
    { hJust with echo := hLane }
  apply hBefore.signal
  rintro rfl hHeight hash hMem
  rcases Lane.act_work hEcho with
    ⟨msg, reading, _, hRead, hWorker⟩
  rw [hWorker] at hMem
  have hCount := (echoHandler_fired hRead).2 hash hMem
  change i = s.height at hHeight
  left
  rw [← hHeight]
  apply audited_quorum hLane fun _ => rfl
  rw [hWorker]
  exact hCount

/- A READY is counted with its sender. -/
theorem Justifies.ready_act
    (hJust : Justifies echoAuth auth s announced)
    (hOk : FollowerOk auth s announced) {i : Nat} {a : Act}
    (hOnce :
      a = .work →
        (ballot n).countsOnce (readyHandler n) s.ready i =
          true)
    (hExec : s.exec nid (.ready i a) = some s') :
    Justifies echoAuth auth s' announced := by
  rcases Option.bind_eq_some_iff.mp hExec with
    ⟨ready, hReady, hEq⟩
  cases hEq
  have hLane :=
    hOk.ready.act readyHandler_tallies readyHandler_sendsOn
      hOnce hReady
  have hBefore :
      Justifies echoAuth auth { s with ready := ready }
        announced :=
    { hJust with }
  apply hBefore.signal
  rintro rfl hHeight hash hMem
  rcases Lane.act_work hReady with
    ⟨msg, reading, _, hRead, hWorker⟩
  rw [hWorker] at hMem
  have hCount := (readyHandler_fired hRead).1 hash hMem
  change i = s.height at hHeight
  right
  rw [← hHeight]
  apply audited_quorum hLane fun _ => rfl
  rw [hWorker]
  exact hCount

/- Every step keeps what is announced justified. -/
theorem Justifies.exec
    (hJust : Justifies echoAuth auth s announced)
    (hOk : FollowerOk auth s announced)
    {action : BCFAction n}
    (hEcho :
      ∀ msg,
        (action = .echoIn msg ∨
          action = .sendEcho msg.round msg.content ∧
            msg.id = nid) → echoAuth msg)
    (hOnce :
      ∀ i, action = .ready i .work →
        (ballot n).countsOnce (readyHandler n) s.ready i =
          true)
    (hEchoOnce :
      ∀ i, action = .echo i .work →
        (ballot n).countsOnce (echoHandler n) s.echo i = true)
    (hExec : s.exec nid action = some s') :
    Justifies echoAuth auth s'
      (announced ++ s.announces action) := by
  cases action with
  | readyIn msg =>
      dsimp only [BCF.announces, BCF.exec] at hExec ⊢
      rw [List.append_nil]
      split at hExec
      · cases hExec
        exact { hJust with }
      · cases hExec
        exact hJust
  | echoIn msg =>
      dsimp only [BCF.announces, BCF.exec] at hExec ⊢
      rw [List.append_nil]
      split at hExec
      · cases hExec
        exact
          { hJust with
            echo := hJust.echo.arrive (hEcho msg (.inl rfl)) }
      · cases hExec
        exact hJust
  | sendEcho round hash =>
      dsimp only [BCF.announces]
      rw [List.append_nil]
      cases hExec
      have hMsg : echoAuth ⟨nid, round, hash⟩ :=
        hEcho _ (.inr ⟨rfl, rfl⟩)
      exact { hJust with echo := hJust.echo.arrive hMsg }
  | sendReady k =>
      dsimp only [BCF.announces]
      rw [List.append_nil]
      rcases Option.bind_eq_some_iff.mp hExec with
        ⟨⟨height, hash⟩, _, hEq⟩
      cases hEq
      exact { hJust with }
  | start => exact hJust.start hExec
  | echo i a =>
      dsimp only [BCF.announces]
      rw [List.append_nil]
      refine hJust.echo_act ?_ hExec
      rintro rfl
      exact hEchoOnce i rfl
  | ready i a =>
      dsimp only [BCF.announces]
      rw [List.append_nil]
      refine hJust.ready_act hOk ?_ hExec
      rintro rfl
      exact hOnce i rfl

end Justifies

end WeakBroadcast

end Jumbo
