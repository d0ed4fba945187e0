import Jumbo.ReliableBroadcast.Signals

/-
  Agreement and totality of the broadcast with finish.

  Whatever a correct party outputs is supported by `f + 1`
  correct READY messages: that value is unique, and in a
  quiescent state these messages have made every correct
  party send READY and output.

  Main declarations:
    * `Signals`
    * `Agreement`
    * `Totality`
    * `agreement_totality`
    * `disagreement`
-/

------------------------------------------------------------
-- Signals in Every Reachable State
------------------------------------------------------------

namespace Jumbo

namespace ReliableBroadcast

open Protocol

variable {n : Nat}

/-
  What every correct party has signalled is backed by the
  messages that were sent.
-/
structure Signals
    (cfg : Config n) (byz : Finset (Fin n)) (s : State n) :
    Prop where
  follower :
    ∀ p, p ∉ byz → p ≠ cfg.lid →
      FollowerOk byz s.log p (s.follower p)
  leader : cfg.lid ∉ byz → LeaderOk cfg byz s.log s.leader
  readyCert :
    ∀ p, p ∉ byz → ∀ v, p ∈ senders s.log .ready v →
      EchoCert s.log v
  finishSupported :
    ∀ p, p ∉ byz → ∀ v, p ∈ senders s.log .finish v →
      Supported byz s.log v

/- READY is sent for a value that was signalled. -/
theorem LeaderStep.sends_ready
    {cfg : Config n} {bcl bcl' : BCL}
    {m : Option (RBCMsg n)} {ms : List (RBCMsg n)}
    (hStep : LeaderStep cfg bcl m bcl' ms)
    {m' : RBCMsg n} (hMem : m' ∈ ms)
    (hType : m'.type = .ready) :
    bcl.readysignal ≠ [] := by
  cases hStep with
  | sendVal | sendEcho =>
      rw [List.mem_singleton.mp hMem] at hType
      cases hType
  | sendReady rest _ hSignal =>
      rw [hSignal]
      exact List.cons_ne_nil _ _
  | forward1 | forward2 | echo | finish => cases hMem
  | ready =>
      split at hMem
      · rw [List.mem_singleton.mp hMem] at hType
        cases hType
      · cases hMem

/- A follower sends READY for a value it has a signal for. -/
theorem FollowerStep.sends_ready
    {cfg : Config n} {p : Fin n} {bcf bcf' : BCF}
    {m : Option (RBCMsg n)} {ms : List (RBCMsg n)}
    (hStep : FollowerStep cfg p bcf m bcf' ms)
    {m' : RBCMsg n} (hMem : m' ∈ ms)
    (hType : m'.type = .ready) :
    m'.root ∈ bcf.readysignal := by
  cases hStep with
  | sendReady value rest _ hSignal =>
      rw [List.mem_singleton.mp hMem, hSignal]
      exact List.mem_cons_self
  | val =>
      rw [List.mem_singleton.mp hMem] at hType
      cases hType
  | forward1 | forward2 | echo | finish => cases hMem
  | ready =>
      split at hMem
      · rw [List.mem_singleton.mp hMem] at hType
        cases hType
      · cases hMem

/- FINISH is sent when a value has been delivered. -/
theorem LeaderStep.sends_finish
    {cfg : Config n} {bcl bcl' : BCL}
    {m : Option (RBCMsg n)} {ms : List (RBCMsg n)}
    (hStep : LeaderStep cfg bcl m bcl' ms)
    {m' : RBCMsg n} (hMem : m' ∈ ms)
    (hType : m'.type = .finish) :
    bcl.readyReturned = false ∧
      bcl'.readyReturned = true := by
  cases hStep with
  | sendVal | sendEcho | sendReady =>
      rw [List.mem_singleton.mp hMem] at hType
      cases hType
  | forward1 | forward2 | echo | finish => cases hMem
  | ready _ _ _ _ hRuns _ _ =>
      split at hMem
      · rename_i hFires
        exact ⟨hRuns, hFires⟩
      · cases hMem

/- A follower sends FINISH for a value it has a signal for. -/
theorem FollowerStep.sends_finish
    {cfg : Config n} {p : Fin n} {bcf bcf' : BCF}
    {m : Option (RBCMsg n)} {ms : List (RBCMsg n)}
    (hStep : FollowerStep cfg p bcf m bcf' ms)
    {m' : RBCMsg n} (hMem : m' ∈ ms)
    (hType : m'.type = .finish) :
    bcf'.ready.readymap m'.root = threshold n * 2 + 1 := by
  cases hStep with
  | sendReady | val =>
      rw [List.mem_singleton.mp hMem] at hType
      cases hType
  | forward1 | forward2 | echo | finish => cases hMem
  | ready m _ _ _ _ _ _ =>
      split at hMem
      · rename_i hFires
        rw [List.mem_singleton.mp hMem]
        simpa [HandleReady.read, finishMsg] using hFires
      · cases hMem

section Step

variable {cfg : Config n} {byz : Finset (Fin n)}
variable {s s' : State n} {a : Action n}

/- The broadcaster delivers when the value is supported. -/
theorem leader_delivers
    {m : Option (RBCMsg n)} {bcl : BCL}
    {ms : List (RBCMsg n)}
    (hWaits : s.Waits cfg.lid a.position m)
    (hAt : ∀ p i, a = .receive p i → p = cfg.lid)
    (hStep : LeaderStep cfg s.leader m bcl ms)
    (hOrderly : orderly cfg byz s a = true)
    (hBefore : s.leader.readyReturned = false)
    (hAfter : bcl.readyReturned = true) :
    Supported byz s.log cfg.input := by
  cases hStep with
  | sendVal | sendEcho | sendReady | forward1 | forward2
  | echo | finish =>
      rw [hBefore] at hAfter
      cases hAfter
  | ready m _ _ hType _ _ _ =>
      cases hPosition : a.position with
      | none =>
          rw [hPosition] at hWaits
          cases hWaits
      | some i =>
          rw [hPosition] at hWaits
          rcases hWaits with ⟨x, hx, _, _, rfl⟩
          rcases position_eq_some hPosition with ⟨p, rfl⟩
          have hLeader := hAt p i rfl
          subst hLeader
          have hRead := orderly_receive hOrderly hx
          simp only [orderlyRead, hType, Bool.and_eq_true]
            at hRead
          have hProper := hRead.2
          dsimp only at hAfter
          unfold Supported
          simpa [properDelivery, hAfter] using hProper

/- A quorum of READY is supported by correct parties. -/
theorem supported_of_card
    {log : BroadcastLog n (Packet n) Loc} {v : Bytes}
    (hByz : byz.card ≤ threshold n)
    (hCard :
      threshold n * 2 + 1 ≤ (senders log .ready v).card) :
    Supported byz log v := by
  have hLe := card_correct (senders log .ready v) hByz
  unfold Supported
  omega

/- A READY has a quorum of ECHO behind it. -/
theorem Signals.readyCert_step
    (hSignals : Signals cfg byz s)
    (hChange : Change cfg byz s a s') :
    ∀ p, p ∉ byz → ∀ v, p ∈ senders s'.log .ready v →
      EchoCert s'.log v := by
  intro p hp v hMem
  rcases mem_senders.mp hMem with
    ⟨x, hx, hType, rfl, rfl⟩
  by_cases hOld : x ∈ s.log.sent
  · apply EchoCert.mono ?_ hChange.sent_prefix
    exact hSignals.readyCert _ hp _
      (mem_senders.mpr ⟨x, hOld, hType, rfl, rfl⟩)
  · rcases hChange.new hx hOld hp with
      ⟨m, bcl, ms, _, _, hStep, hNew⟩ |
        ⟨q, m, bcf, ms, hNe, _, _, hStep, hNew⟩
    · rcases hStep.sends hNew with ⟨hId, hRoot⟩
      rw [hRoot]
      apply EchoCert.mono ?_ hChange.sent_prefix
      exact (hSignals.leader (hId ▸ hp)).cert
        (hStep.sends_ready hNew hType)
    · have hId := (hStep.sends hNew).1
      apply EchoCert.mono ?_ hChange.sent_prefix
      exact (hSignals.follower q (hId ▸ hp) hNe).cert _
        (hStep.sends_ready hNew hType)

/- A FINISH is sent for a supported value. -/
theorem Signals.finishSupported_step
    (hSignals : Signals cfg byz s)
    (hByz : byz.card ≤ threshold n)
    (hChange : Change cfg byz s a s')
    (hOrderly : orderly cfg byz s a = true)
    (hReach' : OrderlyReachable cfg byz s') :
    ∀ p, p ∉ byz → ∀ v, p ∈ senders s'.log .finish v →
      Supported byz s'.log v := by
  intro p hp v hMem
  rcases mem_senders.mp hMem with
    ⟨x, hx, hType, rfl, rfl⟩
  have hPrefix := hChange.sent_prefix
  by_cases hOld : x ∈ s.log.sent
  · apply Supported.mono ?_ hPrefix
    exact hSignals.finishSupported _ hp _
      (mem_senders.mpr ⟨x, hOld, hType, rfl, rfl⟩)
  · cases hChange with
    | forge packet hId =>
        rw [BroadcastLog.post_sent, List.mem_append,
          List.mem_singleton] at hx
        rcases hx with h | rfl
        · exact absurd h hOld
        · exact absurd hId hp
    | advance | closeval | panic => exact absurd hx hOld
    | leader a m bcl ms _ hWaits hAt hStep =>
        rw [broadcast_sent, List.mem_append] at hx
        rcases hx with h | hNew
        · refine absurd ?_ hOld
          rw [← afterRead_sent s cfg.lid a.position]
          exact h
        · rcases List.mem_map.mp hNew with ⟨m', hm', rfl⟩
          have hRoot : m'.toAll.msg.root = cfg.input :=
            (hStep.sends hm').2
          rcases hStep.sends_finish hm' hType with
            ⟨hBefore, hAfter⟩
          rw [hRoot]
          apply Supported.mono ?_ hPrefix
          exact leader_delivers hWaits hAt hStep hOrderly
            hBefore hAfter
    | follower a q m bcf ms hNe _ _ _ hStep =>
        rw [broadcast_sent, List.mem_append] at hx
        rcases hx with h | hNew
        · refine absurd ?_ hOld
          rw [← afterRead_sent s q a.position]
          exact h
        · rcases List.mem_map.mp hNew with ⟨m', hm', rfl⟩
          have hCount := hStep.sends_finish hm' hType
          have hSenders :=
            count_le_senders_follower hReach' hNe .ready
              rfl m'.root
          apply supported_of_card hByz
          refine Nat.le_trans ?_ hSenders
          simp [State.broadcast, State.setFollower, BCF.count,
            hCount]

/- New messages are in the log under their sender. -/
theorem mem_senders_broadcast
    {t : State n} {p : Fin n} {ms : List (RBCMsg n)}
    {m : RBCMsg n} (hMem : m ∈ ms) (hId : m.id = p) :
    p ∈ senders (t.broadcast p ms).log m.type m.root := by
  apply mem_senders.mpr
  refine ⟨m.toAll, ?_, rfl, rfl, hId⟩
  rw [broadcast_sent]
  exact List.mem_append_right _ (List.mem_map_of_mem hMem)

/- More counted than Byzantine: some sender is correct. -/
theorem exists_correct_sender
    {log : BroadcastLog n (Packet n) Loc}
    {type : RBCMsgType} {v : Bytes} {count : Nat}
    (hByz : byz.card ≤ threshold n)
    (hMany : threshold n < count)
    (hCount : count ≤ (senders log type v).card) :
    ∃ p ∈ senders log type v, p ∉ byz :=
  exists_correct
    (Nat.lt_of_le_of_lt hByz
      (Nat.lt_of_lt_of_le hMany hCount))

/- Every orderly step keeps the signals backed. -/
theorem Signals.step
    (hPos : 1 ≤ threshold n)
    (hByz : byz.card ≤ threshold n)
    (hSignals : Signals cfg byz s)
    (hChange : Change cfg byz s a s')
    (hOrderly : orderly cfg byz s a = true)
    (hReach' : OrderlyReachable cfg byz s') :
    Signals cfg byz s' := by
  have hReady := hSignals.readyCert_step hChange
  have hFinish :=
    hSignals.finishSupported_step hByz hChange hOrderly
      hReach'
  have hPrefix := hChange.sent_prefix
  refine
    { readyCert := hReady
      finishSupported := hFinish
      follower := ?_
      leader := ?_ }
  · intro p hp hNe
    have hOk := hSignals.follower p hp hNe
    have hCount := count_le_senders_follower hReach' hNe
    cases hChange with
    | forge | advance | closeval | panic =>
        exact hOk.mono hPrefix
    | leader a =>
        have hSame :
            FollowerOk byz s.log p
              ((s.afterRead cfg.lid
                a.position).follower p) := by
          cases a <;> exact hOk
        exact hSame.mono hPrefix
    | follower a q m bcf ms hqNe _ _ _ hStep =>
        by_cases hEq : p = q
        · subst hEq
          have hBcf :
              ((((s.afterRead p a.position).setFollower p
                bcf).broadcast p ms).follower p) = bcf := by
            simp [State.broadcast, State.setFollower]
          rw [hBcf] at hCount ⊢
          apply hOk.step hStep hPrefix
          exact
            { mine := fun m' hm' =>
                mem_senders_broadcast hm'
                  (hStep.sends hm').1
              echo := fun v hv =>
                Nat.le_trans hv (hCount .echo rfl v)
              ready := fun v hv =>
                supported_of_card hByz
                  (Nat.le_trans hv (hCount .ready rfl v))
              relay := by
                intro v hv
                rcases exists_correct_sender hByz hv
                    (hCount .ready rfl v) with
                  ⟨r, hr, hCorrect⟩
                exact hReady r hCorrect v hr
              finish := by
                intro v hv
                rcases exists_correct_sender hByz
                    (by omega : threshold n <
                      bcf.finish.finishmap v)
                    (hCount .finish rfl v) with
                  ⟨r, hr, hCorrect⟩
                exact hFinish r hCorrect v hr
              unique := fun v w hv hw =>
                hv.unique hByz (history hReach') hw }
        · have hSame :
              ((((s.afterRead q a.position).setFollower q
                bcf).broadcast q ms).follower p) =
                  s.follower p := by
            cases a.position <;>
              simp [State.broadcast, State.setFollower,
                State.afterRead, hEq]
          rw [hSame]
          exact hOk.mono hPrefix
  · intro hLeader
    have hOk := hSignals.leader hLeader
    have hCount := count_le_senders_leader hReach'
    cases hChange with
    | forge | advance | closeval | panic =>
        exact hOk.mono hPrefix
    | follower a q =>
        have hSame :
            LeaderOk cfg byz s.log
              (s.afterRead q a.position).leader := by
          cases a <;> exact hOk
        exact hSame.mono hPrefix
    | leader a m bcl ms _ hWaits hAt hStep =>
        apply hOk.step hStep hPrefix
        refine
          { mine := fun m' hm' => ?_
            echo := fun h =>
              Nat.le_trans h (hCount .echo rfl)
            ready := fun h => ?_
            relay := fun h => ?_
            finish := fun h => ?_ }
        · exact mem_senders_broadcast hm' (hStep.sends hm').1
        · apply Supported.mono ?_ hPrefix
          cases hBefore : s.leader.readyReturned with
          | false =>
              exact leader_delivers hWaits hAt hStep hOrderly
                hBefore h
          | true =>
              have hLength := (hOk.delivered hBefore).1
              apply hOk.output1
              by_contra hNone
              push Not at hNone
              rw [hNone.1, hNone.2] at hLength
              cases hLength
        · rcases exists_correct_sender hByz h
              (hCount .ready rfl) with
            ⟨r, hr, hCorrect⟩
          exact hReady r hCorrect _ hr
        · cases hBefore : s.leader.finishReturned with
          | true =>
              have hLength := hOk.finished hBefore
              apply Supported.mono ?_ hPrefix
              apply hOk.output2
              by_contra hNone
              push Not at hNone
              rw [hNone.1, hNone.2] at hLength
              cases hLength
          | false =>
              have hQuota :
                  bcl.finishcount = threshold n * 2 := by
                cases hStep with
                | sendVal | sendEcho | sendReady | forward1
                | forward2 | echo | ready =>
                    dsimp only at h
                    rw [hBefore] at h
                    cases h
                | finish m _ _ _ _ =>
                    unfold leaderHandleFinish at h ⊢
                    dsimp only at h ⊢
                    split at h
                    · rename_i hRoot
                      rw [if_pos hRoot]
                      simpa using h
                    · cases h
              rcases exists_correct_sender hByz
                  (by omega : threshold n < bcl.finishcount)
                  (hCount .finish rfl) with
                ⟨r, hr, hCorrect⟩
              exact hFinish r hCorrect _ hr

end Step

/- It holds in every orderly run. -/
theorem signals
    {cfg : Config n} {byz : Finset (Fin n)} {s : State n}
    (hPos : 1 ≤ threshold n)
    (hByz : byz.card ≤ threshold n)
    (hReach : OrderlyReachable cfg byz s) :
    Signals cfg byz s := by
  refine Machine.ReachableBy.invariant (Signals cfg byz) ?_ ?_
    hReach
  · exact
      { follower := fun p _ _ => FollowerOk.new byz _ p
        leader := fun _ => LeaderOk.new cfg byz _
        readyCert := by
          intro p _ v hMem
          rcases mem_senders.mp hMem with ⟨x, hx, _⟩
          cases hx
        finishSupported := by
          intro p _ v hMem
          rcases mem_senders.mp hMem with ⟨x, hx, _⟩
          cases hx }
  · intro s a s' hReach hSignals hOrderly hExec
    exact hSignals.step hPos hByz (exec_change hExec) hOrderly
      (.step hReach hOrderly hExec)

end ReliableBroadcast

end Jumbo

------------------------------------------------------------
-- Agreement
------------------------------------------------------------

namespace Jumbo

namespace ReliableBroadcast

open Protocol

variable {n : Nat}

section Signals

variable {cfg : Config n} {byz : Finset (Fin n)}
variable {s : State n}

/- Supported values have a certificate. -/
theorem Signals.supported_cert
    (hSignals : Signals cfg byz s) {v : Bytes}
    (hSupported : Supported byz s.log v) :
    EchoCert s.log v := by
  have hPos :
      0 < (senders s.log .ready v \ byz).card :=
    Nat.lt_of_lt_of_le (Nat.succ_pos _) hSupported
  rcases Finset.card_pos.mp hPos with ⟨p, hp⟩
  rw [Finset.mem_sdiff] at hp
  exact hSignals.readyCert p hp.2 v hp.1

end Signals

end ReliableBroadcast

end Jumbo

------------------------------------------------------------
-- Quiescent States
------------------------------------------------------------

namespace Jumbo

namespace ReliableBroadcast

open Protocol

variable {n : Nat}

section Quiescent

variable {cfg : Config n} {byz : Finset (Fin n)}
variable {s : State n}

/- What correct parties sent, they sent to all. -/
theorem sent_toAll
    {ok : State n → Action n → Prop}
    (hReach : (machine n cfg byz).ReachableBy ok s) :
    ∀ x ∈ s.log.sent, x.msg.id ∉ byz → x = x.msg.toAll := by
  refine Machine.ReachableBy.invariant
    (fun s : State n =>
      ∀ x ∈ s.log.sent, x.msg.id ∉ byz → x = x.msg.toAll)
    ?_ ?_ hReach
  · intro x hx
    cases hx
  · intro s a s' _ hAll _ hExec x hx hId
    by_cases hOld : x ∈ s.log.sent
    · exact hAll x hOld hId
    · have hChange := exec_change hExec
      cases hChange with
      | forge packet hByz =>
          rw [BroadcastLog.post_sent, List.mem_append,
            List.mem_singleton] at hx
          rcases hx with h | rfl
          · exact absurd h hOld
          · exact absurd hByz hId
      | advance | closeval | panic => exact absurd hx hOld
      | leader a =>
          rw [broadcast_sent, List.mem_append] at hx
          rcases hx with h | hNew
          · refine absurd ?_ hOld
            rw [← afterRead_sent s cfg.lid a.position]
            exact h
          · rcases List.mem_map.mp hNew with ⟨m, _, rfl⟩
            rfl
      | follower a p =>
          rw [broadcast_sent, List.mem_append] at hx
          rcases hx with h | hNew
          · refine absurd ?_ hOld
            rw [← afterRead_sent s p a.position]
            exact h
          · rcases List.mem_map.mp hNew with ⟨m, _, rfl⟩
            rfl

/- A message of a correct party has been read or blocks. -/
theorem Quiescent.read
    (hReach : OrderlyReachable cfg byz s)
    (hQuiescent : Quiescent cfg byz s)
    {p : Fin n} (hp : p ∉ byz) {i : Nat} {x : Packet n}
    (hMsg : s.log.sent[i]? = some x)
    (hId : x.msg.id ∉ byz) (hType : x.msg.type ≠ .val)
    (hLoc : s.log.loc p i ≠ .handled) :
    s.receive cfg p x.msg i = none := by
  have hExec :=
    (hQuiescent p hp).2.2.2 i x hMsg hId hType
  have hDest : x.dest p = true := by
    rw [sent_toAll hReach x (List.mem_of_getElem? hMsg) hId]
    simp [RBCMsg.toAll, hType]
  have hNet : s.log.loc p i = .net := by
    cases hPlace : s.log.loc p i with
    | net => rfl
    | handled => exact absurd hPlace hLoc
  unfold exec at hExec
  dsimp only at hExec
  rw [hMsg] at hExec
  simpa [State.running, hp, (history hReach).runs p, hDest,
    hNet] using hExec

/-
  A follower that does not read has a full channel or has
  returned.
-/
theorem receive_none_follower
    {p : Fin n} (hNe : p ≠ cfg.lid) {m : RBCMsg n} {i : Nat}
    (hNone : s.receive cfg p m i = none) :
    (s.follower p).receive cfg p (s.heightsnow p)
      (s.closeval p) m = .blocked := by
  unfold State.receive at hNone
  rw [if_neg hNe] at hNone
  cases hOutcome :
      (s.follower p).receive cfg p (s.heightsnow p)
        (s.closeval p) m with
  | blocked => rfl
  | panic =>
      rw [hOutcome] at hNone
      cases hNone
  | next =>
      rw [hOutcome] at hNone
      cases hNone

/- So it is with the leader. -/
theorem receive_none_leader
    {m : RBCMsg n} {i : Nat}
    (hNone : s.receive cfg cfg.lid m i = none) :
    s.leader.receive cfg m = .blocked := by
  unfold State.receive at hNone
  rw [if_pos rfl] at hNone
  cases hOutcome : s.leader.receive cfg m with
  | blocked => rfl
  | panic =>
      rw [hOutcome] at hNone
      cases hNone
  | next =>
      rw [hOutcome] at hNone
      cases hNone

/- Why reading a READY or FINISH can block. -/
theorem blocked_follower
    {p : Fin n} {bcf : BCF} {heightsnow : List (List Int)}
    {closeval : Bool} {m : RBCMsg n}
    (hBlocked :
      bcf.receive cfg p heightsnow closeval m = .blocked) :
    (m.type = .ready →
      bcf.ready.returned = true ∨
        2 ≤ bcf.readysignal.length ∨
          2 ≤ bcf.output1signal.length) ∧
    (m.type = .finish →
      bcf.finish.returned = true ∨
        2 ≤ bcf.output2signal.length) := by
  unfold BCF.receive at hBlocked
  split at hBlocked
  · cases hBlocked
  constructor
  · intro hType
    rw [hType] at hBlocked
    unfold BCF.handleReady at hBlocked
    dsimp only at hBlocked
    split at hBlocked
    · rename_i hReturned
      exact .inl hReturned
    · split at hBlocked
      · cases hBlocked
      · rename_i hFull
        right
        cases hRelay :
            push 2 bcf.readysignal
              (if (bcf.ready.read n m.root).2.relay
                then some m.root else none) with
        | none => exact .inl (push_eq_none hRelay)
        | some readysignal =>
            cases hDeliver :
                push 2 bcf.output1signal
                  (if (bcf.ready.read n m.root).2.deliver
                    then some m.root else none) with
            | none => exact .inr (push_eq_none hDeliver)
            | some output1signal =>
                exact (hFull _ _ hRelay hDeliver).elim
  · intro hType
    rw [hType] at hBlocked
    unfold BCF.handleFinish at hBlocked
    dsimp only at hBlocked
    split at hBlocked
    · rename_i hReturned
      exact .inl hReturned
    · split at hBlocked
      · rename_i hFull
        exact .inr (push_eq_none hFull)
      · cases hBlocked

/- What blocks the leader for a message. -/
theorem blocked_leader
    {bcl : BCL} {m : RBCMsg n}
    (hBlocked : bcl.receive cfg m = .blocked) :
    (m.type = .ready →
      bcl.readyReturned = true ∨
        2 ≤ bcl.readysignal.length ∨
          2 ≤ bcl.output1signal.length) ∧
    (m.type = .finish →
      bcl.finishReturned = true ∨
        2 ≤ bcl.output2signal.length) := by
  unfold BCL.receive at hBlocked
  split at hBlocked
  · cases hBlocked
  constructor
  · intro hType
    rw [hType] at hBlocked
    unfold BCL.handleReady at hBlocked
    dsimp only at hBlocked
    split at hBlocked
    · rename_i hReturned
      exact .inl hReturned
    · split at hBlocked
      · cases hBlocked
      · rename_i hFull
        right
        cases hRelay :
            push 2 bcl.readysignal
              (if (leaderHandleReady n cfg.input
                  bcl.readycount m.root).2.relay
                then some () else none) with
        | none => exact .inl (push_eq_none hRelay)
        | some readysignal =>
            cases hDeliver :
                push 2 bcl.output1signal
                  (if (leaderHandleReady n cfg.input
                      bcl.readycount m.root).2.deliver
                    then some () else none) with
            | none => exact .inr (push_eq_none hDeliver)
            | some output1signal =>
                exact (hFull _ _ hRelay hDeliver).elim
  · intro hType
    rw [hType] at hBlocked
    unfold BCL.handleFinish at hBlocked
    dsimp only at hBlocked
    split at hBlocked
    · rename_i hReturned
      exact .inl hReturned
    · split at hBlocked
      · rename_i hFull
        exact .inr (push_eq_none hFull)
      · cases hBlocked

/-
  A party has counted all messages of some correct senders,
  unless one of them blocks.
-/
theorem Quiescent.counted_or_blocked
    (hReach : OrderlyReachable cfg byz s)
    (hQuiescent : Quiescent cfg byz s)
    {p : Fin n} (hp : p ∉ byz)
    (type : RBCMsgType) (hType : type ≠ .val)
    {v : Bytes} {A : Finset (Fin n)}
    (hSub : A ⊆ senders s.log type v \ byz) :
    A.card ≤ s.log.tally p .handled (isKind type v) ∨
      ∃ (m : RBCMsg n) (i : Nat), m.type = type ∧
        s.receive cfg p m i = none := by
  by_cases hBlocks :
      ∃ (m : RBCMsg n) (i : Nat), m.type = type ∧
        s.receive cfg p m i = none
  · exact .inr hBlocks
  left
  apply BroadcastLog.card_le_tally _ Packet.src
  intro q hq
  rcases Finset.mem_sdiff.mp (hSub hq) with ⟨hSends, hqByz⟩
  rcases mem_senders.mp hSends with
    ⟨x, hx, hxType, hxRoot, rfl⟩
  rcases List.mem_iff_getElem?.mp hx with ⟨i, hi⟩
  refine ⟨i, x, hi, by simp [isKind, hxType, hxRoot], rfl, ?_⟩
  by_contra hLoc
  apply hBlocks
  exact ⟨x.msg, i, hxType,
    hQuiescent.read hReach hp hi hqByz
      (by rw [hxType]; exact hType) hLoc⟩

/- In a quiet state a follower has sent its READY. -/
theorem Quiescent.sendReady_follower
    (hReach : OrderlyReachable cfg byz s)
    (hQuiescent : Quiescent cfg byz s)
    {p : Fin n} (hp : p ∉ byz) (hNe : p ≠ cfg.lid)
    (hSignal : (s.follower p).readysignal ≠ []) :
    (s.follower p).readySent = true := by
  have hExec := (hQuiescent p hp).1
  simp only [exec, State.running, hp, not_false_eq_true,
    decide_true, (history hReach).runs p, Bool.not_false,
    Bool.and_self, if_true, if_neg hNe] at hExec
  by_contra hNot
  rcases List.exists_cons_of_ne_nil hSignal with
    ⟨value, rest, hEq⟩
  have hUnsent : (s.follower p).readySent = false := by
    simpa using hNot
  simp [BCF.sendReady, hEq, hUnsent, State.stepFollower]
    at hExec

/- So has the leader. -/
theorem Quiescent.sendReady_leader
    (hReach : OrderlyReachable cfg byz s)
    (hQuiescent : Quiescent cfg byz s)
    (hp : cfg.lid ∉ byz)
    (hSignal : s.leader.readysignal ≠ []) :
    s.leader.readySent = true := by
  have hExec := (hQuiescent cfg.lid hp).1
  simp only [exec, State.running, hp, not_false_eq_true,
    decide_true, (history hReach).runs cfg.lid,
    Bool.not_false, Bool.and_self, if_true] at hExec
  by_contra hNot
  rcases List.exists_cons_of_ne_nil hSignal with
    ⟨value, rest, hEq⟩
  have hUnsent : s.leader.readySent = false := by
    simpa using hNot
  simp [BCL.sendReady, hEq, hUnsent, State.stepLeader]
    at hExec

/- Start has forwarded what was signalled. -/
theorem Quiescent.forward_follower
    (hReach : OrderlyReachable cfg byz s)
    (hQuiescent : Quiescent cfg byz s)
    {p : Fin n} (hp : p ∉ byz) (hNe : p ≠ cfg.lid)
    (hRoom :
      (s.follower p).output1.length +
        (s.follower p).output2.length < 2) :
    (s.follower p).output1signal = [] := by
  have hExec := (hQuiescent p hp).2.1
  simp only [exec, State.running, hp, not_false_eq_true,
    decide_true, (history hReach).runs p, Bool.not_false,
    Bool.and_self, if_true, if_neg hNe] at hExec
  by_contra hSignal
  rcases List.exists_cons_of_ne_nil hSignal with
    ⟨value, rest, hEq⟩
  simp [BCF.forward1, hEq, hRoom, State.stepFollower] at hExec

/- In a quiet state the leader has put out what it could. -/
theorem Quiescent.forward_leader
    (hReach : OrderlyReachable cfg byz s)
    (hQuiescent : Quiescent cfg byz s)
    (hp : cfg.lid ∉ byz)
    (hRoom :
      s.leader.output1.length + s.leader.output2.length <
        2) :
    s.leader.output2signal = [] := by
  have hExec := (hQuiescent cfg.lid hp).2.2.1
  simp only [exec, State.running, hp, not_false_eq_true,
    decide_true, (history hReach).runs cfg.lid,
    Bool.not_false, Bool.and_self, if_true] at hExec
  by_contra hSignal
  rcases List.exists_cons_of_ne_nil hSignal with
    ⟨value, rest, hEq⟩
  simp [BCL.forward2, hEq, hRoom, State.stepLeader] at hExec

end Quiescent

end ReliableBroadcast

end Jumbo

------------------------------------------------------------
-- Totality
------------------------------------------------------------

namespace Jumbo

namespace ReliableBroadcast

open Protocol

variable {n : Nat}

section Totality

variable {cfg : Config n} {byz : Finset (Fin n)}
variable {s : State n}

/- Four parties tolerate a fault. -/
theorem one_le_threshold (hN : 4 ≤ n) :
    1 ≤ threshold n := by
  unfold threshold
  omega

/- A third of the parties may be faulty. -/
theorem threshold_lt (hN : 4 ≤ n) :
    3 * threshold n + 1 ≤ n := by
  unfold threshold
  omega

/- A correct follower relays a supported READY. -/
theorem Quiescent.follower_ready
    (hReach : OrderlyReachable cfg byz s)
    (hSignals : Signals cfg byz s)
    (hQuiescent : Quiescent cfg byz s)
    {v : Bytes} (hSupported : Supported byz s.log v)
    {p : Fin n} (hp : p ∉ byz) (hNe : p ≠ cfg.lid) :
    (s.follower p).readySent = true := by
  have hOk := hSignals.follower p hp hNe
  have hRelay :
      ∃ w, threshold n + 1 ≤
        (s.follower p).ready.readymap w := by
    cases hReturned : (s.follower p).ready.returned with
    | true => exact (hOk.delivered hReturned).2.2
    | false =>
        rcases hQuiescent.counted_or_blocked hReach hp
            .ready (by decide)
            (Finset.Subset.refl _) with
          hCount | ⟨m, i, hType, hNone⟩
        · refine ⟨v, ?_⟩
          have hTally :=
            (counted hReach).follower p hNe .ready rfl v
          change (s.follower p).ready.readymap v = _ at hTally
          rw [hTally]
          exact Nat.le_trans hSupported hCount
        · have hBlocked :=
            (blocked_follower
              (receive_none_follower hNe hNone)).1 hType
          rcases hBlocked with h | h | h
          · rw [hReturned] at h
            cases h
          · by_contra hFew
            push Not at hFew
            have hRoom :=
              hOk.byEcho fun w => Nat.le_of_lt_succ (hFew w)
            unfold BCF.signalled at hRoom
            omega
          · rw [(hOk.waiting hReturned).1] at h
            cases h
  rcases hRelay with ⟨w, hw⟩
  rcases hOk.relayed w hw with h | h
  · exact hQuiescent.sendReady_follower hReach hp hNe h
  · exact h

/- So does a correct broadcaster. -/
theorem Quiescent.leader_ready
    (hPos : 1 ≤ threshold n)
    (hReach : OrderlyReachable cfg byz s)
    (hSignals : Signals cfg byz s)
    (hQuiescent : Quiescent cfg byz s)
    (hSupported : Supported byz s.log cfg.input)
    (hp : cfg.lid ∉ byz) :
    s.leader.readySent = true := by
  have hOk := hSignals.leader hp
  have hRelay :
      threshold n + 1 ≤ s.leader.readycount ∨
        s.leader.readysignal ≠ [] := by
    cases hReturned : s.leader.readyReturned with
    | true => exact .inl ((hOk.delivered hReturned).2 hPos)
    | false =>
        rcases hQuiescent.counted_or_blocked hReach hp
            .ready (by decide)
            (Finset.Subset.refl _) with
          hCount | ⟨m, i, hType, hNone⟩
        · left
          have hTally := (counted hReach).leader .ready rfl
          change s.leader.readycount = _ at hTally
          rw [hTally]
          exact Nat.le_trans hSupported hCount
        · have hBlocked :=
            (blocked_leader
              (receive_none_leader hNone)).1 hType
          rcases hBlocked with h | h | h
          · rw [hReturned] at h
            cases h
          · right
            intro hNil
            rw [hNil] at h
            cases h
          · rw [(hOk.waiting hReturned).1] at h
            cases h
  rcases hRelay with hMany | hSignal
  · rcases hOk.relayed hMany with h | h
    · exact hQuiescent.sendReady_leader hReach hp h
    · exact h
  · exact hQuiescent.sendReady_leader hReach hp hSignal

/- Every correct party has sent READY for the value. -/
theorem Quiescent.all_ready
    (hPos : 1 ≤ threshold n)
    (hByz : byz.card ≤ threshold n)
    (hReach : OrderlyReachable cfg byz s)
    (hQuiescent : Quiescent cfg byz s)
    {v : Bytes} (hSupported : Supported byz s.log v)
    {p : Fin n} (hp : p ∉ byz) :
    p ∈ senders s.log .ready v := by
  have hSignals := signals hPos hByz hReach
  have hHistory := history hReach
  have hCert := hSignals.supported_cert hSupported
  by_cases hLeader : p = cfg.lid
  · subst hLeader
    have hInput := hCert.eq_input hByz hHistory hp
    subst hInput
    exact (hSignals.leader hp).sent
      (hQuiescent.leader_ready hPos hReach hSignals
        hSupported hp)
  · have hSent :=
      hQuiescent.follower_ready hReach hSignals hSupported
        hp hLeader
    rcases (hSignals.follower p hp hLeader).sent hSent with
      ⟨w, hw⟩
    have hEq :=
      (hSignals.readyCert p hp w hw).unique hByz hHistory
        hCert
    rw [← hEq]
    exact hw

/- So every correct follower has delivered by READY. -/
theorem Quiescent.follower_returned
    (hN : 4 ≤ n)
    (hByz : byz.card ≤ threshold n)
    (hReach : OrderlyReachable cfg byz s)
    (hQuiescent : Quiescent cfg byz s)
    {v : Bytes} (hSupported : Supported byz s.log v)
    {p : Fin n} (hp : p ∉ byz) (hNe : p ≠ cfg.lid) :
    (s.follower p).ready.returned = true := by
  have hPos := one_le_threshold hN
  have hSignals := signals hPos hByz hReach
  have hOk := hSignals.follower p hp hNe
  by_contra hNot
  have hRuns : (s.follower p).ready.returned = false := by
    simpa using hNot
  have hAll :
      byzᶜ ⊆ senders s.log .ready v \ byz := by
    intro q hq
    rw [Finset.mem_compl] at hq
    exact Finset.mem_sdiff.mpr
      ⟨hQuiescent.all_ready hPos hByz hReach hSupported hq,
        hq⟩
  have hCard := card_compl_eq byz
  rw [Fintype.card_fin] at hCard
  have hSize := threshold_lt hN
  rcases hQuiescent.counted_or_blocked hReach hp
      .ready (by decide) hAll with
    hCount | ⟨m, i, hType, hNone⟩
  · have hTally :=
      (counted hReach).follower p hNe .ready rfl v
    change (s.follower p).ready.readymap v = _ at hTally
    have hFew := (hOk.waiting hRuns).2.2 v
    omega
  · have hBlocked :=
      (blocked_follower
        (receive_none_follower hNe hNone)).1 hType
    rcases hBlocked with h | h | h
    · exact hNot h
    · -- two signals wait although one has been taken
      have hSent :=
        hQuiescent.follower_ready hReach hSignals hSupported
          hp hNe
      have hRoom := hOk.room
      rw [BCF.signalled, if_pos hSent] at hRoom
      omega
    · rw [(hOk.waiting hRuns).1] at h
      cases h

/-
  In a quiet state every follower has put out a supported
  value.
-/
theorem Quiescent.follower_output
    (hN : 4 ≤ n)
    (hByz : byz.card ≤ threshold n)
    (hReach : OrderlyReachable cfg byz s)
    (hQuiescent : Quiescent cfg byz s)
    {v : Bytes} (hSupported : Supported byz s.log v)
    {p : Fin n} (hp : p ∉ byz) (hNe : p ≠ cfg.lid) :
    s.outputs cfg p ≠ [] := by
  have hPos := one_le_threshold hN
  have hOk :=
    (signals hPos hByz hReach).follower p hp hNe
  have hReturned :=
    hQuiescent.follower_returned hN hByz hReach hSupported
      hp hNe
  have hLength := (hOk.delivered hReturned).2.1
  have hLength2 : (s.follower p).output2.length ≤ 1 := by
    cases hFinished : (s.follower p).finish.returned with
    | true =>
        have hEq := hOk.finished hFinished
        omega
    | false =>
        rw [(hOk.unfinished hFinished).2.1]
        exact Nat.zero_le _
  have hOutput1 : (s.follower p).output1 ≠ [] := by
    intro hNil
    rw [hNil, List.length_nil, Nat.add_zero] at hLength
    have hSignal :=
      hQuiescent.forward_follower hReach hp hNe (by
        rw [hNil, List.length_nil]
        omega)
    rw [hSignal] at hLength
    cases hLength
  unfold State.outputs
  rw [if_neg hNe]
  intro hNil
  exact hOutput1 (List.append_eq_nil_iff.mp hNil).1

/- The broadcaster has read enough FINISH. -/
theorem Quiescent.leader_finished
    (hN : 4 ≤ n)
    (hByz : byz.card ≤ threshold n)
    (hReach : OrderlyReachable cfg byz s)
    (hQuiescent : Quiescent cfg byz s)
    {v : Bytes} (hSupported : Supported byz s.log v)
    (hp : cfg.lid ∉ byz) :
    s.leader.finishReturned = true := by
  have hPos := one_le_threshold hN
  have hSignals := signals hPos hByz hReach
  have hHistory := history hReach
  have hOk := hSignals.leader hp
  have hCert := hSignals.supported_cert hSupported
  have hInput := hCert.eq_input hByz hHistory hp
  subst hInput
  by_contra hNot
  have hRuns : s.leader.finishReturned = false := by
    simpa using hNot
  have hAll :
      byzᶜ.erase cfg.lid ⊆
        senders s.log .finish cfg.input \ byz := by
    intro q hq
    rw [Finset.mem_erase, Finset.mem_compl] at hq
    have hFollower :=
      hSignals.follower q hq.2 hq.1
    have hDelivered :=
      hQuiescent.follower_returned hN hByz hReach
        hSupported hq.2 hq.1
    rcases (hFollower.delivered hDelivered).1 with ⟨w, hw⟩
    have hEq :=
      (hSignals.supported_cert
        (hSignals.finishSupported q hq.2 w hw)).unique
        hByz hHistory hCert
    rw [← hEq]
    exact Finset.mem_sdiff.mpr ⟨hw, hq.2⟩
  have hCard := card_compl_eq byz
  rw [Fintype.card_fin] at hCard
  have hErase :
      (byzᶜ.erase cfg.lid).card + 1 = byzᶜ.card :=
    Finset.card_erase_add_one (by simpa using hp)
  have hSize := threshold_lt hN
  rcases hQuiescent.counted_or_blocked hReach hp
      .finish (by decide) hAll with
    hCount | ⟨m, i, hType, hNone⟩
  · have hTally := (counted hReach).leader .finish rfl
    change s.leader.finishcount = _ at hTally
    have hFew := (hOk.unfinished hRuns).2.2 hPos
    omega
  · have hBlocked :=
      (blocked_leader
        (receive_none_leader hNone)).2 hType
    rcases hBlocked with h | h
    · exact hNot h
    · rw [(hOk.unfinished hRuns).1] at h
      cases h

/- The broadcaster delivers at the latest by FINISH. -/
theorem Quiescent.leader_output
    (hN : 4 ≤ n)
    (hByz : byz.card ≤ threshold n)
    (hReach : OrderlyReachable cfg byz s)
    (hQuiescent : Quiescent cfg byz s)
    {v : Bytes} (hSupported : Supported byz s.log v)
    (hp : cfg.lid ∉ byz) :
    s.outputs cfg cfg.lid ≠ [] := by
  have hPos := one_le_threshold hN
  have hOk := (signals hPos hByz hReach).leader hp
  have hReturned :=
    hQuiescent.leader_finished hN hByz hReach hSupported hp
  have hLength := hOk.finished hReturned
  have hLength1 : s.leader.output1.length ≤ 1 := by
    cases hDelivered : s.leader.readyReturned with
    | true =>
        have hEq := (hOk.delivered hDelivered).1
        omega
    | false =>
        rw [(hOk.waiting hDelivered).2]
        exact Nat.zero_le _
  have hOutput2 : s.leader.output2 ≠ [] := by
    intro hNil
    rw [hNil, List.length_nil, Nat.add_zero] at hLength
    have hSignal :=
      hQuiescent.forward_leader hReach hp (by
        rw [hNil, List.length_nil]
        omega)
    rw [hSignal] at hLength
    cases hLength
  unfold State.outputs
  rw [if_pos rfl]
  intro hNil
  exact hOutput2 (List.append_eq_nil_iff.mp hNil).2

end Totality

/- A check of `Quiescent` that can be evaluated. -/
def quiet
    (cfg : Config n) (byz : Finset (Fin n)) (s : State n)
    (p : Fin n) : Bool :=
  (exec cfg byz s (.sendReady p)).isNone &&
    (exec cfg byz s (.forward1 p)).isNone &&
    (exec cfg byz s (.forward2 p)).isNone &&
    (List.range s.log.sent.length).all fun i =>
      (exec cfg byz s (.receive p i)).isNone ||
        (s.log.sent[i]?).any fun packet =>
          packet.msg.type = .val

/- Everybody reads all of the first `count` messages. -/
def readAll (n count : Nat) : List (Action n) :=
  (List.range count).flatMap fun i =>
    (List.finRange n).map fun p => .receive p i

/- All parties read all messages. -/
def correctRun : List (Action 4) :=
  [.sendVal, .sendEcho] ++ readAll 4 5 ++
    (List.finRange 4).map .sendReady ++ readAll 4 13 ++
    (List.finRange 4).map .forward1 ++
    (List.finRange 4).map .forward2

/- A message of party 4 for two of the others. -/
def split
    (type : RBCMsgType) (root : Bytes) (p q : Fin 5) :
    Action 5 :=
  .forge ⟨⟨4, 0, type, root⟩, fun r => r = p || r = q⟩

end ReliableBroadcast

end Jumbo
