import Jumbo.ReliableBroadcast.Network

/-
  What one step of the broadcast can do.

  Every enabled action is inverted once into the goroutine
  step it makes; all later invariants go by these cases.

  Main declarations:
    * `LeaderStep`
    * `FollowerStep`
    * `Change`
    * `exec_change`
-/

------------------------------------------------------------
-- Goroutine Steps
------------------------------------------------------------

namespace Jumbo

namespace ReliableBroadcast

open Protocol

variable {n : Nat}

/- What a send into a channel leaves there. -/
theorem push_eq_some
    {α : Type} {cap : Nat} {channel channel' : List α}
    {value : Option α}
    (hPush : push cap channel value = some channel') :
    channel' = channel ++ value.toList ∧
      (value.isSome = true → channel.length < cap) := by
  cases value with
  | none =>
      cases hPush
      simp
  | some value =>
      rcases Option.ite_none_right_eq_some.mp hPush with
        ⟨hRoom, hEq⟩
      cases hEq
      exact ⟨rfl, fun _ => hRoom⟩

/- A signal only waits for a full channel. -/
theorem push_eq_none
    {α : Type} {cap : Nat} {channel : List α}
    {value : Option α}
    (hPush : push cap channel value = none) :
    cap ≤ channel.length := by
  cases value with
  | none => cases hPush
  | some value =>
      by_contra hLt
      have hRoom : channel.length < cap :=
        Nat.lt_of_not_le hLt
      simp [push, hRoom] at hPush

/-
  A step of the broadcaster: the message it reads, its new
  state and what it broadcasts.
-/
inductive LeaderStep (cfg : Config n) (bcl : BCL) :
    Option (RBCMsg n) → BCL → List (RBCMsg n) → Prop
| sendVal (hNot : bcl.valSent = false) :
    LeaderStep cfg bcl none
      { bcl with valSent := true } [valMsg cfg]
| sendEcho (hNot : bcl.echoSent = false) :
    LeaderStep cfg bcl none
      { bcl with echoSent := true }
      [echoMsg cfg cfg.lid cfg.input]
| sendReady (rest : List Unit)
    (hNot : bcl.readySent = false)
    (hSignal : bcl.readysignal = () :: rest) :
    LeaderStep cfg bcl none
      { bcl with readysignal := rest, readySent := true }
      [readyMsg cfg cfg.lid cfg.input]
| forward1 (rest : List Unit)
    (hSignal : bcl.output1signal = () :: rest) :
    LeaderStep cfg bcl none
      { bcl with
        output1signal := rest
        output1 := bcl.output1 ++ [cfg.input] } []
| forward2 (rest : List Unit)
    (hSignal : bcl.output2signal = () :: rest) :
    LeaderStep cfg bcl none
      { bcl with
        output2signal := rest
        output2 := bcl.output2 ++ [cfg.input] } []
| echo (m : RBCMsg n) (readysignal : List Unit)
    (hType : m.type = .echo)
    (hPush :
      push 2 bcl.readysignal
        (if (leaderHandleEcho n cfg.input bcl.echocount
            m.root).2 then some () else none) =
          some readysignal) :
    LeaderStep cfg bcl (some m)
      { bcl with
        echocount :=
          (leaderHandleEcho n cfg.input bcl.echocount
            m.root).1
        readysignal := readysignal } []
| ready (m : RBCMsg n)
    (readysignal output1signal : List Unit)
    (hType : m.type = .ready)
    (hRuns : bcl.readyReturned = false)
    (hRelay :
      push 2 bcl.readysignal
        (if (leaderHandleReady n cfg.input bcl.readycount
            m.root).2.relay then some () else none) =
          some readysignal)
    (hDeliver :
      push 2 bcl.output1signal
        (if (leaderHandleReady n cfg.input bcl.readycount
            m.root).2.deliver then some () else none) =
          some output1signal) :
    LeaderStep cfg bcl (some m)
      { bcl with
        readycount :=
          (leaderHandleReady n cfg.input bcl.readycount
            m.root).1
        readyReturned :=
          (leaderHandleReady n cfg.input bcl.readycount
            m.root).2.deliver
        readysignal := readysignal
        output1signal := output1signal }
      (if (leaderHandleReady n cfg.input bcl.readycount
          m.root).2.deliver then
          [finishMsg cfg cfg.lid cfg.input]
        else [])
| finish (m : RBCMsg n) (output2signal : List Unit)
    (hType : m.type = .finish)
    (hRuns : bcl.finishReturned = false)
    (hDeliver :
      push 2 bcl.output2signal
        (if (leaderHandleFinish n cfg.input
            bcl.finishcount m.root).2
          then some () else none) =
          some output2signal) :
    LeaderStep cfg bcl (some m)
      { bcl with
        finishcount :=
          (leaderHandleFinish n cfg.input
            bcl.finishcount m.root).1
        finishReturned :=
          (leaderHandleFinish n cfg.input
            bcl.finishcount m.root).2
        output2signal := output2signal } []

/- The same for a follower. -/
inductive FollowerStep
    (cfg : Config n) (p : Fin n) (bcf : BCF) :
    Option (RBCMsg n) → BCF → List (RBCMsg n) → Prop
| sendReady (value : Bytes) (rest : List Bytes)
    (hNot : bcf.readySent = false)
    (hSignal : bcf.readysignal = value :: rest) :
    FollowerStep cfg p bcf none
      { bcf with readysignal := rest, readySent := true }
      [readyMsg cfg p value]
| forward1 (value : Bytes) (rest : List Bytes)
    (hSignal : bcf.output1signal = value :: rest) :
    FollowerStep cfg p bcf none
      { bcf with
        output1signal := rest
        output1 := bcf.output1 ++ [value] } []
| forward2 (value : Bytes) (rest : List Bytes)
    (hSignal : bcf.output2signal = value :: rest) :
    FollowerStep cfg p bcf none
      { bcf with
        output2signal := rest
        output2 := bcf.output2 ++ [value] } []
| val (m : RBCMsg n) (heightsnow : List (List Int))
    (hType : m.type = .val)
    (hCheck :
      checkInputRBC cfg.unmarshal m.root heightsnow =
        some true) :
    FollowerStep cfg p bcf (some m) bcf
      [echoMsg cfg p m.root]
| echo (m : RBCMsg n) (readysignal : List Bytes)
    (hType : m.type = .echo)
    (hRuns : bcf.echo.returned = false)
    (hPush :
      push 2 bcf.readysignal (bcf.echo.read n m.root).2 =
        some readysignal) :
    FollowerStep cfg p bcf (some m)
      { bcf with
        echo := (bcf.echo.read n m.root).1
        readysignal := readysignal } []
| ready (m : RBCMsg n)
    (readysignal output1signal : List Bytes)
    (hType : m.type = .ready)
    (hRuns : bcf.ready.returned = false)
    (hRelay :
      push 2 bcf.readysignal
        (if (bcf.ready.read n m.root).2.relay
          then some m.root else none) = some readysignal)
    (hDeliver :
      push 2 bcf.output1signal
        (if (bcf.ready.read n m.root).2.deliver
          then some m.root else none) =
          some output1signal) :
    FollowerStep cfg p bcf (some m)
      { bcf with
        ready := (bcf.ready.read n m.root).1
        readysignal := readysignal
        output1signal := output1signal }
      (if (bcf.ready.read n m.root).2.deliver then
          [finishMsg cfg p m.root]
        else [])
| finish (m : RBCMsg n) (output2signal : List Bytes)
    (hType : m.type = .finish)
    (hRuns : bcf.finish.returned = false)
    (hDeliver :
      push 2 bcf.output2signal
        (if (bcf.finish.read n m.root).2
          then some m.root else none) =
          some output2signal) :
    FollowerStep cfg p bcf (some m)
      { bcf with
        finish := (bcf.finish.read n m.root).1
        output2signal := output2signal } []

/- Every message the leader reads makes one of the steps. -/
theorem leaderStep_receive
    {cfg : Config n} {bcl bcl' : BCL} {m : RBCMsg n}
    {ms : List (RBCMsg n)}
    (hReceive : bcl.receive cfg m = .next bcl' ms) :
    LeaderStep cfg bcl (some m) bcl' ms := by
  unfold BCL.receive at hReceive
  split at hReceive
  · cases hReceive
  · split at hReceive
    · cases hReceive
    · rename_i hType
      unfold BCL.handleEcho at hReceive
      dsimp only at hReceive
      split at hReceive
      · cases hReceive
      · rename_i readysignal hPush
        cases hReceive
        exact .echo m readysignal hType hPush
    · rename_i hType
      unfold BCL.handleReady at hReceive
      split at hReceive
      · cases hReceive
      · rename_i hRuns
        dsimp only at hReceive
        split at hReceive
        · rename_i readysignal output1signal hRelay hDeliver
          cases hReceive
          exact .ready m readysignal output1signal hType
            (by simpa using hRuns) hRelay hDeliver
        · cases hReceive
    · rename_i hType
      unfold BCL.handleFinish at hReceive
      split at hReceive
      · cases hReceive
      · rename_i hRuns
        dsimp only at hReceive
        split at hReceive
        · cases hReceive
        · rename_i output2signal hDeliver
          cases hReceive
          exact .finish m output2signal hType
            (by simpa using hRuns) hDeliver
    · cases hReceive

/- So it is with a follower. -/
theorem followerStep_receive
    {cfg : Config n} {p : Fin n} {bcf bcf' : BCF}
    {heightsnow : List (List Int)} {closeval : Bool}
    {m : RBCMsg n} {ms : List (RBCMsg n)}
    (hReceive :
      bcf.receive cfg p heightsnow closeval m =
        .next bcf' ms) :
    FollowerStep cfg p bcf (some m) bcf' ms := by
  unfold BCF.receive at hReceive
  split at hReceive
  · cases hReceive
  · split at hReceive
    · rename_i hType
      unfold BCF.handleVal at hReceive
      split at hReceive
      · cases hReceive
      · split at hReceive
        · cases hReceive
        · cases hReceive
        · rename_i hCheck
          cases hReceive
          exact .val m heightsnow hType hCheck
    · rename_i hType
      unfold BCF.handleEcho at hReceive
      split at hReceive
      · cases hReceive
      · rename_i hRuns
        dsimp only at hReceive
        split at hReceive
        · cases hReceive
        · rename_i readysignal hPush
          cases hReceive
          exact .echo m readysignal hType
            (by simpa using hRuns) hPush
    · rename_i hType
      unfold BCF.handleReady at hReceive
      split at hReceive
      · cases hReceive
      · rename_i hRuns
        dsimp only at hReceive
        split at hReceive
        · rename_i readysignal output1signal hRelay hDeliver
          cases hReceive
          exact .ready m readysignal output1signal hType
            (by simpa using hRuns) hRelay hDeliver
        · cases hReceive
    · rename_i hType
      unfold BCF.handleFinish at hReceive
      split at hReceive
      · cases hReceive
      · rename_i hRuns
        dsimp only at hReceive
        split at hReceive
        · cases hReceive
        · rename_i output2signal hDeliver
          cases hReceive
          exact .finish m output2signal hType
            (by simpa using hRuns) hDeliver
    · cases hReceive

theorem leaderStep_sendReady
    {cfg : Config n} {bcl bcl' : BCL}
    {ms : List (RBCMsg n)}
    (hStep : bcl.sendReady cfg = some (bcl', ms)) :
    LeaderStep cfg bcl none bcl' ms := by
  unfold BCL.sendReady at hStep
  split at hStep
  · rename_i rest hNot hSignal
    cases hStep
    exact .sendReady rest hNot hSignal
  · cases hStep

theorem followerStep_sendReady
    {cfg : Config n} {p : Fin n} {bcf bcf' : BCF}
    {ms : List (RBCMsg n)}
    (hStep : bcf.sendReady cfg p = some (bcf', ms)) :
    FollowerStep cfg p bcf none bcf' ms := by
  unfold BCF.sendReady at hStep
  split at hStep
  · rename_i value rest hNot hSignal
    cases hStep
    exact .sendReady value rest hNot hSignal
  · cases hStep

theorem leaderStep_forward1
    {cfg : Config n} {bcl bcl' : BCL}
    (hStep : bcl.forward1 cfg = some bcl') :
    LeaderStep cfg bcl none bcl' [] := by
  unfold BCL.forward1 at hStep
  split at hStep
  · rename_i rest hSignal
    rcases Option.ite_none_right_eq_some.mp hStep with
      ⟨_, hEq⟩
    cases hEq
    exact .forward1 rest hSignal
  · cases hStep

theorem leaderStep_forward2
    {cfg : Config n} {bcl bcl' : BCL}
    (hStep : bcl.forward2 cfg = some bcl') :
    LeaderStep cfg bcl none bcl' [] := by
  unfold BCL.forward2 at hStep
  split at hStep
  · rename_i rest hSignal
    rcases Option.ite_none_right_eq_some.mp hStep with
      ⟨_, hEq⟩
    cases hEq
    exact .forward2 rest hSignal
  · cases hStep

theorem followerStep_forward1
    {cfg : Config n} {p : Fin n} {bcf bcf' : BCF}
    (hStep : bcf.forward1 = some bcf') :
    FollowerStep cfg p bcf none bcf' [] := by
  unfold BCF.forward1 at hStep
  split at hStep
  · rename_i value rest hSignal
    rcases Option.ite_none_right_eq_some.mp hStep with
      ⟨_, hEq⟩
    cases hEq
    exact .forward1 value rest hSignal
  · cases hStep

theorem followerStep_forward2
    {cfg : Config n} {p : Fin n} {bcf bcf' : BCF}
    (hStep : bcf.forward2 = some bcf') :
    FollowerStep cfg p bcf none bcf' [] := by
  unfold BCF.forward2 at hStep
  split at hStep
  · rename_i value rest hSignal
    rcases Option.ite_none_right_eq_some.mp hStep with
      ⟨_, hEq⟩
    cases hEq
    exact .forward2 value rest hSignal
  · cases hStep

end ReliableBroadcast

end Jumbo

------------------------------------------------------------
-- System Steps
------------------------------------------------------------

namespace Jumbo

namespace ReliableBroadcast

open Protocol

variable {n : Nat}

/- The log after `p` has read position `i`, if it read one. -/
def State.afterRead
    (s : State n) (p : Fin n) : Option Nat → State n
| none => s
| some i => { s with log := s.log.move p i .handled }

/- The position read holds the message and waited for `p`. -/
def State.Waits
    (s : State n) (p : Fin n) :
    Option Nat → Option (RBCMsg n) → Prop
| none, none => True
| some i, some m =>
    ∃ packet, s.log.sent[i]? = some packet ∧
      packet.dest p = true ∧ s.log.loc p i = .net ∧
        packet.msg = m
| _, _ => False

/- The position an action reads. -/
def Action.position : Action n → Option Nat
| .receive _ i => some i
| _ => none

/- What a step does, case by case. -/
inductive Change
    (cfg : Config n) (byz : Finset (Fin n)) (s : State n) :
    Action n → State n → Prop
| forge (packet : Packet n) (hId : packet.msg.id ∈ byz) :
    Change cfg byz s (.forge packet)
      { s with
        log := s.log.post packet.msg.id .net .net packet }
| advance (p : Fin n) (heightsnow : List (List Int)) :
    Change cfg byz s (.advance p heightsnow)
      { s with
        heightsnow :=
          Function.update s.heightsnow p heightsnow }
| closeval (p : Fin n) :
    Change cfg byz s (.closeval p)
      { s with
        closeval := Function.update s.closeval p true }
| panic (p : Fin n) (i : Nat) (packet : Packet n)
    (hMsg : s.log.sent[i]? = some packet)
    (hPanic :
      packet.msg.round ≠ cfg.round ∨
        packet.msg.type = .other ∨
          packet.msg.type = .val ∧
            (p = cfg.lid ∨
              checkInputRBC cfg.unmarshal packet.msg.root
                (s.heightsnow p) = none)) :
    Change cfg byz s (.receive p i)
      { s with panicked := Function.update s.panicked p true }
| leader (a : Action n) (m : Option (RBCMsg n))
    (bcl : BCL) (ms : List (RBCMsg n))
    (hRuns : s.running byz cfg.lid = true)
    (hWaits : s.Waits cfg.lid a.position m)
    (hAt : ∀ p i, a = .receive p i → p = cfg.lid)
    (hStep : LeaderStep cfg s.leader m bcl ms) :
    Change cfg byz s a
      ({ s.afterRead cfg.lid a.position with
          leader := bcl }.broadcast cfg.lid ms)
| follower (a : Action n) (p : Fin n)
    (m : Option (RBCMsg n))
    (bcf : BCF) (ms : List (RBCMsg n))
    (hNe : p ≠ cfg.lid)
    (hRuns : s.running byz p = true)
    (hWaits : s.Waits p a.position m)
    (hAt : ∀ q i, a = .receive q i → q = p)
    (hStep : FollowerStep cfg p (s.follower p) m bcf ms) :
    Change cfg byz s a
      (((s.afterRead p a.position).setFollower p
        bcf).broadcast p ms)

/- A step of the leader is a change. -/
theorem stepLeader_change
    {cfg : Config n} {byz : Finset (Fin n)}
    {s s' : State n} {a : Action n}
    {next : Option (BCL × List (RBCMsg n))}
    (hRuns : s.running byz cfg.lid = true)
    (hPosition : a.position = none)
    (hNext :
      ∀ bcl ms, next = some (bcl, ms) →
        LeaderStep cfg s.leader none bcl ms)
    (hExec : s.stepLeader cfg next = some s') :
    Change cfg byz s a s' := by
  cases next with
  | none => cases hExec
  | some next =>
      cases hExec
      have hChange :
          Change cfg byz s a
            ({ s.afterRead cfg.lid a.position with
              leader := next.1 }.broadcast cfg.lid next.2) :=
        .leader a none next.1 next.2 hRuns
          (by rw [hPosition]; trivial)
          (by rintro p i rfl; cases hPosition)
          (hNext _ _ rfl)
      rw [hPosition] at hChange
      exact hChange

/- A step of a follower is a change. -/
theorem stepFollower_change
    {cfg : Config n} {byz : Finset (Fin n)}
    {s s' : State n} {a : Action n} {p : Fin n}
    {next : Option (BCF × List (RBCMsg n))}
    (hNe : p ≠ cfg.lid)
    (hRuns : s.running byz p = true)
    (hPosition : a.position = none)
    (hNext :
      ∀ bcf ms, next = some (bcf, ms) →
        FollowerStep cfg p (s.follower p) none bcf ms)
    (hExec : s.stepFollower p next = some s') :
    Change cfg byz s a s' := by
  cases next with
  | none => cases hExec
  | some next =>
      cases hExec
      have hChange :
          Change cfg byz s a
            (((s.afterRead p a.position).setFollower p
              next.1).broadcast p next.2) :=
        .follower a p none next.1 next.2 hNe hRuns
          (by rw [hPosition]; trivial)
          (by rintro q i rfl; cases hPosition)
          (hNext _ _ rfl)
      rw [hPosition] at hChange
      exact hChange

/- When reading a message makes the process panic. -/
theorem receive_panic_leader
    {cfg : Config n} {bcl : BCL} {m : RBCMsg n}
    (hPanic : bcl.receive cfg m = .panic) :
    m.round ≠ cfg.round ∨ m.type = .other ∨
      m.type = .val := by
  unfold BCL.receive at hPanic
  split at hPanic
  · rename_i hRound
    exact .inl hRound
  · split at hPanic
    · rename_i hType
      exact .inr (.inr hType)
    · unfold BCL.handleEcho at hPanic
      dsimp only at hPanic
      split at hPanic <;> cases hPanic
    · unfold BCL.handleReady at hPanic
      split at hPanic
      · cases hPanic
      · dsimp only at hPanic
        split at hPanic <;> cases hPanic
    · unfold BCL.handleFinish at hPanic
      split at hPanic
      · cases hPanic
      · dsimp only at hPanic
        split at hPanic <;> cases hPanic
    · rename_i hType
      exact .inr (.inl hType)

/- What makes a follower panic. -/
theorem receive_panic_follower
    {cfg : Config n} {p : Fin n} {bcf : BCF}
    {heightsnow : List (List Int)} {closeval : Bool}
    {m : RBCMsg n}
    (hPanic :
      bcf.receive cfg p heightsnow closeval m = .panic) :
    m.round ≠ cfg.round ∨ m.type = .other ∨
      m.type = .val ∧
        checkInputRBC cfg.unmarshal m.root heightsnow =
          none := by
  unfold BCF.receive at hPanic
  split at hPanic
  · rename_i hRound
    exact .inl hRound
  · split at hPanic
    · rename_i hType
      unfold BCF.handleVal at hPanic
      split at hPanic
      · cases hPanic
      · split at hPanic
        · rename_i hCheck
          exact .inr (.inr ⟨hType, hCheck⟩)
        · cases hPanic
        · cases hPanic
    · unfold BCF.handleEcho at hPanic
      split at hPanic
      · cases hPanic
      · dsimp only at hPanic
        split at hPanic <;> cases hPanic
    · unfold BCF.handleReady at hPanic
      split at hPanic
      · cases hPanic
      · dsimp only at hPanic
        split at hPanic <;> cases hPanic
    · unfold BCF.handleFinish at hPanic
      split at hPanic
      · cases hPanic
      · dsimp only at hPanic
        split at hPanic <;> cases hPanic
    · rename_i hType
      exact .inr (.inl hType)

/- Every step of the system is one of these changes. -/
theorem exec_change
    {cfg : Config n} {byz : Finset (Fin n)}
    {s s' : State n} {a : Action n}
    (hExec : exec cfg byz s a = some s') :
    Change cfg byz s a s' := by
  cases a with
  | forge packet =>
      rcases Option.ite_none_right_eq_some.mp hExec with
        ⟨hId, hEq⟩
      cases hEq
      exact .forge packet hId
  | advance p heightsnow =>
      cases hExec
      exact .advance p heightsnow
  | closeval p =>
      cases hExec
      exact .closeval p
  | receive p i =>
      unfold exec at hExec
      dsimp only at hExec
      split at hExec
      · rename_i packet hMsg
        rcases Option.ite_none_right_eq_some.mp hExec with
          ⟨⟨hRuns, hDest, hLoc⟩, hReceive⟩
        unfold State.receive at hReceive
        have hWaits :
            s.Waits p (some i) (some packet.msg) :=
          ⟨packet, hMsg, hDest, hLoc, rfl⟩
        split at hReceive
        · rename_i hLeader
          subst hLeader
          cases hOutcome : s.leader.receive cfg packet.msg with
          | blocked =>
              rw [hOutcome] at hReceive
              cases hReceive
          | panic =>
              rw [hOutcome] at hReceive
              cases hReceive
              apply Change.panic _ i packet hMsg
              rcases receive_panic_leader hOutcome with
                h | h | h
              · exact .inl h
              · exact .inr (.inl h)
              · exact .inr (.inr ⟨h, .inl rfl⟩)
          | next bcl ms =>
              rw [hOutcome] at hReceive
              cases hReceive
              exact .leader (.receive cfg.lid i)
                (some packet.msg) bcl ms hRuns hWaits
                (by intro q j h; cases h; rfl)
                (leaderStep_receive hOutcome)
        · rename_i hNe
          cases hOutcome :
              (s.follower p).receive cfg p (s.heightsnow p)
                (s.closeval p) packet.msg with
          | blocked =>
              rw [hOutcome] at hReceive
              cases hReceive
          | panic =>
              rw [hOutcome] at hReceive
              cases hReceive
              apply Change.panic _ i packet hMsg
              rcases receive_panic_follower hOutcome with
                h | h | ⟨h, hCheck⟩
              · exact .inl h
              · exact .inr (.inl h)
              · exact .inr (.inr ⟨h, .inr hCheck⟩)
          | next bcf ms =>
              rw [hOutcome] at hReceive
              cases hReceive
              exact .follower (.receive p i) p
                (some packet.msg) bcf ms hNe hRuns hWaits
                (by intro q j h; cases h; rfl)
                (followerStep_receive hOutcome)
      · cases hExec
  | sendVal =>
      rcases Option.ite_none_right_eq_some.mp hExec with
        ⟨hRuns, hStep⟩
      apply stepLeader_change hRuns rfl ?_ hStep
      intro bcl ms hNext
      unfold BCL.sendVal at hNext
      split at hNext
      · cases hNext
      · rename_i hNot
        cases hNext
        exact .sendVal (by simpa using hNot)
  | sendEcho =>
      rcases Option.ite_none_right_eq_some.mp hExec with
        ⟨hRuns, hStep⟩
      apply stepLeader_change hRuns rfl ?_ hStep
      intro bcl ms hNext
      unfold BCL.sendEcho at hNext
      split at hNext
      · cases hNext
      · rename_i hNot
        cases hNext
        exact .sendEcho (by simpa using hNot)
  | sendReady p =>
      rcases Option.ite_none_right_eq_some.mp hExec with
        ⟨hRuns, hStep⟩
      split at hStep
      · rename_i hLeader
        subst hLeader
        exact stepLeader_change hRuns rfl
          (fun _ _ hNext => leaderStep_sendReady hNext) hStep
      · rename_i hNe
        exact stepFollower_change hNe hRuns rfl
          (fun _ _ hNext => followerStep_sendReady hNext)
          hStep
  | forward1 p =>
      rcases Option.ite_none_right_eq_some.mp hExec with
        ⟨hRuns, hStep⟩
      split at hStep
      · rename_i hLeader
        subst hLeader
        apply stepLeader_change hRuns rfl ?_ hStep
        intro bcl ms hNext
        rcases Option.map_eq_some_iff.mp hNext with
          ⟨bcl', hForward, hEq⟩
        cases hEq
        exact leaderStep_forward1 hForward
      · rename_i hNe
        apply stepFollower_change hNe hRuns rfl ?_ hStep
        intro bcf ms hNext
        rcases Option.map_eq_some_iff.mp hNext with
          ⟨bcf', hForward, hEq⟩
        cases hEq
        exact followerStep_forward1 hForward
  | forward2 p =>
      rcases Option.ite_none_right_eq_some.mp hExec with
        ⟨hRuns, hStep⟩
      split at hStep
      · rename_i hLeader
        subst hLeader
        apply stepLeader_change hRuns rfl ?_ hStep
        intro bcl ms hNext
        rcases Option.map_eq_some_iff.mp hNext with
          ⟨bcl', hForward, hEq⟩
        cases hEq
        exact leaderStep_forward2 hForward
      · rename_i hNe
        apply stepFollower_change hNe hRuns rfl ?_ hStep
        intro bcf ms hNext
        rcases Option.map_eq_some_iff.mp hNext with
          ⟨bcf', hForward, hEq⟩
        cases hEq
        exact followerStep_forward2 hForward

end ReliableBroadcast

end Jumbo
