import Jumbo.ReliableBroadcast.Steps
import Jumbo.Lib.Quorum

/-
  What the counters of the broadcast say about the messages
  sent, in runs in which no party is counted twice.

  Main declarations:
    * `orderly`
    * `count_eq`
    * `count_le_senders`
    * `EchoCert`
    * `EchoCert.unique`
-/

------------------------------------------------------------
-- Kinds of Messages
------------------------------------------------------------

namespace Jumbo

namespace ReliableBroadcast

open Protocol

variable {n : Nat}

/- The party that a packet names. -/
def Packet.src (packet : Packet n) : Fin n := packet.msg.id

/- A message of a type for a value. -/
def isKind
    (type : RBCMsgType) (value : Bytes)
    (packet : Packet n) : Bool :=
  packet.msg.type = type && packet.msg.root = value

/- The parties that sent such a message to somebody. -/
def senders
    (log : BroadcastLog n (Packet n) Loc)
    (type : RBCMsgType) (value : Bytes) : Finset (Fin n) :=
  log.senders Packet.src (isKind type value)

/-
  A message that repeats `m`: a second VAL, or one that has
  sender, type and root in common with it.
-/
def repeats (m : RBCMsg n) (packet : Packet n) : Bool :=
  packet.msg.type = m.type &&
    (m.type = .val ||
      (packet.msg.id = m.id && packet.msg.root = m.root))

/- ECHO of a correct party for something else. -/
def otherEcho
    (byz : Finset (Fin n)) (value : Bytes)
    (packet : Packet n) : Bool :=
  packet.msg.type = .echo && decide (packet.msg.id ∉ byz) &&
    decide (packet.msg.root ≠ value)

/-
  The VAL comes from the broadcaster and can be decoded; when
  two quorums need not share a correct party, it is also the
  one that everybody else has echoed.
-/
def properVal
    (cfg : Config n) (byz : Finset (Fin n)) (s : State n)
    (p : Fin n) (m : RBCMsg n) : Bool :=
  decide (p ≠ cfg.lid) && decide (m.id = cfg.lid) &&
    (checkInputRBC cfg.unmarshal m.root
      (s.heightsnow p)).isSome &&
    (decide (n = 3 * threshold n + 1) ||
      decide (s.log.total (otherEcho byz m.root) = 0))

/-
  The broadcaster outputs at its `2f`-th READY only when
  `f + 1` correct parties have sent READY.
-/
def properDelivery
    (cfg : Config n) (byz : Finset (Fin n)) (s : State n)
    (p : Fin n) (m : RBCMsg n) : Bool :=
  !(decide (p = cfg.lid) &&
      (leaderHandleReady n cfg.input s.leader.readycount
        m.root).2.deliver) ||
    decide
      (threshold n + 1 ≤
        (senders s.log .ready cfg.input \ byz).card)

/-
  A correct party reads a message of this instance that it
  has not read from the same sender before.
-/
def orderlyRead
    (cfg : Config n) (byz : Finset (Fin n)) (s : State n)
    (p : Fin n) (m : RBCMsg n) : Bool :=
  decide (m.round = cfg.round) &&
    decide (s.log.tally p .handled (repeats m) = 0) &&
    match m.type with
    | .val => properVal cfg byz s p m
    | .ready => properDelivery cfg byz s p m
    | .other => false
    | _ => true

/- Only orderly messages are read. -/
def orderly
    (cfg : Config n) (byz : Finset (Fin n)) (s : State n) :
    Action n → Bool
| .receive p i =>
    (s.log.sent[i]?).all fun packet =>
      orderlyRead cfg byz s p packet.msg
| _ => true

/- ECHO, READY and FINISH are the messages counted. -/
def RBCMsgType.counted : RBCMsgType → Bool
| .echo => true
| .ready => true
| .finish => true
| _ => false

/- How often a follower has counted a value. -/
def BCF.count (bcf : BCF) :
    RBCMsgType → Bytes → Nat
| .echo => bcf.echo.echomap
| .ready => bcf.ready.readymap
| .finish => bcf.finish.finishmap
| _ => fun _ => 0

/- How often the broadcaster has counted its input. -/
def BCL.count (bcl : BCL) : RBCMsgType → Nat
| .echo => bcl.echocount
| .ready => bcl.readycount
| .finish => bcl.finishcount
| _ => 0

/- Reading `m` counts for the value. -/
def readsKind
    (m : Option (RBCMsg n))
    (type : RBCMsgType) (value : Bytes) : Bool :=
  m.any fun m => m.type = type && m.root = value

/- A sender has its message among those sent. -/
theorem mem_senders
    {log : BroadcastLog n (Packet n) Loc}
    {type : RBCMsgType} {value : Bytes} {p : Fin n} :
    p ∈ senders log type value ↔
      ∃ packet ∈ log.sent, packet.msg.type = type ∧
        packet.msg.root = value ∧ packet.msg.id = p := by
  unfold senders
  rw [BroadcastLog.mem_senders_iff]
  simp [isKind, Packet.src, and_assoc]

/- Senders stay senders when the log grows. -/
theorem senders_mono
    {log log' : BroadcastLog n (Packet n) Loc}
    (hSent : log.sent <+: log'.sent)
    (type : RBCMsgType) (value : Bytes) :
    senders log type value ⊆ senders log' type value := by
  intro p hp
  rcases mem_senders.mp hp with ⟨packet, hMem, hKind⟩
  exact mem_senders.mpr ⟨packet, hSent.subset hMem, hKind⟩

end ReliableBroadcast

end Jumbo

------------------------------------------------------------
-- Counts
------------------------------------------------------------

namespace Jumbo

namespace ReliableBroadcast

open Protocol

variable {n : Nat}

/- The leader counts the message it reads, for its input. -/
theorem LeaderStep.count_eq
    {cfg : Config n} {bcl bcl' : BCL}
    {m : Option (RBCMsg n)} {ms : List (RBCMsg n)}
    (hStep : LeaderStep cfg bcl m bcl' ms)
    {type : RBCMsgType} (hType : type.counted = true) :
    bcl'.count type =
      bcl.count type +
        if readsKind m type cfg.input then 1 else 0 := by
  cases hStep with
  | sendVal | sendEcho | sendReady | forward1 | forward2 =>
      cases type <;> rfl
  | echo m _ hEcho _ =>
      cases type with
      | echo =>
          by_cases hRoot : m.root = cfg.input <;>
            simp [BCL.count, leaderHandleEcho, readsKind,
              hEcho, hRoot]
      | ready | finish =>
          simp [BCL.count, readsKind, hEcho]
      | val | other => cases hType
  | ready m _ _ hReady _ _ _ =>
      cases type with
      | ready =>
          by_cases hRoot : m.root = cfg.input <;>
            simp [BCL.count, leaderHandleReady, readsKind,
              hReady, hRoot]
      | echo | finish =>
          simp [BCL.count, readsKind, hReady]
      | val | other => cases hType
  | finish m _ hFinish _ _ =>
      cases type with
      | finish =>
          by_cases hRoot : m.root = cfg.input <;>
            simp [BCL.count, leaderHandleFinish, readsKind,
              hFinish, hRoot]
      | echo | ready =>
          simp [BCL.count, readsKind, hFinish]
      | val | other => cases hType

/- A follower counts the message it reads for its value. -/
theorem FollowerStep.count_eq
    {cfg : Config n} {p : Fin n} {bcf bcf' : BCF}
    {m : Option (RBCMsg n)} {ms : List (RBCMsg n)}
    (hStep : FollowerStep cfg p bcf m bcf' ms)
    {type : RBCMsgType} (hType : type.counted = true)
    (value : Bytes) :
    bcf'.count type value =
      bcf.count type value +
        if readsKind m type value then 1 else 0 := by
  cases hStep with
  | sendReady | forward1 | forward2 =>
      cases type <;> rfl
  | val m _ hVal _ =>
      cases type with
      | echo | ready | finish => simp [readsKind, hVal]
      | val | other => cases hType
  | echo m _ hEcho _ _ =>
      cases type with
      | echo =>
          simp [BCF.count, HandleEcho.read, readsKind,
            hEcho, increment_apply]
      | ready | finish =>
          simp [BCF.count, readsKind, hEcho]
      | val | other => cases hType
  | ready m _ _ hReady _ _ _ =>
      cases type with
      | ready =>
          simp [BCF.count, HandleReady.read, readsKind,
            hReady, increment_apply]
      | echo | finish =>
          simp [BCF.count, readsKind, hReady]
      | val | other => cases hType
  | finish m _ hFinish _ _ =>
      cases type with
      | finish =>
          simp [BCF.count, HandleFinish.read, readsKind,
            hFinish, increment_apply]
      | echo | ready =>
          simp [BCF.count, readsKind, hFinish]
      | val | other => cases hType

theorem broadcast_sent
    (s : State n) (p : Fin n) (ms : List (RBCMsg n)) :
    (s.broadcast p ms).log.sent =
      s.log.sent ++ ms.map RBCMsg.toAll := by
  simp [State.broadcast]

theorem afterRead_sent
    (s : State n) (p : Fin n) (position : Option Nat) :
    (s.afterRead p position).log.sent = s.log.sent := by
  cases position <;> simp [State.afterRead]

theorem tally_broadcast
    (s : State n) (p q : Fin n) (ms : List (RBCMsg n))
    (P : Packet n → Bool) :
    (s.broadcast p ms).log.tally q .handled P =
      s.log.tally q .handled P :=
  s.log.tally_postAll p q _ P (by decide) (by decide)

/- What reading adds to a count of the log. -/
theorem tally_afterRead_any
    {s : State n} {p : Fin n} {position : Option Nat}
    {m : Option (RBCMsg n)}
    (hWaits : s.Waits p position m)
    (q : Fin n) (f : RBCMsg n → Bool) :
    (s.afterRead p position).log.tally q .handled
        (fun x => f x.msg) =
      s.log.tally q .handled (fun x => f x.msg) +
        if q = p ∧ m.any f then 1 else 0 := by
  cases position with
  | none =>
      cases m with
      | none => simp [State.afterRead]
      | some m => cases hWaits
  | some i =>
      cases m with
      | none => cases hWaits
      | some m =>
          rcases hWaits with ⟨packet, hMsg, _, hLoc, rfl⟩
          by_cases hq : q = p
          · subst hq
            have hNet : s.log.loc q i ≠ .handled := by
              rw [hLoc]
              decide
            rw [State.afterRead,
              s.log.tally_move_to q _ hMsg hNet]
            simp
          · rw [State.afterRead,
              s.log.tally_move_of_ne i _ _ _ hq]
            simp [hq]

/- The message that is read is counted as read. -/
theorem tally_afterRead
    {s : State n} {p : Fin n} {position : Option Nat}
    {m : Option (RBCMsg n)}
    (hWaits : s.Waits p position m)
    (q : Fin n) (type : RBCMsgType) (value : Bytes) :
    (s.afterRead p position).log.tally q .handled
        (isKind type value) =
      s.log.tally q .handled (isKind type value) +
        if q = p ∧ readsKind m type value then 1 else 0 :=
  tally_afterRead_any hWaits q
    fun m => m.type = type && m.root = value

/- Every counter shows what its party has read. -/
structure Counted (cfg : Config n) (s : State n) : Prop where
  leader :
    ∀ type, type.counted = true →
      s.leader.count type =
        s.log.tally cfg.lid .handled (isKind type cfg.input)
  follower :
    ∀ p, p ≠ cfg.lid → ∀ type, type.counted = true →
      ∀ value,
        (s.follower p).count type value =
          s.log.tally p .handled (isKind type value)

/- Every step keeps the counts true. -/
theorem Counted.change
    {cfg : Config n} {byz : Finset (Fin n)}
    {s s' : State n} {a : Action n}
    (hCounted : Counted cfg s)
    (hChange : Change cfg byz s a s') :
    Counted cfg s' := by
  cases hChange with
  | forge packet _ =>
      have hTally :
          ∀ q P,
            (s.log.post packet.msg.id .net .net
                packet).tally q .handled P =
              s.log.tally q .handled P := fun q P =>
        s.log.tally_postAll packet.msg.id q [packet] P
          (by decide) (by decide)
      constructor
      · intro type hType
        rw [hTally]
        exact hCounted.leader type hType
      · intro p hNe type hType value
        rw [hTally]
        exact hCounted.follower p hNe type hType value
  | advance | closeval | panic =>
      exact ⟨hCounted.leader, hCounted.follower⟩
  | leader a m bcl ms _ hWaits _ hStep =>
      constructor
      · intro type hType
        rw [tally_broadcast, tally_afterRead hWaits,
          ← hCounted.leader type hType]
        simpa [State.broadcast] using hStep.count_eq hType
      · intro p hNe type hType value
        rw [tally_broadcast, tally_afterRead hWaits,
          if_neg (fun h => hNe h.1), Nat.add_zero,
          ← hCounted.follower p hNe type hType value]
        cases a.position <;> rfl
  | follower a p m bcf ms hNe _ hWaits _ hStep =>
      constructor
      · intro type hType
        rw [tally_broadcast]
        have hTally :=
          tally_afterRead hWaits cfg.lid type cfg.input
        rw [if_neg (fun h => hNe h.1.symm), Nat.add_zero,
          ← hCounted.leader type hType] at hTally
        rw [State.setFollower, hTally]
        cases a.position <;> rfl
      · intro q hq type hType value
        rw [tally_broadcast]
        have hTally :=
          tally_afterRead hWaits q type value
        rw [← hCounted.follower q hq type hType value]
          at hTally
        rw [State.setFollower, hTally]
        by_cases hEq : q = p
        · subst hEq
          simpa [State.broadcast] using
            hStep.count_eq hType value
        · cases a.position <;>
            simp [State.broadcast, State.afterRead, hEq]

/- In every run the counts are those of messages read. -/
theorem counted
    {cfg : Config n} {byz : Finset (Fin n)}
    {ok : State n → Action n → Prop} {s : State n}
    (hReach : (machine n cfg byz).ReachableBy ok s) :
    Counted cfg s := by
  refine Machine.ReachableBy.invariant (Counted cfg) ?_ ?_
    hReach
  · have hZero :
        ∀ q P,
          (State.init (n := n)).log.tally q .handled P =
            0 := by
      intro q P
      rw [BroadcastLog.tally_eq_zero_iff]
      intro i packet hMsg _
      simp [State.init] at hMsg
    constructor
    · intro type hType
      rw [show (machine n cfg byz).init = State.init from rfl,
        hZero]
      cases type <;> rfl
    · intro p _ type hType value
      rw [show (machine n cfg byz).init = State.init from rfl,
        hZero]
      cases type <;> rfl
  · intro s a s' _ hCounted _ hExec
    exact hCounted.change (exec_change hExec)

end ReliableBroadcast

end Jumbo

------------------------------------------------------------
-- How the Log Grows
------------------------------------------------------------

namespace Jumbo

namespace ReliableBroadcast

open Protocol

variable {n : Nat}
variable {cfg : Config n} {byz : Finset (Fin n)}
variable {s s' : State n} {a : Action n}

/- Messages are only added. -/
theorem Change.sent_prefix
    (hChange : Change cfg byz s a s') :
    s.log.sent <+: s'.log.sent := by
  cases hChange with
  | forge packet _ => exact List.prefix_append _ _
  | advance | closeval | panic => exact List.prefix_rfl
  | leader =>
      rw [broadcast_sent]
      rw [← afterRead_sent s cfg.lid a.position]
      exact List.prefix_append _ _
  | follower _ p =>
      rw [broadcast_sent]
      rw [← afterRead_sent s p a.position]
      exact List.prefix_append _ _

/- Broadcasts are appended and wait everywhere. -/
theorem broadcast_handled
    {t : State n} {p q : Fin n} {ms : List (RBCMsg n)}
    {j : Nat} {x : Packet n}
    (hMsg : (t.broadcast p ms).log.sent[j]? = some x)
    (hLoc : (t.broadcast p ms).log.loc q j = .handled) :
    t.log.sent[j]? = some x ∧ t.log.loc q j = .handled := by
  by_cases hLt : j < t.log.sent.length
  · rw [broadcast_sent, List.getElem?_append_left hLt] at hMsg
    have hOld :
        (t.broadcast p ms).log.loc q j = t.log.loc q j :=
      t.log.postAll_loc_of_lt p q .net .net _ hLt
    rw [hOld] at hLoc
    exact ⟨hMsg, hLoc⟩
  · have hBound := (List.getElem?_eq_some_iff.mp hMsg).1
    rw [broadcast_sent, List.length_append] at hBound
    have hNet :
        (t.broadcast p ms).log.loc q j =
          if q = p then .net else .net :=
      t.log.postAll_loc_of_ge p q .net .net _
        (Nat.le_of_not_lt hLt) hBound
    rw [hNet, ite_self] at hLoc
    cases hLoc

theorem broadcast_loc_of_lt
    {t : State n} {p q : Fin n} {ms : List (RBCMsg n)}
    {j : Nat} (hLt : j < t.log.sent.length) :
    (t.broadcast p ms).log.loc q j = t.log.loc q j :=
  t.log.postAll_loc_of_lt p q .net .net _ hLt

/- Only the message of this step is read by it. -/
theorem afterRead_handled
    {p q : Fin n} {j : Nat} {position : Option Nat}
    (hLoc :
      (s.afterRead p position).log.loc q j = .handled) :
    s.log.loc q j = .handled ∨
      q = p ∧ position = some j := by
  cases position with
  | none => exact .inl hLoc
  | some i =>
      by_cases hRead : q = p ∧ j = i
      · rcases hRead with ⟨rfl, rfl⟩
        exact .inr ⟨rfl, rfl⟩
      · have hNe : q ≠ p ∨ j ≠ i := by
          by_cases hq : q = p
          · exact .inr fun h => hRead ⟨hq, h⟩
          · exact .inl hq
        rw [State.afterRead, s.log.move_loc_of_ne _ hNe]
          at hLoc
        exact .inl hLoc

/- A message that was read stays read. -/
theorem afterRead_keeps
    {p q : Fin n} {j : Nat} {position : Option Nat}
    (hLoc : s.log.loc q j = .handled) :
    (s.afterRead p position).log.loc q j = .handled := by
  cases position with
  | none => exact hLoc
  | some i =>
      by_cases hRead : q = p ∧ j = i
      · rcases hRead with ⟨rfl, rfl⟩
        exact s.log.move_loc_self q j .handled
      · have hNe : q ≠ p ∨ j ≠ i := by
          by_cases hq : q = p
          · exact .inr fun h => hRead ⟨hq, h⟩
          · exact .inl hq
        rw [State.afterRead, s.log.move_loc_of_ne _ hNe]
        exact hLoc

/- Only receiving reads a message. -/
theorem position_eq_some
    {i : Nat} (hPosition : a.position = some i) :
    ∃ p, a = .receive p i := by
  cases a <;>
    first | exact ⟨_, by cases hPosition; rfl⟩ | cases hPosition

/- What is read is what was read before or is read now. -/
theorem Change.handled
    (hChange : Change cfg byz s a s')
    {q : Fin n} {j : Nat} {x : Packet n}
    (hMsg : s'.log.sent[j]? = some x)
    (hLoc : s'.log.loc q j = .handled) :
    s.log.sent[j]? = some x ∧
      (s.log.loc q j = .handled ∨ a = .receive q j) := by
  cases hChange with
  | forge packet _ =>
      by_cases hLt : j < s.log.sent.length
      · rw [BroadcastLog.post_sent,
          List.getElem?_append_left hLt] at hMsg
        rw [s.log.post_loc_of_lt _ _ _ _ _ hLt] at hLoc
        exact ⟨hMsg, .inl hLoc⟩
      · have hBound := (List.getElem?_eq_some_iff.mp hMsg).1
        rw [BroadcastLog.post_sent, List.length_append,
          List.length_singleton] at hBound
        have hEq : j = s.log.sent.length := by omega
        simp [BroadcastLog.post, hEq] at hLoc
  | advance | closeval | panic => exact ⟨hMsg, .inl hLoc⟩
  | leader a m bcl ms _ hWaits hAt hStep =>
      rcases broadcast_handled hMsg hLoc with
        ⟨hOldMsg, hOldLoc⟩
      rw [afterRead_sent] at hOldMsg
      refine ⟨hOldMsg, ?_⟩
      rcases afterRead_handled hOldLoc with h | ⟨hq, hRead⟩
      · exact .inl h
      · rcases position_eq_some hRead with ⟨p, rfl⟩
        rw [hq, hAt p j rfl]
        exact .inr rfl
  | follower a p m bcf ms _ _ hWaits hAt hStep =>
      rcases broadcast_handled hMsg hLoc with
        ⟨hOldMsg, hOldLoc⟩
      rw [State.setFollower, afterRead_sent] at hOldMsg
      refine ⟨hOldMsg, ?_⟩
      rcases afterRead_handled hOldLoc with h | ⟨hq, hRead⟩
      · exact .inl h
      · rcases position_eq_some hRead with ⟨p', rfl⟩
        rw [hq, hAt p' j rfl]
        exact .inr rfl

/- A message that was read stays read in every step. -/
theorem Change.keeps
    (hChange : Change cfg byz s a s')
    {q : Fin n} {j : Nat}
    (hLt : j < s.log.sent.length)
    (hLoc : s.log.loc q j = .handled) :
    s'.log.loc q j = .handled := by
  cases hChange with
  | forge packet _ =>
      rw [s.log.post_loc_of_lt _ _ _ _ _ hLt]
      exact hLoc
  | advance | closeval | panic => exact hLoc
  | leader =>
      rw [broadcast_loc_of_lt (by
        rw [afterRead_sent]
        exact hLt)]
      exact afterRead_keeps hLoc
  | follower _ p =>
      rw [broadcast_loc_of_lt (by
        rw [State.setFollower, afterRead_sent]
        exact hLt)]
      exact afterRead_keeps hLoc

/- Who can have sent a message that is new. -/
theorem Change.new
    (hChange : Change cfg byz s a s')
    {x : Packet n} (hMem : x ∈ s'.log.sent)
    (hNot : x ∉ s.log.sent) (hId : x.msg.id ∉ byz) :
    (∃ m bcl ms, s.Waits cfg.lid a.position m ∧
      (∀ p i, a = .receive p i → p = cfg.lid) ∧
      LeaderStep cfg s.leader m bcl ms ∧ x.msg ∈ ms) ∨
    ∃ p m bcf ms, p ≠ cfg.lid ∧
      s.Waits p a.position m ∧
      (∀ q i, a = .receive q i → q = p) ∧
      FollowerStep cfg p (s.follower p) m bcf ms ∧
        x.msg ∈ ms := by
  cases hChange with
  | forge packet hByz =>
      rw [BroadcastLog.post_sent, List.mem_append,
        List.mem_singleton] at hMem
      rcases hMem with hOld | rfl
      · exact absurd hOld hNot
      · exact absurd hByz hId
  | advance | closeval | panic => exact absurd hMem hNot
  | leader a m bcl ms _ hWaits hAt hStep =>
      rw [broadcast_sent, List.mem_append] at hMem
      rcases hMem with hOld | hNew
      · refine absurd ?_ hNot
        rw [← afterRead_sent s cfg.lid a.position]
        exact hOld
      · rcases List.mem_map.mp hNew with ⟨m', hm', rfl⟩
        exact .inl ⟨m, bcl, ms, hWaits, hAt, hStep, hm'⟩
  | follower a p m bcf ms hNe _ hWaits hAt hStep =>
      rw [broadcast_sent, List.mem_append] at hMem
      rcases hMem with hOld | hNew
      · refine absurd ?_ hNot
        rw [← afterRead_sent s p a.position]
        exact hOld
      · rcases List.mem_map.mp hNew with ⟨m', hm', rfl⟩
        exact .inr
          ⟨p, m, bcf, ms, hNe, hWaits, hAt, hStep, hm'⟩

end ReliableBroadcast

end Jumbo
