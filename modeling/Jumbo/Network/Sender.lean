import Jumbo.Lib.Machine
import Jumbo.Network.Framing

/-
  The sender of a connection to another party.

  A message is taken from the queue, written, and written
  again on a new connection when there was an error. After
  too many dials without success, messages are dropped. A
  body whose write fails is not reported, and the send with
  speed control waits for a message that nobody passes on.

  Main declarations:
    * `Sender` and `exec`
    * `Kept`
    * `Tracked` and `tracked`
    * `sender_kept_iff`
-/

------------------------------------------------------------
-- The Loop
------------------------------------------------------------

namespace Jumbo

namespace Network

open Protocol
open Crypto (Bytes)

/- What `handle_conMsg` reads of a `SendMsg`. -/
structure SendMsg where
  type : Int32
  msg : Bytes
deriving DecidableEq

/-
  `crashed`: one of the two parties is among the ones that
  `CrashMVBA` silences. `marshal` encodes an `OrderMsg`.
-/
structure SenderConfig where
  isControlSpeed : Bool
  crashed : Bool
  marshal : SendMsg → Bytes

/- One call of `Direct_Send` and the error it gave back. -/
structure Attempt where
  con : Nat
  msgbyte : Bytes
  first : WriteResult
  second : WriteResult
  err : Bool
deriving DecidableEq

namespace Attempt

/- What an attempt leaves on its connection. -/
def bytes (a : Attempt) : Bytes :=
  (directSend a.msgbyte a.first a.second).1

/- One of the two writes fails. -/
def Fails (a : Attempt) : Prop :=
  ¬ (a.first = .ok ∧ a.second = .ok)

/- The body is written when the header is. -/
def BodyWritten (a : Attempt) : Prop :=
  a.first = .ok → a.second = .ok

instance (a : Attempt) : Decidable a.BodyWritten :=
  inferInstanceAs
    (Decidable (a.first = .ok → a.second = .ok))

end Attempt

/- A message is written whole. -/
def frame (msgbyte : Bytes) : Bytes :=
  (directSend msgbyte .ok .ok).1

/- Where the loop stands, with the message in hand. -/
inductive SenderPc where
| take
| send (msg : SendMsg)
| dial (msg : SendMsg)
deriving DecidableEq

/-
  `taken` are the messages taken before the flag is set,
  `dropped` what is given up when it is, and `log` has every
  call of `Direct_Send`. Connections are numbered.
-/
structure Sender where
  conMsgBuff : List SendMsg
  pc : SenderPc
  dropflag : Bool
  waitcount : Nat
  con : Nat
  controlSpeedMsgChannel : List (Nat × Bytes)
  taken : List SendMsg
  dropped : List SendMsg
  log : List Attempt

namespace Sender

/- Nothing has been put. -/
def init : Sender where
  conMsgBuff := []
  pc := .take
  dropflag := false
  waitcount := 0
  con := 0
  controlSpeedMsgChannel := []
  taken := []
  dropped := []
  log := []

/- `Direct_Send`, after which the loop leaves or dials. -/
def attempt
    (s : Sender) (msg : SendMsg) (con : Nat) (msgbyte : Bytes)
    (first second : WriteResult) : Sender :=
  let err := (directSend msgbyte first second).2
  { s with
    log := s.log ++ [⟨con, msgbyte, first, second, err⟩]
    pc := if err then .dial msg else .take }

end Sender

/- A message is put, or the sender takes a step. -/
inductive SenderAction where
| put (msg : SendMsg)
| take
| send (first second : WriteResult)
| dial (connected : Bool)

namespace Sender

variable (cfg : SenderConfig)

/- The message goes out or, silenced, nowhere. -/
def take (s : Sender) : Option Sender :=
  match s.pc, s.conMsgBuff with
  | .take, msg :: rest =>
      if cfg.crashed then
        some
          { s with
            conMsgBuff := rest
            taken := s.taken ++ [msg] }
      else if s.dropflag then
        some { s with conMsgBuff := rest }
      else
        some
          { s with
            conMsgBuff := rest
            taken := s.taken ++ [msg]
            pc := .send msg }
  | _, _ => none

/- `Send`: with speed control, what the channel has. -/
def send
    (s : Sender) (first second : WriteResult) :
    Option Sender :=
  match s.pc with
  | .send msg =>
      if cfg.isControlSpeed then
        match s.controlSpeedMsgChannel with
        | [] => none
        | (con, netmsg) :: rest =>
            some
              ({ s with
                controlSpeedMsgChannel := rest }.attempt msg
                con netmsg first second)
      else
        some
          (s.attempt msg s.con (cfg.marshal msg) first second)
  | _ => none

/- One attempt to connect; the message is kept. -/
def dial (s : Sender) (connected : Bool) : Option Sender :=
  match s.pc with
  | .dial msg =>
      if connected then
        some { s with con := s.con + 1, pc := .send msg }
      else if 5 < s.waitcount + 1 then
        some
          { s with
            waitcount := s.waitcount + 1
            dropflag := true
            dropped := [msg]
            pc := .take }
      else some { s with waitcount := s.waitcount + 1 }
  | _ => none

/- `handle_conMsg`, and the parties that fill its queue. -/
def exec (s : Sender) : SenderAction → Option Sender
| .put msg =>
    some { s with conMsgBuff := s.conMsgBuff ++ [msg] }
| .take => s.take cfg
| .send first second => s.send cfg first second
| .dial connected => s.dial connected

/- The sender of one destination as a machine. -/
def machine : Machine Sender SenderAction where
  init := Sender.init
  exec := exec cfg

------------------------------------------------------------
-- What Is Kept
------------------------------------------------------------

/- The messages that the loop holds to be sent. -/
def sent (s : Sender) : List Attempt :=
  s.log.filter fun a => !a.err

/- The message in hand, or the one that was given up. -/
def pending (s : Sender) : List SendMsg :=
  match s.pc with
  | .take => s.dropped
  | .send msg | .dial msg => [msg]

/- What has been written on a connection. -/
def stream (s : Sender) (c : Nat) : Bytes :=
  (s.log.filter fun a => a.con = c).flatMap Attempt.bytes

/-
  Messages are sent in the order of the queue, one is given
  up only with the flag, one in hand is tried, every one sent
  is whole on its connection, where only a part of one more
  can follow, and every failed write is reported.
-/
structure Kept (s : Sender) : Prop where
  order :
    s.taken.map cfg.marshal =
      s.sent.map Attempt.msgbyte ++ s.pending.map cfg.marshal
  given : s.dropped ≠ [] → s.dropflag = true
  tried :
    ∀ msg, s.pc = .send msg →
      ∀ first second, (s.send cfg first second).isSome
  whole :
    ∀ c, ∃ part, s.stream c =
      ((s.sent.filter fun a => a.con = c).flatMap
        fun a => frame a.msgbyte) ++ part
  reported : ∀ a ∈ s.log, a.Fails → a.err = true

------------------------------------------------------------
-- What Every Run Keeps
------------------------------------------------------------

/- A connection is used up to its first error. -/
structure Tracked (s : Sender) : Prop where
  started :
    s.taken = [] → s.log = [] ∧ s.pc = .take ∧ s.dropped = []
  channel : s.controlSpeedMsgChannel = []
  errs :
    ∀ a ∈ s.log,
      a.err = (directSend a.msgbyte a.first a.second).2
  given : s.dropped ≠ [] → s.dropflag = true
  alone : s.log.Pairwise fun a b => a.con = b.con → a.err = false
  fresh : ∀ a ∈ s.log, a.con ≤ s.con
  clean :
    (∀ msg, s.pc ≠ .dial msg) → s.dropflag = false →
      ∀ a ∈ s.log, a.con = s.con → a.err = false
  dialing : s.dropflag = true → s.pc = .take
  order :
    cfg.isControlSpeed = false → cfg.crashed = false →
      s.taken.map cfg.marshal =
        s.sent.map Attempt.msgbyte ++
          s.pending.map cfg.marshal
  silenced :
    cfg.crashed = true →
      s.pc = .take ∧ s.log = [] ∧ s.dropped = []
  waiting :
    cfg.isControlSpeed = true → cfg.crashed = false →
      s.log = [] ∧ s.dropped = [] ∧ s.dropflag = false ∧
        (s.taken = [] ∨ ∃ msg, s.pc = .send msg)

section Steps

variable {cfg : SenderConfig} {s s' : Sender}

/- Nothing has been taken at the start. -/
theorem tracked_init : Tracked cfg Sender.init where
  started _ := ⟨rfl, rfl, rfl⟩
  channel := rfl
  errs := List.forall_mem_nil _
  given hNe := absurd rfl hNe
  alone := List.Pairwise.nil
  fresh := List.forall_mem_nil _
  clean _ _ := List.forall_mem_nil _
  dialing hDrop := by cases hDrop
  order _ _ := rfl
  silenced _ := ⟨rfl, rfl, rfl⟩
  waiting _ _ := ⟨rfl, rfl, rfl, .inl rfl⟩

/- Messages in the queue concern nothing else. -/
theorem Tracked.queue
    (hTracked : Tracked cfg s) (msgs : List SendMsg) :
    Tracked cfg { s with conMsgBuff := msgs } :=
  { hTracked with }

/- Before the flag is set nothing has been given up. -/
theorem Tracked.dropped_eq
    (hTracked : Tracked cfg s) (hKeep : s.dropflag = false) :
    s.dropped = [] := by
  by_contra hNe
  rw [hTracked.given hNe] at hKeep
  cases hKeep

/- A message that is taken is tracked. -/
theorem Tracked.take
    (hTracked : Tracked cfg s) (hTake : s.take cfg = some s') :
    Tracked cfg s' := by
  unfold Sender.take at hTake
  split at hTake
  · rename_i msg rest hPc hQueue
    split at hTake
    · rename_i hCrashed
      cases hTake
      exact
        { hTracked with
          started := fun hNil =>
            absurd hNil (List.append_ne_nil_of_right_ne_nil _
              (List.cons_ne_nil _ _))
          order := fun _ hNot => by
            rw [hCrashed] at hNot
            cases hNot
          waiting := fun _ hNot => by
            rw [hCrashed] at hNot
            cases hNot }
    · rename_i hNotCrashed
      split at hTake
      · cases hTake
        exact hTracked.queue rest
      · rename_i hKeep
        have hKeep := Bool.eq_false_of_not_eq_true hKeep
        cases hTake
        exact
          { hTracked with
            started := fun hNil =>
              absurd hNil (List.append_ne_nil_of_right_ne_nil _
                (List.cons_ne_nil _ _))
            clean := fun _ _ =>
              hTracked.clean
                (fun msg hDial => by
                  rw [hPc] at hDial
                  cases hDial)
                hKeep
            dialing := fun hDrop => by
              dsimp only at hDrop
              rw [hKeep] at hDrop
              cases hDrop
            order := fun hSpeed hCrash => by
              have hOrder := hTracked.order hSpeed hCrash
              unfold pending at hOrder ⊢
              rw [hPc, hTracked.dropped_eq hKeep] at hOrder
              rw [List.map_append, hOrder]
              simp [sent]
            silenced := fun hCrash =>
              absurd hCrash hNotCrashed
            waiting := fun hSpeed hCrash =>
              ⟨(hTracked.waiting hSpeed hCrash).1,
                (hTracked.waiting hSpeed hCrash).2.1, hKeep,
                .inr ⟨msg, rfl⟩⟩ }
  · cases hTake

/- A message that was sent is logged. -/
theorem Tracked.send
    {first second : WriteResult}
    (hTracked : Tracked cfg s)
    (hSend : s.send cfg first second = some s') :
    Tracked cfg s' := by
  unfold Sender.send at hSend
  split at hSend
  · rename_i msg hPc
    split at hSend
    · rw [hTracked.channel] at hSend
      cases hSend
    · rename_i hDirect
      have hTaken : s.taken ≠ [] := by
        intro hNil
        have hTake := (hTracked.started hNil).2.1
        rw [hPc] at hTake
        cases hTake
      have hKeep : s.dropflag = false := by
        apply Bool.eq_false_of_not_eq_true
        intro hDrop
        have hTake := hTracked.dialing hDrop
        rw [hPc] at hTake
        cases hTake
      have hClean :
          ∀ a ∈ s.log, a.con = s.con → a.err = false := by
        refine hTracked.clean (fun other hDial => ?_) hKeep
        rw [hPc] at hDial
        cases hDial
      cases hSend
      refine
        { started := fun hNil => absurd hNil hTaken
          channel := hTracked.channel
          errs := ?_
          given := hTracked.given
          alone := ?_
          fresh := ?_
          clean := ?_
          dialing := fun hDrop => ?_
          order := fun hSpeed hCrash => ?_
          silenced := fun hCrash => ?_
          waiting := fun hSpeed _ => absurd hSpeed hDirect }
      · intro a hMem
        rcases List.mem_append.mp hMem with hOld | hNew
        · exact hTracked.errs a hOld
        · cases List.mem_singleton.mp hNew
          rfl
      · refine
          List.pairwise_append.mpr
            ⟨hTracked.alone, List.pairwise_singleton _ _, ?_⟩
        intro a hOld b hNew hSame
        cases List.mem_singleton.mp hNew
        exact hClean a hOld hSame
      · intro a hMem
        rcases List.mem_append.mp hMem with hOld | hNew
        · exact hTracked.fresh a hOld
        · cases List.mem_singleton.mp hNew
          exact Nat.le_refl _
      · intro hNotDial _ a hMem hCon
        rcases List.mem_append.mp hMem with hOld | hNew
        · exact hClean a hOld hCon
        · cases List.mem_singleton.mp hNew
          apply Bool.eq_false_of_not_eq_true
          intro hErr
          exact hNotDial msg (if_pos hErr)
      · change s.dropflag = true at hDrop
        rw [hKeep] at hDrop
        cases hDrop
      · have hOrder := hTracked.order hSpeed hCrash
        have hNone := hTracked.dropped_eq hKeep
        unfold pending at hOrder
        rw [hPc] at hOrder
        change
          s.taken.map cfg.marshal =
            ((s.log ++ [_]).filter fun a : Attempt =>
                !a.err).map Attempt.msgbyte ++ _
        rw [hOrder, List.filter_append, List.map_append]
        unfold sent pending Sender.attempt
        cases hErr :
            (directSend (cfg.marshal msg) first second).2 with
        | true => simp
        | false => simp [hNone]
      · have hTake := (hTracked.silenced hCrash).1
        rw [hPc] at hTake
        cases hTake
  · cases hSend

/- A message is tried again or dropped. -/
theorem Tracked.dial
    {connected : Bool}
    (hTracked : Tracked cfg s)
    (hDial : s.dial connected = some s') :
    Tracked cfg s' := by
  unfold Sender.dial at hDial
  split at hDial
  · rename_i msg hPc
    have hTaken : s.taken ≠ [] := by
      intro hNil
      have hTake := (hTracked.started hNil).2.1
      rw [hPc] at hTake
      cases hTake
    have hNotTake : s.pc ≠ .take := by
      rw [hPc]
      exact fun hEq => by cases hEq
    have hDirect : cfg.isControlSpeed = true →
        cfg.crashed = false → False := by
      intro hSpeed hCrash
      rcases (hTracked.waiting hSpeed hCrash).2.2.2 with
        hNil | ⟨other, hSend⟩
      · exact hTaken hNil
      · rw [hPc] at hSend
        cases hSend
    have hOrder
        (hSpeed : cfg.isControlSpeed = false)
        (hCrash : cfg.crashed = false) :
        s.taken.map cfg.marshal =
          s.sent.map Attempt.msgbyte ++
            [msg].map cfg.marshal := by
      have hBefore := hTracked.order hSpeed hCrash
      unfold pending at hBefore
      rw [hPc] at hBefore
      exact hBefore
    split at hDial
    · cases hDial
      exact
        { hTracked with
          started := fun hNil => absurd hNil hTaken
          fresh := fun a hMem =>
            Nat.le_succ_of_le (hTracked.fresh a hMem)
          clean := fun _ _ a hMem hCon => by
            have hLe := hTracked.fresh a hMem
            change a.con = s.con + 1 at hCon
            omega
          dialing := fun hDrop =>
            absurd (hTracked.dialing hDrop) hNotTake
          order := hOrder
          silenced := fun hCrash =>
            absurd (hTracked.silenced hCrash).1 hNotTake
          waiting := fun hSpeed hCrash =>
            (hDirect hSpeed hCrash).elim }
    · split at hDial
      · cases hDial
        exact
          { hTracked with
            started := fun hNil => absurd hNil hTaken
            given := fun _ => rfl
            clean := fun _ hKeep => by cases hKeep
            dialing := fun _ => rfl
            order := hOrder
            silenced := fun hCrash =>
              absurd (hTracked.silenced hCrash).1 hNotTake
            waiting := fun hSpeed hCrash =>
              (hDirect hSpeed hCrash).elim }
      · cases hDial
        exact { hTracked with }
  · cases hDial

end Steps

/-
  In every run each message taken is logged, dropped or
  held.
-/
theorem tracked
    {cfg : SenderConfig} {s : Sender}
    (hReach : (machine cfg).Reachable s) :
    Tracked cfg s := by
  refine hReach.invariant (Tracked cfg) tracked_init ?_
  intro s a s' _ hTracked hExec
  cases a with
  | put msg =>
      cases hExec
      exact hTracked.queue _
  | take => exact hTracked.take hExec
  | send first second => exact hTracked.send hExec
  | dial connected => exact hTracked.dial hExec

------------------------------------------------------------
-- When a Run Keeps Its Messages
------------------------------------------------------------

/- An error is noted for the header alone. -/
theorem directSend_err
    {a : Attempt}
    (hErr : a.err = (directSend a.msgbyte a.first a.second).2) :
    (a.first = .ok → a.second ≠ .ok → a.err = false) ∧
      (a.first ≠ .ok → a.err = true) ∧
        (a.BodyWritten → a.err = false →
          a.bytes = frame a.msgbyte) := by
  rcases a with ⟨con, msgbyte, first, second, err⟩
  dsimp only at hErr
  subst hErr
  cases first with
  | ok =>
      cases second with
      | ok =>
          exact
            ⟨fun _ hNe => absurd rfl hNe,
              fun hNe => absurd rfl hNe, fun _ _ => rfl⟩
      | failed written =>
          exact
            ⟨fun _ _ => rfl, fun hNe => absurd rfl hNe,
              fun hWritten => (by cases hWritten rfl)⟩
  | failed written =>
      exact
        ⟨fun hOk => (by cases hOk), fun _ => rfl,
          fun _ hErr => (by cases hErr)⟩

/- After its first error a connection is not written to. -/
theorem whole_of_alone
    {log : List Attempt}
    (hAlone :
      log.Pairwise fun a b => a.con = b.con → a.err = false)
    (hWhole :
      ∀ a ∈ log, a.err = false → a.bytes = frame a.msgbyte)
    (c : Nat) :
    ∃ part,
      (log.filter fun a => a.con = c).flatMap Attempt.bytes =
        (((log.filter fun a => !a.err).filter
            fun a => a.con = c).flatMap
          fun a => frame a.msgbyte) ++ part := by
  induction log with
  | nil => exact ⟨[], rfl⟩
  | cons a log ih =>
      have hCons := List.pairwise_cons.mp hAlone
      rw [List.forall_mem_cons] at hWhole
      rcases ih hCons.2 hWhole.2 with ⟨part, hPart⟩
      by_cases hCon : a.con = c
      · cases hErr : a.err with
        | false =>
            refine ⟨part, ?_⟩
            simp only [List.filter_cons, hCon, hErr,
              decide_true, Bool.not_false, if_true,
              List.flatMap_cons, hWhole.1 hErr, hPart,
              List.append_assoc]
        | true =>
            have hNone :
                log.filter (fun b => b.con = c) = [] := by
              apply List.filter_eq_nil_iff.mpr
              intro b hMem hSame
              have hNot :=
                hCons.1 b hMem
                  (hCon.trans (of_decide_eq_true hSame).symm)
              rw [hErr] at hNot
              cases hNot
            have hSent :
                (log.filter fun b => !b.err).filter
                    (fun b => b.con = c) = [] := by
              rw [List.filter_comm, hNone]
              rfl
            refine ⟨a.bytes, ?_⟩
            simp [hCon, hErr, hNone, hSent]
      · refine ⟨part, ?_⟩
        simp only [List.filter_cons, hCon, decide_false,
          Bool.false_eq_true, if_false, hPart]
        cases a.err with
        | false => simp [hCon]
        | true => simp

/-
  In every state a run can reach: messages are kept exactly
  when none has been taken yet, or there is no speed control,
  no party is silenced, and no body failed to be written
  after its header had been.
-/
theorem sender_kept_iff
    {cfg : SenderConfig} {s : Sender}
    (hReach : (machine cfg).Reachable s) :
    Kept cfg s ↔
      s.taken = [] ∨
        (cfg.isControlSpeed = false ∧ cfg.crashed = false ∧
          ∀ a ∈ s.log, a.BodyWritten) := by
  have hTracked := tracked hReach
  constructor
  · intro hKept
    by_cases hNil : s.taken = []
    · exact .inl hNil
    · right
      have hCrash : cfg.crashed = false := by
        apply Bool.eq_false_of_not_eq_true
        intro hCrash
        rcases hTracked.silenced hCrash with
          ⟨hPc, hLog, hDropped⟩
        have hOrder := hKept.order
        unfold sent pending at hOrder
        rw [hLog, hPc, hDropped] at hOrder
        exact hNil (List.map_eq_nil_iff.mp hOrder)
      refine ⟨?_, hCrash, ?_⟩
      · apply Bool.eq_false_of_not_eq_true
        intro hSpeed
        rcases (hTracked.waiting hSpeed hCrash).2.2.2 with
          hNone | ⟨msg, hPc⟩
        · exact hNil hNone
        · have hTried := hKept.tried msg hPc .ok .ok
          unfold Sender.send at hTried
          rw [hPc] at hTried
          dsimp only at hTried
          rw [if_pos hSpeed, hTracked.channel] at hTried
          cases hTried
      · intro a hMem hFirst
        by_contra hSecond
        have hErr :=
          (directSend_err (hTracked.errs a hMem)).1 hFirst
            hSecond
        have hReported :=
          hKept.reported a hMem fun hOk => hSecond hOk.2
        rw [hErr] at hReported
        cases hReported
  · rintro (hNil | ⟨hSpeed, hCrash, hWritten⟩)
    · rcases hTracked.started hNil with ⟨hLog, hPc, hDropped⟩
      refine
        { order := ?_
          given := hTracked.given
          tried := ?_
          whole := ?_
          reported := ?_ }
      · unfold sent pending
        rw [hNil, hLog, hPc, hDropped]
        rfl
      · intro msg hSend
        rw [hPc] at hSend
        cases hSend
      · intro c
        unfold stream sent
        rw [hLog]
        exact ⟨[], rfl⟩
      · rw [hLog]
        exact List.forall_mem_nil _
    · refine
        { order := hTracked.order hSpeed hCrash
          given := hTracked.given
          tried := ?_
          whole := ?_
          reported := ?_ }
      · intro msg hPc first second
        unfold Sender.send
        rw [hPc]
        dsimp only
        rw [if_neg (by rw [hSpeed]; exact Bool.false_ne_true)]
        rfl
      · refine whole_of_alone hTracked.alone ?_
        intro a hMem
        exact
          (directSend_err (hTracked.errs a hMem)).2.2
            (hWritten a hMem)
      · intro a hMem hFails
        apply (directSend_err (hTracked.errs a hMem)).2.1
        exact fun hFirst =>
          hFails ⟨hFirst, hWritten a hMem hFirst⟩

/- Parties without speed control; a message is its bytes. -/
def plain (isControlSpeed : Bool) : SenderConfig :=
  ⟨isControlSpeed, false, SendMsg.msg⟩

/- A header that fails, a dial that fails, and a second try. -/
def redialRun : List SenderAction :=
  [.put ⟨1, [7]⟩, .put ⟨1, [8]⟩, .take,
    .send (.failed 2) .ok, .dial false, .dial true,
    .send .ok .ok, .take]

/- A message is sent again after a broken header. -/
theorem sender_kept_redialed :
    let s :=
      (machine (plain false)).drive (fun _ _ => true)
        Sender.init redialRun
    s.stream 0 = [0, 0] ∧ s.stream 1 = [0, 0, 0, 1, 7] ∧
      Kept (plain false) s := by
  refine ⟨by decide, by decide, ?_⟩
  have hReach :=
    Machine.reachable_drive (machine (plain false)) redialRun
  exact
    (sender_kept_iff hReach).mpr (.inr ⟨rfl, rfl, by decide⟩)

/- A lost body, and a message that is never written. -/
theorem sender_not_kept :
    (¬ ∀ s, (machine (plain false)).Reachable s →
      Kept (plain false) s) ∧
      ¬ ∀ s, (machine (plain true)).Reachable s →
        Kept (plain true) s := by
  constructor
  · intro hAll
    have hKept :=
      hAll _
        (Machine.reachable_drive (machine (plain false))
          [.put ⟨1, [7]⟩, .take, .send .ok (.failed 0)])
    have hReported :=
      hKept.reported ⟨0, [7], .ok, .failed 0, false⟩
        (by decide) (fun hOk => by cases hOk.2)
    cases hReported
  · intro hAll
    have hKept :=
      hAll _
        (Machine.reachable_drive (machine (plain true))
          [.put ⟨1, [7]⟩, .take])
    have hTried := hKept.tried ⟨1, [7]⟩ (by decide) .ok .ok
    revert hTried
    decide

end Sender

end Network

end Jumbo
