import Jumbo.Network.Sender

/-
  A sender and the readers of its connections.

  A connection that breaks may lose what was written last, so
  a reader sees a first part of a stream. What the readers
  hand up, connection after connection, leaves messages out
  but repeats none and keeps their order; where every stream
  is seen whole, only the message in hand is missing.

  Main declarations:
    * `handleCon_seen`
    * `Linked` and `linked`
    * `link_delivers`
-/

------------------------------------------------------------
-- A Stream That Ends Early
------------------------------------------------------------

namespace Jumbo

namespace Network

open Crypto (Bytes)
open Protocol.ByteStream

/- A part of a message that is not the whole of it. -/
def Torn (part : Bytes) : Prop :=
  ∃ msg : Bytes, msg.length < 2 ^ 31 ∧
    part <+: frame msg ∧ part ≠ frame msg

section Seen

variable {msg part : Bytes} {msgs con : List Bytes}

/- A frame is the length and the message. -/
theorem frame_eq (msg : Bytes) :
    frame msg =
      putUint32 (msg.length % 2 ^ 32) ++ msg :=
  rfl

/- No frame is torn at the start. -/
theorem torn_nil : Torn [] := by
  refine ⟨[], by decide, List.nil_prefix, ?_⟩
  rw [frame_eq]
  exact fun hEq => by cases hEq

/- What goes on where the rest begins is a part of the rest. -/
theorem prefix_append_cases
    {α : Type*} {seen front rest : List α}
    (hSeen : seen <+: front ++ rest) :
    (seen <+: front ∧ seen ≠ front) ∨
      ∃ more, seen = front ++ more ∧ more <+: rest := by
  rcases Nat.lt_or_ge seen.length front.length with
    hLt | hLe
  · left
    refine
      ⟨List.prefix_of_prefix_length_le hSeen
        (List.prefix_append front rest) (Nat.le_of_lt hLt), ?_⟩
    intro hEq
    rw [hEq] at hLt
    exact Nat.lt_irrefl _ hLt
  · right
    rcases List.prefix_of_prefix_length_le
        (List.prefix_append front rest) hSeen hLe with
      ⟨more, rfl⟩
    exact
      ⟨more, rfl, (List.prefix_append_right_inj front).mp hSeen⟩

/- A message that is cut short is not handed up. -/
theorem handleCon_torn
    (hTorn : Torn con.flatten) : (handleCon con).1 = [] := by
  rcases hTorn with ⟨msg, hShort, hPrefix, hNe⟩
  cases hHeader : readFull 4 con with
  | none => rw [handleCon_of_none hHeader]
  | some got =>
      rcases got with ⟨header, left⟩
      rcases readFull_eq_some hHeader with ⟨hFlat, hFour⟩
      rcases hPrefix with ⟨lost, hLost⟩
      rw [← hFlat, frame_eq, List.append_assoc] at hLost
      rcases List.append_inj hLost hFour with ⟨rfl, hBody⟩
      have hSize := int32_putUint32 hShort
      rw [handleCon_of_some hHeader (by omega), hSize,
        Int.toNat_natCast]
      cases hRead : readFull msg.length left with
      | none => rfl
      | some got =>
          rcases got with ⟨body, left'⟩
          rcases readFull_eq_some hRead with
            ⟨hBodyFlat, hLength⟩
          exfalso
          apply hNe
          have hAll := congrArg List.length hBody
          have hGot := congrArg List.length hBodyFlat
          rw [List.length_append] at hAll hGot
          have hNone : lost = [] :=
            List.eq_nil_of_length_eq_zero (by omega)
          rw [hNone, List.append_nil] at hBody
          rw [← hFlat, hBody, frame_eq]

/-
  From the first part of a stream of messages the reader hands
  up the first of them.
-/
theorem handleCon_seen
    (hShort : ∀ msg ∈ msgs, msg.length < 2 ^ 31)
    (hTorn : Torn part)
    (hCon :
      con.flatten <+: msgs.flatMap frame ++ part) :
    (handleCon con).1 <+: msgs := by
  induction msgs generalizing con with
  | nil =>
      rcases hTorn with ⟨msg, hLength, hPrefix, hNe⟩
      have hSeen := hCon.trans hPrefix
      rw [handleCon_torn ⟨msg, hLength, hSeen, ?_⟩]
      intro hEq
      apply hNe
      rw [hEq] at hCon
      exact hPrefix.eq_of_length_le hCon.length_le
  | cons msg msgs ih =>
      rw [List.forall_mem_cons] at hShort
      rw [List.flatMap_cons, List.append_assoc] at hCon
      rcases prefix_append_cases hCon with
        ⟨hPrefix, hNe⟩ | ⟨more, hFlat, hMore⟩
      · rw [handleCon_torn ⟨msg, hShort.1, hPrefix, hNe⟩]
        exact List.nil_prefix
      · rcases handleCon_frame hShort.1 hFlat with
          ⟨left, hLeft, hHandled⟩
        rw [hHandled, List.cons_prefix_cons]
        refine ⟨rfl, ih hShort.2 ?_⟩
        rw [hLeft]
        exact hMore

/- The whole of a stream gives all of its messages. -/
theorem handleCon_whole
    (hShort : ∀ msg ∈ msgs, msg.length < 2 ^ 31)
    (hTorn : Torn part)
    (hCon :
      con.flatten = msgs.flatMap frame ++ part) :
    (handleCon con).1 = msgs := by
  induction msgs generalizing con with
  | nil =>
      apply handleCon_torn
      rw [hCon]
      exact hTorn
  | cons msg msgs ih =>
      rw [List.forall_mem_cons] at hShort
      rw [List.flatMap_cons, List.append_assoc] at hCon
      rcases handleCon_frame hShort.1 hCon with
        ⟨left, hLeft, hHandled⟩
      rw [hHandled, ih hShort.2 hLeft]

end Seen

end Network

end Jumbo

------------------------------------------------------------
-- What Is on the Connections
------------------------------------------------------------

namespace Jumbo

namespace Network

namespace Sender

open Protocol
open Crypto (Bytes)

variable (cfg : SenderConfig)

/-
  What is written has been taken, and a connection follows the
  ones before it.
-/
structure Linked (s : Sender) : Prop where
  held :
    ∀ msg, s.pc = .send msg ∨ s.pc = .dial msg → msg ∈ s.taken
  log :
    ∀ a ∈ s.log, ∃ msg ∈ s.taken, a.msgbyte = cfg.marshal msg
  order : s.log.Pairwise fun a b => a.con ≤ b.con

section Steps

variable {cfg : SenderConfig} {s s' : Sender}

/- Nothing has been written at the start. -/
theorem linked_init : Linked cfg Sender.init where
  held := by
    rintro msg (hPc | hPc)
    · cases hPc
    · cases hPc
  log := List.forall_mem_nil _
  order := .nil

/- Taking a message writes nothing. -/
theorem Linked.take
    (hLinked : Linked cfg s) (hTake : s.take cfg = some s') :
    Linked cfg s' := by
  unfold Sender.take at hTake
  split at hTake
  · rename_i msg rest hPc hQueue
    have hLog :
        ∀ a ∈ s.log, ∃ msg' ∈ s.taken ++ [msg],
          a.msgbyte = cfg.marshal msg' := by
      intro a hMem
      rcases hLinked.log a hMem with ⟨msg', hTaken, hEq⟩
      exact ⟨msg', List.mem_append_left _ hTaken, hEq⟩
    split at hTake
    · cases hTake
      refine { hLinked with held := ?_, log := hLog }
      intro msg' hOne
      exact List.mem_append_left _ (hLinked.held msg' hOne)
    · split at hTake
      · cases hTake
        exact { hLinked with }
      · cases hTake
        refine { hLinked with held := ?_, log := hLog }
        rintro msg' (hSend | hDial)
        · cases hSend
          exact
            List.mem_append_right _ (List.mem_singleton_self _)
        · cases hDial
  · cases hTake

/- The last connection is the one that is written to. -/
theorem Linked.send
    {first second : WriteResult}
    (hSpeed : cfg.isControlSpeed = false)
    (hTracked : Tracked cfg s) (hLinked : Linked cfg s)
    (hSend : s.send cfg first second = some s') :
    Linked cfg s' := by
  unfold Sender.send at hSend
  split at hSend
  · rename_i msg hPc
    rw [hSpeed, if_neg Bool.false_ne_true] at hSend
    cases hSend
    have hTaken := hLinked.held msg (.inl hPc)
    refine ⟨?_, ?_, ?_⟩
    · intro msg' hOne
      unfold Sender.attempt at hOne
      dsimp only at hOne
      split at hOne
      · rcases hOne with hOne | hOne
        · cases hOne
        · cases hOne
          exact hTaken
      · rcases hOne with hOne | hOne
        · cases hOne
        · cases hOne
    · intro a hMem
      rcases List.mem_append.mp hMem with hOld | hNew
      · exact hLinked.log a hOld
      · cases List.mem_singleton.mp hNew
        exact ⟨msg, hTaken, rfl⟩
    · refine
        List.pairwise_append.mpr
          ⟨hLinked.order, List.pairwise_singleton _ _, ?_⟩
      intro a hOld b hNew
      cases List.mem_singleton.mp hNew
      exact hTracked.fresh a hOld
  · cases hSend

/- A new connection starts with no bytes. -/
theorem Linked.dial
    {connected : Bool}
    (hLinked : Linked cfg s)
    (hDial : s.dial connected = some s') :
    Linked cfg s' := by
  unfold Sender.dial at hDial
  split at hDial
  · rename_i msg hPc
    have hTaken := hLinked.held msg (.inr hPc)
    split at hDial
    · cases hDial
      refine { hLinked with held := ?_ }
      rintro msg' (hOne | hOne)
      · cases hOne
        exact hTaken
      · cases hOne
    · split at hDial
      · cases hDial
        refine { hLinked with held := ?_ }
        rintro msg' (hOne | hOne)
        · cases hOne
        · cases hOne
      · cases hDial
        exact { hLinked with }
  · cases hDial

/- In every run the connections carry what was logged. -/
theorem linked
    (hSpeed : cfg.isControlSpeed = false)
    (hReach : (machine cfg).Reachable s) :
    Linked cfg s := by
  refine hReach.invariant (Linked cfg) linked_init ?_
  intro s a s' hBefore hLinked hExec
  cases a with
  | put msg =>
      cases hExec
      exact { hLinked with }
  | take => exact hLinked.take hExec
  | send first second =>
      exact hLinked.send hSpeed (tracked hBefore) hExec
  | dial connected => exact hLinked.dial hExec

end Steps

------------------------------------------------------------
-- From End to End
------------------------------------------------------------

section EndToEnd

variable {cfg : SenderConfig} {s : Sender}

/-
  On one connection the messages are whole up to the last
  call, of which there may be a part.
-/
theorem written_of_alone
    {log : List Attempt}
    (hAlone : log.Pairwise fun a _ => a.err = false)
    (hWhole :
      ∀ a ∈ log, a.err = false → a.bytes = frame a.msgbyte)
    (hTorn : ∀ a ∈ log, a.err = true → Torn a.bytes) :
    ∃ part, Torn part ∧
      log.flatMap Attempt.bytes =
        ((log.filter fun a => !a.err).map
          Attempt.msgbyte).flatMap frame ++ part := by
  induction log with
  | nil => exact ⟨[], torn_nil, rfl⟩
  | cons a log ih =>
      rw [List.pairwise_cons] at hAlone
      rw [List.forall_mem_cons] at hWhole hTorn
      rcases ih hAlone.2 hWhole.2 hTorn.2 with
        ⟨part, hPart, hEq⟩
      cases hErr : a.err with
      | false =>
          refine ⟨part, hPart, ?_⟩
          simp only [List.filter_cons, hErr, Bool.not_false,
            if_true, List.map_cons, List.flatMap_cons, hEq,
            hWhole.1 hErr, List.append_assoc]
      | true =>
          cases log with
          | nil =>
              refine ⟨a.bytes, hTorn.1 hErr, ?_⟩
              simp [hErr]
          | cons b log =>
              have hNot := hAlone.1 b List.mem_cons_self
              rw [hErr] at hNot
              cases hNot

/- A header that fails is a part of its message. -/
theorem torn_of_err
    {a : Attempt}
    (hErr : a.err = (directSend a.msgbyte a.first a.second).2)
    (hWritten : a.BodyWritten) (hFail : a.err = true)
    (hNe : a.msgbyte ≠ []) (hShort : a.msgbyte.length < 2 ^ 31) :
    Torn a.bytes := by
  rcases a with ⟨con, msgbyte, first, second, err⟩
  dsimp only at hErr hFail hNe hShort
  cases first with
  | ok =>
      cases hWritten rfl
      rw [hFail] at hErr
      cases hErr
  | failed written =>
      refine ⟨msgbyte, hShort, ?_, ?_⟩
      · exact
          (List.take_prefix written _).trans
            (List.prefix_append _ msgbyte)
      · intro hEq
        have hPrefix :=
          List.take_prefix written
            (putUint32 (msgbyte.length % 2 ^ 32))
        have hLe := hPrefix.length_le
        have hLength := congrArg List.length hEq
        rw [frame_eq, List.length_append] at hLength
        change
          ((putUint32 (msgbyte.length % 2 ^ 32)).take
            written).length = _ at hLength
        have hPos := List.length_pos_of_ne_nil hNe
        omega

/- In order of a key, the parts for each key make the whole. -/
theorem flatMap_filter_key
    {α : Type*} {key : α → Nat} {l : List α}
    (hOrder : l.Pairwise fun a b => key a ≤ key b) (k : Nat) :
    ((List.range k).flatMap fun c =>
        l.filter fun a => decide (key a = c)) =
      l.filter fun a => decide (key a < k) := by
  induction k with
  | zero => simp
  | succ k ih =>
      rw [List.range_succ, List.flatMap_append, ih,
        List.flatMap_singleton]
      clear ih
      induction l with
      | nil => rfl
      | cons a l ih =>
          rw [List.pairwise_cons] at hOrder
          rcases Nat.lt_trichotomy (key a) k with
            hLt | hEq | hGt
          · have hNe : key a ≠ k := Nat.ne_of_lt hLt
            have hSucc : key a < k + 1 := by omega
            simp only [List.filter_cons, hLt, hNe, hSucc,
              decide_true, decide_false, if_true,
              Bool.false_eq_true, if_false, List.cons_append,
              ih hOrder.2]
          · have hNone :
                l.filter (fun b => decide (key b < k)) = [] := by
              apply List.filter_eq_nil_iff.mpr
              intro b hMem hLt
              have hLe := hOrder.1 b hMem
              have := of_decide_eq_true hLt
              omega
            have hRest := ih hOrder.2
            rw [hNone, List.nil_append] at hRest
            simp only [List.filter_cons, hEq, Nat.lt_irrefl,
              Nat.lt_succ_self, decide_true, decide_false,
              if_true, Bool.false_eq_true, if_false, hNone,
              List.nil_append, hRest]
          · have hLt : ¬ key a < k := by omega
            have hNe : key a ≠ k := by omega
            have hSucc : ¬ key a < k + 1 := by omega
            simp only [List.filter_cons, hLt, hNe, hSucc,
              decide_false, Bool.false_eq_true, if_false,
              ih hOrder.2]

/- What the readers of the connections hand up. -/
def handedUp (s : Sender) (con : Nat → List Bytes) :
    List Bytes :=
  (List.range (s.con + 1)).flatMap fun c => (handleCon (con c)).1

/-
  What the loop takes from its queue arrives in order and
  without repetition, whatever part of each stream is seen and
  however it is cut into reads; all but the message in hand
  arrive when the streams are seen whole.
-/
theorem link_delivers
    (hSpeed : cfg.isControlSpeed = false)
    (hCrash : cfg.crashed = false)
    (hReach : (machine cfg).Reachable s)
    (hWritten : ∀ a ∈ s.log, a.BodyWritten)
    (hSize :
      ∀ msg ∈ s.taken, cfg.marshal msg ≠ [] ∧
        (cfg.marshal msg).length < 2 ^ 31)
    {con : Nat → List Bytes}
    (hSeen : ∀ c, (con c).flatten <+: s.stream c) :
    (s.handedUp con).Sublist (s.taken.map cfg.marshal) ∧
      ((∀ c, (con c).flatten = s.stream c) →
        s.handedUp con ++ s.pending.map cfg.marshal =
          s.taken.map cfg.marshal) := by
  have hTracked := tracked hReach
  have hLinked := linked hSpeed hReach
  have hBytes :
      ∀ a ∈ s.log, a.msgbyte ≠ [] ∧
        a.msgbyte.length < 2 ^ 31 := by
    intro a hMem
    rcases hLinked.log a hMem with ⟨msg, hTaken, hEq⟩
    rw [hEq]
    exact hSize msg hTaken
  -- the messages sent on one connection
  let on : Nat → List Bytes := fun c =>
    (s.sent.filter fun a => decide (a.con = c)).map
      Attempt.msgbyte
  have hShort : ∀ c, ∀ msg ∈ on c, msg.length < 2 ^ 31 := by
    intro c msg hMem
    rcases List.mem_map.mp hMem with ⟨a, hSent, rfl⟩
    exact
      (hBytes a
        (List.mem_of_mem_filter
          (List.mem_of_mem_filter hSent))).2
  have hStream :
      ∀ c, ∃ part, Torn part ∧
        s.stream c = (on c).flatMap frame ++ part := by
    intro c
    have hOnly :
        ∀ a ∈ s.log.filter (fun a => decide (a.con = c)),
          a ∈ s.log ∧ a.con = c := by
      intro a hMem
      rcases List.mem_filter.mp hMem with ⟨hLog, hCon⟩
      exact ⟨hLog, of_decide_eq_true hCon⟩
    have hAlone :
        (s.log.filter fun a => decide (a.con = c)).Pairwise
          fun a _ => a.err = false := by
      refine
        (hTracked.alone.sublist List.filter_sublist).imp_of_mem
          ?_
      intro a b hA hB hErr
      exact hErr ((hOnly a hA).2.trans (hOnly b hB).2.symm)
    rcases written_of_alone hAlone
        (fun a hMem hOk =>
          (directSend_err
            (hTracked.errs a (hOnly a hMem).1)).2.2
              (hWritten a (hOnly a hMem).1) hOk)
        (fun a hMem hErr =>
          torn_of_err (hTracked.errs a (hOnly a hMem).1)
            (hWritten a (hOnly a hMem).1) hErr
            (hBytes a (hOnly a hMem).1).1
            (hBytes a (hOnly a hMem).1).2) with
      ⟨part, hTorn, hEq⟩
    refine ⟨part, hTorn, ?_⟩
    unfold stream
    rw [hEq, List.filter_comm]
    rfl
  have hParts :
      ((List.range (s.con + 1)).flatMap on) =
        s.sent.map Attempt.msgbyte := by
    have hSentOrder :
        s.sent.Pairwise fun a b => a.con ≤ b.con :=
      hLinked.order.sublist List.filter_sublist
    have hAll :
        s.sent.filter (fun a => decide (a.con < s.con + 1)) =
          s.sent := by
      apply List.filter_eq_self.mpr
      intro a hMem
      have hLe := hTracked.fresh a (List.mem_of_mem_filter hMem)
      exact decide_eq_true (Nat.lt_succ_of_le hLe)
    have hKey := flatMap_filter_key hSentOrder (s.con + 1)
    rw [hAll] at hKey
    rw [← hKey, List.map_flatMap]
  have hOrder := hTracked.order hSpeed hCrash
  constructor
  · rw [hOrder, ← hParts]
    refine
      List.Sublist.trans ?_ (List.sublist_append_left _ _)
    unfold handedUp
    refine List.Sublist.flatMap_right _ fun c _ => ?_
    rcases hStream c with ⟨part, hTorn, hEq⟩
    have hPrefix := hSeen c
    rw [hEq] at hPrefix
    exact (handleCon_seen (hShort c) hTorn hPrefix).sublist
  · intro hWhole
    have hHanded : s.handedUp con = s.sent.map Attempt.msgbyte := by
      rw [← hParts]
      unfold handedUp
      congr 1
      funext c
      rcases hStream c with ⟨part, hTorn, hEq⟩
      exact
        handleCon_whole (hShort c) hTorn ((hWhole c).trans hEq)
    rw [hHanded, hOrder]

/-
  The first connection breaks in a header; on the second one a
  message is seen in two pieces, and the next is in hand.
-/
theorem link_delivers_redialed :
    let s :=
      (machine (plain false)).drive (fun _ _ => true)
        Sender.init redialRun
    let con : Nat → List Bytes :=
      fun c =>
        if c = 0 then [[0, 0]]
        else if c = 1 then [[0, 0], [0, 1, 7]]
        else []
    (s.handedUp con).Sublist [[7], [8]] ∧
      s.handedUp con ++ [[8]] = [[7], [8]] := by
  intro s con
  have hReach :=
    Machine.reachable_drive (machine (plain false)) redialRun
  have hWhole : ∀ c, (con c).flatten = s.stream c := by
    intro c
    cases c with
    | zero => decide
    | succ c =>
        cases c with
        | zero => decide
        | succ c => rfl
  have hSeen : ∀ c, (con c).flatten <+: s.stream c := by
    intro c
    rw [hWhole c]
  have hDelivers :=
    link_delivers rfl rfl hReach (by decide) (by decide) hSeen
  exact ⟨hDelivers.1, hDelivers.2 hWhole⟩

end EndToEnd

end Sender

end Network

end Jumbo
