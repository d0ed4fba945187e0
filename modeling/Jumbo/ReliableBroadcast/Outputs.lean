import Jumbo.Crypto.Signature
import Jumbo.ReliableBroadcast.Signals

/-
  Who stands behind an output of the broadcast.

  A follower outputs at its `2f + 1`st READY or FINISH, the
  broadcaster at its `2f`th. These are as many parties when
  nobody is read twice and the broadcaster, which counts
  itself already, does not read its own message as well.

  Main declarations:
    * `Heard` and `Backed`
    * `apart`
    * `Sources`
    * `sources`
-/

------------------------------------------------------------
-- Parties That Are Heard
------------------------------------------------------------

namespace Jumbo

namespace ReliableBroadcast

open Protocol

variable {n : Nat}

/- A party that `p` has heard, itself when it has spoken. -/
def Heard
    (s : State n) (p : Fin n)
    (type : RBCMsgType) (value : Bytes) (q : Fin n) :
    Prop :=
  ∃ (i : Nat) (x : Packet n),
    s.log.sent[i]? = some x ∧ isKind type value x = true ∧
      x.msg.id = q ∧ (q = p ∨ s.log.loc p i = .handled)

/- `2f + 1` parties are heard for a value. -/
def Backed
    (s : State n) (p : Fin n)
    (type : RBCMsgType) (value : Bytes) : Prop :=
  ∃ A : Finset (Fin n),
    threshold n * 2 + 1 ≤ A.card ∧
      ∀ q ∈ A, Heard s p type value q

/- What the first output has been signalled for. -/
def BCF.fired1 (bcf : BCF) : List Bytes :=
  bcf.output1signal ++ bcf.output1

/- All signals for the second output, with the outputs. -/
def BCF.fired2 (bcf : BCF) : List Bytes :=
  bcf.output2signal ++ bcf.output2

/- All signals for the first output of the leader. -/
def BCL.fired1 (cfg : Config n) (bcl : BCL) : List Bytes :=
  (bcl.output1signal.map fun _ => cfg.input) ++ bcl.output1

/- All signals for the second output of the leader. -/
def BCL.fired2 (cfg : Config n) (bcl : BCL) : List Bytes :=
  (bcl.output2signal.map fun _ => cfg.input) ++ bcl.output2

namespace State

/- What a party has been told to put out first. -/
def fired1 (cfg : Config n) (s : State n) (p : Fin n) :
    List Bytes :=
  if p = cfg.lid then s.leader.fired1 cfg
  else (s.follower p).fired1

/- What a party has been told to put out second. -/
def fired2 (cfg : Config n) (s : State n) (p : Fin n) :
    List Bytes :=
  if p = cfg.lid then s.leader.fired2 cfg
  else (s.follower p).fired2

end State

/- The senders of what a party has read for a value. -/
def readFrom
    (s : State n) (p : Fin n)
    (type : RBCMsgType) (value : Bytes) : Finset (Fin n) :=
  s.log.heldFrom p .handled Packet.src (isKind type value)

/- A sender whose message was read is heard. -/
theorem heard_of_readFrom
    {s : State n} {p q : Fin n}
    {type : RBCMsgType} {value : Bytes}
    (hMem : q ∈ readFrom s p type value) :
    Heard s p type value q := by
  rcases (BroadcastLog.mem_heldFrom_iff _ _ _ _ _ _).mp hMem
    with ⟨i, x, hMsg, hLoc, hKind, hSrc⟩
  exact ⟨i, x, hMsg, hKind, hSrc, .inr hLoc⟩

/- A party that has sent hears itself. -/
theorem heard_self
    {s : State n} {p : Fin n}
    {type : RBCMsgType} {value : Bytes}
    (hMem : p ∈ senders s.log type value) :
    Heard s p type value p := by
  rcases mem_senders.mp hMem with
    ⟨x, hx, hType, hRoot, hId⟩
  rcases List.mem_iff_getElem?.mp hx with ⟨i, hi⟩
  exact
    ⟨i, x, hi, by simp [isKind, hType, hRoot], hId, .inl rfl⟩

/- Who is heard has sent. -/
theorem Heard.sender
    {s : State n} {p q : Fin n}
    {type : RBCMsgType} {value : Bytes}
    (hHeard : Heard s p type value q) :
    q ∈ senders s.log type value := by
  rcases hHeard with ⟨i, x, hMsg, hKind, hId, _⟩
  simp only [isKind, Bool.and_eq_true, decide_eq_true_eq]
    at hKind
  exact mem_senders.mpr
    ⟨x, List.mem_of_getElem? hMsg, hKind.1, hKind.2, hId⟩

section Change

variable {cfg : Config n} {byz : Finset (Fin n)}
variable {s s' : State n} {a : Action n}

/- Who has been heard stays heard. -/
theorem Heard.change
    {p q : Fin n} {type : RBCMsgType} {value : Bytes}
    (hHeard : Heard s p type value q)
    (hChange : Change cfg byz s a s') :
    Heard s' p type value q := by
  rcases hHeard with ⟨i, x, hMsg, hKind, hId, hWhere⟩
  rcases List.getElem?_eq_some_iff.mp hMsg with ⟨hLt, rfl⟩
  have hMsg' :=
    List.prefix_iff_getElem?.mp hChange.sent_prefix i hLt
  refine ⟨i, _, hMsg', hKind, hId, ?_⟩
  rcases hWhere with hSelf | hLoc
  · exact .inl hSelf
  · exact .inr (hChange.keeps hLt hLoc)

/- A value that is backed stays so. -/
theorem Backed.change
    {p : Fin n} {type : RBCMsgType} {value : Bytes}
    (hBacked : Backed s p type value)
    (hChange : Change cfg byz s a s') :
    Backed s' p type value := by
  rcases hBacked with ⟨A, hCard, hAll⟩
  exact ⟨A, hCard, fun q hq => (hAll q hq).change hChange⟩

/- New senders are read now. -/
theorem Change.readFrom
    (hChange : Change cfg byz s a s')
    {p q : Fin n} {type : RBCMsgType} {value : Bytes}
    (hMem : q ∈ readFrom s' p type value) :
    q ∈ readFrom s p type value ∨
      ∃ (i : Nat) (x : Packet n), a = .receive p i ∧
        s.log.sent[i]? = some x ∧ x.msg.id = q := by
  rcases (BroadcastLog.mem_heldFrom_iff _ _ _ _ _ _).mp hMem
    with ⟨i, x, hMsg, hLoc, hKind, hSrc⟩
  rcases hChange.handled hMsg hLoc with ⟨hOld, hBefore | hNow⟩
  · left
    exact (BroadcastLog.mem_heldFrom_iff _ _ _ _ _ _).mpr
      ⟨i, x, hOld, hBefore, hKind, hSrc⟩
  · exact .inr ⟨i, x, hNow, hOld, hSrc⟩

end Change

end ReliableBroadcast

end Jumbo

------------------------------------------------------------
-- Reading Apart
------------------------------------------------------------

namespace Jumbo

namespace ReliableBroadcast

open Protocol

variable {n : Nat}

/- Whether the broadcaster outputs when it reads `m`. -/
def leaderFires
    (cfg : Config n) (s : State n) (m : RBCMsg n) : Bool :=
  match m.type with
  | .ready =>
      (leaderHandleReady n cfg.input s.leader.readycount
        m.root).2.deliver
  | .finish =>
      (leaderHandleFinish n cfg.input s.leader.finishcount
        m.root).2
  | _ => false

/-
  The broadcaster has sent such a message itself and has not
  read it, nor does it now.
-/
def ownAside
    (cfg : Config n) (s : State n) (m : RBCMsg n) : Bool :=
  decide (cfg.lid ∈ senders s.log m.type cfg.input) &&
    decide
      (cfg.lid ∉ readFrom s cfg.lid m.type cfg.input) &&
    decide (m.id ≠ cfg.lid)

/-
  A READY or FINISH that is read is the first one of its
  sender for the value, and with the one that makes it output
  the broadcaster has left its own message aside.
-/
def apartRead
    (cfg : Config n) (s : State n) (p : Fin n)
    (m : RBCMsg n) : Bool :=
  (decide (m.type ≠ .ready) && decide (m.type ≠ .finish)) ||
    (decide (s.log.tally p .handled (repeats m) = 0) &&
      (decide (p ≠ cfg.lid) || !leaderFires cfg s m ||
        ownAside cfg s m))

/- No READY or FINISH of one sender is read twice. -/
def apart (cfg : Config n) (s : State n) :
    Action n → Bool
| .receive p i =>
    (s.log.sent[i]?).all fun packet =>
      apartRead cfg s p packet.msg
| _ => true

/- States of such runs. -/
abbrev ApartReachable
    (cfg : Config n) (byz : Finset (Fin n)) (s : State n) :
    Prop :=
  (machine n cfg byz).ReachableBy
    (fun s a => apart cfg s a = true) s

section ReadOnce

variable {cfg : Config n} {byz : Finset (Fin n)}
variable {s s' : State n} {a : Action n}
variable {K : Fin n → RBCMsgType → Prop}

/- No party has read two equal messages of these types. -/
def ReadOnce
    (K : Fin n → RBCMsgType → Prop) (s : State n) : Prop :=
  ∀ p (i j : Nat) (x y : Packet n),
    s.log.sent[i]? = some x → s.log.sent[j]? = some y →
      s.log.loc p i = .handled → s.log.loc p j = .handled →
        K p x.msg.type → repeats x.msg y = true → i = j

/- A fresh message is read once. -/
theorem ReadOnce.step
    (hOnce : ReadOnce K s)
    (hChange : Change cfg byz s a s')
    (hFresh :
      ∀ p i x, a = .receive p i →
        s.log.sent[i]? = some x → K p x.msg.type →
          s.log.tally p .handled (repeats x.msg) = 0) :
    ReadOnce K s' := by
  -- what is read now repeats nothing read before
  have hNew :
      ∀ p (i j : Nat) (x y : Packet n),
        a = .receive p i → s.log.sent[i]? = some x →
          s.log.sent[j]? = some y →
            s.log.loc p j = .handled → K p x.msg.type →
              repeats x.msg y = false :=
    fun p i j x y hAction hx hy hj hType =>
      (BroadcastLog.tally_eq_zero_iff _ _ _ _).mp
        (hFresh p i x hAction hx hType) j y hy hj
  intro p i j x y hx hy hi hj hType hRepeats
  rcases hChange.handled hx hi with ⟨hx', hi'⟩
  rcases hChange.handled hy hj with ⟨hy', hj'⟩
  rcases hi' with hi' | hNow
  · rcases hj' with hj' | hNow
    · exact hOnce p i j x y hx' hy' hi' hj' hType hRepeats
    · have hSame : y.msg.type = x.msg.type := by
        simp only [repeats, Bool.and_eq_true,
          decide_eq_true_eq] at hRepeats
        exact hRepeats.1
      have hNot :=
        hNew p j i y x hNow hy' hx' hi' (hSame ▸ hType)
      rw [repeats_comm hRepeats] at hNot
      cases hNot
  · rcases hj' with hj' | hSame
    · have hNot := hNew p i j x y hNow hx' hy' hj' hType
      rw [hRepeats] at hNot
      cases hNot
    · rw [hNow] at hSame
      cases hSame
      rfl

/- So what has been read comes from as many parties. -/
theorem ReadOnce.tally_le
    (hOnce : ReadOnce K s)
    {p : Fin n} {type : RBCMsgType} (hType : K p type)
    (value : Bytes) :
    s.log.tally p .handled (isKind type value) ≤
      (readFrom s p type value).card := by
  apply BroadcastLog.tally_le_card_heldFrom
  intro i j x y hx hy hi hj hxKind hyKind hSrc
  simp only [isKind, Bool.and_eq_true,
    decide_eq_true_eq] at hxKind hyKind
  have hId : y.msg.id = x.msg.id := hSrc.symm
  refine hOnce p i j x y hx hy hi hj ?_ ?_
  · rw [hxKind.1]
    exact hType
  · simp [repeats, hxKind.1, hyKind.1, hxKind.2, hyKind.2,
      hId]

end ReadOnce

section Read

variable {cfg : Config n} {byz : Finset (Fin n)}
variable {s s' : State n} {a : Action n}

/- What is read then is its sender's first. -/
theorem apart_receive
    {p : Fin n} {i : Nat} {x : Packet n}
    (hApart : apart cfg s (.receive p i) = true)
    (hMsg : s.log.sent[i]? = some x)
    (hType : x.msg.type = .ready ∨ x.msg.type = .finish) :
    s.log.tally p .handled (repeats x.msg) = 0 ∧
      (p = cfg.lid → leaderFires cfg s x.msg = true →
        cfg.lid ∈ senders s.log x.msg.type cfg.input ∧
          cfg.lid ∉ readFrom s cfg.lid x.msg.type
            cfg.input ∧
          x.msg.id ≠ cfg.lid) := by
  have hRead : apartRead cfg s p x.msg = true := by
    simpa [apart, hMsg] using hApart
  unfold apartRead at hRead
  rcases Bool.or_eq_true_iff.mp hRead with hOther | hRead
  · rcases hType with hType | hType
    · simp [hType] at hOther
    · simp [hType] at hOther
  · simp only [Bool.and_eq_true, decide_eq_true_eq]
      at hRead
    refine ⟨hRead.1, ?_⟩
    rintro rfl hFires
    simpa [hFires, ownAside, and_assoc] using hRead.2

/- No two READY or FINISH of one party have been read. -/
def Distinct (s : State n) : Prop :=
  ∀ p (i j : Nat) (x y : Packet n),
    s.log.sent[i]? = some x → s.log.sent[j]? = some y →
      s.log.loc p i = .handled → s.log.loc p j = .handled →
        x.msg.type = .ready ∨ x.msg.type = .finish →
          repeats x.msg y = true → i = j

theorem Distinct.readOnce
    (hDistinct : Distinct s) :
    ReadOnce (fun _ type => type = .ready ∨ type = .finish)
      s :=
  hDistinct

/- Every such step keeps the messages distinct. -/
theorem Distinct.step
    (hDistinct : Distinct s)
    (hChange : Change cfg byz s a s')
    (hApart : apart cfg s a = true) :
    Distinct s' := by
  refine hDistinct.readOnce.step hChange ?_
  intro p i x hAction hMsg hType
  subst hAction
  exact (apart_receive hApart hMsg hType).1

/- As many senders as messages that were counted. -/
theorem Distinct.tally_le
    (hDistinct : Distinct s)
    {type : RBCMsgType}
    (hType : type = .ready ∨ type = .finish)
    (p : Fin n) (value : Bytes) :
    s.log.tally p .handled (isKind type value) ≤
      (readFrom s p type value).card :=
  hDistinct.readOnce.tally_le hType value

end Read

end ReliableBroadcast

end Jumbo

------------------------------------------------------------
-- What Makes an Output Fire
------------------------------------------------------------

namespace Jumbo

namespace ReliableBroadcast

open Protocol

variable {n : Nat} {cfg : Config n}

/- A signal is in the channel or was put now. -/
theorem mem_push
    {α : Type} {cap : Nat} {channel channel' : List α}
    {fires : Bool} {root v : α}
    (hPush :
      push cap channel (if fires then some root else none) =
        some channel') :
    v ∈ channel' ↔ v ∈ channel ∨ fires = true ∧ v = root := by
  rcases push_eq_some hPush with ⟨rfl, _⟩
  cases fires <;> simp

section Follower

variable {p : Fin n} {bcf bcf' : BCF}
variable {m : Option (RBCMsg n)} {ms : List (RBCMsg n)}

/- A signal of a follower is not taken back. -/
theorem FollowerStep.fired1_mono
    (hStep : FollowerStep cfg p bcf m bcf' ms)
    {v : Bytes} (hv : v ∈ bcf.fired1) :
    v ∈ bcf'.fired1 := by
  cases hStep with
  | sendReady | forward2 | val | echo | finish => exact hv
  | forward1 value rest hSignal =>
      unfold BCF.fired1 at hv ⊢
      rw [hSignal] at hv
      simp only [List.mem_append, List.mem_cons] at hv ⊢
      tauto
  | ready _ _ _ _ _ _ hDeliver =>
      unfold BCF.fired1 at hv ⊢
      rw [List.mem_append, mem_push hDeliver]
      rcases List.mem_append.mp hv with h | h
      · exact .inl (.inl h)
      · exact .inr h

/- The first output fires at the `2f + 1`st READY. -/
theorem FollowerStep.fired1_new
    (hStep : FollowerStep cfg p bcf m bcf' ms)
    {v : Bytes} (hv : v ∈ bcf'.fired1) :
    v ∈ bcf.fired1 ∨
      bcf'.ready.readymap v = threshold n * 2 + 1 := by
  cases hStep with
  | sendReady | forward2 | val | echo | finish =>
      exact .inl hv
  | forward1 value rest hSignal =>
      left
      unfold BCF.fired1 at hv ⊢
      rw [hSignal]
      simp only [List.mem_append, List.mem_cons,
        List.not_mem_nil, or_false] at hv ⊢
      tauto
  | ready _ _ _ _ _ _ hDeliver =>
      unfold BCF.fired1 at hv ⊢
      rw [List.mem_append, mem_push hDeliver] at hv
      rcases hv with (h | ⟨hFires, rfl⟩) | h
      · exact .inl (List.mem_append_left _ h)
      · right
        simpa [HandleReady.read] using hFires
      · exact .inl (List.mem_append_right _ h)

/- The second one at the `2f + 1`st FINISH. -/
theorem FollowerStep.fired2_new
    (hStep : FollowerStep cfg p bcf m bcf' ms)
    {v : Bytes} (hv : v ∈ bcf'.fired2) :
    v ∈ bcf.fired2 ∨
      bcf'.finish.finishmap v = threshold n * 2 + 1 := by
  cases hStep with
  | sendReady | forward1 | val | echo | ready =>
      exact .inl hv
  | forward2 value rest hSignal =>
      left
      unfold BCF.fired2 at hv ⊢
      rw [hSignal]
      simp only [List.mem_append, List.mem_cons,
        List.not_mem_nil, or_false] at hv ⊢
      tauto
  | finish _ _ _ _ hDeliver =>
      unfold BCF.fired2 at hv ⊢
      rw [List.mem_append, mem_push hDeliver] at hv
      rcases hv with (h | ⟨hFires, rfl⟩) | h
      · exact .inl (List.mem_append_left _ h)
      · right
        simpa [HandleFinish.read] using hFires
      · exact .inl (List.mem_append_right _ h)

/- FINISH is sent for what is output. -/
theorem FollowerStep.finish_fired1
    (hStep : FollowerStep cfg p bcf m bcf' ms)
    {m' : RBCMsg n} (hMem : m' ∈ ms)
    (hType : m'.type = .finish) :
    m'.root ∈ bcf'.fired1 := by
  cases hStep with
  | sendReady | val =>
      rw [List.mem_singleton.mp hMem] at hType
      cases hType
  | forward1 | forward2 | echo | finish => cases hMem
  | ready _ _ _ _ _ _ hDeliver =>
      split at hMem
      · rename_i hFires
        rw [List.mem_singleton.mp hMem]
        unfold BCF.fired1
        rw [List.mem_append, mem_push hDeliver]
        exact .inl (.inr ⟨hFires, rfl⟩)
      · cases hMem

end Follower

section Leader

variable {bcl bcl' : BCL}
variable {m : Option (RBCMsg n)} {ms : List (RBCMsg n)}

/- A signal of the leader is not taken back. -/
theorem LeaderStep.fired1_mono
    (hStep : LeaderStep cfg bcl m bcl' ms)
    {v : Bytes} (hv : v ∈ bcl.fired1 cfg) :
    v ∈ bcl'.fired1 cfg := by
  cases hStep with
  | sendVal | sendEcho | sendReady | forward2 | echo
  | finish => exact hv
  | forward1 rest hSignal =>
      unfold BCL.fired1 at hv ⊢
      rw [hSignal] at hv
      simp only [List.map_cons, List.mem_append,
        List.mem_cons] at hv ⊢
      tauto
  | ready _ _ _ _ _ _ hDeliver =>
      unfold BCL.fired1 at hv ⊢
      rcases push_eq_some hDeliver with ⟨rfl, _⟩
      rw [List.map_append, List.mem_append, List.mem_append]
      rcases List.mem_append.mp hv with h | h
      · exact .inl (.inl h)
      · exact .inr h

/- The first output fires at the `2f`th READY. -/
theorem LeaderStep.fired1_new
    (hStep : LeaderStep cfg bcl m bcl' ms)
    {v : Bytes} (hv : v ∈ bcl'.fired1 cfg) :
    v ∈ bcl.fired1 cfg ∨
      v = cfg.input ∧ ∃ r, m = some r ∧ r.type = .ready ∧
        (leaderHandleReady n cfg.input bcl.readycount
          r.root).2.deliver = true ∧
        bcl'.readycount = threshold n * 2 := by
  cases hStep with
  | sendVal | sendEcho | sendReady | forward2 | echo
  | finish => exact .inl hv
  | forward1 rest hSignal =>
      left
      unfold BCL.fired1 at hv ⊢
      rw [hSignal]
      simp only [List.map_cons, List.mem_append,
        List.mem_cons, List.not_mem_nil, or_false] at hv ⊢
      tauto
  | ready r _ _ hType _ _ hDeliver =>
      unfold BCL.fired1 at hv ⊢
      rcases push_eq_some hDeliver with ⟨rfl, _⟩
      rw [List.map_append, List.mem_append, List.mem_append]
        at hv
      rcases hv with (h | h) | h
      · exact .inl (List.mem_append_left _ h)
      · right
        split at h
        · rename_i hFires
          exact
            ⟨List.mem_singleton.mp h, r, rfl, hType, hFires,
              leaderHandleReady_deliver hFires⟩
        · cases h
      · exact .inl (List.mem_append_right _ h)

/- A new signal comes from a FINISH. -/
theorem LeaderStep.fired2_new
    (hStep : LeaderStep cfg bcl m bcl' ms)
    {v : Bytes} (hv : v ∈ bcl'.fired2 cfg) :
    v ∈ bcl.fired2 cfg ∨
      v = cfg.input ∧ ∃ r, m = some r ∧ r.type = .finish ∧
        (leaderHandleFinish n cfg.input bcl.finishcount
          r.root).2 = true ∧
        bcl'.finishcount = threshold n * 2 := by
  cases hStep with
  | sendVal | sendEcho | sendReady | forward1 | echo
  | ready => exact .inl hv
  | forward2 rest hSignal =>
      left
      unfold BCL.fired2 at hv ⊢
      rw [hSignal]
      simp only [List.map_cons, List.mem_append,
        List.mem_cons, List.not_mem_nil, or_false] at hv ⊢
      tauto
  | finish r _ hType _ hDeliver =>
      unfold BCL.fired2 at hv ⊢
      rcases push_eq_some hDeliver with ⟨rfl, _⟩
      rw [List.map_append, List.mem_append, List.mem_append]
        at hv
      rcases hv with (h | h) | h
      · exact .inl (List.mem_append_left _ h)
      · right
        split at h
        · rename_i hFires
          refine
            ⟨List.mem_singleton.mp h, r, rfl, hType, hFires,
              ?_⟩
          unfold leaderHandleFinish at hFires ⊢
          split at hFires
          · rename_i hRoot
            rw [if_pos hRoot]
            simpa using hFires
          · cases hFires
        · cases h
      · exact .inl (List.mem_append_right _ h)

/- A FINISH is sent with the first signal. -/
theorem LeaderStep.finish_fired1
    (hStep : LeaderStep cfg bcl m bcl' ms)
    {m' : RBCMsg n} (hMem : m' ∈ ms)
    (hType : m'.type = .finish) :
    m'.root ∈ bcl'.fired1 cfg := by
  cases hStep with
  | sendVal | sendEcho | sendReady =>
      rw [List.mem_singleton.mp hMem] at hType
      cases hType
  | forward1 | forward2 | echo | finish => cases hMem
  | ready _ _ _ _ _ _ hDeliver =>
      split at hMem
      · rename_i hFires
        rw [List.mem_singleton.mp hMem]
        rcases push_eq_some hDeliver with ⟨rfl, _⟩
        unfold BCL.fired1
        simp [hFires, finishMsg]
      · cases hMem

end Leader

end ReliableBroadcast

end Jumbo

------------------------------------------------------------
-- Sources of the Outputs
------------------------------------------------------------

namespace Jumbo

namespace ReliableBroadcast

open Protocol

variable {n : Nat}

/- Every signal is backed by messages of different senders. -/
structure Sources
    (cfg : Config n) (byz : Finset (Fin n)) (s : State n) :
    Prop where
  distinct : Distinct s
  ready :
    ∀ p, p ∉ byz → ∀ v ∈ s.fired1 cfg p,
      Backed s p .ready v
  finish :
    ∀ p, p ∉ byz → ∀ v ∈ s.fired2 cfg p,
      Backed s p .finish v
  sent :
    ∀ p, p ∉ byz → ∀ v, p ∈ senders s.log .finish v →
      v ∈ s.fired1 cfg p

section Step

variable {cfg : Config n} {byz : Finset (Fin n)}
variable {s s' : State n} {a : Action n}

/-
  What fires at a party after a step: it fired before, or its
  role steps.
-/
theorem Change.fired
    (hChange : Change cfg byz s a s') (p : Fin n) :
    (s'.fired1 cfg p = s.fired1 cfg p ∧
        s'.fired2 cfg p = s.fired2 cfg p) ∨
      (p = cfg.lid ∧ ∃ m ms,
        s.Waits cfg.lid a.position m ∧
          (∀ q i, a = .receive q i → q = cfg.lid) ∧
          LeaderStep cfg s.leader m s'.leader ms) ∨
      p ≠ cfg.lid ∧ ∃ m ms,
        FollowerStep cfg p (s.follower p) m
          (s'.follower p) ms := by
  cases hChange with
  | forge | advance | closeval | panic => exact .inl ⟨rfl, rfl⟩
  | leader a m bcl ms _ hWaits hAt hStep =>
      by_cases hLeader : p = cfg.lid
      · exact .inr (.inl ⟨hLeader, m, ms, hWaits, hAt, hStep⟩)
      · left
        unfold State.fired1 State.fired2
        rw [if_neg hLeader, if_neg hLeader, if_neg hLeader,
          if_neg hLeader]
        cases a.position <;> exact ⟨rfl, rfl⟩
  | follower a q m bcf ms hNe _ _ _ hStep =>
      by_cases hEq : p = q
      · subst hEq
        have hBcf :
            ((((s.afterRead p a.position).setFollower p
              bcf).broadcast p ms).follower p) = bcf := by
          simp [State.broadcast, State.setFollower]
        refine .inr (.inr ⟨hNe, m, ms, ?_⟩)
        rw [hBcf]
        exact hStep
      · left
        have hSame :
            ((((s.afterRead q a.position).setFollower q
              bcf).broadcast q ms).follower p) =
                s.follower p := by
          cases a.position <;>
            simp [State.broadcast, State.setFollower,
              State.afterRead, hEq]
        unfold State.fired1 State.fired2
        rw [hSame]
        cases a.position <;> exact ⟨rfl, rfl⟩

/- No step takes a signal back. -/
theorem Change.fired1_mono
    (hChange : Change cfg byz s a s')
    {p : Fin n} {v : Bytes} (hv : v ∈ s.fired1 cfg p) :
    v ∈ s'.fired1 cfg p := by
  rcases hChange.fired p with
    hSame | ⟨rfl, m, ms, _, _, hStep⟩ | ⟨hNe, m, ms, hStep⟩
  · rw [hSame.1]
    exact hv
  · unfold State.fired1 at hv ⊢
    rw [if_pos rfl] at hv ⊢
    exact hStep.fired1_mono hv
  · unfold State.fired1 at hv ⊢
    rw [if_neg hNe] at hv ⊢
    exact hStep.fired1_mono hv

/- The message that the broadcaster reads in a step. -/
theorem waits_receive
    {r : RBCMsg n}
    (hWaits : s.Waits cfg.lid a.position (some r))
    (hAt : ∀ q i, a = .receive q i → q = cfg.lid) :
    ∃ i x, a = .receive cfg.lid i ∧
      s.log.sent[i]? = some x ∧ x.msg = r := by
  cases hPosition : a.position with
  | none =>
      rw [hPosition] at hWaits
      cases hWaits
  | some i =>
      rw [hPosition] at hWaits
      rcases hWaits with ⟨x, hx, _, _, hMsg⟩
      rcases position_eq_some hPosition with ⟨p, rfl⟩
      have hLeader := hAt p i rfl
      subst hLeader
      exact ⟨i, x, rfl, hx, hMsg⟩

/-
  Messages that the broadcaster has read from `2f` parties
  and its own one are `2f + 1`.
-/
theorem backed_of_aside
    (hChange : Change cfg byz s a s')
    {type : RBCMsgType} {i : Nat} {x : Packet n}
    (hAction : a = .receive cfg.lid i)
    (hMsg : s.log.sent[i]? = some x)
    (hOwn : cfg.lid ∈ senders s.log type cfg.input)
    (hUnread : cfg.lid ∉ readFrom s cfg.lid type cfg.input)
    (hOther : x.msg.id ≠ cfg.lid)
    (hMany :
      threshold n * 2 ≤
        (readFrom s' cfg.lid type cfg.input).card) :
    Backed s' cfg.lid type cfg.input := by
  have hStill :
      cfg.lid ∉ readFrom s' cfg.lid type cfg.input := by
    intro hRead
    rcases hChange.readFrom hRead with
      hBefore | ⟨j, y, hNow, hy, hId⟩
    · exact hUnread hBefore
    · rw [hAction] at hNow
      cases hNow
      rw [hMsg] at hy
      cases hy
      exact hOther hId
  refine
    ⟨insert cfg.lid (readFrom s' cfg.lid type cfg.input), ?_,
      ?_⟩
  · rw [Finset.card_insert_of_notMem hStill]
    omega
  · intro q hq
    rcases Finset.mem_insert.mp hq with rfl | hq
    · exact
        heard_self (senders_mono hChange.sent_prefix _ _ hOwn)
    · exact heard_of_readFrom hq

/- A FINISH that is new is for what its sender outputs. -/
theorem Change.finish_fired1
    (hChange : Change cfg byz s a s')
    {x : Packet n} (hMem : x ∈ s'.log.sent)
    (hNot : x ∉ s.log.sent) (hId : x.msg.id ∉ byz)
    (hType : x.msg.type = .finish) :
    x.msg.root ∈ s'.fired1 cfg x.msg.id := by
  cases hChange with
  | forge packet hByz =>
      rw [BroadcastLog.post_sent, List.mem_append,
        List.mem_singleton] at hMem
      rcases hMem with hOld | rfl
      · exact absurd hOld hNot
      · exact absurd hByz hId
  | advance | closeval | panic => exact absurd hMem hNot
  | leader a m bcl ms _ _ _ hStep =>
      rw [broadcast_sent, List.mem_append] at hMem
      rcases hMem with hOld | hNew
      · refine absurd ?_ hNot
        rw [← afterRead_sent s cfg.lid a.position]
        exact hOld
      · rcases List.mem_map.mp hNew with ⟨m', hm', rfl⟩
        have hLeader : m'.toAll.msg.id = cfg.lid :=
          (hStep.sends hm').1
        unfold State.fired1
        rw [if_pos hLeader]
        exact hStep.finish_fired1 hm' hType
  | follower a p m bcf ms hNe _ _ _ hStep =>
      rw [broadcast_sent, List.mem_append] at hMem
      rcases hMem with hOld | hNew
      · refine absurd ?_ hNot
        rw [← afterRead_sent s p a.position]
        exact hOld
      · rcases List.mem_map.mp hNew with ⟨m', hm', rfl⟩
        have hFollower : m'.toAll.msg.id = p :=
          (hStep.sends hm').1
        unfold State.fired1
        rw [hFollower, if_neg hNe]
        have hBcf :
            ((((s.afterRead p a.position).setFollower p
              bcf).broadcast p ms).follower p) = bcf := by
          simp [State.broadcast, State.setFollower]
        rw [hBcf]
        exact hStep.finish_fired1 hm' hType

/- Enough messages are counted for a follower to output. -/
theorem Distinct.follower_backed
    (hDistinct : Distinct s)
    (hCounted : Counted cfg s)
    {p : Fin n} (hNe : p ≠ cfg.lid)
    {type : RBCMsgType}
    (hType : type = .ready ∨ type = .finish)
    {v : Bytes}
    (hCount :
      (s.follower p).count type v = threshold n * 2 + 1) :
    Backed s p type v := by
  have hCounts : type.counted = true := by
    rcases hType with rfl | rfl <;> rfl
  rw [hCounted.follower p hNe type hCounts v] at hCount
  refine ⟨readFrom s p type v, ?_, ?_⟩
  · rw [← hCount]
    exact hDistinct.tally_le hType p v
  · intro q hq
    exact heard_of_readFrom hq

/- Enough messages are read for the broadcaster to output. -/
theorem leader_backed
    (hChange : Change cfg byz s a s')
    (hApart : apart cfg s a = true)
    (hDistinct : Distinct s')
    (hCounted : Counted cfg s')
    {r : RBCMsg n}
    (hType : r.type = .ready ∨ r.type = .finish)
    (hWaits : s.Waits cfg.lid a.position (some r))
    (hAt : ∀ q i, a = .receive q i → q = cfg.lid)
    (hFires : leaderFires cfg s r = true)
    (hCount : s'.leader.count r.type = threshold n * 2) :
    Backed s' cfg.lid r.type cfg.input := by
  rcases waits_receive hWaits hAt with ⟨i, x, rfl, hx, rfl⟩
  rcases (apart_receive hApart hx hType).2 rfl hFires with
    ⟨hOwn, hUnread, hOther⟩
  apply backed_of_aside hChange rfl hx hOwn hUnread hOther
  have hCounts : x.msg.type.counted = true := by
    rcases hType with h | h <;> rw [h] <;> rfl
  rw [← hCount, hCounted.leader x.msg.type hCounts]
  exact hDistinct.tally_le hType _ _

/- The first signal is backed by READY messages. -/
theorem Sources.ready_step
    (hSources : Sources cfg byz s)
    (hChange : Change cfg byz s a s')
    (hApart : apart cfg s a = true)
    (hCounted : Counted cfg s') :
    ∀ p, p ∉ byz → ∀ v ∈ s'.fired1 cfg p,
      Backed s' p .ready v := by
  intro p hp v hv
  have hDistinct := hSources.distinct.step hChange hApart
  have hKeep :
      v ∈ s.fired1 cfg p → Backed s' p .ready v :=
    fun h => (hSources.ready p hp v h).change hChange
  rcases hChange.fired p with
    hSame | ⟨rfl, m, ms, hWaits, hAt, hStep⟩ |
      ⟨hNe, m, ms, hStep⟩
  · rw [hSame.1] at hv
    exact hKeep hv
  · unfold State.fired1 at hv hKeep
    rw [if_pos rfl] at hv hKeep
    rcases hStep.fired1_new hv with
      hOld | ⟨rfl, r, rfl, hType, hFires, hCount⟩
    · exact hKeep hOld
    · have hBacked :=
        leader_backed hChange hApart hDistinct hCounted
          (.inl hType) hWaits hAt
          (by simpa [leaderFires, hType] using hFires)
          (by rw [hType]; exact hCount)
      rw [hType] at hBacked
      exact hBacked
  · unfold State.fired1 at hv hKeep
    rw [if_neg hNe] at hv hKeep
    rcases hStep.fired1_new hv with hOld | hCount
    · exact hKeep hOld
    · exact hDistinct.follower_backed hCounted hNe
        (.inl rfl) hCount

/- The second signal is backed by FINISH messages. -/
theorem Sources.finish_step
    (hSources : Sources cfg byz s)
    (hChange : Change cfg byz s a s')
    (hApart : apart cfg s a = true)
    (hCounted : Counted cfg s') :
    ∀ p, p ∉ byz → ∀ v ∈ s'.fired2 cfg p,
      Backed s' p .finish v := by
  intro p hp v hv
  have hDistinct := hSources.distinct.step hChange hApart
  have hKeep :
      v ∈ s.fired2 cfg p → Backed s' p .finish v :=
    fun h => (hSources.finish p hp v h).change hChange
  rcases hChange.fired p with
    hSame | ⟨rfl, m, ms, hWaits, hAt, hStep⟩ |
      ⟨hNe, m, ms, hStep⟩
  · rw [hSame.2] at hv
    exact hKeep hv
  · unfold State.fired2 at hv hKeep
    rw [if_pos rfl] at hv hKeep
    rcases hStep.fired2_new hv with
      hOld | ⟨rfl, r, rfl, hType, hFires, hCount⟩
    · exact hKeep hOld
    · have hBacked :=
        leader_backed hChange hApart hDistinct hCounted
          (.inr hType) hWaits hAt
          (by simpa [leaderFires, hType] using hFires)
          (by rw [hType]; exact hCount)
      rw [hType] at hBacked
      exact hBacked
  · unfold State.fired2 at hv hKeep
    rw [if_neg hNe] at hv hKeep
    rcases hStep.fired2_new hv with hOld | hCount
    · exact hKeep hOld
    · exact hDistinct.follower_backed hCounted hNe
        (.inr rfl) hCount

/- Every such step keeps the signals backed. -/
theorem Sources.step
    (hSources : Sources cfg byz s)
    (hChange : Change cfg byz s a s')
    (hApart : apart cfg s a = true)
    (hCounted : Counted cfg s') :
    Sources cfg byz s' where
  distinct := hSources.distinct.step hChange hApart
  ready := hSources.ready_step hChange hApart hCounted
  finish := hSources.finish_step hChange hApart hCounted
  sent := by
    intro p hp v hMem
    rcases mem_senders.mp hMem with
      ⟨x, hx, hType, rfl, rfl⟩
    by_cases hOld : x ∈ s.log.sent
    · apply hChange.fired1_mono
      exact hSources.sent _ hp _
        (mem_senders.mpr ⟨x, hOld, hType, rfl, rfl⟩)
    · exact hChange.finish_fired1 hx hOld hp hType

end Step

/- It holds in every such run. -/
theorem sources
    {cfg : Config n} {byz : Finset (Fin n)} {s : State n}
    (hReach : ApartReachable cfg byz s) :
    Sources cfg byz s := by
  refine Machine.ReachableBy.invariant (Sources cfg byz) ?_ ?_
    hReach
  · constructor <;>
      simp [machine, State.init, Distinct, State.fired1,
        State.fired2, BCL.fired1, BCL.fired2, BCF.fired1,
        BCF.fired2, BCL.new, BCF.new, mem_senders]
  · intro s a s' hReach hSources hApart hExec
    exact hSources.step (exec_change hExec) hApart
      (counted (hReach.step hApart hExec))

/- Behind a second output there are deliveries. -/
theorem Sources.delivered
    {cfg : Config n} {byz : Finset (Fin n)} {s : State n}
    (hSources : Sources cfg byz s)
    (hByz : byz.card ≤ threshold n)
    {p : Fin n} (hp : p ∉ byz) {v : Bytes}
    (hOutput : v ∈ s.fired2 cfg p) :
    threshold n + 1 ≤
      (Finset.univ.filter fun q =>
        q ∉ byz ∧ v ∈ s.fired1 cfg q).card := by
  rcases hSources.finish p hp v hOutput with ⟨A, hCard, hAll⟩
  have hCorrect := card_correct A hByz
  have hSub :
      A \ byz ⊆
        Finset.univ.filter fun q =>
          q ∉ byz ∧ v ∈ s.fired1 cfg q := by
    intro q hq
    rcases Finset.mem_sdiff.mp hq with ⟨hMem, hqByz⟩
    simp only [Finset.mem_filter, Finset.mem_univ, true_and]
    exact
      ⟨hqByz, hSources.sent q hqByz v (hAll q hMem).sender⟩
  have hLe := Finset.card_le_card hSub
  omega

end ReliableBroadcast

end Jumbo
