import Jumbo.ReliableBroadcast.Counting

/-
  Echo certificates of the broadcast are unique.

  In orderly runs every correct party echoes one value, and
  any two quorums of ECHO share a correct party or belong to
  a broadcaster that did not equivocate.

  Main declarations:
    * `History`
    * `history`
    * `count_le_senders`
    * `EchoCert`
    * `EchoCert.unique`
-/

------------------------------------------------------------
-- What Has Been Read and Echoed
------------------------------------------------------------

namespace Jumbo

namespace ReliableBroadcast

open Protocol

variable {n : Nat}

/- The runs in which correct parties read orderly. -/
abbrev OrderlyReachable
    (cfg : Config n) (byz : Finset (Fin n)) (s : State n) :
    Prop :=
  (machine n cfg byz).ReachableBy
    (fun s a => orderly cfg byz s a = true) s

/- What orderly reading leaves behind in the log. -/
structure History
    (cfg : Config n) (byz : Finset (Fin n)) (s : State n) :
    Prop where
  runs : ∀ p, s.panicked p = false
  once :
    ∀ p (i j : Nat) (x y : Packet n),
      s.log.sent[i]? = some x → s.log.sent[j]? = some y →
        s.log.loc p i = .handled →
          s.log.loc p j = .handled →
            repeats x.msg y = true → i = j
  valFrom :
    ∀ p (i : Nat) (x : Packet n),
      s.log.sent[i]? = some x → s.log.loc p i = .handled →
        x.msg.type = .val → x.msg.id = cfg.lid
  valRoot :
    ∀ x ∈ s.log.sent, x.msg.type = .val →
      x.msg.id ∉ byz → x.msg.root = cfg.input
  echoed :
    ∀ x ∈ s.log.sent, x.msg.type = .echo →
      x.msg.id ∉ byz → x.msg.id ≠ cfg.lid →
        ∃ (i : Nat) (y : Packet n),
          s.log.sent[i]? = some y ∧
            s.log.loc x.msg.id i = .handled ∧
              y.msg.type = .val ∧ y.msg.root = x.msg.root
  echoedLeader :
    ∀ x ∈ s.log.sent, x.msg.type = .echo →
      x.msg.id ∉ byz → x.msg.id = cfg.lid →
        x.msg.root = cfg.input
  spread :
    n = 3 * threshold n + 1 ∨ cfg.lid ∉ byz ∨
      ∀ x ∈ s.log.sent, ∀ y ∈ s.log.sent,
        x.msg.type = .echo → y.msg.type = .echo →
          x.msg.id ∉ byz → y.msg.id ∉ byz →
            x.msg.root = y.msg.root

/- Two messages repeat each other. -/
theorem repeats_comm
    {x y : Packet n} (hRepeats : repeats x.msg y = true) :
    repeats y.msg x = true := by
  simp only [repeats, Bool.and_eq_true, Bool.or_eq_true,
    decide_eq_true_eq] at *
  rcases hRepeats with ⟨hType, hVal | ⟨hId, hRoot⟩⟩
  · exact ⟨hType.symm, .inl (hType.trans hVal)⟩
  · exact ⟨hType.symm, .inr ⟨hId.symm, hRoot.symm⟩⟩

/- What a step of the broadcaster sends. -/
theorem LeaderStep.sends
    {cfg : Config n} {bcl bcl' : BCL}
    {m : Option (RBCMsg n)} {ms : List (RBCMsg n)}
    (hStep : LeaderStep cfg bcl m bcl' ms)
    {m' : RBCMsg n} (hMem : m' ∈ ms) :
    m'.id = cfg.lid ∧ m'.root = cfg.input := by
  cases hStep with
  | sendVal | sendEcho | sendReady =>
      rw [List.mem_singleton.mp hMem]
      exact ⟨rfl, rfl⟩
  | forward1 | forward2 | echo | finish => cases hMem
  | ready =>
      split at hMem
      · rw [List.mem_singleton.mp hMem]
        exact ⟨rfl, rfl⟩
      · cases hMem

/- A follower sends under its own number, and no VAL. -/
theorem FollowerStep.sends
    {cfg : Config n} {p : Fin n} {bcf bcf' : BCF}
    {m : Option (RBCMsg n)} {ms : List (RBCMsg n)}
    (hStep : FollowerStep cfg p bcf m bcf' ms)
    {m' : RBCMsg n} (hMem : m' ∈ ms) :
    m'.id = p ∧ m'.type ≠ .val ∧
      (m'.type = .echo →
        ∃ v, m = some v ∧ v.type = .val ∧
          v.root = m'.root) := by
  cases hStep with
  | sendReady =>
      rw [List.mem_singleton.mp hMem]
      exact ⟨rfl, by simp [readyMsg], by simp [readyMsg]⟩
  | val v _ hType _ =>
      rw [List.mem_singleton.mp hMem]
      exact ⟨rfl, by simp [echoMsg],
        fun _ => ⟨v, rfl, hType, rfl⟩⟩
  | forward1 | forward2 | echo | finish => cases hMem
  | ready =>
      split at hMem
      · rw [List.mem_singleton.mp hMem]
        exact ⟨rfl, by simp [finishMsg],
          by simp [finishMsg]⟩
      · cases hMem

section Step

variable {cfg : Config n} {byz : Finset (Fin n)}
variable {s s' : State n} {a : Action n}

/- An orderly read finds nothing that it repeats. -/
theorem orderlyRead_fresh
    {p : Fin n} {m : RBCMsg n}
    (hRead : orderlyRead cfg byz s p m = true)
    {i : Nat} {x : Packet n}
    (hMsg : s.log.sent[i]? = some x)
    (hLoc : s.log.loc p i = .handled) :
    repeats m x = false := by
  simp only [orderlyRead, Bool.and_eq_true,
    decide_eq_true_eq] at hRead
  exact (BroadcastLog.tally_eq_zero_iff _ _ _ _).mp
    hRead.1.2 i x hMsg hLoc

/- An orderly VAL is proper. -/
theorem orderlyRead_val
    {p : Fin n} {m : RBCMsg n}
    (hRead : orderlyRead cfg byz s p m = true)
    (hType : m.type = .val) :
    properVal cfg byz s p m = true := by
  simp only [orderlyRead, hType, Bool.and_eq_true] at hRead
  exact hRead.2

/- What is read in an orderly step is orderly. -/
theorem orderly_receive
    {p : Fin n} {i : Nat} {x : Packet n}
    (hOrderly : orderly cfg byz s (.receive p i) = true)
    (hMsg : s.log.sent[i]? = some x) :
    orderlyRead cfg byz s p x.msg = true := by
  simpa [orderly, hMsg] using hOrderly

/- Orderly steps do not panic. -/
theorem Change.not_panic
    (hChange : Change cfg byz s a s')
    (hOrderly : orderly cfg byz s a = true) :
    s'.panicked = s.panicked := by
  cases hChange with
  | forge | advance | closeval => rfl
  | panic p i packet hMsg hPanic =>
      have hRead := orderly_receive hOrderly hMsg
      rcases hPanic with hRound | hOther | ⟨hVal, hBad⟩
      · simp [orderlyRead, hRound] at hRead
      · simp [orderlyRead, hOther] at hRead
      · have hProper := orderlyRead_val hRead hVal
        simp only [properVal, Bool.and_eq_true,
          decide_eq_true_eq] at hProper
        rcases hBad with hLeader | hCheck
        · exact absurd hLeader hProper.1.1.1
        · have hSome := hProper.1.2
          rw [hCheck] at hSome
          cases hSome
  | leader =>
      cases hPosition : a.position <;>
        simp [State.broadcast, State.afterRead]
  | follower =>
      cases hPosition : a.position <;>
        simp [State.broadcast, State.afterRead,
          State.setFollower]

/- No message is read twice. -/
theorem History.once_step
    (hHistory : History cfg byz s)
    (hChange : Change cfg byz s a s')
    (hOrderly : orderly cfg byz s a = true) :
    ∀ p (i j : Nat) (x y : Packet n),
      s'.log.sent[i]? = some x → s'.log.sent[j]? = some y →
        s'.log.loc p i = .handled →
          s'.log.loc p j = .handled →
            repeats x.msg y = true → i = j := by
  intro p i j x y hx hy hi hj hRepeats
  rcases hChange.handled hx hi with ⟨hx', hi'⟩
  rcases hChange.handled hy hj with ⟨hy', hj'⟩
  rcases hi' with hi' | rfl
  · rcases hj' with hj' | rfl
    · exact hHistory.once p i j x y hx' hy' hi' hj' hRepeats
    · have hFresh :=
        orderlyRead_fresh (orderly_receive hOrderly hy')
          hx' hi'
      rw [repeats_comm hRepeats] at hFresh
      cases hFresh
  · rcases hj' with hj' | hSame
    · have hFresh :=
        orderlyRead_fresh (orderly_receive hOrderly hx')
          hy' hj'
      rw [hRepeats] at hFresh
      cases hFresh
    · cases hSame
      rfl

/- A VAL that is read is the leader's. -/
theorem History.valFrom_step
    (hHistory : History cfg byz s)
    (hChange : Change cfg byz s a s')
    (hOrderly : orderly cfg byz s a = true) :
    ∀ p (i : Nat) (x : Packet n),
      s'.log.sent[i]? = some x →
        s'.log.loc p i = .handled →
          x.msg.type = .val → x.msg.id = cfg.lid := by
  intro p i x hx hi hType
  rcases hChange.handled hx hi with ⟨hx', hOld | rfl⟩
  · exact hHistory.valFrom p i x hx' hOld hType
  · have hProper :=
      orderlyRead_val (orderly_receive hOrderly hx') hType
    simp only [properVal, Bool.and_eq_true,
      decide_eq_true_eq] at hProper
    exact hProper.1.1.2

/- The VAL of a correct leader is its input. -/
theorem History.valRoot_step
    (hHistory : History cfg byz s)
    (hChange : Change cfg byz s a s') :
    ∀ x ∈ s'.log.sent, x.msg.type = .val →
      x.msg.id ∉ byz → x.msg.root = cfg.input := by
  intro x hMem hType hId
  by_cases hOld : x ∈ s.log.sent
  · exact hHistory.valRoot x hOld hType hId
  · rcases hChange.new hMem hOld hId with
      ⟨m, bcl, ms, _, _, hStep, hNew⟩ |
        ⟨p, m, bcf, ms, _, _, _, hStep, hNew⟩
    · exact (hStep.sends hNew).2
    · exact absurd hType (hStep.sends hNew).2.1

/- A new ECHO of a follower is for the VAL it just read. -/
theorem Change.new_echo
    (hChange : Change cfg byz s a s')
    {x : Packet n} (hMem : x ∈ s'.log.sent)
    (hNot : x ∉ s.log.sent) (hId : x.msg.id ∉ byz)
    (hEcho : x.msg.type = .echo)
    (hNe : x.msg.id ≠ cfg.lid) :
    ∃ (i : Nat) (y : Packet n),
      a = .receive x.msg.id i ∧ s.log.sent[i]? = some y ∧
        s'.log.loc x.msg.id i = .handled ∧
          y.msg.type = .val ∧ y.msg.root = x.msg.root := by
  cases hChange with
  | forge packet hByz =>
      rw [BroadcastLog.post_sent, List.mem_append,
        List.mem_singleton] at hMem
      rcases hMem with hOld | rfl
      · exact absurd hOld hNot
      · exact absurd hByz hId
  | advance | closeval | panic => exact absurd hMem hNot
  | leader a m bcl ms _ _ _ hStep =>
      rw [broadcast_sent, List.mem_append] at hMem
      rcases hMem with hOld | hNew
      · refine absurd ?_ hNot
        rw [← afterRead_sent s cfg.lid a.position]
        exact hOld
      · rcases List.mem_map.mp hNew with ⟨m', hm', rfl⟩
        exact absurd (hStep.sends hm').1 hNe
  | follower a p m bcf ms _ _ hWaits hAt hStep =>
      rw [broadcast_sent, List.mem_append] at hMem
      rcases hMem with hOld | hNew
      · refine absurd ?_ hNot
        rw [← afterRead_sent s p a.position]
        exact hOld
      · rcases List.mem_map.mp hNew with ⟨m', hm', rfl⟩
        rcases hStep.sends hm' with ⟨hSrc, _, hVal⟩
        rcases hVal hEcho with ⟨v, rfl, hType, hRoot⟩
        cases hPosition : a.position with
        | none =>
            rw [hPosition] at hWaits
            cases hWaits
        | some i =>
            rw [hPosition] at hWaits
            rcases hWaits with ⟨y, hy, _, _, rfl⟩
            rcases position_eq_some hPosition with ⟨q, rfl⟩
            have hq := hAt q i rfl
            subst hq
            have hId' : m'.toAll.msg.id = q := hSrc
            refine ⟨i, y, by rw [hId'], hy, ?_, hType, hRoot⟩
            have hLt :
                i < ((s.afterRead q (some i)).setFollower q
                  bcf).log.sent.length :=
              (List.getElem?_eq_some_iff.mp hy).1
            rw [hId']
            exact (broadcast_loc_of_lt hLt).trans
              (s.log.move_loc_self q i .handled)

/- An ECHO of a follower has a VAL before it. -/
theorem History.echoed_step
    (hHistory : History cfg byz s)
    (hChange : Change cfg byz s a s') :
    ∀ x ∈ s'.log.sent, x.msg.type = .echo →
      x.msg.id ∉ byz → x.msg.id ≠ cfg.lid →
        ∃ (i : Nat) (y : Packet n),
          s'.log.sent[i]? = some y ∧
            s'.log.loc x.msg.id i = .handled ∧
              y.msg.type = .val ∧
                y.msg.root = x.msg.root := by
  intro x hMem hType hId hNe
  have hKeep :
      ∀ (i : Nat) (y : Packet n),
        s.log.sent[i]? = some y →
          s'.log.sent[i]? = some y := by
    intro i y hy
    rcases hChange.sent_prefix with ⟨new, hNew⟩
    rw [← hNew, List.getElem?_append_left
      (List.getElem?_eq_some_iff.mp hy).1]
    exact hy
  by_cases hOld : x ∈ s.log.sent
  · rcases hHistory.echoed x hOld hType hId hNe with
      ⟨i, y, hy, hLoc, hVal⟩
    exact ⟨i, y, hKeep i y hy,
      hChange.keeps (List.getElem?_eq_some_iff.mp hy).1 hLoc,
      hVal⟩
  · rcases hChange.new_echo hMem hOld hId hType hNe with
      ⟨i, y, _, hy, hLoc, hVal⟩
    exact ⟨i, y, hKeep i y hy, hLoc, hVal⟩

/- The ECHO of the leader is for its input. -/
theorem History.echoedLeader_step
    (hHistory : History cfg byz s)
    (hChange : Change cfg byz s a s') :
    ∀ x ∈ s'.log.sent, x.msg.type = .echo →
      x.msg.id ∉ byz → x.msg.id = cfg.lid →
        x.msg.root = cfg.input := by
  intro x hMem hType hId hEq
  by_cases hOld : x ∈ s.log.sent
  · exact hHistory.echoedLeader x hOld hType hId hEq
  · rcases hChange.new hMem hOld hId with
      ⟨m, bcl, ms, _, _, hStep, hNew⟩ |
        ⟨p, m, bcf, ms, hNe, _, _, hStep, hNew⟩
    · exact (hStep.sends hNew).2
    · refine absurd ?_ hNe
      rw [← (hStep.sends hNew).1, hEq]

/-
  Correct parties send ECHO for one value, unless there are
  `3f + 1` parties or the broadcaster is correct.
-/
theorem History.spread_step
    (hHistory : History cfg byz s)
    (hChange : Change cfg byz s a s')
    (hOrderly : orderly cfg byz s a = true) :
    n = 3 * threshold n + 1 ∨ cfg.lid ∉ byz ∨
      ∀ x ∈ s'.log.sent, ∀ y ∈ s'.log.sent,
        x.msg.type = .echo → y.msg.type = .echo →
          x.msg.id ∉ byz → y.msg.id ∉ byz →
            x.msg.root = y.msg.root := by
  by_cases hSize : n = 3 * threshold n + 1
  · exact .inl hSize
  by_cases hByz : cfg.lid ∉ byz
  · exact .inr (.inl hByz)
  have hSame :
      ∀ x ∈ s.log.sent, ∀ y ∈ s.log.sent,
        x.msg.type = .echo → y.msg.type = .echo →
          x.msg.id ∉ byz → y.msg.id ∉ byz →
            x.msg.root = y.msg.root := by
    rcases hHistory.spread with h | h | h
    · exact absurd h hSize
    · exact absurd h hByz
    · exact h
  -- a new ECHO is for a VAL that all older ones agree with
  have hNew :
      ∀ x ∈ s'.log.sent, x ∉ s.log.sent →
        x.msg.type = .echo → x.msg.id ∉ byz →
          ∃ i y, a = .receive x.msg.id i ∧
            s.log.sent[i]? = some y ∧
              y.msg.root = x.msg.root ∧
                ∀ z ∈ s.log.sent, z.msg.type = .echo →
                  z.msg.id ∉ byz →
                    z.msg.root = x.msg.root := by
    intro x hMem hNot hType hId
    have hNe : x.msg.id ≠ cfg.lid := by
      intro hEq
      exact hByz (by rw [← hEq]; exact hId)
    rcases hChange.new_echo hMem hNot hId hType hNe with
      ⟨i, y, hAct, hy, _, hVal, hRoot⟩
    refine ⟨i, y, hAct, hy, hRoot, ?_⟩
    intro z hz hEcho hzId
    subst hAct
    have hProper :=
      orderlyRead_val (orderly_receive hOrderly hy) hVal
    simp only [properVal, Bool.and_eq_true,
      Bool.or_eq_true, decide_eq_true_eq] at hProper
    rcases hProper.2 with h | hTotal
    · exact absurd h hSize
    · by_contra hDiffers
      rcases List.mem_iff_getElem?.mp hz with ⟨j, hj⟩
      have hPosition :
          j ∈ s.log.positions (otherEcho byz y.msg.root) := by
        rw [BroadcastLog.mem_positions_iff]
        refine ⟨z, hj, ?_⟩
        simp [otherEcho, hEcho, hzId, hRoot, hDiffers]
      rw [Finset.card_eq_zero.mp hTotal] at hPosition
      cases hPosition
  right; right
  intro x hx y hy hxType hyType hxId hyId
  by_cases hxOld : x ∈ s.log.sent
  · by_cases hyOld : y ∈ s.log.sent
    · exact hSame x hxOld y hyOld hxType hyType hxId hyId
    · rcases hNew y hy hyOld hyType hyId with
        ⟨_, _, _, _, _, hAll⟩
      exact hAll x hxOld hxType hxId
  · rcases hNew x hx hxOld hxType hxId with
      ⟨i, v, rfl, hv, hvRoot, hAll⟩
    by_cases hyOld : y ∈ s.log.sent
    · exact (hAll y hyOld hyType hyId).symm
    · rcases hNew y hy hyOld hyType hyId with
        ⟨j, w, hAct, hw, hwRoot, _⟩
      have hij : i = j := by injection hAct
      rw [← hij, hv] at hw
      cases hw
      rw [← hvRoot, ← hwRoot]

end Step

/- It holds in every orderly run. -/
theorem history
    {cfg : Config n} {byz : Finset (Fin n)} {s : State n}
    (hReach : OrderlyReachable cfg byz s) :
    History cfg byz s := by
  refine Machine.ReachableBy.invariant (History cfg byz) ?_ ?_
    hReach
  · constructor <;> simp [machine, State.init]
  · intro s a s' _ hHistory hOrderly hExec
    have hChange := exec_change hExec
    exact
      { runs := by
          rw [hChange.not_panic hOrderly]
          exact hHistory.runs
        once := hHistory.once_step hChange hOrderly
        valFrom := hHistory.valFrom_step hChange hOrderly
        valRoot := hHistory.valRoot_step hChange
        echoed := hHistory.echoed_step hChange
        echoedLeader := hHistory.echoedLeader_step hChange
        spread := hHistory.spread_step hChange hOrderly }

end ReliableBroadcast

end Jumbo

------------------------------------------------------------
-- Certificates
------------------------------------------------------------

namespace Jumbo

namespace ReliableBroadcast

open Protocol

variable {n : Nat}

/- `2f + 1` parties sent ECHO for the value. -/
def EchoCert
    (log : BroadcastLog n (Packet n) Loc) (value : Bytes) :
    Prop :=
  threshold n * 2 + 1 ≤ (senders log .echo value).card

/- `f + 1` correct parties sent READY for the value. -/
def Supported
    (byz : Finset (Fin n))
    (log : BroadcastLog n (Packet n) Loc) (value : Bytes) :
    Prop :=
  threshold n + 1 ≤ (senders log .ready value \ byz).card

/- More messages keep a quorum of ECHO. -/
theorem EchoCert.mono
    {log log' : BroadcastLog n (Packet n) Loc}
    {value : Bytes}
    (hCert : EchoCert log value)
    (hSent : log.sent <+: log'.sent) :
    EchoCert log' value :=
  Nat.le_trans hCert
    (Finset.card_le_card (senders_mono hSent _ _))

/- More messages keep a value supported. -/
theorem Supported.mono
    {byz : Finset (Fin n)}
    {log log' : BroadcastLog n (Packet n) Loc}
    {value : Bytes}
    (hSupported : Supported byz log value)
    (hSent : log.sent <+: log'.sent) :
    Supported byz log' value :=
  Nat.le_trans hSupported
    (Finset.card_le_card
      (Finset.sdiff_subset_sdiff
        (senders_mono hSent _ _) (Finset.Subset.refl _)))

/- More parties than Byzantine ones include a correct one. -/
theorem exists_correct
    {byz A : Finset (Fin n)} (hLt : byz.card < A.card) :
    ∃ p ∈ A, p ∉ byz :=
  Finset.exists_mem_notMem_of_card_lt_card hLt

/- Taking away the Byzantine parties costs at most `f`. -/
theorem card_correct
    {byz : Finset (Fin n)} (A : Finset (Fin n))
    (hByz : byz.card ≤ threshold n) :
    A.card ≤ (A \ byz).card + threshold n := by
  have hLe := Finset.le_card_sdiff byz A
  omega

section Orderly

variable {cfg : Config n} {byz : Finset (Fin n)}
variable {s : State n}

/- What a party has read, it has read from as many senders. -/
theorem History.tally_le_senders
    (hHistory : History cfg byz s)
    (p : Fin n) (type : RBCMsgType) (value : Bytes) :
    s.log.tally p .handled (isKind type value) ≤
      (senders s.log type value).card := by
  apply BroadcastLog.tally_le_card_senders_of_local
  intro i j x y hx hy hi hj hxKind hyKind hSrc
  apply hHistory.once p i j x y hx hy hi hj
  simp only [isKind, Bool.and_eq_true,
    decide_eq_true_eq] at hxKind hyKind
  have hId : y.msg.id = x.msg.id := hSrc.symm
  simp [repeats, hxKind.1, hyKind.1, hxKind.2, hyKind.2, hId]

/- A follower counts at most one message of each sender. -/
theorem count_le_senders_follower
    (hReach : OrderlyReachable cfg byz s)
    {p : Fin n} (hNe : p ≠ cfg.lid)
    (type : RBCMsgType) (hType : type.counted = true)
    (value : Bytes) :
    (s.follower p).count type value ≤
      (senders s.log type value).card := by
  rw [(counted hReach).follower p hNe type hType value]
  exact (history hReach).tally_le_senders p type value

/- So does the leader. -/
theorem count_le_senders_leader
    (hReach : OrderlyReachable cfg byz s)
    (type : RBCMsgType) (hType : type.counted = true) :
    s.leader.count type ≤
      (senders s.log type cfg.input).card := by
  rw [(counted hReach).leader type hType]
  exact (history hReach).tally_le_senders cfg.lid type
    cfg.input

/- A correct broadcaster's input is all that is echoed. -/
theorem History.echo_input
    (hHistory : History cfg byz s)
    (hLeader : cfg.lid ∉ byz)
    {x : Packet n} (hMem : x ∈ s.log.sent)
    (hType : x.msg.type = .echo) (hId : x.msg.id ∉ byz) :
    x.msg.root = cfg.input := by
  by_cases hEq : x.msg.id = cfg.lid
  · exact hHistory.echoedLeader x hMem hType hId hEq
  · rcases hHistory.echoed x hMem hType hId hEq with
      ⟨i, y, hy, hLoc, hVal, hRoot⟩
    have hFrom := hHistory.valFrom _ i y hy hLoc hVal
    rw [← hRoot]
    apply hHistory.valRoot y (List.mem_of_getElem? hy) hVal
    rw [hFrom]
    exact hLeader

/- A correct party echoes one value. -/
theorem History.echo_unique
    (hHistory : History cfg byz s)
    {x y : Packet n}
    (hx : x ∈ s.log.sent) (hy : y ∈ s.log.sent)
    (hxType : x.msg.type = .echo)
    (hyType : y.msg.type = .echo)
    (hId : x.msg.id ∉ byz) (hSame : x.msg.id = y.msg.id) :
    x.msg.root = y.msg.root := by
  by_cases hEq : x.msg.id = cfg.lid
  · rw [hHistory.echoedLeader x hx hxType hId hEq,
      hHistory.echoedLeader y hy hyType (hSame ▸ hId)
        (hSame ▸ hEq)]
  · rcases hHistory.echoed x hx hxType hId hEq with
      ⟨i, v, hv, hvLoc, hvType, hvRoot⟩
    rcases hHistory.echoed y hy hyType (hSame ▸ hId)
        (hSame ▸ hEq) with
      ⟨j, w, hw, hwLoc, hwType, hwRoot⟩
    have hij : i = j := by
      apply hHistory.once x.msg.id i j v w hv hw hvLoc
      · rw [hSame]
        exact hwLoc
      · simp [repeats, hvType, hwType]
    rw [← hij, hv] at hw
    cases hw
    rw [← hvRoot, ← hwRoot]

/- Two certificates are for the same value. -/
theorem EchoCert.unique
    {v w : Bytes}
    (hByz : byz.card ≤ threshold n)
    (hHistory : History cfg byz s)
    (hv : EchoCert s.log v) (hw : EchoCert s.log w) :
    v = w := by
  have hCorrect :
      ∀ value, EchoCert s.log value →
        ∃ x ∈ s.log.sent, x.msg.type = .echo ∧
          x.msg.root = value ∧ x.msg.id ∉ byz := by
    intro value hCert
    have hLt :
        byz.card < (senders s.log .echo value).card := by
      unfold EchoCert at hCert
      omega
    rcases exists_correct hLt with ⟨p, hp, hNot⟩
    rcases mem_senders.mp hp with
      ⟨x, hx, hType, hRoot, rfl⟩
    exact ⟨x, hx, hType, hRoot, hNot⟩
  rcases hHistory.spread with hThird | hLeader | hSame
  · -- the two quorums share a correct party
    unfold EchoCert at hv hw
    have hCard :
        Fintype.card (Fin n) + byz.card <
          (senders s.log .echo v).card +
            (senders s.log .echo w).card := by
      rw [Fintype.card_fin]
      omega
    rcases exists_mem_inter_of_third hCard with
      ⟨p, hpv, hpw, hNot⟩
    rcases mem_senders.mp hpv with
      ⟨x, hx, hxType, rfl, rfl⟩
    rcases mem_senders.mp hpw with
      ⟨y, hy, hyType, rfl, hId⟩
    exact hHistory.echo_unique hx hy hxType hyType hNot
      hId.symm
  · rcases hCorrect v hv with ⟨x, hx, hxType, rfl, hxId⟩
    rcases hCorrect w hw with ⟨y, hy, hyType, rfl, hyId⟩
    rw [hHistory.echo_input hLeader hx hxType hxId,
      hHistory.echo_input hLeader hy hyType hyId]
  · rcases hCorrect v hv with ⟨x, hx, hxType, rfl, hxId⟩
    rcases hCorrect w hw with ⟨y, hy, hyType, rfl, hyId⟩
    exact hSame x hx y hy hxType hyType hxId hyId

/- A correct broadcaster's certificate is for its input. -/
theorem EchoCert.eq_input
    {v : Bytes}
    (hByz : byz.card ≤ threshold n)
    (hHistory : History cfg byz s)
    (hLeader : cfg.lid ∉ byz)
    (hCert : EchoCert s.log v) :
    v = cfg.input := by
  have hLt : byz.card < (senders s.log .echo v).card := by
    unfold EchoCert at hCert
    omega
  rcases exists_correct hLt with ⟨p, hp, hNot⟩
  rcases mem_senders.mp hp with ⟨x, hx, hType, rfl, rfl⟩
  exact hHistory.echo_input hLeader hx hType hNot

end Orderly

end ReliableBroadcast

end Jumbo
