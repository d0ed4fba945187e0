import Jumbo.ReliableBroadcast.Certificates

/-
  What stands behind the signals of the broadcast.

  A READY comes from an echo certificate; a FINISH and an
  output come from `f + 1` correct READY messages.

  Main declarations:
    * `FollowerOk`
    * `LeaderOk`
    * `Signals`
    * `signals`
-/

------------------------------------------------------------
-- A Follower
------------------------------------------------------------

namespace Jumbo

namespace ReliableBroadcast

open Protocol

variable {n : Nat}

/- How often `readysignal` has been used. -/
def BCF.signalled (bcf : BCF) : Nat :=
  bcf.readysignal.length + if bcf.readySent then 1 else 0

/- The signals and outputs of a follower are backed. -/
structure FollowerOk
    (byz : Finset (Fin n))
    (log : BroadcastLog n (Packet n) Loc)
    (p : Fin n) (bcf : BCF) : Prop where
  cert : ∀ v ∈ bcf.readysignal, EchoCert log v
  output1 :
    ∀ v ∈ bcf.output1signal ++ bcf.output1,
      Supported byz log v
  output2 :
    ∀ v ∈ bcf.output2signal ++ bcf.output2,
      Supported byz log v
  relayed :
    ∀ v, threshold n + 1 ≤ bcf.ready.readymap v →
      bcf.readysignal ≠ [] ∨ bcf.readySent = true
  sent :
    bcf.readySent = true → ∃ v, p ∈ senders log .ready v
  -- `handle_echo` and `handle_ready` signal once each, so
  -- that `readysignal` is never full
  unsignalled :
    (∀ v, bcf.echo.echomap v ≤ threshold n * 2) →
      (∀ v, bcf.ready.readymap v ≤ threshold n) →
        bcf.signalled = 0
  byReady :
    (∀ v, bcf.echo.echomap v ≤ threshold n * 2) →
      bcf.signalled ≤ 1
  byEcho :
    (∀ v, bcf.ready.readymap v ≤ threshold n) →
      bcf.signalled ≤ 1
  room : bcf.signalled ≤ 2
  delivered :
    bcf.ready.returned = true →
      (∃ v, p ∈ senders log .finish v) ∧
        bcf.output1signal.length + bcf.output1.length = 1 ∧
          ∃ v, threshold n + 1 ≤ bcf.ready.readymap v
  waiting :
    bcf.ready.returned = false →
      bcf.output1signal = [] ∧ bcf.output1 = [] ∧
        ∀ v, bcf.ready.readymap v ≤ threshold n * 2
  finished :
    bcf.finish.returned = true →
      bcf.output2signal.length + bcf.output2.length = 1
  unfinished :
    bcf.finish.returned = false →
      bcf.output2signal = [] ∧ bcf.output2 = [] ∧
        ∀ v, bcf.finish.finishmap v ≤ threshold n * 2

theorem FollowerOk.new
    (byz : Finset (Fin n))
    (log : BroadcastLog n (Packet n) Loc) (p : Fin n) :
    FollowerOk byz log p BCF.new := by
  constructor <;>
    simp [BCF.new, HandleEcho.new, HandleReady.new,
      HandleFinish.new, BCF.signalled]

section Follower

variable {byz : Finset (Fin n)}
variable {log log' : BroadcastLog n (Packet n) Loc}
variable {cfg : Config n} {p : Fin n} {bcf bcf' : BCF}

/- More messages keep a follower backed. -/
theorem FollowerOk.mono
    (hOk : FollowerOk byz log p bcf)
    (hSent : log.sent <+: log'.sent) :
    FollowerOk byz log' p bcf :=
  { hOk with
    cert := fun v hv => (hOk.cert v hv).mono hSent
    output1 := fun v hv => (hOk.output1 v hv).mono hSent
    output2 := fun v hv => (hOk.output2 v hv).mono hSent
    sent := by
      intro hReady
      rcases hOk.sent hReady with ⟨v, hv⟩
      exact ⟨v, senders_mono hSent _ _ hv⟩
    delivered := by
      intro hReturned
      rcases hOk.delivered hReturned with ⟨⟨v, hv⟩, hRest⟩
      exact ⟨⟨v, senders_mono hSent _ _ hv⟩, hRest⟩ }

/-
  What the new counts of a follower and its new messages say
  about the log after a step.
-/
structure FollowerFacts
    (byz : Finset (Fin n))
    (log' : BroadcastLog n (Packet n) Loc)
    (p : Fin n) (bcf' : BCF) (ms : List (RBCMsg n)) :
    Prop where
  mine : ∀ m ∈ ms, p ∈ senders log' m.type m.root
  echo :
    ∀ v, threshold n * 2 + 1 ≤ bcf'.echo.echomap v →
      EchoCert log' v
  ready :
    ∀ v, threshold n * 2 + 1 ≤ bcf'.ready.readymap v →
      Supported byz log' v
  relay :
    ∀ v, threshold n + 1 ≤ bcf'.ready.readymap v →
      EchoCert log' v
  finish :
    ∀ v, threshold n * 2 + 1 ≤ bcf'.finish.finishmap v →
      Supported byz log' v
  unique :
    ∀ v w, EchoCert log' v → EchoCert log' w → v = w

/- Counting never loses a count. -/
theorem le_increment
    (count : Bytes → Nat) (value other : Bytes) :
    count other ≤ increment count value other := by
  rw [increment_apply]
  exact Nat.le_add_right _ _

/- The value that was read counts one more. -/
theorem increment_self
    (count : Bytes → Nat) (value : Bytes) :
    increment count value value = count value + 1 := by
  simp [increment]

/- Other values count as before. -/
theorem increment_of_ne
    (count : Bytes → Nat) {value other : Bytes}
    (hNe : other ≠ value) :
    increment count value other = count other := by
  simp [increment, hNe]

/- `handle_echo` at a follower. -/
theorem FollowerOk.readEcho
    (hOk : FollowerOk byz log p bcf)
    {root : Bytes} {readysignal : List Bytes}
    (hPush :
      push 2 bcf.readysignal (bcf.echo.read n root).2 =
        some readysignal)
    (hFacts :
      FollowerFacts byz log p
        { bcf with
          echo := (bcf.echo.read n root).1
          readysignal := readysignal } []) :
    FollowerOk byz log p
      { bcf with
        echo := (bcf.echo.read n root).1
        readysignal := readysignal } := by
  rcases push_eq_some hPush with ⟨hEq, _⟩
  simp only [HandleEcho.read] at hEq
  have hGrows :
      ∀ v, bcf.echo.echomap v ≤
        (bcf.echo.read n root).1.echomap v :=
    le_increment bcf.echo.echomap root
  by_cases hFires :
      increment bcf.echo.echomap root root =
        threshold n * 2 + 1
  · rw [if_pos hFires, Option.toList_some] at hEq
    have hCert : EchoCert log root :=
      hFacts.echo root (Nat.le_of_eq hFires.symm)
    -- an older signal of ECHO would be for the same value,
    -- which has not been signalled before
    have hFirst :
        ∀ v, bcf.echo.echomap v ≤ threshold n * 2 := by
      intro v
      by_contra hMore
      have hOld : EchoCert log v :=
        hFacts.echo v (by
          have hLe := hGrows v
          dsimp only
          omega)
      have hSame := hFacts.unique v root hOld hCert
      subst hSame
      rw [increment_self] at hFires
      omega
    have hUsed :
        BCF.signalled
            { bcf with
              echo := (bcf.echo.read n root).1
              readysignal := readysignal } =
          bcf.signalled + 1 := by
      simp only [BCF.signalled, hEq, List.length_append,
        List.length_singleton]
      omega
    have hNever :
        ¬ ∀ v, (bcf.echo.read n root).1.echomap v ≤
          threshold n * 2 := by
      intro hNone
      have hRoot := hNone root
      simp only [HandleEcho.read] at hRoot
      omega
    refine
      { hOk with
        cert := ?_
        relayed := ?_
        unsignalled := fun hNone => absurd hNone hNever
        byReady := fun hNone => absurd hNone hNever
        byEcho := ?_
        room := ?_ }
    · intro v hv
      rw [hEq] at hv
      rcases List.mem_append.mp hv with hOld | hNew
      · exact hOk.cert v hOld
      · rw [List.mem_singleton.mp hNew]
        exact hCert
    · intro v _
      left
      rw [hEq]
      simp
    · intro hReady
      rw [hUsed, hOk.unsignalled hFirst hReady]
    · rw [hUsed]
      exact Nat.succ_le_succ (hOk.byReady hFirst)
  · rw [if_neg hFires, Option.toList_none,
      List.append_nil] at hEq
    subst hEq
    exact
      { hOk with
        unsignalled := fun hNone =>
          hOk.unsignalled fun v =>
            Nat.le_trans (hGrows v) (hNone v)
        byReady := fun hNone =>
          hOk.byReady fun v =>
            Nat.le_trans (hGrows v) (hNone v) }

/-
  `handle_ready` uses the signal when it fires, for the first
  time, or not at all.
-/
theorem signalled_readReady
    {root : Bytes}
    (hSame : bcf'.readySent = bcf.readySent)
    (hEq :
      bcf'.readysignal =
        bcf.readysignal ++
          Option.toList
            (if bcf.ready.readymap root + 1 = threshold n + 1
              then some root else none))
    (hRelay :
      ∀ v, threshold n + 1 ≤
          increment bcf.ready.readymap root v →
        EchoCert log v)
    (hUnique :
      ∀ v w, EchoCert log v → EchoCert log w → v = w) :
    bcf'.signalled = bcf.signalled ∨
      bcf'.signalled = bcf.signalled + 1 ∧
        (∀ v, bcf.ready.readymap v ≤ threshold n) ∧
          threshold n <
            increment bcf.ready.readymap root root := by
  split at hEq
  · rename_i hFires
    have hSelf := increment_self bcf.ready.readymap root
    refine .inr ⟨?_, ?_, by omega⟩
    · simp only [BCF.signalled, hSame, hEq,
        Option.toList_some, List.length_append,
        List.length_singleton]
      omega
    · intro v
      by_contra hMore
      have hLe := le_increment bcf.ready.readymap root v
      have hNew : EchoCert log root :=
        hRelay root (by omega)
      have hOld : EchoCert log v := hRelay v (by omega)
      have hRoot := hUnique v root hOld hNew
      subst hRoot
      omega
  · left
    simp [BCF.signalled, hSame, hEq]

/- `handle_ready` at a follower. -/
theorem FollowerOk.readReady
    (hOk : FollowerOk byz log p bcf)
    {root : Bytes} {readysignal output1signal : List Bytes}
    {ms : List (RBCMsg n)}
    (hRuns : bcf.ready.returned = false)
    (hRelay :
      push 2 bcf.readysignal
        (if (bcf.ready.read n root).2.relay
          then some root else none) = some readysignal)
    (hDeliver :
      push 2 bcf.output1signal
        (if (bcf.ready.read n root).2.deliver
          then some root else none) = some output1signal)
    (hSends :
      (bcf.ready.read n root).2.deliver = true →
        p ∈ senders log .finish root)
    (hFacts :
      FollowerFacts byz log p
        { bcf with
          ready := (bcf.ready.read n root).1
          readysignal := readysignal
          output1signal := output1signal } ms) :
    FollowerOk byz log p
      { bcf with
        ready := (bcf.ready.read n root).1
        readysignal := readysignal
        output1signal := output1signal } := by
  rcases push_eq_some hRelay with ⟨hReadyEq, _⟩
  rcases push_eq_some hDeliver with ⟨hOutEq, _⟩
  rcases hOk.waiting hRuns with ⟨hSignal, hOutput, hFew⟩
  simp only [HandleReady.read, decide_eq_true_eq,
    increment_self] at hReadyEq hOutEq hSends
  have hOther :
      ∀ v, v ≠ root →
        increment bcf.ready.readymap root v =
          bcf.ready.readymap v :=
    fun v hNe => increment_of_ne _ hNe
  have hSelf := increment_self bcf.ready.readymap root
  have hBelow :
      (∀ v, (bcf.ready.read n root).1.readymap v ≤
        threshold n) →
      ∀ v, bcf.ready.readymap v ≤ threshold n :=
    fun hNone v =>
      Nat.le_trans (le_increment _ root v) (hNone v)
  have hUsed :
      BCF.signalled
          { bcf with
            ready := (bcf.ready.read n root).1
            readysignal := readysignal
            output1signal := output1signal } =
        bcf.signalled ∨
      BCF.signalled
          { bcf with
            ready := (bcf.ready.read n root).1
            readysignal := readysignal
            output1signal := output1signal } =
        bcf.signalled + 1 ∧
        (∀ v, bcf.ready.readymap v ≤ threshold n) ∧
          threshold n <
            increment bcf.ready.readymap root root :=
    signalled_readReady rfl hReadyEq hFacts.relay
      hFacts.unique
  have hUnused :
      (∀ v, (bcf.ready.read n root).1.readymap v ≤
        threshold n) →
      BCF.signalled
          { bcf with
            ready := (bcf.ready.read n root).1
            readysignal := readysignal
            output1signal := output1signal } =
        bcf.signalled := by
    intro hNone
    rcases hUsed with hSame | ⟨_, _, hFires⟩
    · exact hSame
    · exact absurd (hNone root) (Nat.not_le_of_lt hFires)
  refine
    { hOk with
      cert := ?_
      output1 := ?_
      relayed := ?_
      unsignalled := ?_
      byReady := ?_
      byEcho := ?_
      room := ?_
      delivered := ?_
      waiting := ?_ }
  · intro v hv
    rw [hReadyEq] at hv
    rcases List.mem_append.mp hv with hOld | hNew
    · exact hOk.cert v hOld
    · split at hNew
      · rename_i hFires
        rw [List.mem_singleton.mp hNew]
        apply hFacts.relay root
        simp only [HandleReady.read, increment_self]
        omega
      · cases hNew
  · intro v hv
    rw [hOutEq, hSignal, hOutput, List.append_nil,
      List.nil_append] at hv
    split at hv
    · rename_i hFires
      rw [List.mem_singleton.mp hv]
      apply hFacts.ready root
      simp only [HandleReady.read, increment_self]
      omega
    · cases hv
  · intro v hv
    simp only [HandleReady.read] at hv
    by_cases hOld :
        threshold n + 1 ≤ bcf.ready.readymap v
    · rcases hOk.relayed v hOld with h | h
      · left
        rw [hReadyEq]
        simp [h]
      · exact .inr h
    · left
      by_cases hRoot : v = root
      · subst hRoot
        rw [hSelf] at hv
        have hFires :
            bcf.ready.readymap v + 1 = threshold n + 1 := by
          omega
        rw [hReadyEq, if_pos hFires]
        simp
      · rw [hOther v hRoot] at hv
        exact absurd hv hOld
  · intro hEcho hNone
    rw [hUnused hNone]
    exact hOk.unsignalled hEcho (hBelow hNone)
  · intro hEcho
    rcases hUsed with hSame | ⟨hMore, hNone, _⟩
    · rw [hSame]
      exact hOk.byReady hEcho
    · rw [hMore, hOk.unsignalled hEcho hNone]
  · intro hNone
    rw [hUnused hNone]
    exact hOk.byEcho (hBelow hNone)
  · rcases hUsed with hSame | ⟨hMore, hNone, _⟩
    · rw [hSame]
      exact hOk.room
    · rw [hMore]
      exact Nat.succ_le_succ (hOk.byEcho hNone)
  · intro hReturned
    simp only [HandleReady.read, decide_eq_true_eq,
      increment_self] at hReturned
    refine ⟨⟨root, hSends hReturned⟩, ?_, root, ?_⟩
    · rw [hOutEq, hSignal, hOutput, if_pos hReturned]
      rfl
    · simp only [HandleReady.read, increment_self]
      omega
  · intro hReturned
    simp only [HandleReady.read, decide_eq_false_iff_not,
      increment_self] at hReturned
    refine ⟨?_, hOutput, ?_⟩
    · rw [hOutEq, hSignal, if_neg hReturned]
      rfl
    · intro v
      simp only [HandleReady.read]
      by_cases hRoot : v = root
      · subst hRoot
        have hLe := hFew v
        rw [hSelf]
        omega
      · rw [hOther v hRoot]
        exact hFew v

/- `handle_finish` at a follower. -/
theorem FollowerOk.readFinish
    (hOk : FollowerOk byz log p bcf)
    {root : Bytes} {output2signal : List Bytes}
    (hRuns : bcf.finish.returned = false)
    (hDeliver :
      push 2 bcf.output2signal
        (if (bcf.finish.read n root).2
          then some root else none) = some output2signal)
    (hFacts :
      FollowerFacts byz log p
        { bcf with
          finish := (bcf.finish.read n root).1
          output2signal := output2signal } []) :
    FollowerOk byz log p
      { bcf with
        finish := (bcf.finish.read n root).1
        output2signal := output2signal } := by
  rcases push_eq_some hDeliver with ⟨hEq, _⟩
  rcases hOk.unfinished hRuns with ⟨hSignal, hOutput, hFew⟩
  simp only [HandleFinish.read, decide_eq_true_eq,
    increment_self] at hEq
  have hSelf := increment_self bcf.finish.finishmap root
  refine
    { hOk with
      output2 := ?_
      finished := ?_
      unfinished := ?_ }
  · intro v hv
    rw [hEq, hSignal, hOutput, List.append_nil,
      List.nil_append] at hv
    split at hv
    · rename_i hFires
      rw [List.mem_singleton.mp hv]
      apply hFacts.finish root
      simp only [HandleFinish.read, increment_self]
      omega
    · cases hv
  · intro hReturned
    simp only [HandleFinish.read, decide_eq_true_eq,
      increment_self] at hReturned
    rw [hEq, hSignal, hOutput, if_pos hReturned]
    rfl
  · intro hReturned
    simp only [HandleFinish.read, decide_eq_false_iff_not,
      increment_self] at hReturned
    refine ⟨?_, hOutput, ?_⟩
    · rw [hEq, hSignal, if_neg hReturned]
      rfl
    · intro v
      simp only [HandleFinish.read]
      by_cases hRoot : v = root
      · subst hRoot
        have hLe := hFew v
        rw [hSelf]
        omega
      · rw [increment_of_ne _ hRoot]
        exact hFew v

/- One step of a follower. -/
theorem FollowerOk.step
    {m : Option (RBCMsg n)} {ms : List (RBCMsg n)}
    (hOk : FollowerOk byz log p bcf)
    (hStep : FollowerStep cfg p bcf m bcf' ms)
    (hSent : log.sent <+: log'.sent)
    (hFacts : FollowerFacts byz log' p bcf' ms) :
    FollowerOk byz log' p bcf' := by
  have hOld := hOk.mono hSent
  cases hStep with
  | sendReady value rest hNot hSignal =>
      have hUsed :
          BCF.signalled
              { bcf with
                readysignal := rest, readySent := true } =
            bcf.signalled := by
        simp [BCF.signalled, hSignal, hNot]
      refine
        { hOld with
          cert := ?_
          relayed := fun _ _ => .inr rfl
          sent := ?_
          unsignalled := ?_
          byReady := ?_
          byEcho := ?_
          room := ?_ }
      · intro v hv
        apply hOld.cert v
        rw [hSignal]
        exact List.mem_cons_of_mem _ hv
      · intro _
        exact ⟨value, hFacts.mine (readyMsg cfg p value)
          (List.mem_singleton_self _)⟩
      · rw [hUsed]
        exact hOld.unsignalled
      · rw [hUsed]
        exact hOld.byReady
      · rw [hUsed]
        exact hOld.byEcho
      · rw [hUsed]
        exact hOld.room
  | forward1 value rest hSignal =>
      refine
        { hOld with
          output1 := ?_
          delivered := ?_
          waiting := ?_ }
      · intro v hv
        apply hOld.output1 v
        rw [hSignal]
        simp only [List.mem_append, List.mem_cons] at hv ⊢
        tauto
      · intro hReturned
        rcases hOld.delivered hReturned with
          ⟨hMine, hLength, hMany⟩
        refine ⟨hMine, ?_, hMany⟩
        rw [hSignal, List.length_cons] at hLength
        dsimp only
        rw [List.length_append, List.length_singleton]
        omega
      · intro hReturned
        have hNil := (hOld.waiting hReturned).1
        rw [hSignal] at hNil
        cases hNil
  | forward2 value rest hSignal =>
      refine
        { hOld with
          output2 := ?_
          finished := ?_
          unfinished := ?_ }
      · intro v hv
        apply hOld.output2 v
        rw [hSignal]
        simp only [List.mem_append, List.mem_cons] at hv ⊢
        tauto
      · intro hReturned
        have hLength := hOld.finished hReturned
        rw [hSignal, List.length_cons] at hLength
        dsimp only
        rw [List.length_append, List.length_singleton]
        omega
      · intro hReturned
        have hNil := (hOld.unfinished hReturned).1
        rw [hSignal] at hNil
        cases hNil
  | val => exact hOld
  | echo m readysignal _ _ hPush =>
      exact hOld.readEcho hPush hFacts
  | ready m readysignal output1signal _ hRuns hRelay hDeliver =>
      refine hOld.readReady hRuns hRelay hDeliver ?_
        hFacts
      intro hFires
      apply hFacts.mine (finishMsg cfg p m.root)
      rw [if_pos hFires]
      exact List.mem_singleton_self _
  | finish m output2signal _ hRuns hDeliver =>
      exact hOld.readFinish hRuns hDeliver hFacts

end Follower

end ReliableBroadcast

end Jumbo

------------------------------------------------------------
-- The Broadcaster
------------------------------------------------------------

namespace Jumbo

namespace ReliableBroadcast

open Protocol

variable {n : Nat}

/- The signals and outputs of the leader are backed. -/
structure LeaderOk
    (cfg : Config n) (byz : Finset (Fin n))
    (log : BroadcastLog n (Packet n) Loc)
    (bcl : BCL) : Prop where
  cert : bcl.readysignal ≠ [] → EchoCert log cfg.input
  output1 :
    bcl.output1signal ≠ [] ∨ bcl.output1 ≠ [] →
      Supported byz log cfg.input
  output2 :
    bcl.output2signal ≠ [] ∨ bcl.output2 ≠ [] →
      Supported byz log cfg.input
  values :
    ∀ v ∈ bcl.output1 ++ bcl.output2, v = cfg.input
  relayed :
    threshold n + 1 ≤ bcl.readycount →
      bcl.readysignal ≠ [] ∨ bcl.readySent = true
  sent :
    bcl.readySent = true →
      cfg.lid ∈ senders log .ready cfg.input
  delivered :
    bcl.readyReturned = true →
      bcl.output1signal.length + bcl.output1.length = 1 ∧
        (1 ≤ threshold n →
          threshold n + 1 ≤ bcl.readycount)
  waiting :
    bcl.readyReturned = false →
      bcl.output1signal = [] ∧ bcl.output1 = []
  finished :
    bcl.finishReturned = true →
      bcl.output2signal.length + bcl.output2.length = 1
  unfinished :
    bcl.finishReturned = false →
      bcl.output2signal = [] ∧ bcl.output2 = [] ∧
        (1 ≤ threshold n →
          bcl.finishcount < threshold n * 2)

theorem LeaderOk.new
    (cfg : Config n) (byz : Finset (Fin n))
    (log : BroadcastLog n (Packet n) Loc) :
    LeaderOk cfg byz log BCL.new := by
  constructor <;> simp [BCL.new]
  omega

section Leader

variable {cfg : Config n} {byz : Finset (Fin n)}
variable {log log' : BroadcastLog n (Packet n) Loc}
variable {bcl bcl' : BCL}

/- More messages keep the leader backed. -/
theorem LeaderOk.mono
    (hOk : LeaderOk cfg byz log bcl)
    (hSent : log.sent <+: log'.sent) :
    LeaderOk cfg byz log' bcl :=
  { hOk with
    cert := fun h => (hOk.cert h).mono hSent
    output1 := fun h => (hOk.output1 h).mono hSent
    output2 := fun h => (hOk.output2 h).mono hSent
    sent := fun h => senders_mono hSent _ _ (hOk.sent h) }

/- What the new counts say about the log after a step. -/
structure LeaderFacts
    (cfg : Config n) (byz : Finset (Fin n))
    (log' : BroadcastLog n (Packet n) Loc)
    (bcl' : BCL) (ms : List (RBCMsg n)) : Prop where
  mine : ∀ m ∈ ms, cfg.lid ∈ senders log' m.type m.root
  echo :
    threshold n * 2 + 1 ≤ bcl'.echocount →
      EchoCert log' cfg.input
  ready :
    bcl'.readyReturned = true →
      Supported byz log' cfg.input
  relay :
    threshold n + 1 ≤ bcl'.readycount →
      EchoCert log' cfg.input
  finish :
    bcl'.finishReturned = true →
      Supported byz log' cfg.input

/- The broadcaster signals READY at the count `f + 1`. -/
theorem leaderHandleReady_relay
    (input : Bytes) (readycount : Nat) (root : Bytes) :
    (leaderHandleReady n input readycount root).2.relay =
        true ↔
      readycount < threshold n + 1 ∧
        threshold n + 1 ≤
          (leaderHandleReady n input readycount root).1 := by
  unfold leaderHandleReady
  split
  · simp only [decide_eq_true_eq]
    omega
  · simp only [Bool.false_eq_true, false_iff]
    omega

/- The leader delivers with the last READY it needs. -/
theorem leaderHandleReady_deliver
    {input : Bytes} {readycount : Nat} {root : Bytes}
    (hFires :
      (leaderHandleReady n input readycount
        root).2.deliver = true) :
    (leaderHandleReady n input readycount root).1 =
      threshold n * 2 := by
  unfold leaderHandleReady at hFires ⊢
  split at hFires
  · rename_i hRoot
    simpa [hRoot] using hFires
  · cases hFires

/- `handle_ready` at the broadcaster. -/
theorem LeaderOk.readReady
    (hOk : LeaderOk cfg byz log bcl)
    {root : Bytes} {readysignal output1signal : List Unit}
    {ms : List (RBCMsg n)}
    (hRuns : bcl.readyReturned = false)
    (hRelay :
      push 2 bcl.readysignal
        (if (leaderHandleReady n cfg.input bcl.readycount
            root).2.relay then some () else none) =
          some readysignal)
    (hDeliver :
      push 2 bcl.output1signal
        (if (leaderHandleReady n cfg.input bcl.readycount
            root).2.deliver then some () else none) =
          some output1signal)
    (hFacts :
      LeaderFacts cfg byz log
        { bcl with
          readycount :=
            (leaderHandleReady n cfg.input bcl.readycount
              root).1
          readyReturned :=
            (leaderHandleReady n cfg.input bcl.readycount
              root).2.deliver
          readysignal := readysignal
          output1signal := output1signal } ms) :
    LeaderOk cfg byz log
      { bcl with
        readycount :=
          (leaderHandleReady n cfg.input bcl.readycount
            root).1
        readyReturned :=
          (leaderHandleReady n cfg.input bcl.readycount
            root).2.deliver
        readysignal := readysignal
        output1signal := output1signal } := by
  rcases push_eq_some hRelay with ⟨hReadyEq, _⟩
  rcases push_eq_some hDeliver with ⟨hOutEq, _⟩
  rcases hOk.waiting hRuns with ⟨hSignal, hOutput⟩
  have hFires :=
    leaderHandleReady_relay (n := n) cfg.input
      bcl.readycount root
  refine
    { hOk with
      cert := ?_
      output1 := ?_
      relayed := ?_
      delivered := ?_
      waiting := ?_ }
  · intro hNonempty
    by_cases hRelays :
        (leaderHandleReady n cfg.input bcl.readycount
          root).2.relay = true
    · exact hFacts.relay (hFires.mp hRelays).2
    · apply hOk.cert
      rw [if_neg hRelays, Option.toList_none,
        List.append_nil] at hReadyEq
      rw [← hReadyEq]
      exact hNonempty
  · intro hNonempty
    apply hFacts.ready
    by_contra hNot
    rw [if_neg hNot, hSignal] at hOutEq
    rcases hNonempty with h | h
    · exact h hOutEq
    · exact h hOutput
  · intro hMany
    by_cases hOld : threshold n + 1 ≤ bcl.readycount
    · rcases hOk.relayed hOld with h | h
      · left
        rw [hReadyEq]
        simp [h]
      · exact .inr h
    · left
      have hRelays :=
        hFires.mpr ⟨Nat.lt_of_not_le hOld, hMany⟩
      rw [hReadyEq, if_pos hRelays]
      simp
  · intro hReturned
    refine ⟨?_, ?_⟩
    · dsimp only
      rw [hOutEq, hSignal, hOutput, if_pos hReturned]
      rfl
    · intro hPos
      have hQuota := leaderHandleReady_deliver hReturned
      dsimp only at hQuota ⊢
      omega
  · intro hReturned
    have hNot :
        ¬ (leaderHandleReady n cfg.input bcl.readycount
          root).2.deliver = true := by
      dsimp only at hReturned
      rw [hReturned]
      decide
    refine ⟨?_, hOutput⟩
    rw [hOutEq, hSignal, if_neg hNot]
    rfl

/- `handle_finish` at the broadcaster. -/
theorem LeaderOk.readFinish
    (hOk : LeaderOk cfg byz log bcl)
    {root : Bytes} {output2signal : List Unit}
    (hRuns : bcl.finishReturned = false)
    (hDeliver :
      push 2 bcl.output2signal
        (if (leaderHandleFinish n cfg.input
            bcl.finishcount root).2
          then some () else none) = some output2signal)
    (hFacts :
      LeaderFacts cfg byz log
        { bcl with
          finishcount :=
            (leaderHandleFinish n cfg.input
              bcl.finishcount root).1
          finishReturned :=
            (leaderHandleFinish n cfg.input
              bcl.finishcount root).2
          output2signal := output2signal } []) :
    LeaderOk cfg byz log
      { bcl with
        finishcount :=
          (leaderHandleFinish n cfg.input
            bcl.finishcount root).1
        finishReturned :=
          (leaderHandleFinish n cfg.input
            bcl.finishcount root).2
        output2signal := output2signal } := by
  rcases push_eq_some hDeliver with ⟨hEq, _⟩
  rcases hOk.unfinished hRuns with ⟨hSignal, hOutput, hFew⟩
  refine
    { hOk with
      output2 := ?_
      finished := ?_
      unfinished := ?_ }
  · intro hNonempty
    apply hFacts.finish
    by_contra hNot
    rw [if_neg hNot, hSignal] at hEq
    rcases hNonempty with h | h
    · exact h hEq
    · exact h hOutput
  · intro hReturned
    dsimp only
    rw [hEq, hSignal, hOutput, if_pos hReturned]
    rfl
  · intro hReturned
    have hNot :
        ¬ (leaderHandleFinish n cfg.input bcl.finishcount
          root).2 = true := by
      dsimp only at hReturned
      rw [hReturned]
      decide
    refine ⟨?_, hOutput, ?_⟩
    · dsimp only
      rw [hEq, hSignal, if_neg hNot]
      rfl
    · intro hPos
      have hLt := hFew hPos
      unfold leaderHandleFinish at hNot ⊢
      split
      · rename_i hRoot
        rw [if_pos hRoot] at hNot
        simp only [decide_eq_true_eq] at hNot
        dsimp only
        omega
      · exact hLt

/- One step of the broadcaster. -/
theorem LeaderOk.step
    {m : Option (RBCMsg n)} {ms : List (RBCMsg n)}
    (hOk : LeaderOk cfg byz log bcl)
    (hStep : LeaderStep cfg bcl m bcl' ms)
    (hSent : log.sent <+: log'.sent)
    (hFacts : LeaderFacts cfg byz log' bcl' ms) :
    LeaderOk cfg byz log' bcl' := by
  have hOld := hOk.mono hSent
  cases hStep with
  | sendVal | sendEcho => exact { hOld with }
  | sendReady rest hNot hSignal =>
      refine
        { hOld with
          cert := ?_
          relayed := fun _ => .inr rfl
          sent := ?_ }
      · intro _
        apply hOld.cert
        rw [hSignal]
        exact List.cons_ne_nil _ _
      · intro _
        exact hFacts.mine
          (readyMsg cfg cfg.lid cfg.input)
          (List.mem_singleton_self _)
  | forward1 rest hSignal =>
      refine
        { hOld with
          output1 := ?_
          values := ?_
          delivered := ?_
          waiting := ?_ }
      · intro _
        apply hOld.output1
        left
        rw [hSignal]
        exact List.cons_ne_nil _ _
      · intro v hv
        by_cases hEq : v = cfg.input
        · exact hEq
        · apply hOld.values v
          simpa [hEq] using hv
      · intro hReturned
        rcases hOld.delivered hReturned with
          ⟨hLength, hMany⟩
        refine ⟨?_, hMany⟩
        rw [hSignal, List.length_cons] at hLength
        dsimp only
        rw [List.length_append, List.length_singleton]
        omega
      · intro hReturned
        have hNil := (hOld.waiting hReturned).1
        rw [hSignal] at hNil
        cases hNil
  | forward2 rest hSignal =>
      refine
        { hOld with
          output2 := ?_
          values := ?_
          finished := ?_
          unfinished := ?_ }
      · intro _
        apply hOld.output2
        left
        rw [hSignal]
        exact List.cons_ne_nil _ _
      · intro v hv
        by_cases hEq : v = cfg.input
        · exact hEq
        · apply hOld.values v
          simpa [hEq] using hv
      · intro hReturned
        have hLength := hOld.finished hReturned
        rw [hSignal, List.length_cons] at hLength
        dsimp only
        rw [List.length_append, List.length_singleton]
        omega
      · intro hReturned
        have hNil := (hOld.unfinished hReturned).1
        rw [hSignal] at hNil
        cases hNil
  | echo m readysignal _ hPush =>
      rcases push_eq_some hPush with ⟨hEq, _⟩
      refine
        { hOld with
          cert := ?_
          relayed := ?_ }
      · intro hNonempty
        by_cases hFires :
            (leaderHandleEcho n cfg.input bcl.echocount
              m.root).2 = true
        · apply hFacts.echo
          simp only [leaderHandleEcho,
            decide_eq_true_eq] at hFires ⊢
          omega
        · apply hOld.cert
          rw [if_neg hFires, Option.toList_none,
            List.append_nil] at hEq
          rw [← hEq]
          exact hNonempty
      · intro hMany
        rcases hOld.relayed hMany with h | h
        · left
          rw [hEq]
          simp [h]
        · exact .inr h
  | ready m readysignal output1signal _ hRuns hRelay hDeliver =>
      exact hOld.readReady hRuns hRelay hDeliver hFacts
  | finish m output2signal _ hRuns hDeliver =>
      exact hOld.readFinish hRuns hDeliver hFacts

end Leader

end ReliableBroadcast

end Jumbo
