import Jumbo.ReliableBroadcast.Agreement
import Jumbo.ReliableBroadcast.Outputs

/-
  Who has echoed an output of the broadcast.

  When no follower counts a sender twice for a value, every
  value that a correct party has signalled, sent or output is
  the one of a correct broadcaster or has been echoed by a
  correct follower.

  Main declarations:
    * `singly`
    * `Echoed`
    * `Sourced`
    * `echoed_of_output`
-/

------------------------------------------------------------
-- Counting Senders Once
------------------------------------------------------------

namespace Jumbo

namespace ReliableBroadcast

open Protocol

variable {n : Nat}

/- A follower counts a sender once for each value. -/
def singleRead
    (cfg : Config n) (s : State n) (p : Fin n)
    (m : RBCMsg n) : Bool :=
  decide (p = cfg.lid) || !m.type.counted ||
    decide (s.log.tally p .handled (repeats m) = 0)

/-
  Followers read a counted message once from a sender, for
  each value.
-/
def singly (cfg : Config n) (s : State n) :
    Action n → Bool
| .receive p i =>
    (s.log.sent[i]?).all fun packet =>
      singleRead cfg s p packet.msg
| _ => true

/- A correct party has vouched for the value. -/
def Echoed
    (cfg : Config n) (byz : Finset (Fin n))
    (log : BroadcastLog n (Packet n) Loc) (v : Bytes) :
    Prop :=
  (cfg.lid ∉ byz ∧ v = cfg.input ∧
      ∃ x ∈ log.sent, x.msg.id = cfg.lid) ∨
    ∃ q, q ∉ byz ∧ q ≠ cfg.lid ∧ q ∈ senders log .echo v

/- More messages keep a value echoed. -/
theorem Echoed.mono
    {cfg : Config n} {byz : Finset (Fin n)}
    {log log' : BroadcastLog n (Packet n) Loc} {v : Bytes}
    (hEchoed : Echoed cfg byz log v)
    (hSent : log.sent <+: log'.sent) :
    Echoed cfg byz log' v := by
  rcases hEchoed with
    ⟨hLid, hInput, x, hMem, hId⟩ | ⟨q, hq, hNe, hEcho⟩
  · exact .inl ⟨hLid, hInput, x, hSent.subset hMem, hId⟩
  · exact
      .inr ⟨q, hq, hNe, senders_mono hSent _ _ hEcho⟩

/- The types and readers that the condition is about. -/
def followerCounts
    (cfg : Config n) (p : Fin n) (type : RBCMsgType) : Prop :=
  p ≠ cfg.lid ∧ type.counted = true

/-
  The invariant: what correct parties have said or hold back
  has been echoed.
-/
structure Sourced
    (cfg : Config n) (byz : Finset (Fin n)) (s : State n) :
    Prop where
  once : ReadOnce (followerCounts cfg) s
  echo :
    ∀ x ∈ s.log.sent, x.msg.type = .echo →
      x.msg.id ∉ byz → x.msg.id = cfg.lid →
        x.msg.root = cfg.input
  sent :
    ∀ x ∈ s.log.sent,
      x.msg.type = .ready ∨ x.msg.type = .finish →
        x.msg.id ∉ byz → Echoed cfg byz s.log x.msg.root
  signal :
    ∀ p, p ∉ byz → p ≠ cfg.lid →
      ∀ v ∈ (s.follower p).readysignal,
        Echoed cfg byz s.log v
  fired :
    ∀ p, p ∉ byz → ∀ v,
      v ∈ s.fired1 cfg p ∨ v ∈ s.fired2 cfg p →
        p = cfg.lid ∧ v = cfg.input ∨
          Echoed cfg byz s.log v

/- A new signal comes from a quorum of ECHO or of READY. -/
theorem FollowerStep.signal_new
    {cfg : Config n} {p : Fin n} {bcf bcf' : BCF}
    {m : Option (RBCMsg n)} {ms : List (RBCMsg n)}
    (hStep : FollowerStep cfg p bcf m bcf' ms)
    {v : Bytes} (hv : v ∈ bcf'.readysignal) :
    v ∈ bcf.readysignal ∨
      threshold n + 1 ≤ bcf'.count .echo v ∨
        threshold n + 1 ≤ bcf'.count .ready v := by
  cases hStep with
  | sendReady value rest _ hSignal =>
      rw [hSignal]
      exact .inl (List.mem_cons_of_mem _ hv)
  | forward1 | forward2 | val | finish => exact .inl hv
  | echo m readysignal _ _ hPush =>
      rcases push_eq_some hPush with ⟨rfl, _⟩
      rcases List.mem_append.mp hv with h | h
      · exact .inl h
      · right
        left
        simp only [HandleEcho.read] at h
        split at h
        · rename_i hFires
          rw [Option.toList_some, List.mem_singleton] at h
          subst h
          simp only [BCF.count, HandleEcho.read]
          omega
        · cases h
  | ready m readysignal _ _ _ hRelay =>
      rw [mem_push hRelay] at hv
      rcases hv with h | ⟨hFires, rfl⟩
      · exact .inl h
      · right
        right
        simp only [HandleReady.read, decide_eq_true_eq]
          at hFires
        simp only [BCF.count, HandleReady.read]
        omega

section Step

variable {cfg : Config n} {byz : Finset (Fin n)}
variable {s s' : State n} {a : Action n}

/- A follower steps by its own goroutines. -/
theorem Change.follower_cases
    (hChange : Change cfg byz s a s') (p : Fin n) :
    s'.follower p = s.follower p ∨
      ∃ m ms,
        FollowerStep cfg p (s.follower p) m
          (s'.follower p) ms := by
  cases hChange with
  | forge | advance | closeval | panic => exact .inl rfl
  | leader a m bcl ms =>
      left
      cases a.position <;> rfl
  | follower a q m bcf ms _ _ _ _ hStep =>
      by_cases hEq : p = q
      · subst hEq
        refine .inr ⟨m, ms, ?_⟩
        simp only [State.broadcast, State.setFollower,
          Function.update_self]
        exact hStep
      · left
        cases a.position <;>
          simp only [State.broadcast, State.setFollower,
            State.afterRead, Function.update_of_ne hEq]

/-
  More than `f` counted at a follower: a correct party has
  sent the message, so its value has been echoed.
-/
theorem Sourced.echoed_of_count
    (hSourced : Sourced cfg byz s)
    (hByz : byz.card ≤ threshold n)
    (hChange : Change cfg byz s a s')
    (hCounted' : Counted cfg s')
    (hOnce' : ReadOnce (followerCounts cfg) s')
    {p : Fin n} (hNe : p ≠ cfg.lid)
    {type : RBCMsgType} (hType : type.counted = true)
    {v : Bytes}
    (hMany :
      threshold n + 1 ≤ (s'.follower p).count type v) :
    Echoed cfg byz s.log v := by
  rw [hCounted'.follower p hNe type hType v] at hMany
  have hTally := hOnce'.tally_le ⟨hNe, hType⟩ v
  have hLt : byz.card < (readFrom s' p type v).card := by
    omega
  rcases exists_correct hLt with ⟨q, hRead, hq⟩
  rcases (BroadcastLog.mem_heldFrom_iff _ _ _ _ _ _).mp
      hRead with ⟨i, x, hMsg, hLoc, hKind, rfl⟩
  have hOld := (hChange.handled hMsg hLoc).1
  have hMem := List.mem_of_getElem? hOld
  simp only [isKind, Bool.and_eq_true,
    decide_eq_true_eq] at hKind
  rcases hKind with ⟨rfl, rfl⟩
  cases hKindOf : x.msg.type with
  | val | other =>
      rw [hKindOf] at hType
      cases hType
  | echo =>
      by_cases hLeader : x.msg.id = cfg.lid
      · have hInput := hSourced.echo x hMem hKindOf hq hLeader
        exact .inl ⟨hLeader ▸ hq, hInput, x, hMem, hLeader⟩
      · exact
          .inr ⟨x.msg.id, hq, hLeader,
            mem_senders.mpr ⟨x, hMem, hKindOf, rfl, rfl⟩⟩
  | ready => exact hSourced.sent x hMem (.inl hKindOf) hq
  | finish => exact hSourced.sent x hMem (.inr hKindOf) hq

/- What the broadcaster says is its input. -/
theorem LeaderStep.speech
    {bcl bcl' : BCL} {m : Option (RBCMsg n)}
    {ms : List (RBCMsg n)}
    (hStep : LeaderStep cfg bcl m bcl' ms)
    {m' : RBCMsg n} (hMem : m' ∈ ms) :
    m'.id = cfg.lid ∧ m'.root = cfg.input := by
  cases hStep with
  | sendVal | sendEcho | sendReady =>
      rw [List.mem_singleton.mp hMem]
      exact ⟨rfl, rfl⟩
  | forward1 | forward2 | echo | finish => cases hMem
  | ready =>
      split at hMem
      · rw [List.mem_singleton.mp hMem]
        exact ⟨rfl, rfl⟩
      · cases hMem

/- A follower says its own number. -/
theorem FollowerStep.id_eq
    {p : Fin n} {bcf bcf' : BCF} {m : Option (RBCMsg n)}
    {ms : List (RBCMsg n)}
    (hStep : FollowerStep cfg p bcf m bcf' ms)
    {m' : RBCMsg n} (hMem : m' ∈ ms) :
    m'.id = p := by
  cases hStep with
  | sendReady | val =>
      rw [List.mem_singleton.mp hMem]
      rfl
  | forward1 | forward2 | echo | finish => cases hMem
  | ready =>
      split at hMem
      · rw [List.mem_singleton.mp hMem]
        rfl
      · cases hMem

/- The message that is read is its sender's first. -/
theorem singly_fresh
    (hOk : singly cfg s a = true)
    {p : Fin n} {i : Nat} {x : Packet n}
    (hAction : a = .receive p i)
    (hMsg : s.log.sent[i]? = some x)
    (hCounts : followerCounts cfg p x.msg.type) :
    s.log.tally p .handled (repeats x.msg) = 0 := by
  subst hAction
  have hRead : singleRead cfg s p x.msg = true := by
    simpa [singly, hMsg] using hOk
  unfold singleRead at hRead
  simpa [hCounts.1, hCounts.2] using hRead

/- Every step keeps the values echoed. -/
theorem Sourced.step
    (hSourced : Sourced cfg byz s)
    (hByz : byz.card ≤ threshold n)
    (hChange : Change cfg byz s a s')
    (hCounted' : Counted cfg s')
    (hOk : singly cfg s a = true) :
    Sourced cfg byz s' := by
  have hOnce' :=
    hSourced.once.step hChange
      fun p i x hAction hMsg hCounts =>
        singly_fresh hOk hAction hMsg hCounts
  have hGrows := hChange.sent_prefix
  have hCount :
      ∀ p, p ≠ cfg.lid → ∀ type,
        RBCMsgType.counted type = true → ∀ v,
          threshold n + 1 ≤ (s'.follower p).count type v →
            Echoed cfg byz s'.log v :=
    fun p hNe type hType v hMany =>
      (hSourced.echoed_of_count hByz hChange hCounted' hOnce'
        hNe hType hMany).mono hGrows
  have hFired :
      ∀ p, p ∉ byz → ∀ v,
        v ∈ s'.fired1 cfg p ∨ v ∈ s'.fired2 cfg p →
          p = cfg.lid ∧ v = cfg.input ∨
            Echoed cfg byz s'.log v := by
    intro p hp v hv
    have hOld :
        v ∈ s.fired1 cfg p ∨ v ∈ s.fired2 cfg p →
          p = cfg.lid ∧ v = cfg.input ∨
            Echoed cfg byz s'.log v :=
      fun h =>
        (hSourced.fired p hp v h).imp_right (·.mono hGrows)
    rcases hChange.fired p with
      hSame | ⟨rfl, m, ms, _, _, hStep⟩ | ⟨hNe, m, ms, hStep⟩
    · rw [hSame.1, hSame.2] at hv
      exact hOld hv
    · unfold State.fired1 State.fired2 at hv hOld
      rw [if_pos rfl, if_pos rfl] at hv hOld
      rcases hv with h | h
      · rcases hStep.fired1_new h with h | ⟨hInput, _⟩
        · exact hOld (.inl h)
        · exact .inl ⟨rfl, hInput⟩
      · rcases hStep.fired2_new h with h | ⟨hInput, _⟩
        · exact hOld (.inr h)
        · exact .inl ⟨rfl, hInput⟩
    · unfold State.fired1 State.fired2 at hv hOld
      rw [if_neg hNe, if_neg hNe] at hv hOld
      rcases hv with h | h
      · rcases hStep.fired1_new h with h | hMany
        · exact hOld (.inl h)
        · refine .inr (hCount p hNe .ready rfl v ?_)
          simp only [BCF.count, hMany]
          omega
      · rcases hStep.fired2_new h with h | hMany
        · exact hOld (.inr h)
        · refine .inr (hCount p hNe .finish rfl v ?_)
          simp only [BCF.count, hMany]
          omega
  refine
    { once := hOnce'
      echo := ?_
      sent := ?_
      signal := ?_
      fired := hFired }
  · intro x hMem hType hId hLeader
    by_cases hOld : x ∈ s.log.sent
    · exact hSourced.echo x hOld hType hId hLeader
    · rcases hChange.new hMem hOld hId with
        ⟨m, bcl, ms, _, _, hStep, hNew⟩ |
          ⟨p, m, bcf, ms, hNe, _, _, hStep, hNew⟩
      · exact (hStep.speech hNew).2
      · exact absurd ((hStep.id_eq hNew).symm.trans hLeader) hNe
  · intro x hMem hType hId
    by_cases hOld : x ∈ s.log.sent
    · exact (hSourced.sent x hOld hType hId).mono hGrows
    · rcases hType with hReady | hFinish
      · rcases hChange.new hMem hOld hId with
          ⟨m, bcl, ms, _, _, hStep, hNew⟩ |
            ⟨p, m, bcf, ms, hNe, _, _, hStep, hNew⟩
        · rcases hStep.speech hNew with ⟨hLeader, hInput⟩
          exact
            .inl ⟨hLeader ▸ hId, hInput, x, hMem, hLeader⟩
        · have hp : p ∉ byz := by
            rw [← hStep.id_eq hNew]
            exact hId
          exact
            (hSourced.signal p hp hNe _
              (hStep.sends_ready hNew hReady)).mono hGrows
      · rcases hFired x.msg.id hId _
            (.inl (hChange.finish_fired1 hMem hOld hId hFinish))
          with ⟨hLeader, hInput⟩ | hEchoed
        · exact
            .inl ⟨hLeader ▸ hId, hInput, x, hMem, hLeader⟩
        · exact hEchoed
  · intro p hp hNe v hv
    rcases hChange.follower_cases p with
      hSame | ⟨m, ms, hStep⟩
    · rw [hSame] at hv
      exact (hSourced.signal p hp hNe v hv).mono hGrows
    · rcases hStep.signal_new hv with h | h | h
      · exact (hSourced.signal p hp hNe v h).mono hGrows
      · exact hCount p hNe .echo rfl v h
      · exact hCount p hNe .ready rfl v h

/- It holds in every such run. -/
theorem sourced
    (hByz : byz.card ≤ threshold n)
    (hReach :
      (machine n cfg byz).ReachableBy
        (fun s a => singly cfg s a = true) s) :
    Sourced cfg byz s := by
  refine Machine.ReachableBy.invariant (Sourced cfg byz) ?_ ?_
    hReach
  · refine
      { once := fun p i j x y hx => by cases hx
        echo := fun x hx => by cases hx
        sent := fun x hx => by cases hx
        signal := fun p _ _ v hv => by cases hv
        fired := ?_ }
    intro p _ v hv
    unfold State.fired1 State.fired2 at hv
    split at hv <;> rcases hv with h | h <;> cases h
  · intro s a s' hBefore hSourced hOk hExec
    exact
      hSourced.step hByz (exec_change hExec)
        (counted (hBefore.step hOk hExec)) hOk

/-
  What a correct party outputs has been echoed, or it is the
  broadcaster.
-/
theorem echoed_of_output
    (hByz : byz.card ≤ threshold n)
    (hReach :
      (machine n cfg byz).ReachableBy
        (fun s a => singly cfg s a = true) s)
    {p : Fin n} (hp : p ∉ byz) {v : Bytes}
    (hOutput : v ∈ s.outputs cfg p) :
    p = cfg.lid ∧ v = cfg.input ∨
      Echoed cfg byz s.log v := by
  refine (sourced hByz hReach).fired p hp v ?_
  unfold State.outputs at hOutput
  unfold State.fired1 State.fired2
  split at hOutput
  · rename_i hLeader
    rw [if_pos hLeader, if_pos hLeader]
    exact
      (List.mem_append.mp hOutput).imp
        (List.mem_append_right _) (List.mem_append_right _)
  · rename_i hNe
    rw [if_neg hNe, if_neg hNe]
    exact
      (List.mem_append.mp hOutput).imp
        (List.mem_append_right _) (List.mem_append_right _)

end Step

end ReliableBroadcast

end Jumbo
