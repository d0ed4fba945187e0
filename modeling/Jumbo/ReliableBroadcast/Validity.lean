import Jumbo.ReliableBroadcast.Counting

/-
  Validity of the broadcast with finish: when all parties
  follow the code, everything they send and output is the
  broadcaster's input.

  Main declarations:
    * `Faithful`
    * `faithful`
    * `outputs_eq_input`
-/

------------------------------------------------------------
-- Runs without Byzantine Parties
------------------------------------------------------------

namespace Jumbo

namespace ReliableBroadcast

open Protocol

variable {n : Nat}

/- A follower holds nothing but one value. -/
structure FollowerFaithful
    (input : Bytes) (bcf : BCF) : Prop where
  readysignal : ∀ v ∈ bcf.readysignal, v = input
  output1signal : ∀ v ∈ bcf.output1signal, v = input
  output2signal : ∀ v ∈ bcf.output2signal, v = input
  output1 : ∀ v ∈ bcf.output1, v = input
  output2 : ∀ v ∈ bcf.output2, v = input

/- Only the input of the leader is sent and put out. -/
structure Faithful
    (cfg : Config n) (s : State n) : Prop where
  sent : ∀ x ∈ s.log.sent, x.msg.root = cfg.input
  leader :
    ∀ v ∈ s.leader.output1 ++ s.leader.output2,
      v = cfg.input
  follower :
    ∀ p, FollowerFaithful cfg.input (s.follower p)

/- A channel of one value stays so when it gets that value. -/
theorem push_faithful
    {input root : Bytes} {channel channel' : List Bytes}
    {fires : Bool}
    (hChannel : ∀ v ∈ channel, v = input)
    (hRoot : root = input)
    (hPush :
      push 2 channel (if fires then some root else none) =
        some channel') :
    ∀ v ∈ channel', v = input := by
  rcases push_eq_some hPush with ⟨rfl, _⟩
  intro v hv
  rcases List.mem_append.mp hv with hOld | hNew
  · exact hChannel v hOld
  · split at hNew
    · rw [List.mem_singleton.mp hNew]
      exact hRoot
    · cases hNew

/- A follower passes the input on. -/
theorem FollowerFaithful.step
    {cfg : Config n} {p : Fin n} {bcf bcf' : BCF}
    {m : Option (RBCMsg n)} {ms : List (RBCMsg n)}
    (hFaithful : FollowerFaithful cfg.input bcf)
    (hStep : FollowerStep cfg p bcf m bcf' ms)
    (hRead : ∀ m', m = some m' → m'.root = cfg.input) :
    FollowerFaithful cfg.input bcf' ∧
      ∀ m' ∈ ms, m'.root = cfg.input := by
  cases hStep with
  | sendReady value rest _ hSignal =>
      have hReady := hFaithful.readysignal
      rw [hSignal] at hReady
      refine ⟨{ hFaithful with readysignal := ?_ }, ?_⟩
      · intro v hv
        exact hReady v (List.mem_cons_of_mem _ hv)
      · intro m' hm'
        rw [List.mem_singleton.mp hm']
        exact hReady value List.mem_cons_self
  | forward1 value rest hSignal =>
      have hOut := hFaithful.output1signal
      rw [hSignal] at hOut
      refine
        ⟨{ hFaithful with
            output1signal := ?_
            output1 := ?_ }, by simp⟩
      · intro v hv
        exact hOut v (List.mem_cons_of_mem _ hv)
      · intro v hv
        rcases List.mem_append.mp hv with hOld | hNew
        · exact hFaithful.output1 v hOld
        · rw [List.mem_singleton.mp hNew]
          exact hOut value List.mem_cons_self
  | forward2 value rest hSignal =>
      have hOut := hFaithful.output2signal
      rw [hSignal] at hOut
      refine
        ⟨{ hFaithful with
            output2signal := ?_
            output2 := ?_ }, by simp⟩
      · intro v hv
        exact hOut v (List.mem_cons_of_mem _ hv)
      · intro v hv
        rcases List.mem_append.mp hv with hOld | hNew
        · exact hFaithful.output2 v hOld
        · rw [List.mem_singleton.mp hNew]
          exact hOut value List.mem_cons_self
  | val m' =>
      refine ⟨hFaithful, ?_⟩
      intro m'' hm''
      rw [List.mem_singleton.mp hm'']
      exact hRead m' rfl
  | echo m' readysignal _ _ hPush =>
      have hRoot := hRead m' rfl
      refine ⟨{ hFaithful with readysignal := ?_ }, by simp⟩
      simp only [HandleEcho.read] at hPush
      rcases push_eq_some hPush with ⟨rfl, _⟩
      intro v hv
      rcases List.mem_append.mp hv with hOld | hNew
      · exact hFaithful.readysignal v hOld
      · split at hNew
        · rw [List.mem_singleton.mp hNew]
          exact hRoot
        · cases hNew
  | ready m' readysignal output1signal _ _ hRelay hDeliver =>
      have hRoot := hRead m' rfl
      refine
        ⟨{ hFaithful with
            readysignal :=
              push_faithful hFaithful.readysignal hRoot
                hRelay
            output1signal :=
              push_faithful hFaithful.output1signal hRoot
                hDeliver }, ?_⟩
      intro m'' hm''
      split at hm''
      · rw [List.mem_singleton.mp hm'']
        exact hRoot
      · cases hm''
  | finish m' output2signal _ _ hDeliver =>
      have hRoot := hRead m' rfl
      exact
        ⟨{ hFaithful with
            output2signal :=
              push_faithful hFaithful.output2signal hRoot
                hDeliver }, by simp⟩

/- The leader puts out its input. -/
theorem LeaderStep.outputs_faithful
    {cfg : Config n} {bcl bcl' : BCL}
    {m : Option (RBCMsg n)} {ms : List (RBCMsg n)}
    (hStep : LeaderStep cfg bcl m bcl' ms)
    (hOutputs :
      ∀ v ∈ bcl.output1 ++ bcl.output2, v = cfg.input) :
    (∀ v ∈ bcl'.output1 ++ bcl'.output2, v = cfg.input) ∧
      ∀ m' ∈ ms, m'.root = cfg.input := by
  cases hStep with
  | sendVal | sendEcho | sendReady =>
      refine ⟨hOutputs, ?_⟩
      intro m' hm'
      rw [List.mem_singleton.mp hm']
      rfl
  | forward1 | forward2 =>
      refine ⟨?_, by simp⟩
      intro v hv
      by_cases hEq : v = cfg.input
      · exact hEq
      · apply hOutputs v
        simpa [hEq] using hv
  | echo | finish => exact ⟨hOutputs, by simp⟩
  | ready =>
      refine ⟨hOutputs, ?_⟩
      intro m' hm'
      split at hm'
      · rw [List.mem_singleton.mp hm']
        rfl
      · cases hm'

section Change

variable {cfg : Config n} {byz : Finset (Fin n)}
variable {s s' : State n} {a : Action n}

/- A message that is read is in the log. -/
theorem waits_root
    {p : Fin n} {position : Option Nat}
    {m : Option (RBCMsg n)}
    (hFaithful : Faithful cfg s)
    (hWaits : s.Waits p position m) :
    ∀ m', m = some m' → m'.root = cfg.input := by
  rintro m' rfl
  cases position with
  | none => cases hWaits
  | some i =>
      rcases hWaits with ⟨packet, hMsg, _, _, rfl⟩
      exact hFaithful.sent packet (List.mem_of_getElem? hMsg)

/- Every step keeps this. -/
theorem Faithful.change
    (hFaithful : Faithful cfg s)
    (hChange : Change cfg ∅ s a s') :
    Faithful cfg s' := by
  have hSent :
      ∀ (t : State n) (p : Fin n) (ms : List (RBCMsg n)),
        t.log.sent = s.log.sent →
          (∀ m ∈ ms, m.root = cfg.input) →
            ∀ x ∈ (t.broadcast p ms).log.sent,
              x.msg.root = cfg.input := by
    intro t p ms hOld hNew x hx
    rw [broadcast_sent, hOld] at hx
    rcases List.mem_append.mp hx with h | h
    · exact hFaithful.sent x h
    · rcases List.mem_map.mp h with ⟨m, hm, rfl⟩
      exact hNew m hm
  cases hChange with
  | forge packet hId => exact absurd hId (by simp)
  | advance | closeval | panic =>
      exact
        ⟨hFaithful.sent, hFaithful.leader,
          hFaithful.follower⟩
  | leader a m bcl ms _ _ _ hStep =>
      rcases hStep.outputs_faithful hFaithful.leader with
        ⟨hOutputs, hRoots⟩
      refine
        ⟨hSent _ _ _ (afterRead_sent s _ a.position) hRoots,
          hOutputs, ?_⟩
      intro p
      have hSame :
          (s.afterRead cfg.lid a.position).follower p =
            s.follower p := by
        cases a.position <;> rfl
      change FollowerFaithful cfg.input
        ((s.afterRead cfg.lid a.position).follower p)
      rw [hSame]
      exact hFaithful.follower p
  | follower a p m bcf ms _ _ hWaits _ hStep =>
      rcases (hFaithful.follower p).step hStep
          (waits_root hFaithful hWaits) with ⟨hBcf, hRoots⟩
      refine
        ⟨hSent _ _ _ (afterRead_sent s _ a.position) hRoots,
          ?_, ?_⟩
      · have hSame :
            (s.afterRead p a.position).leader = s.leader := by
          cases a.position <;> rfl
        change ∀ v ∈
          (s.afterRead p a.position).leader.output1 ++
            (s.afterRead p a.position).leader.output2, _
        rw [hSame]
        exact hFaithful.leader
      · intro q
        by_cases hEq : q = p
        · subst hEq
          simpa [State.broadcast, State.setFollower] using
            hBcf
        · have hSame :
              (((s.afterRead p a.position).setFollower p
                bcf).broadcast p ms).follower q =
                  s.follower q := by
            cases a.position <;>
              simp [State.broadcast, State.setFollower,
                State.afterRead, hEq]
          rw [hSame]
          exact hFaithful.follower q

end Change

/- It holds in every run without faults. -/
theorem faithful
    {cfg : Config n} {s : State n}
    (hReach : (machine n cfg ∅).Reachable s) :
    Faithful cfg s := by
  refine hReach.invariant (Faithful cfg) ?_ ?_
  · refine ⟨by simp [machine, State.init], ?_, ?_⟩
    · simp [machine, State.init, BCL.new]
    · intro p
      constructor <;> simp [machine, State.init, BCF.new]
  · intro s a s' _ hFaithful hExec
    exact hFaithful.change (exec_change hExec)

/- Outputs are the broadcaster's input. -/
theorem outputs_eq_input
    {cfg : Config n} {s : State n}
    (hReach : (machine n cfg ∅).Reachable s)
    {p : Fin n} {v : Bytes}
    (hOutput : v ∈ s.outputs cfg p) :
    v = cfg.input := by
  have hFaithful := faithful hReach
  unfold State.outputs at hOutput
  split at hOutput
  · exact hFaithful.leader v hOutput
  · rcases List.mem_append.mp hOutput with h | h
    · exact (hFaithful.follower p).output1 v h
    · exact (hFaithful.follower p).output2 v h

end ReliableBroadcast

end Jumbo
