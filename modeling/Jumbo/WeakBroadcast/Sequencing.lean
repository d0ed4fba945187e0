import Mathlib.Data.List.Sort
import Jumbo.Lib.Machine
import Jumbo.WeakBroadcast.Basic

/-
  How a follower of the weak reliable broadcast puts values
  and decisions together.

  Values are kept in the order of their rounds, decisions in
  the order in which they come. Only the first value and the
  first decision are compared: a second value of a round, or
  one of a negative round, stays in front for ever. Each
  value that comes is echoed once, so a second one means a
  second echo.

  Main declarations:
    * `HandleVal`
    * `follower`
    * `Sequenced`
    * `Ordered`
    * `ordered`
    * `sequenced`
-/

------------------------------------------------------------
-- The Handler of VAL Messages
------------------------------------------------------------

namespace Jumbo

namespace WeakBroadcast

open Protocol
open ReliableBroadcast (Bytes)

/- A VAL message, whoever sent it. -/
structure Val where
  round : Int
  value : Bytes
deriving DecidableEq, Repr

/- What `Start` says about a round it has decided. -/
structure Roundinfo where
  height : Int
  valuehash : Bytes
deriving DecidableEq, Repr

/- The `RawBC` of an output. -/
structure BackBlock where
  height : Int
  leader : Int32
  k : Int32
  txcount : Nat
deriving DecidableEq, Repr

/- The hash, the leader and its instance. -/
structure Config where
  sha256 : Bytes → Bytes
  lid : Int32
  sid : Int32

/- What `send_echo` sends for a value. -/
def Config.echo (cfg : Config) (val : Val) : Int × Bytes :=
  (val.round, cfg.sha256 val.value)

/- The output for a value that was decided. -/
def Config.backBlock
    (cfg : Config) (val : Val) (roundinfo : Roundinfo) :
    BackBlock where
  height := roundinfo.height
  leader := cfg.lid
  k := cfg.sid
  txcount := val.value.length / 250

/- The local variables of `handle_val`, and what it sends. -/
structure HandleVal where
  valbuf : List Val
  roundinfobuf : List Roundinfo
  lastheight : Int
  echoes : List (Int × Bytes)
  output : List BackBlock
deriving DecidableEq, Repr

namespace HandleVal

/- Nothing has come. -/
def new : HandleVal where
  valbuf := []
  roundinfobuf := []
  lastheight := -1
  echoes := []
  output := []

/- The loop that compares the first value and decision. -/
def matching (cfg : Config) :
    List Val → List Roundinfo → List BackBlock →
      Option (List Val × List Roundinfo × List BackBlock)
| val :: valbuf, roundinfo :: roundinfobuf, output =>
    if val.round = roundinfo.height then
      if cfg.sha256 val.value = roundinfo.valuehash then
        matching cfg valbuf roundinfobuf
          (output ++ [cfg.backBlock val roundinfo])
      else none
    else some (val :: valbuf, roundinfo :: roundinfobuf, output)
| valbuf, roundinfobuf, output =>
    some (valbuf, roundinfobuf, output)

/- The matching loop; a wrong hash ends the process. -/
def generate
    (cfg : Config) (g : HandleVal) : Option HandleVal :=
  (matching cfg g.valbuf g.roundinfobuf g.output).map
    fun (valbuf, roundinfobuf, output) =>
      { g with
        valbuf := valbuf
        roundinfobuf := roundinfobuf
        output := output }

/- The loop over the values buffered for a round. -/
def echoRound (cfg : Config) (round : Int) :
    List Val → List (Int × Bytes)
| [] => []
| val :: valbuf =>
    if val.round = round then
      (round, cfg.sha256 val.value) ::
        echoRound cfg round valbuf
    else if round < val.round then []
    else echoRound cfg round valbuf

/- One message from `valCH`. -/
def readVal
    (cfg : Config) (g : HandleVal) (val : Val) :
    Option HandleVal :=
  { g with
    echoes :=
      if val.round ≤ g.lastheight + 1 then
        g.echoes ++ [cfg.echo val]
      else g.echoes
    valbuf :=
      (g.valbuf ++ [val]).insertionSort
        fun x y => x.round ≤ y.round }.generate cfg

/- One message from `roundinfoCH`. -/
def readRoundinfo
    (cfg : Config) (g : HandleVal) (roundinfo : Roundinfo) :
    Option HandleVal :=
  { g with
    roundinfobuf := g.roundinfobuf ++ [roundinfo]
    lastheight := roundinfo.height
    echoes :=
      g.echoes ++
        echoRound cfg (roundinfo.height + 1) g.valbuf
    }.generate cfg

end HandleVal

/-
  The follower, with the values that have been read and the
  hashes that have been decided so far.
-/
structure Follower where
  val : HandleVal
  vals : List Val
  decided : List Bytes
deriving DecidableEq, Repr

/- A value comes, or a round is decided. -/
inductive Action where
| val (val : Val)
| decide (valuehash : Bytes)

/- `Start` decides the rounds one after the other. -/
def Follower.exec (cfg : Config) (s : Follower) :
    Action → Option Follower
| .val val =>
    (s.val.readVal cfg val).map fun g =>
      { s with
        val := g
        vals := s.vals ++ [val] }
| .decide valuehash =>
    (s.val.readRoundinfo cfg
      ⟨s.decided.length, valuehash⟩).map fun g =>
      { s with
        val := g
        decided := s.decided ++ [valuehash] }

/- The handler of values as a machine. -/
def follower (cfg : Config) : Machine Follower Action where
  init := ⟨HandleVal.new, [], []⟩
  exec := Follower.exec cfg

/- The first value of its round, and not of a negative one. -/
def first (s : Follower) : Action → Bool
| .val val =>
    decide (0 ≤ val.round) &&
      decide (val.round ∉ s.vals.map (·.round))
| .decide _ => true

/-
  Outputs are in order; a round is echoed once when its
  value has come and the round before is decided, and not
  before; what can be put out has been put out.
-/
structure Sequenced (cfg : Config) (s : Follower) : Prop where
  output :
    s.val.output.map (·.height) =
      (List.range s.val.output.length).map Nat.cast
  echoed :
    ∀ r : Int,
      (s.val.echoes.map Prod.fst).count r =
        if r ∈ s.vals.map (·.round) ∧ r ≤ s.decided.length
        then 1 else 0
  complete :
    ∀ h < s.decided.length,
      (∀ i ≤ h, ∃ val ∈ s.vals, val.round = (i : Nat) ∧
        s.decided[i]? = some (cfg.sha256 val.value)) →
        h < s.val.output.length

end WeakBroadcast

end Jumbo

------------------------------------------------------------
-- What the Loops Do
------------------------------------------------------------

namespace Jumbo

namespace WeakBroadcast

open ReliableBroadcast (Bytes)

/- The buffer is in the order of the rounds. -/
def ByRound (valbuf : List Val) : Prop :=
  valbuf.Pairwise fun x y => x.round ≤ y.round

/- The first value does not belong to the first decision. -/
def Unmatched
    (valbuf : List Val) (roundinfobuf : List Roundinfo) :
    Prop :=
  ∀ val roundinfo, valbuf.head? = some val →
    roundinfobuf.head? = some roundinfo →
      val.round ≠ roundinfo.height

namespace HandleVal

section Loops

variable {cfg : Config}
variable {valbuf valbuf' : List Val}
variable {roundinfobuf roundinfobuf' : List Roundinfo}
variable {output output' : List BackBlock}

/- As many values as decisions are taken from the front. -/
theorem matching_eq_some
    (hMatching :
      matching cfg valbuf roundinfobuf output =
        some (valbuf', roundinfobuf', output')) :
    Unmatched valbuf' roundinfobuf' ∧
      ∃ done infos,
        valbuf = done ++ valbuf' ∧
          roundinfobuf = infos ++ roundinfobuf' ∧
            done.map (·.round) = infos.map (·.height) ∧
              output'.map (·.height) =
                output.map (·.height) ++
                  infos.map (·.height) := by
  fun_induction matching cfg valbuf roundinfobuf output with
  | case1 val valbuf roundinfo roundinfobuf output hRound hHash
      ih =>
      rcases ih hMatching with
        ⟨hUnmatched, done, infos, rfl, rfl, hSame, hOutput⟩
      refine
        ⟨hUnmatched, val :: done, roundinfo :: infos, rfl, rfl,
          ?_, ?_⟩
      · rw [List.map_cons, List.map_cons, hSame, hRound]
      · rw [hOutput, List.map_append, List.map_cons,
          List.append_assoc]
        rfl
  | case2 => cases hMatching
  | case3 val valbuf roundinfo roundinfobuf output hRound =>
      cases hMatching
      refine ⟨?_, [], [], rfl, rfl, rfl, ?_⟩
      · intro val' roundinfo' hVal hInfo
        cases hVal
        cases hInfo
        exact hRound
      · rw [List.map_nil, List.append_nil]
  | case4 valbuf roundinfobuf output hNone =>
      cases hMatching
      refine ⟨?_, [], [], rfl, rfl, rfl, ?_⟩
      · intro val roundinfo hVal hInfo
        rcases List.head?_eq_some_iff.mp hVal with ⟨rest, rfl⟩
        rcases List.head?_eq_some_iff.mp hInfo with
          ⟨infos, rfl⟩
        exact (hNone val rest roundinfo infos rfl rfl).elim
      · rw [List.map_nil, List.append_nil]

/- In a sorted buffer the loop finds all of a round. -/
theorem echoRound_eq
    (hSorted : ByRound valbuf) (round : Int) :
    echoRound cfg round valbuf =
      (valbuf.filter (·.round = round)).map cfg.echo := by
  induction valbuf with
  | nil => rfl
  | cons val valbuf ih =>
      have hCons := List.pairwise_cons.mp hSorted
      unfold echoRound
      by_cases hEq : val.round = round
      · rw [if_pos hEq, ih hCons.2,
          List.filter_cons_of_pos (by simpa using hEq),
          List.map_cons]
        unfold Config.echo
        rw [hEq]
      · rw [if_neg hEq,
          List.filter_cons_of_neg (by simpa using hEq)]
        by_cases hLt : round < val.round
        · have hNone :
              valbuf.filter (·.round = round) = [] := by
            rw [List.filter_eq_nil_iff]
            intro other hMem
            have hLe := hCons.1 other hMem
            simp only [decide_eq_true_eq]
            omega
          rw [if_pos hLt, hNone]
          rfl
        · rw [if_neg hLt, ih hCons.2]

end Loops

end HandleVal

end WeakBroadcast

end Jumbo

------------------------------------------------------------
-- Every Run
------------------------------------------------------------

namespace Jumbo

namespace WeakBroadcast

open Protocol
open ReliableBroadcast (Bytes)

instance : Std.Total fun x y : Val => x.round ≤ y.round :=
  ⟨fun x y => le_total x.round y.round⟩

instance : IsTrans Val fun x y => x.round ≤ y.round :=
  ⟨fun _ _ _ => le_trans⟩

/- The round before the value's is among the decided ones. -/
def due (decided : Nat) (val : Val) : Bool :=
  decide (val.round ≤ decided)

/- The value is due as soon as one more round is decided. -/
def dueNext (decided : Nat) (val : Val) : Bool :=
  decide (val.round = decided + 1)

/-
  What holds in every run: the decisions are put out or
  wait, in their order; the values have been put out or
  wait; every value whose round has come has been echoed
  once.
-/
structure Ordered (cfg : Config) (s : Follower) : Prop where
  lastheight : s.val.lastheight + 1 = s.decided.length
  sorted : ByRound s.val.valbuf
  unmatched : Unmatched s.val.valbuf s.val.roundinfobuf
  heights :
    s.val.output.map (·.height) ++
        s.val.roundinfobuf.map (·.height) =
      (List.range s.decided.length).map Nat.cast
  vals :
    ∃ done,
      s.vals.Perm (done ++ s.val.valbuf) ∧
        done.map (·.round) = s.val.output.map (·.height)
  echoes :
    s.val.echoes.Perm
      ((s.vals.filter (due s.decided.length)).map cfg.echo)

section Ordered

variable {cfg : Config} {s s' : Follower}

/- What the matching loop leaves as it is. -/
theorem HandleVal.generate_eq_some
    {g g' : HandleVal}
    (hGenerate : g.generate cfg = some g') :
    g'.lastheight = g.lastheight ∧ g'.echoes = g.echoes ∧
      Unmatched g'.valbuf g'.roundinfobuf ∧
        ∃ done infos,
          g.valbuf = done ++ g'.valbuf ∧
            g.roundinfobuf = infos ++ g'.roundinfobuf ∧
              done.map (·.round) = infos.map (·.height) ∧
                g'.output.map (·.height) =
                  g.output.map (·.height) ++
                    infos.map (·.height) := by
  rcases Option.map_eq_some_iff.mp hGenerate with
    ⟨⟨valbuf, roundinfobuf, output⟩, hMatching, rfl⟩
  exact ⟨rfl, rfl, matching_eq_some hMatching⟩

/- Reading a value keeps the order. -/
theorem Ordered.val
    {val : Val}
    (hOrdered : Ordered cfg s)
    (hExec : Follower.exec cfg s (.val val) = some s') :
    Ordered cfg s' := by
  rcases Option.map_eq_some_iff.mp hExec with ⟨g, hRead, rfl⟩
  rcases HandleVal.generate_eq_some hRead with
    ⟨hLast, hEchoes, hUnmatched, done, infos, hValbuf, hInfos,
      hSame, hOutput⟩
  rcases hOrdered.vals with ⟨before, hVals, hDone⟩
  dsimp only at hLast hEchoes hValbuf hInfos hOutput
  have hSort :=
    List.perm_insertionSort
      (fun x y : Val => x.round ≤ y.round) (s.val.valbuf ++ [val])
  have hSorted : ByRound (done ++ g.valbuf) := by
    rw [← hValbuf]
    exact List.pairwise_insertionSort _ _
  rw [hValbuf] at hSort
  refine
    ⟨?_, (List.pairwise_append.mp hSorted).2.1, hUnmatched, ?_,
      ⟨before ++ done, ?_, ?_⟩, ?_⟩
  · rw [hLast]
    exact hOrdered.lastheight
  · rw [hOutput, List.append_assoc, ← List.map_append,
      ← hInfos]
    exact hOrdered.heights
  · rw [List.append_assoc]
    have hAppend : (s.vals ++ [val]).Perm
        (before ++ (s.val.valbuf ++ [val])) := by
      rw [← List.append_assoc]
      exact hVals.append_right _
    exact hAppend.trans (hSort.symm.append_left _)
  · rw [List.map_append, hDone, hSame, hOutput]
  · dsimp only
    rw [hEchoes, hOrdered.lastheight, List.filter_append,
      List.map_append]
    by_cases hLe : val.round ≤ s.decided.length
    · rw [if_pos hLe,
        @List.filter_cons_of_pos _ (due s.decided.length) _ _
          (decide_eq_true hLe)]
      exact hOrdered.echoes.append_right _
    · rw [if_neg hLe,
        @List.filter_cons_of_neg _ (due s.decided.length) _ _
          (by simpa [due] using hLe),
        List.filter_nil, List.map_nil, List.append_nil]
      exact hOrdered.echoes

/- No value of the next round has been taken out. -/
theorem Ordered.filter_perm
    (hOrdered : Ordered cfg s) :
    (s.vals.filter (dueNext s.decided.length)).Perm
      (s.val.valbuf.filter (dueNext s.decided.length)) := by
  rcases hOrdered.vals with ⟨done, hVals, hDone⟩
  have hNone : done.filter (dueNext s.decided.length) = [] := by
    rw [List.filter_eq_nil_iff]
    intro val hMem
    have hHeight :
        val.round ∈ s.val.output.map (·.height) ++
          s.val.roundinfobuf.map (·.height) := by
      rw [← hDone]
      exact
        List.mem_append_left _
          (List.mem_map_of_mem hMem)
    rw [hOrdered.heights] at hHeight
    rcases List.mem_map.mp hHeight with ⟨i, hi, hEq⟩
    have hLt := List.mem_range.mp hi
    unfold dueNext
    rw [decide_eq_true_eq]
    omega
  have hPerm := hVals.filter (dueNext s.decided.length)
  rw [List.filter_append, hNone, List.nil_append] at hPerm
  exact hPerm

/- With one more decision one more round is due. -/
theorem filter_due_succ
    (d : Nat) (vals : List Val) :
    (vals.filter (due (d + 1))).Perm
      (vals.filter (due d) ++ vals.filter (dueNext d)) := by
  have hSplit :=
    List.filter_append_perm (due d) (vals.filter (due (d + 1)))
  rw [List.filter_filter, List.filter_filter] at hSplit
  have hOld :
      (vals.filter fun val => due d val && due (d + 1) val) =
        vals.filter (due d) := by
    apply List.filter_congr
    intro val _
    unfold due
    rw [Bool.eq_iff_iff, Bool.and_eq_true, decide_eq_true_eq,
      decide_eq_true_eq]
    push_cast
    omega
  have hNew :
      (vals.filter fun val => !due d val && due (d + 1) val) =
        vals.filter (dueNext d) := by
    apply List.filter_congr
    intro val _
    unfold due dueNext
    rw [Bool.eq_iff_iff, Bool.and_eq_true, Bool.not_eq_true',
      decide_eq_false_iff_not, decide_eq_true_eq,
      decide_eq_true_eq]
    push_cast
    omega
  rw [hOld, hNew] at hSplit
  exact hSplit.symm

/- A decision keeps the order. -/
theorem Ordered.decide
    {valuehash : Bytes}
    (hOrdered : Ordered cfg s)
    (hExec :
      Follower.exec cfg s (.decide valuehash) = some s') :
    Ordered cfg s' := by
  rcases Option.map_eq_some_iff.mp hExec with ⟨g, hRead, rfl⟩
  rcases HandleVal.generate_eq_some hRead with
    ⟨hLast, hEchoes, hUnmatched, done, infos, hValbuf, hInfos,
      hSame, hOutput⟩
  rcases hOrdered.vals with ⟨before, hVals, hDone⟩
  dsimp only at hLast hEchoes hValbuf hInfos hOutput
  have hSorted := hOrdered.sorted
  rw [HandleVal.echoRound_eq hSorted] at hEchoes
  rw [hValbuf] at hSorted hVals
  have hLength :
      (s.decided ++ [valuehash]).length =
        s.decided.length + 1 :=
    List.length_append
  refine
    ⟨?_, (List.pairwise_append.mp hSorted).2.1, hUnmatched, ?_,
      ⟨before ++ done, ?_, ?_⟩, ?_⟩
  · rw [hLast, hLength]
    push_cast
    rfl
  · rw [hOutput, List.append_assoc, ← List.map_append,
      ← hInfos, hLength, List.range_succ, List.map_append,
      List.map_append, ← List.append_assoc, hOrdered.heights]
    rfl
  · rw [List.append_assoc]
    exact hVals
  · rw [List.map_append, hDone, hSame, hOutput]
  · rw [hEchoes, hLength]
    refine
      List.Perm.trans ?_
        ((filter_due_succ s.decided.length s.vals).map _).symm
    rw [List.map_append]
    exact
      hOrdered.echoes.append (hOrdered.filter_perm.map _).symm

/- In every run the outputs are in order. -/
theorem ordered
    (hReach : (follower cfg).Reachable s) :
    Ordered cfg s := by
  refine hReach.invariant (Ordered cfg) ?_ ?_
  · refine
      ⟨rfl, List.Pairwise.nil, nofun, rfl,
        ⟨[], List.Perm.refl _, rfl⟩, List.Perm.refl _⟩
  · intro s a s' _ hOrdered hExec
    cases a with
    | val val => exact hOrdered.val hExec
    | decide valuehash => exact hOrdered.decide hExec

end Ordered

end WeakBroadcast

end Jumbo

------------------------------------------------------------
-- One Value a Round
------------------------------------------------------------

namespace Jumbo

namespace WeakBroadcast

open Protocol
open ReliableBroadcast (Bytes)

/- No round has two values, and none is negative. -/
structure OnePerRound (s : Follower) : Prop where
  nodup : (s.vals.map (·.round)).Nodup
  nonneg : ∀ val ∈ s.vals, 0 ≤ val.round

section Sequenced

variable {cfg : Config} {s : Follower}

/- With the guard each round has one value. -/
theorem onePerRound
    (hReach :
      (follower cfg).ReachableBy (fun s a => first s a = true)
        s) :
    OnePerRound s := by
  refine hReach.invariant OnePerRound ?_ ?_
  · exact ⟨List.nodup_nil, List.forall_mem_nil _⟩
  · intro s a s' _ hOne hFirst hExec
    cases a with
    | val val =>
        rcases Option.map_eq_some_iff.mp hExec with ⟨g, _, rfl⟩
        unfold first at hFirst
        rw [Bool.and_eq_true, decide_eq_true_eq,
          decide_eq_true_eq] at hFirst
        refine ⟨?_, ?_⟩
        · rw [List.map_append]
          exact
            List.nodup_append.mpr
              ⟨hOne.nodup, List.nodup_singleton _,
                fun r hr r' hr' => by
                  cases List.mem_singleton.mp hr'
                  rintro rfl
                  exact hFirst.2 hr⟩
        · intro other hMem
          rcases List.mem_append.mp hMem with hOld | hNew
          · exact hOne.nonneg other hOld
          · cases List.mem_singleton.mp hNew
            exact hFirst.1
    | decide valuehash =>
        rcases Option.map_eq_some_iff.mp hExec with ⟨g, _, rfl⟩
        exact ⟨hOne.nodup, hOne.nonneg⟩

/- Outputs are in order, whatever comes. -/
theorem Ordered.output
    (hOrdered : Ordered cfg s) :
    s.val.output.length ≤ s.decided.length ∧
      s.val.output.map (·.height) =
        (List.range s.val.output.length).map Nat.cast := by
  have hLength := congrArg List.length hOrdered.heights
  have hTake :=
    congrArg (List.take s.val.output.length) hOrdered.heights
  rw [List.length_append, List.length_map, List.length_map,
    List.length_map, List.length_range] at hLength
  have hLe : s.val.output.length ≤ s.decided.length := by omega
  rw [List.take_left' (List.length_map _), ← List.map_take,
    List.take_range, Nat.min_eq_left hLe] at hTake
  exact ⟨hLe, hTake⟩

/- The first decision that waits is the next one. -/
theorem Ordered.waiting
    (hOrdered : Ordered cfg s)
    (hLt : s.val.output.length < s.decided.length) :
    ∃ roundinfo, s.val.roundinfobuf.head? = some roundinfo ∧
      roundinfo.height = s.val.output.length := by
  have hAt :=
    congrArg (fun heights => heights[s.val.output.length]?)
      hOrdered.heights
  rw [List.getElem?_append_right (List.length_map _).le,
    List.length_map, Nat.sub_self, List.getElem?_map,
    List.getElem?_map, List.getElem?_range hLt] at hAt
  rcases Option.map_eq_some_iff.mp hAt with
    ⟨roundinfo, hInfo, hHeight⟩
  exact ⟨roundinfo, List.head?_eq_getElem?.trans hInfo, hHeight⟩

/-
  With one value a round the first value in the buffer is the
  one of the next output, once it has come.
-/
theorem Ordered.first_value
    (hOrdered : Ordered cfg s)
    (hOne : OnePerRound s)
    {val : Val} (hMem : val ∈ s.vals)
    (hRound : val.round = s.val.output.length) :
    ∃ other, s.val.valbuf.head? = some other ∧
      other.round = s.val.output.length := by
  rcases hOrdered.vals with ⟨done, hVals, hDone⟩
  rw [hOrdered.output.2] at hDone
  have hRounds : ((done ++ s.val.valbuf).map (·.round)).Nodup :=
    (hVals.map _).nodup_iff.mp hOne.nodup
  rw [List.map_append] at hRounds
  have hApart := (List.nodup_append.mp hRounds).2.2
  have hWaits : val ∈ s.val.valbuf := by
    rcases List.mem_append.mp (hVals.mem_iff.mp hMem) with
      hOut | hIn
    · have hHeight : val.round ∈ done.map (·.round) :=
        List.mem_map_of_mem hOut
      rw [hDone] at hHeight
      rcases List.mem_map.mp hHeight with ⟨i, hi, hEq⟩
      have hLt := List.mem_range.mp hi
      omega
    · exact hIn
  cases hBuffer : s.val.valbuf with
  | nil =>
      rw [hBuffer] at hWaits
      cases hWaits
  | cons other rest =>
      have hSorted := hOrdered.sorted
      rw [hBuffer] at hWaits hSorted
      have hLe : other.round ≤ val.round := by
        rcases List.mem_cons.mp hWaits with rfl | hRest
        · exact le_refl _
        · exact (List.pairwise_cons.mp hSorted).1 val hRest
      have hIn : other ∈ s.val.valbuf := by
        rw [hBuffer]
        exact List.mem_cons_self
      have hNonneg :=
        hOne.nonneg other
          (hVals.mem_iff.mpr (List.mem_append_right _ hIn))
      refine ⟨other, rfl, ?_⟩
      by_contra hNe
      -- a lower round has been put out already
      have hOut : other.round ∈ done.map (·.round) := by
        rw [hDone]
        refine
          List.mem_map.mpr
            ⟨other.round.toNat, List.mem_range.mpr ?_, ?_⟩ <;>
          omega
      exact
        hApart other.round hOut other.round
          (List.mem_map_of_mem hIn) rfl

/-
  In every run in which each round has at most one value, and
  none is negative, outputs and echoes are in sequence and
  nothing is held back.
-/
theorem sequenced
    (hReach :
      (follower cfg).ReachableBy (fun s a => first s a = true)
        s) :
    Sequenced cfg s := by
  have hOrdered := ordered hReach.reachable
  have hOne := onePerRound hReach
  refine ⟨hOrdered.output.2, ?_, ?_⟩
  · intro r
    have hEchoed :
        (s.val.echoes.map Prod.fst).Perm
          ((s.vals.filter (due s.decided.length)).map
            (·.round)) := by
      have hMap := hOrdered.echoes.map Prod.fst
      rw [List.map_map] at hMap
      exact hMap
    have hNodup :
        ((s.vals.filter (due s.decided.length)).map
          (·.round)).Nodup :=
      (List.filter_sublist.map _).nodup hOne.nodup
    rw [hEchoed.count_eq, hNodup.count]
    apply if_congr _ rfl rfl
    rw [List.mem_map, List.mem_map]
    constructor
    · rintro ⟨val, hMem, rfl⟩
      rcases List.mem_filter.mp hMem with ⟨hVal, hDue⟩
      exact ⟨⟨val, hVal, rfl⟩, of_decide_eq_true hDue⟩
    · rintro ⟨⟨val, hVal, rfl⟩, hDue⟩
      exact
        ⟨val, List.mem_filter.mpr ⟨hVal, decide_eq_true hDue⟩,
          rfl⟩
  · intro h hDecided hVals
    by_contra hHeld
    have hLe : s.val.output.length ≤ h := by omega
    rcases hVals s.val.output.length hLe with
      ⟨val, hMem, hRound, _⟩
    rcases hOrdered.waiting (by omega) with
      ⟨roundinfo, hInfo, hHeight⟩
    rcases hOrdered.first_value hOne hMem hRound with
      ⟨other, hOther, hSame⟩
    exact
      hOrdered.unmatched other roundinfo hOther hInfo
        (hSame.trans hHeight.symm)

end Sequenced

------------------------------------------------------------
-- A Second Value
------------------------------------------------------------

/- A value is its own hash. -/
def plainConfig : Config := ⟨fun value => value, 1, 1⟩

/- A value of ten bytes, as the broadcaster sends it. -/
def tenBytes (b : UInt8) : Bytes := List.replicate 10 b

/- Values come early and the decisions catch up. -/
def catchUp : List Action :=
  [.val ⟨1, tenBytes 8⟩, .decide (tenBytes 7),
    .val ⟨0, tenBytes 7⟩, .decide (tenBytes 8)]

/- Both rounds are put out, in order. -/
theorem sequenced_catchUp :
    let s :=
      (follower plainConfig).drive first
        (follower plainConfig).init catchUp
    s.val.output.length = 2 ∧ Sequenced plainConfig s :=
  ⟨by decide +kernel,
    sequenced (Machine.ReachableBy.drive .init catchUp)⟩

/- The value of round 0 comes twice. -/
def twiceRun : List Action :=
  [.val ⟨0, tenBytes 7⟩, .val ⟨0, tenBytes 7⟩,
    .decide (tenBytes 7), .val ⟨1, tenBytes 8⟩,
    .decide (tenBytes 8)]

/- Where that run ends. -/
def twiceState : Follower :=
  (follower plainConfig).drive (fun _ _ => true)
    (follower plainConfig).init twiceRun

/- It is echoed twice and blocks round 1. -/
theorem not_sequenced :
    (follower plainConfig).Reachable twiceState ∧
      (twiceState.val.echoes.map Prod.fst).count 0 = 2 ∧
        twiceState.val.output.length = 1 ∧
          ¬ Sequenced plainConfig twiceState := by
  have hOutput : twiceState.val.output.length = 1 := by
    decide +kernel
  refine
    ⟨Machine.reachable_drive _ _, by decide +kernel, hOutput,
      ?_⟩
  intro hSequenced
  have hMissing :=
    hSequenced.complete 1 (by decide +kernel) (by decide +kernel)
  omega

end WeakBroadcast

end Jumbo
