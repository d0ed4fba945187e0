import Mathlib.Algebra.Order.Group.Nat
import Jumbo.CertifiedBroadcast.Arrival

/-
  Which blocks a follower asks the others for.

  A goroutine `sendcallhelp` for every early block puts it
  into the buffer, reads the height, takes a range of heights
  from `callhelp` and sends one request for each of them. The
  range starts at the highest block seen or at the height of
  the follower, and a range from 0 to 0 stands for nothing.
  The ranges do not meet. All that is missing is in one of
  them, unless the first early block is block 1 and comes
  while the follower waits for block 0.

  Main declarations:
    * `callhelpPut`
    * `Caller` and `caller`
    * `begins`
    * `CallerOk`
    * `missing_requested` and `missing_not_requested`
-/

------------------------------------------------------------
-- The Goroutines
------------------------------------------------------------

namespace Jumbo

namespace CertifiedBroadcast

open Protocol
open Struct

/- The range to ask for, and the highest block after it. -/
def callhelpPut
    (highest : Int) (block : BCBlock) (myheight : Int) :
    (Int × Int) × Int :=
  let height := FutureBuffer.height block
  if highest < height then
    if highest + 1 = height then ((0, 0), height)
    else
      ((if myheight < highest then highest else myheight,
        height - 1), height)
  else ((0, 0), highest)

/-
  Where `sendcallhelp` is, once its block is in the buffer;
  it reads the height before it waits for the lock.
-/
inductive Call where
| read (block : BCBlock)
| put (block : BCBlock) (myheight : Nat)
| send (block : BCBlock) (i last : Int)
| done (block : BCBlock)
deriving DecidableEq

/- A request for a height, and the parties it is sent to. -/
structure Request (n : Nat) where
  round : Int
  receivers : List (Fin n)

/- `ranges` are those that requests are sent for. -/
structure Caller (n : Nat) where
  bcf : BCF
  highest : Int
  calls : List Call
  ranges : List (Int × Int)
  sent : List (Request n)

/- A step of the follower or of a call for help. -/
inductive CallerAction where
| follow (a : FollowerAction)
| read (j : Nat)
| put (j : Nat)
| send (j : Nat) (randnum : Nat)

variable {n : Nat}

/- `threshold` parties from a random one on, but oneself. -/
def receivers (nid : Fin n) (randnum : Nat) : List (Fin n) :=
  ((List.range (n / 3 * 2 + 1)).map fun j =>
    (⟨(randnum + j) % n, Nat.mod_lt _ nid.pos⟩ : Fin n)).filter
      (· ≠ nid)

namespace Caller

/- No call has been started. -/
def new : Caller n where
  bcf := BCF.new
  highest := -1
  calls := []
  ranges := []
  sent := []

/- The goroutine that goes on once its block is buffered. -/
def started (bcf : BCF) : FollowerAction → List Call
| .called i => (bcf.calling[i]?.map Call.read).toList
| _ => []

/- What a call for help has come to. -/
def set (s : Caller n) (j : Nat) (call : Call) : Caller n :=
  { s with calls := s.calls.set j call }

/- The height is read, before `callhelp.put` is entered. -/
def read (s : Caller n) (j : Nat) : Option (Caller n) :=
  match s.calls[j]? with
  | some (.read block) =>
      some (s.set j (.put block s.bcf.height))
  | _ => none

/- A call notes the range that it is to ask for. -/
def put (s : Caller n) (j : Nat) : Option (Caller n) :=
  match s.calls[j]? with
  | some (.put block myheight) =>
      let (range, highest) :=
        callhelpPut s.highest block myheight
      if range = (0, 0) then
        some { s.set j (.done block) with highest := highest }
      else
        some
          { s.set j (.send block range.1 range.2) with
            highest := highest
            ranges := s.ranges ++ [range] }
  | _ => none

/- The next request of a range. -/
def send
    (nid : Fin n) (s : Caller n) (j randnum : Nat) :
    Option (Caller n) :=
  match s.calls[j]? with
  | some (.send block i last) =>
      if i ≤ last then
        some
          { s.set j (.send block (i + 1) last) with
            sent := s.sent ++ [⟨i, receivers nid randnum⟩] }
      else some (s.set j (.done block))
  | _ => none

/- A step of the follower or of one of the calls. -/
def exec
    (cfg : Config n) (nid : Fin n) (s : Caller n) :
    CallerAction → Option (Caller n)
| .follow a =>
    (s.bcf.exec cfg nid a).map fun bcf =>
      { s with
        bcf := bcf
        calls := s.calls ++ started s.bcf a }
| .read j => s.read j
| .put j => s.put j
| .send j randnum => s.send nid j randnum

end Caller

/- The follower with its calls for help as a machine. -/
def caller (cfg : Config n) (nid : Fin n) :
    Machine (Caller n) CallerAction where
  init := Caller.new
  exec := Caller.exec cfg nid

/-
  The first early block to ask for is not block 1, while the
  follower waits for block 0.
-/
def begins (s : Caller n) : CallerAction → Bool
| .put j =>
    match s.calls[j]? with
    | some (.put block _) =>
        !(decide (s.highest = -1) && decide (s.bcf.height = 0) &&
          decide (FutureBuffer.height block = 1))
    | _ => true
| _ => true

end CertifiedBroadcast

end Jumbo

------------------------------------------------------------
-- The Buffer
------------------------------------------------------------

namespace Jumbo

namespace CertifiedBroadcast

open Protocol
open Struct

namespace FutureBuffer

/- A block of this height is in the buffer. -/
def Has (fb : FutureBuffer) (k : Int) : Prop :=
  ∃ block ∈ fb.bcblocks, height block = k

/- The first block is not above the cached height. -/
structure Cached (fb : FutureBuffer) : Prop where
  sorted : SortedBuffer.Sorted height fb.bcblocks
  first_le :
    ∀ first rest, fb.bcblocks = first :: rest →
      height first ≤ fb.lowwest

section Cached

variable {lowwest : Int} {first block : BCBlock}
variable {rest bcblocks : List BCBlock} {fb : FutureBuffer}

/- The noted height follows the first block. -/
theorem Cached.after
    (hCached : Cached ⟨lowwest, first :: rest⟩) :
    Cached (FutureBuffer.after lowwest rest) where
  sorted := (List.pairwise_cons.mp hCached.sorted).2
  first_le := by
    rintro next rest' rfl
    exact Int.le_refl _

/- Only the first block is taken out. -/
theorem Has.after
    {k : Int} (hHas : Has ⟨lowwest, first :: rest⟩ k)
    (hNe : height first ≠ k) :
    Has (FutureBuffer.after lowwest rest) k := by
  rcases hHas with ⟨block, hMem, hHeight⟩
  rcases List.mem_cons.mp hMem with rfl | hMem
  · exact absurd hHeight hNe
  · exact ⟨block, hMem, hHeight⟩

/- Cleaning drops no block from the bound on. -/
theorem Cached.clean
    {bound : Nat} (hCached : Cached ⟨lowwest, bcblocks⟩) :
    Cached (clean bound lowwest bcblocks) ∧
      ∀ k : Int, bound ≤ k → Has ⟨lowwest, bcblocks⟩ k →
        Has (clean bound lowwest bcblocks) k := by
  induction bcblocks generalizing lowwest with
  | nil =>
      refine ⟨?_, ?_⟩
      · unfold FutureBuffer.clean
        split
        · refine ⟨List.Pairwise.nil, ?_⟩
          intro first rest hEq
          cases hEq
        · exact hCached
      · rintro k _ ⟨block, hMem, _⟩
        cases hMem
  | cons first rest ih =>
      unfold FutureBuffer.clean
      split
      · rename_i hBelow
        rcases ih hCached.after with ⟨hClean, hKeep⟩
        refine ⟨hClean, fun k hk hHas => ?_⟩
        have hFirst := hCached.first_le first rest rfl
        dsimp only at hFirst
        exact hKeep k hk (hHas.after (by omega))
      · exact ⟨hCached, fun _ _ hHas => hHas⟩

/- A block that is put is there, and the others stay. -/
theorem Cached.put
    (hCached : Cached fb) (block : BCBlock) :
    Cached (fb.put block) ∧ Has (fb.put block) (height block) ∧
      ∀ k, Has fb k → Has (fb.put block) k := by
  by_cases hNil : fb.bcblocks = []
  · have hPut : fb.put block = ⟨height block, [block]⟩ := by
      unfold FutureBuffer.put
      rw [hNil]
    rw [hPut]
    refine ⟨⟨List.pairwise_singleton _ _, ?_⟩, ?_, ?_⟩
    · intro first rest hEq
      cases hEq
      exact Int.le_refl _
    · exact ⟨block, List.mem_singleton_self _, rfl⟩
    · rintro k ⟨other, hMem, _⟩
      rw [hNil] at hMem
      cases hMem
  · rw [put_eq hCached.sorted hNil]
    refine ⟨⟨?_, ?_⟩, ?_, ?_⟩
    · exact SortedBuffer.insertNew_sorted hCached.sorted
    · intro first rest hEq
      cases hBlocks : fb.bcblocks with
      | nil => exact absurd hBlocks hNil
      | cons old olds =>
          have hOld := hCached.first_le old olds hBlocks
          have hNew :=
            SortedBuffer.insertNew_sorted (x := block)
              hCached.sorted
          have hMem :
              old ∈ SortedBuffer.insertNew height block
                fb.bcblocks := by
            apply SortedBuffer.mem_insertNew_of_mem
            rw [hBlocks]
            exact List.mem_cons_self
          dsimp only at hEq
          rw [hEq] at hNew hMem
          change height first ≤ fb.lowwest
          rcases List.mem_cons.mp hMem with rfl | hMem
          · exact hOld
          · have hLt := (List.pairwise_cons.mp hNew).1 old hMem
            omega
    · exact SortedBuffer.mem_insertNew_self_key height block _
    · rintro k ⟨other, hMem, hHeight⟩
      exact
        ⟨other, SortedBuffer.mem_insertNew_of_mem hMem,
          hHeight⟩

end Cached

end FutureBuffer

end CertifiedBroadcast

end Jumbo

------------------------------------------------------------
-- Steps of the Follower
------------------------------------------------------------

namespace Jumbo

namespace CertifiedBroadcast

open Protocol
open Struct

variable {n : Nat}

/- Blocks at or above the new height stay in the buffer. -/
structure Kept (bcf bcf' : BCF) : Prop where
  height : bcf.height ≤ bcf'.height
  cached : bcf'.futurebuffer.Cached
  has :
    ∀ k : Int, bcf'.height ≤ k → bcf.futurebuffer.Has k →
      bcf'.futurebuffer.Has k

section Kept

variable {cfg : Config n} {nid : Fin n} {bcf bcf' : BCF}
variable {block : BCBlock}

/- The buffer is all that matters. -/
theorem Kept.of_futurebuffer
    (hCached : bcf.futurebuffer.Cached)
    (hBuffer : bcf'.futurebuffer = bcf.futurebuffer)
    (hHeight : bcf.height ≤ bcf'.height) :
    Kept bcf bcf' where
  height := hHeight
  cached := by
    rw [hBuffer]
    exact hCached
  has := by
    intro k _ hHas
    rw [hBuffer]
    exact hHas

/- Putting a block keeps what waits. -/
theorem Kept.put
    (block : BCBlock)
    (hCached : bcf.futurebuffer.Cached)
    (hBuffer : bcf'.futurebuffer = bcf.futurebuffer.put block)
    (hHeight : bcf'.height = bcf.height) :
    Kept bcf bcf' ∧
      bcf'.futurebuffer.Has (FutureBuffer.height block) := by
  rcases hCached.put block with ⟨hPut, hHas, hKeep⟩
  rw [← hBuffer] at hPut hHas hKeep
  exact
    ⟨⟨Nat.le_of_eq hHeight.symm, hPut, fun k _ => hKeep k⟩,
      hHas⟩

/- What is kept twice is kept. -/
theorem Kept.trans
    {bcf₁ bcf₂ bcf₃ : BCF}
    (hFirst : Kept bcf₁ bcf₂) (hSecond : Kept bcf₂ bcf₃) :
    Kept bcf₁ bcf₃ where
  height := Nat.le_trans hFirst.height hSecond.height
  cached := hSecond.cached
  has := by
    intro k hk hHas
    have hLe := hSecond.height
    exact hSecond.has k hk (hFirst.has k (by omega) hHas)

/- A block at the height of the follower is accepted. -/
theorem handle_kept
    {isfuture : Bool}
    (hCached : bcf.futurebuffer.Cached)
    (hHandle :
      bcf.handle cfg nid isfuture block = some bcf') :
    Kept bcf bcf' ∧
      (block.rawBC.height = bcf.int32height →
        bcf'.height = bcf.height + 1) := by
  have hAccept :
      Kept bcf (bcf.generatepayback cfg nid block) := by
    refine .of_futurebuffer hCached ?_ ?_
    · exact BCF.generatepayback_futurebuffer cfg nid bcf block
    · rw [BCF.generatepayback_height]
      exact Nat.le_succ _
  have hNext :=
    BCF.generatepayback_height cfg nid bcf block
  unfold BCF.handle at hHandle
  split at hHandle
  · rename_i hLt
    cases hHandle
    refine ⟨.of_futurebuffer hCached rfl (Nat.le_refl _), ?_⟩
    intro hEq
    rw [hEq] at hLt
    exact (Int32.lt_irrefl hLt).elim
  split at hHandle
  · split at hHandle
    · rcases Option.ite_none_right_eq_some.mp hHandle with
        ⟨_, hEq⟩
      cases hEq
      exact ⟨hAccept, fun _ => hNext⟩
    · unfold BCF.check_bcblock at hHandle
      rcases Option.ite_none_right_eq_some.mp hHandle with
        ⟨_, hEq⟩
      cases hEq
      exact ⟨hAccept, fun _ => hNext⟩
  · rename_i hNot
    refine ⟨?_, fun hEq => absurd hEq hNot⟩
    rcases Option.ite_none_right_eq_some.mp hHandle with
      ⟨_, hHandle⟩
    split at hHandle
    · cases hHandle
      refine (Kept.put block hCached ?_ ?_).1
      · rfl
      · rfl
    · cases hHandle
      exact .of_futurebuffer hCached rfl (Nat.le_refl _)

/- Cleaning keeps what is not old. -/
theorem clean_kept
    (hCached : bcf.futurebuffer.Cached) :
    Kept bcf bcf.clean := by
  rcases @FutureBuffer.Cached.clean _ _ bcf.height
    hCached with
    ⟨hClean, hKeep⟩
  exact ⟨Nat.le_refl _, hClean, hKeep⟩

/- The block of a height, as the follower counts it. -/
theorem height_eq_int32height
    (hHeight : FutureBuffer.height block = bcf.height) :
    block.rawBC.height = bcf.int32height := by
  have hLt := block.rawBC.height.toInt_lt
  unfold FutureBuffer.height at hHeight
  apply Int32.toInt_inj.mp
  unfold BCF.int32height
  rw [Int32.toInt_ofNat_of_lt (by omega), hHeight]

/- The block found in the buffer is not above the height. -/
theorem next_kept
    (hCached : bcf.futurebuffer.Cached)
    (hNext : bcf.next cfg nid = some bcf') :
    Kept bcf bcf' := by
  have hClean := clean_kept hCached
  refine hClean.trans ?_
  unfold BCF.next at hNext
  generalize bcf.clean = cleaned at hClean hNext
  have hCached := hClean.cached
  dsimp only at hNext
  rcases Option.ite_none_right_eq_some.mp hNext with
    ⟨hReady, hHandle⟩
  have hLow :
      cleaned.futurebuffer.lowwest = cleaned.height := by
    unfold BCF.ready at hReady
    exact of_decide_eq_true (Bool.and_eq_true_iff.mp hReady).1
  cases hBlocks : cleaned.futurebuffer.bcblocks with
  | nil =>
      unfold FutureBuffer.getlowwest at hHandle
      rw [hBlocks] at hHandle
      cases hHandle
  | cons first rest =>
      have hBuffer :
          cleaned.futurebuffer =
            ⟨cleaned.futurebuffer.lowwest, first :: rest⟩ := by
        rw [← hBlocks]
      have hLe := hCached.first_le first rest hBlocks
      rw [hBuffer] at hCached
      have hAfter :
          cleaned.futurebuffer.getlowwest =
            (some first,
              FutureBuffer.after cleaned.futurebuffer.lowwest
                rest) := by
        unfold FutureBuffer.getlowwest
        rw [hBlocks]
        rfl
      rw [hAfter] at hHandle
      rcases handle_kept hCached.after hHandle with
        ⟨hKept, hAccepts⟩
      refine ⟨hKept.height, hKept.cached, fun k hk hHas => ?_⟩
      rw [hBuffer] at hHas
      refine hKept.has k hk (hHas.after fun hEq => ?_)
      have hAt :
          FutureBuffer.height first = cleaned.height := by
        have hUp := hKept.height
        dsimp only at hUp
        omega
      have hMore := hAccepts (height_eq_int32height hAt)
      dsimp only at hMore
      omega

/-
  A step of the follower keeps what waits, and a call is
  only started for a block that is stored.
-/
theorem exec_kept
    {a : FollowerAction}
    (hCached : bcf.futurebuffer.Cached)
    (hExec : bcf.exec cfg nid a = some bcf') :
    Kept bcf bcf' ∧
      ∀ call ∈ Caller.started bcf a, ∃ block,
        call = .read block ∧
          bcf'.futurebuffer.Has (FutureBuffer.height block) := by
  cases a with
  | next => exact ⟨next_kept hCached hExec, nofun⟩
  | receive block =>
      refine ⟨?_, nofun⟩
      have hClean := clean_kept hCached
      refine hClean.trans ?_
      have hReceive : bcf.receive cfg nid block = some bcf' :=
        hExec
      unfold BCF.receive at hReceive
      rcases Option.ite_none_left_eq_some.mp hReceive with
        ⟨_, hReceive⟩
      split at hReceive
      · exact (handle_kept hClean.cached hReceive).1
      · cases hReceive
        exact
          .of_futurebuffer hClean.cached rfl (Nat.le_refl _)
  | called i =>
      have hCalled : bcf.called i = some bcf' := hExec
      unfold BCF.called at hCalled
      cases hCalling : bcf.calling[i]? with
      | none =>
          rw [hCalling] at hCalled
          cases hCalled
      | some block =>
          rw [hCalling] at hCalled
          cases hCalled
          have hKept :
              Kept bcf
                { bcf with
                  calling := bcf.calling.eraseIdx i
                  futurebuffer := bcf.futurebuffer.put block } ∧
                (bcf.futurebuffer.put block).Has
                  (FutureBuffer.height block) :=
            Kept.put block hCached rfl rfl
          refine ⟨hKept.1, fun call hMem => ?_⟩
          have hStarted : call ∈ [Call.read block] := by
            have hCall :
                call ∈ (bcf.calling[i]?.map Call.read).toList :=
              hMem
            rw [hCalling] at hCall
            exact hCall
          exact
            ⟨block, List.mem_singleton.mp hStarted, hKept.2⟩

end Kept

end CertifiedBroadcast

end Jumbo

------------------------------------------------------------
-- What Has Been Called For
------------------------------------------------------------

namespace Jumbo

namespace CertifiedBroadcast

open Protocol
open Struct

variable {n : Nat}

/- In a range of heights. -/
def Within (range : Int × Int) (k : Int) : Prop :=
  range.1 ≤ k ∧ k ≤ range.2

namespace Caller

/- A request is sent, or its goroutine will send it. -/
def Requested (s : Caller n) (k : Int) : Prop :=
  (∃ request ∈ s.sent, request.round = k) ∨
    ∃ block i last, .send block i last ∈ s.calls ∧
      i ≤ k ∧ k ≤ last

end Caller

/- The block has not gone through `callhelp.put` yet. -/
def Call.pending : Call → Option BCBlock
| .read block => some block
| .put block _ => some block
| .send _ _ _ => none
| .done _ => none

/- The block has gone through it. -/
def Call.through : Call → Option BCBlock
| .read _ => none
| .put _ _ => none
| .send block _ _ => some block
| .done block => some block

/- Up to `bound`, all is in the buffer or in a range. -/
def Covered (s : Caller n) (bound : Int) : Prop :=
  ∀ k : Int, s.bcf.height ≤ k → k < bound →
    s.bcf.futurebuffer.Has k ∨
      ∃ range ∈ s.ranges, Within range k

/- The invariant of the goroutines. -/
structure CallerOk (s : Caller n) : Prop where
  cached : s.bcf.futurebuffer.Cached
  -- a block once buffered stays until its turn
  buffered :
    ∀ call ∈ s.calls, ∀ block, call.pending = some block →
      s.bcf.height ≤ FutureBuffer.height block →
        s.bcf.futurebuffer.Has (FutureBuffer.height block)
  myheight :
    ∀ block myheight, .put block myheight ∈ s.calls →
      myheight ≤ s.bcf.height
  through :
    ∀ call ∈ s.calls, ∀ block, call.through = some block →
      FutureBuffer.height block ≤ s.highest
  low : -1 ≤ s.highest
  highest :
    s.bcf.height ≤ s.highest →
      s.bcf.futurebuffer.Has s.highest
  covered : Covered s s.highest
  below : ∀ range ∈ s.ranges, range.2 < s.highest
  apart :
    s.ranges.Pairwise fun range range' => range.2 < range'.1
  requested :
    ∀ range ∈ s.ranges, ∀ k, Within range k → s.Requested k

section Steps

variable {cfg : Config n} {nid : Fin n} {s s' : Caller n}
variable {j : Nat} {call call' : Call}

/- One goroutine goes on, and nothing else is called for. -/
theorem Caller.Requested.set
    {k : Int} (hRequested : s.Requested k)
    (hAt : s.calls[j]? = some call)
    (hCalls : s'.calls = s.calls.set j call')
    (hSent : ∀ request ∈ s.sent, request ∈ s'.sent)
    (hCall :
      ∀ block i last, call = .send block i last →
        i ≤ k → k ≤ last →
          (∃ request ∈ s'.sent, request.round = k) ∨
            ∃ i', call' = .send block i' last ∧ i' ≤ k) :
    s'.Requested k := by
  rcases hRequested with
    ⟨request, hMem, hRound⟩ | ⟨block, i, last, hMem, hi, hLast⟩
  · exact .inl ⟨request, hSent request hMem, hRound⟩
  · rcases List.mem_iff_getElem?.mp hMem with ⟨m, hm⟩
    by_cases hEq : m = j
    · subst hEq
      rw [hAt] at hm
      rcases hCall block i last (Option.some.inj hm) hi hLast
        with hDone | ⟨i', hMore, hi'⟩
      · exact .inl hDone
      · refine .inr ⟨block, i', last, ?_, hi', hLast⟩
        rw [hCalls, ← hMore]
        exact
          List.mem_set (List.getElem?_eq_some_iff.mp hAt).1 call'
    · refine .inr ⟨block, i, last, ?_, hi, hLast⟩
      rw [hCalls]
      refine List.mem_of_getElem? (i := m) ?_
      rw [List.getElem?_set_ne (Ne.symm hEq)]
      exact hm

/- A step of the follower. -/
theorem CallerOk.follow
    (hOk : CallerOk s) {a : FollowerAction} {bcf : BCF}
    (hExec : s.bcf.exec cfg nid a = some bcf) :
    CallerOk
      { s with
        bcf := bcf
        calls := s.calls ++ Caller.started s.bcf a } := by
  rcases exec_kept hOk.cached hExec with ⟨hKept, hStarted⟩
  have hHeight := hKept.height
  refine
    { cached := hKept.cached
      buffered := ?_
      myheight := ?_
      through := ?_
      low := hOk.low
      highest := ?_
      covered := ?_
      below := hOk.below
      apart := hOk.apart
      requested := ?_ }
  · intro call hMem block hPending hUp
    rcases List.mem_append.mp hMem with hOld | hNew
    · exact
        hKept.has _ hUp
          (hOk.buffered call hOld block hPending
            (by dsimp only at hUp; omega))
    · rcases hStarted call hNew with ⟨block', rfl, hHas⟩
      cases hPending
      exact hHas
  · intro block myheight hMem
    rcases List.mem_append.mp hMem with hOld | hNew
    · exact
        Nat.le_trans (hOk.myheight block myheight hOld) hHeight
    · rcases hStarted _ hNew with ⟨_, hCall, _⟩
      cases hCall
  · intro call hMem block hThrough
    rcases List.mem_append.mp hMem with hOld | hNew
    · exact hOk.through call hOld block hThrough
    · rcases hStarted _ hNew with ⟨_, rfl, _⟩
      cases hThrough
  · intro hUp
    exact
      hKept.has _ hUp
        (hOk.highest (by dsimp only at hUp; omega))
  · intro k hUp hBound
    rcases hOk.covered k (by dsimp only at hUp; omega) hBound
      with hHas | hRange
    · exact .inl (hKept.has k hUp hHas)
    · exact .inr hRange
  · intro range hMem k hWithin
    rcases hOk.requested range hMem k hWithin with
      hSent | ⟨block, i, last, hCall, hk⟩
    · exact .inl hSent
    · exact
        .inr ⟨block, i, last, List.mem_append_left _ hCall, hk⟩

/- A goroutine reads the height. -/
theorem CallerOk.read
    (hOk : CallerOk s) (hRead : s.read j = some s') :
    CallerOk s' := by
  unfold Caller.read at hRead
  split at hRead
  swap
  · cases hRead
  rename_i block hAt
  cases hRead
  have hCall := List.mem_of_getElem? hAt
  refine
    { hOk with
      buffered := ?_
      myheight := ?_
      through := ?_
      requested := ?_ }
  · intro call hMem block' hPending hUp
    rcases List.mem_or_eq_of_mem_set hMem with hOld | rfl
    · exact hOk.buffered call hOld block' hPending hUp
    · exact hOk.buffered _ hCall block' hPending hUp
  · intro block' myheight hMem
    rcases List.mem_or_eq_of_mem_set hMem with hOld | hNew
    · exact hOk.myheight block' myheight hOld
    · cases hNew
      exact Nat.le_refl _
  · intro call hMem block' hThrough
    rcases List.mem_or_eq_of_mem_set hMem with hOld | rfl
    · exact hOk.through call hOld block' hThrough
    · cases hThrough
  · intro range hMem k hWithin
    exact
      (hOk.requested range hMem k hWithin).set hAt rfl
        (fun _ h => h) nofun

/- A goroutine has a range, or finds that it needs none. -/
theorem CallerOk.move
    (hOk : CallerOk s) {block : BCBlock} {myheight : Nat}
    (hAt : s.calls[j]? = some (.put block myheight))
    (hThrough : call'.through = some block)
    {highest : Int} {ranges : List (Int × Int)}
    (hUp : s.highest ≤ highest)
    (hBlock : FutureBuffer.height block ≤ highest)
    (hOld :
      highest = s.highest ∨
        highest = FutureBuffer.height block)
    (hCovered : Covered { s with ranges := ranges } highest)
    (hBelow : ∀ range ∈ ranges, range.2 < highest)
    (hApart :
      ranges.Pairwise fun range range' => range.2 < range'.1)
    (hNew :
      ∀ range ∈ ranges, range ∈ s.ranges ∨
        ∃ i last, call' = .send block i last ∧
          range = (i, last)) :
    CallerOk
      { s.set j call' with
        highest := highest
        ranges := ranges } := by
  have hCall := List.mem_of_getElem? hAt
  refine
    { cached := hOk.cached
      buffered := ?_
      myheight := ?_
      through := ?_
      low := Int.le_trans hOk.low hUp
      highest := ?_
      covered := hCovered
      below := hBelow
      apart := hApart
      requested := ?_ }
  · intro call hMem block' hPending
    rcases List.mem_or_eq_of_mem_set hMem with hBefore | rfl
    · exact hOk.buffered call hBefore block' hPending
    · cases call with
      | read | put => cases hThrough
      | send | done => cases hPending
  · intro block' myheight' hMem
    rcases List.mem_or_eq_of_mem_set hMem with hBefore | hEq
    · exact hOk.myheight block' myheight' hBefore
    · rw [← hEq] at hThrough
      cases hThrough
  · intro call hMem block' hSome
    rcases List.mem_or_eq_of_mem_set hMem with hBefore | rfl
    · exact
        Int.le_trans (hOk.through call hBefore block' hSome) hUp
    · rw [hThrough] at hSome
      cases hSome
      exact hBlock
  · intro hHigh
    rcases hOld with rfl | rfl
    · exact hOk.highest hHigh
    · exact hOk.buffered _ hCall block rfl hHigh
  · intro range hMem k hWithin
    rcases hNew range hMem with
      hBefore | ⟨i, last, rfl, rfl⟩
    · exact
        (hOk.requested range hBefore k hWithin).set hAt rfl
          (fun _ h => h) nofun
    · exact
        .inr
          ⟨block, i, last,
            List.mem_set (List.getElem?_eq_some_iff.mp hAt).1 _,
            hWithin⟩

/- `callhelp.put` of a goroutine. -/
theorem CallerOk.put
    (hOk : CallerOk s)
    (hBegins : begins s (.put j) = true)
    (hPut : s.put j = some s') :
    CallerOk s' := by
  unfold Caller.put at hPut
  split at hPut
  swap
  · cases hPut
  rename_i block myheight hAt
  have hCall := List.mem_of_getElem? hAt
  have hMine := hOk.myheight block myheight hCall
  have hLow := hOk.low
  have hFirst :
      ¬ (s.highest = -1 ∧ s.bcf.height = 0 ∧
        FutureBuffer.height block = 1) := by
    rintro ⟨hHighest, hHeight, hOne⟩
    simp [begins, hAt, hHighest, hHeight, hOne] at hBegins
  unfold callhelpPut at hPut
  dsimp only at hPut
  by_cases hHigh : s.highest < FutureBuffer.height block
  · rw [if_pos hHigh] at hPut
    -- below the highest block all is covered already
    have hAll (k : Int) (hUp : s.bcf.height ≤ k)
        (hBelow : k ≤ s.highest) :
        s.bcf.futurebuffer.Has k ∨
          ∃ range ∈ s.ranges, Within range k := by
      rcases Int.lt_or_eq_of_le hBelow with hLt | rfl
      · exact hOk.covered k hUp hLt
      · exact .inl (hOk.highest hUp)
    have hBelow :
        ∀ range ∈ s.ranges,
          range.2 < FutureBuffer.height block :=
      fun range hMem =>
        Int.lt_trans (hOk.below range hMem) hHigh
    by_cases hNext : s.highest + 1 = FutureBuffer.height block
    · rw [if_pos hNext, if_pos rfl] at hPut
      cases hPut
      exact
        hOk.move hAt rfl (by omega) (Int.le_refl _) (.inr rfl)
          (fun k hUp hBound => hAll k hUp (by omega)) hBelow
          hOk.apart (fun range hMem => .inl hMem)
    · rw [if_neg hNext] at hPut
      generalize hTmp :
        (if (myheight : Int) < s.highest then s.highest
          else (myheight : Int)) = tmp at hPut
      have hTmpUp : s.highest ≤ tmp := by
        rw [← hTmp]
        split <;> omega
      have hTmpLow :
          ∀ k : Int, s.bcf.height ≤ k → s.highest < k →
            tmp ≤ k := by
        intro k hUp hAbove
        rw [← hTmp]
        split <;> omega
      split at hPut
      · rename_i hZero
        cases hPut
        rw [Prod.mk.injEq] at hZero
        refine
          hOk.move hAt rfl (by omega) (Int.le_refl _) (.inr rfl)
            (fun k hUp hBound => ?_) hBelow hOk.apart
            (fun range hMem => .inl hMem)
        have hUp : (s.bcf.height : Int) ≤ k := hUp
        omega
      · cases hPut
        refine
          hOk.move hAt rfl (by omega) (Int.le_refl _) (.inr rfl)
            (fun k hUp hBound => ?_) ?_ ?_ ?_
        · by_cases hAbove : s.highest < k
          · exact
              .inr
                ⟨_, List.mem_append_right _
                  (List.mem_singleton_self _),
                  hTmpLow k hUp hAbove, by dsimp only; omega⟩
          · rcases hAll k hUp (by omega) with
              hHas | ⟨range, hMem, hWithin⟩
            · exact .inl hHas
            · exact
                .inr ⟨range, List.mem_append_left _ hMem,
                  hWithin⟩
        · intro range hMem
          rcases List.mem_append.mp hMem with hBefore | hNew
          · exact hBelow range hBefore
          · rw [List.mem_singleton.mp hNew]
            dsimp only
            omega
        · rw [List.pairwise_append]
          refine
            ⟨hOk.apart, List.pairwise_singleton _ _, ?_⟩
          intro range hMem range' hNew
          rw [List.mem_singleton.mp hNew]
          have hLast := hOk.below range hMem
          dsimp only
          omega
        · intro range hMem
          rcases List.mem_append.mp hMem with hBefore | hNew
          · exact .inl hBefore
          · exact
              .inr ⟨_, _, rfl, List.mem_singleton.mp hNew⟩
  · rw [if_neg hHigh, if_pos rfl] at hPut
    cases hPut
    exact
      hOk.move hAt rfl (Int.le_refl _) (by omega) (.inl rfl)
        hOk.covered hOk.below hOk.apart
        (fun range hMem => .inl hMem)

/- A request is sent, or the range is through. -/
theorem CallerOk.send
    (hOk : CallerOk s) {randnum : Nat}
    (hSend : s.send nid j randnum = some s') :
    CallerOk s' := by
  unfold Caller.send at hSend
  split at hSend
  · rename_i block i last hAt
    have hCall := List.mem_of_getElem? hAt
    have hSends (call : Call)
        (hGoes : call = .send block (i + 1) last ∨
          call = .done block)
        (sent : List (Request n))
        (hRequested :
          ∀ range ∈ s.ranges, ∀ k, Within range k →
            Caller.Requested { s.set j call with sent := sent }
              k) :
        CallerOk { s.set j call with sent := sent } := by
      refine
        { hOk with
          buffered := ?_
          myheight := ?_
          through := ?_
          requested := hRequested }
      · intro call' hMem block' hPending
        rcases List.mem_or_eq_of_mem_set hMem with
          hBefore | rfl
        · exact hOk.buffered call' hBefore block' hPending
        · rcases hGoes with rfl | rfl
          · cases hPending
          · cases hPending
      · intro block' myheight hMem
        rcases List.mem_or_eq_of_mem_set hMem with
          hBefore | hEq
        · exact hOk.myheight block' myheight hBefore
        · rw [← hEq] at hGoes
          rcases hGoes with hGoes | hGoes
          · cases hGoes
          · cases hGoes
      · intro call' hMem block' hThrough
        rcases List.mem_or_eq_of_mem_set hMem with
          hBefore | rfl
        · exact hOk.through call' hBefore block' hThrough
        · rcases hGoes with rfl | rfl
          · exact hOk.through _ hCall block' hThrough
          · exact hOk.through _ hCall block' hThrough
    split at hSend
    · cases hSend
      refine hSends _ (.inl rfl) _ ?_
      intro range hMem k hWithin
      refine
        (hOk.requested range hMem k hWithin).set hAt rfl
          (fun _ h => List.mem_append_left _ h) ?_
      intro block' i' last' hEq hLow hHigh
      cases hEq
      rcases Int.lt_or_eq_of_le hLow with hLt | rfl
      · exact .inr ⟨i + 1, rfl, by omega⟩
      · exact
          .inl ⟨_, List.mem_append_right _
            (List.mem_singleton_self _), rfl⟩
    · cases hSend
      refine hSends _ (.inr rfl) s.sent ?_
      intro range hMem k hWithin
      refine
        (hOk.requested range hMem k hWithin).set hAt rfl
          (fun _ h => h) ?_
      intro block' i' last' hEq hLow hHigh
      cases hEq
      omega
  · cases hSend

theorem callerOk_new : CallerOk (@Caller.new n) where
  cached := ⟨List.Pairwise.nil, nofun⟩
  buffered := nofun
  myheight := nofun
  through := nofun
  low := Int.le_refl _
  highest := by
    intro hUp
    change ((0 : Nat) : Int) ≤ -1 at hUp
    omega
  covered := by
    intro k hUp hBound
    change ((0 : Nat) : Int) ≤ k at hUp
    change k < -1 at hBound
    omega
  below := nofun
  apart := List.Pairwise.nil
  requested := nofun

/-
  It holds in every run without the early block 1 that is
  taken for the first.
-/
theorem reachable_callerOk
    (hReach :
      (caller cfg nid).ReachableBy
        (fun s a => begins s a = true) s) :
    CallerOk s := by
  refine hReach.invariant CallerOk callerOk_new ?_
  intro s a s' _ hOk hBegins hExec
  cases a with
  | follow a =>
      rcases Option.map_eq_some_iff.mp hExec with
        ⟨bcf, hStep, rfl⟩
      exact hOk.follow hStep
  | read j => exact hOk.read hExec
  | put j => exact hOk.put hBegins hExec
  | send j randnum => exact hOk.send hExec

end Steps

/-
  When a block has gone through `sendcallhelp`, all that is
  missing below it is in a range that requests are sent for;
  and no two ranges meet.
-/
def AllRequested (s : Caller n) : Prop :=
  (∀ block, .done block ∈ s.calls → ∀ k : Int,
    s.bcf.height ≤ k → k < FutureBuffer.height block →
      ¬ s.bcf.futurebuffer.Has k →
        ∃ range ∈ s.ranges, Within range k ∧ s.Requested k) ∧
    s.ranges.Pairwise fun range range' =>
      ∀ k, ¬ (Within range k ∧ Within range' k)

/- So every missing height has been asked for. -/
theorem missing_requested
    {cfg : Config n} {nid : Fin n} {s : Caller n}
    (hReach :
      (caller cfg nid).ReachableBy
        (fun s a => begins s a = true) s) :
    AllRequested s := by
  have hOk := reachable_callerOk hReach
  refine ⟨?_, ?_⟩
  · intro block hDone k hUp hBelow hMissing
    have hHighest := hOk.through _ hDone block rfl
    rcases hOk.covered k hUp (by omega) with
      hHas | ⟨range, hMem, hWithin⟩
    · exact absurd hHas hMissing
    · exact
        ⟨range, hMem, hWithin,
          hOk.requested range hMem k hWithin⟩
  · refine hOk.apart.imp ?_
    rintro range range' hApart k ⟨⟨_, hLast⟩, hFirst, _⟩
    omega

------------------------------------------------------------
-- A Follower without Blocks
------------------------------------------------------------

/- The configuration in which calls are started. -/
def helpConfig : Config 4 :=
  { lenientConfig with testmode := false }

/- The block comes, and goes through `sendcallhelp`. -/
def helpRun (height : Int32) : List CallerAction :=
  [.follow (.receive (lenientBlock height [7])),
    .follow (.called 0), .read 0, .put 0, .send 0 1, .send 0 2,
    .send 0 3]

/- Block 2 comes first. -/
def secondState : Caller 4 :=
  (caller helpConfig 1).drive begins (caller helpConfig 1).init
    (helpRun 2)

/- The missing blocks 0 and 1 are asked for. -/
theorem missing_requested_second :
    secondState.ranges = [(0, 1)] ∧
      secondState.calls = [.done (lenientBlock 2 [7])] ∧
        AllRequested secondState := by
  have hReach :
      (caller helpConfig 1).ReachableBy
        (fun s a => begins s a = true) secondState :=
    Machine.ReachableBy.drive .init (helpRun 2)
  exact
    ⟨by decide +kernel, by decide +kernel,
      missing_requested hReach⟩

/- Block 1 comes first, and block 0 is never asked for. -/
def firstState : Caller 4 :=
  (caller helpConfig 1).drive (fun _ _ => true)
    (caller helpConfig 1).init (helpRun 1)

/- A first block that is early is not asked for. -/
theorem missing_not_requested :
    (caller helpConfig 1).Reachable firstState ∧
      ¬ AllRequested firstState := by
  refine ⟨Machine.reachable_drive _ (helpRun 1), ?_⟩
  intro hAll
  have hState :
      firstState.calls = [.done (lenientBlock 1 [7])] ∧
        firstState.ranges = [] ∧ firstState.bcf.height = 0 ∧
          firstState.bcf.futurebuffer.bcblocks =
            [lenientBlock 1 [7]] := by
    decide +kernel
  rcases hState with ⟨hCalls, hRanges, hHeight, hBuffer⟩
  have hRange :=
    hAll.1 (lenientBlock 1 [7])
      (by rw [hCalls]; exact List.mem_singleton_self _) 0
      (by rw [hHeight]; exact Int.le_refl _) (by decide)
      (by
        rintro ⟨block, hMem, hZero⟩
        rw [hBuffer] at hMem
        rw [List.mem_singleton.mp hMem] at hZero
        revert hZero
        decide)
  rw [hRanges] at hRange
  rcases hRange with ⟨range, hMem, _⟩
  cases hMem

end CertifiedBroadcast

end Jumbo
