import Jumbo.SimpleHotStuff.Arrival

/-
  The leader of the single-leader chain, and what a follower
  has put out and sent after the first blocks of its chain.

  The leader waits for signatures on its last block and sends
  them with the next one. It checks the batch that it has
  made, so what it has sent passes every check of a follower.

  Main declarations:
    * `LeaderConfig`
    * `BCL.propose` and `BCL.receive`
    * `Led`
    * `Led.validChain`
    * `BCF.upTo_output` and `BCF.upTo_msgOut`
-/

------------------------------------------------------------
-- The Leader
------------------------------------------------------------

namespace Jumbo

namespace SimpleHotStuff

open Crypto (Bytes)
open Struct
open CertifiedBroadcast (FutureBuffer PayBack)

/- `sha256` is applied to the transactions of a block. -/
structure LeaderConfig (n : Nat) extends Config n where
  sha256 : Bytes → Bytes

/-
  `sent` are the blocks broadcast so far and `waiting` says
  that signatures for the last one are still collected.
-/
structure BCL where
  height : Nat
  lastblkID : Bytes
  lastbatch : BatchSignature
  sent : List BCBlock
  waiting : Option BCBlock
  tmpfollowsigns : List Signature
  output : List BCBlock

variable {n : Nat}

namespace BCL

/- A leader before its first block. -/
def new : BCL where
  height := 0
  lastblkID := []
  lastbatch := ⟨[], []⟩
  sent := []
  waiting := none
  tmpfollowsigns := []
  output := []

/- The block that the leader makes of its input. -/
def rawBC
    (cfg : LeaderConfig n) (bcl : BCL) (txblk : Bytes)
    (timestamp : Int64) : RawBC where
  lastblkid := if bcl.height = 0 then [] else bcl.lastblkID
  height := Int32.ofNat bcl.height
  root := cfg.sha256 txblk
  leader := 1
  k := 0
  timestamp := timestamp
  txcount := Int32.ofNat (txblk.length / 253)

/- An iteration of `Start` up to the broadcast. -/
def propose [NeZero n]
    (cfg : LeaderConfig n) (bcl : BCL) (txblk : Bytes)
    (timestamp : Int64) : Option BCL :=
  match bcl.waiting with
  | some _ => none
  | none =>
      let rawBC := bcl.rawBC cfg txblk timestamp
      let block : BCBlock :=
        { rawBC := rawBC
          sign :=
            some
              ⟨1, cfg.sign 0
                (Config.signbyte (cfg.hash rawBC)
                  rawBC.height)⟩
          batchSigns :=
            if bcl.height = 0 then none
            else some bcl.lastbatch }
      some { bcl with
        sent := bcl.sent ++ [block]
        waiting := some block
        tmpfollowsigns := [] }

/-
  A payback out of the channel. Its signature is not looked
  at before there are enough for a batch.
-/
def receive
    (cfg : LeaderConfig n) (bcl : BCL) (payback : PayBack) :
    Option BCL :=
  match bcl.waiting with
  | none => none
  | some block =>
      let blkID := cfg.hash block.rawBC
      if payback.blkID = blkID then
        let signs := bcl.tmpfollowsigns ++ [payback.sign]
        if n * 2 / 3 ≤ signs.length then
          let mems := signs.map (·.id)
          let msg := Config.signbyte blkID block.rawBC.height
          match Crypto.batchSignature cfg.prim cfg.type
              (signs.map (·.content)) msg mems with
          | none => none
          | some batch =>
              if Crypto.batchSignatureVerify cfg.prim cfg.type
                  batch msg mems = some true then
                some { bcl with
                  height := bcl.height + 1
                  lastblkID := blkID
                  lastbatch := ⟨batch, mems⟩
                  waiting := none
                  tmpfollowsigns := []
                  output :=
                    bcl.output ++ [BCF.backBlock block] }
              else none
        else some { bcl with tmpfollowsigns := signs }
      else some bcl

end BCL

------------------------------------------------------------
-- The Chain That Is Sent
------------------------------------------------------------

/- The block is made by the leader after these. -/
structure Extends [NeZero n]
    (cfg : LeaderConfig n) (sent : List BCBlock)
    (block : BCBlock) : Prop where
  height : block.rawBC.height = Int32.ofNat sent.length
  leader : block.rawBC.leader = 1
  root : ∃ txblk, block.rawBC.root = cfg.sha256 txblk
  sign :
    block.sign =
      some
        ⟨1, cfg.sign 0
          (Config.signbyte (cfg.hash block.rawBC)
            block.rawBC.height)⟩
  certified : BCF.checkcomsigns cfg.toConfig block = true
  linked :
    ∀ last, sent.getLast? = some last →
      block.rawBC.lastblkid = cfg.hash last.rawBC

/- The leader against the blocks it has sent. -/
structure Led [NeZero n]
    (cfg : LeaderConfig n) (bcl : BCL) : Prop where
  grown :
    ∀ i block, bcl.sent[i]? = some block →
      Extends cfg (bcl.sent.take i) block
  waiting :
    ∀ block, bcl.waiting = some block →
      bcl.sent.length = bcl.height + 1 ∧
        bcl.sent.getLast? = some block
  idle : bcl.waiting = none → bcl.sent.length = bcl.height
  certified :
    bcl.waiting = none →
      ∀ last, bcl.sent.getLast? = some last →
        bcl.lastblkID = cfg.hash last.rawBC ∧
          Crypto.batchSignatureVerify cfg.prim cfg.type
            bcl.lastbatch.signs
            (Config.signbyte bcl.lastblkID last.rawBC.height)
            bcl.lastbatch.mems = some true
  output :
    bcl.output =
      (bcl.sent.take bcl.height).map BCF.backBlock

section Led

variable [NeZero n] {cfg : LeaderConfig n} {bcl bcl' : BCL}
variable {block : BCBlock} {i : Nat}

theorem led_new : Led cfg BCL.new where
  grown _ _ hBlock := by cases hBlock
  waiting _ hBlock := by cases hBlock
  idle _ := rfl
  certified _ _ hLast := by cases hLast
  output := rfl

/- The blocks are numbered without a gap. -/
theorem Led.height
    (hLed : Led cfg bcl) (hBlock : bcl.sent[i]? = some block) :
    block.rawBC.height = Int32.ofNat i := by
  have hLt := (List.getElem?_eq_some_iff.mp hBlock).1
  have hHeight := (hLed.grown i block hBlock).height
  rwa [List.length_take, Nat.min_eq_left hLt.le] at hHeight

/- Every block names the hash of the one before. -/
theorem Led.linked
    {next : BCBlock}
    (hLed : Led cfg bcl) (hBlock : bcl.sent[i]? = some block)
    (hNext : bcl.sent[i + 1]? = some next) :
    next.rawBC.lastblkid = cfg.hash block.rawBC := by
  apply (hLed.grown (i + 1) next hNext).linked
  rw [List.getLast?_take, if_neg (Nat.succ_ne_zero i),
    Nat.add_sub_cancel, hBlock]
  rfl

/- Where the last block stands. -/
theorem Led.last
    {last : BCBlock}
    (hLast : bcl.sent.getLast? = some last) :
    bcl.sent[bcl.sent.length - 1]? = some last ∧
      0 < bcl.sent.length := by
  rw [List.getLast?_eq_getElem?] at hLast
  have hLt := (List.getElem?_eq_some_iff.mp hLast).1
  exact ⟨hLast, by omega⟩

/- A new block continues the chain. -/
theorem Led.propose
    {txblk : Bytes} {timestamp : Int64}
    (hLed : Led cfg bcl)
    (hPropose : bcl.propose cfg txblk timestamp = some bcl') :
    Led cfg bcl' := by
  unfold BCL.propose at hPropose
  cases hWaiting : bcl.waiting with
  | some block =>
      rw [hWaiting] at hPropose
      cases hPropose
  | none =>
      rw [hWaiting] at hPropose
      have hLength := hLed.idle hWaiting
      injection hPropose with hEq
      subst hEq
      refine
        { grown := ?_
          waiting := ?_
          idle := fun hNone => by cases hNone
          certified := fun hNone => by cases hNone
          output := ?_ }
      · intro i other hOther
        by_cases hOld : i < bcl.sent.length
        · rw [List.getElem?_append_left hOld] at hOther
          rw [List.take_append_of_le_length hOld.le]
          exact hLed.grown i other hOther
        have hLt := (List.getElem?_eq_some_iff.mp hOther).1
        rw [List.length_append, List.length_singleton] at hLt
        have hEq : i = bcl.sent.length := by omega
        subst hEq
        rw [List.getElem?_concat_length] at hOther
        cases hOther
        rw [List.take_left]
        refine
          { height := congrArg Int32.ofNat hLength.symm
            leader := rfl
            root := ⟨txblk, rfl⟩
            sign := rfl
            certified := ?_
            linked := ?_ }
        · unfold BCF.checkcomsigns
          by_cases hZero : bcl.height = 0
          · simp [BCL.rawBC, hZero]
          · cases hEnd : bcl.sent.getLast? with
            | none =>
                have hNil := List.getLast?_eq_none_iff.mp hEnd
                rw [hNil] at hLength
                exact absurd hLength.symm hZero
            | some last =>
                have hBatch :=
                  (hLed.certified hWaiting last hEnd).2
                rcases Led.last hEnd with ⟨hAt, hPos⟩
                have hNext :
                    last.rawBC.height + 1 =
                      Int32.ofNat bcl.height := by
                  have hSplit :
                      bcl.sent.length =
                        bcl.sent.length - 1 + 1 := by
                    omega
                  rw [hLed.height hAt, ← hLength, hSplit,
                    Int32.ofNat_add, Nat.add_sub_cancel]
                  rfl
                unfold Config.verifiesBatch
                simp only [BCL.rawBC, if_neg hZero,
                  Option.any_some, ← hNext,
                  Int32.add_sub_cancel, hBatch, decide_true,
                  Bool.or_true]
        · intro last hEnd
          have hNe : bcl.height ≠ 0 := by
            have hPos := (Led.last hEnd).2
            omega
          exact
            (if_neg hNe).trans
              (hLed.certified hWaiting last hEnd).1
      · intro block hBlock
        cases hBlock
        exact ⟨by simp [hLength], by simp⟩
      · rw [hLed.output,
          List.take_append_of_le_length hLength.symm.le]

/- A payback changes no block. -/
theorem Led.receive
    {payback : PayBack}
    (hLed : Led cfg bcl)
    (hReceive : bcl.receive cfg payback = some bcl') :
    Led cfg bcl' := by
  unfold BCL.receive at hReceive
  cases hWaiting : bcl.waiting with
  | none =>
      rw [hWaiting] at hReceive
      cases hReceive
  | some block =>
      rw [hWaiting] at hReceive
      dsimp only at hReceive
      rcases hLed.waiting block hWaiting with
        ⟨hLength, hLast⟩
      split at hReceive
      · split at hReceive
        · split at hReceive
          · cases hReceive
          · rename_i batch hBatch
            rcases Option.ite_none_right_eq_some.mp hReceive
              with ⟨hVerify, hEq⟩
            cases hEq
            refine
              { grown := hLed.grown
                waiting := fun _ hSome => by cases hSome
                idle := fun _ => hLength
                certified := ?_
                output := ?_ }
            · intro _ last hEnd
              dsimp only at hEnd
              rw [hLast] at hEnd
              cases hEnd
              exact ⟨rfl, hVerify⟩
            · have hAt := (Led.last hLast).1
              rw [hLength, Nat.add_sub_cancel] at hAt
              change
                bcl.output ++ [BCF.backBlock block] =
                  (bcl.sent.take (bcl.height + 1)).map
                    BCF.backBlock
              rw [hLed.output, List.take_add_one, hAt,
                List.map_append]
              rfl
        · cases hReceive
          refine
            { hLed with
              waiting := fun other hOther => ?_
              idle := fun hNone => by cases hNone
              certified := fun hNone => by cases hNone }
          exact hLed.waiting other (hWaiting.trans hOther)
      · cases hReceive
        exact hLed

/- Until the heights wrap, what is sent is a valid chain. -/
theorem Led.validChain
    (hLed : Led cfg bcl)
    (hSign :
      ∀ msg, Crypto.verify cfg.prim cfg.type 0
        (cfg.sign 0 msg) msg = some true)
    (hFits : bcl.sent.length < 2 ^ 31) :
    ValidChain cfg.toConfig bcl.sent where
  fits := hFits
  height := by
    intro i block hBlock
    have hLt := (List.getElem?_eq_some_iff.mp hBlock).1
    unfold FutureBuffer.height
    rw [hLed.height hBlock, Int32.toInt_ofNat_of_lt (by omega)]
  valid := by
    intro block hMem
    rcases List.getElem?_of_mem hMem with ⟨i, hBlock⟩
    have hExtends := hLed.grown i block hBlock
    refine ⟨hExtends.leader, ?_, hExtends.certified⟩
    unfold Config.verifies
    rw [hExtends.sign]
    simp only [Option.any_some, decide_eq_true_eq]
    exact hSign _
  linked := fun _ _ _ hBlock hNext => hLed.linked hBlock hNext

/- Every block has a root. -/
theorem Led.root
    (hLed : Led cfg bcl)
    (hRoot : ∀ txblk, cfg.sha256 txblk ≠ [])
    (hMem : block ∈ bcl.sent) :
    block.rawBC.root ≠ [] := by
  rcases List.getElem?_of_mem hMem with ⟨i, hBlock⟩
  rcases (hLed.grown i block hBlock).root with ⟨txblk, hEq⟩
  rw [hEq]
  exact hRoot txblk

end Led

------------------------------------------------------------
-- What a Follower Has Put Out
------------------------------------------------------------

namespace BCF

variable {cfg : Config n} {id : Fin n}
variable {chain : List BCBlock} {i : Nat}

/- A follower on a longer chain is where it was. -/
theorem upTo_append
    (more : List BCBlock) (hLe : i ≤ chain.length) :
    upTo cfg id (chain ++ more) i = upTo cfg id chain i := by
  unfold upTo
  rw [List.take_append_of_le_length hLe]

/- What a follower answers to a block. -/
def answer
    (cfg : Config n) (id : Fin n) (i : Nat) (block : BCBlock) :
    PayBack where
  round := Int32.ofNat i
  blkID := cfg.hash block.rawBC
  sign :=
    { id := Int32.ofNat (id.val + 1)
      content :=
        cfg.sign id
          (Config.signbyte (cfg.hash block.rawBC)
            block.rawBC.height) }

/- A block is answered, and the one before it is put out. -/
theorem generatepayback_rooted
    (cfg : Config n) (id : Fin n) (bcf : BCF)
    {block : BCBlock}
    (hRoot : block.rawBC.root ≠ []) :
    (bcf.generatepayback cfg id block).msgOut =
        bcf.msgOut ++ [answer cfg id bcf.height block] ∧
      (bcf.generatepayback cfg id block).lastblock =
          some block ∧
        (bcf.generatepayback cfg id block).output =
          if 0 < bcf.height then
            bcf.output ++ bcf.lastblock.toList.map backBlock
          else bcf.output := by
  unfold generatepayback
  rw [if_neg hRoot]
  exact ⟨rfl, rfl, rfl⟩

/- In order all blocks but the last are put out. -/
theorem upTo_output
    (hRoot : ∀ block ∈ chain, block.rawBC.root ≠ [])
    (hLe : i ≤ chain.length) :
    (upTo cfg id chain i).output =
        (chain.take (i - 1)).map backBlock ∧
      (0 < i →
        (upTo cfg id chain i).lastblock = chain[i - 1]?) := by
  induction i with
  | zero => exact ⟨rfl, fun hPos => absurd hPos (by omega)⟩
  | succ i ih =>
      rcases ih (Nat.le_of_succ_le hLe) with ⟨hOutput, hLast⟩
      have hBlock : chain[i]? = some chain[i] :=
        List.getElem?_eq_getElem hLe
      rcases generatepayback_rooted cfg id
          (upTo cfg id chain i)
          (hRoot _ (List.getElem_mem hLe)) with
        ⟨_, hNext, hOut⟩
      rw [upTo_succ cfg id hBlock, Nat.add_sub_cancel]
      refine ⟨?_, fun _ => hNext.trans hBlock.symm⟩
      rw [hOut, upTo_height cfg id (Nat.le_of_succ_le hLe),
        hOutput]
      split
      · rename_i hPos
        rw [hLast hPos, ← List.map_append, ← List.take_add_one,
          Nat.sub_add_cancel hPos]
      · rename_i hZero
        have hNone : i = 0 := by omega
        rw [hNone]

/- One answer for every block, in order. -/
theorem upTo_msgOut
    (hRoot : ∀ block ∈ chain, block.rawBC.root ≠ [])
    (hLe : i ≤ chain.length) :
    (upTo cfg id chain i).msgOut =
      (chain.take i).mapIdx (answer cfg id) := by
  induction i with
  | zero => rfl
  | succ i ih =>
      have hBlock : chain[i]? = some chain[i] :=
        List.getElem?_eq_getElem hLe
      have hMessages :=
        (generatepayback_rooted cfg id
          (upTo cfg id chain i)
          (hRoot _ (List.getElem_mem hLe))).1
      rw [upTo_succ cfg id hBlock, hMessages,
        ih (Nat.le_of_succ_le hLe),
        upTo_height cfg id (Nat.le_of_succ_le hLe),
        List.take_add_one, hBlock, Option.toList_some,
        List.mapIdx_append]
      simp [Nat.min_eq_left (Nat.le_of_succ_le hLe)]

end BCF

end SimpleHotStuff

end Jumbo
