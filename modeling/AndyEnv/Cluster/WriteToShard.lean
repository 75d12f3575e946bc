import AndyEnv.Meta.Data
import Mathlib.Data.List.Infix
import Mathlib.Data.List.Count

/-!
# Writing to the owners of a shard (`points_writer.go`)

`writeToShard` starts one goroutine for each owner of the shard. Each sends one
result on a channel, and the results are counted in the order in which they
arrive, until enough of them are successes for the consistency level.

What the stores of the owners answer is data of the model. The results arrive in
any order, so the loop runs over any permutation of them.
-/

namespace AndyEnv.Cluster

open Meta
open List

inductive ConsistencyLevel : Type
  | any
  | one
  | quorum
  | all
deriving DecidableEq, Repr

/-! ## One owner -/

/-- The error of a write. `ErrShardNotFound` is compared as a value, the others are read as texts. -/
inductive ShardError : Type
  | shardNotFound
  | other (text : String)
deriving DecidableEq, Repr

def ShardError.error : ShardError → String
  | .shardNotFound => "shard not found"
  | .other text => text

def isRetryable (e : ShardError) : Bool :=
  !decide ("field type conflict".toList <:+: e.error.toList)

/-- What the calls that are made for one owner return; `none` is `nil`. -/
structure Answers : Type where
  /-- `TSDBStore.WriteToShard`. -/
  writeToShard : Option ShardError
  /-- `TSDBStore.CreateShard`. -/
  createShard : Option ShardError
  /-- `TSDBStore.WriteToShard`, when the shard has been created. -/
  writeAgain : Option ShardError
  /-- `ShardWriter.WriteShard`. -/
  writeShard : Option ShardError
  /-- `HintedHandoff.WriteShard`. -/
  hintedHandoff : Option ShardError
deriving DecidableEq, Repr

/-- The result the goroutine of an owner sends. -/
def ownerResult (nodeID : UInt64) (consistency : ConsistencyLevel) (owner : ShardOwner) (a : Answers) :
    Option ShardError :=
  if nodeID = owner.nodeID then
    if a.writeToShard = some .shardNotFound then
      match a.createShard with
      | some e => some e
      | none => a.writeAgain
    else a.writeToShard
  else
    match a.writeShard with
    | none => none
    | some e =>
      if isRetryable e = true ∧ a.hintedHandoff = none ∧ consistency = .any then none
      else some e

/-! ## The verdict -/

inductive WriteError : Type
  | partialWrite
  | writeFailed
  | writeFailedWith (cause : ShardError)
deriving DecidableEq, Repr

def WriteError.error : WriteError → String
  | .partialWrite => "partial write"
  | .writeFailed => "write failed"
  | .writeFailedWith cause => "write failed: " ++ cause.error

def required (consistency : ConsistencyLevel) (owners : ℕ) : ℕ :=
  match consistency with
  | .any | .one => 1
  | .quorum => owners / 2 + 1
  | .all => owners

def countResults (required wrote : ℕ) (writeError : Option ShardError) :
    List (Option ShardError) → Option WriteError
  | [] =>
    if 0 < wrote then some .partialWrite
    else some ((writeError.map .writeFailedWith).getD .writeFailed)
  | some e :: results => countResults required wrote (writeError <|> some e) results
  | none :: results =>
    if required ≤ wrote + 1 then none
    else countResults required (wrote + 1) writeError results

/-- `writeToShard`, with the results in the order of their arrival. -/
def writeToShard (owners : List ShardOwner) (consistency : ConsistencyLevel)
    (results : List (Option ShardError)) : Option WriteError :=
  countResults (required consistency owners.length) 0 none results

/-! ## What is counted -/

inductive Outcome : Type
  | success
  | failure
  | hinted
deriving DecidableEq, Repr

/-- The write to an owner is a success if the points are in its store, and hinted if
they are in the queue for it. -/
def outcome (nodeID : UInt64) (owner : ShardOwner) (a : Answers) : Outcome :=
  if nodeID = owner.nodeID then
    if a.writeToShard = none ∨
        (a.writeToShard = some .shardNotFound ∧ a.createShard = none ∧ a.writeAgain = none) then .success
    else .failure
  else
    match a.writeShard with
    | none => .success
    | some e => if isRetryable e = true ∧ a.hintedHandoff = none then .hinted else .failure

/-- A hinted write counts for the level `any` only. -/
def Outcome.counts (consistency : ConsistencyLevel) : Outcome → Bool
  | .success => true
  | .failure => false
  | .hinted => decide (consistency = .any)

def successes (nodeID : UInt64) (consistency : ConsistencyLevel) (calls : List (ShardOwner × Answers)) : ℕ :=
  calls.countP (fun c => (outcome nodeID c.1 c.2).counts consistency)

theorem ownerResult_isNone (nodeID : UInt64) (consistency : ConsistencyLevel) (owner : ShardOwner)
    (a : Answers) : (ownerResult nodeID consistency owner a).isNone =
      (outcome nodeID owner a).counts consistency := by
  unfold ownerResult outcome
  split
  next =>
    rcases hwrite : a.writeToShard with _ | _ | text
    · rfl
    · rcases hcreate : a.createShard with _ | e
      · rcases a.writeAgain with _ | e <;> rfl
      · rfl
    · rfl
  next =>
    rcases a.writeShard with _ | e
    · rfl
    by_cases hqueued : isRetryable e = true ∧ a.hintedHandoff = none
    · by_cases hany : consistency = .any
      · simp [hqueued, hany, Outcome.counts]
      · simp [hqueued, hany, Outcome.counts]
    · have hnot : ¬(isRetryable e = true ∧ a.hintedHandoff = none ∧ consistency = .any) :=
        fun h => hqueued ⟨h.1, h.2.1⟩
      simp [hqueued, hnot, Outcome.counts]

/-! ## The loop -/

/-- **The loop counts.** What it returns depends on the number of successes, and for a failure
on the first error. -/
theorem countResults_eq {required wrote : ℕ} (writeError : Option ShardError)
    (results : List (Option ShardError)) (hwrote : wrote < required) :
    countResults required wrote writeError results =
      if required ≤ wrote + results.countP Option.isNone then none
      else if 0 < wrote + results.countP Option.isNone then some .partialWrite
      else some (((writeError <|> results.findSome? id).map .writeFailedWith).getD .writeFailed) := by
  induction results generalizing wrote writeError with
  | nil =>
    rw [if_neg (by simpa using hwrote)]
    simp [countResults]
  | cons r results ih =>
    rcases r with _ | e
    · rw [countResults, countP_cons_of_pos rfl]
      by_cases hdone : required ≤ wrote + 1
      · rw [if_pos hdone, if_pos (by omega)]
      · rw [if_neg hdone, ih _ (by omega), add_right_comm, add_assoc]
        simp
    · rw [countResults, ih _ hwrote, countP_cons_of_neg (by simp)]
      cases writeError <;> simp

theorem required_pos (consistency : ConsistencyLevel) {owners : ℕ} (h : 0 < owners) :
    0 < required consistency owners := by
  cases consistency with
  | any => exact one_pos
  | one => exact Nat.one_pos
  | quorum => exact Nat.succ_pos _
  | all => exact h

end AndyEnv.Cluster
