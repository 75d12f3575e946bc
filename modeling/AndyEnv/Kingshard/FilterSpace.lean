import AndyEnv.Lib.Bytes

/-!
# White space in a statement

`filterSpace` deletes from the slice its outer loop runs over. A flag remembers that the byte
before is the space of a run that is still open.
-/

namespace AndyEnv.Kingshard

open List

def isSpace (ch : UInt8) : Bool := ch = 32 ∨ ch = 10 ∨ ch = 13 ∨ ch = 9

/-- The inner loop, and the flag it leaves: set if it has deleted up to the end. -/
def deleteRun : ℕ → Bytes → ℕ → Option (Bytes × Bool)
  | 0, _, _ => none
  | fuel + 1, sql, j =>
    if j < sql.length then
      sql[j]?.bind fun ch =>
        if isSpace ch then deleteRun fuel (sql.eraseIdx j) j else some (sql, false)
    else some (sql, true)

/-- The outer loop: `none` if an index is out of range. -/
def filterLoop : ℕ → Bytes → ℕ → Bool → Option Bytes
  | 0, _, _, _ => none
  | fuel + 1, sql, i, hasSpace =>
    if i < sql.length then
      sql[i]?.bind fun ch =>
        let sql := if isSpace ch then sql.set i 32 else sql
        if isSpace ch ∧ ¬hasSpace then filterLoop fuel sql (i + 1) true
        else if hasSpace then
          (deleteRun (fuel + 1) sql i).bind fun p => filterLoop fuel p.1 (i + 1) p.2
        else filterLoop fuel sql (i + 1) hasSpace
    else some sql

def filterSpace (sqlOld : Bytes) : Option Bytes :=
  filterLoop (sqlOld.length + 1) sqlOld 0 false

/-- Every maximal run of white space is replaced by one space. -/
def collapse : Bytes → Bytes
  | [] => []
  | ch :: sql =>
    if isSpace ch then 32 :: collapse (sql.dropWhile isSpace) else ch :: collapse sql
termination_by sql => sql.length
decreasing_by
  · exact Nat.lt_succ_of_le (dropWhile_suffix isSpace).length_le
  · exact Nat.lt_succ_self _

variable {fuel : ℕ}

theorem deleteRun_eq (done rest : Bytes) (hfuel : rest.length < fuel) :
    deleteRun fuel (done ++ rest) done.length =
      some (done ++ rest.dropWhile isSpace, (rest.dropWhile isSpace).isEmpty) := by
  induction fuel generalizing rest with
  | zero => exact absurd hfuel (Nat.not_lt_zero _)
  | succ fuel ih =>
    cases rest with
    | nil => simp [deleteRun]
    | cons ch rest =>
      have hih := ih rest (Nat.lt_of_succ_lt_succ hfuel)
      cases hch : isSpace ch <;> simp [deleteRun, hch, eraseIdx_append_of_length_le, hih]

theorem filterLoop_eq (done rest : Bytes) (hasSpace : Bool) (hfuel : rest.length < fuel) :
    filterLoop fuel (done ++ rest) done.length hasSpace =
      some (done ++ collapse (if hasSpace then rest.dropWhile isSpace else rest)) := by
  induction fuel generalizing done rest hasSpace with
  | zero => exact absurd hfuel (Nat.not_lt_zero _)
  | succ fuel ih =>
    cases rest with
    | nil => simp [filterLoop, collapse]
    | cons ch rest =>
      rw [length_cons] at hfuel
      have hnext := fun sp c more (hle : more.length ≤ rest.length) =>
        ih (done ++ [c]) more sp (by omega)
      cases hasSpace with
      | false => cases hch : isSpace ch <;> simp_all [filterLoop, collapse]
      | true =>
        cases hch : isSpace ch with
        | false =>
          have hrun := deleteRun_eq done (ch :: rest) hfuel
          simp_all [filterLoop, collapse]
        | true =>
          have hrun := deleteRun_eq done (32 :: rest) hfuel
          have hle := (dropWhile_suffix isSpace (l := rest)).length_le
          rw [dropWhile_cons_of_pos rfl] at hrun
          rw [if_pos rfl, dropWhile_cons_of_pos hch]
          cases hdrop : rest.dropWhile isSpace with
          | nil =>
            rw [hdrop] at hrun
            obtain ⟨n, rfl⟩ := Nat.exists_eq_succ_of_ne_zero (n := fuel) (by omega)
            simp [filterLoop, collapse, hch, hrun]
          | cons c more =>
            have hc := head_dropWhile_not isSpace (l := rest) (by rw [hdrop]; exact cons_ne_nil _ _)
            simp only [hdrop, head_cons] at hrun hle hc
            have hstep := hnext false c more (by grind)
            simp_all [filterLoop, collapse]

/-- **White space is normalised**, and no index is out of range. -/
theorem filterSpace_eq (sql : Bytes) : filterSpace sql = some (collapse sql) :=
  filterLoop_eq [] sql false (Nat.lt_succ_self _)

end AndyEnv.Kingshard
