import AndyEnv.Models.Batch

/-!
# No line is dropped

`ParsePoints` should return a point or an error for each line of a buffer that is neither blank
nor a comment. It skips a line of whitespace, but a line without any byte ends the loop: what
follows it is not read.
-/

namespace AndyEnv.Models

open List

def linesLoop : ℕ → Bytes → Bytes → List Bytes
  | 0, _, _ => []
  | fuel + 1, before, rest =>
    let p := scanLine before rest
    if p.2 = [] then [p.1] else p.1 :: linesLoop fuel (newline :: p.1.reverse ++ before) (p.2.drop 1)

/-- All lines of a buffer, as `scanLine` cuts them. -/
def lines (buf : Bytes) : List Bytes := linesLoop (buf.length + 1) [] buf

def pointLines (buf : Bytes) : List Bytes := (lines buf).filter (fun line => !isSkipped line)

variable {parseFloat : Bytes → Option UInt64}

/-- **No line is dropped**: each line with a point is returned as a point, in order, or is in the error. -/
def NoLineDropped (parseFloat : Bytes → Option UInt64) (now : Int64) (buf : Bytes) : Prop :=
  (parsePoints parseFloat now buf).1 =
      (pointLines buf).filterMap (fun line => (parsePoint parseFloat now (lineOf line)).toOption) ∧
    (parsePoints parseFloat now buf).2 = (pointLines buf).filterMap (fun line =>
        match parsePoint parseFloat now (lineOf line) with
        | .error e => some (lineOf line, e)
        | .ok _ => none)

/-! ## The lines of a buffer -/

/-- What a line is cut off before is empty or begins with a newline. -/
theorem head_scanLine (before rest : Bytes) :
    (scanLine before rest).2 = [] ∨ ∃ tail, (scanLine before rest).2 = newline :: tail := by
  suffices h : ∀ (rest : Bytes) (quoted fields : Bool) (before : Bytes),
      (scanLineLoop quoted fields before rest).2 = [] ∨
        ∃ tail, (scanLineLoop quoted fields before rest).2 = newline :: tail from h rest false false before
  intro rest
  induction rest with
  | nil => exact fun _ _ _ => .inl rfl
  | cons c rest ih =>
    intro quoted fields before
    rw [scanLineLoop]
    dsimp only
    split
    · exact ih _ _ _
    split
    · rename_i hnewline
      rw [Bool.and_eq_true, beq_iff_eq] at hnewline
      exact .inr ⟨rest, by rw [hnewline.1]⟩
    · exact ih _ _ _

theorem scanLine_append (before rest : Bytes) : (scanLine before rest).1 ++ (scanLine before rest).2 = rest :=
  (scanLineLoop_spec (Prod.mk.eta (p := scanLineLoop false false before rest)).symm).1.symm

/-- **The lines make up the buffer.** -/
theorem joinLines_linesLoop : ∀ (fuel : ℕ) (before rest : Bytes), rest.length < fuel →
    linesLoop fuel before rest ≠ [] ∧ joinLines (linesLoop fuel before rest) = rest
  | fuel + 1, before, rest, hfuel => by
    have happend := scanLine_append before rest
    rw [linesLoop]
    rcases head_scanLine before rest with hnil | ⟨tail, htail⟩
    · rw [if_pos hnil]
      rw [hnil, append_nil] at happend
      exact ⟨cons_ne_nil _ _, happend⟩
    have hlen := congrArg List.length happend
    rw [htail, length_append, length_cons] at hlen
    rw [htail] at happend ⊢
    rw [if_neg (cons_ne_nil _ _), drop_one, tail_cons]
    obtain ⟨hne, hjoin⟩ := joinLines_linesLoop fuel (newline :: (scanLine before rest).1.reverse ++ before) tail
      (by omega)
    refine ⟨cons_ne_nil _ _, ?_⟩
    obtain ⟨l, ls, hls⟩ := exists_cons_of_ne_nil hne
    rw [hls] at hjoin ⊢
    rw [joinLines, hjoin, happend]
    exact cons_ne_nil l ls

theorem blocksLoop_eq : ∀ (fuel : ℕ) (before rest : Bytes),
    blocksLoop fuel before rest = (linesLoop fuel before rest).takeWhile (fun line => line ≠ [])
  | 0, _, _ => rfl
  | fuel + 1, before, rest => by
    rw [blocksLoop, linesLoop]
    by_cases hempty : (scanLine before rest).1 = []
    · rw [if_pos hempty]
      split
      · rw [hempty]
        rfl
      · rw [hempty]
        rfl
    · have hkeep := fun ls : List Bytes => takeWhile_cons_of_pos
        (p := fun line => decide (line ≠ [])) (a := (scanLine before rest).1) (l := ls) (decide_eq_true hempty)
      rw [if_neg hempty]
      split
      · rename_i hnil
        rw [hnil, drop_nil, blocksLoop_nil, hkeep]
        rfl
      · rw [hkeep, blocksLoop_eq]

/-! ## What is read -/

/-- The points of the lines before the first empty one, and those that failed. -/
theorem parseBlocks_eq (now : Int64) (ls : List Bytes) : (parseBlocks parseFloat now ls).1 =
        (ls.filter (fun line => !isSkipped line)).filterMap
          (fun line => (parsePoint parseFloat now (lineOf line)).toOption) ∧
      (parseBlocks parseFloat now ls).2 =
        (ls.filter (fun line => !isSkipped line)).filterMap (fun line =>
          match parsePoint parseFloat now (lineOf line) with
          | .error e => some (lineOf line, e)
          | .ok _ => none) := by
  induction ls with
  | nil => exact ⟨rfl, rfl⟩
  | cons line ls ih =>
    rw [parseBlocks]
    cases hskip : isSkipped line with
    | true =>
      rw [if_pos rfl, filter_cons_of_neg (by simp [hskip])]
      exact ih
    | false =>
      rw [if_neg Bool.false_ne_true, filter_cons_of_pos (by simp [hskip])]
      cases hpoint : parsePoint parseFloat now (lineOf line) with
      | error e => simp [hpoint, ih.1, ih.2, Except.toOption]
      | ok pt => simp [hpoint, ih.1, ih.2, Except.toOption]

theorem length_results (now : Int64) (ls : List Bytes) :
    (ls.filterMap (fun line => (parsePoint parseFloat now (lineOf line)).toOption)).length +
      (ls.filterMap (fun line =>
        match parsePoint parseFloat now (lineOf line) with
        | .error e => some (lineOf line, e)
        | .ok _ => none)).length = ls.length := by
  induction ls with
  | nil => rfl
  | cons line ls ih =>
    rw [filterMap_cons, filterMap_cons, length_cons, ← ih]
    cases parsePoint parseFloat now (lineOf line) with
    | error e =>
      simp only [Except.toOption, length_cons]
      omega
    | ok pt =>
      simp only [Except.toOption, length_cons]
      omega

/-- From the first empty line on, all lines are blank or comments. -/
def EmptyLast (buf : Bytes) : Prop :=
  ∀ line ∈ (lines buf).dropWhile (fun line => line ≠ []), isSkipped line = true

instance (buf : Bytes) : Decidable (EmptyLast buf) := List.decidableBAll _ _

/-- The lines that are read, and those that are not. -/
theorem pointLines_eq (buf : Bytes) :
    pointLines buf = (blocks buf).filter (fun line => !isSkipped line) ++
      ((lines buf).dropWhile (fun line => line ≠ [])).filter (fun line => !isSkipped line) := by
  rw [blocks, blocksLoop_eq, ← filter_append]
  show (lines buf).filter _ = (List.takeWhile _ (lines buf) ++ _).filter _
  rw [takeWhile_append_dropWhile]

/-- **No line of a buffer is dropped if and only if** no line with a point stands behind an empty line. -/
theorem noLineDropped_iff (parseFloat : Bytes → Option UInt64) (now : Int64) (buf : Bytes) :
    joinLines (lines buf) = buf ∧ (NoLineDropped parseFloat now buf ↔ EmptyLast buf) := by
  refine ⟨(joinLines_linesLoop _ [] buf (Nat.lt_succ_self _)).2, ?_⟩
  have hparse : parsePoints parseFloat now buf = parseBlocks parseFloat now (blocks buf) :=
    parsePointsLoop_eq now _ [] buf
  obtain ⟨hpoints, hfailed⟩ := @parseBlocks_eq parseFloat now (blocks buf)
  have hrest : ((lines buf).dropWhile (fun line => line ≠ [])).filter (fun line => !isSkipped line) = [] ↔
      EmptyLast buf := by
    rw [filter_eq_nil_iff]
    unfold EmptyLast
    simp only [Bool.not_eq_true', Bool.not_eq_false]
  unfold NoLineDropped
  rw [hparse, hpoints, hfailed, ← hrest]
  constructor
  · rintro ⟨h1, h2⟩
    have hlen := @length_results parseFloat now (pointLines buf)
    rw [← h1, ← h2, length_results, pointLines_eq, length_append] at hlen
    exact eq_nil_of_length_eq_zero (by omega)
  · intro h
    rw [pointLines_eq, h, append_nil]
    exact ⟨rfl, rfl⟩

/-- `a v=1`, an empty line, and `b v=2`: the last line is not read. -/
theorem line_dropped :
    pointLines [97, 32, 118, 61, 49, 10, 10, 98, 32, 118, 61, 50] = [[97, 32, 118, 61, 49], [98, 32, 118, 61, 50]] ∧
      (parsePoints parseOne 0 [97, 32, 118, 61, 49, 10, 10, 98, 32, 118, 61, 50]) =
        ([⟨[97], [118, 61, 49], 0⟩], []) := by
  decide +kernel

end AndyEnv.Models
