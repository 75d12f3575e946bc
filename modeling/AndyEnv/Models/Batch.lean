import AndyEnv.Models.LineRoundTrip

/-!
# Batches of lines

The log of the engine keeps points as text: the lines of a batch, joined by
newlines. A batch that was accepted is not always accepted again. Tags are
compared in pairs from both ends, so that two of the same name are found only
once the tags are sorted; whitespace before the fields hides that they begin
with an equals sign; a backslash at the end of the line escapes the space that
is written behind it; and a quote in the key counts for the end of the line
only behind a space. `SafeBatch` excludes these four.
-/

namespace AndyEnv.Models

open Escape
open List

variable {parseFloat : Bytes → Option UInt64}

/-! ## Blocks -/

def blocksLoop : ℕ → Bytes → Bytes → List Bytes
  | 0, _, _ => []
  | fuel + 1, before, rest =>
    let p := scanLine before rest
    if p.1 = [] then [] else p.1 :: blocksLoop fuel (newline :: p.1.reverse ++ before) (p.2.drop 1)

/-- The blocks that `ParsePoints` cuts a buffer into, up to the first empty one. -/
def blocks (buf : Bytes) : List Bytes := blocksLoop (buf.length + 1) [] buf

def parseBlocks (parseFloat : Bytes → Option UInt64) (now : Int64) :
    List Bytes → List Point × List (Bytes × ParseError)
  | [] => ([], [])
  | block :: blocks =>
    let next := parseBlocks parseFloat now blocks
    if isSkipped block then next
    else
      match parsePoint parseFloat now (lineOf block) with
      | .error e => (next.1, (lineOf block, e) :: next.2)
      | .ok pt => (pt :: next.1, next.2)

theorem parsePointsLoop_nil (now : Int64) (fuel : ℕ) (before : Bytes) :
    parsePointsLoop parseFloat now fuel before [] = ([], []) := by
  cases fuel <;> rfl

theorem parsePointsLoop_eq (now : Int64) : ∀ (fuel : ℕ) (before rest : Bytes),
    parsePointsLoop parseFloat now fuel before rest =
      parseBlocks parseFloat now (blocksLoop fuel before rest)
  | 0, _, _ => rfl
  | fuel + 1, before, rest => by
    rw [parsePointsLoop, blocksLoop]
    dsimp only
    split
    · rfl
    have hnext : (if (scanLine before rest).2.length ≤ 1 then ([], [])
        else parsePointsLoop parseFloat now fuel
          (newline :: (scanLine before rest).1.reverse ++ before) ((scanLine before rest).2.drop 1)) =
        parsePointsLoop parseFloat now fuel
          (newline :: (scanLine before rest).1.reverse ++ before) ((scanLine before rest).2.drop 1) := by
      split
      · rename_i hlen
        rw [drop_of_length_le hlen, parsePointsLoop_nil]
      · rfl
    rw [hnext, parsePointsLoop_eq now fuel]
    rfl

/-- The states in which `scanLine` leaves its blocks: all but the last end outside
of quotes. -/
def WellCut : List Bytes → Prop
  | [] => True
  | block :: blocks => (∃ before q f, lineState false false before block = some (q, f) ∧
      (blocks ≠ [] → q = false)) ∧ WellCut blocks

theorem blocksLoop_nil (fuel : ℕ) (before : Bytes) : blocksLoop fuel before [] = [] := by
  cases fuel <;> rfl

theorem wellCut_blocksLoop : ∀ (fuel : ℕ) (before rest : Bytes), WellCut (blocksLoop fuel before rest)
  | 0, _, _ => trivial
  | fuel + 1, before, rest => by
    rw [blocksLoop]
    split
    · trivial
    obtain ⟨-, q, f, hstate, hrest⟩ := scanLineLoop_spec
      (Prod.mk.eta (p := scanLineLoop false false before rest)).symm
    refine ⟨⟨before, q, f, hstate, fun hne => hrest (fun hnil => hne ?_)⟩,
      wellCut_blocksLoop fuel _ _⟩
    rw [show (scanLine before rest).2 = [] from hnil, drop_nil, blocksLoop_nil]

/-! ## The round trip -/

/-- Points whose lines are read and cut again as they were. -/
def AllReadAgain (parseFloat : Bytes → Option UInt64) : List Point → Prop
  | [] => True
  | pt :: ps => (∃ q, ReadsAgain parseFloat q pt ∧ (ps ≠ [] → q = false)) ∧ AllReadAgain parseFloat ps

/-- The condition on a batch: each line that is not skipped is safe. -/
def SafeBatch (buf : Bytes) : Prop :=
  ∀ block ∈ blocks buf, isSkipped block = false → ∃ k tail, SafeBlock block k tail

theorem allReadAgain {now : Int64} : ∀ {blocks : List Bytes} {ps : List Point}, WellCut blocks →
    (∀ block ∈ blocks, isSkipped block = false → ∃ k tail, SafeBlock block k tail) →
      parseBlocks parseFloat now blocks = (ps, []) → AllReadAgain parseFloat ps
  | [], ps, _, _, h => by
    obtain ⟨rfl, -⟩ := Prod.mk.inj h
    trivial
  | block :: blocks, ps, hcut, hsafe, h => by
    obtain ⟨⟨before, q, f, hstate, hq⟩, hcut⟩ := hcut
    have hsafe' := fun b hb => hsafe b (mem_cons_of_mem _ hb)
    rw [parseBlocks] at h
    split at h
    · exact allReadAgain hcut hsafe' h
    rename_i hskip
    rw [Bool.not_eq_true] at hskip
    obtain ⟨k, tail, hblock⟩ := hsafe block mem_cons_self hskip
    split at h
    · cases (Prod.mk.inj h).2
    rename_i pt hpt
    obtain ⟨hps, hfailed⟩ := Prod.mk.inj h
    have hnext : parseBlocks parseFloat now blocks =
        ((parseBlocks parseFloat now blocks).1, []) := Prod.ext rfl hfailed
    rw [← hps]
    refine ⟨⟨q, readsAgain hblock hskip hpt hstate, fun hne => hq ?_⟩,
      allReadAgain hcut hsafe' hnext⟩
    rintro rfl
    exact hne (Prod.mk.inj hnext).1.symm

theorem ReadsAgain.skipWhitespace_eq {q : Bool} {pt : Point} (h : ReadsAgain parseFloat q pt) :
    skipWhitespace pt.string = pt.string := by
  obtain ⟨c, hhead, hc, -⟩ := h.head
  cases hs : pt.string with
  | nil => rfl
  | cons d line =>
    rw [hs] at hhead
    exact skipWhitespace_cons (by rw [Option.some.inj hhead]; exact hc) line

theorem getLast?_string (pt : Point) : pt.string.getLast? ≠ some newline := by
  intro h
  rw [Point.string, List.getLast?_append_of_ne_nil _ (cons_ne_nil _ _)] at h
  exact (plain_formatInt pt.time newline (mem_of_getLast? h)).2 rfl

theorem parseBlocks_strings (now : Int64) : ∀ {ps : List Point}, AllReadAgain parseFloat ps →
    parseBlocks parseFloat now (ps.map Point.string) = (ps, [])
  | [], _ => rfl
  | pt :: ps, h => by
    obtain ⟨⟨q, hpt, -⟩, hps⟩ := h
    obtain ⟨c, hhead, -, hhash⟩ := hpt.head
    have hskip : isSkipped pt.string = false := by
      rw [isSkipped, hpt.skipWhitespace_eq, Bool.or_eq_false_iff, beq_eq_false_iff_ne, hhead]
      refine ⟨?_, fun he => hhash (Option.some.inj he)⟩
      cases hs : pt.string with
      | nil =>
        rw [hs] at hhead
        cases hhead
      | cons d line => rfl
    have hline : lineOf pt.string = pt.string := by
      rw [lineOf, if_neg (getLast?_string pt), hpt.skipWhitespace_eq]
    rw [map_cons, parseBlocks, parseBlocks_strings now hps, if_neg (by simp [hskip]), hline,
      hpt.point now]

theorem blocksLoop_joinLines : ∀ {ps : List Point} {fuel : ℕ} {before : Bytes},
    AllReadAgain parseFloat ps → (joinLines (ps.map Point.string)).length < fuel →
      blocksLoop fuel before (joinLines (ps.map Point.string)) = ps.map Point.string
  | [], fuel, before, _, _ => blocksLoop_nil fuel before
  | [pt], fuel + 1, before, h, _ => by
    obtain ⟨⟨q, hpt, -⟩, -⟩ := h
    obtain ⟨f, hstate⟩ := hpt.state before
    have hscan : scanLine before pt.string = (pt.string, []) := by
      have := @scanLineLoop_append [] _ _ _ _ _ _ hstate
      rwa [append_nil, scanLineLoop, append_nil] at this
    have hne : pt.string ≠ [] := by
      obtain ⟨c, hhead, -⟩ := hpt.head
      exact ne_nil_of_mem (mem_of_head? hhead)
    change blocksLoop (fuel + 1) before pt.string = [pt.string]
    rw [blocksLoop, hscan, if_neg hne, drop_nil, blocksLoop_nil]
  | pt :: pt' :: ps, fuel + 1, before, h, hfuel => by
    obtain ⟨⟨q, hpt, hq⟩, hps⟩ := h
    obtain ⟨f, hstate⟩ := hpt.state before
    rw [hq (cons_ne_nil _ _)] at hstate
    have hjoin : joinLines ((pt :: pt' :: ps).map Point.string) =
        pt.string ++ newline :: joinLines ((pt' :: ps).map Point.string) := rfl
    have hscan : scanLine before (pt.string ++ newline :: joinLines ((pt' :: ps).map Point.string)) =
        (pt.string, newline :: joinLines ((pt' :: ps).map Point.string)) := by
      rw [scanLine, scanLineLoop_append hstate, scanLineLoop, if_neg (by simp [newline, quote]),
        if_pos (by simp), append_nil]
    have hne : pt.string ≠ [] := by
      obtain ⟨c, hhead, -⟩ := hpt.head
      exact ne_nil_of_mem (mem_of_head? hhead)
    rw [hjoin] at hfuel ⊢
    have hnext := @blocksLoop_joinLines (pt' :: ps) fuel (newline :: pt.string.reverse ++ before) hps
      (by rw [length_append, length_cons] at hfuel; omega)
    rw [blocksLoop, hscan, if_neg hne, drop_one, tail_cons, hnext]
    rfl

def Point.view (parseFloat : Bytes → Option UInt64) (p : Point) :
    Bytes × Option (Bytes → Option FieldValue) × Int64 :=
  (p.key, p.decodedFields parseFloat, p.time)

/-- A buffer that is accepted is, written again, accepted with the same points. -/
def RoundTrips (parseFloat : Bytes → Option UInt64) (now now' : Int64) (buf : Bytes) : Prop :=
  ∀ ps, parsePoints parseFloat now buf = (ps, []) →
    ∃ ps', parsePoints parseFloat now' (joinLines (ps.map Point.string)) = (ps', []) ∧
      ps'.map (Point.view parseFloat) = ps.map (Point.view parseFloat)

theorem not_roundTrips_of_failed {now now' : Int64} {buf : Bytes} {ps : List Point}
    (h : parsePoints parseFloat now buf = (ps, []))
    (hfailed : (parsePoints parseFloat now' (joinLines (ps.map Point.string))).2 ≠ []) :
    ¬ RoundTrips parseFloat now now' buf := by
  intro hround
  obtain ⟨ps', hps', -⟩ := hround ps h
  exact hfailed (by rw [hps'])

def parseOne (_ : Bytes) : Option UInt64 := some 0x3FF0000000000000

end AndyEnv.Models
