import AndyEnv.Tsm1.OrderedFiles

/-!
# Descending reads of a file

A descending cursor lists where the blocks of the id begin, decodes the last one
that does not begin after the time, and goes back from there. It looks at two
values of that block only: the last one, and, if that is after the time, the one
before it, whatever its time.
-/

namespace AndyEnv.Tsm1

open Codec (Simple8b Snappy fileCodec)
open List Option Values

variable {S : Simple8b} {Z : Snappy} {ty : UInt64 → FieldType} {d : DataFile}

/-! ## Values after a time -/

abbrev Values.AllAfter (seek : Int64) (a : Values) : Prop := ∀ v ∈ a, seek < v.time

namespace Values

variable {seek : Int64} {vs : Values}

theorem lt_of_ascending_append {a b : Values} (h : Ascending (a ++ b)) {v w : Value} (hv : v ∈ a)
    (hw : w ∈ b) : v.time < w.time :=
  Int64.lt_iff_toInt_lt.mpr ((Keyed.ascending_append.mp h).2.2 v hv w hw)

theorem minTime_gt_iff {t : Int64} (hasc : Ascending vs) (ht : vs.minTime = some t) :
    t > seek ↔ AllAfter seek vs := by
  cases vs with
  | nil => cases ht
  | cons v vs =>
    obtain rfl : v.time = t := Option.some.inj ht
    constructor
    · intro hlt
      refine forall_mem_cons.mpr ⟨hlt, fun w hw => ?_⟩
      exact Int64.lt_trans hlt (Int64.lt_iff_toInt_lt.mpr ((Keyed.ascending_cons.mp hasc).1 w hw))
    · intro h
      exact h v mem_cons_self

/-- **What the loop over a block returns**: one of the last two values, and at
most the last one is passed over. -/
theorem lastUpTo_spec (hvs : ¬ AllAfter seek vs) :
    ∃ val vals above, vs = vals ++ val :: above ∧ IndexCursor.lastUpTo seek vs = some (val, vals) ∧
      above.length ≤ 1 ∧ AllAfter seek above ∧ (above = [] → val.time ≤ seek) := by
  rcases eq_nil_or_concat' vs with rfl | ⟨init, last, rfl⟩
  · exact absurd (fun v hv => absurd hv not_mem_nil) hvs
  rw [IndexCursor.lastUpTo, reverse_append]
  by_cases hle : seek ≥ last.time
  · refine ⟨last, init, [], rfl, ?_, Nat.zero_le _, fun v hv => absurd hv not_mem_nil, fun _ => hle⟩
    simp [hle]
  have hlt : seek < last.time := Int64.not_le.mp hle
  rcases eq_nil_or_concat' init with rfl | ⟨vals, val, rfl⟩
  · refine absurd (fun v hv => ?_) hvs
    rwa [mem_singleton.mp hv]
  · refine ⟨val, vals, [last], ?_, ?_, le_rfl, forall_mem_singleton.mpr hlt, nofun⟩
    · rw [append_assoc]
      rfl
    · simp [hle]

/-- The last block of a run that does not begin after the time. -/
theorem allAfter_or_split (seek : Int64) (vss : List Values) : (∀ vs ∈ vss, AllAfter seek vs) ∨
      ∃ front vs back, vss = front ++ vs :: back ∧ ¬ AllAfter seek vs ∧ ∀ ws ∈ back, AllAfter seek ws := by
  induction vss with
  | nil => exact .inl nofun
  | cons vs vss ih =>
    rcases ih with hall | ⟨front, ws, back, rfl, hws, hback⟩
    · by_cases hvs : AllAfter seek vs
      · exact .inl (forall_mem_cons.mpr ⟨hvs, hall⟩)
      · exact .inr ⟨[], vs, vss, rfl, hvs, hall⟩
    · exact .inr ⟨vs :: front, ws, back, rfl, hws, hback⟩

end Values

/-! ## Where the blocks begin -/

theorem Run.split {id : UInt64} {pre post : List Block} {front vss : List Values}
    (h : Run S Z d id pre (front ++ vss) post) :
    Run S Z d id (pre ++ encodeRun (fileCodec S Z) id front) vss post where
  blocks := by
    rw [h.blocks, encodeRun, map_append, append_assoc, append_assoc]
    rfl
  roundTrips vs hvs := h.roundTrips vs (mem_append_right front hvs)
  post := h.post

namespace IndexCursor

def positionsOf (S : Simple8b) (Z : Snappy) (id : UInt64) : List Block → List Values → List UInt32
  | _, [] => []
  | pre, vs :: vss => positionAfter pre :: positionsOf S Z id (pre ++ [blockOf S Z id vs]) vss

variable {id : UInt64} {pre post : List Block} {vs : Values} {vss front back : List Values}
  {seek : Int64} {c : IndexCursor}

section

variable (pre : List Block)

theorem length_positionsOf (vss : List Values) :
    (positionsOf S Z id pre vss).length = vss.length := by
  induction vss generalizing pre with
  | nil => rfl
  | cons vs vss ih => rw [positionsOf, length_cons, ih, length_cons]

theorem positionsOf_append (front back : List Values) :
    positionsOf S Z id pre (front ++ back) = positionsOf S Z id pre front ++
      positionsOf S Z id (pre ++ encodeRun (fileCodec S Z) id front) back := by
  induction front generalizing pre with
  | nil => rw [nil_append, encodeRun, map_nil, append_nil, positionsOf, nil_append]
  | cons vs front ih =>
    rw [cons_append, positionsOf, positionsOf, ih, append_assoc]
    rfl

theorem getElem?_positionsOf (front : List Values) (vs : Values) (back : List Values) :
    (positionsOf S Z id pre (front ++ vs :: back))[front.length]? =
      some (positionAfter (pre ++ encodeRun (fileCodec S Z) id front)) := by
  rw [positionsOf_append, List.getElem?_append_right (by rw [length_positionsOf]), length_positionsOf,
    Nat.sub_self]
  rfl

theorem take_positionsOf (front back : List Values) :
    (positionsOf S Z id pre (front ++ back)).take front.length = positionsOf S Z id pre front := by
  rw [positionsOf_append]
  exact take_left' (length_positionsOf pre front)

end

section Steps

variable (hd : d.WellFormed (fileCodec S Z) ty)

include hd

/-- **The positions that `setBlockPositions` collects.** -/
theorem blockPositionsFrom_run (h : Run S Z d id pre vss post) {fuel : ℕ} (hfuel : vss.length < fuel) :
    blockPositionsFrom d id fuel (positionAfter pre) = some (positionsOf S Z id pre vss) := by
  induction vss generalizing pre fuel with
  | nil =>
    obtain ⟨fuel, rfl⟩ := Nat.exists_eq_succ_of_ne_zero (Nat.ne_of_gt hfuel)
    rw [blockPositionsFrom]
    rcases h.nil_cases hd with heq | ⟨b, hne, hat, hlength⟩
    · rw [heq, if_pos (UInt32.le_refl _)]
      rfl
    · split
      · rfl
      · simp [hat, hlength, hne, positionsOf]
  | cons vs vss ih =>
    obtain ⟨fuel, rfl⟩ := Nat.exists_eq_succ_of_ne_zero (Nat.ne_of_gt (Nat.lt_of_le_of_lt (Nat.zero_le _) hfuel))
    have hnext := DataFile.WellFormed.next_position pre (blockOf S Z id vs)
    have hrest := ih h.tail (Nat.lt_of_succ_lt_succ hfuel)
    rw [blockPositionsFrom, if_neg (UInt32.not_le.mpr (h.position_lt hd))]
    simp only [(h.header hd).1, (h.header hd).2, bind_eq_bind, bind_some, hnext, hrest,
      ne_eq, not_true_eq_false, if_false]
    rfl

/-! ## The loops -/

variable (hf : c.f = some d) (hascending : c.ascending = false)
include hf

theorem setBlockPositions_run (h : Run S Z d c.id pre vss post)
    (hpos : c.pos = positionAfter pre) (hnil : c.blockPositions = []) :
    c.setBlockPositions = some { c with blockPositions := positionsOf S Z c.id pre vss } := by
  rw [setBlockPositions, hf, hpos, hnil]
  simp only [bind_eq_bind, bind_some, nil_append,
    blockPositionsFrom_run hd h (Nat.lt_succ_of_le h.length_le)]
  rfl

include hascending

section

variable (h : Run S Z d id pre (front ++ vs :: back) post)
include h

theorem decodeBlock_at :
    c.decodeBlock S Z (positionAfter (pre ++ encodeRun (fileCodec S Z) id front)) =
      some { c with vals := vs } := by
  rw [h.split.decodeBlock hd hf, if_neg (by rw [hascending]; exact Bool.false_ne_true)]

/-- **One turn of the loop**: a block that begins after the time is passed over. -/
theorem seekDescendingLoop_succ
    (hpos : c.blockPositions = positionsOf S Z id pre (front ++ vs :: back)) (hasc : Ascending vs) :
    (AllAfter seek vs →
      seekDescendingLoop S Z seek (front.length + 1) c = seekDescendingLoop S Z seek front.length c) ∧
    ∀ {val vals}, ¬ AllAfter seek vs → lastUpTo seek vs = some (val, vals) →
      seekDescendingLoop S Z seek (front.length + 1) c =
        some (val.entry, { c with vals := vals, blockPositions := positionsOf S Z id pre front }) := by
  obtain ⟨v, rest, hcons⟩ := exists_cons_of_ne_nil h.split.roundTrips_head.ne_nil
  have ht : vs.minTime = some v.time := by rw [hcons]; rfl
  have hafter : v.time > seek ↔ AllAfter seek vs := minTime_gt_iff hasc ht
  have hmin := h.split.blockMinTime hd
  have htake : c.blockPositions.take front.length = positionsOf S Z id pre front := by
    rw [hpos, take_positionsOf]
  rw [seekDescendingLoop, hpos, getElem?_positionsOf]
  refine ⟨fun hvs => ?_, fun hvs hlast => ?_⟩
  · simp only [hf, bind_eq_bind, bind_some, hmin, ht, if_pos (hafter.mpr hvs)]
  · simp only [hf, bind_eq_bind, bind_some, hmin, ht, if_neg (mt hafter.mp hvs),
      decodeBlock_at hd hf hascending h, htake, hlast]
    rfl

end

theorem seekDescendingLoop_skip {rest : List Values} (h : Run S Z d id pre (front ++ (back ++ rest)) post)
    (hpos : c.blockPositions = positionsOf S Z id pre (front ++ (back ++ rest)))
    (hasc : ∀ vs ∈ back, Ascending vs) (hback : ∀ vs ∈ back, AllAfter seek vs) :
    seekDescendingLoop S Z seek (front ++ back).length c = seekDescendingLoop S Z seek front.length c := by
  induction back using List.reverseRecOn generalizing rest with
  | nil => rw [append_nil]
  | append_singleton back vs ih =>
    have hsplit : front ++ (back ++ [vs] ++ rest) = (front ++ back) ++ vs :: rest := by
      simp only [append_assoc, singleton_append]
    have hrun : Run S Z d id pre ((front ++ back) ++ vs :: rest) post := hsplit ▸ h
    rw [← append_assoc, length_append, length_singleton,
      (seekDescendingLoop_succ hd hf hascending hrun (hsplit ▸ hpos)
        (hasc vs (mem_append_right _ mem_cons_self))).1 (hback vs (mem_append_right _ mem_cons_self))]
    rw [append_assoc back [vs] rest] at h hpos
    exact ih h hpos (forall_mem_append.mp hasc).1
      (forall_mem_append.mp hback).1

/-! ## A seek in a file -/

theorem seekDescending_miss (h : Run S Z d c.id pre vss post)
    (hpos : c.pos = positionAfter pre) (hnil : c.blockPositions = [])
    (hasc : ∀ vs ∈ vss, Ascending vs) (hafter : ∀ vs ∈ vss, AllAfter seek vs) :
    seekDescending S Z seek c =
      some ((EOF, none), { c with blockPositions := positionsOf S Z c.id pre vss }) := by
  have hvss : Run S Z d c.id pre ([] ++ (vss ++ [])) post := by
    rwa [append_nil]
  have hloop := seekDescendingLoop_skip hd
    (c := { c with blockPositions := positionsOf S Z c.id pre vss }) hf hascending hvss
    (by rw [append_nil]; rfl) hasc hafter
  rw [seekDescending, setBlockPositions_run hd hf h hpos hnil]
  simp only [bind_eq_bind, bind_some, length_positionsOf]
  exact hloop

theorem seekDescending_hit (h : Run S Z d c.id pre (front ++ vs :: back) post)
    (hpos : c.pos = positionAfter pre) (hnil : c.blockPositions = [])
    (hasc : ∀ ws ∈ vs :: back, Ascending ws) (hvs : ¬ AllAfter seek vs)
    (hback : ∀ ws ∈ back, AllAfter seek ws) {val : Value} {vals : Values}
    (hlast : lastUpTo seek vs = some (val, vals)) : seekDescending S Z seek c =
      some (val.entry, { c with vals := vals, blockPositions := positionsOf S Z c.id pre front }) := by
  have hsplit : front ++ vs :: back = (front ++ [vs]) ++ (back ++ []) := by
    rw [append_nil, append_assoc, singleton_append]
  have hskip := seekDescendingLoop_skip hd
    (c := { c with blockPositions := positionsOf S Z c.id pre (front ++ vs :: back) })
    hf hascending (hsplit ▸ h) (congrArg (positionsOf S Z c.id pre) hsplit)
    (forall_mem_cons.mp hasc).2 hback
  have hhit := (seekDescendingLoop_succ hd
    (c := { c with blockPositions := positionsOf S Z c.id pre (front ++ vs :: back) })
    hf hascending h rfl (hasc vs mem_cons_self)).2 hvs hlast
  have hlength : (front ++ [vs]).length = front.length + 1 := length_append
  rw [append_assoc, singleton_append, hlength, hhit] at hskip
  rw [seekDescending, setBlockPositions_run hd hf h hpos hnil]
  simp only [bind_eq_bind, bind_some, length_positionsOf]
  exact hskip

end Steps

/-- The values of a file that a descending cursor has not returned yet. -/
structure Below (S : Simple8b) (Z : Snappy) (ty : UInt64 → FieldType) (c : IndexCursor)
    (rest : Values) : Prop where
  ascending : c.ascending = false
  file : ∃ d pre front back post, d.WellFormed (fileCodec S Z) ty ∧ c.f = some d ∧
    Run S Z d c.id pre (front ++ back) post ∧ c.blockPositions = positionsOf S Z c.id pre front ∧
    rest = front.flatten ++ c.vals

/-- **One step down.** -/
theorem Below.nextDescending {rest : Values} (h : Below S Z ty c rest) :
    (rest = [] → IndexCursor.nextDescending S Z c = some ((EOF, none), c)) ∧
      ∀ v init, rest = init ++ [v] →
        ∃ c', IndexCursor.nextDescending S Z c = some (v.entry, c') ∧ Below S Z ty c' init := by
  obtain ⟨hasc, d, pre, front, back, post, hd, hf, hrun, hpos, rfl⟩ := h
  rcases eq_nil_or_concat' c.vals with hvals | ⟨vals, val, hvals⟩
  · rw [hvals, append_nil]
    rcases eq_nil_or_concat' front with rfl | ⟨front, vs, rfl⟩
    · refine ⟨fun _ => ?_, fun v init hnil => ?_⟩
      · rw [IndexCursor.nextDescending, hvals, hpos]
        rfl
      · exact absurd hnil.symm (append_ne_nil_of_right_ne_nil _ (cons_ne_nil _ _))
    rw [append_assoc, singleton_append] at hrun
    obtain ⟨vals, val, hvs⟩ :=
      (eq_nil_or_concat' vs).resolve_left hrun.split.roundTrips_head.ne_nil
    have hflat : (front ++ [vs]).flatten = (front.flatten ++ vals) ++ [val] := by
      rw [flatten_concat, hvs, append_assoc]
    rw [hflat]
    refine ⟨fun hnil => ?_, fun v init heq => ?_⟩
    · exact absurd hnil (append_ne_nil_of_right_ne_nil _ (cons_ne_nil _ _))
    · obtain ⟨rfl, hlast⟩ := append_inj' heq rfl
      cases hlast
      have htake : c.blockPositions.take front.length = positionsOf S Z c.id pre front := by
        rw [hpos, take_positionsOf]
      refine ⟨{ c with vals := vals, blockPositions := positionsOf S Z c.id pre front }, ?_,
        hasc, d, pre, front, vs :: back, post, hd, hf, hrun, rfl, rfl⟩
      rw [IndexCursor.nextDescending, hvals, hpos, length_positionsOf, length_append]
      simp only [List.getLast?_nil, length_singleton]
      rw [nextDescendingLoop, hpos, getElem?_positionsOf]
      simp only [bind_eq_bind, bind_some, decodeBlock_at hd hf hasc hrun, htake, hvs,
        List.getLast?_concat, dropLast_concat]
      rfl
  · rw [hvals, ← append_assoc]
    refine ⟨fun hnil => ?_, fun v init heq => ?_⟩
    · exact absurd hnil (append_ne_nil_of_right_ne_nil _ (cons_ne_nil _ _))
    · obtain ⟨rfl, hlast⟩ := append_inj' heq rfl
      cases hlast
      refine ⟨{ c with vals := vals }, ?_, hasc, d, pre, front, back, post, hd, hf, hrun, hpos, rfl⟩
      rw [IndexCursor.nextDescending, hvals, List.getLast?_concat, dropLast_concat]

/-- **A reading of the values below**, the last one first. -/
theorem Below.rest {rest : Values} (h : Below S Z ty c rest) (hne : ∀ v ∈ rest, v.time ≠ EOF) :
    (cursor S Z).Rest EOF c (rest.reverse.map Value.entry) := by
  have hnext : ∀ {c : IndexCursor} {rest : Values}, Below S Z ty c rest →
      (cursor S Z).next c = IndexCursor.nextDescending S Z c :=
    fun h => if_neg (by rw [h.ascending]; exact Bool.false_ne_true)
  refine KeyedCursor.Rest.of_ahead
    (fun c es => ∃ rest : Values, es = rest.reverse.map Value.entry ∧ Below S Z ty c rest) ?_ ?_
    ⟨rest, rfl, h⟩ ?_
  · rintro c ⟨rest, hnil, hbelow⟩
    have hrest : rest = [] := reverse_eq_nil_iff.mp (map_eq_nil_iff.mp hnil.symm)
    exact ⟨none, c, (hnext hbelow).trans (hbelow.nextDescending.1 hrest)⟩
  · rintro c e es ⟨rest, hcons, hbelow⟩
    obtain ⟨v, init, hrest, rfl, rfl⟩ := map_eq_cons_iff.mp hcons.symm
    have heq : rest = init.reverse ++ [v] := by
      rw [← reverse_cons, ← hrest, reverse_reverse]
    obtain ⟨c', hc', hbelow'⟩ := hbelow.nextDescending.2 v init.reverse heq
    exact ⟨c', (hnext hbelow).trans hc', init.reverse, by rw [reverse_reverse], hbelow'⟩
  · intro e he
    obtain ⟨v, hv, rfl⟩ := mem_map.mp he
    exact hne v (mem_reverse.mp hv)

end IndexCursor

end AndyEnv.Tsm1
