import AndyEnv.Tsm1.Value

/-!
# Combining new values with the blocks of one id

`rewriteFile` decodes the old blocks of an id one by one and combines each
with the new values; the values that a block could not take go into the next
call. This module is that loop on decoded values. What it stores is the
newest-wins merge of the old and the new values exactly when no new value is
in the way of an overfull block (`combined_eq_iff`).
-/

namespace AndyEnv.Tsm1

open List Keyed Values

def startTime : Values → ℤ
  | [] => 0
  | v :: _ => v.unixNano

/-- One call of `DecodeAndCombine`, on the decoded block: the values of the
block it writes and the remainder. `next` is the start of the id's next
block. -/
def combineOne (max : ℕ) (vs nv : Values) (next : Option ℤ) : Values × Values :=
  if nv = [] then (vs, [])
  else
    let vals := match next with
      | some t => overlay Value.unixNano vs (nv.filter (fun v => v.unixNano < t))
      | none => overlay Value.unixNano vs nv
    let rem := match next with
      | some t => nv.filter (fun v => t ≤ v.unixNano)
      | none => []
    if max < vals.length then (vals.take max, vals.drop max) else (vals, rem)

/-- The loop over the blocks of an id: the values of the blocks it writes,
and what is left for a last one. -/
def combineRun (max : ℕ) : List Values → Values → List Values × Values
  | [], nv => ([], nv)
  | vs :: rest, nv =>
    let step := combineOne max vs nv (rest.head?.map startTime)
    let r := combineRun max rest step.2
    (step.1 :: r.1, r.2)

def combined (max : ℕ) (vss : List Values) (nv : Values) : Values :=
  (combineRun max vss nv).1.flatten ++ (combineRun max vss nv).2

/-- The decoded blocks of one id of a well-formed file. -/
structure IsRun (vss : List Values) : Prop where
  ne_nil : ∀ vs ∈ vss, vs ≠ []
  ascending : Ascending vss.flatten

/-- The new values that are combined with the block `b` if none is lost
before it: those before the next block's start `t`, from the block's own
start on unless it is the id's first block. -/
def blockWindow (first : Bool) (b nv : Values) (t : ℤ) : Values :=
  nv.filter (fun v => decide (v.unixNano < t) && (first || decide (startTime b ≤ v.unixNano)))

/-- No new value is in the way of an overfull block: where a block that is
not the id's last one, combined with the new values that belong to it, has
more than `max` points, every new value from the next block's start on is
stored in the old file already, with the same value. -/
def KeepsNewer (max : ℕ) (vss : List Values) (nv : Values) : Prop :=
  ∀ before b c after, vss = before ++ b :: c :: after →
    max < (overlay Value.unixNano b (blockWindow before.isEmpty b nv (startTime c))).length →
    ∀ v ∈ nv, startTime c ≤ v.unixNano → v ∈ vss.flatten

@[simp] theorem combineOne_nil (max : ℕ) (vs : Values) (next : Option ℤ) :
    combineOne max vs [] next = (vs, []) := by
  simp [combineOne]

@[simp] theorem combined_nil (max : ℕ) (nv : Values) : combined max [] nv = nv := rfl

theorem combined_cons (max : ℕ) (vs : Values) (rest : List Values) (nv : Values) :
    combined max (vs :: rest) nv = (combineOne max vs nv (rest.head?.map startTime)).1 ++
        combined max rest (combineOne max vs nv (rest.head?.map startTime)).2 := by
  simp [combined, combineRun]

namespace IsRun

variable {after : List Values}

variable {vs b c : Values} {rest : List Values}

theorem tail (h : IsRun (vs :: rest)) : IsRun rest where
  ne_nil ws hws := h.ne_nil ws (mem_cons_of_mem _ hws)
  ascending := by
    have := h.ascending
    rw [flatten_cons] at this
    exact (ascending_append.mp this).2.1

theorem head (h : IsRun (vs :: rest)) : Ascending vs := by
  have := h.ascending
  rw [flatten_cons] at this
  exact (ascending_append.mp this).1

/-- The start of the next block separates a block from those after it. -/
theorem lt_startTime (h : IsRun (b :: c :: after)) : ∀ v ∈ b, v.unixNano < startTime c := by
  intro v hv
  have hasc := h.ascending
  obtain ⟨w, ws, rfl⟩ := exists_cons_of_ne_nil (h.ne_nil c (by simp))
  rw [flatten_cons] at hasc
  exact (ascending_append.mp hasc).2.2 v hv w (by simp)

theorem startTime_le (h : IsRun (c :: after)) :
    ∀ v ∈ (c :: after).flatten, startTime c ≤ v.unixNano := by
  intro v hv
  have hasc := h.ascending
  obtain ⟨w, ws, rfl⟩ := exists_cons_of_ne_nil (h.ne_nil c (by simp))
  rw [flatten_cons, cons_append] at hasc hv
  rcases mem_cons.mp hv with rfl | hv'
  · exact le_rfl
  · exact ((ascending_cons.mp hasc).1 v hv').le

theorem startTime_le_startTime (h : IsRun (c :: after))
    (hb : b ∈ c :: after) : startTime c ≤ startTime b := by
  obtain ⟨w, ws, rfl⟩ := exists_cons_of_ne_nil (h.ne_nil b hb)
  exact h.startTime_le w (mem_flatten.mpr ⟨_, hb, mem_cons_self⟩)

end IsRun

/-- Values that all come before the remaining blocks are not lost, however
the size limit splits them. -/
theorem combined_of_below (max : ℕ) : ∀ {vss : List Values} {nv : Values},
    IsRun vss → Ascending (nv ++ vss.flatten) →
    combined max vss nv = nv ++ vss.flatten
  | [], nv, _, _ => by simp
  | vs :: rest, nv, hrun, hasc => by
    by_cases hnv : nv = []
    · subst hnv
      rw [combined_cons, combineOne_nil,
        combined_of_below max hrun.tail (by simpa using hrun.tail.ascending)]
      simp
    -- whether or not there is a next block, all of `nv` is taken
    have hsplit : Ascending (nv ++ vs) := by
      rw [flatten_cons, ← append_assoc] at hasc
      exact (ascending_append.mp hasc).1
    have hvals : overlay Value.unixNano vs nv = nv ++ vs := overlay_eq_prepend hsplit
    have hstep : combineOne max vs nv (rest.head?.map startTime) =
        if max < (nv ++ vs).length then ((nv ++ vs).take max, (nv ++ vs).drop max)
        else (nv ++ vs, []) := by
      cases rest with
      | nil => simp [combineOne, hnv, hvals]
      | cons c after =>
        have hlt : ∀ v ∈ nv, v.unixNano < startTime c := by
          intro v hv
          obtain ⟨w, ws, rfl⟩ := exists_cons_of_ne_nil (hrun.ne_nil vs (by simp))
          have h1 := (ascending_append.mp hsplit).2.2 v hv w (by simp)
          exact h1.trans (hrun.lt_startTime w (by simp))
        have h1 : nv.filter (fun v => v.unixNano < startTime c) = nv := by
          simpa [filter_eq_self] using hlt
        have h2 : nv.filter (fun v => startTime c ≤ v.unixNano) = [] := by
          simpa [filter_eq_nil_iff] using hlt
        simp [combineOne, hnv, hvals, h1, h2]
    rw [combined_cons, hstep]
    have hall : Ascending ((nv ++ vs) ++ rest.flatten) := by
      simpa using hasc
    by_cases hmax : max < (nv ++ vs).length
    · have hdrop : Ascending ((nv ++ vs).drop max ++ rest.flatten) :=
        hall.sublist ((drop_sublist max _).append_right _)
      rw [if_pos hmax, combined_of_below max hrun.tail hdrop, ← append_assoc, take_append_drop]
      simp
    · rw [if_neg hmax, combined_of_below max hrun.tail (by simpa using hrun.tail.ascending)]
      simp

abbrev upToNext (b c nv : Values) : Values :=
  overlay Value.unixNano b (nv.filter (fun v => v.unixNano < startTime c))

abbrev fromNext (c nv : Values) : Values := nv.filter (fun v => startTime c ≤ v.unixNano)

variable {b c nv : Values} {after : List Values}

variable {max : ℕ}

/-- Past a block that is not overfull, the condition is the condition on the
blocks and the new values that are left. -/
theorem keepsNewer_cons_iff (hrun : IsRun (b :: c :: after))
    (hfit : (upToNext b c nv).length ≤ max) :
    KeepsNewer max (b :: c :: after) nv ↔ KeepsNewer max (c :: after) (fromNext c nv) := by
  -- a later block's window lies in the new values from `c` on
  have hwindow : ∀ (before : List Values) (b' : Values) (rest : List Values) (t : ℤ),
      c :: after = before ++ b' :: rest →
      blockWindow before.isEmpty b' (fromNext c nv) t = blockWindow false b' nv t := by
    intro before b' rest t hsplit
    rw [blockWindow, blockWindow, filter_filter]
    refine filter_congr (fun v _ => ?_)
    have hle : startTime c ≤ startTime b' := hrun.tail.startTime_le_startTime (by rw [hsplit]; simp)
    cases before with
    | nil =>
      obtain ⟨rfl, -⟩ := List.cons.inj hsplit
      simp
    | cons x xs =>
      rw [Bool.eq_iff_iff]
      simp only [isEmpty_cons, Bool.false_or, Bool.and_eq_true, decide_eq_true_eq]
      omega
  constructor
  · intro h before b' c' after' hsplit hmax v hv hle
    rw [hwindow before b' (c' :: after') _ hsplit] at hmax
    have hv' := mem_filter.mp hv
    have hin := h (b :: before) b' c' after' (by rw [hsplit]; rfl) hmax v hv'.1 hle
    rw [flatten_cons, mem_append] at hin
    rcases hin with hin | hin
    · have h1 := hrun.lt_startTime v hin
      have h2 : startTime c ≤ v.unixNano := by simpa using hv'.2
      omega
    · exact hin
  · intro h before b' c' after' hsplit hmax v hv hle
    cases before with
    | nil =>
      obtain ⟨rfl, hrest⟩ := List.cons.inj hsplit
      obtain ⟨rfl, -⟩ := List.cons.inj hrest
      simp only [blockWindow, isEmpty_nil, Bool.true_or, Bool.and_true] at hmax
      exact absurd hmax (not_lt.mpr hfit)
    | cons x xs =>
      obtain ⟨rfl, hrest⟩ := List.cons.inj hsplit
      rw [isEmpty_cons, ← hwindow xs b' (c' :: after') _ hrest] at hmax
      have hc : startTime c ≤ startTime c' := hrun.tail.startTime_le_startTime (by rw [hrest]; simp)
      have hin := h xs b' c' after' hrest hmax v
        (mem_filter.mpr ⟨hv, by simpa using hc.trans hle⟩) hle
      rw [flatten_cons]
      exact mem_append_right _ hin

/-- What a block and the new values before the next block's start combine to
stays before the next block. -/
theorem overlay_lt_startTime (hrun : IsRun (b :: c :: after)) (nv : Values) :
    ∀ v ∈ upToNext b c nv, v.unixNano < startTime c := by
  intro v hv
  rcases mem_of_mem_overlay hrun.head hv with h | h
  · exact hrun.lt_startTime v h
  · simpa using (mem_filter.mp h).2

/-- **One block of the loop.** If the block and the new values that belong to
it fit, the loop goes on with the later new values; if not, all the later new
values are gone. -/
theorem combined_cons_cons (nv : Values) (hrun : IsRun (b :: c :: after)) :
    combined max (b :: c :: after) nv = upToNext b c nv ++
      if max < (upToNext b c nv).length then (c :: after).flatten
      else combined max (c :: after) (fromNext c nv) := by
  have hnil : combined max (c :: after) [] = (c :: after).flatten := by
    rw [combined_of_below max hrun.tail (by simpa using hrun.tail.ascending), nil_append]
  by_cases hn : nv = []
  · subst hn
    rw [combined_cons, combineOne_nil]
    simp [hnil, upToNext]
  have hbefore := overlay_lt_startTime hrun nv
  have hasc := @Keyed.ascending_overlay _ _ _ Value.unixNano b
    (nv.filter (fun v => v.unixNano < startTime c)) hrun.head
  rw [combined_cons, List.head?_cons, Option.map_some, combineOne, if_neg hn]
  dsimp only
  split
  · -- overfull: the split by size has overwritten what the split by time left
    rw [combined_of_below max hrun.tail, ← append_assoc, take_append_drop]
    refine ascending_append.mpr
      ⟨hasc.sublist (drop_sublist _ _), hrun.tail.ascending, ?_⟩
    intro x hx y hy
    exact (hbefore x (mem_of_mem_drop hx)).trans_le (hrun.tail.startTime_le y hy)
  · rfl

theorem combined_singleton (max : ℕ) (b nv : Values) :
    combined max [b] nv = overlay Value.unixNano b nv := by
  by_cases hn : nv = []
  · simp [combined_cons, combineOne, hn]
  · by_cases hmax : max < (overlay Value.unixNano b nv).length
    · simp [combined_cons, combineOne, hn, hmax]
    · simp [combined_cons, combineOne, hn, hmax]

theorem mem_of_mem_combined {x : Value} : ∀ {vss : List Values} {nv : Values},
    IsRun vss → x ∈ combined max vss nv → x ∈ vss.flatten ∨ x ∈ nv
  | [], nv, _, hx => .inr hx
  | [b], nv, hrun, hx => by
    rw [combined_singleton] at hx
    simpa using mem_of_mem_overlay hrun.head hx
  | b :: c :: after, nv, hrun, hx => by
    rw [combined_cons_cons nv hrun, mem_append] at hx
    rw [flatten_cons, mem_append]
    rcases hx with hx | hx
    · rcases mem_of_mem_overlay hrun.head hx with h | h
      · exact .inl (.inl h)
      · exact .inr (mem_of_mem_filter h)
    · split at hx
      · exact .inl (.inr hx)
      · rcases mem_of_mem_combined hrun.tail hx with h | h
        · exact .inl (.inr h)
        · exact .inr (mem_of_mem_filter h)

/-- Lost values or not, what is stored is strictly ascending. -/
theorem ascending_combined : ∀ {vss : List Values} {nv : Values},
    IsRun vss → Ascending nv → Ascending (combined max vss nv)
  | [], _, _, hnv => hnv
  | [b], nv, hrun, _ => by
    rw [combined_singleton]
    exact ascending_overlay nv hrun.head
  | b :: c :: after, nv, hrun, hnv => by
    rw [combined_cons_cons nv hrun]
    refine ascending_append.mpr ⟨ascending_overlay _ hrun.head, ?_, ?_⟩
    · split
      · exact hrun.tail.ascending
      · exact ascending_combined hrun.tail (hnv.sublist filter_sublist)
    · intro x hx y hy
      refine (overlay_lt_startTime hrun nv x hx).trans_le ?_
      split at hy
      · exact hrun.tail.startTime_le y hy
      · rcases mem_of_mem_combined hrun.tail hy with h | h
        · exact hrun.tail.startTime_le y h
        · simpa using (mem_filter.mp h).2

/-- Splitting at the next block's start splits the newest-wins merge. -/
theorem overlay_cons_cons (hrun : IsRun (b :: c :: after)) (hnv : Ascending nv) :
    overlay Value.unixNano (b :: c :: after).flatten nv =
      upToNext b c nv ++ overlay Value.unixNano (c :: after).flatten (fromNext c nv) := by
  have hsplit := filter_lt_append_filter_ge (hnv.imp le_of_lt) (startTime c)
  conv_lhs => rw [← hsplit, flatten_cons]
  refine overlay_append_append (by simpa using hrun.ascending) (by rwa [hsplit]) ?_ ?_
  · intro x hx y hy
    exact (hrun.lt_startTime x hx).trans_le (by simpa using (mem_filter.mp hy).2)
  · intro x hx y hy
    have hlt : x.unixNano < startTime c := by simpa using (mem_filter.mp hx).2
    exact hlt.trans_le (hrun.tail.startTime_le y hy)

/-- Past an overfull block, the condition says that nothing new comes from
the next block's start on. -/
theorem keepsNewer_cons_iff_of_overfull (hrun : IsRun (b :: c :: after))
    (hover : max < (upToNext b c nv).length) :
    KeepsNewer max (b :: c :: after) nv ↔ ∀ v ∈ fromNext c nv, v ∈ (c :: after).flatten := by
  simp only [mem_filter, decide_eq_true_eq, and_imp]
  constructor
  · intro h v hv hle
    have hin := h [] b c after rfl (by simpa [blockWindow] using hover) v hv hle
    rw [flatten_cons, mem_append] at hin
    refine hin.resolve_left (fun hb => ?_)
    have := hrun.lt_startTime v hb
    omega
  · intro h before b' c' after' hsplit _ v hv hle
    have hc : startTime c ≤ startTime c' := by
      cases before with
      | nil =>
        obtain ⟨-, hrest⟩ := List.cons.inj hsplit
        obtain ⟨rfl, -⟩ := List.cons.inj hrest
        exact le_rfl
      | cons x xs =>
        obtain ⟨-, hrest⟩ := List.cons.inj hsplit
        exact hrun.tail.startTime_le_startTime (by rw [hrest]; simp)
    rw [flatten_cons]
    exact mem_append_right _ (h v hv (hc.trans hle))

/-- **What the combination of an id's blocks stores.** -/
theorem combined_eq_iff : ∀ {vss : List Values} {nv : Values}, IsRun vss → Ascending nv →
    (combined max vss nv = overlay Value.unixNano vss.flatten nv ↔ KeepsNewer max vss nv)
  | [], nv, _, hnv => by
    have h1 : overlay Value.unixNano [] nv = nv := ofList_of_ascending hnv
    simp [KeepsNewer, h1]
  | [b], nv, hrun, hnv => by
    have hk : KeepsNewer max [b] nv := by
      intro before b' c' after' hsplit
      have := congrArg List.length hsplit
      simp at this
      omega
    simp [combined_singleton, hk]
  | b :: c :: after, nv, hrun, hnv => by
    have hhigh : Ascending (fromNext c nv) := hnv.sublist filter_sublist
    rw [combined_cons_cons nv hrun, overlay_cons_cons hrun hnv, append_cancel_left_eq]
    by_cases hmax : max < (upToNext b c nv).length
    · rw [if_pos hmax, eq_comm, overlay_eq_self_iff hrun.tail.ascending hhigh,
        keepsNewer_cons_iff_of_overfull hrun hmax]
    · rw [if_neg hmax, combined_eq_iff hrun.tail hhigh, keepsNewer_cons_iff hrun (by omega)]

end AndyEnv.Tsm1
