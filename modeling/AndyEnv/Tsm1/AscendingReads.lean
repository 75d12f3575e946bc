import Mathlib.Data.List.TakeWhile
import AndyEnv.Tsm1.FileRun

/-!
# Ascending reads of the data files

`SeekTo` and `Next` in ascending order, first within a file and then across the
files. `Ahead` are the values a cursor has still to return.
-/

namespace AndyEnv.Tsm1

open Codec (Simple8b Snappy fileCodec)
open List DataFile.WellFormed Option Keyed Values

variable {S : Simple8b} {Z : Snappy} {ty : UInt64 → FieldType} {d : DataFile}

/-! ## The values from a time on -/

namespace Values

variable {seek : Int64} {a b : Values}

theorem fromTime_eq_nil : fromTime seek a = [] ↔ ∀ v ∈ a, v.time < seek := by
  simp [fromTime, dropWhile_eq_nil_iff]

theorem fromTime_append_of_nil (h : fromTime seek a = []) :
    fromTime seek (a ++ b) = fromTime seek b := by
  unfold fromTime at h ⊢
  rw [dropWhile_append, h]
  rfl

theorem fromTime_append_of_cons {v : Value} {rest : Values} (h : fromTime seek a = v :: rest) :
    fromTime seek (a ++ b) = v :: (rest ++ b) := by
  unfold fromTime at h ⊢
  rw [dropWhile_append, h]
  rfl

/-- In an ascending list, all the values that are not before the time. -/
theorem fromTime_eq_filter : ∀ {a : Values}, Ascending a →
    fromTime seek a = a.filter (fun v => seek ≤ v.time)
  | [], _ => rfl
  | v :: a, h => by
    obtain ⟨hv, ha⟩ := ascending_cons.mp h
    unfold fromTime
    rw [dropWhile_cons, filter_cons]
    by_cases hlt : v.time < seek
    · rw [if_pos (decide_eq_true hlt), if_neg (by simpa using hlt)]
      exact fromTime_eq_filter ha
    have hle : seek ≤ v.time := Int64.not_lt.mp hlt
    rw [if_neg (by simpa using hle), if_pos (decide_eq_true hle), filter_eq_self.mpr]
    intro w hw
    have hlt' : v.time < w.time := Int64.lt_iff_toInt_lt.mpr (hv w hw)
    exact decide_eq_true (Int64.le_of_lt (Int64.lt_of_le_of_lt hle hlt'))

end Values

namespace IndexCursor

/-! ## A file -/

/-- The cursor is before the rest of a run. -/
structure At (S : Simple8b) (Z : Snappy) (c : IndexCursor) (d : DataFile) (pre : List Block)
    (vss : List Values) (post : List Block) : Prop where
  run : Run S Z d c.id pre vss post
  f : c.f = some d
  pos : c.pos = positionAfter pre
  ascending : c.ascending = true

variable {c : IndexCursor} {pre post : List Block} {vs : Values} {vss : List Values} {seek : Int64}

theorem At.tail (h : At S Z c d pre (vs :: vss) post) (vals : Values) :
    At S Z { c with vals := vals, pos := positionAfter (pre ++ [blockOf S Z c.id vs]) } d
      (pre ++ [blockOf S Z c.id vs]) vss post :=
  ⟨h.run.tail, h.f, rfl, h.ascending⟩

section Steps

variable (hd : d.WellFormed (fileCodec S Z) ty)

include hd

theorem At.decodeBlock (h : At S Z c d pre (vs :: vss) post) : c.decodeBlock S Z c.pos =
      some { c with vals := vs, pos := positionAfter (pre ++ [blockOf S Z c.id vs]) } := by
  rw [h.pos, h.run.decodeBlock hd h.f, if_pos h.ascending]

/-- **One turn of the loop**: a value of the block, or the next block. -/
theorem seekAscending_cons (h : At S Z c d pre (vs :: vss) post)
    (hasc : Ascending (vs :: vss).flatten) (seek : Int64) (fuel : ℕ) :
    ∃ vals, seekAscending S Z seek (fuel + 1) c = match vs.fromTime seek with
      | v :: rest => some (v.entry,
          { c with vals := rest, pos := positionAfter (pre ++ [blockOf S Z c.id vs]) })
      | [] => seekAscending S Z seek fuel
          { c with vals := vals, pos := positionAfter (pre ++ [blockOf S Z c.id vs]) } := by
  have hnext := next_position pre (blockOf S Z c.id vs)
  by_cases hstay : c.skipsBlock d (positionAfter (pre ++ [blockOf S Z c.id vs])) seek = some false
  · have hdecode := h.decodeBlock hd
    rw [h.pos] at hdecode
    refine ⟨vs, ?_⟩
    rw [seekAscending]
    simp only [h.f, h.pos, (h.run.header hd).2, (h.run.header hd).1, bind_eq_bind,
      bind_some, hnext, hstay, hdecode, ne_eq, not_true_eq_false, if_false, Bool.false_eq_true]
    rfl
  · cases vss with
    | nil => exact absurd (h.run.tail.skipsBlock_nil hd rfl seek) hstay
    | cons ws vss =>
      obtain ⟨w, ws', rfl⟩ := exists_cons_of_ne_nil h.run.tail.roundTrips_head.ne_nil
      have hskip := h.run.tail.skipsBlock_cons hd (c := c) rfl (t := w.time) rfl seek
      have hle : w.time ≤ seek := by
        by_contra hgt
        rw [decide_eq_false hgt] at hskip
        exact hstay hskip
      rw [decide_eq_true hle] at hskip
      -- the values of the block are before the next block, which is not after the time
      have hbefore : vs.fromTime seek = [] := by
        refine fromTime_eq_nil.mpr (fun v hv => Int64.lt_of_lt_of_le ?_ hle)
        refine Int64.lt_iff_toInt_lt.mpr ((ascending_append.mp hasc).2.2 v hv w ?_)
        exact mem_append_left _ mem_cons_self
      refine ⟨c.vals, ?_⟩
      rw [hbefore, seekAscending]
      simp only [h.f, h.pos, (h.run.header hd).2, bind_eq_bind, bind_some, hnext, hskip, if_true]

/-- **The loop finds the first value that is not before the time.** -/
theorem seekAscending_hit : ∀ {vss : List Values} {c : IndexCursor} {pre : List Block} {fuel : ℕ},
    At S Z c d pre vss post → Ascending vss.flatten → vss.length < fuel →
      ∀ {v : Value} {rest : Values}, fromTime seek vss.flatten = v :: rest →
        ∃ vals pre' vss', seekAscending S Z seek fuel c =
          some (v.entry, { c with vals := vals, pos := positionAfter pre' }) ∧
          Run S Z d c.id pre' vss' post ∧ rest = vals ++ vss'.flatten
  | [], _, _, _, _, _, _, _, _, hv => by cases hv
  | vs :: vss, c, pre, 0, _, _, hfuel, _, _, _ => absurd hfuel (Nat.not_lt_zero _)
  | vs :: vss, c, pre, fuel + 1, h, hasc, hfuel, v, rest, hv => by
    obtain ⟨vals, hturn⟩ := seekAscending_cons hd h hasc seek fuel
    rw [flatten_cons] at hv hasc
    cases hvs : vs.fromTime seek with
    | nil =>
      rw [hvs] at hturn
      rw [fromTime_append_of_nil hvs] at hv
      obtain ⟨vals', pre', vss', hseek, hrun, hrest⟩ := seekAscending_hit (h.tail vals)
        (ascending_append.mp hasc).2.1 (Nat.lt_of_succ_lt_succ hfuel) hv
      exact ⟨vals', pre', vss', hturn.trans hseek, hrun, hrest⟩
    | cons w ws =>
      rw [fromTime_append_of_cons hvs] at hv
      cases hv
      rw [hvs] at hturn
      exact ⟨ws, _, vss, hturn, h.run.tail, rfl⟩

variable {b : Block} {bs : List Block}

/-- After the last block the index is read as a block header, with the id of the first block. -/
theorem seekAscending_last (h : At S Z c d pre [] []) (hblocks : d.blocks = b :: bs) (fuel : ℕ) :
    seekAscending S Z seek (fuel + 1) c = if b.id = c.id then none else some ((EOF, none), c) := by
  have hrun : d.blocks = pre ++ [] := h.run.blocks
  have hpos : c.pos = d.indexPosition := by
    rw [h.pos, DataFile.indexPosition_eq, hrun, append_nil]
  obtain ⟨hat, hlength⟩ := header_index hd hblocks
  have hskip : c.skipsBlock d (d.indexPosition + 12 + UInt32.ofNat fileHeaderSize) seek = some false := by
    rw [skipsBlock, if_neg (next_index hd hblocks)]
  rw [seekAscending]
  by_cases hid : b.id = c.id
  · simp [h.f, hpos, hlength, hskip, hat, hid, decodeBlock_index hd hblocks h.f]
  · simp [h.f, hpos, hlength, hskip, hat, hid]

theorem seekAscending_end (h : At S Z c d pre [] post)
    (hblocks : d.blocks = b :: bs) (hother : post = [] → b.id ≠ c.id) (fuel : ℕ) :
    seekAscending S Z seek (fuel + 1) c = some ((EOF, none), c) := by
  have hrun : d.blocks = pre ++ post := h.run.blocks
  cases post with
  | nil =>
    rw [seekAscending_last hd h hblocks, if_neg (hother rfl)]
  | cons b' post =>
    have hne := h.run.post b' mem_cons_self
    obtain ⟨hat, hlength⟩ := hd.header_block hrun
    have hnext := next_position pre b'
    have hskip : c.skipsBlock d (positionAfter (pre ++ [b'])) seek = some false := by
      have htail : Run S Z d c.id (pre ++ [b']) [] post :=
        ⟨by rw [hrun, append_assoc]; rfl, fun _ hx => absurd hx not_mem_nil, fun x hx => h.run.post x (mem_cons_of_mem _ hx)⟩
      exact htail.skipsBlock_nil hd rfl seek
    rw [seekAscending]
    simp [h.f, h.pos, hlength, hnext, hskip, hat, hne]

/-- At the end of a file of one id the index is taken for a block. -/
theorem seekAscending_index (h : At S Z c d pre [] [])
    (hblocks : d.blocks = b :: bs) (hid : b.id = c.id) (fuel : ℕ) :
    seekAscending S Z seek fuel c = none := by
  cases fuel with
  | zero => rfl
  | succ fuel => rw [seekAscending_last hd h hblocks, if_pos hid]

theorem seekAscending_before : ∀ {vss : List Values} {c : IndexCursor} {pre : List Block} {fuel : ℕ},
    At S Z c d pre vss post → Ascending vss.flatten → vss.length ≤ fuel →
      fromTime seek vss.flatten = [] → ∃ vals pre' fuel', seekAscending S Z seek (fuel + 1) c =
          seekAscending S Z seek (fuel' + 1) { c with vals := vals, pos := positionAfter pre' } ∧
          Run S Z d c.id pre' [] post
  | [], c, pre, fuel, h, _, _, _ => by
    refine ⟨c.vals, pre, fuel, ?_, h.run⟩
    rw [← h.pos]
  | vs :: vss, c, pre, 0, _, _, hfuel, _ => absurd hfuel (Nat.not_succ_le_zero _)
  | vs :: vss, c, pre, fuel + 1, h, hasc, hfuel, hnil => by
    obtain ⟨vals, hturn⟩ := seekAscending_cons hd h hasc seek (fuel + 1)
    rw [flatten_cons] at hnil hasc
    have hvs : vs.fromTime seek = [] := fromTime_eq_nil.mpr
      (fun v hv => fromTime_eq_nil.mp hnil v (mem_append_left _ hv))
    rw [fromTime_append_of_nil hvs] at hnil
    rw [hvs] at hturn
    obtain ⟨vals', pre', fuel', hseek, hrun⟩ := seekAscending_before (h.tail vals)
      (ascending_append.mp hasc).2.1 (Nat.le_of_succ_le_succ hfuel) hnil
    exact ⟨vals', pre', fuel', hturn.trans hseek, hrun⟩

end Steps

/-! ## The files -/

def storedIn (S : Simple8b) (Z : Snappy) (id : UInt64) (files : List DataFile) : Values :=
  files.flatMap (DataFile.valuesOf S Z id)

/-- The values that a cursor has still to return: those of the block it reads,
of the blocks after it, and of the files after this one. -/
structure Ahead (S : Simple8b) (Z : Snappy) (ty : UInt64 → FieldType) (c : IndexCursor)
    (rest : Values) : Prop where
  files : ∀ f ∈ c.files, f.WellFormed (fileCodec S Z) ty
  here : ∃ k d pre vss post, c.filesPos = (k : ℕ) ∧ c.files[k]? = some d ∧ At S Z c d pre vss post ∧
    rest = c.vals ++ (vss.flatten ++ storedIn S Z c.id (c.files.drop (k + 1)))

variable {k : ℕ} {fs : List DataFile}

theorem valuesOf_ascending (hd : d.WellFormed (fileCodec S Z) ty) (id : UInt64) :
    Ascending (d.valuesOf S Z id) :=
  hd.ascending id _ (hd.valuesFor_eq id)

theorem getElem?_of_drop {files : List DataFile} (h : files.drop k = d :: fs) :
    files[k]? = some d ∧ files.drop (k + 1) = fs ∧ k < files.length := by
  have hlt : k < files.length := by
    by_contra hle
    rw [drop_eq_nil_of_le (Nat.le_of_not_lt hle)] at h
    cases h
  rw [drop_eq_getElem_cons hlt] at h
  cases h
  exact ⟨List.getElem?_eq_getElem hlt, rfl, hlt⟩

theorem seekLoop_file (hpos : c.filesPos = (k : ℕ)) (hdrop : c.files.drop k = d :: fs)
    (hasc : c.ascending = true) {pos : UInt32} (hstart : d.startingPositionForID c.id = some pos)
    (fuel : ℕ) : seekLoop S Z seek (fuel + 1) c =
      if pos = 0 then seekLoop S Z seek fuel { c with f := some d, pos := pos, filesPos := (k : ℤ) + 1 }
      else (seekAscending S Z seek (d.length + 1) { c with f := some d, pos := pos }).bind (fun r =>
        if r.1.1 ≠ EOF then some r else seekLoop S Z seek fuel r.2.advanceFile) := by
  obtain ⟨hat, -, hlt⟩ := getElem?_of_drop hdrop
  have hrange : ¬ (c.filesPos < 0 ∨ c.filesPos ≥ c.files.length) := by omega
  rw [seekLoop, if_neg hrange, hpos, Int.toNat_natCast, hat]
  simp only [bind_eq_bind, bind_some, hstart, advanceFile, hasc, if_true]
  rfl

theorem seekLoop_end (hpos : c.filesPos = (k : ℕ)) (hdrop : c.files.drop k = []) (fuel : ℕ) :
    seekLoop S Z seek (fuel + 1) c = some ((EOF, none), c) := by
  have hle := drop_eq_nil_iff.mp hdrop
  rw [seekLoop, if_pos (by omega)]

/-- A file that is not of one id, or has a value that is not before the time. -/
def Readable (S : Simple8b) (Z : Snappy) (id : UInt64) (seek : Int64) (d : DataFile) : Prop :=
  d.OnlyID id → ∃ v ∈ d.valuesOf S Z id, seek ≤ v.time

theorem seekAscending_file_miss (hd : d.WellFormed (fileCodec S Z) ty)
    (h : At S Z c d pre (vs :: vss) post) (hpre : ∀ b ∈ pre, b.id ≠ c.id)
    (hvals : d.valuesOf S Z c.id = (vs :: vss).flatten) (hnil : fromTime seek (vs :: vss).flatten = [])
    (hread : Readable S Z c.id seek d) : ∃ vals pos, seekAscending S Z seek (d.length + 1) c =
      some ((EOF, none), { c with vals := vals, pos := pos }) := by
  have hasc := valuesOf_ascending hd c.id
  rw [hvals] at hasc
  obtain ⟨vals, pre', fuel', hseek, hrun⟩ := seekAscending_before hd h hasc h.run.length_le hnil
  obtain ⟨b, bs, hblocks⟩ : ∃ b bs, d.blocks = b :: bs := by
    rw [h.run.cons_blocks]
    exact exists_cons_of_ne_nil (append_ne_nil_of_right_ne_nil _ (cons_ne_nil _ _))
  refine ⟨vals, positionAfter pre', ?_⟩
  rw [hseek]
  refine seekAscending_end hd (c := { c with vals := vals, pos := positionAfter pre' })
    ⟨hrun, h.f, rfl, h.ascending⟩ hblocks (fun hpost hid => ?_) fuel'
  -- the run is the whole file
  have honly : d.OnlyID c.id := by
    have hpre_nil : pre = [] := by
      cases pre with
      | nil => rfl
      | cons x pre =>
        have hx : x = b := by
          have := h.run.cons_blocks.symm.trans hblocks
          exact (List.cons.inj this).1
        exact absurd hid (hx ▸ hpre x mem_cons_self)
    have hall := h.run.blocks
    rw [hpre_nil, hpost, nil_append, append_nil] at hall
    refine ⟨by rw [hblocks]; exact cons_ne_nil _ _, fun x hx => ?_⟩
    rw [hall] at hx
    exact id_of_mem_encodeRun hx
  obtain ⟨v, hv, hle⟩ := hread honly
  rw [hvals] at hv
  exact absurd (fromTime_eq_nil.mp hnil v hv) (Int64.not_lt.mpr hle)

/-- **`SeekTo` finds the first value that is not before the time**, in the files from
the `k`-th on. -/
theorem seekLoop_spec : ∀ {fs : List DataFile} {c : IndexCursor} {k fuel : ℕ},
    (∀ f ∈ c.files, f.WellFormed (fileCodec S Z) ty) → c.ascending = true → c.filesPos = (k : ℕ) →
      c.files.drop k = fs → fs.length < fuel → (∀ f ∈ fs, Readable S Z c.id seek f) →
        (fromTime seek (storedIn S Z c.id fs) = [] →
          ∃ c', seekLoop S Z seek fuel c = some ((EOF, none), c')) ∧
        (∀ v rest, fromTime seek (storedIn S Z c.id fs) = v :: rest → v.time ≠ EOF →
          ∃ c', seekLoop S Z seek fuel c = some (v.entry, c') ∧ Ahead S Z ty c' rest)
  | _, _, _, 0, _, _, _, _, hfuel, _ => absurd hfuel (Nat.not_lt_zero _)
  | [], c, k, fuel + 1, _, _, hpos, hdrop, _, _ =>
    ⟨fun _ => ⟨c, seekLoop_end hpos hdrop fuel⟩, fun _ _ h => by cases h⟩
  | d :: fs, c, k, fuel + 1, hfiles, hasc, hpos, hdrop, hfuel, hread => by
    obtain ⟨hat, hdrop', hlt⟩ := getElem?_of_drop hdrop
    have hd := hfiles d (mem_of_getElem? hat)
    have hstored : storedIn S Z c.id (d :: fs) = d.valuesOf S Z c.id ++ storedIn S Z c.id fs :=
      flatMap_cons
    have hread' := fun f hf => hread f (mem_cons_of_mem d hf)
    rw [hstored]
    rcases hd.run_cases c.id with ⟨hvals, hstart⟩ | ⟨pre, vs, vss, post, hrun, hpre, hvals, hstart, hne⟩
    · rw [hvals, nil_append, seekLoop_file hpos hdrop hasc hstart, if_pos rfl]
      exact seekLoop_spec (k := k + 1)
        (c := { c with f := some d, pos := 0, filesPos := (k : ℤ) + 1 }) hfiles hasc rfl hdrop'
        (Nat.lt_of_succ_lt_succ hfuel) hread'
    have hstate : At S Z { c with f := some d, pos := positionAfter pre } d pre (vs :: vss) post :=
      ⟨hrun, rfl, rfl, hasc⟩
    have hascending := valuesOf_ascending hd c.id
    rw [hvals] at hascending ⊢
    rw [seekLoop_file hpos hdrop hasc hstart, if_neg hne]
    cases hfrom : fromTime seek (vs :: vss).flatten with
    | nil =>
      obtain ⟨vals, pos, hmiss⟩ := seekAscending_file_miss hd hstate hpre hvals hfrom
        (hread d mem_cons_self)
      rw [fromTime_append_of_nil hfrom, hmiss]
      simp only [bind_some, ne_eq, not_true_eq_false, if_false]
      have hadvance : ({ c with f := some d, vals := vals, pos := pos } : IndexCursor).advanceFile =
          { c with f := some d, vals := vals, pos := pos, filesPos := (k : ℤ) + 1 } := by
        rw [advanceFile, if_pos hasc, hpos]
      rw [hadvance]
      exact seekLoop_spec (k := k + 1)
        (c := { c with f := some d, vals := vals, pos := pos, filesPos := (k : ℤ) + 1 }) hfiles
        hasc rfl hdrop' (Nat.lt_of_succ_lt_succ hfuel) hread'
    | cons w ws =>
      rw [fromTime_append_of_cons hfrom]
      refine ⟨fun h => absurd h (cons_ne_nil _ _), fun v rest hv hne_eof => ?_⟩
      cases hv
      obtain ⟨vals, pre', vss', hseek, hrun', hws⟩ := seekAscending_hit hd hstate hascending
        (Nat.lt_succ_of_le hrun.length_le) hfrom
      refine ⟨{ c with f := some d, vals := vals, pos := positionAfter pre' }, ?_, hfiles, ?_⟩
      · rw [hseek, bind_some, if_pos (show w.entry.1 ≠ EOF from hne_eof)]
      · refine ⟨k, d, pre', vss', post, hpos, hat, ⟨hrun', rfl, rfl, hasc⟩, ?_⟩
        rw [hws, hdrop', append_assoc]

/-! ## `Next` -/

theorem nextFile_file (hpos : c.filesPos = (k : ℕ)) (hdrop : c.files.drop (k + 1) = d :: fs)
    {pos : UInt32} (hstart : d.startingPositionForID c.id = some pos) (fuel : ℕ) :
    nextFile (fuel + 1) c =
      if pos = 0 then nextFile fuel { c with filesPos := ((k + 1 : ℕ) : ℤ), f := some d }
      else some (some pos, { c with filesPos := ((k + 1 : ℕ) : ℤ), f := some d }) := by
  obtain ⟨hat, -, hlt⟩ := getElem?_of_drop hdrop
  have hnext : c.filesPos + 1 = ((k + 1 : ℕ) : ℤ) := by rw [hpos]; rfl
  rw [nextFile, hnext]
  dsimp only
  rw [if_neg (by omega), if_neg (by omega), Int.toNat_natCast, hat]
  simp only [bind_eq_bind, bind_some, hstart]
  rfl

/-- **The next file with the id.** -/
theorem nextFile_spec : ∀ {fs : List DataFile} {c : IndexCursor} {k fuel : ℕ},
    (∀ f ∈ c.files, f.WellFormed (fileCodec S Z) ty) → c.filesPos = (k : ℕ) →
      c.files.drop (k + 1) = fs → fs.length < fuel →
        (storedIn S Z c.id fs = [] ∧ ∃ c', nextFile fuel c = some (none, c')) ∨
        ∃ j d pre vs vss post,
          nextFile fuel c = some (some (positionAfter pre), { c with filesPos := (j : ℕ), f := some d }) ∧
          c.files[j]? = some d ∧ Run S Z d c.id pre (vs :: vss) post ∧
          storedIn S Z c.id fs = (vs :: vss).flatten ++ storedIn S Z c.id (c.files.drop (j + 1))
  | _, _, _, 0, _, _, _, hfuel => absurd hfuel (Nat.not_lt_zero _)
  | [], c, k, fuel + 1, _, hpos, hdrop, _ => by
    have hle := drop_eq_nil_iff.mp hdrop
    refine .inl ⟨rfl, { c with filesPos := c.filesPos + 1 }, ?_⟩
    rw [nextFile]
    dsimp only
    rw [if_pos (by omega)]
  | d :: fs, c, k, fuel + 1, hfiles, hpos, hdrop, hfuel => by
    obtain ⟨hat, hdrop', hlt⟩ := getElem?_of_drop hdrop
    have hd := hfiles d (mem_of_getElem? hat)
    have hstored : storedIn S Z c.id (d :: fs) = d.valuesOf S Z c.id ++ storedIn S Z c.id fs :=
      flatMap_cons
    rcases hd.run_cases c.id with ⟨hvals, hstart⟩ | ⟨pre, vs, vss, post, hrun, -, hvals, hstart, hne⟩
    · rw [hstored, hvals, nil_append, nextFile_file hpos hdrop hstart, if_pos rfl]
      exact nextFile_spec (c := { c with filesPos := ((k + 1 : ℕ) : ℤ), f := some d }) hfiles rfl hdrop'
        (Nat.lt_of_succ_lt_succ hfuel)
    · refine .inr ⟨k + 1, d, pre, vs, vss, post, ?_, hat, hrun, ?_⟩
      · rw [nextFile_file hpos hdrop hstart, if_neg hne]
      · rw [hstored, hvals, hdrop']

theorem nextAscending_cons {v : Value} {vals : Values} (hvals : c.vals = v :: vals) (fuel : ℕ) :
    nextAscending S Z (fuel + 1) c = some (v.entry, { c with vals := vals }) := by
  rw [nextAscending, hvals]

/-- **`Next` returns the first of the values ahead.** -/
theorem Ahead.nextAscending {rest : Values} (h : Ahead S Z ty c rest) (fuel : ℕ) :
    (rest = [] → ∃ c', IndexCursor.nextAscending S Z (fuel + 2) c = some ((EOF, none), c')) ∧
      ∀ v rest', rest = v :: rest' →
        ∃ c', IndexCursor.nextAscending S Z (fuel + 2) c = some (v.entry, c') ∧ Ahead S Z ty c' rest' := by
  obtain ⟨hfiles, k, d, pre, vss, post, hpos, hat, hstate, rfl⟩ := h
  have hd := hfiles d (mem_of_getElem? hat)
  cases hvals : c.vals with
  | cons w vals =>
    refine ⟨fun hnil => absurd hnil (cons_ne_nil _ _), fun v rest' hv => ?_⟩
    cases hv
    exact ⟨{ c with vals := vals }, nextAscending_cons hvals (fuel + 1), hfiles, k, d, pre, vss, post,
      hpos, hat, ⟨hstate.run, hstate.f, hstate.pos, hstate.ascending⟩, rfl⟩
  | nil =>
    cases vss with
    | cons vs vss =>
      obtain ⟨w, vals, rfl⟩ := exists_cons_of_ne_nil hstate.run.roundTrips_head.ne_nil
      refine ⟨fun hnil => absurd hnil (cons_ne_nil _ _), fun v rest' hv => ?_⟩
      cases hv
      have hblock := hstate.run.atBlock_cons hd hstate.f rfl hstate.pos
      refine ⟨{ c with vals := vals, pos := positionAfter (pre ++ [blockOf S Z c.id (w :: vals)]) }, ?_,
        hfiles, k, d, _, vss, post, hpos, hat, hstate.tail vals, append_assoc _ _ _⟩
      rw [IndexCursor.nextAscending, hvals]
      simp only [hblock, hstate.decodeBlock hd, bind_eq_bind, bind_some, if_true]
      exact nextAscending_cons rfl fuel
    | nil =>
      have hblock := hstate.run.atBlock_nil hd hstate.f rfl hstate.pos
      rw [IndexCursor.nextAscending, hvals]
      simp only [hblock, bind_eq_bind, bind_some, Bool.false_eq_true, if_false]
      have hlength : (c.files.drop (k + 1)).length < c.files.length + 1 := by
        rw [length_drop]
        omega
      rcases nextFile_spec hfiles hpos rfl hlength with ⟨hnil, c', hfile⟩ | hfile
      · rw [hfile, hnil]
        exact ⟨fun _ => ⟨c', rfl⟩, fun v rest' hv => by cases hv⟩
      obtain ⟨j, d', pre', vs, vss, post', hfile, hat', hrun, hstored⟩ := hfile
      have hd' := hfiles d' (mem_of_getElem? hat')
      obtain ⟨w, vals, rfl⟩ := exists_cons_of_ne_nil hrun.roundTrips_head.ne_nil
      have hdecode := hrun.decodeBlock hd' (c := { c with filesPos := (j : ℤ), f := some d' }) rfl
      rw [if_pos hstate.ascending] at hdecode
      rw [hfile, hstored]
      refine ⟨fun hnil => absurd hnil (cons_ne_nil _ _), fun v rest' hv => ?_⟩
      cases hv
      refine ⟨{ c with
          filesPos := (j : ℤ)
          f := some d'
          vals := vals
          pos := positionAfter (pre' ++ [blockOf S Z c.id (w :: vals)]) }, ?_, hfiles, j, d', _, vss,
        post', rfl, hat', ⟨hrun.tail, rfl, rfl, hstate.ascending⟩, append_assoc _ _ _⟩
      simp only [bind_some, hdecode]
      exact nextAscending_cons rfl fuel

end IndexCursor

end AndyEnv.Tsm1
