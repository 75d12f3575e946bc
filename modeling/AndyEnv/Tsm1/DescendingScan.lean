import AndyEnv.Tsm1.DescendingReads

/-!
# What a descending cursor returns

`SeekTo` goes down the files to the first one with a value up to the time. `Next`
stays in that file. So the values up to the time are read if they are all in one
file that `SeekTo` comes to, and the block it decodes ends at the time or one
value later.
-/

namespace AndyEnv.Tsm1

open Codec (Simple8b Snappy fileCodec)
open List Values

theorem Value.entry_injective : Function.Injective Value.entry := by
  rintro ⟨t, x⟩ ⟨t', x'⟩ h
  cases h
  rfl

namespace IndexCursor

variable {S : Simple8b} {Z : Snappy} {ty : UInt64 → FieldType} {id : UInt64} {seek : Int64}
  {files looked : List DataFile} {c : IndexCursor} {d : DataFile}
variable {before after : List DataFile}

/-- The loop of a descending `SeekTo` is before the last of the files `looked`. -/
structure Down (id : UInt64) (files looked : List DataFile) (c : IndexCursor) : Prop where
  initial : looked <+: files
  id : c.id = id
  files : c.files = files
  ascending : c.ascending = false
  blockPositions : c.blockPositions = []
  filesPos : c.filesPos = (looked.length : ℤ) - 1

theorem Down.advanceFile {c' : IndexCursor} (h : Down id files (looked ++ [d]) c) (hid : c'.id = c.id)
    (hfiles : c'.files = c.files) (hasc : c'.ascending = c.ascending) (hpos : c'.filesPos = c.filesPos) :
    Down id files looked c'.advanceFile := by
  have hasc' : c'.ascending = false := hasc.trans h.ascending
  have hfilesPos := h.filesPos
  rw [length_append, length_singleton] at hfilesPos
  rw [IndexCursor.advanceFile, if_neg (by rw [hasc']; exact Bool.false_ne_true)]
  refine ⟨(prefix_append _ _).trans h.initial, hid.trans h.id, hfiles.trans h.files, hasc', rfl, ?_⟩
  show c'.filesPos - 1 = _
  rw [hpos, hfilesPos]
  push_cast
  omega

theorem Down.seekLoop_file (h : Down id files (looked ++ [d]) c) {pos : UInt32}
    (hstart : d.startingPositionForID id = some pos) (fuel : ℕ) : seekLoop S Z seek (fuel + 1) c =
      if pos = 0 then seekLoop S Z seek fuel { c with f := some d, pos := pos }.advanceFile
      else (seekDescending S Z seek { c with f := some d, pos := pos }).bind (fun r =>
        if r.1.1 ≠ EOF then some r else seekLoop S Z seek fuel r.2.advanceFile) := by
  have hfilesPos := h.filesPos
  obtain ⟨after, hsplit⟩ := h.initial
  have hat : files[looked.length]? = some d := by
    rw [← hsplit, append_assoc, List.getElem?_append_right le_rfl, Nat.sub_self]
    rfl
  have hlength : looked.length + 1 ≤ files.length := by
    rw [← hsplit, length_append, length_append, length_singleton]
    omega
  rw [length_append, length_singleton] at hfilesPos
  have hpos : c.filesPos = (looked.length : ℤ) := by
    rw [hfilesPos]
    push_cast
    omega
  have hrange : ¬ (c.filesPos < 0 ∨ c.filesPos ≥ c.files.length) := by
    rw [h.files]
    omega
  rw [seekLoop, if_neg hrange, hpos, Int.toNat_natCast, h.files, hat]
  simp only [Option.bind_eq_bind, Option.bind_some, h.id, hstart, h.ascending, Bool.false_eq_true, if_false]
  rfl

theorem Down.seekLoop_end (h : Down id files [] c) (fuel : ℕ) :
    seekLoop S Z seek (fuel + 1) c = some ((EOF, none), c) := by
  have hpos := h.filesPos
  rw [length_nil] at hpos
  rw [seekLoop, if_pos (by omega)]

/-! ## One file -/

/-- What a descending seek finds in a run: a value, and the values before it. -/
def Found (seek : Int64) (vss : List Values) (val : Value) (before : Values) : Prop :=
  ∃ front vs back vals above, vss = front ++ vs :: back ∧ vs = vals ++ val :: above ∧
    before = front.flatten ++ vals ∧ ¬ AllAfter seek vs ∧ (∀ ws ∈ back, AllAfter seek ws) ∧
    above.length ≤ 1 ∧ AllAfter seek above ∧ (above = [] → val.time ≤ seek)

namespace Found

variable {vss : List Values} {val : Value} {before : Values}

section

variable (h : Found seek vss val before)
include h

theorem exists_above : ∃ above, vss.flatten = before ++ val :: above ∧ AllAfter seek above := by
  obtain ⟨front, vs, back, vals, above, rfl, rfl, rfl, -, hback, -, habove, -⟩ := h
  refine ⟨above ++ back.flatten, ?_, forall_mem_append.mpr ⟨habove, fun v hv => ?_⟩⟩
  · simp only [flatten_append, flatten_cons, append_assoc, cons_append]
  · obtain ⟨ws, hws, hv⟩ := mem_flatten.mp hv
    exact hback ws hws v hv

theorem mem_of_mem {v : Value} (hv : v ∈ before ++ [val]) : v ∈ vss.flatten := by
  obtain ⟨above, hflat, -⟩ := h.exists_above
  rw [hflat, append_cons]
  exact mem_append_left _ hv

/-- If the value found is not after the time, the values up to the time are this
one and those before it. -/
theorem filter_eq (hasc : Ascending vss.flatten) (hle : val.time ≤ seek) :
    vss.flatten.filter (fun v => v.time ≤ seek) = before ++ [val] := by
  obtain ⟨above, hflat, habove⟩ := h.exists_above
  have hbefore : ∀ v ∈ before, decide (v.time ≤ seek) = true := by
    intro v hv
    rw [hflat] at hasc
    have hlt := lt_of_ascending_append hasc hv mem_cons_self
    exact decide_eq_true (Int64.le_of_lt (Int64.lt_of_lt_of_le hlt hle))
  have hnil : above.filter (fun v => v.time ≤ seek) = [] :=
    filter_eq_nil_iff.mpr (fun v hv hle => Int64.not_le.mpr (habove v hv) (of_decide_eq_true hle))
  rw [hflat, filter_append, filter_eq_self.mpr hbefore, filter_cons, if_pos (decide_eq_true hle),
    hnil]

theorem le_of_boundary (hboundary : ∀ vs ∈ vss, ¬ AllAfter seek vs →
      (vs.filter (fun v => seek < v.time)).length ≤ 1) : val.time ≤ seek := by
  obtain ⟨front, vs, back, vals, above, rfl, hvs, rfl, hsome, -, -, habove, hlast⟩ := h
  by_contra hgt
  have hlt : seek < val.time := Int64.not_le.mp hgt
  obtain ⟨w, ws, rfl⟩ := exists_cons_of_ne_nil (fun hnil => hgt (hlast hnil))
  have hlength := hboundary vs (mem_append_right _ mem_cons_self) hsome
  rw [hvs, filter_append, filter_cons, if_pos (decide_eq_true hlt), filter_cons,
    if_pos (decide_eq_true (habove w mem_cons_self)), length_append, length_cons,
    length_cons] at hlength
  omega

theorem boundary_of_le (hasc : Ascending vss.flatten)
    (hle : val.time ≤ seek) : ∀ vs ∈ vss, ¬ AllAfter seek vs →
      (vs.filter (fun v => seek < v.time)).length ≤ 1 := by
  have hfilter := h.filter_eq hasc hle
  obtain ⟨front, vs, back, vals, above, rfl, rfl, rfl, -, hback, hlength, -, -⟩ := h
  -- no value up to the one found is after the time
  have hnil : ∀ ws : Values, (∀ v ∈ ws, v ∈ front.flatten ++ vals ++ [val]) →
      ws.filter (fun v => seek < v.time) = [] := by
    intro ws hws
    refine filter_eq_nil_iff.mpr (fun v hv hlt => ?_)
    have hmem := hws v hv
    rw [← hfilter, mem_filter] at hmem
    exact Int64.not_lt.mpr (of_decide_eq_true hmem.2) (of_decide_eq_true hlt)
  intro ws hws hsome
  rcases mem_append.mp hws with hws | hws
  · rw [hnil ws (fun v hv => mem_append_left _ (mem_append_left _
      (mem_flatten.mpr ⟨ws, hws, hv⟩)))]
    exact Nat.zero_le _
  rcases mem_cons.mp hws with rfl | hws
  · have hvals := hnil (vals ++ [val]) (fun v hv => by
      rw [append_assoc]
      exact mem_append_right _ hv)
    rw [append_cons, filter_append, hvals, nil_append]
    exact (length_filter_le _ _).trans hlength
  · exact absurd (hback ws hws) hsome

end

end Found

section

variable (hd : d.WellFormed (fileCodec S Z) ty) (h : Down id files (looked ++ [d]) c)
include hd h

/-- **A file without a value up to the time is passed over.** -/
theorem Down.seekLoop_miss (hafter : AllAfter seek (d.valuesOf S Z id)) (fuel : ℕ) :
    ∃ c', seekLoop S Z seek (fuel + 1) c = seekLoop S Z seek fuel c' ∧ Down id files looked c' := by
  have hasc := valuesOf_ascending hd id
  rcases hd.run_cases id with ⟨-, hstart⟩ | ⟨pre, vs, vss, post, hrun, -, hvals, hstart, hne⟩
  · rw [h.seekLoop_file hstart, if_pos rfl]
    exact ⟨_, rfl, h.advanceFile rfl rfl rfl rfl⟩
  rw [hvals] at hasc hafter
  rw [← h.id] at hrun
  have hseek := seekDescending_miss hd (c := { c with f := some d, pos := positionAfter pre })
    rfl h.ascending hrun rfl h.blockPositions
    (fun ws hws => hasc.sublist (sublist_flatten_of_mem hws))
    (fun ws hws v hv => hafter v (mem_flatten.mpr ⟨ws, hws, hv⟩))
  rw [h.seekLoop_file hstart, if_neg hne, hseek]
  exact ⟨_, rfl, h.advanceFile rfl rfl rfl rfl⟩

/-- **A file with a value up to the time.** If the value it finds has the time
that marks the end, the loop goes on. -/
theorem Down.seekLoop_found (hsome : ¬ AllAfter seek (d.valuesOf S Z id)) (fuel : ℕ) :
    ∃ val before c', Found seek (d.decodedBlocks (fileCodec S Z) id) val before ∧
      Below S Z ty c' before ∧ Down id files looked c'.advanceFile ∧
      seekLoop S Z seek (fuel + 1) c =
        if val.time ≠ EOF then some (val.entry, c') else seekLoop S Z seek fuel c'.advanceFile := by
  obtain ⟨pre, post, hrun, hpre⟩ := hd.run id
  have hasc : ∀ vs ∈ d.decodedBlocks (fileCodec S Z) id, Ascending vs :=
    fun vs hvs => (valuesOf_ascending hd id).sublist (sublist_flatten_of_mem hvs)
  rcases allAfter_or_split seek (d.decodedBlocks (fileCodec S Z) id) with hall | hsplit
  · refine absurd (fun v hv => ?_) hsome
    obtain ⟨vs, hvs, hv⟩ := mem_flatten.mp hv
    exact hall vs hvs v hv
  obtain ⟨front, vs, back, hblocks, hvs, hback⟩ := hsplit
  obtain ⟨val, vals, above, hcut, hlast, habove⟩ := lastUpTo_spec hvs
  rw [hblocks] at hrun hasc ⊢
  rw [← h.id] at hrun
  have hstart : d.startingPositionForID c.id = some (positionAfter pre) ∧ positionAfter pre ≠ 0 := by
    cases front with
    | nil => exact hd.startingPosition_run hrun (h.id ▸ hpre)
    | cons ws front => exact hd.startingPosition_run hrun (h.id ▸ hpre)
  have hseek := seekDescending_hit hd (c := { c with f := some d, pos := positionAfter pre })
    rfl h.ascending hrun rfl h.blockPositions
    (forall_mem_append.mp hasc).2 hvs hback hlast
  refine ⟨val, front.flatten ++ vals, { c with
    f := some d
    pos := positionAfter pre
    vals := vals
    blockPositions := positionsOf S Z c.id pre front },
    ⟨front, vs, back, vals, above, rfl, hcut, rfl, hvs, hback, habove⟩,
    ⟨h.ascending, d, pre, front, vs :: back, post, hd, rfl, hrun, rfl, rfl⟩,
    h.advanceFile rfl rfl rfl rfl, ?_⟩
  rw [h.seekLoop_file (h.id ▸ hstart.1), if_neg hstart.2, hseek]
  rfl

end

/-! ## The loop over the files -/

/-- What the loop over the files comes to: the end, if each value found has the time
that marks the end, or a value of one of the files. -/
def Comes (S : Simple8b) (Z : Snappy) (ty : UInt64 → FieldType) (id : UInt64) (seek : Int64)
    (looked : List DataFile) (e : Entry) (c : IndexCursor) : Prop :=
  (e.1 = EOF ∧ ∀ f ∈ looked, ¬ AllAfter seek (f.valuesOf S Z id) →
    ∃ val rest, Found seek (f.decodedBlocks (fileCodec S Z) id) val rest ∧ val.time = EOF) ∨
  ∃ before d after val rest, looked = before ++ d :: after ∧
    Found seek (d.decodedBlocks (fileCodec S Z) id) val rest ∧ e = val.entry ∧ Below S Z ty c rest

/-- **What a descending `SeekTo` returns, it found in one of the files.** -/
theorem Down.seekLoop_comes (h : Down id files looked c)
    (hwell : ∀ f ∈ looked, f.WellFormed (fileCodec S Z) ty) {fuel : ℕ} (hfuel : looked.length < fuel) :
    ∃ e c', seekLoop S Z seek fuel c = some (e, c') ∧ Comes S Z ty id seek looked e c' := by
  induction looked using List.reverseRecOn generalizing c fuel with
  | nil =>
    obtain ⟨fuel, rfl⟩ := Nat.exists_eq_succ_of_ne_zero (Nat.ne_of_gt hfuel)
    exact ⟨_, _, h.seekLoop_end fuel, .inl ⟨rfl, fun f hf => absurd hf not_mem_nil⟩⟩
  | append_singleton looked d ih =>
    have hd := hwell d (mem_append_right _ mem_cons_self)
    obtain ⟨fuel, rfl⟩ := Nat.exists_eq_succ_of_ne_zero (Nat.ne_of_gt (Nat.lt_of_le_of_lt (Nat.zero_le _) hfuel))
    rw [length_append, length_singleton] at hfuel
    -- the files before this one, if it is passed over
    have hbefore : ∀ {c'}, Down id files looked c' → (¬ AllAfter seek (d.valuesOf S Z id) →
        ∃ val rest, Found seek (d.decodedBlocks (fileCodec S Z) id) val rest ∧ val.time = EOF) →
        ∃ e c₂, seekLoop S Z seek fuel c' = some (e, c₂) ∧ Comes S Z ty id seek (looked ++ [d]) e c₂ := by
      intro c' hdown hpass
      have hlt : looked.length < fuel := by omega
      obtain ⟨e, c₂, hres, hcomes⟩ := ih hdown (forall_mem_append.mp hwell).1 hlt
      refine ⟨e, c₂, hres, ?_⟩
      rcases hcomes with ⟨heof, hall⟩ | ⟨before, f, after, val, rest, rfl, hfound⟩
      · exact .inl ⟨heof, forall_mem_append.mpr ⟨hall, forall_mem_singleton.mpr hpass⟩⟩
      · exact .inr ⟨before, f, after ++ [d], val, rest, by rw [append_assoc]; rfl, hfound⟩
    by_cases hafter : AllAfter seek (d.valuesOf S Z id)
    · obtain ⟨c', hstep, hdown⟩ := h.seekLoop_miss hd hafter fuel
      rw [hstep]
      exact hbefore hdown (fun hsome => absurd hafter hsome)
    obtain ⟨val, rest, c', hfound, hbelow, hdown, hstep⟩ := h.seekLoop_found hd hafter fuel
    rw [hstep]
    by_cases hne : val.time ≠ EOF
    · rw [if_pos hne]
      exact ⟨_, _, rfl, .inr ⟨looked, d, [], val, rest, rfl, hfound, rfl, hbelow⟩⟩
    · rw [if_neg hne]
      exact hbefore hdown (fun _ => ⟨val, rest, hfound, not_not.mp hne⟩)

/-! ## The choice of a file -/

def LastEnds (seek : Int64) (files : List DataFile) : Prop :=
  ∃ l, files.getLast? = some l ∧ l.maxTime ≤ seek

/-- **Where a descending `SeekTo` begins**: at the last file, at the first one in
range, or it ends. -/
theorem seekTo_down (S : Simple8b) (Z : Snappy) (id : UInt64) (hfiles : OrderedFiles S Z ty files) :
    (∃ c, LastEnds seek files ∧ Down id files files c ∧
      seekTo S Z seek (new id files false) = seekLoop S Z seek (files.length + 1) c) ∨
    (∃ init f after c, ¬ LastEnds seek files ∧ files = init ++ f :: after ∧ f.InRange seek ∧
      (∀ g ∈ init, ¬ g.InRange seek) ∧ Down id files (init ++ [f]) c ∧
      seekTo S Z seek (new id files false) = seekLoop S Z seek (files.length + 1) c) ∨
    (∃ c, ¬ LastEnds seek files ∧ (∀ f ∈ files, ¬ f.InRange seek) ∧
      seekTo S Z seek (new id files false) = some ((EOF, none), c)) := by
  cases files with
  | nil =>
    refine .inr (.inr ⟨_, ?_, nofun, rfl⟩)
    rintro ⟨l, hl, -⟩
    cases hl
  | cons f fs =>
    obtain ⟨l, hlast⟩ : ∃ l, (f :: fs).getLast? = some l :=
      ⟨_, List.getLast?_eq_some_getLast (cons_ne_nil f fs)⟩
    by_cases hends : l.maxTime ≤ seek
    · refine .inl ⟨{ new id (f :: fs) false with filesPos := ((f :: fs).length : ℤ) - 1, f := some l },
        ⟨l, hlast, hends⟩, ⟨prefix_rfl, rfl, rfl, rfl, rfl, rfl⟩, ?_⟩
      simp [seekTo, chooseFile, new, hlast, hends]
    have hnot : ¬ LastEnds seek (f :: fs) := by
      rintro ⟨l', hl, hle⟩
      rw [hlast] at hl
      cases hl
      exact hends hle
    refine .inr ?_
    by_cases hfirst : seek < f.minTime
    · refine .inr ⟨new id (f :: fs) false, hnot, ?_, ?_⟩
      · intro g hg hin
        refine absurd hin.1 (Int64.not_le.mpr (Int64.lt_of_lt_of_le hfirst ?_))
        rcases mem_cons.mp hg with rfl | hg
        · exact Int64.le_refl _
        · exact Int64.le_trans (hfiles.le f mem_cons_self)
            ((pairwise_cons.mp hfiles.ordered).1 g hg).1
      · simp [seekTo, chooseFile, new, hlast, hends, hfirst]
    · have hchoose : (new id (f :: fs) false).chooseFile seek =
          some ((new id (f :: fs) false).rangedFile seek) := by
        simp [chooseFile, new, hlast, hends, hfirst]
      have hseek : seekTo S Z seek (new id (f :: fs) false) =
          if ((new id (f :: fs) false).rangedFile seek).f = none then
            some ((EOF, none), (new id (f :: fs) false).rangedFile seek)
          else seekLoop S Z seek (((new id (f :: fs) false).rangedFile seek).files.length + 1)
            ((new id (f :: fs) false).rangedFile seek) := by
        rw [seekTo, hchoose]
      rw [rangedFile, show (new id (f :: fs) false).files = f :: fs from rfl] at hseek
      cases hwith : fileWith seek 0 (f :: fs) with
      | none =>
        rw [hwith] at hseek
        exact .inr ⟨_, hnot, fileWith_eq_none.mp hwith, hseek⟩
      | some r =>
        obtain ⟨j, g⟩ := r
        rw [hwith] at hseek
        obtain ⟨init, after, hsplit, rfl, hin, hinit⟩ := fileWith_eq_some hwith
        refine .inl ⟨init, g, after, _, hnot, hsplit, hin, hinit, ⟨?_, rfl, rfl, rfl, rfl, ?_⟩, hseek⟩
        · rw [hsplit]
          exact ⟨after, by rw [append_assoc]; rfl⟩
        · rw [length_append, length_singleton]
          push_cast
          omega

/-! ## The condition -/

def entriesUpTo (S : Simple8b) (Z : Snappy) (id : UInt64) (seek : Int64) (files : List DataFile) :
    List Entry :=
  ((storedIn S Z id files).filter (fun v => v.time ≤ seek)).reverse.map Value.entry

structure SeekableDown (S : Simple8b) (Z : Snappy) (id : UInt64) (seek : Int64)
    (files : List DataFile) : Prop where
  /-- No value up to the time has the time that marks the end. -/
  ne_eof : ∀ v ∈ storedIn S Z id files, v.time ≤ seek → v.time ≠ EOF
  /-- From a file with values up to the time on there is a file in range, and none
  before it, unless the time is at or after the end of the last file. -/
  reached : ∀ before f after, files = before ++ f :: after → ¬ AllAfter seek (f.valuesOf S Z id) →
    LastEnds seek files ∨ (∃ g ∈ f :: after, g.InRange seek) ∧ ∀ g ∈ before, ¬ g.InRange seek
  /-- No file before one with values up to the time has values of the id. -/
  alone : ∀ before f after, files = before ++ f :: after → ¬ AllAfter seek (f.valuesOf S Z id) →
    storedIn S Z id before = []
  /-- A block with values up to the time has at most one after it. -/
  boundary : ∀ f ∈ files, ∀ vs ∈ f.decodedBlocks (fileCodec S Z) id, ¬ AllAfter seek vs →
    (vs.filter (fun v => seek < v.time)).length ≤ 1

theorem mem_entriesUpTo {v : Value} :
    v.entry ∈ entriesUpTo S Z id seek files ↔ v ∈ storedIn S Z id files ∧ v.time ≤ seek := by
  rw [entriesUpTo, mem_map_of_injective Value.entry_injective, mem_reverse, mem_filter, decide_eq_true_eq]

/-- The files that are looked at have the file, if it is reached. -/
theorem mem_looked {init rest : List DataFile} {f g : DataFile}
    (hsplit : before ++ f :: after = init ++ g :: rest) (hin : g.InRange seek)
    (hbefore : ∀ x ∈ before, ¬ x.InRange seek) : f ∈ init ++ [g] := by
  rcases append_eq_append_iff.mp hsplit with ⟨as, rfl, hcons⟩ | ⟨bs, rfl, hcons⟩
  · cases as with
    | nil =>
      cases hcons
      exact mem_append_right _ mem_cons_self
    | cons a as =>
      cases hcons
      exact mem_append_left _ (mem_append_right _ mem_cons_self)
  · cases bs with
    | nil =>
      cases hcons
      exact mem_append_right _ mem_cons_self
    | cons b bs =>
      cases hcons
      exact absurd hin (hbefore g (mem_append_right _ mem_cons_self))

theorem filter_of_allAfter {fs : List DataFile} (h : ∀ f ∈ fs, AllAfter seek (f.valuesOf S Z id)) :
    (storedIn S Z id fs).filter (fun v => v.time ≤ seek) = [] := by
  refine filter_eq_nil_iff.mpr (fun v hv hle => ?_)
  obtain ⟨f, hf, hv⟩ := mem_flatMap.mp hv
  exact Int64.not_le.mpr (h f hf v hv) (of_decide_eq_true hle)

section

variable (hsplit : files = before ++ d :: after)
  (hsome : ¬ AllAfter seek (d.valuesOf S Z id))
include hsplit hsome

theorem exists_entry : ∃ y ∈ d.valuesOf S Z id, y.entry ∈ entriesUpTo S Z id seek files := by
  obtain ⟨y, hy⟩ := not_forall.mp hsome
  obtain ⟨hymem, hyle⟩ := Classical.not_imp.mp hy
  exact ⟨y, hymem, mem_entriesUpTo.mpr
    ⟨mem_storedIn (hsplit ▸ mem_append_right _ mem_cons_self) hymem, Int64.not_lt.mp hyle⟩⟩

variable (h : SeekableDown S Z id seek files)
include h

/-- No file after one with values up to the time has such values. -/
theorem SeekableDown.allAfter : ∀ f ∈ after, AllAfter seek (f.valuesOf S Z id) := by
  intro f hf
  by_contra hsome'
  obtain ⟨as, bs, rfl⟩ := append_of_mem hf
  have hnil := h.alone (before ++ d :: as) f bs (by rw [hsplit, append_assoc]; rfl) hsome'
  refine hsome (fun v hv => ?_)
  have hmem : v ∈ storedIn S Z id (before ++ d :: as) :=
    mem_flatMap.mpr ⟨d, mem_append_right _ mem_cons_self, hv⟩
  rw [hnil] at hmem
  cases hmem

theorem SeekableDown.filter_eq : (storedIn S Z id files).filter (fun v => v.time ≤ seek) =
      (d.valuesOf S Z id).filter (fun v => v.time ≤ seek) := by
  have hbefore := h.alone before d after hsplit hsome
  have hafter := filter_of_allAfter (h.allAfter hsplit hsome)
  rw [storedIn] at hbefore hafter
  rw [hsplit, storedIn, flatMap_append, flatMap_cons, hbefore, nil_append, filter_append,
    hafter, append_nil]

end

section

variable (hfiles : OrderedFiles S Z ty files)
include hfiles

theorem exists_comes (hdown : Down id files looked c) (seek : Int64) :
    ∃ e c', seekLoop S Z seek (files.length + 1) c = some (e, c') ∧ Comes S Z ty id seek looked e c' :=
  hdown.seekLoop_comes (fun f hf => hfiles.wellFormed f (hdown.initial.subset hf))
    (Nat.lt_succ_of_le hdown.initial.length_le)

/-- The loop reads the values up to the time, if it looks at each file that has one. -/
theorem SeekableDown.scan_of_down (h : SeekableDown S Z id seek files)
    (hdown : Down id files looked c)
    (hseek : seekTo S Z seek (new id files false) = seekLoop S Z seek (files.length + 1) c)
    (hlooked : ∀ f ∈ files, ¬ AllAfter seek (f.valuesOf S Z id) → f ∈ looked) :
    (cursor S Z).Scan EOF seek (new id files false) (entriesUpTo S Z id seek files) := by
  obtain ⟨e, c', hloop, hcomes⟩ := exists_comes hfiles hdown seek
  rw [hloop] at hseek
  have hmem : ∀ {f val rest}, f ∈ files → Found seek (f.decodedBlocks (fileCodec S Z) id) val rest →
      val.time ≤ seek ∧ val ∈ storedIn S Z id files := fun hf hfound =>
    ⟨hfound.le_of_boundary (h.boundary _ hf),
      mem_storedIn hf (hfound.mem_of_mem (mem_append_right _ mem_cons_self))⟩
  rcases hcomes with ⟨heof, hall⟩ | ⟨before, f, after, val, rest, rfl, hfound, rfl, hbelow⟩
  · have hnone : ∀ f ∈ files, AllAfter seek (f.valuesOf S Z id) := by
      intro f hf
      by_contra hsome
      obtain ⟨val, rest, hfound, htime⟩ := hall f (hlooked f hf hsome) hsome
      obtain ⟨hle, hval⟩ := hmem hf hfound
      exact h.ne_eof val hval hle htime
    rw [entriesUpTo, filter_of_allAfter hnone]
    exact KeyedCursor.Scan.nil_of_key ((congrArg (Option.map _) hseek).trans (congrArg some heof))
  · obtain ⟨tail, htail⟩ := hdown.initial
    have hsplit : files = before ++ f :: (after ++ tail) := by
      rw [← htail, append_assoc]
      rfl
    have hf : f ∈ files := hsplit ▸ mem_append_right _ mem_cons_self
    obtain ⟨hle, -⟩ := hmem hf hfound
    have hsome : ¬ AllAfter seek (f.valuesOf S Z id) := fun hafter =>
      Int64.not_lt.mpr hle (hafter val (hfound.mem_of_mem (mem_append_right _ mem_cons_self)))
    have hfilter : (storedIn S Z id files).filter (fun v => v.time ≤ seek) = rest ++ [val] := by
      rw [h.filter_eq hsplit hsome]
      exact hfound.filter_eq (valuesOf_ascending (hfiles.wellFormed f hf) id) hle
    have hne : ∀ v ∈ rest ++ [val], v.time ≠ EOF := by
      intro v hv
      rw [← hfilter, mem_filter, decide_eq_true_eq] at hv
      exact h.ne_eof v hv.1 hv.2
    rw [entriesUpTo, hfilter, reverse_append, reverse_singleton, singleton_append, map_cons]
    exact .step hseek (hne val (mem_append_right _ mem_cons_self))
      (hbelow.rest (forall_mem_append.mp hne).1)

/-- **A descending seek that is served.** -/
theorem scan_of_seekableDown (h : SeekableDown S Z id seek files) :
    (cursor S Z).Scan EOF seek (new id files false) (entriesUpTo S Z id seek files) := by
  rcases seekTo_down S Z id hfiles with ⟨c, -, hdown, hseek⟩ |
    ⟨init, f, rest, c, hnot, hinit, hin, -, hdown, hseek⟩ | ⟨c, hnot, hnone, hseek⟩
  · exact h.scan_of_down hfiles hdown hseek (fun f hf _ => hf)
  · refine h.scan_of_down hfiles hdown hseek (fun d hd hsome => ?_)
    obtain ⟨before, after, hsplit⟩ := append_of_mem hd
    exact mem_looked (hsplit.symm.trans hinit) hin
      ((h.reached before d after hsplit hsome).resolve_left hnot).2
  · have hall : ∀ d ∈ files, AllAfter seek (d.valuesOf S Z id) := by
      intro d hd
      by_contra hsome
      obtain ⟨before, after, hsplit⟩ := append_of_mem hd
      obtain ⟨⟨g, hg, hin⟩, -⟩ := (h.reached before d after hsplit hsome).resolve_left hnot
      exact hnone g (hsplit ▸ mem_append_right _ hg) hin
    rw [entriesUpTo, filter_of_allAfter hall]
    exact .eof hseek

section

variable (h : (cursor S Z).Scan EOF seek (new id files false) (entriesUpTo S Z id seek files))
include h

/-- The loop over the files of a complete reading ends in the file of a value. -/
theorem found_of_down (hdown : Down id files looked c)
    (hseek : seekTo S Z seek (new id files false) = seekLoop S Z seek (files.length + 1) c)
    (hsplit : files = before ++ d :: after) (hsome : ¬ AllAfter seek (d.valuesOf S Z id)) :
    ∃ val rest skipped, looked = before ++ d :: skipped ∧
      Found seek (d.decodedBlocks (fileCodec S Z) id) val rest ∧ val.time ≤ seek ∧
      entriesUpTo S Z id seek files = (rest ++ [val]).reverse.map Value.entry := by
  obtain ⟨y, hymem, hyentry⟩ := exists_entry hsplit hsome
  obtain ⟨e, c', hloop, hcomes⟩ := exists_comes hfiles hdown seek
  have hentries : ∃ es, entriesUpTo S Z id seek files = es := ⟨_, rfl⟩
  obtain ⟨es, hes⟩ := hentries
  have hne := h.ne_eof
  rw [hes] at h hyentry
  cases h with
  | eof _ => cases hyentry
  | @step s e₁ es hseek₁ hne₁ hrest =>
    obtain ⟨rfl, rfl⟩ : e = e₁ ∧ c' = s := by
      have heq := (hseek.trans hloop).symm.trans hseek₁
      cases heq
      exact ⟨rfl, rfl⟩
    obtain ⟨before', g, skipped, val, rest, hlooked, hfound, rfl, hbelow⟩ :=
      hcomes.resolve_left (fun heof => hne₁ heof.1)
    obtain ⟨above, hflat, -⟩ := hfound.exists_above
    obtain ⟨tail, htail⟩ := hdown.initial
    have hsplit' : files = before' ++ g :: (skipped ++ tail) := by
      rw [← htail, hlooked, append_assoc]
      rfl
    have hg : g ∈ files := hsplit' ▸ mem_append_right _ mem_cons_self
    have hvalues : ∀ v ∈ rest ++ [val], v ∈ g.valuesOf S Z id := fun v => hfound.mem_of_mem
    have hle : val.time ≤ seek :=
      (mem_entriesUpTo.mp (hes ▸ mem_cons_self : val.entry ∈ entriesUpTo S Z id seek files)).2
    have hrestne : ∀ v ∈ rest, v.time ≠ EOF := by
      intro v hv
      have hasc := valuesOf_ascending (hfiles.wellFormed g hg) id
      rw [DataFile.valuesOf, hflat] at hasc
      have hlt := lt_of_ascending_append hasc hv mem_cons_self
      exact hne _ (mem_entriesUpTo.mpr ⟨mem_storedIn hg (hvalues v (mem_append_left _ hv)),
        Int64.le_of_lt (Int64.lt_of_lt_of_le hlt hle)⟩)
    obtain rfl : es = rest.reverse.map Value.entry := hrest.unique (hbelow.rest hrestne)
    have hall : val.entry :: rest.reverse.map Value.entry = (rest ++ [val]).reverse.map Value.entry := by
      rw [reverse_append, reverse_singleton, singleton_append, map_cons]
    rw [hall, mem_map_of_injective Value.entry_injective, mem_reverse] at hyentry
    obtain ⟨rfl, rfl, -⟩ := hfiles.split_unique hsplit hsplit' hymem (hvalues y hyentry)
    exact ⟨val, rest, skipped, hlooked, hfound, hle, hes.trans hall⟩

/-- **A descending seek that is not served.** -/
theorem seekableDown_of_scan
    : SeekableDown S Z id seek files := by
  -- what a complete reading comes to, if the file has a value up to the time
  have hfound : ∀ before d after, files = before ++ d :: after →
      ¬ AllAfter seek (d.valuesOf S Z id) →
      (LastEnds seek files ∨ (∃ g ∈ d :: after, g.InRange seek) ∧ ∀ g ∈ before, ¬ g.InRange seek) ∧
      ∃ val rest, Found seek (d.decodedBlocks (fileCodec S Z) id) val rest ∧ val.time ≤ seek ∧
        entriesUpTo S Z id seek files = (rest ++ [val]).reverse.map Value.entry := by
    intro before d after hsplit hsome
    rcases seekTo_down S Z id hfiles with ⟨c, hends, hdown, hseek⟩ |
      ⟨init, f, rest, c, -, hinit, hin, hbefore, hdown, hseek⟩ | ⟨c, -, -, hseek⟩
    · obtain ⟨val, rest, -, -, hres⟩ := found_of_down hfiles h hdown hseek hsplit hsome
      exact ⟨.inl hends, val, rest, hres⟩
    · obtain ⟨val, below, skipped, hlooked, hres⟩ := found_of_down hfiles h hdown hseek hsplit hsome
      refine ⟨.inr ?_, val, below, hres⟩
      obtain ⟨xs, x, hlast⟩ := (eq_nil_or_concat' (d :: skipped)).resolve_left (cons_ne_nil _ _)
      rw [hlast, ← append_assoc] at hlooked
      obtain ⟨rfl, hx⟩ := append_inj' hlooked rfl
      cases hx
      rw [hsplit, append_assoc, append_cancel_left_eq] at hinit
      exact ⟨⟨f, hinit ▸ mem_append_right _ mem_cons_self, hin⟩,
        fun g hg => hbefore g (mem_append_left _ hg)⟩
    · have hnil := h.unique (.eof hseek)
      obtain ⟨y, -, hyentry⟩ := exists_entry hsplit hsome
      rw [hnil] at hyentry
      cases hyentry
  refine ⟨fun v hv hle => h.ne_eof _ (mem_entriesUpTo.mpr ⟨hv, hle⟩),
    fun before d after hsplit hsome => (hfound before d after hsplit hsome).1, ?_, ?_⟩
  · intro before d after hsplit hsome
    obtain ⟨-, val, rest, hres, hle, hentries⟩ := hfound before d after hsplit hsome
    have hvalues : ∀ v ∈ rest ++ [val], v ∈ d.valuesOf S Z id := fun v => hres.mem_of_mem
    refine eq_nil_iff_forall_not_mem.mpr (fun u hu => ?_)
    obtain ⟨f, hf, huf⟩ := mem_flatMap.mp hu
    obtain ⟨as, bs, rfl⟩ := append_of_mem hf
    have hsplit' : files = as ++ f :: (bs ++ d :: after) := by
      rw [hsplit, append_assoc]
      rfl
    have hlt : ∀ w ∈ d.valuesOf S Z id, u.time < w.time := fun w hw =>
      hfiles.lt_of_split hsplit' (mem_append_right _ mem_cons_self) huf hw
    have hval := hlt val (hvalues val (mem_append_right _ mem_cons_self))
    have hentry : u.entry ∈ entriesUpTo S Z id seek files :=
      mem_entriesUpTo.mpr ⟨mem_storedIn (hsplit ▸ mem_append_left _ hf) huf,
        Int64.le_of_lt (Int64.lt_of_lt_of_le hval hle)⟩
    rw [hentries, mem_map_of_injective Value.entry_injective, mem_reverse] at hentry
    exact absurd (hlt u (hvalues u hentry)) (Int64.not_lt.mpr (Int64.le_refl _))
  · intro f hf vs hvs hsome
    obtain ⟨before, after, hsplit⟩ := append_of_mem hf
    obtain ⟨-, val, rest, hres, hle, -⟩ := hfound before f after hsplit
      (fun hall => hsome (fun v hv => hall v (mem_flatten.mpr ⟨vs, hvs, hv⟩)))
    exact hres.boundary_of_le (valuesOf_ascending (hfiles.wellFormed f hf) id) hle vs hvs hsome

end

theorem entriesUpTo_descending :
    ((entriesUpTo S Z id seek files).map Prod.fst).Pairwise (· > ·) := by
  rw [entriesUpTo, map_map, pairwise_map, List.pairwise_reverse]
  exact ((hfiles.ascending id).sublist filter_sublist).imp Int64.lt_iff_toInt_lt.mpr

end

/-- **Descending reads are complete exactly if the seek is served**: `SeekTo` and
`Next` until the end return the values of the id up to the time, each once and in
the reverse order of time. -/
theorem descending_scan_iff (S : Simple8b) (Z : Snappy) (ty : UInt64 → FieldType)
    (files : List DataFile) (hfiles : OrderedFiles S Z ty files) (id : UInt64) (seek : Int64) :
    ((cursor S Z).Scan EOF seek (new id files false) (entriesUpTo S Z id seek files) ∧
      ((entriesUpTo S Z id seek files).map Prod.fst).Pairwise (· > ·)) ↔
      SeekableDown S Z id seek files := by
  constructor
  · rintro ⟨hscan, -⟩
    exact seekableDown_of_scan hfiles hscan
  · intro h
    exact ⟨scan_of_seekableDown hfiles h, entriesUpTo_descending hfiles⟩

/-- A seek into a block with one value after the time. -/
theorem descending_scan_one :
    (cursor Simple8b.plain Snappy.plain).Scan EOF 5 (new 1 (boolFiles 1 [([[1, 2], [4, 6]], 1, 7)]) false)
      [(4, some (.bool true)), (2, some (.bool true)), (1, some (.bool true))] := by
  have hfiles : OrderedFiles Simple8b.plain Snappy.plain (fun _ => .bool)
      (boolFiles 1 [([[1, 2], [4, 6]], 1, 7)]) :=
    orderedFiles_boolFiles (by decide) (by decide +kernel) (by decide +kernel)
  have hblocks : (boolFile 1 [[1, 2], [4, 6]] 1 7).decodedBlocks smallCodec 1 =
      [boolsAt [1, 2], boolsAt [4, 6]] := by decide +kernel
  have hstored : storedIn Simple8b.plain Snappy.plain 1 (boolFiles 1 [([[1, 2], [4, 6]], 1, 7)]) =
      boolsAt [1, 2, 4, 6] := by decide +kernel
  have hsingle : ∀ {before after : List DataFile} {f : DataFile},
      boolFiles 1 [([[1, 2], [4, 6]], 1, 7)] = before ++ f :: after →
        before = [] ∧ f = boolFile 1 [[1, 2], [4, 6]] 1 7 := by
    intro before after f h
    cases before with
    | nil =>
      cases h
      exact ⟨rfl, rfl⟩
    | cons g before =>
      have hlength := congrArg List.length h
      simp only [boolFiles, map_cons, map_nil, length_cons, length_nil,
        cons_append, length_append] at hlength
      omega
  have hseek : SeekableDown Simple8b.plain Snappy.plain 1 5 (boolFiles 1 [([[1, 2], [4, 6]], 1, 7)]) := by
    refine ⟨?_, ?_, ?_, ?_⟩
    · rw [hstored]
      intro v hv _
      obtain ⟨t, ht, rfl⟩ := mem_map.mp hv
      revert t
      rw [forall_mem_cons, forall_mem_cons, forall_mem_cons, forall_mem_singleton]
      decide
    · rintro before f after hsplit -
      obtain ⟨rfl, rfl⟩ := hsingle hsplit
      exact .inr ⟨⟨_, mem_cons_self, by decide⟩, nofun⟩
    · rintro before f after hsplit -
      obtain ⟨rfl, rfl⟩ := hsingle hsplit
      rfl
    · refine forall_mem_singleton.mpr (fun vs hvs _ => ?_)
      rw [hblocks] at hvs
      rcases mem_pair.mp hvs with rfl | rfl
      · decide
      · decide
  have hentries : entriesUpTo Simple8b.plain Snappy.plain 1 5 (boolFiles 1 [([[1, 2], [4, 6]], 1, 7)]) =
      [(4, some (.bool true)), (2, some (.bool true)), (1, some (.bool true))] := by
    rw [entriesUpTo, hstored]
    rfl
  rw [← hentries]
  exact ((descending_scan_iff _ _ _ _ hfiles 1 5).mpr hseek).1

/-- **Descending reads that are not complete**: a time between two files has no
value, a block with two values after the time gives one of them, `Next` does not
go back to the file before, and a value at the time that marks the end is not
returned. -/
theorem descending_scan_incomplete : (OrderedFiles Simple8b.plain Snappy.plain (fun _ => .bool)
        (boolFiles 1 [([[1, 2]], 1, 2), ([[5]], 5, 6)]) ∧
      (cursor Simple8b.plain Snappy.plain).Scan EOF 3
        (new 1 (boolFiles 1 [([[1, 2]], 1, 2), ([[5]], 5, 6)]) false) [] ∧
      entriesUpTo Simple8b.plain Snappy.plain 1 3 (boolFiles 1 [([[1, 2]], 1, 2), ([[5]], 5, 6)]) =
        [(2, some (.bool true)), (1, some (.bool true))]) ∧
    (OrderedFiles Simple8b.plain Snappy.plain (fun _ => .bool) (boolFiles 1 [([[1, 5, 6]], 1, 7)]) ∧
      (seekTo Simple8b.plain Snappy.plain 2 (new 1 (boolFiles 1 [([[1, 5, 6]], 1, 7)]) false)).map
        (fun r => r.1) = some (5, some (.bool true))) ∧
    ((seekTo Simple8b.plain Snappy.plain 6
        (new 1 (boolFiles 1 [([[1, 2]], 1, 2), ([[5]], 5, 6)]) false)).bind
        (fun r => (next Simple8b.plain Snappy.plain r.2).map (fun r' => [r.1.1, r'.1.1])) = some [5, EOF] ∧
      entriesUpTo Simple8b.plain Snappy.plain 1 6 (boolFiles 1 [([[1, 2]], 1, 2), ([[5]], 5, 6)]) =
        [(5, some (.bool true)), (2, some (.bool true)), (1, some (.bool true))]) ∧
    (OrderedFiles Simple8b.plain Snappy.plain (fun _ => .bool) (boolFiles 1 [([[-1]], -1, 3)]) ∧
      (cursor Simple8b.plain Snappy.plain).Scan EOF 0 (new 1 (boolFiles 1 [([[-1]], -1, 3)]) false) [] ∧
      entriesUpTo Simple8b.plain Snappy.plain 1 0 (boolFiles 1 [([[-1]], -1, 3)]) =
        [(-1, some (.bool true))]) := by
  refine ⟨⟨?_, ?_, by decide +kernel⟩, ⟨?_, by decide +kernel⟩, ⟨by decide +kernel, by decide +kernel⟩,
    ?_, ?_, by decide +kernel⟩
  · exact orderedFiles_boolFiles (by decide) (by decide +kernel) (by decide +kernel)
  · exact KeyedCursor.Scan.nil_of_key (by decide +kernel)
  · exact orderedFiles_boolFiles (by decide) (by decide +kernel) (by decide +kernel)
  · exact orderedFiles_boolFiles (by decide) (by decide +kernel) (by decide +kernel)
  · exact KeyedCursor.Scan.nil_of_key (by decide +kernel)

end IndexCursor

end AndyEnv.Tsm1
