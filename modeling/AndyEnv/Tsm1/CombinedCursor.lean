import AndyEnv.Lib.Keyed
import AndyEnv.Tsm1.IndexCursor

/-!
# The WAL and the index in one cursor

`combinedEngineCursor` keeps the next entry of each of two cursors and returns
the one that comes first, the entry of the WAL if both have the same time. The
mark of the end, `-1`, is compared like a time.
-/

namespace AndyEnv.Tsm1

open List Keyed Option

structure CombinedEngineCursor (σ τ α : Type) : Type where
  walCursor : σ
  engineCursor : τ
  walKeyBuf : Int64
  walValueBuf : Option α
  engineKeyBuf : Int64
  engineValueBuf : Option α
  ascending : Bool

namespace CombinedEngineCursor

variable {σ τ α : Type}
variable {ascending : Bool}

/-- `NewCombinedEngineCursor`. -/
def new (wc : σ) (ec : τ) (ascending : Bool) : CombinedEngineCursor σ τ α :=
  ⟨wc, ec, 0, none, 0, none, ascending⟩

section

variable (wal : KeyedCursor σ Int64 (Option α)) (engine : KeyedCursor τ Int64 (Option α))

/-- `c.walKeyBuf, c.walValueBuf = c.walCursor.Next()`. -/
def nextWal (c : CombinedEngineCursor σ τ α) : Option (CombinedEngineCursor σ τ α) := do
  let ((key, value), s) ← wal.next c.walCursor
  return { c with walCursor := s, walKeyBuf := key, walValueBuf := value }

/-- `c.engineKeyBuf, c.engineValueBuf = c.engineCursor.Next()`. -/
def nextEngine (c : CombinedEngineCursor σ τ α) : Option (CombinedEngineCursor σ τ α) := do
  let ((key, value), t) ← engine.next c.engineCursor
  return { c with engineCursor := t, engineKeyBuf := key, engineValueBuf := value }

/-- The entry of the WAL is returned, of two that have different times. -/
def takesWal (c : CombinedEngineCursor σ τ α) : Prop :=
  if c.ascending then c.walKeyBuf ≠ EOF ∧ (c.walKeyBuf < c.engineKeyBuf ∨ c.engineKeyBuf = EOF)
  else c.walKeyBuf ≠ EOF ∧ c.walKeyBuf > c.engineKeyBuf

instance (c : CombinedEngineCursor σ τ α) : Decidable c.takesWal := by
  unfold takesWal
  infer_instance

def read (c : CombinedEngineCursor σ τ α) :
    Option ((Int64 × Option α) × CombinedEngineCursor σ τ α) :=
  if c.walKeyBuf = EOF ∧ c.engineKeyBuf = EOF then some ((EOF, none), c)
  -- keep the wal value since it will overwrite the engine value
  else if c.walKeyBuf = c.engineKeyBuf then do
    let c' ← c.nextWal wal
    let c' ← c'.nextEngine engine
    return ((c.walKeyBuf, c.walValueBuf), c')
  else if c.takesWal then do
    let c' ← c.nextWal wal
    return ((c.walKeyBuf, c.walValueBuf), c')
  else do
    let c' ← c.nextEngine engine
    return ((c.engineKeyBuf, c.engineValueBuf), c')

def seekTo (seek : Int64) (c : CombinedEngineCursor σ τ α) :
    Option ((Int64 × Option α) × CombinedEngineCursor σ τ α) := do
  let ((walKey, walValue), s) ← wal.seekTo seek c.walCursor
  let ((engineKey, engineValue), t) ← engine.seekTo seek c.engineCursor
  read wal engine ⟨s, t, walKey, walValue, engineKey, engineValue, c.ascending⟩

def cursor : KeyedCursor (CombinedEngineCursor σ τ α) Int64 (Option α) where
  seekTo := seekTo wal engine
  next := read wal engine

end

/-! ## The order of the entries -/

/-- The times are not negative, and rise or fall with the direction. -/
structure Ordered (ascending : Bool) (es : List (Int64 × Option α)) : Prop where
  sorted : es.Pairwise (fun a b => if ascending then a.1 < b.1 else a.1 > b.1)
  nonneg : ∀ e ∈ es, 0 ≤ e.1

/-- What the entries of a direction ascend by. -/
def orderKey (ascending : Bool) (e : Int64 × Option α) : ℤ :=
  if ascending then e.1.toInt else -e.1.toInt

variable {a b e w : Int64 × Option α} {es : List (Int64 × Option α)}

theorem orderKey_lt_iff :
    orderKey ascending a < orderKey ascending b ↔ if ascending then a.1 < b.1 else a.1 > b.1 := by
  cases ascending with
  | true => exact Int64.lt_iff_toInt_lt.symm
  | false => exact neg_lt_neg_iff.trans Int64.lt_iff_toInt_lt.symm

theorem orderKey_eq_iff : orderKey ascending a = orderKey ascending b ↔ a.1 = b.1 := by
  cases ascending with
  | true => exact Int64.toInt_inj
  | false => exact neg_inj.trans Int64.toInt_inj

theorem ordered_iff :
    Ordered ascending es ↔ Ascending (orderKey ascending) es ∧ ∀ e ∈ es, 0 ≤ e.1 := by
  have hsorted : Ascending (orderKey ascending) es ↔
      es.Pairwise (fun a b => if ascending then a.1 < b.1 else a.1 > b.1) :=
    ⟨List.Pairwise.imp orderKey_lt_iff.mp, List.Pairwise.imp orderKey_lt_iff.mpr⟩
  rw [hsorted]
  exact ⟨fun h => ⟨h.sorted, h.nonneg⟩, fun h => ⟨h.1, h.2⟩⟩

theorem ordered_cons (h : Ordered ascending (e :: es)) :
    0 ≤ e.1 ∧ (∀ x ∈ es, orderKey ascending e < orderKey ascending x) ∧ Ordered ascending es := by
  obtain ⟨hasc, hnonneg⟩ := ordered_iff.mp h
  obtain ⟨he, hes⟩ := ascending_cons.mp hasc
  exact ⟨hnonneg e mem_cons_self, he,
    ordered_iff.mpr ⟨hes, fun x hx => hnonneg x (mem_cons_of_mem e hx)⟩⟩

/-! ## One entry -/

variable {wal : KeyedCursor σ Int64 (Option α)} {engine : KeyedCursor τ Int64 (Option α)}
  {c c' c'' : CombinedEngineCursor σ τ α}

theorem read_both (hne : c.walKeyBuf ≠ EOF) (heq : c.walKeyBuf = c.engineKeyBuf)
    (hwal : c.nextWal wal = some c') (hengine : c'.nextEngine engine = some c'') :
    read wal engine c = some ((c.walKeyBuf, c.walValueBuf), c'') := by
  rw [read, if_neg (fun h => hne h.1), if_pos heq, hwal]
  simp only [bind_eq_bind, bind_some, hengine]
  rfl

theorem read_wal (hne : c.walKeyBuf ≠ c.engineKeyBuf) (htakes : c.takesWal)
    (hwal : c.nextWal wal = some c') :
    read wal engine c = some ((c.walKeyBuf, c.walValueBuf), c') := by
  rw [read, if_neg (fun h => hne (h.1.trans h.2.symm)), if_neg hne, if_pos htakes, hwal]
  rfl

theorem read_engine (hne : c.walKeyBuf ≠ c.engineKeyBuf) (htakes : ¬ c.takesWal)
    (hengine : c.nextEngine engine = some c') :
    read wal engine c = some ((c.engineKeyBuf, c.engineValueBuf), c') := by
  rw [read, if_neg (fun h => hne (h.1.trans h.2.symm)), if_neg hne, if_neg htakes, hengine]
  rfl

theorem takesWal_iff (hw : c.walKeyBuf = w.1) (he : c.engineKeyBuf = e.1)
    (hwne : w.1 ≠ EOF) (hene : e.1 ≠ EOF) :
    c.takesWal ↔ orderKey c.ascending w < orderKey c.ascending e := by
  rw [orderKey_lt_iff, takesWal, hw, he]
  cases c.ascending with
  | true => exact ⟨fun h => h.2.resolve_right hene, fun h => ⟨hwne, .inl h⟩⟩
  | false => exact ⟨fun h => h.2, fun h => ⟨hwne, h⟩⟩

theorem takesWal_of_eof (hw : c.walKeyBuf = w.1) (he : c.engineKeyBuf = EOF)
    (hne : w.1 ≠ EOF) (hnonneg : 0 ≤ w.1) : c.takesWal := by
  rw [takesWal, hw, he]
  cases c.ascending with
  | true => exact ⟨hne, .inr rfl⟩
  | false => exact ⟨hne, Int64.lt_of_lt_of_le (by decide) hnonneg⟩

/-! ## The merge -/

structure Holds (wal : KeyedCursor σ Int64 (Option α)) (engine : KeyedCursor τ Int64 (Option α))
    (c : CombinedEngineCursor σ τ α) (W E : List (Int64 × Option α)) : Prop where
  wal : wal.Buffered EOF (c.walKeyBuf, c.walValueBuf) c.walCursor W
  engine : engine.Buffered EOF (c.engineKeyBuf, c.engineValueBuf) c.engineCursor E

section Steps

variable {w e : Int64 × Option α} {ws es W E : List (Int64 × Option α)}

theorem Holds.nextWal (h : Holds wal engine c (w :: ws) E) :
    ∃ c', c.nextWal wal = some c' ∧ Holds wal engine c' ws E ∧ c'.ascending = c.ascending := by
  obtain ⟨⟨key, value⟩, s, hnext, hbuf⟩ := h.wal.cons_inv.2.2.buffered
  refine ⟨{ c with walCursor := s, walKeyBuf := key, walValueBuf := value }, ?_, ⟨hbuf, h.engine⟩, rfl⟩
  rw [CombinedEngineCursor.nextWal, hnext]
  rfl

theorem Holds.nextEngine (h : Holds wal engine c W (e :: es)) :
    ∃ c', c.nextEngine engine = some c' ∧ Holds wal engine c' W es ∧ c'.ascending = c.ascending := by
  obtain ⟨⟨key, value⟩, t, hnext, hbuf⟩ := h.engine.cons_inv.2.2.buffered
  refine ⟨{ c with engineCursor := t, engineKeyBuf := key, engineValueBuf := value }, ?_, ⟨h.wal, hbuf⟩, rfl⟩
  rw [CombinedEngineCursor.nextEngine, hnext]
  rfl

theorem Holds.read_both (h : Holds wal engine c (w :: ws) (e :: es)) (heq : w.1 = e.1) :
    ∃ c', read wal engine c = some (w, c') ∧ Holds wal engine c' ws es ∧ c'.ascending = c.ascending := by
  obtain ⟨rfl, hne, -⟩ := h.wal.cons_inv
  obtain ⟨rfl, -, -⟩ := h.engine.cons_inv
  obtain ⟨c₁, hwal, hholds, hasc⟩ := h.nextWal
  obtain ⟨c₂, hengine, hholds, hasc'⟩ := hholds.nextEngine
  exact ⟨c₂, CombinedEngineCursor.read_both hne heq hwal hengine, hholds, hasc'.trans hasc⟩

theorem Holds.read_wal (h : Holds wal engine c (w :: ws) E) (hw : 0 ≤ w.1)
    (hlt : ∀ e ∈ E, orderKey c.ascending w < orderKey c.ascending e) :
    ∃ c', read wal engine c = some (w, c') ∧ Holds wal engine c' ws E ∧ c'.ascending = c.ascending := by
  obtain ⟨hbuf, hne, -⟩ := h.wal.cons_inv
  obtain ⟨c', hwal, hholds, hasc⟩ := h.nextWal
  have hwkey : c.walKeyBuf = w.1 := congrArg Prod.fst hbuf
  refine ⟨c', ?_, hholds, hasc⟩
  rw [← hbuf]
  cases E with
  | nil =>
    have hekey : c.engineKeyBuf = EOF := h.engine.key_nil
    exact CombinedEngineCursor.read_wal (by rwa [hwkey, hekey]) (takesWal_of_eof hwkey hekey hne hw) hwal
  | cons e es =>
    obtain ⟨hbufe, hene, -⟩ := h.engine.cons_inv
    have hekey : c.engineKeyBuf = e.1 := congrArg Prod.fst hbufe
    have hfirst := hlt e mem_cons_self
    refine CombinedEngineCursor.read_wal ?_ ((takesWal_iff hwkey hekey hne hene).mpr hfirst) hwal
    rw [hwkey, hekey]
    exact fun heq => hfirst.ne (orderKey_eq_iff.mpr heq)

theorem Holds.read_engine (h : Holds wal engine c W (e :: es))
    (hlt : ∀ w ∈ W, orderKey c.ascending e < orderKey c.ascending w) :
    ∃ c', read wal engine c = some (e, c') ∧ Holds wal engine c' W es ∧ c'.ascending = c.ascending := by
  obtain ⟨hbuf, hne, -⟩ := h.engine.cons_inv
  obtain ⟨c', hengine, hholds, hasc⟩ := h.nextEngine
  have hekey : c.engineKeyBuf = e.1 := congrArg Prod.fst hbuf
  refine ⟨c', ?_, hholds, hasc⟩
  rw [← hbuf]
  cases W with
  | nil =>
    have hwkey : c.walKeyBuf = EOF := h.wal.key_nil
    refine CombinedEngineCursor.read_engine (by rw [hwkey, hekey]; exact hne.symm) ?_ hengine
    rw [takesWal, hwkey]
    cases c.ascending with
    | true => exact fun h => h.1 rfl
    | false => exact fun h => h.1 rfl
  | cons w ws =>
    obtain ⟨hbufw, hwne, -⟩ := h.wal.cons_inv
    have hwkey : c.walKeyBuf = w.1 := congrArg Prod.fst hbufw
    have hfirst := hlt w mem_cons_self
    refine CombinedEngineCursor.read_engine ?_ ?_ hengine
    · rw [hwkey, hekey]
      exact fun heq => hfirst.ne' (orderKey_eq_iff.mpr heq)
    · rw [takesWal_iff hwkey hekey hwne hne]
      exact hfirst.asymm

end Steps

/-- The entries of two lists, those of the WAL over those of the index. -/
abbrev merged (ascending : Bool) (W E : List (Int64 × Option α)) : List (Int64 × Option α) :=
  overlay (orderKey ascending) E W

/-- **A reading of the merge**, by induction on the entries that are left. -/
theorem Holds.rest {W E : List (Int64 × Option α)} (h : Holds wal engine c W E)
    (hW : Ordered c.ascending W) (hE : Ordered c.ascending E) :
    (cursor wal engine).Rest EOF c (merged c.ascending W E) := by
  induction hn : W.length + E.length using Nat.strong_induction_on generalizing c W E with
  | _ n ih =>
    -- one entry, and the induction hypothesis for what is left
    have hstep : ∀ {x c' W' E'}, read wal engine c = some (x, c') → 0 ≤ x.1 →
        Holds wal engine c' W' E' → c'.ascending = c.ascending → Ordered c.ascending W' →
        Ordered c.ascending E' → W'.length + E'.length < n →
        (cursor wal engine).Rest EOF c (x :: merged c.ascending W' E') := by
      intro x c' W' E' hread hx hholds hasc hW' hE' hlt
      have hne : x.1 ≠ EOF := fun heq => absurd hx (by rw [heq]; decide)
      rw [← hasc] at hW' hE' ⊢
      exact .step hread hne (ih _ hlt hholds hW' hE' rfl)
    rcases W with _ | ⟨w, ws⟩
    · rcases E with _ | ⟨e, es⟩
      · exact .eof (if_pos ⟨h.wal.key_nil, h.engine.key_nil⟩)
      · obtain ⟨he, -, hes⟩ := ordered_cons hE
        obtain ⟨c', hread, hholds, hasc⟩ := h.read_engine nofun
        exact hstep hread he hholds hasc hW hes (by simp only [length_cons] at hn ⊢; omega)
    · obtain ⟨hw, hwlt, hws⟩ := ordered_cons hW
      -- the entry of the WAL is before all of the index
      have hfirst : (∀ x ∈ E, orderKey c.ascending w < orderKey c.ascending x) →
          (cursor wal engine).Rest EOF c (merged c.ascending (w :: ws) E) := by
        intro hlt
        obtain ⟨c', hread, hholds, hasc⟩ := h.read_wal hw hlt
        rw [merged, overlay_cons_right hwlt hlt]
        exact hstep hread hw hholds hasc hws hE (by simp only [length_cons] at hn; omega)
      rcases E with _ | ⟨e, es⟩
      · exact hfirst nofun
      obtain ⟨he, helt, hes⟩ := ordered_cons hE
      rcases lt_trichotomy (orderKey c.ascending w) (orderKey c.ascending e) with hlt | heq | hgt
      · exact hfirst (forall_mem_cons.mpr ⟨hlt, fun x hx => hlt.trans (helt x hx)⟩)
      · obtain ⟨c', hread, hholds, hasc⟩ := h.read_both (orderKey_eq_iff.mp heq)
        rw [merged, overlay_cons_both hwlt heq]
        exact hstep hread hw hholds hasc hws hes (by simp only [length_cons] at hn; omega)
      · have hall : ∀ x ∈ w :: ws, orderKey c.ascending e < orderKey c.ascending x :=
          forall_mem_cons.mpr ⟨hgt, fun x hx => hgt.trans (hwlt x hx)⟩
        obtain ⟨c', hread, hholds, hasc⟩ := h.read_engine hall
        rw [merged, overlay_cons_left hall]
        exact hstep hread he hholds hasc hW hes (by simp only [length_cons] at hn ⊢; omega)

/-- **The WAL and the index in one reading**: each time that one of the two cursors
returns from the seek on is returned once, in order, with the value of the WAL if
both have it. -/
theorem combined_scan (wal : KeyedCursor σ Int64 (Option α)) (engine : KeyedCursor τ Int64 (Option α))
    (ascending : Bool) (seek : Int64) (wc : σ) (ec : τ) (W E : List (Int64 × Option α))
    (hwal : wal.Scan EOF seek wc W) (hengine : engine.Scan EOF seek ec E)
    (hW : Ordered ascending W) (hE : Ordered ascending E) :
    ∃ out, (cursor wal engine).Scan EOF seek (new wc ec ascending) out ∧ Ordered ascending out ∧
      ∀ e, e ∈ out ↔ e ∈ W ∨ e ∈ E ∧ ∀ w ∈ W, w.1 ≠ e.1 := by
  obtain ⟨⟨wkey, wvalue⟩, s, hseekw, hbufw⟩ := hwal.buffered
  obtain ⟨⟨ekey, evalue⟩, t, hseeke, hbufe⟩ := hengine.buffered
  have hholds : Holds wal engine ⟨s, t, wkey, wvalue, ekey, evalue, ascending⟩ W E := ⟨hbufw, hbufe⟩
  have hWasc := (ordered_iff.mp hW).1
  have hEasc := (ordered_iff.mp hE).1
  have hmem : ∀ e, e ∈ merged ascending W E ↔ e ∈ W ∨ e ∈ E ∧ ∀ w ∈ W, w.1 ≠ e.1 := by
    intro e
    rw [merged, mem_overlay hEasc hWasc]
    simp only [ne_eq, orderKey_eq_iff]
  refine ⟨merged ascending W E, .of_rest ?_ (hholds.rest hW hE), ordered_iff.mpr ⟨?_, ?_⟩, hmem⟩
  · show seekTo wal engine seek (new wc ec ascending) = _
    simp only [seekTo, new, hseekw, hseeke, bind_eq_bind, bind_some]
    rfl
  · exact ascending_overlay W hEasc
  · intro e he
    rcases (hmem e).mp he with he | ⟨he, -⟩
    · exact hW.nonneg e he
    · exact hE.nonneg e he

/-- Two descending lists. -/
theorem combined_scan_lists :
    ∃ out, (cursor (KeyedCursor.ofList EOF none (fun a b => decide (a > b)))
        (KeyedCursor.ofList EOF none (fun a b => decide (a > b)))).Scan EOF 7
          (new [(9, some 1), (5, some 2), (3, some 3)] [(5, some 4), (0, some 5)] false) out ∧
      Ordered false out ∧ ∀ e : Int64 × Option ℕ, e ∈ out ↔ e ∈ [(5, some 2), (3, some 3)] ∨
        e ∈ [(5, some 4), (0, some 5)] ∧ ∀ w ∈ [((5 : Int64), some 2), (3, some 3)], w.1 ≠ e.1 :=
  combined_scan _ _ false 7 [(9, some 1), (5, some 2), (3, some 3)] [(5, some 4), (0, some 5)] _ _
    (KeyedCursor.scan_ofList none _ 7 (by decide)) (KeyedCursor.scan_ofList none _ 7 (by decide))
    ⟨by decide, by decide⟩ ⟨by decide, by decide⟩

end CombinedEngineCursor

end AndyEnv.Tsm1
