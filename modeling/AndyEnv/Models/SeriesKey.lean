import Mathlib.Data.List.GetD
import AndyEnv.Models.LineRoundTrip

/-!
# One series, one key

The key of a point should have its tags in order, so that two lines of one series give the same
key. `scanKey` compares the first tag with the last, the second with the last but one, and so on,
and sorts only if one of these pairs is out of order: a tag in the middle, or two neighbours, are
not compared.

A line can be accepted with a tag that has no equals sign if another tag has two. Such a tag is
sorted by the text up to the next equals sign of the line.
-/

namespace AndyEnv.Models

open Escape Bytes
open List

/-! ## The tags of a key -/

/-- The text between commas that are not escaped. -/
def splitKey (skip : Bool) : Bytes → List Bytes
  | [] => [[]]
  | c :: rest =>
    if !skip && c == comma then [] :: splitKey false rest
    else
      match splitKey (!skip && c == backslash) rest with
      | [] => [[c]]
      | s :: segs => (c :: s) :: segs

def keyTags (key : Bytes) : List Bytes := (splitKey false key).tail

def nameOf (seg : Bytes) : Bytes := (scanTo equal seg).1

/-- **The tags are strictly ascending.** -/
def StrictTags (key : Bytes) : Prop :=
  ((keyTags key).map nameOf).Pairwise (fun a b => le a b = true ∧ a ≠ b)

instance (key : Bytes) : Decidable (StrictTags key) := inferInstanceAs (Decidable (List.Pairwise _ _))

/-- The key of a line as it is written, and what follows the space. -/
def lineKey (line : Bytes) : Bytes × Bytes :=
  let p := scanTo space (skipWhitespace line)
  (p.1, p.2.drop 1)

def segsText (segs : List Bytes) : Bytes := segs.flatMap (fun s => comma :: s)

/-- What the tags of a line are sorted by: the texts up to the next equals sign of the line. -/
def sortTexts : List Bytes → Bytes → List Bytes
  | [], _ => []
  | s :: segs, tail => (scanTo equal (s ++ (segsText segs ++ space :: tail))).1 :: sortTexts segs tail

/-! ## What the scan of the key finds -/

def segStarts (pos : ℕ) : List Bytes → List ℕ
  | [] => [pos + 1]
  | s :: segs => (pos + 1) :: segStarts (pos + 1 + s.length) segs

/-- A text without commas or spaces that are not escaped. -/
def IsSeg (s : Bytes) : Prop := Closed (stopsKey false) false s = true

variable {rest meas buf tail key before line : Bytes}

theorem splitKey_append {t : Bytes} {segs : List Bytes} (hrest : splitKey false rest = t :: segs) :
    ∀ {s : Bytes} {skip : Bool}, Closed (stopsKey false) skip s = true →
      splitKey skip (s ++ rest) = (s ++ t) :: segs
  | [], skip, h => by
    have hskip : skip = false := by simpa using h
    rw [hskip]
    exact hrest
  | c :: s, skip, h => by
    rw [closed_cons, Bool.and_eq_true, Bool.not_eq_true'] at h
    have hcomma : (!skip && c == comma) = false := by
      cases skip with
      | true => rfl
      | false =>
        rw [Bool.not_false, Bool.true_and, beq_eq_false_iff_ne]
        rintro rfl
        exact absurd h.1 (by decide)
    rw [cons_append, splitKey, hcomma, splitKey_append hrest h.2]
    rfl

theorem splitKey_text (hmeas : IsSeg meas) : ∀ {segs : List Bytes}, (∀ s ∈ segs, IsSeg s) →
    splitKey false (meas ++ segsText segs) = meas :: segs := by
  intro segs
  induction segs generalizing meas with
  | nil =>
    intro _
    have hnil : splitKey false [] = [[]] := rfl
    have h := splitKey_append hnil hmeas
    rw [append_nil] at h
    rw [segsText, flatMap_nil, append_nil]
    exact h
  | cons s segs ih =>
    intro hsegs
    have hs := ih (hsegs s mem_cons_self) (forall_mem_cons.mp hsegs).2
    have hrest : splitKey false (comma :: (s ++ segsText segs)) = [] :: s :: segs := by
      rw [splitKey, hs]
      rfl
    have h := splitKey_append hrest hmeas
    rw [append_nil] at h
    exact h

/-- From `k` on, the rest of the current text and the tags up to the space are scanned. -/
def Scanned (k : KeyScan) (skip : Bool) (before rest : Bytes) (k' : KeyScan) (before' rest' : Bytes) : Prop :=
  ∃ cur segs tail, rest = cur ++ (segsText segs ++ space :: tail) ∧ Closed (stopsKey false) skip cur = true ∧
    (∀ s ∈ segs, IsSeg s) ∧ k'.commas = k.commas + segs.length ∧
    k'.indices = k.indices ++ segStarts (before.length + cur.length) segs ∧
    before' = (cur ++ segsText segs).reverse ++ before ∧ rest' = space :: tail

theorem scanKeyLoop_inv : ∀ {rest : Bytes} {k k' : KeyScan} {skip : Bool} {before before' rest' : Bytes},
    scanKeyLoop k skip before rest = .ok (k', before', rest') → Scanned k skip before rest k' before' rest'
  | [], k, k', skip, before, before', rest', h => by
    rw [scanKeyLoop] at h
    repeat' split at h
    all_goals cases h
  | c :: rest, k, k', skip, before, before', rest', h => by
    -- a byte that is part of the current text
    have hstep : ∀ {k₁ : KeyScan}, (skip = false → stopsKey false c = false ∨ c = backslash) →
        k₁.commas = k.commas → k₁.indices = k.indices →
        scanKeyLoop k₁ (!skip && c == backslash) (c :: before) rest = .ok (k', before', rest') →
        Scanned k skip before (c :: rest) k' before' rest' := by
      intro k₁ hc hcommas hindices h
      obtain ⟨cur, segs, tail, rfl, hcur, hsegs, hcommas', hindices', hbefore, hrest⟩ := scanKeyLoop_inv h
      refine ⟨c :: cur, segs, tail, rfl, ?_, hsegs, hcommas ▸ hcommas', ?_, ?_, hrest⟩
      · rw [closed_cons, hcur, Bool.and_true]
        cases skip with
        | true => rfl
        | false => rcases hc rfl with hc | rfl <;> simp [*]
      · rw [hindices', hindices, length_cons, length_cons]
        congr 2
        omega
      · rw [hbefore]
        simp
    rw [scanKeyLoop] at h
    split at h
    · rename_i hskip
      subst hskip
      exact hstep (fun h => absurd h (by decide)) rfl rfl h
    rename_i hskip
    rw [Bool.not_eq_true] at hskip
    subst hskip
    by_cases hequal : c = equal ∧ k.commas > 0
    · rw [if_pos hequal] at h
      obtain ⟨rfl, -⟩ := hequal
      split_ifs at h
      exact hstep (fun _ => .inl (by decide)) (by rfl) (by rfl) h
    rw [if_neg hequal] at h
    by_cases hbackslash : c = backslash
    · rw [if_pos hbackslash] at h
      subst hbackslash
      exact hstep (fun _ => .inr rfl) rfl rfl h
    rw [if_neg hbackslash] at h
    have hescape : (!false && c == backslash) = false := by
      simpa using hbackslash
    by_cases hcomma : c = comma
    · -- the next tag begins
      rw [if_pos hcomma] at h
      subst hcomma
      split_ifs at h
      obtain ⟨cur, segs, tail, rfl, hcur, hsegs, hcommas, hindices, hbefore, hrest⟩ := scanKeyLoop_inv h
      refine ⟨[], cur :: segs, tail, ?_, rfl, ?_, ?_, ?_, ?_, hrest⟩
      · simp [segsText]
      · exact forall_mem_cons.mpr ⟨hcur, hsegs⟩
      · rw [hcommas, length_cons]
        show k.commas + 1 + segs.length = _
        omega
      · rw [hindices, append_assoc]
        rfl
      · rw [hbefore]
        simp [segsText]
    rw [if_neg hcomma] at h
    by_cases hspace : c = space
    · rw [if_pos hspace] at h
      subst hspace
      split_ifs at h
      obtain ⟨rfl, htail⟩ := Prod.mk.inj (Except.ok.inj h)
      obtain ⟨rfl, rfl⟩ := Prod.mk.inj htail
      exact ⟨[], [], rest, rfl, rfl, forall_mem_nil _, rfl, rfl, rfl, rfl⟩
    · rw [if_neg hspace] at h
      refine hstep (fun _ => .inl ?_) rfl rfl (by rw [hescape]; exact h)
      simp [stopsKey, hcomma, hspace]

/-! ## The tags that are compared -/

/-- The tag starts at the index, and `m` is the text up to the next equals sign. -/
def SegAt (buf : Bytes) (i : ℕ) (p : Bytes × Bytes) : Prop :=
  IsSeg p.1 ∧ (∃ rest, buf.drop i = p.1 ++ rest ∧ (rest.head? = some comma ∨ rest.head? = some space)) ∧
    p.2 = (scanTo equal (buf.drop i)).1

theorem head_segsText (segs : List Bytes) (tail : Bytes) :
    (segsText segs ++ space :: tail).head? = some comma ∨ (segsText segs ++ space :: tail).head? = some space := by
  cases segs with
  | nil => exact .inr rfl
  | cons s segs => exact .inl rfl

theorem segAt_segStarts : ∀ {segs : List Bytes} {pos : ℕ}, (∀ s ∈ segs, IsSeg s) →
    buf.drop pos = segsText segs ++ space :: tail →
      List.Forall₂ (SegAt buf) ((segStarts pos segs).take segs.length) (segs.zip (sortTexts segs tail))
  | [], _, _, _ => List.Forall₂.nil
  | s :: segs, pos, hsegs, h => by
    obtain ⟨hdrop, hnext⟩ := drop_after_comma (by simpa [segsText] using h)
    refine List.Forall₂.cons ⟨hsegs s mem_cons_self, ⟨_, hdrop, head_segsText segs tail⟩, ?_⟩
      (segAt_segStarts (forall_mem_cons.mp hsegs).2 hnext)
    rw [hdrop]
    rfl

theorem head_segStarts (pos : ℕ) (segs : List Bytes) : (segStarts pos segs).getD 0 0 = pos + 1 := by
  cases segs <;> rfl

theorem tagName_segStarts : ∀ {segs : List Bytes} {pos : ℕ},
    buf.drop pos = segsText segs ++ space :: tail → ∀ {j : ℕ} (hj : j < segs.length),
      tagName buf (segStarts pos segs) j = nameOf (segs.get ⟨j, hj⟩)
  | s :: segs, pos, h, 0, _ => by
    obtain ⟨hdrop, -⟩ := drop_after_comma (by simpa [segsText] using h)
    have hend : (segStarts pos (s :: segs)).getD (0 + 1) 0 - 1 = pos + 1 + s.length := by
      change (segStarts _ segs).getD 0 0 - 1 = _
      rw [head_segStarts]
      rfl
    rw [tagName, slice, hend, head_segStarts, drop_take, hdrop, Nat.add_sub_cancel_left, take_left]
    rfl
  | s :: segs, pos, h, j + 1, hj => by
    obtain ⟨-, hnext⟩ := drop_after_comma (by simpa [segsText] using h)
    exact tagName_segStarts hnext (Nat.lt_of_succ_lt_succ hj)

/-- If the comparisons end without an error, no two names that were compared are equal. -/
theorem ne_of_foldlM_comparePair {k : KeyScan} : ∀ {js : List ℕ} {sorted sorted' : Bool},
    js.foldlM (comparePair buf k) sorted = .ok sorted' →
    ∀ j ∈ js, tagName buf k.indices j ≠ tagName buf k.indices (k.commas - j - 1)
  | [], _, _, _ => fun j hj => absurd hj not_mem_nil
  | j :: js, sorted, sorted', h => by
    rw [foldlM_cons, comparePair] at h
    split at h
    · cases h
    · rename_i hne
      exact forall_mem_cons.mpr ⟨hne, ne_of_foldlM_comparePair h⟩

/-- The comparisons from both ends find the names in order. -/
def mirrorOrdered (names : List Bytes) : Bool :=
  (List.range (names.length / 2)).all (fun j =>
    le (names.getD j []) (names.getD (names.length - j - 1) []))

variable {segs : List Bytes} {pairs : List (Bytes × Bytes)}

theorem getD_names {j : ℕ} (hj : j < segs.length) :
    (segs.map nameOf).getD j [] = nameOf (segs.get ⟨j, hj⟩) := by
  rw [getD_eq_getElem?_getD, List.getElem?_map, List.getElem?_eq_getElem hj]
  rfl

theorem flatMap_segs {indices : List ℕ} (h : List.Forall₂ (SegAt buf) indices pairs) :
    indices.flatMap (fun i => comma :: (scanToSpaceOr comma (buf.drop i)).1) = segsText (pairs.map Prod.fst) := by
  induction h with
  | nil => rfl
  | cons hat _ ih =>
    obtain ⟨hseg, ⟨rest, hdrop, hhead⟩, -⟩ := hat
    rw [flatMap_cons, ih, hdrop,
      scanToSpaceOr_append (Closed.mono (fun c hc => by simpa [stopsKey] using hc) hseg) hhead]
    rfl

/-- The key that is left after the comparisons, if the scan found these tags. -/
theorem key_of_sorted {ws : Bytes} {k : KeyScan} {sorted : Bool}
    (hbuf : buf = ws ++ (meas ++ (segsText segs ++ space :: tail)))
    (hsegs : ∀ s ∈ segs, IsSeg s) (hcommas : k.commas = segs.length)
    (hindices : k.indices = segStarts (ws.length + meas.length) segs)
    (hfold : (List.range (k.commas / 2)).foldlM (comparePair buf k) true = .ok sorted) :
    sorted = mirrorOrdered (segs.map nameOf) ∧
      ∃ pairs : List (Bytes × Bytes), pairs.Perm (segs.zip (sortTexts segs tail)) ∧
        pairs.Pairwise (fun p q => le p.2 q.2 = true) ∧
        rebuildKey buf ws.length k.indices (insertionSort buf (k.indices.take k.commas)) =
            meas ++ segsText (pairs.map Prod.fst) := by
  have hdrop : buf.drop (ws.length + meas.length) = segsText segs ++ space :: tail := by
    rw [hbuf, ← drop_drop, drop_left, drop_left]
  have hname : ∀ {j : ℕ}, j < segs.length →
      tagName buf k.indices j = (segs.map nameOf).getD j [] := by
    intro j hj
    rw [hindices, tagName_segStarts hdrop hj, getD_names]
  refine ⟨?_, ?_⟩
  · rw [foldlM_comparePair (ne_of_foldlM_comparePair hfold)] at hfold
    rw [← Except.ok.inj hfold, Bool.true_and, hcommas, mirrorOrdered, length_map, Bool.eq_iff_iff,
      all_eq_true, all_eq_true]
    refine forall₂_congr (fun j hj => ?_)
    have hj' := mem_range.mp hj
    rw [hname (by omega), hname (by omega)]
  · rw [hcommas, hindices]
    obtain ⟨pairs, hpairs, hperm⟩ := perm_comp_forall₂ (insertionSort_perm _ _) (segAt_segStarts hsegs hdrop)
    refine ⟨pairs, hperm, pairwise_of_forall₂ hpairs (fun _ _ hat => hat.2.2) (insertionSort_pairwise _ _), ?_⟩
    rw [rebuildKey, head_segStarts, Nat.add_sub_cancel, flatMap_segs hpairs, slice, hbuf, ← append_assoc,
      ← length_append, take_left, drop_left]

/-- **What the scan of a key makes of a line**: the key as it is written, or with its tags sorted. -/
theorem scanKey_inv (h : scanKey buf = .ok (key, before, rest)) :
    ∃ meas segs tail, IsSeg meas ∧ (∀ s ∈ segs, IsSeg s) ∧
      skipWhitespace buf = meas ++ (segsText segs ++ space :: tail) ∧
      ((mirrorOrdered (segs.map nameOf) = true ∧ key = meas ++ segsText segs) ∨
        (mirrorOrdered (segs.map nameOf) = false ∧
          ∃ pairs : List (Bytes × Bytes), pairs.Perm (segs.zip (sortTexts segs tail)) ∧
            pairs.Pairwise (fun p q => le p.2 q.2 = true) ∧ key = meas ++ segsText (pairs.map Prod.fst))) := by
  have hwhole : buf = buf.takeWhile isWhitespace ++ skipWhitespace buf := takeWhile_append_dropWhile.symm
  unfold scanKey at h
  generalize buf.takeWhile isWhitespace = ws at h hwhole
  obtain ⟨⟨k, before₁, rest₁⟩, hloop, h⟩ := except_bind_eq_ok.mp h
  obtain ⟨sorted, hfold, h⟩ := except_bind_eq_ok.mp h
  obtain ⟨meas, segs, tail, hbuf, hmeas, hsegs, hcommas, hindices, hbefore, -⟩ := scanKeyLoop_inv hloop
  rw [zero_add] at hcommas
  rw [nil_append, length_reverse] at hindices
  rw [hbuf] at hwhole
  refine ⟨meas, segs, tail, hmeas, hsegs, hbuf, ?_⟩
  subst hwhole
  obtain ⟨hsorted, pairs, hperm, hpair, hkey⟩ := key_of_sorted rfl hsegs hcommas hindices hfold
  rw [length_reverse, hkey, hsorted] at h
  cases hmirror : mirrorOrdered (segs.map nameOf) with
  | true =>
    rw [hmirror] at h
    refine .inl ⟨rfl, ?_⟩
    have hkey' := (Prod.mk.inj (Except.ok.inj h)).1
    have hlen : before₁.length = (ws ++ (meas ++ segsText segs)).length := by
      rw [hbefore, ← reverse_append, length_reverse]
    have happend : ws ++ (meas ++ (segsText segs ++ space :: tail)) =
        (ws ++ (meas ++ segsText segs)) ++ space :: tail := by
      rw [append_assoc, append_assoc]
    rw [← hkey', slice, hlen, happend, take_left, drop_left]
  | false =>
    have hpos : k.commas > 0 := by
      rw [hcommas]
      by_contra hzero
      obtain rfl : segs = [] := eq_nil_of_length_eq_zero (by omega)
      exact absurd hmirror (by decide)
    rw [hmirror, Bool.not_false, Bool.true_and, if_pos (decide_eq_true hpos)] at h
    exact .inr ⟨rfl, pairs, hperm, hpair, (Prod.mk.inj (Except.ok.inj h)).1.symm⟩

/-! ## The order of the tags -/

/-- The name of a tag is the part of its sort text before a comma or a space. -/
theorem scan_sortText (hrest : rest.head? = some comma ∨ rest.head? = some space) :
    ∀ {s : Bytes} {skip : Bool}, Closed (stopsKey false) skip s = true →
      (scan (stopsKey false) skip (scan (· == equal) skip (s ++ rest)).1).1 = (scan (· == equal) skip s).1
  | [], skip, h => by
    have hskip : skip = false := by simpa using h
    subst hskip
    rcases rest with _ | ⟨c, rest⟩
    · rfl
    · have hc : c = comma ∨ c = space := hrest.imp Option.some.inj Option.some.inj
      rcases hc with rfl | rfl <;> rfl
  | c :: s, skip, h => by
    rw [closed_cons, Bool.and_eq_true, Bool.not_eq_true'] at h
    have ih := scan_sortText hrest h.2
    rw [cons_append, scan, scan]
    split
    · rfl
    · dsimp only
      rw [scan, h.1, if_neg Bool.false_ne_true]
      dsimp only
      rw [ih]

def lineTags (line : Bytes) : List (Bytes × Bytes) :=
  (keyTags (lineKey line).1).zip (sortTexts (keyTags (lineKey line).1) (lineKey line).2)

/-- **The condition on a line**: its tags are in order, or a pair from both ends is not; and in this case no two
tags have the same name, and the names compare as the texts do that the tags are sorted by. -/
def KeyOrdered (line : Bytes) : Prop :=
  StrictTags (lineKey line).1 ∨ mirrorOrdered ((keyTags (lineKey line).1).map nameOf) = false ∧
      ((keyTags (lineKey line).1).map nameOf).Nodup ∧
      ∀ p ∈ lineTags line, ∀ q ∈ lineTags line, le p.2 q.2 = true → le (nameOf p.1) (nameOf q.1) = true

instance (line : Bytes) : Decidable (KeyOrdered line) := inferInstanceAs (Decidable (_ ∨ _))

theorem lineKey_eq (hmeas : IsSeg meas) (hsegs : ∀ s ∈ segs, IsSeg s)
    (h : skipWhitespace line = meas ++ (segsText segs ++ space :: tail)) :
    lineKey line = (meas ++ segsText segs, tail) := by
  have hclosed : Closed (· == space) false (meas ++ segsText segs) = true := by
    refine Closed.append ?_ (Closed.mono (fun c hc => by simp_all [stopsKey]) hmeas)
    clear h
    induction segs with
    | nil => rfl
    | cons s segs ih =>
      have hs : Closed (· == space) false s = true :=
        Closed.mono (fun c hc => by simp_all [stopsKey]) (hsegs s mem_cons_self)
      have htail := Closed.append (ih (forall_mem_cons.mp hsegs).2) hs
      exact htail
  have hscan : scanTo space ((meas ++ segsText segs) ++ space :: tail) = (meas ++ segsText segs, space :: tail) :=
    scan_append (fun c hc => by
      obtain rfl : space = c := by simpa using hc
      decide) hclosed
  unfold lineKey
  rw [h, ← append_assoc, hscan]
  rfl

/-- Names that are in strict order pass the comparisons from both ends. -/
theorem mirrorOrdered_of_strict {names : List Bytes}
    (h : names.Pairwise (fun a b => le a b = true ∧ a ≠ b)) : mirrorOrdered names = true := by
  rw [mirrorOrdered, all_eq_true]
  intro j hj
  have hj' := mem_range.mp hj
  have hi : j < names.length := by omega
  have hi' : names.length - j - 1 < names.length := by omega
  rw [getD_eq_getElem _ _ hi, getD_eq_getElem _ _ hi']
  exact (pairwise_iff_getElem.mp h j (names.length - j - 1) hi hi' (by omega)).1

theorem keyTags_text (hmeas : IsSeg meas) (hsegs : ∀ s ∈ segs, IsSeg s) :
    keyTags (meas ++ segsText segs) = segs := by
  rw [keyTags, splitKey_text hmeas hsegs, tail_cons]

theorem length_sortTexts (segs : List Bytes) (tail : Bytes) : (sortTexts segs tail).length = segs.length := by
  induction segs with
  | nil => rfl
  | cons s segs ih => rw [sortTexts, length_cons, length_cons, ih]

theorem perm_of_perm_zip (h : pairs.Perm (segs.zip (sortTexts segs tail))) :
    (pairs.map Prod.fst).Perm segs := by
  refine (h.map Prod.fst).trans ?_
  rw [map_fst_zip (length_sortTexts segs tail).ge]

/-- The name of a tag is determined by what the tag is sorted by. -/
theorem nameOf_of_mem_zip : ∀ {segs : List Bytes}, (∀ s ∈ segs, IsSeg s) →
    ∀ p ∈ segs.zip (sortTexts segs tail), nameOf p.1 = (scan (stopsKey false) false p.2).1
  | s :: segs, hsegs, p, hp => by
    rcases mem_cons.mp hp with rfl | hp
    · exact (scan_sortText (head_segsText segs tail) (hsegs s mem_cons_self)).symm
    · exact nameOf_of_mem_zip (forall_mem_cons.mp hsegs).2 p hp

theorem rel_or_rel_of_pairwise {α : Type} {R : α → α → Prop} {l : List α} (h : l.Pairwise R) {p q : α} (hp : p ∈ l)
    (hq : q ∈ l) : p = q ∨ R p q ∨ R q p := by
  have : Std.Symm (fun a b => R a b ∨ R b a) := ⟨fun _ _ => Or.symm⟩
  have hboth : l.Pairwise (fun a b => R a b ∨ R b a) := h.imp .inl
  exact or_iff_not_imp_left.mpr (hboth.forall hp hq)

/-- Sorted tags are in strict order, if the names are distinct and compare as the sort texts do. -/
theorem strict_pairs_iff (hpair : pairs.Pairwise (fun p q => le p.2 q.2 = true))
    (hname : ∀ p ∈ pairs, nameOf p.1 = (scan (stopsKey false) false p.2).1) :
    ((pairs.map Prod.fst).map nameOf).Pairwise (fun a b => le a b = true ∧ a ≠ b) ↔
      ((pairs.map Prod.fst).map nameOf).Nodup ∧
        ∀ p ∈ pairs, ∀ q ∈ pairs, le p.2 q.2 = true → le (nameOf p.1) (nameOf q.1) = true := by
  have hrefl : ∀ a : Bytes, le a a = true := fun a => (le_total a a).elim id id
  constructor
  · intro h
    refine ⟨h.imp (fun h => h.2), fun p hp q hq hle => ?_⟩
    rw [map_map, pairwise_map] at h
    rcases rel_or_rel_of_pairwise (h.and hpair) hp hq with rfl | h | h
    · exact hrefl _
    · exact h.1.1
    · -- the texts are equal, and so are the names
      rw [hname p hp, hname q hq, le_antisymm hle h.2]
      exact hrefl _
  · rintro ⟨hnodup, hle⟩
    have hmem := hpair.imp_of_mem (S := fun p q => le (nameOf p.1) (nameOf q.1) = true)
      (fun hp hq h => hle _ hp _ hq h)
    rw [map_map, pairwise_map]
    rw [map_map, List.Nodup, pairwise_map] at hnodup
    exact hmem.and hnodup

/-- **The tags of the key are in strict order if and only if** the condition on the line holds. -/
theorem strictTags_iff (h : scanKey line = .ok (key, before, rest)) :
    StrictTags key ↔ KeyOrdered line := by
  obtain ⟨meas, segs, tail, hmeas, hsegs, hline, hcases⟩ := scanKey_inv h
  have hkey := lineKey_eq hmeas hsegs hline
  have htags := keyTags_text hmeas hsegs
  unfold KeyOrdered lineTags
  rw [hkey]
  dsimp only
  rw [htags]
  rcases hcases with ⟨hmirror, rfl⟩ | ⟨hmirror, pairs, hperm, hpair, rfl⟩
  · rw [hmirror]
    simp only [Bool.true_eq_false, false_and, or_false]
  have hnot : ¬StrictTags (meas ++ segsText segs) := by
    intro hstrict
    unfold StrictTags at hstrict
    rw [htags] at hstrict
    rw [mirrorOrdered_of_strict hstrict] at hmirror
    exact Bool.noConfusion hmirror
  have hfst := perm_of_perm_zip hperm
  have hiff := strict_pairs_iff hpair (fun p hp => nameOf_of_mem_zip hsegs p (hperm.mem_iff.mp hp))
  have htags' := keyTags_text hmeas (fun s hs => hsegs s (hfst.mem_iff.mp hs))
  unfold StrictTags at hnot ⊢
  rw [htags', hiff, (hfst.map nameOf).nodup_iff, or_iff_right hnot, hmirror]
  simp only [hperm.mem_iff, true_and]

/-! ## One series, one key -/

/-- `HashID`: the FNV-1a hash of the key. -/
def Point.hashID (p : Point) : UInt64 :=
  p.key.foldl (fun h c => (h ^^^ c.toUInt64) * 1099511628211) 14695981039346656037

/-- The lines differ by a permutation of their tags. -/
def SameSeries (line line' : Bytes) : Prop :=
  (splitKey false (lineKey line).1).head? = (splitKey false (lineKey line').1).head? ∧
    (keyTags (lineKey line).1).Perm (keyTags (lineKey line').1)

instance (line line' : Bytes) : Decidable (SameSeries line line') := inferInstanceAs (Decidable (_ ∧ _))

/-- The key has the measurement and the tags of the line. -/
theorem exists_of_scanKey (h : scanKey line = .ok (key, before, rest)) :
    ∃ meas segs, IsSeg meas ∧ (∀ s ∈ segs, IsSeg s) ∧ key = meas ++ segsText segs ∧
      (splitKey false (lineKey line).1).head? = some meas ∧ (keyTags (lineKey line).1).Perm segs := by
  obtain ⟨meas, segs, tail, hmeas, hsegs, hline, hcases⟩ := scanKey_inv h
  rw [lineKey_eq hmeas hsegs hline, keyTags_text hmeas hsegs, splitKey_text hmeas hsegs]
  rcases hcases with ⟨-, rfl⟩ | ⟨-, pairs, hperm, -, rfl⟩
  · exact ⟨meas, segs, hmeas, hsegs, rfl, rfl, List.Perm.refl _⟩
  · have hfst := perm_of_perm_zip hperm
    exact ⟨meas, pairs.map Prod.fst, hmeas, fun s hs => hsegs s (hfst.mem_iff.mp hs), rfl, rfl, hfst.symm⟩

theorem key_eq_of_strict {line' key' before' rest' : Bytes}
    (h : scanKey line = .ok (key, before, rest)) (h' : scanKey line' = .ok (key', before', rest'))
    (hstrict : StrictTags key) (hstrict' : StrictTags key') (hsame : SameSeries line line') : key = key' := by
  obtain ⟨meas, segs, hmeas, hsegs, rfl, hhead, hperm⟩ := exists_of_scanKey h
  obtain ⟨meas', segs', hmeas', hsegs', rfl, hhead', hperm'⟩ := exists_of_scanKey h'
  unfold StrictTags at hstrict hstrict'
  rw [keyTags_text hmeas hsegs, pairwise_map] at hstrict
  rw [keyTags_text hmeas' hsegs', pairwise_map] at hstrict'
  have hmeas_eq : meas = meas' := Option.some.inj (hhead.symm.trans (hsame.1.trans hhead'))
  have hsegs_eq : segs = segs' := ((hperm.symm.trans hsame.2).trans hperm').eq_of_pairwise
      (fun _ _ _ _ hab hba => absurd (Bytes.le_antisymm hab.1 hba.1) hab.2) hstrict hstrict'
  rw [hmeas_eq, hsegs_eq]

/-- **Two accepted lines have keys with strictly ascending tags, and one key if they are of one series, if and
only if** the tags of both are in order or are found not to be. -/
theorem oneSeries_iff (parseFloat : Bytes → Option UInt64) (now : Int64) (line line' : Bytes) (pt pt' : Point)
    (h : parsePoint parseFloat now line = .ok pt) (h' : parsePoint parseFloat now line' = .ok pt') :
    (StrictTags pt.key ∧ StrictTags pt'.key ∧
      (SameSeries line line' → pt.key = pt'.key ∧ pt.hashID = pt'.hashID)) ↔
      KeyOrdered line ∧ KeyOrdered line' := by
  obtain ⟨before, rest, -, -, hkey, -⟩ := parsePoint_ok.mp h
  obtain ⟨before', rest', -, -, hkey', -⟩ := parsePoint_ok.mp h'
  rw [← strictTags_iff hkey, ← strictTags_iff hkey']
  constructor
  · exact fun ⟨hstrict, hstrict', _⟩ => ⟨hstrict, hstrict'⟩
  · rintro ⟨hstrict, hstrict'⟩
    refine ⟨hstrict, hstrict', fun hsame => ?_⟩
    have heq := key_eq_of_strict hkey hkey' hstrict hstrict' hsame
    exact ⟨heq, by rw [Point.hashID, heq]; rfl⟩

/-- `m,b=1,a=2 f=1` and `m,a=2,b=1 f=1`. -/
theorem oneSeries_two :
    SameSeries [109, 44, 98, 61, 49, 44, 97, 61, 50, 32, 102, 61, 49] [109, 44, 97, 61, 50, 44, 98, 61, 49, 32, 102, 61, 49] ∧
      (StrictTags [109, 44, 97, 61, 50, 44, 98, 61, 49] ∧ StrictTags [109, 44, 97, 61, 50, 44, 98, 61, 49] ∧
        (SameSeries [109, 44, 98, 61, 49, 44, 97, 61, 50, 32, 102, 61, 49]
            [109, 44, 97, 61, 50, 44, 98, 61, 49, 32, 102, 61, 49] →
          ([109, 44, 97, 61, 50, 44, 98, 61, 49] : Bytes) = [109, 44, 97, 61, 50, 44, 98, 61, 49] ∧
            (⟨[109, 44, 97, 61, 50, 44, 98, 61, 49], [102, 61, 49], 0⟩ : Point).hashID =
              (⟨[109, 44, 97, 61, 50, 44, 98, 61, 49], [102, 61, 49], 0⟩ : Point).hashID)) :=
  ⟨by decide, (oneSeries_iff (fun _ => none) 0 [109, 44, 98, 61, 49, 44, 97, 61, 50, 32, 102, 61, 49]
    [109, 44, 97, 61, 50, 44, 98, 61, 49, 32, 102, 61, 49] ⟨[109, 44, 97, 61, 50, 44, 98, 61, 49], [102, 61, 49], 0⟩
    ⟨[109, 44, 97, 61, 50, 44, 98, 61, 49], [102, 61, 49], 0⟩ (by decide +kernel) (by decide +kernel)).mpr
    ⟨by decide +kernel, by decide +kernel⟩⟩

/-- `m,b=1,a=2,c=3 f=1` keeps its tags as they are, and `m,a=2,b=1,c=3 f=1` is another key; in
`m,a=1,a=2,b=3 f=1` a tag is there twice. -/
theorem tags_not_sorted :
    SameSeries [109, 44, 98, 61, 49, 44, 97, 61, 50, 44, 99, 61, 51, 32, 102, 61, 49]
        [109, 44, 97, 61, 50, 44, 98, 61, 49, 44, 99, 61, 51, 32, 102, 61, 49] ∧
      parsePoint (fun _ => none) 0 [109, 44, 98, 61, 49, 44, 97, 61, 50, 44, 99, 61, 51, 32, 102, 61, 49] =
        .ok ⟨[109, 44, 98, 61, 49, 44, 97, 61, 50, 44, 99, 61, 51], [102, 61, 49], 0⟩ ∧
      parsePoint (fun _ => none) 0 [109, 44, 97, 61, 50, 44, 98, 61, 49, 44, 99, 61, 51, 32, 102, 61, 49] =
        .ok ⟨[109, 44, 97, 61, 50, 44, 98, 61, 49, 44, 99, 61, 51], [102, 61, 49], 0⟩ ∧
      ¬StrictTags [109, 44, 98, 61, 49, 44, 97, 61, 50, 44, 99, 61, 51] ∧
      parsePoint (fun _ => none) 0 [109, 44, 97, 61, 49, 44, 97, 61, 50, 44, 98, 61, 51, 32, 102, 61, 49] =
        .ok ⟨[109, 44, 97, 61, 49, 44, 97, 61, 50, 44, 98, 61, 51], [102, 61, 49], 0⟩ := by
  refine ⟨by decide +kernel, by decide +kernel, by decide +kernel, by decide +kernel, by decide +kernel⟩

end AndyEnv.Models
