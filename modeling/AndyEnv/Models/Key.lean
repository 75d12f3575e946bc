import AndyEnv.Models.Scan

/-!
# Keys as they should be written

A `Key` is a measurement and tags, each a name and a value, no two of the same
name. `scanKey` reads the text of such a key, and puts the tags in order; read
again, the key stays as it is.
-/

namespace AndyEnv.Models

open Escape Bytes
open List

def stopsKey (inTags : Bool) (c : UInt8) : Bool :=
  c == comma || c == space || (inTags && c == equal)

structure Tag : Type where
  name : Bytes
  value : Bytes
  name_ne : name ≠ []
  value_ne : value ≠ []
  name_closed : Closed (stopsKey true) false name = true
  value_closed : Closed (stopsKey true) false value = true
deriving DecidableEq

namespace Tag

def text (t : Tag) : Bytes := t.name ++ equal :: t.value

end Tag

def tagsText (tags : List Tag) : Bytes := tags.flatMap (fun t => comma :: t.text)

/-- A measurement and tags with distinct names. -/
structure Key : Type where
  measurement : Bytes
  closed : Closed (stopsKey false) false measurement = true
  tags : List Tag
  nodup : (tags.map Tag.name).Nodup

def Key.text (k : Key) : Bytes := k.measurement ++ tagsText k.tags

/-! ## The scan of the loop -/

variable {k : KeyScan} {rest s buf : Bytes}

theorem scanKeyLoop_closed : ∀ {s : Bytes} {skip : Bool} {before : Bytes},
    Closed (stopsKey (decide (k.commas > 0))) skip s = true →
      scanKeyLoop k skip before (s ++ rest) = scanKeyLoop k false (s.reverse ++ before) rest
  | [], skip, before, h => by
    have hskip : skip = false := by simpa using h
    rw [hskip]
    rfl
  | c :: s, skip, before, h => by
    rw [closed_cons, Bool.and_eq_true, Bool.not_eq_true'] at h
    have ih := fun skip' => @scanKeyLoop_closed s skip' (c :: before)
    rw [cons_append, reverse_cons, append_assoc, singleton_append, scanKeyLoop]
    cases skip with
    | true => rw [if_pos rfl, ih false (by simpa using h.2)]
    | false =>
      rw [if_neg (by decide)]
      by_cases hc : c = backslash
      · have hne : ¬ (c = equal ∧ k.commas > 0) := fun he => absurd (hc.symm.trans he.1) (by decide)
        rw [if_neg hne, if_pos hc, ih true (by simpa [hc] using h.2)]
      have hstop : stopsKey (decide (k.commas > 0)) c = false := by simpa [hc] using h.1
      simp only [stopsKey, Bool.or_eq_false_iff, Bool.and_eq_false_iff, beq_eq_false_iff_ne,
        decide_eq_false_iff_not] at hstop
      rw [if_neg (fun he => hstop.2.elim (fun h0 => h0 he.2) (fun h0 => h0 he.1)), if_neg hc,
        if_neg hstop.1.1, if_neg hstop.1.2,
        ih false (by simpa [beq_eq_false_iff_ne.mpr hc] using h.2)]

/-- A separator at the end of a closed text is escaped. -/
theorem missesName_of_closed {inTags : Bool} : ∀ {s : Bytes} {skip : Bool} {before : Bytes},
    Closed (stopsKey inTags) skip s = true → s ≠ [] →
      (skip = true → before.head? = some backslash) → missesName (s.reverse ++ before) = false
  | [c], skip, before, h, _, hskip => by
    rw [closed_cons, Bool.and_eq_true, Bool.not_eq_true', closed_nil] at h
    cases skip with
    | true => simp [missesName, hskip rfl]
    | false =>
      have hc : c ≠ backslash := by simpa using h.2
      have hstop : stopsKey inTags c = false := by simpa [hc] using h.1
      simp only [stopsKey, Bool.or_eq_false_iff, beq_eq_false_iff_ne] at hstop
      simp [missesName, hstop.1.1, hstop.1.2]
  | c :: d :: s, skip, before, h, _, _ => by
    rw [closed_cons, Bool.and_eq_true] at h
    rw [reverse_cons, append_assoc, singleton_append]
    refine missesName_of_closed h.2 (cons_ne_nil _ _) (fun hskip => ?_)
    rw [Bool.and_eq_true, beq_iff_eq] at hskip
    rw [hskip.2]
    rfl

theorem head_of_closed {inTags : Bool} (h : Closed (stopsKey inTags) false s = true)
    (hne : s ≠ []) (rest : Bytes) : (s ++ rest).head? ≠ some space ∧ (s ++ rest).head? ≠ some comma := by
  obtain ⟨c, s, rfl⟩ := exists_cons_of_ne_nil hne
  rw [cons_append, List.head?_cons]
  by_cases hc : c = backslash
  · rw [hc]
    decide
  · have hstop := Closed.head h hc
    simp only [stopsKey, Bool.or_eq_false_iff, beq_eq_false_iff_ne] at hstop
    exact ⟨fun he => hstop.1.2 (Option.some.inj he), fun he => hstop.1.1 (Option.some.inj he)⟩

theorem scanKeyLoop_tag (t : Tag) (hk : k.equals = k.commas) (before rest : Bytes) :
    scanKeyLoop k false before (comma :: t.text ++ rest) =
      scanKeyLoop ⟨k.commas + 1, k.equals + 1, k.indices ++ [before.length + 1]⟩ false
        ((comma :: t.text).reverse ++ before) rest := by
  have hname := head_of_closed t.name_closed t.name_ne (equal :: (t.value ++ rest))
  have hvalue := head_of_closed t.value_closed t.value_ne rest
  have hmisses := @missesName_of_closed true t.name false (comma :: before) t.name_closed t.name_ne
    nofun
  have hlength : ¬ (t.name.reverse ++ comma :: before).length < 2 := by
    have := length_pos_iff.mpr t.name_ne
    simp
    omega
  have hcomma : ¬ (comma = equal ∧ k.commas > 0) := fun h => absurd h.1 (by decide)
  rw [Tag.text, cons_append, append_assoc, cons_append, scanKeyLoop,
    if_neg (by decide), if_neg hcomma, if_neg (by decide), if_pos rfl, if_neg (by omega),
    if_neg hname.1, scanKeyLoop_closed (by simpa using t.name_closed)]
  rw [scanKeyLoop, if_neg (by decide), if_pos ⟨rfl, by simp⟩,
    if_neg (by rw [hmisses]; simpa using hlength), if_neg (by simpa using hvalue),
    scanKeyLoop_closed (by simpa using t.value_closed)]
  simp

/-- Where the tags start, if the first comma is at `pos`, and at last where the
fields do. -/
def starts (pos : ℕ) : List Tag → List ℕ
  | [] => [pos + 1]
  | t :: tags => (pos + 1) :: starts (pos + 1 + t.text.length) tags

theorem head_starts (pos : ℕ) (tags : List Tag) : (starts pos tags).getD 0 0 = pos + 1 := by
  cases tags <;> rfl

theorem scanKeyLoop_tags : ∀ (tags : List Tag) {k : KeyScan}, k.equals = k.commas →
    ∀ before rest : Bytes, scanKeyLoop k false before (tagsText tags ++ space :: rest) =
      .ok (⟨k.commas + tags.length, k.equals + tags.length,
        k.indices ++ starts before.length tags⟩, (tagsText tags).reverse ++ before, space :: rest)
  | [], k, hk, before, rest => by
    have hspace : ¬ (space = equal ∧ k.commas > 0) := fun h => absurd h.1 (by decide)
    change scanKeyLoop k false before (space :: rest) = _
    rw [scanKeyLoop, if_neg (by decide), if_neg hspace, if_neg (by decide), if_neg (by decide),
      if_pos rfl, if_neg (by omega), if_neg (by omega)]
    rfl
  | t :: tags, k, hk, before, rest => by
    have htext : tagsText (t :: tags) ++ space :: rest =
        comma :: t.text ++ (tagsText tags ++ space :: rest) := by
      simp [tagsText]
    have hlength : ((comma :: t.text).reverse ++ before).length = before.length + 1 + t.text.length := by
      simp
      omega
    rw [htext, scanKeyLoop_tag t hk, scanKeyLoop_tags tags (by simpa using hk), hlength]
    simp only [length_cons, starts, append_assoc, singleton_append, tagsText,
      flatMap_cons, reverse_append]
    congr 3
    · omega
    · omega

theorem scanKeyLoop_key (k : Key) (rest : Bytes) :
    scanKeyLoop ⟨0, 0, []⟩ false [] (k.text ++ space :: rest) =
      .ok (⟨k.tags.length, k.tags.length, starts k.measurement.length k.tags⟩, k.text.reverse,
        space :: rest) := by
  have hclosed : Closed (stopsKey (decide ((⟨0, 0, []⟩ : KeyScan).commas > 0))) false
      k.measurement = true := k.closed
  rw [Key.text, append_assoc, scanKeyLoop_closed hclosed, scanKeyLoop_tags _ rfl]
  simp

/-! ## Names -/

theorem scanTo_text (t : Tag) (rest : Bytes) : (scanTo equal (t.text ++ rest)).1 = t.name := by
  have hclosed : Closed (· == equal) false t.name = true :=
    Closed.mono (fun c hc => by simp [stopsKey, beq_iff_eq.mp hc]) t.name_closed
  rw [Tag.text, append_assoc, scanTo, scan_append _ hclosed]
  rintro c hc
  obtain rfl : equal = c := by simpa using hc
  decide

theorem closed_text (t : Tag) : Closed (fun c => c == comma || c == space) false t.text = true := by
  have hstop : ∀ c, (c == comma || c == space) = true → stopsKey true c = true := by
    intro c hc
    rw [stopsKey, hc, Bool.true_or]
  refine Closed.append ?_ (Closed.mono hstop t.name_closed)
  rw [closed_cons, Bool.and_eq_true]
  exact ⟨by decide, Closed.mono hstop t.value_closed⟩

theorem scanToSpaceOr_append (hs : Closed (fun c => c == comma || c == space) false s = true)
    (hrest : rest.head? = some comma ∨ rest.head? = some space) :
    scanToSpaceOr comma (s ++ rest) = (s, rest) := by
  refine scan_append ?_ hs
  rintro c hc
  rcases hrest with h | h
  · obtain rfl : comma = c := by simpa [h] using hc
    decide
  · obtain rfl : space = c := by simpa [h] using hc
    decide

def TagAt (buf : Bytes) (i : ℕ) (t : Tag) : Prop :=
  ∃ rest, buf.drop i = t.text ++ rest ∧ (rest.head? = some comma ∨ rest.head? = some space)

theorem drop_after_comma {pos : ℕ} (h : buf.drop pos = comma :: (s ++ rest)) :
    buf.drop (pos + 1) = s ++ rest ∧ buf.drop (pos + 1 + s.length) = rest := by
  have hdrop : buf.drop (pos + 1) = s ++ rest := by
    rw [← drop_drop, h, drop_one, tail_cons]
  refine ⟨hdrop, ?_⟩
  rw [← drop_drop, hdrop, drop_left]

theorem tagAt_starts : ∀ {tags : List Tag} {pos : ℕ},
    buf.drop pos = tagsText tags ++ space :: rest →
      List.Forall₂ (TagAt buf) ((starts pos tags).take tags.length) tags
  | [], _, _ => List.Forall₂.nil
  | t :: tags, pos, h => by
    obtain ⟨hdrop, hnext⟩ := drop_after_comma (by simpa [tagsText] using h)
    refine List.Forall₂.cons ⟨_, hdrop, ?_⟩ (tagAt_starts hnext)
    cases tags with
    | nil => exact .inr rfl
    | cons t' tags => exact .inl rfl

theorem tagName_starts : ∀ {tags : List Tag} {pos : ℕ},
    buf.drop pos = tagsText tags ++ space :: rest → ∀ {j : ℕ} (hj : j < tags.length),
      tagName buf (starts pos tags) j = (tags.get ⟨j, hj⟩).name
  | t :: tags, pos, h, 0, _ => by
    obtain ⟨hdrop, -⟩ := drop_after_comma (by simpa [tagsText] using h)
    have hend : (starts pos (t :: tags)).getD (0 + 1) 0 - 1 = pos + 1 + t.text.length := by
      change (starts _ tags).getD 0 0 - 1 = _
      rw [head_starts]
      rfl
    rw [tagName, slice, hend, head_starts, drop_take, hdrop, Nat.add_sub_cancel_left, take_left]
    have := scanTo_text t []
    rwa [append_nil] at this
  | t :: tags, pos, h, j + 1, hj => by
    obtain ⟨-, hnext⟩ := drop_after_comma (by simpa [tagsText] using h)
    exact tagName_starts hnext (Nat.lt_of_succ_lt_succ hj)

/-! ## The order of the tags -/

theorem foldlM_comparePair : ∀ {js : List ℕ} {sorted : Bool},
    (∀ j ∈ js, tagName buf k.indices j ≠ tagName buf k.indices (k.commas - j - 1)) →
      js.foldlM (comparePair buf k) sorted = .ok (sorted && js.all (fun j =>
        le (tagName buf k.indices j) (tagName buf k.indices (k.commas - j - 1))))
  | [], sorted, _ => by simp [pure, Except.pure]
  | j :: js, sorted, h => by
    have hpair : comparePair buf k sorted j = .ok (sorted &&
        le (tagName buf k.indices j) (tagName buf k.indices (k.commas - j - 1))) := by
      rw [comparePair, if_neg (h j mem_cons_self)]
    rw [foldlM_cons, hpair, all_cons, ← Bool.and_assoc]
    exact foldlM_comparePair (forall_mem_cons.mp h).2

theorem insertionSort_perm (buf : Bytes) (indices : List ℕ) :
    (insertionSort buf indices).Perm indices := by
  rw [insertionSort, foldl_eq_foldr_reverse]
  exact (reverse_perm _).trans
    ((perm_insertionSort (fun x y => !less buf x y) indices.reverse).trans
      (reverse_perm _))

/-- **The sort puts the names in order.** -/
theorem insertionSort_pairwise (buf : Bytes) (indices : List ℕ) :
    (insertionSort buf indices).Pairwise (fun i j =>
      le (scanTo equal (buf.drop i)).1 (scanTo equal (buf.drop j)).1 = true) := by
  have htotal : Std.Total (fun x y : ℕ => (!less buf x y) = true) :=
    ⟨fun x y => by simpa [less] using le_total _ _⟩
  have htrans : IsTrans ℕ (fun x y : ℕ => (!less buf x y) = true) := ⟨fun x y z hxy hyz => by
      simp only [less, Bool.not_not] at hxy hyz ⊢
      exact le_trans hyz hxy⟩
  have hsorted := pairwise_insertionSort (fun x y => (!less buf x y) = true) indices.reverse
  rw [insertionSort, foldl_eq_foldr_reverse, List.pairwise_reverse]
  refine List.Pairwise.imp ?_ hsorted
  intro i j h
  simpa [less] using h

/-- The comparisons from both ends find the tags in order. -/
def Key.InOrder (k : Key) : Prop :=
  ∀ (i j : ℕ) (hi : i < k.tags.length) (hj : j < k.tags.length), i < j → i + j + 1 = k.tags.length →
    le (k.tags.get ⟨i, hi⟩).name (k.tags.get ⟨j, hj⟩).name = true

/-- The text of a key starts with no whitespace, and is not empty. -/
def Key.Starts (k : Key) : Prop := ∃ c rest, k.text = c :: rest ∧ isWhitespace c = false

theorem drop_measurement (k : Key) (rest : Bytes) :
    (k.text ++ space :: rest).drop k.measurement.length = tagsText k.tags ++ space :: rest := by
  rw [Key.text, append_assoc, drop_left]

theorem name_ne (k : Key) {i j : ℕ} (hi : i < k.tags.length) (hj : j < k.tags.length) (h : i ≠ j) :
    (k.tags.get ⟨i, hi⟩).name ≠ (k.tags.get ⟨j, hj⟩).name := by
  intro he
  have hnodup := nodup_iff_injective_get.mp k.nodup
  have := @hnodup ⟨i, by simpa using hi⟩ ⟨j, by simpa using hj⟩ (by simpa using he)
  exact h (by simpa using this)

theorem comparePairs_key (k : Key) (rest : Bytes) : ∃ sorted : Bool,
    (List.range (k.tags.length / 2)).foldlM (comparePair (k.text ++ space :: rest)
      ⟨k.tags.length, k.tags.length, starts k.measurement.length k.tags⟩) true = .ok sorted ∧
      (sorted = true ↔ k.InOrder) := by
  have hname : ∀ {j : ℕ} (hj : j < k.tags.length), tagName (k.text ++ space :: rest)
      (starts k.measurement.length k.tags) j = (k.tags.get ⟨j, hj⟩).name :=
    tagName_starts (drop_measurement k rest)
  refine ⟨_, foldlM_comparePair (fun j hj => ?_), ?_⟩
  · have hj' := mem_range.mp hj
    rw [hname (show j < k.tags.length by omega), hname (show k.tags.length - j - 1 < _ by omega)]
    exact name_ne k _ _ (by omega)
  · rw [Bool.true_and, all_eq_true]
    constructor
    · intro h i j hi hj hlt hsum
      have hpair := h i (mem_range.mpr (by omega))
      have hright : k.tags.length - i - 1 = j := by omega
      rwa [hright, hname hi, hname hj] at hpair
    · intro h j hj
      have hj' := mem_range.mp hj
      rw [hname (show j < k.tags.length by omega), hname (show k.tags.length - j - 1 < _ by omega)]
      exact h _ _ _ _ (by omega) (by omega)

theorem takeWhile_key {k : Key} (h : k.Starts) (rest : Bytes) :
    (k.text ++ rest).takeWhile isWhitespace = [] ∧
      skipWhitespace (k.text ++ rest) = k.text ++ rest := by
  obtain ⟨c, text, htext, hc⟩ := h
  simp [skipWhitespace, htext, hc]

/-- **A key in order is read as it is.** -/
theorem scanKey_inOrder {k : Key} (hstart : k.Starts) (h : k.InOrder) (rest : Bytes) :
    scanKey (k.text ++ space :: rest) = .ok (k.text, k.text.reverse, space :: rest) := by
  obtain ⟨sorted, hfold, hsorted⟩ := comparePairs_key k rest
  rw [hsorted.mpr h] at hfold
  have hslice : slice (k.text ++ space :: rest) 0 k.text.length = k.text := by
    rw [slice, take_left, drop_zero]
  simp [scanKey, takeWhile_key hstart, scanKeyLoop_key, hfold, hslice, bind, Except.bind, pure,
    Except.pure]

theorem flatMap_scanToSpaceOr {indices : List ℕ} {tags : List Tag}
    (h : List.Forall₂ (TagAt buf) indices tags) :
    indices.flatMap (fun i => comma :: (scanToSpaceOr comma (buf.drop i)).1) = tagsText tags := by
  induction h with
  | nil => rfl
  | cons hat _ ih =>
    obtain ⟨rest, hdrop, hhead⟩ := hat
    rw [flatMap_cons, ih, hdrop, scanToSpaceOr_append (closed_text _) hhead]
    rfl

theorem pairwise_of_forall₂ {β : Type} {R : ℕ → β → Prop} {g : β → Bytes} {indices : List ℕ}
    {bs : List β} (h : List.Forall₂ R indices bs) (hR : ∀ i b, R i b → g b = (scanTo equal (buf.drop i)).1)
    (hpair : indices.Pairwise (fun i j =>
      le (scanTo equal (buf.drop i)).1 (scanTo equal (buf.drop j)).1 = true)) :
    bs.Pairwise (fun b c => le (g b) (g c) = true) := by
  have hmap : bs.map g = indices.map (fun i => (scanTo equal (buf.drop i)).1) := by
    clear hpair
    induction h with
    | nil => rfl
    | cons hat _ ih => rw [map_cons, map_cons, ih, hR _ _ hat]
  have hpair' : (bs.map g).Pairwise (fun a b => le a b = true) := by
    rw [hmap]
    exact pairwise_map.mpr hpair
  exact pairwise_map.mp hpair'

/-- **A key comes out of the scan in order**, with the same tags. -/
theorem scanKey_key {k : Key} (hstart : k.Starts) (rest : Bytes) :
    ∃ k' : Key, k'.measurement = k.measurement ∧ k'.tags.Perm k.tags ∧ k'.InOrder ∧
      scanKey (k.text ++ space :: rest) = .ok (k'.text, k.text.reverse, space :: rest) := by
  by_cases horder : k.InOrder
  · exact ⟨k, rfl, List.Perm.refl _, horder, scanKey_inOrder hstart horder rest⟩
  obtain ⟨sorted, hfold, hsorted⟩ := comparePairs_key k rest
  rw [Bool.eq_false_iff.mpr (fun h => horder (hsorted.mp h))] at hfold
  have hat := tagAt_starts (drop_measurement k rest)
  obtain ⟨tags, htags, hperm⟩ := perm_comp_forall₂
    (insertionSort_perm (k.text ++ space :: rest) _) hat
  have hnodup : (tags.map Tag.name).Nodup := (hperm.map _).nodup_iff.mpr k.nodup
  have hpair := pairwise_of_forall₂ (g := Tag.name) htags (fun i t hat => by
    obtain ⟨rest, hdrop, -⟩ := hat
    rw [hdrop, scanTo_text]) (insertionSort_pairwise _ _)
  have hpos : k.tags.length > 0 := by
    by_contra hzero
    exact horder (fun i j hi => absurd hi (by omega))
  have hslice : slice (k.text ++ space :: rest) 0 k.measurement.length = k.measurement := by
    rw [slice, Key.text, append_assoc, take_left, drop_zero]
  refine ⟨⟨k.measurement, k.closed, tags, hnodup⟩, rfl, hperm, ?_, ?_⟩
  · intro i j hi hj hlt _
    exact pairwise_iff_get.mp hpair ⟨i, hi⟩ ⟨j, hj⟩ hlt
  · have hkey : rebuildKey (k.text ++ space :: rest) 0 (starts k.measurement.length k.tags)
        (insertionSort (k.text ++ space :: rest)
          ((starts k.measurement.length k.tags).take k.tags.length)) =
        k.measurement ++ tagsText tags := by
      rw [rebuildKey, head_starts, Nat.add_sub_cancel, hslice, flatMap_scanToSpaceOr htags]
    change _ = Except.ok (k.measurement ++ tagsText tags, _, _)
    simp [scanKey, takeWhile_key hstart, scanKeyLoop_key, hfold, hkey, hpos, bind, Except.bind,
      pure, Except.pure]

end AndyEnv.Models
