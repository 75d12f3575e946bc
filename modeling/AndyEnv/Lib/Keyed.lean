import Mathlib.Data.List.Sort
import Mathlib.Tactic

/-!
# Lists in strictly ascending key order

A finite map whose entries are read back in key order is the list of its
entries, strictly ascending by key. `upsert` is the map's assignment,
`ofList` the map built by assigning a list from left to right (so the last
value of a key wins), `overlay` the map after a second batch of assignments.

Two strictly ascending lists with the same members are equal
(`ascending_ext`), so each result about these operations reduces to who is a
member of what.
-/

namespace AndyEnv.Keyed

open List

variable {α κ : Type*} [LinearOrder κ] (key : α → κ)

/-- Strictly ascending by key: the canonical form of a map's entries. -/
def Ascending (l : List α) : Prop := l.Pairwise (fun a b => key a < key b)

/-- The assignment `m[key v] = v`. -/
def upsert (v : α) : List α → List α
  | [] => [v]
  | x :: xs =>
    if key v < key x then v :: x :: xs
    else if key x < key v then x :: upsert v xs
    else v :: xs

/-- Assign every value of `new`, in order, over the entries `old`. -/
def overlay (old new : List α) : List α := new.foldl (fun m v => upsert key v m) old

/-- The map built from scratch by assigning the values of a list in order. -/
def ofList (l : List α) : List α := overlay key [] l

variable {key}
variable {x : α} {l l' : List α} {v : α}

/-! ## Ascending lists -/

instance (l : List α) : Decidable (Ascending key l) :=
  inferInstanceAs (Decidable (l.Pairwise _))

theorem ascending_nil : Ascending key ([] : List α) := List.Pairwise.nil

theorem ascending_cons {xs : List α} :
    Ascending key (x :: xs) ↔ (∀ y ∈ xs, key x < key y) ∧ Ascending key xs :=
  pairwise_cons

variable {xs ys old new : List α}

theorem ascending_append : Ascending key (xs ++ ys) ↔ Ascending key xs ∧ Ascending key ys ∧
      ∀ x ∈ xs, ∀ y ∈ ys, key x < key y :=
  pairwise_append

theorem Ascending.sublist (h : Ascending key ys) (hs : xs.Sublist ys) : Ascending key xs :=
  List.Pairwise.sublist hs h

theorem Ascending.eq_of_key_eq (h : Ascending key l) {a b : α} (ha : a ∈ l) (hb : b ∈ l)
    (hk : key a = key b) : a = b := by
  induction l with
  | nil => exact absurd ha not_mem_nil
  | cons x xs ih =>
    obtain ⟨hx, hxs⟩ := ascending_cons.mp h
    rcases mem_cons.mp ha with rfl | ha'
    · rcases mem_cons.mp hb with rfl | hb'
      · rfl
      · exact absurd hk (hx b hb').ne
    · rcases mem_cons.mp hb with rfl | hb'
      · exact absurd hk (hx a ha').ne'
      · exact ih hxs ha' hb'

theorem Ascending.nodup (h : Ascending key l) : l.Nodup :=
  List.Pairwise.imp (fun hlt heq => hlt.ne (congrArg key heq)) h

/-- **Extensionality.** Strictly ascending lists with the same members are
the same list. -/
theorem ascending_ext (h : Ascending key l) (h' : Ascending key l')
    (hmem : ∀ x, x ∈ l ↔ x ∈ l') : l = l' := by
  have hperm : l.Perm l' := (perm_ext_iff_of_nodup h.nodup h'.nodup).mpr hmem
  exact hperm.eq_of_pairwise (fun _ _ _ _ hlt hgt => absurd hlt hgt.asymm) h h'

/-! ## Assignment -/

theorem mem_upsert : ∀ {l : List α}, Ascending key l →
    (x ∈ upsert key v l ↔ x = v ∨ (x ∈ l ∧ key x ≠ key v))
  | [], _ => by simp [upsert]
  | y :: ys, h => by
    obtain ⟨hy, hys⟩ := ascending_cons.mp h
    rcases lt_trichotomy (key v) (key y) with hlt | heq | hgt
    · simp only [upsert, if_pos hlt, mem_cons]
      constructor
      · rintro (rfl | rfl | hx)
        · exact .inl rfl
        · exact .inr ⟨.inl rfl, hlt.ne'⟩
        · exact .inr ⟨.inr hx, (hlt.trans (hy x hx)).ne'⟩
      · tauto
    · have h1 : ¬ key v < key y := heq.not_lt
      have h2 : ¬ key y < key v := heq.not_gt
      simp only [upsert, if_neg h1, if_neg h2, mem_cons]
      constructor
      · rintro (rfl | hx)
        · exact .inl rfl
        · exact .inr ⟨.inr hx, by rw [heq]; exact (hy x hx).ne'⟩
      · rintro (rfl | ⟨rfl | hx, hne⟩)
        · exact .inl rfl
        · exact absurd heq.symm hne
        · exact .inr hx
    · simp only [upsert, if_neg hgt.asymm, if_pos hgt, mem_cons, mem_upsert hys]
      constructor
      · rintro (rfl | rfl | ⟨hx, hne⟩)
        · exact .inr ⟨.inl rfl, hgt.ne⟩
        · exact .inl rfl
        · exact .inr ⟨.inr hx, hne⟩
      · tauto

theorem ascending_upsert : ∀ {l : List α}, Ascending key l → Ascending key (upsert key v l)
  | [], _ => pairwise_singleton _ _
  | y :: ys, h => by
    obtain ⟨hy, hys⟩ := ascending_cons.mp h
    rcases lt_trichotomy (key v) (key y) with hlt | heq | hgt
    · rw [upsert, if_pos hlt]
      exact ascending_cons.mpr ⟨forall_mem_cons.mpr ⟨hlt, fun z hz => hlt.trans (hy z hz)⟩, h⟩
    · rw [upsert, if_neg heq.not_lt, if_neg heq.not_gt]
      refine ascending_cons.mpr ⟨fun z hz => ?_, hys⟩
      rw [heq]
      exact hy z hz
    · rw [upsert, if_neg hgt.asymm, if_pos hgt]
      refine ascending_cons.mpr ⟨?_, ascending_upsert hys⟩
      intro z hz
      rcases (mem_upsert hys).mp hz with rfl | ⟨hz', -⟩
      · exact hgt
      · exact hy z hz'

/-- An assignment takes the entry of its key out and adds the new one. -/
theorem upsert_perm (h : Ascending key l) :
    (upsert key v l).Perm (l.filter (fun x => key x ≠ key v) ++ [v]) := by
  have hnodup : (l.filter (fun x => key x ≠ key v) ++ [v]).Nodup := by
    refine nodup_append.mpr ⟨h.nodup.filter _, nodup_singleton v, ?_⟩
    rintro x hx y hy rfl
    rw [mem_singleton.mp hy] at hx
    exact of_decide_eq_true (mem_filter.mp hx).2 rfl
  refine (perm_ext_iff_of_nodup (ascending_upsert h).nodup hnodup).mpr (fun x => ?_)
  rw [mem_upsert h, mem_append, mem_filter, mem_singleton, decide_eq_true_iff]
  tauto

theorem upsert_append {a b : List α} (ha : ∀ x ∈ a, key x < key v) (hb : ∀ x ∈ b, key v < key x) :
    upsert key v (a ++ b) = a ++ v :: b := by
  induction a with
  | nil =>
    cases b with
    | nil => rfl
    | cons y ys => rw [nil_append, upsert, if_pos (hb y mem_cons_self), nil_append]
  | cons x xs ih =>
    have hx := ha x mem_cons_self
    rw [cons_append, upsert, if_neg hx.asymm, if_pos hx, ih (forall_mem_cons.mp ha).2,
      cons_append]

/-! ## A batch of assignments -/

@[simp] theorem overlay_nil (old : List α) : overlay key old [] = old := rfl

theorem overlay_cons (old : List α) (v : α) (vs : List α) :
    overlay key old (v :: vs) = overlay key (upsert key v old) vs := rfl

theorem overlay_append (old new new' : List α) :
    overlay key old (new ++ new') = overlay key (overlay key old new) new' :=
  foldl_append

/-- An entry before all that are assigned stays in front. -/
theorem overlay_cons_left {e : α} (h : ∀ v ∈ new, key e < key v) (old : List α) :
    overlay key (e :: old) new = e :: overlay key old new := by
  induction new generalizing old with
  | nil => rfl
  | cons v vs ih =>
    have hlt := h v mem_cons_self
    rw [overlay_cons, upsert, if_neg hlt.asymm, if_pos hlt, ih (forall_mem_cons.mp h).2,
      overlay_cons]

theorem overlay_cons_right {vs : List α} (hvs : ∀ w ∈ vs, key v < key w)
    (hold : ∀ e ∈ old, key v < key e) : overlay key old (v :: vs) = v :: overlay key old vs := by
  have hupsert : upsert key v old = v :: old := by
    cases old with
    | nil => rfl
    | cons e old => rw [upsert, if_pos (hold e mem_cons_self)]
  rw [overlay_cons, hupsert, overlay_cons_left hvs]

theorem overlay_cons_both {e : α} {vs : List α} (hvs : ∀ w ∈ vs, key v < key w)
    (heq : key v = key e) : overlay key (e :: old) (v :: vs) = v :: overlay key old vs := by
  rw [overlay_cons, upsert, if_neg heq.not_lt, if_neg heq.not_gt, overlay_cons_left hvs]

theorem ascending_overlay (new : List α) (h : Ascending key old) :
    Ascending key (overlay key old new) := by
  induction new generalizing old with
  | nil => exact h
  | cons v vs ih => exact ih (ascending_upsert h)

/-- **Last one wins**: for each key the last value assigned to it, or else the old entry. -/
theorem mem_overlay_iff (hold : Ascending key old) :
    x ∈ overlay key old new ↔ (new.filter (fun y => key y = key x)).getLast? = some x ∨
      (x ∈ old ∧ ∀ y ∈ new, key y ≠ key x) := by
  induction new using List.reverseRecOn with
  | nil => simp
  | append_singleton new a ih =>
    have hlast : overlay key old (new ++ [a]) = upsert key a (overlay key old new) := overlay_append old new [a]
    rw [hlast, mem_upsert (ascending_overlay new hold), ih, filter_append, forall_mem_append, forall_mem_singleton]
    by_cases hk : key a = key x
    · simp [hk, eq_comm]
    · have hne : x ≠ a := fun h => hk (congrArg key h.symm)
      simp [hk, hne, Ne.symm hk]

/-- Whatever the batch, its result holds old and assigned values only. -/
theorem mem_of_mem_overlay (hold : Ascending key old) (h : x ∈ overlay key old new) : x ∈ old ∨ x ∈ new := by
  rcases (mem_overlay_iff hold).mp h with h | h
  · exact .inr (mem_of_mem_filter (mem_of_getLast? h))
  · exact .inl h.1

variable (key) in
theorem exists_last (hx : x ∈ l) :
    ∃ y ∈ l, key y = key x ∧ (l.filter (fun v => key v = key y)).getLast? = some y := by
  have hne : l.filter (fun v => key v = key x) ≠ [] := ne_nil_of_mem (mem_filter.mpr ⟨hx, decide_eq_true rfl⟩)
  have hlast := List.getLast?_eq_some_getLast hne
  obtain ⟨hy, hk⟩ := mem_filter.mp (mem_of_getLast? hlast)
  have hk := of_decide_eq_true hk
  exact ⟨_, hy, hk, hk.symm ▸ hlast⟩

theorem exists_mem_overlay_key (hold : Ascending key old)
    (h : x ∈ old ∨ x ∈ new) : ∃ y ∈ overlay key old new, key y = key x := by
  by_cases hnew : ∀ y ∈ new, key y ≠ key x
  · have hx : x ∈ old := h.resolve_right (fun hx => hnew x hx rfl)
    exact ⟨x, (mem_overlay_iff hold).mpr (.inr ⟨hx, hnew⟩), rfl⟩
  · push Not at hnew
    obtain ⟨z, hz, hk⟩ := hnew
    obtain ⟨y, -, hy, hlast⟩ := exists_last key hz
    exact ⟨y, (mem_overlay_iff hold).mpr (.inl hlast), hy.trans hk⟩

theorem ascending_ofList (l : List α) : Ascending key (ofList key l) :=
  ascending_overlay l ascending_nil

theorem ofList_concat (l : List α) (a : α) :
    ofList key (l ++ [a]) = upsert key a (ofList key l) := by
  rw [ofList, overlay_append]
  rfl

theorem mem_ofList_iff :
    x ∈ ofList key l ↔ (l.filter (fun y => key y = key x)).getLast? = some x := by
  rw [ofList, mem_overlay_iff ascending_nil]
  simp

theorem mem_of_mem_ofList (h : x ∈ ofList key l) : x ∈ l :=
  mem_of_mem_filter (mem_of_getLast? (mem_ofList_iff.mp h))

theorem ofList_of_ascending (h : Ascending key l) : ofList key l = l := by
  induction l using List.reverseRecOn with
  | nil => rfl
  | append_singleton l a ih =>
    obtain ⟨hl, -, hlt⟩ := ascending_append.mp h
    have happend := upsert_append (fun x hx => hlt x hx a mem_cons_self) (forall_mem_nil _)
    rw [append_nil] at happend
    rw [ofList_concat, ih hl, happend]

/-- What a batch leaves behind, when it assigns each key at most once. -/
theorem mem_overlay (hold : Ascending key old) (hnew : Ascending key new) :
    x ∈ overlay key old new ↔ x ∈ new ∨ (x ∈ old ∧ ∀ y ∈ new, key y ≠ key x) := by
  rw [mem_overlay_iff hold, ← mem_ofList_iff, ofList_of_ascending hnew]

/-- The map depends only on the order among entries of the same key. -/
theorem ofList_congr
    (h : ∀ k, l.filter (fun y => key y = k) = l'.filter (fun y => key y = k)) :
    ofList key l = ofList key l' := by
  refine ascending_ext (ascending_ofList l) (ascending_ofList l') (fun x => ?_)
  rw [mem_ofList_iff, mem_ofList_iff, h (key x)]

/-- An entry of the list is in the map, or a later one of its key is. -/
theorem exists_mem_ofList_of_split {pre post : List α} {a : α} :
    ∃ x ∈ a :: post, key x = key a ∧ x ∈ ofList key (pre ++ a :: post) := by
  obtain ⟨y, hy, hk, hlast⟩ := exists_last key (mem_cons_self : a ∈ a :: post)
  refine ⟨y, hy, hk, ?_⟩
  rw [ofList, overlay_append]
  exact (mem_overlay_iff (ascending_ofList pre)).mpr (.inl hlast)

/-- The entries of a map, assigned in any order, give the map. -/
theorem ofList_of_perm (h : Ascending key l) (hperm : l'.Perm l) : ofList key l' = l := by
  refine ascending_ext (ascending_ofList l') h (fun x => ?_)
  constructor
  · intro hx
    exact hperm.mem_iff.mp (mem_of_mem_ofList hx)
  · intro hx
    obtain ⟨pre, post, rfl⟩ := append_of_mem (hperm.mem_iff.mpr hx)
    obtain ⟨y, hy, hkey, hmem⟩ := @exists_mem_ofList_of_split _ _ _ key pre post x
    have hyl : y ∈ l := hperm.mem_iff.mp (mem_append_right pre hy)
    rwa [h.eq_of_key_eq hyl hx hkey] at hmem

/-- What a batch leaves: the entries of the other keys, and the batch. -/
theorem overlay_perm (hold : Ascending key old) (hnew : Ascending key new) :
    (overlay key old new).Perm (old.filter (fun x => ∀ y ∈ new, key y ≠ key x) ++ new) := by
  have hnodup : (old.filter (fun x => ∀ y ∈ new, key y ≠ key x) ++ new).Nodup := by
    refine nodup_append.mpr ⟨hold.nodup.filter _, hnew.nodup, ?_⟩
    rintro x hx y hy rfl
    exact of_decide_eq_true (mem_filter.mp hx).2 x hy rfl
  refine (perm_ext_iff_of_nodup (ascending_overlay new hold).nodup hnodup).mpr (fun x => ?_)
  rw [mem_overlay hold hnew, mem_append, mem_filter, decide_eq_true_iff]
  exact or_comm

/-- A batch leaves what the map of the batch leaves. -/
theorem overlay_ofList (hold : Ascending key old) (new : List α) :
    overlay key old (ofList key new) = overlay key old new := by
  refine ascending_ext (ascending_overlay _ hold) (ascending_overlay _ hold) (fun x => ?_)
  rw [mem_overlay hold (ascending_ofList new), mem_overlay_iff hold, mem_ofList_iff]
  refine or_congr_right (and_congr_right (fun _ => ⟨fun h y hy hk => ?_, fun h y hy => h y (mem_of_mem_ofList hy)⟩))
  obtain ⟨z, hz, hzk⟩ : ∃ z ∈ ofList key new, key z = key y := exists_mem_overlay_key ascending_nil (.inr hy)
  exact h z hz (hzk.trans hk)

theorem ofList_append (h : Ascending key xs) : ofList key (xs ++ ys) = overlay key xs ys := by
  rw [ofList, overlay_append, ← ofList, ofList_of_ascending h]

theorem overlay_eq_append (h : Ascending key (xs ++ ys)) : overlay key xs ys = xs ++ ys := by
  rw [← ofList_append (ascending_append.mp h).1, ofList_of_ascending h]

theorem overlay_eq_prepend (h : Ascending key (ys ++ xs)) : overlay key xs ys = ys ++ xs := by
  obtain ⟨hy, hx, hlt⟩ := ascending_append.mp h
  refine ascending_ext (ascending_overlay ys hx) h (fun v => ?_)
  rw [mem_overlay hx hy, mem_append]
  constructor
  · rintro (hv | ⟨hv, -⟩)
    · exact .inl hv
    · exact .inr hv
  · rintro (hv | hv)
    · exact .inl hv
    · exact .inr ⟨hv, fun w hw => (hlt w hw v hv).ne⟩

/-- A batch changes nothing exactly when all of it is there already. -/
theorem overlay_eq_self_iff (hold : Ascending key old) (hnew : Ascending key new) : overlay key old new = old ↔ ∀ v ∈ new, v ∈ old := by
  constructor
  · intro h v hv
    rw [← h]
    exact (mem_overlay hold hnew).mpr (.inl hv)
  · intro h
    refine ascending_ext (ascending_overlay new hold) hold (fun v => ?_)
    rw [mem_overlay hold hnew]
    constructor
    · rintro (hv | ⟨hv, -⟩)
      · exact h v hv
      · exact hv
    · intro hv
      by_cases hin : v ∈ new
      · exact .inl hin
      · refine .inr ⟨hv, fun w hw hk => hin ?_⟩
        rw [← hold.eq_of_key_eq (h w hw) hv hk]
        exact hw

/-- **A batch splits with the key range.** Where the first parts lie wholly
below the second parts, each part is overlaid on its own. -/
theorem overlay_append_append {a b c d : List α} (hab : Ascending key (a ++ b))
    (hcd : Ascending key (c ++ d)) (had : ∀ x ∈ a, ∀ y ∈ d, key x < key y)
    (hcb : ∀ x ∈ c, ∀ y ∈ b, key x < key y) :
    overlay key (a ++ b) (c ++ d) = overlay key a c ++ overlay key b d := by
  obtain ⟨ha, hb, hlt⟩ := ascending_append.mp hab
  obtain ⟨hc, hd, hlt'⟩ := ascending_append.mp hcd
  have hright : Ascending key (overlay key a c ++ overlay key b d) := by
    refine ascending_append.mpr
      ⟨ascending_overlay c ha, ascending_overlay d hb, ?_⟩
    intro x hx y hy
    rcases mem_of_mem_overlay ha hx with hx' | hx' <;>
      rcases mem_of_mem_overlay hb hy with hy' | hy'
    · exact hlt x hx' y hy'
    · exact had x hx' y hy'
    · exact hcb x hx' y hy'
    · exact hlt' x hx' y hy'
  refine ascending_ext (ascending_overlay _ hab) hright (fun x => ?_)
  rw [mem_append, mem_overlay hab hcd, mem_overlay ha hc, mem_overlay hb hd]
  simp only [mem_append]
  constructor
  · rintro ((hx | hx) | ⟨hx | hx, hall⟩)
    · exact .inl (.inl hx)
    · exact .inr (.inl hx)
    · exact .inl (.inr ⟨hx, fun y hy => hall y (.inl hy)⟩)
    · exact .inr (.inr ⟨hx, fun y hy => hall y (.inr hy)⟩)
  · rintro ((hx | ⟨hx, hall⟩) | (hx | ⟨hx, hall⟩))
    · exact .inl (.inl hx)
    · refine .inr ⟨.inl hx, ?_⟩
      rintro y (hy | hy)
      · exact hall y hy
      · exact (had x hx y hy).ne'
    · exact .inl (.inr hx)
    · refine .inr ⟨.inr hx, ?_⟩
      rintro y (hy | hy)
      · exact (hcb y hy x hx).ne
      · exact hall y hy

/-! ## Splitting a list at a key -/

section Split

variable {p : α → Bool} (h : l.Pairwise (fun a b => p b = true → p a = true))
include h

/-- If all that is before an entry with a property has the property, it is that of an initial
part of the list. -/
theorem takeWhile_dropWhile_eq :
    l.takeWhile p = l.filter p ∧ l.dropWhile p = l.filter (fun v => !p v) := by
  induction l with
  | nil => exact ⟨rfl, rfl⟩
  | cons x xs ih =>
    obtain ⟨hx, hxs⟩ := pairwise_cons.mp h
    cases hp : p x with
    | true =>
      obtain ⟨h1, h2⟩ := ih hxs
      simp [hp, h1, h2]
    | false =>
      have hall : ∀ y ∈ xs, p y = false := by
        intro y hy
        by_contra hne
        rw [hx y hy (by simpa using hne)] at hp
        cases hp
      have h1 : xs.filter p = [] := by simpa [filter_eq_nil_iff] using hall
      have h2 : xs.filter (fun v => !p v) = xs := by simpa [filter_eq_self] using hall
      simp [hp, h1, h2]

theorem filter_append_filter_not : l.filter p ++ l.filter (fun v => !p v) = l := by
  obtain ⟨h1, h2⟩ := takeWhile_dropWhile_eq h
  rw [← h1, ← h2, takeWhile_append_dropWhile]

end Split

/-- In an ascending list the keys below a bound form a prefix. -/
theorem takeWhile_dropWhile_eq_filter (h : Ascending key l) (t : κ) :
    l.takeWhile (fun v => key v < t) = l.filter (fun v => key v < t) ∧
      l.dropWhile (fun v => key v < t) = l.filter (fun v => t ≤ key v) := by
  have hsplit := takeWhile_dropWhile_eq (p := fun v => decide (key v < t))
    (h.imp (fun hlt hv => decide_eq_true (hlt.trans (of_decide_eq_true hv))))
  simpa only [← decide_not, not_lt] using hsplit

theorem filter_lt_append_filter_ge (h : l.Pairwise (fun a b => key a ≤ key b)) (t : κ) :
    l.filter (fun v => key v < t) ++ l.filter (fun v => t ≤ key v) = l := by
  have hsplit := filter_append_filter_not (p := fun v => decide (key v < t))
    (h.imp (fun hle hv => decide_eq_true (hle.trans_lt (of_decide_eq_true hv))))
  simpa only [← decide_not, not_lt] using hsplit

/-- A list in key order falls into the entries below a key, those of the key
and those above it. -/
theorem eq_filter_lt_append_eq_append_gt (k : κ) (h : l.Pairwise (fun a b => key a ≤ key b)) :
    l = l.filter (fun v => key v < k) ++
      (l.filter (fun v => key v = k) ++ l.filter (fun v => k < key v)) := by
  have hsplit := filter_append_filter_not (p := fun v => decide (key v ≤ k))
    ((h.sublist (filter_sublist (p := fun v => decide (k ≤ key v)))).imp
      (fun hle hv => decide_eq_true (hle.trans (of_decide_eq_true hv))))
  rw [filter_filter, filter_filter] at hsplit
  conv_lhs => rw [← filter_lt_append_filter_ge h k, ← hsplit]
  refine congrArg _ (congrArg₂ _ (filter_congr (fun v _ => ?_)) (filter_congr (fun v _ => ?_)))
  · rw [← Bool.decide_and, decide_eq_decide]
    exact le_antisymm_iff.symm
  · rw [← decide_not, ← Bool.decide_and, decide_eq_decide, not_le]
    exact and_iff_left_of_imp le_of_lt

end AndyEnv.Keyed
