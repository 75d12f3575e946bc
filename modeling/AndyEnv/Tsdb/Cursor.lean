import Mathlib.Data.Prod.Lex
import AndyEnv.Lib.KeyedCursor

/-!
# Cursors (`tsdb/cursor.go`)

`multiCursor` reads several cursors at once. Its heap has the next entry of each
cursor that is not at its end; of equal keys the entry of the first cursor is
returned and the others are skipped. The heap is a list here, of which `Pop` takes
an item that no other is less than.

All cursors of a `multiCursor` go in one direction.
-/

namespace AndyEnv

open List Function Option

def EOF : Int64 := -1

namespace Tsdb

variable {ascending : Bool}

/-- An item of the heap; the cursor is its place among the cursors. -/
structure HeapItem (α : Type) : Type where
  key : Int64
  value : Option α
  cursor : ℕ
  priority : ℕ

structure MultiCursor (σ α : Type) : Type where
  cursors : List σ
  ascending : Bool
  heap : List (HeapItem α)
  prev : Int64

def less {α : Type} (ascending : Bool) (a b : HeapItem α) : Bool :=
  if a.key = b.key then decide (a.priority > b.priority)
  else if ascending then decide (a.key < b.key)
  else decide (a.key > b.key)

/-- `heap.Pop`. -/
def popLeast {β : Type} (less : β → β → Bool) : List β → Option (β × List β)
  | [] => none
  | x :: xs =>
    match popLeast less xs with
    | none => some (x, xs)
    | some (y, ys) => if less y x then some (y, x :: ys) else some (x, y :: ys)

namespace MultiCursor

variable {σ α : Type} (C : KeyedCursor σ Int64 (Option α))

/-- `MultiCursor`. -/
def new (cursors : List σ) (ascending : Bool) : MultiCursor σ α := ⟨cursors, ascending, [], 0⟩

/-- The next entry of an item's cursor, which is put back on the heap if there is
one. -/
def readNext (item : HeapItem α) (mc : MultiCursor σ α) : Option (MultiCursor σ α) := do
  let s ← mc.cursors[item.cursor]?
  let ((key, value), s) ← C.next s
  return { mc with
    cursors := mc.cursors.set item.cursor s
    heap := if key ≠ EOF then { item with key := key, value := value } :: mc.heap else mc.heap }

def pop : ℕ → MultiCursor σ α → Option ((Int64 × Option α) × MultiCursor σ α)
  | 0, _ => none
  | fuel + 1, mc =>
    match popLeast (less mc.ascending) mc.heap with
    | none => some ((EOF, none), mc)
    | some (item, heap) => do
      let mc' ← readNext C item { mc with heap := heap }
      if item.key = mc.prev then pop fuel mc'
      else return ((item.key, item.value), { mc' with prev := item.key })

/-- The loop of `SeekTo`, over `n` cursors. -/
def seekLoop (seek : Int64) (n : ℕ) : ℕ → List σ → Option (List σ × List (HeapItem α))
  | _, [] => some ([], [])
  | i, s :: ss => do
    let ((key, value), s) ← C.seekTo seek s
    let (ss, heap) ← seekLoop seek n (i + 1) ss
    return (s :: ss, if key = EOF then heap else ⟨key, value, i, n - i⟩ :: heap)

def seekTo (fuel : ℕ) (seek : Int64) (mc : MultiCursor σ α) :
    Option ((Int64 × Option α) × MultiCursor σ α) := do
  let (cursors, heap) ← seekLoop C seek mc.cursors.length 0 mc.cursors
  pop C fuel { mc with cursors := cursors, heap := heap, prev := EOF }

/-- The cursor, with the turns that a `pop` may take. -/
def cursor (fuel : ℕ) : KeyedCursor (MultiCursor σ α) Int64 (Option α) where
  seekTo := seekTo C fuel
  next := pop C fuel

end MultiCursor

/-! ## The heap -/

def rank (ascending : Bool) (t : Int64) : ℤ := if ascending then t.toInt else -t.toInt

theorem rank_inj {s t : Int64} : rank ascending s = rank ascending t ↔ s = t := by
  cases ascending with
  | true => exact Int64.toInt_inj
  | false => exact neg_inj.trans Int64.toInt_inj

def place {α : Type} (ascending : Bool) (a : HeapItem α) : ℤ ×ₗ ℤ := toLex (rank ascending a.key, -(a.priority : ℤ))

theorem less_iff {α : Type} {a b : HeapItem α} :
    less ascending a b = true ↔ place ascending a < place ascending b := by
  rw [place, place, Prod.Lex.toLex_lt_toLex, less]
  by_cases heq : a.key = b.key
  · rw [if_pos heq, heq, decide_eq_true_iff]
    simp only [lt_irrefl, true_and, false_or]
    omega
  have hne : rank ascending a.key ≠ rank ascending b.key := fun h => heq (rank_inj.mp h)
  simp only [if_neg heq, hne, false_and, or_false]
  cases ascending with
  | true =>
    rw [if_pos rfl, decide_eq_true_iff]
    exact Int64.lt_iff_toInt_lt
  | false =>
    rw [if_neg Bool.false_ne_true, decide_eq_true_iff]
    exact Int64.lt_iff_toInt_lt.trans neg_lt_neg_iff.symm

theorem popLeast_eq_none {β : Type} {less : β → β → Bool} {l : List β} (h : popLeast less l = none) : l = [] := by
  cases l with
  | nil => rfl
  | cons x xs =>
    rw [popLeast] at h
    split at h
    · cases h
    · split at h <;> cases h

/-- **What is popped comes first.** -/
theorem popLeast_eq_some {α : Type} {l rest : List (HeapItem α)} {a : HeapItem α}
    (h : popLeast (less ascending) l = some (a, rest)) :
    l.Perm (a :: rest) ∧ ∀ b ∈ rest, place ascending a ≤ place ascending b := by
  induction l generalizing a rest with
  | nil => cases h
  | cons x xs ih =>
    rw [popLeast] at h
    split at h
    · rename_i hnone
      cases h
      rw [popLeast_eq_none hnone]
      exact ⟨List.Perm.refl _, nofun⟩
    rename_i y ys hsome
    obtain ⟨hperm, hle⟩ := ih hsome
    split at h
    · rename_i hlt
      cases h
      refine ⟨(hperm.cons x).trans (List.Perm.swap _ _ _), forall_mem_cons.mpr ⟨?_, hle⟩⟩
      exact (less_iff.mp hlt).le
    · rename_i hlt
      cases h
      have hxy : place ascending x ≤ place ascending y := not_lt.mp (fun h => hlt (less_iff.mpr h))
      exact ⟨hperm.cons x, forall_mem_cons.mpr ⟨hxy, fun b hb => hxy.trans (hle b hb)⟩⟩

/-! ## The merge -/

namespace MultiCursor

variable {σ α : Type} {C : KeyedCursor σ Int64 (Option α)}

/-- The entries that each cursor has still to return, in its order. -/
structure Holds (C : KeyedCursor σ Int64 (Option α)) (mc : MultiCursor σ α)
    (L : ℕ → List (Int64 × Option α)) : Prop where
  item : ∀ a ∈ mc.heap, L a.cursor ≠ [] ∧ a.priority = mc.cursors.length - a.cursor ∧
    ∃ s, mc.cursors[a.cursor]? = some s ∧ C.Buffered EOF (a.key, a.value) s (L a.cursor)
  nodup : (mc.heap.map HeapItem.cursor).Nodup
  ended : ∀ i, (∀ a ∈ mc.heap, a.cursor ≠ i) → L i = []

/-- Each cursor goes in the direction, and has one value for a key. -/
structure Ordered (mc : MultiCursor σ α) (L : ℕ → List (Int64 × Option α)) : Prop where
  sorted : ∀ i, (L i).Pairwise (fun e f => rank mc.ascending e.1 ≤ rank mc.ascending f.1)
  functional : ∀ i, ∀ e ∈ L i, ∀ f ∈ L i, e.1 = f.1 → e = f
  prev : mc.prev = EOF ∨ ∀ i, ∀ e ∈ L i, rank mc.ascending mc.prev ≤ rank mc.ascending e.1

/-- The entry of the first cursor that has the key. -/
def Wins (L : ℕ → List (Int64 × Option α)) (e : Int64 × Option α) : Prop :=
  ∃ i, e ∈ L i ∧ ∀ j < i, ∀ f ∈ L j, f.1 ≠ e.1

def left (mc : MultiCursor σ α) (L : ℕ → List (Int64 × Option α)) : ℕ :=
  (mc.heap.map (fun a => (L a.cursor).length)).sum

section Steps

variable {mc : MultiCursor σ α} {L : ℕ → List (Int64 × Option α)}
variable {a : HeapItem α}

variable {i j fuel : ℕ} {e : Int64 × Option α}

theorem Holds.exists_item (h : Holds C mc L) (he : e ∈ L i) : ∃ a ∈ mc.heap, a.cursor = i := by
  by_contra hi
  push Not at hi
  rw [h.ended i hi] at he
  exact absurd he not_mem_nil

theorem Holds.ne_eof (h : Holds C mc L) (he : e ∈ L i) : e.1 ≠ EOF := by
  obtain ⟨a, ha, rfl⟩ := h.exists_item he
  obtain ⟨-, -, s, -, hbuf⟩ := h.item a ha
  exact hbuf.ne_eof e he

theorem Holds.head (h : Holds C mc L) (ha : a ∈ mc.heap) :
    ∃ es, L a.cursor = (a.key, a.value) :: es := by
  obtain ⟨hne, -, s, -, hbuf⟩ := h.item a ha
  obtain ⟨e, es, hL⟩ := exists_cons_of_ne_nil hne
  rw [hL] at hbuf ⊢
  exact ⟨es, by rw [hbuf.cons_inv.1]⟩

/-- **The entry that is popped comes first**, and the cursors before its own do not
have its key. -/
theorem Holds.least (h : Holds C mc L) (hord : Ordered mc L) (ha : a ∈ mc.heap)
    (hleast : ∀ b ∈ mc.heap, place mc.ascending a ≤ place mc.ascending b) {f : Int64 × Option α}
    (hf : f ∈ L j) : rank mc.ascending a.key ≤ rank mc.ascending f.1 ∧ (f.1 = a.key → a.cursor ≤ j) := by
  obtain ⟨b, hb, rfl⟩ := h.exists_item hf
  obtain ⟨es, hes⟩ := h.head hb
  have hbf : rank mc.ascending b.key ≤ rank mc.ascending f.1 := by
    have hsorted := hord.sorted b.cursor
    rw [hes] at hsorted hf
    rcases mem_cons.mp hf with rfl | hf'
    · exact le_rfl
    · exact (pairwise_cons.mp hsorted).1 f hf'
  have hle := hleast b hb
  rw [place, place, Prod.Lex.toLex_le_toLex] at hle
  constructor
  · rcases hle with hlt | ⟨heq, -⟩
    · exact hlt.le.trans hbf
    · exact heq.le.trans hbf
  · intro hkey
    rw [hkey] at hbf
    rcases hle with hlt | ⟨-, hprio⟩
    · exact absurd (hlt.trans_le hbf) (lt_irrefl _)
    obtain ⟨-, hpa, s, hs, -⟩ := h.item a ha
    obtain ⟨-, hpb, t, ht, -⟩ := h.item b hb
    have hla := (List.getElem?_eq_some_iff.mp hs).1
    have hlb := (List.getElem?_eq_some_iff.mp ht).1
    simp only [hpa, hpb] at hprio
    omega

variable {es : List (Int64 × Option α)} {e f : Int64 × Option α}

/-- **One item of the heap**: its entry is taken, and its cursor read. -/
theorem Holds.readNext (h : Holds C mc L) {rest : List (HeapItem α)}
    (hperm : mc.heap.Perm (a :: rest)) (hes : L a.cursor = (a.key, a.value) :: es) :
    ∃ mc', readNext C a { mc with heap := rest } = some mc' ∧ mc'.ascending = mc.ascending ∧ mc'.prev = mc.prev ∧
      Holds C mc' (update L a.cursor es) ∧ left mc' (update L a.cursor es) + 1 = left mc L := by
  have ha : a ∈ mc.heap := hperm.mem_iff.mpr mem_cons_self
  have hnodup : a.cursor ∉ rest.map HeapItem.cursor ∧ (rest.map HeapItem.cursor).Nodup :=
    nodup_cons.mp ((hperm.map HeapItem.cursor).nodup_iff.mp h.nodup)
  have hother : ∀ b ∈ rest, b.cursor ≠ a.cursor := fun b hb heq => hnodup.1 (heq ▸ mem_map_of_mem hb)
  have hrestL : ∀ b ∈ rest, update L a.cursor es b.cursor = L b.cursor :=
    fun b hb => update_of_ne (hother b hb) _ _
  obtain ⟨-, hprio, s, hs, hbuf⟩ := h.item a ha
  rw [hes] at hbuf
  obtain ⟨⟨key, value⟩, s', hnext, hbuf'⟩ := hbuf.cons_inv.2.2.buffered
  have hlength : ∀ t, (mc.cursors.set a.cursor t).length = mc.cursors.length := fun t => length_set
  have hlt := (List.getElem?_eq_some_iff.mp hs).1
  have hleft : left mc L = (es.length + 1) + (rest.map (fun b => (L b.cursor).length)).sum := by
    rw [left, (hperm.map _).sum_eq, map_cons, sum_cons, hes, length_cons]
  have hsum : (rest.map (fun b => (update L a.cursor es b.cursor).length)).sum =
      (rest.map (fun b => (L b.cursor).length)).sum :=
    congrArg List.sum (map_congr_left (fun b hb => by rw [hrestL b hb]))
  -- the items that stay
  have hitems : ∀ b ∈ rest, update L a.cursor es b.cursor ≠ [] ∧
      b.priority = (mc.cursors.set a.cursor s').length - b.cursor ∧
      ∃ t, (mc.cursors.set a.cursor s')[b.cursor]? = some t ∧
        C.Buffered EOF (b.key, b.value) t (update L a.cursor es b.cursor) := by
    intro b hb
    obtain ⟨hne, hpb, t, ht, hbt⟩ := h.item b (hperm.mem_iff.mpr (mem_cons_of_mem a hb))
    rw [hrestL b hb, hlength, List.getElem?_set_ne (Ne.symm (hother b hb))]
    exact ⟨hne, hpb, t, ht, hbt⟩
  have hended : ∀ i, i ≠ a.cursor → (∀ b ∈ rest, b.cursor ≠ i) → update L a.cursor es i = [] := by
    intro i hi hall
    rw [update_of_ne hi]
    refine h.ended i (fun b hb => ?_)
    rcases mem_cons.mp (hperm.mem_iff.mp hb) with rfl | hb'
    · exact Ne.symm hi
    · exact hall b hb'
  by_cases heof : key = EOF
  · -- the cursor has ended
    have hnil := hbuf'.nil_of_key heof
    refine ⟨{ mc with cursors := mc.cursors.set a.cursor s', heap := rest }, ?_, rfl, rfl,
      ⟨hitems, hnodup.2, fun i hall => ?_⟩, ?_⟩
    · simp only [MultiCursor.readNext, hs, bind_eq_bind, bind_some, hnext, ne_eq, heof,
        not_true_eq_false, if_false]
      rfl
    · by_cases hi : i = a.cursor
      · rw [hi, update_self, hnil]
      · exact hended i hi hall
    · rw [hleft, left, hsum, hnil, length_nil]
      omega
  · have hne : es ≠ [] := by
      rintro rfl
      exact heof hbuf'.key_nil
    refine ⟨{ mc with cursors := mc.cursors.set a.cursor s', heap := { a with key := key, value := value } :: rest },
      ?_, rfl, rfl, ⟨?_, nodup_cons.mpr hnodup, fun i hall => ?_⟩, ?_⟩
    · simp only [MultiCursor.readNext, hs, bind_eq_bind, bind_some, hnext, ne_eq, heof,
        not_false_eq_true, if_true]
      rfl
    · refine forall_mem_cons.mpr ⟨?_, hitems⟩
      simp only [update_self]
      exact ⟨hne, by rw [hlength]; exact hprio, s', List.getElem?_set_self hlt, hbuf'⟩
    · refine hended i (fun hi => ?_) (forall_mem_cons.mp hall).2
      exact hall _ mem_cons_self hi.symm
    · simp only [left, map_cons, sum_cons, update_self] at hleft ⊢
      rw [hleft, hsum]
      omega

theorem mem_update_of_mem (hes : L i = e :: es) (h : f ∈ update L i es j) : f ∈ L j := by
  by_cases hj : j = i
  · subst hj
    rw [update_self] at h
    rw [hes]
    exact mem_cons_of_mem e h
  · rwa [update_of_ne hj] at h

theorem mem_update_of_ne (hes : L i = e :: es) (hf : f ∈ L j) (hne : f.1 ≠ e.1) : f ∈ update L i es j := by
  by_cases hj : j = i
  · subst hj
    rw [update_self]
    rw [hes] at hf
    rcases mem_cons.mp hf with rfl | hf'
    · exact absurd rfl hne
    · exact hf'
  · rwa [update_of_ne hj]

theorem wins_update (hes : L i = e :: es) (hne : f.1 ≠ e.1) : Wins (update L i es) f ↔ Wins L f := by
  constructor
  · rintro ⟨j, hf, hall⟩
    refine ⟨j, mem_update_of_mem hes hf, fun k hk g hg heq => ?_⟩
    exact hall k hk g (mem_update_of_ne hes hg (heq ▸ hne)) heq
  · rintro ⟨j, hf, hall⟩
    exact ⟨j, mem_update_of_ne hes hf hne, fun k hk g hg => hall k hk g (mem_update_of_mem hes hg)⟩

theorem Ordered.update (h : Ordered mc L) {mc' : MultiCursor σ α}
    (hes : L i = e :: es) (hasc : mc'.ascending = mc.ascending)
    (hprev : mc'.prev = EOF ∨ ∀ j, ∀ f ∈ L j, rank mc.ascending mc'.prev ≤ rank mc.ascending f.1) :
    Ordered mc' (update L i es) where
  sorted := by
    intro j
    rw [hasc]
    by_cases hj : j = i
    · subst hj
      have hsorted := h.sorted j
      rw [hes] at hsorted
      rw [update_self]
      exact (pairwise_cons.mp hsorted).2
    · rw [update_of_ne hj]
      exact h.sorted j
  functional := by
    intro j f hf g hg
    exact h.functional j f (mem_update_of_mem hes hf) g (mem_update_of_mem hes hg)
  prev := by
    rw [hasc]
    exact hprev.imp_right (fun hall j f hf => hall j f (mem_update_of_mem hes hf))

/-- **One entry**: the first that has not the key before, or the end. -/
theorem Holds.pop (h : Holds C mc L) (hord : Ordered mc L) (hfuel : left mc L < fuel) :
    ((∀ e, Wins L e → e.1 = mc.prev) ∧ ∃ mc', pop C fuel mc = some ((EOF, none), mc')) ∨
      ∃ e mc' L', pop C fuel mc = some (e, mc') ∧ Holds C mc' L' ∧ Ordered mc' L' ∧ left mc' L' < left mc L ∧
        mc'.ascending = mc.ascending ∧ mc'.prev = e.1 ∧ e.1 ≠ EOF ∧
        (∀ f, f.1 ≠ mc.prev ∧ Wins L f ↔ f = e ∨ f.1 ≠ e.1 ∧ Wins L' f) ∧
        ∀ f, Wins L' f → rank mc.ascending e.1 ≤ rank mc.ascending f.1 := by
  induction fuel generalizing mc L with
  | zero => exact absurd hfuel (Nat.not_lt_zero _)
  | succ fuel ih =>
    rw [MultiCursor.pop]
    split
    · rename_i hnone
      refine .inl ⟨?_, mc, rfl⟩
      rintro e ⟨i, he, -⟩
      rw [h.ended i (by rw [popLeast_eq_none hnone]; exact nofun)] at he
      exact absurd he not_mem_nil
    · rename_i a rest hpop
      obtain ⟨hperm, hle⟩ := popLeast_eq_some hpop
      have ha : a ∈ mc.heap := hperm.mem_iff.mpr mem_cons_self
      have hleast : ∀ b ∈ mc.heap, place mc.ascending a ≤ place mc.ascending b := by
        intro b hb
        rcases mem_cons.mp (hperm.mem_iff.mp hb) with rfl | hb'
        · exact le_rfl
        · exact hle b hb'
      have hfirst : ∀ j, ∀ f ∈ L j, rank mc.ascending a.key ≤ rank mc.ascending f.1 ∧ (f.1 = a.key → a.cursor ≤ j) :=
        fun j f hf => h.least hord ha hleast hf
      obtain ⟨es, hes⟩ := h.head ha
      obtain ⟨mc', hread, hasc, hprev, hholds, hleft⟩ := h.readNext hperm hes
      simp only [hread, bind_eq_bind, bind_some]
      by_cases hskip : a.key = mc.prev
      · -- the key was returned before
        rw [if_pos hskip]
        have hord' : Ordered mc' (update L a.cursor es) := by
          refine hord.update hes hasc ?_
          rw [hprev]
          exact hord.prev
        have hwins : ∀ f : Int64 × Option α, f.1 ≠ mc.prev → (Wins (update L a.cursor es) f ↔ Wins L f) :=
          fun f hf => wins_update hes (by rw [← hskip] at hf; exact hf)
        rcases ih hholds hord' (by omega) with ⟨hall, hend⟩ | ⟨e, mc'', L'', hpop', hh, ho, hl, hasc'', hp, hne, hiff, hge⟩
        · refine .inl ⟨fun e he => ?_, hend⟩
          by_contra hne
          exact hne ((hall e ((hwins e hne).mpr he)).trans hprev)
        · refine .inr ⟨e, mc'', L'', hpop', hh, ho, by omega, hasc''.trans hasc, hp, hne, fun f => ?_, ?_⟩
          · rw [← hiff f, hprev]
            exact and_congr_right (fun hf => (hwins f hf).symm)
          · rw [hasc] at hge
            exact hge
      · rw [if_neg hskip]
        refine .inr ⟨(a.key, a.value), { mc' with prev := a.key }, update L a.cursor es, rfl, ⟨hholds.item, hholds.nodup, hholds.ended⟩,
          hord.update hes hasc (.inr (fun j f hf => (hfirst j f hf).1)), ?_, hasc, rfl,
          h.ne_eof (by rw [hes]; exact mem_cons_self), fun f => ?_, ?_⟩
        · have : left { mc' with prev := a.key } (update L a.cursor es) =
              left mc' (update L a.cursor es) := rfl
          omega
        · have hae : (a.key, a.value) ∈ L a.cursor := by rw [hes]; exact mem_cons_self
          constructor
          · rintro ⟨-, j, hf, hall⟩
            by_cases hkey : f.1 = a.key
            · have hj : j = a.cursor := by
                refine le_antisymm (not_lt.mp (fun hlt => ?_)) ((hfirst j f hf).2 hkey)
                exact hall _ hlt _ hae hkey.symm
              subst hj
              exact .inl (hord.functional _ f hf _ hae hkey)
            · exact .inr ⟨hkey, (wins_update hes hkey).mpr ⟨j, hf, hall⟩⟩
          · rintro (rfl | ⟨hkey, hwins⟩)
            · refine ⟨hskip, a.cursor, hae, fun j hj f hf heq => ?_⟩
              exact absurd ((hfirst j f hf).2 heq) (not_le.mpr hj)
            · have hwins' := (wins_update hes hkey).mp hwins
              refine ⟨fun heq => ?_, hwins'⟩
              obtain ⟨j, hf, -⟩ := hwins'
              rcases hord.prev with hp | hp
              · exact h.ne_eof hf (heq.trans hp)
              -- the key would be that of the entry before
              have h₁ := hp a.cursor _ hae
              have h₂ := (hfirst j f hf).1
              rw [heq] at h₂
              exact hskip (rank_inj.mp (le_antisymm h₂ h₁))
        · rintro f ⟨j, hf, -⟩
          exact (hfirst j f (mem_update_of_mem hes hf)).1

/-- **A whole reading**: each key once, in order, with the value of the first cursor
that has it. -/
theorem Holds.rest (h : Holds C mc L) (hord : Ordered mc L) (hfuel : left mc L < fuel) :
    ∃ out, (cursor C fuel).Rest EOF mc out ∧
      out.Pairwise (fun e f => rank mc.ascending e.1 < rank mc.ascending f.1) ∧
      ∀ e, e ∈ out ↔ e.1 ≠ mc.prev ∧ Wins L e := by
  induction hn : left mc L using Nat.strong_induction_on generalizing mc L with
  | _ n ih =>
    rcases h.pop hord hfuel with ⟨hall, mc', hpop⟩ | ⟨e, mc', L', hpop, hh, ho, hl, hasc, hp, hne, hiff, hge⟩
    · refine ⟨[], .eof hpop, List.Pairwise.nil, fun e => ?_⟩
      exact ⟨nofun, fun he => absurd (hall e he.2) he.1⟩
    obtain ⟨out, hrest, hsorted, hmem⟩ := ih _ (hn ▸ hl) hh ho (hl.trans hfuel) rfl
    rw [hasc] at hsorted
    rw [hp] at hmem
    refine ⟨e :: out, .step hpop hne hrest, pairwise_cons.mpr ⟨fun f hf => ?_, hsorted⟩, fun f => ?_⟩
    · obtain ⟨hne', hwins⟩ := (hmem f).mp hf
      exact lt_of_le_of_ne (hge f hwins) (fun heq => hne' (rank_inj.mp heq).symm)
    · rw [mem_cons, hmem f, hiff f]

end Steps

/-! ## The seek -/

def listAt (Ls : List (List (Int64 × Option α))) (i : ℕ) : List (Int64 × Option α) := (Ls[i]?).getD []

variable {seek : Int64} {ss : List σ} {Ls : List (List (Int64 × Option α))}

/-- What the loop of a seek leaves, from the cursor `i` on. -/
theorem seekLoop_spec
    (h : List.Forall₂ (fun s l => C.Scan EOF seek s l) ss Ls) (n : ℕ) : ∀ i, ∃ ss' heap,
      seekLoop C seek n i ss = some (ss', heap) ∧ ss'.length = ss.length ∧
      (∀ a ∈ heap, a.priority = n - a.cursor ∧ ∃ k s, a.cursor = i + k ∧ ss'[k]? = some s ∧ listAt Ls k ≠ [] ∧
        C.Buffered EOF (a.key, a.value) s (listAt Ls k)) ∧
      (heap.map HeapItem.cursor).Nodup ∧ (∀ k, (∀ a ∈ heap, a.cursor ≠ i + k) → listAt Ls k = []) ∧
      (heap.map (fun a => (listAt Ls (a.cursor - i)).length)).sum ≤ (Ls.map List.length).sum := by
  induction h with
  | nil => exact fun i => ⟨[], [], rfl, rfl, nofun, nodup_nil, fun _ _ => rfl, le_rfl⟩
  | @cons s l ss Ls hscan _ ih =>
    intro i
    obtain ⟨⟨key, value⟩, s', hseek, hbuf⟩ := hscan.buffered
    obtain ⟨ss', heap, hloop, hlen, hitems, hnodup, hended, hsum⟩ := ih (i + 1)
    have hitems' : ∀ a ∈ heap, a.priority = n - a.cursor ∧ ∃ k t, a.cursor = i + k ∧ (s' :: ss')[k]? = some t ∧
        listAt (l :: Ls) k ≠ [] ∧ C.Buffered EOF (a.key, a.value) t (listAt (l :: Ls) k) := by
      intro a ha
      obtain ⟨hprio, k, t, hk, ht, hne, hb⟩ := hitems a ha
      exact ⟨hprio, k + 1, t, by omega, ht, hne, hb⟩
    have hafter : ∀ a ∈ heap, i < a.cursor := by
      intro a ha
      obtain ⟨-, k, -, hk, -⟩ := hitems a ha
      omega
    have hsum' : (heap.map (fun a => (listAt (l :: Ls) (a.cursor - i)).length)).sum ≤ (Ls.map List.length).sum := by
      refine le_trans (le_of_eq (congrArg List.sum (map_congr_left (fun a ha => ?_)))) hsum
      have : a.cursor - i = (a.cursor - (i + 1)) + 1 := by
        have := hafter a ha
        omega
      rw [this]
      rfl
    have hrest : ∀ k, (∀ a ∈ heap, a.cursor ≠ i + (k + 1)) → listAt (l :: Ls) (k + 1) = [] := by
      intro k hall
      exact hended k (fun a ha heq => hall a ha (by omega))
    by_cases heof : key = EOF
    · have hnil := hbuf.nil_of_key heof
      refine ⟨s' :: ss', heap, ?_, by rw [length_cons, length_cons, hlen], hitems', hnodup, ?_, ?_⟩
      · simp only [seekLoop, hseek, bind_eq_bind, bind_some, hloop, if_pos heof]
        rfl
      · rintro (_ | k) hall
        · exact hnil
        · exact hrest k hall
      · rw [map_cons, sum_cons]
        omega
    · have hne : l ≠ [] := by
        rintro rfl
        exact heof hbuf.key_nil
      refine ⟨s' :: ss', ⟨key, value, i, n - i⟩ :: heap, ?_, by rw [length_cons, length_cons, hlen],
        forall_mem_cons.mpr ⟨⟨rfl, 0, s', rfl, rfl, hne, hbuf⟩, hitems'⟩, ?_, ?_, ?_⟩
      · simp only [seekLoop, hseek, bind_eq_bind, bind_some, hloop, if_neg heof]
        rfl
      · refine nodup_cons.mpr ⟨fun hmem => ?_, hnodup⟩
        obtain ⟨a, ha, heq⟩ := mem_map.mp hmem
        exact absurd heq (ne_of_gt (hafter a ha))
      · rintro (_ | k) hall
        · exact absurd rfl (hall _ mem_cons_self)
        · exact hrest k (forall_mem_cons.mp hall).2
      · have hfirst : listAt (l :: Ls) (i - i) = l := by rw [Nat.sub_self]; rfl
        simp only [map_cons, sum_cons, hfirst]
        omega

theorem listAt_cases (Ls : List (List (Int64 × Option α))) (i : ℕ) : listAt Ls i = [] ∨ listAt Ls i ∈ Ls := by
  rw [listAt]
  cases hi : Ls[i]? with
  | none => exact .inl rfl
  | some l => exact .inr (mem_of_getElem? hi)

/-- **Several cursors in one.** -/
theorem multiCursor_scan (ascending : Bool)
    (h : List.Forall₂ (fun s l => C.Scan EOF seek s l) ss Ls)
    (hsorted : ∀ l ∈ Ls, l.Pairwise (fun e f => rank ascending e.1 ≤ rank ascending f.1))
    (hfun : ∀ l ∈ Ls, ∀ e ∈ l, ∀ f ∈ l, e.1 = f.1 → e = f) {fuel : ℕ} (hfuel : (Ls.map List.length).sum < fuel) :
    ∃ out, (cursor C fuel).Scan EOF seek (new ss ascending) out ∧
      out.Pairwise (fun e f => rank ascending e.1 < rank ascending f.1) ∧
      ∀ e, e ∈ out ↔ Wins (listAt Ls) e := by
  obtain ⟨ss', heap, hloop, hlen, hitems, hnodup, hended, hsum⟩ := seekLoop_spec h ss.length 0
  have hholds : Holds C ⟨ss', ascending, heap, EOF⟩ (listAt Ls) := by
    refine ⟨fun a ha => ?_, hnodup, fun i hall => hended i (fun a ha => by rw [zero_add]; exact hall a ha)⟩
    obtain ⟨hprio, k, s, hk, hs, hne, hb⟩ := hitems a ha
    rw [zero_add] at hk
    rw [hk]
    exact ⟨hne, by rw [hprio, hk, hlen], s, hs, hb⟩
  have hord : Ordered (⟨ss', ascending, heap, EOF⟩ : MultiCursor σ α) (listAt Ls) := by
    refine ⟨fun i => ?_, fun i => ?_, .inl rfl⟩
    · rcases listAt_cases Ls i with hnil | hmem
      · rw [hnil]
        exact List.Pairwise.nil
      · exact hsorted _ hmem
    · rcases listAt_cases Ls i with hnil | hmem
      · rw [hnil]
        exact nofun
      · exact hfun _ hmem
  obtain ⟨out, hrest, hout, hmem⟩ := hholds.rest hord (lt_of_le_of_lt hsum hfuel)
  refine ⟨out, .of_rest ?_ hrest, hout, fun e => ?_⟩
  · change seekTo C fuel seek (new ss ascending) = _
    simp only [seekTo, new, hloop, bind_eq_bind, bind_some]
    rfl
  · rw [hmem e]
    refine and_iff_right_of_imp (fun hwins => ?_)
    obtain ⟨i, he, -⟩ := hwins
    exact hholds.ne_eof he

theorem exists_wins {L : ℕ → List (Int64 × Option α)} {i : ℕ} {e : Int64 × Option α} (he : e ∈ L i) :
    ∃ f, f.1 = e.1 ∧ Wins L f := by
  classical
  have hex : ∃ i, ∃ f ∈ L i, f.1 = e.1 := ⟨i, e, he, rfl⟩
  obtain ⟨f, hf, hkey⟩ := Nat.find_spec hex
  refine ⟨f, hkey, Nat.find hex, hf, fun j hj g hg heq => ?_⟩
  exact Nat.find_min hex hj ⟨g, hg, heq.trans hkey⟩

/-- **The merge of cursors over strictly ordered keys**: the keys are those that the
cursors deliver, in order and each once, and a value is that of the first cursor
listed that has the key. -/
theorem multiCursor_merges {seek : Int64} {ss : List σ} {Ls : List (List (Int64 × Option α))} (ascending : Bool)
    (h : List.Forall₂ (fun s l => C.Scan EOF seek s l) ss Ls)
    (hsorted : ∀ l ∈ Ls, l.Pairwise (fun e f => rank ascending e.1 < rank ascending f.1))
    {fuel : ℕ} (hfuel : (Ls.map List.length).sum < fuel) :
    ∃ out, (cursor C fuel).Scan EOF seek (new ss ascending) out ∧
      out.Pairwise (fun e f => rank ascending e.1 < rank ascending f.1) ∧
      (∀ key, (∃ e ∈ out, e.1 = key) ↔ ∃ l ∈ Ls, ∃ e ∈ l, e.1 = key) ∧
      ∀ e ∈ out, Wins (listAt Ls) e := by
  have hfun : ∀ l ∈ Ls, ∀ e ∈ l, ∀ f ∈ l, e.1 = f.1 → e = f := by
    intro l hl
    have hnodup : (l.map Prod.fst).Nodup :=
      pairwise_map.mpr ((hsorted l hl).imp (fun hlt heq => hlt.ne (congrArg _ heq)))
    exact fun e he f hf heq => inj_on_of_nodup_map hnodup he hf heq
  obtain ⟨out, hscan, hout, hmem⟩ := multiCursor_scan ascending h
    (fun l hl => (hsorted l hl).imp le_of_lt) hfun hfuel
  refine ⟨out, hscan, hout, fun key => ⟨?_, ?_⟩, fun e => (hmem e).mp⟩
  · rintro ⟨e, he, rfl⟩
    obtain ⟨i, hi, -⟩ := (hmem e).mp he
    rcases listAt_cases Ls i with hnil | hl
    · exact absurd (hnil ▸ hi) not_mem_nil
    · exact ⟨_, hl, e, hi, rfl⟩
  · rintro ⟨l, hl, e, he, rfl⟩
    obtain ⟨i, hlist⟩ := mem_iff_getElem?.mp hl
    obtain ⟨f, hkey, hwins⟩ := exists_wins (L := listAt Ls) (i := i) (e := e) (by simpa [listAt, hlist] using he)
    exact ⟨f, (hmem f).mpr hwins, hkey⟩

/-- Key 5 is in both lists: the value of the first is returned. -/
theorem multiCursor_merges_two :
    ∃ out, (cursor (KeyedCursor.ofList EOF none (fun a b : Int64 => decide (a > b))) 5).Scan EOF 9
        (new [[(7, some 1), (5, some 2)], [(5, some 3), (2, some 4)]] false) out ∧
      out.Pairwise (fun e f => rank false e.1 < rank false f.1) ∧
      (∀ key, (∃ e ∈ out, e.1 = key) ↔
        ∃ l ∈ [[(7, some 1), (5, some 2)], [(5, some 3), (2, some 4)]], ∃ e ∈ l, e.1 = key) ∧
      ∀ e ∈ out, Wins (listAt [[(7, some 1), (5, some 2)], [(5, some 3), (2, some 4)]]) e :=
  multiCursor_merges false
    (.cons (KeyedCursor.scan_ofList none _ 9 (by decide)) (.cons (KeyedCursor.scan_ofList none _ 9 (by decide)) .nil))
    (by decide) (by decide)

end MultiCursor

end Tsdb

end AndyEnv
