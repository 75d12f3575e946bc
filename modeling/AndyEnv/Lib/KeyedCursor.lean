import Mathlib.Tactic

/-!
# Cursors over keyed entries

`seekTo` moves a cursor to a key and returns the entry there, `next` returns the
entry after it; one key is the mark of the end. Both may panic. `Scan` is
`seekTo` followed by `next` until the end: its list is all that a reader of the
cursor sees.
-/

namespace AndyEnv

open List

structure KeyedCursor (σ κ α : Type) where
  seekTo : κ → σ → Option ((κ × α) × σ)
  next : σ → Option ((κ × α) × σ)

namespace KeyedCursor

variable {σ κ α : Type} (c : KeyedCursor σ κ α) (eof : κ)

/-- `next` until the end. -/
inductive Rest : σ → List (κ × α) → Prop where
  | eof {s s' : σ} {v : α} : c.next s = some ((eof, v), s') → Rest s []
  | step {s s' : σ} {e : κ × α} {es : List (κ × α)} : c.next s = some (e, s') → e.1 ≠ eof →
      Rest s' es → Rest s (e :: es)

/-- `seekTo`, and `next` until the end. -/
inductive Scan (seek : κ) : σ → List (κ × α) → Prop where
  | eof {s s' : σ} {v : α} : c.seekTo seek s = some ((eof, v), s') → Scan seek s []
  | step {s s' : σ} {e : κ × α} {es : List (κ × α)} : c.seekTo seek s = some (e, s') →
      e.1 ≠ eof → c.Rest eof s' es → Scan seek s (e :: es)

variable {c eof}

variable {s : σ} {es : List (κ × α)}
variable {seek : κ}

theorem Rest.ne_eof (h : c.Rest eof s es) : ∀ e ∈ es, e.1 ≠ eof := by
  induction h with
  | eof _ => exact nofun
  | step _ hne _ ih => exact forall_mem_cons.mpr ⟨hne, ih⟩

/-! ## An entry read ahead -/

variable (c eof) in
/-- The entry `e`, and the cursor behind it, are before the entries `es`. -/
inductive Buffered : κ × α → σ → List (κ × α) → Prop where
  | eof (v : α) (s : σ) : Buffered (eof, v) s []
  | entry {e : κ × α} {s : σ} {es : List (κ × α)} : e.1 ≠ eof → c.Rest eof s es → Buffered e s (e :: es)

variable {e : κ × α}

theorem Buffered.key_nil (h : Buffered c eof e s []) : e.1 = eof := by
  cases h
  rfl

theorem Buffered.nil_of_key (h : Buffered c eof e s es) (he : e.1 = eof) : es = [] := by
  cases h with
  | eof _ _ => rfl
  | entry hne _ => exact absurd he hne

theorem Buffered.cons_of_ne (h : Buffered c eof e s es) (he : e.1 ≠ eof) :
    ∃ es', es = e :: es' ∧ c.Rest eof s es' := by
  cases h with
  | eof _ _ => exact absurd rfl he
  | entry _ hrest => exact ⟨_, rfl, hrest⟩

theorem Buffered.cons_inv {x : κ × α} (h : Buffered c eof e s (x :: es)) :
    e = x ∧ x.1 ≠ eof ∧ c.Rest eof s es := by
  cases h with
  | entry hne hrest => exact ⟨rfl, hne, hrest⟩

theorem Buffered.ne_eof (h : Buffered c eof e s es) : ∀ x ∈ es, x.1 ≠ eof := by
  cases h with
  | eof _ _ => exact nofun
  | entry hne hrest => exact forall_mem_cons.mpr ⟨hne, hrest.ne_eof⟩

/-- What `next` returns is read ahead of the rest. -/
theorem Rest.buffered (h : c.Rest eof s es) :
    ∃ e s', c.next s = some (e, s') ∧ Buffered c eof e s' es := by
  cases h with
  | eof hnext => exact ⟨_, _, hnext, .eof _ _⟩
  | step hnext hne hrest => exact ⟨_, _, hnext, .entry hne hrest⟩

theorem Scan.buffered (h : c.Scan eof seek s es) :
    ∃ e s', c.seekTo seek s = some (e, s') ∧ Buffered c eof e s' es := by
  cases h with
  | eof hseek => exact ⟨_, _, hseek, .eof _ _⟩
  | step hseek hne hrest => exact ⟨_, _, hseek, .entry hne hrest⟩

theorem Scan.ne_eof (h : c.Scan eof seek s es) : ∀ e ∈ es, e.1 ≠ eof := by
  obtain ⟨e, s', -, hbuf⟩ := h.buffered
  exact hbuf.ne_eof

variable {fs l : List (κ × α)}

theorem Rest.unique (h : c.Rest eof s es) (h' : c.Rest eof s fs) : es = fs := by
  induction h generalizing fs with
  | eof hnext =>
    obtain ⟨e, s', hnext', hbuf⟩ := h'.buffered
    rw [hnext] at hnext'
    cases hnext'
    exact (hbuf.nil_of_key rfl).symm
  | step hnext hne _ ih =>
    obtain ⟨e, s', hnext', hbuf⟩ := h'.buffered
    rw [hnext] at hnext'
    cases hnext'
    obtain ⟨fs, rfl, hrest⟩ := hbuf.cons_of_ne hne
    rw [ih hrest]

theorem Scan.unique (h : c.Scan eof seek s es) (h' : c.Scan eof seek s fs) : es = fs := by
  obtain ⟨e, s', hseek, hbuf⟩ := h.buffered
  obtain ⟨f, t, hseek', hbuf'⟩ := h'.buffered
  rw [hseek] at hseek'
  cases hseek'
  cases hbuf with
  | eof _ _ => exact (hbuf'.nil_of_key rfl).symm
  | entry hne hrest =>
    obtain ⟨fs, rfl, hrest'⟩ := hbuf'.cons_of_ne hne
    rw [hrest.unique hrest']

/-! ## Readings -/

/-- **The rule for a whole reading**: a relation of the cursor to the entries it
has still to return, which `next` keeps. -/
theorem Rest.of_ahead (Ahead : σ → List (κ × α) → Prop)
    (hnil : ∀ s, Ahead s [] → ∃ v s', c.next s = some ((eof, v), s'))
    (hcons : ∀ s e es, Ahead s (e :: es) → ∃ s', c.next s = some (e, s') ∧ Ahead s' es) :
    ∀ {es : List (κ × α)} {s : σ}, Ahead s es → (∀ e ∈ es, e.1 ≠ eof) → c.Rest eof s es
  | [], s, h, _ => by
    obtain ⟨v, s', hnext⟩ := hnil s h
    exact .eof hnext
  | e :: es, s, h, hne => by
    obtain ⟨s', hnext, hahead⟩ := hcons s e es h
    exact .step hnext (hne e mem_cons_self)
      (Rest.of_ahead Ahead hnil hcons hahead (forall_mem_cons.mp hne).2)

/-- A seek that does what `next` does in another state. -/
theorem Scan.of_rest {s' : σ} (hseek : c.seekTo seek s = c.next s')
    (h : c.Rest eof s' es) : c.Scan eof seek s es := by
  cases h with
  | eof hnext => exact .eof (hseek.trans hnext)
  | step hnext hne hrest => exact .step (hseek.trans hnext) hne hrest

/-- A scan that ends at once, told by the key alone. -/
theorem Scan.nil_of_key (h : (c.seekTo seek s).map (fun r => r.1.1) = some eof) :
    c.Scan eof seek s [] := by
  obtain ⟨⟨⟨k, v⟩, s'⟩, hseek, hk⟩ := Option.map_eq_some_iff.mp h
  cases hk
  exact .eof hseek

theorem not_scan_of_panic (h : c.seekTo seek s = none) (es : List (κ × α)) :
    ¬ c.Scan eof seek s es := by
  intro hscan
  obtain ⟨e, s', hseek, -⟩ := hscan.buffered
  rw [h] at hseek
  cases hseek

/-! ## Cursors of two kinds -/

def sum {τ : Type} (c : KeyedCursor σ κ α) (d : KeyedCursor τ κ α) : KeyedCursor (σ ⊕ τ) κ α where
  seekTo seek
    | .inl s => (c.seekTo seek s).map (fun r => (r.1, .inl r.2))
    | .inr t => (d.seekTo seek t).map (fun r => (r.1, .inr r.2))
  next
    | .inl s => (c.next s).map (fun r => (r.1, .inl r.2))
    | .inr t => (d.next t).map (fun r => (r.1, .inr r.2))

section Sum

variable {τ : Type} {d : KeyedCursor τ κ α}

theorem Rest.inl (h : c.Rest eof s es) : (c.sum d).Rest eof (.inl s) es := by
  induction h with
  | eof hnext => exact .eof (congrArg (Option.map _) hnext)
  | step hnext hne _ ih => exact .step (congrArg (Option.map _) hnext) hne ih

theorem Rest.inr {t : τ} (h : d.Rest eof t es) : (c.sum d).Rest eof (.inr t) es := by
  induction h with
  | eof hnext => exact .eof (congrArg (Option.map _) hnext)
  | step hnext hne _ ih => exact .step (congrArg (Option.map _) hnext) hne ih

theorem Scan.inl (h : c.Scan eof seek s es) : (c.sum d).Scan eof seek (.inl s) es := by
  cases h with
  | eof hseek => exact .eof (congrArg (Option.map _) hseek)
  | step hseek hne hrest => exact .step (congrArg (Option.map _) hseek) hne hrest.inl

theorem Scan.inr {t : τ} (h : d.Scan eof seek t es) : (c.sum d).Scan eof seek (.inr t) es := by
  cases h with
  | eof hseek => exact .eof (congrArg (Option.map _) hseek)
  | step hseek hne hrest => exact .step (congrArg (Option.map _) hseek) hne hrest.inr

end Sum

/-! ## A cursor over a list -/

/-- The first entry of a list, or the mark of the end. -/
def pop (eof : κ) (nil : α) : List (κ × α) → (κ × α) × List (κ × α)
  | [] => ((eof, nil), [])
  | e :: es => (e, es)

/-- A cursor over a list; `seekTo` passes over the entries that come before. -/
def ofList (eof : κ) (nil : α) (before : κ → κ → Bool) : KeyedCursor (List (κ × α)) κ α where
  seekTo seek l := some (pop eof nil (l.dropWhile (fun e => before e.1 seek)))
  next l := some (pop eof nil l)

variable (nil : α) (before : κ → κ → Bool)

theorem rest_ofList (h : ∀ e ∈ l, e.1 ≠ eof) : (ofList eof nil before).Rest eof l l := by
  induction l with
  | nil => exact .eof rfl
  | cons e l ih =>
    exact .step rfl (h e mem_cons_self) (ih (forall_mem_cons.mp h).2)

/-- **What a cursor over a list returns.** -/
theorem scan_ofList (seek : κ) (h : ∀ e ∈ l, e.1 ≠ eof) :
    (ofList eof nil before).Scan eof seek l (l.dropWhile (fun e => before e.1 seek)) :=
  .of_rest rfl (rest_ofList nil before
    (fun e he => h e ((dropWhile_suffix _).subset he)))

end KeyedCursor

end AndyEnv
