import AndyEnv.Tsdb.Cursor

/-!
# The seek cache of a tags cursor

`TagsCursor` keeps the last key it was sought to and what that gave. A later key that the answer
still satisfies gets the same answer, and the cursor below is not moved.
-/

namespace AndyEnv.Tsdb

open List KeyedCursor

inductive Call : Type where
  | seekTo (seek : Int64)
  | next

variable {σ α : Type} (c : KeyedCursor σ Int64 α) (nil : α)

/-- What a sequence of calls returns. -/
def outputs : List Call → σ → Option (List (Int64 × α))
  | [], _ => some []
  | .seekTo seek :: ks, s => (c.seekTo seek s).bind fun r => (outputs ks r.2).map (r.1 :: ·)
  | .next :: ks, s => (c.next s).bind fun r => (outputs ks r.2).map (r.1 :: ·)

structure TagsCursor (σ α : Type) : Type where
  cursor : σ
  seek : Int64
  buf : Int64 × α

/-- `NewTagsCursor`. -/
def newTagsCursor (s : σ) : TagsCursor σ α := ⟨s, EOF, 0, nil⟩

/-- `TagsCursor.SeekTo` and `TagsCursor.Next`. -/
def tagsCursor : KeyedCursor (TagsCursor σ α) Int64 α where
  seekTo seek t :=
    if t.seek ≠ -1 ∧ t.seek < seek ∧ (t.buf.1 = EOF ∨ t.buf.1 ≥ seek) then some (t.buf, t)
    else (c.seekTo seek t.cursor).map fun r => (r.1, ⟨r.2, seek, r.1⟩)
  next t := (c.next t.cursor).map fun r => (r.1, ⟨r.2, -1, 0, nil⟩)

variable (es : List (Int64 × α)) (Ahead : List (Int64 × α) → σ → Prop)

/-- The entries from the first key that is not below `seek`. -/
def atLeast (seek : Int64) : List (Int64 × α) := es.dropWhile (fun e => e.1 < seek)

/-- What a call returns that moves a cursor to the entries `l`. -/
def MovesTo (l : List (Int64 × α)) (r : Option ((Int64 × α) × σ)) : Prop :=
  ∃ s, r = some ((pop EOF nil l).1, s) ∧ Ahead (pop EOF nil l).2 s

/-- A cursor over the entries `es`; `Ahead` says which of them it has still to return. -/
structure Over : Prop where
  ne_eof : ∀ e ∈ es, e.1 ≠ EOF
  seekTo : ∀ rest s, Ahead rest s → ∀ seek, MovesTo nil Ahead (atLeast es seek) (c.seekTo seek s)
  next : ∀ rest s, Ahead rest s → MovesTo nil Ahead rest (c.next s)

/-- The two cursors have the same entries ahead, and the cache has the answer for its key. -/
def Cached (t : TagsCursor σ α) (s : σ) : Prop :=
  ∃ rest, Ahead rest t.cursor ∧ Ahead rest s ∧
    (t.seek ≠ -1 → (t.buf, rest) = pop EOF nil (atLeast es t.seek))

variable {c nil es Ahead}

/-- The answer for an earlier key that is not below `seek` is the answer for `seek`. -/
theorem atLeast_eq (hes : ∀ e ∈ es, e.1 ≠ EOF) {cached seek : Int64} {e : Int64 × α}
    {rest : List (Int64 × α)} (hpop : (e, rest) = pop EOF nil (atLeast es cached))
    (hlt : cached < seek) (hbuf : e.1 = EOF ∨ e.1 ≥ seek) :
    atLeast es seek = atLeast es cached := by
  induction es with
  | nil => simp only [atLeast, dropWhile_nil]
  | cons x es ih =>
    obtain ⟨hx, hes⟩ := forall_mem_cons.mp hes
    simp only [atLeast, dropWhile_cons, decide_eq_true_eq] at hpop ih ⊢
    split_ifs at hpop with hcached
    · rw [if_pos (Int64.lt_trans hcached hlt), if_pos hcached]
      exact ih hes hpop
    · obtain ⟨rfl, -⟩ := Prod.mk.inj hpop
      rw [if_neg (Int64.not_lt.mpr (hbuf.resolve_left hx)), if_neg hcached]

/-- **The seek cache is invisible**: a sequence of calls returns what it returns on the cursor. -/
theorem outputs_tagsCursor (hc : Over c nil es Ahead) {rest : List (Int64 × α)} {s : σ}
    (hs : Ahead rest s) (calls : List Call) :
    outputs (tagsCursor c nil) calls (newTagsCursor nil s) = outputs c calls s := by
  have hrun : ∀ t s, Cached nil es Ahead t s →
      outputs (tagsCursor c nil) calls t = outputs c calls s := by
    induction calls with
    | nil => exact fun _ _ _ => rfl
    | cons k ks ih =>
      rintro t s ⟨rest, ht, hs, hbuf⟩
      cases k with
      | next =>
        obtain ⟨t', htnext, ht'⟩ := hc.next rest _ ht
        obtain ⟨s', hsnext, hs'⟩ := hc.next rest s hs
        have htail := ih ⟨t', -1, 0, nil⟩ s' ⟨_, ht', hs', absurd rfl⟩
        simp only [outputs, tagsCursor, htnext, hsnext, Option.map_some, Option.bind_some]
        exact congrArg (Option.map _) htail
      | seekTo seek =>
        obtain ⟨s', hsseek, hs'⟩ := hc.seekTo rest s hs seek
        simp only [outputs, tagsCursor, hsseek, Option.bind_some]
        split_ifs with hhit
        · have hpop := hbuf hhit.1
          rw [atLeast_eq hc.ne_eof hpop hhit.2.1 hhit.2.2, ← hpop] at hs' ⊢
          exact congrArg (Option.map _) (ih t s' ⟨rest, ht, hs', hbuf⟩)
        · obtain ⟨t', htseek, ht'⟩ := hc.seekTo rest _ ht seek
          rw [htseek]
          exact congrArg (Option.map _) (ih _ s' ⟨_, ht', hs', fun _ => rfl⟩)
  exact hrun _ s ⟨rest, hs, hs, absurd rfl⟩

theorem outputs_tagsCursor_three : outputs (tagsCursor ⟨fun seek _ => some
      (pop EOF 0 (atLeast [(1, 5), (4, 7)] seek)), fun rest => some (pop EOF 0 rest)⟩ 0)
    [.seekTo 2, .seekTo 3, .next] (newTagsCursor 0 []) = some [(4, 7), (4, 7), (EOF, 0)] :=
  have hc : Over _ 0 [(1, 5), (4, 7)] Eq :=
    ⟨by decide, fun _ _ _ _ => ⟨_, rfl, rfl⟩, fun _ _ h => h ▸ ⟨_, rfl, rfl⟩⟩
  outputs_tagsCursor hc rfl _

end AndyEnv.Tsdb
