import AndyEnv.Lib.Bytes

/-!
# Text with escapes

A backslash takes the byte after it along, whatever that byte is. `scan` reads
up to the first byte that stops it and is not escaped, and a text is `Closed`
if it has no such byte and does not end in the middle of an escape.
-/

namespace AndyEnv

namespace Escape

def backslash : UInt8 := 92

/-- The text up to the first byte that stops, and what follows it. If `skip` is
set, the first byte is escaped. -/
def scan (stop : UInt8 → Bool) (skip : Bool) : Bytes → Bytes × Bytes
  | [] => ([], [])
  | c :: rest =>
    if !skip && c != backslash && stop c then ([], c :: rest)
    else
      let p := scan stop (!skip && c == backslash) rest
      (c :: p.1, p.2)

/-- No byte stops, and no escape is left open. -/
def Closed (stop : UInt8 → Bool) (skip : Bool) : Bytes → Bool
  | [] => !skip
  | c :: rest =>
    if !skip && c != backslash && stop c then false
    else Closed stop (!skip && c == backslash) rest

variable {stop : UInt8 → Bool}

variable {skip : Bool} {c : UInt8} {rest : Bytes}

@[simp] theorem closed_nil : Closed stop skip [] = !skip := rfl

@[simp] theorem closed_cons : Closed stop skip (c :: rest) =
      (!(!skip && c != backslash && stop c) && Closed stop (!skip && c == backslash) rest) := by
  rw [Closed]
  split
  · rename_i h
    rw [h]
    rfl
  · rename_i h
    rw [Bool.not_eq_true] at h
    rw [h]
    rfl

/-- A closed text is read whole, up to a byte that stops. -/
theorem scan_append (hrest : ∀ c ∈ rest.head?, c ≠ backslash ∧ stop c = true) :
    ∀ {s : Bytes} {skip : Bool}, Closed stop skip s = true → scan stop skip (s ++ rest) = (s, rest)
  | [], skip, h => by
    have hskip : skip = false := by simpa using h
    cases rest with
    | nil => rfl
    | cons c rest =>
      have hc := hrest c rfl
      rw [List.nil_append, scan, if_pos (by simp [hskip, hc])]
  | c :: s, skip, h => by
    rw [closed_cons, Bool.and_eq_true, Bool.not_eq_true'] at h
    rw [List.cons_append, scan, if_neg (by simp [h.1]), scan_append hrest h.2]

theorem Closed.mono {stop' : UInt8 → Bool} (hle : ∀ c, stop' c = true → stop c = true) :
    ∀ {s : Bytes} {skip : Bool}, Closed stop skip s = true → Closed stop' skip s = true
  | [], _, h => h
  | c :: s, skip, h => by
    rw [closed_cons, Bool.and_eq_true, Bool.not_eq_true'] at h ⊢
    refine ⟨?_, Closed.mono hle h.2⟩
    cases hstop : stop' c
    · rw [Bool.and_false]
    · rw [← h.1, hle c hstop]

theorem Closed.append {s' : Bytes} (h' : Closed stop false s' = true) :
    ∀ {s : Bytes} {skip : Bool}, Closed stop skip s = true → Closed stop skip (s ++ s') = true
  | [], skip, h => by
    have hskip : skip = false := by simpa using h
    rwa [hskip]
  | c :: s, skip, h => by
    rw [closed_cons, Bool.and_eq_true] at h
    rw [List.cons_append, closed_cons, Bool.and_eq_true]
    exact ⟨h.1, Closed.append h' h.2⟩

theorem Closed.head {s : Bytes} (h : Closed stop false (c :: s) = true)
    (hc : c ≠ backslash) : stop c = false := by
  rw [closed_cons, Bool.and_eq_true] at h
  simpa [hc] using h.1

end Escape

end AndyEnv
