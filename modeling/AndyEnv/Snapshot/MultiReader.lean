import AndyEnv.Lib.Bytes
import AndyEnv.Lib.Except
import AndyEnv.Lib.Maps
import AndyEnv.Snapshot.Manifest

/-!
# Reading a base snapshot with its increments (`snapshot.go`)

A snapshot is a tar archive: the manifest, and then the files in the order of the manifest. A
`Reader` goes through an archive once. A `MultiReader` has one reader per snapshot, each with
the file it stands at, and returns the files of the combined manifest one after the other, each
from the snapshot that has this version of it.

The archive is the list of its entries; what is left of the entry a reader stands at is read
before the reader moves on.
-/

namespace AndyEnv.Snapshot

open Keyed
open List

variable {ls : List Files} {slots : List Slot}

structure Archive : Type where
  manifest : List File
  entries : List (String × Bytes)
deriving DecidableEq

/-! ## Writing -/

/-- A `Writer`: what the file writer of a name writes. -/
structure Writer : Type where
  manifest : List File
  fileWriters : String → Option Bytes

inductive WriteError : Type
  | fileWriterNotFound (name : String)
  | write (name : String)
  | shortWrite (name : String)
deriving DecidableEq, Repr

namespace Writer

def writeFileTo (sw : Writer) (f : File) : Except WriteError (String × Bytes) :=
  match sw.fileWriters f.name with
  | none => .error (.fileWriterNotFound f.name)
  | some contents =>
    -- the archive takes as many bytes as the header says
    if f.size < contents.length then .error (.write f.name)
    else if contents.length ≠ f.size then .error (.shortWrite f.name)
    else .ok (f.name, contents)

def writeTo (sw : Writer) : Except WriteError Archive :=
  let files := sortFiles sw.manifest
  (files.mapM sw.writeFileTo).map (fun entries => ⟨files, entries⟩)

end Writer

/-! ## Reading -/

inductive ReadError : Type
  | notInManifest (name : String)
  | notInReaders (name : String)
deriving DecidableEq, Repr

structure Reader : Type where
  manifest : List File
  /-- What follows in the archive. -/
  entries : List (String × Bytes)
  /-- What can be read of the current entry. -/
  current : Bytes

/-- A reader of a `MultiReader`, and its file: the header that it has read ahead. -/
structure Slot : Type where
  reader : Reader
  file : Option File

namespace Reader

def new (a : Archive) : Reader := ⟨a.manifest, a.entries, []⟩

/-- `Next`; `none` at the end of the archive. -/
def next (sr : Reader) : Except ReadError (Option File × Reader) :=
  match sr.entries with
  | [] => .ok (none, { sr with current := [] })
  | (name, contents) :: entries =>
    match sr.manifest.find? (fun f => f.name == name) with
    | some f => .ok (some f, ⟨sr.manifest, entries, contents⟩)
    | none => .error (.notInManifest name)

end Reader

namespace Slot

/-- A turn of the loop of `nextFiles`. -/
def advance (s : Slot) : Except ReadError Slot :=
  match s.file with
  | some _ => .ok s
  | none => s.reader.next.map (fun r => ⟨r.2, r.1⟩)

/-- The file is over, if it is the one that is returned. -/
def clear (sf : File) (s : Slot) : Slot :=
  match s.file with
  | some f => if f.name = sf.name then { s with file := none } else s
  | none => s

end Slot

structure MultiReader : Type where
  slots : List Slot
  /-- The combined manifest after the last file that was returned. -/
  left : List File
  curr : Option Reader

namespace MultiReader

/-- `NewMultiReader`, with the combined manifest. -/
def new (archives : List Archive) : MultiReader :=
  ⟨archives.map (fun a => ⟨Reader.new a, none⟩), Manifest.mergeAll (archives.map Archive.manifest), none⟩

/-- `Next`; `none` at the end. -/
def next (ssr : MultiReader) : Except ReadError (Option File × MultiReader) :=
  match ssr.left with
  | [] => .ok (none, { ssr with curr := none })
  | sf :: left =>
    (ssr.slots.mapM Slot.advance).bind (fun slots =>
      match slots.find? (fun s => s.file == some sf) with
      | none => .error (.notInReaders sf.name)
      | some s => .ok (some sf, ⟨slots.map (Slot.clear sf), left, some s.reader⟩))

/-- What `Read` delivers until it returns `io.EOF`. -/
def read (ssr : MultiReader) : Bytes := (ssr.curr.map Reader.current).getD []

/-- `Next` until `io.EOF`, with the contents of each file; `none` if there is an error or the fuel does
not suffice. -/
def drain : ℕ → MultiReader → Option (List (File × Bytes))
  | 0, _ => none
  | fuel + 1, ssr =>
    match ssr.next with
    | .error _ => none
    | .ok (none, _) => some []
    | .ok (some f, ssr) => (drain fuel ssr).map ((f, ssr.read) :: ·)

end MultiReader

/-! ## What the readers still have -/

/-- The files of an archive, or of a part of it, with their contents. -/
abbrev Files := List (File × Bytes)

def nameOf (p : File × Bytes) : String := p.1.name

namespace Slot

def Pending (s : Slot) (l : Files) : Prop :=
  ∃ rest : Files, s.reader.entries = rest.map (fun p => (p.1.name, p.2)) ∧
    (∀ p ∈ rest, s.reader.manifest.find? (fun f => f.name == p.1.name) = some p.1) ∧
    l = (s.file.map (fun f => (f, s.reader.current))).toList ++ rest

/-- The reader stands at the first of its files. -/
def Ready (s : Slot) (l : Files) : Prop :=
  s.Pending l ∧ l.head? = s.file.map (fun f => (f, s.reader.current))

variable {s : Slot} {l : Files}

theorem advance_of_pending (h : s.Pending l) : ∃ s', s.advance = .ok s' ∧ s'.Ready l := by
  rcases s with ⟨⟨manifest, entries, current⟩, _ | f⟩
  · obtain ⟨_, hentries, hfind, rfl⟩ := h
    cases l with
    | nil =>
      obtain rfl : entries = [] := hentries
      exact ⟨_, rfl, ⟨[], rfl, fun p hp => (nomatch hp), rfl⟩, rfl⟩
    | cons p rest =>
      obtain rfl : entries = (p.1.name, p.2) :: rest.map (fun p => (p.1.name, p.2)) := hentries
      have hp := hfind p mem_cons_self
      dsimp only at hp
      refine ⟨⟨⟨manifest, rest.map (fun p => (p.1.name, p.2)), p.2⟩, some p.1⟩, ?_, ⟨rest, rfl, ?_, rfl⟩, rfl⟩
      · rw [advance]
        dsimp only
        rw [Reader.next]
        dsimp only
        rw [hp]
        rfl
      · exact fun q hq => hfind q (mem_cons_of_mem _ hq)
  · refine ⟨_, rfl, h, ?_⟩
    obtain ⟨rest, -, -, rfl⟩ := h
    rfl

theorem pending_clear {sf : File} (h : s.Ready l) (hasc : Ascending nameOf l)
    (hmin : ∀ p ∈ l, sf.name ≤ p.1.name) :
    (s.clear sf).Pending (l.filter (fun p => p.1.name ≠ sf.name)) := by
  obtain ⟨hpending, hhead⟩ := h
  rcases s with ⟨reader, _ | f⟩
  · have hnil : l = [] := List.head?_eq_none_iff.mp hhead
    subst hnil
    exact hpending
  obtain ⟨rest, hentries, hfind, rfl⟩ := hpending
  have hrest := (ascending_cons.mp hasc).1
  have hlater : ∀ p ∈ rest, sf.name < p.1.name :=
    fun p hp => (hmin _ mem_cons_self).trans_lt (hrest p hp)
  have hkeep : rest.filter (fun p => p.1.name ≠ sf.name) = rest :=
    filter_eq_self.mpr (fun p hp => decide_eq_true (hlater p hp).ne')
  show (clear sf ⟨reader, some f⟩).Pending (((f, reader.current) :: rest).filter _)
  unfold clear
  dsimp only
  by_cases hname : f.name = sf.name
  · rw [if_pos hname, filter_cons_of_neg (by simpa using hname), hkeep]
    exact ⟨rest, hentries, hfind, rfl⟩
  · rw [if_neg hname, filter_cons_of_pos (by simpa using hname), hkeep]
    exact ⟨rest, hentries, hfind, rfl⟩

end Slot

/-- The contents of the first of the lists that has the file. -/
def FirstIn (ls : List Files) (p : File × Bytes) : Prop :=
  ∃ pre l post, ls = pre ++ l :: post ∧ p ∈ l ∧ ∀ l' ∈ pre, ∀ c, (p.1, c) ∉ l'

theorem mapM_advance (h : List.Forall₂ Slot.Pending slots ls) :
    ∃ slots', slots.mapM Slot.advance = .ok slots' ∧ List.Forall₂ Slot.Ready slots' ls := by
  induction h with
  | nil => exact ⟨[], rfl, .nil⟩
  | cons hs _ ih =>
    obtain ⟨s', hs', hready⟩ := Slot.advance_of_pending hs
    obtain ⟨slots', hslots', hready'⟩ := ih
    refine ⟨s' :: slots', ?_, .cons hready hready'⟩
    rw [mapM_cons, hs', hslots']
    rfl

variable {sf : File} {sw : Writer} {a : Archive}

/-- **The reader that is chosen** is the first that has the file. -/
theorem find?_of_ready (h : List.Forall₂ Slot.Ready slots ls)
    (hasc : ∀ l ∈ ls, Ascending nameOf l) (hmin : ∀ l ∈ ls, ∀ p ∈ l, sf.name ≤ p.1.name)
    (hsome : ∃ l ∈ ls, ∃ c, (sf, c) ∈ l) :
    ∃ s, slots.find? (fun s => s.file == some sf) = some s ∧ FirstIn ls (sf, s.reader.current) := by
  induction h with
  | nil =>
    obtain ⟨l, hl, -⟩ := hsome
    exact (nomatch hl)
  | @cons s l slots ls hs _ ih =>
    by_cases hfile : s.file = some sf
    · refine ⟨s, List.find?_cons_of_pos (by rw [hfile]; exact BEq.refl _), [], l, ls, rfl, ?_, fun l' hl' => (nomatch hl')⟩
      have hhead := hs.2
      rw [hfile] at hhead
      exact mem_of_head? hhead
    have hnot : ∀ c, (sf, c) ∉ l := by
      intro c hc
      rcases l with _ | ⟨p, l⟩
      · exact (nomatch hc)
      rcases mem_cons.mp hc with rfl | hc
      · obtain ⟨f, hf, hfc⟩ := Option.map_eq_some_iff.mp hs.2.symm
        exact hfile (hf.trans (congrArg some (Prod.mk.inj hfc).1))
      · have hlt := (ascending_cons.mp (hasc _ mem_cons_self)).1 _ hc
        exact absurd (hmin _ mem_cons_self p mem_cons_self) (not_le.mpr hlt)
    obtain ⟨l', hl', c, hc⟩ := hsome
    have hl' : l' ∈ ls := (mem_cons.mp hl').resolve_left (fun heq => hnot c (heq ▸ hc))
    obtain ⟨s', hs', pre, l'', post, rfl, hmem, hpre⟩ := ih (forall_mem_cons.mp hasc).2
      (forall_mem_cons.mp hmin).2 ⟨l', hl', c, hc⟩
    refine ⟨s', ?_, l :: pre, l'', post, rfl, hmem, forall_mem_cons.mpr ⟨hnot, hpre⟩⟩
    rw [List.find?_cons_of_neg (by simpa using hfile), hs']

/-- **One call of `Next`** returns the first file that is left, with the contents of the first reader that
has it, and no reader has a file of that name any more. -/
theorem next_spec {left : List File} {curr : Option Reader}
    (h : List.Forall₂ Slot.Pending slots ls) (hasc : ∀ l ∈ ls, Ascending nameOf l)
    (hmin : ∀ l ∈ ls, ∀ p ∈ l, sf.name ≤ p.1.name) (hsome : ∃ l ∈ ls, ∃ c, (sf, c) ∈ l) :
    ∃ slots' reader, MultiReader.next ⟨slots, sf :: left, curr⟩ = .ok (some sf, ⟨slots', left, some reader⟩) ∧
      FirstIn ls (sf, reader.current) ∧
      List.Forall₂ Slot.Pending slots' (ls.map (fun l => l.filter (fun p => p.1.name ≠ sf.name))) := by
  obtain ⟨slots', hslots', hready⟩ := mapM_advance h
  obtain ⟨s, hs, hfirst⟩ := find?_of_ready hready hasc hmin hsome
  refine ⟨slots'.map (Slot.clear sf), s.reader, ?_, hfirst, ?_⟩
  · rw [MultiReader.next]
    dsimp only
    rw [hslots']
    show (match slots'.find? (fun s => s.file == some sf) with | none => _ | some s => _) = _
    rw [hs]
  · clear hs hfirst hslots' h hsome
    induction hready with
    | nil => exact .nil
    | cons hs _ ih =>
      refine .cons (Slot.pending_clear hs (hasc _ mem_cons_self) (hmin _ mem_cons_self)) ?_
      exact ih (forall_mem_cons.mp hasc).2 (forall_mem_cons.mp hmin).2

theorem FirstIn.of_filter {q : File × Bytes} {name : String}
    (h : FirstIn (ls.map (fun l => l.filter (fun p => p.1.name ≠ name))) q) : FirstIn ls q := by
  obtain ⟨pre, l, post, hls, hq, hpre⟩ := h
  obtain ⟨pre', rest, rfl, rfl, hrest⟩ := map_eq_append_iff.mp hls
  obtain ⟨l', post', rfl, rfl, rfl⟩ := map_eq_cons_iff.mp hrest
  have hq' := mem_filter.mp hq
  refine ⟨pre', l', post', rfl, hq'.1, fun k hk c hc => ?_⟩
  refine hpre _ (mem_map_of_mem hk) c (mem_filter.mpr ⟨hc, ?_⟩)
  simpa using hq'.2

/-- **`Next` until the end** returns all files that are left, in this order. -/
theorem drain_spec : ∀ (left : List File) {ls : List Files} {slots : List Slot} {curr : Option Reader},
    Ascending File.name left → List.Forall₂ Slot.Pending slots ls → (∀ l ∈ ls, Ascending nameOf l) →
    (∀ l ∈ ls, ∀ p ∈ l, ∃ f ∈ left, f.name = p.1.name) → (∀ f ∈ left, ∃ l ∈ ls, ∃ c, (f, c) ∈ l) →
    ∃ outputs, MultiReader.drain (left.length + 1) ⟨slots, left, curr⟩ = some outputs ∧
      outputs.map Prod.fst = left ∧ ∀ q ∈ outputs, FirstIn ls q
  | [], _, _, _, _, _, _, _, _ => ⟨[], rfl, rfl, fun q hq => (nomatch hq)⟩
  | sf :: left, ls, slots, curr, hleft, hslots, hasc, hnames, hfiles => by
    obtain ⟨hlt, hleft'⟩ := ascending_cons.mp hleft
    have hmin : ∀ l ∈ ls, ∀ p ∈ l, sf.name ≤ p.1.name := by
      intro l hl p hp
      obtain ⟨f, hf, hname⟩ := hnames l hl p hp
      rcases mem_cons.mp hf with rfl | hf
      · exact hname.le
      · exact hname ▸ (hlt f hf).le
    obtain ⟨slots', reader, hnext, hfirst, hpending⟩ := @next_spec ls slots sf left curr hslots hasc hmin
      (hfiles sf mem_cons_self)
    obtain ⟨outputs, hdrain, hmap, hall⟩ := @drain_spec left _ _ (some reader) hleft' hpending
      (by
        intro _ hmem
        obtain ⟨l, hl, rfl⟩ := mem_map.mp hmem
        exact (hasc l hl).sublist filter_sublist)
      (by
        intro _ hmem p hp
        obtain ⟨l, hl, rfl⟩ := mem_map.mp hmem
        obtain ⟨hp, hne⟩ := mem_filter.mp hp
        obtain ⟨f, hf, hname⟩ := hnames l hl p hp
        rcases mem_cons.mp hf with rfl | hf
        · exact absurd hname.symm (of_decide_eq_true hne)
        · exact ⟨f, hf, hname⟩)
      (by
        intro f hf
        obtain ⟨l, hl, c, hc⟩ := hfiles f (mem_cons_of_mem _ hf)
        exact ⟨_, mem_map_of_mem hl, c, mem_filter.mpr ⟨hc, decide_eq_true (hlt f hf).ne'⟩⟩)
    refine ⟨(sf, reader.current) :: outputs, ?_, by rw [map_cons, hmap], ?_⟩
    · rw [length_cons, MultiReader.drain, hnext]
      dsimp only
      rw [hdrain]
      rfl
    · exact forall_mem_cons.mpr ⟨hfirst, fun q hq => (hall q hq).of_filter⟩

/-! ## Restoring -/

/-- The archive was written from a manifest with distinct names. -/
def Written (a : Archive) : Prop := ∃ sw : Writer, Manifest.Distinct sw.manifest ∧ sw.writeTo = .ok a

def Archive.Of (a : Archive) (l : Files) : Prop :=
  Ascending nameOf l ∧ a.manifest = l.map Prod.fst ∧ a.entries = l.map (fun p => (p.1.name, p.2))

theorem name_of_writeFileTo {f : File} {entry : String × Bytes}
    (h : sw.writeFileTo f = .ok entry) : entry.1 = f.name := by
  unfold Writer.writeFileTo at h
  split at h
  · exact (nomatch h)
  split at h
  · exact (nomatch h)
  · split at h
    · exact (nomatch h)
    · rw [← Except.ok.inj h]

theorem exists_of_mapM : ∀ {files : List File} {entries : List (String × Bytes)},
    files.mapM sw.writeFileTo = .ok entries →
    ∃ l : Files, files = l.map Prod.fst ∧ entries = l.map (fun p => (p.1.name, p.2))
  | [], entries, h => ⟨[], rfl, (Except.ok.inj h).symm⟩
  | f :: files, entries, h => by
    rw [mapM_cons] at h
    obtain ⟨entry, hf, h⟩ := except_bind_eq_ok.mp h
    obtain ⟨rest, hrest, h⟩ := except_bind_eq_ok.mp h
    obtain rfl : entry :: rest = entries := Except.ok.inj h
    obtain ⟨l, rfl, rfl⟩ := exists_of_mapM hrest
    exact ⟨(f, entry.2) :: l, rfl, by rw [map_cons, ← name_of_writeFileTo hf]⟩

theorem Written.exists_files (h : Written a) : ∃ l, a.Of l := by
  obtain ⟨sw, hdistinct, hwrite⟩ := h
  obtain ⟨entries, hentries, rfl⟩ := except_map_eq_ok.mp hwrite
  obtain ⟨l, hl, hentries'⟩ := exists_of_mapM hentries
  have hasc := Manifest.ascending_sortFiles hdistinct
  rw [hl] at hasc
  exact ⟨l, (pairwise_map (f := Prod.fst)).mp hasc, hl, hentries'⟩

theorem Archive.Of.pending {l : Files} (h : a.Of l) : Slot.Pending ⟨Reader.new a, none⟩ l := by
  obtain ⟨hasc, hmanifest, hentries⟩ := h
  refine ⟨l, hentries, fun p hp => ?_, rfl⟩
  have hdistinct : Manifest.Distinct (l.map Prod.fst) :=
    Manifest.distinct_of_ascending (pairwise_map.mpr hasc)
  show a.manifest.find? _ = _
  rw [hmanifest]
  exact find?_key_of_mem hdistinct (mem_map_of_mem hp)

/-- **What should be restored**: the names ascend, every file of a snapshot is there, and of each the version
that is to be restored, with its contents in that snapshot. -/
structure Restores (archives : List Archive) (outputs : Files) : Prop where
  ascending : Ascending nameOf outputs
  complete : ∀ a ∈ archives, ∀ f ∈ a.manifest, ∃ q ∈ outputs, q.1.name = f.name
  newest : ∀ q ∈ outputs, ∃ pre a post, archives = pre ++ a :: post ∧
    q.1 ∈ a.manifest ∧ (q.1.name, q.2) ∈ a.entries ∧
    (∀ b ∈ pre, ∀ g ∈ b.manifest, g.name = q.1.name → g.modTime < q.1.modTime) ∧
    ∀ b ∈ post, ∀ g ∈ b.manifest, g.name = q.1.name → g.modTime ≤ q.1.modTime

theorem eq_of_first {α : Type} {P : α → Prop} {a a' : α} : ∀ {pre pre' post post' : List α},
    pre ++ a :: post = pre' ++ a' :: post' → (∀ x ∈ pre, ¬P x) → P a → (∀ x ∈ pre', ¬P x) → P a' →
    pre = pre' ∧ a = a' ∧ post = post'
  | [], [], _, _, h, _, _, _, _ => ⟨rfl, List.cons.inj h⟩
  | [], x :: _, _, _, h, _, ha, hpre', _ => absurd ((List.cons.inj h).1 ▸ ha) (hpre' x mem_cons_self)
  | x :: _, [], _, _, h, hpre, _, _, ha' => absurd ((List.cons.inj h).1 ▸ ha') (hpre x mem_cons_self)
  | x :: pre, x' :: pre', post, post', h, hpre, ha, hpre', ha' => by
    obtain ⟨rfl, htail⟩ := List.cons.inj h
    obtain ⟨rfl, rfl, rfl⟩ := eq_of_first htail (forall_mem_cons.mp hpre).2 ha
      (forall_mem_cons.mp hpre').2 ha'
    exact ⟨rfl, rfl, rfl⟩

/-- **A restore from snapshots written by `Writer` returns every file once**, in ascending order of the
names, and reads of each the newest version. -/
theorem drain_restores (archives : List Archive) (h : ∀ a ∈ archives, Written a) :
    ∃ fuel outputs, (MultiReader.new archives).drain fuel = some outputs ∧ Restores archives outputs := by
  choose! L hL using fun a ha => (h a ha).exists_files
  have hmem : ∀ a ∈ archives, ∀ f, f ∈ a.manifest ↔ ∃ c, (f, c) ∈ L a := by
    intro a ha f
    rw [(hL a ha).2.1, mem_map]
    exact ⟨fun ⟨p, hp, hf⟩ => ⟨p.2, hf ▸ hp⟩, fun ⟨c, hc⟩ => ⟨(f, c), hc, rfl⟩⟩
  have hdistinct : ∀ m ∈ archives.map Archive.manifest, Manifest.Distinct m := by
    intro m hm
    obtain ⟨a, ha, rfl⟩ := mem_map.mp hm
    rw [(hL a ha).2.1]
    exact Manifest.distinct_of_ascending (pairwise_map.mpr (hL a ha).1)
  obtain ⟨hasc, hnewest, hmax⟩ := Manifest.mergeAll_spec _ hdistinct
  have hpending : List.Forall₂ Slot.Pending (archives.map (fun a => ⟨Reader.new a, none⟩)) (archives.map L) := by
    rw [forall₂_map_left_iff, forall₂_map_right_iff, forall₂_same]
    exact fun a ha => (hL a ha).pending
  obtain ⟨outputs, hdrain, hmap, hfirst⟩ := @drain_spec _ _ _ none hasc hpending
    (by
      intro _ hmem'
      obtain ⟨a, ha, rfl⟩ := mem_map.mp hmem'
      exact (hL a ha).1)
    (by
      intro _ hmem' p hp
      obtain ⟨a, ha, rfl⟩ := mem_map.mp hmem'
      obtain ⟨f, hf, hname, -⟩ := hmax _ (mem_map_of_mem ha) p.1 ((hmem a ha p.1).mpr ⟨p.2, hp⟩)
      exact ⟨f, hf, hname⟩)
    (by
      intro f hf
      obtain ⟨pre, m, post, hms, hfm, -⟩ := (hnewest f).mp hf
      obtain ⟨a, ha, rfl⟩ := mem_map.mp (hms ▸ mem_append_right pre mem_cons_self)
      obtain ⟨c, hc⟩ := (hmem a ha f).mp hfm
      exact ⟨_, mem_map_of_mem ha, c, hc⟩)
  refine ⟨_, outputs, hdrain, ?_, ?_, ?_⟩
  · rw [← hmap] at hasc
    exact (pairwise_map (f := Prod.fst)).mp hasc
  · intro a ha f hf
    obtain ⟨f', hf', hname, -⟩ := hmax _ (mem_map_of_mem ha) f hf
    rw [← hmap] at hf'
    obtain ⟨q, hq, rfl⟩ := mem_map.mp hf'
    exact ⟨q, hq, hname⟩
  · intro q hq
    obtain ⟨pre, l, post, hls, hql, hpre⟩ := hfirst q hq
    obtain ⟨pre, rest, rfl, rfl, hrest⟩ := map_eq_append_iff.mp hls
    obtain ⟨a, post, rfl, rfl, rfl⟩ := map_eq_cons_iff.mp hrest
    obtain ⟨pre', m, post', hms, hqm, hpre', hpost'⟩ := (hnewest q.1).mp (hmap ▸ mem_map_of_mem hq)
    have ha : a ∈ pre ++ a :: post := mem_append_right _ mem_cons_self
    have hqa : q.1 ∈ a.manifest := (hmem a ha q.1).mpr ⟨q.2, hql⟩
    rw [map_append, map_cons] at hms
    obtain ⟨rfl, rfl, rfl⟩ := eq_of_first (P := fun m => q.1 ∈ m) hms
      (by
        intro _ hmem' hq'
        obtain ⟨b, hb, rfl⟩ := mem_map.mp hmem'
        obtain ⟨c, hc⟩ := (hmem b (mem_append_left _ hb) q.1).mp hq'
        exact hpre _ (mem_map_of_mem hb) c hc)
      hqa (fun m' hm' hq' => lt_irrefl _ (hpre' m' hm' q.1 hq' rfl)) hqm
    refine ⟨pre, a, post, rfl, hqa, ?_, ?_, ?_⟩
    · rw [(hL a ha).2.2]
      exact mem_map_of_mem (f := fun p => (p.1.name, p.2)) hql
    · exact fun b hb => hpre' _ (mem_map_of_mem hb)
    · exact fun b hb => hpost' _ (mem_map_of_mem hb)

/-- A base snapshot with two files, and an increment with a newer version of one of them. -/
theorem drain_restores_two :
    ∃ fuel outputs, (MultiReader.new [⟨[⟨"a", 1, 1⟩, ⟨"b", 1, 1⟩], [("a", [1]), ("b", [1])]⟩,
        ⟨[⟨"b", 1, 2⟩], [("b", [2])]⟩]).drain fuel = some outputs ∧
      Restores [⟨[⟨"a", 1, 1⟩, ⟨"b", 1, 1⟩], [("a", [1]), ("b", [1])]⟩, ⟨[⟨"b", 1, 2⟩], [("b", [2])]⟩] outputs := by
  refine drain_restores _ (forall_mem_cons.mpr ⟨?_, forall_mem_singleton.mpr ?_⟩)
  · exact ⟨⟨[⟨"a", 1, 1⟩, ⟨"b", 1, 1⟩], fun _ => some [1]⟩, by unfold Manifest.Distinct; decide, by rfl⟩
  · exact ⟨⟨[⟨"b", 1, 2⟩], fun _ => some [2]⟩, by unfold Manifest.Distinct; decide, by rfl⟩

end AndyEnv.Snapshot
