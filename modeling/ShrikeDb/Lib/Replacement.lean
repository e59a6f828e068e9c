import Mathlib.Data.List.Basic
import Mathlib.Logic.Function.Basic

/-! A file that is replaced as a whole: the new content is written under a second name, piece
by piece, and the file is renamed when it is complete. A name stands for a file by number, so
a writer goes on with the file it has opened whatever becomes of its name. As long as no two
writers are at work, the published file is complete at every moment, wherever they stop. -/

namespace Replacement

open Function

/-- The files, and which of them the two names stand for. -/
structure Files (β : Type) where
  content : Nat → List β
  target : Option Nat
  draft : Option Nat
  next : Nat
  target_lt : ∀ i, target = some i → i < next
  draft_lt : ∀ i, draft = some i → i < next
  apart : ∀ i, target = some i → draft ≠ some i

/-- An open file, where its writer is in it, and what is still to be written. -/
structure Writer (β : Type) where
  file : Nat
  offset : Nat
  rest : List β

structure Disk (C β : Type) extends Files β where
  writers : C → Option (Writer β)

variable {C β : Type}

/-- Bytes written at an offset; a gap before it is filled. -/
def overwrite (gap : β) (old : List β) (offset : Nat) (data : List β) : List β :=
  old.take offset ++ List.replicate (offset - old.length) gap ++ data ++
  old.drop (offset + data.length)

theorem overwrite_end (gap : β) (old data : List β) :
    overwrite gap old old.length data = old ++ data := by
  simp [overwrite]

namespace Files

variable (f : Files β)

theorem file_lt : f.draft.getD f.next < max f.next (f.draft.getD f.next + 1) :=
  Nat.lt_of_lt_of_le (Nat.lt_succ_self _) (Nat.le_max_right ..)

theorem target_ne_file {i : Nat} (h : f.target = some i) : f.draft.getD f.next ≠ i := by
  rintro rfl
  cases hd : f.draft with
  | none =>
    rw [hd] at h
    exact Nat.lt_irrefl _ (f.target_lt _ h)
  | some j =>
    rw [hd] at h
    exact f.apart j h hd

theorem target_lt_max (k : Nat) (i : Nat) (h : f.target = some i) : i < max f.next k :=
  Nat.lt_of_lt_of_le (f.target_lt i h) (Nat.le_max_left ..)

theorem draft_lt_max (i : Nat) (h : some (f.draft.getD f.next) = some i) :
    i < max f.next (f.draft.getD f.next + 1) :=
  Option.some.inj h ▸ f.file_lt

theorem created_apart (i : Nat) (h : f.target = some i) : some (f.draft.getD f.next) ≠ some i :=
  fun heq => f.target_ne_file h (Option.some.inj heq)

/-- Open the draft, as an empty file: the one of this name if there is one. -/
def create : Files β where
  content := update f.content (f.draft.getD f.next) []
  target := f.target
  draft := some (f.draft.getD f.next)
  next := max f.next (f.draft.getD f.next + 1)
  target_lt := f.target_lt_max _
  draft_lt := f.draft_lt_max
  apart := f.created_apart

def setContent (i : Nat) (data : List β) : Files β :=
  { f with content := update f.content i data }

theorem lt_of_none {k : Nat} (i : Nat) (h : none = some i) :
    i < k := absurd h.symm (Option.some_ne_none i)

theorem apart_of_none {target : Option Nat} (i : Nat) (_ : target = some i) : none ≠ some i :=
  (Option.some_ne_none i).symm

/-- No file of either name. -/
def empty : Files β := ⟨fun _ => [], none, none, 0, lt_of_none, lt_of_none, apart_of_none⟩

/-- The draft takes the place of the target. -/
def rename : Files β where
  content := f.content
  target := f.draft
  draft := none
  next := f.next
  target_lt := f.draft_lt
  draft_lt := lt_of_none
  apart := apart_of_none

end Files

namespace Disk

variable [DecidableEq C]

variable (d : Disk C β)

def create (c : C) (data : List β) : Disk C β where
  toFiles := d.toFiles.create
  writers := update d.writers c (some ⟨d.draft.getD d.next, 0, data⟩)

/-- The writer gets `k` more pieces into its file. -/
def write (gap : β) (c : C) (w : Writer β) (k : Nat) : Disk C β where
  toFiles := d.toFiles.setContent w.file (overwrite gap (d.content w.file) w.offset (w.rest.take k))
  writers := update d.writers c (some ⟨w.file, w.offset + (w.rest.take k).length, w.rest.drop k⟩)

/-- The writer stops, complete or not. -/
def close (c : C) : Disk C β := { d with writers := update d.writers c none }

def publish (c : C) : Disk C β where
  toFiles := d.toFiles.rename
  writers := update d.writers c none

/-- The file of the first name, and what is in it. -/
def published : Option (List β) := d.target.map d.content

/-- One writer at most, whose file is the draft, and is going to hold what `P` allows. -/
structure Sound (P : List β → Prop) (d : Disk C β) : Prop where
  alone : ∀ {c c' w w'}, d.writers c = some w → d.writers c' = some w' → c = c'
  writer : ∀ {c w}, d.writers c = some w →
    d.draft = some w.file ∧ w.offset = (d.content w.file).length ∧ P (d.content w.file ++ w.rest)

variable {P : List β → Prop} {d : Disk C β} {c : C} {w : Writer β}

omit [DecidableEq C] in
theorem Sound.mono {P' : List β → Prop} (h : d.Sound P) (himp : ∀ data, P data → P' data) :
    d.Sound P' where
  alone := h.alone
  writer hw := ⟨(h.writer hw).1, (h.writer hw).2.1, himp _ (h.writer hw).2.2⟩

omit [DecidableEq C] in
theorem Sound.of_none (h : ∀ c, d.writers c = none) : d.Sound P where
  alone hw := absurd (hw.symm.trans (h _)) (Option.some_ne_none _)
  writer hw := absurd (hw.symm.trans (h _)) (Option.some_ne_none _)

/-- A writer sets out, or goes on with its part. -/
theorem Sound.set (hfree : ∀ c', c' ≠ c → d.writers c' = none) {files : Files β}
    (hdraft : files.draft = some w.file) (hoffset : w.offset = (files.content w.file).length)
    (hP : P (files.content w.file ++ w.rest)) :
    Sound P (⟨files, update d.writers c (some w)⟩ : Disk C β) := by
  have honly : ∀ {c' w'}, update d.writers c (some w) c' = some w' → c' = c ∧ w' = w := by
    intro c' w' hw'
    by_cases hc : c' = c
    · rw [hc, update_self] at hw'
      exact ⟨hc, (Option.some.inj hw').symm⟩
    · rw [update_of_ne hc, hfree c' hc] at hw'
      cases hw'
  refine ⟨fun hw hw' => (honly hw).1.trans (honly hw').1.symm, fun hw => ?_⟩
  obtain ⟨-, rfl⟩ := honly hw
  exact ⟨hdraft, hoffset, hP⟩

omit [DecidableEq C] in
theorem Sound.others (h : d.Sound P) (hw : d.writers c = some w) (c' : C) (hc : c' ≠ c) :
    d.writers c' = none := by
  cases hw' : d.writers c' with
  | none => rfl
  | some w' => exact absurd (h.alone hw' hw) hc

theorem Sound.create {data : List β} (hfree : ∀ c', d.writers c' = none) (hP : P data) :
    (d.create c data).Sound P := by
  have hempty : d.toFiles.create.content (d.draft.getD d.next) = [] := update_self ..
  refine Sound.set (fun c' _ => hfree c') rfl ?_ ?_
  · exact (congrArg List.length hempty).symm
  · exact (congrArg (· ++ data) hempty) ▸ hP

theorem Sound.write (h : d.Sound P) (gap : β) (hw : d.writers c = some w) (k : Nat) :
    (d.write gap c w k).Sound P := by
  obtain ⟨hdraft, hoffset, hP⟩ := h.writer hw
  have hcontent :
      (d.toFiles.setContent w.file
        (overwrite gap (d.content w.file) w.offset (w.rest.take k))).content
      w.file = d.content w.file ++ w.rest.take k := by
    rw [hoffset, overwrite_end]
    exact update_self ..
  refine Sound.set (h.others hw) hdraft ?_ ?_
  · rw [hcontent, List.length_append, hoffset]
  · rwa [hcontent, List.append_assoc, List.take_append_drop]

theorem Sound.stop (h : d.Sound P) (hw : d.writers c = some w) (files : Files β) :
    Sound P (⟨files, update d.writers c none⟩ : Disk C β) := by
  refine Sound.of_none fun c' => ?_
  by_cases hc : c' = c
  · exact hc ▸ update_self ..
  · exact (update_of_ne hc ..).trans (h.others hw c' hc)

/-! ## What is published -/

theorem published_create (data : List β) : (d.create c data).published = d.published := by
  cases ht : d.target with
  | none => simp [published, create, Files.create, ht]
  | some i =>
    have hcontent : d.toFiles.create.content i = d.content i :=
      update_of_ne (d.toFiles.target_ne_file ht).symm ..
    have htarget : (d.create c data).target = some i := ht
    rw [published, published, htarget, ht]
    exact congrArg some hcontent

theorem published_write (h : d.Sound P) (gap : β) (hw : d.writers c = some w) (k : Nat) :
    (d.write gap c w k).published = d.published := by
  cases ht : d.target with
  | none => simp [published, write, Files.setContent, ht]
  | some i =>
    have hne : i ≠ w.file := fun hi => d.apart i ht (hi ▸ (h.writer hw).1)
    simp [published, write, Files.setContent, ht, update_of_ne hne]

/-- What is published is what the writer was given. -/
theorem published_publish (h : d.Sound P) (hw : d.writers c = some w) (hrest : w.rest = []) :
    ∃ data, (d.publish c).published = some data ∧ P data := by
  obtain ⟨hdraft, -, hP⟩ := h.writer hw
  rw [hrest, List.append_nil] at hP
  exact ⟨d.content w.file, by simp [published, publish, Files.rename, hdraft], hP⟩

end Disk

end Replacement
