import SystemsLabs.Lib.Runs
import Mathlib.Data.List.Nodup
import Mathlib.Tactic.Common

/-!
# Records that are appended to a file under a lock

Any number of writers append one record each to a file, in pieces of any size. A writer takes a lock
first and releases it when nothing of its record is left. `Appending.of_runs`: whatever the order of
the steps, the file holds whole records, one behind the other, and a part of one more while its
writer holds the lock.
-/

namespace SystemsLabs.Lib

/-- Where a writer is, with what is left of its record. -/
inductive Phase (α : Type*)
  | waiting
  | writing (rest : List α)
  | done

/-- Nothing of the record is left. -/
def Phase.Written {α : Type*} : Phase α → Prop
  | .waiting => False
  | .writing rest => rest = []
  | .done => True

/-- The lock, the file, and the writers. -/
@[ext]
structure Appending (ι α : Type*) where
  lock : Option ι
  file : List α
  phase : ι → Phase α

namespace Appending

variable {ι α : Type*} (record : ι → List α)

/-- The other writers stay where they are. -/
def Others (c : Appending ι α) (i : ι) (c' : Appending ι α) : Prop :=
  ∀ j, j ≠ i → c'.phase j = c.phase j

/-- The steps of a writer. -/
inductive Step (c : Appending ι α) (i : ι) (c' : Appending ι α) : Prop
  /-- Something else. -/
  | stutter (hlock : c'.lock = c.lock) (hfile : c'.file = c.file)
      (hphase' : c'.phase i = c.phase i) (hothers : c.Others i c')
  | acquire (hfree : c.lock = none) (hphase : c.phase i = .waiting) (hlock : c'.lock = some i)
      (hfile : c'.file = c.file) (hphase' : c'.phase i = .writing (record i))
      (hothers : c.Others i c')
  | append {rest : List α} (k : ℕ) (hphase : c.phase i = .writing rest) (hlock : c'.lock = c.lock)
      (hfile : c'.file = c.file ++ rest.take k) (hphase' : c'.phase i = .writing (rest.drop k))
      (hothers : c.Others i c')
  | release (hphase : c.phase i = .writing []) (hlock : c'.lock = none) (hfile : c'.file = c.file)
      (hphase' : c'.phase i = .done) (hothers : c.Others i c')

/-- The records of `order` have been written, and `part` of another one. -/
structure Inv (old : List α) (c : Appending ι α) (order : List ι) (part : List α) : Prop where
  owner : ∀ i, c.lock = some i ↔ ∃ rest, c.phase i = .writing rest
  nodup : order.Nodup
  written : ∀ i, i ∈ order ↔ (c.phase i).Written
  file : c.file = old ++ order.flatMap record ++ part
  part : part = [] ∧ (∀ i rest, c.phase i = .writing rest → rest = []) ∨
    ∃ i rest, c.phase i = .writing rest ∧ rest ≠ [] ∧ part ++ rest = record i

variable {record} {old part : List α} {c c' : Appending ι α} {i : ι} {is order : List ι}

/-- No one has begun. -/
theorem inv_init (old : List α) : Inv record old ⟨none, old, fun _ => .waiting⟩ [] [] where
  owner _ := iff_of_false (fun h => nomatch h) fun ⟨_, h⟩ => nomatch h
  nodup := List.nodup_nil
  written _ := iff_of_false List.not_mem_nil id
  file := by simp
  part := .inl ⟨rfl, fun _ _ h => nomatch h⟩

namespace Inv

/-- Only the owner of the lock writes. -/
theorem eq_of_writing (h : Inv record old c order part) {j : ι} {rest rest' : List α}
    (hi : c.phase i = .writing rest) (hj : c.phase j = .writing rest') : i = j :=
  Option.some.inj (((h.owner i).mpr ⟨rest, hi⟩).symm.trans ((h.owner j).mpr ⟨rest', hj⟩))

/-- Taking the lock begins an entry. -/
theorem acquire (h : Inv record old c order part) (hne : record i ≠ []) (hfree : c.lock = none)
    (hphase : c.phase i = .waiting) (hlock : c'.lock = some i) (hfile : c'.file = c.file)
    (hphase' : c'.phase i = .writing (record i)) (hothers : c.Others i c') :
    Inv record old c' order part := by
  have hnone : ∀ j rest, c.phase j ≠ .writing rest := by
    intro j rest hj
    exact absurd (hfree.symm.trans ((h.owner j).mpr ⟨rest, hj⟩)) (by simp)
  have hpart : part = [] := by
    rcases h.part with ⟨hnil, -⟩ | ⟨j, rest, hj, -⟩
    · exact hnil
    · exact absurd hj (hnone j rest)
  refine ⟨fun j => ?_, h.nodup, fun j => ?_, hfile.trans h.file,
    .inr ⟨i, record i, hphase', hne, by rw [hpart, List.nil_append]⟩⟩
  · by_cases hji : j = i
    · rw [hlock, hji]
      exact iff_of_true rfl ⟨_, hphase'⟩
    · rw [hlock, hothers j hji]
      refine iff_of_false (fun hij => hji (Option.some.inj hij).symm) ?_
      rintro ⟨rest, hj⟩
      exact hnone j rest hj
  · by_cases hji : j = i
    · subst hji
      rw [hphase', h.written, hphase]
      exact iff_of_false id hne
    · rw [hothers j hji]
      exact h.written j

/-- The record is complete. -/
theorem complete (h : Inv record old c order part) {rest : List α}
    (hphase : c.phase i = .writing rest) (hne : rest ≠ []) (hrecord : part ++ rest = record i)
    (howner : ∀ j, c'.lock = some j ↔ ∃ l, c'.phase j = .writing l)
    (hfile : c'.file = c.file ++ rest)
    (hphase' : c'.phase i = .writing []) (hothers : c.Others i c') :
    Inv record old c' (order ++ [i]) [] := by
  have hnot : i ∉ order := by
    rw [h.written, hphase]
    exact hne
  refine ⟨howner, ?_, fun j => ?_, ?_, .inl ⟨rfl, fun j l hj => ?_⟩⟩
  · rw [← List.concat_eq_append]
    exact List.Nodup.concat hnot h.nodup
  · rw [List.mem_append, List.mem_singleton]
    by_cases hji : j = i
    · rw [hji, hphase']
      exact iff_of_true (.inr rfl) rfl
    · rw [hothers j hji, ← h.written]
      exact or_iff_left hji
  · rw [hfile, h.file, List.append_nil, List.flatMap_append, List.flatMap_singleton, ← hrecord]
    simp only [List.append_assoc]
  · by_cases hji : j = i
    · rw [hji, hphase'] at hj
      injection hj with hl
      exact hl.symm
    · rw [hothers j hji] at hj
      exact absurd (h.eq_of_writing hj hphase) hji

/-- Some more of the entry is written, perhaps the last of it. -/
theorem append (h : Inv record old c order part) {rest : List α} (k : ℕ)
    (hphase : c.phase i = .writing rest) (hlock : c'.lock = c.lock)
    (hfile : c'.file = c.file ++ rest.take k) (hphase' : c'.phase i = .writing (rest.drop k))
    (hothers : c.Others i c') : ∃ order' part', Inv record old c' order' part' := by
  have howner : ∀ j, c'.lock = some j ↔ ∃ l, c'.phase j = .writing l := by
    intro j
    rw [hlock, h.owner j]
    by_cases hji : j = i
    · subst hji
      exact iff_of_true ⟨rest, hphase⟩ ⟨_, hphase'⟩
    · rw [hothers j hji]
  rcases h.part with ⟨hpart, hnil⟩ | ⟨j, l, hj, hne, hrecord⟩
  · -- nothing is left, and nothing is written
    obtain rfl := hnil i rest hphase
    rw [List.drop_nil] at hphase'
    have hsame : ∀ j, c'.phase j = c.phase j := by
      intro j
      by_cases hji : j = i
      · rw [hji, hphase, hphase']
      · exact hothers j hji
    refine ⟨order, part, howner, h.nodup, fun j => ?_, ?_, .inl ⟨hpart, fun j l hj => ?_⟩⟩
    · rw [hsame]
      exact h.written j
    · rw [hfile, List.take_nil, List.append_nil]
      exact h.file
    · rw [hsame] at hj
      exact hnil j l hj
  · obtain rfl := h.eq_of_writing hphase hj
    rw [hphase] at hj
    obtain rfl : rest = l := by injection hj
    by_cases hdrop : rest.drop k = []
    · have htake : rest.take k = rest := by
        rw [← List.append_nil (rest.take k), ← hdrop, List.take_append_drop]
      rw [htake] at hfile
      rw [hdrop] at hphase'
      exact ⟨_, _, h.complete hphase hne hrecord howner hfile hphase' hothers⟩
    · refine ⟨order, part ++ rest.take k, howner, h.nodup, fun j => ?_, ?_,
        .inr ⟨i, rest.drop k, hphase', hdrop, ?_⟩⟩
      · by_cases hji : j = i
        · rw [h.written, hji, hphase', hphase]
          exact iff_of_false hne hdrop
        · rw [hothers j hji]
          exact h.written j
      · rw [hfile, h.file]
        simp only [List.append_assoc]
      · rw [List.append_assoc, List.take_append_drop, hrecord]

/-- The lock is released behind a whole entry. -/
theorem release (h : Inv record old c order part) (hphase : c.phase i = .writing [])
    (hlock : c'.lock = none) (hfile : c'.file = c.file) (hphase' : c'.phase i = .done)
    (hothers : c.Others i c') :
    Inv record old c' order part := by
  have hnone : ∀ j rest, c'.phase j ≠ .writing rest := by
    intro j rest hj
    by_cases hji : j = i
    · rw [hji, hphase'] at hj
      cases hj
    · rw [hothers j hji] at hj
      exact hji (h.eq_of_writing hj hphase)
  have hpart : part = [] := by
    rcases h.part with ⟨hnil, -⟩ | ⟨j, rest, hj, hne, -⟩
    · exact hnil
    · obtain rfl := h.eq_of_writing hphase hj
      rw [hphase] at hj
      injection hj with hnil
      exact absurd hnil.symm hne
  refine ⟨fun j => ?_, h.nodup, fun j => ?_, hfile.trans h.file,
    .inl ⟨hpart, fun j rest hj => absurd hj (hnone j rest)⟩⟩
  · rw [hlock]
    refine iff_of_false (fun hj => nomatch hj) ?_
    rintro ⟨rest, hj⟩
    exact hnone j rest hj
  by_cases hji : j = i
  · rw [h.written, hji, hphase', hphase]
    exact iff_of_true rfl trivial
  · rw [hothers j hji]
    exact h.written j

/-- One step. -/
theorem step (hne : ∀ i, record i ≠ []) (h : Inv record old c order part)
    (hs : Step record c i c') : ∃ order' part', Inv record old c' order' part' := by
  cases hs with
  | stutter hlock hfile hphase' hothers =>
    have hphases : c'.phase = c.phase := by
      funext j
      by_cases hji : j = i
      · rw [hji, hphase']
      · exact hothers j hji
    obtain rfl : c' = c := Appending.ext hlock hfile hphases
    exact ⟨order, part, h⟩
  | acquire hfree hphase hlock hfile hphase' hothers =>
    exact ⟨order, part, h.acquire (hne i) hfree hphase hlock hfile hphase' hothers⟩
  | append k hphase hlock hfile hphase' hothers =>
    exact h.append k hphase hlock hfile hphase' hothers
  | release hphase hlock hfile hphase' hothers =>
    exact ⟨order, part, h.release hphase hlock hfile hphase' hothers⟩

end Inv

/-- **The file holds whole records.** -/
theorem of_runs (hne : ∀ i, record i ≠ [])
    (h : Runs (Step record) ⟨none, old, fun _ => .waiting⟩ is c) :
    ∃ order part, Inv record old c order part := by
  refine h.invariant (I := fun c => ∃ order part, Inv record old c order part) ?_
    ⟨[], [], inv_init old⟩
  rintro c i c' ⟨order, part, hinv⟩ hs
  exact hinv.step hne hs

end Appending

end SystemsLabs.Lib
