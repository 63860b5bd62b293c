import Mathlib.Data.List.Chain
import Mathlib.Tactic.Common

/-!
# Doubly linked lists over link functions

`Linked next prev l` says that the nodes of `l` are linked in this order: the successor of every
node but the last is the following node, and the predecessor of every node but the first is the
preceding one. Nothing is said about `next` of the last node and `prev` of the first.

`Linked.insert` and `Linked.remove` are the two update rules, in one form for the front, the
middle and the back of the list: what the new link functions must do at the seam, and that they
agree with the old ones at every other inner link.
-/

namespace SystemsLabs.Lib

variable {ι : Type*} {next prev next' prev' : ι → ι}

/-- `next` and `prev` link the nodes of the list in order. -/
def Linked (next prev : ι → ι) (l : List ι) : Prop :=
  l.IsChain fun a b => next a = b ∧ prev b = a

namespace Linked

variable {l l₁ l₂ : List ι} {x : ι}

/-- The empty list is linked. -/
@[simp] theorem nil : Linked next prev [] := List.IsChain.nil

/-- A single node is linked. -/
@[simp] theorem singleton (x : ι) : Linked next prev [x] := List.isChain_singleton x

/-- The first two nodes point to each other. -/
theorem cons_cons_iff {a b : ι} :
    Linked next prev (a :: b :: l) ↔ (next a = b ∧ prev b = a) ∧ Linked next prev (b :: l) :=
  List.isChain_cons_cons

/-- Two linked lists joined at a seam. -/
theorem append_iff : Linked next prev (l₁ ++ l₂) ↔ Linked next prev l₁ ∧ Linked next prev l₂ ∧
    ∀ a ∈ l₁.getLast?, ∀ b ∈ l₂.head?, next a = b ∧ prev b = a :=
  List.isChain_append

/-- Only the inner links matter. -/
theorem congr (h : Linked next prev l) (hn : ∀ a ∈ l.dropLast, next' a = next a)
    (hp : ∀ a ∈ l.tail, prev' a = prev a) : Linked next' prev' l := by
  induction l with
  | nil => exact nil
  | cons a l ih =>
      cases l with
      | nil => exact singleton a
      | cons b l =>
          obtain ⟨⟨h₁, h₂⟩, h'⟩ := cons_cons_iff.mp h
          refine cons_cons_iff.mpr ⟨⟨?_, ?_⟩, ih h' ?_ ?_⟩
          · rw [hn a (by simp), h₁]
          · rw [hp b (by simp), h₂]
          · intro c hc
            exact hn c (by rw [List.dropLast_cons_cons]; exact List.mem_cons_of_mem _ hc)
          · intro c hc
            exact hp c (List.mem_cons_of_mem _ hc)

/-- Put `x` between `l₁` and `l₂`: `x` is linked at the seam, the other links stay. -/
theorem insert (h : Linked next prev (l₁ ++ l₂))
    (hn : ∀ a ∈ l₁.dropLast ++ l₂.dropLast, next' a = next a)
    (hp : ∀ a ∈ l₁.tail ++ l₂.tail, prev' a = prev a)
    (hleft : ∀ a ∈ l₁.getLast?, next' a = x ∧ prev' x = a)
    (hright : ∀ b ∈ l₂.head?, next' x = b ∧ prev' b = x) :
    Linked next' prev' (l₁ ++ x :: l₂) := by
  obtain ⟨h₁, h₂, -⟩ := append_iff.mp h
  have h₁' : Linked next' prev' l₁ := h₁.congr
    (fun a ha => hn a (List.mem_append_left _ ha)) fun a ha => hp a (List.mem_append_left _ ha)
  have h₂' : Linked next' prev' l₂ := h₂.congr
    (fun a ha => hn a (List.mem_append_right _ ha)) fun a ha => hp a (List.mem_append_right _ ha)
  have hx : Linked next' prev' (x :: l₂) := by
    cases l₂ with
    | nil => exact singleton x
    | cons b l₂ => exact cons_cons_iff.mpr ⟨hright b rfl, h₂'⟩
  refine append_iff.mpr ⟨h₁', hx, ?_⟩
  intro a ha b hb
  cases hb
  exact hleft a ha

/-- Take `x` out from between `l₁` and `l₂`: its neighbours are linked, the other links stay. -/
theorem remove (h : Linked next prev (l₁ ++ x :: l₂))
    (hn : ∀ a ∈ l₁.dropLast ++ l₂.dropLast, next' a = next a)
    (hp : ∀ a ∈ l₁.tail ++ l₂.tail, prev' a = prev a)
    (hseam : ∀ a ∈ l₁.getLast?, ∀ b ∈ l₂.head?, next' a = b ∧ prev' b = a) :
    Linked next' prev' (l₁ ++ l₂) := by
  obtain ⟨h₁, hx, -⟩ := append_iff.mp h
  have h₂ : Linked next prev l₂ := List.IsChain.tail hx
  exact append_iff.mpr ⟨
    h₁.congr (fun a ha => hn a (List.mem_append_left _ ha))
      fun a ha => hp a (List.mem_append_left _ ha),
    h₂.congr (fun a ha => hn a (List.mem_append_right _ ha))
      fun a ha => hp a (List.mem_append_right _ ha), hseam⟩

end Linked

end SystemsLabs.Lib
