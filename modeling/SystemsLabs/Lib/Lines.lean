import Mathlib.Data.List.Basic
import Mathlib.Tactic.Common

/-!
# Lines of a sequence

* `takeLine` — split off the part up to the first terminator, which belongs to it, but at most `k`
  elements.
* `Complete` — what follows a part that has been split off does not belong to the same line.
* `Lines` — the sequences that consist of lines of at most `limit` elements, each with its
  terminator.
* `lines_iff` — a sequence consists of such lines iff `takeLine limit` splits off one after the
  other.
-/

namespace SystemsLabs.Lib

variable {α : Type*} {nl c : α} {s body : List α} {k limit : ℕ}

/-- The line ends with a terminator. -/
def Terminated (nl : α) (line : List α) : Prop := line.getLast? = some nl

/-- No bytes are no line. -/
theorem not_terminated_nil : ¬ Terminated nl [] := by
  simp [Terminated]

/-- The shortest line is the newline. -/
theorem terminated_singleton : Terminated nl [c] ↔ c = nl := by
  simp [Terminated]

/-- A byte in front of a line. -/
theorem terminated_cons (h : body ≠ []) : Terminated nl (c :: body) ↔ Terminated nl body := by
  unfold Terminated
  rw [List.getLast?_cons_of_ne_nil h]

/-- The line ends with a terminator, or is as long as it may be. -/
def Complete (nl : α) (k : ℕ) (line : List α) : Prop := Terminated nl line ∨ line.length = k

/-- A byte in front of a line that fits. -/
theorem complete_cons (hc : c ≠ nl) : Complete nl (k + 1) (c :: body) ↔ Complete nl k body := by
  unfold Complete
  by_cases hbody : body = []
  · subst hbody
    simp [terminated_singleton, hc, not_terminated_nil, eq_comm]
  · rw [terminated_cons hbody, List.length_cons, Nat.succ_inj]

/-- No bytes are no line. -/
theorem not_complete_nil (hk : 0 < k) : ¬ Complete nl k [] := by
  rintro (h | h)
  · exact not_terminated_nil h
  · exact Nat.ne_of_lt hk h

variable [DecidableEq α]

instance (line : List α) : Decidable (Terminated nl line) :=
  inferInstanceAs (Decidable (line.getLast? = some nl))

instance (k : ℕ) (line : List α) : Decidable (Complete nl k line) :=
  inferInstanceAs (Decidable (_ ∨ _))

/-- Split off a line of at most `k` elements. -/
def takeLine (nl : α) : ℕ → List α → List α × List α
  | 0, s => ([], s)
  | _ + 1, [] => ([], [])
  | k + 1, c :: s =>
    if c = nl then ([c], s)
    else
      let r := takeLine nl k s
      (c :: r.1, r.2)

/-- No room, no bytes. -/
@[simp] theorem takeLine_zero : takeLine nl 0 s = ([], s) := rfl

/-- At the end nothing is taken. -/
@[simp] theorem takeLine_nil : takeLine nl k [] = ([], []) := by
  cases k <;> rfl

/-- Nothing is lost. -/
theorem takeLine_append (nl : α) (k : ℕ) (s : List α) :
    (takeLine nl k s).1 ++ (takeLine nl k s).2 = s := by
  induction k generalizing s with
  | zero => rfl
  | succ k ih =>
      cases s with
      | nil => rfl
      | cons c s =>
          unfold takeLine
          split_ifs
          · rfl
          · simp [ih]

/-- A line of a nonempty sequence is not empty. -/
theorem takeLine_ne_nil (hk : 0 < k) (hs : s ≠ []) : (takeLine nl k s).1 ≠ [] := by
  obtain ⟨k, rfl⟩ := Nat.exists_eq_add_of_lt hk
  obtain ⟨c, s, rfl⟩ := List.exists_cons_of_ne_nil hs
  rw [Nat.zero_add, takeLine]
  split_ifs <;> exact List.cons_ne_nil _ _

/-- A terminated line that is short enough is split off as a whole. -/
theorem takeLine_line (hbody : nl ∉ body) (hlen : body.length < k) :
    takeLine nl k (body ++ nl :: s) = (body ++ [nl], s) := by
  induction body generalizing k with
  | nil =>
      obtain ⟨k, rfl⟩ := Nat.exists_eq_add_of_lt hlen
      simp [takeLine]
  | cons c body ih =>
      obtain ⟨hc, hbody⟩ := not_or.mp (mt List.mem_cons.mpr hbody)
      cases k with
      | zero => exact absurd hlen (Nat.not_lt_zero _)
      | succ k =>
          rw [List.cons_append, takeLine, if_neg (Ne.symm hc),
            ih hbody (Nat.lt_of_succ_lt_succ hlen)]
          rfl

/-- A terminated line has its terminator at the end only. -/
theorem exists_body_of_terminated (h : Terminated nl (takeLine nl k s).1) :
    ∃ body, nl ∉ body ∧ body.length < k ∧ s = body ++ nl :: (takeLine nl k s).2 := by
  induction k generalizing s with
  | zero => exact absurd h not_terminated_nil
  | succ k ih =>
      cases s with
      | nil => exact absurd h not_terminated_nil
      | cons c s =>
          unfold takeLine at h ⊢
          split_ifs at h ⊢ with hc
          · exact ⟨[], List.not_mem_nil, Nat.succ_pos k, by simp [hc]⟩
          · have hne : (takeLine nl k s).1 ≠ [] := by
              intro hnil
              simp only [hnil] at h
              exact hc (terminated_singleton.mp h)
            obtain ⟨body, hbody, hlen, hs⟩ := ih ((terminated_cons hne).mp h)
            refine ⟨c :: body, ?_, Nat.succ_lt_succ hlen, ?_⟩
            · exact mt List.mem_cons.mp (not_or.mpr ⟨Ne.symm hc, hbody⟩)
            · rw [List.cons_append]
              exact congrArg _ hs

/-- At most as many bytes are taken as there is room for. -/
theorem length_takeLine_le (nl : α) (k : ℕ) (s : List α) : (takeLine nl k s).1.length ≤ k := by
  induction k generalizing s with
  | zero => exact Nat.le_refl 0
  | succ k ih =>
      cases s with
      | nil => exact Nat.zero_le _
      | cons c s =>
          unfold takeLine
          split_ifs
          · exact Nat.succ_le_succ (Nat.zero_le k)
          · exact Nat.succ_le_succ (ih s)

/-- A line is its own first line. -/
theorem takeLine_takeLine (nl : α) (k : ℕ) (s : List α) :
    takeLine nl k (takeLine nl k s).1 = ((takeLine nl k s).1, []) := by
  induction k generalizing s with
  | zero => rfl
  | succ k ih =>
      cases s with
      | nil => rfl
      | cons c s =>
          by_cases hc : c = nl
          · have hline : (takeLine nl (k + 1) (c :: s)).1 = [c] := by rw [takeLine, if_pos hc]
            rw [hline, takeLine, if_pos hc]
          · have hline : (takeLine nl (k + 1) (c :: s)).1 = c :: (takeLine nl k s).1 := by
              rw [takeLine, if_neg hc]
            rw [hline, takeLine, if_neg hc, ih]

/-- Nothing follows the terminator of a line. -/
theorem eq_nil_of_takeLine_eq {t : List α} (h : (takeLine nl k s).1 = body ++ nl :: t) :
    t = [] := by
  induction k generalizing s body with
  | zero => exact absurd h.symm (List.append_ne_nil_of_right_ne_nil _ (List.cons_ne_nil _ _))
  | succ k ih =>
      cases s with
      | nil => exact absurd h.symm (List.append_ne_nil_of_right_ne_nil _ (List.cons_ne_nil _ _))
      | cons c s =>
          unfold takeLine at h
          cases body with
          | nil =>
              split_ifs at h with hc
              · exact (List.cons.inj h).2.symm
              · exact absurd (List.cons.inj h).1 hc
          | cons d body =>
              split_ifs at h with hc
              · exact absurd (List.cons.inj h).2.symm
                  (List.append_ne_nil_of_right_ne_nil _ (List.cons_ne_nil _ _))
              · exact ih (List.cons.inj h).2

/-- A complete line does not depend on what follows. -/
theorem takeLine_append_of_complete (h : Complete nl k (takeLine nl k s).1) (t : List α) :
    takeLine nl k (s ++ t) = ((takeLine nl k s).1, (takeLine nl k s).2 ++ t) := by
  induction k generalizing s with
  | zero => rfl
  | succ k ih =>
      cases s with
      | nil => exact absurd h (not_complete_nil (Nat.succ_pos k))
      | cons c s =>
          rw [List.cons_append]
          unfold takeLine at h ⊢
          split_ifs at h ⊢ with hc
          · rfl
          · rw [ih ((complete_cons hc).mp h)]

/-- Nothing follows a line that is not complete. -/
theorem takeLine_of_not_complete (h : ¬ Complete nl k (takeLine nl k s).1) :
    takeLine nl k s = (s, []) := by
  induction k generalizing s with
  | zero => exact absurd (.inr rfl) h
  | succ k ih =>
      cases s with
      | nil => rfl
      | cons c s =>
          unfold takeLine at h ⊢
          split_ifs at h ⊢ with hc
          · exact absurd (.inl (terminated_singleton.mpr hc)) h
          · rw [ih (mt (complete_cons hc).mpr h)]

/-- The sequences of lines of at most `limit` elements, terminators included. -/
inductive Lines (nl : α) (limit : ℕ) : List α → Prop
  | nil : Lines nl limit []
  | line {body s : List α} : nl ∉ body → body.length < limit → Lines nl limit s →
      Lines nl limit (body ++ nl :: s)

/-- `takeLine` decides whether a sequence starts with such a line. -/
theorem lines_iff (hs : s ≠ []) :
    Lines nl limit s ↔
      Terminated nl (takeLine nl limit s).1 ∧ Lines nl limit (takeLine nl limit s).2 := by
  constructor
  · intro h
    cases h with
    | nil => exact absurd rfl hs
    | line hbody hlen htail =>
        rw [takeLine_line hbody hlen]
        exact ⟨by simp [Terminated], htail⟩
  · rintro ⟨hterm, htail⟩
    obtain ⟨body, hbody, hlen, heq⟩ := exists_body_of_terminated hterm
    rw [heq]
    exact .line hbody hlen htail

end SystemsLabs.Lib
