import Mathlib.Data.List.Basic
import Mathlib.Tactic.Common

/-!
# The words of a line

Words stand between separators. A word is written bare, or between two quotes, which is how an
empty word is written and one with separators in it.

* `Word` — a word, with the way in which it is written.
* `Words` — the words of a sequence, up to where no further word is complete.
* `exists_words` — every sequence has them.
* `words_renderWords` — what has been written word by word has these words.
-/

namespace SystemsLabs.Lib

variable {α : Type*} {sp q : α} {n : ℕ} {s t : List α}

/-- A word as it is written, with separators `sp` and quotes `q`. -/
inductive Word (sp q : α)
  | bare (s : List α) (ne_nil : s ≠ []) (sep : sp ∉ s) (head : s.head? ≠ some q)
  | quoted (s : List α) (closed : q ∉ s)

namespace Word

/-- The word itself. -/
def text : Word sp q → List α
  | bare s .. => s
  | quoted s _ => s

/-- What stands in front of the word. -/
def opening : Word sp q → List α
  | bare .. => []
  | quoted .. => [q]

/-- The element that ends the word. -/
def delim : Word sp q → α
  | bare .. => sp
  | quoted .. => q

/-- The word as it is written. -/
def render : Word sp q → List α
  | bare s .. => s
  | quoted s _ => q :: (s ++ [q])

/-- The word as it is written, up to and with the element that ends it. -/
def code (w : Word sp q) : List α := w.opening ++ (w.text ++ [w.delim])

/-- What a word is written with. -/
theorem mem_render {w : Word sp q} {x : α} (h : x ∈ w.render) : x = q ∨ x ∈ w.text := by
  cases w with
  | bare s _ _ _ => exact Or.inr h
  | quoted s _ =>
      rcases List.mem_cons.mp h with rfl | h
      · exact Or.inl rfl
      rcases List.mem_append.mp h with h | h
      · exact Or.inr h
      · exact Or.inl (List.mem_singleton.mp h)

/-- No word starts with a separator. -/
theorem head_code (hne : sp ≠ q) (w : Word sp q) (s : List α) : (w.code ++ s).head? ≠ some sp := by
  cases w with
  | quoted s hq => exact fun h => hne (Option.some.inj h).symm
  | bare s hs hsp _ =>
      obtain ⟨a, s, rfl⟩ := List.exists_cons_of_ne_nil hs
      rintro h
      exact hsp (Option.some.inj h ▸ List.mem_cons_self)

/-- A quoted word has both quotes. -/
theorem two_le_length_code (w : Word sp q) : 2 ≤ w.code.length := by
  unfold code
  rw [List.length_append, List.length_append, List.length_singleton]
  cases w with
  | quoted s _ =>
      change 2 ≤ 1 + (s.length + 1)
      omega
  | bare s hs _ _ =>
      have := List.length_pos_of_ne_nil hs
      change 2 ≤ 0 + (s.length + 1)
      omega

end Word

/-- No word is complete in this sequence, which does not start with a separator. -/
def Unfinished (sp q : α) (t : List α) : Prop :=
  t.head? = some q ∧ q ∉ t.tail ∨ t.head? ≠ some q ∧ sp ∉ t

/-- Nothing has been begun. -/
theorem unfinished_nil : Unfinished sp q [] := by
  apply Or.inr
  exact ⟨by simp, List.not_mem_nil⟩

/-- What is unfinished does not begin with a separator. -/
theorem Unfinished.head (hne : sp ≠ q) (h : Unfinished sp q t) : t.head? ≠ some sp := by
  rintro hsp
  rcases h with ⟨hq, -⟩ | ⟨-, hmem⟩
  · exact hne (Option.some.inj (hsp.symm.trans hq))
  · exact hmem (List.mem_of_mem_head? hsp)

/-- The words of a sequence. -/
inductive Words (sp q : α) : List α → List (Word sp q) → Prop
  | nil (n : ℕ) {t : List α} (h : Unfinished sp q t) : Words sp q (List.replicate n sp ++ t) []
  | cons (n : ℕ) (w : Word sp q) {s : List α} {ws : List (Word sp q)} (h : Words sp q s ws) :
      Words sp q (List.replicate n sp ++ (w.code ++ s)) (w :: ws)

/-! ## Every sequence has words -/

/-- The separators in front, and the rest. -/
theorem exists_replicate_append (sp : α) (s : List α) :
    ∃ n t, s = List.replicate n sp ++ t ∧ t.head? ≠ some sp := by
  induction s with
  | nil => exact ⟨0, [], rfl, by simp⟩
  | cons a s ih =>
      by_cases ha : a = sp
      · obtain ⟨n, t, rfl, ht⟩ := ih
        exact ⟨n + 1, t, by rw [ha, List.replicate_succ, List.cons_append], ht⟩
      · exact ⟨0, a :: s, rfl, fun h => ha (Option.some.inj h)⟩

/-- A sequence that does not start with a separator starts with a complete word, or no word is
complete. -/
theorem exists_word (q : α) (h : t.head? ≠ some sp) :
    Unfinished sp q t ∨ ∃ (w : Word sp q) (s : List α), t = w.code ++ s := by
  by_cases hq : t.head? = some q
  · obtain ⟨u, rfl⟩ : ∃ u, t = q :: u := ⟨t.tail, (List.cons_head?_tail hq).symm⟩
    by_cases hu : q ∈ u
    · obtain ⟨s, r, rfl, hs⟩ := List.eq_append_cons_of_mem hu
      exact Or.inr ⟨.quoted s hs, r, by simp [Word.code, Word.opening, Word.text, Word.delim]⟩
    · exact Or.inl (Or.inl ⟨hq, hu⟩)
  · by_cases hsp : sp ∈ t
    · obtain ⟨s, r, rfl, hs⟩ := List.eq_append_cons_of_mem hsp
      have hne : s ≠ [] := by
        rintro rfl
        exact h rfl
      obtain ⟨a, s, rfl⟩ := List.exists_cons_of_ne_nil hne
      exact Or.inr ⟨.bare (a :: s) hne hs hq, r,
        by simp [Word.code, Word.opening, Word.text, Word.delim]⟩
    · exact Or.inl (Or.inr ⟨hq, hsp⟩)

/-- **Every sequence has words.** -/
theorem exists_words (sp q : α) (s : List α) : ∃ ws, Words sp q s ws := by
  induction hlen : s.length using Nat.strongRecOn generalizing s with
  | _ m ih =>
    obtain ⟨n, t, rfl, ht⟩ := exists_replicate_append sp s
    rcases exists_word q ht with h | ⟨w, s, rfl⟩
    · exact ⟨[], .nil n h⟩
    · have hlt : s.length < m := by
        have := w.two_le_length_code
        rw [List.length_append, List.length_append] at hlen
        omega
      obtain ⟨ws, hws⟩ := ih s.length hlt s rfl
      exact ⟨w :: ws, .cons n w hws⟩

/-- A word takes two elements at least. -/
theorem Words.length_le {ws : List (Word sp q)} (h : Words sp q s ws) :
    2 * ws.length ≤ s.length := by
  induction h with
  | nil => exact Nat.zero_le _
  | cons n w h ih =>
      have := w.two_le_length_code
      rw [List.length_append, List.length_append, List.length_cons]
      omega

/-! ## Writing words -/

/-- A separator in front does not matter. -/
theorem Words.cons_sep {ws : List (Word sp q)} (h : Words sp q s ws) : Words sp q (sp :: s) ws := by
  cases h with
  | nil n h => exact .nil (n + 1) h
  | cons n w h => exact .cons (n + 1) w h

/-- A word, with a separator behind it. -/
theorem Words.cons_render (n : ℕ) (w : Word sp q) {ws : List (Word sp q)} (h : Words sp q s ws) :
    Words sp q (List.replicate n sp ++ (w.render ++ sp :: s)) (w :: ws) := by
  cases w with
  | bare s' hs hsp hq =>
      have := Words.cons n (.bare s' hs hsp hq) h
      rwa [Word.code, List.append_assoc, List.append_assoc] at this
  | quoted s' hq => exact .cons n (.quoted s' hq) h.cons_sep

/-- Write words, each with so many separators in front of it. -/
def renderWords : List (ℕ × Word sp q) → List α
  | [] => []
  | (n, w) :: l => List.replicate n sp ++ (w.render ++ renderWords l)

/-- The elements of what has been written. -/
theorem mem_renderWords {l : List (ℕ × Word sp q)} {x : α} (h : x ∈ renderWords l) :
    x = sp ∨ x = q ∨ ∃ a ∈ l, x ∈ a.2.text := by
  induction l with
  | nil => exact absurd h List.not_mem_nil
  | cons a l ih =>
      obtain ⟨n, w⟩ := a
      rcases List.mem_append.mp h with h | h
      · exact Or.inl (List.eq_of_mem_replicate h)
      rcases List.mem_append.mp h with h | h
      · rcases Word.mem_render h with rfl | h
        · exact Or.inr (Or.inl rfl)
        · exact Or.inr (Or.inr ⟨_, List.mem_cons_self, h⟩)
      · rcases ih h with h | h | ⟨a, ha, h⟩
        · exact Or.inl h
        · exact Or.inr (Or.inl h)
        · exact Or.inr (Or.inr ⟨a, List.mem_cons_of_mem _ ha, h⟩)

/-- The words of a line are those that it is made of. -/
theorem words_renderWords_cons (n : ℕ) (w : Word sp q) (l : List (ℕ × Word sp q))
    (h : ∀ a ∈ l, 0 < a.1) :
    Words sp q (renderWords ((n, w) :: l) ++ [sp]) (w :: l.map (·.2)) := by
  induction l generalizing n w with
  | nil =>
      rw [renderWords, renderWords, List.append_nil, List.append_assoc]
      exact .cons_render n w (.nil 0 unfinished_nil)
  | cons a l ih =>
      obtain ⟨m, w'⟩ := a
      -- The first of the separators in front of the next word ends this one.
      obtain ⟨m, rfl⟩ : ∃ k, m = k + 1 := Nat.exists_eq_add_of_le' (h (m, w') List.mem_cons_self)
      have hrest := ih m w' fun b hb => h b (List.mem_cons_of_mem _ hb)
      have hsep : renderWords ((m + 1, w') :: l) = sp :: renderWords ((m, w') :: l) := by
        rw [renderWords, renderWords, List.replicate_succ, List.cons_append]
      rw [renderWords, hsep, List.append_assoc, List.append_assoc]
      exact .cons_render n w hrest

/-- **What has been written word by word has these words**, if there is a separator between any
two. -/
theorem words_renderWords (l : List (ℕ × Word sp q)) (h : ∀ a ∈ l.tail, 0 < a.1) :
    Words sp q (renderWords l ++ [sp]) (l.map (·.2)) := by
  cases l with
  | nil => exact .nil 1 unfinished_nil
  | cons a l => exact words_renderWords_cons a.1 a.2 l h

end SystemsLabs.Lib
