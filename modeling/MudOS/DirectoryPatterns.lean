-- `match_string` of `file.c`, which decides what names of a directory a pattern selects.
import MudOS.Library.Globs

open mudos.globs

namespace mudos.directory_patterns

abbrev text_t := List UInt8

def question_mark : UInt8 := 63

def star : UInt8 := 42

def backslash : UInt8 := 92

/-! ## The source -/

/-- The loop over `str + i`, which stops where the string ends. -/
def any_tail (matched : text_t → Bool) : text_t → Bool
  | [] => false
  | c :: str => matched (c :: str) || any_tail matched str

/-- The fall through to `default`: the next character is this one, and the loop goes on. -/
def same_character (c : UInt8) (again : text_t → Bool) : text_t → Bool
  | [] => false
  | s :: str => if c = s then again str else false

def a_character (again : text_t → Bool) : text_t → Bool
  | [] => false
  | _ :: str => again str

def match_string : text_t → text_t → Bool
  | [], str => str.isEmpty
  | c :: rest, str =>
    if c = question_mark then a_character (match_string rest) str
    else if c = star then
      if rest = [] then true else any_tail (match_string rest) str
    else if c = backslash then
      match rest with
      | [] => false
      | c :: rest => same_character c (match_string rest) str
    else same_character c (match_string rest) str

/-! ## What a pattern says -/

/-- The pieces of a pattern. A backslash at the end escapes nothing, and such a text is no
pattern. -/
def pieces : text_t → Option (List (Piece UInt8))
  | [] => some []
  | c :: rest =>
    if c = question_mark then (pieces rest).map (.one :: ·)
    else if c = star then (pieces rest).map (.any :: ·)
    else if c = backslash then
      match rest with
      | [] => none
      | c :: rest => (pieces rest).map (.exactly c :: ·)
    else (pieces rest).map (.exactly c :: ·)

def InLanguage (pattern name : text_t) : Prop :=
  ∃ p, pieces pattern = some p ∧ name ∈ language p

/-- The pattern ends with two stars, and the name is in the language of what stands before
them, and no shorter beginning of the name is. -/
def LeavesNothing (pattern name : text_t) : Prop :=
  ∃ stem, pieces pattern = some (stem ++ [.any, .any]) ∧ Shortest stem name

end mudos.directory_patterns
