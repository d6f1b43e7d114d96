-- `explode_string` and `implode_string` of `array.c`, as they are compiled with
-- `SANE_EXPLODE_STRING`.
import Mathlib.Data.List.Basic

namespace mudos.explode

/-- The characters of a string before its end. A pointer into a string is what is left of it. -/
abbrev text_t := List UInt8

/-- What `explode_string` returns: an array of so many items, and the texts that were stored
from its first item on. -/
structure array_t where
  size : Nat
  stored : List text_t
deriving DecidableEq

def the_null_array : array_t := ⟨0, []⟩

/-! ## One character -/

/-- How often the delimiter comes, and what is left of the string at the last one. -/
def count_char (delimeter : UInt8) : text_t → Nat × Option Nat
  | [] => (0, none)
  | c :: p =>
    let r := count_char delimeter p
    if c = delimeter then (r.1 + 1, r.2.or (some (p.length + 1))) else r

/-- The loop over `p`, where `beg` is that many characters before it. -/
def fill_char (delimeter : UInt8) (limit : Int) : text_t → text_t → Nat → List text_t × text_t
  | [], beg, _ => ([], beg)
  | c :: p, beg, num =>
    if (num : Int) < limit then
      if c = delimeter then
        let r := fill_char delimeter limit p [] (num + 1)
        (beg :: r.1, r.2)
      else fill_char delimeter limit p (beg ++ [c]) num
    else ([], beg ++ c :: p)

/-- The last item is what is left after the last delimiter, unless nothing is. -/
def last_item (r : List text_t × text_t) : List text_t :=
  if r.2 ≠ [] then r.1 ++ [r.2] else r.1

def explode_char (max_array_size : Nat) (str : text_t) (delimeter : UInt8) : array_t :=
  let skipped := str.head? = some delimeter
  let str := if skipped then str.drop 1 else str
  if skipped ∧ str = [] then the_null_array
  else
    let found := count_char delimeter str
    let at_end := found.2 = some 1
    let num := if at_end then found.1 else found.1 + 1
    let limit : Int := if at_end then max_array_size else max_array_size - 1
    ⟨min num max_array_size, last_item (fill_char delimeter limit str [] 0)⟩

/-! ## Any delimiter -/

def count_string (del : text_t) : Nat → text_t → Nat × Option Nat
  | 0, _ => (0, none)
  | _ + 1, [] => (0, none)
  | steps + 1, c :: p =>
    if del <+: c :: p then
      let r := count_string del steps ((c :: p).drop del.length)
      (r.1 + 1, r.2.or (some (p.length + 1)))
    else count_string del steps p

def fill_string (del : text_t) (limit : Int) :
    Nat → text_t → text_t → Nat → List text_t × text_t
  | 0, p, beg, _ => ([], beg ++ p)
  | _ + 1, [], beg, _ => ([], beg)
  | steps + 1, c :: p, beg, num =>
    if (num : Int) < limit then
      if del <+: c :: p then
        let r := fill_string del limit steps ((c :: p).drop del.length) [] (num + 1)
        (beg :: r.1, r.2)
      else fill_string del limit steps p (beg ++ [c]) num
    else ([], beg ++ c :: p)

def explode_general (max_array_size : Nat) (str del : text_t) : array_t :=
  let len := del.length
  let skipped := del <+: str
  let str := if skipped then str.drop len else str
  let slen := str.length
  if skipped ∧ str = [] then the_null_array
  else
    let found := count_string del slen str
    let num := if slen ≤ len ∨ found.2 ≠ some len then found.1 + 1 else found.1
    -- an extra element can be added after the loop
    let limit : Int := max_array_size - 1
    ⟨min num max_array_size, last_item (fill_string del limit slen str [] 0)⟩

def explode_string (max_array_size : Nat) (str del : text_t) : array_t :=
  match str, del with
  | [], _ => the_null_array
  | str, [] =>
    let slen := min str.length max_array_size
    ⟨slen, (str.take slen).map fun c => [c]⟩
  | str, [delimeter] => explode_char max_array_size str delimeter
  | str, del => explode_general max_array_size str del

/-! ## The other way -/

/-- The texts of the items, where an item that is not a string is `none`. -/
def implode_loop (del : text_t) : List (Option text_t) → Nat → text_t
  | [], _ => []
  | none :: sv, num => implode_loop del sv num
  | some s :: sv, num => (if num ≠ 0 then del else []) ++ s ++ implode_loop del sv (num + 1)

def implode_string (arr : List (Option text_t)) (del : text_t) : text_t :=
  implode_loop del arr 0

/-- The characters of the items and how many strings there are. -/
def implode_count : List (Option text_t) → Nat × Nat
  | [] => (0, 0)
  | none :: sv => implode_count sv
  | some s :: sv => ((implode_count sv).1 + s.length, (implode_count sv).2 + 1)

/-- The characters that `implode_string` asks for. -/
def implode_size (arr : List (Option text_t)) (del : text_t) : Nat :=
  let (size, num) := implode_count arr
  if num = 0 then 0 else size + (num - 1) * del.length

end mudos.explode
