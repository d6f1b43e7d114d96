-- The files that `#include` opens: `merge` makes a path of the name between the
-- delimiters and the current file, in a buffer that `inc_open` has from its caller.
namespace mudos.include_paths

abbrev slash : UInt8 := 47
abbrev dot : UInt8 := 46

/-- `static char buf[1024]` -/
abbrev buf_size : Nat := 1024

/-! ## C strings -/

/-- A string is appended to what the buffer holds; without room for it the call writes past the
end. -/
def strcat (dest src : List UInt8) : Option (List UInt8) :=
  if (dest ++ src).length < buf_size then some (dest ++ src) else none

def strncat (dest src : List UInt8) (n : Nat) : Option (List UInt8) := strcat dest (src.take n)

/-- A difference of pointers, where a size is expected. -/
def size_t (n : Int) : Nat := (n % 4294967296).toNat

def strchr (c : UInt8) : List UInt8 → Option Nat
  | [] => none
  | x :: s => if x = c then some 0 else (strchr c s).map (· + 1)

def strrchr (c : UInt8) : List UInt8 → Option Nat
  | [] => none
  | x :: s =>
    match strrchr c s with
    | some i => some (i + 1)
    | none => if x = c then some 0 else none

/-! ## `merge` -/

/-- The file name, or the last component, is stripped: a zero goes to the last slash, or to the
start. -/
def strip (dest : List UInt8) : List UInt8 :=
  match strrchr slash dest with
  | some tmp => dest.take tmp
  | none => []

def separate (dest : List UInt8) : Option (List UInt8) :=
  if dest = [] then some dest else strcat dest [slash]

/-- The first component of the rest of the name goes to `dest`. The result has the rest of the
name after it, or nothing when this was the last component. -/
def append_first (dest src : List UInt8) : Option (List UInt8 × Option (List UInt8)) := do
  let dest ← separate dest
  match strchr slash src with
  | some q =>
    let start := src.dropWhile (· = slash)
    -- `q` is the slash that was found before `from` went on, so this may be negative
    let n : Int := q - (src.length - start.length)
    let dest ← strncat dest start (size_t n)
    return (dest, some ((src.drop (q + 1)).dropWhile (· = slash)))
  | none =>
    let dest ← strcat dest src
    return (dest, none)

/-- `while (*from)`, with more turns than there are characters left. -/
def merge_loop : Nat → List UInt8 → List UInt8 → Option (List UInt8)
  | 0, dest, _ => some dest
  | turns + 1, dest, src =>
    if src = [] then some dest
    else if src.take 3 = [dot, dot, slash] then
      -- including from above mudlib is not allowed
      if dest = [] then some dest else merge_loop turns (strip dest) (src.drop 3)
    else if src.take 2 = [dot, slash] then merge_loop turns dest (src.drop 2)
    else
      match append_first dest src with
      | none => none
      | some (dest, none) => some dest
      | some (dest, some src) => merge_loop turns dest src

/-- The path, or nothing when the buffer is overrun. -/
def merge (current_file name : List UInt8) : Option (List UInt8) := do
  let dest ← strcat [] current_file
  let src := name.dropWhile (· = slash)
  let dest := if src.length = name.length then strip dest else []
  merge_loop name.length dest src

/-! ## `inc_open` -/

/-- Two dots in a row, which are not looked for in the include directories. -/
def has_dots (name : List UInt8) : Bool :=
  (name.zip (name.drop 1)).any fun (p, next) => p = dot && next = dot

def search_dirs (can_open : List UInt8 → Bool) (name : List UInt8) :
    List (List UInt8) → Option (Option (List UInt8))
  | [] => some none
  | dir :: inc_list => do
    let buf ← strcat [] (dir ++ slash :: name)
    if can_open buf then return some buf else search_dirs can_open name inc_list

def inc_open (can_open : List UInt8 → Bool) (inc_list : List (List UInt8))
    (current_file name : List UInt8) : Option (Option (List UInt8)) := do
  let buf ← merge current_file name
  if can_open buf then return some buf
  else if has_dots name then return none
  else search_dirs can_open name inc_list

/-! ## `handle_include` -/

abbrev quote : UInt8 := 34
abbrev less_than : UInt8 := 60
abbrev greater_than : UInt8 := 62

/-- The name in the text of the directive, when that is not a macro. -/
def include_name : List UInt8 → Except String (List UInt8)
  | [] => .error "Missing leading \" or < in #include"
  | c :: name =>
    let delim := if c = quote then quote else greater_than
    if c ≠ quote ∧ c ≠ less_than then .error "Missing leading \" or < in #include"
    else if delim ∉ name then .error "Missing trailing \" or > in #include"
    else if buf_size - 100 < name.length then .error "Include name too long."
    else .ok (name.takeWhile (· ≠ delim))

end mudos.include_paths
