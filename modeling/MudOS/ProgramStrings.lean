-- The table of the strings of a program, while it is compiled: `store_prog_string` and
-- `free_prog_string` of `compiler.c`, and what is read of the table when it is done.
import MudOS.Library.Runs
import Mathlib.Data.List.Basic

namespace mudos.program_strings

/-- Two strings are at one address when they are one text, since they are shared. -/
abbrev text_t := List UInt8

/-- What a `short` keeps of a number. -/
def short (n : Int) : Int := (n + 32768) % 65536 - 32768

/-- The blocks `A_STRINGS`, `A_STRING_NEXT` and `A_STRING_REFS` have one size. -/
structure compiler where
  size : Nat
  strings : Nat → Option text_t
  next : Nat → Int
  refs : Nat → Int
  string_idx : UInt8 → Int
  string_tags : UInt8 → Bool
  freed_string : Int
  /-- `STRING_HASH` of the address that the text has as long as it is shared. -/
  hash : text_t → UInt8
  /-- What has been stored and not freed, with the indices that were returned. -/
  given : List (text_t × Int)
  /-- Something has been read or written outside of the blocks. -/
  outside : Bool
  /-- A slot without a string has been taken for one. -/
  null : Bool

/-! ## Storing -/

/-- The search of a chain, in so many steps at most. -/
def find_string (s : compiler) (str : text_t) : Nat → Int → Option Nat
  | 0, _ => none
  | steps + 1, i =>
    if i < 0 then none
    else if s.strings i.toNat = some str then some i.toNat
    else find_string s str steps (s.next i.toNat)

def next_freed (s : compiler) : Option Nat :=
  (List.range s.size).find? fun i => decide (s.freed_string < i) && (s.strings i).isNone

/-- The new string goes into the slot and to the head of its chain. -/
def put_string (s : compiler) (str : text_t) (next : Int) (i : Nat) : compiler :=
  { s with
    strings := Function.update s.strings i (some str)
    next := Function.update s.next i next
    refs := Function.update s.refs i 1
    string_idx := Function.update s.string_idx (s.hash str) i
    given := (str, (i : Int)) :: s.given }

def store_prog_string (s : compiler) (str : text_t) : Int × compiler :=
  let hash := s.hash str
  let tag := s.string_tags hash
  match if tag then find_string s str (s.size + 1) (s.string_idx hash) else none with
  | some i =>
    (i, { s with
      refs := Function.update s.refs i (short (s.refs i + 1))
      given := (str, (i : Int)) :: s.given })
  | none =>
    let next := if tag then s.string_idx hash else -1
    let s := { s with string_tags := Function.update s.string_tags hash true }
    if 0 ≤ s.freed_string then
      match next_freed s with
      | some freed =>
        (s.freed_string, put_string { s with freed_string := freed } str next s.freed_string.toNat)
      | none =>
        -- `freed_string++` does not get behind 32767
        if s.size ≤ 32767 then
          (s.freed_string, put_string { s with freed_string := -1 } str next s.freed_string.toNat)
        else (s.freed_string, { s with outside := true })
    else
      let i := short s.size
      let s := { s with size := s.size + 1 }
      if 0 ≤ i then (i, put_string s str next i.toNat) else (i, { s with outside := true })

/-! ## Freeing -/

/-- The element before `num` in the chain, if there is one. -/
def find_prv (s : compiler) (num : Int) : Nat → Option Nat → Int → Option (Option Nat)
  | 0, _, _ => none
  | steps + 1, prv, i =>
    if i = num then some prv
    else if i = -1 then none
    else find_prv s num steps (some i.toNat) (s.next i.toNat)

/-- The slot is empty now, at the end of the table or before it. -/
def free_slot (s : compiler) (i : Nat) : compiler :=
  let s := { s with strings := Function.update s.strings i none }
  if i + 1 ≠ s.size then
    if (i : Int) < s.freed_string ∨ s.freed_string = -1 then { s with freed_string := i } else s
  else { s with size := s.size - 1 }

def free_prog_string (s : compiler) (num : Int) : compiler :=
  if num < 0 ∨ num > s.size - 1 then s
  else
    let n := num.toNat
    let s := { s with refs := Function.update s.refs n (short (s.refs n - 1)) }
    if 1 ≤ s.refs n then s
    else
      match s.strings n with
      | none => { s with null := true }
      | some str =>
        let hash := s.hash str
        match find_prv s num (s.size + 1) none (s.string_idx hash) with
        | none => s
        | some none =>
          free_slot
            { s with
              string_idx := Function.update s.string_idx hash (s.next n)
              string_tags :=
                if s.next n = -1 then Function.update s.string_tags hash false
                else s.string_tags } n
        | some (some prv) => free_slot { s with next := Function.update s.next prv (s.next n) } n

/-! ## Compilations -/

def start : compiler where
  size := 0
  strings _ := none
  next _ := 0
  refs _ := 0
  string_idx _ := 0
  string_tags _ := false
  freed_string := -1
  hash _ := 0
  given := []
  outside := false
  null := false

def is_stored (s : compiler) (str : text_t) : Bool :=
  (List.range s.size).any fun i => s.strings i = some str

inductive action
  | store (str : text_t)
  /-- What an earlier store returned is freed. -/
  | free (str : text_t) (num : Int)
  /-- A text that is not in the table is shared at another address. -/
  | move (str : text_t) (hash : UInt8)
  /-- Every string of the program is freed, by `deallocate_program` or `clean_parser`, and the
  next compilation begins. -/
  | finish

def step (s : compiler) : action → Option compiler
  | .store str => some (store_prog_string s str).2
  | .free str num =>
    if (str, num) ∈ s.given then
      some (free_prog_string { s with given := s.given.erase (str, num) } num)
    else none
  | .move str hash =>
    if is_stored s str then none else some { s with hash := Function.update s.hash str hash }
  | .finish =>
    some { start with
      hash := s.hash
      outside := s.outside
      null := s.null || (List.range s.size).any fun i => (s.strings i).isNone }

end mudos.program_strings
