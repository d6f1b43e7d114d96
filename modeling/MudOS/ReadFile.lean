-- `read_file` of `file.c`, where it is not compiled for Windows. The path is valid and the
-- file can be opened. It has no zero bytes, so that the error for these is not raised.
import MudOS.Library.LineStarts

open mudos.line_starts

namespace mudos.read_file

def is_newline (c : UInt8) : Bool := c = 0x0a

variable {α : Type*} (newline : α → Bool)

/-- The loop over the lines that are not wanted, from `p` to the end of the buffer: what is left
of `start`, and the pointer then. -/
def skip_lines : Nat → List α → Nat × List α
  | 0, p => (0, p)
  | start + 1, p =>
    if start = 0 then (0, p)
    else
      match after_newline newline p with
      | none => (start, p)
      | some p => skip_lines start p

/-- The buffer, with the pointer into it, and what was not read of the file. -/
structure buffer_t (α : Type*) where
  str : List α
  p : List α
  rest : List α

/-- Buffers of so many bytes are read until the first line is found, so many at most. -/
def read_buffers (size : Nat) : Nat → List α → Nat → Option (buffer_t α)
  | 0, _, _ => none
  | steps + 1, f, start =>
    if f.length < size then none
    else
      let str := f.take size
      let skipped := skip_lines newline start str
      if skipped.1 > 1 then read_buffers size steps (f.drop size) skipped.1
      else some ⟨str, skipped.2, f.drop size⟩

/-- The bytes up to the end of the last line that is wanted, and how many are wanted still. -/
def copy_lines : Nat → List α → List α × Nat
  | len, [] => ([], len)
  | len, c :: p =>
    if newline c then
      if len - 1 = 0 then ([c], 0)
      else (c :: (copy_lines (len - 1) p).1, (copy_lines (len - 1) p).2)
    else (c :: (copy_lines len p).1, (copy_lines len p).2)

/-- The wanted lines are copied to the front of the buffer and another part of the file is read
behind them. -/
def copy_text (size len : Nat) (b : buffer_t α) : Option (List α) :=
  let copied := copy_lines newline len b.p
  if copied.2 ≠ 0 ∧ b.rest ≠ [] then
    let more := min (size - copied.1.length) b.rest.length
    if more = 0 then none
    else
      -- the end is the same, so that what was in the buffer follows what is read
      let second := copy_lines newline copied.2
        (b.rest.take more ++ b.str.drop (copied.1.length + more))
      if b.rest.drop more ≠ [] ∧ second.2 ≠ 0 then none
      else some (copied.1 ++ second.1)
  else some copied.1

def read_file (READ_FILE_MAX_SIZE : Nat) (file : List α) (start len : Int) : Option (List α) :=
  if len < 0 then none
  else
    let st_size := file.length
    if st_size > READ_FILE_MAX_SIZE ∧ start = 0 ∧ len = 0 then none
    else
      let size := min st_size READ_FILE_MAX_SIZE
      let start := if start < 1 then 1 else start.toNat
      let len := if len = 0 then READ_FILE_MAX_SIZE else len.toNat
      if size = 0 then some []
      else
        match read_buffers newline size st_size file start with
        | none => none
        | some b =>
          if len ≠ READ_FILE_MAX_SIZE ∨ b.rest ≠ [] then copy_text newline size len b
          else some b.str

end mudos.read_file
