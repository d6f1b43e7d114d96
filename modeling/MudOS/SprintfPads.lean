-- The fields of `sprintf.c`: a text that is justified with pads around it at the
-- end of the output buffer, and the column that the buffer is in.
import MudOS.OutBuffers

namespace mudos.sprintf_pads

open ints out_buffers

/-! ## Pad strings -/

/-- A pad string, from a place in the format string on. -/
structure pad_info_t where
  what : List UInt8
  len : Nat
deriving DecidableEq

/-- The errors of the directives, and an access outside a block. -/
inductive error_t
  | ERR_BUFF_OVERFLOW
  | ERR_UNEXPECTED_EOS
  | ERR_NULL_PS
  | outside
deriving DecidableEq

abbrev Outcome (α : Type) := Except error_t α

def inside {α : Type} : Option α → Outcome α
  | some a => .ok a
  | none => .error .outside

/-- The loop of the quote: the characters up to the closing quote. -/
def quoted : List UInt8 → Outcome Nat
  | [] => .error .ERR_UNEXPECTED_EOS
  | c :: format_str =>
    if c = 92 then
      match format_str with
      | [] => .error .ERR_UNEXPECTED_EOS
      | _ :: format_str => (quoted format_str).map (· + 2)
    else if c = 39 then .ok 0
    else (quoted format_str).map (· + 1)

/-- The pad string behind a quote of the format string. -/
def quoted_pad (format_str : List UInt8) : Outcome pad_info_t := do
  let len ← quoted format_str
  if len = 0 then .error .ERR_NULL_PS else .ok ⟨format_str, len⟩

/-- The pad string of a field width with a leading zero. -/
def zero_pad : pad_info_t := ⟨[48], 1⟩

/-- The pad string of a directive that names none. -/
def no_pad : pad_info_t := ⟨[], 0⟩

/-- A column or a table keeps its own pad string. -/
def make_pad (p : pad_info_t) : Option pad_info_t := if p.len = 0 then none else some p

/-! ## The output buffer -/

abbrev INFO_J : UInt32 := 0x30

abbrev INFO_J_CENTRE : UInt32 := 0x10

abbrev INFO_J_LEFT : UInt32 := 0x20

/-- `for (i = 0, end = p + len; p < end; i++)`, with the characters that are left and `i`. -/
def pad_chars (pstr : List UInt8) (padlen : Nat) : Nat → Nat → Option (List UInt8)
  | 0, _ => some []
  | n + 1, i => do
    let i := if i = padlen then 0 else i
    let c ← pstr[i]?
    if c = 92 then
      -- guaranteed to have a valid char next
      let c ← pstr[i + 1]?
      (pad_chars pstr padlen n (i + 2)).map (c :: ·)
    else (pad_chars pstr padlen n (i + 1)).map (c :: ·)

/-- `len` is a `size_t` of `memset`: a negative number is a huge one. -/
def blanks (len : Int) : Option (List UInt8) :=
  if len < 0 then none else some (List.replicate len.toNat 32)

def pad_text (pad : Option pad_info_t) (len : Int) : Option (List UInt8) :=
  match pad with
  | some pad => if pad.len ≠ 0 then pad_chars pad.what pad.len len.toNat 0 else blanks len
  | none => blanks len

variable (fresh : Nat → UInt8)

/-- The room for `len` characters, or the error. -/
def extend (obuff : outbuffer_t) (len : Int) : Outcome (Int × malloc_block_t) := do
  let (obuff, space) ← inside (outbuf_extend fresh obuff len)
  if space ≠ len then .error .ERR_BUFF_OVERFLOW
  else
    let buffer ← inside obuff.buffer
    .ok (obuff.real_size, buffer)

def add_pad (obuff : outbuffer_t) (pad : Option pad_info_t) (len : Int) : Outcome outbuffer_t := do
  let (p, buffer) ← extend fresh obuff len
  let buffer ← inside (write buffer (p + len) [0])
  let chars ← inside (pad_text pad len)
  let buffer ← inside (write buffer p chars)
  .ok ⟨int32 (p + len), some buffer⟩

def add_nstr (obuff : outbuffer_t) (str : List UInt8) (len : Int) : Outcome outbuffer_t := do
  let (p, buffer) ← extend fresh obuff len
  let chars ← inside (if 0 ≤ len ∧ len ≤ str.length then some (str.take len.toNat) else none)
  let buffer ← inside (write buffer p chars)
  let buffer ← inside (write buffer (int32 (p + len)) [0])
  .ok ⟨int32 (p + len), some buffer⟩

def add_justified (obuff : outbuffer_t) (str : List UInt8) (slen : Int) (pad : Option pad_info_t)
    (fs : Int) (finfo : UInt32) (trailing : Bool) : Outcome outbuffer_t :=
  let fs := int32 (fs - slen)
  if fs ≤ 0 then add_nstr fresh obuff str slen
  else if finfo &&& INFO_J = INFO_J_LEFT then do
    let obuff ← add_nstr fresh obuff str slen
    if trailing then add_pad fresh obuff pad fs else .ok obuff
  else if finfo &&& INFO_J = INFO_J_CENTRE then do
    let i := fs / 2 + fs % 2
    let obuff ← add_pad fresh obuff pad i
    let obuff ← add_nstr fresh obuff str slen
    if trailing then add_pad fresh obuff pad (fs - i) else .ok obuff
  else do
    -- std (s)printf defaults to right justification
    let obuff ← add_pad fresh obuff pad fs
    add_nstr fresh obuff str slen

/-- `while (p2 > obuff.buffer && *p2 != '\n')` -/
def line_break (bytes : List UInt8) : Nat → Nat
  | 0 => 0
  | p2 + 1 => if bytes[p2 + 1]? ≠ some 10 then line_break bytes p2 else p2 + 1

/-- Nothing is a read before the first byte of the block. -/
def get_curpos (obuff : outbuffer_t) : Option Int :=
  match obuff.buffer with
  | none => some 0
  | some buffer =>
    if obuff.real_size - 1 < 0 then none
    else
      let p1 := (obuff.real_size - 1).toNat
      let p2 := line_break buffer.bytes p1
      if buffer.bytes[p2]? ≠ some 10 then some (p1 - p2 + 1) else some (p1 - p2)

end mudos.sprintf_pads
