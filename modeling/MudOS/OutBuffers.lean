-- The output buffers of `comm.c`: a text that grows at its end, in a string
-- block whose size is an `unsigned short`.
import MudOS.Library.Ints
import MudOS.Library.Runs

namespace mudos.out_buffers

open ints

/-! ## The blocks -/

abbrev USHRT_MAX : Int := 65535

abbrev LARGEST_PRINTABLE_STRING : Nat := 8192

/-- A string block: the stored size, and the bytes behind the header. -/
structure malloc_block_t where
  size : Int
  bytes : List UInt8
deriving DecidableEq

/-- `mbt->size = ..` of `new_string` and `extend_string`. -/
def stored_size (len : Int) : Int := if len < USHRT_MAX then len else USHRT_MAX

section allocations

-- what a byte of memory holds when it is allocated
variable (fresh : Nat → UInt8)

def new_string (size : Int) : Option malloc_block_t :=
  if size < 0 then none
  else some ⟨stored_size size, (List.range (size.toNat + 1)).map fresh⟩

def extend_string (str : malloc_block_t) (len : Int) : Option malloc_block_t :=
  if len < 0 then none
  else some ⟨stored_size len,
    (List.range (len.toNat + 1)).map fun i => (str.bytes[i]?).getD (fresh i)⟩

end allocations

/-- Nothing is a write outside the allocated bytes. -/
def write (str : malloc_block_t) (at_ : Int) (text : List UInt8) : Option malloc_block_t :=
  if 0 ≤ at_ ∧ at_ + text.length ≤ str.bytes.length then
    some { str with
      bytes := str.bytes.take at_.toNat ++ text ++ str.bytes.drop (at_.toNat + text.length) }
  else none

def strcpy (str : malloc_block_t) (at_ : Int) (text : List UInt8) : Option malloc_block_t :=
  write str at_ (text ++ [0])

/-- `n` is a `size_t`: a negative number is a huge one. -/
def strncpy (str : malloc_block_t) (at_ : Int) (text : List UInt8) (n : Int) :
    Option malloc_block_t :=
  if n < 0 then none
  else write str at_ ((text ++ List.replicate (n.toNat - text.length) 0).take n.toNat)

/-! ## The buffer -/

structure outbuffer_t where
  real_size : Int
  buffer : Option malloc_block_t
deriving DecidableEq

def outbuf_zero : outbuffer_t := ⟨0, none⟩

/-- What the growth of a buffer comes to: it is full already, it takes a part, or there is
room. -/
inductive room_t
  | full
  | cut (buffer : malloc_block_t)
  | fits (real_size : Int) (buffer : malloc_block_t)

variable (fresh : Nat → UInt8)

/-- The growth for `l` more characters, which `outbuf_extend`, `outbuf_add` and
`outbuf_addchar` share. The last one makes its first block larger. -/
def grow (outbuf : outbuffer_t) (l first : Int) : Option room_t :=
  match outbuf.buffer with
  | some buffer =>
    if int32 (outbuf.real_size + l) > buffer.size then
      if outbuf.real_size = USHRT_MAX then some .full
      else
        -- assume it's going to grow some more
        let limit := int32 (int32 (outbuf.real_size + l) * 2)
        if limit > USHRT_MAX then
          let limit := int32 (outbuf.real_size + l)
          if limit > USHRT_MAX then (extend_string fresh buffer USHRT_MAX).map .cut
          else (extend_string fresh buffer limit).map (.fits outbuf.real_size)
        else (extend_string fresh buffer limit).map (.fits outbuf.real_size)
    else some (.fits outbuf.real_size buffer)
  | none => (new_string fresh first).map (.fits 0)

/-- The buffer, and how many of the `l` characters it has room for. -/
def outbuf_extend (outbuf : outbuffer_t) (l : Int) : Option (outbuffer_t × Int) := do
  match ← grow fresh outbuf l l with
  | .full => some (outbuf, 0)
  | .cut buffer => some (⟨outbuf.real_size, some buffer⟩, int32 (USHRT_MAX - outbuf.real_size))
  | .fits real_size buffer => some (⟨real_size, some buffer⟩, l)

def outbuf_add (outbuf : outbuffer_t) (str : List UInt8) : Option outbuffer_t := do
  let l := int32 str.length
  match ← grow fresh outbuf l l with
  | .full => some outbuf
  | .cut buffer =>
    let buffer ← strncpy buffer outbuf.real_size str (int32 (USHRT_MAX - outbuf.real_size))
    let buffer ← write buffer USHRT_MAX [0]
    some ⟨USHRT_MAX, some buffer⟩
  | .fits real_size buffer =>
    let buffer ← strcpy buffer real_size str
    some ⟨int32 (real_size + l), some buffer⟩

def outbuf_addchar (outbuf : outbuffer_t) (c : UInt8) : Option outbuffer_t := do
  match ← grow fresh outbuf 1 80 with
  | .full => some outbuf
  | .cut buffer =>
    let buffer ← write buffer outbuf.real_size [c]
    let buffer ← write buffer USHRT_MAX [0]
    some ⟨USHRT_MAX, some buffer⟩
  | .fits real_size buffer =>
    let buffer ← write buffer real_size [c]
    let buffer ← write buffer (int32 (real_size + 1)) [0]
    some ⟨int32 (real_size + 1), some buffer⟩

/-- The text is the one that `vsprintf` prints into an array of its own. -/
def outbuf_addv (outbuf : outbuffer_t) (text : List UInt8) : Option outbuffer_t :=
  if text.length + 1 > LARGEST_PRINTABLE_STRING + 1 then none else outbuf_add fresh outbuf text

def outbuf_fix (outbuf : outbuffer_t) : Option outbuffer_t :=
  match outbuf.buffer with
  | some buffer =>
    (extend_string fresh buffer outbuf.real_size).map fun b => ⟨outbuf.real_size, some b⟩
  | none => some outbuf

inductive string_t
  | STRING_MALLOC (string : malloc_block_t)
  | STRING_CONSTANT (string : List UInt8)

def outbuf_push (outbuf : outbuffer_t) : Option string_t :=
  match outbuf.buffer with
  | some buffer => (extend_string fresh buffer outbuf.real_size).map .STRING_MALLOC
  | none => some (.STRING_CONSTANT [])

/-! ## Sequences of additions -/

inductive addition
  | outbuf_add (str : List UInt8)
  | outbuf_addv (text : List UInt8)
  | outbuf_addchar (c : UInt8)
deriving DecidableEq

def addition.text : addition → List UInt8
  | .outbuf_add str => str
  | .outbuf_addv text => text
  | .outbuf_addchar c => [c]

def add (outbuf : outbuffer_t) : addition → Option outbuffer_t
  | .outbuf_add str => out_buffers.outbuf_add fresh outbuf str
  | .outbuf_addv text => out_buffers.outbuf_addv fresh outbuf text
  | .outbuf_addchar c => out_buffers.outbuf_addchar fresh outbuf c

end mudos.out_buffers
