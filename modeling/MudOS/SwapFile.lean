-- The swap file of `swap.c`: the first-fit allocator of the file, the free
-- list with its two joins, and what `swap_out`, `swap_in` and `free_swap` do
-- with it.
import MudOS.Library.Memory
import MudOS.Library.Runs
import MudOS.Library.Spans

open mudos.memory mudos.spans

namespace mudos.swap

/-! ## The file -/

/-- `sizeof (int)`, the hidden size word before each block. -/
abbrev SIZEOF_INT : Nat := 4

/-- The four bytes that `fwrite((char *) &size, sizeof size, 1, ..)` writes. -/
def size_word (size : Nat) : List UInt8 :=
  [.ofNat size, .ofNat (size / 256), .ofNat (size / 65536), .ofNat (size / 16777216)]

def word_size : List UInt8 → Nat
  | [a, b, c, d] => a.toNat + b.toNat * 256 + c.toNat * 65536 + d.toNat * 16777216
  | _ => 0

/-- The file after the bytes are written at the offset. -/
abbrev fwrite (f : Nat → UInt8) (offset : Nat) (bytes : List UInt8) : Nat → UInt8 :=
  store f offset bytes

abbrev fread (f : Nat → UInt8) (offset n : Nat) : List UInt8 := load f offset n

/-! ## The allocator -/

/-- `sw_block_t`, less its link. -/
abbrev sw_block := Span

structure swap_state where
  /-- `NULL` until the first swap opens the file. -/
  swap_file : Option (Nat → UInt8)
  swap_free : List sw_block
  last_data : Nat

/-- First fit: the place for a block, and the free list without it. -/
def alloc_swap (last_data length : Nat) : List sw_block → Nat × List sw_block
  | [] => (last_data, [])
  | ptr :: next =>
    if ptr.length < length then
      let (ret, l) := alloc_swap last_data length next
      (ret, ptr :: l)
    else if ptr.length - length = 0 then
      (ptr.start, next)
    else
      (ptr.start, ⟨ptr.start + length, ptr.length - length⟩ :: next)

/-- Combine `m` with the block after it, if they touch. -/
def join_next (m : sw_block) : List sw_block → sw_block × List sw_block
  | [] => (m, [])
  | ptr :: next =>
    if m.start + m.length = ptr.start then (⟨m.start, m.length + ptr.length⟩, next)
    else (m, ptr :: next)

/-- Combine the last block before `m` with `m`, if they touch. -/
def join_prev (before : List sw_block) (m : sw_block) : List sw_block × sw_block :=
  match before.getLast? with
  | none => (before, m)
  | some prev =>
    if prev.start + prev.length = m.start then
      (before.dropLast, ⟨prev.start, prev.length + m.length⟩)
    else (before, m)

def free_swap (s : swap_state) (start length : Nat) : swap_state :=
  let before := s.swap_free.takeWhile fun ptr => !decide (start < ptr.start)
  let rest := s.swap_free.dropWhile fun ptr => !decide (start < ptr.start)
  let (m, after) := join_next ⟨start, length + SIZEOF_INT⟩ rest
  let (before, m) := join_prev before m
  -- the implicit infinite block at the end takes a block that reaches it
  if m.start + m.length = s.last_data then
    { s with swap_free := before, last_data := m.start }
  else
    { s with swap_free := before ++ m :: after }

/-! ## Swapping -/

/-- A block of memory: its size, with the size word, is an `int`. -/
abbrev mem_block := {b : List UInt8 // b.length + SIZEOF_INT < 2147483648}

/-- What the system answers to the calls of one `swap_out`: whether `fopen`
works, and how many bytes of the block and its size word reach the file. -/
structure IoResult where
  opened : Bool
  written : Nat

/-- The open swap file, or `none` when `assert_swap_file` returns 0. -/
def assert_swap_file (io : IoResult) (s : swap_state) : Option ((Nat → UInt8) × swap_state) :=
  match s.swap_file with
  | some f => some (f, s)
  | none =>
    if io.opened then some (fun _ => 0, ⟨some fun _ => 0, [], 0⟩) else none

/-- `*locp` is `none` for -1. The first answer is the return value. `fwrite` of
a block of no bytes writes no item, so it counts as a failure. -/
def swap_out (time_to_swap : Int) (io : IoResult) (s : swap_state) (block : mem_block)
    (locp : Option Nat) : Bool × Option Nat × swap_state :=
  if time_to_swap = 0 then (false, locp, s)
  else
    match assert_swap_file io s with
    | none => (false, locp, s)
    | some (f, s) =>
      match locp with
      | some loc => (true, some loc, s)
      | none =>
        let size := block.val.length
        let (loc, swap_free) := alloc_swap s.last_data (size + SIZEOF_INT) s.swap_free
        let bytes := size_word size ++ block.val
        let f := fwrite f loc (bytes.take io.written)
        if io.written < bytes.length ∨ size = 0 then
          (false, none, { s with swap_file := some f, swap_free })
        else
          (true, some loc,
            { swap_file := some f, swap_free,
              last_data := if loc ≥ s.last_data then loc + SIZEOF_INT + size else s.last_data })

/-- The size that is returned, and the block that is read. -/
def swap_in (s : swap_state) (loc : Option Nat) : Nat × List UInt8 :=
  match loc, s.swap_file with
  | some loc, some f =>
    let size := word_size (fread f loc SIZEOF_INT)
    (size, fread f (loc + SIZEOF_INT) size)
  | _, _ => (0, [])

/-! ## The file and its users -/

/-- The swap file, with the blocks that its users hold in it: the location
that `swap_out` gave, and the block it wrote there. -/
structure Swapper where
  state : swap_state
  live : List (Nat × mem_block)

inductive Op
  | swap_out (io : IoResult) (block : mem_block)
  | swap_out_again (io : IoResult) (held : Nat × mem_block)
  | swap_in (held : Nat × mem_block)
  | free_swap (held : Nat × mem_block)

def Swapper.start : Swapper := ⟨⟨none, [], 0⟩, []⟩

def Swapper.step (time_to_swap : Int) (w : Swapper) : Op → Option Swapper
  | .swap_out io block =>
    match swap.swap_out time_to_swap io w.state block none with
    | (true, some loc, s) => some ⟨s, (loc, block) :: w.live⟩
    | (_, _, s) => some ⟨s, w.live⟩
  | .swap_out_again io held =>
    if held ∈ w.live then
      some { w with state := (swap.swap_out time_to_swap io w.state held.2 (some held.1)).2.2 }
    else none
  | .swap_in held => if held ∈ w.live then some w else none
  | .free_swap held =>
    if held ∈ w.live then
      some ⟨swap.free_swap w.state held.1 held.2.val.length, w.live.erase held⟩
    else none

/-- The space of a live block, with its size word. -/
def heldSpan (held : Nat × mem_block) : Span := ⟨held.1, held.2.val.length + SIZEOF_INT⟩

def Swapper.liveSpans (w : Swapper) : List Span := w.live.map heldSpan

structure Sound (w : Swapper) : Prop where
  apart : (w.liveSpans ++ w.state.swap_free).Pairwise Apart
  /-- Each free block ends before the next one starts, with a gap: sorted and
  coalesced. -/
  sorted : w.state.swap_free.Pairwise fun a b => a.fin < b.start
  below : ∀ b ∈ w.state.swap_free, b.fin < w.state.last_data
  covers : ∀ i, i < w.state.last_data ↔ ∃ b ∈ w.liveSpans ++ w.state.swap_free, b.has i
  contents : ∀ held ∈ w.live,
    swap_in w.state (some held.1) = (held.2.val.length, held.2.val)

/-- A write that fails, fails before the allocator has carved the block out of
a free block: the free list has no block that is large enough. -/
def NoCarvedWriteFails (time_to_swap : Int) (w : Swapper) : Op → Prop
  | .swap_out io block =>
    time_to_swap = 0 ∨ (block.val.length + SIZEOF_INT ≤ io.written ∧ block.val ≠ []) ∨
      ∀ b ∈ w.state.swap_free, b.length < block.val.length + SIZEOF_INT
  | _ => True

instance (time_to_swap : Int) (w : Swapper) (op : Op) :
    Decidable (NoCarvedWriteFails time_to_swap w op) :=
  match op with
  | .swap_out _ _ => inferInstanceAs (Decidable (_ ∨ _ ∨ _))
  | .swap_out_again _ _ | .swap_in _ | .free_swap _ => isTrue trivial

end mudos.swap
