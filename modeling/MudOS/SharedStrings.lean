-- The shared strings: a hash table of chains, in which a text is to stand once,
-- with a count of its references that stays at zero after it has overflowed.
import MudOS.Library.Runs
import Mathlib.Logic.Function.Basic

namespace mudos.shared_strings

/-! ## Hashing -/

def T : List UInt8 :=
  [
    1, 87, 49, 12, 176, 178, 102, 166, 121, 193, 6, 84, 249, 230, 44, 163,
    14, 197, 213, 181, 161, 85, 218, 80, 64, 239, 24, 226, 236, 142, 38, 200,
    110, 177, 104, 103, 141, 253, 255, 50, 77, 101, 81, 18, 45, 96, 31, 222,
    25, 107, 190, 70, 86, 237, 240, 34, 72, 242, 20, 214, 244, 227, 149, 235,
    97, 234, 57, 22, 60, 250, 82, 175, 208, 5, 127, 199, 111, 62, 135, 248,
    174, 169, 211, 58, 66, 154, 106, 195, 245, 171, 17, 187, 182, 179, 0, 243,
    132, 56, 148, 75, 128, 133, 158, 100, 130, 126, 91, 13, 153, 246, 216, 219,
    119, 68, 223, 78, 83, 88, 201, 99, 122, 11, 92, 32, 136, 114, 52, 10,
    138, 30, 48, 183, 156, 35, 61, 26, 143, 74, 251, 94, 129, 162, 63, 152,
    170, 7, 115, 167, 241, 206, 3, 150, 55, 59, 151, 220, 90, 53, 23, 131,
    125, 173, 15, 238, 79, 95, 89, 16, 105, 137, 225, 224, 217, 160, 37, 123,
    118, 73, 2, 157, 46, 116, 9, 145, 134, 228, 207, 212, 202, 215, 69, 229,
    27, 188, 67, 124, 168, 252, 42, 4, 29, 108, 21, 247, 19, 205, 39, 203,
    233, 40, 186, 147, 198, 192, 155, 33, 164, 191, 98, 204, 165, 180, 117, 76,
    140, 36, 210, 172, 41, 54, 159, 8, 185, 232, 113, 196, 231, 47, 146, 120,
    51, 65, 28, 144, 254, 221, 93, 189, 194, 139, 112, 43, 71, 109, 184, 209]

/-- The hash of the first `maxn` characters. A text is a list of characters that are not
zero, without the final zero. -/
def whashstr (s : List UInt8) (maxn : Nat) : Nat :=
  match s with
  | [] => 0
  | c :: p =>
    let (oh, h) := (p.take (maxn - 1)).foldl
      (fun (oh, h) c => (T.getD (oh ^^^ c).toNat 0, T.getD (h ^^^ c).toNat 0))
      (T.getD c.toNat 0, c + 1)
    (oh.toNat <<< 8) + h.toNat

/-! ## The table -/

/-- The options of the driver, with the number of chains less one. -/
structure options where
  max_string_length : Nat
  htable_size_minus_one : Nat

variable (opts : options)

def StrHash (s : List UInt8) : Nat := whashstr s 20 &&& opts.htable_size_minus_one

abbrev USHRT_MAX : Nat := 65535

/-- A block with its text. The two numbers have 16 bits. -/
structure block_t where
  size : Nat
  refs : Nat
  STRING : List UInt8
deriving DecidableEq

/-- The memory, the chains of addresses, and how many references the other code holds. -/
structure strings where
  blocks : Nat → Option block_t
  base_table : Nat → List Nat
  held : Nat → Nat

def text (s : strings) (b : Nat) : Option (List UInt8) := (s.blocks b).map block_t.STRING

/-- The block of the text in the chain, which moves to the head of the chain. -/
def sfindblock (str : List UInt8) (h : Nat) (s : strings) : Option Nat × strings :=
  match (s.base_table h).find? fun b => text s b = some str with
  | none => (none, s)
  | some curr =>
    (some curr, { s with
      base_table :=
        Function.update s.base_table h (curr :: (s.base_table h).erase curr) })

def findstring (str : List UInt8) (s : strings) : Option Nat × strings :=
  sfindblock str (StrHash opts str) s

/-- A block at a new address, with as much of the text as is allowed. -/
def alloc_new_string (string : List UInt8) (h b : Nat) (s : strings) : strings :=
  let len := min string.length opts.max_string_length
  { s with
    blocks := Function.update s.blocks b (some ⟨min len USHRT_MAX, 1, string.take len⟩)
    base_table := Function.update s.base_table h (b :: s.base_table h) }

/-- `if (REFS(b)) REFS(b)++` -/
def add_reference (r : Nat) : Nat := if r = 0 then 0 else (r + 1) % (USHRT_MAX + 1)

def set_refs (b r : Nat) (s : strings) : strings :=
  { s with
    blocks := Function.update s.blocks b ((s.blocks b).map fun block => { block with refs := r }) }

def refs (s : strings) (b : Nat) : Nat := ((s.blocks b).map block_t.refs).getD 0

/-- The string that is returned. A new block would be at the address `b`. -/
def make_shared_string (str : List UInt8) (b : Nat) (s : strings) : Nat × strings :=
  let h := StrHash opts str
  match sfindblock str h s with
  | (none, s) => (b, alloc_new_string opts str h b s)
  | (some b, s) => (b, set_refs b (add_reference (refs s b)) s)

def ref_string (b : Nat) (s : strings) : strings := set_refs b (add_reference (refs s b)) s

/-- A block that is not in the chain of its text is not freed. -/
def free_string (b : Nat) (s : strings) : strings :=
  if refs s b = 0 then s
  else
    let s := set_refs b (refs s b - 1) s
    if 0 < refs s b then s
    else
      let h := StrHash opts ((text s b).getD [])
      if b ∈ s.base_table h then
        { s with
          blocks := Function.update s.blocks b none
          base_table := Function.update s.base_table h ((s.base_table h).erase b) }
      else s

/-- The length without a look at the text, as long as it fits into 16 bits. -/
def COUNTED_STRLEN (block : block_t) : Nat :=
  if block.size ≠ USHRT_MAX then block.size
  else (block.STRING.drop USHRT_MAX).length + USHRT_MAX

/-! ## Runs -/

/-- The driver makes and looks up strings, and refers to those of which it holds a
reference. -/
inductive action
  | make_shared_string (str : List UInt8) (b : Nat)
  | ref_string (b : Nat)
  | free_string (b : Nat)
  | findstring (str : List UInt8)
deriving DecidableEq

def hold (b : Nat) (n : Nat) (s : strings) : strings :=
  { s with held := Function.update s.held b n }

def step (s : strings) : action → Option strings
  | .make_shared_string str b =>
    if (s.blocks b).isNone then
      let (b, s) := make_shared_string opts str b s
      some (hold b (s.held b + 1) s)
    else none
  | .ref_string b => if 0 < s.held b then some (hold b (s.held b + 1) (ref_string b s)) else none
  | .free_string b =>
    if 0 < s.held b then some (hold b (s.held b - 1) (free_string opts b s)) else none
  | .findstring str => some (findstring opts str s).2

/-- `init_strings` -/
def start : strings where
  blocks := fun _ => none
  base_table := fun _ => []
  held := fun _ => 0

end mudos.shared_strings
