-- Arrays among the counted blocks: `allocate_empty_array`, `copy_array`, `slice_array` and
-- `add_array` of `array.c`.
import MudOS.ReferenceCounts

open mudos.reference_counts

namespace mudos.array_blocks

/-! ## Blocks of arrays -/

/-- The field is an `unsigned short`; the block has room for all that has been asked for. -/
def size (b : block_t) : Nat := ushort b.item.length

/-- The array at an address, unless it has been deallocated. -/
def array_at (m : memory) (a : Nat) : Option block_t :=
  match m.blocks[a]? with
  | none => none
  | some b => if b.allocated then some b else none

def set_ref (m : memory) (a ref : Nat) : memory :=
  { m with blocks := m.blocks.modify a fun b => { b with ref } }

/-- `p->ref--` -/
def dec_ref (m : memory) (p : Nat) : memory :=
  { m with blocks := m.blocks.modify p fun b => { b with ref := ushort (b.ref + 65535) } }

/-- A memory in which a function has ended, with the text of the error that it has raised or the
array that it has returned. -/
abbrev Outcome := memory × Except String Nat

def new_array (n : Nat) : block_t where
  type := .T_ARRAY
  ref := 1
  item := List.replicate n (.number 0)
  allocated := true
  null := false
  immortal := false

def allocate_empty_array (max_array_size : Int) (m : memory) (n : Int) : Outcome :=
  if n < 0 ∨ max_array_size < n then (m, .error "Illegal array size.\n")
  -- `the_null_array`
  else if n = 0 then (m, .ok 0)
  else ({ m with blocks := m.blocks ++ [new_array n.toNat] }, .ok m.blocks.length)

/-- The block may get another address, so it always does. `the_null_array` must not get here. -/
def RESIZE_ARRAY (m : memory) (vec nelem : Nat) : Option (memory × Nat) :=
  (array_at m vec).bind fun b =>
    if b.null then none
    else
      let item := b.item.take nelem ++ List.replicate (nelem - b.item.length) (.number 0)
      let m := FREE m vec
      some ({ m with blocks := m.blocks ++ [{ b with item }] }, m.blocks.length)

/-! ## Loops over items -/

/-- `*dest = *from` -/
def copy_svalue (m : memory) (dest «from» : place) : Option memory :=
  match read m dest, read m «from» with
  | some _, some v => some (write m v dest)
  | _, _ => none

/-- The values are transferred from the last to the first. -/
def move_some_svalues (m : memory) (dest «from» : place) : Nat → Option memory
  | 0 => some m
  | cnt + 1 =>
    (copy_svalue m (dest.add cnt) («from».add cnt)).bind fun m =>
      move_some_svalues m dest «from» cnt

/-- The values are transferred from the first to the last. -/
def shift_svalues (m : memory) (dest «from» : place) : Nat → Option memory
  | 0 => some m
  | cnt + 1 =>
    (copy_svalue m dest «from»).bind fun m => shift_svalues m (dest.add 1) («from».add 1) cnt

/-- The values are copied from the first to the last. -/
def assign_some_svalues (m : memory) (dest «from» : place) : Nat → Option memory
  | 0 => some m
  | cnt + 1 =>
    (assign_svalue_no_free m dest «from»).bind fun m =>
      assign_some_svalues m (dest.add 1) («from».add 1) cnt

/-- What has been freed still stands in its place. -/
def free_item (m : memory) (p i : Nat) : Option memory :=
  (read m (.item p i)).map (free_svalue (m.blocks.length + 1) m)

/-- `while (cnt--) free_svalue(--sv1)` -/
def free_items_down (m : memory) (p : Nat) : Nat → Option memory
  | 0 => some m
  | cnt + 1 => (free_item m p cnt).bind fun m => free_items_down m p cnt

/-- `while (cnt--) free_svalue(sv2++)` -/
def free_items_up (m : memory) (p sv2 : Nat) : Nat → Option memory
  | 0 => some m
  | cnt + 1 => (free_item m p sv2).bind fun m => free_items_up m p (sv2 + 1) cnt

/-! ## Copies and slices -/

def copy_array (max_array_size : Int) (m : memory) (p : Nat) : Option Outcome :=
  (array_at m p).bind fun b =>
    match allocate_empty_array max_array_size m (size b) with
    | (m, .error text) => some (m, .error text)
    | (m, .ok d) =>
      (copy_some_svalues m (.item d 0) (.item p 0) (size b)).map fun m => (m, .ok d)

/-- The part of `slice_array` for an array without other references. -/
def slice_in_place (m : memory) (p size «from» «to» : Nat) : Option (memory × Nat) :=
  let shifted :=
    if «from» ≠ 0 then
      (free_items_down m p «from»).bind fun m =>
        shift_svalues m (.item p 0) (.item p «from») («to» - «from» + 1)
    else some m
  shifted.bind fun m =>
    (free_items_up m p («to» + 1) (size - 1 - «to»)).bind fun m =>
      (RESIZE_ARRAY m p («to» - «from» + 1)).map fun (m, p) => (set_ref m p 1, p)

def slice_array (max_array_size : Int) (m : memory) (p : Nat) («from» «to» : Int) : Option Outcome :=
  (array_at m p).bind fun b =>
    let «from» := if «from» < 0 then 0 else «from»
    let «to» := if (size b : Int) ≤ «to» then (size b : Int) - 1 else «to»
    if «to» < «from» then some (free_svalue (m.blocks.length + 1) m (.block p), .ok 0)
    else
      let m := dec_ref m p
      if ushort (b.ref + 65535) = 0 then
        (slice_in_place m p (size b) «from».toNat «to».toNat).map fun (m, p) => (m, .ok p)
      else
        match allocate_empty_array max_array_size m («to» - «from» + 1) with
        | (m, .error text) => some (m, .error text)
        | (m, .ok d) =>
          (assign_some_svalues m (.item d 0) (.item p «from».toNat) («to» - «from» + 1).toNat).map
            fun m => (m, .ok d)

/-! ## Concatenation -/

/-- `r->ref > 1 ? (r->ref--, copy_array(r)) : r` -/
def own_array (max_array_size : Int) (m : memory) (r : Nat) : Option Outcome :=
  (array_at m r).bind fun b =>
    if b.ref > 1 then copy_array max_array_size (dec_ref m r) r else some (m, .ok r)

/-- `x += x` -/
def append_to_itself (m : memory) (p size : Nat) : Option (memory × Nat) :=
  (RESIZE_ARRAY m p (size + size)).bind fun (m, d) =>
    (copy_some_svalues m (.item d size) (.item d 0) size).map fun m => (set_ref m d 1, d)

/-- The destination, with the items of the first operand and room for those of the second one. -/
def destination (max_array_size : Int) (m : memory) (p size res : Nat) (sole : Bool) :
    Option Outcome :=
  if sole then (RESIZE_ARRAY m p res).map fun (m, d) => (m, .ok d)
  else
    match allocate_empty_array max_array_size m res with
    | (m, .error text) => some (m, .error text)
    | (m, .ok d) =>
      (copy_some_svalues m (.item d 0) (.item p 0) size).map fun m => (dec_ref m p, .ok d)

/-- The items of the second operand are put behind the others. -/
def append_source (m : memory) (d at_ r : Nat) : Option memory :=
  (array_at m r).bind fun b =>
    if b.ref = 1 then
      (move_some_svalues m (.item d at_) (.item r 0) (size b)).map fun m => FREE m r
    else
      (copy_some_svalues m (.item d at_) (.item r 0) (size b)).map fun m => dec_ref m r

def add_array (max_array_size : Int) (m : memory) (p r : Nat) : Option Outcome :=
  (array_at m p).bind fun bp =>
    (array_at m r).bind fun br =>
      if size bp = 0 then own_array max_array_size (dec_ref m p) r
      else if size br = 0 then own_array max_array_size (dec_ref m r) p
      else
        let res := size bp + size br
        if max_array_size < res then
          some (m, .error "result of array addition is greater than maximum array size.\n")
        else if p = r ∧ bp.ref = 2 then
          (append_to_itself m p (size bp)).map fun (m, d) => (m, .ok d)
        else
          -- transfer svalues for ref 1 target array
          match destination max_array_size m p (size bp) res (bp.ref = 1) with
          | none => none
          | some (m, .error text) => some (m, .error text)
          | some (m, .ok d) =>
            -- transfer svalues from ref 1 source array
            (append_source m d (size bp) r).map fun m => (m, .ok d)

end mudos.array_blocks
