-- Values come back from their text in two passes. The first counts the elements
-- of a container and writes down in a table how many each container inside it
-- has. The second builds them, and takes the numbers from the table in order.
import MudOS.Mapping

open mudos.mapping

namespace mudos.saved_values

/-! ## Values -/

structure literal where
  neg : Bool
  res : Int
  fraction : List UInt8
  expo : Option Int
deriving DecidableEq

/-- A string, an array, a class and a mapping each have the number of their block. -/
inductive svalue_t
  | T_NUMBER (number : Int)
  | T_REAL (real : literal)
  | T_STRING (block : Nat) (string : List UInt8)
  | T_ARRAY (block : Nat) (item : List svalue_t)
  | T_CLASS (block : Nat) (item : List svalue_t)
  | T_MAPPING (block : Nat) (node : List (svalue_t × svalue_t))

abbrev const0 : svalue_t := .T_NUMBER 0

/-- The array without elements is always there and is not allocated. -/
def the_null_array : svalue_t := .T_ARRAY 0 []

/-- What two keys have in common that are the same for `msameval`. -/
inductive Key
  | number (number : Int)
  | real (real : literal)
  | string (string : List UInt8)
  | block (block : Nat)
deriving DecidableEq

def svalue_t.key : svalue_t → Key
  | .T_NUMBER number => .number number
  | .T_REAL real => .real real
  | .T_STRING _ string => .string string
  | .T_ARRAY block _ => .block block
  | .T_CLASS block _ => .block block
  | .T_MAPPING block _ => .block block

mutual

/-- The blocks of a value that are freed with it. -/
def svalue_t.blocks : svalue_t → List Nat
  | .T_NUMBER _ => []
  | .T_REAL _ => []
  | .T_STRING block _ => [block]
  | .T_ARRAY block item => (if item.isEmpty then [] else [block]) ++ item_blocks item
  | .T_CLASS block item => block :: item_blocks item
  | .T_MAPPING block node => block :: node_blocks node

def item_blocks : List svalue_t → List Nat
  | [] => []
  | v :: item => v.blocks ++ item_blocks item

def node_blocks : List (svalue_t × svalue_t) → List Nat
  | [] => []
  | (key, value) :: node => key.blocks ++ value.blocks ++ node_blocks node

end

/-! ## Saving -/

/-- The least number loses its digits in the mask. -/
def save_number (number : Int) : List UInt8 :=
  let res := if number < 0 then (-number).toNat % 2147483648 else number.toNat
  (if number < 0 then [45] else []) ++ (Nat.toDigits 10 res).map fun ch => ch.toNat.toUInt8

def save_char (c : UInt8) : List UInt8 :=
  if c = 34 ∨ c = 92 then [92, c] else [if c = 10 then 13 else c]

mutual

/-- The text of a value, where `sprintf` writes a real number. -/
def save_svalue (sprintf : literal → List UInt8) : svalue_t → List UInt8
  | .T_NUMBER number => save_number number
  | .T_REAL real => sprintf real
  | .T_STRING _ string => 34 :: string.flatMap save_char ++ [34]
  | .T_ARRAY _ item => [40, 123] ++ save_items sprintf item ++ [125, 41]
  | .T_CLASS _ item => [40, 47] ++ save_items sprintf item ++ [47, 41]
  | .T_MAPPING _ node => [40, 91] ++ save_nodes sprintf node ++ [93, 41]

def save_items (sprintf : literal → List UInt8) : List svalue_t → List UInt8
  | [] => []
  | v :: item => save_svalue sprintf v ++ [44] ++ save_items sprintf item

def save_nodes (sprintf : literal → List UInt8) : List (svalue_t × svalue_t) → List UInt8
  | [] => []
  | (key, value) :: node =>
    save_svalue sprintf key ++ [58] ++ save_svalue sprintf value ++ [44] ++
      save_nodes sprintf node

end

/-! ## The driver -/

structure driver where
  save_svalue_depth : Nat
  sizes : Option (List Int)
  max_depth : Nat
  live : List Nat
  next_block : Nat

def start : driver where
  save_svalue_depth := 0
  sizes := none
  max_depth := 0
  live := []
  next_block := 1

/-- What goes wrong without the code noticing: an access outside of the text, of the table or
of a container, and a block that is freed again. A model that has run for too long is here too. -/
inductive fault
  | outside
  | twice_freed
  | running
deriving DecidableEq

/-- A function ends with a value, with an `ROB_` code, with `error()` or with a fault. -/
inductive outcome (α : Type)
  | value (a : α) (d : driver)
  | rob (code : Nat) (d : driver)
  | error (d : driver)
  | fault (f : fault)

variable {α β : Type}

/-- What follows a value, and what follows an `ROB_` code. -/
def outcome.handle (o : outcome α) (failed : Nat → driver → outcome β)
    (next : α → driver → outcome β) : outcome β :=
  match o with
  | .value a d => next a d
  | .rob code d => failed code d
  | .error d => .error d
  | .fault f => .fault f

def outcome.bind (o : outcome α) (next : α → driver → outcome β) : outcome β :=
  o.handle .rob next

abbrev ROB_STRING_ERROR : Nat := 1

abbrev ROB_ARRAY_ERROR : Nat := 2

abbrev ROB_MAPPING_ERROR : Nat := 4

abbrev ROB_NUMERAL_ERROR : Nat := 8

abbrev ROB_GENERAL_ERROR : Nat := 16

abbrev ROB_CLASS_ERROR : Nat := 32

abbrev ROB_ERROR : Nat := 63

/-- The block that is allocated has the number `next_block`. -/
def driver.new_block (d : driver) : driver :=
  { d with
    live := d.next_block :: d.live
    next_block := d.next_block + 1 }

def free_blocks : List Nat → driver → outcome Unit
  | [], d => .value () d
  | block :: l, d =>
    if block ∈ d.live then free_blocks l { d with live := d.live.erase block }
    else .fault .twice_freed

/-- What was built is freed, and the code is returned. -/
def give_up (blocks : List Nat) (code : Nat) (d : driver) : outcome α :=
  (free_blocks blocks d).bind fun _ d => .rob code d

/-! ## Strings and numerals -/

-- A text is the list of the bytes that are left in its buffer, up to the NUL at its end. What
-- stands behind them is not the program's, so that a read from the empty list is outside. The
-- characters of the format are `"` 34, `(` 40, `)` 41, `+` 43, `,` 44, `-` 45, `.` 46, `/` 47,
-- `:` 58, `[` 91, `\` 92, `]` 93, `e` 101, `{` 123 and `}` 125.

structure Text where
  bytes : List UInt8
  nul_free : 0 ∉ bytes

def Text.memory (t : Text) : List UInt8 := t.bytes ++ [0]

/-- The string up to its quote, and the text behind it. -/
inductive string_end
  | closed (s cp : List UInt8)
  | refused
  | outside

def string_end.put (c : UInt8) : string_end → string_end
  | .closed s cp => .closed (c :: s) cp
  | .refused => .refused
  | .outside => .outside

/-- The inner loop, behind an escape. It does not ask for the NUL. -/
def behind_escape : List UInt8 → string_end
  | [] => .outside
  | c :: cp =>
    if c = 34 then .closed [] cp
    else if c = 92 then
      match cp with
      | [] => .outside
      | c :: cp => if c = 0 then .refused else (behind_escape cp).put c
    else (behind_escape cp).put (if c = 13 then 10 else c)

def restore_interior_string : List UInt8 → string_end
  | [] => .outside
  | c :: cp =>
    if c = 34 then .closed [] cp
    else if c = 13 then (restore_interior_string cp).put 10
    else if c = 92 then
      match cp with
      | [] => .outside
      | c :: cp => if c = 0 then .refused else (behind_escape cp).put c
    else if c = 0 then .refused
    else (restore_interior_string cp).put c

/-- A string that is not in a container ends the text. -/
def restore_string (cp : List UInt8) : string_end :=
  match restore_interior_string cp with
  | .closed _ [] => .outside
  | .closed s (c :: cp) => if c = 0 then .closed s (c :: cp) else .refused
  | .refused => .refused
  | .outside => .outside

def isdigit (c : UInt8) : Bool := 48 ≤ c && c ≤ 57

def int32 (n : Int) : Int := n.bmod 4294967296

/-- `res` with the digits that follow, and the text behind them. -/
def digits (res : Int) : List UInt8 → Int × List UInt8
  | [] => (res, [])
  | c :: cp => if isdigit c then digits (int32 (res * 10 + (c.toNat - 48))) cp else (res, c :: cp)

/-- The number, the character behind it and the text behind that. -/
inductive numeric
  | number (v : svalue_t) (c : UInt8) (cp : List UInt8)
  | refused
  | outside

/-- The digits behind a point, and the text behind them. -/
def fraction (cp : List UInt8) : List UInt8 × List UInt8 :=
  (cp.takeWhile isdigit, cp.dropWhile isdigit)

/-- Behind the `e` of a real number. -/
def exponent (real : Int → literal) (cp : List UInt8) : numeric :=
  match cp with
  | [] => .outside
  | c :: cp =>
    if c = 43 ∨ c = 45 then
      match digits 0 cp with
      | (_, []) => .outside
      | (expo, c' :: cp) =>
        .number (.T_REAL (real (if c = 43 then expo else int32 (-expo)))) c' cp
    else .refused

def parse_digits (neg : Bool) (c : UInt8) (cp : List UInt8) : numeric :=
  match digits (c.toNat - 48) cp with
  | (_, []) => .outside
  | (res, c :: cp) =>
    if c = 46 then
      match cp with
      | [] => .outside
      | c :: _ =>
        if isdigit c then
          match fraction cp with
          | (_, []) => .outside
          | (f1, c :: cp) =>
            if c = 101 then exponent (fun expo => ⟨neg, res, f1, some expo⟩) cp
            else .number (.T_REAL ⟨neg, res, f1, none⟩) c cp
        else .refused
    else if c = 101 then exponent (fun expo => ⟨neg, res, [], some expo⟩) cp
    else .number (.T_NUMBER (if neg then int32 (-res) else res)) c cp

def parse_numeric (c : UInt8) (cp : List UInt8) : numeric :=
  if c = 45 then
    match cp with
    | [] => .outside
    | c :: cp => if isdigit c then parse_digits true c cp else .refused
  else parse_digits false c cp

/-! ## What stands at the cursor -/

inductive kind
  | array
  | class_
  | mapping
deriving DecidableEq

/-- The character behind a `(`. -/
def kind_of (c : UInt8) : Option kind :=
  if c = 123 then some .array
  else if c = 91 then some .mapping
  else if c = 47 then some .class_
  else none

/-- The cases of the switch that the restoring functions make. The text is that behind the
character that follows a string or a number, and behind the bracket of a container. -/
inductive lexeme
  | string (s cp : List UInt8)
  | number (v : svalue_t) (cp : List UInt8)
  | container (k : kind) (cp : List UInt8)
  | other (c : UInt8) (cp : List UInt8)
  | string_error
  | numeral_error
  | bracket_error
  | outside

def next_lexeme : List UInt8 → lexeme
  | [] => .outside
  | c :: cp =>
    if c = 34 then
      match restore_interior_string cp with
      | .closed s cp => .string s (cp.drop 1)
      | .refused => .string_error
      | .outside => .outside
    else if c = 40 then
      match cp with
      | [] => .outside
      | c :: cp =>
        match kind_of c with
        | some k => .container k cp
        | none => .bracket_error
    else if c = 45 || isdigit c then
      match parse_numeric c cp with
      | .number v _ cp => .number v cp
      | .refused => .numeral_error
      | .outside => .outside
    else .other c cp

/-! ## The first pass -/

/-- What the driver is configured with, where a key is put, and what stands in memory that has
not been written. -/
structure config where
  max_array_size : Nat
  MAX_MAPPING_SIZE : Nat
  hash : Key → Nat
  memory : Nat → Int

/-- A place behind the character that is looked for. -/
inductive place
  | found (cp : List UInt8)
  | missing
  | outside

def skip_string : List UInt8 → place
  | [] => .outside
  | c :: cp =>
    if c = 34 then .found cp
    else if c = 0 then .missing
    else if c = 92 then
      match cp with
      | [] => .outside
      | c :: cp => if c = 0 then .missing else skip_string cp
    else skip_string cp

def strchr (delim : UInt8) : List UInt8 → place
  | [] => .outside
  | c :: cp => if c = delim then .found cp else if c = 0 then .missing else strchr delim cp

/-- The character that ends an element, a key or, when `index` is set, a value. -/
def delimiter (is_mapping index : Bool) : UInt8 := if is_mapping && !index then 58 else 44

/-- `max_depth` is doubled until it is more than `depth`. -/
def doubled (depth : Nat) : Nat → Nat → Nat
  | 0, max_depth => max_depth
  | n + 1, max_depth => if max_depth ≤ depth then doubled depth n (2 * max_depth) else max_depth

/-- The table is made, or made larger, and the size is written. -/
def set_size (c : config) (depth size : Nat) (d : driver) : outcome Unit :=
  let d := match d.sizes with
    | none =>
      { d with
        max_depth := doubled depth depth 128
        sizes := some (List.replicate (doubled depth depth 128) 0) }
    | some sizes =>
      if depth ≥ d.max_depth then
        { d with
          max_depth := doubled depth depth (2 * d.max_depth)
          sizes := some (sizes.take (doubled depth depth (2 * d.max_depth)) ++
            (List.range' sizes.length
              (doubled depth depth (2 * d.max_depth) - sizes.length)).map c.memory) }
      else d
  match d.sizes with
  | none => .fault .outside
  | some sizes =>
    if depth < sizes.length then .value () { d with sizes := some (sizes.set depth size) }
    else .fault .outside

/-- How the loop over the elements ends: at the brackets that it looks for, at others, in a
string, or anywhere else. -/
inductive sized
  | closed (size : Nat) (cp : List UInt8)
  | mismatched
  | unclosed
  | wrong

/-- The loop goes on if the next character is the delimiter. -/
def behind (delim : UInt8) (next : List UInt8 → outcome sized) (d : driver) :
    List UInt8 → outcome sized
  | [] => .fault .outside
  | c :: cp => if c = delim then next cp else .value .wrong d

/-- The loop of `restore_size` and of `restore_internal_size`. -/
def size_loop (c : config) : Nat → Bool → List UInt8 → Nat → Bool → driver → outcome sized
  | 0, _, _, _, _, _ => .fault .running
  | _ + 1, _, [], _, _, _ => .fault .outside
  | n + 1, is_mapping, ch :: cp, size, index, d =>
    let delim := delimiter is_mapping index
    let next cp d := size_loop c n is_mapping cp (size + 1) (!index) d
    if ch = 0 then .value .wrong d
    else if ch = 34 then
      match skip_string cp with
      | .found cp => behind delim (fun cp => next cp d) d cp
      | .missing => .value .unclosed d
      | .outside => .fault .outside
    else if ch = 40 then
      match cp with
      | [] => .fault .outside
      | ch :: cp =>
        match kind_of ch with
        | none => .value .wrong d
        | some k =>
          -- `restore_internal_size`, with the depth before it is counted up
          (size_loop c n (k = .mapping) cp 0 false
            { d with save_svalue_depth := d.save_svalue_depth + 1 }).bind fun r d' =>
              match r with
              | .closed size cp => (set_size c d.save_svalue_depth size d').bind fun _ d =>
                behind delim (fun cp => next cp d) d cp
              | _ => .value .wrong d'
    else if ch = 93 then
      match cp with
      | [] => .fault .outside
      | ch :: cp => .value (if ch = 41 ∧ is_mapping then .closed size cp else .mismatched) d
    else if ch = 47 ∨ ch = 125 then
      match cp with
      | [] => .fault .outside
      | ch :: cp => .value (if ch = 41 ∧ ¬ is_mapping then .closed size cp else .mismatched) d
    else if ch = 58 ∨ ch = 44 then if ch = delim then next cp d else .value .wrong d
    else
      match strchr delim cp with
      | .found cp => next cp d
      | .missing => .value .wrong d
      | .outside => .fault .outside

/-- The outermost container. A string that is not closed in it is no error here. -/
def restore_size (c : config) (is_mapping : Bool) (cp : List UInt8) (d : driver) : outcome Int :=
  (size_loop c (cp.length + 1) is_mapping cp 0 false d).bind fun r d =>
    match r with
    | .closed size _ => .value size { d with save_svalue_depth := 0 }
    | .mismatched => .value (-1) { d with save_svalue_depth := 0 }
    | .unclosed => .value 0 d
    | .wrong => .value (-1) d

/-! ## The second pass -/

/-- `sizes[save_svalue_depth-1]` -/
def next_size (d : driver) : outcome Int :=
  match d.sizes with
  | none => .fault .outside
  | some sizes =>
    match sizes[d.save_svalue_depth - 1]? with
    | none => .fault .outside
    | some size => .value size d

/-- A function that restores the container behind a bracket. There is no value where
`restore_mapping` returns without one. -/
abbrev Restore : Type := kind → List UInt8 → driver → outcome (Option svalue_t × List UInt8)

/-- An element, a key or a value. Where nothing stands before the separator it is zero. -/
def restore_part (nested : Restore) (separator : UInt8) (string_error generic_error : Nat)
    (cp : List UInt8) (d : driver) : outcome (svalue_t × List UInt8) :=
  match next_lexeme cp with
  | .string s cp => .value (.T_STRING d.next_block s, cp) d.new_block
  | .number v cp => .value (v, cp) d
  | .container k cp =>
    (nested k cp { d with save_svalue_depth := d.save_svalue_depth + 1 }).bind fun (v, cp) d =>
      .value (v.getD const0, cp.drop 1) d
  | .other c cp => if c = separator then .value (const0, cp) d else .rob generic_error d
  | .string_error => .rob string_error d
  | .numeral_error => .rob ROB_NUMERAL_ERROR d
  | .bracket_error =>
    .rob generic_error { d with save_svalue_depth := d.save_svalue_depth + 1 }
  | .outside => .fault .outside

/-- The loop of `restore_array` and of `restore_class`, for the elements that are left of `n`. -/
def restore_items (nested : Restore) (n generic_error : Nat) (block : List Nat) :
    Nat → List svalue_t → List UInt8 → driver → outcome (List svalue_t × List UInt8)
  | 0, item, cp, d => .value (item, cp) d
  | size + 1, item, cp, d =>
    (restore_part nested 44 generic_error generic_error cp d).handle
      (give_up (block ++ item_blocks item)) fun (v, cp) d =>
        if item.length < n then restore_items nested n generic_error block size (item ++ [v]) cp d
        else .fault .outside

/-- `restore_array`, when the size is known. -/
def build_array (c : config) (nested : Restore) (size : Int) (cp : List UInt8) (d : driver) :
    outcome (Option svalue_t × List UInt8) :=
  if size < 0 ∨ size > c.max_array_size then .error d
  else if size = 0 then .value (some the_null_array, cp.drop 2) d
  else
    (restore_items nested size.toNat ROB_ARRAY_ERROR [d.next_block] size.toNat [] cp
      d.new_block).bind fun (item, cp) d' =>
        .value (some (.T_ARRAY d.next_block item), cp.drop 2) d'

def restore_array (c : config) (nested : Restore) (cp : List UInt8) (d : driver) :
    outcome (Option svalue_t × List UInt8) :=
  if d.save_svalue_depth ≠ 0 then
    (next_size d).bind fun size d => build_array c nested size cp d
  else
    (restore_size c false cp d).bind fun size d =>
      if size < 0 then .rob ROB_ARRAY_ERROR d else build_array c nested size cp d

/-- `restore_class`, when the size is known. Nothing stops the loop over a size below zero. -/
def build_class (nested : Restore) (size : Int) (cp : List UInt8) (d : driver) :
    outcome (Option svalue_t × List UInt8) :=
  if size < 0 then .fault .outside
  else
    (restore_items nested size.toNat ROB_CLASS_ERROR [d.next_block] size.toNat [] cp
      d.new_block).bind fun (item, cp) d' =>
        .value (some (.T_CLASS d.next_block item), cp.drop 2) d'

def restore_class (c : config) (nested : Restore) (cp : List UInt8) (d : driver) :
    outcome (Option svalue_t × List UInt8) :=
  if d.save_svalue_depth ≠ 0 then
    (next_size d).bind fun size d => build_class nested size cp d
  else
    (restore_size c false cp d).bind fun size d =>
      if size < 0 then .rob ROB_CLASS_ERROR d else build_class nested size cp d

/-- The variables of the loop of `restore_mapping`. A node of the table has its key and its
value. -/
abbrev Building : Type := adding_t Key (svalue_t × svalue_t)

/-- The nodes, as they are freed with the mapping. -/
def Building.node (m : Building) : List (svalue_t × svalue_t) := (traverse m.m).map Sigma.snd

/-- A node is put into the table, or the node of an equal key is changed. -/
def insert_node (c : config) (block : Nat) (m : Building) (key value : svalue_t) (d : driver) :
    outcome Building :=
  let oi := c.hash key.key
  let i := oi &&& m.mask
  if i > m.m.table_size then .fault .outside
  else
    match (m.m.table i).dlookup key.key with
    | some elt =>
      (free_blocks (key.blocks ++ elt.2.blocks) d).bind fun _ d =>
        .value { m with m := { m.m with
          table := Function.update m.m.table i
            ((m.m.table i).kreplace key.key (elt.1, value)) } } d
    | none =>
      let too_large (d : driver) : outcome Building :=
        (free_blocks (block :: node_blocks m.node ++ key.blocks ++ value.blocks) d).bind
          fun _ d => .error d
      match make_room c.hash m oi i with
      | none => too_large d
      | some (t, mask, i, elt2) =>
        if m.count + 1 > c.MAX_MAPPING_SIZE then too_large d
        else if i > t.table_size then .fault .outside
        else
          .value {
            m := { t with table := Function.update t.table i (⟨key.key, key, value⟩ :: elt2) }
            mask
            count := m.count + 1 } d

/-- The part of the loop of `restore_mapping` behind a key. -/
def restore_node (c : config) (nested : Restore) (block : Nat) (m : Building) (key : svalue_t)
    (next : Building → List UInt8 → driver → outcome (Option svalue_t × List UInt8))
    (cp : List UInt8) (d : driver) : outcome (Option svalue_t × List UInt8) :=
  (restore_part nested 44 ROB_STRING_ERROR ROB_MAPPING_ERROR cp d).handle
    (give_up (block :: node_blocks m.node ++ key.blocks)) fun (value, cp) d =>
      (insert_node c block m key value d).bind fun m d => next m cp d

/-- The loop of `restore_mapping`. -/
def restore_nodes (c : config) (nested : Restore) (block : Nat) :
    Nat → Building → List UInt8 → driver → outcome (Option svalue_t × List UInt8)
  | 0, _, _, _ => .fault .running
  | n + 1, m, cp, d =>
    if cp.head? = some 93 then .value (some (.T_MAPPING block m.node), cp.drop 2) d
    else
      (restore_part nested 58 ROB_STRING_ERROR ROB_MAPPING_ERROR cp d).handle
        (give_up (block :: node_blocks m.node)) fun (key, cp) d =>
          restore_node c nested block m key (restore_nodes c nested block n) cp d

/-- `restore_mapping`, when the size is known. -/
def build_mapping (c : config) (nested : Restore) (size : Int) (cp : List UInt8) (d : driver) :
    outcome (Option svalue_t × List UInt8) :=
  if size = 0 then .value (some (.T_MAPPING d.next_block []), cp.drop 2) d.new_block
  else
    let m := allocate_mapping c.MAX_MAPPING_SIZE (size / 2).toNat
    restore_nodes c nested d.next_block (cp.length + 1) ⟨m, m.table_size, 0⟩ cp d.new_block

def restore_mapping (c : config) (nested : Restore) (cp : List UInt8) (d : driver) :
    outcome (Option svalue_t × List UInt8) :=
  if d.save_svalue_depth ≠ 0 then
    (next_size d).bind fun size d => build_mapping c nested size cp d
  else
    (restore_size c true cp d).bind fun size d =>
      if size < 0 then .value (none, cp) d else build_mapping c nested size cp d

/-- Containers in containers, up to `n` deep. -/
def restore_container (c : config) : Nat → Restore
  | 0, _, _, _ => .fault .running
  | n + 1, .array, cp, d => restore_array c (restore_container c n) cp d
  | n + 1, .class_, cp, d => restore_class c (restore_container c n) cp d
  | n + 1, .mapping, cp, d => restore_mapping c (restore_container c n) cp d

/-! ## Variables -/

/-- The table is freed when the second pass has come to a container in it. -/
def reset_sizes (d : driver) : driver :=
  if d.save_svalue_depth ≠ 0 then
    { d with
      save_svalue_depth := 0
      max_depth := 0
      sizes := none }
  else d

/-- A container that is the whole value. The variable stays as it is where there is none. -/
def restore_outermost (c : config) (k : kind) (cp : List UInt8) (v : svalue_t) (d : driver) :
    outcome svalue_t :=
  (restore_container c (cp.length + 1) k cp d).handle
    (fun code d => .rob code (reset_sizes d))
    fun (v', _) d => .value (v'.getD v) (reset_sizes d)

def outcome.returns (o : outcome svalue_t) (v : svalue_t) : outcome (Nat × svalue_t) :=
  o.handle (fun code d => .value (code, v) d) fun v d => .value (0, v) d

/-- The variable `v` has been set to zero already. -/
def restore_svalue (c : config) (cp : List UInt8) (v : svalue_t) (d : driver) :
    outcome (Nat × svalue_t) :=
  match cp with
  | [] => .fault .outside
  | ch :: cp =>
    if ch = 34 then
      match restore_string cp with
      | .closed s _ => .value (0, .T_STRING d.next_block s) d.new_block
      | .refused => .value (ROB_STRING_ERROR, v) d
      | .outside => .fault .outside
    else if ch = 40 then
      match cp with
      | [] => .fault .outside
      | ch :: cp =>
        match kind_of ch with
        | some k => (restore_outermost c k cp v d).returns v
        | none => .value (ROB_GENERAL_ERROR, v) (reset_sizes d)
    else if ch = 45 || isdigit ch then
      match parse_numeric ch cp with
      | .number v _ _ => .value (0, v) d
      | .refused => .value (ROB_NUMERAL_ERROR, v) d
      | .outside => .fault .outside
    else .value (0, const0) d

/-- The value of the variable is freed when there is another one. -/
def replace_value (v : svalue_t) (o : outcome svalue_t) : outcome (Nat × svalue_t) :=
  o.handle (fun code d => .value (code, v) d) fun val d =>
    (free_blocks v.blocks d).bind fun _ d => .value (0, val) d

def safe_restore_svalue (c : config) (cp : List UInt8) (v : svalue_t) (d : driver) :
    outcome (Nat × svalue_t) :=
  match cp with
  | [] => .fault .outside
  | ch :: cp =>
    if ch = 34 then
      match restore_string cp with
      | .closed s _ => replace_value v (.value (.T_STRING d.next_block s) d.new_block)
      | .refused => .value (ROB_STRING_ERROR, v) d
      | .outside => .fault .outside
    else if ch = 40 then
      match cp with
      | [] => .fault .outside
      | ch :: cp =>
        match kind_of ch with
        -- `val` has the type of a number, and nothing is written to it yet
        | some k => replace_value v (restore_outermost c k cp (.T_NUMBER (c.memory 0)) d)
        | none => .value (ROB_GENERAL_ERROR, v) d
    else if ch = 45 || isdigit ch then
      match parse_numeric ch cp with
      | .number val _ _ => replace_value v (.value val d)
      | .refused => .value (ROB_NUMERAL_ERROR, v) d
      | .outside => .fault .outside
    else replace_value v (.value const0 d)

end mudos.saved_values
