-- `replace_string()`: within a copy of the source when the replacement is not longer than
-- the pattern, otherwise into a new string of the largest size, each with a loop for
-- patterns of one character and one for longer ones.
import MudOS.Library.Replacing
import MudOS.Library.Compaction

open mudos.occurrences mudos.compaction

namespace mudos.replace_string

/-! ## Strings -/

structure char_t where
  byte : UInt8
  nonzero : byte ≠ 0
deriving DecidableEq

abbrev text_t := List char_t

/-- A byte of memory; `none` is the byte 0 that ends a text. -/
abbrev byte_t := Option char_t

def ended (text : text_t) : List byte_t := text.map some ++ [none]

def text_of : List byte_t → text_t
  | some c :: mem => c :: text_of mem
  | _ => []

/-- Where the text of a string is; a counted one is held `ref` times, and for ever when
the count is 0, as it did not fit. -/
inductive string_t
  | constant (text : text_t)
  | shared (text : text_t)
  | malloc (text : text_t) (ref : Nat)

def string_t.text : string_t → text_t
  | .constant text => text
  | .shared text => text
  | .malloc text _ => text

inductive range_t
  | all
  | up_to (n : Int)
  | window (first last : Int)

def range_t.first : range_t → Int
  | .window first _ => first
  | _ => 0

def range_t.last_given : range_t → Int
  | .all => 0
  | .up_to n => n
  | .window _ last => last

def range_t.last_used (max_string_length : Nat) (range : range_t) : Int :=
  if range.last_given = 0 then max_string_length else range.last_given

inductive outcome
  /-- the text, and what those see who hold the source too: `none` is a freed block -/
  | returned (text : text_t) (others : Option text_t)
  | zero (others : Option text_t)
  /-- memory is used that is not the function's own, or in an undefined way -/
  | wild
deriving DecidableEq

/-! ## The skip table -/

/-- The loop that stores the distances, from the character with the number `j` on. -/
def fill_table (plen : Nat) : text_t → Nat → (char_t → Nat) → char_t → Nat
  | [], _, table => table
  | c :: pattern, j, table =>
    fill_table plen pattern (j + 1) (Function.update table c (plen - j - 1))

def skip_table (pattern : text_t) : char_t → Nat :=
  fill_table pattern.length pattern 0 fun _ => pattern.length

/-! ## In the string -/

/-- `memcpy` within one block, to a lower address; what overlaps is left undefined. -/
def memcpy (mem : List byte_t) (dst src n : Nat) : Option (List byte_t) :=
  if dst = src ∨ dst + n ≤ src then some (store mem dst ((mem.drop src).take n)) else none

/-- `memcpy` of a text from elsewhere. -/
def memcpy_from (mem : List byte_t) (dst : Nat) (text : text_t) : Option (List byte_t) :=
  if dst + text.length ≤ mem.length then some (store mem dst (text.map some)) else none

def copy_some : Nat → List byte_t → Nat → Nat → List byte_t
  | 0, mem, _, _ => mem
  | n + 1, mem, src, dst2 =>
    match mem[src]? with
    | some c => copy_some n (mem.set dst2 c) (src + 1) (dst2 + 1)
    | none => mem

/-- Where the loop ends: the memory, `src` and `dst2`. -/
def replace_down (pattern replace : text_t) (first last : Int) (slen : Nat) :
    Nat → List byte_t → Nat → Nat → Int → Option (List byte_t × Nat × Nat)
  | 0, _, _, _, _ => none
  | steps + 1, mem, src, dst2, cur =>
    -- `src < flimit`
    if src + pattern.length < slen + 1 then
      match mem[src + (pattern.length - 1)]? with
      | some (some c) =>
        let skip := skip_table pattern c
        if skip ≠ 0 then
          replace_down pattern replace first last slen steps (copy_some skip mem src dst2)
            (src + skip) (dst2 + skip) cur
        else if (mem.drop src).take pattern.length = pattern.map some then
          let cur := cur + 1
          if first ≤ cur ∧ cur ≤ last then
            (memcpy_from mem dst2 replace).bind fun mem =>
              let dst2 := dst2 + replace.length
              let src := src + pattern.length
              if cur = last then some (mem, src, dst2)
              else replace_down pattern replace first last slen steps mem src dst2 cur
          else
            (memcpy mem dst2 src pattern.length).bind fun mem =>
              replace_down pattern replace first last slen steps mem (src + pattern.length)
                (dst2 + pattern.length) cur
        else
          replace_down pattern replace first last slen steps (copy_some 1 mem src dst2) (src + 1)
            (dst2 + 1) cur
      | _ => none
    else some (mem, src, dst2)

def replace_long (pattern replace : text_t) (first last : Int) (text : text_t) :
    Option (List byte_t) :=
  (replace_down pattern replace first last text.length (text.length + 1) (ended text) 0 0 0).bind
    fun (mem, src, dst2) =>
      (memcpy mem dst2 src (text.length - src)).map fun mem =>
        mem.set (dst2 + (text.length - src)) none

/-- A pattern and a replacement of one character. -/
def replace_char (pattern replace : byte_t) (first last : Int) :
    Nat → List byte_t → Nat → Int → List byte_t
  | 0, mem, _, _ => mem
  | steps + 1, mem, src, cur =>
    match mem[src]? with
    | some (some c) =>
      if some c = pattern then
        let cur := cur + 1
        replace_char pattern replace first last steps
          (if first ≤ cur ∧ cur ≤ last then mem.set src replace else mem) (src + 1) cur
      else replace_char pattern replace first last steps mem (src + 1) cur
    | _ => mem

/-- `while (*src) *dst2++ = *src++;` -/
def copy_rest : Nat → List byte_t → Nat → Nat → List byte_t × Nat
  | 0, mem, _, dst2 => (mem, dst2)
  | steps + 1, mem, src, dst2 =>
    match mem[src]? with
    | some (some c) => copy_rest steps (mem.set dst2 (some c)) (src + 1) (dst2 + 1)
    | _ => (mem, dst2)

/-- The loop behind the first character that is left out. -/
def leave_out (pattern : byte_t) (last : Int) :
    Nat → List byte_t → Nat → Nat → Int → List byte_t × Nat
  | 0, mem, _, dst2, _ => (mem, dst2)
  | steps + 1, mem, src, dst2, cur =>
    match mem[src]? with
    | some (some c) =>
      if some c = pattern then
        let cur := cur + 1
        if cur ≤ last then leave_out pattern last steps mem (src + 1) dst2 cur
        else copy_rest (steps + 1) mem src dst2
      else leave_out pattern last steps (mem.set dst2 (some c)) (src + 1) (dst2 + 1) cur
    | _ => (mem, dst2)

/-- A pattern of one character without a replacement: the new memory if one is left out. -/
def leave_out_from (pattern : byte_t) (first last : Int) :
    Nat → List byte_t → Nat → Int → Option (List byte_t)
  | 0, _, _, _ => none
  | steps + 1, mem, src, cur =>
    match mem[src]? with
    | some (some c) =>
      if some c = pattern then
        let cur := cur + 1
        if cur ≥ first then
          let r := leave_out pattern last (steps + 1) mem (src + 1) src cur
          some (r.1.set r.2 none)
        else leave_out_from pattern first last steps mem (src + 1) cur
      else leave_out_from pattern first last steps mem (src + 1) cur
    | _ => none

/-- The new text, and whether the block went through `extend_string`. -/
def replace_within (pattern replace : text_t) (first last : Int) (text : text_t) :
    Option (text_t × Bool) :=
  let steps := text.length + 1
  if pattern.length > 1 then
    (replace_long pattern replace first last text).map fun mem => (text_of mem, true)
  else if replace ≠ [] then
    some (text_of (replace_char pattern.head? replace.head? first last steps (ended text) 0 0),
      false)
  else
    match leave_out_from pattern.head? first last steps (ended text) 0 0 with
    | some mem => some (text_of mem, true)
    | none => some (text, false)

/-! ## Into a new string -/

inductive copied
  | whole (dst : text_t)
  | too_long
  | wild
deriving DecidableEq

/-- So many characters fit behind those that are written, with the 0 that comes last. -/
abbrev Fits (max_string_length : Nat) (dst l : text_t) : Prop :=
  dst.length + l.length ≤ max_string_length + 1

/-- The loop for a pattern of more than one character; `src` is what is left. -/
def replace_up (max_string_length : Nat) (pattern replace : text_t) (first last : Int) :
    Nat → text_t → text_t → Nat → Int → copied
  | 0, _, _, _, _ => .wild
  | steps + 1, src, dst, dlen, cur =>
    let finish (src dst : text_t) (dlen : Nat) : copied :=
      if max_string_length ≤ dlen + src.length then .too_long
      else if dst.length + src.length ≤ max_string_length then .whole (dst ++ src)
      else .wild
    -- `src < flimit`
    if pattern.length ≤ src.length then
      match src[pattern.length - 1]? with
      | some c =>
        let skip := skip_table pattern c
        if skip ≠ 0 then
          if Fits max_string_length dst (src.take skip) then
            replace_up max_string_length pattern replace first last steps (src.drop skip)
              (dst ++ src.take skip) dlen cur
          else .wild
        else if src.take pattern.length = pattern then
          let cur := cur + 1
          if first ≤ cur ∧ cur ≤ last then
            if max_string_length ≤ dlen + replace.length then .too_long
            else if Fits max_string_length dst replace then
              if cur = last then
                finish (src.drop pattern.length) (dst ++ replace) (dlen + replace.length)
              else
                replace_up max_string_length pattern replace first last steps
                  (src.drop pattern.length) (dst ++ replace) (dlen + replace.length) cur
            else .wild
          else if max_string_length ≤ dlen + pattern.length then .too_long
          else if Fits max_string_length dst pattern then
            replace_up max_string_length pattern replace first last steps
              (src.drop pattern.length) (dst ++ src.take pattern.length)
              (dlen + pattern.length) cur
          else .wild
        else if max_string_length ≤ dlen + 1 then .too_long
        else if Fits max_string_length dst (src.take 1) then
          replace_up max_string_length pattern replace first last steps (src.drop 1)
            (dst ++ src.take 1) (dlen + 1) cur
        else .wild
      | none => .wild
    else finish src dst dlen

def replace_char_up (max_string_length : Nat) (pattern : byte_t) (replace : text_t)
    (first last : Int) : text_t → text_t → Nat → Int → copied
  | [], dst, _, _ => if dst.length ≤ max_string_length then .whole dst else .wild
  | c :: src, dst, dlen, cur =>
    let keep (cur : Int) : copied :=
      if max_string_length ≤ dlen + 1 then .too_long
      else if Fits max_string_length dst [c] then
        replace_char_up max_string_length pattern replace first last src (dst ++ [c]) (dlen + 1) cur
      else .wild
    if some c = pattern then
      let cur := cur + 1
      if first ≤ cur ∧ cur ≤ last then
        if replace ≠ [] then
          if max_string_length ≤ dlen + replace.length then .too_long
          else if Fits max_string_length dst replace then
            replace_char_up max_string_length pattern replace first last src (dst ++ replace)
              (dlen + replace.length) cur
          else .wild
        else replace_char_up max_string_length pattern replace first last src dst dlen cur
      else keep cur
    else keep cur

def copied.outcome (source : text_t) : copied → outcome
  | .whole dst => .returned dst (some source)
  | .too_long => .zero (some source)
  | .wild => .wild

/-! ## The function -/

/-- `unlink_string_svalue`: the text to work on. A constant is taken from `sp`, where the
last argument is. -/
def unlink_string_svalue (arg : string_t) (replace : text_t) (range : range_t) : Option text_t :=
  match arg, range with
  | .constant _, .all => some replace
  | .constant _, _ => none
  | arg, _ => some arg.text

/-- The result within the string: those who hold a block for ever see what was done to it. -/
def string_t.outcome (arg : string_t) : Option (text_t × Bool) → outcome
  | some (result, extended) =>
    match arg with
    | .malloc _ 0 => .returned result (if extended then none else some result)
    | _ => .returned result (some arg.text)
  | none => .wild

def f_replace_string (max_string_length : Nat) (arg : string_t) (pattern replace : text_t)
    (range : range_t) : outcome :=
  let first := range.first
  let last := range.last_used max_string_length
  if first > last then .returned arg.text (some arg.text)
  else if pattern.length = 0 then .returned arg.text (some arg.text)
  else if replace.length ≤ pattern.length then
    match unlink_string_svalue arg replace range with
    | some text => arg.outcome (replace_within pattern replace first last text)
    | none => .wild
  else if pattern.length > 1 then
    (replace_up max_string_length pattern replace first last (arg.text.length + 1) arg.text []
      0 0).outcome arg.text
  else
    (replace_char_up max_string_length pattern.head? replace first last arg.text []
      0 0).outcome arg.text

/-! ## What is asked of it -/

def Chosen (range : range_t) (i : Nat) : Prop :=
  max range.first 1 ≤ i ∧ (range.last_given = 0 ∨ (i : Int) ≤ range.last_given)

instance (range : range_t) (i : Nat) : Decidable (Chosen range i) :=
  inferInstanceAs (Decidable (_ ∧ _))

/-- The text with the chosen ones of its occurrences replaced. -/
def target (text pattern replace : text_t) (range : range_t) : text_t :=
  replaced pattern (fun i => if Chosen range i then replace else pattern) 1 text

/-- The text if it is within the limit, and 0 otherwise; the others keep the source. -/
def wanted (max_string_length : Nat) (arg : string_t) (pattern replace : text_t)
    (range : range_t) : outcome :=
  if (target arg.text pattern replace range).length ≤ max_string_length then
    .returned (target arg.text pattern replace range) (some arg.text)
  else .zero (some arg.text)

/-! ## When it is done -/

def string_t.Stuck : string_t → Prop
  | .malloc _ ref => ref = 0
  | _ => False

def string_t.Constant : string_t → Prop
  | .constant _ => True
  | _ => False

/-- The occurrence with the last number comes in the text. -/
def Reached (text pattern : text_t) (range : range_t) : Prop :=
  1 ≤ range.last_given ∧ range.last_given ≤ number pattern text

def shortening (text pattern replace : text_t) (range : range_t) : Nat :=
  (List.range (number pattern text)).countP (fun i => Chosen range (i + 1)) *
    (pattern.length - replace.length)

instance (text pattern : text_t) (range : range_t) : Decidable (Reached text pattern range) :=
  inferInstanceAs (Decidable (_ ∧ _))

def tail_limit (text pattern : text_t) (range : range_t) : Nat :=
  if Reached text pattern range then (after pattern range.last_given.toNat text).length
  else min (pattern.length - 1) (last_piece pattern text).length

def Clear (text pattern replace : text_t) (range : range_t) : Prop :=
  shortening text pattern replace range = 0 ∨
    tail_limit text pattern range ≤ shortening text pattern replace range

def Served (max_string_length : Nat) (arg : string_t) (pattern replace : text_t)
    (range : range_t) : Prop :=
  arg.text.length ≤ max_string_length ∧
    (range.last_used max_string_length < range.first ∨
      -- within the string
      (replace.length ≤ pattern.length ∧ arg.Constant ∧ range = .all ∧
        target arg.text pattern replace range = replace) ∨
      (replace.length ≤ pattern.length ∧ ¬ arg.Constant ∧ 1 < pattern.length ∧ ¬ arg.Stuck ∧
        Clear arg.text pattern replace range) ∨
      (replace.length ≤ pattern.length ∧ ¬ arg.Constant ∧ pattern.length = 1 ∧
        (arg.Stuck → target arg.text pattern replace range = arg.text) ∧
        (replace = [] → range.last_given < 0 → number pattern arg.text = 0)) ∨
      -- into a new string
      (pattern.length < replace.length ∧ 1 < pattern.length ∧
        (target arg.text pattern replace range).length < max_string_length) ∨
      (pattern.length < replace.length ∧ pattern.length = 1 ∧
        ((target arg.text pattern replace range).length ≠ max_string_length ∨ arg.text = [])))

/-- What is not decided here: a source beyond the limit, a search whose last jump decides
whether the last copy overlaps, and a longer text that comes to the limit behind characters
that are not counted. -/
def Unsettled (max_string_length : Nat) (arg : string_t) (pattern replace : text_t)
    (range : range_t) : Prop :=
  max_string_length < arg.text.length ∨
    (1 < pattern.length ∧ replace.length ≤ pattern.length ∧ ¬ arg.Constant ∧ ¬ arg.Stuck ∧
      ¬ Reached arg.text pattern range ∧ ¬ Clear arg.text pattern replace range) ∨
    (1 < pattern.length ∧ pattern.length < replace.length ∧
      max_string_length ≤ (target arg.text pattern replace range).length)

end mudos.replace_string
