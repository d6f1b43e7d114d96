-- The intersection of two arrays: `intersect_array` of `array.c`, with the references that the
-- call makes and releases.
import MudOS.ArrayDifference

namespace mudos.array_difference

/-! ## The arrays of a call -/

structure array_t where
  ref : Nat
  item : List svalue_t

inductive operands_t
  | same (a : array_t)
  | apart (a1 a2 : array_t)

def operands_t.a1 : operands_t → array_t
  | .same a => a
  | .apart a1 _ => a1

def operands_t.a2 : operands_t → array_t
  | .same a => a
  | .apart _ a2 => a2

def operands_t.arrays : operands_t → List array_t
  | .same a => [a]
  | .apart a1 a2 => [a1, a2]

variable (m : memory)

/-! ## Filling a table -/

/-- References that are made and references that are released. -/
structure ledger_t where
  made : List svalue_t
  released : List svalue_t

def ledger_t.add (r s : ledger_t) : ledger_t := ⟨r.made ++ s.made, r.released ++ s.released⟩

/-- The element as it is left in an array that others hold too. -/
def left_element : svalue_t → svalue_t
  | .object ob => if m.destructed ob then const0 else .object ob
  | v => v

/-- One element is put into the table; `flag` says that others hold the array. -/
def fill_element (flag : Bool) : svalue_t → ledger_t
  | .object ob =>
    if m.destructed ob then ⟨[], [.object ob]⟩
    else if flag then ⟨[.object ob], []⟩
    else ⟨[], []⟩
  | .string false text =>
    if flag then ⟨[.string true text], []⟩
    else ⟨[.string true text], [.string false text]⟩
  | v => if flag then ⟨[v], []⟩ else ⟨[], []⟩

def fill (flag : Bool) : List svalue_t → ledger_t
  | [] => ⟨[], []⟩
  | v :: item => (fill_element m flag v).add (fill flag item)

/-! ## Merging -/

/-- The table of the first array from the first element on that `val` is not above. -/
def advance (val : svalue_t) : List svalue_t → List svalue_t
  | [] => []
  | x :: svt_1 => if alist_cmp m val x > 0 then advance val svt_1 else x :: svt_1

structure merge_t where
  ntab : List svalue_t
  released : List svalue_t
  sv_tab : sv_tab_t

/-- So many elements come out of the heap of the second array, unless the table of the first
array comes to its end. -/
def intersect_loop (a2s : Nat) : Nat → sv_tab_t → List svalue_t → merge_t
  | 0, sv_tab, _ => ⟨[], [], sv_tab⟩
  | left + 1, sv_tab, svt_1 =>
    match sv_tab 0 with
    | none => ⟨[], [], sv_tab⟩
    | some val =>
      match advance m val svt_1 with
      | [] => ⟨[], [], sv_tab⟩
      | x :: svt_1 =>
        let r := intersect_loop a2s left (sift_down m a2s a2s 0 sv_tab) (x :: svt_1)
        if alist_cmp m val x = 0 then { r with ntab := val :: r.ntab }
        else { r with released := val :: r.released }

/-! ## The whole call -/

structure outcome_t where
  a3 : List svalue_t
  /-- The arguments afterwards. -/
  arrays : List array_t
  ledger : ledger_t

def free_array (a : array_t) : array_t × List svalue_t :=
  if a.ref > 1 then (⟨a.ref - 1, a.item⟩, []) else (⟨0, []⟩, a.item)

/-- The array when its table is done with: others held it (`flag`), or its elements were moved. -/
def give_up (flag : Bool) (a : array_t) : array_t :=
  if flag then ⟨a.ref - 1, a.item.map (left_element m)⟩ else ⟨0, []⟩

/-- The second argument when the first has been sorted. -/
def second_items : operands_t → List svalue_t
  | .same a => a.item.map (left_element m)
  | .apart _ a2 => a2.item

def intersect_tables (ops : operands_t) : outcome_t :=
  let svt_1 := alist_sort m ops.a1.item
  let items := second_items m ops
  let a2s := items.length
  let r := intersect_loop m a2s a2s (heap_build m items 0 fun _ => none) svt_1
  let flag1 := decide (ops.a1.ref > 1)
  let flag2 := decide (ops.a2.ref > 1)
  let filled := (fill m flag1 ops.a1.item).add (fill m flag2 items)
  { a3 := r.ntab
    arrays :=
      match ops with
      | .same a => [give_up m flag2 (give_up m flag1 a)]
      | .apart a1 a2 => [give_up m flag1 a1, give_up m flag2 a2]
    ledger := filled.add ⟨[], r.released ++ (List.range a2s).filterMap r.sv_tab ++ svt_1⟩ }

def intersect_array (ops : operands_t) : outcome_t :=
  if ops.a1.item = [] ∨ ops.a2.item = [] then
    match ops with
    | .same a =>
      let first := free_array a
      let second := free_array first.1
      ⟨[], [second.1], ⟨[], first.2 ++ second.2⟩⟩
    | .apart a1 a2 =>
      let first := free_array a1
      let second := free_array a2
      ⟨[], [first.1, second.1], ⟨[], first.2 ++ second.2⟩⟩
  else intersect_tables m ops

end mudos.array_difference
