-- The law of `svalue_save_size`: it is the length of the text, with one more for each value that
-- has no text, as long as this is an `int`.
import MudOS.SaveSizes
import Mathlib.Tactic.Ring

open List Option

namespace mudos.save_sizes

variable {R : Type} {sprintf : R → List UInt8}
variable {v : svalue_t R} {n : Nat}
variable {item : List (svalue_t R)} {node : List (svalue_t R × svalue_t R)} {size : Nat}

theorem svalue_t.induct {P : svalue_t R → Prop} (number : ∀ n, P (.T_NUMBER n))
    (real : ∀ r, P (.T_REAL r)) (string : ∀ s, P (.T_STRING s))
    (array : ∀ item, (∀ v ∈ item, P v) → P (.T_ARRAY item))
    (class_ : ∀ item, (∀ v ∈ item, P v) → P (.T_CLASS item))
    (mapping : ∀ node, (∀ x ∈ node, P x.1) → (∀ x ∈ node, P x.2) → P (.T_MAPPING node))
    (unsaved : ∀ kind, P (.unsaved kind)) (v : svalue_t R) : P v :=
  match v with
  | .T_NUMBER n => number n
  | .T_REAL r => real r
  | .T_STRING s => string s
  | .T_ARRAY item =>
    array item fun v _ => svalue_t.induct number real string array class_ mapping unsaved v
  | .T_CLASS item =>
    class_ item fun v _ => svalue_t.induct number real string array class_ mapping unsaved v
  | .T_MAPPING node =>
    mapping node
      (fun x _ => svalue_t.induct number real string array class_ mapping unsaved x.1)
      (fun x _ => svalue_t.induct number real string array class_ mapping unsaved x.2)
  | .unsaved kind => unsaved kind
termination_by sizeOf v
decreasing_by
  · have := sizeOf_lt_of_mem ‹v ∈ item›
    simp only [T_ARRAY.sizeOf_spec]
    omega
  · have := sizeOf_lt_of_mem ‹v ∈ item›
    simp only [T_CLASS.sizeOf_spec]
    omega
  · have := sizeOf_lt_of_mem ‹x ∈ node›
    have : sizeOf x = 1 + sizeOf x.1 + sizeOf x.2 := Prod.mk.sizeOf_spec x.1 x.2
    simp only [T_MAPPING.sizeOf_spec]
    omega
  · have := sizeOf_lt_of_mem ‹x ∈ node›
    have : sizeOf x = 1 + sizeOf x.1 + sizeOf x.2 := Prod.mk.sizeOf_spec x.1 x.2
    simp only [T_MAPPING.sizeOf_spec]
    omega

/-! ## Writing -/

theorem put_put (buf : buffer_t) (l l' : List UInt8) :
    ((buf.put l).bind fun buf => buf.put l') = buf.put (l ++ l') := by
  unfold buffer_t.put
  by_cases h : (buf.text ++ l).length ≤ buf.size
  · rw [dif_pos h, bind_some]
    simp
  · have h' : ¬ (buf.text ++ (l ++ l')).length ≤ buf.size := by
      simp only [length_append] at h ⊢
      omega
    rw [dif_neg h, dif_neg h', bind_none]

theorem put_put_bind {α : Type} (buf : buffer_t) (l l' : List UInt8) (k : buffer_t → Option α) :
    ((buf.put l).bind fun buf => (buf.put l').bind k) = (buf.put (l ++ l')).bind k := by
  rw [← put_put, bind_assoc]

theorem put_nil (buf : buffer_t) : buf.put [] = some buf := by
  unfold buffer_t.put
  simp [buf.inside]

theorem nul_put (buf : buffer_t) (c : UInt8) (l : List UInt8) :
    ((buf.nul).bind fun buf => buf.put (c :: l)) = buf.put (c :: l) := by
  unfold buffer_t.nul buffer_t.put
  by_cases h : buf.text.length < buf.size
  · rw [if_pos h, bind_some]
  · have h' : ¬ (buf.text ++ c :: l).length ≤ buf.size := by
      simp only [length_append, length_cons]
      omega
    rw [if_neg h, dif_neg h', bind_none]

theorem put_nul (buf : buffer_t) (l : List UInt8) :
    ((buf.put l).bind buffer_t.nul).isSome = true ↔ buf.text.length + l.length < buf.size := by
  unfold buffer_t.nul buffer_t.put
  by_cases h : (buf.text ++ l).length ≤ buf.size
  · rw [dif_pos h, bind_some]
    simp only [length_append]
    split_ifs with hlt
    · simpa using hlt
    · simpa using hlt
  · rw [dif_neg h]
    simp only [length_append] at h
    simp only [bind_none, isSome_none, Bool.false_eq_true, false_iff]
    omega

/-! ## Numbers and strings -/

theorem back_digits_length (res : Nat) : (back_digits res).length = more_digits res + 1 := by
  induction res using Nat.strongRecOn with
  | ind res ih =>
    unfold back_digits more_digits
    by_cases h : res > 9
    · rw [if_pos h, if_neg (by omega), length_append, ih (res / 10) (by omega)]
      rfl
    · rw [if_neg h, if_pos (by omega)]
      rfl

theorem number_text_length (number : BitVec 32) :
    (number_text number).length =
      (if number.toInt < 0 then 2 else 1) + more_digits (magnitude number) := by
  unfold number_text
  rw [length_append, back_digits_length]
  split_ifs <;> simp only [length_nil, length_singleton] <;> omega

theorem put_fits (buf : buffer_t) {l : List UInt8} (h : buf.text.length + l.length ≤ buf.size) :
    ∃ buf', buf.put l = some buf' ∧ buf'.size = buf.size ∧ buf'.text = buf.text ++ l := by
  have h' : (buf.text ++ l).length ≤ buf.size := by
    rwa [length_append]
  exact ⟨⟨buf.size, buf.text ++ l, h'⟩, dif_pos h', rfl, rfl⟩

theorem save_number_puts (number : BitVec 32) (buf : buffer_t) :
    save_number number buf = (buf.put (number_text number)).bind buffer_t.nul := by
  have hlength := number_text_length number
  have hput := put_nul buf (number_text number)
  simp only [save_number]
  rw [← hlength]
  by_cases hlt : buf.text.length + (number_text number).length < buf.size
  · rw [if_pos hlt]
    have hinside : (buf.text ++ number_text number).length ≤ buf.size := by
      rw [length_append]
      omega
    change buf.put (number_text number) = _
    unfold buffer_t.put buffer_t.nul
    rw [dif_pos hinside, bind_some, if_pos (by rw [length_append]; exact hlt)]
  · rw [if_neg hlt]
    rw [← hput] at hlt
    exact (not_isSome_iff_eq_none.1 hlt).symm

theorem save_chars_puts (string : List UInt8) (buf : buffer_t) :
    save_chars string buf = buf.put (string.flatMap char_text) := by
  induction string generalizing buf with
  | nil =>
    rw [flatMap_nil, put_nil]
    rfl
  | cons c string ih =>
    unfold save_chars
    rw [flatMap_cons, char_text]
    simp only [bind_eq_bind, ih]
    by_cases hquoted : c = 34 ∨ c = 92
    · rw [if_pos hquoted, if_pos hquoted, put_put_bind, put_put]
      rfl
    · rw [if_neg hquoted, if_neg hquoted, put_put]

theorem char_size (c : UInt8) :
    (if c = 92 ∨ c = 34 then 2 else 1 : BitVec 32) = BitVec.ofNat 32 (char_text c).length := by
  unfold char_text
  by_cases h : c = 34 ∨ c = 92
  · rw [if_pos h, if_pos h.symm]
    rfl
  · rw [if_neg h, if_neg fun h' => h h'.symm]
    rfl

theorem chars_save_size_eq (string : List UInt8) :
    chars_save_size string = BitVec.ofNat 32 (string.flatMap char_text).length := by
  induction string with
  | nil => rfl
  | cons c string ih =>
    rw [chars_save_size, ih, char_size, ← BitVec.ofNat_add, flatMap_cons, length_append]

/-! ## The text -/

theorem save_unsaved (kind : unsaved_t) (buf : buffer_t) :
    save_svalue sprintf (.unsaved kind) buf = some buf := rfl

/-- A value is written as its text with a zero behind it, or not at all. -/
def Puts (sprintf : R → List UInt8) (v : svalue_t R) : Prop :=
  (∃ kind, v = .unsaved kind) ∨
    ∀ buf, save_svalue sprintf v buf = (buf.put (v.text sprintf)).bind buffer_t.nul

theorem Puts.then_put (h : Puts sprintf v) (buf : buffer_t) (c : UInt8) (l : List UInt8) :
    ((save_svalue sprintf v buf).bind fun buf => buf.put (c :: l)) =
      buf.put (v.text sprintf ++ c :: l) := by
  rcases h with ⟨kind, rfl⟩ | h
  · rw [save_unsaved, bind_some]
    rfl
  · rw [h, bind_assoc]
    simp [nul_put, put_put]

theorem save_items_puts (h : ∀ v ∈ item, Puts sprintf v) (buf : buffer_t) :
    save_items sprintf item buf = buf.put (items_text sprintf item) := by
  induction item generalizing buf with
  | nil => exact (put_nil buf).symm
  | cons v item ih =>
    have hv := h v mem_cons_self
    have hrest := ih fun w hw => h w (mem_cons_of_mem _ hw)
    unfold save_items items_text
    simp [hrest, put_put, hv.then_put]

theorem save_nodes_puts (hkey : ∀ x ∈ node, Puts sprintf x.1)
    (hvalue : ∀ x ∈ node, Puts sprintf x.2) (buf : buffer_t) :
    save_nodes sprintf node buf = buf.put (nodes_text sprintf node) := by
  induction node generalizing buf with
  | nil => exact (put_nil buf).symm
  | cons x node ih =>
    obtain ⟨key, value⟩ := x
    have hk : Puts sprintf key := hkey _ mem_cons_self
    have hv : Puts sprintf value := hvalue _ mem_cons_self
    have hrest := ih (fun y hy => hkey y (mem_cons_of_mem _ hy))
      fun y hy => hvalue y (mem_cons_of_mem _ hy)
    unfold save_nodes nodes_text
    simp [hrest, put_put, hv.then_put, hk.then_put]

theorem puts (sprintf : R → List UInt8) (v : svalue_t R) : Puts sprintf v := by
  induction v using svalue_t.induct with
  | number n => exact .inr fun buf => save_number_puts n buf
  | real r => exact .inr fun buf => rfl
  | string s =>
    right
    intro buf
    unfold save_svalue svalue_t.text
    simp [save_chars_puts, put_put_bind]
  | array item ih | class_ item ih =>
    right
    intro buf
    unfold save_svalue svalue_t.text
    simp only [bind_eq_bind, save_items_puts ih, put_put_bind, append_assoc]
    rfl
  | mapping node ihkey ihvalue =>
    right
    intro buf
    unfold save_svalue svalue_t.text
    simp only [bind_eq_bind, save_nodes_puts ihkey ihvalue, put_put_bind,
      append_assoc]
    rfl
  | unsaved kind => exact .inl ⟨kind, rfl⟩

theorem save_svalue_fits (v : svalue_t R) (buf : buffer_t)
    (h : buf.text.length + v.text_size sprintf ≤ buf.size) :
    (save_svalue sprintf v buf).isSome = true := by
  unfold svalue_t.text_size at h
  rcases puts sprintf v with ⟨kind, rfl⟩ | hputs
  · rfl
  · rw [hputs, put_nul]
    omega

/-! ## The size -/

def svalue_t.full_size (sprintf : R → List UInt8) (v : svalue_t R) : Nat :=
  v.text_size sprintf + v.gaps

def Shallow (depth nesting : Nat) : Prop := nesting = 0 ∨ depth + nesting ≤ MAX_SAVE_SVALUE_DEPTH

instance (depth nesting : Nat) : Decidable (Shallow depth nesting) :=
  inferInstanceAs (Decidable (_ ∨ _))

def Sized (sprintf : R → List UInt8) (v : svalue_t R) : Prop :=
  ∀ depth, svalue_save_size sprintf depth v =
    if Shallow depth v.nesting then some (BitVec.ofNat 32 (v.full_size sprintf)) else none

theorem shallow_max (depth n n' : Nat) :
    Shallow depth (max n n') ↔ Shallow depth n ∧ Shallow depth n' := by
  unfold Shallow
  omega

theorem items_save_size_eq (h : ∀ v ∈ item, Sized sprintf v) (depth : Nat) :
    items_save_size sprintf depth item =
      if Shallow depth (items_nesting item) then
        some (BitVec.ofNat 32 ((items_text sprintf item).length + items_gaps item))
      else none := by
  induction item with
  | nil => rfl
  | cons v item ih =>
    have hv := h v mem_cons_self
    have hrest := ih fun w hw => h w (mem_cons_of_mem _ hw)
    unfold items_save_size items_nesting items_text items_gaps
    rw [hv, hrest]
    simp only [shallow_max]
    by_cases hshallow : Shallow depth v.nesting
    · by_cases hshallow' : Shallow depth (items_nesting item)
      · simp only [hshallow, hshallow', and_self, if_true, bind_eq_bind, bind_some,
          ← BitVec.ofNat_add]
        simp only [svalue_t.full_size, svalue_t.text_size, length_append,
          length_singleton]
        congr 2
        omega
      · simp [hshallow, hshallow']
    · simp [hshallow]

theorem nodes_save_size_eq (hkey : ∀ x ∈ node, Sized sprintf x.1)
    (hvalue : ∀ x ∈ node, Sized sprintf x.2) (depth : Nat) :
    nodes_save_size sprintf depth node =
      if Shallow depth (nodes_nesting node) then
        some (BitVec.ofNat 32 ((nodes_text sprintf node).length + nodes_gaps node))
      else none := by
  induction node with
  | nil => rfl
  | cons x node ih =>
    obtain ⟨key, value⟩ := x
    have hk : Sized sprintf key := hkey _ mem_cons_self
    have hv : Sized sprintf value := hvalue _ mem_cons_self
    have hrest := ih (fun y hy => hkey y (mem_cons_of_mem _ hy))
      fun y hy => hvalue y (mem_cons_of_mem _ hy)
    unfold nodes_save_size nodes_nesting nodes_text nodes_gaps
    rw [hk, hv, hrest]
    simp only [shallow_max]
    by_cases hshallow : Shallow depth key.nesting
    · by_cases hshallow' : Shallow depth value.nesting
      · by_cases hshallow'' : Shallow depth (nodes_nesting node)
        · simp only [hshallow, hshallow', hshallow'', and_self, if_true, bind_eq_bind,
            bind_some, ← BitVec.ofNat_add]
          simp only [svalue_t.full_size, svalue_t.text_size, length_append,
            length_singleton]
          congr 2
          omega
        · simp [hshallow, hshallow', hshallow'']
      · simp [hshallow, hshallow']
    · simp [hshallow]

theorem container_size {depth nesting full : Nat} {rest : Option (BitVec 32)}
    (hrest : rest = if Shallow (depth + 1) nesting then some (BitVec.ofNat 32 n) else none)
    (hfull : full = n + 5) :
    (if depth + 1 > MAX_SAVE_SVALUE_DEPTH then none else rest.map (· + 5)) =
      if Shallow depth (nesting + 1) then some (BitVec.ofNat 32 full) else none := by
  rw [hrest, hfull]
  by_cases hdeep : depth + 1 > MAX_SAVE_SVALUE_DEPTH
  · have hshallow : ¬ Shallow depth (nesting + 1) := by
      unfold Shallow
      omega
    rw [if_pos hdeep, if_neg hshallow]
  · have hshallow : Shallow depth (nesting + 1) ↔ Shallow (depth + 1) nesting := by
      unfold Shallow
      omega
    rw [if_neg hdeep]
    simp only [hshallow]
    split_ifs
    · rw [map_some, BitVec.ofNat_add]
      rfl
    · rfl

theorem sized (sprintf : R → List UInt8) (v : svalue_t R) : Sized sprintf v := by
  induction v using svalue_t.induct with
  | number n =>
    intro depth
    have hshallow : Shallow depth 0 := .inl rfl
    unfold svalue_save_size number_save_size svalue_t.full_size svalue_t.text_size svalue_t.text
      svalue_t.gaps svalue_t.nesting
    rw [if_pos hshallow, number_text_length n]
    by_cases hneg : n.toInt < 0
    · simp only [hneg, if_true]
      congr 2
      omega
    · simp only [hneg, if_false]
      congr 2
      omega
  | real r | unsaved kind => exact fun depth => rfl
  | string s =>
    intro depth
    have hshallow : Shallow depth 0 := .inl rfl
    unfold svalue_save_size svalue_t.full_size svalue_t.text_size svalue_t.text svalue_t.gaps
      svalue_t.nesting
    rw [if_pos hshallow, chars_save_size_eq]
    change some (BitVec.ofNat 32 3 + _) = _
    rw [← BitVec.ofNat_add]
    simp only [length_append, length_singleton]
    congr 2
    omega
  | array item ih | class_ item ih =>
    intro depth
    refine container_size (items_save_size_eq ih (depth + 1)) ?_
    simp only [svalue_t.full_size, svalue_t.text_size, svalue_t.text, svalue_t.gaps,
      length_append, length_cons, length_nil]
    omega
  | mapping node ihkey ihvalue =>
    intro depth
    refine container_size (nodes_save_size_eq ihkey ihvalue (depth + 1)) ?_
    simp only [svalue_t.full_size, svalue_t.text_size, svalue_t.text, svalue_t.gaps,
      length_append, length_cons, length_nil]
    omega

theorem items_gaps_le (h : ∀ v ∈ item, v.gaps ≤ v.text_size sprintf) :
    items_gaps item ≤ (items_text sprintf item).length := by
  induction item with
  | nil => exact Nat.le_refl _
  | cons v item ih =>
    have hv := h v mem_cons_self
    have hrest := ih fun w hw => h w (mem_cons_of_mem _ hw)
    unfold svalue_t.text_size at hv
    simp only [items_gaps, items_text, length_append, length_singleton]
    omega

theorem nodes_gaps_le (hkey : ∀ x ∈ node, x.1.gaps ≤ x.1.text_size sprintf)
    (hvalue : ∀ x ∈ node, x.2.gaps ≤ x.2.text_size sprintf) :
    nodes_gaps node ≤ (nodes_text sprintf node).length := by
  induction node with
  | nil => exact Nat.le_refl _
  | cons x node ih =>
    have hk := hkey _ mem_cons_self
    have hv := hvalue _ mem_cons_self
    have hrest := ih (fun y hy => hkey y (mem_cons_of_mem _ hy))
      fun y hy => hvalue y (mem_cons_of_mem _ hy)
    unfold svalue_t.text_size at hk hv
    simp only [nodes_gaps, nodes_text, length_append, length_singleton]
    omega

theorem gaps_le (sprintf : R → List UInt8) (v : svalue_t R) : v.gaps ≤ v.text_size sprintf := by
  induction v using svalue_t.induct with
  | number n | real r | string s => exact Nat.zero_le _
  | array item ih | class_ item ih =>
    have := items_gaps_le ih
    simp only [svalue_t.gaps, svalue_t.text_size, svalue_t.text, length_append]
    omega
  | mapping node ihkey ihvalue =>
    have := nodes_gaps_le ihkey ihvalue
    simp only [svalue_t.gaps, svalue_t.text_size, svalue_t.text, length_append]
    omega
  | unsaved kind => exact Nat.le_refl _

/-! ## The callers -/

theorem toNat_of_full (h : n < 2147483648) :
    (BitVec.ofNat 32 n).toNat = n ∧ (BitVec.ofNat 32 n).toInt = n := by
  rw [BitVec.toInt_eq_toNat_cond, BitVec.toNat_ofNat]
  omega

theorem toInt_of_full {m : Nat} (h : ¬ n < 2147483648) (hm : n ≤ 2 * m) :
    (BitVec.ofNat 32 n).toInt < m := by
  rw [BitVec.toInt_eq_toNat_cond, BitVec.toNat_ofNat]
  omega

theorem xalloc_of_full (extra : Nat) (h : n < 2147483648) (hextra : extra ≤ 5)
    (hsize : xalloc (BitVec.ofNat 32 (n + extra)) = some size) : size = n + extra := by
  unfold xalloc at hsize
  split_ifs at hsize
  rw [← some.inj hsize, BitVec.toNat_ofNat]
  omega

theorem write_at_start_fits (v : svalue_t R) (h : v.text_size sprintf ≤ size) :
    (write_at_start sprintf v size).isSome = true := by
  have hpos : 0 < size := by
    unfold svalue_t.text_size at h
    omega
  have hnul : (buffer_t.mk size [] (Nat.zero_le _)).nul =
      some (buffer_t.mk size [] (Nat.zero_le _)) := if_pos hpos
  unfold write_at_start
  rw [hnul]
  apply save_svalue_fits
  simp only [length_nil]
  omega

theorem of_isSome {r : Option buffer_t} (h : r.isSome = true) : ended_t.of r ≠ .overrun := by
  obtain ⟨buf, rfl⟩ := isSome_iff_exists.1 h
  simp [ended_t.of]

theorem text_size_le_full (sprintf : R → List UInt8) (v : svalue_t R) :
    v.text_size sprintf ≤ v.full_size sprintf :=
  Nat.le_add_right _ _

theorem save_variable_inside (h : v.full_size sprintf < 2147483648) :
    save_variable sprintf v ≠ .overrun := by
  have hle := text_size_le_full sprintf v
  unfold save_variable
  rw [sized]
  split_ifs with hshallow
  · simp only
    have hsize : BitVec.ofNat 32 (v.full_size sprintf) - 1 +
        BitVec.ofNat 32 sizeof_malloc_block_t + 1 =
        BitVec.ofNat 32 (v.full_size sprintf + sizeof_malloc_block_t) := by
      rw [BitVec.ofNat_add]
      bv_omega
    unfold new_string
    rw [hsize]
    cases halloc : xalloc (BitVec.ofNat 32 (v.full_size sprintf + sizeof_malloc_block_t)) with
    | none => simp
    | some size =>
      rw [xalloc_of_full sizeof_malloc_block_t h (by decide) halloc, map_some,
        Nat.add_sub_cancel]
      exact of_isSome (write_at_start_fits v hle)
  · simp

theorem save_object_inside (h : v.full_size sprintf < 2147483648) :
    save_object sprintf v ≠ .overrun := by
  have hle := text_size_le_full sprintf v
  unfold save_object
  rw [sized]
  split_ifs with hshallow
  · simp only
    cases halloc : xalloc (BitVec.ofNat 32 (v.full_size sprintf)) with
    | none => simp
    | some size =>
      rw [xalloc_of_full 0 h (by decide) halloc]
      exact of_isSome (write_at_start_fits v hle)
  · simp

theorem socket_write_inside (h : v.full_size sprintf < 2147483648) :
    socket_write sprintf v ≠ .overrun := by
  have hle := text_size_le_full sprintf v
  unfold socket_write
  split
  · simp
  · rw [sized]
    split_ifs with hshallow
    · simp only
      have hsize : BitVec.ofNat 32 (v.full_size sprintf) + 5 =
          BitVec.ofNat 32 (v.full_size sprintf + 5) := by
        rw [BitVec.ofNat_add]
        rfl
      rw [hsize]
      cases halloc : xalloc (BitVec.ofNat 32 (v.full_size sprintf + 5)) with
      | none => simp
      | some size =>
        have hroom := xalloc_of_full 5 h (by decide) halloc
        have hlength : (htonl (BitVec.ofNat 32 (v.full_size sprintf))).length = 4 := rfl
        obtain ⟨buf, hput, hsize, htext⟩ := put_fits (buffer_t.mk size [] (Nat.zero_le _))
          (l := htonl (BitVec.ofNat 32 (v.full_size sprintf))) (by simp only [hlength]; simp; omega)
        simp only at hsize htext
        have hnul : buf.nul = some buf := by
          unfold buffer_t.nul
          rw [if_pos (by rw [htext, nil_append, hlength]; omega)]
        apply of_isSome
        simp only [hput, bind_eq_bind, bind_some, hnul]
        apply save_svalue_fits
        rw [htext, nil_append, hlength]
        omega
    · simp

/-- Where the value is not too deep, its size bounds the text exactly when the length of the text
and the values without a text come to less than 2^31. -/
theorem save_size_bounds_iff (sprintf : R → List UInt8) (v : svalue_t R) :
    Bounded sprintf v ↔
      MAX_SAVE_SVALUE_DEPTH < v.nesting ∨ v.text_size sprintf + v.gaps < 2147483648 := by
  constructor
  · intro h
    by_contra hnot
    have hshallow : Shallow 0 v.nesting := by
      unfold Shallow
      omega
    have hsize := sized sprintf v 0
    rw [if_pos hshallow] at hsize
    have hbound := h.size 0 _ hsize
    have hgaps := gaps_le sprintf v
    have hwrapped :
        (BitVec.ofNat 32 (v.full_size sprintf)).toInt < (v.text_size sprintf : Nat) := by
      apply toInt_of_full
      · unfold svalue_t.full_size
        omega
      · unfold svalue_t.full_size
        omega
    omega
  · rintro (hdeep | hfull)
    · have hshallow : ∀ depth, ¬ Shallow depth v.nesting := by
        intro depth
        unfold Shallow
        omega
      have hsize : ∀ depth, svalue_save_size sprintf depth v = none := by
        intro depth
        rw [sized, if_neg (hshallow depth)]
      refine ⟨?_, ?_, ?_, ?_⟩
      · intro depth size h
        rw [hsize depth] at h
        contradiction
      · simp [save_variable, hsize]
      · simp [save_object, hsize]
      · unfold socket_write
        split
        · simp
        · simp [hsize]
    · refine ⟨?_, save_variable_inside hfull, save_object_inside hfull, socket_write_inside hfull⟩
      intro depth size h
      rw [sized] at h
      split_ifs at h
      have hint : (BitVec.ofNat 32 (v.full_size sprintf)).toInt = v.full_size sprintf :=
        (toNat_of_full hfull).2
      rw [← some.inj h, hint]
      exact Int.ofNat_le.2 (text_size_le_full sprintf v)

/-! ## Arrays of the same value -/

def copies (n : Nat) (v : svalue_t R) : svalue_t R := .T_ARRAY (List.replicate n v)

theorem copies_text_size (sprintf : R → List UInt8) (n : Nat) (v : svalue_t R) :
    (copies n v).text_size sprintf = n * v.text_size sprintf + 5 := by
  have hitems : (items_text sprintf (List.replicate n v)).length = n * v.text_size sprintf := by
    induction n with
    | zero => simp [items_text]
    | succ n ih =>
      rw [replicate_succ, items_text]
      simp only [length_append, length_singleton, ih, svalue_t.text_size]
      ring
  unfold copies
  simp only [svalue_t.text_size, svalue_t.text, length_append, hitems, length_cons,
    length_nil]
  omega

theorem copies_gaps (n : Nat) (v : svalue_t R) : (copies n v).gaps = n * v.gaps := by
  change items_gaps (List.replicate n v) = n * v.gaps
  induction n with
  | zero => simp [items_gaps]
  | succ n ih =>
    rw [replicate_succ, items_gaps, ih]
    ring

theorem copies_nesting (n : Nat) (v : svalue_t R) :
    (copies (n + 1) v).nesting = v.nesting + 1 := by
  have hitems : items_nesting (List.replicate n v) ≤ v.nesting := by
    induction n with
    | zero => simp [items_nesting]
    | succ n ih =>
      rw [replicate_succ, items_nesting]
      omega
  change items_nesting (List.replicate (n + 1) v) + 1 = v.nesting + 1
  rw [replicate_succ, items_nesting]
  omega

theorem write_at_start_overruns (hv : ∀ kind, v ≠ .unsaved kind) (h : size < v.text_size sprintf) :
    write_at_start sprintf v size = none := by
  unfold svalue_t.text_size at h
  unfold write_at_start
  rcases puts sprintf v with ⟨kind, rfl⟩ | hputs
  · exact absurd rfl (hv kind)
  · by_cases hpos : 0 < size
    · have hnul : (buffer_t.mk size [] (Nat.zero_le _)).nul =
          some (buffer_t.mk size [] (Nat.zero_le _)) := if_pos hpos
      rw [hnul]
      simp only [bind_eq_bind, bind_some, hputs]
      rw [← not_isSome_iff_eq_none, put_nul]
      simp only [length_nil]
      omega
    · have hnul : (buffer_t.mk size [] (Nat.zero_le _)).nul = none := if_neg hpos
      rw [hnul]
      rfl

/-- Two references to an array of references to arrays of references to one array of zeros. -/
def tower : svalue_t Unit := copies 2 (copies 1024 (copies 1024 (copies 1024 (.T_NUMBER 0))))

theorem zero_text_size : (svalue_t.T_NUMBER 0 : svalue_t Unit).text_size (fun _ => []) = 2 := by
  unfold svalue_t.text_size svalue_t.text
  rw [number_text_length]
  unfold more_digits
  rfl

theorem tower_text_size : tower.text_size (fun _ => []) = 4305463311 := by
  unfold tower
  rw [copies_text_size, copies_text_size, copies_text_size, copies_text_size, zero_text_size]

theorem tower_gaps : tower.gaps = 0 := by
  unfold tower
  rw [copies_gaps, copies_gaps, copies_gaps, copies_gaps, svalue_t.gaps]

theorem tower_nesting : tower.nesting = 4 := by
  unfold tower
  rw [copies_nesting 1, copies_nesting 1023, copies_nesting 1023, copies_nesting 1023]
  rfl

theorem tower_size : svalue_save_size (fun _ => []) 0 tower = some 10496015 := by
  have hshallow : Shallow 0 4 := by decide
  have hwrapped : BitVec.ofNat 32 4305463311 = 10496015 := by decide
  rw [sized, tower_nesting, if_pos hshallow, svalue_t.full_size, tower_text_size, tower_gaps,
    Nat.add_zero, hwrapped]

/-- The text of the tower has more than 2^32 characters, its size is 10496015. -/
theorem the_tower_overruns :
    ∃ size, svalue_save_size (fun _ => []) 0 tower = some size ∧
      size.toInt < (tower.text_size fun _ => []) ∧
      save_variable (fun _ => []) tower = .overrun := by
  have hint : (10496015 : BitVec 32).toInt = 10496015 := by decide
  refine ⟨10496015, tower_size, ?_, ?_⟩
  · rw [tower_text_size, hint]
    omega
  · have hroom : new_string (10496015 - 1) = some 10496015 := by decide
    have hshort : 10496015 < tower.text_size fun _ => [] := by
      rw [tower_text_size]
      omega
    have hkind : ∀ kind, tower ≠ .unsaved kind := by
      intro kind h
      unfold tower copies at h
      cases h
    unfold save_variable
    simp only [tower_size, hroom]
    rw [write_at_start_overruns hkind hshort]
    rfl

end mudos.save_sizes
