-- The least number is saved as "-0". A value without real numbers comes back from
-- its text if the least number is not in it, and only then.
import MudOS.RoundTripLaws

open mudos.mapping List

namespace mudos.saved_values

variable {n : Int} {item : List svalue_t} {block : Nat} {v : svalue_t}
variable {node : List (svalue_t × svalue_t)} {d : driver}

/-! ## The numbers of a value -/

mutual

def svalue_t.numbers : svalue_t → List Int
  | .T_NUMBER number => [number]
  | .T_REAL _ => []
  | .T_STRING _ _ => []
  | .T_ARRAY _ item => item_numbers item
  | .T_CLASS _ item => item_numbers item
  | .T_MAPPING _ node => node_numbers node

def item_numbers : List svalue_t → List Int
  | [] => []
  | v :: item => v.numbers ++ item_numbers item

def node_numbers : List (svalue_t × svalue_t) → List Int
  | [] => []
  | (key, value) :: node => key.numbers ++ value.numbers ++ node_numbers node

end

theorem mem_item_numbers : n ∈ item_numbers item ↔ ∃ v ∈ item, n ∈ v.numbers := by
  induction item with
  | nil => simp [item_numbers]
  | cons v item ih => simp [item_numbers, ih]

theorem mem_node_numbers :
    n ∈ node_numbers node ↔ ∃ x ∈ node, n ∈ x.1.numbers ∨ n ∈ x.2.numbers := by
  induction node with
  | nil => simp [node_numbers]
  | cons x node ih => simp [node_numbers, ih, or_assoc]

def Clean (v : svalue_t) : Prop := -2147483648 ∉ v.numbers

theorem clean_array : Clean (.T_ARRAY block item) ↔ ∀ v ∈ item, Clean v := by
  simp [Clean, svalue_t.numbers, mem_item_numbers]

theorem clean_class : Clean (.T_CLASS block item) ↔ ∀ v ∈ item, Clean v := by
  simp [Clean, svalue_t.numbers, mem_item_numbers]

theorem clean_mapping : Clean (.T_MAPPING block node) ↔ ∀ x ∈ node, Clean x.1 ∧ Clean x.2 := by
  simp [Clean, svalue_t.numbers, mem_node_numbers]

section

variable (c : config)

/-- A value of the driver without real numbers, whose strings have no NUL and no carriage return.
The keys of a mapping are different, and there is one array without elements. -/
inductive Stored : svalue_t → Prop
  | number {n : Int} (h : -2147483648 ≤ n) (h' : n < 2147483648) : Stored (.T_NUMBER n)
  | string {block : Nat} {s : List UInt8} (h0 : 0 ∉ s) (h13 : 13 ∉ s) : Stored (.T_STRING block s)
  | array {block : Nat} {item : List svalue_t} (hitem : ∀ v ∈ item, Stored v)
      (hsize : item.length ≤ c.max_array_size) (hnull : item = [] → block = 0) :
      Stored (.T_ARRAY block item)
  | class_ {block : Nat} {item : List svalue_t} (hitem : ∀ v ∈ item, Stored v) :
      Stored (.T_CLASS block item)
  | mapping {block : Nat} {node : List (svalue_t × svalue_t)} (hkey : ∀ x ∈ node, Stored x.1)
      (hvalue : ∀ x ∈ node, Stored x.2) (hnodup : (node.map fun x => x.1.key).Nodup)
      (hsize : node.length ≤ min c.MAX_MAPPING_SIZE ROOM) : Stored (.T_MAPPING block node)

end

variable {c : config} {sprintf : literal → List UInt8}

theorem Stored.savable (sprintf : literal → List UInt8) (h : Stored c v) (hclean : Clean v) :
    Savable c sprintf v := by
  induction h with
  | @number n h h' =>
    have hne : n ≠ -2147483648 := by
      rintro rfl
      simp [Clean, svalue_t.numbers] at hclean
    exact .number (by omega) h'
  | string h0 h13 => exact .string h0 h13
  | array hitem hsize hnull ih =>
    exact .array (fun v hv => ih v hv (clean_array.mp hclean v hv)) hsize hnull
  | class_ hitem ih => exact .class_ fun v hv => ih v hv (clean_class.mp hclean v hv)
  | mapping hkey hvalue hnodup hsize ihkey ihvalue =>
    exact .mapping (fun x hx => ihkey x hx (clean_mapping.mp hclean x hx).1)
      (fun x hx => ihvalue x hx (clean_mapping.mp hclean x hx).2) hnodup hsize

/-! ## The same values have the same numbers -/

theorem exists_of_forall₂_left {R : svalue_t → svalue_t → Prop} {l l' : List svalue_t}
    (h : List.Forall₂ R l l') {x : svalue_t} (hx : x ∈ l) : ∃ y ∈ l', R x y := by
  induction h with
  | nil => cases hx
  | cons hxy _ ih =>
    rcases mem_cons.mp hx with rfl | hx
    · exact ⟨_, mem_cons_self, hxy⟩
    · obtain ⟨y, hy, hR⟩ := ih hx
      exact ⟨y, mem_cons_of_mem _ hy, hR⟩

theorem clean_of_same (h : Stored c v) {v' : svalue_t} (hsame : Same v v') (hclean : Clean v') :
    Clean v := by
  induction h generalizing v' with
  | number =>
    cases hsame
    exact hclean
  | string => simp [Clean, svalue_t.numbers]
  | array hitem hsize hnull ih =>
    cases hsame with
    | array hitems =>
      refine clean_array.mpr fun v hv => ?_
      obtain ⟨w, hw, hsame⟩ := exists_of_forall₂_left hitems hv
      exact ih v hv hsame (clean_array.mp hclean w hw)
  | class_ hitem ih =>
    cases hsame with
    | class_ hitems =>
      refine clean_class.mpr fun v hv => ?_
      obtain ⟨w, hw, hsame⟩ := exists_of_forall₂_left hitems hv
      exact ih v hv hsame (clean_class.mp hclean w hw)
  | mapping hkey hvalue hnodup hsize ihkey ihvalue =>
    cases hsame with
    | mapping hkeys hvalues hperm =>
      have hmade : ∀ {y : svalue_t × svalue_t}, y ∈ _ → Clean y.1 ∧ Clean y.2 := fun hy =>
        clean_mapping.mp hclean _ (hperm.mem_iff.mp hy)
      refine clean_mapping.mpr fun x hx => ⟨?_, ?_⟩
      · obtain ⟨w, hw, hsame⟩ := exists_of_forall₂_left hkeys (mem_map_of_mem hx)
        obtain ⟨y, hy, rfl⟩ := mem_map.mp hw
        exact ihkey x hx hsame (hmade hy).1
      · obtain ⟨w, hw, hsame⟩ := exists_of_forall₂_left hvalues (mem_map_of_mem hx)
        obtain ⟨y, hy, rfl⟩ := mem_map.mp hw
        exact ihvalue x hx hsame (hmade hy).2

/-! ## What is read is never the least number -/

theorem readsAs_least : ReadsAs (save_number (-2147483648)) (.T_NUMBER 0) := by
  have htext : save_number (-2147483648) = [45, 48] := by decide
  refine ⟨45, [48], htext, .inl rfl, fun c rest hc => ?_⟩
  have hzero : 0 < 2147483648 := by decide
  have hch : isdigit 48 = true := by decide
  have hl : ∀ x ∈ ([] : List UInt8), isdigit x = true := by simp
  have hread := parse_digits_saved true hzero hch hl rfl hc rest
  simpa [parse_numeric, int32, hch] using hread

theorem readsAs_some (h : -2147483648 ≤ n) (h' : n < 2147483648) :
    ∃ n', ReadsAs (save_number n) (.T_NUMBER n') ∧ Clean (.T_NUMBER n') := by
  by_cases hleast : n = -2147483648
  · subst hleast
    exact ⟨0, readsAs_least, by simp [Clean, svalue_t.numbers]⟩
  · refine ⟨n, readsAs_number (by omega) h', ?_⟩
    simpa [Clean, svalue_t.numbers] using Ne.symm hleast

theorem Stored.legible (h : Stored c v) : Legible sprintf v := by
  induction h with
  | number h h' =>
    obtain ⟨n', hread, -⟩ := readsAs_some h h'
    exact .number hread rfl
  | string h0 _ => exact .string h0
  | array _ _ _ ih => exact .array ih
  | class_ _ ih => exact .class_ ih
  | mapping _ _ _ _ ihkey ihvalue => exact .mapping ihkey ihvalue

/-- The value is restored as an element without the least number, if it is restored. -/
def Clears (c : config) (sprintf : literal → List UInt8) (v : svalue_t) : Prop :=
  ∀ (f : Nat) (d : driver) (string_error generic_error : Nat) (sep : UInt8) (rest : List UInt8),
    sep = 58 ∨ sep = 44 → (save_svalue sprintf v ++ sep :: rest).length ≤ f → Entries d v.sizes →
      (restore_part (restore_container c f) sep string_error generic_error
        (save_svalue sprintf v ++ sep :: rest) d).Gives fun r d' =>
          Clean r.1 ∧ r.2 = rest ∧ Passed d d' v.sizes

theorem clears_number (h : -2147483648 ≤ n) (h' : n < 2147483648) :
    Clears c sprintf (.T_NUMBER n) := by
  intro f d string_error generic_error sep rest hsep _ _
  obtain ⟨n', hread, hclean⟩ := readsAs_some h h'
  have hpart := restore_part_number hread (restore_container c f) string_error generic_error hsep
    rest d
  rw [save_svalue, hpart]
  exact ⟨hclean, rfl, .refl d⟩

theorem clears_string {s : List UInt8} (h0 : 0 ∉ s) (h13 : 13 ∉ s) :
    Clears c sprintf (.T_STRING block s) := by
  intro f d string_error generic_error sep rest _ _ _
  rw [restore_part_string h0 h13]
  exact ⟨by simp [Clean, svalue_t.numbers], rfl, rfl, rfl⟩

theorem restore_items_clears {todo : List svalue_t} (h : ∀ v ∈ todo, Clears c sprintf v)
    {f N : Nat} (e : Nat) (block : List Nat) {ch : UInt8} {rest : List UInt8}
    (item : List svalue_t) (d : driver)
    (hN : item.length + todo.length = N)
    (hf : (save_items sprintf todo ++ ch :: 41 :: rest).length ≤ f)
    (hd : Entries d (item_sizes todo)) (hitem : ∀ v ∈ item, Clean v) :
    (restore_items (restore_container c f) N e block todo.length item
      (save_items sprintf todo ++ ch :: 41 :: rest) d).Gives fun r d' =>
        (∀ v ∈ r.1, Clean v) ∧ r.2 = ch :: 41 :: rest ∧ Passed d d' (item_sizes todo) := by
  induction todo generalizing item d with
  | nil => exact ⟨hitem, rfl, .refl d⟩
  | cons v todo ih =>
    have htext : save_items sprintf (v :: todo) ++ ch :: 41 :: rest =
        save_svalue sprintf v ++ 44 :: (save_items sprintf todo ++ ch :: 41 :: rest) := by
      simp [save_items]
    rw [htext] at hf ⊢
    rw [length_cons, restore_items]
    apply (h v mem_cons_self f d e e 44 _ (.inr rfl) hf hd.left).handle
      fun code d => gives_give_up _ code d
    rintro ⟨v', cp⟩ d₁ ⟨hclean, rfl, hpassed⟩
    have hlen : item.length < N := by
      rw [length_cons] at hN
      omega
    simp only [hlen, if_true]
    apply (ih (fun w hw => h w (mem_cons_of_mem v hw)) (item ++ [v']) d₁
      (by rw [length_append, length_singleton, ← hN, length_cons]; omega)
      (by simp at hf ⊢; omega) (hd.right hpassed)
      (by simpa [or_imp, forall_and] using ⟨hitem, hclean⟩)).mono
    rintro r d₂ ⟨hitems, hrest, hpassed'⟩
    exact ⟨hitems, hrest, hpassed.trans hpassed'⟩

def CleanNodes (m : Building) : Prop := ∀ x ∈ m.node, Clean x.1 ∧ Clean x.2

theorem insert_node_clears {m : Building} (hfits : Fits c m) (hm : CleanNodes m) (block : Nat)
    {key value : svalue_t} (hkey : Clean key) (hvalue : Clean value) (d : driver) :
    (insert_node c block m key value d).Gives fun m' d' =>
      Fits c m' ∧ CleanNodes m' ∧ Passed d d' [] := by
  rcases insert_node_cases hfits block key value d with
    ⟨elt, helt, hi⟩ | ⟨hnew, ⟨m', hi, hfits', hdenotes⟩ | hi⟩
  · obtain ⟨hfits', hdenotes⟩ := fits_assign hfits helt (elt.1, value)
    obtain ⟨rest, hold, hput⟩ := node_insert_old hfits hfits' helt hdenotes
    rw [hi]
    apply (gives_free_blocks _ d).bind
    rintro - d' hpassed
    refine ⟨hfits', fun x hx => ?_, hpassed⟩
    rcases mem_cons.mp (hput.mem_iff.mp hx) with rfl | hx
    · exact ⟨(hm elt (hold.mem_iff.mpr mem_cons_self)).1, hvalue⟩
    · exact hm x (hold.mem_iff.mpr (mem_cons_of_mem elt hx))
  · have hput := node_insert_new hfits hfits' hnew hdenotes
    rw [hi]
    refine ⟨hfits', fun x hx => ?_, .refl d⟩
    rcases mem_cons.mp (hput.mem_iff.mp hx) with rfl | hx
    · exact ⟨hkey, hvalue⟩
    · exact hm x hx
  · rw [hi]
    exact (gives_free_blocks _ d).bind fun _ _ _ => trivial

abbrev CleanBehind (d : driver) (l : List Nat) (rest : List UInt8) :
    Option svalue_t × List UInt8 → driver → Prop := fun r d' =>
  (∀ v, r.1 = some v → Clean v) ∧ r.2 = rest ∧ Passed d d' l

theorem restore_nodes_clears {f : Nat} (block : Nat) (rest : List UInt8)
    {todo : List (svalue_t × svalue_t)} (hlegible : ∀ x ∈ todo, Legible sprintf x.1)
    (hkey : ∀ x ∈ todo, Clears c sprintf x.1) (hvalue : ∀ x ∈ todo, Clears c sprintf x.2)
    {m : Building} {k : Nat} (hk : (save_nodes sprintf todo ++ 93 :: 41 :: rest).length < k)
    (hf : (save_nodes sprintf todo ++ 93 :: 41 :: rest).length ≤ f)
    (hd : Entries d (node_sizes todo)) (hfits : Fits c m) (hm : CleanNodes m) :
    (restore_nodes c (restore_container c f) block k m
      (save_nodes sprintf todo ++ 93 :: 41 :: rest) d).Gives
        (CleanBehind d (node_sizes todo) rest) := by
  induction todo generalizing m d k with
  | nil =>
    obtain ⟨k, rfl⟩ : ∃ k', k = k' + 1 := ⟨k - 1, by omega⟩
    simp only [save_nodes, nil_append, restore_nodes, head?_cons, if_true]
    refine ⟨fun v hv => ?_, rfl, .refl d⟩
    cases hv
    exact clean_mapping.mpr hm
  | cons x todo ih =>
    obtain ⟨key, value⟩ := x
    obtain ⟨k, rfl⟩ : ∃ k', k = k' + 1 := ⟨k - 1, by omega⟩
    have htext : save_nodes sprintf ((key, value) :: todo) ++ 93 :: 41 :: rest =
        save_svalue sprintf key ++ 58 :: (save_svalue sprintf value ++ 44 ::
          (save_nodes sprintf todo ++ 93 :: 41 :: rest)) := by
      simp [save_nodes]
    rw [htext] at hf hk ⊢
    obtain ⟨ch, t, hch, h93⟩ := (hlegible _ mem_cons_self).head
    have hhead : (save_svalue sprintf key ++ 58 :: (save_svalue sprintf value ++ 44 ::
        (save_nodes sprintf todo ++ 93 :: 41 :: rest))).head? ≠ some 93 := by
      rw [hch]
      simpa using h93
    rw [node_sizes] at hd ⊢
    rw [restore_nodes, if_neg hhead]
    apply (hkey _ mem_cons_self f d ROB_STRING_ERROR ROB_MAPPING_ERROR 58 _ (.inl rfl) hf
      hd.left.left).handle fun code d => gives_give_up _ code d
    rintro ⟨key', cp⟩ d₁ ⟨hkeyclean, rfl, hpassed₁⟩
    apply (hvalue _ mem_cons_self f d₁ ROB_STRING_ERROR ROB_MAPPING_ERROR 44
      (save_nodes sprintf todo ++ 93 :: 41 :: rest) (.inr rfl)
      (by simp at hf ⊢; omega)
      (hd.left.right hpassed₁)).handle fun code d => gives_give_up _ code d
    rintro ⟨value', cp⟩ d₂ ⟨hvalueclean, rfl, hpassed₂⟩
    apply (insert_node_clears hfits hm block hkeyclean hvalueclean d₂).bind
    rintro m' d₃ ⟨hfits', hm', hpassed₃⟩
    have hpassed : Passed d d₃ (key.sizes ++ value.sizes) := by
      have htrans := (hpassed₁.trans hpassed₂).trans hpassed₃
      rwa [append_nil] at htrans
    apply (ih (fun w hw => hlegible w (mem_cons_of_mem _ hw))
      (fun w hw => hkey w (mem_cons_of_mem _ hw))
      (fun w hw => hvalue w (mem_cons_of_mem _ hw)) (k := k)
      (by simp at hk ⊢; omega)
      (by simp at hf ⊢; omega)
      (hd.right hpassed) hfits' hm').mono
    rintro r d₄ ⟨hclean, hrest, hpassed₄⟩
    exact ⟨hclean, hrest, hpassed.trans hpassed₄⟩

/-! ## Containers -/

/-- A container that is built without the least number, if it is built. -/
structure Cleared (c : config) (sprintf : literal → List UInt8) (v : svalue_t) (k : kind)
    (text : List UInt8) (size : Nat) (l : List Nat) : Prop where
  saved : ∃ ch, kind_of ch = some k ∧ save_svalue sprintf v = 40 :: ch :: text
  sizes : v.sizes = size :: l
  counts : ∀ rest, 0 ∈ rest → Counted Any (k = .mapping) false (text ++ rest) size l rest
  builds : ∀ (f : Nat) (d : driver) (rest : List UInt8), (text ++ rest).length ≤ f → Entries d l →
    (build c (restore_container c f) k size (text ++ rest) d).Gives (CleanBehind d l rest)

theorem Cleared.clears {k : kind} {text : List UInt8} {size : Nat} {l : List Nat}
    (h : Cleared c sprintf v k text size l) : Clears c sprintf v := by
  intro f d string_error generic_error sep rest hsep hf hd
  obtain ⟨ch, hch, htext⟩ := h.saved
  rw [htext] at hf ⊢
  rw [h.sizes] at hd ⊢
  simp only [cons_append, length_cons] at hf ⊢
  obtain ⟨f, rfl⟩ : ∃ f', f = f' + 1 := ⟨f - 1, by omega⟩
  obtain ⟨hpart, hinside⟩ := restore_part_container (c := c) hch (f := f)
    (text ++ sep :: rest) hd sep string_error generic_error
  rw [hpart]
  apply (h.builds f _ (sep :: rest) (by omega) hinside).bind
  rintro ⟨v', cp⟩ d' ⟨hclean, rfl, hpassed⟩
  refine ⟨?_, rfl, hpassed.container size⟩
  rcases v' with _ | v'
  · simp [Clean, svalue_t.numbers]
  · exact hclean v' rfl

theorem cleared_array (hlegible : ∀ v ∈ item, Legible sprintf v)
    (h : ∀ v ∈ item, Clears c sprintf v) :
    Cleared c sprintf (.T_ARRAY block item) .array (save_items sprintf item ++ [125, 41])
      item.length (item_sizes item) := by
  have htext : ∀ rest, save_items sprintf item ++ [125, 41] ++ rest =
      save_items sprintf item ++ 125 :: 41 :: rest := fun rest => by simp
  refine ⟨⟨123, rfl, by simp [save_svalue]⟩, rfl, fun rest hnul => ?_, fun f d rest hf hd => ?_⟩
  · rw [htext]
    exact counted_items (fun v hv => (hlegible v hv).countsAs) false (.inr rfl) hnul
  rw [htext] at hf ⊢
  simp only [build, build_array]
  split_ifs with hlimit hnil
  · trivial
  · have hnil : item = [] := length_eq_zero_iff.mp (by omega)
    subst hnil
    refine ⟨fun v hv => ?_, rfl, .refl d⟩
    cases hv
    simp [the_null_array, clean_array]
  · apply (restore_items_clears h ROB_ARRAY_ERROR [d.next_block] [] d.new_block (by simp) hf hd
      (by simp)).bind
    rintro ⟨made, cp⟩ d' ⟨hclean, rfl, hpassed⟩
    refine ⟨fun v hv => ?_, rfl, hpassed.depth, hpassed.sizes⟩
    cases hv
    exact clean_array.mpr hclean

theorem cleared_class (hlegible : ∀ v ∈ item, Legible sprintf v)
    (h : ∀ v ∈ item, Clears c sprintf v) :
    Cleared c sprintf (.T_CLASS block item) .class_ (save_items sprintf item ++ [47, 41])
      item.length (item_sizes item) := by
  have htext : ∀ rest, save_items sprintf item ++ [47, 41] ++ rest =
      save_items sprintf item ++ 47 :: 41 :: rest := fun rest => by simp
  refine ⟨⟨47, rfl, by simp [save_svalue]⟩, rfl, fun rest hnul => ?_, fun f d rest hf hd => ?_⟩
  · rw [htext]
    exact counted_items (fun v hv => (hlegible v hv).countsAs) false (.inl rfl) hnul
  rw [htext] at hf ⊢
  have hneg : ¬ (item.length : Int) < 0 := by omega
  simp only [build, build_class, hneg, if_false]
  apply (restore_items_clears h ROB_CLASS_ERROR [d.next_block] [] d.new_block (by simp) hf hd
    (by simp)).bind
  rintro ⟨made, cp⟩ d' ⟨hclean, rfl, hpassed⟩
  refine ⟨fun v hv => ?_, rfl, hpassed.depth, hpassed.sizes⟩
  cases hv
  exact clean_class.mpr hclean

theorem cleared_mapping (hlegible : ∀ x ∈ node, Legible sprintf x.1)
    (hlegible' : ∀ x ∈ node, Legible sprintf x.2) (hkey : ∀ x ∈ node, Clears c sprintf x.1)
    (hvalue : ∀ x ∈ node, Clears c sprintf x.2) :
    Cleared c sprintf (.T_MAPPING block node) .mapping (save_nodes sprintf node ++ [93, 41])
      (2 * node.length) (node_sizes node) := by
  have htext : ∀ rest, save_nodes sprintf node ++ [93, 41] ++ rest =
      save_nodes sprintf node ++ 93 :: 41 :: rest := fun rest => by simp
  refine ⟨⟨91, rfl, by simp [save_svalue]⟩, rfl, fun rest hnul => ?_, fun f d rest hf hd => ?_⟩
  · rw [htext]
    exact counted_nodes (fun x hx => (hlegible x hx).countsAs)
      (fun x hx => (hlegible' x hx).countsAs) hnul
  rw [htext] at hf ⊢
  simp only [build, build_mapping]
  split_ifs with hnil
  · have hnil : node = [] := length_eq_zero_iff.mp (by omega)
    subst hnil
    refine ⟨fun v hv => ?_, rfl, rfl, rfl⟩
    cases hv
    simp [clean_mapping]
  · have hempty : ∀ n, CleanNodes ⟨allocate_mapping c.MAX_MAPPING_SIZE n,
        (allocate_mapping c.MAX_MAPPING_SIZE n : mapping_t Key (svalue_t × svalue_t)).table_size,
        0⟩ := fun n => by
      simp [CleanNodes, Building.node, mapping.traverse, (allocate_mapping_empty _ _).1]
    apply (restore_nodes_clears d.next_block rest hlegible hkey hvalue (Nat.lt_succ_self _) hf
      (d := d.new_block) hd (fits_allocate_mapping c _ 0) (hempty _)).mono
    rintro r d' ⟨hclean, hrest, hpassed⟩
    exact ⟨hclean, hrest, hpassed.depth, hpassed.sizes⟩

theorem Stored.clears (h : Stored c v) : Clears c sprintf v := by
  induction h with
  | number h h' => exact clears_number h h'
  | string h0 h13 => exact clears_string h0 h13
  | array hitem _ _ ih => exact (cleared_array (fun v hv => (hitem v hv).legible) ih).clears
  | class_ hitem ih => exact (cleared_class (fun v hv => (hitem v hv).legible) ih).clears
  | mapping hkey hvalue _ _ ihkey ihvalue =>
    exact (cleared_mapping (fun x hx => (hkey x hx).legible) (fun x hx => (hvalue x hx).legible)
      ihkey ihvalue).clears

theorem Cleared.outermost {k : kind} {text : List UInt8} {size : Nat} {l : List Nat}
    (h : Cleared c sprintf v k text size l) (hd : Fresh d) (rest : List UInt8) :
    (restore_svalue c (save_svalue sprintf v ++ 0 :: rest) const0 d).Gives fun r _ =>
      Clean r.2 := by
  obtain ⟨ch, hch, htext⟩ := h.saved
  obtain ⟨d₁, hsize, hd₁, hentries⟩ := restore_size_saved hd (0 :: rest) mem_cons_self
    (h.counts _ mem_cons_self)
  have hbuild := h.builds (text ++ 0 :: rest).length d₁ (0 :: rest) (Nat.le_refl _) hentries
  have houtermost := restore_container_outermost c (text ++ 0 :: rest).length k (text ++ 0 :: rest)
    hd.depth
  have hneg : ¬ (size : Int) < 0 := by omega
  have hzero : Clean const0 := by simp [Clean, svalue_t.numbers]
  rw [hsize] at houtermost
  simp only [outcome.bind, outcome.handle, hneg, if_false] at houtermost
  rw [htext]
  simp only [restore_svalue, cons_append, show (40 : UInt8) ≠ 34 by decide, if_false, if_true,
    hch, restore_outermost, houtermost, outcome.returns]
  have hvalue : ((build c (restore_container c (text ++ 0 :: rest).length) k size
      (text ++ 0 :: rest) d₁).handle (fun code d => .rob code (reset_sizes d))
      fun r d => .value (r.1.getD const0) (reset_sizes d)).Gives fun v' _ => Clean v' := by
    refine hbuild.handle (fun code d => ?_) ?_
    · trivial
    rintro ⟨v', cp⟩ d' ⟨hclean, -, -⟩
    rcases v' with _ | v'
    · exact hzero
    · exact hclean v' rfl
  exact hvalue.handle (fun _ _ => hzero) fun _ _ hclean => hclean

theorem restore_svalue_clears (sprintf : literal → List UInt8) (h : Stored c v) (hd : Fresh d)
    (rest : List UInt8) :
    (restore_svalue c (save_svalue sprintf v ++ 0 :: rest) const0 d).Gives fun r _ =>
      Clean r.2 := by
  cases h with
  | number h h' =>
    obtain ⟨n', ⟨ch, t, htext, hch, hread⟩, hclean⟩ := readsAs_some h h'
    have hread := hread 0 rest (.inr (.inr rfl))
    have hplain := plain_of_number hch
    rw [save_svalue, htext]
    simp only [restore_svalue, cons_append, hplain.2.1, hplain.2.2.1, if_false]
    rwa [if_pos (by simpa using hch), hread]
  | string h0 h13 =>
    have hread := restore_interior_string_saved h0 h13 (0 :: rest)
    simp only [save_svalue, cons_append, append_assoc, nil_append, restore_svalue,
      if_true, restore_string, hread]
    simp [outcome.Gives, Clean, svalue_t.numbers]
  | array hitem =>
    exact (cleared_array (fun v hv => (hitem v hv).legible)
      fun v hv => (hitem v hv).clears).outermost hd rest
  | class_ hitem =>
    exact (cleared_class (fun v hv => (hitem v hv).legible)
      fun v hv => (hitem v hv).clears).outermost hd rest
  | mapping hkey hvalue =>
    exact (cleared_mapping (fun x hx => (hkey x hx).legible) (fun x hx => (hvalue x hx).legible)
      (fun x hx => (hkey x hx).clears) fun x hx => (hvalue x hx).clears).outermost hd rest

/-! ## The round trip -/

/-- A value comes back from its text exactly if the least number is not in it. -/
theorem what_is_saved_comes_back (c : config) (sprintf : literal → List UInt8) (v : svalue_t)
    (h : Stored c v) :
    (∃ v' d', restore_svalue c (save_svalue sprintf v ++ [0]) const0 start = .value (0, v') d' ∧
      Same v v') ↔ -2147483648 ∉ v.numbers := by
  constructor
  · rintro ⟨v', d', hrestore, hsame⟩
    have hclears := restore_svalue_clears sprintf h fresh_start []
    rw [hrestore] at hclears
    exact clean_of_same h hsame hclears
  · intro hclean
    obtain ⟨v', d', hrestore, hsame, -⟩ := restore_svalue_saved (h.savable sprintf hclean) const0
      fresh_start []
    exact ⟨v', d', hrestore, hsame⟩

theorem a_nested_value_comes_back :
    ∃ v' d', restore_svalue ⟨15000, 15000, fun _ => 0, fun _ => 0⟩
      (save_svalue (fun _ => [])
        (.T_ARRAY 1 [.T_NUMBER (-2147483647), .T_CLASS 2 [.T_STRING 3 [34, 10, 92]],
          .T_MAPPING 4 [(.T_NUMBER 7, .T_STRING 5 [104, 105]),
            (.T_STRING 6 [107], the_null_array)]]) ++ [0]) const0 start = .value (0, v') d' ∧
      Same (.T_ARRAY 1 [.T_NUMBER (-2147483647), .T_CLASS 2 [.T_STRING 3 [34, 10, 92]],
        .T_MAPPING 4 [(.T_NUMBER 7, .T_STRING 5 [104, 105]),
          (.T_STRING 6 [107], the_null_array)]]) v' := by
  refine (what_is_saved_comes_back _ _ _ (.array ?_ (by decide) (by simp))).mpr (by decide)
  intro v hv
  simp only [mem_cons, not_mem_nil, or_false] at hv
  rcases hv with rfl | rfl | rfl
  · exact .number (by decide) (by decide)
  · refine .class_ fun v hv => ?_
    rw [mem_singleton] at hv
    subst hv
    exact .string (by decide) (by decide)
  · refine .mapping (fun x hx => ?_) (fun x hx => ?_) (by decide) (by decide) <;>
      simp at hx <;> rcases hx with rfl | rfl
    · exact .number (by decide) (by decide)
    · exact .string (by decide) (by decide)
    · exact .string (by decide) (by decide)
    · exact .array (by simp) (by decide) fun _ => rfl

theorem the_least_number_comes_back_as_zero :
    Stored ⟨15000, 15000, fun _ => 0, fun _ => 0⟩ (.T_NUMBER (-2147483648)) ∧
      restore_svalue ⟨15000, 15000, fun _ => 0, fun _ => 0⟩
        (save_svalue (fun _ => []) (.T_NUMBER (-2147483648)) ++ [0]) const0 start =
          .value (0, .T_NUMBER 0) start ∧
      ¬ ∃ v' d', restore_svalue ⟨15000, 15000, fun _ => 0, fun _ => 0⟩
        (save_svalue (fun _ => []) (.T_NUMBER (-2147483648)) ++ [0]) const0 start =
          .value (0, v') d' ∧ Same (.T_NUMBER (-2147483648)) v' := by
  have hzero : restore_svalue ⟨15000, 15000, fun _ => 0, fun _ => 0⟩
      (save_svalue (fun _ => []) (.T_NUMBER (-2147483648)) ++ [0]) const0 start =
        .value (0, .T_NUMBER 0) start := rfl
  refine ⟨.number (by decide) (by decide), hzero, ?_⟩
  rintro ⟨v', d', hrestore, hsame⟩
  rw [hzero] at hrestore
  cases hrestore
  cases hsame

end mudos.saved_values
