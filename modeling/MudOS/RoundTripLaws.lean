-- What is saved is restored: the text of a value is counted by the first pass, and
-- the second builds a value from it that differs in its blocks only.
import MudOS.SavedTextLaws

open mudos.mapping List

namespace mudos.saved_values

variable {s cp text : List UInt8} {n block size : Nat} {ch : UInt8} {l : List Nat} {d : driver}
variable {rest : List UInt8} {item : List svalue_t} {k : kind} {f : Nat} {m : Building}
  {d' : driver}

/-! ## Strings -/

theorem save_char_cases (c : UInt8) :
    (c = 34 ∨ c = 92) ∧ save_char c = [92, c] ∨
      c = 10 ∧ save_char c = [13] ∨ c ≠ 34 ∧ c ≠ 92 ∧ save_char c = [c] := by
  unfold save_char
  split_ifs with hescape hnewline
  · exact .inl ⟨hescape, rfl⟩
  · exact .inr (.inl ⟨hnewline, rfl⟩)
  · rw [not_or] at hescape
    exact .inr (.inr ⟨hescape.1, hescape.2, rfl⟩)

theorem skip_string_cons (c : UInt8) (cp : List UInt8) :
    skip_string (c :: cp) =
      if c = 34 then .found cp
      else if c = 0 then .missing
      else if c = 92 then
        match cp with
        | [] => .outside
        | c :: cp => if c = 0 then .missing else skip_string cp
      else skip_string cp :=
  skip_string.eq_def (c :: cp)

theorem skip_string_saved (h0 : 0 ∉ s) (rest : List UInt8) :
    skip_string (s.flatMap save_char ++ 34 :: rest) = .found rest := by
  induction s with
  | nil => simp [skip_string_cons]
  | cons c s ih =>
    rw [mem_cons, not_or] at h0
    have hc : c ≠ 0 := Ne.symm h0.1
    rw [flatMap_cons, append_assoc]
    rcases save_char_cases c with ⟨-, h⟩ | ⟨-, h⟩ | ⟨h34, h92, h⟩ <;> rw [h]
    · simp [skip_string_cons, hc, ih h0.2]
    · simp [skip_string_cons, ih h0.2]
    · simp [skip_string_cons, h34, h92, hc, ih h0.2]

theorem behind_escape_saved (h0 : 0 ∉ s) (h13 : 13 ∉ s) (rest : List UInt8) :
    behind_escape (s.flatMap save_char ++ 34 :: rest) = .closed s rest := by
  induction s with
  | nil => simp [behind_escape_cons]
  | cons c s ih =>
    rw [mem_cons, not_or] at h0 h13
    have hih := ih h0.2 h13.2
    rw [flatMap_cons, append_assoc]
    rcases save_char_cases c with ⟨-, h⟩ | ⟨h10, h⟩ | ⟨h34, h92, h⟩ <;> rw [h]
    · simp [behind_escape_cons, Ne.symm h0.1, hih, string_end.put]
    · simp [behind_escape_cons, hih, string_end.put, h10]
    · simp [behind_escape_cons, h34, h92, Ne.symm h13.1, hih, string_end.put]

theorem restore_interior_string_saved (h0 : 0 ∉ s) (h13 : 13 ∉ s) (rest : List UInt8) :
    restore_interior_string (s.flatMap save_char ++ 34 :: rest) = .closed s rest := by
  induction s with
  | nil => simp [restore_interior_string_cons]
  | cons c s ih =>
    rw [mem_cons, not_or] at h0 h13
    have hih := ih h0.2 h13.2
    have hbehind := behind_escape_saved h0.2 h13.2 rest
    rw [flatMap_cons, append_assoc]
    rcases save_char_cases c with ⟨-, h⟩ | ⟨h10, h⟩ | ⟨h34, h92, h⟩ <;> rw [h]
    · simp [restore_interior_string_cons, Ne.symm h0.1, hbehind, string_end.put]
    · simp [restore_interior_string_cons, hih, string_end.put, h10]
    · simp [restore_interior_string_cons, h34, h92, Ne.symm h13.1, Ne.symm h0.1, hih,
        string_end.put]

/-! ## Numbers -/

/-- Characters that may stand behind a value: a delimiter, or the end. -/
def Behind (c : UInt8) : Prop := c = 58 ∨ c = 44 ∨ c = 0

def digit_text (n : Nat) : List UInt8 := (Nat.toDigits 10 n).map fun ch => ch.toNat.toUInt8

theorem save_number_eq (n : Int) :
    save_number n = if n < 0 then 45 :: digit_text ((-n).toNat % 2147483648)
      else digit_text n.toNat := by
  unfold save_number digit_text
  split_ifs <;> rfl

def decimal (res : Nat) (l : List UInt8) : Nat :=
  l.foldl (fun res c => 10 * res + (c.toNat - 48)) res

theorem int32_eq {n : Int} (h : -2147483648 ≤ n) (h' : n < 2147483648) : int32 n = n := by
  rw [int32, Int.bmod_def]
  split_ifs <;> omega

theorem le_decimal (res : Nat) (l : List UInt8) : res ≤ decimal res l := by
  induction l generalizing res with
  | nil => exact Nat.le_refl res
  | cons c l ih =>
    have hle := ih (10 * res + (c.toNat - 48))
    simp only [decimal, foldl_cons] at hle ⊢
    omega

theorem digits_eq {l : List UInt8} (hl : ∀ c ∈ l, isdigit c = true) {c : UInt8}
    (hc : isdigit c = false) (res : Nat) (h : decimal res l < 2147483648) (rest : List UInt8) :
    digits res (l ++ c :: rest) = ((decimal res l : Int), c :: rest) := by
  induction l generalizing res with
  | nil => simp [digits, hc, decimal]
  | cons x l ih =>
    have hx : isdigit x = true := hl x mem_cons_self
    have hle := le_decimal (10 * res + (x.toNat - 48)) l
    simp only [decimal, foldl_cons] at h hle ih ⊢
    have h48 : 48 ≤ x.toNat := by
      simp only [isdigit, Bool.and_eq_true, decide_eq_true_eq, UInt8.le_iff_toNat_le] at hx
      exact hx.1
    have hnext : int32 ((res : Int) * 10 + (x.toNat - 48)) =
        ((10 * res + (x.toNat - 48) : Nat) : Int) := by
      rw [int32_eq (by omega) (by omega)]
      omega
    rw [cons_append, digits, if_pos hx, hnext]
    exact ih (fun c hc => hl c (mem_cons_of_mem x hc)) _ h

theorem isdigit_digit_text (n : Nat) : ∀ c ∈ digit_text n, isdigit c = true :=
  fun _ hc => isdigit_of_mem_toDigits hc

theorem toNat_digit {ch : Char} (h : ch ∈ Nat.toDigits 10 n) :
    ch.toNat.toUInt8.toNat = ch.toNat := by
  have hdigit := Nat.isDigit_of_mem_toDigits (by decide) (by decide) h
  simp only [Char.isDigit, Bool.and_eq_true, decide_eq_true_eq, ge_iff_le, UInt32.le_iff_toNat_le]
    at hdigit
  change 48 ≤ ch.toNat ∧ ch.toNat ≤ 57 at hdigit
  rw [Nat.toUInt8_eq, UInt8.toNat_ofNat']
  exact Nat.mod_eq_of_lt (by omega)

theorem digit_text_spec (n : Nat) : ∃ c l, digit_text n = c :: l ∧ isdigit c = true ∧
    (∀ x ∈ l, isdigit x = true) ∧ decimal (c.toNat - 48) l = n := by
  have hdigits := isdigit_digit_text n
  have hdecimal : decimal 0 (digit_text n) = n := by
    rw [digit_text, decimal, foldl_map]
    refine Eq.trans (foldl_ext _ _ _ fun res ch hch => ?_)
      (Nat.ofDigitChars_eq_foldl.symm.trans (Nat.ofDigitChars_ten_toDigits (n := n)))
    rw [toNat_digit hch]
    rfl
  rcases hl : digit_text n with _ | ⟨c, l⟩
  · exact absurd (map_eq_nil_iff.mp hl) Nat.toDigits_ne_nil
  · rw [hl] at hdigits hdecimal
    refine ⟨c, l, rfl, hdigits c mem_cons_self,
      fun x hx => hdigits x (mem_cons_of_mem c hx), ?_⟩
    rw [← hdecimal]
    simp [decimal]

theorem parse_digits_saved (neg : Bool) (h : n < 2147483648) {c : UInt8} {l : List UInt8}
    (hch : isdigit ch = true) (hl : ∀ x ∈ l, isdigit x = true) (hn : decimal (ch.toNat - 48) l = n)
    (hc : Behind c) (rest : List UInt8) :
    parse_digits neg ch (l ++ c :: rest) =
      .number (.T_NUMBER (if neg then int32 (-(n : Int)) else n)) c rest := by
  have hdigit : isdigit c = false := by rcases hc with rfl | rfl | rfl <;> decide
  have h46 : c ≠ 46 := by rcases hc with rfl | rfl | rfl <;> decide
  have h101 : c ≠ 101 := by rcases hc with rfl | rfl | rfl <;> decide
  have h48 : 48 ≤ ch.toNat := by
    simp only [isdigit, Bool.and_eq_true, decide_eq_true_eq, UInt8.le_iff_toNat_le] at hch
    exact hch.1
  have hread := digits_eq hl hdigit (ch.toNat - 48) (by omega) rest
  rw [hn] at hread
  have hfirst : (((ch.toNat - 48 : Nat) : Int)) = (ch.toNat : Int) - 48 := by omega
  rw [hfirst] at hread
  simp [parse_digits, hread, h46, h101]

theorem parse_numeric_saved {n : Int} (h : -2147483648 < n) (h' : n < 2147483648) {c : UInt8}
    (hc : Behind c) (rest : List UInt8) :
    ∃ ch t, save_number n = ch :: t ∧ (ch = 45 ∨ isdigit ch = true) ∧
      parse_numeric ch (t ++ c :: rest) = .number (.T_NUMBER n) c rest := by
  rw [save_number_eq]
  split_ifs with hneg
  · obtain ⟨ch, l, hl, hch, hdigits, hdecimal⟩ := digit_text_spec ((-n).toNat % 2147483648)
    rw [hl]
    refine ⟨45, ch :: l, rfl, .inl rfl, ?_⟩
    have hread := parse_digits_saved true (by omega) hch hdigits hdecimal hc rest
    have hn : int32 (-(((-n).toNat % 2147483648 : Nat) : Int)) = n := by
      rw [int32_eq (by omega) (by omega)]
      omega
    rw [if_pos rfl, hn] at hread
    simp [parse_numeric, hch, hread]
  · obtain ⟨ch, l, hl, hch, hdigits, hdecimal⟩ := digit_text_spec n.toNat
    rw [hl]
    refine ⟨ch, l, rfl, .inr hch, ?_⟩
    have h45 : ch ≠ 45 := by
      rintro rfl
      cases hch
    have hread := parse_digits_saved false (by omega) hch hdigits hdecimal hc rest
    have hn : ((n.toNat : Nat) : Int) = n := by omega
    rw [if_neg (by simp), hn] at hread
    simp [parse_numeric, h45, hread]

/-! ## Values that save as themselves -/

def ReadsAs (text : List UInt8) (v : svalue_t) : Prop :=
  ∃ ch t, text = ch :: t ∧ (ch = 45 ∨ isdigit ch = true) ∧
    ∀ c rest, Behind c → parse_numeric ch (t ++ c :: rest) = .number v c rest

theorem readsAs_number {n : Int} (h : -2147483648 < n) (h' : n < 2147483648) :
    ReadsAs (save_number n) (.T_NUMBER n) := by
  obtain ⟨ch, t, ht, hch, -⟩ := parse_numeric_saved h h' (c := 0) (.inr (.inr rfl)) []
  refine ⟨ch, t, ht, hch, fun c rest hc => ?_⟩
  obtain ⟨ch', t', ht', -, hread⟩ := parse_numeric_saved h h' hc rest
  rw [ht] at ht'
  cases ht'
  exact hread

section

variable (c : config) (sprintf : literal → List UInt8)

/-- A value of the driver, but for what is saved as something else: the least number, a real number
that loses digits, and a carriage return. The keys of a mapping are different, and there is one
array without elements. -/
inductive Savable : svalue_t → Prop
  | number {n : Int} (h : -2147483648 < n) (h' : n < 2147483648) : Savable (.T_NUMBER n)
  | real {real : literal} (h : ReadsAs (sprintf real) (.T_REAL real)) : Savable (.T_REAL real)
  | string {block : Nat} {s : List UInt8} (h0 : 0 ∉ s) (h13 : 13 ∉ s) : Savable (.T_STRING block s)
  | array {block : Nat} {item : List svalue_t} (hitem : ∀ v ∈ item, Savable v)
      (hsize : item.length ≤ c.max_array_size) (hnull : item = [] → block = 0) :
      Savable (.T_ARRAY block item)
  | class_ {block : Nat} {item : List svalue_t} (hitem : ∀ v ∈ item, Savable v) :
      Savable (.T_CLASS block item)
  | mapping {block : Nat} {node : List (svalue_t × svalue_t)} (hkey : ∀ x ∈ node, Savable x.1)
      (hvalue : ∀ x ∈ node, Savable x.2) (hnodup : (node.map fun x => x.1.key).Nodup)
      (hsize : node.length ≤ min c.MAX_MAPPING_SIZE ROOM) : Savable (.T_MAPPING block node)

end

/-- The same value in other blocks. The nodes of a mapping may come in another order. -/
inductive Same : svalue_t → svalue_t → Prop
  | number (n : Int) : Same (.T_NUMBER n) (.T_NUMBER n)
  | real (real : literal) : Same (.T_REAL real) (.T_REAL real)
  | string (block block' : Nat) (s : List UInt8) : Same (.T_STRING block s) (.T_STRING block' s)
  | array {block block' : Nat} {item item' : List svalue_t} (h : List.Forall₂ Same item item') :
      Same (.T_ARRAY block item) (.T_ARRAY block' item')
  | class_ {block block' : Nat} {item item' : List svalue_t} (h : List.Forall₂ Same item item') :
      Same (.T_CLASS block item) (.T_CLASS block' item')
  | mapping {block block' : Nat} {node l node' : List (svalue_t × svalue_t)}
      (hkey : List.Forall₂ Same (node.map Prod.fst) (l.map Prod.fst))
      (hvalue : List.Forall₂ Same (node.map Prod.snd) (l.map Prod.snd)) (hperm : l.Perm node') :
      Same (.T_MAPPING block node) (.T_MAPPING block' node')

mutual

/-- The sizes of a container and of those in it, in the order in which they are opened. -/
def svalue_t.sizes : svalue_t → List Nat
  | .T_ARRAY _ item => item.length :: item_sizes item
  | .T_CLASS _ item => item.length :: item_sizes item
  | .T_MAPPING _ node => 2 * node.length :: node_sizes node
  | .T_NUMBER _ => []
  | .T_REAL _ => []
  | .T_STRING _ _ => []

def item_sizes : List svalue_t → List Nat
  | [] => []
  | v :: item => v.sizes ++ item_sizes item

def node_sizes : List (svalue_t × svalue_t) → List Nat
  | [] => []
  | (key, value) :: node => key.sizes ++ value.sizes ++ node_sizes node

end

/-! ## A text is counted in one way -/

def starts (ch : UInt8) : Nat :=
  if ch = 34 then 0 else if ch = 40 then 1 else if ch = 93 then 2
  else if ch = 47 ∨ ch = 125 then 3 else if ch = 58 ∨ ch = 44 then 4 else 5

theorem starts_delimiter (m index : Bool) : starts (delimiter m index) = 4 := by
  rcases delimiter_eq m index with h | h <;> rw [h] <;> rfl

theorem starts_plain (h : Plain ch) : starts ch = 5 := by
  obtain ⟨-, h34, h40, h93, h47, h125, h58, h44⟩ := h
  simp [starts, h34, h40, h93, h47, h125, h58, h44]

theorem starts_close (h : ch = 47 ∨ ch = 125) : starts ch = 3 := by rcases h with rfl | rfl <;> rfl

theorem starts_ne {ch' : UInt8} {cp' : List UInt8} (h : ch :: cp = ch' :: cp') {k k' : Nat}
    (hk : starts ch = k) (hk' : starts ch' = k') {P : Prop} (hne : k ≠ k' := by decide) : P :=
  (hne (hk.symm.trans ((congrArg starts (List.cons.inj h).1).trans hk'))).elim

theorem Counted.unique {form : Form} {m index : Bool} {rest' : List UInt8} {n' : Nat}
    {l' : List Nat} (h : Counted form m index cp n l rest)
    (h' : Counted form m index cp n' l' rest') : n = n' ∧ l = l' ∧ rest = rest' := by
  induction h generalizing n' l' rest' with
  | @close_mapping index cp =>
    generalize hcp : 93 :: 41 :: cp = cp' at h'
    cases h' with
    | close_mapping =>
      cases hcp
      exact ⟨rfl, rfl, rfl⟩
    | string | container => exact starts_ne hcp rfl rfl
    | nothing => exact starts_ne hcp rfl (starts_delimiter _ _)
    | skipped h => exact starts_ne hcp rfl (starts_plain h)
  | @close_items index ch cp hch =>
    generalize hcp : ch :: 41 :: cp = cp' at h'
    cases h' with
    | close_items =>
      cases hcp
      exact ⟨rfl, rfl, rfl⟩
    | string | container => exact starts_ne hcp (starts_close hch) rfl
    | nothing => exact starts_ne hcp (starts_close hch) (starts_delimiter _ _)
    | skipped h => exact starts_ne hcp (starts_close hch) (starts_plain h)
  | @string m index cp cp₁ rest n l hskip hrest ih =>
    generalize hcp : 34 :: cp = cp' at h'
    cases h' with
    | string hskip' hrest' =>
      cases hcp
      rw [hskip] at hskip'
      cases hskip'
      obtain ⟨rfl, rfl, rfl⟩ := ih hrest'
      exact ⟨rfl, rfl, rfl⟩
    | close_mapping | container => exact starts_ne hcp rfl rfl
    | close_items h => exact starts_ne hcp rfl (starts_close h)
    | nothing => exact starts_ne hcp rfl (starts_delimiter _ _)
    | skipped h => exact starts_ne hcp rfl (starts_plain h)
  | @container m index ch k cp cp₁ rest size n l l₁ hk hinside hrest ih ih' =>
    generalize hcp : 40 :: ch :: cp = cp' at h'
    cases h' with
    | container hk' hinside' hrest' =>
      cases hcp
      rw [hk] at hk'
      cases hk'
      obtain ⟨rfl, rfl, hcp⟩ := ih hinside'
      cases hcp
      obtain ⟨rfl, rfl, rfl⟩ := ih' hrest'
      exact ⟨rfl, rfl, rfl⟩
    | close_mapping | string => exact starts_ne hcp rfl rfl
    | close_items h => exact starts_ne hcp rfl (starts_close h)
    | nothing => exact starts_ne hcp rfl (starts_delimiter _ _)
    | skipped h => exact starts_ne hcp rfl (starts_plain h)
  | @nothing m index cp rest n l hrest ih =>
    generalize hcp : delimiter m index :: cp = cp' at h'
    cases h' with
    | nothing hrest' =>
      cases hcp
      obtain ⟨rfl, rfl, rfl⟩ := ih hrest'
      exact ⟨rfl, rfl, rfl⟩
    | close_mapping | string | container => exact starts_ne hcp (starts_delimiter _ _) rfl
    | close_items h => exact starts_ne hcp (starts_delimiter _ _) (starts_close h)
    | skipped h => exact starts_ne hcp (starts_delimiter _ _) (starts_plain h)
  | @skipped m index ch cp cp₁ rest n l hch hfind hends hrest ih =>
    generalize hcp : ch :: cp = cp' at h'
    cases h' with
    | skipped hch' hfind' hends' hrest' =>
      cases hcp
      rw [hfind] at hfind'
      cases hfind'
      obtain ⟨rfl, rfl, rfl⟩ := ih hrest'
      exact ⟨rfl, rfl, rfl⟩
    | close_mapping | string | container => exact starts_ne hcp (starts_plain hch) rfl
    | close_items h => exact starts_ne hcp (starts_plain hch) (starts_close h)
    | nothing => exact starts_ne hcp (starts_plain hch) (starts_delimiter _ _)

/-! ## The first pass over a saved value -/

variable {c : config} {sprintf : literal → List UInt8}

def CountsAs (sprintf : literal → List UInt8) (v : svalue_t) : Prop :=
  ∀ (m index : Bool) (cp rest : List UInt8) (n : Nat) (l : List Nat), 0 ∈ cp →
    Counted Any m (!index) cp n l rest →
      Counted Any m index (save_svalue sprintf v ++ delimiter m index :: cp) (n + 1) (v.sizes ++ l)
        rest

theorem plain_of_number (h : ch = 45 ∨ isdigit ch = true) : Plain ch := by
  have hne : ∀ x, isdigit x = false → x ≠ 45 → ch ≠ x := by
    rintro x hx h45 rfl
    rcases h with h | h
    · exact h45 h
    · simp [hx] at h
  exact ⟨hne 0 (by decide) (by decide), hne 34 (by decide) (by decide),
    hne 40 (by decide) (by decide), hne 93 (by decide) (by decide), hne 47 (by decide) (by decide),
    hne 125 (by decide) (by decide), hne 58 (by decide) (by decide), hne 44 (by decide) (by decide)⟩

theorem behind_delimiter (m index : Bool) : Behind (delimiter m index) := by
  rcases delimiter_eq m index with h | h
  · exact .inl h
  · exact .inr (.inl h)

theorem counted_number {v : svalue_t} (h : ReadsAs text v) {m index : Bool} (hnul : 0 ∈ cp)
    (hrest : Counted Any m (!index) cp n l rest) :
    Counted Any m index (text ++ delimiter m index :: cp) (n + 1) l rest := by
  obtain ⟨ch, t, rfl, hch, hread⟩ := h
  have hnul' : 0 ∈ t ++ delimiter m index :: cp := by simp [hnul]
  have hstops := (reads_parse_numeric ch hnul').stops v _ cp
    (hread _ cp (behind_delimiter m index)) (delimiter_eq m index)
  exact .skipped (plain_of_number hch) hstops trivial hrest

theorem counted_items (h : ∀ v ∈ item, CountsAs sprintf v) (index : Bool) (hch : ch = 47 ∨ ch = 125)
    (hnul : 0 ∈ cp) :
    Counted Any false index (save_items sprintf item ++ ch :: 41 :: cp) item.length
      (item_sizes item) cp := by
  induction item generalizing index with
  | nil => exact .close_items hch
  | cons v item ih =>
    have hrest := ih (fun w hw => h w (mem_cons_of_mem v hw)) (!index)
    have hcount := h v mem_cons_self false index _ cp _ _ (by simp [hnul]) hrest
    simpa [save_items, item_sizes, delimiter] using hcount

theorem counted_nodes {node : List (svalue_t × svalue_t)} (hkey : ∀ x ∈ node, CountsAs sprintf x.1)
    (hvalue : ∀ x ∈ node, CountsAs sprintf x.2) (hnul : 0 ∈ cp) :
    Counted Any true false (save_nodes sprintf node ++ 93 :: 41 :: cp) (2 * node.length)
      (node_sizes node) cp := by
  induction node with
  | nil => exact .close_mapping (by simp)
  | cons x node ih =>
    obtain ⟨key, value⟩ := x
    have hrest := ih (fun w hw => hkey w (mem_cons_of_mem _ hw))
      fun w hw => hvalue w (mem_cons_of_mem _ hw)
    have hcount := hvalue _ mem_cons_self true true _ cp _ _ (by simp [hnul]) hrest
    have hcount := hkey _ mem_cons_self true false _ cp _ _ (by simp [hnul]) hcount
    simpa [save_nodes, node_sizes, delimiter, Nat.mul_add] using hcount

/-- A value whose numbers and strings are read to their ends, as whatever numbers. -/
inductive Legible (sprintf : literal → List UInt8) : svalue_t → Prop
  | number {v v' : svalue_t} (h : ReadsAs (save_svalue sprintf v) v') (hsizes : v.sizes = []) :
      Legible sprintf v
  | string {block : Nat} {s : List UInt8} (h0 : 0 ∉ s) : Legible sprintf (.T_STRING block s)
  | array {block : Nat} {item : List svalue_t} (hitem : ∀ v ∈ item, Legible sprintf v) :
      Legible sprintf (.T_ARRAY block item)
  | class_ {block : Nat} {item : List svalue_t} (hitem : ∀ v ∈ item, Legible sprintf v) :
      Legible sprintf (.T_CLASS block item)
  | mapping {block : Nat} {node : List (svalue_t × svalue_t)}
      (hkey : ∀ x ∈ node, Legible sprintf x.1) (hvalue : ∀ x ∈ node, Legible sprintf x.2) :
      Legible sprintf (.T_MAPPING block node)

theorem Legible.countsAs {v : svalue_t} (h : Legible sprintf v) : CountsAs sprintf v := by
  induction h with
  | number h hsizes =>
    intro m index cp rest n l hnul hrest
    rw [hsizes]
    exact counted_number h hnul hrest
  | @string block s h0 =>
    intro m index cp rest n l hnul hrest
    have hskip := skip_string_saved h0 (delimiter m index :: cp)
    simpa [save_svalue, svalue_t.sizes] using Counted.string hskip hrest
  | @array block item _ ih =>
    intro m index cp rest n l hnul hrest
    have hinside := counted_items ih false (.inr rfl)
      (mem_cons_of_mem (delimiter m index) hnul)
    simpa [save_svalue, svalue_t.sizes] using
      Counted.container (show kind_of 123 = some .array from rfl) hinside hrest
  | @class_ block item _ ih =>
    intro m index cp rest n l hnul hrest
    have hinside := counted_items ih false (.inl rfl)
      (mem_cons_of_mem (delimiter m index) hnul)
    simpa [save_svalue, svalue_t.sizes] using
      Counted.container (show kind_of 47 = some .class_ from rfl) hinside hrest
  | @mapping block node _ _ ihkey ihvalue =>
    intro m index cp rest n l hnul hrest
    have hinside := counted_nodes ihkey ihvalue (mem_cons_of_mem (delimiter m index) hnul)
    simpa [save_svalue, svalue_t.sizes] using
      Counted.container (show kind_of 91 = some .mapping from rfl) hinside hrest

theorem Legible.head {v : svalue_t} (h : Legible sprintf v) :
    ∃ ch t, save_svalue sprintf v = ch :: t ∧ ch ≠ 93 := by
  cases h with
  | number h =>
    obtain ⟨ch, t, htext, hch, -⟩ := h
    exact ⟨ch, t, htext, (plain_of_number hch).2.2.2.1⟩
  | string => exact ⟨34, _, rfl, by decide⟩
  | array | class_ | mapping => exact ⟨40, _, rfl, by decide⟩

theorem Savable.legible {v : svalue_t} (h : Savable c sprintf v) : Legible sprintf v := by
  induction h with
  | number h h' => exact .number (readsAs_number h h') rfl
  | real h => exact .number h rfl
  | string h0 _ => exact .string h0
  | array _ _ _ ih => exact .array ih
  | class_ _ ih => exact .class_ ih
  | mapping _ _ _ _ ihkey ihvalue => exact .mapping ihkey ihvalue

theorem Savable.countsAs {v : svalue_t} (h : Savable c sprintf v) : CountsAs sprintf v :=
  h.legible.countsAs

/-! ## What is made of a value -/

/-- The same value is made, and as a key it is not one of those that were made before. -/
structure Made (d d' : driver) (v v' : svalue_t) : Prop where
  same : Same v v'
  next_block : d.next_block ≤ d'.next_block
  key : ∀ b, v'.key = .block b → v' = the_null_array ∨ d.next_block ≤ b ∧ b < d'.next_block

def RestoresAs (c : config) (sprintf : literal → List UInt8) (v : svalue_t) : Prop :=
  ∀ (f : Nat) (d : driver) (string_error generic_error : Nat) (sep : UInt8) (rest : List UInt8),
    sep = 58 ∨ sep = 44 → (save_svalue sprintf v ++ sep :: rest).length ≤ f → 0 < d.next_block →
    Entries d v.sizes →
      ∃ v' d', restore_part (restore_container c f) sep string_error generic_error
          (save_svalue sprintf v ++ sep :: rest) d = .value (v', rest) d' ∧
        Passed d d' v.sizes ∧ Made d d' v v'

/-- A container, whose text between the brackets is counted and built. -/
structure Container (c : config) (sprintf : literal → List UInt8) (v : svalue_t) (k : kind)
    (text : List UInt8) (size : Nat) (l : List Nat) : Prop where
  saved : ∃ ch, kind_of ch = some k ∧ save_svalue sprintf v = 40 :: ch :: text
  sizes : v.sizes = size :: l
  counts : ∀ rest, 0 ∈ rest → Counted Any (k = .mapping) false (text ++ rest) size l rest
  builds : ∀ (f : Nat) (d : driver) (rest : List UInt8), (text ++ rest).length ≤ f →
    0 < d.next_block → Entries d l →
      ∃ v' d', build c (restore_container c f) k size (text ++ rest) d =
        .value (some v', rest) d' ∧ Passed d d' l ∧ Made d d' v v'

theorem restore_part_number {v : svalue_t} (h : ReadsAs text v) (nested : Restore)
    (string_error generic_error : Nat) {sep : UInt8} (hsep : sep = 58 ∨ sep = 44)
    (rest : List UInt8) (d : driver) :
    restore_part nested sep string_error generic_error (text ++ sep :: rest) d =
      .value (v, rest) d := by
  obtain ⟨ch, t, rfl, hch, hread⟩ := h
  have hread := hread sep rest (hsep.imp_right .inl)
  have hplain := plain_of_number hch
  have hlexeme : next_lexeme (ch :: t ++ sep :: rest) = .number v rest := by
    simp only [next_lexeme, cons_append, hplain.2.1, hplain.2.2.1, if_false]
    rw [if_pos (by simpa using hch), hread]
  simp only [restore_part, hlexeme]

theorem restore_part_string (h0 : 0 ∉ s) (h13 : 13 ∉ s) (block : Nat) (nested : Restore)
    (string_error generic_error : Nat) (sep : UInt8) (rest : List UInt8) (d : driver) :
    restore_part nested sep string_error generic_error
      (save_svalue sprintf (.T_STRING block s) ++ sep :: rest) d =
        .value (.T_STRING d.next_block s, rest) d.new_block := by
  have hread := restore_interior_string_saved h0 h13 (sep :: rest)
  have hlexeme : next_lexeme (save_svalue sprintf (.T_STRING block s) ++ sep :: rest) =
      .string s rest := by
    simp [save_svalue, next_lexeme, hread]
  simp [restore_part, hlexeme]

theorem restoresAs_number {v : svalue_t} (h : ReadsAs (save_svalue sprintf v) v)
    (hsizes : v.sizes = []) (hsame : Same v v) (hkey : ∀ b, v.key ≠ .block b) :
    RestoresAs c sprintf v := by
  intro f d string_error generic_error sep rest hsep _ _ _
  refine ⟨v, d, restore_part_number h _ string_error generic_error hsep rest d, ?_, hsame,
    Nat.le_refl _, fun b hb => absurd hb (hkey b)⟩
  rw [hsizes]
  exact .refl d

theorem restoresAs_string (h0 : 0 ∉ s) (h13 : 13 ∉ s) :
    RestoresAs c sprintf (.T_STRING block s) := by
  intro f d string_error generic_error sep rest _ _ _ _
  exact ⟨.T_STRING d.next_block s, d.new_block,
    restore_part_string h0 h13 block _ string_error generic_error sep rest d, ⟨rfl, rfl⟩,
    .string block _ s, Nat.le_succ d.next_block, fun b hb => by cases hb⟩

theorem restore_container_nested (f : Nat) (k : kind) (cp : List UInt8)
    (hdepth : d.save_svalue_depth ≠ 0)
    (hsize : size_at d (d.save_svalue_depth - 1) = some (size : Int)) :
    restore_container c (f + 1) k cp d = build c (restore_container c f) k size cp d := by
  have hnext := next_size_of hsize
  rcases k with _ | _ | _
  · simp only [restore_container, restore_array, hdepth, ne_eq, not_false_eq_true, if_true, hnext]
    rfl
  · simp only [restore_container, restore_class, hdepth, ne_eq, not_false_eq_true, if_true, hnext]
    rfl
  · simp only [restore_container, restore_mapping, hdepth, ne_eq, not_false_eq_true, if_true,
      hnext]
    rfl

theorem restore_part_container (hch : kind_of ch = some k) (text : List UInt8)
    (hd : Entries d (size :: l)) (sep : UInt8) (string_error generic_error : Nat) :
    restore_part (restore_container c (f + 1)) sep string_error generic_error (40 :: ch :: text) d =
        (build c (restore_container c f) k size text
          { d with save_svalue_depth := d.save_svalue_depth + 1 }).bind
            (fun r d => .value (r.1.getD const0, r.2.drop 1) d) ∧
      Entries { d with save_svalue_depth := d.save_svalue_depth + 1 } l := by
  have hlexeme : next_lexeme (40 :: ch :: text) = .container k text := by
    simp [next_lexeme, hch]
  have hsize : size_at d d.save_svalue_depth = some (size : Int) := hd 0 size rfl
  have hnested := restore_container_nested (c := c) f k text
    (d := { d with save_svalue_depth := d.save_svalue_depth + 1 }) (Nat.succ_ne_zero _) hsize
  refine ⟨by simp only [restore_part, hlexeme, hnested], fun i x hx => ?_⟩
  have hi := hd (i + 1) x (by simpa using hx)
  rwa [← Nat.add_assoc, Nat.add_right_comm] at hi

theorem Passed.container {d d' : driver} {l : List Nat} (size : Nat)
    (h : Passed { d with save_svalue_depth := d.save_svalue_depth + 1 } d' l) :
    Passed d d' (size :: l) := by
  refine ⟨?_, h.sizes⟩
  rw [h.depth, length_cons, Nat.add_assoc, Nat.add_comm 1]

theorem Container.restoresAs {v : svalue_t} (h : Container c sprintf v k text size l) :
    RestoresAs c sprintf v := by
  intro f d string_error generic_error sep rest hsep hf hblock hd
  obtain ⟨ch, hch, htext⟩ := h.saved
  rw [htext] at hf ⊢
  rw [h.sizes] at hd ⊢
  simp only [cons_append, length_cons] at hf ⊢
  obtain ⟨f, rfl⟩ : ∃ f', f = f' + 1 := ⟨f - 1, by omega⟩
  obtain ⟨hpart, hinside⟩ := restore_part_container (c := c) hch (f := f)
    (text ++ sep :: rest) hd sep string_error generic_error
  obtain ⟨v', d', hbuild, hpassed, hmade⟩ := h.builds f
    { d with save_svalue_depth := d.save_svalue_depth + 1 } (sep :: rest) (by omega) hblock hinside
  refine ⟨v', d', ?_, hpassed.container size, hmade.same, hmade.next_block, hmade.key⟩
  rw [hpart, hbuild]
  rfl

/-! ## Arrays and classes -/

theorem restore_items_saved {todo : List svalue_t} (h : ∀ v ∈ todo, RestoresAs c sprintf v)
    {N : Nat} (e : Nat) (block : List Nat) (item : List svalue_t) (d : driver)
    (hN : item.length + todo.length = N)
    (hf : (save_items sprintf todo ++ ch :: 41 :: rest).length ≤ f) (hblock : 0 < d.next_block)
    (hd : Entries d (item_sizes todo)) :
    ∃ made d', restore_items (restore_container c f) N e block todo.length item
        (save_items sprintf todo ++ ch :: 41 :: rest) d =
          .value (item ++ made, ch :: 41 :: rest) d' ∧
      Passed d d' (item_sizes todo) ∧ List.Forall₂ Same todo made ∧
      d.next_block ≤ d'.next_block := by
  induction todo generalizing item d with
  | nil =>
    refine ⟨[], d, ?_, .refl d, .nil, Nat.le_refl _⟩
    rw [append_nil]
    rfl
  | cons v todo ih =>
    have htext : save_items sprintf (v :: todo) ++ ch :: 41 :: rest =
        save_svalue sprintf v ++ 44 :: (save_items sprintf todo ++ ch :: 41 :: rest) := by
      simp [save_items]
    rw [htext] at hf ⊢
    obtain ⟨v', d₁, hpart, hpassed, hmade⟩ := h v mem_cons_self f d e e 44 _ (.inr rfl) hf
      hblock hd.left
    have hlen : item.length < N := by
      rw [length_cons] at hN
      omega
    obtain ⟨made, d₂, hitems, hpassed', hsame, hle⟩ :=
      ih (fun w hw => h w (mem_cons_of_mem v hw)) (item ++ [v']) d₁
        (by rw [length_append, length_singleton, ← hN, length_cons]; omega)
        (by simp at hf ⊢; omega)
        (Nat.lt_of_lt_of_le hblock hmade.next_block) (hd.right hpassed)
    refine ⟨v' :: made, d₂, ?_, hpassed.trans hpassed', .cons hmade.same hsame,
      Nat.le_trans hmade.next_block hle⟩
    rw [length_cons, restore_items, hpart]
    simp [outcome.handle, hlen, hitems]

theorem container_array (hcount : ∀ v ∈ item, CountsAs sprintf v)
    (h : ∀ v ∈ item, RestoresAs c sprintf v) (hsize : item.length ≤ c.max_array_size) :
    Container c sprintf (.T_ARRAY block item) .array (save_items sprintf item ++ [125, 41])
      item.length (item_sizes item) := by
  have htext : ∀ rest, save_items sprintf item ++ [125, 41] ++ rest =
      save_items sprintf item ++ 125 :: 41 :: rest := fun rest => by simp
  refine ⟨⟨123, rfl, by simp [save_svalue]⟩, rfl, fun rest hnul => ?_,
    fun f d rest hf hblock hd => ?_⟩
  · rw [htext]
    exact counted_items hcount false (.inr rfl) hnul
  rw [htext] at hf ⊢
  have hlimit : ¬ ((item.length : Int) < 0 ∨ (item.length : Int) > c.max_array_size) := by omega
  simp only [build, build_array, hlimit, if_false]
  by_cases hnil : item = []
  · subst hnil
    exact ⟨the_null_array, d, rfl, .refl d, .array .nil, Nat.le_refl _, fun _ _ => .inl rfl⟩
  · have hne : (item.length : Int) ≠ 0 := by
      have hpos := length_pos_iff.mpr hnil
      omega
    obtain ⟨made, d', hitems, hpassed, hsame, hle⟩ := restore_items_saved h (N := item.length)
      ROB_ARRAY_ERROR [d.next_block] [] d.new_block (by simp) hf
      (Nat.succ_pos _) hd
    have hlt : d.next_block < d'.next_block := hle
    refine ⟨.T_ARRAY d.next_block made, d', ?_, ⟨hpassed.depth, hpassed.sizes⟩, .array hsame,
      Nat.le_of_lt hlt, fun b hb => ?_⟩
    · simp only [hne, if_false, Int.toNat_natCast, hitems, outcome.bind, outcome.handle,
        nil_append, drop_succ_cons, drop_zero]
    · cases hb
      exact .inr ⟨Nat.le_refl _, hlt⟩

theorem container_class (hcount : ∀ v ∈ item, CountsAs sprintf v)
    (h : ∀ v ∈ item, RestoresAs c sprintf v) :
    Container c sprintf (.T_CLASS block item) .class_ (save_items sprintf item ++ [47, 41])
      item.length (item_sizes item) := by
  have htext : ∀ rest, save_items sprintf item ++ [47, 41] ++ rest =
      save_items sprintf item ++ 47 :: 41 :: rest := fun rest => by simp
  refine ⟨⟨47, rfl, by simp [save_svalue]⟩, rfl, fun rest hnul => ?_,
    fun f d rest hf hblock hd => ?_⟩
  · rw [htext]
    exact counted_items hcount false (.inl rfl) hnul
  rw [htext] at hf ⊢
  have hneg : ¬ (item.length : Int) < 0 := by omega
  obtain ⟨made, d', hitems, hpassed, hsame, hle⟩ := restore_items_saved h (N := item.length)
    ROB_CLASS_ERROR [d.next_block] [] d.new_block (by simp) hf
    (Nat.succ_pos _) hd
  have hlt : d.next_block < d'.next_block := hle
  refine ⟨.T_CLASS d.next_block made, d', ?_, ⟨hpassed.depth, hpassed.sizes⟩, .class_ hsame,
    Nat.le_of_lt hlt, fun b hb => ?_⟩
  · simp [build, build_class, hneg, hitems, outcome.bind, outcome.handle]
  · cases hb
    exact .inr ⟨Nat.le_refl _, hlt⟩

/-! ## Mappings -/

theorem insert_node_room (h : Fits c m) (hroomy : Roomy 0 m.m)
    (hcount : m.count = m.m.denotes.keys.card) (hlt : m.count < min c.MAX_MAPPING_SIZE ROOM)
    (block : Nat) {key : svalue_t} (hnew : key.key ∉ m.m.denotes) (value : svalue_t) (d : driver) :
    ∃ m' : Building, insert_node c block m key value d = .value m' d ∧ Fits c m' ∧
      Roomy 0 m'.m ∧ m'.count = m.count + 1 ∧
      m'.m.denotes = m.m.denotes.insert key.key (key, value) := by
  obtain ⟨⟨t, mask, i, elt2⟩, hmake, hroom'⟩ := make_room_roomy (s := m) h.wellFormed hroomy h.mask
    (by omega) key.key
  have hroom := make_room_room h.wellFormed h.mask hmake
  have hle : ¬ c.hash key.key &&& m.mask > m.m.table_size := by
    rw [h.mask]
    exact Nat.not_lt.mpr Nat.and_le_right
  have hnone : (m.m.table (c.hash key.key &&& m.mask)).dlookup key.key = none := by
    rw [← mem_denotes h.wellFormed] at hnew
    rw [h.mask]
    exact dlookup_eq_none.mpr hnew
  have hi : ¬ i > t.table_size := by
    have hb := hroom.bucket
    simp only at hb
    rw [hb]
    exact Nat.not_lt.mpr Nat.and_le_right
  obtain ⟨hw, hdenotes⟩ := hroom.put (x := ⟨key.key, key, value⟩) hnew
    (n := { t with table := Function.update t.table i (⟨key.key, key, value⟩ :: elt2) }) rfl rfl
  refine ⟨⟨{ t with table := Function.update t.table i (⟨key.key, key, value⟩ :: elt2) }, mask,
    m.count + 1⟩, ?_, ⟨hw, hroom.mask⟩, hroom.put_roomy hroom' rfl rfl rfl, rfl, hdenotes⟩
  have hlimit : ¬ m.count + 1 > c.MAX_MAPPING_SIZE := by omega
  simp [insert_node, hle, hnone, hmake, hlimit, hi]

def Old (d : driver) (key : svalue_t) : Prop :=
  ∀ b, key.key = .block b → key = the_null_array ∨ 0 < b ∧ b < d.next_block

theorem Old.mono {key : svalue_t} (h : Old d key) (hle : d.next_block ≤ d'.next_block) :
    Old d' key := fun b hb =>
  (h b hb).imp_right fun ⟨hpos, hlt⟩ => ⟨hpos, Nat.lt_of_lt_of_le hlt hle⟩

theorem Made.old {v v' : svalue_t} (h : Made d d' v v') (hblock : 0 < d.next_block) :
    Old d' v' := fun b hb =>
  (h.key b hb).imp_right fun ⟨hle, hlt⟩ => ⟨Nat.lt_of_lt_of_le hblock hle, hlt⟩

theorem key_of_null {v : svalue_t} (h : Savable c sprintf v) (hsame : Same v the_null_array) :
    v.key = .block 0 := by
  cases hsame with
  | array hitem =>
    cases hitem
    cases h with
    | array _ _ hnull => rw [svalue_t.key, hnull rfl]

theorem key_made_ne {k k' k₀ k₀' : svalue_t} (hblock : 0 < d.next_block) (hk : Savable c sprintf k)
    (hk₀ : Savable c sprintf k₀) (hne : k₀.key ≠ k.key) (hmade : Made d d' k k')
    (hsame : Same k₀ k₀') (hold : Old d k₀') : k₀'.key ≠ k'.key := by
  intro heq
  have hblocks : ∀ b, k'.key = .block b → False := by
    intro b hb
    have hb₀ : k₀'.key = .block b := heq.trans hb
    rcases hmade.key b hb with hnull | ⟨hle, hlt⟩ <;> rcases hold b hb₀ with hnull₀ | ⟨hpos₀, hlt₀⟩
    · subst hnull hnull₀
      exact hne ((key_of_null hk₀ hsame).trans (key_of_null hk hmade.same).symm)
    · subst hnull
      cases hb
      omega
    · subst hnull₀
      cases hb₀
      omega
    · omega
  have hmade := hmade.same
  cases hmade with
  | number n =>
    cases hsame with
    | number n₀ => exact hne heq
    | _ => cases heq
  | real real =>
    cases hsame with
    | real real₀ => exact hne heq
    | _ => cases heq
  | string block block' s =>
    cases hsame with
    | string block₀ block₀' s₀ => exact hne heq
    | _ => cases heq
  | array | class_ | mapping => exact hblocks _ rfl

/-- The nodes that were made of those at the start of a mapping, in the loop. -/
structure Built (c : config) (d : driver) (m : Building)
    (done made : List (svalue_t × svalue_t)) : Prop where
  fits : Fits c m
  roomy : Roomy 0 m.m
  count : m.count = done.length
  card : m.m.denotes.keys.card = done.length
  perm : made.Perm m.node
  denotes : ∀ key, key ∈ m.m.denotes ↔ ∃ x ∈ made, x.1.key = key
  keys : List.Forall₂ Same (done.map Prod.fst) (made.map Prod.fst)
  values : List.Forall₂ Same (done.map Prod.snd) (made.map Prod.snd)
  old : ∀ x ∈ made, Old d x.1

theorem exists_of_forall₂ {R : svalue_t → svalue_t → Prop} {l l' : List svalue_t}
    (h : List.Forall₂ R l l') {y : svalue_t} (hy : y ∈ l') : ∃ x ∈ l, R x y := by
  induction h with
  | nil => cases hy
  | cons hxy _ ih =>
    rcases mem_cons.mp hy with rfl | hy
    · exact ⟨_, mem_cons_self, hxy⟩
    · obtain ⟨x, hx, hR⟩ := ih hy
      exact ⟨x, mem_cons_of_mem _ hx, hR⟩

theorem Built.put {d₁ d₂ : driver} {done made : List (svalue_t × svalue_t)}
    {key value key' value' : svalue_t} (h : Built c d m done made)
    (hlt : done.length < min c.MAX_MAPPING_SIZE ROOM) (hblock : 0 < d.next_block)
    (hsavable : ∀ x ∈ done, Savable c sprintf x.1) (hkey : Savable c sprintf key)
    (hnew : key.key ∉ done.map fun x => x.1.key) (hmadekey : Made d d₁ key key')
    (hmadevalue : Made d₁ d₂ value value') (block : Nat) :
    ∃ m' : Building, insert_node c block m key' value' d₂ = .value m' d₂ ∧
      Built c d₂ m' (done ++ [(key, value)]) (made ++ [(key', value')]) := by
  have hne : key'.key ∉ m.m.denotes := by
    rw [h.denotes]
    rintro ⟨y, hy, heq⟩
    obtain ⟨k₀, hk₀, hsame⟩ := exists_of_forall₂ h.keys (mem_map_of_mem hy)
    obtain ⟨x, hx, rfl⟩ := mem_map.mp hk₀
    refine key_made_ne hblock hkey (hsavable x hx) (fun heq => hnew ?_) hmadekey hsame
      (h.old y hy) heq
    exact mem_map.mpr ⟨x, hx, heq⟩
  obtain ⟨m', hinsert, hfits, hroomy, hcount, hdenotes⟩ := insert_node_room h.fits h.roomy
    (h.count.trans h.card.symm) (h.count ▸ hlt) block hne value' d₂
  have hle : d.next_block ≤ d₂.next_block := Nat.le_trans hmadekey.next_block hmadevalue.next_block
  refine ⟨m', hinsert, hfits, hroomy, ?_, ?_, ?_, fun k => ?_, ?_, ?_, fun x hx => ?_⟩
  · rw [hcount, h.count, length_append, length_singleton]
  · rw [hdenotes, card_insert_new hne, h.card, length_append, length_singleton]
  · have hperm := node_insert_new h.fits hfits hne hdenotes
    exact (perm_append_singleton _ _).trans ((h.perm.cons _).trans hperm.symm)
  · rw [hdenotes, Finmap.mem_insert, h.denotes]
    simp only [mem_append, mem_singleton]
    constructor
    · rintro (rfl | ⟨x, hx, hkey⟩)
      · exact ⟨_, .inr rfl, rfl⟩
      · exact ⟨x, .inl hx, hkey⟩
    · rintro ⟨x, hx | rfl, hkey⟩
      · exact .inr ⟨x, hx, hkey⟩
      · exact .inl hkey.symm
  · rw [map_append, map_append]
    exact rel_append h.keys (.cons hmadekey.same .nil)
  · rw [map_append, map_append]
    exact rel_append h.values (.cons hmadevalue.same .nil)
  · rcases mem_append.mp hx with hx | hx
    · exact (h.old x hx).mono hle
    · rw [mem_singleton] at hx
      subst hx
      exact (hmadekey.old hblock).mono hmadevalue.next_block

theorem restore_nodes_saved (block : Nat) (rest : List UInt8) {todo : List (svalue_t × svalue_t)}
    (hkey : ∀ x ∈ todo, RestoresAs c sprintf x.1) (hvalue : ∀ x ∈ todo, RestoresAs c sprintf x.2)
    (done : List (svalue_t × svalue_t)) {made : List (svalue_t × svalue_t)}
    (hsavable : ∀ x ∈ done ++ todo, Savable c sprintf x.1)
    (hnodup : ((done ++ todo).map fun x => x.1.key).Nodup)
    (hsize : (done ++ todo).length ≤ min c.MAX_MAPPING_SIZE ROOM) {k : Nat}
    (hk : (save_nodes sprintf todo ++ 93 :: 41 :: rest).length < k)
    (hf : (save_nodes sprintf todo ++ 93 :: 41 :: rest).length ≤ f) (hblock : 0 < d.next_block)
    (hd : Entries d (node_sizes todo)) (hbuilt : Built c d m done made) :
    ∃ node d', restore_nodes c (restore_container c f) block k m
        (save_nodes sprintf todo ++ 93 :: 41 :: rest) d =
          .value (some (.T_MAPPING block node), rest) d' ∧
      Passed d d' (node_sizes todo) ∧ d.next_block ≤ d'.next_block ∧
      Same (.T_MAPPING block (done ++ todo)) (.T_MAPPING block node) := by
  induction todo generalizing done made m d k with
  | nil =>
    obtain ⟨k, rfl⟩ : ∃ k', k = k' + 1 := ⟨k - 1, by omega⟩
    refine ⟨m.node, d, ?_, .refl d, Nat.le_refl _, ?_⟩
    · simp [restore_nodes, save_nodes]
    · rw [append_nil]
      exact .mapping hbuilt.keys hbuilt.values hbuilt.perm
  | cons x todo ih =>
    obtain ⟨key, value⟩ := x
    obtain ⟨k, rfl⟩ : ∃ k', k = k' + 1 := ⟨k - 1, by omega⟩
    have htext : save_nodes sprintf ((key, value) :: todo) ++ 93 :: 41 :: rest =
        save_svalue sprintf key ++ 58 :: (save_svalue sprintf value ++ 44 ::
          (save_nodes sprintf todo ++ 93 :: 41 :: rest)) := by
      simp [save_nodes]
    rw [htext] at hf hk ⊢
    have hmem : (key, value) ∈ done ++ (key, value) :: todo := by simp
    have hsavkey := hsavable _ hmem
    have hassoc : done ++ (key, value) :: todo = done ++ [(key, value)] ++ todo := by simp
    rw [node_sizes] at hd ⊢
    obtain ⟨key', d₁, hpart, hpassed₁, hmade₁⟩ := hkey _ mem_cons_self f d ROB_STRING_ERROR
      ROB_MAPPING_ERROR 58 _ (.inl rfl) hf hblock hd.left.left
    have hblock₁ := Nat.lt_of_lt_of_le hblock hmade₁.next_block
    have hd₁ := hd.left.right hpassed₁
    obtain ⟨value', d₂, hpart', hpassed₂, hmade₂⟩ := hvalue _ mem_cons_self f d₁
      ROB_STRING_ERROR ROB_MAPPING_ERROR 44 (save_nodes sprintf todo ++ 93 :: 41 :: rest) (.inr rfl)
      (by simp at hf ⊢; omega) hblock₁ hd₁
    have hpassed := hpassed₁.trans hpassed₂
    have hlt : done.length < min c.MAX_MAPPING_SIZE ROOM := by
      rw [length_append, length_cons] at hsize
      omega
    have hnew : key.key ∉ done.map fun x => x.1.key := by
      rw [map_append, map_cons, nodup_append] at hnodup
      exact fun hin => hnodup.2.2 _ hin _ mem_cons_self rfl
    obtain ⟨m', hinsert, hbuilt'⟩ := hbuilt.put hlt hblock
      (fun x hx => hsavable x (mem_append_left _ hx)) hsavkey hnew hmade₁ hmade₂ block
    rw [hassoc] at hsavable hnodup hsize
    obtain ⟨node, d₃, hnodes, hpassed₃, hle, hsame⟩ := ih
      (fun w hw => hkey w (mem_cons_of_mem _ hw))
      (fun w hw => hvalue w (mem_cons_of_mem _ hw)) _ hsavable hnodup hsize (k := k)
      (by simp at hk ⊢; omega)
      (by simp at hf ⊢; omega)
      (Nat.lt_of_lt_of_le hblock₁ hmade₂.next_block) (hd.right hpassed) hbuilt'
    refine ⟨node, d₃, ?_, hpassed.trans hpassed₃,
      Nat.le_trans (Nat.le_trans hmade₁.next_block hmade₂.next_block) hle, ?_⟩
    · obtain ⟨ch, t, hch, h93⟩ := hsavkey.legible.head
      have hhead : (save_svalue sprintf key ++ 58 :: (save_svalue sprintf value ++ 44 ::
          (save_nodes sprintf todo ++ 93 :: 41 :: rest))).head? ≠ some 93 := by
        rw [hch]
        simpa using h93
      rw [restore_nodes, if_neg hhead, hpart]
      simp [outcome.handle, restore_node, hpart', hinsert, outcome.bind, hnodes]
    · rwa [hassoc]

theorem built_nothing (hle : min n c.MAX_MAPPING_SIZE ≤ ROOM) (d : driver) :
    Built c d ⟨allocate_mapping c.MAX_MAPPING_SIZE n,
      (allocate_mapping c.MAX_MAPPING_SIZE n : mapping_t Key (svalue_t × svalue_t)).table_size, 0⟩
      [] [] := by
  obtain ⟨-, hempty⟩ := allocate_mapping_ok c.hash (V := svalue_t × svalue_t) c.MAX_MAPPING_SIZE n
  have htable := (allocate_mapping_empty (K := Key) (V := svalue_t × svalue_t)
    c.MAX_MAPPING_SIZE n).1
  refine ⟨fits_allocate_mapping c n 0, allocate_mapping_roomy_of_le hle, rfl, ?_, ?_, fun key => ?_,
    .nil, .nil, by simp⟩
  · rw [hempty]
    rfl
  · simp [Building.node, mapping.traverse, htable]
  · rw [hempty]
    simp [Finmap.notMem_empty]

theorem container_mapping {node : List (svalue_t × svalue_t)}
    (hsavable : ∀ x ∈ node, Savable c sprintf x.1) (hcount : ∀ x ∈ node, CountsAs sprintf x.1)
    (hcount' : ∀ x ∈ node, CountsAs sprintf x.2) (hkey : ∀ x ∈ node, RestoresAs c sprintf x.1)
    (hvalue : ∀ x ∈ node, RestoresAs c sprintf x.2) (hnodup : (node.map fun x => x.1.key).Nodup)
    (hsize : node.length ≤ min c.MAX_MAPPING_SIZE ROOM) :
    Container c sprintf (.T_MAPPING block node) .mapping (save_nodes sprintf node ++ [93, 41])
      (2 * node.length) (node_sizes node) := by
  have htext : ∀ rest, save_nodes sprintf node ++ [93, 41] ++ rest =
      save_nodes sprintf node ++ 93 :: 41 :: rest := fun rest => by simp
  refine ⟨⟨91, rfl, by simp [save_svalue]⟩, rfl, fun rest hnul => ?_,
    fun f d rest hf hblock hd => ?_⟩
  · rw [htext]
    exact counted_nodes hcount hcount' hnul
  rw [htext] at hf ⊢
  by_cases hnil : node = []
  · subst hnil
    refine ⟨.T_MAPPING d.next_block [], d.new_block, rfl, ⟨rfl, rfl⟩, .mapping .nil .nil (.refl []),
      Nat.le_succ d.next_block, fun b hb => ?_⟩
    cases hb
    exact .inr ⟨Nat.le_refl _, Nat.lt_succ_self d.next_block⟩
  · have hne : ((2 * node.length : Nat) : Int) ≠ 0 := by
      have hpos := length_pos_iff.mpr hnil
      omega
    have hroom : min (((2 * node.length : Nat) : Int) / 2).toNat c.MAX_MAPPING_SIZE ≤ ROOM := by
      omega
    obtain ⟨node', d', hnodes, hpassed, hle, hsame⟩ := restore_nodes_saved (f := f)
      d.next_block rest hkey hvalue [] hsavable hnodup hsize
      (d := d.new_block) (Nat.lt_succ_self _) hf (Nat.succ_pos _) hd
      (built_nothing hroom d.new_block)
    have hlt : d.next_block < d'.next_block := hle
    refine ⟨.T_MAPPING d.next_block node', d', ?_, ⟨hpassed.depth, hpassed.sizes⟩, ?_,
      Nat.le_of_lt hlt, fun b hb => ?_⟩
    · simp only [build, build_mapping, hne, if_false]
      exact hnodes
    · cases hsame with
      | mapping hkeys hvalues hperm => exact .mapping hkeys hvalues hperm
    · cases hb
      exact .inr ⟨Nat.le_refl _, hlt⟩

/-! ## The round trip -/

theorem Savable.restoresAs {v : svalue_t}
    (h : Savable c sprintf v) : RestoresAs c sprintf v := by
  induction h with
  | number h h' =>
    exact restoresAs_number (readsAs_number h h') rfl (.number _) (by simp [svalue_t.key])
  | real h => exact restoresAs_number h rfl (.real _) (by simp [svalue_t.key])
  | string h0 h13 => exact restoresAs_string h0 h13
  | array hitem hsize _ ih =>
    exact (container_array (fun v hv => (hitem v hv).countsAs) ih hsize).restoresAs
  | class_ hitem ih => exact (container_class (fun v hv => (hitem v hv).countsAs) ih).restoresAs
  | mapping hkey hvalue hnodup hsize ihkey ihvalue =>
    exact (container_mapping hkey (fun x hx => (hkey x hx).countsAs)
      (fun x hx => (hvalue x hx).countsAs) ihkey ihvalue hnodup hsize).restoresAs

theorem Savable.cases {v : svalue_t}
    (h : Savable c sprintf v) :
    (ReadsAs (save_svalue sprintf v) v ∧ Same v v) ∨
      (∃ block s, v = .T_STRING block s ∧ 0 ∉ s ∧ 13 ∉ s) ∨
      ∃ k text size l, Container c sprintf v k text size l := by
  cases h with
  | number h h' => exact .inl ⟨readsAs_number h h', .number _⟩
  | real h => exact .inl ⟨h, .real _⟩
  | string h0 h13 => exact .inr (.inl ⟨_, _, rfl, h0, h13⟩)
  | array hitem hsize _ =>
    exact .inr (.inr ⟨_, _, _, _, container_array (fun v hv => (hitem v hv).countsAs)
      (fun v hv => (hitem v hv).restoresAs) hsize⟩)
  | class_ hitem =>
    exact .inr (.inr ⟨_, _, _, _, container_class (fun v hv => (hitem v hv).countsAs)
      fun v hv => (hitem v hv).restoresAs⟩)
  | mapping hkey hvalue hnodup hsize =>
    exact .inr (.inr ⟨_, _, _, _, container_mapping hkey (fun x hx => (hkey x hx).countsAs)
      (fun x hx => (hvalue x hx).countsAs) (fun x hx => (hkey x hx).restoresAs)
      (fun x hx => (hvalue x hx).restoresAs) hnodup hsize⟩)

structure Fresh (d : driver) : Prop where
  table : Table d
  depth : d.save_svalue_depth = 0
  next_block : 0 < d.next_block

theorem fresh_start : Fresh start := ⟨by simp [Table, start], rfl, Nat.one_pos⟩

theorem fresh_reset_sizes (ht : Table d) (hblock : 0 < d.next_block) : Fresh (reset_sizes d) := by
  unfold reset_sizes
  split_ifs with hdepth
  · exact ⟨by simp [Table], rfl, hblock⟩
  · exact ⟨ht, not_ne_iff.mp hdepth, hblock⟩

theorem restore_size_saved (hd : Fresh d) (rest : List UInt8) (hnul : 0 ∈ rest)
    (hcount : Counted Any (k = .mapping) false (text ++ rest) size l rest) :
    ∃ d', restore_size c (k = .mapping) (text ++ rest) d = .value (size : Int) d' ∧ Fresh d' ∧
      Entries d' l := by
  have hnul' : 0 ∈ text ++ rest := mem_append_right _ hnul
  obtain ⟨r, d₁, hr, hc⟩ := size_loop_spec c ((text ++ rest).length + 1) (k = .mapping)
    (text ++ rest) 0 false d hd.table hnul' (Nat.lt_succ_self _)
  obtain ⟨d₂, hr'⟩ := size_loop_of_counted c hcount ((text ++ rest).length + 1) 0 d hd.table hnul'
    (Nat.lt_succ_self _)
  rw [hr] at hr'
  cases hr'
  obtain ⟨-, -, n, l', hn, hcount', hw⟩ := hc.closed _ _ rfl
  obtain ⟨rfl, rfl, -⟩ := hcount.unique hcount'
  refine ⟨{ d₁ with save_svalue_depth := 0 }, ?_, ⟨hc.table, rfl, ?_⟩, fun i x hx => ?_⟩
  · simp only [restore_size, hr, outcome.bind, outcome.handle, Nat.zero_add]
  · simp only [hc.same.next_block]
    exact hd.next_block
  · have hi := hw.written i x hx
    rwa [hd.depth] at hi

theorem restore_svalue_saved {v : svalue_t} (h : Savable c sprintf v) (v₀ : svalue_t) (hd : Fresh d)
    (rest : List UInt8) :
    ∃ v' d', restore_svalue c (save_svalue sprintf v ++ 0 :: rest) v₀ d = .value (0, v') d' ∧
      Same v v' ∧ Fresh d' := by
  rcases h.cases with ⟨⟨ch, t, htext, hch, hread⟩, hsame⟩ | ⟨block, s, rfl, h0, h13⟩ |
    ⟨k, text, size, l, hcontainer⟩
  · have hread := hread 0 rest (.inr (.inr rfl))
    have hplain := plain_of_number hch
    refine ⟨v, d, ?_, hsame, hd⟩
    rw [htext]
    simp only [restore_svalue, cons_append, hplain.2.1, hplain.2.2.1, if_false]
    rw [if_pos (by simpa using hch), hread]
  · have hread := restore_interior_string_saved h0 h13 (0 :: rest)
    refine ⟨.T_STRING d.next_block s, d.new_block, ?_, .string block _ s,
      ⟨hd.table, hd.depth, Nat.succ_pos _⟩⟩
    simp only [save_svalue, cons_append, append_assoc, nil_append, restore_svalue,
      if_true, restore_string, hread]
  · obtain ⟨ch, hch, htext⟩ := hcontainer.saved
    obtain ⟨d₁, hsize, hd₁, hentries⟩ := restore_size_saved hd (0 :: rest)
      mem_cons_self (hcontainer.counts _ mem_cons_self)
    obtain ⟨v', d₂, hbuild, hpassed, hmade⟩ := hcontainer.builds (text ++ 0 :: rest).length d₁
      (0 :: rest) (Nat.le_refl _) hd₁.next_block hentries
    have houtermost := restore_container_outermost c (text ++ 0 :: rest).length k
      (text ++ 0 :: rest) hd.depth
    have hneg : ¬ (size : Int) < 0 := by omega
    rw [hsize] at houtermost
    simp only [outcome.bind, outcome.handle, hneg, if_false, hbuild] at houtermost
    refine ⟨v', reset_sizes d₂, ?_, hmade.same, fresh_reset_sizes ?_ ?_⟩
    · rw [htext]
      simp only [restore_svalue, cons_append, show (40 : UInt8) ≠ 34 by decide, if_false,
        if_true, hch, restore_outermost, houtermost, outcome.handle, outcome.returns, Option.getD_some]
    · have howns := owns_build (c := c) (owns_restore_container c (text ++ 0 :: rest).length) k size
        (text ++ 0 :: rest) d₁
      rw [hbuild] at howns
      exact howns.2.1.table hd₁.table
    · exact Nat.lt_of_lt_of_le hd₁.next_block hmade.next_block

end mudos.saved_values
