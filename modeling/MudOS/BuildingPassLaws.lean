-- The second pass over the text of a container. Where each number ends at its
-- delimiter the two passes agree: the second one stays in the text and in the
-- table, and what it accepts is what a grammar says.
import MudOS.MappingLaws
import MudOS.SizingPassLaws

open mudos.hash_tables mudos.mapping List

namespace mudos.saved_values

variable {cp cp' rest : List UInt8} {d : driver} {l l' : List Nat} {c : config} {m index : Bool}
variable {n size : Nat}

/-! ## Strings and numbers -/

theorem behind_escape_cons (c : UInt8) (cp : List UInt8) :
    behind_escape (c :: cp) =
      if c = 34 then .closed [] cp
      else if c = 92 then
        match cp with
        | [] => .outside
        | c :: cp => if c = 0 then .refused else (behind_escape cp).put c
      else (behind_escape cp).put (if c = 13 then 10 else c) :=
  behind_escape.eq_def (c :: cp)

theorem restore_interior_string_cons (c : UInt8) (cp : List UInt8) :
    restore_interior_string (c :: cp) =
      if c = 34 then .closed [] cp
      else if c = 13 then (restore_interior_string cp).put 10
      else if c = 92 then
        match cp with
        | [] => .outside
        | c :: cp => if c = 0 then .refused else (behind_escape cp).put c
      else if c = 0 then .refused
      else (restore_interior_string cp).put c :=
  restore_interior_string.eq_def (c :: cp)

theorem behind_escape_of_skip (h : skip_string cp = .found cp') :
    ∃ s, behind_escape cp = .closed s cp' := by
  fun_induction skip_string cp with
  | case1 => cases h
  | case2 cp =>
    cases h
    exact ⟨[], by simp [behind_escape_cons]⟩
  | case3 => cases h
  | case4 => cases h
  | case5 => cases h
  | case6 c cp hc _ _ ih =>
    obtain ⟨s, hs⟩ := ih h
    exact ⟨c :: s, by simp [behind_escape_cons, hc, hs, string_end.put]⟩
  | case7 c cp h34 h0 h92 ih =>
    obtain ⟨s, hs⟩ := ih h
    exact ⟨(if c = 13 then 10 else c) :: s, by
      simp [behind_escape_cons, h34, h92, hs, string_end.put]⟩

theorem restore_interior_string_of_skip (h : skip_string cp = .found cp') :
    ∃ s, restore_interior_string cp = .closed s cp' := by
  fun_induction skip_string cp with
  | case1 => cases h
  | case2 cp =>
    cases h
    exact ⟨[], by simp [restore_interior_string_cons]⟩
  | case3 => cases h
  | case4 => cases h
  | case5 => cases h
  | case6 c cp hc _ _ ih =>
    obtain ⟨s, hs⟩ := behind_escape_of_skip h
    exact ⟨c :: s, by simp [restore_interior_string_cons, hc, hs, string_end.put]⟩
  | case7 c cp h34 h0 h92 ih =>
    obtain ⟨s, hs⟩ := ih h
    by_cases h13 : c = 13
    · exact ⟨10 :: s, by simp [restore_interior_string_cons, h13, hs, string_end.put]⟩
    · exact ⟨c :: s, by simp [restore_interior_string_cons, h34, h13, h92, h0, hs, string_end.put]⟩

theorem strchr_cons {delim c : UInt8} (cp : List UInt8) (hc : c ≠ delim) (h0 : c ≠ 0) :
    strchr delim (c :: cp) = strchr delim cp := by simp [strchr, hc, h0]

theorem strchr_self (delim : UInt8) (cp : List UInt8) : strchr delim (delim :: cp) = .found cp := by
  simp [strchr]

theorem digits_spec (res : Int) (cp : List UInt8) :
    (0 ∈ cp → 0 ∈ (digits res cp).2) ∧
      ∀ delim, isdigit delim = false → strchr delim cp = strchr delim (digits res cp).2 := by
  fun_induction digits res cp with
  | case1 => simp
  | case2 res c cp hc ih =>
    have h0 : c ≠ 0 := by
      rintro rfl
      exact absurd hc (by decide)
    refine ⟨fun h => ih.1 (nul_tail h h0), fun delim hd => ?_⟩
    rw [← ih.2 delim hd]
    apply strchr_cons cp _ h0
    rintro rfl
    simp [hd] at hc
  | case3 => simp

theorem fraction_spec (cp : List UInt8) :
    (0 ∈ cp → 0 ∈ (fraction cp).2) ∧
      ∀ delim, isdigit delim = false → strchr delim cp = strchr delim (fraction cp).2 := by
  unfold fraction
  induction cp with
  | nil => simp
  | cons c cp ih =>
    rcases hc : isdigit c with _ | _
    · simp [hc]
    · have h0 : c ≠ 0 := by
        rintro rfl
        exact absurd hc (by decide)
      simp only [dropWhile_cons, hc, if_true]
      refine ⟨fun h => ih.1 (nul_tail h h0), fun delim hd => ?_⟩
      rw [← ih.2 delim hd]
      apply strchr_cons cp _ h0
      rintro rfl
      simp [hd] at hc

/-- A number is read in the text, up to a character that is not of a number. If this is the
delimiter, it is the next one. -/
structure Reads (cp : List UInt8) (r : numeric) : Prop where
  inside : r ≠ .outside
  stops : ∀ v delim cp', r = .number v delim cp' → delim = 58 ∨ delim = 44 →
    strchr delim cp = .found cp'

theorem Reads.refused (cp : List UInt8) : Reads cp .refused := ⟨by simp, by simp⟩

theorem isdigit_delimiter {delim : UInt8} (h : delim = 58 ∨ delim = 44) : isdigit delim = false := by
  rcases h with rfl | rfl <;> decide

theorem Reads.behind {r : numeric} (h : Reads cp' r)
    (hcp : ∀ delim, delim = 58 ∨ delim = 44 → strchr delim cp = strchr delim cp') : Reads cp r :=
  ⟨h.inside, fun v delim rest hr hd => (hcp delim hd).trans (h.stops v delim rest hr hd)⟩

theorem Reads.last (v : svalue_t) (c : UInt8) (cp : List UInt8) :
    Reads (c :: cp) (.number v c cp) := by
  refine ⟨by simp, fun v' delim cp' heq _ => ?_⟩
  cases heq
  exact strchr_self c cp

theorem strchr_of_not_delimiter {c : UInt8} (cp : List UInt8) (h0 : c ≠ 0) (h58 : c ≠ 58)
    (h44 : c ≠ 44) (delim : UInt8) (hd : delim = 58 ∨ delim = 44) :
    strchr delim (c :: cp) = strchr delim cp := by
  apply strchr_cons cp _ h0
  rcases hd with rfl | rfl
  · exact h58
  · exact h44

theorem reads_exponent (real : Int → literal) (h : 0 ∈ cp) : Reads cp (exponent real cp) := by
  unfold exponent
  rcases cp with _ | ⟨c, cp⟩
  · simp at h
  by_cases hc : c = 43 ∨ c = 45
  · have hne : c ≠ 0 ∧ c ≠ 58 ∧ c ≠ 44 := by rcases hc with rfl | rfl <;> decide
    obtain ⟨hnul, hskip⟩ := digits_spec 0 cp
    have hnul := hnul (nul_tail h hne.1)
    simp only [hc, if_true]
    rcases hdig : digits 0 cp with ⟨expo, _ | ⟨c', cp'⟩⟩
    · rw [hdig] at hnul
      simp at hnul
    · rw [hdig] at hskip
      apply (Reads.last _ c' cp').behind
      intro delim hd
      rw [strchr_of_not_delimiter cp hne.1 hne.2.1 hne.2.2 delim hd,
        hskip delim (isdigit_delimiter hd)]
  · simp only [hc, if_false]
    exact .refused _

theorem reads_parse_digits (neg : Bool) (c : UInt8) (h : 0 ∈ cp) :
    Reads cp (parse_digits neg c cp) := by
  unfold parse_digits
  obtain ⟨hnul, hskip⟩ := digits_spec (c.toNat - 48) cp
  have hnul := hnul h
  rcases hdig : digits (c.toNat - 48) cp with ⟨res, _ | ⟨c', cp'⟩⟩
  · rw [hdig] at hnul
    simp at hnul
  rw [hdig] at hnul hskip
  have hbehind : ∀ {r}, Reads (c' :: cp') r → Reads cp r := fun hr =>
    hr.behind fun delim hd => hskip delim (isdigit_delimiter hd)
  apply hbehind
  by_cases h46 : c' = 46
  · subst h46
    have hnul := nul_tail hnul (by decide)
    rcases cp' with _ | ⟨c', cp'⟩
    · simp at hnul
    simp only [if_true]
    by_cases hd : isdigit c' = true
    · simp only [hd, if_true]
      obtain ⟨hfrac, hskip⟩ := fraction_spec (c' :: cp')
      have hfrac := hfrac hnul
      rcases hf : fraction (c' :: cp') with ⟨f1, _ | ⟨c'', cp''⟩⟩
      · rw [hf] at hfrac
        simp at hfrac
      rw [hf] at hfrac hskip
      have hbehind : ∀ {r}, Reads (c'' :: cp'') r → Reads (46 :: c' :: cp') r := fun hr =>
        hr.behind fun delim hd => by
          rw [strchr_of_not_delimiter _ (by decide) (by decide) (by decide) delim hd,
            hskip delim (isdigit_delimiter hd)]
      apply hbehind
      by_cases he : c'' = 101
      · subst he
        simp only [if_true]
        apply (reads_exponent _ (nul_tail hfrac (by decide))).behind
        exact strchr_of_not_delimiter _ (by decide) (by decide) (by decide)
      · simp only [he, if_false]
        exact .last _ c'' cp''
    · simp only [hd]
      exact .refused _
  simp only [h46, if_false]
  by_cases he : c' = 101
  · subst he
    simp only [if_true]
    apply (reads_exponent _ (nul_tail hnul (by decide))).behind
    exact strchr_of_not_delimiter _ (by decide) (by decide) (by decide)
  · simp only [he, if_false]
    exact .last _ c' cp'

theorem reads_parse_numeric (c : UInt8) (h : 0 ∈ cp) : Reads cp (parse_numeric c cp) := by
  unfold parse_numeric
  by_cases h45 : c = 45
  · simp only [h45, if_true]
    rcases cp with _ | ⟨c', cp⟩
    · simp at h
    by_cases hd : isdigit c' = true
    · have h0 : c' ≠ 0 := by
        rintro rfl
        exact absurd hd (by decide)
      simp only [hd, if_true]
      apply (reads_parse_digits true c' (nul_tail h h0)).behind
      intro delim hdelim
      apply strchr_cons cp _ h0
      rintro rfl
      simp [isdigit_delimiter hdelim] at hd
    · simp only [hd]
      exact .refused _
  · simp only [h45, if_false]
    exact reads_parse_digits false c h

/-! ## Outcomes -/

variable {α β : Type}

/-- A value has the property. There is no fault, unless a block is freed twice. -/
def outcome.Gives (P : α → driver → Prop) : outcome α → Prop
  | .value a d => P a d
  | .rob _ _ => True
  | .error _ => True
  | .fault f => f = .twice_freed

theorem outcome.Gives.handle {P : α → driver → Prop} {Q : β → driver → Prop} {o : outcome α}
    {failed : Nat → driver → outcome β} {next : α → driver → outcome β} (h : o.Gives P)
    (hfailed : ∀ code d, (failed code d).Gives Q) (hnext : ∀ a d, P a d → (next a d).Gives Q) :
    (o.handle failed next).Gives Q := by
  rcases o with ⟨a, d⟩ | ⟨code, d⟩ | _ | _
  · exact hnext a d h
  · exact hfailed code d
  · trivial
  · exact h

theorem outcome.Gives.bind {P : α → driver → Prop} {Q : β → driver → Prop} {o : outcome α}
    {next : α → driver → outcome β} (h : o.Gives P) (hnext : ∀ a d, P a d → (next a d).Gives Q) :
    (o.bind next).Gives Q := h.handle (fun _ _ => trivial) hnext

theorem outcome.Gives.mono {P Q : α → driver → Prop} {o : outcome α} (h : o.Gives P)
    (hmono : ∀ a d, P a d → Q a d) : o.Gives Q := by
  rcases o with ⟨a, d⟩ | _ | _ | _
  · exact hmono a d h
  · trivial
  · trivial
  · exact h

structure Passed (d d' : driver) (l : List Nat) : Prop where
  depth : d'.save_svalue_depth = d.save_svalue_depth + l.length
  sizes : d'.sizes = d.sizes

theorem Passed.refl (d : driver) : Passed d d [] := ⟨rfl, rfl⟩

theorem Passed.trans {d' d'' : driver} (h : Passed d d' l) (h' : Passed d' d'' l') :
    Passed d d'' (l ++ l') := by
  refine ⟨?_, h'.sizes.trans h.sizes⟩
  rw [h'.depth, h.depth, length_append, Nat.add_assoc]

theorem gives_free_blocks (l : List Nat) (d : driver) :
    (free_blocks l d).Gives fun _ d' => Passed d d' [] := by
  induction l generalizing d with
  | nil => exact .refl d
  | cons block l ih =>
    unfold free_blocks
    split
    · exact (ih _).mono fun _ d' hd' => ⟨hd'.depth, hd'.sizes⟩
    · exact rfl

theorem gives_give_up {P : α → driver → Prop} (l : List Nat) (code : Nat) (d : driver) :
    (give_up l code d : outcome α).Gives P :=
  (gives_free_blocks l d).bind fun _ _ _ => trivial

/-! ## Nodes -/

structure Fits (c : config) (m : Building) : Prop where
  wellFormed : WellFormed c.hash m.m
  mask : m.mask = m.m.table_size

theorem fits_allocate_mapping (c : config) (n count : Nat) :
    Fits c ⟨allocate_mapping c.MAX_MAPPING_SIZE n,
      (allocate_mapping c.MAX_MAPPING_SIZE n : mapping_t Key (svalue_t × svalue_t)).table_size,
      count⟩ := ⟨allocate_mapping_wellFormed _ _, rfl⟩

theorem insert_node_cases {m : Building} (h : Fits c m) (block : Nat) (key value : svalue_t)
    (d : driver) :
    (∃ elt, m.m.denotes.lookup key.key = some elt ∧ insert_node c block m key value d =
      (free_blocks (key.blocks ++ elt.2.blocks) d).bind fun _ d =>
        .value ⟨assign m.m (c.hash key.key &&& m.m.table_size) key.key (elt.1, value),
          m.mask, m.count⟩ d) ∨
    (key.key ∉ m.m.denotes ∧
      ((∃ m' : Building, insert_node c block m key value d = .value m' d ∧ Fits c m' ∧
        m'.m.denotes = m.m.denotes.insert key.key (key, value)) ∨
      insert_node c block m key value d =
        (free_blocks (block :: node_blocks m.node ++ key.blocks ++ value.blocks) d).bind
          fun _ d => .error d)) := by
  have hle : ¬ c.hash key.key &&& m.m.table_size > m.m.table_size :=
    Nat.not_lt.mpr Nat.and_le_right
  unfold insert_node
  simp only [h.mask, hle, if_false]
  rcases hlookup : (m.m.table (c.hash key.key &&& m.m.table_size)).dlookup key.key with _ | elt
  · right
    have hnew : key.key ∉ m.m.denotes := by
      rw [← mem_denotes h.wellFormed]
      exact dlookup_eq_none.mp hlookup
    refine ⟨hnew, ?_⟩
    simp only
    rcases hroom : make_room c.hash m (c.hash key.key) (c.hash key.key &&& m.m.table_size) with
      _ | ⟨t, mask, i, elt2⟩
    · exact .inr rfl
    rw [← h.mask] at hroom
    have hr := make_room_room h.wellFormed h.mask hroom
    simp only
    split
    · exact .inr rfl
    · have hi : ¬ i > t.table_size := by
        have hb := hr.bucket
        simp only at hb
        rw [hb]
        exact Nat.not_lt.mpr Nat.and_le_right
      simp only [hi, if_false]
      obtain ⟨hw, hdenotes⟩ := hr.put (x := ⟨key.key, key, value⟩) hnew
        (n := { t with table := Function.update t.table i (⟨key.key, key, value⟩ :: elt2) }) rfl rfl
      exact .inl ⟨_, rfl, ⟨hw, hr.mask⟩, hdenotes⟩
  · left
    refine ⟨elt, ?_, rfl⟩
    unfold mapping_t.denotes
    rw [lookup_contents h.wellFormed.hashed, hlookup]

theorem fits_assign {m : Building} (h : Fits c m) {key : Key} {elt : svalue_t × svalue_t}
    (helt : m.m.denotes.lookup key = some elt) (v : svalue_t × svalue_t) :
    Fits c ⟨assign m.m (c.hash key &&& m.m.table_size) key v, m.mask, m.count⟩ ∧
      (assign m.m (c.hash key &&& m.m.table_size) key v).denotes = m.m.denotes.insert key v := by
  have hmem : key ∈ m.m.denotes := Finmap.mem_iff.mpr ⟨elt, helt⟩
  obtain ⟨hw, hdenotes⟩ := overwrite_wellFormed h.wellFormed v hmem
  exact ⟨⟨hw, h.mask⟩, hdenotes⟩

theorem gives_insert_node {m : Building} (h : Fits c m) (block : Nat) (key value : svalue_t)
    (d : driver) :
    (insert_node c block m key value d).Gives fun m' d' => Fits c m' ∧ Passed d d' [] := by
  rcases insert_node_cases h block key value d with ⟨elt, helt, hi⟩ | ⟨-, ⟨m', hi, hm', -⟩ | hi⟩
  · rw [hi]
    exact (gives_free_blocks _ d).bind fun _ d' hd' => ⟨(fits_assign h helt _).1, hd'⟩
  · rw [hi]
    exact ⟨hm', .refl d⟩
  · rw [hi]
    exact (gives_free_blocks _ d).bind fun _ _ _ => trivial

/-! ## The two passes agree -/

def NumberEnds (delim ch : UInt8) (cp : List UInt8) : Prop :=
  ∀ v c cp', ch = 45 ∨ isdigit ch = true → parse_numeric ch cp = .number v c cp' → c = delim

def IsNumber (delim ch : UInt8) (cp : List UInt8) : Prop :=
  (ch = 45 ∨ isdigit ch = true) ∧ ∃ v cp', parse_numeric ch cp = .number v delim cp'

/-- What the second pass needs of a text, to come to the same places as the first. -/
abbrev Separated : Form := ⟨NumberEnds, True⟩

abbrev Accepted : Form := ⟨IsNumber, False⟩

def Entries (d : driver) (l : List Nat) : Prop :=
  ∀ (i x : Nat), l[i]? = some x → size_at d (d.save_svalue_depth + i) = some (x : Int)

theorem Entries.left (h : Entries d (l ++ l')) : Entries d l :=
  fun i x hx => h i x (by
    rw [getElem?_append_left (List.getElem?_eq_some_iff.mp hx).1]
    exact hx)

theorem Entries.right {d' : driver} (h : Entries d (l ++ l')) (hd : Passed d d' l) :
    Entries d' l' := by
  intro i x hx
  have hi := h (l.length + i) x (by
    rw [getElem?_append_right (Nat.le_add_right _ _), Nat.add_sub_cancel_left]
    exact hx)
  rwa [size_at, hd.sizes, hd.depth, Nat.add_assoc]

theorem Counted.left {form : Form} (h : Counted form m index cp n l rest) (hnul : 0 ∈ cp) :
    0 ∈ rest ∧ rest.length < cp.length := by
  induction h with
  | close_mapping =>
    exact ⟨nul_tail (nul_tail hnul (by decide)) (by decide), Nat.lt_succ_of_lt (Nat.lt_succ_self _)⟩
  | @close_items index ch cp h =>
    have h0 : ch ≠ 0 := by rcases h with rfl | rfl <;> decide
    exact ⟨nul_tail (nul_tail hnul h0) (by decide), Nat.lt_succ_of_lt (Nat.lt_succ_self _)⟩
  | @string m index cp cp' rest n l h _ ih =>
    obtain ⟨hcp, hlt⟩ := (stops_skip_string cp (nul_tail hnul (by decide))).left _ h
    obtain ⟨hrest, hlt'⟩ := ih (nul_tail hcp (delimiter_ne_zero m index))
    simp only [length_cons] at hlt ⊢
    exact ⟨hrest, by omega⟩
  | @container m index ch k cp cp' rest size n l l' hk _ _ ih ih' =>
    have hch : ch ≠ 0 := by
      rintro rfl
      simp [kind_of] at hk
    obtain ⟨hcp, hlt⟩ := ih (nul_tail (nul_tail hnul (by decide)) hch)
    obtain ⟨hrest, hlt'⟩ := ih' (nul_tail hcp (delimiter_ne_zero m index))
    simp only [length_cons] at hlt ⊢
    exact ⟨hrest, by omega⟩
  | @nothing m index cp rest n l _ ih =>
    obtain ⟨hrest, hlt⟩ := ih (nul_tail hnul (delimiter_ne_zero m index))
    exact ⟨hrest, by simp only [length_cons]; omega⟩
  | @skipped m index ch cp cp' rest n l hch h _ _ ih =>
    obtain ⟨hcp, hlt⟩ := (stops_strchr (delimiter_ne_zero m index) cp (nul_tail hnul hch.1)).left _ h
    obtain ⟨hrest, hlt'⟩ := ih hcp
    exact ⟨hrest, by simp only [length_cons]; omega⟩

/-- The second pass comes to the end of the container where the first did. -/
structure Agrees (c : config) (m index : Bool) (cp : List UInt8) (n : Nat) (l : List Nat)
    (rest : List UInt8) : Prop where
  items : m = false → ∀ f d N e block item, cp.length ≤ f → Entries d l → item.length + n = N →
    (restore_items (restore_container c f) N e block n item cp d).Gives fun a d' =>
      a.2.drop 2 = rest ∧ a.1.length = N ∧ Passed d d' l ∧ Counted Accepted m index cp n l rest
  nodes : m = true → index = false → ∀ f k d block b, cp.length ≤ f → cp.length < k →
    Entries d l → Fits c b →
    (restore_nodes c (restore_container c f) block k b cp d).Gives fun a d' =>
      a.2 = rest ∧ Passed d d' l ∧ Counted Accepted m index cp n l rest
  node : m = true → index = true → ∀ f k d block b key, cp.length ≤ f → cp.length ≤ k →
    Entries d l → Fits c b →
    (restore_node c (restore_container c f) block b key
      (restore_nodes c (restore_container c f) block k) cp d).Gives fun a d' =>
        a.2 = rest ∧ Passed d d' l ∧ Counted Accepted m index cp n l rest

/-- An element that is read up to the next one, where it has the form that it should have. -/
def Part (c : config) (m index : Bool) (cp : List UInt8) (l : List Nat) (cp' : List UInt8)
    (form : Prop) : Prop :=
  ∀ f d string_error generic_error, cp.length ≤ f → Entries d l →
    (restore_part (restore_container c f) (delimiter m index) string_error generic_error cp
      d).Gives fun a d' => a.2 = cp' ∧ Passed d d' l ∧ form

theorem Part.agrees {form : Prop} (h : Part c m index cp l cp' form) (hhead : cp.head? ≠ some 93)
    (hlt : cp'.length < cp.length) (hform : form → Counted Accepted m (!index) cp' n l' rest →
      Counted Accepted m index cp (n + 1) (l ++ l') rest)
    (hrest : Agrees c m (!index) cp' n l' rest) : Agrees c m index cp (n + 1) (l ++ l') rest := by
  refine ⟨fun hm f d N e block item hf hd hN => ?_, fun hm hi f k d block b hf hk hd hb => ?_,
    fun hm hi f k d block b key hf hk hd hb => ?_⟩
  · subst hm
    unfold restore_items
    apply (h f d e e hf hd.left).handle fun code d => gives_give_up _ code d
    rintro ⟨v, cp₁⟩ d₁ ⟨rfl, hpassed, hcp⟩
    have hlen : item.length < N := by omega
    simp only [hlen, if_true]
    apply (hrest.items rfl f d₁ N e block (item ++ [v]) (by omega) (hd.right hpassed)
      (by rw [length_append, length_singleton]; omega)).mono
    rintro a d₂ ⟨hrest, hlen, hpassed', hcount⟩
    exact ⟨hrest, hlen, hpassed.trans hpassed', hform hcp hcount⟩
  · subst hm hi
    obtain ⟨k, rfl⟩ : ∃ k', k = k' + 1 := ⟨k - 1, by omega⟩
    unfold restore_nodes
    simp only [hhead, if_false]
    apply (h f d _ _ hf hd.left).handle fun code d => gives_give_up _ code d
    rintro ⟨key, cp₁⟩ d₁ ⟨rfl, hpassed, hcp⟩
    apply (hrest.node rfl rfl f k d₁ block b key (by omega) (by omega) (hd.right hpassed) hb).mono
    rintro a d₂ ⟨hrest, hpassed', hcount⟩
    exact ⟨hrest, hpassed.trans hpassed', hform hcp hcount⟩
  · subst hm hi
    unfold restore_node
    apply (h f d _ _ hf hd.left).handle fun code d => gives_give_up _ code d
    rintro ⟨value, cp₁⟩ d₁ ⟨rfl, hpassed, hcp⟩
    apply (gives_insert_node hb block key value d₁).bind
    rintro b' d₂ ⟨hb', hpassed₂⟩
    have hpassed' : Passed d d₂ l := by
      have := hpassed.trans hpassed₂
      rwa [append_nil] at this
    apply (hrest.nodes rfl rfl f k d₂ block b' (by omega) (by omega) (hd.right hpassed') hb').mono
    rintro a d₃ ⟨hrest, hpassed₃, hcount⟩
    exact ⟨hrest, hpassed'.trans hpassed₃, hform hcp hcount⟩

theorem next_size_of (h : size_at d (d.save_svalue_depth - 1) = some (size : Int)) :
    next_size d = .value (size : Int) d := by
  unfold next_size
  obtain ⟨sizes, hs, hsize⟩ := Option.bind_eq_some_iff.mp h
  simp [hs, hsize]

def build (c : config) (nested : Restore) (k : kind) (size : Int) (cp : List UInt8) (d : driver) :
    outcome (Option svalue_t × List UInt8) :=
  match k with
  | .array => build_array c nested size cp d
  | .class_ => build_class nested size cp d
  | .mapping => build_mapping c nested size cp d

theorem Agrees.build {k : kind} (h : Agrees c (k = .mapping) false cp size l rest)
    (hcount : Counted Separated (k = .mapping) false cp size l rest) {f : Nat} (hf : cp.length ≤ f)
    (hd : Entries d l) :
    (saved_values.build c (restore_container c f) k size cp d).Gives fun a d' =>
      a.2 = rest ∧ Passed d d' l ∧ Counted Accepted (k = .mapping) false cp size l rest := by
  have hnew : Entries d.new_block l := hd
  rcases k with _ | _ | _
  · simp only [saved_values.build, build_array]
    split_ifs with hlimit hzero
    · trivial
    · have hz : size = 0 := by omega
      subst hz
      obtain ⟨hdrop, -, hpassed, hform⟩ :=
        h.items rfl f d 0 0 [] [] hf hd rfl
      exact ⟨hdrop, hpassed, hform⟩
    · apply (h.items rfl f d.new_block size ROB_ARRAY_ERROR [d.next_block] [] hf hnew
        (Nat.zero_add _)).bind
      rintro a d' ⟨hdrop, -, hpassed, hform⟩
      exact ⟨hdrop, ⟨hpassed.depth, hpassed.sizes⟩, hform⟩
  · have hneg : ¬ (size : Int) < 0 := by omega
    simp only [saved_values.build, build_class, hneg, if_false]
    apply (h.items rfl f d.new_block size ROB_CLASS_ERROR [d.next_block] [] hf hnew
      (Nat.zero_add _)).bind
    rintro a d' ⟨hdrop, -, hpassed, hform⟩
    exact ⟨hdrop, ⟨hpassed.depth, hpassed.sizes⟩, hform⟩
  · simp only [saved_values.build, build_mapping]
    split_ifs with hzero
    · have hz : size = 0 := by omega
      subst hz
      cases hcount
      exact ⟨rfl, ⟨rfl, rfl⟩, .close_mapping (by simp)⟩
    · apply (h.nodes rfl rfl f _ d.new_block _ _ hf (Nat.lt_succ_self _) hnew
        (fits_allocate_mapping c _ 0)).mono
      rintro a d' ⟨hrest, hpassed, hform⟩
      exact ⟨hrest, ⟨hpassed.depth, hpassed.sizes⟩, hform⟩

theorem Agrees.container {c : config} {k : kind} {cp rest : List UInt8} {size : Nat}
    {l : List Nat} (h : Agrees c (k = .mapping) false cp size l rest)
    (hcount : Counted Separated (k = .mapping) false cp size l rest) {f : Nat}
    (hf : cp.length < f) {d : driver} (hdepth : d.save_svalue_depth ≠ 0)
    (hsize : size_at d (d.save_svalue_depth - 1) = some (size : Int)) (hd : Entries d l) :
    (restore_container c f k cp d).Gives fun a d' =>
      a.2 = rest ∧ Passed d d' l ∧ Counted Accepted (k = .mapping) false cp size l rest := by
  obtain ⟨f, rfl⟩ : ∃ f', f = f' + 1 := ⟨f - 1, by omega⟩
  have hbuild := h.build hcount (Nat.le_of_lt_succ hf) hd
  have hnext := next_size_of hsize
  rcases k with _ | _ | _
  · simp only [restore_container, restore_array, hdepth, ne_eq, not_false_eq_true, if_true, hnext]
    exact hbuild
  · simp only [restore_container, restore_class, hdepth, ne_eq, not_false_eq_true, if_true, hnext]
    exact hbuild
  · simp only [restore_container, restore_mapping, hdepth, ne_eq, not_false_eq_true, if_true,
      hnext]
    exact hbuild

theorem part_string (c : config) (h : skip_string cp = .found (delimiter m index :: cp')) :
    Part c m index (34 :: cp) [] cp' True := by
  intro f d string_error generic_error _ _
  obtain ⟨s, hs⟩ := restore_interior_string_of_skip h
  simp only [restore_part, next_lexeme, if_true, hs, drop_succ_cons, drop_zero]
  exact ⟨rfl, ⟨rfl, rfl⟩, trivial⟩

theorem part_nothing (c : config) : Part c m index (delimiter m index :: cp) [] cp True := by
  intro f d string_error generic_error _ _
  have hother : next_lexeme (delimiter m index :: cp) = .other (delimiter m index) cp := by
    rcases delimiter_eq m index with h | h <;> rw [h] <;> rfl
  simp only [restore_part, hother, if_true]
  exact ⟨rfl, .refl d, trivial⟩

theorem part_skipped (c : config) {ch : UInt8} (hch : Plain ch)
    (h : strchr (delimiter m index) cp = .found cp') (hends : NumberEnds (delimiter m index) ch cp)
    (hnul : 0 ∈ cp) : Part c m index (ch :: cp) [] cp' (IsNumber (delimiter m index) ch cp) := by
  intro f d string_error generic_error _ _
  obtain ⟨-, h34, h40, -, -, -, h58, h44⟩ := hch
  unfold restore_part next_lexeme
  simp only [h34, h40, if_false]
  by_cases hnum : (ch = 45 || isdigit ch) = true
  · have hnum' : ch = 45 ∨ isdigit ch = true := by simpa using hnum
    have hreads := reads_parse_numeric ch hnul
    simp only [hnum, if_true]
    rcases hp : parse_numeric ch cp with ⟨v, delim, cp''⟩ | _ | _
    · have hdelim := hends v delim cp'' hnum' hp
      subst hdelim
      have hfound := hreads.stops v _ cp'' hp (delimiter_eq m index)
      rw [h] at hfound
      cases hfound
      exact ⟨rfl, .refl d, hnum', v, cp', hp⟩
    · trivial
    · exact absurd hp hreads.inside
  · have hsep : ch ≠ delimiter m index := by
      rcases delimiter_eq m index with hd | hd <;> rw [hd] <;> assumption
    simp only [hnum, Bool.false_eq_true, if_false, hsep]
    trivial

theorem part_container {ch : UInt8} {k : kind} (hk : kind_of ch = some k)
    (hcount : Counted Separated (k = .mapping) false cp size l (delimiter m index :: cp'))
    (h : Agrees c (k = .mapping) false cp size l (delimiter m index :: cp')) :
    Part c m index (40 :: ch :: cp) (size :: l) cp'
      (Counted Accepted (k = .mapping) false cp size l (delimiter m index :: cp')) := by
  intro f d string_error generic_error hf hd
  have hlexeme : next_lexeme (40 :: ch :: cp) = .container k cp := by
    simp [next_lexeme, hk]
  simp only [restore_part, hlexeme]
  have hsize : size_at d d.save_svalue_depth = some (size : Int) := hd 0 size rfl
  have hinside : Entries { d with save_svalue_depth := d.save_svalue_depth + 1 } l := by
    intro i x hx
    have hi := hd (i + 1) x (by simpa using hx)
    rwa [← Nat.add_assoc, Nat.add_right_comm] at hi
  simp only [length_cons] at hf
  apply (h.container hcount (f := f) (by omega) (Nat.succ_ne_zero _) hsize hinside).bind
  rintro ⟨v, cp₁⟩ d₁ ⟨rfl, hpassed, hform⟩
  refine ⟨rfl, ⟨?_, hpassed.sizes⟩, hform⟩
  rw [hpassed.depth, length_cons, Nat.add_assoc, Nat.add_comm 1]

theorem agrees_of_counted (c : config) (h : Counted Separated m index cp n l rest) (hnul : 0 ∈ cp) :
    Agrees c m index cp n l rest := by
  induction h with
  | @close_mapping index cp =>
    refine ⟨fun hm => absurd hm (by simp), fun _ hi f k d block b _ hk _ _ => ?_,
      fun _ _ f k d block b key _ _ _ _ => ?_⟩
    · obtain ⟨k, rfl⟩ : ∃ k', k = k' + 1 := ⟨k - 1, by omega⟩
      simp only [restore_nodes, head?_cons, if_true]
      exact ⟨rfl, .refl d, .close_mapping fun h => absurd (hi.symm.trans h) (by simp)⟩
    · have hother : next_lexeme (93 :: 41 :: cp) = .other 93 (41 :: cp) := rfl
      simp only [restore_node, restore_part, hother]
      exact gives_give_up _ _ _
  | @close_items index ch cp hch =>
    refine ⟨fun _ f d N e block item _ _ hN => ?_, fun hm => absurd hm (by simp),
      fun hm => absurd hm (by simp)⟩
    exact ⟨rfl, hN, .refl d, .close_items hch⟩
  | @string m index cp cp' rest n l hskip hrest ih =>
    obtain ⟨hcp, hlt⟩ := (stops_skip_string cp (nul_tail hnul (by decide))).left _ hskip
    simp only [length_cons] at hlt
    exact (part_string c hskip).agrees (by simp) (by simp only [length_cons]; omega)
      (fun _ => .string hskip) (ih (nul_tail hcp (delimiter_ne_zero m index)))
  | @container m index ch k cp cp' rest size n l l' hk hinside hrest ih ih' =>
    have hch : ch ≠ 0 := by
      rintro rfl
      simp [kind_of] at hk
    have hcp := nul_tail (nul_tail hnul (by decide)) hch
    obtain ⟨hcp', hlt⟩ := hinside.left hcp
    simp only [length_cons] at hlt
    exact (part_container hk hinside (ih hcp)).agrees (by simp)
      (by simp only [length_cons]; omega) (fun hform => .container hk hform)
      (ih' (nul_tail hcp' (delimiter_ne_zero m index)))
  | @nothing m index cp rest n l hrest ih =>
    have hhead : (delimiter m index :: cp).head? ≠ some 93 := by
      rcases delimiter_eq m index with h | h <;> simp [h]
    exact (part_nothing c).agrees hhead (by simp) (fun _ => .nothing)
      (ih (nul_tail hnul (delimiter_ne_zero m index)))
  | @skipped m index ch cp cp' rest n l hch hfind hends hrest ih =>
    have hcp := nul_tail hnul hch.1
    obtain ⟨hcp', hlt⟩ := (stops_strchr (delimiter_ne_zero m index) cp hcp).left _ hfind
    exact (part_skipped c hch hfind hends hcp).agrees (by simpa using hch.2.2.2.1)
      (by simp only [length_cons]; omega) (fun hnum => .skipped hch hfind hnum) (ih hcp')

end mudos.saved_values
