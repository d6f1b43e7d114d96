-- The whole text of a value. Where no string runs out behind an escape and each
-- number of a container ends at its delimiter, a text is restored without a step
-- outside of it, what is accepted has a form, and what is not has been freed.
import MudOS.RestoredBlockLaws

open List

namespace mudos.saved_values

variable {cp : List UInt8}

/-! ## Strings that are left open -/

/-- Up to the NUL there is neither a quote nor a backslash without its character. -/
inductive Open : List UInt8 → Prop
  | nul : Open [0]
  | char {c : UInt8} {cp : List UInt8} (h34 : c ≠ 34) (h92 : c ≠ 92) (h0 : c ≠ 0)
      (h : Open cp) : Open (c :: cp)
  | escape {c : UInt8} {cp : List UInt8} (h0 : c ≠ 0) (h : Open cp) : Open (92 :: c :: cp)

inductive RunsOut : List UInt8 → Prop
  | escape {c : UInt8} {cp : List UInt8} (h0 : c ≠ 0) (h : Open cp) : RunsOut (92 :: c :: cp)
  | char {c : UInt8} {cp : List UInt8} (h34 : c ≠ 34) (h92 : c ≠ 92) (h0 : c ≠ 0)
      (h : RunsOut cp) : RunsOut (c :: cp)

theorem put_eq_outside (c : UInt8) (s : string_end) : s.put c = .outside ↔ s = .outside := by
  cases s <;> simp [string_end.put]

def Ended (cp : List UInt8) : Prop := ∃ t : List UInt8, 0 ∉ t ∧ cp = t ++ [0]

theorem Ended.tail {c : UInt8} {cp : List UInt8} (h : Ended (c :: cp)) (hc : c ≠ 0) :
    Ended cp := by
  obtain ⟨_ | ⟨c', t⟩, ht, heq⟩ := h
  · simp only [nil_append, cons.injEq] at heq
    exact absurd heq.1 hc
  · simp only [cons_append, cons.injEq] at heq
    exact ⟨t, fun hmem => ht (mem_cons_of_mem _ hmem), heq.2⟩

theorem Ended.last (h : Ended (0 :: cp)) : cp = [] := by
  obtain ⟨_ | ⟨c', t⟩, ht, heq⟩ := h
  · simpa using heq
  · simp only [cons_append, cons.injEq] at heq
    exact absurd heq.1 fun h0 => ht (h0 ▸ mem_cons_self)

theorem Ended.ne_nil (h : Ended cp) : cp ≠ [] := by
  obtain ⟨t, -, rfl⟩ := h
  simp

theorem Ended.nul (h : Ended cp) : 0 ∈ cp := by
  obtain ⟨t, -, rfl⟩ := h
  simp

theorem Ended.skipped {cp cp' : List UInt8} (h : Ended cp) (hskip : skip_string cp = .found cp') :
    Ended cp' := by
  fun_induction skip_string cp with
  | case1 => cases hskip
  | case2 cp =>
    cases hskip
    exact h.tail (by decide)
  | case3 => cases hskip
  | case4 => cases hskip
  | case5 => cases hskip
  | case6 c cp hc _ _ ih => exact ih ((h.tail (by decide)).tail hc) hskip
  | case7 c cp _ h0 _ ih => exact ih (h.tail h0) hskip

theorem behind_escape_outside (h : Ended cp) : behind_escape cp = .outside ↔ Open cp := by
  fun_induction behind_escape cp with
  | case1 => exact absurd rfl h.ne_nil
  | case2 cp =>
    refine ⟨by simp, fun ho => ?_⟩
    cases ho with
    | char h34 => exact absurd rfl h34
  | case3 => exact absurd rfl (h.tail (by decide)).ne_nil
  | case4 cp =>
    refine ⟨by simp, fun ho => ?_⟩
    cases ho with
    | char _ h92 => exact absurd rfl h92
    | escape h0 => exact absurd rfl h0
  | case5 c cp h0 _ ih =>
    rw [put_eq_outside, ih ((h.tail (by decide)).tail h0)]
    refine ⟨fun ho => .escape h0 ho, fun ho => ?_⟩
    cases ho with
    | char _ h92 => exact absurd rfl h92
    | escape _ ho => exact ho
  | case6 c cp h34 h92 ih =>
    rw [put_eq_outside]
    by_cases h0 : c = 0
    · subst h0
      obtain rfl := h.last
      exact ⟨fun _ => .nul, fun _ => rfl⟩
    · rw [ih (h.tail h0)]
      refine ⟨fun ho => .char h34 h92 h0 ho, fun ho => ?_⟩
      cases ho with
      | nul => exact absurd rfl h0
      | char _ _ _ ho => exact ho
      | escape => exact absurd rfl h92

theorem restore_interior_string_outside (h : Ended cp) :
    restore_interior_string cp = .outside ↔ RunsOut cp := by
  fun_induction restore_interior_string cp with
  | case1 => exact absurd rfl h.ne_nil
  | case2 cp =>
    refine ⟨by simp, fun ho => ?_⟩
    cases ho with
    | char h34 => exact absurd rfl h34
  | case3 cp _ ih =>
    rw [put_eq_outside, ih (h.tail (by decide))]
    refine ⟨fun ho => .char (by decide) (by decide) (by decide) ho, fun ho => ?_⟩
    cases ho with
    | char _ _ _ ho => exact ho
  | case4 => exact absurd rfl (h.tail (by decide)).ne_nil
  | case5 cp =>
    refine ⟨by simp, fun ho => ?_⟩
    cases ho with
    | char _ h92 => exact absurd rfl h92
    | escape h0 => exact absurd rfl h0
  | case6 c cp h0 _ _ =>
    rw [put_eq_outside, behind_escape_outside ((h.tail (by decide)).tail h0)]
    refine ⟨fun ho => .escape h0 ho, fun ho => ?_⟩
    cases ho with
    | char _ h92 => exact absurd rfl h92
    | escape _ ho => exact ho
  | case7 cp =>
    refine ⟨by simp, fun ho => ?_⟩
    cases ho with
    | char _ _ h0 => exact absurd rfl h0
  | case8 c cp h34 _ h92 h0 ih =>
    rw [put_eq_outside, ih (h.tail h0)]
    refine ⟨fun ho => .char h34 h92 h0 ho, fun ho => ?_⟩
    cases ho with
    | char _ _ _ ho => exact ho
    | escape => exact absurd rfl h92

theorem put_eq_closed {c : UInt8} {s : string_end} {t : List UInt8} (h : s.put c = .closed t cp) :
    ∃ t', s = .closed t' cp := by
  rcases s with ⟨t', cp'⟩ | _ | _ <;> simp [string_end.put] at h
  exact ⟨t', by rw [h.2]⟩

theorem behind_escape_of_missing (h : skip_string cp = .missing) (hended : Ended cp) :
    ∀ s cp', behind_escape cp ≠ .closed s cp' := by
  fun_induction skip_string cp with
  | case1 => cases h
  | case2 => cases h
  | case3 cp =>
    obtain rfl := hended.last
    simp [behind_escape, string_end.put]
  | case4 => cases h
  | case5 => simp [behind_escape_cons]
  | case6 c cp hc _ _ ih =>
    intro s cp' hs
    simp only [behind_escape_cons, hc, if_false, show ¬ (92 : UInt8) = 34 by decide, if_true] at hs
    obtain ⟨s', hs'⟩ := put_eq_closed hs
    exact ih h ((hended.tail (by decide)).tail hc) s' cp' hs'
  | case7 c cp h34 h0 h92 ih =>
    intro s cp' hs
    simp only [behind_escape_cons, h34, h92, if_false] at hs
    obtain ⟨s', hs'⟩ := put_eq_closed hs
    exact ih h (hended.tail h0) s' cp' hs'

theorem restore_interior_string_of_missing (h : skip_string cp = .missing) (hended : Ended cp) :
    ∀ s cp', restore_interior_string cp ≠ .closed s cp' := by
  fun_induction skip_string cp with
  | case1 => cases h
  | case2 => cases h
  | case3 | case5 => simp [restore_interior_string_cons]
  | case4 => cases h
  | case6 c cp hc _ _ _ =>
    intro s cp' hs
    simp only [restore_interior_string_cons, hc, if_false, show ¬ (92 : UInt8) = 34 by decide,
      show ¬ (92 : UInt8) = 13 by decide, if_true] at hs
    obtain ⟨s', hs'⟩ := put_eq_closed hs
    exact behind_escape_of_missing h ((hended.tail (by decide)).tail hc) s' cp' hs'
  | case7 c cp h34 h0 h92 ih =>
    intro s cp' hs
    simp only [restore_interior_string_cons, h34, h92, h0, if_false] at hs
    split at hs <;> obtain ⟨s', hs'⟩ := put_eq_closed hs <;> exact ih h (hended.tail h0) s' cp' hs'

theorem skip_of_restore_interior_string {s cp' : List UInt8} (hended : Ended cp)
    (h : restore_interior_string cp = .closed s cp') : skip_string cp = .found cp' := by
  rcases hskip : skip_string cp with cp'' | _ | _
  · obtain ⟨s', hs'⟩ := restore_interior_string_of_skip hskip
    rw [h] at hs'
    cases hs'
    rfl
  · exact absurd h (restore_interior_string_of_missing hskip hended s cp')
  · exact absurd hskip (stops_skip_string cp hended.nul).inside

/-! ## Containers that are the whole value -/

/-- What a function returns when the first pass finds no end. `restore_mapping` returns zero, and
no value. -/
def refuse (k : kind) (cp : List UInt8) (d : driver) : outcome (Option svalue_t × List UInt8) :=
  match k with
  | .array => .rob ROB_ARRAY_ERROR d
  | .class_ => .rob ROB_CLASS_ERROR d
  | .mapping => .value (none, cp) d

theorem restore_container_outermost (c : config) (n : Nat) (k : kind) (cp : List UInt8)
    {d : driver} (hd : d.save_svalue_depth = 0) : restore_container c (n + 1) k cp d =
      (restore_size c (k = .mapping) cp d).bind fun size d =>
        if size < 0 then refuse k cp d else build c (restore_container c n) k size cp d := by
  rcases k with _ | _ | _
  · simp [restore_container, restore_array, hd, build, refuse, reduceCtorEq]
  · simp [restore_container, restore_class, hd, build, refuse, reduceCtorEq]
  · simp [restore_container, restore_mapping, hd, build, refuse]

theorem gives_build_nothing (c : config) (nested : Restore) (k : kind) (cp : List UInt8)
    (d : driver) : (build c nested k 0 cp d).Gives fun _ _ => True := by
  rcases k with _ | _ | _
  · have hlimit : ¬ ((0 : Int) < 0 ∨ (0 : Int) > c.max_array_size) := by omega
    simp only [build, build_array, hlimit, if_false, if_true]
    trivial
  · exact trivial
  · exact trivial

structure Ready (depth : Nat) (d : driver) : Prop where
  table : Table d
  depth : d.save_svalue_depth = 0 ∨ d.save_svalue_depth = depth

/-- There is a value, with blocks of its own, when the text has the form; or there is none, as the
end of the container was not found. Otherwise nothing is left of what was built. -/
def outcome.Brings (depth : Nat) (base : List Nat) (v : svalue_t) (form unended : Prop) :
    outcome svalue_t → Prop
  | .value v' d => Ready depth d ∧
      (form ∧ d.live.Perm (v'.blocks ++ base) ∨ unended ∧ v' = v ∧ d.live.Perm base)
  | .rob code d => code &&& ROB_ERROR ≠ 0 ∧ Ready depth d ∧ d.live.Perm base
  | .error d => Table d ∧ ∃ lost, d.live.Perm (lost ++ base)
  | .fault _ => False

variable {d : driver}

theorem ready_reset_sizes (depth : Nat) (h : Table d) : Ready depth (reset_sizes d) := by
  unfold reset_sizes
  split
  · exact ⟨by simp [Table], .inl rfl⟩
  · exact ⟨h, .inl (by omega)⟩

theorem live_reset_sizes (d : driver) : (reset_sizes d).live = d.live := by
  unfold reset_sizes
  split <;> rfl

theorem SameTable.table {d' : driver} (h : SameTable d d') (ht : Table d) : Table d' := by
  intro sizes hs
  rw [h.sizes] at hs
  rw [h.max_depth]
  exact ht sizes hs

variable {form : Prop}

theorem brings_of_build {o : outcome (Option svalue_t × List UInt8)} {base : List Nat} (depth : Nat)
    (v : svalue_t) (unended : Prop) (ht : Table d) (hlive : d.live.Perm base)
    (howns : o.Owns d d.live (fun a => (a.1.getD const0).blocks) fun a => a.1.isSome)
    (hgives : o.Gives fun _ _ => form) :
    (o.handle (fun code d => .rob code (reset_sizes d))
      fun (v', _) d => .value (v'.getD v) (reset_sizes d)).Brings depth base v form unended := by
  rcases o with ⟨⟨v', cp⟩, d'⟩ | ⟨code, d'⟩ | d' | f
  · obtain ⟨hlive', hsame, hsome⟩ := howns
    obtain ⟨v', rfl⟩ := Option.isSome_iff_exists.mp hsome
    refine ⟨ready_reset_sizes depth (hsame.table ht), .inl ⟨hgives, ?_⟩⟩
    rw [live_reset_sizes]
    exact hlive'.trans (hlive.append_left _)
  · obtain ⟨hcode, hlive', hsame⟩ := howns
    refine ⟨hcode, ready_reset_sizes depth (hsame.table ht), ?_⟩
    rw [live_reset_sizes]
    exact hlive'.trans hlive
  · obtain ⟨⟨lost, hlost⟩, hsame⟩ := howns
    exact ⟨hsame.table ht, lost, hlost.trans (hlive.append_left lost)⟩
  · exact howns hgives

/-- Each number that the first pass goes over ends at its delimiter. -/
def Delimited (k : kind) (cp : List UInt8) : Prop :=
  ∀ n l rest, Counted Any (k = .mapping) false cp n l rest →
    Counted Separated (k = .mapping) false cp n l rest

def Ends (k : kind) (cp : List UInt8) : Prop :=
  ∃ n l rest, Counted Accepted (k = .mapping) false cp n l rest

def Unended (k : kind) (cp : List UInt8) : Prop :=
  Unclosed (k = .mapping) false cp ∨
    k = .mapping ∧ ∀ n l rest, ¬ Counted Any true false cp n l rest

variable {cp : List UInt8}

theorem brings_outermost (c : config) (k : kind) (v : svalue_t) (ht : Table d)
    (hd : d.save_svalue_depth = 0) (hnul : 0 ∈ cp) (h : Delimited k cp) :
    (restore_outermost c k cp v d).Brings d.save_svalue_depth d.live v
      (Ends k cp ∨ Unended k cp) (Unended k cp) := by
  obtain ⟨size, d₁, hsize, ht₁, hsame, hm⟩ := restore_size_spec c (k = .mapping) ht hnul hd
  have hlive : d₁.live.Perm d.live := hsame.live ▸ .refl _
  have howns : ∀ size, (build c (restore_container c cp.length) k size cp d₁).Owns d₁ d₁.live
      (fun a => (a.1.getD const0).blocks) fun a => a.1.isSome := fun size =>
    owns_build (owns_restore_container c cp.length) k size cp d₁
  rw [restore_outermost, restore_container_outermost c cp.length k cp hd, hsize]
  cases hm with
  | @counted _ n l rest hcount hdepth hl =>
    have hneg : ¬ (n : Int) < 0 := by omega
    have hentries : Entries d₁ l := fun i x hx => by
      rw [hdepth, Nat.zero_add]
      exact hl i x hx
    have hsep := h n l rest hcount
    have hgives := (agrees_of_counted c hsep hnul).build hsep (Nat.le_refl _) hentries
    simp only [outcome.bind, outcome.handle, hneg, if_false]
    apply brings_of_build _ v _ ht₁ hlive (howns n)
    exact hgives.mono fun a d' ha => .inl ⟨n, l, rest, ha.2.2⟩
  | unclosed hopen =>
    simp only [outcome.bind, outcome.handle, show ¬ (0 : Int) < 0 by decide, if_false]
    apply brings_of_build _ v _ ht₁ hlive (howns 0)
    exact (gives_build_nothing c _ k cp d₁).mono fun _ _ _ => .inr (.inl hopen)
  | refused hrefused =>
    simp only [outcome.bind, outcome.handle, show (-1 : Int) < 0 by decide, if_true]
    have hready := ready_reset_sizes d.save_svalue_depth ht₁
    rcases k with _ | _ | _
    · exact ⟨by decide, hready, by rwa [live_reset_sizes]⟩
    · exact ⟨by decide, hready, by rwa [live_reset_sizes]⟩
    · refine ⟨hready, .inr ⟨.inr ⟨rfl, fun n l rest => hrefused Any n l rest⟩, rfl, ?_⟩⟩
      rwa [live_reset_sizes]

/-! ## Texts -/

/-- A text that both passes stay in: no string runs out behind an escape, and a container is
measured first, and has each number at its delimiter. -/
structure Sound (depth : Nat) (cp : List UInt8) : Prop where
  string : ∀ s, cp = 34 :: s → ¬ RunsOut s
  container : ∀ ch s k, cp = 40 :: ch :: s → kind_of ch = some k → depth = 0 ∧ Delimited k s

/-- The texts that are restored. What stands behind a numeral or a container is not looked at, and
every text that begins with another character is zero. -/
inductive Restored : List UInt8 → Prop
  | string {s : List UInt8} (h : skip_string s = .found [0]) : Restored (34 :: s)
  | number {ch delim : UInt8} {s cp : List UInt8} {v : svalue_t} (hch : ch = 45 ∨ isdigit ch = true)
      (h : parse_numeric ch s = .number v delim cp) : Restored (ch :: s)
  | container {ch : UInt8} {k : kind} {s : List UInt8} (hk : kind_of ch = some k)
      (h : Ends k s) : Restored (40 :: ch :: s)
  | zero {ch : UInt8} {s : List UInt8} (h34 : ch ≠ 34) (h40 : ch ≠ 40) (h45 : ch ≠ 45)
      (hdigit : isdigit ch = false) : Restored (ch :: s)

/-- A container whose end is not found, and that is not refused. -/
inductive Overlooked : List UInt8 → Prop
  | container {ch : UInt8} {k : kind} {s : List UInt8} (hk : kind_of ch = some k)
      (h : Unended k s) : Overlooked (40 :: ch :: s)

/-- The value of a text, for either function: `v` is what is there when `restore_mapping` gives
none, and `other` is what is done when no container is opened. -/
def text_value (c : config) (v : svalue_t) (other : driver → driver) (cp : List UInt8)
    (d : driver) : outcome svalue_t :=
  match cp with
  | [] => .fault .outside
  | ch :: cp =>
    if ch = 34 then
      match restore_string cp with
      | .closed s _ => .value (.T_STRING d.next_block s) d.new_block
      | .refused => .rob ROB_STRING_ERROR d
      | .outside => .fault .outside
    else if ch = 40 then
      match cp with
      | [] => .fault .outside
      | ch :: cp =>
        match kind_of ch with
        | some k => restore_outermost c k cp v d
        | none => .rob ROB_GENERAL_ERROR (other d)
    else if ch = 45 || isdigit ch then
      match parse_numeric ch cp with
      | .number v _ _ => .value v d
      | .refused => .rob ROB_NUMERAL_ERROR d
      | .outside => .fault .outside
    else .value const0 d

theorem restore_svalue_eq (c : config) (cp : List UInt8) (v : svalue_t) (d : driver) :
    restore_svalue c cp v d = (text_value c v reset_sizes cp d).returns v := by
  rcases cp with _ | ⟨ch, cp⟩
  · rfl
  simp only [restore_svalue, text_value]
  split_ifs
  · rcases restore_string cp with _ | _ | _ <;> rfl
  · rcases cp with _ | ⟨ch, cp⟩
    · rfl
    simp only
    rcases kind_of ch with _ | k <;> rfl
  · rcases parse_numeric ch cp with _ | _ | _ <;> rfl
  · rfl

theorem safe_restore_svalue_eq (c : config) (cp : List UInt8) (v : svalue_t) (d : driver) :
    safe_restore_svalue c cp v d =
      replace_value v (text_value c (.T_NUMBER (c.memory 0)) id cp d) := by
  rcases cp with _ | ⟨ch, cp⟩
  · rfl
  simp only [safe_restore_svalue, text_value]
  split_ifs
  · rcases restore_string cp with _ | _ | _ <;> rfl
  · rcases cp with _ | ⟨ch, cp⟩
    · rfl
    simp only
    rcases kind_of ch with _ | k <;> rfl
  · rcases parse_numeric ch cp with _ | _ | _ <;> rfl
  · rfl

theorem outcome.Brings.mono {depth : Nat} {base : List Nat} {v : svalue_t}
    {form' unended unended' : Prop} {o : outcome svalue_t} (h : o.Brings depth base v form unended)
    (hform : form → form') (hunended : unended → unended') :
    o.Brings depth base v form' unended' := by
  rcases o with ⟨v', d⟩ | _ | _ | _
  · obtain ⟨hready, ⟨hf, hlive⟩ | ⟨hu, hlive⟩⟩ := h
    · exact ⟨hready, .inl ⟨hform hf, hlive⟩⟩
    · exact ⟨hready, .inr ⟨hunended hu, hlive⟩⟩
  · exact h
  · exact h
  · exact h

theorem Ready.refl (h : Table d) : Ready d.save_svalue_depth d := ⟨h, .inr rfl⟩

theorem restore_string_cases (hended : Ended cp) (h : ¬ RunsOut cp) :
    (∃ s cp', restore_string cp = .closed s cp' ∧ skip_string cp = .found [0]) ∨
      restore_string cp = .refused := by
  unfold restore_string
  rcases hr : restore_interior_string cp with ⟨s, _ | ⟨ch, cp'⟩⟩ | _ | _
  · have hskip := skip_of_restore_interior_string hended hr
    have hnul := ((stops_skip_string cp hended.nul).left _ hskip).1
    simp at hnul
  · simp only
    split_ifs with h0
    · subst h0
      have hskip := skip_of_restore_interior_string hended hr
      obtain rfl := (hended.skipped hskip).last
      exact .inl ⟨s, _, rfl, hskip⟩
    · exact .inr rfl
  · exact .inr rfl
  · exact absurd ((restore_interior_string_outside hended).mp hr) h

theorem brings_text (c : config) (v : svalue_t) (other : driver → driver) (ht : Table d)
    (hother : Ready d.save_svalue_depth (other d) ∧ (other d).live = d.live) (hended : Ended cp)
    (h : Sound d.save_svalue_depth cp) :
    (text_value c v other cp d).Brings d.save_svalue_depth d.live v
      (Restored cp ∨ Overlooked cp) (Overlooked cp) := by
  rcases cp with _ | ⟨ch, cp⟩
  · exact absurd rfl hended.ne_nil
  unfold text_value
  by_cases h34 : ch = 34
  · subst h34
    have hended' := hended.tail (by decide)
    rcases restore_string_cases hended' (h.string cp rfl) with ⟨s, cp', hs, hskip⟩ | hs
    · simp only [if_true, hs]
      exact ⟨⟨ht, .inr rfl⟩, .inl ⟨.inl (.string hskip), .refl _⟩⟩
    · simp only [if_true, hs]
      exact ⟨by decide, .refl ht, .refl _⟩
  simp only [h34, if_false]
  by_cases h40 : ch = 40
  · subst h40
    have hended' := hended.tail (by decide)
    rcases cp with _ | ⟨ch, cp⟩
    · exact absurd rfl hended'.ne_nil
    simp only [if_true]
    rcases hk : kind_of ch with _ | k
    · exact ⟨by decide, hother.1, by rw [hother.2]⟩
    have hch : ch ≠ 0 := by
      rintro rfl
      simp [kind_of] at hk
    obtain ⟨hdepth, hdelimited⟩ := h.container ch cp k rfl hk
    apply (brings_outermost c k v ht hdepth (hended'.tail hch).nul hdelimited).mono
    · rintro (hends | hunended)
      · exact .inl (.container hk hends)
      · exact .inr (.container hk hunended)
    · exact .container hk
  simp only [h40, if_false]
  by_cases hnum : (ch = 45 || isdigit ch) = true
  · have hch : ch = 45 ∨ isdigit ch = true := by simpa using hnum
    have h0 : ch ≠ 0 := by
      rintro rfl
      exact absurd hnum (by decide)
    simp only [hnum, if_true]
    rcases hp : parse_numeric ch cp with ⟨w, delim, cp'⟩ | _ | _
    · refine ⟨.refl ht, .inl ⟨.inl (.number hch hp), ?_⟩⟩
      rw [blocks_number hp]
      exact .refl _
    · exact ⟨by decide, .refl ht, .refl _⟩
    · exact absurd hp (reads_parse_numeric ch (hended.tail h0).nul).inside
  · simp only [hnum]
    simp only [Bool.or_eq_true, decide_eq_true_eq, not_or, Bool.not_eq_true] at hnum
    exact ⟨.refl ht, .inl ⟨.inl (.zero h34 h40 hnum.1 hnum.2), .refl _⟩⟩

/-- What a function that restores a variable returns: an `ROB_` code, and the variable as it was,
or zero, and a value. Blocks are lost with an error(), and when a value is not freed before another
one takes its place. -/
def outcome.Settles (depth : Nat) (live : List Nat) (v : svalue_t) (form : Prop) :
    outcome (Nat × svalue_t) → Prop
  | .value (code, v') d => Ready depth d ∧
      (code &&& ROB_ERROR ≠ 0 ∧ v' = v ∧ d.live.Perm live ∨
        code = 0 ∧ form ∧ ∀ base, live.Perm (v.blocks ++ base) →
          ∃ lost, d.live.Perm (v'.blocks ++ (lost ++ base)))
  | .rob _ _ => False
  | .error d => Table d ∧ ∃ lost, d.live.Perm (lost ++ live)
  | .fault _ => False

theorem settles_restore_svalue (c : config) (v : svalue_t) (ht : Table d) (hended : Ended cp)
    (h : Sound d.save_svalue_depth cp) :
    (restore_svalue c cp v d).Settles d.save_svalue_depth d.live v
      (Restored cp ∨ Overlooked cp) := by
  have hbrings := brings_text c v reset_sizes ht
    ⟨ready_reset_sizes _ ht, live_reset_sizes d⟩ hended h
  rw [restore_svalue_eq]
  generalize text_value c v reset_sizes cp d = o at hbrings ⊢
  rcases o with ⟨v', d'⟩ | ⟨code, d'⟩ | d' | f
  · obtain ⟨hready, ⟨hform, hlive⟩ | ⟨hunended, rfl, hlive⟩⟩ := hbrings
    · exact ⟨hready, .inr ⟨rfl, hform, fun base hbase =>
        ⟨v.blocks, hlive.trans (hbase.append_left _)⟩⟩⟩
    · exact ⟨hready, .inr ⟨rfl, .inr hunended, fun base hbase => ⟨[], hlive.trans hbase⟩⟩⟩
  · exact ⟨hbrings.2.1, .inl ⟨hbrings.1, rfl, hbrings.2.2⟩⟩
  · exact hbrings
  · exact hbrings

theorem settles_safe_restore_svalue (c : config) (v : svalue_t)
    (hv : ∃ base, d.live.Perm (v.blocks ++ base)) (ht : Table d) (hended : Ended cp)
    (h : Sound d.save_svalue_depth cp) :
    (safe_restore_svalue c cp v d).Settles d.save_svalue_depth d.live v
      (Restored cp ∨ Overlooked cp) := by
  have hbrings := brings_text c (.T_NUMBER (c.memory 0)) id ht ⟨.refl ht, rfl⟩ hended h
  rw [safe_restore_svalue_eq]
  generalize text_value c (.T_NUMBER (c.memory 0)) id cp d = o at hbrings ⊢
  rcases o with ⟨v', d'⟩ | ⟨code, d'⟩ | d' | f
  · obtain ⟨hready, hvalue⟩ := hbrings
    obtain ⟨hform, hlive'⟩ : (Restored cp ∨ Overlooked cp) ∧ d'.live.Perm (v'.blocks ++ d.live) := by
      rcases hvalue with ⟨hform, hlive'⟩ | ⟨hunended, rfl, hlive'⟩
      · exact ⟨hform, hlive'⟩
      · exact ⟨.inr hunended, hlive'⟩
    have hboth : ∀ base, d.live.Perm (v.blocks ++ base) →
        d'.live.Perm (v.blocks ++ (v'.blocks ++ base)) := by
      intro base hlive
      refine hlive'.trans ((hlive.append_left _).trans ?_)
      rw [← append_assoc, ← append_assoc]
      exact perm_append_comm.append_right base
    obtain ⟨base, hbase⟩ := hv
    obtain ⟨d'', hfree, hlive'', hsame, hdepth⟩ := free_blocks_spec (hboth base hbase)
    simp only [replace_value, outcome.handle, outcome.bind, hfree]
    refine ⟨⟨hsame.table hready.table, ?_⟩, .inr ⟨rfl, hform, fun base' hbase' => ⟨[], ?_⟩⟩⟩
    · rw [hdepth]
      exact hready.depth
    · have hsame' := (perm_append_left_iff _).mp (hbase.symm.trans hbase')
      exact hlive''.trans (hsame'.append_left _)
  · exact ⟨hbrings.2.1, .inl ⟨hbrings.1, rfl, hbrings.2.2⟩⟩
  · exact hbrings
  · exact hbrings

/-- A code is returned, nothing is left of what was built, and the variable has its value. An
error() is the other way to refuse a text. -/
def outcome.Refuses (live : List Nat) (v : svalue_t) (o : outcome (Nat × svalue_t)) : Prop :=
  (∃ code d, o = .value (code, v) d ∧ code &&& ROB_ERROR ≠ 0 ∧ d.live.Perm live ∧
    d.save_svalue_depth = 0) ∨ ∃ d, o = .error d

theorem refuses_of_settles {live : List Nat} {v : svalue_t} {o : outcome (Nat × svalue_t)}
    (h : o.Settles 0 live v form) (hform : ¬ form) : o.Refuses live v := by
  rcases o with ⟨⟨code, v'⟩, d⟩ | _ | d | _
  · obtain ⟨hready, ⟨hcode, rfl, hlive⟩ | ⟨-, hf, -⟩⟩ := h
    · exact .inl ⟨code, d, rfl, hcode, hlive, by simpa using hready.depth⟩
    · exact absurd hf hform
  · exact h.elim
  · exact .inr ⟨d, rfl⟩
  · exact h.elim

theorem ended_memory (t : Text) : Ended t.memory := ⟨t.bytes, t.nul_free, rfl⟩

theorem other_texts_are_refused (c : config) (t : Text) (v : svalue_t) {d : driver}
    {base : List Nat} (ht : Table d) (hdepth : d.save_svalue_depth = 0)
    (hlive : d.live.Perm (v.blocks ++ base)) (hsound : Sound 0 t.memory)
    (hfound : ¬ Overlooked t.memory) (hother : ¬ Restored t.memory) :
    (restore_svalue c t.memory v d).Refuses d.live v ∧
      (safe_restore_svalue c t.memory v d).Refuses d.live v := by
  rw [← hdepth] at hsound
  have hform : ¬ (Restored t.memory ∨ Overlooked t.memory) := by
    rintro (h | h)
    · exact hother h
    · exact hfound h
  have hrestore := settles_restore_svalue c v ht (ended_memory t) hsound
  have hsafe := settles_safe_restore_svalue c v ⟨base, hlive⟩ ht (ended_memory t) hsound
  rw [hdepth] at hrestore hsafe
  exact ⟨refuses_of_settles hrestore hform, refuses_of_settles hsafe hform⟩

/-- An array that is cut off behind a number, for a variable that has a string. -/
theorem an_array_without_an_end_is_refused :
    (restore_svalue ⟨100, 100, fun _ => 0, fun _ => 7⟩ [40, 123, 49, 44, 0] (.T_STRING 1 [97])
      ⟨0, none, 0, [1], 2⟩).Refuses [1] (.T_STRING 1 [97]) ∧
    (safe_restore_svalue ⟨100, 100, fun _ => 0, fun _ => 7⟩ [40, 123, 49, 44, 0]
      (.T_STRING 1 [97]) ⟨0, none, 0, [1], 2⟩).Refuses [1] (.T_STRING 1 [97]) := by
  have hcounted : ∀ form n l rest, ¬ Counted form false false [49, 44, 0] n l rest := by
    intro form n l rest h
    obtain ⟨d, hd⟩ := size_loop_of_counted ⟨100, 100, fun _ => 0, fun _ => 7⟩ h 4 0 start
      (by simp [Table, start]) (by simp) (by simp)
    cases hd
  have hclosed : ∀ index, ¬ Unclosed false index [49, 44, 0] := by
    intro index h
    cases h with
    | skipped hch hfind hrest =>
      cases hfind
      cases hrest with
      | skipped hch => exact hch.1 rfl
  have hkind : ∀ {ch k} {s : List UInt8}, [40, 123, 49, 44, 0] = 40 :: ch :: s →
      kind_of ch = some k → k = .array ∧ s = [49, 44, 0] := by
    intro ch k s heq hk
    cases heq
    cases hk
    exact ⟨rfl, rfl⟩
  have hlive : List.Perm [1] ((svalue_t.T_STRING 1 [97]).blocks ++ []) := .refl _
  refine other_texts_are_refused _ ⟨[40, 123, 49, 44], by decide⟩ (.T_STRING 1 [97])
    (by simp [Table]) rfl hlive ?_ ?_ ?_
  · refine ⟨fun s heq => (by cases heq), fun ch s k heq hk => ⟨rfl, ?_⟩⟩
    obtain ⟨rfl, rfl⟩ := hkind heq hk
    exact fun n l rest h => absurd h (hcounted _ n l rest)
  · generalize hcp : Text.memory _ = cp
    rintro ⟨hk, hunended⟩
    obtain ⟨rfl, rfl⟩ := hkind hcp hk
    rcases hunended with hopen | ⟨hm, -⟩
    · exact hclosed false hopen
    · cases hm
  · generalize hcp : Text.memory _ = cp
    intro h
    cases h with
    | string => cases hcp
    | number hch =>
      cases hcp
      exact absurd hch (by decide)
    | container hk hends =>
      obtain ⟨rfl, rfl⟩ := hkind hcp hk
      obtain ⟨n, l, rest, h⟩ := hends
      exact hcounted _ n l rest h
    | zero _ h40 =>
      cases hcp
      exact h40 rfl

theorem isdigit_of_mem_toDigits {n : Nat} {c : UInt8}
    (h : c ∈ (Nat.toDigits 10 n).map fun ch => ch.toNat.toUInt8) : isdigit c = true := by
  obtain ⟨ch, hch, rfl⟩ := mem_map.mp h
  have hdigit := Nat.isDigit_of_mem_toDigits (by decide) (by decide) hch
  simp only [Char.isDigit, Bool.and_eq_true, decide_eq_true_eq, ge_iff_le, UInt32.le_iff_toNat_le]
    at hdigit
  change 48 ≤ ch.toNat ∧ ch.toNat ≤ 57 at hdigit
  simp only [isdigit, Bool.and_eq_true, decide_eq_true_eq, UInt8.le_iff_toNat_le,
    Nat.toUInt8_eq, UInt8.toNat_ofNat']
  have hchar : ch.toNat % 2 ^ 8 = ch.toNat := Nat.mod_eq_of_lt (by omega)
  rwa [hchar]

/-- A text that begins as no value does is zero. -/
theorem a_text_of_no_value_is_zero :
    (∀ sprintf : literal → List UInt8, (∀ real, (sprintf real).head? ≠ some 120) →
      ∀ v, save_svalue sprintf v ≠ [120]) ∧
    restore_svalue ⟨100, 100, fun _ => 0, fun _ => 7⟩ [120, 0] (.T_NUMBER 5) start =
      .value (0, const0) start ∧
    safe_restore_svalue ⟨100, 100, fun _ => 0, fun _ => 7⟩ [120, 0] (.T_NUMBER 5) start =
      .value (0, const0) start := by
  refine ⟨fun sprintf hreal v h => ?_, rfl, rfl⟩
  cases v with
  | T_NUMBER number =>
    simp only [save_svalue, save_number] at h
    split_ifs at h
    · cases h
    · have hdigit := isdigit_of_mem_toDigits (n := number.toNat) (c := 120) (by
        rw [nil_append] at h
        rw [h]
        exact mem_singleton_self _)
      exact absurd hdigit (by decide)
  | T_REAL real =>
    simp only [save_svalue] at h
    exact hreal real (by rw [h]; rfl)
  | T_STRING | T_ARRAY | T_CLASS | T_MAPPING => simp [save_svalue] at h

end mudos.saved_values
