-- The laws of the file paths: a path that comes back stays below the directory of the mudlib,
-- and every path of that kind that the master lets through comes back.
import MudOS.FilePaths

open mudos.paths List

namespace mudos.file_paths

theorem dot_ne_slash : dot ≠ slash := by decide

/-! ## The search -/

theorem search_none {c : UInt8} {find s : text_t} (h : search c find s = none) :
    ¬ c :: find <:+: s := by
  induction s with
  | nil => simp
  | cons sc s ih =>
    unfold search at h
    split_ifs at h with hc
    intro hin
    rcases infix_cons_iff.1 hin with hp | hin
    · obtain ⟨t, ht⟩ := hp
      obtain ⟨hsc, rfl⟩ := cons_eq_cons.1 ht
      exact hc ⟨hsc.symm, by simp⟩
    · exact ih h hin

theorem search_some {c : UInt8} {find s r : text_t} (h : search c find s = some r) :
    ∃ u w, s = u ++ r ∧ r = c :: (find ++ w) ∧ ¬ c :: find <:+: u := by
  induction s with
  | nil => cases h
  | cons sc s ih =>
    unfold search at h
    split_ifs at h with hc
    · obtain ⟨rfl, hfind⟩ := hc
      cases h
      refine ⟨[], s.drop find.length, rfl, ?_, by simp⟩
      conv_lhs => rw [← take_append_drop find.length s, hfind]
    · obtain ⟨u, w, hs, hr, hu⟩ := ih h
      refine ⟨sc :: u, w, by rw [hs]; rfl, hr, ?_⟩
      intro hin
      rcases infix_cons_iff.1 hin with hp | hin
      · obtain ⟨t, ht⟩ := hp
        obtain ⟨hsc, rfl⟩ := cons_eq_cons.1 ht
        exact hc ⟨hsc.symm, by rw [hs]; simp⟩
      · exact hu hin

/-! ## One component -/

inductive Checked (p : text_t) : component_t → Prop
  | trailing_dot : p = [dot] → Checked p .trailing_dot
  | refused : ¬ Plain dot (components slash p) → Checked p .refused
  | passed (q : text_t) : q = p ∨ p = dot :: q →
      (∀ comp comps, components slash p = comp :: comps → comp ≠ [dot] ∧ comp ≠ [dot, dot]) →
      Checked p (.passed q)

theorem components_dots : components slash [dot] = [[dot]] ∧
    components slash [dot, dot] = [[dot, dot]] := by decide

theorem not_plain_dots {dots : text_t} (hdots : dots = [dot] ∨ dots = [dot, dot]) (p : text_t) :
    ¬ Plain dot (components slash (dots ++ slash :: p)) := by
  rw [components_append, Plain.append_iff (components_ne_nil slash p)]
  rintro ⟨h2, h1, _⟩
  rcases hdots with rfl | rfl
  · rw [components_dots.1] at h1
    simp at h1
  · rw [components_dots.2] at h2
    simp at h2

theorem check_component_checked (p : text_t) : Checked p (check_component p) := by
  by_cases hp : p[0]? = some dot
  · obtain ⟨p, rfl⟩ : ∃ p', p = dot :: p' := by
      cases p with
      | nil => simp at hp
      | cons c p =>
        obtain rfl : c = dot := by simpa using hp
        exact ⟨p, rfl⟩
    cases p with
    | nil => exact .trailing_dot rfl
    | cons d p =>
      by_cases hd : d = dot
      · subst hd
        cases p with
        | nil =>
          apply Checked.refused
          rintro ⟨h, _⟩
          rw [components_dots.2] at h
          simp at h
        | cons e p =>
          by_cases he : e = slash
          · subst he
            exact .refused (not_plain_dots (.inr rfl) p)
          · have hchecked : check_component (dot :: dot :: e :: p) = .passed (dot :: e :: p) := by
              simp [check_component, he]
            rw [hchecked]
            refine .passed _ (.inr rfl) ?_
            intro comp comps h
            obtain ⟨c1, l1, h1, h1'⟩ := components_cons he p
            obtain ⟨c2, l2, h2, h2'⟩ := components_cons dot_ne_slash (e :: p)
            obtain ⟨c3, l3, h3, h3'⟩ := components_cons dot_ne_slash (dot :: e :: p)
            rw [h1'] at h2
            cases h2
            rw [h2'] at h3
            cases h3
            rw [h3'] at h
            cases h
            simp
      · by_cases hs : d = slash
        · subst hs
          exact .refused (not_plain_dots (.inl rfl) p)
        · have hchecked : check_component (dot :: d :: p) = .passed (dot :: d :: p) := by
            simp [check_component, hd, hs]
          rw [hchecked]
          refine .passed _ (.inl rfl) ?_
          intro comp comps h
          obtain ⟨c1, l1, h1, h1'⟩ := components_cons hs p
          obtain ⟨c2, l2, h2, h2'⟩ := components_cons dot_ne_slash (d :: p)
          rw [h1'] at h2
          cases h2
          rw [h2'] at h
          cases h
          simp [hd]
  · have hchecked : check_component p = .passed p := by simp [check_component, hp]
    rw [hchecked]
    refine .passed _ (.inl rfl) ?_
    intro comp comps h
    have hhead := head_of_first dot_ne_slash h
    constructor
    · rintro rfl
      exact hp (by rw [← head?_eq_getElem?]; exact hhead.1 rfl)
    · rintro rfl
      exact hp (by rw [← head?_eq_getElem?]; exact hhead.1 rfl)

/-! ## The whole path -/

theorem no_dots_before {p : text_t} (hslash : ¬ [slash, dot] <:+: p)
    (hfirst : ∀ comp comps, components slash p = comp :: comps → comp ≠ [dot] ∧ comp ≠ [dot, dot]) :
    [dot, dot] ∉ components slash p ∧ [dot] ∉ components slash p := by
  obtain ⟨comp, comps, h⟩ := exists_cons_of_ne_nil (components_ne_nil slash p)
  obtain ⟨h1, h2⟩ := hfirst comp comps h
  obtain ⟨h3, h4⟩ := plain_of_head (head_of_others dot_ne_slash hslash h)
  rw [h]
  simp only [mem_cons, not_or]
  exact ⟨⟨h2.symm, h3⟩, h1.symm, h4⟩

theorem infix_of_cons_dot {p : text_t} (h : [slash, dot] <:+: dot :: p) :
    [slash, dot] <:+: p := by
  rcases infix_cons_iff.1 h with hp | h
  · obtain ⟨t, ht⟩ := hp
    exact absurd (cons_eq_cons.1 ht).1 dot_ne_slash.symm
  · exact h

theorem plain_after {p q r : text_t} (hq : q = p ∨ p = dot :: q)
    (hfirst : ∀ comp comps, components slash p = comp :: comps → comp ≠ [dot] ∧ comp ≠ [dot, dot])
    (hr : _strstr q [slash, dot] = some r) :
    Plain dot (components slash p) ↔ Plain dot (components slash (r.drop 1)) := by
  obtain ⟨u, w, hqr, hrw, hu⟩ := search_some hr
  obtain ⟨u', hp, hu'⟩ : ∃ u', p = u' ++ r ∧ ¬ [slash, dot] <:+: u' := by
    rcases hq with rfl | rfl
    · exact ⟨u, hqr, hu⟩
    · exact ⟨dot :: u, by rw [hqr]; rfl, fun h => hu (infix_of_cons_dot h)⟩
  have hcomps : components slash p = components slash u' ++ components slash (r.drop 1) := by
    rw [hp, hrw]
    exact components_append u' (dot :: w)
  have hbefore := no_dots_before hu' (fun comp comps h =>
    hfirst comp (comps ++ components slash (r.drop 1)) (by rw [hcomps, h]; rfl))
  rw [hcomps, Plain.append_iff (components_ne_nil slash _)]
  exact ⟨fun h => h.2.2, fun h => ⟨hbefore.1, hbefore.2, h⟩⟩

theorem legal_from_trailing_dot {p : text_t} (hp : check_component p = .trailing_dot) :
    legal_from p = true := by
  unfold legal_from
  split <;> simp_all

theorem legal_from_refused {p : text_t} (hp : check_component p = .refused) :
    legal_from p = false := by
  unfold legal_from
  split <;> simp_all

theorem legal_from_none {p q : text_t} (hp : check_component p = .passed q)
    (hq : _strstr q [slash, dot] = none) : legal_from p = true := by
  unfold legal_from
  split
  · rfl
  · simp_all
  · split <;> simp_all

theorem legal_from_some {p q r : text_t} (hp : check_component p = .passed q)
    (hr : _strstr q [slash, dot] = some r) : legal_from p = legal_from (r.drop 1) := by
  conv_lhs => unfold legal_from
  split
  · simp_all
  · simp_all
  · split <;> simp_all

theorem legal_from_plain (p : text_t) :
    legal_from p = true ↔ Plain dot (components slash p) := by
  induction p using legal_from.induct with
  | case1 p hp =>
    have h := check_component_checked p
    rw [hp] at h
    cases h with
    | trailing_dot h =>
      simp only [legal_from_trailing_dot hp, true_iff]
      rw [h, components_dots.1]
      exact ⟨by decide, by decide⟩
  | case2 p hp =>
    have h := check_component_checked p
    rw [hp] at h
    cases h with
    | refused h => simp [legal_from_refused hp, h]
  | case3 p q hp hq =>
    have h := check_component_checked p
    rw [hp] at h
    cases h with
    | passed _ hqp hfirst =>
      have hno : ¬ [slash, dot] <:+: p := by
        rcases hqp with rfl | rfl
        · exact search_none hq
        · exact fun h => search_none hq (infix_of_cons_dot h)
      obtain ⟨h2, h1⟩ := no_dots_before hno hfirst
      simp only [legal_from_none hp hq, true_iff]
      exact ⟨h2, fun h => h1 (dropLast_subset _ h)⟩
  | case4 p q hp r hr ih =>
    have h := check_component_checked p
    rw [hp] at h
    cases h with
    | passed _ hqp hfirst =>
      rw [legal_from_some hp hr, ih, plain_after hqp hfirst hr]

theorem legal_path_sandboxed (path : text_t) :
    legal_path (some path) = true ↔ Sandboxed path := by
  simp only [legal_path]
  split_ifs with hs hn
  · simp only [false_iff]
    intro h
    exact h.relative (by rw [head?_eq_getElem?]; exact hs)
  · simp only [false_iff]
    exact fun h => h.no_number_sign hn
  · rw [legal_from_plain]
    constructor
    · intro h
      exact ⟨by rw [Relative, head?_eq_getElem?]; exact hs, h, hn⟩
    · exact fun h => h.plain

theorem Sandboxed.stays {path : text_t} (h : Sandboxed path) (mudlib : List text_t) :
    ∀ dir ∈ walk slash dot mudlib path, mudlib <+: dir :=
  walk_stays h.relative h.plain.no_parent mudlib

/-! ## What comes back -/

theorem check_valid_path_eq_some (max_string_length : Nat)
    (apply_master_ob : apply_t → text_t → object_t → text_t → answer_t)
    (path : text_t) (call_object : Option object_t) (call_fun : text_t) (writeflg : Bool)
    (r : text_t) :
    check_valid_path max_string_length apply_master_ob path call_object call_fun writeflg = some r ↔
      ∃ approved, Approved max_string_length apply_master_ob path call_object call_fun writeflg
        approved ∧ r = without_slash approved ∧ Sandboxed r := by
  unfold check_valid_path Approved
  cases call_object with
  | none => simp
  | some ob =>
    cases hd : ob.destructed with
    | true => simp [hd]
    | false =>
      simp only [hd, Bool.false_eq_true, if_false, Option.some.injEq, exists_eq_left', true_and]
      generalize path_of_answer max_string_length path _ = looked
      cases looked with
      | none => simp
      | some approved =>
        simp only [Option.some.injEq, exists_eq_left']
        split_ifs with h
        · constructor
          · rintro ⟨rfl⟩
            exact ⟨rfl, (legal_path_sandboxed _).1 h⟩
          · rintro ⟨rfl, _⟩
            rfl
        · simp only [false_iff]
          rintro ⟨rfl, hr⟩
          exact h ((legal_path_sandboxed _).2 hr)

/-- A path that comes back names a file below the directory of the mudlib, and whatever the
master lets through comes back when it does that without the slash in front. -/
theorem check_valid_path_sandboxes (max_string_length : Nat)
    (apply_master_ob : apply_t → text_t → object_t → text_t → answer_t)
    (path : text_t) (call_object : Option object_t) (call_fun : text_t) (writeflg : Bool) :
    (∀ r, check_valid_path max_string_length apply_master_ob path call_object call_fun writeflg =
        some r →
      Sandboxed r ∧ ∀ mudlib : List text_t, ∀ dir ∈ walk slash dot mudlib r, mudlib <+: dir) ∧
    ∀ approved,
      Approved max_string_length apply_master_ob path call_object call_fun writeflg approved →
      Sandboxed (without_slash approved) →
      check_valid_path max_string_length apply_master_ob path call_object call_fun writeflg =
        some (without_slash approved) := by
  constructor
  · intro r h
    rw [check_valid_path_eq_some] at h
    obtain ⟨_, _, _, hr⟩ := h
    exact ⟨hr, hr.stays⟩
  · intro approved happroved h
    rw [check_valid_path_eq_some]
    exact ⟨approved, happroved, rfl, h⟩

/-- `//a` has no dots, and the master lets it through. -/
theorem two_slashes_are_refused :
    [dot, dot] ∉ components slash [slash, slash, 97] ∧ [dot] ∉ components slash [slash, slash, 97] ∧
    number_sign ∉ [slash, slash, (97 : UInt8)] ∧
    Approved 3 (fun _ _ _ _ => .number 1) [slash, slash, 97] (some ⟨[98], false⟩) [99] false
      [slash, slash, 97] ∧
    check_valid_path 3 (fun _ _ _ _ => .number 1) [slash, slash, 97] (some ⟨[98], false⟩) [99]
      false = none :=
  ⟨by decide, by decide, by decide, ⟨⟨[98], false⟩, rfl, rfl, rfl⟩, rfl⟩

end mudos.file_paths
