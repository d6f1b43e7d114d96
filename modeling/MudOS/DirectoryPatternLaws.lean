-- What `match_string` accepts: the language of the pattern, but at two or more stars at the
-- end only the names that leave something for the last of them.
import MudOS.DirectoryPatterns

open mudos.globs Option List

namespace mudos.directory_patterns

theorem star_ne_question_mark : ¬ star = question_mark := by decide

theorem backslash_ne_star : ¬ backslash = star := by decide

theorem backslash_ne_question_mark : ¬ backslash = question_mark := by decide

/-! ## One character of the pattern -/

def escaped {β : Type} (at_end : β) (again : UInt8 → text_t → β) : text_t → β
  | [] => at_end
  | c :: rest => again c rest

theorem match_string_cons (c : UInt8) (rest str : text_t) :
    match_string (c :: rest) str =
      if c = question_mark then a_character (match_string rest) str
      else if c = star then
        if rest = [] then true else any_tail (match_string rest) str
      else if c = backslash then
        escaped false (fun c rest => same_character c (match_string rest) str) rest
      else same_character c (match_string rest) str := by
  rw [match_string.eq_def]
  cases rest <;> rfl

theorem match_string_question_mark (rest str : text_t) :
    match_string (question_mark :: rest) str = a_character (match_string rest) str := by
  rw [match_string_cons, if_pos rfl]

theorem match_string_star (rest str : text_t) :
    match_string (star :: rest) str =
      if rest = [] then true else any_tail (match_string rest) str := by
  rw [match_string_cons, if_neg star_ne_question_mark, if_pos rfl]

theorem match_string_backslash (rest str : text_t) :
    match_string (backslash :: rest) str =
      escaped false (fun c rest => same_character c (match_string rest) str) rest := by
  rw [match_string_cons, if_neg backslash_ne_question_mark, if_neg backslash_ne_star, if_pos rfl]

theorem match_string_other {c : UInt8} (hq : ¬ c = question_mark) (hs : ¬ c = star)
    (hb : ¬ c = backslash) (rest str : text_t) :
    match_string (c :: rest) str = same_character c (match_string rest) str := by
  rw [match_string_cons, if_neg hq, if_neg hs, if_neg hb]

theorem pieces_nil : pieces [] = some [] := rfl

theorem pieces_cons (c : UInt8) (rest : text_t) :
    pieces (c :: rest) =
      if c = question_mark then (pieces rest).map (.one :: ·)
      else if c = star then (pieces rest).map (.any :: ·)
      else if c = backslash then
        escaped none (fun c rest => (pieces rest).map (.exactly c :: ·)) rest
      else (pieces rest).map (.exactly c :: ·) := by
  rw [pieces.eq_def]
  cases rest <;> rfl

theorem pieces_question_mark (rest : text_t) :
    pieces (question_mark :: rest) = (pieces rest).map (.one :: ·) := by
  rw [pieces_cons, if_pos rfl]

theorem pieces_star (rest : text_t) : pieces (star :: rest) = (pieces rest).map (.any :: ·) := by
  rw [pieces_cons, if_neg star_ne_question_mark, if_pos rfl]

theorem pieces_backslash (rest : text_t) : pieces (backslash :: rest) =
    escaped none (fun c rest => (pieces rest).map (.exactly c :: ·)) rest := by
  rw [pieces_cons, if_neg backslash_ne_question_mark, if_neg backslash_ne_star, if_pos rfl]

theorem pieces_other {c : UInt8} (hq : ¬ c = question_mark) (hs : ¬ c = star)
    (hb : ¬ c = backslash) (rest : text_t) :
    pieces (c :: rest) = (pieces rest).map (.exactly c :: ·) := by
  rw [pieces_cons, if_neg hq, if_neg hs, if_neg hb]

/-! ## What is accepted -/

/-- What a pattern of these pieces accepts; a star that is not the last piece leaves
something to the rest. -/
def Accepts : List (Piece UInt8) → text_t → Prop
  | [], name => name = []
  | .one :: rest, name => ∃ c v, name = c :: v ∧ Accepts rest v
  | .exactly c :: rest, name => ∃ v, name = c :: v ∧ Accepts rest v
  | .any :: rest, name => rest = [] ∨ ∃ u v, name = u ++ v ∧ v ≠ [] ∧ Accepts rest v

theorem any_tail_iff (matched : text_t → Bool) (str : text_t) :
    any_tail matched str = true ↔ ∃ u v, str = u ++ v ∧ v ≠ [] ∧ matched v = true := by
  induction str with
  | nil =>
    simp only [any_tail, Bool.false_eq_true, false_iff]
    rintro ⟨u, v, h, hv, _⟩
    exact hv (append_eq_nil_iff.1 h.symm).2
  | cons c str ih =>
    simp only [any_tail, Bool.or_eq_true, ih]
    constructor
    · rintro (h | ⟨u, v, rfl, hv, h⟩)
      · exact ⟨[], c :: str, rfl, by simp, h⟩
      · exact ⟨c :: u, v, rfl, hv, h⟩
    · rintro ⟨u, v, huv, hv, h⟩
      cases u with
      | nil =>
        left
        rwa [huv]
      | cons d u =>
        obtain ⟨_, rfl⟩ := cons_eq_cons.1 huv
        exact .inr ⟨u, v, rfl, hv, h⟩

theorem pieces_eq_nil {pattern : text_t} (h : pieces pattern = some []) : pattern = [] := by
  cases pattern using pieces.fun_cases with
  | case1 => rfl
  | case2 => simp [pieces_question_mark] at h
  | case3 => simp [pieces_star] at h
  | case4 | case5 => simp [pieces_backslash, escaped] at h
  | case6 c rest hq hs hb => simp [pieces_other hq hs hb] at h

theorem same_character_iff (c : UInt8) (again : text_t → Bool) (str : text_t) :
    same_character c again str = true ↔ ∃ v, str = c :: v ∧ again v = true := by
  cases str with
  | nil => simp [same_character]
  | cons s str =>
    by_cases h : c = s
    · subst h
      simp [same_character]
    · have hs : ¬ s = c := fun e => h e.symm
      simp [same_character, h, hs]

theorem a_character_iff (again : text_t → Bool) (str : text_t) :
    a_character again str = true ↔ ∃ c v, str = c :: v ∧ again v = true := by
  cases str with
  | nil => simp [a_character]
  | cons s str => simp [a_character]

theorem exactly_accepts (c : UInt8) (rest name : text_t)
    (ih : ∀ v, match_string rest v = true ↔ ∃ p, pieces rest = some p ∧ Accepts p v) :
    same_character c (match_string rest) name = true ↔
      ∃ p, (pieces rest).map (.exactly c :: ·) = some p ∧ Accepts p name := by
  simp only [same_character_iff, ih, map_eq_some_iff]
  constructor
  · rintro ⟨v, hname, p, hp, h⟩
    exact ⟨.exactly c :: p, ⟨p, hp, rfl⟩, v, hname, h⟩
  · rintro ⟨_, ⟨p, hp, rfl⟩, v, hname, h⟩
    exact ⟨v, hname, p, hp, h⟩

theorem match_string_accepts (pattern name : text_t) :
    match_string pattern name = true ↔ ∃ p, pieces pattern = some p ∧ Accepts p name := by
  induction pattern using pieces.induct generalizing name with
  | case1 => simp [match_string, pieces, Accepts]
  | case2 rest ih =>
    simp only [match_string_question_mark, pieces_question_mark, a_character_iff, ih,
      map_eq_some_iff]
    constructor
    · rintro ⟨c, v, hname, p, hp, h⟩
      exact ⟨.one :: p, ⟨p, hp, rfl⟩, c, v, hname, h⟩
    · rintro ⟨_, ⟨p, hp, rfl⟩, c, v, hname, h⟩
      exact ⟨c, v, hname, p, hp, h⟩
  | case3 rest _ ih =>
    by_cases hrest : rest = []
    · subst hrest
      rw [match_string_star, pieces_star, pieces_nil]
      simp [Accepts]
    · simp only [match_string_star, pieces_star, hrest, if_false, any_tail_iff, ih,
        map_eq_some_iff]
      constructor
      · rintro ⟨u, v, huv, hv, p, hp, h⟩
        exact ⟨.any :: p, ⟨p, hp, rfl⟩, .inr ⟨u, v, huv, hv, h⟩⟩
      · rintro ⟨_, ⟨p, hp, rfl⟩, rfl | ⟨u, v, huv, hv, h⟩⟩
        · exact absurd (pieces_eq_nil hp) hrest
        · exact ⟨u, v, huv, hv, p, hp, h⟩
  | case4 => simp [match_string_backslash, pieces_backslash, escaped]
  | case5 c rest _ _ ih =>
    simp only [match_string_backslash, pieces_backslash, escaped]
    exact exactly_accepts c rest name ih
  | case6 c rest hq hs hb ih =>
    simp only [match_string_other hq hs hb, pieces_other hq hs hb]
    exact exactly_accepts c rest name ih

/-! ## Against the language -/

theorem mem_language_of_accepts {p : List (Piece UInt8)} {name : text_t} (h : Accepts p name) :
    name ∈ language p := by
  induction p generalizing name with
  | nil => exact (mem_language_nil name).2 h
  | cons piece p ih =>
    cases piece with
    | one =>
      obtain ⟨c, v, hname, hv⟩ := h
      exact (mem_language_one_cons p name).2 ⟨c, v, hname, ih hv⟩
    | exactly c =>
      obtain ⟨v, hname, hv⟩ := h
      exact (mem_language_exactly_cons c p name).2 ⟨v, hname, ih hv⟩
    | any =>
      rw [mem_language_any_cons]
      rcases h with rfl | ⟨u, v, hname, _, hv⟩
      · exact ⟨name, [], by simp, by simp⟩
      · exact ⟨u, v, hname, ih hv⟩

theorem accepts_two_any (stem : List (Piece UInt8)) (name : text_t) :
    Accepts (stem ++ [.any, .any]) name ↔ ∃ u v, name = u ++ v ∧ v ≠ [] ∧ u ∈ language stem := by
  induction stem generalizing name with
  | nil =>
    constructor
    · rintro (h | ⟨u, v, hname, hv, _⟩)
      · cases h
      · refine ⟨[], name, rfl, ?_, by simp⟩
        rw [hname]
        simp [hv]
    · rintro ⟨u, v, hname, hv, _⟩
      exact .inr ⟨u, v, hname, hv, .inl rfl⟩
  | cons piece stem ih =>
    cases piece with
    | one =>
      simp only [cons_append, Accepts, ih, mem_language_one_cons]
      constructor
      · rintro ⟨c, _, rfl, u, v, rfl, hv, hu⟩
        exact ⟨c :: u, v, rfl, hv, c, u, rfl, hu⟩
      · rintro ⟨_, v, rfl, hv, c, u, rfl, hu⟩
        exact ⟨c, u ++ v, rfl, u, v, rfl, hv, hu⟩
    | exactly c =>
      simp only [cons_append, Accepts, ih, mem_language_exactly_cons]
      constructor
      · rintro ⟨_, rfl, u, v, rfl, hv, hu⟩
        exact ⟨c :: u, v, rfl, hv, u, rfl, hu⟩
      · rintro ⟨_, v, rfl, hv, u, rfl, hu⟩
        exact ⟨u ++ v, rfl, u, v, rfl, hv, hu⟩
    | any =>
      simp only [cons_append, Accepts, ih, mem_language_any_cons]
      constructor
      · rintro (h | ⟨x, _, rfl, _, u, v, rfl, hv, hu⟩)
        · simp at h
        · exact ⟨x ++ u, v, by simp, hv, x, u, rfl, hu⟩
      · rintro ⟨_, v, rfl, hv, x, u, rfl, hu⟩
        exact .inr ⟨x, u ++ v, by simp, by simp [hv], u, v, rfl, hv, hu⟩

theorem accepts_of_mem_language {p : List (Piece UInt8)} (hp : ∀ stem, p ≠ stem ++ [.any, .any])
    {name : text_t} (hname : name ∈ language p) : Accepts p name := by
  induction p generalizing name with
  | nil => exact (mem_language_nil name).1 hname
  | cons piece p ih =>
    have htail : ∀ stem, p ≠ stem ++ [.any, .any] := by
      rintro stem rfl
      exact hp (piece :: stem) rfl
    cases piece with
    | one =>
      obtain ⟨c, v, rfl, hv⟩ := (mem_language_one_cons p name).1 hname
      exact ⟨c, v, rfl, ih htail hv⟩
    | exactly c =>
      obtain ⟨v, rfl, hv⟩ := (mem_language_exactly_cons c p name).1 hname
      exact ⟨v, rfl, ih htail hv⟩
    | any =>
      by_cases hrest : p = []
      · exact .inl hrest
      · obtain ⟨u, v, rfl, hv⟩ := (mem_language_any_cons p name).1 hname
        refine .inr ⟨u, v, rfl, ?_, ih htail hv⟩
        -- a rest with the empty text would make two stars at the end
        rintro rfl
        have hany : ∀ piece ∈ Piece.any :: p, piece = .any := by
          intro piece hpiece
          rcases mem_cons.1 hpiece with rfl | hpiece
          · rfl
          · exact any_of_nil_mem hv piece hpiece
        have hlong : 2 ≤ (Piece.any :: p).length := by
          have := length_pos_iff.2 hrest
          simp only [length_cons]
          omega
        obtain ⟨stem, hstem⟩ := ends_with_two_any hany hlong
        exact hp stem hstem

theorem mem_language_two_any (stem : List (Piece UInt8)) (name : text_t) :
    name ∈ language (stem ++ [.any, .any]) ↔ ∃ u v, name = u ++ v ∧ u ∈ language stem := by
  rw [show stem ++ [.any, .any] = stem ++ [Piece.any] ++ [.any] by simp]
  simp only [mem_language_append_any]
  constructor
  · rintro ⟨_, w, rfl, u, v, rfl, hu⟩
    exact ⟨u, v ++ w, by simp, hu⟩
  · rintro ⟨u, v, rfl, hu⟩
    exact ⟨u, v, rfl, u, [], by simp, hu⟩

/-! ## When the answer is right -/

/-- `match_string` is the language of the pattern, but where two stars at its end have no
character left for the second one. -/
theorem match_string_is_language_iff (pattern name : text_t) :
    (match_string pattern name = true ↔ InLanguage pattern name) ↔
      ¬ LeavesNothing pattern name := by
  rw [match_string_accepts]
  constructor
  · rintro hright ⟨stem, hpieces, hmem, hshortest⟩
    have hin : InLanguage pattern name :=
      ⟨_, hpieces, (mem_language_two_any stem name).2 ⟨name, [], by simp, hmem⟩⟩
    obtain ⟨p, hp, haccepts⟩ := hright.2 hin
    obtain rfl : stem ++ [.any, .any] = p := some_inj.1 (hpieces.symm.trans hp)
    obtain ⟨u, v, huv, hv, hu⟩ := (accepts_two_any stem name).1 haccepts
    exact hv (hshortest u v huv hu)
  · intro hleaves
    constructor
    · rintro ⟨p, hp, haccepts⟩
      exact ⟨p, hp, mem_language_of_accepts haccepts⟩
    · rintro ⟨p, hp, hmem⟩
      refine ⟨p, hp, ?_⟩
      by_cases hends : ∃ stem, p = stem ++ [.any, .any]
      · obtain ⟨stem, rfl⟩ := hends
        by_contra hrefused
        have hnothing : ∀ u v, name = u ++ v → u ∈ language stem → v = [] := by
          intro u v huv hu
          by_contra hv
          exact hrefused ((accepts_two_any stem name).2 ⟨u, v, huv, hv, hu⟩)
        obtain ⟨u, v, huv, hu⟩ := (mem_language_two_any stem name).1 hmem
        have hv := hnothing u v huv hu
        have hname : name = u := by rw [huv, hv, append_nil]
        exact hleaves ⟨stem, hp, hname ▸ hu, hnothing⟩
      · exact accepts_of_mem_language (fun stem h => hends ⟨stem, h⟩) hmem

/-- Two stars, and the empty name. -/
theorem two_stars_refuse_the_empty_name :
    match_string [star, star] [] = false ∧ InLanguage [star, star] [] := by
  refine ⟨by decide, [.any, .any], by decide, ?_⟩
  exact (mem_language_two_any [] []).2 ⟨[], [], rfl, by simp⟩

end mudos.directory_patterns
