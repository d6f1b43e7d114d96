-- The law of `reg_assoc`: the pieces are the subject, every second one is the leftmost match after
-- the one before it, and each has the token that belongs to it.
import MudOS.RegAssoc

namespace mudos.matching

open mudos.cuts List Option

variable {R T : Type} {engine : regexp_t R} {str : List Char} {rgpp : List R}
variable {tmp : Nat} {rmph : List reg_match}
variable {r : R} {rmp : reg_match} {pat : List pattern_t}

/-! ## One search -/

def Best (engine : regexp_t R) (str : List Char) (rgpp : List R) (tmp : Nat) :
    Option reg_match → Prop
  | none => ∀ r ∈ rgpp, ∀ b e, ¬ engine.Matches r (str.drop tmp) b e
  | some rmp => Leftmost engine str rgpp tmp rmp

theorem getElem?_snoc {α : Type} {l : List α} {a r : α} {i : Nat} (h : (l ++ [a])[i]? = some r) :
    l[i]? = some r ∨ i = l.length ∧ r = a := by
  rcases Nat.lt_trichotomy i l.length with hlt | rfl | hgt
  · left
    rwa [getElem?_append_left hlt] at h
  · right
    rw [getElem?_concat_length] at h
    exact ⟨rfl, (some.inj h).symm⟩
  · rw [getElem?_eq_none (by simp; omega)] at h
    contradiction

theorem Best.missed {best : Option reg_match} (h : Best engine str rgpp tmp best)
    (hr : engine.regexec r (str.drop tmp) = none) : Best engine str (rgpp ++ [r]) tmp best := by
  have hno := engine.missed r _ hr
  cases best with
  | none =>
    intro r' hr' b e
    rcases mem_append.1 hr' with hr' | hr'
    · exact h r' hr' b e
    · rw [mem_singleton.1 hr']
      exact hno b e
  | some rmp =>
    obtain ⟨r', b, e, hindex, hfound, hbegin, hfin⟩ := h.found
    have hlt : rmp.tok_i < rgpp.length := (List.getElem?_eq_some_iff.1 hindex).1
    refine ⟨⟨r', b, e, ?_, hfound, hbegin, hfin⟩, ?_⟩
    · rwa [getElem?_append_left hlt]
    · intro i r'' b' e' hi hmatch
      rcases getElem?_snoc hi with hi | ⟨-, rfl⟩
      · exact h.least i r'' b' e' hi hmatch
      · exact absurd hmatch (hno b' e')

theorem Best.better {best : Option reg_match} (h : Best engine str rgpp tmp best) {b e : Nat}
    (hr : engine.regexec r (str.drop tmp) = some (b, e)) (hbest : ∀ rmp ∈ best, tmp + b < rmp.begin)
     :
    Leftmost engine str (rgpp ++ [r]) tmp ⟨rgpp.length, tmp + b, tmp + e⟩ := by
  refine ⟨⟨r, b, e, getElem?_concat_length, hr, rfl, rfl⟩, ?_⟩
  intro i r' b' e' hi hmatch
  rcases getElem?_snoc hi with hi | ⟨rfl, rfl⟩
  · left
    cases best with
    | none => exact absurd hmatch (h r' (mem_of_getElem? hi) b' e')
    | some rmp =>
      have hlt := hbest rmp rfl
      rcases h.least i r' b' e' hi hmatch with hleast | ⟨hleast, -⟩ <;> simp only <;> omega
  · have hfirst := (engine.found r' _ b e hr).2 b' e' hmatch
    simp only
    omega

theorem Leftmost.not_better (h : Leftmost engine str rgpp tmp rmp) {b e : Nat}
    (hr : engine.regexec r (str.drop tmp) = some (b, e)) (hbest : rmp.begin ≤ tmp + b) :
    Leftmost engine str (rgpp ++ [r]) tmp rmp := by
  obtain ⟨r', b', e', hindex, hfound, hbegin, hfin⟩ := h.found
  have hlt : rmp.tok_i < rgpp.length := (List.getElem?_eq_some_iff.1 hindex).1
  refine ⟨⟨r', b', e', ?_, hfound, hbegin, hfin⟩, ?_⟩
  · rwa [getElem?_append_left hlt]
  · intro i r'' b'' e'' hi hmatch
    rcases getElem?_snoc hi with hi | ⟨rfl, rfl⟩
    · exact h.least i r'' b'' e'' hi hmatch
    · have hfirst := (engine.found r'' _ b e hr).2 b'' e'' hmatch
      omega

theorem Leftmost.at_once (h : Leftmost engine str rgpp tmp rmp) (htmp : rmp.begin = tmp)
    (rest : List R) : Leftmost engine str (rgpp ++ rest) tmp rmp := by
  obtain ⟨r, b, e, hindex, hfound, hbegin, hfin⟩ := h.found
  have hlt : rmp.tok_i < rgpp.length := (List.getElem?_eq_some_iff.1 hindex).1
  refine ⟨⟨r, b, e, ?_, hfound, hbegin, hfin⟩, ?_⟩
  · rwa [getElem?_append_left hlt]
  · intro i r' b' e' hi hmatch
    by_cases hi' : i < rgpp.length
    · rw [getElem?_append_left hi'] at hi
      exact h.least i r' b' e' hi hmatch
    · omega

theorem next_match_best (engine : regexp_t R) (str : List Char) (tmp : Nat) (seen rest : List R)
    (best : Option reg_match) (h : Best engine str seen tmp best)
    (hlater : ∀ rmp ∈ best, tmp < rmp.begin) :
    Best engine str (seen ++ rest) tmp (next_match engine str tmp rest seen.length best) := by
  induction rest generalizing seen best with
  | nil =>
    rwa [append_nil]
  | cons r rest ih =>
    have hseen : seen ++ r :: rest = (seen ++ [r]) ++ rest := by simp
    have hlength : seen.length + 1 = (seen ++ [r]).length := by simp
    unfold next_match
    rw [hlength]
    cases hr : engine.regexec r (str.drop tmp) with
    | none =>
      rw [hseen]
      exact ih (seen ++ [r]) best (h.missed hr) hlater
    | some be =>
      obtain ⟨b, e⟩ := be
      simp only
      by_cases hat : tmp + b = tmp
      · rw [if_pos hat, hseen]
        refine (h.better hr ?_).at_once hat rest
        intro rmp hrmp
        have := hlater rmp hrmp
        omega
      · rw [if_neg hat, hseen]
        by_cases hbefore : (best.all fun laststart => tmp + b < laststart.begin) = true
        · rw [if_pos hbefore]
          refine ih (seen ++ [r]) _ (h.better hr ?_) ?_
          · intro rmp hrmp
            rw [hrmp] at hbefore
            simpa using hbefore
          · rintro rmp ⟨⟩
            simp only
            omega
        · rw [if_neg hbefore]
          cases best with
          | none => simp at hbefore
          | some rmp =>
            have hnot : rmp.begin ≤ tmp + b := by simpa using hbefore
            exact ih (seen ++ [r]) (some rmp) (Leftmost.not_better h hr hnot) hlater

/-! ## All searches -/

theorem Leftmost.inside (h : Leftmost engine str rgpp tmp rmp) (htmp : tmp ≤ str.length) :
    tmp ≤ rmp.begin ∧ rmp.begin ≤ rmp.fin ∧ rmp.fin ≤ str.length := by
  obtain ⟨r, b, e, -, hfound, hbegin, hfin⟩ := h.found
  obtain ⟨hbe, he⟩ := engine.inside r _ b e (engine.found r _ b e hfound).1
  rw [length_drop] at he
  omega

/-- Unless a search finds an empty match at the end of the subject, the matches are the ones that
are to be found, and they are found in so many turns. -/
theorem collect_searched (hend : ¬ Reached engine str rgpp (str.length + 1)) (fuel tmp : Nat)
    (hreached : Reached engine str rgpp tmp) (htmp : tmp ≤ str.length)
    (hfuel : str.length < tmp + fuel) :
    ∃ rmph, collect engine str rgpp fuel tmp = some rmph ∧
      Searched engine str rgpp tmp rmph := by
  induction fuel generalizing tmp with
  | zero => omega
  | succ fuel ih =>
    unfold collect
    by_cases hlt : tmp < str.length
    · rw [if_pos hlt]
      have hbest := next_match_best engine str tmp [] rgpp none (by simp [Best]) (by simp)
      rw [nil_append, length_nil] at hbest
      generalize next_match engine str tmp rgpp 0 none = best at hbest ⊢
      cases best with
      | none => exact ⟨[], rfl, .no_match hbest⟩
      | some rmp =>
        have hleftmost : Leftmost engine str rgpp tmp rmp := hbest
        have hinside := hleftmost.inside htmp
        have hnext := hreached.next hlt hleftmost
        simp only
        by_cases hempty : rmp.begin = rmp.fin
        · have hafter : rmp.after = rmp.fin + 1 := by
            unfold reg_match.after
            rw [if_pos hempty]
          have hfin : rmp.fin ≠ str.length := by
            intro hfin
            rw [hafter, hfin] at hnext
            exact hend hnext
          rw [if_pos hempty, if_neg hfin]
          rw [hafter] at hnext
          obtain ⟨rmph, hcollect, hsearched⟩ := ih _ hnext (by omega) (by omega)
          rw [hcollect]
          rw [← hafter] at hsearched
          exact ⟨rmp :: rmph, rfl, .next hlt hleftmost hsearched⟩
        · have hafter : rmp.after = rmp.fin := by
            unfold reg_match.after
            rw [if_neg hempty]
          rw [if_neg hempty]
          rw [hafter] at hnext
          obtain ⟨rmph, hcollect, hsearched⟩ := ih _ hnext (by omega) (by omega)
          rw [hcollect]
          rw [← hafter] at hsearched
          exact ⟨rmp :: rmph, rfl, .next hlt hleftmost hsearched⟩
    · have heq : tmp = str.length := by omega
      rw [if_neg hlt, heq]
      exact ⟨[], rfl, .ended⟩

/-! ## The arrays -/

def reg_match.interval (rmp : reg_match) : Nat × Nat := (rmp.begin, rmp.fin)

theorem searched_in_order (h : Searched engine str rgpp tmp rmph) :
    InOrder tmp (rmph.map reg_match.interval) := by
  induction h with
  | ended => exact .nil
  | no_match h => exact .nil
  | @next p rmp rmph hp hmatch h ih =>
    obtain ⟨hbegin, hfin, -⟩ := hmatch.inside (Nat.le_of_lt hp)
    refine .cons hbegin hfin (ih.earlier ?_)
    unfold reg_match.after reg_match.interval
    split <;> simp only <;> omega

theorem searched_tokens (h : Searched engine str rgpp tmp rmph) :
    ∀ rmp ∈ rmph, rmp.tok_i < rgpp.length := by
  induction h with
  | ended => simp
  | no_match h => simp
  | @next p rmp rmph hp hmatch h ih =>
    intro rmp' hrmp'
    rcases mem_cons.1 hrmp' with rfl | hrmp'
    · obtain ⟨r, b, e, hindex, -⟩ := hmatch.found
      exact (List.getElem?_eq_some_iff.1 hindex).1
    · exact ih rmp' hrmp'

def tokens_of (tok : List T) (default : T) : List reg_match → List T
  | [] => [default]
  | rmp :: rmph => default :: tok.getD rmp.tok_i default :: tokens_of tok default rmph

theorem tokens_of_length (tok : List T) (default : T) (rmph : List reg_match) :
    (tokens_of tok default rmph).length = 2 * rmph.length + 1 := by
  induction rmph with
  | nil => rfl
  | cons rmp rmph ih =>
    simp only [tokens_of, length_cons, ih]
    omega

theorem tokens_of_odd (tok : List T) (default : T) (rmph : List reg_match) (k : Nat) :
    (tokens_of tok default rmph)[2 * k + 1]? =
      (rmph[k]?).map fun rmp => tok.getD rmp.tok_i default := by
  induction rmph generalizing k with
  | nil =>
    rw [getElem?_nil, map_none]
    exact getElem?_eq_none (by simp [tokens_of])
  | cons rmp rmph ih =>
    cases k with
    | zero => rfl
    | succ k =>
      have hindex : 2 * (k + 1) + 1 = (2 * k + 1) + 1 + 1 := by omega
      simp [tokens_of, hindex, ih]

theorem tokens_of_even (tok : List T) (default : T) (rmph : List reg_match) (k : Nat)
    (hk : k ≤ rmph.length) : (tokens_of tok default rmph)[2 * k]? = some default := by
  induction rmph generalizing k with
  | nil =>
    rw [length_nil, Nat.le_zero] at hk
    rw [hk]
    rfl
  | cons rmp rmph ih =>
    cases k with
    | zero => rfl
    | succ k =>
      have hindex : 2 * (k + 1) = 2 * k + 1 + 1 := by omega
      rw [length_cons] at hk
      simp [tokens_of, hindex, ih k (by omega)]

theorem assemble_pieces {config : config_t} (hstr : str.length ≤ config.max_string_length)
    (tok : List T) (default : T) (tmp : Nat) (rmph : List reg_match)
    (htok : ∀ rmp ∈ rmph, rmp.tok_i < tok.length) :
    assemble config str tok default tmp rmph =
      some (pieces str tmp (rmph.map reg_match.interval), tokens_of tok default rmph) := by
  induction rmph generalizing tmp with
  | nil =>
    have hrest : (str.drop tmp).length ≤ config.max_string_length := by
      rw [length_drop]
      omega
    unfold assemble string_copy
    rw [take_of_length_le hrest]
    rfl
  | cons rmp rmph ih =>
    have hlt := htok rmp mem_cons_self
    unfold assemble
    rw [ih rmp.fin fun rmp' hrmp' => htok rmp' (mem_cons_of_mem _ hrmp')]
    simp [tokens_of, getElem?_eq_getElem hlt, pieces, reg_match.interval]

structure Associated (str : List Char) (tok : List T) (default : T) (rmph : List reg_match)
    (strings : List (List Char)) (tokens : List T) : Prop where
  strings_length : strings.length = 2 * rmph.length + 1
  tokens_length : tokens.length = 2 * rmph.length + 1
  whole : strings.flatten = str
  odd : ∀ (k : Nat) rmp, rmph[k]? = some rmp →
    strings[2 * k + 1]? = some (slice str rmp.begin rmp.fin) ∧
    tokens[2 * k + 1]? = tok[rmp.tok_i]?
  even : ∀ k ≤ rmph.length, tokens[2 * k]? = some default

theorem pieces_associated (tok : List T) (default : T) (h : Searched engine str rgpp 0 rmph)
    (htok : ∀ rmp ∈ rmph, rmp.tok_i < tok.length) :
    Associated str tok default rmph (pieces str 0 (rmph.map reg_match.interval))
      (tokens_of tok default rmph) := by
  refine ⟨?_, tokens_of_length tok default rmph, ?_, ?_, tokens_of_even tok default rmph⟩
  · rw [pieces_length, length_map]
  · rw [pieces_flatten str (searched_in_order h), drop_zero]
  · intro k rmp hrmp
    have hlt := htok rmp (mem_of_getElem? hrmp)
    rw [pieces_odd, tokens_of_odd, getElem?_map, hrmp]
    refine ⟨rfl, ?_⟩
    rw [map_some, getD_eq_getElem?_getD, getElem?_eq_getElem hlt]
    rfl

/-! ## The function -/

theorem searched_nothing {p : Nat} (h : Searched engine str [] p rmph) : rmph = [] := by
  cases h with
  | ended => rfl
  | no_match h => rfl
  | next hp hmatch h =>
    obtain ⟨r, b, e, hindex, -⟩ := hmatch.found
    simp at hindex

theorem compile_length {pat : List (List Char)} (h : compile engine pat = .ok rgpp) :
    rgpp.length = pat.length := by
  induction pat generalizing rgpp with
  | nil =>
    cases h
    rfl
  | cons text pat ih =>
    unfold compile at h
    cases hr : engine.regcomp text with
    | error regexp_error => simp [hr] at h
    | ok r =>
      cases hrest : compile engine pat with
      | error regexp_error => simp [hr, hrest, Except.map] at h
      | ok rest =>
        simp only [hr, hrest, Except.map, Except.ok.injEq] at h
        rw [← h, length_cons, length_cons, ih hrest]

theorem texts_length {l : List (List Char)} (h : texts pat = some l) : l.length = pat.length := by
  induction pat generalizing l with
  | nil =>
    cases h
    rfl
  | cons pattern pat ih =>
    cases pattern with
    | other => cases h
    | T_STRING text =>
      unfold texts at h
      cases hrest : texts pat with
      | none => simp [hrest] at h
      | some rest =>
        simp only [hrest, map_some, some.injEq] at h
        rw [← h, length_cons, length_cons, ih hrest]

theorem programs_compiled (h : programs engine pat = some rgpp) :
    ∃ l, texts pat = some l ∧ compile engine l = .ok rgpp ∧ rgpp.length = pat.length := by
  unfold programs at h
  obtain ⟨l, htexts, hcompile⟩ := bind_eq_some_iff.1 h
  cases hr : compile engine l with
  | error regexp_error => simp [hr, Except.toOption] at hcompile
  | ok rgpp' =>
    simp only [hr, Except.toOption, some.injEq] at hcompile
    subst hcompile
    exact ⟨l, htexts, hr, by rw [compile_length hr, texts_length htexts]⟩

theorem no_programs (config : config_t) (tok : List T) (default : T)
    (h : programs engine pat = none) :
    ∃ message, reg_assoc engine config str pat tok default = .error message := by
  unfold reg_assoc
  by_cases hsizes : pat.length ≠ tok.length
  · rw [if_pos hsizes]
    exact ⟨_, rfl⟩
  · rw [if_neg hsizes]
    unfold programs at h
    cases htexts : texts pat with
    | none => exact ⟨_, rfl⟩
    | some l =>
      simp only
      by_cases hmax : config.max_array_size < 2
      · rw [if_pos hmax]
        exact ⟨_, rfl⟩
      · rw [if_neg hmax]
        rw [htexts, bind_some] at h
        by_cases hempty : l = []
        · rw [hempty] at h
          contradiction
        · rw [if_neg hempty]
          cases hcompile : compile engine l with
          | error regexp_error => exact ⟨_, rfl⟩
          | ok rgpp => simp [hcompile, Except.toOption] at h

/-- For patterns that are programs: the matches are the ones that are to be found, and the arrays
belong to them, unless they would be too large. Nothing is said of a search that finds an empty
match at the end of the subject. -/
theorem reg_assoc_associates (engine : regexp_t R) (config : config_t) (str : List Char)
    (pat : List pattern_t) (tok : List T) (default : T) (hsizes : pat.length = tok.length)
    (hstr : str.length ≤ config.max_string_length) :
    (programs engine pat = none →
      ∃ message, reg_assoc engine config str pat tok default = .error message) ∧
    ∀ rgpp, programs engine pat = some rgpp → ¬ Reached engine str rgpp (str.length + 1) →
      ∃ rmph, Searched engine str rgpp 0 rmph ∧
        (2 ≤ config.max_array_size ∧ 2 * rmph.length + 1 ≤ config.max_array_size →
          ∃ strings tokens, reg_assoc engine config str pat tok default = .ret strings tokens ∧
            Associated str tok default rmph strings tokens) ∧
        (¬ (2 ≤ config.max_array_size ∧ 2 * rmph.length + 1 ≤ config.max_array_size) →
          reg_assoc engine config str pat tok default = .error illegal_array_size) := by
  refine ⟨no_programs config tok default, ?_⟩
  intro rgpp hprograms hend
  obtain ⟨l, htexts, hcompile, hlength⟩ := programs_compiled hprograms
  obtain ⟨rmph, hcollect, hsearched⟩ :=
    collect_searched hend (str.length + 1) 0 .start (Nat.zero_le _) (by omega)
  have htok : ∀ rmp ∈ rmph, rmp.tok_i < tok.length := by
    intro rmp hrmp
    rw [← hsizes, ← hlength]
    exact searched_tokens hsearched rmp hrmp
  have hassociated := pieces_associated tok default hsearched htok
  have hassemble := assemble_pieces hstr tok default 0 rmph htok
  refine ⟨rmph, hsearched, ?_⟩
  unfold reg_assoc
  rw [if_neg (by simpa using hsizes), htexts]
  simp only
  by_cases hmax : config.max_array_size < 2
  · rw [if_pos hmax]
    exact ⟨fun h => by omega, fun _ => rfl⟩
  · rw [if_neg hmax]
    by_cases hempty : l = []
    · subst hempty
      cases hcompile
      have hnothing := searched_nothing hsearched
      subst hnothing
      rw [if_pos rfl, string_copy, take_of_length_le hstr]
      exact ⟨fun _ => ⟨_, _, rfl, hassociated⟩, fun h => absurd ⟨by omega, by simp; omega⟩ h⟩
    · rw [if_neg hempty, hcompile]
      simp only [hcollect]
      by_cases hlarge : config.max_array_size < 2 * rmph.length + 1
      · rw [if_pos hlarge]
        exact ⟨fun h => by omega, fun _ => rfl⟩
      · rw [if_neg hlarge, hassemble]
        exact ⟨fun _ => ⟨_, _, rfl, hassociated⟩, fun h => by omega⟩

/-! ## An engine for single letters -/

def letters : regexp_t Char where
  regcomp text := if text.length = 1 then .ok (text.headD ' ') else .error "Regular expression"
  regexec c text := (text.findIdx? (· == c)).map fun i => (i, i + 1)
  Matches c text b e := text[b]? = some c ∧ e = b + 1
  inside := by
    rintro c text b e ⟨hb, rfl⟩
    have := (List.getElem?_eq_some_iff.1 hb).1
    omega
  found := by
    intro c text b e h
    obtain ⟨i, hi, heq⟩ := map_eq_some_iff.1 h
    obtain ⟨rfl, rfl⟩ := Prod.mk.inj heq
    obtain ⟨hlt, hc, hbefore⟩ := findIdx?_eq_some_iff_getElem.1 hi
    refine ⟨⟨?_, rfl⟩, ?_⟩
    · rw [getElem?_eq_getElem hlt]
      simpa using hc
    · rintro b' e' ⟨hb', -⟩
      by_contra hnot
      obtain ⟨hlt', hc'⟩ := List.getElem?_eq_some_iff.1 hb'
      have hbefore' := hbefore b' (by omega)
      simp [hc'] at hbefore'
  missed := by
    rintro c text h b e ⟨hb, -⟩
    rw [map_eq_none_iff, findIdx?_eq_none_iff] at h
    have := h c (mem_of_getElem? hb)
    simp at this

theorem letters_reached {rgpp : List Char} {p : Nat} (h : Reached letters str rgpp p) :
    p ≤ str.length := by
  cases h with
  | start => exact Nat.zero_le _
  | @next p rmp h hp hmatch =>
    obtain ⟨r, b, e, hindex, hfound, hbegin, hfin⟩ := hmatch.found
    obtain ⟨-, he⟩ := (letters.found r _ b e hfound).1
    have hinside := hmatch.inside (Nat.le_of_lt hp)
    unfold reg_match.after
    rw [if_neg (by omega)]
    exact hinside.2.2

theorem the_letter_a_is_found :
    ∃ rmph, Searched letters ['b', 'a'] ['a'] 0 rmph ∧
      (2 ≤ 15 ∧ 2 * rmph.length + 1 ≤ 15 →
        ∃ strings tokens,
          reg_assoc letters ⟨15, 100⟩ ['b', 'a'] [.T_STRING ['a']] [1] 0 = .ret strings tokens ∧
            Associated ['b', 'a'] [1] 0 rmph strings tokens) ∧
      (¬ (2 ≤ 15 ∧ 2 * rmph.length + 1 ≤ 15) →
        reg_assoc letters ⟨15, 100⟩ ['b', 'a'] [.T_STRING ['a']] [1] 0 =
          .error illegal_array_size) := by
  have hend : ¬ Reached letters ['b', 'a'] ['a'] 3 := by
    intro h
    have := letters_reached h
    simp at this
  exact (reg_assoc_associates letters ⟨15, 100⟩ ['b', 'a'] [.T_STRING ['a']] ([1] : List Nat) 0
    rfl (by decide)).2 ['a'] rfl hend

/-- With three matches the arrays have seven elements. -/
theorem too_many_matches :
    [pattern_t.T_STRING ['a']].length = [1].length ∧ ∀ strings tokens,
      reg_assoc letters ⟨5, 100⟩ ['a', 'a', 'a'] [.T_STRING ['a']] [1] 0 ≠ .ret strings tokens := by
  refine ⟨rfl, ?_⟩
  intro strings tokens h
  have herror : reg_assoc letters ⟨5, 100⟩ ['a', 'a', 'a'] [.T_STRING ['a']] [1] 0 =
      .error illegal_array_size := by
    decide
  simp [herror] at h

example : reg_assoc letters ⟨15, 100⟩ ['b', 'a', 'a'] [.T_STRING ['a']] [1] 0 =
    .ret [['b'], ['a'], [], ['a'], []] [0, 1, 0, 1, 0] := by decide

end mudos.matching
