-- Values and objects are restored without a step outside of the text, the table
-- and the containers, and without a block that is freed twice, in every run in
-- which the texts are sound where the code comes to them.
import MudOS.SavedObjects
import MudOS.SavedTextLaws

open mudos.runs List Option

namespace mudos.saved_values

variable {idx : Nat} {d : driver}

/-! ## Variables by name -/

mutual

theorem fgv_recurse_spec (name : List UInt8) : ∀ (prog : program_t) (idx : Nat),
    match fgv_recurse name prog idx with
    | .inl (i, _) => i < idx + num_variables prog
    | .inr i => i = idx + num_variables prog
  | .mk inherit variable_table, idx => by
    have hinherit := fgv_inherit_spec name inherit idx
    unfold fgv_recurse num_variables
    rcases hfound : fgv_inherit name inherit idx with ⟨i, type⟩ | i
    · simp only [hfound] at hinherit ⊢
      omega
    · simp only [hfound] at hinherit ⊢
      rcases hself : variable_table.findIdx? fun v => v.1 = name with _ | j
      · simp only [hself]
        omega
      · obtain ⟨hj, -⟩ := findIdx?_eq_some_iff_getElem.mp hself
        simp only [hself]
        omega

theorem fgv_inherit_spec (name : List UInt8) : ∀ (inherit : List (program_t × Bool)) (idx : Nat),
    match fgv_inherit name inherit idx with
    | .inl (i, _) => i < idx + inherited_variables inherit
    | .inr i => i = idx + inherited_variables inherit
  | [], idx => rfl
  | (prog, type_mod) :: inherit, idx => by
    have hprog := fgv_recurse_spec name prog idx
    unfold fgv_inherit inherited_variables
    rcases hfound : fgv_recurse name prog idx with ⟨i, type⟩ | i
    · simp only [hfound] at hprog ⊢
      omega
    · simp only [hfound] at hprog ⊢
      have hinherit := fgv_inherit_spec name inherit i
      rcases hrest : fgv_inherit name inherit i with ⟨i', type⟩ | i'
      · simp only [hrest] at hinherit ⊢
        omega
      · simp only [hrest] at hinherit ⊢
        omega

end

theorem find_global_variable_lt {prog : program_t} {name : List UInt8}
    (h : find_global_variable prog name = some idx) : idx < num_variables prog := by
  have hspec := fgv_recurse_spec name prog 0
  unfold find_global_variable at h
  rcases hfound : fgv_recurse name prog 0 with ⟨i, type⟩ | i
  · simp only [hfound, Nat.zero_add] at hspec h
    split_ifs at h
    cases h
    exact hspec
  · simp [hfound] at h

/-! ## Lines -/

theorem Ended.found {delim : UInt8} {cp cp' : List UInt8} (hd : delim ≠ 0) (h : Ended cp)
    (hfind : strchr delim cp = .found cp') : Ended cp' := by
  fun_induction strchr delim cp with
  | case1 => cases hfind
  | case2 cp =>
    cases hfind
    exact h.tail hd
  | case3 => cases hfind
  | case4 c cp _ hc ih => exact ih (h.tail hc) hfind

theorem next_line_spec {buff : List UInt8} (h : Ended buff) :
    Ended ((next_line buff).1 ++ [0]) ∧
      ∀ nextBuff, (next_line buff).2 = some nextBuff →
        Ended nextBuff ∧ nextBuff.length < buff.length := by
  unfold next_line
  induction buff with
  | nil => exact absurd rfl h.ne_nil
  | cons c buff ih =>
    by_cases h0 : c = 0
    · subst h0
      simp [Ended]
    by_cases h10 : c = 10
    · subst h10
      simp only [takeWhile_cons, dropWhile_cons]
      refine ⟨⟨[], by simp, rfl⟩, fun nextBuff heq => ?_⟩
      cases heq
      exact ⟨h.tail h0, by simp⟩
    · obtain ⟨hline, hnext⟩ := ih (h.tail h0)
      have hc : (decide (c ≠ 10) && decide (c ≠ 0)) = true := by simp [h0, h10]
      simp only [takeWhile_cons, dropWhile_cons, hc, if_true]
      refine ⟨?_, fun nextBuff heq => ?_⟩
      · dsimp only at hline
        obtain ⟨t, ht, heq⟩ := hline
        refine ⟨c :: t, ?_, by rw [cons_append, cons_append, heq]⟩
        rw [mem_cons, not_or]
        exact ⟨Ne.symm h0, ht⟩
      · obtain ⟨hended, hlt⟩ := hnext nextBuff heq
        exact ⟨hended, by simp only [length_cons]; omega⟩

/-! ## Variables and their blocks -/

theorem item_blocks_perm {l l' : List svalue_t} (h : l.Perm l') :
    (item_blocks l).Perm (item_blocks l') := by
  have heq : ∀ l, item_blocks l = l.flatMap svalue_t.blocks := by
    intro l
    induction l with
    | nil => rfl
    | cons v l ih => simp [item_blocks, ih]
  rw [heq, heq]
  exact h.flatMap_right _

theorem item_blocks_others {sv : List svalue_t} {v : svalue_t} (h : sv[idx]? = some v) :
    (item_blocks sv).Perm (v.blocks ++ item_blocks (sv.eraseIdx idx)) ∧
      ∀ v', (item_blocks (sv.set idx v')).Perm (v'.blocks ++ item_blocks (sv.eraseIdx idx)) := by
  obtain ⟨hidx, rfl⟩ := List.getElem?_eq_some_iff.mp h
  exact ⟨item_blocks_perm (getElem_cons_eraseIdx_perm hidx).symm,
    fun v' => item_blocks_perm (set_perm_cons_eraseIdx hidx v')⟩

theorem clear_non_statics_spec (clear : List Bool) : ∀ (sv : List svalue_t) (d : driver)
    (base : List Nat), d.live.Perm (item_blocks sv ++ base) →
    ∃ sv' d', clear_non_statics clear sv d = .value sv' d' ∧ sv'.length = sv.length ∧
      d'.live.Perm (item_blocks sv' ++ base) ∧ SameTable d d' ∧
      d'.save_svalue_depth = d.save_svalue_depth := by
  induction clear with
  | nil => exact fun sv d base h => ⟨sv, d, by cases sv <;> rfl, rfl, h, .refl d, rfl⟩
  | cons clear l ih =>
    intro sv d base h
    rcases sv with _ | ⟨v, sv⟩
    · exact ⟨[], d, rfl, rfl, h, .refl d, rfl⟩
    generalize hkept : (if clear then const0 else v) = kept
    have hsplit : d.live.Perm ((if clear then v.blocks else []) ++
        (item_blocks sv ++ (kept.blocks ++ base))) := by
      refine h.trans ?_
      subst hkept
      rw [perm_iff_count]
      intro b
      split_ifs <;> simp only [item_blocks, svalue_t.blocks, count_append, count_nil] <;>
        omega
    obtain ⟨d₁, hfree, hlive₁, hsame₁, hdepth₁⟩ := free_blocks_spec hsplit
    obtain ⟨sv', d₂, hclear, hlen, hlive₂, hsame₂, hdepth₂⟩ := ih sv d₁ _ hlive₁
    refine ⟨kept :: sv', d₂, ?_, by simp [hlen], ?_, hsame₁.trans hsame₂, hdepth₂.trans hdepth₁⟩
    · simp [clear_non_statics, hfree, outcome.bind, outcome.handle, hclear, hkept]
    · refine hlive₂.trans ?_
      rw [perm_iff_count]
      intro b
      simp only [item_blocks, count_append]
      omega

/-! ## Objects -/

/-- The buffer has a line with the text for a variable that is saved. -/
inductive Holds (prog : program_t) : List UInt8 → List UInt8 → Prop
  | here {buff cp : List UInt8} {idx : Nat} (hcomment : (next_line buff).1.head? ≠ some 35)
      (hfind : strchr 32 ((next_line buff).1 ++ [0]) = .found cp)
      (hspace : (next_line buff).1.length - cp.length < 100)
      (hvar : find_global_variable prog
        ((next_line buff).1.take ((next_line buff).1.length - cp.length)) = some idx) :
      Holds prog buff cp
  | later {buff nextBuff cp : List UInt8} (h : (next_line buff).2 = some nextBuff)
      (hnext : Holds prog nextBuff cp) : Holds prog buff cp

structure Variables (n : Nat) (sv : List svalue_t) (d : driver) : Prop where
  table : Table d
  length : sv.length = n
  blocks : ∃ base, d.live.Perm (item_blocks sv ++ base)

/-- There is a value, and the variables are there, also after an error(). -/
def outcome.Keeps (n : Nat) (o : outcome (List svalue_t × Bool)) : Prop :=
  ∃ sv failed d, o = .value (sv, failed) d ∧ Variables n sv d

theorem Variables.set {n : Nat} {sv : List svalue_t} {d' : driver} {v v' : svalue_t}
    (h : Variables n sv d) (hv : sv[idx]? = some v) (ht : Table d')
    (hblocks : ∀ base, d.live.Perm (v.blocks ++ base) →
      ∃ lost, d'.live.Perm (v'.blocks ++ (lost ++ base))) : Variables n (sv.set idx v') d' := by
  obtain ⟨hself, hset⟩ := item_blocks_others hv
  obtain ⟨base, hbase⟩ := h.blocks
  have hlive : d.live.Perm (v.blocks ++ (item_blocks (sv.eraseIdx idx) ++ base)) := by
    rw [← append_assoc]
    exact hbase.trans (hself.append_right base)
  obtain ⟨lost, hlost⟩ := hblocks _ hlive
  refine ⟨ht, by rw [length_set, h.length], lost ++ base, hlost.trans ?_⟩
  have hset' := hset v'
  rw [perm_iff_count] at hset' ⊢
  intro b
  have hb := hset' b
  simp only [count_append] at hb ⊢
  omega

theorem Variables.lose {n : Nat} {sv : List svalue_t} {d' : driver} (h : Variables n sv d)
    (ht : Table d') (hlost : ∃ lost, d'.live.Perm (lost ++ d.live)) : Variables n sv d' := by
  obtain ⟨base, hbase⟩ := h.blocks
  obtain ⟨lost, hlive⟩ := hlost
  refine ⟨ht, h.length, lost ++ base, hlive.trans ((hbase.append_left lost).trans ?_)⟩
  rw [← append_assoc, ← append_assoc]
  exact perm_append_comm.append_right base

theorem Sound.mono {depth depth' : Nat} {cp : List UInt8} (h : Sound depth cp)
    (hdepth : depth' = 0 ∨ depth' = depth) : Sound depth' cp := by
  refine ⟨h.string, fun ch s k heq hk => ?_⟩
  obtain ⟨h0, hdelimited⟩ := h.container ch s k heq hk
  exact ⟨by omega, hdelimited⟩

theorem keeps_restore_object_from_buff (c : config) (prog : program_t) (noclear : Bool)
    (depth n : Nat) : ∀ (buff : List UInt8) (sv : List svalue_t) (d : driver), Ended buff →
    buff.length < n → Variables (num_variables prog) sv d →
    (d.save_svalue_depth = 0 ∨ d.save_svalue_depth = depth) →
    (∀ cp, Holds prog buff cp → Sound depth cp) →
    (restore_object_from_buff c prog noclear n buff sv d).Keeps (num_variables prog) := by
  induction n with
  | zero => exact fun _ _ _ _ hlen => absurd hlen (Nat.not_lt_zero _)
  | succ n ih =>
    intro buff sv d hended hlen hsv hdepth hsound
    obtain ⟨hline, hnext⟩ := next_line_spec hended
    have hlater : ∀ nextBuff, (next_line buff).2 = some nextBuff →
        ∀ cp, Holds prog nextBuff cp → Sound depth cp :=
      fun nextBuff h cp hcp => hsound cp (.later h hcp)
    have hhere : ∀ cp idx, (next_line buff).1.head? ≠ some 35 →
        strchr 32 ((next_line buff).1 ++ [0]) = .found cp →
        (next_line buff).1.length - cp.length < 100 →
        find_global_variable prog
          ((next_line buff).1.take ((next_line buff).1.length - cp.length)) = some idx →
        Sound depth cp :=
      fun cp idx h1 h2 h3 h4 => hsound cp (.here h1 h2 h3 h4)
    unfold restore_object_from_buff
    rcases hnl : next_line buff with ⟨line, nextBuff⟩
    simp only [hnl] at hline hnext hlater hhere ⊢
    have hgo : ∀ sv' d', Variables (num_variables prog) sv' d' →
        (d'.save_svalue_depth = 0 ∨ d'.save_svalue_depth = depth) →
        (go_on (fun buff => restore_object_from_buff c prog noclear n buff sv' d') nextBuff sv'
          d').Keeps (num_variables prog) := by
      intro sv' d' hsv' hdepth'
      rcases nextBuff with _ | nextBuff
      · exact ⟨_, _, _, rfl, hsv'⟩
      obtain ⟨hended', hlt⟩ := hnext nextBuff rfl
      simp only [go_on]
      split_ifs
      · exact ⟨_, _, _, rfl, hsv'⟩
      · exact ih nextBuff sv' d' hended' (by omega) hsv' hdepth' (hlater nextBuff rfl)
    by_cases hcomment : line.head? = some 35
    · simp only [hcomment, if_true]
      exact hgo sv d hsv hdepth
    simp only [hcomment, if_false]
    have hstops := stops_strchr (show (32 : UInt8) ≠ 0 by decide) (line ++ [0]) hline.nul
    rcases hfind : strchr 32 (line ++ [0]) with cp | _ | _
    · by_cases hspace : line.length - cp.length ≥ 100
      · simp only [hspace, if_true]
        exact ⟨_, _, _, rfl, hsv⟩
      simp only [hspace, if_false]
      rcases hvar : find_global_variable prog (line.take (line.length - cp.length)) with _ | idx
      · exact hgo sv d hsv hdepth
      have hidx : idx < sv.length := hsv.length ▸ find_global_variable_lt hvar
      obtain ⟨v, hv⟩ : ∃ v, sv[idx]? = some v := ⟨sv[idx], getElem?_eq_getElem hidx⟩
      have hcp := (hhere cp idx hcomment hfind (by omega) hvar).mono hdepth
      have hended' := hline.found (by decide) hfind
      have hown : ∃ base, d.live.Perm (v.blocks ++ base) := by
        obtain ⟨base, hbase⟩ := hsv.blocks
        refine ⟨item_blocks (sv.eraseIdx idx) ++ base, ?_⟩
        rw [← append_assoc]
        exact hbase.trans ((item_blocks_others hv).1.append_right base)
      have hsettles : (if noclear then safe_restore_svalue c cp v d
          else restore_svalue c cp v d).Settles d.save_svalue_depth d.live v
            (Restored cp ∨ Overlooked cp) := by
        split_ifs
        · exact settles_safe_restore_svalue c v hown hsv.table hended' hcp
        · exact settles_restore_svalue c v hsv.table hended' hcp
      simp only [hv]
      generalize (if noclear = true then safe_restore_svalue c cp v d
        else restore_svalue c cp v d) = o at hsettles ⊢
      rcases o with ⟨⟨code, v'⟩, d'⟩ | _ | d' | _
      · obtain ⟨hready, ⟨hcode, rfl, hlive⟩ | ⟨rfl, -, hlive⟩⟩ := hsettles
        · simp only [hcode, ne_eq, not_false_eq_true, if_true]
          refine ⟨_, _, _, rfl, hsv.set hv hready.table fun base hbase => ⟨[], hlive.trans hbase⟩⟩
        · apply hgo _ _ (hsv.set hv hready.table hlive)
          have := hready.depth
          omega
      · exact hsettles.elim
      · exact ⟨_, _, _, rfl, hsv.lose hsettles.1 hsettles.2⟩
      · exact hsettles.elim
    · exact ⟨_, _, _, rfl, hsv⟩
    · exact absurd hfind hstops.inside

theorem keeps_restore_object (c : config) (prog : program_t) {buff : List UInt8} (noclear : Bool)
    {sv : List svalue_t} (hended : Ended buff) (hsv : Variables (num_variables prog) sv d)
    (hsound : ∀ cp, Holds prog buff cp → Sound d.save_svalue_depth cp) :
    (restore_object c prog buff noclear sv d).Keeps (num_variables prog) := by
  obtain ⟨sv', d', hclear, hsv', hdepth⟩ : ∃ sv' d',
      (if noclear then .value sv d else clear_non_statics (cns_recurse prog) sv d) =
        outcome.value sv' d' ∧ Variables (num_variables prog) sv' d' ∧
          d'.save_svalue_depth = d.save_svalue_depth := by
    split_ifs
    · exact ⟨sv, d, rfl, hsv, rfl⟩
    · obtain ⟨base, hbase⟩ := hsv.blocks
      obtain ⟨sv', d', hclear, hlen, hlive, hsame, hdepth⟩ :=
        clear_non_statics_spec (cns_recurse prog) sv d base hbase
      exact ⟨sv', d', hclear, ⟨hsame.table hsv.table, hlen.trans hsv.length, base, hlive⟩, hdepth⟩
  simp only [restore_object, hclear, outcome.bind, outcome.handle, go_on]
  split_ifs
  · exact ⟨_, _, _, rfl, hsv'⟩
  · exact keeps_restore_object_from_buff c prog noclear d.save_svalue_depth _ buff sv' d' hended
      (Nat.lt_succ_self _) hsv' (.inr hdepth) hsound

/-! ## Runs -/

def Careful (prog : program_t) (w : world) : action → Prop
  | .save_variable _ => True
  | .restore_variable str => Sound w.driver.save_svalue_depth str.memory
  | .restore_object theBuff _ =>
    ∀ cp, Holds prog theBuff.memory cp → Sound w.driver.save_svalue_depth cp

structure Intact (prog : program_t) (w : world) : Prop where
  fault : w.fault = none
  sv : Variables (num_variables prog) w.sv w.driver

theorem intact_first_world (prog : program_t) : Intact prog (first_world prog) := by
  refine ⟨rfl, ?_, by simp [first_world], [], ?_⟩
  · simp [first_world, start, Table]
  · have hnone : ∀ n, item_blocks (List.replicate n const0) = [] := by
      intro n
      induction n with
      | zero => rfl
      | succ n ih => simpa [replicate_succ, item_blocks, svalue_t.blocks] using ih
    simp [first_world, start, hnone]

theorem intact_step {c : config} {prog : program_t} {w w' : world} {a : action}
    (h : Intact prog w) (ha : Careful prog w a) (hs : step c prog w a = some w') :
    Intact prog w' := by
  obtain ⟨hfault, hsv⟩ := h
  cases a with
  | save_variable v =>
    simp only [step, hfault, isSome_none, Bool.false_eq_true, if_false,
      some.injEq] at hs
    subst hs
    exact ⟨rfl, hsv.table, hsv.length, hsv.blocks⟩
  | restore_variable str =>
    have hsettles := settles_restore_svalue c (.T_NUMBER (c.memory 0)) hsv.table
      (ended_memory str) ha
    simp only [step, hfault, isSome_none, Bool.false_eq_true, if_false] at hs
    generalize restore_svalue c str.memory (.T_NUMBER (c.memory 0)) w.driver = o at hsettles hs
    rcases o with ⟨⟨code, v'⟩, d⟩ | _ | d | _
    · cases hs
      refine ⟨rfl, hsv.lose hsettles.1.table ?_⟩
      obtain ⟨-, ⟨-, -, hlive⟩ | ⟨-, -, hlive⟩⟩ := hsettles
      · exact ⟨[], hlive⟩
      · obtain ⟨lost, hlost⟩ := hlive w.driver.live (.refl _)
        exact ⟨v'.blocks ++ lost, by rwa [append_assoc]⟩
    · exact hsettles.elim
    · cases hs
      exact ⟨rfl, hsv.lose hsettles.1 hsettles.2⟩
    · exact hsettles.elim
  | restore_object theBuff noclear =>
    obtain ⟨sv', failed, d', ho, hsv'⟩ :=
      keeps_restore_object c prog noclear (ended_memory theBuff) hsv ha
    simp only [step, hfault, isSome_none, Bool.false_eq_true, if_false, ho,
      some.injEq] at hs
    subst hs
    exact ⟨rfl, hsv'⟩

theorem restoring_stays_inside {c : config} {prog : program_t} {w : world}
    (h : Reachable (first_world prog) (step c prog) (Careful prog) w) : w.fault = none :=
  (h.inv (intact_first_world prog) fun _ _ _ hi hok hs => intact_step hi hok hs).fault

/-- An array with a number, and then a string for the one variable of an object. -/
theorem an_array_and_a_string_are_restored :
    ∃ w, Reachable (first_world (.mk [] [([120], false)]))
        (step ⟨100, 100, fun _ => 0, fun _ => 7⟩ (.mk [] [([120], false)]))
        (Careful (.mk [] [([120], false)])) w ∧
      w.sv = [.T_STRING 2 [97]] ∧ w.fault = none := by
  have hcounted : ∀ n l rest, Counted Any false false [53, 44, 125, 41, 0] n l rest →
      Counted Separated false false [53, 44, 125, 41, 0] n l rest := by
    intro n l rest h
    cases h with
    | skipped hch hfind _ hrest =>
      cases hfind
      cases hrest with
      | close_items hch' =>
        refine .skipped hch rfl ?_ (.close_items hch')
        intro v c cp' _ hv
        cases hv
        rfl
      | skipped hch' => exact absurd rfl hch'.2.2.2.2.2.1
  have hholds : ∀ cp, Holds (.mk [] [([120], false)]) [120, 32, 34, 97, 34, 10, 0] cp →
      cp = [34, 97, 34, 0] := by
    intro cp h
    cases h with
    | here _ hfind =>
      cases hfind
      rfl
    | later h hnext =>
      cases h
      cases hnext with
      | here _ hfind => cases hfind
      | later h => cases h
  have hok : Along (step ⟨100, 100, fun _ => 0, fun _ => 7⟩ (.mk [] [([120], false)]))
      (Careful (.mk [] [([120], false)])) (first_world (.mk [] [([120], false)]))
      [.restore_variable ⟨[40, 123, 53, 44, 125, 41], by decide⟩,
        .restore_object ⟨[120, 32, 34, 97, 34, 10], by decide⟩ true] := by
    refine ⟨⟨fun s heq => (by cases heq), fun ch s k heq hk => ⟨rfl, ?_⟩⟩, fun w hw => ⟨?_, ?_⟩⟩
    · cases heq
      cases hk
      exact hcounted
    · intro cp hcp
      obtain rfl := hholds cp hcp
      refine ⟨fun s heq => ?_, fun ch s k heq => (by cases heq)⟩
      cases heq
      intro h
      cases h with
      | char _ _ _ h =>
        cases h with
        | char h34 => exact h34 rfl
    · exact fun _ _ => trivial
  refine ⟨_, Reachable.of_run .start hok rfl, rfl, ?_⟩
  exact restoring_stays_inside (Reachable.of_run .start hok rfl)

/-- A string without a quote behind an escape, a container behind a number that does not end at its
separator, and a table that is not there when a value was too deep to be saved. -/
theorem texts_lead_outside :
    (∃ w, run (step ⟨100, 100, fun _ => 0, fun _ => 7⟩ (.mk [] [])) (first_world (.mk [] []))
      [.restore_variable ⟨[34, 92, 97], by decide⟩] = some w ∧ w.fault = some .outside) ∧
    (∃ w, run (step ⟨100, 100, fun _ => 0, fun _ => 7⟩ (.mk [] [])) (first_world (.mk [] []))
      [.restore_variable ⟨[40, 123, 53, 120, 40, 123, 125, 41, 44, 50, 44, 125, 41], by decide⟩] =
        some w ∧ w.fault = some .outside) ∧
    (∃ w, run (step ⟨100, 100, fun _ => 0, fun _ => 7⟩ (.mk [] [])) (first_world (.mk [] []))
      [.save_variable ((List.replicate 26 ()).foldr (fun _ v => .T_ARRAY 1 [v]) const0),
        .restore_variable ⟨[40, 123, 125, 41], by decide⟩] = some w ∧ w.fault = some .outside) :=
  ⟨⟨_, rfl, rfl⟩, ⟨_, rfl, rfl⟩, ⟨_, rfl, rfl⟩⟩

end mudos.saved_values
