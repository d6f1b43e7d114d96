-- The inherit lists are whole exactly when the inherited programs fit in the work list and in an
-- array; else the walk writes behind its list, or there is an error.
import MudOS.InheritLists

open mudos.work_lists Option List

namespace mudos.inherit_lists

variable {prog : program_t} {plist plist' : List program_t}

theorem heights_le {l : List program_t} {p : program_t} (h : p ∈ l) : p.height + 1 ≤ heights l := by
  induction l with
  | nil => cases h
  | cons a l ih =>
    simp only [heights]
    rcases mem_cons.mp h with rfl | h
    · exact Nat.le_max_left ..
    · exact Nat.le_trans (ih h) (Nat.le_max_right ..)

theorem height_lt (p : program_t) : ∀ q ∈ p.inherit, q.height < p.height := by
  cases p with
  | mk name inherit =>
    intro q hq
    exact heights_le hq

theorem inherited_served (prog : program_t) :
    Served program_t.inherit prog.inherit (inherited prog) :=
  served_levels program_t.height height_lt (height_lt prog)

/-! ## The work list -/

theorem foldlM_put (l : List program_t) (hfits : plist.length ≤ PLIST_SIZE) :
    l.foldlM put plist =
      if plist.length + l.length ≤ PLIST_SIZE then some (plist ++ l) else none := by
  induction l generalizing plist with
  | nil => simp [hfits]
  | cons a l ih =>
    simp only [foldlM_cons, put]
    by_cases hroom : plist.length < PLIST_SIZE
    · rw [if_pos hroom]
      refine (ih ?_).trans ?_
      · rwa [length_append]
      · simp [Nat.add_assoc, Nat.add_comm 1]
    · rw [if_neg hroom, if_neg (by rw [length_cons]; omega)]
      rfl

theorem put_inherited_fits {pr : program_t} (hfits : plist.length ≤ PLIST_SIZE)
    (h : put_inherited plist pr = some plist') : plist'.length ≤ PLIST_SIZE := by
  rw [put_inherited, foldlM_put _ hfits] at h
  split_ifs at h with hroom
  cases h
  rwa [length_append]

theorem put_inherited_some (plist : List program_t) (pr : program_t)
    (hroom : plist.length + pr.inherit.length ≤ PLIST_SIZE) :
    put_inherited plist pr = some (plist ++ pr.inherit) := by
  have hall : pr.num_inherited = pr.inherit.length := by
    have hsmall : pr.inherit.length ≤ 256 := Nat.le_trans (Nat.le_add_left ..) hroom
    exact Nat.mod_eq_of_lt (by omega)
  rw [put_inherited, hall, take_length, foldlM_put _ (by omega), if_pos hroom]

theorem one_fits (prog : program_t) : [prog].length ≤ PLIST_SIZE := by
  change 1 ≤ 256
  omega

theorem walk_fits {rounds cur : Nat} (hfits : plist.length ≤ PLIST_SIZE)
    (h : walk rounds plist cur = some plist') : plist'.length ≤ PLIST_SIZE := by
  induction rounds generalizing plist cur with
  | zero =>
    cases h
    exact hfits
  | succ rounds ih =>
    simp only [walk] at h
    split at h
    · cases h
      exact hfits
    · split_ifs at h with hroom
      · obtain ⟨next, hput, hwalk⟩ := bind_eq_some_iff.mp h
        exact ih (put_inherited_fits hfits hput) hwalk
      · cases h
        exact hfits

theorem walk_served (rounds cur : Nat) (plist : List program_t) {out : List program_t}
    (h : Served program_t.inherit (plist.drop cur) out) (hcur : cur ≤ plist.length)
    (hrounds : PLIST_SIZE ≤ rounds + cur) (hroom : cur + out.length ≤ PLIST_SIZE) :
    walk rounds plist cur = some (plist.take cur ++ out) := by
  have hqueue := h.length_le
  rw [length_drop] at hqueue
  induction rounds generalizing plist cur out with
  | zero =>
    -- the list is full, and its end has been reached
    have hlength : plist.length = cur := by omega
    have hout : out = [] := eq_nil_of_length_eq_zero (by omega)
    rw [walk, hout, List.append_nil, List.take_of_length_le (Nat.le_of_eq hlength)]
  | succ rounds ih =>
    simp only [walk]
    cases hpr : plist[cur]? with
    | none =>
      have hend := getElem?_eq_none_iff.mp hpr
      rw [List.drop_of_length_le hend] at h
      cases h
      rw [List.append_nil, List.take_of_length_le hend]
    | some pr =>
      obtain ⟨hlt, rfl⟩ := List.getElem?_eq_some_iff.mp hpr
      rw [List.drop_eq_getElem_cons hlt] at h
      by_cases hfull : plist.length < PLIST_SIZE
      · cases h with
        | cons h =>
          have hmore := h.length_le
          rw [length_append, length_drop] at hmore
          rw [length_cons] at hroom
          have hput := put_inherited_some plist plist[cur] (by omega)
          simp only [if_pos hfull, hput, bind_some]
          have hdrop : (plist ++ plist[cur].inherit).drop (cur + 1) =
              plist.drop (cur + 1) ++ plist[cur].inherit := drop_append_of_le_length hlt
          rw [ih _ _ (by rwa [hdrop]) (by rw [length_append]; omega) (by omega) (by omega)
            (by rw [length_append]; omega), take_append_of_le_length hlt,
            take_add_one, hpr, toList_some, append_assoc]
          rfl
      · -- the list is full: what is left in it inherits nothing
        simp only [if_neg hfull]
        have hout := h.eq_of_length (by simp only [length_cons, length_drop]; omega)
        rw [hout, ← List.drop_eq_getElem_cons hlt, take_append_drop]

/-! ## The arrays -/

theorem names_ok {max_array_size : Int} {l : List (List UInt8)}
    (h : names max_array_size plist = .ok l) :
    (l.length : Int) ≤ max_array_size ∧ l.length + 1 = plist.length := by
  simp only [names] at h
  split_ifs at h with herror
  cases h
  rw [length_map, length_drop]
  omega

theorem names_cons {max_array_size : Int} (prog : program_t) {l : List program_t}
    (hmax : (l.length : Int) ≤ max_array_size) :
    names max_array_size (prog :: l) = .ok (l.map fun pr => add_slash pr.name) := by
  simp only [names, length_cons, drop_succ_cons, drop_zero]
  exact if_neg (by omega)

/-- The names of the programs that a program inherits are told, each as often and in the order as
the levels below it have it, exactly when they fit. -/
theorem inherit_lists_are_whole_iff (max_array_size : Int) (prog : program_t) :
    (deep_inherit_list max_array_size prog =
        some (.ok ((inherited prog).map fun pr => add_slash pr.name)) ∧
      inherit_list max_array_size prog =
        some (.ok (prog.inherit.map fun pr => add_slash pr.name))) ↔
    (inherited prog).length ≤ 255 ∧ ((inherited prog).length : Int) ≤ max_array_size := by
  have hserved := inherited_served prog
  constructor
  · rintro ⟨hdeep, -⟩
    obtain ⟨plist, hwalk, hnames⟩ := map_eq_some_iff.mp hdeep
    have hfits : plist.length ≤ 256 := walk_fits (one_fits prog) hwalk
    have hok := names_ok hnames
    rw [length_map] at hok
    exact ⟨by omega, hok.1⟩
  · rintro ⟨hroom, hmax⟩
    have hfirst : prog.inherit.length ≤ (inherited prog).length := hserved.length_le
    have hwalk := walk_served PLIST_SIZE 0 [prog] (.cons (by simpa using hserved))
      (Nat.zero_le _) (Nat.le_refl _)
      (show 0 + ((inherited prog).length + 1) ≤ 256 by omega)
    have hput := put_inherited_some [prog] prog
      (show 1 + prog.inherit.length ≤ 256 by omega)
    rw [deep_inherit_list, hwalk, inherit_list, hput]
    have hless : (prog.inherit.length : Int) ≤ max_array_size := by omega
    exact ⟨congrArg some (names_cons prog hmax), congrArg some (names_cons prog hless)⟩

def greedy : program_t := .mk [97] (replicate 256 (.mk [98] []))

theorem the_last_one_is_outside :
    deep_inherit_list 15000 greedy = none ∧ inherit_list 15000 greedy = none := by
  have hput : put_inherited [greedy] greedy = none := by
    have hlength : greedy.inherit.length = 256 := length_replicate
    rw [put_inherited, foldlM_put _ (one_fits greedy)]
    apply if_neg
    rw [length_take, program_t.num_inherited, hlength, length_singleton]
    decide
  constructor
  · have hwalk : walk PLIST_SIZE [greedy] 0 = (put_inherited [greedy] greedy).bind fun plist =>
        walk 255 plist 1 := rfl
    rw [deep_inherit_list, hwalk, hput]
    rfl
  · rw [inherit_list, hput]
    rfl

end mudos.inherit_lists
