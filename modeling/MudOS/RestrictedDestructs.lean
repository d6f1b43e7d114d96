-- While an object is asked to move out of one that is destructed, it alone may be
-- destructed. The restriction is a global one, that each destruction keeps in a
-- variable of its own around the apply, and that the error handler clears.
import MudOS.EnvironmentsLaws

open mudos.environment
open mudos.runs

namespace mudos.restricted_destructs

variable {t s : driver_t} {rest : List frame_t}
variable {frame : frame_t}

/-! ## Throws -/

inductive event_t
  | act (a : action_t)
  /-- `throw()` unwinds the stack by so much, to a `catch`. -/
  | throw_error (num : Nat)

/-- A throw goes to its `catch` without the error handler. -/
def throw_error (s : driver_t) (num : Nat) : Option driver_t :=
  let stack := s.stack.drop num
  if (s.stack.take num).all unsafe_apply ∧ stack.head? = some .lpc then some { s with stack }
  else none

def step (s : driver_t) : event_t → Option driver_t
  | .act a => environment.step s a
  | .throw_error num => if s.stack.head? = some .lpc then throw_error s num else none

/-! ## Applies that run -/

/-- The object whose `move_or_destruct` runs, the innermost if there are several. -/
def asked : List frame_t → Option Nat
  | [] => none
  | .moved _ _ otmp :: _ => some otmp
  | _ :: stack => asked stack

/-- What `destruct_object` has kept in its variable. -/
def save_restrict_destruct : frame_t → Option (Option Nat)
  | .contents _ save => some save
  | .moved _ save _ => some save
  | _ => none

/-- Each destruction has kept the restriction of what has called it. -/
def Nested : List frame_t → Prop
  | [] => True
  | frame :: stack =>
    (∀ save, save_restrict_destruct frame = some save → save = asked stack) ∧ Nested stack

structure Restricted (s : driver_t) : Prop where
  restrict : s.restrict_destruct = asked s.stack
  nested : Nested s.stack

theorem nested_drop {stack : List frame_t} (h : Nested stack) (num : Nat) :
    Nested (stack.drop num) := by
  induction num generalizing stack with
  | zero => exact h
  | succ num ih =>
    rcases stack with _ | ⟨frame, stack⟩
    · exact h
    · exact ih h.2

def other : frame_t → Bool
  | .contents _ _ => false
  | .moved _ _ _ => false
  | _ => true

theorem asked_other (h : other frame) (stack : List frame_t) :
    asked (frame :: stack) = asked stack := by
  cases frame <;> first
    | rfl
    | cases h

theorem nested_other {stack : List frame_t} (h : other frame) (hn : Nested stack) :
    Nested (frame :: stack) := by
  refine ⟨fun save hsave => ?_, hn⟩
  cases frame with
  | contents ob save' => simp [other] at h
  | moved ob save' otmp => simp [other] at h
  | _ => cases hsave

theorem asked_others {l : List frame_t} (h : l.all other) (stack : List frame_t) :
    asked (l ++ stack) = asked stack := by
  induction l with
  | nil => rfl
  | cons frame l ih =>
    rw [List.all_cons, Bool.and_eq_true] at h
    rw [List.cons_append, asked_other h.1, ih h.2]

theorem restricted_of (new : List frame_t) (hn : Nested rest)
    (hr : t.restrict_destruct = asked rest) (ht : t.stack = new ++ rest) (hnew : new.all other) :
    Restricted t := by
  refine ⟨by rw [hr, ht, asked_others hnew], ?_⟩
  rw [ht]
  clear ht
  induction new with
  | nil => exact hn
  | cons frame new ih =>
    rw [List.all_cons, Bool.and_eq_true] at hnew
    exact nested_other hnew.1 (ih hnew.2)

theorem Restricted.turn (h : Restricted s) (old new : List frame_t) (hs : s.stack = old ++ rest)
    (hold : old.all other) (ht : t.stack = new ++ rest) (hnew : new.all other)
    (hsame : t.restrict_destruct = s.restrict_destruct) : Restricted t := by
  have hrest : Nested rest := by
    have hdrop := nested_drop h.nested old.length
    rwa [hs, List.drop_left] at hdrop
  exact restricted_of new hrest (by rw [hsame, h.restrict, hs, asked_others hold]) ht hnew

/-- A destruction that goes on, or ends, has its own restriction back. -/
theorem Restricted.kept (h : Restricted s) {save : Option Nat} (hs : s.stack = frame :: rest)
    (hsave : save_restrict_destruct frame = some save) : save = asked rest ∧ Nested rest := by
  have hn := h.nested
  rw [hs] at hn
  exact ⟨hn.1 save hsave, hn.2⟩

/-! ## Steps -/

theorem removes_stack {gone : Nat → Nat → Prop} (h : Removes s t gone) :
    t.stack = s.stack ∧ t.restrict_destruct = s.restrict_destruct := by
  rw [h.same]
  exact ⟨rfl, rfl⟩

/-- The end of a destruction leaves the stack, or goes to the reload of a vital object. -/
theorem leave_and_finish_stack (s : driver_t) (ob : Nat) (rest : List frame_t) :
    (leave_and_finish s ob rest).restrict_destruct = s.restrict_destruct ∧
      ∃ new, (leave_and_finish s ob rest).stack = new ++ rest ∧ new.all other := by
  obtain ⟨t, ht, hleave⟩ := leave_room_spec s ob
  have hsame := (removes_stack ht).2
  simp only [leave_and_finish, hleave]
  split_ifs
  · exact ⟨hsame, [.lpc, .reloaded ob _], rfl, rfl⟩
  · exact ⟨hsame, [], rfl, rfl⟩

theorem move_object_stack (s : driver_t) (item dest : Nat) :
    (move_object s item dest).restrict_destruct = s.restrict_destruct ∧
      ∃ new, (move_object s item dest).stack = new ++ s.stack ∧ new.all other := by
  obtain ⟨t, ht, hleave⟩ := leave_old_spec s item
  obtain ⟨hstack, hsame⟩ := removes_stack ht
  simp only [move_object, hleave]
  split_ifs
  · exact ⟨hsame, [.lpc, .init_dest item dest _], by rw [hstack]; rfl, rfl⟩
  · exact ⟨hsame, [.inits item dest _ _], by rw [hstack]; rfl, rfl⟩

theorem enable_commands_stack (s : driver_t) (ob : Nat) (num : Bool) :
    (enable_commands s ob num).stack = s.stack ∧
      (enable_commands s ob num).restrict_destruct = s.restrict_destruct := by
  obtain ⟨gone, hgone⟩ := remove_own_spec s ob
  obtain ⟨hstack, hsame⟩ := removes_stack hgone
  unfold enable_commands
  split_ifs <;> first
    | exact ⟨rfl, rfl⟩
    | exact ⟨hstack, hsame⟩

theorem add_action_stack (s : driver_t) (ob function verb : Nat) (V_FUNCTION : Bool) :
    (add_action s ob function verb V_FUNCTION).stack = s.stack ∧
      (add_action s ob function verb V_FUNCTION).restrict_destruct = s.restrict_destruct := by
  unfold add_action
  dsimp only
  repeat' split
  all_goals exact ⟨rfl, rfl⟩

theorem init_second_stack (s : driver_t) (item dest : Nat) (next_ob save : Option Nat)
    (rest : List frame_t) : ∃ new, (init_second s item dest next_ob save rest).stack = new ++ rest ∧
      new.all other ∧ (init_second s item dest next_ob save rest).restrict_destruct =
        s.restrict_destruct := by
  unfold init_second
  split_ifs
  · exact ⟨[.raise], rfl, rfl, rfl⟩
  · exact ⟨[.lpc, .init_ob item dest next_ob save], rfl, rfl, rfl⟩
  · exact ⟨[.inits item dest next_ob save], rfl, rfl, rfl⟩

theorem init_loop_stack (s : driver_t) (item dest : Nat) (ob save : Option Nat)
    (rest : List frame_t) : ∃ new, (init_loop s item dest ob save rest).stack = new ++ rest ∧
      new.all other ∧ (init_loop s item dest ob save rest).restrict_destruct =
        s.restrict_destruct := by
  rcases ob with _ | ob
  · simp only [init_loop]
    split_ifs
    · exact ⟨[.raise], rfl, rfl, rfl⟩
    · exact ⟨[.lpc, .init_last save], rfl, rfl, rfl⟩
    · exact ⟨[], rfl, rfl, rfl⟩
  · simp only [init_loop]
    split_ifs
    · exact ⟨[.inits item dest _ save], rfl, rfl, rfl⟩
    · exact ⟨[.raise], rfl, rfl, rfl⟩
    · exact ⟨[.lpc, .init_item item dest _ save], rfl, rfl, rfl⟩
    · exact init_second_stack s item dest _ save rest

theorem restricted_go (h : Restricted s) (hs : go s = some t) : Restricted t := by
  unfold go at hs
  split at hs
  case h_1 ob rest hstack =>
    cases hs
    have hnested : Nested rest := (hstack ▸ h.nested).2
    have hrestrict : s.restrict_destruct = asked rest := by rw [h.restrict, hstack]; rfl
    unfold begin_destruct
    split_ifs
    · exact h.turn [.destruct ob] [.raise] hstack rfl rfl rfl rfl
    · exact h.turn [.destruct ob] [] hstack rfl rfl rfl rfl
    · exact h.turn [.destruct ob] [.shadows _] hstack rfl rfl rfl rfl
    · refine ⟨hrestrict, fun save hsave => ?_, hnested⟩
      cases hsave
      exact hrestrict
  case h_2 ob2 rest hstack =>
    cases hs
    unfold shadow_loop
    split
    · exact h.turn [.shadows none] [] hstack rfl rfl rfl rfl
    · exact h.turn [.shadows _] [.destruct _, .shadows _] hstack rfl rfl rfl rfl
  case h_3 ob save rest hstack =>
    cases hs
    obtain ⟨hsave, hnested⟩ := h.kept hstack rfl
    have hrestrict : s.restrict_destruct = asked rest := by
      rw [h.restrict, hstack]
      rfl
    unfold contents_loop
    split
    · -- the apply of `move_or_destruct` begins
      refine ⟨rfl, nested_other rfl ⟨fun save' hsave' => ?_, hnested⟩⟩
      cases hsave'
      exact hsave
    · split_ifs
      · exact restricted_of [.lpc, .editor ob] hnested hrestrict rfl rfl
      · obtain ⟨hsame, new, hnew, hall⟩ := leave_and_finish_stack s ob rest
        exact restricted_of new hnested (hsame.trans hrestrict) hnew hall
  case h_4 ob save otmp rest hstack =>
    cases hs
    obtain ⟨hsave, hnested⟩ := h.kept hstack rfl
    have hcontents : Nested (.contents ob save :: rest) := by
      refine ⟨fun save' hsave' => ?_, hnested⟩
      cases hsave'
      exact hsave
    unfold after_move
    dsimp only
    split_ifs
    · exact restricted_of [] hnested hsave rfl rfl
    · exact restricted_of [.destruct otmp] hcontents hsave rfl rfl
    · exact restricted_of [] hcontents hsave rfl rfl
  case h_5 ob rest hstack =>
    cases hs
    obtain ⟨hsame, new, hnew, hall⟩ :=
      leave_and_finish_stack { s with ed_buffer := Function.update s.ed_buffer ob false } ob rest
    exact h.turn [.editor ob] new hstack rfl hnew hall hsame
  case h_6 ob new_ob rest hstack =>
    cases hs
    unfold after_reload
    split
    · exact h.turn [.reloaded ob new_ob] [.raise] hstack rfl rfl rfl rfl
    · exact h.turn [.reloaded ob new_ob] [] hstack rfl rfl rfl rfl
  case h_7 item dest save rest hstack =>
    split_ifs at hs <;> cases hs
    · exact h.turn [.init_dest item dest save] [] hstack rfl rfl rfl rfl
    · exact h.turn [.init_dest item dest save] [.inits item dest _ save] hstack rfl rfl rfl rfl
  case h_8 item dest ob save rest hstack =>
    cases hs
    obtain ⟨new, hnew, hall, hsame⟩ := init_loop_stack s item dest ob save rest
    exact h.turn [.inits item dest ob save] new hstack rfl hnew hall hsame
  case h_9 item dest next_ob save rest hstack =>
    split_ifs at hs <;> cases hs
    · exact h.turn [.init_item item dest next_ob save] [] hstack rfl rfl rfl rfl
    · obtain ⟨new, hnew, hall, hsame⟩ := init_second_stack s item dest next_ob save rest
      exact h.turn [.init_item item dest next_ob save] new hstack rfl hnew hall hsame
  case h_10 item dest next_ob save rest hstack =>
    split_ifs at hs <;> cases hs
    · exact h.turn [.init_ob item dest next_ob save] [] hstack rfl rfl rfl rfl
    · exact h.turn [.init_ob item dest next_ob save] [.inits item dest _ save] hstack rfl rfl rfl rfl
  case h_11 save rest hstack =>
    cases hs
    exact h.turn [.init_last save] [] hstack rfl rfl rfl rfl
  case h_12 => cases hs

theorem restricted_lpc {a : action_t} (h : Restricted s) (hstack : s.stack = .lpc :: rest)
    (hs : lpc_step s rest a = some t) : Restricted t := by
  have hsame : ∀ {t : driver_t}, t.stack = s.stack ∧ t.restrict_destruct = s.restrict_destruct →
      Restricted t := fun ht => h.turn [] [] rfl rfl ht.1 rfl ht.2
  unfold lpc_step at hs
  cases a with
  | move item dest =>
    dsimp only at hs
    split_ifs at hs
    cases hs
    obtain ⟨hr, new, hnew, hall⟩ := move_object_stack s item dest
    exact h.turn [] new rfl rfl hnew hall hr
  | destruct ob =>
    dsimp only at hs
    split_ifs at hs
    cases hs
    exact h.turn [] [.destruct ob] rfl rfl rfl rfl rfl
  | enable_commands ob num =>
    cases hs
    exact hsame (enable_commands_stack s ob num)
  | add_action ob function verb V_FUNCTION =>
    cases hs
    exact hsame (add_action_stack s ob function verb V_FUNCTION)
  | ret =>
    dsimp only at hs
    split_ifs at hs
    cases hs
    exact h.turn [.lpc] [] hstack rfl rfl rfl rfl
  | clone | remove_action ob act verb | set_this_player ob
  | ed ob | shadow current_object ob => cases hs; exact hsame ⟨rfl, rfl⟩
  | error num => cases hs
  | go => cases hs

/-- An error is raised where no apply of `move_or_destruct` runs outside of its catch, and a throw
where none runs inside. -/
def Careful (s : driver_t) : event_t → Prop
  | .act (.error num) => asked (s.stack.drop num) = none
  | .act _ => True
  | .throw_error num => asked (s.stack.drop num) = asked s.stack

/-- One step keeps the restriction if, and only if, it is careful. -/
theorem restricted_step {e : event_t} (h : Restricted s) (hs : step s e = some t) :
    Restricted t ↔ Careful s e := by
  cases e with
  | throw_error num =>
    simp only [step, throw_error] at hs
    split_ifs at hs
    cases hs
    refine ⟨fun ht => ht.restrict.symm.trans h.restrict, fun hc => ⟨?_, nested_drop h.nested num⟩⟩
    exact h.restrict.trans hc.symm
  | act a =>
    simp only [step] at hs
    unfold environment.step at hs
    split at hs
    · exact iff_of_true (restricted_go h hs) trivial
    · rename_i top rest num hstack
      dsimp only at hs
      split_ifs at hs
      cases hs
      rw [← hstack]
      refine ⟨fun ht => ht.restrict.symm, fun hc => ⟨hc.symm, ?_⟩⟩
      exact nested_drop h.nested num
    · rename_i a _ _ rest hstack _ hne
      refine iff_of_true (restricted_lpc h hstack hs) ?_
      cases a with
      | error num => exact (hne num rfl).elim
      | _ => trivial
    · cases hs

/-! ## Runs -/

/-- While an object is asked to move it alone may be destructed, and when nobody is asked every
object may. -/
theorem only_the_asked_object_is_destructed {s : driver_t} (h : Reachable start step Careful s)
    (ob : Nat) (rest : List frame_t) :
    (begin_destruct s ob rest).stack = .raise :: rest ↔ ∃ x, asked s.stack = some x ∧ x ≠ ob := by
  have hs : Restricted s := by
    apply h.inv
    · exact ⟨rfl, nested_other rfl trivial⟩
    · exact fun _ _ _ hi hok hs => (restricted_step hi hs).mpr hok
  unfold begin_destruct
  rw [hs.restrict]
  rcases asked s.stack with _ | x
  · simp only [ne_eq, not_true_eq_false, false_and, if_false, reduceCtorEq, exists_false, iff_false]
    split_ifs <;> simp
  · by_cases hx : x = ob
    · subst hx
      simp only [ne_eq, reduceCtorEq, not_false_eq_true, not_true_eq_false, and_false, if_false,
        Option.some.injEq]
      split_ifs <;> simp
    · simp [hx]

instance (s : driver_t) (e : event_t) : Decidable (Careful s e) := by
  unfold Careful
  split <;> infer_instance

/-- A room is destructed, and the box in it is asked to move. -/
def ask_a_box : List event_t :=
  [.act .clone, .act .clone, .act (.move 3 2), .act .go, .act .go, .act (.destruct 2), .act .go,
    .act .go]

theorem a_box_that_is_asked_is_destructed_alone :
    ∃ s, run step start ask_a_box = some s ∧ ∀ ob,
      (begin_destruct s ob s.stack).stack = .raise :: s.stack ↔ 3 ≠ ob := by
  have hrun : (run step start ask_a_box).map (fun s => asked s.stack) = some (some 3) := by
    decide
  obtain ⟨s, hs, hasked⟩ := Option.map_eq_some_iff.mp hrun
  have hok : Along step Careful start ask_a_box := by decide
  refine ⟨s, hs, fun ob => ?_⟩
  rw [only_the_asked_object_is_destructed (.of_run .start hok hs) ob s.stack, hasked]
  simp

/-- The box catches an error of its own, and then may destruct the master. -/
theorem a_caught_error_ends_the_restriction :
    ¬ ∀ s, Reachable start step (fun _ _ => True) s → ∀ ob rest,
      (begin_destruct s ob rest).stack = .raise :: rest ↔ ∃ x, asked s.stack = some x ∧ x ≠ ob := by
  intro hall
  have hrun : (run step start (ask_a_box ++ [.act (.error 0)])).map
      (fun s => (asked s.stack, (begin_destruct s 0 []).stack.map save_restrict_destruct)) =
        some (some 3, [some none]) := by
    decide
  obtain ⟨s, hs, hlast⟩ := Option.map_eq_some_iff.mp hrun
  rw [Prod.mk.injEq] at hlast
  have hreach := Reachable.of_any hs
  have hraise := (hall s hreach 0 []).mpr ⟨3, hlast.1, by decide⟩
  rw [hraise] at hlast
  exact absurd hlast.2 (by decide)

end mudos.restricted_destructs
