-- The laws of action sentences: in every run in which no object gets commands
-- back over stale sentences, and no sentence is added between two objects that
-- are nowhere, a living object has sentences of objects near it alone.
import MudOS.EnvironmentsLaws

open Function Option
open mudos.runs

namespace mudos.environment

variable {ob : Nat} {s : driver_t}

/-! ## Vicinity -/

/-- The object is the user, is in it, is in the same environment, or is its environment. -/
def Near (o : objects_t) (ob user : Nat) : Prop :=
  ob = user ∨ o.super ob = some user ∨ (∃ env, o.super ob = some env ∧ o.super user = some env) ∨
    o.super user = some ob

def Present (o : objects_t) (ob user : Nat) : Prop := o.O_DESTRUCTED ob = false ∧ Near o ob user

def Valid (s : driver_t) : Prop :=
  ∀ user, s.O_ENABLE_COMMANDS user = true → ∀ x ∈ s.sent user, Present s.objects x.ob user

theorem Near.congr {o o' : objects_t} {user : Nat} (h : Near o ob user)
    (hob : o'.super ob = o.super ob) (huser : o'.super user = o.super user) : Near o' ob user := by
  unfold Near at *
  rwa [hob, huser]

theorem Near.moved {o o' : objects_t} (hf : Forest o) {enabled : Nat → Bool} {item dest user : Nat}
    (h : Near o ob user) (huser : enabled user = true)
    (hsuper : o'.super = update o.super item (some dest))
    (hstays : ¬ ∃ env, o.super item = some env ∧ parted o enabled item env user ob) :
    Near o' ob user := by
  have hother : ∀ x, x ≠ item → o'.super x = o.super x := by
    intro x hx
    rw [hsuper, update_of_ne hx]
  by_cases hsame : ob = user
  · exact .inl hsame
  by_cases hob : ob = item
  · subst hob
    have huser' : user ≠ ob := fun heq => hsame heq.symm
    rcases h with heq | hin | ⟨env, h1, h2⟩ | hhas
    · exact absurd heq hsame
    · exact absurd ⟨user, hin, .inr (.inl ⟨huser, rfl, rfl⟩)⟩ hstays
    · have hmem := (hf.mem_inventory env user).mpr h2
      exact absurd ⟨env, h1, .inr (.inr ⟨user, hmem, huser', .inl ⟨huser, rfl, rfl⟩⟩)⟩ hstays
    · exact .inr (.inr (.inr ((hother user huser').trans hhas)))
  · by_cases huser' : user = item
    · subst huser'
      rcases h with heq | hin | ⟨env, h1, h2⟩ | hhas
      · exact absurd heq hsame
      · exact .inr (.inl ((hother ob hob).trans hin))
      · have hmem := (hf.mem_inventory env ob).mpr h1
        exact absurd ⟨env, h2, .inr (.inr ⟨ob, hmem, hob, .inr ⟨huser, rfl, rfl⟩⟩)⟩ hstays
      · exact absurd ⟨ob, hhas, .inl ⟨huser, rfl, rfl⟩⟩ hstays
    · exact h.congr (hother ob hob) (hother user huser')

theorem out_of_room_super (o : objects_t) (ob : Nat) : (out_of_room o ob).super = o.super := by
  unfold out_of_room
  split <;> rfl

theorem out_of_room_destructed (o : objects_t) (ob : Nat) :
    (out_of_room o ob).O_DESTRUCTED = o.O_DESTRUCTED := by
  unfold out_of_room
  split <;> rfl

theorem Valid.move_object (h : Valid s) (hf : Forest s.objects) (item dest : Nat) :
    Valid (move_object s item dest) := by
  obtain ⟨hobjects, henabled, hsent⟩ := move_object_spec s item dest
  intro user huser x hx
  rw [henabled] at huser
  rw [hsent] at hx
  obtain ⟨halive, hnear⟩ := h user huser x hx.1
  have hsuper : (link_object (out_of_room s.objects item) item dest).super =
      update s.objects.super item (some dest) := by
    simp [link_object, out_of_room_super]
  rw [hobjects]
  constructor
  · exact (congrFun (out_of_room_destructed s.objects item) x.ob).trans halive
  · exact hnear.moved hf huser hsuper hx.2

theorem Valid.finish {s t : driver_t} (h : Valid s) (hf : Forest s.objects) {ob : Nat}
    (hempty : s.objects.contains ob = none)
    (hsuper : t.objects.super = update s.objects.super ob none)
    (halive : t.objects.O_DESTRUCTED = update s.objects.O_DESTRUCTED ob true)
    (henabled : t.O_ENABLE_COMMANDS = update s.O_ENABLE_COMMANDS ob false)
    (hsent : ∀ user x, x ∈ t.sent user → x ∈ s.sent user ∧
      ¬ dropped s.objects s.O_ENABLE_COMMANDS ob user x.ob) : Valid t := by
  intro user huser x hx
  have hne : user ≠ ob := by
    rintro rfl
    simp [henabled] at huser
  rw [henabled, update_of_ne hne] at huser
  obtain ⟨hxs, hstays⟩ := hsent user x hx
  obtain ⟨hx_alive, hnear⟩ := h user huser x hxs
  have hgone : x.ob ≠ ob := by
    intro heq
    rw [heq] at hnear hstays
    rcases hnear with rfl | hin | ⟨env, h1, h2⟩ | hhas
    · exact hne rfl
    · exact hstays ⟨rfl, huser, user, hin, .inl rfl⟩
    · exact hstays ⟨rfl, huser, env, h1, .inr ((hf.mem_inventory env user).mpr h2)⟩
    · obtain ⟨l, hl, -, hmem⟩ := hf.inventory ob
      rw [hempty] at hl
      cases hl
      exact absurd ((hmem user).mpr hhas) List.not_mem_nil
  constructor
  · rwa [halive, update_of_ne hgone]
  · apply hnear.congr
    · rw [hsuper, update_of_ne hgone]
    · rw [hsuper, update_of_ne hne]

theorem Valid.leave_and_finish (h : Valid s) (hf : Forest s.objects)
    (hempty : s.objects.contains ob = none) (hvital : vital s ob → s.objects.super ob = none)
    (rest : List frame_t) : Valid (leave_and_finish s ob rest) := by
  obtain ⟨t, ht, hleave⟩ := leave_room_spec s ob
  unfold environment.leave_and_finish
  dsimp only
  rw [hleave]
  have hv : vital { t with objects := out_of_room s.objects ob } ob = vital s ob := by
    rw [ht.same]
    rfl
  split
  · rename_i hvit
    rw [hv] at hvit
    have hsame : out_of_room s.objects ob = s.objects := by rw [out_of_room, hvital hvit]
    intro user huser x hx
    dsimp only at huser hx ⊢
    rw [ht.enabled] at huser
    rw [hsame]
    exact h user huser x ((ht.mem user x).mp hx).1
  · apply h.finish hf hempty
    · simp [finish_destruct, clear_object, out_of_room_super]
    · simp [finish_destruct, clear_object, out_of_room_destructed]
    · simp [finish_destruct, ht.enabled]
    · intro user x hx
      exact (ht.mem user x).mp hx

/-! ## Commands -/

/-- An object gets commands back only over sentences that are valid, and no sentence is added
for a living object when neither of the two is anywhere. -/
def Fresh (s : driver_t) : action_t → Prop
  | .enable_commands ob true => s.O_ENABLE_COMMANDS ob = true ∨
    ∀ x ∈ s.sent ob, Present s.objects x.ob ob
  | .add_action ob _ _ _ =>
    match s.command_giver with
    | none => True
    | some giver => s.O_ENABLE_COMMANDS giver = true → s.objects.super giver = none →
      s.objects.super (shadow_base s ob) = none → shadow_base s ob = giver
  | _ => True

theorem Valid.enable_commands (h : Valid s) {num : Bool} (hok : Fresh s (.enable_commands ob num)) :
    Valid (enable_commands s ob num) := by
  obtain ⟨hobjects, hsent, henabled⟩ := enable_commands_spec s ob num
  intro user huser x hx
  rw [hobjects]
  rcases henabled with henabled | ⟨-, henabled⟩
  · rw [henabled] at huser
    exact h user huser x (hsent user x hx)
  · rw [henabled] at huser
    by_cases hu : user = ob
    · subst hu
      rw [update_self] at huser
      subst huser
      rcases hok with hen | hfine
      · exact h user hen x (hsent user x hx)
      · exact hfine x (hsent user x hx)
    · rw [update_of_ne hu] at huser
      exact h user huser x (hsent user x hx)

theorem Valid.add_action (h : Valid s) (hf : Forest s.objects) {function verb : Nat}
    {V_FUNCTION : Bool} (hok : Fresh s (.add_action ob function verb V_FUNCTION)) :
    Valid (add_action s ob function verb V_FUNCTION) := by
  unfold environment.add_action
  unfold Fresh at hok
  dsimp only at hok ⊢
  split
  · exact h
  cases hgiver : s.command_giver with
  | none => exact h
  | some giver =>
    rw [hgiver] at hok
    dsimp only at hok ⊢
    split
    · exact h
    rename_i hga
    rw [Bool.not_eq_true] at hga
    split
    · exact h
    rename_i hnear
    intro user huser x hx
    dsimp only at huser hx ⊢
    by_cases hu : user = giver
    · subst hu
      rw [update_self] at hx
      rcases List.mem_cons.mp hx with rfl | hx
      · -- the base of the shadows is near the command giver, so it is alive
        dsimp only
        by_cases hself : shadow_base s ob = user
        · rw [hself]
          exact ⟨hga, .inl rfl⟩
        cases hbase : s.objects.super (shadow_base s ob) with
        | none =>
          cases henv : s.objects.super user with
          | none => exact absurd (hok huser henv hbase) hself
          | some env =>
            have heq : shadow_base s ob = env := by
              apply Classical.byContradiction
              intro hne
              apply hnear
              rw [hbase, henv]
              exact ⟨hself, nofun, nofun, fun h => hne (some.inj h)⟩
            rw [← heq] at henv
            exact ⟨(hf.alive _ _ henv).2.2.2, .inr (.inr (.inr henv))⟩
        | some env =>
          refine ⟨(hf.alive _ _ hbase).2.2.1, ?_⟩
          by_cases hin : env = user
          · exact .inr (.inl (hin ▸ hbase))
          · by_cases hsib : s.objects.super user = some env
            · exact .inr (.inr (.inl ⟨env, hbase, hsib⟩))
            · have hcarry : s.objects.super user = some (shadow_base s ob) := by
                apply Classical.byContradiction
                intro hne
                apply hnear
                rw [hbase]
                exact ⟨hself, fun h => hin (some.inj h), fun h => hsib h.symm,
                  fun h => hne h.symm⟩
              exact .inr (.inr (.inr hcarry))
      · exact h user huser x hx
    · rw [update_of_ne hu] at hx
      exact h user huser x hx

theorem Valid.remove_action (h : Valid s) (ob act verb : Nat) :
    Valid (remove_action s ob act verb) := by
  intro user huser x hx
  unfold environment.remove_action at huser hx
  dsimp only at huser hx
  by_cases hu : user = s.command_giver.getD ob
  · subst hu
    rw [update_self] at hx
    exact h _ huser x (List.mem_of_mem_eraseP hx)
  · rw [update_of_ne hu] at hx
    exact h user huser x hx

/-! ## Steps -/

theorem Valid.alike {t : driver_t} (h : Valid s) (heq : Alike s t) : Valid t := by
  unfold Valid at *
  rwa [heq.objects, heq.enabled, heq.sent]

theorem Valid.step {s t : driver_t} {a : action_t} (h : Valid s) (hf : Forest s.objects)
    (hok : Settled s a ∧ Fresh s a) (hs : step s a = some t) : Valid t := by
  cases step_effect hok.1 hs with
  | alike heq => exact h.alike heq
  | clone heq => exact Valid.alike (s := { s with objects := new_object s.objects }) h heq
  | move hitem hdest hin => exact h.move_object hf _ _
  | enable_commands ob num => exact h.enable_commands hok.2
  | add_action ob function verb V_FUNCTION => exact h.add_action hf hok.2
  | remove_action ob act verb => exact h.remove_action ob act verb
  | leave heq hempty hvital =>
    rw [← heq.objects] at hf hempty hvital
    exact (h.alike heq).leave_and_finish hf hempty hvital _
  | @finish s₀ ob rest heq hsuper hempty =>
    rw [← heq.objects] at hf hsuper hempty
    apply (h.alike heq).finish hf hempty rfl rfl rfl
    intro user x hx
    refine ⟨hx, ?_⟩
    rintro ⟨-, -, env, henv, -⟩
    simp [hsuper] at henv

/-! ## The law of the sentences -/

instance (o : objects_t) (ob user : Nat) : Decidable (Near o ob user) :=
  decidable_of_iff (ob = user ∨ o.super ob = some user ∨
      ((o.super ob).isSome ∧ o.super ob = o.super user) ∨ o.super user = some ob) (by
    unfold Near
    cases o.super ob with
    | none => simp only [isSome_none, Bool.false_eq_true, false_and, reduceCtorEq, exists_false]
    | some env => simp only [isSome_some, true_and, some.injEq, exists_eq_left', eq_comm])

instance (o : objects_t) (ob user : Nat) : Decidable (Present o ob user) :=
  inferInstanceAs (Decidable (_ ∧ _))

instance (s : driver_t) : (a : action_t) → Decidable (Fresh s a)
  | .enable_commands _ true => inferInstanceAs (Decidable (_ ∨ _))
  | .add_action ob _ _ _ =>
    match h : s.command_giver with
    | none => isTrue (by simp [Fresh, h])
    | some giver =>
      decidable_of_iff (s.O_ENABLE_COMMANDS giver = true → s.objects.super giver = none →
        s.objects.super (shadow_base s ob) = none → shadow_base s ob = giver) (by simp [Fresh, h])
  | .enable_commands _ false | .clone | .move .. | .destruct _ | .remove_action .. |
    .set_this_player _ | .ed _ | .shadow .. | .ret | .error _ | .go => isTrue trivial

/-- A user and a door in a room; the user gets a verb of the door, and goes away. -/
def leave_a_door : List action_t :=
  [.clone, .clone, .clone, .clone, .move 3 2, .go, .go, .enable_commands 4 true, .move 4 2, .ret, .go,
    .go, .go, .ret, .go, .go, .set_this_player (some 4), .add_action 3 0 0 false,
    .add_action 4 1 1 false, .move 4 5, .ret, .go, .go, .go]

/-- The user gives up the commands before going away, and takes them back there. -/
def disable_commands_at_a_door : List action_t :=
  [.clone, .clone, .clone, .clone, .move 3 2, .go, .go, .move 4 2, .go, .go, .go,
    .enable_commands 4 true, .add_action 3 0 0 false, .enable_commands 4 false, .move 4 5, .go, .go,
    .enable_commands 4 true]

end mudos.environment
