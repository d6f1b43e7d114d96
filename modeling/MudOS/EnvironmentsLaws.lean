-- The laws of environments: the objects form a forest in every state of a run
-- whose callbacks in the middle of a destruction leave the object empty and,
-- for a vital object, outside of all environments.
import MudOS.Environments

open mudos.chains Function
open mudos.runs

namespace mudos.environment

variable {o : objects_t} {item : Nat} {t : driver_t} {gone : Nat → Nat → Prop}
variable {dest ob : Nat}

/-! ## The forest -/

/-- An object is once in the inventory of its environment and in no other one, no object is
in itself, and those that are somewhere, or have something, are not destructed. -/
structure Forest (o : objects_t) : Prop where
  inventory : ∀ env, ∃ l, Chain o.next_inv (o.contains env) l ∧ l.Nodup ∧
    ∀ ob, ob ∈ l ↔ o.super ob = some env
  no_cycle : ∀ ob, ¬ Relation.TransGen (Tells o.super) ob ob
  alive : ∀ ob env, o.super ob = some env → ob < o.num_objects ∧ env < o.num_objects ∧
    o.O_DESTRUCTED ob = false ∧ o.O_DESTRUCTED env = false

structure Loose (o : objects_t) (item : Nat) : Prop where
  inventory : ∀ env, ∃ l, Chain o.next_inv (o.contains env) l ∧
    ∀ ob, ob ∈ l ↔ o.super ob = some env ∧ ob ≠ item
  no_cycle : ∀ ob, ¬ Relation.TransGen (Tells o.super) ob ob
  alive : ∀ ob env, o.super ob = some env → ob < o.num_objects ∧ env < o.num_objects ∧
    o.O_DESTRUCTED ob = false ∧ o.O_DESTRUCTED env = false

theorem Forest.start : Forest start.objects where
  inventory _ := ⟨[], .nil, List.nodup_nil, fun _ =>
    ⟨fun h => absurd h List.not_mem_nil, fun h => nomatch h⟩⟩
  no_cycle ob h := by
    obtain ⟨env, henv, -⟩ := Relation.TransGen.head'_iff.mp h
    cases henv
  alive _ _ h := nomatch h

theorem Forest.new_object (h : Forest o) : Forest (new_object o) where
  inventory := h.inventory
  no_cycle := h.no_cycle
  alive ob env hob := by
    obtain ⟨h1, h2, h3⟩ := h.alive ob env hob
    exact ⟨Nat.lt_succ_of_lt h1, Nat.lt_succ_of_lt h2, h3⟩

theorem Forest.loose (h : Forest o) (hi : o.super item = none) :
    Loose o item where
  inventory env := by
    obtain ⟨l, hl, -, hmem⟩ := h.inventory env
    refine ⟨l, hl, fun ob => ?_⟩
    rw [hmem]
    refine ⟨fun hob => ⟨hob, ?_⟩, fun hob => hob.1⟩
    rintro rfl
    cases hi.symm.trans hob
  no_cycle := h.no_cycle
  alive := h.alive

theorem Forest.unlink_object (h : Forest o) {env : Nat} (hi : o.super item = some env) :
    Loose (unlink_object o item env) item where
  no_cycle := h.no_cycle
  alive := h.alive
  inventory e := by
    obtain ⟨l, hl, -, hmem⟩ := h.inventory env
    have hlen : l.length < o.num_objects + 1 :=
      Nat.lt_succ_of_le (hl.length_le fun ob hob => (h.alive ob env ((hmem ob).mp hob)).1)
    obtain ⟨hchain, hother⟩ := hl.unlink hlen (x := item)
    unfold environment.unlink_object
    dsimp only
    by_cases he : e = env
    · subst he
      rw [update_self]
      refine ⟨_, hchain, fun ob => ?_⟩
      rw [List.mem_filter, hmem, decide_eq_true_eq]
    · rw [update_of_ne he]
      obtain ⟨l', hl', -, hmem'⟩ := h.inventory e
      refine ⟨l', ?_, fun ob => ?_⟩
      · apply hl'.congr
        intro ob hob
        apply hother
        intro hobl
        have h1 := (hmem ob).mp hobl
        have h2 := (hmem' ob).mp hob
        exact he (Option.some.inj (h2.symm.trans h1))
      · rw [hmem']
        refine ⟨fun hob => ⟨hob, ?_⟩, fun hob => hob.1⟩
        rintro rfl
        exact he (Option.some.inj (hob.symm.trans hi))

theorem Loose.link_object (h : Loose o item)
    (hitem : item < o.num_objects ∧ o.O_DESTRUCTED item = false)
    (hdest : dest < o.num_objects ∧ o.O_DESTRUCTED dest = false)
    (hin : ¬ Relation.ReflTransGen (Tells o.super) dest item) :
    Forest (link_object o item dest) where
  no_cycle := no_cycle_update h.no_cycle hin
  alive ob env hob := by
    unfold environment.link_object at hob ⊢
    dsimp only at hob ⊢
    by_cases heq : ob = item
    · subst heq
      rw [update_self, Option.some.injEq] at hob
      subst hob
      exact ⟨hitem.1, hdest.1, hitem.2, hdest.2⟩
    · rw [update_of_ne heq] at hob
      exact h.alive ob env hob
  inventory e := by
    obtain ⟨l, hl, hmem⟩ := h.inventory e
    have hl' : Chain (update o.next_inv item (o.contains dest)) (o.contains e) l := by
      apply hl.congr
      intro ob hob
      exact update_of_ne ((hmem ob).mp hob).2 _ _
    unfold environment.link_object
    dsimp only
    by_cases he : e = dest
    · subst he
      rw [update_self]
      have hchain : Chain (update o.next_inv item (o.contains e)) (some item) (item :: l) := by
        apply Chain.cons
        rwa [update_self]
      refine ⟨_, hchain, hchain.nodup, fun ob => ?_⟩
      rw [List.mem_cons, hmem]
      by_cases heq : ob = item
      · subst heq
        simp
      · simp [heq]
    · rw [update_of_ne he]
      refine ⟨l, hl', hl'.nodup, fun ob => ?_⟩
      rw [hmem]
      by_cases heq : ob = item
      · subst heq
        rw [update_self, Option.some.injEq]
        exact ⟨fun hob => absurd rfl hob.2, fun hob => absurd hob.symm he⟩
      · simp [heq]

theorem Loose.clear_object (h : Loose o item) (hempty : o.contains item = none) :
    Forest (clear_object o item) where
  no_cycle := no_cycle_none h.no_cycle item
  alive ob env hob := by
    unfold environment.clear_object at hob ⊢
    dsimp only at hob ⊢
    have hne : ob ≠ item := by
      rintro rfl
      simp at hob
    rw [update_of_ne hne] at hob
    have henv : env ≠ item := by
      rintro rfl
      obtain ⟨l, hl, hmem⟩ := h.inventory env
      rw [hempty] at hl
      cases hl
      exact absurd ((hmem ob).mpr ⟨hob, hne⟩) List.not_mem_nil
    rw [update_of_ne hne, update_of_ne henv]
    exact h.alive ob env hob
  inventory e := by
    obtain ⟨l, hl, hmem⟩ := h.inventory e
    have hl' : Chain (update o.next_inv item none) (o.contains e) l := by
      apply hl.congr
      intro ob hob
      exact update_of_ne ((hmem ob).mp hob).2 _ _
    have hmem' : ∀ ob, ob ∈ l ↔ update o.super item none ob = some e := by
      intro ob
      rw [hmem]
      by_cases heq : ob = item
      · subst heq
        rw [update_self]
        exact ⟨fun hob => absurd rfl hob.2, fun hob => nomatch hob⟩
      · simp [heq]
    unfold environment.clear_object
    dsimp only
    by_cases he : e = item
    · subst he
      rw [hempty] at hl hl'
      rw [update_self]
      exact ⟨l, hl', hl'.nodup, hmem'⟩
    · rw [update_of_ne he]
      exact ⟨l, hl', hl'.nodup, hmem'⟩

theorem Forest.mem_inventory (h : Forest o) (env ob : Nat) :
    ob ∈ environment.inventory o env ↔ o.super ob = some env := by
  obtain ⟨l, hl, -, hmem⟩ := h.inventory env
  have hlen : l.length < o.num_objects + 1 :=
    Nat.lt_succ_of_le (hl.length_le fun ob hob => (h.alive ob env ((hmem ob).mp hob)).1)
  rw [environment.inventory, hl.walk hlen]
  exact hmem ob

theorem Forest.mem_environments (h : Forest o) (hdest : dest < o.num_objects)
    (hin : Relation.ReflTransGen (Tells o.super) dest ob) : ob ∈ environments o dest := by
  have hbound : ∀ a b, o.super a = some b → b < o.num_objects := fun a b hab => (h.alive a b hab).2.1
  obtain ⟨l, hl⟩ := chain_of_no_cycle hbound h.no_cycle hdest
  have hlen : l.length < o.num_objects + 1 :=
    Nat.lt_succ_of_le (hl.length_le (hl.bounded hbound hdest))
  rw [environments, hl.walk hlen]
  exact hl.mem_of_leads hin

/-! ## Removing sentences -/

structure Removes (s t : driver_t) (gone : Nat → Nat → Prop) : Prop where
  same : t = { s with sent := t.sent }
  mem : ∀ user x, x ∈ t.sent user ↔ x ∈ s.sent user ∧ ¬ gone user x.ob

theorem Removes.refl (s : driver_t) : Removes s s fun _ _ => False :=
  ⟨rfl, fun _ _ => by simp only [not_false_eq_true, and_true]⟩

theorem Removes.trans {s u : driver_t} {gone' : Nat → Nat → Prop} (h : Removes s t gone)
    (h' : Removes t u gone') : Removes s u fun user ob => gone user ob ∨ gone' user ob := by
  refine ⟨?_, fun user x => ?_⟩
  · rw [h'.same, h.same]
  · rw [h'.mem, h.mem, not_or, and_assoc]

theorem Removes.congr {s : driver_t} {gone' : Nat → Nat → Prop} (h : Removes s t gone)
    (hgone : ∀ user ob, gone user ob ↔ gone' user ob) : Removes s t gone' :=
  ⟨h.same, fun user x => by rw [h.mem, hgone]⟩

theorem Removes.enabled {s : driver_t} (h : Removes s t gone) :
    t.O_ENABLE_COMMANDS = s.O_ENABLE_COMMANDS := by rw [h.same]

theorem Removes.objects {s : driver_t} (h : Removes s t gone) :
    t.objects = s.objects := by rw [h.same]

theorem remove_sent_removes (s : driver_t) (ob user : Nat) :
    Removes s (remove_sent s ob user) fun u o => u = user ∧ o = ob := by
  refine ⟨rfl, fun u x => ?_⟩
  unfold remove_sent
  dsimp only
  by_cases hu : u = user
  · subst hu
    rw [update_self, List.mem_filter, decide_eq_true_eq]
    simp
  · rw [update_of_ne hu]
    simp [hu]

theorem Removes.guard {s : driver_t} (h : Removes s t gone) (c : Bool) :
    Removes s (if c then t else s) fun user ob => c = true ∧ gone user ob := by
  cases c with
  | true => exact h.congr fun _ _ => by simp
  | false => exact (Removes.refl s).congr fun _ _ => by simp

theorem remove_sent_of_removes (s : driver_t) (ob user : Nat) :
    Removes s (remove_sent_of s ob user) fun u o =>
      s.O_ENABLE_COMMANDS user = true ∧ u = user ∧ o = ob :=
  (remove_sent_removes s ob user).guard _

theorem foldl_removes {f : driver_t → Nat → driver_t}
    {R : (Nat → Bool) → Nat → Nat → Nat → Prop}
    (hf : ∀ s pp, Removes s (f s pp) (R s.O_ENABLE_COMMANDS pp)) (l : List Nat) (s : driver_t) :
    Removes s (l.foldl f s) fun user ob => ∃ pp ∈ l, R s.O_ENABLE_COMMANDS pp user ob := by
  induction l generalizing s with
  | nil => exact (Removes.refl s).congr fun _ _ => by simp
  | cons pp l ih =>
    have hrest := ih (f s pp)
    rw [(hf s pp).enabled] at hrest
    apply ((hf s pp).trans hrest).congr
    intro user ob
    simp

theorem part_with_removes (item : Nat) (s : driver_t) (pp : Nat) :
    Removes s (part_with item s pp) fun u o => pp ≠ item ∧
      (s.O_ENABLE_COMMANDS pp = true ∧ u = pp ∧ o = item ∨
        s.O_ENABLE_COMMANDS item = true ∧ u = item ∧ o = pp) := by
  unfold part_with
  dsimp only
  split
  · rename_i heq
    exact (Removes.refl s).congr fun _ _ => by simp [heq]
  · rename_i hne
    have h := remove_sent_of_removes s item pp
    have h' := (remove_sent_removes (remove_sent_of s item pp) pp item).guard
      ((remove_sent_of s item pp).O_ENABLE_COMMANDS item)
    rw [h.enabled] at h'
    rw [h.enabled]
    apply (h.trans h').congr
    intro user ob
    simp [hne]

/-- The sentences that a move takes away from the old environment. -/
def parted (o : objects_t) (enabled : Nat → Bool) (item env user ob : Nat) : Prop :=
  (enabled item = true ∧ user = item ∧ ob = env) ∨ (enabled env = true ∧ user = env ∧ ob = item) ∨
  ∃ pp ∈ inventory o env, pp ≠ item ∧
    (enabled pp = true ∧ user = pp ∧ ob = item ∨ enabled item = true ∧ user = item ∧ ob = pp)

theorem leave_super_spec (s : driver_t) (item env : Nat) :
    ∃ t, Removes s t (parted s.objects s.O_ENABLE_COMMANDS item env) ∧
      leave_super s item env = { t with objects := unlink_object s.objects item env } := by
  have h1 := (remove_sent_removes s env item).guard (s.O_ENABLE_COMMANDS item)
  have h2 := remove_sent_of_removes (if s.O_ENABLE_COMMANDS item then remove_sent s env item else s)
    item env
  unfold leave_super
  dsimp only
  generalize (if s.O_ENABLE_COMMANDS item then remove_sent s env item else s) = t1 at *
  rw [h1.enabled] at h2
  generalize remove_sent_of t1 item env = t2 at *
  have h12 := h1.trans h2
  have h3 := foldl_removes (R := fun enabled pp u o => pp ≠ item ∧
      (enabled pp = true ∧ u = pp ∧ o = item ∨ enabled item = true ∧ u = item ∧ o = pp))
    (part_with_removes item) (inventory t2.objects env) t2
  generalize (inventory t2.objects env).foldl (part_with item) t2 = t3 at *
  rw [h12.enabled, h12.objects] at h3
  have h := h12.trans h3
  refine ⟨t3, h.congr fun user ob => ?_, by rw [h.objects]⟩
  simp [parted, or_assoc]

def dropped (o : objects_t) (enabled : Nat → Bool) (ob user by_ob : Nat) : Prop :=
  by_ob = ob ∧ enabled user = true ∧
    ∃ env, o.super ob = some env ∧ (user = env ∨ user ∈ inventory o env)

def out_of_room (o : objects_t) (ob : Nat) : objects_t :=
  match o.super ob with
  | none => o
  | some env => unlink_object o ob env

theorem leave_room_spec (s : driver_t) (ob : Nat) :
    ∃ t, Removes s t (dropped s.objects s.O_ENABLE_COMMANDS ob) ∧
      leave_room s ob = { t with objects := out_of_room s.objects ob } := by
  unfold leave_room out_of_room
  cases hsuper : s.objects.super ob with
  | none =>
    refine ⟨s, (Removes.refl s).congr fun user o => ?_, rfl⟩
    simp [dropped, hsuper, reduceCtorEq]
  | some env =>
    dsimp only
    have h1 := remove_sent_of_removes s ob env
    generalize remove_sent_of s ob env = t1 at *
    have h2 := foldl_removes (R := fun enabled pp u o => enabled pp = true ∧ u = pp ∧ o = ob)
      (fun s pp => remove_sent_of_removes s ob pp) (inventory t1.objects env) t1
    generalize (inventory t1.objects env).foldl (fun s pp => remove_sent_of s ob pp) t1 = t2 at *
    rw [h1.enabled, h1.objects] at h2
    have h := h1.trans h2
    refine ⟨t2, h.congr fun user o => ?_, by rw [h.objects]⟩
    simp only [dropped, hsuper, Option.some.injEq, exists_eq_left']
    constructor
    · rintro (⟨hen, rfl, rfl⟩ | ⟨pp, hpp, hen, rfl, rfl⟩)
      · exact ⟨rfl, hen, .inl rfl⟩
      · exact ⟨rfl, hen, .inr hpp⟩
    · rintro ⟨rfl, hen, rfl | hpp⟩
      · exact .inl ⟨hen, rfl, rfl⟩
      · exact .inr ⟨user, hpp, hen, rfl, rfl⟩

theorem leave_old_spec (s : driver_t) (item : Nat) :
    ∃ t, Removes s t (fun user ob => ∃ env, s.objects.super item = some env ∧
        parted s.objects s.O_ENABLE_COMMANDS item env user ob) ∧
      leave_old s item = { t with objects := out_of_room s.objects item } := by
  unfold leave_old out_of_room
  cases hsuper : s.objects.super item with
  | none =>
    refine ⟨s, (Removes.refl s).congr fun user ob => ?_, rfl⟩
    simp [reduceCtorEq]
  | some env =>
    obtain ⟨t, ht, hleave⟩ := leave_super_spec s item env
    refine ⟨t, ht.congr fun user ob => ?_, hleave⟩
    simp

theorem move_object_spec (s : driver_t) (item dest : Nat) :
    (move_object s item dest).objects = link_object (out_of_room s.objects item) item dest ∧
    (move_object s item dest).O_ENABLE_COMMANDS = s.O_ENABLE_COMMANDS ∧
    ∀ user x, x ∈ (move_object s item dest).sent user ↔ x ∈ s.sent user ∧
      ¬ ∃ env, s.objects.super item = some env ∧
        parted s.objects s.O_ENABLE_COMMANDS item env user x.ob := by
  obtain ⟨t, ht, hleave⟩ := leave_old_spec s item
  unfold move_object
  dsimp only
  rw [hleave, ← ht.enabled]
  split <;> exact ⟨rfl, rfl, ht.enabled.symm ▸ ht.mem⟩

theorem remove_own_spec (s : driver_t) (ob : Nat) : ∃ gone, Removes s (remove_own s ob) gone := by
  unfold remove_own
  cases s.objects.super ob with
  | none => exact ⟨_, Removes.refl s⟩
  | some env =>
    exact ⟨_, (remove_sent_removes s ob env).trans
      (foldl_removes (R := fun enabled pp u o => enabled pp = true ∧ u = pp ∧ o = ob)
        (fun s pp => remove_sent_of_removes s ob pp) _ _)⟩

theorem enable_commands_spec (s : driver_t) (ob : Nat) (num : Bool) :
    (enable_commands s ob num).objects = s.objects ∧
    (∀ user x, x ∈ (enable_commands s ob num).sent user → x ∈ s.sent user) ∧
    ((enable_commands s ob num).O_ENABLE_COMMANDS = s.O_ENABLE_COMMANDS ∨
      s.objects.O_DESTRUCTED ob = false ∧ (enable_commands s ob num).O_ENABLE_COMMANDS =
        update s.O_ENABLE_COMMANDS ob num) := by
  unfold enable_commands
  split
  · exact ⟨rfl, fun _ _ h => h, .inl rfl⟩
  · rename_i halive
    rw [Bool.not_eq_true] at halive
    split
    · rename_i hnum
      rw [hnum]
      exact ⟨rfl, fun _ _ h => h, .inr ⟨halive, rfl⟩⟩
    · rename_i hnum
      rw [Bool.not_eq_true] at hnum
      rw [hnum]
      obtain ⟨gone, hgone⟩ := remove_own_spec s ob
      have ht := hgone.guard (s.O_ENABLE_COMMANDS ob)
      dsimp only
      generalize (if s.O_ENABLE_COMMANDS ob then remove_own s ob else s) = t at *
      refine ⟨ht.objects, fun user x hx => ((ht.mem user x).mp hx).1, .inr ⟨halive, ?_⟩⟩
      rw [ht.enabled]

/-! ## Steps -/

theorem Forest.out_of_room (h : Forest o) (ob : Nat) : Loose (out_of_room o ob) ob := by
  unfold environment.out_of_room
  cases hsuper : o.super ob with
  | none => exact h.loose hsuper
  | some env => exact h.unlink_object hsuper

theorem Forest.move_object {s : driver_t} (h : Forest s.objects)
    (hitem : item < s.objects.num_objects ∧ s.objects.O_DESTRUCTED item = false)
    (hdest : dest < s.objects.num_objects ∧ s.objects.O_DESTRUCTED dest = false)
    (hin : item ∉ environments s.objects dest) : Forest (move_object s item dest).objects := by
  rw [(move_object_spec s item dest).1]
  have hin' : ¬ Relation.ReflTransGen (Tells s.objects.super) dest item :=
    fun hway => hin (h.mem_environments hdest.1 hway)
  have hloose := h.out_of_room item
  unfold environment.out_of_room at *
  cases hsuper : s.objects.super item with
  | none | some env =>
    rw [hsuper] at hloose
    exact hloose.link_object hitem hdest hin'

theorem Forest.out_of_room_contains (h : Forest o) (hempty : o.contains ob = none) :
    (environment.out_of_room o ob).contains ob = none := by
  unfold environment.out_of_room
  cases hsuper : o.super ob with
  | none => exact hempty
  | some env =>
    have hne : ob ≠ env := by
      rintro rfl
      exact h.no_cycle ob (.single hsuper)
    exact (update_of_ne hne _ _).trans hempty

/-- The callbacks in the middle of a destruction leave the object empty, and a vital object
is in no environment while it is loaded again. -/
def Settled (s : driver_t) : action_t → Prop
  | .go =>
    match s.stack with
    | .contents ob _ :: _ =>
      s.objects.contains ob = none → s.ed_buffer ob = false → vital s ob → s.objects.super ob = none
    | .editor ob :: _ => s.objects.contains ob = none ∧ (vital s ob → s.objects.super ob = none)
    | .reloaded ob _ :: _ => s.objects.super ob = none ∧ s.objects.contains ob = none
    | _ => True
  | _ => True

theorem Forest.leave_and_finish {s : driver_t} (h : Forest s.objects)
    (hempty : s.objects.contains ob = none) (hvital : vital s ob → s.objects.super ob = none)
    (rest : List frame_t) : Forest (leave_and_finish s ob rest).objects := by
  obtain ⟨t, ht, hleave⟩ := leave_room_spec s ob
  unfold environment.leave_and_finish
  dsimp only
  rw [hleave]
  have hv : vital { t with objects := environment.out_of_room s.objects ob } ob = vital s ob := by
    rw [ht.same]
    rfl
  split
  · rename_i hvit
    rw [hv] at hvit
    have hsame : environment.out_of_room s.objects ob = s.objects := by
      rw [environment.out_of_room, hvital hvit]
    dsimp only
    rw [hsame]
    exact h.new_object
  · exact (h.out_of_room ob).clear_object (h.out_of_room_contains hempty)

/-- Where the objects are, who has commands and which sentences there are is as before. -/
structure Alike (s t : driver_t) : Prop where
  objects : t.objects = s.objects
  enabled : t.O_ENABLE_COMMANDS = s.O_ENABLE_COMMANDS
  sent : t.sent = s.sent

inductive Effect (s : driver_t) : action_t → driver_t → Prop
  | alike {a : action_t} {t : driver_t} : Alike s t → Effect s a t
  | clone {t : driver_t} : Alike { s with objects := new_object s.objects } t → Effect s .clone t
  | move {item dest : Nat} :
      item < s.objects.num_objects ∧ s.objects.O_DESTRUCTED item = false →
      dest < s.objects.num_objects ∧ s.objects.O_DESTRUCTED dest = false →
      item ∉ environments s.objects dest →
      Effect s (.move item dest) (move_object s item dest)
  | enable_commands (ob : Nat) (num : Bool) :
      Effect s (.enable_commands ob num) (enable_commands s ob num)
  | add_action (ob function verb : Nat) (V_FUNCTION : Bool) :
      Effect s (.add_action ob function verb V_FUNCTION) (add_action s ob function verb V_FUNCTION)
  | remove_action (ob act verb : Nat) :
      Effect s (.remove_action ob act verb) (remove_action s ob act verb)
  /-- The end of a destruction, after the contents and the editor. -/
  | leave {s₀ : driver_t} {ob : Nat} {rest : List frame_t} : Alike s s₀ →
      s.objects.contains ob = none → (vital s₀ ob → s.objects.super ob = none) →
      Effect s .go (leave_and_finish s₀ ob rest)
  /-- The end of the destruction of a vital object. -/
  | finish {s₀ : driver_t} {ob : Nat} {rest : List frame_t} : Alike s s₀ →
      s.objects.super ob = none → s.objects.contains ob = none →
      Effect s .go (finish_destruct s₀ ob rest)

theorem go_effect {s : driver_t} (hok : Settled s .go) (hs : go s = some t) : Effect s .go t := by
  unfold go at hs
  unfold Settled at hok
  dsimp only at hok
  split at hs
  case h_1 ob rest hstack =>
    cases hs
    unfold begin_destruct
    repeat' split
    all_goals exact .alike ⟨rfl, rfl, rfl⟩
  case h_2 ob2 rest hstack =>
    cases hs
    unfold shadow_loop
    split <;> exact .alike ⟨rfl, rfl, rfl⟩
  case h_3 ob save rest hstack =>
    cases hs
    rw [hstack] at hok
    dsimp only at hok
    unfold contents_loop
    cases hc : s.objects.contains ob with
    | some otmp => exact .alike ⟨rfl, rfl, rfl⟩
    | none =>
      dsimp only
      split
      · exact .alike ⟨rfl, rfl, rfl⟩
      · rename_i hed
        rw [Bool.not_eq_true] at hed
        exact .leave ⟨rfl, rfl, rfl⟩ hc (hok hc hed)
  case h_4 ob save otmp rest hstack =>
    cases hs
    unfold after_move
    dsimp only
    repeat' split
    all_goals exact .alike ⟨rfl, rfl, rfl⟩
  case h_5 ob rest hstack =>
    cases hs
    rw [hstack] at hok
    exact .leave ⟨rfl, rfl, rfl⟩ hok.1 hok.2
  case h_6 ob new_ob rest hstack =>
    cases hs
    rw [hstack] at hok
    unfold after_reload
    split
    · exact .alike ⟨rfl, rfl, rfl⟩
    · exact .finish ⟨rfl, rfl, rfl⟩ hok.1 hok.2
  case h_7 item dest save rest hstack | h_10 item dest next_ob save rest hstack =>
    split at hs <;> cases hs <;> exact .alike ⟨rfl, rfl, rfl⟩
  case h_8 item dest ob save rest hstack =>
    cases hs
    unfold init_loop init_second end_move
    dsimp only
    repeat' split
    all_goals exact .alike ⟨rfl, rfl, rfl⟩
  case h_9 item dest next_ob save rest hstack =>
    split at hs <;> cases hs
    · exact .alike ⟨rfl, rfl, rfl⟩
    · unfold init_second
      repeat' split
      all_goals exact .alike ⟨rfl, rfl, rfl⟩
  case h_11 save rest hstack =>
    cases hs
    exact .alike ⟨rfl, rfl, rfl⟩
  case h_12 => cases hs

theorem lpc_effect {s : driver_t} {rest : List frame_t} {a : action_t}
    (hs : lpc_step s rest a = some t) : Effect s a t := by
  unfold lpc_step at hs
  cases a with
  | clone =>
    cases hs
    exact .clone ⟨rfl, rfl, rfl⟩
  | move item dest =>
    dsimp only at hs
    split at hs
    · rename_i hcond
      obtain ⟨hi, hd, hia, hda, hin, -⟩ := hcond
      rw [Bool.not_eq_true'] at hia hda
      cases hs
      exact .move ⟨hi, hia⟩ ⟨hd, hda⟩ hin
    · cases hs
  | destruct ob | ret =>
    dsimp only at hs
    split at hs <;> cases hs
    exact .alike ⟨rfl, rfl, rfl⟩
  | enable_commands ob num =>
    cases hs
    exact .enable_commands ob num
  | add_action ob function verb V_FUNCTION =>
    cases hs
    exact .add_action ob function verb V_FUNCTION
  | remove_action ob act verb =>
    cases hs
    exact .remove_action ob act verb
  | set_this_player ob | ed ob | shadow current_object ob => cases hs; exact .alike ⟨rfl, rfl, rfl⟩
  | error num => cases hs
  | go => cases hs

theorem step_effect {s : driver_t} {a : action_t} (hok : Settled s a) (hs : step s a = some t) :
    Effect s a t := by
  unfold step at hs
  split at hs
  · exact go_effect hok hs
  · dsimp only at hs
    split at hs <;> cases hs
    exact .alike ⟨rfl, rfl, rfl⟩
  · exact lpc_effect hs
  · cases hs

theorem Forest.step {s t : driver_t} {a : action_t} (h : Forest s.objects) (hok : Settled s a)
    (hs : step s a = some t) : Forest t.objects := by
  cases step_effect hok hs with
  | alike heq =>
    rwa [heq.objects]
  | clone heq =>
    rw [heq.objects]
    exact h.new_object
  | move hitem hdest hin => exact h.move_object hitem hdest hin
  | enable_commands ob num =>
    rwa [(enable_commands_spec s ob num).1]
  | add_action ob function verb V_FUNCTION =>
    unfold environment.add_action
    dsimp only
    repeat' split
    all_goals exact h
  | remove_action ob act verb => exact h
  | leave heq hempty hvital =>
    rw [← heq.objects] at h hempty hvital
    exact h.leave_and_finish hempty hvital _
  | finish heq hsuper hempty =>
    rw [← heq.objects] at h hsuper hempty
    exact (h.loose hsuper).clear_object hempty

/-! ## The law of the forest -/

/-- In every run whose steps are settled the objects are a forest. -/
theorem the_objects_are_a_forest {s : driver_t} (h : Reachable start step Settled s) :
    Forest s.objects :=
  h.inv (I := fun s => Forest s.objects) Forest.start fun _ _ _ hi hok hs => hi.step hok hs

instance (s : driver_t) (a : action_t) : Decidable (Settled s a) := by
  cases a <;> unfold Settled
  case go =>
    dsimp only
    split <;> infer_instance
  all_goals exact inferInstanceAs (Decidable True)

/-- A box in a room, with a coin that goes to the room when the box is destructed. -/
def break_a_box : List action_t :=
  [.clone, .clone, .clone, .move 3 2, .go, .go, .move 4 3, .go, .go, .destruct 3, .go, .go,
    .move 4 2, .go, .go, .go, .ret, .go, .go]

theorem a_broken_box_leaves_a_forest :
    (run step start break_a_box).map (fun s => ([2, 3, 4].map s.objects.super, s.stack)) =
      some ([none, none, some 2], [.lpc]) ∧
    ∃ s, run step start break_a_box = some s ∧ Forest s.objects := by
  refine ⟨by decide, ?_⟩
  have hsome : (run step start break_a_box).isSome := by decide
  obtain ⟨s, hs⟩ := Option.isSome_iff_exists.mp hsome
  have hok : Along step Settled start break_a_box := by decide
  exact ⟨s, hs, the_objects_are_a_forest (.of_run .start hok hs)⟩

/-- While the text of an editor is saved, the master moves a coin into the object. -/
def save_an_editor : List action_t :=
  [.clone, .clone, .ed 2, .destruct 2, .go, .go, .move 3 2, .go, .go, .ret, .go]

theorem a_coin_stays_in_a_destructed_object :
    ¬ ∀ s, Reachable start step (fun _ _ => True) s → Forest s.objects := by
  intro hall
  have hrun : (run step start save_an_editor).map
      (fun s => (s.objects.super 3, s.objects.O_DESTRUCTED 2)) = some (some 2, true) := by
    decide
  obtain ⟨s, hs, hlast⟩ := Option.map_eq_some_iff.mp hrun
  rw [Prod.mk.injEq] at hlast
  have hforest := hall s (.of_any hs)
  have halive := (hforest.alive 3 2 hlast.1).2.2.2
  simp [hlast.2] at halive

end mudos.environment
