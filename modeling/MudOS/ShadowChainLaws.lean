-- Shadows are chains without destructed objects in every run in which the LPC that runs in
-- the middle of `f_shadow` and of a destruction leaves the objects there as they were, and
-- then the destruction of a chain destructs each object of it once.
import MudOS.EnvironmentsLaws
import MudOS.ShadowChains

open mudos.chains mudos.environment mudos.runs Function Option List

namespace mudos.shadow_chains

variable {t : driver_t} {ob : Nat} {above : Nat → Prop} {rest : List frame_t} {s : state_t}
  {top : frame_t} {a : action_t}

variable {x current_object : Nat} {above' : Nat → Prop} {stack : List frame_t}

/-! ## Links -/

/-- The two links of a shadow say the same, and lead through objects that are not destructed. -/
structure Linked (s : driver_t) : Prop where
  inverse : ∀ x y, s.shadowing x = some y ↔ s.shadowed y = some x
  acyclic : ∀ x, ¬ Relation.TransGen (Tells s.shadowed) x x
  lt : ∀ x y, s.shadowing x = some y → x < s.objects.num_objects ∧ y < s.objects.num_objects
  alive : ∀ x y, s.shadowing x = some y →
    s.objects.O_DESTRUCTED x = false ∧ s.objects.O_DESTRUCTED y = false

structure Quiet (s t : driver_t) : Prop where
  shadowing : t.shadowing = s.shadowing
  shadowed : t.shadowed = s.shadowed
  destructed : t.objects.O_DESTRUCTED = s.objects.O_DESTRUCTED
  num_objects : s.objects.num_objects ≤ t.objects.num_objects

theorem Linked.quiet {s : driver_t} (h : Linked s) (hq : Quiet s t) : Linked t := by
  refine ⟨fun x y => ?_, fun x => ?_, fun x y hxy => ?_, fun x y hxy => ?_⟩
  · rw [hq.shadowing, hq.shadowed]
    exact h.inverse x y
  · rw [hq.shadowed]
    exact h.acyclic x
  · rw [hq.shadowing] at hxy
    obtain ⟨hx, hy⟩ := h.lt x y hxy
    exact ⟨Nat.lt_of_lt_of_le hx hq.num_objects, Nat.lt_of_lt_of_le hy hq.num_objects⟩
  · rw [hq.shadowing] at hxy
    rw [hq.destructed]
    exact h.alive x y hxy

theorem Linked.flip {s : driver_t} (h : Linked s) {y : Nat}
    (hxy : Relation.ReflTransGen (Tells s.shadowed) x y) :
    Relation.ReflTransGen (Tells s.shadowing) y x := by
  induction hxy with
  | refl => exact .refl
  | tail _ hyz ih => exact .head ((h.inverse _ _).mpr hyz) ih

theorem Linked.acyclic_down {s : driver_t} (h : Linked s) (x : Nat) :
    ¬ Relation.TransGen (Tells s.shadowing) x x := by
  intro hxx
  apply h.acyclic x
  rw [← Relation.transGen_swap]
  refine Relation.TransGen.mono ?_ _ _ hxx
  exact fun y z hyz => (h.inverse y z).mp hyz

theorem Linked.lt_shadowed {s : driver_t} (h : Linked s) {y : Nat} (hxy : s.shadowed x = some y) :
    y < s.objects.num_objects := (h.lt y x ((h.inverse y x).mpr hxy)).1

theorem Linked.chain {s : driver_t} (h : Linked s) (hob : ob < s.objects.num_objects) :
    Chain s.shadowed (some ob) (chain s ob) := by
  obtain ⟨l, hl⟩ := chain_of_no_cycle (fun _ _ => h.lt_shadowed) h.acyclic hob
  have hlen := hl.length_le (hl.bounded (fun _ _ => h.lt_shadowed) hob)
  rwa [shadow_chains.chain, hl.walk (Nat.lt_succ_of_le hlen)]

theorem Linked.shadowed_by {s : driver_t} (h : Linked s) (hob : ob < s.objects.num_objects) :
    Chain s.shadowing (some ob) (shadowed_by s ob) := by
  have hbound : ∀ x y, s.shadowing x = some y → y < s.objects.num_objects := fun x y hxy =>
    (h.lt x y hxy).2
  obtain ⟨l, hl⟩ := chain_of_no_cycle hbound h.acyclic_down hob
  have hlen := hl.length_le (hl.bounded hbound hob)
  rwa [shadow_chains.shadowed_by, hl.walk (Nat.lt_succ_of_le hlen)]

theorem last_of_chain {next : Nat → Option Nat} {l : List Nat} (h : Chain next (some x) l) :
    ∃ y, l.getLast? = some y ∧ next y = none ∧ Relation.ReflTransGen (Tells next) x y := by
  induction l generalizing x with
  | nil => cases h
  | cons z l ih =>
    cases h with
    | cons hl =>
      cases hnext : next z with
      | none =>
        rw [hnext] at hl
        cases hl
        exact ⟨z, rfl, hnext, .refl⟩
      | some w =>
        rw [hnext] at hl
        obtain ⟨y, hy, hnone, hlead⟩ := ih hl
        refine ⟨y, ?_, hnone, .head hnext hlead⟩
        rw [getLast?_cons, hy]
        rfl

theorem linked_shadow {s : driver_t} (h : Linked s) {top : Nat}
    (hcur : s.shadowing current_object = none) (htop : s.shadowed top = none)
    (hloop : ¬ Relation.ReflTransGen (Tells s.shadowed) current_object top)
    (hlt : current_object < s.objects.num_objects ∧ top < s.objects.num_objects)
    (halive : s.objects.O_DESTRUCTED current_object = false ∧ s.objects.O_DESTRUCTED top = false) :
    Linked { s with
      shadowing := update s.shadowing current_object (some top)
      shadowed := update s.shadowed top (some current_object) } := by
  refine ⟨fun x y => ?_, no_cycle_update h.acyclic hloop, fun x y hxy => ?_, fun x y hxy => ?_⟩
  · have h1 := h.inverse x y
    simp only [update_apply]
    grind
  · by_cases hx : x = current_object
    · subst hx
      obtain rfl : top = y := by simpa using hxy
      exact hlt
    · exact h.lt x y (by simpa [update_apply, hx] using hxy)
  · by_cases hx : x = current_object
    · subst hx
      obtain rfl : top = y := by simpa using hxy
      exact halive
    · exact h.alive x y (by simpa [update_apply, hx] using hxy)

theorem Linked.fewer {s : driver_t} (h : Linked s) (hobjects : t.objects = s.objects)
    (hinverse : ∀ x y, t.shadowing x = some y ↔ t.shadowed y = some x)
    (hlead : ∀ x y, t.shadowed x = some y → Relation.TransGen (Tells s.shadowed) x y) :
    Linked t := by
  have hends : ∀ x y, t.shadowing x = some y → (∃ z, s.shadowed y = some z) ∧
      ∃ z, s.shadowing x = some z := by
    intro x y hxy
    have hyx := hlead y x ((hinverse x y).mp hxy)
    obtain ⟨z, hz, -⟩ := Relation.TransGen.head'_iff.mp hyx
    obtain ⟨w, -, hw⟩ := Relation.TransGen.tail'_iff.mp hyx
    exact ⟨⟨z, hz⟩, w, (h.inverse x w).mpr hw⟩
  refine ⟨hinverse, fun x hxx => ?_, fun x y hxy => ?_, fun x y hxy => ?_⟩
  · exact h.acyclic x (Relation.TransGen.lift' id hlead x x hxx)
  · obtain ⟨⟨z, hz⟩, w, hw⟩ := hends x y hxy
    rw [hobjects]
    exact ⟨(h.lt x w hw).1, (h.lt z y ((h.inverse z y).mpr hz)).2⟩
  · obtain ⟨⟨z, hz⟩, w, hw⟩ := hends x y hxy
    rw [hobjects]
    exact ⟨(h.alive x w hw).1, (h.alive z y ((h.inverse z y).mpr hz)).2⟩

theorem linked_leave_shadows {s : driver_t} (h : Linked s) (ob : Nat) : Linked (leave_shadows s ob) := by
  refine h.fewer rfl (fun x y => ?_) fun x y hxy => ?_
  · have h1 := h.inverse x y
    have h2 := h.inverse ob y
    have h3 := h.inverse x ob
    simp only [leave_shadows]
    cases hd : s.shadowing ob <;> cases hu : s.shadowed ob <;> simp only [update_apply] <;>
      grind
  · simp only [leave_shadows] at hxy
    by_cases hx : x = ob
    · simp [hx] at hxy
    rw [update_of_ne hx] at hxy
    cases hd : s.shadowing ob with
    | none =>
      rw [hd] at hxy
      exact .single hxy
    | some d =>
      simp only [hd, update_apply] at hxy
      split_ifs at hxy with hxd
      · subst hxd
        exact .tail (.single ((h.inverse ob x).mp hd)) hxy
      · exact .single hxy

theorem linked_part {s : driver_t} (h : Linked s) (x : Nat) (stack : List frame_t) :
    Linked { s with
      shadowed :=
        match s.shadowing x with
        | none => s.shadowed
        | some y => update s.shadowed y none
      shadowing := update s.shadowing x none
      stack } := by
  refine h.fewer rfl (fun a b => ?_) fun a b hab => .single ?_
  · have h1 := h.inverse a b
    have h2 := h.inverse x b
    cases hx : s.shadowing x <;> simp only [update_apply] <;> grind
  · cases hx : s.shadowing x with
    | none =>
      simp only [hx] at hab
      exact hab
    | some y =>
      simp only [hx, update_apply] at hab
      split_ifs at hab
      exact hab

theorem linked_finish_destruct {s : driver_t} (h : Linked s) (hdown : s.shadowing ob = none)
    (hup : s.shadowed ob = none) (rest : List frame_t) : Linked (finish_destruct s ob rest) := by
  refine ⟨h.inverse, h.acyclic, h.lt, fun x y hxy => ?_⟩
  have hx : x ≠ ob := by
    rintro rfl
    cases hdown.symm.trans hxy
  have hy : y ≠ ob := by
    rintro rfl
    cases hup.symm.trans ((h.inverse x y).mp hxy)
  simp only [finish_destruct, clear_object, update_of_ne hx, update_of_ne hy]
  exact h.alive x y hxy

/-! ## Frames -/

/-- The objects that are destructed when the frame is over, if it ends without an error. -/
def Ends (chains : Nat → List Nat) : frame_t → Nat → Nat → Prop
  | .destruct ob, _, x => x = ob
  | .contents ob _, _, x => x = ob
  | .moved ob _ _, _, x => x = ob
  | .editor ob, _, x => x = ob
  | .reloaded ob _, _, x => x = ob
  | .shadows _, height, x => x ∈ chains height
  | .raise, _, _ => True
  | _, _, _ => False

/-- A loop over shadows that has come to the end of the chain has destructed all of it, but for what
the frame above it destructs. -/
def Kept (chains : Nat → List Nat) (gone : Nat → Bool) : (Nat → Prop) → List frame_t → Prop
  | _, [] => True
  | above, frame :: rest =>
    (frame = .shadows none → ∀ x ∈ chains rest.length, gone x = true ∨ above x) ∧
      Kept chains gone (Ends chains frame rest.length) rest

variable {chains : Nat → List Nat} {gone : Nat → Bool}

theorem Kept.mono {gone' : Nat → Bool} (h : Kept chains gone above stack)
    (hgone : ∀ x, gone x = true → gone' x = true)
    (habove : ∀ x, above x → gone' x = true ∨ above' x) : Kept chains gone' above' stack := by
  induction stack generalizing above above' with
  | nil => trivial
  | cons frame rest ih =>
    refine ⟨fun hframe x hx => ?_, ih h.2 fun x hx => .inr hx⟩
    rcases h.1 hframe x hx with hx | hx
    · exact .inl (hgone x hx)
    · exact habove x hx

theorem Kept.congr {chains' : Nat → List Nat} (h : Kept chains gone above stack)
    (hsame : ∀ n < stack.length, chains' n = chains n) : Kept chains' gone above stack := by
  induction stack generalizing above with
  | nil => trivial
  | cons frame rest ih =>
    have hlast : chains' rest.length = chains rest.length := hsame _ (Nat.lt_succ_self _)
    have hends : Ends chains' frame rest.length = Ends chains frame rest.length := by
      funext x
      cases frame <;> first
        | rfl
        | simp only [Ends, hlast]
    refine ⟨?_, ?_⟩
    · rw [hlast]
      exact h.1
    · rw [hends]
      exact ih h.2 fun n hn => hsame n (Nat.lt_succ_of_lt hn)

theorem Kept.push {frame : frame_t} (h : Kept chains gone (Ends chains frame rest.length) rest)
    (hframe : frame ≠ .shadows none) :
    Kept chains gone above (frame :: rest) := ⟨fun heq => absurd heq hframe, h⟩

theorem Kept.turn {old new : frame_t} (h : Kept chains gone above (old :: rest))
    (hnew : new ≠ .shadows none)
    (hends : ∀ x, Ends chains old rest.length x → Ends chains new rest.length x) :
    Kept chains gone above' (new :: rest) :=
  .push (h.2.mono (fun _ => id) fun x hx => .inr (hends x hx)) hnew

theorem Kept.pop {gone' : Nat → Bool} {old : frame_t} (h : Kept chains gone above (old :: rest))
    (hgone : ∀ x, gone x = true → gone' x = true)
    (hends : ∀ x, Ends chains old rest.length x → gone' x = true) : Kept chains gone' above' rest :=
  h.2.mono hgone fun x hx => .inl (hends x hx)

theorem Kept.drop (h : Kept chains gone above stack) (num : Nat)
    (hhead : (stack.drop num).head? ≠ some (.shadows none)) (above' : Nat → Prop) :
    Kept chains gone above' (stack.drop num) := by
  induction num generalizing stack above with
  | zero =>
    cases stack with
    | nil => trivial
    | cons frame rest =>
      refine ⟨fun heq => ?_, h.2⟩
      subst heq
      exact absurd rfl hhead
  | succ num ih =>
    cases stack with
    | nil => trivial
    | cons frame rest => exact ih h.2 hhead

/-! ## What holds in a run -/

structure Sound (s : state_t) : Prop where
  linked : Linked s.d
  calls : ∀ call ∈ s.calls, call.current_object < s.d.objects.num_objects ∧
    call.ob < s.d.objects.num_objects
  once : ∀ x, s.destructions x = if s.d.objects.O_DESTRUCTED x then 1 else 0
  kept : Kept s.chains s.d.objects.O_DESTRUCTED (fun _ => False) s.d.stack

/-- The LPC that has run leaves it to the driver what the driver has begun. When `f_shadow` links,
its object has not begun to shadow anything, nor has the other one come to shadow it; an object at
the end of its destruction is in no chain and not destructed yet; and at each turn of a loop over
shadows the objects that are left are destructed or still in the chain. -/
def Undisturbed (s : state_t) : event_t → Prop
  | .act _ =>
    (∀ ob, finishes s.d = some ob → s.d.shadowing ob = none ∧ s.d.shadowed ob = none ∧
      s.d.objects.O_DESTRUCTED ob = false) ∧
    ∀ ob2 rest, s.d.stack = .shadows (some ob2) :: rest → ∀ x ∈ s.chains rest.length,
      s.d.objects.O_DESTRUCTED x = true ∨ x ∈ shadowed_by s.d ob2
  | .shadow _ _ => True
  | .answer approved => approved = true → ∀ call ∈ s.calls.head?,
    s.d.shadowing call.current_object = none ∧ call.current_object ∉ shadowed_by s.d call.ob

theorem sound_start : Sound start where
  linked := by
    refine ⟨fun _ _ => ⟨nofun, nofun⟩, fun x h => ?_, nofun, nofun⟩
    obtain ⟨y, hy, -⟩ := Relation.TransGen.head'_iff.mp h
    cases hy
  calls := nofun
  once _ := rfl
  kept := ⟨nofun, trivial⟩

theorem sound_note (h : Sound s) (hlinked : Linked t)
    (hnum : s.d.objects.num_objects ≤ t.objects.num_objects)
    (hgone : ∀ x, t.objects.O_DESTRUCTED x =
      (s.d.objects.O_DESTRUCTED x || finishes s.d == some x))
    (hfinishes : ∀ x, finishes s.d = some x → s.d.objects.O_DESTRUCTED x = false)
    (hkept : Kept (note s t).chains t.objects.O_DESTRUCTED (fun _ => False) t.stack) :
    Sound (note s t) := by
  refine ⟨hlinked, fun call hcall => ?_, fun x => ?_, hkept⟩
  · obtain ⟨h1, h2⟩ := h.calls call ((dropWhile_sublist _).subset hcall)
    exact ⟨Nat.lt_of_lt_of_le h1 hnum, Nat.lt_of_lt_of_le h2 hnum⟩
  · have hcount := h.once x
    have hgone := hgone x
    cases hfin : finishes s.d with
    | none =>
      simp only [note, hfin] at hgone ⊢
      simpa [hgone] using hcount
    | some ob =>
      have hob := hfinishes ob hfin
      simp only [note, hfin, update_apply] at hgone ⊢
      by_cases hx : x = ob
      · subst hx
        simp [hgone, hcount, hob]
      · simpa [hgone, hx, Ne.symm hx] using hcount

/-! ## Steps of the driver -/

theorem Quiet.refl (s : driver_t) : Quiet s s := ⟨rfl, rfl, rfl, Nat.le_refl _⟩

theorem Quiet.trans {s u : driver_t} (h : Quiet s t) (h' : Quiet t u) : Quiet s u :=
  ⟨h'.shadowing.trans h.shadowing, h'.shadowed.trans h.shadowed, h'.destructed.trans h.destructed,
    Nat.le_trans h.num_objects h'.num_objects⟩

theorem Removes.quiet {s : driver_t} {removed : Nat → Nat → Prop} (h : Removes s t removed) :
    Quiet s t ∧ t.stack = s.stack := by
  rw [h.same]
  exact ⟨⟨rfl, rfl, rfl, Nat.le_refl _⟩, rfl⟩

theorem chains_note (h : ∀ ob rest, s.d.stack ≠ .destruct ob :: rest) (t : driver_t) :
    (note s t).chains = s.chains := by simp [note]

theorem ne_destruct (hstack : s.d.stack = top :: rest) (htop : ∀ ob, top ≠ .destruct ob) (ob : Nat)
    (rest' : List frame_t) : s.d.stack ≠ .destruct ob :: rest' := fun heq =>
  htop ob (cons.inj (hstack.symm.trans heq)).1

theorem sound_quiet (h : Sound s) (hq : Quiet s.d t) (hfinishes : finishes s.d = none)
    (hkept : Kept (note s t).chains s.d.objects.O_DESTRUCTED (fun _ => False) t.stack) :
    Sound (note s t) := by
  refine sound_note h (h.linked.quiet hq) hq.num_objects (fun x => ?_) (fun x hx => ?_) ?_
  · rw [hq.destructed, hfinishes]
    simp
  · simp [hfinishes] at hx
  · rwa [hq.destructed]

theorem leave_room_quiet (s : driver_t) (ob : Nat) : Quiet s (leave_room s ob) ∧
    vital (leave_room s ob) ob = vital s ob := by
  obtain ⟨t, ht, hleave⟩ := leave_room_spec s ob
  rw [hleave, ht.same]
  refine ⟨⟨rfl, rfl, ?_, ?_⟩, rfl⟩
  · simp only [out_of_room]
    split <;> rfl
  · simp only [out_of_room]
    split <;> exact Nat.le_refl _

theorem sound_finish {s₀ : driver_t} (h : Sound s) (hq : Quiet s.d s₀)
    (hstack : s.d.stack = top :: rest) (htop : ∀ x, Ends s.chains top rest.length x → x = ob)
    (hdestruct : ∀ ob, top ≠ .destruct ob) (hfinishes : finishes s.d = some ob)
    (hok : ∀ x, finishes s.d = some x → s.d.shadowing x = none ∧ s.d.shadowed x = none ∧
      s.d.objects.O_DESTRUCTED x = false) : Sound (note s (finish_destruct s₀ ob rest)) := by
  have hkept := h.kept
  rw [hstack] at hkept
  obtain ⟨hdown, hup, halive⟩ := hok ob hfinishes
  rw [← hq.shadowing] at hdown
  rw [← hq.shadowed] at hup
  refine sound_note h (linked_finish_destruct (h.linked.quiet hq) hdown hup rest) hq.num_objects
    (fun x => ?_) (fun x hx => ?_) ?_
  · simp only [finish_destruct, clear_object, update_apply, hq.destructed, hfinishes]
    by_cases hx : x = ob
    · simp [hx]
    · simp [hx, Ne.symm hx]
  · rw [hfinishes] at hx
    cases hx
    exact halive
  · rw [chains_note (ne_destruct hstack hdestruct)]
    refine hkept.pop (fun x hx => ?_) fun x hx => ?_
    · simp only [finish_destruct, clear_object, update_apply, hq.destructed]
      split_ifs
      · rfl
      · exact hx
    · obtain rfl := htop x hx
      exact update_self ..

theorem sound_leave_and_finish {s₀ : driver_t} (h : Sound s) (hq : Quiet s.d s₀)
    (hstack : s.d.stack = top :: rest) (htop : ∀ x, Ends s.chains top rest.length x → x = ob)
    (hdestruct : ∀ ob, top ≠ .destruct ob)
    (hfinishes : finishes s.d = if vital s₀ ob then none else some ob)
    (hok : ∀ x, finishes s.d = some x → s.d.shadowing x = none ∧ s.d.shadowed x = none ∧
      s.d.objects.O_DESTRUCTED x = false) : Sound (note s (leave_and_finish s₀ ob rest)) := by
  obtain ⟨hleave, hvital⟩ := leave_room_quiet s₀ ob
  have hq := hq.trans hleave
  simp only [leave_and_finish, hvital]
  split_ifs with hv
  · have hkept := h.kept
    rw [hstack] at hkept
    rw [if_pos hv] at hfinishes
    refine sound_quiet h ⟨hq.shadowing, hq.shadowed, hq.destructed, Nat.le_succ_of_le hq.num_objects⟩
      hfinishes ?_
    rw [chains_note (ne_destruct hstack hdestruct)]
    exact .push (hkept.turn nofun htop) nofun
  · rw [if_neg hv] at hfinishes
    exact sound_finish h hq hstack htop hdestruct hfinishes hok

theorem sound_begin_destruct (h : Sound s) (hstack : s.d.stack = .destruct ob :: rest) :
    Sound (note s (begin_destruct s.d ob rest)) := by
  have hkept := h.kept
  rw [hstack] at hkept
  have hfinishes : finishes s.d = none := by simp [finishes, hstack]
  have hchains : ∀ t, (note s t).chains = update s.chains rest.length (chain s.d ob) := by
    intro t
    simp [note, hstack]
  have hbelow : ∀ t, Kept (note s t).chains s.d.objects.O_DESTRUCTED (fun x => x = ob) rest := by
    intro t
    rw [hchains]
    exact hkept.2.congr fun n hn => update_of_ne (Nat.ne_of_lt hn) _ _
  unfold begin_destruct
  split_ifs with hrestrict hgone hbottom
  · exact sound_quiet h ⟨rfl, rfl, rfl, Nat.le_refl _⟩ hfinishes
      (.push ((hbelow _).mono (fun _ => id) fun _ _ => .inr trivial) (by simp))
  · refine sound_quiet h ⟨rfl, rfl, rfl, Nat.le_refl _⟩ hfinishes
      ((hbelow _).mono (fun _ => id) fun x hx => .inl ?_)
    rwa [hx]
  · refine sound_quiet h ⟨rfl, rfl, rfl, Nat.le_refl _⟩ hfinishes (.push ?_ ?_)
    · refine (hbelow _).mono (fun _ => id) fun x hx => .inr ?_
      rw [hx, Ends, hchains, update_self]
      exact mem_cons_self
    · obtain ⟨x, hx⟩ := ne_none_iff_exists'.mp hbottom.1
      rw [hx]
      simp [walk, getLast?_cons]
  · refine sound_note h (linked_leave_shadows h.linked ob |>.quiet ⟨rfl, rfl, rfl, Nat.le_refl _⟩)
      (Nat.le_refl _) (fun x => ?_) (fun x hx => ?_)
      (.push ((hbelow _).mono (fun _ => id) fun x hx => .inr hx) (by simp))
    · rw [hfinishes]
      simp [leave_shadows]
    · simp [hfinishes] at hx

theorem sound_shadow_loop (h : Sound s) {ob2 : Option Nat}
    (hstack : s.d.stack = .shadows ob2 :: rest)
    (hok : ∀ x, ob2 = some x → ∀ y ∈ s.chains rest.length,
      s.d.objects.O_DESTRUCTED y = true ∨ y ∈ shadowed_by s.d x) :
    Sound (note s (shadow_loop s.d ob2 rest)) := by
  have hkept := h.kept
  rw [hstack] at hkept
  have hfinishes : finishes s.d = none := by simp [finishes, hstack]
  have hchains : ∀ t, (note s t).chains = s.chains :=
    chains_note (ne_destruct hstack nofun)
  rcases ob2 with _ | x
  · refine sound_quiet h ⟨rfl, rfl, rfl, Nat.le_refl _⟩ hfinishes ?_
    rw [hchains]
    refine hkept.pop (fun _ => id) fun y hy => ?_
    exact (hkept.1 rfl y hy).resolve_right id
  · refine sound_note h (linked_part h.linked x _) (Nat.le_refl _) (fun y => ?_) (fun y hy => ?_) ?_
    · rw [hfinishes]
      simp [shadow_loop]
    · simp [hfinishes] at hy
    · rw [hchains]
      refine .push ⟨fun hnone y hy => ?_, hkept.2⟩ nofun
      refine (hok x rfl y hy).imp_right fun hmem => ?_
      have hlast : s.d.shadowing x = none := by simpa using hnone
      simpa [shadowed_by, walk, walk_none, hlast, Ends] using hmem

theorem sound_contents_loop (h : Sound s) {save : Option Nat}
    (hstack : s.d.stack = .contents ob save :: rest)
    (hok : ∀ x, finishes s.d = some x → s.d.shadowing x = none ∧ s.d.shadowed x = none ∧
      s.d.objects.O_DESTRUCTED x = false) : Sound (note s (contents_loop s.d ob save rest)) := by
  have hkept := h.kept
  rw [hstack] at hkept
  have hchains : ∀ t, (note s t).chains = s.chains :=
    chains_note (ne_destruct hstack nofun)
  unfold contents_loop
  cases hcontains : s.d.objects.contains ob with
  | some otmp =>
    refine sound_quiet h ⟨rfl, rfl, rfl, Nat.le_refl _⟩ (by simp [finishes, hstack, hcontains]) ?_
    rw [hchains]
    exact .push (hkept.turn nofun fun _ => id) nofun
  | none =>
    simp only
    split_ifs with hed
    · refine sound_quiet h ⟨rfl, rfl, rfl, Nat.le_refl _⟩ (by simp [finishes, hstack, hed]) ?_
      rw [hchains]
      exact .push (hkept.turn nofun fun _ => id) nofun
    · rw [Bool.not_eq_true] at hed
      refine sound_leave_and_finish h (.refl _) hstack (fun _ => id) nofun ?_ hok
      cases hv : vital s.d ob <;> simp [finishes, hstack, hcontains, hed, hv]

theorem sound_after_move (h : Sound s) {otmp : Nat} {save : Option Nat}
    (hstack : s.d.stack = .moved ob save otmp :: rest) :
    Sound (note s (after_move s.d ob save otmp rest)) := by
  have hkept := h.kept
  rw [hstack] at hkept
  have hfinishes : finishes s.d = none := by simp [finishes, hstack]
  have hchains : ∀ t, (note s t).chains = s.chains :=
    chains_note (ne_destruct hstack nofun)
  simp only [after_move]
  split_ifs with hgone hstays
  · refine sound_quiet h ⟨rfl, rfl, rfl, Nat.le_refl _⟩ hfinishes ?_
    rw [hchains]
    refine hkept.pop (fun _ => id) fun x hx => ?_
    obtain rfl : x = ob := hx
    exact hgone
  · refine sound_quiet h ⟨rfl, rfl, rfl, Nat.le_refl _⟩ hfinishes ?_
    rw [hchains]
    exact .push (hkept.turn nofun fun _ => id) nofun
  · refine sound_quiet h ⟨rfl, rfl, rfl, Nat.le_refl _⟩ hfinishes ?_
    rw [hchains]
    exact hkept.turn nofun fun _ => id

theorem sound_after_reload (h : Sound s) {new_ob : Nat}
    (hstack : s.d.stack = .reloaded ob new_ob :: rest)
    (hok : ∀ x, finishes s.d = some x → s.d.shadowing x = none ∧ s.d.shadowed x = none ∧
      s.d.objects.O_DESTRUCTED x = false) : Sound (note s (after_reload s.d ob new_ob rest)) := by
  have hkept := h.kept
  rw [hstack] at hkept
  unfold after_reload
  by_cases hgone : s.d.objects.O_DESTRUCTED new_ob = true
  · rw [if_pos hgone]
    refine sound_quiet h ⟨rfl, rfl, rfl, Nat.le_refl _⟩ (by simp [finishes, hstack, hgone]) ?_
    rw [chains_note (ne_destruct hstack nofun)]
    exact hkept.turn nofun fun _ _ => trivial
  · rw [if_neg hgone]
    refine sound_finish h ?_ hstack (fun _ => id) nofun (by simp [finishes, hstack, hgone]) hok
    exact ⟨rfl, rfl, rfl, Nat.le_refl _⟩

def moving : frame_t → Bool
  | .init_dest _ _ _ => true
  | .inits _ _ _ _ => true
  | .init_item _ _ _ _ => true
  | .init_ob _ _ _ _ => true
  | .init_last _ => true
  | _ => false

theorem Kept.pushes {new : List frame_t} (h : Kept chains gone (fun _ => False) rest)
    (hnew : ∀ frame ∈ new, frame ≠ .shadows none) :
    Kept chains gone (fun _ => False) (new ++ rest) := by
  induction new with
  | nil => exact h
  | cons frame new ih =>
    have hrest := ih fun frame h => hnew frame (mem_cons_of_mem _ h)
    exact .push (hrest.mono (fun _ => id) nofun) (hnew frame mem_cons_self)

theorem sound_moving (h : Sound s) (hstack : s.d.stack = top :: rest) (htop : moving top = true)
    (hq : Quiet s.d t) (new : List frame_t) (ht : t.stack = new ++ rest)
    (hnew : ∀ frame ∈ new, frame ≠ .shadows none) : Sound (note s t) := by
  have hkept := h.kept
  rw [hstack] at hkept
  have hfinishes : finishes s.d = none := by
    unfold finishes
    rw [hstack]
    cases top <;> first
      | rfl
      | cases htop
  have hdestruct : ∀ ob, top ≠ .destruct ob := by
    rintro ob rfl
    cases htop
  refine sound_quiet h hq hfinishes ?_
  rw [chains_note (ne_destruct hstack hdestruct), ht]
  refine Kept.pushes (hkept.pop (fun _ => id) fun x hx => ?_) hnew
  cases top <;> first
    | exact hx.elim
    | cases htop

theorem init_second_stack (s : driver_t) (item dest : Nat) (next_ob save : Option Nat)
    (rest : List frame_t) : Quiet s (init_second s item dest next_ob save rest) ∧
      ∃ new, (init_second s item dest next_ob save rest).stack = new ++ rest ∧
        ∀ frame ∈ new, frame ≠ .shadows none := by
  unfold init_second
  split_ifs
  · exact ⟨⟨rfl, rfl, rfl, Nat.le_refl _⟩, [.raise], rfl, by simp⟩
  · exact ⟨⟨rfl, rfl, rfl, Nat.le_refl _⟩, [.lpc, .init_ob item dest next_ob save], rfl, by simp⟩
  · exact ⟨⟨rfl, rfl, rfl, Nat.le_refl _⟩, [.inits item dest next_ob save], rfl, by simp⟩

theorem init_loop_stack (s : driver_t) (item dest : Nat) (ob save : Option Nat)
    (rest : List frame_t) : Quiet s (init_loop s item dest ob save rest) ∧
      ∃ new, (init_loop s item dest ob save rest).stack = new ++ rest ∧
        ∀ frame ∈ new, frame ≠ .shadows none := by
  rcases ob with _ | ob
  · simp only [init_loop]
    split_ifs
    · exact ⟨⟨rfl, rfl, rfl, Nat.le_refl _⟩, [.raise], rfl, by simp⟩
    · exact ⟨⟨rfl, rfl, rfl, Nat.le_refl _⟩, [.lpc, .init_last save], rfl, by simp⟩
    · exact ⟨⟨rfl, rfl, rfl, Nat.le_refl _⟩, [], rfl, by simp⟩
  · simp only [init_loop]
    by_cases hitem : ob = item
    · rw [if_pos hitem]
      exact ⟨⟨rfl, rfl, rfl, Nat.le_refl _⟩, [.inits item dest _ save], rfl, by simp⟩
    rw [if_neg hitem]
    by_cases hgone : s.objects.O_DESTRUCTED ob = true
    · rw [if_pos hgone]
      exact ⟨⟨rfl, rfl, rfl, Nat.le_refl _⟩, [.raise], rfl, by simp⟩
    rw [if_neg hgone]
    by_cases hcommands : s.O_ENABLE_COMMANDS ob = true
    · rw [if_pos hcommands]
      exact ⟨⟨rfl, rfl, rfl, Nat.le_refl _⟩, [.lpc, .init_item item dest _ save], rfl, by simp⟩
    rw [if_neg hcommands]
    exact init_second_stack s item dest _ save rest

theorem sound_go (h : Sound s) (hok : Undisturbed s (.act .go)) (hs : go s.d = some t) :
    Sound (note s t) := by
  have hend := fun save rest => (⟨rfl, rfl, rfl, Nat.le_refl _⟩ : Quiet s.d (end_move s.d save rest))
  unfold go at hs
  split at hs
  case h_1 ob rest hstack =>
    cases hs
    exact sound_begin_destruct h hstack
  case h_2 ob2 rest hstack =>
    cases hs
    refine sound_shadow_loop h hstack fun x hx => ?_
    subst hx
    exact hok.2 x rest hstack
  case h_3 ob save rest hstack =>
    cases hs
    exact sound_contents_loop h hstack hok.1
  case h_4 ob save otmp rest hstack =>
    cases hs
    exact sound_after_move h hstack
  case h_5 ob rest hstack =>
    cases hs
    refine sound_leave_and_finish h ?_ hstack (fun _ => id) nofun ?_ hok.1
    · exact ⟨rfl, rfl, rfl, Nat.le_refl _⟩
    · simp only [finishes, hstack]
      rfl
  case h_6 ob new_ob rest hstack =>
    cases hs
    exact sound_after_reload h hstack hok.1
  case h_7 item dest save rest hstack =>
    split_ifs at hs <;> cases hs
    · exact sound_moving h hstack rfl (hend save rest) [] rfl (by simp)
    · exact sound_moving h hstack rfl ⟨rfl, rfl, rfl, Nat.le_refl _⟩ [.inits item dest _ save] rfl
        (by simp)
  case h_8 item dest ob save rest hstack =>
    cases hs
    obtain ⟨hq, new, hnew, hframes⟩ := init_loop_stack s.d item dest ob save rest
    exact sound_moving h hstack rfl hq new hnew hframes
  case h_9 item dest next_ob save rest hstack =>
    split_ifs at hs <;> cases hs
    · exact sound_moving h hstack rfl (hend save rest) [] rfl (by simp)
    · obtain ⟨hq, new, hnew, hframes⟩ := init_second_stack s.d item dest next_ob save rest
      exact sound_moving h hstack rfl hq new hnew hframes
  case h_10 item dest next_ob save rest hstack =>
    split_ifs at hs <;> cases hs
    · exact sound_moving h hstack rfl (hend save rest) [] rfl (by simp)
    · exact sound_moving h hstack rfl ⟨rfl, rfl, rfl, Nat.le_refl _⟩ [.inits item dest next_ob save] rfl
        (by simp)
  case h_11 save rest hstack =>
    cases hs
    exact sound_moving h hstack rfl (hend save rest) [] rfl (by simp)
  case h_12 => cases hs

/-! ## Steps of LPC -/

theorem leave_old_quiet (s : driver_t) (item : Nat) : Quiet s (leave_old s item) ∧
    (leave_old s item).stack = s.stack := by
  obtain ⟨t, ht, hleave⟩ := leave_old_spec s item
  rw [hleave, ht.same]
  refine ⟨⟨rfl, rfl, ?_, ?_⟩, rfl⟩
  · simp only [out_of_room]
    split <;> rfl
  · simp only [out_of_room]
    split <;> exact Nat.le_refl _

theorem move_object_quiet (s : driver_t) (item dest : Nat) : Quiet s (move_object s item dest) ∧
    ∃ new, (move_object s item dest).stack = new ++ s.stack ∧
      ∀ frame ∈ new, frame ≠ .shadows none := by
  obtain ⟨hq, hstack⟩ := leave_old_quiet s item
  simp only [move_object]
  split_ifs
  · refine ⟨⟨hq.shadowing, hq.shadowed, hq.destructed, hq.num_objects⟩,
      [.lpc, .init_dest item dest s.command_giver], ?_, by simp⟩
    rw [← hstack]
    rfl
  · refine ⟨⟨hq.shadowing, hq.shadowed, hq.destructed, hq.num_objects⟩,
      [.inits item dest ((link_object (leave_old s item).objects item dest).contains dest)
        s.command_giver], ?_, by simp⟩
    rw [← hstack]
    rfl

theorem enable_commands_quiet (s : driver_t) (ob : Nat) (num : Bool) :
    Quiet s (enable_commands s ob num) ∧ (enable_commands s ob num).stack = s.stack := by
  obtain ⟨removed, ht⟩ := remove_own_spec s ob
  obtain ⟨hq, hstack⟩ := Removes.quiet (ht.guard (s.O_ENABLE_COMMANDS ob))
  unfold enable_commands
  by_cases hgone : s.objects.O_DESTRUCTED ob = true
  · rw [if_pos hgone]
    exact ⟨.refl s, rfl⟩
  rw [if_neg hgone]
  by_cases hnum : num = true
  · rw [if_pos hnum]
    exact ⟨⟨rfl, rfl, rfl, Nat.le_refl _⟩, rfl⟩
  rw [if_neg hnum]
  simp only
  generalize (if s.O_ENABLE_COMMANDS ob = true then remove_own s ob else s) = t at *
  exact ⟨⟨hq.shadowing, hq.shadowed, hq.destructed, hq.num_objects⟩, hstack⟩

theorem lpc_step_quiet {s : driver_t} (hstack : s.stack = .lpc :: rest)
    (hshadow : ∀ current_object ob, a ≠ .shadow current_object ob) (hs : lpc_step s rest a = some t) :
    Quiet s t ∧
      ∃ new, t.stack = new ++ rest ∧ ∀ frame ∈ new, frame ≠ .shadows none := by
  have hlpc : ∃ new, s.stack = new ++ rest ∧ ∀ frame ∈ new, frame ≠ .shadows none :=
    ⟨[.lpc], hstack, by simp⟩
  unfold lpc_step at hs
  cases a with
  | clone =>
    cases hs
    exact ⟨⟨rfl, rfl, rfl, Nat.le_succ _⟩, hlpc⟩
  | move item dest =>
    obtain ⟨hq, new, hnew, hframes⟩ := move_object_quiet s item dest
    simp only at hs
    split_ifs at hs
    cases hs
    refine ⟨hq, new ++ [.lpc], ?_, fun frame hmem => ?_⟩
    · rw [hnew, hstack, append_assoc]
      rfl
    · rcases mem_append.mp hmem with hmem | hmem
      · exact hframes frame hmem
      · rw [mem_singleton.mp hmem]
        nofun
  | destruct ob =>
    simp only at hs
    split_ifs at hs
    cases hs
    exact ⟨⟨rfl, rfl, rfl, Nat.le_refl _⟩, [.destruct ob, .lpc], by simp [hstack], by simp⟩
  | enable_commands ob num =>
    cases hs
    obtain ⟨hq, hsame⟩ := enable_commands_quiet s ob num
    rw [hsame]
    exact ⟨hq, hlpc⟩
  | add_action ob function verb V_FUNCTION =>
    cases hs
    unfold environment.add_action
    split
    · exact ⟨.refl s, hlpc⟩
    simp only
    split
    · exact ⟨.refl s, hlpc⟩
    split_ifs
    · exact ⟨.refl s, hlpc⟩
    · exact ⟨.refl s, hlpc⟩
    · exact ⟨⟨rfl, rfl, rfl, Nat.le_refl _⟩, hlpc⟩
  | remove_action ob act verb | set_this_player ob | ed ob =>
    cases hs
    exact ⟨⟨rfl, rfl, rfl, Nat.le_refl _⟩, hlpc⟩
  | shadow current_object ob => exact absurd rfl (hshadow current_object ob)
  | ret =>
    simp only at hs
    split_ifs at hs
    cases hs
    exact ⟨⟨rfl, rfl, rfl, Nat.le_refl _⟩, [], rfl, by simp⟩
  | error num => cases hs
  | go => cases hs

theorem sound_lpc (h : Sound s) (hstack : s.d.stack = .lpc :: rest)
    (hshadow : ∀ current_object ob, a ≠ .shadow current_object ob)
    (hs : lpc_step s.d rest a = some t) : Sound (note s t) := by
  obtain ⟨hq, new, hnew, hframes⟩ := lpc_step_quiet hstack hshadow hs
  have hkept := h.kept
  rw [hstack] at hkept
  refine sound_quiet h hq (by simp only [finishes, hstack]) ?_
  rw [chains_note (ne_destruct hstack nofun), hnew]
  exact Kept.pushes (hkept.pop (fun _ => id) nofun) hframes

theorem sound_error {num : Nat} (h : Sound s) (hs : environment.step s.d (.error num) = some t) :
    Sound (note s t) := by
  have hkept := h.kept
  rcases hstack : s.d.stack with _ | ⟨top, rest⟩
  · simp [environment.step, hstack] at hs
  have hs : (if (top = .lpc ∨ top = .raise) ∧ ((top :: rest).take num).all unsafe_apply ∧
      (((top :: rest).drop num).head?.map catches).getD false then
      some { s.d with
        restrict_destruct := none
        stack := (top :: rest).drop num } else none) = some t := by
    simpa only [environment.step, hstack] using hs
  split_ifs at hs with hcond
  cases hs
  rw [hstack] at hkept
  have htop : finishes s.d = none ∧ ∀ ob rest, s.d.stack ≠ .destruct ob :: rest := by
    simp only [finishes, hstack]
    rcases hcond.1 with rfl | rfl <;> exact ⟨rfl, by simp⟩
  refine sound_quiet h ⟨rfl, rfl, rfl, Nat.le_refl _⟩ htop.1 ?_
  rw [chains_note htop.2]
  refine hkept.drop num (fun hhead => ?_) _
  have hcatches := hcond.2.2
  rw [hhead] at hcatches
  cases hcatches

theorem lpc_of_step {d : driver_t} (hgo : a ≠ .go) (herror : ∀ num, a ≠ .error num)
    (hs : environment.step d a = some t) :
    ∃ rest, d.stack = .lpc :: rest ∧ lpc_step d rest a = some t := by
  unfold environment.step at hs
  split at hs
  · exact absurd rfl hgo
  · exact absurd rfl (herror _)
  · exact ⟨_, ‹_›, hs⟩
  · cases hs

theorem sound_act (h : Sound s) (hok : Undisturbed s (.act a))
    (hshadow : ∀ current_object ob, a ≠ .shadow current_object ob)
    (hs : environment.step s.d a = some t) : Sound (note s t) := by
  by_cases hgo : a = .go
  · subst hgo
    refine sound_go h hok ?_
    rcases hstack : s.d.stack with _ | ⟨top, rest⟩
    · simpa [environment.step, hstack] using hs
    · simpa [environment.step, hstack] using hs
  by_cases herror : ∃ num, a = .error num
  · obtain ⟨num, rfl⟩ := herror
    exact sound_error h hs
  rw [not_exists] at herror
  obtain ⟨rest, hstack, hs⟩ := lpc_of_step hgo herror hs
  exact sound_lpc h hstack hshadow hs

/-! ## `f_shadow` -/

theorem sound_shadow (h : Sound s) (hlpc : s.d.stack.head? = some .lpc)
    (hlt : current_object < s.d.objects.num_objects ∧ ob < s.d.objects.num_objects) :
    Sound { s with
      d := { s.d with stack := .lpc :: s.d.stack }
      calls := ⟨s.d.stack.length, current_object, ob⟩ :: s.calls } := by
  refine ⟨h.linked.quiet ⟨rfl, rfl, rfl, Nat.le_refl _⟩, fun call hcall => ?_, h.once, ?_⟩
  · rcases mem_cons.mp hcall with rfl | hcall
    · exact hlt
    · exact h.calls call hcall
  · exact .push (h.kept.mono (fun _ => id) nofun) nofun

theorem not_leads_of_loose {s : driver_t} (h : Linked s) {top : Nat}
    (hob : ob < s.objects.num_objects) (htop : Relation.ReflTransGen (Tells s.shadowed) ob top)
    (hcur : s.shadowing current_object = none) (hloose : current_object ∉ shadowed_by s ob) :
    ¬ Relation.ReflTransGen (Tells s.shadowed) current_object top := by
  intro hlead
  have hunique : Relator.RightUnique (Tells s.shadowing) := fun x y z hy hz =>
    some.inj (hy.symm.trans hz)
  rcases Relation.ReflTransGen.total_of_right_unique hunique (h.flip htop) (h.flip hlead) with
    hdown | hdown
  · exact hloose ((h.shadowed_by hob).mem_of_leads hdown)
  · rcases Relation.ReflTransGen.cases_head hdown with heq | ⟨x, hx, -⟩
    · exact hloose ((h.shadowed_by hob).mem_of_leads (heq ▸ .refl))
    · cases hcur.symm.trans hx

theorem sound_answer {t : state_t} {approved : Bool} (h : Sound s)
    (hok : Undisturbed s (.answer approved)) (hs : answer s approved = some t) : Sound t := by
  unfold answer at hs
  split at hs
  case h_2 => cases hs
  case h_1 rest call calls hstack hcalls =>
    have hkept := h.kept
    rw [hstack] at hkept
    have hrest : Kept s.chains s.d.objects.O_DESTRUCTED (fun _ => False) rest :=
      hkept.pop (fun _ => id) nofun
    have hlt := h.calls call (by rw [hcalls]; exact mem_cons_self)
    have hcalls' : ∀ call ∈ calls, call.current_object < s.d.objects.num_objects ∧
        call.ob < s.d.objects.num_objects := fun call hcall =>
      h.calls call (by rw [hcalls]; exact mem_cons_of_mem _ hcall)
    simp only at hs
    split_ifs at hs with hheight happroved
    · obtain ⟨htrue, hob, hcur⟩ := happroved
      obtain ⟨hnone, hloose⟩ := hok htrue call (by rw [hcalls]; rfl)
      have hchain := h.linked.chain hlt.2
      obtain ⟨top, hlast, hup, hlead⟩ := last_of_chain hchain
      have htop : top < s.d.objects.num_objects ∧ s.d.objects.O_DESTRUCTED top = false := by
        rcases Relation.ReflTransGen.cases_tail hlead with rfl | ⟨x, -, hx⟩
        · exact ⟨hlt.2, hob⟩
        · have hx := (h.linked.inverse top x).mpr hx
          exact ⟨(h.linked.lt top x hx).1, (h.linked.alive top x hx).1⟩
      have hlast : (walk s.d.shadowed (s.d.objects.num_objects + 1) (some call.ob)).getLast?.getD
          call.ob = top := by
        rw [chain] at hlast
        rw [hlast, getD_some]
      simp only [lpc_step, map_some, some.injEq, hlast] at hs
      subst hs
      have hlinked := linked_shadow h.linked hnone hup
        (not_leads_of_loose h.linked hlt.2 hlead hnone hloose) ⟨hlt.1, htop.1⟩ ⟨hcur, htop.2⟩
      exact ⟨hlinked.quiet ⟨rfl, rfl, rfl, Nat.le_refl _⟩, hcalls', h.once, hrest⟩
    · cases hs
      exact ⟨h.linked.quiet ⟨rfl, rfl, rfl, Nat.le_refl _⟩, hcalls', h.once, hrest⟩

theorem sound_step {check_shadow_functions : Nat → Nat → Bool} {t : state_t} {e : event_t}
    (h : Sound s) (hok : Undisturbed s e) (hs : step check_shadow_functions s e = some t) :
    Sound t := by
  cases e with
  | act a =>
    by_cases hshadow : ∃ current_object ob, a = .shadow current_object ob
    · obtain ⟨current_object, ob, rfl⟩ := hshadow
      cases hs
    rw [not_exists] at hshadow
    have hshadow : ∀ current_object ob, a ≠ .shadow current_object ob := fun x y heq =>
      hshadow x ⟨y, heq⟩
    have hact : (environment.step s.d a).map (note s) = some t := by
      cases a with
      | shadow current_object ob => exact absurd rfl (hshadow current_object ob)
      | ret =>
        simp only [step] at hs
        split_ifs at hs
        exact hs
      | _ => exact hs
    obtain ⟨d, hd, rfl⟩ := map_eq_some_iff.mp hact
    exact sound_act h hok hshadow hd
  | shadow current_object ob =>
    simp only [step] at hs
    split_ifs at hs with hcond
    cases hs
    exact sound_shadow h hcond.1 ⟨hcond.2.1, hcond.2.2.1⟩
  | answer approved => exact sound_answer h hok hs

/-! ## The law -/

/-- The two links say the same, all chains end, no object in them is destructed, none is destructed
twice, and a loop over shadows that is at its end has destructed the whole chain. -/
structure ShadowChains (s : state_t) : Prop where
  inverse : ∀ x y, s.d.shadowing x = some y ↔ s.d.shadowed y = some x
  acyclic : ∀ x, ¬ Relation.TransGen (Tells s.d.shadowed) x x
  finite : ∀ x, ∃ l, Chain s.d.shadowed (some x) l
  alive : ∀ x y, s.d.shadowing x = some y →
    s.d.objects.O_DESTRUCTED x = false ∧ s.d.objects.O_DESTRUCTED y = false
  once : ∀ x, s.destructions x = if s.d.objects.O_DESTRUCTED x then 1 else 0
  whole : ∀ rest, s.d.stack = .shadows none :: rest → ∀ x ∈ s.chains rest.length,
    s.destructions x = 1

theorem Sound.shadowChains (h : Sound s) : ShadowChains s := by
  refine ⟨h.linked.inverse, h.linked.acyclic, fun x => ?_, h.linked.alive, h.once,
    fun rest hstack x hx => ?_⟩
  · by_cases hlt : x < s.d.objects.num_objects
    · exact ⟨_, h.linked.chain hlt⟩
    · have hnone : s.d.shadowed x = none := by
        by_contra hsome
        obtain ⟨y, hy⟩ := ne_none_iff_exists'.mp hsome
        exact hlt (h.linked.lt y x ((h.linked.inverse y x).mpr hy)).2
      exact ⟨[x], .cons (hnone ▸ .nil)⟩
  · have hkept := h.kept
    rw [hstack] at hkept
    rw [h.once, (hkept.1 rfl x hx).resolve_right id, if_pos rfl]

/-- In every run whose LPC leaves the driver undisturbed, shadows are chains. -/
theorem shadows_are_chains (check_shadow_functions : Nat → Nat → Bool) {s : state_t}
    (h : Reachable start (step check_shadow_functions) Undisturbed s) : ShadowChains s :=
  (h.inv sound_start fun _ _ _ hi hok hs => sound_step hi hok hs).shadowChains

instance (s : state_t) (e : event_t) : Decidable (Undisturbed s e) := by
  cases e with
  | act a =>
    have hfinishes : Decidable (∀ ob ∈ finishes s.d, s.d.shadowing ob = none ∧
      s.d.shadowed ob = none ∧ s.d.objects.O_DESTRUCTED ob = false) := inferInstance
    have hloop : Decidable (∀ ob2 rest, s.d.stack = .shadows (some ob2) :: rest →
        ∀ x ∈ s.chains rest.length,
          s.d.objects.O_DESTRUCTED x = true ∨ x ∈ shadowed_by s.d ob2) :=
      match hstack : s.d.stack with
      | .shadows (some ob2) :: rest =>
        decidable_of_iff (∀ x ∈ s.chains rest.length,
          s.d.objects.O_DESTRUCTED x = true ∨ x ∈ shadowed_by s.d ob2) (by grind)
      | [] => isTrue (by simp)
      | .shadows none :: _ => isTrue (by simp)
      | .lpc :: _ => isTrue (by simp)
      | .raise :: _ => isTrue (by simp)
      | .destruct _ :: _ => isTrue (by simp)
      | .contents _ _ :: _ => isTrue (by simp)
      | .moved _ _ _ :: _ => isTrue (by simp)
      | .editor _ :: _ => isTrue (by simp)
      | .reloaded _ _ :: _ => isTrue (by simp)
      | .init_dest _ _ _ :: _ => isTrue (by simp)
      | .inits _ _ _ _ :: _ => isTrue (by simp)
      | .init_item _ _ _ _ :: _ => isTrue (by simp)
      | .init_ob _ _ _ _ :: _ => isTrue (by simp)
      | .init_last _ :: _ => isTrue (by simp)
    exact @instDecidableAnd _ _ hfinishes hloop
  | shadow current_object ob => exact isTrue trivial
  | answer approved =>
    unfold Undisturbed
    infer_instance

def destruct_two_shadows : List event_t :=
  [.act .clone, .act .clone, .act .clone, .shadow 3 2, .answer true, .shadow 4 2, .answer true,
    .act (.destruct 2), .act .go, .act .go, .act .go, .act .go, .act .go, .act .go, .act .go, .act .go,
    .act .go, .act .go]

theorem two_shadows_are_destructed_once :
    ∃ s, ShadowChains s ∧ s.d.stack = [.shadows none, .lpc] ∧ s.chains 1 = [2, 3, 4] ∧
      s.destructions 3 = 1 := by
  have hrun : ((run (step fun _ _ => false) start destruct_two_shadows).map fun s =>
      (s.d.stack, s.chains 1, s.destructions 3)) = some ([.shadows none, .lpc], [2, 3, 4], 1) := by
    decide
  have hok : Along (step fun _ _ => false) Undisturbed start destruct_two_shadows := by
    decide
  obtain ⟨s, hs, heq⟩ := map_eq_some_iff.mp hrun
  simp only [Prod.mk.injEq] at heq
  exact ⟨s, shadows_are_chains _ (.of_run .start hok hs), heq⟩

/-- The master lets the object that is asked for shadow the other one first. -/
theorem two_objects_shadow_each_other :
    ∃ s, Reachable start (step fun _ _ => false) (fun _ _ => True) s ∧ ¬ ShadowChains s := by
  have hrun : ((run (step fun _ _ => false) start [.act .clone, .act .clone, .shadow 2 3, .shadow 3 2,
      .answer true, .answer true]).map fun s => (s.d.shadowed 2, s.d.shadowed 3)) =
      some (some 3, some 2) := by
    decide
  obtain ⟨s, hs, heq⟩ := map_eq_some_iff.mp hrun
  simp only [Prod.mk.injEq] at heq
  refine ⟨s, .of_any hs, fun h => ?_⟩
  exact h.acyclic 2 (.tail (.single heq.1) heq.2)

end mudos.shadow_chains
