-- A parser calls the functions of the sentences that match in the order of the
-- list, each once, and never goes on from a sentence that is freed, as long as
-- the flag of the illegal removals says what happened to its own list.
import MudOS.UserParser
import Mathlib.Data.List.Nodup

open mudos.runs Function List

namespace mudos.user_commands

variable {d : driver}
variable {w : parse}

/-! ## What is asked of the parsers -/

/-- The sentences that match what the user typed, in the order of the list. -/
def matching (d : driver) (buff : List UInt8) (l : List Nat) : List Nat :=
  l.filter fun s => accepts buff (d.sentences s)

/-- The sentences that were tried are the first of those that match, each once. -/
structure InOrder (d : driver) (buff : List UInt8) (first tried : List Nat) : Prop where
  order : tried <+: matching d buff first
  once : tried.Nodup

/-- What is asked of the driver: no freed sentence is followed, an illegal removal is reported
if and only if the list has lost sentences, and each parser tries in order the sentences that
match, all of them if none has returned true. -/
structure Orderly (d : driver) : Prop where
  alive : d.follows_freed = false
  reported : ∀ r ∈ d.reports, r.1 = r.2
  running : ∀ w ∈ d.parses, InOrder d w.buff w.first w.tried
  ended : ∀ r ∈ d.results, InOrder d r.buff r.first r.tried
  all_tried : ∀ r ∈ d.results, r.ret = false → r.tried = matching d r.buff r.first

/-! ## When the flag can be trusted -/

/-- An error that leaves `n` parsers leaves all of them, or the flag is set, or none of them
keeps a flag that was set. -/
def Leaves (n : Nat) (d : driver) : Prop :=
  d.parses.length ≤ n ∨ d.illegal_sentence_action ≠ 0 ∨
    ∀ w ∈ d.parses.take n, w.save_illegal_sentence_action = 0

instance (n : Nat) (d : driver) : Decidable (Leaves n d) := by
  unfold Leaves
  infer_instance

/-- The function of the innermost parser is not found, and its sentence is the first. -/
def NotFound (w : parse) (ret : Option Bool) (d : driver) : Prop :=
  ret = none ∧ (d.sent w.save_command_giver).head? = some w.s

instance (w : parse) (ret : Option Bool) (d : driver) : Decidable (NotFound w ret d) := by
  unfold NotFound
  infer_instance

/-- A function that returns zero has not removed the sentences of other lists only, no
removal by `notify_no_command` is hidden by the flag that the parser puts back, and no error
hides a flag that a parser keeps. -/
def Careful (d : driver) : action → Prop
  | .action_returns ret n => ∀ w ∈ d.parses.head?,
    (NotFound w ret d → Leaves (n + 1) d) ∧
      (¬ NotFound w ret d → ret ≠ some true → w.any = true → w.own = true)
  | .notify_returns => ∀ w ∈ d.parses.head?,
    d.parses.tail = [] ∨ d.illegal_sentence_action = 0 ∨ w.save_illegal_sentence_action ≠ 0
  | .error n => Leaves n d
  | _ => True

instance (d : driver) (a : action) : Decidable (Careful d a) := by
  cases a <;> unfold Careful <;> infer_instance

/-! ## The flags of the parsers -/

/-- The flag says of the innermost parser whether sentences have been removed since its call
of a function. What it kept, or a removal since then, says it of the next. -/
def Marked : Bool → List parse → Prop
  | _, [] => True
  | m, w :: rest => w.any = m ∧ Marked (w.save_illegal_sentence_action != 0 || w.any) rest

theorem marked_true {l : List parse} (h : ∀ w ∈ l, w.any = true) : Marked true l := by
  induction l with
  | nil => trivial
  | cons w rest ih =>
    have hw : w.any = true := h w (by simp)
    refine ⟨hw, ?_⟩
    rw [hw, Bool.or_true]
    exact ih fun v hv => h v (by simp [hv])

theorem Marked.drop {m : Bool} {l : List parse} (n : Nat) (h : Marked m l)
    (hn : m = true ∨ ∀ w ∈ l.take n, w.save_illegal_sentence_action = 0) :
    Marked m (l.drop n) := by
  induction n generalizing l with
  | zero => exact h
  | succ n ih =>
    rcases l with _ | ⟨w, rest⟩
    · exact trivial
    · obtain ⟨hw, hrest⟩ := h
      apply ih
      · rcases hn with rfl | hn
        · rwa [hw, Bool.or_true] at hrest
        · rwa [hn w (by simp), hw] at hrest
      · exact hn.imp_right fun hn v hv => hn v (by simp [hv])

/-! ## The invariant -/

structure Listed (d : driver) : Prop where
  once : ∀ o, (d.sent o).Nodup
  known : ∀ o, ∀ s ∈ d.sent o, s < d.tot_alloc_sentence

/-- The parser has met its sentences up to `s` and has tried those that match. The list that
it walks is the one that it met, but for what has been added, or it has lost sentences. -/
structure Walks (d : driver) (w : parse) : Prop where
  once : w.first.Nodup
  known : ∀ s ∈ w.first, s < d.tot_alloc_sentence
  own : w.own = true → w.any = true
  calls : w.notifies = false → ∃ met left, w.first = met ++ w.s :: left ∧
    w.tried = matching d w.buff (met ++ [w.s]) ∧
    (w.own = false → ∃ added, d.sent w.save_command_giver = added ++ w.first)
  ends : w.notifies = true → w.tried = matching d w.buff w.first

structure Ended (d : driver) (r : result) : Prop where
  once : r.first.Nodup
  known : ∀ s ∈ r.first, s < d.tot_alloc_sentence
  order : r.tried <+: matching d r.buff r.first
  all_tried : r.ret = false → r.tried = matching d r.buff r.first

structure Sound (d : driver) : Prop where
  listed : Listed d
  walks : ∀ w ∈ d.parses, Walks d w
  marked : Marked (d.illegal_sentence_action != 0) d.parses
  alive : d.follows_freed = false
  reported : ∀ r ∈ d.reports, r.1 = r.2
  ended : ∀ r ∈ d.results, Ended d r

theorem matching_append (d : driver) (buff : List UInt8) (l l' : List Nat) :
    matching d buff (l ++ l') = matching d buff l ++ matching d buff l' := by simp [matching]

theorem Walks.order (h : Walks d w) : w.tried <+: matching d w.buff w.first := by
  rcases hn : w.notifies with _ | _
  · obtain ⟨met, left, hfirst, htried, -⟩ := h.calls hn
    have hsplit : met ++ w.s :: left = (met ++ [w.s]) ++ left := by simp
    rw [hfirst, htried, hsplit, matching_append _ _ (met ++ [w.s])]
    exact prefix_append _ _
  · simp [h.ends hn]

theorem Sound.orderly (h : Sound d) : Orderly d := by
  have hnodup : ∀ {buff first tried}, first.Nodup → tried <+: matching d buff first →
      InOrder d buff first tried := fun hfirst htried =>
    ⟨htried, (hfirst.filter _).sublist htried.sublist⟩
  refine ⟨h.alive, h.reported, fun w hw => ?_, fun r hr => ?_, fun r hr => (h.ended r hr).all_tried⟩
  · exact hnodup (h.walks w hw).once (h.walks w hw).order
  · exact hnodup (h.ended r hr).once (h.ended r hr).order

theorem Sound.leave (h : Sound d) (n : Nat) (hn : Leaves n d) :
    Sound { d with parses := d.parses.drop n } := by
  refine ⟨⟨h.listed.once, h.listed.known⟩, fun w hw => ?_, ?_, h.alive, h.reported, fun r hr => ?_⟩
  · exact { h.walks w (mem_of_mem_drop hw) with }
  · rcases hn with hn | hn
    · simp only [drop_eq_nil_of_le hn]
      trivial
    · exact h.marked.drop n (hn.imp_left fun hn => by simpa using hn)
  · exact { h.ended r hr with }

/-! ## The walk -/

theorem next_append {s : Nat} {met left : List Nat} (h : s ∉ met) :
    next s (met ++ s :: left) = left := by
  have hmet : ∀ t ∈ met, decide (t ≠ s) = true := fun t ht => by
    exact decide_eq_true_iff.mpr fun hts => h (hts ▸ ht)
  rw [next, dropWhile_append_of_pos hmet, dropWhile_cons_of_neg (by simp), tail_cons]

theorem walk_spec (met l : List Nat) (w : parse) (d : driver) (hfirst : w.first = met ++ l)
    (htried : w.tried = matching d w.buff met) (honce : w.first.Nodup)
    (hknown : ∀ s ∈ w.first, s < d.tot_alloc_sentence)
    (hlist : ∃ added, d.sent w.save_command_giver = added ++ w.first) :
    ∃ w', walk l w d = { d with parses := w' :: d.parses } ∧ w'.any = false ∧
      w'.save_illegal_sentence_action = w.save_illegal_sentence_action ∧ Walks d w' := by
  unfold walk
  rcases hs : l.find? fun s => accepts w.buff (d.sentences s) with _ | s
  · refine ⟨_, rfl, rfl, rfl, honce, hknown, by simp, by simp, fun _ => ?_⟩
    have hnone : matching d w.buff l = [] :=
      filter_eq_nil_iff.mpr fun t ht => find?_eq_none.mp hs t ht
    simp [hfirst, matching_append, hnone, htried]
  · obtain ⟨hmatch, passed, left, rfl, hpassed⟩ := find?_eq_some_iff_append.mp hs
    refine ⟨_, rfl, rfl, rfl, honce, hknown, by simp, fun _ => ?_, by simp⟩
    have hnone : matching d w.buff passed = [] :=
      filter_eq_nil_iff.mpr fun t ht => by simpa using hpassed t ht
    have hself : matching d w.buff [s] = [s] := by simp [matching, hmatch]
    refine ⟨met ++ passed, left, by simp [hfirst], ?_, fun _ => hlist⟩
    simp [matching_append, hnone, hself, htried]

theorem Sound.push (h : Sound d) (w : parse) (rest : List parse) (m : Bool) (hrest : Marked m rest)
    (hsub : ∀ v ∈ rest, Walks d v) (hw : Walks d w) (hany : w.any = false)
    (hsave : (w.save_illegal_sentence_action != 0) = m) :
    Sound { d with illegal_sentence_action := 0, parses := w :: rest } := by
  refine ⟨⟨h.listed.once, h.listed.known⟩, fun v hv => ?_, ⟨hany, ?_⟩, h.alive, h.reported,
    fun r hr => ?_⟩
  · have hv' : Walks d v := by
      rcases mem_cons.mp hv with rfl | hv
      · exact hw
      · exact hsub v hv
    exact { hv' with }
  · rwa [hany, hsave, Bool.or_false]
  · exact { h.ended r hr with }

theorem sound_user_parser_starts (h : Sound d) (command_giver : Nat) (buff : List UInt8) :
    Sound (user_parser_starts command_giver buff d) := by
  unfold user_parser_starts
  dsimp only
  split_ifs with hb
  · exact h
  · obtain ⟨w', hwalk, hany, hsave, hw⟩ := walk_spec [] (d.sent command_giver)
      { save_command_giver := command_giver
        buff := strip_spaces buff
        s := 0
        save_illegal_sentence_action := d.illegal_sentence_action
        notifies := false
        first := d.sent command_giver
        tried := []
        any := false
        own := false }
      { d with illegal_sentence_action := 0 } rfl rfl (h.listed.once _) (h.listed.known _)
      ⟨[], rfl⟩
    rw [hwalk]
    obtain ⟨w1, w2, w3, w4, w5⟩ := hw
    apply h.push w' d.parses _ h.marked h.walks ⟨w1, w2, w3, w4, w5⟩ hany
    rw [hsave]

theorem Sound.finish {d : driver} (h : Sound d) {w : parse} {rest : List parse}
    (hp : d.parses = w :: rest) (ret : Bool) (flag : Nat)
    (hflag : rest = [] ∨ (flag != 0) = (w.save_illegal_sentence_action != 0 || w.any))
    (hall : ret = false → w.tried = matching d w.buff w.first) :
    Sound (finish w ret flag { d with parses := rest }) := by
  have hw := h.walks w (by simp [hp])
  refine ⟨⟨h.listed.once, h.listed.known⟩, fun v hv => ?_, ?_, h.alive, h.reported, fun r hr => ?_⟩
  · exact { h.walks v (by rw [hp]; exact mem_cons_of_mem _ hv) with }
  · have hmarked := h.marked
    rw [hp] at hmarked
    rcases hflag with rfl | hflag
    · trivial
    · simp only [user_commands.finish, hflag]
      exact hmarked.2
  · rcases mem_append.mp hr with hr | hr
    · exact { h.ended r hr with }
    · rw [mem_singleton.mp hr]
      exact ⟨hw.once, hw.known, hw.order, hall⟩

theorem Sound.report (h : Sound d) {r : Bool × Bool} (hr : r.1 = r.2) :
    Sound { d with reports := d.reports ++ [r] } := by
  refine ⟨⟨h.listed.once, h.listed.known⟩, fun v hv => ?_, h.marked, h.alive,
    forall_mem_append.mpr ⟨h.reported, by simpa using hr⟩, fun r hr => ?_⟩
  · exact { h.walks v hv with }
  · exact { h.ended r hr with }

theorem sound_action_returns (h : Sound d) {rest : List parse} (hp : d.parses = w :: rest)
    (hn : w.notifies = false) (ret : Option Bool) (n : Nat)
    (hleaves : NotFound w ret d → Leaves (n + 1) d)
    (hok : ¬ NotFound w ret d → ret ≠ some true → w.any = true → w.own = true) :
    Sound (action_returns w rest ret n d) := by
  have hw := h.walks w (by simp [hp])
  have hmarked := h.marked
  rw [hp] at hmarked
  obtain ⟨hany, hrest⟩ := hmarked
  unfold action_returns
  dsimp only
  by_cases hfound : ret = none ∧ (d.sent w.save_command_giver).head? = some w.s
  · rw [if_pos hfound]
    have hleft := h.leave (n + 1) (hleaves hfound)
    rwa [hp] at hleft
  rw [if_neg hfound]
  by_cases hret : ret = some true
  · rw [if_pos hret]
    apply h.finish hp true _ (.inr ?_) (by simp)
    split_ifs with hflag
    · simp [hany, hflag]
    · rw [bne_iff_ne.mpr hflag] at hany
      simp [hany, bne_iff_ne.mpr hflag]
  rw [if_neg hret]
  have hreport : (d.illegal_sentence_action != 0) = w.own := by
    rw [← hany]
    rcases ha : w.any with _ | _
    · rcases ho : w.own with _ | _
      · rfl
      · rw [hw.own ho] at ha
        exact absurd ha (by simp)
    · exact (hok hfound hret ha).symm
  have hr := h.report (r := (d.illegal_sentence_action != 0, w.own)) hreport
  split_ifs with hflag hmem
  · have hleft := hr.leave (n + 1) (.inr (.inl hflag))
    simp only [hp, drop_succ_cons] at hleft
    exact hleft
  all_goals
    have hzero : d.illegal_sentence_action = 0 := not_ne_iff.mp hflag
    have hown : w.own = false := by
      rw [← hreport, hzero]
      rfl
    obtain ⟨met, left, hfirst, htried, hadded⟩ := hw.calls hn
    obtain ⟨added, hlist⟩ := hadded hown
    have hsplit : d.sent w.save_command_giver = (added ++ met) ++ w.s :: left := by
      rw [hlist, hfirst, append_assoc]
  · have honce := h.listed.once w.save_command_giver
    rw [hsplit] at honce
    have hnew : w.s ∉ added ++ met := fun hs =>
      disjoint_of_nodup_append honce hs (by simp)
    obtain ⟨w', hwalk, hany', hsave, hw'⟩ := walk_spec (met ++ [w.s]) left w
      { d with
        parses := rest
        reports := d.reports ++ [(d.illegal_sentence_action != 0, w.own)] }
      (by simp [hfirst]) htried hw.once hw.known ⟨added, hlist⟩
    obtain ⟨w1, w2, w3, w4, w5⟩ := hw'
    have hpush := hr.push w' rest _ hrest (fun v hv => ?_) ⟨w1, w2, w3, w4, w5⟩ hany'
      (by rw [hsave, hany, hzero]; simp)
    · rw [hsplit, next_append hnew, hwalk]
      rw [hzero]
      simpa only [hzero] using hpush
    · exact hr.walks v (by simp [hp, hv])
  · exact absurd (by simp [hsplit]) hmem

theorem sound_notify_returns (h : Sound d) {rest : List parse} (hp : d.parses = w :: rest)
    (hn : w.notifies = true)
    (hok : rest = [] ∨ d.illegal_sentence_action = 0 ∨ w.save_illegal_sentence_action ≠ 0) :
    Sound (notify_returns w rest d) := by
  have hmarked := h.marked
  rw [hp] at hmarked
  apply h.finish hp false _ _ fun _ => (h.walks w (by simp [hp])).ends hn
  rcases hok with hrest | hzero | hsave
  · exact .inl hrest
  · exact .inr (by simp [hmarked.1, hzero])
  · exact .inr (by simp [bne_iff_ne.mpr hsave])

/-! ## Changes of the lists -/

theorem matching_congr {d' : driver} {l : List Nat} (buff : List UInt8)
    (h : ∀ s ∈ l, d'.sentences s = d.sentences s) : matching d' buff l = matching d buff l :=
  filter_congr fun s hs => by rw [h s hs]

theorem sound_add_action (h : Sound d) (command_giver : Nat) (p : sentence_t) :
    Sound (add_action command_giver p d) := by
  have hsame : ∀ {l : List Nat}, (∀ s ∈ l, s < d.tot_alloc_sentence) → ∀ buff,
      matching (add_action command_giver p d) buff l = matching d buff l := fun hl buff =>
    matching_congr buff fun s hs => update_of_ne (Nat.ne_of_lt (hl s hs)) _ _
  have hmore : ∀ {s : Nat}, s < d.tot_alloc_sentence →
      s < (add_action command_giver p d).tot_alloc_sentence := fun hs => Nat.lt_succ_of_lt hs
  refine ⟨⟨fun o => ?_, fun o s hs => ?_⟩, fun w hw => ?_, h.marked, h.alive, h.reported,
    fun r hr => ?_⟩
  · by_cases ho : o = command_giver
    · subst ho
      simp only [add_action, update_self, nodup_cons]
      exact ⟨fun hs => Nat.lt_irrefl _ (h.listed.known o _ hs), h.listed.once o⟩
    · simpa only [add_action, update_of_ne ho] using h.listed.once o
  · by_cases ho : o = command_giver
    · subst ho
      simp only [add_action, update_self, mem_cons] at hs
      rcases hs with rfl | hs
      · exact Nat.lt_succ_self _
      · exact hmore (h.listed.known o s hs)
    · simp only [add_action, update_of_ne ho] at hs
      exact hmore (h.listed.known o s hs)
  · have hw := h.walks w hw
    refine ⟨hw.once, fun s hs => hmore (hw.known s hs), hw.own, fun hn => ?_, fun hn => ?_⟩
    · obtain ⟨met, left, hfirst, htried, hlist⟩ := hw.calls hn
      refine ⟨met, left, hfirst, ?_, fun hown => ?_⟩
      · rw [htried, hsame fun s hs => hw.known s ?_]
        rw [hfirst, append_cons]
        exact mem_append_left _ hs
      · obtain ⟨added, hadded⟩ := hlist hown
        by_cases ho : w.save_command_giver = command_giver
        · refine ⟨d.tot_alloc_sentence :: added, ?_⟩
          simp [add_action, ← ho, hadded]
        · exact ⟨added, by simp only [add_action, update_of_ne ho, hadded]⟩
    · rw [hsame hw.known, hw.ends hn]
  · have hr := h.ended r hr
    refine ⟨hr.once, fun s hs => hmore (hr.known s hs), ?_, fun hret => ?_⟩
    · rw [hsame hr.known]
      exact hr.order
    · rw [hsame hr.known, hr.all_tried hret]

theorem sound_lose (h : Sound d) (ob : Nat) {l : List Nat} {flag : Nat} (hl : l.Sublist (d.sent ob))
    (hflag : flag ≠ 0) : Sound (lose ob l flag d) := by
  refine ⟨⟨fun o => ?_, fun o s hs => ?_⟩, fun v hv => ?_, ?_, h.alive, h.reported,
    fun r hr => ?_⟩
  · by_cases ho : o = ob
    · subst ho
      simpa only [lose, update_self] using (h.listed.once o).sublist hl
    · simpa only [lose, update_of_ne ho] using h.listed.once o
  · by_cases ho : o = ob
    · subst ho
      simp only [lose, update_self] at hs
      exact h.listed.known o s (hl.subset hs)
    · simp only [lose, update_of_ne ho] at hs
      exact h.listed.known o s hs
  · obtain ⟨w, hw, rfl⟩ := mem_map.mp hv
    obtain ⟨w1, w2, w3, w4, w5⟩ := h.walks w hw
    refine ⟨w1, w2, fun _ => rfl, fun hn => ?_, w5⟩
    obtain ⟨met, left, hfirst, htried, hlist⟩ := w4 hn
    refine ⟨met, left, hfirst, htried, fun hown => ?_⟩
    simp only [Bool.or_eq_false_iff, decide_eq_false_iff_not] at hown
    simpa only [lose, update_of_ne hown.2] using hlist hown.1
  · simp only [lose, bne_iff_ne.mpr hflag]
    apply marked_true
    intro v hv
    obtain ⟨w, -, rfl⟩ := mem_map.mp hv
    rfl
  · exact { h.ended r hr with }

theorem sound_remove_action (h : Sound d) (ob current_object : Nat) (act verb : List UInt8) :
    Sound (remove_action ob current_object act verb d) := by
  unfold remove_action
  dsimp only
  split
  · exact h
  · exact sound_lose h ob erase_sublist (by decide)

theorem sound_remove_sent (h : Sound d) (ob user : Nat) : Sound (remove_sent ob user d) := by
  unfold remove_sent
  split_ifs
  · exact sound_lose h user filter_sublist (by decide)
  · exact h

/-! ## Runs -/

theorem sound_start : Sound start :=
  ⟨⟨fun _ => nodup_nil, fun _ _ hs => absurd hs (by simp [start])⟩, by simp [start], trivial,
    rfl, by simp [start], by simp [start]⟩

theorem sound_step {d' : driver} {a : action} (h : Sound d) (hok : Careful d a)
    (hstep : step d a = some d') : Sound d' := by
  cases a with
  | user_parser_starts command_giver buff =>
    cases hstep
    exact sound_user_parser_starts h command_giver buff
  | action_returns ret n =>
    rcases hp : d.parses with _ | ⟨w, rest⟩
    · simp [step, hp, reduceCtorEq] at hstep
    · have hw : w ∈ d.parses.head? := by simp [hp]
      simp only [step, hp] at hstep
      split_ifs at hstep with hn
      cases hstep
      exact sound_action_returns h hp (by simpa using hn) ret n (hok w hw).1 (hok w hw).2
  | notify_returns =>
    rcases hp : d.parses with _ | ⟨w, rest⟩
    · simp [step, hp, reduceCtorEq] at hstep
    · have hw : w ∈ d.parses.head? := by simp [hp]
      have hflags := hok w hw
      simp only [step, hp] at hstep
      rw [hp] at hflags
      split_ifs at hstep with hn
      cases hstep
      exact sound_notify_returns h hp hn hflags
  | error n =>
    cases hstep
    exact h.leave n hok
  | add_action command_giver p =>
    cases hstep
    exact sound_add_action h command_giver p
  | remove_action ob current_object act verb =>
    cases hstep
    exact sound_remove_action h ob current_object act verb
  | remove_sent ob user =>
    cases hstep
    exact sound_remove_sent h ob user

/-- In every run whose steps keep the flag of the illegal removals true, no parser follows a
freed sentence, each tries the sentences that match once and in their order, and it reports an
illegal removal if and only if its list has lost sentences. -/
theorem parsers_survive_their_actions {d : driver} (h : Reachable start step Careful d) :
    Orderly d :=
  (h.inv sound_start fun _ _ _ hs hok hstep => sound_step hs hok hstep).orderly

/-- A user types a command that nothing handles, then one that gives another command, which
removes its own action, and the first one returns zero. -/
theorem two_commands_are_parsed : ∃ d, run step start
    [.add_action 1 ⟨1, [108], [70], false, false, false⟩,
      .add_action 1 ⟨1, [103], [71], false, false, false⟩,
      .add_action 1 ⟨1, [108], [72], false, false, false⟩,
      .user_parser_starts 1 [108, 32, 120], .add_action 1 ⟨1, [], [75], false, false, false⟩,
      .action_returns (some false) 0, .action_returns (some false) 0, .notify_returns,
      .user_parser_starts 1 [108], .action_returns (some false) 0, .user_parser_starts 1 [103],
      .action_returns (some false) 0, .remove_action 1 1 [71] [103],
      .action_returns (some true) 0, .action_returns (some false) 1] = some d ∧
      (d.reports.getLast?, d.results.map result.tried) = (some (true, true), [[2, 0], [3, 1]]) ∧
      Orderly d := by
  refine (Reachable.of_computed ?_ ?_).imp fun d h =>
    ⟨h.1, h.2.1, parsers_survive_their_actions h.2.2⟩ <;> decide

/-- The function of `notify_fail` removes the action whose function gave the command that it
fails for. The flag is overwritten, and the action, which is freed, is followed. -/
theorem a_freed_action_is_followed :
    ∃ d, Reachable start step (fun _ _ => True) d ∧ d.follows_freed = true ∧ ¬ Orderly d := by
  have hrun : (run step start
      [.add_action 1 ⟨1, [97], [70], false, false, false⟩, .user_parser_starts 1 [97],
        .user_parser_starts 1 [98], .remove_action 1 1 [70] [97], .notify_returns,
        .action_returns (some false) 0]).map (fun d => d.follows_freed) = some true := by
    decide
  obtain ⟨d, hd, hfreed⟩ := Option.map_eq_some_iff.mp hrun
  refine ⟨d, .of_any hd, hfreed, fun h => ?_⟩
  rw [h.alive] at hfreed
  exact absurd hfreed (by simp)

end mudos.user_commands
