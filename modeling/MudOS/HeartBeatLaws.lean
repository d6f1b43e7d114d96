-- The laws of the heart beats. A function that the loop calls may change the
-- list under the loop. The entries that the round has still to do stay
-- between the two counters, so each of them has its turn once, and what is
-- added in the round has none.
import Mathlib.Data.List.InsertIdx
import MudOS.HeartBeat

open mudos.runs List Option

namespace mudos.heart_beat

variable {log : List Event} {l : List heart_beat_t} {s' : backend_t}

/-! ## What a round owes -/

def Event.ob : Event → Nat
  | .ticked ob => ob
  | .added ob => ob
  | .removed ob => ob

def RemovedFirst (ob : Nat) (log : List Event) : Prop :=
  ∃ before after, log = before ++ .removed ob :: after ∧ .ticked ob ∉ before

/-- No object has its turn after it had one, or after it was added. -/
def TurnLast (e e' : Event) : Prop :=
  ∀ ob, e' = .ticked ob → e ≠ .ticked ob ∧ e ≠ .added ob

def Done (ob : Nat) (log : List Event) : Prop :=
  .ticked ob ∈ log ∨ RemovedFirst ob log

theorem RemovedFirst.snoc {ob : Nat} (h : RemovedFirst ob log) (e : Event) :
    RemovedFirst ob (log ++ [e]) := by
  obtain ⟨before, after, rfl, hb⟩ := h
  exact ⟨before, after ++ [e], by simp, hb⟩

theorem Done.snoc {ob : Nat} (h : Done ob log) (e : Event) : Done ob (log ++ [e]) := by
  rcases h with h | h
  · exact .inl (mem_append_left _ h)
  · exact .inr (h.snoc e)

theorem turnLast_snoc {e : Event} (h : log.Pairwise TurnLast)
    (he : ∀ ob, e = .ticked ob → ∀ e' ∈ log, e'.ob ≠ ob) : (log ++ [e]).Pairwise TurnLast := by
  refine pairwise_append.mpr ⟨h, pairwise_singleton _ _, ?_⟩
  intro e' he' x hx ob hob
  rw [mem_singleton] at hx
  subst hx
  have hne := he ob hob e' he'
  constructor
  · rintro rfl
    exact hne rfl
  · rintro rfl
    exact hne rfl

theorem count_ticked_le (h : log.Pairwise TurnLast) (ob : Nat) : log.count (.ticked ob) ≤ 1 := by
  induction h with
  | nil => exact Nat.zero_le 1
  | @cons e log hhd _ ih =>
    by_cases he : e = .ticked ob
    · subst he
      have hnot : Event.ticked ob ∉ log := fun hm => (hhd _ hm ob rfl).1 rfl
      have hzero : log.count (.ticked ob) = 0 := count_eq_zero.mpr hnot
      rw [count_cons_self]
      omega
    · rwa [count_cons_of_ne he]

theorem no_turn_after_added {before after : List Event} {ob : Nat} (h : log.Pairwise TurnLast)
    (hlog : log = before ++ .added ob :: after) : .ticked ob ∉ after := by
  subst hlog
  intro hm
  have hafter := (pairwise_append.mp h).2.1
  exact ((pairwise_cons.mp hafter).1 _ hm ob rfl).2 rfl

/-! ## The invariant of the list -/

def obs (s : backend_t) : List Nat := s.heart_beats.map heart_beat_t.ob

structure Kept (s : backend_t) : Prop where
  nodup : (obs s).Nodup
  flagged : ∀ ob, s.has_heart_beat ob = true ↔ ob ∈ obs s
  alive : ∀ ob ∈ obs s, s.destructed ob = false
  to_do_le : s.num_hb_to_do ≤ s.heart_beats.length
  index_ge : -1 ≤ s.heart_beat_index
  index_le : s.heart_beat_index ≤ s.num_hb_to_do
  looping : s.phase = .looping → 0 ≤ s.heart_beat_index ∧ s.heart_beat_index < s.num_hb_to_do
  callback : s.phase = .callback → s.heart_beat_index < s.num_hb_to_do

def cursor (s : backend_t) : Int :=
  if s.phase = .callback then s.heart_beat_index + 1 else s.heart_beat_index

def ToDo (s : backend_t) (ob : Nat) : Prop :=
  ∃ i : Nat, cursor s ≤ i ∧ i < s.num_hb_to_do ∧ (obs s)[i]? = some ob

structure RoundKept (s : backend_t) : Prop where
  clean : s.phase ≠ .idle → ∀ ob, ToDo s ob → ob ∈ s.round ∧ ∀ e ∈ s.log, e.ob ≠ ob
  owed : s.phase ≠ .idle → ∀ ob ∈ s.round, ToDo s ob ∨ Done ob s.log
  turns : s.log.Pairwise TurnLast
  done : s.complete = true → ∀ ob ∈ s.round, Done ob s.log

theorem kept_start : Kept start where
  nodup := nodup_nil
  flagged := by simp [start, obs]
  alive := by simp [start, obs]
  to_do_le := Nat.le_refl 0
  index_ge := by decide
  index_le := by decide
  looping := by simp [start]
  callback := by simp [start]

theorem roundKept_start : RoundKept start where
  clean := fun h => absurd rfl h
  owed := fun h => absurd rfl h
  turns := List.Pairwise.nil
  done := by simp [start]

/-! ## The log -/

section note

variable (s : backend_t) (e : Event)

@[simp] theorem note_heart_beats : (s.note e).heart_beats = s.heart_beats := by
  unfold backend_t.note
  split <;> rfl

@[simp] theorem note_heart_beat_index : (s.note e).heart_beat_index = s.heart_beat_index := by
  unfold backend_t.note
  split <;> rfl

@[simp] theorem note_num_hb_to_do : (s.note e).num_hb_to_do = s.num_hb_to_do := by
  unfold backend_t.note
  split <;> rfl

@[simp] theorem note_has_heart_beat : (s.note e).has_heart_beat = s.has_heart_beat := by
  unfold backend_t.note
  split <;> rfl

@[simp] theorem note_destructed : (s.note e).destructed = s.destructed := by
  unfold backend_t.note
  split <;> rfl

@[simp] theorem note_phase : (s.note e).phase = s.phase := by
  unfold backend_t.note
  split <;> rfl

@[simp] theorem note_round : (s.note e).round = s.round := by
  unfold backend_t.note
  split <;> rfl

@[simp] theorem note_complete : (s.note e).complete = s.complete := by
  unfold backend_t.note
  split <;> rfl

theorem note_log (h : s.phase ≠ .idle) : (s.note e).log = s.log ++ [e] := by
  rw [backend_t.note, if_neg h]

theorem note_log_congr {s : backend_t} {e : Event} (hp : s.phase = s'.phase) (hl : s.log = s'.log) :
    (s.note e).log = (s'.note e).log := by
  unfold backend_t.note
  rw [hp]
  split
  · exact hl
  · exact congrArg (· ++ [e]) hl

end note

theorem done_note {s : backend_t} {ob : Nat} (h : Done ob s.log) (e : Event) :
    Done ob (s.note e).log := by
  unfold backend_t.note
  split
  · exact h
  · exact h.snoc e

theorem turns_note {s : backend_t} {e : Event} (h : s.log.Pairwise TurnLast)
    (he : ∀ ob, e ≠ .ticked ob) : (s.note e).log.Pairwise TurnLast := by
  unfold backend_t.note
  split
  · exact h
  · exact turnLast_snoc h fun ob hob => absurd hob (he ob)

/-! ## What `set_heart_beat` does -/

theorem find_ob_some {l : List heart_beat_t} {ob i : Nat} :
    ∀ {n : Nat}, find_ob l ob n = some i → (l.map heart_beat_t.ob)[i]? = some ob
  | 0, h => by cases h
  | n + 1, h => by
    unfold find_ob at h
    split at h
    · rename_i hn
      cases h
      rwa [getElem?_map]
    · exact find_ob_some h

theorem find_ob_none {l : List heart_beat_t} {ob : Nat} :
    ∀ {n : Nat}, find_ob l ob n = none → ∀ i < n, (l.map heart_beat_t.ob)[i]? ≠ some ob
  | 0, _, i, hi => by omega
  | n + 1, h, i, hi => by
    unfold find_ob at h
    split at h
    · cases h
    · rename_i hn
      rw [← getElem?_map] at hn
      rcases Nat.lt_succ_iff_lt_or_eq.mp hi with hi | rfl
      · exact find_ob_none h i hi
      · exact hn

theorem not_mem_of_find_ob_none {s : backend_t} {ob : Nat}
    (h : find_ob s.heart_beats ob s.heart_beats.length = none) : ob ∉ obs s := by
  intro hm
  obtain ⟨i, hi, hob⟩ := getElem_of_mem hm
  have hlt : i < s.heart_beats.length := by simpa [obs] using hi
  exact find_ob_none h i hlt (by rw [← hob]; exact getElem?_eq_getElem hi)

/-- All that `set_heart_beat` can do: nothing, and then an object to be removed is not
on the list; to remove the entry of the object; to add it; or to give its entry
another time. -/
theorem set_heart_beat_cases {s : backend_t} (h : Kept s) (ob : Nat) (to_ : Int) :
    (set_heart_beat s ob to_ = s ∧ (to_ = 0 → ob ∉ obs s)) ∨
    (∃ i, (obs s)[i]? = some ob ∧ set_heart_beat s ob to_ = remove_entry s ob i) ∨
    (to_ ≠ 0 ∧ ob ∉ obs s ∧ s.destructed ob = false ∧
      set_heart_beat s ob to_ = append_entry s ob to_) ∨
    (to_ ≠ 0 ∧ ∃ l, l.map heart_beat_t.ob = obs s ∧
      set_heart_beat s ob to_ = { s with heart_beats := l }) := by
  unfold set_heart_beat
  by_cases hd : s.destructed ob
  · rw [if_pos hd]
    refine .inl ⟨rfl, fun _ hm => ?_⟩
    simp [h.alive ob hm] at hd
  rw [if_neg hd]
  by_cases hto : to_ = 0
  · rw [if_pos hto]
    rcases hf : find_ob s.heart_beats ob s.heart_beats.length with _ | i
    · exact .inl ⟨rfl, fun _ => not_mem_of_find_ob_none hf⟩
    · exact .inr (.inl ⟨i, find_ob_some hf, rfl⟩)
  rw [if_neg hto]
  by_cases hb : s.has_heart_beat ob
  · rw [if_pos hb]
    by_cases hneg : to_ < 0
    · rw [if_pos hneg]
      exact .inl ⟨rfl, fun h0 => absurd h0 hto⟩
    rw [if_neg hneg]
    rcases hf : find_ob s.heart_beats ob s.heart_beats.length with _ | i
    · exact .inl ⟨rfl, fun h0 => absurd h0 hto⟩
    · refine .inr (.inr (.inr ⟨hto, _, ?_, rfl⟩))
      obtain ⟨hi, hob⟩ := List.getElem?_eq_some_iff.mp (find_ob_some hf)
      rw [map_set, obs]
      apply ext_getElem?
      intro j
      rw [getElem?_set]
      by_cases hij : i = j
      · subst hij
        rw [if_pos rfl, if_pos hi]
        exact (find_ob_some hf).symm
      · rw [if_neg hij]
  · rw [if_neg hb]
    refine .inr (.inr (.inl ⟨hto, fun hm => hb ((h.flagged ob).mpr hm), ?_, rfl⟩))
    simpa using hd

/-! ## The list under its operations -/

section remove

variable {s : backend_t} {ob i : Nat}

theorem obs_remove_entry : obs (remove_entry s ob i) = (obs s).eraseIdx i := by
  unfold remove_entry patch_counters
  split <;> simp [obs, eraseIdx_map]

theorem phase_remove_entry : (remove_entry s ob i).phase = s.phase := by
  unfold remove_entry patch_counters
  split <;> simp

theorem destructed_remove_entry : (remove_entry s ob i).destructed = s.destructed := by
  unfold remove_entry patch_counters
  split <;> simp

theorem has_heart_beat_remove_entry :
    (remove_entry s ob i).has_heart_beat = set_flag s.has_heart_beat ob false := by
  unfold remove_entry patch_counters
  split <;> simp

theorem num_hb_to_do_remove_entry :
    (remove_entry s ob i).num_hb_to_do =
      if i < s.num_hb_to_do then s.num_hb_to_do - 1 else s.num_hb_to_do := by
  unfold remove_entry patch_counters
  split
  · simp
  · rename_i h
    simp only [note_num_hb_to_do]
    rw [if_neg (by omega)]

theorem heart_beat_index_remove_entry (h : Kept s) (hp : s.phase = .callback) :
    (remove_entry s ob i).heart_beat_index =
      if (i : Int) ≤ s.heart_beat_index then s.heart_beat_index - 1 else s.heart_beat_index := by
  have hcb := h.callback hp
  unfold remove_entry patch_counters
  split
  · simp
  · rename_i h
    simp only [note_heart_beat_index]
    rw [if_neg (by omega)]

theorem index_remove_entry (h : Kept s) :
    -1 ≤ (remove_entry s ob i).heart_beat_index ∧
    (remove_entry s ob i).heart_beat_index ≤ (remove_entry s ob i).num_hb_to_do := by
  have hge := h.index_ge
  have hle := h.index_le
  rw [num_hb_to_do_remove_entry]
  unfold remove_entry patch_counters
  split
  · simp only [note_heart_beat_index]
    split_ifs <;> omega
  · simp only [note_heart_beat_index]
    rw [if_neg (by omega)]
    exact ⟨hge, hle⟩

theorem entry_unique (h : Kept s) {j x : Nat} (hi : (obs s)[i]? = some ob)
    (hj : (obs s)[j]? = some x) : j = i ↔ x = ob := by
  obtain ⟨hlt, -⟩ := List.getElem?_eq_some_iff.mp hj
  constructor
  · rintro rfl
    exact some.inj (hj.symm.trans hi)
  · rintro rfl
    exact (getElem?_inj hlt h.nodup).mp (hj.trans hi.symm)

theorem mem_obs_remove_entry (h : Kept s) (hi : (obs s)[i]? = some ob) (x : Nat) :
    x ∈ obs (remove_entry s ob i) ↔ x ∈ obs s ∧ x ≠ ob := by
  rw [obs_remove_entry, mem_eraseIdx_iff_getElem?]
  constructor
  · rintro ⟨j, hne, hj⟩
    exact ⟨mem_of_getElem? hj, fun hx => hne ((entry_unique h hi hj).mpr hx)⟩
  · rintro ⟨hx, hne⟩
    obtain ⟨j, hj⟩ := getElem?_of_mem hx
    exact ⟨j, fun he => hne ((entry_unique h hi hj).mp he), hj⟩

theorem kept_remove_entry (h : Kept s) (hp : s.phase ≠ .looping)
    (hi : (obs s)[i]? = some ob) : Kept (remove_entry s ob i) where
  nodup := by
    rw [obs_remove_entry]
    exact h.nodup.sublist (eraseIdx_sublist _ _)
  flagged := by
    intro x
    rw [mem_obs_remove_entry h hi, ← h.flagged, has_heart_beat_remove_entry, set_flag]
    by_cases hx : x = ob <;> simp [hx]
  alive := by
    intro x hx
    rw [destructed_remove_entry]
    exact h.alive x ((mem_obs_remove_entry h hi x).mp hx).1
  to_do_le := by
    have hlen : (remove_entry s ob i).heart_beats.length = (obs (remove_entry s ob i)).length := by
      simp [obs]
    obtain ⟨hlt, -⟩ := List.getElem?_eq_some_iff.mp hi
    have hle := h.to_do_le
    rw [hlen, obs_remove_entry, length_eraseIdx_of_lt hlt, num_hb_to_do_remove_entry]
    simp only [obs, length_map] at hlt ⊢
    split_ifs <;> omega
  index_ge := (index_remove_entry h).1
  index_le := (index_remove_entry h).2
  looping := fun hl => absurd (phase_remove_entry.symm.trans hl) hp
  callback := by
    intro hc
    rw [phase_remove_entry] at hc
    have hlt := h.callback hc
    rw [heart_beat_index_remove_entry h hc, num_hb_to_do_remove_entry]
    split_ifs <;> omega

theorem toDo_remove_entry (h : Kept s) (hp : s.phase = .callback)
    (hi : (obs s)[i]? = some ob) (x : Nat) :
    ToDo (remove_entry s ob i) x ↔ ToDo s x ∧ x ≠ ob := by
  unfold ToDo cursor
  rw [phase_remove_entry, if_pos hp, if_pos hp, heart_beat_index_remove_entry h hp,
    num_hb_to_do_remove_entry, obs_remove_entry]
  constructor
  · rintro ⟨j, hcj, hjn, hj⟩
    rw [getElem?_eraseIdx] at hj
    by_cases hji : j < i
    · rw [if_pos hji] at hj
      refine ⟨⟨j, ?_, ?_, hj⟩, fun hx => ?_⟩
      · split_ifs at hcj <;> omega
      · split_ifs at hjn <;> omega
      · have := (entry_unique h hi hj).mpr hx
        omega
    · rw [if_neg hji] at hj
      refine ⟨⟨j + 1, ?_, ?_, hj⟩, fun hx => ?_⟩
      · split_ifs at hcj <;> omega
      · split_ifs at hjn <;> omega
      · have := (entry_unique h hi hj).mpr hx
        omega
  · rintro ⟨⟨j, hcj, hjn, hj⟩, hne⟩
    have hij : j ≠ i := fun he => hne ((entry_unique h hi hj).mp he)
    by_cases hji : j < i
    · refine ⟨j, ?_, ?_, ?_⟩
      · split_ifs <;> omega
      · split_ifs <;> omega
      · rwa [getElem?_eraseIdx, if_pos hji]
    · obtain ⟨k, rfl⟩ : ∃ k, j = k + 1 := ⟨j - 1, by omega⟩
      refine ⟨k, ?_, ?_, ?_⟩
      · split_ifs <;> omega
      · split_ifs <;> omega
      · rwa [getElem?_eraseIdx, if_neg (by omega)]

theorem log_remove_entry : (remove_entry s ob i).log = (s.note (.removed ob)).log := by
  unfold remove_entry patch_counters
  split <;> exact note_log_congr rfl rfl

theorem round_remove_entry : (remove_entry s ob i).round = s.round := by
  unfold remove_entry patch_counters
  split <;> simp

theorem complete_remove_entry : (remove_entry s ob i).complete = s.complete := by
  unfold remove_entry patch_counters
  split <;> simp

end remove

section append

variable {s : backend_t} {ob : Nat} {to_ : Int}

theorem obs_append_entry : obs (append_entry s ob to_) = obs s ++ [ob] := by
  simp [append_entry, obs]

theorem kept_append_entry (h : Kept s) (hp : s.phase ≠ .looping) (hob : ob ∉ obs s)
    (hd : s.destructed ob = false) : Kept (append_entry s ob to_) where
  nodup := by
    rw [obs_append_entry, nodup_append]
    refine ⟨h.nodup, pairwise_singleton _ _, ?_⟩
    intro x hx y hy hxy
    exact hob ((mem_singleton.mp hy) ▸ hxy ▸ hx)
  flagged := by
    intro x
    rw [obs_append_entry, mem_append, mem_singleton, ← h.flagged]
    simp only [append_entry, note_has_heart_beat, set_flag]
    by_cases hx : x = ob <;> simp [hx]
  alive := by
    intro x hx
    rw [obs_append_entry, mem_append, mem_singleton] at hx
    simp only [append_entry, note_destructed]
    rcases hx with hx | rfl
    · exact h.alive x hx
    · exact hd
  to_do_le := by
    have hle := h.to_do_le
    simp only [append_entry, note_num_hb_to_do, note_heart_beats, length_append]
    omega
  index_ge := by
    simpa [append_entry] using h.index_ge
  index_le := by
    simpa [append_entry] using h.index_le
  looping := by
    intro hl
    exact absurd (by simpa [append_entry] using hl) hp
  callback := by simpa [append_entry] using h.callback

theorem toDo_append_entry (h : Kept s) (x : Nat) :
    ToDo (append_entry s ob to_) x ↔ ToDo s x := by
  have hle : s.num_hb_to_do ≤ (obs s).length := by simpa [obs] using h.to_do_le
  have hcur : cursor (append_entry s ob to_) = cursor s := by simp [append_entry, cursor]
  have hto : (append_entry s ob to_).num_hb_to_do = s.num_hb_to_do := by simp [append_entry]
  unfold ToDo
  rw [hcur, hto, obs_append_entry]
  constructor
  · rintro ⟨j, hcj, hjn, hj⟩
    rw [getElem?_append_left (by omega)] at hj
    exact ⟨j, hcj, hjn, hj⟩
  · rintro ⟨j, hcj, hjn, hj⟩
    refine ⟨j, hcj, hjn, ?_⟩
    rwa [getElem?_append_left (by omega)]

theorem ToDo.mem {x : Nat} (h : ToDo s x) : x ∈ obs s := by
  obtain ⟨j, -, -, hj⟩ := h
  exact mem_of_getElem? hj

end append

theorem obs_of_map (hl : l.map heart_beat_t.ob = obs s) :
    obs { s with heart_beats := l } = obs s := hl

theorem Kept.of_map (h : Kept s) (hl : l.map heart_beat_t.ob = obs s) :
    Kept { s with heart_beats := l } where
  nodup := (obs_of_map hl).symm ▸ h.nodup
  flagged := by
    rw [obs_of_map hl]
    exact h.flagged
  alive := by
    rw [obs_of_map hl]
    exact h.alive
  to_do_le := by
    have hlen : l.length = s.heart_beats.length := by
      simpa [obs] using congrArg List.length hl
    simpa only [hlen] using h.to_do_le
  index_ge := h.index_ge
  index_le := h.index_le
  looping := h.looping
  callback := h.callback

theorem toDo_of_map (hl : l.map heart_beat_t.ob = obs s) (x : Nat) :
    ToDo { s with heart_beats := l } x ↔ ToDo s x := by
  unfold ToDo
  rw [obs_of_map hl]
  exact Iff.rfl

/-! ## The round under its operations -/

/-- An event that is no turn keeps the laws of the round, if the object that it is about
has no turn to come, and if what has no turn to come any more is done. -/
theorem RoundKept.of_note {e : Event} (hr : RoundKept s) (hp : s'.phase = s.phase)
    (hround : s'.round = s.round) (hc : s'.complete = s.complete) (hlog : s'.log = (s.note e).log)
    (he : ∀ ob, e ≠ .ticked ob) (hclean : s.phase ≠ .idle → ∀ x, ToDo s' x → ToDo s x ∧ e.ob ≠ x)
    (howed : s.phase ≠ .idle → ∀ x, ToDo s x → ToDo s' x ∨ Done x s'.log) : RoundKept s' where
  clean := by
    intro hi x hx
    rw [hp] at hi
    obtain ⟨htodo, hne⟩ := hclean hi x hx
    obtain ⟨hmem, hlogs⟩ := hr.clean hi x htodo
    rw [hround, hlog, note_log s e hi]
    refine ⟨hmem, ?_⟩
    intro e' he'
    rcases mem_append.mp he' with he' | he'
    · exact hlogs e' he'
    · exact mem_singleton.mp he' ▸ hne
  owed := by
    intro hi x hx
    rw [hp] at hi
    rw [hround] at hx
    rcases hr.owed hi x hx with htodo | hdone
    · exact howed hi x htodo
    · exact .inr (hlog ▸ done_note hdone e)
  turns := hlog ▸ turns_note hr.turns he
  done := by
    intro hcomp x hx
    rw [hc] at hcomp
    rw [hround] at hx
    exact hlog ▸ done_note (hr.done hcomp x hx) e

theorem roundKept_remove_entry {ob : Nat} (h : Kept s) (hr : RoundKept s) (hp : s.phase ≠ .looping)
    (hi : (obs s)[i]? = some ob) : RoundKept (remove_entry s ob i) := by
  have hcb : s.phase ≠ .idle → s.phase = .callback := by
    intro hidle
    rcases hs : s.phase with _ | _ | _
    · exact absurd hs hidle
    · exact absurd hs hp
    · rfl
  refine hr.of_note phase_remove_entry round_remove_entry complete_remove_entry
    log_remove_entry (by simp) ?_ ?_
  · intro hidle x hx
    obtain ⟨htodo, hne⟩ := (toDo_remove_entry h (hcb hidle) hi x).mp hx
    exact ⟨htodo, fun he => hne he.symm⟩
  · intro hidle x hx
    by_cases hxo : x = ob
    · subst hxo
      refine .inr (.inr ⟨s.log, [], ?_, ?_⟩)
      · rw [log_remove_entry, note_log s _ hidle]
      · intro hm
        exact (hr.clean hidle x hx).2 _ hm rfl
    · exact .inl ((toDo_remove_entry h (hcb hidle) hi x).mpr ⟨hx, hxo⟩)

theorem roundKept_append_entry {ob : Nat} (h : Kept s) (hr : RoundKept s) (hob : ob ∉ obs s) :
    RoundKept (append_entry s ob to_) := by
  refine hr.of_note (e := .added ob) ?_ ?_ ?_ ?_ (by simp) ?_ ?_
  · simp [append_entry]
  · simp [append_entry]
  · simp [append_entry]
  · exact note_log_congr rfl rfl
  · intro _ x hx
    have htodo := (toDo_append_entry h x).mp hx
    refine ⟨htodo, ?_⟩
    rintro rfl
    exact hob htodo.mem
  · intro _ x hx
    exact .inl ((toDo_append_entry h x).mpr hx)

theorem RoundKept.of_map (hr : RoundKept s) (hl : l.map heart_beat_t.ob = obs s) :
    RoundKept { s with heart_beats := l } where
  clean := fun hi x hx => hr.clean hi x ((toDo_of_map hl x).mp hx)
  owed := fun hi x hx => (hr.owed hi x hx).imp (toDo_of_map hl x).mpr id
  turns := hr.turns
  done := hr.done

def Good (s : backend_t) : Prop := Kept s ∧ RoundKept s

theorem good_set_heart_beat (h : Good s) (hp : s.phase ≠ .looping) (ob : Nat) (to_ : Int) :
    Good (set_heart_beat s ob to_) := by
  obtain ⟨hk, hr⟩ := h
  rcases set_heart_beat_cases hk ob to_ with ⟨he, -⟩ | ⟨i, hi, he⟩ | ⟨-, hob, hd, he⟩ |
    ⟨-, l, hl, he⟩
  · rw [he]
    exact ⟨hk, hr⟩
  · rw [he]
    exact ⟨kept_remove_entry hk hp hi, roundKept_remove_entry hk hr hp hi⟩
  · rw [he]
    exact ⟨kept_append_entry hk hp hob hd, roundKept_append_entry hk hr hob⟩
  · rw [he]
    exact ⟨hk.of_map hl, hr.of_map hl⟩

theorem not_mem_set_heart_beat_zero (h : Kept s) (ob : Nat) : ob ∉ obs (set_heart_beat s ob 0) := by
  rcases set_heart_beat_cases h ob 0 with ⟨he, hob⟩ | ⟨i, hi, he⟩ | ⟨h0, -⟩ | ⟨h0, -⟩
  · rw [he]
    exact hob rfl
  · rw [he]
    exact fun hm => ((mem_obs_remove_entry h hi ob).mp hm).2 rfl
  · exact absurd rfl h0
  · exact absurd rfl h0

theorem good_destruct_object (h : Good s) (hp : s.phase ≠ .looping) (ob : Nat) :
    Good (destruct_object s ob) := by
  unfold destruct_object
  split
  · exact h
  · have hob := not_mem_set_heart_beat_zero h.1 ob
    obtain ⟨hk, hr⟩ := good_set_heart_beat h hp ob 0
    refine ⟨{ hk with alive := ?_ }, { hr with }⟩
    intro x hx
    have hne : x ≠ ob := by
      rintro rfl
      exact hob hx
    simp only [set_flag, if_neg hne]
    exact hk.alive x hx

/-! ## The loop -/

theorem Good.current (h : Good s) (c : Option Nat) : Good { s with current_heart_beat := c } :=
  ⟨{ h.1 with }, { h.2 with }⟩

theorem Good.cut {s : backend_t} (h : Good s) : Good { s with phase := .idle } := by
  obtain ⟨hk, hr⟩ := h
  refine ⟨{ hk with looping := ?_, callback := ?_ },
    { turns := hr.turns, done := hr.done, clean := ?_, owed := ?_ }⟩
  · nofun
  · nofun
  · exact fun hp => absurd rfl hp
  · exact fun hp => absurd rfl hp

theorem good_end_round (h : Good s) (complete : Bool)
    (hc : complete = true → ∀ ob ∈ s.round, Done ob s.log) : Good (end_round s complete) := by
  obtain ⟨hk, hr⟩ := h
  refine ⟨⟨hk.nodup, hk.flagged, hk.alive, Nat.zero_le _, ?_, Int.le_refl 0, ?_, ?_⟩,
    ⟨fun hp => absurd rfl hp, fun hp => absurd rfl hp, hr.turns, hc⟩⟩
  · exact (by decide : (-1 : Int) ≤ 0)
  · nofun
  · nofun

theorem good_start_round (h : Good s) (hp : s.phase = .idle) : Good (start_round s) := by
  obtain ⟨hk, -⟩ := h
  simp only [start_round]
  split
  · rename_i hn
    refine ⟨⟨hk.nodup, hk.flagged, hk.alive, Nat.le_refl _, ?_, Int.natCast_nonneg _, ?_, ?_⟩,
      ⟨?_, ?_, List.Pairwise.nil, ?_⟩⟩
    · exact (by decide : (-1 : Int) ≤ 0)
    · intro _
      exact ⟨Int.le_refl 0, by simp only; omega⟩
    · nofun
    · intro _ ob hob
      exact ⟨hob.mem, by simp⟩
    · intro _ ob hob
      obtain ⟨i, hi⟩ := getElem?_of_mem hob
      obtain ⟨hlt, -⟩ := List.getElem?_eq_some_iff.mp hi
      rw [length_map] at hlt
      exact .inl ⟨i, by simp [cursor], hlt, hi⟩
    · nofun
  · rename_i hn
    have hnil : s.heart_beats = [] := length_eq_zero_iff.mp (by omega)
    have hidle : ∀ {q : Phase}, q ≠ .idle → s.phase = q → False := by
      intro q hq hs
      exact hq (hs.symm.trans hp)
    refine ⟨⟨hk.nodup, hk.flagged, hk.alive, Nat.le_refl _, hk.index_ge, ?_, ?_, ?_⟩,
      ⟨fun hq => absurd hp hq, fun hq => absurd hp hq, List.Pairwise.nil, ?_⟩⟩
    · have hto := hk.to_do_le
      have hle := hk.index_le
      simp only
      omega
    · exact fun hs => (hidle (by decide) hs).elim
    · exact fun hs => (hidle (by decide) hs).elim
    · intro _ ob hob
      simp [hnil] at hob

theorem good_next_entry (h : Good s) (hp : s.phase = .callback) : Good (next_entry s) := by
  obtain ⟨hk, hr⟩ := h
  have hidle : s.phase ≠ .idle := by
    rw [hp]
    decide
  have hge := hk.index_ge
  have hlt := hk.callback hp
  simp only [next_entry]
  split
  · rename_i hlast
    refine good_end_round ⟨hk, hr⟩ true ?_
    intro _ ob hob
    rcases hr.owed hidle ob hob with ⟨i, hci, hin, -⟩ | hdone
    · rw [cursor, if_pos hp] at hci
      omega
    · exact hdone
  · rename_i hmore
    refine ⟨⟨hk.nodup, hk.flagged, hk.alive, hk.to_do_le, ?_, ?_, ?_, ?_⟩,
      ⟨?_, ?_, hr.turns, hr.done⟩⟩
    · simp only
      omega
    · simp only
      omega
    · intro _
      simp only
      omega
    · nofun
    · intro _ x hx
      exact hr.clean hidle x (by simpa [ToDo, cursor, hp, obs] using hx)
    · intro _ x hx
      refine (hr.owed hidle x hx).imp_left ?_
      intro htodo
      simpa [ToDo, cursor, hp, obs] using htodo

theorem curr_hb_isSome (h : Kept s) (hp : s.phase = .looping) :
    ∃ hb, curr_hb s = some hb ∧ (obs s)[s.heart_beat_index.toNat]? = some hb.ob := by
  obtain ⟨h0, hlt⟩ := h.looping hp
  have hle := h.to_do_le
  have hin : s.heart_beat_index.toNat < s.heart_beats.length := by omega
  refine ⟨s.heart_beats[s.heart_beat_index.toNat], ?_, ?_⟩
  · rw [curr_hb, if_pos h0]
    exact getElem?_eq_getElem hin
  · rw [obs, getElem?_map, getElem?_eq_getElem hin]
    rfl

/-- The state in the function that the loop calls, after a turn of the object. -/
def ticked (s : backend_t) (l : List heart_beat_t) (ob : Nat) : backend_t :=
  { { s with heart_beats := l }.note (.ticked ob) with phase := .callback }

theorem loop_turn_cases {flag has_function : Bool} (h : loop_turn s flag has_function = some s') :
    s' = end_round s false ∨
    ∃ hb l, curr_hb s = some hb ∧
      l.map heart_beat_t.ob = (obs s).set s.heart_beat_index.toNat hb.ob ∧
      (s' = { ticked s l hb.ob with current_heart_beat := some hb.ob } ∨
        s' = next_entry (ticked s l hb.ob)) := by
  unfold loop_turn at h
  by_cases hf : flag = true
  · rw [if_pos hf] at h
    exact .inl (some.inj h).symm
  rw [if_neg hf, map_eq_some_iff] at h
  obtain ⟨hb, hcur, hs'⟩ := h
  by_cases hcalled : (has_function && decide (int16 (hb.heart_beat_ticks - 1) < 1)) = true
  · simp only [hcalled, if_true] at hs'
    refine .inr ⟨hb, s.heart_beats.set s.heart_beat_index.toNat
      { hb with heart_beat_ticks := hb.time_to_heart_beat }, hcur, map_set, .inl ?_⟩
    exact hs'.symm
  · simp only [hcalled] at hs'
    refine .inr ⟨hb, s.heart_beats.set s.heart_beat_index.toNat
      { hb with heart_beat_ticks := int16 (hb.heart_beat_ticks - 1) }, hcur, map_set, .inr ?_⟩
    exact hs'.symm

/-- A turn of the object at the cursor. Its counter was not touched before in the round,
and the object was not added in it. -/
theorem good_ticked (h : Good s) (hp : s.phase = .looping) {ob : Nat}
    (hob : (obs s)[s.heart_beat_index.toNat]? = some ob) (hl : l.map heart_beat_t.ob = obs s) :
    Good (ticked s l ob) := by
  obtain ⟨hk, hr⟩ := h
  obtain ⟨h0, hlt⟩ := hk.looping hp
  have hidle : s.phase ≠ .idle := by
    rw [hp]
    decide
  have hkl := hk.of_map hl
  have hcur : cursor s = s.heart_beat_index := by simp [cursor, hp]
  have hturn : ToDo s ob := ⟨s.heart_beat_index.toNat, by omega, by omega, hob⟩
  have hlog : (ticked s l ob).log = s.log ++ [.ticked ob] := note_log _ _ hidle
  have hobs : obs (ticked s l ob) = obs s := by simpa [ticked, obs] using hl
  have htodo : ∀ x, ToDo (ticked s l ob) x ↔ ToDo s x ∧ x ≠ ob := by
    intro x
    unfold ToDo
    rw [hobs]
    simp only [ticked, cursor, hp, note_heart_beat_index, note_num_hb_to_do, if_true]
    rw [if_neg (by decide)]
    constructor
    · rintro ⟨j, hcj, hjn, hj⟩
      refine ⟨⟨j, by omega, hjn, hj⟩, fun hx => ?_⟩
      have := (entry_unique hk hob hj).mpr hx
      omega
    · rintro ⟨⟨j, hcj, hjn, hj⟩, hne⟩
      have hji : j ≠ s.heart_beat_index.toNat := fun he => hne ((entry_unique hk hob hj).mp he)
      exact ⟨j, by omega, hjn, hj⟩
  refine ⟨⟨?_, ?_, ?_, ?_, ?_, ?_, ?_, ?_⟩, ⟨?_, ?_, ?_, ?_⟩⟩
  · exact hobs ▸ hk.nodup
  · rw [hobs]
    simpa [ticked] using hk.flagged
  · rw [hobs]
    simpa [ticked] using hk.alive
  · simpa [ticked] using hkl.to_do_le
  · simpa [ticked] using hk.index_ge
  · simpa [ticked] using hk.index_le
  · nofun
  · intro _
    simpa [ticked] using hlt
  · intro _ x hx
    obtain ⟨hxs, hne⟩ := (htodo x).mp hx
    obtain ⟨hmem, hclean⟩ := hr.clean hidle x hxs
    refine ⟨by simpa [ticked] using hmem, ?_⟩
    rw [hlog]
    intro e he
    rcases mem_append.mp he with he | he
    · exact hclean e he
    · rw [mem_singleton.mp he]
      exact fun hx => hne hx.symm
  · intro _ x hx
    rw [hlog]
    rcases hr.owed hidle x (by simpa [ticked] using hx) with hxs | hdone
    · by_cases hxo : x = ob
      · exact .inr (.inl (by simp [hxo]))
      · exact .inl ((htodo x).mpr ⟨hxs, hxo⟩)
    · exact .inr (hdone.snoc _)
  · rw [hlog]
    refine turnLast_snoc hr.turns ?_
    rintro x hx e he
    cases hx
    exact (hr.clean hidle ob hturn).2 e he
  · intro hc x hx
    rw [hlog]
    exact (hr.done (by simpa [ticked] using hc) x (by simpa [ticked] using hx)).snoc _

theorem good_loop_turn {flag has_function : Bool} (h : Good s) (hp : s.phase = .looping)
    (hs : loop_turn s flag has_function = some s') : Good s' := by
  rcases loop_turn_cases hs with rfl | ⟨hb, l, hcur, hl, hs'⟩
  · exact good_end_round h false (by simp)
  obtain ⟨hb', hcur', hob⟩ := curr_hb_isSome h.1 hp
  obtain rfl : hb = hb' := some.inj (hcur.symm.trans hcur')
  have hl' : l.map heart_beat_t.ob = obs s := by
    obtain ⟨hlt, hget⟩ := List.getElem?_eq_some_iff.mp hob
    rw [hl, ← hget]
    exact set_getElem_self hlt
  have hgood := good_ticked h hp hob hl'
  rcases hs' with rfl | rfl
  · exact hgood.current _
  · exact good_next_entry hgood rfl

theorem good_error_handler (h : Good s) (hp : s.phase ≠ .looping) (caught : Bool) :
    Good (error_handler s caught) := by
  unfold error_handler
  rcases s.current_heart_beat with _ | ob
  · simp only
    split
    · exact h
    · exact h.cut
  · have hset := (good_set_heart_beat h hp ob 0).current none
    simp only
    split
    · exact hset
    · exact hset.cut

theorem good_step {a : Action} (h : Good s) (hs : step s a = some s') : Good s' := by
  cases a with
  | call_heart_beat =>
    simp only [step, ite_none_right_eq_some, some.injEq] at hs
    obtain ⟨hp, rfl⟩ := hs
    exact good_start_round h hp
  | turn flag has_function =>
    simp only [step, ite_none_right_eq_some] at hs
    exact good_loop_turn h hs.1 hs.2
  | set_heart_beat ob to_ =>
    simp only [step, ite_none_left_eq_some, some.injEq] at hs
    obtain ⟨hp, rfl⟩ := hs
    exact good_set_heart_beat h hp ob to_
  | destruct ob =>
    simp only [step, ite_none_left_eq_some, some.injEq] at hs
    obtain ⟨hp, rfl⟩ := hs
    exact good_destruct_object h hp ob
  | error caught =>
    simp only [step, ite_none_left_eq_some, some.injEq] at hs
    obtain ⟨hp, rfl⟩ := hs
    exact good_error_handler h hp caught
  | returned =>
    simp only [step, ite_none_right_eq_some, some.injEq] at hs
    obtain ⟨hp, rfl⟩ := hs
    exact good_next_entry h hp

/-! ## The laws -/

theorem good_of_reachable (h : Reachable start step (fun _ _ => True) s) : Good s :=
  h.inv ⟨kept_start, roundKept_start⟩ fun _ _ _ hi _ hs => good_step hi hs

/-- What the last round did, or does. A round that comes to its `break` ticks each
object that was on the list at its start, save those that were removed before their
turn; no object is ticked twice, and none after it was added. The loop reads the list
in its bounds. -/
structure RoundLaws (s : backend_t) : Prop where
  each_once : s.complete = true → ∀ ob ∈ s.round, ¬ RemovedFirst ob s.log →
    s.log.count (.ticked ob) = 1
  none_twice : ∀ ob, s.log.count (.ticked ob) ≤ 1
  added_later : ∀ before after ob, s.log = before ++ .added ob :: after → .ticked ob ∉ after
  to_do_le : s.num_hb_to_do ≤ s.heart_beats.length
  index_ge : -1 ≤ s.heart_beat_index
  index_le : s.heart_beat_index ≤ s.num_hb_to_do
  at_the_head : s.phase = .looping →
    0 ≤ s.heart_beat_index ∧ s.heart_beat_index < s.num_hb_to_do
  in_a_callback : s.phase = .callback → s.heart_beat_index < s.num_hb_to_do

theorem a_round_serves_each_object_once {s : backend_t}
    (h : Reachable start step (fun _ _ => True) s) : RoundLaws s := by
  obtain ⟨hk, hr⟩ := good_of_reachable h
  refine ⟨?_, count_ticked_le hr.turns, ?_, hk.to_do_le, hk.index_ge, hk.index_le,
    hk.looping, hk.callback⟩
  · intro hc ob hob hnot
    rcases hr.done hc ob hob with hmem | hrem
    · have hpos := count_pos_iff.mpr hmem
      have hle := count_ticked_le hr.turns ob
      omega
    · exact absurd hrem hnot
  · intro before after ob hlog
    exact no_turn_after_added hr.turns hlog

/-- The first object takes itself off the list and comes back, the second one is
removed before its turn, and the third one has its turn. -/
def busy_round : List Action :=
  [.set_heart_beat 1 1, .set_heart_beat 2 1, .set_heart_beat 3 1, .call_heart_beat,
    .turn false true, .set_heart_beat 1 0, .set_heart_beat 1 2, .set_heart_beat 2 0, .returned,
    .turn false false]

theorem the_third_object_is_served_in_a_busy_round :
    ∃ s, run step start busy_round = some s ∧ s.phase = .idle ∧
      s.log.count (.ticked 3) = 1 := by
  have hrun : (run step start busy_round).map
      (fun s => (s.phase, s.complete, s.round, s.log)) =
      some (.idle, true, [1, 2, 3],
        [.ticked 1, .removed 1, .added 1, .removed 2, .ticked 3]) := by decide
  obtain ⟨s, hs, hstate⟩ := map_eq_some_iff.mp hrun
  simp only [Prod.mk.injEq] at hstate
  obtain ⟨hphase, hcomplete, hround, hlog⟩ := hstate
  have hlaws := a_round_serves_each_object_once
    (.of_any hs)
  refine ⟨s, hs, hphase, hlaws.each_once hcomplete 3 (by simp [hround]) ?_⟩
  rintro ⟨before, after, heq, -⟩
  have hmem : Event.removed 3 ∈ s.log := by simp [heq]
  rw [hlog] at hmem
  revert hmem
  decide

/-- The first object of the list removes itself, and the cursor is before the list until
the loop steps it on. -/
theorem the_cursor_leaves_the_list :
    ¬ ∀ s, Reachable start step (fun _ _ => True) s → s.phase ≠ .idle →
      0 ≤ s.heart_beat_index ∧ s.heart_beat_index < s.heart_beats.length := by
  intro hall
  have hrun : (run step start [.set_heart_beat 1 1, .set_heart_beat 2 1, .call_heart_beat,
      .turn false true, .set_heart_beat 1 0]).map (fun s => (s.phase, s.heart_beat_index)) =
      some (.callback, -1) := by decide
  obtain ⟨s, hs, hstate⟩ := map_eq_some_iff.mp hrun
  simp only [Prod.mk.injEq] at hstate
  obtain ⟨hphase, hindex⟩ := hstate
  have hin := hall s (.of_any hs)
    (by simp [hphase])
  omega

end mudos.heart_beat
