-- The table and the objects tell each other, and the counters count, in the
-- runs where no connection is given to an object that has one, none is taken
-- over while it closes, and the master object is not hidden.
import MudOS.Interactives

open mudos.runs mudos.slots Function List Option

namespace mudos.interactives

variable {ob : Nat} {s s' : driver}
variable {obfrom : Nat}

/-! ## Owners and connections -/

def hides (O : Nat → Option Nat) (H : Nat → Bool) : Option Nat → Nat
  | none => 0
  | some ip => if (O ip).any H then 1 else 0

def taken : Option Nat → Nat
  | none => 0
  | some _ => 1

/-- Objects with their connections, and connections with their objects, in a table of which
the two numbers count the users and the hidden ones. -/
structure Table (I O : Nat → Option Nat) (H : Nat → Bool) (T : List (Option Nat))
    (num_user num_hidden : Int) : Prop where
  inverse : ∀ ob ip, I ob = some ip ↔ O ip = some ob
  once : ∀ ip, times (some ip) T = if (O ip).isSome then 1 else 0
  users : num_user = weigh taken T
  hidden : num_hidden = weigh (hides O H) T

variable {I O : Nat → Option Nat} {H : Nat → Bool} {T : List (Option Nat)} {nu nh : Int}

def count (b : Bool) : Int := if b then 1 else 0

theorem Table.grow (h : Table I O H T nu nh) (n : Nat) :
    Table I O H (T ++ List.replicate n none) nu nh where
  inverse := h.inverse
  once ip := by
    unfold times
    rw [weigh_append, weigh_replicate _ _ _ (by simp)]
    simpa using h.once ip
  users := by
    rw [weigh_append, weigh_replicate taken n none rfl]
    simpa using h.users
  hidden := by
    rw [weigh_append, weigh_replicate (hides O H) n none rfl]
    simpa using h.hidden

theorem Table.connect (h : Table I O H T nu nh) {ip i : Nat} (hI : I ob = none) (hO : O ip = none)
    (hi : T[i]? = some none) :
    Table (update I ob (some ip)) (update O ip (some ob)) H
      (T.set i (some ip)) (nu + 1) (nh + count (H ob)) where
  inverse := by
    intro ob' ip'
    have h1 := h.inverse ob' ip'
    simp only [update_apply]
    grind
  once := by
    intro ip'
    have hset := weigh_set (w := fun y => if y = some ip' then 1 else 0) (x := some ip) hi
    have hold := h.once ip'
    simp only [times, reduceCtorEq, if_false, some.injEq] at hset hold ⊢
    by_cases hne : ip' = ip
    · subst hne
      rw [hO] at hold
      rw [update_self]
      simp only [isSome_none, isSome_some, Bool.false_eq_true, if_false,
        if_true] at hset hold ⊢
      omega
    · rw [update_of_ne hne]
      rw [if_neg (fun heq => hne heq.symm)] at hset
      omega
  users := by
    have hset := weigh_set (w := taken) (x := some ip) hi
    simp only [taken] at hset
    rw [h.users]
    omega
  hidden := by
    have hset := weigh_set (w := hides (update O ip (some ob)) H) (x := some ip) hi
    have hsame : weigh (hides (update O ip (some ob)) H) T = weigh (hides O H) T := by
      apply weigh_congr
      intro e he
      rcases e with _ | ip'
      · rfl
      · have hne : ip' ≠ ip := by
          rintro rfl
          have := times_pos he
          rw [h.once, hO] at this
          simp at this
        simp [hides, hne]
    simp only [hides, update_self, any_some] at hset
    rw [h.hidden, ← hsame]
    unfold count
    split_ifs at hset ⊢ <;> omega

theorem Table.give (h : Table I O H T nu nh) {ip : Nat} (hI : I ob = none)
    (hfrom : I obfrom = some ip) :
    Table (update (update I ob (some ip)) obfrom none)
      (update O ip (some ob)) H T nu (nh + count (H ob) - count (H obfrom)) where
  inverse := by
    intro ob' ip'
    have h1 := h.inverse ob' ip'
    have h4 := h.inverse obfrom ip'
    simp only [update_apply]
    grind
  once := by
    intro ip'
    rw [h.once]
    have hO := (h.inverse obfrom ip).mp hfrom
    by_cases hne : ip' = ip
    · subst hne
      simp [hO]
    · rw [update_of_ne hne]
  users := h.users
  hidden := by
    have hO := (h.inverse obfrom ip).mp hfrom
    have hone := h.once ip
    have hchange := weigh_change (hides O H) (hides (update O ip (some ob)) H)
      (x := some ip) (fun y hy => by
        rcases y with _ | ip'
        · rfl
        · have hne : ip' ≠ ip := fun heq => hy (congrArg some heq)
          simp [hides, hne]) T
    rw [hone, hO] at hchange
    simp only [isSome_some, if_true, Nat.one_mul, hides, hO, update_self,
      any_some] at hchange
    rw [h.hidden]
    unfold count
    split_ifs at hchange ⊢ <;> omega

theorem Table.remove (h : Table I O H T nu nh) {ip i : Nat} (hI : I ob = some ip)
    (hi : T[i]? = some (some ip)) :
    Table (update I ob none) (update O ip none) H (T.set i none) (nu - 1)
      (nh - count (H ob)) where
  inverse := by
    intro ob' ip'
    have h1 := h.inverse ob' ip'
    have h2 := h.inverse ob ip'
    simp only [update_apply]
    grind
  once := by
    intro ip'
    have hset := weigh_set (w := fun y => if y = some ip' then 1 else 0) (x := none) hi
    have hold := h.once ip'
    have hO := (h.inverse ob ip).mp hI
    simp only [times, reduceCtorEq, if_false, some.injEq] at hset hold ⊢
    by_cases hne : ip' = ip
    · subst hne
      rw [hO] at hold
      rw [update_self]
      simp only [isSome_none, isSome_some, Bool.false_eq_true, if_false,
        if_true] at hset hold ⊢
      omega
    · rw [update_of_ne hne]
      rw [if_neg (fun heq => hne heq.symm)] at hset
      omega
  users := by
    have hset := weigh_set (w := taken) (x := none) hi
    simp only [taken] at hset
    rw [h.users]
    omega
  hidden := by
    have hO := (h.inverse ob ip).mp hI
    have hset := weigh_set (w := hides O H) (x := none) hi
    have hsame : weigh (hides (update O ip none) H) (T.set i none) =
        weigh (hides O H) (T.set i none) := by
      apply weigh_congr
      intro e he
      rcases e with _ | ip'
      · rfl
      · have hne : ip' ≠ ip := by
          rintro rfl
          have hpos := times_pos he
          have hold := h.once ip'
          have htimes := weigh_set (w := fun y => if y = some ip' then 1 else 0) (x := none) hi
          rw [hO] at hold
          simp only [times, isSome_some, if_true, reduceCtorEq, if_false] at *
          omega
        simp [hides, hne]
    simp only [hides, hO, any_some] at hset
    rw [hsame, h.hidden]
    unfold count
    split_ifs at hset ⊢ <;> omega

theorem Table.hide (h : Table I O H T nu nh) (ob : Nat) (flag : Bool) :
    Table I O (update H ob flag) T nu
      (if (I ob).isSome then nh + count flag - count (H ob) else nh) where
  inverse := h.inverse
  once := h.once
  users := h.users
  hidden := by
    rcases hI : I ob with _ | ip
    · have hsame : weigh (hides O (update H ob flag)) T = weigh (hides O H) T := by
        apply weigh_congr
        intro e _
        rcases e with _ | ip'
        · rfl
        · rcases hO : O ip' with _ | ob'
          · simp [hides, hO]
          · have hne : ob' ≠ ob := by
              rintro rfl
              simp [(h.inverse ob' ip').mpr hO] at hI
            simp [hides, hO, hne]
      rw [hsame]
      exact h.hidden
    · have hO := (h.inverse ob ip).mp hI
      have hone := h.once ip
      have hchange := weigh_change (hides O H) (hides O (update H ob flag))
        (x := some ip) (fun y hy => by
          rcases y with _ | ip'
          · rfl
          · rcases hO' : O ip' with _ | ob'
            · simp [hides, hO']
            · have hne : ob' ≠ ob := by
                rintro rfl
                have := (h.inverse ob' ip').mpr hO'
                rw [hI] at this
                exact hy this.symm
              simp [hides, hO', hne]) T
      rw [hone, hO] at hchange
      simp only [isSome_some, if_true, Nat.one_mul, hides, hO, update_self,
        any_some] at hchange ⊢
      rw [h.hidden]
      unfold count
      split_ifs at hchange ⊢ <;> omega

/-! ## The driver as a table -/

def owner (s : driver) (ip : Nat) : Option Nat := (s.ips ip).map interactive_t.ob

def Closing (s : driver) : frame → Prop
  | .connect => True
  | .net_dead _ ip => ∃ r, s.ips ip = some r ∧ r.CLOSING = true

def frame.ip : frame → Option Nat
  | .connect => none
  | .net_dead _ ip => some ip

structure Sound (s : driver) : Prop where
  table : Table (interactive s) (owner s) (hidden s) s.all_users s.num_user s.num_hidden
  closing : ∀ f ∈ s.frames, Closing s f
  once : (s.frames.filterMap frame.ip).Nodup

theorem isSome_of_interactive {ip : Nat} (h : interactive s ob = some ip) :
    (s.objects ob).isSome := by
  rcases ho : s.objects ob with _ | o
  · simp [interactive, ho] at h
  · rfl

theorem interactive_set_interactive (h : (s.objects ob).isSome) (p : Option Nat) :
    interactive (set_interactive ob p s) = update (interactive s) ob p := by
  obtain ⟨o, ho⟩ := isSome_iff_exists.mp h
  funext a
  by_cases ha : a = ob
  · subst ha
    simp [interactive, set_interactive, ho]
  · simp [interactive, set_interactive, ha]

theorem hidden_set_interactive (s : driver) (ob : Nat) (p : Option Nat) :
    hidden (set_interactive ob p s) = hidden s := by
  funext a
  by_cases ha : a = ob
  · subst ha
    rcases ho : s.objects a <;> simp [hidden, set_interactive, ho]
  · simp [hidden, set_interactive, ha]

theorem hidden_set_hidden (h : (s.objects ob).isSome) (flag : Bool) :
    hidden (set_hidden ob flag s) = update (hidden s) ob flag := by
  obtain ⟨o, ho⟩ := isSome_iff_exists.mp h
  funext a
  by_cases ha : a = ob
  · subst ha
    simp [hidden, set_hidden, ho]
  · simp [hidden, set_hidden, ha]

theorem interactive_set_hidden (s : driver) (ob : Nat) (flag : Bool) :
    interactive (set_hidden ob flag s) = interactive s := by
  funext a
  by_cases ha : a = ob
  · subst ha
    rcases ho : s.objects a <;> simp [interactive, set_hidden, ho]
  · simp [interactive, set_hidden, ha]

theorem interactive_set_destructed (s : driver) (ob : Nat) :
    interactive (set_destructed ob s) = interactive s := by
  funext a
  by_cases ha : a = ob
  · subst ha
    rcases ho : s.objects a <;> simp [interactive, set_destructed, ho]
  · simp [interactive, set_destructed, ha]

theorem hidden_set_destructed (s : driver) (ob : Nat) :
    hidden (set_destructed ob s) = hidden s := by
  funext a
  by_cases ha : a = ob
  · subst ha
    rcases ho : s.objects a <;> simp [hidden, set_destructed, ho]
  · simp [hidden, set_destructed, ha]

theorem owner_set_ob {ip : Nat} (h : (s.ips ip).isSome) (ob : Nat) :
    owner (set_ob ip ob s) = update (owner s) ip (some ob) := by
  obtain ⟨r, hr⟩ := isSome_iff_exists.mp h
  funext a
  by_cases ha : a = ip
  · subst ha
    simp [owner, set_ob, hr]
  · simp [owner, set_ob, ha]

theorem owner_set_closing (s : driver) (ip : Nat) : owner (set_closing ip s) = owner s := by
  funext a
  by_cases ha : a = ip
  · subst ha
    rcases hr : s.ips a <;> simp [owner, set_closing, hr]
  · simp [owner, set_closing, ha]

theorem owner_update_none (s : driver) (ip : Nat) :
    (fun a => (update s.ips ip none a).map interactive_t.ob) =
      update (owner s) ip none := by
  funext a
  by_cases ha : a = ip
  · subst ha
    simp
  · simp [owner, ha]

theorem closing_of_ips {f : frame} (h : Closing s f)
    (hips : ∀ ip r, s.ips ip = some r → f.ip = some ip → r.CLOSING = true →
      ∃ r', s'.ips ip = some r' ∧ r'.CLOSING = true) : Closing s' f := by
  cases f with
  | connect => trivial
  | net_dead ob ip =>
    obtain ⟨r, hr, hc⟩ := h
    exact hips ip r hr rfl hc

theorem entry_of_owner (h : Sound s) {ip : Nat} (hI : interactive s ob = some ip) :
    s.all_users[s.all_users.findIdx (· = some ip)]? = some (some ip) := by
  have hO := (h.table.inverse ob ip).mp hI
  have hpos : 0 < times (some ip) s.all_users := by
    rw [h.table.once, hO]
    simp
  have hlt : s.all_users.findIdx (fun e => decide (e = some ip)) < s.all_users.length := by
    apply findIdx_lt_length_of_exists
    exact ⟨some ip, mem_of_times_pos hpos, by simp⟩
  have hget := findIdx_getElem (w := hlt)
  rw [getElem?_eq_getElem hlt]
  simpa using hget

theorem table_end_removal (h : Sound s) {ip : Nat} (hI : interactive s ob = some ip)
    (frames : List frame) :
    Table (interactive { end_removal ob ip s with frames := frames })
      (owner { end_removal ob ip s with frames := frames })
      (hidden { end_removal ob ip s with frames := frames }) (end_removal ob ip s).all_users
      (end_removal ob ip s).num_user (end_removal ob ip s).num_hidden := by
  have hrem := h.table.remove hI (entry_of_owner h hI)
  have h1 : interactive { end_removal ob ip s with frames := frames } =
      update (interactive s) ob none :=
    interactive_set_interactive (isSome_of_interactive hI) none
  have h2 : owner { end_removal ob ip s with frames := frames } =
      update (owner s) ip none := owner_update_none s ip
  have h3 : hidden { end_removal ob ip s with frames := frames } = hidden s :=
    hidden_set_interactive s ob none
  rw [h1, h2, h3]
  have hnum : (end_removal ob ip s).num_hidden = s.num_hidden - count (hidden s ob) := by
    simp only [end_removal, set_interactive, count]
    split_ifs <;> omega
  rwa [hnum]

/-! ## The steps -/

def Kept (s : driver) : frame → Prop
  | .connect => True
  | .net_dead ob ip => interactive s ob = some ip

/-- The master object takes a connection when it has none and is not hidden, it passes it on
to an object that has none, and `net_dead` leaves the connection with its object. -/
def Careful (s : driver) : action → Prop
  | .accept _ => interactive s s.master_ob = none ∧ hidden s s.master_ob = false
  | .connect_returns (some ob) =>
    interactive s s.master_ob = none ∨
      (interactive s ob = none ∧ hidden s s.master_ob = false)
  | .net_dead_returns | .error => ∀ f ∈ s.frames.head?, Kept s f
  | _ => True

instance (s : driver) : (f : frame) → Decidable (Kept s f)
  | .connect => isTrue trivial
  | .net_dead ob ip => inferInstanceAs (Decidable (interactive s ob = some ip))

instance (s : driver) : (a : action) → Decidable (Careful s a)
  | .accept _ =>
    inferInstanceAs (Decidable (interactive s s.master_ob = none ∧ hidden s s.master_ob = false))
  | .connect_returns (some ob) =>
    inferInstanceAs (Decidable (interactive s s.master_ob = none ∨
      (interactive s ob = none ∧ hidden s s.master_ob = false)))
  | .net_dead_returns | .error => inferInstanceAs (Decidable (∀ f ∈ s.frames.head?, Kept s f))
  | .load _ | .set_master _ | .connect_returns none | .set_hide _ _ | .exec _ _
  | .remove_interactive _ | .destruct _ => isTrue trivial

theorem sound_end_removal (h : Sound s) {ip : Nat} (hI : interactive s ob = some ip)
    {frames : List frame} (hsub : ∀ f ∈ frames, f ∈ s.frames ∧ f.ip ≠ some ip)
    (honce : (frames.filterMap frame.ip).Nodup) :
    Sound { end_removal ob ip s with frames := frames } := by
  refine ⟨table_end_removal h hI frames, fun f hf => ?_, honce⟩
  obtain ⟨hmem, hne⟩ := hsub f hf
  apply closing_of_ips (h.closing f hmem)
  intro ip' r hr hip hc
  have hne' : ip' ≠ ip := by
    rintro rfl
    exact hne hip
  exact ⟨r, by simp [end_removal, set_interactive, hne', hr], hc⟩

theorem sound_set_closing (h : Sound s) (ip : Nat) : Sound (set_closing ip s) := by
  refine ⟨?_, fun f hf => ?_, h.once⟩
  · rw [owner_set_closing]
    exact h.table
  · apply closing_of_ips (h.closing f hf)
    intro ip' r hr _ hc
    by_cases hne : ip' = ip
    · subst hne
      exact ⟨{ r with CLOSING := true }, by simp [set_closing, hr], rfl⟩
    · exact ⟨r, by simp [set_closing, hne, hr], hc⟩

theorem start_removal_some {ip : Nat} (h : start_removal ob s = some ip) :
    interactive s ob = some ip ∧ ∃ r, s.ips ip = some r ∧ r.CLOSING = false := by
  simp only [start_removal, bind_eq_some_iff] at h
  obtain ⟨a, ha, r, hr, hc⟩ := h
  split_ifs at hc with hclosing
  cases hc
  exact ⟨ha, r, hr, by simpa using hclosing⟩

theorem not_in_frames (h : Sound s) {ip : Nat} {r : interactive_t} (hr : s.ips ip = some r)
    (hc : r.CLOSING = false) : ∀ f ∈ s.frames, f.ip ≠ some ip := by
  intro f hf hip
  cases f with
  | connect => cases hip
  | net_dead ob ip' =>
    cases hip
    obtain ⟨r', hr', hc'⟩ := h.closing _ hf
    rw [hr] at hr'
    cases hr'
    rw [hc] at hc'
    cases hc'

theorem sound_remove_interactive (h : Sound s) (ob : Nat) : Sound (remove_interactive ob s) := by
  unfold remove_interactive
  rcases hr : start_removal ob s with _ | ip
  · exact h
  · obtain ⟨hI, r, hips, hc⟩ := start_removal_some hr
    have hs := sound_set_closing h ip
    refine ⟨hs.table, fun f hf => ?_, ?_⟩
    · rcases mem_cons.mp hf with rfl | hf
      · exact ⟨{ r with CLOSING := true }, by simp [set_closing, hips], rfl⟩
      · exact hs.closing f hf
    · show (ip :: s.frames.filterMap frame.ip).Nodup
      refine nodup_cons.mpr ⟨fun hmem => ?_, h.once⟩
      obtain ⟨f, hf, hfip⟩ := mem_filterMap.mp hmem
      exact not_in_frames h hips hc f hf hfip

theorem sound_remove_dested (h : Sound s) (ob : Nat) : Sound (remove_dested ob s) := by
  unfold remove_dested
  rcases hr : start_removal ob s with _ | ip
  · exact h
  · obtain ⟨hI, r, hips, hc⟩ := start_removal_some hr
    have hs := sound_set_closing h ip
    have hne := not_in_frames h hips hc
    have hI' : interactive (set_closing ip s) ob = some ip := hI
    exact sound_end_removal hs hI' (fun f hf => ⟨hf, hne f hf⟩) h.once

theorem Sound.of_table (h : Sound s)
    (htable : Table (interactive s') (owner s') (hidden s') s'.all_users s'.num_user
      s'.num_hidden) (hips : ∀ ip r, s.ips ip = some r → r.CLOSING = true →
      ∃ r', s'.ips ip = some r' ∧ r'.CLOSING = true)
    (hframes : ∀ f ∈ s'.frames, f ∈ s.frames ∨ f = .connect)
    (honce : (s'.frames.filterMap frame.ip).Nodup) : Sound s' := by
  refine ⟨htable, fun f hf => ?_, honce⟩
  rcases hframes f hf with hf | rfl
  · apply closing_of_ips (h.closing f hf)
    exact fun ip r hr _ hc => hips ip r hr hc
  · trivial

theorem Sound.congr (h : Sound s) (hI : interactive s' = interactive s) (hH : hidden s' = hidden s)
    (hips : s'.ips = s.ips) (hT : s'.all_users = s.all_users) (hnu : s'.num_user = s.num_user)
    (hnh : s'.num_hidden = s.num_hidden) (hframes : s'.frames = s.frames) : Sound s' := by
  have hO : owner s' = owner s := by
    funext ip
    rw [owner, hips, owner]
  apply h.of_table
  · rw [hI, hO, hH, hT, hnu, hnh]
    exact h.table
  · rw [hips]
    exact fun ip r hr hc => ⟨r, hr, hc⟩
  · rw [hframes]
    exact fun f hf => .inl hf
  · rw [hframes]
    exact h.once

theorem Sound.pop (h : Sound s) {f : frame} {rest : List frame} (hf : s.frames = f :: rest) :
    Sound { s with frames := rest } := by
  apply h.of_table
  · exact h.table
  · exact fun ip r hr hc => ⟨r, hr, hc⟩
  · exact fun g hg => .inl (hf ▸ mem_cons_of_mem f hg)
  · have honce := h.once
    rw [hf] at honce
    exact honce.sublist ((sublist_cons_self f rest).filterMap _)

theorem free_slot_spec (h : Table I O H T nu nh) :
    Table I O H (free_slot T).1 nu nh ∧ (free_slot T).1[(free_slot T).2]? = some none := by
  unfold free_slot
  dsimp only
  split_ifs with hfull
  · refine ⟨h.grow 10, ?_⟩
    rw [hfull, getElem?_append_right (Nat.le_refl _)]
    simp
  · refine ⟨h, ?_⟩
    have hlt : T.findIdx (fun e => decide (e = none)) < T.length := by
      have hle : T.findIdx (fun e => decide (e = none)) ≤ T.length := findIdx_le_length
      omega
    have hget := findIdx_getElem (w := hlt)
    rw [getElem?_eq_getElem hlt]
    simpa using hget

theorem sound_accept (h : Sound s) {ip : Nat} (hframes : s.frames = [])
    (hmaster : (s.objects s.master_ob).isSome) (hip : s.ips ip = none)
    (hI : interactive s s.master_ob = none) (hH : hidden s s.master_ob = false) :
    Sound (accept ip s) := by
  obtain ⟨htable, hslot⟩ := free_slot_spec h.table
  have hO : owner s ip = none := by simp [owner, hip]
  have hnew := htable.connect hI hO hslot
  have howner : owner (accept ip s) = update (owner s) ip (some s.master_ob) := by
    funext a
    by_cases ha : a = ip
    · subst ha
      simp [owner, accept]
    · simp [owner, accept, ha]
  have hinter : interactive (accept ip s) =
      update (interactive s) s.master_ob (some ip) :=
    interactive_set_interactive hmaster (some ip)
  have hhidden : hidden (accept ip s) = hidden s :=
    hidden_set_interactive s s.master_ob (some ip)
  apply h.of_table
  · rw [hinter, howner, hhidden]
    simp only [hH, count, Bool.false_eq_true, if_false, add_zero] at hnew
    exact hnew
  · intro a r hr hc
    have hne : a ≠ ip := by
      rintro rfl
      simp [hip] at hr
    exact ⟨r, by simp [accept, hne, hr], hc⟩
  · intro f hf
    rcases mem_cons.mp hf with rfl | hf
    · exact .inr rfl
    · exact .inl hf
  · show (s.frames.filterMap frame.ip).Nodup
    exact h.once

theorem sound_give (h : Sound s) {ip : Nat} (hob : (s.objects ob).isSome)
    (hI : interactive s ob = none) (hfrom : interactive s obfrom = some ip)
    (hs' : s' = { set_ob ip ob (set_interactive obfrom none (set_interactive ob (some ip) s)) with
      num_hidden := s.num_hidden + count (hidden s ob) - count (hidden s obfrom) }) : Sound s' := by
  subst hs'
  have hO := (h.table.inverse obfrom ip).mp hfrom
  obtain ⟨r, hr, -⟩ := map_eq_some_iff.mp hO
  have hfrom' : ((set_interactive ob (some ip) s).objects obfrom).isSome := by
    have := isSome_of_interactive hfrom
    by_cases hne : obfrom = ob
    · subst hne
      simpa [set_interactive] using this
    · simpa [set_interactive, hne] using this
  have hinter := interactive_set_interactive hfrom' none
  rw [interactive_set_interactive hob] at hinter
  have hips : ((set_interactive obfrom none (set_interactive ob (some ip) s)).ips ip).isSome := by
    simp [set_interactive, hr]
  have howner := owner_set_ob hips ob
  have hhidden := (hidden_set_interactive (set_interactive ob (some ip) s) obfrom none).trans
    (hidden_set_interactive s ob (some ip))
  apply h.of_table
  · show Table (interactive (set_interactive obfrom none (set_interactive ob (some ip) s)))
      (owner (set_ob ip ob (set_interactive obfrom none (set_interactive ob (some ip) s))))
      (hidden (set_interactive obfrom none (set_interactive ob (some ip) s))) s.all_users
      s.num_user (s.num_hidden + count (hidden s ob) - count (hidden s obfrom))
    rw [hinter, howner, hhidden]
    exact h.table.give hI hfrom
  · intro a r' hr' hc
    by_cases hne : a = ip
    · subst hne
      exact ⟨{ r' with ob := ob }, by simp [set_ob, set_interactive, hr'], hc⟩
    · exact ⟨r', by simp [set_ob, set_interactive, hne, hr'], hc⟩
  · exact fun f hf => .inl hf
  · exact h.once

theorem sound_connect_returns (h : Sound s) {ret : Option Nat}
    (hret : ∀ ob, ret = some ob → (s.objects ob).isSome)
    (hcare : ∀ ob, ret = some ob → interactive s s.master_ob = none ∨
      (interactive s ob = none ∧ hidden s s.master_ob = false)) :
    Sound (connect_returns ret s) := by
  unfold connect_returns
  rcases ret with _ | ob
  · exact sound_remove_interactive h s.master_ob
  · rcases hI : interactive s s.master_ob with _ | ip
    · exact sound_remove_interactive h s.master_ob
    · obtain hnone | ⟨hnone, hshown⟩ := hcare ob rfl
      · simp [hI] at hnone
      · apply sound_give h (hret ob rfl) hnone hI
        have hcount : s.num_hidden + count (hidden s ob) - count (hidden s s.master_ob) =
            if hidden s ob then s.num_hidden + 1 else s.num_hidden := by
          rw [hshown]
          unfold count
          split_ifs <;> simp_all
        rw [hcount]
        rfl

theorem sound_replace_interactive (h : Sound s) (hob : (s.objects ob).isSome)
    (hr : replace_interactive ob obfrom s = .ok s') : Sound s' := by
  unfold replace_interactive at hr
  rcases hI : interactive s ob with _ | _
  · rcases hfrom : interactive s obfrom with _ | ip
    · simp [hI, hfrom, reduceCtorEq] at hr
    · simp only [hI, hfrom, Except.ok.injEq] at hr
      apply sound_give h hob hI hfrom
      have hcount : s.num_hidden + count (hidden s ob) - count (hidden s obfrom) =
          if hidden s ob ≠ hidden s obfrom then
            if hidden s ob then s.num_hidden + 1 else s.num_hidden - 1
          else s.num_hidden := by
        unfold count
        cases hidden s ob <;> cases hidden s obfrom <;> simp
      rw [hcount, ← hr]
      rfl
  · simp [hI, reduceCtorEq] at hr

theorem sound_set_hide (h : Sound s) (ob : Nat) (flag : Bool) : Sound (set_hide ob flag s) := by
  rcases ho : s.objects ob with _ | o
  · have hI : interactive s ob = none := by simp [interactive, ho]
    have hself := update_eq_self ob s.objects
    rw [ho] at hself
    have hsame : set_hide ob flag s = s := by
      simp [set_hide, set_hidden, hI, ho, hself]
    rwa [hsame]
  · have hexists : (s.objects ob).isSome := by simp [ho]
    have htable := h.table.hide ob flag
    rw [← hidden_set_hidden hexists flag] at htable
    have hinter := interactive_set_hidden s ob flag
    by_cases hI : (interactive s ob).isSome
    · have hcount : (if flag && !hidden s ob then s.num_hidden + 1
          else if !flag && hidden s ob then s.num_hidden - 1 else s.num_hidden) =
          s.num_hidden + count flag - count (hidden s ob) := by
        unfold count
        cases flag <;> cases hidden s ob <;> simp
      rw [if_pos hI, ← hinter, ← hcount] at htable
      simp only [set_hide, if_pos hI]
      exact h.of_table htable (fun ip r hr hc => ⟨r, hr, hc⟩) (fun f hf => .inl hf) h.once
    · rw [if_neg hI, ← hinter] at htable
      simp only [set_hide, if_neg hI]
      exact h.of_table htable (fun ip r hr hc => ⟨r, hr, hc⟩) (fun f hf => .inl hf) h.once

theorem sound_destruct (h : Sound s) (ob : Nat) : Sound (destruct_object ob s) := by
  unfold destruct_object
  split_ifs
  · exact h
  · apply sound_remove_dested
    exact h.congr (interactive_set_destructed s ob) (hidden_set_destructed s ob) rfl rfl rfl rfl
      rfl

theorem sound_net_dead (h : Sound s) {ip : Nat} {rest : List frame}
    (hframes : s.frames = .net_dead ob ip :: rest) (hI : interactive s ob = some ip) :
    Sound (end_removal ob ip { s with frames := rest }) := by
  have hpop := h.pop hframes
  have hI' : interactive { s with frames := rest } ob = some ip := hI
  have hpopped : ∀ f ∈ rest, f.ip ≠ some ip := by
    intro f hf hip
    have honce := h.once
    rw [hframes] at honce
    have hnot : ip ∉ rest.filterMap frame.ip := (nodup_cons.mp honce).1
    exact hnot (mem_filterMap.mpr ⟨f, hf, hip⟩)
  exact sound_end_removal hpop hI' (fun f hf => ⟨hf, hpopped f hf⟩) hpop.once

theorem sound_load (h : Sound s) (hnone : s.objects ob = none) :
    Sound { s with objects := update s.objects ob (some ⟨none, false, false⟩) } := by
  refine h.congr (funext fun a => ?_) (funext fun a => ?_) rfl rfl rfl rfl rfl
  all_goals
    by_cases ha : a = ob
    · subst ha
      simp [interactive, hidden, hnone]
    · simp [interactive, hidden, ha]

theorem sound_step {a : action} (h : Sound s) (hcare : Careful s a) (hs : step s a = some s') :
    Sound s' := by
  cases a with
  | load ob =>
    simp only [step] at hs
    split_ifs at hs with hnone
    cases hs
    exact sound_load h (isNone_iff_eq_none.mp hnone)
  | set_master ob =>
    simp only [step] at hs
    split_ifs at hs
    cases hs
    exact h.congr rfl rfl rfl rfl rfl rfl rfl
  | accept ip =>
    simp only [step] at hs
    split_ifs at hs with hok
    cases hs
    obtain ⟨hframes, hmaster, hip⟩ := hok
    exact sound_accept h hframes hmaster (isNone_iff_eq_none.mp hip) hcare.1 hcare.2
  | connect_returns ret =>
    simp only [step] at hs
    split at hs
    · rename_i rest hframes
      split_ifs at hs with hret
      cases hs
      apply sound_connect_returns (h.pop hframes)
      · rintro ob rfl
        exact hret
      · rintro ob rfl
        exact hcare
    · cases hs
  | net_dead_returns =>
    simp only [step] at hs
    split at hs
    · rename_i ob ip rest hframes
      cases hs
      exact sound_net_dead h hframes (hcare (.net_dead ob ip) (by simp [hframes]))
    · cases hs
  | error =>
    simp only [step] at hs
    split at hs
    · cases hs
      exact h
    · rename_i rest hframes
      cases hs
      exact h.pop hframes
    · rename_i ob ip rest hframes
      cases hs
      exact sound_net_dead h hframes (hcare (.net_dead ob ip) (by simp [hframes]))
  | set_hide current_object flag =>
    cases hs
    exact sound_set_hide h current_object flag
  | exec ob obfrom =>
    simp only [step] at hs
    split_ifs at hs with hok
    split at hs
    · rename_i r hr
      cases hs
      exact sound_replace_interactive h hok.1 hr
    · cases hs
      exact h
  | remove_interactive ob =>
    cases hs
    exact sound_remove_interactive h ob
  | destruct ob =>
    cases hs
    exact sound_destruct h ob

theorem sound_start (master_ob : Nat) : Sound (start master_ob) where
  table := by
    refine ⟨fun ob ip => ?_, fun ip => ?_, rfl, rfl⟩
    · by_cases hob : ob = master_ob
      · subst hob
        simp [interactive, owner, start]
      · simp [interactive, owner, start, hob]
    · simp [owner, start, times, weigh]
  closing := by simp [start]
  once := by simp [start]

/-! ## The users -/

def entries (s : driver) : List Nat := s.all_users.filterMap fun entry => entry

def hidden_entries (s : driver) : List Nat :=
  (entries s).filter fun ip => (owner s ip).any (hidden s)

/-- The table and the objects tell each other, the counters count, and `users` fills its
array. -/
structure Consistent (s : driver) : Prop where
  once : (entries s).Nodup
  owned : ∀ ip ∈ entries s, ∃ ob, owner s ip = some ob
  inverse : ∀ ob ip, interactive s ob = some ip ↔ ip ∈ entries s ∧ owner s ip = some ob
  num_user : s.num_user = (entries s).length
  num_hidden : s.num_hidden = (hidden_entries s).length
  users : ∀ valid, users_size valid s = (users valid s).length

theorem length_filterMap_taken (T : List (Option Nat)) :
    (T.filterMap fun entry => entry).length = weigh taken T := by
  induction T with
  | nil => rfl
  | cons e T ih =>
    simp only [weigh] at ih
    cases e with
    | none => simp [weigh, taken, ih]
    | some ip =>
      simp [weigh, taken, ih]
      omega

theorem length_filter_hides (T : List (Option Nat)) :
    ((T.filterMap fun entry => entry).filter fun ip => (O ip).any H).length =
      weigh (hides O H) T := by
  induction T with
  | nil => rfl
  | cons e T ih =>
    simp only [weigh] at ih
    rcases e with _ | ip
    · simp [weigh, hides, ih]
    · by_cases hH : (O ip).any H
      · simp [weigh, hides, ih, hH]
        omega
      · simp [weigh, hides, ih, hH]

theorem count_filterMap (ip : Nat) (T : List (Option Nat)) :
    (T.filterMap fun entry => entry).count ip = times (some ip) T := by
  induction T with
  | nil => rfl
  | cons e T ih =>
    simp only [times, weigh] at ih
    rcases e with _ | a
    · simp [weigh, ih]
    · by_cases ha : a = ip
      · simp [weigh, ih, ha]
        omega
      · simp [weigh, ih, ha]

theorem owner_of_mem (h : Sound s) {ip : Nat} (hip : some ip ∈ s.all_users) :
    ∃ ob, owner s ip = some ob := by
  have hpos := times_pos hip
  rw [h.table.once] at hpos
  rcases hO : owner s ip with _ | ob
  · simp [hO] at hpos
  · exact ⟨ob, rfl⟩

theorem users_of_entries (s : driver) (shown : Bool) {T : List (Option Nat)}
    (hT : ∀ ip, some ip ∈ T → ∃ ob, owner s ip = some ob) :
    (T.filterMap fun entry => entry.bind fun ip => (s.ips ip).bind fun r =>
        if !shown && hidden s r.ob then none else some r.ob).length +
      (if shown then 0 else weigh (hides (owner s) (hidden s)) T) = weigh taken T := by
  induction T with
  | nil => cases shown <;> rfl
  | cons e T ih =>
    have hrest := ih fun ip hip => hT ip (mem_cons_of_mem e hip)
    simp only [weigh, map_cons, sum_cons] at hrest ⊢
    rcases e with _ | ip
    · cases shown <;> simp [hides, taken] at hrest ⊢ <;> omega
    · obtain ⟨ob, hob⟩ := hT ip mem_cons_self
      obtain ⟨r, hr, rfl⟩ := map_eq_some_iff.mp hob
      cases shown <;> cases hH : hidden s r.ob <;>
        simp [hr, hides, taken, owner, hH] at hrest ⊢ <;> omega

theorem consistent (h : Sound s) : Consistent s where
  once := by
    rw [nodup_iff_count]
    intro ip
    rw [entries, count_filterMap, h.table.once]
    split_ifs <;> omega
  owned ip hip := owner_of_mem h (by simpa [entries] using hip)
  inverse ob ip := by
    rw [h.table.inverse]
    refine ⟨fun hO => ⟨?_, hO⟩, And.right⟩
    have hmem : some ip ∈ s.all_users := by
      apply mem_of_times_pos
      rw [h.table.once, hO]
      simp
    simpa [entries] using hmem
  num_user := by rw [entries, length_filterMap_taken, h.table.users]
  num_hidden := by rw [hidden_entries, entries, length_filter_hides, h.table.hidden]
  users valid := by
    have hlength := users_of_entries s (display_hidden valid s) fun ip => owner_of_mem h
    have hnu := h.table.users
    have hnh := h.table.hidden
    unfold users_size users
    split_ifs at hlength ⊢ <;> omega

/-- As long as the master object has no connection and is not hidden when one comes, gives
it to an object that has none, and `net_dead` leaves its object the connection, the table,
the objects and the counters agree. -/
theorem the_table_and_the_objects_agree {master_ob : Nat} {s : driver}
    (h : Reachable (start master_ob) step Careful s) : Consistent s :=
  consistent (h.inv (sound_start master_ob) fun _ _ _ hs hcare hstep => sound_step hs hcare hstep)

/-- A user comes, goes to another body, hides, and a second one comes and leaves. -/
theorem two_users_come_and_one_leaves : ∃ s, run step (start 1)
    [.load 2, .load 3, .accept 11, .connect_returns (some 2), .exec 3 2, .set_hide 3 true,
      .accept 12, .connect_returns (some 2), .remove_interactive 2, .net_dead_returns] =
        some s ∧ s.num_hidden = 1 ∧ Consistent s := by
  refine (Reachable.of_computed ?_ ?_).imp fun s h =>
    ⟨h.1, h.2.1, the_table_and_the_objects_agree h.2.2⟩ <;> decide

/-- A second connection is given to the user of the first one. -/
theorem the_second_connection_takes_the_user :
    ¬ ∀ s, Reachable (start 1) step (fun _ _ => True) s → Consistent s := by
  intro hall
  have hrun : (run step (start 1) [.load 2, .accept 11, .connect_returns (some 2), .accept 12,
      .connect_returns (some 2)]).map (fun s => (entries s, owner s 11, interactive s 2)) =
      some ([11, 12], some 2, some 12) := by decide
  obtain ⟨s, hs, hvalues⟩ := map_eq_some_iff.mp hrun
  simp only [Prod.mk.injEq] at hvalues
  obtain ⟨hentries, howner, hinter⟩ := hvalues
  have hreach := Reachable.of_any hs
  have hback := ((hall s hreach).inverse 2 11).mpr ⟨by simp [hentries], howner⟩
  simp [hinter] at hback

end mudos.interactives
