-- What the efuns, the events of `select` and the ends of objects do to the table of sockets, and
-- what holds in every run in which no socket is closed again in its own close callback.
import MudOS.SocketTableLaws

open List Option

namespace mudos.socket_table

variable {d : driver}
variable {ob : Nat}
variable {x : slot_t}

/-! ## Slots that stay open -/

structure Served (s s' : lpc_socket_t) : Prop where
  callback : s'.callback = s.callback
  S_FP : s'.S_FP = s.S_FP
  fd : s'.fd = s.fd
  release : s'.S_RELEASE = s.S_RELEASE
  state : s'.state ≠ .CLOSED
  opened : is_open s' = true → is_open s = true
  owner : s'.owner_ob = s.owner_ob
  blocked : s'.w_buf ≠ none → s'.S_BLOCKED = true
  header : s'.S_HEADER = true → s'.r_buf = none

theorem sound_served (hsound : Sound d) {i : Nat} {s : lpc_socket_t} (hs : d.lpc_socks[i]? = some s)
    (hstate : s.state ≠ .CLOSED) (hbalanced : Balanced (s, d.ledger) x)
    (hwrong : x.2.wrong = d.ledger.wrong) (hserved : Served s x.1) : Sound (d.put i x) := by
  have hslot := hsound.slots i s hs
  refine sound_put hsound hs hbalanced (hwrong.trans hsound.right) ?_ ?_
  · constructor
    · intro w
      rw [hserved.S_FP, hserved.callback]
      exact hslot.tagged w
    · intro _
      rw [hserved.fd]
      exact hslot.opened hstate
    · exact fun hclosed => absurd hclosed hserved.state
    · exact fun _ => hserved.blocked
    · exact fun _ => hserved.header
    · intro hopen
      rw [hserved.owner]
      exact hslot.owner (hserved.opened hopen)
    · rw [hserved.release, hserved.fd]
      exact hslot.release
  · exact fun _ _ => ⟨hserved.state, hserved.fd⟩

theorem balanced_served {s s' : lpc_socket_t} (hserved : Served s s') (hstate : s.state ≠ .CLOSED)
    (hr_buf : s'.r_buf = s.r_buf) (hw_buf : s'.w_buf = s.w_buf) (l : ledger) :
    Balanced (s, l) (s', l) := by
  refine ⟨Nat.le_refl _, List.Subset.refl _, ?_⟩
  intro n
  unfold lpc_socket_t.holds lpc_socket_t.stored
  simp [hserved.callback, hserved.fd, hr_buf, hw_buf, if_neg hserved.state, if_neg hstate]

theorem put_some {i : Nat} {s : lpc_socket_t} (hs : d.lpc_socks[i]? = some s) (x : slot_t) :
    (d.put i x).lpc_socks[i]? = some x.1 :=
  getElem?_set_self (List.getElem?_eq_some_iff.mp hs).1

theorem put_put (i : Nat) (x y : slot_t) : (d.put i x).put i y = d.put i y := by simp [driver.put]

theorem sound_put_recalled {i : Nat} {s : lpc_socket_t} (hs : d.lpc_socks[i]? = some s) {y : slot_t}
    (hput : Sound (d.put i x)) (hrecalled : Recalled x y) : Sound (d.put i y) := by
  have hsound := sound_recalled hput (put_some hs x) hrecalled
  rwa [put_put] at hsound

theorem sound_mark (hsound : Sound d) (ob : Nat) : Sound (d.mark ob) := { hsound with }

/-! ## Opening -/

structure Vacant (d : driver) (i : Nat) : Prop where
  slot : ∃ s, d.lpc_socks[i]? = some s ∧ s.state = .CLOSED ∧ ∀ w, s.callback w = none

theorem new_slot_holds (n : Nat) : new_slot.holds n = 0 := rfl

theorem total_new_slots (k n : Nat) : total (List.replicate k new_slot) n = 0 := by
  induction k with
  | zero => rfl
  | succ k ih => rw [replicate_succ, total, ih, new_slot_holds]

theorem new_slot_sound (released : List Nat) (freed : Nat → Bool) (frames : List frame) (i : Nat) :
    SlotSound released freed frames i new_slot where
  tagged _ := rfl
  opened h := absurd rfl h
  closed _ _ h := by cases h
  blocked h := absurd rfl h
  header h := absurd rfl h
  owner h := by cases h
  release h := by cases h

theorem sound_more (hsound : Sound d) :
    Sound { d with lpc_socks := d.lpc_socks ++ List.replicate 10 new_slot } := by
  refine { hsound with ledger := ?_, slots := ?_, closing := ?_ }
  · intro n
    rw [total_append, total_new_slots, Nat.add_zero]
    exact hsound.ledger n
  · intro i s hs
    rw [getElem?_append] at hs
    split at hs
    · exact hsound.slots i s hs
    · rw [eq_of_mem_replicate (mem_of_getElem? hs)]
      exact new_slot_sound _ _ _ _
  · intro i k hframe
    obtain ⟨s, hs, hslot⟩ := hsound.closing i k hframe
    exact ⟨s, by rw [getElem?_append_left (List.getElem?_eq_some_iff.mp hs).1, hs], hslot⟩

theorem sound_find_new_socket (hsound : Sound d) : Sound (find_new_socket d).2 := by
  unfold find_new_socket
  split
  · rename_i i hfind
    obtain ⟨hi, -, -⟩ := findIdx?_eq_some_iff_getElem.mp hfind
    have hs := getElem?_eq_getElem hi
    simp only [modify_some hs]
    exact sound_recalled hsound hs (recalled_no_callbacks _)
  · exact sound_more hsound

theorem vacant_find_new_socket : Vacant (find_new_socket d).2 (find_new_socket d).1 := by
  unfold find_new_socket
  split
  · rename_i i hfind
    obtain ⟨hi, hstate, -⟩ := findIdx?_eq_some_iff_getElem.mp hfind
    have hs := getElem?_eq_getElem hi
    simp only [modify_some hs]
    refine ⟨_, put_some hs _, ?_, no_callbacks_none _⟩
    rw [(recalled_no_callbacks _).alike.state]
    exact of_decide_eq_true hstate
  · refine ⟨new_slot, ?_, rfl, fun _ => rfl⟩
    rw [getElem?_append_right (Nat.le_refl _), Nat.sub_self]
    rfl

theorem find_new_socket_freed : (find_new_socket d).2.freed = d.freed := by
  unfold find_new_socket
  split
  · unfold driver.modify
    split <;> rfl
  · rfl

theorem sound_open (hsound : Sound d) {i : Nat} (hvacant : Vacant d i) (hfreed : d.freed ob = false)
    (binary blocked : Bool) (mode : socket_mode) {state : socket_state} (hopen : state ≠ .CLOSED)
    (f : slot_t → slot_t) (hrecalled : ∀ x, Recalled x (f x)) :
    Sound (d.modify i fun x => f (open_slot binary blocked mode state ob x)) := by
  obtain ⟨s, hs, hclosed, hnone⟩ := hvacant.slot
  rw [modify_some hs]
  refine sound_put_recalled hs (sound_put hsound hs ?_ hsound.right ?_ ?_) (hrecalled _)
  · refine ⟨Nat.le_succ _, List.Subset.refl _, ?_⟩
    intro n
    have hstate : (open_slot binary blocked mode state ob (s, d.ledger)).1.state ≠ .CLOSED := hopen
    unfold lpc_socket_t.holds lpc_socket_t.stored
    rw [if_pos hclosed, if_neg hstate]
    simp only [open_slot, new_slot, hnone, map_none, held_none, below_succ]
    omega
  · constructor
    · intro w
      simp [open_slot, new_slot, hnone]
    · exact fun _ h => by cases h
    · exact fun h => absurd h hopen
    · exact fun _ h => absurd rfl h
    · exact fun _ _ => rfl
    · exact fun _ => ⟨ob, rfl, hfreed⟩
    · exact fun h => by cases h
  · intro k hframe
    obtain ⟨t, ht, hstate, -⟩ := hsound.closing i k hframe
    cases hs.symm.trans ht
    exact absurd hclosed hstate

/-! ## Efuns -/

theorem sound_socket_create (hsound : Sound d) (hfreed : d.freed ob = false) (a : create_t) :
    Sound (socket_create d ob a) := by
  have hnew := sound_find_new_socket hsound
  simp only [socket_create]
  by_cases hok : a.ok = true
  · rw [if_pos hok]
    apply sound_mark
    refine sound_open hnew vacant_find_new_socket ?_ a.binary false a.mode ?_ (fun x =>
      set_close_callback (if a.mode = .DATAGRAM then none else a.close_callback)
        (set_write_callback none (set_read_callback a.read_callback x))) ?_
    · rwa [find_new_socket_freed]
    · decide
    · intro x
      exact ((recalled_set_callback _ _ x).trans (recalled_set_callback _ _ _)).trans
        (recalled_set_callback _ _ _)
  · rwa [if_neg hok]

theorem sound_socket_bind (hsound : Sound d) (ob fd : Nat) (ok : Bool) :
    Sound (socket_bind d ob fd ok) := by
  unfold socket_bind
  split
  · exact hsound
  · rename_i s hs
    split_ifs with hopen
    · have hstate := is_open_state hopen.1
      have hslot := hsound.slots fd s hs
      have hserved : Served s { s with state := .BOUND } :=
        ⟨rfl, rfl, rfl, rfl, by simp, fun _ => hopen.1, rfl, hslot.blocked hstate,
          hslot.header hstate⟩
      exact sound_served hsound hs hstate (balanced_served hserved hstate rfl rfl _) rfl hserved
    · exact hsound

theorem sound_socket_listen (hsound : Sound d) (ob fd : Nat) (callback ok : Bool) :
    Sound (socket_listen d ob fd callback ok) := by
  unfold socket_listen
  split
  · exact hsound
  · rename_i s hs
    split_ifs with hopen
    · have hstate := is_open_state hopen.1
      have hslot := hsound.slots fd s hs
      have hserved : Served s { s with state := .LISTEN } :=
        ⟨rfl, rfl, rfl, rfl, by simp, fun _ => hopen.1, rfl, hslot.blocked hstate,
          hslot.header hstate⟩
      apply sound_mark
      exact sound_put_recalled hs
        (sound_served hsound hs hstate (balanced_served hserved hstate rfl rfl _) rfl hserved)
        (recalled_set_callback _ _ _)
    · exact hsound

theorem sound_socket_accept (hsound : Sound d) (hfreed : d.freed ob = false) (fd : Nat)
    (read_callback write_callback : Bool) (accepted : Option Bool) :
    Sound (socket_accept d ob fd read_callback write_callback accepted) := by
  unfold socket_accept
  split
  · exact hsound
  · rename_i s hs
    by_cases hopen : is_open s = true ∧ s.owner_ob = some ob ∧ s.mode ≠ .DATAGRAM ∧
        s.state = .LISTEN
    · rw [if_pos hopen]
      have hstate := is_open_state hopen.1
      have hslot := hsound.slots fd s hs
      have hserved : Served s { s with S_WACCEPT := false } :=
        ⟨rfl, rfl, rfl, rfl, hstate, fun _ => hopen.1, rfl, hslot.blocked hstate,
          hslot.header hstate⟩
      have hput := sound_served hsound hs hstate (balanced_served hserved hstate rfl rfl _) rfl hserved
      cases accepted with
      | none => exact hput
      | some blocked =>
        apply sound_mark
        refine sound_open (sound_find_new_socket hput) vacant_find_new_socket ?_ s.S_BINARY blocked
          s.mode ?_ (fun x => copy_close_callback s (set_write_callback (some write_callback)
            (set_read_callback (some read_callback) x))) ?_
        · rwa [find_new_socket_freed]
        · decide
        · intro x
          exact ((recalled_set_callback _ _ x).trans (recalled_set_callback _ _ _)).trans
            (recalled_copy_close_callback hslot.tagged _)
    · rwa [if_neg hopen]

theorem sound_socket_connect (hsound : Sound d) (ob fd : Nat)
    (read_callback write_callback ok : Bool) :
    Sound (socket_connect d ob fd read_callback write_callback ok) := by
  unfold socket_connect
  split
  · exact hsound
  · rename_i s hs
    by_cases hopen : is_open s = true ∧ s.owner_ob = some ob ∧ s.mode ≠ .DATAGRAM ∧
        (s.state = .UNBOUND ∨ s.state = .BOUND)
    · rw [if_pos hopen]
      have hrecalled : Recalled (s, d.ledger)
          (set_write_callback (some write_callback)
            (set_read_callback (some read_callback) (s, d.ledger))) :=
        (recalled_set_callback _ _ _).trans (recalled_set_callback _ _ _)
      generalize set_write_callback (some write_callback)
        (set_read_callback (some read_callback) (s, d.ledger)) = x at hrecalled ⊢
      have hput := sound_recalled hsound hs hrecalled
      apply sound_mark
      cases ok with
      | false => exact hput
      | true =>
        have hs' := put_some hs x
        have hslot := hput.slots fd x.1 hs'
        have hopen' : is_open x.1 = true := by
          rw [is_open, hrecalled.alike.state]
          exact hopen.1
        have hstate := is_open_state hopen'
        have hserved : Served x.1 { x.1 with
            state := .DATA_XFER
            S_BLOCKED := true } :=
          ⟨rfl, rfl, rfl, rfl, by simp, fun _ => hopen', rfl, fun _ => rfl, hslot.header hstate⟩
        have hserve := sound_served hput hs' hstate
          (balanced_served hserved hstate rfl rfl _) rfl hserved
        rwa [put_put] at hserve
    · rwa [if_neg hopen]

theorem sound_socket_write (hsound : Sound d) (ob fd rest : Nat) :
    Sound (socket_write d ob fd rest) := by
  unfold socket_write
  split
  · exact hsound
  · rename_i s hs
    split_ifs with hopen
    · obtain ⟨hopen, -, -, -, hblocked, -⟩ := hopen
      have hstate := is_open_state hopen
      have hslot := hsound.slots fd s hs
      have hempty : s.w_buf = none := by
        by_contra hw_buf
        exact hblocked (hslot.blocked hstate hw_buf)
      refine sound_served hsound hs hstate ?_ rfl ?_
      · refine ⟨Nat.le_succ _, List.Subset.refl _, ?_⟩
        intro n
        simp only [lpc_socket_t.holds, lpc_socket_t.stored, if_neg hstate, hempty, held_none,
          below_succ]
        omega
      · exact ⟨rfl, rfl, rfl, rfl, hstate, fun _ => hopen, rfl, fun _ => rfl, hslot.header hstate⟩
    · exact hsound

theorem sound_socket_release (hsound : Sound d) (ob fd : Nat) {target : Option Nat}
    (htarget : target = none → ∀ s, d.lpc_socks[fd]? = some s → is_open s = true →
      s.owner_ob = some ob → s.S_RELEASE = true) : Sound (socket_release d ob fd target) := by
  unfold socket_release
  split
  · exact hsound
  · rename_i s hs
    split_ifs with hopen
    · have hsome : target ≠ none :=
        fun hnone => hopen.2.2 (htarget hnone s hs hopen.1 hopen.2.1)
      obtain ⟨target, rfl⟩ := ne_none_iff_exists'.mp hsome
      have hslot := hsound.slots fd s hs
      have hstate := is_open_state hopen.1
      obtain ⟨k, hk⟩ := ne_none_iff_exists'.mp (hslot.opened hstate)
      have hpush : Sound { d with frames := .releasing fd k :: d.frames } := by
        refine sound_frames hsound ?_ ?_ ?_
        · intro i t ht hrelease
          refine if_neg ?_
          rintro rfl
          rw [hs, some.injEq] at ht
          exact hopen.2.2 (by rw [ht, hrelease])
        · intro i k' hframe
          rcases mem_cons.mp hframe with h | hframe
          · cases h
          · exact hsound.closing i k' hframe
        · rw [countP_cons_of_neg (by simp [closes])]
          exact hsound.once
      have hfd : s.fd.getD 0 = k := by
        rw [hk]
        rfl
      rw [hfd]
      have hput := sound_put hpush hs (x := ({ s with
        S_RELEASE := true
        release_ob := some target }, d.ledger)) ⟨Nat.le_refl _, List.Subset.refl _, fun _ => rfl⟩
        hsound.right ?_ ?_
      · exact hput
      · exact { hslot with release := fun _ => ⟨k, hk, if_pos rfl⟩ }
      · exact fun _ _ => ⟨hstate, rfl⟩
    · exact hsound

theorem sound_socket_acquire (hsound : Sound d) (hfreed : d.freed ob = false) (fd : Nat)
    (read_callback write_callback close_callback : Bool) :
    Sound (socket_acquire d ob fd read_callback write_callback close_callback) := by
  unfold socket_acquire
  split
  · exact hsound
  · rename_i s hs
    split_ifs with hopen
    · have hslot := hsound.slots fd s hs
      have hput := sound_put hsound hs (x := ({ s with
        S_RELEASE := false
        owner_ob := some ob
        release_ob := none }, d.ledger)) ⟨Nat.le_refl _, List.Subset.refl _, fun _ => rfl⟩
        hsound.right ?_ ?_
      · exact sound_put_recalled hs hput (((recalled_set_callback _ _ _).trans
          (recalled_set_callback _ _ _)).trans (recalled_set_callback _ _ _))
      · exact { hslot with
          owner := fun _ => ⟨ob, rfl, hfreed⟩
          release := fun h => by cases h }
      · exact fun k _ => ⟨is_open_state hopen.1, rfl⟩
    · exact hsound

/-! ## Events -/

theorem sound_put_call {i : Nat} {s : lpc_socket_t} (hs : d.lpc_socks[i]? = some s)
    (hput : Sound (d.put i x)) (hopen : is_open x.1 = true) (what : what_t) :
    Sound (call_callback (d.put i x) x.1 what .plain) :=
  sound_call hput (put_some hs x) hopen (sound_push_plain hput)

theorem sound_give_up (hsound : Sound d) (hframes : d.frames = []) {i : Nat} {s : lpc_socket_t}
    (hs : d.lpc_socks[i]? = some s) (hstate : s.state ≠ .CLOSED) :
    Sound (close_final (d.put i ({ s with S_BLOCKED := false }, d.ledger)) i) := by
  have hslot := hsound.slots i s hs
  have hput := put_some hs (({ s with S_BLOCKED := false }, d.ledger) : slot_t)
  unfold close_final
  simp only [hput, if_neg hstate, modify_some hput, put_put]
  have hbalanced : Balanced (s, d.ledger) ({ s with S_BLOCKED := false }, d.ledger) :=
    ⟨Nat.le_refl _, List.Subset.refl _, fun _ => rfl⟩
  refine sound_put hsound hs (hbalanced.trans (balanced_shut hstate)) ?_
    (shut_sound_unblocked rfl hslot.tagged hslot.release) ?_
  · exact (shut_wrong hslot.tagged).trans hsound.right
  · intro k hframe
    simp [hframes] at hframe

theorem sound_unblocked (hsound : Sound d) (hframes : d.frames = []) {i : Nat} {s : lpc_socket_t}
    (hs : d.lpc_socks[i]? = some s) (hstate : s.state ≠ .CLOSED) {s' : lpc_socket_t} {l : ledger}
    (hbalanced : Balanced (s, d.ledger) (s', l)) (hwrong : l.wrong = d.ledger.wrong)
    (hserved : Served s s') :
    Sound (if s'.state = .FLUSHING then close_final (d.put i (s', l)) i
      else call_callback (d.put i (s', l)) s' .S_WRITE_FP .plain) := by
  have hput := sound_served hsound hs hstate hbalanced hwrong hserved
  split_ifs with hflushing
  · exact sound_close_final hput hframes i
  · refine sound_put_call hs hput ?_ _
    have hstate' := hserved.state
    simp [is_open, hstate', hflushing]

theorem sound_socket_write_select_handler (hsound : Sound d) (hframes : d.frames = []) {fd : Nat}
    (hpolls : ∀ s, d.lpc_socks[fd]? = some s → s.state ≠ .CLOSED) (written : result_t) :
    Sound (socket_write_select_handler d fd written) := by
  unfold socket_write_select_handler
  split
  · exact hsound
  · rename_i s hs
    have hstate := hpolls s hs
    have hslot := hsound.slots fd s hs
    by_cases hblocked : s.S_BLOCKED = true
    · rw [if_pos hblocked]
      simp only
      split
      · rename_i hw_buf
        have hserved : Served s { s with S_BLOCKED := false } :=
          ⟨rfl, rfl, rfl, rfl, hstate, fun hopen => hopen, rfl, fun h => absurd hw_buf h,
            hslot.header hstate⟩
        exact sound_unblocked hsound hframes hs hstate
          (balanced_served hserved hstate rfl rfl d.ledger) rfl hserved
      · rename_i buf hw_buf
        split
        · rename_i cc
          by_cases hleft : s.w_len - cc ≠ 0
          · rw [if_pos hleft]
            have hserved : Served s { s with w_len := s.w_len - cc } :=
              ⟨rfl, rfl, rfl, rfl, hstate, fun hopen => hopen, rfl, fun _ => hblocked,
                hslot.header hstate⟩
            exact sound_served hsound hs hstate (balanced_served hserved hstate rfl rfl d.ledger) rfl
              hserved
          · rw [if_neg hleft]
            have hserved : Served s { s with
                S_BLOCKED := false
                w_len := s.w_len - cc
                w_buf := none } :=
              ⟨rfl, rfl, rfl, rfl, hstate, fun hopen => hopen, rfl, fun h => absurd rfl h,
                hslot.header hstate⟩
            refine sound_unblocked hsound hframes hs hstate ?_ (free_wrong _ _) hserved
            refine ⟨?_, free_subset _ _, ?_⟩
            · simp [free_next]
            · intro n
              simp only [lpc_socket_t.holds, lpc_socket_t.stored, count_free, free_next,
                if_neg hstate, hw_buf, held_none]
              omega
        · exact hsound
        · split_ifs
          · exact sound_give_up hsound hframes hs hstate
          · exact hsound
    · rwa [if_neg hblocked]

theorem sound_read_failed (hsound : Sound d) (hframes : d.frames = []) (fd : Nat) (s : lpc_socket_t)
    (r : result_t) : Sound (read_failed d fd s r) := by
  have hclose := sound_close_with_callback hsound hframes fd
  cases r with
  | ECONNREFUSED =>
    unfold read_failed
    split_ifs
    · exact hsound
    · exact hclose
  | EINTR => exact hsound
  | EWOULDBLOCK => exact hsound
  | done cc => exact hclose
  | failed => exact hclose

section

variable {i : Nat} {s s' : lpc_socket_t} {l : ledger}

theorem sound_message (hsound : Sound d) (hs : d.lpc_socks[i]? = some s) (hstate : s.state ≠ .CLOSED)
    (hbalanced : Balanced (s, d.ledger) (s', l)) (hwrong : l.wrong = d.ledger.wrong)
    (hserved : Served s s') (hopen : is_open s' = true) (restored : Bool) :
    Sound (if restored then
        call_callback
          (d.put i ({ s' with
            S_HEADER := true
            r_buf := none
            r_off := 0
            r_len := 0 }, l.free s'.r_buf))
          { s' with
            S_HEADER := true
            r_buf := none
            r_off := 0
            r_len := 0 } .S_READ_FP .plain
      else d.put i (s', l)) := by
  cases restored with
  | false => exact sound_served hsound hs hstate hbalanced hwrong hserved
  | true =>
    have hread : Served s { s' with
        S_HEADER := true
        r_buf := none
        r_off := 0
        r_len := 0 } := { hserved with header := fun _ => rfl }
    have hfree : Balanced (s', l) ({ s' with
        S_HEADER := true
        r_buf := none
        r_off := 0
        r_len := 0 }, l.free s'.r_buf) := by
      refine ⟨?_, free_subset _ _, ?_⟩
      · simp [free_next]
      · intro n
        simp only [lpc_socket_t.holds, lpc_socket_t.stored, count_free, free_next,
          if_neg hserved.state, held_none]
        omega
    have hput := sound_served hsound hs hstate (hbalanced.trans hfree)
      ((free_wrong _ _).trans hwrong) hread
    exact sound_put_call hs hput hopen .S_READ_FP

theorem sound_read_message (hsound : Sound d) (hframes : d.frames = [])
    (hs : d.lpc_socks[i]? = some s) (hstate : s.state ≠ .CLOSED)
    (hbalanced : Balanced (s, d.ledger) (s', l)) (hwrong : l.wrong = d.ledger.wrong)
    (hserved : Served s s') (hopen : is_open s' = true) (a : read_t) :
    Sound (read_message d i s' l a) := by
  simp only [read_message]
  split
  · split
    · rename_i cc hcc
      have hserved' : Served s { s' with r_off := s'.r_off + (cc + 1) } := { hserved with }
      have hbalanced' : Balanced (s, d.ledger) ({ s' with r_off := s'.r_off + (cc + 1) }, l) :=
        hbalanced.trans ⟨Nat.le_refl _, List.Subset.refl _, fun _ => rfl⟩
      split
      · exact sound_served hsound hs hstate hbalanced' hwrong hserved'
      · exact sound_message hsound hs hstate hbalanced' hwrong hserved' hopen a.restored
    · exact sound_read_failed (sound_served hsound hs hstate hbalanced hwrong hserved) hframes i s' _
  · exact sound_message hsound hs hstate hbalanced hwrong hserved hopen a.restored

end

theorem sound_read_mud (MAX_BYTE_TRANSFER : Int) (hsound : Sound d) (hframes : d.frames = [])
    {fd : Nat} {s : lpc_socket_t} (hs : d.lpc_socks[fd]? = some s) (hopen : is_open s = true)
    (a : read_t) :
    Sound (if s.S_HEADER then
      match a.header with
      | .done (cc + 1) =>
        let s := { s with r_off := s.r_off + (cc + 1) }
        if s.r_off < 4 then d.put fd (s, d.ledger)
        else
          let s := { s with
            S_HEADER := false
            r_off := 0
            r_len := a.len }
          if a.len ≤ 0 ∨ a.len > MAX_BYTE_TRANSFER then
            close_with_callback (d.put fd (s, d.ledger)) fd
          else
            read_message d fd { s with r_buf := some d.ledger.next }
              { d.ledger with next := d.ledger.next + 1 } a
      | r => read_failed d fd s r
    else read_message d fd s d.ledger a) := by
  have hstate := is_open_state hopen
  have hslot := hsound.slots fd s hs
  have hkept : Served s s :=
    ⟨rfl, rfl, rfl, rfl, hstate, fun hopen => hopen, rfl, hslot.blocked hstate, hslot.header hstate⟩
  by_cases hheader : s.S_HEADER = true
  · rw [if_pos hheader]
    have hr_buf := hslot.header hstate hheader
    split
    · rename_i cc _
      simp only
      split
      · have hserved : Served s { s with r_off := s.r_off + (cc + 1) } := { hkept with }
        exact sound_served hsound hs hstate (balanced_served hserved hstate rfl rfl d.ledger) rfl
          hserved
      · have hserved : Served s { s with
            S_HEADER := false
            r_off := 0
            r_len := a.len } := { hkept with header := fun h => by cases h }
        have hbalanced := balanced_served hserved hstate rfl rfl d.ledger
        split
        · exact sound_close_with_callback (sound_served hsound hs hstate hbalanced rfl hserved)
            hframes fd
        · have hread : Served s { s with
              S_HEADER := false
              r_buf := some d.ledger.next
              r_off := 0
              r_len := a.len } := { hserved with header := fun h => by cases h }
          refine sound_read_message hsound hframes hs hstate ?_ ?_ hread hopen a
          · refine ⟨Nat.le_succ _, List.Subset.refl _, ?_⟩
            intro n
            simp only [lpc_socket_t.holds, lpc_socket_t.stored, if_neg hstate, hr_buf, held_none,
              below_succ]
            omega
          · rfl
    · exact sound_read_failed hsound hframes fd s _
  · rw [if_neg hheader]
    exact sound_read_message hsound hframes hs hstate (Balanced.refl _) rfl hkept hopen a

theorem sound_socket_read_select_handler (MAX_BYTE_TRANSFER : Int) (hsound : Sound d)
    (hframes : d.frames = []) (fd : Nat) (a : read_t) :
    Sound (socket_read_select_handler MAX_BYTE_TRANSFER d fd a) := by
  have hclose := sound_close_with_callback hsound hframes fd
  unfold socket_read_select_handler
  split
  · exact hsound
  · rename_i s hs
    have hslot := hsound.slots fd s hs
    have hcall : is_open s = true → Sound (call_callback d s .S_READ_FP .plain) :=
      fun hopen => sound_call hsound hs hopen (sound_push_plain hsound)
    split
    · exact hsound
    · exact hsound
    · exact hclose
    · rename_i hbound _
      split
      · exact hcall (by rw [is_open, hbound]; rfl)
      · exact sound_read_failed hsound hframes fd s _
    · exact hclose
    · rename_i hlisten
      have hopen : is_open s = true := by
        rw [is_open, hlisten]
        rfl
      have hstate := is_open_state hopen
      have hserved : Served s { s with S_WACCEPT := true } :=
        ⟨rfl, rfl, rfl, rfl, hstate, fun hopen => hopen, rfl, hslot.blocked hstate,
          hslot.header hstate⟩
      exact sound_put_call hs (sound_served hsound hs hstate
        (balanced_served hserved hstate rfl rfl d.ledger) rfl hserved) hopen .S_READ_FP
    · exact hclose
    · rename_i hdata _
      split
      · exact hcall (by rw [is_open, hdata]; rfl)
      · exact sound_read_failed hsound hframes fd s _
    · rename_i hdata _
      have hopen : is_open s = true := by
        rw [is_open, hdata]
        rfl
      exact sound_read_mud MAX_BYTE_TRANSFER hsound hframes hs hopen a

/-! ## Objects -/

def Owns (d : driver) (ob i : Nat) : Prop :=
  ∃ s, d.lpc_socks[i]? = some s ∧ is_open s = true ∧ s.owner_ob = some ob

/-- The socket is not the object's, or its close callback is not running, or it has something left
to write. -/
def Undisturbed (d : driver) (ob i : Nat) : Prop :=
  ∀ s k, d.lpc_socks[i]? = some s → is_open s = true → s.owner_ob = some ob →
    .closing i k ∈ d.frames → s.S_BLOCKED = true

theorem shut_not_open (x : slot_t) : is_open (shut x).1 = false := by
  cases hblocked : x.1.S_BLOCKED with
  | true =>
    rw [shut_blocked hblocked]
    rfl
  | false =>
    rw [shut_unblocked hblocked]
    rfl

theorem sound_shut_owned (hsound : Sound d) {i : Nat} (hundisturbed : Undisturbed d ob i)
    {s : lpc_socket_t} (hs : d.lpc_socks[i]? = some s) (hopen : is_open s = true)
    (howner : s.owner_ob = some ob) : Sound (d.put i (shut (s, d.ledger))) :=
  sound_shut hsound hs (is_open_state hopen) fun k hframe => hundisturbed s k hs hopen howner hframe

theorem sound_socket_close (hsound : Sound d) {fd : Nat} (hundisturbed : Undisturbed d ob fd) :
    Sound (socket_close d ob fd) := by
  unfold socket_close
  split
  · exact hsound
  · rename_i s hs
    split_ifs with hopen
    · rw [modify_some hs]
      exact sound_shut_owned hsound hundisturbed hs hopen.1 hopen.2
    · exact hsound

def close_owned (ob : Nat) (d : driver) (i : Nat) : driver :=
  match d.lpc_socks[i]? with
  | none => d
  | some s => if s.owner_ob = some ob then close_forced d i else d

structure ShutFor (ob : Nat) (slots : List Nat) (d d' : driver) : Prop where
  sound : Sound d'
  frames : d'.frames = d.frames
  freed : d'.freed = d.freed
  owns : ∀ i, Owns d' ob i → Owns d ob i ∧ i ∉ slots
  same : ∀ (i : Nat) s, d'.lpc_socks[i]? = some s → is_open s = true → d.lpc_socks[i]? = some s

theorem ShutFor.undisturbed {slots : List Nat} {d' : driver} (h : ShutFor ob slots d d') {i : Nat}
    (hundisturbed : Undisturbed d ob i) : Undisturbed d' ob i := by
  intro s k hs hopen howner hframe
  rw [h.frames] at hframe
  exact hundisturbed s k (h.same i s hs hopen) hopen howner hframe

theorem shut_for_one (hsound : Sound d) {i : Nat} (hundisturbed : Undisturbed d ob i) :
    ShutFor ob [i] d (close_owned ob d i) := by
  have hidle : ¬ Owns d ob i → ShutFor ob [i] d d := by
    intro hnot
    refine ⟨hsound, rfl, rfl, ?_, fun _ _ hs _ => hs⟩
    intro j hj
    refine ⟨hj, ?_⟩
    rw [mem_singleton]
    rintro rfl
    exact hnot hj
  unfold close_owned
  split
  · rename_i hnone
    apply hidle
    rintro ⟨s, hs, -⟩
    simp [hnone] at hs
  · rename_i s hs
    have hsame : ∀ t, d.lpc_socks[i]? = some t → t = s := by
      intro t ht
      rw [hs, some.injEq] at ht
      exact ht.symm
    split_ifs with howner
    · unfold close_forced
      simp only [hs]
      split_ifs with hopen
      · rw [modify_some hs]
        have hkept : ∀ j t, (d.put i (shut (s, d.ledger))).lpc_socks[j]? = some t →
            is_open t = true → j ≠ i ∧ d.lpc_socks[j]? = some t := by
          intro j t ht hopen'
          have hj : i ≠ j := by
            rintro rfl
            rw [put_some hs, some.injEq] at ht
            simp [← ht, shut_not_open] at hopen'
          exact ⟨hj.symm, (getElem?_set_ne hj).symm.trans ht⟩
        refine ⟨sound_shut_owned hsound hundisturbed hs hopen howner, rfl, rfl, ?_, ?_⟩
        · rintro j ⟨t, ht, hopen', howner'⟩
          obtain ⟨hj, ht⟩ := hkept j t ht hopen'
          exact ⟨⟨t, ht, hopen', howner'⟩, by rwa [mem_singleton]⟩
        · exact fun j t ht hopen' => (hkept j t ht hopen').2
      · apply hidle
        rintro ⟨t, ht, hopen', -⟩
        rw [hsame t ht] at hopen'
        exact hopen hopen'
    · apply hidle
      rintro ⟨t, ht, -, howner'⟩
      rw [hsame t ht] at howner'
      exact howner howner'

theorem shut_for_all (hsound : Sound d) (hundisturbed : ∀ i, Undisturbed d ob i) (slots : List Nat) :
    ShutFor ob slots d (slots.foldl (close_owned ob) d) := by
  induction slots generalizing d with
  | nil => exact ⟨hsound, rfl, rfl, fun i hi => ⟨hi, not_mem_nil⟩, fun _ _ hs _ => hs⟩
  | cons i slots ih =>
    have hone := shut_for_one hsound (hundisturbed i)
    have hrest := ih hone.sound fun j => hone.undisturbed (hundisturbed j)
    refine ⟨hrest.sound, hrest.frames.trans hone.frames, hrest.freed.trans hone.freed, ?_, ?_⟩
    · intro j hj
      obtain ⟨hj, hslots⟩ := hrest.owns j hj
      obtain ⟨hj, hi⟩ := hone.owns j hj
      rw [mem_singleton] at hi
      exact ⟨hj, not_mem_cons_of_ne_of_not_mem hi hslots⟩
    · exact fun j s hs hopen => hone.same j s (hrest.same j s hs hopen) hopen

theorem sound_close_referencing_sockets (hsound : Sound d) (hundisturbed : ∀ i, Undisturbed d ob i) :
    Sound (close_referencing_sockets d ob) :=
  (shut_for_all hsound hundisturbed _).sound

theorem owns_nothing (hsound : Sound d) (hundisturbed : ∀ i, Undisturbed d ob i) (i : Nat) :
    ¬ Owns (close_referencing_sockets d ob) ob i := by
  intro howns
  obtain ⟨⟨s, hs, -⟩, hnot⟩ := (shut_for_all hsound hundisturbed _).owns i howns
  exact hnot (mem_range.mpr (List.getElem?_eq_some_iff.mp hs).1)

theorem sound_objects (hsound : Sound d) {freed destructed O_EFUN_SOCKET : Nat → Bool}
    (howner : ∀ ob i, Owns d ob i → d.freed ob = false → freed ob = false) :
    Sound { d with
      freed
      destructed
      O_EFUN_SOCKET } := by
  refine { hsound with slots := ?_ }
  intro i s hs
  have hslot := hsound.slots i s hs
  refine { hslot with owner := ?_ }
  intro hopen
  obtain ⟨ob, hob, hfreed⟩ := hslot.owner hopen
  exact ⟨ob, hob, howner ob i ⟨s, hs, hopen, hob⟩ hfreed⟩

/-! ## Runs -/

/-- No socket is shut in its own close callback, what is released goes to an object, and an object
that is freed has the flag when it has sockets. -/
def Meets (d : driver) : action → Prop
  | .efun current_object (.close fd) => Undisturbed d current_object fd
  | .efun current_object (.release fd ob) =>
    ob = none → ∀ s, d.lpc_socks[fd]? = some s → is_open s = true →
      s.owner_ob = some current_object → s.S_RELEASE = true
  | .destruct ob => d.O_EFUN_SOCKET ob = true → ∀ i, Undisturbed d ob i
  | .dealloc ob =>
    (d.O_EFUN_SOCKET ob = true → ∀ i, Undisturbed d ob i) ∧
      (d.O_EFUN_SOCKET ob = false → ∀ i, ¬ Owns d ob i)
  | _ => True

theorem sound_efun (hsound : Sound d) (hfreed : d.freed ob = false) {a : efun_t}
    (hmeets : Meets d (.efun ob a)) : Sound (efun d ob a) := by
  cases a with
  | create a => exact sound_socket_create hsound hfreed a
  | bind fd ok => exact sound_socket_bind hsound ob fd ok
  | listen fd callback ok => exact sound_socket_listen hsound ob fd callback ok
  | accept fd r w accepted => exact sound_socket_accept hsound hfreed fd r w accepted
  | connect fd r w ok => exact sound_socket_connect hsound ob fd r w ok
  | write fd rest => exact sound_socket_write hsound ob fd rest
  | close fd => exact sound_socket_close hsound hmeets
  | release fd target => exact sound_socket_release hsound ob fd hmeets
  | acquire fd r w c => exact sound_socket_acquire hsound hfreed fd r w c

theorem sound_step (MAX_BYTE_TRANSFER : Int) (hsound : Sound d) {a : action} (hmeets : Meets d a) :
    Sound (step MAX_BYTE_TRANSFER d a) := by
  have hpolls : ∀ fd, polls d fd = true → d.frames = [] ∧
      ∀ s, d.lpc_socks[fd]? = some s → s.state ≠ .CLOSED := by
    intro fd h
    rw [polls, Bool.and_eq_true, List.isEmpty_iff] at h
    refine ⟨h.1, ?_⟩
    intro s hs
    have hany := h.2
    rw [hs, any_some] at hany
    exact of_decide_eq_true hany
  cases a with
  | efun ob a =>
    simp only [step]
    split_ifs with hfreed
    · exact hsound
    · exact sound_efun hsound (Bool.eq_false_iff.mpr hfreed) hmeets
  | ret =>
    simp only [step]
    split
    · exact hsound
    · rename_i f frames hframes
      exact sound_resume hsound hframes
  | readable fd a =>
    simp only [step]
    split_ifs with h
    · exact sound_socket_read_select_handler _ hsound (hpolls fd h).1 fd a
    · exact hsound
  | writable fd written =>
    simp only [step]
    split_ifs with h
    · exact sound_socket_write_select_handler hsound (hpolls fd h).1 (hpolls fd h).2 written
    · exact hsound
  | new_object ob =>
    simp only [step]
    split_ifs
    · refine sound_objects hsound ?_
      intro o _ _ hfreed
      simp [hfreed]
    · exact hsound
  | destruct ob =>
    simp only [step]
    split_ifs with hgone hflag
    · exact hsound
    · exact sound_objects (sound_close_referencing_sockets hsound (hmeets hflag))
        fun _ _ _ hfreed => hfreed
    · exact sound_objects hsound fun _ _ _ hfreed => hfreed
  | dealloc ob =>
    have hkept : ∀ {d : driver}, (∀ i, ¬ Owns d ob i) → ∀ o i, Owns d o i → d.freed o = false →
        (if o = ob then true else d.freed o) = false := by
      intro d hnone o i howns hfreed
      rw [if_neg, hfreed]
      rintro rfl
      exact hnone i howns
    simp only [step]
    split_ifs with hgone hflag
    · exact sound_objects (sound_close_referencing_sockets hsound (hmeets.1 hflag))
        (hkept (owns_nothing hsound (hmeets.1 hflag)))
    · exact sound_objects hsound (hkept (hmeets.2 (Bool.eq_false_iff.mpr hflag)))
    · exact hsound

inductive Reached (MAX_BYTE_TRANSFER : Int) : driver → Prop
  | start : Reached MAX_BYTE_TRANSFER start
  | step {d : driver} (a : action) (hd : Reached MAX_BYTE_TRANSFER d) (hmeets : Meets d a) :
    Reached MAX_BYTE_TRANSFER (step MAX_BYTE_TRANSFER d a)

theorem sound_start : Sound start where
  ledger _ := rfl
  right := rfl
  slots i s hs := by cases hs
  closing i k h := by cases h
  once := Nat.zero_le _
  no_dangling := rfl
  no_misdirected := rfl

theorem reached_sound {MAX_BYTE_TRANSFER : Int} (h : Reached MAX_BYTE_TRANSFER d) : Sound d := by
  induction h with
  | start => exact sound_start
  | step a _ hmeets ih => exact sound_step MAX_BYTE_TRANSFER ih hmeets

theorem held_not_released (hsound : Sound d) {i n : Nat} {s : lpc_socket_t}
    (hs : d.lpc_socks[i]? = some s) (hholds : 0 < s.holds n) : n ∉ d.ledger.released := by
  have hledger := hsound.ledger n
  have htotal := total_set hs new_slot n
  have hbelow : below n d.ledger.next ≤ 1 := by
    unfold below
    split_ifs <;> omega
  rw [new_slot_holds] at htotal
  apply count_eq_zero.mp
  omega

theorem closed_iff_no_descriptor (hsound : Sound d) {i : Nat} {s : lpc_socket_t}
    (hs : d.lpc_socks[i]? = some s) :
    s.state = .CLOSED ↔ ∀ k, s.fd = some k → k ∈ d.ledger.released := by
  have hslot := hsound.slots i s hs
  refine ⟨hslot.closed, ?_⟩
  intro hreleased
  by_contra hstate
  obtain ⟨k, hk⟩ := ne_none_iff_exists'.mp (hslot.opened hstate)
  refine held_not_released hsound hs ?_ (hreleased k hk)
  simp only [lpc_socket_t.holds, if_neg hstate, held, hk, if_true]
  omega

def run (MAX_BYTE_TRANSFER : Int) (actions : List action) : driver :=
  actions.foldl (step MAX_BYTE_TRANSFER) start

def AllMeet (MAX_BYTE_TRANSFER : Int) (d : driver) : List action → Prop
  | [] => True
  | a :: rest => Meets d a ∧ AllMeet MAX_BYTE_TRANSFER (step MAX_BYTE_TRANSFER d a) rest

theorem reached_actions {MAX_BYTE_TRANSFER : Int} (hd : Reached MAX_BYTE_TRANSFER d)
    {actions : List action} (hmeet : AllMeet MAX_BYTE_TRANSFER d actions) :
    Reached MAX_BYTE_TRANSFER (actions.foldl (step MAX_BYTE_TRANSFER) d) := by
  induction actions generalizing d with
  | nil => exact hd
  | cons a rest ih => exact ih (.step a hd hmeet.1) hmeet.2

/-- An object with a socket that is connected and can be written to. -/
def connected (ob : Nat) : List action :=
  [.new_object ob,
    .efun ob (.create
      { mode := .STREAM
        binary := false
        read_callback := some false
        close_callback := some false
        ok := true }),
    .efun ob (.connect 0 false false true), .writable 0 (.done 0), .ret]

def hangup : action :=
  .readable 0
    { header := .done 0
      len := 0
      message := .done 0
      restored := true }

end mudos.socket_table
