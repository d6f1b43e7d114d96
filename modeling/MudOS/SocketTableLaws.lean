-- What is opened or stored in the table of sockets is released once, and callbacks run in
-- objects that are there, if no socket is closed again in its own close callback.
import MudOS.SocketTable

open List Option

namespace mudos.socket_table

variable {i : Nat} {s : lpc_socket_t} {x y : slot_t} {what : what_t} {freed : Nat → Bool}
  {frames : List frame}

/-! ## What a slot holds -/

def below (n k : Nat) : Nat := if n < k then 1 else 0

def held (o : Option Nat) (n : Nat) : Nat := if o = some n then 1 else 0

def lpc_socket_t.stored (s : lpc_socket_t) (what : what_t) (n : Nat) : Nat :=
  held ((s.callback what).map callback_t.id) n

def lpc_socket_t.holds (s : lpc_socket_t) (n : Nat) : Nat :=
  s.stored .S_READ_FP n + s.stored .S_WRITE_FP n + s.stored .S_CLOSE_FP n +
    if s.state = .CLOSED then 0 else held s.fd n + held s.r_buf n + held s.w_buf n

def total : List lpc_socket_t → Nat → Nat
  | [], _ => 0
  | s :: rest, n => s.holds n + total rest n

theorem held_none (n : Nat) : held none n = 0 := rfl

theorem below_succ (n k : Nat) : below n (k + 1) = below n k + held (some k) n := by
  simp only [below, held, some.injEq]
  split_ifs <;> omega

theorem total_set {l : List lpc_socket_t} (hs : l[i]? = some s) (s' : lpc_socket_t) (n : Nat) :
    total (l.set i s') n + s.holds n = total l n + s'.holds n := by
  induction l generalizing i with
  | nil => cases hs
  | cons t l ih =>
    cases i with
    | zero =>
      cases getElem?_cons_zero.symm.trans hs
      simp only [set_cons_zero, total]
      omega
    | succ i =>
      rw [getElem?_cons_succ] at hs
      have hrest := ih hs
      simp only [set_cons_succ, total]
      omega

theorem total_append (l l' : List lpc_socket_t) (n : Nat) :
    total (l ++ l') n = total l n + total l' n := by
  induction l with
  | nil => exact (Nat.zero_add _).symm
  | cons s l ih =>
    rw [cons_append, total, total, ih, Nat.add_assoc]

/-! ## Balance -/

/-- What has been given is held or has been released as before, and what is new is held. -/
structure Balanced (x y : slot_t) : Prop where
  next : x.2.next ≤ y.2.next
  released : x.2.released ⊆ y.2.released
  count : ∀ n, y.2.released.count n + y.1.holds n + below n x.2.next =
    x.2.released.count n + x.1.holds n + below n y.2.next

theorem Balanced.refl (x : slot_t) : Balanced x x := ⟨Nat.le_refl _, List.Subset.refl _, fun _ => rfl⟩

theorem Balanced.trans {z : slot_t} (h : Balanced x y) (h' : Balanced y z) : Balanced x z := by
  refine ⟨Nat.le_trans h.next h'.next, List.Subset.trans h.released h'.released, ?_⟩
  intro n
  have hxy := h.count n
  have hyz := h'.count n
  omega

theorem count_free (l : ledger) (o : Option Nat) (n : Nat) :
    (l.free o).released.count n = l.released.count n + held o n := by
  cases o with
  | none => rfl
  | some m =>
    simp [ledger.free, held, count_cons]

theorem free_next (l : ledger) (o : Option Nat) : (l.free o).next = l.next := by cases o <;> rfl

theorem free_wrong (l : ledger) (o : Option Nat) : (l.free o).wrong = l.wrong := by cases o <;> rfl

theorem free_subset (l : ledger) (o : Option Nat) : l.released ⊆ (l.free o).released := by
  cases o with
  | none => exact List.Subset.refl _
  | some m => exact subset_cons_self m l.released

theorem mem_free (l : ledger) (n : Nat) : n ∈ (l.free (some n)).released := mem_cons_self

/-! ## Callbacks -/

@[simp] theorem set_self {α : Type} (f : what_t → α) (what : what_t) (a : α) :
    set f what a what = a := if_pos rfl

@[simp] theorem set_other {α : Type} (f : what_t → α) {w : what_t} (a : α) (h : w ≠ what) :
    set f what a w = f w := if_neg h

def Tagged (s : lpc_socket_t) : Prop :=
  ∀ w, s.S_FP w = (s.callback w).any callback_t.funp

theorem free_callback_released (what : what_t) (x : slot_t) :
    (free_callback what x).released =
      (x.2.free ((x.1.callback what).map callback_t.id)).released := by
  unfold free_callback
  split <;> simp_all [ledger.free]

theorem free_callback_next (what : what_t) (x : slot_t) :
    (free_callback what x).next = x.2.next := by
  unfold free_callback
  split <;> simp [ledger.free]

theorem free_callback_wrong (htagged : Tagged x.1) : (free_callback what x).wrong = x.2.wrong := by
  have htag := htagged what
  unfold free_callback
  split <;> simp_all

structure Alike (s s' : lpc_socket_t) : Prop where
  fd : s'.fd = s.fd
  release : s'.S_RELEASE = s.S_RELEASE
  blocked : s'.S_BLOCKED = s.S_BLOCKED
  header : s'.S_HEADER = s.S_HEADER
  state : s'.state = s.state
  owner : s'.owner_ob = s.owner_ob
  r_buf : s'.r_buf = s.r_buf
  w_buf : s'.w_buf = s.w_buf

theorem Alike.trans {t u : lpc_socket_t} (h : Alike s t) (h' : Alike t u) : Alike s u :=
  ⟨h'.fd.trans h.fd, h'.release.trans h.release, h'.blocked.trans h.blocked,
    h'.header.trans h.header, h'.state.trans h.state, h'.owner.trans h.owner,
    h'.r_buf.trans h.r_buf, h'.w_buf.trans h.w_buf⟩

structure Replaced (what : what_t) (x y : slot_t) : Prop where
  alike : Alike x.1 y.1
  others : ∀ w, w ≠ what → y.1.callback w = x.1.callback w ∧ y.1.S_FP w = x.1.S_FP w
  released : y.2.released = (free_callback what x).released
  stored : ∀ n, y.1.stored what n + below n x.2.next = below n y.2.next
  next : x.2.next ≤ y.2.next
  wrong : y.2.wrong = (free_callback what x).wrong

theorem replaced_set_callback (what : what_t) (cb : Option Bool) (x : slot_t) :
    Replaced what x (set_callback what cb x) := by
  cases cb with
  | none =>
    refine ⟨⟨rfl, rfl, rfl, rfl, rfl, rfl, rfl, rfl⟩, ?_, rfl, ?_, ?_, rfl⟩
    · intro w hw
      exact ⟨set_other _ _ hw, set_other _ _ hw⟩
    · intro n
      simp [set_callback, lpc_socket_t.stored, free_callback_next, held]
    · simp [set_callback, free_callback_next]
  | some funp =>
    refine ⟨⟨rfl, rfl, rfl, rfl, rfl, rfl, rfl, rfl⟩, ?_, rfl, ?_, ?_, rfl⟩
    · intro w hw
      exact ⟨set_other _ _ hw, set_other _ _ hw⟩
    · intro n
      simp only [set_callback, lpc_socket_t.stored, free_callback_next, set_self, map_some,
        below_succ]
      omega
    · simp [set_callback, free_callback_next]

theorem replaced_copy_close_callback («from» : lpc_socket_t) (x : slot_t) :
    Replaced .S_CLOSE_FP x (copy_close_callback «from» x) := by
  unfold copy_close_callback
  cases «from».callback .S_CLOSE_FP with
  | none =>
    refine ⟨⟨rfl, rfl, rfl, rfl, rfl, rfl, rfl, rfl⟩, ?_, rfl, ?_, ?_, rfl⟩
    · intro w hw
      exact ⟨set_other _ _ hw, set_other _ _ hw⟩
    · intro n
      simp [lpc_socket_t.stored, free_callback_next, held]
    · simp [free_callback_next]
  | some c =>
    refine ⟨⟨rfl, rfl, rfl, rfl, rfl, rfl, rfl, rfl⟩, ?_, rfl, ?_, ?_, rfl⟩
    · intro w hw
      exact ⟨set_other _ _ hw, set_other _ _ hw⟩
    · intro n
      simp only [lpc_socket_t.stored, free_callback_next, set_self, map_some, below_succ]
      omega
    · simp [free_callback_next]

theorem Replaced.balanced (h : Replaced what x y) : Balanced x y := by
  refine ⟨h.next, ?_, ?_⟩
  · rw [h.released, free_callback_released]
    exact free_subset _ _
  · intro n
    have hstored := h.stored n
    have hsame : ∀ w, w ≠ what → y.1.stored w n = x.1.stored w n := by
      intro w hw
      rw [lpc_socket_t.stored, lpc_socket_t.stored, (h.others w hw).1]
    have hfreed : x.1.stored what n = held ((x.1.callback what).map callback_t.id) n := rfl
    rw [h.released, free_callback_released, count_free, ← hfreed]
    unfold lpc_socket_t.holds
    rw [h.alike.state, h.alike.fd, h.alike.r_buf, h.alike.w_buf]
    cases what with
    | S_READ_FP =>
      rw [hsame .S_WRITE_FP (by decide), hsame .S_CLOSE_FP (by decide)]
      omega
    | S_WRITE_FP =>
      rw [hsame .S_READ_FP (by decide), hsame .S_CLOSE_FP (by decide)]
      omega
    | S_CLOSE_FP =>
      rw [hsame .S_READ_FP (by decide), hsame .S_WRITE_FP (by decide)]
      omega

structure Recalled (x y : slot_t) : Prop where
  balanced : Balanced x y
  alike : Alike x.1 y.1
  tagged : Tagged x.1 → Tagged y.1
  wrong : Tagged x.1 → y.2.wrong = x.2.wrong

theorem Recalled.trans {z : slot_t} (h : Recalled x y) (h' : Recalled y z) : Recalled x z :=
  ⟨h.balanced.trans h'.balanced, h.alike.trans h'.alike, fun ht => h'.tagged (h.tagged ht),
    fun ht => (h'.wrong (h.tagged ht)).trans (h.wrong ht)⟩

theorem Replaced.recalled (h : Replaced what x y)
    (htag : y.1.S_FP what = (y.1.callback what).any callback_t.funp) : Recalled x y := by
  refine ⟨h.balanced, h.alike, ?_, fun ht => h.wrong.trans (free_callback_wrong ht)⟩
  intro htagged w
  by_cases hw : w = what
  · subst hw
    exact htag
  · rw [(h.others w hw).1, (h.others w hw).2]
    exact htagged w

theorem recalled_set_callback (what : what_t) (cb : Option Bool) (x : slot_t) :
    Recalled x (set_callback what cb x) := by
  refine (replaced_set_callback what cb x).recalled ?_
  cases cb <;> simp [set_callback]

theorem recalled_copy_close_callback {«from» : lpc_socket_t} (hfrom : Tagged «from») (x : slot_t) :
    Recalled x (copy_close_callback «from» x) := by
  refine (replaced_copy_close_callback «from» x).recalled ?_
  have htag := hfrom .S_CLOSE_FP
  unfold copy_close_callback
  cases hcallback : «from».callback .S_CLOSE_FP <;> simp_all

theorem recalled_no_callbacks (x : slot_t) : Recalled x (no_callbacks x) :=
  ((recalled_set_callback .S_READ_FP none x).trans
    (recalled_set_callback .S_WRITE_FP none _)).trans (recalled_set_callback .S_CLOSE_FP none _)

theorem no_callbacks_none (x : slot_t) (w : what_t) : (no_callbacks x).1.callback w = none := by
  cases w <;> rfl

/-! ## Slots -/

/-- The descriptor of the socket that is being released, in the last such callback for the slot. -/
def releasing (fd : Nat) : List frame → Option Nat
  | [] => none
  | .releasing fd' descriptor :: rest => if fd' = fd then some descriptor else releasing fd rest
  | .plain :: rest => releasing fd rest
  | .closing _ _ :: rest => releasing fd rest

/-- What holds of a slot, with so much released, so many objects freed and these callbacks running. -/
structure SlotSound (released : List Nat) (freed : Nat → Bool) (frames : List frame) (i : Nat)
    (s : lpc_socket_t) : Prop where
  tagged : Tagged s
  opened : s.state ≠ .CLOSED → s.fd ≠ none
  closed : s.state = .CLOSED → ∀ n, s.fd = some n → n ∈ released
  blocked : s.state ≠ .CLOSED → s.w_buf ≠ none → s.S_BLOCKED = true
  header : s.state ≠ .CLOSED → s.S_HEADER = true → s.r_buf = none
  owner : is_open s = true → ∃ ob, s.owner_ob = some ob ∧ freed ob = false
  release : s.S_RELEASE = true → ∃ k, s.fd = some k ∧ releasing i frames = some k

def closes : frame → Bool
  | .closing _ _ => true
  | _ => false

structure Sound (d : driver) : Prop where
  ledger : ∀ n, d.ledger.released.count n + total d.lpc_socks n = below n d.ledger.next
  right : d.ledger.wrong = false
  slots : ∀ i s, d.lpc_socks[i]? = some s →
    SlotSound d.ledger.released d.freed d.frames i s
  closing : ∀ i k, .closing i k ∈ d.frames →
    ∃ s, d.lpc_socks[i]? = some s ∧ s.state ≠ .CLOSED ∧ s.fd = some k
  once : d.frames.countP closes ≤ 1
  no_dangling : d.dangling = false
  no_misdirected : d.misdirected = false

theorem SlotSound.mono {released released' : List Nat} (h : SlotSound released freed frames i s)
    (hgrow : released ⊆ released') : SlotSound released' freed frames i s :=
  { h with closed := fun hs n hn => hgrow (h.closed hs n hn) }

theorem SlotSound.alike {released released' : List Nat} {s' : lpc_socket_t}
    (h : SlotSound released freed frames i s) (halike : Alike s s') (htagged : Tagged s')
    (hgrow : released ⊆ released') : SlotSound released' freed frames i s' := by
  obtain ⟨hfd, hrelease, hblocked, hheader, hstate, howner, hr_buf, hw_buf⟩ := halike
  constructor
  · exact htagged
  · rw [hstate, hfd]
    exact h.opened
  · rw [hstate, hfd]
    exact fun hs n hn => hgrow (h.closed hs n hn)
  · rw [hstate, hw_buf, hblocked]
    exact h.blocked
  · rw [hstate, hheader, hr_buf]
    exact h.header
  · rw [is_open, hstate, howner]
    exact h.owner
  · rw [hrelease, hfd]
    exact h.release

variable {d : driver}

theorem sound_put (hsound : Sound d) (hs : d.lpc_socks[i]? = some s)
    (hbalanced : Balanced (s, d.ledger) x) (hright : x.2.wrong = false)
    (hslot : SlotSound x.2.released d.freed d.frames i x.1)
    (hclosing : ∀ k, .closing i k ∈ d.frames → x.1.state ≠ .CLOSED ∧ x.1.fd = s.fd) :
    Sound (d.put i x) := by
  have hi : i < d.lpc_socks.length := (List.getElem?_eq_some_iff.mp hs).1
  refine { hsound with ledger := ?_, right := hright, slots := ?_, closing := ?_ }
  · intro n
    have hbefore := hsound.ledger n
    have hcount := hbalanced.count n
    have htotal := total_set hs x.1 n
    simp only [driver.put] at *
    omega
  · intro j t ht
    simp only [driver.put] at ht ⊢
    by_cases hj : i = j
    · subst hj
      cases (getElem?_set_self hi).symm.trans ht
      exact hslot
    · rw [getElem?_set_ne hj] at ht
      exact (hsound.slots j t ht).mono hbalanced.released
  · intro j k hframe
    obtain ⟨t, ht, hstate, hfd⟩ := hsound.closing j k hframe
    by_cases hj : i = j
    · subst hj
      cases hs.symm.trans ht
      exact ⟨x.1, getElem?_set_self hi, (hclosing k hframe).1, (hclosing k hframe).2.trans hfd⟩
    · exact ⟨t, (getElem?_set_ne hj).trans ht, hstate, hfd⟩

theorem sound_recalled (hsound : Sound d) (hs : d.lpc_socks[i]? = some s)
    (hrecalled : Recalled (s, d.ledger) x) : Sound (d.put i x) := by
  have hslot := hsound.slots i s hs
  refine sound_put hsound hs hrecalled.balanced ?_ ?_ ?_
  · exact (hrecalled.wrong hslot.tagged).trans hsound.right
  · exact hslot.alike hrecalled.alike (hrecalled.tagged hslot.tagged) hrecalled.balanced.released
  · intro k hframe
    obtain ⟨t, ht, hstate, -⟩ := hsound.closing i k hframe
    cases hs.symm.trans ht
    exact ⟨by rw [hrecalled.alike.state]; exact hstate, hrecalled.alike.fd⟩

/-! ## Closing -/

theorem balanced_closed (hstate : s.state ≠ .CLOSED) (l : ledger) :
    Balanced (s, l) ({ s with state := .CLOSED }, ((l.free s.fd).free s.r_buf).free s.w_buf) := by
  refine ⟨?_, ?_, ?_⟩
  · simp only [free_next]
    exact Nat.le_refl _
  · exact List.Subset.trans (free_subset _ _) (List.Subset.trans (free_subset _ _) (free_subset _ _))
  · intro n
    simp only [count_free, free_next, lpc_socket_t.holds, lpc_socket_t.stored, if_true,
      if_neg hstate]
    omega

theorem shut_blocked (h : x.1.S_BLOCKED = true) :
    shut x = ({ (no_callbacks x).1 with state := .FLUSHING }, (no_callbacks x).2) := by
  have hblocked : (no_callbacks x).1.S_BLOCKED = true :=
    (recalled_no_callbacks x).alike.blocked.trans h
  unfold shut
  simp [hblocked]

theorem shut_unblocked (h : x.1.S_BLOCKED = false) :
    shut x = ({ (no_callbacks x).1 with state := .CLOSED },
      (((no_callbacks x).2.free (no_callbacks x).1.fd).free (no_callbacks x).1.r_buf).free
        (no_callbacks x).1.w_buf) := by
  have hblocked : (no_callbacks x).1.S_BLOCKED = false :=
    (recalled_no_callbacks x).alike.blocked.trans h
  unfold shut
  simp [hblocked]

theorem balanced_shut (hstate : x.1.state ≠ .CLOSED) : Balanced x (shut x) := by
  have hrecalled := recalled_no_callbacks x
  have hopen : (no_callbacks x).1.state ≠ .CLOSED := by
    rwa [hrecalled.alike.state]
  cases hblocked : x.1.S_BLOCKED with
  | true =>
    rw [shut_blocked hblocked]
    refine hrecalled.balanced.trans ⟨Nat.le_refl _, List.Subset.refl _, ?_⟩
    intro n
    simp [lpc_socket_t.holds, lpc_socket_t.stored, if_neg hopen, reduceCtorEq]
  | false =>
    rw [shut_unblocked hblocked]
    exact hrecalled.balanced.trans (balanced_closed hopen _)

theorem shut_sound_unblocked (hblocked : x.1.S_BLOCKED = false) (htagged : Tagged x.1)
    (hrelease : x.1.S_RELEASE = true → ∃ k, x.1.fd = some k ∧ releasing i frames = some k) :
    SlotSound (shut x).2.released freed frames i (shut x).1 := by
  have hrecalled := recalled_no_callbacks x
  rw [shut_unblocked hblocked]
  constructor
  · exact hrecalled.tagged htagged
  · exact fun hopen => absurd rfl hopen
  · intro _ n hn
    apply free_subset
    apply free_subset
    rw [show (no_callbacks x).1.fd = some n from hn]
    exact mem_free _ n
  · exact fun hopen => absurd rfl hopen
  · exact fun hopen => absurd rfl hopen
  · exact fun hopen => by cases hopen
  · intro h
    obtain ⟨k, hfd, hk⟩ := hrelease (hrecalled.alike.release.symm.trans h)
    exact ⟨k, hrecalled.alike.fd.trans hfd, hk⟩

theorem shut_sound (hstate : x.1.state ≠ .CLOSED) (h : SlotSound x.2.released freed frames i x.1) :
    SlotSound (shut x).2.released freed frames i (shut x).1 := by
  cases hblocked : x.1.S_BLOCKED with
  | false => exact shut_sound_unblocked hblocked h.tagged h.release
  | true =>
    have hrecalled := recalled_no_callbacks x
    have hslot : SlotSound (no_callbacks x).2.released freed frames i (no_callbacks x).1 :=
      h.alike hrecalled.alike (hrecalled.tagged h.tagged) hrecalled.balanced.released
    have hopen : (no_callbacks x).1.state ≠ .CLOSED := by
      rwa [hrecalled.alike.state]
    rw [shut_blocked hblocked]
    exact { hslot with
      opened := fun _ => hslot.opened hopen
      closed := fun hclosed => by cases hclosed
      blocked := fun _ => hslot.blocked hopen
      header := fun _ => hslot.header hopen
      owner := fun hopen => by cases hopen }

theorem shut_wrong (htagged : Tagged x.1) : (shut x).2.wrong = x.2.wrong := by
  have hwrong := (recalled_no_callbacks x).wrong htagged
  cases hblocked : x.1.S_BLOCKED with
  | true => rw [shut_blocked hblocked, hwrong]
  | false =>
    rw [shut_unblocked hblocked]
    simp [free_wrong, hwrong]

theorem sound_shut (hsound : Sound d) (hs : d.lpc_socks[i]? = some s) (hstate : s.state ≠ .CLOSED)
    (hmeets : ∀ k, .closing i k ∈ d.frames → s.S_BLOCKED = true) :
    Sound (d.put i (shut (s, d.ledger))) := by
  have hslot := hsound.slots i s hs
  refine sound_put hsound hs (balanced_shut hstate) ?_ (shut_sound hstate hslot) ?_
  · rw [shut_wrong hslot.tagged]
    exact hsound.right
  · intro k hframe
    rw [shut_blocked (hmeets k hframe)]
    exact ⟨by simp, (recalled_no_callbacks (s, d.ledger)).alike.fd⟩

theorem is_open_state (h : is_open s = true) : s.state ≠ .CLOSED := by
  simp only [is_open, Bool.and_eq_true, decide_eq_true_eq] at h
  exact h.1

/-! ## Callbacks that run -/

theorem sound_frames (hsound : Sound d) {frames : List frame}
    (hreleasing : ∀ i s, d.lpc_socks[i]? = some s → s.S_RELEASE = true →
      releasing i frames = releasing i d.frames)
    (hclosing : ∀ i k, .closing i k ∈ frames →
      ∃ s, d.lpc_socks[i]? = some s ∧ s.state ≠ .CLOSED ∧ s.fd = some k)
    (honce : frames.countP closes ≤ 1) : Sound { d with frames } := by
  refine { hsound with slots := ?_, closing := hclosing, once := honce }
  intro i s hs
  have hslot := hsound.slots i s hs
  refine { hslot with release := ?_ }
  intro hrelease
  rw [hreleasing i s hs hrelease]
  exact hslot.release hrelease

theorem sound_push_plain (hsound : Sound d) : Sound { d with frames := .plain :: d.frames } := by
  refine sound_frames hsound (fun _ _ _ _ => rfl) ?_ ?_
  · intro i k hframe
    rcases mem_cons.mp hframe with h | hframe
    · cases h
    · exact hsound.closing i k hframe
  · rw [countP_cons_of_neg (by decide)]
    exact hsound.once

theorem sound_push_closing (hsound : Sound d) (hframes : d.frames = [])
    (hs : d.lpc_socks[i]? = some s) (hstate : s.state ≠ .CLOSED) :
    Sound { d with frames := .closing i (s.fd.getD 0) :: d.frames } := by
  refine sound_frames hsound (fun _ _ _ _ => rfl) ?_ ?_
  · intro j k hframe
    rw [hframes, mem_singleton, frame.closing.injEq] at hframe
    obtain ⟨rfl, rfl⟩ := hframe
    obtain ⟨k, hk⟩ := ne_none_iff_exists'.mp ((hsound.slots j s hs).opened hstate)
    exact ⟨s, hs, hstate, by rw [hk]; rfl⟩
  · rw [hframes]
    exact Nat.le_refl _

theorem sound_unrelease (hsound : Sound d) (hs : d.lpc_socks[i]? = some s) :
    Sound (d.put i ({ s with
      S_RELEASE := false
      release_ob := none }, d.ledger)) := by
  have hslot := hsound.slots i s hs
  refine sound_put hsound hs ⟨Nat.le_refl _, List.Subset.refl _, fun _ => rfl⟩ hsound.right ?_ ?_
  · exact { hslot with release := fun h => by cases h }
  · intro k hframe
    obtain ⟨t, ht, hstate, -⟩ := hsound.closing i k hframe
    cases hs.symm.trans ht
    exact ⟨hstate, rfl⟩

theorem sound_resume (hsound : Sound d) {f : frame} (hframes : d.frames = f :: frames) :
    Sound (resume { d with frames } f) := by
  have hmem : ∀ g ∈ frames, g ∈ d.frames := by
    intro g hg
    rw [hframes]
    exact mem_cons_of_mem f hg
  have hclosing : ∀ i k, .closing i k ∈ frames →
      ∃ s, d.lpc_socks[i]? = some s ∧ s.state ≠ .CLOSED ∧ s.fd = some k :=
    fun i k hframe => hsound.closing i k (hmem _ hframe)
  have honce := hsound.once
  rw [hframes] at honce
  cases f with
  | plain =>
    rw [countP_cons_of_neg (by decide)] at honce
    refine sound_frames hsound (fun i _ _ _ => ?_) hclosing honce
    rw [hframes]
    rfl
  | closing i k =>
    rw [countP_cons_of_pos (by rfl)] at honce
    have hnone : ∀ j k', .closing j k' ∉ frames := by
      intro j k' hframe
      have hpos : 0 < frames.countP closes := countP_pos_iff.mpr ⟨_, hframe, rfl⟩
      omega
    have hpopped : Sound { d with frames } := by
      refine sound_frames hsound (fun j _ _ _ => ?_) hclosing (by omega)
      rw [hframes]
      rfl
    obtain ⟨s, hs, hstate, hfd⟩ :=
      hsound.closing i k (by rw [hframes]; exact mem_cons_self)
    have hshut := sound_shut hpopped hs hstate fun k' hframe => absurd hframe (hnone i k')
    unfold resume
    simp only [hs, hfd, ne_eq, not_true_eq_false, decide_false, Bool.or_false]
    exact hshut
  | releasing i k =>
    rw [countP_cons_of_neg (by simp [closes])] at honce
    have hother : ∀ j, j ≠ i → releasing j frames = releasing j d.frames := by
      intro j hj
      rw [hframes, releasing, if_neg (Ne.symm hj)]
    cases hs : d.lpc_socks[i]? with
    | none =>
      have hpopped : Sound { d with frames } := by
        refine sound_frames hsound ?_ hclosing honce
        intro j t ht _
        exact hother j (fun hj => by rw [hj, hs] at ht; cases ht)
      unfold resume
      simp only [hs]
      exact hpopped
    | some s =>
      cases hrelease : s.S_RELEASE with
      | false =>
        have hpopped : Sound { d with frames } := by
          refine sound_frames hsound ?_ hclosing honce
          intro j t ht hreleased
          refine hother j ?_
          rintro rfl
          rw [hs, some.injEq] at ht
          simp [← ht, hrelease] at hreleased
        unfold resume
        simp only [hs, hrelease, Bool.false_eq_true, if_false]
        exact hpopped
      | true =>
        obtain ⟨k', hfd, hk'⟩ := (hsound.slots i s hs).release hrelease
        rw [hframes, releasing, if_pos rfl, some.injEq] at hk'
        subst hk'
        have hput := sound_unrelease hsound hs
        have hpopped := @sound_frames _ hput frames ?_ ?_ honce
        · have hsame : decide (s.fd ≠ some k) = false := by simp [hfd]
          unfold resume
          simp only [hs, hrelease, hsame, Bool.or_false, if_true]
          exact hpopped
        · intro j t ht hreleased
          refine hother j ?_
          rintro rfl
          simp only [driver.put, getElem?_set_self (List.getElem?_eq_some_iff.mp hs).1,
            some.injEq] at ht
          simp [← ht] at hreleased
        · intro j k' hframe
          exact hput.closing j k' (hmem _ hframe)

theorem sound_call (hsound : Sound d) (hs : d.lpc_socks[i]? = some s) (hopen : is_open s = true)
    {f : frame} (hpush : Sound { d with frames := f :: d.frames }) :
    Sound (call_callback d s what f) := by
  have hresume : Sound (resume d f) := sound_resume hpush rfl
  obtain ⟨ob, howner, hfreed⟩ := (hsound.slots i s hs).owner hopen
  unfold call_callback
  rw [howner]
  cases s.S_FP what with
  | true => exact hpush
  | false =>
    cases s.callback what with
    | none => exact hresume
    | some c =>
      simp only [hfreed, Bool.false_eq_true, if_false]
      split_ifs
      · exact hresume
      · exact hpush

theorem sound_close_with_callback (hsound : Sound d) (hframes : d.frames = []) (fd : Nat) :
    Sound (close_with_callback d fd) := by
  unfold close_with_callback
  split
  · exact hsound
  · rename_i s hs
    split_ifs with hopen
    · exact sound_call hsound hs hopen (sound_push_closing hsound hframes hs (is_open_state hopen))
    · exact hsound

theorem modify_some (hs : d.lpc_socks[i]? = some s) (f : slot_t → slot_t) :
    d.modify i f = d.put i (f (s, d.ledger)) := by
  unfold driver.modify
  rw [hs]

theorem sound_close_final (hsound : Sound d) (hframes : d.frames = []) (fd : Nat) :
    Sound (close_final d fd) := by
  unfold close_final
  split
  · exact hsound
  · rename_i s hs
    split_ifs with hstate
    · exact hsound
    · rw [modify_some hs]
      refine sound_shut hsound hs hstate ?_
      intro k hframe
      simp [hframes] at hframe

end mudos.socket_table
