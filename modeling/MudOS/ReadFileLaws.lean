-- Which lines `read_file` returns: for which files, lines and limits they are those that were
-- asked for.
import MudOS.ReadFile

open mudos.line_starts List Option

namespace mudos.read_file

variable {α : Type*} (newline : α → Bool)
variable {before : Nat}

/-! ## What is asked -/

/-- The lines of the file in front of the first one that is asked for. -/
def lines_before (start : Int) : Nat := (max start 1 - 1).toNat

def wanted (file : List α) (start len : Int) : List α :=
  let rest := line_start newline (lines_before start) file
  if len = 0 then rest else first_lines newline len.toNat rest

def EndsLine (l : List α) : Prop := ∃ a c, l = a ++ [c] ∧ newline c = true

/-- Where the first line begins in the first part of the file, which is as long as the limit:
when the file is not longer, it is the first of all, or the number of lines is given and is not
the limit; when it is longer, the file ends so many bytes behind that part as there are in front
of the line, if all lines are asked for, and else it does not end before, or not before the
lines do. Where the line does not begin there: there is nothing to copy at the end of the last
buffer. -/
def Fits (READ_FILE_MAX_SIZE : Nat) (file : List α) (start len : Int) : Prop :=
  let before := lines_before start
  let first := file.take READ_FILE_MAX_SIZE
  if file = [] ∨ READ_FILE_MAX_SIZE = 0 then line_start newline before file = []
  else if before ≤ first.countP newline then
    let skipped := file.length - (line_start newline before file).length
    if file.length ≤ READ_FILE_MAX_SIZE then
      before = 0 ∨ len ≠ 0 ∧ len ≠ READ_FILE_MAX_SIZE
    else if len = 0 then file.length = READ_FILE_MAX_SIZE + skipped
    else READ_FILE_MAX_SIZE + skipped ≤ file.length ∨
      before + len.toNat ≤ file.countP newline
  else
    len ≠ 0 ∧ len ≠ READ_FILE_MAX_SIZE ∧ EndsLine newline file ∧
      ∃ buffers, file.length = min file.length READ_FILE_MAX_SIZE * buffers ∧
        file.countP newline + buffers ≤ before + 1 ∧ before ≤ file.countP newline + buffers

variable {newline}

/-! ## The loops -/

theorem copy_lines_eq {len : Nat} (hlen : 0 < len) (l : List α) :
    copy_lines newline len l = (first_lines newline len l, len - l.countP newline) := by
  induction l generalizing len with
  | nil => simp [copy_lines, first_lines]
  | cons c l ih =>
    obtain ⟨k, rfl⟩ := Nat.exists_eq_succ_of_ne_zero (Nat.ne_of_gt hlen)
    have hle := (line_start_suffix newline k l).length_le
    have hle' := (line_start_suffix newline (k + 1) l).length_le
    unfold copy_lines first_lines
    cases hc : newline c with
    | true =>
      rw [Nat.succ_eq_add_one, line_start_end hc, countP_cons_of_pos hc, length_cons,
        Nat.succ_sub hle, take_succ_cons, if_pos rfl, Nat.add_sub_cancel]
      split_ifs with hk
      · subst hk
        simp
      · rw [ih (Nat.pos_of_ne_zero hk), Nat.add_sub_add_right]
        rfl
    | false =>
      rw [Nat.succ_eq_add_one, line_start_other hc, countP_cons_of_neg (by simp [hc]),
        length_cons, Nat.succ_sub hle', take_succ_cons, if_neg Bool.false_ne_true,
        ih (Nat.succ_pos k)]
      rfl

theorem skip_lines_eq (newline : α → Bool) (k : Nat) (p : List α) : skip_lines newline (k + 1) p =
    if k ≤ p.countP newline then (0, line_start newline k p)
    else (k - p.countP newline, line_start newline (p.countP newline) p) := by
  induction k generalizing p with
  | zero => rfl
  | succ k ih =>
    unfold skip_lines
    rw [if_neg (Nat.succ_ne_zero k)]
    cases hafter : after_newline newline p with
    | none =>
      have hzero := after_newline_none hafter
      rw [hzero, if_neg (Nat.not_succ_le_zero k)]
      rfl
    | some q =>
      rw [after_newline_some hafter, line_start_after hafter, line_start_after hafter,
        Nat.add_sub_add_right]
      simp only [Nat.add_le_add_iff_right]
      exact ih q

/-- What is known when a buffer was read with the pointer in it: so many buffers were read, and
so many lines must still be passed over. -/
structure Reached (newline : α → Bool) (size before : Nat) (f : List α) (b : buffer_t α)
    (buffers behind : Nat) : Prop where
  read : 0 < buffers
  length : f.length = size * buffers + b.rest.length
  full : b.str.length = size
  pointer : b.p <:+ b.str
  suffix : b.str ++ b.rest <:+ f
  lines : ∀ x, line_start newline (before + x) f = line_start newline (behind + x) (b.p ++ b.rest)
  passed : before + (b.p ++ b.rest).countP newline = f.countP newline + behind
  late : behind + 1 = buffers ∨ behind = buffers ∧ b.p.countP newline = 0
  ended : behind ≠ 0 → b.p = [] → EndsLine newline b.str

theorem take_drop_count (newline : α → Bool) (size : Nat) (f : List α) :
    f.countP newline = (f.take size).countP newline + (f.drop size).countP newline := by
  rw [← countP_append, take_append_drop]

theorem Reached.pointer_suffix {size : Nat} {f : List α} {b : buffer_t α} {buffers behind : Nat}
    (h : Reached newline size before f b buffers behind) : b.p ++ b.rest <:+ f := by
  obtain ⟨a, ha⟩ := h.pointer
  refine List.IsSuffix.trans ⟨a, ?_⟩ h.suffix
  rw [← append_assoc, ha]

theorem take_drop_suffix (size : Nat) (f : List α) : f.take size ++ f.drop size <:+ f := by simp

theorem reached_found {size : Nat} {f : List α} (hsize : 0 < size) (hlength : size ≤ f.length)
    (h : before ≤ (f.take size).countP newline) :
    Reached newline size before f
      ⟨f.take size, line_start newline before (f.take size), f.drop size⟩ 1 0 := by
  have hsuffix := line_start_suffix newline before (f.take size)
  have hstart : line_start newline before f =
      line_start newline before (f.take size) ++ f.drop size := by
    rw [← line_start_append h, take_append_drop]
  refine ⟨Nat.one_pos, ?_, ?_, hsuffix, take_drop_suffix size f, ?_, ?_, .inl rfl, ?_⟩
  · simp only [length_drop]
    omega
  · simp only [length_take]
    omega
  · intro x
    rw [Nat.zero_add, ← hstart, line_start_line_start]
  · rw [← hstart, countP_line_start, take_drop_count _ size f]
    omega
  · exact fun h => absurd rfl h

theorem reached_missed {size : Nat} {f : List α} (hsize : 0 < size) (hlength : size ≤ f.length)
    (h : before = (f.take size).countP newline + 1) :
    Reached newline size before f ⟨f.take size,
      line_start newline ((f.take size).countP newline) (f.take size), f.drop size⟩ 1 1 := by
  have hsuffix := line_start_suffix newline ((f.take size).countP newline) (f.take size)
  have hnone :
      (line_start newline ((f.take size).countP newline) (f.take size)).countP newline = 0 := by
    rw [countP_line_start, Nat.sub_self]
  refine ⟨Nat.one_pos, ?_, ?_, hsuffix, take_drop_suffix size f, ?_, ?_,
    .inr ⟨rfl, hnone⟩, ?_⟩
  · simp only [length_drop]
    omega
  · simp only [length_take]
    omega
  · intro x
    have hless : (line_start newline ((f.take size).countP newline) (f.take size)).countP newline <
        1 + x := by
      rw [hnone]
      omega
    simp only
    rw [line_start_append_more hless, hnone, Nat.sub_zero]
    conv_lhs => rw [← take_append_drop size f]
    rw [line_start_append_more (by omega)]
    congr 1
    omega
  · simp only
    rw [countP_append, hnone, take_drop_count _ size f]
    omega
  · intro _ hp
    refine ends_of_line_start_nil (Nat.le_refl _) ?_ hp
    rw [← length_pos_iff, length_take]
    omega

theorem Reached.later {size more : Nat} {f : List α} {b : buffer_t α} {buffers behind : Nat}
    (h : Reached newline size more (f.drop size) b buffers behind) (hlength : size ≤ f.length)
    (hmore : before = (f.take size).countP newline + more + 1)
    (hended : b.p = [] → EndsLine newline b.str) :
    Reached newline size before f b (buffers + 1) (behind + 1) := by
  refine ⟨Nat.succ_pos _, ?_, h.full, h.pointer, h.suffix.trans (drop_suffix size f),
    ?_, ?_, ?_, fun _ => hended⟩
  · have hrest := h.length
    rw [length_drop] at hrest
    rw [Nat.mul_add, Nat.mul_one]
    omega
  · intro x
    have hrest := h.lines (x + 1)
    have hcut : line_start newline (before + x) f =
        line_start newline (more + (x + 1)) (f.drop size) := by
      conv_lhs => rw [← take_append_drop size f]
      rw [line_start_append_more (by omega)]
      congr 1
      omega
    rw [hcut, hrest]
    congr 1
    omega
  · have hpassed := h.passed
    rw [take_drop_count _ size f]
    omega
  · rcases h.late with hlate | ⟨hlate, hnone⟩
    · exact .inl (by omega)
    · exact .inr ⟨by omega, hnone⟩

theorem read_buffers_some {size steps : Nat} {f : List α} {b : buffer_t α} (hsize : 0 < size)
    (h : read_buffers newline size steps f (before + 1) = some b) :
    size ≤ f.length ∧ (∃ buffers behind, Reached newline size before f b buffers behind ∧
      (before ≤ (f.take size).countP newline ↔ behind = 0) ∧
      (b.p = [] → before ≠ 0 → EndsLine newline b.str)) ∧
      (before ≤ (f.take size).countP newline →
        b = ⟨f.take size, line_start newline before (f.take size), f.drop size⟩) := by
  induction steps generalizing f before with
  | zero => cases h
  | succ steps ih =>
    have hskip := skip_lines_eq newline before (f.take size)
    simp only [read_buffers] at h
    rw [hskip] at h
    by_cases hshort : f.length < size
    · simp [if_pos hshort] at h
    rw [if_neg hshort] at h
    have hlength : size ≤ f.length := Nat.not_lt.mp hshort
    have hne : f.take size ≠ [] := by
      rw [← length_pos_iff, length_take]
      omega
    refine ⟨hlength, ?_⟩
    by_cases hhere : before ≤ (f.take size).countP newline
    · rw [if_pos hhere, if_neg (Nat.not_lt_zero 1)] at h
      cases h
      exact ⟨⟨1, 0, reached_found hsize hlength hhere, by simp [hhere],
        fun hp _ => ends_of_line_start_nil hhere hne hp⟩, fun _ => rfl⟩
    · rw [if_neg hhere] at h
      by_cases hmore : before - (f.take size).countP newline > 1
      · rw [if_pos hmore] at h
        obtain ⟨more, hk⟩ : ∃ more, before - (f.take size).countP newline = more + 1 :=
          ⟨before - (f.take size).countP newline - 1, by omega⟩
        simp only [hk] at h
        obtain ⟨-, ⟨buffers, behind, hreached, -, hended⟩, -⟩ := ih h
        refine ⟨⟨buffers + 1, behind + 1, hreached.later hlength (by omega) ?_, ?_, ?_⟩, ?_⟩
        · exact fun hp => hended hp (by omega)
        · simp [hhere]
        · exact fun hp _ => hended hp (by omega)
        · exact fun h => absurd h hhere
      · rw [if_neg hmore] at h
        cases h
        have hreached := reached_missed hsize hlength
          (show before = (f.take size).countP newline + 1 by omega)
        refine ⟨⟨1, 1, hreached, by simp [hhere], ?_⟩, fun h => absurd h hhere⟩
        exact fun hp _ => hreached.ended Nat.one_ne_zero hp

/-! ## Copying -/

theorem first_lines_length (newline : α → Bool) (k : Nat) (l : List α) :
    (first_lines newline k l).length ≤ l.length := by
  unfold first_lines
  exact length_take_le' _ _

/-- What is copied: lines of the buffer, what is left of the file, or also what is read behind
that, and what was in the buffer there. -/
theorem copy_text_some {size len : Nat} {b : buffer_t α} {text : List α} (hlen : 0 < len)
    (h : copy_text newline size len b = some text) :
    len ≤ b.p.countP newline ∧ text = first_lines newline len b.p ∨
    b.p.countP newline < len ∧ b.rest = [] ∧ text = b.p ∨
    b.p.countP newline < len ∧ b.rest ≠ [] ∧ ∃ more, more = min (size - b.p.length) b.rest.length ∧
      0 < more ∧ (b.rest.drop more = [] ∨ len - b.p.countP newline ≤
        (b.rest.take more ++ b.str.drop (b.p.length + more)).countP newline) ∧
      text = b.p ++ first_lines newline (len - b.p.countP newline)
        (b.rest.take more ++ b.str.drop (b.p.length + more)) := by
  unfold copy_text at h
  rw [copy_lines_eq hlen] at h
  simp only at h
  by_cases hle : len ≤ b.p.countP newline
  · rw [if_neg fun hboth => hboth.1 (Nat.sub_eq_zero_of_le hle)] at h
    exact .inl ⟨hle, (some.inj h).symm⟩
  · have hlt : b.p.countP newline < len := Nat.not_le.mp hle
    have hall := first_lines_all hlt
    rw [hall] at h
    by_cases hrest : b.rest = []
    · rw [if_neg fun hboth => hboth.2 hrest] at h
      exact .inr (.inl ⟨hlt, hrest, (some.inj h).symm⟩)
    · rw [if_pos ⟨by omega, hrest⟩] at h
      by_cases hmore : min (size - b.p.length) b.rest.length = 0
      · rw [if_pos hmore] at h
        cases h
      · rw [if_neg hmore, copy_lines_eq (by omega)] at h
        simp only at h
        split_ifs at h with hstop
        refine .inr (.inr ⟨hlt, hrest, _, rfl, Nat.pos_of_ne_zero hmore, ?_,
          (some.inj h).symm⟩)
        rw [Classical.not_and_iff_not_or_not, not_not] at hstop
        rcases hstop with hnil | hdone
        · exact .inl hnil
        · exact .inr (by omega)

theorem copy_text_inside {size len : Nat} {b : buffer_t α} {text : List α} (hlen : 0 < len)
    (hfull : b.str.length = size) (hpointer : b.p <:+ b.str)
    (h : copy_text newline size len b = some text) : text.length ≤ size := by
  have hle := hpointer.length_le
  rcases copy_text_some hlen h with ⟨-, rfl⟩ | ⟨-, -, rfl⟩ | ⟨-, -, more, hmore, -, -, rfl⟩
  · have := first_lines_length newline len b.p
    omega
  · omega
  · have hfirst := first_lines_length newline (len - b.p.countP newline)
      (b.rest.take more ++ b.str.drop (b.p.length + more))
    simp only [length_append, length_take, length_drop] at hfirst ⊢
    omega

theorem copy_text_front {size len : Nat} {b : buffer_t α} {text : List α} (hlen : 0 < len)
    (h : copy_text newline size len b = some text) :
    (b.p ++ b.rest = [] → text = []) ∧
      ∀ c u, b.p ++ b.rest = c :: u → ∃ v, text = c :: v := by
  have hfront : ∀ {k : Nat} {c : α} {u : List α}, 0 < k →
      ∃ v, first_lines newline k (c :: u) = c :: v := by
    intro k c u hk
    have hwhole := first_lines_append newline k (c :: u)
    cases hfirst : first_lines newline k (c :: u) with
    | nil => exact absurd hfirst (first_lines_ne_nil hk (cons_ne_nil c u))
    | cons x v =>
      rw [hfirst, cons_append] at hwhole
      exact ⟨v, by rw [(cons.inj hwhole).1]⟩
  have hcases := copy_text_some hlen h
  cases hp : b.p with
  | cons x l =>
    rw [hp] at hcases
    refine ⟨fun hnil => (by cases hnil), ?_⟩
    intro c u hc
    cases hc
    rcases hcases with ⟨-, rfl⟩ | ⟨-, -, rfl⟩ | ⟨-, -, more, -, -, -, rfl⟩
    · exact hfront hlen
    · exact ⟨l, rfl⟩
    · exact ⟨_, rfl⟩
  | nil =>
    rw [hp, countP_nil, length_nil, Nat.sub_zero] at hcases
    rcases hcases with ⟨hle, -⟩ | ⟨-, hrest, rfl⟩ | ⟨-, hrest, more, -, hmore, -, rfl⟩
    · omega
    · rw [hrest]
      exact ⟨fun _ => rfl, fun c u hc => by cases hc⟩
    · refine ⟨fun hnil => absurd hnil hrest, ?_⟩
      intro c u hc
      rw [nil_append] at hc
      rw [hc]
      obtain ⟨n, rfl⟩ := Nat.exists_eq_succ_of_ne_zero (Nat.ne_of_gt hmore)
      exact hfront hlen

/-! ## The first line in the first buffer -/

theorem first_lines_long {k : Nat} {l : List α} (h : l.length ≤ k) :
    first_lines newline k l = l := by
  have hlength := line_start_length newline k l
  have hnil : line_start newline k l = [] := by
    rw [← length_eq_zero_iff]
    omega
  have hwhole := first_lines_append newline k l
  rwa [hnil, append_nil] at hwhole

section

variable {size : Nat} {b : buffer_t α} {text : List α}

theorem stale_length (hfull : b.str.length = size) (more : Nat) :
    (b.str.drop (b.p.length + more)).length = size - (b.p.length + more) := by
  rw [length_drop, hfull]

theorem copy_text_lines {len : Nat} (hlen : 0 < len) (hfull : b.str.length = size)
    (hpointer : b.p <:+ b.str) (hrest : b.rest ≠ [])
    (h : copy_text newline size len b = some text) :
    text = first_lines newline len (b.p ++ b.rest) ↔
      size - b.p.length ≤ b.rest.length ∨ len ≤ (b.p ++ b.rest).countP newline := by
  rw [countP_append]
  rcases copy_text_some hlen h with ⟨hin, rfl⟩ | ⟨-, hnil, -⟩ | ⟨hlt, -, more, hmore, -, hstop, rfl⟩
  · rw [first_lines_left hin]
    simp only [true_iff]
    omega
  · exact absurd hnil hrest
  · rw [first_lines_more hlt]
    have hcut := take_append_drop more b.rest
    by_cases hroom : size - b.p.length ≤ b.rest.length
    · refine ⟨fun _ => .inl hroom, fun _ => ?_⟩
      have hstale : b.str.drop (b.p.length + more) = [] := by
        rw [← length_eq_zero_iff, stale_length hfull]
        omega
      rw [hstale, append_nil] at hstop ⊢
      congr 1
      rcases hstop with hnil | hdone
      · rw [hnil, append_nil] at hcut
        rw [hcut]
      · rw [← first_lines_left hdone, hcut]
    · have hall : b.rest.take more = b.rest := by
        rw [take_of_length_le]
        omega
      rw [hall]
      by_cases hdone : len - b.p.countP newline ≤ b.rest.countP newline
      · rw [first_lines_left hdone]
        simp only [true_iff]
        omega
      · have hstale : b.str.drop (b.p.length + more) ≠ [] := by
          rw [← length_pos_iff, stale_length hfull]
          omega
        have hpos : 0 < (first_lines newline (len - b.p.countP newline - b.rest.countP newline)
            (b.str.drop (b.p.length + more))).length :=
          length_pos_iff.mpr (first_lines_ne_nil (by omega) hstale)
        rw [first_lines_more (by omega), first_lines_all (l := b.rest) (by omega)]
        constructor
        · intro heq
          have := congrArg length heq
          simp only [length_append] at this
          omega
        · omega

theorem copy_text_all (hsize : 0 < size) (hfull : b.str.length = size)
    (hpointer : b.p <:+ b.str) (hrest : b.rest ≠ [])
    (h : copy_text newline size size b = some text) :
    text = b.p ++ b.rest ↔ b.rest.length = size - b.p.length := by
  have hinside := copy_text_inside hsize hfull hpointer h
  have hlines := copy_text_lines hsize hfull hpointer hrest h
  have hpos := length_pos_iff.mpr hrest
  have hcount := countP_le_length (p := newline) (l := b.p ++ b.rest)
  rw [length_append] at hcount
  constructor
  · intro heq
    have hlength := congrArg length heq
    rw [length_append] at hlength
    by_contra hne
    have hall : first_lines newline size (b.p ++ b.rest) = b.p ++ b.rest := by
      apply first_lines_long
      rw [length_append]
      omega
    rw [hall] at hlines
    rcases hlines.mp heq with hroom | hdone
    · omega
    · omega
  · intro hroom
    rw [hlines.mpr (.inl (by omega))]
    apply first_lines_long
    rw [length_append]
    omega

end

/-! ## The first line in a later buffer -/

theorem EndsLine.count_pos {f l : List α} (h : EndsLine newline f) (hl : l <:+ f) (hne : l ≠ []) :
    0 < l.countP newline := by
  obtain ⟨a, c, rfl, hc⟩ := h
  obtain ⟨x, hx⟩ := hl
  refine countP_pos_iff.mpr ⟨c, ?_, hc⟩
  rw [← dropLast_append_getLast hne, ← append_assoc] at hx
  have hlast := (append_inj' hx rfl).2
  rw [← (cons.inj hlast).1]
  exact getLast_mem hne

section

variable {M size : Nat} {file text : List α} {start len : Int} {b : buffer_t α}
  {buffers behind : Nat}

theorem wanted_eq (file : List α) (start len : Int) : wanted newline file start len =
    if len = 0 then line_start newline (lines_before start) file
    else first_lines newline len.toNat (line_start newline (lines_before start) file) := rfl

theorem mem_wanted {x : α} (h : x ∈ wanted newline file start len) :
    x ∈ line_start newline (lines_before start) file := by
  rw [wanted_eq] at h
  split_ifs at h
  · exact h
  · unfold first_lines at h
    exact mem_of_mem_take h

theorem wanted_length (newline : α → Bool) (file : List α) (start len : Int) :
    (wanted newline file start len).length ≤
      (line_start newline (lines_before start) file).length := by
  rw [wanted_eq]
  split_ifs
  · exact Nat.le_refl _
  · exact first_lines_length newline _ _

/-- What the condition says where the first line is not in the first buffer. -/
def FitsLater (newline : α → Bool) (M size : Nat) (file : List α) (start len : Int) : Prop :=
  len ≠ 0 ∧ len ≠ M ∧ EndsLine newline file ∧ ∃ buffers, file.length = size * buffers ∧
    file.countP newline + buffers ≤ lines_before start + 1 ∧
    lines_before start ≤ file.countP newline + buffers

theorem later_fits (hreached : Reached newline size (lines_before start) file b buffers behind)
    (hbehind : behind ≠ 0) (hp : b.p = []) (hrest : b.rest = []) (hzero : len ≠ 0)
    (hmax : len ≠ M) : FitsLater newline M size file start len := by
  have hended := hreached.ended hbehind hp
  have hsuffix := hreached.suffix
  have hlength := hreached.length
  have hpassed := hreached.passed
  rw [hrest, append_nil] at hsuffix
  rw [hrest, length_nil, Nat.add_zero] at hlength
  rw [hp, hrest, nil_append, countP_nil, Nat.add_zero] at hpassed
  refine ⟨hzero, hmax, ?_, buffers, hlength, ?_, ?_⟩
  · obtain ⟨a, c, hstr, hc⟩ := hended
    obtain ⟨x, hx⟩ := hsuffix
    refine ⟨x ++ a, c, ?_, hc⟩
    rw [← hx, hstr, append_assoc]
  · rcases hreached.late with hlate | ⟨hlate, -⟩ <;> omega
  · rcases hreached.late with hlate | ⟨hlate, -⟩ <;> omega

theorem not_later_fits (hsize : 0 < size)
    (hreached : Reached newline size (lines_before start) file b buffers behind)
    (hmore : b.p ++ b.rest ≠ []) : ¬ FitsLater newline M size file start len := by
  rintro ⟨-, -, hends, k, hk, hlow, -⟩
  have hlength := hreached.length
  have hpassed := hreached.passed
  have hsuffix := hreached.pointer_suffix
  rw [countP_append] at hpassed
  by_cases hrest : b.rest = []
  · rw [hrest, length_nil, Nat.add_zero, hk] at hlength
    have hsame := Nat.eq_of_mul_eq_mul_left hsize hlength
    rw [hrest, append_nil] at hmore hsuffix
    have hpos := hends.count_pos hsuffix hmore
    rw [hrest, countP_nil] at hpassed
    rcases hreached.late with hlate | ⟨hlate, hnone⟩ <;> omega
  · have hpos := hends.count_pos ((suffix_append b.p b.rest).trans hsuffix) hrest
    have hrest_pos := length_pos_iff.mpr hrest
    have hlt : size * buffers < size * k := by omega
    have hless := Nat.lt_of_mul_lt_mul_left hlt
    rcases hreached.late with hlate | ⟨hlate, -⟩ <;> omega

theorem later_text (len : Int)
    (hreached : Reached newline size (lines_before start) file b buffers behind)
    (hbehind : behind ≠ 0) {L : Nat} (hL : 0 < L) (h : copy_text newline size L b = some text) :
    (b.p ++ b.rest = [] → text = wanted newline file start len) ∧
      (file.Nodup → text = wanted newline file start len → b.p ++ b.rest = []) := by
  have hlines := hreached.lines 0
  rw [Nat.add_zero, Nat.add_zero] at hlines
  obtain ⟨hnil, hcons⟩ := copy_text_front hL h
  refine ⟨fun hempty => ?_, fun hnodup heq => ?_⟩
  · have hwanted := wanted_length newline file start len
    rw [hlines, hempty, line_start_nil, length_nil] at hwanted
    rw [hnil hempty, eq_comm, ← length_eq_zero_iff]
    omega
  · cases hpr : b.p ++ b.rest with
    | nil => rfl
    | cons c u =>
      exfalso
      obtain ⟨v, rfl⟩ := hcons c u hpr
      have hmem : c ∈ wanted newline file start len := by
        rw [← heq]
        exact mem_cons_self
      have hin := mem_wanted hmem
      have hsuffix := hreached.pointer_suffix
      rw [hlines, hpr] at hin
      rw [hpr] at hsuffix
      exact head_not_mem_line_start (Nat.pos_of_ne_zero hbehind)
        (hnodup.sublist hsuffix.sublist) hin

theorem later_whole (hsize : 0 < size)
    (hreached : Reached newline size (lines_before start) file b buffers behind)
    (hbehind : behind ≠ 0) (hrest : b.rest = []) : b.str ≠ wanted newline file start len := by
  intro heq
  have hlines := hreached.lines 0
  rw [Nat.add_zero, Nat.add_zero, hrest, append_nil] at hlines
  have hwanted := wanted_length newline file start len
  have hfull := hreached.full
  have hle := hreached.pointer.length_le
  have hlength := line_start_length newline behind b.p
  rw [← heq, hlines] at hwanted
  omega

end

/-! ## The whole function -/

section

variable {M : Nat} {file text : List α} {start len : Int}

theorem fits_nothing (h : file = [] ∨ M = 0) : Fits newline M file start len ↔
    line_start newline (lines_before start) file = [] := by
  simp only [Fits]
  rw [if_pos h]

theorem wanted_nil (hlen : 0 ≤ len) : [] = wanted newline file start len ↔
    line_start newline (lines_before start) file = [] := by
  rw [wanted_eq, eq_comm]
  split_ifs with hzero
  · rfl
  · refine ⟨fun h => ?_, fun h => by rw [h]; simp [first_lines]⟩
    by_contra hne
    exact first_lines_ne_nil (by omega) hne h

theorem short_file (hlen : 0 ≤ len) (hfile : file ≠ []) (hM : M ≠ 0) (hshort : file.length ≤ M)
    (hhere : lines_before start ≤ file.countP newline) {L : Nat}
    (hL : L = if len = 0 then M else len.toNat)
    (h : (if L ≠ M ∨ ([] : List α) ≠ [] then copy_text newline file.length L
      ⟨file, line_start newline (lines_before start) file, []⟩ else some file) = some text) :
    text = wanted newline file start len ↔ Fits newline M file start len := by
  have htake : file.take M = file := take_of_length_le hshort
  have hfits : Fits newline M file start len ↔
      lines_before start = 0 ∨ len ≠ 0 ∧ len ≠ M := by
    unfold Fits
    simp only [htake]
    rw [if_neg (not_or.mpr ⟨hfile, hM⟩), if_pos hhere, if_pos hshort]
  have hpos := length_pos_iff.mpr hfile
  rw [hfits]
  by_cases hmax : L = M
  · rw [if_neg (not_or.mpr ⟨not_not.mpr hmax, not_not.mpr rfl⟩)] at h
    obtain rfl := some.inj h
    have hlimit : ¬ (len ≠ 0 ∧ len ≠ M) := by
      rintro ⟨hzero, hother⟩
      rw [if_neg hzero] at hL
      omega
    simp only [hlimit, or_false]
    constructor
    · intro heq
      have hwanted := wanted_length newline file start len
      have hlength := line_start_length newline (lines_before start) file
      rw [← heq] at hwanted
      omega
    · intro hzero
      rw [wanted_eq, hzero, line_start_zero]
      split_ifs with hall
      · rfl
      · rw [if_neg hall] at hL
        rw [first_lines_long]
        omega
  · rw [if_pos (.inl hmax)] at h
    have hgiven : len ≠ 0 := by
      rintro rfl
      exact hmax hL
    rw [if_neg hgiven] at hL
    have hother : len ≠ M := by omega
    refine ⟨fun _ => .inr ⟨hgiven, hother⟩, fun _ => ?_⟩
    rw [wanted_eq, if_neg hgiven, ← hL]
    rcases copy_text_some (by omega) h with ⟨-, rfl⟩ | ⟨hlt, -, rfl⟩ | ⟨-, hrest, -⟩
    · rfl
    · rw [first_lines_all hlt]
    · exact absurd rfl hrest

theorem long_file (hlen : 0 ≤ len) (hM : M ≠ 0) (hlong : M < file.length)
    (hhere : lines_before start ≤ (file.take M).countP newline) {L : Nat}
    (hL : L = if len = 0 then M else len.toNat)
    (h : copy_text newline M L ⟨file.take M, line_start newline (lines_before start) (file.take M),
      file.drop M⟩ = some text) :
    text = wanted newline file start len ↔ Fits newline M file start len := by
  have hfile : file ≠ [] := by
    rintro rfl
    exact absurd hlong (Nat.not_lt_zero M)
  have hfull : (file.take M).length = M := by
    rw [length_take]
    omega
  have hrest : file.drop M ≠ [] := by
    rw [← length_pos_iff, length_drop]
    omega
  have hpointer := line_start_suffix newline (lines_before start) (file.take M)
  have hstart : line_start newline (lines_before start) file =
      line_start newline (lines_before start) (file.take M) ++ file.drop M := by
    rw [← line_start_append hhere, take_append_drop]
  have hlength := congrArg length hstart
  rw [length_append, length_drop] at hlength
  have hcount := countP_line_start newline (lines_before start) file
  have hfits : Fits newline M file start len ↔
      if len = 0 then file.length =
        M + (file.length - (line_start newline (lines_before start) file).length)
      else M + (file.length - (line_start newline (lines_before start) file).length) ≤
        file.length ∨ lines_before start + len.toNat ≤ file.countP newline := by
    simp only [Fits]
    rw [if_neg (not_or.mpr ⟨hfile, hM⟩), if_pos hhere, if_neg (Nat.not_le.mpr hlong)]
  rw [hfits, wanted_eq]
  split_ifs with hall
  · rw [if_pos hall] at hL
    rw [hL] at h
    have hcopy := copy_text_all (Nat.pos_of_ne_zero hM) hfull hpointer hrest h
    simp only [length_drop] at hcopy
    have hwhole : text = line_start newline (lines_before start) file ↔ text =
        line_start newline (lines_before start) (file.take M) ++ file.drop M := by rw [hstart]
    rw [hwhole, hcopy]
    omega
  · rw [if_neg hall] at hL
    have hcopy := copy_text_lines (by omega) hfull hpointer hrest h
    simp only [length_drop] at hcopy
    have hlines : text = first_lines newline L (line_start newline (lines_before start) file) ↔
        text = first_lines newline L
          (line_start newline (lines_before start) (file.take M) ++ file.drop M) := by rw [hstart]
    rw [← hL, hlines, hcopy, ← hstart]
    omega

end

/-- The text that is returned stays inside the buffer and is what was asked for where the
condition holds; and where all bytes are told apart, only there. -/
theorem read_file_lines {READ_FILE_MAX_SIZE : Nat} {file text : List α} {start len : Int}
    (h : read_file newline READ_FILE_MAX_SIZE file start len = some text) :
    text.length ≤ min file.length READ_FILE_MAX_SIZE ∧
      (Fits newline READ_FILE_MAX_SIZE file start len → text = wanted newline file start len) ∧
      (file.Nodup → text = wanted newline file start len →
        Fits newline READ_FILE_MAX_SIZE file start len) := by
  simp only [read_file] at h
  have hlen : 0 ≤ len := by
    by_contra hneg
    rw [if_pos (by omega)] at h
    cases h
  rw [if_neg (Int.not_lt.mpr hlen)] at h
  by_cases hbig : file.length > READ_FILE_MAX_SIZE ∧ start = 0 ∧ len = 0
  · simp [if_pos hbig] at h
  rw [if_neg hbig] at h
  by_cases hsize : min file.length READ_FILE_MAX_SIZE = 0
  · rw [if_pos hsize] at h
    obtain rfl := some.inj h
    have hnothing : file = [] ∨ READ_FILE_MAX_SIZE = 0 := by
      rw [← length_eq_zero_iff]
      omega
    rw [fits_nothing hnothing, wanted_nil hlen]
    exact ⟨Nat.zero_le _, fun h => h, fun _ h => h⟩
  rw [if_neg hsize] at h
  generalize hL : (if len = 0 then READ_FILE_MAX_SIZE else len.toNat) = L at h
  have hLpos : 0 < L := by
    rw [← hL]
    split_ifs <;> omega
  have hstart : (if start < 1 then 1 else start.toNat) = lines_before start + 1 := by
    unfold lines_before
    split_ifs <;> omega
  rw [hstart] at h
  cases hread : read_buffers newline (min file.length READ_FILE_MAX_SIZE) file.length file
      (lines_before start + 1) with
  | none =>
    simp [hread] at h
  | some b =>
    rw [hread] at h
    simp only at h
    obtain ⟨hroom, ⟨buffers, behind, hreached, hiff, -⟩, hexact⟩ :=
      read_buffers_some (Nat.pos_of_ne_zero hsize) hread
    have hfile : file ≠ [] := by
      rintro rfl
      simp at hsize
    have hM : READ_FILE_MAX_SIZE ≠ 0 := by omega
    have hinside : text.length ≤ min file.length READ_FILE_MAX_SIZE := by
      split_ifs at h
      · exact copy_text_inside hLpos hreached.full hreached.pointer h
      · exact Nat.le_of_eq (by rw [← some.inj h, hreached.full])
    refine ⟨hinside, ?_⟩
    have htake : file.take (min file.length READ_FILE_MAX_SIZE) =
        file.take READ_FILE_MAX_SIZE := by
      rcases Nat.le_total file.length READ_FILE_MAX_SIZE with hle | hle
      · rw [Nat.min_eq_left hle, take_length, take_of_length_le hle]
      · rw [Nat.min_eq_right hle]
    by_cases hhere : lines_before start ≤ (file.take READ_FILE_MAX_SIZE).countP newline
    · rw [htake] at hexact
      obtain rfl := hexact hhere
      rcases Nat.lt_or_ge READ_FILE_MAX_SIZE file.length with hlong | hshort
      · rw [Nat.min_eq_right (Nat.le_of_lt hlong)] at h
        have hrest : file.drop READ_FILE_MAX_SIZE ≠ [] := by
          rw [← length_pos_iff, length_drop]
          omega
        rw [if_pos (.inr hrest)] at h
        have hright := long_file hlen hM hlong hhere hL.symm h
        exact ⟨hright.mpr, fun _ => hright.mp⟩
      · have htext : file.take READ_FILE_MAX_SIZE = file := take_of_length_le hshort
        rw [Nat.min_eq_left hshort, htext, drop_length] at h
        rw [htext] at hhere
        have hright := short_file hlen hfile hM hshort hhere hL.symm h
        exact ⟨hright.mpr, fun _ => hright.mp⟩
    · have hbehind : behind ≠ 0 := by
        intro hzero
        rw [htake] at hiff
        exact hhere (hiff.mpr hzero)
      have hfits : Fits newline READ_FILE_MAX_SIZE file start len ↔
          FitsLater newline READ_FILE_MAX_SIZE (min file.length READ_FILE_MAX_SIZE) file
            start len := by
        simp only [Fits]
        rw [if_neg (not_or.mpr ⟨hfile, hM⟩), if_neg hhere]
        rfl
      rw [hfits]
      by_cases hcopy : L ≠ READ_FILE_MAX_SIZE ∨ b.rest ≠ []
      · rw [if_pos hcopy] at h
        obtain ⟨hempty, honly⟩ := later_text len hreached hbehind hLpos h
        by_cases hnil : b.p ++ b.rest = []
        · obtain ⟨hp, hrest⟩ := append_eq_nil_iff.mp hnil
          have hmax : L ≠ READ_FILE_MAX_SIZE := hcopy.resolve_right (not_not.mpr hrest)
          refine ⟨fun _ => hempty hnil, fun _ _ => later_fits hreached hbehind hp hrest ?_ ?_⟩
          · rintro rfl
            exact hmax hL.symm
          · intro heq
            rw [heq] at hL
            split_ifs at hL <;> omega
        · refine ⟨fun hlater => absurd hlater ?_, fun hnodup heq => absurd (honly hnodup heq) hnil⟩
          exact not_later_fits (Nat.pos_of_ne_zero hsize) hreached hnil
      · rw [if_neg hcopy] at h
        rw [not_or, not_not, not_not] at hcopy
        obtain rfl := some.inj h
        refine ⟨fun hlater => ?_, fun _ heq => ?_⟩
        · obtain ⟨hgiven, hother, -⟩ := hlater
          rw [if_neg hgiven] at hL
          omega
        · exact absurd heq (later_whole (Nat.pos_of_ne_zero hsize) hreached hbehind hcopy.2)

/-- The second line of three, in a buffer for all. -/
theorem second_line_is_read :
    [0x62, 0x0a].length ≤ min 6 100 ∧
      (Fits is_newline 100 [0x61, 0x0a, 0x62, 0x0a, 0x63, 0x0a] 2 1 →
        [0x62, 0x0a] = wanted is_newline [0x61, 0x0a, 0x62, 0x0a, 0x63, 0x0a] 2 1) ∧
      (([0x61, 0x0a, 0x62, 0x0a, 0x63, 0x0a] : List UInt8).Nodup →
        [0x62, 0x0a] = wanted is_newline [0x61, 0x0a, 0x62, 0x0a, 0x63, 0x0a] 2 1 →
        Fits is_newline 100 [0x61, 0x0a, 0x62, 0x0a, 0x63, 0x0a] 2 1) :=
  @read_file_lines UInt8 is_newline 100 [0x61, 0x0a, 0x62, 0x0a, 0x63, 0x0a] [0x62, 0x0a] 2 1
    (by decide)

/-- From the second line on, the whole file is returned; the third line of two is the second;
and what was in the buffer comes behind the end of a longer file. -/
theorem other_lines_are_read :
    read_file is_newline 100 [0x61, 0x0a, 0x62] 2 0 = some [0x61, 0x0a, 0x62] ∧
      wanted is_newline [0x61, 0x0a, 0x62] 2 0 = [0x62] ∧
      read_file is_newline 100 [0x61, 0x0a, 0x62] 3 1 = some [0x62] ∧
      wanted is_newline [0x61, 0x0a, 0x62] 3 1 = [] ∧
      read_file is_newline 4 [0x61, 0x62, 0x0a, 0x63, 0x64] 2 1 = some [0x63, 0x64, 0x0a] ∧
      wanted is_newline [0x61, 0x62, 0x0a, 0x63, 0x64] 2 1 = [0x63, 0x64] := by decide

end mudos.read_file
