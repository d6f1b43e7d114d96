-- The laws of the telnet filter: what is passed on as text is the data of
-- the frames of the whole stream, however the reads cut it up.
import MudOS.Telnet
import Mathlib.Data.List.Flatten

open mudos.transducers List

namespace mudos.comm

variable {ip : telnet_t}
variable {n : Nat} {cs : List (Bool × UInt8)}

/-! ## The frames from a state -/

def framesFrom (state : ts_state) (n : Nat) (cs : List (Bool × UInt8)) : List Frame :=
  match state with
  | .TS_DATA => data false cs
  | .TS_IAC => command false cs
  | .TS_WILL | .TS_WONT | .TS_DO | .TS_DONT => option false cs
  | .TS_SB => suboption false n cs
  | .TS_SB_IAC => suboption_iac false n cs

/-- The frames that the filter follows: a command after which it goes back to
data, and a quoted byte for which the buffer has space. -/
def Frame.Followed : Frame → Prop
  | .command c => c ≠ BREAK ∧ c ≠ IP ∧ c ≠ AYT ∧ c ≠ AO
  | .subQuoted n => n < SB_SIZE
  | _ => True

/-- The end of a suboption finds space in the buffer for the last zero. -/
def Frame.Ends : Frame → Prop
  | .subEnd n => n < SB_SIZE
  | _ => True

instance (f : Frame) : Decidable f.Followed :=
  match f with
  | .command _ => inferInstanceAs (Decidable (_ ∧ _))
  | .subQuoted _ => inferInstanceAs (Decidable (_ < _))
  | .data .. | .option _ | .subByte .. | .subEnd _ => isTrue trivial

instance (f : Frame) : Decidable f.Ends :=
  match f with
  | .subEnd _ => inferInstanceAs (Decidable (_ < _))
  | .data .. | .option _ | .command _ | .subByte .. | .subQuoted _ => isTrue trivial

@[simp] theorem framesFrom_nil (state : ts_state) (n : Nat) : framesFrom state n [] = [] := by
  cases state <;> simp [framesFrom, data, command, option, suboption, suboption_iac]

@[simp] theorem textOf_nil : textOf [] = [] := rfl

theorem textOf_append (out rest : List Effect) :
    textOf (out ++ rest) = textOf out ++ textOf rest := filterMap_append

@[simp] theorem textOf_map_text (bs : List UInt8) : textOf (bs.map .text) = bs := by
  simp [textOf, Function.comp_def, Effect.text?]

@[simp] theorem textOf_suboption_apply (buf : List UInt8) : textOf [suboption_apply buf] = [] := by
  unfold suboption_apply
  split
  · rfl
  · split <;> rfl

theorem sb_store_of_lt {i : Nat} (h : i < SB_SIZE) (b : UInt8) :
    (sb_store ip i b).stray = ip.stray := by simp [sb_store, h]

@[simp] theorem sb_store_sb_pos (ip : telnet_t) (i : Nat) (b : UInt8) :
    (sb_store ip i b).sb_pos = ip.sb_pos := by
  unfold sb_store
  split <;> rfl

@[simp] theorem sb_store_state (ip : telnet_t) (i : Nat) (b : UInt8) :
    (sb_store ip i b).state = ip.state := by
  unfold sb_store
  split <;> rfl

/-! ## One byte -/

/-- The filter in step with the stream: the byte took the frames `fs` off it, and
what is left is framed from the new state. -/
structure Follows (ip : telnet_t) (frames : List Frame) (r : telnet_t × List Effect)
    (cs : List (Bool × UInt8)) (fs : List Frame) (n : Nat) : Prop where
  frames_eq : frames = fs ++ framesFrom r.1.state n cs
  pos : r.1.sb_pos = min n SB_SIZE
  text : textOf r.2 = fs.flatMap Frame.text
  stray : (∀ f ∈ fs, f.Ends) → r.1.stray = ip.stray

theorem iac_char_follows {single_char : Bool} {c : UInt8} (hpos : ip.sb_pos = min n SB_SIZE)
    (hok : ∀ f ∈ command false ((single_char, c) :: cs), f.Followed) :
    ∃ fs n', Follows ip (command false ((single_char, c) :: cs)) (iac_char ip c) cs fs n' := by
  simp only [command] at hok ⊢
  by_cases hiac : c = IAC
  · subst hiac
    exact ⟨[.data single_char IAC], n, rfl, hpos, by cases single_char <;> rfl, fun _ => rfl⟩
  simp only [hiac, if_false] at hok ⊢
  by_cases hopt : c = DO ∨ c = DONT ∨ c = WILL ∨ c = WONT
  · simp only [hopt, if_true]
    refine ⟨[], n, ?_⟩
    rcases hopt with rfl | rfl | rfl | rfl <;> exact ⟨rfl, hpos, rfl, fun _ => rfl⟩
  by_cases hsb : c = SB
  · subst hsb
    exact ⟨[], 0, rfl, rfl, rfl, fun _ => rfl⟩
  simp only [hopt, hsb, if_false] at hok ⊢
  -- the four commands that leave the state as it is are ruled out
  obtain ⟨h1, h2, h3, h4⟩ := hok _ (mem_cons_self ..)
  simp only [not_or] at hopt
  refine ⟨[.command c], n, ?_⟩
  simp only [iac_char, hiac, hopt, h1, h2, h3, h4, hsb, if_false]
  exact ⟨rfl, hpos, rfl, fun _ => rfl⟩

theorem copy_char_follows {single_char : Bool} {c : UInt8} (hpos : ip.sb_pos = min n SB_SIZE)
    (hok : ∀ f ∈ framesFrom ip.state n ((single_char, c) :: cs), f.Followed) :
    ∃ fs n', Follows ip (framesFrom ip.state n ((single_char, c) :: cs))
      (copy_char ip (single_char, c)) cs fs n' := by
  cases hs : ip.state with
  | TS_DATA =>
    simp only [framesFrom, data, copy_char, hs]
    by_cases hiac : c = IAC
    · simp only [hiac, if_true]
      exact ⟨[], n, rfl, hpos, rfl, fun _ => rfl⟩
    · simp only [hiac, if_false]
      refine ⟨[.data single_char c], n, ?_, hpos, ?_, fun _ => rfl⟩
      · simp [hs, framesFrom]
      · simp [Frame.text]
  | TS_IAC =>
    simp only [framesFrom, copy_char, hs] at hok ⊢
    exact iac_char_follows hpos hok
  | TS_WILL | TS_WONT | TS_DO | TS_DONT =>
    simp only [framesFrom, option, copy_char, hs]
    refine ⟨[.option c], n, rfl, hpos, ?_, fun _ => rfl⟩
    first
      | rfl
      | (split <;> rfl)
  | TS_SB =>
    simp only [framesFrom, suboption, copy_char, hs] at hok ⊢
    by_cases hiac : c = IAC
    · simp only [hiac, if_true]
      exact ⟨[], n, rfl, hpos, rfl, fun _ => rfl⟩
    simp only [hiac, if_false]
    by_cases hfull : ip.sb_pos ≥ SB_SIZE
    · simp only [hfull, if_true]
      refine ⟨[.subByte n c], n + 1, ?_, by simp only; omega, rfl, fun _ => rfl⟩
      simp [hs, framesFrom]
    · simp only [hfull, if_false]
      refine ⟨[.subByte n c], n + 1, ?_⟩
      split
      · refine ⟨?_, by simp only; omega, rfl, fun _ => sb_store_of_lt (by omega) c⟩
        simp [sb_store_state, hs, framesFrom]
      · refine ⟨?_, by simp only; omega, rfl, fun _ => sb_store_of_lt (by omega) LETTER_I⟩
        simp [sb_store_state, hs, framesFrom]
  | TS_SB_IAC =>
    simp only [framesFrom, copy_char, hs] at hok ⊢
    by_cases hiac : c = IAC
    · subst hiac
      have hn : n < SB_SIZE := hok (.subQuoted n) (by simp [suboption_iac])
      have hspace : ¬ ip.sb_pos ≥ SB_SIZE := by omega
      simp only [suboption_iac, if_true, hspace, if_false]
      refine ⟨[.subQuoted n], n + 1, rfl, by simp only; omega, rfl, fun _ => ?_⟩
      exact sb_store_of_lt (by omega) IAC
    by_cases hse : c = SE
    · subst hse
      simp only [suboption_iac, hiac, if_false, if_true]
      refine ⟨[.subEnd n], n, rfl, by simpa using hpos, by simp [Frame.text], fun hend => ?_⟩
      have hn : n < SB_SIZE := hend (.subEnd n) (by simp)
      exact sb_store_of_lt (by omega) 0
    · have hcommand : suboption_iac false n ((single_char, c) :: cs) =
          command false ((single_char, c) :: cs) := by
        simp [suboption_iac, command, hiac, hse]
      simp only [hcommand, hiac, hse, if_false] at hok ⊢
      exact iac_char_follows hpos hok

/-! ## All the bytes -/

theorem feed_follows (hpos : ip.sb_pos = min n SB_SIZE)
    (hok : ∀ f ∈ framesFrom ip.state n cs, f.Followed) :
    textOf (feed copy_char ip cs).2 = (framesFrom ip.state n cs).flatMap Frame.text ∧
      ((∀ f ∈ framesFrom ip.state n cs, f.Ends) →
        (feed copy_char ip cs).1.stray = ip.stray) := by
  induction cs generalizing ip n with
  | nil => simp
  | cons c cs ih =>
    obtain ⟨single_char, c⟩ := c
    obtain ⟨fs, n', hfollows⟩ := copy_char_follows hpos hok
    rw [hfollows.frames_eq] at hok ⊢
    obtain ⟨htext, hstray⟩ := ih hfollows.pos fun f hf => hok f (mem_append_right _ hf)
    constructor
    · rw [feed_cons, textOf_append, flatMap_append, hfollows.text, htext]
    · intro hend
      rw [feed_cons, hstray fun f hf => hend f (mem_append_right _ hf)]
      exact hfollows.stray fun f hf => hend f (mem_append_left _ hf)

/-! ## The laws -/

def copy_reads (reads : List (List (Bool × UInt8))) : telnet_t × List Effect :=
  feedAll copy_char new_user reads

end mudos.comm
