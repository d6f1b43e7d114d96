-- `reg_assoc` of `array.c`: a string is cut into the parts that patterns match, each with the
-- token of its pattern, and the parts between them, each with the default.
import MudOS.Library.Cuts

namespace mudos.matching

open mudos.cuts

/-! ## The engine -/

/-- `regexp.c`, where `Matches r text b e` means that the text from `b` up to `e` is matched by the
program. A text is searched from its start for the first place with a match. -/
structure regexp_t (R : Type) where
  regcomp : List Char → Except String R
  regexec : R → List Char → Option (Nat × Nat)
  Matches : R → List Char → Nat → Nat → Prop
  inside : ∀ r text b e, Matches r text b e → b ≤ e ∧ e ≤ text.length
  found : ∀ r text b e, regexec r text = some (b, e) →
    Matches r text b e ∧ ∀ b' e', Matches r text b' e' → b ≤ b'
  missed : ∀ r text, regexec r text = none → ∀ b e, ¬ Matches r text b e

inductive pattern_t
  | T_STRING (text : List Char)
  | other

structure reg_match where
  tok_i : Nat
  begin : Nat
  fin : Nat
deriving DecidableEq, Repr

inductive ended_t (T : Type)
  | ret (strings : List (List Char)) (tokens : List T)
  | error (message : String)
  /-- Memory after the subject is read. -/
  | wild
deriving DecidableEq

structure config_t where
  max_array_size : Nat
  max_string_length : Nat

variable {R T : Type} (engine : regexp_t R)

/-! ## The matches -/

/-- The loop over the patterns. The first one that matches at `tmp` is taken at once. -/
def next_match (str : List Char) (tmp : Nat) : List R → Nat → Option reg_match → Option reg_match
  | [], _, best => best
  | r :: rgpp, i, best =>
    match engine.regexec r (str.drop tmp) with
    | none => next_match str tmp rgpp (i + 1) best
    | some (b, e) =>
      let currstart : reg_match := ⟨i, tmp + b, tmp + e⟩
      if currstart.begin = tmp then some currstart
      else if best.all fun laststart => currstart.begin < laststart.begin then
        next_match str tmp rgpp (i + 1) (some currstart)
      else next_match str tmp rgpp (i + 1) best

/-- The `while` loop. After an empty match it goes on with the next character, also when the match
is at the zero that ends the subject. -/
def collect (str : List Char) (rgpp : List R) : Nat → Nat → Option (List reg_match)
  | 0, _ => none
  | fuel + 1, tmp =>
    if tmp < str.length then
      match next_match engine str tmp rgpp 0 none with
      | none => some []
      | some rmp =>
        if rmp.begin = rmp.fin then
          if rmp.fin = str.length then none
          else (collect str rgpp fuel (rmp.fin + 1)).map (rmp :: ·)
        else (collect str rgpp fuel rmp.fin).map (rmp :: ·)
    else some []

/-! ## The arrays -/

def string_copy (config : config_t) (s : List Char) : List Char := s.take config.max_string_length

def assemble (config : config_t) (str : List Char) (tok : List T) (default : T) :
    Nat → List reg_match → Option (List (List Char) × List T)
  | tmp, [] => some ([string_copy config (str.drop tmp)], [default])
  | tmp, rmp :: rmph => do
    let token ← tok[rmp.tok_i]?
    let (sv1, sv2) ← assemble config str tok default rmp.fin rmph
    some (slice str tmp rmp.begin :: slice str rmp.begin rmp.fin :: sv1, default :: token :: sv2)

def texts : List pattern_t → Option (List (List Char))
  | [] => some []
  | .T_STRING text :: pat => (texts pat).map (text :: ·)
  | .other :: _ => none

def compile : List (List Char) → Except String (List R)
  | [] => .ok []
  | text :: pat =>
    match engine.regcomp text with
    | .error regexp_error => .error regexp_error
    | .ok r => (compile pat).map (r :: ·)

def illegal_array_size : String := "Illegal array size.\n"

def reg_assoc (config : config_t) (str : List Char) (pat : List pattern_t) (tok : List T)
    (default : T) : ended_t T :=
  if pat.length ≠ tok.length then .error "Pattern and token array sizes must be identical.\n"
  else
    match texts pat with
    | none => .error "Non-string found in pattern array.\n"
    | some pat =>
      if config.max_array_size < 2 then .error illegal_array_size
      else if pat = [] then .ret [string_copy config str] [default]
      else
        match compile engine pat with
        | .error regexp_error => .error regexp_error
        | .ok rgpp =>
          match collect engine str rgpp (str.length + 1) 0 with
          | none => .wild
          | some rmph =>
            if config.max_array_size < 2 * rmph.length + 1 then .error illegal_array_size
            else
              match assemble config str tok default 0 rmph with
              | none => .wild
              | some (sv1, sv2) => .ret sv1 sv2

/-! ## What is searched -/

/-- The patterns as programs: all of them are strings that the engine compiles. -/
def programs (pat : List pattern_t) : Option (List R) :=
  (texts pat).bind fun pat => (compile engine pat).toOption

variable (str : List Char) (rgpp : List R)

/-- The match that a search from `p` is to find: the leftmost one, of the earliest pattern. What
is before `p` is no part of the text. -/
structure Leftmost (p : Nat) (rmp : reg_match) : Prop where
  found : ∃ r b e, rgpp[rmp.tok_i]? = some r ∧ engine.regexec r (str.drop p) = some (b, e) ∧
    rmp.begin = p + b ∧ rmp.fin = p + e
  least : ∀ (i : Nat) r b e, rgpp[i]? = some r → engine.Matches r (str.drop p) b e →
    rmp.begin < p + b ∨ rmp.begin = p + b ∧ rmp.tok_i ≤ i

def reg_match.after (rmp : reg_match) : Nat := if rmp.begin = rmp.fin then rmp.fin + 1 else rmp.fin

inductive Reached : Nat → Prop
  | start : Reached 0
  | next {p : Nat} {rmp : reg_match} (h : Reached p) (hp : p < str.length)
      (hmatch : Leftmost engine str rgpp p rmp) : Reached rmp.after

/-- The matches that are to be found from a place on. -/
inductive Searched : Nat → List reg_match → Prop
  | ended : Searched str.length []
  | no_match {p : Nat} (h : ∀ r ∈ rgpp, ∀ b e, ¬ engine.Matches r (str.drop p) b e) : Searched p []
  | next {p : Nat} {rmp : reg_match} {rmph : List reg_match} (hp : p < str.length)
      (hmatch : Leftmost engine str rgpp p rmp) (h : Searched rmp.after rmph) :
      Searched p (rmp :: rmph)

end mudos.matching
