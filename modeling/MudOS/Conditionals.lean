-- Conditional groups: `#if` to `#endif` in `yylex` of `lex.c` and the handlers of
-- `preprocess.c`, over a text that is all in the buffer. The values of the
-- conditions, the tokens and what the other directives do are parameters.
import Mathlib.Data.List.Basic

namespace mudos.conditionals

/-! ## Characters -/

abbrev newline : UInt8 := 10
abbrev quote_char : UInt8 := 34
abbrev hash : UInt8 := 35
abbrev star : UInt8 := 42
abbrev slash : UInt8 := 47

def isspace (c : UInt8) : Bool := c = 32 || 9 ≤ c && c ≤ 13

/-- `lex_ctype`: white space that does not end a line. -/
def is_wspace (c : UInt8) : Bool := isspace c && c ≠ newline

/-! ## The words -/

abbrev IF : List UInt8 := [105, 102]
abbrev IFDEF : List UInt8 := [105, 102, 100, 101, 102]
abbrev IFNDEF : List UInt8 := [105, 102, 110, 100, 101, 102]
abbrev ELIF : List UInt8 := [101, 108, 105, 102]
abbrev ELSE : List UInt8 := [101, 108, 115, 101]
abbrev ENDIF : List UInt8 := [101, 110, 100, 105, 102]

def opens (b : List UInt8) : Bool := b = IF || b = IFDEF || b = IFNDEF

/-- `char b[20]` -/
def skip_word (startp : List UInt8) : List UInt8 := (startp.takeWhile fun c => !isspace c).take 19

/-! ## The state -/

inductive expect_t
  | EXPECT_ELSE
  | EXPECT_ENDIF
deriving DecidableEq

/-- What the compiler gets, with `current_line` when it has been read. -/
inductive compiled_t
  | token (text : List UInt8) (line : Nat)
  /-- Another directive, such as `#define`, takes effect. -/
  | directive (text : List UInt8) (line : Nat)
deriving DecidableEq

structure lexer where
  outp : List UInt8
  /-- The character before `outp` is a newline. -/
  line_start : Bool
  iftop : List expect_t
  current_line : Nat
  /-- How many conditions have been evaluated. -/
  conds : Nat
  compiled : List compiled_t
  errors : Nat
  /-- Something has been read behind the end of the text. -/
  outside : Bool
deriving DecidableEq

def start (text : List UInt8) : lexer where
  outp := text
  line_start := true
  iftop := []
  current_line := 1
  conds := 0
  compiled := []
  errors := 0
  outside := false

def yyerror (s : lexer) : lexer := { s with errors := s.errors + 1 }

/-! ## Skipping -/

inductive skipped_t
  /-- Up to the directive, where the `#` is written before its word again. -/
  | found (outp : List UInt8) (lines : Nat)
  | end_of_file (lines : Nat)

/-- The loop of `skip_to`, at `yyp`, after so many lines. -/
def skip_loop (token : List UInt8) (atoken : Option (List UInt8)) :
    (line_start : Bool) → (nest lines : Nat) → List UInt8 → skipped_t
  | _, _, lines, [] => .end_of_file lines
  | line_start, nest, lines, c :: yyp =>
    if c = newline then skip_loop token atoken true nest (lines + 1) yyp
    else if line_start ∧ c = hash then
      let startp := yyp.dropWhile is_wspace
      let b := skip_word startp
      if opens b then skip_loop token atoken false (nest + 1) lines yyp
      else if nest > 0 then
        skip_loop token atoken false (if b = ENDIF then nest - 1 else nest) lines yyp
      else if b = token ∨ some b = atoken ∨ b = ELIF then .found (hash :: startp) lines
      else skip_loop token atoken false nest lines yyp
    else skip_loop token atoken false nest lines yyp

def skip_to (token : List UInt8) (atoken : Option (List UInt8)) (s : lexer) : lexer :=
  match skip_loop token atoken true 0 0 s.outp with
  | .found outp lines =>
    { s with
      outp
      current_line := s.current_line + lines }
  | .end_of_file lines =>
    yyerror { s with
      outp := []
      current_line := s.current_line + lines }

/-! ## The handlers -/

def handle_cond (c : Bool) (s : lexer) : lexer :=
  let s := if c then s else skip_to ELSE (some ENDIF) s
  { s with iftop := (if c then .EXPECT_ENDIF else .EXPECT_ELSE) :: s.iftop }

variable (cond : Nat → Bool)

def evaluate (s : lexer) : lexer := handle_cond (cond s.conds) { s with conds := s.conds + 1 }

def handle_elif (s : lexer) : lexer :=
  match s.iftop with
  | .EXPECT_ELSE :: iftop => evaluate cond { s with iftop }
  | .EXPECT_ENDIF :: _ => skip_to ENDIF none s
  | [] => yyerror s

def handle_else (s : lexer) : lexer :=
  match s.iftop with
  | .EXPECT_ELSE :: iftop => { s with iftop := .EXPECT_ENDIF :: iftop }
  | .EXPECT_ENDIF :: _ => skip_to ENDIF none s
  | [] => yyerror s

def handle_endif (s : lexer) : lexer :=
  match s.iftop with
  | _ :: iftop => { s with iftop }
  | [] => yyerror s

/-! ## Reading -/

/-- What the next character of a directive is: text, a character behind a comment, which is taken as
it is, or one in a comment. -/
inductive mode_t
  | text
  | behind_comment
  | comment_start
  | comment
  | comment_end
  | line_comment

/-- The text of a directive without its comments, the newlines in them, and what is behind its own
newline. There may be none. -/
def read_directive : mode_t → (quote : Bool) → (yytext : List UInt8) → (lines : Nat) →
    List UInt8 → Option (List UInt8 × Nat × List UInt8)
  | _, _, _, _, [] => none
  | mode, quote, yytext, lines, c :: outp =>
    match mode with
    | .text =>
      if c = newline then some (yytext, lines, outp)
      else if c = quote_char then read_directive .text (!quote) (yytext ++ [c]) lines outp
      else if c = slash ∧ quote = false ∧ outp.head? = some star then
        read_directive .comment_start quote yytext lines outp
      else if c = slash ∧ quote = false ∧ outp.head? = some slash then
        read_directive .line_comment quote yytext lines outp
      else read_directive .text quote (yytext ++ [c]) lines outp
    | .behind_comment =>
      if c = newline then some (yytext, lines, outp)
      else read_directive .text quote (yytext ++ [c]) lines outp
    | .comment_start => read_directive .comment quote yytext lines outp
    | .comment =>
      if c = star ∧ outp.head? = some slash then read_directive .comment_end quote yytext lines outp
      else read_directive .comment quote yytext (if c = newline then lines + 1 else lines) outp
    | .comment_end => read_directive .behind_comment quote yytext lines outp
    | .line_comment =>
      if c = newline then some (yytext, lines, outp)
      else read_directive .line_comment quote yytext lines outp

def word (yytext : List UInt8) : List UInt8 := yytext.takeWhile fun c => !isspace c

/-- What is read behind the cursor: its text, what is behind it, and the newlines in it. -/
abbrev token_t := List UInt8 → List UInt8 × List UInt8 × Nat

-- What another directive takes, beginning behind its own line: a `#define` may go on there.
variable (other : List UInt8 → token_t)

/-- What is done for a directive. Then its newline is written again. -/
def directive (yytext : List UInt8) (s : lexer) : lexer :=
  let s :=
    if opens (word yytext) then evaluate cond s
    else if word yytext = ELIF then handle_elif cond s
    else if word yytext = ELSE then handle_else s
    else if word yytext = ENDIF then handle_endif s
    else
      let (text, outp, lines) := other yytext s.outp
      { s with
        outp
        current_line := s.current_line + lines
        compiled := s.compiled ++ [.directive text (s.current_line + lines)] }
  { s with
    outp := newline :: s.outp
    line_start := false }

/-- Up to the next token or newline, or the effect of a directive. The blanks that `yylex` looks
over behind some tokens are left to the next step, which does the same with them. -/
def step (token : token_t) (s : lexer) : Option lexer :=
  match s.outp with
  | [] => none
  | c :: outp =>
    if c = newline then
      some { s with
        outp
        line_start := true
        current_line := s.current_line + 1 }
    else if c = hash ∧ s.line_start then
      match read_directive .text false [] 0 (outp.dropWhile is_wspace) with
      | none =>
        some { s with
          outp := []
          outside := true }
      | some (yytext, lines, outp) =>
        some (directive cond other yytext { s with
          outp
          current_line := s.current_line + lines })
    else
      let (text, outp, lines) := token s.outp
      some { s with
        outp
        line_start := false
        current_line := s.current_line + lines
        compiled := s.compiled ++ [.token text (s.current_line + lines)] }

end mudos.conditionals
