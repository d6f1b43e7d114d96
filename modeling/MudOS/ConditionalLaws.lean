-- The groups that are compiled are those that C selects, whatever the conditions are
-- worth, if `skip_to` and `yylex` read the same word behind each `#` that is skipped.
import MudOS.Conditionals
import Mathlib.Data.List.DropRight
import Mathlib.Logic.Function.Iterate
import Mathlib.Logic.Relation

open List

namespace mudos.conditionals

variable {l outp x y : List UInt8} {s : lexer} {iftop : List expect_t}
variable {b : List UInt8} {iftop' : List expect_t}

/-! ## Texts with groups -/

/-- What is behind a `#` up to the end of the line, and the text of the directive. -/
structure dline where
  text : List UInt8
  yytext : List UInt8
deriving DecidableEq

mutual

/-- A line that is no directive comes with its tokens and the newlines in them, another directive
with what it does. There may be newlines in comments and strings. -/
inductive text
  | nil
  | line (l : List UInt8) (tokens : List (List UInt8 × Nat)) (t : text)
  | directive (d : dline) (effect : List UInt8) (t : text)
  /-- The lines behind `#if`, and the rest up to `#endif`. -/
  | cond (d : dline) (group : text) (more : branches) (t : text)

inductive branches
  | endif (d : dline)
  | elif (d : dline) (group : text) (more : branches)
  | else_ (d : dline) (group : text) (d' : dline)

end

def dline.source (d : dline) (rest : List UInt8) : List UInt8 := hash :: (d.text ++ newline :: rest)

mutual

def text.source : text → List UInt8 → List UInt8
  | .nil, rest => rest
  | .line l _ t, rest => l ++ newline :: t.source rest
  | .directive d _ t, rest => d.source (t.source rest)
  | .cond d group more t, rest => d.source (group.source (more.source (t.source rest)))

def branches.source : branches → List UInt8 → List UInt8
  | .endif d, rest => d.source rest
  | .elif d group more, rest => d.source (group.source (more.source rest))
  | .else_ d group d', rest => d.source (group.source (d'.source rest))

end

def dline.lines (d : dline) : Nat := d.text.count newline + 1

mutual

def text.lines : text → Nat
  | .nil => 0
  | .line l _ t => l.count newline + 1 + t.lines
  | .directive d _ t => d.lines + t.lines
  | .cond d group more t => d.lines + group.lines + more.lines + t.lines

def branches.lines : branches → Nat
  | .endif d => d.lines
  | .elif d group more => d.lines + group.lines + more.lines
  | .else_ d group d' => d.lines + group.lines + d'.lines

end

/-- The `#` at the starts of its lines, as they are when nothing is read there by `yylex`. -/
def hashes : (line_start : Bool) → List UInt8 → List dline
  | _, [] => []
  | line_start, c :: l =>
    if c = newline then hashes true l
    else if line_start ∧ c = hash then ⟨l.takeWhile (· ≠ newline), []⟩ :: hashes false l
    else hashes false l

def dline.hashes (d : dline) : List dline := d :: conditionals.hashes false d.text

mutual

def text.hashes : text → List dline
  | .nil => []
  | .line l _ t => conditionals.hashes false l ++ t.hashes
  | .directive d _ t => d.hashes ++ t.hashes
  | .cond d group more t => d.hashes ++ (group.hashes ++ (more.hashes ++ t.hashes))

def branches.hashes : branches → List dline
  | .endif d => d.hashes
  | .elif d group more => d.hashes ++ (group.hashes ++ more.hashes)
  | .else_ d group d' => d.hashes ++ (group.hashes ++ d'.hashes)

end

def branches.head : branches → dline
  | .endif d => d
  | .elif d _ _ => d
  | .else_ d _ _ => d

def branches.after : branches → List UInt8 → List UInt8
  | .endif _, rest => rest
  | .elif _ group more, rest => group.source (more.source rest)
  | .else_ _ group d', rest => group.source (d'.source rest)

theorem branches.source_eq (more : branches) (rest : List UInt8) :
    more.source rest = more.head.source (more.after rest) := by cases more <;> rfl

/-! ## Which texts are meant -/

def conditional (b : List UInt8) : Bool := opens b || b = ELIF || b = ELSE || b = ENDIF

structure Reads (d : dline) : Prop where
  reads : ∀ rest, read_directive .text false [] 0 (d.text.dropWhile is_wspace ++ newline :: rest) =
    some (d.yytext, d.text.count newline, rest)

/-- Another directive does this, and takes the lines up to the end. -/
structure Executes (other : List UInt8 → token_t) (d : dline) (effect : List UInt8) : Prop where
  no_group : conditional (word d.yytext) = false
  executes : ∀ rest, ∃ lines outp more,
    read_directive .text false [] 0 (d.text.dropWhile is_wspace ++ newline :: rest) =
      some (d.yytext, lines, outp) ∧
    other d.yytext outp = (effect, rest, more) ∧ lines + more = d.text.count newline

/-- The characters are these tokens, when `rest` is behind them. -/
inductive Tokens (token : token_t) (rest : List UInt8) :
    List UInt8 → List (List UInt8 × Nat) → Prop
  | nil : Tokens token rest [] []
  | cons {c : UInt8} {u l p : List UInt8} {tokens : List (List UInt8 × Nat)} (hc : c ≠ newline)
      (htoken : token (c :: (u ++ (l ++ rest))) = (p, l ++ rest, u.count newline))
      (hrest : Tokens token rest l tokens) :
      Tokens token rest (c :: (u ++ l)) ((p, u.count newline) :: tokens)

/-- A line that is no directive, up to the newline that ends its last token. -/
structure Ordinary (token : token_t) (l : List UInt8) (tokens : List (List UInt8 × Nat)) :
    Prop where
  start : l.head? ≠ some hash
  tokens : ∀ rest, Tokens token (newline :: rest) l tokens

variable (other : List UInt8 → token_t) (token : token_t)

mutual

def text.Readable : text → Prop
  | .nil => True
  | .line l tokens t => Ordinary token l tokens ∧ t.Readable
  | .directive d effect t => Executes other d effect ∧ t.Readable
  | .cond d group more t => Reads d ∧ opens (word d.yytext) = true ∧ group.Readable ∧
    more.Readable ∧ t.Readable

def branches.Readable : branches → Prop
  | .endif d => Reads d ∧ word d.yytext = ENDIF
  | .elif d group more => Reads d ∧ word d.yytext = ELIF ∧ group.Readable ∧ more.Readable
  | .else_ d group d' => (Reads d ∧ word d.yytext = ELSE) ∧ group.Readable ∧ Reads d' ∧
    word d'.yytext = ENDIF

end

/-- `skip_to` reads the same word as `yylex`, or neither reads one of a group. -/
def Agrees (d : dline) : Prop :=
  skip_word (d.text.dropWhile is_wspace) = word d.yytext ∨
    conditional (skip_word (d.text.dropWhile is_wspace)) = false ∧
      conditional (word d.yytext) = false

instance (d : dline) : Decidable (Agrees d) := by
  unfold Agrees
  infer_instance

/-! ## What C selects -/

structure selection where
  compiled : List compiled_t
  /-- Every `#` that is skipped, or found behind a skipped group. -/
  skipped : List dline
  conds : Nat
  line : Nat

def selection.read (r : selection) (d : dline) : selection :=
  { r with line := r.line + d.text.count newline }

def selection.next (r : selection) (d : dline) : selection := { r with line := r.line + d.lines }

def selection.evaluated (r : selection) (d : dline) : selection :=
  { r.next d with conds := r.conds + 1 }

def selection.compile (r : selection) (compiled : List compiled_t) (lines : Nat) : selection :=
  { r with
    compiled := r.compiled ++ compiled
    line := r.line + lines }

def selection.see (r : selection) (ds : List dline) : selection :=
  { r with skipped := r.skipped ++ ds }

def selection.pass (r : selection) (group : text) : selection :=
  { r.see group.hashes with line := r.line + group.lines }

def placed : (line : Nat) → List (List UInt8 × Nat) → List compiled_t
  | _, [] => []
  | line, (p, lines) :: tokens => .token p (line + lines) :: placed (line + lines) tokens

/-- What is looked at when `#endif` is sought: an `#else` is passed. -/
def branches.seen : branches → List dline
  | .endif d => [d]
  | .elif d _ _ => [d]
  | .else_ d _ _ => d.hashes

def branches.skip : branches → selection → selection
  | .endif d, r => r.next d
  | .elif d group more, r => more.skip (((r.next d).pass group).see more.seen)
  | .else_ d group d', r => (((r.next d).pass group).see [d']).next d'

variable (cond : Nat → Bool)

mutual

def text.select : text → selection → selection
  | .nil, r => r
  | .line l tokens t, r => t.select (r.compile (placed r.line tokens) (l.count newline + 1))
  | .directive d effect t, r =>
    t.select (r.compile [.directive effect (r.line + d.text.count newline)] d.lines)
  | .cond d group more t, r =>
    t.select (if cond r.conds then more.skip (group.select (r.evaluated d))
      else more.choose (((r.evaluated d).pass group).see [more.head]))

def branches.choose : branches → selection → selection
  | .endif d, r => r.next d
  | .elif d group more, r =>
    if cond r.conds then more.skip (group.select (r.evaluated d))
    else more.choose (((r.evaluated d).pass group).see [more.head])
  | .else_ d group d', r => (group.select (r.next d)).next d'

end

/-! ## White space -/

theorem dropWhile_line (l rest : List UInt8) :
    (l ++ newline :: rest).dropWhile is_wspace = l.dropWhile is_wspace ++ newline :: rest := by
  induction l with
  | nil => rfl
  | cons c l ih =>
    rw [cons_append, dropWhile_cons, dropWhile_cons]
    split_ifs
    · exact ih
    · rfl

theorem skip_word_line (rest : List UInt8) : skip_word (l ++ newline :: rest) = skip_word l := by
  have htake : (l ++ newline :: rest).takeWhile (fun c => !isspace c) =
      l.takeWhile fun c => !isspace c := by
    induction l with
    | nil => rfl
    | cons c l ih =>
      rw [cons_append, takeWhile_cons, takeWhile_cons, ih]
  rw [skip_word, skip_word, htake]

/-! ## Skipping -/

variable {other} {token} {cond} {tok : List UInt8} {atok : Option (List UInt8)}

variable {d : dline}

theorem agrees_word (h : Agrees d) (hb : word d.yytext = b) (hconditional : conditional b = true) :
    skip_word (d.text.dropWhile is_wspace) = b := by
  rcases h with h | ⟨-, h⟩
  · rw [h, hb]
  · simp [hb, hconditional] at h

theorem agrees_other (h : Agrees d) (hother : conditional (word d.yytext) = false) :
    conditional (skip_word (d.text.dropWhile is_wspace)) = false := by
  rcases h with h | ⟨h, -⟩
  · rwa [h]
  · exact h

theorem skip_other (hword : conditional (skip_word (l.dropWhile is_wspace)) = false)
    (htok : conditional tok = true) (hatok : ∀ b ∈ atok, conditional b = true) (nest lines : Nat) :
    skip_loop tok atok true nest lines (hash :: l) = skip_loop tok atok false nest lines l := by
  have hb := hword
  simp only [conditional, Bool.or_eq_false_iff, decide_eq_false_iff_not] at hb
  obtain ⟨⟨⟨hopens, helif⟩, -⟩, hendif⟩ := hb
  have hstop : ¬ (skip_word (l.dropWhile is_wspace) = tok ∨
      some (skip_word (l.dropWhile is_wspace)) = atok ∨
      skip_word (l.dropWhile is_wspace) = ELIF) := by
    rintro (h | h | h)
    · simp [h, htok] at hword
    · simp [hatok _ h.symm] at hword
    · exact helif h
  rw [skip_loop, if_neg (by decide), if_pos ⟨rfl, rfl⟩]
  simp [hopens, if_neg hendif, if_neg hstop]

theorem line_split (l rest : List UInt8) :
    ∃ rest', l ++ newline :: rest = l.takeWhile (· ≠ newline) ++ newline :: rest' := by
  induction l with
  | nil => exact ⟨rest, rfl⟩
  | cons c l ih =>
    obtain ⟨rest', hrest'⟩ := ih
    by_cases hc : c = newline
    · exact ⟨l ++ newline :: rest, by simp [hc]⟩
    · refine ⟨rest', ?_⟩
      rw [takeWhile_cons_of_pos (by simpa using hc), cons_append, cons_append,
        hrest']

theorem skip_line (htok : conditional tok = true) (hatok : ∀ b ∈ atok, conditional b = true) :
    ∀ (l : List UInt8) (line_start : Bool), (∀ d ∈ hashes line_start l, Agrees d) →
      ∀ nest lines rest, skip_loop tok atok line_start nest lines (l ++ newline :: rest) =
        skip_loop tok atok true nest (lines + (l.count newline + 1)) rest := by
  intro l
  induction l with
  | nil =>
    intro line_start _ nest lines rest
    rw [nil_append, skip_loop, if_pos rfl]
    rfl
  | cons c l ih =>
    intro line_start hagrees nest lines rest
    unfold hashes at hagrees
    by_cases hc : c = newline
    · rw [if_pos hc] at hagrees
      rw [cons_append, skip_loop, if_pos hc, ih true hagrees, hc, count_cons_self]
      congr 1
      omega
    · rw [if_neg hc] at hagrees
      rw [count_cons_of_ne hc]
      by_cases hhash : line_start = true ∧ c = hash
      · rw [if_pos hhash] at hagrees
        obtain ⟨rfl, rfl⟩ := hhash
        obtain ⟨rest', hrest'⟩ := line_split l rest
        have hword := agrees_other (hagrees _ mem_cons_self) rfl
        rw [← skip_word_line rest', ← dropWhile_line, ← hrest'] at hword
        rw [cons_append, skip_other hword htok hatok]
        exact ih false (fun d hd => hagrees d (mem_cons_of_mem _ hd)) nest lines rest
      · rw [if_neg hhash] at hagrees
        rw [cons_append, skip_loop, if_neg hc, if_neg hhash]
        exact ih false hagrees nest lines rest

theorem hashes_start (hstart : l.head? ≠ some hash) : hashes true l = hashes false l := by
  cases l with
  | nil => rfl
  | cons c l =>
    have hc : c ≠ hash := fun hc => hstart (by rw [hc]; rfl)
    simp [hashes, hc]

theorem skip_directive (hb : skip_word (d.text.dropWhile is_wspace) = b) (nest lines : Nat)
    (rest : List UInt8) :
    skip_loop tok atok true nest lines (d.source rest) =
      if opens b then skip_loop tok atok false (nest + 1) lines (d.text ++ newline :: rest)
      else if nest > 0 then
        skip_loop tok atok false (if b = ENDIF then nest - 1 else nest) lines
          (d.text ++ newline :: rest)
      else if b = tok ∨ some b = atok ∨ b = ELIF then
        .found (hash :: (d.text.dropWhile is_wspace ++ newline :: rest)) lines
      else skip_loop tok atok false nest lines (d.text ++ newline :: rest) := by
  rw [dline.source, skip_loop, if_neg (by decide), if_pos ⟨rfl, rfl⟩]
  simp [dropWhile_line, skip_word_line, hb]

theorem skip_endif (htok : conditional tok = true) (hatok : ∀ b ∈ atok, conditional b = true)
    (hagrees : ∀ d' ∈ d.hashes, Agrees d') (hword : word d.yytext = ENDIF) (nest lines : Nat)
    (rest : List UInt8) :
    skip_loop tok atok true (nest + 1) lines (d.source rest) =
      skip_loop tok atok true nest (lines + d.lines) rest := by
  rw [skip_directive (agrees_word (hagrees d mem_cons_self) hword rfl), if_neg (by decide),
    if_pos (Nat.succ_pos nest), if_pos rfl, Nat.add_sub_cancel]
  exact skip_line htok hatok d.text false
    (fun d' hd' => hagrees d' (mem_cons_of_mem d hd')) _ _ _

theorem skip_inner (htok : conditional tok = true) (hatok : ∀ b ∈ atok, conditional b = true)
    (hagrees : ∀ d' ∈ d.hashes, Agrees d') (hword : word d.yytext = ELIF ∨ word d.yytext = ELSE)
    (nest lines : Nat) (rest : List UInt8) :
    skip_loop tok atok true (nest + 1) lines (d.source rest) =
      skip_loop tok atok true (nest + 1) (lines + d.lines) rest := by
  have hb : conditional (word d.yytext) = true ∧ opens (word d.yytext) = false ∧
      word d.yytext ≠ ENDIF := by
    rcases hword with hword | hword <;> rw [hword] <;> decide
  rw [skip_directive (agrees_word (hagrees d mem_cons_self) rfl hb.1),
    if_neg (by simp [hb.2.1]), if_pos (Nat.succ_pos nest), if_neg hb.2.2]
  exact skip_line htok hatok d.text false
    (fun d' hd' => hagrees d' (mem_cons_of_mem d hd')) _ _ _

mutual

theorem skip_text (htok : conditional tok = true) (hatok : ∀ b ∈ atok, conditional b = true) :
    ∀ (t : text), t.Readable other token → (∀ d ∈ t.hashes, Agrees d) → ∀ nest lines rest,
      skip_loop tok atok true nest lines (t.source rest) =
        skip_loop tok atok true nest (lines + t.lines) rest
  | .nil, _, _, nest, lines, rest => rfl
  | .line l tokens t, h, hagrees, nest, lines, rest => by
    rw [text.hashes, forall_mem_append, ← hashes_start h.1.start] at hagrees
    rw [text.source, skip_line htok hatok l true hagrees.1, skip_text htok hatok t h.2 hagrees.2,
      text.lines, Nat.add_assoc]
  | .directive d effect t, h, hagrees, nest, lines, rest => by
    rw [text.hashes, forall_mem_append] at hagrees
    obtain ⟨hhashes, ht⟩ := hagrees
    have hword := agrees_other (hhashes d mem_cons_self) h.1.no_group
    rw [← skip_word_line (t.source rest), ← dropWhile_line] at hword
    rw [text.source, dline.source, skip_other hword htok hatok,
      skip_line htok hatok d.text false fun d' hd' => hhashes d' (mem_cons_of_mem d hd'),
      skip_text htok hatok t h.2 ht, text.lines, dline.lines, Nat.add_assoc]
  | .cond d group more t, h, hagrees, nest, lines, rest => by
    obtain ⟨hread, hopens, hgroup, hmore, ht⟩ := h
    simp only [text.hashes, forall_mem_append] at hagrees
    obtain ⟨hhashes, hgroups, hmores, hts⟩ := hagrees
    have hb := agrees_word (hhashes d mem_cons_self) rfl (by simp [conditional, hopens])
    rw [text.source, skip_directive hb, if_pos hopens,
      skip_line htok hatok d.text false fun d' hd' => hhashes d' (mem_cons_of_mem d hd'),
      skip_text htok hatok group hgroup hgroups, skip_branches htok hatok more hmore hmores,
      skip_text htok hatok t ht hts, text.lines, dline.lines]
    simp [Nat.add_assoc]

theorem skip_branches (htok : conditional tok = true) (hatok : ∀ b ∈ atok, conditional b = true) :
    ∀ (more : branches), more.Readable other token → (∀ d ∈ more.hashes, Agrees d) →
      ∀ nest lines rest, skip_loop tok atok true (nest + 1) lines (more.source rest) =
        skip_loop tok atok true nest (lines + more.lines) rest
  | .endif d, h, hagrees, nest, lines, rest => skip_endif htok hatok hagrees h.2 nest lines rest
  | .elif d group more, h, hagrees, nest, lines, rest => by
    obtain ⟨hread, hword, hgroup, hmore⟩ := h
    simp only [branches.hashes, forall_mem_append] at hagrees
    obtain ⟨hhashes, hgroups, hmores⟩ := hagrees
    rw [branches.source, skip_inner htok hatok hhashes (.inl hword),
      skip_text htok hatok group hgroup hgroups, skip_branches htok hatok more hmore hmores,
      branches.lines]
    simp [Nat.add_assoc]
  | .else_ d group d', h, hagrees, nest, lines, rest => by
    obtain ⟨⟨hread, hword⟩, hgroup, hread', hword'⟩ := h
    simp only [branches.hashes, forall_mem_append] at hagrees
    obtain ⟨hhashes, hgroups, hhashes'⟩ := hagrees
    rw [branches.source, skip_inner htok hatok hhashes (.inr hword),
      skip_text htok hatok group hgroup hgroups, skip_endif htok hatok hhashes' hword',
      branches.lines]
    simp [Nat.add_assoc]

end

theorem endif_only : ∀ b ∈ some ENDIF, conditional b = true := by
  intro b hb
  rw [Option.mem_some_iff] at hb
  rw [← hb]
  rfl

theorem none_only : ∀ b ∈ (none : Option (List UInt8)), conditional b = true := by
  intro b hb
  cases hb

theorem skip_found (hagrees : Agrees d) (hword : word d.yytext = b)
    (hconditional : conditional b = true) (hopens : opens b = false)
    (hstop : b = tok ∨ some b = atok ∨ b = ELIF) (lines : Nat) (rest : List UInt8) :
    skip_loop tok atok true 0 lines (d.source rest) =
      .found (hash :: (d.text.dropWhile is_wspace ++ newline :: rest)) lines := by
  rw [skip_directive (agrees_word hagrees hword hconditional), if_neg (by simp [hopens]),
    if_neg (Nat.lt_irrefl 0), if_pos hstop]

variable {more : branches}

theorem skip_head (hreadable : more.Readable other token) (hagrees : Agrees more.head) (lines : Nat)
    (rest : List UInt8) :
    skip_loop ELSE (some ENDIF) true 0 lines (more.source rest) =
      .found (hash :: (more.head.text.dropWhile is_wspace ++ newline :: more.after rest))
        lines := by
  rw [branches.source_eq]
  cases more with
  | endif d => exact skip_found hagrees hreadable.2 rfl rfl (.inr (.inl rfl)) _ _
  | elif d group more => exact skip_found hagrees hreadable.2.1 rfl rfl (.inr (.inr rfl)) _ _
  | else_ d group d' => exact skip_found hagrees hreadable.1.2 rfl rfl (.inl rfl) _ _

/-! ## Steps -/

def Leads (cond : Nat → Bool) (other : List UInt8 → token_t) (token : token_t) :
    lexer → lexer → Prop :=
  Relation.ReflTransGen fun a b => step cond other token a = some b

def lexer_at (outp : List UInt8) (iftop : List expect_t) (r : selection) : lexer where
  outp
  line_start := true
  iftop
  current_line := r.line
  conds := r.conds
  compiled := r.compiled
  errors := 0
  outside := false

theorem step_newline (houtp : s.outp = newline :: outp) :
    step cond other token s = some
      { s with
        outp
        line_start := true
        current_line := s.current_line + 1 } := by
  unfold step
  rw [houtp]
  rfl

theorem step_token {c : UInt8} {p : List UInt8} {lines : Nat} (houtp : s.outp = c :: l)
    (hnewline : c ≠ newline) (hstart : s.line_start = true → c ≠ hash)
    (htoken : token (c :: l) = (p, outp, lines)) :
    step cond other token s = some
      { s with
        outp
        line_start := false
        current_line := s.current_line + lines
        compiled := s.compiled ++ [.token p (s.current_line + lines)] } := by
  have hhash : ¬ (c = hash ∧ s.line_start = true) := fun h => hstart h.2 h.1
  unfold step
  rw [houtp]
  simp [if_neg hnewline, if_neg hhash, htoken]

variable {r : selection}

theorem step_directive {rest : List UInt8} {lines : Nat}
    (hread : read_directive .text false [] 0 ((x ++ newline :: rest).dropWhile is_wspace) =
      some (y, lines, outp)) :
    step cond other token (lexer_at (hash :: (x ++ newline :: rest)) iftop r) =
      some (directive cond other y (lexer_at outp iftop { r with line := r.line + lines })) := by
  unfold step
  simp [lexer_at, if_neg (show hash ≠ newline by decide), hread]

theorem leads_directive {rest : List UInt8} {lines : Nat}
    (hread : read_directive .text false [] 0 ((x ++ newline :: rest).dropWhile is_wspace) =
      some (y, lines, outp))
    (hdirective : directive cond other y (lexer_at outp iftop { r with line := r.line + lines }) =
      { s with
        outp := newline :: s.outp
        line_start := false }) :
    Leads cond other token (lexer_at (hash :: (x ++ newline :: rest)) iftop r)
      { s with
        line_start := true
        current_line := s.current_line + 1 } := by
  have hfirst : Leads cond other token (lexer_at (hash :: (x ++ newline :: rest)) iftop r)
      { s with
        outp := newline :: s.outp
        line_start := false } := by
    refine Relation.ReflTransGen.single ?_
    rw [step_directive hread, hdirective]
  have hnext : step cond other token
      { s with
        outp := newline :: s.outp
        line_start := false } = some
      { s with
        line_start := true
        current_line := s.current_line + 1 } := step_newline rfl
  exact hfirst.tail hnext

theorem reads_line (hread : Reads d) (htrim : x.dropWhile is_wspace = d.text.dropWhile is_wspace)
    (rest : List UInt8) :
    read_directive .text false [] 0 ((x ++ newline :: rest).dropWhile is_wspace) =
      some (d.yytext, d.text.count newline, rest) := by rw [dropWhile_line, htrim, hread.reads]

theorem directive_opens (h : opens (word y) = true) (s : lexer) :
    directive cond other y s =
      { evaluate cond s with
        outp := newline :: (evaluate cond s).outp
        line_start := false } := by
  unfold directive
  simp [if_pos h]

theorem directive_elif (h : word y = ELIF) (s : lexer) :
    directive cond other y s =
      { handle_elif cond s with
        outp := newline :: (handle_elif cond s).outp
        line_start := false } := by
  unfold directive
  rw [h]
  rfl

theorem directive_else (h : word y = ELSE) (s : lexer) :
    directive cond other y s =
      { handle_else s with
        outp := newline :: (handle_else s).outp
        line_start := false } := by
  unfold directive
  rw [h]
  rfl

theorem directive_endif (h : word y = ENDIF) (s : lexer) :
    directive cond other y s =
      { handle_endif s with
        outp := newline :: (handle_endif s).outp
        line_start := false } := by
  unfold directive
  rw [h]
  rfl

theorem directive_other {text : List UInt8} {lines : Nat} (h : conditional (word y) = false)
    (s : lexer) (hother : other y s.outp = (text, outp, lines)) :
    directive cond other y s =
      { s with
        outp := newline :: outp
        line_start := false
        current_line := s.current_line + lines
        compiled := s.compiled ++ [.directive text (s.current_line + lines)] } := by
  simp only [conditional, Bool.or_eq_false_iff, decide_eq_false_iff_not] at h
  obtain ⟨⟨⟨hopens, helif⟩, helse⟩, hendif⟩ := h
  unfold directive
  simp [hopens, if_neg helif, if_neg helse, if_neg hendif, hother]

theorem leads_tokens {rest : List UInt8} {tokens : List (List UInt8 × Nat)}
    (htokens : Tokens token rest l tokens) :
    ∀ s : lexer, s.outp = l ++ rest → (s.line_start = true → l.head? ≠ some hash) →
      ∃ b, Leads cond other token s
        { s with
          outp := rest
          line_start := b
          current_line := s.current_line + l.count newline
          compiled := s.compiled ++ placed s.current_line tokens } := by
  induction htokens with
  | nil =>
    intro s houtp _
    refine ⟨s.line_start, ?_⟩
    rw [nil_append] at houtp
    simp only [placed, append_nil, count_nil, Nat.add_zero, ← houtp]
    exact Relation.ReflTransGen.refl
  | @cons c u l p tokens hc htoken _ ih =>
    intro s houtp hstart
    rw [cons_append, append_assoc] at houtp
    have hhash : s.line_start = true → c ≠ hash := fun hb hc => hstart hb (by rw [hc]; rfl)
    have hstep : step cond other token s = _ := step_token houtp hc hhash htoken
    obtain ⟨b, hrest⟩ := ih
      { s with
        outp := l ++ rest
        line_start := false
        current_line := s.current_line + u.count newline
        compiled := s.compiled ++ [.token p (s.current_line + u.count newline)] }
      rfl (fun hb => absurd hb Bool.false_ne_true)
    refine ⟨b, Relation.ReflTransGen.head hstep ?_⟩
    have hcount : (c :: (u ++ l)).count newline = u.count newline + l.count newline := by
      rw [count_cons_of_ne hc, count_append]
    simp only [append_assoc, singleton_append, Nat.add_assoc] at hrest
    simp only [hcount, placed]
    exact hrest

theorem leads_line {tokens : List (List UInt8 × Nat)} (h : Ordinary token l tokens)
    (rest : List UInt8) (iftop : List expect_t) (r : selection) :
    Leads cond other token (lexer_at (l ++ newline :: rest) iftop r)
      (lexer_at rest iftop (r.compile (placed r.line tokens) (l.count newline + 1))) := by
  have htokens : ∃ b, Leads cond other token _ _ := leads_tokens (h.tokens rest)
    (lexer_at (l ++ newline :: rest) iftop r) rfl (fun _ => h.start)
  obtain ⟨b, hline⟩ := htokens
  exact hline.tail (step_newline rfl)

theorem leads_endif (hread : Reads d) (hword : word d.yytext = ENDIF)
    (htrim : x.dropWhile is_wspace = d.text.dropWhile is_wspace) (rest : List UInt8) (e : expect_t)
    (iftop : List expect_t) (r : selection) :
    Leads cond other token (lexer_at (hash :: (x ++ newline :: rest)) (e :: iftop) r)
      (lexer_at rest iftop (r.next d)) :=
  leads_directive (reads_line hread htrim rest) (s := lexer_at rest iftop (r.read d))
    (directive_endif hword _)

theorem leads_else (hread : Reads d) (hword : word d.yytext = ELSE)
    (htrim : x.dropWhile is_wspace = d.text.dropWhile is_wspace) (rest : List UInt8)
    (iftop : List expect_t) (r : selection) :
    Leads cond other token (lexer_at (hash :: (x ++ newline :: rest)) (.EXPECT_ELSE :: iftop) r)
      (lexer_at rest (.EXPECT_ENDIF :: iftop) (r.next d)) :=
  leads_directive (reads_line hread htrim rest)
    (s := lexer_at rest (.EXPECT_ENDIF :: iftop) (r.read d)) (directive_else hword _)

theorem leads_other {effect : List UInt8} (h : Executes other d effect) (rest : List UInt8)
    (iftop : List expect_t) (r : selection) :
    Leads cond other token (lexer_at (d.source rest) iftop r)
      (lexer_at rest iftop
        (r.compile [.directive effect (r.line + d.text.count newline)] d.lines)) := by
  obtain ⟨lines, outp, more, hread, hother, hlines⟩ := h.executes rest
  rw [← dropWhile_line] at hread
  have hline : r.line + lines + more = r.line + d.text.count newline := by
    rw [Nat.add_assoc, hlines]
  have hdirective : directive cond other d.yytext
        (lexer_at outp iftop { r with line := r.line + lines }) =
      { lexer_at rest iftop (r.compile [.directive effect (r.line + d.text.count newline)]
          (d.text.count newline)) with
        outp := newline :: rest
        line_start := false } := by
    rw [directive_other h.no_group _ hother]
    simp [lexer_at, selection.compile, hline]
  have hleads : Leads cond other token _ _ := leads_directive hread
    (s := lexer_at rest iftop (r.compile [.directive effect (r.line + d.text.count newline)]
      (d.text.count newline))) hdirective
  exact hleads

theorem leads_true (hread : Reads d) (htrim : x.dropWhile is_wspace = d.text.dropWhile is_wspace)
    {rest : List UInt8}
    (hdirective : directive cond other d.yytext (lexer_at rest iftop (r.read d)) =
      { evaluate cond (lexer_at rest iftop' (r.read d)) with
        outp := newline :: (evaluate cond (lexer_at rest iftop' (r.read d))).outp
        line_start := false }) (hcond : cond r.conds = true) :
    Leads cond other token (lexer_at (hash :: (x ++ newline :: rest)) iftop r)
      (lexer_at rest (.EXPECT_ENDIF :: iftop') (r.evaluated d)) := by
  have hevaluate : evaluate cond (lexer_at rest iftop' (r.read d)) =
      lexer_at rest (.EXPECT_ENDIF :: iftop') { r.read d with conds := r.conds + 1 } := by
    unfold evaluate handle_cond
    simp [lexer_at, selection.read, hcond]
  rw [hevaluate] at hdirective
  exact leads_directive (reads_line hread htrim rest)
    (s := lexer_at rest (.EXPECT_ENDIF :: iftop') { r.read d with conds := r.conds + 1 }) hdirective

theorem leads_false (hread : Reads d) (htrim : x.dropWhile is_wspace = d.text.dropWhile is_wspace)
    {group : text} {rest : List UInt8} (hdirective : directive cond other d.yytext
        (lexer_at (group.source (more.source rest)) iftop (r.read d)) =
      { evaluate cond (lexer_at (group.source (more.source rest)) iftop' (r.read d)) with
        outp := newline ::
          (evaluate cond (lexer_at (group.source (more.source rest)) iftop' (r.read d))).outp
        line_start := false }) (hcond : cond r.conds = false) (hgroup : group.Readable other token)
    (hmore : more.Readable other token)
    (hagrees : ∀ d' ∈ (((r.evaluated d).pass group).see [more.head]).skipped, Agrees d') :
    Leads cond other token
      (lexer_at (hash :: (x ++ newline :: group.source (more.source rest))) iftop r)
      (lexer_at (hash :: (more.head.text.dropWhile is_wspace ++ newline :: more.after rest))
        (.EXPECT_ELSE :: iftop') (((r.evaluated d).pass group).see [more.head])) := by
  simp only [selection.see, selection.pass, mem_append, mem_singleton] at hagrees
  have hskip : skip_loop ELSE (some ENDIF) true 0 0 (group.source (more.source rest)) =
      .found (hash :: (more.head.text.dropWhile is_wspace ++ newline :: more.after rest))
        (0 + group.lines) := by
    rw [skip_text rfl endif_only group hgroup fun d' hd' => hagrees d' (.inl (.inr hd'))]
    exact skip_head hmore (hagrees more.head (.inr rfl)) _ rest
  have hevaluate : evaluate cond (lexer_at (group.source (more.source rest)) iftop' (r.read d)) =
      lexer_at (hash :: (more.head.text.dropWhile is_wspace ++ newline :: more.after rest))
        (.EXPECT_ELSE :: iftop')
        { r with
          conds := r.conds + 1
          line := r.line + d.text.count newline + group.lines } := by
    unfold evaluate handle_cond skip_to
    simp [lexer_at, selection.read, hcond, hskip]
  rw [hevaluate] at hdirective
  have hleads : Leads cond other token _ _ := leads_directive (reads_line hread htrim _)
    (s := lexer_at (hash :: (more.head.text.dropWhile is_wspace ++ newline :: more.after rest))
      (.EXPECT_ELSE :: iftop')
      { r with
        conds := r.conds + 1
        line := r.line + d.text.count newline + group.lines }) hdirective
  have hline : r.line + d.text.count newline + group.lines + 1 = r.line + d.lines + group.lines :=
    Nat.add_right_comm _ _ _
  simp only [lexer_at, hline] at hleads
  exact hleads

theorem leads_passed (hread : Reads d) (hword : word d.yytext = ELSE ∨ word d.yytext = ELIF)
    (htrim : x.dropWhile is_wspace = d.text.dropWhile is_wspace) {rest : List UInt8}
    (iftop : List expect_t) (r r' : selection) {lines : Nat}
    (hskip : skip_loop ENDIF none true 0 0 rest = .found outp lines)
    (hcompiled : r'.compiled = r.compiled) (hconds : r'.conds = r.conds)
    (hline : r'.line = r.line + d.text.count newline + lines + 1) :
    Leads cond other token (lexer_at (hash :: (x ++ newline :: rest)) (.EXPECT_ENDIF :: iftop) r)
      (lexer_at outp (.EXPECT_ENDIF :: iftop) r') := by
  have hto : skip_to ENDIF none (lexer_at rest (.EXPECT_ENDIF :: iftop) (r.read d)) =
      lexer_at outp (.EXPECT_ENDIF :: iftop)
        { r with line := r.line + d.text.count newline + lines } := by
    unfold skip_to
    simp [lexer_at, selection.read, hskip]
  have hdirective : directive cond other d.yytext
        (lexer_at rest (.EXPECT_ENDIF :: iftop) (r.read d)) =
      { skip_to ENDIF none (lexer_at rest (.EXPECT_ENDIF :: iftop) (r.read d)) with
        outp := newline ::
          (skip_to ENDIF none (lexer_at rest (.EXPECT_ENDIF :: iftop) (r.read d))).outp
        line_start := false } := by
    rcases hword with hword | hword
    · exact directive_else hword _
    · exact directive_elif hword _
  rw [hto] at hdirective
  have hleads : Leads cond other token _ _ := leads_directive (reads_line hread htrim rest)
    (s := lexer_at outp (.EXPECT_ENDIF :: iftop)
      { r with line := r.line + d.text.count newline + lines }) hdirective
  have htarget : lexer_at outp (.EXPECT_ENDIF :: iftop) r' =
      { lexer_at outp (.EXPECT_ENDIF :: iftop)
          { r with line := r.line + d.text.count newline + lines } with
        line_start := true
        current_line := r.line + d.text.count newline + lines + 1 } := by
    simp [lexer_at, hcompiled, hconds, hline]
  rwa [htarget]

/-! ## Runs -/

theorem skipped_skip : ∀ (more : branches) (r : selection), r.skipped ⊆ (more.skip r).skipped
  | .endif _, r => List.Subset.refl r.skipped
  | .elif d group more, r => by
    apply List.Subset.trans _ (skipped_skip more _)
    exact subset_append_of_subset_left _ (subset_append_left _ _)
  | .else_ d group d', r => subset_append_of_subset_left _ (subset_append_left _ _)

mutual

theorem skipped_select : ∀ (t : text) (r : selection), r.skipped ⊆ (t.select cond r).skipped
  | .nil, r => List.Subset.refl r.skipped
  | .line l tokens t, r =>
    skipped_select t (r.compile (placed r.line tokens) (l.count newline + 1))
  | .directive d effect t, r =>
    skipped_select t (r.compile [.directive effect (r.line + d.text.count newline)] d.lines)
  | .cond d group more t, r => by
    rw [text.select]
    apply List.Subset.trans _ (skipped_select t _)
    split_ifs
    · exact List.Subset.trans (skipped_select group (r.evaluated d)) (skipped_skip more _)
    · apply List.Subset.trans _ (skipped_choose more _)
      exact subset_append_of_subset_left _ (subset_append_left _ _)

theorem skipped_choose : ∀ (more : branches) (r : selection),
    r.skipped ⊆ (more.choose cond r).skipped
  | .endif _, r => List.Subset.refl r.skipped
  | .elif d group more, r => by
    rw [branches.choose]
    split_ifs
    · exact List.Subset.trans (skipped_select group (r.evaluated d)) (skipped_skip more _)
    · apply List.Subset.trans _ (skipped_choose more _)
      exact subset_append_of_subset_left _ (subset_append_left _ _)
  | .else_ d group _, r => by
    rw [branches.choose]
    exact skipped_select group (r.next d)

end

theorem leads_skip (rest : List UInt8) (iftop : List expect_t) :
    ∀ (more : branches), more.Readable other token → ∀ r,
      (∀ d ∈ (more.skip r).skipped, Agrees d) →
        ∀ x, x.dropWhile is_wspace = more.head.text.dropWhile is_wspace →
          Leads cond other token
            (lexer_at (hash :: (x ++ newline :: more.after rest)) (.EXPECT_ENDIF :: iftop) r)
            (lexer_at rest iftop (more.skip r))
  | .endif d, h, r, _, x, htrim => leads_endif h.1 h.2 htrim rest .EXPECT_ENDIF iftop r
  | .elif d group more, h, r, hagrees, x, htrim => by
    obtain ⟨hread, hword, hgroup, hmore⟩ := h
    rw [branches.skip] at hagrees
    have hseen : ∀ d' ∈ (((r.next d).pass group).see more.seen).skipped, Agrees d' :=
      fun d' hd' => hagrees d' (skipped_skip more _ hd')
    simp only [selection.see, selection.pass, mem_append] at hseen
    have hpass : ∀ rest', skip_loop ENDIF none true 0 0 (group.source rest') =
        skip_loop ENDIF none true 0 (0 + group.lines) rest' :=
      skip_text rfl none_only group hgroup (fun d' hd' => hseen d' (.inl (.inr hd'))) 0 0
    have hline : ∀ ds, (((r.next d).pass group).see ds).line =
        r.line + d.text.count newline + (0 + group.lines) + 1 := by
      intro ds
      simp only [selection.see, selection.pass, selection.next, dline.lines]
      omega
    -- `skip_to` does not stop at an `#else`, but at the `#endif` of that group.
    cases more with
    | endif d' =>
      have hskip := hpass (d'.source rest)
      rw [skip_found (hseen d' (.inr mem_cons_self)) hmore.2 rfl rfl (.inl rfl)] at hskip
      exact (leads_passed hread (.inr hword) htrim iftop r (((r.next d).pass group).see [d']) hskip
        rfl rfl (hline [d'])).trans
        (leads_skip rest iftop (.endif d') hmore _ hagrees _ (dropWhile_idempotent _ _))
    | elif d' group' more' =>
      have hskip := hpass ((branches.elif d' group' more').source rest)
      rw [branches.source, skip_found (hseen d' (.inr mem_cons_self)) hmore.2.1 rfl rfl
        (.inr (.inr rfl))] at hskip
      exact (leads_passed hread (.inr hword) htrim iftop r (((r.next d).pass group).see [d']) hskip
        rfl rfl (hline [d'])).trans
        (leads_skip rest iftop (.elif d' group' more') hmore _ hagrees _
          (dropWhile_idempotent _ _))
    | else_ d' group' d'' =>
      obtain ⟨⟨-, hword'⟩, hgroup', hread'', hword''⟩ := hmore
      simp only [branches.skip, selection.see, selection.pass, selection.next, mem_append]
        at hagrees
      have helse : ∀ d₁ ∈ d'.hashes, Agrees d₁ := fun d₁ hd => hseen d₁ (.inr hd)
      have hskip := hpass ((branches.else_ d' group' d'').source rest)
      rw [branches.source, skip_directive (agrees_word (helse d' mem_cons_self) hword' rfl),
        if_neg (by decide), if_neg (Nat.lt_irrefl 0), if_neg (by decide),
        skip_line rfl none_only d'.text false fun d₁ hd => helse d₁ (mem_cons_of_mem d' hd),
        skip_text rfl none_only group' hgroup' fun d₁ hd => hagrees d₁ (.inl (.inr hd)),
        skip_found (hagrees d'' (.inr mem_cons_self)) hword'' rfl rfl (.inl rfl)] at hskip
      have hline' :
          ((((((r.next d).pass group).see d'.hashes).next d').pass group').see [d'']).line =
          r.line + d.text.count newline +
            (0 + group.lines + (d'.text.count newline + 1) + group'.lines) + 1 := by
        simp only [selection.see, selection.pass, selection.next, dline.lines]
        omega
      exact (leads_passed hread (.inr hword) htrim iftop r
        ((((((r.next d).pass group).see d'.hashes).next d').pass group').see [d'']) hskip rfl rfl
        hline').trans
        (leads_endif hread'' hword'' (dropWhile_idempotent _ _) rest .EXPECT_ENDIF iftop _)
  | .else_ d group d', h, r, hagrees, x, htrim => by
    obtain ⟨⟨hread, hword⟩, hgroup, hread', hword'⟩ := h
    simp only [branches.skip, selection.next, selection.see, selection.pass, mem_append,
      mem_singleton] at hagrees
    have hskip : skip_loop ENDIF none true 0 0 (group.source (d'.source rest)) =
        .found (hash :: (d'.text.dropWhile is_wspace ++ newline :: rest)) (0 + group.lines) := by
      rw [skip_text rfl none_only group hgroup fun d'' hd' => hagrees d'' (.inl (.inr hd'))]
      exact skip_found (hagrees d' (.inr rfl)) hword' rfl rfl (.inl rfl) _ rest
    have hline : (((r.next d).pass group).see [d']).line =
        r.line + d.text.count newline + (0 + group.lines) + 1 := by
      simp only [selection.see, selection.pass, selection.next, dline.lines]
      omega
    exact (leads_passed hread (.inl hword) htrim iftop r (((r.next d).pass group).see [d']) hskip
      rfl rfl hline).trans
      (leads_endif hread' hword' (dropWhile_idempotent _ _) rest .EXPECT_ENDIF iftop _)

theorem leads_selected {group : text} {rest : List UInt8} (hmore : more.Readable other token)
    (hread : Reads d) (htrim : x.dropWhile is_wspace = d.text.dropWhile is_wspace)
    (hdirective : directive cond other d.yytext
        (lexer_at (group.source (more.source rest)) iftop (r.read d)) =
      { evaluate cond (lexer_at (group.source (more.source rest)) iftop' (r.read d)) with
        outp := newline ::
          (evaluate cond (lexer_at (group.source (more.source rest)) iftop' (r.read d))).outp
        line_start := false }) (hcond : cond r.conds = true)
    (hagrees : ∀ d' ∈ (more.skip (group.select cond (r.evaluated d))).skipped, Agrees d')
    (hgroup : (∀ d' ∈ (group.select cond (r.evaluated d)).skipped, Agrees d') →
      Leads cond other token
        (lexer_at (group.source (more.source rest)) (.EXPECT_ENDIF :: iftop') (r.evaluated d))
        (lexer_at (more.source rest) (.EXPECT_ENDIF :: iftop')
          (group.select cond (r.evaluated d)))) :
    Leads cond other token
      (lexer_at (hash :: (x ++ newline :: group.source (more.source rest))) iftop r)
      (lexer_at rest iftop' (more.skip (group.select cond (r.evaluated d)))) := by
  have htaken : Leads cond other token _ _ := leads_true hread htrim hdirective hcond
  have hgroups := hgroup fun d' hd' => hagrees d' (skipped_skip more _ hd')
  have hskip : Leads cond other token
      (lexer_at (more.source rest) (.EXPECT_ENDIF :: iftop') (group.select cond (r.evaluated d)))
      (lexer_at rest iftop' (more.skip (group.select cond (r.evaluated d)))) := by
    rw [branches.source_eq]
    exact leads_skip rest iftop' more hmore _ hagrees more.head.text rfl
  exact (htaken.trans hgroups).trans hskip

mutual

theorem leads_text : ∀ (t : text), t.Readable other token → ∀ r,
    (∀ d ∈ (t.select cond r).skipped, Agrees d) → ∀ rest iftop,
      Leads cond other token (lexer_at (t.source rest) iftop r)
        (lexer_at rest iftop (t.select cond r))
  | .nil, _, r, _, rest, iftop => Relation.ReflTransGen.refl
  | .line l tokens t, h, r, hagrees, rest, iftop =>
    (leads_line h.1 (t.source rest) iftop r).trans (leads_text t h.2 _ hagrees rest iftop)
  | .directive d effect t, h, r, hagrees, rest, iftop =>
    (leads_other h.1 (t.source rest) iftop r).trans (leads_text t h.2 _ hagrees rest iftop)
  | .cond d group more t, h, r, hagrees, rest, iftop => by
    obtain ⟨hread, hopens, hgroup, hmore, ht⟩ := h
    rw [text.select] at hagrees ⊢
    refine Relation.ReflTransGen.trans ?_ (leads_text t ht _ hagrees rest iftop)
    have hagrees' := fun d' hd' => hagrees d' (skipped_select t _ hd')
    by_cases hcond : cond r.conds = true
    · rw [if_pos hcond] at hagrees' ⊢
      exact leads_selected hmore hread rfl
        (directive_opens hopens (lexer_at _ iftop (r.read d))) hcond hagrees'
        (fun hgroups => leads_text group hgroup (r.evaluated d) hgroups _ _)
    · rw [if_neg hcond] at hagrees' ⊢
      have hhead := fun d' hd' => hagrees' d' (skipped_choose more _ hd')
      exact Relation.ReflTransGen.trans
        (leads_false hread rfl (directive_opens hopens (lexer_at _ iftop (r.read d)))
          (Bool.eq_false_iff.mpr hcond) hgroup hmore hhead)
        (leads_choose (t.source rest) iftop more hmore _ hagrees' _ (dropWhile_idempotent _ _))

theorem leads_choose (rest : List UInt8) (iftop : List expect_t) : ∀ (more : branches),
    more.Readable other token → ∀ r, (∀ d ∈ (more.choose cond r).skipped, Agrees d) →
      ∀ x, x.dropWhile is_wspace = more.head.text.dropWhile is_wspace →
        Leads cond other token
          (lexer_at (hash :: (x ++ newline :: more.after rest)) (.EXPECT_ELSE :: iftop) r)
          (lexer_at rest iftop (more.choose cond r))
  | .endif d, h, r, _, x, htrim => leads_endif h.1 h.2 htrim rest .EXPECT_ELSE iftop r
  | .elif d group more, h, r, hagrees, x, htrim => by
    obtain ⟨hread, hword, hgroup, hmore⟩ := h
    rw [branches.choose] at hagrees ⊢
    by_cases hcond : cond r.conds = true
    · rw [if_pos hcond] at hagrees ⊢
      exact leads_selected hmore hread htrim
        (directive_elif hword (lexer_at _ (.EXPECT_ELSE :: iftop) (r.read d))) hcond hagrees
        (fun hgroups => leads_text group hgroup (r.evaluated d) hgroups _ _)
    · rw [if_neg hcond] at hagrees ⊢
      have hhead := fun d' hd' => hagrees d' (skipped_choose more _ hd')
      exact Relation.ReflTransGen.trans
        (leads_false hread htrim
          (directive_elif hword (lexer_at _ (.EXPECT_ELSE :: iftop) (r.read d)))
          (Bool.eq_false_iff.mpr hcond) hgroup hmore hhead)
        (leads_choose rest iftop more hmore _ hagrees _ (dropWhile_idempotent _ _))
  | .else_ d group d', h, r, hagrees, x, htrim => by
    obtain ⟨⟨hread, hword⟩, hgroup, hread', hword'⟩ := h
    rw [branches.choose] at hagrees ⊢
    exact ((leads_else hread hword htrim _ iftop r).trans
      (leads_text group hgroup (r.next d) hagrees _ _)).trans
      (leads_endif hread' hword' rfl rest .EXPECT_ENDIF iftop _)

end

/-! ## Lines -/

theorem count_dline (d : dline) (rest : List UInt8) :
    (d.source rest).count newline = d.lines + rest.count newline := by
  rw [dline.source, count_cons_of_ne (by decide), count_append, count_cons_self,
    dline.lines]
  omega

mutual

theorem count_text : ∀ (t : text) (rest : List UInt8),
    (t.source rest).count newline = t.lines + rest.count newline
  | .nil, rest => (Nat.zero_add _).symm
  | .line l tokens t, rest => by
    rw [text.source, count_append, count_cons_self, count_text t, text.lines]
    omega
  | .directive d effect t, rest => by
    rw [text.source, count_dline, count_text t, text.lines]
    omega
  | .cond d group more t, rest => by
    rw [text.source, count_dline, count_text group, count_branches more, count_text t, text.lines]
    omega

theorem count_branches : ∀ (more : branches) (rest : List UInt8),
    (more.source rest).count newline = more.lines + rest.count newline
  | .endif d, rest => count_dline d rest
  | .elif d group more, rest => by
    rw [branches.source, count_dline, count_text group, count_branches more, branches.lines]
    omega
  | .else_ d group d', rest => by
    rw [branches.source, count_dline, count_text group, count_dline, branches.lines]
    omega

end

theorem line_skip : ∀ (more : branches) (r : selection), (more.skip r).line = r.line + more.lines
  | .endif _, r => rfl
  | .elif d group more, r => by
    rw [branches.skip, line_skip more, branches.lines]
    simp only [selection.see, selection.pass, selection.next]
    omega
  | .else_ d group d', r => by
    simp only [branches.skip, selection.see, selection.pass, selection.next, branches.lines]
    omega

mutual

theorem line_select : ∀ (t : text) (r : selection), (t.select cond r).line = r.line + t.lines
  | .nil, r => rfl
  | .line l tokens t, r => by
    rw [text.select, line_select t, text.lines, selection.compile, Nat.add_assoc]
  | .directive d effect t, r => by
    rw [text.select, line_select t, text.lines, selection.compile, Nat.add_assoc]
  | .cond d group more t, r => by
    rw [text.select, line_select t, text.lines]
    split_ifs
    · rw [line_skip more, line_select group]
      simp [selection.evaluated, selection.next, Nat.add_assoc]
    · rw [line_choose more]
      simp [selection.see, selection.pass, selection.evaluated, selection.next, Nat.add_assoc]

theorem line_choose : ∀ (more : branches) (r : selection),
    (more.choose cond r).line = r.line + more.lines
  | .endif d, r => rfl
  | .elif d group more, r => by
    rw [branches.choose, branches.lines]
    split_ifs
    · rw [line_skip more, line_select group]
      simp [selection.evaluated, selection.next, Nat.add_assoc]
    · rw [line_choose more]
      simp [selection.see, selection.pass, selection.evaluated, selection.next, Nat.add_assoc]
  | .else_ d group d', r => by
    rw [branches.choose, selection.next, line_select group, branches.lines]
    simp [selection.next, Nat.add_assoc]

end

/-! ## Whole texts -/

def selection.none : selection := ⟨[], [], 0, 1⟩

theorem read_once {t u : lexer} (ht : Leads cond other token s t)
    (htend : step cond other token t = none) (hu : Leads cond other token s u)
    (huend : step cond other token u = none) : t = u := by
  have hunique : Relator.RightUnique fun a b => step cond other token a = some b := by
    intro a b c hb hc
    rw [hb] at hc
    exact Option.some.inj hc
  rcases Relation.ReflTransGen.total_of_right_unique hunique ht hu with h | h
  · rcases h.cases_head with h | ⟨v, hv, -⟩
    · exact h
    · simp [htend] at hv
  · rcases h.cases_head with h | ⟨v, hv, -⟩
    · exact h.symm
    · simp [huend] at hv

def characters : token_t := fun l => (l.take 1, l.drop 1, 0)

def if_zero : dline := ⟨[105, 102, 32, 48], [105, 102, 32, 48]⟩
def else_line : dline := ⟨ELSE, ELSE⟩
def endif_line : dline := ⟨ENDIF, ENDIF⟩

def if_else (d : dline) : text :=
  .cond if_zero (.line [120] [([120], 0)] .nil)
    (.else_ d (.line [121] [([121], 0)] .nil) endif_line) .nil

theorem if_else_readable (hread : Reads d) (hword : word d.yytext = ELSE) :
    (if_else d).Readable (fun _ => characters) characters := by
  have hline : ∀ c : UInt8, c ≠ newline → c ≠ hash → Ordinary characters [c] [([c], 0)] := by
    intro c hc hhash
    constructor
    · simpa using hhash
    · intro rest
      exact .cons (u := []) hc rfl .nil
  exact ⟨⟨fun _ => rfl⟩, rfl, ⟨hline 120 (by decide) (by decide), trivial⟩,
    ⟨⟨hread, hword⟩, ⟨hline 121 (by decide) (by decide), trivial⟩, ⟨fun _ => rfl⟩, rfl⟩, trivial⟩

theorem leads_iterate : ∀ (n : Nat) {s u : lexer},
    (fun s => s.bind (step cond other token))^[n] (some s) = some u → Leads cond other token s u
  | 0, s, u, h => by
    cases h
    exact Relation.ReflTransGen.refl
  | n + 1, s, u, h => by
    rw [Function.iterate_succ_apply'] at h
    obtain ⟨v, hv, hstep⟩ := Option.bind_eq_some_iff.mp h
    exact (leads_iterate n hv).tail hstep

/-- `yylex` reads the word without the comment, and `skip_to` with it. -/
def else_comment : dline := ⟨ELSE ++ [slash, star, star, slash], ELSE⟩

end mudos.conditionals
