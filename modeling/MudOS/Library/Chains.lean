-- Linked lists in memory. Each cell tells the next one, and a chain is the
-- list of the cells from a head on.
import Mathlib.Data.List.Perm.Subperm

open Function List

namespace mudos.chains

variable {α : Type*}
variable {n fuel : Nat}

/-- The cells from a head to the end. -/
inductive Chain (next : α → Option α) : Option α → List α → Prop
  | nil : Chain next none []
  | cons {a : α} {l : List α} : Chain next (next a) l → Chain next (some a) (a :: l)

variable {next next' : α → Option α} {p : Option α} {l l' : List α}

theorem Chain.unique (h : Chain next p l) (h' : Chain next p l') : l = l' := by
  induction h generalizing l' with
  | nil =>
    cases h'
    rfl
  | cons _ ih =>
    cases h' with
    | cons h' => rw [ih h']

theorem Chain.suffix (h : Chain next p l) {a : α} (ha : a ∈ l) :
    ∃ l', Chain next (some a) l' ∧ l'.length ≤ l.length := by
  induction h with
  | nil => cases ha
  | @cons b l hl ih =>
    rcases mem_cons.mp ha with rfl | ha
    · exact ⟨_, .cons hl, Nat.le_refl _⟩
    · obtain ⟨l', hl', hle⟩ := ih ha
      exact ⟨l', hl', Nat.le_succ_of_le hle⟩

theorem Chain.nodup (h : Chain next p l) : l.Nodup := by
  induction h with
  | nil => exact nodup_nil
  | @cons a l hl ih =>
    refine nodup_cons.mpr ⟨fun ha => ?_, ih⟩
    obtain ⟨l', hl', hle⟩ := hl.suffix ha
    have heq := hl'.unique (.cons hl)
    rw [heq, length_cons] at hle
    omega

theorem Chain.congr (h : Chain next p l) (hn : ∀ a ∈ l, next' a = next a) : Chain next' p l := by
  induction h with
  | nil => exact .nil
  | @cons a l _ ih =>
    apply Chain.cons
    rw [hn a mem_cons_self]
    exact ih fun b hb => hn b (mem_cons_of_mem a hb)

theorem Chain.length_le {next : Nat → Option Nat} {p : Option Nat} {l : List Nat}
    (h : Chain next p l) (hn : ∀ a ∈ l, a < n) : l.length ≤ n := by
  have hsub : l.Subperm (List.range n) :=
    h.nodup.subperm fun a ha => mem_range.mpr (hn a ha)
  have hle := hsub.length_le
  rwa [length_range] at hle

theorem Chain.drop_behind [DecidableEq α] {q a : α} {post : List α} {pre : List α}
    (h : Chain next p (pre ++ q :: a :: post)) :
    Chain (update next q (next a)) p (pre ++ q :: post) := by
  have hnodup := h.nodup
  induction pre generalizing p with
  | nil =>
    rw [nil_append] at h hnodup ⊢
    have hq : q ∉ post := fun hmem =>
      (nodup_cons.mp hnodup).1 (mem_cons_of_mem a hmem)
    cases h with
    | cons h =>
      generalize hp : next q = p' at h
      cases h with
      | cons h =>
        apply Chain.cons
        rw [update_self]
        refine h.congr fun b hb => update_of_ne ?_ _ _
        rintro rfl
        exact hq hb
  | cons b pre ih =>
    rw [cons_append] at h hnodup
    have hb : b ≠ q := by
      rintro rfl
      exact (nodup_cons.mp hnodup).1 (mem_append_right _ mem_cons_self)
    cases h with
    | cons h =>
      apply Chain.cons
      rw [update_of_ne hb]
      exact ih h (nodup_cons.mp hnodup).2

/-! ## Cells that lead to others -/

def Tells (next : α → Option α) (a b : α) : Prop := next a = some b

theorem Chain.mem_of_leads {a b : α} (h : Chain next (some a) l)
    (hab : Relation.ReflTransGen (Tells next) a b) : b ∈ l := by
  induction hab using Relation.ReflTransGen.head_induction_on generalizing l with
  | refl =>
    cases h
    exact mem_cons_self
  | head hac _ ih =>
    cases h with
    | cons hl =>
      rw [hac] at hl
      exact mem_cons_of_mem _ (ih hl)

theorem Chain.bounded {next : Nat → Option Nat} {a : Nat} {l : List Nat} (h : Chain next (some a) l)
    (hbound : ∀ b c, next b = some c → c < n) (ha : a < n) : ∀ b ∈ l, b < n := by
  induction l generalizing a with
  | nil => cases h
  | cons c l ih =>
    cases h with
    | cons hl =>
      intro b hb
      rcases mem_cons.mp hb with rfl | hb
      · exact ha
      · cases hc : next c with
        | none =>
          rw [hc] at hl
          cases hl
          cases hb
        | some d =>
          rw [hc] at hl
          exact ih hl (hbound c d hc) b hb

theorem chain_of_no_cycle {next : Nat → Option Nat} (hbound : ∀ a b, next a = some b → b < n)
    (hcycle : ∀ a, ¬ Relation.TransGen (Tells next) a a) {a : Nat} (ha : a < n) :
    ∃ l, Chain next (some a) l := by
  -- the cells that have been visited all lead to the one that is looked at
  suffices h : ∀ (k a : Nat) (visited : List Nat), a < n → visited.Nodup → (∀ b ∈ visited, b < n) →
      (∀ b ∈ visited, Relation.TransGen (Tells next) b a) → n ≤ visited.length + k →
      ∃ l, Chain next (some a) l from
    h n a [] ha nodup_nil (fun _ hb => absurd hb not_mem_nil)
      (fun _ hb => absurd hb not_mem_nil) (Nat.le_add_left _ _)
  intro k
  induction k with
  | zero =>
    intro a visited ha hnodup hlt hlead hlen
    have hnew : a ∉ visited := fun hmem => hcycle a (hlead a hmem)
    have hle := ((nodup_cons.mpr ⟨hnew, hnodup⟩).subperm fun b hb => by
      rcases mem_cons.mp hb with rfl | hb
      · exact mem_range.mpr ha
      · exact mem_range.mpr (hlt b hb)).length_le
    rw [length_range, length_cons] at hle
    omega
  | succ k ih =>
    intro a visited ha hnodup hlt hlead hlen
    have hnew : a ∉ visited := fun hmem => hcycle a (hlead a hmem)
    cases hb : next a with
    | none => exact ⟨[a], .cons (hb ▸ .nil)⟩
    | some b =>
      obtain ⟨l, hl⟩ := ih b (a :: visited) (hbound a b hb) (nodup_cons.mpr ⟨hnew, hnodup⟩)
        (fun c hc => by
          rcases mem_cons.mp hc with rfl | hc
          · exact ha
          · exact hlt c hc)
        (fun c hc => by
          rcases mem_cons.mp hc with rfl | hc
          · exact .single hb
          · exact .tail (hlead c hc) hb)
        (by rw [length_cons]; omega)
      exact ⟨a :: l, .cons (hb ▸ hl)⟩

theorem no_cycle_update [DecidableEq α] (hcycle : ∀ a, ¬ Relation.TransGen (Tells next) a a)
    {x y : α} (hxy : ¬ Relation.ReflTransGen (Tells next) y x) (a : α) :
    ¬ Relation.TransGen (Tells (update next x (some y))) a a := by
  have hold : ∀ {b c}, Tells (update next x (some y)) b c →
      (b = x ∧ c = y) ∨ (b ≠ x ∧ Tells next b c) := by
    intro b c hbc
    unfold Tells at hbc
    by_cases hb : b = x
    · subst hb
      rw [update_self, Option.some.injEq] at hbc
      exact .inl ⟨rfl, hbc.symm⟩
    · rw [update_of_ne hb] at hbc
      exact .inr ⟨hb, hbc⟩
  -- a way is an old one, or it goes through the new link
  have hway : ∀ {b c}, Relation.TransGen (Tells (update next x (some y))) b c →
      Relation.TransGen (Tells next) b c ∨
      (Relation.ReflTransGen (Tells next) b x ∧ Relation.ReflTransGen (Tells next) y c) := by
    intro b c hbc
    induction hbc with
    | single hbc =>
      rcases hold hbc with ⟨rfl, rfl⟩ | ⟨-, hbc⟩
      · exact .inr ⟨.refl, .refl⟩
      · exact .inl (.single hbc)
    | tail _ hcd ih =>
      rcases hold hcd with ⟨rfl, rfl⟩ | ⟨-, hcd⟩ <;> rcases ih with hbc | ⟨hbx, hyc⟩
      · exact .inr ⟨hbc.to_reflTransGen, .refl⟩
      · exact absurd hyc hxy
      · exact .inl (hbc.tail hcd)
      · exact .inr ⟨hbx, hyc.tail hcd⟩
  intro haa
  rcases hway haa with haa | ⟨hax, hya⟩
  · exact hcycle a haa
  · exact hxy (hya.trans hax)

theorem no_cycle_none [DecidableEq α] (hcycle : ∀ a, ¬ Relation.TransGen (Tells next) a a)
    (x a : α) : ¬ Relation.TransGen (Tells (update next x none)) a a := by
  intro haa
  apply hcycle a
  refine Relation.TransGen.mono ?_ _ _ haa
  intro b c hbc
  unfold Tells at hbc ⊢
  by_cases hb : b = x
  · subst hb
    simp at hbc
  · rwa [update_of_ne hb] at hbc

/-! ## Walks -/

def walk (next : α → Option α) : (fuel : Nat) → Option α → List α
  | 0, _ => []
  | _ + 1, none => []
  | fuel + 1, some a => a :: walk next fuel (next a)

theorem walk_none (next : α → Option α) (fuel : Nat) : walk next fuel none = [] := by
  cases fuel <;> rfl

theorem Chain.walk (h : Chain next p l) (hf : l.length < fuel) : walk next fuel p = l := by
  induction h generalizing fuel with
  | nil =>
    cases fuel with
    | zero => omega
    | succ fuel => rfl
  | @cons a l _ ih =>
    cases fuel with
    | zero => omega
    | succ fuel =>
      rw [length_cons] at hf
      rw [chains.walk, ih (by omega)]

/-! ## Unlinking -/

variable [DecidableEq α]

/-- All cells `x` are taken out of the list. `pp` is the cell before the one that is looked
at, `none` when that is the head. -/
def unlink (x : α) : (fuel : Nat) → (pp : Option α) → (head : Option α) → (α → Option α) →
    Option α × (α → Option α)
  | 0, _, head, next => (head, next)
  | fuel + 1, none, head, next =>
    match head with
    | none => (head, next)
    | some y => if y ≠ x then unlink x fuel (some y) head next else unlink x fuel none (next y) next
  | fuel + 1, some p, head, next =>
    match next p with
    | none => (head, next)
    | some y =>
      if y ≠ x then unlink x fuel (some y) head next
      else unlink x fuel (some p) head (update next p (next y))

theorem unlink_behind {x a : α} {p : Option α} (h : Chain next (next a) l) (ha : a ∉ l)
    (hf : l.length < fuel) :
    (unlink x fuel (some a) p next).1 = p ∧
    Chain (unlink x fuel (some a) p next).2 ((unlink x fuel (some a) p next).2 a)
      (l.filter (· ≠ x)) ∧
    ∀ b, b ≠ a → b ∉ l → (unlink x fuel (some a) p next).2 b = next b := by
  induction l generalizing a next fuel with
  | nil =>
    obtain ⟨fuel, rfl⟩ : ∃ k, fuel = k + 1 := ⟨fuel - 1, by simp at hf; omega⟩
    have hnone : next a = none := by
      generalize next a = p at h
      cases h
      rfl
    have heq : unlink x (fuel + 1) (some a) p next = (p, next) := by
      simp [unlink, hnone]
    rw [heq]
    refine ⟨rfl, ?_, fun _ _ _ => rfl⟩
    dsimp only
    rw [hnone]
    exact .nil
  | cons y l ih =>
    obtain ⟨fuel, rfl⟩ : ∃ k, fuel = k + 1 := ⟨fuel - 1, by simp at hf; omega⟩
    rw [length_cons] at hf
    have hnodup := h.nodup
    rw [nodup_cons] at hnodup
    rw [mem_cons, not_or] at ha
    obtain ⟨hsome, hl⟩ : next a = some y ∧ Chain next (next y) l := by
      generalize hp : next a = p at h
      cases h with
      | cons hl => exact ⟨rfl, hl⟩
    by_cases hy : y = x
    · subst hy
      have heq : unlink y (fuel + 1) (some a) p next =
          unlink y fuel (some a) p (update next a (next y)) := by
        simp [unlink, hsome]
      rw [heq, filter_cons_of_neg (by simp)]
      have hl' : Chain (update next a (next y)) (update next a (next y) a) l := by
        rw [update_self]
        apply hl.congr
        intro b hb
        apply update_of_ne
        rintro rfl
        exact ha.2 hb
      obtain ⟨h1, h2, h3⟩ := ih hl' ha.2 (show l.length < fuel by omega)
      refine ⟨h1, h2, fun b hba hbl => ?_⟩
      rw [mem_cons, not_or] at hbl
      rw [h3 b hba hbl.2, update_of_ne hba]
    · have heq : unlink x (fuel + 1) (some a) p next = unlink x fuel (some y) p next := by
        simp [unlink, hsome, hy]
      rw [heq, filter_cons_of_pos (by simpa using hy)]
      obtain ⟨h1, h2, h3⟩ := ih hl hnodup.1 (show l.length < fuel by omega)
      refine ⟨h1, ?_, fun b hba hbl => ?_⟩
      · rw [h3 a (fun hay => ha.1 hay) ha.2, hsome]
        exact .cons h2
      · rw [mem_cons, not_or] at hbl
        exact h3 b hbl.1 hbl.2

theorem Chain.unlink {x : α} {head : Option α} (h : Chain next head l) (hf : l.length < fuel) :
    Chain (unlink x fuel none head next).2 (unlink x fuel none head next).1 (l.filter (· ≠ x)) ∧
    ∀ b, b ∉ l → (chains.unlink x fuel none head next).2 b = next b := by
  induction l generalizing head fuel with
  | nil =>
    obtain ⟨fuel, rfl⟩ : ∃ k, fuel = k + 1 := ⟨fuel - 1, by simp at hf; omega⟩
    cases h
    exact ⟨.nil, fun _ _ => rfl⟩
  | cons y l ih =>
    obtain ⟨fuel, rfl⟩ : ∃ k, fuel = k + 1 := ⟨fuel - 1, by simp at hf; omega⟩
    rw [length_cons] at hf
    have hnodup := h.nodup
    rw [nodup_cons] at hnodup
    cases h with
    | cons hl =>
      by_cases hy : y = x
      · subst hy
        have heq : chains.unlink y (fuel + 1) none (some y) next =
            chains.unlink y fuel none (next y) next := by
          simp [chains.unlink]
        rw [heq, filter_cons_of_neg (by simp)]
        obtain ⟨h1, h2⟩ := ih hl (show l.length < fuel by omega)
        refine ⟨h1, fun b hb => ?_⟩
        rw [mem_cons, not_or] at hb
        exact h2 b hb.2
      · have heq : chains.unlink x (fuel + 1) none (some y) next =
            chains.unlink x fuel (some y) (some y) next := by
          simp [chains.unlink, hy]
        rw [heq, filter_cons_of_pos (by simpa using hy)]
        obtain ⟨h1, h2, h3⟩ := unlink_behind (x := x) (p := some y) hl hnodup.1
          (show l.length < fuel by omega)
        refine ⟨?_, fun b hb => ?_⟩
        · rw [h1]
          exact .cons h2
        · rw [mem_cons, not_or] at hb
          exact h3 b hb.1 hb.2

end mudos.chains
