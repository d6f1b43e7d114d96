-- Delta lists. Each entry holds its distance from the entry before it, so the
-- offset of an entry is a prefix sum. A new entry is put between two others
-- by sharing out a distance, and an entry is taken out by giving its
-- distance to the next one; the offsets of the others stay.
import Mathlib.Data.List.Basic

open List

namespace mudos.deltas

variable {α : Type*}

abbrev DeltaList (α : Type*) := List (Int × α)

/-- The entries with their offsets, the first distance being from `base`. -/
def offsets : Int → DeltaList α → List (Int × α)
  | _, [] => []
  | base, (d, a) :: l => (base + d, a) :: offsets (base + d) l

/-- A new entry at an offset, before the entries of the same offset. -/
def insertAt (a : α) : Int → DeltaList α → DeltaList α
  | d, [] => [(d, a)]
  | d, (e, b) :: l =>
    if e ≥ d then (d, a) :: (e - d, b) :: l else (e, b) :: insertAt a (d - e) l

def addHead (d : Int) : DeltaList α → DeltaList α
  | [] => []
  | (e, b) :: l => (e + d, b) :: l

def removeFirst (p : α → Bool) : DeltaList α → DeltaList α
  | [] => []
  | (d, a) :: l => if p a then addHead d l else (d, a) :: removeFirst p l

/-- All entries of the kind are taken out; `carry` is the distance that the entries
taken out just before give to the next one. -/
def removeAll (p : α → Bool) : Int → DeltaList α → DeltaList α
  | _, [] => []
  | carry, (d, a) :: l =>
    if p a then removeAll p (d + carry) l else (d + carry, a) :: removeAll p 0 l

@[simp] theorem offsets_nil (base : Int) : offsets base ([] : DeltaList α) = [] := rfl

@[simp] theorem offsets_cons (base : Int) (x : Int × α) (l : DeltaList α) :
    offsets base (x :: l) = (base + x.1, x.2) :: offsets (base + x.1) l := rfl

theorem offsets_map_snd (base : Int) (l : DeltaList α) :
    (offsets base l).map Prod.snd = l.map Prod.snd := by
  induction l generalizing base with
  | nil => rfl
  | cons x l ih => simp only [offsets_cons, map_cons, ih]

@[simp] theorem offsets_addHead (base d : Int) (l : DeltaList α) :
    offsets base (addHead d l) = offsets (base + d) l := by
  cases l with
  | nil => rfl
  | cons x l =>
    simp only [addHead, offsets_cons]
    rw [show base + (x.1 + d) = base + d + x.1 by omega]

theorem offsets_insertAt (a : α) (base d : Int) (l : DeltaList α) :
    ∃ before after, offsets base l = before ++ after ∧
      offsets base (insertAt a d l) = before ++ (base + d, a) :: after := by
  induction l generalizing base d with
  | nil => exact ⟨[], [], rfl, rfl⟩
  | cons x l ih =>
    obtain ⟨e, b⟩ := x
    unfold insertAt
    by_cases he : e ≥ d
    · refine ⟨[], (base + e, b) :: offsets (base + e) l, rfl, ?_⟩
      rw [if_pos he]
      simp only [offsets_cons, nil_append]
      rw [show base + d + (e - d) = base + e by omega]
    · obtain ⟨before, after, h1, h2⟩ := ih (base + e) (d - e)
      refine ⟨(base + e, b) :: before, after, by rw [offsets_cons, h1]; rfl, ?_⟩
      rw [if_neg he, offsets_cons, h2, show base + e + (d - e) = base + d by omega]
      rfl

theorem offsets_removeFirst (p : α → Bool) (base : Int) (l : DeltaList α) :
    offsets base (removeFirst p l) = (offsets base l).eraseP fun x => p x.2 := by
  induction l generalizing base with
  | nil => rfl
  | cons x l ih =>
    unfold removeFirst
    cases hp : p x.2 with
    | true => simp [hp]
    | false => simp [hp, ih]

theorem offsets_removeAll (p : α → Bool) (base carry : Int) (l : DeltaList α) :
    offsets base (removeAll p carry l) =
      (offsets (base + carry) l).filter fun x => !p x.2 := by
  induction l generalizing base carry with
  | nil => rfl
  | cons x l ih =>
    unfold removeAll
    have hbase : base + (x.1 + carry) = base + carry + x.1 := by omega
    cases hp : p x.2 with
    | true | false => simp [hp, ih, hbase]

/-! ## No distance is negative -/

def Rising (l : DeltaList α) : Prop := ∀ x ∈ l, 0 ≤ x.1

theorem Rising.insertAt {a : α} {d : Int} {l : DeltaList α} (h : Rising l) (hd : 0 ≤ d) :
    Rising (insertAt a d l) := by
  induction l generalizing d with
  | nil => simpa [Rising, deltas.insertAt] using hd
  | cons x l ih =>
    obtain ⟨e, b⟩ := x
    simp only [Rising, mem_cons, forall_eq_or_imp] at h
    unfold deltas.insertAt
    split
    · simp only [Rising, mem_cons, forall_eq_or_imp]
      exact ⟨hd, by omega, h.2⟩
    · simp only [Rising, mem_cons, forall_eq_or_imp]
      exact ⟨h.1, ih h.2 (by omega)⟩

theorem Rising.addHead {d : Int} {l : DeltaList α} (h : Rising l) (hd : 0 ≤ d) :
    Rising (addHead d l) := by
  cases l with
  | nil => exact h
  | cons x l =>
    simp only [Rising, mem_cons, forall_eq_or_imp, deltas.addHead] at h ⊢
    exact ⟨by omega, h.2⟩

theorem Rising.removeFirst {p : α → Bool} {l : DeltaList α} (h : Rising l) :
    Rising (removeFirst p l) := by
  induction l with
  | nil => exact h
  | cons x l ih =>
    simp only [Rising, mem_cons, forall_eq_or_imp] at h
    unfold deltas.removeFirst
    split
    · exact Rising.addHead h.2 h.1
    · simp only [Rising, mem_cons, forall_eq_or_imp]
      exact ⟨h.1, ih h.2⟩

theorem Rising.removeAll {p : α → Bool} {carry : Int} {l : DeltaList α} (h : Rising l)
    (hc : 0 ≤ carry) : Rising (removeAll p carry l) := by
  induction l generalizing carry with
  | nil => exact h
  | cons x l ih =>
    simp only [Rising, mem_cons, forall_eq_or_imp] at h
    unfold deltas.removeAll
    split
    · exact ih h.2 (by omega)
    · simp only [Rising, mem_cons, forall_eq_or_imp]
      exact ⟨by omega, ih h.2 (Int.le_refl 0)⟩

theorem Rising.le_offset {base : Int} {l : DeltaList α} (h : Rising l) :
    ∀ x ∈ offsets base l, base ≤ x.1 := by
  induction l generalizing base with
  | nil => simp
  | cons y l ih =>
    simp only [Rising, mem_cons, forall_eq_or_imp] at h
    simp only [offsets_cons, mem_cons, forall_eq_or_imp]
    refine ⟨by omega, fun x hx => ?_⟩
    have := ih h.2 x hx
    omega

end mudos.deltas
