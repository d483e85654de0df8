import Mathlib.Order.Interval.Finset.Nat
import Mathlib.Tactic.Common

set_option autoImplicit false

namespace RangeList

structure Range where
  begin : Nat
  end_ : Nat
  deriving DecidableEq, Repr

def elements : List Range → Finset Nat
  | [] => ∅
  | r :: rest => Finset.Icc r.begin r.end_ ∪ elements rest

-- every range is non-empty, starts at `low` or later and leaves a gap before the next one
def Canonical : Nat → List Range → Prop
  | _, [] => True
  | low, r :: rest => low ≤ r.begin ∧ r.begin ≤ r.end_ ∧ Canonical (r.end_ + 2) rest

@[simp] theorem elements_nil : elements [] = ∅ := rfl

@[simp] theorem mem_elements_cons (r : Range) (rest : List Range) (x : Nat) :
    x ∈ elements (r :: rest) ↔ (r.begin ≤ x ∧ x ≤ r.end_) ∨ x ∈ elements rest := by
  simp [elements]

@[simp] theorem canonical_nil (low : Nat) : Canonical low [] := trivial

@[simp] theorem canonical_cons (low : Nat) (r : Range) (rest : List Range) :
    Canonical low (r :: rest) ↔ low ≤ r.begin ∧ r.begin ≤ r.end_ ∧ Canonical (r.end_ + 2) rest :=
  Iff.rfl

theorem Canonical.weaken {low low' : Nat} {ranges : List Range} (canonical : Canonical low ranges)
    (lower : low' ≤ low) : Canonical low' ranges := by
  cases ranges with
  | nil => trivial
  | cons r rest => exact ⟨lower.trans canonical.1, canonical.2⟩

theorem Canonical.low_le {low : Nat} {ranges : List Range} (canonical : Canonical low ranges)
    {x : Nat} (member : x ∈ elements ranges) : low ≤ x := by
  induction ranges generalizing low with
  | nil => simp at member
  | cons r rest ih =>
    obtain ⟨lower, nonempty, later⟩ := canonical
    rcases (mem_elements_cons r rest x).mp member with inside | member
    · omega
    · have := ih later member
      omega

theorem Canonical.nonempty {low : Nat} {ranges : List Range} (canonical : Canonical low ranges) :
    ∀ r ∈ ranges, r.begin ≤ r.end_ := by
  induction ranges generalizing low with
  | nil => simp
  | cons r rest ih =>
    intro s member
    rcases List.mem_cons.mp member with rfl | member
    · exact canonical.2.1
    · exact ih canonical.2.2 s member

theorem Canonical.low_le_begin {low : Nat} {ranges : List Range} (canonical : Canonical low ranges) :
    ∀ r ∈ ranges, low ≤ r.begin := by
  induction ranges generalizing low with
  | nil => simp
  | cons r rest ih =>
    obtain ⟨lower, nonempty, later⟩ := canonical
    intro s member
    rcases List.mem_cons.mp member with rfl | member
    · exact lower
    · have := ih later s member
      omega

theorem Canonical.separated {low : Nat} {ranges : List Range} (canonical : Canonical low ranges) :
    ranges.Pairwise fun r s => r.end_ + 1 < s.begin := by
  induction ranges generalizing low with
  | nil => exact List.Pairwise.nil
  | cons r rest ih =>
    refine List.Pairwise.cons ?_ (ih canonical.2.2)
    intro s member
    have := canonical.2.2.low_le_begin s member
    omega

theorem Canonical.head_least {low : Nat} {r : Range} {rest : List Range}
    (canonical : Canonical low (r :: rest)) {x : Nat} (member : x ∈ elements (r :: rest)) :
    r.begin ≤ x := by
  rcases (mem_elements_cons r rest x).mp member with inside | member
  · exact inside.1
  · have := canonical.2.2.low_le member
    have := canonical.2.1
    omega

theorem Canonical.mem_tail {low : Nat} {r : Range} {rest : List Range}
    (canonical : Canonical low (r :: rest)) (x : Nat) :
    x ∈ elements rest ↔ x ∈ elements (r :: rest) ∧ r.end_ < x := by
  rw [mem_elements_cons]
  constructor
  · intro member
    have := canonical.2.2.low_le member
    exact ⟨Or.inr member, by omega⟩
  · rintro ⟨inside | member, above⟩
    · omega
    · exact member

private theorem end_le {low : Nat} {r s : Range} {rest more : List Range}
    (canonical : Canonical low (r :: rest))
    (same : elements (r :: rest) = elements (s :: more)) (begins : r.begin = s.begin) :
    s.end_ ≤ r.end_ := by
  by_contra longer
  have nonempty := canonical.2.1
  have inside : r.end_ + 1 ∈ elements (s :: more) :=
    (mem_elements_cons s more _).mpr (Or.inl (by omega))
  rw [← same] at inside
  have := canonical.2.2.low_le ((canonical.mem_tail _).mpr ⟨inside, by omega⟩)
  omega

theorem Canonical.unique {low low' : Nat} {ranges ranges' : List Range}
    (canonical : Canonical low ranges) (canonical' : Canonical low' ranges')
    (same : elements ranges = elements ranges') : ranges = ranges' := by
  induction ranges generalizing low low' ranges' with
  | nil =>
    cases ranges' with
    | nil => rfl
    | cons s more =>
      have member : s.begin ∈ elements (s :: more) := by simp [canonical'.2.1]
      simp [← same] at member
  | cons r rest ih =>
    cases ranges' with
    | nil =>
      have member : r.begin ∈ elements (r :: rest) := by simp [canonical.2.1]
      simp [same] at member
    | cons s more =>
      have begins : r.begin = s.begin := by
        apply Nat.le_antisymm
        · apply canonical.head_least
          rw [same]
          simp [canonical'.2.1]
        · apply canonical'.head_least
          rw [← same]
          simp [canonical.2.1]
      have ends : r.end_ = s.end_ :=
        Nat.le_antisymm (end_le canonical' same.symm begins.symm) (end_le canonical same begins)
      have heads : r = s := by
        cases r
        cases s
        simp_all
      have tails : elements rest = elements more := by
        ext x
        rw [canonical.mem_tail, canonical'.mem_tail, same, ends]
      rw [heads, ih canonical.2.2 canonical'.2.2 tails]

end RangeList
