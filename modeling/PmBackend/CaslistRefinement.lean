import PmBackend.Model.Caslist
import Mathlib.Data.Finset.Max

set_option autoImplicit false

namespace PmBackend

open RangeList

-- the head range followed by the links; begin = end = 0 stands for no range
def Caslist.ranges (list : Caslist) : List Range :=
  if list.begin = 0 ∧ list.end_ = 0 then [] else ⟨list.begin, list.end_⟩ :: list.next

structure Caslist.Represents (list : Caslist) (ids : Finset Nat) : Prop where
  canonical : Canonical 1 list.ranges
  elements_eq : elements list.ranges = ids
  no_links : list.begin = 0 → list.next = []
  size_eq : list.size = ssize ids.card
  below : ∀ x ∈ ids, x < 2 ^ 64

theorem ssize_add_one (n : Nat) : ssize (ssize n + 1) = ssize ((n + 1 : Nat) : Int) := by
  simp [ssize]

theorem ssize_sub_one (n : Nat) (positive : 1 ≤ n) : ssize (ssize n - 1) = ssize ((n - 1 : Nat) : Int) := by
  rw [show ((n - 1 : Nat) : Int) = n - 1 by omega]
  simp [ssize]

theorem extendRight_spec {low : Nat} {link : Range} {next : List Range}
    (canonical : Canonical low (link :: next)) (below : ∀ x ∈ elements (link :: next), x < 2 ^ 64)
    (room : link.end_ + 1 < 2 ^ 64) :
    Canonical low (extendRight link next) ∧
      elements (extendRight link next) = insert (link.end_ + 1) (elements (link :: next)) := by
  obtain ⟨lower, nonempty, later⟩ := canonical
  have succ := u64_of_lt room
  cases next with
  | nil =>
    simp only [extendRight, succ, canonical_cons, canonical_nil, and_true]
    refine ⟨⟨lower, by omega⟩, ?_⟩
    ext x
    simp only [mem_elements_cons, elements_nil, Finset.notMem_empty, or_false, Finset.mem_insert]
    omega
  | cons link' more =>
    have ordered : link'.begin ≤ link'.end_ := later.2.1
    have bound := below link'.begin (by simp [ordered])
    have touch : u64 (link.end_ + 1 + 1) = link.end_ + 2 := by
      have := later.1
      exact u64_of_lt (by omega)
    simp only [extendRight, succ, touch]
    by_cases merges : link.end_ + 2 = link'.begin
    · rw [if_pos merges]
      refine ⟨⟨lower, by simp only; omega, later.2.2⟩, ?_⟩
      ext x
      simp only [mem_elements_cons, Finset.mem_insert]
      grind
    · rw [if_neg merges]
      have := later.1
      refine ⟨⟨lower, by simp only; omega, by simp only; omega, ordered, later.2.2⟩, ?_⟩
      ext x
      simp only [mem_elements_cons, Finset.mem_insert]
      grind

theorem caslistPut_spec {low : Nat} (link : Range) (next : List Range) (val : Nat)
    (canonical : Canonical low (link :: next)) (below : ∀ x ∈ elements (link :: next), x < 2 ^ 64)
    (positive : 1 ≤ low) (after : low ≤ val) (near : link.begin ≤ val + 1) (small : val < 2 ^ 64) :
    Canonical low (caslistPut link next val).1 ∧
      elements (caslistPut link next val).1 = insert val (elements (link :: next)) ∧
      ((caslistPut link next val).2 = true ↔ val ∉ elements (link :: next)) := by
  -- `_caslist_put` is called on a link that does not start above `val + 1`, after the previous link has refused `val`
  induction next generalizing low link with
  | nil =>
    obtain ⟨lower, nonempty, -⟩ := canonical
    have bound := below link.end_ (by simp [nonempty])
    have pred := sub64_of_le (le_trans positive lower) (Nat.lt_of_le_of_lt nonempty bound)
    unfold caslistPut
    rw [pred]
    split_ifs with inside before behind
    · refine ⟨⟨lower, nonempty, trivial⟩, ?_, by simp [inside]⟩
      exact (Finset.insert_eq_of_mem (by simp [inside])).symm
    · refine ⟨⟨by simp only; omega, by simp only; omega, trivial⟩, ?_, by simp; omega⟩
      ext x
      simp only [mem_elements_cons, elements_nil, Finset.notMem_empty, or_false, Finset.mem_insert]
      omega
    · have next : val = link.end_ + 1 := by
        unfold u64 at behind
        omega
      have extended := extendRight_spec ⟨lower, nonempty, canonical_nil _⟩ below (next ▸ small)
      refine ⟨extended.1, by rw [extended.2, next], ?_⟩
      simp
      omega
    · have above : link.end_ + 1 < val := by
        unfold u64 at behind
        omega
      refine ⟨⟨lower, nonempty, by simp only; omega, le_refl _, trivial⟩, ?_, by simp; omega⟩
      ext x
      simp only [mem_elements_cons, elements_nil, Finset.notMem_empty, or_false, Finset.mem_insert]
      omega
  | cons link' more ih =>
    have whole := canonical
    obtain ⟨lower, nonempty, later⟩ := canonical
    have bound := below link.end_ (by simp [nonempty])
    have pred := sub64_of_le (le_trans positive lower) (Nat.lt_of_le_of_lt nonempty bound)
    have fresh (high : link.end_ < val) (absent : val ∉ elements (link' :: more)) :
        val ∉ elements (link :: link' :: more) := by
      rw [mem_elements_cons]
      rintro (inside | member)
      · omega
      · exact absent member
    have gap (high : val < link'.begin) : val ∉ elements (link' :: more) := by
      intro member
      have := later.head_least member
      omega
    have bound' := below link'.begin (by simp [later.2.1])
    have pred' : sub64 link'.begin 1 = link'.begin - 1 :=
      sub64_of_le (by have := later.1; omega) bound'
    unfold caslistPut
    simp only [pred, pred']
    split_ifs with inside before behind between
    · refine ⟨whole, ?_, by simp [inside]⟩
      exact (Finset.insert_eq_of_mem (by simp [inside])).symm
    · refine ⟨⟨by simp only; omega, by simp only; omega, later⟩, ?_, ?_⟩
      · ext x
        simp only [mem_elements_cons, Finset.mem_insert]
        grind
      · have absent : val ∉ elements (link :: link' :: more) := by
          intro member
          have := whole.head_least member
          omega
        simp [absent]
    · have next : val = link.end_ + 1 := by
        unfold u64 at behind
        omega
      have extended := extendRight_spec whole below (next ▸ small)
      refine ⟨extended.1, by rw [extended.2, next], ?_⟩
      have := later.1
      simpa using fresh (by omega) (gap (by omega))
    · have above : link.end_ + 1 < val := by
        unfold u64 at behind
        omega
      refine ⟨⟨lower, nonempty, by simp only; omega, le_refl _, by simp only; omega, later.2⟩, ?_, ?_⟩
      · ext x
        simp only [mem_elements_cons, Finset.mem_insert]
        grind
      · simpa using fresh (by omega) (gap (by omega))
    · have above : link.end_ + 1 < val := by
        unfold u64 at behind
        omega
      have rest := ih link' later (fun x member => below x (by simp_all)) (by omega) (by omega) (by omega)
      refine ⟨⟨lower, nonempty, rest.1⟩, ?_, ?_⟩
      · ext x
        simp only [mem_elements_cons, rest.2.1, Finset.mem_insert]
        grind
      · rw [rest.2.2]
        constructor
        · exact fresh (by omega)
        · intro absent member
          exact absent (by rw [mem_elements_cons]; exact Or.inr member)

theorem push_eq_caslistPut (list : Caslist) (val : Nat) (occupied : ¬(list.begin = 0 ∧ list.end_ = 0))
    (near : ¬val < sub64 list.begin 1) :
    (⟨(list.push val).begin, (list.push val).end_⟩ :: (list.push val).next : List Range) =
        (caslistPut ⟨list.begin, list.end_⟩ list.next val).1 ∧
      (list.push val).size =
        if (caslistPut ⟨list.begin, list.end_⟩ list.next val).2 then ssize (list.size + 1)
        else list.size := by
  -- the head range and the links go through two copies of the same code
  unfold Caslist.push
  rw [caslistPut.eq_def]
  by_cases inside : list.begin ≤ val ∧ val ≤ list.end_
  · simp [inside]
  by_cases before : val = sub64 list.begin 1
  · simp only [ge_iff_le, if_neg inside, if_neg occupied, if_pos before]
    simp
  by_cases behind : val = u64 (list.end_ + 1)
  · simp only [ge_iff_le, if_neg inside, if_neg occupied, if_neg before, if_pos behind]
    cases list.next with
    | nil => simp [extendRight]
    | cons link more =>
      simp only [extendRight]
      by_cases merges : u64 (u64 (list.end_ + 1) + 1) = link.begin <;> simp [merges]
  · simp only [ge_iff_le, if_neg inside, if_neg occupied, if_neg before, if_neg behind, if_neg near]
    cases list.next with
    | nil => simp
    | cons link more =>
      simp only
      split <;> simp

theorem Caslist.Represents.ranges_empty {list : Caslist} {ids : Finset Nat}
    (represents : list.Represents ids) : ids = ∅ ↔ list.begin = 0 ∧ list.end_ = 0 := by
  constructor
  · intro empty
    by_contra occupied
    have canonical := represents.canonical
    have same := represents.elements_eq
    simp only [ranges, occupied, if_false] at canonical same
    have member : list.begin ∈ ids := by simp [← same, canonical.2.1]
    simp [empty] at member
  · intro empty
    simp [← represents.elements_eq, ranges, empty]

theorem Caslist.Represents.occupied {list : Caslist} {ids : Finset Nat}
    (represents : list.Represents ids) (occupied : ¬(list.begin = 0 ∧ list.end_ = 0)) :
    Canonical 1 (⟨list.begin, list.end_⟩ :: list.next) ∧
      elements (⟨list.begin, list.end_⟩ :: list.next) = ids := by
  have canonical := represents.canonical
  have same := represents.elements_eq
  simp only [ranges, occupied, if_false] at canonical same
  exact ⟨canonical, same⟩

theorem ssize_insert {size : Int} {ids : Finset Nat} {val : Nat} (size_eq : size = ssize ids.card)
    (absent : val ∉ ids) : ssize (size + 1) = ssize (insert val ids).card := by
  rw [size_eq, ssize_add_one, Finset.card_insert_of_notMem absent]

theorem Caslist.push_spec {list : Caslist} {ids : Finset Nat} (represents : list.Represents ids)
    {val : Nat} (positive : val ≠ 0) (small : val < 2 ^ 64) :
    (list.push val).Represents (insert val ids) := by
  have bounded : ∀ x ∈ insert val ids, x < 2 ^ 64 := by
    intro x member
    rcases Finset.mem_insert.mp member with rfl | member
    · exact small
    · exact represents.below x member
  by_cases empty : list.begin = 0 ∧ list.end_ = 0
  · have none := represents.ranges_empty.mpr empty
    have links := represents.no_links empty.1
    have pushed : list.push val =
        { list with begin := val, end_ := val, size := ssize (list.size + 1) } := by
      simp [push, empty, positive]
    rw [pushed]
    refine ⟨?_, ?_, fun _ => links, ssize_insert represents.size_eq (by simp [none]), bounded⟩
    · simp [ranges, positive, links]
      omega
    · simp [ranges, positive, links, none, elements]
  · obtain ⟨canonical, same⟩ := represents.occupied empty
    have first : 1 ≤ list.begin := canonical.1
    have nonempty : list.begin ≤ list.end_ := canonical.2.1
    have last : list.end_ < 2 ^ 64 := represents.below _ (by simp [← same, nonempty])
    have pred : sub64 list.begin 1 = list.begin - 1 := sub64_of_le first (by omega)
    by_cases before : val < sub64 list.begin 1
    · have absent : val ∉ ids := by
        intro member
        have := canonical.head_least (same ▸ member)
        simp only at this
        omega
      have pushed : list.push val =
          { size := ssize (list.size + 1), begin := val, end_ := val,
            next := ⟨list.begin, list.end_⟩ :: list.next } := by
        have below : ¬list.begin ≤ val := by omega
        have apart : ¬val = sub64 list.begin 1 := by omega
        have beyond : ¬val = u64 (list.end_ + 1) := by
          unfold u64
          omega
        simp [push, below, empty, apart, before, beyond]
      rw [pushed]
      refine ⟨?_, ?_, by simp [positive], ssize_insert represents.size_eq absent, bounded⟩
      · simp only [ranges, positive, false_and, if_false]
        refine ⟨by simp only; omega, le_refl _, ?_⟩
        exact ⟨by simp only; omega, canonical.2⟩
      · simp only [ranges, positive, false_and, if_false]
        rw [elements, same]
        simp
    · have put := push_eq_caslistPut list val empty before
      have spec := caslistPut_spec ⟨list.begin, list.end_⟩ list.next val canonical
        (by rw [same]; exact represents.below) (le_refl 1) (by omega) (by simp only; omega) small
      rw [← put.1] at spec
      have still : ¬((list.push val).begin = 0 ∧ (list.push val).end_ = 0) := by
        intro cleared
        have := spec.1.1
        simp only at this
        omega
      refine ⟨?_, ?_, ?_, ?_, bounded⟩
      · simp only [ranges, still, if_false]
        exact spec.1
      · simp only [ranges, still, if_false]
        rw [spec.2.1, same]
      · intro cleared
        have := spec.1.1
        simp only at this
        omega
      · rw [put.2]
        by_cases member : val ∈ ids
        · have refused : (caslistPut ⟨list.begin, list.end_⟩ list.next val).2 = false := by
            rw [← Bool.not_eq_true, spec.2.2, same]
            exact not_not.mpr member
          rw [refused, Finset.insert_eq_of_mem member]
          exact represents.size_eq
        · have accepted := spec.2.2.mpr (same ▸ member)
          rw [accepted]
          exact ssize_insert represents.size_eq member

theorem caslistPush_spec {list : Caslist} {ids : Finset Nat} (represents : list.Represents ids)
    {val : Nat} (small : val < 2 ^ 64) :
    ∃ list', caslistPush (some list) val = some list' ∧
      list'.Represents (if val = 0 then ids else insert val ids) := by
  by_cases zero : val = 0
  · exact ⟨list, by simp [caslistPush, zero], by simpa [zero] using represents⟩
  · exact ⟨list.push val, by simp [caslistPush, zero], by simpa [zero] using Caslist.push_spec represents zero small⟩

theorem caslistNew_spec {begin end_ : Nat} (positive : 1 ≤ begin) (ordered : begin ≤ end_)
    (small : end_ < 2 ^ 64) :
    ∃ list, caslistNew begin end_ = some list ∧ list.Represents (Finset.Icc begin end_) := by
  have refused : ¬(begin > end_ ∨ (begin = 0 ∧ end_ > 0)) := by omega
  have nonzero : begin ≠ 0 := by omega
  have count : ssize (u64 (sub64 end_ begin + 1)) = ssize (end_ - begin + 1 : Nat) := by
    rw [sub64_of_le ordered small, u64_of_lt (by omega)]
  refine ⟨_, by rw [caslistNew, if_neg refused], ?_, ?_, fun _ => rfl, ?_, ?_⟩
  · simp [Caslist.ranges, nonzero, ordered]
    omega
  · simp [Caslist.ranges, nonzero, elements]
  · have width : end_ + 1 - begin = end_ - begin + 1 := by omega
    simp only [nonzero, false_and, if_false, count, Nat.card_Icc, width]
  · intro x member
    have := (Finset.mem_Icc.mp member).2
    omega

theorem caslistNew_empty : ∃ list, caslistNew 0 0 = some list ∧ list.Represents ∅ :=
  ⟨⟨0, 0, 0, []⟩, by simp [caslistNew], by simp [Caslist.ranges], by simp [Caslist.ranges],
    fun _ => rfl, by simp [ssize], by simp⟩

theorem caslistPop_empty {list : Caslist} (represents : list.Represents ∅) (val : Nat) :
    caslistPop (some list) val = ⟨1, 0, some list⟩ := by
  have empty := represents.ranges_empty.mp rfl
  simp [caslistPop, empty]

theorem Caslist.Represents.begin_least {list : Caslist} {ids : Finset Nat}
    (represents : list.Represents ids) (nonempty : ids.Nonempty) :
    list.begin ∈ ids ∧ ∀ x ∈ ids, list.begin ≤ x := by
  have occupied : ¬(list.begin = 0 ∧ list.end_ = 0) := by
    intro empty
    simp [represents.ranges_empty.mpr empty] at nonempty
  obtain ⟨canonical, same⟩ := represents.occupied occupied
  refine ⟨by simp [← same, canonical.2.1], fun x member => ?_⟩
  exact canonical.head_least (same ▸ member)

theorem caslistPop_spec {list : Caslist} {ids : Finset Nat} (represents : list.Represents ids)
    (nonempty : ids.Nonempty) (room : list.begin + 1 < 2 ^ 64) (val : Nat) :
    ∃ list', caslistPop (some list) val = ⟨0, list.begin, some list'⟩ ∧
      list'.Represents (ids.erase list.begin) := by
  have least := represents.begin_least nonempty
  have occupied : ¬(list.begin = 0 ∧ list.end_ = 0) := by
    intro empty
    simp [represents.ranges_empty.mpr empty] at nonempty
  obtain ⟨canonical, same⟩ := represents.occupied occupied
  have first : 1 ≤ list.begin := canonical.1
  have ordered : list.begin ≤ list.end_ := canonical.2.1
  have succ := u64_of_lt room
  have size_eq : ssize (list.size - 1) = ssize (ids.erase list.begin).card := by
    rw [represents.size_eq, Finset.card_erase_of_mem least.1]
    exact ssize_sub_one _ (Finset.card_pos.mpr nonempty)
  have below : ∀ x ∈ ids.erase list.begin, x < 2 ^ 64 :=
    fun x member => represents.below x (Finset.mem_of_mem_erase member)
  refine ⟨{ list.advance with size := ssize (list.size - 1) }, by simp [caslistPop, occupied], ?_⟩
  unfold Caslist.advance
  by_cases depleted : list.begin + 1 > list.end_
  · have tail : elements list.next = ids.erase list.begin := by
      ext x
      rw [canonical.mem_tail, same, Finset.mem_erase]
      constructor
      · rintro ⟨member, above⟩
        exact ⟨by simp only at above; omega, member⟩
      · rintro ⟨other, member⟩
        have := least.2 x member
        exact ⟨member, by simp only; omega⟩
    cases links : list.next with
    | nil =>
      simp only [succ, depleted, if_true]
      refine ⟨by simp [Caslist.ranges], ?_, fun _ => rfl, size_eq, below⟩
      simp [Caslist.ranges, ← tail, links]
    | cons link more =>
      have later := canonical.2.2
      rw [links] at later
      have begins : link.begin ≠ 0 := by
        have := later.1
        omega
      simp only [succ, depleted, if_true]
      refine ⟨?_, ?_, by simp [begins], size_eq, below⟩
      · simp only [Caslist.ranges, begins, false_and, if_false]
        exact later.weaken (by omega)
      · simp [Caslist.ranges, begins, ← tail, links]
  · have nonzero : list.begin + 1 ≠ 0 := by omega
    simp only [succ, depleted, if_false]
    refine ⟨?_, ?_, by simp, size_eq, below⟩
    · simp only [Caslist.ranges, nonzero, false_and, if_false]
      exact ⟨by simp, by simp only; omega, canonical.2.2⟩
    · simp only [Caslist.ranges, nonzero, false_and, if_false]
      ext x
      have tail := canonical.mem_tail x
      rw [same] at tail
      rw [mem_elements_cons, Finset.mem_erase, tail, ← same, mem_elements_cons]
      simp only
      grind

theorem Caslist.Represents.unique {list list' : Caslist} {ids : Finset Nat}
    (represents : list.Represents ids) (represents' : list'.Represents ids) : list = list' := by
  have same := represents.canonical.unique represents'.canonical
    (represents.elements_eq.trans represents'.elements_eq.symm)
  have sizes := represents.size_eq.trans represents'.size_eq.symm
  by_cases empty : ids = ∅
  · have cleared := represents.ranges_empty.mp empty
    have cleared' := represents'.ranges_empty.mp empty
    have links := represents.no_links cleared.1
    have links' := represents'.no_links cleared'.1
    cases list
    cases list'
    simp_all
  · have occupied := (not_congr represents.ranges_empty).mp empty
    have occupied' := (not_congr represents'.ranges_empty).mp empty
    simp only [Caslist.ranges, if_neg occupied, if_neg occupied', List.cons.injEq, Range.mk.injEq] at same
    cases list
    cases list'
    simp_all

-- the pointer leads to a list that represents the set
def ListOf (list : Option Caslist) (ids : Finset Nat) : Prop := ∃ l, list = some l ∧ l.Represents ids

theorem ListOf.push {list : Option Caslist} {ids : Finset Nat} (lists : ListOf list ids) {val : Nat}
    (small : val < 2 ^ 64) : ListOf (caslistPush list val) (if val = 0 then ids else insert val ids) := by
  obtain ⟨l, rfl, represents⟩ := lists
  exact caslistPush_spec represents small

theorem ListOf.push_pos {list : Option Caslist} {ids : Finset Nat} (lists : ListOf list ids) {val : Nat}
    (positive : val ≠ 0) (small : val < 2 ^ 64) : ListOf (caslistPush list val) (insert val ids) := by
  simpa [positive] using lists.push small

theorem ListOf.pop_empty {list : Option Caslist} (lists : ListOf list ∅) (val : Nat) :
    caslistPop list val = ⟨1, 0, list⟩ := by
  obtain ⟨l, rfl, represents⟩ := lists
  exact caslistPop_empty represents val

theorem ListOf.pop {list : Option Caslist} {ids : Finset Nat} (lists : ListOf list ids)
    (nonempty : ids.Nonempty) (room : ∀ id ∈ ids, id + 1 < 2 ^ 64) (val : Nat) :
    ∃ least ∈ ids, (∀ id ∈ ids, least ≤ id) ∧ (caslistPop list val).ret = 0 ∧
      (caslistPop list val).val = least ∧ ListOf (caslistPop list val).list (ids.erase least) := by
  obtain ⟨l, rfl, represents⟩ := lists
  have least := represents.begin_least nonempty
  obtain ⟨l', popped, represents'⟩ := caslistPop_spec represents nonempty (room _ least.1) val
  exact ⟨l.begin, least.1, least.2, by rw [popped], by rw [popped], l', by rw [popped], represents'⟩

theorem ListOf.unique {list list' : Option Caslist} {ids : Finset Nat} (lists : ListOf list ids)
    (lists' : ListOf list' ids) : list = list' := by
  obtain ⟨l, rfl, represents⟩ := lists
  obtain ⟨l', rfl, represents'⟩ := lists'
  rw [represents.unique represents']

theorem ListOf.same_ids {list : Option Caslist} {ids ids' : Finset Nat} (lists : ListOf list ids)
    (lists' : ListOf list ids') : ids = ids' := by
  obtain ⟨l, rfl, represents⟩ := lists
  obtain ⟨l', same, represents'⟩ := lists'
  cases same
  rw [← represents.elements_eq, ← represents'.elements_eq]

theorem ListOf.positive {list : Option Caslist} {ids : Finset Nat} (lists : ListOf list ids) {id : Nat}
    (member : id ∈ ids) : 1 ≤ id := by
  obtain ⟨l, rfl, represents⟩ := lists
  exact represents.canonical.low_le (represents.elements_eq ▸ member)

theorem ListOf.size {list : Option Caslist} {ids : Finset Nat} (lists : ListOf list ids) :
    caslistSize list = ssize ids.card := by
  obtain ⟨l, rfl, represents⟩ := lists
  exact represents.size_eq

inductive ListCall where
  | push (val : Nat)
  | pop

-- a call on the list, with the result and `*val` of `caslist_pop`
def listCall (list : Option Caslist) : ListCall → Option (Nat × Nat) × Option Caslist
  | .push val => (none, caslistPush list val)
  | .pop => (some ((caslistPop list 0).ret, (caslistPop list 0).val), (caslistPop list 0).list)

def listRun (list : Option Caslist) : List ListCall → List (Option (Nat × Nat)) × Option Caslist
  | [] => ([], list)
  | call :: rest =>
    let (result, list') := listCall list call
    let (results, last) := listRun list' rest
    (result :: results, last)

-- the abstract list: a finite set from which the least element is taken
def setCall (ids : Finset Nat) : ListCall → Option (Nat × Nat) × Finset Nat
  | .push val => (none, if val = 0 then ids else insert val ids)
  | .pop =>
    if nonempty : ids.Nonempty then (some (0, ids.min' nonempty), ids.erase (ids.min' nonempty))
    else (some (1, 0), ids)

def setRun (ids : Finset Nat) : List ListCall → List (Option (Nat × Nat)) × Finset Nat
  | [] => ([], ids)
  | call :: rest =>
    let (result, ids') := setCall ids call
    let (results, last) := setRun ids' rest
    (result :: results, last)

def setNew (begin end_ : Nat) : Finset Nat := if begin = 0 then ∅ else Finset.Icc begin end_

-- no call pushes or takes out a value of `2 ^ 64 - 1`
def SmallValues (ids : Finset Nat) : List ListCall → Prop
  | [] => True
  | call :: rest =>
    (match call with
      | .push val => val < 2 ^ 64 - 1
      | .pop => ∀ nonempty : ids.Nonempty, ids.min' nonempty < 2 ^ 64 - 1) ∧
    SmallValues (setCall ids call).2 rest

def ValidRange (begin end_ : Nat) : Prop :=
  (1 ≤ begin ∧ begin ≤ end_ ∧ end_ < 2 ^ 64) ∨ (begin = 0 ∧ end_ = 0)

theorem caslistNew_represents {begin end_ : Nat} (valid : ValidRange begin end_) :
    ∃ list, caslistNew begin end_ = some list ∧ list.Represents (setNew begin end_) := by
  rcases valid with ⟨positive, ordered, small⟩ | ⟨rfl, rfl⟩
  · have nonzero : begin ≠ 0 := by omega
    simpa [setNew, nonzero] using caslistNew_spec positive ordered small
  · simpa [setNew] using caslistNew_empty

theorem listCall_spec {list : Caslist} {ids : Finset Nat} (represents : list.Represents ids)
    (call : ListCall) (rest : List ListCall) (small : SmallValues ids (call :: rest)) :
    ∃ list', listCall (some list) call = ((setCall ids call).1, some list') ∧
      list'.Represents (setCall ids call).2 := by
  cases call with
  | push val =>
    have bound : val < 2 ^ 64 - 1 := small.1
    obtain ⟨list', pushed, represents'⟩ := caslistPush_spec represents (show val < 2 ^ 64 by omega)
    exact ⟨list', by simp [listCall, setCall, pushed], represents'⟩
  | pop =>
    by_cases nonempty : ids.Nonempty
    · have least := represents.begin_least nonempty
      have min_eq : ids.min' nonempty = list.begin :=
        le_antisymm (ids.min'_le _ least.1) (ids.le_min' _ _ least.2)
      have bound : ids.min' nonempty < 2 ^ 64 - 1 := small.1 nonempty
      obtain ⟨list', popped, represents'⟩ := caslistPop_spec represents nonempty (by omega) 0
      exact ⟨list', by simp [listCall, setCall, popped, nonempty, min_eq],
        by simpa [setCall, nonempty, min_eq] using represents'⟩
    · have empty := Finset.not_nonempty_iff_eq_empty.mp nonempty
      subst empty
      exact ⟨list, by simp [listCall, setCall, caslistPop_empty represents], by simpa [setCall] using represents⟩

theorem listRun_spec {list : Caslist} {ids : Finset Nat} (represents : list.Represents ids)
    (calls : List ListCall) (small : SmallValues ids calls) :
    ∃ list', listRun (some list) calls = ((setRun ids calls).1, some list') ∧
      list'.Represents (setRun ids calls).2 := by
  induction calls generalizing list ids with
  | nil => exact ⟨list, rfl, represents⟩
  | cons call rest ih =>
    obtain ⟨next, called, represents'⟩ := listCall_spec represents call rest small
    obtain ⟨last, ran, represents''⟩ := ih represents' small.2
    exact ⟨last, by simp [listRun, setRun, called, ran], represents''⟩

theorem ssize_of_lt {n : Nat} (small : n < 2 ^ 63) : ssize n = n := by
  unfold ssize
  rw [Int.bmod_eq_of_le] <;> omega

-- the list of ranges is a finite set, and one set has one list
theorem caslist_refines_set (begin end_ : Nat) (valid : ValidRange begin end_)
    (calls : List ListCall) (small : SmallValues (setNew begin end_) calls) :
    ∃ list, listRun (caslistNew begin end_) calls =
        ((setRun (setNew begin end_) calls).1, some list) ∧
      (∀ r ∈ list.ranges, r.begin ≤ r.end_) ∧
      (list.ranges.Pairwise fun r s => r.end_ + 1 < s.begin) ∧
      elements list.ranges = (setRun (setNew begin end_) calls).2 ∧
      ((setRun (setNew begin end_) calls).2 = ∅ ↔
        list.begin = 0 ∧ list.end_ = 0 ∧ list.next = []) ∧
      list.size = ssize (setRun (setNew begin end_) calls).2.card ∧
      ((setRun (setNew begin end_) calls).2.card < 2 ^ 63 →
        list.size = (setRun (setNew begin end_) calls).2.card) ∧
      ∀ (begin' end_' : Nat) (calls' : List ListCall), ValidRange begin' end_' →
        SmallValues (setNew begin' end_') calls' →
        (setRun (setNew begin' end_') calls').2 = (setRun (setNew begin end_) calls).2 →
        (listRun (caslistNew begin' end_') calls').2 = some list := by
  obtain ⟨first, created, fresh⟩ := caslistNew_represents valid
  obtain ⟨list, ran, represents⟩ := listRun_spec fresh calls small
  refine ⟨list, by rw [created, ran], represents.canonical.nonempty, represents.canonical.separated,
    represents.elements_eq, ?_, represents.size_eq, ?_, ?_⟩
  · rw [represents.ranges_empty]
    exact ⟨fun empty => ⟨empty.1, empty.2, represents.no_links empty.1⟩, fun empty => ⟨empty.1, empty.2.1⟩⟩
  · intro few
    rw [represents.size_eq, ssize_of_lt few]
  · intro begin' end_' calls' valid' small' same
    obtain ⟨first', created', fresh'⟩ := caslistNew_represents valid'
    obtain ⟨list', ran', represents'⟩ := listRun_spec fresh' calls' small'
    rw [same] at represents'
    rw [created', ran', represents'.unique represents]

theorem caslist_refines_set_merge :
    ∃ list, (listRun (caslistNew 3 4) [.push 7, .push 6, .push 5, .pop]).2 = some list ∧
      list.ranges = [⟨4, 7⟩] ∧ list.size = 4 := by
  have small : SmallValues (setNew 3 4) [.push 7, .push 6, .push 5, .pop] := by
    simp [SmallValues, setCall, setNew]
  obtain ⟨list, ran, -⟩ := caslist_refines_set 3 4 (Or.inl ⟨by decide, by decide, by decide⟩) _ small
  refine ⟨list, by rw [ran], ?_⟩
  have run : (listRun (caslistNew 3 4) [.push 7, .push 6, .push 5, .pop]).2 = some ⟨4, 4, 7, []⟩ := by
    decide +kernel
  rw [ran] at run
  cases run
  decide

-- a set of `2 ^ 63` elements has a negative `size`
theorem caslist_size_wraps :
    ∃ list, listRun (caslistNew 1 (2 ^ 63)) [] = ([], some list) ∧ list.size = -2 ^ 63 ∧
      (elements list.ranges).card = 2 ^ 63 := by
  refine ⟨⟨-2 ^ 63, 1, 2 ^ 63, []⟩, by decide +kernel, rfl, ?_⟩
  simp [Caslist.ranges, elements]

end PmBackend
