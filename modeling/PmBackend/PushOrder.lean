import PmBackend.CaslistRefinement

set_option autoImplicit false

namespace PmBackend

open RangeList

def Caslist.withSize (list : Caslist) (size : Int) : Caslist := { list with size := size }

-- the list holds exactly the ids; its size is off by the surplus once a pop has wrapped a range
structure Caslist.Counted (list : Caslist) (ids : Finset Nat) (surplus : Int) : Prop where
  represents : (list.withSize (ssize ids.card)).Represents ids
  size_eq : list.size = ssize (ids.card + surplus)

-- the pop of 2^64 - 1 leaves a range from 0, which takes no push any more
def Caslist.Pushable (list : Caslist) : Prop :=
  (list.begin = 0 ∧ list.end_ = 2 ^ 64 - 1 ∧ list.next = []) ∨ ∃ ids surplus, list.Counted ids surplus

-- a list that `caslist_new`, `caslist_push` and `caslist_pop` can make, for any `uint64_t` values
def BuiltList (list : Option Caslist) : Prop :=
  ∃ begin end_ calls, begin < 2 ^ 64 ∧ end_ < 2 ^ 64 ∧ (∀ val, ListCall.push val ∈ calls → val < 2 ^ 64) ∧
    list = (listRun (caslistNew begin end_) calls).2

section Sizes

variable {list list' : Caslist} {ids : Finset Nat} {surplus : Int}

theorem ssize_succ (n : Int) : ssize (ssize n + 1) = ssize (n + 1) := by
  simp [ssize]

theorem ssize_pred (n : Int) : ssize (ssize n - 1) = ssize (n - 1) := by
  simp [ssize]

theorem ssize_add {x y : Int} (same : ssize x = ssize y) (z : Int) : ssize (x + z) = ssize (y + z) :=
  Int.add_bmod_eq_add_bmod_right z same

@[simp] theorem withSize_begin (list : Caslist) (size : Int) : (list.withSize size).begin = list.begin := rfl

@[simp] theorem withSize_end (list : Caslist) (size : Int) : (list.withSize size).end_ = list.end_ := rfl

@[simp] theorem withSize_next (list : Caslist) (size : Int) : (list.withSize size).next = list.next := rfl

@[simp] theorem size_withSize (list : Caslist) (size : Int) : (list.withSize size).size = size := rfl

theorem withSize_size (list : Caslist) : list.withSize list.size = list := rfl

theorem push_withSize (list : Caslist) (val : Nat) :
    ∃ grown : Bool, ∀ size, (list.withSize size).push val =
      (list.push val).withSize (if grown then ssize (size + 1) else size) := by
  unfold Caslist.push Caslist.withSize
  dsimp only
  by_cases inside : list.begin ≤ val ∧ list.end_ ≥ val
  · exact ⟨false, fun size => by simp [inside]⟩
  · simp only [inside, if_false]
    by_cases empty : list.begin = 0 ∧ list.end_ = 0
    · exact ⟨true, fun size => by simp [empty]⟩
    · simp only [empty, if_false]
      by_cases before : val = sub64 list.begin 1
      · exact ⟨true, fun size => by simp [before]⟩
      · simp only [before, if_false]
        by_cases after : val = u64 (list.end_ + 1)
        · simp only [after, if_true]
          cases right : extendRight ⟨list.begin, list.end_⟩ list.next with
          | nil => exact ⟨false, fun size => by simp⟩
          | cons head next => exact ⟨true, fun size => by simp⟩
        · simp only [after, if_false]
          by_cases less : val < sub64 list.begin 1
          · exact ⟨true, fun size => by simp [less]⟩
          · simp only [less, if_false]
            cases links : list.next with
            | nil => exact ⟨true, fun size => by simp⟩
            | cons link more =>
              by_cases gap : val < sub64 link.begin 1
              · exact ⟨true, fun size => by simp [gap]⟩
              · exact ⟨(caslistPut link more val).2, fun size => by simp [gap]⟩

theorem Caslist.Counted.resize (counted : list.Counted ids surplus) {ids' : Finset Nat} {grown : Bool}
    (represents : (list'.withSize (if grown then ssize (ssize ids.card + 1) else ssize ids.card)).Represents ids')
    (size_eq : list'.size = if grown then ssize (list.size + 1) else list.size) :
    list'.Counted ids' surplus := by
  have card := represents.size_eq
  simp only [Caslist.withSize] at card
  refine ⟨by rwa [card] at represents, ?_⟩
  rw [size_eq, counted.size_eq]
  cases grown with
  | false =>
    simp only [Bool.false_eq_true, if_false] at card ⊢
    exact ssize_add card surplus
  | true =>
    simp only [if_true, ssize_succ] at card ⊢
    rw [show (ids.card : Int) + surplus + 1 = ids.card + 1 + surplus by omega]
    exact ssize_add card surplus

theorem Caslist.Counted.push (counted : list.Counted ids surplus) {val : Nat} (positive : val ≠ 0)
    (small : val < 2 ^ 64) : (list.push val).Counted (insert val ids) surplus := by
  obtain ⟨grown, sizes⟩ := push_withSize list val
  have represents := Caslist.push_spec counted.represents positive small
  rw [sizes] at represents
  refine counted.resize represents ?_
  have own := congrArg Caslist.size (sizes list.size)
  rwa [withSize_size] at own

theorem Caslist.Counted.unique (counted : list.Counted ids surplus) (counted' : list'.Counted ids surplus) :
    list = list' := by
  have ranges := counted.represents.unique counted'.represents
  have sizes := counted.size_eq.trans counted'.size_eq.symm
  cases list
  cases list'
  simp_all [Caslist.withSize]

end Sizes

section Pushes

variable {list : Caslist} {ids : Finset Nat} {surplus : Int}

theorem Caslist.Pushable.push (pushable : list.Pushable) {val : Nat} (positive : val ≠ 0)
    (small : val < 2 ^ 64) : (list.push val).Pushable := by
  rcases pushable with full | ⟨ids, surplus, counted⟩
  · have inside : list.begin ≤ val ∧ list.end_ ≥ val := by omega
    rw [Caslist.push, if_pos inside]
    exact Or.inl full
  · exact Or.inr ⟨_, _, counted.push positive small⟩

theorem Caslist.Pushable.push_comm (pushable : list.Pushable) {a b : Nat} (a_positive : a ≠ 0)
    (b_positive : b ≠ 0) (a_small : a < 2 ^ 64) (b_small : b < 2 ^ 64) :
    (list.push a).push b = (list.push b).push a := by
  rcases pushable with full | ⟨ids, surplus, counted⟩
  · have kept : ∀ val, val < 2 ^ 64 → list.push val = list := by
      intro val small
      have inside : list.begin ≤ val ∧ list.end_ ≥ val := by omega
      rw [Caslist.push, if_pos inside]
    rw [kept a a_small, kept b b_small, kept a a_small]
  · have first := (counted.push a_positive a_small).push b_positive b_small
    have second := (counted.push b_positive b_small).push a_positive a_small
    rw [Finset.insert_comm] at second
    exact first.unique second

theorem popped_withSize (size : Int) {val : Nat} (occupied : ¬(list.begin = 0 ∧ list.end_ = 0)) :
    (caslistPop (some (list.withSize size)) val).list = some (list.advance.withSize (ssize (size - 1))) := by
  have advanced : ∀ size', { (list.withSize size).advance with size := size' } = list.advance.withSize size' := by
    intro size'
    unfold Caslist.advance Caslist.withSize
    dsimp only
    split
    · split <;> rfl
    · rfl
  have still : ¬((list.withSize size).begin = 0 ∧ (list.withSize size).end_ = 0) := occupied
  rw [caslistPop, if_neg still]
  exact congrArg some (advanced _)

theorem Caslist.Counted.pop (counted : list.Counted ids surplus) (val : Nat) :
    ∃ list', (caslistPop (some list) val).list = some list' ∧ list'.Pushable := by
  have represents := counted.represents
  have cleared_iff := represents.ranges_empty
  rw [withSize_begin, withSize_end] at cleared_iff
  by_cases empty : ids = ∅
  · have cleared := cleared_iff.mp empty
    exact ⟨list, by simp [caslistPop, cleared], Or.inr ⟨ids, surplus, counted⟩⟩
  · have nonempty := Finset.nonempty_iff_ne_empty.mpr empty
    have occupied : ¬(list.begin = 0 ∧ list.end_ = 0) := (not_congr cleared_iff).mp empty
    have least := represents.begin_least nonempty
    rw [withSize_begin] at least
    refine ⟨_, popped_withSize list.size occupied, ?_⟩
    by_cases room : list.begin + 1 < 2 ^ 64
    · obtain ⟨list', popped', represents'⟩ :=
        caslistPop_spec represents nonempty (by rwa [withSize_begin]) val
      rw [withSize_begin] at represents'
      have same : list' = list.advance.withSize (ssize (ssize ids.card - 1)) := by
        have lists := congrArg Popped.list popped'
        rw [popped_withSize _ occupied] at lists
        exact (Option.some.inj lists).symm
      rw [same] at represents'
      have card := represents'.size_eq
      simp only [Caslist.withSize, ssize_pred] at card
      refine Or.inr ⟨ids.erase list.begin, surplus, ?_, ?_⟩
      · rw [ssize_pred, card] at represents'
        exact represents'
      · change ssize (list.size - 1) = _
        rw [counted.size_eq, ssize_pred, show (ids.card : Int) + surplus - 1 = ids.card - 1 + surplus by omega]
        exact ssize_add card surplus
    · -- the last number: its successor wraps to 0
      have last : list.begin = 2 ^ 64 - 1 := by
        have := represents.below _ least.1
        omega
      obtain ⟨canonical, same⟩ := represents.occupied (by rwa [withSize_begin, withSize_end])
      rw [withSize_begin, withSize_end, withSize_next] at canonical same
      have end_member : list.end_ ∈ ids := by simp [← same, canonical.2.1]
      have end_last : list.end_ = 2 ^ 64 - 1 := by
        have := represents.below _ end_member
        have ordered : list.begin ≤ list.end_ := canonical.2.1
        omega
      have no_more : list.next = [] := by
        cases links : list.next with
        | nil => rfl
        | cons link more =>
          rw [links] at canonical same
          have later := canonical.2.2
          have member : link.begin ∈ ids := by simp [← same, later.2.1]
          have := represents.below _ member
          have := later.1
          simp only at this
          omega
      have wrapped : u64 (list.begin + 1) = 0 := by
        rw [last]
        decide +kernel
      refine Or.inl ?_
      unfold Caslist.advance
      rw [wrapped, if_neg (by omega)]
      exact ⟨rfl, end_last, no_more⟩

theorem Caslist.Pushable.pop (pushable : list.Pushable) (val : Nat) :
    ∃ list', (caslistPop (some list) val).list = some list' ∧ list'.Pushable := by
  rcases pushable with ⟨zero, last, no_more⟩ | ⟨ids, surplus, counted⟩
  · have occupied : ¬(list.begin = 0 ∧ list.end_ = 0) := by omega
    have advanced : list.advance = { list with begin := 1 } := by
      have next : u64 (0 + 1) = 1 := u64_of_lt (by omega)
      unfold Caslist.advance
      rw [zero, next, if_neg (by omega)]
    obtain ⟨ids, all⟩ : ∃ ids : Finset Nat, ids = Finset.Icc 1 (2 ^ 64 - 1) := ⟨_, rfl⟩
    refine ⟨_, popped_withSize list.size occupied, Or.inr ⟨ids, list.size - 1 - ids.card, ?_, ?_⟩⟩
    · rw [advanced]
      refine ⟨?_, ?_, fun cleared => absurd cleared Nat.one_ne_zero,
        size_withSize _ _, fun x member => ?_⟩
      · simp [Caslist.ranges, Caslist.withSize, last, no_more]
      · simp [Caslist.ranges, Caslist.withSize, last, no_more, elements, all]
      · rw [all] at member
        have := (Finset.mem_Icc.mp member).2
        omega
    · rw [size_withSize]
      congr 1
      omega
  · exact counted.pop val

theorem Caslist.Pushable.run (pushable : list.Pushable) (calls : List ListCall)
    (small : ∀ val, ListCall.push val ∈ calls → val < 2 ^ 64) :
    ∃ list', (listRun (some list) calls).2 = some list' ∧ list'.Pushable := by
  induction calls generalizing list with
  | nil => exact ⟨list, rfl, pushable⟩
  | cons call rest ih =>
    have later : ∀ val, ListCall.push val ∈ rest → val < 2 ^ 64 :=
      fun val member => small val (List.mem_cons_of_mem _ member)
    cases call with
    | push val =>
      by_cases zero : val = 0
      · have kept : caslistPush (some list) val = some list := by simp [caslistPush, zero]
        simp only [listRun, listCall, kept]
        exact ih pushable later
      · have pushed : caslistPush (some list) val = some (list.push val) := by simp [caslistPush, zero]
        simp only [listRun, listCall, pushed]
        exact ih (pushable.push zero (small val List.mem_cons_self)) later
    | pop =>
      obtain ⟨list', popped, next⟩ := pushable.pop 0
      simp only [listRun, listCall, popped]
      exact ih next later

theorem listRun_null (calls : List ListCall) : (listRun none calls).2 = none := by
  induction calls with
  | nil => rfl
  | cons call rest ih => cases call <;> exact ih

theorem caslistNew_pushable {begin end_ : Nat} (small : end_ < 2 ^ 64) (list : Caslist)
    (created : caslistNew begin end_ = some list) : list.Pushable := by
  by_cases refused : begin > end_ ∨ (begin = 0 ∧ end_ > 0)
  · simp [caslistNew, refused] at created
  · have valid : ValidRange begin end_ := by
      unfold ValidRange
      omega
    obtain ⟨list', created', represents⟩ := caslistNew_represents valid
    rw [created] at created'
    cases created'
    refine Or.inr ⟨setNew begin end_, 0, ?_, ?_⟩
    · rw [← represents.size_eq, withSize_size]
      exact represents
    · rw [Int.add_zero]
      exact represents.size_eq

end Pushes

def PushableList (list : Option Caslist) : Prop := ∀ l, list = some l → l.Pushable

section Lists

variable {list : Option Caslist}

theorem BuiltList.pushable (built : BuiltList list) : PushableList list := by
  obtain ⟨begin, end_, calls, -, small, values, rfl⟩ := built
  intro l found
  cases created : caslistNew begin end_ with
  | none =>
    rw [created, listRun_null] at found
    cases found
  | some first =>
    obtain ⟨last, run, pushable⟩ := (caslistNew_pushable small first created).run calls values
    rw [created, run] at found
    cases found
    exact pushable

theorem PushableList.push (pushable : PushableList list) {val : Nat} (small : val < 2 ^ 64) :
    PushableList (caslistPush list val) := by
  intro l pushed
  cases list with
  | none => cases pushed
  | some first =>
    by_cases zero : val = 0
    · simp only [caslistPush, zero, if_true, Option.some.injEq] at pushed
      exact pushed ▸ pushable first rfl
    · simp only [caslistPush, zero, if_false, Option.some.injEq] at pushed
      exact pushed ▸ (pushable first rfl).push zero small

theorem PushableList.push_comm (pushable : PushableList list) {a b : Nat} (a_small : a < 2 ^ 64)
    (b_small : b < 2 ^ 64) :
    caslistPush (caslistPush list a) b = caslistPush (caslistPush list b) a := by
  cases list with
  | none => rfl
  | some first =>
    by_cases a_zero : a = 0
    · simp [caslistPush, a_zero]
    · by_cases b_zero : b = 0
      · simp [caslistPush, b_zero]
      · simp only [caslistPush, a_zero, b_zero, if_false]
        rw [(pushable first rfl).push_comm a_zero b_zero a_small b_small]

theorem PushableList.push_foldl (pushable : PushableList list) {val : Nat} (small : val < 2 ^ 64)
    (vals : List Nat) (all_small : ∀ v ∈ vals, v < 2 ^ 64) :
    caslistPush (vals.foldl caslistPush list) val = vals.foldl caslistPush (caslistPush list val) := by
  induction vals generalizing list with
  | nil => rfl
  | cons v rest ih =>
    have v_small := all_small v List.mem_cons_self
    rw [List.foldl_cons, ih (pushable.push v_small) fun w member => all_small w (List.mem_cons_of_mem _ member),
      List.foldl_cons, pushable.push_comm v_small small]

theorem PushableList.foldl_comm (pushable : PushableList list) (vals vals' : List Nat)
    (small : ∀ v ∈ vals, v < 2 ^ 64) (small' : ∀ v ∈ vals', v < 2 ^ 64) :
    vals'.foldl caslistPush (vals.foldl caslistPush list) =
      vals.foldl caslistPush (vals'.foldl caslistPush list) := by
  induction vals' generalizing list with
  | nil => rfl
  | cons v rest ih =>
    have v_small := small' v List.mem_cons_self
    rw [List.foldl_cons, List.foldl_cons, pushable.push_foldl v_small vals small]
    exact ih (pushable.push v_small) fun w member => small' w (List.mem_cons_of_mem _ member)

end Lists

end PmBackend
