import Mathlib.Logic.Function.Basic
import PmBackend.LogContents

set_option autoImplicit false

namespace PmBackend

-- the log of a slot that is not EMPTY
structure SlotView where
  status : Nat
  entries : List TxEntry
  deriving DecidableEq, Repr

-- the block that an entry has newly written
def Writes (entry : TxEntry) (id : Nat) : Prop :=
  (entry.type = TxOp.write.code ∧ entry.blkId1 = id) ∨ (entry.type = TxOp.update.code ∧ entry.blkId2 = id)

section Ownership

variable (free : Nat → Prop) (view : Nat → Option SlotView) (taken : Nat → Option Nat)

def NewBlock (i id : Nat) : Prop := ∃ v, view i = some v ∧ ∃ entry ∈ v.entries, Writes entry id

-- an old block of UPDATE or REMOVE in a COMMITED slot
def OldBlockOf (i id : Nat) : Prop :=
  ∃ v, view i = some v ∧ v.status = TxStatus.commited.code ∧ ∃ entry ∈ v.entries, Zeroes entry ∧ entry.blkId1 = id

-- what replay zeroes for a slot: old blocks when it is COMMITED, else new blocks
def Named (i id : Nat) : Prop :=
  OldBlockOf view i id ∨
    ∃ v, view i = some v ∧ v.status ≠ TxStatus.commited.code ∧ ∃ entry ∈ v.entries, Writes entry id

-- a block of an open transaction: popped, or in its log
def Held (i id : Nat) : Prop := taken i = some id ∨ NewBlock view i id

structure Ownership (n : Nat) : Prop where
  held_not_free : ∀ i < n, ∀ id, Held view taken i id → ¬free id
  held_once : ∀ i < n, ∀ j < n, i ≠ j → ∀ id, Held view taken i id → ¬Held view taken j id
  old_not_free : ∀ i < n, ∀ id, OldBlockOf view i id → ¬free id
  old_not_held : ∀ i < n, ∀ j < n, i ≠ j → ∀ id, OldBlockOf view i id → ¬Held view taken j id
  taken_fresh : ∀ i < n, ∀ id, taken i = some id → ¬OldBlockOf view i id ∧ ¬NewBlock view i id

end Ownership

section Steps

variable {free free' : Nat → Prop} {view : Nat → Option SlotView} {taken : Nat → Option Nat} {n i : Nat}

theorem Ownership.named (owned : Ownership free view taken n) {id : Nat} (known : i < n)
    (named : Named view i id) : ¬free id ∧ ∀ j < n, j ≠ i → ¬NewBlock view j id := by
  -- the property itself: what replay may zero is neither free nor new in another transaction
  rcases named with old | ⟨v, viewed, -, new⟩
  · exact ⟨owned.old_not_free i known id old, fun j bound other new =>
      owned.old_not_held i known j bound other.symm id old (Or.inr new)⟩
  · have held : Held view taken i id := Or.inr ⟨v, viewed, new⟩
    exact ⟨owned.held_not_free i known id held, fun j bound other new' =>
      owned.held_once i known j bound other.symm id held (Or.inr new')⟩

theorem Ownership.take (owned : Ownership free view taken n) {id : Nat} (idle : taken i = none)
    (was_free : free id) (less : ∀ x, free' x → free x ∧ x ≠ id) :
    Ownership free' view (Function.update taken i (some id)) n := by
  have held : ∀ j x, Held view (Function.update taken i (some id)) j x → Held view taken j x ∨ (j = i ∧ x = id) := by
    rintro j x (new | new)
    · by_cases same : j = i
      · subst same
        rw [Function.update_self] at new
        exact Or.inr ⟨rfl, (Option.some.inj new).symm⟩
      · rw [Function.update_of_ne same] at new
        exact Or.inl (Or.inl new)
    · exact Or.inl (Or.inr new)
  refine ⟨fun j bound x holds still => ?_, fun j bound k bound' other x holds holds' => ?_,
    fun j bound x old still => owned.old_not_free j bound x old (less x still).1,
    fun j bound k bound' other x old holds => ?_, fun j bound x taken' => ?_⟩
  · rcases held j x holds with before | ⟨-, rfl⟩
    · exact owned.held_not_free j bound x before (less x still).1
    · exact (less x still).2 rfl
  · rcases held j x holds with before | ⟨here, is⟩ <;> rcases held k x holds' with before' | ⟨here', is'⟩
    · exact owned.held_once j bound k bound' other x before before'
    · exact owned.held_not_free j bound x before (is' ▸ was_free)
    · exact owned.held_not_free k bound' x before' (is ▸ was_free)
    · exact other (here.trans here'.symm)
  · rcases held k x holds with before | ⟨-, is⟩
    · exact owned.old_not_held j bound k bound' other x old before
    · exact owned.old_not_free j bound x old (is ▸ was_free)
  · by_cases same : j = i
    · subst same
      rw [Function.update_self] at taken'
      cases taken'
      exact ⟨fun old => owned.old_not_free j bound id old was_free, fun new =>
        owned.held_not_free j bound id (Or.inr new) was_free⟩
    · rw [Function.update_of_ne same] at taken'
      exact owned.taken_fresh j bound x taken'

theorem Ownership.shrink (owned : Ownership free view taken n) (v : Option SlotView) (t : Option Nat)
    (held : ∀ x, Held (Function.update view i v) (Function.update taken i t) i x → Held view taken i x)
    (old : ∀ x, OldBlockOf (Function.update view i v) i x → OldBlockOf view i x ∨
      (¬free x ∧ ∀ j < n, j ≠ i → ¬Held view taken j x))
    (fresh : ∀ x, t = some x → ¬OldBlockOf (Function.update view i v) i x ∧
      ¬NewBlock (Function.update view i v) i x) :
    Ownership free (Function.update view i v) (Function.update taken i t) n := by
  -- a change of one slot and of its popped block, after which it holds no more and names no more
  have new_other : ∀ j ≠ i, ∀ x, NewBlock (Function.update view i v) j x ↔ NewBlock view j x := by
    intro j other x
    simp only [NewBlock, Function.update_of_ne other]
  have old_other : ∀ j ≠ i, ∀ x, OldBlockOf (Function.update view i v) j x ↔ OldBlockOf view j x := by
    intro j other x
    simp only [OldBlockOf, Function.update_of_ne other]
  have holds : ∀ j x, Held (Function.update view i v) (Function.update taken i t) j x → Held view taken j x := by
    intro j x
    by_cases same : j = i
    · subst same
      exact held x
    · simp only [Held, new_other j same, Function.update_of_ne same]
      exact id
  refine ⟨fun j bound x h' => owned.held_not_free j bound x (holds j x h'),
    fun j bound k bound' other x h' h'' => owned.held_once j bound k bound' other x (holds j x h') (holds k x h''),
    fun j bound x old' => ?_, fun j bound k bound' other x old' h' => ?_, fun j bound x taken' => ?_⟩
  · by_cases same : j = i
    · subst same
      rcases old x old' with before | ⟨not_free, -⟩
      · exact owned.old_not_free j bound x before
      · exact not_free
    · exact owned.old_not_free j bound x ((old_other j same x).mp old')
  · by_cases same : j = i
    · subst same
      rcases old x old' with before | ⟨-, not_held⟩
      · exact owned.old_not_held j bound k bound' other x before (holds k x h')
      · exact not_held k bound' other.symm (holds k x h')
    · exact owned.old_not_held j bound k bound' other x ((old_other j same x).mp old') (holds k x h')
  · by_cases same : j = i
    · subst same
      rw [Function.update_self] at taken'
      exact fresh x taken'
    · rw [Function.update_of_ne same] at taken'
      rw [new_other j same, old_other j same]
      exact owned.taken_fresh j bound x taken'

theorem Ownership.giveBack (owned : Ownership free view taken n) (known : i < n) {id : Nat}
    (was_taken : taken i = some id) (more : ∀ x, free' x → free x ∨ x = id) :
    Ownership free' view (Function.update taken i none) n := by
  have dropped := owned.shrink (i := i) (view i) none
    (fun x holds => by
      rcases holds with impossible | new
      · rw [Function.update_self] at impossible
        cases impossible
      · rw [Function.update_eq_self] at new
        exact Or.inr new)
    (fun x old => by
      rw [Function.update_eq_self] at old
      exact Or.inl old)
    (fun x impossible => by cases impossible)
  rw [Function.update_eq_self] at dropped
  have fresh := owned.taken_fresh i known id was_taken
  refine ⟨fun j bound x holds still => ?_, dropped.held_once, fun j bound x old still => ?_,
    dropped.old_not_held, dropped.taken_fresh⟩
  · rcases more x still with before | rfl
    · exact dropped.held_not_free j bound x holds before
    · by_cases same : j = i
      · subst same
        rcases holds with impossible | new
        · rw [Function.update_self] at impossible
          cases impossible
        · exact fresh.2 new
      · rcases holds with other | new
        · rw [Function.update_of_ne same] at other
          exact owned.held_once i known j bound (Ne.symm same) x (Or.inl was_taken) (Or.inl other)
        · exact owned.held_once i known j bound (Ne.symm same) x (Or.inl was_taken) (Or.inr new)
  · rcases more x still with before | rfl
    · exact dropped.old_not_free j bound x old before
    · by_cases same : j = i
      · subst same
        exact fresh.1 old
      · exact owned.old_not_held j bound i known same x old (Or.inl was_taken)

end Steps

end PmBackend
