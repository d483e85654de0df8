import PmBackend.CommitSeal
import PmBackend.LogWalks

set_option autoImplicit false

namespace PmBackend

open ByteMemory

-- the end mark of the inner loop
def TxEntry.halts (entry : TxEntry) : Bool := entry.blkId1 == 0 && entry.blkId2 == 0

def replayed (m : Mem) (slot : Nat) : List (Nat × TxEntry) :=
  (slotStrides m slot).takeWhile fun r => !r.2.halts

section Replays

variable {h : Handle} {s s' : Store} {i : Nat}

theorem halts_iff (entry : TxEntry) : entry.halts = true ↔ entry.blkId1 = 0 ∧ entry.blkId2 = 0 := by
  simp [TxEntry.halts]

theorem checkWalk_eq (layout : h.LogLayout) (known : i < h.txSlotsCount) (m : Mem) (txSlotId stop : Nat)
    (commit : Bool) (bound : stop = u64 (h.slotAddr i + slotSize m (h.slotAddr i)))
    (fuel more pos : Nat) (s : Store) (start : h.slotAddr i ≤ pos) (enough : stop - pos ≤ fuel)
    (rounds : fuel < more) (same : ∀ x, h.slotAddr i ≤ x → x < h.logEnd → s.pool.mem x = m x)
    (inside : ∀ r ∈ strideWalk m stop fuel pos, r.1 + 24 ≤ h.logEnd) :
    checkWalk h txSlotId (h.slotAddr i) commit more pos s =
      ((strideWalk m stop fuel pos).takeWhile fun r => !r.2.halts).foldlM
        (fun t r => checkEntry h t txSlotId (h.slotAddr i + sizeofTxSlot) commit r.2) s := by
  -- the loop reads its bound and its entries below the blocks, where it stores nothing
  have room := layout.slot_room
  have below := Handle.slot_below known
  have size_eq : ∀ t : Store, (∀ x, h.slotAddr i ≤ x → x < h.logEnd → t.pool.mem x = m x) →
      u64 (h.slotAddr i + slotSize t.pool.mem (h.slotAddr i)) = stop := by
    intro t agrees
    rw [bound, slotSize, word_congr m t.pool.mem _ _ fun x lower upper => agrees x (by omega) (by omega)]
  induction fuel generalizing more pos s with
  | zero =>
    obtain ⟨later, rfl⟩ : ∃ later, more = later + 1 := ⟨more - 1, by omega⟩
    have done : ¬pos < stop := by omega
    simp only [checkWalk, size_eq s same, done, if_false, strideWalk, List.takeWhile_nil, List.foldlM_nil]
    rfl
  | succ fuel ih =>
    obtain ⟨later, rfl⟩ : ∃ later, more = later + 1 := ⟨more - 1, by omega⟩
    unfold strideWalk at inside ⊢
    by_cases again : pos < stop
    · rw [if_pos again] at inside ⊢
      have first := inside _ List.mem_cons_self
      have entry : readEntry s.pool.mem pos = readEntry m pos :=
        readEntry_congr fun x lower upper => same x (by omega) (by omega)
      simp only [checkWalk, size_eq s same, again, if_true, entry]
      by_cases mark : (readEntry m pos).blkId1 = 0 ∧ (readEntry m pos).blkId2 = 0
      · have halts := (halts_iff _).mpr mark
        simp only [mark, and_self, if_true, List.takeWhile_cons, halts, Bool.not_true, Bool.false_eq_true,
          if_false, List.foldlM_nil]
        rfl
      · have goes : (readEntry m pos).halts = false := by
          rw [← Bool.not_eq_true, halts_iff]
          exact mark
        simp only [mark, if_false, List.takeWhile_cons, goes, Bool.not_false, if_true, List.foldlM_cons]
        cases step : checkEntry h s txSlotId (h.slotAddr i + sizeofTxSlot) commit (readEntry m pos) with
        | none => rfl
        | some next =>
          have bytes : sizeofTxEntry = 24 := rfl
          refine ih later (pos + sizeofTxEntry) next (by omega) (by omega) (by omega) (fun x lower upper => ?_)
            fun r member => inside r (List.mem_cons_of_mem _ member)
          rw [(checkEntry_blocksOnly layout step).changed x (by simpa [Handle.blockArea] using upper)]
          exact same x lower upper
    · simp only [checkWalk, size_eq s same, again, if_false, List.takeWhile_nil, List.foldlM_nil]
      rfl

theorem checkSlot_replays (layout : h.LogLayout) (known : i < h.txSlotsCount) (m : Mem)
    (same : ∀ x, h.slotAddr i ≤ x → x < h.logEnd → s.pool.mem x = m x)
    (used : h.status s i ≠ TxStatus.empty.code)
    (inside : ∀ r ∈ slotStrides m (h.slotAddr i), r.1 + 24 ≤ h.logEnd) :
    checkSlot h s i =
      ((replayed m (h.slotAddr i)).foldlM (fun t r => checkEntry h t i (h.slotAddr i + sizeofTxSlot)
        (slotAccepted h s.pool.mem (h.slotAddr i)) r.2) s).map fun t => slotReset h t (h.slotAddr i) i := by
  -- the replay of one slot, from a store that agrees with `m` from the slot to the end of the log
  have used' : ¬slotStatus s.pool.mem (h.slotAddr i) = TxStatus.empty.code := used
  have rounds : u64 (h.slotAddr i + slotSize m (h.slotAddr i)) - (h.slotAddr i + sizeofTxSlot) < 2 ^ 64 :=
    lt_of_le_of_lt (Nat.sub_le _ _) (u64_lt _)
  unfold slotStrides at inside
  have walk := checkWalk_eq layout known m i (u64 (h.slotAddr i + slotSize m (h.slotAddr i)))
    (slotAccepted h s.pool.mem (h.slotAddr i)) rfl
    (u64 (h.slotAddr i + slotSize m (h.slotAddr i)) - (h.slotAddr i + sizeofTxSlot)) (2 ^ 64)
    (h.slotAddr i + sizeofTxSlot) s (Nat.le_add_right _ _) (le_refl _) rounds same inside
  rw [checkSlot_accepted, layout.slot_eq known]
  simp only
  rw [if_neg used', walk, replayed, slotStrides]

theorem checkEntry_lists {txSlotId entries : Nat} {commit : Bool} {entry : TxEntry}
    (other : commit = true → entry.type ≠ TxOp.updinplace.code)
    (checked : checkEntry h s txSlotId entries commit entry = some s') : s'.updIdList = s.updIdList := by
  have zero : ∀ obj, (s.setZero obj).updIdList = s.updIdList := fun _ => rfl
  unfold checkEntry at checked
  split at checked
  · cases checked
    split
    · rfl
    · exact zero _
  · split at checked
    · cases checked
      split
      · exact zero _
      · rfl
    · split at checked
      · cases checked
        exact zero _
      · split at checked
        · next updinplace =>
          split at checked
          · next commited => exact absurd updinplace (other commited)
          · cases checked
            rfl
        · cases checked
          rfl

end Replays

end PmBackend
