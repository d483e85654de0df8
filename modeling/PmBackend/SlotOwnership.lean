import Mathlib.Logic.Relation
import PmBackend.Blocks
import PmBackend.PutCases

set_option autoImplicit false

namespace PmBackend

open ByteMemory

section Transactions

variable {h : Handle}

theorem txSlotExecute_spec (layout : h.LogLayout) {s s' : Store} {ret : Status} {i : Nat}
    (known : i < h.txSlotsCount) (done : txSlotExecute h s (i + 1) = some (s', ret)) :
    (h.status s i ≠ TxStatus.commited.code ∧ s' = s ∧ ret = .err) ∨
      (h.status s i = TxStatus.commited.code ∧ ret = .ok ∧ SlotChanged h i s s' ∧
        h.status s' i = TxStatus.empty.code ∧ s'.txSlotsList = s.txSlotsList) := by
  unfold txSlotExecute at done
  rw [layout.txDirect_eq (by omega) (by omega)] at done
  simp only [Nat.add_sub_cancel] at done
  split at done
  · next other =>
    cases done
    exact Or.inl ⟨other, rfl, rfl⟩
  · next commited =>
    right
    obtain ⟨walked, walk, rest⟩ := Option.bind_eq_some_iff.mp done
    obtain ⟨processed, process, finish⟩ := Option.map_eq_some_iff.mp rest
    cases finish
    have blocks := (executeWalk_blocksOnly layout walk).trans (txSlotMetaUpdProcess_blocksOnly layout process)
    exact ⟨not_not.mp commited, rfl, (blocks.slotChanged i).trans (setZeroSlot_changed layout processed i).slotChanged,
      setZeroSlot_status processed i, blocks.slots⟩

theorem txSlotAbort_spec (layout : h.LogLayout) (s : Store) {i : Nat} (known : i < h.txSlotsCount) :
    (h.status s i ≠ TxStatus.processing.code ∧ h.status s i ≠ TxStatus.commited.code ∧
        txSlotAbort h s (i + 1) = (s, .err)) ∨
      ((h.status s i = TxStatus.processing.code ∨ h.status s i = TxStatus.commited.code) ∧
        (txSlotAbort h s (i + 1)).2 = .ok ∧ SlotChanged h i s (txSlotAbort h s (i + 1)).1 ∧
        h.status (txSlotAbort h s (i + 1)).1 i = TxStatus.empty.code ∧
        (txSlotAbort h s (i + 1)).1.txSlotsList = s.txSlotsList) := by
  unfold txSlotAbort
  rw [layout.txDirect_eq (by omega) (by omega), layout.txIndex_eq (by omega) (by omega)]
  simp only [Nat.add_sub_cancel]
  split
  · next closed => exact Or.inl ⟨closed.1, closed.2, rfl⟩
  · next busy =>
    right
    have walked : BlocksOnly h (slotAborted h s (h.slotAddr i) i)
        (abortLog h (slotAborted h s (h.slotAddr i) i) (h.slotAddr i)) := abortWalk_blocksOnly layout _ _ _ _
    have status : h.status s i = TxStatus.processing.code ∨ h.status s i = TxStatus.commited.code := by
      simpa only [Handle.status, ne_eq, not_and_or, not_not] using busy
    exact ⟨status, rfl, ((slotAborted_changed layout s i i).slotChanged.trans (walked.slotChanged i)).trans
      (slotReset_changed layout _ i i).slotChanged, slotReset_status _ i i, walked.slots⟩

end Transactions

def SlotsOwned (h : Handle) (s : Store) : Prop :=
  ∃ ids, ListOf s.txSlotsList ids ∧
    ∀ id, id ∈ ids ↔ (1 ≤ id ∧ id ≤ h.txSlotsCount) ∧ h.status s (id - 1) = TxStatus.empty.code

-- no call leaves a slot ABORTED
def KnownStatus (h : Handle) (s : Store) (i : Nat) : Prop :=
  h.status s i = TxStatus.empty.code ∨ h.status s i = TxStatus.processing.code ∨
    h.status s i = TxStatus.commited.code

structure SlotInvariant (h : Handle) (s : Store) : Prop where
  owned : SlotsOwned h s
  statuses : ∀ i < h.txSlotsCount, KnownStatus h s i
  log_fits : ∀ i < h.txSlotsCount, h.status s i = TxStatus.processing.code →
    sizeofTxSlot ≤ h.size s i ∧ h.size s i ≤ h.backend.txSlotSize

section Invariant

variable {h : Handle} {s s' : Store}

theorem SlotInvariant.keep (layout : h.LogLayout) (inv : SlotInvariant h s) {i : Nat}
    (known : i < h.txSlotsCount) (changed : SlotChanged h i s s') (lists : s'.txSlotsList = s.txSlotsList)
    (status : h.status s' i = TxStatus.empty.code ↔ h.status s i = TxStatus.empty.code)
    (valid : KnownStatus h s' i)
    (fits : h.status s' i = TxStatus.processing.code →
      sizeofTxSlot ≤ h.size s' i ∧ h.size s' i ≤ h.backend.txSlotSize) : SlotInvariant h s' := by
  refine ⟨?_, fun j bound => ?_, fun j bound processing => ?_⟩
  · obtain ⟨ids, free, iff⟩ := inv.owned
    refine ⟨ids, by rwa [lists], fun id => ?_⟩
    rw [iff]
    apply and_congr_right
    intro bounds
    by_cases same : id - 1 = i
    · rw [same, status]
    · rw [(changed.other layout (by omega) same).1]
  · by_cases same : j = i
    · subst same
      exact valid
    · unfold KnownStatus
      rw [(changed.other layout bound same).1]
      exact inv.statuses j bound
  · by_cases same : j = i
    · subst same
      exact fits processing
    · obtain ⟨status', size'⟩ := changed.other layout bound same
      rw [size']
      exact inv.log_fits j bound (status' ▸ processing)

theorem SlotInvariant.blocks (layout : h.LogLayout) (inv : SlotInvariant h s) (blocks : BlocksOnly h s s') :
    SlotInvariant h s' := by
  have known : 0 < h.txSlotsCount := layout.some_slot
  obtain ⟨status, size⟩ := blocks.slot_words layout known
  refine inv.keep layout known (blocks.slotChanged 0) blocks.slots (by rw [status]) ?_ fun processing => ?_
  · unfold KnownStatus
    rw [status]
    exact inv.statuses 0 known
  · rw [size]
    exact inv.log_fits 0 known (status ▸ processing)

theorem SlotInvariant.free (layout : h.LogLayout) (inv : SlotInvariant h s) {i : Nat}
    (known : i < h.txSlotsCount) (changed : SlotChanged h i s s') (lists : s'.txSlotsList = s.txSlotsList)
    (status : h.status s' i = TxStatus.empty.code) : SlotInvariant h (txLogFreeSlot s' (i + 1)) := by
  have few := layout.few_slots
  refine ⟨?_, fun j bound => ?_, fun j bound processing => ?_⟩
  · obtain ⟨ids, free, iff⟩ := inv.owned
    rw [← lists] at free
    refine ⟨insert (i + 1) ids, free.push_pos (by omega) (by omega), fun id => ?_⟩
    rw [Finset.mem_insert, iff]
    change _ ↔ _ ∧ h.status s' (id - 1) = _
    by_cases same : id = i + 1
    · subst same
      simp only [true_or, Nat.add_sub_cancel, status, and_true, true_iff]
      omega
    · simp only [same, false_or]
      apply and_congr_right
      intro bounds
      rw [(changed.other layout (by omega) (by omega)).1]
  · change KnownStatus h s' j
    by_cases same : j = i
    · subst same
      exact Or.inl status
    · unfold KnownStatus
      rw [(changed.other layout bound same).1]
      exact inv.statuses j bound
  · change h.status s' j = _ at processing
    change _ ≤ h.size s' j ∧ h.size s' j ≤ _
    by_cases same : j = i
    · subst same
      rw [status] at processing
      cases processing
    · obtain ⟨status', size'⟩ := changed.other layout bound same
      rw [size']
      exact inv.log_fits j bound (status' ▸ processing)

theorem SlotInvariant.free_again (layout : h.LogLayout) (inv : SlotInvariant h s) {i : Nat}
    (known : i < h.txSlotsCount) (status : h.status s i = TxStatus.empty.code) :
    SlotInvariant h (txLogFreeSlot s (i + 1)) :=
  inv.free layout known (SlotChanged.refl i s) rfl status

theorem SlotInvariant.begins (layout : h.LogLayout) (inv : SlotInvariant h s) :
    SlotInvariant h (pmbTxBegin h s).1 ∧
      ((pmbTxBegin h s).2.1 = .ok → (1 ≤ (pmbTxBegin h s).2.2 ∧ (pmbTxBegin h s).2.2 ≤ h.txSlotsCount) ∧
        h.status s ((pmbTxBegin h s).2.2 - 1) = TxStatus.empty.code) := by
  have few := layout.few_slots
  obtain ⟨ids, free, iff⟩ := inv.owned
  by_cases empty : ids = ∅
  · subst empty
    have popped := free.pop_empty 0
    have failed : pmbTxBegin h s = (s, .err, 0) := by simp [pmbTxBegin, popped]
    rw [failed]
    exact ⟨inv, fun impossible => by cases impossible⟩
  · obtain ⟨least, member, -, ret, val, rest⟩ :=
      free.pop (Finset.nonempty_iff_ne_empty.mpr empty)
        (fun id inside => by have := ((iff id).mp inside).1; omega) 0
    obtain ⟨bounds, status⟩ := (iff least).mp member
    obtain ⟨i, rfl⟩ : ∃ i, least = i + 1 := ⟨least - 1, by omega⟩
    rw [Nat.add_sub_cancel] at status
    have known : i < h.txSlotsCount := by omega
    obtain ⟨only, status', size'⟩ :=
      txSlotInit_spec layout { s with txSlotsList := (caslistPop s.txSlotsList 0).list } known
    have changed := only.slotChanged
    have begun : pmbTxBegin h s =
        ((txSlotInit h { s with txSlotsList := (caslistPop s.txSlotsList 0).list } (i + 1)).1, .ok, i + 1) := by
      simp [pmbTxBegin, ret, val, txSlotInit_eq layout _ known]
    rw [begun]
    refine ⟨⟨⟨ids.erase (i + 1), ?_, fun id => ?_⟩, fun j bound => ?_, fun j bound processing => ?_⟩,
      fun _ => ⟨bounds, status⟩⟩
    · rw [txSlotInit_eq layout _ known]
      exact rest
    · rw [Finset.mem_erase, iff]
      by_cases same : id = i + 1
      · subst same
        simp only [Nat.add_sub_cancel, status']
        simp [TxStatus.code]
      · simp only [ne_eq, same, not_false_eq_true, true_and]
        apply and_congr_right
        intro range
        rw [(changed.other layout (by omega) (by omega)).1]
        rfl
    · by_cases same : j = i
      · subst same
        exact Or.inr (Or.inl status')
      · unfold KnownStatus
        rw [(changed.other layout bound same).1]
        exact inv.statuses j bound
    · by_cases same : j = i
      · subst same
        rw [size']
        exact ⟨le_refl _, layout.slot_room⟩
      · obtain ⟨status'', size''⟩ := changed.other layout bound same
        rw [size'']
        exact inv.log_fits j bound (status'' ▸ processing)

theorem SlotInvariant.append (layout : h.LogLayout) (inv : SlotInvariant h s) {txSlot : Nat}
    (positive : txSlot ≠ 0) (known : txSlot ≤ h.txSlotsCount) {fill : Pool → Nat → Pool} {len : Nat}
    (fills : FillsEntry fill len) (fits : EntryFits h s txSlot len) :
    SlotInvariant h (txSlotAppend h s txSlot fill len).1 := by
  obtain ⟨i, rfl⟩ : ∃ i, txSlot = i + 1 := ⟨txSlot - 1, by omega⟩
  have bound : i < h.txSlotsCount := by omega
  by_cases processing : h.status s i = TxStatus.processing.code
  · obtain ⟨started, room⟩ := inv.log_fits i bound processing
    have ends := fits processing
    rw [Nat.add_sub_cancel] at ends
    obtain ⟨-, changed, status, size⟩ := txSlotAppend_spec layout s bound fills processing started ends
    refine inv.keep layout bound changed.slotChanged (txSlotAppend_slots h s _ fill len) (by rw [status, processing])
      (Or.inr (Or.inl status)) ?_
    rw [size]
    exact fun _ => ⟨by omega, ends⟩
  · rw [txSlotAppend_eq layout s bound, if_neg processing]
    exact inv

theorem SlotInvariant.logNewBlock (layout : h.LogLayout) (inv : SlotInvariant h s) {txSlot : Nat}
    (positive : txSlot ≠ 0) (known : txSlot ≤ h.txSlotsCount) (fits : EntryFits h s txSlot sizeofTxEntry)
    (oldBlkId newBlkId : Nat) : SlotInvariant h (logNewBlock h s txSlot oldBlkId newBlkId).1 := by
  unfold PmBackend.logNewBlock
  split
  · exact inv.append layout positive known (fillsEntry_update oldBlkId newBlkId) fits
  · exact inv.append layout positive known (fillsEntry_write newBlkId) fits

theorem SlotInvariant.tputNewBlock (layout : h.LogLayout) (inv : SlotInvariant h s) {txSlot : Nat}
    (positive : txSlot ≠ 0) (known : txSlot ≤ h.txSlotsCount) (fits : EntryFits h s txSlot sizeofTxEntry)
    (kv : PmbPair) (old : Option Nat) : SlotInvariant h (tputNewBlock h s txSlot kv old).1 := by
  have popped : SlotInvariant h { s with freeList := (caslistPop s.freeList 0).list } :=
    ⟨inv.owned, inv.statuses, inv.log_fits⟩
  have logged := popped.logNewBlock layout positive known fits kv.blkId (caslistPop s.freeList 0).val
  unfold PmBackend.tputNewBlock
  simp only
  split
  · exact popped
  · split
    · exact popped
    · next obj direct =>
      split
      · exact logged
      · exact logged.blocks layout (tputBlock_blocksOnly layout _ direct old kv)

theorem SlotInvariant.tput (layout : h.LogLayout) (inv : SlotInvariant h s) (txSlot : Nat) (kv : PmbPair)
    (fits : EntryFits h s txSlot (tputEntryLen h kv)) : SlotInvariant h (pmbTput h s txSlot kv).1 := by
  unfold pmbTput
  split
  · exact inv
  · next valid =>
    obtain ⟨positive, rest⟩ := not_or.mp valid
    have known : txSlot ≤ h.txSlotsCount := by omega
    split
    · exact inv
    · split
      · next small =>
        rw [tputEntryLen, if_pos small] at fits
        exact inv.append layout positive known (fillsEntry_smallUpdate h kv.blkId kv.valBytes kv.offset) fits
      · next large =>
        rw [tputEntryLen, if_neg large] at fits
        split
        · split
          · exact inv
          · exact inv.tputNewBlock layout positive known fits kv _
        · exact inv.tputNewBlock layout positive known fits kv _

theorem SlotInvariant.tputMetaNewBlock (layout : h.LogLayout) (inv : SlotInvariant h s) {txSlot : Nat}
    (positive : txSlot ≠ 0) (known : txSlot ≤ h.txSlotsCount) (fits : EntryFits h s txSlot sizeofTxEntry)
    (kv : PmbPair) (old : Option Nat) : SlotInvariant h (tputMetaNewBlock h s txSlot kv old).1 := by
  have popped : SlotInvariant h { s with metaFreeList := (caslistPop s.metaFreeList 0).list } :=
    ⟨inv.owned, inv.statuses, inv.log_fits⟩
  have logged := popped.logNewBlock layout positive known fits kv.blkId (caslistPop s.metaFreeList 0).val
  unfold PmBackend.tputMetaNewBlock
  simp only
  split
  · exact popped
  · split
    · exact popped
    · next obj direct =>
      split
      · exact ⟨logged.owned, logged.statuses, logged.log_fits⟩
      · exact logged.blocks layout (tputMetaBlock_blocksOnly layout _ direct old kv)

theorem SlotInvariant.tputMeta (layout : h.LogLayout) (inv : SlotInvariant h s) (txSlot : Nat) (kv : PmbPair)
    (fits : EntryFits h s txSlot sizeofTxEntry) : SlotInvariant h (pmbTputMeta h s txSlot kv).1 := by
  unfold pmbTputMeta
  split
  · exact inv
  · next valid =>
    obtain ⟨positive, rest⟩ := not_or.mp valid
    have known : txSlot ≤ h.txSlotsCount := by omega
    split
    · exact inv
    · split
      · exact inv
      · split
        · split
          · exact inv
          · exact inv.tputMetaNewBlock layout positive known fits kv _
        · exact inv.tputMetaNewBlock layout positive known fits kv _

theorem SlotInvariant.tdel (layout : h.LogLayout) (inv : SlotInvariant h s) (txSlot blkId : Nat)
    (fits : EntryFits h s txSlot sizeofTxEntry) : SlotInvariant h (pmbTdel h s txSlot blkId).1 := by
  unfold pmbTdel
  split
  · exact inv
  · next valid => exact inv.append layout (by omega) (by omega) (fillsEntry_remove blkId) fits

theorem SlotInvariant.commit (layout : h.LogLayout) (inv : SlotInvariant h s) (txSlot : Nat) :
    SlotInvariant h (pmbTxCommit h s txSlot).1 := by
  unfold pmbTxCommit
  split
  · exact inv
  · obtain ⟨i, rfl⟩ : ∃ i, txSlot = i + 1 := ⟨txSlot - 1, by omega⟩
    have known : i < h.txSlotsCount := by omega
    by_cases processing : h.status s i = TxStatus.processing.code
    · obtain ⟨-, changed, status, -⟩ := txSlotCommit_spec layout s known processing
      refine inv.keep layout known changed.slotChanged ?_ ?_ (Or.inr (Or.inr status)) ?_
      · rw [txSlotCommit_eq layout s known, if_pos processing]
      · simp [status, processing, TxStatus.code]
      · rw [status]
        intro impossible
        cases impossible
    · rw [txSlotCommit_eq layout s known, if_neg processing]
      exact inv

theorem SlotInvariant.execute (layout : h.LogLayout) (inv : SlotInvariant h s) {txSlot : Nat} {ret : Status}
    (finished : h.status s (txSlot - 1) ≠ TxStatus.processing.code)
    (done : pmbTxExecute h s txSlot = some (s', ret)) : SlotInvariant h s' := by
  unfold pmbTxExecute at done
  split at done
  · cases done
    exact inv
  · obtain ⟨i, rfl⟩ : ∃ i, txSlot = i + 1 := ⟨txSlot - 1, by omega⟩
    have known : i < h.txSlotsCount := by omega
    rw [Nat.add_sub_cancel] at finished
    obtain ⟨⟨executed, status⟩, execute, same⟩ := Option.map_eq_some_iff.mp done
    cases same
    rcases txSlotExecute_spec layout known execute with ⟨other, rfl, rfl⟩ | ⟨-, -, changed, empty, lists⟩
    · rcases inv.statuses i known with empty | processing | commited
      · exact inv.free_again layout known empty
      · exact absurd processing finished
      · exact absurd commited other
    · exact inv.free layout known changed lists empty

theorem SlotInvariant.abort (layout : h.LogLayout) (inv : SlotInvariant h s) (txSlot : Nat) :
    SlotInvariant h (pmbTxAbort h s txSlot).1 := by
  unfold pmbTxAbort
  split
  · exact inv
  · obtain ⟨i, rfl⟩ : ∃ i, txSlot = i + 1 := ⟨txSlot - 1, by omega⟩
    have known : i < h.txSlotsCount := by omega
    rcases txSlotAbort_spec layout s known with ⟨other, other', failed⟩ | ⟨-, -, changed, empty, lists⟩
    · rw [failed]
      rcases inv.statuses i known with empty | processing | commited
      · exact inv.free_again layout known empty
      · exact absurd processing other
      · exact absurd commited other'
    · exact inv.free layout known changed lists empty

theorem SlotInvariant.resolveConflict (layout : h.LogLayout) (inv : SlotInvariant h s) (blkId1 blkId2 : Nat) :
    SlotInvariant h (pmbResolveConflict h s blkId1 blkId2).1 := by
  unfold pmbResolveConflict
  split
  · exact inv
  · next obj1 found1 =>
    split
    · exact inv
    · next obj2 found2 =>
      have zero1 := setZero_blocksOnly layout s blkId1
      have zero2 := setZero_blocksOnly layout s blkId2
      rw [(backendGet_ok.mp found1).2.1] at zero1
      rw [(backendGet_ok.mp found2).2.1] at zero2
      have zeroed : ∀ obj list, BlocksOnly h s (s.setZero (some obj)) →
          SlotInvariant h { s.setZero (some obj) with freeList := list } := fun obj list zero =>
        inv.blocks layout ⟨zero.changed, zero.slots⟩
      simp only
      split
      · exact zeroed obj1 _ zero1
      · exact zeroed obj2 _ zero2

end Invariant

-- what keeps a call from reusing a busy slot: `pmb_tx_execute` only after the commit, and no entry beyond the end of
-- its slot
def SlotSafe (h : Handle) (s : Store) : Call → Prop
  | .tput txSlot kv => EntryFits h s txSlot (tputEntryLen h kv)
  | .tputMeta txSlot _ => EntryFits h s txSlot sizeofTxEntry
  | .tdel txSlot _ => EntryFits h s txSlot sizeofTxEntry
  | .txExecute txSlot => h.status s (txSlot - 1) ≠ TxStatus.processing.code
  | _ => True

def SlotStep (h : Handle) (s s' : Store) : Prop :=
  ∃ call ret, SlotSafe h s call ∧ runCall h s call = some (s', ret)

theorem SlotInvariant.step {h : Handle} {s s' : Store} (layout : h.LogLayout) (inv : SlotInvariant h s)
    (step : SlotStep h s s') : SlotInvariant h s' := by
  obtain ⟨call, ret, safe, run⟩ := step
  cases call with
  | txBegin =>
    cases run
    exact (inv.begins layout).1
  | tput txSlot kv =>
    cases run
    exact inv.tput layout txSlot kv safe
  | tputMeta txSlot kv =>
    cases run
    exact inv.tputMeta layout txSlot kv safe
  | tdel txSlot blkId =>
    cases run
    exact inv.tdel layout txSlot blkId safe
  | txCommit txSlot =>
    cases run
    exact inv.commit layout txSlot
  | txExecute txSlot =>
    obtain ⟨⟨executed, status⟩, execute, same⟩ := Option.map_eq_some_iff.mp run
    cases same
    exact inv.execute layout safe execute
  | txAbort txSlot =>
    cases run
    exact inv.abort layout txSlot
  | resolveConflict blkId1 blkId2 =>
    cases run
    exact inv.resolveConflict layout blkId1 blkId2

section Opening

variable {h : Handle}

theorem slotIdsLoop_lists (few_slots : h.txSlotsCount < 255) (rounds i : Nat) (positive : 1 ≤ i)
    (bound : i ≤ h.txSlotsCount + 1) (list list' : Option Caslist)
    (lists : ListOf list (Finset.Icc 1 h.txSlotsCount)) (done : slotIdsLoop h rounds i list = some list') :
    ListOf list' (Finset.Icc 1 h.txSlotsCount) := by
  -- `tx_log_init` pushes the ids of a list that has them already
  induction rounds generalizing i list with
  | zero => cases done
  | succ rounds ih =>
    unfold slotIdsLoop at done
    split at done
    · next known =>
      rw [Nat.mod_eq_of_lt (show i + 1 < 2 ^ 8 by omega)] at done
      refine ih (i + 1) (by omega) (by omega) _ ?_ done
      have pushed := lists.push_pos (show i ≠ 0 by omega) (by omega)
      rwa [Finset.insert_eq_self.mpr (Finset.mem_Icc.mpr ⟨positive, known⟩)] at pushed
    · cases done
      exact lists

theorem txLogInit_spec (layout : h.LogLayout) {s s' : Store} {heap : Nat → Nat → TxMeta}
    (done : txLogInit h s heap = some s') :
    s'.pool = s.pool ∧ ListOf s'.txSlotsList (Finset.Icc 1 h.txSlotsCount) := by
  have few := layout.few_slots
  obtain ⟨list, loop, rfl⟩ := Option.map_eq_some_iff.mp done
  refine ⟨rfl, ?_⟩
  exact slotIdsLoop_lists few _ 1 (le_refl 1) (by omega) _ _
    (caslistNew_spec (le_refl 1) layout.some_slot (by omega)) loop

theorem checkSlot_spec (layout : h.LogLayout) {s s' : Store} {i : Nat} (known : i < h.txSlotsCount)
    (checked : checkSlot h s i = some s') :
    SlotChanged h i s s' ∧ h.status s' i = TxStatus.empty.code ∧ s'.txSlotsList = s.txSlotsList := by
  unfold checkSlot at checked
  rw [layout.slot_eq known] at checked
  simp only at checked
  split at checked
  · next empty =>
    cases checked
    exact ⟨SlotChanged.refl i s, empty, rfl⟩
  · obtain ⟨walked, walk, rfl⟩ := Option.map_eq_some_iff.mp checked
    have blocks := checkWalk_blocksOnly layout walk
    exact ⟨(blocks.slotChanged i).trans (slotReset_changed layout walked i i).slotChanged,
      slotReset_status walked i i, blocks.slots⟩

theorem checkSlots_spec (layout : h.LogLayout) (rounds txSlotId : Nat) (bound : txSlotId ≤ h.txSlotsCount + 1)
    (s s' : Store) (checked : checkSlots h rounds txSlotId s = some s') :
    s'.txSlotsList = s.txSlotsList ∧ ∀ i < h.txSlotsCount,
      h.status s' i = if txSlotId ≤ i then TxStatus.empty.code else h.status s i := by
  -- the slot of index 0 is never looked at
  have few := layout.few_slots
  induction rounds generalizing txSlotId s with
  | zero => cases checked
  | succ rounds ih =>
    unfold checkSlots at checked
    split at checked
    · next round =>
      obtain ⟨next, slot, rest⟩ := Option.bind_eq_some_iff.mp checked
      rw [Nat.mod_eq_of_lt (show txSlotId + 1 < 2 ^ 8 by omega)] at rest
      obtain ⟨lists, statuses⟩ := ih (txSlotId + 1) (by omega) next rest
      by_cases known : txSlotId < h.txSlotsCount
      · obtain ⟨changed, empty, slots⟩ := checkSlot_spec layout known slot
        refine ⟨lists.trans slots, fun i inside => ?_⟩
        rw [statuses i inside]
        rcases lt_trichotomy txSlotId i with later | rfl | earlier
        · simp [show txSlotId + 1 ≤ i from later, show txSlotId ≤ i by omega]
        · simp [empty]
        · simp [show ¬txSlotId + 1 ≤ i by omega, show ¬txSlotId ≤ i by omega,
            (changed.other layout inside (by omega)).1]
      · have skipped : next = s := by
          unfold checkSlot at slot
          rw [layout.slot_none (by omega)] at slot
          cases slot
          rfl
        rw [skipped] at lists statuses
        refine ⟨lists, fun i inside => ?_⟩
        rw [statuses i inside, if_neg (by omega), if_neg (by omega)]
    · next finished =>
      cases checked
      refine ⟨rfl, fun i inside => ?_⟩
      rw [if_neg (by omega)]

theorem populateLoop_frame (h : Handle) (pos : Nat) (s : Store) :
    (populateLoop h pos s).pool = s.pool ∧ (populateLoop h pos s).txSlotsList = s.txSlotsList := by
  induction pos generalizing s with
  | zero => exact ⟨rfl, rfl⟩
  | succ pos ih =>
    unfold populateLoop
    obtain ⟨pool, slots⟩ := ih
      (if pos + 1 ≤ sub64 h.totalObjsCount 1 then { s with freeList := caslistPush s.freeList (pos + 1) }
      else { s with metaFreeList := caslistPush s.metaFreeList (pos + 1) })
    rw [pool, slots]
    split <;> exact ⟨rfl, rfl⟩

-- a store as `pmb_open` leaves it. A new pool is full of zeros; in one that existed, the first slot was EMPTY when it
-- was closed
inductive Opened (h : Handle) : Store → Prop where
  | created (s initial : Store) (heap : Nat → Nat → TxMeta)
      (zeros : ∀ x, h.backend.txLog ≤ x → x < h.logEnd → s.pool.mem x = 0)
      (init : txLogInit h s heap = some initial) : Opened h (openEmpty h initial)
  | existed (s initial recovered : Store) (heap : Nat → Nat → TxMeta)
      (first_empty : h.status s 0 = TxStatus.empty.code) (init : txLogInit h s heap = some initial)
      (reopened : OpenExisting h initial recovered) : Opened h recovered

theorem SlotInvariant.of_empty {s : Store}
    (lists : ListOf s.txSlotsList (Finset.Icc 1 h.txSlotsCount))
    (empty : ∀ i < h.txSlotsCount, h.status s i = TxStatus.empty.code) : SlotInvariant h s := by
  refine ⟨⟨_, lists, fun id => ?_⟩, fun i known => Or.inl (empty i known), fun i known processing => ?_⟩
  · rw [Finset.mem_Icc]
    refine ⟨fun bounds => ⟨bounds, empty _ (by omega)⟩, fun member => member.1⟩
  · rw [empty i known] at processing
    cases processing

theorem Opened.slotInvariant (layout : h.LogLayout) {s : Store} (opened : Opened h s) :
    SlotInvariant h s := by
  cases opened with
  | created before initial heap zeros init =>
    obtain ⟨pool, lists⟩ := txLogInit_spec layout init
    obtain ⟨pool', slots⟩ := populateLoop_frame h (sub64 (u64 (h.totalObjsCount + h.metaObjsCount)) 1)
      { initial with
        freeList := caslistNew 1 h.totalObjsCount
        metaFreeList := caslistNew 1 h.metaObjsCount
        objsList := none
        metaObjsList := none }
    refine SlotInvariant.of_empty (by rw [← slots] at lists; exact lists) fun i known => ?_
    have below := Handle.slot_below known
    have room := layout.slot_room
    have start : h.backend.txLog ≤ h.slotAddr i := by
      unfold Handle.slotAddr
      omega
    have status : h.status before i = TxStatus.empty.code :=
      word_of_zeros _ _ _ fun x lower upper => zeros x (by omega) (by omega)
    have same : (openEmpty h initial).pool = before.pool := pool'.trans pool
    unfold Handle.status
    rw [same]
    exact status
  | existed before initial recovered heap first_empty init reopened =>
    obtain ⟨pool, lists⟩ := txLogInit_spec layout init
    obtain ⟨checked, check, pushes, -, rfl⟩ := reopened
    obtain ⟨slots, statuses⟩ := checkSlots_spec layout _ 1 (by omega) initial checked check
    refine SlotInvariant.of_empty ?_ fun i known => ?_
    · rw [foldl_recoveryPush_txSlotsList]
      exact slots ▸ lists
    · unfold Handle.status
      rw [foldl_recoveryPush_pool]
      change h.status checked i = _
      rw [statuses i known]
      split
      · rfl
      · have first : i = 0 := by omega
        subst first
        unfold Handle.status at first_empty ⊢
        rw [pool]
        exact first_empty

end Opening

-- in a run of safe calls a slot is free exactly when it is EMPTY, and `pmb_tx_begin` hands out an EMPTY one
theorem slots_owned_run {h : Handle} (layout : h.LogLayout) {s s' : Store} (opened : Opened h s)
    (run : Relation.ReflTransGen (SlotStep h) s s') :
    SlotsOwned h s' ∧ ∀ s'' ret, runCall h s' .txBegin = some (s'', ret) → ret.status = .ok →
      (1 ≤ ret.txSlot ∧ ret.txSlot ≤ h.txSlotsCount) ∧
        h.status s' (ret.txSlot - 1) = TxStatus.empty.code := by
  have inv : SlotInvariant h s' := by
    induction run with
    | refl => exact opened.slotInvariant layout
    | tail _ step ih => exact ih.step layout step
  refine ⟨inv.owned, fun s'' ret begun success => ?_⟩
  cases begun
  exact (inv.begins layout).2 success

theorem sampleHandle_layout : sampleHandle.LogLayout :=
  Backend.Mapped.logLayout samplePool_noWrap samplePool_mapped rfl (by decide) (by decide)
    (by decide +kernel) (by decide +kernel) (by decide)

-- the sample pool just after it was made
def sampleStore : Store := openEmpty sampleHandle { zeroStore with txSlotsList := some ⟨1, 1, 1, []⟩ }

theorem sampleStore_opened : Opened sampleHandle sampleStore := by
  refine Opened.created zeroStore _ (fun _ _ => ⟨0, 0, 0⟩) (fun _ _ _ => rfl) ?_
  have loop : slotIdsLoop sampleHandle (2 ^ 8) 1 (caslistNew 1 sampleHandle.txSlotsCount) =
      some (some ⟨1, 1, 1, []⟩) := by decide +kernel
  simp only [txLogInit, loop, Option.map_some]
  rfl

theorem SlotStep.after {h : Handle} {s : Store} (call : Call)
    (success : (runCall h s call).map (fun done => done.2.status) = some .ok) (safe : SlotSafe h s call) :
    SlotStep h s (s.after h call) := by
  obtain ⟨ret, ran, -⟩ := runCall_after success
  exact ⟨call, ret, safe, ran⟩

-- a transaction puts an object and is executed, and its slot is taken again
def sampleCommited : Store :=
  ((sampleStore.after sampleHandle .txBegin).after sampleHandle (.tput 1 (onePair 0))).after sampleHandle (.txCommit 1)

def sampleExecuted : Store := sampleCommited.after sampleHandle (.txExecute 1)

theorem sampleCommited_run : Relation.ReflTransGen (SlotStep sampleHandle) sampleStore sampleCommited :=
  ((Relation.ReflTransGen.single (.after .txBegin (by decide +kernel) trivial)).tail
    (.after (.tput 1 (onePair 0)) (by decide +kernel) fun _ => by decide +kernel)).tail
    (.after (.txCommit 1) (by decide +kernel) trivial)

theorem slots_owned_run_sample :
    SlotsOwned sampleHandle sampleCommited ∧ SlotsOwned sampleHandle sampleExecuted ∧
      SlotsOwned sampleHandle (sampleExecuted.after sampleHandle .txBegin) := by
  have owned : ∀ s', Relation.ReflTransGen (SlotStep sampleHandle) sampleStore s' → SlotsOwned sampleHandle s' :=
    fun s' run => (slots_owned_run sampleHandle_layout sampleStore_opened run).1
  have commited : sampleHandle.status sampleCommited 0 = TxStatus.commited.code := by decide +kernel
  have executes : SlotStep sampleHandle sampleCommited sampleExecuted := .after (.txExecute 1) (by decide +kernel) (by
    change sampleHandle.status sampleCommited 0 ≠ TxStatus.processing.code
    rw [commited]
    decide)
  have begins : SlotStep sampleHandle sampleExecuted _ := .after .txBegin (by decide +kernel) trivial
  exact ⟨owned _ sampleCommited_run, owned _ (sampleCommited_run.tail executes),
    owned _ ((sampleCommited_run.tail executes).tail begins)⟩

-- `pmb_tx_execute` on a slot in PROCESSING fails, and the busy slot is free
theorem slot_lost_on_execute :
    (pmbTxBegin sampleHandle sampleStore).2 = (.ok, 1) ∧
      ∃ s', pmbTxExecute sampleHandle (pmbTxBegin sampleHandle sampleStore).1 1 = some (s', .err) ∧
        sampleHandle.status s' 0 = TxStatus.processing.code ∧ ¬SlotsOwned sampleHandle s' := by
  have executed : (pmbTxExecute sampleHandle (pmbTxBegin sampleHandle sampleStore).1 1).map
      (fun done => (done.1.txSlotsList, sampleHandle.status done.1 0, done.2)) =
        some (some ⟨1, 1, 1, []⟩, 1, .err) := by decide +kernel
  obtain ⟨⟨s', ret⟩, done, values⟩ := Option.map_eq_some_iff.mp executed
  simp only [Prod.mk.injEq] at values
  obtain ⟨list, status, rfl⟩ := values
  refine ⟨by decide +kernel, s', done, status, ?_⟩
  rintro ⟨ids, lists, iff⟩
  have member : 1 ∈ ids := (lists.listed 1).mp ⟨_, list, by decide⟩
  have empty := ((iff 1).mp member).2
  rw [Nat.sub_self, status] at empty
  cases empty

end PmBackend
