import PmBackend.BlockFrames

set_option autoImplicit false

namespace PmBackend

open ByteMemory

def Handle.status (h : Handle) (s : Store) (i : Nat) : Nat := slotStatus s.pool.mem (h.slotAddr i)

def Handle.size (h : Handle) (s : Store) (i : Nat) : Nat := slotSize s.pool.mem (h.slotAddr i)

-- stores go to one slot and to blocks only
def SlotChanged (h : Handle) (i : Nat) (s s' : Store) : Prop :=
  ChangedIn (h.slotArea i ∪ h.blockArea) s.pool.mem s'.pool.mem

def SlotOnly (h : Handle) (i : Nat) (s s' : Store) : Prop :=
  ChangedIn (h.slotArea i) s.pool.mem s'.pool.mem

section SlotFrames

variable {h : Handle} {s s' s'' : Store}

theorem SlotOnly.slotChanged {i : Nat} (only : SlotOnly h i s s') : SlotChanged h i s s' :=
  only.mono Set.subset_union_left

theorem SlotChanged.refl (i : Nat) (s : Store) : SlotChanged h i s s := ChangedIn.refl _ _

theorem SlotChanged.trans {i : Nat} (first : SlotChanged h i s s') (second : SlotChanged h i s' s'') :
    SlotChanged h i s s'' := ChangedIn.trans first second

theorem BlocksOnly.slotChanged (blocks : BlocksOnly h s s') (i : Nat) : SlotChanged h i s s' :=
  blocks.changed.mono Set.subset_union_right

theorem SlotChanged.other (layout : h.LogLayout) {i j : Nat} (changed : SlotChanged h j s s')
    (known : i < h.txSlotsCount) (other : i ≠ j) :
    h.status s' i = h.status s i ∧ h.size s' i = h.size s i := by
  have room := layout.slot_room
  exact ⟨slot_word_frame known other changed 8 4 (by omega), slot_word_frame known other changed 16 8 (by omega)⟩

theorem BlocksOnly.slot_words (layout : h.LogLayout) (blocks : BlocksOnly h s s') {i : Nat}
    (known : i < h.txSlotsCount) : h.status s' i = h.status s i ∧ h.size s' i = h.size s i := by
  have room := layout.slot_room
  have below := Handle.slot_below known
  have above : ∀ offset width, offset + width ≤ h.backend.txSlotSize → ∀ x ∈ h.blockArea,
      x < h.slotAddr i + offset ∨ h.slotAddr i + offset + width ≤ x := by
    intro offset width inside x block
    simp only [Handle.blockArea, Set.mem_ofPred_eq] at block
    omega
  exact ⟨blocks.changed.word _ _ (above 8 4 (by omega)), blocks.changed.word _ _ (above 16 8 (by omega))⟩

theorem slotHeader_area (layout : h.LogLayout) (i offset len : Nat) (inside : offset + len ≤ 24) :
    span (h.slotAddr i + offset) len ⊆ h.slotArea i := by
  have room := layout.slot_room
  exact span_subset (by omega) (by omega)

theorem txSlotInit_eq (layout : h.LogLayout) (s : Store) {i : Nat} (known : i < h.txSlotsCount) :
    txSlotInit h s (i + 1) =
      ({ s with
        pool := ((s.pool.setFlch64 (h.slotAddr i) 0).setStatus (h.slotAddr i) .processing).setSize
          (h.slotAddr i) sizeofTxSlot }, .ok) := by
  have valid : ¬(i + 1 = 0 ∨ i + 1 > h.txSlotsCount) := by omega
  unfold txSlotInit
  rw [if_neg valid, layout.txDirect_eq (by omega) (by omega)]
  simp only [Nat.add_sub_cancel]

theorem txSlotInit_spec (layout : h.LogLayout) (s : Store) {i : Nat} (known : i < h.txSlotsCount) :
    SlotOnly h i s (txSlotInit h s (i + 1)).1 ∧
      h.status (txSlotInit h s (i + 1)).1 i = TxStatus.processing.code ∧
      h.size (txSlotInit h s (i + 1)).1 i = sizeofTxSlot := by
  rw [txSlotInit_eq layout s known]
  have inside := slotHeader_area layout i
  refine ⟨?_, ?_, ?_⟩
  · simp only [SlotOnly, Pool.store_mem]
    refine (((ChangedIn.refl _ _).thenWrite _ _ ?_).thenWrite _ _ ?_).thenWrite _ _ ?_
    · simpa using inside 0 8 (by omega)
    · simpa using inside 8 4 (by omega)
    · simpa using inside 16 8 (by omega)
  · simp only [Handle.status, slotStatus, Pool.store_mem]
    rw [word_write_disjoint _ _ _ _ _ (by simp), word_write_same]
    decide
  · simp only [Handle.size, slotSize, Pool.store_mem]
    rw [word_write_same]
    decide

theorem txSlotCommit_eq (layout : h.LogLayout) (s : Store) {i : Nat} (known : i < h.txSlotsCount) :
    txSlotCommit h s (i + 1) =
      if h.status s i = TxStatus.processing.code then
        ({ s with pool := txSlotChecksum h (s.pool.setStatus (h.slotAddr i) .commited) (h.slotAddr i) i }, .ok)
      else (s, .err) := by
  have valid : ¬(i + 1 = 0 ∨ i + 1 > h.txSlotsCount) := by omega
  unfold txSlotCommit
  rw [if_neg valid, layout.txDirect_eq (by omega) (by omega), layout.txIndex_eq (by omega) (by omega)]
  by_cases processing : h.status s i = TxStatus.processing.code
  · have same : slotStatus s.pool.mem (h.slotAddr i) = TxStatus.processing.code := processing
    simp [processing, same]
  · have same : slotStatus s.pool.mem (h.slotAddr i) ≠ TxStatus.processing.code := processing
    simp [processing, same]

@[simp] theorem txSlotChecksum_mem (h : Handle) (p : Pool) (slot txId : Nat) :
    (txSlotChecksum h p slot txId).mem =
      p.mem.write slot (encode 8 (checksumOf h p.mem slot (slotSize p.mem slot))) := by
  simp [txSlotChecksum, utilChecksumInsert]

theorem txSlotCommit_spec (layout : h.LogLayout) (s : Store) {i : Nat} (known : i < h.txSlotsCount)
    (processing : h.status s i = TxStatus.processing.code) :
    (txSlotCommit h s (i + 1)).2 = .ok ∧ SlotOnly h i s (txSlotCommit h s (i + 1)).1 ∧
      h.status (txSlotCommit h s (i + 1)).1 i = TxStatus.commited.code ∧
      h.size (txSlotCommit h s (i + 1)).1 i = h.size s i := by
  rw [txSlotCommit_eq layout s known, if_pos processing]
  have inside := slotHeader_area layout i
  refine ⟨rfl, ?_, ?_, ?_⟩
  · simp only [SlotOnly, Pool.store_mem, txSlotChecksum_mem]
    refine ((ChangedIn.refl _ _).thenWrite _ _ ?_).thenWrite _ _ ?_
    · simpa using inside 8 4 (by omega)
    · simpa using inside 0 8 (by omega)
  · simp only [Handle.status, slotStatus, txSlotChecksum_mem, Pool.store_mem]
    rw [word_write_disjoint _ _ _ _ _ (by simp), word_write_same]
    decide
  · simp only [Handle.size, slotSize, txSlotChecksum_mem, Pool.store_mem]
    rw [word_write_disjoint _ _ _ _ _ (by simp), word_write_disjoint _ _ _ _ _ (by simp)]

theorem slotAborted_changed (layout : h.LogLayout) (s : Store) (i txId : Nat) :
    SlotOnly h i s (slotAborted h s (h.slotAddr i) txId) := by
  have inside := slotHeader_area layout i
  simp only [SlotOnly, slotAborted, Pool.store_mem, txSlotChecksum_mem]
  refine ((ChangedIn.refl _ _).thenWrite _ _ ?_).thenWrite _ _ ?_
  · simpa using inside 8 4 (by omega)
  · simpa using inside 0 8 (by omega)

theorem setZeroSlot_changed (layout : h.LogLayout) (s : Store) (i : Nat) :
    SlotOnly h i s { s with pool := backendTxSetZero h s.pool (h.slotAddr i) } := by
  have inside := slotHeader_area layout i 0 12 (by omega)
  unfold SlotOnly
  rw [backendTxSetZero_mem]
  exact (ChangedIn.refl _ _).thenWrite _ _ (by simpa using inside)

theorem setZeroSlot_status (s : Store) (i : Nat) :
    h.status { s with pool := backendTxSetZero h s.pool (h.slotAddr i) } i = TxStatus.empty.code := by
  simp only [Handle.status, slotStatus, backendTxSetZero_mem]
  rw [word_zeros _ _ _ _ _ (by omega) (by omega)]
  rfl

theorem slotReset_changed (layout : h.LogLayout) (s : Store) (i txId : Nat) :
    SlotOnly h i s (slotReset h s (h.slotAddr i) txId) := by
  have inside := slotHeader_area layout i
  refine ChangedIn.trans ?_ (setZeroSlot_changed layout
    { s with
      pool := txSlotChecksum h ((s.pool.setStatus (h.slotAddr i) .empty).setSize (h.slotAddr i) 0)
        (h.slotAddr i) txId } i)
  simp only [Pool.store_mem, txSlotChecksum_mem]
  refine (((ChangedIn.refl _ _).thenWrite _ _ ?_).thenWrite _ _ ?_).thenWrite _ _ ?_
  · simpa using inside 8 4 (by omega)
  · simpa using inside 16 8 (by omega)
  · simpa using inside 0 8 (by omega)

theorem slotReset_status (s : Store) (i txId : Nat) :
    h.status (slotReset h s (h.slotAddr i) txId) i = TxStatus.empty.code := by
  unfold slotReset
  exact setZeroSlot_status
    { s with
      pool := txSlotChecksum h ((s.pool.setStatus (h.slotAddr i) .empty).setSize (h.slotAddr i) 0)
        (h.slotAddr i) txId } i

theorem txSlotAppend_eq (layout : h.LogLayout) (s : Store) {i : Nat} (known : i < h.txSlotsCount)
    (fill : Pool → Nat → Pool) (len : Nat) :
    txSlotAppend h s (i + 1) fill len =
      if h.status s i = TxStatus.processing.code then
        ({ s with
          pool := (fill s.pool (u64 (h.slotAddr i + h.size s i))).setSize (h.slotAddr i)
            (slotSize (fill s.pool (u64 (h.slotAddr i + h.size s i))).mem (h.slotAddr i) + len) }, .ok)
      else (s, .err) := by
  unfold txSlotAppend
  rw [layout.txDirect_eq (by omega) (by omega)]
  by_cases processing : h.status s i = TxStatus.processing.code
  · have same : slotStatus s.pool.mem (h.slotAddr i) = TxStatus.processing.code := processing
    simp [processing, same, Handle.size]
  · have same : slotStatus s.pool.mem (h.slotAddr i) ≠ TxStatus.processing.code := processing
    simp [processing, same]

structure FillsEntry (fill : Pool → Nat → Pool) (len : Nat) : Prop where
  changed : ∀ p entry, ChangedIn (span entry len) p.mem (fill p entry).mem

theorem txSlotAppend_spec (layout : h.LogLayout) (s : Store) {i : Nat} (known : i < h.txSlotsCount)
    {fill : Pool → Nat → Pool} {len : Nat} (fills : FillsEntry fill len)
    (processing : h.status s i = TxStatus.processing.code) (started : sizeofTxSlot ≤ h.size s i)
    (fits : h.size s i + len ≤ h.backend.txSlotSize) :
    txSlotAppend h s (i + 1) fill len =
        ({ s with
          pool := (fill s.pool (h.slotAddr i + h.size s i)).setSize (h.slotAddr i) (h.size s i + len) }, .ok) ∧
      SlotOnly h i s (txSlotAppend h s (i + 1) fill len).1 ∧
      h.status (txSlotAppend h s (i + 1) fill len).1 i = TxStatus.processing.code ∧
      h.size (txSlotAppend h s (i + 1) fill len).1 i = h.size s i + len := by
  have hdr : sizeofTxSlot = 24 := rfl
  have below := Handle.slot_below known
  have small := layout.end_lt
  have filled := fills.changed s.pool (h.slotAddr i + h.size s i)
  have apart : ∀ x ∈ span (h.slotAddr i + h.size s i) len, h.slotAddr i + 24 ≤ x := by
    intro x inside
    simp only [mem_span] at inside
    omega
  have size_same : slotSize (fill s.pool (h.slotAddr i + h.size s i)).mem (h.slotAddr i) = h.size s i := by
    apply filled.word
    intro x inside
    have := apart x inside
    omega
  have status_same : slotStatus (fill s.pool (h.slotAddr i + h.size s i)).mem (h.slotAddr i) = h.status s i := by
    apply filled.word
    intro x inside
    have := apart x inside
    omega
  have done : txSlotAppend h s (i + 1) fill len =
      ({ s with
        pool := (fill s.pool (h.slotAddr i + h.size s i)).setSize (h.slotAddr i) (h.size s i + len) }, .ok) := by
    rw [txSlotAppend_eq layout s known, if_pos processing, u64_of_lt (by omega), size_same]
  refine ⟨done, ?_, ?_, ?_⟩
  · rw [done]
    simp only [SlotOnly, Pool.store_mem]
    refine ChangedIn.thenWrite (filled.mono (span_subset (by omega) (by omega))) _ _ ?_
    rw [length_encode]
    exact slotHeader_area layout i 16 8 (by omega)
  · rw [done]
    simp only [Handle.status, slotStatus, Pool.store_mem]
    rw [word_write_disjoint _ _ _ _ _ (by simp)]
    exact status_same.trans processing
  · rw [done]
    simp only [Handle.size, slotSize, Pool.store_mem]
    rw [word_write_same]
    have fit : h.size s i + len < 256 ^ 8 := by omega
    exact Nat.mod_eq_of_lt fit

theorem txSlotAppend_slots (h : Handle) (s : Store) (txSlotId : Nat) (fill : Pool → Nat → Pool) (len : Nat) :
    (txSlotAppend h s txSlotId fill len).1.txSlotsList = s.txSlotsList := by
  unfold txSlotAppend
  split
  · rfl
  · simp only
    split <;> rfl

theorem fillsEntry_write (blkId : Nat) :
    FillsEntry (fun p entry => (p.setType entry .write).setBlkId1 entry blkId) sizeofTxEntry := by
  refine ⟨fun p entry => ?_⟩
  have bytes : sizeofTxEntry = 24 := rfl
  exact ((ChangedIn.refl _ _).thenEncode _ _ _ (by omega) (by omega)).thenEncode _ _ _ (by omega) (by omega)

theorem fillsEntry_update (oldBlkId newBlkId : Nat) :
    FillsEntry (fun p entry =>
      ((p.setType entry .update).setBlkId1 entry oldBlkId).setBlkId2 entry newBlkId) sizeofTxEntry := by
  refine ⟨fun p entry => ?_⟩
  have bytes : sizeofTxEntry = 24 := rfl
  have type := (ChangedIn.refl (span entry sizeofTxEntry) p.mem).thenEncode entry 4 TxOp.update.code
    (by omega) (by omega)
  exact (type.thenEncode _ _ _ (by omega) (by omega)).thenEncode _ _ _ (by omega) (by omega)

theorem fillsEntry_remove (blkId : Nat) :
    FillsEntry (fun p entry => (p.setType entry .remove).setBlkId1 entry blkId) sizeofTxEntry := by
  refine ⟨fun p entry => ?_⟩
  have bytes : sizeofTxEntry = 24 := rfl
  exact ((ChangedIn.refl _ _).thenEncode _ _ _ (by omega) (by omega)).thenEncode _ _ _ (by omega) (by omega)

theorem fillsEntry_smallUpdate (h : Handle) (blkId : Nat) (data : List UInt8) (offset : Nat) :
    FillsEntry (fun p entry =>
      backendMemcpy h (((p.setType entry .updinplace).setBlkId1 entry blkId).setBlkId2 entry
        (data.length * 2 ^ 32 + offset)) (entry + sizeofTxEntry) data) (sizeofTxEntry + data.length) := by
  refine ⟨fun p entry => ?_⟩
  rw [backendMemcpy_mem]
  have bytes : sizeofTxEntry = 24 := rfl
  have type := (ChangedIn.refl (span entry (sizeofTxEntry + data.length)) p.mem).thenEncode entry 4
    TxOp.updinplace.code (by omega) (by omega)
  refine ChangedIn.thenWrite ?_ _ _ (span_subset (by omega) (by omega))
  exact (type.thenEncode _ _ _ (by omega) (by omega)).thenEncode _ _ _ (by omega) (by omega)

end SlotFrames

end PmBackend
