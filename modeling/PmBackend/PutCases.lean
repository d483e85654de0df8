import PmBackend.SlotFrames

set_option autoImplicit false

namespace PmBackend

open ByteMemory

-- the old block of a put: none for a new object, else a live one
def OldBlock (h : Handle) (m : Mem) (blkId : Nat) (old : Option Nat) : Prop :=
  (blkId = 0 ∧ old = none) ∨ (blkId ≠ 0 ∧ ∃ obj, backendGet h m blkId = .ok obj ∧ old = some obj)

-- `pmb_tput` logs the new bytes, without a new block
def SmallUpdate (h : Handle) (kv : PmbPair) : Prop := kv.blkId ≠ 0 ∧ kv.valLen < h.maxValLen / 2

structure TputArgs (h : Handle) (txSlot : Nat) (kv : PmbPair) : Prop where
  slot_positive : txSlot ≠ 0
  slot_known : txSlot ≤ h.txSlotsCount
  key_fits : kv.keyLen ≤ h.maxKeyLen
  key_positive : kv.keyLen ≠ 0
  key : ∃ bytes, kv.key = some bytes
  val : kv.valLen = 0 ∨ ∃ bytes, kv.val = some bytes
  no_offset : kv.valLen = 0 → kv.offset = 0
  value_fits : u32 (kv.offset + kv.valLen) ≤ h.maxValLen

def tputEntryLen (h : Handle) (kv : PmbPair) : Nat :=
  if kv.blkId ≠ 0 ∧ kv.valLen < h.maxValLen / 2 then sizeofTxEntry + kv.valBytes.length else sizeofTxEntry

-- the next entry of the slot, of `len` bytes, ends in the slot
def EntryFits (h : Handle) (s : Store) (txSlot len : Nat) : Prop :=
  h.status s (txSlot - 1) = TxStatus.processing.code → h.size s (txSlot - 1) + len ≤ h.backend.txSlotSize

-- the store that a call leaves
def Store.after (h : Handle) (s : Store) (call : Call) : Store := ((runCall h s call).map Prod.fst).getD s

theorem runCall_after {h : Handle} {s : Store} {call : Call}
    (success : (runCall h s call).map (fun done => done.2.status) = some .ok) :
    ∃ ret, runCall h s call = some (s.after h call, ret) ∧ ret.status = .ok := by
  obtain ⟨⟨s', ret⟩, ran, status⟩ := Option.map_eq_some_iff.mp success
  refine ⟨ret, ?_, status⟩
  rw [Store.after, ran]
  rfl

section Cases

variable {h : Handle} {s s' : Store} {txSlot : Nat} {kv kv' : PmbPair}

theorem TputArgs.accepted (args : TputArgs h txSlot kv) :
    ¬(txSlot = 0 ∨ txSlot > h.txSlotsCount ∨ kv.keyLen > h.maxKeyLen ∨ kv.keyLen = 0 ∨ kv.key.isNone ∨
      (kv.val.isNone ∧ kv.valLen ≠ 0) ∨ (kv.valLen = 0 ∧ kv.offset ≠ 0)) := by
  obtain ⟨bytes, key⟩ := args.key
  rintro (zero | high | long | no_key | null | null | offset)
  · exact args.slot_positive zero
  · exact absurd args.slot_known (by omega)
  · exact absurd args.key_fits (by omega)
  · exact args.key_positive no_key
  · rw [key] at null
    cases null
  · rcases args.val with empty | ⟨val, given⟩
    · exact null.2 empty
    · rw [given] at null
      cases null.1
  · exact offset.2 (args.no_offset offset.1)

theorem logNewBlock_append (h : Handle) (s : Store) (txSlot oldBlkId newBlkId : Nat) :
    ∃ fill, FillsEntry fill sizeofTxEntry ∧
      logNewBlock h s txSlot oldBlkId newBlkId = txSlotAppend h s txSlot fill sizeofTxEntry := by
  unfold logNewBlock
  split
  · exact ⟨_, fillsEntry_update oldBlkId newBlkId, rfl⟩
  · exact ⟨_, fillsEntry_write newBlkId, rfl⟩

theorem tputNewBlock_ok {old : Option Nat} (done : tputNewBlock h s txSlot kv old = (s', .ok, kv')) :
    (caslistPop s.freeList 0).ret = 0 ∧ ∃ obj logged,
      backendDirect h.backend (caslistPop s.freeList 0).val = some obj ∧
      logNewBlock h { s with freeList := (caslistPop s.freeList 0).list } txSlot kv.blkId
        (caslistPop s.freeList 0).val = (logged, .ok) ∧
      s' = { logged with pool := tputBlock h logged.pool obj old kv } ∧
      kv' = { kv with blkId := (caslistPop s.freeList 0).val } := by
  unfold tputNewBlock at done
  simp only at done
  split at done
  · cases done
  · next popped =>
    split at done
    · cases done
    · next obj direct =>
      split at done
      · next failed =>
        simp only [Prod.mk.injEq] at done
        exact absurd done.2.1 failed
      · next logged =>
        cases done
        exact ⟨not_not.mp popped, obj, _, direct, Prod.ext rfl (not_not.mp logged), rfl, rfl⟩

theorem tputMetaNewBlock_ok {old : Option Nat} (done : tputMetaNewBlock h s txSlot kv old = (s', .ok, kv')) :
    (caslistPop s.metaFreeList 0).ret = 0 ∧ ∃ obj logged,
      backendDirect h.backend (caslistPop s.metaFreeList 0).val = some obj ∧
      logNewBlock h { s with metaFreeList := (caslistPop s.metaFreeList 0).list } txSlot kv.blkId
        (caslistPop s.metaFreeList 0).val = (logged, .ok) ∧
      s' = { logged with pool := tputMetaBlock h logged.pool obj old kv } ∧
      kv' = { kv with blkId := (caslistPop s.metaFreeList 0).val } := by
  unfold tputMetaNewBlock at done
  simp only at done
  split at done
  · cases done
  · next popped =>
    split at done
    · cases done
    · next obj direct =>
      split at done
      · next failed =>
        simp only [Prod.mk.injEq] at done
        exact absurd done.2.1 failed
      · next logged =>
        cases done
        exact ⟨not_not.mp popped, obj, _, direct, Prod.ext rfl (not_not.mp logged), rfl, rfl⟩

theorem pmbTput_ok (done : pmbTput h s txSlot kv = (s', .ok, kv')) :
    TputArgs h txSlot kv ∧
      ((SmallUpdate h kv ∧ txSlotOpSmallUpdate h s txSlot kv.blkId kv.valBytes kv.offset = (s', .ok) ∧
          kv' = kv) ∨
        (¬SmallUpdate h kv ∧ ∃ old, OldBlock h s.pool.mem kv.blkId old ∧
          tputNewBlock h s txSlot kv old = (s', .ok, kv'))) := by
  unfold pmbTput at done
  split at done
  · cases done
  · next valid =>
    simp only [not_or, not_and, Option.isNone_iff_eq_none, ne_eq, not_not] at valid
    obtain ⟨positive, known, key_fits, key_positive, key, val, offset⟩ := valid
    split at done
    · cases done
    · next size =>
      have args : TputArgs h txSlot kv := by
        refine ⟨positive, by omega, by omega, key_positive, Option.ne_none_iff_exists'.mp key, ?_, offset,
          by omega⟩
        by_cases empty : kv.val = none
        · exact Or.inl (val empty)
        · exact Or.inr (Option.ne_none_iff_exists'.mp empty)
      refine ⟨args, ?_⟩
      split at done
      · next small =>
        left
        simp only [Prod.mk.injEq] at done
        exact ⟨small, Prod.ext done.1 done.2.1, done.2.2.symm⟩
      · next large =>
        refine Or.inr ⟨large, ?_⟩
        split at done
        · next update =>
          split at done
          · cases done
          · next obj found => exact ⟨some obj, Or.inr ⟨update, obj, found, rfl⟩, done⟩
        · next write => exact ⟨none, Or.inl ⟨not_not.mp write, rfl⟩, done⟩

structure TputMetaArgs (h : Handle) (txSlot : Nat) (kv : PmbPair) : Prop where
  slot_positive : txSlot ≠ 0
  slot_known : txSlot ≤ h.txSlotsCount
  key_positive : kv.keyLen ≠ 0
  key : ∃ bytes, kv.key = some bytes
  val : ∃ bytes, kv.val = some bytes
  val_positive : kv.valLen ≠ 0
  fits : u32 (kv.keyLen + kv.valLen) ≤ u32 (h.metaMaxKeyLen + h.metaMaxValLen)
  region : kv.blkId = 0 ∨ h.totalObjsCount ≤ kv.blkId

theorem pmbTputMeta_ok (done : pmbTputMeta h s txSlot kv = (s', .ok, kv')) :
    TputMetaArgs h txSlot kv ∧ ∃ old, OldBlock h s.pool.mem kv.blkId old ∧
      tputMetaNewBlock h s txSlot kv old = (s', .ok, kv') := by
  unfold pmbTputMeta at done
  split at done
  · cases done
  · next valid =>
    simp only [not_or, Option.isNone_iff_eq_none] at valid
    obtain ⟨positive, known, key_positive, key, val, val_positive⟩ := valid
    split at done
    · cases done
    · next size =>
      split at done
      · cases done
      · next region =>
        have args : TputMetaArgs h txSlot kv :=
          ⟨positive, by omega, key_positive, Option.ne_none_iff_exists'.mp key,
            Option.ne_none_iff_exists'.mp val, val_positive, by omega, by omega⟩
        refine ⟨args, ?_⟩
        split at done
        · next update =>
          split at done
          · cases done
          · next obj found => exact ⟨some obj, Or.inr ⟨update, obj, found, rfl⟩, done⟩
        · next write => exact ⟨none, Or.inl ⟨not_not.mp write, rfl⟩, done⟩

theorem pmbTdel_ok {blkId : Nat} (done : pmbTdel h s txSlot blkId = (s', .ok)) :
    (txSlot ≠ 0 ∧ txSlot ≤ h.txSlotsCount) ∧ blkId ≠ 0 ∧ txSlotOpRemove h s txSlot blkId = (s', .ok) := by
  unfold pmbTdel at done
  split at done
  · cases done
  · next valid => exact ⟨⟨by omega, by omega⟩, by omega, done⟩

theorem txSlotAppend_ok (layout : h.LogLayout) {i : Nat} (known : i < h.txSlotsCount)
    {fill : Pool → Nat → Pool} {len : Nat} (done : txSlotAppend h s (i + 1) fill len = (s', .ok)) :
    h.status s i = TxStatus.processing.code ∧ s' = { s with pool := s'.pool } := by
  -- an entry that was logged: the slot was in PROCESSING, and only the pool differs
  rw [txSlotAppend_eq layout s known] at done
  split at done
  · next processing =>
    cases done
    exact ⟨processing, rfl⟩
  · cases done

theorem txSlotAppend_only (layout : h.LogLayout) {i : Nat} (known : i < h.txSlotsCount)
    {fill : Pool → Nat → Pool} {len : Nat} (fills : FillsEntry fill len)
    (fits : h.size s i + len ≤ h.backend.txSlotSize)
    (done : txSlotAppend h s (i + 1) fill len = (s', .ok)) : SlotOnly h i s s' := by
  have below := Handle.slot_below known
  have small := layout.end_lt
  by_cases empty : len = 0
  · subst empty
    rw [txSlotAppend_eq layout s known] at done
    split at done
    · cases done
      refine ChangedIn.thenWrite ((fills.changed _ _).mono ?_) _ _ ?_
      · intro x inside
        simp only [mem_span] at inside
        omega
      · rw [length_encode]
        exact slotHeader_area layout i 16 8 (by omega)
    · cases done
  · rw [txSlotAppend_eq layout s known, u64_of_lt (by omega)] at done
    split at done
    · cases done
      refine ChangedIn.thenWrite ((fills.changed _ _).mono (span_subset (by omega) (by omega))) _ _ ?_
      rw [length_encode]
      exact slotHeader_area layout i 16 8 (by omega)
    · cases done

end Cases

end PmBackend
