import Mathlib.Logic.Relation
import PmBackend.Blocks
import PmBackend.LogWalks
import PmBackend.PutCases

set_option autoImplicit false

namespace PmBackend

open ByteMemory

-- the list holds exactly the ids from `low` on, below `high`, whose blocks are not live
def FreeList (h : Handle) (m : Mem) (list : Option Caslist) (low high : Nat) : Prop :=
  ∃ ids, ListOf list ids ∧ ∀ id, id ∈ ids ↔ (low ≤ id ∧ id < high) ∧ ¬h.Live m id

structure FreeOrLive (h : Handle) (s : Store) : Prop where
  data : FreeList h s.pool.mem s.freeList 1 h.totalObjsCount
  metadata : FreeList h s.pool.mem s.metaFreeList h.totalObjsCount (h.totalObjsCount + h.metaObjsCount)

section Lists

variable {h : Handle} {m m' : Mem} {list : Option Caslist} {low high : Nat}

theorem FreeList.same (lists : FreeList h m list low high)
    (live : ∀ id, low ≤ id → id < high → (h.Live m' id ↔ h.Live m id)) : FreeList h m' list low high := by
  obtain ⟨ids, represents, iff⟩ := lists
  refine ⟨ids, represents, fun id => ?_⟩
  rw [iff]
  apply and_congr_right
  intro range
  rw [live id range.1 range.2]

theorem FreeList.pop (lists : FreeList h m list low high) (small : high < 2 ^ 64)
    (popped : (caslistPop list 0).ret = 0) :
    (low ≤ (caslistPop list 0).val ∧ (caslistPop list 0).val < high) ∧
      ¬h.Live m (caslistPop list 0).val ∧
      ∀ m', h.Live m' (caslistPop list 0).val →
        (∀ id, id ≠ (caslistPop list 0).val → (h.Live m' id ↔ h.Live m id)) →
        FreeList h m' (caslistPop list 0).list low high := by
  obtain ⟨ids, represents, iff⟩ := lists
  by_cases empty : ids = ∅
  · subst empty
    rw [represents.pop_empty 0] at popped
    cases popped
  · obtain ⟨least, member, -, -, val, rest⟩ := represents.pop (Finset.nonempty_iff_ne_empty.mpr empty)
      (fun id inside => by have := ((iff id).mp inside).1.2; omega) 0
    rw [val]
    obtain ⟨range, dead⟩ := (iff least).mp member
    refine ⟨range, dead, fun m' live others => ⟨_, rest, fun id => ?_⟩⟩
    rw [Finset.mem_erase, iff]
    by_cases same : id = least
    · subst same
      simp [live]
    · simp only [ne_eq, same, not_false_eq_true, true_and, others id same]

theorem FreeList.push (lists : FreeList h m list low high) (small : high < 2 ^ 64) {id : Nat}
    (positive : id ≠ 0) (range : low ≤ id ∧ id < high) (dead : ¬h.Live m' id)
    (others : ∀ other, other ≠ id → (h.Live m' other ↔ h.Live m other)) :
    FreeList h m' (caslistPush list id) low high := by
  obtain ⟨ids, represents, iff⟩ := lists
  refine ⟨_, represents.push_pos positive (by omega), fun other => ?_⟩
  rw [Finset.mem_insert, iff]
  by_cases same : other = id
  · subst same
    simp [range, dead]
  · simp only [same, false_or, others other same]

end Lists

section Blocks

variable {h : Handle} {s s' : Store}

theorem FreeOrLive.same (wf : FreeOrLive h s) (free : s'.freeList = s.freeList)
    (metaFree : s'.metaFreeList = s.metaFreeList)
    (live : ∀ id, id ≠ 0 → (h.Live s'.pool.mem id ↔ h.Live s.pool.mem id)) (ids : h.Ids) :
    FreeOrLive h s' := by
  refine ⟨?_, ?_⟩
  · rw [free]
    exact wf.data.same fun id positive _ => live id (by omega)
  · rw [metaFree]
    exact wf.metadata.same fun id low _ => live id (by have := ids.null_block; omega)

theorem FreeOrLive.log (layout : h.BlockLayout) (wf : FreeOrLive h s) (free : s'.freeList = s.freeList)
    (metaFree : s'.metaFreeList = s.metaFreeList) (changed : ChangedIn h.logArea s.pool.mem s'.pool.mem) :
    FreeOrLive h s' :=
  wf.same free metaFree (fun id _ => (ChangedIn.log_untouched layout changed id).live layout) layout.toIds

theorem FreeOrLive.release (layout : h.BlockLayout) (wf : FreeOrLive h s) {id : Nat}
    (known : id < h.totalObjsCount + h.metaObjsCount) (free : s'.freeList = s.freeList)
    (metaFree : s'.metaFreeList = s.metaFreeList) (dead : ¬h.Live s'.pool.mem id)
    (others : ∀ other, other ≠ id → (h.Live s'.pool.mem other ↔ h.Live s.pool.mem other)) :
    FreeOrLive h (s'.release h id) := by
  have fit := layout.fit
  have null_block := layout.null_block
  unfold Store.release
  by_cases data : id < h.totalObjsCount
  · rw [if_pos data]
    refine ⟨?_, ?_⟩
    · simp only [free]
      by_cases zero : id = 0
      · subst zero
        rw [show caslistPush s.freeList 0 = s.freeList by cases s.freeList <;> simp [caslistPush]]
        exact wf.data.same fun other positive _ => others other (by omega)
      · exact wf.data.push (by omega) zero ⟨by omega, data⟩ dead others
    · simp only [metaFree]
      exact wf.metadata.same fun other low _ => others other (by omega)
  · rw [if_neg data]
    refine ⟨?_, ?_⟩
    · simp only [free]
      exact wf.data.same fun other _ high => others other (by omega)
    · simp only [metaFree]
      exact wf.metadata.push (by omega) (by omega) ⟨by omega, by omega⟩ dead others

end Blocks

section Puts

variable {h : Handle} {s s' : Store}

theorem FreeOrLive.append (layout : h.BlockLayout) (wf : FreeOrLive h s) {txSlot : Nat}
    (positive : txSlot ≠ 0) (known : txSlot ≤ h.txSlotsCount) {fill : Pool → Nat → Pool} {len : Nat}
    (fills : FillsEntry fill len) (fits : EntryFits h s txSlot len)
    (done : txSlotAppend h s txSlot fill len = (s', .ok)) :
    FreeOrLive h s' ∧ ChangedIn h.logArea s.pool.mem s'.pool.mem ∧ s' = { s with pool := s'.pool } := by
  obtain ⟨i, rfl⟩ : ∃ i, txSlot = i + 1 := ⟨txSlot - 1, by omega⟩
  have bound : i < h.txSlotsCount := by omega
  obtain ⟨processing, same⟩ := txSlotAppend_ok layout.toLogLayout bound done
  have only := txSlotAppend_only layout.toLogLayout bound fills (fits processing) done
  have changed : ChangedIn h.logArea s.pool.mem s'.pool.mem := only.mono (slotArea_log bound)
  exact ⟨wf.log layout (by rw [same]) (by rw [same]) changed, changed, same⟩

theorem logNewBlock_only (layout : h.LogLayout) {txSlot oldBlkId newBlkId : Nat}
    (positive : txSlot ≠ 0) (known : txSlot ≤ h.txSlotsCount) (fits : EntryFits h s txSlot sizeofTxEntry)
    (done : logNewBlock h s txSlot oldBlkId newBlkId = (s', .ok)) :
    ChangedIn h.logArea s.pool.mem s'.pool.mem ∧ s' = { s with pool := s'.pool } := by
  obtain ⟨fill, fills, append⟩ := logNewBlock_append h s txSlot oldBlkId newBlkId
  rw [append] at done
  obtain ⟨i, rfl⟩ : ∃ i, txSlot = i + 1 := ⟨txSlot - 1, by omega⟩
  have bound : i < h.txSlotsCount := by omega
  obtain ⟨processing, same⟩ := txSlotAppend_ok layout bound done
  exact ⟨(txSlotAppend_only layout bound fills (fits processing) done).mono (slotArea_log bound),
    same⟩

theorem live_written (layout : h.BlockLayout) {m m' : Mem} {id obj : Nat}
    (direct : backendDirect h.backend id = some obj) (changed : ChangedIn (h.blockAt id ∪ h.logArea) m m')
    (flch : flch64 m' obj ≠ 0) :
    h.Live m' id ∧ ∀ other, other ≠ id → (h.Live m' other ↔ h.Live m other) :=
  ⟨⟨obj, direct, flch⟩, fun _ different => (ChangedIn.untouched layout changed different).live layout⟩

theorem OldBlock.fits (layout : h.BlockLayout) {m m' : Mem} {blkId id : Nat} {old : Option Nat}
    (found : OldBlock h m blkId old) (dead : ¬h.Live m id) (changed : ChangedIn h.logArea m m')
    (short : ∀ obj, blkId ≠ 0 → backendDirect h.backend blkId = some obj → valLen m obj ≤ h.maxValLen) :
    OldFits h m' id old := by
  intro oldObj member
  rcases found with ⟨-, rfl⟩ | ⟨positive, obj, get, rfl⟩
  · cases member
  · cases member
    obtain ⟨-, direct, live⟩ := backendGet_ok.mp get
    refine ⟨blkId, ?_, direct, ?_⟩
    · rintro rfl
      exact dead ⟨oldObj, direct, live⟩
    · rw [((ChangedIn.log_untouched layout changed blkId).header layout direct).2.2.2.2]
      exact short oldObj positive direct

theorem FreeOrLive.tputNewBlock (layout : h.BlockLayout) (nonzero : ∀ bytes, h.checksum bytes ≠ 0)
    (wf : FreeOrLive h s) {txSlot : Nat} (positive : txSlot ≠ 0) (known : txSlot ≤ h.txSlotsCount)
    (entry : EntryFits h s txSlot sizeofTxEntry) {kv kv' : PmbPair} {old : Option Nat}
    (key_fits : kv.keyLen ≤ h.maxKeyLen) (fits : kv.offset + kv.valLen ≤ h.maxValLen)
    (found : OldBlock h s.pool.mem kv.blkId old)
    (short : ∀ obj, kv.blkId ≠ 0 → backendDirect h.backend kv.blkId = some obj →
      valLen s.pool.mem obj ≤ h.maxValLen)
    (done : tputNewBlock h s txSlot kv old = (s', .ok, kv')) : FreeOrLive h s' := by
  have fit := layout.fit
  obtain ⟨ret, obj, logged, direct, log, rfl, -⟩ := tputNewBlock_ok done
  obtain ⟨range, dead, rest⟩ := wf.data.pop (by omega) ret
  have entry' : EntryFits h { s with freeList := (caslistPop s.freeList 0).list } txSlot sizeofTxEntry := entry
  obtain ⟨changed, same⟩ := logNewBlock_only layout.toLogLayout positive known entry' log
  have free : logged.freeList = (caslistPop s.freeList 0).list := by rw [same]
  have metaFree : logged.metaFreeList = s.metaFreeList := by rw [same]
  have block := tputBlock_spec layout logged.pool direct range.2 old kv key_fits fits
    (found.fits layout dead changed short)
  have whole := (changed.mono Set.subset_union_right).trans (block.mono Set.subset_union_left)
  obtain ⟨live, others⟩ := live_written layout direct whole (tputBlock_flch nonzero logged.pool obj old kv)
  refine ⟨?_, ?_⟩
  · simp only [free]
    exact rest _ live others
  · simp only [metaFree]
    exact wf.metadata.same fun id low _ => others id (by omega)

theorem FreeOrLive.tputMetaNewBlock (layout : h.BlockLayout) (nonzero : ∀ bytes, h.checksum bytes ≠ 0)
    (wf : FreeOrLive h s) {txSlot : Nat} (positive : txSlot ≠ 0) (known : txSlot ≤ h.txSlotsCount)
    (entry : EntryFits h s txSlot sizeofTxEntry) {kv kv' : PmbPair} {old : Option Nat}
    (fits : kv.keyLen + kv.valLen ≤ h.metaMaxKeyLen + h.metaMaxValLen)
    (done : tputMetaNewBlock h s txSlot kv old = (s', .ok, kv')) : FreeOrLive h s' := by
  have fit := layout.fit
  obtain ⟨ret, obj, logged, direct, log, rfl, -⟩ := tputMetaNewBlock_ok done
  obtain ⟨range, dead, rest⟩ := wf.metadata.pop (by omega) ret
  have entry' : EntryFits h { s with metaFreeList := (caslistPop s.metaFreeList 0).list } txSlot
    sizeofTxEntry := entry
  obtain ⟨changed, same⟩ := logNewBlock_only layout.toLogLayout positive known entry' log
  have free : logged.freeList = s.freeList := by rw [same]
  have metaFree : logged.metaFreeList = (caslistPop s.metaFreeList 0).list := by rw [same]
  have block := tputMetaBlock_spec layout logged.pool direct range.1 old kv fits
  have whole := (changed.mono Set.subset_union_right).trans (block.mono Set.subset_union_left)
  obtain ⟨live, others⟩ := live_written layout direct whole (tputMetaBlock_flch nonzero logged.pool obj old kv)
  refine ⟨?_, ?_⟩
  · simp only [free]
    exact wf.data.same fun id _ high => others id (by omega)
  · simp only [metaFree]
    exact rest _ live others

end Puts

-- an in-place update of a live block that stays in the value of that block
structure InPlaceSafe (h : Handle) (m : Mem) (entry : TxEntry) : Prop where
  positive : entry.blkId1 ≠ 0
  live : h.Live m entry.blkId1
  fits : 32 + h.maxKeyLen + (entry.offset + entry.size) ≤ h.backend.blockSize entry.blkId1

structure ExecuteSafe (h : Handle) (s : Store) (i : Nat) : Prop where
  inside : ∀ r ∈ slotLog s.pool.mem (h.slotAddr i), r.1 + 24 ≤ h.logEnd
  zeroed : ∀ r ∈ slotLog s.pool.mem (h.slotAddr i), Zeroes r.2 → h.Sane s.pool.mem r.2.blkId1
  updated : ∀ r ∈ slotLog s.pool.mem (h.slotAddr i), r.2.type = TxOp.updinplace.code →
    InPlaceSafe h s.pool.mem r.2
  kept : ∀ r ∈ slotLog s.pool.mem (h.slotAddr i), ∀ r' ∈ slotLog s.pool.mem (h.slotAddr i),
    r.2.type = TxOp.updinplace.code → Zeroes r'.2 → r'.2.blkId1 ≠ r.2.blkId1

section Execution

variable {h : Handle} {s s' : Store}

structure ExecuteInv (h : Handle) (log : List (Nat × TxEntry)) (txId : Nat) (s : Store) : Prop where
  wf : FreeOrLive h s
  sane : ∀ r ∈ log, Zeroes r.2 → h.Sane s.pool.mem r.2.blkId1
  live : ∀ r ∈ log, r.2.type = TxOp.updinplace.code → h.Live s.pool.mem r.2.blkId1
  pending : ∀ k < (s.updIdList txId).count, ∃ r ∈ log, r.2.type = TxOp.updinplace.code ∧
    ((s.updIdList txId).list k).id = r.2.blkId1
  idle : ∀ j ≠ txId, (s.updIdList j).count = 0

theorem backendDirect_lt (layout : h.BlockLayout) {id obj : Nat}
    (direct : backendDirect h.backend id = some obj) : id < h.totalObjsCount + h.metaObjsCount :=
  (backendDirect_known layout.fit id).mp ⟨obj, direct⟩

theorem ExecuteInv.step (layout : h.BlockLayout) {log : List (Nat × TxEntry)} {txId : Nat}
    (inv : ExecuteInv h log txId s)
    (updated : ∀ r ∈ log, r.2.type = TxOp.updinplace.code → r.2.blkId1 ≠ 0 ∧
      32 + h.maxKeyLen + (r.2.offset + r.2.size) ≤ h.backend.blockSize r.2.blkId1)
    (kept : ∀ r ∈ log, ∀ r' ∈ log, r.2.type = TxOp.updinplace.code → Zeroes r'.2 →
      r'.2.blkId1 ≠ r.2.blkId1)
    {r : Nat × TxEntry} (member : r ∈ log) (done : executeEntry h s txId r.1 r.2 = some s') :
    ExecuteInv h log txId s' := by
  unfold executeEntry at done
  split at done
  · next zeroes =>
    split at done
    · cases done
      exact inv
    · next obj found =>
      cases done
      obtain ⟨-, direct, -⟩ := backendGet_ok.mp found
      obtain ⟨changed, dead, sane⟩ := setZero_spec s (layout.room _) direct (inv.sane r member zeroes)
      have others := fun other (different : other ≠ r.2.blkId1) =>
        ChangedIn.untouched layout (changed.mono Set.subset_union_left) different
      have pool : ((s.setZero (some obj)).release h r.2.blkId1).pool = (s.setZero (some obj)).pool := by
        unfold Store.release
        split <;> rfl
      have lists : ((s.setZero (some obj)).release h r.2.blkId1).updIdList = s.updIdList := by
        unfold Store.release
        split <;> rfl
      refine ⟨?_, fun r' member' zeroes' => ?_, fun r' member' inplace => ?_, ?_, ?_⟩
      · exact inv.wf.release layout (backendDirect_lt layout direct) rfl rfl dead
          fun other different => (others other different).live layout
      · rw [pool]
        by_cases same : r'.2.blkId1 = r.2.blkId1
        · rw [same]
          exact sane
        · exact ((others _ same).sane layout).mpr (inv.sane r' member' zeroes')
      · rw [pool]
        have different := kept r' member' r member inplace zeroes
        exact ((others _ different.symm).live layout).mpr (inv.live r' member' inplace)
      · rw [lists]
        exact inv.pending
      · rw [lists]
        exact inv.idle
  · split at done
    · next inplace =>
      obtain ⟨obj, direct, -⟩ := inv.live r member inplace
      obtain ⟨positive, fits⟩ := updated r member inplace
      obtain ⟨frame, others, ids⟩ := txUpdateBlock_spec direct
        (fun k below => by
          obtain ⟨r', member', inplace', same⟩ := inv.pending k below
          rw [same]
          exact (updated r' member' inplace').1) done
      have copied : ChangedIn (h.blockAt r.2.blkId1) s.pool.mem s'.pool.mem := by
        have hdr : sizeofDataHdr = 32 := rfl
        rw [frame]
        simp only [backendMemcpy_mem]
        exact ChangedIn.write _ _ _ _ (span_blockAt direct (by omega) (by rw [length_read]; omega))
      have flch : flch64 s'.pool.mem obj = flch64 s.pool.mem obj := by
        have hdr : sizeofDataHdr = 32 := rfl
        rw [frame]
        simp only [backendMemcpy_mem]
        exact word_write_disjoint _ _ _ _ _ (by omega)
      have live : ∀ id, h.Live s'.pool.mem id ↔ h.Live s.pool.mem id := by
        intro id
        by_cases same : id = r.2.blkId1
        · unfold Handle.Live
          simp only [same, direct, Option.some.injEq, exists_eq_left', flch]
        · exact (ChangedIn.untouched layout (copied.mono Set.subset_union_left) same).live layout
      refine ⟨?_, fun r' member' zeroes' => ?_, fun r' member' inplace' => ?_, fun k below => ?_, fun j other => ?_⟩
      · exact inv.wf.same (by rw [frame]) (by rw [frame]) (fun id _ => live id) layout.toIds
      · have different := kept r member r' member' inplace zeroes'
        have same := ChangedIn.untouched layout (copied.mono Set.subset_union_left) different
        exact (same.sane layout).mpr (inv.sane r' member' zeroes')
      · exact (live _).mpr (inv.live r' member' inplace')
      · rcases ids k below with new | ⟨before, same⟩
        · exact ⟨r, member, inplace, new⟩
        · rw [same]
          exact inv.pending k before
      · rw [others j other]
        exact inv.idle j other
    · cases done
      exact inv

theorem FreeOrLive.metaProcess (layout : h.BlockLayout) (nonzero : ∀ bytes, h.checksum bytes ≠ 0)
    (wf : FreeOrLive h s) {txId : Nat}
    (live : ∀ k < (s.updIdList txId).count, h.Live s.pool.mem ((s.updIdList txId).list k).id)
    (done : txSlotMetaUpdProcess h s txId = some s') :
    FreeOrLive h s' ∧ s'.updIdList = Function.update s.updIdList txId (s'.updIdList txId) ∧
      (s'.updIdList txId).count = 0 := by
  obtain ⟨pool, process, rfl⟩ := Option.map_eq_some_iff.mp done
  have kept : ∀ id, h.Live pool.mem id ↔ h.Live s.pool.mem id := by
    refine metaProcess_induct (fun p => ∀ id, h.Live p.mem id ↔ h.Live s.pool.mem id) _ _ 0
      (fun p k obj _ upper before direct id => ?_) s.pool pool (fun _ => Iff.rfl) process
    have room := layout.room ((s.updIdList txId).list k).id
    have changed : ChangedIn (h.blockAt ((s.updIdList txId).list k).id) p.mem
        (utilChecksumInsert h ((p.setVersion obj ((s.updIdList txId).list k).version).setValLen obj
          ((s.updIdList txId).list k).valLen) obj (sizeofDataHdr + h.maxKeyLen +
            valLen ((p.setVersion obj ((s.updIdList txId).list k).version).setValLen obj
              ((s.updIdList txId).list k).valLen).mem obj)).mem := by
      simp only [utilChecksumInsert, Pool.store_mem]
      refine (((ChangedIn.refl _ _).thenWrite _ _ ?_).thenWrite _ _ ?_).thenWrite _ _ ?_ <;>
        exact span_blockAt direct (by omega) (by rw [length_encode]; omega)
    by_cases same : id = ((s.updIdList txId).list k).id
    · rw [same]
      refine iff_of_true ⟨obj, direct, ?_⟩ (live k (by omega))
      rw [utilChecksumInsert_flch]
      exact checksumOf_ne nonzero _ _ _
    · exact ((ChangedIn.untouched layout (changed.mono Set.subset_union_left) same).live layout).trans (before id)
  refine ⟨wf.same rfl rfl (fun id _ => kept id) layout.toIds, ?_, ?_⟩
  · simp
  · simp

theorem FreeOrLive.execute (layout : h.BlockLayout) (nonzero : ∀ bytes, h.checksum bytes ≠ 0)
    (wf : FreeOrLive h s) (idle : ∀ j, (s.updIdList j).count = 0) {i : Nat} (known : i < h.txSlotsCount)
    (safe : ExecuteSafe h s i) (done : txSlotExecute h s (i + 1) = some (s', .ok)) :
    FreeOrLive h s' ∧ ∀ j, (s'.updIdList j).count = 0 := by
  unfold txSlotExecute at done
  rw [layout.toLogLayout.txDirect_eq (by omega) (by omega),
    layout.toLogLayout.txIndex_eq (by omega) (by omega)] at done
  simp only [Nat.add_sub_cancel] at done
  split at done
  · cases done
  · obtain ⟨walked, walk, rest⟩ := Option.bind_eq_some_iff.mp done
    obtain ⟨processed, process, finish⟩ := Option.map_eq_some_iff.mp rest
    cases finish
    rw [executeLog_eq layout.toLogLayout i (h.slotAddr i) s safe.inside] at walk
    have inv : ExecuteInv h (slotLog s.pool.mem (h.slotAddr i)) i walked := by
      refine foldlM_induct (ExecuteInv h (slotLog s.pool.mem (h.slotAddr i)) i) _ _
        (fun r member t t' before entry => ?_) s walked ?_ walk
      · exact before.step layout
          (fun r' member' inplace => ⟨(safe.updated r' member' inplace).positive,
            (safe.updated r' member' inplace).fits⟩) safe.kept member entry
      · exact ⟨wf, safe.zeroed, fun r member inplace => (safe.updated r member inplace).live,
          fun k below => absurd below (by rw [idle]; omega), fun j _ => idle j⟩
    obtain ⟨after, lists, count⟩ := inv.wf.metaProcess layout nonzero (fun k below => by
      obtain ⟨r, member, inplace, same⟩ := inv.pending k below
      rw [same]
      exact inv.live r member inplace) process
    have cleared := (setZeroSlot_changed layout.toLogLayout processed i).mono (slotArea_log known)
    refine ⟨after.log layout rfl rfl cleared, fun j => ?_⟩
    change (processed.updIdList j).count = 0
    by_cases same : j = i
    · rw [same]
      exact count
    · rw [lists, Function.update_of_ne same]
      exact inv.idle j same

end Execution

-- the block that `tx_slot_abort` zeroes for an entry
def abortedBlock (entry : TxEntry) : Option Nat :=
  if entry.type = TxOp.update.code then some entry.blkId2
  else if entry.type = TxOp.write.code then some entry.blkId1
  else none

structure AbortSafe (h : Handle) (s : Store) (i : Nat) : Prop where
  inside : ∀ r ∈ slotStrides s.pool.mem (h.slotAddr i), r.1 + 24 ≤ h.logEnd
  sane : ∀ r ∈ slotStrides s.pool.mem (h.slotAddr i), ∀ id ∈ abortedBlock r.2,
    id < h.totalObjsCount + h.metaObjsCount ∧ h.Sane s.pool.mem id

section Abort

variable {h : Handle} {s s' : Store}

theorem abortEntry_eq (h : Handle) (s : Store) (entry : TxEntry) :
    abortEntry h s entry =
      match abortedBlock entry with
      | some id => (s.setZero (backendDirect h.backend id)).release h id
      | none => s := by
  unfold abortEntry abortedBlock
  split
  · rfl
  · split <;> rfl

theorem FreeOrLive.zeroBlock (layout : h.BlockLayout) (wf : FreeOrLive h s) {id : Nat}
    (known : id < h.totalObjsCount + h.metaObjsCount) (sane : h.Sane s.pool.mem id) :
    FreeOrLive h ((s.setZero (backendDirect h.backend id)).release h id) ∧
      ∀ other, h.Sane s.pool.mem other →
        h.Sane ((s.setZero (backendDirect h.backend id)).release h id).pool.mem other := by
  -- zeroing and releasing a block keeps the invariant, and the lengths of other headers
  obtain ⟨obj, direct⟩ := layout.known known
  obtain ⟨changed, dead, still⟩ := setZero_spec s (layout.room _) direct sane
  have others := fun other (different : other ≠ id) =>
    ChangedIn.untouched layout (changed.mono Set.subset_union_left) different
  rw [direct]
  refine ⟨wf.release layout known rfl rfl dead fun other different => (others other different).live layout,
    fun other fits => ?_⟩
  rw [(release_frame h _ id).1]
  by_cases same : other = id
  · rw [same]
    exact still
  · exact ((others other same).sane layout).mpr fits

theorem FreeOrLive.abort (layout : h.BlockLayout) (wf : FreeOrLive h s) {i : Nat}
    (known : i < h.txSlotsCount) (safe : AbortSafe h s i)
    (done : txSlotAbort h s (i + 1) = (s', .ok)) : FreeOrLive h s' ∧ s'.updIdList = s.updIdList := by
  unfold txSlotAbort at done
  rw [layout.toLogLayout.txDirect_eq (by omega) (by omega),
    layout.toLogLayout.txIndex_eq (by omega) (by omega)] at done
  simp only [Nat.add_sub_cancel] at done
  split at done
  · cases done
  · cases done
    have marked := (slotAborted_changed layout.toLogLayout s i i).mono (slotArea_log known)
    have strides := slotStrides_congr (slotAborted_header h s (h.slotAddr i) i)
    rw [abortLog_eq layout.toLogLayout _ _ (by rw [strides]; exact safe.inside), strides]
    have walked : FreeOrLive h ((slotStrides s.pool.mem (h.slotAddr i)).foldl
          (fun s r => abortEntry h s r.2) (slotAborted h s (h.slotAddr i) i)) ∧
        (∀ r ∈ slotStrides s.pool.mem (h.slotAddr i), ∀ id ∈ abortedBlock r.2,
          h.Sane ((slotStrides s.pool.mem (h.slotAddr i)).foldl
            (fun s r => abortEntry h s r.2) (slotAborted h s (h.slotAddr i) i)).pool.mem id) ∧
        ((slotStrides s.pool.mem (h.slotAddr i)).foldl
          (fun s r => abortEntry h s r.2) (slotAborted h s (h.slotAddr i) i)).updIdList = s.updIdList := by
      refine List.foldlRecOn (motive := fun t => FreeOrLive h t ∧
        (∀ r ∈ slotStrides s.pool.mem (h.slotAddr i), ∀ id ∈ abortedBlock r.2, h.Sane t.pool.mem id) ∧
          t.updIdList = s.updIdList) _ _ ⟨wf.log layout rfl rfl marked, fun r member id names => ?_, rfl⟩ ?_
      · exact ((ChangedIn.log_untouched layout marked id).sane layout).mpr (safe.sane r member id names).2
      · rintro t ⟨before, sane, lists⟩ r member
        rw [abortEntry_eq]
        split
        · next id names =>
          obtain ⟨after, others⟩ := before.zeroBlock layout (safe.sane r member id names).1
            (sane r member id names)
          refine ⟨after, fun r' member' id' names' => others id' (sane r' member' id' names'), ?_⟩
          rw [(release_frame h _ id).2.1]
          cases backendDirect h.backend id <;> exact lists
        · exact ⟨before, sane, lists⟩
    have reset := (slotReset_changed layout.toLogLayout ((slotStrides s.pool.mem (h.slotAddr i)).foldl
      (fun s r => abortEntry h s r.2) (slotAborted h s (h.slotAddr i) i)) i i).mono (slotArea_log known)
    exact ⟨walked.1.log layout rfl rfl reset, walked.2.2⟩

end Abort

-- the block that `pmb_resolve_conflict` deletes
def conflictLoser (m : Mem) (obj1 obj2 blkId1 blkId2 : Nat) : Nat :=
  if version m obj1 > version m obj2 then blkId1 else blkId2

def ConflictSafe (h : Handle) (s : Store) (blkId1 blkId2 : Nat) : Prop :=
  ∀ obj1 obj2, backendDirect h.backend blkId1 = some obj1 → backendDirect h.backend blkId2 = some obj2 →
    conflictLoser s.pool.mem obj1 obj2 blkId1 blkId2 < h.totalObjsCount ∧
      h.Sane s.pool.mem (conflictLoser s.pool.mem obj1 obj2 blkId1 blkId2)

theorem FreeOrLive.resolveConflict {h : Handle} {s : Store} (layout : h.BlockLayout) (wf : FreeOrLive h s)
    {blkId1 blkId2 : Nat} (safe : ConflictSafe h s blkId1 blkId2) :
    FreeOrLive h (pmbResolveConflict h s blkId1 blkId2).1 := by
  unfold pmbResolveConflict
  split
  · exact wf
  · next obj1 found1 =>
    split
    · exact wf
    · next obj2 found2 =>
      obtain ⟨-, direct1, -⟩ := backendGet_ok.mp found1
      obtain ⟨-, direct2, -⟩ := backendGet_ok.mp found2
      obtain ⟨data, sane⟩ := safe obj1 obj2 direct1 direct2
      unfold conflictLoser at data sane
      have zeroed := (wf.zeroBlock layout (by omega) sane).1
      unfold Store.release at zeroed
      rw [if_pos data] at zeroed
      simp only
      by_cases newer : version s.pool.mem obj1 > version s.pool.mem obj2
      · simp only [newer, if_true, direct1] at zeroed ⊢
        exact zeroed
      · simp only [newer, if_false, direct2] at zeroed ⊢
        exact zeroed

-- what keeps a call from losing a block or from making a free one live
def BlockSafe (h : Handle) (s : Store) : Call → Prop
  | .tput txSlot kv =>
    EntryFits h s txSlot (tputEntryLen h kv) ∧ (¬SmallUpdate h kv → kv.offset + kv.valLen < 2 ^ 32 ∧
      ∀ obj, kv.blkId ≠ 0 → backendDirect h.backend kv.blkId = some obj → valLen s.pool.mem obj ≤ h.maxValLen)
  | .tputMeta txSlot kv => EntryFits h s txSlot sizeofTxEntry ∧ kv.keyLen + kv.valLen < 2 ^ 32
  | .tdel txSlot _ => EntryFits h s txSlot sizeofTxEntry
  | .txExecute txSlot => ExecuteSafe h s (txSlot - 1)
  | .txAbort txSlot => AbortSafe h s (txSlot - 1)
  | .resolveConflict blkId1 blkId2 => ConflictSafe h s blkId1 blkId2
  | _ => True

def BlockStep (h : Handle) (s s' : Store) : Prop :=
  ∃ call ret, runCall h s call = some (s', ret) ∧ ret.status = .ok ∧ BlockSafe h s call

section Runs

variable {h : Handle} {s s' : Store}

theorem pmbTxBegin_only (layout : h.LogLayout) (success : (pmbTxBegin h s).2.1 = .ok) :
    ChangedIn h.logArea s.pool.mem (pmbTxBegin h s).1.pool.mem ∧ (pmbTxBegin h s).1 =
      { s with pool := (pmbTxBegin h s).1.pool, txSlotsList := (caslistPop s.txSlotsList 0).list } := by
  unfold pmbTxBegin at success ⊢
  simp only at success ⊢
  split at success
  · cases success
  · next popped =>
    rw [if_neg popped]
    generalize (caslistPop s.txSlotsList 0).val = txSlot at *
    unfold txSlotInit at success
    by_cases invalid : txSlot = 0 ∨ txSlot > h.txSlotsCount
    · rw [if_pos invalid] at success
      cases success
    · obtain ⟨i, rfl⟩ : ∃ i, txSlot = i + 1 := ⟨txSlot - 1, by omega⟩
      have known : i < h.txSlotsCount := by omega
      have only := (txSlotInit_spec layout { s with txSlotsList := (caslistPop s.txSlotsList 0).list } known).1
      have changed := only.mono (slotArea_log known)
      rw [txSlotInit_eq layout _ known] at changed ⊢
      exact ⟨changed, rfl⟩

theorem pmbTxCommit_only (layout : h.LogLayout) (s : Store) (txSlot : Nat) :
    ChangedIn h.logArea s.pool.mem (pmbTxCommit h s txSlot).1.pool.mem ∧
      (pmbTxCommit h s txSlot).1 = { s with pool := (pmbTxCommit h s txSlot).1.pool } := by
  unfold pmbTxCommit
  split
  · exact ⟨ChangedIn.refl _ _, rfl⟩
  · obtain ⟨i, rfl⟩ : ∃ i, txSlot = i + 1 := ⟨txSlot - 1, by omega⟩
    have known : i < h.txSlotsCount := by omega
    by_cases processing : h.status s i = TxStatus.processing.code
    · have changed := (txSlotCommit_spec layout s known processing).2.1.mono (slotArea_log known)
      rw [txSlotCommit_eq layout s known, if_pos processing] at changed ⊢
      exact ⟨changed, rfl⟩
    · rw [txSlotCommit_eq layout s known, if_neg processing]
      exact ⟨ChangedIn.refl _ _, rfl⟩

theorem FreeOrLive.begins (layout : h.BlockLayout) (wf : FreeOrLive h s)
    (success : (pmbTxBegin h s).2.1 = .ok) :
    FreeOrLive h (pmbTxBegin h s).1 ∧ (pmbTxBegin h s).1.updIdList = s.updIdList := by
  obtain ⟨changed, only⟩ := pmbTxBegin_only layout.toLogLayout success
  generalize (pmbTxBegin h s).1 = begun at changed only ⊢
  rw [only] at changed ⊢
  exact ⟨wf.log layout rfl rfl changed, rfl⟩

theorem FreeOrLive.commit (layout : h.BlockLayout) (wf : FreeOrLive h s) (txSlot : Nat) :
    FreeOrLive h (pmbTxCommit h s txSlot).1 ∧ (pmbTxCommit h s txSlot).1.updIdList = s.updIdList := by
  obtain ⟨changed, only⟩ := pmbTxCommit_only layout.toLogLayout s txSlot
  generalize (pmbTxCommit h s txSlot).1 = commited at changed only ⊢
  rw [only] at changed ⊢
  exact ⟨wf.log layout rfl rfl changed, rfl⟩

theorem FreeOrLive.tput (layout : h.BlockLayout) (nonzero : ∀ bytes, h.checksum bytes ≠ 0)
    (wf : FreeOrLive h s) {txSlot : Nat} {kv kv' : PmbPair} (safe : BlockSafe h s (.tput txSlot kv))
    (done : pmbTput h s txSlot kv = (s', .ok, kv')) : FreeOrLive h s' ∧ s'.updIdList = s.updIdList := by
  obtain ⟨entry, exact⟩ := safe
  obtain ⟨args, ⟨small, append, -⟩ | ⟨large, old, found, new⟩⟩ := pmbTput_ok done
  · unfold SmallUpdate at small
    rw [tputEntryLen, if_pos small] at entry
    obtain ⟨after, -, same⟩ := wf.append layout args.slot_positive args.slot_known
      (fillsEntry_smallUpdate h kv.blkId kv.valBytes kv.offset) entry append
    exact ⟨after, by rw [same]⟩
  · obtain ⟨nowrap, short⟩ := exact large
    unfold SmallUpdate at large
    rw [tputEntryLen, if_neg large] at entry
    have value := args.value_fits
    rw [u32_of_lt nowrap] at value
    refine ⟨wf.tputNewBlock layout nonzero args.slot_positive args.slot_known entry args.key_fits value found
      short new, ?_⟩
    obtain ⟨-, obj, logged, -, log, rfl, -⟩ := tputNewBlock_ok new
    have entry' : EntryFits h { s with freeList := (caslistPop s.freeList 0).list } txSlot sizeofTxEntry := entry
    have same := (logNewBlock_only layout.toLogLayout args.slot_positive args.slot_known entry' log).2
    simp only
    rw [same]

theorem FreeOrLive.tputMeta (layout : h.BlockLayout) (nonzero : ∀ bytes, h.checksum bytes ≠ 0)
    (wf : FreeOrLive h s) {txSlot : Nat} {kv kv' : PmbPair} (safe : BlockSafe h s (.tputMeta txSlot kv))
    (done : pmbTputMeta h s txSlot kv = (s', .ok, kv')) : FreeOrLive h s' ∧ s'.updIdList = s.updIdList := by
  obtain ⟨entry, nowrap⟩ := safe
  obtain ⟨args, old, found, new⟩ := pmbTputMeta_ok done
  have room := layout.meta_room
  have small := layout.metaBsize_small
  have fits := args.fits
  rw [u32_of_lt nowrap, u32_of_lt (by omega)] at fits
  refine ⟨wf.tputMetaNewBlock layout nonzero args.slot_positive args.slot_known entry fits new, ?_⟩
  obtain ⟨-, obj, logged, -, log, rfl, -⟩ := tputMetaNewBlock_ok new
  have entry' : EntryFits h { s with metaFreeList := (caslistPop s.metaFreeList 0).list } txSlot
    sizeofTxEntry := entry
  have same := (logNewBlock_only layout.toLogLayout args.slot_positive args.slot_known entry' log).2
  simp only
  rw [same]

theorem FreeOrLive.step (layout : h.BlockLayout) (nonzero : ∀ bytes, h.checksum bytes ≠ 0)
    (wf : FreeOrLive h s) (idle : ∀ j, (s.updIdList j).count = 0) (step : BlockStep h s s') :
    FreeOrLive h s' ∧ ∀ j, (s'.updIdList j).count = 0 := by
  obtain ⟨call, ret, run, success, safe⟩ := step
  have untouched : FreeOrLive h s' ∧ s'.updIdList = s.updIdList →
      FreeOrLive h s' ∧ ∀ j, (s'.updIdList j).count = 0 := fun ⟨after, same⟩ => ⟨after, by rwa [same]⟩
  cases call with
  | txBegin =>
    cases run
    exact untouched (wf.begins layout success)
  | tput txSlot kv =>
    cases run
    exact untouched (wf.tput layout nonzero safe (Prod.ext rfl (Prod.ext success rfl)))
  | tputMeta txSlot kv =>
    cases run
    exact untouched (wf.tputMeta layout nonzero safe (Prod.ext rfl (Prod.ext success rfl)))
  | tdel txSlot blkId =>
    cases run
    obtain ⟨⟨positive, known⟩, -, append⟩ := pmbTdel_ok (Prod.ext rfl success)
    obtain ⟨after, -, same⟩ := wf.append layout positive known (fillsEntry_remove blkId) safe append
    have lists := congrArg Store.updIdList same
    exact untouched ⟨after, lists⟩
  | txCommit txSlot =>
    cases run
    exact untouched (wf.commit layout txSlot)
  | txExecute txSlot =>
    obtain ⟨⟨executed, status⟩, execute, same⟩ := Option.map_eq_some_iff.mp run
    cases same
    unfold pmbTxExecute at execute
    split at execute
    · cases execute
      cases success
    · obtain ⟨i, rfl⟩ : ∃ i, txSlot = i + 1 := ⟨txSlot - 1, by omega⟩
      obtain ⟨⟨finished, status'⟩, done, same⟩ := Option.map_eq_some_iff.mp execute
      cases same
      cases success
      obtain ⟨after, count⟩ := wf.execute layout nonzero idle (by omega) safe done
      exact ⟨⟨after.data, after.metadata⟩, count⟩
  | txAbort txSlot =>
    cases run
    simp only at success
    unfold pmbTxAbort at success ⊢
    split at success
    · cases success
    · next valid =>
      rw [if_neg valid]
      obtain ⟨i, rfl⟩ : ∃ i, txSlot = i + 1 := ⟨txSlot - 1, by omega⟩
      obtain ⟨after, same⟩ := wf.abort layout (by omega) safe (Prod.ext rfl success)
      exact ⟨⟨after.data, after.metadata⟩, fun j =>
        (congrArg TxMetalist.count (congrFun same j)).trans (idle j)⟩
  | resolveConflict blkId1 blkId2 =>
    cases run
    refine untouched ⟨wf.resolveConflict layout safe, ?_⟩
    unfold pmbResolveConflict
    split
    · rfl
    · split <;> rfl

theorem FreeOrLive.run (layout : h.BlockLayout) (nonzero : ∀ bytes, h.checksum bytes ≠ 0)
    (wf : FreeOrLive h s) (idle : ∀ j, (s.updIdList j).count = 0)
    (run : Relation.ReflTransGen (BlockStep h) s s') :
    FreeOrLive h s' ∧ ∀ j, (s'.updIdList j).count = 0 := by
  induction run with
  | refl => exact ⟨wf, idle⟩
  | tail _ step ih => exact ih.1.step layout nonzero ih.2 step

end Runs

-- in a run of successful calls that meet the condition a block is free exactly when it is not live. The update lists
-- are empty between the calls from `tx_log_init` on
theorem free_or_live_run {h : Handle} (layout : h.BlockLayout) (nonzero : ∀ bytes, h.checksum bytes ≠ 0)
    {s s' : Store} (wf : FreeOrLive h s) (idle : ∀ j, (s.updIdList j).count = 0)
    (run : Relation.ReflTransGen (BlockStep h) s s') : FreeOrLive h s' := (wf.run layout nonzero idle run).1

theorem flatStore_freeOrLive : FreeOrLive flatHandle flatStore := by
  have dead : ∀ id, ¬flatHandle.Live flatStore.pool.mem id := by
    rintro id ⟨obj, -, live⟩
    exact live (word_of_zeros _ obj 8 fun _ _ _ => rfl)
  refine ⟨⟨_, flatStore_free, fun id => ?_⟩, ⟨∅, flatStore_metaFree, fun id => ?_⟩⟩
  · have count : flatHandle.totalObjsCount = 3 := rfl
    simp only [dead, not_false_eq_true, and_true, Finset.mem_Icc]
    omega
  · have count : flatHandle.totalObjsCount + flatHandle.metaObjsCount = 3 := rfl
    have data : flatHandle.totalObjsCount = 3 := rfl
    simp only [Finset.notMem_empty, false_iff]
    omega

theorem BlockStep.after {h : Handle} {s : Store} (call : Call)
    (success : (runCall h s call).map (fun done => done.2.status) = some .ok) (safe : BlockSafe h s call) :
    BlockStep h s (s.after h call) := by
  obtain ⟨ret, ran, status⟩ := runCall_after success
  exact ⟨call, ret, ran, status, safe⟩

theorem ExecuteSafe.of_log {h : Handle} {s : Store} {i : Nat} {log : List (Nat × TxEntry)}
    (walked : slotLog s.pool.mem (h.slotAddr i) = log) (inside : ∀ r ∈ log, r.1 + 24 ≤ h.logEnd)
    (plain : ∀ r ∈ log, r.2.type ≠ TxOp.updinplace.code)
    (zeroed : ∀ r ∈ log, Zeroes r.2 → h.Sane s.pool.mem r.2.blkId1) : ExecuteSafe h s i := by
  rw [← walked] at inside plain zeroed
  exact ⟨inside, zeroed, fun r member in_place => absurd in_place (plain r member),
    fun r member _ _ in_place => absurd in_place (plain r member)⟩

-- an object is put, executed and deleted
def oncePut : Store := (flatStore.after flatHandle .txBegin).after flatHandle (.tput 1 (onePair 0))

def onceExecuted : Store := (oncePut.after flatHandle (.txCommit 1)).after flatHandle (.txExecute 1)

def onceRemoved : Store := (onceExecuted.after flatHandle .txBegin).after flatHandle (.tdel 1 1)

def onceFreed : Store := (onceRemoved.after flatHandle (.txCommit 1)).after flatHandle (.txExecute 1)

theorem onceExecuted_run : Relation.ReflTransGen (BlockStep flatHandle) flatStore onceExecuted := by
  have begins : BlockStep flatHandle flatStore _ := .after .txBegin (by decide +kernel) trivial
  have puts : BlockStep flatHandle _ oncePut := .after (.tput 1 (onePair 0)) (by decide +kernel)
    ⟨fun _ => by decide +kernel, fun _ => ⟨by decide, fun _ named => absurd rfl named⟩⟩
  have commits : BlockStep flatHandle oncePut _ := .after (.txCommit 1) (by decide +kernel) trivial
  have executes : BlockStep flatHandle (oncePut.after flatHandle (.txCommit 1)) onceExecuted := by
    have log : slotLog (oncePut.after flatHandle (.txCommit 1)).pool.mem (flatHandle.slotAddr 0) =
        [(flatHandle.slotAddr 0 + 24, ⟨0, 1, 0⟩)] := by decide +kernel
    refine .after (.txExecute 1) (by decide +kernel) (.of_log log (by decide) (by decide) fun r member zeroes => ?_)
    rw [List.mem_singleton.mp member] at zeroes
    exact zeroes.elim (fun same => by cases same) fun same => by cases same
  exact (((Relation.ReflTransGen.single begins).tail puts).tail commits).tail executes

theorem onceFreed_run : Relation.ReflTransGen (BlockStep flatHandle) onceExecuted onceFreed := by
  have begins : BlockStep flatHandle onceExecuted _ := .after .txBegin (by decide +kernel) trivial
  have removes : BlockStep flatHandle _ onceRemoved := .after (.tdel 1 1) (by decide +kernel) fun _ => by decide +kernel
  have commits : BlockStep flatHandle onceRemoved _ := .after (.txCommit 1) (by decide +kernel) trivial
  have executes : BlockStep flatHandle (onceRemoved.after flatHandle (.txCommit 1)) onceFreed := by
    have log : slotLog (onceRemoved.after flatHandle (.txCommit 1)).pool.mem (flatHandle.slotAddr 0) =
        [(flatHandle.slotAddr 0 + 24, ⟨3, 1, 0⟩)] := by decide +kernel
    have direct : backendDirect flatHandle.backend 1 = some 139638110957568 := by decide +kernel
    refine .after (.txExecute 1) (by decide +kernel) (.of_log log (by decide) (by decide) fun r member _ obj there => ?_)
    rw [List.mem_singleton.mp member] at there ⊢
    cases direct.symm.trans there
    decide +kernel
  exact (((Relation.ReflTransGen.single begins).tail removes).tail commits).tail executes

theorem free_or_live_run_sample :
    (onceExecuted.freeList = some ⟨1, 2, 2, []⟩ ∧ FreeOrLive flatHandle onceExecuted) ∧
      onceFreed.freeList = some ⟨2, 1, 2, []⟩ ∧ FreeOrLive flatHandle onceFreed := by
  have holds : ∀ s', Relation.ReflTransGen (BlockStep flatHandle) flatStore s' → FreeOrLive flatHandle s' :=
    fun s' run => free_or_live_run flatHandle_layout flatHandle_nonzero flatStore_freeOrLive (fun _ => rfl) run
  exact ⟨⟨by decide +kernel, holds _ onceExecuted_run⟩, by decide +kernel, holds _ (onceExecuted_run.trans onceFreed_run)⟩

-- a small update of a free block is not refused; its execution makes the block live
theorem free_block_made_live :
    FreeOrLive flatHandle flatStore ∧ ∃ s' rets,
      runCalls flatHandle flatStore [.txBegin, .tput 1 (onePair 1), .txCommit 1, .txExecute 1] =
        some (s', rets) ∧ (∀ ret ∈ rets, ret.status = .ok) ∧ ¬FreeOrLive flatHandle s' := by
  have ran : (runCalls flatHandle flatStore
      [.txBegin, .tput 1 (onePair 1), .txCommit 1, .txExecute 1]).map
        (fun done => (done.1.freeList, flch64 done.1.pool.mem 139638110957568, done.2.map Return.status)) =
      some (some ⟨2, 1, 2, []⟩, 163208757250, [.ok, .ok, .ok, .ok]) := by decide +kernel
  obtain ⟨⟨s', rets⟩, done, values⟩ := Option.map_eq_some_iff.mp ran
  simp only [Prod.mk.injEq] at values
  obtain ⟨list, flch, statuses⟩ := values
  refine ⟨flatStore_freeOrLive, s', rets, done, fun ret member => ?_, fun wf => ?_⟩
  · have status := List.mem_map_of_mem (f := Return.status) member
    rw [statuses] at status
    simpa using status
  · obtain ⟨ids, lists, iff⟩ := wf.data
    have member : 1 ∈ ids := (lists.listed 1).mp ⟨_, list, by decide⟩
    refine ((iff 1).mp member).2 ⟨139638110957568, by decide +kernel, ?_⟩
    rw [flch]
    decide

end PmBackend
