import PmBackend.AbortsAlike
import PmBackend.ExecutionsAlike
import PmBackend.NewBlocksAlike

set_option autoImplicit false

namespace PmBackend

open ByteMemory

-- the two calls differ in the bytes of values only
def Call.Alike : Call → Call → Prop
  | .tput txSlot kv, call => ∃ kv', call = .tput txSlot kv' ∧ kv.Alike kv'
  | .tputMeta txSlot kv, call => ∃ kv', call = .tputMeta txSlot kv' ∧ kv.Alike kv'
  | call, call' => call' = call

def ListsOnly (s s' t t' : Store) : Prop :=
  ∃ free metaFree slots,
    t = { s with freeList := free, metaFreeList := metaFree, txSlotsList := slots } ∧
      t' = { s' with freeList := free, metaFreeList := metaFree, txSlotsList := slots }

section Refused

variable {h : Handle} {secret : Set Nat} {s s' t t' : Store}

theorem ListsOnly.refl (rest : s' = { s with pool := s'.pool }) : ListsOnly s s' s s' :=
  ⟨s.freeList, s.metaFreeList, s.txSlotsList, rfl, by rw [rest]⟩

theorem ListsOnly.stays (lists : ListsOnly s s' t t') :
    t.pool = s.pool ∧ t'.pool = s'.pool ∧ t.updIdList = s.updIdList := by
  obtain ⟨free, metaFree, slots, rfl, rfl⟩ := lists
  exact ⟨rfl, rfl, rfl⟩

theorem ListsOnly.alike (alike : StoresAlike h secret s s') (lists : ListsOnly s s' t t') : StoresAlike h secret t t' := by
  obtain ⟨pool, pool', -⟩ := lists.stays
  refine ⟨?_, by rw [pool, pool']; exact alike.blocks⟩
  rw [pool']
  obtain ⟨free, metaFree, slots, rfl, rfl⟩ := lists
  rw [alike.rest]

end Refused

structure PutsAlike (s s' : Store) (done done' : Store × Status × PmbPair) : Prop where
  status : done'.2.1 = done.2.1
  blkId : done'.2.2.blkId = done.2.2.blkId
  refused : done.2.1 ≠ .ok → ListsOnly s s' done.1 done'.1

section Answers

variable {h : Handle} {secret : Set Nat} {s : Store} {p : Pool} {kv kv' : PmbPair} {i : Nat}

theorem txSlotAppend_answer (layout : h.LogLayout) (slots : SlotsAlike h s.pool.mem p.mem) (known : i < h.txSlotsCount)
    (fill fill' : Pool → Nat → Pool) (len len' : Nat) :
    (txSlotAppend h { s with pool := p } (i + 1) fill' len').2 = (txSlotAppend h s (i + 1) fill len).2 := by
  have status : h.status { s with pool := p } i = h.status s i := (slots i known).status
  rw [txSlotAppend_eq layout s known, txSlotAppend_eq layout _ known, status]
  split <;> rfl

theorem logNewBlock_answer (layout : h.LogLayout) (slots : SlotsAlike h s.pool.mem p.mem) (known : i < h.txSlotsCount)
    (oldBlkId newBlkId : Nat) :
    (logNewBlock h { s with pool := p } (i + 1) oldBlkId newBlkId).2 = (logNewBlock h s (i + 1) oldBlkId newBlkId).2 := by
  rw [logNewBlock_op, logNewBlock_op, LogOp.run_eq, LogOp.run_eq]
  exact txSlotAppend_answer layout slots known _ _ _ _

theorem tputNewBlock_alike (layout : h.LogLayout) (slots : SlotsAlike h s.pool.mem p.mem) (known : i < h.txSlotsCount)
    (same : kv'.blkId = kv.blkId) (old : Option Nat) :
    PutsAlike s { s with pool := p } (tputNewBlock h s (i + 1) kv old)
      (tputNewBlock h { s with pool := p } (i + 1) kv' old) := by
  have logged := logNewBlock_answer (s := { s with freeList := (caslistPop s.freeList 0).list }) layout slots known
    kv.blkId (caslistPop s.freeList 0).val
  have answers : (tputNewBlock h { s with pool := p } (i + 1) kv' old).2.1 = (tputNewBlock h s (i + 1) kv old).2.1 ∧
      (tputNewBlock h { s with pool := p } (i + 1) kv' old).2.2.blkId = (tputNewBlock h s (i + 1) kv old).2.2.blkId := by
    unfold tputNewBlock
    simp only [same]
    split
    · exact ⟨rfl, same⟩
    · cases backendDirect h.backend (caslistPop s.freeList 0).val with
      | none => exact ⟨rfl, same⟩
      | some obj =>
        simp only at logged ⊢
        rw [logged]
        split
        · exact ⟨rfl, same⟩
        · exact ⟨rfl, rfl⟩
  refine ⟨answers.1, answers.2, fun failed => ?_⟩
  rw [(tputNewBlock_failed failed).1, (tputNewBlock_failed (answers.1 ▸ failed)).1]
  exact ⟨_, s.metaFreeList, s.txSlotsList, rfl, rfl⟩

theorem tputMetaNewBlock_alike (layout : h.LogLayout) (slots : SlotsAlike h s.pool.mem p.mem) (known : i < h.txSlotsCount)
    (same : kv'.blkId = kv.blkId) (old : Option Nat) :
    PutsAlike s { s with pool := p } (tputMetaNewBlock h s (i + 1) kv old)
      (tputMetaNewBlock h { s with pool := p } (i + 1) kv' old) := by
  have logged := logNewBlock_answer (s := { s with metaFreeList := (caslistPop s.metaFreeList 0).list }) layout slots known
    kv.blkId (caslistPop s.metaFreeList 0).val
  have answers :
      (tputMetaNewBlock h { s with pool := p } (i + 1) kv' old).2.1 = (tputMetaNewBlock h s (i + 1) kv old).2.1 ∧
        (tputMetaNewBlock h { s with pool := p } (i + 1) kv' old).2.2.blkId =
          (tputMetaNewBlock h s (i + 1) kv old).2.2.blkId := by
    unfold tputMetaNewBlock
    simp only [same]
    split
    · exact ⟨rfl, same⟩
    · cases backendDirect h.backend (caslistPop s.metaFreeList 0).val with
      | none => exact ⟨rfl, same⟩
      | some obj =>
        simp only at logged ⊢
        rw [logged]
        split
        · exact ⟨rfl, same⟩
        · exact ⟨rfl, rfl⟩
  refine ⟨answers.1, answers.2, fun failed => ?_⟩
  rcases (tputMetaNewBlock_failed failed).2 with ⟨popped, found, list⟩ | ⟨missing, list⟩
  · rcases (tputMetaNewBlock_failed (answers.1 ▸ failed)).2 with ⟨-, -, list'⟩ | ⟨missing', -⟩
    · rw [list, list']
      exact ⟨s.freeList, _, s.txSlotsList, rfl, rfl⟩
    · rcases missing' with empty | stray
      · exact absurd popped empty
      · simp only at stray
        rw [stray] at found
        cases found
  · rcases (tputMetaNewBlock_failed (answers.1 ▸ failed)).2 with ⟨popped', found', -⟩ | ⟨-, list'⟩
    · rcases missing with empty | stray
      · exact absurd popped' empty
      · simp only at found'
        rw [stray] at found'
        cases found'
    · rw [list, list']
      exact ⟨s.freeList, _, s.txSlotsList, rfl, rfl⟩

theorem pmbTput_alike (layout : h.LogLayout) (alike : StoresAlike h secret s { s with pool := p })
    (slots : SlotsAlike h s.pool.mem p.mem) (pairs : kv.Alike kv') (txSlot : Nat) :
    PutsAlike s { s with pool := p } (pmbTput h s txSlot kv) (pmbTput h { s with pool := p } txSlot kv') := by
  obtain ⟨val', rfl, null⟩ := pairs
  have stays : ListsOnly s { s with pool := p } s { s with pool := p } := ListsOnly.refl rfl
  have gets := alike.blocks.get kv.blkId
  have same : ({ kv with val := val' } : PmbPair).blkId = kv.blkId := rfl
  unfold pmbTput
  simp only [null]
  split
  · exact ⟨rfl, rfl, fun _ => stays⟩
  · next accepted =>
    obtain ⟨i, rfl⟩ : ∃ i, txSlot = i + 1 := ⟨txSlot - 1, by omega⟩
    have known : i < h.txSlotsCount := by omega
    split
    · exact ⟨rfl, rfl, fun _ => stays⟩
    · split
      · refine ⟨txSlotAppend_answer layout slots known _ _ _ _, rfl, fun failed => ?_⟩
        have failed' : (txSlotOpSmallUpdate h { s with pool := p } (i + 1) kv.blkId
            ({ kv with val := val' } : PmbPair).valBytes kv.offset).2 ≠ .ok := fun ok =>
          failed ((txSlotAppend_answer layout slots known _ _ _ _).symm.trans ok)
        rw [txSlotOpSmallUpdate, txSlotAppend_refused failed, txSlotOpSmallUpdate, txSlotAppend_refused failed']
        exact stays
      · split
        · rw [gets]
          cases backendGet h s.pool.mem kv.blkId with
          | error e => exact ⟨rfl, rfl, fun _ => stays⟩
          | ok old => exact tputNewBlock_alike layout slots known same (some old)
        · exact tputNewBlock_alike layout slots known same none

theorem pmbTputMeta_alike (layout : h.LogLayout) (alike : StoresAlike h secret s { s with pool := p })
    (slots : SlotsAlike h s.pool.mem p.mem) (pairs : kv.Alike kv') (txSlot : Nat) :
    PutsAlike s { s with pool := p } (pmbTputMeta h s txSlot kv) (pmbTputMeta h { s with pool := p } txSlot kv') := by
  obtain ⟨val', rfl, null⟩ := pairs
  have stays : ListsOnly s { s with pool := p } s { s with pool := p } := ListsOnly.refl rfl
  have gets := alike.blocks.get kv.blkId
  have same : ({ kv with val := val' } : PmbPair).blkId = kv.blkId := rfl
  unfold pmbTputMeta
  simp only [null]
  split
  · exact ⟨rfl, rfl, fun _ => stays⟩
  · next accepted =>
    obtain ⟨i, rfl⟩ : ∃ i, txSlot = i + 1 := ⟨txSlot - 1, by omega⟩
    have known : i < h.txSlotsCount := by omega
    split
    · exact ⟨rfl, rfl, fun _ => stays⟩
    · split
      · exact ⟨rfl, rfl, fun _ => stays⟩
      · split
        · rw [gets]
          cases backendGet h s.pool.mem kv.blkId with
          | error e => exact ⟨rfl, rfl, fun _ => stays⟩
          | ok old => exact tputMetaNewBlock_alike layout slots known same (some old)
        · exact tputMetaNewBlock_alike layout slots known same none

theorem pmbTxBegin_alike (s : Store) (p : Pool) :
    (pmbTxBegin h { s with pool := p }).2 = (pmbTxBegin h s).2 ∧
      ((pmbTxBegin h s).2.1 ≠ .ok →
        ListsOnly s { s with pool := p } (pmbTxBegin h s).1 (pmbTxBegin h { s with pool := p }).1) := by
  have lists : ∀ slots, ListsOnly s { s with pool := p } { s with txSlotsList := slots }
      { s with pool := p, txSlotsList := slots } := fun slots => ⟨s.freeList, s.metaFreeList, slots, rfl, rfl⟩
  unfold pmbTxBegin txSlotInit
  simp only
  split
  · exact ⟨rfl, fun _ => lists _⟩
  · split
    · exact ⟨rfl, fun _ => lists _⟩
    · cases backendTxDirect h.backend (txIndex (caslistPop s.txSlotsList 0).val) with
      | none => exact ⟨rfl, fun _ => lists _⟩
      | some slot => exact ⟨rfl, fun failed => absurd rfl failed⟩

theorem pmbTdel_alike (layout : h.LogLayout) (slots : SlotsAlike h s.pool.mem p.mem) (txSlot blkId : Nat) :
    (pmbTdel h { s with pool := p } txSlot blkId).2 = (pmbTdel h s txSlot blkId).2 ∧
      ((pmbTdel h s txSlot blkId).2 ≠ .ok →
        ListsOnly s { s with pool := p } (pmbTdel h s txSlot blkId).1 (pmbTdel h { s with pool := p } txSlot blkId).1) := by
  have stays : ListsOnly s { s with pool := p } s { s with pool := p } := ListsOnly.refl rfl
  unfold pmbTdel
  split
  · exact ⟨rfl, fun _ => stays⟩
  · obtain ⟨i, rfl⟩ : ∃ i, txSlot = i + 1 := ⟨txSlot - 1, by omega⟩
    have known : i < h.txSlotsCount := by omega
    have status := txSlotAppend_answer layout slots known (fun p entry => (p.setType entry .remove).setBlkId1 entry blkId)
      (fun p entry => (p.setType entry .remove).setBlkId1 entry blkId) sizeofTxEntry sizeofTxEntry
    refine ⟨status, fun failed => ?_⟩
    have failed' : (txSlotOpRemove h { s with pool := p } (i + 1) blkId).2 ≠ .ok := fun ok => failed (status.symm.trans ok)
    rw [txSlotOpRemove, txSlotAppend_refused failed, txSlotOpRemove, txSlotAppend_refused failed']
    exact stays

theorem pmbTxCommit_alike (layout : h.LogLayout) (slots : SlotsAlike h s.pool.mem p.mem) (txSlot : Nat) :
    (pmbTxCommit h { s with pool := p } txSlot).2 = (pmbTxCommit h s txSlot).2 ∧
      ((pmbTxCommit h s txSlot).2 ≠ .ok →
        ListsOnly s { s with pool := p } (pmbTxCommit h s txSlot).1 (pmbTxCommit h { s with pool := p } txSlot).1) := by
  have stays : ListsOnly s { s with pool := p } s { s with pool := p } := ListsOnly.refl rfl
  unfold pmbTxCommit
  split
  · exact ⟨rfl, fun _ => stays⟩
  · obtain ⟨i, rfl⟩ : ∃ i, txSlot = i + 1 := ⟨txSlot - 1, by omega⟩
    have known : i < h.txSlotsCount := by omega
    have status : h.status { s with pool := p } i = h.status s i := (slots i known).status
    rw [txSlotCommit_eq layout s known, txSlotCommit_eq layout _ known, status]
    split
    · exact ⟨rfl, fun failed => absurd rfl failed⟩
    · exact ⟨rfl, fun _ => stays⟩

theorem pmbTxExecute_alike (layout : h.LogLayout) (slots : SlotsAlike h s.pool.mem p.mem) {txSlot : Nat} {t t' : Store}
    {ret ret' : Status} (run : pmbTxExecute h s txSlot = some (t, ret))
    (run' : pmbTxExecute h { s with pool := p } txSlot = some (t', ret')) :
    ret' = ret ∧ (ret ≠ .ok → ListsOnly s { s with pool := p } t t') := by
  have stays : ListsOnly s { s with pool := p } s { s with pool := p } := ListsOnly.refl rfl
  unfold pmbTxExecute at run run'
  split at run
  · next refused =>
    rw [if_pos refused] at run'
    cases run
    cases run'
    exact ⟨rfl, fun _ => stays⟩
  · next accepted =>
    rw [if_neg accepted] at run'
    obtain ⟨i, rfl⟩ : ∃ i, txSlot = i + 1 := ⟨txSlot - 1, by omega⟩
    have known : i < h.txSlotsCount := by omega
    have status : h.status { s with pool := p } i = h.status s i := (slots i known).status
    obtain ⟨⟨done, code⟩, execute, same⟩ := Option.map_eq_some_iff.mp run
    obtain ⟨⟨done', code'⟩, execute', same'⟩ := Option.map_eq_some_iff.mp run'
    cases same
    cases same'
    rcases txSlotExecute_spec layout known execute with ⟨other, rfl, rfl⟩ | ⟨commited, rfl, -⟩
    · rcases txSlotExecute_spec layout known execute' with ⟨-, rfl, rfl⟩ | ⟨commited', -⟩
      · exact ⟨rfl, fun _ => ⟨done.freeList, done.metaFreeList, _, rfl, rfl⟩⟩
      · exact absurd (status.symm.trans commited') other
    · rcases txSlotExecute_spec layout known execute' with ⟨other, -⟩ | ⟨-, rfl, -⟩
      · exact absurd (status.trans commited) other
      · exact ⟨rfl, fun failed => absurd rfl failed⟩

theorem pmbTxAbort_alike (layout : h.LogLayout) (slots : SlotsAlike h s.pool.mem p.mem) (txSlot : Nat) :
    (pmbTxAbort h { s with pool := p } txSlot).2 = (pmbTxAbort h s txSlot).2 ∧
      ((pmbTxAbort h s txSlot).2 ≠ .ok →
        ListsOnly s { s with pool := p } (pmbTxAbort h s txSlot).1 (pmbTxAbort h { s with pool := p } txSlot).1) := by
  unfold pmbTxAbort
  split
  · exact ⟨rfl, fun _ => ListsOnly.refl rfl⟩
  · obtain ⟨i, rfl⟩ : ∃ i, txSlot = i + 1 := ⟨txSlot - 1, by omega⟩
    have known : i < h.txSlotsCount := by omega
    have status : h.status { s with pool := p } i = h.status s i := (slots i known).status
    rcases txSlotAbort_spec layout s known with ⟨idle, open_, refused⟩ | ⟨used, ok, -⟩
    · rcases txSlotAbort_spec layout { s with pool := p } known with ⟨-, -, refused'⟩ | ⟨used, -⟩
      · rw [refused, refused']
        exact ⟨rfl, fun _ => ⟨s.freeList, s.metaFreeList, _, rfl, rfl⟩⟩
      · rw [status] at used
        exact absurd used (not_or.mpr ⟨idle, open_⟩)
    · rcases txSlotAbort_spec layout { s with pool := p } known with ⟨idle, open_, -⟩ | ⟨-, ok', -⟩
      · rw [status] at idle open_
        exact absurd used (not_or.mpr ⟨idle, open_⟩)
      · exact ⟨ok'.trans ok.symm, fun failed => absurd ok failed⟩

theorem pmbResolveConflict_alike (rooms : h.Rooms) (alike : StoresAlike h secret s { s with pool := p })
    (slots : SlotsAlike h s.pool.mem p.mem) (blocks : SealedBut h s.pool.mem ∅) (blkId1 blkId2 : Nat) :
    (resolveStatus h { s with pool := p } blkId1 blkId2 = resolveStatus h s blkId1 blkId2 ∧
        (pmbResolveConflict h { s with pool := p } blkId1 blkId2).2 = (pmbResolveConflict h s blkId1 blkId2).2) ∧
      (resolveStatus h s blkId1 blkId2 ≠ .ok → ListsOnly s { s with pool := p } (pmbResolveConflict h s blkId1 blkId2).1
        (pmbResolveConflict h { s with pool := p } blkId1 blkId2).1) ∧
      StoresAlike h secret (pmbResolveConflict h s blkId1 blkId2).1 (pmbResolveConflict h { s with pool := p } blkId1 blkId2).1 ∧
      SlotsAlike h (pmbResolveConflict h s blkId1 blkId2).1.pool.mem
        (pmbResolveConflict h { s with pool := p } blkId1 blkId2).1.pool.mem := by
  have stays : ListsOnly s { s with pool := p } s { s with pool := p } := ListsOnly.refl rfl
  have gets := alike.blocks.get
  have zeroed : ∀ id obj, backendGet h s.pool.mem id = .ok obj →
      StoresAlike h secret (s.setZero (some obj)) (({ s with pool := p } : Store).setZero (some obj)) ∧
        SlotsAlike h (s.setZero (some obj)).pool.mem (({ s with pool := p } : Store).setZero (some obj)).pool.mem := by
    intro id obj found
    obtain ⟨-, direct, live⟩ := backendGet_ok.mp found
    have contained := fun id obj direct => blocks.contained id obj direct
    have left := (setZero_blocksOnly rooms.toLogLayout s id).changed
    have right := (setZero_blocksOnly rooms.toLogLayout { s with pool := p } id).changed
    rw [direct] at left right
    exact ⟨alike.setZero rooms contained ((contained id obj direct).alone live) direct,
      slots.blocks rooms.toLogLayout left right⟩
  unfold pmbResolveConflict resolveStatus
  simp only [gets]
  cases found1 : backendGet h s.pool.mem blkId1 with
  | error e => exact ⟨⟨trivial, rfl⟩, fun _ => stays, alike, slots⟩
  | ok obj1 =>
    cases found2 : backendGet h s.pool.mem blkId2 with
    | error e => exact ⟨⟨trivial, rfl⟩, fun _ => stays, alike, slots⟩
    | ok obj2 =>
      have ver1 := (alike.blocks blkId1 obj1 (backendGet_ok.mp found1).2.1).ver
      have ver2 := (alike.blocks blkId2 obj2 (backendGet_ok.mp found2).2.1).ver
      simp only at ver1 ver2 ⊢
      rw [ver1, ver2]
      refine ⟨⟨trivial, rfl⟩, fun failed => absurd rfl failed, ?_⟩
      split
      · obtain ⟨stores, same⟩ := zeroed blkId1 obj1 found1
        exact ⟨⟨by rw [Store.setZero, Store.setZero], stores.blocks⟩, same⟩
      · obtain ⟨stores, same⟩ := zeroed blkId2 obj2 found2
        exact ⟨⟨by rw [Store.setZero, Store.setZero], stores.blocks⟩, same⟩

end Answers

theorem runCall_alike {h : Handle} (rooms : h.Rooms) {secret : Set Nat} {s s' t t' : Store} {call call' : Call}
    {ret ret' : Return} (alike : StoresAlike h secret s s') (slots : SlotsAlike h s.pool.mem s'.pool.mem)
    (blocks : SealedBut h s.pool.mem ∅) (calls : call.Alike call') (run : runCall h s call = some (t, ret))
    (run' : runCall h s' call' = some (t', ret')) : ret' = ret ∧ (ret.status ≠ .ok → ListsOnly s s' t t') := by
  have layout := rooms.toLogLayout
  obtain ⟨p, rfl⟩ : ∃ p, s' = { s with pool := p } := ⟨s'.pool, alike.rest⟩
  cases call with
  | txBegin =>
    cases calls
    cases run
    cases run'
    obtain ⟨same, refused⟩ := pmbTxBegin_alike (h := h) s p
    exact ⟨by rw [same], refused⟩
  | tput txSlot kv =>
    obtain ⟨kv', rfl, pairs⟩ := calls
    cases run
    cases run'
    have puts := pmbTput_alike layout alike slots pairs txSlot
    exact ⟨by rw [puts.status, puts.blkId], puts.refused⟩
  | tputMeta txSlot kv =>
    obtain ⟨kv', rfl, pairs⟩ := calls
    cases run
    cases run'
    have puts := pmbTputMeta_alike layout alike slots pairs txSlot
    exact ⟨by rw [puts.status, puts.blkId], puts.refused⟩
  | tdel txSlot blkId =>
    cases calls
    cases run
    cases run'
    obtain ⟨same, refused⟩ := pmbTdel_alike layout slots txSlot blkId
    exact ⟨by rw [same], refused⟩
  | txCommit txSlot =>
    cases calls
    cases run
    cases run'
    obtain ⟨same, refused⟩ := pmbTxCommit_alike layout slots txSlot
    exact ⟨by rw [same], refused⟩
  | txExecute txSlot =>
    cases calls
    obtain ⟨⟨done, code⟩, execute, same⟩ := Option.map_eq_some_iff.mp run
    obtain ⟨⟨done', code'⟩, execute', same'⟩ := Option.map_eq_some_iff.mp run'
    cases same
    cases same'
    obtain ⟨same, refused⟩ := pmbTxExecute_alike layout slots execute execute'
    exact ⟨by rw [same], refused⟩
  | txAbort txSlot =>
    cases calls
    cases run
    cases run'
    obtain ⟨same, refused⟩ := pmbTxAbort_alike layout slots txSlot
    exact ⟨by rw [same], refused⟩
  | resolveConflict blkId1 blkId2 =>
    cases calls
    cases run
    cases run'
    obtain ⟨⟨status, same⟩, refused, -⟩ := pmbResolveConflict_alike rooms alike slots blocks blkId1 blkId2
    exact ⟨by rw [status, same], refused⟩

end PmBackend
