import PmBackend.OpenTransactions

set_option autoImplicit false

namespace PmBackend

open ByteMemory DeferredLog

section Failed

variable {h : Handle} {s s' : Store} {call : Call} {ret : Return} {objects : Objects}

theorem pmbTxBegin_failed (failed : (pmbTxBegin h s).2.1 ≠ .ok) :
    (pmbTxBegin h s).1 = { s with txSlotsList := (caslistPop s.txSlotsList 0).list } := by
  unfold pmbTxBegin at failed ⊢
  simp only at failed ⊢
  split
  · rfl
  · next popped =>
    rw [if_neg popped] at failed
    simp only at failed
    unfold txSlotInit at failed ⊢
    split
    · rfl
    · next valid =>
      rw [if_neg valid] at failed
      split
      · rfl
      · next slot direct =>
        rw [direct] at failed
        exact absurd rfl failed

theorem pmbTxCommit_failed {txSlot : Nat} (failed : (pmbTxCommit h s txSlot).2 ≠ .ok) :
    (pmbTxCommit h s txSlot).1 = s := by
  unfold pmbTxCommit txSlotCommit at failed ⊢
  split
  · rfl
  · next valid =>
    rw [if_neg valid, if_neg valid] at failed
    split
    · rfl
    · next slot direct =>
      rw [direct] at failed
      simp only at failed
      split
      · rfl
      · next processing =>
        rw [if_neg processing] at failed
        exact absurd rfl failed

theorem pmbTxExecute_failed {txSlot : Nat} {status : Status} (done : pmbTxExecute h s txSlot = some (s', status))
    (failed : status ≠ .ok) : s' = s ∨ s' = txLogFreeSlot s txSlot := by
  unfold pmbTxExecute txSlotExecute at done
  split at done
  · cases done
    exact Or.inl rfl
  · split at done
    · cases done
      exact Or.inr rfl
    · split at done
      · cases done
        exact Or.inr rfl
      · simp only [Option.map_eq_some_iff, Option.bind_eq_some_iff] at done
        obtain ⟨-, ⟨walked, -, ended, -, rfl⟩, same⟩ := done
        cases same
        exact absurd rfl failed

theorem pmbTxAbort_failed {txSlot : Nat} (failed : (pmbTxAbort h s txSlot).2 ≠ .ok) :
    (pmbTxAbort h s txSlot).1 = s ∨ (pmbTxAbort h s txSlot).1 = txLogFreeSlot s txSlot := by
  unfold pmbTxAbort txSlotAbort at failed ⊢
  split
  · exact Or.inl rfl
  · next valid =>
    rw [if_neg valid] at failed
    simp only at failed ⊢
    split
    · exact Or.inr rfl
    · next slot direct =>
      rw [direct] at failed
      simp only at failed ⊢
      split
      · exact Or.inr rfl
      · next ready =>
        rw [if_neg ready] at failed
        exact absurd rfl failed

theorem pmbResolveConflict_failed {blkId1 blkId2 : Nat} (failed : resolveStatus h s blkId1 blkId2 ≠ .ok) :
    (pmbResolveConflict h s blkId1 blkId2).1 = s := by
  unfold resolveStatus at failed
  unfold pmbResolveConflict
  split
  · rfl
  · next obj1 found1 =>
    split
    · rfl
    · next obj2 found2 =>
      rw [found1, found2] at failed
      exact absurd rfl failed

theorem runCall_failed (ids : h.Ids) (run : runCall h s call = some (s', ret)) (failed : ret.status ≠ .ok)
    (free : DeadLists h s objects) :
    (s'.pool = s.pool ∧ s'.updIdList = s.updIdList) ∧ DeadLists h s' objects := by
  have fit := ids.fit
  have unchanged {t : Store} (same : t = s) :
      (t.pool = s.pool ∧ t.updIdList = s.updIdList) ∧ DeadLists h t objects := by
    rw [same]
    exact ⟨⟨rfl, rfl⟩, free⟩
  have freed {t : Store} {txSlot : Nat} (same : t = s ∨ t = txLogFreeSlot s txSlot) :
      (t.pool = s.pool ∧ t.updIdList = s.updIdList) ∧ DeadLists h t objects := by
    rcases same with same | rfl
    · exact unchanged same
    · exact ⟨⟨rfl, rfl⟩, free.same rfl rfl⟩
  cases call with
  | txBegin =>
    cases run
    rw [pmbTxBegin_failed failed]
    exact ⟨⟨rfl, rfl⟩, free.same rfl rfl⟩
  | tput txSlot kv =>
    cases run
    rcases pmbTput_failed failed with ⟨same, -⟩ | ⟨-, -, old, -, same⟩
    · exact unchanged same
    · rw [same] at failed ⊢
      rw [(tputNewBlock_failed failed).1]
      exact ⟨⟨rfl, rfl⟩, free.data.shrink (by omega), free.metadata⟩
  | tputMeta txSlot kv =>
    cases run
    rcases @pmbTputMeta_paths h s txSlot kv with ⟨same, -⟩ | ⟨-, old, -, same⟩
    · exact unchanged same
    · rw [same] at failed ⊢
      rcases (tputMetaNewBlock_failed failed).2 with ⟨popped, -, same⟩ | ⟨-, same⟩
      · rw [same]
        exact ⟨⟨rfl, rfl⟩, free.data, free.metadata.back fit popped⟩
      · rw [same]
        exact ⟨⟨rfl, rfl⟩, free.data, free.metadata.shrink fit⟩
  | tdel txSlot blkId =>
    cases run
    change (pmbTdel h s txSlot blkId).2 ≠ .ok at failed
    refine unchanged ?_
    unfold pmbTdel at failed ⊢
    split
    · rfl
    · next valid =>
      rw [if_neg valid] at failed
      exact txSlotAppend_refused failed
  | txCommit txSlot =>
    cases run
    exact unchanged (pmbTxCommit_failed failed)
  | txExecute txSlot =>
    obtain ⟨⟨t, status⟩, done, same⟩ := Option.map_eq_some_iff.mp run
    cases same
    exact freed (pmbTxExecute_failed done failed)
  | txAbort txSlot =>
    cases run
    exact freed (pmbTxAbort_failed failed)
  | resolveConflict blkId1 blkId2 =>
    cases run
    exact unchanged (pmbResolveConflict_failed failed)

end Failed

section Succeeded

variable {h : Handle} {t : Ledger} {s' : Store} {map : TxMap Nat PartialBytes} {i : Nat} {tx : Tx Nat PartialBytes}

theorem Represents.set (layout : h.LogLayout) {s : Store} (inv : Represents h s map) (changed : SlotChanged h i s s')
    {state : Option (Tx Nat PartialBytes)} (here : TxLogged h s' i state) :
    ∀ j < h.txSlotsCount, TxLogged h s' j (Function.update map.txs i state j) := by
  intro j known
  by_cases same : j = i
  · subst same
    rwa [Function.update_self]
  · rw [Function.update_of_ne same]
    exact (inv.logs j known).other layout known same changed

theorem knownSlot {txSlot : Nat} (valid : ¬(txSlot = 0 ∨ txSlot > h.txSlotsCount)) :
    ∃ i < h.txSlotsCount, txSlot = i + 1 := ⟨txSlot - 1, by omega, by omega⟩

theorem pmbTxCommit_known {s : Store} {txSlot : Nat} (done : pmbTxCommit h s txSlot = (s', .ok)) :
    ∃ i < h.txSlotsCount, txSlot = i + 1 := by
  unfold pmbTxCommit at done
  split at done
  · cases done
  · next valid => exact knownSlot valid

theorem pmbTxExecute_known {s : Store} {txSlot : Nat} (done : pmbTxExecute h s txSlot = some (s', .ok)) :
    ∃ i < h.txSlotsCount, txSlot = i + 1 := by
  unfold pmbTxExecute at done
  split at done
  · cases done
  · next valid => exact knownSlot valid

theorem pmbTxAbort_known {s : Store} {txSlot : Nat} (done : pmbTxAbort h s txSlot = (s', .ok)) :
    ∃ i < h.txSlotsCount, txSlot = i + 1 := by
  unfold pmbTxAbort at done
  split at done
  · cases done
  · next valid => exact knownSlot valid

theorem txSlotInit_flch (layout : h.LogLayout) (s : Store) (known : i < h.txSlotsCount) :
    flch64 (txSlotInit h s (i + 1)).1.pool.mem (h.slotAddr i) = 0 := by
  rw [txSlotInit_eq layout s known]
  simp only [flch64, Pool.store_mem]
  rw [word_write_disjoint _ _ _ _ _ (by simp), word_write_disjoint _ _ _ _ _ (by simp), word_write_same]
  decide

theorem LedgerInv.txBegin (rooms : h.Rooms) (inv : LedgerInv h t) {txSlot : Nat}
    (done : pmbTxBegin h t.store = (s', .ok, txSlot)) :
    t.map.Allows (.begin (txSlot - 1)) ∧ Represents h s' (t.map.next (.begin (txSlot - 1))) := by
  have layout := rooms.toLogLayout
  obtain ⟨-, -, i, known, rfl, only, size, same⟩ := pmbTxBegin_ok layout done
  have begins := (inv.slots.begins layout).2 (by rw [done])
  rw [done] at begins
  have free := begins.2
  simp only [Nat.add_sub_cancel] at free ⊢
  have status : h.status s' i = TxStatus.processing.code ∧ flch64 s'.pool.mem (h.slotAddr i) = 0 := by
    have moved := done
    unfold pmbTxBegin at moved
    simp only at moved
    split at moved
    · cases moved
    · simp only [Prod.mk.injEq] at moved
      obtain ⟨rfl, -, val⟩ := moved
      rw [val]
      exact ⟨(txSlotInit_spec layout _ known).2.1, txSlotInit_flch layout _ known⟩
  have here : TxLogged h s' i (some Tx.new) :=
    ⟨⟨status.1, status.2⟩, [], LoggedBy.new, [], ⟨size.trans_le rooms.slot_room, slotRecords_nil size⟩, rfl⟩
  refine ⟨(inv.logs i known).unused free, inv.held.log rooms (only.mono (slotArea_log known)), ?_,
    inv.set layout only.slotChanged here⟩
  exact inv.free.same (by rw [same]) (by rw [same])

theorem LedgerInv.defer (rooms : h.Rooms) (inv : LedgerInv h t) (known : i < h.txSlotsCount) {op : LogOp}
    (fits : op.Fits h) (none_made : op.created = none) (entry : EntryFits h t.store (i + 1) op.len)
    (done : op.run h t.store (i + 1) = (s', .ok)) :
    t.map.Allows (.defer i op.change) ∧ Represents h s' (t.map.next (.defer i op.change)) := by
  obtain ⟨only, same, tx, here, running, logged, -⟩ := (inv.logs i known).append rooms known fits entry done
  refine ⟨⟨tx, here, running⟩, inv.held.log rooms (only.mono (slotArea_log known)), ?_, ?_⟩
  · exact inv.free.same (by rw [same]) (by rw [same])
  · simp only [TxMap.next, TxMap.edit, TxMap.set, here]
    exact inv.set rooms.toLogLayout only.slotChanged (logged none_made)

theorem LedgerInv.txCommit (rooms : h.Rooms) (inv : LedgerInv h t) {txSlot : Nat}
    (done : pmbTxCommit h t.store txSlot = (s', .ok)) :
    t.map.Allows (.commit (txSlot - 1)) ∧ Represents h s' (t.map.next (.commit (txSlot - 1))) := by
  have layout := rooms.toLogLayout
  obtain ⟨i, known, rfl⟩ := pmbTxCommit_known done
  simp only [Nat.add_sub_cancel]
  obtain ⟨only, header, same⟩ := pmbTxCommit_ok layout known done
  have valid : ¬(i + 1 = 0 ∨ i + 1 > h.txSlotsCount) := by omega
  unfold pmbTxCommit at done
  rw [if_neg valid] at done
  have processing : h.status t.store i = TxStatus.processing.code := by
    by_contra other
    rw [txSlotCommit_eq layout _ known, if_neg other] at done
    cases done
  obtain ⟨-, -, status, size⟩ := txSlotCommit_spec layout t.store known processing
  have checksum := (txSlotCommit_seals (layout.txDirect_eq (Nat.succ_ne_zero i) known) done).2
  rw [done] at status size
  obtain ⟨tx, here⟩ := (inv.logs i known).used (by rw [processing]; decide)
  have log := inv.logs i known
  rw [here] at log
  have running := log.commited.1.mpr processing
  obtain ⟨-, ops, does, records, logged, decoded⟩ := log
  refine ⟨⟨tx, here, running⟩, inv.held.log rooms (only.mono (slotArea_log known)), ?_, ?_⟩
  · exact inv.free.same (by rw [same]) (by rw [same])
  · simp only [TxMap.next, TxMap.edit, TxMap.set, here]
    refine inv.set layout only.slotChanged ⟨⟨status, checksum⟩, ops, does.commit, records,
      ⟨size.trans_le logged.fits, ?_⟩, decoded⟩
    exact logged.records.congr fun x lower _ => header_frame header x lower

theorem newBlockOp_create {blkId id : Nat} (usable : h.Usable id) (small : blkId < 2 ^ 64) :
    (newBlockOp blkId id).Fits h ∧ (newBlockOp blkId id).created = some id ∧
      (newBlockOp blkId id).change = replacement blkId ∧ (newBlockOp blkId id).len = sizeofTxEntry := by
  unfold newBlockOp replacement
  split
  · next update => exact ⟨⟨⟨update, small⟩, usable⟩, rfl, rfl, rfl⟩
  · exact ⟨usable, rfl, rfl, rfl⟩

theorem blockAt_above (layout : h.LogLayout) (id : Nat) : h.blockAt id ⊆ h.blockArea := by
  rintro x ⟨obj, direct, inside⟩
  have above := layout.blocks_above id obj direct
  rw [mem_span] at inside
  change h.logEnd ≤ x
  omega

theorem LedgerInv.create (rooms : h.Rooms) (inv : LedgerInv h t) (known : i < h.txSlotsCount) {id blkId : Nat}
    (usable : h.Usable id) (dead : t.map.objects id = none) (small : blkId < 2 ^ 64) {s logged : Store}
    (pool : s.pool = t.store.pool) (entry : EntryFits h t.store (i + 1) sizeofTxEntry)
    (done : logNewBlock h s (i + 1) blkId id = (logged, .ok)) {p : Pool}
    (changed : ChangedIn (h.blockAt id) logged.pool.mem p.mem) {value : PartialBytes}
    (here : h.Holds p.mem ∅ id (some value)) (free : DeadLists h s (Function.update t.map.objects id (some value))) :
    t.map.Allows (.create i id value (replacement blkId)) ∧
      Represents h { logged with pool := p } (t.map.next (.create i id value (replacement blkId))) := by
  have layout := rooms.toLogLayout
  have log := inv.logs i known
  obtain ⟨fits, created, change, len⟩ := newBlockOp_create usable small
  rw [logNewBlock_op] at done
  have before : TxLogged h s i (t.map.txs i) := log.congr layout fun x _ _ => by rw [pool]
  have fits_entry : EntryFits h s (i + 1) (newBlockOp blkId id).len := by
    rw [len]
    unfold EntryFits Handle.status Handle.size at entry ⊢
    rwa [pool]
  obtain ⟨only, same, tx, open_tx, running, -, made⟩ := before.append rooms known fits fits_entry done
  have filled := changed.mono (Set.subset_union_left (t := h.logArea))
  have slot : SlotChanged h i t.store { logged with pool := p } := by
    unfold SlotOnly at only
    rw [pool] at only
    exact (only.mono Set.subset_union_left).trans (changed.mono fun x inside => Or.inr (blockAt_above layout id inside))
  have held : HoldsBut h logged.pool.mem t.map.objects ∅ := by
    refine inv.held.log rooms (ChangedIn.mono ?_ (slotArea_log known))
    unfold SlotOnly at only
    rwa [pool] at only
  refine ⟨⟨⟨tx, open_tx, running⟩, dead⟩, held.block rooms usable.alone filled here fun _ _ ready => ready, ?_, ?_⟩
  · exact free.same (by rw [same]) (by rw [same])
  · have there : TxLogged h { logged with pool := p } i (some (tx.create id value (replacement blkId))) := by
      rw [← change]
      exact (made id value created).blocks layout known (changed.mono (blockAt_above layout id))
    simp only [TxMap.next, TxMap.edit, TxMap.set, open_tx]
    exact inv.set layout slot there

theorem setZero_dead {s : Store} (blocks : SealedBut h s.pool.mem ∅) {id obj : Nat}
    (direct : backendDirect h.backend id = some obj) :
    ChangedIn (h.blockAt id) s.pool.mem (s.setZero (some obj)).pool.mem ∧
      h.Holds (s.setZero (some obj)).pool.mem ∅ id none := by
  have hdr : sizeofDataHdr = 32 := rfl
  have inside := (blocks.contained id obj direct).zeroed
  have changed := (setZero_changed s obj).mono (span_blockAt direct (le_refl _) (by omega))
  obtain ⟨flch, -⟩ := setZero_header s obj
  refine ⟨changed, fun again found => ?_⟩
  obtain ⟨-, there, live⟩ := backendGet_ok.mp found
  cases direct.symm.trans there
  exact live flch

theorem HoldsBut.null {m : Mem} {objects : Objects} (held : HoldsBut h m objects ∅) : objects 0 = none := by
  cases object : objects 0 with
  | none => rfl
  | some v =>
    obtain ⟨obj, holds, -⟩ := held.value object
    exact absurd rfl (backendGet_ok.mp holds.live).1

theorem HoldsBut.previous (rooms : h.Rooms) {m : Mem} {objects : Objects} (held : HoldsBut h m objects ∅)
    {id blkId oldObj : Nat} (alone : h.Alone id) (data : blkId < h.totalObjsCount) (dead : objects id = none)
    (found : backendGet h m blkId = .ok oldObj) :
    ∃ v, objects blkId = some v ∧ valLen m oldObj = v.len ∧ v.HeldAt m (oldObj + 32 + h.maxKeyLen) ∧
      32 + h.maxKeyLen + v.len ≤ h.backend.bsize ∧
      ∀ m', ChangedIn (h.blockAt id) m m' → ∀ x ∈ span oldObj (32 + h.maxKeyLen + v.len), m' x = m x := by
  have alive : objects blkId ≠ none := by
    intro missing
    have gone := held blkId
    rw [missing] at gone
    exact gone oldObj found
  obtain ⟨v, object⟩ := Option.ne_none_iff_exists'.mp alive
  obtain ⟨obj, holds, length⟩ := held.value object
  have same : obj = oldObj := Option.some.inj (holds.direct.symm.trans (backendGet_ok.mp found).2.1)
  subst same
  have different : blkId ≠ id := fun again => alive (again ▸ dead)
  have start := valueAddr_data (h := h) m obj data
  have size := blockSize_data data
  have room := holds.room
  have value := holds.value
  rw [start] at room value
  rw [size] at room
  refine ⟨v, object, length (Set.notMem_empty _), value, by omega, fun m' changed x inside => ?_⟩
  refine ChangedIn.others_untouched rooms.toLogLayout alone (changed.mono Set.subset_union_left) different x ?_
  rw [blockAt_span holds.direct, mem_span, size]
  rw [mem_span] at inside
  omega

theorem LedgerInv.tputNew (rooms : h.Rooms) (nonzero : ∀ bytes, h.checksum bytes ≠ 0) (inv : LedgerInv h t)
    (known : i < h.txSlotsCount) {kv kv' : PmbPair} {old : Option Nat} (args : TputArgs h (i + 1) kv)
    (large : ¬SmallUpdate h kv) (safe : LedgerSafe h t (.tput (i + 1) kv))
    (found : OldBlock h t.store.pool.mem kv.blkId old) (done : tputNewBlock h t.store (i + 1) kv old = (s', .ok, kv')) :
    t.map.Allows (.create i kv'.blkId (putValue t.map.objects kv) (replacement kv.blkId)) ∧
      Represents h s' (t.map.next (.create i kv'.blkId (putValue t.map.objects kv) (replacement kv.blkId))) := by
  -- the new block has the new bytes over the value of the block that it replaces
  have layout := rooms.toLogLayout
  have data_room := rooms.data_room
  have small := rooms.bsize_small
  have fit := rooms.fit
  obtain ⟨entry, no_wrap, data, block_safe⟩ := safe
  have alone := block_safe large
  have entry_len : tputEntryLen h kv = sizeofTxEntry := if_neg large
  rw [entry_len] at entry
  have value := args.value_fits
  rw [u32_of_lt no_wrap] at value
  obtain ⟨ret, obj, logged, direct, log, rfl, rfl⟩ := tputNewBlock_ok done
  obtain ⟨⟨range, dead⟩, positive, rest⟩ := inv.free.data.pop (by omega) ret
  simp only
  generalize (caslistPop t.store.freeList 0).val = id at *
  have usable : h.Usable id := ⟨positive, by omega, alone⟩
  have popped_only := (logNewBlock_slotOnly layout known (s := { t.store with freeList := (caslistPop t.store.freeList 0).list })
    entry log).1
  have only := ChangedIn.mono popped_only (slotArea_log known)
  have held : HoldsBut h logged.pool.mem t.map.objects ∅ := inv.held.log rooms only
  have area : span obj h.backend.bsize = h.blockAt id := by rw [blockAt_span direct, blockSize_data range.2]
  have previous : ∀ oldObj ∈ old, kv.blkId ≠ 0 ∧ ∃ v, t.map.objects kv.blkId = some v ∧
      valLen logged.pool.mem oldObj = v.len ∧ v.HeldAt logged.pool.mem (oldObj + 32 + h.maxKeyLen) ∧
      32 + h.maxKeyLen + v.len ≤ h.backend.bsize ∧ ∀ m, ChangedIn (span obj h.backend.bsize) logged.pool.mem m →
        ∀ x ∈ span oldObj (32 + h.maxKeyLen + v.len), m x = logged.pool.mem x := by
    intro oldObj member
    rcases found with ⟨-, rfl⟩ | ⟨update, addr, get, rfl⟩
    · cases member
    · cases member
      rw [area]
      have there := (ChangedIn.blocks_untouched layout only kv.blkId).backendGet (rooms.room kv.blkId) |>.mpr get
      exact ⟨update, held.previous rooms alone data dead there⟩
  generalize overlaid_eq : putValue t.map.objects kv = overlaid
  have filled : valLen (tputBlock h logged.pool obj old kv).mem obj = overlaid.len ∧
      overlaid.HeldAt (tputBlock h logged.pool obj old kv).mem (obj + 32 + h.maxKeyLen) := by
    rw [← overlaid_eq, putValue]
    refine tputBlock_value args.key_fits (valBytes_eq args.val) args.no_offset
      (show 32 + h.maxKeyLen + (kv.offset + kv.valLen) ≤ h.backend.bsize by omega) small (fun blank => ?_)
      fun some_bytes oldObj member => ?_
    · rcases blank with none_before | empty
      · rcases found with ⟨zero, -⟩ | ⟨-, addr, -, some_before⟩
        · rw [zero, inv.held.null, Option.getD_none]
          exact ite_self _
        · rw [none_before] at some_before
          cases some_before
      · rw [if_pos empty]
    · obtain ⟨-, v, object, length, holds, room, stable⟩ := previous oldObj member
      rw [if_neg some_bytes, object, Option.getD_some]
      exact ⟨length, holds, stable, fun _ => room⟩
  obtain ⟨changed, contained, sealed⟩ := tputBlock_sealed rooms range.2 alone direct args.key_fits args.no_offset value
    old fun _ oldObj member => by
      obtain ⟨-, v, -, length, -, room, stable⟩ := previous oldObj member
      refine Or.inr ⟨v.len, fun m stores => ?_, fun _ => room⟩
      rw [← length]
      exact word_congr _ _ _ _ fun x lower upper => stable m stores x ⟨by omega, by omega⟩
  have live : backendGet h (tputBlock h logged.pool obj old kv).mem id = .ok obj :=
    backendGet_ok.mpr ⟨positive, direct, tputBlock_flch nonzero _ _ _ _⟩
  have here : h.Holds (tputBlock h logged.pool obj old kv).mem ∅ id (some overlaid) := by
    refine ⟨obj, HoldsValue.of_contained live contained filled.1 ?_, fun _ => filled.1⟩
    rw [valueAddr_data _ _ range.2]
    exact filled.2
  exact inv.create rooms known (s := { t.store with freeList := (caslistPop t.store.freeList 0).list }) usable dead
    (by omega) rfl entry log changed here ⟨rest _, inv.free.metadata.outside (Or.inl range.2) _⟩

theorem LedgerInv.tputMeta (rooms : h.Rooms) (nonzero : ∀ bytes, h.checksum bytes ≠ 0) (inv : LedgerInv h t)
    (known : i < h.txSlotsCount) {kv kv' : PmbPair} (safe : LedgerSafe h t (.tputMeta (i + 1) kv))
    (done : pmbTputMeta h t.store (i + 1) kv = (s', .ok, kv')) :
    t.map.Allows (.create i kv'.blkId (.ofBytes kv.valBytes) (replacement kv.blkId)) ∧
      Represents h s' (t.map.next (.create i kv'.blkId (.ofBytes kv.valBytes) (replacement kv.blkId))) := by
  have layout := rooms.toLogLayout
  have meta_room := rooms.meta_room
  have small := rooms.metaBsize_small
  have fit := rooms.fit
  obtain ⟨entry, no_wrap, alone⟩ := safe
  obtain ⟨args, old, found, new_block⟩ := pmbTputMeta_ok done
  have fits := args.fits
  rw [u32_of_lt no_wrap, u32_of_lt (by omega)] at fits
  have old_known : kv.blkId < 2 ^ 64 := by
    rcases found with ⟨zero, -⟩ | ⟨-, addr, get, -⟩
    · omega
    · have known_old : kv.blkId < h.totalObjsCount + h.metaObjsCount :=
        (backendDirect_known rooms.fit kv.blkId).mp ⟨addr, (backendGet_ok.mp get).2.1⟩
      omega
  obtain ⟨ret, obj, logged, direct, log, rfl, rfl⟩ := tputMetaNewBlock_ok new_block
  obtain ⟨⟨range, dead⟩, positive, rest⟩ := inv.free.metadata.pop fit ret
  simp only
  generalize (caslistPop t.store.metaFreeList 0).val = id at *
  obtain ⟨changed, contained, sealed⟩ := tputMetaBlock_sealed (p := logged.pool) rooms range.1 alone direct fits old
  obtain ⟨key, length, value⟩ := tputMetaBlock_value h logged.pool obj old (valBytes_eq (Or.inr args.val)) no_wrap
  have live : backendGet h (tputMetaBlock h logged.pool obj old kv).mem id = .ok obj :=
    backendGet_ok.mpr ⟨positive, direct, tputMetaBlock_flch nonzero _ _ _ _⟩
  have len : (PartialBytes.ofBytes kv.valBytes).len = kv.valLen := valBytes_eq (Or.inr args.val)
  have here : h.Holds (tputMetaBlock h logged.pool obj old kv).mem ∅ id (some (.ofBytes kv.valBytes)) := by
    refine ⟨obj, HoldsValue.of_contained live contained (length.trans len.symm) ?_, fun _ => length.trans len.symm⟩
    have start : valueAddr h (tputMetaBlock h logged.pool obj old kv).mem id obj = obj + 32 + kv.keyLen := by
      rw [← key]
      exact if_neg (Nat.not_lt.mpr range.1)
    rw [start]
    exact value
  exact inv.create rooms known (s := { t.store with metaFreeList := (caslistPop t.store.metaFreeList 0).list })
    ⟨positive, range.2, alone⟩ dead old_known rfl entry log changed here
    ⟨inv.free.data.outside (Or.inr range.1) _, rest _⟩

theorem LedgerInv.resolveConflict (rooms : h.Rooms) (inv : LedgerInv h t) {blkId1 blkId2 : Nat}
    (data : blkId1 < h.totalObjsCount ∧ blkId2 < h.totalObjsCount)
    (success : resolveStatus h t.store blkId1 blkId2 = .ok) :
    Represents h (pmbResolveConflict h t.store blkId1 blkId2).1 (t.map.next (.alone (.remove
      (if (pmbResolveConflict h t.store blkId1 blkId2).2 = blkId1 then blkId2 else blkId1)))) := by
  have layout := rooms.toLogLayout
  have fit := rooms.fit
  unfold resolveStatus at success
  cases found1 : backendGet h t.store.pool.mem blkId1 with
  | error e =>
    rw [found1] at success
    cases success
  | ok obj1 =>
    cases found2 : backendGet h t.store.pool.mem blkId2 with
    | error e =>
      rw [found1, found2] at success
      cases success
    | ok obj2 =>
      -- one of the two blocks is zeroed and goes to the free list
      have gone : ∀ id obj, backendGet h t.store.pool.mem id = .ok obj → id < h.totalObjsCount →
          Represents h { t.store.setZero (some obj) with freeList := caslistPush t.store.freeList id }
            (t.map.next (.alone (.remove id))) := by
        intro id obj found region
        obtain ⟨positive, direct, live⟩ := backendGet_ok.mp found
        obtain ⟨changed, dead⟩ := setZero_dead inv.blocks direct
        have alone := (inv.blocks.contained id obj direct).alone live
        refine ⟨inv.held.block rooms alone (changed.mono Set.subset_union_left) dead fun _ _ ready => ready,
          ⟨?_, inv.free.metadata.outside (Or.inl region) none⟩, fun j known => ?_⟩
        · refine (inv.free.data.mono fun j inside => ?_).push (fun _ => ⟨by omega, region⟩) (by omega)
            (Function.update_self _ _ _)
          by_cases here : j = id
          · rw [here]
            exact Function.update_self _ _ _
          · exact (Function.update_of_ne here _ _).trans inside.2
        · exact (inv.logs j known).blocks layout known (changed.mono (blockAt_above layout id))
      have result : pmbResolveConflict h t.store blkId1 blkId2 =
          if version t.store.pool.mem obj1 > version t.store.pool.mem obj2 then
            ({ t.store.setZero (some obj1) with freeList := caslistPush t.store.freeList blkId1 }, blkId2)
          else ({ t.store.setZero (some obj2) with freeList := caslistPush t.store.freeList blkId2 }, blkId1) := by
        unfold pmbResolveConflict
        rw [found1, found2]
        simp only
        split <;> rfl
      rw [result]
      split
      · simp only
        split
        · next same =>
          have both : obj1 = obj2 := by
            rw [same, found1] at found2
            exact Except.ok.inj found2
          subst both
          rw [same]
          exact gone blkId1 obj1 found1 data.1
        · exact gone blkId1 obj1 found1 data.1
      · rw [if_pos rfl]
        exact gone blkId2 obj2 found2 data.2

theorem zeroReleases_hold (rooms : h.Rooms) {ids : List Nat} (usable : ∀ id ∈ ids, h.Usable id) {s : Store}
    {objects : Objects} (blocks : SealedBut h s.pool.mem ∅) (held : HoldsBut h s.pool.mem objects ∅)
    (free : DeadLists h s objects) :
    HoldsBut h (ids.foldl (zeroRelease h) s).pool.mem (fun id => if id ∈ ids then none else objects id) ∅ ∧
      DeadLists h (ids.foldl (zeroRelease h) s) fun id => if id ∈ ids then none else objects id := by
  induction ids generalizing s objects with
  | nil => exact ⟨by simpa using held, by simpa using free⟩
  | cons id rest ih =>
    have here := usable id List.mem_cons_self
    obtain ⟨obj, direct⟩ := (backendDirect_known rooms.fit id).mpr here.known
    obtain ⟨changed, dead⟩ := setZero_dead blocks direct
    have pool : (zeroRelease h s id).pool = (s.setZero (some obj)).pool := by rw [zeroRelease_pool, direct]
    have next : HoldsBut h (rest.foldl (zeroRelease h) (zeroRelease h s id)).pool.mem
          (fun other => if other ∈ rest then none else Function.update objects id none other) ∅ ∧
        DeadLists h (rest.foldl (zeroRelease h) (zeroRelease h s id))
          fun other => if other ∈ rest then none else Function.update objects id none other := by
      refine ih (fun other later => usable other (List.mem_cons_of_mem id later)) ?_ ?_ ?_
      · rw [pool]
        exact blocks.setZero rooms here.alone direct
      · rw [pool]
        exact held.block rooms here.alone (changed.mono Set.subset_union_left) dead fun _ _ ready => ready
      · refine DeadLists.release (s := s.setZero (backendDirect h.backend id)) ?_ rooms.toIds
          (Function.update_self _ _ _) here.known
        refine (free.same (by rw [direct]; rfl) (by rw [direct]; rfl)).mono fun other missing => ?_
        by_cases first : other = id
        · rw [first, Function.update_self]
        · rwa [Function.update_of_ne first]
    have same : (fun other => if other ∈ rest then none else Function.update objects id none other) =
        fun other => if other ∈ id :: rest then none else objects other := by
      funext other
      by_cases first : other = id
      · simp [first]
      · simp [first]
    rwa [same] at next

theorem LedgerInv.txAbort (rooms : h.Rooms) (inv : LedgerInv h t) {txSlot : Nat}
    (safe : LedgerSafe h t (.txAbort txSlot)) (done : pmbTxAbort h t.store txSlot = (s', .ok)) :
    t.map.Allows (.abort (txSlot - 1)) ∧ Represents h s' (t.map.next (.abort (txSlot - 1))) := by
  have layout := rooms.toLogLayout
  obtain ⟨i, known, rfl⟩ := pmbTxAbort_known done
  simp only [LedgerSafe, Nat.add_sub_cancel] at safe ⊢
  have result := pmbTxAbort_ok layout known done
  have invalid : ¬(i + 1 = 0 ∨ i + 1 > h.txSlotsCount) := by omega
  unfold pmbTxAbort at done
  rw [if_neg invalid] at done
  simp only [Prod.mk.injEq] at done
  obtain ⟨rfl, success⟩ := done
  obtain ⟨-, -, failed⟩ | ⟨running, -, changed, empty, -⟩ := txSlotAbort_spec layout t.store known
  · rw [failed] at success
    cases success
  have open_slot : h.status t.store i ≠ TxStatus.empty.code := by
    rcases running with processing | commited
    · rw [processing]
      decide
    · rw [commited]
      decide
  have log := inv.logs i known
  obtain ⟨tx, here⟩ := log.used open_slot
  rw [here] at log
  obtain ⟨-, ops, does, -⟩ := log
  have made : ∀ id, id ∈ abortedIds t.store.pool.mem (h.slotAddr i) ↔ (tx.made id).isSome := by
    intro id
    rw [safe.ids, madeBy_eq here, Option.isSome_iff_ne_none]
  have marked := (slotAborted_changed layout t.store i i).mono (slotArea_log known)
  have strides := slotStrides_congr (slotAborted_header h t.store (h.slotAddr i) i)
  have walked := abortLog_ids layout (h.slotAddr i) (slotAborted h t.store (h.slotAddr i) i)
    (by rw [strides]; exact safe.inside)
  have ids : abortedIds (slotAborted h t.store (h.slotAddr i) i).pool.mem (h.slotAddr i) =
      abortedIds t.store.pool.mem (h.slotAddr i) := by rw [abortedIds, strides, abortedIds]
  rw [ids] at walked
  have usable : ∀ id ∈ abortedIds t.store.pool.mem (h.slotAddr i), h.Usable id := fun id member =>
    does.usable (Option.isSome_iff_ne_none.mp ((made id).mp member))
  have free_marked : DeadLists h (slotAborted h t.store (h.slotAddr i) i) t.map.objects := inv.free.same rfl rfl
  obtain ⟨held, free⟩ := zeroReleases_hold rooms usable (inv.blocks.log rooms marked) (inv.held.log rooms marked)
    free_marked
  have objects : (t.map.finish i false).objects =
      fun id => if id ∈ abortedIds t.store.pool.mem (h.slotAddr i) then none else t.map.objects id := by
    funext id
    simp only [TxMap.finish, here, made]
    rfl
  rw [← objects, ← walked] at held free
  have reset := (slotReset_changed layout (abortLog h (slotAborted h t.store (h.slotAddr i) i) (h.slotAddr i)) i i).mono
    (slotArea_log known)
  refine ⟨⟨tx, here⟩, ?_, ?_, ?_⟩
  · rw [result]
    exact held.log rooms reset
  · rw [result]
    exact free.same rfl rfl
  · have txs : (t.map.next (.abort i)).txs = Function.update t.map.txs i none := by
      simp only [TxMap.next, TxMap.finish, here]
    rw [txs]
    refine inv.set layout ?_ ?_
    · exact changed
    · exact empty

theorem LoggedBy.changes {ops : List LogOp} {records : List LogRecord} (does : LoggedBy h tx ops)
    (decoded : records.map LogRecord.op = ops.map some) : records.map LogRecord.change = tx.pending := by
  rw [does.pending]
  exact decoded_map decoded fun r op reads => LogRecord.change_op reads

theorem LoggedBy.in_place {ops : List LogOp} {records : List LogRecord} (does : LoggedBy h tx ops)
    (decoded : records.map LogRecord.op = ops.map some) {r : LogRecord} (member : r ∈ records) (in_place : InPlace r) :
    ((r.entry.blkId1 ≠ 0 ∧ r.entry.blkId1 < h.totalObjsCount) ∧
        32 + h.maxKeyLen + (r.entry.offset + r.payload.length) ≤ h.backend.bsize) ∧
      ∃ f, Change.modify r.entry.blkId1 f ∈ tx.pending := by
  obtain ⟨op, listed, reads⟩ := decoded_mem decoded member
  have fits := does.fits op listed
  have pending : op.change ∈ tx.pending := by
    rw [does.pending]
    exact List.mem_map_of_mem listed
  have shape := LogRecord.reads reads
  have type : r.entry.type = TxOp.updinplace.code := in_place
  cases op with
  | write blkId =>
    have other := type.symm.trans shape.1
    cases other
  | update oldBlkId newBlkId =>
    have other := type.symm.trans shape.1
    cases other
  | smallUpdate blkId data offset =>
    obtain ⟨-, id, payload, start⟩ := shape
    rw [id, payload, start]
    exact ⟨fits, _, pending⟩
  | remove blkId =>
    have other := type.symm.trans shape.1
    cases other

theorem LedgerInv.updatesFit (rooms : h.Rooms) (inv : LedgerInv h t) (known : i < h.txSlotsCount)
    (here : t.map.txs i = some tx) (safe : ExecutesLive t.map i) : UpdatesFit h t.store i := by
  have layout := rooms.toLogLayout
  have below := Handle.slot_below known
  have small := layout.end_lt
  have log := inv.logs i known
  rw [here] at log
  obtain ⟨-, ops, does, records, logged, decoded⟩ := log
  have fits := logged.fits
  unfold Handle.size at fits
  obtain ⟨named, few, alive, members⟩ := safe
  rw [pendingOf_eq here] at alive members
  have listed : ∀ r ∈ slotLog t.store.pool.mem (h.slotAddr i), r.2 = (recordAt t.store.pool.mem r.1).entry ∧
      recordAt t.store.pool.mem r.1 ∈ records := by
    intro r member
    refine ⟨mem_logWalk member, ?_⟩
    rw [← logged.records.walked (by omega)]
    exact List.mem_map_of_mem member
  have updated : ∀ r ∈ slotLog t.store.pool.mem (h.slotAddr i), r.2.type = TxOp.updinplace.code →
      ((r.2.blkId1 ≠ 0 ∧ r.2.blkId1 < h.totalObjsCount) ∧
        32 + h.maxKeyLen + (r.2.offset + r.2.size) ≤ h.backend.bsize) ∧ r.2.blkId1 ∈ named := by
    intro r member type
    obtain ⟨entry, record⟩ := listed r member
    have in_place : InPlace (recordAt t.store.pool.mem r.1) := by
      rw [entry] at type
      exact type
    obtain ⟨⟨ids, room⟩, f, pending⟩ := does.in_place decoded record in_place
    have payload : (recordAt t.store.pool.mem r.1).payload.length = (recordAt t.store.pool.mem r.1).entry.size := by
      have span : (recordAt t.store.pool.mem r.1).entry.span =
          sizeofTxEntry + (recordAt t.store.pool.mem r.1).entry.size := if_pos in_place
      change (Mem.read _ _ ((recordAt t.store.pool.mem r.1).entry.span - sizeofTxEntry)).length = _
      rw [length_read, span, Nat.add_sub_cancel_left]
    rw [payload] at room
    rw [entry]
    exact ⟨⟨ids, room⟩, members _ f pending⟩
  have found : ∀ id ∈ updatedIds t.store.pool.mem (h.slotAddr i), ∃ r ∈ slotLog t.store.pool.mem (h.slotAddr i),
      r.2.type = TxOp.updinplace.code ∧ r.2.blkId1 = id := by
    intro id member
    simp only [updatedIds, List.mem_toFinset, List.mem_map, List.mem_filter, decide_eq_true_eq] at member
    obtain ⟨r, ⟨inside, type⟩, same⟩ := member
    exact ⟨r, inside, type, same⟩
  refine ⟨fun r member => ?_, fun id member => ?_, fun r member type => (updated r member type).1.2, ?_⟩
  · have inside := (logged.records.entries (by omega)).2 r member
    omega
  · obtain ⟨r, inside, type, rfl⟩ := found id member
    obtain ⟨⟨ids, -⟩, one⟩ := updated r inside type
    refine ⟨ids.1, ids.2, ?_⟩
    -- the block holds an object, so its header is not all zeros
    have there : t.map.objects r.2.blkId1 ≠ none := fun missing => alive _ one (applyAll_none missing)
    obtain ⟨v, object⟩ := Option.ne_none_iff_exists'.mp there
    obtain ⟨obj, holds, -⟩ := inv.held.value object
    obtain ⟨-, direct, live⟩ := backendGet_ok.mp holds.live
    exact (inv.blocks.contained _ obj direct).alone live
  · refine (Finset.card_le_card fun id member => ?_).trans few
    obtain ⟨r, inside, type, rfl⟩ := found id member
    exact (updated r inside type).2

theorem executeRecord_free (rooms : h.Rooms) {s : Store} {txId : Nat} {objects : Objects} {r : LogRecord}
    (free : DeadLists h s objects) (dead : Zeroes r.entry → objects r.entry.blkId1 = none)
    (done : executeRecord h txId s r = some s') : DeadLists h s' objects := by
  unfold executeRecord at done
  split at done
  · obtain ⟨data, metadata⟩ := txUpdateBlock_lists done
    exact free.same data metadata
  · unfold executeEntry at done
    split at done
    · next zeroes =>
      split at done
      · cases done
        exact free
      · next obj found =>
        cases done
        have known : r.entry.blkId1 < h.totalObjsCount + h.metaObjsCount :=
          (backendDirect_known rooms.fit _).mp ⟨obj, (backendGet_ok.mp found).2.1⟩
        exact DeadLists.release (s := s.setZero (some obj)) (free.same rfl rfl) rooms.toIds (dead zeroes) known
    · cases done
      exact free

theorem txSlotExecute_free (rooms : h.Rooms) (known : i < h.txSlotsCount) {s : Store} {objects : Objects}
    {records : List LogRecord} (logged : Logged h s i records) (free : DeadLists h s objects)
    (done : txSlotExecute h s (i + 1) = some (s', .ok)) :
    DeadLists h s' (applyAll (records.map LogRecord.change) objects) := by
  have layout := rooms.toLogLayout
  rw [txSlotExecute_records layout known (txSlotExecute_commited layout known done) logged.records logged.fits] at done
  obtain ⟨walked, walk, rest⟩ := Option.bind_eq_some_iff.mp done
  obtain ⟨processed, process, finish⟩ := Option.map_eq_some_iff.mp rest
  cases finish
  have after : DeadLists h walked (applyAll (records.map LogRecord.change) objects) := by
    refine foldlM_induct (fun t => DeadLists h t (applyAll (records.map LogRecord.change) objects)) _ _
      (fun r member u u' before entry => executeRecord_free rooms before (fun zeroes => ?_) entry) s walked
      (free.mono fun id missing => applyAll_none missing) walk
    exact applyAll_removed (List.mem_map.mpr ⟨r, member, if_pos zeroes⟩)
  unfold txSlotMetaUpdProcess at process
  obtain ⟨pool, -, rfl⟩ := Option.map_eq_some_iff.mp process
  exact after.same rfl rfl

theorem LedgerInv.txExecute (rooms : h.Rooms) (nonzero : ∀ bytes, h.checksum bytes ≠ 0) (inv : LedgerInv h t)
    {txSlot : Nat} (safe : LedgerSafe h t (.txExecute txSlot)) (done : pmbTxExecute h t.store txSlot = some (s', .ok)) :
    t.map.Allows (.execute (txSlot - 1)) ∧ Represents h s' (t.map.next (.execute (txSlot - 1))) := by
  have layout := rooms.toLogLayout
  obtain ⟨i, known, rfl⟩ := pmbTxExecute_known done
  have valid : ¬(i + 1 = 0 ∨ i + 1 > h.txSlotsCount) := by omega
  unfold pmbTxExecute at done
  rw [if_neg valid] at done
  simp only [LedgerSafe, Nat.add_sub_cancel] at safe ⊢
  obtain ⟨⟨executed, status⟩, execute, finish⟩ := Option.map_eq_some_iff.mp done
  cases finish
  obtain ⟨-, -, failed⟩ | ⟨commited, -, changed, empty, -⟩ := txSlotExecute_spec layout known execute
  · cases failed
  have log := inv.logs i known
  obtain ⟨tx, here⟩ := log.used (by rw [commited]; decide)
  rw [here] at log
  have ended := log.commited.2.mpr commited
  obtain ⟨-, ops, does, records, logged, decoded⟩ := log
  obtain ⟨named, few, alive, members⟩ := safe
  rw [pendingOf_eq here, ← does.changes decoded] at alive
  rw [pendingOf_eq here] at members
  have region : ∀ id ∈ named.filter (fun id => id < h.totalObjsCount), id < h.totalObjsCount :=
    fun id member => (Finset.mem_filter.mp member).2
  have fits : ∀ r ∈ records, RecordFits h (named.filter fun id => id < h.totalObjsCount) r := by
    intro r member in_place
    obtain ⟨⟨⟨-, data⟩, room⟩, f, pending⟩ := does.in_place decoded member in_place
    exact ⟨Finset.mem_filter.mpr ⟨members _ f pending, data⟩, room⟩
  have held := execute_holds rooms nonzero inv.blocks known (inv.lists i known)
    ((Finset.card_filter_le _ _).trans few) inv.held logged.records logged.fits region fits
    (fun id member => alive id (Finset.mem_filter.mp member).1) execute
  have free := txSlotExecute_free rooms known logged inv.free execute
  rw [does.changes decoded] at held free
  have next : t.map.next (.execute i) =
      ⟨applyAll tx.pending t.map.objects, Function.update t.map.txs i none, t.map.executed ++ [tx]⟩ := by
    simp only [TxMap.next, TxMap.finish, here, if_true]
  rw [next]
  refine ⟨⟨tx, here, ended⟩, held, free.same rfl rfl, inv.set layout ?_ ?_⟩
  · exact changed
  · exact empty

end Succeeded

end PmBackend
