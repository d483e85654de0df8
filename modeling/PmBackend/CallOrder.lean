import PmBackend.AbortUndo
import PmBackend.LogExecution

set_option autoImplicit false

namespace PmBackend

open ByteMemory DeferredLog

def PmbObject.Shows (object : PmbObject) (v : PartialBytes) : Prop :=
  object.valLen = v.len ∧ ∀ i < v.len, ∀ b, v.byte i = some b → (object.val.getD [])[i]? = some b

-- `pmb_get` returns the values of the map, and PMB_ENOENT where it has none
def Means (h : Handle) (m : Mem) (objects : Objects) : Prop :=
  ∀ id, match objects id with
    | none => pmbGet h m id = .error .enoent
    | some v => ∃ object, pmbGet h m id = .ok object ∧ object.Shows v

-- the map after a call that succeeded: `pmb_tput` overlays the value, `pmb_tput_meta` replaces it
def Call.apply (objects : Objects) (ret : Return) : Call → Objects
  | .tput _ kv => Function.update (Function.update objects kv.blkId none) ret.blkId
      (some (((objects kv.blkId).getD .empty).overlay kv.offset kv.valBytes))
  | .tputMeta _ kv => Function.update (Function.update objects kv.blkId none) ret.blkId (some (.ofBytes kv.valBytes))
  | .tdel _ blkId => Function.update objects blkId none
  | _ => objects

-- an update or a delete names the block of an object that is live in the map
def Call.NamesLive (objects : Objects) : Call → Prop
  | .tput _ kv => kv.blkId ≠ 0 → objects kv.blkId ≠ none
  | .tputMeta _ kv => kv.blkId ≠ 0 → objects kv.blkId ≠ none
  | .tdel _ blkId => objects blkId ≠ none
  | _ => True

-- the block that a small update will change when the log is executed
def Call.patches (h : Handle) : Call → Finset Nat
  | .tput _ kv => if kv.blkId ≠ 0 ∧ kv.valLen < h.maxValLen / 2 then {kv.blkId} else ∅
  | _ => ∅

-- an open transaction, with the map after its calls and the blocks its small updates name
structure OrderedTx where
  store : Store
  objects : Objects
  patched : Finset Nat

-- what keeps the execution in step with the calls: above all, a block that a small update names is neither replaced
-- nor deleted later in the transaction
def OrderSafe (h : Handle) (tx : OrderedTx) : Call → Prop
  | .tput txSlot kv =>
    EntryFits h tx.store txSlot (tputEntryLen h kv) ∧ kv.offset + kv.valLen < 2 ^ 32 ∧ kv.blkId < h.totalObjsCount ∧
      (SmallUpdate h kv → (tx.patched ∪ {kv.blkId}).card ≤ 128) ∧
      (¬SmallUpdate h kv → h.Alone (caslistPop tx.store.freeList 0).val ∧
        (kv.blkId ≠ 0 → kv.valLen ≠ 0 ∧ kv.blkId ∉ tx.patched))
  | .tputMeta txSlot kv =>
    EntryFits h tx.store txSlot sizeofTxEntry ∧ kv.keyLen + kv.valLen < 2 ^ 32 ∧
      h.Alone (caslistPop tx.store.metaFreeList 0).val
  | .tdel txSlot blkId => EntryFits h tx.store txSlot sizeofTxEntry ∧ blkId ∉ tx.patched
  | _ => True

def OrderedStep (h : Handle) (txSlot : Nat) (tx tx' : OrderedTx) : Prop :=
  ∃ call ret, call.On txSlot ∧ runCall h tx.store call = some (tx'.store, ret) ∧ ret.status = .ok ∧
    call.NamesLive tx.objects ∧ OrderSafe h tx call ∧ tx'.objects = call.apply tx.objects ret ∧
    tx'.patched = tx.patched ∪ call.patches h

-- the log of slot `i`, applied to the objects in the blocks, gives the map after the calls so far
structure LogMeans (h : Handle) (before : Mem) (i : Nat) (m : Mem) (objects : Objects) (patched taken : Finset Nat)
    (base : Objects) (records : List LogRecord) : Prop where
  fits : slotSize m (h.slotAddr i) ≤ h.backend.txSlotSize
  log : SlotRecords m (h.slotAddr i) records
  blocks : SealedBut h m ∅
  held : HoldsBut h m base ∅
  applied : objects = applyAll (records.map LogRecord.change) base
  known : ∀ id, base id ≠ none → id ∈ taken ∨ h.Live before id
  named : ∀ r ∈ records, ∀ id, r.change.Names id → id ∈ taken ∨ h.Live before id
  in_place : ∀ r ∈ records, RecordFits h patched r
  alive : ∀ id ∈ patched, id < h.totalObjsCount ∧ objects id ≠ none
  few : patched.card ≤ 128

structure OrderedInv (h : Handle) (s : Store) (i : Nat) (tx : OrderedTx) (taken : Finset Nat) (base : Objects)
    (records : List LogRecord) : Prop where
  data : FreeBut h s.pool.mem tx.store.freeList 1 h.totalObjsCount taken
  metadata : FreeBut h s.pool.mem tx.store.metaFreeList h.totalObjsCount (h.totalObjsCount + h.metaObjsCount) taken
  lists : tx.store.updIdList = s.updIdList
  means : LogMeans h s.pool.mem i tx.store.pool.mem tx.objects tx.patched taken base records

section Meanings

variable {h : Handle} {m : Mem} {objects : Objects}

theorem Means.held (means : Means h m objects)
    (contained : ∀ id obj, backendGet h m id = .ok obj → h.Contained m id obj) : HoldsBut h m objects ∅ := by
  intro id
  have here := means id
  cases object : objects id with
  | none =>
    rw [object] at here
    intro obj found
    simp only [pmbGet, found] at here
    cases here
  | some v =>
    rw [object] at here
    obtain ⟨shown, get, length, bytes⟩ := here
    cases found : backendGet h m id with
    | error e =>
      simp only [pmbGet, found] at get
      cases get
    | ok obj =>
      simp only [pmbGet, found, Except.ok.injEq] at get
      subst get
      refine ⟨obj, HoldsValue.of_contained found (contained id obj found) length fun i below b byte => ?_,
        fun _ => length⟩
      have shown := bytes i below b byte
      simp only at length
      rw [if_neg (by omega), Option.getD_some] at shown
      obtain ⟨bound, same⟩ := List.getElem?_eq_some_iff.mp shown
      rwa [getElem_read] at same

theorem HoldsBut.means (held : HoldsBut h m objects ∅) : Means h m objects := by
  intro id
  have here := held id
  cases object : objects id with
  | none =>
    rw [object] at here
    cases found : backendGet h m id with
    | error e => simp only [pmbGet, found]
    | ok obj => exact absurd found (here obj)
  | some v =>
    rw [object] at here
    obtain ⟨obj, holds, length⟩ := here
    have length := length (Set.notMem_empty id)
    unfold pmbGet
    rw [holds.live]
    refine ⟨_, rfl, length, fun i below b byte => ?_⟩
    simp only
    rw [if_neg (by omega), Option.getD_some, List.getElem?_eq_some_iff]
    exact ⟨by rw [length_read]; omega, (getElem_read _ _ _ _ _).trans (holds.value i below b byte)⟩

end Meanings

section Records

variable {h : Handle} {s t : Store} {i : Nat}

theorem logNewBlock_record (h : Handle) (s : Store) (txSlot oldBlkId newBlkId : Nat) :
    ∃ fill, FillsEntry fill sizeofTxEntry ∧
      logNewBlock h s txSlot oldBlkId newBlkId = txSlotAppend h s txSlot fill sizeofTxEntry ∧
      ∀ p pos, ∃ r, recordAt (fill p pos).mem pos = r ∧ ¬InPlace r ∧
        r.change = if oldBlkId ≠ 0 then .remove (oldBlkId % 2 ^ 64) else .keep := by
  unfold logNewBlock
  split
  · refine ⟨_, fillsEntry_update oldBlkId newBlkId, rfl, fun p pos => ?_⟩
    have plain : TxOp.update.code ≠ TxOp.updinplace.code := by decide
    exact ⟨_, record_plain (readEntry_ids p pos .update oldBlkId newBlkId) plain, plain, rfl⟩
  · refine ⟨_, fillsEntry_write newBlkId, rfl, fun p pos => ?_⟩
    have plain : TxOp.write.code ≠ TxOp.updinplace.code := by decide
    exact ⟨_, record_plain (readEntry_id1 p pos .write newBlkId) plain, plain, rfl⟩

end Records

section Steps

variable {h : Handle} {before : Mem} {s t : Store} {i : Nat} {objects base : Objects} {patched taken : Finset Nat}
  {records : List LogRecord}

theorem LogMeans.append (rooms : h.Rooms) (bound : i < h.txSlotsCount)
    (means : LogMeans h before i s.pool.mem objects patched taken base records) {fill : Pool → Nat → Pool} {len : Nat}
    (fills : FillsEntry fill len) (entry : EntryFits h s (i + 1) len) {r : LogRecord}
    (next : recordAt (fill s.pool (h.slotAddr i + h.size s i)).mem (h.slotAddr i + h.size s i) = r)
    (span : r.entry.span = len) (named : ∀ id, r.change.Names id → id ∈ taken ∨ h.Live before id)
    {patched' : Finset Nat} (more : patched ⊆ patched') (in_place : RecordFits h patched' r)
    (alive : ∀ id ∈ patched', id < h.totalObjsCount ∧ r.change.apply objects id ≠ none)
    (few : patched'.card ≤ 128) (done : txSlotAppend h s (i + 1) fill len = (t, .ok)) :
    LogMeans h before i t.pool.mem (r.change.apply objects) patched' taken base (records ++ [r]) ∧
      t = { s with pool := t.pool } := by
  -- one more record: its change comes after the others
  obtain ⟨processing, same⟩ := txSlotAppend_ok rooms.toLogLayout bound done
  have room : h.size s i + len ≤ h.backend.txSlotSize := entry processing
  obtain ⟨-, -, -, size⟩ := txSlotAppend_spec rooms.toLogLayout s bound fills processing means.log.size_ge room
  have log := txSlotAppend_records rooms.toLogLayout bound fills processing room means.log r next span
  have changed := (txSlotAppend_only rooms.toLogLayout bound fills room done).mono (slotArea_log bound)
  rw [done] at size log
  have members : ∀ {P : LogRecord → Prop}, (∀ r ∈ records, P r) → P r → ∀ r' ∈ records ++ [r], P r' := by
    intro P all last r' member
    rcases List.mem_append.mp member with old | new
    · exact all r' old
    · rwa [List.mem_singleton.mp new]
  refine ⟨⟨size.trans_le room, log, means.blocks.log rooms changed, means.held.log rooms changed, ?_, means.known,
    members means.named named, members (fun r' old place => ?_) in_place, alive, few⟩, same⟩
  · rw [List.map_append, List.map_singleton, applyAll_append, ← means.applied]
  · exact ⟨more (means.in_place r' old place).1, (means.in_place r' old place).2⟩

theorem LogMeans.fill (rooms : h.Rooms) (bound : i < h.txSlotsCount) {m m' : Mem}
    (means : LogMeans h before i m objects patched taken base records) {id : Nat} (alone : h.Alone id)
    (new : id ∉ taken) (dead : ¬h.Live before id) (changed : ChangedIn (h.blockAt id) m m')
    (blocks : SealedBut h m' ∅) {v : PartialBytes} (here : h.Holds m' ∅ id (some v)) :
    LogMeans h before i m' (Function.update objects id (some v)) patched (insert id taken)
      (Function.update base id (some v)) records := by
  -- a new block: no record names it, so its value comes through the log
  have unnamed : ∀ change ∈ records.map LogRecord.change, ¬change.Names id := by
    intro change member names
    obtain ⟨r, old, rfl⟩ := List.mem_map.mp member
    exact (means.named r old id names).elim new dead
  have below := Handle.slot_below bound
  have fits := means.fits
  have room := rooms.slot_room
  -- the log lies below the blocks
  have same : ∀ x < h.logEnd, m' x = m x := by
    rintro x lower
    refine changed x ?_
    rintro ⟨obj, direct, inside⟩
    have above := rooms.blocks_above id obj direct
    rw [mem_span] at inside
    omega
  have size : slotSize m' (h.slotAddr i) = slotSize m (h.slotAddr i) :=
    word_congr _ _ _ _ fun x lower upper => same x (by omega)
  refine ⟨by rw [size]; exact fits, means.log.congr fun x _ upper => same x (by omega), blocks,
    means.held.block rooms alone (changed.mono Set.subset_union_left) here fun _ _ ready => ready, ?_, fun j some_there => ?_,
    fun r member j names => ?_, means.in_place, fun j member => ⟨(means.alive j member).1, ?_⟩, means.few⟩
  · rw [means.applied, applyAll_update unnamed]
  · by_cases fresh : j = id
    · exact Or.inl (fresh ▸ Finset.mem_insert_self id taken)
    · rw [Function.update_of_ne fresh] at some_there
      exact (means.known j some_there).imp_left fun old => Finset.mem_insert_of_mem old
  · exact (means.named r member j names).imp_left fun old => Finset.mem_insert_of_mem old
  · by_cases fresh : j = id
    · rw [fresh, Function.update_self]
      exact Option.some_ne_none v
    · rw [Function.update_of_ne fresh]
      exact (means.alive j member).2

theorem LogMeans.live (rooms : h.Rooms) {m : Mem} (means : LogMeans h before i m objects patched taken base records)
    {id : Nat} (object : objects id ≠ none) : (id ≠ 0 ∧ id < 2 ^ 64) ∧ (id ∈ taken ∨ h.Live before id) := by
  have there : base id ≠ none := by
    intro missing
    rw [means.applied] at object
    exact object (applyAll_none missing)
  obtain ⟨v, value⟩ := Option.ne_none_iff_exists'.mp there
  obtain ⟨obj, holds, -⟩ := means.held.value value
  obtain ⟨positive, direct, -⟩ := backendGet_ok.mp holds.live
  have known : id < h.totalObjsCount + h.metaObjsCount := (backendDirect_known rooms.fit id).mp ⟨obj, direct⟩
  have fit := rooms.fit
  exact ⟨⟨positive, by omega⟩, means.known id there⟩

theorem LogMeans.unpatched {m : Mem} (means : LogMeans h before i m objects patched taken base records) {id : Nat}
    (other : id ∉ patched) (object : objects id ≠ none) : base id = objects id := by
  have unnamed : ∀ change ∈ records.map LogRecord.change, ¬change.Names id := by
    intro change member names
    obtain ⟨r, old, rfl⟩ := List.mem_map.mp member
    unfold LogRecord.change at names member
    split at names
    · next zeroes =>
      rw [if_pos zeroes] at member
      have same : r.entry.blkId1 = id := names
      rw [same] at member
      rw [means.applied] at object
      exact object (applyAll_removed member)
    · split at names
      · next in_place =>
        have same : r.entry.blkId1 = id := names
        exact other (same ▸ (means.in_place r old in_place).1)
      · cases names
  rw [means.applied, applyAll_other unnamed]

theorem LogMeans.logNew (rooms : h.Rooms) (bound : i < h.txSlotsCount)
    (means : LogMeans h before i s.pool.mem objects patched taken base records) {oldBlkId newBlkId : Nat}
    (entry : EntryFits h s (i + 1) sizeofTxEntry) (live : oldBlkId ≠ 0 → objects oldBlkId ≠ none)
    (other : oldBlkId ∉ patched) (done : logNewBlock h s (i + 1) oldBlkId newBlkId = (t, .ok)) :
    ∃ records', LogMeans h before i t.pool.mem (Function.update objects oldBlkId none) patched taken base records' ∧
      t = { s with pool := t.pool } := by
  obtain ⟨fill, fills, append, record⟩ := logNewBlock_record h s (i + 1) oldBlkId newBlkId
  rw [append] at done
  obtain ⟨r, next, plain, change⟩ := record s.pool (h.slotAddr i + h.size s i)
  have taken_away : r.change.apply objects = Function.update objects oldBlkId none := by
    rw [change]
    split
    · next update => rw [Change.apply, Nat.mod_eq_of_lt (means.live rooms (live update)).1.2]
    · next write =>
      have null : oldBlkId = 0 := not_not.mp write
      have missing : objects oldBlkId = none := by
        by_contra there
        exact (means.live rooms there).1.1 null
      rw [Change.apply, ← missing, Function.update_eq_self]
  have after := means.append rooms bound fills entry next (if_neg plain) (fun id names => ?_) (le_refl _)
    (fun in_place => absurd in_place plain) (fun id member => ⟨(means.alive id member).1, ?_⟩) means.few done
  · rw [taken_away] at after
    exact ⟨_, after⟩
  · rw [change] at names
    split at names
    · next update =>
      have there := means.live rooms (live update)
      have same : oldBlkId % 2 ^ 64 = id := names
      rw [Nat.mod_eq_of_lt there.1.2] at same
      exact same ▸ there.2
    · cases names
  · rw [taken_away, Function.update_of_ne fun same : id = oldBlkId => other (same ▸ member)]
    exact (means.alive id member).2

end Steps

section Calls

variable {h : Handle} {s t : Store} {i : Nat} {tx : OrderedTx} {taken : Finset Nat} {base : Objects}
  {records : List LogRecord}

theorem OrderedInv.smallUpdate (rooms : h.Rooms) (bound : i < h.txSlotsCount) (inv : OrderedInv h s i tx taken base records)
    {kv : PmbPair} (args : TputArgs h (i + 1) kv) (small : SmallUpdate h kv)
    (names : Call.NamesLive tx.objects (.tput (i + 1) kv)) (safe : OrderSafe h tx (.tput (i + 1) kv))
    (done : txSlotOpSmallUpdate h tx.store (i + 1) kv.blkId kv.valBytes kv.offset = (t, .ok)) :
    ∃ records', OrderedInv h s i ⟨t, Call.apply tx.objects ⟨.ok, i + 1, kv.blkId⟩ (.tput (i + 1) kv),
      tx.patched ∪ {kv.blkId}⟩ taken base records' := by
  have data_room := rooms.data_room
  have bsize := rooms.bsize_small
  have bytes := valBytes_eq args.val
  obtain ⟨entry, no_wrap, data, few, -⟩ := safe
  have entry_len : tputEntryLen h kv = sizeofTxEntry + kv.valBytes.length := if_pos small
  rw [entry_len] at entry
  have value := args.value_fits
  rw [u32_of_lt no_wrap] at value
  obtain ⟨v, object⟩ := Option.ne_none_iff_exists'.mp (names small.1)
  have known := inv.means.live rooms (names small.1)
  have next := recordAt_smallUpdate h tx.store.pool (h.slotAddr i + h.size tx.store i) kv.blkId kv.offset kv.valBytes
    (by omega) (by omega)
  rw [Nat.mod_eq_of_lt known.1.2] at next
  generalize record_eq : (⟨⟨TxOp.updinplace.code, kv.blkId, kv.valBytes.length * 2 ^ 32 + kv.offset⟩, kv.valBytes⟩ :
    LogRecord) = r at next
  have span : r.entry.span = sizeofTxEntry + kv.valBytes.length := by
    rw [← record_eq, TxEntry.span, if_pos rfl, TxEntry.size]
    simp only
    omega
  have offset : r.entry.offset = kv.offset := by
    rw [← record_eq, TxEntry.offset]
    simp only
    omega
  have id : r.entry.blkId1 = kv.blkId := by rw [← record_eq]
  have payload : r.payload = kv.valBytes := by rw [← record_eq]
  have change : r.change = .modify kv.blkId fun v => v.overlay kv.offset kv.valBytes := by
    rw [← offset, ← payload, ← id, ← record_eq]
    rfl
  have applied : r.change.apply tx.objects = Call.apply tx.objects ⟨.ok, i + 1, kv.blkId⟩ (.tput (i + 1) kv) := by
    simp only [change, Change.apply, Call.apply, object, Option.map_some, Option.getD_some, Function.update_idem]
  have logged := inv.means.append rooms bound
    (fillsEntry_smallUpdate h kv.blkId kv.valBytes kv.offset) entry next span
    (fun j named => ?_) Finset.subset_union_left (fun _ => ?_) (fun j member => ?_) (few small) done
  · rw [applied] at logged
    obtain ⟨after, same⟩ := logged
    exact ⟨_, by rw [same]; exact inv.data, by rw [same]; exact inv.metadata, by rw [same]; exact inv.lists, after⟩
  · rw [change] at named
    have here : kv.blkId = j := named
    exact here ▸ known.2
  · rw [id, offset, payload]
    exact ⟨Finset.mem_union_right _ (Finset.mem_singleton_self _), by omega⟩
  · rw [change, Change.apply]
    by_cases here : j = kv.blkId
    · rw [here, Function.update_self, object]
      exact ⟨data, Option.some_ne_none _⟩
    · rw [Function.update_of_ne here]
      exact inv.means.alive j ((Finset.mem_union.mp member).resolve_right fun last => here (Finset.mem_singleton.mp last))

theorem LogMeans.replaced (rooms : h.Rooms) {before m m' : Mem} {objects objects' : Objects} {patched : Finset Nat}
    {records' : List LogRecord} (means : LogMeans h before i m objects patched taken base records)
    (logged : LogMeans h before i m' objects' patched taken base records') {id blkId oldObj : Nat} (alone : h.Alone id)
    (new : id ∉ taken) (dead : ¬h.Live before id) (data : blkId < h.totalObjsCount) (live : objects blkId ≠ none)
    (other : blkId ∉ patched) (found : backendGet h m blkId = .ok oldObj) :
    ∃ v, objects blkId = some v ∧ valLen m' oldObj = v.len ∧ v.HeldAt m' (oldObj + 32 + h.maxKeyLen) ∧
      32 + h.maxKeyLen + v.len ≤ h.backend.bsize ∧
      ∀ m'', ChangedIn (h.blockAt id) m' m'' → ∀ x ∈ span oldObj (32 + h.maxKeyLen + v.len), m'' x = m' x := by
  -- once its entry is logged, the old block still has its value, and stores to the new block leave it alone
  obtain ⟨v, object⟩ := Option.ne_none_iff_exists'.mp live
  have there := means.unpatched other live
  rw [object] at there
  obtain ⟨obj, holds, length⟩ := logged.held.value there
  have same : obj = oldObj := Option.some.inj (holds.direct.symm.trans (backendGet_ok.mp found).2.1)
  subst same
  have different : blkId ≠ id := by
    intro again
    rw [again] at there
    exact (means.known id (by rw [there]; exact Option.some_ne_none v)).elim new dead
  have start := valueAddr_data (h := h) m' obj data
  have size := blockSize_data data
  have room := holds.room
  have value := holds.value
  rw [start] at room value
  rw [size] at room
  refine ⟨v, object, length (Set.notMem_empty _), value, by omega, fun m'' changed x inside => ?_⟩
  refine ChangedIn.others_untouched rooms.toLogLayout alone (changed.mono Set.subset_union_left) different x ?_
  rw [blockAt_span holds.direct, mem_span, size]
  rw [mem_span] at inside
  omega

theorem OrderedInv.newBlock (rooms : h.Rooms) (nonzero : ∀ bytes, h.checksum bytes ≠ 0) (bound : i < h.txSlotsCount)
    (inv : OrderedInv h s i tx taken base records) {kv kv' : PmbPair} {old : Option Nat} (args : TputArgs h (i + 1) kv)
    (large : ¬SmallUpdate h kv) (names : Call.NamesLive tx.objects (.tput (i + 1) kv))
    (safe : OrderSafe h tx (.tput (i + 1) kv)) (found : OldBlock h tx.store.pool.mem kv.blkId old)
    (done : tputNewBlock h tx.store (i + 1) kv old = (t, .ok, kv')) :
    ∃ taken' base' records', OrderedInv h s i ⟨t, Call.apply tx.objects ⟨.ok, i + 1, kv'.blkId⟩ (.tput (i + 1) kv),
      tx.patched⟩ taken' base' records' := by
  -- the new block has the new bytes over the value of the block that it replaces
  have data_room := rooms.data_room
  have small := rooms.bsize_small
  have fit := rooms.fit
  obtain ⟨entry, no_wrap, data, -, block_safe⟩ := safe
  obtain ⟨alone, replaces⟩ := block_safe large
  have entry_len : tputEntryLen h kv = sizeofTxEntry := if_neg large
  rw [entry_len] at entry
  have value := args.value_fits
  rw [u32_of_lt no_wrap] at value
  obtain ⟨ret, obj, logged, direct, log, rfl, rfl⟩ := tputNewBlock_ok done
  obtain ⟨range, dead, new, rest⟩ := inv.data.pop (by omega) ret
  simp only
  generalize (caslistPop tx.store.freeList 0).val = id at *
  have null : kv.blkId = 0 → tx.objects kv.blkId = none := by
    intro zero
    by_contra there
    exact (inv.means.live rooms there).1.1 zero
  have other : kv.blkId ∉ tx.patched := by
    intro member
    by_cases zero : kv.blkId = 0
    · exact (inv.means.alive _ member).2 (null zero)
    · exact (replaces zero).2 member
  have before := inv.means
  obtain ⟨records', means, same⟩ := LogMeans.logNew (s := { tx.store with freeList := (caslistPop tx.store.freeList 0).list })
    rooms bound before entry names other log
  have previous : ∀ oldObj ∈ old, kv.blkId ≠ 0 ∧ ∃ v, tx.objects kv.blkId = some v ∧
      valLen logged.pool.mem oldObj = v.len ∧ v.HeldAt logged.pool.mem (oldObj + 32 + h.maxKeyLen) ∧
      32 + h.maxKeyLen + v.len ≤ h.backend.bsize ∧ ∀ m, ChangedIn (span obj h.backend.bsize) logged.pool.mem m →
        ∀ x ∈ span oldObj (32 + h.maxKeyLen + v.len), m x = logged.pool.mem x := by
    intro oldObj member
    rcases found with ⟨-, rfl⟩ | ⟨update, addr, get, rfl⟩
    · cases member
    · cases member
      have area : span obj h.backend.bsize = h.blockAt id := by rw [blockAt_span direct, blockSize_data range.2]
      rw [area]
      exact ⟨update, before.replaced rooms means alone new dead data (names update) other get⟩
  generalize overlaid_eq : ((tx.objects kv.blkId).getD .empty).overlay kv.offset kv.valBytes = overlaid
  have filled : valLen (tputBlock h logged.pool obj old kv).mem obj = overlaid.len ∧
      overlaid.HeldAt (tputBlock h logged.pool obj old kv).mem (obj + 32 + h.maxKeyLen) := by
    rw [← overlaid_eq]
    refine tputBlock_value args.key_fits (valBytes_eq args.val) args.no_offset
      (show 32 + h.maxKeyLen + (kv.offset + kv.valLen) ≤ h.backend.bsize by omega) small (fun blank => ?_)
      fun _ oldObj member => ?_
    · rcases found with ⟨zero, -⟩ | ⟨update, addr, -, some_before⟩
      · rw [null zero]
        rfl
      · rcases blank with none_before | empty
        · rw [none_before] at some_before
          cases some_before
        · exact absurd empty (replaces update).1
    · obtain ⟨-, v, object, length, holds, room, stable⟩ := previous oldObj member
      rw [object, Option.getD_some]
      exact ⟨length, holds, stable, fun _ => room⟩
  obtain ⟨changed, contained, sealed⟩ := tputBlock_sealed rooms range.2 alone direct args.key_fits args.no_offset value
    old fun _ oldObj member => by
      obtain ⟨-, v, -, length, -, room, stable⟩ := previous oldObj member
      refine Or.inr ⟨v.len, fun m stores => ?_, fun _ => room⟩
      rw [← length]
      exact word_congr _ _ _ _ fun x lower upper => stable m stores x ⟨by omega, by omega⟩
  have live : backendGet h (tputBlock h logged.pool obj old kv).mem id = .ok obj :=
    backendGet_ok.mpr ⟨by omega, direct, tputBlock_flch nonzero _ _ _ _⟩
  have blocks := means.blocks.block rooms alone direct (changed.mono Set.subset_union_left) contained
    (fun _ => sealed) fun _ _ here => here
  have here : h.Holds (tputBlock h logged.pool obj old kv).mem ∅ id (some overlaid) := by
    refine ⟨obj, HoldsValue.of_contained live contained filled.1 ?_, fun _ => filled.1⟩
    rw [valueAddr_data _ _ range.2]
    exact filled.2
  have after := means.fill rooms bound alone new dead changed blocks here
  have free : logged.freeList = (caslistPop tx.store.freeList 0).list := by rw [same]
  have metaFree : logged.metaFreeList = tx.store.metaFreeList := by rw [same]
  have lists : logged.updIdList = tx.store.updIdList := by rw [same]
  refine ⟨insert id taken, Function.update base id (some overlaid), records', ⟨?_, ?_, lists.trans inv.lists, ?_⟩⟩
  · simp only [free]
    exact rest
  · simp only [metaFree]
    exact inv.metadata.other (Or.inl range.2)
  · simp only [Call.apply, overlaid_eq]
    exact after

theorem OrderedInv.tputMeta (rooms : h.Rooms) (nonzero : ∀ bytes, h.checksum bytes ≠ 0) (bound : i < h.txSlotsCount)
    (inv : OrderedInv h s i tx taken base records) {kv kv' : PmbPair}
    (names : Call.NamesLive tx.objects (.tputMeta (i + 1) kv)) (safe : OrderSafe h tx (.tputMeta (i + 1) kv))
    (done : pmbTputMeta h tx.store (i + 1) kv = (t, .ok, kv')) :
    ∃ taken' base' records', OrderedInv h s i ⟨t, Call.apply tx.objects ⟨.ok, i + 1, kv'.blkId⟩ (.tputMeta (i + 1) kv),
      tx.patched⟩ taken' base' records' := by
  have meta_room := rooms.meta_room
  have small := rooms.metaBsize_small
  have fit := rooms.fit
  have null_block := rooms.null_block
  obtain ⟨entry, no_wrap, alone⟩ := safe
  obtain ⟨args, old, -, new_block⟩ := pmbTputMeta_ok done
  have fits := args.fits
  rw [u32_of_lt no_wrap, u32_of_lt (by omega)] at fits
  obtain ⟨ret, obj, logged, direct, log, rfl, rfl⟩ := tputMetaNewBlock_ok new_block
  obtain ⟨range, dead, new, rest⟩ := inv.metadata.pop fit ret
  simp only
  generalize (caslistPop tx.store.metaFreeList 0).val = id at *
  -- small updates name data blocks only
  have other : kv.blkId ∉ tx.patched := by
    intro member
    have named := inv.means.alive _ member
    rcases args.region with zero | metadata
    · exact (inv.means.live rooms named.2).1.1 zero
    · omega
  have before := inv.means
  obtain ⟨records', means, same⟩ := LogMeans.logNew
    (s := { tx.store with metaFreeList := (caslistPop tx.store.metaFreeList 0).list })
    rooms bound before entry names other log
  obtain ⟨changed, contained, sealed⟩ := tputMetaBlock_sealed (p := logged.pool) rooms range.1 alone direct fits old
  obtain ⟨key, length, value⟩ := tputMetaBlock_value h logged.pool obj old (valBytes_eq (Or.inr args.val)) no_wrap
  have live : backendGet h (tputMetaBlock h logged.pool obj old kv).mem id = .ok obj :=
    backendGet_ok.mpr ⟨by omega, direct, tputMetaBlock_flch nonzero _ _ _ _⟩
  have len : (PartialBytes.ofBytes kv.valBytes).len = kv.valLen := valBytes_eq (Or.inr args.val)
  have here : h.Holds (tputMetaBlock h logged.pool obj old kv).mem ∅ id (some (.ofBytes kv.valBytes)) := by
    refine ⟨obj, HoldsValue.of_contained live contained (length.trans len.symm) ?_, fun _ => length.trans len.symm⟩
    have start : valueAddr h (tputMetaBlock h logged.pool obj old kv).mem id obj = obj + 32 + kv.keyLen := by
      rw [← key]
      exact if_neg (Nat.not_lt.mpr range.1)
    rw [start]
    exact value
  have blocks := means.blocks.block rooms alone direct (changed.mono Set.subset_union_left) contained
    (fun _ => sealed) fun _ _ here => here
  have after := means.fill rooms bound alone new dead changed blocks here
  have free : logged.freeList = tx.store.freeList := by rw [same]
  have metaFree : logged.metaFreeList = (caslistPop tx.store.metaFreeList 0).list := by rw [same]
  have lists : logged.updIdList = tx.store.updIdList := by rw [same]
  refine ⟨insert id taken, Function.update base id (some (.ofBytes kv.valBytes)), records',
    ⟨?_, ?_, lists.trans inv.lists, after⟩⟩
  · simp only [free]
    exact inv.data.other (Or.inr range.1)
  · simp only [metaFree]
    exact rest

theorem OrderedInv.tdel (rooms : h.Rooms) (bound : i < h.txSlotsCount) (inv : OrderedInv h s i tx taken base records)
    {blkId : Nat} (object : tx.objects blkId ≠ none) (entry : EntryFits h tx.store (i + 1) sizeofTxEntry)
    (other : blkId ∉ tx.patched) (done : txSlotOpRemove h tx.store (i + 1) blkId = (t, .ok)) :
    ∃ records', OrderedInv h s i ⟨t, Function.update tx.objects blkId none, tx.patched⟩ taken base records' := by
  have there := inv.means.live rooms object
  have plain : TxOp.remove.code ≠ TxOp.updinplace.code := by decide
  have next := record_plain (readEntry_id1 tx.store.pool (h.slotAddr i + h.size tx.store i) .remove blkId) plain
  rw [Nat.mod_eq_of_lt there.1.2] at next
  have logged := inv.means.append rooms bound (fillsEntry_remove blkId) entry next rfl (fun id named => ?_) (le_refl _)
    (fun in_place => absurd in_place plain) (fun id member => ⟨(inv.means.alive id member).1, ?_⟩) inv.means.few done
  · obtain ⟨after, same⟩ := logged
    exact ⟨_, by rw [same]; exact inv.data, by rw [same]; exact inv.metadata, by rw [same]; exact inv.lists, after⟩
  · have here : blkId = id := named
    exact here ▸ there.2
  · change Function.update tx.objects blkId none id ≠ none
    rw [Function.update_of_ne fun same : id = blkId => other (same ▸ member)]
    exact (inv.means.alive id member).2

theorem OrderedInv.step (rooms : h.Rooms) (nonzero : ∀ bytes, h.checksum bytes ≠ 0) (bound : i < h.txSlotsCount)
    (inv : OrderedInv h s i tx taken base records) {tx' : OrderedTx} (step : OrderedStep h (i + 1) tx tx') :
    ∃ taken' base' records', OrderedInv h s i tx' taken' base' records' := by
  obtain ⟨call, ret, on, run, success, names, safe, objects, patched⟩ := step
  obtain ⟨t, _, _⟩ := tx'
  simp only at objects patched run
  subst objects patched
  cases call with
  | tput txSlot kv =>
    have here : txSlot = i + 1 := on
    subst here
    simp only [runCall, Option.some.injEq, Prod.mk.injEq] at run
    generalize done : pmbTput h tx.store (i + 1) kv = out at run
    obtain ⟨t', status, kv'⟩ := out
    obtain ⟨rfl, rfl⟩ := run
    cases success
    obtain ⟨args, ⟨small, append, rfl⟩ | ⟨large, old, found, new⟩⟩ := pmbTput_ok done
    · have named : Call.patches h (.tput (i + 1) kv') = {kv'.blkId} := if_pos small
      obtain ⟨records', after⟩ := inv.smallUpdate rooms bound args small names safe append
      rw [named]
      exact ⟨taken, base, records', after⟩
    · have named : Call.patches h (.tput (i + 1) kv) = ∅ := if_neg large
      rw [named, Finset.union_empty]
      exact inv.newBlock rooms nonzero bound args large names safe found new
  | tputMeta txSlot kv =>
    have here : txSlot = i + 1 := on
    subst here
    simp only [runCall, Option.some.injEq, Prod.mk.injEq] at run
    generalize done : pmbTputMeta h tx.store (i + 1) kv = out at run
    obtain ⟨t', status, kv'⟩ := out
    obtain ⟨rfl, rfl⟩ := run
    cases success
    have named : Call.patches h (.tputMeta (i + 1) kv) = ∅ := rfl
    rw [named, Finset.union_empty]
    exact inv.tputMeta rooms nonzero bound names safe done
  | tdel txSlot blkId =>
    have here : txSlot = i + 1 := on
    subst here
    simp only [runCall, Option.some.injEq, Prod.mk.injEq] at run
    obtain ⟨rfl, rfl⟩ := run
    obtain ⟨-, -, append⟩ := pmbTdel_ok (Prod.ext rfl success)
    have named : Call.patches h (.tdel (i + 1) blkId) = ∅ := rfl
    rw [named, Finset.union_empty]
    obtain ⟨records', after⟩ := inv.tdel rooms bound names safe.1 safe.2 append
    exact ⟨taken, base, records', after⟩
  | _ => cases on

theorem OrderedInv.begun (rooms : h.Rooms) {objects : Objects} (wf : FreeOrLive h s) (blocks : SealedBut h s.pool.mem ∅)
    (means : Means h s.pool.mem objects) (bound : i < h.txSlotsCount) (only : SlotOnly h i s t)
    (size : h.size t i = sizeofTxSlot)
    (same : t = { s with pool := t.pool, txSlotsList := (caslistPop s.txSlotsList 0).list }) :
    OrderedInv h s i ⟨t, objects, ∅⟩ ∅ objects [] := by
  have changed := only.mono (slotArea_log bound)
  have held := means.held fun id obj found => blocks.contained id obj (backendGet_ok.mp found).2.1
  have none_taken : ∀ list low high, FreeList h s.pool.mem list low high →
      FreeBut h s.pool.mem list low high ∅ := by
    rintro list low high ⟨ids, lists, iff⟩
    exact ⟨ids, lists, by simpa using iff⟩
  refine ⟨?_, ?_, by rw [same], ⟨size.trans_le rooms.slot_room, slotRecords_nil size, blocks.log rooms changed,
    held.log rooms changed, rfl, fun id object => ?_, by simp, by simp, by simp, Nat.zero_le _⟩⟩
  · rw [same]
    exact none_taken _ _ _ wf.data
  · rw [same]
    exact none_taken _ _ _ wf.metadata
  · obtain ⟨v, there⟩ := Option.ne_none_iff_exists'.mp object
    obtain ⟨obj, holds, -⟩ := held.value there
    exact Or.inr ⟨obj, holds.direct, (backendGet_ok.mp holds.live).2.2⟩

theorem OrderedInv.run (rooms : h.Rooms) (nonzero : ∀ bytes, h.checksum bytes ≠ 0) (bound : i < h.txSlotsCount)
    {start : OrderedTx} (inv : OrderedInv h s i start taken base records)
    (run : Relation.ReflTransGen (OrderedStep h (i + 1)) start tx) :
    ∃ taken' base' records', OrderedInv h s i tx taken' base' records' := by
  induction run with
  | refl => exact ⟨taken, base, records, inv⟩
  | tail _ step ih =>
    obtain ⟨_, _, _, before⟩ := ih
    exact before.step rooms nonzero bound step

end Calls

-- in a transaction whose calls meet the condition, the execution leaves the map that the calls give in order
theorem transaction_means_calls {h : Handle} (rooms : h.Rooms) (nonzero : ∀ bytes, h.checksum bytes ≠ 0)
    {s begun commited s' : Store} {txSlot : Nat} {objects : Objects} {tx : OrderedTx} (wf : FreeOrLive h s)
    (blocks : SealedBut h s.pool.mem ∅) (clean : ∀ i < h.txSlotsCount, CleanList (s.updIdList i))
    (means : Means h s.pool.mem objects) (begins : pmbTxBegin h s = (begun, .ok, txSlot))
    (run : Relation.ReflTransGen (OrderedStep h txSlot) ⟨begun, objects, ∅⟩ tx)
    (commits : pmbTxCommit h tx.store txSlot = (commited, .ok))
    (executes : pmbTxExecute h commited txSlot = some (s', .ok)) : Means h s'.pool.mem tx.objects := by
  obtain ⟨-, -, i, bound, rfl, only, size, same⟩ := pmbTxBegin_ok rooms.toLogLayout begins
  obtain ⟨taken, base, records, inv⟩ := (OrderedInv.begun rooms wf blocks means bound only size same).run rooms nonzero
    bound run
  have before := inv.means
  obtain ⟨sealed, header, only_pool⟩ := pmbTxCommit_ok rooms.toLogLayout bound commits
  have log := sealed.mono (slotArea_log bound)
  have lists : commited.updIdList = s.updIdList := (congrArg Store.updIdList only_pool).trans inv.lists
  have slot_size : h.size commited i = h.size tx.store i :=
    word_congr _ _ _ _ fun x lower _ => header_frame header x (by omega)
  have valid : ¬(i + 1 = 0 ∨ i + 1 > h.txSlotsCount) := by omega
  unfold pmbTxExecute at executes
  rw [if_neg valid] at executes
  obtain ⟨⟨executed, status⟩, done, finish⟩ := Option.map_eq_some_iff.mp executes
  cases finish
  rw [before.applied]
  have after := execute_holds rooms nonzero (before.blocks.log rooms log) bound (by rw [lists]; exact clean i bound)
    before.few (before.held.log rooms log) (before.log.congr fun x lower _ => header_frame header x lower)
    (slot_size.trans_le before.fits) (fun id member => (before.alive id member).1) before.in_place
    (fun id member => before.applied ▸ (before.alive id member).2) done
  exact after.means

-- a transaction on the flat pool that puts an object into block 1 and updates it in place
def flatOpened : OrderedTx := ⟨begunStore flatHandle, fun _ => none, ∅⟩

def flatPut : OrderedTx :=
  ⟨(pmbTput flatHandle flatOpened.store 1 (onePair 0)).1,
    (Call.tput 1 (onePair 0)).apply flatOpened.objects ⟨.ok, 1, 1⟩, ∅⟩

def flatUpdated : OrderedTx :=
  ⟨(pmbTput flatHandle flatPut.store 1 (onePair 1)).1,
    (Call.tput 1 (onePair 1)).apply flatPut.objects ⟨.ok, 1, 1⟩, {1}⟩

theorem transaction_means_calls_sample :
    ∃ commited s', pmbTxCommit flatHandle flatUpdated.store 1 = (commited, .ok) ∧
      pmbTxExecute flatHandle commited 1 = some (s', .ok) ∧ Means flatHandle s'.pool.mem flatUpdated.objects := by
  have rooms := flatHandle_layout.rooms
  have begins : (pmbTxBegin flatHandle flatStore).2 = (.ok, 1) := by decide +kernel
  have commits : (pmbTxCommit flatHandle flatUpdated.store 1).2 = .ok := by decide +kernel
  have executed : (pmbTxExecute flatHandle (pmbTxCommit flatHandle flatUpdated.store 1).1 1).map Prod.snd = some .ok := by
    decide +kernel
  obtain ⟨⟨s', status⟩, executes, ok⟩ := Option.map_eq_some_iff.mp executed
  subst ok
  have alone : ∀ id, flatHandle.Alone id := fun id j other => flatHandle_layout.blocks_apart j id other
  have puts : OrderedStep flatHandle 1 flatOpened flatPut := by
    refine ⟨.tput 1 (onePair 0), ⟨.ok, 1, 1⟩, rfl, ?_, rfl, fun update => absurd rfl update,
      ⟨fun _ => by decide +kernel, by decide, by decide, fun small => absurd rfl small.1,
        fun _ => ⟨alone _, fun update => absurd rfl update⟩⟩, rfl, rfl⟩
    have done : (pmbTput flatHandle flatOpened.store 1 (onePair 0)).2.1 = .ok ∧
        (pmbTput flatHandle flatOpened.store 1 (onePair 0)).2.2.blkId = 1 := by decide +kernel
    simp only [runCall, done.1, done.2]
    rfl
  have updates : OrderedStep flatHandle 1 flatPut flatUpdated := by
    have small : SmallUpdate flatHandle (onePair 1) := ⟨by decide, by decide⟩
    refine ⟨.tput 1 (onePair 1), ⟨.ok, 1, 1⟩, rfl, ?_, rfl, fun _ => ?_, ⟨fun _ => by decide +kernel, by decide, by decide,
      fun _ => by decide, fun large => absurd small large⟩, rfl, rfl⟩
    · have done : (pmbTput flatHandle flatPut.store 1 (onePair 1)).2.1 = .ok ∧
          (pmbTput flatHandle flatPut.store 1 (onePair 1)).2.2.blkId = 1 := by decide +kernel
      simp only [runCall, done.1, done.2]
      rfl
    · exact Option.some_ne_none _
  have zero : ∀ addr width, flatStore.pool.mem.word addr width = 0 := fun addr width =>
    word_of_zeros _ addr width fun _ _ _ => rfl
  have blocks : SealedBut flatHandle flatStore.pool.mem ∅ :=
    ⟨fun id obj _ => (contained_of_zeros rooms id (zero _ _) (zero _ _) (zero _ _)).1,
      fun id obj _ _ => (contained_of_zeros rooms id (zero _ _) (zero _ _) (zero _ _)).2⟩
  have nothing : Means flatHandle flatStore.pool.mem flatOpened.objects := by
    refine fun id => pmbGet_dead ?_
    rintro ⟨_, _, live⟩
    exact live (zero _ _)
  exact ⟨_, s', Prod.ext rfl commits, executes, transaction_means_calls rooms flatHandle_nonzero flatStore_freeOrLive blocks
    (fun _ _ => ⟨rfl, fun _ _ => rfl⟩) nothing (Prod.ext rfl begins) ((Relation.ReflTransGen.single puts).tail updates)
    (Prod.ext rfl commits) executes⟩

def shownObjects (h : Handle) (m : Mem) : Objects := fun id =>
  match pmbGet h m id with
  | .error _ => none
  | .ok object => some (.ofBytes (object.val.getD []))

theorem means_shown (h : Handle) (m : Mem) : Means h m (shownObjects h m) := by
  intro id
  unfold shownObjects pmbGet
  cases backendGet h m id with
  | error e => rfl
  | ok obj =>
    refine ⟨_, rfl, ?_, fun i _ b byte => byte⟩
    simp only [PartialBytes.ofBytes]
    split
    · next empty => rw [empty]; rfl
    · rw [Option.getD_some, length_read]

-- the transaction updates the object in place and deletes it. Rewriting its header makes the block live again
theorem deleted_update_shown :
    ∃ s rets s' rets' objects,
      runCalls flatHandle flatStore [.txBegin, .tput 1 (onePair 0), .txCommit 1, .txExecute 1] = some (s, rets) ∧
      runCalls flatHandle s [.txBegin, .tput 1 (onePair 1), .tdel 1 1, .txCommit 1, .txExecute 1] = some (s', rets') ∧
      (∀ ret ∈ rets ++ rets', ret.status = .ok) ∧ Means flatHandle s.pool.mem objects ∧
      (Call.tput 1 (onePair 1)).NamesLive objects ∧
      (Call.tdel 1 1).NamesLive ((Call.tput 1 (onePair 1)).apply objects ⟨.ok, 1, 1⟩) ∧
      ¬Means flatHandle s'.pool.mem
        ((Call.tdel 1 1).apply ((Call.tput 1 (onePair 1)).apply objects ⟨.ok, 1, 1⟩) ⟨.ok, 1, 1⟩) := by
  have ran : (runCalls flatHandle flatStore [.txBegin, .tput 1 (onePair 0), .txCommit 1, .txExecute 1]).bind
      (fun first => (runCalls flatHandle first.1 [.txBegin, .tput 1 (onePair 1), .tdel 1 1, .txCommit 1, .txExecute 1]).map
        fun second => ((first.2 ++ second.2).map Return.status, flch64 first.1.pool.mem blockOne != 0,
          flch64 second.1.pool.mem blockOne != 0)) =
      some ([.ok, .ok, .ok, .ok, .ok, .ok, .ok, .ok, .ok], true, true) := by decide +kernel
  obtain ⟨⟨s, rets⟩, first, later⟩ := Option.bind_eq_some_iff.mp ran
  obtain ⟨⟨s', rets'⟩, second, values⟩ := Option.map_eq_some_iff.mp later
  simp only [Prod.mk.injEq, bne_iff_ne] at values
  obtain ⟨statuses, live, live'⟩ := values
  have direct : backendDirect flatHandle.backend 1 = some blockOne := by decide +kernel
  have found : backendGet flatHandle s.pool.mem 1 = .ok blockOne := backendGet_ok.mpr ⟨by decide, direct, live⟩
  have found' : backendGet flatHandle s'.pool.mem 1 = .ok blockOne := backendGet_ok.mpr ⟨by decide, direct, live'⟩
  refine ⟨s, rets, s', rets', shownObjects flatHandle s.pool.mem, first, second, fun ret member => ?_, means_shown _ _,
    fun _ => ?_, Option.some_ne_none _, fun means => ?_⟩
  · have status := List.mem_map_of_mem (f := Return.status) member
    rw [statuses] at status
    simpa using status
  · change shownObjects flatHandle s.pool.mem 1 ≠ none
    unfold shownObjects pmbGet
    rw [found]
    exact Option.some_ne_none _
  · have gone : pmbGet flatHandle s'.pool.mem 1 = .error .enoent := means 1
    unfold pmbGet at gone
    rw [found'] at gone
    cases gone

end PmBackend
