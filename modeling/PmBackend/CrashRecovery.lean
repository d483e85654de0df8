import PmBackend.LedgerRuns
import PmBackend.RecoveryRestarts

set_option autoImplicit false

namespace PmBackend

open ByteMemory DeferredLog Interleaving

-- `tx_slot_abort` and `tx_log_check` step over entries only, not over the bytes behind them
def NoPayload (m : Mem) (slot : Nat) : Prop := ∀ r ∈ slotLog m slot, r.2.type = TxOp.updinplace.code → r.2.size = 0

-- the transactions that `tx_log_check` executes, by the index of their slots
def replayStands (h : Handle) (m : Mem) (i : Nat) : Bool := slotAccepted h m (h.slotAddr i)

-- all slots but the first
def replaySlots (h : Handle) : List Nat := List.range' 1 (h.txSlotsCount - 1)

-- recovery executes the transactions whose commits it accepts, undoes the others, and passes over that of the first
-- slot
def recoveredMap (h : Handle) (m : Mem) (map : TxMap Nat PartialBytes) : TxMap Nat PartialBytes :=
  map.settle (replayStands h m) (replaySlots h)

-- an entry of the log is that of the operation
def TxEntry.ReadsAs (entry : TxEntry) (op : LogOp) : Prop := ∃ r : LogRecord, r.entry = entry ∧ r.op = some op

structure ListsOps (h : Handle) (m : Mem) (slot : Nat) (ops : List LogOp) : Prop where
  inside : ∀ r ∈ slotLog m slot, r.1 + 24 ≤ h.logEnd
  entries : ∀ r ∈ slotLog m slot, ∃ op ∈ ops, r.2.ReadsAs op
  ops : ∀ op ∈ ops, ∃ r ∈ slotLog m slot, r.2.ReadsAs op

-- a slot that replay looks at, with the operations of its transaction
def SlotHolds (h : Handle) (s : Store) (i : Nat) : Option (Tx Nat PartialBytes) → Prop
  | none => h.status s i = TxStatus.empty.code
  | some tx => h.status s i ≠ TxStatus.empty.code ∧ (∃ status : TxStatus, h.status s i = status.code) ∧
      ∃ ops, LoggedBy h tx ops ∧ ListsOps h s.pool.mem (h.slotAddr i) ops

-- what keeps replay of a slot within the blocks that its transaction names
structure ReplaySafe (h : Handle) (s : Store) (map : TxMap Nat PartialBytes) (i : Nat) : Prop where
  steps : NoPayload s.pool.mem (h.slotAddr i)
  plain : replayStands h s.pool.mem i = true → ∀ id f, Change.modify id f ∉ map.pendingOf i
  alone : replayStands h s.pool.mem i = true → ∀ id, Change.remove id ∈ map.pendingOf i → h.Alone id
  room : h.status s i = TxStatus.commited.code → sizeofTxSlot + h.size s i ≤ h.backend.txSlotSize

-- recovery zeroes the block
def Dropped (h : Handle) (m : Mem) (map : TxMap Nat PartialBytes) (id : Nat) : Prop :=
  ∃ i ∈ replaySlots h, map.Drops (replayStands h m i) i id

-- what recovery zeroes of a block are bytes of this block
def Handle.LengthsFit (h : Handle) (m : Mem) (id obj : Nat) : Prop :=
  (id < h.totalObjsCount → keyLen m obj ≤ h.maxKeyLen) ∧ h.objectLen m id obj ≤ h.backend.blockSize id

-- a store that a process has left, with open transactions in its slots. A block that recovery zeroes may be
-- unfinished
structure CrashImage (h : Handle) (s : Store) (map : TxMap Nat PartialBytes) : Prop where
  logs : ∀ i ∈ replaySlots h, SlotHolds h s i (map.txs i)
  safe : ∀ i ∈ replaySlots h, map.txs i ≠ none → ReplaySafe h s map i
  bounds : ∀ id obj, backendDirect h.backend id = some obj → h.LengthsFit s.pool.mem id obj
  shown : ∀ id, ¬Dropped h s.pool.mem map id → h.Holds s.pool.mem ∅ id (map.objects id)
  sealed : ∀ id obj, ¬Dropped h s.pool.mem map id → backendDirect h.backend id = some obj →
    h.Contained s.pool.mem id obj ∧ h.Sealed s.pool.mem id obj

section Entries

variable {h : Handle} {s : Store} {i : Nat} {map : TxMap Nat PartialBytes} {tx : Tx Nat PartialBytes} {op : LogOp}
  {r : LogRecord} {ops : List LogOp} {records : List LogRecord}

theorem mem_replaySlots (layout : h.LogLayout) : i ∈ replaySlots h ↔ 1 ≤ i ∧ i < h.txSlotsCount := by
  have some_slot := layout.some_slot
  rw [replaySlots, List.mem_range'_1]
  omega

theorem strideWalk_spans (m : Mem) (stop fuel pos : Nat)
    (spans : ∀ r ∈ logWalk m stop fuel pos, r.2.span = sizeofTxEntry) :
    strideWalk m stop fuel pos = logWalk m stop fuel pos := by
  induction fuel generalizing pos with
  | zero => rfl
  | succ fuel ih =>
    unfold strideWalk
    unfold logWalk at spans ⊢
    by_cases more : pos < stop
    · rw [if_pos more] at spans ⊢
      rw [if_pos more]
      have span : (readEntry m pos).span = sizeofTxEntry := spans _ List.mem_cons_self
      rw [span] at spans ⊢
      rw [ih _ fun r member => spans r (List.mem_cons_of_mem _ member)]
    · rw [if_neg more, if_neg more]

theorem NoPayload.strides {m : Mem} {slot : Nat} (steps : NoPayload m slot) : slotStrides m slot = slotLog m slot := by
  refine strideWalk_spans _ _ _ _ fun r member => ?_
  unfold TxEntry.span
  split
  · next in_place => rw [steps r member in_place]
  · rfl

theorem entry_goes (decoded : r.op = some op) (fits : op.Fits h) : r.entry.halts = false := by
  have reads := LogRecord.reads decoded
  have first : r.entry.blkId1 ≠ 0 := by
    cases op with
    | write blkId =>
      rw [reads.2]
      exact fits.positive
    | update oldBlkId newBlkId =>
      rw [reads.2.1]
      exact fits.1.1
    | smallUpdate blkId data offset =>
      rw [reads.2.1]
      exact fits.1.1
    | remove blkId =>
      rw [reads.2]
      exact fits.1
  by_contra halts
  exact first ((halts_iff _).mp (by simpa using halts)).1

theorem entry_target (decoded : r.op = some op) (fits : op.Fits h) (stands : Bool)
    (plain : stands = true → ∀ id f, op.change ≠ .modify id f) (id : Nat) :
    id ∈ r.entry.target stands ↔ if stands then op.change = .remove id else op.created = some id := by
  have goes := entry_goes decoded fits
  have reads := LogRecord.reads decoded
  unfold TxEntry.target
  rw [goes]
  cases op with
  | write blkId =>
    rw [reads.1, reads.2]
    cases stands <;> simp [LogOp.change, LogOp.created, TxOp.code]
  | update oldBlkId newBlkId =>
    rw [reads.1, reads.2.1, reads.2.2]
    cases stands <;> simp [LogOp.change, LogOp.created, TxOp.code]
  | smallUpdate blkId data offset =>
    rw [reads.1]
    cases stands with
    | true => exact absurd rfl (plain rfl blkId _)
    | false => simp [LogOp.created, TxOp.code]
  | remove blkId =>
    rw [reads.1, reads.2]
    cases stands <;> simp [LogOp.change, LogOp.created, TxOp.code]

theorem Logged.lists (layout : h.LogLayout) (known : i < h.txSlotsCount) (logged : Logged h s i records)
    (decoded : records.map LogRecord.op = ops.map some) : ListsOps h s.pool.mem (h.slotAddr i) ops := by
  have below := Handle.slot_below known
  have small := layout.end_lt
  have fits := logged.fits
  unfold Handle.size at fits
  obtain ⟨entries, inside⟩ := logged.records.entries (by omega)
  refine ⟨fun r member => (inside r member).trans (by omega), fun r member => ?_, fun op member => ?_⟩
  · have listed : r.2 ∈ slotEntries s.pool.mem (h.slotAddr i) := List.mem_map_of_mem (f := Prod.snd) member
    rw [entries] at listed
    obtain ⟨record, inside_records, same⟩ := List.mem_map.mp listed
    obtain ⟨op, listed_op, reads⟩ := decoded_mem decoded inside_records
    exact ⟨op, listed_op, record, same, reads⟩
  · have listed : some op ∈ ops.map some := List.mem_map_of_mem member
    rw [← decoded] at listed
    obtain ⟨record, inside_records, reads⟩ := List.mem_map.mp listed
    have entry : record.entry ∈ slotEntries s.pool.mem (h.slotAddr i) := by
      rw [entries]
      exact List.mem_map_of_mem inside_records
    obtain ⟨r, inside_log, same⟩ := List.mem_map.mp entry
    exact ⟨r, inside_log, record, same.symm, reads⟩

theorem LoggedBy.drops (does : LoggedBy h tx ops) (here : map.txs i = some tx) (stands : Bool) (id : Nat) :
    map.Drops stands i id ↔ ∃ op ∈ ops, if stands then op.change = .remove id else op.created = some id := by
  unfold TxMap.Drops
  rw [here]
  cases stands with
  | true => simp [does.pending]
  | false => simp [does.made]

end Entries

section Images

variable {h : Handle} {s : Store} {i : Nat} {map : TxMap Nat PartialBytes} {id obj : Nat}

theorem inUse_iff (layout : h.LogLayout) :
    h.InUse s.pool.mem i ↔ i ∈ replaySlots h ∧ h.status s i ≠ TxStatus.empty.code := by
  rw [mem_replaySlots layout]
  exact and_assoc.symm

theorem CrashImage.inUse (layout : h.LogLayout) (image : CrashImage h s map) (use : h.InUse s.pool.mem i) :
    i ∈ replaySlots h ∧ ∃ tx, map.txs i = some tx ∧ SlotHolds h s i (some tx) ∧ ReplaySafe h s map i := by
  obtain ⟨member, used⟩ := (inUse_iff layout).mp use
  have log := image.logs i member
  cases here : map.txs i with
  | none =>
    rw [here] at log
    exact absurd log used
  | some tx =>
    rw [here] at log
    exact ⟨member, tx, rfl, log, image.safe i member (by rw [here]; exact Option.some_ne_none tx)⟩

theorem CrashImage.zeroed (layout : h.LogLayout) (image : CrashImage h s map) (use : h.InUse s.pool.mem i) :
    obj ∈ zeroedBlocks h s.pool.mem i ↔
      ∃ id, map.Drops (replayStands h s.pool.mem i) i id ∧ backendDirect h.backend id = some obj := by
  obtain ⟨member, tx, here, holds, safe⟩ := image.inUse layout use
  obtain ⟨-, -, ops, does, lists⟩ := holds
  have plain : ∀ op ∈ ops, replayStands h s.pool.mem i = true → ∀ id f, op.change ≠ .modify id f := by
    intro op inside standing id f same
    refine safe.plain standing id f ?_
    rw [pendingOf_eq here, does.pending, ← same]
    exact List.mem_map_of_mem inside
  -- no entry stops replay
  have all : replayed s.pool.mem (h.slotAddr i) = slotLog s.pool.mem (h.slotAddr i) := by
    rw [replayed, safe.steps.strides, List.takeWhile_eq_self_iff]
    intro r inside
    obtain ⟨op, inside_ops, record, same, reads⟩ := lists.entries r inside
    rw [← same, entry_goes reads (does.fits op inside_ops)]
    rfl
  have zeroes : obj ∈ zeroedBlocks h s.pool.mem i ↔ ∃ r ∈ replayed s.pool.mem (h.slotAddr i),
      ∃ id ∈ r.2.target (replayStands h s.pool.mem i), backendDirect h.backend id = some obj := Iff.rfl
  rw [zeroes, all]
  generalize replayStands h s.pool.mem i = stands at plain
  constructor
  · rintro ⟨r, inside, id, target, direct⟩
    obtain ⟨op, inside_ops, record, same, reads⟩ := lists.entries r inside
    rw [← same] at target
    refine ⟨id, (does.drops here stands id).mpr ⟨op, inside_ops, ?_⟩, direct⟩
    exact (entry_target reads (does.fits op inside_ops) stands (plain op inside_ops) id).mp target
  · rintro ⟨id, drops, direct⟩
    obtain ⟨op, inside_ops, named⟩ := (does.drops here stands id).mp drops
    obtain ⟨r, inside, record, same, reads⟩ := lists.ops op inside_ops
    refine ⟨r, inside, id, ?_, direct⟩
    rw [← same]
    exact (entry_target reads (does.fits op inside_ops) stands (plain op inside_ops) id).mpr named

theorem CrashImage.alone (layout : h.LogLayout) (image : CrashImage h s map) (use : h.InUse s.pool.mem i)
    (drops : map.Drops (replayStands h s.pool.mem i) i id) : h.Alone id := by
  obtain ⟨-, tx, here, holds, safe⟩ := image.inUse layout use
  obtain ⟨-, -, ops, does, -⟩ := holds
  cases standing : replayStands h s.pool.mem i with
  | true =>
    rw [standing, drops_pending] at drops
    exact safe.alone standing id drops
  | false =>
    rw [standing, drops_made, madeBy_eq here] at drops
    exact (does.usable drops).alone

theorem CrashImage.extent (image : CrashImage h s map) (direct : backendDirect h.backend id = some obj) :
    sizeofDataHdr + keyLen s.pool.mem obj + valLen s.pool.mem obj ≤ h.backend.blockSize id := by
  obtain ⟨key_fits, fits⟩ := image.bounds id obj direct
  unfold Handle.objectLen at fits
  split at fits
  · next data =>
    have key := key_fits data
    omega
  · exact fits

theorem CrashImage.replayable (rooms : h.Rooms) (image : CrashImage h s map) : Replayable h s.pool.mem := by
  have layout := rooms.toLogLayout
  refine ⟨fun i use => ?_, fun i use r member => ?_, fun i use r member in_place => ?_,
    fun x reached j use commited slot => ?_⟩
  · obtain ⟨-, tx, -, ⟨-, code, -⟩, -⟩ := image.inUse layout use
    exact code
  · obtain ⟨-, tx, -, ⟨-, -, ops, -, lists⟩, safe⟩ := image.inUse layout use
    rw [safe.steps.strides] at member
    exact lists.inside r member
  · obtain ⟨-, tx, here, ⟨-, -, ops, does, lists⟩, safe⟩ := image.inUse layout use
    rw [safe.steps.strides] at member
    obtain ⟨op, inside_ops, record, same, reads⟩ := lists.entries r member
    rw [← same] at in_place
    by_contra standing
    have pending : op.change ∈ map.pendingOf i := by
      rw [pendingOf_eq here, does.pending]
      exact List.mem_map_of_mem inside_ops
    have shape := LogRecord.reads reads
    cases op with
    | smallUpdate blkId data offset => exact safe.plain (by simpa [replayStands] using standing) _ _ pending
    | _ =>
      have type := in_place.symm.trans shape.1
      cases type
  · obtain ⟨i, -, obj, target, extent⟩ := reached
    have above := zeroedBlocks_above layout target
    obtain ⟨inside, tx, here, -, safe⟩ := image.inUse layout use
    have room := safe.room commited
    have below := Handle.slot_below ((mem_replaySlots layout).mp inside).2
    simp only [zeroExtent, mem_span] at extent slot
    unfold Handle.size at room
    omega

theorem CrashImage.apart (layout : h.LogLayout) (image : CrashImage h s map) (use : h.InUse s.pool.mem i)
    (target : obj ∈ zeroedBlocks h s.pool.mem i) {id obj' : Nat} (direct : backendDirect h.backend id = some obj')
    (other : obj' ≠ obj) : Disjoint (zeroExtent s.pool.mem obj) (span obj' (h.backend.blockSize id)) := by
  obtain ⟨dropped, drops, there⟩ := (image.zeroed layout use).mp target
  have alone := image.alone layout use drops
  have extent := image.extent there
  have different : id ≠ dropped := by
    rintro rfl
    exact other (Option.some.inj (direct.symm.trans there))
  exact (alone id different obj' obj direct there).symm.mono_left (span_subset (by omega) (by omega))

theorem CrashImage.done_iff (rooms : h.Rooms) (image : CrashImage h s map)
    (direct : backendDirect h.backend id = some obj) :
    obj ∈ doneBlocks h s.pool.mem h.txSlotsCount ↔ Dropped h s.pool.mem map id := by
  have layout := rooms.toLogLayout
  constructor
  · rintro ⟨i, -, use, target⟩
    obtain ⟨dropped, drops, there⟩ := (image.zeroed layout use).mp target
    have alone := image.alone layout use drops
    -- two blocks at one address would share their bytes
    have same : id = dropped := by
      by_contra different
      have apart := alone id different obj obj direct there
      have room := rooms.room id
      have room' := rooms.room dropped
      exact Set.disjoint_left.mp apart (by rw [mem_span]; omega : obj ∈ _) (by rw [mem_span]; omega)
    exact ⟨i, ((inUse_iff layout).mp use).1, same ▸ drops⟩
  · rintro ⟨i, member, drops⟩
    have log := image.logs i member
    have opened := drops
    obtain ⟨tx, here, -⟩ := opened
    rw [here] at log
    have use : h.InUse s.pool.mem i := (inUse_iff layout).mpr ⟨member, log.1⟩
    exact ⟨i, ((mem_replaySlots layout).mp member).2, use, (image.zeroed layout use).mpr ⟨_, drops, direct⟩⟩

theorem CrashImage.settles (rooms : h.Rooms) (image : CrashImage h s map) {m : Mem}
    (under : Underway h s.pool.mem h.txSlotsCount (doneBlocks h s.pool.mem h.txSlotsCount) m) :
    SealedBut h m ∅ ∧ HoldsBut h m (recoveredMap h s.pool.mem map).objects ∅ := by
  have layout := rooms.toLogLayout
  have apart : ∀ i, h.InUse s.pool.mem i → ∀ obj ∈ zeroedBlocks h s.pool.mem i, ∀ id obj',
      backendDirect h.backend id = some obj' → obj' ≠ obj →
      Disjoint (zeroExtent s.pool.mem obj) (span obj' (h.backend.blockSize id)) :=
    fun _ use _ target _ _ direct other => image.apart layout use target direct other
  have kept : ∀ id, ¬Dropped h s.pool.mem map id → (recoveredMap h s.pool.mem map).objects id = map.objects id := by
    intro id spared
    refine settle_kept (fun i member drops => spared ⟨i, member, drops⟩) fun i member standing f listed => ?_
    refine (image.safe i member fun free => ?_).plain standing id f listed
    simp [TxMap.pendingOf, free] at listed
  have dropped : ∀ id, Dropped h s.pool.mem map id → (recoveredMap h s.pool.mem map).objects id = none := by
    rintro id ⟨i, member, drops⟩
    exact settle_dropped member drops
  have untouched : ∀ id, ¬Dropped h s.pool.mem map id → Untouched h id s.pool.mem m := by
    rintro id spared x ⟨obj, direct, inside⟩
    rcases under.block layout apart direct with ⟨dead, -⟩ | ⟨-, same⟩
    · exact absurd ((image.done_iff rooms direct).mp dead) spared
    · exact same x inside
  have zeroed : ∀ id obj, Dropped h s.pool.mem map id → backendDirect h.backend id = some obj → flch64 m obj = 0 := by
    intro id obj drops direct
    rcases under.block layout apart direct with ⟨-, zero⟩ | ⟨alive, -⟩
    · exact zero
    · exact absurd ((image.done_iff rooms direct).mpr drops) alive
  refine ⟨⟨fun id obj direct => ?_, fun id obj direct _ => ?_⟩, fun id => ?_⟩
  · by_cases drops : Dropped h s.pool.mem map id
    · have above := layout.blocks_above id obj direct
      have faded : ∀ x, obj ≤ x → m x = s.pool.mem x ∨ m x = 0 := fun x lower =>
        (under.faded x (above.trans lower)).imp_right And.left
      have key : keyLen m obj ≤ keyLen s.pool.mem obj := word_le _ _ (obj + 20) 4 fun x lower _ => faded x (by omega)
      have val : valLen m obj ≤ valLen s.pool.mem obj := word_le _ _ (obj + 24) 4 fun x lower _ => faded x (by omega)
      obtain ⟨key_fits, fits⟩ := image.bounds id obj direct
      refine ⟨fun data => key.trans (key_fits data), ?_, fun live => absurd (zeroed id obj drops direct) live⟩
      unfold Handle.objectLen at fits ⊢
      split at fits
      · next data =>
        rw [if_pos data]
        omega
      · next metadata =>
        rw [if_neg metadata]
        omega
    · exact (untouched id drops).contained direct (rooms.room id) (image.sealed id obj drops direct).1
  · by_cases drops : Dropped h s.pool.mem map id
    · exact fun live => absurd (zeroed id obj drops direct) live
    · obtain ⟨contained, sealed⟩ := image.sealed id obj drops direct
      exact (untouched id drops).sealed direct (rooms.room id) contained sealed
  · by_cases drops : Dropped h s.pool.mem map id
    · rw [dropped id drops]
      intro obj found
      obtain ⟨-, direct, live⟩ := backendGet_ok.mp found
      exact live (zeroed id obj drops direct)
    · rw [kept id drops]
      exact (image.shown id drops).untouched (rooms.room id) (untouched id drops) fun ready => ready

end Images

section Reopening

variable {h : Handle} {s s' : Store} {map : TxMap Nat PartialBytes} {objects : Objects} {heap : Nat → Nat → TxMeta}

theorem txLogInit_ends (few : h.txSlotsCount < 255) (s : Store) (heap : Nat → Nat → TxMeta) :
    ∃ initial, txLogInit h s heap = some initial := by
  obtain ⟨list, loop⟩ := slotIdsLoop_ends few (2 ^ 8) 1 (by omega) (by omega) (caslistNew 1 h.txSlotsCount)
  exact ⟨{ s with txSlotsList := list, updIdList := fun i => ⟨0, heap i⟩ }, by simp only [txLogInit, loop, Option.map_some]⟩

theorem Means.absent {m : Mem} (means : Means h m objects) {id : Nat} (object : objects id = none) :
    pmbGet h m id = .error .enoent := by
  have := means id
  rwa [object] at this

theorem Means.present {m : Mem} (means : Means h m objects) {id : Nat} {v : PartialBytes}
    (object : objects id = some v) : ∃ shown, pmbGet h m id = .ok shown ∧ shown.Shows v := by
  have := means id
  rwa [object] at this

theorem HoldsBut.get_iff (held : HoldsBut h s.pool.mem objects ∅) (id : Nat) :
    (∃ object, pmbGet h s.pool.mem id = .ok object) ↔ objects id ≠ none := by
  cases object : objects id with
  | none => simp [held.means.absent object]
  | some v =>
    obtain ⟨shown, get, -⟩ := held.means.present object
    simp [get]

-- the ids of the blocks of a region
def Handle.regionIds (h : Handle) : Region → Finset Nat
  | .data => Finset.Ico 1 h.totalObjsCount
  | .metadata => Finset.Ico h.totalObjsCount (h.totalObjsCount + h.metaObjsCount)

def Store.freeListOf (s : Store) : Region → Option Caslist
  | .data => s.freeList
  | .metadata => s.metaFreeList

-- an open store that shows these objects: in each region they are listed, and the other blocks are free
structure Shows (h : Handle) (s : Store) (objects : Objects) : Prop where
  means : Means h s.pool.mem objects
  objs : ∀ region, ListOf (s.regionObjs region) {id ∈ h.regionIds region | objects id ≠ none}
  free : ∀ region, ListOf (s.freeListOf region) {id ∈ h.regionIds region | objects id = none}

theorem Shows.deadLists (shows : Shows h s objects) : DeadLists h s objects := by
  refine ⟨⟨_, shows.free .data, fun id member => ?_⟩, ⟨_, shows.free .metadata, fun id member => ?_⟩⟩
  · obtain ⟨inside, dead⟩ := Finset.mem_filter.mp member
    exact ⟨Finset.mem_Ico.mp inside, dead⟩
  · obtain ⟨inside, dead⟩ := Finset.mem_filter.mp member
    exact ⟨Finset.mem_Ico.mp inside, dead⟩

theorem mem_dataIds (id : Nat) : id ∈ h.regionIds .data ↔ id ≠ 0 ∧ id < h.totalObjsCount := by
  rw [Handle.regionIds, Finset.mem_Ico, Nat.one_le_iff_ne_zero]

theorem mem_metaIds (id : Nat) :
    id ∈ h.regionIds .metadata ↔ h.totalObjsCount ≤ id ∧ id < h.totalObjsCount + h.metaObjsCount := Finset.mem_Ico

theorem regionIds_card (ids : h.Ids) (region : Region) : (h.regionIds region).card = pmbNtotal h region := by
  cases region with
  | data => rw [Handle.regionIds, Nat.card_Ico, ids.border]
  | metadata => rw [Handle.regionIds, Nat.card_Ico, Nat.add_sub_cancel_left, pmbNtotal]

theorem Shows.nfree (shows : Shows h s objects) (ids : h.Ids) (small : h.totalObjsCount + h.metaObjsCount < 2 ^ 63)
    (region : Region) :
    pmbNfree s region + ((h.regionIds region).filter fun id => objects id ≠ none).card = pmbNtotal h region := by
  have split : ((h.regionIds region).filter fun id => objects id = none).card +
      ((h.regionIds region).filter fun id => objects id ≠ none).card = pmbNtotal h region := by
    rw [← regionIds_card ids, Finset.card_filter_add_card_filter_not]
  have few : pmbNtotal h region < 2 ^ 63 := by
    cases region with
    | data =>
      rw [ids.border]
      omega
    | metadata =>
      rw [pmbNtotal]
      omega
  have counted : pmbNfree s region = ((h.regionIds region).filter fun id => objects id = none).card := by
    have size := (shows.free region).size
    rw [ssize_of_lt (by omega)] at size
    rw [← size]
    cases region <;> rfl
  rw [counted]
  exact_mod_cast split

theorem recovery_sorts (rooms : h.Rooms) (blocks : SealedBut h s.pool.mem ∅) (held : HoldsBut h s.pool.mem objects ∅)
    (recovered : Recovery h s.emptyLists s') : Shows h s' objects := by
  have null := rooms.null_block
  have valid : ∀ id, id ≠ 0 → (objects id ≠ none ↔ h.ValidObject s.pool.mem id) := by
    intro id positive
    rw [← held.get_iff id, blocks.valid_iff id]
    exact and_iff_right positive
  have dead : ∀ id, id ≠ 0 → (objects id = none ↔ ¬h.ValidObject s.pool.mem id) := fun id positive =>
    not_iff_not.mp (by rw [not_not]; exact valid id positive)
  have known : ∀ region, ∀ id ∈ h.regionIds region, id ≠ 0 ∧ id < h.totalObjsCount + h.metaObjsCount := by
    intro region id member
    cases region with
    | data =>
      obtain ⟨positive, data⟩ := (mem_dataIds id).mp member
      exact ⟨positive, by omega⟩
    | metadata =>
      obtain ⟨metadata, below⟩ := (mem_metaIds id).mp member
      exact ⟨by omega, below⟩
  have sorted : ∀ kind region (P : Nat → Prop) [DecidablePred P], (∀ id, id ≠ 0 →
      id < h.totalObjsCount + h.metaObjsCount → (kind = recoveryList h s.pool.mem id ↔ id ∈ h.regionIds region ∧ P id)) →
      ListOf (s'.recovered kind) {id ∈ h.regionIds region | P id} := by
    intro kind region P _ same
    obtain ⟨members, lists, iff⟩ := recovery_lists rooms.toIds recovered kind
    have all : members = {id ∈ h.regionIds region | P id} := by
      ext id
      rw [iff, Finset.mem_filter]
      constructor
      · rintro ⟨positive, below, listed⟩
        exact (same id positive below).mp listed
      intro listed
      obtain ⟨positive, below⟩ := known region id listed.1
      exact ⟨positive, below, (same id positive below).mpr listed⟩
    rwa [← all]
  have kinds := fun id (positive : id ≠ 0) (below : id < h.totalObjsCount + h.metaObjsCount) kind =>
    recoveryList_eq rooms.toIds s.pool.mem positive below kind
  have means : Means h s'.pool.mem objects := by
    obtain ⟨pushes, -, rfl⟩ := recovered
    rw [foldl_recoveryPush_pool]
    exact held.means
  refine ⟨means, fun region => ?_, fun region => ?_⟩
  · cases region with
    | data =>
      refine sorted .objs .data _ fun id positive below => ?_
      rw [kinds id positive below .objs, valid id positive, mem_dataIds, and_iff_right positive]
    | metadata =>
      refine sorted .metaObjs .metadata _ fun id positive below => ?_
      rw [kinds id positive below .metaObjs, valid id positive, mem_metaIds, and_iff_left below]
  · cases region with
    | data =>
      refine sorted .free .data _ fun id positive below => ?_
      rw [kinds id positive below .free, dead id positive, mem_dataIds, and_iff_right positive]
    | metadata =>
      refine sorted .metaFree .metadata _ fun id positive below => ?_
      rw [kinds id positive below .metaFree, dead id positive, mem_metaIds, and_iff_left below]

theorem InRecovery.start (layout : h.LogLayout) (m : Mem) : InRecovery h m m := by
  refine ⟨1, le_refl 1, layout.some_slot, fun x _ => Or.inl rfl, fun i positive less => by omega, ?_, fun x _ _ => rfl⟩
  rintro obj ⟨i, less, use, -⟩
  have := use.1
  omega

structure Recovers (h : Handle) (m₀ m : Mem) (map : TxMap Nat PartialBytes) (heap : Nat → Nat → TxMeta) (s' : Store) :
    Prop where
  blocks : SealedBut h s'.pool.mem ∅
  held : HoldsBut h s'.pool.mem (recoveredMap h m₀ map).objects ∅
  shows : Shows h s' (recoveredMap h m₀ map).objects
  lists : s'.updIdList = fun i => ⟨0, heap i⟩
  slots : ListOf s'.txSlotsList (Finset.Icc 1 h.txSlotsCount)
  statuses : ∀ i < h.txSlotsCount,
    h.status s' i = if 1 ≤ i then TxStatus.empty.code else slotStatus m (h.slotAddr i)

theorem CrashImage.recovers (rooms : h.Rooms) (image : CrashImage h s map) {m : Mem}
    (stopped : InRecovery h s.pool.mem m) (heap : Nat → Nat → TxMeta) :
    (∃ s', Reopens h heap (s.crashed m) s') ∧
      ∀ s', Reopens h heap (s.crashed m) s' → Recovers h s.pool.mem m map heap s' := by
  have layout := rooms.toLogLayout
  have few := layout.few_slots
  have ready := image.replayable rooms
  have checks : ∀ mapped initial : Store, mapped.pool.mem = m → txLogInit h mapped heap = some initial →
      ∃ t, txLogCheck h initial = some t ∧ Underway h s.pool.mem h.txSlotsCount (doneBlocks h s.pool.mem h.txSlotsCount)
        t.pool.mem ∧ t.updIdList = initial.updIdList := by
    intro mapped initial bytes init
    obtain ⟨pool, -⟩ := txLogInit_spec layout init
    have same : initial.pool.mem = m := (congrArg Pool.mem pool).trans bytes
    obtain ⟨t, checked, -, ends, lists⟩ := InRecovery.replays (s := initial) layout ready (by rw [same]; exact stopped)
    exact ⟨t, checked, ends, lists⟩
  constructor
  · obtain ⟨initial, init⟩ := txLogInit_ends few (s.crashed m) heap
    obtain ⟨t, checked, -⟩ := checks (s.crashed m) _ rfl init
    exact ⟨_, s.crashed m, _, rfl, init, t, checked, _, interleaves_flatten _, rfl⟩
  · rintro s' ⟨mapped, initial, bytes, init, checked, check, recovered⟩
    obtain ⟨t, again, ends, lists⟩ := checks mapped initial bytes init
    cases check.symm.trans again
    obtain ⟨pool, slots⟩ := txLogInit_spec layout init
    obtain ⟨same_slots, statuses⟩ := checkSlots_spec layout (2 ^ 8) 1 (by omega) initial checked check
    obtain ⟨blocks, held⟩ := image.settles rooms ends
    have shows := recovery_sorts rooms blocks held recovered
    have heap_lists : initial.updIdList = fun i => ⟨0, heap i⟩ := by
      obtain ⟨list, -, rfl⟩ := Option.map_eq_some_iff.mp init
      rfl
    obtain ⟨pushes, -, rfl⟩ := recovered
    have bytes' : (pushes.foldl Store.recoveryPush checked.emptyLists).pool.mem = checked.pool.mem := by
      rw [foldl_recoveryPush_pool]
      rfl
    refine ⟨by rw [bytes']; exact blocks, by rw [bytes']; exact held, shows, ?_, ?_, fun i known => ?_⟩
    · rw [foldl_recoveryPush_lists, ← heap_lists, ← lists]
      rfl
    · rw [foldl_recoveryPush_txSlotsList]
      change ListOf checked.txSlotsList _
      rw [same_slots]
      exact slots
    · have before : h.status initial i = slotStatus m (h.slotAddr i) := by
        unfold Handle.status
        rw [pool, bytes]
        rfl
      rw [← before, ← statuses i known]
      unfold Handle.status
      rw [bytes']

end Reopening

section Crashes

variable {h : Handle} {s : Store} {t : Ledger} {i : Nat}

theorem TxLogged.holds (layout : h.LogLayout) (known : i < h.txSlotsCount) {tx : Tx Nat PartialBytes}
    (log : TxLogged h s i (some tx)) : SlotHolds h s i (some tx) := by
  obtain ⟨marked, ops, does, records, logged, decoded⟩ := log
  refine ⟨?_, ⟨_, marked.status⟩, ops, does, logged.lists layout known decoded⟩
  rw [marked.status, openStatus]
  split <;> decide

-- what replay needs of the transactions that are open
def Ledger.RecoverySafe (h : Handle) (t : Ledger) : Prop :=
  ∀ i ∈ replaySlots h, t.map.txs i ≠ none → ReplaySafe h t.store t.map i

theorem LedgerInv.crashImage (inv : LedgerInv h t) (layout : h.LogLayout) (safe : t.RecoverySafe h) :
    CrashImage h t.store t.map := by
  refine ⟨fun i member => ?_, safe, fun id obj direct => ?_, fun id _ => inv.held id, fun id obj _ direct =>
    ⟨inv.blocks.contained id obj direct, inv.blocks.sealed id obj direct (Set.notMem_empty id)⟩⟩
  · have log := inv.logs i ((mem_replaySlots layout).mp member).2
    cases here : t.map.txs i with
    | none =>
      rw [here] at log
      exact log
    | some tx =>
      rw [here] at log
      exact log.holds layout ((mem_replaySlots layout).mp member).2
  · obtain ⟨key_fits, fits, -⟩ := inv.blocks.contained id obj direct
    exact ⟨key_fits, fits⟩

theorem LedgerInv.stands_iff (inv : LedgerInv h t) {tx : Tx Nat PartialBytes} (known : i < h.txSlotsCount)
    (here : t.map.txs i = some tx) :
    replayStands h t.store.pool.mem i = true ↔ tx.commited = true ∧
      checksumOf h t.store.pool.mem (h.slotAddr i) (u64 (sizeofTxSlot + h.size t.store i)) =
        checksumOf h t.store.pool.mem (h.slotAddr i) (h.size t.store i) := by
  have log := inv.logs i known
  rw [here] at log
  have commited := log.commited.2
  obtain ⟨marked, -⟩ := log
  rw [replayStands, slotAccepted_iff]
  constructor
  · rintro ⟨checksum, status⟩
    have ended := commited.mpr status
    rw [marked.checksum, if_pos ended] at checksum
    exact ⟨ended, checksum.symm⟩
  · rintro ⟨ended, longer⟩
    rw [marked.checksum, if_pos ended]
    exact ⟨longer.symm, commited.mp ended⟩

end Crashes

end PmBackend
