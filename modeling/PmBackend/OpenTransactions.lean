import PmBackend.CallOrder
import PmBackend.ExecutedLengths
import PmBackend.LogDecoding
import PmBackend.ReopenContents
import PmBackend.Shared.Transactions

set_option autoImplicit false

namespace PmBackend

open ByteMemory DeferredLog

-- the block that an operation makes
def LogOp.created : LogOp → Option Nat
  | .write blkId => some blkId
  | .update _ newBlkId => some newBlkId
  | .smallUpdate _ _ _ => none
  | .remove _ => none

-- what the execution of the operation does to the objects
def LogOp.change : LogOp → Change Nat PartialBytes
  | .write _ => .keep
  | .update oldBlkId _ => .remove oldBlkId
  | .smallUpdate blkId data offset => .modify blkId fun v => v.overlay offset data
  | .remove blkId => .remove blkId

structure Handle.Usable (h : Handle) (id : Nat) : Prop where
  positive : id ≠ 0
  known : id < h.totalObjsCount + h.metaObjsCount
  alone : h.Alone id

-- the operations that calls log which meet their conditions
def LogOp.Fits (h : Handle) : LogOp → Prop
  | .write blkId => h.Usable blkId
  | .update oldBlkId newBlkId => (oldBlkId ≠ 0 ∧ oldBlkId < 2 ^ 64) ∧ h.Usable newBlkId
  | .smallUpdate blkId data offset =>
    (blkId ≠ 0 ∧ blkId < h.totalObjsCount) ∧ 32 + h.maxKeyLen + (offset + data.length) ≤ h.backend.bsize
  | .remove blkId => blkId ≠ 0 ∧ blkId < 2 ^ 64

-- a store, with the map and the transactions that its calls stand for
structure Ledger where
  store : Store
  map : TxMap Nat PartialBytes

def Ledger.start (h : Handle) (s : Store) : Ledger := ⟨s, .start (shownObjects h s.pool.mem)⟩

-- an empty value takes nothing from the object that it replaces
def putValue (objects : Objects) (kv : PmbPair) : PartialBytes :=
  (if kv.valLen = 0 then .empty else (objects kv.blkId).getD .empty).overlay kv.offset kv.valBytes

def replacement (blkId : Nat) : Change Nat PartialBytes := if blkId ≠ 0 then .remove blkId else .keep

-- what a call that succeeds does to the map. Only a small update and a delete wait for the execution as a whole
def Call.action (h : Handle) (objects : Objects) (ret : Return) : Call → TxAction Nat PartialBytes
  | .txBegin => .begin (ret.txSlot - 1)
  | .tput txSlot kv =>
    if kv.blkId ≠ 0 ∧ kv.valLen < h.maxValLen / 2 then
      .defer (txSlot - 1) (.modify kv.blkId fun v => v.overlay kv.offset kv.valBytes)
    else .create (txSlot - 1) ret.blkId (putValue objects kv) (replacement kv.blkId)
  | .tputMeta txSlot kv => .create (txSlot - 1) ret.blkId (.ofBytes kv.valBytes) (replacement kv.blkId)
  | .tdel txSlot blkId => .defer (txSlot - 1) (.remove blkId)
  | .txCommit txSlot => .commit (txSlot - 1)
  | .txExecute txSlot => .execute (txSlot - 1)
  | .txAbort txSlot => .abort (txSlot - 1)
  | .resolveConflict blkId1 blkId2 => .alone (.remove (if ret.blkId = blkId1 then blkId2 else blkId1))

-- at most 128 blocks are updated in place, and all of them are there in the end
def ExecutesLive (map : TxMap Nat PartialBytes) (i : Nat) : Prop :=
  ∃ named : Finset Nat, named.card ≤ 128 ∧ (∀ id ∈ named, applyAll (map.pendingOf i) map.objects id ≠ none) ∧
    ∀ id f, Change.modify id f ∈ map.pendingOf i → id ∈ named

-- the steps of `tx_slot_abort` through the log find the blocks that the transaction has made, and no others
structure AbortsMade (m : Mem) (logEnd slot : Nat) (map : TxMap Nat PartialBytes) (i : Nat) : Prop where
  inside : ∀ r ∈ slotStrides m slot, r.1 + 24 ≤ logEnd
  ids : ∀ id, id ∈ abortedIds m slot ↔ map.madeBy i id ≠ none

-- what keeps a call that succeeds within its blocks and its log
def LedgerSafe (h : Handle) (t : Ledger) : Call → Prop
  | .tput txSlot kv =>
    EntryFits h t.store txSlot (tputEntryLen h kv) ∧ kv.offset + kv.valLen < 2 ^ 32 ∧ kv.blkId < h.totalObjsCount ∧
      (¬SmallUpdate h kv → h.Alone (caslistPop t.store.freeList 0).val)
  | .tputMeta txSlot kv =>
    EntryFits h t.store txSlot sizeofTxEntry ∧ kv.keyLen + kv.valLen < 2 ^ 32 ∧
      h.Alone (caslistPop t.store.metaFreeList 0).val
  | .tdel txSlot blkId => EntryFits h t.store txSlot sizeofTxEntry ∧ blkId < 2 ^ 64
  | .txExecute txSlot => ExecutesLive t.map (txSlot - 1)
  | .txAbort txSlot => AbortsMade t.store.pool.mem h.logEnd (h.slotAddr (txSlot - 1)) t.map (txSlot - 1)
  | .resolveConflict blkId1 blkId2 => blkId1 < h.totalObjsCount ∧ blkId2 < h.totalObjsCount
  | _ => True

-- a call on any slot. One that fails leaves the map as it was
structure LedgerCall (h : Handle) (t : Ledger) (call : Call) (ret : Return) (t' : Ledger) : Prop where
  run : runCall h t.store call = some (t'.store, ret)
  slot : SlotSafe h t.store call
  safe : ret.status = .ok → LedgerSafe h t call
  map : t'.map = if ret.status = .ok then t.map.next (call.action h t.map.objects ret) else t.map

def LedgerStep (h : Handle) (t t' : Ledger) : Prop := ∃ call ret, LedgerCall h t call ret t'

structure LoggedBy (h : Handle) (tx : Tx Nat PartialBytes) (ops : List LogOp) : Prop where
  pending : tx.pending = ops.map LogOp.change
  made : ∀ id, tx.made id ≠ none ↔ ∃ op ∈ ops, op.created = some id
  fits : ∀ op ∈ ops, op.Fits h

def openStatus (tx : Tx Nat PartialBytes) : TxStatus := if tx.commited then .commited else .processing

-- the checksum of a slot is stored by its commit
structure Marked (h : Handle) (s : Store) (i : Nat) (tx : Tx Nat PartialBytes) : Prop where
  status : h.status s i = (openStatus tx).code
  checksum : flch64 s.pool.mem (h.slotAddr i) =
    if tx.commited then checksumOf h s.pool.mem (h.slotAddr i) (h.size s i) else 0

-- the slot of an open transaction holds its operations
def TxLogged (h : Handle) (s : Store) (i : Nat) : Option (Tx Nat PartialBytes) → Prop
  | none => h.status s i = TxStatus.empty.code
  | some tx => Marked h s i tx ∧
      ∃ ops, LoggedBy h tx ops ∧ ∃ records, Logged h s i records ∧ records.map LogRecord.op = ops.map some

-- a free list of blocks without an object
def DeadFree (list : Option Caslist) (objects : Objects) (low high : Nat) : Prop :=
  ∃ ids, ListOf list ids ∧ ∀ id ∈ ids, (low ≤ id ∧ id < high) ∧ objects id = none

structure DeadLists (h : Handle) (s : Store) (objects : Objects) : Prop where
  data : DeadFree s.freeList objects 1 h.totalObjsCount
  metadata : DeadFree s.metaFreeList objects h.totalObjsCount (h.totalObjsCount + h.metaObjsCount)

-- the objects of the map are in the blocks, and its transactions in their slots
structure Represents (h : Handle) (s : Store) (map : TxMap Nat PartialBytes) : Prop where
  held : HoldsBut h s.pool.mem map.objects ∅
  free : DeadLists h s map.objects
  logs : ∀ i < h.txSlotsCount, TxLogged h s i (map.txs i)

structure LedgerInv (h : Handle) (t : Ledger) : Prop extends Represents h t.store t.map where
  blocks : SealedBut h t.store.pool.mem ∅
  lists : ∀ i < h.txSlotsCount, CleanList (t.store.updIdList i)
  slots : SlotInvariant h t.store
  closed : ∀ i, h.txSlotsCount ≤ i → t.map.txs i = none

-- a store without an open transaction whose free blocks hold no object
structure Recoverable (h : Handle) (s : Store) : Prop extends Settled h s where
  free : DeadLists h s (shownObjects h s.pool.mem)

section Operations

variable {r : LogRecord} {op : LogOp}

theorem LogRecord.change_op (decoded : r.op = some op) : r.change = op.change := by
  have reads := LogRecord.reads decoded
  unfold LogRecord.change
  cases op with
  | write blkId =>
    rw [reads.1, if_neg (by decide), if_neg (by decide)]
    rfl
  | update oldBlkId newBlkId =>
    rw [if_pos (Or.inl reads.1), reads.2.1]
    rfl
  | smallUpdate blkId data offset =>
    obtain ⟨type, id, payload, start⟩ := reads
    rw [type, if_neg (by decide), if_pos rfl, id, payload, start]
    rfl
  | remove blkId =>
    rw [if_pos (Or.inr reads.1), reads.2]
    rfl

theorem decoded_map {records : List LogRecord} {ops : List LogOp} {B : Type} {f : LogRecord → B} {g : LogOp → B}
    (decoded : records.map LogRecord.op = ops.map some) (same : ∀ r op, r.op = some op → f r = g op) :
    records.map f = ops.map g := by
  induction records generalizing ops with
  | nil =>
    cases ops with
    | nil => rfl
    | cons op ops => cases decoded
  | cons r records ih =>
    cases ops with
    | nil => cases decoded
    | cons op ops =>
      simp only [List.map_cons, List.cons.injEq] at decoded ⊢
      exact ⟨same r op decoded.1, ih decoded.2⟩

theorem decoded_mem {records : List LogRecord} {ops : List LogOp}
    (decoded : records.map LogRecord.op = ops.map some) {r : LogRecord} (member : r ∈ records) :
    ∃ op ∈ ops, r.op = some op := by
  have listed : r.op ∈ ops.map some := by
    rw [← decoded]
    exact List.mem_map_of_mem member
  obtain ⟨op, inside, same⟩ := List.mem_map.mp listed
  exact ⟨op, inside, same.symm⟩

end Operations

section Logs

variable {h : Handle} {s s' : Store} {i j : Nat} {state : Option (Tx Nat PartialBytes)} {tx : Tx Nat PartialBytes}
  {op : LogOp} {ops : List LogOp}

theorem LogOp.Fits.words (rooms : h.Rooms) (fits : op.Fits h) : op.Words := by
  have fit := rooms.fit
  have small := rooms.bsize_small
  cases op with
  | write blkId =>
    have known := fits.known
    exact (by omega : blkId < 2 ^ 64)
  | update oldBlkId newBlkId =>
    have known := fits.2.known
    exact ⟨fits.1.2, by omega⟩
  | smallUpdate blkId data offset =>
    obtain ⟨⟨-, data_block⟩, room⟩ := fits
    exact ⟨by omega, by omega, by omega⟩
  | remove blkId => exact fits.2

theorem LoggedBy.new : LoggedBy h Tx.new [] := ⟨rfl, fun id => by simp [Tx.new], by simp⟩

theorem LoggedBy.commit (logged : LoggedBy h tx ops) : LoggedBy h tx.commit ops :=
  ⟨logged.pending, logged.made, logged.fits⟩

theorem LoggedBy.defer (logged : LoggedBy h tx ops) (fits : op.Fits h) (none_made : op.created = none) :
    LoggedBy h (tx.defer op.change) (ops ++ [op]) := by
  refine ⟨?_, fun id => ?_, fun other member => ?_⟩
  · rw [List.map_append, ← logged.pending]
    rfl
  · change tx.made id ≠ none ↔ _
    rw [logged.made]
    constructor
    · rintro ⟨before, member, created⟩
      exact ⟨before, List.mem_append_left _ member, created⟩
    rintro ⟨before, member, created⟩
    rcases List.mem_append.mp member with old | new
    · exact ⟨before, old, created⟩
    · rw [List.mem_singleton.mp new, none_made] at created
      cases created
  · rcases List.mem_append.mp member with old | new
    · exact logged.fits other old
    · rwa [List.mem_singleton.mp new]

theorem LoggedBy.create (logged : LoggedBy h tx ops) (fits : op.Fits h) {key : Nat} (made : op.created = some key)
    (value : PartialBytes) : LoggedBy h (tx.create key value op.change) (ops ++ [op]) := by
  refine ⟨?_, fun id => ?_, fun other member => ?_⟩
  · rw [List.map_append, ← logged.pending]
    rfl
  · change Function.update tx.made key (some value) id ≠ none ↔ _
    constructor
    · intro there
      by_cases here : id = key
      · exact ⟨op, List.mem_append_right _ (List.mem_singleton_self op), here ▸ made⟩
      · rw [Function.update_of_ne here] at there
        obtain ⟨before, member, created⟩ := (logged.made id).mp there
        exact ⟨before, List.mem_append_left _ member, created⟩
    · rintro ⟨before, member, created⟩
      by_cases here : id = key
      · rw [here, Function.update_self]
        exact Option.some_ne_none value
      · rw [Function.update_of_ne here]
        rcases List.mem_append.mp member with old | new
        · exact (logged.made id).mpr ⟨before, old, created⟩
        · rw [List.mem_singleton.mp new, made] at created
          exact absurd (Option.some.inj created).symm here
  · rcases List.mem_append.mp member with old | new
    · exact logged.fits other old
    · rwa [List.mem_singleton.mp new]

theorem LoggedBy.usable (logged : LoggedBy h tx ops) {id : Nat} (made : tx.made id ≠ none) : h.Usable id := by
  obtain ⟨op, member, created⟩ := (logged.made id).mp made
  have fits := logged.fits op member
  cases op with
  | write blkId =>
    cases created
    exact fits
  | update oldBlkId newBlkId =>
    cases created
    exact fits.2
  | smallUpdate blkId data offset => cases created
  | remove blkId => cases created

theorem TxLogged.congr (layout : h.LogLayout) (log : TxLogged h s i state)
    (same : ∀ x, h.slotAddr i ≤ x → x < h.slotAddr i + h.backend.txSlotSize → s'.pool.mem x = s.pool.mem x) :
    TxLogged h s' i state := by
  have room := layout.slot_room
  have status : h.status s' i = h.status s i :=
    word_congr _ _ _ _ fun x lower upper => same x (by omega) (by omega)
  cases state with
  | none => exact status.trans log
  | some tx =>
    obtain ⟨marked, ops, does, records, logged, decoded⟩ := log
    have size : h.size s' i = h.size s i := word_congr _ _ _ _ fun x lower upper => same x (by omega) (by omega)
    have flch : flch64 s'.pool.mem (h.slotAddr i) = flch64 s.pool.mem (h.slotAddr i) :=
      word_congr _ _ _ _ fun x lower upper => same x (by omega) (by omega)
    have fits := logged.fits
    have checksum : checksumOf h s'.pool.mem (h.slotAddr i) (h.size s i) =
        checksumOf h s.pool.mem (h.slotAddr i) (h.size s i) :=
      checksumOf_span fun x lower upper => same x (by omega) (by omega)
    exact ⟨⟨status.trans marked.status, by rw [flch, size, checksum, marked.checksum]⟩, ops, does, records,
      logged.congr fun x lower upper => same x (by omega) upper, decoded⟩

theorem TxLogged.other (layout : h.LogLayout) (log : TxLogged h s j state) (known : j < h.txSlotsCount)
    (different : j ≠ i) (changed : SlotChanged h i s s') : TxLogged h s' j state :=
  log.congr layout (changed.slot_bytes known different)

theorem TxLogged.blocks (layout : h.LogLayout) (log : TxLogged h s i state) (known : i < h.txSlotsCount)
    (changed : ChangedIn h.blockArea s.pool.mem s'.pool.mem) : TxLogged h s' i state :=
  log.congr layout fun x _ upper => blocks_slot_bytes changed known x upper

theorem TxLogged.used (log : TxLogged h s i state) (used : h.status s i ≠ TxStatus.empty.code) :
    ∃ tx, state = some tx := by
  cases state with
  | none => exact absurd log used
  | some tx => exact ⟨tx, rfl⟩

theorem TxLogged.unused (log : TxLogged h s i state) (unused : h.status s i = TxStatus.empty.code) : state = none := by
  cases state with
  | none => rfl
  | some tx =>
    obtain ⟨⟨code, -⟩, -⟩ := log
    rw [code] at unused
    unfold openStatus at unused
    split at unused <;> cases unused

theorem TxLogged.commited (log : TxLogged h s i (some tx)) :
    (tx.commited = false ↔ h.status s i = TxStatus.processing.code) ∧
      (tx.commited = true ↔ h.status s i = TxStatus.commited.code) := by
  obtain ⟨⟨code, -⟩, -⟩ := log
  rw [code, openStatus]
  cases tx.commited <;> decide

theorem LogOp.run_above (layout : h.LogLayout) (known : i < h.txSlotsCount) (op : LogOp)
    (processing : h.status s i = TxStatus.processing.code) (started : sizeofTxSlot ≤ h.size s i)
    (fits : h.size s i + op.len ≤ h.backend.txSlotSize) :
    ChangedIn {x | h.slotAddr i + 16 ≤ x} s.pool.mem (op.run h s (i + 1)).1.pool.mem := by
  have hdr : sizeofTxSlot = 24 := rfl
  have fills : FillsEntry (op.fill h) op.len :=
    ⟨fun p entry => (op.fills.changed p entry).mono (span_subset (le_refl _) (by have := op.stored_le; omega))⟩
  rw [LogOp.run_eq, (txSlotAppend_spec layout s known fills processing started fits).1]
  refine ((fills.changed _ _).mono fun x inside => ?_).thenWrite _ _ fun x inside => ?_
  · rw [mem_span] at inside
    change h.slotAddr i + 16 ≤ x
    omega
  · rw [mem_span] at inside
    change h.slotAddr i + 16 ≤ x
    omega

theorem TxLogged.append (rooms : h.Rooms) (known : i < h.txSlotsCount) (log : TxLogged h s i state)
    (fits : op.Fits h) (entry : EntryFits h s (i + 1) op.len) (done : op.run h s (i + 1) = (s', .ok)) :
    SlotOnly h i s s' ∧ s' = { s with pool := s'.pool } ∧ ∃ tx, state = some tx ∧ tx.commited = false ∧
      (op.created = none → TxLogged h s' i (some (tx.defer op.change))) ∧
      ∀ key value, op.created = some key → TxLogged h s' i (some (tx.create key value op.change)) := by
  have layout := rooms.toLogLayout
  have appended := done
  rw [LogOp.run_eq] at appended
  obtain ⟨processing, same⟩ := txSlotAppend_ok layout known appended
  obtain ⟨tx, rfl⟩ := log.used (by rw [processing]; decide)
  have running := log.commited.1.mpr processing
  obtain ⟨marked, ops, does, records, logged, decoded⟩ := log
  have unsealed := marked.checksum
  rw [running, if_neg Bool.false_ne_true] at unsealed
  have room := entry processing
  rw [Nat.add_sub_cancel] at room
  have flch : flch64 s'.pool.mem (h.slotAddr i) = 0 := by
    have changed := op.run_above layout known processing logged.records.size_ge room
    rw [done] at changed
    rw [← unsealed]
    refine changed.word _ _ fun x inside => ?_
    change h.slotAddr i + 16 ≤ x at inside
    omega
  obtain ⟨⟨-, only⟩, ⟨status, size⟩, r, op_eq, more⟩ := LogOp.run_records layout known (fits.words rooms) logged.records
    processing room
  rw [done] at only status size more
  have listed : (records ++ [r]).map LogRecord.op = (ops ++ [op]).map some := by
    rw [List.map_append, List.map_append, decoded, List.map_singleton, op_eq]
    rfl
  refine ⟨only, same, tx, rfl, running, fun none_made => ⟨⟨?_, ?_⟩, _, does.defer fits none_made, _,
    ⟨size.trans_le room, more⟩, listed⟩, fun key value made => ⟨⟨?_, ?_⟩, _, does.create fits made value, _,
    ⟨size.trans_le room, more⟩, listed⟩⟩
  · rw [status, openStatus, Tx.defer, running]
    rfl
  · rw [flch, Tx.defer, running, if_neg Bool.false_ne_true]
  · rw [status, openStatus, Tx.create, running]
    rfl
  · rw [flch, Tx.create, running, if_neg Bool.false_ne_true]

end Logs

section Lists

variable {h : Handle} {s s' : Store} {list : Option Caslist} {objects : Objects} {low high id : Nat}

theorem DeadFree.pop (free : DeadFree list objects low high) (small : high < 2 ^ 64)
    (popped : (caslistPop list 0).ret = 0) :
    ((low ≤ (caslistPop list 0).val ∧ (caslistPop list 0).val < high) ∧ objects (caslistPop list 0).val = none) ∧
      (caslistPop list 0).val ≠ 0 ∧ ∀ value,
        DeadFree (caslistPop list 0).list (Function.update objects (caslistPop list 0).val value) low high := by
  obtain ⟨ids, lists, each⟩ := free
  obtain ⟨member, rest⟩ := listed_pop lists (fun id inside => by have bounds := (each id inside).1; omega) popped
  have positive := lists.positive member
  refine ⟨each _ member, by omega, fun value => ⟨_, rest, fun id inside => ?_⟩⟩
  rw [Function.update_of_ne (Finset.ne_of_mem_erase inside)]
  exact each id (Finset.mem_of_mem_erase inside)

theorem DeadFree.shrink (free : DeadFree list objects low high) (small : high < 2 ^ 64) :
    DeadFree (caslistPop list 0).list objects low high := by
  obtain ⟨ids, lists, each⟩ := free
  have bounds : ∀ id ∈ ids, id + 1 < 2 ^ 64 := fun id inside => by have bounds := (each id inside).1; omega
  by_cases popped : (caslistPop list 0).ret = 0
  · obtain ⟨-, rest⟩ := listed_pop lists bounds popped
    exact ⟨_, rest, fun id inside => each id (Finset.mem_of_mem_erase inside)⟩
  · have none_listed : ∀ id, ¬Listed list id := fun id listed => popped (lists.pop_lost bounds listed).1
    rw [lists.pop_none none_listed]
    exact ⟨ids, lists, each⟩

theorem DeadFree.push (free : DeadFree list objects low high) (range : id ≠ 0 → low ≤ id ∧ id < high)
    (small : high < 2 ^ 64) (dead : objects id = none) : DeadFree (caslistPush list id) objects low high := by
  obtain ⟨ids, lists, each⟩ := free
  have below : id < 2 ^ 64 := by
    by_cases zero : id = 0
    · omega
    · have bounds := range zero
      omega
  refine ⟨_, lists.push below, fun j inside => ?_⟩
  split at inside
  · exact each j inside
  · next positive =>
    rcases Finset.mem_insert.mp inside with rfl | inside
    · exact ⟨range positive, dead⟩
    · exact each j inside

theorem DeadFree.back (free : DeadFree list objects low high) (small : high < 2 ^ 64)
    (popped : (caslistPop list 0).ret = 0) :
    DeadFree (caslistPush (caslistPop list 0).list (caslistPop list 0).val) objects low high := by
  obtain ⟨⟨range, dead⟩, -, -⟩ := free.pop small popped
  exact (free.shrink small).push (fun _ => range) small dead

theorem DeadFree.mono (free : DeadFree list objects low high) {objects' : Objects}
    (dead : ∀ id, (low ≤ id ∧ id < high) ∧ objects id = none → objects' id = none) :
    DeadFree list objects' low high := by
  obtain ⟨ids, lists, each⟩ := free
  exact ⟨ids, lists, fun id inside => ⟨(each id inside).1, dead id (each id inside)⟩⟩

theorem DeadFree.outside (free : DeadFree list objects low high) (outside : id < low ∨ high ≤ id)
    (value : Option PartialBytes) : DeadFree list (Function.update objects id value) low high := by
  refine free.mono fun j inside => ?_
  rw [Function.update_of_ne (by omega)]
  exact inside.2

theorem DeadLists.mono (free : DeadLists h s objects) {objects' : Objects}
    (dead : ∀ id, objects id = none → objects' id = none) :
    DeadLists h s objects' :=
  ⟨free.data.mono fun id inside => dead id inside.2, free.metadata.mono fun id inside => dead id inside.2⟩

theorem DeadLists.release (free : DeadLists h s objects) (ids : h.Ids) (dead : objects id = none)
    (known : id < h.totalObjsCount + h.metaObjsCount) : DeadLists h (s.release h id) objects := by
  have fit := ids.fit
  unfold Store.release
  split
  · next region => exact ⟨free.data.push (fun positive => ⟨by omega, region⟩) (by omega) dead, free.metadata⟩
  · next region => exact ⟨free.data, free.metadata.push (fun _ => ⟨by omega, known⟩) (by omega) dead⟩

theorem DeadLists.same (free : DeadLists h s objects) (data : s'.freeList = s.freeList)
    (metadata : s'.metaFreeList = s.metaFreeList) : DeadLists h s' objects :=
  ⟨by rw [data]; exact free.data, by rw [metadata]; exact free.metadata⟩

end Lists

end PmBackend
