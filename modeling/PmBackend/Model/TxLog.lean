import Mathlib.Logic.Function.Basic
import PmBackend.Model.Backend

set_option autoImplicit false

namespace PmBackend

open ByteMemory

inductive TxStatus where
  | empty | processing | commited | aborted
  deriving DecidableEq, Repr

def TxStatus.code : TxStatus → Nat
  | empty => 0
  | processing => 1
  | commited => 2
  | aborted => 3

inductive TxOp where
  | write | update | updinplace | remove
  deriving DecidableEq, Repr

def TxOp.code : TxOp → Nat
  | write => 0
  | update => 1
  | updinplace => 2
  | remove => 3

abbrev sizeofTxSlot : Nat := 24
abbrev sizeofTxEntry : Nat := 24

abbrev slotStatus (m : Mem) (slot : Nat) : Nat := m.word (slot + 8) 4
abbrev slotSize (m : Mem) (slot : Nat) : Nat := m.word (slot + 16) 8

abbrev Pool.setStatus (p : Pool) (slot : Nat) (status : TxStatus) : Pool :=
  p.store (slot + 8) (encode 4 status.code)
abbrev Pool.setSize (p : Pool) (slot size : Nat) : Pool := p.store (slot + 16) (encode 8 size)

-- the bytes of a `tx_entry`; `type` may be none of the codes of `TxOp`
structure TxEntry where
  type : Nat
  blkId1 : Nat
  blkId2 : Nat
  deriving DecidableEq, Repr

def readEntry (m : Mem) (pos : Nat) : TxEntry :=
  ⟨m.word pos 4, m.word (pos + 8) 8, m.word (pos + 16) 8⟩

-- `blk_id2` of UPDINPLACE packs the size of the payload over the offset
def TxEntry.size (entry : TxEntry) : Nat := entry.blkId2 / 2 ^ 32
def TxEntry.offset (entry : TxEntry) : Nat := entry.blkId2 % 2 ^ 32

-- the bytes `tx_slot_execute` steps over
def TxEntry.span (entry : TxEntry) : Nat :=
  if entry.type = TxOp.updinplace.code then sizeofTxEntry + entry.size else sizeofTxEntry

-- the fields of `tx_meta` in use
structure TxMeta where
  id : Nat
  version : Nat
  valLen : Nat
  deriving DecidableEq, Repr

-- `list` is the heap from the allocated array on, beyond its 128 elements too
structure TxMetalist where
  count : Nat
  list : Nat → TxMeta

-- the mapped pool and the part of a handle that calls change
structure Store where
  pool : Pool
  objsList : Option Caslist
  freeList : Option Caslist
  metaObjsList : Option Caslist
  metaFreeList : Option Caslist
  txSlotsList : Option Caslist
  updIdList : Nat → TxMetalist

-- the push by which blocks return to the free list of their region
def Store.release (h : Handle) (s : Store) (blkId : Nat) : Store :=
  if blkId < h.totalObjsCount then { s with freeList := caslistPush s.freeList blkId }
  else { s with metaFreeList := caslistPush s.metaFreeList blkId }

def Store.setZero (s : Store) (obj : Option Nat) : Store := { s with pool := backendSetZero s.pool obj }

-- a slot id as `uint8_t`, after `tx_slot_id--`
def txIndex (txSlotId : Nat) : Nat := sub64 txSlotId 1 % 2 ^ 8

def txLogFreeSlot (s : Store) (txSlotId : Nat) : Store :=
  { s with txSlotsList := caslistPush s.txSlotsList txSlotId }

def txSlotChecksum (h : Handle) (p : Pool) (slot txId : Nat) : Pool :=
  let p := utilChecksumInsert h p slot (slotSize p.mem slot)
  backendTxPersist h p txId (slotSize p.mem slot)

def txSlotInit (h : Handle) (s : Store) (txSlotId : Nat) : Store × Status :=
  if txSlotId = 0 ∨ txSlotId > h.txSlotsCount then (s, .err)
  else
    match backendTxDirect h.backend (txIndex txSlotId) with
    | none => (s, .err)
    | some slot =>
      ({ s with pool := ((s.pool.setFlch64 slot 0).setStatus slot .processing).setSize slot sizeofTxSlot }, .ok)

def txSlotCommit (h : Handle) (s : Store) (txSlotId : Nat) : Store × Status :=
  if txSlotId = 0 ∨ txSlotId > h.txSlotsCount then (s, .err)
  else
    match backendTxDirect h.backend (txIndex txSlotId) with
    | none => (s, .err)
    | some slot =>
      if slotStatus s.pool.mem slot ≠ TxStatus.processing.code then (s, .err)
      else
        ({ s with pool := txSlotChecksum h (s.pool.setStatus slot .commited) slot (txIndex txSlotId) }, .ok)

-- the search stops at an element with id 0, too
def metaFind (list : Nat → TxMeta) (blkId : Nat) : Nat → Nat → Nat
  | 0, i => i
  | count + 1, i =>
    if (list i).id = blkId ∨ (list i).id = 0 then i else metaFind list blkId count (i + 1)

-- `none`: a NULL address is read
def txSlotMetaUpdAdd (h : Handle) (s : Store) (txId blkId size : Nat) : Option Store :=
  let metalist := s.updIdList txId
  let i := metaFind metalist.list blkId metalist.count 0
  let found : Option (TxMeta × Nat) :=
    if (metalist.list i).id = 0 then
      (backendDirect h.backend blkId).map fun obj =>
        (⟨blkId, version s.pool.mem obj, valLen s.pool.mem obj⟩, metalist.count + 1)
    else some (metalist.list i, metalist.count)
  found.map fun (entry, count) =>
    let entry := { entry with version := u32 (entry.version + 1) }
    let entry := if entry.valLen < size then { entry with valLen := size } else entry
    { s with updIdList := Function.update s.updIdList txId ⟨count, Function.update metalist.list i entry⟩ }

def txUpdateBlock (h : Handle) (s : Store) (txId blkId : Nat) (payload : List UInt8) (offset : Nat) :
    Option Store :=
  match backendDirect h.backend blkId with
  | none =>
    -- copying no byte to a NULL address is harmless
    if payload.isEmpty then txSlotMetaUpdAdd h s txId blkId (u32 (offset + payload.length)) else none
  | some obj =>
    let pool := backendMemcpy h s.pool (obj + sizeofDataHdr + h.maxKeyLen + offset) payload
    txSlotMetaUpdAdd h { s with pool := pool } txId blkId (u32 (offset + payload.length))

-- writes the headers of the first elements of the update list of a slot
def metaProcess (h : Handle) (list : Nat → TxMeta) : Nat → Nat → Pool → Option Pool
  | 0, _, p => some p
  | count + 1, i, p =>
    match backendDirect h.backend (list i).id with
    | none => none
    | some obj =>
      let p := (p.setVersion obj (list i).version).setValLen obj (list i).valLen
      metaProcess h list count (i + 1)
        (utilChecksumInsert h p obj (sizeofDataHdr + h.maxKeyLen + valLen p.mem obj))

def txSlotMetaUpdProcess (h : Handle) (s : Store) (txId : Nat) : Option Store :=
  let metalist := s.updIdList txId
  (metaProcess h metalist.list metalist.count 0 s.pool).map fun pool =>
    { s with
      pool := pool
      updIdList := Function.update s.updIdList txId
        ⟨0, fun i => if i < metalist.count then ⟨0, 0, 0⟩ else metalist.list i⟩ }

-- one round of the loop of `tx_slot_execute`, on the entry at `pos`
def executeEntry (h : Handle) (s : Store) (txId pos : Nat) (entry : TxEntry) : Option Store :=
  if entry.type = TxOp.update.code ∨ entry.type = TxOp.remove.code then
    match backendGet h s.pool.mem entry.blkId1 with
    | .error _ => some s
    | .ok obj => some ((s.setZero (some obj)).release h entry.blkId1)
  else if entry.type = TxOp.updinplace.code then
    txUpdateBlock h s txId entry.blkId1 (s.pool.mem.read (pos + sizeofTxEntry) entry.size) entry.offset
  else some s

-- the fuel is a number of bytes, and every entry has 24 of them
def executeWalk (h : Handle) (txId stop : Nat) : Nat → Nat → Store → Option Store
  | 0, _, s => some s
  | fuel + 1, pos, s =>
    if pos < stop then
      let entry := readEntry s.pool.mem pos
      (executeEntry h s txId pos entry).bind fun s => executeWalk h txId stop fuel (pos + entry.span) s
    else some s

def executeLog (h : Handle) (s : Store) (txId slot : Nat) : Option Store :=
  let entries := slot + sizeofTxSlot
  let slotEnd := u64 (slot + slotSize s.pool.mem slot)
  executeWalk h txId slotEnd (slotEnd - entries) entries s

-- `none`: the process faults on a NULL address
def txSlotExecute (h : Handle) (s : Store) (txSlotId : Nat) : Option (Store × Status) :=
  match backendTxDirect h.backend (txIndex txSlotId) with
  | none => some (s, .err)
  | some slot =>
    if slotStatus s.pool.mem slot ≠ TxStatus.commited.code then some (s, .err)
    else
      (executeLog h s (txIndex txSlotId) slot).bind fun s =>
        (txSlotMetaUpdProcess h s (txIndex txSlotId)).map fun s =>
          ({ s with pool := backendTxSetZero h s.pool slot }, .ok)

-- one round of the loop of `tx_slot_abort`
def abortEntry (h : Handle) (s : Store) (entry : TxEntry) : Store :=
  if entry.type = TxOp.update.code then
    (s.setZero (backendDirect h.backend entry.blkId2)).release h entry.blkId2
  else if entry.type = TxOp.write.code then
    (s.setZero (backendDirect h.backend entry.blkId1)).release h entry.blkId1
  else s

-- the position advances by one entry, whatever the entry is
def abortWalk (h : Handle) (stop : Nat) : Nat → Nat → Store → Store
  | 0, _, s => s
  | fuel + 1, pos, s =>
    if pos < stop then
      abortWalk h stop fuel (pos + sizeofTxEntry) (abortEntry h s (readEntry s.pool.mem pos))
    else s

def abortLog (h : Handle) (s : Store) (slot : Nat) : Store :=
  let entries := slot + sizeofTxSlot
  let slotEnd := u64 (slot + slotSize s.pool.mem slot)
  abortWalk h slotEnd (slotEnd - entries) entries s

def slotAborted (h : Handle) (s : Store) (slot txId : Nat) : Store :=
  { s with pool := txSlotChecksum h (s.pool.setStatus slot .aborted) slot txId }

-- the last lines of `tx_slot_abort` and of `tx_log_check`
def slotReset (h : Handle) (s : Store) (slot txId : Nat) : Store :=
  let pool := (s.pool.setStatus slot .empty).setSize slot 0
  { s with pool := backendTxSetZero h (txSlotChecksum h pool slot txId) slot }

def txSlotAbort (h : Handle) (s : Store) (txSlotId : Nat) : Store × Status :=
  match backendTxDirect h.backend (txIndex txSlotId) with
  | none => (s, .err)
  | some slot =>
    if slotStatus s.pool.mem slot ≠ TxStatus.processing.code ∧
        slotStatus s.pool.mem slot ≠ TxStatus.commited.code then (s, .err)
    else
      let aborted := slotAborted h s slot (txIndex txSlotId)
      (slotReset h (abortLog h aborted slot) slot (txIndex txSlotId), .ok)

-- the common part of the `tx_slot_op_*` functions: `fill` writes the new entry, of `len` bytes
def txSlotAppend (h : Handle) (s : Store) (txSlotId : Nat) (fill : Pool → Nat → Pool) (len : Nat) :
    Store × Status :=
  match backendTxDirect h.backend (txIndex txSlotId) with
  | none => (s, .err)
  | some slot =>
    let entry := u64 (slot + slotSize s.pool.mem slot)
    if slotStatus s.pool.mem slot ≠ TxStatus.processing.code then (s, .err)
    else
      let pool := fill s.pool entry
      ({ s with pool := pool.setSize slot (slotSize pool.mem slot + len) }, .ok)

abbrev Pool.setType (p : Pool) (entry : Nat) (type : TxOp) : Pool := p.store entry (encode 4 type.code)
abbrev Pool.setBlkId1 (p : Pool) (entry blkId : Nat) : Pool := p.store (entry + 8) (encode 8 blkId)
abbrev Pool.setBlkId2 (p : Pool) (entry blkId : Nat) : Pool := p.store (entry + 16) (encode 8 blkId)

def txSlotOpWrite (h : Handle) (s : Store) (txSlotId blkId : Nat) : Store × Status :=
  txSlotAppend h s txSlotId (fun p entry => (p.setType entry .write).setBlkId1 entry blkId) sizeofTxEntry

def txSlotOpSmallUpdate (h : Handle) (s : Store) (txSlotId blkId : Nat) (data : List UInt8)
    (offset : Nat) : Store × Status :=
  txSlotAppend h s txSlotId
    (fun p entry =>
      let p := ((p.setType entry .updinplace).setBlkId1 entry blkId).setBlkId2 entry
        (data.length * 2 ^ 32 + offset)
      backendMemcpy h p (entry + sizeofTxEntry) data)
    (sizeofTxEntry + data.length)

def txSlotOpUpdate (h : Handle) (s : Store) (txSlotId oldBlkId newBlkId : Nat) : Store × Status :=
  txSlotAppend h s txSlotId
    (fun p entry => ((p.setType entry .update).setBlkId1 entry oldBlkId).setBlkId2 entry newBlkId)
    sizeofTxEntry

def txSlotOpRemove (h : Handle) (s : Store) (txSlotId blkId : Nat) : Store × Status :=
  txSlotAppend h s txSlotId (fun p entry => (p.setType entry .remove).setBlkId1 entry blkId) sizeofTxEntry

-- one round of the inner loop of `tx_log_check`; `entries` is the first entry of the slot
def checkEntry (h : Handle) (s : Store) (txSlotId entries : Nat) (commit : Bool) (entry : TxEntry) :
    Option Store :=
  if entry.type = TxOp.write.code then
    some (if commit then s else s.setZero (backendDirect h.backend entry.blkId1))
  else if entry.type = TxOp.remove.code then
    some (if commit then s.setZero (backendDirect h.backend entry.blkId1) else s)
  else if entry.type = TxOp.update.code then
    some (s.setZero (backendDirect h.backend (if commit then entry.blkId1 else entry.blkId2)))
  else if entry.type = TxOp.updinplace.code then
    if commit then
      txUpdateBlock h s txSlotId entry.blkId1
        (s.pool.mem.read (entries + sizeofTxEntry) entry.size) entry.offset
    else some s
  else some s

-- the bound of the loop is read again in every round
def checkWalk (h : Handle) (txSlotId slot : Nat) (commit : Bool) : Nat → Nat → Store → Option Store
  | 0, _, _ => none
  | fuel + 1, pos, s =>
    if pos < u64 (slot + slotSize s.pool.mem slot) then
      let entry := readEntry s.pool.mem pos
      if entry.blkId1 = 0 ∧ entry.blkId2 = 0 then some s
      else
        (checkEntry h s txSlotId (slot + sizeofTxSlot) commit entry).bind fun s =>
          checkWalk h txSlotId slot commit fuel (pos + sizeofTxEntry) s
    else some s

-- the body of the outer loop of `tx_log_check`: the id is used as an index as it is
def checkSlot (h : Handle) (s : Store) (txSlotId : Nat) : Option Store :=
  match backendTxDirect h.backend txSlotId with
  | none => some s
  | some slot =>
    if slotStatus s.pool.mem slot = TxStatus.empty.code then some s
    else
      let commit := utilChecksumVerify h s.pool.mem slot (u64 (sizeofTxSlot + slotSize s.pool.mem slot)) &&
        slotStatus s.pool.mem slot == TxStatus.commited.code
      (checkWalk h txSlotId slot commit (2 ^ 64) (slot + sizeofTxSlot) s).map fun s =>
        slotReset h s slot txSlotId

-- the loop variable is a `uint8_t`; `none` when the loop has not ended after the given rounds
def checkSlots (h : Handle) : Nat → Nat → Store → Option Store
  | 0, _, _ => none
  | rounds + 1, txSlotId, s =>
    if txSlotId ≤ h.txSlotsCount then
      (checkSlot h s txSlotId).bind fun s => checkSlots h rounds ((txSlotId + 1) % 2 ^ 8) s
    else some s

def txLogCheck (h : Handle) (s : Store) : Option Store := checkSlots h (2 ^ 8) 1 s

def slotIdsLoop (h : Handle) : Nat → Nat → Option Caslist → Option (Option Caslist)
  | 0, _, _ => none
  | rounds + 1, i, list =>
    if i ≤ h.txSlotsCount then slotIdsLoop h rounds ((i + 1) % 2 ^ 8) (caslistPush list i) else some list

-- `heap` is what `malloc` returns for the update lists
def txLogInit (h : Handle) (s : Store) (heap : Nat → Nat → TxMeta) : Option Store :=
  (slotIdsLoop h (2 ^ 8) 1 (caslistNew 1 h.txSlotsCount)).map fun list =>
    { s with txSlotsList := list, updIdList := fun i => ⟨0, heap i⟩ }

end PmBackend
