import PmBackend.Model.TxLog

set_option autoImplicit false

namespace PmBackend

open ByteMemory

-- the pair a client passes; `none` is a NULL pointer
structure PmbPair where
  blkId : Nat
  id : Nat
  offset : Nat
  key : Option Mem
  keyLen : Nat
  val : Option Mem
  valLen : Nat

-- the bytes of a client buffer, no byte of a NULL one
def bufferBytes (buffer : Option Mem) (len : Nat) : List UInt8 :=
  match buffer with
  | none => []
  | some bytes => bytes.read 0 len

def PmbPair.keyBytes (kv : PmbPair) : List UInt8 := bufferBytes kv.key kv.keyLen
def PmbPair.valBytes (kv : PmbPair) : List UInt8 := bufferBytes kv.val kv.valLen

-- what `pmb_get` reports, with the bytes its two pointers lead to; `val` is NULL when empty
structure PmbObject where
  blkId : Nat
  id : Nat
  keyLen : Nat
  key : List UInt8
  valLen : Nat
  val : Option (List UInt8)
  offset : Nat
  deriving DecidableEq, Repr

def pmbTxBegin (h : Handle) (s : Store) : Store × Status × Nat :=
  let popped := caslistPop s.txSlotsList 0
  let s := { s with txSlotsList := popped.list }
  if popped.ret ≠ 0 then (s, .err, popped.val)
  else
    let init := txSlotInit h s popped.val
    (init.1, init.2, popped.val)

def pmbTxCommit (h : Handle) (s : Store) (txSlot : Nat) : Store × Status :=
  if txSlot = 0 ∨ txSlot > h.txSlotsCount then (s, .eargs) else txSlotCommit h s txSlot

-- the slot returns to the list of free slots whatever `tx_slot_execute` returns
def pmbTxExecute (h : Handle) (s : Store) (txSlot : Nat) : Option (Store × Status) :=
  if txSlot = 0 ∨ txSlot > h.txSlotsCount then some (s, .eargs)
  else (txSlotExecute h s txSlot).map fun done => (txLogFreeSlot done.1 txSlot, done.2)

def pmbTxAbort (h : Handle) (s : Store) (txSlot : Nat) : Store × Status :=
  if txSlot = 0 ∨ txSlot > h.txSlotsCount then (s, .eargs)
  else
    let done := txSlotAbort h s txSlot
    (txLogFreeSlot done.1 txSlot, done.2)

-- in the meta region the value follows the key, in the data region the longest possible key
def valueAddr (h : Handle) (m : Mem) (blkId obj : Nat) : Nat :=
  if blkId < h.totalObjsCount then obj + sizeofDataHdr + h.maxKeyLen
  else obj + sizeofDataHdr + keyLen m obj

def pmbGet (h : Handle) (m : Mem) (blkId : Nat) : Except Status PmbObject :=
  match backendGet h m blkId with
  | .error _ => .error .enoent
  | .ok obj =>
    .ok
      { blkId := blkId
        id := objectId m obj
        keyLen := keyLen m obj
        key := m.read (obj + sizeofDataHdr) (keyLen m obj)
        valLen := valLen m obj
        val := if valLen m obj = 0 then none else some (m.read (valueAddr h m blkId obj) (valLen m obj))
        offset := 0 }

def nextVersion (m : Mem) (old : Option Nat) : Nat :=
  match old with
  | some old => version m old + 1
  | none => 1

-- the header and the key of the new block of `pmb_tput`; its length is that of the new bytes
def tputHeader (h : Handle) (p : Pool) (obj : Nat) (old : Option Nat) (kv : PmbPair) : Pool :=
  let p := p.setKeyLen obj kv.keyLen
  let p := p.setVersion obj (nextVersion p.mem old)
  let p := backendMemcpy h p (obj + sizeofDataHdr) kv.keyBytes
  (p.setObjectId obj kv.id).setValLen obj (u32 (kv.valLen + kv.offset))

-- copies the old value around the new bytes; returns the size of the object, too
def tputKeep (h : Handle) (p : Pool) (obj old : Nat) (kv : PmbPair) (objSize : Nat) : Pool × Nat :=
  let value := obj + sizeofDataHdr + h.maxKeyLen
  let oldValue := old + sizeofDataHdr + h.maxKeyLen
  let dataLen := u32 (kv.valLen + kv.offset)
  if valLen p.mem old > 0 then
    let beginning := if kv.offset > valLen p.mem old then valLen p.mem old else kv.offset
    let p := backendMemcpy h p value (p.mem.read oldValue beginning)
    if valLen p.mem old > dataLen then
      let sizeDiff := valLen p.mem old - dataLen
      let p := backendMemcpy h p (value + dataLen) (p.mem.read (oldValue + dataLen) sizeDiff)
      (p.setValLen obj (valLen p.mem old), u32 (objSize + sizeDiff))
    else (p, objSize)
  else (p, objSize)

def tputValue (h : Handle) (p : Pool) (obj : Nat) (old : Option Nat) (kv : PmbPair) (objSize : Nat) :
    Pool × Nat :=
  let kept :=
    match old with
    | none => (p, objSize)
    | some old => tputKeep h p obj old kv objSize
  (backendMemcpy h kept.1 (obj + sizeofDataHdr + h.maxKeyLen + kv.offset) kv.valBytes, kept.2)

-- the new block of `pmb_tput`, from the key length to the checksum
def tputBlock (h : Handle) (p : Pool) (obj : Nat) (old : Option Nat) (kv : PmbPair) : Pool :=
  let objSize := u32 (sizeofDataHdr + h.maxKeyLen + u32 (kv.valLen + kv.offset))
  let p := tputHeader h p obj old kv
  let filled := if kv.valLen ≠ 0 then tputValue h p obj old kv objSize else (p, objSize)
  utilChecksumInsert h filled.1 obj filled.2

-- the entry of a new block, UPDATE when it replaces an old one
def logNewBlock (h : Handle) (s : Store) (txSlot oldBlkId newBlkId : Nat) : Store × Status :=
  if oldBlkId ≠ 0 then txSlotOpUpdate h s txSlot oldBlkId newBlkId else txSlotOpWrite h s txSlot newBlkId

-- a block popped from the free list is not given back when the entry cannot be logged
def tputNewBlock (h : Handle) (s : Store) (txSlot : Nat) (kv : PmbPair) (old : Option Nat) :
    Store × Status × PmbPair :=
  let popped := caslistPop s.freeList 0
  let s := { s with freeList := popped.list }
  if popped.ret ≠ 0 then (s, .enospc, kv)
  else
    match backendDirect h.backend popped.val with
    | none => (s, .err, kv)
    | some obj =>
      let logged := logNewBlock h s txSlot kv.blkId popped.val
      if logged.2 ≠ .ok then (logged.1, logged.2, kv)
      else
        ({ logged.1 with pool := tputBlock h logged.1.pool obj old kv }, .ok, { kv with blkId := popped.val })

def pmbTput (h : Handle) (s : Store) (txSlot : Nat) (kv : PmbPair) : Store × Status × PmbPair :=
  if txSlot = 0 ∨ txSlot > h.txSlotsCount ∨ kv.keyLen > h.maxKeyLen ∨ kv.keyLen = 0 ∨
      kv.key.isNone ∨ (kv.val.isNone ∧ kv.valLen ≠ 0) ∨ (kv.valLen = 0 ∧ kv.offset ≠ 0) then
    (s, .eargs, kv)
  -- the sum of two `uint32_t`
  else if u32 (kv.offset + kv.valLen) > h.maxValLen then (s, .esize, kv)
  else if kv.blkId ≠ 0 ∧ kv.valLen < h.maxValLen / 2 then
    let logged := txSlotOpSmallUpdate h s txSlot kv.blkId kv.valBytes kv.offset
    (logged.1, logged.2, kv)
  else if kv.blkId ≠ 0 then
    match backendGet h s.pool.mem kv.blkId with
    | .error _ => (s, .enoent, kv)
    | .ok old => tputNewBlock h s txSlot kv (some old)
  else tputNewBlock h s txSlot kv none

-- the new block of `pmb_tput_meta`; the value follows the key, and `id` is not written
def tputMetaBlock (h : Handle) (p : Pool) (obj : Nat) (old : Option Nat) (kv : PmbPair) : Pool :=
  let objSize := u32 (sizeofDataHdr + kv.keyLen + kv.valLen)
  let p := (p.setKeyLen obj kv.keyLen).setValLen obj kv.valLen
  let p := p.setVersion obj (nextVersion p.mem old)
  let p := backendMemcpy h p (obj + sizeofDataHdr) kv.keyBytes
  let p := backendMemcpy h p (obj + sizeofDataHdr + kv.keyLen) kv.valBytes
  utilChecksumInsert h p obj objSize

def tputMetaNewBlock (h : Handle) (s : Store) (txSlot : Nat) (kv : PmbPair) (old : Option Nat) :
    Store × Status × PmbPair :=
  let popped := caslistPop s.metaFreeList 0
  let s := { s with metaFreeList := popped.list }
  if popped.ret ≠ 0 then (s, .enospc, kv)
  else
    match backendDirect h.backend popped.val with
    | none => (s, .err, kv)
    | some obj =>
      let logged := logNewBlock h s txSlot kv.blkId popped.val
      if logged.2 ≠ .ok then
        ({ logged.1 with metaFreeList := caslistPush logged.1.metaFreeList popped.val }, logged.2, kv)
      else
        ({ logged.1 with pool := tputMetaBlock h logged.1.pool obj old kv }, .ok,
          { kv with blkId := popped.val })

def pmbTputMeta (h : Handle) (s : Store) (txSlot : Nat) (kv : PmbPair) : Store × Status × PmbPair :=
  if txSlot = 0 ∨ txSlot > h.txSlotsCount ∨ kv.keyLen = 0 ∨ kv.key.isNone ∨ kv.val.isNone ∨
      kv.valLen = 0 then
    (s, .eargs, kv)
  -- both sums are sums of two `uint32_t`
  else if u32 (kv.keyLen + kv.valLen) > u32 (h.metaMaxKeyLen + h.metaMaxValLen) then (s, .esize, kv)
  else if kv.blkId < h.totalObjsCount ∧ kv.blkId > 0 then (s, .ewrgid, kv)
  else if kv.blkId ≠ 0 then
    match backendGet h s.pool.mem kv.blkId with
    | .error _ => (s, .enoent, kv)
    | .ok old => tputMetaNewBlock h s txSlot kv (some old)
  else tputMetaNewBlock h s txSlot kv none

def pmbTdel (h : Handle) (s : Store) (txSlot blkId : Nat) : Store × Status :=
  if txSlot = 0 ∨ txSlot > h.txSlotsCount ∨ blkId = 0 then (s, .eargs)
  else txSlotOpRemove h s txSlot blkId

inductive Region where
  | data | metadata
  deriving DecidableEq, Repr

def pmbNfree (s : Store) (region : Region) : Int :=
  match region with
  | .metadata => caslistSize s.metaFreeList
  | .data => caslistSize s.freeList

def pmbNtotal (h : Handle) (region : Region) : Nat :=
  match region with
  | .metadata => h.metaObjsCount
  | .data => sub64 h.totalObjsCount 1

-- the deleted block goes to the free list of the data region
def pmbResolveConflict (h : Handle) (s : Store) (blkId1 blkId2 : Nat) : Store × Nat :=
  match backendGet h s.pool.mem blkId1 with
  | .error _ => (s, Status.err.code)
  | .ok obj1 =>
    match backendGet h s.pool.mem blkId2 with
    | .error _ => (s, Status.err.code)
    | .ok obj2 =>
      let newer := version s.pool.mem obj1 > version s.pool.mem obj2
      let returnId := if newer then blkId2 else blkId1
      let deleteId := if newer then blkId1 else blkId2
      let s := s.setZero (some (if newer then obj1 else obj2))
      ({ s with freeList := caslistPush s.freeList deleteId }, returnId)

-- the calls of the API that change a store
inductive Call where
  | txBegin
  | tput (txSlot : Nat) (kv : PmbPair)
  | tputMeta (txSlot : Nat) (kv : PmbPair)
  | tdel (txSlot blkId : Nat)
  | txCommit (txSlot : Nat)
  | txExecute (txSlot : Nat)
  | txAbort (txSlot : Nat)
  | resolveConflict (blkId1 blkId2 : Nat)

-- the value a call returns, and what it writes to the memory of the client
structure Return where
  status : Status
  txSlot : Nat
  blkId : Nat
  deriving DecidableEq, Repr

-- `pmb_resolve_conflict` returns an id or PMB_ERR; it succeeds when both objects exist
def resolveStatus (h : Handle) (s : Store) (blkId1 blkId2 : Nat) : Status :=
  match backendGet h s.pool.mem blkId1, backendGet h s.pool.mem blkId2 with
  | .ok _, .ok _ => .ok
  | _, _ => .err

def runCall (h : Handle) (s : Store) : Call → Option (Store × Return)
  | .txBegin =>
    let done := pmbTxBegin h s
    some (done.1, ⟨done.2.1, done.2.2, 0⟩)
  | .tput txSlot kv =>
    let done := pmbTput h s txSlot kv
    some (done.1, ⟨done.2.1, txSlot, done.2.2.blkId⟩)
  | .tputMeta txSlot kv =>
    let done := pmbTputMeta h s txSlot kv
    some (done.1, ⟨done.2.1, txSlot, done.2.2.blkId⟩)
  | .tdel txSlot blkId =>
    let done := pmbTdel h s txSlot blkId
    some (done.1, ⟨done.2, txSlot, blkId⟩)
  | .txCommit txSlot =>
    let done := pmbTxCommit h s txSlot
    some (done.1, ⟨done.2, txSlot, 0⟩)
  | .txExecute txSlot => (pmbTxExecute h s txSlot).map fun done => (done.1, ⟨done.2, txSlot, 0⟩)
  | .txAbort txSlot =>
    let done := pmbTxAbort h s txSlot
    some (done.1, ⟨done.2, txSlot, 0⟩)
  | .resolveConflict blkId1 blkId2 =>
    let done := pmbResolveConflict h s blkId1 blkId2
    some (done.1, ⟨resolveStatus h s blkId1 blkId2, 0, done.2⟩)

def runCalls (h : Handle) (s : Store) : List Call → Option (Store × List Return)
  | [] => some (s, [])
  | call :: rest =>
    (runCall h s call).bind fun done => (runCalls h done.1 rest).map fun later => (later.1, done.2 :: later.2)

end PmBackend
