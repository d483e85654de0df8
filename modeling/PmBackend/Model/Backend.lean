import PmBackend.Shared.ByteMemory
import PmBackend.Model.Caslist

set_option autoImplicit false

namespace PmBackend

open ByteMemory

@[irreducible] def u32 (n : Nat) : Nat := n % 2 ^ 32

theorem u32_of_lt {n : Nat} (small : n < 2 ^ 32) : u32 n = n := by
  unfold u32
  exact Nat.mod_eq_of_lt small

inductive Status where
  | ok | err | enoent | enospc | ecreat | esbwr | esbcr | esbin | esize | ewrgid | eargs
  deriving DecidableEq, Repr

def Status.code : Status → Nat
  | ok => 0
  | err => 1
  | enoent => 2
  | enospc => 3
  | ecreat => 4
  | esbwr => 5
  | esbcr => 6
  | esbin => 7
  | esize => 8
  | ewrgid => 9
  | eargs => 10

inductive SyncType where
  | sync | async | selsync | thsync | nosync
  deriving DecidableEq, Repr

inductive BackendError where
  | noBackend | enoent | empty | full | invId
  deriving DecidableEq, Repr

structure Backend where
  bsize : Nat
  metaBsize : Nat
  isPmem : Bool
  datasize : Nat
  metasize : Nat
  dataNlba : Nat
  metaNlba : Nat
  txSlotsCount : Nat
  txSlotSize : Nat
  syncType : SyncType
  addr : Nat
  txLog : Nat
  dataArea : Nat
  metaArea : Nat
  deriving DecidableEq, Repr

-- the fields of `struct _backend` that a reopened file supplies
structure PoolHdr where
  bsize : Nat
  metaBsize : Nat
  txSlotsCount : Nat
  txSlotSize : Nat
  deriving DecidableEq, Repr

inductive MapError where
  | einval
  | sigfpe
  deriving DecidableEq, Repr

def PMB_FORMAT_DATA_ALIGN : Nat := 4096

def roundup (x align : Nat) : Nat := u64 (x + (align - 1)) / align * align

structure MapArgs where
  addr : Nat
  -- `sizeof (struct _backend)`; it contains the `struct pool_hdr` of NVML
  hdrSize : Nat
  isPmem : Bool
  poolsize : Nat
  metaPoolsize : Nat
  bsize : Nat
  metaBsize : Nat
  txSlotsCount : Nat
  txSlotSize : Nat
  syncType : SyncType

-- the layout computed from the block sizes of the header
def backendLayout (args : MapArgs) (hdr : PoolHdr) (txSlotSize : Nat) : Except MapError Backend :=
  if hdr.bsize = 0 ∨ hdr.metaBsize = 0 then .error .sigfpe
  else
    let txLog := u64 (args.addr + roundup args.hdrSize PMB_FORMAT_DATA_ALIGN)
    let dataArea := u64 (txLog + u64 (args.txSlotsCount * txSlotSize))
    let datasize := sub64 (u64 (args.addr + args.poolsize)) dataArea
    let dataNlba := datasize / hdr.bsize
    let metaArea := u64 (dataArea + u64 (dataNlba * hdr.bsize))
    let metasize := sub64 (u64 (args.addr + args.poolsize + args.metaPoolsize)) metaArea
    .ok
      { bsize := hdr.bsize
        metaBsize := hdr.metaBsize
        isPmem := args.isPmem
        datasize := datasize
        metasize := metasize
        dataNlba := dataNlba
        metaNlba := metasize / hdr.metaBsize
        txSlotsCount := hdr.txSlotsCount
        txSlotSize := hdr.txSlotSize
        syncType := args.syncType
        addr := args.addr
        txLog := txLog
        dataArea := dataArea
        metaArea := metaArea }

-- `none` as header stands for `initialize`: the header is then written from the arguments
def backendMapCommon (args : MapArgs) (hdr : Option PoolHdr) : Except MapError Backend :=
  let bsize := roundup args.bsize PMB_FORMAT_DATA_ALIGN
  let metaBsize := roundup args.metaBsize PMB_FORMAT_DATA_ALIGN
  let txSlotSize := roundup args.txSlotSize PMB_FORMAT_DATA_ALIGN
  match hdr with
  | some hdr =>
    if bsize ≠ 0 ∧ bsize ≠ hdr.bsize then .error .einval
    else if metaBsize ≠ 0 ∧ metaBsize ≠ hdr.metaBsize then .error .einval
    else backendLayout args hdr txSlotSize
  | none =>
    if bsize = 0 then .error .einval
    else if metaBsize = 0 then .error .einval
    else backendLayout args ⟨u32 bsize, u32 metaBsize, args.txSlotsCount, u32 txSlotSize⟩ txSlotSize

def backendDirect (backend : Backend) (objId : Nat) : Option Nat :=
  if objId < backend.dataNlba then
    some (u64 (backend.dataArea + u64 (objId * backend.bsize)))
  else if objId < u64 (backend.dataNlba + backend.metaNlba) then
    some (u64 (backend.metaArea + u64 (sub64 (sub64 objId backend.dataNlba) 1 * backend.metaBsize)))
  else none

def backendTxDirect (backend : Backend) (txId : Nat) : Option Nat :=
  if txId < backend.txSlotsCount then some (u64 (backend.txLog + u64 (txId * backend.txSlotSize)))
  else none

-- what happens to the mapped file: a store by the program, or a request to write bytes back
inductive Event where
  | store (addr : Nat) (bytes : List UInt8)
  | persist (addr len : Nat)
  | weakPersist (addr len : Nat)
  deriving DecidableEq, Repr

-- the mapped bytes, with the events so far, latest first
structure Pool where
  mem : Mem
  events : List Event

def Pool.store (p : Pool) (addr : Nat) (bytes : List UInt8) : Pool :=
  { mem := p.mem.write addr bytes, events := .store addr bytes :: p.events }

def Pool.emit (p : Pool) (event : Event) : Pool := { p with events := event :: p.events }

def Pool.memset (p : Pool) (addr len : Nat) : Pool := p.store addr (List.replicate len 0)

@[simp] theorem Pool.store_mem (p : Pool) (addr : Nat) (bytes : List UInt8) :
    (p.store addr bytes).mem = p.mem.write addr bytes := rfl

@[simp] theorem Pool.emit_mem (p : Pool) (event : Event) : (p.emit event).mem = p.mem := rfl

@[simp] theorem Pool.memset_mem (p : Pool) (addr len : Nat) :
    (p.memset addr len).mem = p.mem.write addr (List.replicate len 0) := rfl

abbrev sizeofDataHdr : Nat := 32

abbrev flch64 (m : Mem) (obj : Nat) : Nat := m.word obj 8
abbrev objectId (m : Mem) (obj : Nat) : Nat := m.word (obj + 8) 8
abbrev version (m : Mem) (obj : Nat) : Nat := m.word (obj + 16) 4
abbrev keyLen (m : Mem) (obj : Nat) : Nat := m.word (obj + 20) 4
abbrev valLen (m : Mem) (obj : Nat) : Nat := m.word (obj + 24) 4

abbrev Pool.setFlch64 (p : Pool) (obj value : Nat) : Pool := p.store obj (encode 8 value)
abbrev Pool.setObjectId (p : Pool) (obj value : Nat) : Pool := p.store (obj + 8) (encode 8 value)
abbrev Pool.setVersion (p : Pool) (obj value : Nat) : Pool := p.store (obj + 16) (encode 4 value)
abbrev Pool.setKeyLen (p : Pool) (obj value : Nat) : Pool := p.store (obj + 20) (encode 4 value)
abbrev Pool.setValLen (p : Pool) (obj value : Nat) : Pool := p.store (obj + 24) (encode 4 value)

-- the constant part of a handle, and the checksum of the NVML submodule over the bytes of a range whose first eight,
-- the checksum field, are masked
structure Handle where
  backend : Backend
  maxKeyLen : Nat
  maxValLen : Nat
  metaMaxKeyLen : Nat
  metaMaxValLen : Nat
  txSlotsCount : Nat
  checksum : List UInt8 → UInt64

def Handle.totalObjsCount (h : Handle) : Nat := h.backend.dataNlba

def Handle.metaObjsCount (h : Handle) : Nat := h.backend.metaNlba

-- the bytes of a range with the checksum field at its start masked
def masked (m : Mem) (addr len : Nat) : List UInt8 :=
  List.replicate (min 8 len) 0 ++ m.read (addr + 8) (len - 8)

def checksumOf (h : Handle) (m : Mem) (addr len : Nat) : Nat := (h.checksum (masked m addr len)).toNat

-- `util_checksum` with `insert`
def utilChecksumInsert (h : Handle) (p : Pool) (addr len : Nat) : Pool :=
  p.setFlch64 addr (checksumOf h p.mem addr len)

-- `util_checksum` without `insert`
def utilChecksumVerify (h : Handle) (m : Mem) (addr len : Nat) : Bool :=
  flch64 m addr == checksumOf h m addr len

def backendGet (h : Handle) (m : Mem) (objId : Nat) : Except BackendError Nat :=
  if objId = 0 then .error .noBackend
  else
    match backendDirect h.backend objId with
    | none => .error .invId
    | some obj => if flch64 m obj = 0 then .error .enoent else .ok obj

def backendPersist (h : Handle) (p : Pool) (obj size : Nat) : Pool :=
  match h.backend.syncType with
  | .selsync => p.emit (.persist obj size)
  | .async => if h.backend.isPmem then p else p.emit (.weakPersist obj size)
  | _ => p

def backendPersistAll (h : Handle) (p : Pool) : Pool :=
  p.emit (.persist h.backend.txLog (u64 (h.backend.datasize + h.backend.metasize)))

def backendTxPersist (h : Handle) (p : Pool) (txId size : Nat) : Pool :=
  if h.backend.syncType = .sync then backendPersistAll h p
  else
    match backendTxDirect h.backend txId with
    | none => p
    | some slot => backendPersist h p slot size

-- the number of bytes is computed from the header that is being zeroed
def backendSetZero (p : Pool) (obj : Option Nat) : Pool :=
  match obj with
  | none => p
  | some obj => p.memset obj (sizeofDataHdr + keyLen p.mem obj + valLen p.mem obj)

-- zeroes `flch64` and `status` of a slot, not its `size`
def backendTxSetZero (h : Handle) (p : Pool) (slot : Nat) : Pool :=
  let p := p.memset slot 12
  if h.backend.syncType = .sync then backendPersistAll h p else backendPersist h p slot 12

-- on PMEM the copy is `pmem_memcpy_persist`
def backendMemcpy (h : Handle) (p : Pool) (dest : Nat) (bytes : List UInt8) : Pool :=
  let p := p.store dest bytes
  if h.backend.isPmem then p.emit (.persist dest bytes.length) else p

@[simp] theorem backendPersist_mem (h : Handle) (p : Pool) (obj size : Nat) :
    (backendPersist h p obj size).mem = p.mem := by
  unfold backendPersist
  cases h.backend.syncType <;> simp only [Pool.emit_mem]
  split <;> rfl

@[simp] theorem backendPersistAll_mem (h : Handle) (p : Pool) : (backendPersistAll h p).mem = p.mem := rfl

@[simp] theorem backendTxPersist_mem (h : Handle) (p : Pool) (txId size : Nat) :
    (backendTxPersist h p txId size).mem = p.mem := by
  unfold backendTxPersist
  split
  · rfl
  · split <;> simp

@[simp] theorem backendTxSetZero_mem (h : Handle) (p : Pool) (slot : Nat) :
    (backendTxSetZero h p slot).mem = p.mem.write slot (List.replicate 12 0) := by
  unfold backendTxSetZero
  simp only
  split <;> simp

@[simp] theorem backendMemcpy_mem (h : Handle) (p : Pool) (dest : Nat) (bytes : List UInt8) :
    (backendMemcpy h p dest bytes).mem = p.mem.write dest bytes := by
  unfold backendMemcpy
  split <;> rfl

end PmBackend
