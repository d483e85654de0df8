import PmBackend.Model.Backend

set_option autoImplicit false

namespace PmBackend

-- `pmb_opts` without the path
structure PmbOpts where
  dataSize : Nat
  metaSize : Nat
  writeLogEntries : Nat
  maxKeyLen : Nat
  maxValLen : Nat
  metaMaxKeyLen : Nat
  metaMaxValLen : Nat
  syncType : SyncType

def TX_LOG_SIZE : Nat := 128 * 1024 * 1024

-- what `backend_open` and `backend_create` pass to `_backend_map_common`
def PmbOpts.mapArgs (opts : PmbOpts) (addr hdrSize : Nat) (isPmem : Bool) : MapArgs where
  addr := addr
  hdrSize := hdrSize
  isPmem := isPmem
  poolsize := opts.dataSize
  metaPoolsize := opts.metaSize
  bsize := sizeofDataHdr + opts.maxKeyLen + opts.maxValLen
  metaBsize := sizeofDataHdr + opts.metaMaxKeyLen + opts.metaMaxValLen
  txSlotsCount := opts.writeLogEntries
  txSlotSize := TX_LOG_SIZE / opts.writeLogEntries
  syncType := opts.syncType

-- the part of the header that creation writes and a later open reads
def MapArgs.createdHdr (args : MapArgs) : PoolHdr where
  bsize := u32 (roundup args.bsize PMB_FORMAT_DATA_ALIGN)
  metaBsize := u32 (roundup args.metaBsize PMB_FORMAT_DATA_ALIGN)
  txSlotsCount := args.txSlotsCount
  txSlotSize := u32 (roundup args.txSlotSize PMB_FORMAT_DATA_ALIGN)

-- `TX_LOG_SIZE / opts->write_log_entries` comes before any other step
def backendOpen (opts : PmbOpts) (addr hdrSize : Nat) (isPmem : Bool) (hdr : Option PoolHdr) :
    Except MapError Backend :=
  if opts.writeLogEntries = 0 then .error .sigfpe
  else backendMapCommon (opts.mapArgs addr hdrSize isPmem) hdr

end PmBackend
