import PmBackend.Geometry
import PmBackend.Model.Open

set_option autoImplicit false

namespace PmBackend

section Options

variable (opts : PmbOpts) (hdrSize : Nat) (hdr : PoolHdr)

def PmbOpts.logBytes : Nat :=
  u64 (opts.writeLogEntries * roundup (TX_LOG_SIZE / opts.writeLogEntries) PMB_FORMAT_DATA_ALIGN)

-- the offset of the first data block
def PmbOpts.dataOffset : Nat := roundup hdrSize PMB_FORMAT_DATA_ALIGN + opts.logBytes

def PmbOpts.dataBlocks : Nat := sub64 (u64 opts.dataSize) (u64 (opts.dataOffset hdrSize)) / hdr.bsize

def PmbOpts.metaBlocks : Nat :=
  sub64 (u64 (opts.dataSize + opts.metaSize))
    (u64 (opts.dataOffset hdrSize + u64 (opts.dataBlocks hdrSize hdr * hdr.bsize))) / hdr.metaBsize

end Options

-- two mappings of one file lay it out alike; addresses are counted from the start of the mapping
structure SameLayout (opts opts' : PmbOpts) (b b' : Backend) : Prop where
  slots : ∀ i, (backendTxDirect b' i).map (sub64 · b'.addr) = (backendTxDirect b i).map (sub64 · b.addr)
  blocks : ∀ id, (backendDirect b' id).map (sub64 · b'.addr) = (backendDirect b id).map (sub64 · b.addr)
  dataNlba : b'.dataNlba = b.dataNlba
  metaNlba : b'.metaNlba = b.metaNlba
  -- the key is right behind the header, the value `max_key_len` bytes later
  value : opts'.maxKeyLen = opts.maxKeyLen

-- the second options give as many blocks as the first, behind a log of the same size
structure SameShape (opts opts' : PmbOpts) (hdrSize : Nat) (hdr : PoolHdr) : Prop where
  value : opts'.maxKeyLen = opts.maxKeyLen
  dataBlocks : opts'.dataBlocks hdrSize hdr = opts.dataBlocks hdrSize hdr
  metaBlocks : opts'.metaBlocks hdrSize hdr = opts.metaBlocks hdrSize hdr
  log : opts'.logBytes = opts.logBytes ∨ opts.dataBlocks hdrSize hdr + opts.metaBlocks hdrSize hdr = 0

section Offsets

theorem sub64_base (a x : Nat) (small : a < 2 ^ 64) : sub64 (u64 (a + x)) a = u64 x := by
  unfold sub64 u64
  omega

theorem sub64_shift (a x y : Nat) : sub64 (u64 (a + x)) (u64 (a + y)) = sub64 (u64 x) (u64 y) := by
  unfold sub64 u64
  omega

theorem u64_add (x y : Nat) : u64 (u64 x + y) = u64 (x + y) := by
  unfold u64
  omega

theorem u64_add_cancel {a x y : Nat} (same : u64 (a + x) = u64 (a + y)) (small : x < 2 ^ 64)
    (small' : y < 2 ^ 64) : x = y := by
  unfold u64 at same
  omega

end Offsets

-- what the layout is, in offsets
structure LaidOut (opts : PmbOpts) (hdrSize addr : Nat) (hdr : PoolHdr) (b : Backend) : Prop where
  addr_eq : b.addr = addr
  bsize_eq : b.bsize = hdr.bsize
  metaBsize_eq : b.metaBsize = hdr.metaBsize
  slots_eq : b.txSlotsCount = hdr.txSlotsCount
  slotSize_eq : b.txSlotSize = hdr.txSlotSize
  txLog_eq : b.txLog = u64 (addr + roundup hdrSize PMB_FORMAT_DATA_ALIGN)
  dataArea_eq : b.dataArea = u64 (addr + opts.dataOffset hdrSize)
  dataNlba_eq : b.dataNlba = opts.dataBlocks hdrSize hdr
  metaArea_eq : b.metaArea =
    u64 (addr + (opts.dataOffset hdrSize + u64 (opts.dataBlocks hdrSize hdr * hdr.bsize)))
  metaNlba_eq : b.metaNlba = opts.metaBlocks hdrSize hdr

theorem backendLayout_laidOut {opts : PmbOpts} {addr hdrSize : Nat} {isPmem : Bool} {hdr : PoolHdr}
    {b : Backend}
    (laid : backendLayout (opts.mapArgs addr hdrSize isPmem) hdr
      (roundup (TX_LOG_SIZE / opts.writeLogEntries) PMB_FORMAT_DATA_ALIGN) = .ok b) :
    LaidOut opts hdrSize addr hdr b := by
  unfold backendLayout at laid
  split at laid
  · cases laid
  · have data : u64 (u64 (addr + roundup hdrSize PMB_FORMAT_DATA_ALIGN) +
        u64 (opts.writeLogEntries * roundup (TX_LOG_SIZE / opts.writeLogEntries) PMB_FORMAT_DATA_ALIGN)) =
        u64 (addr + opts.dataOffset hdrSize) := by
      rw [u64_add, PmbOpts.dataOffset, PmbOpts.logBytes, Nat.add_assoc]
    simp only [PmbOpts.mapArgs, data, sub64_shift, Except.ok.injEq, u64_add] at laid
    have blocks : sub64 (u64 opts.dataSize) (u64 (opts.dataOffset hdrSize)) / hdr.bsize =
        opts.dataBlocks hdrSize hdr := rfl
    simp only [blocks, Nat.add_assoc, sub64_shift] at laid
    subst laid
    exact ⟨rfl, rfl, rfl, rfl, rfl, rfl, rfl, rfl, rfl, rfl⟩

theorem backendOpen_created {opts : PmbOpts} {addr hdrSize : Nat} {isPmem : Bool} {b : Backend}
    (opened : backendOpen opts addr hdrSize isPmem none = .ok b) :
    LaidOut opts hdrSize addr (opts.mapArgs addr hdrSize isPmem).createdHdr b := by
  unfold backendOpen at opened
  split at opened
  · cases opened
  · unfold backendMapCommon at opened
    simp only at opened
    split at opened
    · cases opened
    · split at opened
      · cases opened
      · exact backendLayout_laidOut opened

theorem backendOpen_reopened {opts : PmbOpts} {addr hdrSize : Nat} {isPmem : Bool} {hdr : PoolHdr} {b : Backend}
    (opened : backendOpen opts addr hdrSize isPmem (some hdr) = .ok b) : LaidOut opts hdrSize addr hdr b := by
  unfold backendOpen at opened
  split at opened
  · cases opened
  · unfold backendMapCommon at opened
    simp only at opened
    split at opened
    · cases opened
    · split at opened
      · cases opened
      · exact backendLayout_laidOut opened

section Layouts

variable {opts opts' : PmbOpts} {hdrSize addr addr' : Nat} {hdr : PoolHdr} {b b' : Backend}

theorem LaidOut.slot_offset (laid : LaidOut opts hdrSize addr hdr b) (small : addr < 2 ^ 64) (i : Nat) :
    (backendTxDirect b i).map (sub64 · b.addr) =
      if i < hdr.txSlotsCount then
        some (u64 (roundup hdrSize PMB_FORMAT_DATA_ALIGN + u64 (i * hdr.txSlotSize)))
      else none := by
  unfold backendTxDirect
  rw [laid.slots_eq, laid.txLog_eq, laid.slotSize_eq, laid.addr_eq]
  split
  · rw [Option.map_some, u64_add, Nat.add_assoc, sub64_base _ _ small]
  · rfl

theorem LaidOut.block_offset (laid : LaidOut opts hdrSize addr hdr b) (small : addr < 2 ^ 64) (id : Nat) :
    (backendDirect b id).map (sub64 · b.addr) =
      if id < opts.dataBlocks hdrSize hdr then
        some (u64 (opts.dataOffset hdrSize + u64 (id * hdr.bsize)))
      else if id < u64 (opts.dataBlocks hdrSize hdr + opts.metaBlocks hdrSize hdr) then
        some (u64 (opts.dataOffset hdrSize + u64 (opts.dataBlocks hdrSize hdr * hdr.bsize) +
          u64 (sub64 (sub64 id (opts.dataBlocks hdrSize hdr)) 1 * hdr.metaBsize)))
      else none := by
  unfold backendDirect
  rw [laid.dataNlba_eq, laid.metaNlba_eq, laid.dataArea_eq, laid.metaArea_eq, laid.bsize_eq,
    laid.metaBsize_eq, laid.addr_eq]
  split
  · rw [Option.map_some, u64_add, Nat.add_assoc, sub64_base _ _ small]
  · split
    · rw [Option.map_some, u64_add, Nat.add_assoc addr, sub64_base _ _ small]
    · rfl

theorem metaBlocks_lt (opts : PmbOpts) (hdrSize : Nat) (hdr : PoolHdr) :
    opts.metaBlocks hdrSize hdr < 2 ^ 64 := by
  unfold PmbOpts.metaBlocks
  refine lt_of_le_of_lt (Nat.div_le_self _ _) ?_
  unfold sub64
  exact Nat.mod_lt _ (by decide)

theorem LaidOut.log_eq (laid : LaidOut opts hdrSize addr hdr b) (laid' : LaidOut opts' hdrSize addr' hdr b')
    (small : addr < 2 ^ 64) (small' : addr' < 2 ^ 64)
    (dataBlocks : opts'.dataBlocks hdrSize hdr = opts.dataBlocks hdrSize hdr)
    (metaBlocks : opts'.metaBlocks hdrSize hdr = opts.metaBlocks hdrSize hdr)
    (blocks : ∀ id, (backendDirect b' id).map (sub64 · b'.addr) = (backendDirect b id).map (sub64 · b.addr))
    (some_block : opts.dataBlocks hdrSize hdr + opts.metaBlocks hdrSize hdr ≠ 0) :
    opts'.logBytes = opts.logBytes := by
  have log_lt : opts.logBytes < 2 ^ 64 := u64_lt _
  have log_lt' : opts'.logBytes < 2 ^ 64 := u64_lt _
  have first := blocks 0
  rw [laid.block_offset small, laid'.block_offset small', dataBlocks, metaBlocks] at first
  by_cases data : 0 < opts.dataBlocks hdrSize hdr
  · rw [if_pos data, if_pos data, Option.some.injEq] at first
    simp only [PmbOpts.dataOffset, Nat.zero_mul, Nat.add_assoc] at first
    have sums := u64_add_cancel first (by unfold u64; omega) (by unfold u64; omega)
    unfold u64 at sums
    omega
  · -- without data blocks the first meta block shows it
    have none_data : opts.dataBlocks hdrSize hdr = 0 := by omega
    have bound := metaBlocks_lt opts hdrSize hdr
    rw [none_data, Nat.zero_add] at first some_block
    have is_meta : 0 < opts.metaBlocks hdrSize hdr := by omega
    simp only [u64_of_lt bound, lt_irrefl, if_false, is_meta, if_true, Option.some.injEq, PmbOpts.dataOffset,
      Nat.zero_mul, Nat.add_assoc] at first
    generalize u64 (sub64 (sub64 0 0) 1 * hdr.metaBsize) = offset at first
    unfold u64 at first
    omega

theorem LaidOut.same_iff (laid : LaidOut opts hdrSize addr hdr b) (laid' : LaidOut opts' hdrSize addr' hdr b')
    (small : addr < 2 ^ 64) (small' : addr' < 2 ^ 64) :
    SameLayout opts opts' b b' ↔ SameShape opts opts' hdrSize hdr := by
  constructor
  · intro same
    have dataBlocks : opts'.dataBlocks hdrSize hdr = opts.dataBlocks hdrSize hdr := by
      rw [← laid.dataNlba_eq, ← laid'.dataNlba_eq, same.dataNlba]
    have metaBlocks : opts'.metaBlocks hdrSize hdr = opts.metaBlocks hdrSize hdr := by
      rw [← laid.metaNlba_eq, ← laid'.metaNlba_eq, same.metaNlba]
    refine ⟨same.value, dataBlocks, metaBlocks, ?_⟩
    by_cases no_block : opts.dataBlocks hdrSize hdr + opts.metaBlocks hdrSize hdr = 0
    · exact Or.inr no_block
    · exact Or.inl (laid.log_eq laid' small small' dataBlocks metaBlocks same.blocks no_block)
  · intro shape
    refine ⟨fun i => ?_, fun id => ?_, ?_, ?_, shape.value⟩
    · rw [laid.slot_offset small, laid'.slot_offset small']
    · rw [laid.block_offset small, laid'.block_offset small', shape.dataBlocks, shape.metaBlocks]
      rcases shape.log with log | none_left
      · rw [PmbOpts.dataOffset, log, ← PmbOpts.dataOffset]
      · have no_meta : ¬id < u64 0 := by simp [u64_of_lt]
        have no_data : ¬id < opts.dataBlocks hdrSize hdr := by omega
        simp only [no_data, none_left, no_meta, if_false]
    · rw [laid.dataNlba_eq, laid'.dataNlba_eq, shape.dataBlocks]
    · rw [laid.metaNlba_eq, laid'.metaNlba_eq, shape.metaBlocks]

end Layouts

-- a second open that succeeds lays the pool out as it was created exactly for options of the same shape; the block
-- sizes alone are compared with the header
theorem reopen_same_layout_iff {opts opts' : PmbOpts} {hdrSize addr addr' : Nat} {isPmem isPmem' : Bool}
    {b b' : Backend} (small : addr < 2 ^ 64) (small' : addr' < 2 ^ 64)
    (created : backendOpen opts addr hdrSize isPmem none = .ok b)
    (reopened : backendOpen opts' addr' hdrSize isPmem'
      (some (opts.mapArgs addr hdrSize isPmem).createdHdr) = .ok b') :
    SameLayout opts opts' b b' ↔
      SameShape opts opts' hdrSize (opts.mapArgs addr hdrSize isPmem).createdHdr :=
  (backendOpen_created created).same_iff (backendOpen_reopened reopened) small small'

def sampleOpts : PmbOpts where
  dataSize := 8192 + 128 * 1024 * 1024 + 3 * 4096
  metaSize := 2 * 4096
  writeLogEntries := 1
  maxKeyLen := 64
  maxValLen := 4000
  metaMaxKeyLen := 64
  metaMaxValLen := 4000
  syncType := .sync

def sampleHdr : PoolHdr := (sampleOpts.mapArgs samplePool.addr samplePool.hdrSize false).createdHdr

theorem sampleOpts_created : backendOpen sampleOpts samplePool.addr samplePool.hdrSize false none = .ok sampleBackend := by
  decide +kernel

theorem sampleOpts_reopened :
    backendOpen sampleOpts samplePool.addr samplePool.hdrSize false (some sampleHdr) = .ok sampleBackend := by
  decide +kernel

theorem reopen_same_layout_sample : SameLayout sampleOpts sampleOpts sampleBackend sampleBackend :=
  (reopen_same_layout_iff (by decide) (by decide) sampleOpts_created sampleOpts_reopened).mpr
    ⟨rfl, rfl, rfl, Or.inl rfl⟩

-- a shorter key moves every value, three log entries lose a data block; neither open fails
theorem reopen_other_layout :
    backendOpen sampleOpts samplePool.addr samplePool.hdrSize false none = .ok sampleBackend ∧
      (∃ b', backendOpen { sampleOpts with maxKeyLen := 32 } samplePool.addr samplePool.hdrSize false
          (some sampleHdr) = .ok b' ∧ ¬SameLayout sampleOpts { sampleOpts with maxKeyLen := 32 } sampleBackend b') ∧
      ∃ b', backendOpen { sampleOpts with writeLogEntries := 3 } samplePool.addr samplePool.hdrSize false
          (some sampleHdr) = .ok b' ∧
        ¬SameLayout sampleOpts { sampleOpts with writeLogEntries := 3 } sampleBackend b' := by
  have shorter : backendOpen { sampleOpts with maxKeyLen := 32 } samplePool.addr samplePool.hdrSize false
      (some sampleHdr) = .ok sampleBackend := by decide +kernel
  have moved : (backendOpen { sampleOpts with writeLogEntries := 3 } samplePool.addr samplePool.hdrSize false
      (some sampleHdr)).map Backend.dataNlba = .ok 2 := by decide +kernel
  refine ⟨sampleOpts_created, ⟨_, shorter, fun same => absurd same.value (by decide)⟩, ?_⟩
  cases opened : backendOpen { sampleOpts with writeLogEntries := 3 } samplePool.addr samplePool.hdrSize false
      (some sampleHdr) with
  | error e =>
    rw [opened] at moved
    cases moved
  | ok b' =>
    rw [opened] at moved
    refine ⟨b', rfl, fun same => ?_⟩
    have count := same.dataNlba
    rw [Except.ok.inj moved] at count
    exact absurd count (by decide)

end PmBackend
