import PmBackend.Geometry
import PmBackend.Model.Open

set_option autoImplicit false

namespace PmBackend

def PMB_MIN_POOL : Nat := 20 * 1024 * 1024

-- `roundup` without a limit on the numbers
def alignUp (x align : Nat) : Nat := (x + (align - 1)) / align * align

-- options as their types allow, and the file that NVML makes for them, mapped at `addr`
structure PmbOpts.NewFile (opts : PmbOpts) (addr hdrSize : Nat) : Prop where
  dataSize_lt : opts.dataSize < 2 ^ 64
  metaSize_lt : opts.metaSize < 2 ^ 64
  slots_lt : opts.writeLogEntries < 2 ^ 8
  maxKeyLen_lt : opts.maxKeyLen < 2 ^ 32
  maxValLen_lt : opts.maxValLen < 2 ^ 32
  metaMaxKeyLen_lt : opts.metaMaxKeyLen < 2 ^ 32
  metaMaxValLen_lt : opts.metaMaxValLen < 2 ^ 32
  -- `total_size` is a `size_t`, too
  min_pool : PMB_MIN_POOL ≤ u64 (opts.dataSize + opts.metaSize)
  mapped : addr + u64 (opts.dataSize + opts.metaSize) < 2 ^ 64
  -- `sizeof (struct _backend)`
  header_small : hdrSize ≤ PMB_MIN_POOL

def PmbOpts.blockBytes (opts : PmbOpts) : Nat :=
  alignUp (sizeofDataHdr + opts.maxKeyLen + opts.maxValLen) PMB_FORMAT_DATA_ALIGN

def PmbOpts.metaBlockBytes (opts : PmbOpts) : Nat :=
  alignUp (sizeofDataHdr + opts.metaMaxKeyLen + opts.metaMaxValLen) PMB_FORMAT_DATA_ALIGN

def PmbOpts.slotBytes (opts : PmbOpts) : Nat :=
  alignUp (TX_LOG_SIZE / opts.writeLogEntries) PMB_FORMAT_DATA_ALIGN

-- header page, log, data blocks and meta blocks one after the other, in numbers without a limit
structure Backend.ExactlyLaid (b : Backend) (opts : PmbOpts) (addr hdrSize : Nat) : Prop where
  bsize_eq : b.bsize = opts.blockBytes
  metaBsize_eq : b.metaBsize = opts.metaBlockBytes
  bsize_pos : 0 < b.bsize
  metaBsize_pos : 0 < b.metaBsize
  slots_eq : b.txSlotsCount = opts.writeLogEntries
  slotSize_eq : b.txSlotSize = opts.slotBytes
  txLog_eq : b.txLog = addr + alignUp hdrSize PMB_FORMAT_DATA_ALIGN
  dataArea_eq : b.dataArea = b.txLog + b.txSlotsCount * b.txSlotSize
  datasize_eq : b.dataArea + b.datasize = addr + opts.dataSize
  dataNlba_eq : b.dataNlba = b.datasize / b.bsize
  metaArea_eq : b.metaArea = b.dataArea + b.dataNlba * b.bsize
  metasize_eq : b.metaArea + b.metasize = addr + opts.dataSize + opts.metaSize
  metaNlba_eq : b.metaNlba = b.metasize / b.metaBsize
  inside : b.metaArea + b.metaNlba * b.metaBsize ≤ addr + opts.dataSize + opts.metaSize
  end_lt : addr + opts.dataSize + opts.metaSize < 2 ^ 64

-- the outcome of making a pool: an exact layout or a failed call, no fault
structure ExactOutcome (opts : PmbOpts) (addr hdrSize : Nat) (isPmem : Bool) : Prop where
  laid : ∀ b, backendOpen opts addr hdrSize isPmem none = .ok b → b.ExactlyLaid opts addr hdrSize
  no_fault : backendOpen opts addr hdrSize isPmem none ≠ .error .sigfpe

structure PmbOpts.Exact (opts : PmbOpts) (hdrSize : Nat) : Prop where
  some_slot : opts.writeLogEntries ≠ 0
  block_small : opts.blockBytes < 2 ^ 32
  metaBlock_small : opts.metaBlockBytes < 2 ^ 32
  total_small : opts.dataSize + opts.metaSize < 2 ^ 64
  log_fits : alignUp hdrSize PMB_FORMAT_DATA_ALIGN + opts.writeLogEntries * opts.slotBytes ≤ opts.dataSize

section Exact

variable {opts : PmbOpts} {addr hdrSize : Nat}

theorem roundup_eq {x : Nat} (small : x < 2 ^ 63) :
    roundup x PMB_FORMAT_DATA_ALIGN = alignUp x PMB_FORMAT_DATA_ALIGN := by
  unfold roundup alignUp PMB_FORMAT_DATA_ALIGN
  rw [u64_of_lt (by omega)]

theorem alignUp_ge (x : Nat) : x ≤ alignUp x PMB_FORMAT_DATA_ALIGN := by
  unfold alignUp PMB_FORMAT_DATA_ALIGN
  omega

theorem alignUp_lt (x : Nat) : alignUp x PMB_FORMAT_DATA_ALIGN < x + 4096 := by
  unfold alignUp PMB_FORMAT_DATA_ALIGN
  omega

theorem PmbOpts.NewFile.sizes (file : opts.NewFile addr hdrSize) (isPmem : Bool) :
    roundup (opts.mapArgs addr hdrSize isPmem).bsize PMB_FORMAT_DATA_ALIGN = opts.blockBytes ∧
      roundup (opts.mapArgs addr hdrSize isPmem).metaBsize PMB_FORMAT_DATA_ALIGN = opts.metaBlockBytes ∧
      roundup (opts.mapArgs addr hdrSize isPmem).txSlotSize PMB_FORMAT_DATA_ALIGN = opts.slotBytes ∧
      roundup hdrSize PMB_FORMAT_DATA_ALIGN = alignUp hdrSize PMB_FORMAT_DATA_ALIGN := by
  -- the lengths have 32 bits, so rounding up does not wrap in 64
  have key := file.maxKeyLen_lt
  have val := file.maxValLen_lt
  have metaKey := file.metaMaxKeyLen_lt
  have metaVal := file.metaMaxValLen_lt
  have header := file.header_small
  have slot := Nat.div_le_self TX_LOG_SIZE opts.writeLogEntries
  unfold PMB_MIN_POOL at header
  unfold TX_LOG_SIZE at slot
  refine ⟨roundup_eq ?_, roundup_eq ?_, roundup_eq ?_, roundup_eq (by omega)⟩
  · simp only [PmbOpts.mapArgs, sizeofDataHdr]
    omega
  · simp only [PmbOpts.mapArgs, sizeofDataHdr]
    omega
  · simp only [PmbOpts.mapArgs, TX_LOG_SIZE]
    omega

theorem PmbOpts.slotBytes_small (opts : PmbOpts) : opts.slotBytes < 2 ^ 32 := by
  have slot := Nat.div_le_self TX_LOG_SIZE opts.writeLogEntries
  have close := alignUp_lt (TX_LOG_SIZE / opts.writeLogEntries)
  unfold TX_LOG_SIZE at slot close
  unfold PmbOpts.slotBytes TX_LOG_SIZE
  omega

theorem PmbOpts.blockBytes_pos (opts : PmbOpts) : opts.blockBytes ≠ 0 ∧ opts.metaBlockBytes ≠ 0 := by
  have data := alignUp_ge (sizeofDataHdr + opts.maxKeyLen + opts.maxValLen)
  have metadata := alignUp_ge (sizeofDataHdr + opts.metaMaxKeyLen + opts.metaMaxValLen)
  unfold PmbOpts.blockBytes PmbOpts.metaBlockBytes
  simp only [sizeofDataHdr] at data metadata ⊢
  omega

theorem backendLayout_fails {args : MapArgs} {hdr : PoolHdr} {slotSize : Nat} {error : MapError}
    (failed : backendLayout args hdr slotSize = .error error) : error = .sigfpe := by
  unfold backendLayout at failed
  split at failed
  · cases failed
    rfl
  · cases failed

theorem u32_lt (n : Nat) : u32 n < 2 ^ 32 := by
  unfold u32
  exact Nat.mod_lt _ (by decide)

theorem PmbOpts.NewFile.opened (file : opts.NewFile addr hdrSize) (isPmem : Bool) (some_slot : opts.writeLogEntries ≠ 0) :
    backendOpen opts addr hdrSize isPmem none =
      backendLayout (opts.mapArgs addr hdrSize isPmem)
        ⟨u32 opts.blockBytes, u32 opts.metaBlockBytes, opts.writeLogEntries, u32 opts.slotBytes⟩ opts.slotBytes := by
  obtain ⟨data, metadata, slot, -⟩ := file.sizes isPmem
  obtain ⟨positive, meta_positive⟩ := opts.blockBytes_pos
  unfold backendOpen
  rw [if_neg some_slot]
  simp only [backendMapCommon, data, metadata, slot, positive, meta_positive, if_false]
  rfl

theorem PmbOpts.Exact.noWrap (exact : opts.Exact hdrSize) (file : opts.NewFile addr hdrSize) (isPmem : Bool) :
    (opts.mapArgs addr hdrSize isPmem).NoWrap := by
  obtain ⟨-, -, slot, header⟩ := file.sizes isPmem
  have total := file.mapped
  rw [u64_of_lt exact.total_small] at total
  refine ⟨?_, ?_⟩
  · simp only [PmbOpts.mapArgs]
    omega
  · rw [slot]
    simp only [PmbOpts.mapArgs, header]
    exact exact.log_fits

theorem PmbOpts.Exact.laid (exact : opts.Exact hdrSize) (file : opts.NewFile addr hdrSize) (isPmem : Bool) :
    ∃ b, backendOpen opts addr hdrSize isPmem none = .ok b ∧ b.ExactlyLaid opts addr hdrSize := by
  obtain ⟨data, metadata, slot, header⟩ := file.sizes isPmem
  obtain ⟨positive, meta_positive⟩ := opts.blockBytes_pos
  have opened := file.opened isPmem exact.some_slot
  rw [u32_of_lt exact.block_small, u32_of_lt exact.metaBlock_small, u32_of_lt opts.slotBytes_small] at opened
  have noWrap := exact.noWrap file isPmem
  have sizes : ¬(opts.blockBytes = 0 ∨ opts.metaBlockBytes = 0) := not_or.mpr ⟨positive, meta_positive⟩
  obtain ⟨b, laid⟩ : ∃ b, backendLayout (opts.mapArgs addr hdrSize isPmem)
      ⟨opts.blockBytes, opts.metaBlockBytes, opts.writeLogEntries, opts.slotBytes⟩ opts.slotBytes = .ok b := by
    unfold backendLayout
    rw [if_neg sizes]
    exact ⟨_, rfl⟩
  have mapped : b.Mapped (opts.mapArgs addr hdrSize isPmem) := backendLayout_mapped noWrap (by rw [slot]; exact laid)
  obtain ⟨bsize, metaBsize, slots, slotSize⟩ := backendLayout_fields laid
  simp only at bsize metaBsize slots slotSize
  have txLog := mapped.txLog_eq
  have dataArea := mapped.dataArea_eq
  rw [slot] at dataArea
  simp only [PmbOpts.mapArgs, header] at txLog dataArea
  have metaEnd := mapped.metaEnd
  have metasize := mapped.metasize_eq
  have total := mapped.end_lt
  simp only [PmbOpts.mapArgs] at metasize
  refine ⟨b, opened.trans laid, ⟨bsize, metaBsize, mapped.bsize_pos, mapped.metaBsize_pos, slots, slotSize, txLog,
    by rw [slots, slotSize, dataArea], mapped.datasize_eq, mapped.dataNlba_eq, mapped.metaArea_eq, metasize,
    mapped.metaNlba_eq, ?_, ?_⟩⟩
  · omega
  · omega

-- making a pool is exact, or fails, just for options whose rounded block sizes have 32 bits and whose data area holds
-- the header and the log
theorem new_pool_exact_iff (file : opts.NewFile addr hdrSize) (isPmem : Bool) :
    ExactOutcome opts addr hdrSize isPmem ↔ opts.Exact hdrSize := by
  constructor
  · intro outcome
    by_cases no_slot : opts.writeLogEntries = 0
    · -- the division of the size of the log
      exact absurd (if_pos no_slot) outcome.no_fault
    · have opened := file.opened isPmem no_slot
      cases laid : backendLayout (opts.mapArgs addr hdrSize isPmem)
        ⟨u32 opts.blockBytes, u32 opts.metaBlockBytes, opts.writeLogEntries, u32 opts.slotBytes⟩ opts.slotBytes with
      | error error =>
        rw [laid, backendLayout_fails laid] at opened
        exact absurd opened outcome.no_fault
      | ok b =>
        have exact := outcome.laid b (opened.trans laid)
        obtain ⟨bsize, metaBsize, -, -⟩ := backendLayout_fields laid
        simp only [exact.bsize_eq, exact.metaBsize_eq] at bsize metaBsize
        have end_lt := exact.end_lt
        have dataArea := exact.dataArea_eq
        have datasize := exact.datasize_eq
        rw [exact.slots_eq, exact.slotSize_eq, exact.txLog_eq] at dataArea
        refine ⟨no_slot, ?_, ?_, ?_, ?_⟩
        · rw [bsize]
          exact u32_lt _
        · rw [metaBsize]
          exact u32_lt _
        · omega
        · omega
  · intro exact
    obtain ⟨b, opened, laid⟩ := exact.laid file isPmem
    refine ⟨fun other opened' => ?_, fun fault => ?_⟩
    · rw [opened] at opened'
      cases opened'
      exact laid
    · rw [opened] at fault
      cases fault

end Exact

-- keys of 64 bytes, values of 4000, and the size of the data area left open
def smallOpts (dataSize : Nat) : PmbOpts where
  dataSize := dataSize
  metaSize := 64 * 1024 * 1024
  writeLogEntries := 1
  maxKeyLen := 64
  maxValLen := 4000
  metaMaxKeyLen := 64
  metaMaxValLen := 4000
  syncType := .sync

theorem new_pool_exact_iff_sample : ExactOutcome (smallOpts 268435456) 0x7f0000000000 8192 false := by
  have file : (smallOpts 268435456).NewFile 0x7f0000000000 8192 :=
    ⟨by decide, by decide, by decide, by decide, by decide, by decide, by decide, by decide +kernel, by decide +kernel,
      by decide⟩
  exact (new_pool_exact_iff file false).mpr
    ⟨by decide, by decide +kernel, by decide +kernel, by decide, by decide +kernel⟩

-- a data area of 64 MiB cannot hold the log of 128 MiB, but the pool is made: the sizes have wrapped, and the meta
-- area is inside the log. Block sizes of 4 GiB make the division fault
theorem log_beyond_pool :
    (smallOpts 67108864).NewFile 0x7f0000000000 8192 ∧
      (∃ b, backendOpen (smallOpts 67108864) 0x7f0000000000 8192 false none = .ok b ∧
        b.dataNlba = 4503599627354110 ∧ b.txLog < b.metaArea ∧ b.metaArea < b.dataArea) ∧
      ¬ExactOutcome (smallOpts 67108864) 0x7f0000000000 8192 false ∧
      backendOpen { smallOpts 268435456 with maxValLen := 4294967200 } 0x7f0000000000 8192 false none =
        .error .sigfpe := by
  have made : (backendOpen (smallOpts 67108864) 0x7f0000000000 8192 false none).map
      (fun b => (b.dataNlba, b.txLog, b.dataArea, b.metaArea)) =
        .ok (4503599627354110, 139637976735744, 139638110953472, 139638043836416) := by decide +kernel
  cases opened : backendOpen (smallOpts 67108864) 0x7f0000000000 8192 false none with
  | error error =>
    rw [opened] at made
    cases made
  | ok b =>
    rw [opened] at made
    simp only [Except.map, Except.ok.injEq, Prod.mk.injEq] at made
    obtain ⟨blocks, txLog, dataArea, metaArea⟩ := made
    refine ⟨⟨by decide, by decide, by decide, by decide, by decide, by decide, by decide, by decide +kernel,
      by decide +kernel, by decide⟩, ⟨b, rfl, blocks, ?_, ?_⟩, fun outcome => ?_, by decide +kernel⟩
    · rw [txLog, metaArea]
      decide
    · rw [metaArea, dataArea]
      decide
    · -- the data blocks would have to end where the meta area starts
      have after := (outcome.laid b opened).metaArea_eq
      rw [metaArea, dataArea] at after
      omega

end PmBackend
