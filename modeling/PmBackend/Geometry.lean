import Mathlib.Order.CompletePartialOrder
import PmBackend.Model.Backend

set_option autoImplicit false

namespace PmBackend

open ByteMemory

def Backend.blockSize (b : Backend) (id : Nat) : Nat := if id < b.dataNlba then b.bsize else b.metaBsize

-- the sums and the difference of `_backend_map_common` are the exact ones
structure MapArgs.NoWrap (args : MapArgs) : Prop where
  pool : args.addr + args.poolsize + args.metaPoolsize < 2 ^ 64
  log : roundup args.hdrSize PMB_FORMAT_DATA_ALIGN +
    args.txSlotsCount * roundup args.txSlotSize PMB_FORMAT_DATA_ALIGN ≤ args.poolsize

-- the geometry of a pool mapped without wrap, with its two regions laid out one after the other
structure Backend.Mapped (b : Backend) (args : MapArgs) : Prop where
  bsize_pos : 0 < b.bsize
  metaBsize_pos : 0 < b.metaBsize
  txLog_eq : b.txLog = args.addr + roundup args.hdrSize PMB_FORMAT_DATA_ALIGN
  dataArea_eq : b.dataArea =
    b.txLog + args.txSlotsCount * roundup args.txSlotSize PMB_FORMAT_DATA_ALIGN
  datasize_eq : b.dataArea + b.datasize = args.addr + args.poolsize
  dataNlba_eq : b.dataNlba = b.datasize / b.bsize
  metaArea_eq : b.metaArea = b.dataArea + b.dataNlba * b.bsize
  metasize_eq : b.metaArea + b.metasize = args.addr + args.poolsize + args.metaPoolsize
  metaNlba_eq : b.metaNlba = b.metasize / b.metaBsize
  end_lt : b.metaArea + b.metasize < 2 ^ 64

theorem backendDirect_known {b : Backend} (fit : b.dataNlba + b.metaNlba < 2 ^ 64) (id : Nat) :
    (∃ obj, backendDirect b id = some obj) ↔ id < b.dataNlba + b.metaNlba := by
  have count := u64_of_lt fit
  unfold backendDirect
  rw [count]
  by_cases data : id < b.dataNlba
  · have known : id < b.dataNlba + b.metaNlba := by omega
    simp [data, known]
  · by_cases known : id < b.dataNlba + b.metaNlba <;> simp [data, known]

theorem sub64_exact {a b c : Nat} (sum : b + c = a) (small : a < 2 ^ 64) : sub64 a b = c := by
  rw [sub64_of_le (by omega) small]
  omega

theorem backendLayout_fields {args : MapArgs} {hdr : PoolHdr} {slotSize : Nat} {b : Backend}
    (laid : backendLayout args hdr slotSize = .ok b) :
    b.bsize = hdr.bsize ∧ b.metaBsize = hdr.metaBsize ∧ b.txSlotsCount = hdr.txSlotsCount ∧
      b.txSlotSize = hdr.txSlotSize := by
  unfold backendLayout at laid
  split at laid
  · cases laid
  · simp only [Except.ok.injEq] at laid
    simp only [← laid, and_self]

theorem backendLayout_mapped {args : MapArgs} {hdr : PoolHdr} {b : Backend} (exact : args.NoWrap)
    (laid : backendLayout args hdr (roundup args.txSlotSize PMB_FORMAT_DATA_ALIGN) = .ok b) :
    b.Mapped args := by
  obtain ⟨pool, log⟩ := exact
  obtain ⟨slotSize, slotSize_eq⟩ : ∃ k, roundup args.txSlotSize PMB_FORMAT_DATA_ALIGN = k := ⟨_, rfl⟩
  rw [slotSize_eq] at laid log
  unfold backendLayout at laid
  split at laid
  · cases laid
  · next sizes =>
    simp only [Except.ok.injEq] at laid
    obtain ⟨bsize, metaBsize⟩ := not_or.mp sizes
    have slots : u64 (args.txSlotsCount * slotSize) = args.txSlotsCount * slotSize :=
      u64_of_lt (by omega)
    have txLog := u64_of_lt
      (show args.addr + roundup args.hdrSize PMB_FORMAT_DATA_ALIGN < 2 ^ 64 by omega)
    have dataArea := u64_of_lt (show args.addr + roundup args.hdrSize PMB_FORMAT_DATA_ALIGN +
      args.txSlotsCount * slotSize < 2 ^ 64 by omega)
    have dataEnd := u64_of_lt (show args.addr + args.poolsize < 2 ^ 64 by omega)
    have metaEnd := u64_of_lt pool
    rw [slots, txLog, dataArea, dataEnd, metaEnd] at laid
    obtain ⟨datasize, size_eq⟩ := Nat.exists_eq_add_of_le
      (show args.addr + roundup args.hdrSize PMB_FORMAT_DATA_ALIGN + args.txSlotsCount * slotSize ≤
        args.addr + args.poolsize by omega)
    rw [sub64_exact size_eq.symm (by omega)] at laid
    have blocks := Nat.div_mul_le_self datasize hdr.bsize
    rw [u64_of_lt (show datasize / hdr.bsize * hdr.bsize < 2 ^ 64 by omega),
      u64_of_lt (by omega)] at laid
    obtain ⟨metasize, metasize_eq⟩ := Nat.exists_eq_add_of_le
      (show args.addr + roundup args.hdrSize PMB_FORMAT_DATA_ALIGN + args.txSlotsCount * slotSize +
        datasize / hdr.bsize * hdr.bsize ≤ args.addr + args.poolsize + args.metaPoolsize by omega)
    rw [sub64_exact metasize_eq.symm pool] at laid
    subst laid
    exact ⟨Nat.pos_of_ne_zero bsize, Nat.pos_of_ne_zero metaBsize, rfl, by rw [slotSize_eq],
      size_eq.symm, rfl, rfl, metasize_eq.symm, rfl, by simp only; omega⟩

theorem backendMapCommon_mapped {args : MapArgs} {hdr : Option PoolHdr} {b : Backend}
    (exact : args.NoWrap) (mapped : backendMapCommon args hdr = .ok b) : b.Mapped args := by
  unfold backendMapCommon at mapped
  cases hdr with
  | none =>
    simp only at mapped
    split at mapped
    · cases mapped
    · split at mapped
      · cases mapped
      · exact backendLayout_mapped exact mapped
  | some hdr =>
    simp only at mapped
    split at mapped
    · cases mapped
    · split at mapped
      · cases mapped
      · exact backendLayout_mapped exact mapped

section Regions

variable {b : Backend} {args : MapArgs}

theorem Backend.Mapped.dataEnd (mapped : b.Mapped args) :
    b.dataArea + b.dataNlba * b.bsize = b.metaArea := mapped.metaArea_eq.symm

theorem Backend.Mapped.metaEnd (mapped : b.Mapped args) :
    b.metaArea + b.metaNlba * b.metaBsize ≤ b.metaArea + b.metasize := by
  have := Nat.div_mul_le_self b.metasize b.metaBsize
  rw [mapped.metaNlba_eq]
  omega

theorem Backend.Mapped.ids_lt (mapped : b.Mapped args) : b.dataNlba + b.metaNlba < 2 ^ 64 := by
  have dataBlocks := Nat.le_mul_of_pos_right b.dataNlba mapped.bsize_pos
  have metaBlocks := Nat.le_mul_of_pos_right b.metaNlba mapped.metaBsize_pos
  have := mapped.dataEnd
  have := mapped.metaEnd
  have := mapped.end_lt
  omega

theorem Backend.Mapped.direct_data (mapped : b.Mapped args) {id : Nat} (region : id < b.dataNlba) :
    backendDirect b id = some (b.dataArea + id * b.bsize) := by
  have := Nat.mul_le_mul_right b.bsize (Nat.le_of_lt region)
  have := mapped.dataEnd
  have := mapped.end_lt
  simp only [backendDirect, region, if_true]
  rw [u64_of_lt (n := id * b.bsize) (by omega), u64_of_lt (by omega)]

theorem Backend.Mapped.direct_meta (mapped : b.Mapped args) {k : Nat} (region : k + 1 < b.metaNlba) :
    backendDirect b (b.dataNlba + k + 1) = some (b.metaArea + k * b.metaBsize) := by
  -- past the first id of the meta region the block is one before its place
  have count := mapped.ids_lt
  have := Nat.mul_le_mul_right b.metaBsize (show k ≤ b.metaNlba by omega)
  have := mapped.metaEnd
  have := mapped.end_lt
  have high : ¬b.dataNlba + k + 1 < b.dataNlba := by omega
  have known : b.dataNlba + k + 1 < b.dataNlba + b.metaNlba := by omega
  simp only [backendDirect, high, if_false, u64_of_lt count, known, if_true]
  rw [sub64_exact (show b.dataNlba + (k + 1) = b.dataNlba + k + 1 by omega) (by omega),
    sub64_exact (show 1 + k = k + 1 by omega) (by omega),
    u64_of_lt (n := k * b.metaBsize) (by omega), u64_of_lt (by omega)]

theorem u64_negative {size : Nat} (positive : 0 < size) (small : size < 2 ^ 64) :
    u64 ((2 ^ 64 - 1) * size) = 2 ^ 64 - size := by
  obtain ⟨k, rfl⟩ : ∃ k, size = k + 1 := ⟨size - 1, by omega⟩
  have split : (2 ^ 64 - 1) * (k + 1) = (2 ^ 64 - (k + 1)) + k * 2 ^ 64 := by omega
  unfold u64
  rw [split, Nat.add_mul_mod_self_right]
  exact Nat.mod_eq_of_lt (by omega)

theorem Backend.Mapped.direct_first_meta (mapped : b.Mapped args) (some_meta : 0 < b.metaNlba) :
    backendDirect b b.dataNlba = some (u64 (b.metaArea + (2 ^ 64 - b.metaBsize))) := by
  -- the first id of the meta region is one block before the region
  have count := mapped.ids_lt
  have := Nat.mul_le_mul_right b.metaBsize some_meta
  have := mapped.metaEnd
  have := mapped.end_lt
  have known : b.dataNlba < b.dataNlba + b.metaNlba := by omega
  simp only [backendDirect, lt_irrefl, if_false, u64_of_lt count, known, if_true]
  have back : sub64 (sub64 b.dataNlba b.dataNlba) 1 = 2 ^ 64 - 1 := by
    unfold sub64
    omega
  rw [back, u64_negative mapped.metaBsize_pos (by omega)]

end Regions

-- the block of an id lies in the area of its region
def Backend.InRegion (b : Backend) (id : Nat) : Prop :=
  ∃ addr, backendDirect b id = some addr ∧
    (id < b.dataNlba → b.dataArea ≤ addr ∧ addr + b.bsize ≤ b.metaArea) ∧
    (b.dataNlba ≤ id → b.metaArea ≤ addr ∧ addr + b.metaBsize ≤ b.metaArea + b.metasize)

def Backend.Apart (b : Backend) (i j : Nat) : Prop :=
  ∀ addr addr', backendDirect b i = some addr → backendDirect b j = some addr' →
    Disjoint (span addr (b.blockSize i)) (span addr' (b.blockSize j))

theorem span_disjoint {addr len addr' len' : Nat} (apart : addr + len ≤ addr' ∨ addr' + len' ≤ addr) :
    Disjoint (span addr len) (span addr' len') := by
  rw [Set.disjoint_left]
  intro x inside inside'
  simp only [mem_span] at inside inside'
  omega

section Regions

variable {b : Backend} {args : MapArgs}

theorem Backend.Mapped.inRegion_iff (mapped : b.Mapped args) {id : Nat}
    (known : id < b.dataNlba + b.metaNlba) : b.InRegion id ↔ id ≠ b.dataNlba := by
  have dataEnd := mapped.dataEnd
  have metaEnd := mapped.metaEnd
  have := mapped.end_lt
  rcases lt_trichotomy id b.dataNlba with data | first | later
  · have top := Nat.mul_le_mul_right b.bsize (show id + 1 ≤ b.dataNlba from data)
    rw [Nat.succ_mul] at top
    refine iff_of_true ⟨_, mapped.direct_data data, fun _ => ⟨by omega, by omega⟩, fun high => ?_⟩ (by omega)
    omega
  · refine iff_of_false ?_ (by omega)
    rintro ⟨addr, direct, -, region⟩
    rw [first, mapped.direct_first_meta (by omega)] at direct
    have inside := region (by omega)
    have := mapped.metaBsize_pos
    have := Nat.mul_le_mul_right b.metaBsize (show 1 ≤ b.metaNlba by omega)
    cases direct
    unfold u64 at inside
    omega
  · obtain ⟨k, rfl⟩ : ∃ k, id = b.dataNlba + k + 1 := ⟨id - b.dataNlba - 1, by omega⟩
    have top := Nat.mul_le_mul_right b.metaBsize (show k + 1 ≤ b.metaNlba by omega)
    rw [Nat.succ_mul] at top
    refine iff_of_true ⟨_, mapped.direct_meta (by omega), fun data => ?_, fun _ => ⟨by omega, by omega⟩⟩ (by omega)
    omega

theorem block_step (size : Nat) {i j : Nat} (less : i < j) : i * size + size ≤ j * size := by
  have := Nat.mul_le_mul_right size (show i + 1 ≤ j from less)
  rwa [Nat.succ_mul] at this

theorem Backend.Mapped.apart_of_lt (mapped : b.Mapped args) {i j : Nat} (less : i < j)
    (known : j < b.dataNlba + b.metaNlba) (i_ne : i ≠ b.dataNlba) (j_ne : j ≠ b.dataNlba) :
    b.Apart i j := by
  intro addr addr' direct direct'
  apply span_disjoint
  left
  rcases lt_or_gt_of_ne i_ne with data | beyond
  · rw [mapped.direct_data data] at direct
    cases direct
    simp only [blockSize, data, if_true]
    rcases lt_or_gt_of_ne j_ne with data' | beyond'
    · rw [mapped.direct_data data'] at direct'
      cases direct'
      have := block_step b.bsize less
      omega
    · obtain ⟨k, rfl⟩ : ∃ k, j = b.dataNlba + k + 1 := ⟨j - b.dataNlba - 1, by omega⟩
      rw [mapped.direct_meta (by omega)] at direct'
      cases direct'
      have := block_step b.bsize data
      have := mapped.dataEnd
      omega
  · obtain ⟨k, rfl⟩ : ∃ k, i = b.dataNlba + k + 1 := ⟨i - b.dataNlba - 1, by omega⟩
    obtain ⟨l, rfl⟩ : ∃ l, j = b.dataNlba + l + 1 := ⟨j - b.dataNlba - 1, by omega⟩
    rw [mapped.direct_meta (by omega)] at direct direct'
    cases direct
    cases direct'
    have high : ¬b.dataNlba + k + 1 < b.dataNlba := by omega
    have := block_step b.metaBsize (show k < l by omega)
    simp only [blockSize, high, if_false]
    omega

-- two blocks are apart and in their regions when neither id is the first one of the meta region
theorem blocks_apart_iff {args : MapArgs} {hdr : Option PoolHdr} {b : Backend}
    (exact : args.NoWrap) (mapped : backendMapCommon args hdr = .ok b) {i j : Nat} (distinct : i ≠ j)
    (i_known : i < b.dataNlba + b.metaNlba) (j_known : j < b.dataNlba + b.metaNlba) :
    (b.Apart i j ∧ b.InRegion i ∧ b.InRegion j) ↔ (i ≠ b.dataNlba ∧ j ≠ b.dataNlba) := by
  have geometry := backendMapCommon_mapped exact mapped
  rw [geometry.inRegion_iff i_known, geometry.inRegion_iff j_known]
  refine ⟨fun apart => apart.2, fun others => ⟨?_, others⟩⟩
  rcases lt_or_gt_of_ne distinct with less | greater
  · exact geometry.apart_of_lt less j_known others.1 others.2
  · intro addr addr' direct direct'
    exact (geometry.apart_of_lt greater i_known others.2 others.1 addr' addr direct' direct).symm

-- an opened handle has the null block, and its ids fit 64 bits (`Backend.Mapped.ids_lt`)
structure Handle.Ids (h : Handle) : Prop where
  null_block : 1 ≤ h.totalObjsCount
  fit : h.totalObjsCount + h.metaObjsCount < 2 ^ 64

-- one transaction slot, three data blocks and two meta blocks
def samplePool : MapArgs where
  addr := 0x7f0000000000
  hdrSize := 8192
  isPmem := false
  poolsize := 8192 + 128 * 1024 * 1024 + 3 * 4096
  metaPoolsize := 2 * 4096
  bsize := 32 + 64 + 4000
  metaBsize := 32 + 64 + 4000
  txSlotsCount := 1
  txSlotSize := 128 * 1024 * 1024
  syncType := .sync

def sampleBackend : Backend where
  bsize := 4096
  metaBsize := 4096
  isPmem := false
  datasize := 12288
  metasize := 8192
  dataNlba := 3
  metaNlba := 2
  txSlotsCount := 1
  txSlotSize := 134217728
  syncType := .sync
  addr := 139637976727552
  txLog := 139637976735744
  dataArea := 139638110953472
  metaArea := 139638110965760

-- fletcher-64 over the 32-bit words of a range: the running sum, and the sum of its values
def fletcher64 (bytes : List UInt8) : UInt64 :=
  let sums := (List.range (bytes.length / 4)).foldl
    (fun (sums : Nat × Nat) i =>
      let low := u32 (sums.1 + decode ((bytes.drop (4 * i)).take 4))
      (low, u32 (sums.2 + low))) (0, 0)
  UInt64.ofNat (sums.2 * 2 ^ 32 + sums.1)

def sampleHandle : Handle where
  backend := sampleBackend
  maxKeyLen := 64
  maxValLen := 4000
  metaMaxKeyLen := 64
  metaMaxValLen := 4000
  txSlotsCount := 1
  checksum := fletcher64

-- the same pool without a meta region
def flatPool : MapArgs := { samplePool with metaPoolsize := 0 }

def flatBackend : Backend := { sampleBackend with metasize := 0, metaNlba := 0 }

def nonzeroFletcher64 (bytes : List UInt8) : UInt64 :=
  if fletcher64 bytes = 0 then 1 else fletcher64 bytes

def flatHandle : Handle := { sampleHandle with backend := flatBackend, checksum := nonzeroFletcher64 }

theorem flatPool_mapped : backendMapCommon flatPool none = .ok flatBackend := by decide +kernel

theorem flatPool_noWrap : flatPool.NoWrap := ⟨by decide +kernel, by decide +kernel⟩

theorem flatHandle_nonzero (bytes : List UInt8) : flatHandle.checksum bytes ≠ 0 := by
  change nonzeroFletcher64 bytes ≠ 0
  unfold nonzeroFletcher64
  split
  · decide
  · assumption

theorem samplePool_mapped : backendMapCommon samplePool none = .ok sampleBackend := by decide +kernel

theorem samplePool_noWrap : samplePool.NoWrap := ⟨by decide +kernel, by decide +kernel⟩

theorem blocks_apart_sample : sampleBackend.Apart 1 2 := by
  have apart := blocks_apart_iff samplePool_noWrap samplePool_mapped
    (show 1 ≠ 2 by decide) (by decide) (by decide)
  exact (apart.mpr ⟨by decide, by decide⟩).1

-- the last data block and the first meta block share their address
theorem blocks_collide_sample :
    ∃ b, backendMapCommon samplePool none = .ok b ∧ samplePool.NoWrap ∧ b.dataNlba = 3 ∧
      b.metaNlba = 2 ∧ backendDirect b 2 = backendDirect b 3 ∧ ¬b.Apart 2 3 ∧ ¬b.InRegion 3 := by
  have collide : backendDirect sampleBackend 2 = some 139638110961664 ∧
      backendDirect sampleBackend 3 = some 139638110961664 := by decide +kernel
  refine ⟨sampleBackend, samplePool_mapped, samplePool_noWrap, rfl, rfl, by rw [collide.1, collide.2], ?_, ?_⟩
  · intro apart
    have := apart _ _ collide.1 collide.2
    rw [Set.disjoint_left] at this
    exact @this 139638110961664 (by simp [Backend.blockSize, sampleBackend])
      (by simp [Backend.blockSize, sampleBackend])
  · rintro ⟨addr, direct, -, region⟩
    rw [collide.2] at direct
    cases direct
    have := region (by decide)
    simp [sampleBackend] at this

end Regions

end PmBackend
