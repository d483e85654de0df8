import PmBackend.RecoveryLists
import PmBackend.SlotFrames

set_option autoImplicit false

namespace PmBackend

open ByteMemory

-- the blocks of distinct ids do not overlap, and the longest object fits its block
structure Handle.BlockLayout (h : Handle) : Prop extends h.LogLayout, h.Ids where
  blocks_apart : ∀ i j, i ≠ j → h.backend.Apart i j
  data_room : 32 + h.maxKeyLen + h.maxValLen ≤ h.backend.bsize
  meta_room : 32 + h.metaMaxKeyLen + h.metaMaxValLen ≤ h.backend.metaBsize
  -- the sizes are `uint32_t` in the header of the pool
  bsize_small : h.backend.bsize < 2 ^ 32
  metaBsize_small : h.backend.metaBsize < 2 ^ 32

-- every block has room for its header; blocks may overlap, and the longest object may be longer than its block
structure Handle.HeaderRooms (h : Handle) : Prop extends h.LogLayout, h.Ids where
  header_room : ∀ id, 32 ≤ h.backend.blockSize id

def Handle.blockAt (h : Handle) (id : Nat) : Set Nat :=
  {x | ∃ obj, backendDirect h.backend id = some obj ∧ x ∈ span obj (h.backend.blockSize id)}

theorem blockAt_span {h : Handle} {id obj : Nat} (direct : backendDirect h.backend id = some obj) :
    h.blockAt id = span obj (h.backend.blockSize id) := by
  ext x
  constructor
  · rintro ⟨addr, known, inside⟩
    rw [direct] at known
    cases known
    exact inside
  · exact fun inside => ⟨obj, direct, inside⟩

def Handle.logArea (h : Handle) : Set Nat := {x | x < h.logEnd}

-- no other block overlaps the block
def Handle.Alone (h : Handle) (id : Nat) : Prop := ∀ j, j ≠ id → h.backend.Apart j id

-- the header of a block has a checksum
def Handle.Live (h : Handle) (m : Mem) (id : Nat) : Prop :=
  ∃ obj, backendDirect h.backend id = some obj ∧ flch64 m obj ≠ 0

-- the lengths in the header of a block stay within the block
def Handle.Sane (h : Handle) (m : Mem) (id : Nat) : Prop :=
  ∀ obj, backendDirect h.backend id = some obj → 32 + keyLen m obj + valLen m obj ≤ h.backend.blockSize id

def Untouched (h : Handle) (id : Nat) (m m' : Mem) : Prop := ∀ x ∈ h.blockAt id, m' x = m x

theorem Backend.Mapped.blockLayout {h : Handle} {args : MapArgs} (mapped : h.backend.Mapped args)
    (log : h.LogLayout) (no_meta : h.backend.metaNlba = 0) (null_block : 1 ≤ h.backend.dataNlba)
    (data_room : 32 + h.maxKeyLen + h.maxValLen ≤ h.backend.bsize)
    (meta_room : 32 + h.metaMaxKeyLen + h.metaMaxValLen ≤ h.backend.metaBsize)
    (bsize_small : h.backend.bsize < 2 ^ 32) (metaBsize_small : h.backend.metaBsize < 2 ^ 32) :
    h.BlockLayout := by
  -- a pool without a meta region has this layout; with one the first meta block overlaps a data block
  have fit := mapped.ids_lt
  refine ⟨log, ⟨null_block, fit⟩, fun i j distinct addr addr' direct direct' => ?_, data_room, meta_room,
    bsize_small, metaBsize_small⟩
  have known := (backendDirect_known fit i).mp ⟨addr, direct⟩
  have known' := (backendDirect_known fit j).mp ⟨addr', direct'⟩
  rcases lt_or_gt_of_ne distinct with less | greater
  · exact mapped.apart_of_lt less known' (by omega) (by omega) addr addr' direct direct'
  · exact (mapped.apart_of_lt greater known (by omega) (by omega) addr' addr direct' direct).symm

theorem flatHandle_layout : flatHandle.BlockLayout :=
  Backend.Mapped.blockLayout (backendMapCommon_mapped flatPool_noWrap flatPool_mapped)
    (Backend.Mapped.logLayout flatPool_noWrap flatPool_mapped rfl (by decide) (by decide)
      (by decide +kernel) (by decide +kernel) (Or.inl rfl))
    rfl (by decide) (by decide) (by decide) (by decide) (by decide)

def twoSlotPool : MapArgs := { flatPool with txSlotsCount := 2, txSlotSize := 64 * 1024 * 1024 }

-- with a checksum that does not look at its bytes, so that replay accepts a commit
def twoSlotHandle : Handle :=
  { flatHandle with
    backend := { flatBackend with txSlotsCount := 2, txSlotSize := 64 * 1024 * 1024 }
    txSlotsCount := 2
    checksum := fun _ => 1 }

theorem twoSlotHandle_layout : twoSlotHandle.BlockLayout := by
  have no_wrap : twoSlotPool.NoWrap := ⟨by decide +kernel, by decide +kernel⟩
  have mapped : backendMapCommon twoSlotPool none = .ok twoSlotHandle.backend := by decide +kernel
  exact Backend.Mapped.blockLayout (backendMapCommon_mapped no_wrap mapped)
    (Backend.Mapped.logLayout no_wrap mapped rfl (by decide) (by decide) (by decide +kernel)
      (by decide +kernel) (Or.inl rfl))
    rfl (by decide) (by decide) (by decide) (by decide) (by decide)

-- the flat pool without an object, after it was opened again
def flatStore : Store :=
  { zeroStore with
    objsList := some ⟨0, 0, 0, []⟩
    freeList := some ⟨2, 1, 2, []⟩
    metaObjsList := some ⟨0, 0, 0, []⟩
    metaFreeList := some ⟨0, 0, 0, []⟩
    txSlotsList := some ⟨1, 1, 1, []⟩ }

def twoSlotStore : Store := { flatStore with txSlotsList := some ⟨2, 1, 2, []⟩ }

theorem flatStore_free : ListOf flatStore.freeList (Finset.Icc 1 2) := by
  have created : caslistNew 1 2 = flatStore.freeList := by decide +kernel
  rw [← created]
  exact caslistNew_spec (le_refl 1) (by decide) (by decide)

theorem flatStore_metaFree : ListOf flatStore.metaFreeList ∅ := by
  have created : caslistNew 0 0 = flatStore.metaFreeList := by decide +kernel
  rw [← created]
  exact caslistNew_empty

-- the flat pool with a transaction under way in its only slot
def begunStore (h : Handle) : Store := (pmbTxBegin h flatStore).1

section Blocks

variable {h : Handle} {m m' m'' : Mem}

theorem Handle.BlockLayout.room (layout : h.BlockLayout) (id : Nat) : 32 ≤ h.backend.blockSize id := by
  have := layout.data_room
  have := layout.meta_room
  unfold Backend.blockSize
  split <;> omega

theorem Handle.BlockLayout.headerRooms (layout : h.BlockLayout) : h.HeaderRooms :=
  { layout with header_room := layout.room }

theorem Handle.BlockLayout.known (layout : h.BlockLayout) {id : Nat}
    (known : id < h.totalObjsCount + h.metaObjsCount) : ∃ obj, backendDirect h.backend id = some obj :=
  (backendDirect_known layout.fit id).mpr known

theorem Untouched.refl (id : Nat) (m : Mem) : Untouched h id m m := fun _ _ => rfl

theorem Untouched.trans {id : Nat} (first : Untouched h id m m') (second : Untouched h id m' m'') :
    Untouched h id m m'' := fun x inside => (second x inside).trans (first x inside)

theorem ChangedIn.others_untouched (layout : h.LogLayout) {j : Nat} (alone : h.Alone j)
    (changed : ChangedIn (h.blockAt j ∪ h.logArea) m m') {i : Nat} (other : i ≠ j) : Untouched h i m m' := by
  rintro x ⟨obj, direct, inside⟩
  apply changed
  rintro (⟨obj', direct', inside'⟩ | log)
  · exact (Set.disjoint_left.mp (alone i other obj obj' direct direct')) inside inside'
  · have above := layout.blocks_above i obj direct
    simp only [mem_span] at inside
    simp only [Handle.logArea, Set.mem_ofPred_eq] at log
    omega

theorem ChangedIn.untouched (layout : h.BlockLayout) {j : Nat}
    (changed : ChangedIn (h.blockAt j ∪ h.logArea) m m') {i : Nat} (other : i ≠ j) : Untouched h i m m' :=
  ChangedIn.others_untouched layout.toLogLayout (fun k different => layout.blocks_apart k j different) changed other

theorem ChangedIn.blocks_untouched (layout : h.LogLayout) (changed : ChangedIn h.logArea m m') (i : Nat) :
    Untouched h i m m' := by
  rintro x ⟨obj, direct, inside⟩
  apply changed
  have above := layout.blocks_above i obj direct
  simp only [mem_span] at inside
  simp only [Handle.logArea, Set.mem_ofPred_eq]
  omega

theorem ChangedIn.log_untouched (layout : h.BlockLayout) (changed : ChangedIn h.logArea m m') (i : Nat) :
    Untouched h i m m' := ChangedIn.blocks_untouched layout.toLogLayout changed i

theorem Untouched.word {id obj offset width : Nat} (same : Untouched h id m m')
    (direct : backendDirect h.backend id = some obj) (inside : offset + width ≤ h.backend.blockSize id) :
    m'.word (obj + offset) width = m.word (obj + offset) width := by
  apply word_congr
  intro x lower upper
  refine same x ⟨obj, direct, ?_⟩
  simp only [mem_span]
  omega

theorem Untouched.words {id obj : Nat} (same : Untouched h id m m')
    (direct : backendDirect h.backend id = some obj) (room : 32 ≤ h.backend.blockSize id) :
    flch64 m' obj = flch64 m obj ∧ objectId m' obj = objectId m obj ∧ version m' obj = version m obj ∧
      keyLen m' obj = keyLen m obj ∧ valLen m' obj = valLen m obj := by
  have start : m'.word (obj + 0) 8 = m.word (obj + 0) 8 := same.word direct (by omega)
  exact ⟨start, same.word direct (by omega), same.word direct (by omega), same.word direct (by omega),
    same.word direct (by omega)⟩

theorem Untouched.header (layout : h.BlockLayout) {id obj : Nat} (same : Untouched h id m m')
    (direct : backendDirect h.backend id = some obj) :
    flch64 m' obj = flch64 m obj ∧ objectId m' obj = objectId m obj ∧ version m' obj = version m obj ∧
      keyLen m' obj = keyLen m obj ∧ valLen m' obj = valLen m obj := same.words direct (layout.room id)

theorem Untouched.live_iff {id : Nat} (same : Untouched h id m m') (room : 32 ≤ h.backend.blockSize id) :
    (h.Live m' id ↔ h.Live m id) ∧ (h.Sane m' id ↔ h.Sane m id) := by
  refine ⟨exists_congr fun obj => and_congr_right fun direct => ?_,
    forall_congr' fun obj => imp_congr_right fun direct => ?_⟩
  · rw [(same.words direct room).1]
  · obtain ⟨-, -, -, key, val⟩ := same.words direct room
    rw [key, val]

theorem Untouched.live (layout : h.BlockLayout) {id : Nat} (same : Untouched h id m m') :
    h.Live m' id ↔ h.Live m id := (same.live_iff (layout.room id)).1

theorem Untouched.sane (layout : h.BlockLayout) {id : Nat} (same : Untouched h id m m') :
    h.Sane m' id ↔ h.Sane m id := (same.live_iff (layout.room id)).2

theorem slotArea_log {i : Nat} (known : i < h.txSlotsCount) : h.slotArea i ⊆ h.logArea := by
  have below := Handle.slot_below known
  intro x inside
  simp only [Handle.slotArea, mem_span] at inside
  simp only [Handle.logArea, Set.mem_ofPred_eq]
  omega

theorem span_blockAt {id obj addr len : Nat} (direct : backendDirect h.backend id = some obj)
    (lower : obj ≤ addr) (upper : addr + len ≤ obj + h.backend.blockSize id) : span addr len ⊆ h.blockAt id := by
  intro x inside
  refine ⟨obj, direct, ?_⟩
  simp only [mem_span] at inside ⊢
  omega

theorem setZero_spec (s : Store) {id obj : Nat} (room : 32 ≤ h.backend.blockSize id)
    (direct : backendDirect h.backend id = some obj) (sane : h.Sane s.pool.mem id) :
    ChangedIn (h.blockAt id) s.pool.mem (s.setZero (some obj)).pool.mem ∧
      ¬h.Live (s.setZero (some obj)).pool.mem id ∧ h.Sane (s.setZero (some obj)).pool.mem id := by
  -- a zeroed block of sane lengths is not live, and the stores stay inside it
  have hdr : sizeofDataHdr = 32 := rfl
  refine ⟨(setZero_changed s obj).mono (span_blockAt direct (le_refl _) (by have := sane obj direct; omega)), ?_, ?_⟩
  · rintro ⟨obj', direct', live⟩
    rw [direct] at direct'
    cases direct'
    exact live (setZero_header s obj).1
  · intro obj' direct'
    rw [direct] at direct'
    cases direct'
    obtain ⟨-, -, -, key, val⟩ := setZero_header s obj
    rw [key, val]
    exact room

theorem utilChecksumInsert_flch (h : Handle) (p : Pool) (obj len : Nat) :
    flch64 (utilChecksumInsert h p obj len).mem obj = checksumOf h p.mem obj len := by
  simp only [utilChecksumInsert, flch64, Pool.store_mem]
  rw [word_write_same]
  exact Nat.mod_eq_of_lt (h.checksum _).toNat_lt

theorem checksumOf_ne (nonzero : ∀ bytes, h.checksum bytes ≠ 0) (m : Mem) (obj len : Nat) :
    checksumOf h m obj len ≠ 0 := by
  intro zero
  exact nonzero _ (UInt64.toNat_inj.mp zero)

-- the old object of a put is another one than the new block, and its value is within bounds
def OldFits (h : Handle) (m : Mem) (id : Nat) (old : Option Nat) : Prop :=
  ∀ oldObj ∈ old, ∃ oldId, oldId ≠ id ∧ backendDirect h.backend oldId = some oldObj ∧
    valLen m oldObj ≤ h.maxValLen

theorem tputBlock_spec (layout : h.BlockLayout) (p : Pool) {id obj : Nat}
    (direct : backendDirect h.backend id = some obj) (data : id < h.totalObjsCount) (old : Option Nat)
    (kv : PmbPair) (key_fits : kv.keyLen ≤ h.maxKeyLen) (fits : kv.offset + kv.valLen ≤ h.maxValLen)
    (old_fits : OldFits h p.mem id old) :
    ChangedIn (h.blockAt id) p.mem (tputBlock h p obj old kv).mem := by
  have room := layout.data_room
  have size : h.backend.blockSize id = h.backend.bsize := if_pos data
  have inside : span obj (h.backend.blockSize id) ⊆ h.blockAt id := span_blockAt direct (le_refl _) (le_refl _)
  refine ChangedIn.mono ?_ inside
  rw [size]
  refine tputBlock_changed h p obj h.backend.bsize old kv (by omega) (by omega) fun oldObj member m changed => ?_
  obtain ⟨oldId, other, oldDirect, short⟩ := old_fits oldObj member
  rw [← size] at changed
  have same := ChangedIn.untouched layout (changed.mono (inside.trans Set.subset_union_left)) other
  rw [(same.header layout oldDirect).2.2.2.2]
  omega

theorem tputMetaBlock_spec (layout : h.BlockLayout) (p : Pool) {id obj : Nat}
    (direct : backendDirect h.backend id = some obj) (metadata : h.totalObjsCount ≤ id) (old : Option Nat)
    (kv : PmbPair) (fits : kv.keyLen + kv.valLen ≤ h.metaMaxKeyLen + h.metaMaxValLen) :
    ChangedIn (h.blockAt id) p.mem (tputMetaBlock h p obj old kv).mem := by
  have room := layout.meta_room
  have size : h.backend.blockSize id = h.backend.metaBsize := if_neg (by
    unfold Handle.totalObjsCount at metadata
    omega)
  refine (tputMetaBlock_changed h p obj _ old kv (le_refl _)).mono (span_blockAt direct (le_refl _) ?_)
  rw [size]
  omega

theorem tputBlock_flch (nonzero : ∀ bytes, h.checksum bytes ≠ 0) (p : Pool) (obj : Nat) (old : Option Nat)
    (kv : PmbPair) : flch64 (tputBlock h p obj old kv).mem obj ≠ 0 := by
  unfold tputBlock
  simp only
  rw [utilChecksumInsert_flch]
  exact checksumOf_ne nonzero _ _ _

theorem tputMetaBlock_flch (nonzero : ∀ bytes, h.checksum bytes ≠ 0) (p : Pool) (obj : Nat)
    (old : Option Nat) (kv : PmbPair) : flch64 (tputMetaBlock h p obj old kv).mem obj ≠ 0 := by
  unfold tputMetaBlock
  simp only
  rw [utilChecksumInsert_flch]
  exact checksumOf_ne nonzero _ _ _

end Blocks

end PmBackend
