import PmBackend.FreeOrLive
import PmBackend.PutBounds
import PmBackend.UpdateLists

set_option autoImplicit false

namespace PmBackend

open ByteMemory

-- the longest object fits its block; blocks may overlap
structure Handle.Rooms (h : Handle) : Prop extends h.LogLayout, h.Ids where
  data_room : 32 + h.maxKeyLen + h.maxValLen ≤ h.backend.bsize
  meta_room : 32 + h.metaMaxKeyLen + h.metaMaxValLen ≤ h.backend.metaBsize
  bsize_small : h.backend.bsize < 2 ^ 32
  metaBsize_small : h.backend.metaBsize < 2 ^ 32

theorem Handle.BlockLayout.rooms {h : Handle} (layout : h.BlockLayout) : h.Rooms :=
  { layout with
    data_room := layout.data_room
    meta_room := layout.meta_room
    bsize_small := layout.bsize_small
    metaBsize_small := layout.metaBsize_small }

def Handle.objectLen (h : Handle) (m : Mem) (id obj : Nat) : Nat :=
  if id < h.totalObjsCount then sizeofDataHdr + h.maxKeyLen + valLen m obj
  else sizeofDataHdr + keyLen m obj + valLen m obj

-- the object that the header of a block describes stays in the block; an overlapping block has none
structure Handle.Contained (h : Handle) (m : Mem) (id obj : Nat) : Prop where
  key_fits : id < h.totalObjsCount → keyLen m obj ≤ h.maxKeyLen
  fits : h.objectLen m id obj ≤ h.backend.blockSize id
  alone : flch64 m obj ≠ 0 → h.Alone id

def Handle.Sealed (h : Handle) (m : Mem) (id obj : Nat) : Prop :=
  flch64 m obj ≠ 0 → flch64 m obj = checksumOf h m obj (h.objectLen m id obj)

-- every block is contained, and sealed unless it waits for its header to be rewritten
structure SealedBut (h : Handle) (m : Mem) (waiting : Set Nat) : Prop where
  contained : ∀ id obj, backendDirect h.backend id = some obj → h.Contained m id obj
  sealed : ∀ id obj, backendDirect h.backend id = some obj → id ∉ waiting → h.Sealed m id obj

section Frames

variable {h : Handle} {m m' : Mem} {id obj : Nat} {waiting waiting' : Set Nat}

theorem Handle.Rooms.room (rooms : h.Rooms) (id : Nat) : 32 ≤ h.backend.blockSize id := by
  have := rooms.data_room
  have := rooms.meta_room
  unfold Backend.blockSize
  split <;> omega

theorem Handle.Rooms.headerRooms (rooms : h.Rooms) : h.HeaderRooms := { rooms with header_room := rooms.room }

theorem Handle.Rooms.blockSize_lt (rooms : h.Rooms) (id : Nat) : h.backend.blockSize id < 2 ^ 32 := by
  have := rooms.bsize_small
  have := rooms.metaBsize_small
  unfold Backend.blockSize
  split <;> omega

theorem blockSize_data (data : id < h.totalObjsCount) : h.backend.blockSize id = h.backend.bsize := if_pos data

theorem Handle.objectLen_data (data : id < h.totalObjsCount) :
    h.objectLen m id obj = 32 + h.maxKeyLen + valLen m obj := if_pos data

theorem Handle.objectLen_meta (metadata : h.totalObjsCount ≤ id) :
    h.objectLen m id obj = 32 + keyLen m obj + valLen m obj := if_neg (Nat.not_lt.mpr metadata)

theorem Handle.Contained.zeroed (contained : h.Contained m id obj) :
    32 + keyLen m obj + valLen m obj ≤ h.backend.blockSize id := by
  -- the bytes that `backend_set_zero` clears are those of the object, or fewer
  have fits := contained.fits
  by_cases data : id < h.totalObjsCount
  · have key := contained.key_fits data
    rw [h.objectLen_data data] at fits
    omega
  · rwa [h.objectLen_meta (Nat.not_lt.mp data)] at fits

theorem checksumOf_span {len : Nat} (same : ∀ x, obj + 8 ≤ x → x < obj + len → m' x = m x) :
    checksumOf h m' obj len = checksumOf h m obj len := by
  unfold checksumOf masked
  rw [read_congr m m' _ _ fun x lower upper => same x lower (by omega)]

theorem Untouched.objectLen (same : Untouched h id m m') (direct : backendDirect h.backend id = some obj)
    (room : 32 ≤ h.backend.blockSize id) : h.objectLen m' id obj = h.objectLen m id obj := by
  obtain ⟨-, -, -, key, val⟩ := same.words direct room
  unfold Handle.objectLen
  rw [key, val]

theorem Untouched.contained (same : Untouched h id m m') (direct : backendDirect h.backend id = some obj)
    (room : 32 ≤ h.backend.blockSize id) (contained : h.Contained m id obj) : h.Contained m' id obj := by
  obtain ⟨flch, -, -, key, -⟩ := same.words direct room
  refine ⟨fun data => ?_, ?_, fun live => ?_⟩
  · rw [key]
    exact contained.key_fits data
  · rw [same.objectLen direct room]
    exact contained.fits
  · rw [flch] at live
    exact contained.alone live

theorem Untouched.sealed (same : Untouched h id m m') (direct : backendDirect h.backend id = some obj)
    (room : 32 ≤ h.backend.blockSize id) (contained : h.Contained m id obj) (sealed : h.Sealed m id obj) :
    h.Sealed m' id obj := by
  have flch := (same.words direct room).1
  have fits := contained.fits
  intro live
  rw [flch] at live
  rw [flch, same.objectLen direct room, sealed live]
  -- the checksum reads no byte outside the block
  refine (checksumOf_span fun x lower upper => same x ?_).symm
  rw [blockAt_span direct, mem_span]
  omega

theorem SealedBut.untouched (rooms : h.Rooms) (blocks : SealedBut h m waiting)
    (same : ∀ id, Untouched h id m m') : SealedBut h m' waiting :=
  ⟨fun id obj direct => (same id).contained direct (rooms.room id) (blocks.contained id obj direct),
    fun id obj direct here => (same id).sealed direct (rooms.room id) (blocks.contained id obj direct)
      (blocks.sealed id obj direct here)⟩

theorem SealedBut.log (rooms : h.Rooms) (blocks : SealedBut h m waiting) (changed : ChangedIn h.logArea m m') :
    SealedBut h m' waiting :=
  blocks.untouched rooms fun id => ChangedIn.blocks_untouched rooms.toLogLayout changed id

theorem SealedBut.block (rooms : h.Rooms) (blocks : SealedBut h m waiting) (alone : h.Alone id)
    (direct : backendDirect h.backend id = some obj) (changed : ChangedIn (h.blockAt id ∪ h.logArea) m m')
    (contained : h.Contained m' id obj) (sealed : id ∉ waiting' → h.Sealed m' id obj)
    (rest : ∀ j, j ≠ id → j ∉ waiting' → j ∉ waiting) : SealedBut h m' waiting' := by
  have others := fun j (other : j ≠ id) => ChangedIn.others_untouched rooms.toLogLayout alone changed other
  refine ⟨fun j addr known => ?_, fun j addr known here => ?_⟩
  · by_cases same : j = id
    · subst same
      rw [direct] at known
      cases known
      exact contained
    · exact (others j same).contained known (rooms.room j) (blocks.contained j addr known)
  · by_cases same : j = id
    · subst same
      rw [direct] at known
      cases known
      exact sealed here
    · exact (others j same).sealed known (rooms.room j) (blocks.contained j addr known)
        (blocks.sealed j addr known (rest j same here))

theorem SealedBut.mono (blocks : SealedBut h m waiting) (wider : waiting ⊆ waiting') : SealedBut h m waiting' :=
  ⟨blocks.contained, fun id obj direct here => blocks.sealed id obj direct fun before => here (wider before)⟩

theorem contained_of_zeros (rooms : h.Rooms) (id : Nat) (flch : flch64 m obj = 0) (key : keyLen m obj = 0)
    (val : valLen m obj = 0) : h.Contained m id obj ∧ h.Sealed m id obj := by
  refine ⟨⟨fun _ => by omega, ?_, fun live => absurd flch live⟩, fun live => absurd flch live⟩
  have data_room := rooms.data_room
  have room := rooms.room id
  by_cases data : id < h.totalObjsCount
  · rw [h.objectLen_data data, blockSize_data data, val]
    omega
  · rw [h.objectLen_meta (Nat.not_lt.mp data), key, val]
    omega

theorem SealedBut.setZero (rooms : h.Rooms) {s : Store} (blocks : SealedBut h s.pool.mem waiting)
    (alone : h.Alone id) (direct : backendDirect h.backend id = some obj) :
    SealedBut h (s.setZero (some obj)).pool.mem waiting := by
  have hdr : sizeofDataHdr = 32 := rfl
  have inside := (blocks.contained id obj direct).zeroed
  have changed := (setZero_changed s obj).mono (span_blockAt direct (le_refl _) (by omega))
  obtain ⟨flch, -, -, key, val⟩ := setZero_header s obj
  obtain ⟨contained, sealed⟩ := contained_of_zeros rooms id flch key val
  exact blocks.block rooms alone direct (changed.mono Set.subset_union_left) contained (fun _ => sealed)
    fun _ _ here => here

end Frames

section NewBlocks

variable {h : Handle} {p : Pool} {obj room old : Nat} {kv : PmbPair}

theorem tputHeader_lengths (h : Handle) (p : Pool) (obj : Nat) (previous : Option Nat)
    (short : kv.keyLen < 2 ^ 32) :
    keyLen (tputHeader h p obj previous kv).mem obj = kv.keyLen ∧
      valLen (tputHeader h p obj previous kv).mem obj = u32 (kv.valLen + kv.offset) := by
  have hdr : sizeofDataHdr = 32 := rfl
  have small : u32 (kv.valLen + kv.offset) < 256 ^ 4 := by
    unfold u32
    exact Nat.mod_lt _ (by decide)
  simp only [tputHeader, keyLen, valLen, Pool.store_mem, backendMemcpy_mem]
  constructor
  · rw [word_write_disjoint _ _ _ _ _ (by rw [length_encode]; omega),
      word_write_disjoint _ _ _ _ _ (by rw [length_encode]; omega), word_write_disjoint _ _ _ _ _ (by omega),
      word_write_disjoint _ _ _ _ _ (by rw [length_encode]; omega), word_write_same]
    exact Nat.mod_eq_of_lt short
  · rw [word_write_same]
    exact Nat.mod_eq_of_lt small

theorem tputKeep_sealed (fits : 32 + h.maxKeyLen + (kv.offset + kv.valLen) ≤ room) (small : room < 2 ^ 32)
    (now : valLen p.mem obj = kv.offset + kv.valLen) {len : Nat}
    (stable : ∀ m, ChangedIn (span (obj + 32) (room - 32)) p.mem m → valLen m old = len)
    (kept_fits : kv.offset + kv.valLen < len → 32 + h.maxKeyLen + len ≤ room) :
    ∃ q size, tputKeep h p obj old kv (32 + h.maxKeyLen + (kv.offset + kv.valLen)) = (q, size) ∧
      ChangedIn (span (obj + 24) (room - 24)) p.mem q.mem ∧
      size = 32 + h.maxKeyLen + valLen q.mem obj ∧ size ≤ room := by
  -- what is kept of an old value goes behind the header, and the checksum covers the longer value
  have hdr : sizeofDataHdr = 32 := rfl
  have dataLen : u32 (kv.valLen + kv.offset) = kv.offset + kv.valLen := by
    rw [u32_of_lt (by omega), Nat.add_comm]
  have before : valLen p.mem old = len := stable p.mem (ChangedIn.refl _ _)
  have wider : span (obj + 32) (room - 32) ⊆ span (obj + 24) (room - 24) := span_subset (by omega) (by omega)
  unfold tputKeep
  simp only [before, dataLen]
  by_cases empty : len = 0
  · -- the old object has no value
    have none_kept : ¬len > 0 := by omega
    rw [if_neg none_kept]
    exact ⟨_, _, rfl, ChangedIn.refl _ _, by rw [now], fits⟩
  · rw [if_pos (Nat.pos_of_ne_zero empty)]
    generalize beginning_eq : (if kv.offset > len then len else kv.offset) = beginning
    have short : beginning ≤ len ∧ beginning ≤ kv.offset := by
      rw [← beginning_eq]
      split <;> omega
    have copied : ChangedIn (span (obj + 32) (room - 32)) p.mem
        (backendMemcpy h p (obj + sizeofDataHdr + h.maxKeyLen)
          (p.mem.read (old + sizeofDataHdr + h.maxKeyLen) beginning)).mem := by
      rw [backendMemcpy_mem]
      exact ChangedIn.write _ _ _ _ (span_subset (by omega) (by rw [length_read]; omega))
    have again := stable _ copied
    simp only [again]
    by_cases longer : len > kv.offset + kv.valLen
    · -- the rest of the old value makes the object longer
      have rest_fits := kept_fits longer
      rw [if_pos longer]
      have rest := copied.thenWrite (obj + sizeofDataHdr + h.maxKeyLen + (kv.offset + kv.valLen))
        ((backendMemcpy h p (obj + sizeofDataHdr + h.maxKeyLen)
          (p.mem.read (old + sizeofDataHdr + h.maxKeyLen) beginning)).mem.read
            (old + sizeofDataHdr + h.maxKeyLen + (kv.offset + kv.valLen)) (len - (kv.offset + kv.valLen)))
        (span_subset (by omega) (by rw [length_read]; omega))
      have last := stable _ rest
      rw [← backendMemcpy_mem h] at last rest
      refine ⟨_, _, rfl, (rest.mono wider).thenEncode _ _ _ (by omega) (by omega), ?_, ?_⟩
      · simp only [valLen, Pool.store_mem] at last ⊢
        rw [word_write_same, last, u32_of_lt (by omega), Nat.mod_eq_of_lt (show len < 256 ^ 4 by omega)]
        omega
      · rw [u32_of_lt (by omega)]
        omega
    · rw [if_neg longer]
      refine ⟨_, _, rfl, copied.mono wider, ?_, fits⟩
      have header : valLen (backendMemcpy h p (obj + sizeofDataHdr + h.maxKeyLen)
          (p.mem.read (old + sizeofDataHdr + h.maxKeyLen) beginning)).mem obj = valLen p.mem obj :=
        copied.word_apart (by omega)
      rw [header, now]

-- the old object of a put keeps its length while the new block is written, or is in the same block
def OldStays (h : Handle) (m : Mem) (obj room : Nat) (kv : PmbPair) (old : Nat) : Prop :=
  old = obj ∨ ∃ len, (∀ m', ChangedIn (span obj room) m m' → valLen m' old = len) ∧
    (kv.offset + kv.valLen < len → 32 + h.maxKeyLen + len ≤ room)

theorem tputFilled_sealed (p : Pool) (obj : Nat) (key_fits : kv.keyLen ≤ h.maxKeyLen)
    (no_offset : kv.valLen = 0 → kv.offset = 0)
    (fits : 32 + h.maxKeyLen + (kv.offset + kv.valLen) ≤ room) (small : room < 2 ^ 32) (previous : Option Nat)
    (stays : kv.valLen ≠ 0 → ∀ old ∈ previous, OldStays h p.mem obj room kv old) :
    ChangedIn (span obj room) p.mem (tputFilled h p obj previous kv).1.mem ∧
      keyLen (tputFilled h p obj previous kv).1.mem obj = kv.keyLen ∧
      (tputFilled h p obj previous kv).2 = 32 + h.maxKeyLen + valLen (tputFilled h p obj previous kv).1.mem obj ∧
      (tputFilled h p obj previous kv).2 ≤ room := by
  have hdr : sizeofDataHdr = 32 := rfl
  have value := valBytes_length kv
  have header := tputHeader_changed h p obj room previous kv (by omega)
  have short : kv.keyLen < 2 ^ 32 := by omega
  obtain ⟨key, now⟩ := tputHeader_lengths h p obj previous short
  rw [u32_of_lt (by omega), Nat.add_comm] at now
  by_cases empty : kv.valLen = 0
  · have no_value : tputFilled h p obj previous kv = (tputHeader h p obj previous kv, 32 + h.maxKeyLen) := by
      unfold tputFilled
      simp only [empty, no_offset empty, ne_eq, not_true_eq_false, if_false, Nat.add_zero, hdr,
        u32_of_lt (show 0 < 2 ^ 32 by decide), u32_of_lt (show 32 + h.maxKeyLen < 2 ^ 32 by omega)]
    have nothing : kv.offset + kv.valLen = 0 := by have := no_offset empty; omega
    rw [nothing] at now
    rw [no_value]
    exact ⟨header, key, by rw [now, Nat.add_zero], by simp only; omega⟩
  · -- the old value is copied first, and the new bytes are stored over it
    have kept : ∃ q, ChangedIn (span (obj + 24) (room - 24)) (tputHeader h p obj previous kv).mem q.mem ∧
        (tputFilled h p obj previous kv).1 =
          backendMemcpy h q (obj + sizeofDataHdr + h.maxKeyLen + kv.offset) kv.valBytes ∧
        (tputFilled h p obj previous kv).2 = 32 + h.maxKeyLen + valLen q.mem obj ∧
        (tputFilled h p obj previous kv).2 ≤ room := by
      rw [tputFilled_value empty small fits]
      cases previous with
      | none => exact ⟨_, ChangedIn.refl _ _, rfl, by rw [now]; rfl, fits⟩
      | some oldObj =>
        have stable : ∃ len, (∀ m, ChangedIn (span (obj + 32) (room - 32))
              (tputHeader h p obj (some oldObj) kv).mem m → valLen m oldObj = len) ∧
            (kv.offset + kv.valLen < len → 32 + h.maxKeyLen + len ≤ room) := by
          rcases stays empty oldObj rfl with same | ⟨len, stable, rest⟩
          · subst same
            refine ⟨kv.offset + kv.valLen, fun m changed => ?_, fun longer => by omega⟩
            rw [← now]
            exact changed.word_apart (by omega)
          · exact ⟨len, fun m changed => stable m (header.trans
              (changed.mono (span_subset (by omega) (by omega)))), rest⟩
        obtain ⟨len, stable, rest⟩ := stable
        obtain ⟨q, size, kept, changed, covered, inside⟩ := tputKeep_sealed fits small now stable rest
        simp only [tputValue, kept]
        exact ⟨q, changed, rfl, covered, inside⟩
    obtain ⟨q, changed, first, second, inside⟩ := kept
    generalize tputFilled h p obj previous kv = filled at first second inside ⊢
    have words : keyLen filled.1.mem obj = keyLen q.mem obj ∧ valLen filled.1.mem obj = valLen q.mem obj := by
      rw [first, backendMemcpy_mem]
      exact ⟨word_write_disjoint _ _ _ _ _ (by omega), word_write_disjoint _ _ _ _ _ (by omega)⟩
    have key' : keyLen q.mem obj = kv.keyLen := by
      rw [← key]
      exact changed.word_apart (by omega)
    refine ⟨?_, words.1.trans key', by rw [words.2]; exact second, inside⟩
    rw [first, backendMemcpy_mem]
    exact (header.trans (changed.mono (span_subset (by omega) (by omega)))).thenWrite _ _
      (span_subset (by omega) (by omega))

theorem insert_sealed {q : Pool} {id len : Nat} (covers : len = h.objectLen q.mem id obj) :
    h.objectLen (utilChecksumInsert h q obj len).mem id obj = len ∧
      keyLen (utilChecksumInsert h q obj len).mem obj = keyLen q.mem obj ∧
      h.Sealed (utilChecksumInsert h q obj len).mem id obj := by
  generalize sealed_eq : utilChecksumInsert h q obj len = sealed
  have flch : flch64 sealed.mem obj = checksumOf h q.mem obj len := by
    rw [← sealed_eq]
    exact utilChecksumInsert_flch h q obj len
  have beyond : ∀ x, obj + 8 ≤ x → sealed.mem x = q.mem x := by
    intro x lower
    rw [← sealed_eq]
    exact write_outside _ _ _ _ (by rw [length_encode]; omega)
  have key : keyLen sealed.mem obj = keyLen q.mem obj := word_congr _ _ _ _ fun x lower _ => beyond x (by omega)
  have val : valLen sealed.mem obj = valLen q.mem obj := word_congr _ _ _ _ fun x lower _ => beyond x (by omega)
  have length : h.objectLen sealed.mem id obj = len := by
    rw [covers]
    unfold Handle.objectLen
    rw [key, val]
  refine ⟨length, key, fun _ => ?_⟩
  rw [length, checksumOf_congr beyond]
  exact flch

theorem tputBlock_sealed (rooms : h.Rooms) {id : Nat} (data : id < h.totalObjsCount) (alone : h.Alone id)
    (direct : backendDirect h.backend id = some obj) (key_fits : kv.keyLen ≤ h.maxKeyLen)
    (no_offset : kv.valLen = 0 → kv.offset = 0) (fits : kv.offset + kv.valLen ≤ h.maxValLen) (previous : Option Nat)
    (stays : kv.valLen ≠ 0 → ∀ old ∈ previous, OldStays h p.mem obj h.backend.bsize kv old) :
    ChangedIn (h.blockAt id) p.mem (tputBlock h p obj previous kv).mem ∧
      h.Contained (tputBlock h p obj previous kv).mem id obj ∧ h.Sealed (tputBlock h p obj previous kv).mem id obj := by
  have room := rooms.data_room
  obtain ⟨changed, key, covered, inside⟩ := tputFilled_sealed p obj key_fits no_offset
    (show 32 + h.maxKeyLen + (kv.offset + kv.valLen) ≤ h.backend.bsize by omega) rooms.bsize_small previous stays
  rw [tputBlock_filled, blockAt_span direct, blockSize_data data]
  generalize tputFilled h p obj previous kv = filled at changed key covered inside ⊢
  have covers : filled.2 = h.objectLen filled.1.mem id obj := by
    rw [h.objectLen_data data]
    exact covered
  obtain ⟨length, same_key, sealed⟩ := insert_sealed covers
  refine ⟨changed.thenEncode _ _ _ (by omega) (by omega), ⟨fun _ => ?_, ?_, fun _ => alone⟩, sealed⟩
  · rw [same_key, key]
    exact key_fits
  · rw [length, blockSize_data data]
    exact inside

theorem tputMetaBlock_sealed (rooms : h.Rooms) {id : Nat} (metadata : h.totalObjsCount ≤ id) (alone : h.Alone id)
    (direct : backendDirect h.backend id = some obj)
    (fits : kv.keyLen + kv.valLen ≤ h.metaMaxKeyLen + h.metaMaxValLen) (previous : Option Nat) :
    ChangedIn (h.blockAt id) p.mem (tputMetaBlock h p obj previous kv).mem ∧
      h.Contained (tputMetaBlock h p obj previous kv).mem id obj ∧
      h.Sealed (tputMetaBlock h p obj previous kv).mem id obj := by
  have hdr : sizeofDataHdr = 32 := rfl
  have room := rooms.meta_room
  have small := rooms.metaBsize_small
  have size : h.backend.blockSize id = h.backend.metaBsize := if_neg (Nat.not_lt.mpr metadata)
  have changed := (tputMetaBlock_changed h p obj _ previous kv (le_refl _)).mono
    (span_blockAt direct (le_refl _) (by omega))
  refine ⟨changed, ?_⟩
  unfold tputMetaBlock
  simp only
  rw [u32_of_lt (show sizeofDataHdr + kv.keyLen + kv.valLen < 2 ^ 32 by omega)]
  generalize filled_eq : backendMemcpy h (backendMemcpy h (((p.setKeyLen obj kv.keyLen).setValLen obj
    kv.valLen).setVersion obj (nextVersion ((p.setKeyLen obj kv.keyLen).setValLen obj kv.valLen).mem previous))
    (obj + sizeofDataHdr) kv.keyBytes) (obj + sizeofDataHdr + kv.keyLen) kv.valBytes = filled
  have lengths : keyLen filled.mem obj = kv.keyLen ∧ valLen filled.mem obj = kv.valLen := by
    rw [← filled_eq]
    simp only [keyLen, valLen, backendMemcpy_mem, Pool.store_mem]
    constructor
    · rw [word_write_disjoint _ _ _ _ _ (by omega), word_write_disjoint _ _ _ _ _ (by omega),
        word_write_disjoint _ _ _ _ _ (by rw [length_encode]; omega),
        word_write_disjoint _ _ _ _ _ (by rw [length_encode]; omega), word_write_same]
      exact Nat.mod_eq_of_lt (show kv.keyLen < 256 ^ 4 by omega)
    · rw [word_write_disjoint _ _ _ _ _ (by omega), word_write_disjoint _ _ _ _ _ (by omega),
        word_write_disjoint _ _ _ _ _ (by rw [length_encode]; omega), word_write_same]
      exact Nat.mod_eq_of_lt (show kv.valLen < 256 ^ 4 by omega)
  have covers : sizeofDataHdr + kv.keyLen + kv.valLen = h.objectLen filled.mem id obj := by
    rw [h.objectLen_meta metadata, lengths.1, lengths.2]
  obtain ⟨length, -, sealed⟩ := insert_sealed covers
  refine ⟨⟨fun data => by omega, ?_, fun _ => alone⟩, sealed⟩
  rw [length, size]
  omega

end NewBlocks

end PmBackend
