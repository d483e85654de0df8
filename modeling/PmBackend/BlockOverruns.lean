import PmBackend.Model.Open
import PmBackend.RoundTrips
import PmBackend.UpdateTargets

set_option autoImplicit false

namespace PmBackend

open ByteMemory

-- every new object with a value of `len` bytes is read back and recovered, and no other object changes
def PutsRoundTrip (h : Handle) (len : Nat) : Prop :=
  ∀ (s s' : Store) (i : Nat) (kv kv' : PmbPair), DeadList h s.pool.mem s.freeList 1 h.totalObjsCount →
    JustStarted h s i → kv.blkId = 0 → kv.offset = 0 → kv.id < 2 ^ 64 → kv.valLen = len →
    pmbTput h s (i + 1) kv = (s', .ok, kv') →
    RoundTrip h s s' kv kv'.blkId ∧ ∃ t, Finishes h s' (i + 1) t ∧ RoundTrip h s t kv kv'.blkId

-- every update by the copying path that leaves a value of `len` bytes overlays the old value
def UpdatesOverlay (h : Handle) (len : Nat) : Prop :=
  ∀ (s s' : Store) (i : Nat) (kv kv' : PmbPair) (old : Nat), DeadList h s.pool.mem s.freeList 1 h.totalObjsCount →
    FreeApart h s.pool.mem s.freeList → JustStarted h s i → OldData h s.pool.mem kv.blkId old →
    h.maxValLen / 2 ≤ kv.valLen → 0 < kv.valLen → kv.offset + kv.valLen ≤ h.maxValLen → kv.id < 2 ^ 64 →
    max (valLen s.pool.mem old) (kv.offset + kv.valLen) = len → pmbTput h s (i + 1) kv = (s', .ok, kv') →
    ∃ obj, Overlaid h s s' i kv kv' old obj

-- block 2 follows block 1, which is at `obj`
structure Handle.TwoBlocks (h : Handle) (obj : Nat) : Prop extends h.HeaderRooms where
  data : 2 < h.totalObjsCount
  first : backendDirect h.backend 1 = some obj
  second : backendDirect h.backend 2 = some (obj + h.backend.bsize)

theorem Backend.Mapped.twoBlocks {h : Handle} {args : MapArgs} (mapped : h.backend.Mapped args) (rooms : h.HeaderRooms)
    (data : 2 < h.totalObjsCount) : h.TwoBlocks (h.backend.dataArea + h.backend.bsize) := by
  have known : 1 < h.backend.dataNlba := Nat.lt_of_succ_lt data
  have first := mapped.direct_data known
  have second : backendDirect h.backend 2 = some (h.backend.dataArea + 2 * h.backend.bsize) := mapped.direct_data data
  rw [Nat.one_mul] at first
  rw [Nat.two_mul, ← Nat.add_assoc] at second
  exact ⟨rooms, data, first, second⟩

-- slot 0 has just started, block 1 is free, and `word` is the checksum in the otherwise empty block 2
def neighbourStore (h : Handle) (obj word : Nat) : Store :=
  { zeroStore with
    pool := ⟨((zeroStore.pool.mem.write (h.slotAddr 0 + 8) (encode 4 TxStatus.processing.code)).write (h.slotAddr 0 + 16)
      (encode 8 sizeofTxSlot)).write (obj + h.backend.bsize) (encode 8 word), []⟩
    freeList := caslistNew 1 1 }

-- the longest key and `len` bytes of value, every byte of them `byte`
def filledPair (h : Handle) (byte : UInt8) (blkId len : Nat) : PmbPair where
  blkId := blkId
  id := 7
  offset := 0
  key := some fun _ => byte
  keyLen := h.maxKeyLen
  val := some fun _ => byte
  valLen := len

section Neighbours

variable {h : Handle} {obj word : Nat}

theorem mem_bufferBytes {byte c : UInt8} {len : Nat} (member : c ∈ bufferBytes (some fun _ => byte) len) : c = byte := by
  simp only [bufferBytes, Mem.read, List.mem_map] at member
  obtain ⟨_, -, same⟩ := member
  exact same.symm

theorem tputBlock_fills (p : Pool) (old : Option Nat) (byte : UInt8) (blkId len : Nat) {x : Nat} (behind : obj + 32 ≤ x)
    (inside : x < obj + 32 + h.maxKeyLen + len) : (tputBlock h p obj old (filledPair h byte blkId len)).mem x = byte := by
  have hdr : sizeofDataHdr = 32 := rfl
  have key_len : (filledPair h byte blkId len).keyBytes.length = h.maxKeyLen := keyBytes_eq ⟨_, rfl⟩
  have val_len : (filledPair h byte blkId len).valBytes.length = len := valBytes_eq (Or.inr ⟨_, rfl⟩)
  by_cases front : x < obj + 32 + h.maxKeyLen
  · rw [tputBlock_front (by omega) front (by omega)]
    obtain ⟨k, rfl⟩ := Nat.exists_eq_add_of_le behind
    simp only [tputHeader, Pool.store_mem, backendMemcpy_mem, hdr]
    rw [write_outside _ _ _ _ (by rw [length_encode]; omega), write_outside _ _ _ _ (by rw [length_encode]; omega),
      write_inside _ _ _ k (by omega)]
    exact mem_bufferBytes (List.getElem_mem _)
  · have some_value : (filledPair h byte blkId len).valLen ≠ 0 := by
      change len ≠ 0
      omega
    obtain ⟨k, rfl⟩ := Nat.exists_eq_add_of_le (Nat.le_of_not_lt front)
    obtain ⟨kept, -, last⟩ := tputFilled_last h p obj some_value old
    rw [tputBlock_filled, utilChecksumInsert, Pool.store_mem, write_outside _ _ _ _ (by rw [length_encode]; omega), last,
      backendMemcpy_mem, hdr]
    have start : obj + 32 + h.maxKeyLen + (filledPair h byte blkId len).offset = obj + 32 + h.maxKeyLen := rfl
    rw [start, write_inside _ _ _ k (by omega)]
    exact mem_bufferBytes (List.getElem_mem _)

theorem neighbourStore_word (h : Handle) (obj : Nat) (small : word < 2 ^ 64) :
    flch64 (neighbourStore h obj word).pool.mem (obj + h.backend.bsize) = word :=
  (word_write_same _ _ 8 word).trans (Nat.mod_eq_of_lt (by omega))

theorem neighbourStore_rest (two : h.TwoBlocks obj) {x : Nat} (above : h.logEnd ≤ x)
    (outside : x < obj + h.backend.bsize ∨ obj + h.backend.bsize + 8 ≤ x) : (neighbourStore h obj word).pool.mem x = 0 := by
  have below := Handle.slot_below (h := h) two.some_slot
  have room := two.slot_room
  simp only [neighbourStore]
  rw [write_outside _ _ _ _ (by rw [length_encode]; omega), write_outside _ _ _ _ (by rw [length_encode]; omega),
    write_outside _ _ _ _ (by rw [length_encode]; omega)]
  rfl

theorem neighbourStore_started (two : h.TwoBlocks obj) (room : sizeofTxSlot + sizeofTxEntry ≤ h.backend.txSlotSize) :
    JustStarted h (neighbourStore h obj word) 0 := by
  have below := Handle.slot_below (h := h) two.some_slot
  have above := two.blocks_above 1 obj two.first
  have slot_room := two.slot_room
  have wide : sizeofTxSlot % 256 ^ 8 = sizeofTxSlot := rfl
  have narrow : TxStatus.processing.code % 256 ^ 4 = TxStatus.processing.code := rfl
  refine ⟨two.some_slot, ?_, ?_, room, rfl⟩
  · simp only [Handle.status, slotStatus, neighbourStore]
    rw [word_write_disjoint _ _ _ _ _ (by omega), word_write_disjoint _ _ _ _ _ (by omega), word_write_same, narrow]
  · simp only [Handle.size, slotSize, neighbourStore]
    rw [word_write_disjoint _ _ _ _ _ (by omega), word_write_same, wide]

theorem neighbourStore_free (two : h.TwoBlocks obj) :
    DeadList h (neighbourStore h obj word).pool.mem (neighbourStore h obj word).freeList 1 h.totalObjsCount := by
  have above := two.blocks_above 1 obj two.first
  have known : 1 < h.totalObjsCount := Nat.lt_of_succ_lt two.data
  have room : 32 ≤ h.backend.bsize := blockSize_data (h := h) known ▸ two.header_room 1
  refine ⟨Finset.Icc 1 1, caslistNew_spec (le_refl 1) (le_refl 1) (by decide), fun id member => ?_⟩
  obtain rfl : id = 1 := by
    rw [Finset.mem_Icc] at member
    omega
  refine ⟨⟨le_refl 1, known⟩, ?_⟩
  rintro ⟨addr, direct, live⟩
  rw [two.first] at direct
  cases direct
  exact live (word_of_zeros _ _ _ fun x lower upper => neighbourStore_rest two (by omega) (Or.inl (by omega)))

theorem neighbourStore_value (two : h.TwoBlocks obj) :
    valLen (neighbourStore h obj word).pool.mem (obj + h.backend.bsize) = 0 := by
  have above := two.blocks_above 2 _ two.second
  exact word_of_zeros _ _ _ fun x lower _ => neighbourStore_rest two (by omega) (Or.inr (by omega))

theorem neighbourStore_second (two : h.TwoBlocks obj) (positive : word ≠ 0) (small : word < 2 ^ 64) :
    OldData h (neighbourStore h obj word).pool.mem 2 (obj + h.backend.bsize) := by
  have above := two.blocks_above 2 _ two.second
  have no_key : keyLen (neighbourStore h obj word).pool.mem (obj + h.backend.bsize) = 0 :=
    word_of_zeros _ _ _ fun x lower _ => neighbourStore_rest two (by omega) (Or.inr (by omega))
  refine ⟨backendGet_ok.mpr ⟨by decide, two.second, ?_⟩, two.data, ?_, ?_⟩
  · rw [neighbourStore_word h obj small]
    exact positive
  · rw [no_key]
    exact Nat.zero_le _
  · rw [neighbourStore_value two]
    exact Nat.zero_le _

theorem JustStarted.takesBlock {s : Store} {i : Nat} (started : JustStarted h s i) (kv : PmbPair) (layout : h.LogLayout)
    (old : Option Nat) (popped : (caslistPop s.freeList 0).ret = 0) (id_lt : (caslistPop s.freeList 0).val < 2 ^ 64)
    (direct : backendDirect h.backend (caslistPop s.freeList 0).val = some obj) (old_lt : kv.blkId < 2 ^ 64) :
    ∃ logged, tputNewBlock h s (i + 1) kv old = ({ logged with pool := tputBlock h logged.pool obj old kv }, .ok,
        { kv with blkId := (caslistPop s.freeList 0).val }) ∧ SlotOnly h i s logged := by
  have words : (newBlockOp kv.blkId (caslistPop s.freeList 0).val).Words := by
    unfold newBlockOp
    split
    · exact ⟨old_lt, id_lt⟩
    · exact id_lt
  have popped_started := started.same (t := { s with freeList := (caslistPop s.freeList 0).list }) rfl rfl
  obtain ⟨status, only, -⟩ := popped_started.append layout _ words (by rw [newBlockOp_len]; exact started.room)
  refine ⟨_, ?_, only⟩
  unfold tputNewBlock
  simp only [popped, direct, ne_eq, not_true_eq_false, if_false, logNewBlock_op, status]

theorem filledPair_put (two : h.TwoBlocks obj) (room : sizeofTxSlot + sizeofTxEntry ≤ h.backend.txSlotSize)
    (word : Nat) (byte : UInt8) (key : h.maxKeyLen ≠ 0) (blkId : Nat) {len : Nat} (allowed : len ≤ h.maxValLen)
    (id_lt : blkId < 2 ^ 64) (large : ¬SmallUpdate h (filledPair h byte blkId len)) {old : Option Nat}
    (is_old : OldBlock h (neighbourStore h obj word).pool.mem blkId old) :
    ∃ s', pmbTput h (neighbourStore h obj word) 1 (filledPair h byte blkId len) =
        (s', .ok, filledPair h byte 1 len) ∧
      ∃ p : Pool, s'.pool = tputBlock h p obj old (filledPair h byte blkId len) ∧
        ChangedIn h.logArea (neighbourStore h obj word).pool.mem p.mem := by
  have value_fits : u32 (0 + len) ≤ h.maxValLen := by
    rw [Nat.zero_add]
    unfold u32
    exact (Nat.mod_le _ _).trans allowed
  have args : TputArgs h 1 (filledPair h byte blkId len) :=
    ⟨by decide, two.some_slot, le_refl _, key, ⟨_, rfl⟩, Or.inr ⟨_, rfl⟩, fun _ => rfl, value_fits⟩
  have lists : ListOf (neighbourStore h obj word).freeList (Finset.Icc 1 1) :=
    caslistNew_spec (le_refl 1) (le_refl 1) (by decide)
  obtain ⟨least, member, -, ret, val, -⟩ := lists.pop ⟨1, by decide⟩ (fun id inside => by
    rw [Finset.mem_Icc] at inside
    omega) 0
  obtain rfl : least = 1 := by
    rw [Finset.mem_Icc] at member
    omega
  have started : JustStarted h (neighbourStore h obj word) 0 := neighbourStore_started two room
  obtain ⟨logged, new_block, only⟩ := started.takesBlock (filledPair h byte blkId len) two.toLogLayout old ret
    (by rw [val]; decide) (by rw [val]; exact two.first) id_lt
  rw [val] at new_block
  refine ⟨{ logged with pool := tputBlock h logged.pool obj old (filledPair h byte blkId len) }, ?_, logged.pool, rfl,
    ChangedIn.mono only (slotArea_log two.some_slot)⟩
  rcases is_old with ⟨new, rfl⟩ | ⟨update, oldObj, found, rfl⟩
  · rw [pmbTput_new args new]
    exact new_block
  · rw [pmbTput_largeUpdate args update large, show (filledPair h byte blkId len).blkId = blkId from rfl, found]
    exact new_block

-- a value that does not fit runs over the header of the next block
theorem put_overruns (two : h.TwoBlocks obj) (room : sizeofTxSlot + sizeofTxEntry ≤ h.backend.txSlotSize)
    (key : h.maxKeyLen ≠ 0) {len : Nat} (allowed : len ≤ h.maxValLen) (long : h.backend.bsize < 32 + h.maxKeyLen + len) :
    ∃ s', pmbTput h (neighbourStore h obj 1) 1 (filledPair h 0 0 len) = (s', .ok, filledPair h 0 1 len) ∧
      pmbGet h (neighbourStore h obj 1).pool.mem 2 ≠ .error .enoent ∧ pmbGet h s'.pool.mem 2 = .error .enoent := by
  have above := two.blocks_above 1 obj two.first
  have header : 32 ≤ h.backend.bsize := blockSize_data (h := h) (Nat.lt_of_succ_lt two.data) ▸ two.header_room 1
  obtain ⟨s', put, p, pool, changed⟩ := filledPair_put two room 1 0 key 0 allowed (by decide)
    (fun small => small.1 rfl) (Or.inl ⟨rfl, rfl⟩)
  refine ⟨s', put, ?_, pmbGet_dead ?_⟩
  · have before : OldData h (neighbourStore h obj 1).pool.mem 2 (obj + h.backend.bsize) :=
      neighbourStore_second two (by decide) (by decide)
    unfold pmbGet
    rw [before.found]
    exact fun error => by cases error
  · rintro ⟨addr, direct, live⟩
    rw [two.second] at direct
    cases direct
    refine live (word_of_zeros _ _ _ fun x lower upper => ?_)
    rw [pool]
    by_cases filled : x < obj + 32 + h.maxKeyLen + len
    · exact tputBlock_fills p none 0 0 len (by omega) filled
    · have frame := tputBlock_changed h p obj (32 + h.maxKeyLen + len) none (filledPair h 0 0 len)
        (by change 32 + h.maxKeyLen ≤ _; omega) (by change 32 + h.maxKeyLen + (0 + len) ≤ _; omega)
        fun _ member => by cases member
      rw [frame x (by rw [mem_span]; omega), changed x fun log => ?_]
      · simp only [neighbourStore]
        obtain ⟨k, rfl⟩ := Nat.exists_eq_add_of_le lower
        have rest : ∀ k : Fin 8, k.val ≠ 0 → (encode 8 1)[k.val] = 0 := by decide
        rw [write_inside _ _ _ k (by rw [length_encode]; omega)]
        exact rest ⟨k, by omega⟩ (by simp only; omega)
      · simp only [Handle.logArea, Set.mem_ofPred_eq] at log
        omega

theorem update_overruns (two : h.TwoBlocks obj) (room : sizeofTxSlot + sizeofTxEntry ≤ h.backend.txSlotSize)
    (key : h.maxKeyLen ≠ 0) {len : Nat} (large : h.maxValLen / 2 ≤ len) (allowed : len ≤ h.maxValLen)
    (long : h.backend.bsize < 32 + h.maxKeyLen + len) :
    ∃ s', pmbTput h (neighbourStore h obj (2 ^ 56)) 1 (filledPair h 1 2 len) = (s', .ok, filledPair h 1 1 len) ∧
      (neighbourStore h obj (2 ^ 56)).pool.mem (obj + h.backend.bsize) = 0 ∧ s'.pool.mem (obj + h.backend.bsize) = 1 := by
  have header : 32 ≤ h.backend.bsize := blockSize_data (h := h) (Nat.lt_of_succ_lt two.data) ▸ two.header_room 1
  have before : OldData h (neighbourStore h obj (2 ^ 56)).pool.mem 2 (obj + h.backend.bsize) :=
    neighbourStore_second two (by decide) (by decide)
  obtain ⟨s', put, p, pool, -⟩ := filledPair_put two room (2 ^ 56) 1 key 2 allowed (by decide)
    (fun small => absurd small.2 (Nat.not_lt.mpr large)) (Or.inr ⟨by decide, _, before.found, rfl⟩)
  refine ⟨s', put, ?_, ?_⟩
  · exact write_inside _ _ _ 0 (by decide)
  · rw [pool]
    exact tputBlock_fills p _ 1 2 len (by omega) (by omega)

theorem not_putsRoundTrip (two : h.TwoBlocks obj) (room : sizeofTxSlot + sizeofTxEntry ≤ h.backend.txSlotSize)
    (key : h.maxKeyLen ≠ 0) {len : Nat} (allowed : len ≤ h.maxValLen) (long : h.backend.bsize < 32 + h.maxKeyLen + len) :
    ¬PutsRoundTrip h len := by
  intro trips
  obtain ⟨s', put, before, after⟩ := put_overruns two room key allowed long
  obtain ⟨trip, -⟩ := trips _ _ 0 _ _ (neighbourStore_free two) (neighbourStore_started two room) rfl rfl
    (show 7 < 2 ^ 64 by decide) rfl put
  have old : OldData h (neighbourStore h obj 1).pool.mem 2 (obj + h.backend.bsize) :=
    neighbourStore_second two (by decide) (by decide)
  have known : 1 < h.totalObjsCount := Nat.lt_of_succ_lt two.data
  have header : 32 ≤ h.backend.bsize := blockSize_data (h := h) known ▸ two.header_room 1
  refine before ?_
  rw [← after]
  refine (trip.others 2 ⟨_, two.second, (backendGet_ok.mp old.found).2.2⟩ ?_).symm
  -- the object of block 2 lies behind block 1
  rw [Set.disjoint_left]
  rintro x ⟨addr, direct, inside⟩ block
  rw [two.second] at direct
  cases direct
  change x ∈ h.blockAt 1 at block
  rw [blockAt_span two.first, blockSize_data known, mem_span] at block
  rw [valueAddr_data _ _ two.data] at inside
  simp only [mem_span] at inside
  omega

-- a new object is read back and recovered exactly when it fits its block
theorem round_trips_exactly {args : MapArgs} (mapped : h.backend.Mapped args) (rooms : h.HeaderRooms)
    (small : h.backend.bsize < 2 ^ 32) (slot_room : sizeofTxSlot + sizeofTxEntry ≤ h.backend.txSlotSize)
    (nonzero : ∀ bytes, h.checksum bytes ≠ 0) {len : Nat} (allowed : len ≤ h.maxValLen) :
    (h.maxKeyLen = 0 ∨ 32 + h.maxKeyLen + len ≤ h.backend.bsize → PutsRoundTrip h len) ∧
      (2 < h.totalObjsCount → PutsRoundTrip h len → h.maxKeyLen = 0 ∨ 32 + h.maxKeyLen + len ≤ h.backend.bsize) := by
  refine ⟨fun fits s s' i kv kv' free started new no_offset wide same put => ?_, fun data trips => ?_⟩
  · rcases fits with no_key | fits
    · -- no key is short enough
      have args := (pmbTput_ok put).1
      have short := args.key_fits
      exact absurd args.key_positive (not_not.mpr (by omega))
    · exact put_get_round_trip rooms small nonzero free started new no_offset wide (by rw [same]; exact fits) put
  · by_contra cramped
    obtain ⟨key, long⟩ := not_or.mp cramped
    exact not_putsRoundTrip (mapped.twoBlocks rooms data) slot_room key allowed (by omega) trips

theorem neighbourStore_apart (two : h.TwoBlocks obj) :
    FreeApart h (neighbourStore h obj (2 ^ 56)).pool.mem (neighbourStore h obj (2 ^ 56)).freeList := by
  -- the only byte that makes a header live is the last one of the checksum in block 2
  intro id listed j live addr addr' direct direct'
  have lists : ListOf (neighbourStore h obj (2 ^ 56)).freeList (Finset.Icc 1 1) :=
    caslistNew_spec (le_refl 1) (le_refl 1) (by decide)
  obtain rfl : id = 1 := by
    have member := (lists.listed id).mp listed
    rw [Finset.mem_Icc] at member
    omega
  rw [two.first] at direct'
  cases direct'
  obtain ⟨addr', same, live⟩ := live
  rw [direct] at same
  cases same
  have above := two.blocks_above j addr direct
  have first : ∀ k : Fin 7, (encode 8 (2 ^ 56))[k.val] = 0 := by decide
  rw [blockSize_data (Nat.lt_of_succ_lt two.data)]
  refine span_disjoint (Or.inr ?_)
  by_contra low
  refine live (word_of_zeros _ _ _ fun x lower upper => ?_)
  by_cases inside : obj + h.backend.bsize ≤ x
  · obtain ⟨k, rfl⟩ := Nat.exists_eq_add_of_le inside
    simp only [neighbourStore]
    rw [write_inside _ _ _ k (by rw [length_encode]; omega)]
    exact first ⟨k, by omega⟩
  · exact neighbourStore_rest two (by omega) (Or.inl (by omega))

theorem not_updatesOverlay (two : h.TwoBlocks obj) (room : sizeofTxSlot + sizeofTxEntry ≤ h.backend.txSlotSize)
    (key : h.maxKeyLen ≠ 0) {len : Nat} (large : h.maxValLen / 2 ≤ len) (some_value : 0 < len) (allowed : len ≤ h.maxValLen)
    (long : h.backend.bsize < 32 + h.maxKeyLen + len) : ¬UpdatesOverlay h len := by
  intro overlays
  obtain ⟨s', put, before, after⟩ := update_overruns two room key large allowed long
  have no_value : valLen (neighbourStore h obj (2 ^ 56)).pool.mem (obj + h.backend.bsize) = 0 := neighbourStore_value two
  have header := two.header_room 2
  obtain ⟨_, overlaid⟩ := overlays _ _ 0 _ _ _ (neighbourStore_free two) (neighbourStore_apart two)
    (neighbourStore_started two room) (neighbourStore_second two (by decide) (by decide)) large some_value
    (by change 0 + len ≤ _; omega) (show 7 < 2 ^ 64 by decide) (by rw [no_value]; change max 0 (0 + len) = len; omega) put
  -- the first byte of the old block
  have inside : obj + h.backend.bsize ∈ h.blockAt 2 := by
    rw [blockAt_span two.second, mem_span]
    omega
  have kept := overlaid.kept _ inside
  rw [before, after] at kept
  cases kept

-- an update by the copying path overlays the old value exactly when the updated object fits its block
theorem updates_overlay_exactly {args : MapArgs} (mapped : h.backend.Mapped args) (rooms : h.HeaderRooms)
    (small : h.backend.bsize < 2 ^ 32) (slot_room : sizeofTxSlot + sizeofTxEntry ≤ h.backend.txSlotSize) (len : Nat) :
    (h.maxKeyLen = 0 ∨ 32 + h.maxKeyLen + len ≤ h.backend.bsize → UpdatesOverlay h len) ∧
      (2 < h.totalObjsCount → h.maxValLen / 2 ≤ len → 0 < len → len ≤ h.maxValLen → UpdatesOverlay h len →
        h.maxKeyLen = 0 ∨ 32 + h.maxKeyLen + len ≤ h.backend.bsize) := by
  refine ⟨fun fits s s' i kv kv' old free apart started before large some_value _ wide same put => ?_,
    fun data large some_value allowed overlays => ?_⟩
  · rcases fits with no_key | fits
    · -- no key is short enough
      have args := (pmbTput_ok put).1
      have short := args.key_fits
      exact absurd args.key_positive (not_not.mpr (by omega))
    · exact copy_overlays rooms small free apart started before large some_value (by rw [same]; exact fits) wide put
  · by_contra cramped
    obtain ⟨key, long⟩ := not_or.mp cramped
    exact not_updatesOverlay (mapped.twoBlocks rooms data) slot_room key large some_value allowed (by omega) overlays

end Neighbours

-- the longest value of a `uint32_t`: with it the block size wraps to 4096
def longOpts : PmbOpts where
  dataSize := 8192 + 128 * 1024 * 1024 + 2 ^ 33
  metaSize := 0
  writeLogEntries := 1
  maxKeyLen := 64
  maxValLen := 4294967295
  metaMaxKeyLen := 64
  metaMaxValLen := 4000
  syncType := .sync

def longBackend : Backend :=
  { flatBackend with datasize := 8589934592, dataNlba := 2097152, metaArea := 139646700888064 }

def longHandle : Handle := { flatHandle with backend := longBackend, maxValLen := 4294967295 }

theorem longOpts_opened : backendOpen longOpts 0x7f0000000000 8192 false none = .ok longBackend := by decide +kernel

theorem longPool_mapped : backendMapCommon (longOpts.mapArgs 0x7f0000000000 8192 false) none = .ok longBackend := by
  decide +kernel

theorem longPool_noWrap : (longOpts.mapArgs 0x7f0000000000 8192 false).NoWrap := ⟨by decide +kernel, by decide +kernel⟩

theorem longBackend_mapped : longBackend.Mapped (longOpts.mapArgs 0x7f0000000000 8192 false) :=
  backendMapCommon_mapped longPool_noWrap longPool_mapped

theorem longHandle_rooms : longHandle.HeaderRooms :=
  { Backend.Mapped.logLayout (h := longHandle) longPool_noWrap longPool_mapped rfl (by decide) (by decide)
      (by decide +kernel) (by decide +kernel) (Or.inl rfl) with
    null_block := by decide
    fit := by decide
    header_room := fun id => by
      unfold Backend.blockSize
      split <;> decide }

theorem longHandle_blocks : longHandle.TwoBlocks 139638110957568 :=
  longBackend_mapped.twoBlocks longHandle_rooms (by decide)

theorem long_value_lost :
    backendOpen longOpts 0x7f0000000000 8192 false none = .ok longHandle.backend ∧ ¬PutsRoundTrip longHandle 5000 ∧
      ∃ s', pmbTput longHandle (neighbourStore longHandle 139638110957568 1) 1 (filledPair longHandle 0 0 5000) =
          (s', .ok, filledPair longHandle 0 1 5000) ∧
        pmbGet longHandle (neighbourStore longHandle 139638110957568 1).pool.mem 2 ≠ .error .enoent ∧
        pmbGet longHandle s'.pool.mem 2 = .error .enoent :=
  ⟨longOpts_opened, not_putsRoundTrip longHandle_blocks (by decide) (by decide) (by decide) (by decide),
    put_overruns longHandle_blocks (by decide) (by decide) (by decide) (by decide)⟩

theorem round_trips_exactly_sample :
    PutsRoundTrip longHandle 4000 ∧ ¬PutsRoundTrip longHandle 4001 ∧
      ∃ t, Finishes flatHandle (pmbTput flatHandle (begunStore flatHandle) 1 (onePair 0)).1 1 t ∧
        RoundTrip flatHandle (begunStore flatHandle) t (onePair 0) 1 := by
  have exactly := fun len (allowed : len ≤ longHandle.maxValLen) =>
    round_trips_exactly longBackend_mapped longHandle_rooms (by decide) (by decide) flatHandle_nonzero allowed
  refine ⟨(exactly 4000 (by decide)).1 (Or.inr (by decide)),
    fun trips => absurd ((exactly 4001 (by decide)).2 (by decide) trips) (by decide), ?_⟩
  have status : (pmbTput flatHandle (begunStore flatHandle) 1 (onePair 0)).2.1 = .ok := by decide +kernel
  have id : (pmbTput flatHandle (begunStore flatHandle) 1 (onePair 0)).2.2.blkId = 1 := by decide +kernel
  have trip := ((round_trips_exactly (backendMapCommon_mapped flatPool_noWrap flatPool_mapped) flatHandle_layout.headerRooms
    (by decide) (by decide) flatHandle_nonzero (show 1 ≤ flatHandle.maxValLen by decide)).1 (Or.inr (by decide)) _ _ 0 _ _
      begunStore_free begunStore_started rfl rfl (by decide) rfl (Prod.ext rfl (Prod.ext status rfl))).2
  rwa [id] at trip

theorem long_update_overruns :
    backendOpen longOpts 0x7f0000000000 8192 false none = .ok longHandle.backend ∧ ¬UpdatesOverlay longHandle 2147483647 ∧
      ∃ s', pmbTput longHandle (neighbourStore longHandle 139638110957568 (2 ^ 56)) 1 (filledPair longHandle 1 2 2147483647) =
          (s', .ok, filledPair longHandle 1 1 2147483647) ∧
        (neighbourStore longHandle 139638110957568 (2 ^ 56)).pool.mem (139638110957568 + 4096) = 0 ∧
        s'.pool.mem (139638110957568 + 4096) = 1 :=
  ⟨longOpts_opened, not_updatesOverlay longHandle_blocks (by decide) (by decide) (by decide) (by decide) (by decide)
      (by decide),
    update_overruns longHandle_blocks (by decide) (by decide) (by decide) (by decide) (by decide)⟩

theorem updates_overlay_exactly_sample :
    ¬UpdatesOverlay longHandle 2147483647 ∧
      ∃ t, Finishes flatHandle (pmbTput flatHandle heldStore 1 { onePair 1 with offset := 1, valLen := 2000 }).1 1 t ∧
        pmbGet flatHandle t.pool.mem 1 = .error .enoent ∧ Listed t.freeList 1 := by
  refine ⟨fun overlays => absurd ((updates_overlay_exactly longBackend_mapped longHandle_rooms (by decide) (by decide)
    2147483647).2 (by decide) (by decide) (by decide) (by decide) overlays) (by decide), ?_⟩
  have status : (pmbTput flatHandle heldStore 1 { onePair 1 with offset := 1, valLen := 2000 }).2.1 = .ok := by
    decide +kernel
  have one : valLen heldStore.pool.mem 139638110957568 = 1 := by decide +kernel
  obtain ⟨obj, -, -, -, commited, t, commit, -, execute, -, gone, back⟩ := (updates_overlay_exactly
    (backendMapCommon_mapped flatPool_noWrap flatPool_mapped) flatHandle_layout.headerRooms (by decide) (by decide) 2001).1
      (Or.inr (by decide)) _ _ 0 _ _ _ heldStore_free (heldStore_free.apart flatHandle_layout) heldStore_started
      heldStore_object (by decide) (by decide) (by decide) (by decide) (by rw [one]; decide)
      (Prod.ext rfl (Prod.ext status rfl))
  exact ⟨t, ⟨commited, commit, execute⟩, gone, back⟩

end PmBackend
