import PmBackend.CallCrashes

set_option autoImplicit false

namespace PmBackend

open ByteMemory DeferredLog

structure Filling (h : Handle) (id obj : Nat) (m₀ m : Mem) : Prop where
  changed : ChangedIn (h.blockAt id) m₀ m
  dead : flch64 m obj = 0
  fits : h.LengthsFit m id obj

section Filling

variable {h : Handle} {p q r : Pool} {m₀ m m' : Mem} {id obj old : Nat} {kv : PmbPair}

theorem Handle.LengthsFit.mono (fits : h.LengthsFit m id obj) (key : keyLen m' obj ≤ keyLen m obj)
    (val : valLen m' obj ≤ valLen m obj) : h.LengthsFit m' id obj := by
  obtain ⟨key_fits, len_fits⟩ := fits
  refine ⟨fun data => key.trans (key_fits data), ?_⟩
  unfold Handle.objectLen at len_fits ⊢
  split at len_fits
  · next data =>
    rw [if_pos data]
    omega
  · next metadata =>
    rw [if_neg metadata]
    omega

theorem Handle.LengthsFit.of_data (data : id < h.totalObjsCount) (key : keyLen m obj ≤ h.maxKeyLen)
    (val : 32 + h.maxKeyLen + valLen m obj ≤ h.backend.bsize) : h.LengthsFit m id obj :=
  ⟨fun _ => key, by rwa [h.objectLen_data data, blockSize_data data]⟩

theorem Handle.LengthsFit.of_meta (metadata : h.totalObjsCount ≤ id)
    (fits : 32 + keyLen m obj + valLen m obj ≤ h.backend.blockSize id) : h.LengthsFit m id obj :=
  ⟨fun data => absurd data (Nat.not_lt.mpr metadata), by rwa [h.objectLen_meta metadata]⟩

theorem Filling.body (filling : Filling h id obj m₀ m) (direct : backendDirect h.backend id = some obj)
    (room : 32 ≤ h.backend.blockSize id) {addr : Nat} {bytes : List UInt8}
    (inside : span addr bytes.length ⊆ span (obj + 32) (h.backend.blockSize id - 32)) :
    Filling h id obj m₀ (m.write addr bytes) := by
  have changed : ChangedIn (span (obj + 32) (h.backend.blockSize id - 32)) m (m.write addr bytes) :=
    ChangedIn.write _ _ _ _ inside
  have flch : flch64 (m.write addr bytes) obj = flch64 m obj := changed.word_apart (by omega)
  have key : keyLen (m.write addr bytes) obj = keyLen m obj := changed.word_apart (by omega)
  have val : valLen (m.write addr bytes) obj = valLen m obj := changed.word_apart (by omega)
  refine ⟨filling.changed.thenWrite _ _ (inside.trans ?_), flch.trans filling.dead, filling.fits.mono key.le val.le⟩
  rw [blockAt_span direct]
  exact span_subset (by omega) (by omega)

theorem Keeps.body (keeps : Keeps h.headers (Filling h id obj m₀) p q) (direct : backendDirect h.backend id = some obj)
    (room : 32 ≤ h.backend.blockSize id) {addr : Nat} {bytes : List UInt8}
    (inside : span addr bytes.length ⊆ span (obj + 32) (h.backend.blockSize id - 32)) :
    Keeps h.headers (Filling h id obj m₀) p (backendMemcpy h q addr bytes) :=
  keeps.memcpy h addr bytes fun count => keeps.last.body direct room
    (subset_trans (span_subset (le_refl _) (by rw [List.length_take]; omega)) inside)

theorem Keeps.field (keeps : Keeps h.headers (Filling h id obj m₀) p q) (direct : backendDirect h.backend id = some obj)
    (room : 32 ≤ h.backend.blockSize id) (offset width value : Nat) (lower : 8 ≤ offset) (upper : offset + width ≤ 32)
    (fits : h.LengthsFit (q.mem.write (obj + offset) (encode width value)) id obj) :
    Keeps h.headers (Filling h id obj m₀) p (q.store (obj + offset) (encode width value)) := by
  have filling := keeps.last
  refine keeps.blockWord direct offset width value upper ⟨filling.changed.thenWrite _ _ ?_, ?_, fits⟩
  · rw [length_encode, blockAt_span direct]
    exact span_subset (by omega) (by omega)
  · rw [← filling.dead]
    exact word_write_disjoint _ _ _ _ _ (by rw [length_encode]; omega)

theorem Keeps.firstField (keeps : Keeps h.headers (Filling h id obj m₀) p q)
    (direct : backendDirect h.backend id = some obj) (room : 32 ≤ h.backend.blockSize id) (offset width value : Nat)
    (lower : 8 ≤ offset) (upper : offset + width ≤ 20) :
    Keeps h.headers (Filling h id obj m₀) p (q.store (obj + offset) (encode width value)) := by
  refine keeps.field direct room offset width value lower (by omega) (keeps.last.fits.mono (le_of_eq ?_) (le_of_eq ?_))
  · exact word_write_disjoint _ _ _ _ _ (by rw [length_encode]; omega)
  · exact word_write_disjoint _ _ _ _ _ (by rw [length_encode]; omega)

theorem keyLen_set (m : Mem) (obj value : Nat) : keyLen (m.write (obj + 20) (encode 4 value)) obj ≤ value ∧
    valLen (m.write (obj + 20) (encode 4 value)) obj = valLen m obj := by
  refine ⟨?_, word_write_disjoint _ _ _ _ _ (by rw [length_encode]; omega)⟩
  rw [keyLen, word_write_same]
  exact Nat.mod_le _ _

theorem valLen_set (m : Mem) (obj value : Nat) : valLen (m.write (obj + 24) (encode 4 value)) obj ≤ value ∧
    keyLen (m.write (obj + 24) (encode 4 value)) obj = keyLen m obj := by
  refine ⟨?_, word_write_disjoint _ _ _ _ _ (by rw [length_encode]; omega)⟩
  rw [valLen, word_write_same]
  exact Nat.mod_le _ _

theorem tputHeader_keeps (rooms : h.Rooms) (data : id < h.totalObjsCount) (direct : backendDirect h.backend id = some obj)
    (key_fits : kv.keyLen ≤ h.maxKeyLen) (fits : 32 + h.maxKeyLen + (kv.offset + kv.valLen) ≤ h.backend.bsize)
    (start : Filling h id obj m₀ p.mem) (previous : Option Nat) :
    Keeps h.headers (Filling h id obj m₀) p (tputHeader h p obj previous kv) := by
  have hdr : sizeofDataHdr = 32 := rfl
  have small := rooms.bsize_small
  have room := rooms.room id
  have size := blockSize_data data
  have bytes := keyBytes_length kv
  have lengths : ∀ {m : Mem}, h.LengthsFit m id obj →
      keyLen m obj ≤ h.maxKeyLen ∧ 32 + h.maxKeyLen + valLen m obj ≤ h.backend.bsize := by
    intro m fits
    rw [← h.objectLen_data data, ← size]
    exact ⟨fits.1 data, fits.2⟩
  have key : Keeps h.headers (Filling h id obj m₀) p (p.setKeyLen obj kv.keyLen) := by
    obtain ⟨now, same⟩ := keyLen_set p.mem obj kv.keyLen
    refine (Keeps.refl start).field direct room 20 4 kv.keyLen (by omega) (by omega) (.of_data data (now.trans key_fits) ?_)
    rw [same]
    exact (lengths start.fits).2
  unfold tputHeader
  simp only
  generalize p.setKeyLen obj kv.keyLen = q at key ⊢
  have filled : Keeps h.headers (Filling h id obj m₀) p ((backendMemcpy h (q.setVersion obj (nextVersion q.mem previous))
      (obj + sizeofDataHdr) kv.keyBytes).setObjectId obj kv.id) :=
    ((key.firstField direct room 16 4 _ (by omega) (by omega)).body direct room
      (span_subset (by omega) (by omega))).firstField direct room 8 8 kv.id (by omega) (by omega)
  generalize (backendMemcpy h (q.setVersion obj (nextVersion q.mem previous)) (obj + sizeofDataHdr)
    kv.keyBytes).setObjectId obj kv.id = q at filled ⊢
  obtain ⟨now, same⟩ := valLen_set q.mem obj (u32 (kv.valLen + kv.offset))
  rw [u32_of_lt (by omega)] at now same ⊢
  refine filled.field direct room 24 4 (kv.valLen + kv.offset) (by omega) (by omega) (.of_data data ?_ ?_)
  · exact same.trans_le (lengths filled.last.fits).1
  · exact (Nat.add_le_add_left now _).trans (by omega)

theorem tputKeep_keeps (rooms : h.Rooms) (data : id < h.totalObjsCount) (direct : backendDirect h.backend id = some obj)
    (fits : 32 + h.maxKeyLen + (kv.offset + kv.valLen) ≤ h.backend.bsize) (start : Keeps h.headers (Filling h id obj m₀) r p)
    {len : Nat} (stable : ∀ m, ChangedIn (h.blockAt id) m₀ m → valLen m old = len)
    (kept_fits : 32 + h.maxKeyLen + len ≤ h.backend.bsize) (objSize : Nat) :
    Keeps h.headers (Filling h id obj m₀) r (tputKeep h p obj old kv objSize).1 := by
  have hdr : sizeofDataHdr = 32 := rfl
  have small := rooms.bsize_small
  have room := rooms.room id
  have size := blockSize_data data
  have dataLen : u32 (kv.valLen + kv.offset) = kv.offset + kv.valLen := by
    rw [u32_of_lt (by omega), Nat.add_comm]
  have before : valLen p.mem old = len := stable _ start.last.changed
  unfold tputKeep
  simp only [before, dataLen]
  by_cases empty : len > 0
  · rw [if_pos empty]
    generalize beginning_eq : (if kv.offset > len then len else kv.offset) = beginning
    have short : beginning ≤ len := by
      rw [← beginning_eq]
      split <;> omega
    have copied : Keeps h.headers (Filling h id obj m₀) r (backendMemcpy h p (obj + sizeofDataHdr + h.maxKeyLen)
        (p.mem.read (old + sizeofDataHdr + h.maxKeyLen) beginning)) :=
      start.body direct room (span_subset (by omega) (by rw [length_read]; omega))
    generalize backendMemcpy h p (obj + sizeofDataHdr + h.maxKeyLen)
      (p.mem.read (old + sizeofDataHdr + h.maxKeyLen) beginning) = q at copied ⊢
    have again : valLen q.mem old = len := stable _ copied.last.changed
    simp only [again]
    split
    · have rest : Keeps h.headers (Filling h id obj m₀) r
          (backendMemcpy h q (obj + sizeofDataHdr + h.maxKeyLen + (kv.offset + kv.valLen))
            (q.mem.read (old + sizeofDataHdr + h.maxKeyLen + (kv.offset + kv.valLen)) (len - (kv.offset + kv.valLen)))) :=
        copied.body direct room (span_subset (by omega) (by rw [length_read]; omega))
      generalize backendMemcpy h q (obj + sizeofDataHdr + h.maxKeyLen + (kv.offset + kv.valLen))
        (q.mem.read (old + sizeofDataHdr + h.maxKeyLen + (kv.offset + kv.valLen))
          (len - (kv.offset + kv.valLen))) = q at rest ⊢
      have last : valLen q.mem old = len := stable _ rest.last.changed
      obtain ⟨now, same⟩ := valLen_set q.mem obj len
      rw [last]
      refine rest.field direct room 24 4 len (by omega) (by omega) (.of_data data ?_ ?_)
      · exact same.trans_le (rest.last.fits.1 data)
      · exact (Nat.add_le_add_left now _).trans kept_fits
    · exact copied
  · rw [if_neg empty]
    exact start

theorem tputBlock_keeps (rooms : h.Rooms) (data : id < h.totalObjsCount) (direct : backendDirect h.backend id = some obj)
    (key_fits : kv.keyLen ≤ h.maxKeyLen) (fits : 32 + h.maxKeyLen + (kv.offset + kv.valLen) ≤ h.backend.bsize)
    (start : Filling h id obj p.mem p.mem) (previous : Option Nat)
    (stays : ∀ oldObj ∈ previous, ∃ len, (∀ m, ChangedIn (h.blockAt id) p.mem m → valLen m oldObj = len) ∧
      32 + h.maxKeyLen + len ≤ h.backend.bsize) :
    ChangedIn (h.blockAt id) p.mem (tputBlock h p obj previous kv).mem ∧
      Keeps h.headers (fun m => Filling h id obj p.mem m ∨ m = (tputBlock h p obj previous kv).mem) p
        (tputBlock h p obj previous kv) := by
  have hdr : sizeofDataHdr = 32 := rfl
  have room := rooms.room id
  have size := blockSize_data data
  have bytes := valBytes_length kv
  have header : Keeps h.headers (Filling h id obj p.mem) p (tputHeader h p obj previous kv) :=
    tputHeader_keeps rooms data direct key_fits fits start previous
  have filled : Keeps h.headers (Filling h id obj p.mem) p (tputFilled h p obj previous kv).1 := by
    unfold tputFilled
    simp only
    split
    · unfold tputValue
      refine Keeps.body ?_ direct room (span_subset (by omega) (by omega))
      cases previous with
      | none => exact header
      | some oldObj =>
        obtain ⟨len, stable, kept_fits⟩ := stays oldObj rfl
        exact tputKeep_keeps rooms data direct fits header stable kept_fits _
    · exact header
  have filling : Keeps h.headers (fun m => Filling h id obj p.mem m ∨ m = (tputBlock h p obj previous kv).mem) p
      (tputFilled h p obj previous kv).1 := filled.mono fun m => Or.inl
  refine ⟨filled.last.changed.thenWrite _ _ ?_, filling.blockWord direct 0 8 _ (by omega) (Or.inr rfl)⟩
  rw [length_encode, blockAt_span direct]
  exact span_subset (le_refl _) (by omega)

theorem tputMetaBlock_keeps (rooms : h.Rooms) (metadata : h.totalObjsCount ≤ id)
    (direct : backendDirect h.backend id = some obj) (fits : 32 + kv.keyLen + kv.valLen ≤ h.backend.blockSize id)
    (stale : 32 + kv.keyLen + valLen p.mem obj ≤ h.backend.blockSize id) (start : Filling h id obj p.mem p.mem)
    (previous : Option Nat) :
    ChangedIn (h.blockAt id) p.mem (tputMetaBlock h p obj previous kv).mem ∧
      Keeps h.headers (fun m => Filling h id obj p.mem m ∨ m = (tputMetaBlock h p obj previous kv).mem) p
        (tputMetaBlock h p obj previous kv) := by
  have hdr : sizeofDataHdr = 32 := rfl
  have room := rooms.room id
  have key_bytes := keyBytes_length kv
  have val_bytes := valBytes_length kv
  have lengths : Keeps h.headers (Filling h id obj p.mem) p ((p.setKeyLen obj kv.keyLen).setValLen obj kv.valLen) := by
    obtain ⟨key, same⟩ := keyLen_set p.mem obj kv.keyLen
    have first : Keeps h.headers (Filling h id obj p.mem) p (p.setKeyLen obj kv.keyLen) := by
      refine (Keeps.refl start).field direct room 20 4 kv.keyLen (by omega) (by omega) (.of_meta metadata ?_)
      rw [same]
      omega
    obtain ⟨val, same_key⟩ := valLen_set (p.setKeyLen obj kv.keyLen).mem obj kv.valLen
    refine first.field direct room 24 4 kv.valLen (by omega) (by omega) (.of_meta metadata ?_)
    rw [same_key]
    exact (Nat.add_le_add (Nat.add_le_add_left key 32) val).trans fits
  have filled : Keeps h.headers (Filling h id obj p.mem) p (backendMemcpy h (backendMemcpy h
      (((p.setKeyLen obj kv.keyLen).setValLen obj kv.valLen).setVersion obj
        (nextVersion ((p.setKeyLen obj kv.keyLen).setValLen obj kv.valLen).mem previous))
      (obj + sizeofDataHdr) kv.keyBytes) (obj + sizeofDataHdr + kv.keyLen) kv.valBytes) := by
    refine Keeps.body (Keeps.body ?_ direct room ?_) direct room ?_
    · exact lengths.firstField direct room 16 4 _ (by omega) (by omega)
    · exact span_subset (by omega) (by omega)
    · exact span_subset (by omega) (by omega)
  have filling := filled.mono fun m (still : Filling h id obj p.mem m) =>
    (Or.inl still : Filling h id obj p.mem m ∨ m = (tputMetaBlock h p obj previous kv).mem)
  refine ⟨filled.last.changed.thenWrite _ _ ?_, filling.blockWord direct 0 8 _ (by omega) (Or.inr rfl)⟩
  rw [length_encode, blockAt_span direct]
  exact span_subset (le_refl _) (by omega)

end Filling

section Creates

variable {h : Handle} {t t' : Ledger} {i id obj blkId : Nat}

theorem LedgerInv.filling (rooms : h.Rooms) (inv : LedgerInv h t) (positive : id ≠ 0)
    (direct : backendDirect h.backend id = some obj) (dead : t.map.objects id = none) {m : Mem}
    (same : Untouched h id t.store.pool.mem m) : Filling h id obj m m := by
  obtain ⟨key_fits, fits, -⟩ := same.contained direct (rooms.room id) (inv.blocks.contained id obj direct)
  refine ⟨ChangedIn.refl _ _, ?_, key_fits, fits⟩
  have gone := inv.held id
  rw [dead] at gone
  rw [(same.words direct (rooms.room id)).1]
  by_contra live
  exact gone obj (backendGet_ok.mpr ⟨positive, direct, live⟩)

theorem LedgerInv.create_keeps (rooms : h.Rooms) (inv : LedgerInv h t) (safe : t.RecoverySafe h) (inv' : LedgerInv h t')
    (safe' : t'.RecoverySafe h) (known : i < h.txSlotsCount) (alone : h.Alone id) (positive : id ≠ 0)
    (direct : backendDirect h.backend id = some obj) (dead : t.map.objects id = none) {value : PartialBytes}
    {change : Change Nat PartialBytes} (map : t'.map = t.map.next (.create i id value change)) {s logged : Store}
    (pool : s.pool = t.store.pool) (entry : EntryFits h t.store (i + 1) sizeofTxEntry)
    (log : logNewBlock h s (i + 1) blkId id = (logged, .ok))
    (fill : Filling h id obj logged.pool.mem logged.pool.mem → ChangedIn (h.blockAt id) logged.pool.mem t'.store.pool.mem ∧
      Keeps h.headers (fun m => Filling h id obj logged.pool.mem m ∨ m = t'.store.pool.mem) logged.pool t'.store.pool) :
    Keeps h.headers (Torn h t t') t.store.pool t'.store.pool := by
  have layout := rooms.toLogLayout
  have len := newBlockOp_len blkId id
  have fits : EntryFits h s (i + 1) sizeofTxEntry := by
    unfold EntryFits Handle.status Handle.size at entry ⊢
    rwa [pool]
  have only : ChangedIn (h.slotArea i) t.store.pool.mem logged.pool.mem := by
    rw [← pool]
    exact (logNewBlock_slotOnly layout known fits log).1
  rw [logNewBlock_op] at log
  obtain ⟨tx, here, running, -⟩ := inv.append_open rooms known pool log
  have start : Filling h id obj logged.pool.mem logged.pool.mem :=
    inv.filling rooms positive direct dead (log_untouched rooms known only (subset_refl _) id)
  obtain ⟨changed, filled⟩ := fill start
  have same_block : ∀ other addr, backendDirect h.backend other = some addr → other = id → addr = obj := by
    rintro other addr there rfl
    exact Option.some.inj (there.symm.trans direct)
  have torn : ∀ m, Filling h id obj logged.pool.mem m → Torn h t t' m := by
    intro m filling
    by_cases member : i ∈ replaySlots h
    · -- recovery undoes the transaction with this block
      have back : ChangedIn (h.blockAt id) t'.store.pool.mem logged.pool.mem := fun x outside => (changed x outside).symm
      have block : ChangedIn (h.blockAt id) t'.store.pool.mem m := back.trans filling.changed
      have blocks : ChangedIn h.blockArea t'.store.pool.mem m := block.mono (blockAt_above layout id)
      have now : t'.map.txs i = some (tx.create id value change) := by
        rw [map]
        simp only [TxMap.next, TxMap.edit, TxMap.set, here, Option.map_some, Function.update_self]
      have drops : Dropped h m t'.map id := by
        have log := inv'.logs i known
        rw [now] at log
        have status : slotStatus m (h.slotAddr i) = TxStatus.processing.code := by
          rw [← log.commited.1.mp running]
          have few := layout.slot_room
          exact word_congr _ _ _ _ fun x lower upper => blocks_slot_bytes blocks known x (by omega)
        refine ⟨i, member, ?_⟩
        rw [Bool.eq_false_of_not_eq_true (not_stands (by rw [status]; decide)), drops_made, madeBy_eq now]
        simp [Tx.create]
      refine Torn.of_next (inv'.image rooms safe' (i := 0) (blocks.mono Set.subset_union_right)
        (fun first => absurd ((mem_replaySlots layout).mp first).1 (by decide)) fun other addr there => ?_)
      by_cases same : other = id
      · right
        rw [same_block other addr there same, same]
        exact ⟨filling.fits, Or.inl drops⟩
      · exact Or.inl (ChangedIn.others_untouched layout alone (block.mono Set.subset_union_left) same)
    · -- recovery does not see the log, and finds no object in the block
      have blocks : ChangedIn h.blockArea logged.pool.mem m := filling.changed.mono (blockAt_above layout id)
      left
      refine inv.image rooms safe ((only.mono Set.subset_union_left).trans (blocks.mono Set.subset_union_right))
        (fun here => absurd here member) fun other addr there => ?_
      by_cases same : other = id
      · right
        rw [same_block other addr there same, same]
        exact ⟨filling.fits, Or.inr ⟨filling.dead, dead⟩⟩
      · exact Or.inl ((log_untouched rooms known only (subset_refl _) other).trans
          (ChangedIn.others_untouched layout alone (filling.changed.mono Set.subset_union_left) same))
  refine Keeps.trans ((inv.append_keeps rooms safe known pool (by rwa [len]) log).mono fun m => ?_) (filled.mono fun m => ?_)
  · rintro (image | rfl)
    · exact Or.inl image
    · exact torn _ start
  · rintro (filling | rfl)
    · exact torn m filling
    · exact Torn.of_next ((inv'.crashImage layout safe').congr rfl)

theorem LedgerInv.tputNew_keeps (rooms : h.Rooms) (inv : LedgerInv h t) (safe : t.RecoverySafe h) (inv' : LedgerInv h t')
    (safe' : t'.RecoverySafe h) (known : i < h.txSlotsCount) {kv kv' : PmbPair} {old : Option Nat}
    (args : TputArgs h (i + 1) kv) (large : ¬SmallUpdate h kv) (within : LedgerSafe h t (.tput (i + 1) kv))
    (found : OldBlock h t.store.pool.mem kv.blkId old) (done : tputNewBlock h t.store (i + 1) kv old = (t'.store, .ok, kv'))
    {value : PartialBytes} {change : Change Nat PartialBytes}
    (map : t'.map = t.map.next (.create i kv'.blkId value change)) :
    Keeps h.headers (Torn h t t') t.store.pool t'.store.pool := by
  have layout := rooms.toLogLayout
  have data_room := rooms.data_room
  have fit := rooms.fit
  obtain ⟨entry, no_wrap, data, block_safe⟩ := within
  have alone := block_safe large
  have entry_len : tputEntryLen h kv = sizeofTxEntry := if_neg large
  rw [entry_len] at entry
  have value_fits := args.value_fits
  rw [u32_of_lt no_wrap] at value_fits
  obtain ⟨ret, obj, logged, direct, log, stored, rfl⟩ := tputNewBlock_ok done
  obtain ⟨⟨range, dead⟩, positive, -⟩ := inv.free.data.pop (by omega) ret
  have only := (logNewBlock_slotOnly layout known
    (s := { t.store with freeList := (caslistPop t.store.freeList 0).list }) entry log).1
  have held : HoldsBut h logged.pool.mem t.map.objects ∅ := inv.held.log rooms (ChangedIn.mono only (slotArea_log known))
  have pool : t'.store.pool = tputBlock h logged.pool obj old kv := by rw [stored]
  refine inv.create_keeps rooms safe inv' safe' known alone positive direct dead map
    (s := { t.store with freeList := (caslistPop t.store.freeList 0).list }) rfl entry log fun start => ?_
  rw [pool]
  refine tputBlock_keeps rooms range.2 direct args.key_fits (by omega) start old fun oldObj member => ?_
  rcases found with ⟨-, rfl⟩ | ⟨update, addr, get, rfl⟩
  · cases member
  · cases member
    have there := (log_untouched rooms known only (subset_refl _) kv.blkId).backendGet (rooms.room kv.blkId) |>.mpr get
    obtain ⟨v, -, length, -, room, stable⟩ := held.previous rooms alone data dead there
    refine ⟨v.len, fun m changed => ?_, room⟩
    rw [← length]
    exact word_congr _ _ _ _ fun x lower upper => stable m changed x ⟨by omega, by omega⟩

theorem LedgerInv.tputMeta_keeps (rooms : h.Rooms) (inv : LedgerInv h t) (safe : t.RecoverySafe h) (inv' : LedgerInv h t')
    (safe' : t'.RecoverySafe h) (known : i < h.txSlotsCount) {kv kv' : PmbPair}
    (within : LedgerSafe h t (.tputMeta (i + 1) kv)) (done : pmbTputMeta h t.store (i + 1) kv = (t'.store, .ok, kv'))
    (stale : ∀ obj, backendDirect h.backend kv'.blkId = some obj →
      32 + kv.keyLen + valLen t.store.pool.mem obj ≤ h.backend.blockSize kv'.blkId)
    {value : PartialBytes} {change : Change Nat PartialBytes}
    (map : t'.map = t.map.next (.create i kv'.blkId value change)) :
    Keeps h.headers (Torn h t t') t.store.pool t'.store.pool := by
  have layout := rooms.toLogLayout
  have meta_room := rooms.meta_room
  have small := rooms.metaBsize_small
  obtain ⟨entry, no_wrap, alone⟩ := within
  obtain ⟨args, old, found, new_block⟩ := pmbTputMeta_ok done
  have fits := args.fits
  rw [u32_of_lt no_wrap, u32_of_lt (by omega)] at fits
  obtain ⟨ret, obj, logged, direct, log, stored, rfl⟩ := tputMetaNewBlock_ok new_block
  obtain ⟨⟨range, dead⟩, positive, -⟩ := inv.free.metadata.pop rooms.fit ret
  have only := (logNewBlock_slotOnly layout known
    (s := { t.store with metaFreeList := (caslistPop t.store.metaFreeList 0).list }) entry log).1
  have pool : t'.store.pool = tputMetaBlock h logged.pool obj old kv := by rw [stored]
  have size : h.backend.blockSize (caslistPop t.store.metaFreeList 0).val = h.backend.metaBsize :=
    if_neg (Nat.not_lt.mpr range.1)
  refine inv.create_keeps rooms safe inv' safe' known alone positive direct dead map
    (s := { t.store with metaFreeList := (caslistPop t.store.metaFreeList 0).list }) rfl entry log fun start => ?_
  rw [pool]
  refine tputMetaBlock_keeps rooms range.1 direct (by rw [size]; omega) ?_ start old
  have same := log_untouched rooms known only (subset_refl _) (caslistPop t.store.metaFreeList 0).val
  rw [(same.words direct (rooms.room _)).2.2.2.2]
  exact stale obj direct

end Creates

def FadedIn (h : Handle) (ids : Set Nat) (m₀ m : Mem) : Prop :=
  ∀ x, m x = m₀ x ∨ m x = 0 ∧ ∃ id ∈ ids, x ∈ h.blockAt id

section Fading

variable {h : Handle} {ids : Set Nat} {m₀ m : Mem} {p : Pool} {s : Store} {id obj i : Nat} {t t' : Ledger}

theorem FadedIn.refl (ids : Set Nat) (m : Mem) : FadedIn h ids m m := fun _ => Or.inl rfl

theorem FadedIn.changed (layout : h.LogLayout) (faded : FadedIn h ids m₀ m) : ChangedIn h.blockArea m₀ m := by
  intro x outside
  rcases faded x with same | ⟨-, id, -, inside⟩
  · exact same
  · exact absurd (blockAt_above layout id inside) outside

theorem FadedIn.untouched (faded : FadedIn h ids m₀ m) (alone : ∀ id ∈ ids, h.Alone id) (spared : id ∉ ids) :
    Untouched h id m₀ m := by
  rintro x ⟨obj, direct, inside⟩
  rcases faded x with same | ⟨-, dead, member, obj', direct', inside'⟩
  · exact same
  · have different : id ≠ dead := fun same => spared (same ▸ member)
    exact absurd inside' (Set.disjoint_left.mp (alone dead member id different obj obj' direct direct') inside)

theorem FadedIn.lengths (faded : FadedIn h ids m₀ m) (obj : Nat) :
    keyLen m obj ≤ keyLen m₀ obj ∧ valLen m obj ≤ valLen m₀ obj :=
  ⟨word_le _ _ (obj + 20) 4 fun x _ _ => (faded x).imp_right And.left,
    word_le _ _ (obj + 24) 4 fun x _ _ => (faded x).imp_right And.left⟩

theorem FadedIn.zero (faded : FadedIn h ids m₀ m) (member : id ∈ ids) (direct : backendDirect h.backend id = some obj)
    (fits : 32 + keyLen m₀ obj + valLen m₀ obj ≤ h.backend.blockSize id) (count : Nat) :
    FadedIn h ids m₀ (m.write obj ((List.replicate (sizeofDataHdr + keyLen m obj + valLen m obj) 0).take count)) := by
  have hdr : sizeofDataHdr = 32 := rfl
  obtain ⟨key, val⟩ := faded.lengths obj
  intro x
  rw [List.take_replicate, write_zeros]
  split
  · refine Or.inr ⟨rfl, id, member, ?_⟩
    rw [blockAt_span direct, mem_span]
    omega
  · exact faded x

theorem Keeps.fade (keeps : Keeps h.headers (FadedIn h ids m₀) p s.pool) (member : id ∈ ids)
    (direct : backendDirect h.backend id = some obj)
    (fits : 32 + keyLen m₀ obj + valLen m₀ obj ≤ h.backend.blockSize id) :
    Keeps h.headers (FadedIn h ids m₀) p (s.setZero (some obj)).pool :=
  keeps.store obj _ fun count _ => keeps.last.zero member direct fits count

theorem zeroReleases_keep {ended : List Nat} (known : ∀ id ∈ ended, id ∈ ids)
    (fits : ∀ id obj, backendDirect h.backend id = some obj → 32 + keyLen m₀ obj + valLen m₀ obj ≤ h.backend.blockSize id)
    (start : Keeps h.headers (FadedIn h ids m₀) p s.pool) :
    Keeps h.headers (FadedIn h ids m₀) p (ended.foldl (zeroRelease h) s).pool := by
  induction ended generalizing s with
  | nil => exact start
  | cons id rest ih =>
    refine ih (fun other later => known other (List.mem_cons_of_mem id later)) ?_
    rw [zeroRelease_pool]
    cases direct : backendDirect h.backend id with
    | none => exact start
    | some obj => exact start.fade (known id List.mem_cons_self) direct (fits id obj direct)

theorem LedgerInv.faded (rooms : h.Rooms) (inv : LedgerInv h t) (safe : t.RecoverySafe h) (known : i < h.txSlotsCount)
    {marked : Mem} (header : ChangedIn (h.slotArea i) t.store.pool.mem marked) (faded : FadedIn h ids marked m)
    (here : i ∈ replaySlots h → SlotHolds h (t.store.crashed m) i (t.map.txs i) ∧
      (t.map.txs i ≠ none → ReplaySafe h (t.store.crashed m) t.map i))
    (alone : ∀ id ∈ ids, h.Alone id) (drops : ∀ id ∈ ids, Dropped h m t.map id) :
    CrashImage h (t.store.crashed m) t.map := by
  have layout := rooms.toLogLayout
  refine inv.image rooms safe ((header.mono Set.subset_union_left).trans
    ((faded.changed layout).mono Set.subset_union_right)) here fun id obj direct => ?_
  have same := log_untouched rooms known header (subset_refl _) id
  by_cases member : id ∈ ids
  · right
    obtain ⟨key_fits, fits, -⟩ := same.contained direct (rooms.room id) (inv.blocks.contained id obj direct)
    obtain ⟨key, val⟩ := faded.lengths obj
    exact ⟨Handle.LengthsFit.mono ⟨key_fits, fits⟩ key val, Or.inl (drops id member)⟩
  · exact Or.inl (same.trans (faded.untouched alone member))

theorem executeRecord_keeps {txId : Nat} {r : LogRecord} {s' : Store} (plain : ¬InPlace r)
    (removes : Zeroes r.entry → r.entry.blkId1 ∈ ids)
    (fits : ∀ id obj, backendDirect h.backend id = some obj → 32 + keyLen m₀ obj + valLen m₀ obj ≤ h.backend.blockSize id)
    (keeps : Keeps h.headers (FadedIn h ids m₀) p s.pool) (done : executeRecord h txId s r = some s') :
    Keeps h.headers (FadedIn h ids m₀) p s'.pool ∧ s'.updIdList = s.updIdList := by
  have other : r.entry.type ≠ TxOp.updinplace.code := plain
  unfold executeRecord at done
  rw [if_neg other] at done
  unfold executeEntry at done
  split at done
  · next zeroes =>
    split at done
    · cases done
      exact ⟨keeps, rfl⟩
    · next obj found =>
      cases done
      obtain ⟨pool, lists, -⟩ := release_frame h (s.setZero (some obj)) r.entry.blkId1
      have direct := (backendGet_ok.mp found).2.1
      refine ⟨?_, lists⟩
      rw [pool]
      exact keeps.fade (removes zeroes) direct (fits _ obj direct)
  · cases done
    exact ⟨keeps, rfl⟩

theorem LedgerInv.execute_keeps (rooms : h.Rooms) (inv : LedgerInv h t) (safe : t.RecoverySafe h) (inv' : LedgerInv h t')
    (safe' : t'.RecoverySafe h) {txSlot : Nat} (done : pmbTxExecute h t.store txSlot = some (t'.store, .ok))
    (plain : ∀ id f, Change.modify id f ∉ t.map.pendingOf (txSlot - 1))
    (again : (∀ id, Change.remove id ∉ t.map.pendingOf (txSlot - 1)) ∨
      txSlot - 1 ∈ replaySlots h ∧ replayStands h t.store.pool.mem (txSlot - 1) = true) :
    Keeps h.headers (Torn h t t') t.store.pool t'.store.pool := by
  have layout := rooms.toLogLayout
  obtain ⟨i, known, rfl⟩ := pmbTxExecute_known done
  have valid : ¬(i + 1 = 0 ∨ i + 1 > h.txSlotsCount) := by omega
  unfold pmbTxExecute at done
  rw [if_neg valid] at done
  simp only [Nat.add_sub_cancel] at plain again
  obtain ⟨⟨executed, status⟩, execute, finish⟩ := Option.map_eq_some_iff.mp done
  simp only [Prod.mk.injEq] at finish
  obtain ⟨same, rfl⟩ := finish
  have commited := txSlotExecute_commited layout known execute
  have log := inv.logs i known
  obtain ⟨tx, here⟩ := log.used (by rw [commited]; decide)
  rw [here] at log
  obtain ⟨-, ops, does, records, logged, decoded⟩ := log
  rw [pendingOf_eq here] at plain again
  rw [txSlotExecute_records layout known commited logged.records logged.fits] at execute
  obtain ⟨walked, walk, rest⟩ := Option.bind_eq_some_iff.mp execute
  obtain ⟨processed, process, finish⟩ := Option.map_eq_some_iff.mp rest
  simp only [Prod.mk.injEq, and_true] at finish
  have fits : ∀ id obj, backendDirect h.backend id = some obj →
      32 + keyLen t.store.pool.mem obj + valLen t.store.pool.mem obj ≤ h.backend.blockSize id :=
    fun id obj direct => (inv.blocks.contained id obj direct).zeroed
  have walking : Keeps h.headers (FadedIn h {id | Change.remove id ∈ tx.pending} t.store.pool.mem) t.store.pool
      walked.pool ∧ walked.updIdList = t.store.updIdList := by
    refine foldlM_induct (fun u => Keeps h.headers (FadedIn h {id | Change.remove id ∈ tx.pending} t.store.pool.mem)
      t.store.pool u.pool ∧ u.updIdList = t.store.updIdList) _ _ (fun r member u u' before entry => ?_) t.store walked
      ⟨Keeps.refl (FadedIn.refl _ _), rfl⟩ walk
    have in_place : ¬InPlace r := fun updates => by
      obtain ⟨-, f, pending⟩ := does.in_place decoded member updates
      exact plain _ f pending
    have removes : Zeroes r.entry → Change.remove r.entry.blkId1 ∈ tx.pending := fun zeroes => by
      rw [← does.changes decoded]
      exact List.mem_map.mpr ⟨r, member, if_pos zeroes⟩
    obtain ⟨keeps, lists⟩ := executeRecord_keeps in_place removes fits before.1 entry
    exact ⟨keeps, lists.trans before.2⟩
  have pool : t'.store.pool = backendTxSetZero h walked.pool (h.slotAddr i) := by
    unfold txSlotMetaUpdProcess at process
    simp only at process
    rw [walking.2, (inv.lists i known).empty, metaProcess, Option.map_some] at process
    cases process
    rw [← same, ← finish]
    rfl
  rw [pool]
  refine Keeps.txSetZero (walking.1.mono fun m faded => Or.inl ?_) h (slotWord_header known (show 0 + 12 ≤ 24 by omega)) ?_
  · have slot : ∀ x ∈ h.slotArea i, m x = t.store.pool.mem x := fun x inside =>
      blocks_slot_bytes (faded.changed layout) known x inside.2
    have removed : ∀ id ∈ {id | Change.remove id ∈ tx.pending}, i ∈ replaySlots h ∧
        replayStands h t.store.pool.mem i = true ∧ Change.remove id ∈ tx.pending := fun id member =>
      again.elim (fun none_removed => absurd member (none_removed id)) fun both => ⟨both.1, both.2, member⟩
    refine inv.faded rooms safe known (ChangedIn.refl _ _) faded
      (fun member => slot_same layout inv safe member slot) (fun id member => ?_) fun id member => ?_
    · obtain ⟨inside, stands, pending⟩ := removed id member
      refine (safe i inside (by rw [here]; exact Option.some_ne_none tx)).alone stands id ?_
      rwa [pendingOf_eq here]
    · obtain ⟨inside, stands, pending⟩ := removed id member
      refine ⟨i, inside, ?_⟩
      rw [replayStands_same layout slot fun now => ?_, stands, drops_pending, pendingOf_eq here]
      · exact pending
      · exact (safe i inside (by rw [here]; exact Option.some_ne_none tx)).room now
  · have final : walked.pool.mem.write (h.slotAddr i) (List.replicate 12 0) = t'.store.pool.mem := by
      rw [pool, backendTxSetZero_mem]
    rw [final]
    exact Torn.of_next ((inv'.crashImage layout safe').congr rfl)

theorem slotReset_keeps (known : i < h.txSlotsCount) {P : Mem → Prop} (keeps : Keeps h.headers P p s.pool) (txId : Nat)
    (empty : ∀ m, ChangedIn (span (h.slotAddr i) 24) s.pool.mem m → slotStatus m (h.slotAddr i) = TxStatus.empty.code →
      P m) : Keeps h.headers P p (slotReset h s (h.slotAddr i) txId).pool := by
  have first : ChangedIn (span (h.slotAddr i) 24) s.pool.mem (s.pool.setStatus (h.slotAddr i) .empty).mem :=
    (ChangedIn.refl _ _).thenEncode _ _ _ (by omega) (by omega)
  have status : slotStatus (s.pool.setStatus (h.slotAddr i) .empty).mem (h.slotAddr i) = TxStatus.empty.code := by
    rw [Pool.setStatus, slotStatus, Pool.store_mem, word_write_same]
    decide
  have marked : Keeps h.headers P p (s.pool.setStatus (h.slotAddr i) .empty) :=
    keeps.slotWord known 8 4 TxStatus.empty.code (by omega) (empty _ first status)
  unfold slotReset
  simp only
  generalize s.pool.setStatus (h.slotAddr i) .empty = q at first status marked ⊢
  have second : ChangedIn (span (h.slotAddr i) 24) s.pool.mem (q.setSize (h.slotAddr i) 0).mem :=
    first.thenEncode _ _ _ (by omega) (by omega)
  have still : slotStatus (q.setSize (h.slotAddr i) 0).mem (h.slotAddr i) = TxStatus.empty.code :=
    (word_write_disjoint _ _ _ _ _ (by simp)).trans status
  have sized : Keeps h.headers P p (q.setSize (h.slotAddr i) 0) :=
    marked.slotWord known 16 8 0 (by omega) (empty _ second still)
  generalize q.setSize (h.slotAddr i) 0 = q at second still sized ⊢
  have third : ChangedIn (span (h.slotAddr i) 24) s.pool.mem (txSlotChecksum h q (h.slotAddr i) txId).mem := by
    rw [txSlotChecksum_mem]
    exact second.thenEncode _ _ _ (by omega) (by omega)
  have again : slotStatus (txSlotChecksum h q (h.slotAddr i) txId).mem (h.slotAddr i) = TxStatus.empty.code := by
    rw [txSlotChecksum_mem]
    exact (word_write_disjoint _ _ _ _ _ (by simp)).trans still
  refine (sized.slotChecksum known txId (empty _ third again)).txSetZero h
    (slotWord_header known (show 0 + 12 ≤ 24 by omega)) (empty _ (third.thenWrite _ _ ?_) ?_)
  · exact span_subset (by omega) (by rw [List.length_replicate]; omega)
  · exact word_of_zeros _ _ _ fun x lower upper => by rw [write_zeros, if_pos (by omega)]

theorem abortedId_made (inv : LedgerInv h t) (made : t.map.madeBy i id ≠ none) (known : i < h.txSlotsCount) :
    h.Usable id := by
  have log := inv.logs i known
  cases here : t.map.txs i with
  | none =>
    unfold TxMap.madeBy at made
    rw [here] at made
    exact absurd rfl made
  | some tx =>
    rw [here] at log
    obtain ⟨-, ops, does, -⟩ := log
    rw [madeBy_eq here] at made
    exact does.usable made

theorem LedgerInv.abort_keeps (rooms : h.Rooms) (inv : LedgerInv h t) (safe : t.RecoverySafe h) (inv' : LedgerInv h t')
    (safe' : t'.RecoverySafe h) {txSlot : Nat} (within : LedgerSafe h t (.txAbort txSlot))
    (done : pmbTxAbort h t.store txSlot = (t'.store, .ok)) (map : t'.map = t.map.next (.abort (txSlot - 1)))
    (again : txSlot - 1 ∈ replaySlots h ∨ ∀ id, t.map.madeBy (txSlot - 1) id = none) :
    Keeps h.headers (Torn h t t') t.store.pool t'.store.pool := by
  have layout := rooms.toLogLayout
  have few := layout.slot_room
  obtain ⟨i, known, rfl⟩ := pmbTxAbort_known done
  simp only [LedgerSafe, Nat.add_sub_cancel] at within again map
  have result := pmbTxAbort_ok layout known done
  have invalid : ¬(i + 1 = 0 ∨ i + 1 > h.txSlotsCount) := by omega
  unfold pmbTxAbort at done
  rw [if_neg invalid] at done
  simp only [Prod.mk.injEq] at done
  obtain ⟨-, success⟩ := done
  obtain ⟨-, -, failed⟩ | ⟨running, -⟩ := txSlotAbort_spec layout t.store known
  · rw [failed] at success
    cases success
  have log := inv.logs i known
  obtain ⟨tx, here⟩ := log.used (by
    rcases running with processing | commited
    · rw [processing]
      decide
    · rw [commited]
      decide)
  -- while the slot says that it is aborted
  have aborting : ∀ marked m, ChangedIn (span (h.slotAddr i) 16) t.store.pool.mem marked →
      slotStatus marked (h.slotAddr i) = TxStatus.aborted.code →
      FadedIn h {id | t.map.madeBy i id ≠ none} marked m → Torn h t t' m := by
    intro marked m header status faded
    have slot : ∀ x, x < h.slotAddr i + h.backend.txSlotSize → m x = marked x :=
      blocks_slot_bytes (faded.changed layout) known
    have now : slotStatus m (h.slotAddr i) = TxStatus.aborted.code := by
      rw [← status]
      exact word_congr _ _ _ _ fun x lower upper => slot x (by omega)
    have refused : replayStands h m i ≠ true := not_stands (by rw [now]; decide)
    have inside : span (h.slotAddr i) 16 ⊆ h.slotArea i := slotHeader_area layout i 0 16 (by omega)
    left
    refine inv.faded rooms safe known (header.mono inside) faded (fun member => ?_)
      (fun id made => (abortedId_made inv made known).alone) fun id made => ?_
    · refine header_slot layout inv safe member here (fun x lower upper => ?_) (by rw [now]; decide) ⟨_, now⟩ refused
        fun commited => absurd (now.symm.trans commited) (by decide)
      rw [slot x upper]
      exact header_frame header x lower
    · rcases again with member | none_made
      · refine ⟨i, member, ?_⟩
        rw [Bool.eq_false_of_not_eq_true refused, drops_made]
        exact made
      · exact absurd (none_made id) made
  -- once it is empty
  have emptied : ∀ m, ChangedIn (h.slotArea i) t'.store.pool.mem m → slotStatus m (h.slotAddr i) = TxStatus.empty.code →
      Torn h t t' m := by
    intro m changed empty
    have gone : t'.map.txs i = none := by
      rw [map]
      simp only [TxMap.next, TxMap.finish, here, Function.update_self]
    refine Torn.of_next (inv'.image rooms safe' (changed.mono Set.subset_union_left) (fun _ => ?_) fun id _ _ =>
      Or.inl (log_untouched rooms known changed (subset_refl _) id))
    rw [gone]
    exact ⟨empty, fun opened => absurd rfl opened⟩
  have aborted : slotStatus (slotAborted h t.store (h.slotAddr i) i).pool.mem (h.slotAddr i) = TxStatus.aborted.code := by
    simp only [slotAborted, slotStatus, txSlotChecksum_mem, Pool.store_mem]
    rw [word_write_disjoint _ _ _ _ _ (by simp), word_write_same]
    decide
  have marked : Keeps h.headers (Torn h t t') t.store.pool (slotAborted h t.store (h.slotAddr i) i).pool := by
    have start : Keeps h.headers (Torn h t t') t.store.pool t.store.pool :=
      Keeps.refl (Or.inl ((inv.crashImage layout safe).congr rfl))
    have status : slotStatus (t.store.pool.setStatus (h.slotAddr i) .aborted).mem (h.slotAddr i) =
        TxStatus.aborted.code := by
      rw [Pool.setStatus, slotStatus, Pool.store_mem, word_write_same]
      decide
    refine (start.slotWord known 8 4 TxStatus.aborted.code (by omega) ?_).slotChecksum known i ?_
    · exact aborting _ _ ((ChangedIn.refl _ _).thenEncode _ _ _ (by omega) (by omega)) status (FadedIn.refl _ _)
    · exact aborting _ _ (slotAborted_header h t.store (h.slotAddr i) i) aborted (FadedIn.refl _ _)
  have strides := slotStrides_congr (slotAborted_header h t.store (h.slotAddr i) i)
  have walked := abortLog_ids layout (h.slotAddr i) (slotAborted h t.store (h.slotAddr i) i)
    (by rw [strides]; exact within.inside)
  have undone : Keeps h.headers (Torn h t t') t.store.pool
      (abortLog h (slotAborted h t.store (h.slotAddr i) i) (h.slotAddr i)).pool := by
    refine marked.trans (Keeps.mono (P := FadedIn h {id | t.map.madeBy i id ≠ none}
      (slotAborted h t.store (h.slotAddr i) i).pool.mem) ?_ fun m faded => ?_)
    · rw [walked]
      refine zeroReleases_keep (fun id member => ?_) (fun id obj direct => ?_) (Keeps.refl (FadedIn.refl _ _))
      · refine (within.ids id).mp ?_
        rwa [abortedIds, strides] at member
      · have same := log_untouched rooms known (slotAborted_changed layout t.store i i) (subset_refl _) id
        exact (same.contained direct (rooms.room id) (inv.blocks.contained id obj direct)).zeroed
    · exact aborting _ m (slotAborted_header h t.store (h.slotAddr i) i) aborted faded
  generalize abortLog h (slotAborted h t.store (h.slotAddr i) i) (h.slotAddr i) = u at undone result
  have pool : t'.store.pool = (slotReset h u (h.slotAddr i) i).pool := by rw [result]; rfl
  have back : ChangedIn (h.slotArea i) t'.store.pool.mem u.pool.mem := by
    rw [pool]
    exact fun x outside => (slotReset_changed layout u i i x outside).symm
  rw [pool]
  refine slotReset_keeps known undone i fun m header empty => emptied m (back.trans (header.mono ?_)) empty
  exact slotHeader_area layout i 0 24 (le_refl _)

theorem LedgerInv.zeroed_keeps (rooms : h.Rooms) (inv : LedgerInv h t) (safe : t.RecoverySafe h) (inv' : LedgerInv h t')
    (safe' : t'.RecoverySafe h) (found : backendGet h t.store.pool.mem id = .ok obj)
    (pool : t'.store.pool = (t.store.setZero (some obj)).pool) (gone : t'.map.objects id = none) :
    Keeps h.headers (Torn h t t') t.store.pool t'.store.pool := by
  have layout := rooms.toLogLayout
  have hdr : sizeofDataHdr = 32 := rfl
  obtain ⟨-, direct, live⟩ := backendGet_ok.mp found
  have contained := inv.blocks.contained id obj direct
  have alone := contained.alone live
  have fits := contained.zeroed
  have back : ChangedIn (h.blockAt id) t'.store.pool.mem t.store.pool.mem := by
    rw [pool]
    intro x outside
    exact ((setZero_changed t.store obj).mono (span_blockAt direct (le_refl _) (by omega)) x outside).symm
  have start : Keeps h.headers (Torn h t t') t.store.pool t.store.pool :=
    Keeps.refl (Or.inl ((inv.crashImage layout safe).congr rfl))
  rw [pool]
  refine start.store obj (List.replicate (sizeofDataHdr + keyLen t.store.pool.mem obj + valLen t.store.pool.mem obj) 0)
    fun count cut => ?_
  have header : obj + 31 < obj + count := by
    refine cut (obj + 31) (Or.inr ⟨id, obj, direct, ?_⟩) ?_
    · rw [mem_span]
      omega
    · rw [List.length_replicate, mem_span]
      omega
  rw [List.take_replicate]
  have all : 32 ≤ min count (sizeofDataHdr + keyLen t.store.pool.mem obj + valLen t.store.pool.mem obj) := by omega
  have most : min count (sizeofDataHdr + keyLen t.store.pool.mem obj + valLen t.store.pool.mem obj) ≤
      h.backend.blockSize id := by omega
  generalize min count (sizeofDataHdr + keyLen t.store.pool.mem obj + valLen t.store.pool.mem obj) = zeros at all most
  have zero : ∀ offset width, offset + width ≤ 32 →
      (t.store.pool.mem.write obj (List.replicate zeros 0)).word (obj + offset) width = 0 :=
    fun offset width inside => word_of_zeros _ _ _ fun x lower upper => by rw [write_zeros, if_pos (by omega)]
  have block : ChangedIn (h.blockAt id) t'.store.pool.mem (t.store.pool.mem.write obj (List.replicate zeros 0)) := by
    refine back.thenWrite _ _ (span_blockAt direct (le_refl _) ?_)
    rw [List.length_replicate]
    omega
  refine Torn.of_next (inv'.image rooms safe' (i := 0) ((block.mono (blockAt_above layout id)).mono Set.subset_union_right)
    (fun first => absurd ((mem_replaySlots layout).mp first).1 (by decide)) fun other addr there => ?_)
  by_cases same : other = id
  · right
    rw [same] at there ⊢
    cases direct.symm.trans there
    obtain ⟨contained, -⟩ := contained_of_zeros rooms id (zero 0 8 (by omega)) (zero 20 4 (by omega)) (zero 24 4 (by omega))
    exact ⟨⟨contained.key_fits, contained.fits⟩, Or.inr ⟨zero 0 8 (by omega), gone⟩⟩
  · exact Or.inl (ChangedIn.others_untouched layout alone (block.mono Set.subset_union_left) same)

theorem LedgerInv.resolve_keeps (rooms : h.Rooms) (inv : LedgerInv h t) (safe : t.RecoverySafe h) (inv' : LedgerInv h t')
    (safe' : t'.RecoverySafe h) {blkId1 blkId2 : Nat} (success : resolveStatus h t.store blkId1 blkId2 = .ok)
    (store : (pmbResolveConflict h t.store blkId1 blkId2).1 = t'.store)
    (map : t'.map = t.map.next (.alone (.remove
      (if (pmbResolveConflict h t.store blkId1 blkId2).2 = blkId1 then blkId2 else blkId1)))) :
    Keeps h.headers (Torn h t t') t.store.pool t'.store.pool := by
  unfold resolveStatus at success
  cases found1 : backendGet h t.store.pool.mem blkId1 with
  | error e =>
    rw [found1] at success
    cases success
  | ok obj1 =>
    cases found2 : backendGet h t.store.pool.mem blkId2 with
    | error e =>
      rw [found1, found2] at success
      cases success
    | ok obj2 =>
      have zeroes : ∀ id obj, backendGet h t.store.pool.mem id = .ok obj →
          t'.store.pool = (t.store.setZero (some obj)).pool → t'.map = t.map.next (.alone (.remove id)) →
          Keeps h.headers (Torn h t t') t.store.pool t'.store.pool := by
        intro id obj found pool removed
        refine inv.zeroed_keeps rooms safe inv' safe' found pool ?_
        rw [removed]
        exact Function.update_self _ _ _
      unfold pmbResolveConflict at store map
      rw [found1, found2] at store map
      simp only at store map
      by_cases newer : version t.store.pool.mem obj1 > version t.store.pool.mem obj2
      · simp only [if_pos newer] at store map
        by_cases same : blkId2 = blkId1
        · rw [if_pos same] at map
          have both : obj1 = obj2 := by
            rw [same, found1] at found2
            exact Except.ok.inj found2
          exact absurd newer (by rw [both]; exact lt_irrefl _)
        · rw [if_neg same] at map
          exact zeroes blkId1 obj1 found1 (by rw [← store]) map
      · simp only [if_neg newer, if_true] at store map
        exact zeroes blkId2 obj2 found2 (by rw [← store]) map

end Fading

end PmBackend
