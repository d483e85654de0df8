import PmBackend.Durability
import PmBackend.SingleTransactions

set_option autoImplicit false

namespace PmBackend

open ByteMemory

-- what `pmb_get` reports of the pair, when it is in block `blkId`
def PmbPair.shown (kv : PmbPair) (blkId : Nat) : PmbObject where
  blkId := blkId
  id := kv.id
  keyLen := kv.keyLen
  key := kv.keyBytes
  valLen := kv.valLen
  val := if kv.valLen = 0 then none else some kv.valBytes
  offset := 0

structure Object where
  id : Nat
  key : List UInt8
  version : Nat
  value : PartialBytes

-- block `blkId` has the object, under the checksum that `recovery_thread` computes
structure HoldsObject (h : Handle) (m : Mem) (blkId obj : Nat) (o : Object) : Prop where
  direct : backendDirect h.backend blkId = some obj
  id : objectId m obj = o.id
  keyLen : keyLen m obj = o.key.length
  key : m.read (obj + 32) o.key.length = o.key
  version : version m obj = o.version
  valLen : valLen m obj = o.value.len
  value : o.value.HeldAt m (valueAddr h m blkId obj)
  verifies : utilChecksumVerify h m obj (objectSize h m blkId obj) = true

section Reading

variable {h : Handle} {m m' : Mem} {id obj : Nat}

theorem pmbGet_congr (same : ∀ x ∈ h.objectBytes m id, m' x = m x) : pmbGet h m' id = pmbGet h m id := by
  -- `pmb_get` reads the header, the key and the value
  have hdr : sizeofDataHdr = 32 := rfl
  unfold pmbGet backendGet
  by_cases null : id = 0
  · simp only [null, if_true]
  · rw [if_neg null, if_neg null]
    cases direct : backendDirect h.backend id with
    | none => rfl
    | some obj =>
      have word : ∀ offset width, offset + width ≤ 32 → m'.word (obj + offset) width = m.word (obj + offset) width :=
        fun offset width inside => word_congr _ _ _ _ fun x lower upper =>
          same x ⟨obj, direct, Or.inl ⟨by omega, by omega⟩⟩
      have flch : flch64 m' obj = flch64 m obj := word 0 8 (by omega)
      have name : objectId m' obj = objectId m obj := word 8 8 (by omega)
      have key : keyLen m' obj = keyLen m obj := word 20 4 (by omega)
      have val : valLen m' obj = valLen m obj := word 24 4 (by omega)
      have addr : valueAddr h m' id obj = valueAddr h m id obj := valueAddr_congr key
      have key_bytes : m'.read (obj + sizeofDataHdr) (keyLen m obj) = m.read (obj + sizeofDataHdr) (keyLen m obj) :=
        read_congr _ _ _ _ fun x lower upper => same x ⟨obj, direct, Or.inr (Or.inl ⟨lower, upper⟩)⟩
      have val_bytes : m'.read (valueAddr h m id obj) (valLen m obj) = m.read (valueAddr h m id obj) (valLen m obj) :=
        read_congr _ _ _ _ fun x lower upper => same x ⟨obj, direct, Or.inr (Or.inr ⟨lower, upper⟩)⟩
      by_cases dead : flch64 m obj = 0
      · simp only [flch, if_pos dead]
      · simp only [flch, if_neg dead, name, key, val, addr, key_bytes, val_bytes]

theorem objectSize_eq (ids : h.Ids) (m : Mem) (id obj : Nat) : objectSize h m id obj = h.objectLen m id obj := by
  have null_block := ids.null_block
  unfold objectSize Handle.objectLen
  rw [ids.border]
  by_cases data : id < h.totalObjsCount
  · rw [if_neg (by omega), if_pos data]
  · rw [if_pos (by omega), if_neg data]

theorem insert_verifies (h : Handle) (p : Pool) (obj len : Nat) :
    utilChecksumVerify h (utilChecksumInsert h p obj len).mem obj len = true := by
  unfold utilChecksumVerify
  rw [beq_iff_eq, utilChecksumInsert_flch]
  exact (checksumOf_span fun x lower _ => write_outside _ _ _ _ (by rw [length_encode]; omega)).symm

theorem HoldsObject.found {o : Object} (holds : HoldsObject h m id obj o) (nonzero : ∀ bytes, h.checksum bytes ≠ 0)
    (positive : id ≠ 0) : backendGet h m id = .ok obj := by
  refine backendGet_ok.mpr ⟨positive, holds.direct, ?_⟩
  rw [beq_iff_eq.mp holds.verifies]
  exact checksumOf_ne nonzero _ _ _

theorem HoldsObject.recovered {o : Object} (holds : HoldsObject h m id obj o) (ids : h.Ids)
    (found : backendGet h m id = .ok obj) :
    recoveryList h m id = if id < h.totalObjsCount then .objs else .metaObjs := by
  have null_block := ids.null_block
  unfold recoveryList
  simp only [found, holds.verifies, if_true, ids.border]
  by_cases data : id < h.totalObjsCount
  · rw [if_pos data, if_neg (by omega)]
  · rw [if_neg data, if_pos (by omega)]

theorem HoldsObject.get {o : Object} (holds : HoldsObject h m id obj o) (found : backendGet h m id = .ok obj)
    {bytes : List UInt8} (value : o.value = .ofBytes bytes) :
    pmbGet h m id = .ok ⟨id, o.id, o.key.length, o.key, bytes.length, if bytes.length = 0 then none else some bytes, 0⟩ := by
  have hdr : sizeofDataHdr = 32 := rfl
  have length := holds.valLen
  have held := holds.value
  rw [value] at length held
  have read : m.read (valueAddr h m id obj) bytes.length = bytes := by
    apply List.ext_getElem
    · rw [length_read]
    · intro i _ bound
      rw [getElem_read]
      exact held i bound _ (List.getElem?_eq_getElem bound)
  have len : PmBackend.valLen m obj = bytes.length := length
  unfold pmbGet
  simp only [found, holds.id, holds.keyLen, hdr, holds.key, len, read]

theorem HoldsObject.congr {o : Object} (holds : HoldsObject h m id obj o) (ids : h.Ids) (len : Nat)
    (covers : h.objectLen m id obj ≤ len) (key_fits : 32 + o.key.length ≤ len)
    (same : ∀ x ∈ span obj len, m' x = m x) : HoldsObject h m' id obj o := by
  have word : ∀ offset width, offset + width ≤ 32 → m'.word (obj + offset) width = m.word (obj + offset) width :=
    fun offset width inside => word_congr _ _ _ _ fun x lower upper => same x ⟨by omega, by omega⟩
  have flch : flch64 m' obj = flch64 m obj := word 0 8 (by omega)
  have name : objectId m' obj = objectId m obj := word 8 8 (by omega)
  have ver : PmBackend.version m' obj = PmBackend.version m obj := word 16 4 (by omega)
  have key : PmBackend.keyLen m' obj = PmBackend.keyLen m obj := word 20 4 (by omega)
  have val : PmBackend.valLen m' obj = PmBackend.valLen m obj := word 24 4 (by omega)
  have addr : valueAddr h m' id obj = valueAddr h m id obj := valueAddr_congr key
  have last := valueAddr_objectLen h m id obj
  have above := valueAddr_ge h m id obj
  have length := holds.valLen
  have size : objectSize h m' id obj = objectSize h m id obj := by
    unfold objectSize
    rw [key, val]
  refine ⟨holds.direct, name.trans holds.id, key.trans holds.keyLen, ?_,
    ver.trans holds.version, val.trans holds.valLen, ?_, ?_⟩
  · rw [read_congr m m' _ _ fun x lower upper => same x ⟨by omega, by omega⟩]
    exact holds.key
  · rw [addr]
    exact holds.value.congr fun k below => same _ ⟨by omega, by omega⟩
  · have verifies := holds.verifies
    unfold utilChecksumVerify at verifies ⊢
    have sum : checksumOf h m' obj (objectSize h m id obj) = checksumOf h m obj (objectSize h m id obj) :=
      checksumOf_span fun x lower upper => same x ⟨by omega, by rw [objectSize_eq ids] at upper; omega⟩
    rw [size, flch, sum]
    exact verifies

theorem HoldsObject.log {o : Object} (holds : HoldsObject h m id obj o) (rooms : h.HeaderRooms)
    (changed : ChangedIn h.logArea m m') : HoldsObject h m' id obj o := by
  have above := rooms.blocks_above id obj holds.direct
  refine holds.congr rooms.toIds (h.objectLen m id obj + (32 + o.key.length)) (by omega) (by omega)
    fun x inside => changed x fun log => ?_
  simp only [mem_span] at inside
  simp only [Handle.logArea, Set.mem_ofPred_eq] at log
  omega

end Reading

section NewBlocks

variable {h : Handle} {p : Pool} {obj : Nat} {old : Option Nat} {kv : PmbPair}

theorem tputHeader_fields (h : Handle) (p : Pool) (obj : Nat) (old : Option Nat) (key : kv.keyBytes.length = kv.keyLen) :
    objectId (tputHeader h p obj old kv).mem obj = kv.id % 2 ^ 64 ∧
      version (tputHeader h p obj old kv).mem obj = nextVersion (p.setKeyLen obj kv.keyLen).mem old % 2 ^ 32 ∧
      (tputHeader h p obj old kv).mem.read (obj + 32) kv.keyLen = kv.keyBytes := by
  have hdr : sizeofDataHdr = 32 := rfl
  have wide : 256 ^ 8 = 2 ^ 64 := by decide
  have narrow : 256 ^ 4 = 2 ^ 32 := by decide
  simp only [tputHeader, objectId, version, Pool.store_mem, backendMemcpy_mem, hdr]
  refine ⟨?_, ?_, ?_⟩
  · rw [word_write_disjoint _ _ _ _ _ (by simp), word_write_same, wide]
  · rw [word_write_disjoint _ _ _ _ _ (by simp), word_write_disjoint _ _ _ _ _ (by simp),
      word_write_disjoint _ _ _ _ _ (by omega), word_write_same, narrow]
  · rw [read_write_disjoint _ _ _ _ _ (by simp), read_write_disjoint _ _ _ _ _ (by simp), ← key, read_write_same]

theorem tputKeep_front {objSize x : Nat} {oldObj : Nat} (front : x < obj + 32 + h.maxKeyLen)
    (other : x < obj + 24 ∨ obj + 28 ≤ x) : (tputKeep h p obj oldObj kv objSize).1.mem x = p.mem x := by
  have hdr : sizeofDataHdr = 32 := rfl
  rcases tputKeep_reads h p obj oldObj kv objSize with ⟨-, kept⟩ | ⟨first, -, kept⟩ | ⟨first, rest, -, kept⟩
  · rw [kept]
  · rw [kept]
    simp only [backendMemcpy_mem]
    exact write_outside _ _ _ _ (by omega)
  · rw [kept]
    simp only [Pool.store_mem, backendMemcpy_mem]
    rw [write_outside _ _ _ _ (by rw [length_encode]; omega), write_outside _ _ _ _ (by omega),
      write_outside _ _ _ _ (by omega)]

theorem tputBlock_front {x : Nat} (behind : obj + 8 ≤ x) (front : x < obj + 32 + h.maxKeyLen)
    (other : x < obj + 24 ∨ obj + 28 ≤ x) :
    (tputBlock h p obj old kv).mem x = (tputHeader h p obj old kv).mem x := by
  have hdr : sizeofDataHdr = 32 := rfl
  rw [tputBlock_filled]
  simp only [utilChecksumInsert, Pool.store_mem]
  rw [write_outside _ _ _ _ (by rw [length_encode]; omega)]
  unfold tputFilled
  simp only
  split
  · unfold tputValue
    simp only [backendMemcpy_mem]
    rw [write_outside _ _ _ _ (by omega)]
    cases old with
    | none => rfl
    | some oldObj =>
      simp only
      rw [tputKeep_front front other]
  · rfl

theorem tputBlock_fields (p : Pool) (obj : Nat) (old : Option Nat) (key : kv.keyBytes.length = kv.keyLen)
    (key_fits : kv.keyLen ≤ h.maxKeyLen) (short : kv.keyLen < 2 ^ 32) :
    objectId (tputBlock h p obj old kv).mem obj = kv.id % 2 ^ 64 ∧
      version (tputBlock h p obj old kv).mem obj = nextVersion (p.setKeyLen obj kv.keyLen).mem old % 2 ^ 32 ∧
      keyLen (tputBlock h p obj old kv).mem obj = kv.keyLen ∧
      (tputBlock h p obj old kv).mem.read (obj + 32) kv.keyLen = kv.keyBytes := by
  obtain ⟨name, ver, bytes⟩ := tputHeader_fields h p obj old key
  have len := (tputHeader_lengths h p obj old short).1
  rw [← name, ← ver, ← len]
  refine ⟨word_congr _ _ _ _ fun x lower upper => tputBlock_front (by omega) (by omega) (by omega),
    word_congr _ _ _ _ fun x lower upper => tputBlock_front (by omega) (by omega) (by omega),
    word_congr _ _ _ _ fun x lower upper => tputBlock_front (by omega) (by omega) (by omega), ?_⟩
  rw [len, ← bytes]
  exact read_congr _ _ _ _ fun x lower upper => tputBlock_front (by omega) (by omega) (by omega)

theorem tputBlock_holds (p : Pool) (old : Option Nat) (v : PartialBytes) (ids : h.Ids)
    (small : h.backend.bsize < 2 ^ 32) {id : Nat}
    (data : id < h.totalObjsCount) (direct : backendDirect h.backend id = some obj)
    (key : kv.keyBytes.length = kv.keyLen) (key_fits : kv.keyLen ≤ h.maxKeyLen)
    (bytes : kv.valBytes.length = kv.valLen) (no_offset : kv.valLen = 0 → kv.offset = 0)
    (fits : 32 + h.maxKeyLen + (kv.offset + kv.valLen) ≤ h.backend.bsize) (wide : kv.id < 2 ^ 64)
    (none_before : old = none ∨ kv.valLen = 0 → v = .empty)
    (held : kv.valLen ≠ 0 → ∀ oldObj ∈ old, valLen p.mem oldObj = v.len ∧
      v.HeldAt p.mem (oldObj + 32 + h.maxKeyLen) ∧ 32 + h.maxKeyLen + v.len ≤ h.backend.bsize ∧
      ∀ m, ChangedIn (h.blockAt id) p.mem m → ∀ x ∈ span oldObj (32 + h.maxKeyLen + v.len), m x = p.mem x) :
    ChangedIn (h.blockAt id) p.mem (tputBlock h p obj old kv).mem ∧
      HoldsObject h (tputBlock h p obj old kv).mem id obj
        ⟨kv.id, kv.keyBytes, nextVersion (p.setKeyLen obj kv.keyLen).mem old % 2 ^ 32, v.overlay kv.offset kv.valBytes⟩ := by
  have size := blockSize_data (h := h) data
  have block : h.blockAt id = span obj h.backend.bsize := by rw [blockAt_span direct, size]
  rw [block] at held
  obtain ⟨len, value⟩ := tputBlock_value key_fits bytes no_offset fits small none_before fun some_value oldObj member => by
    obtain ⟨length, before, short, stable⟩ := held some_value oldObj member
    exact ⟨length, before, stable, fun _ => by omega⟩
  obtain ⟨changed, -, covered, inside⟩ := tputFilled_sealed p obj key_fits no_offset fits small old
    fun some_value oldObj member => by
      obtain ⟨length, -, short, stable⟩ := held some_value oldObj member
      refine Or.inr ⟨v.len, fun m changed => ?_, fun _ => by omega⟩
      rw [← length]
      exact word_congr _ _ _ _ fun x lower upper => stable m changed x ⟨by omega, by omega⟩
  obtain ⟨name, ver, key_len, key_bytes⟩ := tputBlock_fields p obj old key key_fits (by omega)
  -- the checksum covers the value that the header describes
  have size_covered : objectSize h (tputBlock h p obj old kv).mem id obj = (tputFilled h p obj old kv).2 := by
    have same_len : valLen (tputBlock h p obj old kv).mem obj = valLen (tputFilled h p obj old kv).1.mem obj := by
      rw [tputBlock_filled]
      exact word_congr _ _ _ _ fun x lower _ => write_outside _ _ _ _ (by rw [length_encode]; omega)
    rw [objectSize_eq ids, h.objectLen_data data, covered, same_len]
  refine ⟨?_, direct, ?_, ?_, ?_, ver, len, ?_, ?_⟩
  · rw [block, tputBlock_filled]
    exact changed.thenEncode _ _ _ (by omega) (by omega)
  · rw [name]
    exact Nat.mod_eq_of_lt wide
  · rw [key_len, key]
  · simp only [key, key_bytes]
  · rw [valueAddr_data _ _ data]
    exact value
  · rw [size_covered, tputBlock_filled]
    exact insert_verifies _ _ _ _

end NewBlocks

section Calls

variable {h : Handle} {s s' t : Store} {i : Nat} {kv kv' : PmbPair}

theorem JustStarted.newBlock (layout : h.LogLayout) (ids : h.Ids)
    (free : DeadList h s.pool.mem s.freeList 1 h.totalObjsCount)
    (started : JustStarted h s i) (old_lt : kv.blkId < 2 ^ 64) {old : Option Nat}
    (done : tputNewBlock h s (i + 1) kv old = (s', .ok, kv')) :
    ∃ id obj logged, (id ≠ 0 ∧ id < h.totalObjsCount ∧ ¬h.Live s.pool.mem id) ∧ Listed s.freeList id ∧
      backendDirect h.backend id = some obj ∧ SlotOnly h i s logged ∧
      s' = { logged with pool := tputBlock h logged.pool obj old kv } ∧ kv' = { kv with blkId := id } ∧
      (∃ rest, ListOf s'.freeList rest) ∧ ∃ r, r.op = some (newBlockOp kv.blkId id) ∧ OneRecord h s' i r := by
  obtain ⟨popped, obj, logged, direct, entry, rfl, rfl⟩ := tputNewBlock_ok done
  have fit := ids.fit
  have small : h.totalObjsCount < 2 ^ 64 := by omega
  obtain ⟨⟨range, dead⟩, listed, positive, rest⟩ := free.pop small popped
  obtain ⟨only, frame, r, op, one⟩ := started.logNewBlock layout (u := { s with freeList := (caslistPop s.freeList 0).list })
    rfl rfl old_lt (by omega) entry
  have blocks := tputBlock_blocksOnly layout logged direct old kv
  refine ⟨_, obj, logged, ⟨positive, range.2, dead⟩, listed, direct, only, rfl, rfl, ?_, r, op, ?_⟩
  · rw [frame]
    exact rest
  · exact one.blocks (fun x below => blocks.changed x (by simpa [Handle.blockArea] using below)) rfl

structure RoundTrip (h : Handle) (s t : Store) (kv : PmbPair) (id : Nat) : Prop where
  get : pmbGet h t.pool.mem id = .ok (kv.shown id)
  accepted : recoveryList h t.pool.mem id = .objs
  others : ∀ j, h.Live s.pool.mem j → Disjoint (h.objectBytes s.pool.mem j) (h.blockAt id) →
    pmbGet h t.pool.mem j = pmbGet h s.pool.mem j

theorem put_get_round_trip (rooms : h.HeaderRooms) (small : h.backend.bsize < 2 ^ 32) (nonzero : ∀ bytes, h.checksum bytes ≠ 0)
    (free : DeadList h s.pool.mem s.freeList 1 h.totalObjsCount) (started : JustStarted h s i)
    (new : kv.blkId = 0) (no_offset : kv.offset = 0) (wide : kv.id < 2 ^ 64)
    (fits : 32 + h.maxKeyLen + kv.valLen ≤ h.backend.bsize)
    (put : pmbTput h s (i + 1) kv = (s', .ok, kv')) :
    RoundTrip h s s' kv kv'.blkId ∧ ∃ t, Finishes h s' (i + 1) t ∧ RoundTrip h s t kv kv'.blkId := by
  have layout := rooms.toLogLayout
  obtain ⟨args, ⟨short, -⟩ | ⟨-, old, previous, done⟩⟩ := pmbTput_ok put
  · exact absurd new short.1
  have no_old : old = none := by
    rcases previous with ⟨-, none_before⟩ | ⟨update, -⟩
    · exact none_before
    · exact absurd new update
  subst no_old
  obtain ⟨id, obj, logged, ⟨positive, data, -⟩, -, direct, only, rfl, rfl, -, r, op, one⟩ :=
    started.newBlock layout rooms.toIds free (by omega) done
  have key := keyBytes_eq args.key
  have bytes := valBytes_eq args.val
  obtain ⟨written, holds⟩ := tputBlock_holds logged.pool none .empty rooms.toIds small data direct
    key args.key_fits bytes args.no_offset (by omega) wide (fun _ => rfl) fun _ _ member => by cases member
  have value : (PartialBytes.empty.overlay kv.offset kv.valBytes) = .ofBytes kv.valBytes := by
    rw [no_offset]
    exact PartialBytes.empty_overlay _
  rw [value] at holds
  have logged_only := ChangedIn.mono only (slotArea_log started.known)
  -- from any memory that differs from this one in the log only
  have trip : ∀ u : Store, ChangedIn h.logArea (tputBlock h logged.pool obj none kv).mem u.pool.mem →
      RoundTrip h s u kv id := by
    intro u changed
    have after := holds.log rooms changed
    have found := after.found nonzero positive
    refine ⟨?_, ?_, fun j _ apart => pmbGet_congr fun x inside => ?_⟩
    · rw [after.get found rfl]
      simp only [PmbPair.shown, key, bytes]
    · rw [after.recovered rooms.toIds found, if_pos data]
    · have above := objectBytes_above layout inside
      have outside : x ∉ h.logArea := fun log => by
        simp only [Handle.logArea, Set.mem_ofPred_eq] at log
        omega
      rw [changed x outside, written x (Set.disjoint_left.mp apart inside), logged_only x outside]
  have write : r.op = some (.write id) := by
    rw [op, newBlockOp, if_neg (not_not.mpr new)]
  obtain ⟨t, finishes, after⟩ := one.finishes_write layout write
  exact ⟨trip _ (ChangedIn.refl _ _), t, finishes, trip t (after.mono (slotArea_log started.known))⟩

theorem OneRecord.finishes_update {r : LogRecord} (one : OneRecord h s i r) (layout : h.LogLayout)
    {oldId newId old : Nat} (op : r.op = some (.update oldId newId)) (found : backendGet h s.pool.mem oldId = .ok old)
    (sane : 32 + keyLen s.pool.mem old + valLen s.pool.mem old ≤ h.backend.blockSize oldId) :
    ∃ commited t, pmbTxCommit h s (i + 1) = (commited, .ok) ∧ ChangedIn h.logArea s.pool.mem commited.pool.mem ∧
      pmbTxExecute h commited (i + 1) = some (t, .ok) ∧
      ChangedIn (h.blockAt oldId ∪ h.logArea) s.pool.mem t.pool.mem ∧
      pmbGet h t.pool.mem oldId = .error .enoent ∧ t.freeList = (s.release h oldId).freeList ∧
      t.metaFreeList = (s.release h oldId).metaFreeList := by
  have hdr : sizeofDataHdr = 32 := rfl
  obtain ⟨type, same_id, -⟩ := r.reads op
  obtain ⟨-, direct, -⟩ := backendGet_ok.mp found
  have slot_log := slotArea_log (h := h) one.known
  rw [← same_id] at found
  obtain ⟨t, ⟨commited, commit, execute⟩, changed, free, metaFree⟩ := one.finishes_zeroes layout (Or.inl type) found
  obtain ⟨-, header, -⟩ := pmbTxCommit_ok layout one.known commit
  have marked : ChangedIn h.logArea s.pool.mem commited.pool.mem :=
    header.mono ((span_subset (le_refl _) (by have := layout.slot_room; omega)).trans slot_log)
  have zeroed : ChangedIn (h.blockAt oldId) s.pool.mem (s.setZero (some old)).pool.mem :=
    (setZero_changed s old).mono (span_blockAt direct (le_refl _) (by omega))
  rw [same_id] at free metaFree
  refine ⟨commited, t, commit, marked, execute, (zeroed.mono Set.subset_union_left).trans
    (changed.mono (slot_log.trans Set.subset_union_right)), pmbGet_dead ?_, free, metaFree⟩
  rintro ⟨obj, direct', live⟩
  rw [direct] at direct'
  cases direct'
  have above := layout.blocks_above oldId old direct
  have below := Handle.slot_below one.known
  refine live ?_
  rw [← (setZero_header s old).1]
  exact changed.word_apart (by omega)

-- the blocks of a free list do not overlap those of the objects
def FreeApart (h : Handle) (m : Mem) (list : Option Caslist) : Prop :=
  ∀ id, Listed list id → ∀ j, h.Live m j → h.backend.Apart j id

theorem DeadList.apart (layout : h.BlockLayout) {list : Option Caslist} {m : Mem} {low high : Nat}
    (dead : DeadList h m list low high) : FreeApart h m list := by
  obtain ⟨ids, lists, members⟩ := dead
  intro id listed j live
  refine layout.blocks_apart j id fun same => ?_
  subst same
  exact (members j ((lists.listed j).mp listed)).2 live

-- the value of a data object
def valueBytes (h : Handle) (m : Mem) (obj : Nat) : List UInt8 := m.read (obj + 32 + h.maxKeyLen) (valLen m obj)

-- the object of `old` after an update by the copying path of `pmb_tput`
def copiedObject (h : Handle) (m : Mem) (old : Nat) (kv : PmbPair) : Object where
  id := kv.id
  key := kv.keyBytes
  version := (version m old + 1) % 2 ^ 32
  value := if kv.valLen = 0 then .empty else (PartialBytes.ofBytes (valueBytes h m old)).overlay kv.offset kv.valBytes

structure OldData (h : Handle) (m : Mem) (blkId old : Nat) : Prop where
  found : backendGet h m blkId = .ok old
  data : blkId < h.totalObjsCount
  key_fits : keyLen m old ≤ h.maxKeyLen
  value_fits : valLen m old ≤ h.maxValLen

-- the copying path leaves the updated object in block `id`, which does not overlap the old one
structure CopiedTo (h : Handle) (s s' : Store) (i : Nat) (kv : PmbPair) (old id obj : Nat) : Prop where
  positive : id ≠ 0
  data : id < h.totalObjsCount
  disjoint : Disjoint (h.blockAt kv.blkId) (h.blockAt id)
  holds : HoldsObject h s'.pool.mem id obj (copiedObject h s.pool.mem old kv)
  key : kv.keyBytes.length ≤ h.maxKeyLen
  old_fits : 32 + h.maxKeyLen + valLen s.pool.mem old ≤ h.backend.bsize
  fits : 32 + h.maxKeyLen + (copiedObject h s.pool.mem old kv).value.len ≤ h.backend.bsize
  kept : Untouched h kv.blkId s.pool.mem s'.pool.mem
  logged : ∃ r, r.op = some (.update kv.blkId id) ∧ OneRecord h s' i r
  lists : ∃ rest, ListOf s'.freeList rest

theorem copiedObject_len (h : Handle) (m : Mem) (old : Nat) (bytes : kv.valBytes.length = kv.valLen) :
    (copiedObject h m old kv).value.len ≤ max (valLen m old) (kv.offset + kv.valLen) := by
  have len : (PartialBytes.ofBytes (valueBytes h m old)).len = valLen m old := length_read _ _ _
  simp only [copiedObject]
  split
  · exact Nat.zero_le _
  · rw [PartialBytes.overlay_len, len, bytes]

theorem JustStarted.copies (rooms : h.HeaderRooms) (small : h.backend.bsize < 2 ^ 32)
    (free : DeadList h s.pool.mem s.freeList 1 h.totalObjsCount)
    (apart : ∀ id, Listed s.freeList id → h.backend.Apart kv.blkId id) (started : JustStarted h s i)
    (args : TputArgs h (i + 1) kv) {old : Nat} (before : OldData h s.pool.mem kv.blkId old)
    (fits : 32 + h.maxKeyLen + max (valLen s.pool.mem old) (kv.offset + kv.valLen) ≤ h.backend.bsize) (wide : kv.id < 2 ^ 64)
    (done : tputNewBlock h s (i + 1) kv (some old) = (s', .ok, kv')) :
    ∃ obj, CopiedTo h s s' i kv old kv'.blkId obj := by
  have layout := rooms.toLogLayout
  have fit := rooms.fit
  obtain ⟨found, data, -, -⟩ := before
  obtain ⟨positive, direct_old, live⟩ := backendGet_ok.mp found
  have size_old := blockSize_data (h := h) data
  obtain ⟨id, obj, logged, ⟨new_positive, new_data, -⟩, listed, direct, only, rfl, rfl, rest, r, op, one⟩ :=
    started.newBlock layout rooms.toIds free (by omega) done
  have size_new := blockSize_data (h := h) new_data
  have block_new : h.blockAt id = span obj h.backend.bsize := by rw [blockAt_span direct, size_new]
  have block_old : h.blockAt kv.blkId = span old h.backend.bsize := by rw [blockAt_span direct_old, size_old]
  have disjoint : Disjoint (h.blockAt kv.blkId) (h.blockAt id) := by
    have blocks := apart id listed old obj direct_old direct
    rwa [size_old, size_new, ← block_old, ← block_new] at blocks
  have logged_old : Untouched h kv.blkId s.pool.mem logged.pool.mem :=
    ChangedIn.blocks_untouched layout (ChangedIn.mono only (slotArea_log started.known)) kv.blkId
  have outside : ∀ m m', ChangedIn (h.blockAt id) m m' → ∀ x ∈ span old h.backend.bsize, m' x = m x :=
    fun m m' changed x inside => changed x (Set.disjoint_left.mp disjoint (by rwa [block_old]))
  obtain ⟨-, -, ver, -, val_words⟩ := logged_old.words direct_old (by omega)
  have key := keyBytes_eq args.key
  have bytes := valBytes_eq args.val
  have len : (PartialBytes.ofBytes (valueBytes h s.pool.mem old)).len = valLen s.pool.mem old := length_read _ _ _
  -- the new block does not overlap the old value while it is copied
  obtain ⟨written, holds⟩ := tputBlock_holds logged.pool (some old)
    (if kv.valLen = 0 then .empty else .ofBytes (valueBytes h s.pool.mem old)) rooms.toIds small new_data direct
    key args.key_fits bytes args.no_offset (by omega) wide
    (fun blank => if_pos (blank.resolve_left fun none_before => by cases none_before))
    fun some_value oldObj member => by
      cases member
      rw [if_neg some_value, len]
      refine ⟨val_words, PartialBytes.ofBytes_heldAt fun k bound => ?_, by omega, fun m changed x inside => ?_⟩
      · rw [valueBytes, length_read] at bound
        simp only [valueBytes, getElem_read]
        exact logged_old _ (by rw [block_old, mem_span]; omega)
      · simp only [mem_span] at inside
        exact outside _ _ changed x ⟨by omega, by omega⟩
  have same_version : nextVersion (logged.pool.setKeyLen obj kv.keyLen).mem (some old) = version s.pool.mem old + 1 := by
    have stored : ChangedIn (h.blockAt id) logged.pool.mem (logged.pool.setKeyLen obj kv.keyLen).mem := by
      rw [block_new]
      exact ChangedIn.write _ _ _ _ (span_subset (by omega) (by rw [length_encode]; omega))
    rw [← ver]
    exact congrArg (· + 1) (word_congr _ _ _ _ fun x lower upper => outside _ _ stored x ⟨by omega, by omega⟩)
  have object : (copiedObject h s.pool.mem old kv) = ⟨kv.id, kv.keyBytes,
      nextVersion (logged.pool.setKeyLen obj kv.keyLen).mem (some old) % 2 ^ 32,
      (if kv.valLen = 0 then PartialBytes.empty else .ofBytes (valueBytes h s.pool.mem old)).overlay kv.offset
        kv.valBytes⟩ := by
    rw [same_version, copiedObject, Object.mk.injEq]
    refine ⟨rfl, rfl, rfl, ?_⟩
    split
    · next empty =>
      rw [args.no_offset empty, List.length_eq_zero_iff.mp (bytes.trans empty)]
      exact (PartialBytes.empty_overlay []).symm
    · rfl
  rw [← object] at holds
  have length := copiedObject_len h s.pool.mem old bytes
  have kept_old := logged_old.trans fun x inside => outside _ _ written x (by rwa [block_old] at inside)
  refine ⟨obj, new_positive, new_data, disjoint, holds, by rw [key]; exact args.key_fits, by omega, by omega, kept_old,
    ⟨r, ?_, one⟩, rest⟩
  rw [op, newBlockOp, if_pos positive]

theorem CopiedTo.finishes (rooms : h.HeaderRooms) {old id obj : Nat} (before : OldData h s.pool.mem kv.blkId old)
    (copied : CopiedTo h s s' i kv old id obj) :
    ∃ commited t, pmbTxCommit h s' (i + 1) = (commited, .ok) ∧
      Untouched h kv.blkId s.pool.mem commited.pool.mem ∧ pmbTxExecute h commited (i + 1) = some (t, .ok) ∧
      HoldsObject h t.pool.mem id obj (copiedObject h s.pool.mem old kv) ∧
      pmbGet h t.pool.mem kv.blkId = .error .enoent ∧ Listed t.freeList kv.blkId := by
  have layout := rooms.toLogLayout
  have fit := rooms.fit
  have old_fits := copied.old_fits
  obtain ⟨found, data, old_key, -⟩ := before
  obtain ⟨positive, direct_old, live⟩ := backendGet_ok.mp found
  have size_old := blockSize_data (h := h) data
  obtain ⟨flch, -, -, key, val⟩ := copied.kept.words direct_old (by omega)
  have still : backendGet h s'.pool.mem kv.blkId = .ok old :=
    backendGet_ok.mpr ⟨positive, direct_old, by rw [flch]; exact live⟩
  obtain ⟨r, update, one⟩ := copied.logged
  obtain ⟨commited, t, commit, marked, execute, after, gone, back, -⟩ := one.finishes_update layout update still
    (by rw [key, val, size_old]; omega)
  refine ⟨commited, t, commit, copied.kept.trans (ChangedIn.blocks_untouched layout marked kv.blkId), execute, ?_, gone, ?_⟩
  · -- only the old block is zeroed
    have holds := copied.holds
    have direct := holds.direct
    have covers := holds.valLen
    have key_fits := copied.key
    have fits := copied.fits
    have above := layout.blocks_above id obj direct
    refine holds.congr rooms.toIds h.backend.bsize ?_ ?_ fun x inside => after x ?_
    · rw [h.objectLen_data copied.data, covers]
      omega
    · change 32 + kv.keyBytes.length ≤ _
      omega
    · rintro (in_old | log)
      · refine Set.disjoint_left.mp copied.disjoint in_old ?_
        rwa [blockAt_span direct, blockSize_data copied.data]
      · simp only [mem_span] at inside
        simp only [Handle.logArea, Set.mem_ofPred_eq] at log
        omega
  · rw [back]
    unfold Store.release
    rw [if_pos data]
    obtain ⟨rest, lists⟩ := copied.lists
    exact lists.pushed positive (by omega)

-- the new block of a copied update, and what becomes of the old one
structure Overlaid (h : Handle) (s s' : Store) (i : Nat) (kv kv' : PmbPair) (old obj : Nat) : Prop where
  holds : HoldsObject h s'.pool.mem kv'.blkId obj (copiedObject h s.pool.mem old kv)
  value : (copiedObject h s.pool.mem old kv).value =
    (PartialBytes.ofBytes (valueBytes h s.pool.mem old)).overlay kv.offset kv.valBytes
  kept : Untouched h kv.blkId s.pool.mem s'.pool.mem
  finishes : ∃ commited t, pmbTxCommit h s' (i + 1) = (commited, .ok) ∧
    Untouched h kv.blkId s.pool.mem commited.pool.mem ∧ pmbTxExecute h commited (i + 1) = some (t, .ok) ∧
    HoldsObject h t.pool.mem kv'.blkId obj (copiedObject h s.pool.mem old kv) ∧
    pmbGet h t.pool.mem kv.blkId = .error .enoent ∧ Listed t.freeList kv.blkId

theorem copy_overlays (rooms : h.HeaderRooms) (small : h.backend.bsize < 2 ^ 32)
    (free : DeadList h s.pool.mem s.freeList 1 h.totalObjsCount) (apart : FreeApart h s.pool.mem s.freeList)
    (started : JustStarted h s i) {old : Nat} (before : OldData h s.pool.mem kv.blkId old)
    (large : h.maxValLen / 2 ≤ kv.valLen) (some_value : 0 < kv.valLen)
    (fits : 32 + h.maxKeyLen + max (valLen s.pool.mem old) (kv.offset + kv.valLen) ≤ h.backend.bsize)
    (wide : kv.id < 2 ^ 64) (put : pmbTput h s (i + 1) kv = (s', .ok, kv')) :
    ∃ obj, Overlaid h s s' i kv kv' old obj := by
  obtain ⟨positive, direct, live⟩ := backendGet_ok.mp before.found
  obtain ⟨args, ⟨short, -⟩ | ⟨-, previous, is_old, done⟩⟩ := pmbTput_ok put
  · exact absurd short.2 (by omega)
  have same := OldBlock.unique is_old (Or.inr ⟨positive, old, before.found, rfl⟩)
  subst same
  obtain ⟨obj, copied⟩ := started.copies rooms small free (fun id listed => apart id listed _ ⟨old, direct, live⟩) args before
    fits wide done
  have value : (copiedObject h s.pool.mem old kv).value =
      (PartialBytes.ofBytes (valueBytes h s.pool.mem old)).overlay kv.offset kv.valBytes := if_neg (by omega)
  exact ⟨obj, copied.holds, value, copied.kept, copied.finishes rooms before⟩

theorem pmbTxBegin_none_live (layout : h.LogLayout) {txSlot : Nat} (begins : pmbTxBegin h s = (t, .ok, txSlot))
    (zeros : ∀ x, s.pool.mem x = 0) (id : Nat) : ¬h.Live t.pool.mem id := by
  obtain ⟨-, -, i, known, -, only, -⟩ := pmbTxBegin_ok layout begins
  rintro ⟨obj, direct, live⟩
  have above := layout.blocks_above id obj direct
  have below := Handle.slot_below known
  refine live (word_of_zeros _ _ _ fun x lower _ => ?_)
  have outside : x ∉ h.slotArea i := fun inside => by
    simp only [Handle.slotArea, mem_span] at inside
    omega
  rw [only x outside, zeros x]

end Calls

theorem begunStore_begins : pmbTxBegin flatHandle flatStore = (begunStore flatHandle, .ok, 1) :=
  Prod.ext rfl (Prod.ext (by decide +kernel) (by decide +kernel))

theorem begunStore_empty (id : Nat) : ¬flatHandle.Live (begunStore flatHandle).pool.mem id :=
  pmbTxBegin_none_live flatHandle_layout.toLogLayout begunStore_begins (fun _ => rfl) id

theorem begunStore_free :
    DeadList flatHandle (begunStore flatHandle).pool.mem (begunStore flatHandle).freeList 1
      flatHandle.totalObjsCount := by
  have total : flatHandle.totalObjsCount = 3 := by decide +kernel
  have free : (begunStore flatHandle).freeList = flatStore.freeList := by decide +kernel
  refine ⟨Finset.Icc 1 2, by rw [free]; exact flatStore_free, fun id member => ⟨?_, begunStore_empty id⟩⟩
  rw [Finset.mem_Icc] at member
  omega

theorem begunStore_started : JustStarted flatHandle (begunStore flatHandle) 0 :=
  ⟨by decide, by decide +kernel, by decide +kernel, by decide +kernel, by decide +kernel⟩

-- a transaction has started in the flat pool, whose block 1 has an object
def heldStore : Store :=
  { begunStore flatHandle with
    pool := tputBlock flatHandle (begunStore flatHandle).pool 139638110957568 none (onePair 0)
    freeList := some ⟨1, 2, 2, []⟩ }

theorem heldStore_free : DeadList flatHandle heldStore.pool.mem heldStore.freeList 1 flatHandle.totalObjsCount := by
  have total : flatHandle.totalObjsCount = 3 := by decide +kernel
  have direct : backendDirect flatHandle.backend 2 = some 139638110961664 := by decide +kernel
  have created : caslistNew 2 2 = heldStore.freeList := by decide +kernel
  have lists := caslistNew_spec (show 1 ≤ 2 by decide) (le_refl 2) (by decide)
  rw [created] at lists
  refine ⟨_, lists, fun id member => ?_⟩
  obtain rfl : id = 2 := by
    rw [Finset.mem_Icc] at member
    omega
  refine ⟨by omega, ?_⟩
  rintro ⟨obj, direct', live⟩
  rw [direct] at direct'
  cases direct'
  exact live (by decide +kernel)

theorem heldStore_started : JustStarted flatHandle heldStore 0 :=
  ⟨by decide, by decide +kernel, by decide +kernel, by decide +kernel, by decide +kernel⟩

theorem heldStore_object : OldData flatHandle heldStore.pool.mem 1 139638110957568 := by
  have direct : backendDirect flatHandle.backend 1 = some 139638110957568 := by decide +kernel
  exact ⟨backendGet_ok.mpr ⟨by decide, direct, by decide +kernel⟩, by decide +kernel, by decide +kernel,
    by decide +kernel⟩

end PmBackend
