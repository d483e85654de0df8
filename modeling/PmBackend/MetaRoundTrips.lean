import PmBackend.ReopenContents
import PmBackend.RoundTrips

set_option autoImplicit false

namespace PmBackend

open ByteMemory

section NewBlocks

variable {h : Handle} {p : Pool} {obj : Nat} {old : Option Nat} {kv : PmbPair}

theorem tputMetaBlock_fields (h : Handle) (p : Pool) (obj : Nat) (old : Option Nat) (key : kv.keyBytes.length = kv.keyLen) :
    objectId (tputMetaBlock h p obj old kv).mem obj = objectId p.mem obj ∧
      version (tputMetaBlock h p obj old kv).mem obj =
        nextVersion ((p.setKeyLen obj kv.keyLen).setValLen obj kv.valLen).mem old % 2 ^ 32 ∧
      (tputMetaBlock h p obj old kv).mem.read (obj + 32) kv.keyLen = kv.keyBytes := by
  -- the checksum, the lengths, the version, the key and the value are stored; the id is not
  have hdr : sizeofDataHdr = 32 := rfl
  have narrow : 256 ^ 4 = 2 ^ 32 := by decide
  simp only [tputMetaBlock, utilChecksumInsert, objectId, version, Pool.store_mem, backendMemcpy_mem, hdr]
  refine ⟨?_, ?_, ?_⟩
  · rw [word_write_disjoint _ _ _ _ _ (by rw [length_encode]; omega), word_write_disjoint _ _ _ _ _ (by omega),
      word_write_disjoint _ _ _ _ _ (by omega), word_write_disjoint _ _ _ _ _ (by omega),
      word_write_disjoint _ _ _ _ _ (by omega), word_write_disjoint _ _ _ _ _ (by omega)]
  · rw [word_write_disjoint _ _ _ _ _ (by rw [length_encode]; omega), word_write_disjoint _ _ _ _ _ (by omega),
      word_write_disjoint _ _ _ _ _ (by omega), word_write_same, narrow]
  · rw [read_write_disjoint _ _ _ _ _ (by rw [length_encode]; omega), read_write_disjoint _ _ _ _ _ (by omega), ← key,
      read_write_same]

theorem tputMetaBlock_holds (p : Pool) (old : Option Nat) (rooms : h.Rooms) {id : Nat} (metadata : h.totalObjsCount ≤ id)
    (direct : backendDirect h.backend id = some obj) (key : kv.keyBytes.length = kv.keyLen)
    (bytes : kv.valBytes.length = kv.valLen) (fits : kv.keyLen + kv.valLen ≤ h.metaMaxKeyLen + h.metaMaxValLen) :
    ChangedIn (h.blockAt id) p.mem (tputMetaBlock h p obj old kv).mem ∧
      HoldsObject h (tputMetaBlock h p obj old kv).mem id obj
        ⟨objectId p.mem obj, kv.keyBytes,
          nextVersion ((p.setKeyLen obj kv.keyLen).setValLen obj kv.valLen).mem old % 2 ^ 32, .ofBytes kv.valBytes⟩ := by
  have hdr : sizeofDataHdr = 32 := rfl
  have room := rooms.meta_room
  have small := rooms.metaBsize_small
  have size : h.backend.blockSize id = h.backend.metaBsize := if_neg (Nat.not_lt.mpr metadata)
  have changed := (tputMetaBlock_changed h p obj _ old kv (le_refl _)).mono
    (span_blockAt direct (le_refl _) (by omega))
  obtain ⟨key_len, val_len, value⟩ := tputMetaBlock_value h p obj old bytes (show kv.keyLen + kv.valLen < 2 ^ 32 by omega)
  obtain ⟨name, ver, key_bytes⟩ := tputMetaBlock_fields h p obj old key
  have addr : valueAddr h (tputMetaBlock h p obj old kv).mem id obj = obj + 32 + kv.keyLen := by
    rw [valueAddr, if_neg (Nat.not_lt.mpr metadata), key_len]
  have covered : objectSize h (tputMetaBlock h p obj old kv).mem id obj = sizeofDataHdr + kv.keyLen + kv.valLen := by
    rw [objectSize_eq rooms.toIds, h.objectLen_meta metadata, key_len, val_len]
  refine ⟨changed, direct, name, by rw [key_len, key], by simp only [key, key_bytes], ver, ?_, ?_, ?_⟩
  · rw [val_len, PartialBytes.ofBytes, bytes]
  · rw [addr]
    exact value
  · rw [covered]
    unfold tputMetaBlock
    simp only
    rw [u32_of_lt (show sizeofDataHdr + kv.keyLen + kv.valLen < 2 ^ 32 by omega)]
    exact insert_verifies _ _ _ _

end NewBlocks

section Calls

variable {h : Handle} {s s' t : Store} {i : Nat} {kv kv' : PmbPair}

theorem JustStarted.newMetaBlock (layout : h.LogLayout) (ids : h.Ids)
    (free : DeadList h s.pool.mem s.metaFreeList h.totalObjsCount (h.totalObjsCount + h.metaObjsCount))
    (started : JustStarted h s i) (old_lt : kv.blkId < 2 ^ 64) {old : Option Nat}
    (done : tputMetaNewBlock h s (i + 1) kv old = (s', .ok, kv')) :
    ∃ id obj logged, id = (caslistPop s.metaFreeList 0).val ∧ (id ≠ 0 ∧ h.totalObjsCount ≤ id) ∧
      Listed s.metaFreeList id ∧ backendDirect h.backend id = some obj ∧ SlotOnly h i s logged ∧
      s' = { logged with pool := tputMetaBlock h logged.pool obj old kv } ∧ kv' = { kv with blkId := id } ∧
      (∃ rest, ListOf s'.metaFreeList rest) ∧ ∃ r, r.op = some (newBlockOp kv.blkId id) ∧ OneRecord h s' i r := by
  obtain ⟨popped, obj, logged, direct, entry, rfl, rfl⟩ := tputMetaNewBlock_ok done
  have fit := ids.fit
  obtain ⟨⟨range, -⟩, listed, positive, rest⟩ := free.pop fit popped
  obtain ⟨only, frame, r, op, one⟩ := started.logNewBlock layout
    (u := { s with metaFreeList := (caslistPop s.metaFreeList 0).list }) rfl rfl old_lt (by omega) entry
  have blocks := tputMetaBlock_blocksOnly layout logged direct old kv
  refine ⟨_, obj, logged, rfl, ⟨positive, range.1⟩, listed, direct, only, rfl, rfl, ?_, r, op, ?_⟩
  · rw [frame]
    exact rest
  · exact one.blocks (fun x below => blocks.changed x (by simpa [Handle.blockArea] using below)) rfl

theorem Finishes.unique {txSlot : Nat} {u : Store} (first : Finishes h s txSlot t) (second : Finishes h s txSlot u) :
    u = t := by
  obtain ⟨commited, commit, execute⟩ := first
  obtain ⟨commited', commit', execute'⟩ := second
  rw [commit] at commit'
  cases commit'
  rw [execute] at execute'
  cases execute'
  rfl

theorem JustStarted.metaPut (rooms : h.Rooms)
    (free : DeadList h s.pool.mem s.metaFreeList h.totalObjsCount (h.totalObjsCount + h.metaObjsCount))
    (apart : FreeApart h s.pool.mem s.metaFreeList) (started : JustStarted h s i) (args : TputMetaArgs h (i + 1) kv)
    (exact_sum : kv.keyLen + kv.valLen ≤ h.metaMaxKeyLen + h.metaMaxValLen) {old : Option Nat}
    (previous : OldBlock h s.pool.mem kv.blkId old)
    (sane : ∀ oldObj ∈ old, 32 + keyLen s.pool.mem oldObj + valLen s.pool.mem oldObj ≤ h.backend.metaBsize)
    (done : tputMetaNewBlock h s (i + 1) kv old = (s', .ok, kv')) :
    ∃ obj, kv'.blkId = (caslistPop s.metaFreeList 0).val ∧ (kv'.blkId ≠ 0 ∧ h.totalObjsCount ≤ kv'.blkId) ∧
      ∃ t, Finishes h s' (i + 1) t ∧
        HoldsObject h t.pool.mem kv'.blkId obj
          ⟨objectId s.pool.mem obj, kv.keyBytes, nextVersion s.pool.mem old % 2 ^ 32, .ofBytes kv.valBytes⟩ ∧
        (kv.blkId ≠ 0 → pmbGet h t.pool.mem kv.blkId = .error .enoent ∧ Listed t.metaFreeList kv.blkId) := by
  have layout := rooms.toLogLayout
  have room := rooms.meta_room
  have fit := rooms.fit
  have old_lt : kv.blkId < 2 ^ 64 := by
    rcases previous with ⟨write, -⟩ | ⟨-, oldObj, found, -⟩
    · omega
    · have known := (backendDirect_known rooms.fit kv.blkId).mp ⟨oldObj, (backendGet_ok.mp found).2.1⟩
      change kv.blkId < h.totalObjsCount + h.metaObjsCount at known
      omega
  obtain ⟨id, obj, logged, popped, ⟨positive, metadata⟩, listed, direct, only, rfl, rfl, ⟨rest, lists⟩, r, op, one⟩ :=
    started.newMetaBlock layout rooms.toIds free old_lt done
  have size : h.backend.blockSize id = h.backend.metaBsize := if_neg (Nat.not_lt.mpr metadata)
  have log_only : ChangedIn h.logArea s.pool.mem logged.pool.mem := ChangedIn.mono only (slotArea_log started.known)
  have key := keyBytes_eq args.key
  have bytes := valBytes_eq (Or.inr args.val)
  obtain ⟨written, holds⟩ := tputMetaBlock_holds logged.pool old rooms metadata direct key bytes exact_sum
  have block : h.blockAt id = span obj h.backend.metaBsize := by rw [blockAt_span direct, size]
  have name : objectId logged.pool.mem obj = objectId s.pool.mem obj :=
    ((ChangedIn.blocks_untouched layout log_only id).words direct (rooms.room id)).2.1
  rw [name] at holds
  refine ⟨obj, popped, ⟨positive, metadata⟩, ?_⟩
  rcases previous with ⟨write, rfl⟩ | ⟨update, oldObj, found, rfl⟩
  · have no_update : r.op = some (.write id) := by
      rw [op, newBlockOp, if_neg (not_not.mpr write)]
    obtain ⟨t, finishes, after⟩ := one.finishes_write layout no_update
    exact ⟨t, finishes, holds.log rooms.headerRooms (after.mono (slotArea_log started.known)), fun update => absurd write update⟩
  · obtain ⟨-, direct_old, live⟩ := backendGet_ok.mp found
    have region := args.region.resolve_left update
    have size_old : h.backend.blockSize kv.blkId = h.backend.metaBsize := if_neg (Nat.not_lt.mpr region)
    have block_old : h.blockAt kv.blkId = span oldObj h.backend.metaBsize := by rw [blockAt_span direct_old, size_old]
    have disjoint : Disjoint (h.blockAt kv.blkId) (h.blockAt id) := by
      have blocks := apart id listed kv.blkId ⟨oldObj, direct_old, live⟩ oldObj obj direct_old direct
      rwa [size_old, size, ← block_old, ← block] at blocks
    have logged_old : Untouched h kv.blkId s.pool.mem logged.pool.mem :=
      ChangedIn.blocks_untouched layout log_only kv.blkId
    have outside : ∀ m m', ChangedIn (h.blockAt id) m m' → ∀ x ∈ h.blockAt kv.blkId, m' x = m x :=
      fun m m' changed x inside => changed x (Set.disjoint_left.mp disjoint inside)
    -- neither the log nor the new block holds the version of the old object
    have same_version : nextVersion ((logged.pool.setKeyLen obj kv.keyLen).setValLen obj kv.valLen).mem (some oldObj) =
        nextVersion s.pool.mem (some oldObj) := by
      have stored : ChangedIn (h.blockAt id) logged.pool.mem
          ((logged.pool.setKeyLen obj kv.keyLen).setValLen obj kv.valLen).mem := by
        rw [block]
        exact ((ChangedIn.refl _ _).thenEncode _ _ _ (by omega) (by omega)).thenEncode _ _ _ (by omega) (by omega)
      have kept := logged_old.trans (outside _ _ stored)
      exact congrArg (· + 1) (kept.words direct_old (rooms.room kv.blkId)).2.2.1
    rw [same_version] at holds
    have kept : Untouched h kv.blkId s.pool.mem (tputMetaBlock h logged.pool obj (some oldObj) kv).mem :=
      logged_old.trans (outside _ _ written)
    obtain ⟨flch, -, -, old_key, old_val⟩ := kept.words direct_old (rooms.room kv.blkId)
    have still : backendGet h (tputMetaBlock h logged.pool obj (some oldObj) kv).mem kv.blkId = .ok oldObj :=
      backendGet_ok.mpr ⟨update, direct_old, by rw [flch]; exact live⟩
    have update_op : r.op = some (.update kv.blkId id) := by
      rw [op, newBlockOp, if_pos update]
    have fits := sane oldObj rfl
    obtain ⟨commited, t, commit, -, execute, after, gone, -, back⟩ := one.finishes_update layout update_op still
      (by rw [old_key, old_val, size_old]; exact fits)
    refine ⟨t, ⟨commited, commit, execute⟩, ?_, fun _ => ⟨gone, ?_⟩⟩
    · have covers := holds.valLen
      have key_len := holds.keyLen
      have above := layout.blocks_above id obj direct
      refine holds.congr rooms.toIds h.backend.metaBsize ?_ ?_ fun x inside => after x ?_
      · rw [h.objectLen_meta metadata, covers, key_len]
        simp only [PartialBytes.ofBytes, key, bytes]
        omega
      · simp only [key]
        omega
      · rintro (in_old | log)
        · exact Set.disjoint_left.mp disjoint in_old (by rwa [block])
        · simp only [mem_span] at inside
          simp only [Handle.logArea, Set.mem_ofPred_eq] at log
          omega
    · rw [back]
      unfold Store.release
      rw [if_neg (Nat.not_lt.mpr region)]
      exact lists.pushed update old_lt

end Calls

end PmBackend
