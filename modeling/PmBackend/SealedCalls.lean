import PmBackend.SealedBlocks

set_option autoImplicit false

namespace PmBackend

open ByteMemory

-- the blocks that the log of a slot updates in place
def updatedIds (m : Mem) (slot : Nat) : Finset Nat :=
  (((slotLog m slot).filter fun r => r.2.type = TxOp.updinplace.code).map fun r => r.2.blkId1).toFinset

-- updates of data blocks that stay in them, and no more blocks than an update list has elements
structure UpdatesFit (h : Handle) (s : Store) (i : Nat) : Prop where
  inside : ∀ r ∈ slotLog s.pool.mem (h.slotAddr i), r.1 + 24 ≤ h.logEnd
  data : ∀ id ∈ updatedIds s.pool.mem (h.slotAddr i), id ≠ 0 ∧ id < h.totalObjsCount ∧ h.Alone id
  fits : ∀ r ∈ slotLog s.pool.mem (h.slotAddr i), r.2.type = TxOp.updinplace.code →
    32 + h.maxKeyLen + (r.2.offset + r.2.size) ≤ h.backend.bsize
  few : (updatedIds s.pool.mem (h.slotAddr i)).card ≤ 128

-- an update list between two transactions
structure CleanList (metalist : TxMetalist) : Prop where
  empty : metalist.count = 0
  zeros : ∀ k < 128, (metalist.list k).id = 0

-- between two entries of an execution: the blocks updated so far wait for their headers
structure ExecuteSealed (h : Handle) (named : Finset Nat) (txId : Nat) (updated : List Nat) (s : Store) : Prop where
  blocks : SealedBut h s.pool.mem {id | id ∈ updated}
  holds : ListHolds (s.updIdList txId) updated
  named : ∀ id ∈ updated, id ∈ named
  zeros : ∀ k, (s.updIdList txId).count ≤ k → k < 128 → ((s.updIdList txId).list k).id = 0
  fits : ∀ k < (s.updIdList txId).count, 32 + h.maxKeyLen + ((s.updIdList txId).list k).valLen ≤ h.backend.bsize

section Execution

variable {h : Handle} {s s' : Store} {txId : Nat} {named : Finset Nat} {updated : List Nat}

theorem mem_updatedIds {m : Mem} {slot : Nat} {r : Nat × TxEntry} (member : r ∈ slotLog m slot)
    (in_place : r.2.type = TxOp.updinplace.code) : r.2.blkId1 ∈ updatedIds m slot := by
  simp only [updatedIds, List.mem_toFinset, List.mem_map, List.mem_filter, decide_eq_true_eq]
  exact ⟨r, ⟨member, in_place⟩, rfl⟩

theorem ListHolds.addSafe {metalist : TxMetalist} (holds : ListHolds metalist updated)
    (members : ∀ id ∈ updated, id ∈ named) (zeros : ∀ k, metalist.count ≤ k → k < 128 → (metalist.list k).id = 0)
    (few : named.card ≤ 128) {blkId : Nat} (member : blkId ∈ named) (nonzero : blkId ≠ 0) :
    AddSafe metalist updated blkId := by
  -- a block that is new in the list is one of at most 128, so the list has an element for it
  refine ⟨nonzero, fun fresh => ?_⟩
  have smaller : updated.toFinset.card < named.card := by
    refine Finset.card_lt_card ⟨fun id inside => members id (List.mem_toFinset.mp inside), fun all => ?_⟩
    exact fresh (List.mem_toFinset.mp (all member))
  have length := holds.length
  rw [List.toFinset_card_of_nodup holds.distinct] at smaller
  exact ⟨by omega, fun more => zeros _ (by omega) more⟩

theorem ExecuteSealed.start (named : Finset Nat) (blocks : SealedBut h s.pool.mem ∅) (clean : CleanList (s.updIdList txId)) :
    ExecuteSealed h named txId [] s := by
  have none_used := clean.empty
  exact ⟨blocks.mono (Set.empty_subset _), listHolds_nil clean.empty (clean.zeros 0 (by omega)),
    fun id impossible => absurd impossible List.not_mem_nil, fun k _ below => clean.zeros k below, fun k below => by omega⟩

theorem ExecuteSealed.addSafe (inv : ExecuteSealed h named txId updated s) (few : named.card ≤ 128) {blkId : Nat}
    (member : blkId ∈ named) (nonzero : blkId ≠ 0) : AddSafe (s.updIdList txId) updated blkId :=
  inv.holds.addSafe inv.named inv.zeros few member nonzero

theorem added_element {blkId size obj : Nat} (holds : ListHolds (s.updIdList txId) updated)
    (safe : AddSafe (s.updIdList txId) updated blkId) (direct : backendDirect h.backend blkId = some obj)
    (added : txSlotMetaUpdAdd h s txId blkId size = some s') :
    ∃ i last, (s'.updIdList txId).list i = ⟨blkId, u32 (last.version + 1), max last.valLen size⟩ ∧
      (∀ k ≠ i, (s'.updIdList txId).list k = (s.updIdList txId).list k) ∧
      (∀ k < (s'.updIdList txId).count, k ≠ i →
        k < (s.updIdList txId).count ∧ ((s.updIdList txId).list k).id ≠ blkId) ∧
      ((i < (s.updIdList txId).count ∧ (s'.updIdList txId).count = (s.updIdList txId).count ∧
          last = (s.updIdList txId).list i ∧ last.id = blkId) ∨
        (i = (s.updIdList txId).count ∧ (s'.updIdList txId).count = (s.updIdList txId).count + 1 ∧
          blkId ∉ updated ∧ last = ⟨blkId, version s.pool.mem obj, valLen s.pool.mem obj⟩)) := by
  have found := holds.find blkId
  unfold txSlotMetaUpdAdd at added
  simp only at found added
  generalize metaFind (s.updIdList txId).list blkId (s.updIdList txId).count 0 = i at found added
  have grown : ∀ e : TxMeta, e.id = blkId →
      (if ({ e with version := u32 (e.version + 1) } : TxMeta).valLen < size then
          { ({ e with version := u32 (e.version + 1) } : TxMeta) with valLen := size }
        else { e with version := u32 (e.version + 1) }) = ⟨blkId, u32 (e.version + 1), max e.valLen size⟩ := by
    rintro e rfl
    by_cases shorter : e.valLen < size
    · rw [if_pos shorter, Nat.max_eq_right (by omega)]
    · rw [if_neg shorter, Nat.max_eq_left (by omega)]
  rcases found with ⟨-, inside, hit⟩ | ⟨new, rfl⟩
  · -- the block has an element already, and no other element has its id
    rw [if_neg (holds.id_ne inside)] at added
    simp only [Option.map_some] at added
    cases added
    refine ⟨i, (s.updIdList txId).list i, ?_, fun k other => ?_, fun k below other => ?_,
      Or.inl ⟨inside, by simp only [Function.update_self], rfl, hit⟩⟩
    · simp only [Function.update_self]
      exact grown _ hit
    · simp only [Function.update_self, Function.update_of_ne other]
    · simp only [Function.update_self] at below
      refine ⟨below, fun again => other ?_⟩
      have distinct := holds.distinct
      rw [← holds.ids] at distinct
      exact List.inj_on_of_nodup_map distinct (List.mem_range.mpr below) (List.mem_range.mpr inside)
        (again.trans hit.symm)
  · -- a new element takes its numbers from the header
    rw [if_pos (holds.ends (safe.2 new).1), direct] at added
    simp only [Option.map_some] at added
    cases added
    refine ⟨(s.updIdList txId).count, ⟨blkId, version s.pool.mem obj, valLen s.pool.mem obj⟩, ?_, fun k other => ?_,
      fun k below other => ?_, Or.inr ⟨rfl, by simp only [Function.update_self], new, rfl⟩⟩
    · simp only [Function.update_self]
      exact grown ⟨blkId, version s.pool.mem obj, valLen s.pool.mem obj⟩ rfl
    · simp only [Function.update_self, Function.update_of_ne other]
    · simp only [Function.update_self] at below
      have before : k < (s.updIdList txId).count := by omega
      exact ⟨before, fun again => new (holds.mem_iff.mpr ⟨k, before, again⟩)⟩

theorem added_elements (bound : Nat) {blkId size obj : Nat} (holds : ListHolds (s.updIdList txId) updated)
    (safe : AddSafe (s.updIdList txId) updated blkId) (direct : backendDirect h.backend blkId = some obj)
    (zeros : ∀ k, (s.updIdList txId).count ≤ k → k < 128 → ((s.updIdList txId).list k).id = 0)
    (lengths : ∀ k < (s.updIdList txId).count, ((s.updIdList txId).list k).valLen ≤ bound)
    (header : valLen s.pool.mem obj ≤ bound) (small : size ≤ bound)
    (added : txSlotMetaUpdAdd h s txId blkId size = some s') :
    (∀ k, (s'.updIdList txId).count ≤ k → k < 128 → ((s'.updIdList txId).list k).id = 0) ∧
      ∀ k < (s'.updIdList txId).count, ((s'.updIdList txId).list k).valLen ≤ bound := by
  -- an update leaves the elements behind the list unused, and no length grows beyond a bound it keeps
  obtain ⟨i, last, grown, others, -, place⟩ := added_element holds safe direct added
  have small_last : last.valLen ≤ bound := by
    rcases place with ⟨inside, -, rfl, -⟩ | ⟨-, -, -, rfl⟩
    · exact lengths i inside
    · exact header
  refine ⟨fun k beyond below => ?_, fun k below => ?_⟩
  · rw [others k (by omega)]
    exact zeros k (by omega) below
  · by_cases here : k = i
    · subst here
      rw [grown]
      exact max_le small_last small
    · rw [others k here]
      exact lengths k (by omega)

theorem mem_addUpdated {blkId id : Nat} : id ∈ addUpdated updated blkId ↔ id ∈ updated ∨ id = blkId := by
  unfold addUpdated
  split
  · next member =>
    constructor
    · exact Or.inl
    · rintro (before | rfl)
      · exact before
      · exact member
  · rw [List.mem_append, List.mem_singleton]

theorem txUpdateBlock_stores {blkId obj offset : Nat} {payload : List UInt8}
    (direct : backendDirect h.backend blkId = some obj) (small : offset + payload.length < 2 ^ 32)
    (done : txUpdateBlock h s txId blkId payload offset = some s') :
    s'.pool.mem = s.pool.mem.write (obj + 32 + h.maxKeyLen + offset) payload ∧
      txSlotMetaUpdAdd h { s with pool := s'.pool } txId blkId (offset + payload.length) = some s' := by
  unfold txUpdateBlock at done
  rw [direct] at done
  simp only [u32_of_lt small] at done
  have pool : s'.pool = backendMemcpy h s.pool (obj + sizeofDataHdr + h.maxKeyLen + offset) payload := by
    rw [txSlotMetaUpdAdd_frame done]
  refine ⟨by rw [pool, backendMemcpy_mem], ?_⟩
  rw [pool]
  exact done

theorem ExecuteSealed.update (rooms : h.Rooms) (inv : ExecuteSealed h named txId updated s) (few : named.card ≤ 128)
    {blkId offset : Nat} {payload : List UInt8} (member : blkId ∈ named)
    (data : blkId ≠ 0 ∧ blkId < h.totalObjsCount ∧ h.Alone blkId)
    (room : 32 + h.maxKeyLen + (offset + payload.length) ≤ h.backend.bsize)
    (done : txUpdateBlock h s txId blkId payload offset = some s') :
    ExecuteSealed h named txId (addUpdated updated blkId) s' := by
  have small := rooms.bsize_small
  obtain ⟨nonzero, region, alone⟩ := data
  obtain ⟨obj, direct⟩ := (backendDirect_known rooms.fit blkId).mpr (Nat.lt_of_lt_of_le region (Nat.le_add_right _ _))
  have size := blockSize_data region
  have contained := inv.blocks.contained blkId obj direct
  have safe := inv.addSafe few member nonzero
  obtain ⟨stored, added⟩ := txUpdateBlock_stores direct (by omega) done
  -- the copy goes behind the header
  have changed : ChangedIn (span (obj + 32) (h.backend.bsize - 32)) s.pool.mem s'.pool.mem := by
    rw [stored]
    exact ChangedIn.write _ _ _ _ (span_subset (by omega) (by omega))
  have key : keyLen s'.pool.mem obj = keyLen s.pool.mem obj := changed.word_apart (by omega)
  have val : valLen s'.pool.mem obj = valLen s.pool.mem obj := changed.word_apart (by omega)
  have length : 32 + h.maxKeyLen + valLen s.pool.mem obj ≤ h.backend.bsize := by
    have fits := contained.fits
    rwa [h.objectLen_data region, size] at fits
  have kept : h.Contained s'.pool.mem blkId obj := by
    refine ⟨fun low => key.trans_le (contained.key_fits low), ?_, fun _ => alone⟩
    rw [h.objectLen_data region, size, val]
    exact length
  obtain ⟨holds, -⟩ := ListHolds.add (s := { s with pool := s'.pool }) inv.holds safe added
  obtain ⟨zeros, lengths⟩ := added_elements (s := { s with pool := s'.pool })
    (h.backend.bsize - (32 + h.maxKeyLen)) inv.holds safe direct inv.zeros
    (fun k below => by have := inv.fits k below; simp only; omega) (by simp only [val]; omega) (by omega) added
  refine ⟨?_, holds, fun id inside => ?_, zeros, fun k below => by have := lengths k below; omega⟩
  · -- the updated block waits from now on
    refine inv.blocks.block rooms alone direct ((changed.mono ?_).mono Set.subset_union_left) kept
      (fun ready => absurd (mem_addUpdated.mpr (Or.inr rfl)) ready) fun j _ ready before =>
        ready (mem_addUpdated.mpr (Or.inl before))
    exact span_blockAt direct (by omega) (by omega)
  · rcases mem_addUpdated.mp inside with before | rfl
    · exact inv.named id before
    · exact member

theorem executeEntry_others {pos : Nat} {entry : TxEntry} (executed : executeEntry h s txId pos entry = some s')
    (j : Nat) (other : j ≠ txId) : s'.updIdList j = s.updIdList j := by
  unfold executeEntry at executed
  split at executed
  · split at executed
    · cases executed
      rfl
    · cases executed
      rw [(release_frame h _ _).2.1]
      rfl
  · split at executed
    · obtain ⟨t, size, same, added⟩ := txUpdateBlock_adds executed
      obtain ⟨element, count, lists, -, -⟩ := txSlotMetaUpdAdd_element added
      rw [lists, Function.update_of_ne other, same]
    · cases executed
      rfl

theorem ExecuteSealed.zero (rooms : h.Rooms) (inv : ExecuteSealed h named txId updated s) {id obj : Nat}
    (found : backendGet h s.pool.mem id = .ok obj) :
    ExecuteSealed h named txId updated ((s.setZero (some obj)).release h id) := by
  obtain ⟨-, direct, live⟩ := backendGet_ok.mp found
  have alone := (inv.blocks.contained _ obj direct).alone live
  obtain ⟨pool, lists, -⟩ := release_frame h (s.setZero (some obj)) id
  have same : ((s.setZero (some obj)).release h id).updIdList = s.updIdList := lists
  refine ⟨?_, ?_, inv.named, ?_, ?_⟩
  · rw [pool]
    exact inv.blocks.setZero rooms alone direct
  · rw [same]
    exact inv.holds
  · rw [same]
    exact inv.zeros
  · rw [same]
    exact inv.fits

theorem ExecuteSealed.entry (rooms : h.Rooms) {i : Nat} {r : Nat × TxEntry} {m : Mem}
    (inv : ExecuteSealed h (updatedIds m (h.slotAddr i)) txId updated s)
    (few : (updatedIds m (h.slotAddr i)).card ≤ 128)
    (data : ∀ id ∈ updatedIds m (h.slotAddr i), id ≠ 0 ∧ id < h.totalObjsCount ∧ h.Alone id)
    (member : r ∈ slotLog m (h.slotAddr i))
    (fits : r.2.type = TxOp.updinplace.code → 32 + h.maxKeyLen + (r.2.offset + r.2.size) ≤ h.backend.bsize)
    (done : executeEntry h s txId r.1 r.2 = some s') :
    ∃ updated', ExecuteSealed h (updatedIds m (h.slotAddr i)) txId updated' s' := by
  unfold executeEntry at done
  split at done
  · split at done
    · cases done
      exact ⟨updated, inv⟩
    · next obj found =>
      cases done
      exact ⟨updated, inv.zero rooms found⟩
  · split at done
    · next in_place =>
      have named := mem_updatedIds member in_place
      exact ⟨_, inv.update rooms few named (data _ named) (by rw [length_read]; exact fits in_place) done⟩
    · cases done
      exact ⟨updated, inv⟩

-- the blocks whose headers are still to be rewritten, from element `i` of the list on
def waitingFrom (list : Nat → TxMeta) (i count : Nat) : Set Nat := {id | ∃ k, i ≤ k ∧ k < i + count ∧ (list k).id = id}

theorem metaProcess_seals (rooms : h.Rooms) {list : Nat → TxMeta} {count i : Nat} {p q : Pool}
    (blocks : SealedBut h p.mem (waitingFrom list i count))
    (data : ∀ k, i ≤ k → k < i + count → (list k).id < h.totalObjsCount ∧ h.Alone (list k).id)
    (fits : ∀ k, i ≤ k → k < i + count → 32 + h.maxKeyLen + (list k).valLen ≤ h.backend.bsize)
    (done : metaProcess h list count i p = some q) : SealedBut h q.mem ∅ := by
  have hdr : sizeofDataHdr = 32 := rfl
  have small := rooms.bsize_small
  induction count generalizing i p with
  | zero =>
    cases done
    refine blocks.mono ?_
    rintro id ⟨k, lower, upper, -⟩
    omega
  | succ count ih =>
    unfold metaProcess at done
    split at done
    · cases done
    · next obj direct =>
      obtain ⟨region, alone⟩ := data i (le_refl i) (by omega)
      have room := fits i (le_refl i) (by omega)
      have size := blockSize_data region
      refine ih ?_ (fun k lower upper => data k (by omega) (by omega))
        (fun k lower upper => fits k (by omega) (by omega)) done
      generalize written_eq : (p.setVersion obj (list i).version).setValLen obj (list i).valLen = written
      have changed : ChangedIn (span obj h.backend.bsize) p.mem written.mem := by
        rw [← written_eq]
        simp only [Pool.store_mem]
        exact ((ChangedIn.refl _ _).thenEncode _ _ _ (by omega) (by omega)).thenEncode _ _ _ (by omega) (by omega)
      have key : keyLen written.mem obj = keyLen p.mem obj := by
        rw [← written_eq]
        simp only [keyLen, Pool.store_mem]
        rw [word_write_disjoint _ _ _ _ _ (by rw [length_encode]; omega),
          word_write_disjoint _ _ _ _ _ (by rw [length_encode]; omega)]
      have val : valLen written.mem obj = (list i).valLen := by
        rw [← written_eq]
        simp only [valLen, Pool.store_mem]
        rw [word_write_same]
        exact Nat.mod_eq_of_lt (show (list i).valLen < 256 ^ 4 by omega)
      have covers : sizeofDataHdr + h.maxKeyLen + valLen written.mem obj = h.objectLen written.mem (list i).id obj :=
        (h.objectLen_data region).symm
      obtain ⟨length, same_key, sealed⟩ := insert_sealed covers
      refine blocks.block rooms alone direct (ChangedIn.mono ?_ Set.subset_union_left) ⟨fun low => ?_, ?_, fun _ => alone⟩
        (fun _ => sealed) fun j other ready before => ?_
      · rw [blockAt_span direct, size]
        exact changed.thenEncode _ _ _ (by omega) (by omega)
      · rw [same_key, key]
        exact (blocks.contained _ obj direct).key_fits low
      · rw [length, val, size]
        omega
      · obtain ⟨k, lower, upper, same⟩ := before
        refine ready ⟨k, ?_, by omega, same⟩
        by_contra first
        have here : k = i := by omega
        exact other (by rw [← same, here])

theorem execute_seals (rooms : h.Rooms) (blocks : SealedBut h s.pool.mem ∅) {i : Nat} (known : i < h.txSlotsCount)
    (clean : CleanList (s.updIdList i)) (safe : UpdatesFit h s i) (done : txSlotExecute h s (i + 1) = some (s', .ok)) :
    SealedBut h s'.pool.mem ∅ ∧ CleanList (s'.updIdList i) ∧ ∀ j ≠ i, s'.updIdList j = s.updIdList j := by
  unfold txSlotExecute at done
  rw [rooms.toLogLayout.txDirect_eq (by omega) (by omega), rooms.toLogLayout.txIndex_eq (by omega) (by omega)] at done
  simp only [Nat.add_sub_cancel] at done
  split at done
  · cases done
  · obtain ⟨walked, walk, rest⟩ := Option.bind_eq_some_iff.mp done
    obtain ⟨processed, process, finish⟩ := Option.map_eq_some_iff.mp rest
    cases finish
    rw [executeLog_eq rooms.toLogLayout i (h.slotAddr i) s safe.inside] at walk
    have start := ExecuteSealed.start (updatedIds s.pool.mem (h.slotAddr i)) blocks clean
    obtain ⟨⟨updated, inv⟩, others⟩ := foldlM_induct
      (fun t => (∃ updated, ExecuteSealed h (updatedIds s.pool.mem (h.slotAddr i)) i updated t) ∧
        ∀ j ≠ i, t.updIdList j = s.updIdList j) _ _
      (fun r member t t' before entry => by
        obtain ⟨updated, inv⟩ := before.1
        exact ⟨inv.entry rooms safe.few safe.data member (safe.fits r member) entry, fun j other =>
          (executeEntry_others entry j other).trans (before.2 j other)⟩)
      s walked ⟨⟨[], start⟩, fun _ _ => rfl⟩ walk
    have named : ∀ k < (walked.updIdList i).count, ((walked.updIdList i).list k).id < h.totalObjsCount ∧
        h.Alone ((walked.updIdList i).list k).id := by
      intro k below
      have listed := inv.holds.mem_iff.mpr ⟨k, below, rfl⟩
      exact (safe.data _ (inv.named _ listed)).2
    unfold txSlotMetaUpdProcess at process
    obtain ⟨pool, rewritten, rfl⟩ := Option.map_eq_some_iff.mp process
    have sealed : SealedBut h pool.mem ∅ := by
      refine metaProcess_seals rooms (inv.blocks.mono ?_) (fun k _ upper => named k (by omega))
        (fun k _ upper => inv.fits k (by omega)) rewritten
      rintro id inside
      obtain ⟨k, below, same⟩ := inv.holds.mem_iff.mp inside
      exact ⟨k, Nat.zero_le k, by omega, same⟩
    have cleared := (setZeroSlot_changed rooms.toLogLayout
      { walked with pool := pool } i).mono (slotArea_log known)
    refine ⟨sealed.log rooms cleared, ?_, fun j other => ?_⟩
    · simp only [Function.update_self]
      refine ⟨rfl, fun k below => ?_⟩
      by_cases used : k < (walked.updIdList i).count
      · simp only [used, if_true]
      · simp only [used, if_false]
        exact inv.zeros k (by omega) below
    · simp only [Function.update_of_ne other]
      exact others j other

end Execution

-- `tx_slot_abort` reads its entries from the log, and the blocks they name overlap no other
structure AbortsAlone (h : Handle) (s : Store) (i : Nat) : Prop where
  inside : ∀ r ∈ slotStrides s.pool.mem (h.slotAddr i), r.1 + 24 ≤ h.logEnd
  alone : ∀ r ∈ slotStrides s.pool.mem (h.slotAddr i), ∀ id ∈ abortedBlock r.2, h.Alone id

-- the new block is a data block that overlaps no other, with room for the value and what is kept of the old
structure PutSeals (h : Handle) (s : Store) (kv : PmbPair) : Prop where
  no_wrap : kv.offset + kv.valLen < 2 ^ 32
  data : (caslistPop s.freeList 0).val < h.totalObjsCount
  alone : h.Alone (caslistPop s.freeList 0).val
  kept : kv.valLen ≠ 0 → ∀ old, backendGet h s.pool.mem kv.blkId = .ok old →
    kv.offset + kv.valLen < valLen s.pool.mem old → 32 + h.maxKeyLen + valLen s.pool.mem old ≤ h.backend.bsize

structure PutMetaSeals (h : Handle) (s : Store) (kv : PmbPair) : Prop where
  no_wrap : kv.keyLen + kv.valLen < 2 ^ 32
  metadata : h.totalObjsCount ≤ (caslistPop s.metaFreeList 0).val
  alone : h.Alone (caslistPop s.metaFreeList 0).val

section Calls

variable {h : Handle} {s s' : Store} {kv kv' : PmbPair} {txSlot i : Nat}

theorem abort_seals (rooms : h.Rooms) (blocks : SealedBut h s.pool.mem ∅) (known : i < h.txSlotsCount)
    (safe : AbortsAlone h s i) (done : txSlotAbort h s (i + 1) = (s', .ok)) :
    SealedBut h s'.pool.mem ∅ ∧ s'.updIdList = s.updIdList := by
  unfold txSlotAbort at done
  rw [rooms.toLogLayout.txDirect_eq (by omega) (by omega), rooms.toLogLayout.txIndex_eq (by omega) (by omega)] at done
  simp only [Nat.add_sub_cancel] at done
  split at done
  · cases done
  · cases done
    have marked := (slotAborted_changed rooms.toLogLayout s i i).mono (slotArea_log known)
    have strides := slotStrides_congr (slotAborted_header h s (h.slotAddr i) i)
    rw [abortLog_eq rooms.toLogLayout _ _ (by rw [strides]; exact safe.inside), strides]
    have walked : SealedBut h ((slotStrides s.pool.mem (h.slotAddr i)).foldl (fun s r => abortEntry h s r.2)
          (slotAborted h s (h.slotAddr i) i)).pool.mem ∅ ∧
        ((slotStrides s.pool.mem (h.slotAddr i)).foldl (fun s r => abortEntry h s r.2)
          (slotAborted h s (h.slotAddr i) i)).updIdList = s.updIdList := by
      refine List.foldlRecOn (motive := fun t : Store => SealedBut h t.pool.mem ∅ ∧ t.updIdList = s.updIdList) _ _
        ⟨blocks.log rooms marked, rfl⟩ ?_
      rintro t ⟨before, lists⟩ r member
      rw [abortEntry_eq]
      split
      · next id names =>
        obtain ⟨pool, updIdList, -⟩ := release_frame h (t.setZero (backendDirect h.backend id)) id
        rw [pool, updIdList]
        refine ⟨?_, ?_⟩
        · cases direct : backendDirect h.backend id with
          | none => exact before
          | some obj => exact before.setZero rooms (safe.alone r member id names) direct
        · cases backendDirect h.backend id <;> exact lists
      · exact ⟨before, lists⟩
    have reset := (slotReset_changed rooms.toLogLayout ((slotStrides s.pool.mem (h.slotAddr i)).foldl
      (fun s r => abortEntry h s r.2) (slotAborted h s (h.slotAddr i) i)) i i).mono (slotArea_log known)
    exact ⟨walked.1.log rooms reset, walked.2⟩

theorem OldBlock.stays (layout : h.LogLayout) {m m' : Mem} {id obj : Nat} {old : Option Nat}
    (found : OldBlock h m kv.blkId old) (direct : backendDirect h.backend id = some obj) (data : id < h.totalObjsCount)
    (alone : h.Alone id) (room : ∀ id, 32 ≤ h.backend.blockSize id) (changed : ChangedIn h.logArea m m')
    (kept : ∀ old, backendGet h m kv.blkId = .ok old →
      kv.offset + kv.valLen < valLen m old → 32 + h.maxKeyLen + valLen m old ≤ h.backend.bsize) :
    ∀ oldObj ∈ old, OldStays h m' obj h.backend.bsize kv oldObj := by
  -- the old block stays, unless it is the new one as well
  intro oldObj member
  rcases found with ⟨-, rfl⟩ | ⟨-, addr, get, rfl⟩
  · cases member
  · cases member
    obtain ⟨-, oldDirect, -⟩ := backendGet_ok.mp get
    by_cases same : kv.blkId = id
    · rw [same, direct] at oldDirect
      cases oldDirect
      exact Or.inl rfl
    · have logged := ChangedIn.blocks_untouched layout changed kv.blkId
      have length := (logged.words oldDirect (room _)).2.2.2.2
      refine Or.inr ⟨valLen m oldObj, fun m'' block => ?_, kept oldObj get⟩
      rw [← length]
      rw [← blockSize_data data, ← blockAt_span direct] at block
      have others := ChangedIn.others_untouched layout alone (ChangedIn.mono block Set.subset_union_left) same
      exact (others.words oldDirect (room _)).2.2.2.2

theorem tputNewBlock_seals (rooms : h.Rooms) (blocks : SealedBut h s.pool.mem ∅) {old : Option Nat}
    (args : TputArgs h txSlot kv) (entry : EntryFits h s txSlot sizeofTxEntry) (safe : PutSeals h s kv)
    (found : OldBlock h s.pool.mem kv.blkId old) (done : tputNewBlock h s txSlot kv old = (s', .ok, kv')) :
    SealedBut h s'.pool.mem ∅ ∧ s'.updIdList = s.updIdList := by
  obtain ⟨-, obj, logged, direct, log, rfl, -⟩ := tputNewBlock_ok done
  have entry' : EntryFits h { s with freeList := (caslistPop s.freeList 0).list } txSlot sizeofTxEntry := entry
  obtain ⟨changed, same⟩ := logNewBlock_only rooms.toLogLayout args.slot_positive args.slot_known entry' log
  have value := args.value_fits
  rw [u32_of_lt safe.no_wrap] at value
  obtain ⟨block, contained, sealed⟩ := tputBlock_sealed (p := logged.pool) rooms safe.data safe.alone direct args.key_fits
    args.no_offset value old fun some_value => found.stays rooms.toLogLayout direct safe.data safe.alone rooms.room changed
      (safe.kept some_value)
  refine ⟨(blocks.log rooms changed).block rooms safe.alone direct (block.mono Set.subset_union_left) contained
    (fun _ => sealed) fun _ _ here => here, ?_⟩
  simp only
  rw [same]

theorem tputMetaNewBlock_seals (rooms : h.Rooms) (blocks : SealedBut h s.pool.mem ∅) {old : Option Nat}
    (args : TputMetaArgs h txSlot kv) (entry : EntryFits h s txSlot sizeofTxEntry) (safe : PutMetaSeals h s kv)
    (done : tputMetaNewBlock h s txSlot kv old = (s', .ok, kv')) :
    SealedBut h s'.pool.mem ∅ ∧ s'.updIdList = s.updIdList := by
  have room := rooms.meta_room
  have small := rooms.metaBsize_small
  obtain ⟨-, obj, logged, direct, log, rfl, -⟩ := tputMetaNewBlock_ok done
  have entry' : EntryFits h { s with metaFreeList := (caslistPop s.metaFreeList 0).list } txSlot
    sizeofTxEntry := entry
  obtain ⟨changed, same⟩ := logNewBlock_only rooms.toLogLayout args.slot_positive args.slot_known entry' log
  have fits := args.fits
  rw [u32_of_lt safe.no_wrap, u32_of_lt (by omega)] at fits
  obtain ⟨block, contained, sealed⟩ := tputMetaBlock_sealed (p := logged.pool) rooms safe.metadata safe.alone direct fits old
  refine ⟨(blocks.log rooms changed).block rooms safe.alone direct (block.mono Set.subset_union_left) contained
    (fun _ => sealed) fun _ _ here => here, ?_⟩
  simp only
  rw [same]

theorem append_seals (rooms : h.Rooms) (blocks : SealedBut h s.pool.mem ∅) (positive : txSlot ≠ 0)
    (known : txSlot ≤ h.txSlotsCount) {fill : Pool → Nat → Pool} {len : Nat} (fills : FillsEntry fill len)
    (fits : EntryFits h s txSlot len) (done : txSlotAppend h s txSlot fill len = (s', .ok)) :
    SealedBut h s'.pool.mem ∅ ∧ s'.updIdList = s.updIdList := by
  obtain ⟨i, rfl⟩ : ∃ i, txSlot = i + 1 := ⟨txSlot - 1, by omega⟩
  have bound : i < h.txSlotsCount := by omega
  obtain ⟨processing, same⟩ := txSlotAppend_ok rooms.toLogLayout bound done
  have only := txSlotAppend_only rooms.toLogLayout bound fills (fits processing) done
  exact ⟨blocks.log rooms (only.mono (slotArea_log bound)), by rw [same]⟩

theorem resolveConflict_seals (rooms : h.Rooms) (blocks : SealedBut h s.pool.mem ∅) (blkId1 blkId2 : Nat) :
    SealedBut h (pmbResolveConflict h s blkId1 blkId2).1.pool.mem ∅ ∧
      (pmbResolveConflict h s blkId1 blkId2).1.updIdList = s.updIdList := by
  unfold pmbResolveConflict
  split
  · exact ⟨blocks, rfl⟩
  · next obj1 found1 =>
    split
    · exact ⟨blocks, rfl⟩
    · next obj2 found2 =>
      obtain ⟨-, direct1, live1⟩ := backendGet_ok.mp found1
      obtain ⟨-, direct2, live2⟩ := backendGet_ok.mp found2
      refine ⟨?_, rfl⟩
      simp only
      split
      · exact blocks.setZero rooms ((blocks.contained _ _ direct1).alone live1) direct1
      · exact blocks.setZero rooms ((blocks.contained _ _ direct2).alone live2) direct2

end Calls

end PmBackend
