import PmBackend.CallAtomicity

set_option autoImplicit false

namespace PmBackend

open ByteMemory

-- from `p` to `q` nothing is stored outside of `area`, wherever the machine stops
def StoresIn (area : Set Nat) (p q : Pool) : Prop := Keeps ∅ (ChangedIn area p.mem) p q

section Stores

variable {h : Handle} {area wider : Set Nat} {p q r : Pool} {s s' : Store} {m : Mem} {addr base obj : Nat}

theorem StoresIn.refl (area : Set Nat) (p : Pool) : StoresIn area p p := Keeps.refl (ChangedIn.refl _ _)

theorem StoresIn.trans (first : StoresIn area p q) (second : StoresIn area q r) : StoresIn area p r :=
  Keeps.trans first (Keeps.mono second fun _ changed => (Keeps.last first).trans changed)

theorem StoresIn.mono (stores : StoresIn area p q) (subset : area ⊆ wider) : StoresIn wider p q :=
  Keeps.mono stores fun _ changed => changed.mono subset

theorem span_Ici (above : base ≤ addr) (len : Nat) : span addr len ⊆ Set.Ici base := by
  intro x inside
  rw [mem_span] at inside
  exact above.trans inside.1

theorem StoresIn.store (stores : StoresIn area p q) (up : Set.Ici base ⊆ area) (above : base ≤ addr)
    (bytes : List UInt8) : StoresIn area p (q.store addr bytes) :=
  Keeps.inside stores addr bytes ((span_Ici above _).trans up)

theorem StoresIn.word (stores : StoresIn area p q) (header : span base 24 ⊆ area) (offset width value : Nat)
    (inside : offset + width ≤ 24) : StoresIn area p (q.store (base + offset) (encode width value)) :=
  Keeps.inside stores _ _ ((span_subset (by omega) (by rw [length_encode]; omega)).trans header)

theorem StoresIn.emit (stores : StoresIn area p q) {event : Event} (quiet : ∀ addr bytes, event ≠ .store addr bytes) :
    StoresIn area p (q.emit event) := Keeps.emit stores quiet

theorem StoresIn.memcpy (stores : StoresIn area p q) (up : Set.Ici base ⊆ area) (above : base ≤ addr)
    (bytes : List UInt8) : StoresIn area p (backendMemcpy h q addr bytes) :=
  Keeps.copied stores h addr bytes ((span_Ici above _).trans up)

theorem StoresIn.txSetZero (stores : StoresIn area p q) (header : span base 24 ⊆ area) :
    StoresIn area p (backendTxSetZero h q base) := by
  have zeroed : StoresIn area p (q.memset base 12) :=
    Keeps.inside stores base _ ((span_subset (le_refl _) (by rw [List.length_replicate]; omega)).trans header)
  unfold backendTxSetZero
  simp only
  split
  · exact zeroed.emit fun _ _ => Event.noConfusion
  · exact Keeps.persisted zeroed h base 12

theorem StoresIn.slotChecksum (stores : StoresIn area p q) (header : span base 24 ⊆ area) (txId : Nat) :
    StoresIn area p (txSlotChecksum h q base txId) :=
  Keeps.txPersist (stores.word header 0 8 _ (by omega)) h txId _

theorem stopsDuring_mono {whole whole' : Set Nat} (subset : whole ⊆ whole') (m : Mem) (events : List Event) :
    stopsDuring whole' m events ⊆ stopsDuring whole m events := by
  induction events with
  | nil => exact subset_refl _
  | cons event before ih =>
    cases event with
    | store addr bytes =>
      rintro m' (stops | ⟨count, cut, rfl⟩)
      · exact Or.inl (ih stops)
      · exact Or.inr ⟨count, fun x member => cut x (subset member), rfl⟩
    | persist addr len => exact ih
    | weakPersist addr len => exact ih

theorem StoresIn.last (stores : StoresIn area p q) : ChangedIn area p.mem q.mem := Keeps.last stores

theorem StoresIn.stopped (stores : StoresIn area p q) {whole : Set Nat}
    (stops : ∃ later, q.events = later ++ p.events ∧ m ∈ stopsDuring whole p.mem later) : ChangedIn area p.mem m := by
  obtain ⟨later, events, -, held⟩ := stores
  obtain ⟨later', events', member⟩ := stops
  obtain rfl : later' = later := List.append_cancel_right (events'.symm.trans events)
  exact held m (stopsDuring_mono (Set.empty_subset whole) p.mem _ member)

-- a process that is killed before the last store of an execution, and one that is killed before the last store of a put
end Stores

section Functions

variable {h : Handle} {area : Set Nat} {p q : Pool} {s s' : Store} {i slot txSlot txSlotId txId blkId obj : Nat}
  {kv : PmbPair} {old : Option Nat}

theorem Handle.LogLayout.block_up (layout : h.LogLayout) (blocks : h.blockArea ⊆ area) {id : Nat}
    (direct : backendDirect h.backend id = some obj) : Set.Ici obj ⊆ area :=
  subset_trans (fun _ above => (layout.blocks_above id obj direct).trans above) blocks

theorem setZero_storesIn (layout : h.LogLayout) (blocks : h.blockArea ⊆ area) (s : Store) (id : Nat) :
    StoresIn area s.pool (s.setZero (backendDirect h.backend id)).pool := by
  cases direct : backendDirect h.backend id with
  | none => exact .refl area s.pool
  | some obj => exact (StoresIn.refl area s.pool).store (layout.block_up blocks direct) (le_refl obj) _

theorem setZero_release_storesIn (layout : h.LogLayout) (blocks : h.blockArea ⊆ area) (s : Store) (id : Nat) :
    StoresIn area s.pool ((s.setZero (backendDirect h.backend id)).release h id).pool := by
  rw [(release_frame h _ id).1]
  exact setZero_storesIn layout blocks s id

theorem txUpdateBlock_storesIn (layout : h.LogLayout) (blocks : h.blockArea ⊆ area) {payload : List UInt8} {offset : Nat}
    (updated : txUpdateBlock h s txId blkId payload offset = some s') : StoresIn area s.pool s'.pool := by
  unfold txUpdateBlock at updated
  split at updated
  · split at updated
    · rw [txSlotMetaUpdAdd_frame updated]
      exact .refl area s.pool
    · cases updated
  · next obj direct =>
    rw [txSlotMetaUpdAdd_frame updated]
    exact (StoresIn.refl area s.pool).memcpy (layout.block_up blocks direct) (by omega) payload

theorem executeEntry_storesIn (layout : h.LogLayout) (blocks : h.blockArea ⊆ area) {pos : Nat} {entry : TxEntry}
    (executed : executeEntry h s txId pos entry = some s') : StoresIn area s.pool s'.pool := by
  unfold executeEntry at executed
  split at executed
  · split at executed
    · cases executed
      exact .refl area s.pool
    · next obj found =>
      cases executed
      have zeroed := setZero_release_storesIn layout blocks s entry.blkId1
      rwa [(backendGet_ok.mp found).2.1] at zeroed
  · split at executed
    · exact txUpdateBlock_storesIn layout blocks executed
    · cases executed
      exact .refl area s.pool

theorem txSlotMetaUpdProcess_storesIn (layout : h.LogLayout) (blocks : h.blockArea ⊆ area)
    (processed : txSlotMetaUpdProcess h s txId = some s') : StoresIn area s.pool s'.pool := by
  unfold txSlotMetaUpdProcess at processed
  obtain ⟨pool, done, rfl⟩ := Option.map_eq_some_iff.mp processed
  refine metaProcess_induct (fun q => StoresIn area s.pool q) _ _ _ (fun q k obj _ _ before direct => ?_) s.pool pool
    (.refl area s.pool) done
  have up := layout.block_up blocks direct
  exact ((before.store up (by omega) _).store up (by omega) _).store up (le_refl obj) _

theorem executeLog_storesIn (layout : h.LogLayout) (blocks : h.blockArea ⊆ area) {walked processed : Store}
    (walk : executeLog h s txId slot = some walked) (updates : txSlotMetaUpdProcess h walked txId = some processed) :
    StoresIn area s.pool processed.pool := by
  have entries : StoresIn area s.pool walked.pool := executeWalk_induct (fun t => StoresIn area s.pool t.pool) _ _
    (fun _ _ _ _ before executed => before.trans (executeEntry_storesIn layout blocks executed)) _ _ _ _
    (.refl area s.pool) walk
  exact entries.trans (txSlotMetaUpdProcess_storesIn layout blocks updates)

theorem slotReset_storesIn (header : span slot 24 ⊆ area) (s : Store) (txId : Nat) :
    StoresIn area s.pool (slotReset h s slot txId).pool :=
  ((((StoresIn.refl area s.pool).word header 8 4 _ (by omega)).word header 16 8 _ (by omega)).slotChecksum header
    txId).txSetZero header

theorem abortEntry_storesIn (layout : h.LogLayout) (blocks : h.blockArea ⊆ area) (s : Store) (entry : TxEntry) :
    StoresIn area s.pool (abortEntry h s entry).pool := by
  unfold abortEntry
  split
  · exact setZero_release_storesIn layout blocks s _
  · split
    · exact setZero_release_storesIn layout blocks s _
    · exact .refl area s.pool

theorem abortLog_storesIn (layout : h.LogLayout) (blocks : h.blockArea ⊆ area) (s : Store) (slot : Nat) :
    StoresIn area s.pool (abortLog h s slot).pool :=
  abortWalk_induct (fun t => StoresIn area s.pool t.pool) _
    (fun t entry before => before.trans (abortEntry_storesIn layout blocks t entry)) _ _ _ (.refl area s.pool)

theorem checkEntry_storesIn (layout : h.LogLayout) (blocks : h.blockArea ⊆ area) {entries : Nat} {commit : Bool}
    {entry : TxEntry} (checked : checkEntry h s txSlotId entries commit entry = some s') :
    StoresIn area s.pool s'.pool := by
  have zero := setZero_storesIn layout blocks s
  unfold checkEntry at checked
  split at checked
  · cases checked
    split
    · exact .refl area s.pool
    · exact zero _
  · split at checked
    · cases checked
      split
      · exact zero _
      · exact .refl area s.pool
    · split at checked
      · cases checked
        exact zero _
      · split at checked
        · split at checked
          · exact txUpdateBlock_storesIn layout blocks checked
          · cases checked
            exact .refl area s.pool
        · cases checked
          exact .refl area s.pool

theorem checkSlot_storesIn (layout : h.LogLayout) (blocks : h.blockArea ⊆ area)
    (headers : ∀ j < h.txSlotsCount, span (h.slotAddr j) 24 ⊆ area) (checked : checkSlot h s txSlotId = some s') :
    StoresIn area s.pool s'.pool := by
  unfold checkSlot at checked
  split at checked
  · cases checked
    exact .refl area s.pool
  · next slot direct =>
    obtain ⟨known, rfl⟩ := layout.slot_some direct
    split at checked
    · cases checked
      exact .refl area s.pool
    · obtain ⟨walked, log, rfl⟩ := Option.map_eq_some_iff.mp checked
      have entries : StoresIn area s.pool walked.pool := checkWalk_induct (fun t => StoresIn area s.pool t.pool) _ _ _
        (fun _ _ _ _ before checked => before.trans (checkEntry_storesIn layout blocks checked)) _ _ _ _
        (.refl area s.pool) log
      exact entries.trans (slotReset_storesIn (headers _ known) walked txSlotId)

theorem checkSlots_storesIn (layout : h.LogLayout) (blocks : h.blockArea ⊆ area)
    (headers : ∀ j < h.txSlotsCount, span (h.slotAddr j) 24 ⊆ area) {rounds : Nat}
    (checked : checkSlots h rounds txSlotId s = some s') : StoresIn area s.pool s'.pool := by
  induction rounds generalizing txSlotId s with
  | zero => cases checked
  | succ rounds ih =>
    unfold checkSlots at checked
    split at checked
    · obtain ⟨next, slot, rest⟩ := Option.bind_eq_some_iff.mp checked
      exact (checkSlot_storesIn layout blocks headers slot).trans (ih rest)
    · cases checked
      exact .refl area _

theorem tputKeep_storesIn (stores : StoresIn area p q) (up : Set.Ici obj ⊆ area) (old : Nat) (kv : PmbPair)
    (objSize : Nat) : StoresIn area p (tputKeep h q obj old kv objSize).1 := by
  unfold tputKeep
  split
  · generalize (if kv.offset > valLen q.mem old then valLen q.mem old else kv.offset) = beginning
    have copied := stores.memcpy (h := h) up (show obj ≤ obj + sizeofDataHdr + h.maxKeyLen by omega)
      (q.mem.read (old + sizeofDataHdr + h.maxKeyLen) beginning)
    simp only
    split
    · exact (copied.memcpy up (by omega) _).store up (by omega) _
    · exact copied
  · exact stores

theorem tputBlock_storesIn (h : Handle) (p : Pool) (up : Set.Ici obj ⊆ area) (old : Option Nat) (kv : PmbPair) :
    StoresIn area p (tputBlock h p obj old kv) := by
  have header : StoresIn area p (tputHeader h p obj old kv) :=
    (((((StoresIn.refl area p).store up (by omega) _).store up (by omega) _).memcpy up (by omega) _).store up
      (by omega) _).store up (by omega) _
  unfold tputBlock
  refine StoresIn.store ?_ up (le_refl obj) _
  split
  · refine StoresIn.memcpy ?_ up (by omega) _
    cases old with
    | none => exact header
    | some old => exact tputKeep_storesIn header up old kv _
  · exact header

theorem tputMetaBlock_storesIn (h : Handle) (p : Pool) (up : Set.Ici obj ⊆ area) (old : Option Nat) (kv : PmbPair) :
    StoresIn area p (tputMetaBlock h p obj old kv) :=
  ((((((StoresIn.refl area p).store up (by omega) _).store up (by omega) _).store up (by omega) _).memcpy up
    (by omega) _).memcpy up (by omega) _).store up (le_refl obj) _

-- the size of a slot, and the bytes behind its log
def Handle.entryArea (h : Handle) (s : Store) (i len : Nat) : Set Nat :=
  span (h.slotAddr i + 16) 8 ∪ span (h.slotAddr i + h.size s i) len

theorem LogOp.run_storesIn (layout : h.LogLayout) (s : Store) (known : txSlot ≠ 0 ∧ txSlot ≤ h.txSlotsCount) (op : LogOp)
    (entries : h.entryArea s (txSlot - 1) op.len ⊆ area) (fits : EntryFits h s txSlot op.len) :
    StoresIn area s.pool (op.run h s txSlot).1.pool := by
  obtain ⟨size, bytes⟩ := Set.union_subset_iff.mp entries
  rw [LogOp.run_eq, txSlotAppend, layout.txDirect_eq known.1 known.2]
  simp only
  split
  · exact .refl area s.pool
  · next status =>
    -- an entry that fits its slot does not wrap around to the start of the address space
    have room : h.size s (txSlot - 1) + op.len ≤ h.backend.txSlotSize := fits (not_not.mp status)
    have below := Handle.slot_below (h := h) (show txSlot - 1 < h.txSlotsCount by omega)
    have small := layout.end_lt
    have entry : u64 (h.slotAddr (txSlot - 1) + slotSize s.pool.mem (h.slotAddr (txSlot - 1))) =
        h.slotAddr (txSlot - 1) + h.size s (txSlot - 1) := u64_of_lt (by unfold Handle.size at room; omega)
    rw [entry]
    have filled : StoresIn area s.pool (op.fill h s.pool (h.slotAddr (txSlot - 1) + h.size s (txSlot - 1))) :=
      Keeps.mono (op.fill_keeps h s.pool _) fun m changed => changed.mono
        (subset_trans (span_subset (le_refl _) (by have := op.stored_le; omega)) bytes)
    refine Keeps.inside filled _ _ (subset_trans ?_ size)
    exact span_subset (le_refl _) (by rw [length_encode])

theorem logNewBlock_storesIn (layout : h.LogLayout) (s : Store) (known : txSlot ≠ 0 ∧ txSlot ≤ h.txSlotsCount)
    (entries : h.entryArea s (txSlot - 1) sizeofTxEntry ⊆ area) (fits : EntryFits h s txSlot sizeofTxEntry)
    (oldBlkId newBlkId : Nat) : StoresIn area s.pool (logNewBlock h s txSlot oldBlkId newBlkId).1.pool := by
  rw [logNewBlock_op]
  rw [← newBlockOp_len oldBlkId newBlkId] at entries fits
  exact LogOp.run_storesIn layout s known _ entries fits

theorem tputNewBlock_storesIn (layout : h.LogLayout) (blocks : h.blockArea ⊆ area) (s : Store)
    (known : txSlot ≠ 0 ∧ txSlot ≤ h.txSlotsCount) (entries : h.entryArea s (txSlot - 1) sizeofTxEntry ⊆ area)
    (fits : EntryFits h s txSlot sizeofTxEntry) (kv : PmbPair) (old : Option Nat) :
    StoresIn area s.pool (tputNewBlock h s txSlot kv old).1.pool := by
  unfold tputNewBlock
  simp only
  split
  · exact .refl area s.pool
  · split
    · exact .refl area s.pool
    · next obj direct =>
      have logs : StoresIn area s.pool _ := logNewBlock_storesIn layout
        { s with freeList := (caslistPop s.freeList 0).list } known entries fits kv.blkId (caslistPop s.freeList 0).val
      split
      · exact logs
      · exact logs.trans (tputBlock_storesIn h _ (layout.block_up blocks direct) old kv)

theorem tputMetaNewBlock_storesIn (layout : h.LogLayout) (blocks : h.blockArea ⊆ area) (s : Store)
    (known : txSlot ≠ 0 ∧ txSlot ≤ h.txSlotsCount) (entries : h.entryArea s (txSlot - 1) sizeofTxEntry ⊆ area)
    (fits : EntryFits h s txSlot sizeofTxEntry) (kv : PmbPair) (old : Option Nat) :
    StoresIn area s.pool (tputMetaNewBlock h s txSlot kv old).1.pool := by
  unfold tputMetaNewBlock
  simp only
  split
  · exact .refl area s.pool
  · split
    · exact .refl area s.pool
    · next obj direct =>
      have logs : StoresIn area s.pool _ := logNewBlock_storesIn layout
        { s with metaFreeList := (caslistPop s.metaFreeList 0).list } known entries fits kv.blkId
        (caslistPop s.metaFreeList 0).val
      split
      · exact logs
      · exact logs.trans (tputMetaBlock_storesIn h _ (layout.block_up blocks direct) old kv)

theorem pmbTput_storesIn (layout : h.LogLayout) (blocks : h.blockArea ⊆ area) (s : Store)
    (entries : h.entryArea s (txSlot - 1) (tputEntryLen h kv) ⊆ area)
    (fits : EntryFits h s txSlot (tputEntryLen h kv)) : StoresIn area s.pool (pmbTput h s txSlot kv).1.pool := by
  unfold pmbTput
  split
  · exact .refl area s.pool
  · next args =>
    have known : txSlot ≠ 0 ∧ txSlot ≤ h.txSlotsCount := by omega
    split
    · exact .refl area s.pool
    · split
      · next small =>
        rw [tputEntryLen, if_pos small] at entries fits
        exact LogOp.run_storesIn layout s known (.smallUpdate kv.blkId kv.valBytes kv.offset) entries fits
      · next large =>
        rw [tputEntryLen, if_neg large] at entries fits
        split
        · split
          · exact .refl area s.pool
          · exact tputNewBlock_storesIn layout blocks s known entries fits kv _
        · exact tputNewBlock_storesIn layout blocks s known entries fits kv none

theorem pmbTputMeta_storesIn (layout : h.LogLayout) (blocks : h.blockArea ⊆ area) (s : Store)
    (entries : h.entryArea s (txSlot - 1) sizeofTxEntry ⊆ area) (fits : EntryFits h s txSlot sizeofTxEntry) :
    StoresIn area s.pool (pmbTputMeta h s txSlot kv).1.pool := by
  unfold pmbTputMeta
  split
  · exact .refl area s.pool
  · next args =>
    have known : txSlot ≠ 0 ∧ txSlot ≤ h.txSlotsCount := by omega
    split
    · exact .refl area s.pool
    · split
      · exact .refl area s.pool
      · split
        · split
          · exact .refl area s.pool
          · exact tputMetaNewBlock_storesIn layout blocks s known entries fits kv _
        · exact tputMetaNewBlock_storesIn layout blocks s known entries fits kv none

theorem txSlotInit_storesIn (layout : h.LogLayout) (s : Store) (header : span (h.slotAddr (txSlotId - 1)) 24 ⊆ area) :
    StoresIn area s.pool (txSlotInit h s txSlotId).1.pool := by
  unfold txSlotInit
  split
  · exact .refl area s.pool
  · next args =>
    rw [layout.txDirect_eq (by omega) (by omega)]
    exact (((StoresIn.refl area s.pool).word header 0 8 _ (by omega)).word header 8 4 _ (by omega)).word header 16 8 _
      (by omega)

theorem txSlotCommit_storesIn (layout : h.LogLayout) (s : Store) (header : span (h.slotAddr (txSlotId - 1)) 24 ⊆ area) :
    StoresIn area s.pool (txSlotCommit h s txSlotId).1.pool := by
  unfold txSlotCommit
  split
  · exact .refl area s.pool
  · next args =>
    rw [layout.txDirect_eq (by omega) (by omega)]
    simp only
    split
    · exact .refl area s.pool
    · exact ((StoresIn.refl area s.pool).word header 8 4 _ (by omega)).slotChecksum header _

theorem txSlotExecute_storesIn (layout : h.LogLayout) (known : txSlotId ≠ 0 ∧ txSlotId ≤ h.txSlotsCount)
    (blocks : h.blockArea ⊆ area) (header : span (h.slotAddr (txSlotId - 1)) 24 ⊆ area) {status : Status}
    (executed : txSlotExecute h s txSlotId = some (s', status)) : StoresIn area s.pool s'.pool := by
  unfold txSlotExecute at executed
  rw [layout.txDirect_eq known.1 known.2] at executed
  simp only at executed
  split at executed
  · cases executed
    exact .refl area s.pool
  · obtain ⟨walked, log, rest⟩ := Option.bind_eq_some_iff.mp executed
    obtain ⟨processed, updates, same⟩ := Option.map_eq_some_iff.mp rest
    cases same
    exact (executeLog_storesIn layout blocks log updates).txSetZero header

theorem txSlotAbort_storesIn (layout : h.LogLayout) (s : Store) (known : txSlotId ≠ 0 ∧ txSlotId ≤ h.txSlotsCount)
    (blocks : h.blockArea ⊆ area) (header : span (h.slotAddr (txSlotId - 1)) 24 ⊆ area) :
    StoresIn area s.pool (txSlotAbort h s txSlotId).1.pool := by
  unfold txSlotAbort
  rw [layout.txDirect_eq known.1 known.2]
  simp only
  split
  · exact .refl area s.pool
  · have marked : StoresIn area s.pool (slotAborted h s (h.slotAddr (txSlotId - 1)) (txIndex txSlotId)).pool :=
      ((StoresIn.refl area s.pool).word header 8 4 _ (by omega)).slotChecksum header _
    exact (marked.trans (abortLog_storesIn layout blocks _ _)).trans (slotReset_storesIn header _ _)

theorem pmbResolveConflict_storesIn (layout : h.LogLayout) (blocks : h.blockArea ⊆ area) (s : Store)
    (blkId1 blkId2 : Nat) : StoresIn area s.pool (pmbResolveConflict h s blkId1 blkId2).1.pool := by
  have zeroed : ∀ id obj, backendGet h s.pool.mem id = .ok obj → StoresIn area s.pool (s.setZero (some obj)).pool := by
    intro id obj found
    rw [← (backendGet_ok.mp found).2.1]
    exact setZero_storesIn layout blocks s id
  unfold pmbResolveConflict
  split
  · exact .refl area s.pool
  · next obj1 found1 =>
    split
    · exact .refl area s.pool
    · next obj2 found2 =>
      simp only
      split
      · exact zeroed blkId1 obj1 found1
      · exact zeroed blkId2 obj2 found2

-- where a call stores
def Call.storeArea (h : Handle) (s : Store) (ret : Return) : Call → Set Nat
  | .tput _ kv => h.entryArea s (ret.txSlot - 1) (tputEntryLen h kv) ∪ h.blockArea
  | .tputMeta _ _ => h.entryArea s (ret.txSlot - 1) sizeofTxEntry ∪ h.blockArea
  | .tdel _ _ => h.entryArea s (ret.txSlot - 1) sizeofTxEntry
  | .txBegin | .txCommit _ => span (h.slotAddr (ret.txSlot - 1)) 24
  | .txExecute _ | .txAbort _ => span (h.slotAddr (ret.txSlot - 1)) 24 ∪ h.blockArea
  | .resolveConflict _ _ => h.blockArea

theorem runCall_storesIn (layout : h.LogLayout) {call : Call} {ret : Return} (safe : SlotSafe h s call)
    (run : runCall h s call = some (s', ret)) : StoresIn (call.storeArea h s ret) s.pool s'.pool := by
  cases call with
  | txBegin =>
    cases run
    unfold pmbTxBegin
    simp only
    split
    · exact .refl _ s.pool
    · exact txSlotInit_storesIn layout { s with txSlotsList := (caslistPop s.txSlotsList 0).list } (subset_refl _)
  | tput txSlot kv =>
    cases run
    exact pmbTput_storesIn layout Set.subset_union_right s Set.subset_union_left safe
  | tputMeta txSlot kv =>
    cases run
    exact pmbTputMeta_storesIn layout Set.subset_union_right s Set.subset_union_left safe
  | tdel txSlot blkId =>
    cases run
    unfold pmbTdel
    split
    · exact .refl _ s.pool
    · exact LogOp.run_storesIn layout s (by omega) (.remove blkId) (subset_refl _) safe
  | txCommit txSlot =>
    cases run
    unfold pmbTxCommit
    split
    · exact .refl _ s.pool
    · exact txSlotCommit_storesIn layout s (subset_refl _)
  | txExecute txSlot =>
    obtain ⟨done, executes, same⟩ := Option.map_eq_some_iff.mp run
    cases same
    unfold pmbTxExecute at executes
    split at executes
    · cases executes
      exact .refl _ s.pool
    · next args =>
      obtain ⟨⟨executed, status⟩, slot, rfl⟩ := Option.map_eq_some_iff.mp executes
      have stores : StoresIn _ s.pool executed.pool := txSlotExecute_storesIn layout
        (show txSlot ≠ 0 ∧ txSlot ≤ h.txSlotsCount by omega) Set.subset_union_right Set.subset_union_left slot
      exact stores
  | txAbort txSlot =>
    cases run
    unfold pmbTxAbort
    split
    · exact .refl _ s.pool
    · exact txSlotAbort_storesIn layout s (by omega) Set.subset_union_right Set.subset_union_left
  | resolveConflict blkId1 blkId2 =>
    cases run
    exact pmbResolveConflict_storesIn layout (subset_refl _) s blkId1 blkId2

end Functions

end PmBackend
