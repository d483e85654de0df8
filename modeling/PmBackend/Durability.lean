import PmBackend.Ownership
import PmBackend.PutBounds

set_option autoImplicit false

namespace PmBackend

open ByteMemory

-- a store un-persists its bytes, `persist` marks its range, and a weak persist promises nothing
def persisted (start : Set Nat) : List Event → Set Nat
  | [] => start
  | .store addr bytes :: before => persisted start before \ span addr bytes.length
  | .persist addr len :: before => persisted start before ∪ span addr len
  | .weakPersist _ _ :: before => persisted start before

def storedTo (events : List Event) : Set Nat :=
  {x | ∃ addr bytes, Event.store addr bytes ∈ events ∧ x ∈ span addr bytes.length}

-- the ranges given to `persist` between two pools lie in `area`
def PersistsIn (area : Set Nat) (p q : Pool) : Prop :=
  ∃ later, q.events = later ++ p.events ∧ ∀ addr len, Event.persist addr len ∈ later → span addr len ⊆ area

section Events

variable {start area : Set Nat} {events : List Event} {p q r : Pool} {x : Nat}

theorem persisted_untouched (marked : x ∈ start) (kept : x ∉ storedTo events) : x ∈ persisted start events := by
  induction events with
  | nil => exact marked
  | cons event before ih =>
    have earlier : x ∉ storedTo before := by
      rintro ⟨addr, bytes, member, inside⟩
      exact kept ⟨addr, bytes, List.mem_cons_of_mem _ member, inside⟩
    cases event with
    | store addr bytes => exact ⟨ih earlier, fun inside => kept ⟨addr, bytes, List.mem_cons_self, inside⟩⟩
    | persist addr len => exact Or.inl (ih earlier)
    | weakPersist addr len => exact ih earlier

theorem persisted_uncovered (uncovered : ∀ addr len, Event.persist addr len ∈ events → x ∉ span addr len)
    (marked : x ∈ persisted start events) : x ∈ start ∧ x ∉ storedTo events := by
  -- a byte that no range covers is persisted only when it was so at the start and has not been stored to
  induction events with
  | nil =>
    refine ⟨marked, ?_⟩
    rintro ⟨addr, bytes, member, -⟩
    cases member
  | cons event before ih =>
    have later := ih fun addr len member => uncovered addr len (List.mem_cons_of_mem _ member)
    cases event with
    | store addr bytes =>
      obtain ⟨earlier, outside⟩ := marked
      obtain ⟨initial, kept⟩ := later earlier
      refine ⟨initial, ?_⟩
      rintro ⟨addr', bytes', member, inside⟩
      rcases List.mem_cons.mp member with same | member
      · cases same
        exact outside inside
      · exact kept ⟨addr', bytes', member, inside⟩
    | persist addr len =>
      obtain ⟨initial, kept⟩ := later (marked.resolve_right (uncovered addr len List.mem_cons_self))
      refine ⟨initial, ?_⟩
      rintro ⟨addr', bytes', member, inside⟩
      exact kept ⟨addr', bytes', (List.mem_cons.mp member).resolve_left (by simp), inside⟩
    | weakPersist addr len =>
      obtain ⟨initial, kept⟩ := later marked
      refine ⟨initial, ?_⟩
      rintro ⟨addr', bytes', member, inside⟩
      exact kept ⟨addr', bytes', (List.mem_cons.mp member).resolve_left (by simp), inside⟩

theorem storedTo_mono (follows : p.Follows q) : storedTo p.events ⊆ storedTo q.events := by
  rintro x ⟨addr, bytes, member, inside⟩
  exact ⟨addr, bytes, follows.subset member, inside⟩

theorem PersistsIn.refl (area : Set Nat) (p : Pool) : PersistsIn area p p :=
  ⟨[], rfl, fun _ _ member => absurd member List.not_mem_nil⟩

theorem PersistsIn.trans (first : PersistsIn area p q) (second : PersistsIn area q r) : PersistsIn area p r := by
  obtain ⟨between, events, inside⟩ := first
  obtain ⟨later, events', inside'⟩ := second
  refine ⟨later ++ between, by rw [events', events, List.append_assoc], fun addr len member => ?_⟩
  rcases List.mem_append.mp member with after | before
  · exact inside' addr len after
  · exact inside addr len before

theorem PersistsIn.store (persists : PersistsIn area p q) (addr : Nat) (bytes : List UInt8) :
    PersistsIn area p (q.store addr bytes) := by
  refine persists.trans ⟨[.store addr bytes], rfl, fun addr' len member => ?_⟩
  cases List.mem_singleton.mp member

theorem PersistsIn.persist (persists : PersistsIn area p q) {addr len : Nat} (inside : span addr len ⊆ area) :
    PersistsIn area p (q.emit (.persist addr len)) := by
  refine persists.trans ⟨[.persist addr len], rfl, fun addr' len' member => ?_⟩
  cases List.mem_singleton.mp member
  exact inside

end Events

-- what `persist` is called for in PMB_SYNC, and at most in PMB_SELSYNC
def Handle.persistArea (h : Handle) : Set Nat :=
  if h.backend.syncType = .sync then span h.backend.txLog (u64 (h.backend.datasize + h.backend.metasize))
  else h.logArea

-- plain `memcpy`, and a mode in which a commit persists
structure Handle.Syncs (h : Handle) : Prop extends h.LogLayout where
  plain : h.backend.isPmem = false
  mode : h.backend.syncType = .sync ∨ h.backend.syncType = .selsync

section Calls

variable {h : Handle} {p q : Pool} {s s' : Store} {i : Nat}

theorem PersistsIn.memcpy (syncs : h.Syncs) (persists : PersistsIn h.persistArea p q) (dest : Nat)
    (bytes : List UInt8) : PersistsIn h.persistArea p (backendMemcpy h q dest bytes) := by
  have plain : ¬h.backend.isPmem = true := by simp [syncs.plain]
  unfold backendMemcpy
  simp only [if_neg plain]
  exact persists.store dest bytes

theorem PersistsIn.backendPersist (syncs : h.Syncs) (persists : PersistsIn h.persistArea p q) {addr len : Nat}
    (log : span addr len ⊆ h.logArea) : PersistsIn h.persistArea p (backendPersist h q addr len) := by
  -- a range in the log is persisted, or in PMB_SYNC the same range as ever
  unfold PmBackend.backendPersist
  rcases syncs.mode with sync | selsync
  · rw [sync]
    exact persists
  · have area : h.persistArea = h.logArea := if_neg (by rw [selsync]; decide)
    rw [selsync]
    exact persists.persist (by rwa [area])

theorem PersistsIn.persistAll (sync : h.backend.syncType = .sync) (persists : PersistsIn h.persistArea p q) :
    PersistsIn h.persistArea p (backendPersistAll h q) := by
  refine persists.persist ?_
  rw [Handle.persistArea, if_pos sync]

theorem PersistsIn.txPersist (syncs : h.Syncs) (known : i < h.txSlotsCount)
    (persists : PersistsIn h.persistArea p q) {size : Nat} (fits : size ≤ h.backend.txSlotSize) :
    PersistsIn h.persistArea p (backendTxPersist h q i size) := by
  have below := Handle.slot_below known
  unfold backendTxPersist
  by_cases sync : h.backend.syncType = .sync
  · rw [if_pos sync]
    exact persists.persistAll sync
  · rw [if_neg sync, syncs.slot_eq known]
    refine persists.backendPersist syncs fun x inside => ?_
    simp only [mem_span] at inside
    simp only [Handle.logArea, Set.mem_ofPred_eq]
    omega

theorem PersistsIn.txSetZero (syncs : h.Syncs) (known : i < h.txSlotsCount)
    (persists : PersistsIn h.persistArea p q) : PersistsIn h.persistArea p (backendTxSetZero h q (h.slotAddr i)) := by
  have below := Handle.slot_below known
  have room := syncs.slot_room
  have zeroed := persists.store (h.slotAddr i) (List.replicate 12 0)
  unfold backendTxSetZero
  simp only
  by_cases sync : h.backend.syncType = .sync
  · rw [if_pos sync]
    exact PersistsIn.persistAll sync zeroed
  · rw [if_neg sync]
    refine PersistsIn.backendPersist syncs zeroed fun x inside => ?_
    simp only [mem_span] at inside
    simp only [Handle.logArea, Set.mem_ofPred_eq]
    omega

theorem PersistsIn.txSlotChecksum (syncs : h.Syncs) (known : i < h.txSlotsCount)
    (persists : PersistsIn h.persistArea p q) (fits : slotSize q.mem (h.slotAddr i) ≤ h.backend.txSlotSize) :
    PersistsIn h.persistArea p (txSlotChecksum h q (h.slotAddr i) i) := by
  have size : slotSize (utilChecksumInsert h q (h.slotAddr i) (slotSize q.mem (h.slotAddr i))).mem (h.slotAddr i) =
      slotSize q.mem (h.slotAddr i) := word_write_disjoint _ _ _ _ _ (by simp)
  unfold PmBackend.txSlotChecksum
  simp only [size]
  exact PersistsIn.txPersist syncs known (persists.store _ _) fits

theorem PersistsIn.setZero (persists : PersistsIn h.persistArea p s.pool) (obj : Option Nat) :
    PersistsIn h.persistArea p (s.setZero obj).pool := by
  cases obj with
  | none => exact persists
  | some obj => exact persists.store _ _

theorem PersistsIn.fill (syncs : h.Syncs) (persists : PersistsIn h.persistArea p q) (op : LogOp) (entry : Nat) :
    PersistsIn h.persistArea p (op.fill h q entry) := by
  cases op with
  | write blkId => exact (persists.store _ _).store _ _
  | update oldBlkId newBlkId => exact ((persists.store _ _).store _ _).store _ _
  | smallUpdate blkId data offset => exact PersistsIn.memcpy syncs (((persists.store _ _).store _ _).store _ _) _ _
  | remove blkId => exact (persists.store _ _).store _ _

theorem LogOp.run_persists (syncs : h.Syncs) (op : LogOp) (txSlotId : Nat) :
    PersistsIn h.persistArea s.pool (op.run h s txSlotId).1.pool := by
  rw [LogOp.run_eq]
  unfold txSlotAppend
  split
  · exact PersistsIn.refl _ _
  · simp only
    split
    · exact PersistsIn.refl _ _
    · exact (PersistsIn.fill syncs (PersistsIn.refl _ _) op _).store _ _

theorem PersistsIn.tputBlock (syncs : h.Syncs) (persists : PersistsIn h.persistArea p q) (obj : Nat)
    (old : Option Nat) (kv : PmbPair) : PersistsIn h.persistArea p (tputBlock h q obj old kv) := by
  have header : PersistsIn h.persistArea p (tputHeader h q obj old kv) :=
    ((PersistsIn.memcpy syncs ((persists.store _ _).store _ _) _ _).store _ _).store _ _
  have kept : ∀ oldObj objSize,
      PersistsIn h.persistArea p (tputKeep h (tputHeader h q obj old kv) obj oldObj kv objSize).1 := by
    intro oldObj objSize
    have beginning := fun dest bytes => PersistsIn.memcpy syncs header dest bytes
    rcases tputKeep_reads h (tputHeader h q obj old kv) obj oldObj kv objSize with
      ⟨-, same⟩ | ⟨_, -, same⟩ | ⟨_, _, -, same⟩
    · rw [same]
      exact header
    · rw [same]
      exact beginning _ _
    · rw [same]
      exact (PersistsIn.memcpy syncs (beginning _ _) _ _).store _ _
  unfold PmBackend.tputBlock
  refine PersistsIn.store ?_ _ _
  split
  · unfold tputValue
    refine PersistsIn.memcpy syncs ?_ _ _
    cases old with
    | none => exact header
    | some oldObj => exact kept oldObj _
  · exact header

theorem PersistsIn.tputMetaBlock (syncs : h.Syncs) (persists : PersistsIn h.persistArea p q) (obj : Nat)
    (old : Option Nat) (kv : PmbPair) : PersistsIn h.persistArea p (tputMetaBlock h q obj old kv) := by
  have lengths := ((persists.store (obj + 20) (encode 4 kv.keyLen)).store (obj + 24) (encode 4 kv.valLen)).store
    (obj + 16) (encode 4 (nextVersion ((q.setKeyLen obj kv.keyLen).setValLen obj kv.valLen).mem old))
  exact (PersistsIn.memcpy syncs (PersistsIn.memcpy syncs lengths _ _) _ _).store _ _

theorem executeEntry_persists (syncs : h.Syncs) {txId pos : Nat} {entry : TxEntry}
    (persists : PersistsIn h.persistArea p s.pool) (executed : executeEntry h s txId pos entry = some s') :
    PersistsIn h.persistArea p s'.pool := by
  unfold executeEntry at executed
  split at executed
  · split at executed
    · cases executed
      exact persists
    · next obj found =>
      cases executed
      rw [(release_frame h _ _).1]
      exact persists.setZero _
  · split at executed
    · have added : ∀ {t : Store} {size : Nat}, PersistsIn h.persistArea p t.pool →
          txSlotMetaUpdAdd h t txId entry.blkId1 size = some s' → PersistsIn h.persistArea p s'.pool := by
        intro t size earlier same
        rw [txSlotMetaUpdAdd_frame same]
        exact earlier
      unfold txUpdateBlock at executed
      split at executed
      · split at executed
        · exact added persists executed
        · cases executed
      · exact added (PersistsIn.memcpy syncs persists _ _) executed
    · cases executed
      exact persists

theorem txSlotExecute_persists (syncs : h.Syncs) (known : i < h.txSlotsCount) {status : Status}
    (executed : txSlotExecute h s (i + 1) = some (s', status)) : PersistsIn h.persistArea s.pool s'.pool := by
  have index : txIndex (i + 1) = i := syncs.txIndex_eq (by omega) (by omega)
  unfold txSlotExecute at executed
  rw [index, syncs.slot_eq known] at executed
  simp only at executed
  split at executed
  · cases executed
    exact PersistsIn.refl _ _
  · obtain ⟨walked, walk, rest⟩ := Option.bind_eq_some_iff.mp executed
    obtain ⟨processed, process, same⟩ := Option.map_eq_some_iff.mp rest
    cases same
    have entries : PersistsIn h.persistArea s.pool walked.pool :=
      executeWalk_induct (fun t => PersistsIn h.persistArea s.pool t.pool) _ _
        (fun t pos entry t' earlier step => executeEntry_persists syncs earlier step) _ _ s walked
        (PersistsIn.refl _ _) walk
    obtain ⟨pool, headers, same⟩ := Option.map_eq_some_iff.mp process
    have rewritten : PersistsIn h.persistArea s.pool pool :=
      metaProcess_induct (fun q => PersistsIn h.persistArea s.pool q) _ _ _
        (fun q k obj _ _ earlier _ => ((earlier.store _ _).store _ _).store _ _) _ pool entries headers
    rw [← same]
    exact PersistsIn.txSetZero syncs known rewritten

theorem txSlotAbort_persists (syncs : h.Syncs) (known : i < h.txSlotsCount)
    (fits : h.status s i ≠ TxStatus.empty.code → h.size s i ≤ h.backend.txSlotSize) :
    PersistsIn h.persistArea s.pool (txSlotAbort h s (i + 1)).1.pool := by
  have index : txIndex (i + 1) = i := syncs.txIndex_eq (by omega) (by omega)
  unfold txSlotAbort
  rw [index, syncs.slot_eq known]
  simp only
  split
  · exact PersistsIn.refl _ _
  · next started =>
    have size : slotSize (s.pool.setStatus (h.slotAddr i) .aborted).mem (h.slotAddr i) = h.size s i :=
      word_write_disjoint _ _ _ _ _ (by simp)
    have not_empty : h.status s i ≠ TxStatus.empty.code := by
      intro empty
      have code : slotStatus s.pool.mem (h.slotAddr i) = TxStatus.empty.code := empty
      rw [code] at started
      exact started (by decide)
    have aborted : PersistsIn h.persistArea s.pool (slotAborted h s (h.slotAddr i) i).pool :=
      PersistsIn.txSlotChecksum syncs known ((PersistsIn.refl _ _).store _ _) (by rw [size]; exact fits not_empty)
    have walked : PersistsIn h.persistArea s.pool
        (abortLog h (slotAborted h s (h.slotAddr i) i) (h.slotAddr i)).pool := by
      refine abortWalk_induct (fun t => PersistsIn h.persistArea s.pool t.pool) _ (fun t entry earlier => ?_) _ _ _
        aborted
      unfold abortEntry
      split
      · rw [(release_frame h _ _).1]
        exact earlier.setZero _
      · split
        · rw [(release_frame h _ _).1]
          exact earlier.setZero _
        · exact earlier
    -- the size is zero when the slot is persisted for the last time
    refine PersistsIn.txSetZero syncs known (PersistsIn.txSlotChecksum syncs known ((walked.store _ _).store _ _) ?_)
    rw [slotSize, Pool.store_mem, word_write_same]
    exact Nat.zero_le _

theorem txSlotCommit_persists (syncs : h.Syncs) (known : i < h.txSlotsCount)
    (fits : h.status s i ≠ TxStatus.empty.code → h.size s i ≤ h.backend.txSlotSize) :
    PersistsIn h.persistArea s.pool (txSlotCommit h s (i + 1)).1.pool := by
  rw [txSlotCommit_eq syncs.toLogLayout s known]
  split
  · next processing =>
    have size : slotSize (s.pool.setStatus (h.slotAddr i) .commited).mem (h.slotAddr i) = h.size s i :=
      word_write_disjoint _ _ _ _ _ (by simp)
    have not_empty : h.status s i ≠ TxStatus.empty.code := by
      rw [processing]
      decide
    exact PersistsIn.txSlotChecksum syncs known ((PersistsIn.refl _ _).store _ _) (by rw [size]; exact fits not_empty)
  · exact PersistsIn.refl _ _

theorem logNewBlock_persists (syncs : h.Syncs) (txSlot oldBlkId newBlkId : Nat) :
    PersistsIn h.persistArea s.pool (logNewBlock h s txSlot oldBlkId newBlkId).1.pool := by
  rw [logNewBlock_op]
  exact LogOp.run_persists syncs _ _

theorem pmbTput_persists (syncs : h.Syncs) (txSlot : Nat) (kv : PmbPair) :
    PersistsIn h.persistArea s.pool (pmbTput h s txSlot kv).1.pool := by
  have new_block : ∀ old, PersistsIn h.persistArea s.pool (tputNewBlock h s txSlot kv old).1.pool := by
    intro old
    unfold tputNewBlock
    simp only
    split
    · exact PersistsIn.refl _ _
    · split
      · exact PersistsIn.refl _ _
      · have logged := logNewBlock_persists (s := { s with freeList := (caslistPop s.freeList 0).list }) syncs txSlot
          kv.blkId (caslistPop s.freeList 0).val
        split
        · exact logged
        · exact PersistsIn.tputBlock syncs logged _ _ _
  unfold pmbTput
  split
  · exact PersistsIn.refl _ _
  · split
    · exact PersistsIn.refl _ _
    · split
      · exact LogOp.run_persists syncs (.smallUpdate kv.blkId kv.valBytes kv.offset) txSlot
      · split
        · split
          · exact PersistsIn.refl _ _
          · exact new_block _
        · exact new_block _

theorem pmbTputMeta_persists (syncs : h.Syncs) (txSlot : Nat) (kv : PmbPair) :
    PersistsIn h.persistArea s.pool (pmbTputMeta h s txSlot kv).1.pool := by
  have new_block : ∀ old, PersistsIn h.persistArea s.pool (tputMetaNewBlock h s txSlot kv old).1.pool := by
    intro old
    unfold tputMetaNewBlock
    simp only
    split
    · exact PersistsIn.refl _ _
    · split
      · exact PersistsIn.refl _ _
      · have logged := logNewBlock_persists (s := { s with metaFreeList := (caslistPop s.metaFreeList 0).list }) syncs
          txSlot kv.blkId (caslistPop s.metaFreeList 0).val
        split
        · exact logged
        · exact PersistsIn.tputMetaBlock syncs logged _ _ _
  unfold pmbTputMeta
  split
  · exact PersistsIn.refl _ _
  · split
    · exact PersistsIn.refl _ _
    · split
      · exact PersistsIn.refl _ _
      · split
        · split
          · exact PersistsIn.refl _ _
          · exact new_block _
        · exact new_block _

theorem pmbTxBegin_persists : PersistsIn h.persistArea s.pool (pmbTxBegin h s).1.pool := by
  unfold pmbTxBegin txSlotInit
  simp only
  split
  · exact PersistsIn.refl _ _
  · split
    · exact PersistsIn.refl _ _
    · split
      · exact PersistsIn.refl _ _
      · exact (((PersistsIn.refl _ _).store _ _).store _ _).store _ _

theorem pmbResolveConflict_persists (blkId1 blkId2 : Nat) :
    PersistsIn h.persistArea s.pool (pmbResolveConflict h s blkId1 blkId2).1.pool := by
  have zeroed : ∀ obj, PersistsIn h.persistArea s.pool (s.setZero (some obj)).pool := fun obj =>
    (PersistsIn.refl _ s.pool).setZero (some obj)
  unfold pmbResolveConflict
  split
  · exact PersistsIn.refl _ _
  · split
    · exact PersistsIn.refl _ _
    · exact zeroed _

end Calls

-- the log that a commit or an abort persists ends in its slot
def LogEnds (h : Handle) (s : Store) : Call → Prop
  | .txCommit txSlot =>
    h.status s (txSlot - 1) ≠ TxStatus.empty.code → h.size s (txSlot - 1) ≤ h.backend.txSlotSize
  | .txAbort txSlot =>
    h.status s (txSlot - 1) ≠ TxStatus.empty.code → h.size s (txSlot - 1) ≤ h.backend.txSlotSize
  | _ => True

def EachCall (h : Handle) (P : Store → Call → Prop) : List Call → Store → Prop
  | [], _ => True
  | call :: rest, s => P s call ∧ ∀ s' ret, runCall h s call = some (s', ret) → EachCall h P rest s'

section Runs

variable {h : Handle} {s s' : Store} {i : Nat}

theorem runCall_persists (syncs : h.Syncs) {call : Call} {ret : Return} (ends : LogEnds h s call)
    (run : runCall h s call = some (s', ret)) : PersistsIn h.persistArea s.pool s'.pool := by
  cases call with
  | txBegin =>
    cases run
    exact pmbTxBegin_persists
  | tput txSlot kv =>
    cases run
    exact pmbTput_persists syncs txSlot kv
  | tputMeta txSlot kv =>
    cases run
    exact pmbTputMeta_persists syncs txSlot kv
  | tdel txSlot blkId =>
    cases run
    simp only [pmbTdel]
    split
    · exact PersistsIn.refl _ _
    · exact LogOp.run_persists syncs (.remove blkId) txSlot
  | txCommit txSlot =>
    cases run
    simp only [pmbTxCommit]
    split
    · exact PersistsIn.refl _ _
    · next valid =>
      obtain ⟨i, rfl⟩ : ∃ i, txSlot = i + 1 := ⟨txSlot - 1, by omega⟩
      exact txSlotCommit_persists syncs (by omega) ends
  | txExecute txSlot =>
    obtain ⟨⟨store, status⟩, executed, same⟩ := Option.map_eq_some_iff.mp run
    cases same
    unfold pmbTxExecute at executed
    split at executed
    · cases executed
      exact PersistsIn.refl _ _
    · next valid =>
      obtain ⟨i, rfl⟩ : ∃ i, txSlot = i + 1 := ⟨txSlot - 1, by omega⟩
      obtain ⟨⟨done, status'⟩, walked, same⟩ := Option.map_eq_some_iff.mp executed
      cases same
      have persists : PersistsIn h.persistArea s.pool done.pool := txSlotExecute_persists syncs (by omega) walked
      exact persists
  | txAbort txSlot =>
    cases run
    simp only [pmbTxAbort]
    split
    · exact PersistsIn.refl _ _
    · next valid =>
      obtain ⟨i, rfl⟩ : ∃ i, txSlot = i + 1 := ⟨txSlot - 1, by omega⟩
      exact txSlotAbort_persists syncs (by omega) ends
  | resolveConflict blkId1 blkId2 =>
    cases run
    exact pmbResolveConflict_persists blkId1 blkId2

theorem runCalls_persists (syncs : h.Syncs) {calls : List Call} {rets : List Return}
    (ends : EachCall h (LogEnds h) calls s) (run : runCalls h s calls = some (s', rets)) :
    PersistsIn h.persistArea s.pool s'.pool := by
  induction calls generalizing s rets with
  | nil =>
    cases run
    exact PersistsIn.refl _ _
  | cons call rest ih =>
    obtain ⟨⟨next, ret⟩, step, later⟩ := Option.bind_eq_some_iff.mp run
    obtain ⟨⟨last, more⟩, tail, same⟩ := Option.map_eq_some_iff.mp later
    cases same
    exact (runCall_persists syncs ends.1 step).trans (ih (ends.2 next ret step) tail)

end Runs

-- the header, the key and the value of the object in a block
def Handle.objectBytes (h : Handle) (m : Mem) (id : Nat) : Set Nat :=
  {x | ∃ obj, backendDirect h.backend id = some obj ∧
    (x ∈ span obj sizeofDataHdr ∨ x ∈ span (obj + sizeofDataHdr) (keyLen m obj) ∨
      x ∈ span (valueAddr h m id obj) (valLen m obj))}

-- the log of a slot, and the objects of the new blocks that its WRITE and UPDATE entries name
def Handle.transactionBytes (h : Handle) (m : Mem) (i : Nat) : Set Nat :=
  {x | x ∈ span (h.slotAddr i) (slotSize m (h.slotAddr i)) ∨
    ∃ entry ∈ slotEntries m (h.slotAddr i), ∃ id, Writes entry id ∧ x ∈ h.objectBytes m id}

def Durable (h : Handle) (start : Set Nat) (i : Nat) (s : Store) : Prop :=
  h.transactionBytes s.pool.mem i ⊆ persisted start s.pool.events

-- the range that a commit persists
def Handle.commitRange (h : Handle) (s : Store) (i : Nat) : Set Nat :=
  if h.backend.syncType = .sync then span h.backend.txLog (u64 (h.backend.datasize + h.backend.metasize))
  else span (h.slotAddr i) (h.size s i)

section Commits

variable {h : Handle} {s s' : Store} {i : Nat}

theorem objectBytes_above (layout : h.LogLayout) {m : Mem} {id x : Nat} (inside : x ∈ h.objectBytes m id) :
    h.logEnd ≤ x := by
  obtain ⟨obj, direct, parts⟩ := inside
  have above := layout.blocks_above id obj direct
  have value : obj ≤ valueAddr h m id obj := by
    unfold valueAddr
    split <;> omega
  simp only [mem_span] at parts
  omega

theorem objectBytes_congr (layout : h.LogLayout) {m m' : Mem} (same : ∀ x, h.logEnd ≤ x → m' x = m x) (id : Nat) :
    h.objectBytes m' id = h.objectBytes m id := by
  have word : ∀ obj offset, backendDirect h.backend id = some obj →
      m'.word (obj + offset) 4 = m.word (obj + offset) 4 := by
    intro obj offset direct
    have above := layout.blocks_above id obj direct
    exact word_congr _ _ _ _ fun x lower _ => same x (by omega)
  ext x
  refine exists_congr fun obj => and_congr_right fun direct => ?_
  unfold valueAddr
  rw [keyLen, valLen, word obj 20 direct, word obj 24 direct]

theorem txSlotCommit_events (layout : h.Syncs) (known : i < h.txSlotsCount)
    (committed : txSlotCommit h s (i + 1) = (s', .ok)) :
    h.status s i = TxStatus.processing.code ∧ ChangedIn (span (h.slotAddr i) 16) s.pool.mem s'.pool.mem ∧
      ∃ sum addr len, span addr len = h.commitRange s i ∧
        s'.pool.events = .persist addr len :: .store (h.slotAddr i) (encode 8 sum) ::
          .store (h.slotAddr i + 8) (encode 4 TxStatus.commited.code) :: s.pool.events := by
  -- a commit stores the status and the checksum, and then persists its range
  rw [txSlotCommit_eq layout.toLogLayout s known] at committed
  split at committed
  · next processing =>
    cases committed
    have size : slotSize (utilChecksumInsert h (s.pool.setStatus (h.slotAddr i) .commited) (h.slotAddr i)
        (slotSize (s.pool.setStatus (h.slotAddr i) .commited).mem (h.slotAddr i))).mem (h.slotAddr i) = h.size s i := by
      simp only [slotSize, utilChecksumInsert, Pool.store_mem]
      rw [word_write_disjoint _ _ _ _ _ (by simp), word_write_disjoint _ _ _ _ _ (by simp)]
      rfl
    refine ⟨processing, statusChecksum_header h _ _ _ _, ?_⟩
    unfold txSlotChecksum backendTxPersist Handle.commitRange
    simp only [size]
    rcases layout.mode with sync | selsync
    · rw [if_pos sync, if_pos sync]
      exact ⟨_, _, _, rfl, rfl⟩
    · have other : h.backend.syncType ≠ .sync := by
        rw [selsync]
        decide
      rw [if_neg other, if_neg other, layout.slot_eq known]
      simp only [backendPersist, selsync]
      exact ⟨_, _, _, rfl, rfl⟩
  · cases committed

theorem transactionBytes_commit (layout : h.LogLayout) (known : i < h.txSlotsCount)
    (changed : ChangedIn (span (h.slotAddr i) 16) s.pool.mem s'.pool.mem) :
    h.transactionBytes s'.pool.mem i = h.transactionBytes s.pool.mem i := by
  have below := Handle.slot_below known
  have room := layout.slot_room
  have size : slotSize s'.pool.mem (h.slotAddr i) = slotSize s.pool.mem (h.slotAddr i) :=
    word_congr _ _ _ _ fun x lower _ => header_frame changed x lower
  have objects : ∀ id, h.objectBytes s'.pool.mem id = h.objectBytes s.pool.mem id :=
    objectBytes_congr layout fun x above => header_frame changed x (by omega)
  unfold Handle.transactionBytes slotEntries
  rw [size, slotLog_congr changed]
  simp only [objects]

theorem commit_persisted (syncs : h.Syncs) {opened : Store} (start : Set Nat) (fresh : opened.pool.events = [])
    (persists : PersistsIn h.persistArea opened.pool s.pool) (known : i < h.txSlotsCount)
    (committed : txSlotCommit h s (i + 1) = (s', .ok)) {x : Nat} (inside : x ∈ h.transactionBytes s.pool.mem i) :
    x ∈ persisted start s'.pool.events ↔
      x ∈ h.commitRange s i ∨ (x ∈ start ∧ x ∉ storedTo s.pool.events ∧ x ∉ span (h.slotAddr i) 12) := by
  -- what a commit leaves persisted: its range, and what was so at the start and was never stored to
  obtain ⟨-, -, sum, addr, len, range, events⟩ := txSlotCommit_events syncs known committed
  obtain ⟨later, history, ranges⟩ := persists
  rw [fresh, List.append_nil] at history
  have header : x ∈ span (h.slotAddr i) 12 ↔ x ∈ span (h.slotAddr i) 8 ∨ x ∈ span (h.slotAddr i + 8) 4 := by
    simp only [mem_span]
    omega
  rw [events]
  simp only [persisted, length_encode, range]
  constructor
  · rintro (⟨⟨before, not_status⟩, not_sum⟩ | here)
    · by_cases covered : x ∈ h.commitRange s i
      · exact Or.inl covered
      · right
        have uncovered : ∀ addr len, Event.persist addr len ∈ s.pool.events → x ∉ span addr len := by
          intro addr len member within
          rw [history] at member
          have area := ranges addr len member within
          unfold Handle.persistArea at area
          unfold Handle.commitRange at covered
          split at area
          · next sync =>
            rw [if_pos sync] at covered
            exact covered area
          · next other =>
            -- outside its own log, the transaction has bytes in blocks only
            rw [if_neg other] at covered
            rcases inside with log | ⟨entry, -, id, -, object⟩
            · exact covered log
            · have above := objectBytes_above syncs.toLogLayout object
              simp only [Handle.logArea, Set.mem_ofPred_eq] at area
              omega
        obtain ⟨initial, kept⟩ := persisted_uncovered uncovered before
        refine ⟨initial, kept, fun stored => ?_⟩
        rcases header.mp stored with sum' | status
        · exact not_sum sum'
        · exact not_status status
    · exact Or.inl here
  · rintro (here | ⟨initial, kept, other⟩)
    · exact Or.inr here
    · rw [header, not_or] at other
      exact Or.inl ⟨⟨persisted_untouched initial kept, other.2⟩, other.1⟩

end Commits

-- a transaction is durable when its commit returns exactly when each of its bytes lies in the range that the commit
-- persists, or was persisted when the pool was opened and has not been stored to
theorem durable_commit_iff {h : Handle} (syncs : h.Syncs) (start : Set Nat) {opened s s' : Store}
    (fresh : opened.pool.events = []) {calls : List Call} {rets : List Return}
    (run : runCalls h opened calls = some (s, rets)) (ends : EachCall h (LogEnds h) calls opened) {i : Nat}
    (known : i < h.txSlotsCount) {ret : Return} (commits : runCall h s (.txCommit (i + 1)) = some (s', ret))
    (success : ret.status = .ok) :
    Durable h start i s' ↔ ∀ x ∈ h.transactionBytes s.pool.mem i, x ∈ h.commitRange s i ∨
      (x ∈ start ∧ x ∉ storedTo s.pool.events ∧ x ∉ span (h.slotAddr i) 12) := by
  have valid : ¬(i + 1 = 0 ∨ i + 1 > h.txSlotsCount) := by omega
  have committed : txSlotCommit h s (i + 1) = (s', .ok) := by
    cases commits
    simp only [pmbTxCommit, if_neg valid] at success ⊢
    exact Prod.ext rfl success
  obtain ⟨-, changed, -⟩ := txSlotCommit_events syncs known committed
  unfold Durable
  rw [transactionBytes_commit syncs.toLogLayout known changed]
  refine forall_congr' fun x => forall_congr' fun inside => ?_
  exact commit_persisted syncs start fresh (runCalls_persists syncs ends run) known committed inside

theorem PersistsIn.follows {area : Set Nat} {p q : Pool} (persists : PersistsIn area p q) : p.Follows q := by
  obtain ⟨later, events, -⟩ := persists
  exact ⟨later, events.symm⟩

def newBlockOf (h : Handle) (s : Store) : Call → Option Nat
  | .tput _ kv =>
    if kv.blkId ≠ 0 ∧ kv.valLen < h.maxValLen / 2 then none else some (caslistPop s.freeList 0).val
  | .tputMeta _ _ => some (caslistPop s.metaFreeList 0).val
  | _ => none

section NewBlocks

variable {h : Handle} {s s' t t' : Store} {i : Nat}

theorem checksum_stored (h : Handle) (p : Pool) (obj len : Nat) :
    obj ∈ storedTo (utilChecksumInsert h p obj len).events :=
  ⟨obj, encode 8 (checksumOf h p.mem obj len), List.mem_cons_self, by simp⟩

theorem newBlock_stored {call : Call} {ret : Return} {id obj : Nat} (run : runCall h s call = some (s', ret))
    (success : ret.status = .ok) (new : newBlockOf h s call = some id)
    (direct : backendDirect h.backend id = some obj) : obj ∈ storedTo s'.pool.events := by
  cases call with
  | tput txSlot kv =>
    simp only [newBlockOf] at new
    split at new
    · cases new
    · next large =>
      cases new
      cases run
      obtain ⟨-, ⟨small, -⟩ | ⟨-, old, -, put⟩⟩ := pmbTput_ok (Prod.ext rfl (Prod.ext success rfl))
      · exact absurd small large
      · obtain ⟨-, obj', logged, direct', -, written, -⟩ := tputNewBlock_ok put
        rw [direct] at direct'
        cases direct'
        rw [congrArg Store.pool written]
        exact checksum_stored h _ obj _
  | tputMeta txSlot kv =>
    cases new
    cases run
    obtain ⟨-, old, -, put⟩ := pmbTputMeta_ok (Prod.ext rfl (Prod.ext success rfl))
    obtain ⟨-, obj', logged, direct', -, written, -⟩ := tputMetaNewBlock_ok put
    rw [direct] at direct'
    cases direct'
    rw [congrArg Store.pool written]
    exact checksum_stored h _ obj _
  | tdel _ _ => cases new
  | txBegin => cases new
  | txCommit _ => cases new
  | txExecute _ => cases new
  | txAbort _ => cases new
  | resolveConflict _ _ => cases new

theorem selsync_range (layout : h.LogLayout) (selsync : h.backend.syncType = .selsync) (known : i < h.txSlotsCount)
    (fits : h.size s i ≤ h.backend.txSlotSize) {id obj : Nat} (direct : backendDirect h.backend id = some obj) :
    obj ∉ h.commitRange s i := by
  -- in PMB_SELSYNC no block lies in the range of a commit
  have below := Handle.slot_below known
  have above := layout.blocks_above id obj direct
  have other : ¬h.backend.syncType = .sync := by
    rw [selsync]
    decide
  rw [Handle.commitRange, if_neg other, mem_span]
  omega

theorem put_lost (syncs : h.Syncs) (start : Set Nat) {opened : Store} (fresh : opened.pool.events = [])
    {before after : List Call} {rets rets' : List Return} {put : Call} {ret : Return} {id obj : Nat}
    (first : runCalls h opened before = some (t, rets)) (accepted : runCall h t put = some (t', ret))
    (success : ret.status = .ok) (new : newBlockOf h t put = some id)
    (direct : backendDirect h.backend id = some obj) (rest : runCalls h t' after = some (s, rets'))
    (ends : EachCall h (LogEnds h) before opened) (ends_put : LogEnds h t put)
    (ends_rest : EachCall h (LogEnds h) after t') (known : i < h.txSlotsCount) {entry : TxEntry}
    (logged : entry ∈ slotEntries s.pool.mem (h.slotAddr i)) (named : Writes entry id)
    (outside : obj ∉ h.commitRange s i) (commits : txSlotCommit h s (i + 1) = (s', .ok)) :
    ¬Durable h start i s' := by
  -- a transaction is not durable when its log names a block outside the range that was put since the
  -- pool was opened
  have later := runCalls_persists syncs ends_rest rest
  have persists := ((runCalls_persists syncs ends first).trans (runCall_persists syncs ends_put accepted)).trans later
  have stored := storedTo_mono later.follows (newBlock_stored accepted success new direct)
  have inside : obj ∈ h.transactionBytes s.pool.mem i :=
    Or.inr ⟨entry, logged, id, named, obj, direct, Or.inl (by simp)⟩
  obtain ⟨-, changed, -⟩ := txSlotCommit_events syncs known commits
  intro durable
  rw [Durable, transactionBytes_commit syncs.toLogLayout known changed] at durable
  rcases (commit_persisted syncs start fresh persists known commits inside).mp (durable inside) with range | ⟨-, kept, -⟩
  · exact outside range
  · exact kept stored

end NewBlocks

def syncHandle (mode : SyncType) : Handle :=
  { flatHandle with backend := { flatBackend with syncType := mode } }

theorem syncHandle_syncs {mode : SyncType} (syncs : mode = .sync ∨ mode = .selsync) : (syncHandle mode).Syncs := by
  have layout : (syncHandle mode).LogLayout := by
    have noWrap : { flatPool with syncType := mode }.NoWrap := ⟨flatPool_noWrap.1, flatPool_noWrap.2⟩
    rcases syncs with rfl | rfl
    · exact Backend.Mapped.logLayout noWrap (by decide +kernel) rfl (by decide) (by decide) (by decide +kernel)
        (by decide +kernel) (Or.inl rfl)
    · exact Backend.Mapped.logLayout noWrap (by decide +kernel) rfl (by decide) (by decide) (by decide +kernel)
        (by decide +kernel) (Or.inl rfl)
  exact { layout with plain := rfl, mode := syncs }

theorem durable_commit_iff_sample :
    ∃ s s' rets ret, runCalls (syncHandle .selsync) flatStore [.txBegin, .tdel 1 1] = some (s, rets) ∧
      runCall (syncHandle .selsync) s (.txCommit 1) = some (s', ret) ∧ Durable (syncHandle .selsync) ∅ 0 s' := by
  have ran : (runCalls (syncHandle .selsync) flatStore [.txBegin, .tdel 1 1]).map
      (fun done => (slotEntries done.1.pool.mem ((syncHandle .selsync).slotAddr 0),
        (pmbTxCommit (syncHandle .selsync) done.1 1).2)) = some ([⟨3, 1, 0⟩], .ok) := by decide +kernel
  obtain ⟨⟨s, rets⟩, run, values⟩ := Option.map_eq_some_iff.mp ran
  simp only [Prod.mk.injEq] at values
  refine ⟨s, _, rets, _, run, rfl, (durable_commit_iff (syncHandle_syncs (Or.inr rfl)) ∅ rfl run
    ⟨trivial, fun _ _ _ => ⟨trivial, fun _ _ _ => trivial⟩⟩ (i := 0) (by decide) rfl values.2).mpr ?_⟩
  rintro x (log | ⟨entry, member, id, writes, -⟩)
  · exact Or.inl log
  · rw [values.1, List.mem_singleton] at member
    subst member
    rcases writes with ⟨write, -⟩ | ⟨update, -⟩
    · exact absurd write (by decide)
    · exact absurd update (by decide)

-- the event persists the byte at an address
def Event.covers (x : Nat) : Event → Bool
  | .persist addr len => addr ≤ x && x < addr + len
  | _ => false

def Event.starts (x : Nat) : Event → Bool
  | .store addr bytes => addr == x && bytes.length == 8
  | _ => false

theorem stored_not_persisted {start : Set Nat} {events : List Event} {x : Nat}
    (uncovered : events.any (Event.covers x) = false) (stored : events.any (Event.starts x) = true) :
    x ∉ persisted start events := by
  have none_covers : ∀ addr len, Event.persist addr len ∈ events → x ∉ span addr len := by
    intro addr len member inside
    have other := List.any_eq_false.mp uncovered _ member
    simp only [Event.covers, Bool.and_eq_true, decide_eq_true_eq] at other
    exact other inside
  intro marked
  obtain ⟨event, member, here⟩ := List.any_eq_true.mp stored
  cases event with
  | store addr bytes =>
    simp only [Event.starts, Bool.and_eq_true, beq_iff_eq] at here
    refine (persisted_uncovered none_covers marked).2 ⟨addr, bytes, member, ?_⟩
    simp only [mem_span]
    omega
  | persist addr len => cases here
  | weakPersist addr len => cases here

theorem new_object_lost_in {mode : SyncType} (syncs : mode = .sync ∨ mode = .selsync) :
    ∃ s rets, runCalls (syncHandle mode) flatStore [.txBegin, .tput 1 (onePair 0), .txCommit 1] = some (s, rets) ∧
      (∀ ret ∈ rets, ret.status = .ok) ∧ ¬Durable (syncHandle mode) Set.univ 0 s := by
  have ran : (runCalls (syncHandle mode) flatStore [.txBegin, .tput 1 (onePair 0), .txCommit 1]).map
      (fun done => (slotEntries done.1.pool.mem ((syncHandle mode).slotAddr 0),
        done.1.pool.events.any (Event.covers 139638110957568),
        done.1.pool.events.any (Event.starts 139638110957568), done.2.map Return.status)) =
      some ([⟨0, 1, 0⟩], false, true, [.ok, .ok, .ok]) := by
    rcases syncs with rfl | rfl <;> decide +kernel
  obtain ⟨⟨s, rets⟩, run, values⟩ := Option.map_eq_some_iff.mp ran
  simp only [Prod.mk.injEq] at values
  obtain ⟨log, uncovered, stored, statuses⟩ := values
  refine ⟨s, rets, run, fun ret member => ?_, fun durable => ?_⟩
  · have status := List.mem_map_of_mem (f := Return.status) member
    rw [statuses] at status
    simpa using status
  · have direct : backendDirect (syncHandle mode).backend 1 = some 139638110957568 := by
      rcases syncs with rfl | rfl <;> decide +kernel
    refine stored_not_persisted uncovered stored (durable (Or.inr ⟨⟨0, 1, 0⟩, ?_, 1, Or.inl ⟨rfl, rfl⟩,
      139638110957568, direct, Or.inl ?_⟩))
    · rw [log]
      exact List.mem_singleton_self _
    · simp

-- a new object in block 1 is not durable in either mode, even when every byte was persisted before
theorem new_object_lost :
    (∃ s rets, runCalls (syncHandle .sync) flatStore [.txBegin, .tput 1 (onePair 0), .txCommit 1] = some (s, rets) ∧
      (∀ ret ∈ rets, ret.status = .ok) ∧ ¬Durable (syncHandle .sync) Set.univ 0 s) ∧
    ∃ s rets, runCalls (syncHandle .selsync) flatStore [.txBegin, .tput 1 (onePair 0), .txCommit 1] = some (s, rets) ∧
      (∀ ret ∈ rets, ret.status = .ok) ∧ ¬Durable (syncHandle .selsync) Set.univ 0 s :=
  ⟨new_object_lost_in (Or.inl rfl), new_object_lost_in (Or.inr rfl)⟩

end PmBackend
