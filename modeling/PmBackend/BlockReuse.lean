import Mathlib.Logic.Relation
import PmBackend.Blocks
import PmBackend.Model.Steps
import PmBackend.Ownership
import PmBackend.PutCases

set_option autoImplicit false

namespace PmBackend

open ByteMemory

def Free (s : Store) (id : Nat) : Prop := Listed s.freeList id ∨ Listed s.metaFreeList id

-- the slots that are not EMPTY, with their logs
def Handle.view (h : Handle) (s : Store) (i : Nat) : Option SlotView :=
  if i < h.txSlotsCount ∧ h.status s i ≠ TxStatus.empty.code then
    some ⟨h.status s i, slotEntries s.pool.mem (h.slotAddr i)⟩
  else none

def Phase.taken : Phase → Option Nat
  | .writing _ _ _ blkId => some blkId
  | _ => none

def System.taken (sys : System) (i : Nat) : Option Nat := (sys.phase i).taken

-- no block that replay of a slot zeroes is free, or new in another transaction
def NoReuse (h : Handle) (sys : System) : Prop :=
  ∀ i < h.txSlotsCount, ∀ id, Named (h.view sys.store) i id →
    ¬Free sys.store id ∧ ∀ j < h.txSlotsCount, j ≠ i → ¬NewBlock (h.view sys.store) j id

-- the bytes of a slot, up to its size, are these records
structure Logged (h : Handle) (s : Store) (i : Nat) (records : List LogRecord) : Prop where
  fits : h.size s i ≤ h.backend.txSlotSize
  records : SlotRecords s.pool.mem (h.slotAddr i) records

def AllLogged (h : Handle) (s : Store) : Prop :=
  ∀ i < h.txSlotsCount, h.status s i ≠ TxStatus.empty.code → ∃ records, Logged h s i records

-- both free lists, with the ids each of them may hold
structure FreeLists (h : Handle) (s : Store) : Prop where
  data : ∃ ids, ListOf s.freeList ids ∧ ∀ id ∈ ids, id < h.totalObjsCount ∧ id + 1 < 2 ^ 64
  metadata : ∃ ids, ListOf s.metaFreeList ids ∧ ∀ id ∈ ids, h.totalObjsCount ≤ id ∧ id + 1 < 2 ^ 64

structure Owned (h : Handle) (sys : System) : Prop where
  blocks : Ownership (Free sys.store) (h.view sys.store) sys.taken h.txSlotsCount
  lists : FreeLists h sys.store
  logs : AllLogged h sys.store
  -- a popped block goes back to the list it came from
  popped : ∀ i metadata kv old id, sys.phase i = .writing metadata kv old id →
    i < h.txSlotsCount ∧ id ≠ 0 ∧ id + 1 < 2 ^ 64 ∧ (metadata = true → h.totalObjsCount ≤ id)

section Views

variable {h : Handle} {s s' : Store} {i : Nat}

theorem Logged.entries (layout : h.LogLayout) {records : List LogRecord} (logged : Logged h s i records)
    (known : i < h.txSlotsCount) : slotEntries s.pool.mem (h.slotAddr i) = records.map LogRecord.entry := by
  have below := Handle.slot_below known
  have small := layout.end_lt
  have fits := logged.fits
  unfold Handle.size at fits
  exact (logged.records.entries (by omega)).1

theorem Logged.congr {records : List LogRecord} (logged : Logged h s i records)
    (same : ∀ x, h.slotAddr i + 16 ≤ x → x < h.slotAddr i + h.backend.txSlotSize →
      s'.pool.mem x = s.pool.mem x) : Logged h s' i records := by
  have fits := logged.fits
  have started : 24 ≤ h.size s i := logged.records.size_ge
  have size : h.size s' i = h.size s i :=
    word_congr _ _ _ _ fun x lower upper => same x lower (by omega)
  refine ⟨size.trans_le fits, logged.records.congr fun x lower upper => same x lower ?_⟩
  unfold Handle.size at fits
  omega

theorem SlotChanged.slot_bytes {j : Nat} (changed : SlotChanged h i s s') (known : j < h.txSlotsCount)
    (other : j ≠ i) (x : Nat) (lower : h.slotAddr j ≤ x) (upper : x < h.slotAddr j + h.backend.txSlotSize) :
    s'.pool.mem x = s.pool.mem x := by
  have below := Handle.slot_below known
  apply changed
  rintro (slot | block)
  · simp only [Handle.slotArea, mem_span] at slot
    rcases lt_or_gt_of_ne other with less | greater
    · have := Handle.slot_step (h := h) less
      omega
    · have := Handle.slot_step (h := h) greater
      omega
  · simp only [Handle.blockArea, Set.mem_ofPred_eq] at block
    omega

theorem blocks_slot_bytes {m m' : Mem} {j : Nat} (changed : ChangedIn h.blockArea m m') (known : j < h.txSlotsCount)
    (x : Nat) (upper : x < h.slotAddr j + h.backend.txSlotSize) : m' x = m x := by
  have below := Handle.slot_below known
  apply changed
  simp only [Handle.blockArea, Set.mem_ofPred_eq]
  omega

theorem view_empty (empty : h.status s i = TxStatus.empty.code) : h.view s i = none := by
  unfold Handle.view
  rw [if_neg fun both => both.2 empty]

theorem view_some (known : i < h.txSlotsCount) (used : h.status s i ≠ TxStatus.empty.code) :
    h.view s i = some ⟨h.status s i, slotEntries s.pool.mem (h.slotAddr i)⟩ := if_pos ⟨known, used⟩

theorem view_congr (layout : h.LogLayout) (logs : AllLogged h s)
    (same : ∀ x, h.slotAddr i ≤ x → x < h.slotAddr i + h.backend.txSlotSize → s'.pool.mem x = s.pool.mem x) :
    h.view s' i = h.view s i ∧
      (i < h.txSlotsCount → h.status s' i ≠ TxStatus.empty.code → ∃ records, Logged h s' i records) := by
  have room := layout.slot_room
  have status : h.status s' i = h.status s i :=
    word_congr _ _ _ _ fun x lower upper => same x (by omega) (by omega)
  by_cases used : h.status s i = TxStatus.empty.code
  · exact ⟨by rw [view_empty used, view_empty (status.trans used)], fun _ still => absurd (status.trans used) still⟩
  · by_cases known : i < h.txSlotsCount
    · obtain ⟨records, logged⟩ := logs i known used
      have logged' := logged.congr fun x lower upper => same x (by omega) upper
      refine ⟨?_, fun _ _ => ⟨records, logged'⟩⟩
      rw [view_some known used, view_some known (by rwa [status]), status, logged.entries layout known,
        logged'.entries layout known]
    · refine ⟨?_, fun known' => absurd known' known⟩
      unfold Handle.view
      rw [if_neg fun both => known both.1, if_neg fun both => known both.1]

theorem view_pool (same : s'.pool = s.pool) : h.view s' = h.view s := by
  funext j
  unfold Handle.view Handle.status
  rw [same]

theorem AllLogged.pool (logs : AllLogged h s) (same : s'.pool = s.pool) : AllLogged h s' := by
  intro j known used
  unfold Handle.status at used
  rw [same] at used
  obtain ⟨records, logged⟩ := logs j known used
  exact ⟨records, logged.congr fun x _ _ => by rw [same]⟩

theorem SlotChanged.views (layout : h.LogLayout) (changed : SlotChanged h i s s') (logs : AllLogged h s)
    (logged : h.status s' i ≠ TxStatus.empty.code → ∃ records, Logged h s' i records) :
    h.view s' = Function.update (h.view s) i (h.view s' i) ∧ AllLogged h s' := by
  have others : ∀ j < h.txSlotsCount, j ≠ i → h.view s' j = h.view s j ∧
      (j < h.txSlotsCount → h.status s' j ≠ TxStatus.empty.code → ∃ records, Logged h s' j records) :=
    fun j known other => view_congr layout logs (changed.slot_bytes known other)
  refine ⟨funext fun j => ?_, fun j known used => ?_⟩
  · by_cases same : j = i
    · rw [same, Function.update_self]
    · rw [Function.update_of_ne same]
      by_cases known : j < h.txSlotsCount
      · exact (others j known same).1
      · unfold Handle.view
        rw [if_neg fun both => known both.1, if_neg fun both => known both.1]
  · by_cases same : j = i
    · subst same
      exact logged used
    · exact (others j known same).2 known used

theorem blocks_views (layout : h.LogLayout) (changed : ChangedIn h.blockArea s.pool.mem s'.pool.mem)
    (logs : AllLogged h s) : h.view s' = h.view s ∧ AllLogged h s' := by
  have all : ∀ j < h.txSlotsCount, h.view s' j = h.view s j ∧
      (j < h.txSlotsCount → h.status s' j ≠ TxStatus.empty.code → ∃ records, Logged h s' j records) :=
    fun j known => view_congr layout logs fun x _ upper => blocks_slot_bytes changed known x upper
  refine ⟨funext fun j => ?_, fun j known used => (all j known).2 known used⟩
  by_cases known : j < h.txSlotsCount
  · exact (all j known).1
  · unfold Handle.view
    rw [if_neg fun both => known both.1, if_neg fun both => known both.1]

end Views

section Slots

variable {h : Handle} {sys : System} {i : Nat}

theorem System.at_taken (sys : System) (i : Nat) (store : Store) (phase : Phase) :
    (sys.at i store phase).taken = Function.update sys.taken i phase.taken := by
  funext j
  by_cases same : j = i
  · subst same
    simp [System.taken, System.at]
  · simp [System.taken, System.at, same]

theorem System.at_same (sys : System) (i : Nat) (store : Store) :
    sys.at i store (sys.phase i) = { sys with store := store } := by
  simp [System.at]

theorem free_congr {s s' : Store} (free : s'.freeList = s.freeList) (metaFree : s'.metaFreeList = s.metaFreeList) :
    Free s' = Free s := by
  unfold Free
  rw [free, metaFree]

theorem FreeLists.congr {s s' : Store} (lists : FreeLists h s) (free : s'.freeList = s.freeList)
    (metaFree : s'.metaFreeList = s.metaFreeList) : FreeLists h s' :=
  ⟨free ▸ lists.data, metaFree ▸ lists.metadata⟩

theorem Owned.slot (layout : h.LogLayout) (owned : Owned h sys) {store : Store} {phase : Phase}
    (changed : SlotChanged h i sys.store store) (free : store.freeList = sys.store.freeList)
    (metaFree : store.metaFreeList = sys.store.metaFreeList) (idle : phase.taken = none)
    (logged : h.status store i ≠ TxStatus.empty.code → ∃ records, Logged h store i records)
    (new : ∀ id, NewBlock (h.view store) i id → Held (h.view sys.store) sys.taken i id)
    (old : ∀ id, OldBlockOf (h.view store) i id → OldBlockOf (h.view sys.store) i id ∨
      (¬Free sys.store id ∧ ∀ j < h.txSlotsCount, j ≠ i → ¬Held (h.view sys.store) sys.taken j id)) :
    Owned h (sys.at i store phase) := by
  -- a step of the thread of one slot that pops and pushes no block
  obtain ⟨views, logs⟩ := changed.views layout owned.logs logged
  refine ⟨?_, owned.lists.congr free metaFree, logs, fun j metadata kv oldObj id writing => ?_⟩
  · rw [System.at_taken, idle]
    have same_lists : Free (sys.at i store phase).store = Free sys.store := free_congr free metaFree
    rw [same_lists]
    have shrunk := owned.blocks.shrink (i := i) (h.view store i) none
    rw [← views] at shrunk
    refine shrunk (fun id holds => ?_) old fun id impossible => by cases impossible
    rcases holds with impossible | holds
    · rw [Function.update_self] at impossible
      cases impossible
    · exact new id holds
  · by_cases same : j = i
    · subst same
      have this_phase : phase = .writing metadata kv oldObj id := by simpa [System.at] using writing
      rw [this_phase] at idle
      cases idle
    · exact owned.popped j metadata kv oldObj id (by simpa [System.at, same] using writing)

theorem Owned.only_blocks (layout : h.LogLayout) (owned : Owned h sys) {store : Store}
    (changed : ChangedIn h.blockArea sys.store.pool.mem store.pool.mem)
    (free : store.freeList = sys.store.freeList) (metaFree : store.metaFreeList = sys.store.metaFreeList) :
    Owned h { sys with store := store } := by
  obtain ⟨views, logs⟩ := blocks_views layout changed owned.logs
  refine ⟨?_, owned.lists.congr free metaFree, logs, owned.popped⟩
  have same : Free store = Free sys.store := free_congr free metaFree
  simp only [views, same]
  exact owned.blocks

theorem Owned.phase (owned : Owned h sys) (i : Nat) {phase : Phase} (idle : phase.taken = none) :
    Owned h (sys.at i sys.store phase) := by
  refine ⟨?_, owned.lists, owned.logs, fun j metadata kv old id writing => ?_⟩
  · rw [System.at_taken, idle]
    have dropped := owned.blocks.shrink (i := i) (h.view sys.store i) none
    rw [Function.update_eq_self] at dropped
    refine dropped (fun id holds => ?_) (fun _ old => Or.inl old) fun id impossible => by cases impossible
    rcases holds with impossible | holds
    · rw [Function.update_self] at impossible
      cases impossible
    · exact Or.inr holds
  · by_cases same : j = i
    · subst same
      have this_phase : phase = .writing metadata kv old id := by simpa [System.at] using writing
      rw [this_phase] at idle
      cases idle
    · exact owned.popped j metadata kv old id (by simpa [System.at, same] using writing)

theorem Logged.append (layout : h.LogLayout) {s : Store} (known : i < h.txSlotsCount)
    {fill : Pool → Nat → Pool} {len : Nat} (fills : FillsEntry fill len)
    (processing : h.status s i = TxStatus.processing.code) (fits : h.size s i + len ≤ h.backend.txSlotSize)
    {records : List LogRecord} (logged : Logged h s i records) (r : LogRecord)
    (next : recordAt (fill s.pool (h.slotAddr i + h.size s i)).mem (h.slotAddr i + h.size s i) = r)
    (span : r.entry.span = len) :
    Logged h (txSlotAppend h s (i + 1) fill len).1 i (records ++ [r]) := by
  obtain ⟨-, -, -, size⟩ := txSlotAppend_spec layout s known fills processing logged.records.size_ge fits
  exact ⟨size.trans_le fits, txSlotAppend_records layout known fills processing fits logged.records r next span⟩

theorem Owned.append (layout : h.LogLayout) (owned : Owned h sys) (known : i < h.txSlotsCount)
    {fill : Pool → Nat → Pool} {len : Nat} (fills : FillsEntry fill len)
    (fits : EntryFits h sys.store (i + 1) len) (entry : TxEntry)
    (next : ∃ payload, recordAt (fill sys.store.pool (h.slotAddr i + h.size sys.store i)).mem
      (h.slotAddr i + h.size sys.store i) = ⟨entry, payload⟩)
    (span : entry.span = len) (new : ∀ id, Writes entry id → Held (h.view sys.store) sys.taken i id)
    {phase : Phase} (idle : phase.taken = none) :
    Owned h (sys.at i (txSlotAppend h sys.store (i + 1) fill len).1 phase) := by
  by_cases processing : h.status sys.store i = TxStatus.processing.code
  · obtain ⟨payload, next⟩ := next
    have used : h.status sys.store i ≠ TxStatus.empty.code := by
      rw [processing]
      decide
    obtain ⟨records, logged⟩ := owned.logs i known used
    have room := fits processing
    rw [Nat.add_sub_cancel] at room
    obtain ⟨done, only, status, -⟩ :=
      txSlotAppend_spec layout sys.store known fills processing logged.records.size_ge room
    have logged' := logged.append layout known fills processing room ⟨entry, payload⟩ next span
    have used' : h.status (txSlotAppend h sys.store (i + 1) fill len).1 i ≠ TxStatus.empty.code := by
      rw [status]
      decide
    have view' := view_some known used'
    rw [logged'.entries layout known, List.map_append, ← logged.entries layout known] at view'
    have view := view_some known used
    refine owned.slot layout only.slotChanged (by rw [done]) (by rw [done]) idle (fun _ => ⟨_, logged'⟩)
      (fun id holds => ?_) fun id old => ?_
    · obtain ⟨v, viewed, r, member, writes⟩ := holds
      rw [view'] at viewed
      cases viewed
      rcases List.mem_append.mp member with before | last
      · exact Or.inr ⟨_, view, r, before, writes⟩
      · rw [List.map_cons, List.map_nil, List.mem_singleton] at last
        subst last
        exact new id writes
    · obtain ⟨v, viewed, commited, -⟩ := old
      rw [view'] at viewed
      cases viewed
      rw [status] at commited
      cases commited
  · rw [txSlotAppend_eq layout sys.store known, if_neg processing]
    exact owned.phase i idle

theorem Owned.logNewBlock (layout : h.LogLayout) (owned : Owned h sys) (known : i < h.txSlotsCount)
    (oldBlkId : Nat) {blkId : Nat} (small : blkId < 2 ^ 64)
    (fits : EntryFits h sys.store (i + 1) sizeofTxEntry) (taken : sys.taken i = some blkId) {phase : Phase}
    (idle : phase.taken = none) :
    Owned h (sys.at i (logNewBlock h sys.store (i + 1) oldBlkId blkId).1 phase) := by
  have held : ∀ id, blkId % 2 ^ 64 = id → Held (h.view sys.store) sys.taken i id := by
    rintro id rfl
    rw [Nat.mod_eq_of_lt small]
    exact Or.inl taken
  unfold PmBackend.logNewBlock
  split
  · refine owned.append layout known (fillsEntry_update oldBlkId blkId) fits _
      ⟨[], record_plain (readEntry_ids _ _ .update _ _) (by simp [TxOp.code])⟩ rfl (fun id writes => ?_) idle
    rcases writes with ⟨impossible, -⟩ | ⟨-, same⟩
    · cases impossible
    · exact held id same
  · refine owned.append layout known (fillsEntry_write blkId) fits _
      ⟨[], record_plain (readEntry_id1 _ _ .write _) (by simp [TxOp.code])⟩ rfl (fun id writes => ?_) idle
    rcases writes with ⟨-, same⟩ | ⟨impossible, -⟩
    · exact held id same
    · cases impossible

theorem Owned.restatus (layout : h.LogLayout) (owned : Owned h sys) (known : i < h.txSlotsCount)
    (used : h.status sys.store i ≠ TxStatus.empty.code) {store : Store} {phase : Phase}
    (changed : SlotOnly h i sys.store store) (header : ChangedIn (span (h.slotAddr i) 16) sys.store.pool.mem store.pool.mem)
    (free : store.freeList = sys.store.freeList) (metaFree : store.metaFreeList = sys.store.metaFreeList)
    (idle : phase.taken = none)
    (old : h.status store i = TxStatus.commited.code →
      ∀ entry ∈ slotEntries sys.store.pool.mem (h.slotAddr i), Zeroes entry → ¬Free sys.store entry.blkId1 ∧
        ∀ j < h.txSlotsCount, j ≠ i → ¬Held (h.view sys.store) sys.taken j entry.blkId1) :
    Owned h (sys.at i store phase) := by
  -- only the status changes, and not to COMMITED unless the old blocks allow it
  obtain ⟨records, logged⟩ := owned.logs i known used
  have logged' : Logged h store i records := logged.congr fun x lower _ => header_frame header x lower
  have entries : slotEntries store.pool.mem (h.slotAddr i) = slotEntries sys.store.pool.mem (h.slotAddr i) := by
    rw [logged.entries layout known, logged'.entries layout known]
  have from_view : ∀ v, h.view store i = some v → v = ⟨h.status store i, slotEntries sys.store.pool.mem (h.slotAddr i)⟩ := by
    intro v viewed
    unfold Handle.view at viewed
    split at viewed
    · cases viewed
      rw [entries]
    · cases viewed
  refine owned.slot layout changed.slotChanged free metaFree idle (fun _ => ⟨records, logged'⟩)
    (fun id new => ?_) fun id holds => ?_
  · obtain ⟨v, viewed, entry, member, writes⟩ := new
    rw [from_view v viewed] at member
    exact Or.inr ⟨_, view_some known used, entry, member, writes⟩
  · obtain ⟨v, viewed, commited, entry, member, zeroes, rfl⟩ := holds
    rw [from_view v viewed] at member commited
    exact Or.inr (old commited entry member zeroes)

theorem Owned.emptied (layout : h.LogLayout) (owned : Owned h sys) {store : Store} {phase : Phase}
    (changed : SlotChanged h i sys.store store) (free : store.freeList = sys.store.freeList)
    (metaFree : store.metaFreeList = sys.store.metaFreeList) (idle : phase.taken = none)
    (empty : h.status store i = TxStatus.empty.code) : Owned h (sys.at i store phase) := by
  have gone := view_empty empty
  refine owned.slot layout changed free metaFree idle (fun used => absurd empty used) (fun id new => ?_)
    fun id old => ?_
  · obtain ⟨v, viewed, -⟩ := new
    rw [gone] at viewed
    cases viewed
  · obtain ⟨v, viewed, -⟩ := old
    rw [gone] at viewed
    cases viewed

end Slots

section Lists

variable {h : Handle} {sys : System} {s : Store} {i : Nat}

-- the store after the pop of a block of either region
def popBlock (s : Store) (metadata : Bool) : Store :=
  if metadata then { s with metaFreeList := (caslistPop s.metaFreeList 0).list }
  else { s with freeList := (caslistPop s.freeList 0).list }

theorem listed_pop {list : Option Caslist} {ids : Finset Nat} (lists : ListOf list ids)
    (small : ∀ id ∈ ids, id + 1 < 2 ^ 64) (popped : (caslistPop list 0).ret = 0) :
    (caslistPop list 0).val ∈ ids ∧ ListOf (caslistPop list 0).list (ids.erase (caslistPop list 0).val) := by
  by_cases empty : ids = ∅
  · subst empty
    rw [lists.pop_empty 0] at popped
    cases popped
  · obtain ⟨least, member, -, -, val, rest⟩ :=
      lists.pop (Finset.nonempty_iff_ne_empty.mpr empty) small 0
    rw [val]
    exact ⟨member, rest⟩

theorem FreeLists.data_pop (lists : FreeLists h s) (popped : (caslistPop s.freeList 0).ret = 0) :
    FreeLists h (popBlock s false) ∧ Listed s.freeList (caslistPop s.freeList 0).val ∧
      (∀ x, Free (popBlock s false) x → Free s x ∧ x ≠ (caslistPop s.freeList 0).val) ∧
      (caslistPop s.freeList 0).val ≠ 0 ∧ (caslistPop s.freeList 0).val + 1 < 2 ^ 64 := by
  obtain ⟨⟨ids, data, range⟩, ⟨metaIds, metadata, metaRange⟩⟩ := lists
  obtain ⟨member, rest⟩ := listed_pop data (fun id inside => (range id inside).2) popped
  refine ⟨⟨⟨_, rest, fun id inside => range id (Finset.mem_of_mem_erase inside)⟩, ⟨metaIds, metadata, metaRange⟩⟩,
    (data.listed _).mpr member, fun x free => ?_, by have := data.positive member; omega, (range _ member).2⟩
  rcases free with free | free
  · have inside := (rest.listed x).mp free
    exact ⟨Or.inl ((data.listed x).mpr (Finset.mem_of_mem_erase inside)), Finset.ne_of_mem_erase inside⟩
  · have inside := (metadata.listed x).mp free
    have := (metaRange x inside).1
    have := (range _ member).1
    exact ⟨Or.inr free, by omega⟩

theorem FreeLists.meta_pop (lists : FreeLists h s) (popped : (caslistPop s.metaFreeList 0).ret = 0) :
    FreeLists h (popBlock s true) ∧ Listed s.metaFreeList (caslistPop s.metaFreeList 0).val ∧
      (∀ x, Free (popBlock s true) x → Free s x ∧ x ≠ (caslistPop s.metaFreeList 0).val) ∧
      h.totalObjsCount ≤ (caslistPop s.metaFreeList 0).val ∧ (caslistPop s.metaFreeList 0).val ≠ 0 ∧
      (caslistPop s.metaFreeList 0).val + 1 < 2 ^ 64 := by
  obtain ⟨⟨ids, data, range⟩, ⟨metaIds, metadata, metaRange⟩⟩ := lists
  obtain ⟨member, rest⟩ := listed_pop metadata (fun id inside => (metaRange id inside).2) popped
  refine ⟨⟨⟨ids, data, range⟩, ⟨_, rest, fun id inside => metaRange id (Finset.mem_of_mem_erase inside)⟩⟩,
    (metadata.listed _).mpr member, fun x free => ?_, (metaRange _ member).1,
    by have := metadata.positive member; omega, (metaRange _ member).2⟩
  rcases free with free | free
  · have inside := (data.listed x).mp free
    have := (range x inside).1
    have := (metaRange _ member).1
    exact ⟨Or.inl free, by omega⟩
  · have inside := (rest.listed x).mp free
    exact ⟨Or.inr ((metadata.listed x).mpr (Finset.mem_of_mem_erase inside)), Finset.ne_of_mem_erase inside⟩

theorem popBlock_pool (s : Store) (metadata : Bool) : (popBlock s metadata).pool = s.pool := by
  unfold popBlock
  split <;> rfl

theorem Owned.popBlock (owned : Owned h sys) (known : i < h.txSlotsCount) (idle : sys.phase i = .idle)
    {metadata : Bool} {kv : PmbPair} {old : Option Nat} {id : Nat}
    (lists : FreeLists h (popBlock sys.store metadata)) (was_free : Free sys.store id)
    (less : ∀ x, Free (PmBackend.popBlock sys.store metadata) x → Free sys.store x ∧ x ≠ id) (positive : id ≠ 0)
    (small : id + 1 < 2 ^ 64) (region : metadata = true → h.totalObjsCount ≤ id) :
    Owned h (sys.at i (PmBackend.popBlock sys.store metadata) (.writing metadata kv old id)) := by
  have not_taken : sys.taken i = none := by
    unfold System.taken
    rw [idle]
    rfl
  have same_pool := popBlock_pool sys.store metadata
  refine ⟨?_, lists, owned.logs.pool same_pool, fun j metadata' kv' old' id' writing => ?_⟩
  · rw [System.at_taken]
    have same : h.view (sys.at i (PmBackend.popBlock sys.store metadata) (.writing metadata kv old id)).store =
      h.view sys.store := view_pool same_pool
    rw [same]
    exact owned.blocks.take not_taken was_free less
  · by_cases same : j = i
    · subst same
      simp only [System.at, Function.update_self, Phase.writing.injEq] at writing
      obtain ⟨rfl, -, -, rfl⟩ := writing
      exact ⟨known, positive, small, region⟩
    · exact owned.popped j metadata' kv' old' id' (by simpa [System.at, same] using writing)

theorem takeBlock_some {metadata : Bool} {kv : PmbPair} {old : Option Nat} {s' : Store} {phase : Phase}
    (done : takeBlock s metadata kv old = some (s', phase)) :
    (caslistPop (if metadata then s.metaFreeList else s.freeList) 0).ret = 0 ∧
      s' = PmBackend.popBlock s metadata ∧
      phase = .writing metadata kv old (caslistPop (if metadata then s.metaFreeList else s.freeList) 0).val := by
  unfold takeBlock at done
  simp only at done
  by_cases popped : (caslistPop (if metadata then s.metaFreeList else s.freeList) 0).ret = 0
  · rw [if_neg (not_not.mpr popped)] at done
    cases done
    exact ⟨popped, by cases metadata <;> rfl, rfl⟩
  · rw [if_pos popped] at done
    cases done

theorem takeStep_some {metadata : Bool} {kv : PmbPair} {s' : Store} {phase : Phase}
    (done : takeStep h s metadata kv = some (s', phase)) : ∃ old, takeBlock s metadata kv old = some (s', phase) := by
  unfold takeStep at done
  split at done
  · split at done
    · cases done
    · exact ⟨_, done⟩
  · exact ⟨_, done⟩

theorem Owned.takes (owned : Owned h sys) (known : i < h.txSlotsCount) (idle : sys.phase i = .idle)
    {metadata : Bool} {kv : PmbPair} {s' : Store} {phase : Phase}
    (done : takeStep h sys.store metadata kv = some (s', phase)) : Owned h (sys.at i s' phase) := by
  obtain ⟨old, done⟩ := takeStep_some done
  obtain ⟨popped, rfl, rfl⟩ := takeBlock_some done
  cases metadata with
  | false =>
    obtain ⟨lists, listed, less, positive, small⟩ := owned.lists.data_pop popped
    exact owned.popBlock known idle lists (Or.inl listed) less positive small (fun impossible => by cases impossible)
  | true =>
    obtain ⟨lists, listed, less, region, positive, small⟩ := owned.lists.meta_pop popped
    exact owned.popBlock known idle lists (Or.inr listed) less positive small fun _ => region

theorem Owned.giveBack (owned : Owned h sys) (known : i < h.txSlotsCount) {blkId : Nat}
    (taken : sys.taken i = some blkId) (positive : blkId ≠ 0) (small : blkId + 1 < 2 ^ 64)
    (region : h.totalObjsCount ≤ blkId) :
    Owned h (sys.at i { sys.store with metaFreeList := caslistPush sys.store.metaFreeList blkId } .idle) := by
  obtain ⟨data, ⟨metaIds, metadata, metaRange⟩⟩ := owned.lists
  have pushed := metadata.push_pos positive (by omega : blkId < 2 ^ 64)
  have logs : AllLogged h { sys.store with metaFreeList := caslistPush sys.store.metaFreeList blkId } :=
    owned.logs.pool rfl
  refine ⟨?_, ⟨data, ⟨_, pushed, fun id inside => ?_⟩⟩, logs, fun j metadata' kv' old' id' writing => ?_⟩
  · rw [System.at_taken]
    refine owned.blocks.giveBack known taken fun x free => ?_
    rcases free with free | free
    · exact Or.inl (Or.inl free)
    · rcases Finset.mem_insert.mp ((pushed.listed x).mp free) with same | inside
      · exact Or.inr same
      · exact Or.inl (Or.inr ((metadata.listed x).mpr inside))
  · rcases Finset.mem_insert.mp inside with rfl | inside
    · exact ⟨region, small⟩
    · exact metaRange id inside
  · by_cases same : j = i
    · subst same
      simp [System.at] at writing
    · exact owned.popped j metadata' kv' old' id' (by simpa [System.at, same] using writing)

theorem Owned.puts (layout : h.LogLayout) (owned : Owned h sys) {metadata : Bool}
    {kv : PmbPair} {old : Option Nat} {blkId : Nat} (writing : sys.phase i = .writing metadata kv old blkId)
    (fits : EntryFits h sys.store (i + 1) sizeofTxEntry) :
    Owned h (sys.at i (putStep h sys.store i metadata kv old blkId) .idle) := by
  obtain ⟨known, positive, small, region⟩ := owned.popped i metadata kv old blkId writing
  have taken : sys.taken i = some blkId := by
    unfold System.taken
    rw [writing]
    rfl
  have logged : Owned h (sys.at i (PmBackend.logNewBlock h sys.store (i + 1) kv.blkId blkId).1 .idle) :=
    owned.logNewBlock layout known kv.blkId (by omega) fits taken rfl
  unfold putStep
  split
  · exact owned.phase i rfl
  · next obj direct =>
    obtain ⟨fill, fills, append⟩ := logNewBlock_append h sys.store (i + 1) kv.blkId blkId
    simp only
    split
    · next refused =>
      have same : (PmBackend.logNewBlock h sys.store (i + 1) kv.blkId blkId).1 = sys.store := by
        rw [append, txSlotAppend_eq layout sys.store known] at refused ⊢
        split at refused
        · exact absurd rfl refused
        · next other => rw [if_neg other]
      rw [same]
      split
      · next is_meta => exact owned.giveBack known taken positive small (region is_meta)
      · exact owned.phase i rfl
    · cases metadata with
      | false => exact logged.only_blocks layout (tputBlock_blocksOnly layout _ direct old kv).changed rfl rfl
      | true => exact logged.only_blocks layout (tputMetaBlock_blocksOnly layout _ direct old kv).changed rfl rfl

end Lists

-- the conditions: entries end in their slot, a commit names no old block that is free or held by another slot, and no
-- block is pushed before its slot is cleared
def MicroSafe (h : Handle) (sys : System) : Action → Prop
  | .put i => EntryFits h sys.store (i + 1) sizeofTxEntry
  | .smallUpdate i kv =>
    kv.valLen < 2 ^ 32 ∧ kv.offset < 2 ^ 32 ∧
      EntryFits h sys.store (i + 1) (sizeofTxEntry + kv.valBytes.length)
  | .tdel i _ => EntryFits h sys.store (i + 1) sizeofTxEntry
  | .commit i =>
    ∀ entry ∈ slotEntries sys.store.pool.mem (h.slotAddr i), Zeroes entry → ¬Free sys.store entry.blkId1 ∧
      ∀ j < h.txSlotsCount, j ≠ i → ¬Held (h.view sys.store) sys.taken j entry.blkId1
  | .push _ => False
  | _ => True

section Steps

variable {h : Handle} {sys sys' : System} {s s' : Store} {i : Nat}

theorem record_payload {m : Mem} {pos : Nat} {entry : TxEntry} (same : readEntry m pos = entry) :
    ∃ payload, recordAt m pos = ⟨entry, payload⟩ := ⟨_, by rw [recordAt, same]⟩

theorem smallUpdate_span (blkId len offset : Nat) (small : offset < 2 ^ 32) :
    TxEntry.span ⟨TxOp.updinplace.code, blkId, len * 2 ^ 32 + offset⟩ = sizeofTxEntry + len := by
  have type : (⟨TxOp.updinplace.code, blkId, len * 2 ^ 32 + offset⟩ : TxEntry).type = TxOp.updinplace.code := rfl
  rw [TxEntry.span, if_pos type, TxEntry.size]
  simp only
  omega

theorem Owned.smallUpdate (layout : h.LogLayout) (owned : Owned h sys) (known : i < h.txSlotsCount)
    (idle : (sys.phase i).taken = none) {kv : PmbPair} (safe : MicroSafe h sys (.smallUpdate i kv)) :
    Owned h { sys with
      store := (txSlotOpSmallUpdate h sys.store (i + 1) kv.blkId kv.valBytes kv.offset).1 } := by
  obtain ⟨short, small, fits⟩ := safe
  have length := valBytes_length kv
  rw [← System.at_same sys i]
  refine owned.append layout known (fillsEntry_smallUpdate h kv.blkId kv.valBytes kv.offset) fits _
    (record_payload (readEntry_smallUpdate h _ _ _ _ _ (by omega) small)) (smallUpdate_span _ _ _ small)
    (fun id writes => ?_) idle
  rcases writes with ⟨impossible, -⟩ | ⟨impossible, -⟩ <;> cases impossible

theorem Owned.tdel (layout : h.LogLayout) (owned : Owned h sys) (idle : (sys.phase i).taken = none)
    {blkId : Nat} (fits : EntryFits h sys.store (i + 1) sizeofTxEntry) :
    Owned h { sys with store := (pmbTdel h sys.store (i + 1) blkId).1 } := by
  unfold pmbTdel
  split
  · exact owned
  · next valid =>
    rw [← System.at_same sys i]
    refine owned.append layout (by omega) (fillsEntry_remove blkId) fits _
      (record_payload (readEntry_id1 _ _ .remove _)) rfl (fun id writes => ?_) idle
    rcases writes with ⟨impossible, -⟩ | ⟨impossible, -⟩ <;> cases impossible

theorem statusChecksum_status (h : Handle) (p : Pool) (slot txId : Nat) (status : TxStatus) :
    slotStatus (txSlotChecksum h (p.setStatus slot status) slot txId).mem slot = status.code := by
  simp only [slotStatus, txSlotChecksum_mem, Pool.store_mem]
  rw [word_write_disjoint _ _ _ _ _ (by simp), word_write_same]
  cases status <;> decide

theorem Owned.commit (layout : h.LogLayout) (owned : Owned h sys) (idle : (sys.phase i).taken = none)
    (safe : MicroSafe h sys (.commit i)) : Owned h { sys with store := (pmbTxCommit h sys.store (i + 1)).1 } := by
  unfold pmbTxCommit
  split
  · exact owned
  · next valid =>
    have known : i < h.txSlotsCount := by omega
    rw [← System.at_same sys i]
    by_cases processing : h.status sys.store i = TxStatus.processing.code
    · have used : h.status sys.store i ≠ TxStatus.empty.code := by
        rw [processing]
        decide
      obtain ⟨-, only, -⟩ := txSlotCommit_spec layout sys.store known processing
      rw [txSlotCommit_eq layout sys.store known, if_pos processing] at only ⊢
      exact owned.restatus layout known used only (statusChecksum_header h _ _ _ _) rfl rfl idle fun _ => safe
    · rw [txSlotCommit_eq layout sys.store known, if_neg processing]
      exact owned.phase i idle

theorem Owned.begins (layout : h.LogLayout) (owned : Owned h sys)
    (idle : (sys.phase ((pmbTxBegin h sys.store).2.2 - 1)).taken = none) :
    Owned h { sys with store := (pmbTxBegin h sys.store).1 } := by
  have popped : Owned h { sys with
      store := { sys.store with txSlotsList := (caslistPop sys.store.txSlotsList 0).list } } :=
    owned.only_blocks layout (ChangedIn.refl _ _) rfl rfl
  unfold pmbTxBegin at idle ⊢
  simp only at idle ⊢
  split
  · exact popped
  · next slot =>
    rw [if_neg slot] at idle
    by_cases valid : (caslistPop sys.store.txSlotsList 0).val = 0 ∨
        (caslistPop sys.store.txSlotsList 0).val > h.txSlotsCount
    · rw [txSlotInit, if_pos valid]
      exact popped
    · obtain ⟨j, val⟩ : ∃ j, (caslistPop sys.store.txSlotsList 0).val = j + 1 :=
        ⟨(caslistPop sys.store.txSlotsList 0).val - 1, by omega⟩
      rw [val] at valid idle ⊢
      have known : j < h.txSlotsCount := by omega
      rw [Nat.add_sub_cancel] at idle
      obtain ⟨only, status, size⟩ := txSlotInit_spec layout
        { sys.store with txSlotsList := (caslistPop sys.store.txSlotsList 0).list } known
      have started := txSlotInit_eq layout
        { sys.store with txSlotsList := (caslistPop sys.store.txSlotsList 0).list } known
      have room := layout.slot_room
      generalize txSlotInit h { sys.store with txSlotsList := (caslistPop sys.store.txSlotsList 0).list }
        (j + 1) = init at *
      have logged : Logged h init.1 j [] := ⟨size.trans_le room, slotRecords_nil size⟩
      have used : h.status init.1 j ≠ TxStatus.empty.code := by
        rw [status]
        decide
      have view := view_some known used
      rw [logged.entries layout known] at view
      have next := popped.slot layout only.slotChanged (by rw [started]) (by rw [started]) idle
        (fun _ => ⟨[], logged⟩)
        (fun id new => by
          obtain ⟨v, viewed, entry, member, -⟩ := new
          rw [view] at viewed
          cases viewed
          cases member)
        fun id old => by
          obtain ⟨v, viewed, -, entry, member, -⟩ := old
          rw [view] at viewed
          cases viewed
          cases member
      exact (System.at_same _ j init.1) ▸ next

theorem Owned.frees (layout : h.LogLayout) (owned : Owned h sys) (i : Nat) :
    Owned h (sys.at i (txLogFreeSlot sys.store (i + 1)) .idle) := by
  have same_blocks : Owned h { sys with store := txLogFreeSlot sys.store (i + 1) } :=
    owned.only_blocks layout (ChangedIn.refl _ _) rfl rfl
  exact same_blocks.phase i rfl

theorem Owned.starts (layout : h.LogLayout) (owned : Owned h sys) (known : i < h.txSlotsCount) (abort : Bool) :
    Owned h (sys.at i (startStep h sys.store i (h.slotAddr i) abort).1
      (startStep h sys.store i (h.slotAddr i) abort).2) := by
  have freed := owned.frees layout i
  unfold startStep
  simp only
  split
  · split
    · exact freed
    · next status =>
      have used : h.status sys.store i ≠ TxStatus.empty.code := by
        rintro (empty : slotStatus sys.store.pool.mem (h.slotAddr i) = TxStatus.empty.code)
        rw [empty] at status
        exact status ⟨by decide, by decide⟩
      refine owned.restatus layout known used (slotAborted_changed layout sys.store i i)
        (slotAborted_header h sys.store _ i) rfl rfl rfl fun commited => ?_
      have aborted : h.status (slotAborted h sys.store (h.slotAddr i) i) i = TxStatus.aborted.code :=
        statusChecksum_status h _ _ _ _
      rw [aborted] at commited
      cases commited
  · split
    · exact freed
    · exact owned.phase i rfl

theorem txUpdateBlock_lists {txId blkId offset : Nat} {payload : List UInt8}
    (done : txUpdateBlock h s txId blkId payload offset = some s') :
    s'.freeList = s.freeList ∧ s'.metaFreeList = s.metaFreeList := by
  unfold txUpdateBlock at done
  split at done
  · split at done
    · rw [txSlotMetaUpdAdd_frame done]
      exact ⟨rfl, rfl⟩
    · cases done
  · rw [txSlotMetaUpdAdd_frame done]
    exact ⟨rfl, rfl⟩

theorem entryStep_frame (layout : h.LogLayout) {phase phase' : Phase}
    (done : entryStep h s i phase = some (s', phase')) :
    ChangedIn h.blockArea s.pool.mem s'.pool.mem ∧ s'.freeList = s.freeList ∧
      s'.metaFreeList = s.metaFreeList ∧ phase'.taken = none := by
  -- an entry is met: blocks change, and the free lists do not before the push
  unfold entryStep at done
  split at done
  · next pos stop =>
    split at done
    · simp only at done
      split at done
      · split at done
        · cases done
          exact ⟨ChangedIn.refl _ _, rfl, rfl, rfl⟩
        · next obj found =>
          cases done
          have zeroed := (setZero_blocksOnly layout s (readEntry s.pool.mem pos).blkId1).changed
          rw [(backendGet_ok.mp found).2.1] at zeroed
          exact ⟨zeroed, rfl, rfl, rfl⟩
      · next other =>
        obtain ⟨next, executed, same⟩ := Option.map_eq_some_iff.mp done
        cases same
        have lists : s'.freeList = s.freeList ∧ s'.metaFreeList = s.metaFreeList := by
          unfold executeEntry at executed
          rw [if_neg other] at executed
          split at executed
          · exact txUpdateBlock_lists executed
          · cases executed
            exact ⟨rfl, rfl⟩
        exact ⟨(executeEntry_blocksOnly layout executed).changed, lists.1, lists.2, rfl⟩
    · cases done
  · next pos stop =>
    split at done
    · simp only at done
      split at done
      · cases done
        exact ⟨(setZero_blocksOnly layout s _).changed, rfl, rfl, rfl⟩
      · split at done
        · cases done
          exact ⟨(setZero_blocksOnly layout s _).changed, rfl, rfl, rfl⟩
        · cases done
          exact ⟨ChangedIn.refl _ _, rfl, rfl, rfl⟩
    · cases done
  · cases done

theorem Owned.clears (layout : h.LogLayout) (owned : Owned h sys) {phase phase' : Phase}
    (done : clearStep h sys.store i (h.slotAddr i) phase = some (s', phase')) : Owned h (sys.at i s' phase') := by
  unfold clearStep at done
  split at done
  · split at done
    · cases done
    · obtain ⟨written, processed, same⟩ := Option.map_eq_some_iff.mp done
      cases same
      have blocks := txSlotMetaUpdProcess_blocksOnly layout processed
      have lists : written.freeList = sys.store.freeList ∧ written.metaFreeList = sys.store.metaFreeList := by
        obtain ⟨pool, -, rfl⟩ := Option.map_eq_some_iff.mp processed
        exact ⟨rfl, rfl⟩
      exact owned.emptied layout ((blocks.slotChanged i).trans (setZeroSlot_changed layout written i).slotChanged)
        lists.1 lists.2 rfl (setZeroSlot_status written i)
  · split at done
    · cases done
    · cases done
      exact owned.emptied layout (slotReset_changed layout sys.store i i).slotChanged rfl rfl rfl
        (slotReset_status sys.store i i)
  · cases done

theorem Owned.step (layout : h.LogLayout) (owned : Owned h sys) {action : Action} (safe : MicroSafe h sys action)
    (done : microStep h sys action = some sys') : Owned h sys' := by
  cases action with
  | begin =>
    simp only [microStep] at done
    split at done
    · next idle =>
      cases done
      exact owned.begins layout (by rw [idle]; rfl)
    · cases done
  | take i metadata kv =>
    simp only [microStep] at done
    split at done
    · next idle =>
      split at done
      · next known =>
        obtain ⟨⟨store, phase⟩, taken, rfl⟩ := Option.map_eq_some_iff.mp done
        exact owned.takes known idle taken
      · cases done
    · cases done
  | put i =>
    simp only [microStep] at done
    split at done
    · next metadata kv old blkId writing =>
      cases done
      exact owned.puts layout writing safe
    · cases done
  | smallUpdate i kv =>
    simp only [microStep] at done
    split at done
    · next idle =>
      split at done
      · next known =>
        cases done
        exact owned.smallUpdate layout known (by rw [idle]; rfl) safe
      · cases done
    · cases done
  | tdel i blkId =>
    simp only [microStep] at done
    split at done
    · next idle =>
      cases done
      exact owned.tdel layout (by rw [idle]; rfl) safe
    · cases done
  | commit i =>
    simp only [microStep] at done
    split at done
    · next idle =>
      cases done
      exact owned.commit layout (by rw [idle]; rfl) safe
    · cases done
  | execute i =>
    simp only [microStep] at done
    split at done
    · next slot idle direct =>
      obtain ⟨known, rfl⟩ := layout.slot_some direct
      cases done
      exact owned.starts layout known false
    · cases done
  | abort i =>
    simp only [microStep] at done
    split at done
    · next slot idle direct =>
      obtain ⟨known, rfl⟩ := layout.slot_some direct
      cases done
      exact owned.starts layout known true
    · cases done
  | entry i =>
    obtain ⟨⟨store, phase⟩, met, rfl⟩ := Option.map_eq_some_iff.mp done
    obtain ⟨changed, free, metaFree, idle⟩ := entryStep_frame layout met
    exact (owned.only_blocks layout changed free metaFree).phase i idle
  | push i => exact safe.elim
  | clear i =>
    simp only [microStep] at done
    split at done
    · next slot direct =>
      obtain ⟨⟨store, phase⟩, cleared, rfl⟩ := Option.map_eq_some_iff.mp done
      obtain ⟨known, rfl⟩ := layout.slot_some direct
      exact owned.clears layout cleared
    · cases done
  | free i =>
    simp only [microStep] at done
    split at done
    · cases done
      exact owned.frees layout i
    · cases done

theorem Owned.push_reuses (owned : Owned h sys) (known : i < h.txSlotsCount) {blkId pos stop : Nat}
    (pushing : sys.phase i = .executePush blkId pos stop) (named : OldBlockOf (h.view sys.store) i blkId)
    (positive : blkId ≠ 0) (small : blkId < 2 ^ 64) (done : microStep h sys (.push i) = some sys') :
    ¬NoReuse h sys' := by
  -- a push by `tx_slot_execute` frees a block that the slot still names
  obtain ⟨⟨ids, data, -⟩, ⟨metaIds, metadata, -⟩⟩ := owned.lists
  simp only [microStep, pushStep, pushing, Option.map_some, Option.some.injEq] at done
  have store : sys'.store = sys.store.release h blkId := by rw [← done, System.at]
  have view : h.view sys'.store = h.view sys.store := by
    refine view_pool ?_
    rw [store]
    unfold Store.release
    split <;> rfl
  intro no_reuse
  refine (no_reuse i known blkId (Or.inl (by rwa [view]))).1 ?_
  rw [store]
  unfold Store.release
  split
  · exact Or.inl (((data.push_pos positive small).listed _).mpr (Finset.mem_insert_self _ _))
  · exact Or.inr (((metadata.push_pos positive small).listed _).mpr (Finset.mem_insert_self _ _))

end Steps

-- before the first call: no slot is in use
structure Fresh (h : Handle) (sys : System) : Prop where
  empty : ∀ i < h.txSlotsCount, h.status sys.store i = TxStatus.empty.code
  idle : ∀ i, sys.phase i = .idle
  lists : FreeLists h sys.store

def MicroStep (h : Handle) (sys sys' : System) : Prop :=
  ∃ action, MicroSafe h sys action ∧ microStep h sys action = some sys'

theorem Fresh.owned {h : Handle} {sys : System} (fresh : Fresh h sys) : Owned h sys := by
  have none_taken : ∀ i id, sys.taken i ≠ some id := by
    intro i id taken
    rw [System.taken, fresh.idle i] at taken
    cases taken
  have none_new : ∀ i < h.txSlotsCount, ∀ id, ¬NewBlock (h.view sys.store) i id := by
    rintro i known id ⟨v, viewed, -⟩
    rw [view_empty (fresh.empty i known)] at viewed
    cases viewed
  have none_old : ∀ i < h.txSlotsCount, ∀ id, ¬OldBlockOf (h.view sys.store) i id := by
    rintro i known id ⟨v, viewed, -⟩
    rw [view_empty (fresh.empty i known)] at viewed
    cases viewed
  have none_held : ∀ i < h.txSlotsCount, ∀ id, ¬Held (h.view sys.store) sys.taken i id :=
    fun i known id held => held.elim (none_taken i id) (none_new i known id)
  refine ⟨⟨?_, ?_, ?_, ?_, ?_⟩, fresh.lists, fun i known used => absurd (fresh.empty i known) used, ?_⟩
  · exact fun i known id held => absurd held (none_held i known id)
  · exact fun i known _ _ _ id held => absurd held (none_held i known id)
  · exact fun i known id old => absurd old (none_old i known id)
  · exact fun i known _ _ _ id old => absurd old (none_old i known id)
  · exact fun i _ id taken => absurd taken (none_taken i id)
  · intro i metadata kv old id writing
    rw [fresh.idle i] at writing
    cases writing

-- in a run that meets the conditions no block is used again while replay of a slot would zero it
theorem no_reuse_run {h : Handle} (layout : h.LogLayout) {sys sys' : System} (fresh : Fresh h sys)
    (run : Relation.ReflTransGen (MicroStep h) sys sys') : NoReuse h sys' := by
  suffices owned : Owned h sys' from fun i known _ named => owned.blocks.named known named
  induction run with
  | refl => exact fresh.owned
  | tail _ step ih =>
    obtain ⟨action, safe, done⟩ := step
    exact ih.step layout safe done

def twoSlotSystem : System := ⟨twoSlotStore, fun _ => .idle⟩

theorem twoSlotSystem_fresh : Fresh twoSlotHandle twoSlotSystem := by
  refine ⟨fun i known => word_of_zeros _ _ _ fun _ _ _ => rfl, fun _ => rfl, ⟨⟨_, flatStore_free, fun id member => ?_⟩,
    ⟨∅, flatStore_metaFree, fun id member => by cases member⟩⟩⟩
  have count : twoSlotHandle.totalObjsCount = 3 := rfl
  have range := Finset.mem_Icc.mp member
  omega

def System.after (h : Handle) (sys : System) (action : Action) : System := (microStep h sys action).getD sys

theorem MicroStep.after {h : Handle} {sys : System} (action : Action) (ran : (microStep h sys action).isSome)
    (safe : MicroSafe h sys action) : MicroStep h sys (sys.after h action) := by
  obtain ⟨sys', done⟩ := Option.isSome_iff_exists.mp ran
  refine ⟨action, safe, ?_⟩
  rw [System.after, done]
  rfl

-- an object is put and executed in the first slot, which begins again; the second slot puts another one
def putSystem : System :=
  ((twoSlotSystem.after twoSlotHandle .begin).after twoSlotHandle (.take 0 false (onePair 0))).after twoSlotHandle (.put 0)

def executedSystem : System :=
  ((((putSystem.after twoSlotHandle (.commit 0)).after twoSlotHandle (.execute 0)).after twoSlotHandle (.entry 0)).after
    twoSlotHandle (.clear 0)).after twoSlotHandle (.free 0)

def bothSystem : System :=
  ((((executedSystem.after twoSlotHandle .begin).after twoSlotHandle .begin).after twoSlotHandle
    (.take 1 false (onePair 0))).after twoSlotHandle (.put 1)).after twoSlotHandle (.tdel 0 1)

def deletedSystem : System := bothSystem.after twoSlotHandle (.commit 0)

theorem deletedSystem_run : Relation.ReflTransGen (MicroStep twoSlotHandle) twoSlotSystem deletedSystem := by
  have puts : Relation.ReflTransGen (MicroStep twoSlotHandle) twoSlotSystem putSystem :=
    ((Relation.ReflTransGen.single (.after .begin (by decide +kernel) trivial)).tail
      (.after (.take 0 false (onePair 0)) (by decide +kernel) trivial)).tail
      (.after (.put 0) (by decide +kernel) fun _ => by decide +kernel)
  have commits : MicroStep twoSlotHandle putSystem (putSystem.after twoSlotHandle (.commit 0)) := by
    have log : slotEntries putSystem.store.pool.mem (twoSlotHandle.slotAddr 0) = [⟨0, 1, 0⟩] := by decide +kernel
    refine .after (.commit 0) (by decide +kernel) fun entry member zeroes => ?_
    rw [log] at member
    rw [List.mem_singleton.mp member] at zeroes
    exact zeroes.elim (fun same => by cases same) fun same => by cases same
  have executes : Relation.ReflTransGen (MicroStep twoSlotHandle) putSystem executedSystem :=
    ((((Relation.ReflTransGen.single commits).tail (.after (.execute 0) (by decide +kernel) trivial)).tail
      (.after (.entry 0) (by decide +kernel) trivial)).tail (.after (.clear 0) (by decide +kernel) trivial)).tail
      (.after (.free 0) (by decide +kernel) trivial)
  have both : Relation.ReflTransGen (MicroStep twoSlotHandle) executedSystem bothSystem :=
    ((((Relation.ReflTransGen.single (.after .begin (by decide +kernel) trivial)).tail
      (.after .begin (by decide +kernel) trivial)).tail (.after (.take 1 false (onePair 0)) (by decide +kernel) trivial)).tail
      (.after (.put 1) (by decide +kernel) fun _ => by decide +kernel)).tail
      (.after (.tdel 0 1) (by decide +kernel) fun _ => by decide +kernel)
  have deletes : MicroStep twoSlotHandle bothSystem deletedSystem := by
    have log : slotEntries bothSystem.store.pool.mem (twoSlotHandle.slotAddr 0) = [⟨3, 1, 0⟩] := by decide +kernel
    have other : twoSlotHandle.view bothSystem.store 1 = some ⟨1, [⟨0, 2, 0⟩]⟩ := by decide +kernel
    have lists : bothSystem.store.freeList = some ⟨0, 0, 0, []⟩ ∧ bothSystem.store.metaFreeList = some ⟨0, 0, 0, []⟩ := by
      decide +kernel
    refine .after (.commit 0) (by decide +kernel) fun entry member _ => ?_
    rw [log] at member
    rw [List.mem_singleton.mp member]
    refine ⟨fun free => ?_, fun j known different held => ?_⟩
    · rcases free with ⟨list, same, inside⟩ | ⟨list, same, inside⟩
      · rw [lists.1] at same
        cases same
        exact absurd inside (by decide)
      · rw [lists.2] at same
        cases same
        exact absurd inside (by decide)
    · have second : j = 1 := by
        have slots : twoSlotHandle.txSlotsCount = 2 := rfl
        omega
      subst second
      rcases held with taken | ⟨v, viewed, entry', listed, writes⟩
      · exact absurd (congrArg Option.isSome taken) (by decide +kernel)
      · rw [other] at viewed
        cases viewed
        rw [List.mem_singleton.mp listed] at writes
        exact writes.elim (fun same => by cases same.2) fun same => by cases same.1
  exact ((puts.trans executes).trans both).tail deletes

theorem no_reuse_run_sample :
    twoSlotHandle.view deletedSystem.store 0 = some ⟨TxStatus.commited.code, [⟨TxOp.remove.code, 1, 0⟩]⟩ ∧
      twoSlotHandle.view deletedSystem.store 1 = some ⟨TxStatus.processing.code, [⟨TxOp.write.code, 2, 0⟩]⟩ ∧
      NoReuse twoSlotHandle deletedSystem :=
  ⟨by decide +kernel, by decide +kernel, no_reuse_run twoSlotHandle_layout.toLogLayout twoSlotSystem_fresh deletedSystem_run⟩

def flatSystem : System := ⟨flatStore, fun _ => .idle⟩

theorem flatSystem_fresh : Fresh flatHandle flatSystem := by
  refine ⟨fun i known => word_of_zeros _ _ _ fun _ _ _ => rfl, fun _ => rfl, ⟨⟨_, flatStore_free, fun id member => ?_⟩,
    ⟨∅, flatStore_metaFree, fun id member => by cases member⟩⟩⟩
  have count : flatHandle.totalObjsCount = 3 := rfl
  have range := Finset.mem_Icc.mp member
  omega

-- a deleted block is free while the slot that deletes it is still COMMITED
theorem freed_before_clear :
    Fresh flatHandle flatSystem ∧ ∃ sys, microRun flatHandle flatSystem
      [.begin, .take 0 false (onePair 0), .put 0, .commit 0, .execute 0, .entry 0, .clear 0, .free 0,
        .begin, .tdel 0 1, .commit 0, .execute 0, .entry 0, .push 0] = some sys ∧ ¬NoReuse flatHandle sys := by
  have ran : (microRun flatHandle flatSystem
      [.begin, .take 0 false (onePair 0), .put 0, .commit 0, .execute 0, .entry 0, .clear 0, .free 0,
        .begin, .tdel 0 1, .commit 0, .execute 0, .entry 0, .push 0]).map
          (fun sys => (flatHandle.view sys.store 0, sys.store.freeList)) =
      some (some ⟨TxStatus.commited.code, [⟨TxOp.remove.code, 1, 0⟩]⟩, some ⟨2, 1, 2, []⟩) := by decide +kernel
  obtain ⟨sys, done, values⟩ := Option.map_eq_some_iff.mp ran
  simp only [Prod.mk.injEq] at values
  refine ⟨flatSystem_fresh, sys, done, fun no_reuse => ?_⟩
  refine (no_reuse 0 (by decide) 1 (Or.inl ?_)).1 (Or.inl ⟨_, values.2, by decide⟩)
  exact ⟨_, values.1, rfl, _, List.mem_singleton.mpr rfl, Or.inr rfl, rfl⟩

end PmBackend
