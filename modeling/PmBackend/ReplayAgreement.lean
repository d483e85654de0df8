import PmBackend.UpdateLists

set_option autoImplicit false

namespace PmBackend

open ByteMemory

-- the state of an in-place-updated block after replay is that after execution
def SameUpdate (h : Handle) (m m' : Mem) (blkId : Nat) : Prop :=
  ∀ obj, backendDirect h.backend blkId = some obj →
    valLen m obj = valLen m' obj ∧ version m obj = version m' obj ∧
      m.read (valueAddr h m blkId obj) (valLen m obj) = m'.read (valueAddr h m' blkId obj) (valLen m' obj) ∧
      flch64 m obj = checksumOf h m obj (objectSize h m blkId obj)

-- replay and execution end with the same blocks dead and the same in-place updates, and replay leaves no element in
-- an update list
def ReplayAgrees (h : Handle) (s : Store) (i : Nat) (records : List LogRecord) : Prop :=
  ∃ replayed executed, checkSlot h s i = some replayed ∧ txSlotExecute h s (i + 1) = some (executed, .ok) ∧
    (∀ id, h.Live replayed.pool.mem id ↔ h.Live executed.pool.mem id) ∧
    (∀ r ∈ records, InPlace r → SameUpdate h replayed.pool.mem executed.pool.mem r.entry.blkId1) ∧
    ∀ j < h.txSlotsCount, (replayed.updIdList j).count = 0

-- a committed slot that replay reaches and accepts, with the log its calls wrote
structure Committed (h : Handle) (s : Store) (i : Nat) (records : List LogRecord) : Prop where
  reached : 1 ≤ i
  known : i < h.txSlotsCount
  status : h.status s i = TxStatus.commited.code
  accepted : slotAccepted h s.pool.mem (h.slotAddr i) = true
  logged : Logged h s i records
  -- no call logs an entry for block 0
  blocks : ∀ r ∈ records, r.entry.blkId1 ≠ 0
  sane : ∀ r ∈ records, Zeroes r.entry → h.Sane s.pool.mem r.entry.blkId1
  -- replay zeroes a dead block, too, which execution leaves alone
  alone : ∀ r ∈ records, Zeroes r.entry → h.Alone r.entry.blkId1
  lists : ∀ j < h.txSlotsCount, ListHolds (s.updIdList j) []

theorem first_update {records : List LogRecord} {r : LogRecord} (member : r ∈ records) (in_place : InPlace r) :
    ∃ first r' rest, records = first ++ r' :: rest ∧ (∀ r ∈ first, ¬InPlace r) ∧ InPlace r' := by
  induction records with
  | nil => cases member
  | cons head tail ih =>
    by_cases here : InPlace head
    · exact ⟨[], head, tail, rfl, fun _ impossible => absurd impossible List.not_mem_nil, here⟩
    · have later : r ∈ tail := (List.mem_cons.mp member).resolve_left fun same => here (same ▸ in_place)
      obtain ⟨first, r', rest, split, plain, update⟩ := ih later
      refine ⟨head :: first, r', rest, by rw [split, List.cons_append], fun x inside => ?_, update⟩
      rcases List.mem_cons.mp inside with rfl | inside
      · exact here
      · exact plain x inside

section Walks

variable {h : Handle} {s s' : Store} {i : Nat}

theorem record_span {r : LogRecord} (plain : ¬InPlace r) : r.entry.span = sizeofTxEntry := if_neg plain

theorem LogAt.plain_le {m : Mem} {pos stop : Nat} {first rest : List LogRecord}
    (log : LogAt m pos (first ++ rest) stop) (plain : ∀ r ∈ first, ¬InPlace r) :
    pos + 24 * first.length ≤ stop ∧ LogAt m (pos + 24 * first.length) rest stop := by
  induction first generalizing pos with
  | nil => exact ⟨log.le, log⟩
  | cons r later ih =>
    obtain ⟨record, rest_log⟩ := log
    rw [record_span (plain r List.mem_cons_self)] at rest_log
    have bytes : sizeofTxEntry = 24 := rfl
    have next := ih rest_log fun r' member => plain r' (List.mem_cons_of_mem _ member)
    have position : pos + sizeofTxEntry + 24 * later.length = pos + 24 * (r :: later).length := by
      rw [List.length_cons]
      omega
    rwa [position] at next

theorem checkWalk_plain (layout : h.LogLayout) (known : i < h.txSlotsCount) (m : Mem) (stop : Nat)
    (bound : stop = u64 (h.slotAddr i + slotSize m (h.slotAddr i))) (commit : Bool)
    (first rest : List LogRecord) (more pos : Nat) (s : Store)
    (same : ∀ x < h.logEnd, s.pool.mem x = m x) (log : LogAt m pos (first ++ rest) stop)
    (below : stop ≤ h.logEnd) (plain : ∀ r ∈ first, ¬InPlace r) (blocks : ∀ r ∈ first, r.entry.blkId1 ≠ 0) :
    checkWalk h i (h.slotAddr i) commit (first.length + more) pos s =
      (first.foldlM (fun t r => checkEntry h t i (h.slotAddr i + sizeofTxSlot) commit r.entry) s).bind fun t =>
        checkWalk h i (h.slotAddr i) commit more (pos + 24 * first.length) t := by
  have bytes : sizeofTxEntry = 24 := rfl
  have slot_below := Handle.slot_below known
  have room := layout.slot_room
  induction first generalizing pos s with
  | nil => simp
  | cons r later ih =>
    obtain ⟨record, rest_log⟩ := log
    have entry : readEntry m pos = r.entry := by rw [← recordAt_entry, record]
    have span := record_span (plain r List.mem_cons_self)
    rw [span] at rest_log
    have room' := rest_log.le
    have met : readEntry s.pool.mem pos = r.entry := by
      rw [← entry]
      exact readEntry_congr fun x lower upper => same x (by omega)
    have again : pos < u64 (h.slotAddr i + slotSize s.pool.mem (h.slotAddr i)) := by
      rw [slotSize, word_congr m s.pool.mem _ _ fun x lower upper => same x (by omega), ← bound]
      omega
    have block := blocks r List.mem_cons_self
    have fuel : (r :: later).length + more = later.length + more + 1 := by
      rw [List.length_cons]
      omega
    have goes : ¬(r.entry.blkId1 = 0 ∧ r.entry.blkId2 = 0) := fun mark => block mark.1
    rw [fuel, List.foldlM_cons]
    simp only [checkWalk, again, if_true, met, goes, if_false]
    cases step : checkEntry h s i (h.slotAddr i + sizeofTxSlot) commit r.entry with
    | none => rfl
    | some next =>
      have frame := (checkEntry_blocksOnly layout step).changed
      have walk := ih (pos + sizeofTxEntry) next
        (fun x lower => by rw [frame x (by simpa [Handle.blockArea] using lower)]; exact same x lower)
        rest_log (fun r' member => plain r' (List.mem_cons_of_mem _ member))
        (fun r' member => blocks r' (List.mem_cons_of_mem _ member))
      have position : pos + sizeofTxEntry + 24 * later.length = pos + 24 * (r :: later).length := by
        rw [List.length_cons]
        omega
      rw [position] at walk
      exact walk

theorem checkEntry_count {entries : Nat} {commit : Bool} {entry : TxEntry}
    (checked : checkEntry h s i entries commit entry = some s') :
    (s.updIdList i).count ≤ (s'.updIdList i).count := by
  by_cases updates : commit = true ∧ entry.type = TxOp.updinplace.code
  · obtain ⟨rfl, type⟩ := updates
    simp only [checkEntry, type, TxOp.code, if_true] at checked
    obtain ⟨t, size, lists, added⟩ := txUpdateBlock_adds checked
    obtain ⟨element, count, lists', fresh, used⟩ := txSlotMetaUpdAdd_element added
    rw [lists', Function.update_self, ← lists]
    by_cases zero : ((t.updIdList i).list
        (metaFind (t.updIdList i).list entry.blkId1 (t.updIdList i).count 0)).id = 0
    · rw [(fresh zero).2]
      exact Nat.le_succ _
    · rw [(used zero).2]
  · rw [checkEntry_lists (fun commited type => updates ⟨commited, type⟩) checked]

theorem txUpdateBlock_first {blkId offset : Nat} {payload : List UInt8} (empty : ListHolds (s.updIdList i) [])
    (updated : txUpdateBlock h s i blkId payload offset = some s') : (s'.updIdList i).count = 1 := by
  -- an empty list on an end mark takes the first block
  obtain ⟨t, size, lists, added⟩ := txUpdateBlock_adds updated
  rw [← lists] at empty
  have count : (t.updIdList i).count = 0 := empty.length.symm
  obtain ⟨element, count', lists', fresh, -⟩ := txSlotMetaUpdAdd_element added
  have ends := empty.ends (by omega)
  rw [count] at fresh ends
  rw [lists', Function.update_self]
  exact (fresh ends).2

end Walks

section Agreement

variable {h : Handle} {s s' t u : Store} {i : Nat} {records : List LogRecord}

theorem Committed.stop_eq (layout : h.LogLayout) (committed : Committed h s i records) :
    u64 (h.slotAddr i + slotSize s.pool.mem (h.slotAddr i)) =
        h.slotAddr i + slotSize s.pool.mem (h.slotAddr i) ∧
      h.slotAddr i + slotSize s.pool.mem (h.slotAddr i) ≤ h.logEnd := by
  have below := Handle.slot_below committed.known
  have small := layout.end_lt
  have fits : slotSize s.pool.mem (h.slotAddr i) ≤ h.backend.txSlotSize := committed.logged.fits
  exact ⟨u64_of_lt (by omega), by omega⟩

theorem Committed.checkSlot_eq (layout : h.LogLayout) (committed : Committed h s i records)
    {first rest : List LogRecord} (split : records = first ++ rest) (plain : ∀ r ∈ first, ¬InPlace r) :
    ∃ more, checkSlot h s i =
      ((first.foldlM (fun t r => checkEntry h t i (h.slotAddr i + sizeofTxSlot) true r.entry) s).bind fun t =>
        checkWalk h i (h.slotAddr i) true (more + 1) (h.slotAddr i + sizeofTxSlot + 24 * first.length) t).map
          fun t => slotReset h t (h.slotAddr i) i := by
  obtain ⟨stop_eq, stop_le⟩ := committed.stop_eq layout
  have log := committed.logged.records
  unfold SlotRecords at log
  rw [split] at log
  have used : ¬slotStatus s.pool.mem (h.slotAddr i) = TxStatus.empty.code := by
    have status : slotStatus s.pool.mem (h.slotAddr i) = TxStatus.commited.code := committed.status
    rw [status]
    decide
  have small := layout.end_lt
  have count : 24 * first.length ≤ h.logEnd := by
    have walked := log.plain_le plain
    omega
  -- every entry takes 24 bytes, so the rounds of the model are enough
  obtain ⟨more, rounds⟩ : ∃ more, 2 ^ 64 = first.length + (more + 1) := ⟨2 ^ 64 - first.length - 1, by omega⟩
  refine ⟨more, ?_⟩
  rw [checkSlot_accepted, layout.slot_eq committed.known]
  simp only [used, if_false, committed.accepted]
  rw [rounds, checkWalk_plain layout committed.known s.pool.mem _ stop_eq.symm true first rest (more + 1) _ s
    (fun _ _ => rfl) log stop_le plain fun r member => committed.blocks r (by
      rw [split]
      exact List.mem_append_left _ member)]

theorem Committed.update_left (layout : h.LogLayout) (committed : Committed h s i records)
    {first rest : List LogRecord} {r : LogRecord} (split : records = first ++ r :: rest)
    (plain : ∀ r ∈ first, ¬InPlace r) (in_place : InPlace r) (checked : checkSlot h s i = some s') :
    1 ≤ (s'.updIdList i).count := by
  obtain ⟨stop_eq, stop_le⟩ := committed.stop_eq layout
  have below := Handle.slot_below committed.known
  have room := layout.slot_room
  have log := committed.logged.records
  unfold SlotRecords at log
  rw [split] at log
  obtain ⟨-, record, later⟩ := log.plain_le plain
  have after := later.le
  have span := span_ge r.entry
  obtain ⟨more, walk_eq⟩ := committed.checkSlot_eq layout split plain
  rw [walk_eq] at checked
  obtain ⟨walked, walk, rfl⟩ := Option.map_eq_some_iff.mp checked
  obtain ⟨t, folded, walk⟩ := Option.bind_eq_some_iff.mp walk
  obtain ⟨lists, same⟩ := foldlM_induct
    (fun t => t.updIdList = s.updIdList ∧ ∀ x < h.logEnd, t.pool.mem x = s.pool.mem x) _ first
    (fun r' member u u' before entry => ⟨(checkEntry_lists (fun _ => plain r' member) entry).trans before.1,
      fun x lower => by
        rw [(checkEntry_blocksOnly layout entry).changed x (by simpa [Handle.blockArea] using lower)]
        exact before.2 x lower⟩) s t ⟨rfl, fun _ _ => rfl⟩ folded
  -- the walk meets the update itself
  have size : slotSize t.pool.mem (h.slotAddr i) = slotSize s.pool.mem (h.slotAddr i) :=
    word_congr _ _ _ _ fun x lower upper => same x (by omega)
  have again : h.slotAddr i + sizeofTxSlot + 24 * first.length <
      u64 (h.slotAddr i + slotSize t.pool.mem (h.slotAddr i)) := by
    rw [size, stop_eq]
    omega
  have met : readEntry t.pool.mem (h.slotAddr i + sizeofTxSlot + 24 * first.length) = r.entry := by
    rw [← record, recordAt_entry]
    exact readEntry_congr fun x lower upper => same x (by omega)
  have block : r.entry.blkId1 ≠ 0 := committed.blocks r (by
    rw [split]
    exact List.mem_append_right _ List.mem_cons_self)
  have goes : ¬(r.entry.blkId1 = 0 ∧ r.entry.blkId2 = 0) := fun mark => block mark.1
  simp only [checkWalk, again, if_true, met, goes, if_false] at walk
  obtain ⟨updated, entry, rest_walk⟩ := Option.bind_eq_some_iff.mp walk
  have type : r.entry.type = TxOp.updinplace.code := in_place
  simp only [checkEntry, type, TxOp.code, if_true] at entry
  have first_update : (updated.updIdList i).count = 1 := by
    refine txUpdateBlock_first ?_ entry
    rw [lists]
    exact committed.lists i committed.known
  -- and no later entry takes the block out of the list
  exact checkWalk_induct (fun t => 1 ≤ (t.updIdList i).count) i (h.slotAddr i) true
    (fun u entries e u' before done => before.trans (checkEntry_count done)) _ _ updated walked
    (le_of_eq first_update.symm) rest_walk

-- replay at `t` and execution at `u`, both from `s`: a block is as it was, or dead in both
def AgreeFrom (h : Handle) (s t u : Store) : Prop :=
  ∀ id, (Untouched h id s.pool.mem t.pool.mem ∧ Untouched h id s.pool.mem u.pool.mem) ∨
    ((¬h.Live t.pool.mem id ∧ h.Sane t.pool.mem id) ∧ (¬h.Live u.pool.mem id ∧ h.Sane u.pool.mem id))

theorem AgreeFrom.sane (rooms : h.HeaderRooms) (agree : AgreeFrom h s t u) {id : Nat}
    (sane : h.Sane s.pool.mem id) : h.Sane t.pool.mem id ∧ h.Sane u.pool.mem id := by
  rcases agree id with ⟨before, before'⟩ | ⟨dead, dead'⟩
  · exact ⟨(before.live_iff (rooms.header_room id)).2.mpr sane, (before'.live_iff (rooms.header_room id)).2.mpr sane⟩
  · exact ⟨dead.2, dead'.2⟩

theorem AgreeFrom.live_iff (rooms : h.HeaderRooms) (agree : AgreeFrom h s t u) (id : Nat) :
    h.Live t.pool.mem id ↔ h.Live u.pool.mem id := by
  rcases agree id with ⟨before, before'⟩ | ⟨dead, dead'⟩
  · rw [(before.live_iff (rooms.header_room id)).1, (before'.live_iff (rooms.header_room id)).1]
  · exact ⟨fun live => absurd live dead.1, fun live => absurd live dead'.1⟩

theorem AgreeFrom.zero (rooms : h.HeaderRooms) (agree : AgreeFrom h s t u) {id obj : Nat}
    (direct : backendDirect h.backend id = some obj) (sane : h.Sane s.pool.mem id) (alone : h.Alone id) {u' : Store}
    (zeroed : u'.pool = (u.setZero (some obj)).pool ∨ (¬h.Live u.pool.mem id ∧ u'.pool = u.pool)) :
    AgreeFrom h s (t.setZero (some obj)) u' := by
  -- replay zeroes the block; execution zeroes it, or finds it dead
  obtain ⟨sane_t, sane_u⟩ := agree.sane rooms sane
  obtain ⟨changed, dead, sane'⟩ := setZero_spec t (rooms.header_room id) direct sane_t
  obtain ⟨changed_u, dead_u, sane_u'⟩ := setZero_spec u (rooms.header_room id) direct sane_u
  intro other
  by_cases same : other = id
  · subst same
    refine Or.inr ⟨⟨dead, sane'⟩, ?_⟩
    rcases zeroed with pool | ⟨was_dead, pool⟩
    · rw [pool]
      exact ⟨dead_u, sane_u'⟩
    · rw [pool]
      exact ⟨was_dead, sane_u⟩
  · have kept := ChangedIn.others_untouched rooms.toLogLayout alone (changed.mono Set.subset_union_left) same
    have kept_u : Untouched h other u.pool.mem u'.pool.mem := by
      rcases zeroed with pool | ⟨-, pool⟩
      · rw [pool]
        exact ChangedIn.others_untouched rooms.toLogLayout alone (changed_u.mono Set.subset_union_left) same
      · rw [pool]
        exact Untouched.refl other _
    rcases agree other with ⟨before, before'⟩ | ⟨dead, dead'⟩
    · exact Or.inl ⟨before.trans kept, before'.trans kept_u⟩
    · refine Or.inr ⟨⟨?_, (kept.live_iff (rooms.header_room other)).2.mpr dead.2⟩, ?_,
        (kept_u.live_iff (rooms.header_room other)).2.mpr dead'.2⟩
      · rw [(kept.live_iff (rooms.header_room other)).1]
        exact dead.1
      · rw [(kept_u.live_iff (rooms.header_room other)).1]
        exact dead'.1

theorem AgreeFrom.entry (rooms : h.HeaderRooms) (agree : AgreeFrom h s t u) {entry : TxEntry}
    (plain : entry.type ≠ TxOp.updinplace.code) (block : entry.blkId1 ≠ 0)
    (sane : Zeroes entry → h.Sane s.pool.mem entry.blkId1) (alone : Zeroes entry → h.Alone entry.blkId1)
    (entries pos : Nat) :
    ∃ t' u', checkEntry h t i entries true entry = some t' ∧ executeEntry h u i pos entry = some u' ∧
      AgreeFrom h s t' u' ∧ t'.updIdList = t.updIdList ∧ u'.updIdList = u.updIdList ∧
      u'.txSlotsList = u.txSlotsList := by
  by_cases zeroes : Zeroes entry
  · -- both interpreters look for the old block
    have checked : checkEntry h t i entries true entry = some (t.setZero (backendDirect h.backend entry.blkId1)) := by
      rcases zeroes with update | remove
      · simp [checkEntry, update, TxOp.code]
      · simp [checkEntry, remove, TxOp.code]
    unfold executeEntry
    rw [checked, if_pos (show _ ∨ _ from zeroes)]
    cases direct : backendDirect h.backend entry.blkId1 with
    | none =>
      have missing : backendGet h u.pool.mem entry.blkId1 = .error .invId := by
        simp only [backendGet, block, if_false, direct]
      rw [missing]
      exact ⟨t, u, rfl, rfl, agree, rfl, rfl, rfl⟩
    | some obj =>
      by_cases dead : flch64 u.pool.mem obj = 0
      · have missing : backendGet h u.pool.mem entry.blkId1 = .error .enoent := by
          simp only [backendGet, block, if_false, direct, dead, if_true]
        rw [missing]
        refine ⟨_, u, rfl, rfl, agree.zero rooms direct (sane zeroes) (alone zeroes) (Or.inr ⟨?_, rfl⟩), rfl, rfl, rfl⟩
        rintro ⟨obj', direct', live⟩
        rw [direct] at direct'
        cases direct'
        exact live dead
      · have found : backendGet h u.pool.mem entry.blkId1 = .ok obj := backendGet_ok.mpr ⟨block, direct, dead⟩
        rw [found]
        obtain ⟨pool, lists, slots⟩ := release_frame h (u.setZero (some obj)) entry.blkId1
        exact ⟨_, _, rfl, rfl, agree.zero rooms direct (sane zeroes) (alone zeroes) (Or.inl pool), rfl, lists, slots⟩
  · have kept : executeEntry h u i pos entry = some u := by
      have other : ¬(entry.type = TxOp.update.code ∨ entry.type = TxOp.remove.code) := zeroes
      simp only [executeEntry, other, if_false, plain]
    obtain ⟨not_update, not_remove⟩ := not_or.mp zeroes
    have kept' : checkEntry h t i entries true entry = some t := by
      simp only [checkEntry, not_update, not_remove, plain, if_false, if_true]
      split <;> rfl
    exact ⟨t, u, kept', kept, agree, rfl, rfl, rfl⟩

theorem AgreeFrom.log (rooms : h.HeaderRooms) (agree : AgreeFrom h s t u) (entries : Nat)
    (records : List LogRecord) (log : List (Nat × TxEntry)) (same : log.map Prod.snd = records.map LogRecord.entry)
    (plain : ∀ r ∈ records, ¬InPlace r) (blocks : ∀ r ∈ records, r.entry.blkId1 ≠ 0)
    (sane : ∀ r ∈ records, Zeroes r.entry → h.Sane s.pool.mem r.entry.blkId1)
    (alone : ∀ r ∈ records, Zeroes r.entry → h.Alone r.entry.blkId1) :
    ∃ t' u', records.foldlM (fun t r => checkEntry h t i entries true r.entry) t = some t' ∧
      log.foldlM (fun u r => executeEntry h u i r.1 r.2) u = some u' ∧ AgreeFrom h s t' u' ∧
      t'.updIdList = t.updIdList ∧ u'.updIdList = u.updIdList := by
  induction records generalizing log t u with
  | nil =>
    rw [List.map_nil, List.map_eq_nil_iff] at same
    subst same
    exact ⟨t, u, rfl, rfl, agree, rfl, rfl⟩
  | cons r later ih =>
    cases log with
    | nil => cases same
    | cons met rest =>
      obtain ⟨here, there⟩ := List.cons.inj same
      obtain ⟨t', u', checked, executed, agree', lists, lists', -⟩ := agree.entry rooms (i := i)
        (plain r List.mem_cons_self) (blocks r List.mem_cons_self) (sane r List.mem_cons_self)
        (alone r List.mem_cons_self) entries met.1
      obtain ⟨t'', u'', walked, walked', agree'', lists'', lists'''⟩ := ih agree' rest there
        (fun r' member => plain r' (List.mem_cons_of_mem _ member))
        (fun r' member => blocks r' (List.mem_cons_of_mem _ member))
        (fun r' member => sane r' (List.mem_cons_of_mem _ member))
        (fun r' member => alone r' (List.mem_cons_of_mem _ member))
      refine ⟨t'', u'', ?_, ?_, agree'', lists''.trans lists, lists'''.trans lists'⟩
      · simp only [List.foldlM_cons, checked]
        exact walked
      · simp only [List.foldlM_cons, here, executed]
        exact walked'

theorem Committed.plain_agrees (rooms : h.HeaderRooms) (committed : Committed h s i records)
    (plain : ∀ r ∈ records, ¬InPlace r) : ReplayAgrees h s i records := by
  have log_layout := rooms.toLogLayout
  have known := committed.known
  obtain ⟨stop_eq, stop_le⟩ := committed.stop_eq log_layout
  have small := rooms.end_lt
  obtain ⟨entries, inside⟩ := committed.logged.records.entries (by omega)
  obtain ⟨t, u, checked, executed, agree, lists, lists'⟩ := AgreeFrom.log (i := i) rooms
    (fun id => Or.inl ⟨Untouched.refl id _, Untouched.refl id _⟩ : AgreeFrom h s s s)
    (h.slotAddr i + sizeofTxSlot) records (slotLog s.pool.mem (h.slotAddr i)) entries plain committed.blocks
    committed.sane committed.alone
  have count : ∀ j < h.txSlotsCount, (s.updIdList j).count = 0 := fun j bound => (committed.lists j bound).length.symm
  have replayed : checkSlot h s i = some (slotReset h t (h.slotAddr i) i) := by
    have whole : records = records ++ [] := (List.append_nil records).symm
    obtain ⟨more, walk_eq⟩ := committed.checkSlot_eq log_layout whole plain
    have log := committed.logged.records
    unfold SlotRecords at log
    rw [← List.append_nil records] at log
    have stop : h.slotAddr i + sizeofTxSlot + 24 * records.length =
        h.slotAddr i + slotSize s.pool.mem (h.slotAddr i) := (log.plain_le plain).2
    -- the bound is read again at the end
    have frame : ∀ x < h.logEnd, t.pool.mem x = s.pool.mem x :=
      foldlM_induct (fun t => ∀ x < h.logEnd, t.pool.mem x = s.pool.mem x) _ records
        (fun r member w w' before entry x lower => by
          rw [(checkEntry_blocksOnly log_layout entry).changed x (by simpa [Handle.blockArea] using lower)]
          exact before x lower) s t (fun _ _ => rfl) checked
    have room := rooms.slot_room
    have below := Handle.slot_below known
    have size : slotSize t.pool.mem (h.slotAddr i) = slotSize s.pool.mem (h.slotAddr i) :=
      word_congr _ _ _ _ fun x lower upper => frame x (by omega)
    have done : ¬h.slotAddr i + sizeofTxSlot + 24 * records.length <
        u64 (h.slotAddr i + slotSize t.pool.mem (h.slotAddr i)) := by
      rw [size, stop_eq]
      omega
    rw [walk_eq, checked, Option.bind_some]
    simp only [checkWalk, done, if_false, Option.map_some]
  have executed_slot : txSlotExecute h s (i + 1) = some ({ u with
      updIdList := Function.update u.updIdList i ⟨0, fun k =>
        if k < (u.updIdList i).count then ⟨0, 0, 0⟩ else (u.updIdList i).list k⟩
      pool := backendTxSetZero h u.pool (h.slotAddr i) }, .ok) := by
    have status : slotStatus s.pool.mem (h.slotAddr i) = TxStatus.commited.code := committed.status
    have walk := executeLog_eq log_layout i (h.slotAddr i) s fun r member =>
      (inside r member).trans stop_le
    have empty : (u.updIdList i).count = 0 := by rw [lists']; exact count i known
    unfold txSlotExecute
    rw [log_layout.txDirect_eq (by omega) (by omega), log_layout.txIndex_eq (by omega) (by omega)]
    simp only [Nat.add_sub_cancel, status, ne_eq, not_true_eq_false, if_false, walk, executed, Option.bind_some,
      txSlotMetaUpdProcess, empty, metaProcess, Option.map_some]
  refine ⟨_, _, replayed, executed_slot, fun id => ?_, fun r member in_place => absurd in_place (plain r member),
    fun j bound => ?_⟩
  · have reset : Untouched h id t.pool.mem (slotReset h t (h.slotAddr i) i).pool.mem :=
      ChangedIn.blocks_untouched log_layout ((slotReset_changed log_layout t i i).mono (slotArea_log known)) id
    have cleared : Untouched h id u.pool.mem (backendTxSetZero h u.pool (h.slotAddr i)).mem :=
      ChangedIn.blocks_untouched log_layout ((setZeroSlot_changed log_layout u i).mono (slotArea_log known)) id
    have room := rooms.header_room id
    exact ((reset.live_iff room).1.trans (agree.live_iff rooms id)).trans (cleared.live_iff room).1.symm
  · change (t.updIdList j).count = 0
    rw [lists]
    exact count j bound

end Agreement

-- replay of a committed slot ends like its execution exactly when the log has no in-place update
theorem replay_agrees_iff {h : Handle} (rooms : h.HeaderRooms) {s : Store} {i : Nat} {records : List LogRecord}
    (committed : Committed h s i records) :
    ReplayAgrees h s i records ↔ ∀ r ∈ records, ¬InPlace r := by
  refine ⟨fun agrees r member in_place => ?_, committed.plain_agrees rooms⟩
  obtain ⟨replayed, executed, checked, -, -, -, empty⟩ := agrees
  obtain ⟨first, r', rest, split, plain, update⟩ : ∃ first r' rest, records = first ++ r' :: rest ∧
      (∀ r ∈ first, ¬InPlace r) ∧ InPlace r' := first_update member in_place
  have left := committed.update_left rooms.toLogLayout split plain update checked
  have none_left := empty i committed.known
  omega

-- both slots are taken; the second transaction has logged one call and is committed
def secondCommitted (call : Store → Store) : Store :=
  (pmbTxCommit twoSlotHandle (call (pmbTxBegin twoSlotHandle (pmbTxBegin twoSlotHandle
    { flatStore with txSlotsList := some ⟨2, 1, 2, []⟩ }).1).1) 2).1

def deletedStore : Store := secondCommitted fun s => (pmbTdel twoSlotHandle s 2 1).1

def updatedStore : Store := secondCommitted fun s => (pmbTput twoSlotHandle s 2 (onePair 1)).1

theorem deletedStore_committed : Committed twoSlotHandle deletedStore 1 [⟨⟨TxOp.remove.code, 1, 0⟩, []⟩] where
  reached := le_refl 1
  known := by decide
  status := by decide +kernel
  accepted := by decide +kernel
  logged := by
    have last : twoSlotHandle.slotAddr 1 + 24 + 24 =
        twoSlotHandle.slotAddr 1 + slotSize deletedStore.pool.mem (twoSlotHandle.slotAddr 1) := by decide +kernel
    exact ⟨by decide +kernel, by decide +kernel, last⟩
  blocks := by simp
  sane := by
    intro r member _ obj direct
    rw [List.mem_singleton.mp member] at direct
    have at_one : backendDirect twoSlotHandle.backend 1 = some blockOne := by decide +kernel
    cases at_one.symm.trans direct
    rw [List.mem_singleton.mp member]
    decide +kernel
  alone := fun r _ _ j other => twoSlotHandle_layout.blocks_apart j r.entry.blkId1 other
  lists := by
    have empty : ∀ j < 2, (deletedStore.updIdList j).count = 0 ∧ ((deletedStore.updIdList j).list 0).id = 0 := by
      decide +kernel
    exact fun j known => listHolds_nil (empty j known).1 (empty j known).2

theorem replay_agrees_iff_sample :
    ReplayAgrees twoSlotHandle deletedStore 1 [⟨⟨TxOp.remove.code, 1, 0⟩, []⟩] :=
  (replay_agrees_iff twoSlotHandle_layout.headerRooms deletedStore_committed).mpr (by simp [InPlace, TxOp.code])

theorem updatedStore_committed :
    Committed twoSlotHandle updatedStore 1 [⟨⟨TxOp.updinplace.code, 1, 2 ^ 32⟩, [118]⟩] where
  reached := le_refl 1
  known := by decide
  status := by decide +kernel
  accepted := by decide +kernel
  logged := by
    have last : twoSlotHandle.slotAddr 1 + 24 + 25 =
        twoSlotHandle.slotAddr 1 + slotSize updatedStore.pool.mem (twoSlotHandle.slotAddr 1) := by decide +kernel
    exact ⟨by decide +kernel, by decide +kernel, last⟩
  blocks := by simp
  sane := by
    intro r member zeroes
    rw [List.mem_singleton.mp member] at zeroes
    exact absurd rfl (zeroes_not_updinplace zeroes)
  alone := fun r _ _ j other => twoSlotHandle_layout.blocks_apart j r.entry.blkId1 other
  lists := by
    have empty : ∀ j < 2, (updatedStore.updIdList j).count = 0 ∧ ((updatedStore.updIdList j).list 0).id = 0 := by
      decide +kernel
    exact fun j known => listHolds_nil (empty j known).1 (empty j known).2

-- replay copies the byte and leaves the block in the update list of the slot
theorem replay_leaves_update :
    Committed twoSlotHandle updatedStore 1 [⟨⟨TxOp.updinplace.code, 1, 2 ^ 32⟩, [118]⟩] ∧
      ¬ReplayAgrees twoSlotHandle updatedStore 1 [⟨⟨TxOp.updinplace.code, 1, 2 ^ 32⟩, [118]⟩] := by
  refine ⟨updatedStore_committed, ?_⟩
  rintro ⟨replayed, executed, checked, -, -, -, empty⟩
  have only : [(⟨⟨TxOp.updinplace.code, 1, 2 ^ 32⟩, [118]⟩ : LogRecord)] = [] ++ ⟨⟨2, 1, 2 ^ 32⟩, [118]⟩ :: [] := rfl
  have left := updatedStore_committed.update_left twoSlotHandle_layout.toLogLayout only (by simp) rfl checked
  have none_left := empty 1 (by decide)
  omega

end PmBackend
