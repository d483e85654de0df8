import PmBackend.CrashPoints
import PmBackend.CrashRecovery

set_option autoImplicit false

namespace PmBackend

open ByteMemory DeferredLog

-- the headers of the slots and of the blocks
def Handle.headers (h : Handle) : Set Nat :=
  {x | (∃ i < h.txSlotsCount, x ∈ span (h.slotAddr i) sizeofTxSlot) ∨
    ∃ id obj, backendDirect h.backend id = some obj ∧ x ∈ span obj sizeofDataHdr}

-- what `tx_slot_init` stores before the size
def Handle.markSlot (h : Handle) (p : Pool) (i : Nat) : Pool :=
  (p.setFlch64 (h.slotAddr i) 0).setStatus (h.slotAddr i) .processing

-- the memory when the process is killed on the way from `p` to `q`: between two stores or within one, but not within
-- the part of a store that belongs to a header
def Handle.StopsDuring (h : Handle) (p q : Pool) (m : Mem) : Prop :=
  ∃ later, q.events = later ++ p.events ∧ m ∈ stopsDuring h.headers p.mem later

-- a memory on the way from one ledger to the next that recovers as the one or as the other
def Torn (h : Handle) (t t' : Ledger) (m : Mem) : Prop :=
  CrashImage h (t.store.crashed m) t.map ∨ CrashImage h (t.store.crashed m) t'.map

section Images

variable {h : Handle} {p q : Pool} {m : Mem} {P : Mem → Prop} {t : Ledger} {i j : Nat}

theorem Keeps.stopped (keeps : Keeps h.headers P p q) (stops : h.StopsDuring p q m) : P m := by
  obtain ⟨later, events, -, held⟩ := keeps
  obtain ⟨later', events', member⟩ := stops
  have same : later' = later := List.append_cancel_right (events'.symm.trans events)
  exact held m (by rwa [← same])

theorem CrashImage.congr {s s' : Store} {map : TxMap Nat PartialBytes} (image : CrashImage h s map)
    (bytes : s'.pool.mem = s.pool.mem) : CrashImage h s' map := by
  have words : ∀ i, h.status s' i = h.status s i ∧ h.size s' i = h.size s i := fun i => by
    rw [Handle.status, Handle.size, bytes]
    exact ⟨rfl, rfl⟩
  refine ⟨fun i member => ?_, fun i member opened => ?_, ?_, ?_, ?_⟩
  · have log := image.logs i member
    cases here : map.txs i with
    | none =>
      rw [here] at log
      exact (words i).1.trans log
    | some tx =>
      rw [here] at log
      unfold SlotHolds at log ⊢
      rwa [(words i).1, bytes]
  · obtain ⟨steps, plain, alone, room⟩ := image.safe i member opened
    rw [← bytes] at steps plain alone
    rw [← (words i).1, ← (words i).2] at room
    exact ⟨steps, plain, alone, room⟩
  · rw [bytes]
    exact image.bounds
  · rw [bytes]
    exact image.shown
  · rw [bytes]
    exact image.sealed

theorem slotWord_header (known : i < h.txSlotsCount) {offset width : Nat} (inside : offset + width ≤ 24) :
    span (h.slotAddr i + offset) width ⊆ h.headers := by
  intro x member
  rw [mem_span] at member
  refine Or.inl ⟨i, known, ?_⟩
  have hdr : sizeofTxSlot = 24 := rfl
  rw [mem_span]
  omega

theorem blockWord_header {id obj : Nat} (direct : backendDirect h.backend id = some obj) {offset width : Nat}
    (inside : offset + width ≤ 32) : span (obj + offset) width ⊆ h.headers := by
  intro x member
  rw [mem_span] at member
  refine Or.inr ⟨id, obj, direct, ?_⟩
  have hdr : sizeofDataHdr = 32 := rfl
  rw [mem_span]
  omega

theorem Keeps.slotWord (keeps : Keeps h.headers P p q) (known : i < h.txSlotsCount) (offset width value : Nat)
    (inside : offset + width ≤ 24) (done : P (q.mem.write (h.slotAddr i + offset) (encode width value))) :
    Keeps h.headers P p (q.store (h.slotAddr i + offset) (encode width value)) :=
  keeps.word _ (by rw [length_encode]; exact slotWord_header known inside) done

theorem Keeps.blockWord (keeps : Keeps h.headers P p q) {id obj : Nat} (direct : backendDirect h.backend id = some obj)
    (offset width value : Nat) (inside : offset + width ≤ 32)
    (done : P (q.mem.write (obj + offset) (encode width value))) :
    Keeps h.headers P p (q.store (obj + offset) (encode width value)) :=
  keeps.word _ (by rw [length_encode]; exact blockWord_header direct inside) done

theorem Keeps.slotChecksum (keeps : Keeps h.headers P p q) (known : i < h.txSlotsCount) (txId : Nat)
    (done : P (txSlotChecksum h q (h.slotAddr i) txId).mem) :
    Keeps h.headers P p (txSlotChecksum h q (h.slotAddr i) txId) := by
  rw [txSlotChecksum_mem] at done
  exact (keeps.slotWord known 0 8 _ (by omega) done).txPersist h txId _

theorem replayStands_same {s : Store} (layout : h.LogLayout) (same : ∀ x ∈ h.slotArea j, m x = s.pool.mem x)
    (room : h.status s j = TxStatus.commited.code → sizeofTxSlot + h.size s j ≤ h.backend.txSlotSize) :
    replayStands h m j = replayStands h s.pool.mem j := by
  have few := layout.slot_room
  have small := layout.end_lt
  have word : ∀ offset width, offset + width ≤ 24 →
      m.word (h.slotAddr j + offset) width = s.pool.mem.word (h.slotAddr j + offset) width :=
    fun offset width inside => word_congr _ _ _ _ fun x lower upper => same x (by
      rw [Handle.slotArea, mem_span]
      omega)
  have size : slotSize m (h.slotAddr j) = h.size s j := word 16 8 (by omega)
  have status : slotStatus m (h.slotAddr j) = h.status s j := word 8 4 (by omega)
  have flch : flch64 m (h.slotAddr j) = flch64 s.pool.mem (h.slotAddr j) := word 0 8 (by omega)
  rw [replayStands, replayStands, Bool.eq_iff_iff, slotAccepted_iff, slotAccepted_iff, size, status, flch]
  refine and_congr_left fun commited => ?_
  have fits := room commited
  have checksum : checksumOf h m (h.slotAddr j) (u64 (sizeofTxSlot + h.size s j)) =
      checksumOf h s.pool.mem (h.slotAddr j) (u64 (sizeofTxSlot + h.size s j)) :=
    checksumOf_span fun x lower upper => same x (by
      have le := Nat.mod_le (sizeofTxSlot + h.size s j) (2 ^ 64)
      rw [Handle.slotArea, mem_span]
      unfold u64 at upper
      omega)
  rw [checksum]
  rfl

theorem TxLogged.slotHolds (layout : h.LogLayout) (known : j < h.txSlotsCount) {s : Store}
    {state : Option (Tx Nat PartialBytes)} (log : TxLogged h s j state) : SlotHolds h s j state := by
  cases state with
  | none => exact log
  | some tx => exact log.holds layout known

theorem NoPayload.entries {slot : Nat} {m' : Mem} (steps : NoPayload m slot)
    (same : slotEntries m' slot = slotEntries m slot) : NoPayload m' slot := by
  intro r member in_place
  have listed : r.2 ∈ slotEntries m slot := by
    rw [← same]
    exact List.mem_map_of_mem member
  obtain ⟨r', member', entry⟩ := List.mem_map.mp listed
  rw [← entry] at in_place ⊢
  exact steps r' member' in_place

theorem Logged.slotEntries_same (layout : h.LogLayout) (known : j < h.txSlotsCount) {s s' : Store}
    {records : List LogRecord} (logged : Logged h s j records) (logged' : Logged h s' j records) :
    slotEntries s'.pool.mem (h.slotAddr j) = slotEntries s.pool.mem (h.slotAddr j) := by
  have below := Handle.slot_below known
  have small := layout.end_lt
  have fits := logged.fits
  have fits' := logged'.fits
  unfold Handle.size at fits fits'
  rw [(logged.records.entries (by omega)).1, (logged'.records.entries (by omega)).1]

theorem slot_same (layout : h.LogLayout) (inv : LedgerInv h t) (safe : t.RecoverySafe h) (member : j ∈ replaySlots h)
    (same : ∀ x ∈ h.slotArea j, m x = t.store.pool.mem x) :
    SlotHolds h (t.store.crashed m) j (t.map.txs j) ∧
      (t.map.txs j ≠ none → ReplaySafe h (t.store.crashed m) t.map j) := by
  have known := ((mem_replaySlots layout).mp member).2
  have log := inv.logs j known
  have bytes : ∀ x, h.slotAddr j ≤ x → x < h.slotAddr j + h.backend.txSlotSize →
      (t.store.crashed m).pool.mem x = t.store.pool.mem x :=
    fun x lower upper => same x ⟨lower, upper⟩
  have log' : TxLogged h (t.store.crashed m) j (t.map.txs j) := log.congr layout bytes
  refine ⟨log'.slotHolds layout known, fun opened => ?_⟩
  obtain ⟨steps, plain, alone, room⟩ := safe j member opened
  have stands : replayStands h m j = replayStands h t.store.pool.mem j := replayStands_same layout same room
  refine ⟨?_, fun standing => plain (stands ▸ standing), fun standing => alone (stands ▸ standing), ?_⟩
  · obtain ⟨tx, here⟩ := Option.ne_none_iff_exists'.mp opened
    rw [here] at log
    obtain ⟨-, ops, -, records, logged, -⟩ := log
    exact steps.entries (logged.slotEntries_same layout known (logged.congr fun x lower upper => bytes x (by omega) upper))
  · have few := layout.slot_room
    have status : h.status (t.store.crashed m) j = h.status t.store j :=
      word_congr _ _ _ _ fun x lower upper => bytes x (by omega) (by omega)
    have size : h.size (t.store.crashed m) j = h.size t.store j :=
      word_congr _ _ _ _ fun x lower upper => bytes x (by omega) (by omega)
    rw [status, size]
    exact room

theorem LedgerInv.image (rooms : h.Rooms) (inv : LedgerInv h t) (safe : t.RecoverySafe h)
    (changed : ChangedIn (h.slotArea i ∪ h.blockArea) t.store.pool.mem m)
    (here : i ∈ replaySlots h → SlotHolds h (t.store.crashed m) i (t.map.txs i) ∧
      (t.map.txs i ≠ none → ReplaySafe h (t.store.crashed m) t.map i))
    (blocks : ∀ id obj, backendDirect h.backend id = some obj → Untouched h id t.store.pool.mem m ∨
      h.LengthsFit m id obj ∧ (Dropped h m t.map id ∨ flch64 m obj = 0 ∧ t.map.objects id = none)) :
    CrashImage h (t.store.crashed m) t.map := by
  have layout := rooms.toLogLayout
  have slot : ∀ j ∈ replaySlots h, SlotHolds h (t.store.crashed m) j (t.map.txs j) ∧
      (t.map.txs j ≠ none → ReplaySafe h (t.store.crashed m) t.map j) := by
    intro j member
    by_cases there : j = i
    · subst there
      exact here member
    · have slot : SlotChanged h i t.store (t.store.crashed m) := changed
      have bytes := slot.slot_bytes ((mem_replaySlots layout).mp member).2 there
      exact slot_same layout inv safe member fun x inside => bytes x inside.1 inside.2
  refine ⟨fun j member => (slot j member).1, fun j member => (slot j member).2, fun id obj direct => ?_,
    fun id spared => ?_, fun id obj spared direct => ?_⟩
  · rcases blocks id obj direct with same | ⟨fits, -⟩
    · obtain ⟨key_fits, fits, -⟩ := same.contained direct (rooms.room id) (inv.blocks.contained id obj direct)
      exact ⟨key_fits, fits⟩
    · exact fits
  · cases direct : backendDirect h.backend id with
    | none =>
      have nowhere : Untouched h id t.store.pool.mem m := by
        rintro x ⟨obj, there, -⟩
        rw [direct] at there
        cases there
      exact (inv.held id).untouched (rooms.room id) nowhere fun ready => ready
    | some obj =>
      rcases blocks id obj direct with same | ⟨-, drops | ⟨dead, missing⟩⟩
      · exact (inv.held id).untouched (rooms.room id) same fun ready => ready
      · exact absurd drops spared
      · rw [missing]
        intro found get
        obtain ⟨-, there, live⟩ := backendGet_ok.mp get
        cases direct.symm.trans there
        exact live dead
  · rcases blocks id obj direct with same | ⟨fits, drops | ⟨dead, missing⟩⟩
    · have contained := inv.blocks.contained id obj direct
      exact ⟨same.contained direct (rooms.room id) contained, same.sealed direct (rooms.room id) contained
        (inv.blocks.sealed id obj direct (Set.notMem_empty id))⟩
    · exact absurd drops spared
    · exact ⟨⟨fits.1, fits.2, fun live => absurd dead live⟩, fun live => absurd dead live⟩

end Images

section Slots

variable {h : Handle} {m : Mem} {t t' : Ledger} {s' : Store} {i : Nat} {tx : Tx Nat PartialBytes} {op : LogOp}

theorem not_stands (other : slotStatus m (h.slotAddr i) ≠ TxStatus.commited.code) : replayStands h m i ≠ true := by
  rw [replayStands, Ne, slotAccepted_iff]
  exact fun accepted => other accepted.2

theorem log_untouched (rooms : h.Rooms) (known : i < h.txSlotsCount) {area : Set Nat} {m₀ : Mem}
    (changed : ChangedIn area m₀ m) (inside : area ⊆ h.slotArea i) (id : Nat) : Untouched h id m₀ m :=
  ChangedIn.blocks_untouched rooms.toLogLayout ((changed.mono inside).mono (slotArea_log known)) id

theorem LedgerInv.beyond (rooms : h.Rooms) (inv : LedgerInv h t) (safe : t.RecoverySafe h) (known : i < h.txSlotsCount)
    (here : t.map.txs i = some tx) (running : tx.commited = false)
    (changed : ChangedIn {x | h.slotAddr i + h.size t.store i ≤ x ∧ x < h.slotAddr i + h.backend.txSlotSize}
      t.store.pool.mem m) : CrashImage h (t.store.crashed m) t.map := by
  have layout := rooms.toLogLayout
  have log := inv.logs i known
  rw [here] at log
  have processing := log.commited.1.mp running
  obtain ⟨-, ops, does, records, logged, decoded⟩ := log
  have started : 24 ≤ h.size t.store i := logged.records.size_ge
  have inside : {x | h.slotAddr i + h.size t.store i ≤ x ∧ x < h.slotAddr i + h.backend.txSlotSize} ⊆ h.slotArea i := by
    intro x there
    exact ⟨le_trans (Nat.le_add_right _ _) there.1, there.2⟩
  have same : ∀ x < h.slotAddr i + h.size t.store i, m x = t.store.pool.mem x := fun x below =>
    changed x fun there => absurd below (Nat.not_lt.mpr there.1)
  have status : h.status (t.store.crashed m) i = TxStatus.processing.code := by
    rw [← processing]
    exact word_congr _ _ _ _ fun x lower upper => same x (by omega)
  have records' : SlotRecords m (h.slotAddr i) records :=
    logged.records.congr fun x _ upper => same x upper
  have size : h.size (t.store.crashed m) i = h.size t.store i :=
    word_congr _ _ _ _ fun x lower upper => same x (by omega)
  have logged' : Logged h (t.store.crashed m) i records := ⟨size.trans_le logged.fits, records'⟩
  refine inv.image rooms safe (changed.mono (inside.trans Set.subset_union_left)) (fun member => ?_) fun id _ _ =>
    Or.inl (log_untouched rooms known changed inside id)
  have unaccepted : replayStands h m i ≠ true := not_stands (by
    rw [show slotStatus m (h.slotAddr i) = TxStatus.processing.code from status]
    decide)
  rw [here]
  refine ⟨⟨by rw [status]; decide, ⟨_, status⟩, ops, does, logged'.lists layout known decoded⟩, fun _ => ⟨?_, ?_, ?_, ?_⟩⟩
  · exact (safe i member (by rw [here]; exact Option.some_ne_none tx)).steps.entries
      (logged.slotEntries_same layout known logged')
  · exact fun standing => absurd standing unaccepted
  · exact fun standing => absurd standing unaccepted
  · intro commited
    rw [status] at commited
    exact absurd commited (by decide)

theorem processing_open (inv : LedgerInv h t) (known : i < h.txSlotsCount)
    (processing : h.status t.store i = TxStatus.processing.code) :
    ∃ tx, t.map.txs i = some tx ∧ tx.commited = false ∧ sizeofTxSlot ≤ h.size t.store i := by
  have log := inv.logs i known
  obtain ⟨tx, here⟩ := log.used (by rw [processing]; decide)
  rw [here] at log
  have running := log.commited.1.mpr processing
  obtain ⟨-, ops, -, records, logged, -⟩ := log
  exact ⟨tx, here, running, logged.records.size_ge⟩

theorem LedgerInv.append_open (rooms : h.Rooms) (inv : LedgerInv h t) (known : i < h.txSlotsCount) {s : Store}
    (pool : s.pool = t.store.pool) (done : op.run h s (i + 1) = (s', .ok)) :
    ∃ tx, t.map.txs i = some tx ∧ tx.commited = false ∧ sizeofTxSlot ≤ h.size t.store i := by
  obtain ⟨processing, -⟩ := op.run_ok rooms.toLogLayout known (congrArg Prod.snd done)
  refine processing_open inv known ?_
  rw [← processing, Handle.status, Handle.status, pool]

theorem LedgerInv.append_keeps (rooms : h.Rooms) (inv : LedgerInv h t) (safe : t.RecoverySafe h) (known : i < h.txSlotsCount)
    {s : Store} (pool : s.pool = t.store.pool) (entry : EntryFits h t.store (i + 1) op.len)
    (done : op.run h s (i + 1) = (s', .ok)) :
    Keeps h.headers (fun m => CrashImage h (t.store.crashed m) t.map ∨ m = s'.pool.mem) t.store.pool s'.pool := by
  have layout := rooms.toLogLayout
  have below := Handle.slot_below known
  have small := layout.end_lt
  obtain ⟨tx, here, running, started⟩ := inv.append_open rooms known pool done
  have logged := op.run_ok layout known (congrArg Prod.snd done)
  rw [done] at logged
  obtain ⟨processing, result⟩ := logged
  have status : h.status t.store i = TxStatus.processing.code := by
    rw [← processing, Handle.status, Handle.status, pool]
  have hdr : sizeofTxSlot = 24 := rfl
  have room := entry status
  rw [Nat.add_sub_cancel] at room
  have stored := op.stored_le
  have size : h.size s i = h.size t.store i := by rw [Handle.size, Handle.size, pool]
  rw [size, u64_of_lt (by omega), pool] at result
  have filling : Keeps h.headers (fun m => CrashImage h (t.store.crashed m) t.map ∨ m = s'.pool.mem) t.store.pool
      (op.fill h t.store.pool (h.slotAddr i + h.size t.store i)) := by
    refine (op.fill_keeps h t.store.pool (h.slotAddr i + h.size t.store i)).mono fun m changed => Or.inl ?_
    refine inv.beyond rooms safe known here running (changed.mono fun x inside => ?_)
    rw [mem_span] at inside
    exact ⟨inside.1, by omega⟩
  simp only at result
  generalize s'.pool = last at result filling ⊢
  subst result
  refine filling.word _ ?_ (Or.inr rfl)
  rw [length_encode]
  exact slotWord_header known (by omega)

theorem header_slot (layout : h.LogLayout) (inv : LedgerInv h t) (safe : t.RecoverySafe h) (member : i ∈ replaySlots h)
    (here : t.map.txs i = some tx)
    (same : ∀ x, h.slotAddr i + 16 ≤ x → x < h.slotAddr i + h.backend.txSlotSize → m x = t.store.pool.mem x)
    (used : slotStatus m (h.slotAddr i) ≠ TxStatus.empty.code)
    (code : ∃ status : TxStatus, slotStatus m (h.slotAddr i) = status.code) (refused : replayStands h m i ≠ true)
    (room : slotStatus m (h.slotAddr i) = TxStatus.commited.code →
      sizeofTxSlot + h.size t.store i ≤ h.backend.txSlotSize) :
    SlotHolds h (t.store.crashed m) i (t.map.txs i) ∧
      (t.map.txs i ≠ none → ReplaySafe h (t.store.crashed m) t.map i) := by
  have known := ((mem_replaySlots layout).mp member).2
  have few := layout.slot_room
  have log := inv.logs i known
  rw [here] at log ⊢
  obtain ⟨-, ops, does, records, logged, decoded⟩ := log
  have logged' : Logged h (t.store.crashed m) i records := logged.congr same
  have size : h.size (t.store.crashed m) i = h.size t.store i :=
    word_congr _ _ _ _ fun x lower upper => same x (by omega) (by omega)
  refine ⟨⟨used, code, ops, does, logged'.lists layout known decoded⟩, fun opened => ⟨?_, ?_, ?_, ?_⟩⟩
  · exact (safe i member (by rw [here]; exact opened)).steps.entries (logged.slotEntries_same layout known logged')
  · exact fun standing => absurd standing refused
  · exact fun standing => absurd standing refused
  · rw [size]
    exact room

theorem LedgerInv.commit_keeps (rooms : h.Rooms) (nonzero : ∀ bytes, h.checksum bytes ≠ 0) (inv : LedgerInv h t)
    (safe : t.RecoverySafe h) (known : i < h.txSlotsCount) (done : pmbTxCommit h t.store (i + 1) = (s', .ok))
    (room : i ∈ replaySlots h → sizeofTxSlot + h.size t.store i ≤ h.backend.txSlotSize) :
    Keeps h.headers (fun m => CrashImage h (t.store.crashed m) t.map ∨ m = s'.pool.mem) t.store.pool s'.pool := by
  have layout := rooms.toLogLayout
  have valid : ¬(i + 1 = 0 ∨ i + 1 > h.txSlotsCount) := by omega
  unfold pmbTxCommit at done
  rw [if_neg valid, txSlotCommit_eq layout t.store known] at done
  split at done
  · next processing =>
    cases done
    obtain ⟨tx, here, running, -⟩ := processing_open inv known processing
    have log := inv.logs i known
    rw [here] at log
    obtain ⟨⟨-, unsealed⟩, -⟩ := log
    rw [running, if_neg Bool.false_ne_true] at unsealed
    have start : Keeps h.headers (fun m => CrashImage h (t.store.crashed m) t.map ∨ m = (txSlotChecksum h
        (t.store.pool.setStatus (h.slotAddr i) .commited) (h.slotAddr i) i).mem) t.store.pool t.store.pool :=
      Keeps.refl (Or.inl ((inv.crashImage layout safe).congr rfl))
    have changed : ChangedIn (span (h.slotAddr i + 8) 4) t.store.pool.mem
        (t.store.pool.setStatus (h.slotAddr i) .commited).mem := (ChangedIn.refl _ _).thenEncode _ 4 _ (by omega) (by omega)
    have inside : span (h.slotAddr i + 8) 4 ⊆ h.slotArea i := slotHeader_area layout i 8 4 (by omega)
    have marked : Keeps h.headers _ t.store.pool (t.store.pool.setStatus (h.slotAddr i) .commited) :=
      start.slotWord known 8 4 TxStatus.commited.code (by omega) (Or.inl ?_)
    · exact marked.slotChecksum known i (Or.inr rfl)
    -- the status is stored before the checksum
    · change CrashImage h (t.store.crashed (t.store.pool.setStatus (h.slotAddr i) .commited).mem) t.map
      refine inv.image rooms safe (changed.mono (inside.trans Set.subset_union_left)) (fun member => ?_) fun id _ _ =>
        Or.inl (log_untouched rooms known changed inside id)
      have status : slotStatus (t.store.pool.setStatus (h.slotAddr i) .commited).mem (h.slotAddr i) =
          TxStatus.commited.code := by
        rw [Pool.setStatus, slotStatus, Pool.store_mem, word_write_same]
        decide
      have flch : flch64 (t.store.pool.setStatus (h.slotAddr i) .commited).mem (h.slotAddr i) = 0 := by
        rw [← unsealed]
        exact changed.word_apart (Or.inl (by omega))
      refine header_slot layout inv safe member here (fun x lower _ => changed x fun there => ?_) (by rw [status]; decide)
        ⟨_, status⟩ (fun stands => ?_) fun _ => room member
      · rw [mem_span] at there
        omega
      · rw [replayStands, slotAccepted_iff, flch] at stands
        exact checksumOf_ne nonzero _ _ _ stands.1.symm
  · cases done

theorem slotLog_short {slot : Nat} (short : slotSize m slot ≤ sizeofTxSlot) : slotLog m slot = [] := by
  have none_left : u64 (slot + slotSize m slot) - (slot + sizeofTxSlot) = 0 := by
    have below : u64 (slot + slotSize m slot) ≤ slot + slotSize m slot := by
      unfold u64
      exact Nat.mod_le _ _
    omega
  rw [slotLog, none_left, logWalk]

theorem pmbTxBegin_stores (layout : h.LogLayout) (known : i < h.txSlotsCount) {s s' : Store}
    (done : pmbTxBegin h s = (s', .ok, i + 1)) :
    s'.pool = (h.markSlot s.pool i).setSize (h.slotAddr i) sizeofTxSlot := by
  unfold pmbTxBegin at done
  simp only at done
  split at done
  · simp only [Prod.mk.injEq] at done
    exact absurd done.2.1 (by decide)
  · simp only [Prod.mk.injEq] at done
    obtain ⟨same, -, val⟩ := done
    rw [← same, val, txSlotInit_eq layout _ known]
    rfl

theorem Torn.of_next (image : CrashImage h (t'.store.crashed m) t'.map) : Torn h t t' m := Or.inr (image.congr rfl)

theorem LedgerInv.begin_keeps (rooms : h.Rooms) (inv : LedgerInv h t) (safe : t.RecoverySafe h) (inv' : LedgerInv h t')
    (safe' : t'.RecoverySafe h) {txSlot : Nat} (done : pmbTxBegin h t.store = (t'.store, .ok, txSlot))
    (map : t'.map = t.map.next (.begin (txSlot - 1)))
    (fresh : txSlot - 1 ∈ replaySlots h → h.size t.store (txSlot - 1) ≤ sizeofTxSlot) :
    Keeps h.headers (Torn h t t') t.store.pool t'.store.pool := by
  have layout := rooms.toLogLayout
  obtain ⟨-, -, i, known, rfl, only, -, -⟩ := pmbTxBegin_ok layout done
  have begins := (inv.slots.begins layout).2 (by rw [done])
  rw [done] at begins
  have free := begins.2
  simp only [Nat.add_sub_cancel] at free fresh map
  have unused : t.map.txs i = none := (inv.logs i known).unused free
  have inside := slotHeader_area layout i
  have pool := pmbTxBegin_stores layout known done
  unfold Handle.markSlot at pool
  have zeroed : ChangedIn (h.slotArea i) t.store.pool.mem (t.store.pool.setFlch64 (h.slotAddr i) 0).mem :=
    (ChangedIn.refl _ _).thenWrite _ _ (by rw [length_encode]; exact inside 0 8 (by omega))
  have marked : ChangedIn (h.slotArea i) t.store.pool.mem
      ((t.store.pool.setFlch64 (h.slotAddr i) 0).setStatus (h.slotAddr i) .processing).mem :=
    zeroed.thenWrite _ _ (by rw [length_encode]; exact inside 8 4 (by omega))
  have start : Keeps h.headers (Torn h t t') t.store.pool t.store.pool :=
    Keeps.refl (Or.inl ((inv.crashImage layout safe).congr rfl))
  rw [pool]
  refine ((start.slotWord known 0 8 0 (by omega) ?_).slotWord known 8 4 TxStatus.processing.code (by omega) ?_).slotWord
    known 16 8 sizeofTxSlot (by omega) ?_
  · left
    change CrashImage h (t.store.crashed (t.store.pool.setFlch64 (h.slotAddr i) 0).mem) t.map
    refine inv.image rooms safe (zeroed.mono Set.subset_union_left) (fun member => ?_) fun id _ _ =>
      Or.inl (log_untouched rooms known zeroed (subset_refl _) id)
    rw [unused]
    refine ⟨?_, fun opened => absurd rfl opened⟩
    change slotStatus (t.store.pool.setFlch64 (h.slotAddr i) 0).mem (h.slotAddr i) = TxStatus.empty.code
    rw [← free, slotStatus, Pool.store_mem, word_write_disjoint _ _ _ _ _ (by simp)]
    rfl
  · change Torn h t t' ((t.store.pool.setFlch64 (h.slotAddr i) 0).setStatus (h.slotAddr i) .processing).mem
    have status : slotStatus ((t.store.pool.setFlch64 (h.slotAddr i) 0).setStatus (h.slotAddr i) .processing).mem
        (h.slotAddr i) = TxStatus.processing.code := by
      rw [Pool.setStatus, slotStatus, Pool.store_mem, word_write_same]
      decide
    have size : slotSize ((t.store.pool.setFlch64 (h.slotAddr i) 0).setStatus (h.slotAddr i) .processing).mem
        (h.slotAddr i) = h.size t.store i := by
      simp only [Handle.size, slotSize, Pool.store_mem]
      rw [word_write_disjoint _ _ _ _ _ (by simp), word_write_disjoint _ _ _ _ _ (by simp)]
    generalize (t.store.pool.setFlch64 (h.slotAddr i) 0).setStatus (h.slotAddr i) .processing = p at marked status size ⊢
    have now : t'.map.txs i = some Tx.new := by
      rw [map]
      exact Function.update_self _ _ _
    have back : ChangedIn (h.slotArea i) t'.store.pool.mem t.store.pool.mem := fun x outside => (only x outside).symm
    have other : ChangedIn (h.slotArea i) t'.store.pool.mem p.mem := back.trans marked
    refine Torn.of_next (inv'.image rooms safe' (other.mono Set.subset_union_left) (fun member => ?_) fun id _ _ =>
      Or.inl (log_untouched rooms known other (subset_refl _) id))
    have none_logged : slotLog p.mem (h.slotAddr i) = [] := slotLog_short (size.trans_le (fresh member))
    have refused : replayStands h p.mem i ≠ true := not_stands (by rw [status]; decide)
    have unlisted : ∀ r, r ∉ slotLog p.mem (h.slotAddr i) := fun r => by
      rw [none_logged]
      exact List.not_mem_nil
    rw [now]
    refine ⟨⟨?_, ⟨_, status⟩, [], LoggedBy.new, ?_⟩, fun _ => ⟨?_, ?_, ?_, fun commited => ?_⟩⟩
    · change slotStatus p.mem (h.slotAddr i) ≠ TxStatus.empty.code
      rw [status]
      decide
    · exact ⟨fun r listed => absurd listed (unlisted r), fun r listed => absurd listed (unlisted r),
        fun op listed => absurd listed List.not_mem_nil⟩
    · exact fun r listed => absurd listed (unlisted r)
    · exact fun stands => absurd stands refused
    · exact fun stands => absurd stands refused
    · exact absurd (status.symm.trans commited) (by decide)
  · change Torn h t t' (((t.store.pool.setFlch64 (h.slotAddr i) 0).setStatus (h.slotAddr i) .processing).setSize
      (h.slotAddr i) sizeofTxSlot).mem
    rw [← pool]
    exact Torn.of_next ((inv'.crashImage layout safe').congr rfl)

end Slots

end PmBackend
