import PmBackend.ReopenContents
import PmBackend.RoundTrips

set_option autoImplicit false

namespace PmBackend

open ByteMemory

-- the object that a data block has
def dataObject (h : Handle) (m : Mem) (obj : Nat) : Object where
  id := objectId m obj
  key := m.read (obj + 32) (keyLen m obj)
  version := version m obj
  value := .ofBytes (valueBytes h m obj)

def blockObject (h : Handle) (m : Mem) (id : Nat) : Object :=
  match backendDirect h.backend id with
  | some obj => dataObject h m obj
  | none => ⟨0, [], 0, .empty⟩

-- updates overlay the value in their order, and each one counts
def Object.updated (o : Object) (updates : List LogRecord) : Object :=
  { o with
    version := (o.version + updates.length) % 2 ^ 32
    value := updates.foldl (fun v r => v.overlay r.entry.offset r.payload) o.value }

def updatesOf (records : List LogRecord) (id : Nat) : List LogRecord := records.filter fun r => r.entry.blkId1 = id

-- the element of an update list for a block, after the records seen so far
def seenElement (h : Handle) (m : Mem) (seen : List LogRecord) (id : Nat) : TxMeta :=
  let o := (blockObject h m id).updated (updatesOf seen id)
  ⟨id, o.version, o.value.len⟩

-- the bytes between the longest key and the end of the longest value
def Handle.valueAreas (h : Handle) (named : Finset Nat) : Set Nat :=
  {x | ∃ id ∈ named, ∃ obj, backendDirect h.backend id = some obj ∧ x ∈ span (obj + 32 + h.maxKeyLen) h.maxValLen}

-- where the payloads of the records go
def Handle.payloads (h : Handle) (records : List LogRecord) : Set Nat :=
  {x | ∃ r ∈ records, ∃ obj, backendDirect h.backend r.entry.blkId1 = some obj ∧
    x ∈ span (obj + 32 + h.maxKeyLen + r.entry.offset) r.payload.length}

structure NamedObjects (h : Handle) (m : Mem) (named : Finset Nat) : Prop where
  objects : ∀ id ∈ named, ∃ obj, OldData h m id obj
  apart : ∀ i ∈ named, ∀ j ∈ named, i ≠ j → h.backend.Apart i j
  few : named.card ≤ 128

-- an in-place update of a named block, within the longest value
structure NamedUpdate (h : Handle) (named : Finset Nat) (r : LogRecord) : Prop where
  in_place : InPlace r
  member : r.entry.blkId1 ∈ named
  fits : r.entry.offset + r.payload.length ≤ h.maxValLen

-- between two records: the values are those so far, and the update list has the numbers for the headers
structure Updating (h : Handle) (m : Mem) (named : Finset Nat) (txId : Nat) (seen : List LogRecord)
    (updated : List Nat) (s : Store) : Prop where
  updates : ∀ r ∈ seen, NamedUpdate h named r
  holds : ListHolds (s.updIdList txId) updated
  members : ∀ id ∈ updated, id ∈ named
  zeros : ∀ k, (s.updIdList txId).count ≤ k → k < 128 → ((s.updIdList txId).list k).id = 0
  fresh : ∀ id, id ∉ updated → updatesOf seen id = []
  elements : ∀ k < (s.updIdList txId).count,
    (s.updIdList txId).list k = seenElement h m seen ((s.updIdList txId).list k).id
  values : ∀ id ∈ named, ∀ obj, backendDirect h.backend id = some obj →
    ((blockObject h m id).updated (updatesOf seen id)).value.HeldAt s.pool.mem (obj + 32 + h.maxKeyLen)
  changed : ChangedIn (h.payloads seen) m s.pool.mem

section Objects

variable {h : Handle} {m : Mem} {o : Object} {updates : List LogRecord} {r : LogRecord}

theorem Object.updated_nil (small : o.version < 2 ^ 32) : o.updated [] = o := by
  simp only [Object.updated, List.length_nil, Nat.add_zero, List.foldl_nil, Nat.mod_eq_of_lt small]

theorem Object.updated_append :
    o.updated (updates ++ [r]) =
      { o.updated updates with
        version := u32 ((o.updated updates).version + 1)
        value := (o.updated updates).value.overlay r.entry.offset r.payload } := by
  unfold u32
  simp only [Object.updated, List.length_append, List.length_cons, List.length_nil, List.foldl_append, List.foldl_cons,
    List.foldl_nil, Object.mk.injEq, true_and, and_true]
  omega

theorem updatesOf_append (seen : List LogRecord) (r : LogRecord) (id : Nat) :
    updatesOf (seen ++ [r]) id = if r.entry.blkId1 = id then updatesOf seen id ++ [r] else updatesOf seen id := by
  unfold updatesOf
  rw [List.filter_append]
  by_cases same : r.entry.blkId1 = id
  · rw [if_pos same, List.filter_cons_of_pos (by simpa using same), List.filter_nil]
  · rw [if_neg same, List.filter_cons_of_neg (by simpa using same), List.filter_nil, List.append_nil]

theorem Object.updated_len (o : Object) (updates : List LogRecord) :
    (o.updated updates).value.len =
      updates.foldl (fun len r => max len (r.entry.offset + r.payload.length)) o.value.len := by
  simp only [Object.updated]
  generalize o.value = v
  induction updates generalizing v with
  | nil => rfl
  | cons r rest ih => rw [List.foldl_cons, List.foldl_cons, ih, PartialBytes.overlay_len]

theorem Object.updated_len_le {bound : Nat} (value : o.value.len ≤ bound)
    (fits : ∀ r ∈ updates, r.entry.offset + r.payload.length ≤ bound) : (o.updated updates).value.len ≤ bound := by
  rw [Object.updated_len]
  generalize o.value.len = len at value
  induction updates generalizing len with
  | nil => exact value
  | cons r rest ih =>
    refine ih (fun r' member => fits r' (List.mem_cons_of_mem r member)) _ ?_
    exact max_le value (fits r List.mem_cons_self)

theorem dataObject_len (m : Mem) (obj : Nat) : (dataObject h m obj).value.len = valLen m obj := length_read _ _ _

theorem blockObject_eq {id obj : Nat} (direct : backendDirect h.backend id = some obj) :
    blockObject h m id = dataObject h m obj := by
  unfold blockObject
  rw [direct]

theorem blockObject_small (m : Mem) (id : Nat) : (blockObject h m id).version < 2 ^ 32 := by
  unfold blockObject
  split
  · exact word_lt m _ 4
  · exact Nat.two_pow_pos 32

end Objects

section Walk

variable {h : Handle} {m : Mem} {s s' : Store} {named : Finset Nat} {txId : Nat} {seen : List LogRecord}
  {updated : List Nat}

theorem added_expected {blkId size obj : Nat} (holds : ListHolds (s.updIdList txId) updated)
    (safe : AddSafe (s.updIdList txId) updated blkId) (direct : backendDirect h.backend blkId = some obj)
    (expected : Nat → TxMeta) (elements : ∀ k < (s.updIdList txId).count,
      (s.updIdList txId).list k = expected ((s.updIdList txId).list k).id)
    (header : blkId ∉ updated → expected blkId = ⟨blkId, version s.pool.mem obj, valLen s.pool.mem obj⟩)
    (added : txSlotMetaUpdAdd h s txId blkId size = some s') :
    ∃ i < (s'.updIdList txId).count, (s.updIdList txId).count ≤ (s'.updIdList txId).count ∧
      (s'.updIdList txId).list i = ⟨blkId, u32 ((expected blkId).version + 1), max (expected blkId).valLen size⟩ ∧
      (∀ k ≠ i, (s'.updIdList txId).list k = (s.updIdList txId).list k) ∧
      ∀ k < (s'.updIdList txId).count, k ≠ i → k < (s.updIdList txId).count ∧ ((s.updIdList txId).list k).id ≠ blkId := by
  obtain ⟨i, last, grown, others, rest, place⟩ := added_element holds safe direct added
  rcases place with ⟨inside, count, found, named⟩ | ⟨new_last, count, fresh, from_header⟩
  · have known := elements i inside
    rw [← found, named] at known
    rw [known] at grown
    exact ⟨i, by omega, by omega, grown, others, rest⟩
  · rw [from_header, ← header fresh] at grown
    exact ⟨i, by omega, by omega, grown, others, rest⟩

theorem NamedObjects.outside (rooms : h.Rooms) (blocks : NamedObjects h m named) {id obj x : Nat} (member : id ∈ named)
    (direct : backendDirect h.backend id = some obj) (front : x ∈ span obj (32 + h.maxKeyLen)) :
    x ∉ h.valueAreas named := by
  -- the header and the key of a named block are not in the value of one
  have room := rooms.data_room
  rintro ⟨j, other, obj', direct', inside⟩
  simp only [mem_span] at front inside
  by_cases same : id = j
  · subst same
    rw [direct] at direct'
    cases direct'
    omega
  · obtain ⟨_, before⟩ := blocks.objects id member
    obtain ⟨_, before'⟩ := blocks.objects j other
    have disjoint := blocks.apart id member j other same obj obj' direct direct'
    rw [blockSize_data before.data, blockSize_data before'.data] at disjoint
    exact Set.disjoint_left.mp disjoint (show x ∈ span obj h.backend.bsize by simp only [mem_span]; omega)
      (by simp only [mem_span]; omega)

theorem payloads_area (updates : ∀ r ∈ seen, NamedUpdate h named r) : h.payloads seen ⊆ h.valueAreas named := by
  rintro x ⟨r, listed, obj, direct, inside⟩
  have update := updates r listed
  have fits := update.fits
  refine ⟨_, update.member, obj, direct, ?_⟩
  simp only [mem_span] at inside ⊢
  omega

theorem NamedObjects.header (rooms : h.Rooms) (blocks : NamedObjects h m named) {id obj : Nat} (member : id ∈ named)
    (direct : backendDirect h.backend id = some obj) {m' : Mem} (changed : ChangedIn (h.valueAreas named) m m') :
    flch64 m' obj = flch64 m obj ∧ objectId m' obj = objectId m obj ∧ version m' obj = version m obj ∧
      keyLen m' obj = keyLen m obj ∧ valLen m' obj = valLen m obj := by
  have word : ∀ offset width, offset + width ≤ 32 → m'.word (obj + offset) width = m.word (obj + offset) width :=
    fun offset width inside => word_congr _ _ _ _ fun x lower upper =>
      changed x (blocks.outside rooms member direct ⟨by omega, by omega⟩)
  exact ⟨word 0 8 (by omega), word 8 8 (by omega), word 16 4 (by omega), word 20 4 (by omega), word 24 4 (by omega)⟩

theorem Updating.bounded (inv : Updating h m named txId seen updated s) (blocks : NamedObjects h m named) {id : Nat}
    (member : id ∈ named) : ((blockObject h m id).updated (updatesOf seen id)).value.len ≤ h.maxValLen := by
  obtain ⟨obj, before⟩ := blocks.objects id member
  obtain ⟨-, direct, -⟩ := backendGet_ok.mp before.found
  refine Object.updated_len_le ?_ fun r listed => (inv.updates r (List.mem_of_mem_filter listed)).fits
  rw [blockObject_eq direct, dataObject_len]
  exact before.value_fits

theorem Updating.step (rooms : h.Rooms) (blocks : NamedObjects h m named) {r : LogRecord}
    (update : NamedUpdate h named r) (inv : Updating h m named txId seen updated s) :
    ∃ s', executeRecord h txId s r = some s' ∧
      Updating h m named txId (seen ++ [r]) (addUpdated updated r.entry.blkId1) s' := by
  have hdr : sizeofDataHdr = 32 := rfl
  have room := rooms.data_room
  have small := rooms.bsize_small
  have fits := update.fits
  have member := update.member
  generalize id_eq : r.entry.blkId1 = id at member
  obtain ⟨obj, before⟩ := blocks.objects id member
  obtain ⟨positive, direct, -⟩ := backendGet_ok.mp before.found
  generalize copied_eq : backendMemcpy h s.pool (obj + sizeofDataHdr + h.maxKeyLen + r.entry.offset) r.payload = copied
  have copied_mem : copied.mem = s.pool.mem.write (obj + 32 + h.maxKeyLen + r.entry.offset) r.payload := by
    rw [← copied_eq, backendMemcpy_mem, hdr]
  have updates : ∀ r' ∈ seen ++ [r], NamedUpdate h named r' := by
    intro r' listed
    rcases List.mem_append.mp listed with earlier | last
    · exact inv.updates r' earlier
    · rw [List.mem_singleton.mp last]
      exact update
  have stored : ChangedIn (h.payloads (seen ++ [r])) m copied.mem := by
    have wider : h.payloads seen ⊆ h.payloads (seen ++ [r]) := fun x ⟨r', listed, where_⟩ =>
      ⟨r', List.mem_append_left _ listed, where_⟩
    rw [copied_mem]
    exact (inv.changed.mono wider).thenWrite _ _ fun x inside =>
      ⟨r, List.mem_append_right _ List.mem_cons_self, obj, by rw [id_eq]; exact direct, inside⟩
  have changed := stored.mono (payloads_area updates)
  obtain ⟨-, -, ver, -, val⟩ := blocks.header rooms member direct changed
  have safe := inv.holds.addSafe inv.members inv.zeros blocks.few member positive
  obtain ⟨s', added⟩ := txSlotMetaUpdAdd_some direct { s with pool := copied } txId
    (u32 (r.entry.offset + r.payload.length))
  have frame := txSlotMetaUpdAdd_frame added
  have pool : s'.pool = copied := by rw [frame]
  have in_place : r.entry.type = TxOp.updinplace.code := update.in_place
  have executed : executeRecord h txId s r = some s' := by
    unfold executeRecord txUpdateBlock
    rw [if_pos in_place, id_eq, direct]
    simp only [copied_eq]
    exact added
  refine ⟨s', executed, ?_⟩
  rw [u32_of_lt (by omega)] at added
  obtain ⟨i, inside, grows, element, others, rest⟩ := added_expected (s := { s with pool := copied })
    inv.holds safe direct (seenElement h m seen) inv.elements (fun new => by
      rw [seenElement, inv.fresh id new, Object.updated_nil (blockObject_small m id), blockObject_eq direct,
        dataObject_len]
      simp only [dataObject, ver, val]) added
  obtain ⟨holds, -⟩ := ListHolds.add (s := { s with pool := copied }) inv.holds safe added
  have longer : (s.updIdList txId).count ≤ (s'.updIdList txId).count := grows
  refine ⟨updates, holds, fun j listed => ?_, fun k beyond below => ?_, fun j unlisted => ?_, fun k below => ?_,
    fun j other obj' direct' => ?_, by rw [pool]; exact stored⟩
  · rcases mem_addUpdated.mp listed with earlier | rfl
    · exact inv.members j earlier
    · exact member
  · rw [others k (by omega)]
    exact inv.zeros k (by omega) below
  · have unnamed : j ∉ updated ∧ j ≠ id := by
      simpa only [mem_addUpdated, not_or] using unlisted
    rw [updatesOf_append, if_neg (by rw [id_eq]; exact unnamed.2.symm)]
    exact inv.fresh j unnamed.1
  · by_cases here : k = i
    · subst here
      rw [element]
      simp only [seenElement, updatesOf_append, id_eq, if_true, Object.updated_append, PartialBytes.overlay_len]
    · obtain ⟨earlier, different⟩ := rest k below here
      rw [others k here]
      have old := inv.elements k earlier
      rw [seenElement, updatesOf_append, if_neg (by rw [id_eq]; exact different.symm)]
      exact old
  · rw [pool, copied_mem]
    have value := inv.values j other obj' direct'
    by_cases same : j = id
    · subst same
      rw [direct] at direct'
      cases direct'
      rw [updatesOf_append, if_pos id_eq, Object.updated_append]
      exact value.write r.entry.offset r.payload
    · rw [updatesOf_append, if_neg (by rw [id_eq]; exact Ne.symm same)]
      have bounded := inv.bounded blocks other
      refine value.congr fun k below => write_outside _ _ _ _ ?_
      obtain ⟨_, before'⟩ := blocks.objects j other
      have disjoint := blocks.apart id member j other (Ne.symm same) obj obj' direct direct'
      rw [blockSize_data before.data, blockSize_data before'.data] at disjoint
      by_contra within
      exact Set.disjoint_left.mp disjoint
        (show obj' + 32 + h.maxKeyLen + k ∈ span obj h.backend.bsize by simp only [mem_span]; omega)
        (by simp only [mem_span]; omega)

theorem Updating.run (rooms : h.Rooms) (blocks : NamedObjects h m named) {records : List LogRecord}
    (updates : ∀ r ∈ records, NamedUpdate h named r) (inv : Updating h m named txId seen updated s) :
    ∃ s' updated', records.foldlM (executeRecord h txId) s = some s' ∧
      Updating h m named txId (seen ++ records) updated' s' := by
  induction records generalizing seen updated s with
  | nil => exact ⟨s, updated, rfl, by rwa [List.append_nil]⟩
  | cons r rest ih =>
    obtain ⟨next, executed, inv'⟩ := inv.step rooms blocks (updates r List.mem_cons_self)
    obtain ⟨s', updated', walked, after⟩ := ih (fun r' member => updates r' (List.mem_cons_of_mem r member)) inv'
    refine ⟨s', updated', ?_, by simpa only [List.append_assoc, List.cons_append, List.nil_append] using after⟩
    rw [List.foldlM_cons, executed]
    exact walked

end Walk

-- all of the object is in its block but the version, the length and the checksum
structure AwaitsHeader (h : Handle) (m : Mem) (id obj : Nat) (o : Object) : Prop where
  direct : backendDirect h.backend id = some obj
  data : id < h.totalObjsCount
  name : objectId m obj = o.id
  keyLen : keyLen m obj = o.key.length
  key : m.read (obj + 32) o.key.length = o.key
  value : o.value.HeldAt m (obj + 32 + h.maxKeyLen)
  version_lt : o.version < 2 ^ 32
  key_fits : o.key.length ≤ h.maxKeyLen
  fits : o.value.len ≤ h.maxValLen

section Headers

variable {h : Handle} {m m' : Mem} {p : Pool} {id obj : Nat} {o : Object}

theorem AwaitsHeader.congr (rooms : h.Rooms) (awaits : AwaitsHeader h m id obj o)
    (same : ∀ x ∈ span obj h.backend.bsize, m' x = m x) : AwaitsHeader h m' id obj o := by
  have room := rooms.data_room
  obtain ⟨direct, data, name, key_len, key, value, version_lt, key_fits, fits⟩ := awaits
  have word : ∀ offset width, offset + width ≤ 32 → m'.word (obj + offset) width = m.word (obj + offset) width :=
    fun offset width inside => word_congr _ _ _ _ fun x lower upper => same x ⟨by omega, by omega⟩
  refine ⟨direct, data, (word 8 8 (by omega)).trans name, (word 20 4 (by omega)).trans key_len, ?_, ?_, version_lt,
    key_fits, fits⟩
  · rw [read_congr m m' _ _ fun x lower upper => same x ⟨by omega, by omega⟩]
    exact key
  · exact value.congr fun k below => same _ ⟨by omega, by omega⟩

theorem AwaitsHeader.rewritten (rooms : h.Rooms) (awaits : AwaitsHeader h p.mem id obj o) {q r : Pool}
    (headed : q = (p.setVersion obj o.version).setValLen obj o.value.len)
    (sealed : r = utilChecksumInsert h q obj (sizeofDataHdr + h.maxKeyLen + valLen q.mem obj)) :
    HoldsObject h r.mem id obj o ∧ ChangedIn (span obj 32) p.mem r.mem := by
  have hdr : sizeofDataHdr = 32 := rfl
  have room := rooms.data_room
  have small := rooms.bsize_small
  have version_lt := awaits.version_lt
  have fits := awaits.fits
  have beyond : ∀ x, obj + 8 ≤ x → r.mem x = q.mem x := by
    intro x lower
    rw [sealed]
    exact write_outside _ _ _ _ (by rw [length_encode]; omega)
  have header : ∀ x, x < obj + 16 ∨ (obj + 20 ≤ x ∧ x < obj + 24) ∨ obj + 28 ≤ x → q.mem x = p.mem x := by
    intro x outside
    rw [headed]
    simp only [Pool.store_mem]
    rw [write_outside _ _ _ _ (by rw [length_encode]; omega), write_outside _ _ _ _ (by rw [length_encode]; omega)]
  have kept : ∀ x, obj + 8 ≤ x → x < obj + 16 ∨ (obj + 20 ≤ x ∧ x < obj + 24) ∨ obj + 28 ≤ x → r.mem x = p.mem x :=
    fun x lower outside => (beyond x lower).trans (header x outside)
  have ver : version r.mem obj = o.version := by
    have stored : version r.mem obj = version q.mem obj := word_congr _ _ _ _ fun x lower _ => beyond x (by omega)
    rw [stored, headed]
    simp only [version, Pool.store_mem]
    rw [word_write_disjoint _ _ _ _ _ (by rw [length_encode]; omega), word_write_same]
    exact Nat.mod_eq_of_lt (show o.version < 256 ^ 4 by omega)
  have stored_len : valLen q.mem obj = o.value.len := by
    rw [headed]
    simp only [valLen, Pool.store_mem]
    rw [word_write_same]
    exact Nat.mod_eq_of_lt (show o.value.len < 256 ^ 4 by omega)
  have len : valLen r.mem obj = o.value.len := by
    rw [← stored_len]
    exact word_congr _ _ _ _ fun x lower _ => beyond x (by omega)
  have size : objectSize h r.mem id obj = sizeofDataHdr + h.maxKeyLen + valLen q.mem obj := by
    rw [objectSize_eq rooms.toIds, h.objectLen_data awaits.data, len, stored_len]
  refine ⟨⟨awaits.direct, ?_, ?_, ?_, ver, len, ?_, ?_⟩, ?_⟩
  · rw [← awaits.name]
    exact word_congr _ _ _ _ fun x lower upper => kept x (by omega) (by omega)
  · rw [← awaits.keyLen]
    exact word_congr _ _ _ _ fun x lower upper => kept x (by omega) (by omega)
  · rw [read_congr p.mem r.mem _ _ fun x lower upper => kept x (by omega) (by omega)]
    exact awaits.key
  · rw [valueAddr_data _ _ awaits.data]
    exact awaits.value.congr fun k below => kept _ (by omega) (by omega)
  · rw [size, sealed]
    exact insert_verifies _ _ _ _
  · rw [sealed, headed]
    simp only [utilChecksumInsert, Pool.store_mem]
    exact (((ChangedIn.refl _ _).thenEncode _ _ _ (by omega) (by omega)).thenEncode _ _ _ (by omega) (by omega)).thenEncode
      _ _ _ (by omega) (by omega)

-- the headers that the elements from `i` on name
def headersFrom (h : Handle) (list : Nat → TxMeta) (i count : Nat) : Set Nat :=
  {x | ∃ k, i ≤ k ∧ k < i + count ∧ ∃ obj, backendDirect h.backend (list k).id = some obj ∧ x ∈ span obj 32}

theorem metaProcess_objects (rooms : h.Rooms) (list : Nat → TxMeta) (objects : Nat → Object) (count i : Nat) (p : Pool)
    (waiting : ∀ k, i ≤ k → k < i + count → ∃ obj, AwaitsHeader h p.mem (list k).id obj (objects k))
    (elements : ∀ k, i ≤ k → k < i + count → (list k).version = (objects k).version ∧
      (list k).valLen = (objects k).value.len)
    (apart : ∀ k l, i ≤ k → k < i + count → i ≤ l → l < i + count → k ≠ l →
      h.backend.Apart (list k).id (list l).id) :
    ∃ q, metaProcess h list count i p = some q ∧ ChangedIn (headersFrom h list i count) p.mem q.mem ∧
      ∀ k, i ≤ k → k < i + count → ∃ obj, HoldsObject h q.mem (list k).id obj (objects k) := by
  have room := rooms.data_room
  induction count generalizing i p with
  | zero => exact ⟨p, rfl, ChangedIn.refl _ _, fun k lower upper => by omega⟩
  | succ count ih =>
    obtain ⟨obj, first⟩ := waiting i (le_refl i) (by omega)
    obtain ⟨ver, len⟩ := elements i (le_refl i) (by omega)
    generalize next_eq : utilChecksumInsert h ((p.setVersion obj (list i).version).setValLen obj (list i).valLen) obj
      (sizeofDataHdr + h.maxKeyLen + valLen ((p.setVersion obj (list i).version).setValLen obj (list i).valLen).mem obj) = next
    obtain ⟨holds, changed⟩ := first.rewritten rooms (by rw [ver, len]) next_eq.symm
    -- what is stored to another block leaves this one as it is
    have beside : ∀ k l, i ≤ k → k < i + (count + 1) → i ≤ l → l < i + (count + 1) → k ≠ l → ∀ addr addr',
        backendDirect h.backend (list k).id = some addr → backendDirect h.backend (list l).id = some addr' →
        ∀ x ∈ span addr' h.backend.bsize, x ∉ span addr 32 := by
      intro k l lower upper lower' upper' other addr addr' direct direct' x inside front
      obtain ⟨_, here⟩ := waiting k lower upper
      obtain ⟨_, there⟩ := waiting l lower' upper'
      have disjoint := apart k l lower upper lower' upper' other addr addr' direct direct'
      rw [blockSize_data here.data, blockSize_data there.data] at disjoint
      simp only [mem_span] at front
      exact Set.disjoint_left.mp disjoint (by simp only [mem_span]; omega) inside
    obtain ⟨q, done, later, rest⟩ := ih (i + 1) next (fun k lower upper => by
        obtain ⟨addr, awaits⟩ := waiting k (by omega) (by omega)
        exact ⟨addr, awaits.congr rooms fun x inside => changed x
          (beside i k (le_refl i) (by omega) (by omega) (by omega) (by omega) obj addr first.direct awaits.direct x inside)⟩)
      (fun k lower upper => elements k (by omega) (by omega))
      fun k l lower upper lower' upper' => apart k l (by omega) (by omega) (by omega) (by omega)
    refine ⟨q, ?_, ?_, fun k lower upper => ?_⟩
    · unfold metaProcess
      rw [first.direct]
      simp only [next_eq]
      exact done
    · refine ChangedIn.trans (changed.mono ?_) (later.mono ?_)
      · exact fun x inside => ⟨i, le_refl i, by omega, obj, first.direct, inside⟩
      · rintro x ⟨k, lower, upper, named⟩
        exact ⟨k, by omega, by omega, named⟩
    · by_cases here : k = i
      · subst here
        have fits := first.fits
        have key_fits := first.key_fits
        refine ⟨obj, holds.congr rooms.toIds h.backend.bsize ?_ (by omega) fun x inside => later x ?_⟩
        · rw [h.objectLen_data first.data, holds.valLen]
          omega
        · rintro ⟨l, lower', upper', addr, direct, front⟩
          exact beside l k (by omega) (by omega) (by omega) (by omega) (by omega) addr obj direct first.direct x inside front
      · exact rest k (by omega) (by omega)

end Headers

def namedIds (records : List LogRecord) : Finset Nat := (records.map fun r => r.entry.blkId1).toFinset

structure UpdatesExecuted (h : Handle) (s t : Store) (records : List LogRecord) : Prop where
  updated : ∀ id ∈ namedIds records,
    ∃ obj, HoldsObject h t.pool.mem id obj ((blockObject h s.pool.mem id).updated (updatesOf records id))
  others : ∀ id, id ∉ namedIds records → Untouched h id s.pool.mem t.pool.mem

section Executions

variable {h : Handle} {s t : Store} {i : Nat} {records : List LogRecord}

theorem updatesOf_named {id : Nat} : updatesOf records id ≠ [] ↔ id ∈ namedIds records := by
  unfold updatesOf namedIds
  rw [ne_eq, List.filter_eq_nil_iff, List.mem_toFinset, List.mem_map]
  simp only [decide_eq_true_eq, not_forall, not_not]
  constructor
  · rintro ⟨r, member, same⟩
    exact ⟨r, member, same⟩
  · rintro ⟨r, member, same⟩
    exact ⟨r, member, same⟩

-- what an execution writes to: payloads, and headers of named blocks
def Handle.writtenBy (h : Handle) (records : List LogRecord) : Set Nat :=
  h.payloads records ∪
    {x | ∃ id ∈ namedIds records, ∃ obj, backendDirect h.backend id = some obj ∧ x ∈ span obj 32}

theorem updates_executed (rooms : h.Rooms) (known : i < h.txSlotsCount)
    (commited : h.status s i = TxStatus.commited.code) (log : SlotRecords s.pool.mem (h.slotAddr i) records)
    (fits : h.size s i ≤ h.backend.txSlotSize) (clean : CleanList (s.updIdList i))
    (blocks : NamedObjects h s.pool.mem (namedIds records)) (updates : ∀ r ∈ records, NamedUpdate h (namedIds records) r) :
    ∃ t, txSlotExecute h s (i + 1) = some (t, .ok) ∧
      ChangedIn (h.writtenBy records ∪ h.logArea) s.pool.mem t.pool.mem ∧
      ∀ id ∈ namedIds records,
        ∃ obj, HoldsObject h t.pool.mem id obj ((blockObject h s.pool.mem id).updated (updatesOf records id)) := by
  have layout := rooms.toLogLayout
  have room := rooms.data_room
  have start : Updating h s.pool.mem (namedIds records) i [] [] s := by
    refine ⟨fun r member => absurd member List.not_mem_nil, listHolds_nil clean.empty (clean.zeros 0 (by omega)),
      fun id member => absurd member List.not_mem_nil, fun k _ within => clean.zeros k within, fun _ _ => rfl,
      fun k below => ?_, fun id member obj direct => ?_, ChangedIn.refl _ _⟩
    · have none_used := clean.empty
      omega
    · rw [blockObject_eq direct]
      refine PartialBytes.ofBytes_heldAt fun k bound => ?_
      simp only [valueBytes, getElem_read]
  obtain ⟨walked, updated, walk, inv⟩ := start.run rooms blocks updates
  rw [List.nil_append] at inv
  have stored := inv.changed.mono (payloads_area inv.updates)
  have objects : ∀ k < (walked.updIdList i).count, ((walked.updIdList i).list k).id ∈ namedIds records := fun k below =>
    inv.members _ (inv.holds.mem_iff.mpr ⟨k, below, rfl⟩)
  obtain ⟨q, processed, headers, held⟩ := metaProcess_objects rooms (walked.updIdList i).list
    (fun k => (blockObject h s.pool.mem ((walked.updIdList i).list k).id).updated
      (updatesOf records ((walked.updIdList i).list k).id)) (walked.updIdList i).count 0 walked.pool
    (fun k _ upper => by
      have member := objects k (by omega)
      obtain ⟨obj, before⟩ := blocks.objects _ member
      obtain ⟨-, direct, -⟩ := backendGet_ok.mp before.found
      obtain ⟨-, name, -, key_len, -⟩ := blocks.header rooms member direct stored
      have value := inv.values _ member obj direct
      have bounded := inv.bounded blocks member
      have key_fits := before.key_fits
      simp only [blockObject_eq direct] at value bounded ⊢
      refine ⟨obj, direct, before.data, name, ?_, ?_, value, Nat.mod_lt _ (Nat.two_pow_pos 32), ?_, bounded⟩
      · simp only [Object.updated, dataObject, length_read, key_len]
      · simp only [Object.updated, dataObject, length_read]
        exact read_congr _ _ _ _ fun x lower upper =>
          stored x (blocks.outside rooms member direct ⟨by omega, by omega⟩)
      · simp only [Object.updated, dataObject, length_read]
        exact key_fits)
    (fun k _ upper => by
      rw [inv.elements k (by omega)]
      exact ⟨rfl, rfl⟩)
    (fun k l _ upper _ upper' other => by
      refine blocks.apart _ (objects k (by omega)) _ (objects l (by omega)) fun same => other ?_
      have distinct := inv.holds.distinct
      rw [← inv.holds.ids] at distinct
      exact List.inj_on_of_nodup_map distinct (List.mem_range.mpr (by omega)) (List.mem_range.mpr (by omega)) same)
  have executed := txSlotExecute_records layout known commited log fits
  rw [walk, Option.bind_some, txSlotMetaUpdProcess, processed, Option.map_some, Option.map_some] at executed
  have cleared := setZeroSlot_changed layout { walked with pool := q } i
  refine ⟨_, executed, ?_, fun id member => ?_⟩
  · -- the values, then the headers, then the header of the slot
    refine ChangedIn.trans (inv.changed.mono (Set.subset_union_left.trans Set.subset_union_left))
      (ChangedIn.trans (headers.mono ?_) (cleared.mono ((slotArea_log known).trans Set.subset_union_right)))
    rintro x ⟨k, -, upper, obj, direct, inside⟩
    exact Or.inl (Or.inr ⟨_, objects k (by omega), obj, direct, inside⟩)
  · have listed : id ∈ updated := by
      by_contra unlisted
      exact updatesOf_named.mpr member (inv.fresh id unlisted)
    obtain ⟨k, below, rfl⟩ := inv.holds.mem_iff.mp listed
    obtain ⟨obj, holds⟩ := held k (Nat.zero_le k) (by omega)
    exact ⟨obj, holds.log rooms.headerRooms (cleared.mono (slotArea_log known))⟩

theorem written_apart (layout : h.BlockLayout) {m : Mem} (blocks : NamedObjects h m (namedIds records))
    (updates : ∀ r ∈ records, NamedUpdate h (namedIds records) r) (j : Nat) (unnamed : j ∉ namedIds records) :
    Disjoint (h.writtenBy records) (h.blockAt j) := by
  have room := layout.data_room
  have inside : ∀ id ∈ namedIds records, ∀ obj, backendDirect h.backend id = some obj → ∀ x ∈ span obj h.backend.bsize,
      x ∉ h.blockAt j := by
    rintro id member obj direct x within ⟨addr, direct', within'⟩
    obtain ⟨_, before⟩ := blocks.objects id member
    have disjoint := layout.blocks_apart id j (fun same => unnamed (same ▸ member)) obj addr direct direct'
    rw [blockSize_data before.data] at disjoint
    exact Set.disjoint_left.mp disjoint within within'
  rw [Set.disjoint_left]
  rintro x (⟨r, listed, obj, direct, within⟩ | ⟨id, member, obj, direct, within⟩)
  · have update := updates r listed
    have fits := update.fits
    simp only [mem_span] at within
    exact inside _ update.member obj direct x ⟨by omega, by omega⟩
  · simp only [mem_span] at within
    exact inside id member obj direct x ⟨by omega, by omega⟩

-- the updates of a log are executed when what they write to is in no block that the log does not name. They are not
-- when such a block has the version of a named block, or a byte of a value that changes
theorem update_execution_apart (rooms : h.Rooms) (known : i < h.txSlotsCount)
    (commited : h.status s i = TxStatus.commited.code) (log : SlotRecords s.pool.mem (h.slotAddr i) records)
    (fits : h.size s i ≤ h.backend.txSlotSize) (clean : CleanList (s.updIdList i))
    (blocks : NamedObjects h s.pool.mem (namedIds records)) (updates : ∀ r ∈ records, NamedUpdate h (namedIds records) r) :
    ((∀ j, j ∉ namedIds records → Disjoint (h.writtenBy records) (h.blockAt j)) →
      ∃ t, txSlotExecute h s (i + 1) = some (t, .ok) ∧ UpdatesExecuted h s t records) ∧
    ∀ id ∈ namedIds records, ∀ j, j ∉ namedIds records → ∀ obj, backendDirect h.backend id = some obj →
      (span (obj + 16) 4 ⊆ h.blockAt j ∧ (updatesOf records id).length % 2 ^ 32 ≠ 0) ∨
        (∃ k < ((blockObject h s.pool.mem id).updated (updatesOf records id)).value.len, ∃ b,
          ((blockObject h s.pool.mem id).updated (updatesOf records id)).value.byte k = some b ∧
          obj + 32 + h.maxKeyLen + k ∈ h.blockAt j ∧ s.pool.mem (obj + 32 + h.maxKeyLen + k) ≠ b) →
      ¬∃ t, txSlotExecute h s (i + 1) = some (t, .ok) ∧ UpdatesExecuted h s t records := by
  constructor
  · intro apart
    obtain ⟨t, executed, changed, updated⟩ := updates_executed rooms known commited log fits clean blocks updates
    refine ⟨t, executed, updated, fun j unnamed x inside => changed x ?_⟩
    rintro (written | in_log)
    · exact Set.disjoint_left.mp (apart j unnamed) written inside
    · obtain ⟨addr, direct, within⟩ := inside
      have above := rooms.blocks_above j addr direct
      simp only [mem_span] at within
      simp only [Handle.logArea, Set.mem_ofPred_eq] at in_log
      omega
  · rintro id member j unnamed obj direct reached ⟨t, -, after⟩
    obtain ⟨obj', holds⟩ := after.updated id member
    have same := holds.direct
    rw [direct] at same
    cases same
    rcases reached with ⟨shared, counted⟩ | ⟨k, below, b, byte, shared, differs⟩
    · -- the version would be the old one and a later one
      have later := holds.version
      have kept : version t.pool.mem obj = version s.pool.mem obj :=
        word_congr _ _ _ _ fun x lower upper => after.others j unnamed x (shared ⟨lower, upper⟩)
      have bound : version s.pool.mem obj < 256 ^ 4 := word_lt _ _ _
      rw [kept, blockObject_eq direct] at later
      simp only [Object.updated, dataObject] at later
      omega
    · obtain ⟨_, before⟩ := blocks.objects id member
      have value := holds.value k below b byte
      rw [valueAddr_data _ _ before.data, after.others j unnamed _ shared] at value
      exact differs value

end Executions

-- block `id` has an object, and an update of its first byte has been committed
def committedUpdate (h : Handle) (id obj : Nat) : Store :=
  let begun := (pmbTxBegin h flatStore).1
  let held := { begun with pool := tputBlock h begun.pool obj none (onePair 0) }
  (pmbTxCommit h (pmbTput h held 1 (onePair id)).1 1).1

def committedRecord (h : Handle) (id obj : Nat) : LogRecord :=
  recordAt (committedUpdate h id obj).pool.mem (h.slotAddr 0 + sizeofTxSlot)

theorem committedUpdate_objects {h : Handle} {id obj : Nat} (named : namedIds [committedRecord h id obj] = {id})
    (before : OldData h (committedUpdate h id obj).pool.mem id obj) :
    NamedObjects h (committedUpdate h id obj).pool.mem (namedIds [committedRecord h id obj]) := by
  rw [named]
  refine ⟨fun j member => ?_, fun j member k member' other => ?_, ?_⟩
  · rw [Finset.mem_singleton.mp member]
    exact ⟨obj, before⟩
  · rw [Finset.mem_singleton] at member member'
    exact absurd (member.trans member'.symm) other
  · rw [Finset.card_singleton]
    decide

theorem update_execution_apart_sample :
    ∃ t, txSlotExecute flatHandle (committedUpdate flatHandle 1 139638110957568) 1 = some (t, .ok) ∧
      UpdatesExecuted flatHandle (committedUpdate flatHandle 1 139638110957568) t
        [committedRecord flatHandle 1 139638110957568] := by
  have direct : backendDirect flatHandle.backend 1 = some 139638110957568 := by decide +kernel
  have blocks := committedUpdate_objects
    (show namedIds [committedRecord flatHandle 1 139638110957568] = {1} by decide +kernel)
    ⟨backendGet_ok.mpr ⟨by decide, direct, by decide +kernel⟩, by decide +kernel, by decide +kernel, by decide +kernel⟩
  have in_place : (committedRecord flatHandle 1 139638110957568).entry.type = TxOp.updinplace.code := by decide +kernel
  have updates : ∀ r ∈ [committedRecord flatHandle 1 139638110957568],
      NamedUpdate flatHandle (namedIds [committedRecord flatHandle 1 139638110957568]) r := by
    intro r member
    rw [List.mem_singleton.mp member]
    exact ⟨in_place, by decide +kernel, by decide +kernel⟩
  have log : SlotRecords (committedUpdate flatHandle 1 139638110957568).pool.mem (flatHandle.slotAddr 0)
      [committedRecord flatHandle 1 139638110957568] := by
    refine And.intro rfl ?_
    change _ = _
    decide +kernel
  exact (update_execution_apart (i := 0) flatHandle_layout.rooms (by decide) (by decide +kernel) log (by decide +kernel)
    ⟨by decide +kernel, by decide +kernel⟩ blocks updates).1 (written_apart flatHandle_layout blocks updates)

-- blocks 2 and 3 of the sample pool are the same bytes. An update of one byte of block 2 changes the version of the
-- object in block 2, so it changes block 3, which the log does not name
theorem shared_block_changes :
    ∃ t, txSlotExecute metaHandle (committedUpdate metaHandle 2 139638110961664) 1 = some (t, .ok) ∧
      namedIds [committedRecord metaHandle 2 139638110961664] = {2} ∧
      NamedObjects metaHandle (committedUpdate metaHandle 2 139638110961664).pool.mem
        (namedIds [committedRecord metaHandle 2 139638110961664]) ∧
      ¬Untouched metaHandle 3 (committedUpdate metaHandle 2 139638110961664).pool.mem t.pool.mem ∧
      ¬UpdatesExecuted metaHandle (committedUpdate metaHandle 2 139638110961664) t
        [committedRecord metaHandle 2 139638110961664] := by
  have direct : backendDirect metaHandle.backend 2 = some 139638110961664 := by decide +kernel
  have direct' : backendDirect metaHandle.backend 3 = some 139638110961664 := by decide +kernel
  have named : namedIds [committedRecord metaHandle 2 139638110961664] = {2} := by decide +kernel
  have blocks := committedUpdate_objects named
    ⟨backendGet_ok.mpr ⟨by decide, direct, by decide +kernel⟩, by decide +kernel, by decide +kernel, by decide +kernel⟩
  have executed : (txSlotExecute metaHandle (committedUpdate metaHandle 2 139638110961664) 1).map (fun done =>
      (done.2, version done.1.pool.mem 139638110961664)) = some (.ok, 2) := by decide +kernel
  obtain ⟨⟨t, status⟩, done, result⟩ := Option.map_eq_some_iff.mp executed
  simp only [Prod.mk.injEq] at result
  obtain ⟨rfl, later⟩ := result
  have before : version (committedUpdate metaHandle 2 139638110961664).pool.mem 139638110961664 = 1 := by decide +kernel
  have changed : ¬Untouched metaHandle 3 (committedUpdate metaHandle 2 139638110961664).pool.mem t.pool.mem := by
    intro same
    have kept := (same.words direct' (by decide)).2.2.1
    rw [later, before] at kept
    cases kept
  refine ⟨t, done, named, blocks, changed, fun after => changed (after.others 3 ?_)⟩
  rw [named]
  decide

end PmBackend
