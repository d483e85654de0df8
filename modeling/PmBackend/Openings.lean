import PmBackend.GeometryExact
import PmBackend.HeaderPage

set_option autoImplicit false

namespace PmBackend

open ByteMemory

-- the system under `pmb_open`: where NVML maps the file, the size of its `struct pool_hdr`, and the checksum
structure Host where
  addr : Nat
  poolHdrSize : Nat
  isPmem : Bool
  checksum : List UInt8 → UInt64

-- `sizeof (struct _backend)`: its fields take 176 bytes behind the header of NVML
def Host.hdrSize (host : Host) : Nat := host.poolHdrSize + 176

-- a field of `struct _backend`, by its distance from the header of NVML
def Host.field (host : Host) (offset : Nat) : Nat := host.addr + host.poolHdrSize + offset

-- the fields that a later open reads from the file
def Host.readHdr (host : Host) (m : Mem) : PoolHdr where
  bsize := m.word (host.field 0) 4
  metaBsize := m.word (host.field 4) 4
  txSlotsCount := m.word (host.field 72) 1
  txSlotSize := m.word (host.field 80) 8

-- `pmem_msync` is given the size of the variable, not always that of the field
def Host.writeField (host : Host) (p : Pool) (offset : Nat) (bytes : List UInt8) (size : Nat) : Pool :=
  (p.store (host.field offset) bytes).emit (.persist (host.field offset) size)

def PmbOpts.hostArgs (opts : PmbOpts) (host : Host) : MapArgs := opts.mapArgs host.addr host.hdrSize host.isPmem

-- what `_backend_map_common` stores in a new file, in its order; the count of the slots comes last
def Host.startHdr (host : Host) (opts : PmbOpts) (p : Pool) : Pool :=
  let hdr := (opts.hostArgs host).createdHdr
  let p := host.writeField p 0 (encode 4 hdr.bsize) 8
  let p := host.writeField p 4 (encode 4 hdr.metaBsize) 8
  let p := host.writeField p 56 (encode 4 opts.maxKeyLen) 4
  let p := host.writeField p 60 (encode 4 opts.maxValLen) 4
  let p := host.writeField p 64 (encode 4 opts.metaMaxKeyLen) 4
  let p := host.writeField p 68 (encode 4 opts.metaMaxValLen) 4
  host.writeField p 80 (encode 8 hdr.txSlotSize) 8

def Host.createHdr (host : Host) (opts : PmbOpts) (p : Pool) : Pool :=
  (host.writeField (host.startHdr opts p) 72 (encode 1 opts.writeLogEntries) 1).emit (.persist host.addr host.hdrSize)

def Host.backend (host : Host) (opts : PmbOpts) (hdr : Option PoolHdr) : Except MapError Backend :=
  backendOpen opts host.addr host.hdrSize host.isPmem hdr

def PmbOpts.handle (opts : PmbOpts) (host : Host) (b : Backend) : Handle where
  backend := b
  maxKeyLen := opts.maxKeyLen
  maxValLen := opts.maxValLen
  metaMaxKeyLen := opts.metaMaxKeyLen
  metaMaxValLen := opts.metaMaxValLen
  txSlotsCount := opts.writeLogEntries
  checksum := host.checksum

-- how `pmb_open` ends on a file, or where there is none. It does not end where the process faults: in the division by
-- `write_log_entries`, or in recovery
inductive PmbOpen (host : Host) (opts : PmbOpts) (heap : Nat → Nat → TxMeta) :
    Option Mem → Except Status (Handle × Store) → Prop where
  | nonempty {m : Mem} {b : Backend} {s initial s' : Store}
      (opened : host.backend opts (some (host.readHdr m)) = .ok b) (file : s.pool.mem = m)
      (init : txLogInit (opts.handle host b) s heap = some initial)
      (existing : OpenExisting (opts.handle host b) initial s') :
      PmbOpen host opts heap (some m) (.ok (opts.handle host b, s'))
  -- the file is there, so `backend_create` fails, too
  | refused {m : Mem} (opened : host.backend opts (some (host.readHdr m)) = .error .einval) :
      PmbOpen host opts heap (some m) (.error .ecreat)
  -- NVML makes a file of zeros
  | empty {b : Backend} {s initial : Store} (size : PMB_MIN_POOL ≤ u64 (opts.dataSize + opts.metaSize))
      (created : host.backend opts none = .ok b) (file : s.pool = host.createHdr opts ⟨fun _ => 0, []⟩)
      (init : txLogInit (opts.handle host b) s heap = some initial) :
      PmbOpen host opts heap none (.ok (opts.handle host b, openEmpty (opts.handle host b) initial))
  | uncreated (entries : opts.writeLogEntries ≠ 0)
      (failed : u64 (opts.dataSize + opts.metaSize) < PMB_MIN_POOL ∨ host.backend opts none = .error .einval) :
      PmbOpen host opts heap none (.error .ecreat)

-- options that give a whole layout: the data region has the null block, and the first meta block, which lies before
-- its region, does not reach back into the log
structure PmbOpts.Serves (opts : PmbOpts) (host : Host) : Prop extends
    opts.NewFile host.addr host.hdrSize, opts.Exact host.hdrSize where
  few_slots : opts.writeLogEntries < 255
  regions : ∀ b, host.backend opts none = .ok b →
    1 ≤ b.dataNlba ∧ (b.metaNlba = 0 ∨ b.metaBsize ≤ b.dataNlba * b.bsize)

section Serves

variable {opts : PmbOpts} {host : Host} {b : Backend} {m : Mem}

theorem PmbOpts.Serves.creates (serves : opts.Serves host) :
    ∃ b, host.backend opts none = .ok b ∧ b.ExactlyLaid opts host.addr host.hdrSize :=
  serves.toExact.laid serves.toNewFile host.isPmem

theorem PmbOpts.Serves.laid (serves : opts.Serves host) (created : host.backend opts none = .ok b) :
    b.ExactlyLaid opts host.addr host.hdrSize := by
  obtain ⟨b', created', laid⟩ := serves.creates
  cases created.symm.trans created'
  exact laid

theorem PmbOpts.Serves.maps (serves : opts.Serves host) (created : host.backend opts none = .ok b) :
    backendMapCommon (opts.hostArgs host) none = .ok b := by
  unfold Host.backend backendOpen at created
  rwa [if_neg serves.some_slot] at created

theorem PmbOpts.Serves.rooms (serves : opts.Serves host) (created : host.backend opts none = .ok b) :
    (opts.handle host b).Rooms := by
  obtain ⟨null_block, first_meta⟩ := serves.regions b created
  have laid := serves.laid created
  have mapped := serves.maps created
  have noWrap : (opts.hostArgs host).NoWrap := serves.toExact.noWrap serves.toNewFile host.isPmem
  obtain ⟨-, -, slot, -⟩ := serves.toNewFile.sizes host.isPmem
  have slot_eq : roundup (opts.hostArgs host).txSlotSize PMB_FORMAT_DATA_ALIGN = opts.slotBytes := slot
  have some_slot := serves.some_slot
  have few := serves.few_slots
  have slot_room : 24 ≤ opts.slotBytes := by
    have share : 128 * 1024 * 1024 / 255 ≤ TX_LOG_SIZE / opts.writeLogEntries :=
      Nat.div_le_div (le_refl _) (by omega) some_slot
    have rounded := alignUp_ge (TX_LOG_SIZE / opts.writeLogEntries)
    unfold PmbOpts.slotBytes
    omega
  have layout : (opts.handle host b).LogLayout :=
    Backend.Mapped.logLayout noWrap mapped rfl (Nat.pos_of_ne_zero some_slot) few (by rw [slot_eq]; exact slot_room)
      (by rw [slot_eq]; exact opts.slotBytes_small) first_meta
  have data := alignUp_ge (sizeofDataHdr + opts.maxKeyLen + opts.maxValLen)
  have metadata := alignUp_ge (sizeofDataHdr + opts.metaMaxKeyLen + opts.metaMaxValLen)
  exact
    { layout with
      null_block := null_block
      fit := (backendMapCommon_mapped noWrap mapped).ids_lt
      data_room := data.trans_eq laid.bsize_eq.symm
      meta_room := metadata.trans_eq laid.metaBsize_eq.symm
      bsize_small := laid.bsize_eq.trans_lt serves.block_small
      metaBsize_small := laid.metaBsize_eq.trans_lt serves.metaBlock_small }

theorem PmbOpts.Serves.page (serves : opts.Serves host) (created : host.backend opts none = .ok b) :
    host.addr + host.hdrSize ≤ b.txLog := by
  have laid := serves.laid created
  have rounded := alignUp_ge host.hdrSize
  rw [laid.txLog_eq]
  omega

theorem backendMapCommon_some {args : MapArgs} {hdr : PoolHdr}
    (bsize : hdr.bsize = roundup args.bsize PMB_FORMAT_DATA_ALIGN)
    (metaBsize : hdr.metaBsize = roundup args.metaBsize PMB_FORMAT_DATA_ALIGN) :
    backendMapCommon args (some hdr) = backendLayout args hdr (roundup args.txSlotSize PMB_FORMAT_DATA_ALIGN) := by
  unfold backendMapCommon
  simp only
  rw [if_neg fun other => other.2 bsize.symm, if_neg fun other => other.2 metaBsize.symm]

theorem PmbOpts.Serves.again (serves : opts.Serves host) :
    host.backend opts (some (opts.hostArgs host).createdHdr) = host.backend opts none := by
  obtain ⟨data, metadata, slot, -⟩ := serves.toNewFile.sizes host.isPmem
  have bsize : (opts.hostArgs host).createdHdr.bsize = roundup (opts.hostArgs host).bsize PMB_FORMAT_DATA_ALIGN := by
    change u32 (roundup (opts.hostArgs host).bsize PMB_FORMAT_DATA_ALIGN) = _
    exact u32_of_lt (data.trans_lt serves.block_small)
  have metaBsize : (opts.hostArgs host).createdHdr.metaBsize =
      roundup (opts.hostArgs host).metaBsize PMB_FORMAT_DATA_ALIGN := by
    change u32 (roundup (opts.hostArgs host).metaBsize PMB_FORMAT_DATA_ALIGN) = _
    exact u32_of_lt (metadata.trans_lt serves.metaBlock_small)
  have created := serves.toNewFile.opened host.isPmem serves.some_slot
  have opened := backendMapCommon_some bsize metaBsize
  unfold Host.backend
  rw [created, backendOpen, if_neg serves.some_slot]
  refine opened.trans ?_
  rw [PmbOpts.hostArgs, slot, MapArgs.createdHdr, data, metadata, slot]
  rfl

end Serves

section Headers

variable {opts : PmbOpts} {host : Host} {p : Pool} {m m' : Mem}

theorem Host.writeField_word (host : Host) (p : Pool) (offset : Nat) (bytes : List UInt8) (size : Nat) {other width : Nat}
    (apart : offset + bytes.length ≤ other ∨ other + width ≤ offset) :
    (host.writeField p offset bytes size).mem.word (host.field other) width = p.mem.word (host.field other) width :=
  word_write_disjoint _ _ _ _ _ (by unfold Host.field; omega)

theorem Host.writeField_same (host : Host) (p : Pool) (offset width value size : Nat) :
    (host.writeField p offset (encode width value) size).mem.word (host.field offset) width = value % 256 ^ width :=
  word_write_same _ _ _ _

theorem Host.readHdr_congr (host : Host) {start : Nat} (page : host.addr + host.hdrSize ≤ start)
    (changed : ChangedIn {x | start ≤ x} m m') : host.readHdr m' = host.readHdr m := by
  have words : ∀ offset width, offset + width ≤ 176 →
      m'.word (host.field offset) width = m.word (host.field offset) width := by
    intro offset width inside
    refine word_congr m m' _ _ fun x lower upper => changed x ?_
    unfold Host.field at upper
    unfold Host.hdrSize at page
    change ¬start ≤ x
    omega
  unfold Host.readHdr
  rw [words 0 4 (by decide), words 4 4 (by decide), words 72 1 (by decide), words 80 8 (by decide)]

theorem createHdr_reads (slots : opts.writeLogEntries < 2 ^ 8) (p : Pool) :
    host.readHdr (host.createHdr opts p).mem = (opts.hostArgs host).createdHdr := by
  have four : ∀ n, u32 n % 256 ^ 4 = u32 n := fun n => Nat.mod_eq_of_lt (u32_lt n)
  have eight : ∀ n, u32 n % 256 ^ 8 = u32 n := fun n => Nat.mod_eq_of_lt ((u32_lt n).trans (by decide))
  have one : opts.writeLogEntries % 256 ^ 1 = opts.writeLogEntries := Nat.mod_eq_of_lt slots
  unfold Host.readHdr Host.createHdr Host.startHdr
  simp (disch := simp) only [Pool.emit_mem, Host.writeField_word, Host.writeField_same, MapArgs.createdHdr, four, eight, one]
  rfl

-- bytes of the header page, but for the count of the slots
def Host.pageBut (host : Host) : Set Nat := {x | x ≠ host.field 72 ∧ x < host.addr + host.hdrSize}

theorem Keeps.hdrField {area : Set Nat} {q : Pool} {m₀ : Mem} (keeps : Keeps ∅ (ChangedIn area m₀) p q) (host : Host)
    (offset width value size : Nat) (inside : span (host.field offset) width ⊆ area) :
    Keeps ∅ (ChangedIn area m₀) p (host.writeField q offset (encode width value) size) :=
  (keeps.inside _ _ (by rwa [length_encode])).emit fun _ _ => Event.noConfusion

theorem Host.span_pageBut (host : Host) {offset width : Nat}
    (inside : offset + width ≤ 72 ∨ 73 ≤ offset ∧ offset + width ≤ 176) :
    span (host.field offset) width ⊆ host.pageBut := by
  intro x member
  rw [mem_span] at member
  unfold Host.field at member
  change x ≠ host.addr + host.poolHdrSize + 72 ∧ x < host.addr + (host.poolHdrSize + 176)
  omega

theorem startHdr_keeps (host : Host) (opts : PmbOpts) (p : Pool) :
    Keeps ∅ (ChangedIn host.pageBut p.mem) p (host.startHdr opts p) := by
  have page : ∀ {offset width : Nat}, offset + width ≤ 72 ∨ 73 ≤ offset ∧ offset + width ≤ 176 →
      span (host.field offset) width ⊆ host.pageBut := host.span_pageBut
  have start : Keeps ∅ (ChangedIn host.pageBut p.mem) p p := Keeps.refl (ChangedIn.refl _ _)
  have sizes := (start.hdrField host 0 4 (opts.hostArgs host).createdHdr.bsize 8 (page (by decide))).hdrField host 4 4
    (opts.hostArgs host).createdHdr.metaBsize 8 (page (by decide))
  have lens := (sizes.hdrField host 56 4 opts.maxKeyLen 4 (page (by decide))).hdrField host 60 4 opts.maxValLen 4
    (page (by decide))
  have metaLens := (lens.hdrField host 64 4 opts.metaMaxKeyLen 4 (page (by decide))).hdrField host 68 4
    opts.metaMaxValLen 4 (page (by decide))
  exact metaLens.hdrField host 80 8 _ 8 (page (by decide))

theorem createHdr_changed (host : Host) (opts : PmbOpts) (p : Pool) :
    ChangedIn {x | x < host.addr + host.hdrSize} p.mem (host.createHdr opts p).mem := by
  have most := (startHdr_keeps host opts p).last.mono fun x inside => inside.2
  refine most.thenWrite _ _ fun x member => ?_
  rw [mem_span, length_encode] at member
  unfold Host.field at member
  change x < host.addr + (host.poolHdrSize + 176)
  omega

end Headers

section Outcomes

variable {opts : PmbOpts} {host : Host} {b : Backend} {m : Mem} {heap : Nat → Nat → TxMeta}
  {outcome : Except Status (Handle × Store)}

theorem PmbOpen.opened_iff (opened : host.backend opts (some (host.readHdr m)) = .ok b) {s : Store}
    (file : s.pool.mem = m) :
    PmbOpen host opts heap (some m) outcome ↔
      ∃ s', outcome = .ok (opts.handle host b, s') ∧ Reopens (opts.handle host b) heap s s' := by
  constructor
  · intro opens
    cases opens with
    | nonempty opened' file' init existing =>
      cases opened.symm.trans opened'
      exact ⟨_, rfl, _, _, file'.trans file.symm, init, existing⟩
    | refused opened' =>
      rw [opened] at opened'
      cases opened'
  · rintro ⟨s', rfl, mapped, initial, file', init, existing⟩
    exact .nonempty opened (file'.trans file) init existing

theorem PmbOpen.existing_iff (serves : opts.Serves host) (created : host.backend opts none = .ok b)
    (header : host.readHdr m = (opts.hostArgs host).createdHdr) {s : Store} (file : s.pool.mem = m) :
    PmbOpen host opts heap (some m) outcome ↔
      ∃ s', outcome = .ok (opts.handle host b, s') ∧ Reopens (opts.handle host b) heap s s' :=
  PmbOpen.opened_iff (by rw [header, serves.again, created]) file

end Outcomes

end PmBackend
