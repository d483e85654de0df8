import PmBackend.StoreHistories

set_option autoImplicit false

namespace PmBackend

open ByteMemory DeferredLog Interleaving

-- no call of any run succeeds, and none stores a byte
def Barren (h : Handle) (s : Store) : Prop :=
  ∀ calls, ∃ s' rets, runCalls h s calls = some (s', rets) ∧ s'.pool = s.pool ∧ ∀ ret ∈ rets, ret.status ≠ .ok

section Barren

variable {h : Handle} {s s' : Store} {txSlot : Nat} {kv : PmbPair}

theorem txDirect_slotless (slotless : h.backend.txSlotsCount = 0) (i : Nat) : backendTxDirect h.backend i = none := by
  rw [backendTxDirect, slotless, if_neg (Nat.not_lt_zero i)]

theorem LogOp.run_slotless (slotless : h.backend.txSlotsCount = 0) (s : Store) (txSlot : Nat) (op : LogOp) :
    op.run h s txSlot = (s, .err) := by
  rw [LogOp.run_eq, txSlotAppend, txDirect_slotless slotless]

theorem tputNewBlock_slotless (slotless : h.backend.txSlotsCount = 0) (s : Store) (txSlot : Nat) (kv : PmbPair)
    (old : Option Nat) : (tputNewBlock h s txSlot kv old).1.pool = s.pool ∧ (tputNewBlock h s txSlot kv old).2.1 ≠ .ok := by
  have enospc : Status.enospc ≠ .ok := by decide
  have err : Status.err ≠ .ok := by decide
  unfold tputNewBlock
  simp only [logNewBlock_op, LogOp.run_slotless slotless]
  split
  · exact ⟨rfl, enospc⟩
  · split <;> exact ⟨rfl, err⟩

theorem tputMetaNewBlock_slotless (slotless : h.backend.txSlotsCount = 0) (s : Store) (txSlot : Nat) (kv : PmbPair)
    (old : Option Nat) :
    (tputMetaNewBlock h s txSlot kv old).1.pool = s.pool ∧ (tputMetaNewBlock h s txSlot kv old).2.1 ≠ .ok := by
  have enospc : Status.enospc ≠ .ok := by decide
  have err : Status.err ≠ .ok := by decide
  unfold tputMetaNewBlock
  simp only [logNewBlock_op, LogOp.run_slotless slotless]
  split
  · exact ⟨rfl, enospc⟩
  · split <;> exact ⟨rfl, err⟩

theorem pmbTput_slotless (slotless : h.backend.txSlotsCount = 0) (s : Store) (txSlot : Nat) (kv : PmbPair) :
    (pmbTput h s txSlot kv).1.pool = s.pool ∧ (pmbTput h s txSlot kv).2.1 ≠ .ok := by
  have eargs : Status.eargs ≠ .ok := by decide
  have esize : Status.esize ≠ .ok := by decide
  have err : Status.err ≠ .ok := by decide
  have enoent : Status.enoent ≠ .ok := by decide
  unfold pmbTput
  split
  · exact ⟨rfl, eargs⟩
  · split
    · exact ⟨rfl, esize⟩
    · split
      · have logs := (LogOp.smallUpdate kv.blkId kv.valBytes kv.offset).run_slotless slotless s txSlot
        have logs : txSlotOpSmallUpdate h s txSlot kv.blkId kv.valBytes kv.offset = (s, .err) := logs
        rw [logs]
        exact ⟨rfl, err⟩
      · split
        · split
          · exact ⟨rfl, enoent⟩
          · exact tputNewBlock_slotless slotless s txSlot kv _
        · exact tputNewBlock_slotless slotless s txSlot kv none

theorem pmbTputMeta_slotless (slotless : h.backend.txSlotsCount = 0) (s : Store) (txSlot : Nat) (kv : PmbPair) :
    (pmbTputMeta h s txSlot kv).1.pool = s.pool ∧ (pmbTputMeta h s txSlot kv).2.1 ≠ .ok := by
  have eargs : Status.eargs ≠ .ok := by decide
  have esize : Status.esize ≠ .ok := by decide
  have ewrgid : Status.ewrgid ≠ .ok := by decide
  have enoent : Status.enoent ≠ .ok := by decide
  unfold pmbTputMeta
  split
  · exact ⟨rfl, eargs⟩
  · split
    · exact ⟨rfl, esize⟩
    · split
      · exact ⟨rfl, ewrgid⟩
      · split
        · split
          · exact ⟨rfl, enoent⟩
          · exact tputMetaNewBlock_slotless slotless s txSlot kv _
        · exact tputMetaNewBlock_slotless slotless s txSlot kv none

theorem runCall_slotless (slotless : h.backend.txSlotsCount = 0)
    (dead : ∀ id obj, backendGet h s.pool.mem id ≠ .ok obj) (call : Call) :
    ∃ s' ret, runCall h s call = some (s', ret) ∧ s'.pool = s.pool ∧ ret.status ≠ .ok := by
  have err : Status.err ≠ .ok := by decide
  have eargs : Status.eargs ≠ .ok := by decide
  have direct := txDirect_slotless slotless
  cases call with
  | txBegin =>
    refine ⟨_, _, rfl, ?_⟩
    unfold pmbTxBegin
    simp only
    split
    · exact ⟨rfl, err⟩
    · unfold txSlotInit
      rw [direct]
      split <;> exact ⟨rfl, err⟩
  | tput txSlot kv => exact ⟨_, _, rfl, pmbTput_slotless slotless s txSlot kv⟩
  | tputMeta txSlot kv => exact ⟨_, _, rfl, pmbTputMeta_slotless slotless s txSlot kv⟩
  | tdel txSlot blkId =>
    refine ⟨_, _, rfl, ?_⟩
    unfold pmbTdel
    split
    · exact ⟨rfl, eargs⟩
    · have logs : txSlotOpRemove h s txSlot blkId = (s, .err) := (LogOp.remove blkId).run_slotless slotless s txSlot
      rw [logs]
      exact ⟨rfl, err⟩
  | txCommit txSlot =>
    refine ⟨_, _, rfl, ?_⟩
    unfold pmbTxCommit txSlotCommit
    simp only [direct]
    split
    · exact ⟨rfl, eargs⟩
    · exact ⟨rfl, err⟩
  | txExecute txSlot =>
    have executes : ∃ t status, pmbTxExecute h s txSlot = some (t, status) ∧ t.pool = s.pool ∧ status ≠ .ok := by
      unfold pmbTxExecute txSlotExecute
      rw [direct]
      split
      · exact ⟨_, _, rfl, rfl, eargs⟩
      · exact ⟨_, _, rfl, rfl, err⟩
    obtain ⟨t, status, run, pool, failed⟩ := executes
    exact ⟨t, ⟨status, txSlot, 0⟩, by rw [runCall, run, Option.map_some], pool, failed⟩
  | txAbort txSlot =>
    refine ⟨_, _, rfl, ?_⟩
    unfold pmbTxAbort txSlotAbort
    simp only [direct]
    split
    · exact ⟨rfl, eargs⟩
    · exact ⟨rfl, err⟩
  | resolveConflict blkId1 blkId2 =>
    obtain ⟨error, missing⟩ : ∃ error, backendGet h s.pool.mem blkId1 = .error error := by
      cases found : backendGet h s.pool.mem blkId1 with
      | error error => exact ⟨error, rfl⟩
      | ok obj => exact absurd found (dead blkId1 obj)
    refine ⟨_, _, rfl, ?_⟩
    unfold pmbResolveConflict resolveStatus
    rw [missing]
    exact ⟨rfl, err⟩

theorem barren_slotless (slotless : h.backend.txSlotsCount = 0)
    (dead : ∀ id obj, backendGet h s.pool.mem id ≠ .ok obj) : Barren h s := by
  intro calls
  induction calls generalizing s with
  | nil => exact ⟨s, [], rfl, rfl, fun ret member => absurd member List.not_mem_nil⟩
  | cons call rest ih =>
    obtain ⟨next, ret, run, pool, failed⟩ := runCall_slotless slotless dead call
    obtain ⟨s', rets, later, pool', all⟩ := ih (s := next) (by rwa [pool])
    refine ⟨s', ret :: rets, by rw [runCalls, run, Option.bind_some, later, Option.map_some], pool'.trans pool, ?_⟩
    intro ret' member
    rcases List.mem_cons.mp member with rfl | member
    · exact failed
    · exact all ret' member

end Barren

section Unfinished

variable {h : Handle} {s s' : Store} {heap : Nat → Nat → TxMeta}

theorem checkSlots_slotless (slotless : h.backend.txSlotsCount = 0) (few : h.txSlotsCount < 255) (rounds i : Nat)
    (bound : i ≤ h.txSlotsCount + 1) (enough : h.txSlotsCount + 2 ≤ rounds + i) (s : Store) :
    checkSlots h rounds i s = some s := by
  induction rounds generalizing i with
  | zero => omega
  | succ rounds ih =>
    unfold checkSlots
    split
    · have next : (i + 1) % 2 ^ 8 = i + 1 := Nat.mod_eq_of_lt (by omega)
      rw [checkSlot, txDirect_slotless slotless, Option.bind_some, next]
      exact ih (i + 1) (by omega) (by omega)
    · rfl

theorem reopens_slotless (slotless : h.backend.txSlotsCount = 0) (few : h.txSlotsCount < 255)
    (heap : Nat → Nat → TxMeta) (s : Store) :
    (∃ s', Reopens h heap s s') ∧ ∀ s', Reopens h heap s s' → s'.pool.mem = s.pool.mem := by
  have checks : ∀ initial, txLogCheck h initial = some initial := fun initial =>
    checkSlots_slotless slotless few (2 ^ 8) 1 (by omega) (by omega) initial
  constructor
  · obtain ⟨initial, init⟩ := txLogInit_ends few s heap
    exact ⟨_, s, _, rfl, init, _, checks _, _, interleaves_flatten _, rfl⟩
  · rintro s' ⟨mapped, initial, bytes, init, checked, check, pushes, -, rfl⟩
    cases (checks initial).symm.trans check
    rw [foldl_recoveryPush_pool, ← bytes]
    obtain ⟨list, -, rfl⟩ := Option.map_eq_some_iff.mp init
    rfl

end Unfinished

section Creations

-- a handle as `malloc` returns it
def blankStore : Store := ⟨⟨fun _ => 0, []⟩, none, none, none, none, none, fun _ => ⟨0, fun _ => ⟨0, 0, 0⟩⟩⟩

variable {host : Host} {opts : PmbOpts} {b : Backend} {m : Mem} {heap : Nat → Nat → TxMeta}

-- the header page without the count of the slots, and zeros behind it
structure Unfinished (host : Host) (m : Mem) : Prop where
  slotless : (host.readHdr m).txSlotsCount = 0
  zeros : ∀ x, host.addr + host.hdrSize ≤ x → m x = 0

theorem createHdr_stopped (host : Host) (opts : PmbOpts)
    (killed : m ∈ stopsDuring ∅ (fun _ => 0) (host.createHdr opts ⟨fun _ => 0, []⟩).events) :
    Unfinished host m ∨ m = (host.createHdr opts ⟨fun _ => 0, []⟩).mem := by
  have unfinished : ∀ m, ChangedIn host.pageBut (fun _ => 0) m → Unfinished host m := by
    intro m changed
    refine ⟨word_of_zeros _ _ _ fun x lower upper => changed x fun inside => inside.1 (by omega),
      fun x above => changed x fun inside => Nat.not_le.mpr inside.2 above⟩
  have most : Keeps ∅ (fun m => Unfinished host m ∨ m = (host.createHdr opts ⟨fun _ => 0, []⟩).mem) ⟨fun _ => 0, []⟩
      (host.startHdr opts ⟨fun _ => 0, []⟩) :=
    (startHdr_keeps host opts ⟨fun _ => 0, []⟩).mono fun m changed => Or.inl (unfinished m changed)
  have last := unfinished _ (startHdr_keeps host opts ⟨fun _ => 0, []⟩).last
  have all : Keeps ∅ (fun m => Unfinished host m ∨ m = (host.createHdr opts ⟨fun _ => 0, []⟩).mem) ⟨fun _ => 0, []⟩
      (host.createHdr opts ⟨fun _ => 0, []⟩) := by
    refine ((most.store (host.field 72) (encode 1 opts.writeLogEntries) fun count _ => ?_).emit
      fun _ _ => Event.noConfusion).emit fun _ _ => Event.noConfusion
    -- one byte is stored, or none
    rcases Nat.eq_zero_or_pos count with rfl | positive
    · rw [List.take_zero, write_nil]
      exact Or.inl last
    · rw [List.take_of_length_le (by rw [length_encode]; exact positive)]
      exact Or.inr rfl
  obtain ⟨later, events, -, held⟩ := all
  have same : later = (host.createHdr opts ⟨fun _ => 0, []⟩).events := (events.trans (List.append_nil later)).symm
  exact held m (by rwa [same])

theorem backendLayout_slots {args : MapArgs} {hdr hdr' : PoolHdr} {slotSize : Nat} (bsize : hdr'.bsize = hdr.bsize)
    (metaBsize : hdr'.metaBsize = hdr.metaBsize) (laid : backendLayout args hdr slotSize = .ok b) :
    backendLayout args hdr' slotSize =
      .ok { b with txSlotsCount := hdr'.txSlotsCount, txSlotSize := hdr'.txSlotSize } := by
  unfold backendLayout at laid ⊢
  rw [bsize, metaBsize]
  split at laid
  · cases laid
  · next sizes =>
    cases laid
    rw [if_neg sizes]

theorem PmbOpts.Serves.header_cases (serves : opts.Serves host) (created : host.backend opts none = .ok b)
    (hdr : PoolHdr) :
    host.backend opts (some hdr) = .error .einval ∨ host.backend opts (some hdr) =
      .ok { b with txSlotsCount := hdr.txSlotsCount, txSlotSize := hdr.txSlotSize } := by
  obtain ⟨data, metadata, slot, -⟩ := serves.toNewFile.sizes host.isPmem
  obtain ⟨positive, meta_positive⟩ := opts.blockBytes_pos
  rw [Host.backend, serves.toNewFile.opened host.isPmem serves.some_slot, u32_of_lt serves.block_small,
    u32_of_lt serves.metaBlock_small] at created
  unfold Host.backend backendOpen
  rw [if_neg serves.some_slot]
  by_cases bsize : hdr.bsize = opts.blockBytes
  · by_cases metaBsize : hdr.metaBsize = opts.metaBlockBytes
    · right
      rw [backendMapCommon_some (bsize.trans data.symm) (metaBsize.trans metadata.symm), slot]
      exact backendLayout_slots bsize metaBsize created
    · left
      unfold backendMapCommon
      simp only [data, metadata]
      rw [if_neg fun other => other.2 bsize.symm, if_pos ⟨meta_positive, Ne.symm metaBsize⟩]
  · left
    unfold backendMapCommon
    simp only [data]
    rw [if_pos ⟨positive, Ne.symm bsize⟩]

end Creations

-- a `pmb_open` that is killed while it creates the store leaves a file that is refused for good, one on which no call
-- ever succeeds, or a store as good as new, with exact free lists
theorem killed_creation {host : Host} {opts : PmbOpts} (serves : opts.Serves host) {b : Backend}
    (created : host.backend opts none = .ok b) {m : Mem}
    (killed : m ∈ stopsDuring ∅ (fun _ => 0) (host.createHdr opts ⟨fun _ => 0, []⟩).events) {heap : Nat → Nat → TxMeta}
    (clean : ∀ i < opts.writeLogEntries, ∀ k < 128, (heap i k).id = 0) :
    (∃ outcome, PmbOpen host opts heap (some m) outcome) ∧
      ∀ outcome, PmbOpen host opts heap (some m) outcome →
        (host.readHdr m = (opts.hostArgs host).createdHdr → ∃ s, outcome = .ok (opts.handle host b, s) ∧
          Recoverable (opts.handle host b) s ∧ Shows (opts.handle host b) s fun _ => none) ∧
        (host.readHdr m ≠ (opts.hostArgs host).createdHdr → outcome = .error .ecreat ∨
          ∃ h s, outcome = .ok (h, s) ∧ Barren h s) := by
  have rooms := serves.rooms created
  have page := serves.page created
  rcases createHdr_stopped host opts killed with unfinished | rfl
  · have other : host.readHdr m ≠ (opts.hostArgs host).createdHdr := by
      intro same
      have count : (host.readHdr m).txSlotsCount = opts.writeLogEntries := congrArg PoolHdr.txSlotsCount same
      exact serves.some_slot (count.symm.trans unfinished.slotless)
    rcases serves.header_cases created (host.readHdr m) with refused | opened
    · refine ⟨⟨_, .refused refused⟩, fun outcome opens => ⟨fun same => absurd same other, fun _ => Or.inl ?_⟩⟩
      cases opens with
      | nonempty opened => cases refused.symm.trans opened
      | refused => rfl
    · rw [unfinished.slotless] at opened
      obtain ⟨⟨s, reopens⟩, kept⟩ := reopens_slotless
        (h := opts.handle host { b with txSlotsCount := 0, txSlotSize := (host.readHdr m).txSlotSize }) rfl serves.few_slots
        heap (blankStore.crashed m)
      refine ⟨⟨_, (PmbOpen.opened_iff opened rfl).mpr ⟨s, rfl, reopens⟩⟩, fun outcome opens =>
        ⟨fun same => absurd same other, fun _ => Or.inr ?_⟩⟩
      obtain ⟨s', rfl, reopens'⟩ := (PmbOpen.opened_iff opened (s := blankStore.crashed m) rfl).mp opens
      refine ⟨_, s', rfl, barren_slotless rfl fun id obj get => ?_⟩
      obtain ⟨-, direct, live⟩ := backendGet_ok.mp get
      have direct : backendDirect b id = some obj := direct
      have above : b.txLog ≤ obj := rooms.toLogLayout.direct_above direct
      rw [kept s' reopens'] at live
      exact live (word_of_zeros _ _ _ fun x lower _ => unfinished.zeros x (by omega))
  · have header : host.readHdr (host.createHdr opts ⟨fun _ => 0, []⟩).mem = (opts.hostArgs host).createdHdr :=
      createHdr_reads serves.slots_lt _
    obtain ⟨made, file⟩ : ∃ made : Store, made.pool.mem = (host.createHdr opts ⟨fun _ => 0, []⟩).mem :=
      ⟨blankStore.crashed _, rfl⟩
    have zeros : ∀ x, b.txLog ≤ x → made.pool.mem x = 0 := fun x above => by
      rw [file]
      exact createHdr_changed host opts _ x fun inside => Nat.not_le.mpr inside (page.trans above)
    obtain ⟨initial, init⟩ := txLogInit_ends (h := opts.handle host b) serves.few_slots made heap
    have settled := settled_created rooms zeros clean init
    have bytes : (openEmpty (opts.handle host b) initial).pool.mem = (host.createHdr opts ⟨fun _ => 0, []⟩).mem := by
      rw [openEmpty_pool, (txLogInit_spec rooms.toLogLayout init).1, file]
    obtain ⟨⟨s, reopens⟩, exact⟩ := settled_reopens rooms settled clean
    have empty : shownObjects (opts.handle host b) made.pool.mem = fun _ => none :=
      funext (zeros_shown rooms.toLogLayout zeros)
    refine ⟨⟨_, (PmbOpen.existing_iff serves created header bytes).mpr ⟨s, rfl, reopens⟩⟩, fun outcome opens =>
      ⟨fun _ => ?_, fun other => absurd header other⟩⟩
    obtain ⟨s', rfl, reopens'⟩ := (PmbOpen.existing_iff serves created header bytes).mp opens
    obtain ⟨ready, shows⟩ := exact s' reopens'
    rw [bytes, ← file, empty] at shows
    exact ⟨s', rfl, ready, shows⟩

-- everything is stored but the count of the slots
def cutHdr : Mem := afterEvents (fun _ => 0) ((twoSlotHost.createHdr twoSlotOpts ⟨fun _ => 0, []⟩).events.drop 3)

theorem killed_creation_sample : ∃ h s,
    PmbOpen twoSlotHost twoSlotOpts (fun _ _ => ⟨0, 0, 0⟩) (some cutHdr) (.ok (h, s)) ∧ Barren h s := by
  have header : twoSlotHost.readHdr cutHdr = ⟨4096, 4096, 0, 67108864⟩ := by decide +kernel
  have complete : (twoSlotOpts.hostArgs twoSlotHost).createdHdr = ⟨4096, 4096, 2, 67108864⟩ := by decide +kernel
  have other : twoSlotHost.readHdr cutHdr ≠ (twoSlotOpts.hostArgs twoSlotHost).createdHdr := by
    rw [header, complete]
    decide
  have opened : twoSlotHost.backend twoSlotOpts (some ⟨4096, 4096, 0, 67108864⟩) =
      .ok { twoSlotHandle.backend with txSlotsCount := 0 } := by decide +kernel
  have killed : cutHdr ∈ stopsDuring ∅ (fun _ => 0) (twoSlotHost.createHdr twoSlotOpts ⟨fun _ => 0, []⟩).events :=
    mem_stopsDuring_drop ∅ _ _ 3
  have clean : ∀ i < twoSlotOpts.writeLogEntries, ∀ k < 128, ((fun _ _ => ⟨0, 0, 0⟩ : Nat → Nat → TxMeta) i k).id = 0 :=
    fun _ _ _ _ => rfl
  obtain ⟨⟨outcome, opens⟩, ends⟩ := killed_creation twoSlotOpts_serves twoSlotOpts_created killed clean
  rcases (ends outcome opens).2 other with rfl | ⟨h, s, rfl, barren⟩
  · cases opens with
    | refused refused =>
      rw [header, opened] at refused
      cases refused
  · exact ⟨h, s, opens, barren⟩

end PmBackend
