import Mathlib.Data.List.TakeWhile
import PmBackend.AbortUndo
import PmBackend.Interruptions
import PmBackend.RecoveryBounds
import PmBackend.RecoveryScan

set_option autoImplicit false

namespace PmBackend

open ByteMemory

-- the slots that `tx_log_check` examines and finds in use
def Handle.InUse (h : Handle) (m : Mem) (i : Nat) : Prop :=
  1 ≤ i ∧ i < h.txSlotsCount ∧ slotStatus m (h.slotAddr i) ≠ TxStatus.empty.code

-- the blocks that it zeroes for a slot
def zeroedBlocks (h : Handle) (m : Mem) (i : Nat) : Set Nat :=
  {obj | ∃ r ∈ replayed m (h.slotAddr i), ∃ id ∈ r.2.target (slotAccepted h m (h.slotAddr i)),
    backendDirect h.backend id = some obj}

-- the bytes that `backend_set_zero` zeroes, as the header of the block says
def zeroExtent (m : Mem) (obj : Nat) : Set Nat := span obj (sizeofDataHdr + keyLen m obj + valLen m obj)

def zeroedArea (h : Handle) (m : Mem) : Set Nat :=
  {x | ∃ i, h.InUse m i ∧ ∃ obj ∈ zeroedBlocks h m i, x ∈ zeroExtent m obj}

-- every slot that is not empty holds a log of WRITE, UPDATE and REMOVE entries
def PlainSlots (h : Handle) (s : Store) : Prop :=
  ∀ i < h.txSlotsCount, h.status s i ≠ TxStatus.empty.code →
    (∃ status : TxStatus, h.status s i = status.code) ∧
      ∃ records, Logged h s i records ∧ ∀ r ∈ records,
        r.entry.type = TxOp.write.code ∨ r.entry.type = TxOp.update.code ∨ r.entry.type = TxOp.remove.code

-- the blocks zeroed for the slots before `k`
def doneBlocks (h : Handle) (m : Mem) (k : Nat) : Set Nat := {obj | ∃ i < k, h.InUse m i ∧ obj ∈ zeroedBlocks h m i}

-- the bytes of the live blocks that recovery does not zero
def sparedBytes (h : Handle) (m : Mem) : Set Nat :=
  {x | ∃ id obj, backendDirect h.backend id = some obj ∧ flch64 m obj ≠ 0 ∧ obj ∉ doneBlocks h m h.txSlotsCount ∧
    x ∈ span obj (h.backend.blockSize id)}

-- every recovery that ends has zeroed them, whatever lengths it found
def zeroedHeaders (h : Handle) (m : Mem) : Set Nat :=
  {x | ∃ obj ∈ doneBlocks h m h.txSlotsCount, x ∈ span obj sizeofDataHdr}

-- behind the headers, what recovery zeroes reaches no byte of a live block that it does not zero, and none that is
-- under the checksum of a commit, unless the byte is zero before
structure ZeroesWithin (h : Handle) (m : Mem) : Prop where
  blocks : ∀ x ∈ zeroedArea h m, x ∈ sparedBytes h m → m x = 0 ∨ x ∈ zeroedHeaders h m
  seals : ∀ x ∈ zeroedArea h m, ∀ j, h.InUse m j → slotStatus m (h.slotAddr j) = TxStatus.commited.code →
    x ∈ span (h.slotAddr j) (sizeofTxSlot + slotSize m (h.slotAddr j)) → m x = 0

-- logs that recovery replays by zeroing blocks, but no bytes that decide on a commit
structure Replayable (h : Handle) (m : Mem) : Prop where
  codes : ∀ i, h.InUse m i → ∃ status : TxStatus, slotStatus m (h.slotAddr i) = status.code
  inside : ∀ i, h.InUse m i → ∀ r ∈ slotStrides m (h.slotAddr i), r.1 + 24 ≤ h.logEnd
  plain : ∀ i, h.InUse m i → ∀ r ∈ slotStrides m (h.slotAddr i), r.2.type = TxOp.updinplace.code →
    slotAccepted h m (h.slotAddr i) = false
  seals : ∀ x ∈ zeroedArea h m, ∀ j, h.InUse m j → slotStatus m (h.slotAddr j) = TxStatus.commited.code →
    x ∈ span (h.slotAddr j) (sizeofTxSlot + slotSize m (h.slotAddr j)) → m x = 0

-- the slots and blocks that two recoveries leave
structure SameRecovered (h : Handle) (m m' : Mem) : Prop where
  empty : ∀ i, 1 ≤ i → i < h.txSlotsCount → slotStatus m' (h.slotAddr i) = TxStatus.empty.code
  live : ∀ id, h.Live m' id ↔ h.Live m id
  bytes : ∀ id, h.Live m id → Untouched h id m m'

-- wherever `tx_log_check` stops, running it again ends as one run does
def RestartsAlike (h : Handle) (s : Store) : Prop :=
  ∃ t, txLogCheck h s = some t ∧ ∀ m, StopsWith s.pool t.pool m → ∀ s' : Store, s'.pool.mem = m →
    ∃ u, txLogCheck h s' = some u ∧ SameRecovered h t.pool.mem u.pool.mem

-- recovery of `m₀` has come to slot `k`, and the blocks of `dead` are gone
structure Underway (h : Handle) (m₀ : Mem) (k : Nat) (dead : Set Nat) (m : Mem) : Prop where
  faded : ∀ x, h.logEnd ≤ x → m x = m₀ x ∨ (m x = 0 ∧ x ∈ zeroedArea h m₀)
  emptied : ∀ i, 1 ≤ i → i < k → ∀ x ∈ span (h.slotAddr i + 8) 4, m x = 0
  zeroed : ∀ obj ∈ dead, h.logEnd ≤ obj ∧ ∀ x ∈ span obj sizeofDataHdr, m x = 0
  kept : ∀ x, h.slotAddr k ≤ x → x < h.logEnd → m x = m₀ x

section Underway

variable {h : Handle} {m₀ m m' : Mem} {i j k obj : Nat} {dead dead' : Set Nat}

theorem zeroedBlocks_above (layout : h.LogLayout) (target : obj ∈ zeroedBlocks h m₀ i) : h.logEnd ≤ obj := by
  obtain ⟨-, -, id, -, direct⟩ := target
  exact layout.blocks_above id obj direct

theorem Underway.fewer (under : Underway h m₀ k dead m) (fewer : dead' ⊆ dead) : Underway h m₀ k dead' m :=
  { under with zeroed := fun obj member => under.zeroed obj (fewer member) }

theorem Underway.extent_le (under : Underway h m₀ k dead m) (above : h.logEnd ≤ obj) :
    sizeofDataHdr + keyLen m obj + valLen m obj ≤ sizeofDataHdr + keyLen m₀ obj + valLen m₀ obj := by
  have faded : ∀ x, obj ≤ x → m x = m₀ x ∨ m x = 0 := fun x lower =>
    (under.faded x (above.trans lower)).imp_right And.left
  have key := word_le m₀ m (obj + 20) 4 fun x lower _ => faded x (by omega)
  have val := word_le m₀ m (obj + 24) 4 fun x lower _ => faded x (by omega)
  unfold keyLen valLen
  omega

theorem Underway.zero (under : Underway h m₀ k dead m) (use : h.InUse m₀ i) (target : obj ∈ zeroedBlocks h m₀ i)
    (above : h.logEnd ≤ obj) {len : Nat}
    (short : len ≤ sizeofDataHdr + keyLen m obj + valLen m obj) :
    Underway h m₀ k dead (m.write obj (List.replicate len 0)) := by
  have stays {x : Nat} (zero : m x = 0) : m.write obj (List.replicate len 0) x = 0 := by
    rw [write_zeros]
    split
    · rfl
    · exact zero
  have extent := under.extent_le above
  refine ⟨fun x upper => ?_, fun i lower less x inside => stays (under.emptied i lower less x inside),
    fun block member => ⟨(under.zeroed block member).1, fun x inside => stays ((under.zeroed block member).2 x inside)⟩,
    fun x lower upper => ?_⟩
  · rw [write_zeros]
    split
    · exact Or.inr ⟨rfl, i, use, obj, target, by simp only [zeroExtent, mem_span]; omega⟩
    · exact under.faded x upper
  · rw [write_zeros, if_neg (by omega)]
    exact under.kept x lower upper

theorem Underway.advance (layout : h.LogLayout) (under : Underway h m₀ j dead m) (lower : k ≤ j) (upper : j ≤ k + 1)
    (known : k < h.txSlotsCount) (changed : ChangedIn (span (h.slotAddr k) 24) m m')
    (status : ∀ x ∈ span (h.slotAddr k + 8) 4, m' x = 0) : Underway h m₀ (k + 1) dead m' := by
  have below := Handle.slot_below known
  have room := layout.slot_room
  have outside {x : Nat} (apart : x < h.slotAddr k ∨ h.slotAddr k + 24 ≤ x) : m' x = m x :=
    changed x fun inside => by
      rw [mem_span] at inside
      omega
  refine ⟨fun x above => ?_, fun i positive less x inside => ?_, fun obj member => ?_, fun x after end_ => ?_⟩
  · rw [outside (by omega)]
    exact under.faded x above
  · by_cases here : i = k
    · rw [here] at inside
      exact status x inside
    · have step := Handle.slot_step (h := h) (show i < k by omega)
      have before := under.emptied i positive (by omega) x inside
      rw [mem_span] at inside
      rwa [outside (by omega)]
  · obtain ⟨above, bytes⟩ := under.zeroed obj member
    refine ⟨above, fun x inside => ?_⟩
    have zero := bytes x inside
    rw [mem_span] at inside
    rwa [outside (by omega)]
  · have step := Handle.slot_step (h := h) (show k < k + 1 by omega)
    rw [outside (by omega)]
    refine under.kept x ?_ end_
    rcases Nat.lt_or_ge k j with less | same
    · have : j = k + 1 := by omega
      rwa [this]
    · have : j = k := by omega
      rw [this]
      omega

theorem Underway.skip (layout : h.LogLayout) (under : Underway h m₀ k dead m) (known : k < h.txSlotsCount)
    (empty : slotStatus m (h.slotAddr k) = TxStatus.empty.code) : Underway h m₀ (k + 1) dead m :=
  under.advance layout (le_refl k) (Nat.le_succ k) known (ChangedIn.refl _ _) fun x inside =>
    zeros_of_word m _ 4 empty x inside.1 inside.2

theorem Underway.headerStore (layout : h.LogLayout) (known : k < h.txSlotsCount) {q : Pool}
    (under : Underway h m₀ (k + 1) dead q.mem) {addr : Nat} {bytes : List UInt8}
    (inside : span addr bytes.length ⊆ span (h.slotAddr k) 24)
    (status : ∀ count, ∀ x ∈ span (h.slotAddr k + 8) 4, q.mem.write addr (bytes.take count) x = 0) :
    Throughout (Underway h m₀ (k + 1) dead) q (q.store addr bytes) := by
  refine Throughout.store addr bytes fun count => ?_
  refine under.advance layout (Nat.le_succ k) (le_refl _) known (ChangedIn.write _ _ _ _ ?_) (status count)
  refine Set.Subset.trans (span_subset (le_refl _) ?_) inside
  rw [List.length_take]
  omega

theorem Underway.reset (layout : h.LogLayout) (use : h.InUse m₀ k) {status : TxStatus}
    (code : slotStatus m₀ (h.slotAddr k) = status.code) {s : Store} (under : Underway h m₀ k dead s.pool.mem) :
    Throughout (fun m => Underway h m₀ k dead m ∨ Underway h m₀ (k + 1) dead m) s.pool
        (slotReset h s (h.slotAddr k) k).pool ∧
      Underway h m₀ (k + 1) dead (slotReset h s (h.slotAddr k) k).pool.mem := by
  obtain ⟨positive, known, -⟩ := use
  have below := Handle.slot_below known
  have room := layout.slot_room
  have zeros : encode 4 TxStatus.empty.code = List.replicate 4 0 := rfl
  -- of the status only the lowest byte is not zero before
  have high : ∀ x ∈ span (h.slotAddr k + 9) 3, s.pool.mem x = 0 := by
    have word : slotStatus m₀ (h.slotAddr k) < 256 := by
      rw [code]
      cases status <;> decide
    rw [slotStatus, word_succ] at word
    intro x inside
    rw [mem_span] at inside
    rw [under.kept x (by omega) (by omega)]
    exact zeros_of_word m₀ (h.slotAddr k + 8 + 1) 3 (by omega) x (by omega) (by omega)
  have first (count : Nat) : Underway h m₀ k dead (s.pool.mem.write (h.slotAddr k + 8)
        ((encode 4 TxStatus.empty.code).take count)) ∨
      Underway h m₀ (k + 1) dead (s.pool.mem.write (h.slotAddr k + 8) ((encode 4 TxStatus.empty.code).take count)) := by
    rw [zeros, List.take_replicate]
    rcases Nat.eq_zero_or_pos count with none_done | some_done
    · left
      rwa [none_done, Nat.zero_min, List.replicate_zero, write_nil]
    · right
      refine under.advance layout (le_refl k) (Nat.le_succ k) known (ChangedIn.write _ _ _ _ ?_) fun x inside => ?_
      · exact span_subset (by omega) (by rw [List.length_replicate]; omega)
      · rw [mem_span] at inside
        rw [write_zeros]
        split
        · rfl
        · exact high x (by rw [mem_span]; omega)
  have emptied : Underway h m₀ (k + 1) dead (s.pool.setStatus (h.slotAddr k) .empty).mem := by
    have all_done := first 4
    rw [List.take_of_length_le (by rw [length_encode])] at all_done
    rcases all_done with before | after
    · refine before.skip layout known ?_
      exact word_write_same s.pool.mem (h.slotAddr k + 8) 4 TxStatus.empty.code
    · exact after
  have sized : Throughout (Underway h m₀ (k + 1) dead) (s.pool.setStatus (h.slotAddr k) .empty)
      ((s.pool.setStatus (h.slotAddr k) .empty).setSize (h.slotAddr k) 0) := by
    refine emptied.headerStore layout known (span_subset (by omega) (by rw [length_encode])) fun count x inside => ?_
    rw [mem_span] at inside
    rw [write_outside _ _ _ _ (by omega)]
    exact emptied.emptied k positive (by omega) x inside
  have checked : Throughout (Underway h m₀ (k + 1) dead) (s.pool.setStatus (h.slotAddr k) .empty)
      (txSlotChecksum h ((s.pool.setStatus (h.slotAddr k) .empty).setSize (h.slotAddr k) 0) (h.slotAddr k) k) := by
    refine Throughout.txPersist (sized.trans ?_) h _ _
    refine sized.last.headerStore layout known
      (span_subset (le_refl _) (by rw [length_encode]; omega)) fun count x inside => ?_
    rw [mem_span] at inside
    rw [write_outside _ _ _ _ (by rw [List.length_take, length_encode]; omega)]
    exact sized.last.emptied k positive (by omega) x inside
  have zeroed : Throughout (Underway h m₀ (k + 1) dead) (s.pool.setStatus (h.slotAddr k) .empty)
      ((txSlotChecksum h ((s.pool.setStatus (h.slotAddr k) .empty).setSize (h.slotAddr k) 0) (h.slotAddr k) k).memset
        (h.slotAddr k) 12) := by
    refine checked.trans (checked.last.headerStore layout known
      (span_subset (le_refl _) (by rw [List.length_replicate]; omega)) fun count x inside => ?_)
    rw [List.take_replicate, write_zeros]
    split
    · rfl
    · exact checked.last.emptied k positive (by omega) x inside
  have cleared : Throughout (Underway h m₀ (k + 1) dead) (s.pool.setStatus (h.slotAddr k) .empty)
      (slotReset h s (h.slotAddr k) k).pool := by
    unfold slotReset backendTxSetZero backendPersistAll
    simp only
    split
    · exact zeroed.emit fun _ _ => nofun
    · exact zeroed.persisted h _ _
  exact ⟨(Throughout.store _ _ first).trans (cleared.mono fun m after => Or.inr after), cleared.last⟩

end Underway

section Slots

variable {h : Handle} {s₀ s : Store} {m₀ m : Mem} {i k : Nat} {dead : Set Nat}

theorem PlainSlots.strides (layout : h.LogLayout) (logs : PlainSlots h s₀) (use : h.InUse s₀.pool.mem i) :
    (∀ r ∈ slotStrides s₀.pool.mem (h.slotAddr i), r.1 + 24 ≤ h.logEnd) ∧
      ∀ r ∈ slotStrides s₀.pool.mem (h.slotAddr i), r.2.type ≠ TxOp.updinplace.code := by
  obtain ⟨-, known, used⟩ := use
  obtain ⟨-, records, log, plain⟩ := logs i known used
  have fits := log.fits
  have below := Handle.slot_below known
  have small := layout.end_lt
  unfold Handle.size at fits
  obtain ⟨entries, inside⟩ := log.records.entries (by omega)
  have no_update : ∀ r ∈ slotLog s₀.pool.mem (h.slotAddr i), r.2.type ≠ TxOp.updinplace.code := by
    intro r member
    have listed : r.2 ∈ slotEntries s₀.pool.mem (h.slotAddr i) := List.mem_map_of_mem (f := Prod.snd) member
    rw [entries] at listed
    obtain ⟨record, member', same⟩ := List.mem_map.mp listed
    rw [← same]
    rcases plain record member' with write | update | remove
    · rw [write]
      decide
    · rw [update]
      decide
    · rw [remove]
      decide
  have strides : slotStrides s₀.pool.mem (h.slotAddr i) = slotLog s₀.pool.mem (h.slotAddr i) :=
    strideWalk_plain _ _ _ _ no_update
  rw [strides]
  exact ⟨fun r member => (inside r member).trans (by omega), no_update⟩

theorem PlainSlots.replayable (layout : h.LogLayout) (logs : PlainSlots h s₀) (within : ZeroesWithin h s₀.pool.mem) :
    Replayable h s₀.pool.mem :=
  ⟨fun i use => (logs i use.2.1 use.2.2).1, fun _ use => (logs.strides layout use).1,
    fun _ use r member in_place => absurd in_place ((logs.strides layout use).2 r member), within.seals⟩

theorem Underway.accepted (layout : h.LogLayout) (ready : Replayable h m₀) (use : h.InUse m₀ k)
    (under : Underway h m₀ k dead m) : slotAccepted h m (h.slotAddr k) = slotAccepted h m₀ (h.slotAddr k) := by
  have below := Handle.slot_below use.2.1
  have room := layout.slot_room
  have header : ∀ x, h.slotAddr k ≤ x → x < h.slotAddr k + 24 → m x = m₀ x := fun x lower upper =>
    under.kept x lower (by omega)
  have size : slotSize m (h.slotAddr k) = slotSize m₀ (h.slotAddr k) :=
    word_congr _ _ _ _ fun x lower upper => header x (by omega) (by omega)
  have status : slotStatus m (h.slotAddr k) = slotStatus m₀ (h.slotAddr k) :=
    word_congr _ _ _ _ fun x lower upper => header x (by omega) (by omega)
  have sum : flch64 m (h.slotAddr k) = flch64 m₀ (h.slotAddr k) :=
    word_congr _ _ _ _ fun x lower upper => header x lower (by omega)
  by_cases commited : slotStatus m₀ (h.slotAddr k) = TxStatus.commited.code
  swap
  · unfold slotAccepted
    rw [status, beq_eq_false_iff_ne.mpr commited, Bool.and_false, Bool.and_false]
  have same : ∀ x, h.slotAddr k ≤ x → x < h.slotAddr k + (sizeofTxSlot + slotSize m₀ (h.slotAddr k)) → m x = m₀ x := by
    intro x lower upper
    by_cases inside : x < h.logEnd
    · exact under.kept x lower inside
    · rcases under.faded x (by omega) with same | ⟨zero, reached⟩
      · exact same
      · rw [zero, ready.seals x reached k use commited ⟨lower, upper⟩]
  have covered : masked m (h.slotAddr k) (u64 (sizeofTxSlot + slotSize m₀ (h.slotAddr k))) =
      masked m₀ (h.slotAddr k) (u64 (sizeofTxSlot + slotSize m₀ (h.slotAddr k))) := by
    have short : u64 (sizeofTxSlot + slotSize m₀ (h.slotAddr k)) ≤ sizeofTxSlot + slotSize m₀ (h.slotAddr k) := by
      unfold u64
      exact Nat.mod_le _ _
    unfold masked
    rw [read_congr m₀ m _ _ fun x lower upper => same x (by omega) (by omega)]
  unfold slotAccepted utilChecksumVerify checksumOf
  rw [size, status, sum, covered]

theorem Underway.entries (layout : h.LogLayout) (use : h.InUse m₀ k) (commit : Bool)
    (accepted : slotAccepted h m₀ (h.slotAddr k) = commit) (log : List (Nat × TxEntry))
    (sub : ∀ r ∈ log, r ∈ replayed m₀ (h.slotAddr k))
    (plain : ∀ r ∈ log, r.2.type = TxOp.updinplace.code → commit = false) (under : Underway h m₀ k dead s.pool.mem) :
    ∃ t, log.foldlM (fun t r => checkEntry h t k (h.slotAddr k + sizeofTxSlot) commit r.2) s = some t ∧
      Throughout (Underway h m₀ k dead) s.pool t.pool ∧
      Underway h m₀ k (dead ∪ {obj | ∃ r ∈ log, ∃ id ∈ r.2.target commit, backendDirect h.backend id = some obj})
        t.pool.mem ∧ t.updIdList = s.updIdList := by
  induction log generalizing s dead with
  | nil => exact ⟨s, rfl, Throughout.refl under, by simpa using under, rfl⟩
  | cons r rest ih =>
    have goes : r.2.halts = false := by
      have taken := List.mem_takeWhile_imp (sub r List.mem_cons_self)
      simpa using taken
    have other := plain r List.mem_cons_self
    have undone : r.2.type = TxOp.updinplace.code → r.2.target commit = none := fun in_place => by
      rw [other in_place, TxEntry.target, in_place]
      simp [goes, TxOp.code]
    -- the block of this entry
    obtain ⟨t, done, stops, zeroed, lists⟩ : ∃ t, checkEntry h s k (h.slotAddr k + sizeofTxSlot) commit r.2 = some t ∧
        Throughout (Underway h m₀ k dead) s.pool t.pool ∧
        Underway h m₀ k (dead ∪ {obj | ∃ id ∈ r.2.target commit, backendDirect h.backend id = some obj})
          t.pool.mem ∧ t.updIdList = s.updIdList := by
      rw [checkEntry_target goes]
      cases named : r.2.target commit with
      | none => exact ⟨s, rfl, Throughout.refl under, by simpa using under, rfl⟩
      | some id =>
        have zeroes : ¬r.2.type = TxOp.updinplace.code := fun in_place => by
          rw [undone in_place] at named
          cases named
        simp only [if_neg zeroes]
        refine ⟨_, rfl, ?_⟩
        cases direct : backendDirect h.backend id with
        | none =>
          have unchanged : (s.setZero none).pool = s.pool := rfl
          rw [unchanged]
          exact ⟨Throughout.refl under, by simpa [direct] using under, rfl⟩
        | some obj =>
          have target : obj ∈ zeroedBlocks h m₀ k :=
            ⟨r, sub r List.mem_cons_self, id, by rw [accepted, named]; rfl, direct⟩
          have above := zeroedBlocks_above layout target
          have zero : Throughout (Underway h m₀ k dead) s.pool (s.setZero (some obj)).pool := by
            refine Throughout.store _ _ fun count => ?_
            rw [List.take_replicate]
            exact under.zero use target above (Nat.min_le_right _ _)
          refine ⟨zero, { zero.last with zeroed := ?_ }, rfl⟩
          rintro block (before | ⟨id', same, direct'⟩)
          · exact zero.last.zeroed block before
          · cases same
            rw [direct] at direct'
            cases direct'
            refine ⟨above, fun x inside => ?_⟩
            rw [mem_span] at inside
            simp only [Store.setZero, backendSetZero, Pool.memset_mem]
            rw [write_zeros, if_pos (by omega)]
    obtain ⟨u, done', stops', ends, lists'⟩ := ih (fun r' member => sub r' (List.mem_cons_of_mem _ member))
      (fun r' member => plain r' (List.mem_cons_of_mem _ member)) zeroed
    refine ⟨u, by rw [List.foldlM_cons, done]; exact done', stops.trans (stops'.mono fun m after =>
      after.fewer Set.subset_union_left), ends.fewer ?_, lists'.trans lists⟩
    rintro block (before | ⟨r', member, named⟩)
    · exact Or.inl (Or.inl before)
    · rcases List.mem_cons.mp member with rfl | member
      · exact Or.inl (Or.inr named)
      · exact Or.inr ⟨r', member, named⟩

theorem Underway.slot (layout : h.LogLayout) (ready : Replayable h s₀.pool.mem) (positive : 1 ≤ k)
    (known : k < h.txSlotsCount)
    (under : Underway h s₀.pool.mem k (doneBlocks h s₀.pool.mem k) s.pool.mem) :
    ∃ t, checkSlot h s k = some t ∧
      Throughout (fun m => Underway h s₀.pool.mem k (doneBlocks h s₀.pool.mem k) m ∨
        Underway h s₀.pool.mem (k + 1) (doneBlocks h s₀.pool.mem (k + 1)) m) s.pool t.pool ∧
      Underway h s₀.pool.mem (k + 1) (doneBlocks h s₀.pool.mem (k + 1)) t.pool.mem ∧ t.updIdList = s.updIdList := by
  have below := Handle.slot_below known
  have room := layout.slot_room
  have same : h.status s k = h.status s₀ k :=
    word_congr _ _ _ _ fun x lower upper => under.kept x (by omega) (by omega)
  by_cases empty : h.status s₀ k = TxStatus.empty.code
  · -- an empty slot has no blocks to zero
    have done : doneBlocks h s₀.pool.mem (k + 1) ⊆ doneBlocks h s₀.pool.mem k := by
      rintro obj ⟨i, less, use, target⟩
      have other : i ≠ k := fun here => use.2.2 (here ▸ empty)
      exact ⟨i, by omega, use, target⟩
    have skipped : checkSlot h s k = some s := by
      rw [checkSlot_accepted, layout.slot_eq known]
      exact if_pos (same.trans empty)
    have next := (under.skip layout known (same.trans empty)).fewer done
    exact ⟨s, skipped, Throughout.refl (Or.inr next), next, rfl⟩
  · have use : h.InUse s₀.pool.mem k := ⟨positive, known, empty⟩
    obtain ⟨status, code⟩ := ready.codes k use
    have accepted := under.accepted layout ready use
    obtain ⟨t, walked, stops, zeroed, lists⟩ := under.entries layout use _ rfl (replayed s₀.pool.mem (h.slotAddr k))
      (fun _ member => member) fun r member => ready.plain k use r ((List.takeWhile_sublist _).subset member)
    obtain ⟨stops', ends⟩ := zeroed.reset layout use code
    have before : doneBlocks h s₀.pool.mem k ⊆ doneBlocks h s₀.pool.mem k ∪ zeroedBlocks h s₀.pool.mem k :=
      Set.subset_union_left
    have done : doneBlocks h s₀.pool.mem (k + 1) ⊆ doneBlocks h s₀.pool.mem k ∪ zeroedBlocks h s₀.pool.mem k := by
      rintro obj ⟨i, less, use', target⟩
      by_cases here : i = k
      · exact Or.inr (here ▸ target)
      · exact Or.inl ⟨i, by omega, use', target⟩
    have checked := checkSlot_replays layout known s₀.pool.mem under.kept (by rw [same]; exact empty)
      (ready.inside k use)
    rw [accepted, walked, Option.map_some] at checked
    exact ⟨_, checked, (stops.mono fun m => Or.inl).trans (stops'.mono fun m stopped =>
      stopped.imp (fun u => u.fewer before) fun u => u.fewer done), ends.fewer done, lists⟩

-- the memory at some point of a recovery
def InRecovery (h : Handle) (m₀ m : Mem) : Prop :=
  ∃ k, 1 ≤ k ∧ k ≤ h.txSlotsCount ∧ Underway h m₀ k (doneBlocks h m₀ k) m

theorem Underway.passed (layout : h.LogLayout) (under : Underway h m₀ k dead s.pool.mem) (positive : 1 ≤ i)
    (before : i < k) (known : i < h.txSlotsCount) : checkSlot h s i = some s := by
  have empty : slotStatus s.pool.mem (h.slotAddr i) = TxStatus.empty.code :=
    word_of_zeros _ _ _ fun x lower upper => under.emptied i positive before x ⟨lower, upper⟩
  rw [checkSlot_accepted, layout.slot_eq known]
  exact if_pos empty

theorem Underway.run (layout : h.LogLayout) (ready : Replayable h s₀.pool.mem) (count : Nat)
    (rest : i + count = h.txSlotsCount + 1) (positive : 1 ≤ i) (some_done : 1 ≤ k)
    (known : k ≤ h.txSlotsCount) (reached : i ≤ k ∨ k = h.txSlotsCount)
    (under : Underway h s₀.pool.mem k (doneBlocks h s₀.pool.mem k) s.pool.mem) :
    ∃ t, (List.range' i count).foldlM (checkSlot h) s = some t ∧
      Throughout (InRecovery h s₀.pool.mem) s.pool t.pool ∧
      Underway h s₀.pool.mem h.txSlotsCount (doneBlocks h s₀.pool.mem h.txSlotsCount) t.pool.mem ∧
      t.updIdList = s.updIdList := by
  induction count generalizing i k s with
  | zero =>
    have last : k = h.txSlotsCount := by omega
    exact ⟨s, rfl, Throughout.refl ⟨k, some_done, known, under⟩, last ▸ under, rfl⟩
  | succ count ih =>
    rw [List.range'_succ, List.foldlM_cons]
    by_cases beyond : i = h.txSlotsCount
    · -- the loop takes the number of slots for one more slot
      have skipped : checkSlot h s i = some s := by
        rw [checkSlot_accepted, layout.slot_none (by omega)]
      rw [skipped]
      exact ih (by omega) (by omega) some_done known (by omega) under
    · by_cases here : i = k
      · subst here
        obtain ⟨t, checked, stops, next, lists⟩ := under.slot layout ready positive (by omega)
        obtain ⟨u, walked, stops', ends, lists'⟩ := ih (by omega) (by omega) (by omega) (by omega) (Or.inl (le_refl _)) next
        refine ⟨u, by rw [checked]; exact walked, (stops.mono fun m stopped => ?_).trans stops', ends, lists'.trans lists⟩
        rcases stopped with before | after
        · exact ⟨i, positive, known, before⟩
        · exact ⟨i + 1, by omega, by omega, after⟩
      · rw [under.passed layout positive (by omega) (by omega)]
        exact ih (by omega) (by omega) some_done known (by omega) under

theorem InRecovery.replays (layout : h.LogLayout) (ready : Replayable h s₀.pool.mem)
    (stopped : InRecovery h s₀.pool.mem s.pool.mem) :
    ∃ t, txLogCheck h s = some t ∧ Throughout (InRecovery h s₀.pool.mem) s.pool t.pool ∧
      Underway h s₀.pool.mem h.txSlotsCount (doneBlocks h s₀.pool.mem h.txSlotsCount) t.pool.mem ∧
      t.updIdList = s.updIdList := by
  obtain ⟨k, positive, known, under⟩ := stopped
  obtain ⟨t, walked, stops, ends, lists⟩ := under.run layout ready h.txSlotsCount (Nat.add_comm 1 _) (le_refl 1)
    positive known (Or.inl positive)
  refine ⟨t, ?_, stops, ends, lists⟩
  have few := layout.few_slots
  rw [txLogCheck, checkSlots_visited, visited_range few (2 ^ 8) 1 (by omega) (by omega)]
  simpa using walked

theorem InRecovery.recovers (layout : h.LogLayout) (logs : PlainSlots h s₀) (within : ZeroesWithin h s₀.pool.mem)
    (stopped : InRecovery h s₀.pool.mem s.pool.mem) :
    ∃ t, txLogCheck h s = some t ∧ Throughout (InRecovery h s₀.pool.mem) s.pool t.pool ∧
      Underway h s₀.pool.mem h.txSlotsCount (doneBlocks h s₀.pool.mem h.txSlotsCount) t.pool.mem := by
  obtain ⟨t, recovered, stops, ends, -⟩ := stopped.replays layout (logs.replayable layout within)
  exact ⟨t, recovered, stops, ends⟩

theorem Underway.gone (under : Underway h m₀ k dead m) {obj : Nat} (member : obj ∈ dead) : flch64 m obj = 0 :=
  word_of_zeros _ _ _ fun x lower upper => (under.zeroed obj member).2 x ⟨lower, by
    have : sizeofDataHdr = 32 := rfl
    omega⟩

theorem Underway.block (layout : h.LogLayout)
    (blocks : ∀ i, h.InUse m₀ i → ∀ obj ∈ zeroedBlocks h m₀ i, ∀ id obj', backendDirect h.backend id = some obj' →
      obj' ≠ obj → Disjoint (zeroExtent m₀ obj) (span obj' (h.backend.blockSize id)))
    (under : Underway h m₀ h.txSlotsCount (doneBlocks h m₀ h.txSlotsCount) m) {id obj : Nat}
    (direct : backendDirect h.backend id = some obj) :
    (obj ∈ doneBlocks h m₀ h.txSlotsCount ∧ flch64 m obj = 0) ∨
      (obj ∉ doneBlocks h m₀ h.txSlotsCount ∧ ∀ x ∈ span obj (h.backend.blockSize id), m x = m₀ x) := by
  have above := layout.blocks_above id obj direct
  by_cases done : obj ∈ doneBlocks h m₀ h.txSlotsCount
  · exact Or.inl ⟨done, under.gone done⟩
  · refine Or.inr ⟨done, fun x inside => ?_⟩
    have spared : x ∉ zeroedArea h m₀ := by
      rintro ⟨i, use, obj', target, reached⟩
      have other : obj ≠ obj' := fun here => done ⟨i, use.2.1, use, here ▸ target⟩
      exact Set.disjoint_left.mp (blocks i use obj' target id obj direct other) reached inside
    rw [mem_span] at inside
    exact (under.faded x (by omega)).resolve_right fun faded => spared faded.2

theorem Underway.spared (within : ZeroesWithin h m₀) {m' : Mem}
    (under : Underway h m₀ h.txSlotsCount (doneBlocks h m₀ h.txSlotsCount) m)
    (under' : Underway h m₀ h.txSlotsCount (doneBlocks h m₀ h.txSlotsCount) m') {x : Nat} (above : h.logEnd ≤ x)
    (spared : x ∈ sparedBytes h m₀) : m' x = m x := by
  have before := under.faded x above
  have after := under'.faded x above
  by_cases reached : x ∈ zeroedArea h m₀
  · rcases within.blocks x reached spared with zero | ⟨obj, done, header⟩
    · rw [before.elim (fun same => same.trans zero) And.left, after.elim (fun same => same.trans zero) And.left]
    · rw [(under.zeroed obj done).2 x header, (under'.zeroed obj done).2 x header]
  · rw [before.resolve_right fun faded => reached faded.2, after.resolve_right fun faded => reached faded.2]

-- a block without a checksum gets none
theorem Underway.still_dead (layout : h.LogLayout) (under : Underway h m₀ k dead m) {id obj : Nat}
    (direct : backendDirect h.backend id = some obj) (gone : flch64 m₀ obj = 0) : flch64 m obj = 0 := by
  have above := layout.blocks_above id obj direct
  refine word_of_zeros _ _ _ fun x lower upper => ?_
  exact (under.faded x (by omega)).elim (fun same => same.trans (zeros_of_word m₀ obj 8 gone x lower upper)) And.left

-- two recoveries that have come to the end agree on the blocks
theorem Underway.same (layout : h.RecoveryLayout) (within : ZeroesWithin h m₀) {m' : Mem}
    (under : Underway h m₀ h.txSlotsCount (doneBlocks h m₀ h.txSlotsCount) m)
    (under' : Underway h m₀ h.txSlotsCount (doneBlocks h m₀ h.txSlotsCount) m') : SameRecovered h m m' := by
  have log := layout.toLogLayout
  have block {id obj : Nat} (direct : backendDirect h.backend id = some obj) :
      (flch64 m obj = 0 ∧ flch64 m' obj = 0) ∨ ∀ x ∈ span obj (h.backend.blockSize id), m' x = m x := by
    by_cases done : obj ∈ doneBlocks h m₀ h.txSlotsCount
    · exact Or.inl ⟨under.gone done, under'.gone done⟩
    · by_cases gone : flch64 m₀ obj = 0
      · exact Or.inl ⟨under.still_dead log direct gone, under'.still_dead log direct gone⟩
      · have above := log.blocks_above id obj direct
        refine Or.inr fun x inside => under.spared within under' ?_ ⟨id, obj, direct, gone, done, inside⟩
        rw [mem_span] at inside
        omega
  have header {id obj : Nat} (same : ∀ x ∈ span obj (h.backend.blockSize id), m' x = m x) :
      flch64 m' obj = flch64 m obj := by
    have room := layout.header_room id
    exact word_congr _ _ _ _ fun x lower upper => same x ⟨lower, by omega⟩
  refine ⟨fun i positive known => ?_, fun id => exists_congr fun obj => and_congr_right fun direct => ?_,
    fun id live x inside => ?_⟩
  · exact word_of_zeros _ _ _ fun x lower upper => under'.emptied i positive known x ⟨lower, upper⟩
  · rcases block direct with ⟨gone, gone'⟩ | same
    · rw [gone, gone']
    · rw [header same]
  · obtain ⟨obj, direct, nonzero⟩ := live
    obtain ⟨obj', direct', inside⟩ := inside
    rw [direct] at direct'
    cases direct'
    rcases block direct with ⟨gone, -⟩ | same
    · exact absurd gone nonzero
    · exact same x inside

end Slots

-- recovery that is stopped anywhere and run again ends as one run does
theorem recovery_restarts {h : Handle} (layout : h.RecoveryLayout) {s : Store} (logs : PlainSlots h s)
    (within : ZeroesWithin h s.pool.mem) : RestartsAlike h s := by
  have start : InRecovery h s.pool.mem s.pool.mem := by
    refine ⟨1, le_refl 1, layout.some_slot, fun x _ => Or.inl rfl, fun i positive less => by omega, ?_,
      fun x _ _ => rfl⟩
    rintro obj ⟨i, less, use, -⟩
    have := use.1
    omega
  obtain ⟨t, recovered, stops, ends⟩ := start.recovers layout.toLogLayout logs within
  refine ⟨t, recovered, fun m stopped s' same => ?_⟩
  have again : InRecovery h s.pool.mem s'.pool.mem := by
    rw [same]
    exact stops.stops m stopped
  obtain ⟨u, recovered', -, ends'⟩ := again.recovers layout.toLogLayout logs within
  exact ⟨u, recovered', ends.same layout within ends'⟩

theorem plainSlots_single {h : Handle} {s : Store} (status : TxStatus) (id : Nat) (two : h.txSlotsCount = 2)
    (first : h.status s 0 = TxStatus.empty.code ∨
      (h.status s 0 = TxStatus.processing.code ∧ Logged h s 0 []))
    (second : h.status s 1 = status.code) (log : Logged h s 1 [⟨⟨TxOp.write.code, id, 0⟩, []⟩]) : PlainSlots h s := by
  intro i known used
  have index : i = 0 ∨ i = 1 := by omega
  rcases index with rfl | rfl
  · obtain ⟨processing, empty⟩ := first.resolve_left used
    exact ⟨⟨.processing, processing⟩, [], empty, by simp⟩
  · exact ⟨⟨status, second⟩, _, log, by simp⟩

theorem interruptedStore_logs : PlainSlots twoSlotMetaHandle interruptedStore := by
  have last : twoSlotMetaHandle.slotAddr 1 + 24 + 24 =
      twoSlotMetaHandle.slotAddr 1 + slotSize interruptedStore.pool.mem (twoSlotMetaHandle.slotAddr 1) := by
    decide +kernel
  refine plainSlots_single .processing 1 rfl (Or.inr ⟨by decide +kernel, by decide +kernel, ?_⟩)
    (by decide +kernel) ⟨by decide +kernel, by decide +kernel, last⟩
  exact slotRecords_nil (by decide +kernel)

theorem interruptedStore_within : ZeroesWithin twoSlotMetaHandle interruptedStore.pool.mem := by
  have replay : replayed interruptedStore.pool.mem (twoSlotMetaHandle.slotAddr 1) =
      [(twoSlotMetaHandle.slotAddr 1 + 24, ⟨TxOp.write.code, 1, 0⟩)] := by decide +kernel
  have only {i obj : Nat} (use : twoSlotMetaHandle.InUse interruptedStore.pool.mem i)
      (target : obj ∈ zeroedBlocks twoSlotMetaHandle interruptedStore.pool.mem i) : i = 1 ∧ obj = blockOne := by
    have two : twoSlotMetaHandle.txSlotsCount = 2 := rfl
    obtain ⟨positive, known, -⟩ := use
    have second : i = 1 := by omega
    subst second
    obtain ⟨r, member, id, named, direct⟩ := target
    rw [replay, List.mem_singleton] at member
    have rejected : slotAccepted twoSlotMetaHandle interruptedStore.pool.mem (twoSlotMetaHandle.slotAddr 1) = false := by
      decide +kernel
    rw [member, rejected] at named
    have first : id = 1 := Option.some_injective _ named.symm
    have at_one : backendDirect twoSlotMetaHandle.backend 1 = some blockOne := by decide +kernel
    rw [first, at_one] at direct
    exact ⟨rfl, (Option.some_injective _ direct).symm⟩
  have lengths : keyLen interruptedStore.pool.mem blockOne = 1 ∧ valLen interruptedStore.pool.mem blockOne = 1 := by
    decide +kernel
  have extent : zeroExtent interruptedStore.pool.mem blockOne = span blockOne 34 := by
    rw [zeroExtent, lengths.1, lengths.2]
  refine ⟨fun x reached spared => absurd spared ?_, fun x reached j use' _ inside => absurd inside ?_⟩
  · obtain ⟨i, use, obj, target, inside⟩ := reached
    obtain ⟨rfl, rfl⟩ := only use target
    rintro ⟨id, obj', direct, -, kept, inside'⟩
    have far : ∀ id < 5, ∀ obj ∈ backendDirect twoSlotMetaHandle.backend id, obj ≠ blockOne →
        blockOne + 34 ≤ obj ∨ obj + twoSlotMetaHandle.backend.blockSize id ≤ blockOne := by decide +kernel
    have known : id < 5 := (backendDirect_known (by decide) id).mp ⟨obj', direct⟩
    have other : obj' ≠ blockOne := fun here => kept ⟨1, by decide, use, here ▸ target⟩
    rw [extent] at inside
    exact Set.disjoint_left.mp (span_disjoint (far id known obj' direct other)) inside inside'
  · obtain ⟨i, use, obj, target, inside'⟩ := reached
    obtain ⟨rfl, rfl⟩ := only use target
    obtain ⟨positive, known, -⟩ := use'
    have two : twoSlotMetaHandle.txSlotsCount = 2 := rfl
    have second : j = 1 := by omega
    rw [extent] at inside'
    rw [second]
    exact Set.disjoint_left.mp (span_disjoint (Or.inr (by decide +kernel))) inside'

theorem recovery_restarts_sample : RestartsAlike twoSlotMetaHandle interruptedStore :=
  recovery_restarts twoSlotMetaHandle_layout interruptedStore_logs interruptedStore_within

-- a new object in block 4, to which the client then puts a byte as if it were a data block
def stretchedCalls : List Call :=
  [.txBegin, .tputMeta 1 (onePair 0), .tputMeta 1 (onePair 0), .tputMeta 1 (onePair 0), .tputMeta 1 (onePair 0),
    .tputMeta 1 (onePair 0), .txCommit 1, .txExecute 1,
    .txBegin, .tdel 1 4, .txCommit 1, .txExecute 1,
    .txBegin, .txBegin, .tputMeta 2 (onePair 0), .tput 1 { onePair 4 with offset := 8000 }, .txCommit 1, .txExecute 1]

-- the pool as the next `pmb_open` maps it
def Store.crashed (s : Store) (m : Mem) : Store := { s with pool := ⟨m, []⟩ }

def Event.firstBytes (count : Nat) : Event → Option (Nat × List UInt8)
  | .store addr bytes => some (addr, bytes.take count)
  | .persist _ _ => none
  | .weakPersist _ _ => none

-- the rollback of block 4 takes 8034 bytes from its header, over the object in block 5. Stopped when it has zeroed
-- the header, it finds no length there the second time, and the object stays
theorem restart_spares_neighbour :
    ∃ s rets, runCalls wideHandle wideStore stretchedCalls = some (s, rets) ∧ (∀ ret ∈ rets, ret.status = .ok) ∧
      PlainSlots wideHandle (s.crashed s.pool.mem) ∧ ¬RestartsAlike wideHandle (s.crashed s.pool.mem) := by
  have direct : backendDirect wideHandle.backend 5 = some metaBlockFive := by decide +kernel
  have ran : (runCalls wideHandle wideStore stretchedCalls).map
      (fun done => (done.2.map Return.status, wideHandle.status done.1 0, wideHandle.status done.1 1,
        slotSize done.1.pool.mem (wideHandle.slotAddr 1), recordAt done.1.pool.mem (wideHandle.slotAddr 1 + 24))) =
      some (List.replicate 18 .ok, 0, 1, 48, ⟨⟨TxOp.write.code, 4, 0⟩, []⟩) := by decide +kernel
  have once : (runCalls wideHandle wideStore stretchedCalls).map
      (fun done => (txLogCheck wideHandle (done.1.crashed done.1.pool.mem)).map
        fun t => (flch64 t.pool.mem metaBlockFive, t.pool.events.getLast?.bind (Event.firstBytes 32))) =
      some (some (0, some (metaBlockFour, List.replicate 32 0))) := by decide +kernel
  have twice : (runCalls wideHandle wideStore stretchedCalls).map
      (fun done => (txLogCheck wideHandle
        (done.1.crashed (done.1.pool.mem.write metaBlockFour (List.replicate 32 0)))).map
          fun u => flch64 u.pool.mem metaBlockFive != 0) = some (some true) := by decide +kernel
  obtain ⟨⟨s, rets⟩, run, values⟩ := Option.map_eq_some_iff.mp ran
  rw [run, Option.map_some, Option.some_inj] at once twice
  simp only [Prod.mk.injEq] at values
  obtain ⟨statuses, first, second, size, record⟩ := values
  refine ⟨s, rets, run, fun ret member => ?_, ?_, ?_⟩
  · have status : ret.status ∈ rets.map Return.status := List.mem_map_of_mem member
    rw [statuses] at status
    exact List.eq_of_mem_replicate status
  · refine plainSlots_single .processing 4 rfl (Or.inl first) second ⟨?_, record, ?_⟩
    · exact (le_of_eq size).trans (by decide)
    · change wideHandle.slotAddr 1 + 24 + 24 = wideHandle.slotAddr 1 + slotSize s.pool.mem (wideHandle.slotAddr 1)
      rw [size]
  · rintro ⟨t, checked, restarts⟩
    rw [checked, Option.map_some, Option.some_inj, Prod.mk.injEq] at once
    obtain ⟨dead, last⟩ := once
    obtain ⟨event, last, header⟩ := Option.bind_eq_some_iff.mp last
    obtain ⟨later, events⟩ := List.getLast?_eq_some_iff.mp last
    have stopped : StopsWith (s.crashed s.pool.mem).pool t.pool
        (s.pool.mem.write metaBlockFour (List.replicate 32 0)) := by
      cases event with
      | store addr bytes =>
        simp only [Event.firstBytes, Option.some_inj, Prod.mk.injEq] at header
        obtain ⟨addr_eq, zeros⟩ := header
        refine ⟨[], t.pool.events, ?_, Or.inr ⟨later, addr, bytes, 32, events, ?_⟩⟩
        · simp only [Store.crashed, List.append_nil]
        · rw [addr_eq, zeros]
          rfl
      | persist addr len => cases header
      | weakPersist addr len => cases header
    obtain ⟨u, checked', same⟩ := restarts (s.pool.mem.write metaBlockFour (List.replicate 32 0)) stopped
      (s.crashed (s.pool.mem.write metaBlockFour (List.replicate 32 0))) rfl
    rw [checked', Option.map_some, Option.some_inj] at twice
    have live : wideHandle.Live u.pool.mem 5 := ⟨metaBlockFive, direct, by simpa using twice⟩
    obtain ⟨obj, direct', alive⟩ := (same.live 5).mp live
    rw [direct] at direct'
    cases direct'
    exact alive dead

end PmBackend
