import PmBackend.ReplayAgreement
import PmBackend.Stores
import PmBackend.Model.Recovery

set_option autoImplicit false

namespace PmBackend

open ByteMemory

-- a range of bytes, and the slot or block that recovery is processing when it touches them
structure Access where
  addr : Nat
  len : Nat
  start : Nat
  size : Nat
  deriving DecidableEq, Repr

def Access.Inside (a : Access) : Prop := a.start ≤ a.addr ∧ a.addr + a.len ≤ a.start + a.size

instance (a : Access) : Decidable a.Inside := inferInstanceAs (Decidable (_ ∧ _))

-- one round of a loop: of the two of `tx_log_check`, and of the one of `recovery_thread`
inductive RecoveryStep where
  | log (slot : Nat)
  | entry (slot pos : Nat) (commit : Bool)
  | block (blkId : Nat)
  deriving DecidableEq, Repr

-- the block that `tx_log_check` zeroes or updates for an entry
def TxEntry.target (entry : TxEntry) (commit : Bool) : Option Nat :=
  if entry.halts then none
  else if entry.type = TxOp.write.code then if commit then none else some entry.blkId1
  else if entry.type = TxOp.remove.code then if commit then some entry.blkId1 else none
  else if entry.type = TxOp.update.code then some (if commit then entry.blkId1 else entry.blkId2)
  else if entry.type = TxOp.updinplace.code then if commit then some entry.blkId1 else none
  else none

-- `backend_set_zero` looks at the header for the number of bytes
def zeroAccesses (h : Handle) (m : Mem) (blkId : Nat) : List Access :=
  match backendDirect h.backend blkId with
  | none => []
  | some obj =>
    let room := h.backend.blockSize blkId
    [⟨obj, sizeofDataHdr, obj, room⟩, ⟨obj, sizeofDataHdr + keyLen m obj + valLen m obj, obj, room⟩]

-- the payload is always read behind the first entry; an unknown block is at NULL, and has no byte
def updateAccesses (h : Handle) (slot : Nat) (entry : TxEntry) (blkId : Nat) : List Access :=
  let payload : Access := ⟨slot + sizeofTxSlot + sizeofTxEntry, entry.size, slot, h.backend.txSlotSize⟩
  let value (obj room : Nat) : Access := ⟨obj + sizeofDataHdr + h.maxKeyLen + entry.offset, entry.size, obj, room⟩
  match backendDirect h.backend blkId with
  | none => [payload, value 0 0, ⟨0, sizeofDataHdr, 0, 0⟩]
  | some obj =>
    let room := h.backend.blockSize blkId
    [payload, value obj room, ⟨obj, sizeofDataHdr, obj, room⟩]

def RecoveryStep.accesses (h : Handle) (m : Mem) : RecoveryStep → List Access
  | .log slot =>
    -- the header is also what is stored when the slot has been processed
    let header : Access := ⟨slot, sizeofTxSlot, slot, h.backend.txSlotSize⟩
    if slotStatus m slot = TxStatus.empty.code then [header]
    else [header, ⟨slot, u64 (sizeofTxSlot + slotSize m slot), slot, h.backend.txSlotSize⟩]
  | .entry slot pos commit =>
    let entry := readEntry m pos
    ⟨pos, sizeofTxEntry, slot, h.backend.txSlotSize⟩ ::
      match entry.target commit with
      | none => []
      | some blkId =>
        if entry.type = TxOp.updinplace.code then updateAccesses h slot entry blkId else zeroAccesses h m blkId
  | .block blkId =>
    if blkId = 0 then []
    else
      match backendDirect h.backend blkId with
      | none => []
      | some obj =>
        let header : Access := ⟨obj, sizeofDataHdr, obj, h.backend.blockSize blkId⟩
        if flch64 m obj = 0 then [header]
        else [header, ⟨obj, objectSize h m blkId obj, obj, h.backend.blockSize blkId⟩]

-- the rounds of `checkWalk`, each with the memory before it
def walkSteps (h : Handle) (txSlotId slot : Nat) (commit : Bool) : Nat → Nat → Store → List (Mem × RecoveryStep)
  | 0, _, _ => []
  | fuel + 1, pos, s =>
    if pos < u64 (slot + slotSize s.pool.mem slot) then
      let entry := readEntry s.pool.mem pos
      (s.pool.mem, .entry slot pos commit) ::
        if entry.blkId1 = 0 ∧ entry.blkId2 = 0 then []
        else
          match checkEntry h s txSlotId (slot + sizeofTxSlot) commit entry with
          | none => []
          | some s => walkSteps h txSlotId slot commit fuel (pos + sizeofTxEntry) s
    else []

def slotSteps (h : Handle) (s : Store) (txSlotId : Nat) : List (Mem × RecoveryStep) :=
  match backendTxDirect h.backend txSlotId with
  | none => []
  | some slot =>
    (s.pool.mem, .log slot) ::
      if slotStatus s.pool.mem slot = TxStatus.empty.code then []
      else
        walkSteps h txSlotId slot (slotAccepted h s.pool.mem slot) (2 ^ 64) (slot + sizeofTxSlot) s

def logSteps (h : Handle) : Nat → Nat → Store → List (Mem × RecoveryStep)
  | 0, _, _ => []
  | rounds + 1, txSlotId, s =>
    if txSlotId ≤ h.txSlotsCount then
      slotSteps h s txSlotId ++
        match checkSlot h s txSlotId with
        | none => []
        | some s => logSteps h rounds ((txSlotId + 1) % 2 ^ 8) s
    else []

-- the rounds of all recovery threads, which store nothing in the pool
def blockSteps (h : Handle) (m : Mem) : List (Mem × RecoveryStep) :=
  (List.range threadsNum).flatMap fun i =>
    (List.range' (rcArgs h i).recoveryStart ((rcArgs h i).recoveryStop - (rcArgs h i).recoveryStart)).map fun pos =>
      (m, .block pos)

-- the rounds of `tx_log_check`, then those of `recovery_thread` on the pool that it leaves
def openSteps (h : Handle) (s : Store) : List (Mem × RecoveryStep) :=
  logSteps h (2 ^ 8) 1 s ++
    match txLogCheck h s with
    | none => []
    | some checked => blockSteps h checked.pool.mem

def Handle.poolEnd (h : Handle) : Nat := h.backend.metaArea + h.backend.metasize

-- the bytes of the slots that were looked at, and of the blocks that their entries name
def RecoveryStep.area (h : Handle) (m : Mem) : RecoveryStep → Set Nat
  | .log slot => span slot sizeofTxSlot
  | .entry _ pos commit => {x | ∃ blkId ∈ (readEntry m pos).target commit, x ∈ h.blockAt blkId}
  | .block _ => ∅

def processed (h : Handle) (steps : List (Mem × RecoveryStep)) : Set Nat :=
  {x | ∃ t ∈ steps, x ∈ t.2.area h t.1}

-- every range lies in the slot or block that is being processed and in the pool, the log is checked to its end, and
-- only slots and the blocks that entries name are stored to
structure Tolerates (h : Handle) (s : Store) : Prop where
  inside : ∀ t ∈ openSteps h s, ∀ a ∈ t.2.accesses h t.1, a.Inside
  in_pool : ∀ t ∈ openSteps h s, ∀ a ∈ t.2.accesses h t.1, h.backend.txLog ≤ a.addr ∧ a.addr + a.len ≤ h.poolEnd
  checked : ∃ checked, txLogCheck h s = some checked ∧ WritesIn (processed h (openSteps h s)) s.pool checked.pool

-- the lengths in an entry, or in the header of the block that it names
def EntrySound (h : Handle) (m : Mem) (entry : TxEntry) (commit : Bool) : Prop :=
  ∀ blkId ∈ entry.target commit,
    if entry.type = TxOp.updinplace.code then
      ∃ obj ∈ backendDirect h.backend blkId, 48 + entry.size ≤ h.backend.txSlotSize ∧
        32 + h.maxKeyLen + entry.offset + entry.size ≤ h.backend.blockSize blkId
    else ∀ obj ∈ backendDirect h.backend blkId, 32 + keyLen m obj + valLen m obj ≤ h.backend.blockSize blkId

-- what a round needs of the bytes it finds
def RecoveryStep.Sound (h : Handle) (m : Mem) : RecoveryStep → Prop
  | .log slot => slotStatus m slot = TxStatus.empty.code ∨ u64 (24 + slotSize m slot) ≤ h.backend.txSlotSize
  | .entry _ pos commit => EntrySound h m (readEntry m pos) commit
  | .block blkId =>
    ∀ obj ∈ (backendGet h m blkId).toOption, objectSize h m blkId obj ≤ h.backend.blockSize blkId

instance (h : Handle) (m : Mem) (entry : TxEntry) (commit : Bool) : Decidable (EntrySound h m entry commit) :=
  inferInstanceAs (Decidable (∀ blkId ∈ entry.target commit, _))

instance (h : Handle) (m : Mem) : (step : RecoveryStep) → Decidable (step.Sound h m)
  | .log _ => inferInstanceAs (Decidable (_ ∨ _))
  | .entry _ pos commit => inferInstanceAs (Decidable (EntrySound h m (readEntry m pos) commit))
  | .block blkId => inferInstanceAs (Decidable (∀ obj ∈ (backendGet h m blkId).toOption, _))

-- the slots lie below the blocks, and every block has room for a header and ends in the pool
structure Handle.RecoveryLayout (h : Handle) : Prop extends h.LogLayout where
  -- the log follows the page of the pool header
  log_start : 24 ≤ h.backend.txLog
  log_below : h.logEnd ≤ h.poolEnd
  header_room : ∀ id, 32 ≤ h.backend.blockSize id
  blocks_below : ∀ id obj, backendDirect h.backend id = some obj → obj + h.backend.blockSize id ≤ h.poolEnd

theorem Backend.Mapped.recoveryLayout {h : Handle} {args : MapArgs} (mapped : h.backend.Mapped args)
    (log : h.LogLayout) (log_start : 24 ≤ h.backend.txLog) (null_block : 1 ≤ h.backend.dataNlba)
    (header_room : 32 ≤ h.backend.bsize ∧ 32 ≤ h.backend.metaBsize)
    (first_meta : h.backend.metaNlba = 0 ∨ h.backend.metaBsize ≤ h.backend.dataNlba * h.backend.bsize) :
    h.RecoveryLayout := by
  have dataEnd := mapped.dataEnd
  have metaEnd := mapped.metaEnd
  have total := mapped.end_lt
  have null := log.blocks_above 0 _ (mapped.direct_data null_block)
  refine ⟨log, log_start, ?_, fun id => ?_, fun id obj direct => ?_⟩
  · have first := Nat.mul_le_mul_right h.backend.bsize null_block
    unfold Handle.poolEnd
    omega
  · unfold Backend.blockSize
    split
    · exact header_room.1
    · exact header_room.2
  · have known := (backendDirect_known mapped.ids_lt id).mp ⟨obj, direct⟩
    unfold Handle.poolEnd Backend.blockSize
    rcases lt_trichotomy id h.backend.dataNlba with data | first | later
    · have top := Nat.mul_le_mul_right h.backend.bsize (show id + 1 ≤ h.backend.dataNlba from data)
      rw [Nat.succ_mul] at top
      rw [mapped.direct_data data] at direct
      cases direct
      rw [if_pos data]
      omega
    · have before := first_meta.resolve_left (by omega)
      have positive := mapped.metaBsize_pos
      rw [first, mapped.direct_first_meta (by omega)] at direct
      cases direct
      rw [if_neg (by omega)]
      unfold u64
      omega
    · obtain ⟨k, rfl⟩ : ∃ k, id = h.backend.dataNlba + k + 1 := ⟨id - h.backend.dataNlba - 1, by omega⟩
      have top := Nat.mul_le_mul_right h.backend.metaBsize (show k + 1 ≤ h.backend.metaNlba by omega)
      rw [Nat.succ_mul] at top
      rw [mapped.direct_meta (by omega)] at direct
      cases direct
      rw [if_neg (by omega)]
      omega

section Steps

variable {h : Handle} {s s' : Store} {m : Mem} {entry : TxEntry} {commit : Bool}

theorem toOption_ok {error : Type} {result : Except error Nat} {obj : Nat} (found : obj ∈ result.toOption) :
    result = .ok obj := by
  cases result with
  | error _ => cases found
  | ok _ => exact congrArg Except.ok (Option.some.inj found)

theorem checkEntry_target (goes : entry.halts = false) (s : Store) (txSlotId entries : Nat) :
    checkEntry h s txSlotId entries commit entry =
      match entry.target commit with
      | none => some s
      | some blkId =>
        if entry.type = TxOp.updinplace.code then
          txUpdateBlock h s txSlotId blkId (s.pool.mem.read (entries + sizeofTxEntry) entry.size) entry.offset
        else some (s.setZero (backendDirect h.backend blkId)) := by
  unfold checkEntry TxEntry.target
  rw [goes]
  by_cases write : entry.type = TxOp.write.code
  · have other : TxOp.write.code ≠ TxOp.updinplace.code := by decide
    cases commit <;> simp [write, other]
  · by_cases remove : entry.type = TxOp.remove.code
    · have other : TxOp.remove.code ≠ TxOp.write.code ∧ TxOp.remove.code ≠ TxOp.updinplace.code := by decide
      cases commit <;> simp [remove, other]
    · by_cases update : entry.type = TxOp.update.code
      · have other : TxOp.update.code ≠ TxOp.write.code ∧ TxOp.update.code ≠ TxOp.remove.code ∧
          TxOp.update.code ≠ TxOp.updinplace.code := by decide
        simp [update, other]
      · by_cases updinplace : entry.type = TxOp.updinplace.code
        · have other : TxOp.updinplace.code ≠ TxOp.write.code ∧ TxOp.updinplace.code ≠ TxOp.remove.code ∧
            TxOp.updinplace.code ≠ TxOp.update.code := by decide
          cases commit <;> simp [updinplace, other]
        · simp [write, remove, update, updinplace]

theorem EntrySound.stores (sound : EntrySound h s.pool.mem entry commit) (goes : entry.halts = false)
    (txSlotId entries : Nat) :
    ∃ s', checkEntry h s txSlotId entries commit entry = some s' ∧
      WritesIn {x | ∃ blkId ∈ entry.target commit, x ∈ h.blockAt blkId} s.pool s'.pool := by
  rw [checkEntry_target goes]
  cases named : entry.target commit with
  | none => exact ⟨s, rfl, WritesIn.refl _ _⟩
  | some blkId =>
    have fits := sound blkId named
    have inside : ∀ {obj addr len}, backendDirect h.backend blkId = some obj → obj ≤ addr →
        addr + len ≤ obj + h.backend.blockSize blkId →
        span addr len ⊆ {x | ∃ id ∈ some blkId, x ∈ h.blockAt id} :=
      fun direct lower upper x touched =>
        ⟨blkId, rfl, blockAt_span direct ▸ span_subset lower upper touched⟩
    simp only
    by_cases in_place : entry.type = TxOp.updinplace.code
    · rw [if_pos in_place] at fits ⊢
      obtain ⟨obj, direct, -, value⟩ := fits
      let copied := backendMemcpy h s.pool (obj + sizeofDataHdr + h.maxKeyLen + entry.offset)
        (s.pool.mem.read (entries + sizeofTxEntry) entry.size)
      obtain ⟨s', added⟩ := txSlotMetaUpdAdd_some direct { s with pool := copied } txSlotId
        (u32 (entry.offset + (s.pool.mem.read (entries + sizeofTxEntry) entry.size).length))
      refine ⟨s', ?_, ?_⟩
      · rw [txUpdateBlock, Option.mem_def.mp direct]
        exact added
      · rw [txSlotMetaUpdAdd_frame added]
        refine (writesIn_memcpy (Pool.Follows.refl _) h _ _).mpr ⟨WritesIn.refl _ _, inside direct (by omega) ?_⟩
        rw [length_read, sizeofDataHdr]
        omega
    · rw [if_neg in_place] at fits ⊢
      refine ⟨_, rfl, ?_⟩
      cases direct : backendDirect h.backend blkId with
      | none => exact WritesIn.refl _ _
      | some obj =>
        have zeroed := fits obj direct
        refine (writesIn_store (Pool.Follows.refl _) _ _).mpr ⟨WritesIn.refl _ _, inside direct (le_refl _) ?_⟩
        rw [List.length_replicate, sizeofDataHdr]
        omega

theorem EntrySound.of_inside {slot pos : Nat}
    (inside : ∀ a ∈ (RecoveryStep.entry slot pos commit).accesses h m, a.Inside) :
    EntrySound h m (readEntry m pos) commit := by
  intro blkId named
  have acted := fun a member => inside a (List.mem_cons_of_mem _ member)
  rw [Option.mem_def] at named
  simp only [named] at acted
  by_cases in_place : (readEntry m pos).type = TxOp.updinplace.code
  · rw [if_pos in_place]
    simp only [in_place, if_true, updateAccesses] at acted
    cases direct : backendDirect h.backend blkId with
    | none =>
      -- the payload of an unknown block goes to an address near NULL
      simp only [direct, List.forall_mem_cons, Access.Inside, sizeofDataHdr] at acted
      obtain ⟨-, value, -⟩ := acted
      omega
    | some obj =>
      simp only [direct, List.forall_mem_cons, Access.Inside, sizeofDataHdr, sizeofTxSlot, sizeofTxEntry] at acted
      obtain ⟨payload, value, -⟩ := acted
      exact ⟨obj, rfl, by omega, by omega⟩
  · rw [if_neg in_place]
    intro obj direct
    rw [Option.mem_def] at direct
    simp only [in_place, if_false, zeroAccesses, direct, List.forall_mem_cons, Access.Inside, sizeofDataHdr] at acted
    obtain ⟨-, zeroed, -⟩ := acted
    omega

theorem EntrySound.inside (layout : h.RecoveryLayout) {slot pos : Nat}
    (sound : EntrySound h m (readEntry m pos) commit) (lower : slot ≤ pos)
    (upper : pos + 24 ≤ slot + h.backend.txSlotSize) :
    ∀ a ∈ (RecoveryStep.entry slot pos commit).accesses h m, a.Inside := by
  refine List.forall_mem_cons.mpr ⟨⟨lower, upper⟩, ?_⟩
  cases named : (readEntry m pos).target commit with
  | none => exact fun a impossible => absurd impossible List.not_mem_nil
  | some blkId =>
    have header := layout.header_room blkId
    have fits := sound blkId named
    simp only
    by_cases in_place : (readEntry m pos).type = TxOp.updinplace.code
    · rw [if_pos in_place] at fits ⊢
      obtain ⟨obj, direct, payload, value⟩ := fits
      simp only [updateAccesses, Option.mem_def.mp direct, List.forall_mem_cons, Access.Inside, sizeofDataHdr,
        sizeofTxSlot, sizeofTxEntry]
      refine ⟨?_, ?_, ?_, fun a impossible => absurd impossible List.not_mem_nil⟩ <;> omega
    · rw [if_neg in_place] at fits ⊢
      cases direct : backendDirect h.backend blkId with
      | none => simp [zeroAccesses, direct]
      | some obj =>
        have zeroed := fits obj direct
        simp only [zeroAccesses, direct, List.forall_mem_cons, Access.Inside, sizeofDataHdr]
        refine ⟨?_, ?_, fun a impossible => absurd impossible List.not_mem_nil⟩ <;> omega

theorem RecoveryStep.sound_of_inside {step : RecoveryStep} (inside : ∀ a ∈ step.accesses h m, a.Inside) :
    step.Sound h m := by
  cases step with
  | log slot =>
    by_cases empty : slotStatus m slot = TxStatus.empty.code
    · exact Or.inl empty
    · simp only [RecoveryStep.accesses, empty, if_false, List.forall_mem_cons, Access.Inside, sizeofTxSlot] at inside
      obtain ⟨-, checked, -⟩ := inside
      exact Or.inr (by omega)
  | entry slot pos commit => exact EntrySound.of_inside inside
  | block blkId =>
    intro obj found
    obtain ⟨null, direct, live⟩ := backendGet_ok.mp (toOption_ok found)
    simp only [RecoveryStep.accesses, null, if_false, direct, live, List.forall_mem_cons, Access.Inside] at inside
    obtain ⟨-, checked, -⟩ := inside
    omega

theorem RecoveryStep.inside_of_sound (layout : h.RecoveryLayout) {step : RecoveryStep} (sound : step.Sound h m)
    (in_slot : ∀ slot pos commit, step = .entry slot pos commit →
      slot ≤ pos ∧ pos + 24 ≤ slot + h.backend.txSlotSize) : ∀ a ∈ step.accesses h m, a.Inside := by
  have slot_room := layout.slot_room
  cases step with
  | log slot =>
    by_cases empty : slotStatus m slot = TxStatus.empty.code
    · simp only [RecoveryStep.accesses, empty, if_true, List.forall_mem_singleton, Access.Inside, sizeofTxSlot]
      omega
    · have fits := sound.resolve_left empty
      simp only [RecoveryStep.accesses, empty, if_false, List.forall_mem_cons, Access.Inside, sizeofTxSlot]
      refine ⟨?_, ?_, fun a impossible => absurd impossible List.not_mem_nil⟩ <;> omega
  | entry slot pos commit =>
    obtain ⟨lower, upper⟩ := in_slot slot pos commit rfl
    exact EntrySound.inside layout sound lower upper
  | block blkId =>
    have header := layout.header_room blkId
    by_cases null : blkId = 0
    · simp [RecoveryStep.accesses, null]
    · cases direct : backendDirect h.backend blkId with
      | none => simp [RecoveryStep.accesses, null, direct]
      | some obj =>
        by_cases dead : flch64 m obj = 0
        · simp only [RecoveryStep.accesses, null, if_false, direct, dead, if_true, List.forall_mem_singleton,
            Access.Inside, sizeofDataHdr]
          omega
        · have found : backendGet h m blkId = .ok obj := backendGet_ok.mpr ⟨null, direct, dead⟩
          have fits := sound obj (by rw [found]; rfl)
          simp only [RecoveryStep.accesses, null, if_false, direct, dead, List.forall_mem_cons, Access.Inside,
            sizeofDataHdr]
          refine ⟨?_, ?_, fun a impossible => absurd impossible List.not_mem_nil⟩ <;> omega

theorem processed_mono {steps steps' : List (Mem × RecoveryStep)} (subset : steps ⊆ steps') :
    processed h steps ⊆ processed h steps' :=
  fun _ ⟨t, member, inside⟩ => ⟨t, subset member, inside⟩

theorem entry_processed {steps : List (Mem × RecoveryStep)} {slot pos : Nat}
    (member : (m, .entry slot pos commit) ∈ steps) :
    {x | ∃ blkId ∈ (readEntry m pos).target commit, x ∈ h.blockAt blkId} ⊆ processed h steps :=
  fun _ inside => ⟨_, member, inside⟩

end Steps

section Runs

variable {h : Handle} {s s' : Store} {i : Nat}

theorem slotSize_kept (known : i < h.txSlotsCount) (room : 24 ≤ h.backend.txSlotSize) (blocks : BlocksOnly h s s') :
    slotSize s'.pool.mem (h.slotAddr i) = slotSize s.pool.mem (h.slotAddr i) := by
  have below := Handle.slot_below known
  refine word_congr _ _ _ _ fun x lower upper => blocks.changed x ?_
  simp only [Handle.blockArea, Set.mem_ofPred_eq]
  omega

theorem walkSteps_range (layout : h.LogLayout) (known : i < h.txSlotsCount) (txSlotId : Nat) (commit : Bool)
    (fuel pos : Nat) (s : Store) (t : Mem × RecoveryStep)
    (member : t ∈ walkSteps h txSlotId (h.slotAddr i) commit fuel pos s) :
    ∃ pos', t.2 = .entry (h.slotAddr i) pos' commit ∧ pos ≤ pos' ∧
      pos' < u64 (h.slotAddr i + slotSize s.pool.mem (h.slotAddr i)) := by
  induction fuel generalizing pos s with
  | zero => cases member
  | succ fuel ih =>
    rw [walkSteps] at member
    split at member
    · next more =>
      rcases List.mem_cons.mp member with rfl | later
      · exact ⟨pos, rfl, le_refl _, more⟩
      · split at later
        · cases later
        · cases step : checkEntry h s txSlotId (h.slotAddr i + sizeofTxSlot) commit (readEntry s.pool.mem pos) with
          | none =>
            rw [step] at later
            cases later
          | some next =>
            rw [step] at later
            -- the bound that is read again is the same
            obtain ⟨pos', same, lower, upper⟩ := ih (pos + sizeofTxEntry) next later
            rw [slotSize_kept known layout.slot_room (checkEntry_blocksOnly layout step)] at upper
            exact ⟨pos', same, by omega, upper⟩
    · cases member

theorem walkSteps_stores (layout : h.LogLayout) (known : i < h.txSlotsCount) (txSlotId : Nat) (commit : Bool)
    (fuel pos : Nat) (s : Store) (enough : u64 (h.slotAddr i + slotSize s.pool.mem (h.slotAddr i)) - pos < fuel)
    (sound : ∀ t ∈ walkSteps h txSlotId (h.slotAddr i) commit fuel pos s, t.2.Sound h t.1) :
    ∃ s', checkWalk h txSlotId (h.slotAddr i) commit fuel pos s = some s' ∧
      WritesIn (processed h (walkSteps h txSlotId (h.slotAddr i) commit fuel pos s)) s.pool s'.pool := by
  induction fuel generalizing pos s with
  | zero => omega
  | succ fuel ih =>
    rw [walkSteps] at sound ⊢
    rw [checkWalk]
    by_cases more : pos < u64 (h.slotAddr i + slotSize s.pool.mem (h.slotAddr i))
    · simp only [more, if_true] at sound ⊢
      by_cases mark : (readEntry s.pool.mem pos).blkId1 = 0 ∧ (readEntry s.pool.mem pos).blkId2 = 0
      · rw [if_pos mark]
        exact ⟨s, rfl, WritesIn.refl _ _⟩
      · simp only [mark, if_false] at sound ⊢
        have goes : (readEntry s.pool.mem pos).halts = false := by
          rw [← Bool.not_eq_true, halts_iff]
          exact mark
        obtain ⟨next, step, stores⟩ := EntrySound.stores (sound _ List.mem_cons_self) goes txSlotId
          (h.slotAddr i + sizeofTxSlot)
        rw [step] at sound ⊢
        have bytes : sizeofTxEntry = 24 := rfl
        obtain ⟨s', walked, later⟩ := ih (pos + sizeofTxEntry) next
          (by rw [slotSize_kept known layout.slot_room (checkEntry_blocksOnly layout step)]; omega)
          fun t member => sound t (List.mem_cons_of_mem _ member)
        exact ⟨s', walked, (stores.mono (entry_processed List.mem_cons_self)).trans
          (later.mono (processed_mono (List.subset_cons_self _ _)))⟩
    · simp only [more, if_false]
      exact ⟨s, rfl, WritesIn.refl _ _⟩

theorem slotReset_stores (s : Store) (slot txId : Nat) :
    WritesIn (span slot sizeofTxSlot) s.pool (slotReset h s slot txId).pool := by
  have header : ∀ {addr len}, slot ≤ addr → addr + len ≤ slot + 24 → span addr len ⊆ span slot sizeofTxSlot :=
    fun lower upper => span_subset lower upper
  have store : ∀ {p : Pool} {addr value : Nat} (width : Nat), WritesIn (span slot sizeofTxSlot) s.pool p →
      slot ≤ addr → addr + width ≤ slot + 24 →
      WritesIn (span slot sizeofTxSlot) s.pool (p.store addr (encode width value)) :=
    fun width writes lower upper =>
      (writesIn_store writes.follows _ _).mpr ⟨writes, header lower (by rw [length_encode]; exact upper)⟩
  refine WritesIn.txSetZero (WritesIn.txPersist ?_ h _ _) h (header (le_refl _) (by omega))
  refine store 8 (store 8 (store 4 (WritesIn.refl _ _) ?_ ?_) ?_ ?_) (le_refl _) ?_ <;> omega

theorem slotSteps_tolerated (layout : h.RecoveryLayout) (known : i < h.txSlotsCount)
    (sound : ∀ t ∈ slotSteps h s i, t.2.Sound h t.1) :
    (∃ s', checkSlot h s i = some s' ∧ WritesIn (processed h (slotSteps h s i)) s.pool s'.pool) ∧
      ∀ t ∈ slotSteps h s i, ∀ a ∈ t.2.accesses h t.1, a.Inside := by
  have direct := layout.slot_eq known
  rw [checkSlot_accepted, direct]
  rw [slotSteps, direct] at sound ⊢
  simp only at sound ⊢
  have first := sound _ List.mem_cons_self
  by_cases empty : slotStatus s.pool.mem (h.slotAddr i) = TxStatus.empty.code
  · simp only [empty, if_true, List.forall_mem_singleton]
    exact ⟨⟨s, rfl, WritesIn.refl _ _⟩, RecoveryStep.inside_of_sound layout first fun _ _ _ => nofun⟩
  · simp only [empty, if_false] at sound ⊢
    have fits := first.resolve_left empty
    have later := fun t member => sound t (List.mem_cons_of_mem _ member)
    have rounds : u64 (h.slotAddr i + slotSize s.pool.mem (h.slotAddr i)) - (h.slotAddr i + sizeofTxSlot) < 2 ^ 64 :=
      lt_of_le_of_lt (Nat.sub_le _ _) (u64_lt _)
    obtain ⟨walked, walk, stores⟩ := walkSteps_stores layout.toLogLayout known i _ (2 ^ 64) _ s rounds later
    refine ⟨⟨slotReset h walked (h.slotAddr i) i, by rw [walk]; rfl, ?_⟩, List.forall_mem_cons.mpr ⟨?_, ?_⟩⟩
    · have reset := slotReset_stores (h := h) walked (h.slotAddr i) i
      exact (stores.mono (processed_mono (List.subset_cons_self _ _))).trans
        (reset.mono fun x inside => ⟨_, List.mem_cons_self, inside⟩)
    · exact RecoveryStep.inside_of_sound layout first fun _ _ _ => nofun
    · intro t member
      obtain ⟨pos, same, lower, upper⟩ := walkSteps_range layout.toLogLayout known i _ (2 ^ 64) _ s t member
      have in_slot : pos + 24 ≤ h.slotAddr i + h.backend.txSlotSize := by
        -- a size so large that the sum wraps ends the loop at once
        have small := word_lt s.pool.mem (h.slotAddr i + 16) 8
        have below := Handle.slot_below known
        have end_lt := layout.end_lt
        have start : 24 ≤ h.slotAddr i := le_trans layout.log_start (Nat.le_add_right _ _)
        have bytes : sizeofTxSlot = 24 := rfl
        simp only [slotSize, u64] at fits upper lower
        omega
      refine RecoveryStep.inside_of_sound layout (later t member) fun slot pos' commit' entry => ?_
      rw [same] at entry
      cases entry
      omega

theorem logSteps_tolerated (layout : h.RecoveryLayout) (rounds txSlotId : Nat) (s : Store)
    (bound : txSlotId ≤ h.txSlotsCount + 1) (enough : h.txSlotsCount + 1 - txSlotId < rounds)
    (sound : ∀ t ∈ logSteps h rounds txSlotId s, t.2.Sound h t.1) :
    (∃ s', checkSlots h rounds txSlotId s = some s' ∧
        WritesIn (processed h (logSteps h rounds txSlotId s)) s.pool s'.pool) ∧
      ∀ t ∈ logSteps h rounds txSlotId s, ∀ a ∈ t.2.accesses h t.1, a.Inside := by
  have few := layout.few_slots
  induction rounds generalizing txSlotId s with
  | zero => omega
  | succ rounds ih =>
    rw [logSteps] at sound ⊢
    rw [checkSlots]
    by_cases round : txSlotId ≤ h.txSlotsCount
    · simp only [round, if_true, List.forall_mem_append] at sound ⊢
      obtain ⟨now, later⟩ := sound
      have next_id : (txSlotId + 1) % 2 ^ 8 = txSlotId + 1 := Nat.mod_eq_of_lt (by omega)
      have slot : (∃ next, checkSlot h s txSlotId = some next ∧
          WritesIn (processed h (slotSteps h s txSlotId)) s.pool next.pool) ∧
          ∀ t ∈ slotSteps h s txSlotId, ∀ a ∈ t.2.accesses h t.1, a.Inside := by
        by_cases known : txSlotId < h.txSlotsCount
        · exact slotSteps_tolerated layout known now
        · have missing := layout.slot_none (show h.txSlotsCount ≤ txSlotId by omega)
          simp only [checkSlot, slotSteps, missing]
          exact ⟨⟨s, rfl, WritesIn.refl _ _⟩, fun t impossible => absurd impossible List.not_mem_nil⟩
      obtain ⟨⟨next, checked, stores⟩, inside⟩ := slot
      rw [checked, next_id] at later ⊢
      obtain ⟨⟨s', rest, stores'⟩, inside'⟩ := ih (txSlotId + 1) next (by omega) (by omega) later
      refine ⟨⟨s', rest, ?_⟩, inside, inside'⟩
      exact (stores.mono (processed_mono (List.subset_append_left _ _))).trans
        (stores'.mono (processed_mono (List.subset_append_right _ _)))
    · simp only [round, if_false]
      exact ⟨⟨s, rfl, WritesIn.refl _ _⟩, fun t impossible => absurd impossible List.not_mem_nil⟩

-- the slot of a round is one of the log
def RecoveryStep.Known (h : Handle) : RecoveryStep → Prop
  | .log slot => ∃ i < h.txSlotsCount, slot = h.slotAddr i
  | .entry slot _ _ => ∃ i < h.txSlotsCount, slot = h.slotAddr i
  | .block _ => True

theorem slotSteps_known (layout : h.LogLayout) (s : Store) (i : Nat) : ∀ t ∈ slotSteps h s i, t.2.Known h := by
  by_cases known : i < h.txSlotsCount
  · rw [slotSteps, layout.slot_eq known]
    refine List.forall_mem_cons.mpr ⟨⟨i, known, rfl⟩, fun t member => ?_⟩
    split at member
    · cases member
    · obtain ⟨pos, same, -, -⟩ := walkSteps_range layout known i _ (2 ^ 64) _ s t member
      rw [same]
      exact ⟨i, known, rfl⟩
  · rw [slotSteps, layout.slot_none (by omega)]
    exact fun t impossible => absurd impossible List.not_mem_nil

theorem logSteps_known (layout : h.LogLayout) (rounds txSlotId : Nat) (s : Store) :
    ∀ t ∈ logSteps h rounds txSlotId s, t.2.Known h := by
  induction rounds generalizing txSlotId s with
  | zero => exact fun t impossible => absurd impossible List.not_mem_nil
  | succ rounds ih =>
    rw [logSteps]
    split
    · refine List.forall_mem_append.mpr ⟨slotSteps_known layout s txSlotId, ?_⟩
      cases checkSlot h s txSlotId with
      | none => exact fun t impossible => absurd impossible List.not_mem_nil
      | some next => exact ih _ next
    · exact fun t impossible => absurd impossible List.not_mem_nil

theorem blockSteps_block (m : Mem) : ∀ t ∈ blockSteps h m, ∃ blkId, t = (m, .block blkId) := by
  intro t member
  obtain ⟨i, -, member⟩ := List.mem_flatMap.mp member
  obtain ⟨blkId, -, same⟩ := List.mem_map.mp member
  exact ⟨blkId, same.symm⟩

theorem openSteps_known (layout : h.LogLayout) (s : Store) : ∀ t ∈ openSteps h s, t.2.Known h := by
  refine List.forall_mem_append.mpr ⟨logSteps_known layout _ _ s, ?_⟩
  cases txLogCheck h s with
  | none => exact fun t impossible => absurd impossible List.not_mem_nil
  | some checked =>
    intro t member
    obtain ⟨blkId, rfl⟩ := blockSteps_block _ t member
    trivial

theorem RecoveryStep.room {m : Mem} {step : RecoveryStep} (known : step.Known h) :
    ∀ a ∈ step.accesses h m, (∃ i < h.txSlotsCount, a.start = h.slotAddr i ∧ a.size = h.backend.txSlotSize) ∨
      (∃ id, backendDirect h.backend id = some a.start ∧ a.size = h.backend.blockSize id) ∨
      a.size = 0 ∧ a.start = 0 ∧ 0 < a.addr + a.len := by
  have none_left : ∀ {P : Access → Prop}, ∀ a ∈ ([] : List Access), P a :=
    fun a impossible => absurd impossible List.not_mem_nil
  cases step with
  | log slot =>
    obtain ⟨i, inside, rfl⟩ := known
    simp only [RecoveryStep.accesses]
    split
    · exact List.forall_mem_singleton.mpr (Or.inl ⟨i, inside, rfl, rfl⟩)
    · exact List.forall_mem_cons.mpr ⟨Or.inl ⟨i, inside, rfl, rfl⟩,
        List.forall_mem_singleton.mpr (Or.inl ⟨i, inside, rfl, rfl⟩)⟩
  | entry slot pos commit =>
    obtain ⟨i, inside, rfl⟩ := known
    refine List.forall_mem_cons.mpr ⟨Or.inl ⟨i, inside, rfl, rfl⟩, ?_⟩
    cases (readEntry m pos).target commit with
    | none => exact none_left
    | some blkId =>
      simp only [updateAccesses, zeroAccesses]
      cases direct : backendDirect h.backend blkId with
      | none =>
        split
        · refine List.forall_mem_cons.mpr ⟨Or.inl ⟨i, inside, rfl, rfl⟩, List.forall_mem_cons.mpr
            ⟨Or.inr (Or.inr ⟨rfl, rfl, ?_⟩), List.forall_mem_singleton.mpr (Or.inr (Or.inr ⟨rfl, rfl, ?_⟩))⟩⟩
          · simp only [sizeofDataHdr]
            omega
          · simp only [sizeofDataHdr]
            omega
        · exact none_left
      | some obj =>
        split
        · exact List.forall_mem_cons.mpr ⟨Or.inl ⟨i, inside, rfl, rfl⟩, List.forall_mem_cons.mpr
            ⟨Or.inr (Or.inl ⟨blkId, direct, rfl⟩), List.forall_mem_singleton.mpr (Or.inr (Or.inl ⟨blkId, direct, rfl⟩))⟩⟩
        · exact List.forall_mem_cons.mpr ⟨Or.inr (Or.inl ⟨blkId, direct, rfl⟩),
            List.forall_mem_singleton.mpr (Or.inr (Or.inl ⟨blkId, direct, rfl⟩))⟩
  | block blkId =>
    simp only [RecoveryStep.accesses]
    split
    · exact none_left
    · cases direct : backendDirect h.backend blkId with
      | none => exact none_left
      | some obj =>
        simp only
        split
        · exact List.forall_mem_singleton.mpr (Or.inr (Or.inl ⟨blkId, direct, rfl⟩))
        · exact List.forall_mem_cons.mpr ⟨Or.inr (Or.inl ⟨blkId, direct, rfl⟩),
            List.forall_mem_singleton.mpr (Or.inr (Or.inl ⟨blkId, direct, rfl⟩))⟩

theorem RecoveryStep.in_pool (layout : h.RecoveryLayout) {m : Mem} {step : RecoveryStep} (known : step.Known h)
    {a : Access} (member : a ∈ step.accesses h m) (inside : a.Inside) :
    h.backend.txLog ≤ a.addr ∧ a.addr + a.len ≤ h.poolEnd := by
  obtain ⟨lower, upper⟩ := inside
  rcases RecoveryStep.room known a member with ⟨i, slot, start, size⟩ | ⟨id, direct, size⟩ | ⟨size, start, some_byte⟩
  · have below := Handle.slot_below slot
    have log_below := layout.log_below
    have log_start : h.backend.txLog ≤ h.slotAddr i := Nat.le_add_right _ _
    omega
  · have above := layout.blocks_above id a.start direct
    have below := layout.blocks_below id a.start direct
    have log_start : h.backend.txLog ≤ h.logEnd := Nat.le_add_right _ _
    omega
  · omega

end Runs

-- recovery stays in the slot or block that it is processing exactly when every round finds sizes that fit it: no
-- other property of the content matters
theorem recovery_tolerates_iff {h : Handle} (layout : h.RecoveryLayout) (s : Store) :
    Tolerates h s ↔ ∀ t ∈ openSteps h s, t.2.Sound h t.1 := by
  constructor
  · exact fun tolerates t member => RecoveryStep.sound_of_inside (tolerates.inside t member)
  · intro sound
    obtain ⟨log_sound, block_sound⟩ := List.forall_mem_append.mp sound
    have few := layout.few_slots
    obtain ⟨⟨checked, done, stores⟩, log_inside⟩ :=
      logSteps_tolerated layout (2 ^ 8) 1 s (by omega) (by omega) log_sound
    have check : txLogCheck h s = some checked := done
    have inside : ∀ t ∈ openSteps h s, ∀ a ∈ t.2.accesses h t.1, a.Inside := by
      refine List.forall_mem_append.mpr ⟨log_inside, fun t member => ?_⟩
      refine RecoveryStep.inside_of_sound layout (block_sound t member) ?_
      rw [check] at member
      obtain ⟨blkId, rfl⟩ := blockSteps_block _ t member
      exact fun _ _ _ => nofun
    exact ⟨inside,
      fun t member a access =>
        RecoveryStep.in_pool layout (openSteps_known layout.toLogLayout s t member) access (inside t member a access),
      checked, check, stores.mono (processed_mono (List.subset_append_left _ _))⟩

def twoSlotMetaPool : MapArgs := { samplePool with txSlotsCount := 2, txSlotSize := 64 * 1024 * 1024 }

def twoSlotMetaHandle : Handle :=
  { sampleHandle with
    backend := { sampleBackend with txSlotsCount := 2, txSlotSize := 64 * 1024 * 1024 }
    txSlotsCount := 2
    checksum := nonzeroFletcher64 }

theorem twoSlotMetaHandle_layout : twoSlotMetaHandle.RecoveryLayout := by
  have no_wrap : twoSlotMetaPool.NoWrap := ⟨by decide +kernel, by decide +kernel⟩
  have mapped : backendMapCommon twoSlotMetaPool none = .ok twoSlotMetaHandle.backend := by decide +kernel
  have first_meta : twoSlotMetaHandle.backend.metaBsize ≤
      twoSlotMetaHandle.backend.dataNlba * twoSlotMetaHandle.backend.bsize := by decide
  exact Backend.Mapped.recoveryLayout (backendMapCommon_mapped no_wrap mapped)
    (Backend.Mapped.logLayout no_wrap mapped rfl (by decide) (by decide) (by decide +kernel) (by decide +kernel)
      (Or.inr first_meta)) (by decide) (by decide) (by decide) (Or.inr first_meta)

-- the machine stopped after the transaction of the second slot had put an object into block 1
def interruptedStore : Store :=
  (pmbTput twoSlotMetaHandle (pmbTxBegin twoSlotMetaHandle (pmbTxBegin twoSlotMetaHandle
    { flatStore with txSlotsList := some ⟨2, 1, 2, []⟩ }).1).1 2 (onePair 0)).1

theorem recovery_tolerates_iff_sample : Tolerates twoSlotMetaHandle interruptedStore :=
  (recovery_tolerates_iff twoSlotMetaHandle_layout interruptedStore).mpr (by decide +kernel)

-- the same content with another size in the header of the slot, or another length in the header of the block
def tornSlot : Store :=
  { interruptedStore with pool := interruptedStore.pool.setSize (twoSlotMetaHandle.slotAddr 1) (2 ^ 40) }

def tornBlock : Store := { interruptedStore with pool := interruptedStore.pool.setValLen blockOne (2 ^ 32 - 1) }

-- the checksum of a slot is computed over as many bytes as its header says, and a block is zeroed over as many as its
-- own header says, before any checksum was right: behind the end of the pool
theorem torn_sizes_escape :
    (∃ t ∈ openSteps twoSlotMetaHandle tornSlot, ∃ a ∈ t.2.accesses twoSlotMetaHandle t.1,
        twoSlotMetaHandle.poolEnd < a.addr + a.len) ∧
      (∃ t ∈ openSteps twoSlotMetaHandle tornBlock, ∃ a ∈ t.2.accesses twoSlotMetaHandle t.1,
        twoSlotMetaHandle.poolEnd < a.addr + a.len) ∧
      ¬Tolerates twoSlotMetaHandle tornSlot ∧ ¬Tolerates twoSlotMetaHandle tornBlock := by
  have slot : ∃ t ∈ openSteps twoSlotMetaHandle tornSlot, ∃ a ∈ t.2.accesses twoSlotMetaHandle t.1,
      twoSlotMetaHandle.poolEnd < a.addr + a.len := by decide +kernel
  have block : ∃ t ∈ openSteps twoSlotMetaHandle tornBlock, ∃ a ∈ t.2.accesses twoSlotMetaHandle t.1,
      twoSlotMetaHandle.poolEnd < a.addr + a.len := by decide +kernel
  have outside : ∀ s, (∃ t ∈ openSteps twoSlotMetaHandle s, ∃ a ∈ t.2.accesses twoSlotMetaHandle t.1,
      twoSlotMetaHandle.poolEnd < a.addr + a.len) → ¬Tolerates twoSlotMetaHandle s := by
    rintro s ⟨t, member, a, access, above⟩ tolerates
    exact absurd (tolerates.in_pool t member a access).2 (by omega)
  exact ⟨slot, block, outside _ slot, outside _ block⟩

def wideHandle : Handle where
  backend := { sampleBackend with
    bsize := 8192
    datasize := 24576
    metasize := 12288
    metaNlba := 3
    txSlotsCount := 2
    txSlotSize := 67108864
    metaArea := 139638110978048 }
  maxKeyLen := 64
  maxValLen := 8096
  metaMaxKeyLen := 64
  metaMaxValLen := 4000
  txSlotsCount := 2
  checksum := nonzeroFletcher64

def wideStore : Store := openEmpty wideHandle { zeroStore with txSlotsList := some ⟨2, 1, 2, []⟩ }

-- the last two blocks of the meta region
def metaBlockFour : Nat := 139638110978048

def metaBlockFive : Nat := metaBlockFour + 4096

end PmBackend
