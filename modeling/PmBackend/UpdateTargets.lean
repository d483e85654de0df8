import PmBackend.FailedPuts

set_option autoImplicit false

namespace PmBackend

open ByteMemory

def OpenSlot (h : Handle) (s : Store) (txSlot : Nat) : Prop :=
  ∃ slot, backendTxDirect h.backend (txIndex txSlot) = some slot ∧
    slotStatus s.pool.mem slot = TxStatus.processing.code

def Handle.MetaBlock (h : Handle) (id : Nat) : Prop :=
  h.totalObjsCount ≤ id ∧ ∃ obj, backendDirect h.backend id = some obj

-- neither the log nor a block differs after the call, nor after the rest of the transaction
structure NothingWritten (h : Handle) (txSlot : Nat) (s s' : Store) : Prop where
  now : s'.pool = s.pool
  later : (runCalls h s' [.txCommit txSlot, .txExecute txSlot]).map (fun done => done.1.pool) =
    (runCalls h s [.txCommit txSlot, .txExecute txSlot]).map fun done => done.1.pool

-- an update has to name a live object of the data region
structure UpdateChecked (h : Handle) (s : Store) (txSlot : Nat) (kv : PmbPair) : Prop where
  -- a meta block without an object is refused for the one reason or for the other
  missing : ¬h.Live s.pool.mem kv.blkId →
    (pmbTput h s txSlot kv).2.1 = .enoent ∨ (h.MetaBlock kv.blkId ∧ (pmbTput h s txSlot kv).2.1 = .ewrgid)
  region : h.MetaBlock kv.blkId →
    (pmbTput h s txSlot kv).2.1 = .ewrgid ∨
      (¬h.Live s.pool.mem kv.blkId ∧ (pmbTput h s txSlot kv).2.1 = .enoent)
  unwritten : ¬h.Live s.pool.mem kv.blkId ∨ h.MetaBlock kv.blkId →
    NothingWritten h txSlot s (pmbTput h s txSlot kv).1

section Targets

variable {h : Handle} {s : Store} {txSlot : Nat} {kv : PmbPair}

theorem metaBlock_of_live {m : Mem} {id : Nat} (live : h.Live m id) (metadata : h.totalObjsCount ≤ id) :
    h.MetaBlock id := by
  obtain ⟨obj, direct, -⟩ := live
  exact ⟨metadata, obj, direct⟩

theorem backendGet_missing {m : Mem} {id : Nat} (missing : ¬h.Live m id) : ∃ error, backendGet h m id = .error error := by
  cases found : backendGet h m id with
  | error error => exact ⟨error, rfl⟩
  | ok obj =>
    obtain ⟨-, direct, live⟩ := backendGet_ok.mp found
    exact absurd ⟨obj, direct, live⟩ missing

theorem pmbTput_smallUpdate (args : TputArgs h txSlot kv) (small : SmallUpdate h kv) :
    pmbTput h s txSlot kv =
      ((txSlotOpSmallUpdate h s txSlot kv.blkId kv.valBytes kv.offset).1,
        (txSlotOpSmallUpdate h s txSlot kv.blkId kv.valBytes kv.offset).2, kv) := by
  unfold pmbTput
  rw [if_neg args.accepted, if_neg (Nat.not_lt.mpr args.value_fits)]
  exact if_pos small

theorem pmbTput_largeUpdate (args : TputArgs h txSlot kv) (update : kv.blkId ≠ 0) (large : ¬SmallUpdate h kv) :
    pmbTput h s txSlot kv =
      match backendGet h s.pool.mem kv.blkId with
      | .error _ => (s, .enoent, kv)
      | .ok old => tputNewBlock h s txSlot kv (some old) := by
  unfold pmbTput
  rw [if_neg args.accepted, if_neg (Nat.not_lt.mpr args.value_fits), if_neg (show ¬(_ ∧ _) from large)]
  exact if_pos update

theorem pmbTput_new (args : TputArgs h txSlot kv) (new : kv.blkId = 0) :
    pmbTput h s txSlot kv = tputNewBlock h s txSlot kv none := by
  unfold pmbTput
  rw [if_neg args.accepted, if_neg (Nat.not_lt.mpr args.value_fits), if_neg fun update => update.1 new]
  exact if_neg (not_not.mpr new)

theorem smallUpdate_accepted (args : TputArgs h txSlot kv) (small : SmallUpdate h kv) (opened : OpenSlot h s txSlot) :
    (pmbTput h s txSlot kv).2.1 = .ok := by
  obtain ⟨slot, direct, processing⟩ := opened
  rw [pmbTput_smallUpdate args small]
  simp only [txSlotOpSmallUpdate, txSlotAppend, direct, processing, ne_eq, not_true_eq_false, if_false]

theorem logNewBlock_status (h : Handle) (s : Store) (txSlot old new : Nat) :
    (logNewBlock h s txSlot old new).2 = .ok ∨ (logNewBlock h s txSlot old new).2 = .err := by
  obtain ⟨fill, -, append⟩ := logNewBlock_append h s txSlot old new
  rw [append]
  unfold txSlotAppend
  split
  · exact Or.inr rfl
  · simp only
    split
    · exact Or.inr rfl
    · exact Or.inl rfl

theorem tputNewBlock_status (h : Handle) (s : Store) (txSlot : Nat) (kv : PmbPair) (old : Option Nat) :
    (tputNewBlock h s txSlot kv old).2.1 = .enospc ∨ (tputNewBlock h s txSlot kv old).2.1 = .err ∨
      (tputNewBlock h s txSlot kv old).2.1 = .ok := by
  unfold tputNewBlock
  simp only
  split
  · exact Or.inl rfl
  · split
    · exact Or.inr (Or.inl rfl)
    · split
      · next refused =>
        rcases logNewBlock_status h { s with freeList := (caslistPop s.freeList 0).list } txSlot kv.blkId
          (caslistPop s.freeList 0).val with ok | err
        · exact absurd ok refused
        · exact Or.inr (Or.inl err)
      · exact Or.inr (Or.inr rfl)

-- the target of an update is checked when it is right anyway, or by an update that is large and does not name a live
-- meta block
theorem update_checked_iff (args : TputArgs h txSlot kv) (update : kv.blkId ≠ 0) (opened : OpenSlot h s txSlot) :
    UpdateChecked h s txSlot kv ↔
      (h.Live s.pool.mem kv.blkId ∧ kv.blkId < h.totalObjsCount) ∨
        (¬SmallUpdate h kv ∧ ¬(h.Live s.pool.mem kv.blkId ∧ h.totalObjsCount ≤ kv.blkId)) := by
  by_cases live : h.Live s.pool.mem kv.blkId
  · by_cases data : kv.blkId < h.totalObjsCount
    · refine ⟨fun _ => Or.inl ⟨live, data⟩, fun _ => ⟨fun dead => absurd live dead, fun metadata => ?_, ?_⟩⟩
      · exact absurd metadata.1 (Nat.not_le.mpr data)
      · rintro (dead | metadata)
        · exact absurd live dead
        · exact absurd metadata.1 (Nat.not_le.mpr data)
    · -- no path of `pmb_tput` returns PMB_EWRGID
      refine ⟨fun checked => ?_, fun allowed => ?_⟩
      · have refused := (checked.region (metaBlock_of_live live (Nat.not_lt.mp data))).resolve_right
          fun dead => dead.1 live
        by_cases small : SmallUpdate h kv
        · rw [smallUpdate_accepted args small opened] at refused
          cases refused
        · obtain ⟨obj, direct, found⟩ := live
          rw [pmbTput_largeUpdate args update small, backendGet_ok.mpr ⟨update, direct, found⟩] at refused
          rcases tputNewBlock_status h s txSlot kv (some obj) with status | status | status <;>
            · rw [status] at refused
              cases refused
      · rcases allowed with ⟨-, below⟩ | ⟨-, outside⟩
        · exact absurd below data
        · exact absurd ⟨live, Nat.not_lt.mp data⟩ outside
  · by_cases small : SmallUpdate h kv
    · have accepted := smallUpdate_accepted args small opened
      refine ⟨fun checked => ?_, fun allowed => ?_⟩
      · rcases checked.missing live with refused | ⟨-, refused⟩ <;>
          · rw [accepted] at refused
            cases refused
      · rcases allowed with right | ⟨large, -⟩
        · exact absurd right.1 live
        · exact absurd small large
    · -- the lookup of a large update fails, and nothing has happened before it
      obtain ⟨error, found⟩ := backendGet_missing live
      have refused : pmbTput h s txSlot kv = (s, .enoent, kv) := by
        rw [pmbTput_largeUpdate args update small, found]
      refine ⟨fun _ => Or.inr ⟨small, fun right => live right.1⟩, fun _ => ⟨fun _ => ?_, fun _ => ?_, fun _ => ?_⟩⟩
      · rw [refused]
        exact Or.inl rfl
      · rw [refused]
        exact Or.inr ⟨live, rfl⟩
      · rw [refused]
        exact ⟨rfl, rfl⟩

end Targets

theorem begunStore_open : OpenSlot flatHandle (begunStore flatHandle) 1 := by
  have direct : backendTxDirect flatHandle.backend (txIndex 1) = some 139637976735744 := by decide +kernel
  exact ⟨_, direct, by decide +kernel⟩

theorem begunStore_dead : ¬flatHandle.Live (begunStore flatHandle).pool.mem 1 := by
  have direct : backendDirect flatHandle.backend 1 = some 139638110957568 := by decide +kernel
  rintro ⟨obj, direct', live⟩
  rw [direct] at direct'
  cases direct'
  exact live (by decide +kernel)

theorem update_checked_iff_sample :
    (pmbTput flatHandle (begunStore flatHandle) 1 { onePair 1 with valLen := 4000 }).2.1 = .enoent := by
  have args : TputArgs flatHandle 1 { onePair 1 with valLen := 4000 } :=
    ⟨by decide, by decide, by decide, by decide, ⟨_, rfl⟩, Or.inr ⟨_, rfl⟩, fun _ => rfl, by decide +kernel⟩
  have large : ¬SmallUpdate flatHandle { onePair 1 with valLen := 4000 } := fun small => absurd small.2 (by decide)
  have checked := (update_checked_iff args (by decide) begunStore_open).mpr
    (Or.inr ⟨large, fun live => begunStore_dead live.1⟩)
  exact (checked.missing begunStore_dead).resolve_right fun metadata => absurd metadata.1.1 (by decide)

-- a one-byte update of a block without an object is accepted, and executed
theorem missing_update_accepted :
    TputArgs flatHandle 1 (onePair 1) ∧ OpenSlot flatHandle (begunStore flatHandle) 1 ∧
      ¬flatHandle.Live (begunStore flatHandle).pool.mem 1 ∧
      (pmbTput flatHandle (begunStore flatHandle) 1 (onePair 1)).2.1 = .ok ∧
      ¬UpdateChecked flatHandle (begunStore flatHandle) 1 (onePair 1) := by
  have args : TputArgs flatHandle 1 (onePair 1) :=
    ⟨by decide, by decide, by decide, by decide, ⟨_, rfl⟩, Or.inr ⟨_, rfl⟩, fun _ => rfl, by decide +kernel⟩
  have accepted : (pmbTput flatHandle (begunStore flatHandle) 1 (onePair 1)).2.1 = .ok := by decide +kernel
  refine ⟨args, begunStore_open, begunStore_dead, accepted, fun checked => ?_⟩
  rcases checked.missing begunStore_dead with refused | ⟨-, refused⟩ <;>
    · rw [accepted] at refused
      cases refused

end PmBackend
