import PmBackend.FreeOrLive
import PmBackend.RecoveryScan

set_option autoImplicit false

namespace PmBackend

open ByteMemory

section Readable

variable (h : Handle) (s : Store)

def Freed (id : Nat) : Prop := Listed s.freeList id ∨ Listed s.metaFreeList id

def ReadableListed : Prop :=
  ∀ id, (∃ object, pmbGet h s.pool.mem id = .ok object) ↔ Listed s.objsList id ∨ Listed s.metaObjsList id

def FreedMissing : Prop := ∀ id, Freed s id → pmbGet h s.pool.mem id = .error .enoent

def FreedBlank : Prop :=
  ∀ id, Freed s id → ∀ obj, backendDirect h.backend id = some obj → flch64 s.pool.mem obj = 0

-- the two tests of liveness agree: every block with a checksum in its header verifies
def Handle.Verifies (m : Mem) : Prop :=
  ∀ id, id ≠ 0 → id < h.totalObjsCount + h.metaObjsCount → h.Live m id → h.ValidObject m id

end Readable

section Recovered

variable {h : Handle} {s s' : Store}

theorem Handle.ValidObject.live {m : Mem} {id : Nat} (valid : h.ValidObject m id) : h.Live m id := by
  obtain ⟨obj, direct, nonzero, -⟩ := valid
  exact ⟨obj, direct, nonzero⟩

theorem pmbGet_ok_iff {m : Mem} {id : Nat} (positive : id ≠ 0) :
    (∃ object, pmbGet h m id = .ok object) ↔ h.Live m id := by
  unfold pmbGet backendGet Handle.Live
  rw [if_neg positive]
  cases backendDirect h.backend id with
  | none => simp
  | some obj => by_cases dead : flch64 m obj = 0 <;> simp [dead]

theorem pmbGet_missing_iff {m : Mem} {id : Nat} (positive : id ≠ 0) :
    pmbGet h m id = .error .enoent ↔ ¬h.Live m id := by
  unfold pmbGet backendGet Handle.Live
  rw [if_neg positive]
  cases backendDirect h.backend id with
  | none => simp
  | some obj => by_cases dead : flch64 m obj = 0 <;> simp [dead]

theorem backendGet_dead {m : Mem} {id obj : Nat} (positive : id ≠ 0) (dead : ¬h.Live m id) :
    backendGet h m id ≠ .ok obj := by
  intro found
  have missing := (pmbGet_missing_iff positive).mpr dead
  simp [pmbGet, found] at missing

theorem Recovery.pool (recovered : Recovery h s.emptyLists s') : s'.pool = s.pool := by
  obtain ⟨pushes, -, rfl⟩ := recovered
  exact foldl_recoveryPush_pool pushes _

theorem Recovery.freed_iff (ids : h.Ids) (recovered : Recovery h s.emptyLists s') (id : Nat) :
    Freed s' id ↔ id ≠ 0 ∧ id < h.totalObjsCount + h.metaObjsCount ∧ ¬h.ValidObject s.pool.mem id := by
  have free := recovered_listed ids recovered .free id
  have metaFree := recovered_listed ids recovered .metaFree id
  have data (positive : id ≠ 0) := recoveryList_eq ids s.pool.mem positive
  simp only [Store.recovered] at free metaFree
  rw [Freed, free, metaFree]
  constructor
  · rintro (⟨positive, known, kind⟩ | ⟨positive, known, kind⟩)
    · exact ⟨positive, known, ((data positive known .free).mp kind).2⟩
    · exact ⟨positive, known, ((data positive known .metaFree).mp kind).2⟩
  · rintro ⟨positive, known, invalid⟩
    by_cases region : id < h.totalObjsCount
    · exact Or.inl ⟨positive, known, (data positive known .free).mpr ⟨region, invalid⟩⟩
    · exact Or.inr ⟨positive, known, (data positive known .metaFree).mpr ⟨by omega, invalid⟩⟩

theorem Recovery.listed_iff (ids : h.Ids) (recovered : Recovery h s.emptyLists s') (id : Nat) :
    Listed s'.objsList id ∨ Listed s'.metaObjsList id ↔
      id ≠ 0 ∧ id < h.totalObjsCount + h.metaObjsCount ∧ h.ValidObject s.pool.mem id := by
  have objs := recovered_listed ids recovered .objs id
  have metaObjs := recovered_listed ids recovered .metaObjs id
  have data (positive : id ≠ 0) := recoveryList_eq ids s.pool.mem positive
  simp only [Store.recovered] at objs metaObjs
  rw [objs, metaObjs]
  constructor
  · rintro (⟨positive, known, kind⟩ | ⟨positive, known, kind⟩)
    · exact ⟨positive, known, ((data positive known .objs).mp kind).2⟩
    · exact ⟨positive, known, ((data positive known .metaObjs).mp kind).2⟩
  · rintro ⟨positive, known, valid⟩
    by_cases region : id < h.totalObjsCount
    · exact Or.inl ⟨positive, known, (data positive known .objs).mpr ⟨region, valid⟩⟩
    · exact Or.inr ⟨positive, known, (data positive known .metaObjs).mpr ⟨by omega, valid⟩⟩

theorem Recovery.readable_iff (ids : h.Ids) (recovered : Recovery h s.emptyLists s') :
    ReadableListed h s' ↔ h.Verifies s.pool.mem := by
  unfold ReadableListed
  rw [recovered.pool]
  constructor
  · intro readable id positive known live
    have found := (readable id).mp ((pmbGet_ok_iff positive).mpr live)
    exact ((recovered.listed_iff ids id).mp found).2.2
  · intro verifies id
    rw [recovered.listed_iff ids id]
    constructor
    · intro found
      have positive : id ≠ 0 := by
        rintro rfl
        simp [pmbGet, backendGet] at found
      have live := (pmbGet_ok_iff positive).mp found
      have known : id < h.totalObjsCount + h.metaObjsCount := by
        obtain ⟨obj, direct, -⟩ := live
        exact (backendDirect_known ids.fit id).mp ⟨obj, direct⟩
      exact ⟨positive, known, verifies id positive known live⟩
    · rintro ⟨positive, -, valid⟩
      exact (pmbGet_ok_iff positive).mpr valid.live

theorem Recovery.missing_iff (ids : h.Ids) (recovered : Recovery h s.emptyLists s') :
    FreedMissing h s' ↔ h.Verifies s.pool.mem := by
  unfold FreedMissing
  rw [recovered.pool]
  constructor
  · intro missing id positive known live
    by_contra invalid
    have freed := missing id ((recovered.freed_iff ids id).mpr ⟨positive, known, invalid⟩)
    exact (pmbGet_missing_iff positive).mp freed live
  · intro verifies id freed
    obtain ⟨positive, known, invalid⟩ := (recovered.freed_iff ids id).mp freed
    exact (pmbGet_missing_iff positive).mpr fun live => invalid (verifies id positive known live)

theorem Recovery.blank_iff (ids : h.Ids) (recovered : Recovery h s.emptyLists s') :
    FreedBlank h s' ↔ h.Verifies s.pool.mem := by
  unfold FreedBlank
  rw [recovered.pool]
  constructor
  · intro blank id positive known live
    obtain ⟨obj, direct, nonzero⟩ := live
    by_contra invalid
    exact nonzero (blank id ((recovered.freed_iff ids id).mpr ⟨positive, known, invalid⟩) obj direct)
  · intro verifies id freed obj direct
    obtain ⟨positive, known, invalid⟩ := (recovered.freed_iff ids id).mp freed
    by_contra nonzero
    exact invalid (verifies id positive known ⟨obj, direct, nonzero⟩)

theorem Recovery.freeOrLive (ids : h.Ids) (recovered : Recovery h s.emptyLists s')
    (verifies : h.Verifies s.pool.mem) : FreeOrLive h s' := by
  have null_block := ids.null_block
  have dead : ∀ id, id ≠ 0 → id < h.totalObjsCount + h.metaObjsCount →
      (¬h.ValidObject s.pool.mem id ↔ ¬h.Live s.pool.mem id) := fun id positive known =>
    not_congr ⟨Handle.ValidObject.live, verifies id positive known⟩
  obtain ⟨free, freeLists, freeIff⟩ := recovery_lists ids recovered .free
  obtain ⟨metaFree, metaLists, metaIff⟩ := recovery_lists ids recovered .metaFree
  refine ⟨⟨free, freeLists, fun id => ?_⟩, metaFree, metaLists, fun id => ?_⟩
  · rw [freeIff, recovered.pool]
    constructor
    · rintro ⟨positive, known, kind⟩
      obtain ⟨data, invalid⟩ := (recoveryList_eq ids _ positive known .free).mp kind
      exact ⟨⟨by omega, data⟩, (dead id positive known).mp invalid⟩
    · rintro ⟨range, blank⟩
      have known : id < h.totalObjsCount + h.metaObjsCount := by omega
      have positive : id ≠ 0 := by omega
      exact ⟨positive, known, (recoveryList_eq ids _ positive known .free).mpr
        ⟨range.2, (dead id positive known).mpr blank⟩⟩
  · rw [metaIff, recovered.pool]
    constructor
    · rintro ⟨positive, known, kind⟩
      obtain ⟨border, invalid⟩ := (recoveryList_eq ids _ positive known .metaFree).mp kind
      exact ⟨⟨border, known⟩, (dead id positive known).mp invalid⟩
    · rintro ⟨range, blank⟩
      have positive : id ≠ 0 := by omega
      exact ⟨positive, range.2, (recoveryList_eq ids _ positive range.2 .metaFree).mpr
        ⟨range.1, (dead id positive range.2).mpr blank⟩⟩

end Recovered

section Later

variable {h : Handle} {s s' : Store}

theorem FreeOrLive.freed_dead (wf : FreeOrLive h s) {id : Nat} (freed : Freed s id) : ¬h.Live s.pool.mem id := by
  rcases freed with listed | listed
  · obtain ⟨ids, lists, iff⟩ := wf.data
    exact ((iff id).mp ((lists.listed id).mp listed)).2
  · obtain ⟨ids, lists, iff⟩ := wf.metadata
    exact ((iff id).mp ((lists.listed id).mp listed)).2

theorem checkSlot_empty {txSlotId : Nat}
    (empty : ∀ slot, backendTxDirect h.backend txSlotId = some slot →
      slotStatus s.pool.mem slot = TxStatus.empty.code) : checkSlot h s txSlotId = some s := by
  unfold checkSlot
  cases direct : backendTxDirect h.backend txSlotId with
  | none => rfl
  | some slot => simp only [if_pos (empty slot direct)]

theorem txLogCheck_empty {checked : Store}
    (empty : ∀ txSlotId slot, backendTxDirect h.backend txSlotId = some slot →
      slotStatus s.pool.mem slot = TxStatus.empty.code)
    (log : txLogCheck h s = some checked) : checked = s := by
  rw [txLogCheck, checkSlots_visited, Option.bind_eq_some_iff] at log
  obtain ⟨visited, -, folded⟩ := log
  have unchanged : ∀ slots : List Nat, slots.foldlM (checkSlot h) s = some s := by
    intro slots
    induction slots with
    | nil => rfl
    | cons txSlotId rest ih =>
      rw [List.foldlM_cons, checkSlot_empty (empty txSlotId)]
      exact ih
  rw [unchanged] at folded
  exact (Option.some.inj folded).symm

end Later

-- after an open the two tests of liveness agree, in each of the three ways to say so, exactly when no block that
-- recovery finds has a checksum that fails; then they agree in every later store, too
theorem recovery_frees_unreadable_iff {h : Handle} (ids : h.Ids) {s checked s' : Store}
    (log : txLogCheck h s = some checked) (recovered : Recovery h checked.emptyLists s') :
    ((ReadableListed h s' ↔ h.Verifies checked.pool.mem) ∧
      (FreedMissing h s' ↔ h.Verifies checked.pool.mem) ∧
      (FreedBlank h s' ↔ h.Verifies checked.pool.mem)) ∧
    ((∀ txSlotId slot, backendTxDirect h.backend txSlotId = some slot →
      slotStatus s.pool.mem slot = TxStatus.empty.code) → checked = s) ∧
    (h.Verifies checked.pool.mem → h.BlockLayout → (∀ bytes, h.checksum bytes ≠ 0) →
      (∀ j, (s'.updIdList j).count = 0) → ∀ t, Relation.ReflTransGen (BlockStep h) s' t →
        FreedMissing h t ∧ ∀ id obj, Freed t id → backendGet h t.pool.mem id ≠ .ok obj) := by
  refine ⟨⟨recovered.readable_iff ids, recovered.missing_iff ids, recovered.blank_iff ids⟩,
    fun empty => txLogCheck_empty empty log, ?_⟩
  intro verifies layout nonzero idle t run
  have wf := ((recovered.freeOrLive ids verifies).run layout nonzero idle run).1
  have positive : ∀ id, Freed t id → id ≠ 0 := by
    intro id freed
    have null_block := ids.null_block
    rcases freed with listed | listed
    · obtain ⟨free, lists, iff⟩ := wf.data
      have := (iff id).mp ((lists.listed id).mp listed)
      omega
    · obtain ⟨free, lists, iff⟩ := wf.metadata
      have := (iff id).mp ((lists.listed id).mp listed)
      omega
  exact ⟨fun id freed => (pmbGet_missing_iff (positive id freed)).mpr (wf.freed_dead freed),
    fun id obj freed => backendGet_dead (positive id freed) (wf.freed_dead freed)⟩

-- the object of block 1 verifies, and block 2 has the checksum field 2, which is not the checksum of its bytes
def corruptNeighbour : Store := { onceExecuted with pool := onceExecuted.pool.setFlch64 139638110961664 2 }

theorem onceExecuted_verifies : flatHandle.Verifies onceExecuted.pool.mem := by
  intro id positive known live
  obtain rfl | rfl : id = 1 ∨ id = 2 := by
    have total : flatHandle.totalObjsCount + flatHandle.metaObjsCount = 3 := rfl
    omega
  · exact ⟨139638110957568, by decide +kernel, by decide +kernel, by decide +kernel⟩
  · obtain ⟨obj, direct, nonzero⟩ := live
    have block : backendDirect flatHandle.backend 2 = some 139638110961664 := by decide +kernel
    cases block.symm.trans direct
    exact absurd nonzero (by decide +kernel)

theorem recovery_frees_unreadable_sample :
    (∃ s' t, Recovery flatHandle onceExecuted.emptyLists s' ∧ s'.objsList = some ⟨1, 1, 1, []⟩ ∧
      FreedMissing flatHandle s' ∧ t = (s'.after flatHandle .txBegin).after flatHandle (.tput 1 (onePair 0)) ∧
      FreedMissing flatHandle t) ∧
    ∃ s', Recovery flatHandle corruptNeighbour.emptyLists s' ∧ s'.objsList = some ⟨1, 1, 1, []⟩ ∧
      s'.freeList = some ⟨1, 2, 2, []⟩ ∧ ¬FreedMissing flatHandle s' := by
  have ids := flatHandle_layout.toIds
  constructor
  · have recovered := recoverInOrder_recovery flatHandle onceExecuted
    obtain ⟨⟨-, missing, -⟩, -, later⟩ := recovery_frees_unreadable_iff ids (flatHandle_checked onceExecuted) recovered
    have begins : BlockStep flatHandle (recoverInOrder flatHandle onceExecuted) _ :=
      .after .txBegin (by decide +kernel) trivial
    have puts : BlockStep flatHandle ((recoverInOrder flatHandle onceExecuted).after flatHandle .txBegin) _ :=
      .after (.tput 1 (onePair 0)) (by decide +kernel)
        ⟨fun _ => by decide +kernel, fun _ => ⟨by decide, fun _ named => absurd rfl named⟩⟩
    have idle : ∀ j, ((recoverInOrder flatHandle onceExecuted).updIdList j).count = 0 := by
      intro j
      rw [recoverInOrder, foldl_recoveryPush_lists]
      exact (flatStore_freeOrLive.run flatHandle_layout flatHandle_nonzero (fun _ => rfl) onceExecuted_run).2 j
    exact ⟨_, _, recovered, by decide +kernel, missing.mpr onceExecuted_verifies, rfl, (later onceExecuted_verifies
      flatHandle_layout flatHandle_nonzero idle _ ((Relation.ReflTransGen.single begins).tail puts)).1⟩
  · have recovered := recoverInOrder_recovery flatHandle corruptNeighbour
    obtain ⟨⟨-, missing, -⟩, -⟩ := recovery_frees_unreadable_iff ids (flatHandle_checked corruptNeighbour) recovered
    refine ⟨_, recovered, by decide +kernel, by decide +kernel, fun freed => ?_⟩
    obtain ⟨obj, direct, -, valid⟩ := missing.mp freed 2 (by decide) (by decide)
      ⟨139638110961664, by decide +kernel, by decide +kernel⟩
    have block : backendDirect flatHandle.backend 2 = some 139638110961664 := by decide +kernel
    cases block.symm.trans direct
    exact absurd valid (by decide +kernel)

-- block 1 has the checksum field 2, which is not the checksum of its bytes
def corruptStore : Store :=
  { zeroStore with pool := zeroStore.pool.setFlch64 (flatBackend.dataArea + 4096) 2 }

-- recovery frees the corrupt block, and the gets after it still return it
theorem freed_block_read :
    ∃ s', OpenExisting flatHandle corruptStore s' ∧ s'.freeList = some ⟨2, 1, 2, []⟩ ∧
      (pmbGet flatHandle s'.pool.mem 1).toBool = true ∧
      ¬ReadableListed flatHandle s' ∧ ¬FreedMissing flatHandle s' ∧ ¬FreedBlank flatHandle s' := by
  have recovered := recoverInOrder_recovery flatHandle corruptStore
  have ids := flatHandle_layout.toIds
  have corrupt : ¬flatHandle.Verifies corruptStore.pool.mem := by
    intro verifies
    obtain ⟨obj, direct, -, valid⟩ := verifies 1 (by decide) (by decide)
      ⟨flatBackend.dataArea + 4096, by decide +kernel, by decide +kernel⟩
    have addr : backendDirect flatHandle.backend 1 = some (flatBackend.dataArea + 4096) := by decide +kernel
    rw [addr] at direct
    cases direct
    revert valid
    decide +kernel
  refine ⟨_, ⟨_, flatHandle_checked corruptStore, recovered⟩, by decide +kernel, by decide +kernel,
    fun readable => ?_, fun missing => ?_, fun blank => ?_⟩
  · exact corrupt ((recovered.readable_iff ids).mp readable)
  · exact corrupt ((recovered.missing_iff ids).mp missing)
  · exact corrupt ((recovered.blank_iff ids).mp blank)

end PmBackend
