import PmBackend.CallStores
import PmBackend.CrashRuns

set_option autoImplicit false

namespace PmBackend

open ByteMemory

section Pages

variable {h : Handle} {p q : Pool} {s s' : Store} {m m' : Mem}

theorem Handle.slot_above (h : Handle) (i : Nat) : h.backend.txLog ≤ h.slotAddr i := Nat.le_add_right _ _

theorem Handle.LogLayout.direct_above (layout : h.LogLayout) {id obj : Nat}
    (direct : backendDirect h.backend id = some obj) : h.backend.txLog ≤ obj :=
  (h.slot_above h.txSlotsCount).trans (layout.blocks_above id obj direct)

theorem Handle.blocks_behind (h : Handle) : h.blockArea ⊆ Set.Ici h.backend.txLog :=
  fun _ above => (h.slot_above h.txSlotsCount).trans above

theorem Handle.slot_behind (h : Handle) (i offset len : Nat) :
    span (h.slotAddr i + offset) len ⊆ Set.Ici h.backend.txLog :=
  span_Ici ((h.slot_above i).trans (Nat.le_add_right _ _)) len

theorem Call.storeArea_behind (h : Handle) (s : Store) (ret : Return) (call : Call) :
    call.storeArea h s ret ⊆ Set.Ici h.backend.txLog := by
  have header : span (h.slotAddr (ret.txSlot - 1)) 24 ⊆ Set.Ici h.backend.txLog := h.slot_behind _ 0 24
  have entries : ∀ i len, h.entryArea s i len ⊆ Set.Ici h.backend.txLog := fun i len =>
    Set.union_subset (h.slot_behind i 16 8) (h.slot_behind i _ len)
  cases call with
  | tput txSlot kv => exact Set.union_subset (entries _ _) h.blocks_behind
  | tputMeta txSlot kv => exact Set.union_subset (entries _ _) h.blocks_behind
  | tdel txSlot blkId => exact entries _ _
  | txBegin => exact header
  | txCommit txSlot => exact header
  | txExecute txSlot => exact Set.union_subset header h.blocks_behind
  | txAbort txSlot => exact Set.union_subset header h.blocks_behind
  | resolveConflict blkId1 blkId2 => exact h.blocks_behind

theorem StopsWith.stopsDuring (stops : StopsWith p q m) :
    ∃ later, q.events = later ++ p.events ∧ m ∈ PmBackend.stopsDuring ∅ p.mem later := by
  obtain ⟨done, rest, events, memory⟩ := stops
  refine ⟨rest ++ done, events, ?_⟩
  rcases memory with rfl | ⟨later, addr, bytes, count, rfl, rfl⟩
  · rw [stopsDuring_append]
    exact Or.inl (mem_stopsDuring_last ∅ p.mem done)
  · rw [List.append_assoc, stopsDuring_append]
    exact Or.inl (Or.inr ⟨count, fun x member => absurd member (Set.notMem_empty x), rfl⟩)

-- nothing is stored before the log, wherever the machine stops
theorem runCall_behind (layout : h.LogLayout) {call : Call} {ret : Return} (safe : SlotSafe h s call)
    (run : runCall h s call = some (s', ret)) : StoresIn (Set.Ici h.backend.txLog) s.pool s'.pool :=
  (runCall_storesIn layout safe run).mono (call.storeArea_behind h s ret)

theorem checkSlots_behind (layout : h.LogLayout) {rounds txSlotId : Nat}
    (checked : checkSlots h rounds txSlotId s = some s') : StoresIn (Set.Ici h.backend.txLog) s.pool s'.pool :=
  checkSlots_storesIn layout h.blocks_behind (fun j _ => h.slot_behind j 0 24) checked

theorem KilledOpen.behind (layout : h.LogLayout) (kills : Relation.ReflTransGen (KilledOpen h) m m') :
    ChangedIn (Set.Ici h.backend.txLog) m m' := by
  induction kills with
  | refl => exact ChangedIn.refl _ _
  | tail _ killed ih =>
    obtain ⟨s, t, rfl, checked, stops⟩ := killed
    exact ih.trans ((checkSlots_behind layout checked).stopped stops.stopsDuring)

theorem Reopens.behind (layout : h.LogLayout) {heap : Nat → Nat → TxMeta} (reopens : Reopens h heap s s') :
    ChangedIn (Set.Ici h.backend.txLog) s.pool.mem s'.pool.mem := by
  obtain ⟨mapped, initial, bytes, init, checked, done, recovers⟩ := reopens
  have pool : initial.pool = mapped.pool := by
    obtain ⟨list, -, rfl⟩ := Option.map_eq_some_iff.mp init
    rfl
  have recovered : s'.pool = checked.pool := by
    obtain ⟨pushes, -, rfl⟩ := recovers
    exact foldl_recoveryPush_pool pushes _
  rw [recovered, ← bytes, ← pool]
  exact (checkSlots_behind layout done).last

end Pages

end PmBackend
