import PmBackend.Blocks

set_option autoImplicit false

namespace PmBackend

open ByteMemory

-- the values of the `uint8_t` loop variable of `tx_log_check` and of `tx_log_init`
def visitedIds (h : Handle) : Nat → Nat → Option (List Nat)
  | 0, _ => none
  | rounds + 1, txSlotId =>
    if txSlotId ≤ h.txSlotsCount then
      (visitedIds h rounds ((txSlotId + 1) % 2 ^ 8)).map fun later => txSlotId :: later
    else some []

-- an id without a slot is passed over
def examined (h : Handle) (ids : List Nat) : List Nat :=
  ids.filter fun txSlotId => (backendTxDirect h.backend txSlotId).isSome

-- both loops over the slots end, every slot is examined once and left EMPTY, and the ids handed out are those of
-- examined slots
def RecoversAll (h : Handle) (s : Store) : Prop :=
  (∃ rounds ids checked, visitedIds h rounds 1 = some ids ∧ checkSlots h rounds 1 s = some checked ∧
    (examined h ids).Perm (List.range h.txSlotsCount) ∧
    (∀ i < h.txSlotsCount, ∀ slot, backendTxDirect h.backend i = some slot →
      slotStatus checked.pool.mem slot = TxStatus.empty.code) ∧
    ∀ txSlotId, 1 ≤ txSlotId → txSlotId ≤ h.txSlotsCount → txIndex txSlotId ∈ examined h ids) ∧
  ∃ rounds list, slotIdsLoop h rounds 1 (caslistNew 1 h.txSlotsCount) = some list ∧
    ListOf list (Finset.Icc 1 h.txSlotsCount)

section Scan

variable {h : Handle}

theorem checkSlots_visited (rounds txSlotId : Nat) (s : Store) :
    checkSlots h rounds txSlotId s =
      (visitedIds h rounds txSlotId).bind fun ids => ids.foldlM (checkSlot h) s := by
  induction rounds generalizing txSlotId s with
  | zero => rfl
  | succ rounds ih =>
    by_cases round : txSlotId ≤ h.txSlotsCount
    · have later : ∀ next, checkSlots h rounds ((txSlotId + 1) % 2 ^ 8) next =
          (visitedIds h rounds ((txSlotId + 1) % 2 ^ 8)).bind fun ids => ids.foldlM (checkSlot h) next :=
        fun next => ih _ next
      simp only [checkSlots, visitedIds, round, if_true, later]
      cases visitedIds h rounds ((txSlotId + 1) % 2 ^ 8) with
      | none => simp
      | some ids => simp [List.foldlM_cons]
    · simp [checkSlots, visitedIds, round]

theorem slotIdsLoop_visited (rounds i : Nat) (list : Option Caslist) :
    slotIdsLoop h rounds i list =
      (visitedIds h rounds i).map fun ids => ids.foldl caslistPush list := by
  induction rounds generalizing i list with
  | zero => rfl
  | succ rounds ih =>
    by_cases round : i ≤ h.txSlotsCount
    · simp only [slotIdsLoop, visitedIds, round, if_true, ih]
      cases visitedIds h rounds ((i + 1) % 2 ^ 8) <;> simp
    · simp [slotIdsLoop, visitedIds, round]

theorem visited_range (few_slots : h.txSlotsCount < 255) (rounds txSlotId : Nat)
    (bound : txSlotId ≤ h.txSlotsCount + 1) (enough : h.txSlotsCount + 1 - txSlotId < rounds) :
    visitedIds h rounds txSlotId = some (List.range' txSlotId (h.txSlotsCount + 1 - txSlotId)) := by
  induction rounds generalizing txSlotId with
  | zero => omega
  | succ rounds ih =>
    by_cases round : txSlotId ≤ h.txSlotsCount
    · have next : (txSlotId + 1) % 2 ^ 8 = txSlotId + 1 := Nat.mod_eq_of_lt (by omega)
      have later := ih (txSlotId + 1) (by omega) (by omega)
      have length : h.txSlotsCount + 1 - txSlotId = h.txSlotsCount + 1 - (txSlotId + 1) + 1 := by omega
      simp only [visitedIds, round, if_true, next, later, Option.map_some, length, List.range'_succ]
    · have none_left : h.txSlotsCount + 1 - txSlotId = 0 := by omega
      simp [visitedIds, round, none_left]

theorem visited_some (few_slots : h.txSlotsCount < 255) {rounds : Nat} {ids : List Nat}
    (visited : visitedIds h rounds 1 = some ids) : ids = List.range' 1 h.txSlotsCount := by
  -- whatever number of rounds is enough, the loop visits the same ids
  suffices any : ∀ rounds txSlotId ids, txSlotId ≤ h.txSlotsCount + 1 →
      visitedIds h rounds txSlotId = some ids →
        ids = List.range' txSlotId (h.txSlotsCount + 1 - txSlotId) by
    simpa using any rounds 1 ids (by omega) visited
  intro rounds
  induction rounds with
  | zero => intro txSlotId ids _ visited; cases visited
  | succ rounds ih =>
    intro txSlotId ids bound visited
    by_cases round : txSlotId ≤ h.txSlotsCount
    · have next : (txSlotId + 1) % 2 ^ 8 = txSlotId + 1 := Nat.mod_eq_of_lt (by omega)
      simp only [visitedIds, round, if_true, next] at visited
      obtain ⟨later, rest, rfl⟩ := Option.map_eq_some_iff.mp visited
      have length : h.txSlotsCount + 1 - txSlotId = h.txSlotsCount + 1 - (txSlotId + 1) + 1 := by omega
      rw [ih (txSlotId + 1) later (by omega) rest, length, List.range'_succ]
    · have none_left : h.txSlotsCount + 1 - txSlotId = 0 := by omega
      simp only [visitedIds, round, if_false, Option.some.injEq] at visited
      rw [← visited, none_left, List.range'_zero]

theorem visited_endless (full : h.txSlotsCount = 255) (rounds txSlotId : Nat) (byte : txSlotId < 2 ^ 8) :
    visitedIds h rounds txSlotId = none := by
  -- no `uint8_t` is above 255
  induction rounds generalizing txSlotId with
  | zero => rfl
  | succ rounds ih =>
    have round : txSlotId ≤ h.txSlotsCount := by omega
    have later := ih ((txSlotId + 1) % 2 ^ 8) (Nat.mod_lt _ (by decide))
    simp only [visitedIds, round, if_true, later, Option.map_none]

theorem txDirect_isSome (count : h.backend.txSlotsCount = h.txSlotsCount) (txSlotId : Nat) :
    (backendTxDirect h.backend txSlotId).isSome = decide (txSlotId < h.txSlotsCount) := by
  unfold backendTxDirect
  rw [count]
  by_cases known : txSlotId < h.txSlotsCount <;> simp [known]

theorem examined_range (count : h.backend.txSlotsCount = h.txSlotsCount) (some_slot : 1 ≤ h.txSlotsCount) :
    examined h (List.range' 1 h.txSlotsCount) = List.range' 1 (h.txSlotsCount - 1) := by
  -- the last id has no slot, and no id is that of the first slot
  obtain ⟨n, slots⟩ : ∃ n, h.txSlotsCount = n + 1 := ⟨h.txSlotsCount - 1, by omega⟩
  have split : List.range' 1 (n + 1) = List.range' 1 n ++ [n + 1] := by
    rw [List.range'_concat]
    simp [Nat.add_comm]
  have inside : ∀ txSlotId ∈ List.range' 1 n, txSlotId < n + 1 := by
    intro txSlotId member
    have := List.mem_range'_1.mp member
    omega
  simp only [examined, txDirect_isSome count, slots, split, List.filter_append, Nat.add_sub_cancel]
  rw [List.filter_eq_self.mpr (by simpa using inside)]
  simp

end Scan

-- recovery never goes through all slots: below 255 slots it leaves out the first one, and with 255 its loops do not
-- end
theorem recovers_all_never {h : Handle} (s : Store) (count : h.backend.txSlotsCount = h.txSlotsCount)
    (some_slot : 1 ≤ h.txSlotsCount) (byte : h.txSlotsCount < 2 ^ 8) :
    ¬RecoversAll h s ∧
      (h.txSlotsCount < 255 → visitedIds h (2 ^ 8) 1 = some (List.range' 1 h.txSlotsCount) ∧
        examined h (List.range' 1 h.txSlotsCount) = List.range' 1 (h.txSlotsCount - 1)) ∧
      (h.txSlotsCount = 255 → ∀ rounds, checkSlots h rounds 1 s = none ∧
        ∀ list, slotIdsLoop h rounds 1 list = none) := by
  have skips := examined_range count some_slot
  refine ⟨?_, fun few => ⟨?_, skips⟩, fun full rounds => ?_⟩
  · rintro ⟨⟨rounds, ids, checked, visited, -, every, -⟩, -⟩
    by_cases few : h.txSlotsCount < 255
    · have first : 0 ∈ examined h ids := every.mem_iff.mpr (List.mem_range.mpr some_slot)
      rw [visited_some few visited, skips, List.mem_range'_1] at first
      omega
    · rw [visited_endless (by omega) rounds 1 (by decide)] at visited
      cases visited
  · have visited := visited_range few (2 ^ 8) 1 (by omega) (by omega)
    rwa [Nat.add_sub_cancel] at visited
  · have endless := visited_endless full rounds 1 (by decide)
    refine ⟨by rw [checkSlots_visited, endless]; rfl, fun list => ?_⟩
    rw [slotIdsLoop_visited, endless]
    rfl

theorem flatHandle_checked (s : Store) : txLogCheck flatHandle s = some s := by
  have beyond : backendTxDirect flatHandle.backend 1 = none := by decide +kernel
  have only : flatHandle.txSlotsCount = 1 := rfl
  simp [txLogCheck, checkSlots, checkSlot, beyond, only]

theorem recovers_all_never_sample : ¬RecoversAll flatHandle flatStore :=
  (recovers_all_never flatStore rfl (by decide) (by decide)).1

-- the slot that was handed out is in PROCESSING after recovery as it was before
theorem first_slot_left :
    (pmbTxBegin flatHandle flatStore).2 = (.ok, 1) ∧
      (txLogCheck flatHandle (begunStore flatHandle)).map (fun checked => flatHandle.status checked 0) =
        some TxStatus.processing.code ∧
      ¬RecoversAll flatHandle (begunStore flatHandle) := by
  have looked : visitedIds flatHandle (2 ^ 8) 1 = some [1] := by decide +kernel
  refine ⟨by decide +kernel, by decide +kernel, ?_⟩
  rintro ⟨⟨rounds, ids, checked, visited, -, every, -⟩, -⟩
  have same : ids = [1] := visited_some (by decide) visited
  have first : 0 ∈ examined flatHandle ids := every.mem_iff.mpr (by decide)
  rw [same] at first
  exact absurd first (by decide)

end PmBackend
