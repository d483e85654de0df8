import PmBackend.LogContents
import PmBackend.PushOrder
import PmBackend.SealedBlocks

set_option autoImplicit false

namespace PmBackend

open ByteMemory

structure Confined (h : Handle) (area : Set Nat) (i : Nat) (released : List Nat) (s t : Store) : Prop where
  changed : ChangedIn area s.pool.mem t.pool.mem
  free : t.freeList = (released.filter fun id => decide (id < h.totalObjsCount)).foldl caslistPush s.freeList
  metaFree : t.metaFreeList =
    (released.filter fun id => !decide (id < h.totalObjsCount)).foldl caslistPush s.metaFreeList
  lists : ∀ j ≠ i, t.updIdList j = s.updIdList j
  objs : t.objsList = s.objsList
  metaObjs : t.metaObjsList = s.metaObjsList
  slots : t.txSlotsList = s.txSlotsList

-- two stores that are the same for an execution that stays in the area
structure SameFor (area : Set Nat) (i : Nat) (s s' : Store) : Prop where
  mem : AgreeOn area s.pool.mem s'.pool.mem
  list : s'.updIdList i = s.updIdList i

-- a computation of which the area and one update list decide everything it does
def LocalStep (h : Handle) (area : Set Nat) (i : Nat) (inv inv' : Store → Prop) (f : Store → Option Store) : Prop :=
  ∀ s, inv s → ∃ t released, f s = some t ∧ inv' t ∧ (∀ id ∈ released, id < 2 ^ 64) ∧
    Confined h area i released s t ∧
    ∀ s', SameFor area i s s' → ∃ t', f s' = some t' ∧ SameFor area i t t' ∧ Confined h area i released s' t'

section Steps

variable {h : Handle} {area : Set Nat} {i : Nat} {s t u : Store} {released released' : List Nat}
  {inv inv' inv'' : Store → Prop} {f g : Store → Option Store}

theorem Confined.refl (s : Store) : Confined h area i [] s s :=
  ⟨ChangedIn.refl _ _, rfl, rfl, fun _ _ => rfl, rfl, rfl, rfl⟩

theorem Confined.trans (first : Confined h area i released s t) (second : Confined h area i released' t u) :
    Confined h area i (released ++ released') s u where
  changed := first.changed.trans second.changed
  free := by rw [second.free, first.free, List.filter_append, List.foldl_append]
  metaFree := by rw [second.metaFree, first.metaFree, List.filter_append, List.foldl_append]
  lists j other := (second.lists j other).trans (first.lists j other)
  objs := second.objs.trans first.objs
  metaObjs := second.metaObjs.trans first.metaObjs
  slots := second.slots.trans first.slots

theorem Confined.stores (changed : ChangedIn area s.pool.mem t.pool.mem) (rest : t = { s with pool := t.pool }) :
    Confined h area i [] s t := by
  rw [rest] at changed ⊢
  exact ⟨changed, rfl, rfl, fun _ _ => rfl, rfl, rfl, rfl⟩

theorem Confined.release (id : Nat) : Confined h area i [id] s (s.release h id) := by
  unfold Store.release
  by_cases data : id < h.totalObjsCount
  · rw [if_pos data]
    exact ⟨ChangedIn.refl _ _, by simp [data], by simp [data], fun _ _ => rfl, rfl, rfl, rfl⟩
  · rw [if_neg data]
    exact ⟨ChangedIn.refl _ _, by simp [data], by simp [data], fun _ _ => rfl, rfl, rfl, rfl⟩

theorem LocalStep.bind (first : LocalStep h area i inv inv' f) (second : LocalStep h area i inv' inv'' g) :
    LocalStep h area i inv inv'' fun s => (f s).bind g := by
  intro s start
  obtain ⟨t, released, step, middle, small, confined, alike⟩ := first s start
  obtain ⟨u, released', step', ends, small', confined', alike'⟩ := second t middle
  refine ⟨u, released ++ released', by simp only [step, Option.bind_some, step'], ends, fun id member => ?_,
    confined.trans confined', fun s' same => ?_⟩
  · rcases List.mem_append.mp member with member | member
    · exact small id member
    · exact small' id member
  · obtain ⟨t', next, same', other⟩ := alike s' same
    obtain ⟨u', next', same'', other'⟩ := alike' t' same'
    exact ⟨u', by simp only [next, Option.bind_some, next'], same'', other.trans other'⟩

theorem LocalStep.skip : LocalStep h area i inv inv some := fun s start =>
  ⟨s, [], rfl, start, by simp, Confined.refl s, fun s' same => ⟨s', rfl, same, Confined.refl s'⟩⟩

theorem LocalStep.foldlM {α : Type} {step : Store → α → Option Store} (log : List α)
    (steps : ∀ a ∈ log, LocalStep h area i inv inv fun s => step s a) :
    LocalStep h area i inv inv fun s => log.foldlM step s := by
  induction log with
  | nil => exact LocalStep.skip
  | cons a rest ih =>
    have later := ih fun b member => steps b (List.mem_cons_of_mem _ member)
    simp only [List.foldlM_cons]
    exact (steps a List.mem_cons_self).bind later

end Steps

section Lists

variable {h : Handle} {m m' : Mem} {i blkId obj size : Nat} {metalist : TxMetalist}

end Lists

def TxEntry.Acts (entry : TxEntry) : Prop := Zeroes entry ∨ entry.type = TxOp.updinplace.code

-- what the entries of a log must be, for an execution that stays in the area
structure LocalLog (h : Handle) (area : Set Nat) (log : List (Nat × TxEntry)) : Prop where
  payloads : ∀ r ∈ log, r.2.type = TxOp.updinplace.code → span (r.1 + sizeofTxEntry) r.2.size ⊆ area
  blocks : ∀ r ∈ log, r.2.Acts → (r.2.blkId1 ≠ 0 ∧ r.2.blkId1 < 2 ^ 64) ∧
    ∃ obj, backendDirect h.backend r.2.blkId1 = some obj ∧ h.blockAt r.2.blkId1 ⊆ area
  apart : ∀ r ∈ log, ∀ r' ∈ log, r.2.Acts → r'.2.Acts → r.2.blkId1 ≠ r'.2.blkId1 →
    h.backend.Apart r.2.blkId1 r'.2.blkId1
  fits : ∀ r ∈ log, r.2.type = TxOp.updinplace.code →
    32 + h.maxKeyLen + (r.2.offset + r.2.size) ≤ h.backend.blockSize r.2.blkId1

structure LocalInv (h : Handle) (i : Nat) (log : List (Nat × TxEntry)) (s : Store) : Prop where
  sane : ∀ r ∈ log, Zeroes r.2 → h.Live s.pool.mem r.2.blkId1 → h.Sane s.pool.mem r.2.blkId1
  held : ∀ r ∈ log, r.2.type = TxOp.updinplace.code → ∀ obj, backendDirect h.backend r.2.blkId1 = some obj →
    32 + h.maxKeyLen + valLen s.pool.mem obj ≤ h.backend.blockSize r.2.blkId1
  listed : ∀ k < (s.updIdList i).count, ∃ r ∈ log, r.2.type = TxOp.updinplace.code ∧
    ((s.updIdList i).list k).id = r.2.blkId1 ∧
    32 + h.maxKeyLen + ((s.updIdList i).list k).valLen ≤ h.backend.blockSize r.2.blkId1

section Entries

variable {h : Handle} {area : Set Nat} {i : Nat} {log : List (Nat × TxEntry)} {s t : Store} {r : Nat × TxEntry}

theorem untouched_apart {a b : Nat} {m m' : Mem} (changed : ChangedIn (h.blockAt a) m m')
    (apart : h.backend.Apart b a) : Untouched h b m m' := by
  rintro x ⟨obj, direct, inside⟩
  refine changed x ?_
  rintro ⟨obj', direct', inside'⟩
  exact Set.disjoint_left.mp (apart obj obj' direct direct') inside inside'

theorem LocalInv.others (rooms : h.HeaderRooms) (entries : LocalLog h area log) (inv : LocalInv h i log s)
    (member : r ∈ log) (acts : r.2.Acts) (changed : ChangedIn (h.blockAt r.2.blkId1) s.pool.mem t.pool.mem)
    (sane : h.Sane s.pool.mem r.2.blkId1 → h.Sane t.pool.mem r.2.blkId1)
    (live : h.Live t.pool.mem r.2.blkId1 → h.Live s.pool.mem r.2.blkId1)
    (shorter : ∀ obj, backendDirect h.backend r.2.blkId1 = some obj →
      valLen t.pool.mem obj ≤ valLen s.pool.mem obj)
    (listed : ∀ k < (t.updIdList i).count, ∃ r ∈ log, r.2.type = TxOp.updinplace.code ∧
      ((t.updIdList i).list k).id = r.2.blkId1 ∧
      32 + h.maxKeyLen + ((t.updIdList i).list k).valLen ≤ h.backend.blockSize r.2.blkId1) :
    LocalInv h i log t := by
  refine ⟨fun r' member' zeroes live' => ?_, fun r' member' updates obj direct => ?_, listed⟩
  · by_cases same : r'.2.blkId1 = r.2.blkId1
    · rw [same] at live' ⊢
      have before := live live'
      have was := inv.sane r' member' zeroes (by rw [same]; exact before)
      rw [same] at was
      exact sane was
    · have untouched := (untouched_apart changed
        (entries.apart r' member' r member (Or.inl zeroes) acts same)).live_iff (rooms.header_room _)
      exact untouched.2.mpr (inv.sane r' member' zeroes (untouched.1.mp live'))
  · have before := inv.held r' member' updates obj direct
    by_cases same : r'.2.blkId1 = r.2.blkId1
    · rw [same] at direct
      have := shorter obj direct
      omega
    · have untouched := untouched_apart changed
        (entries.apart r' member' r member (Or.inr updates) acts same)
      rw [(untouched.words direct (rooms.header_room _)).2.2.2.2]
      exact before

end Entries

section Processing

variable {h : Handle} {area : Set Nat} {i : Nat} {log : List (Nat × TxEntry)} {s t : Store}

end Processing

end PmBackend
