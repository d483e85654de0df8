import PmBackend.SlotFrames

set_option autoImplicit false

namespace PmBackend

open ByteMemory

-- the entries whose block `tx_slot_execute` zeroes
def Zeroes (entry : TxEntry) : Prop := entry.type = TxOp.update.code ∨ entry.type = TxOp.remove.code

theorem zeroes_not_updinplace {entry : TxEntry} (zeroes : Zeroes entry) :
    entry.type ≠ TxOp.updinplace.code := by
  rcases zeroes with update | remove <;> simp [*, TxOp.code]

-- the entries `tx_slot_execute` meets, with their positions
def logWalk (m : Mem) (stop : Nat) : Nat → Nat → List (Nat × TxEntry)
  | 0, _ => []
  | fuel + 1, pos =>
    if pos < stop then (pos, readEntry m pos) :: logWalk m stop fuel (pos + (readEntry m pos).span) else []

-- what `tx_slot_abort` takes for entries
def strideWalk (m : Mem) (stop : Nat) : Nat → Nat → List (Nat × TxEntry)
  | 0, _ => []
  | fuel + 1, pos =>
    if pos < stop then (pos, readEntry m pos) :: strideWalk m stop fuel (pos + sizeofTxEntry) else []

def slotLog (m : Mem) (slot : Nat) : List (Nat × TxEntry) :=
  logWalk m (u64 (slot + slotSize m slot)) (u64 (slot + slotSize m slot) - (slot + sizeofTxSlot))
    (slot + sizeofTxSlot)

def slotStrides (m : Mem) (slot : Nat) : List (Nat × TxEntry) :=
  strideWalk m (u64 (slot + slotSize m slot)) (u64 (slot + slotSize m slot) - (slot + sizeofTxSlot))
    (slot + sizeofTxSlot)

theorem readEntry_congr {m m' : Mem} {pos : Nat} (same : ∀ x, pos ≤ x → x < pos + 24 → m' x = m x) :
    readEntry m' pos = readEntry m pos := by
  unfold readEntry
  rw [word_congr m m' pos 4 fun x lower upper => same x lower (by omega),
    word_congr m m' (pos + 8) 8 fun x lower upper => same x (by omega) (by omega),
    word_congr m m' (pos + 16) 8 fun x lower upper => same x (by omega) (by omega)]

theorem logWalk_congr {m m' : Mem} (stop fuel pos : Nat) (same : ∀ x, pos ≤ x → m' x = m x) :
    logWalk m' stop fuel pos = logWalk m stop fuel pos := by
  induction fuel generalizing pos with
  | zero => rfl
  | succ fuel ih =>
    unfold logWalk
    rw [readEntry_congr fun x lower _ => same x lower, ih _ fun x lower => same x (by omega)]

theorem strideWalk_congr {m m' : Mem} (stop fuel pos : Nat) (same : ∀ x, pos ≤ x → m' x = m x) :
    strideWalk m' stop fuel pos = strideWalk m stop fuel pos := by
  induction fuel generalizing pos with
  | zero => rfl
  | succ fuel ih =>
    unfold strideWalk
    rw [readEntry_congr fun x lower _ => same x lower, ih _ fun x lower => same x (by omega)]

theorem header_frame {m m' : Mem} {slot : Nat} (changed : ChangedIn (span slot 16) m m') (x : Nat)
    (beyond : slot + 16 ≤ x) : m' x = m x := by
  apply changed
  simp only [mem_span]
  omega

theorem slotLog_congr {m m' : Mem} {slot : Nat} (changed : ChangedIn (span slot 16) m m') :
    slotLog m' slot = slotLog m slot := by
  -- the checksum and the status of a slot are not part of its log
  have hdr : sizeofTxSlot = 24 := rfl
  unfold slotLog
  rw [slotSize, word_congr m m' _ _ fun x lower _ => header_frame changed x (by omega),
    logWalk_congr _ _ _ fun x lower => header_frame changed x (by omega)]

theorem slotStrides_congr {m m' : Mem} {slot : Nat} (changed : ChangedIn (span slot 16) m m') :
    slotStrides m' slot = slotStrides m slot := by
  have hdr : sizeofTxSlot = 24 := rfl
  unfold slotStrides
  rw [slotSize, word_congr m m' _ _ fun x lower _ => header_frame changed x (by omega),
    strideWalk_congr _ _ _ fun x lower => header_frame changed x (by omega)]

theorem statusChecksum_header (h : Handle) (p : Pool) (slot txId : Nat) (status : TxStatus) :
    ChangedIn (span slot 16) p.mem (txSlotChecksum h (p.setStatus slot status) slot txId).mem := by
  simp only [txSlotChecksum_mem, Pool.store_mem]
  exact ((ChangedIn.refl _ _).thenEncode _ _ _ (by omega) (by omega)).thenEncode _ _ _ (by omega) (by omega)

theorem slotAborted_header (h : Handle) (s : Store) (slot txId : Nat) :
    ChangedIn (span slot 16) s.pool.mem (slotAborted h s slot txId).pool.mem :=
  statusChecksum_header h s.pool slot txId .aborted

section Walks

variable {h : Handle}

theorem executeWalk_eq (layout : h.LogLayout) (m : Mem) (txId stop fuel pos : Nat) (s : Store)
    (same : ∀ x < h.logEnd, s.pool.mem x = m x)
    (inside : ∀ r ∈ logWalk m stop fuel pos, r.1 + 24 ≤ h.logEnd) :
    executeWalk h txId stop fuel pos s =
      (logWalk m stop fuel pos).foldlM (fun s r => executeEntry h s txId r.1 r.2) s := by
  -- the walk of `tx_slot_execute` changes no entry, so it meets those of the memory it starts from
  induction fuel generalizing pos s with
  | zero => rfl
  | succ fuel ih =>
    unfold executeWalk
    unfold logWalk at inside ⊢
    by_cases more : pos < stop
    · rw [if_pos more] at inside ⊢
      rw [if_pos more]
      have entry : readEntry s.pool.mem pos = readEntry m pos := by
        have bound := inside _ List.mem_cons_self
        exact readEntry_congr fun x lower upper => same x (by omega)
      simp only [entry, List.foldlM_cons]
      cases step : executeEntry h s txId pos (readEntry m pos) with
      | none => rfl
      | some next =>
        refine ih (pos + (readEntry m pos).span) next (fun x below => ?_)
          fun r member => inside r (List.mem_cons_of_mem _ member)
        rw [(executeEntry_blocksOnly layout step).changed x (by simpa [Handle.blockArea] using below)]
        exact same x below
    · rw [if_neg more, if_neg more]
      rfl

theorem abortWalk_eq (layout : h.LogLayout) (m : Mem) (stop fuel pos : Nat) (s : Store)
    (same : ∀ x < h.logEnd, s.pool.mem x = m x)
    (inside : ∀ r ∈ strideWalk m stop fuel pos, r.1 + 24 ≤ h.logEnd) :
    abortWalk h stop fuel pos s =
      (strideWalk m stop fuel pos).foldl (fun s r => abortEntry h s r.2) s := by
  induction fuel generalizing pos s with
  | zero => rfl
  | succ fuel ih =>
    unfold abortWalk
    unfold strideWalk at inside ⊢
    by_cases more : pos < stop
    · rw [if_pos more] at inside ⊢
      rw [if_pos more]
      have entry : readEntry s.pool.mem pos = readEntry m pos := by
        have bound := inside _ List.mem_cons_self
        exact readEntry_congr fun x lower upper => same x (by omega)
      simp only [entry, List.foldl_cons]
      refine ih (pos + sizeofTxEntry) _ (fun x below => ?_)
        fun r member => inside r (List.mem_cons_of_mem _ member)
      rw [(abortEntry_blocksOnly layout s (readEntry m pos)).changed x (by simpa [Handle.blockArea] using below)]
      exact same x below
    · rw [if_neg more, if_neg more]
      rfl

theorem executeLog_eq (layout : h.LogLayout) (txId slot : Nat) (s : Store)
    (inside : ∀ r ∈ slotLog s.pool.mem slot, r.1 + 24 ≤ h.logEnd) :
    executeLog h s txId slot =
      (slotLog s.pool.mem slot).foldlM (fun s r => executeEntry h s txId r.1 r.2) s :=
  executeWalk_eq layout s.pool.mem txId _ _ _ s (fun _ _ => rfl) inside

theorem abortLog_eq (layout : h.LogLayout) (slot : Nat) (s : Store)
    (inside : ∀ r ∈ slotStrides s.pool.mem slot, r.1 + 24 ≤ h.logEnd) :
    abortLog h s slot = (slotStrides s.pool.mem slot).foldl (fun s r => abortEntry h s r.2) s :=
  abortWalk_eq layout s.pool.mem _ _ _ s (fun _ _ => rfl) inside

theorem foldlM_induct {α σ : Type} (P : σ → Prop) (f : σ → α → Option σ) (steps : List α)
    (step : ∀ a ∈ steps, ∀ s s', P s → f s a = some s' → P s') (s s' : σ) (start : P s)
    (done : steps.foldlM f s = some s') : P s' := by
  induction steps generalizing s with
  | nil =>
    cases done
    exact start
  | cons a rest ih =>
    rw [List.foldlM_cons] at done
    obtain ⟨next, first, later⟩ := Option.bind_eq_some_iff.mp done
    exact ih (fun b member => step b (List.mem_cons_of_mem a member)) next
      (step a List.mem_cons_self s next start first) later

theorem metaFind_spec (list : Nat → TxMeta) (blkId count i : Nat) :
    i ≤ metaFind list blkId count i ∧ metaFind list blkId count i ≤ i + count ∧
      (metaFind list blkId count i < i + count →
        (list (metaFind list blkId count i)).id = blkId ∨ (list (metaFind list blkId count i)).id = 0) ∧
      ∀ k, i ≤ k → k < metaFind list blkId count i → (list k).id ≠ blkId ∧ (list k).id ≠ 0 := by
  induction count generalizing i with
  | zero => exact ⟨le_refl _, le_refl _, fun more => absurd more (by simp [metaFind]),
      fun k lower upper => by simp only [metaFind] at upper; omega⟩
  | succ count ih =>
    unfold metaFind
    by_cases hit : (list i).id = blkId ∨ (list i).id = 0
    · rw [if_pos hit]
      exact ⟨le_refl _, by omega, fun _ => hit, fun k lower upper => by omega⟩
    · rw [if_neg hit]
      obtain ⟨lower, upper, found, missed⟩ := ih (i + 1)
      refine ⟨by omega, by omega, fun more => found (by omega), fun k start before => ?_⟩
      by_cases first : k = i
      · subst first
        exact not_or.mp hit
      · exact missed k (by omega) before

theorem txSlotMetaUpdAdd_some {blkId obj : Nat} (direct : backendDirect h.backend blkId = some obj) (s : Store)
    (txId size : Nat) : ∃ s', txSlotMetaUpdAdd h s txId blkId size = some s' := by
  unfold txSlotMetaUpdAdd
  simp only [direct, Option.map_some]
  split <;> exact ⟨_, rfl⟩

theorem txSlotMetaUpdAdd_frame {s s' : Store} {txId blkId size : Nat}
    (added : txSlotMetaUpdAdd h s txId blkId size = some s') : s' = { s with updIdList := s'.updIdList } := by
  unfold txSlotMetaUpdAdd at added
  obtain ⟨found, -, rfl⟩ := Option.map_eq_some_iff.mp added
  rfl

theorem txSlotMetaUpdAdd_ids {s s' : Store} {txId blkId size : Nat}
    (nonzero : ∀ k < (s.updIdList txId).count, ((s.updIdList txId).list k).id ≠ 0)
    (added : txSlotMetaUpdAdd h s txId blkId size = some s') :
    (∀ j ≠ txId, s'.updIdList j = s.updIdList j) ∧
      ∀ k < (s'.updIdList txId).count, ((s'.updIdList txId).list k).id = blkId ∨
        (k < (s.updIdList txId).count ∧
          ((s'.updIdList txId).list k).id = ((s.updIdList txId).list k).id) := by
  obtain ⟨-, upper, found, -⟩ := metaFind_spec (s.updIdList txId).list blkId (s.updIdList txId).count 0
  unfold txSlotMetaUpdAdd at added
  simp only at added
  generalize metaFind (s.updIdList txId).list blkId (s.updIdList txId).count 0 = i at *
  obtain ⟨⟨entry, count⟩, joined, rfl⟩ := Option.map_eq_some_iff.mp added
  refine ⟨fun j other => Function.update_of_ne other _ _, fun k below => ?_⟩
  simp only [Function.update_self] at below ⊢
  split at joined
  · next fresh =>
    obtain ⟨obj, -, same⟩ := Option.map_eq_some_iff.mp joined
    cases same
    have last : i = (s.updIdList txId).count := by
      by_contra other
      exact nonzero i (by omega) fresh
    by_cases new : k = i
    · left
      subst new
      simp only [Function.update_self]
      split <;> rfl
    · right
      rw [Function.update_of_ne new]
      exact ⟨by omega, rfl⟩
  · cases joined
    right
    refine ⟨below, ?_⟩
    by_cases same : k = i
    · subst same
      simp only [Function.update_self]
      split <;> rfl
    · rw [Function.update_of_ne same]

theorem txUpdateBlock_spec {s s' : Store} {txId blkId obj offset : Nat} {payload : List UInt8}
    (direct : backendDirect h.backend blkId = some obj)
    (nonzero : ∀ k < (s.updIdList txId).count, ((s.updIdList txId).list k).id ≠ 0)
    (done : txUpdateBlock h s txId blkId payload offset = some s') :
    s' = { s with
        pool := backendMemcpy h s.pool (obj + sizeofDataHdr + h.maxKeyLen + offset) payload
        updIdList := s'.updIdList } ∧
      (∀ j ≠ txId, s'.updIdList j = s.updIdList j) ∧
      ∀ k < (s'.updIdList txId).count, ((s'.updIdList txId).list k).id = blkId ∨
        (k < (s.updIdList txId).count ∧
          ((s'.updIdList txId).list k).id = ((s.updIdList txId).list k).id) := by
  unfold txUpdateBlock at done
  rw [direct] at done
  have frame := txSlotMetaUpdAdd_frame done
  obtain ⟨others, ids⟩ := txSlotMetaUpdAdd_ids (by exact nonzero) done
  exact ⟨frame, others, ids⟩

end Walks

end PmBackend
