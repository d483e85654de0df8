import PmBackend.Layout
import PmBackend.Model.Pmbackend

set_option autoImplicit false

namespace PmBackend

open ByteMemory

theorem setZero_changed (s : Store) (obj : Nat) :
    ChangedIn (span obj (sizeofDataHdr + keyLen s.pool.mem obj + valLen s.pool.mem obj)) s.pool.mem
      (s.setZero (some obj)).pool.mem := by
  simp only [Store.setZero, backendSetZero, Pool.memset_mem]
  exact ChangedIn.write _ _ _ _ (by simp)

theorem setZero_word (s : Store) (obj : Nat) {offset width : Nat} (header : offset + width ≤ 32) :
    (s.setZero (some obj)).pool.mem.word (obj + offset) width = 0 := by
  have hdr : sizeofDataHdr = 32 := rfl
  simp only [Store.setZero, backendSetZero, Pool.memset_mem]
  exact word_zeros _ _ _ _ _ (by omega) (by omega)

theorem setZero_header (s : Store) (obj : Nat) :
    flch64 (s.setZero (some obj)).pool.mem obj = 0 ∧ objectId (s.setZero (some obj)).pool.mem obj = 0 ∧
      version (s.setZero (some obj)).pool.mem obj = 0 ∧ keyLen (s.setZero (some obj)).pool.mem obj = 0 ∧
      valLen (s.setZero (some obj)).pool.mem obj = 0 := by
  have words (offset width : Nat) (header : offset + width ≤ 32) := setZero_word s obj header
  exact ⟨words 0 8 (by omega), words 8 8 (by omega), words 16 4 (by omega), words 20 4 (by omega), words 24 4 (by omega)⟩

theorem release_frame (h : Handle) (s : Store) (id : Nat) :
    (s.release h id).pool = s.pool ∧ (s.release h id).updIdList = s.updIdList ∧
      (s.release h id).txSlotsList = s.txSlotsList := by
  unfold Store.release
  split <;> exact ⟨rfl, rfl, rfl⟩

theorem keyBytes_length (kv : PmbPair) : kv.keyBytes.length ≤ kv.keyLen := by
  unfold PmbPair.keyBytes bufferBytes
  split <;> simp

theorem valBytes_length (kv : PmbPair) : kv.valBytes.length ≤ kv.valLen := by
  unfold PmbPair.valBytes bufferBytes
  split <;> simp

theorem tputHeader_changed (h : Handle) (p : Pool) (obj size : Nat) (old : Option Nat) (kv : PmbPair)
    (key_fits : 32 + kv.keyLen ≤ size) :
    ChangedIn (span obj size) p.mem (tputHeader h p obj old kv).mem := by
  have hdr : sizeofDataHdr = 32 := rfl
  have key_bytes := keyBytes_length kv
  simp only [tputHeader, Pool.store_mem, backendMemcpy_mem]
  have lengths : ChangedIn (span obj size) p.mem
      ((p.mem.write (obj + 20) (encode 4 kv.keyLen)).write (obj + 16)
        (encode 4 (nextVersion (p.mem.write (obj + 20) (encode 4 kv.keyLen)) old))) :=
    ((ChangedIn.refl _ _).thenEncode _ _ _ (by omega) (by omega)).thenEncode _ _ _ (by omega) (by omega)
  have key := lengths.thenWrite (obj + sizeofDataHdr) kv.keyBytes (span_subset (by omega) (by omega))
  exact (key.thenEncode _ _ _ (by omega) (by omega)).thenEncode _ _ _ (by omega) (by omega)

theorem tputKeep_changed (h : Handle) (p : Pool) (obj size old : Nat) (kv : PmbPair) (objSize : Nat)
    (m : Mem) (before : ChangedIn (span obj size) m p.mem)
    (old_fits : ∀ m', ChangedIn (span obj size) m m' → 32 + h.maxKeyLen + valLen m' old ≤ size) :
    ChangedIn (span obj size) m (tputKeep h p obj old kv objSize).1.mem := by
  have hdr : sizeofDataHdr = 32 := rfl
  have room := old_fits _ before
  unfold tputKeep
  by_cases empty : valLen p.mem old > 0
  · rw [if_pos empty]
    generalize beginning_eq : (if kv.offset > valLen p.mem old then valLen p.mem old else kv.offset) = beginning
    have short : beginning ≤ valLen p.mem old := by
      rw [← beginning_eq]
      split <;> omega
    have copied := before.thenWrite (obj + sizeofDataHdr + h.maxKeyLen)
      (p.mem.read (old + sizeofDataHdr + h.maxKeyLen) beginning)
      (span_subset (by omega) (by rw [length_read]; omega))
    -- the length of the old value is read again after its beginning has been copied
    have room_copied := old_fits _ copied
    simp only [backendMemcpy_mem]
    split
    · simp only [Pool.store_mem, backendMemcpy_mem]
      refine ChangedIn.thenEncode ?_ _ _ _ (by omega) (by omega)
      exact copied.thenWrite _ _ (span_subset (by omega) (by rw [length_read]; omega))
    · rwa [backendMemcpy_mem]
  · rwa [if_neg empty]

theorem tputBlock_changed (h : Handle) (p : Pool) (obj size : Nat) (old : Option Nat) (kv : PmbPair)
    (key_fits : 32 + kv.keyLen ≤ size)
    (fits : 32 + h.maxKeyLen + (kv.offset + kv.valLen) ≤ size)
    (old_fits : ∀ oldObj ∈ old, ∀ m, ChangedIn (span obj size) p.mem m →
      32 + h.maxKeyLen + valLen m oldObj ≤ size) :
    ChangedIn (span obj size) p.mem (tputBlock h p obj old kv).mem := by
  have hdr : sizeofDataHdr = 32 := rfl
  have new_bytes := valBytes_length kv
  have header := tputHeader_changed h p obj size old kv key_fits
  unfold tputBlock utilChecksumInsert
  simp only [Pool.store_mem]
  refine ChangedIn.thenEncode ?_ _ _ _ (by omega) (by omega)
  split
  · simp only [tputValue, backendMemcpy_mem]
    refine ChangedIn.thenWrite ?_ _ _ (span_subset (by omega) (by omega))
    cases old with
    | none => exact header
    | some oldObj =>
      simp only
      exact tputKeep_changed h _ obj size oldObj kv _ p.mem header (old_fits oldObj rfl)
  · exact header

theorem tputMetaBlock_changed (h : Handle) (p : Pool) (obj size : Nat) (old : Option Nat) (kv : PmbPair)
    (fits : 32 + kv.keyLen + kv.valLen ≤ size) :
    ChangedIn (span obj size) p.mem (tputMetaBlock h p obj old kv).mem := by
  have hdr : sizeofDataHdr = 32 := rfl
  have key_bytes := keyBytes_length kv
  have val_bytes := valBytes_length kv
  simp only [tputMetaBlock, utilChecksumInsert, Pool.store_mem, backendMemcpy_mem]
  have lengths : ChangedIn (span obj size) p.mem
      ((p.mem.write (obj + 20) (encode 4 kv.keyLen)).write (obj + 24) (encode 4 kv.valLen)) :=
    ((ChangedIn.refl _ _).thenEncode _ _ _ (by omega) (by omega)).thenEncode _ _ _ (by omega) (by omega)
  refine ChangedIn.thenEncode ?_ _ _ _ (by omega) (by omega)
  refine ChangedIn.thenWrite ?_ _ _ (span_subset (by omega) (by omega))
  refine ChangedIn.thenWrite ?_ _ _ (span_subset (by omega) (by omega))
  exact lengths.thenEncode _ _ _ (by omega) (by omega)

theorem backendGet_ok {h : Handle} {m : Mem} {id obj : Nat} :
    backendGet h m id = .ok obj ↔ id ≠ 0 ∧ backendDirect h.backend id = some obj ∧ flch64 m obj ≠ 0 := by
  unfold backendGet
  by_cases zero : id = 0
  · simp [zero]
  · rw [if_neg zero]
    cases backendDirect h.backend id with
    | none => simp
    | some addr =>
      by_cases dead : flch64 m addr = 0
      · simp only [dead, if_true, Option.some.injEq]
        constructor
        · intro impossible
          cases impossible
        · rintro ⟨-, rfl, live⟩
          exact absurd dead live
      · simp only [dead, if_false, Except.ok.injEq, Option.some.injEq]
        constructor
        · rintro rfl
          exact ⟨zero, rfl, dead⟩
        · exact fun found => found.2.1

section Walks

variable {h : Handle}

theorem executeWalk_induct (P : Store → Prop) (txId stop : Nat)
    (step : ∀ s pos entry s', P s → executeEntry h s txId pos entry = some s' → P s') (fuel pos : Nat)
    (s s' : Store) (start : P s) (walked : executeWalk h txId stop fuel pos s = some s') : P s' := by
  induction fuel generalizing pos s with
  | zero =>
    cases walked
    exact start
  | succ fuel ih =>
    unfold executeWalk at walked
    split at walked
    · obtain ⟨next, entry, rest⟩ := Option.bind_eq_some_iff.mp walked
      exact ih _ next (step s pos _ next start entry) rest
    · cases walked
      exact start

theorem metaProcess_induct (P : Pool → Prop) (list : Nat → TxMeta)
    (count i : Nat)
    (step : ∀ p k obj, i ≤ k → k < i + count → P p → backendDirect h.backend (list k).id = some obj →
      P (utilChecksumInsert h ((p.setVersion obj (list k).version).setValLen obj (list k).valLen) obj
        (sizeofDataHdr + h.maxKeyLen +
          valLen ((p.setVersion obj (list k).version).setValLen obj (list k).valLen).mem obj)))
    (p p' : Pool) (start : P p) (done : metaProcess h list count i p = some p') : P p' := by
  induction count generalizing i p with
  | zero =>
    cases done
    exact start
  | succ count ih =>
    unfold metaProcess at done
    split at done
    · cases done
    · next obj direct =>
      exact ih (i + 1) (fun q k obj' lower upper => step q k obj' (by omega) (by omega)) _
        (step p i obj (le_refl i) (by omega) start direct) done

theorem abortWalk_induct (P : Store → Prop) (stop : Nat)
    (step : ∀ s entry, P s → P (abortEntry h s entry)) (fuel pos : Nat) (s : Store) (start : P s) :
    P (abortWalk h stop fuel pos s) := by
  induction fuel generalizing pos s with
  | zero => exact start
  | succ fuel ih =>
    unfold abortWalk
    split
    · exact ih _ _ (step s _ start)
    · exact start

theorem checkWalk_induct (P : Store → Prop) (txSlotId slot : Nat) (commit : Bool)
    (step : ∀ s entries entry s', P s → checkEntry h s txSlotId entries commit entry = some s' → P s')
    (fuel pos : Nat) (s s' : Store) (start : P s)
    (walked : checkWalk h txSlotId slot commit fuel pos s = some s') : P s' := by
  induction fuel generalizing pos s with
  | zero => cases walked
  | succ fuel ih =>
    unfold checkWalk at walked
    split at walked
    · simp only at walked
      split at walked
      · cases walked
        exact start
      · obtain ⟨next, entry, rest⟩ := Option.bind_eq_some_iff.mp walked
        exact ih _ next (step s _ _ next start entry) rest
    · cases walked
      exact start

end Walks

structure BlocksOnly (h : Handle) (s s' : Store) : Prop where
  changed : ChangedIn h.blockArea s.pool.mem s'.pool.mem
  slots : s'.txSlotsList = s.txSlotsList

section BlocksOnly

variable {h : Handle} {s s' s'' : Store}

theorem BlocksOnly.refl (s : Store) : BlocksOnly h s s := ⟨ChangedIn.refl _ _, rfl⟩

theorem BlocksOnly.trans (first : BlocksOnly h s s') (second : BlocksOnly h s' s'') : BlocksOnly h s s'' :=
  ⟨first.changed.trans second.changed, second.slots.trans first.slots⟩

theorem span_blockArea (layout : h.LogLayout) {id obj : Nat} (direct : backendDirect h.backend id = some obj)
    (addr len : Nat) (above : obj ≤ addr) : span addr len ⊆ h.blockArea := by
  have block := layout.blocks_above id obj direct
  intro x inside
  simp only [mem_span] at inside
  simp only [Handle.blockArea, Set.mem_ofPred_eq]
  omega

theorem setZero_blocksOnly (layout : h.LogLayout) (s : Store) (id : Nat) :
    BlocksOnly h s (s.setZero (backendDirect h.backend id)) := by
  cases direct : backendDirect h.backend id with
  | none => exact BlocksOnly.refl s
  | some obj => exact ⟨(setZero_changed s obj).mono (span_blockArea layout direct _ _ (le_refl _)), rfl⟩

theorem release_blocksOnly (s : Store) (blkId : Nat) : BlocksOnly h s (s.release h blkId) := by
  unfold Store.release
  split <;> exact ⟨ChangedIn.refl _ _, rfl⟩

theorem txSlotMetaUpdAdd_blocksOnly {txId blkId size : Nat}
    (added : txSlotMetaUpdAdd h s txId blkId size = some s') : BlocksOnly h s s' := by
  unfold txSlotMetaUpdAdd at added
  obtain ⟨found, -, rfl⟩ := Option.map_eq_some_iff.mp added
  exact ⟨ChangedIn.refl _ _, rfl⟩

theorem txUpdateBlock_blocksOnly (layout : h.LogLayout) {txId blkId offset : Nat} {payload : List UInt8}
    (updated : txUpdateBlock h s txId blkId payload offset = some s') : BlocksOnly h s s' := by
  unfold txUpdateBlock at updated
  split at updated
  · split at updated
    · exact txSlotMetaUpdAdd_blocksOnly updated
    · cases updated
  · next obj direct =>
    have copied : BlocksOnly h s
        { s with pool := backendMemcpy h s.pool (obj + sizeofDataHdr + h.maxKeyLen + offset) payload } := by
      refine ⟨?_, rfl⟩
      rw [backendMemcpy_mem]
      exact ChangedIn.write _ _ _ _ (span_blockArea layout direct _ _ (by omega))
    exact copied.trans (txSlotMetaUpdAdd_blocksOnly updated)

theorem executeEntry_blocksOnly (layout : h.LogLayout) {txId pos : Nat} {entry : TxEntry}
    (executed : executeEntry h s txId pos entry = some s') : BlocksOnly h s s' := by
  unfold executeEntry at executed
  split at executed
  · split at executed
    · cases executed
      exact BlocksOnly.refl s
    · next obj found =>
      cases executed
      have zeroed := setZero_blocksOnly layout s entry.blkId1
      rw [(backendGet_ok.mp found).2.1] at zeroed
      exact zeroed.trans (release_blocksOnly _ _)
  · split at executed
    · exact txUpdateBlock_blocksOnly layout executed
    · cases executed
      exact BlocksOnly.refl s

theorem metaProcess_changed (layout : h.LogLayout) {list : Nat → TxMeta} {count i : Nat} {p p' : Pool}
    (done : metaProcess h list count i p = some p') : ChangedIn h.blockArea p.mem p'.mem := by
  refine metaProcess_induct (fun q => ChangedIn h.blockArea p.mem q.mem) list count i
    (fun q k obj _ _ before direct => ?_) p p' (ChangedIn.refl _ _) done
  simp only [utilChecksumInsert, Pool.store_mem]
  refine ((before.thenWrite _ _ ?_).thenWrite _ _ ?_).thenWrite _ _ ?_ <;>
    exact span_blockArea layout direct _ _ (by omega)

theorem txSlotMetaUpdProcess_blocksOnly (layout : h.LogLayout) {txId : Nat}
    (processed : txSlotMetaUpdProcess h s txId = some s') : BlocksOnly h s s' := by
  unfold txSlotMetaUpdProcess at processed
  obtain ⟨pool, done, rfl⟩ := Option.map_eq_some_iff.mp processed
  exact ⟨metaProcess_changed layout done, rfl⟩

theorem abortEntry_blocksOnly (layout : h.LogLayout) (s : Store) (entry : TxEntry) :
    BlocksOnly h s (abortEntry h s entry) := by
  unfold abortEntry
  split
  · exact (setZero_blocksOnly layout s _).trans (release_blocksOnly _ _)
  · split
    · exact (setZero_blocksOnly layout s _).trans (release_blocksOnly _ _)
    · exact BlocksOnly.refl s

theorem checkEntry_blocksOnly (layout : h.LogLayout) {txSlotId entries : Nat} {commit : Bool}
    {entry : TxEntry} (checked : checkEntry h s txSlotId entries commit entry = some s') :
    BlocksOnly h s s' := by
  have zero := setZero_blocksOnly layout s
  unfold checkEntry at checked
  split at checked
  · cases checked
    split
    · exact BlocksOnly.refl s
    · exact zero _
  · split at checked
    · cases checked
      split
      · exact zero _
      · exact BlocksOnly.refl s
    · split at checked
      · cases checked
        exact zero _
      · split at checked
        · split at checked
          · exact txUpdateBlock_blocksOnly layout checked
          · cases checked
            exact BlocksOnly.refl s
        · cases checked
          exact BlocksOnly.refl s

theorem valLen_lt (m : Mem) (obj : Nat) : valLen m obj < 2 ^ 32 := word_lt m (obj + 24) 4

theorem tputBlock_blocksOnly (layout : h.LogLayout) (s : Store) {id obj : Nat}
    (direct : backendDirect h.backend id = some obj) (old : Option Nat) (kv : PmbPair) :
    BlocksOnly h s { s with pool := tputBlock h s.pool obj old kv } := by
  refine ⟨?_, rfl⟩
  have changed := tputBlock_changed h s.pool obj
    (32 + kv.keyLen + h.maxKeyLen + kv.offset + kv.valLen + 2 ^ 32) old kv (by omega) (by omega)
    (fun oldObj _ m _ => by have := valLen_lt m oldObj; omega)
  exact changed.mono (span_blockArea layout direct _ _ (le_refl _))

theorem tputMetaBlock_blocksOnly (layout : h.LogLayout) (s : Store) {id obj : Nat}
    (direct : backendDirect h.backend id = some obj) (old : Option Nat) (kv : PmbPair) :
    BlocksOnly h s { s with pool := tputMetaBlock h s.pool obj old kv } :=
  ⟨(tputMetaBlock_changed h s.pool obj _ old kv (le_refl _)).mono
    (span_blockArea layout direct _ _ (le_refl _)), rfl⟩

theorem executeWalk_blocksOnly (layout : h.LogLayout) {txId stop fuel pos : Nat}
    (walked : executeWalk h txId stop fuel pos s = some s') : BlocksOnly h s s' :=
  executeWalk_induct (BlocksOnly h s) txId stop
    (fun _ _ _ _ before executed => before.trans (executeEntry_blocksOnly layout executed))
    fuel pos s s' (BlocksOnly.refl s) walked

theorem abortWalk_blocksOnly (layout : h.LogLayout) (stop fuel pos : Nat) (s : Store) :
    BlocksOnly h s (abortWalk h stop fuel pos s) :=
  abortWalk_induct (BlocksOnly h s) stop
    (fun next entry before => before.trans (abortEntry_blocksOnly layout next entry))
    fuel pos s (BlocksOnly.refl s)

theorem checkWalk_blocksOnly (layout : h.LogLayout) {txSlotId slot fuel pos : Nat} {commit : Bool}
    (walked : checkWalk h txSlotId slot commit fuel pos s = some s') : BlocksOnly h s s' :=
  checkWalk_induct (BlocksOnly h s) txSlotId slot commit
    (fun _ _ _ _ before checked => before.trans (checkEntry_blocksOnly layout checked))
    fuel pos s s' (BlocksOnly.refl s) walked

end BlocksOnly

end PmBackend
