import PmBackend.AbortUndo
import PmBackend.BlocksAlike
import PmBackend.LogsAlike

set_option autoImplicit false

namespace PmBackend

open ByteMemory

-- wherever the fixed stride of an abort finds a block to free, the log has an entry
def AbortShielded (m : Mem) (slot : Nat) : Prop :=
  ∀ r ∈ slotStrides m slot, abortedBlock r.2 ≠ none → r ∈ slotLog m slot

section Entries

variable {m m' : Mem} {pos stop slot : Nat} {op op' : LogOp} {ops ops' : List LogOp} {records records' : List LogRecord}

theorem recordAt_span (decoded : (recordAt m pos).op = some op) : (readEntry m pos).span = op.len := by
  have reads := LogRecord.reads decoded
  cases op with
  | smallUpdate blkId data offset =>
    obtain ⟨type, -, payload, -⟩ := reads
    have length := congrArg List.length payload
    have span : (readEntry m pos).span = sizeofTxEntry + (readEntry m pos).size := if_pos type
    simp only [recordAt, length_read] at length
    rw [LogOp.len, span]
    omega
  | write blkId =>
    obtain ⟨type, -⟩ := reads
    exact if_neg (by rw [show (readEntry m pos).type = _ from type]; decide)
  | update oldBlkId newBlkId =>
    obtain ⟨type, -⟩ := reads
    exact if_neg (by rw [show (readEntry m pos).type = _ from type]; decide)
  | remove blkId =>
    obtain ⟨type, -⟩ := reads
    exact if_neg (by rw [show (readEntry m pos).type = _ from type]; decide)

theorem LogOp.Alike.abortedBlock {r r' : LogRecord} (alike : op.Alike op') (decoded : r.op = some op)
    (decoded' : r'.op = some op') : abortedBlock r'.entry = abortedBlock r.entry := by
  have reads := LogRecord.reads decoded
  have reads' := LogRecord.reads decoded'
  unfold PmBackend.abortedBlock
  cases op with
  | smallUpdate blkId data offset =>
    obtain ⟨data', rfl, -⟩ := alike
    rw [reads.1, reads'.1]
    rfl
  | write blkId =>
    cases alike
    rw [reads.1, reads'.1, reads.2, reads'.2]
    rfl
  | update oldBlkId newBlkId =>
    cases alike
    rw [reads.1, reads'.1, reads.2.2, reads'.2.2]
    rfl
  | remove blkId =>
    cases alike
    rw [reads.1, reads'.1]
    rfl

theorem logWalk_alike (all : List.Forall₂ LogOp.Alike ops ops') (log : LogAt m pos records stop)
    (log' : LogAt m' pos records' stop) (decoded : records.map LogRecord.op = ops.map some)
    (decoded' : records'.map LogRecord.op = ops'.map some) (fuel : Nat) (enough : stop - pos ≤ fuel) :
    ∀ r ∈ logWalk m stop fuel pos, ∃ r' ∈ logWalk m' stop fuel pos, r'.1 = r.1 ∧ abortedBlock r'.2 = abortedBlock r.2 := by
  induction all generalizing pos fuel records records' with
  | nil =>
    obtain rfl := List.map_eq_nil_iff.mp decoded
    cases log
    cases fuel with
    | zero => exact fun r member => by cases member
    | succ fuel => simp [logWalk]
  | @cons op op' rest rest' pair _ ih =>
    obtain ⟨r, later, rfl, read, after⟩ := List.map_eq_cons_iff.mp decoded
    obtain ⟨r', later', rfl, read', after'⟩ := List.map_eq_cons_iff.mp decoded'
    obtain ⟨rfl, log⟩ := log
    obtain ⟨rfl, log'⟩ := log'
    have span := recordAt_span read
    have span' := recordAt_span read'
    rw [pair.len] at span'
    have room := span_ge (readEntry m pos)
    rw [recordAt_entry, span] at log
    rw [recordAt_entry, span'] at log'
    have bound := log.le
    obtain ⟨more, rfl⟩ : ∃ more, fuel = more + 1 := ⟨fuel - 1, by omega⟩
    unfold logWalk
    rw [if_pos (by omega), if_pos (by omega), span, span']
    intro e member
    rcases List.mem_cons.mp member with rfl | further
    · exact ⟨_, List.mem_cons_self, rfl, pair.abortedBlock read read'⟩
    · obtain ⟨e', inside, same⟩ := ih log log' after after' more (by omega) e further
      exact ⟨e', List.mem_cons_of_mem _ inside, same⟩

theorem mem_strideWalk {fuel : Nat} {r : Nat × TxEntry} (member : r ∈ strideWalk m stop fuel pos) :
    r.2 = readEntry m r.1 ∧ (r.1, readEntry m' r.1) ∈ strideWalk m' stop fuel pos := by
  induction fuel generalizing pos with
  | zero => cases member
  | succ fuel ih =>
    unfold strideWalk at member ⊢
    split at member
    · next again =>
      rw [if_pos again]
      rcases List.mem_cons.mp member with rfl | later
      · exact ⟨rfl, List.mem_cons_self⟩
      · exact ⟨(ih later).1, List.mem_cons_of_mem _ (ih later).2⟩
    · cases member

theorem strideWalk_alike {fuel : Nat}
    (same : ∀ r ∈ strideWalk m stop fuel pos, abortedBlock (readEntry m' r.1) = abortedBlock r.2) :
    (strideWalk m' stop fuel pos).filterMap (fun r => abortedBlock r.2) =
      (strideWalk m stop fuel pos).filterMap fun r => abortedBlock r.2 := by
  induction fuel generalizing pos with
  | zero => rfl
  | succ fuel ih =>
    unfold strideWalk at same ⊢
    split
    · next again =>
      rw [if_pos again] at same
      have head := same _ List.mem_cons_self
      have rest := ih fun r member => same r (List.mem_cons_of_mem _ member)
      simp only [List.filterMap_cons, head, rest]
    · rfl

theorem abortedIds_alike (all : List.Forall₂ LogOp.Alike ops ops') (holds : HoldsOps m slot ops) (holds' : HoldsOps m' slot ops')
    (size : slotSize m' slot = slotSize m slot) (small : slot + slotSize m slot < 2 ^ 64) (shield : AbortShielded m slot)
    (shield' : AbortShielded m' slot) : abortedIds m' slot = abortedIds m slot := by
  obtain ⟨records, log, decoded⟩ := holds
  obtain ⟨records', log', decoded'⟩ := holds'
  have end_eq := u64_of_lt small
  have log'' := log'
  unfold SlotRecords at log log''
  rw [size] at log''
  have back := logWalk_alike (all.flip.imp fun _ _ pair => LogOp.Alike.symm pair) log'' log decoded' decoded _ (le_refl _)
  have forth := logWalk_alike all log log'' decoded decoded' _ (le_refl _)
  unfold AbortShielded slotStrides slotLog at shield shield'
  rw [end_eq] at shield
  rw [size, end_eq] at shield'
  unfold abortedIds slotStrides
  rw [size, end_eq]
  refine strideWalk_alike fun r member => ?_
  obtain ⟨entry, there⟩ : r.2 = readEntry m r.1 ∧ (r.1, readEntry m' r.1) ∈ strideWalk m' _ _ _ :=
    mem_strideWalk member
  by_cases acts : abortedBlock r.2 = none
  · by_contra differs
    rw [acts] at differs
    obtain ⟨e, listed, place, block⟩ := back _ (shield' _ there differs)
    rw [mem_logWalk listed, place, ← entry, acts] at block
    exact differs block.symm
  · obtain ⟨e, listed, place, block⟩ := forth _ (shield r member acts)
    rwa [mem_logWalk listed, place] at block

end Entries

section Aborts

variable {h : Handle} {secret : Set Nat} {s s' t t' : Store} {i id : Nat}

theorem StoresAlike.zeroRelease (rooms : h.Rooms) (alike : StoresAlike h secret s s') (blocks : SealedBut h s.pool.mem ∅)
    (alone : ∀ obj, backendDirect h.backend id = some obj → h.Alone id) :
    StoresAlike h (secret \ {id}) (zeroRelease h s id) (zeroRelease h s' id) ∧
      SealedBut h (PmBackend.zeroRelease h s id).pool.mem ∅ := by
  unfold PmBackend.zeroRelease
  rw [(release_frame h _ id).1]
  cases direct : backendDirect h.backend id with
  | none =>
    refine ⟨StoresAlike.release ⟨alike.rest, alike.blocks.reveal fun j member open_ obj there => ?_⟩ id, blocks⟩
    have same : j = id := by
      by_contra other
      exact open_ ⟨member, other⟩
    rw [same, direct] at there
    cases there
  | some obj =>
    refine ⟨StoresAlike.release ⟨by rw [Store.setZero, alike.rest]; rfl, ?_⟩ id, blocks.setZero rooms (alone obj direct) direct⟩
    exact alike.blocks.setZero rooms blocks.contained (alone obj direct) direct fun j other open_ member =>
      open_ ⟨member, other⟩

theorem StoresAlike.zeroReleases (rooms : h.Rooms) {ids : List Nat} (alike : StoresAlike h secret s s')
    (blocks : SealedBut h s.pool.mem ∅) (alone : ∀ id ∈ ids, h.Alone id) :
    StoresAlike h (secret \ {id | id ∈ ids}) (ids.foldl (PmBackend.zeroRelease h) s) (ids.foldl (PmBackend.zeroRelease h) s') ∧
      SealedBut h (ids.foldl (PmBackend.zeroRelease h) s).pool.mem ∅ := by
  induction ids generalizing secret s s' with
  | nil => simpa using ⟨alike, blocks⟩
  | cons id rest ih =>
    obtain ⟨after, sealed⟩ := alike.zeroRelease rooms blocks fun _ _ => alone id List.mem_cons_self
    have both := ih after sealed fun j member => alone j (List.mem_cons_of_mem _ member)
    have fewer : (secret \ {id}) \ {j | j ∈ rest} = secret \ {j | j ∈ id :: rest} := by
      ext j
      simp [and_assoc]
    rwa [fewer] at both

theorem abort_alike (rooms : h.Rooms) (alike : StoresAlike h secret s s') (slots : SlotsAlike h s.pool.mem s'.pool.mem)
    (blocks : SealedBut h s.pool.mem ∅) (known : i < h.txSlotsCount) (safe : AbortsAlone h s i) (safe' : AbortsAlone h s' i)
    (shield : AbortShielded s.pool.mem (h.slotAddr i)) (shield' : AbortShielded s'.pool.mem (h.slotAddr i))
    (done : txSlotAbort h s (i + 1) = (t, .ok)) (done' : txSlotAbort h s' (i + 1) = (t', .ok)) :
    StoresAlike h (secret \ {id | id ∈ abortedIds s.pool.mem (h.slotAddr i)}) t t' ∧
      SlotsAlike h t.pool.mem t'.pool.mem := by
  have layout := rooms.toLogLayout
  have below := Handle.slot_below known
  have small := layout.end_lt
  rcases txSlotAbort_spec layout s known with ⟨-, -, refused⟩ | ⟨opened, -, changed, empty, -⟩
  · rw [refused] at done
    cases done
  rcases txSlotAbort_spec layout s' known with ⟨-, -, refused⟩ | ⟨-, -, changed', empty', -⟩
  · rw [refused] at done'
    cases done'
  rw [done] at changed empty
  rw [done'] at changed' empty'
  refine ⟨?_, slots.emptied layout changed changed' empty empty'⟩
  obtain ⟨⟨size, fits⟩, ops, ops', holds, holds', all⟩ := (slots i known).log opened
  have ids := abortedIds_alike all holds holds' size (by omega) shield shield'
  -- the status is stored first, and the slot is cleared last
  have strides := slotStrides_congr (slotAborted_header h s (h.slotAddr i) i)
  have strides' := slotStrides_congr (slotAborted_header h s' (h.slotAddr i) i)
  have marked := (slotAborted_changed layout s i i).mono (slotArea_log known)
  have marked' := (slotAborted_changed layout s' i i).mono (slotArea_log known)
  have begun : StoresAlike h secret (slotAborted h s (h.slotAddr i) i) (slotAborted h s' (h.slotAddr i) i) :=
    ⟨by rw [slotAborted, alike.rest]; rfl, alike.blocks.log rooms blocks.contained marked marked'⟩
  have alone : ∀ id ∈ abortedIds s.pool.mem (h.slotAddr i), h.Alone id := by
    intro id member
    obtain ⟨r, listed, names⟩ := List.mem_filterMap.mp member
    exact safe.alone r listed id names
  obtain ⟨freed, sealed⟩ := begun.zeroReleases rooms (blocks.log rooms marked) alone
  rw [txSlotAbort_ok layout known done, txSlotAbort_ok layout known done',
    abortLog_ids layout _ _ (by rw [strides]; exact safe.inside), abortLog_ids layout _ _ (by rw [strides']; exact safe'.inside)]
  rw [show abortedIds (slotAborted h s (h.slotAddr i) i).pool.mem (h.slotAddr i) = abortedIds s.pool.mem (h.slotAddr i) by
      rw [abortedIds, strides]; rfl,
    show abortedIds (slotAborted h s' (h.slotAddr i) i).pool.mem (h.slotAddr i) = abortedIds s.pool.mem (h.slotAddr i) by
      rw [abortedIds, strides', ← ids]; rfl]
  have reset := fun u => (slotReset_changed layout u i i).mono (slotArea_log known)
  exact ⟨by rw [slotReset, freed.rest]; rfl, freed.blocks.log rooms sealed.contained (reset _) (reset _)⟩

end Aborts

end PmBackend
