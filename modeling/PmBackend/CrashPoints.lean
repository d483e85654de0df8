import PmBackend.Interruptions
import PmBackend.PutBounds

set_option autoImplicit false

namespace PmBackend

open ByteMemory

-- the memories that a process leaves which is killed during the events, latest first: its first stores are done, and
-- perhaps the first bytes of the next one. The bytes in `whole` that one store writes are written together
def stopsDuring (whole : Set Nat) (m : Mem) : List Event → Set Mem
  | [] => {m}
  | .store addr bytes :: before => stopsDuring whole m before ∪
      {m' | ∃ count, (∀ x ∈ whole, x ∈ span addr bytes.length → x < addr + count) ∧
        m' = (afterEvents m before).write addr (bytes.take count)}
  | .persist _ _ :: before => stopsDuring whole m before
  | .weakPersist _ _ :: before => stopsDuring whole m before

-- what holds of the memory wherever a process stops on the way from `p` to `q`
def Keeps (whole : Set Nat) (P : Mem → Prop) (p q : Pool) : Prop :=
  ∃ later, q.events = later ++ p.events ∧ q.mem = afterEvents p.mem later ∧ ∀ m ∈ stopsDuring whole p.mem later, P m

section Stops

variable {whole area : Set Nat} {p q r : Pool} {m : Mem} {P Q : Mem → Prop} {later before : List Event}

theorem mem_stopsDuring_last (whole : Set Nat) (m : Mem) (later : List Event) :
    afterEvents m later ∈ stopsDuring whole m later := by
  induction later with
  | nil => exact Set.mem_singleton m
  | cons event later ih =>
    cases event with
    | store addr bytes =>
      refine Or.inr ⟨bytes.length, fun x _ inside => by rw [mem_span] at inside; exact inside.2, ?_⟩
      rw [List.take_length, afterEvents]
    | persist addr len => exact ih
    | weakPersist addr len => exact ih

theorem stopsDuring_append (whole : Set Nat) (m : Mem) (later before : List Event) :
    stopsDuring whole m (later ++ before) =
      stopsDuring whole m before ∪ stopsDuring whole (afterEvents m before) later := by
  induction later with
  | nil => exact (Set.union_eq_left.mpr (Set.singleton_subset_iff.mpr (mem_stopsDuring_last whole m before))).symm
  | cons event later ih =>
    cases event with
    | store addr bytes => simp only [List.cons_append, stopsDuring, ih, afterEvents_append, Set.union_assoc]
    | persist addr len => simpa only [List.cons_append, stopsDuring] using ih
    | weakPersist addr len => simpa only [List.cons_append, stopsDuring] using ih

theorem mem_stopsDuring_drop (whole : Set Nat) (m : Mem) (later : List Event) (count : Nat) :
    afterEvents m (later.drop count) ∈ stopsDuring whole m later := by
  have last := mem_stopsDuring_last whole m (later.drop count)
  have member : afterEvents m (later.drop count) ∈ stopsDuring whole m (later.take count ++ later.drop count) := by
    rw [stopsDuring_append]
    exact Or.inl last
  rwa [List.take_append_drop] at member

theorem Keeps.refl (start : P p.mem) : Keeps whole P p p :=
  ⟨[], rfl, rfl, fun m stops => by rw [Set.mem_singleton_iff.mp stops]; exact start⟩

theorem Keeps.trans (first : Keeps whole P p q) (second : Keeps whole P q r) : Keeps whole P p r := by
  obtain ⟨before, events, mem, held⟩ := first
  obtain ⟨later, events', mem', held'⟩ := second
  refine ⟨later ++ before, by rw [events', events, List.append_assoc], by rw [mem', mem, afterEvents_append],
    fun m stops => ?_⟩
  rw [stopsDuring_append, ← mem] at stops
  exact stops.elim (held m) (held' m)

theorem Keeps.last (keeps : Keeps whole P p q) : P q.mem := by
  obtain ⟨later, -, mem, held⟩ := keeps
  rw [mem]
  exact held _ (mem_stopsDuring_last whole p.mem later)

theorem Keeps.mono (keeps : Keeps whole P p q) (weaker : ∀ m, P m → Q m) : Keeps whole Q p q := by
  obtain ⟨later, events, mem, held⟩ := keeps
  exact ⟨later, events, mem, fun m stops => weaker m (held m stops)⟩

theorem Keeps.store (keeps : Keeps whole P p q) (addr : Nat) (bytes : List UInt8)
    (parts : ∀ count, (∀ x ∈ whole, x ∈ span addr bytes.length → x < addr + count) →
      P (q.mem.write addr (bytes.take count))) : Keeps whole P p (q.store addr bytes) := by
  refine keeps.trans ⟨[.store addr bytes], rfl, rfl, fun m stops => ?_⟩
  rcases stops with start | ⟨count, cut, rfl⟩
  · rw [Set.mem_singleton_iff.mp start]
    exact keeps.last
  · exact parts count cut

theorem Keeps.word (keeps : Keeps whole P p q) (addr : Nat) {bytes : List UInt8}
    (header : span addr bytes.length ⊆ whole) (done : P (q.mem.write addr bytes)) :
    Keeps whole P p (q.store addr bytes) := by
  refine keeps.store addr bytes fun count cut => ?_
  have all : bytes.take count = bytes := by
    by_cases none_left : bytes.length = 0
    · rw [List.eq_nil_of_length_eq_zero none_left, List.take_nil]
    · have last : addr + bytes.length - 1 ∈ span addr bytes.length := by
        rw [mem_span]
        omega
      have reached := cut _ (header last) last
      exact List.take_of_length_le (by omega)
  rwa [all]

theorem Keeps.emit (keeps : Keeps whole P p q) {event : Event} (quiet : ∀ addr bytes, event ≠ .store addr bytes) :
    Keeps whole P p (q.emit event) := by
  refine keeps.trans ?_
  cases event with
  | store addr bytes => exact absurd rfl (quiet addr bytes)
  | persist addr len =>
    exact ⟨[.persist addr len], rfl, rfl, fun m stops => by rw [Set.mem_singleton_iff.mp stops]; exact keeps.last⟩
  | weakPersist addr len =>
    exact ⟨[.weakPersist addr len], rfl, rfl, fun m stops => by rw [Set.mem_singleton_iff.mp stops]; exact keeps.last⟩

theorem Keeps.persisted (keeps : Keeps whole P p q) (h : Handle) (obj size : Nat) :
    Keeps whole P p (backendPersist h q obj size) := by
  unfold backendPersist
  split
  · exact keeps.emit fun _ _ => Event.noConfusion
  · split
    · exact keeps
    · exact keeps.emit fun _ _ => Event.noConfusion
  · exact keeps

theorem Keeps.txPersist (keeps : Keeps whole P p q) (h : Handle) (txId size : Nat) :
    Keeps whole P p (backendTxPersist h q txId size) := by
  unfold backendTxPersist
  split
  · exact keeps.emit fun _ _ => Event.noConfusion
  · split
    · exact keeps
    · exact keeps.persisted h _ _

theorem Keeps.memcpy (keeps : Keeps whole P p q) (h : Handle) (dest : Nat) (bytes : List UInt8)
    (parts : ∀ count, P (q.mem.write dest (bytes.take count))) : Keeps whole P p (backendMemcpy h q dest bytes) := by
  have copied := keeps.store dest bytes fun count _ => parts count
  unfold backendMemcpy
  simp only
  split
  · exact copied.emit fun _ _ => Event.noConfusion
  · exact copied

theorem Keeps.txSetZero (keeps : Keeps whole P p q) (h : Handle) {slot : Nat} (header : span slot 12 ⊆ whole)
    (done : P (q.mem.write slot (List.replicate 12 0))) : Keeps whole P p (backendTxSetZero h q slot) := by
  have zeroed : Keeps whole P p (q.memset slot 12) :=
    keeps.word slot (by rwa [List.length_replicate]) done
  unfold backendTxSetZero
  simp only
  split
  · exact zeroed.emit fun _ _ => Event.noConfusion
  · exact zeroed.persisted h slot 12

theorem stopsDuring_changed {events : List Event}
    (inside : ∀ addr bytes, Event.store addr bytes ∈ events → span addr bytes.length ⊆ area) (m : Mem) :
    ∀ m' ∈ stopsDuring whole m events, ChangedIn area m m' := by
  induction events with
  | nil =>
    intro m' stops
    rw [Set.mem_singleton_iff.mp stops]
    exact ChangedIn.refl _ _
  | cons event before ih =>
    have earlier := ih fun addr bytes member => inside addr bytes (List.mem_cons_of_mem _ member)
    cases event with
    | store addr bytes =>
      rintro m' (stops | ⟨count, -, rfl⟩)
      · exact earlier m' stops
      · refine (earlier _ (mem_stopsDuring_last whole m before)).thenWrite addr _ ?_
        refine subset_trans ?_ (inside addr bytes List.mem_cons_self)
        exact span_subset (le_refl _) (by rw [List.length_take]; omega)
    | persist addr len => exact earlier
    | weakPersist addr len => exact earlier

theorem WritesIn.keeps (writes : WritesIn area p q) (runs : p.Runs q) : Keeps whole (ChangedIn area p.mem) p q := by
  obtain ⟨later, events, inside⟩ := writes
  obtain ⟨later', events', mem⟩ := runs
  have same : later = later' := List.append_cancel_right (events.symm.trans events')
  exact ⟨later, events, by rw [mem, same], stopsDuring_changed inside p.mem⟩

theorem Keeps.inside {m₀ : Mem} (keeps : Keeps whole (ChangedIn area m₀) p q) (addr : Nat) (bytes : List UInt8)
    (subset : span addr bytes.length ⊆ area) : Keeps whole (ChangedIn area m₀) p (q.store addr bytes) :=
  keeps.store addr bytes fun count _ => keeps.last.thenWrite addr _
    (subset_trans (span_subset (le_refl _) (by rw [List.length_take]; omega)) subset)

theorem Keeps.copied {m₀ : Mem} (keeps : Keeps whole (ChangedIn area m₀) p q) (h : Handle) (dest : Nat)
    (bytes : List UInt8) (subset : span dest bytes.length ⊆ area) :
    Keeps whole (ChangedIn area m₀) p (backendMemcpy h q dest bytes) :=
  keeps.memcpy h dest bytes fun count => keeps.last.thenWrite dest _
    (subset_trans (span_subset (le_refl _) (by rw [List.length_take]; omega)) subset)

theorem LogOp.fill_keeps (h : Handle) (op : LogOp) (p : Pool) (entry : Nat) :
    Keeps whole (ChangedIn (span entry op.stored) p.mem) p (op.fill h p entry) := by
  have start : Keeps whole (ChangedIn (span entry op.stored) p.mem) p p := Keeps.refl (ChangedIn.refl _ _)
  have field : ∀ {q : Pool} (offset width value : Nat), offset + width ≤ op.stored →
      Keeps whole (ChangedIn (span entry op.stored) p.mem) p q →
      Keeps whole (ChangedIn (span entry op.stored) p.mem) p (q.store (entry + offset) (encode width value)) :=
    fun offset width value inside keeps =>
      keeps.inside _ _ (by rw [length_encode]; exact span_subset (by omega) (by omega))
  cases op with
  | write blkId =>
    have stored : (LogOp.write blkId).stored = 16 := rfl
    exact field 8 8 blkId (by omega) (field 0 4 TxOp.write.code (by omega) start)
  | update oldBlkId newBlkId =>
    have stored : (LogOp.update oldBlkId newBlkId).stored = 24 := rfl
    exact field 16 8 newBlkId (by omega) (field 8 8 oldBlkId (by omega) (field 0 4 TxOp.update.code (by omega) start))
  | smallUpdate blkId data offset =>
    have stored : (LogOp.smallUpdate blkId data offset).stored = 24 + data.length := rfl
    have bytes : sizeofTxEntry = 24 := rfl
    have words := field 16 8 (data.length * 2 ^ 32 + offset) (by omega)
      (field 8 8 blkId (by omega) (field 0 4 TxOp.updinplace.code (by omega) start))
    exact words.copied h _ data (span_subset (by omega) (by omega))
  | remove blkId =>
    have stored : (LogOp.remove blkId).stored = 16 := rfl
    exact field 8 8 blkId (by omega) (field 0 4 TxOp.remove.code (by omega) start)

end Stops

end PmBackend
