import PmBackend.PutCases

set_option autoImplicit false

namespace PmBackend

open ByteMemory

-- `q` is `p` after some more events
def Pool.Follows (p q : Pool) : Prop := p.events <:+ q.events

-- every store between two pools lies in `area`, whatever it stores
def WritesIn (area : Set Nat) (p q : Pool) : Prop :=
  ∃ later, q.events = later ++ p.events ∧
    ∀ addr bytes, Event.store addr bytes ∈ later → span addr bytes.length ⊆ area

-- these bytes were stored at this address between two pools
def Stored (p q : Pool) (addr : Nat) (bytes : List UInt8) : Prop :=
  ∃ later, q.events = later ++ p.events ∧ Event.store addr bytes ∈ later

section Stores

variable {area : Set Nat} {p q r : Pool}

@[simp] theorem Pool.Follows.refl (p : Pool) : p.Follows p := List.suffix_refl _

theorem Pool.Follows.trans (first : p.Follows q) (second : q.Follows r) : p.Follows r :=
  List.IsSuffix.trans first second

@[simp] theorem Pool.Follows.store (follows : p.Follows q) (addr : Nat) (bytes : List UInt8) :
    p.Follows (q.store addr bytes) := follows.trans (List.suffix_cons _ _)

@[simp] theorem Pool.Follows.emit (follows : p.Follows q) (event : Event) : p.Follows (q.emit event) :=
  follows.trans (List.suffix_cons _ _)

@[simp] theorem Pool.Follows.memcpy (follows : p.Follows q) (h : Handle) (dest : Nat) (bytes : List UInt8) :
    p.Follows (backendMemcpy h q dest bytes) := by
  unfold backendMemcpy
  split
  · exact (follows.store dest bytes).emit _
  · exact follows.store dest bytes

theorem Pool.Follows.txSetZero (follows : p.Follows q) (h : Handle) (slot : Nat) :
    p.Follows (backendTxSetZero h q slot) := by
  have zeroed := follows.store slot (List.replicate 12 0)
  unfold backendTxSetZero backendPersistAll backendPersist
  simp only
  split
  · exact zeroed.emit _
  · split
    · exact zeroed.emit _
    · split
      · exact zeroed
      · exact zeroed.emit _
    · exact zeroed

theorem stored_store (follows : p.Follows q) (addr : Nat) (bytes : List UInt8) :
    Stored p (q.store addr bytes) addr bytes := by
  obtain ⟨between, events⟩ := follows
  exact ⟨.store addr bytes :: between, by rw [List.cons_append, events]; rfl, List.mem_cons_self⟩

theorem Stored.mono {addr : Nat} {bytes : List UInt8} (stored : Stored p q addr bytes) (follows : q.Follows r) :
    Stored p r addr bytes := by
  obtain ⟨later, events, member⟩ := stored
  obtain ⟨more, events'⟩ := follows
  exact ⟨more ++ later, by rw [← events', events, List.append_assoc], List.mem_append_right more member⟩

theorem Stored.after {addr : Nat} {bytes : List UInt8} (follows : p.Follows q) (stored : Stored q r addr bytes) :
    Stored p r addr bytes := by
  obtain ⟨between, events⟩ := follows
  obtain ⟨later, events', member⟩ := stored
  exact ⟨later ++ between, by rw [events', ← events, List.append_assoc], List.mem_append_left between member⟩

theorem WritesIn.refl (area : Set Nat) (p : Pool) : WritesIn area p p :=
  ⟨[], rfl, fun _ _ member => absurd member List.not_mem_nil⟩

theorem WritesIn.follows (writes : WritesIn area p q) : p.Follows q := by
  obtain ⟨later, events, -⟩ := writes
  exact ⟨later, events.symm⟩

theorem WritesIn.mono {wider : Set Nat} (writes : WritesIn area p q) (subset : area ⊆ wider) :
    WritesIn wider p q := by
  obtain ⟨later, events, inside⟩ := writes
  exact ⟨later, events, fun addr bytes member => (inside addr bytes member).trans subset⟩

theorem WritesIn.trans (first : WritesIn area p q) (second : WritesIn area q r) : WritesIn area p r := by
  obtain ⟨later, events, inside⟩ := first
  obtain ⟨more, events', inside'⟩ := second
  refine ⟨more ++ later, by rw [events', events, List.append_assoc], fun addr bytes member => ?_⟩
  rcases List.mem_append.mp member with last | before
  · exact inside' addr bytes last
  · exact inside addr bytes before

theorem WritesIn.before (writes : WritesIn area p r) (first : p.Follows q) (rest : q.Follows r) :
    WritesIn area p q := by
  obtain ⟨later, events, inside⟩ := writes
  obtain ⟨between, split⟩ := first
  obtain ⟨after, split'⟩ := rest
  have same : later = after ++ between := by
    rw [← split', ← split, ← List.append_assoc] at events
    exact (List.append_cancel_right events).symm
  exact ⟨between, split.symm, fun addr bytes member =>
    inside addr bytes (by rw [same]; exact List.mem_append_right after member)⟩

theorem writesIn_cons (follows : p.Follows q) (event : Event) (events : r.events = event :: q.events) :
    WritesIn area p r ↔ WritesIn area p q ∧
      ∀ addr bytes, event = .store addr bytes → span addr bytes.length ⊆ area := by
  obtain ⟨between, split⟩ := follows
  constructor
  · rintro ⟨later, more, inside⟩
    have same : later = event :: between := by
      rw [events, ← split, ← List.cons_append] at more
      exact (List.append_cancel_right more).symm
    subst same
    exact ⟨⟨between, split.symm, fun addr bytes member => inside addr bytes (List.mem_cons_of_mem _ member)⟩,
      fun addr bytes same => inside addr bytes (by rw [← same]; exact List.mem_cons_self)⟩
  · rintro ⟨⟨later, more, inside⟩, last⟩
    refine ⟨event :: later, by rw [events, more, List.cons_append], fun addr bytes member => ?_⟩
    rcases List.mem_cons.mp member with same | before
    · exact last addr bytes same.symm
    · exact inside addr bytes before

theorem writesIn_store (follows : p.Follows q) (addr : Nat) (bytes : List UInt8) :
    WritesIn area p (q.store addr bytes) ↔ WritesIn area p q ∧ span addr bytes.length ⊆ area := by
  rw [writesIn_cons follows (.store addr bytes) rfl]
  apply and_congr_right
  intro _
  constructor
  · exact fun inside => inside addr bytes rfl
  · rintro inside _ _ same
    cases same
    exact inside

theorem WritesIn.emit (writes : WritesIn area p q) {event : Event}
    (quiet : ∀ addr bytes, event ≠ .store addr bytes) : WritesIn area p (q.emit event) :=
  (writesIn_cons writes.follows event rfl).mpr ⟨writes, fun addr bytes same => absurd same (quiet addr bytes)⟩

theorem WritesIn.persisted (writes : WritesIn area p q) (h : Handle) (obj size : Nat) :
    WritesIn area p (backendPersist h q obj size) := by
  unfold backendPersist
  split
  · exact writes.emit fun _ _ => nofun
  · split
    · exact writes
    · exact writes.emit fun _ _ => nofun
  · exact writes

theorem WritesIn.txPersist (writes : WritesIn area p q) (h : Handle) (txId size : Nat) :
    WritesIn area p (backendTxPersist h q txId size) := by
  unfold backendTxPersist
  split
  · exact writes.emit fun _ _ => nofun
  · split
    · exact writes
    · exact writes.persisted h _ _

theorem WritesIn.txSetZero (writes : WritesIn area p q) (h : Handle) {slot : Nat} (inside : span slot 12 ⊆ area) :
    WritesIn area p (backendTxSetZero h q slot) := by
  have zeroed : WritesIn area p (q.memset slot 12) :=
    (writesIn_store writes.follows slot (List.replicate 12 0)).mpr ⟨writes, by rwa [List.length_replicate]⟩
  unfold backendTxSetZero
  simp only
  split
  · exact zeroed.emit fun _ _ => nofun
  · exact zeroed.persisted h _ _

theorem writesIn_persist (follows : p.Follows q) (addr len : Nat) :
    WritesIn area p (q.emit (.persist addr len)) ↔ WritesIn area p q := by
  rw [writesIn_cons follows (.persist addr len) rfl]
  refine and_iff_left fun addr' bytes same => ?_
  cases same

theorem writesIn_memcpy (follows : p.Follows q) (h : Handle) (dest : Nat) (bytes : List UInt8) :
    WritesIn area p (backendMemcpy h q dest bytes) ↔ WritesIn area p q ∧ span dest bytes.length ⊆ area := by
  unfold backendMemcpy
  split
  · rw [writesIn_persist (follows.store dest bytes), writesIn_store follows]
  · exact writesIn_store follows dest bytes

end Stores

end PmBackend
