import PmBackend.SealedBlocks
import PmBackend.Shared.PartialBytes

set_option autoImplicit false

namespace PmBackend

open ByteMemory

section NewValues

variable {h : Handle} {p : Pool} {obj room old : Nat} {kv : PmbPair}

theorem tputKeep_value (fits : 32 + h.maxKeyLen + (kv.offset + kv.valLen) ≤ room) (small : room < 2 ^ 32)
    (now : valLen p.mem obj = kv.offset + kv.valLen) {len : Nat} (before : valLen p.mem old = len)
    (stable : ∀ m, ChangedIn (span (obj + 32) (room - 32)) p.mem m →
      ∀ x ∈ span old (32 + h.maxKeyLen + len), m x = p.mem x)
    (kept_fits : kv.offset + kv.valLen < len → 32 + h.maxKeyLen + len ≤ room) :
    ∃ q size, tputKeep h p obj old kv (32 + h.maxKeyLen + (kv.offset + kv.valLen)) = (q, size) ∧
      valLen q.mem obj = max len (kv.offset + kv.valLen) ∧
      ∀ i < len, i < kv.offset ∨ kv.offset + kv.valLen ≤ i →
        q.mem (obj + 32 + h.maxKeyLen + i) = p.mem (old + 32 + h.maxKeyLen + i) := by
  -- around the new bytes, the new block gets the old value
  have hdr : sizeofDataHdr = 32 := rfl
  have dataLen : u32 (kv.valLen + kv.offset) = kv.offset + kv.valLen := by
    rw [u32_of_lt (by omega), Nat.add_comm]
  have length : ∀ m, ChangedIn (span (obj + 32) (room - 32)) p.mem m → valLen m old = len := by
    intro m changed
    rw [← before]
    exact word_congr _ _ _ _ fun x lower upper => stable m changed x ⟨by omega, by omega⟩
  unfold tputKeep
  simp only [before, dataLen]
  by_cases empty : len = 0
  · have none_kept : ¬len > 0 := by omega
    rw [if_neg none_kept]
    exact ⟨_, _, rfl, by rw [now]; omega, fun i below => by omega⟩
  · rw [if_pos (Nat.pos_of_ne_zero empty)]
    generalize beginning_eq : (if kv.offset > len then len else kv.offset) = beginning
    have short : beginning = min kv.offset len := by
      rw [← beginning_eq]
      split <;> omega
    generalize copied_eq : backendMemcpy h p (obj + sizeofDataHdr + h.maxKeyLen)
      (p.mem.read (old + sizeofDataHdr + h.maxKeyLen) beginning) = copied
    have copied_mem : copied.mem = p.mem.write (obj + 32 + h.maxKeyLen)
        (p.mem.read (old + 32 + h.maxKeyLen) beginning) := by
      rw [← copied_eq, backendMemcpy_mem, hdr]
    have changed : ChangedIn (span (obj + 32) (room - 32)) p.mem copied.mem := by
      rw [copied_mem]
      exact ChangedIn.write _ _ _ _ (span_subset (by omega) (by rw [length_read]; omega))
    -- the bytes in front of the new ones
    have front : ∀ i < beginning, copied.mem (obj + 32 + h.maxKeyLen + i) = p.mem (old + 32 + h.maxKeyLen + i) := by
      intro i below
      rw [copied_mem, write_inside _ _ _ i (by rw [length_read]; exact below), getElem_read]
    have again := length _ changed
    simp only [again]
    by_cases longer : len > kv.offset + kv.valLen
    · -- and those behind them
      have rest_fits := kept_fits longer
      rw [if_pos longer]
      generalize rest_eq : backendMemcpy h copied (obj + sizeofDataHdr + h.maxKeyLen + (kv.offset + kv.valLen))
        (copied.mem.read (old + sizeofDataHdr + h.maxKeyLen + (kv.offset + kv.valLen))
          (len - (kv.offset + kv.valLen))) = rest
      have rest_mem : rest.mem = copied.mem.write (obj + 32 + h.maxKeyLen + (kv.offset + kv.valLen))
          (copied.mem.read (old + 32 + h.maxKeyLen + (kv.offset + kv.valLen)) (len - (kv.offset + kv.valLen))) := by
        rw [← rest_eq, backendMemcpy_mem, hdr]
      have rest_changed : ChangedIn (span (obj + 32) (room - 32)) p.mem rest.mem := by
        rw [rest_mem]
        exact changed.thenWrite _ _ (span_subset (by omega) (by rw [length_read]; omega))
      have last := length _ rest_changed
      refine ⟨_, _, rfl, ?_, fun i below side => ?_⟩
      · simp only [valLen, Pool.store_mem] at last ⊢
        rw [word_write_same, last, Nat.mod_eq_of_lt (show len < 256 ^ 4 by omega)]
        omega
      · rw [Pool.store_mem, write_outside _ _ _ _ (by rw [length_encode]; omega), rest_mem]
        rcases side with first | second
        · rw [write_outside _ _ _ _ (by omega)]
          exact front i (by omega)
        · obtain ⟨k, rfl⟩ := Nat.exists_eq_add_of_le second
          have position : obj + 32 + h.maxKeyLen + (kv.offset + kv.valLen + k) =
              obj + 32 + h.maxKeyLen + (kv.offset + kv.valLen) + k := by omega
          have source : old + 32 + h.maxKeyLen + (kv.offset + kv.valLen) + k =
              old + 32 + h.maxKeyLen + (kv.offset + kv.valLen + k) := by omega
          rw [position, write_inside _ _ _ k (by rw [length_read]; omega), getElem_read, source,
            stable _ changed _ ⟨by omega, by omega⟩]
    · rw [if_neg longer]
      refine ⟨_, _, rfl, ?_, fun i below side => front i (by omega)⟩
      have header : valLen copied.mem obj = valLen p.mem obj := changed.word_apart (by omega)
      rw [header, now]
      omega

theorem tputBlock_value (key_fits : kv.keyLen ≤ h.maxKeyLen) (bytes : kv.valBytes.length = kv.valLen)
    (no_offset : kv.valLen = 0 → kv.offset = 0) (fits : 32 + h.maxKeyLen + (kv.offset + kv.valLen) ≤ room)
    (small : room < 2 ^ 32) {previous : Option Nat} {v : PartialBytes}
    (none_before : previous = none ∨ kv.valLen = 0 → v = .empty)
    (held : kv.valLen ≠ 0 → ∀ oldObj ∈ previous, valLen p.mem oldObj = v.len ∧
      v.HeldAt p.mem (oldObj + 32 + h.maxKeyLen) ∧
      (∀ m, ChangedIn (span obj room) p.mem m → ∀ x ∈ span oldObj (32 + h.maxKeyLen + v.len), m x = p.mem x) ∧
      (kv.offset + kv.valLen < v.len → 32 + h.maxKeyLen + v.len ≤ room)) :
    valLen (tputBlock h p obj previous kv).mem obj = (v.overlay kv.offset kv.valBytes).len ∧
      (v.overlay kv.offset kv.valBytes).HeldAt (tputBlock h p obj previous kv).mem (obj + 32 + h.maxKeyLen) := by
  have hdr : sizeofDataHdr = 32 := rfl
  have header := tputHeader_changed h p obj room previous kv (by omega)
  obtain ⟨-, now⟩ := tputHeader_lengths h p obj previous (show kv.keyLen < 2 ^ 32 by omega)
  rw [u32_of_lt (by omega), Nat.add_comm] at now
  -- the checksum is stored over the first eight bytes
  suffices filled : valLen (tputFilled h p obj previous kv).1.mem obj = (v.overlay kv.offset kv.valBytes).len ∧
      (v.overlay kv.offset kv.valBytes).HeldAt (tputFilled h p obj previous kv).1.mem (obj + 32 + h.maxKeyLen) by
    rw [tputBlock_filled]
    generalize tputFilled h p obj previous kv = done at filled ⊢
    have beyond : ∀ x, obj + 8 ≤ x → (utilChecksumInsert h done.1 obj done.2).mem x = done.1.mem x :=
      fun x lower => write_outside _ _ _ _ (by rw [length_encode]; omega)
    refine ⟨?_, filled.2.congr fun i _ => beyond _ (by omega)⟩
    rw [← filled.1]
    exact word_congr _ _ _ _ fun x lower _ => beyond x (by omega)
  by_cases empty : kv.valLen = 0
  · have offset := no_offset empty
    have no_bytes : kv.valBytes = [] := List.length_eq_zero_iff.mp (by omega)
    rw [none_before (Or.inr empty), no_bytes, offset]
    have no_value : (tputFilled h p obj previous kv).1 = tputHeader h p obj previous kv := by
      unfold tputFilled
      simp only [empty, ne_eq, not_true_eq_false, if_false]
    rw [no_value]
    refine ⟨?_, fun i below => absurd below (by simp [PartialBytes.overlay, PartialBytes.empty])⟩
    rw [now, empty, offset]
    rfl
  · rw [tputFilled_value empty small fits]
    -- the value before the new bytes are copied over it
    have kept : ∃ q, (tputValue h (tputHeader h p obj previous kv) obj previous kv
          (32 + h.maxKeyLen + (kv.offset + kv.valLen))).1 =
            backendMemcpy h q (obj + sizeofDataHdr + h.maxKeyLen + kv.offset) kv.valBytes ∧
        valLen q.mem obj = max v.len (kv.offset + kv.valLen) ∧
        ∃ addr, v.HeldAt p.mem addr ∧ ∀ i < v.len, i < kv.offset ∨ kv.offset + kv.valLen ≤ i →
          q.mem (obj + 32 + h.maxKeyLen + i) = p.mem (addr + i) := by
      cases previous with
      | none =>
        rw [none_before (Or.inl rfl)]
        exact ⟨_, rfl, by rw [now]; exact (Nat.zero_max _).symm, 0, PartialBytes.empty_heldAt _ _,
          fun i below => absurd below (Nat.not_lt_zero i)⟩
      | some oldObj =>
        obtain ⟨length, before, stable, kept_fits⟩ := held empty oldObj rfl
        have same := stable _ header
        have length' : valLen (tputHeader h p obj (some oldObj) kv).mem oldObj = v.len := by
          rw [← length]
          exact word_congr _ _ _ _ fun x lower upper => same x ⟨by omega, by omega⟩
        obtain ⟨q, size, done, value, copies⟩ := tputKeep_value fits small now length' (fun m changed x inside => by
          rw [same x inside]
          exact stable m (header.trans (changed.mono (span_subset (by omega) (by omega)))) x inside) kept_fits
        refine ⟨q, by simp only [tputValue, done], value, _, before, fun i below side => ?_⟩
        rw [copies i below side]
        exact same _ ⟨by omega, by omega⟩
    obtain ⟨q, done, value, addr, before, copies⟩ := kept
    rw [done, backendMemcpy_mem, hdr]
    refine ⟨?_, before.overlaid (fun i below side => ?_) fun i bound => write_inside _ _ _ i bound⟩
    · rw [PartialBytes.overlay_len, bytes, ← value]
      exact word_write_disjoint _ _ _ _ _ (by omega)
    · rw [bytes] at side
      rw [write_outside _ _ _ _ (by omega)]
      exact copies i below side

theorem tputKeep_gap (no_wrap : kv.offset + kv.valLen < 2 ^ 32) {len objSize k : Nat} (before : valLen p.mem old = len)
    (stable : ∀ m, ChangedIn (span (obj + 32 + h.maxKeyLen) len) p.mem m → valLen m old = len) (beyond : len ≤ k)
    (below : k < kv.offset) :
    (tputKeep h p obj old kv objSize).1.mem (obj + 32 + h.maxKeyLen + k) = p.mem (obj + 32 + h.maxKeyLen + k) := by
  have hdr : sizeofDataHdr = 32 := rfl
  have dataLen : u32 (kv.valLen + kv.offset) = kv.offset + kv.valLen := by
    rw [u32_of_lt (by omega), Nat.add_comm]
  unfold tputKeep
  simp only [before, dataLen]
  by_cases empty : len = 0
  · rw [if_neg (show ¬len > 0 by omega)]
  · rw [if_pos (Nat.pos_of_ne_zero empty), if_pos (show kv.offset > len by omega)]
    have copied : ChangedIn (span (obj + 32 + h.maxKeyLen) len) p.mem
        (backendMemcpy h p (obj + sizeofDataHdr + h.maxKeyLen) (p.mem.read (old + sizeofDataHdr + h.maxKeyLen) len)).mem := by
      rw [backendMemcpy_mem, hdr]
      exact ChangedIn.write _ _ _ _ (span_subset (le_refl _) (by rw [length_read]))
    rw [stable _ copied, if_neg (show ¬len > kv.offset + kv.valLen by omega)]
    exact copied _ fun inside => by
      simp only [mem_span] at inside
      omega

theorem tputBlock_gap (key_fits : kv.keyLen ≤ h.maxKeyLen) (no_offset : kv.valLen = 0 → kv.offset = 0)
    (no_wrap : kv.offset + kv.valLen < 2 ^ 32) {previous : Option Nat} {k : Nat}
    (held : ∀ oldObj ∈ previous, valLen p.mem oldObj ≤ k ∧
      ∀ m, ChangedIn (span obj (32 + h.maxKeyLen + k)) p.mem m → valLen m oldObj = valLen p.mem oldObj)
    (below : k < kv.offset) :
    (tputBlock h p obj previous kv).mem (obj + 32 + h.maxKeyLen + k) = p.mem (obj + 32 + h.maxKeyLen + k) := by
  have hdr : sizeofDataHdr = 32 := rfl
  have some_value : kv.valLen ≠ 0 := fun empty => by
    have := no_offset empty
    omega
  have header := tputHeader_changed h p obj (32 + h.maxKeyLen) previous kv (by omega)
  rw [tputBlock_filled]
  simp only [utilChecksumInsert, Pool.store_mem]
  rw [write_outside _ _ _ _ (by rw [length_encode]; omega)]
  unfold tputFilled tputValue
  simp only [if_pos some_value, backendMemcpy_mem]
  rw [write_outside _ _ _ _ (by omega)]
  have front : (tputHeader h p obj previous kv).mem (obj + 32 + h.maxKeyLen + k) = p.mem (obj + 32 + h.maxKeyLen + k) :=
    header _ fun inside => by
      simp only [mem_span] at inside
      omega
  cases previous with
  | none => exact front
  | some oldObj =>
    obtain ⟨beyond, stable⟩ := held oldObj rfl
    have same : ∀ m, ChangedIn (span (obj + 32 + h.maxKeyLen) (valLen p.mem oldObj)) (tputHeader h p obj (some oldObj) kv).mem m →
        valLen m oldObj = valLen p.mem oldObj := fun m changed =>
      stable m ((header.mono (span_subset (le_refl _) (by omega))).trans (changed.mono (span_subset (by omega) (by omega))))
    simp only
    rw [tputKeep_gap no_wrap (same _ (ChangedIn.refl _ _)) same beyond below]
    exact front

theorem tputMetaBlock_value (h : Handle) (p : Pool) (obj : Nat) (previous : Option Nat)
    (bytes : kv.valBytes.length = kv.valLen) (fits : kv.keyLen + kv.valLen < 2 ^ 32) :
    keyLen (tputMetaBlock h p obj previous kv).mem obj = kv.keyLen ∧
      valLen (tputMetaBlock h p obj previous kv).mem obj = kv.valLen ∧
      (PartialBytes.ofBytes kv.valBytes).HeldAt (tputMetaBlock h p obj previous kv).mem (obj + 32 + kv.keyLen) := by
  -- the value of a new block of `pmb_tput_meta` follows its key
  have hdr : sizeofDataHdr = 32 := rfl
  have key_bytes := keyBytes_length kv
  unfold tputMetaBlock utilChecksumInsert
  simp only [keyLen, valLen, Pool.store_mem, backendMemcpy_mem]
  refine ⟨?_, ?_, PartialBytes.ofBytes_heldAt fun i bound => ?_⟩
  · rw [word_write_disjoint _ _ _ _ _ (by rw [length_encode]; omega), word_write_disjoint _ _ _ _ _ (by omega),
      word_write_disjoint _ _ _ _ _ (by omega), word_write_disjoint _ _ _ _ _ (by rw [length_encode]; omega),
      word_write_disjoint _ _ _ _ _ (by rw [length_encode]; omega), word_write_same]
    exact Nat.mod_eq_of_lt (show kv.keyLen < 256 ^ 4 by omega)
  · rw [word_write_disjoint _ _ _ _ _ (by rw [length_encode]; omega), word_write_disjoint _ _ _ _ _ (by omega),
      word_write_disjoint _ _ _ _ _ (by omega), word_write_disjoint _ _ _ _ _ (by rw [length_encode]; omega),
      word_write_same]
    exact Nat.mod_eq_of_lt (show kv.valLen < 256 ^ 4 by omega)
  · rw [write_outside _ _ _ _ (by rw [length_encode]; omega), hdr]
    exact write_inside _ _ _ i bound

end NewValues

end PmBackend
