import PmBackend.InPlaceExecution
import PmBackend.UpdateTargets

set_option autoImplicit false

namespace PmBackend

open ByteMemory

section InPlace

variable {h : Handle} {s s' : Store} {i : Nat} {r : LogRecord}

end InPlace

section Paths

variable {h : Handle} {s u : Store} {i old : Nat} {kv kv' : PmbPair}

theorem OldData.untouched (rooms : h.Rooms) {m m' : Mem} {id : Nat} (before : OldData h m id old)
    (same : Untouched h id m m') : OldData h m' id old ∧ dataObject h m' old = dataObject h m old := by
  have room := rooms.data_room
  obtain ⟨found, data, key_fits, value_fits⟩ := before
  obtain ⟨positive, direct, live⟩ := backendGet_ok.mp found
  obtain ⟨flch, name, ver, key, val⟩ := same.words direct (rooms.room id)
  rw [Untouched, blockAt_span direct, blockSize_data data] at same
  refine ⟨⟨backendGet_ok.mpr ⟨positive, direct, by rw [flch]; exact live⟩, data, by rw [key]; exact key_fits,
    by rw [val]; exact value_fits⟩, ?_⟩
  unfold dataObject valueBytes
  rw [name, ver, key, val, read_congr m m' _ _ fun x lower upper => same x ⟨by omega, by omega⟩,
    read_congr m m' (old + 32 + h.maxKeyLen) _ fun x lower upper => same x ⟨by omega, by omega⟩]

end Paths

end PmBackend
