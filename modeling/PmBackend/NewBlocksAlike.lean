import PmBackend.BlocksAlike
import PmBackend.MetaRoundTrips

set_option autoImplicit false

namespace PmBackend

open ByteMemory

-- the two pairs differ in the bytes of the value only
def PmbPair.Alike (kv kv' : PmbPair) : Prop :=
  ∃ val', kv' = { kv with val := val' } ∧ val'.isNone = kv.val.isNone

structure KeepsOld (h : Handle) (m : Mem) (obj room : Nat) (kv : PmbPair) (old : Option Nat) (len addr : Nat) : Prop where
  nothing : old = none ∨ kv.valLen = 0 → len = 0
  held : kv.valLen ≠ 0 → ∀ oldObj ∈ old, (valLen m oldObj = len ∧ addr = oldObj + 32 + h.maxKeyLen) ∧
    32 + h.maxKeyLen + len ≤ room ∧
    ∀ m', ChangedIn (span obj room) m m' → ∀ x ∈ span oldObj (32 + h.maxKeyLen + len), m' x = m x

section NewBlocks

variable {h : Handle} {p p' : Pool} {obj room len addr : Nat} {old : Option Nat} {kv kv' : PmbPair}

theorem KeepsOld.stays (keeps : KeepsOld h p.mem obj room kv old len addr) (some_value : kv.valLen ≠ 0) :
    ∀ oldObj ∈ old, OldStays h p.mem obj room kv oldObj := by
  intro oldObj member
  obtain ⟨⟨length, -⟩, fits, stable⟩ := keeps.held some_value oldObj member
  refine Or.inr ⟨len, fun m' changed => ?_, fun _ => fits⟩
  rw [← length]
  exact word_congr _ _ _ _ fun x lower upper => stable m' changed x ⟨by omega, by omega⟩

theorem KeepsOld.bytes (keeps : KeepsOld h p.mem obj room kv old len addr) (key_fits : kv.keyLen ≤ h.maxKeyLen)
    (bytes : kv.valBytes.length = kv.valLen) (no_offset : kv.valLen = 0 → kv.offset = 0)
    (fits : 32 + h.maxKeyLen + (kv.offset + kv.valLen) ≤ room) (small : room < 2 ^ 32) :
    valLen (tputBlock h p obj old kv).mem obj = max len (kv.offset + kv.valLen) ∧
      (∀ k (bound : k < kv.valBytes.length),
        (tputBlock h p obj old kv).mem (obj + 32 + h.maxKeyLen + (kv.offset + k)) = kv.valBytes[k]) ∧
      (∀ k < len, k < kv.offset ∨ kv.offset + kv.valLen ≤ k →
        (tputBlock h p obj old kv).mem (obj + 32 + h.maxKeyLen + k) = p.mem (addr + k)) ∧
      ∀ k, len ≤ k → k < kv.offset →
        (tputBlock h p obj old kv).mem (obj + 32 + h.maxKeyLen + k) = p.mem (obj + 32 + h.maxKeyLen + k) := by
  obtain ⟨length, value⟩ :
      valLen (tputBlock h p obj old kv).mem obj =
          ((PartialBytes.ofBytes (p.mem.read addr len)).overlay kv.offset kv.valBytes).len ∧
        ((PartialBytes.ofBytes (p.mem.read addr len)).overlay kv.offset kv.valBytes).HeldAt
          (tputBlock h p obj old kv).mem (obj + 32 + h.maxKeyLen) := tputBlock_value key_fits bytes no_offset fits small (fun none_before => by
      rw [keeps.nothing none_before]
      simp [PartialBytes.ofBytes, PartialBytes.empty, Mem.read]) fun some_value oldObj member => by
      obtain ⟨⟨length, rfl⟩, inside, stable⟩ := keeps.held some_value oldObj member
      rw [show (PartialBytes.ofBytes (p.mem.read _ len)).len = len from length_read _ _ _]
      exact ⟨length, PartialBytes.ofBytes_heldAt fun k bound => (getElem_read _ _ _ _ bound).symm, stable, fun _ => inside⟩
  rw [PartialBytes.overlay_len] at length
  simp only [PartialBytes.ofBytes, length_read, bytes] at length
  refine ⟨length, fun k bound => value _ ?_ _ ?_, fun k below side => value _ ?_ _ ?_, fun k beyond below => ?_⟩
  · rw [PartialBytes.overlay_len]
    omega
  · simp only [PartialBytes.overlay]
    rw [if_pos (by omega), Nat.add_sub_cancel_left, List.getElem?_eq_getElem bound]
  · rw [PartialBytes.overlay_len]
    simp only [PartialBytes.ofBytes, length_read]
    omega
  · simp only [PartialBytes.overlay, PartialBytes.ofBytes, length_read]
    rw [if_neg (by omega), if_pos below, List.getElem?_eq_getElem (by rw [length_read]; exact below), getElem_read]
  · have some_value : kv.valLen ≠ 0 := fun empty => by
      have := no_offset empty
      omega
    refine tputBlock_gap key_fits no_offset (by omega) (fun oldObj member => ?_) below
    obtain ⟨⟨length', -⟩, -, stable⟩ := keeps.held some_value oldObj member
    refine ⟨by omega, fun m changed => word_congr _ _ _ _ fun x lower upper => ?_⟩
    exact stable m (changed.mono (span_subset (le_refl _) (by omega))) x ⟨by omega, by omega⟩

end NewBlocks

section Pairs

variable {h : Handle} {kv kv' : PmbPair}

theorem PmbPair.Alike.fields (pairs : kv.Alike kv') :
    (kv'.blkId = kv.blkId ∧ kv'.id = kv.id ∧ kv'.offset = kv.offset) ∧ kv'.keyLen = kv.keyLen ∧
      kv'.keyBytes = kv.keyBytes ∧ kv'.valLen = kv.valLen := by
  obtain ⟨val', rfl, -⟩ := pairs
  exact ⟨⟨rfl, rfl, rfl⟩, rfl, rfl, rfl⟩

theorem PmbPair.Alike.length (pairs : kv.Alike kv') : kv'.valBytes.length = kv.valBytes.length := by
  obtain ⟨val', rfl, null⟩ := pairs
  unfold PmbPair.valBytes bufferBytes
  cases here : kv.val with
  | none =>
    rw [here] at null
    rw [Option.isNone_iff_eq_none.mp null]
  | some bytes =>
    rw [here] at null
    obtain ⟨bytes', there⟩ := Option.isSome_iff_exists.mp (Option.isNone_eq_false_iff.mp null)
    simp only [there, length_read]

end Pairs

section DataBlocks

variable {h : Handle} {secret secret' : Set Nat} {p p' : Pool} {m : Mem} {id obj : Nat} {old : Option Nat}
  {kv kv' : PmbPair}

-- the length of the value that `pmb_tput` copies, and where it is
def keptLen (m : Mem) (kv : PmbPair) (old : Option Nat) : Nat := if kv.valLen = 0 then 0 else old.elim 0 (valLen m)

def keptAddr (h : Handle) (old : Option Nat) : Nat := old.elim 0 fun oldObj => oldObj + 32 + h.maxKeyLen

theorem OldBlock.outside (rooms : h.Rooms) (found : OldBlock h m kv.blkId old) (data : id < h.totalObjsCount)
    (alone : h.Alone id) (direct : backendDirect h.backend id = some obj)
    (other : kv.blkId ≠ 0 → kv.blkId < h.totalObjsCount ∧ kv.blkId ≠ id) {n n' : Mem}
    (changed : ChangedIn (span obj h.backend.bsize) n n') :
    ∀ oldObj ∈ old, ∀ x ∈ span oldObj h.backend.bsize, n' x = n x := by
  rcases found with ⟨-, rfl⟩ | ⟨update, addr, get, rfl⟩
  · exact fun _ member => by cases member
  · intro oldObj member x inside
    cases member
    obtain ⟨-, oldDirect, -⟩ := backendGet_ok.mp get
    obtain ⟨known, different⟩ := other update
    rw [← blockSize_data data, ← blockAt_span direct] at changed
    refine ChangedIn.others_untouched rooms.toLogLayout alone (changed.mono Set.subset_union_left) different x ?_
    rwa [blockAt_span oldDirect, blockSize_data known]

theorem OldBlock.keepsOld (rooms : h.Rooms) (found : OldBlock h m kv.blkId old) (data : id < h.totalObjsCount)
    (alone : h.Alone id) (direct : backendDirect h.backend id = some obj)
    (other : kv.blkId ≠ 0 → kv.blkId < h.totalObjsCount ∧ kv.blkId ≠ id)
    (fits : ∀ oldObj ∈ old, 32 + h.maxKeyLen + valLen m oldObj ≤ h.backend.bsize) :
    KeepsOld h m obj h.backend.bsize kv old (keptLen m kv old) (keptAddr h old) := by
  refine ⟨fun none_before => ?_, fun some_value oldObj member => ?_⟩
  · unfold keptLen
    rcases none_before with rfl | empty
    · split <;> rfl
    · exact if_pos empty
  · have length : keptLen m kv old = valLen m oldObj := by
      rw [keptLen, if_neg some_value, Option.mem_def.mp member]
      rfl
    have inside := fits oldObj member
    rw [length]
    refine ⟨⟨rfl, by rw [keptAddr, Option.mem_def.mp member]; rfl⟩, inside, fun n changed x within => ?_⟩
    exact found.outside rooms data alone direct other changed oldObj member x (span_subset (le_refl _) (by omega) within)

theorem OldBlock.nextVersion (rooms : h.Rooms) (found : OldBlock h m kv.blkId old) (data : id < h.totalObjsCount)
    (alone : h.Alone id) (direct : backendDirect h.backend id = some obj)
    (other : kv.blkId ≠ 0 → kv.blkId < h.totalObjsCount ∧ kv.blkId ≠ id) (q : Pool) (len : Nat) :
    nextVersion (q.setKeyLen obj len).mem old = nextVersion q.mem old := by
  have room := rooms.room id
  rw [blockSize_data data] at room
  have stored : ChangedIn (span obj h.backend.bsize) q.mem (q.setKeyLen obj len).mem :=
    ChangedIn.write _ _ _ _ (span_subset (by omega) (by rw [length_encode]; omega))
  have outside := found.outside rooms data alone direct other stored
  cases old with
  | none => rfl
  | some oldObj =>
    exact congrArg (· + 1) (word_congr _ _ _ _ fun x lower upper => outside oldObj rfl x ⟨by omega, by omega⟩)

theorem BlocksAlike.dataBlock (rooms : h.Rooms) (nonzero : ∀ bytes, h.checksum bytes ≠ 0)
    (alike : BlocksAlike h secret p.mem p'.mem)
    (contained : ∀ id obj, backendDirect h.backend id = some obj → h.Contained p.mem id obj)
    (data : id < h.totalObjsCount) (alone : h.Alone id) (direct : backendDirect h.backend id = some obj)
    (found : OldBlock h p.mem kv.blkId old) (other : kv.blkId ≠ 0 → kv.blkId < h.totalObjsCount ∧ kv.blkId ≠ id)
    (pairs : kv.Alike kv') (key : kv.keyBytes.length = kv.keyLen) (bytes : kv.valBytes.length = kv.valLen)
    (key_fits : kv.keyLen ≤ h.maxKeyLen) (no_offset : kv.valLen = 0 → kv.offset = 0)
    (fits : kv.offset + kv.valLen ≤ h.maxValLen)
    (gap : ∀ k < kv.offset, (∀ oldObj ∈ old, valLen p.mem oldObj ≤ k) →
      p'.mem (obj + 32 + h.maxKeyLen + k) = p.mem (obj + 32 + h.maxKeyLen + k))
    (opened : id ∉ secret' → kv'.valBytes = kv.valBytes ∧ (kv.blkId ∈ secret → ∀ k < keptLen p.mem kv old,
      kv.offset ≤ k ∧ k < kv.offset + kv.valLen))
    (rest : ∀ j, j ≠ id → j ∉ secret' → j ∉ secret) :
    BlocksAlike h secret' (tputBlock h p obj old kv).mem (tputBlock h p' obj old kv').mem := by
  have room := rooms.data_room
  have small := rooms.bsize_small
  obtain ⟨⟨blkId', id', offset'⟩, keyLen', keyBytes', valLen'⟩ := pairs.fields
  have length' := pairs.length
  -- the old block
  have live_old : ∀ oldObj ∈ old, (kv.blkId < h.totalObjsCount ∧ backendDirect h.backend kv.blkId = some oldObj) ∧
      flch64 p.mem oldObj ≠ 0 := by
    rcases found with ⟨-, rfl⟩ | ⟨update, addr, get, rfl⟩
    · exact fun _ member => by cases member
    · intro oldObj member
      cases member
      obtain ⟨-, oldDirect, live⟩ := backendGet_ok.mp get
      exact ⟨⟨(other update).1, oldDirect⟩, live⟩
  have fits_old : ∀ oldObj ∈ old, 32 + h.maxKeyLen + valLen p.mem oldObj ≤ h.backend.bsize := by
    intro oldObj member
    obtain ⟨⟨known, oldDirect⟩, -⟩ := live_old oldObj member
    have inside := (contained kv.blkId oldObj oldDirect).fits
    rwa [h.objectLen_data known, blockSize_data known] at inside
  have len_old : ∀ oldObj ∈ old, valLen p'.mem oldObj = valLen p.mem oldObj := fun oldObj member =>
    (alike kv.blkId oldObj (live_old oldObj member).1.2).val_len
  have found' : OldBlock h p'.mem kv'.blkId old := by
    unfold OldBlock
    rw [blkId', alike.get kv.blkId]
    exact found
  have other' : kv'.blkId ≠ 0 → kv'.blkId < h.totalObjsCount ∧ kv'.blkId ≠ id := by rwa [blkId']
  have kept_len : keptLen p'.mem kv' old = keptLen p.mem kv old := by
    unfold keptLen
    rw [valLen']
    cases old with
    | none => rfl
    | some oldObj => simp only [Option.elim_some, len_old oldObj rfl]
  have versions : PmBackend.nextVersion p'.mem old = PmBackend.nextVersion p.mem old := by
    cases old with
    | none => rfl
    | some oldObj => exact congrArg (· + 1) (alike kv.blkId oldObj (live_old oldObj rfl).1.2).ver
  have keeps := found.keepsOld rooms data alone direct other fits_old
  have keeps' := found'.keepsOld rooms data alone direct other' fun oldObj member => by
    rw [len_old oldObj member]
    exact fits_old oldObj member
  -- each new block by itself
  obtain ⟨len, put, kept, gaps⟩ := keeps.bytes key_fits bytes no_offset (by omega) small
  obtain ⟨len', put', kept', gaps'⟩ := keeps'.bytes (by omega) (by omega) (by rw [valLen', offset']; exact no_offset)
    (by omega) small
  rw [kept_len, valLen', offset'] at len' kept'
  rw [kept_len, offset'] at gaps'
  rw [offset'] at put'
  obtain ⟨name, ver, key_len, key_read⟩ := tputBlock_fields p obj old key key_fits (by omega)
  have key' : kv'.keyBytes.length = kv'.keyLen := by rw [keyBytes', keyLen', key]
  have key_fits' : kv'.keyLen ≤ h.maxKeyLen := by omega
  obtain ⟨name', ver', key_len', key_read'⟩ := tputBlock_fields p' obj old key' key_fits' (by omega)
  rw [found.nextVersion rooms data alone direct other] at ver
  rw [found.nextVersion rooms data alone direct other, versions] at ver'
  have changed := (tputBlock_sealed rooms data alone direct key_fits no_offset fits old keeps.stays).1
  have changed' := (tputBlock_sealed rooms data alone direct (p := p') (by omega) (by rw [valLen', offset']; exact no_offset)
    (by omega) old keeps'.stays).1
  refine alike.block rooms contained alone (changed.mono Set.subset_union_left) (changed'.mono Set.subset_union_left)
    (fun addr here => ?_) rest
  obtain rfl : obj = addr := Option.some.inj (direct.symm.trans here)
  refine ⟨iff_of_false (tputBlock_flch nonzero p' obj old kv') (tputBlock_flch nonzero p obj old kv),
    by rw [name, name', id'], by rw [ver, ver'], by rw [key_len, key_len', keyLen'], by rw [len, len'],
    fun k below => ?_, fun open_ k below => ?_, fun dead => absurd dead (tputBlock_flch nonzero p obj old kv)⟩
  · rw [key_len] at below
    rw [keyLen', keyBytes'] at key_read'
    exact byte_of_read (key_read'.trans key_read.symm) below
  · obtain ⟨same, covered⟩ := opened open_
    rw [len] at below
    rw [valueAddr_data _ _ data]
    by_cases inside : kv.offset ≤ k ∧ k < kv.offset + kv.valLen
    · obtain ⟨i, rfl⟩ := Nat.exists_eq_add_of_le inside.1
      rw [put i (by omega), put' i (by omega)]
      simp only [same]
    · by_cases old_byte : k < keptLen p.mem kv old
      · rw [kept k old_byte (by omega), kept' k old_byte (by omega)]
        have open_old : kv.blkId ∉ secret := fun hidden => inside (covered hidden k old_byte)
        cases old with
        | none => exact absurd old_byte (by simp [keptLen])
        | some oldObj =>
          obtain ⟨⟨known, oldDirect⟩, -⟩ := live_old oldObj rfl
          have value := (alike kv.blkId oldObj oldDirect).value open_old k (lt_of_lt_of_le old_byte (by
            unfold keptLen
            split
            · exact Nat.zero_le _
            · exact le_refl _))
          rwa [valueAddr_data _ _ known] at value
      · rw [gaps k (by omega) (by omega), gaps' k (by omega) (by omega)]
        refine gap k (by omega) fun oldObj member => ?_
        have some_value : kv.valLen ≠ 0 := fun empty => by
          have := no_offset empty
          omega
        have length := ((keeps.held some_value oldObj member).1).1
        omega

end DataBlocks

section MetaBlocks

variable {h : Handle} {secret secret' : Set Nat} {p p' : Pool} {m : Mem} {id obj : Nat} {old : Option Nat}
  {kv kv' : PmbPair}

theorem OldBlock.nextMetaVersion (rooms : h.Rooms) (found : OldBlock h m kv.blkId old) (alone : h.Alone id)
    (direct : backendDirect h.backend id = some obj) (q : Pool) (keyLen valLen : Nat) :
    PmBackend.nextVersion ((q.setKeyLen obj keyLen).setValLen obj valLen).mem old = PmBackend.nextVersion q.mem old := by
  have room := rooms.room id
  have stored : ChangedIn (span (obj + 20) 8) q.mem ((q.setKeyLen obj keyLen).setValLen obj valLen).mem :=
    ((ChangedIn.refl _ _).thenEncode _ 4 _ (by omega) (by omega)).thenEncode _ 4 _ (by omega) (by omega)
  rcases found with ⟨-, rfl⟩ | ⟨-, oldObj, get, rfl⟩
  · rfl
  · obtain ⟨-, oldDirect, -⟩ := backendGet_ok.mp get
    refine congrArg (· + 1) ?_
    by_cases same : kv.blkId = id
    · rw [same, direct] at oldDirect
      cases oldDirect
      exact stored.word_apart (by omega)
    · have block : ChangedIn (h.blockAt id) q.mem ((q.setKeyLen obj keyLen).setValLen obj valLen).mem :=
        stored.mono (span_blockAt direct (by omega) (by omega))
      exact ((ChangedIn.others_untouched rooms.toLogLayout alone (block.mono Set.subset_union_left) same).words
        oldDirect (rooms.room _)).2.2.1

theorem BlocksAlike.metaBlock (rooms : h.Rooms) (nonzero : ∀ bytes, h.checksum bytes ≠ 0)
    (alike : BlocksAlike h secret p.mem p'.mem)
    (contained : ∀ id obj, backendDirect h.backend id = some obj → h.Contained p.mem id obj)
    (metadata : h.totalObjsCount ≤ id) (alone : h.Alone id) (direct : backendDirect h.backend id = some obj)
    (found : OldBlock h p.mem kv.blkId old) (pairs : kv.Alike kv') (key : kv.keyBytes.length = kv.keyLen)
    (bytes : kv.valBytes.length = kv.valLen) (fits : kv.keyLen + kv.valLen ≤ h.metaMaxKeyLen + h.metaMaxValLen)
    (opened : id ∉ secret' → kv'.valBytes = kv.valBytes) (rest : ∀ j, j ≠ id → j ∉ secret' → j ∉ secret) :
    BlocksAlike h secret' (tputMetaBlock h p obj old kv).mem (tputMetaBlock h p' obj old kv').mem := by
  have room := rooms.meta_room
  have small := rooms.metaBsize_small
  obtain ⟨⟨blkId', id', offset'⟩, keyLen', keyBytes', valLen'⟩ := pairs.fields
  have length' := pairs.length
  have versions : PmBackend.nextVersion p'.mem old = PmBackend.nextVersion p.mem old := by
    rcases found with ⟨-, rfl⟩ | ⟨-, oldObj, get, rfl⟩
    · rfl
    · exact congrArg (· + 1) (alike kv.blkId oldObj (backendGet_ok.mp get).2.1).ver
  obtain ⟨key_len, val_len, value⟩ := tputMetaBlock_value h p obj old bytes (by omega)
  have bytes' : kv'.valBytes.length = kv'.valLen := by omega
  have key' : kv'.keyBytes.length = kv'.keyLen := by rw [keyBytes', keyLen', key]
  have fits' : kv'.keyLen + kv'.valLen ≤ h.metaMaxKeyLen + h.metaMaxValLen := by omega
  obtain ⟨key_len', val_len', value'⟩ := tputMetaBlock_value h p' obj old bytes' (by omega)
  obtain ⟨name, ver, key_read⟩ := tputMetaBlock_fields h p obj old key
  obtain ⟨name', ver', key_read'⟩ := tputMetaBlock_fields h p' obj old key'
  rw [found.nextMetaVersion rooms alone direct] at ver
  rw [found.nextMetaVersion rooms alone direct, versions] at ver'
  have changed := (tputMetaBlock_sealed rooms metadata alone direct (p := p) fits old).1
  have changed' := (tputMetaBlock_sealed rooms metadata alone direct (p := p') fits' old).1
  refine alike.block rooms contained alone (changed.mono Set.subset_union_left) (changed'.mono Set.subset_union_left)
    (fun addr here => ?_) rest
  obtain rfl : obj = addr := Option.some.inj (direct.symm.trans here)
  refine ⟨iff_of_false (tputMetaBlock_flch nonzero p' obj old kv') (tputMetaBlock_flch nonzero p obj old kv),
    by rw [name, name', (alike id obj direct).name], by rw [ver, ver'], by rw [key_len, key_len', keyLen'],
    by rw [val_len, val_len', valLen'], fun k below => ?_, fun open_ k below => ?_,
    fun dead => absurd dead (tputMetaBlock_flch nonzero p obj old kv)⟩
  · rw [key_len] at below
    rw [keyLen', keyBytes'] at key_read'
    exact byte_of_read (key_read'.trans key_read.symm) below
  · have same := opened open_
    rw [val_len] at below
    have addr : valueAddr h (tputMetaBlock h p obj old kv).mem id obj = obj + 32 + kv.keyLen := by
      rw [valueAddr, if_neg (Nat.not_lt.mpr metadata), key_len]
    have inside : k < kv.valBytes.length := by omega
    have inside' : k < kv'.valBytes.length := by omega
    rw [keyLen'] at value'
    rw [addr, value k inside _ (List.getElem?_eq_getElem inside), value' k inside' _ (List.getElem?_eq_getElem inside')]
    simp only [same]

end MetaBlocks

end PmBackend
