import TurboHash.CellMeta

/-!
# Hash slots, slot layouts and partial hashes

A slot is a pair of words: `H1`, which holds a flat key itself or the hash of a
string key, and `entry`, which holds a flat value itself or a pointer to a
record. The four specialisations of `SlotRecord` differ in what they store in
the two words and in how they compare and decode them; `SlotLayout` carries
those operations together with what makes them agree, and `flatLayout`,
`flatKeyLayout` and `stringKeyLayout` are the specialisations. A record is
modelled by its decoded content.
-/

namespace TurboHash

/-- `HashSlot`. -/
@[ext] structure HashSlot (H E : Type) where
  h1 : H
  entry : E
deriving DecidableEq

/-- `Hasher::hash_int`: fold the 128-bit product with a constant. -/
def hashInt (obj : UInt64) : UInt64 :=
  let product := obj.toNat * 0xde5fb9d2630458e9
  UInt64.ofNat (product / 2 ^ 64) + UInt64.ofNat product

/-- What the template arguments of `TurboHashTable` fix about keys and slots.
`keyToHash` is the table hash of a key (`KeyToHash`), `h1ToHash` the hash a
probe starts from (`H1ToHash`), `store` the two words `SlotRecord::Store`
writes, and `decode` the key and value a `DataRecord` yields. -/
structure SlotLayout (K V H E : Type) where
  keyToHash : K → UInt64
  h1Convert : K → UInt64 → H
  h1ToHash : H → UInt64
  store : UInt64 → K → V → HashSlot H E
  slotKeyEqual : K → HashSlot H E → Bool
  decode : HashSlot H E → Option (K × V)
  /-- `ReleaseAddress`: the record an outdated slot leaves to the collector -/
  releaseAddress : HashSlot H E → Option E
  zeroSlot : HashSlot H E
  store_h1 : ∀ hash k v, (store hash k v).h1 = h1Convert k hash
  decode_store : ∀ hash k v, decode (store hash k v) = some (k, v)
  slotKeyEqual_store : ∀ k k' v, h1Convert k (keyToHash k) = h1Convert k' (keyToHash k') →
    (slotKeyEqual k (store (keyToHash k') k' v) = true ↔ k = k')

/-- `SlotRecord<T1, true, true>`: key and value are stored in the slot. A flat
key is compared through `H1` alone. -/
def flatLayout {K V : Type} [Inhabited K] [Inhabited V] (keyToHash toSizeT : K → UInt64) :
    SlotLayout K V K V where
  keyToHash := keyToHash
  h1Convert key _ := key
  h1ToHash h1 := hashInt (toSizeT h1)
  store _ key value := ⟨key, value⟩
  slotKeyEqual _ _ := true
  decode slot := some (slot.h1, slot.entry)
  releaseAddress _ := none
  zeroSlot := ⟨default, default⟩
  store_h1 _ _ _ := rfl
  decode_store _ _ _ := rfl
  slotKeyEqual_store k k' v same := by simpa using same

/-- `SlotRecord<T1, true, false>`: the key is stored in the slot, the value in
a record behind `entry`. -/
def flatKeyLayout {K V : Type} [Inhabited K] (keyToHash toSizeT : K → UInt64) :
    SlotLayout K V K (Option (K × V)) where
  keyToHash := keyToHash
  h1Convert key _ := key
  h1ToHash h1 := hashInt (toSizeT h1)
  store _ key value := ⟨key, some (key, value)⟩
  slotKeyEqual _ _ := true
  decode slot := slot.entry.map fun record => (slot.h1, record.2)
  releaseAddress slot := if slot.entry.isSome then some slot.entry else none
  zeroSlot := ⟨default, none⟩
  store_h1 _ _ _ := rfl
  decode_store _ _ _ := rfl
  slotKeyEqual_store k k' v same := by simpa using same

/-- `SlotRecord<T1, false, true>` and `SlotRecord<T1, false, false>`: the slot
holds the hash of the key, key and value are in the record. -/
def stringKeyLayout {K V : Type} [DecidableEq K] (keyToHash : K → UInt64) :
    SlotLayout K V UInt64 (Option (K × V)) where
  keyToHash := keyToHash
  h1Convert _ hash := hash
  h1ToHash h1 := h1
  store hash key value := ⟨hash, some (key, value)⟩
  slotKeyEqual key slot := slot.entry.any fun record => key == record.1
  decode slot := slot.entry
  releaseAddress slot := if slot.entry.isSome then some slot.entry else none
  zeroSlot := ⟨0, none⟩
  store_h1 _ _ _ := rfl
  decode_store _ _ _ := rfl
  slotKeyEqual_store k k' v _ := by simp

/-- `PartialHash`: what a probe needs of the 64-bit hash of a key. -/
structure PartialHash (H : Type) where
  h1 : H
  h2 : UInt8
  bucketHash : UInt32

namespace SlotLayout

variable {K V H E : Type}

/-- The constructor of `PartialHash`. -/
def partialHash (L : SlotLayout K V H E) (key : K) (hash : UInt64) : PartialHash H where
  h1 := L.h1Convert key hash
  h2 := ((hash >>> 16) &&& 0xFFFF).toUInt8
  bucketHash := (hash >>> 32).toUInt32

/-- The partial hash every operation on `key` uses. -/
def keyHash (L : SlotLayout K V H E) (key : K) : PartialHash H :=
  L.partialHash key (L.keyToHash key)

/-- The hash a probe for `key` starts from. -/
def homeHash (L : SlotLayout K V H E) (key : K) : UInt64 :=
  L.h1ToHash (L.keyHash key).h1

/-- The slot content a `Put` of `key` and `value` stores. -/
def slotOf (L : SlotLayout K V H E) (key : K) (value : V) : HashSlot H E :=
  L.store (L.keyToHash key) key value

@[simp] theorem slotOf_h1 (L : SlotLayout K V H E) (key : K) (value : V) :
    (L.slotOf key value).h1 = (L.keyHash key).h1 :=
  L.store_h1 _ _ _

@[simp] theorem decode_slotOf (L : SlotLayout K V H E) (key : K) (value : V) :
    L.decode (L.slotOf key value) = some (key, value) :=
  L.decode_store _ _ _

theorem slotOf_inj (L : SlotLayout K V H E) {key key' : K} {value value' : V}
    (same : L.slotOf key value = L.slotOf key' value') : key = key' ∧ value = value' := by
  have decoded := congrArg L.decode same
  simpa using decoded

/-- The match test of a lookup: `H1` and the key comparison agree with key
equality on slots that a `Put` has stored. -/
theorem match_slotOf [DecidableEq H] (L : SlotLayout K V H E) (key key' : K) (value : V) :
    ((L.slotOf key' value).h1 == (L.keyHash key).h1 &&
      L.slotKeyEqual key (L.slotOf key' value)) = true ↔ key = key' := by
  rw [Bool.and_eq_true, beq_iff_eq, slotOf_h1]
  constructor
  · rintro ⟨sameH1, equal⟩
    exact (L.slotKeyEqual_store key key' value sameH1.symm).mp equal
  · rintro rfl
    exact ⟨rfl, (L.slotKeyEqual_store key key value rfl).mpr rfl⟩

end SlotLayout

/-! ## The memory of a cell -/

/-- The memory of a cell: the version word, the tag bytes and the slots. -/
@[ext] structure Cell (F : CellFormat) (H E : Type) where
  ver : Version F
  tags : Nat → UInt8
  slots : Nat → HashSlot H E

namespace Cell

variable {F : CellFormat} {K V H E : Type}

/-- `LoadVersion`. -/
def loadVersion (c : Cell F H E) : Version F := c.ver.masked

/-- The constructor of the cell meta: load the tags and the version word. -/
def loadMeta (c : Cell F H E) : CellMeta F := ⟨c.tags, c.loadVersion⟩

/-- `StoreVersion`. -/
def storeVersion (c : Cell F H E) (v : Version F) : Cell F H E := { c with ver := v }

/-- Store a tag byte through `LocateH2Tag`. -/
def setTag (c : Cell F H E) (i : Nat) (h2 : UInt8) : Cell F H E :=
  { c with tags := Function.update c.tags i h2 }

/-- Store the two words of a slot through `LocateSlot`. -/
def setSlot (c : Cell F H E) (i : Nat) (s : HashSlot H E) : Cell F H E :=
  { c with slots := Function.update c.slots i s }

/-- The cell's slot `i` is occupied and not deleted. -/
def live (c : Cell F H E) (i : Nat) : Bool := c.ver.live i

/-- Slot `i` of the cell binds `key` to `value`. -/
def Holds (L : SlotLayout K V H E) (c : Cell F H E) (i : Nat) (key : K) (value : V) : Prop :=
  c.live i = true ∧ c.slots i = L.slotOf key value

/-- A cell as the operations leave it: a well-formed version word, and in every
live slot a stored record under the tag of its key. -/
structure WellFormed (L : SlotLayout K V H E) (c : Cell F H E) : Prop where
  ver : c.ver.WellFormed
  stored : ∀ i, c.live i = true →
    ∃ key value, c.slots i = L.slotOf key value ∧ c.tags i = (L.keyHash key).h2

theorem Holds.unique {L : SlotLayout K V H E} {c : Cell F H E} {i : Nat} {key key' : K}
    {value value' : V} (left : c.Holds L i key value) (right : c.Holds L i key' value') :
    key = key' ∧ value = value' :=
  L.slotOf_inj (left.2.symm.trans right.2)

theorem WellFormed.loadVersion_eq {L : SlotLayout K V H E} {c : Cell F H E}
    (wf : c.WellFormed L) : c.loadVersion = c.ver :=
  wf.ver.masked_eq

theorem WellFormed.loadMeta_ver {L : SlotLayout K V H E} {c : Cell F H E}
    (wf : c.WellFormed L) : c.loadMeta.ver = c.ver :=
  wf.ver.masked_eq

theorem WellFormed.loadMeta_wf {L : SlotLayout K V H E} {c : Cell F H E}
    (wf : c.WellFormed L) : c.loadMeta.ver.WellFormed :=
  wf.loadMeta_ver ▸ wf.ver

end Cell

end TurboHash
