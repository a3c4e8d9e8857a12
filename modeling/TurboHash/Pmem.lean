import TurboHash.Agreement
import TurboHash.Lib.LineMemory

/-!
# The table in persistent memory

`turbo_hash_pmem.h` keeps the cells, the records and an array of `BucketMetaPmem` in
persistent memory, and the array of `BucketMetaDram` that all operations use in DRAM.
`Recover` rebuilds the latter from the former.

The locations of this model are the objects the code stores as units: the version
word, the tag bytes, the two words of a slot, the fields of a `BucketMetaPmem`, and
the bytes of the records. `lineOf` follows the layout of the source: a cell is four
lines, its version word and its tags lie on the first one, and a slot lies within one
line; a `BucketMetaPmem` takes three words of an array whose elements are not aligned
to lines.

Memory that `RP_malloc` has returned for cells is named by a number, its region, and
regions do not overlap. Records and the meta array are addressed by their bytes.
-/

namespace TurboHash.Pmem

open LineMemory

/-! ## Locations and lines -/

/-- The objects in persistent memory. The Boolean of a meta field tells the second
pointer and cell count from the first. -/
inductive Loc
  | ver (region cell : Nat)
  | tag (region cell i : Nat)
  | h1 (region cell i : Nat)
  | entry (region cell i : Nat)
  | curVer (bi : Nat)
  | cellCountLeftshift (second : Bool) (bi : Nat)
  | bucketPtr (second : Bool) (bi : Nat)
  | byte (addr : Nat)
deriving DecidableEq

/-- What a location holds; `W` is the type of the second word of a slot. -/
abbrev Loc.Val (H W : Type) : Loc → Type
  | .ver _ _ => Version cellMeta256V2
  | .tag _ _ _ => UInt8
  | .h1 _ _ _ => H
  | .entry _ _ _ => W
  | .curVer _ => UInt8
  | .cellCountLeftshift _ _ => Nat
  | .bucketPtr _ _ => Nat
  | .byte _ => UInt8

/-- The lines: of the cells, and of the rest of the heap. -/
inductive Addr
  | cell (region cell line : Nat)
  | heap (line : Nat)
deriving DecidableEq

/-- `TURBO_PMEM_CACHE_LINE_SIZE`. -/
def cacheLineSize : Nat := 64

/-- The word of `BucketMetaPmem` that holds a pointer: the second or the third. -/
def ptrWord (second : Bool) : Nat := if second then 2 else 1

/-- The line of a location; `metaWord` is the number of the word `buckets_pmem_`
points to, and an element of that array takes three words. The cells start on lines: the
memory that `Allocate` returns is taken to be aligned to `cacheLineSize`, so that a cell
lies on exactly four lines. -/
def lineOf (metaWord : Nat) : Loc → Addr
  | .ver r c => .cell r c 0
  | .tag r c i => .cell r c ((16 + i) / cacheLineSize)
  | .h1 r c i => .cell r c (16 * i / cacheLineSize)
  | .entry r c i => .cell r c ((16 * i + 8) / cacheLineSize)
  | .curVer bi => .heap (8 * (metaWord + 3 * bi) / cacheLineSize)
  | .cellCountLeftshift _ bi => .heap (8 * (metaWord + 3 * bi) / cacheLineSize)
  | .bucketPtr second bi => .heap (8 * (metaWord + 3 * bi + ptrWord second) / cacheLineSize)
  | .byte addr => .heap (addr / cacheLineSize)

/-- The memory from `addr` on holds `bytes`. -/
def RecordAt (heap : Nat → UInt8) (addr : Nat) (bytes : List UInt8) : Prop :=
  ∀ i b, bytes[i]? = some b → heap (addr + i) = b

/-- The memory from `addr` on holds a record of one line at most. -/
def LineRecordAt (heap : Nat → UInt8) (addr : Nat) (bytes : List UInt8) : Prop :=
  bytes.length ≤ cacheLineSize ∧ RecordAt heap addr bytes

/-- How a `SlotRecord` uses the second word of a slot: as the value itself, or as the
address of a record. What the format promises concerns records of one line at most; the
lengths of longer ones need not fit the fields that store them. -/
structure RecordFormat {K V H E : Type} (L : SlotLayout K V H E) where
  /-- the type of `entry` -/
  Word : Type
  zeroWord : Word
  /-- what `Store` puts into `entry` -/
  word : V → Nat → Word
  /-- `EncodeToRecord2`: the record behind `entry`, if there is one -/
  encode : K → V → Option (List UInt8)
  /-- what a reader makes of `entry` -/
  resolve : (Nat → UInt8) → Word → E
  /-- address and `Record2Size::Size` of the record behind `entry` -/
  extent : (Nat → UInt8) → Word → Nat × Nat
  resolve_word : ∀ heap addr hash key value,
    (∀ bytes, encode key value = some bytes → LineRecordAt heap addr bytes) →
      resolve heap (word value addr) = (L.store hash key value).entry
  extent_word : ∀ heap addr key value bytes, encode key value = some bytes →
    LineRecordAt heap addr bytes → extent heap (word value addr) = (addr, bytes.length)

/-- The instantiation of the persistent table: the slot layout and the limit, the
format of the records, and what the memory holds that the code has not written. -/
structure Setup (K V H E : Type) where
  params : TableParams cellMeta256V2 K V H E
  format : RecordFormat params.layout
  /-- the word `buckets_pmem_` points to -/
  metaWord : Nat
  /-- the heap before `Initialize` -/
  heap₀ : Content (Loc.Val H format.Word)
  /-- the DRAM copy of a new bucket before `MinorRehash` fills it -/
  uninit : Nat → Cell cellMeta256V2 H format.Word

/-- `BucketMetaDram`: the region of the cells and the cell count. -/
structure BucketMetaDram where
  address : Nat
  shift : Nat
deriving DecidableEq

namespace BucketMetaDram

/-- `CellCount`. -/
def cellCount (b : BucketMetaDram) : Nat := 2 ^ b.shift

end BucketMetaDram

/-- The lines of the first `len` bytes of a region. -/
def memLines (r : Nat) (len : Int) : Addr → Bool
  | .cell r' c line =>
    decide (r' = r ∧ ((cellMeta256V2.cellSize * c + cacheLineSize * line : Nat) : Int) < len)
  | .heap _ => false

/-- `rnd_cell_count * kCellSize` and `new_cell_count * kCellSize`, products of
`uint32_t`. -/
def bucketSize (cellCount : Nat) : BitVec 32 :=
  BitVec.ofNat 32 cellCount * BitVec.ofNat 32 cellMeta256V2.cellSize

/-- The version word `insertToSlotAndGC` commits. -/
def putVersion {H : Type} (v : Version cellMeta256V2) (info : SlotInfo H) : Version cellMeta256V2 :=
  if info.equalKey then v.masked.update info.slot info.oldSlot else v.masked.insert info.slot

namespace Setup

variable {K V H E : Type} (S : Setup K V H E)

/-- What the locations hold. -/
abbrev Content : Type := LineMemory.Content (Loc.Val H S.format.Word)

/-- The lines and their pending stores. -/
abbrev Memory : Type := LineMemory.Memory Addr (Loc.Val H S.format.Word)

abbrev Event : Type := LineMemory.Event Addr (Loc.Val H S.format.Word)

abbrev layout : SlotLayout K V H E := S.params.layout

/-! ## Reading the table out of the memory -/

/-- The bytes of the heap. -/
def heap (x : S.Content) (addr : Nat) : UInt8 := x (.byte addr)

/-- A cell as it lies in memory. -/
def rawCell (x : S.Content) (r c : Nat) : Cell cellMeta256V2 H S.format.Word :=
  ⟨x (.ver r c), fun i => x (.tag r c i), fun i => ⟨x (.h1 r c i), x (.entry r c i)⟩⟩

/-- A cell as a reader sees it, with the records behind its slots. -/
def cell (x : S.Content) (r c : Nat) : Cell cellMeta256V2 H E :=
  ⟨x (.ver r c), fun i => x (.tag r c i),
    fun i => ⟨x (.h1 r c i), S.format.resolve (S.heap x) (x (.entry r c i))⟩⟩

/-- The table that the DRAM array `buckets_` and the memory make up. -/
def table (x : S.Content) (bucketCountShift : Nat) (buckets_ : Nat → BucketMetaDram) :
    Table cellMeta256V2 H E where
  bucketCountShift := bucketCountShift
  buckets i := ⟨(buckets_ i).shift, fun c => S.cell x (buckets_ i).address c⟩
  capacity := 0

/-- `BucketMetaPmem::Extract`; `none` is its `exit (1)`. -/
def extract (x : S.Content) (bi : Nat) : Option BucketMetaDram :=
  let cur : UInt8 := x (.curVer bi)
  if cur = 1 then some ⟨x (.bucketPtr false bi), x (.cellCountLeftshift false bi)⟩
  else if cur = 2 then
    some ⟨x (.bucketPtr true bi), x (.cellCountLeftshift true bi)⟩
  else none

/-- `Recover`: the array `buckets_`, extracted from persistent memory. -/
def recover (x : S.Content) (bucketCount : Nat) : Option (Nat → BucketMetaDram) :=
  if ∀ i < bucketCount, (S.extract x i).isSome then
    some fun i => (S.extract x i).getD ⟨0, 0⟩
  else none

/-! ## What the code does to the memory -/

/-- `FLUSH` of the line a location lies on. -/
def flushLoc (l : Loc) : S.Event := .flushLine (lineOf S.metaWord l)

/-- `BucketMetaPmem::Init`. -/
def metaInit (bi : Nat) (b : BucketMetaDram) : List S.Event :=
  [.store (.curVer bi) (1 : UInt8), .store (.bucketPtr false bi) b.address,
    .store (.cellCountLeftshift false bi) b.shift, S.flushLoc (.curVer bi), .fence]

/-- `BucketMetaPmem::Store`: write the copy that is not in use and switch to it. -/
def metaStore (second : Bool) (bi : Nat) (b : BucketMetaDram) : List S.Event :=
  [.store (.bucketPtr second bi) b.address, .store (.cellCountLeftshift second bi) b.shift,
    S.flushLoc (.curVer bi), .fence,
    .store (.curVer bi) (if second then 2 else 1 : UInt8), S.flushLoc (.curVer bi), .fence]

/-- What `memset` with zero leaves. -/
def zeroContent : S.Content
  | .ver _ _ => Version.zero
  | .tag _ _ _ => (0 : UInt8)
  | .h1 _ _ _ => S.layout.zeroSlot.h1
  | .entry _ _ _ => S.format.zeroWord
  | .curVer _ => (0 : UInt8)
  | .cellCountLeftshift _ _ => (0 : Nat)
  | .bucketPtr _ _ => (0 : Nat)
  | .byte _ => (0 : UInt8)

/-- `memset` or `memmove` of a length from the start of region `r` on, and
`TURBO_PMEM_CLFLUSH`, which takes its length as an `int`. -/
def writeRegion (r : Nat) (copied flushed : Int) (x : S.Content) : List S.Event :=
  [.copy (memLines r copied) x, .flush (memLines r flushed), .fence]

/-- Step 5 of `Initialize` for bucket `bi`. -/
def initializeBucket (shift bi : Nat) : List S.Event :=
  S.writeRegion bi (bucketSize (2 ^ shift)).toNat (bucketSize (2 ^ shift)).toInt S.zeroContent ++
    S.metaInit bi ⟨bi, shift⟩

/-- The cells of a new bucket as `memmove` writes them. -/
def bucketContent (b : Bucket cellMeta256V2 H S.format.Word) : S.Content
  | .ver _ c => (b.cells c).ver
  | .tag _ c i => (b.cells c).tags i
  | .h1 _ c i => ((b.cells c).slots i).h1
  | .entry _ c i => ((b.cells c).slots i).entry
  | .curVer _ => (0 : UInt8)
  | .cellCountLeftshift _ _ => (0 : Nat)
  | .bucketPtr _ _ => (0 : Nat)
  | .byte _ => (0 : UInt8)

/-- Steps 3 to 5 of `MinorRehash`: copy the new bucket into region `r`, write it back,
and commit it to the meta array. -/
def rehashEvents (b : Bucket cellMeta256V2 H S.format.Word) (r bi : Nat) (second : Bool) :
    List S.Event :=
  S.writeRegion r (bucketSize b.cellCount).toNat (bucketSize b.cellCount).toInt
      (S.bucketContent b) ++ S.metaStore second bi ⟨r, b.cellCountShift⟩

/-- The stores of `EncodeToRecord2` at `addr`. -/
def recordStores : Nat → List UInt8 → List S.Event
  | _, [] => []
  | addr, b :: bytes => .store (.byte addr) b :: recordStores (addr + 1) bytes

/-- `SlotRecord::Store` into slot `i` of cell `c`; a record is written at `addr`. -/
def slotStore (r c i : Nat) (hash : UInt64) (key : K) (value : V) (addr : Nat) : List S.Event :=
  ((S.format.encode key value).elim [] fun bytes => S.recordStores addr bytes) ++
    [.store (.h1 r c i) (S.layout.h1Convert key hash),
      .store (.entry r c i) (S.format.word value addr)] ++
    ((S.format.encode key value).elim [] fun _ => [S.flushLoc (.byte addr)]) ++
    [S.flushLoc (.h1 r c i), .fence]

/-- `insertToSlotAndGC` up to the store of the version word: the tag, then the slot. -/
def putPrepare (r : Nat) (info : SlotInfo H) (key : K) (value : V) (addr : Nat) : List S.Event :=
  .store (.tag r info.cell info.slot) info.h2 ::
    S.slotStore r info.cell info.slot (S.layout.keyToHash key) key value addr

/-- The store of the version word and its write-back, in `insertToSlotAndGC` and in
`deleteSlot`. -/
def commitEvents (r c : Nat) (v : Version cellMeta256V2) : List S.Event :=
  [.store (.ver r c) v, S.flushLoc (.ver r c), .fence]

end Setup

end TurboHash.Pmem
