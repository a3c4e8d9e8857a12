import TurboHash.TableMap

/-!
# Tables that hold the same entries

Two tables agree when their version words are the same and their live slots hold
the same entries; what lies in the other slots is left open. Agreement carries the
occupancy invariant and the map of a table over to the other one.
-/

namespace TurboHash

variable {F : CellFormat} {K V H E : Type} {L : SlotLayout K V H E}

/-! ## Cells -/

/-- The same version word, and the same entries and tags in the live slots. -/
structure Cell.Agrees (c' c : Cell F H E) : Prop where
  ver : c'.ver = c.ver
  slots : ∀ i, c.live i = true → c'.slots i = c.slots i
  tags : ∀ i, c.live i = true → c'.tags i = c.tags i

namespace Cell.Agrees

variable {c' c : Cell F H E} {i : Nat}

theorem live_eq (agrees : c'.Agrees c) : c'.live i = c.live i :=
  congrArg (fun v => Version.live v i) agrees.ver

theorem symm (agrees : c'.Agrees c) : c.Agrees c' where
  ver := agrees.ver.symm
  slots i alive := (agrees.slots i (agrees.live_eq ▸ alive)).symm
  tags i alive := (agrees.tags i (agrees.live_eq ▸ alive)).symm

theorem holds_iff (agrees : c'.Agrees c) {key : K} {value : V} :
    c'.Holds L i key value ↔ c.Holds L i key value := by
  unfold Cell.Holds
  rw [agrees.live_eq]
  exact and_congr_right fun alive => by rw [agrees.slots i alive]

theorem wf (agrees : c'.Agrees c) (wf : c.WellFormed L) : c'.WellFormed L where
  ver := agrees.ver ▸ wf.ver
  stored i alive := by
    rw [agrees.live_eq] at alive
    rw [agrees.slots i alive, agrees.tags i alive]
    exact wf.stored i alive

theorem full_iff (agrees : c'.Agrees c) : c'.Full ↔ c.Full := by
  unfold Cell.Full CellMeta.full Cell.loadMeta Cell.loadVersion
  rw [agrees.ver]

end Cell.Agrees

/-! ## Buckets -/

/-- Buckets of one size whose cells agree. -/
structure Bucket.Agrees (b' b : Bucket F H E) : Prop where
  shift : b'.cellCountShift = b.cellCountShift
  cells : ∀ c < b.cellCount, (b'.cells c).Agrees (b.cells c)

namespace Bucket.Agrees

variable {b' b : Bucket F H E}

theorem count_eq (agrees : b'.Agrees b) : b'.cellCount = b.cellCount :=
  congrArg (2 ^ ·) agrees.shift

theorem binds_iff (agrees : b'.Agrees b) {key : K} {value : V} :
    b'.Binds L key value ↔ b.Binds L key value := by
  unfold Bucket.Binds
  rw [agrees.count_eq]
  exact exists_congr fun c => and_congr_right fun inside =>
    exists_congr fun i => (agrees.cells c inside).holds_iff

theorem wf (agrees : b'.Agrees b) (wf : b.WellFormed L) : b'.WellFormed L := by
  intro c inside
  rw [agrees.count_eq] at inside
  exact (agrees.cells c inside).wf (wf c inside)

theorem placed (agrees : b'.Agrees b) (placed : b.Placed L) : b'.Placed L where
  wf := agrees.wf placed.wf
  reaches c inside i key value holds := by
    rw [agrees.count_eq] at inside
    have reached := placed.reaches c inside i key value ((agrees.cells c inside).holds_iff.mp holds)
    rw [Bucket.path, agrees.count_eq]
    exact reached.mono fun x mem => (agrees.cells x (b.lt_of_mem_path mem)).full_iff.mpr
  unique c inside c' inside' i i' key value value' holds holds' := by
    rw [agrees.count_eq] at inside inside'
    exact placed.unique c inside c' inside' i i' key value value'
      ((agrees.cells c inside).holds_iff.mp holds) ((agrees.cells c' inside').holds_iff.mp holds')

end Bucket.Agrees

/-! ## Tables -/

/-- Tables of as many buckets whose buckets agree. -/
structure Table.Agrees (t' t : Table F H E) : Prop where
  count : t'.bucketCountShift = t.bucketCountShift
  buckets : ∀ i < t.bucketCount, (t'.buckets i).Agrees (t.buckets i)

namespace Table.Agrees

variable {t' t : Table F H E}

theorem count_eq (agrees : t'.Agrees t) : t'.bucketCount = t.bucketCount :=
  congrArg (2 ^ ·) agrees.count

theorem bucketOf_eq (agrees : t'.Agrees t) (key : K) : t'.bucketOf L key = t.bucketOf L key := by
  rw [bucketOf, bucketOf, bucketIndex_eq, bucketIndex_eq, agrees.count_eq]

theorem wf (agrees : t'.Agrees t) (wf : ∀ i < t.bucketCount, (t.buckets i).WellFormed L) :
    ∀ i < t'.bucketCount, (t'.buckets i).WellFormed L := by
  intro i inside
  rw [agrees.count_eq] at inside
  exact (agrees.buckets i inside).wf (wf i inside)

/-- Tables that agree are the same map. -/
theorem refines (agrees : t'.Agrees t) {m : K → Option V} (refines : t.Refines L m) :
    t'.Refines L m where
  valid := by
    constructor
    · intro i inside
      rw [agrees.count_eq] at inside
      exact (agrees.buckets i inside).placed (refines.valid.placed i inside)
    · intro i inside key value bound
      rw [agrees.count_eq] at inside
      rw [agrees.bucketOf_eq]
      exact refines.valid.home i inside key value ((agrees.buckets i inside).binds_iff.mp bound)
  binds key value := by
    rw [Table.Binds, agrees.bucketOf_eq,
      (agrees.buckets _ (t.bucketOf_lt L key)).binds_iff]
    exact refines.binds key value

end Table.Agrees

end TurboHash
