import TurboHash.PmemHolds

/-!
# What a `Put` and a `Delete` do to persistent memory

Up to the store of the version word, a `Put` writes only what no live slot uses, and
when its record lies on one line all of it but the tag is durable by then. The tag lies
on the line of the version word, before it. So the version word publishes the new cell,
whatever survives.
-/

namespace TurboHash.Pmem

open LineMemory

variable {K V H E : Type} {S : Setup K V H E}

/-! ## The target of a `Put` -/

/-- What the search of `Put` has found: a slot that is not live, and the version word
that makes it live. -/
structure PutTarget (L : SlotLayout K V H E) (b : Bucket cellMeta256V2 H E) (key : K)
    (info : SlotInfo H) : Prop where
  inside : info.cell < b.cellCount
  h2 : info.h2 = (L.keyHash key).h2
  slot_lt : info.slot < cellMeta256V2.bits
  dead : (b.cells info.cell).live info.slot = false
  wf : (putVersion (b.cells info.cell).ver info).WellFormed
  lives : ∀ i, (putVersion (b.cells info.cell).ver info).live i = true →
    i = info.slot ∨ (b.cells info.cell).live i = true
  commit : ∀ value, (insertToSlotAndGC L (L.keyToHash key) key value (b.cells info.cell) info).1 =
    (b.cells info.cell).put L info.slot key value (putVersion (b.cells info.cell).ver info)

theorem PutTarget.of_answer {L : SlotLayout K V H E} {b : Bucket cellMeta256V2 H E} {key : K}
    {bucketI : Nat} {res : FindSlotForInsertResult H} (wf : b.WellFormed L)
    (answer : InsertAnswer L b key bucketI res) (found : res.find = true) :
    PutTarget L b key res.targetSlot := by
  cases answer with
  | @update c oldSlot slot inside _ value holds free =>
    have cellWf := wf c inside
    have version : ∀ info : SlotInfo H, info.equalKey = true →
        putVersion (b.cells c).ver info = (b.cells c).ver.update info.slot info.oldSlot :=
      fun info equal => by rw [putVersion, if_pos equal, cellWf.ver.masked_eq]
    refine ⟨inside, rfl, free.2.1, free.not_live, ?_, fun i alive => ?_, fun value' => ?_⟩
    · rw [version _ rfl]
      exact cellWf.ver.update holds.1 free
    · rw [version _ rfl, Version.live_update holds.1 free.2.1, Bool.and_eq_true, Bool.or_eq_true,
        decide_eq_true_eq] at alive
      exact alive.1.symm
    · rw [version _ rfl]
      exact insertToSlotAndGC_update cellWf bucketI c slot oldSlot
  | @insert c slot inside _ free _ =>
    have cellWf := wf c inside
    have version : ∀ info : SlotInfo H, info.equalKey = false →
        putVersion (b.cells c).ver info = (b.cells c).ver.insert info.slot :=
      fun info fresh => by rw [putVersion, if_neg (by simp [fresh]), cellWf.ver.masked_eq]
    refine ⟨inside, rfl, free.2.1, free.not_live, ?_, fun i alive => ?_, fun value => ?_⟩
    · rw [version _ rfl]
      exact cellWf.ver.insert free
    · rw [version _ rfl, Version.live_insert free.2.1, Bool.or_eq_true,
        decide_eq_true_eq] at alive
      exact alive.symm
    · rw [version _ rfl]
      exact insertToSlotAndGC_insert cellWf bucketI c slot
  | noRoom => cases found

/-- A commit changes the version word. -/
theorem putVersion_ne {v : Version cellMeta256V2} (wf : v.WellFormed) (info : SlotInfo H) :
    putVersion v info ≠ v := by
  have seq : (putVersion v info).seqNo = v.seqNo + 1 := by
    unfold putVersion
    rw [wf.masked_eq]
    split <;> rfl
  intro same
  rw [same] at seq
  exact absurd seq (by simp)

theorem delete_ne (v : Version cellMeta256V2) (i : Nat) : v.delete i ≠ v := by
  intro same
  have seq : v.seqNo + 1 = v.seqNo := congrArg Version.seqNo same
  exact absurd seq (by simp)

/-! ## What the events of a `Put` avoid -/

namespace Setup

variable {r addr : Nat} {info : SlotInfo H} {key : K} {value : V} {l : Loc}

/-- The locations that a `Put` writes before its version word. -/
def PutWrites (S : Setup K V H E) (r : Nat) (info : SlotInfo H) (key : K) (value : V)
    (addr : Nat) (l : Loc) : Prop :=
  l = .tag r info.cell info.slot ∨ l = .h1 r info.cell info.slot ∨
    l = .entry r info.cell info.slot ∨
      ∃ bytes, S.format.encode key value = some bytes ∧ ∃ j < bytes.length, l = .byte (addr + j)

theorem avoids_recordStores {bytes : List UInt8} (other : ∀ j < bytes.length, l ≠ .byte (addr + j)) :
    ∀ e ∈ S.recordStores addr bytes, e.Avoids (lineOf S.metaWord) l := by
  induction bytes generalizing addr with
  | nil => simp [recordStores]
  | cons b bytes ih =>
    intro e mem
    rw [recordStores, List.mem_cons] at mem
    rcases mem with rfl | mem
    · exact fun same => other 0 (by simp) same.symm
    · refine ih (fun j less => ?_) e mem
      rw [Nat.add_assoc, Nat.add_comm 1 j]
      exact other (j + 1) (by simpa using less)

theorem avoids_putPrepare (other : ¬ S.PutWrites r info key value addr l) :
    ∀ e ∈ S.putPrepare r info key value addr, e.Avoids (lineOf S.metaWord) l := by
  simp only [PutWrites, not_or, not_exists, not_and] at other
  obtain ⟨tag, h1, entry, record⟩ := other
  intro e mem
  simp only [putPrepare, slotStore, List.mem_cons, List.mem_append, List.not_mem_nil,
    or_false] at mem
  rcases mem with rfl | ((written | rfl | rfl) | flushed) | rfl | rfl
  · exact fun same => tag same.symm
  · cases encoded : S.format.encode key value with
    | none => simp [encoded] at written
    | some bytes =>
      rw [encoded] at written
      exact avoids_recordStores (fun j less => record bytes encoded j less) e written
  · exact fun same => h1 same.symm
  · exact fun same => entry same.symm
  · cases encoded : S.format.encode key value with
    | none => simp [encoded] at flushed
    | some bytes =>
      rw [encoded] at flushed
      rw [List.mem_singleton.mp flushed]
      trivial
  · trivial
  · trivial

/-! ## What a `Put` has made durable before its version word -/

theorem apply_recordStores {bytes : List UInt8} {x : S.Content} {j : Nat} {b : UInt8}
    (some : bytes[j]? = some b) :
    (S.recordStores addr bytes).foldl (Event.apply (lineOf S.metaWord)) x (.byte (addr + j)) =
      b := by
  induction bytes generalizing addr x j with
  | nil => simp at some
  | cons first bytes ih =>
    rw [recordStores, List.foldl_cons]
    cases j with
    | zero =>
      rw [foldl_apply_of_avoids (avoids_recordStores fun j less same => by
        have := Loc.byte.inj same
        omega)]
      simp only [List.getElem?_cons_zero, Option.some.injEq] at some
      rw [← some]
      exact Function.update_self ..
    | succ j =>
      rw [List.getElem?_cons_succ] at some
      rw [show addr + (j + 1) = addr + 1 + j by omega]
      exact ih some

variable {m : S.Memory}

/-- The slot, the record and the tag behind the preparation of a `Put`. -/
structure Prepared (m : S.Memory) (r : Nat) (info : SlotInfo H) (key : K) (value : V)
    (addr : Nat) : Prop where
  tag : current (lineOf S.metaWord) m (.tag r info.cell info.slot) = info.h2
  h1 : Surely (lineOf S.metaWord) m (.h1 r info.cell info.slot) (S.layout.keyHash key).h1
  entry : Surely (lineOf S.metaWord) m (.entry r info.cell info.slot) (S.format.word value addr)
  fits : ∀ bytes, S.format.encode key value = some bytes → bytes.length ≤ cacheLineSize
  record : ∀ bytes, S.format.encode key value = some bytes → ∀ j b, bytes[j]? = some b →
    Surely (lineOf S.metaWord) m (.byte (addr + j)) b

theorem lineOf_entry (mw r c i : Nat) : lineOf mw (.entry r c i) = lineOf mw (.h1 r c i) := by
  simp only [lineOf, cacheLineSize, Addr.cell.injEq, true_and]
  omega

/-- The stores of the preparation. -/
def putStores (S : Setup K V H E) (r : Nat) (info : SlotInfo H) (key : K) (value : V)
    (addr : Nat) : List S.Event :=
  .store (.tag r info.cell info.slot) info.h2 ::
    (((S.format.encode key value).elim [] fun bytes => S.recordStores addr bytes) ++
      [.store (.h1 r info.cell info.slot) (S.layout.h1Convert key (S.layout.keyToHash key)),
        .store (.entry r info.cell info.slot) (S.format.word value addr)])

theorem putPrepare_eq :
    S.putPrepare r info key value addr = S.putStores r info key value addr ++
      (((S.format.encode key value).elim [] fun _ => [S.flushLoc (.byte addr)]) ++
        [S.flushLoc (.h1 r info.cell info.slot), .fence]) := by
  simp [putPrepare, slotStore, putStores, List.append_assoc]

section Stored

variable (x : S.Content)

theorem apply_putStores_tag :
    (S.putStores r info key value addr).foldl (Event.apply (lineOf S.metaWord)) x
      (.tag r info.cell info.slot) = info.h2 := by
  rw [putStores, List.foldl_cons, foldl_apply_of_avoids]
  · exact Function.update_self ..
  · intro e mem
    rw [List.mem_append] at mem
    rcases mem with written | slot
    · cases encoded : S.format.encode key value with
      | none => simp [encoded] at written
      | some bytes =>
        rw [encoded] at written
        exact avoids_recordStores (by simp) e written
    · simp only [List.mem_cons, List.not_mem_nil, or_false] at slot
      rcases slot with rfl | rfl <;> exact Loc.noConfusion

theorem apply_putStores_h1 :
    (S.putStores r info key value addr).foldl (Event.apply (lineOf S.metaWord)) x
      (.h1 r info.cell info.slot) = (S.layout.keyHash key).h1 := by
  rw [putStores, List.foldl_cons, List.foldl_append]
  have other : Loc.h1 r info.cell info.slot ≠ .entry r info.cell info.slot := Loc.noConfusion
  refine (Function.update_of_ne other (S.format.word value addr) _).trans ?_
  exact Function.update_self ..

theorem apply_putStores_entry :
    (S.putStores r info key value addr).foldl (Event.apply (lineOf S.metaWord)) x
      (.entry r info.cell info.slot) = S.format.word value addr := by
  rw [putStores, List.foldl_cons, List.foldl_append]
  exact Function.update_self ..

theorem apply_putStores_byte {bytes : List UInt8} (encoded : S.format.encode key value = some bytes)
    {j : Nat} {b : UInt8} (some : bytes[j]? = some b) :
    (S.putStores r info key value addr).foldl (Event.apply (lineOf S.metaWord)) x
      (.byte (addr + j)) = b := by
  rw [putStores, encoded, List.foldl_cons, List.foldl_append, foldl_apply_of_avoids]
  · exact apply_recordStores some
  · intro e mem
    simp only [List.mem_cons, List.not_mem_nil, or_false] at mem
    rcases mem with rfl | rfl <;> exact Loc.noConfusion

end Stored

/-- A record on one line is durable when the preparation has ended, and so is the slot. -/
theorem prepared (onLine : ∀ bytes, S.format.encode key value = some bytes →
      Machine.OnOneLine addr bytes.length) :
    Prepared (execAll (lineOf S.metaWord) m (S.putPrepare r info key value addr))
      r info key value addr := by
  rw [putPrepare_eq, execAll_append, execAll_append]
  have stored : current (lineOf S.metaWord) (execAll (lineOf S.metaWord) m
      (S.putStores r info key value addr)) = (S.putStores r info key value addr).foldl
        (Event.apply (lineOf S.metaWord)) (current (lineOf S.metaWord) m) := current_execAll _
  generalize execAll (lineOf S.metaWord) m (S.putStores r info key value addr) = m₁ at stored ⊢
  -- the flush of the record changes nothing that loads see
  have flushed : current (lineOf S.metaWord) (execAll (lineOf S.metaWord) m₁
      ((S.format.encode key value).elim [] fun _ => [S.flushLoc (.byte addr)])) =
        current (lineOf S.metaWord) m₁ := by
    cases S.format.encode key value with
    | none => rfl
    | some bytes => exact current_exec (S.flushLoc (.byte addr))
  have slot : ∀ l w, lineOf S.metaWord l = lineOf S.metaWord (.h1 r info.cell info.slot) →
      current (lineOf S.metaWord) m₁ l = w → Surely (lineOf S.metaWord) (execAll
        (lineOf S.metaWord) (execAll (lineOf S.metaWord) m₁ ((S.format.encode key value).elim []
          fun _ => [S.flushLoc (.byte addr)])) [S.flushLoc (.h1 r info.cell info.slot), .fence])
        l w := by
    intro l w same holds
    rw [← holds, ← flushed]
    exact surely_of_flushLine_fence same
  refine ⟨?_, slot _ _ rfl ?_, slot _ _ (lineOf_entry _ _ _ _) ?_,
    fun bytes encoded => Machine.OnOneLine.length_le (onLine bytes encoded), ?_⟩
  · rw [current_execAll, flushed, stored]
    exact apply_putStores_tag _
  · rw [stored]
    exact apply_putStores_h1 _
  · rw [stored]
    exact apply_putStores_entry _
  · intro bytes encoded j b some
    obtain ⟨less, -⟩ := List.getElem?_eq_some_iff.mp some
    have line : lineOf S.metaWord (.byte (addr + j)) = lineOf S.metaWord (.byte addr) :=
      congrArg Addr.heap (onLine bytes encoded j less)
    have value : current (lineOf S.metaWord) m₁ (.byte (addr + j)) = b := by
      rw [stored]
      exact apply_putStores_byte _ encoded some
    rw [encoded] at flushed ⊢
    have covered : Flushed (exec (lineOf S.metaWord) m₁ (S.flushLoc (.byte addr)))
        (lineOf S.metaWord (.byte (addr + j))) := by
      rw [line]
      exact flushed_flushLine
    have covered' : Flushed (exec (lineOf S.metaWord) (exec (lineOf S.metaWord) m₁
        (S.flushLoc (.byte addr))) (S.flushLoc (.h1 r info.cell info.slot)))
        (lineOf S.metaWord (.byte (addr + j))) := covered.flush
    have sure := covered'.surely
    rw [current_exec] at sure
    have same : current (lineOf S.metaWord) (exec (lineOf S.metaWord) m₁
        (S.flushLoc (.byte addr))) (.byte (addr + j)) = b := by
      rw [← value]
      exact congrFun flushed _
    rw [← same]
    exact sure

/-! ## The cell that is published -/

variable {R R' : S.Says} {c : Nat} {cell : Cell cellMeta256V2 H E} {version : Version cellMeta256V2}

/-- A published `Put`. -/
theorem CellHolds.put {slot : Nat} (old : S.CellHolds R r c cell) (ver : R' (.ver r c) version)
    (wf : version.WellFormed) (lives : ∀ i, version.live i = true → i = slot ∨ cell.live i = true)
    (stored : S.SlotHolds R' r c slot key value addr)
    (others : ∀ l w, l ≠ .ver r c → R l w → R' l w) :
    S.CellHolds R' r c (cell.put S.layout slot key value version) where
  ver := ver
  wf := wf
  stored i alive := by
    by_cases eq : i = slot
    · subst eq
      exact ⟨key, value, Cell.put_slots_self, Cell.put_tags_self, addr, stored⟩
    · obtain ⟨key', value', holds, tag, addr', slotHolds⟩ :=
        old.stored i ((lives i alive).resolve_left eq)
      rw [Cell.put_slots_of_ne eq, Cell.put_tags_of_ne eq]
      exact ⟨key', value', holds, tag, addr', slotHolds.mono (fun w => others _ w (by simp))
        (fun w => others _ w (by simp)) (fun w => others _ w (by simp))
        fun a w => others _ w (by simp)⟩

/-- A published `Delete`. -/
theorem CellHolds.erase {i : Nat} (old : S.CellHolds R r c cell)
    (occupied : cell.ver.bitmap.getLsbD i = true) (ver : R' (.ver r c) (cell.ver.delete i)) (others : ∀ l w, l ≠ .ver r c → R l w → R' l w) :
    S.CellHolds R' r c (cell.erase i) where
  ver := ver
  wf := old.wf.delete occupied
  stored j still := by
    change (cell.ver.delete i).live j = true at still
    rw [Version.live_delete (BitVec.lt_of_getLsbD occupied), Bool.and_eq_true] at still
    obtain ⟨key, value, holds, tag, addr, slotHolds⟩ := old.stored j still.1
    exact ⟨key, value, holds, tag, addr, slotHolds.mono (fun w => others _ w (by simp))
      (fun w => others _ w (by simp)) (fun w => others _ w (by simp))
      fun a w => others _ w (by simp)⟩

/-! ## What the table keeps meanwhile -/

variable {buckets_ : Nat → BucketMetaDram} {t : Table cellMeta256V2 H E}

/-- The table holds in terms of what a condition on locations is true of, when it is true
of all the locations that the table uses. -/
theorem Holds.restrict {A : Loc → Prop} (holds : S.Holds R buckets_ t)
    (metas : ∀ i second, A (.curVer i) ∧ A (.bucketPtr second i) ∧ A (.cellCountLeftshift second i))
    (ver : ∀ r c, A (.ver r c))
    (slot : ∀ i < t.bucketCount, ∀ c < (t.buckets i).cellCount, ∀ j,
      ((t.buckets i).cells c).live j = true → A (.tag (buckets_ i).address c j) ∧
        A (.h1 (buckets_ i).address c j) ∧ A (.entry (buckets_ i).address c j))
    (byte : ∀ i < t.bucketCount, ∀ c < (t.buckets i).cellCount, ∀ j,
      ((t.buckets i).cells c).live j = true → ∀ key value addr bytes,
        S.SlotHolds R (buckets_ i).address c j key value addr →
          S.format.encode key value = some bytes → ∀ k < bytes.length, A (.byte (addr + k))) :
    S.Holds (fun l w => R l w ∧ A l) buckets_ t where
  metas i inside := by
    obtain ⟨second, metaHolds⟩ := holds.metas i inside
    obtain ⟨cur, ptr, shift⟩ := metas i second
    exact ⟨second, ⟨metaHolds.cur, cur⟩, ⟨metaHolds.ptr, ptr⟩, ⟨metaHolds.shift, shift⟩⟩
  apart := holds.apart
  shift := holds.shift
  cells i inside c less := by
    have old := holds.cells i inside c less
    refine ⟨⟨old.ver, ver _ _⟩, old.wf, fun j alive => ?_⟩
    obtain ⟨key, value, same, tag, addr, slotHolds⟩ := old.stored j alive
    obtain ⟨keepsTag, keepsH1, keepsEntry⟩ := slot i inside c less j alive
    refine ⟨key, value, same, tag, addr, ⟨slotHolds.tag, keepsTag⟩, ⟨slotHolds.h1, keepsH1⟩,
      ⟨slotHolds.entry, keepsEntry⟩, slotHolds.fits, fun bytes encoded k b some => ?_⟩
    obtain ⟨within, -⟩ := List.getElem?_eq_some_iff.mp some
    exact ⟨slotHolds.record bytes encoded k b some,
      byte i inside c less j alive key value addr bytes slotHolds encoded k within⟩

end Setup

end TurboHash.Pmem
