import Mathlib.Data.Nat.Find
import Mathlib.Tactic

/-!
# Linear probing over a ring of cells

A ring of `count` cells takes `cap` entries each. An entry goes to the first cell,
from its home cell on, that has room. Whether a cell is full afterwards depends on
the homes alone: it is full exactly when, for some `ℓ`, at least `cap * ℓ` entries
have their home among the `ℓ` cells that end there (`Layout.load_eq_cap_iff`). So
how far an entry is pushed, and whether a search of bounded length finds it a
place, can be read off the homes of the entries before it
(`disp_lt_iff`, `placeAll_eq_none_iff`).
-/

namespace LinearProbe

/-- An entry: its home cell and how far from it it lies. -/
structure Entry where
  home : Nat
  disp : Nat
deriving DecidableEq

/-- The cell of an entry in a ring of `count` cells. -/
def Entry.cell (count : Nat) (e : Entry) : Nat := (e.home + e.disp) % count

/-- How many entries lie in the cell `x`. -/
def load (count : Nat) (entries : List Entry) (x : Nat) : Nat :=
  entries.countP fun e => e.cell count == x

/-- The distance from the cell `h` forward to the cell `x`. -/
def gap (count h x : Nat) : Nat := if h ≤ x then x - h else x + count - h

/-- The cell that lies `d` before `x`. -/
def back (count x d : Nat) : Nat := if d ≤ x then x - d else x + count - d

/-- The ways a ring can be filled: no cell holds more than `cap`, and an entry
has passed full cells only. -/
structure Layout (cap count : Nat) (entries : List Entry) : Prop where
  home_lt : ∀ e ∈ entries, e.home < count
  disp_lt : ∀ e ∈ entries, e.disp < count
  load_le : ∀ x, load count entries x ≤ cap
  passed : ∀ e ∈ entries, ∀ d < e.disp, load count entries ((e.home + d) % count) = cap

/-- At least `cap * ℓ` of the homes lie among the `ℓ` cells that end at `x`. -/
def Saturated (cap count : Nat) (homes : List Nat) (x : Nat) : Prop :=
  ∃ ℓ, ℓ < count ∧ cap * (ℓ + 1) ≤ homes.countP fun h => gap count h x ≤ ℓ

instance (cap count : Nat) (homes : List Nat) (x : Nat) : Decidable (Saturated cap count homes x) :=
  inferInstanceAs (Decidable (∃ ℓ, ℓ < count ∧ _))

section Ring

variable {count : Nat}

theorem add_mod_of_lt {h d : Nat} (hh : h < count) (hd : d < count) :
    (h + d) % count = if h + d < count then h + d else h + d - count := by
  split
  case isTrue less => exact Nat.mod_eq_of_lt less
  case isFalse more =>
    rw [Nat.mod_eq_sub_mod (by omega), Nat.mod_eq_of_lt (by omega)]

/-- Walking on from `h` the distance to `x` drops, until `x` is reached. -/
theorem gap_add_mod {h d x : Nat} (hh : h < count) (hd : d < count) (hx : x < count) :
    gap count ((h + d) % count) x =
      if d ≤ gap count h x then gap count h x - d else gap count h x + count - d := by
  rw [add_mod_of_lt hh hd]
  unfold gap
  split_ifs <;> omega

theorem add_gap_mod {h x : Nat} (hh : h < count) (hx : x < count) :
    (h + gap count h x) % count = x := by
  unfold gap
  split_ifs with order
  · rw [Nat.add_sub_cancel' order, Nat.mod_eq_of_lt hx]
  · rw [show h + (x + count - h) = x + count by omega, Nat.add_mod_right, Nat.mod_eq_of_lt hx]

theorem gap_lt {h x : Nat} (hh : h < count) (hx : x < count) : gap count h x < count := by
  unfold gap
  split_ifs <;> omega

theorem gap_eq_iff {y x d : Nat} (hy : y < count) (hd : d < count) :
    gap count y x = d ↔ y = back count x d := by
  unfold gap back
  split_ifs <;> omega

end Ring

section Load

variable {cap count : Nat} {entries : List Entry} {x : Nat}

theorem Entry.cell_lt (positive : 0 < count) (e : Entry) : e.cell count < count :=
  Nat.mod_lt _ positive

theorem load_append (left right : List Entry) :
    load count (left ++ right) x = load count left x + load count right x :=
  List.countP_append ..

theorem load_singleton (e : Entry) : load count [e] x = if e.cell count = x then 1 else 0 := by
  simp [load, List.countP_cons]

/-- The entries that lie in the `ℓ` cells that end at `x`. -/
def window (count : Nat) (entries : List Entry) (x ℓ : Nat) : Nat :=
  entries.countP fun e => gap count (e.cell count) x < ℓ

theorem window_succ (hx : x < count) {ℓ : Nat} (hℓ : ℓ < count) :
    window count entries x (ℓ + 1) =
      window count entries x ℓ + load count entries (back count x ℓ) := by
  have positive : 0 < count := Nat.zero_lt_of_lt hx
  induction entries with
  | nil => rfl
  | cons e entries ih =>
    unfold window load at ih ⊢
    rw [List.countP_cons, List.countP_cons, List.countP_cons, ih]
    have last := gap_eq_iff (x := x) (e.cell_lt positive) hℓ
    by_cases here : gap count (e.cell count) x = ℓ
    · simp [here, ← last]
      omega
    · have apart : e.cell count ≠ back count x ℓ := fun eq => here (last.mpr eq)
      have same : gap count (e.cell count) x < ℓ + 1 ↔ gap count (e.cell count) x < ℓ := by omega
      simp [apart, same]
      omega

theorem window_le (bound : ∀ y, load count entries y ≤ cap) (hx : x < count) {ℓ : Nat}
    (hℓ : ℓ ≤ count) : window count entries x ℓ ≤ cap * ℓ := by
  induction ℓ with
  | zero => simp [window]
  | succ ℓ ih =>
    have := ih (by omega)
    have := bound (back count x ℓ)
    rw [window_succ hx hℓ, Nat.mul_succ]
    omega

/-- A window that ends at a cell with room has room. -/
theorem window_lt (bound : ∀ y, load count entries y ≤ cap) (hx : x < count)
    (room : load count entries x < cap) {ℓ : Nat} (hℓ : ℓ < count) :
    window count entries x (ℓ + 1) < cap * (ℓ + 1) := by
  induction ℓ with
  | zero =>
    rw [window_succ hx hℓ]
    simpa [window, back] using room
  | succ ℓ ih =>
    have := ih (by omega)
    have := bound (back count x (ℓ + 1))
    rw [window_succ hx hℓ, Nat.mul_succ]
    omega

theorem window_eq (hx : x < count) {ℓ : Nat} (hℓ : ℓ ≤ count)
    (full : ∀ d < ℓ, load count entries (back count x d) = cap) :
    window count entries x ℓ = cap * ℓ := by
  induction ℓ with
  | zero => simp [window]
  | succ ℓ ih =>
    rw [window_succ hx hℓ, ih (by omega) fun d hd => full d (by omega), full ℓ (by omega),
      Nat.mul_succ]

end Load

namespace Layout

variable {cap count : Nat} {entries : List Entry} {x : Nat}

theorem nil (cap count : Nat) : Layout cap count [] :=
  ⟨by simp, by simp, by simp [load], by simp⟩

/-- An entry that starts before a cell with room does not pass it. -/
theorem disp_le_gap (layout : Layout cap count entries) (hx : x < count)
    (room : load count entries x < cap) {e : Entry} (mem : e ∈ entries) :
    e.disp ≤ gap count e.home x := by
  by_contra passes
  have full := layout.passed e mem _ (Nat.not_le.mp passes)
  rw [add_gap_mod (layout.home_lt e mem) hx] at full
  omega

/-- An entry in the full run of cells that ends at `x` has its home there. -/
theorem home_in_run (layout : Layout cap count entries) (hx : x < count) {ℓ : Nat}
    (hℓ : ℓ < count) (room : load count entries (back count x ℓ) < cap) {e : Entry}
    (mem : e ∈ entries) (inside : gap count (e.cell count) x < ℓ) : gap count e.home x < ℓ := by
  have hh := layout.home_lt e mem
  have hd := layout.disp_lt e mem
  by_contra outside
  rw [Entry.cell, gap_add_mod hh hd hx] at inside
  have start : back count x ℓ < count := by
    unfold back
    split_ifs <;> omega
  have passes := layout.disp_le_gap start room mem
  unfold gap back at *
  split_ifs at * <;> omega

/-- A full cell ends a run of full cells whose entries have their homes in it. -/
theorem exists_run (layout : Layout cap count entries) (hx : x < count)
    (full : load count entries x = cap) :
    ∃ run, 0 < run ∧ run ≤ count ∧ (∀ d < run, load count entries (back count x d) = cap) ∧
      ∀ e ∈ entries, gap count (e.cell count) x < run → gap count e.home x < run := by
  by_cases room : ∃ d, d < count ∧ load count entries (back count x d) < cap
  · refine ⟨Nat.find room, Nat.pos_of_ne_zero fun first => ?_, (Nat.find_spec room).1.le,
      fun d before => ?_, fun e mem => ?_⟩
    · have := (Nat.find_spec room).2
      rw [first, show back count x 0 = x by simp [back]] at this
      omega
    · have := Nat.find_min room before
      have := layout.load_le (back count x d)
      have := (Nat.find_spec room).1
      omega
    · exact layout.home_in_run hx (Nat.find_spec room).1 (Nat.find_spec room).2 mem
  · push Not at room
    exact ⟨count, by omega, le_rfl,
      fun d hd => Nat.le_antisymm (layout.load_le _) (room d hd),
      fun e mem _ => gap_lt (layout.home_lt e mem) hx⟩

/-- A cell is full exactly when the homes saturate it. -/
theorem load_eq_cap_iff (layout : Layout cap count entries) (hx : x < count) :
    load count entries x = cap ↔ Saturated cap count (entries.map Entry.home) x := by
  constructor
  · intro full
    obtain ⟨run, positive, bounded, filled, homes⟩ := layout.exists_run hx full
    obtain ⟨ℓ, rfl⟩ := Nat.exists_eq_succ_of_ne_zero (Nat.ne_of_gt positive)
    refine ⟨ℓ, bounded, ?_⟩
    rw [← window_eq hx bounded filled, List.countP_map]
    refine List.countP_mono_left fun e mem inside => ?_
    have := homes e mem (by simpa using inside)
    simpa using Nat.lt_succ_iff.mp this
  · rintro ⟨ℓ, hℓ, many⟩
    by_contra notFull
    have room : load count entries x < cap := Nat.lt_of_le_of_ne (layout.load_le x) notFull
    have few := window_lt layout.load_le hx room hℓ
    have arrive : (entries.map Entry.home).countP (fun h => gap count h x ≤ ℓ) ≤
        window count entries x (ℓ + 1) := by
      rw [List.countP_map]
      refine List.countP_mono_left fun e mem near => ?_
      have stays := layout.disp_le_gap hx room mem
      simp only [Function.comp, decide_eq_true_eq] at near ⊢
      rw [Entry.cell, gap_add_mod (layout.home_lt e mem) (layout.disp_lt e mem) hx, if_pos stays]
      omega
    omega

/-- One more entry, in the first cell from its home on that has room. -/
theorem snoc (layout : Layout cap count entries) {h d : Nat} (hh : h < count) (hd : d < count)
    (room : load count entries ((h + d) % count) < cap)
    (passed : ∀ d' < d, load count entries ((h + d') % count) = cap) :
    Layout cap count (entries ++ [⟨h, d⟩]) := by
  -- a cell that was full before is not the one that takes the entry
  have keep : ∀ x, load count entries x = cap → load count (entries ++ [⟨h, d⟩]) x = cap := by
    intro x full
    have different : (⟨h, d⟩ : Entry).cell count ≠ x := by
      rintro rfl
      exact absurd full (Nat.ne_of_lt room)
    rw [load_append, load_singleton, full, if_neg different, Nat.add_zero]
  constructor
  case home_lt =>
    intro e mem
    rcases List.mem_append.mp mem with mem | mem
    · exact layout.home_lt e mem
    · exact List.mem_singleton.mp mem ▸ hh
  case disp_lt =>
    intro e mem
    rcases List.mem_append.mp mem with mem | mem
    · exact layout.disp_lt e mem
    · exact List.mem_singleton.mp mem ▸ hd
  case load_le =>
    intro x
    rw [load_append, load_singleton]
    have := layout.load_le x
    split_ifs with eq
    · have : load count entries x < cap := eq ▸ room
      omega
    · omega
  case passed =>
    intro e mem d' less
    rcases List.mem_append.mp mem with mem | mem
    · exact keep _ (layout.passed e mem d' less)
    · obtain rfl := List.mem_singleton.mp mem
      exact keep _ (passed d' less)

end Layout

/-! ## Placing a sequence of entries -/

/-- The displacement of an entry: the first of `span` cells from its home on that
has room. -/
def place (cap count span : Nat) (load : Nat → Nat) (home : Nat) : Option Nat :=
  (List.range span).find? fun d => decide (load ((home + d) % count) < cap)

/-- Place entries one after the other. -/
def placeAll (cap count span : Nat) : List Entry → List Nat → Option (List Entry)
  | entries, [] => some entries
  | entries, home :: homes =>
    (place cap count span (load count entries) home).bind fun d =>
      placeAll cap count span (entries ++ [⟨home, d⟩]) homes

section Place

variable {cap count span : Nat} {entries : List Entry} {home d : Nat} {homes : List Nat}

theorem place_eq_some {load : Nat → Nat} :
    place cap count span load home = some d ↔
      d < span ∧ load ((home + d) % count) < cap ∧
        ∀ d' < d, cap ≤ load ((home + d') % count) := by
  rw [place, List.find?_range_eq_some]
  simp only [decide_eq_true_eq, List.mem_range, Bool.not_eq_eq_eq_not, Bool.not_true,
    decide_eq_false_iff_not, Nat.not_lt]
  tauto

theorem place_eq_none {load : Nat → Nat} :
    place cap count span load home = none ↔ ∀ d < span, cap ≤ load ((home + d) % count) := by
  simp [place]

theorem place_zero {load : Nat → Nat} : place cap count 0 load home = none := rfl

/-- The search, one step. -/
theorem place_succ {load : Nat → Nat} :
    place cap count (span + 1) load home =
      if load (home % count) < cap then some 0
      else (place cap count span load ((home + 1) % count)).map (· + 1) := by
  have shift : (fun d => decide (load ((home + (d + 1)) % count) < cap)) =
      fun d => decide (load (((home + 1) % count + d) % count) < cap) := by
    funext d
    rw [Nat.mod_add_mod, Nat.add_assoc, Nat.add_comm 1 d]
  rw [place, List.range_succ_eq_map, List.find?_cons, List.find?_map]
  by_cases room : load (home % count) < cap
  · simp [room]
  · simp only [Nat.add_zero, room, decide_false, if_false]
    exact congrArg (Option.map Nat.succ ∘ fun p => List.find? p (List.range span)) shift

/-- The search goes round the ring at most once. -/
theorem disp_lt_of_place {load : Nat → Nat} (positive : 0 < count)
    (placed : place cap count span load home = some d) : d < count := by
  obtain ⟨-, room, passed⟩ := place_eq_some.mp placed
  by_contra around
  have before := passed (d % count) (Nat.lt_of_lt_of_le (Nat.mod_lt _ positive) (by omega))
  rw [Nat.add_mod_mod] at before
  omega

theorem Layout.place (layout : Layout cap count entries) (hh : home < count)
    (placed : LinearProbe.place cap count span (load count entries) home = some d) :
    Layout cap count (entries ++ [⟨home, d⟩]) := by
  obtain ⟨-, room, passed⟩ := place_eq_some.mp placed
  exact layout.snoc hh (disp_lt_of_place (Nat.zero_lt_of_lt hh) placed) room
    fun d' less => Nat.le_antisymm (layout.load_le _) (passed d' less)

theorem Layout.placeAll (layout : Layout cap count entries) (inside : ∀ h ∈ homes, h < count)
    {result : List Entry} (placed : LinearProbe.placeAll cap count span entries homes = some result) :
    Layout cap count result ∧ result.map Entry.home = entries.map Entry.home ++ homes := by
  induction homes generalizing entries with
  | nil =>
    cases placed
    exact ⟨layout, by simp⟩
  | cons home homes ih =>
    obtain ⟨d, first, rest⟩ := Option.bind_eq_some_iff.mp placed
    obtain ⟨final, same⟩ := ih (layout.place (inside home (by simp)) first)
      (fun h mem => inside h (by simp [mem])) rest
    exact ⟨final, by simpa using same⟩

/-- An entry fits within `k` cells of its home unless the homes before it
saturate them all. -/
theorem Layout.place_lt_iff (layout : Layout cap count entries) (positive : 0 < count) {k : Nat} :
    (∃ d < k, load count entries ((home + d) % count) < cap) ↔
      ∃ d < k, ¬ Saturated cap count (entries.map Entry.home) ((home + d) % count) := by
  refine exists_congr fun d => and_congr_right fun _ => ?_
  rw [← layout.load_eq_cap_iff (Nat.mod_lt _ positive)]
  have := layout.load_le ((home + d) % count)
  omega

/-- No entry of `homes`, placed behind those of `before`, meets `k` saturated cells. -/
def Fits (cap count k : Nat) : List Nat → List Nat → Prop
  | _, [] => True
  | before, home :: homes =>
    (∃ d < k, ¬ Saturated cap count before ((home + d) % count)) ∧
      Fits cap count k (before ++ [home]) homes

instance Fits.decide (cap count k : Nat) : ∀ before homes, Decidable (Fits cap count k before homes)
  | _, [] => inferInstanceAs (Decidable True)
  | before, home :: homes =>
    have := Fits.decide cap count k (before ++ [home]) homes
    inferInstanceAs (Decidable ((∃ d < k, ¬ Saturated cap count before ((home + d) % count)) ∧ _))

/-- The entries find their places within `span` cells exactly when none meets
`span` saturated ones. -/
theorem Layout.placeAll_eq_none_iff (layout : Layout cap count entries)
    (inside : ∀ h ∈ homes, h < count) :
    LinearProbe.placeAll cap count span entries homes = none ↔
      ¬ Fits cap count span (entries.map Entry.home) homes := by
  induction homes generalizing entries with
  | nil => simp [LinearProbe.placeAll, Fits]
  | cons home homes ih =>
    have hh := inside home (by simp)
    have room : (∃ d < span, load count entries ((home + d) % count) < cap) ↔
        ∃ d < span, ¬ Saturated cap count (entries.map Entry.home) ((home + d) % count) :=
      layout.place_lt_iff (Nat.zero_lt_of_lt hh)
    rw [LinearProbe.placeAll, Fits, ← room]
    cases placed : LinearProbe.place cap count span (load count entries) home with
    | none =>
      have full := place_eq_none.mp placed
      have noRoom : ¬ ∃ d < span, load count entries ((home + d) % count) < cap := by
        rintro ⟨d, less, has⟩
        have := full d less
        omega
      simp [noRoom]
    | some d =>
      obtain ⟨less, has, -⟩ := place_eq_some.mp placed
      have found : ∃ d < span, load count entries ((home + d) % count) < cap := ⟨d, less, has⟩
      rw [Option.bind_some, ih (layout.place hh placed) fun h mem => inside h (by simp [mem])]
      simp only [found, true_and, List.map_append, List.map_cons, List.map_nil]

/-- All entries lie within `k` cells of their homes exactly when none meets `k`
saturated ones. -/
theorem Layout.disp_lt_iff (layout : Layout cap count entries) (inside : ∀ h ∈ homes, h < count)
    {result : List Entry} (placed : LinearProbe.placeAll cap count span entries homes = some result)
    {k : Nat} :
    (∀ e ∈ result, e.disp < k) ↔
      (∀ e ∈ entries, e.disp < k) ∧ Fits cap count k (entries.map Entry.home) homes := by
  induction homes generalizing entries with
  | nil =>
    cases placed
    simp [Fits]
  | cons home homes ih =>
    have hh := inside home (by simp)
    obtain ⟨d, first, rest⟩ := Option.bind_eq_some_iff.mp placed
    obtain ⟨-, has, passed⟩ := place_eq_some.mp first
    have near : d < k ↔ ∃ d < k, load count entries ((home + d) % count) < cap := by
      refine ⟨fun less => ⟨d, less, has⟩, ?_⟩
      rintro ⟨d', less, has'⟩
      by_contra far
      have := passed d' (by omega)
      omega
    rw [ih (layout.place hh first) (fun h mem => inside h (by simp [mem])) rest, Fits,
      ← layout.place_lt_iff (Nat.zero_lt_of_lt hh), ← near]
    simp only [List.mem_append, List.mem_singleton, List.map_append, List.map_cons, List.map_nil]
    constructor
    · rintro ⟨all, later⟩
      exact ⟨fun e mem => all e (Or.inl mem), all _ (Or.inr rfl), later⟩
    · rintro ⟨old, new, later⟩
      refine ⟨?_, later⟩
      rintro e (mem | rfl)
      · exact old e mem
      · exact new

end Place

end LinearProbe
