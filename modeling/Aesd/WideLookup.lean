import Aesd.Lookup
import Aesd.Eviction

/-!
# Lookups among sizes of any width

The search keeps each size in an `int`. What it finds when sizes may be any `size_t`.
-/

namespace Aesd.AesdCircularBuffer
open Segments StepRuns

/-- Offset `o` in the `i`-th active entry, counted from the oldest, is position `p` of the
concatenation. -/
def Position (buffer : AesdCircularBuffer) (i o p : ℕ) : Prop :=
  ∃ h : i < buffer.sizes.length, o < buffer.sizes[i] ∧ (buffer.sizes.take i).sum + o = p

/-- The search answers with the one entry and offset at the position, and for a position
behind all entries with NULL, the offset left as it was. -/
structure FindsExactly (buffer : AesdCircularBuffer) (charOffset rtn : UInt64) : Prop where
  inside : charOffset.toNat < buffer.sizes.sum →
    ∃ i o, buffer.Position i o charOffset.toNat ∧
      (∀ i' o', buffer.Position i' o' charOffset.toNat → i' = i ∧ o' = o) ∧
      buffer.findEntryOffsetForFpos charOffset rtn =
        (some ((buffer.outOffs + i) % 10), UInt64.ofNat o)
  behind : buffer.sizes.sum ≤ charOffset.toNat →
    buffer.findEntryOffsetForFpos charOffset rtn = (none, rtn)

theorem position_iff_locate {buffer : AesdCircularBuffer} {i o p : ℕ} :
    buffer.Position i o p ↔ locate buffer.sizes p = some (i, o) := locate_eq_some.symm

theorem findsExactly_iff (buffer : AesdCircularBuffer) (charOffset rtn : UInt64) :
    buffer.FindsExactly charOffset rtn ↔
      buffer.findEntryOffsetForFpos charOffset rtn =
        answer buffer.outOffs rtn (locate buffer.sizes charOffset.toNat) := by
  cases hl : locate buffer.sizes charOffset.toNat with
  | none =>
    have hle := locate_eq_none.mp hl
    exact ⟨fun h => h.behind hle, fun h => ⟨fun hlt => absurd hle (by omega), fun _ => h⟩⟩
  | some io =>
    have hlt : charOffset.toNat < buffer.sizes.sum := by
      by_contra hge
      rw [locate_eq_none.mpr (by omega)] at hl
      cases hl
    constructor
    · intro h
      obtain ⟨i, o, hpos, _, hfind⟩ := h.inside hlt
      rw [position_iff_locate, hl] at hpos
      rw [hfind, Option.some.inj hpos]
      rfl
    · intro h
      refine ⟨fun _ => ⟨io.1, io.2, position_iff_locate.mpr hl, ?_, h⟩, fun hle => ?_⟩
      · intro i o hpos
        rw [position_iff_locate, hl] at hpos
        rw [Option.some.inj hpos]
        exact ⟨rfl, rfl⟩
      · exact absurd hlt (by omega)

/-- A narrowed size that comes back as another one makes some comparison go wrong. -/
theorem exists_wrong_comparison {sizes : List UInt64} (hsum : (sizes.map UInt64.toNat).sum < 2 ^ 64)
    {size : UInt64} (hmem : size ∈ sizes) (hne : CInt.toSize (CInt.toInt size) ≠ size) :
    ∃ off, ¬ ComparesRight off 0 sizes := by
  obtain ⟨i, hi, rfl⟩ := List.getElem_of_mem hmem
  have hzero : (0 : UInt64).toNat + (sizes.map UInt64.toNat).sum < 2 ^ 64 := by
    rw [UInt64.toNat_zero]
    omega
  have hbegin := toNat_entry_begin hi hzero
  have htake := sum_take_le hi
  -- the entry begins at `c` and ends at `c + size`; the code compares with `stop`
  let c : UInt64 := 0 + UInt64.ofNat ((sizes.take i).map UInt64.toNat).sum
  let stop : UInt64 := c + CInt.toSize (CInt.toInt sizes[i])
  have hc : c.toNat = (0 : UInt64).toNat + ((sizes.take i).map UInt64.toNat).sum := hbegin
  have hend : (c + sizes[i]).toNat = c.toNat + sizes[i].toNat :=
    CInt.toNat_add (by rw [hc, UInt64.toNat_zero]; omega)
  have hstop : stop.toNat ≠ c.toNat + sizes[i].toNat := by
    rw [← hend, Ne, UInt64.toNat_inj, UInt64.add_right_inj]
    exact hne
  have hpos : 0 < sizes[i].toNat := by
    by_contra hz
    exact hne (CInt.toSize_toInt (by omega))
  have hstop_lt := stop.toNat_lt
  have hc_lt := c.toNat_lt
  -- a position behind the first of the two ends and before the second
  have hoff : (UInt64.ofNat (max c.toNat (min stop.toNat (c.toNat + sizes[i].toNat)))).toNat =
      max c.toNat (min stop.toNat (c.toNat + sizes[i].toNat)) :=
    UInt64.toNat_ofNat_of_lt' (by simp only [UInt64.size]; omega)
  refine ⟨UInt64.ofNat (max c.toNat (min stop.toNat (c.toNat + sizes[i].toNat))), fun hright => ?_⟩
  have hsame := hright i hi (by rw [hoff, ← hc]; omega)
  rw [UInt64.lt_iff_toNat_lt, hoff, ← hc] at hsame
  change _ < stop.toNat ↔ _ at hsame
  omega

/-- **Wide lookups.** For any sizes whose sum fits in `size_t`, a lookup is exact exactly when
its comparisons with the narrowed sizes are right. All lookups are exactly when no size
changes by being narrowed to `int` and widened again. -/
theorem find_exact_iff (entries : List AesdBufferEntry)
    (hsum : (exec addEntry init entries).sizes.sum < 2 ^ 64) :
    let buffer := exec addEntry init entries
    (∀ charOffset rtn, buffer.FindsExactly charOffset rtn ↔
      ComparesRight charOffset 0 (buffer.active.map (·.size))) ∧
    ((∀ charOffset rtn, buffer.FindsExactly charOffset rtn) ↔
      ∀ e ∈ buffer.active, e.size.toNat < 2 ^ 31 ∨ 2 ^ 64 - 2 ^ 31 ≤ e.size.toNat) := by
  intro buffer
  have hiff (charOffset rtn : UInt64) : buffer.FindsExactly charOffset rtn ↔
      ComparesRight charOffset 0 (buffer.active.map (·.size)) := by
    rw [findsExactly_iff, find_eq_locate_iff (wellFormed_exec entries) hsum]
  refine ⟨hiff, ?_⟩
  have hsum' : ((buffer.active.map (·.size)).map UInt64.toNat).sum < 2 ^ 64 := by
    rwa [← sizes_eq_map]
  constructor
  · intro hall e he
    rw [← CInt.toSize_toInt_iff]
    by_contra hne
    obtain ⟨off, hwrong⟩ := exists_wrong_comparison hsum' (List.mem_map_of_mem he) hne
    exact hwrong ((hiff off 0).mp (hall off 0))
  · intro hsizes charOffset rtn
    rw [hiff]
    apply comparesRight_of_toSize_toInt
    · intro size hsize
      obtain ⟨e, he, rfl⟩ := List.mem_map.mp hsize
      exact CInt.toSize_toInt_iff.mpr (hsizes e he)
    · rw [UInt64.toNat_zero]
      omega

/-- A size of all ones is -1 as an `int` and comes back. -/
theorem find_exact_iff_allOnes :
    (exec addEntry init [⟨some 1, -1⟩]).FindsExactly 9223372036854775808 0 := by
  refine (find_exact_iff [⟨some 1, -1⟩] (by decide +kernel)).2.mpr ?_ 9223372036854775808 0
  intro e he
  rw [List.mem_singleton.mp he]
  decide +kernel

/-- A size of 2^32 is 0 as an `int`, and its first byte is not found. -/
theorem find_misses_wide_entry :
    ¬ ∀ (entries : List AesdBufferEntry) (charOffset rtn : UInt64),
      (exec addEntry init entries).sizes.sum < 2 ^ 64 →
      (exec addEntry init entries).FindsExactly charOffset rtn := by
  intro h
  have hexact := h [⟨some 1, 4294967296⟩] 0 0 (by decide +kernel)
  rw [findsExactly_iff] at hexact
  revert hexact
  decide +kernel

end Aesd.AesdCircularBuffer
