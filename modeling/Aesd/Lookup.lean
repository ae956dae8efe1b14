import Aesd.CircularBuffer
import Aesd.Lib.Segments
import Mathlib.Algebra.Order.BigOperators.Group.List
import Mathlib.Algebra.Order.Ring.Nat
import Mathlib.Algebra.Group.Action.Defs

/-!
# Looking up a file position

`aesd_circular_buffer_find_entry_offset_for_fpos` walks the active entries and
finds the position in their concatenation, as long as every size fits in an `int`.
-/

namespace Aesd.AesdCircularBuffer
open RingWalk Segments

def sizes (buffer : AesdCircularBuffer) : List ℕ := buffer.active.map (·.size.toNat)

theorem sizes_eq_map (buffer : AesdCircularBuffer) :
    buffer.sizes = (buffer.active.map (·.size)).map UInt64.toNat := by
  simp [sizes]

/-- The search's answer for an entry and an offset counted from slot `start`. -/
def answer (start : ℕ) (rtn : UInt64) : Option (ℕ × ℕ) → Option ℕ × UInt64
  | none => (none, rtn)
  | some (i, o) => (some ((start + i) % 10), UInt64.ofNat o)

theorem answer_succ (start : ℕ) (rtn : UInt64) (io : Option (ℕ × ℕ)) :
    answer start rtn (io.map fun io => (io.1 + 1, io.2)) = answer ((start + 1) % 10) rtn io := by
  cases io with
  | none => rfl
  | some io =>
    simp only [answer, Option.map_some, Nat.mod_add_mod]
    congr 3
    omega

theorem answer_inj {start : ℕ} {rtn : UInt64} {x y : Option (ℕ × ℕ)}
    (hx : ∀ io, x = some io → io.1 < 10 ∧ io.2 < 2 ^ 64)
    (hy : ∀ io, y = some io → io.1 < 10 ∧ io.2 < 2 ^ 64) :
    answer start rtn x = answer start rtn y ↔ x = y := by
  refine ⟨fun h => ?_, congrArg _⟩
  cases x with
  | none =>
    cases y with
    | none => rfl
    | some io => simp [answer] at h
  | some io =>
    cases y with
    | none => simp [answer] at h
    | some io' =>
      obtain ⟨hi, ho⟩ := hx io rfl
      obtain ⟨hi', ho'⟩ := hy io' rfl
      simp only [answer, Prod.mk.injEq, Option.some.injEq] at h
      have hoffset := congrArg UInt64.toNat h.2
      rw [UInt64.toNat_ofNat_of_lt' (by simpa using ho), UInt64.toNat_ofNat_of_lt' (by simpa using ho')]
        at hoffset
      rw [Option.some_inj, Prod.ext_iff]
      exact ⟨offset_inj hi hi' h.1, hoffset⟩

/-- The loop over a list of sizes, with the source's comparison. -/
def scan (charOffset : UInt64) : UInt64 → List UInt64 → Option (ℕ × ℕ)
  | _, [] => none
  | currCharOffs, size :: sizes =>
    if currCharOffs + CInt.toSize (CInt.toInt size) > charOffset then
      some (0, (charOffset - currCharOffs).toNat)
    else (scan charOffset (currCharOffs + size) sizes).map fun io => (io.1 + 1, io.2)

theorem scan_lt {off curr : UInt64} {sizes : List UInt64} {io : ℕ × ℕ}
    (h : scan off curr sizes = some io) : io.1 < sizes.length ∧ io.2 < 2 ^ 64 := by
  induction sizes generalizing curr io with
  | nil => cases h
  | cons size sizes ih =>
    simp only [scan] at h
    split_ifs at h
    · obtain rfl := Option.some.inj h
      exact ⟨by simp, UInt64.toNat_lt _⟩
    · obtain ⟨io', hio, rfl⟩ := Option.map_eq_some_iff.mp h
      obtain ⟨hi, ho⟩ := ih hio
      exact ⟨by simpa using hi, ho⟩

/-- The loop over the `m` entries left from slot `idx` on. -/
theorem findLoop_scan (buffer : AesdCircularBuffer) (off rtn : UInt64) (m : ℕ) :
    ∀ fuel idx curr, m + 1 ≤ fuel → m + 1 ≤ 10 → idx < 10 → (idx + (m + 1)) % 10 = buffer.inOffs →
      buffer.findLoop off rtn fuel curr idx =
        answer idx rtn (scan off curr ((walk 10 buffer.slot idx (m + 1)).map (·.size))) := by
  induction m with
  | zero =>
    intro fuel idx curr hfuel _ hidx hin
    obtain ⟨fuel, rfl⟩ : ∃ f, fuel = f + 1 := ⟨fuel - 1, by omega⟩
    rw [walk_succ_front _ hidx]
    -- the next index is `in_offs`, so this is the last entry compared
    simp only [findLoop, walk_zero, List.map_cons, List.map_nil, scan, hin, ne_eq, not_true, if_false]
    split_ifs with hfound
    · simp only [answer, Nat.add_zero, Nat.mod_eq_of_lt hidx, UInt64.ofNat_toNat]
    · rfl
  | succ m ih =>
    intro fuel idx curr hfuel hm hidx hin
    obtain ⟨fuel, rfl⟩ : ∃ f, fuel = f + 1 := ⟨fuel - 1, by omega⟩
    have hnext : (idx + 1) % 10 ≠ buffer.inOffs := by omega
    rw [walk_succ_front _ hidx]
    simp only [findLoop, List.map_cons, scan, maxWriteOperationsSupported, if_pos hnext]
    split_ifs with hfound
    · simp only [answer, Nat.add_zero, Nat.mod_eq_of_lt hidx, UInt64.ofNat_toNat]
    · rw [answer_succ, ih fuel _ _ (by omega) (by omega) (Nat.mod_lt _ (by decide)) (by omega)]

theorem empty_iff_count {buffer : AesdCircularBuffer} (h : buffer.WellFormed) :
    buffer.outOffs = buffer.inOffs ∧ buffer.full = false ↔ buffer.count = 0 := by
  have hi := h.inOffs_lt
  have ho := h.outOffs_lt
  unfold count maxWriteOperationsSupported
  cases buffer.full
  · simp
    omega
  · simp

theorem findLoop_active {buffer : AesdCircularBuffer} (h : buffer.WellFormed) (off rtn : UInt64)
    {fuel : ℕ} (hfuel : 10 ≤ fuel) (hc : 0 < buffer.count) :
    buffer.findLoop off rtn fuel 0 buffer.outOffs =
      answer buffer.outOffs rtn (scan off 0 (buffer.active.map (·.size))) := by
  have hle := buffer.count_le
  obtain ⟨m, hm⟩ : ∃ m, buffer.count = m + 1 := ⟨buffer.count - 1, by omega⟩
  rw [active, hm]
  exact findLoop_scan buffer off rtn m fuel buffer.outOffs 0 (by omega) (by omega) h.outOffs_lt
    (by rw [h.inOffs_eq, hm])

/-- The loop bound is never reached from the outside: more iterations change nothing. -/
theorem findLoop_fuel {buffer : AesdCircularBuffer} (h : buffer.WellFormed) (off rtn : UInt64)
    {fuel : ℕ} (hfuel : 10 ≤ fuel) (hc : 0 < buffer.count) :
    buffer.findLoop off rtn fuel 0 buffer.outOffs = buffer.findLoop off rtn 10 0 buffer.outOffs := by
  rw [findLoop_active h off rtn hfuel hc, findLoop_active h off rtn le_rfl hc]

theorem find_eq_scan {buffer : AesdCircularBuffer} (h : buffer.WellFormed) (off rtn : UInt64) :
    buffer.findEntryOffsetForFpos off rtn =
      answer buffer.outOffs rtn (scan off 0 (buffer.active.map (·.size))) := by
  unfold findEntryOffsetForFpos
  simp only [empty_iff_count h]
  split_ifs with hc
  · simp [active, hc, scan, answer]
  · exact findLoop_active h off rtn le_rfl (by omega)

section Scan

variable {off curr : UInt64}

/-- The comparison in the loop is the one that its sizes call for: where an entry begins at
or before the position, narrowing its size to `int` does not matter. -/
def ComparesRight (off curr : UInt64) (sizes : List UInt64) : Prop :=
  ∀ i (h : i < sizes.length),
    curr.toNat + ((sizes.take i).map UInt64.toNat).sum ≤ off.toNat →
    (off < curr + UInt64.ofNat ((sizes.take i).map UInt64.toNat).sum +
        CInt.toSize (CInt.toInt sizes[i]) ↔
      off.toNat < curr.toNat + ((sizes.take i).map UInt64.toNat).sum + sizes[i].toNat)

theorem comparesRight_cons {size : UInt64} {sizes : List UInt64} (hle : curr ≤ off)
    (hlt : curr.toNat + size.toNat < 2 ^ 64) :
    ComparesRight off curr (size :: sizes) ↔
      (off < curr + CInt.toSize (CInt.toInt size) ↔ off.toNat < curr.toNat + size.toNat) ∧
      ComparesRight off (curr + size) sizes := by
  have hadd := CInt.toNat_add hlt
  have hshift (i : ℕ) :
      curr.toNat + (((size :: sizes).take (i + 1)).map UInt64.toNat).sum =
        (curr + size).toNat + ((sizes.take i).map UInt64.toNat).sum ∧
      curr + UInt64.ofNat (((size :: sizes).take (i + 1)).map UInt64.toNat).sum =
        curr + size + UInt64.ofNat ((sizes.take i).map UInt64.toNat).sum := by
    rw [List.take_succ_cons, List.map_cons, List.sum_cons, hadd, UInt64.ofNat_add,
      UInt64.ofNat_toNat, Nat.add_assoc, UInt64.add_assoc]
    exact ⟨rfl, rfl⟩
  constructor
  · intro h
    refine ⟨?_, fun i hi hc => ?_⟩
    · have hfirst := h 0 (by simp) (by simpa [UInt64.le_iff_toNat_le] using hle)
      simpa using hfirst
    · have hnext := h (i + 1) (by simpa using hi)
      rw [(hshift i).1, (hshift i).2] at hnext
      exact hnext hc
  · rintro ⟨hfirst, hrest⟩ i hi hc
    cases i with
    | zero => simpa using hfirst
    | succ i =>
      rw [(hshift i).1] at hc ⊢
      rw [(hshift i).2]
      exact hrest i (by simpa using hi) hc

/-- The scan finds the position in the concatenation exactly when its comparisons are right. -/
theorem scan_eq_locate_iff (sizes : List UInt64) (hle : curr ≤ off)
    (hsum : curr.toNat + (sizes.map UInt64.toNat).sum < 2 ^ 64) :
    scan off curr sizes = locate (sizes.map UInt64.toNat) (off.toNat - curr.toNat) ↔
      ComparesRight off curr sizes := by
  induction sizes generalizing curr with
  | nil => simp [scan, locate, ComparesRight]
  | cons size sizes ih =>
    rw [List.map_cons, List.sum_cons] at hsum
    have hadd : (curr + size).toNat = curr.toNat + size.toNat := CInt.toNat_add (by omega)
    have hle' : curr.toNat ≤ off.toNat := UInt64.le_iff_toNat_le.mp hle
    have hright : off.toNat - curr.toNat < size.toNat ↔ off.toNat < curr.toNat + size.toNat := by
      omega
    rw [comparesRight_cons hle (by omega)]
    simp only [scan, List.map_cons, locate, gt_iff_lt, hright]
    by_cases hcode : off < curr + CInt.toSize (CInt.toInt size)
    · by_cases hfound : off.toNat < curr.toNat + size.toNat
      · -- both stop here, and the entries behind begin behind the position
        have hrest : ComparesRight off (curr + size) sizes := by
          intro i _ hc
          omega
        simp only [hcode, hfound, if_true, true_and, hrest, iff_true]
        rw [UInt64.toNat_sub_of_le off curr hle]
      · simp only [hcode, hfound, if_true, if_false, iff_false, not_true, false_and]
        cases locate (sizes.map UInt64.toNat) (off.toNat - curr.toNat - size.toNat) <;> simp
    · by_cases hfound : off.toNat < curr.toNat + size.toNat
      · simp only [hcode, hfound, if_true, if_false, false_iff, not_true, false_and, iff_false]
        cases scan off (curr + size) sizes <;> simp
      · simp only [hcode, hfound, if_false, true_and]
        have hle'' : curr + size ≤ off := by
          rw [UInt64.le_iff_toNat_le, hadd]
          omega
        have hnext := ih hle'' (by omega)
        rw [hadd, Nat.sub_add_eq] at hnext
        have hsucc : Function.Injective fun io : ℕ × ℕ => (io.1 + 1, io.2) := by
          intro x y hxy
          simpa [Prod.ext_iff] using hxy
        rw [← hnext, (Option.map_injective hsucc).eq_iff]

theorem sum_take_le {sizes : List UInt64} {i : ℕ} (hi : i < sizes.length) :
    ((sizes.take i).map UInt64.toNat).sum + sizes[i].toNat ≤ (sizes.map UInt64.toNat).sum := by
  have hsplit : (sizes.map UInt64.toNat).sum =
      ((sizes.take i).map UInt64.toNat).sum + ((sizes.drop i).map UInt64.toNat).sum := by
    rw [← List.sum_append, ← List.map_append, List.take_append_drop]
  rw [hsplit, List.drop_eq_getElem_cons hi, List.map_cons, List.sum_cons]
  omega

theorem toNat_entry_begin {sizes : List UInt64} {i : ℕ} (hi : i < sizes.length)
    (hsum : curr.toNat + (sizes.map UInt64.toNat).sum < 2 ^ 64) :
    (curr + UInt64.ofNat ((sizes.take i).map UInt64.toNat).sum).toNat =
      curr.toNat + ((sizes.take i).map UInt64.toNat).sum := by
  have htake := sum_take_le hi
  have hn := UInt64.toNat_ofNat_of_lt' (show ((sizes.take i).map UInt64.toNat).sum < UInt64.size by
    simp only [UInt64.size]
    omega)
  rw [CInt.toNat_add (by omega), hn]

/-- Narrowing does not matter for a size that `int` and back gives again. -/
theorem comparesRight_of_toSize_toInt {sizes : List UInt64}
    (hexact : ∀ size ∈ sizes, CInt.toSize (CInt.toInt size) = size)
    (hsum : curr.toNat + (sizes.map UInt64.toNat).sum < 2 ^ 64) : ComparesRight off curr sizes := by
  intro i hi _
  have hbegin := toNat_entry_begin hi hsum
  have htake := sum_take_le hi
  rw [hexact _ (List.getElem_mem hi), UInt64.lt_iff_toNat_lt, CInt.toNat_add (by omega), hbegin]

end Scan

/-- Every active size fits in an `int`: no allocation reaches 2^31 bytes. -/
def Small (buffer : AesdCircularBuffer) : Prop := ∀ e ∈ buffer.active, e.size.toNat < 2 ^ 31

theorem sum_le_of_le {sizes : List ℕ} (h : ∀ n ∈ sizes, n ≤ 2 ^ 31) (hlen : sizes.length ≤ 10) :
    sizes.sum ≤ 10 * 2 ^ 31 := by
  have hsum := List.sum_le_card_nsmul _ _ h
  rw [smul_eq_mul] at hsum
  exact hsum.trans (Nat.mul_le_mul_right _ hlen)

theorem Small.sum_le {buffer : AesdCircularBuffer} (h : buffer.Small) :
    buffer.sizes.sum ≤ 10 * 2 ^ 31 := by
  apply sum_le_of_le
  · intro n hn
    obtain ⟨e, he, rfl⟩ := List.mem_map.mp hn
    exact (h e he).le
  · simpa [sizes] using buffer.count_le

/-- The search finds the position in the concatenation of the active entries exactly when
its comparisons are right. -/
theorem find_eq_locate_iff {buffer : AesdCircularBuffer} (h : buffer.WellFormed)
    (hsum : buffer.sizes.sum < 2 ^ 64) (off rtn : UInt64) :
    buffer.findEntryOffsetForFpos off rtn =
        answer buffer.outOffs rtn (locate buffer.sizes off.toNat) ↔
      ComparesRight off 0 (buffer.active.map (·.size)) := by
  have hcount : buffer.active.length ≤ 10 := by simpa using buffer.count_le
  have hlocate : ∀ io, locate buffer.sizes off.toNat = some io → io.1 < 10 ∧ io.2 < 2 ^ 64 := by
    intro io hio
    obtain ⟨hi, _, ho⟩ := locate_eq_some.mp hio
    have hlt := off.toNat_lt
    rw [sizes, List.length_map] at hi
    exact ⟨by omega, by omega⟩
  have hscan : ∀ io, scan off 0 (buffer.active.map (·.size)) = some io →
      io.1 < 10 ∧ io.2 < 2 ^ 64 := by
    intro io hio
    obtain ⟨hi, ho⟩ := scan_lt hio
    rw [List.length_map] at hi
    exact ⟨by omega, ho⟩
  rw [sizes_eq_map] at hsum hlocate ⊢
  have hiff := scan_eq_locate_iff (buffer.active.map (·.size)) (show 0 ≤ off from UInt64.zero_le)
    (by rw [UInt64.toNat_zero]; omega)
  rw [UInt64.toNat_zero, Nat.sub_zero] at hiff
  rw [find_eq_scan h, answer_inj hscan hlocate, hiff]

theorem find_spec {buffer : AesdCircularBuffer} (h : buffer.WellFormed) (hs : buffer.Small)
    (off rtn : UInt64) :
    buffer.findEntryOffsetForFpos off rtn =
      answer buffer.outOffs rtn (locate buffer.sizes off.toNat) := by
  have hsum := hs.sum_le
  have hexact : ∀ size ∈ buffer.active.map (·.size), CInt.toSize (CInt.toInt size) = size := by
    intro size hsize
    obtain ⟨e, he, rfl⟩ := List.mem_map.mp hsize
    exact CInt.toSize_toInt (hs e he)
  rw [find_eq_locate_iff h (by omega)]
  apply comparesRight_of_toSize_toInt hexact
  rw [← sizes_eq_map, UInt64.toNat_zero]
  omega

end Aesd.AesdCircularBuffer
