import Aesd.Lib.CInt
import Aesd.Lib.Walk

/-!
# The circular buffer of write commands

`aesd-circular-buffer.h` and `aesd-circular-buffer.c`. `in_offs` and `out_offs`
are `uint8_t` in the source; they only ever hold residues modulo ten.
-/

namespace Aesd
open RingWalk

/-- The identity of a kernel allocation; NULL is `none`. -/
abbrev BlockId := ℕ

abbrev maxWriteOperationsSupported : ℕ := 10

structure AesdBufferEntry where
  buffptr : Option BlockId
  size : UInt64
  deriving DecidableEq, Repr

/-- What `memset(.., 0, ..)` leaves in a slot. -/
def AesdBufferEntry.zero : AesdBufferEntry := ⟨none, 0⟩

structure AesdCircularBuffer where
  entry : Vector AesdBufferEntry maxWriteOperationsSupported
  inOffs : ℕ
  outOffs : ℕ
  full : Bool
  deriving DecidableEq, Repr

namespace AesdCircularBuffer

def slot (buffer : AesdCircularBuffer) (i : ℕ) : AesdBufferEntry :=
  (buffer.entry[i]?).getD .zero

def init : AesdCircularBuffer :=
  ⟨Vector.replicate maxWriteOperationsSupported .zero, 0, 0, false⟩

/-- `aesd_circular_buffer_add_entry`: the pointer it returns, and the buffer after it. -/
def addEntry (buffer : AesdCircularBuffer) (addEntry : AesdBufferEntry) :
    Option BlockId × AesdCircularBuffer :=
  let ptr := (buffer.slot buffer.inOffs).buffptr
  let entry := buffer.entry.setIfInBounds buffer.inOffs addEntry
  let outOffs :=
    if buffer.full then (buffer.outOffs + 1) % maxWriteOperationsSupported else buffer.outOffs
  let inOffs := (buffer.inOffs + 1) % maxWriteOperationsSupported
  (ptr, { entry, inOffs, outOffs, full := inOffs == outOffs })

/-- The `do`-`while` loop of the search: the index of the entry found, and
`*entry_offset_byte_rtn`. The first argument bounds the iterations. -/
def findLoop (buffer : AesdCircularBuffer) (charOffset rtn : UInt64) :
    ℕ → UInt64 → ℕ → Option ℕ × UInt64
  | 0, _, _ => (none, rtn)
  | fuel + 1, currCharOffs, elementIdx =>
    let currEleSize : Int32 := CInt.toInt (buffer.slot elementIdx).size
    if currCharOffs + CInt.toSize currEleSize > charOffset then
      (some elementIdx, charOffset - currCharOffs)
    else
      let currCharOffs := currCharOffs + (buffer.slot elementIdx).size
      let elementIdx := (elementIdx + 1) % maxWriteOperationsSupported
      if elementIdx ≠ buffer.inOffs then findLoop buffer charOffset rtn fuel currCharOffs elementIdx
      else (none, rtn)

/-- `aesd_circular_buffer_find_entry_offset_for_fpos`. The entry is returned by
its index; from an `in_offs` below ten the loop never needs an eleventh iteration
(`findLoop_fuel`). -/
def findEntryOffsetForFpos (buffer : AesdCircularBuffer) (charOffset rtn : UInt64) :
    Option ℕ × UInt64 :=
  if buffer.outOffs = buffer.inOffs ∧ buffer.full = false then (none, rtn)
  else findLoop buffer charOffset rtn maxWriteOperationsSupported 0 buffer.outOffs

def count (buffer : AesdCircularBuffer) : ℕ :=
  if buffer.full then maxWriteOperationsSupported
  else (buffer.inOffs + maxWriteOperationsSupported - buffer.outOffs) % maxWriteOperationsSupported

/-- The active entries, oldest first. -/
def active (buffer : AesdCircularBuffer) : List AesdBufferEntry :=
  walk maxWriteOperationsSupported buffer.slot buffer.outOffs buffer.count

structure WellFormed (buffer : AesdCircularBuffer) : Prop where
  inOffs_lt : buffer.inOffs < 10
  outOffs_lt : buffer.outOffs < 10
  full_eq : buffer.full = true → buffer.inOffs = buffer.outOffs
  inactive : ∀ i, buffer.count ≤ i → i < 10 → buffer.slot ((buffer.outOffs + i) % 10) = .zero

@[simp] theorem active_length (buffer : AesdCircularBuffer) : buffer.active.length = buffer.count :=
  walk_length _ _ _

theorem count_le (buffer : AesdCircularBuffer) : buffer.count ≤ 10 := by
  unfold count maxWriteOperationsSupported
  split_ifs <;> omega

theorem full_iff_count {buffer : AesdCircularBuffer} : buffer.full = true ↔ buffer.count = 10 := by
  unfold count maxWriteOperationsSupported
  split_ifs with h
  · simp [h]
  · have hlt : (buffer.inOffs + 10 - buffer.outOffs) % 10 < 10 := Nat.mod_lt _ (by omega)
    simp [h, hlt.ne]

theorem WellFormed.inOffs_eq {buffer : AesdCircularBuffer} (h : buffer.WellFormed) :
    buffer.inOffs = (buffer.outOffs + buffer.count) % 10 := by
  have hi := h.inOffs_lt
  have ho := h.outOffs_lt
  unfold count maxWriteOperationsSupported
  split_ifs with hf
  · have := h.full_eq hf
    omega
  · omega

theorem mem_active {buffer : AesdCircularBuffer} {e : AesdBufferEntry} :
    e ∈ buffer.active ↔ ∃ i < buffer.count, buffer.slot ((buffer.outOffs + i) % 10) = e :=
  mem_walk

theorem WellFormed.slot_cases {buffer : AesdCircularBuffer} (h : buffer.WellFormed) {k : ℕ}
    (hk : k < 10) : buffer.slot k ∈ buffer.active ∨ buffer.slot k = .zero := by
  obtain ⟨i, hi, rfl⟩ := exists_offset h.outOffs_lt hk
  rcases Nat.lt_or_ge i buffer.count with hc | hc
  · exact .inl (mem_active.mpr ⟨i, hc, rfl⟩)
  · exact .inr (h.inactive i hc hi)

theorem mem_active_slot {buffer : AesdCircularBuffer} {e : AesdBufferEntry} (he : e ∈ buffer.active) :
    ∃ k < 10, buffer.slot k = e := by
  obtain ⟨i, _, rfl⟩ := mem_active.mp he
  exact ⟨_, Nat.mod_lt _ (by omega), rfl⟩

/-- The ten slots hold the active entries and zeros. -/
theorem WellFormed.slots_perm {buffer : AesdCircularBuffer} (h : buffer.WellFormed) :
    ((List.range 10).map buffer.slot).Perm
      (buffer.active ++ List.replicate (10 - buffer.count) .zero) := by
  have hwalk := @walk_append _ 10 buffer.slot buffer.outOffs buffer.count (10 - buffer.count)
  have hzeros : ((List.range (10 - buffer.count)).map fun i =>
      buffer.slot ((buffer.outOffs + (buffer.count + i)) % 10)) =
        List.replicate (10 - buffer.count) .zero := by
    rw [List.eq_replicate_iff]
    refine ⟨by simp, ?_⟩
    intro e he
    obtain ⟨i, hi, rfl⟩ := List.mem_map.mp he
    rw [List.mem_range] at hi
    exact h.inactive (buffer.count + i) (by omega) (by omega)
  rw [Nat.add_sub_cancel' buffer.count_le, hzeros, walk_eq_rotate] at hwalk
  exact hwalk ▸ (List.rotate_perm _ _).symm

@[simp] theorem slot_init (i : ℕ) : init.slot i = .zero := by
  unfold slot init
  rcases Nat.lt_or_ge i 10 with h | h <;> simp [h]

theorem wellFormed_init : init.WellFormed where
  inOffs_lt := by decide
  outOffs_lt := by decide
  full_eq := by decide
  inactive _ _ _ := slot_init _

@[simp] theorem active_init : init.active = [] := rfl

theorem slot_addEntry {buffer : AesdCircularBuffer} (h : buffer.WellFormed) (e : AesdBufferEntry) :
    (buffer.addEntry e).2.slot = Function.update buffer.slot buffer.inOffs e := by
  funext i
  by_cases hi : i = buffer.inOffs
  · subst hi
    simp [slot, addEntry, h.inOffs_lt]
  · rw [Function.update_of_ne hi]
    simp [slot, addEntry, Ne.symm hi]

theorem count_addEntry {buffer : AesdCircularBuffer} (h : buffer.WellFormed) (e : AesdBufferEntry) :
    (buffer.addEntry e).2.count = min 10 (buffer.count + 1) := by
  have hi := h.inOffs_lt
  have ho := h.outOffs_lt
  have hf := h.full_eq
  cases hfull : buffer.full
  · simp only [addEntry, count, hfull, Bool.false_eq_true, if_false, beq_iff_eq,
      maxWriteOperationsSupported]
    split_ifs <;> omega
  · have := hf hfull
    simp [addEntry, count, hfull, this]

theorem count_lt_of_not_full {buffer : AesdCircularBuffer} (h : buffer.full ≠ true) :
    buffer.count < 10 := by
  have hle := buffer.count_le
  have hne : buffer.count ≠ 10 := fun hc => h (full_iff_count.mpr hc)
  omega

/-- `add_entry` keeps the buffer well formed and appends to the active entries,
forgetting the oldest of ten. -/
theorem addEntry_spec {buffer : AesdCircularBuffer} (h : buffer.WellFormed) (e : AesdBufferEntry) :
    (buffer.addEntry e).2.WellFormed ∧
      (buffer.addEntry e).2.active = (buffer.active ++ [e]).rtake 10 := by
  have hslot := slot_addEntry h e
  have hcount := count_addEntry h e
  have hin := h.inOffs_eq
  have hlen : buffer.active.length = buffer.count := active_length buffer
  cases hfull : buffer.full
  · -- a slot is free, and the walk gets one entry longer
    have hlt : buffer.count < 10 := count_lt_of_not_full (by simp [hfull])
    have hc : (buffer.addEntry e).2.count = buffer.count + 1 := by omega
    have hout : (buffer.addEntry e).2.outOffs = buffer.outOffs := by simp [addEntry, hfull]
    refine ⟨⟨Nat.mod_lt _ (by decide), by rw [hout]; exact h.outOffs_lt, ?_, ?_⟩, ?_⟩
    · simp [addEntry]
    · intro i hi hi'
      rw [hc] at hi
      rw [hslot, hout, hin, Function.update_of_ne (offset_ne (by omega) hi').symm]
      exact h.inactive i (by omega) hi'
    · rw [rtake_concat_of_lt _ (by omega), active, hc, hout, hslot, hin]
      exact walk_push _ _ _ _ hlt
  · -- `in_offs` is `out_offs`, and the oldest entry is overwritten
    have hc10 : buffer.count = 10 := full_iff_count.mp hfull
    have hio : buffer.inOffs = buffer.outOffs := h.full_eq hfull
    have hc : (buffer.addEntry e).2.count = 10 := by omega
    have hout : (buffer.addEntry e).2.outOffs = (buffer.outOffs + 1) % 10 := by
      simp [addEntry, hfull]
    refine ⟨⟨Nat.mod_lt _ (by decide), by rw [hout]; exact Nat.mod_lt _ (by decide), ?_, ?_⟩, ?_⟩
    · simp [addEntry]
    · intro i hi hi'
      omega
    · rw [rtake_concat_of_length _ (by omega), active, hc, hout, hslot, hio]
      rw [walk_overwrite _ h.outOffs_lt, active, hc10, List.tail_append_of_ne_nil]
      intro hnil
      have := congrArg List.length hnil
      simp at this

theorem addEntry_fst {buffer : AesdCircularBuffer} (h : buffer.WellFormed) (e : AesdBufferEntry) :
    (buffer.addEntry e).1 = if buffer.full then (buffer.active.head?.bind (·.buffptr)) else none := by
  have hin := h.inOffs_eq
  have ho := h.outOffs_lt
  split_ifs with hfull
  · have hc : buffer.count = 10 := full_iff_count.mp hfull
    have hio := h.full_eq hfull
    rw [active, hc, maxWriteOperationsSupported, walk_succ_front _ ho]
    simp [addEntry, hio]
  · -- the slot at `in_offs` is inactive, so it holds NULL
    have hslot := h.inactive buffer.count le_rfl (count_lt_of_not_full hfull)
    rw [← hin] at hslot
    simp [addEntry, hslot, AesdBufferEntry.zero]

end AesdCircularBuffer

end Aesd
