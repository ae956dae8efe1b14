import Aesd.Device
import Aesd.Lookup

/-!
# What one write does

The invariant of the kernel's pointers, and one lemma for each phase of a write.
-/

namespace Aesd
open BlockHeap RingWalk

/-- The pointers of the ten slots, and at ten that of the pending entry. -/
def Kernel.pointer (k : Kernel) (i : ℕ) : Option BlockId :=
  if i < 10 then (k.device.circleBuff.slot i).buffptr else k.device.circleBuffEntry.buffptr

/-- Each block is live and has one owner, and active entries are not empty. -/
structure Kernel.Owned (k : Kernel) : Prop where
  ring : k.device.circleBuff.WellFormed
  live : ∀ {i b}, i ≤ 10 → k.pointer i = some b → k.heap.Live b
  distinct : ∀ {i j b}, i ≤ 10 → j ≤ 10 → k.pointer i = some b → k.pointer j = some b → i = j
  active : ∀ e ∈ k.device.circleBuff.active, e.buffptr ≠ none ∧ e.size ≠ 0
  sound : k.heap.Sound

theorem pointer_of_lt (k : Kernel) {i : ℕ} (hi : i < 10) :
    k.pointer i = (k.device.circleBuff.slot i).buffptr := if_pos hi

theorem pointer_ten (k : Kernel) : k.pointer 10 = k.device.circleBuffEntry.buffptr := rfl

theorem owned_init : Kernel.init.Owned where
  ring := AesdCircularBuffer.wellFormed_init
  live := by
    intro i b _ h
    simp only [Kernel.pointer, Kernel.init, AesdCircularBuffer.slot_init, AesdBufferEntry.zero,
      ite_self, reduceCtorEq] at h
  distinct := by
    intro i j b _ _ h
    simp only [Kernel.pointer, Kernel.init, AesdCircularBuffer.slot_init, AesdBufferEntry.zero,
      ite_self, reduceCtorEq] at h
  active := by
    intro e he
    simp [Kernel.init] at he
  sound := Heap.sound_empty

theorem commands_congr {k k' : Kernel} (hring : k'.device.circleBuff = k.device.circleBuff)
    (hb : ∀ i < 10, ∀ b, k.pointer i = some b → k'.heap.blocks b = k.heap.blocks b) :
    k'.commands = k.commands := by
  unfold Kernel.commands
  rw [hring]
  apply List.map_congr_left
  intro e he
  obtain ⟨i, hi, rfl⟩ := AesdCircularBuffer.mem_active_slot he
  cases hp : (k.device.circleBuff.slot i).buffptr with
  | none => simp [Kernel.bytesOf, hp, Heap.contents, Heap.byteAt]
  | some b =>
    have hbl := hb i hi b (by rw [pointer_of_lt k hi, hp])
    unfold Kernel.bytesOf
    rw [hp]
    exact Heap.contents_congr fun j _ => Heap.byteAt_of_blocks hbl _

section Alloc

variable {k : Kernel} {count : UInt64} {g : Grant BlockId}

@[simp] theorem allocPending_device : (allocPending k count g).device =
    { k.device with circleBuffEntry := ⟨g.block, k.device.circleBuffEntry.size⟩ } := by
  unfold allocPending
  by_cases h : 0 = k.device.circleBuffEntry.size <;> simp [h]

/-- `kmalloc` is `krealloc` of NULL. -/
theorem allocPending_heap : (allocPending k count g).heap =
    (k.heap.krealloc k.oldPointer (k.device.circleBuffEntry.size + count).toNat g).2 := by
  unfold allocPending Kernel.oldPointer
  by_cases h : 0 = k.device.circleBuffEntry.size
  · simp [← h, Heap.krealloc]
  · simp [h, Ne.symm h]

theorem oldPointer_eq_some {b : BlockId} (h : k.oldPointer = some b) : k.pointer 10 = some b := by
  unfold Kernel.oldPointer at h
  split_ifs at h
  exact h

theorem Kernel.Owned.slot_ne (h : k.Owned) (hg : k.heap.CanGrant k.oldPointer g) {i : ℕ} (hi : i < 10)
    {b : BlockId} (hb : k.pointer i = some b) : k.oldPointer ≠ some b ∧ g.block ≠ some b := by
  have hold : k.oldPointer ≠ some b := by
    intro ho
    have := h.distinct hi.le le_rfl hb (oldPointer_eq_some ho)
    omega
  refine ⟨hold, fun hgb => ?_⟩
  rcases hg b hgb with ho | hlive
  · exact hold ho
  · exact hlive (h.live hi.le hb)

theorem pointer_allocPending {i : ℕ} :
    (allocPending k count g).pointer i = if i < 10 then k.pointer i else g.block := by
  simp only [Kernel.pointer, allocPending_device]
  split_ifs <;> rfl

theorem Kernel.Owned.allocPending (h : k.Owned) (hg : k.heap.CanGrant k.oldPointer g) :
    (allocPending k count g).Owned where
  ring := by simpa using h.ring
  active := by simpa using h.active
  sound := by
    rw [allocPending_heap]
    exact h.sound.krealloc hg (fun b hb => h.live le_rfl (oldPointer_eq_some hb)) _
  live := by
    intro i b hi hb
    rw [pointer_allocPending] at hb
    rw [allocPending_heap]
    cases hgb : g.block with
    | none =>
      rw [Heap.krealloc_fail hgb]
      split_ifs at hb with hlt
      · exact h.live hi hb
      · simp [hgb] at hb
    | some c =>
      -- only the old pointer can die, and no slot holds it
      rw [Heap.live_krealloc hgb]
      split_ifs at hb with hlt
      · exact .inr ⟨h.live hi hb, (h.slot_ne hg hlt hb).1⟩
      · exact .inl (by simpa [hgb] using hb.symm)
  distinct := by
    intro i j b hi hj hbi hbj
    rw [pointer_allocPending] at hbi hbj
    split_ifs at hbi hbj with hlt hlt' hlt'
    · exact h.distinct hi hj hbi hbj
    · exact absurd hbj (h.slot_ne hg hlt hbi).2
    · exact absurd hbi (h.slot_ne hg hlt' hbj).2
    · omega

theorem commands_allocPending (h : k.Owned) (hg : k.heap.CanGrant k.oldPointer g) :
    (Aesd.allocPending k count g).commands = k.commands := by
  apply commands_congr (by simp)
  intro i hi b hb
  obtain ⟨ho, hgb⟩ := h.slot_ne hg hi hb
  rw [allocPending_heap]
  exact Heap.blocks_krealloc_ne hgb ho _ _

end Alloc

section Copy

variable {k : Kernel} {buf : List UInt8} {count : UInt64}

def copied (buf : List UInt8) (count : UInt64) : List UInt8 := buf.take count.toNat

theorem copied_length_le (buf : List UInt8) (count : UInt64) :
    (copied buf count).length ≤ count.toNat := by
  simp [copied]

theorem copied_length_lt (buf : List UInt8) (count : UInt64) : (copied buf count).length < 2 ^ 64 :=
  (copied_length_le buf count).trans_lt count.toNat_lt

theorem copyPending_fst_toNat (k : Kernel) (buf : List UInt8) (count : UInt64) :
    (copyPending k buf count).1.toNat = (copied buf count).length := by
  change (count - (count - UInt64.ofNat (copied buf count).length)).toNat = _
  rw [CInt.sub_sub_cancel, UInt64.toNat_ofNat_of_lt' (copied_length_lt buf count)]

theorem copyPending_device : (copyPending k buf count).2.device =
    { k.device with circleBuffEntry := ⟨k.device.circleBuffEntry.buffptr,
      k.device.circleBuffEntry.size + (copyPending k buf count).1⟩ } := rfl

theorem copyPending_heap : (copyPending k buf count).2.heap =
    k.heap.store k.device.circleBuffEntry.buffptr k.device.circleBuffEntry.size.toNat
      (copied buf count) := rfl

theorem pointer_copyPending (i : ℕ) : (copyPending k buf count).2.pointer i = k.pointer i := rfl

theorem Kernel.Owned.copyPending (h : k.Owned) : (copyPending k buf count).2.Owned where
  ring := h.ring
  active := h.active
  sound := h.sound.store _ _ _
  live hi hb := by
    rw [copyPending_heap, Heap.live_store]
    exact h.live hi hb
  distinct := h.distinct

theorem commands_copyPending (h : k.Owned) :
    (Aesd.copyPending k buf count).2.commands = k.commands := by
  have hring : (Aesd.copyPending k buf count).2.device.circleBuff = k.device.circleBuff := rfl
  apply commands_congr hring
  intro i hi b hb
  rw [copyPending_heap]
  apply Heap.blocks_store_ne
  intro hp
  have := h.distinct hi.le le_rfl hb (by rw [pointer_ten, hp])
  omega

theorem pending_copyPending (h : k.Owned) (hp : k.device.circleBuffEntry.buffptr ≠ none)
    (hlt : k.device.circleBuffEntry.size.toNat + count.toNat < 2 ^ 64) :
    (Aesd.copyPending k buf count).2.pending = k.pending ++ copied buf count := by
  obtain ⟨b, hb⟩ := Option.ne_none_iff_exists'.mp hp
  have hn := copyPending_fst_toNat k buf count
  have hle : (copied buf count).length ≤ count.toNat := copied_length_le buf count
  have hsize : (k.device.circleBuffEntry.size + (Aesd.copyPending k buf count).1).toNat =
      k.device.circleBuffEntry.size.toNat + (copied buf count).length := by
    rw [CInt.toNat_add (by omega), hn]
  unfold Kernel.pending Kernel.bytesOf
  rw [copyPending_device, copyPending_heap]
  simp only [hsize, hb]
  exact Heap.contents_store_append _ (h.live le_rfl hb) _ _

end Copy

section Commit

variable {k : Kernel}

theorem hasNewline_pending : hasNewline k.heap k.device.circleBuffEntry.buffptr
    k.device.circleBuffEntry.size = true ↔ newline ∈ k.pending := by
  simp [hasNewline, Kernel.pending, Kernel.bytesOf]

theorem commitPending_of_not_mem (h : newline ∉ k.pending) : commitPending k = (none, k) := by
  unfold commitPending
  rw [if_neg (by rwa [hasNewline_pending])]

theorem commitPending_of_mem (h : newline ∈ k.pending) :
    commitPending k =
      ((k.device.circleBuff.addEntry k.device.circleBuffEntry).1,
        ⟨⟨(k.device.circleBuff.addEntry k.device.circleBuffEntry).2, .zero⟩,
          k.heap.kfree (k.device.circleBuff.addEntry k.device.circleBuffEntry).1⟩) := by
  unfold commitPending
  rw [if_pos (by rwa [hasNewline_pending])]

/-- The freed block is the one of the slot that is overwritten. -/
theorem addEntry_fst_pointer (h : k.Owned) (e : AesdBufferEntry) :
    (k.device.circleBuff.addEntry e).1 = k.pointer k.device.circleBuff.inOffs := by
  rw [pointer_of_lt k h.ring.inOffs_lt]
  rfl

theorem pointer_commitPending (h : k.Owned) (hm : newline ∈ k.pending) {i : ℕ} :
    (commitPending k).2.pointer i =
      if i < 10 then (if i = k.device.circleBuff.inOffs then k.pointer 10 else k.pointer i)
      else none := by
  rw [commitPending_of_mem hm]
  simp only [Kernel.pointer, AesdCircularBuffer.slot_addEntry h.ring, Function.update_apply,
    AesdBufferEntry.zero]
  split_ifs <;> simp_all

theorem freed_ne (h : k.Owned) (hm : newline ∈ k.pending) {i : ℕ} {b : BlockId} (hi : i ≤ 10)
    (hb : (commitPending k).2.pointer i = some b) :
    (k.device.circleBuff.addEntry k.device.circleBuffEntry).1 ≠ some b ∧
      ∃ j ≤ 10, k.pointer j = some b := by
  have hin := h.ring.inOffs_lt
  rw [addEntry_fst_pointer h]
  rw [pointer_commitPending h hm] at hb
  split_ifs at hb with hlt heq
  · refine ⟨fun hf => ?_, 10, le_rfl, hb⟩
    have := h.distinct le_rfl hin.le hb hf
    omega
  · exact ⟨fun hf => heq (h.distinct hi hin.le hb hf), i, hi, hb⟩

theorem Kernel.Owned.commitPending (h : k.Owned) (hp : k.device.circleBuffEntry.buffptr ≠ none) :
    (commitPending k).2.Owned := by
  by_cases hm : newline ∈ k.pending
  · have hin := h.ring.inOffs_lt
    have hspec := AesdCircularBuffer.addEntry_spec h.ring k.device.circleBuffEntry
    have hkernel := commitPending_of_mem hm
    constructor
    · rw [hkernel]
      exact hspec.1
    · intro i b hi hb
      obtain ⟨hne, j, hj, hbj⟩ := freed_ne h hm hi hb
      rw [hkernel, Heap.live_kfree]
      exact ⟨h.live hj hbj, hne⟩
    · -- the slot at `in_offs` takes over the pending pointer, and the pending entry has none
      intro i j b hi hj hbi hbj
      rw [pointer_commitPending h hm] at hbi hbj
      split_ifs at hbi hbj with h1 h2 h3 h4 h5 h6
      · omega
      · have := h.distinct le_rfl hj hbi hbj
        omega
      · have := h.distinct hi le_rfl hbi hbj
        omega
      · exact h.distinct hi hj hbi hbj
    · intro e he
      rw [hkernel] at he
      change e ∈ (k.device.circleBuff.addEntry _).2.active at he
      rw [hspec.2] at he
      rcases List.mem_append.mp (List.mem_of_mem_drop he) with he | he
      · exact h.active e he
      · obtain rfl := List.mem_singleton.mp he
        refine ⟨hp, fun hz => ?_⟩
        simp [Kernel.pending, Kernel.bytesOf, hz, Heap.contents] at hm
    · rw [hkernel]
      apply h.sound.kfree
      intro b hb
      rw [addEntry_fst_pointer h] at hb
      exact h.live hin.le hb
  · rwa [commitPending_of_not_mem hm]

/-- A commit appends the pending command to the stored ones and forgets the oldest of ten. -/
theorem commands_commitPending (h : k.Owned) (hm : newline ∈ k.pending) :
    (Aesd.commitPending k).2.commands = (k.commands ++ [k.pending]).rtake 10 := by
  have hspec := AesdCircularBuffer.addEntry_spec h.ring k.device.circleBuffEntry
  have hact : (Aesd.commitPending k).2.device.circleBuff.active =
      (k.device.circleBuff.active ++ [k.device.circleBuffEntry]).rtake 10 := by
    rw [commitPending_of_mem hm]
    exact hspec.2
  have hmap : (k.commands ++ [k.pending]).rtake 10 =
      (Aesd.commitPending k).2.device.circleBuff.active.map k.bytesOf := by
    rw [hact, map_rtake, List.map_append]
    rfl
  rw [hmap]
  apply List.map_congr_left
  intro e he
  obtain ⟨i, hi, rfl⟩ := AesdCircularBuffer.mem_active_slot he
  cases hp : ((Aesd.commitPending k).2.device.circleBuff.slot i).buffptr with
  | none => simp [Kernel.bytesOf, hp, Heap.contents, Heap.byteAt]
  | some b =>
    have hb := (freed_ne h hm hi.le (by rw [pointer_of_lt _ hi, hp])).1
    unfold Kernel.bytesOf
    rw [hp, commitPending_of_mem hm]
    exact Heap.contents_congr fun j _ => Heap.byteAt_of_blocks (Heap.blocks_kfree_ne hb _) _

theorem pending_commitPending (hm : newline ∈ k.pending) : (Aesd.commitPending k).2.pending = [] := by
  rw [commitPending_of_mem hm]
  simp [Kernel.pending, Kernel.bytesOf, AesdBufferEntry.zero, Heap.contents]

end Commit

end Aesd
