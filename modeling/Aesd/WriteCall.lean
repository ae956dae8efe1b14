import Aesd.WriteSpec

/-!
# The whole write call

The phases put together: what a granted or a refused allocation makes of the
kernel, and that every call keeps the kernel's invariants.
-/

namespace Aesd
open BlockHeap RingWalk StepRuns

section Locked

variable {k : Kernel} {buf : List UInt8} {count : UInt64} {g : Grant BlockId}

/-- The kernel when the copy is done, before the search for a newline. -/
def filled (k : Kernel) (buf : List UInt8) (count : UInt64) (g : Grant BlockId) : Kernel :=
  (copyPending (allocPending k count g) buf count).2

theorem writeLocked_refused (hg : g.block = none) :
    writeLocked k buf count g = ⟨-ENOMEM, allocPending k count g, none⟩ := by
  simp [writeLocked, hg]

theorem writeLocked_granted {b : BlockId} (hg : g.block = some b) :
    writeLocked k buf count g =
      ⟨(copyPending (allocPending k count g) buf count).1.toInt64,
        (commitPending (filled k buf count g)).2, (commitPending (filled k buf count g)).1⟩ := by
  simp [writeLocked, hg, filled]

theorem filled_buffptr : (filled k buf count g).device.circleBuffEntry.buffptr = g.block := by
  simp [filled, copyPending_device]

theorem filled_circleBuff : (filled k buf count g).device.circleBuff = k.device.circleBuff := by
  simp [filled, copyPending_device]

theorem Kernel.Owned.filled (h : k.Owned) (hg : k.heap.CanGrant k.oldPointer g) :
    (filled k buf count g).Owned := (h.allocPending hg).copyPending

theorem commands_filled (h : k.Owned) (hg : k.heap.CanGrant k.oldPointer g) :
    (Aesd.filled k buf count g).commands = k.commands := by
  rw [Aesd.filled, commands_copyPending (h.allocPending hg), commands_allocPending h hg]

theorem Kernel.Owned.writeLocked (h : k.Owned) (hg : k.heap.CanGrant k.oldPointer g) :
    (writeLocked k buf count g).kernel.Owned := by
  cases hb : g.block with
  | none =>
    rw [writeLocked_refused hb]
    exact h.allocPending hg
  | some b =>
    rw [writeLocked_granted hb]
    exact (h.filled hg).commitPending (by rw [filled_buffptr, hb]; simp)

/-- Every size is below 2^31 and the pending bytes fit in their block. -/
structure Kernel.Fits (k : Kernel) : Prop where
  ring : k.device.circleBuff.Small
  pending : k.device.circleBuffEntry.size.toNat < 2 ^ 31
  room : ∀ b blk, k.device.circleBuffEntry.buffptr = some b → k.heap.blocks b = some blk →
    k.device.circleBuffEntry.size.toNat ≤ blk.size

theorem fits_init : Kernel.init.Fits where
  ring := by simp [Kernel.init, AesdCircularBuffer.Small]
  pending := by simp [Kernel.init, AesdBufferEntry.zero]
  room := by simp [Kernel.init, AesdBufferEntry.zero]

/-- The allocator's limit: a successful request is below 2^31 bytes. -/
def BelowLimit (k : Kernel) (count : UInt64) (g : Grant BlockId) : Prop :=
  g.block ≠ none → k.device.circleBuffEntry.size.toNat + count.toNat < 2 ^ 31

theorem filled_size (hlim : k.device.circleBuffEntry.size.toNat + count.toNat < 2 ^ 31) :
    (filled k buf count g).device.circleBuffEntry.size.toNat =
      k.device.circleBuffEntry.size.toNat + (copied buf count).length := by
  have hn := copyPending_fst_toNat (allocPending k count g) buf count
  have hle := copied_length_le buf count
  rw [filled, copyPending_device, allocPending_device]
  rw [CInt.toNat_add (by rw [hn]; dsimp only; omega), hn]

theorem Kernel.Fits.filled (h : k.Fits) {b : BlockId} (hb : g.block = some b)
    (hlim : k.device.circleBuffEntry.size.toNat + count.toNat < 2 ^ 31) :
    (Aesd.filled k buf count g).Fits where
  ring := by
    rw [filled_circleBuff]
    exact h.ring
  pending := by
    have hle := copied_length_le buf count
    rw [filled_size hlim]
    omega
  room := by
    intro c blk hc hblk
    have hle := copied_length_le buf count
    rw [filled_buffptr, hb] at hc
    obtain rfl := Option.some.inj hc
    obtain ⟨bytes, hnew⟩ := Heap.blocks_krealloc hb k.heap k.oldPointer
      (k.device.circleBuffEntry.size + count).toNat
    rw [Aesd.filled, copyPending_heap, allocPending_heap, allocPending_device] at hblk
    simp only [Heap.store, hb, Function.update_self, hnew, Option.map_some, Option.some.injEq] at hblk
    subst hblk
    rw [filled_size hlim]
    simp only
    rw [CInt.toNat_add (by omega)]
    omega

theorem Kernel.Fits.commitPending (h : k.Fits) (ho : k.Owned) : (commitPending k).2.Fits := by
  by_cases hm : newline ∈ k.pending
  · rw [commitPending_of_mem hm]
    refine ⟨?_, by simp [AesdBufferEntry.zero], by simp [AesdBufferEntry.zero]⟩
    intro e he
    rw [(AesdCircularBuffer.addEntry_spec ho.ring _).2] at he
    rcases List.mem_append.mp (List.mem_of_mem_drop he) with he | he
    · exact h.ring e he
    · obtain rfl := List.mem_singleton.mp he
      exact h.pending
  · rwa [commitPending_of_not_mem hm]

theorem Kernel.Fits.writeLocked (h : k.Fits) (ho : k.Owned) (hg : k.heap.CanGrant k.oldPointer g)
    (hlim : BelowLimit k count g) : (writeLocked k buf count g).kernel.Fits := by
  cases hb : g.block with
  | none =>
    rw [writeLocked_refused hb]
    exact ⟨by simpa using h.ring, by simpa using h.pending, by simp [hb]⟩
  | some b =>
    rw [writeLocked_granted hb]
    exact (h.filled hb (hlim (by simp [hb]))).commitPending (ho.filled hg)

/-- A failed `krealloc` has overwritten the only pointer to the pending bytes. -/
def Kernel.Lost (k : Kernel) : Prop :=
  k.device.circleBuffEntry.buffptr = none ∧ k.device.circleBuffEntry.size ≠ 0

instance (k : Kernel) : Decidable k.Lost := inferInstanceAs (Decidable (_ ∧ _))

theorem pending_allocPending (h : k.Owned) (hf : k.Fits) (hl : ¬ k.Lost) {b : BlockId}
    (hb : g.block = some b) (hlim : k.device.circleBuffEntry.size.toNat + count.toNat < 2 ^ 64) :
    (allocPending k count g).pending = k.pending := by
  unfold Kernel.pending Kernel.bytesOf
  rw [allocPending_device, allocPending_heap, hb]
  by_cases hz : k.device.circleBuffEntry.size = 0
  · simp [hz, Heap.contents]
  · obtain ⟨o, ho⟩ := Option.ne_none_iff_exists'.mp fun hp => hl ⟨hp, hz⟩
    have hold : k.oldPointer = some o := by rw [Kernel.oldPointer, if_neg hz, ho]
    obtain ⟨blk, hblk⟩ := Option.isSome_iff_exists.mp (h.live le_rfl ho)
    rw [hold, ho]
    apply Heap.contents_krealloc hb _ hblk (hf.room o blk ho hblk)
    rw [CInt.toNat_add hlim]
    omega

theorem pending_filled (h : k.Owned) (hf : k.Fits) (hl : ¬ k.Lost)
    (hg : k.heap.CanGrant k.oldPointer g) {b : BlockId} (hb : g.block = some b)
    (hlim : k.device.circleBuffEntry.size.toNat + count.toNat < 2 ^ 31) :
    (filled k buf count g).pending = k.pending ++ copied buf count := by
  have hp : (allocPending k count g).device.circleBuffEntry.buffptr ≠ none := by simp [hb]
  rw [filled, pending_copyPending (h.allocPending hg) hp (by simp only [allocPending_device]; omega),
    pending_allocPending h hf hl hb (by omega)]

end Locked

/-- A write gets to the device: its arguments are there, it is not empty and it has the lock. -/
def Call.Reaches : Call → Prop
  | .write _ buf count env => buf ≠ none ∧ count ≠ 0 ∧ env.interrupted = false
  | .read .. => False

instance : (c : Call) → Decidable c.Reaches
  | .write .. => inferInstanceAs (Decidable (_ ≠ _ ∧ _ ≠ _ ∧ _ = _))
  | .read .. => isFalse id

theorem Call.Reaches.exists_write {c : Call} (h : c.Reaches) :
    ∃ file buf count env, c = .write file (some buf) count env := by
  cases c with
  | write file buf count env =>
    obtain ⟨buf, rfl⟩ := Option.ne_none_iff_exists'.mp h.1
    exact ⟨file, buf, count, env, rfl⟩
  | read => exact h.elim

theorem step_of_not_reaches (s : System) {c : Call} (h : ¬ c.Reaches) :
    (s.step c).2.kernel = s.kernel ∧ (s.step c).1.freed = none := by
  cases c with
  | write file buf count env =>
    cases buf with
    | none => exact ⟨rfl, rfl⟩
    | some buf =>
      simp only [System.step, aesdWrite]
      split_ifs with hc hi
      · exact ⟨rfl, rfl⟩
      · exact ⟨rfl, rfl⟩
      · exact absurd ⟨by simp, hc, by simpa using hi⟩ h
  | read => exact ⟨rfl, rfl⟩

theorem step_of_reaches (s : System) {file : ℕ} {buf : List UInt8} {count : UInt64} {env : WriteEnv}
    (h : (Call.write file (some buf) count env).Reaches) :
    s.step (.write file (some buf) count env) =
      (⟨(writeLocked s.kernel buf count env.grant).retval, [],
        (writeLocked s.kernel buf count env.grant).freed⟩,
        { s with kernel := (writeLocked s.kernel buf count env.grant).kernel }) := by
  obtain ⟨_, hc, hi⟩ := h
  simp [System.step, aesdWrite, hc, hi]

theorem owned_step {s : System} {c : Call} (h : s.kernel.Owned) (hg : c.GrantOk s) :
    (s.step c).2.kernel.Owned := by
  by_cases hr : c.Reaches
  · obtain ⟨file, buf, count, env, rfl⟩ := hr.exists_write
    rw [step_of_reaches s hr]
    exact h.writeLocked hg
  · rwa [(step_of_not_reaches s hr).1]

theorem owned_run {s : System} (h : s.kernel.Owned) {calls : List Call}
    (hv : Valid System.step Call.GrantOk s calls) :
    (exec System.step s calls).kernel.Owned :=
  exec_invariant (fun s : System => s.kernel.Owned) (fun _ _ ho hg => owned_step ho hg) h hv

/-- A successful allocation stays below the allocator's limit. -/
def Call.LimitOk (s : System) : Call → Prop
  | .write _ _ count env => BelowLimit s.kernel count env.grant
  | .read .. => True

/-- The kernel's side of a call: a usable block, and one below the limit. -/
def Call.KernelOk (s : System) (c : Call) : Prop := c.GrantOk s ∧ c.LimitOk s

instance (s : System) : (c : Call) → Decidable (c.GrantOk s)
  | .write .. => inferInstanceAs (Decidable (Heap.CanGrant _ _ _))
  | .read .. => isTrue trivial

instance (s : System) : (c : Call) → Decidable (c.KernelOk s)
  | .write .. => inferInstanceAs (Decidable (Heap.CanGrant _ _ _ ∧ (_ ≠ _ → _ < _)))
  | .read .. => isTrue ⟨trivial, trivial⟩

theorem fits_step {s : System} {c : Call} (h : s.kernel.Owned ∧ s.kernel.Fits) (hc : c.KernelOk s) :
    (s.step c).2.kernel.Owned ∧ (s.step c).2.kernel.Fits := by
  refine ⟨owned_step h.1 hc.1, ?_⟩
  by_cases hr : c.Reaches
  · obtain ⟨file, buf, count, env, rfl⟩ := hr.exists_write
    rw [step_of_reaches s hr]
    exact h.2.writeLocked h.1 hc.1 hc.2
  · rw [(step_of_not_reaches s hr).1]
    exact h.2

theorem fits_run {s : System} (h : s.kernel.Owned ∧ s.kernel.Fits) {calls : List Call}
    (hv : Valid System.step Call.KernelOk s calls) :
    (exec System.step s calls).kernel.Owned ∧ (exec System.step s calls).kernel.Fits :=
  exec_invariant (fun s : System => s.kernel.Owned ∧ s.kernel.Fits)
    (fun _ _ ho hg => fits_step ho hg) h hv

def grantOf (b : BlockId) : WriteEnv := ⟨false, ⟨some b, fun _ => 170⟩⟩

end Aesd
