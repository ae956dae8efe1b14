import Aesd.WriteCall

/-!
# Who owns which block

The ring's slots and the pending entry own every block they point to, and alone.
What `aesd_cleanup_module` frees is exactly what they own.
-/

namespace Aesd
open BlockHeap StepRuns

/-- The order of the pointers in `aesd_cleanup_module`: the pending entry, then the slots. -/
def owners : List ℕ := 10 :: List.range 10

theorem mem_owners {i : ℕ} : i ∈ owners ↔ i ≤ 10 := by
  simp only [owners, List.mem_cons, List.mem_range]
  omega

/-- All buffer pointers of the device. -/
def Kernel.pointers (k : Kernel) : List (Option BlockId) := owners.map k.pointer

theorem mem_pointers {k : Kernel} {p : Option BlockId} :
    p ∈ k.pointers ↔ ∃ i ≤ 10, k.pointer i = p := by
  simp only [Kernel.pointers, List.mem_map, mem_owners]

/-- The guard for NULL is redundant: the module frees all pointers. -/
theorem aesdCleanupModule_eq (k : Kernel) : aesdCleanupModule k = k.heap.kfreeAll k.pointers := by
  have hguard : ∀ (heap : KHeap) (p : Option BlockId),
      (if p ≠ none then heap.kfree p else heap) = heap.kfree p := by
    intro heap p
    cases p <;> rfl
  simp only [aesdCleanupModule, hguard]
  rfl

theorem Kernel.Owned.nodup {k : Kernel} (h : k.Owned) : (k.pointers.filterMap id).Nodup := by
  have howners : owners.Nodup := by decide
  rw [Kernel.pointers, List.filterMap_map, List.Nodup, List.pairwise_filterMap]
  refine List.Pairwise.imp_of_mem ?_ howners
  intro i j hi hj hij b hb b' hb' hbb
  subst hbb
  exact hij (h.distinct (mem_owners.mp hi) (mem_owners.mp hj) hb hb')

theorem Kernel.Owned.live_pointers {k : Kernel} (h : k.Owned) {b : BlockId}
    (hb : some b ∈ k.pointers) : k.heap.Live b := by
  obtain ⟨i, hi, hp⟩ := mem_pointers.mp hb
  exact h.live hi hp

theorem sound_cleanup {k : Kernel} (h : k.Owned) : (aesdCleanupModule k).Sound := by
  rw [aesdCleanupModule_eq]
  exact h.sound.kfreeAll (fun _ => h.live_pointers) h.nodup

theorem live_cleanup (k : Kernel) (b : BlockId) :
    (aesdCleanupModule k).Live b ↔ k.heap.Live b ∧ some b ∉ k.pointers := by
  rw [aesdCleanupModule_eq, Heap.live_kfreeAll]

/-- A commit frees a pointer only from a full ring: that of the oldest command. -/
theorem commit_freed {k : Kernel} (h : k.Owned) {b : BlockId} (hf : (commitPending k).1 = some b) :
    k.heap.Live b ∧
      (∃ e rest, k.device.circleBuff.active = e :: rest ∧ e.buffptr = some b ∧
        (commitPending k).2.device.circleBuff.active = rest ++ [k.device.circleBuffEntry]) ∧
      some b ∉ (commitPending k).2.pointers := by
  by_cases hm : newline ∈ k.pending
  · have hfst : (k.device.circleBuff.addEntry k.device.circleBuffEntry).1 = some b := by
      rwa [commitPending_of_mem hm] at hf
    have hpointer := hfst
    rw [addEntry_fst_pointer h] at hpointer
    refine ⟨h.live h.ring.inOffs_lt.le hpointer, ?_, ?_⟩
    · rw [AesdCircularBuffer.addEntry_fst h.ring] at hfst
      split_ifs at hfst with hfull
      have hlen : k.device.circleBuff.active.length = 10 := by
        rw [AesdCircularBuffer.active_length, AesdCircularBuffer.full_iff_count.mp hfull]
      obtain ⟨e, rest, he⟩ := List.exists_cons_of_length_eq_add_one hlen
      refine ⟨e, rest, he, by simpa [he] using hfst, ?_⟩
      rw [commitPending_of_mem hm]
      change (k.device.circleBuff.addEntry _).2.active = _
      rw [(AesdCircularBuffer.addEntry_spec h.ring _).2, RingWalk.rtake_concat_of_length _ hlen, he]
      rfl
    · rw [mem_pointers]
      rintro ⟨i, hi, hp⟩
      exact (freed_ne h hm hi hp).1 hfst
  · rw [commitPending_of_not_mem hm] at hf
    cases hf

theorem step_freed {s : System} {c : Call} (h : s.kernel.Owned) (hg : c.GrantOk s) {b : BlockId}
    (hf : (s.step c).1.freed = some b) :
    s.kernel.heap.Live b ∧
      (∃ e rest new, s.kernel.device.circleBuff.active = e :: rest ∧ e.buffptr = some b ∧
        (s.step c).2.kernel.device.circleBuff.active = rest ++ [new]) ∧
      some b ∉ (s.step c).2.kernel.pointers := by
  by_cases hr : c.Reaches
  · obtain ⟨file, buf, count, env, rfl⟩ := hr.exists_write
    rw [step_of_reaches s hr] at hf ⊢
    cases hb : env.grant.block with
    | none => simp [writeLocked_refused hb] at hf
    | some a =>
      rw [writeLocked_granted hb] at hf ⊢
      obtain ⟨_, ⟨e, rest, he, hp, hact⟩, hnot⟩ := commit_freed (h.filled hg) hf
      rw [filled_circleBuff] at he
      refine ⟨?_, ⟨e, rest, _, he, hp, hact⟩, hnot⟩
      obtain ⟨i, hi, rfl⟩ := AesdCircularBuffer.mem_active_slot (he ▸ List.mem_cons_self)
      exact h.live hi.le ((pointer_of_lt _ hi).trans hp)
  · rw [(step_of_not_reaches s hr).2] at hf
    cases hf

/-- **Ownership.** In every reachable state each buffer pointer is live and held once,
every `kfree` so far found a live block, a write frees the evicted command's block and
keeps no pointer to it, and unloading frees nothing twice. -/
theorem buffers_owned (calls : List Call) (h : Valid System.step Call.GrantOk .init calls) :
    let s := exec System.step .init calls
    (∀ b, some b ∈ s.kernel.pointers → s.kernel.heap.Live b) ∧
    (s.kernel.pointers.filterMap id).Nodup ∧
    (∀ e ∈ s.kernel.device.circleBuff.active, e.buffptr ≠ none ∧ 1 ≤ e.size.toNat) ∧
    (∀ b, .badFree b ∉ s.kernel.heap.log) ∧
    (∀ c : Call, c.GrantOk s → ∀ b, (s.step c).1.freed = some b →
      s.kernel.heap.Live b ∧
      (∃ e rest new, s.kernel.device.circleBuff.active = e :: rest ∧ e.buffptr = some b ∧
        (s.step c).2.kernel.device.circleBuff.active = rest ++ [new]) ∧
      some b ∉ (s.step c).2.kernel.pointers) ∧
    ∀ b, .badFree b ∉ (aesdCleanupModule s.kernel).log := by
  intro s
  have ho : s.kernel.Owned := owned_run owned_init h
  refine ⟨fun _ => ho.live_pointers, ho.nodup, ?_, ho.sound.noBadFree, ?_,
    (sound_cleanup ho).noBadFree⟩
  · intro e he
    obtain ⟨hp, hz⟩ := ho.active e he
    refine ⟨hp, Nat.one_le_iff_ne_zero.mpr fun h0 => hz ?_⟩
    exact UInt64.toNat_inj.mp h0
  · intro c hg b hf
    exact step_freed ho hg hf

/-- A byte is written, a `krealloc` fails, and another write ends the command. -/
def failedRun : List Call :=
  [.write 0 (some [97]) 1 (grantOf 1), .write 0 (some [98]) 1 ⟨false, ⟨none, fun _ => 0⟩⟩,
    .write 0 (some [98, 10]) 2 (grantOf 2)]

theorem buffers_owned_failedRun :
    ((exec System.step .init failedRun).kernel.pointers.filterMap id).Nodup :=
  (buffers_owned failedRun (by decide)).2.1

end Aesd
