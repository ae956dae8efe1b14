import Aesd.Ownership

/-!
# Leaked blocks

A write that finds a pending block without bytes allocates a second one and drops
the first. This is the only leak as long as every allocation succeeds.
-/

namespace Aesd
open BlockHeap StepRuns

/-- The block is live and the device has no pointer to it. -/
def Kernel.Leaked (k : Kernel) (b : BlockId) : Prop := k.heap.Live b ∧ some b ∉ k.pointers

/-- The pending entry has a block and no bytes: a copy into a fresh block failed at once. -/
def Kernel.Blank (k : Kernel) : Prop :=
  k.device.circleBuffEntry.buffptr ≠ none ∧ k.device.circleBuffEntry.size = 0

instance (k : Kernel) : Decidable k.Blank := inferInstanceAs (Decidable (_ ∧ _))

/-- The call does not allocate over a blank pending entry. -/
def Call.Fresh (s : System) (c : Call) : Prop := c.Reaches → ¬ s.kernel.Blank

instance (s : System) (c : Call) : Decidable (c.Fresh s) := inferInstanceAs (Decidable (_ → ¬ _))

/-- Every allocation succeeds, with a usable block. -/
def Call.Granted (s : System) (c : Call) : Prop :=
  c.GrantOk s ∧ match c with
    | .write _ _ _ env => env.grant.block ≠ none
    | .read .. => True

instance (s : System) : (c : Call) → Decidable (c.Granted s)
  | .write .. => inferInstanceAs (Decidable (Heap.CanGrant _ _ _ ∧ _ ≠ _))
  | .read .. => isTrue ⟨trivial, trivial⟩

section Phases

variable {k : Kernel} {buf : List UInt8} {count : UInt64} {g : Grant BlockId} {a b : BlockId}

theorem blank_iff : k.Blank ↔ k.oldPointer = none ∧ ∃ b, k.pointer 10 = some b := by
  unfold Kernel.Blank Kernel.oldPointer
  rw [pointer_ten, Option.ne_none_iff_exists']
  split_ifs with hz
  · simp [hz]
  · constructor
    · rintro ⟨_, h0⟩
      exact absurd h0 hz
    · rintro ⟨h, b, hb⟩
      rw [h] at hb
      cases hb

theorem live_filled (ha : g.block = some a) :
    (filled k buf count g).heap.Live b ↔ b = a ∨ (k.heap.Live b ∧ k.oldPointer ≠ some b) := by
  rw [filled, copyPending_heap, Heap.live_store, allocPending_heap, Heap.live_krealloc ha]

theorem mem_pointers_filled (ha : g.block = some a) :
    some b ∈ (filled k buf count g).pointers ↔ (∃ i < 10, k.pointer i = some b) ∨ a = b := by
  rw [mem_pointers]
  simp only [filled, pointer_copyPending, pointer_allocPending, ha]
  constructor
  · rintro ⟨i, hi, hp⟩
    split_ifs at hp with hlt
    · exact .inl ⟨i, hlt, hp⟩
    · exact .inr (Option.some.inj hp)
  · rintro (⟨i, hi, hp⟩ | rfl)
    · exact ⟨i, hi.le, by rw [if_pos hi, hp]⟩
    · exact ⟨10, le_rfl, rfl⟩

/-- What an allocation and a copy leak: the block of a blank entry. -/
theorem leaked_filled (h : k.Owned) (hg : k.heap.CanGrant k.oldPointer g) (ha : g.block = some a) :
    (filled k buf count g).Leaked b ↔
      k.Leaked b ∨ (k.oldPointer = none ∧ k.pointer 10 = some b) := by
  have hgrant := hg a ha
  unfold Kernel.Leaked
  rw [live_filled ha, mem_pointers_filled ha, mem_pointers]
  constructor
  · -- not leaked before, it was reachable from the pending entry only
    rintro ⟨hb, hno⟩
    obtain ⟨hslots, hab⟩ := not_or.mp hno
    obtain ⟨hl, hold⟩ := hb.resolve_left (Ne.symm hab)
    by_cases hten : k.pointer 10 = some b
    · refine .inr ⟨?_, hten⟩
      by_contra hne
      obtain ⟨o, ho⟩ := Option.ne_none_iff_exists'.mp hne
      rw [ho, ← oldPointer_eq_some ho] at hold
      exact hold hten
    · refine .inl ⟨hl, ?_⟩
      rintro ⟨i, hi, hp⟩
      rcases Nat.lt_or_ge i 10 with hlt | hge
      · exact hslots ⟨i, hlt, hp⟩
      · obtain rfl : i = 10 := by omega
        exact hten hp
  · rintro (⟨hl, hno⟩ | ⟨hold, hten⟩)
    · have hold : k.oldPointer ≠ some b := fun ho => hno ⟨10, le_rfl, oldPointer_eq_some ho⟩
      have hab : a ≠ b := by
        rintro rfl
        exact hgrant.elim hold fun hn => hn hl
      refine ⟨.inr ⟨hl, hold⟩, ?_⟩
      rintro (⟨i, hi, hp⟩ | rfl)
      · exact hno ⟨i, hi.le, hp⟩
      · exact hab rfl
    -- the blank entry's block stays live, and the new pointer is written over its own
    · have hl := h.live le_rfl hten
      refine ⟨.inr ⟨hl, by simp [hold]⟩, ?_⟩
      rintro (⟨i, hi, hp⟩ | rfl)
      · have := h.distinct hi.le le_rfl hp hten
        omega
      · exact hgrant.elim (by simp [hold]) fun hn => hn hl

theorem leaked_commitPending (h : k.Owned) : (commitPending k).2.Leaked b ↔ k.Leaked b := by
  by_cases hm : newline ∈ k.pending
  · have hin := h.ring.inOffs_lt
    have hlive : (commitPending k).2.heap.Live b ↔
        k.heap.Live b ∧ k.pointer k.device.circleBuff.inOffs ≠ some b := by
      rw [commitPending_of_mem hm, Heap.live_kfree, addEntry_fst_pointer h]
    unfold Kernel.Leaked
    rw [hlive, mem_pointers, mem_pointers]
    constructor
    · rintro ⟨⟨hl, hfreed⟩, hno⟩
      refine ⟨hl, ?_⟩
      rintro ⟨i, hi, hp⟩
      rcases Nat.lt_or_ge i 10 with hlt | hge
      · have hne : i ≠ k.device.circleBuff.inOffs := fun he => hfreed (he ▸ hp)
        exact hno ⟨i, hi, by rw [pointer_commitPending h hm, if_pos hlt, if_neg hne, hp]⟩
      · obtain rfl : i = 10 := by omega
        exact hno ⟨_, hin.le, by rw [pointer_commitPending h hm, if_pos hin, if_pos rfl, hp]⟩
    · rintro ⟨hl, hno⟩
      refine ⟨⟨hl, fun hp => hno ⟨_, hin.le, hp⟩⟩, ?_⟩
      rintro ⟨i, hi, hp⟩
      exact hno (freed_ne h hm hi hp).2
  · rw [commitPending_of_not_mem hm]

end Phases

/-- A call leaks exactly the block of a blank pending entry it allocates over. -/
theorem leaked_step {s : System} {c : Call} (h : s.kernel.Owned) (hc : c.Granted s) :
    (∃ b, (s.step c).2.kernel.Leaked b) ↔ (∃ b, s.kernel.Leaked b) ∨ ¬ c.Fresh s := by
  by_cases hr : c.Reaches
  · obtain ⟨file, buf, count, env, rfl⟩ := hr.exists_write
    obtain ⟨a, ha⟩ := Option.ne_none_iff_exists'.mp hc.2
    have hfresh : ¬ (Call.write file (some buf) count env).Fresh s ↔ s.kernel.Blank := by
      simp [Call.Fresh, hr]
    rw [step_of_reaches s hr, writeLocked_granted ha, hfresh, blank_iff]
    simp only [leaked_commitPending (h.filled hc.1), leaked_filled h hc.1 ha, exists_or,
      exists_and_left]
  · have hfresh : c.Fresh s := fun hr' => absurd hr' hr
    rw [(step_of_not_reaches s hr).1]
    simp [hfresh]

theorem leaked_run {s : System} (h : s.kernel.Owned) {calls : List Call}
    (hc : Valid System.step Call.Granted s calls) :
    (∃ b, (exec System.step s calls).kernel.Leaked b) ↔
      (∃ b, s.kernel.Leaked b) ∨ ¬ Valid System.step Call.Fresh s calls := by
  induction calls generalizing s with
  | nil => simp
  | cons c calls ih =>
    rw [exec_cons, ih (owned_step h hc.1.1) hc.2, leaked_step h hc.1, valid_cons, or_assoc,
      Classical.not_and_iff_not_or_not]

theorem not_leaked_init (b : BlockId) : ¬ System.init.kernel.Leaked b := by
  rintro ⟨h, _⟩
  cases h

/-- **No leak.** In runs of granted calls the live blocks are the device's pointers, and
unloading frees all of them, exactly when no write allocates over a blank entry. -/
theorem no_leak_iff (calls : List Call) (h : Valid System.step Call.Granted .init calls) :
    ((∀ before, before <+: calls → ∀ b,
        (exec System.step .init before).kernel.heap.Live b ↔
          some b ∈ (exec System.step .init before).kernel.pointers) ↔
      Valid System.step Call.Fresh .init calls) ∧
    ((∀ b, ¬ (aesdCleanupModule (exec System.step .init calls).kernel).Live b ∧
        (aesdCleanupModule (exec System.step .init calls).kernel).allocCount b =
          (aesdCleanupModule (exec System.step .init calls).kernel).freeCount b) ↔
      Valid System.step Call.Fresh .init calls) := by
  have hleak : ∀ before, Valid System.step Call.Granted .init before →
      (Valid System.step Call.Fresh .init before ↔
        ∀ b, ¬ (exec System.step .init before).kernel.Leaked b) := by
    intro before hv
    have hrun := leaked_run owned_init hv
    simp only [not_leaked_init, exists_false, false_or] at hrun
    rw [← not_exists, hrun, not_not]
  have howned {before : List Call} (hv : Valid System.step Call.Granted .init before) :
      (exec System.step .init before).kernel.Owned :=
    owned_run owned_init (hv.mono fun _ _ hc => hc.1)
  refine ⟨⟨fun hall => ?_, fun hfresh => ?_⟩, ⟨fun hall => ?_, fun hfresh b => ?_⟩⟩
  · rw [hleak calls h]
    rintro b ⟨hl, hno⟩
    exact hno ((hall calls List.prefix_rfl b).mp hl)
  · rintro before ⟨after, rfl⟩ b
    have hv := ((valid_append _ _ _).mp h).1
    have hno := (hleak before hv).mp ((valid_append _ _ _).mp hfresh).1 b
    refine ⟨fun hl => ?_, (howned hv).live_pointers⟩
    by_contra hptr
    exact hno ⟨hl, hptr⟩
  -- `kfree` reaches no leaked block, so it is still live after the unloading
  · rw [hleak calls h]
    intro b hb
    exact (hall b).1 ((live_cleanup _ b).mpr hb)
  · have hdead : ¬ (aesdCleanupModule (exec System.step .init calls).kernel).Live b := by
      rw [live_cleanup]
      exact (hleak calls h).mp hfresh b
    have hbal := (sound_cleanup (howned h)).balance b
    rw [if_neg hdead] at hbal
    exact ⟨hdead, hbal⟩

def refilledRun : List Call :=
  .write 0 (some [97]) 1 (grantOf 1) ::
    (List.range 11).map fun i => .write 0 (some [97, 10]) 2 (grantOf (i + 2))

theorem no_leak_iff_refilledRun :
    Valid System.step Call.Fresh .init refilledRun ∧
      ∀ before, before <+: refilledRun → ∀ b,
        (exec System.step .init before).kernel.heap.Live b ↔
          some b ∈ (exec System.step .init before).kernel.pointers :=
  ⟨by decide +kernel, (no_leak_iff refilledRun (by decide +kernel)).1.mpr (by decide +kernel)⟩

/-- Nothing of the first write is copied; the second write allocates again. -/
def blankRun : List Call :=
  [.write 0 (some []) 1 (grantOf 1), .write 0 (some [10]) 1 (grantOf 2)]

/-- The first block of the run stays behind. -/
theorem blank_block_leaked :
    ¬ ∀ calls : List Call, Valid System.step Call.Granted .init calls →
      (∀ b, (exec System.step .init calls).kernel.heap.Live b ↔
        some b ∈ (exec System.step .init calls).kernel.pointers) ∧
      ∀ b, ¬ (aesdCleanupModule (exec System.step .init calls).kernel).Live b := by
  intro h
  have hlive := (h blankRun (by decide)).1 1
  revert hlive
  decide

end Aesd
