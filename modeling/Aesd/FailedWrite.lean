import Aesd.CommandLog

/-!
# Failed writes

What a write that returns a negative value leaves of the ring and of the pending bytes.
-/

namespace Aesd
open BlockHeap RingWalk StepRuns

/-- The pending bytes, while the device still has them. -/
def Kernel.held (k : Kernel) : Option (List UInt8) := if k.Lost then none else some k.pending

/-- The call has left the ring and the pending bytes, and the next line is committed
behind these bytes. -/
structure Kernel.Unharmed (k k' : Kernel) : Prop where
  circleBuff : k'.device.circleBuff = k.device.circleBuff
  commands : k'.commands = k.commands
  pending : ∃ bytes, k.held = some bytes ∧ k'.held = some bytes ∧
    ∀ (s : System) (c : Call), s.kernel = k' → c.Succeeds s → c.data.getLast? = some newline →
      (s.step c).2.kernel.commands = (k.commands ++ [bytes ++ c.data]).rtake 10 ∧
      (s.step c).2.kernel.pending = []

section Held

variable {k k' : Kernel}

theorem held_eq_some {bytes : List UInt8} : k.held = some bytes ↔ ¬ k.Lost ∧ k.pending = bytes := by
  unfold Kernel.held
  split_ifs with hl
  · simp [hl]
  · simp [hl]

theorem commit_of_succeeds {s : System} (ho : s.kernel.Owned) (hf : s.kernel.Fits)
    (hl : ¬ s.kernel.Lost) {c : Call} (hc : c.Succeeds s) (hline : c.data.getLast? = some newline) :
    (s.step c).2.kernel.commands = (s.kernel.commands ++ [s.kernel.pending ++ c.data]).rtake 10 ∧
      (s.step c).2.kernel.pending = [] := by
  have hmem : newline ∈ c.data := List.mem_of_getLast? hline
  have hr : c.Reaches := by
    by_contra hr
    rw [data_of_not_reaches hr] at hmem
    exact List.not_mem_nil hmem
  obtain ⟨file, buf, count, env, rfl⟩ := hr.exists_write
  obtain ⟨b, hg⟩ := Option.ne_none_iff_exists'.mp hc.2.2.1
  have hcan := hc.2.2.2.1
  have hdata : (Call.write file (some buf) count env).data = copied buf count := by
    simp [Call.data, hg, hr.2.2]
  have hpend : (filled s.kernel buf count env.grant).pending = s.kernel.pending ++ copied buf count :=
    pending_filled ho hf hl hcan hg hc.2.2.2.2
  rw [hdata] at hmem ⊢
  have hm : newline ∈ (filled s.kernel buf count env.grant).pending := by
    rw [hpend]
    exact List.mem_append_right _ hmem
  rw [step_of_reaches s hr, writeLocked_granted hg]
  refine ⟨?_, pending_commitPending hm⟩
  rw [commands_commitPending (ho.filled hcan) hm, commands_filled ho hcan, hpend]

/-- The ring and the pending bytes are all that the next commit depends on. -/
theorem Kernel.Unharmed.intro (ho : k'.Owned) (hf : k'.Fits)
    (hring : k'.device.circleBuff = k.device.circleBuff) (hcommands : k'.commands = k.commands)
    (hl : ¬ k.Lost) (hl' : ¬ k'.Lost) (hpending : k'.pending = k.pending) : k.Unharmed k' where
  circleBuff := hring
  commands := hcommands
  pending := by
    refine ⟨k.pending, held_eq_some.mpr ⟨hl, rfl⟩, held_eq_some.mpr ⟨hl', hpending⟩, ?_⟩
    rintro s c rfl hc hline
    rw [← hcommands, ← hpending]
    exact commit_of_succeeds ho hf hl' hc hline

end Held

section Call

variable {k : Kernel} {filp : Option File} {buf : Option (List UInt8)} {count : UInt64}
  {fPos : Option Int64} {env : WriteEnv}

/-- An argument is NULL or the wait for the lock is interrupted: the write gives up before
it asks for memory. -/
def GivesUp (filp : Option File) (buf : Option (List UInt8)) (fPos : Option Int64)
    (env : WriteEnv) : Prop :=
  filp = none ∨ buf = none ∨ fPos = none ∨ env.interrupted = true

theorem retval_granted_nonneg {buf : List UInt8} {b : BlockId} (hg : env.grant.block = some b)
    (hlim : BelowLimit k count env.grant) :
    ¬ (writeLocked k buf count env.grant).retval < 0 := by
  have hlt := hlim (by simp [hg])
  have hn := copyPending_fst_toNat (allocPending k count env.grant) buf count
  have hle := copied_length_le buf count
  rw [writeLocked_granted hg, Int64.lt_iff_toInt_lt]
  dsimp only
  rw [CInt.toInt_toInt64 (by omega)]
  simp

/-- A negative answer comes before the allocation, or from it. -/
theorem aesdWrite_failed (hlim : BelowLimit k count env.grant)
    (hret : (aesdWrite k filp buf count fPos env).retval < 0) :
    (GivesUp filp buf fPos env ∧ (aesdWrite k filp buf count fPos env).kernel = k) ∨
    (¬ GivesUp filp buf fPos env ∧ env.grant.block = none ∧
      (aesdWrite k filp buf count fPos env).kernel = allocPending k count env.grant) := by
  cases filp with
  | none => exact .inl ⟨.inl rfl, rfl⟩
  | some filp =>
    cases buf with
    | none => exact .inl ⟨.inr (.inl rfl), rfl⟩
    | some buf =>
      cases fPos with
      | none => exact .inl ⟨.inr (.inr (.inl rfl)), rfl⟩
      | some fPos =>
        simp only [aesdWrite] at hret ⊢
        split_ifs at hret ⊢ with hzero hintr
        · exact absurd hret Int64.lt_irrefl
        · exact .inl ⟨.inr (.inr (.inr hintr)), rfl⟩
        -- behind the lock only a refused allocation answers with an error
        · refine .inr ⟨by simp [GivesUp, hintr], ?_⟩
          cases hg : env.grant.block with
          | none => exact ⟨rfl, by rw [writeLocked_refused hg]⟩
          | some b => exact absurd hret (retval_granted_nonneg hg hlim)

/-- A refused allocation has overwritten the pointer, which matters if bytes are behind it. -/
theorem unharmed_allocPending_iff (ho : k.Owned) (hf : k.Fits)
    (hcan : k.heap.CanGrant k.oldPointer env.grant) (hg : env.grant.block = none) :
    k.Unharmed (allocPending k count env.grant) ↔
      ¬ k.Lost ∧ k.device.circleBuffEntry.size = 0 := by
  have hentry : (allocPending k count env.grant).device.circleBuffEntry =
      ⟨none, k.device.circleBuffEntry.size⟩ := by
    rw [allocPending_device, hg]
  constructor
  · intro hu
    obtain ⟨bytes, hheld, hheld', _⟩ := hu.pending
    refine ⟨(held_eq_some.mp hheld).1, ?_⟩
    by_contra hz
    -- the size still counts bytes, and the pointer to them is NULL
    apply (held_eq_some.mp hheld').1
    rw [Kernel.Lost, hentry]
    exact ⟨rfl, hz⟩
  · rintro ⟨hl, hz⟩
    have hfits : (allocPending k count env.grant).Fits :=
      ⟨by simpa using hf.ring, by simpa using hf.pending, by simp [hg]⟩
    have hl' : ¬ (allocPending k count env.grant).Lost := by
      rw [Kernel.Lost, hentry]
      exact fun hlost => hlost.2 hz
    have hpending : (allocPending k count env.grant).pending = k.pending := by
      rw [Kernel.pending, Kernel.pending, hentry]
      simp [Kernel.bytesOf, hz, Heap.contents]
    exact .intro (ho.allocPending hcan) hfits (by simp) (commands_allocPending ho hcan) hl hl' hpending

end Call

/-- **Failed writes.** In every reachable state a write that returns a negative value leaves
the ring and the pending bytes exactly when these are not lost already and the write does
not ask for a larger block for them. -/
theorem failed_write_unharmed_iff (calls : List Call)
    (h : Valid System.step Call.KernelOk .init calls) (filp : Option File)
    (buf : Option (List UInt8)) (count : UInt64) (fPos : Option Int64) (env : WriteEnv)
    (hcan : (exec System.step .init calls).kernel.heap.CanGrant
      (exec System.step .init calls).kernel.oldPointer env.grant)
    (hlim : BelowLimit (exec System.step .init calls).kernel count env.grant)
    (hret : (aesdWrite (exec System.step .init calls).kernel filp buf count fPos env).retval < 0) :
    let k := (exec System.step .init calls).kernel
    k.Unharmed (aesdWrite k filp buf count fPos env).kernel ↔
      ¬ k.Lost ∧ (GivesUp filp buf fPos env ∨ k.device.circleBuffEntry.size = 0) := by
  intro k
  obtain ⟨ho, hf⟩ : k.Owned ∧ k.Fits := fits_run ⟨owned_init, fits_init⟩ h
  rcases aesdWrite_failed hlim hret with ⟨hearly, hkernel⟩ | ⟨hreach, hg, hkernel⟩
  -- the device is as it was, so only bytes lost before can be missing
  · rw [hkernel]
    constructor
    · intro hu
      obtain ⟨bytes, hheld, _⟩ := hu.pending
      exact ⟨(held_eq_some.mp hheld).1, .inl hearly⟩
    · rintro ⟨hl, _⟩
      exact .intro ho hf rfl rfl hl hl rfl
  · rw [hkernel, unharmed_allocPending_iff ho hf hcan hg]
    simp only [hreach, false_or]

def pendingRun : List Call := [.write 0 (some [97]) 1 (grantOf 1)]

theorem failed_write_unharmed_iff_interrupted :
    (exec System.step .init pendingRun).kernel.Unharmed
      (aesdWrite (exec System.step .init pendingRun).kernel (some ⟨0⟩) (some [98]) 1 (some 0)
        ⟨true, (grantOf 2).grant⟩).kernel :=
  (failed_write_unharmed_iff pendingRun (by decide) (some ⟨0⟩) (some [98]) 1 (some 0)
    ⟨true, (grantOf 2).grant⟩ (by decide) (by unfold BelowLimit; decide) (by decide)).mpr
    ⟨by decide, .inl (.inr (.inr (.inr rfl)))⟩

/-- A `krealloc` that returns NULL takes the pending byte with it. -/
theorem failed_krealloc_harms :
    ¬ ∀ (calls : List Call) (filp : Option File) (buf : Option (List UInt8)) (count : UInt64)
      (fPos : Option Int64) (env : WriteEnv), Valid System.step Call.KernelOk .init calls →
      (exec System.step .init calls).kernel.heap.CanGrant
        (exec System.step .init calls).kernel.oldPointer env.grant →
      BelowLimit (exec System.step .init calls).kernel count env.grant →
      (aesdWrite (exec System.step .init calls).kernel filp buf count fPos env).retval < 0 →
      (exec System.step .init calls).kernel.Unharmed
        (aesdWrite (exec System.step .init calls).kernel filp buf count fPos env).kernel := by
  intro h
  have hu := h pendingRun (some ⟨0⟩) (some [98]) 1 (some 0) ⟨false, ⟨none, fun _ => 0⟩⟩ (by decide)
    (by decide) (by unfold BelowLimit; decide) (by decide)
  obtain ⟨bytes, _, hheld, _⟩ := hu.pending
  apply (held_eq_some.mp hheld).1
  decide

end Aesd
