import Aesd.Lib.LineLog
import Aesd.WriteCall

/-!
# Writes refine the command log

The abstract store is a `LineLog` of commands ended by a newline: the device
keeps the last ten of its lines and its pending text.
-/

namespace Aesd
open BlockHeap RingWalk StepRuns

abbrev CommandLog := LineLog newline

/-- The bytes a call brings to the device. -/
def Call.data : Call → List UInt8
  | .write _ (some buf) count env =>
    if env.interrupted = true ∨ env.grant.block = none then [] else copied buf count
  | _ => []

def commandLog (calls : List Call) : CommandLog :=
  calls.foldl (fun log c => log.write c.data) .empty

theorem commandLog_text (calls : List Call) :
    (commandLog calls).text = (calls.map Call.data).flatten := by
  have h := LineLog.text_foldl (.empty : CommandLog) (calls.map Call.data)
  rw [List.foldl_map] at h
  simpa [commandLog] using h

/-- The device represents the log. A lost pending command represents nothing. -/
structure Refines (k : Kernel) (log : CommandLog) : Prop where
  owned : k.Owned
  fits : k.Fits
  commands : k.commands = log.stored 10
  pending : ¬ k.Lost → k.pending = log.pending

theorem not_lost_init : ¬ Kernel.init.Lost := by decide

theorem refines_init : Refines .init .empty where
  owned := owned_init
  fits := fits_init
  commands := rfl
  pending _ := rfl

/-- The call does not build on pending bytes whose pointer is lost. -/
def Call.Safe (s : System) : Call → Prop
  | .write file buf count env =>
    (Call.write file buf count env).Reaches → env.grant.block ≠ none → ¬ s.kernel.Lost
  | .read .. => True

instance (s : System) : (c : Call) → Decidable (c.Safe s)
  | .write .. => inferInstanceAs (Decidable (_ → _ ≠ _ → ¬ _))
  | .read .. => isTrue trivial

theorem data_of_not_reaches {c : Call} (h : ¬ c.Reaches) : c.data = [] := by
  cases c with
  | write file buf count env =>
    cases buf with
    | none => rfl
    | some buf =>
      by_cases hi : env.interrupted = true
      · simp [Call.data, hi]
      · have hc : count = 0 := by
          by_contra hc
          exact h ⟨by simp, hc, by simpa using hi⟩
        simp [Call.data, copied, hc]
  | read => rfl

section Locked

variable {k : Kernel} {log : CommandLog} {count : UInt64} {g : Grant BlockId}

/-- A refused allocation may lose the pending bytes and changes nothing else. -/
theorem Refines.refused (h : Refines k log) (buf : List UInt8) (hg : g.block = none) :
    Refines (writeLocked k buf count g).kernel log := by
  have hcan : k.heap.CanGrant k.oldPointer g := by simp [Heap.CanGrant, hg]
  have hlim : BelowLimit k count g := fun hne => absurd hg hne
  refine ⟨h.owned.writeLocked hcan, h.fits.writeLocked h.owned hcan hlim, ?_, ?_⟩
  · rw [writeLocked_refused hg, commands_allocPending h.owned hcan, h.commands]
  · rw [writeLocked_refused hg]
    intro hl
    have hz : k.device.circleBuffEntry.size = 0 := by
      by_contra hz
      exact hl ⟨by simp [hg], by simpa using hz⟩
    have hp := h.pending fun hk => hk.2 hz
    rw [← hp]
    simp [Kernel.pending, Kernel.bytesOf, hz, Heap.contents]

theorem Refines.granted (h : Refines k log) (hl : ¬ k.Lost) (buf : List UInt8)
    (hcan : k.heap.CanGrant k.oldPointer g) {b : BlockId} (hg : g.block = some b)
    (hlim : BelowLimit k count g) :
    Refines (writeLocked k buf count g).kernel (log.write (copied buf count)) ∧
      ¬ (writeLocked k buf count g).kernel.Lost := by
  have hlt := hlim (by simp [hg])
  have hpend : (filled k buf count g).pending = log.pending ++ copied buf count := by
    rw [pending_filled h.owned h.fits hl hcan hg hlt, h.pending hl]
  have howned : (writeLocked k buf count g).kernel.Owned := h.owned.writeLocked hcan
  have hfits : (writeLocked k buf count g).kernel.Fits := h.fits.writeLocked h.owned hcan hlim
  rw [writeLocked_granted hg] at howned hfits ⊢
  -- a newline anywhere sends the whole pending entry to the ring
  by_cases hm : newline ∈ log.pending ++ copied buf count
  · have hlog := LineLog.write_of_mem hm
    have hm' : newline ∈ (filled k buf count g).pending := by rwa [hpend]
    refine ⟨⟨howned, hfits, ?_, fun _ => ?_⟩, ?_⟩
    · rw [commands_commitPending (h.owned.filled hcan) hm', commands_filled h.owned hcan, h.commands,
        hpend, LineLog.stored, LineLog.stored, hlog.1, rtake_rtake_concat]
    · rw [pending_commitPending hm', hlog.2]
    · rw [commitPending_of_mem hm']
      simp [Kernel.Lost, AesdBufferEntry.zero]
  · have hlog := LineLog.write_of_notMem hm
    have hm' : newline ∉ (filled k buf count g).pending := by rwa [hpend]
    rw [commitPending_of_not_mem hm'] at howned hfits ⊢
    refine ⟨⟨howned, hfits, ?_, fun _ => ?_⟩, ?_⟩
    · rw [commands_filled h.owned hcan, h.commands, LineLog.stored, LineLog.stored, hlog.1]
    · rw [hpend, hlog.2]
    · simp [Kernel.Lost, filled_buffptr, hg]

end Locked

/-- Every call that does not build on lost bytes is a write to the log. -/
theorem refines_step {s : System} {log : CommandLog} {c : Call} (h : Refines s.kernel log)
    (hc : c.KernelOk s) (hs : c.Safe s) : Refines (s.step c).2.kernel (log.write c.data) := by
  by_cases hr : c.Reaches
  · obtain ⟨file, buf, count, env, rfl⟩ := hr.exists_write
    rw [step_of_reaches s hr]
    cases hg : env.grant.block with
    | none => simpa [Call.data, hg, LineLog.write_nil] using h.refused buf hg
    | some b =>
      have := h.granted (hs hr (by simp [hg])) buf hc.1 hg hc.2
      simpa [Call.data, hg, hr.2.2] using this.1
  · rw [(step_of_not_reaches s hr).1, data_of_not_reaches hr, LineLog.write_nil]
    exact h

/-- A write whose arguments are valid, that gets the lock and its memory, and whose
size stays below 2^31. -/
def Call.Succeeds (s : System) : Call → Prop
  | .write _ buf count env =>
    buf ≠ none ∧ env.interrupted = false ∧ env.grant.block ≠ none ∧
      s.kernel.heap.CanGrant s.kernel.oldPointer env.grant ∧
      s.kernel.device.circleBuffEntry.size.toNat + count.toNat < 2 ^ 31
  | .read .. => False

instance (s : System) : (c : Call) → Decidable (c.Succeeds s)
  | .write _ _ _ _ => inferInstanceAs (Decidable (_ ∧ _ ∧ _ ∧ _ ∧ _))
  | .read .. => isFalse id

theorem Call.Succeeds.kernelOk {s : System} {c : Call} (h : c.Succeeds s) : c.KernelOk s := by
  cases c with
  | write => exact ⟨h.2.2.2.1, fun _ => h.2.2.2.2⟩
  | read => exact h.elim

theorem succeeds_step {s : System} {log : CommandLog} {c : Call}
    (h : Refines s.kernel log ∧ ¬ s.kernel.Lost) (hc : c.Succeeds s) :
    Refines (s.step c).2.kernel (log.write c.data) ∧ ¬ (s.step c).2.kernel.Lost := by
  by_cases hr : c.Reaches
  · obtain ⟨file, buf, count, env, rfl⟩ := hr.exists_write
    obtain ⟨b, hg⟩ := Option.ne_none_iff_exists'.mp hc.2.2.1
    rw [step_of_reaches s hr]
    simpa [Call.data, hg, hr.2.2] using
      h.1.granted h.2 buf hc.2.2.2.1 hg fun _ => hc.2.2.2.2
  · rw [(step_of_not_reaches s hr).1, data_of_not_reaches hr, LineLog.write_nil]
    exact h

theorem succeeds_run (calls : List Call) (h : Valid System.step Call.Succeeds .init calls) :
    Refines (exec System.step .init calls).kernel (commandLog calls) ∧
      ¬ (exec System.step .init calls).kernel.Lost :=
  exec_simulation (fun (s : System) log => Refines s.kernel log ∧ ¬ s.kernel.Lost)
    (fun _ _ c h hc => succeeds_step (c := c) h hc) ⟨refines_init, not_lost_init⟩ h

theorem retval_of_succeeds {s : System} {c : Call} (hc : c.Succeeds s) :
    (s.step c).1.retval.toInt = c.data.length := by
  by_cases hr : c.Reaches
  · obtain ⟨file, buf, count, env, rfl⟩ := hr.exists_write
    obtain ⟨b, hg⟩ := Option.ne_none_iff_exists'.mp hc.2.2.1
    have hlt := hc.2.2.2.2
    have hn := copyPending_fst_toNat (allocPending s.kernel count env.grant) buf count
    have hle := copied_length_le buf count
    rw [step_of_reaches s hr, writeLocked_granted hg]
    dsimp only
    rw [CInt.toInt_toInt64 (by omega), hn]
    simp [Call.data, hg, hr.2.2]
  · rw [data_of_not_reaches hr]
    cases c with
    | write file buf count env =>
      obtain ⟨buf, rfl⟩ := Option.ne_none_iff_exists'.mp hc.1
      have hz : count = 0 := by
        by_contra hz
        exact hr ⟨hc.1, hz, hc.2.1⟩
      simp [System.step, aesdWrite, hz]
    | read => exact hc.elim

theorem circleBuff_of_notMem {s : System} {log : CommandLog} {c : Call}
    (h : Refines s.kernel log ∧ ¬ s.kernel.Lost) (hc : c.Succeeds s)
    (hn : newline ∉ s.kernel.pending ++ c.data) :
    (s.step c).2.kernel.device.circleBuff = s.kernel.device.circleBuff := by
  by_cases hr : c.Reaches
  · obtain ⟨file, buf, count, env, rfl⟩ := hr.exists_write
    obtain ⟨b, hg⟩ := Option.ne_none_iff_exists'.mp hc.2.2.1
    have hd : (Call.write file (some buf) count env).data = copied buf count := by
      simp [Call.data, hg, hr.2.2]
    have hp : (filled s.kernel buf count env.grant).pending =
        s.kernel.pending ++ copied buf count :=
      pending_filled h.1.owned h.1.fits h.2 hc.2.2.2.1 hg hc.2.2.2.2
    rw [hd, ← hp] at hn
    rw [step_of_reaches s hr, writeLocked_granted hg]
    dsimp only
    rw [commitPending_of_not_mem hn, filled_circleBuff]
  · rw [(step_of_not_reaches s hr).1]

/-- **Refinement.** After any run of successful writes the ring, walked from
`out_offs`, is the last ten commands of the log and the pending entry is its
pending text; all commands and the pending text together are everything written. -/
theorem writes_refine_commandLog (calls : List Call)
    (h : Valid System.step Call.Succeeds .init calls) :
    let s := exec System.step .init calls
    let log := commandLog calls
    (s.kernel.commands = log.stored 10 ∧
      s.kernel.device.circleBuff.active.map (·.size.toNat) = (log.stored 10).map List.length) ∧
    (s.kernel.pending = log.pending ∧
      s.kernel.device.circleBuffEntry.size.toNat = log.pending.length) ∧
    log.history.flatten ++ log.pending = (calls.map Call.data).flatten ∧
    ∀ c : Call, c.Succeeds s →
      (s.step c).1.retval.toInt = c.data.length ∧
      commandLog (calls ++ [c]) = log.write c.data ∧
      if newline ∈ s.kernel.pending ++ c.data then
        (s.step c).2.kernel.commands =
          (s.kernel.commands ++ [s.kernel.pending ++ c.data]).rtake 10 ∧
        (s.step c).2.kernel.pending = []
      else
        (s.step c).2.kernel.device.circleBuff = s.kernel.device.circleBuff ∧
        (s.step c).2.kernel.commands = s.kernel.commands ∧
        (s.step c).2.kernel.pending = s.kernel.pending ++ c.data := by
  intro s log
  have hrun := succeeds_run calls h
  have hpend : s.kernel.pending = log.pending := hrun.1.pending hrun.2
  refine ⟨⟨hrun.1.commands, ?_⟩, ⟨hpend, ?_⟩, commandLog_text calls, ?_⟩
  · rw [← commands_lengths, hrun.1.commands]
  · rw [← hpend, Kernel.pending, bytesOf_length]
  · intro c hc
    have hstep := succeeds_step hrun hc
    refine ⟨retval_of_succeeds hc, by simp [log, commandLog], ?_⟩
    rw [hstep.1.commands, hstep.1.pending hstep.2]
    split_ifs with hm
    · have hw := LineLog.write_of_mem (hpend ▸ hm)
      refine ⟨?_, hw.2⟩
      rw [hrun.1.commands, LineLog.stored, LineLog.stored, hw.1, rtake_rtake_concat, hpend]
    · have hw := LineLog.write_of_notMem (hpend ▸ hm)
      refine ⟨circleBuff_of_notMem hrun hc hm, ?_, ?_⟩
      · rw [hrun.1.commands, LineLog.stored, LineLog.stored, hw.1]
      · rw [hw.2, hpend]

/-- Two files: `x` is written, then `\n` and one byte more in the same call. -/
def twoWrites : List Call :=
  [.write 3 (some [120]) 1 (grantOf 7), .write 4 (some [10, 121]) 2 (grantOf 8)]

theorem writes_refine_commandLog_twoWrites :
    (exec System.step .init twoWrites).kernel.commands = [[120, 10, 121]] :=
  (writes_refine_commandLog twoWrites (by decide)).1.1.trans (by decide)

end Aesd
