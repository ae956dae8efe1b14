import Aesd.SequentialRead
import Mathlib.Data.List.Infix

/-!
# Uninitialised memory

Two runs that differ only in what fresh blocks hold. As long as no write builds on
pending bytes that a failed `krealloc` has lost, readers cannot tell them apart.
-/

namespace Aesd
open BlockHeap StepRuns Segments

/-- The same call, but a fresh block may hold other bytes. -/
inductive Call.SameInputs : Call → Call → Prop
  | write (file : ℕ) (buf : Option (List UInt8)) (count : UInt64) (interrupted : Bool)
      (block : Option BlockId) (junk junk' : ℕ → UInt8) :
      SameInputs (.write file buf count ⟨interrupted, ⟨block, junk⟩⟩)
        (.write file buf count ⟨interrupted, ⟨block, junk'⟩⟩)
  | read (file : ℕ) (buf : Option ℕ) (count : UInt64) (interrupted : Bool) :
      SameInputs (.read file buf count interrupted) (.read file buf count interrupted)

/-- The two kernels differ at most in the bytes of their blocks. -/
structure Kernel.Twin (k k' : Kernel) : Prop where
  device : k.device = k'.device
  live : ∀ b, k.heap.Live b ↔ k'.heap.Live b

section Twin

variable {k k' : Kernel} {buf : List UInt8} {count : UInt64} {block : Option BlockId}
  {junk junk' : ℕ → UInt8}

theorem Kernel.Twin.oldPointer (h : k.Twin k') : k.oldPointer = k'.oldPointer := by
  rw [Kernel.oldPointer, Kernel.oldPointer, h.device]

theorem Kernel.Twin.canGrant (h : k.Twin k') {old : Option BlockId}
    (hg : k.heap.CanGrant old ⟨block, junk⟩) : k'.heap.CanGrant old ⟨block, junk'⟩ := by
  intro b hb
  rw [← h.live b]
  exact hg b hb

theorem Kernel.Twin.allocPending (h : k.Twin k') :
    (allocPending k count ⟨block, junk⟩).Twin (allocPending k' count ⟨block, junk'⟩) := by
  refine ⟨by rw [allocPending_device, allocPending_device, h.device], fun b => ?_⟩
  rw [allocPending_heap, allocPending_heap, h.oldPointer]
  cases block with
  | none => rw [Heap.krealloc_fail rfl, Heap.krealloc_fail rfl, h.live b]
  | some c => rw [Heap.live_krealloc (b := c) rfl, Heap.live_krealloc (b := c) rfl, h.live b]

theorem Kernel.Twin.copyPending (h : k.Twin k') :
    (copyPending k buf count).1 = (copyPending k' buf count).1 ∧
      (copyPending k buf count).2.Twin (copyPending k' buf count).2 := by
  have hcount : (Aesd.copyPending k buf count).1 = (Aesd.copyPending k' buf count).1 := rfl
  refine ⟨hcount, by rw [copyPending_device, copyPending_device, h.device, hcount], fun b => ?_⟩
  rw [copyPending_heap, copyPending_heap, Heap.live_store, Heap.live_store, h.live b]

theorem Kernel.Twin.filled (h : k.Twin k') :
    (filled k buf count ⟨block, junk⟩).Twin (filled k' buf count ⟨block, junk'⟩) :=
  h.allocPending.copyPending.2

/-- The search for a newline goes the same way when the pending bytes are the same. -/
theorem Kernel.Twin.commitPending (h : k.Twin k') (hp : k.pending = k'.pending) :
    (commitPending k).1 = (commitPending k').1 ∧
      (commitPending k).2.Twin (commitPending k').2 := by
  by_cases hm : newline ∈ k.pending
  · rw [commitPending_of_mem hm, commitPending_of_mem (hp ▸ hm), h.device]
    refine ⟨rfl, rfl, fun b => ?_⟩
    rw [Heap.live_kfree, Heap.live_kfree, h.live b]
  · rw [commitPending_of_not_mem hm, commitPending_of_not_mem (hp ▸ hm)]
    exact ⟨rfl, h⟩

theorem Kernel.Twin.lost (h : k.Twin k') : k.Lost ↔ k'.Lost := by
  rw [Kernel.Lost, Kernel.Lost, h.device]

end Twin

/-- Two systems that hold the same log, and differ at most in the bytes of their blocks. -/
structure System.Alike (s s' : System) : Prop where
  twin : s.kernel.Twin s'.kernel
  fPos : s.fPos = s'.fPos
  nonneg : ∀ file, 0 ≤ s.fPos file
  log : ∃ log, Refines s.kernel log ∧ Refines s'.kernel log

theorem alike_init : System.init.Alike .init where
  twin := ⟨rfl, fun _ => Iff.rfl⟩
  fPos := rfl
  nonneg _ := Int64.le_refl _
  log := ⟨_, refines_init, refines_init⟩

section Step

variable {s s' : System} {c c' : Call}

theorem Kernel.Twin.kernelOk (h : s.kernel.Twin s'.kernel) (hcc : c.SameInputs c')
    (hc : c.KernelOk s) :
    c'.KernelOk s' := by
  cases hcc with
  | write file buf count interrupted block junk junk' =>
    obtain ⟨hg, hlim⟩ := hc
    refine ⟨?_, ?_⟩
    · change s'.kernel.heap.CanGrant s'.kernel.oldPointer ⟨block, junk'⟩
      rw [← h.oldPointer]
      exact h.canGrant hg
    · intro hb
      rw [← h.device]
      exact hlim hb
  | read => exact hc

theorem Kernel.Twin.safe (h : s.kernel.Twin s'.kernel) (hcc : c.SameInputs c') (hs : c.Safe s) :
    c'.Safe s' := by
  cases hcc with
  | write file buf count interrupted block junk junk' =>
    intro hr hb
    rw [← h.lost]
    exact hs hr hb
  | read => trivial

theorem SameInputs.data (hcc : c.SameInputs c') : c.data = c'.data := by
  cases hcc with
  | write file buf count interrupted block junk junk' => cases buf <;> rfl
  | read => rfl

theorem write_alike {log : CommandLog} (h : s.kernel.Twin s'.kernel) (hl : Refines s.kernel log)
    (hl' : Refines s'.kernel log) {buf : List UInt8} {count : UInt64} {block : Option BlockId}
    {junk junk' : ℕ → UInt8} (hcan : s.kernel.heap.CanGrant s.kernel.oldPointer ⟨block, junk⟩)
    (hlim : BelowLimit s.kernel count ⟨block, junk⟩) (hlost : block ≠ none → ¬ s.kernel.Lost) :
    let out := writeLocked s.kernel buf count ⟨block, junk⟩
    let out' := writeLocked s'.kernel buf count ⟨block, junk'⟩
    out.retval = out'.retval ∧ out.freed = out'.freed ∧ out.kernel.Twin out'.kernel := by
  intro out out'
  cases block with
  | none =>
    have hout : out = ⟨-ENOMEM, allocPending s.kernel count ⟨none, junk⟩, none⟩ :=
      writeLocked_refused rfl
    have hout' : out' = ⟨-ENOMEM, allocPending s'.kernel count ⟨none, junk'⟩, none⟩ :=
      writeLocked_refused rfl
    rw [hout, hout']
    exact ⟨rfl, rfl, h.allocPending⟩
  | some b =>
    have hlt := hlim (by simp)
    have hnl := hlost (by simp)
    have hcan' : s'.kernel.heap.CanGrant s'.kernel.oldPointer ⟨some b, junk'⟩ := by
      rw [← h.oldPointer]
      exact h.canGrant hcan
    -- both runs have the pending bytes of the log, whatever the fresh block held
    have hpend : (filled s.kernel buf count ⟨some b, junk⟩).pending =
        (filled s'.kernel buf count ⟨some b, junk'⟩).pending := by
      rw [pending_filled hl.owned hl.fits hnl hcan rfl hlt, hl.pending hnl,
        pending_filled hl'.owned hl'.fits (h.lost.not.mp hnl) hcan' rfl (h.device ▸ hlt),
        hl'.pending (h.lost.not.mp hnl)]
    obtain ⟨hfreed, htwin⟩ := Kernel.Twin.commitPending h.filled hpend
    have hout : out = ⟨_, (commitPending (filled s.kernel buf count ⟨some b, junk⟩)).2,
        (commitPending (filled s.kernel buf count ⟨some b, junk⟩)).1⟩ := writeLocked_granted rfl
    have hout' : out' = ⟨_, (commitPending (filled s'.kernel buf count ⟨some b, junk'⟩)).2,
        (commitPending (filled s'.kernel buf count ⟨some b, junk'⟩)).1⟩ := writeLocked_granted rfl
    rw [hout, hout']
    exact ⟨rfl, hfreed, htwin⟩

/-- A read's answer depends on the stored text and the position only. -/
theorem read_alike (h : s.Alike s') (file : ℕ) (buf : Option ℕ) (count : UInt64)
    (interrupted : Bool) :
    aesdRead s.kernel (some ⟨s.fPos file⟩) buf count (some (s.fPos file)) interrupted =
      aesdRead s'.kernel (some ⟨s'.fPos file⟩) buf count (some (s'.fPos file)) interrupted := by
  obtain ⟨log, hl, hl'⟩ := h.log
  rw [← h.fPos]
  cases buf with
  | none => rfl
  | some room =>
    cases interrupted
    · have hread := aesdRead_spec hl.owned hl.fits ⟨s.fPos file⟩ room count (h.nonneg file)
      have hread' := aesdRead_spec hl'.owned hl'.fits ⟨s.fPos file⟩ room count (h.nonneg file)
      rw [hread, hread', hl.commands, hl'.commands]
    · rfl

theorem alike_step (h : s.Alike s') (hcc : c.SameInputs c') (hc : c.KernelOk s) (hs : c.Safe s) :
    (s.step c).1 = (s'.step c').1 ∧ (s.step c).2.Alike (s'.step c').2 := by
  obtain ⟨log, hl, hl'⟩ := h.log
  have hlog : ∃ log, Refines (s.step c).2.kernel log ∧ Refines (s'.step c').2.kernel log :=
    ⟨log.write c.data, refines_step hl hc hs, by
      rw [SameInputs.data hcc]
      exact refines_step hl' (h.twin.kernelOk hcc hc) (h.twin.safe hcc hs)⟩
  have hnonneg (file : ℕ) : 0 ≤ (s.step c).2.fPos file :=
    (readOn_step hl.owned hl.fits (h.nonneg file) c).2.1
  cases hcc with
  | write file buf count interrupted block junk junk' =>
    by_cases hr : (Call.write file buf count ⟨interrupted, ⟨block, junk⟩⟩).Reaches
    · have hr' : (Call.write file buf count ⟨interrupted, ⟨block, junk'⟩⟩).Reaches := hr
      obtain ⟨buf, rfl⟩ := Option.ne_none_iff_exists'.mp hr.1
      obtain ⟨hret, hfreed, htwin⟩ := write_alike h.twin hl hl' hc.1 hc.2 (hs hr)
      rw [step_of_reaches s hr] at hlog hnonneg ⊢
      rw [step_of_reaches s' hr'] at hlog ⊢
      refine ⟨?_, htwin, h.fPos, hnonneg, hlog⟩
      rw [hret, hfreed]
    · have hr' : ¬ (Call.write file buf count ⟨interrupted, ⟨block, junk'⟩⟩).Reaches := hr
      refine ⟨?_, ?_, h.fPos, hnonneg, hlog⟩
      · simp only [System.step, aesdWrite]
        cases buf with
        | none => rfl
        | some buf =>
          dsimp only
          split_ifs with hz hi
          · rfl
          · rfl
          · exact absurd ⟨by simp, hz, by simpa using hi⟩ hr
      · rw [(step_of_not_reaches s hr).1, (step_of_not_reaches s' hr').1]
        exact h.twin
  | read file buf count interrupted =>
    have hread := read_alike h file buf count interrupted
    simp only [System.step] at hlog hnonneg ⊢
    rw [hread, h.fPos] at hnonneg ⊢
    exact ⟨rfl, h.twin, rfl, hnonneg, hlog⟩

end Step

/-- The run holds the log of what was written, and no position turns negative. -/
theorem refines_run {calls : List Call} (hk : Valid System.step Call.KernelOk .init calls)
    (hs : Valid System.step Call.Safe .init calls) :
    Refines (exec System.step .init calls).kernel (commandLog calls) ∧
      ∀ file, 0 ≤ (exec System.step .init calls).fPos file := by
  have hinit : Refines System.init.kernel .empty ∧ ∀ file, 0 ≤ System.init.fPos file :=
    ⟨refines_init, fun _ => Int64.le_refl 0⟩
  apply exec_simulation (fun (s : System) log => Refines s.kernel log ∧ ∀ file, 0 ≤ s.fPos file)
    ?_ hinit (hk.and hs)
  intro s log c h hc
  refine ⟨refines_step h.1 hc.1 hc.2, fun file => ?_⟩
  exact (readOn_step h.1.owned h.1.fits (h.2 file) c).2.1

/-- What a call delivers was written by earlier calls. -/
theorem bytes_written {before : List Call} (hk : Valid System.step Call.KernelOk .init before)
    (hs : Valid System.step Call.Safe .init before) (c : Call) :
    ((exec System.step .init before).step c).1.bytes <:+: (before.map Call.data).flatten := by
  obtain ⟨href, hpos⟩ := refines_run hk hs
  cases c with
  | write => exact List.nil_infix
  | read file buf count interrupted =>
    obtain ⟨⟨n, hn⟩, _⟩ := readOn_step href.owned href.fits (hpos file)
      (.read file buf count interrupted)
    rw [Call.readOn, if_pos rfl] at hn
    have hstored : (exec System.step .init before).kernel.commands.flatten <:+:
        (commandLog before).text := by
      rw [href.commands]
      have hlast : ((commandLog before).stored 10).flatten <:+ (commandLog before).history.flatten :=
        (List.drop_suffix _ _).flatten
      exact hlast.isInfix.trans (List.prefix_append _ _).isInfix
    rw [hn, ← commandLog_text]
    exact (readAt_isPrefix _ _ _).isInfix.trans ((List.drop_suffix _ _).isInfix.trans hstored)

/-- **Noninterference.** When no granted write builds on lost pending bytes, the answers
do not depend on what fresh blocks hold, and every byte read was written before. -/
theorem replies_independent_of_junk (calls calls' : List Call)
    (hk : Valid System.step Call.KernelOk .init calls)
    (hs : Valid System.step Call.Safe .init calls) (h : List.Forall₂ Call.SameInputs calls calls') :
    replies System.step .init calls = replies System.step .init calls' ∧
      ∀ before c after, calls = before ++ c :: after →
        ((exec System.step .init before).step c).1.bytes <:+: (before.map Call.data).flatten := by
  refine ⟨?_, ?_⟩
  · have hstep : ∀ (s s' : System) (c c' : Call), s.Alike s' → c.SameInputs c' →
        c.KernelOk s ∧ c.Safe s → (s.step c).1 = (s'.step c').1 ∧ (s.step c).2.Alike (s'.step c').2 :=
      fun _ _ _ _ hss hcc hc => alike_step hss hcc hc.1 hc.2
    exact replies_eq_of_lockstep System.Alike hstep alike_init h (hk.and hs)
  · rintro before c after rfl
    exact bytes_written ((valid_append _ _ _).mp hk).1 ((valid_append _ _ _).mp hs).1 c

/-- `a` is pending, a `krealloc` fails, and the next line goes into a fresh block of `junk`. -/
def lostRun (junk : UInt8) : List Call :=
  [.write 0 (some [97]) 1 ⟨false, ⟨some 1, fun _ => junk⟩⟩,
    .write 0 (some [98]) 1 ⟨false, ⟨none, fun _ => junk⟩⟩,
    .write 0 (some [98, 10]) 2 ⟨false, ⟨some 2, fun _ => junk⟩⟩,
    .read 1 (some 10) 10 false]

def unlostRun (junk : UInt8) : List Call := (lostRun junk).eraseIdx 1

theorem replies_independent_of_junk_unlostRun :
    replies System.step .init (unlostRun 170) = replies System.step .init (unlostRun 171) :=
  (replies_independent_of_junk (unlostRun 170) (unlostRun 171) (by decide)
    (by decide)
    (.cons (.write ..) (.cons (.write ..) (.cons (.read ..) .nil)))).1

/-- The fresh block's first byte is read in place of the lost one. -/
theorem junk_read_after_failed_krealloc :
    ¬ ∀ calls calls' : List Call, Valid System.step Call.KernelOk .init calls →
      Valid System.step Call.KernelOk .init calls' → List.Forall₂ Call.SameInputs calls calls' →
      (replies System.step .init calls).map (·.bytes) =
        (replies System.step .init calls').map (·.bytes) := by
  intro h
  have hsame := h (lostRun 170) (lostRun 171) (by decide) (by decide)
    (.cons (.write ..) (.cons (.write ..) (.cons (.write ..) (.cons (.read ..) .nil))))
  revert hsame
  decide

end Aesd
