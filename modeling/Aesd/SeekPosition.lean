import Aesd.Seek
import Aesd.Interleaving

/-!
# Where a seek leads

`struct aesd_seekto` counts the stored commands from the oldest. The driver counts
slots of the array, and adds to the position it finds.
-/

namespace Aesd
open StepRuns Segments RingWalk

/-- The offset is inside the stored command of this number, counted from the oldest. -/
def Kernel.Names (k : Kernel) (writeCmd writeCmdOffset : UInt32) : Prop :=
  ∃ h : writeCmd.toNat < k.commands.length, writeCmdOffset.toNat < k.commands[writeCmd.toNat].length

instance (k : Kernel) (writeCmd writeCmdOffset : UInt32) :
    Decidable (k.Names writeCmd writeCmdOffset) := inferInstanceAs (Decidable (∃ _, _))

/-- The position of the named byte in the stored text. -/
def Kernel.positionOf (k : Kernel) (writeCmd writeCmdOffset : UInt32) : ℕ :=
  ((k.commands.take writeCmd.toNat).map List.length).sum + writeCmdOffset.toNat

/-- The seek is accepted and leads to the byte that the pair names: by the position, for the
search, and for the next read. -/
structure Kernel.Lands (k : Kernel) (out : SeekOutcome) (writeCmd writeCmdOffset : UInt32) :
    Prop where
  result : out.result = 0
  fPos : out.fPos.toInt = k.positionOf writeCmd writeCmdOffset
  found : ∀ rtn, k.device.circleBuff.findEntryOffsetForFpos out.fPos.toUInt64 rtn =
    (some ((k.device.circleBuff.outOffs + writeCmd.toNat) % 10), writeCmdOffset.toUInt64)
  next : ∀ count room, 0 < count → 0 < room →
    (aesdRead k (some ⟨out.fPos⟩) (some room) count (some out.fPos) false).bytes.head? =
      (k.commands[writeCmd.toNat]?).bind (·[writeCmdOffset.toNat]?)

section Numbering

variable {k : Kernel} {writeCmd writeCmdOffset : UInt32} {beyond : UInt64} {interrupted : Bool}

theorem Kernel.Names.locate (h : k.Names writeCmd writeCmdOffset) :
    locate (k.commands.map List.length) (k.positionOf writeCmd writeCmdOffset) =
      some (writeCmd.toNat, writeCmdOffset.toNat) := by
  obtain ⟨hcmd, hoff⟩ := h
  apply locate_eq_some.mpr
  exact ⟨by simpa using hcmd, by simpa using hoff, by rw [Kernel.positionOf, List.map_take]⟩

/-- The search and the read agree with the numbering of the commands. -/
theorem Kernel.Names.lands (h : k.Names writeCmd writeCmdOffset) (ho : k.Owned) (hf : k.Fits)
    {out : SeekOutcome} (hresult : out.result = 0) (h0 : 0 ≤ out.fPos)
    (hpos : out.fPos.toNatClampNeg = k.positionOf writeCmd writeCmdOffset) :
    k.Lands out writeCmd writeCmdOffset where
  result := hresult
  fPos := by rw [← Int64.cast_toNatClampNeg _ h0, hpos]
  found rtn := by
    have hoffset : UInt64.ofNat writeCmdOffset.toNat = writeCmdOffset.toUInt64 := by
      rw [← UInt32.toNat_toUInt64, UInt64.ofNat_toNat]
    rw [AesdCircularBuffer.find_spec ho.ring hf.ring, sizes_eq, Int64.toNat_toUInt64_of_le h0, hpos,
      h.locate, ← hoffset]
    rfl
  next count room hcount hroom := by
    have hmin : 0 < min count.toNat room := by
      rw [UInt64.lt_iff_toNat_lt, UInt64.toNat_zero] at hcount
      omega
    rw [aesdRead_spec ho hf ⟨out.fPos⟩ room count h0, hpos]
    exact head?_readAt h.locate hmin

/-- While `out_offs` is 0 the slots are numbered like the commands. -/
theorem slotSizes_eq_take (hout : k.device.circleBuff.outOffs = 0) {n : ℕ}
    (hn : n ≤ k.commands.length) :
    k.device.circleBuff.slotSizes n = (k.commands.take n).map List.length := by
  have hcount : n ≤ k.device.circleBuff.count := by simpa [Kernel.commands] using hn
  have hten := k.device.circleBuff.count_le
  apply List.ext_getElem
  · simp [AesdCircularBuffer.slotSizes, hn]
  · intro i hi _
    have hin : i < n := by simpa [AesdCircularBuffer.slotSizes] using hi
    simp [AesdCircularBuffer.slotSizes, Kernel.commands, AesdCircularBuffer.active, hout,
      Nat.mod_eq_of_lt (show i < 10 by omega)]

theorem slot_size_eq (hout : k.device.circleBuff.outOffs = 0)
    (hcmd : writeCmd.toNat < k.commands.length) :
    (k.device.circleBuff.slot writeCmd.toNat).size.toNat = k.commands[writeCmd.toNat].length := by
  have hcount : writeCmd.toNat < k.device.circleBuff.count := by simpa [Kernel.commands] using hcmd
  have hten := k.device.circleBuff.count_le
  simp [Kernel.commands, AesdCircularBuffer.active, hout,
    Nat.mod_eq_of_lt (show writeCmd.toNat < 10 by omega)]

theorem seekRefused_iff (hcmd : writeCmd.toNat < 10) :
    SeekRefused k writeCmd writeCmdOffset beyond interrupted ↔
      interrupted = true ∨
        (k.device.circleBuff.slot writeCmd.toNat).size.toNat ≤ writeCmdOffset.toNat := by
  have hno : ¬ maxWriteOperationsSupported < writeCmd.toNat := Nat.not_lt.mpr hcmd.le
  rw [SeekRefused, AesdCircularBuffer.sizeAt, if_pos hcmd, UInt64.le_iff_toNat_le,
    UInt32.toNat_toUInt64]
  simp only [hno, false_or]

end Numbering

/-- **Valid seeks.** On a fresh file a seek to a stored byte lands on it exactly when the
slot of that number holds the offset and the slots before it are as long together as the
commands before it. Until the ring wraps they are. -/
theorem seek_lands_iff (calls : List Call) (h : Valid System.step Call.Succeeds .init calls)
    (writeCmd writeCmdOffset : UInt32) (beyond : UInt64) (interrupted : Bool)
    (hn : (exec System.step .init calls).kernel.Names writeCmd writeCmdOffset) :
    let k := (exec System.step .init calls).kernel
    let out := aesdIoctl k (some ⟨0⟩) aesdcharIocseekto ⟨true, some (writeCmd, writeCmdOffset)⟩
      beyond interrupted
    (k.Lands out writeCmd writeCmdOffset ↔
      interrupted = false ∧
      writeCmdOffset.toNat < (k.device.circleBuff.slot writeCmd.toNat).size.toNat ∧
      (k.device.circleBuff.slotSizes writeCmd.toNat).sum =
        ((k.commands.take writeCmd.toNat).map List.length).sum) ∧
    (k.device.circleBuff.outOffs = 0 →
      (k.Lands out writeCmd writeCmdOffset ↔ interrupted = false)) := by
  intro k out
  have ho : k.Owned := (succeeds_run calls h).1.owned
  have hf : k.Fits := (succeeds_run calls h).1.fits
  have hcmd : writeCmd.toNat < k.commands.length := hn.1
  have hoff : writeCmdOffset.toNat < k.commands[writeCmd.toNat].length := hn.2
  have hten : writeCmd.toNat < 10 := hcmd.trans_le (commands_length_le k)
  have hout : out = aesdAdjustFileOffset k ⟨0⟩ writeCmd writeCmdOffset beyond interrupted :=
    aesdIoctl_seekto k ⟨0⟩ writeCmd writeCmdOffset beyond interrupted
  have hresult := aesdAdjustFileOffset_result k ⟨0⟩ writeCmd writeCmdOffset beyond interrupted
  rw [← hout] at hresult
  -- where an accepted seek from position 0 leads
  have hfPos (hr : ¬ SeekRefused k writeCmd writeCmdOffset beyond interrupted) : 0 ≤ out.fPos ∧
      out.fPos.toNatClampNeg =
        (k.device.circleBuff.slotSizes writeCmd.toNat).sum + writeCmdOffset.toNat := by
    have hstart : 0 ≤ (File.mk 0).fPos := Int64.le_refl 0
    simpa [← hout] using aesdAdjustFileOffset_fPos ho hf hstart (by decide) hr
  have hiff : k.Lands out writeCmd writeCmdOffset ↔ interrupted = false ∧
      writeCmdOffset.toNat < (k.device.circleBuff.slot writeCmd.toNat).size.toNat ∧
      (k.device.circleBuff.slotSizes writeCmd.toNat).sum =
        ((k.commands.take writeCmd.toNat).map List.length).sum := by
    constructor
    · intro hl
      -- the two positions differ by the two sums of sizes
      have hr := mt hresult.mpr (not_not.mpr hl.result)
      obtain ⟨h0, hpos⟩ := hfPos hr
      rw [seekRefused_iff hten, not_or] at hr
      have hsame := hl.fPos
      rw [← Int64.cast_toNatClampNeg _ h0, hpos, Int.ofNat_inj, Kernel.positionOf] at hsame
      exact ⟨by simpa using hr.1, by omega, by omega⟩
    · rintro ⟨hintr, hsize, hsum⟩
      have hr : ¬ SeekRefused k writeCmd writeCmdOffset beyond interrupted := by
        rw [seekRefused_iff hten, not_or]
        exact ⟨by simp [hintr], by omega⟩
      obtain ⟨h0, hpos⟩ := hfPos hr
      apply hn.lands ho hf (not_not.mp (mt hresult.mp hr)) h0
      rw [hpos, hsum]
      rfl
  refine ⟨hiff, fun hzero => ?_⟩
  rw [hiff, slotSizes_eq_take hzero hcmd.le, slot_size_eq hzero hcmd]
  exact ⟨fun hcond => hcond.1, fun hintr => ⟨hintr, hoff, rfl⟩⟩

/-- Line `i` of these lengths, written through file 1. -/
def linesOf (lengths : List ℕ) : List Call :=
  lengths.zipIdx.map fun (n, i) =>
    .write 1 (some (List.replicate (n - 1) 97 ++ [newline])) (UInt64.ofNat n) (grantOf i)

/-- Nine lines of one byte behind the oldest, and a last one of two bytes in slot 0. -/
def wrappedRun : List Call := linesOf (List.replicate 10 1 ++ [2])

theorem seek_lands_iff_wrappedRun :
    (exec System.step .init wrappedRun).kernel.Lands
      (aesdIoctl (exec System.step .init wrappedRun).kernel (some ⟨0⟩) aesdcharIocseekto
        ⟨true, some (0, 0)⟩ 0 false) 0 0 :=
  (seek_lands_iff wrappedRun (by decide +kernel) 0 0 0 false (by decide +kernel)).1.mpr
    (by decide +kernel)

/-- Seeking to the second oldest line, the driver adds the size of the newest one. -/
theorem seek_misses_after_wrap :
    ¬ ∀ (calls : List Call) (writeCmd writeCmdOffset : UInt32) (beyond : UInt64),
      Valid System.step Call.Succeeds .init calls →
      (exec System.step .init calls).kernel.Names writeCmd writeCmdOffset →
      (exec System.step .init calls).kernel.Lands
        (aesdIoctl (exec System.step .init calls).kernel (some ⟨0⟩) aesdcharIocseekto
          ⟨true, some (writeCmd, writeCmdOffset)⟩ beyond false) writeCmd writeCmdOffset := by
  intro h
  have hpos := (h wrappedRun 1 0 0 (by decide +kernel) (by decide +kernel)).fPos
  revert hpos
  decide +kernel

/-- The seek fails with `-EINVAL`, the position stays, and only the array's elements are read. -/
structure SeekOutcome.RejectedFrom (out : SeekOutcome) (fPos : Int64) : Prop where
  result : out.result = -EINVAL
  fPos : out.fPos = fPos
  reads : ∀ i ∈ out.reads, i < 10

/-- The driver's two ways to answer `-EINVAL`; at `write_cmd` 10 it reads behind the array. -/
theorem rejectedFrom_iff (k : Kernel) (filp : File) (writeCmd writeCmdOffset : UInt32)
    (beyond : UInt64) (interrupted : Bool) :
    (aesdAdjustFileOffset k filp writeCmd writeCmdOffset beyond interrupted).RejectedFrom filp.fPos ↔
      interrupted = false ∧ (10 < writeCmd.toNat ∨ writeCmd.toNat < 10 ∧
        (k.device.circleBuff.slot writeCmd.toNat).size.toNat ≤ writeCmdOffset.toNat) := by
  have hintr : -ERESTARTSYS ≠ -EINVAL := by decide
  have hzero : (0 : Int64) ≠ -EINVAL := by decide
  cases interrupted with
  | true => exact ⟨fun hrej => absurd hrej.result hintr, fun hcond => absurd hcond.1 (by simp)⟩
  | false =>
    rcases Nat.lt_trichotomy writeCmd.toNat 10 with hlt | heq | hgt
    · by_cases hr : SeekRefused k writeCmd writeCmdOffset beyond false
      · have hsize := ((seekRefused_iff hlt).mp hr).resolve_left (by simp)
        have hoff : k.device.circleBuff.sizeAt beyond writeCmd.toNat ≤ writeCmdOffset.toUInt64 := by
          rw [AesdCircularBuffer.sizeAt, if_pos hlt, UInt64.le_iff_toNat_le, UInt32.toNat_toUInt64]
          exact hsize
        rw [aesdAdjustFileOffset_outside hlt.le hoff]
        refine ⟨fun _ => ⟨rfl, .inr ⟨hlt, hsize⟩⟩, fun _ => ⟨rfl, rfl, ?_⟩⟩
        simpa using hlt
      · rw [aesdAdjustFileOffset_accepted hr]
        rw [seekRefused_iff hlt] at hr
        refine ⟨fun hrej => absurd hrej.result hzero, fun hcond => absurd ?_ hr⟩
        exact .inr (hcond.2.resolve_left (by omega)).2
    · -- the size that is compared stands behind the array
      have hreads : (aesdAdjustFileOffset k filp writeCmd writeCmdOffset beyond false).reads =
          [10] := by
        by_cases hr : SeekRefused k writeCmd writeCmdOffset beyond false
        · have hoff := (hr.resolve_left (by simp)).resolve_left (by simp [heq])
          rw [aesdAdjustFileOffset_outside heq.le hoff, heq]
        · rw [aesdAdjustFileOffset_accepted hr, heq]
      refine ⟨fun hrej => ?_, fun hcond => ?_⟩
      · have := hrej.reads 10 (by simp [hreads])
        omega
      · omega
    · rw [aesdAdjustFileOffset_tooLarge hgt]
      exact ⟨fun _ => ⟨rfl, .inl hgt⟩, fun _ => ⟨rfl, rfl, by simp⟩⟩

/-- **Invalid seeks.** In every reachable state a pair is rejected without effect exactly when
`write_cmd` is not ten and, below ten, the slot of that number does not hold the offset. Until the
ring wraps only ten is left out of the pairs that name no stored byte. -/
theorem seek_rejects_iff (calls : List Call) (h : Valid System.step Call.GrantOk .init calls)
    (filp : File) (writeCmd writeCmdOffset : UInt32) (beyond : UInt64) (interrupted : Bool) :
    let k := (exec System.step .init calls).kernel
    let out := aesdAdjustFileOffset k filp writeCmd writeCmdOffset beyond interrupted
    (out.RejectedFrom filp.fPos ↔
      interrupted = false ∧ (10 < writeCmd.toNat ∨ writeCmd.toNat < 10 ∧
        (k.device.circleBuff.slot writeCmd.toNat).size.toNat ≤ writeCmdOffset.toNat)) ∧
    (¬ k.Names writeCmd writeCmdOffset → k.device.circleBuff.outOffs = 0 →
      (out.RejectedFrom filp.fPos ↔ interrupted = false ∧ writeCmd.toNat ≠ 10)) := by
  intro k out
  have ho : k.Owned := owned_run owned_init h
  have hiff := rejectedFrom_iff k filp writeCmd writeCmdOffset beyond interrupted
  refine ⟨hiff, fun hn hzero => ?_⟩
  -- the slots are numbered like the commands, and those behind them are empty
  have hsize (hlt : writeCmd.toNat < 10) :
      (k.device.circleBuff.slot writeCmd.toNat).size.toNat ≤ writeCmdOffset.toNat := by
    rcases Nat.lt_or_ge writeCmd.toNat k.commands.length with hcmd | hcmd
    · rw [slot_size_eq hzero hcmd]
      exact Nat.not_lt.mp fun hoff => hn ⟨hcmd, hoff⟩
    · have hcount : k.device.circleBuff.count ≤ writeCmd.toNat := by
        simpa [Kernel.commands] using hcmd
      have hempty := ho.ring.inactive writeCmd.toNat hcount hlt
      rw [hzero, Nat.zero_add, Nat.mod_eq_of_lt hlt] at hempty
      simp [hempty, AesdBufferEntry.zero]
  rw [hiff]
  apply and_congr_right
  intro _
  constructor
  · omega
  · intro hne
    rcases Nat.lt_or_gt_of_ne hne with hlt | hgt
    · exact .inr ⟨hlt, hsize hlt⟩
    · exact .inl hgt

theorem seek_rejects_iff_wrappedRun :
    ¬ (exec System.step .init wrappedRun).kernel.Names 3 7 ∧
      (aesdAdjustFileOffset (exec System.step .init wrappedRun).kernel ⟨5⟩ 3 7 0
        false).RejectedFrom 5 :=
  ⟨by decide +kernel, (seek_rejects_iff wrappedRun (by decide +kernel) ⟨5⟩ 3 7 0 false).1.mpr
    (by decide +kernel)⟩

/-- `write_cmd` 10 on an empty device makes the driver read `entry[10]`. -/
theorem seek_reads_behind_array :
    ¬ ∀ (calls : List Call) (filp : File) (writeCmd writeCmdOffset : UInt32) (beyond : UInt64),
      Valid System.step Call.KernelOk .init calls →
      ¬ (exec System.step .init calls).kernel.Names writeCmd writeCmdOffset →
      (aesdAdjustFileOffset (exec System.step .init calls).kernel filp writeCmd writeCmdOffset
        beyond false).RejectedFrom filp.fPos := by
  intro h
  have hreads := (h [] ⟨0⟩ 10 0 0 trivial (by decide)).reads
  revert hreads
  decide

/-- How far an accepted seek moves the position. -/
def AesdCircularBuffer.displacement (buffer : AesdCircularBuffer)
    (writeCmd writeCmdOffset : UInt32) : Int64 :=
  (List.range writeCmd.toNat).foldl (fun fPos i => fPos + (buffer.slot i).size.toInt64) 0 +
    writeCmdOffset.toUInt64.toInt64

theorem foldl_add_start (f : ℕ → Int64) (l : List ℕ) (p : Int64) :
    l.foldl (fun fPos i => fPos + f i) p = p + l.foldl (fun fPos i => fPos + f i) 0 := by
  induction l generalizing p with
  | nil => simp
  | cons i l ih =>
    rw [List.foldl_cons, List.foldl_cons, ih (p + f i), ih (0 + f i), Int64.zero_add,
      Int64.add_assoc]

theorem aesdAdjustFileOffset_displacement {k : Kernel} {writeCmd writeCmdOffset : UInt32}
    {beyond : UInt64} {interrupted : Bool}
    (h : ¬ SeekRefused k writeCmd writeCmdOffset beyond interrupted) (filp : File) :
    (aesdAdjustFileOffset k filp writeCmd writeCmdOffset beyond interrupted).fPos =
      filp.fPos + k.device.circleBuff.displacement writeCmd writeCmdOffset := by
  rw [aesdAdjustFileOffset_accepted h, AesdCircularBuffer.displacement,
    foldl_add_start _ _ filp.fPos, Int64.add_assoc]

/-- The move does not wrap around, so it is none only if nothing is added. -/
theorem displacement_eq_zero {k : Kernel} (ho : k.Owned) (hf : k.Fits)
    {writeCmd writeCmdOffset : UInt32} {beyond : UInt64} {interrupted : Bool}
    (h : ¬ SeekRefused k writeCmd writeCmdOffset beyond interrupted) :
    k.device.circleBuff.displacement writeCmd writeCmdOffset = 0 ↔
      (∀ i < writeCmd.toNat, (k.device.circleBuff.slot i).size = 0) ∧ writeCmdOffset = 0 := by
  have hstart : 0 ≤ (File.mk 0).fPos := Int64.le_refl 0
  obtain ⟨h0, hpos⟩ := aesdAdjustFileOffset_fPos ho hf hstart (by decide) h
  rw [aesdAdjustFileOffset_displacement h, Int64.zero_add] at h0 hpos
  -- from position 0 the move is the position that is reached, a natural number
  have hclamp : (0 : Int64).toNatClampNeg = 0 := rfl
  rw [hclamp, Nat.zero_add] at hpos
  have hmove : k.device.circleBuff.displacement writeCmd writeCmdOffset = 0 ↔
      (k.device.circleBuff.slotSizes writeCmd.toNat).sum + writeCmdOffset.toNat = 0 := by
    rw [← hpos]
    constructor
    · intro hz
      rw [hz]
      rfl
    · intro hz
      rw [← Int64.toInt_inj, ← Int64.cast_toNatClampNeg _ h0, hz]
      rfl
  rw [hmove, Nat.add_eq_zero_iff, List.sum_eq_zero_iff]
  simp [AesdCircularBuffer.slotSizes, ← UInt64.toNat_inj, ← UInt32.toNat_inj]

/-- **Two seeks.** In every reachable state an accepted seek ends alike from two positions
exactly when they are the same. Repeating it, or putting another before it, changes
nothing exactly when the first one adds nothing. -/
theorem seek_absolute_iff (calls : List Call) (h : Valid System.step Call.KernelOk .init calls)
    (writeCmd writeCmdOffset : UInt32) (beyond : UInt64)
    (hr : ¬ SeekRefused (exec System.step .init calls).kernel writeCmd writeCmdOffset beyond false) :
    let k := (exec System.step .init calls).kernel
    let seek := fun p : Int64 => (aesdAdjustFileOffset k ⟨p⟩ writeCmd writeCmdOffset beyond false).fPos
    (∀ p q, seek p = seek q ↔ p = q) ∧
    (∀ p, seek (seek p) = seek p ↔
      (∀ i < writeCmd.toNat, (k.device.circleBuff.slot i).size = 0) ∧ writeCmdOffset = 0) ∧
    ∀ writeCmd' writeCmdOffset' beyond',
      ¬ SeekRefused k writeCmd' writeCmdOffset' beyond' false →
      let seek' := fun p : Int64 =>
        (aesdAdjustFileOffset k ⟨p⟩ writeCmd' writeCmdOffset' beyond' false).fPos
      ∀ p, seek (seek' p) = seek p ↔
        (∀ i < writeCmd'.toNat, (k.device.circleBuff.slot i).size = 0) ∧ writeCmdOffset' = 0 := by
  intro k seek
  obtain ⟨ho, hf⟩ : k.Owned ∧ k.Fits := fits_run ⟨owned_init, fits_init⟩ h
  have hseek (p : Int64) :
      seek p = p + k.device.circleBuff.displacement writeCmd writeCmdOffset :=
    aesdAdjustFileOffset_displacement hr ⟨p⟩
  have hinj (p q : Int64) : seek p = seek q ↔ p = q := by
    rw [hseek, hseek, Int64.add_left_inj]
  have hother (writeCmd' writeCmdOffset' : UInt32) (beyond' : UInt64)
      (hr' : ¬ SeekRefused k writeCmd' writeCmdOffset' beyond' false) (p : Int64) :
      seek (aesdAdjustFileOffset k ⟨p⟩ writeCmd' writeCmdOffset' beyond' false).fPos = seek p ↔
        (∀ i < writeCmd'.toNat, (k.device.circleBuff.slot i).size = 0) ∧ writeCmdOffset' = 0 := by
    rw [hinj, aesdAdjustFileOffset_displacement hr', Int64.add_eq_left,
      displacement_eq_zero ho hf hr']
  exact ⟨hinj, hother writeCmd writeCmdOffset beyond hr, hother⟩

theorem seek_absolute_iff_wrappedRun :
    (aesdAdjustFileOffset (exec System.step .init wrappedRun).kernel ⟨3⟩ 0 1 0 false).fPos ≠
      (aesdAdjustFileOffset (exec System.step .init wrappedRun).kernel ⟨4⟩ 0 1 0 false).fPos :=
  ((seek_absolute_iff wrappedRun (by decide +kernel) 0 1 0 (by decide +kernel)).1 3 4).not.mpr
    (by decide)

/-- From position 0 and from position 1 the same seek ends on different bytes. -/
theorem seek_depends_on_position :
    ¬ ∀ (calls : List Call) (writeCmd writeCmdOffset : UInt32) (beyond : UInt64) (p q : Int64),
      Valid System.step Call.KernelOk .init calls →
      ¬ SeekRefused (exec System.step .init calls).kernel writeCmd writeCmdOffset beyond false →
      (aesdAdjustFileOffset (exec System.step .init calls).kernel ⟨p⟩ writeCmd writeCmdOffset
        beyond false).fPos =
      (aesdAdjustFileOffset (exec System.step .init calls).kernel ⟨q⟩ writeCmd writeCmdOffset
        beyond false).fPos := by
  intro h
  have hsame := h wrappedRun 0 1 0 0 1 (by decide +kernel) (by decide +kernel)
  revert hsame
  decide +kernel

end Aesd
