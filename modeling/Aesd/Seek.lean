import Aesd.WriteCall

/-!
# Seeking by command

The `AESDCHAR_IOCSEEKTO` request of `main.c`: a command's index and an offset in it.
-/

namespace Aesd

def EINVAL : Int64 := 22
def ENOTTY : Int64 := 25

structure SeekOutcome where
  result : Int64
  fPos : Int64
  /-- The elements of `circle_buff.entry` read for the decision. -/
  reads : List ℕ

/-- `entry[i].size`; the eight bytes read one element behind the array are `beyond`. -/
def AesdCircularBuffer.sizeAt (buffer : AesdCircularBuffer) (beyond : UInt64) (i : ℕ) : UInt64 :=
  if i < maxWriteOperationsSupported then (buffer.slot i).size else beyond

/-- `aesd_adjust_file_offset`. The `FOREACH` has no body and leaves `position` at ten. -/
def aesdAdjustFileOffset (k : Kernel) (filp : File) (writeCmd writeCmdOffset : UInt32)
    (beyond : UInt64) (interrupted : Bool) : SeekOutcome :=
  if interrupted then ⟨-ERESTARTSYS, filp.fPos, []⟩
  else
    let position := maxWriteOperationsSupported
    let size := k.device.circleBuff.sizeAt beyond
    if writeCmd.toNat > position then ⟨-EINVAL, filp.fPos, []⟩
    else if writeCmdOffset.toUInt64 ≥ size writeCmd.toNat ∨
        writeCmd.toNat > maxWriteOperationsSupported then
      ⟨-EINVAL, filp.fPos, [writeCmd.toNat]⟩
    else if writeCmd = 0 then
      ⟨0, filp.fPos + writeCmdOffset.toUInt64.toInt64, [writeCmd.toNat]⟩
    else
      let fPos := (List.range writeCmd.toNat).foldl
        (fun fPos position => fPos + (size position).toInt64) filp.fPos
      ⟨0, fPos + writeCmdOffset.toUInt64.toInt64, [writeCmd.toNat]⟩

def iocNr (cmd : UInt32) : UInt32 := cmd &&& 0xff

def iocType (cmd : UInt32) : UInt32 := (cmd >>> 8) &&& 0xff

def iocDir (cmd : UInt32) : UInt32 := (cmd >>> 30) &&& 3

def aesdIocMagic : UInt32 := 0x16

def aesdcharIocMaxnr : UInt32 := 1

/-- `_IOWR(AESD_IOC_MAGIC, 1, struct aesd_seekto)`; the struct has eight bytes. -/
def aesdcharIocseekto : UInt32 :=
  ((3 : UInt32) <<< 30) ||| ((8 : UInt32) <<< 16) ||| (aesdIocMagic <<< 8) ||| 1

/-- The user's `struct aesd_seekto`: whether its address may be used, and its contents
if they can be copied. -/
structure SeektoArg where
  accessOk : Bool
  contents : Option (UInt32 × UInt32)

def aesdIoctl (k : Kernel) (filp : Option File) (cmd : UInt32) (arg : SeektoArg) (beyond : UInt64)
    (interrupted : Bool) : SeekOutcome :=
  match filp with
  | none => ⟨-EFAULT, 0, []⟩
  | some filp =>
    if iocType cmd ≠ aesdIocMagic ∨ iocNr cmd > aesdcharIocMaxnr then ⟨-ENOTTY, filp.fPos, []⟩
    else if iocDir cmd ≠ 0 ∧ ¬ arg.accessOk then ⟨-EFAULT, filp.fPos, []⟩
    else if cmd = aesdcharIocseekto then
      match arg.contents with
      | none => ⟨-EFAULT, filp.fPos, []⟩
      | some (writeCmd, writeCmdOffset) =>
        aesdAdjustFileOffset k filp writeCmd writeCmdOffset beyond interrupted
    else ⟨-ENOTTY, filp.fPos, []⟩

def SeekRefused (k : Kernel) (writeCmd writeCmdOffset : UInt32) (beyond : UInt64)
    (interrupted : Bool) : Prop :=
  interrupted = true ∨ maxWriteOperationsSupported < writeCmd.toNat ∨
    k.device.circleBuff.sizeAt beyond writeCmd.toNat ≤ writeCmdOffset.toUInt64

instance (k : Kernel) (writeCmd writeCmdOffset : UInt32) (beyond : UInt64) (interrupted : Bool) :
    Decidable (SeekRefused k writeCmd writeCmdOffset beyond interrupted) :=
  inferInstanceAs (Decidable (_ ∨ _ ∨ _))

theorem aesdIoctl_seekto (k : Kernel) (filp : File) (writeCmd writeCmdOffset : UInt32)
    (beyond : UInt64) (interrupted : Bool) :
    aesdIoctl k (some filp) aesdcharIocseekto ⟨true, some (writeCmd, writeCmdOffset)⟩ beyond
        interrupted =
      aesdAdjustFileOffset k filp writeCmd writeCmdOffset beyond interrupted := by
  have htype : iocType aesdcharIocseekto = aesdIocMagic := by decide
  have hnr : ¬ iocNr aesdcharIocseekto > aesdcharIocMaxnr := by decide
  simp [aesdIoctl, htype, hnr]

theorem aesdAdjustFileOffset_result (k : Kernel) (filp : File) (writeCmd writeCmdOffset : UInt32)
    (beyond : UInt64) (interrupted : Bool) :
    (aesdAdjustFileOffset k filp writeCmd writeCmdOffset beyond interrupted).result ≠ 0 ↔
      SeekRefused k writeCmd writeCmdOffset beyond interrupted := by
  simp only [aesdAdjustFileOffset, SeekRefused]
  have hintr : -ERESTARTSYS ≠ 0 := by decide
  have hinval : -EINVAL ≠ 0 := by decide
  split_ifs with h1 h2 h3 h4
  · simp [hintr, h1]
  · simp [hinval, h2]
  · simp only [ne_eq, hinval, not_false_eq_true, true_iff]
    rcases h3 with h3 | h3
    · exact .inr (.inr h3)
    · exact .inr (.inl h3)
  · simp only [ne_eq, not_true_eq_false, false_iff]
    rintro (h | h | h)
    · exact h1 h
    · exact h2 h
    · exact h3 (.inl h)
  · simp only [ne_eq, not_true_eq_false, false_iff]
    rintro (h | h | h)
    · exact h1 h
    · exact h2 h
    · exact h3 (.inl h)

theorem aesdAdjustFileOffset_tooLarge {k : Kernel} {filp : File} {writeCmd writeCmdOffset : UInt32}
    {beyond : UInt64} (hcmd : 10 < writeCmd.toNat) :
    aesdAdjustFileOffset k filp writeCmd writeCmdOffset beyond false =
      ⟨-EINVAL, filp.fPos, []⟩ := by
  simp [aesdAdjustFileOffset, hcmd]

theorem aesdAdjustFileOffset_outside {k : Kernel} {filp : File} {writeCmd writeCmdOffset : UInt32}
    {beyond : UInt64} (hcmd : writeCmd.toNat ≤ 10)
    (hoff : k.device.circleBuff.sizeAt beyond writeCmd.toNat ≤ writeCmdOffset.toUInt64) :
    aesdAdjustFileOffset k filp writeCmd writeCmdOffset beyond false =
      ⟨-EINVAL, filp.fPos, [writeCmd.toNat]⟩ := by
  simp [aesdAdjustFileOffset, Nat.not_lt.mpr hcmd, hoff]

/-- An accepted seek as one formula: for `write_cmd` 0 the code has a branch of its own,
which the empty loop agrees with. -/
theorem aesdAdjustFileOffset_accepted {k : Kernel} {filp : File} {writeCmd writeCmdOffset : UInt32}
    {beyond : UInt64} {interrupted : Bool}
    (h : ¬ SeekRefused k writeCmd writeCmdOffset beyond interrupted) :
    aesdAdjustFileOffset k filp writeCmd writeCmdOffset beyond interrupted =
      ⟨0, (List.range writeCmd.toNat).foldl
        (fun fPos i => fPos + (k.device.circleBuff.slot i).size.toInt64) filp.fPos +
          writeCmdOffset.toUInt64.toInt64, [writeCmd.toNat]⟩ := by
  obtain ⟨hintr, hcmd, hoff⟩ : interrupted ≠ true ∧ ¬ maxWriteOperationsSupported < writeCmd.toNat ∧
      ¬ k.device.circleBuff.sizeAt beyond writeCmd.toNat ≤ writeCmdOffset.toUInt64 := by
    simpa only [SeekRefused, not_or] using h
  have hno : ¬ (writeCmdOffset.toUInt64 ≥ k.device.circleBuff.sizeAt beyond writeCmd.toNat ∨
      writeCmd.toNat > maxWriteOperationsSupported) := not_or.mpr ⟨hoff, hcmd⟩
  have hslots : (List.range writeCmd.toNat).foldl
      (fun fPos i => fPos + (k.device.circleBuff.sizeAt beyond i).toInt64) filp.fPos =
        (List.range writeCmd.toNat).foldl
          (fun fPos i => fPos + (k.device.circleBuff.slot i).size.toInt64) filp.fPos := by
    apply List.foldl_ext
    intro fPos i hi
    rw [List.mem_range] at hi
    rw [AesdCircularBuffer.sizeAt, if_pos (by omega)]
  simp only [aesdAdjustFileOffset, if_neg hintr, gt_iff_lt, if_neg hcmd] at hno ⊢
  rw [if_neg hno, hslots]
  split_ifs with hz
  · rw [hz]
    rfl
  · rfl

theorem foldl_advance (size : ℕ → UInt64) (l : List ℕ) {p : Int64} (hp : 0 ≤ p)
    (hlt : p.toNatClampNeg + (l.map fun i => (size i).toNat).sum < 2 ^ 63) :
    0 ≤ l.foldl (fun fPos i => fPos + (size i).toInt64) p ∧
      (l.foldl (fun fPos i => fPos + (size i).toInt64) p).toNatClampNeg =
        p.toNatClampNeg + (l.map fun i => (size i).toNat).sum := by
  induction l generalizing p with
  | nil => exact ⟨hp, rfl⟩
  | cons i l ih =>
    rw [List.map_cons, List.sum_cons] at hlt ⊢
    obtain ⟨hp', hpos⟩ := CInt.advance hp (n := size i) (by omega)
    obtain ⟨h1, h2⟩ := ih hp' (by rw [hpos]; omega)
    rw [List.foldl_cons, h2, hpos]
    exact ⟨h1, by omega⟩

/-- The sizes of the slots below `writeCmd`, counted from slot 0. -/
def AesdCircularBuffer.slotSizes (buffer : AesdCircularBuffer) (writeCmd : ℕ) : List ℕ :=
  (List.range writeCmd).map fun i => (buffer.slot i).size.toNat

theorem slotSizes_sum_le {k : Kernel} (ho : k.Owned) (hf : k.Fits) {n : ℕ} (hn : n ≤ 10) :
    (k.device.circleBuff.slotSizes n).sum ≤ 10 * 2 ^ 31 := by
  apply AesdCircularBuffer.sum_le_of_le
  · intro m hm
    obtain ⟨i, hi, rfl⟩ := List.mem_map.mp hm
    rw [List.mem_range] at hi
    -- a slot is active or zero
    rcases ho.ring.slot_cases (show i < 10 by omega) with hslot | hslot
    · exact (hf.ring _ hslot).le
    · simp [hslot, AesdBufferEntry.zero]
  · simpa [AesdCircularBuffer.slotSizes] using hn

theorem SeekRefused.le_of_not {k : Kernel} {writeCmd writeCmdOffset : UInt32} {beyond : UInt64}
    {interrupted : Bool} (h : ¬ SeekRefused k writeCmd writeCmdOffset beyond interrupted) :
    writeCmd.toNat ≤ 10 :=
  Nat.not_lt.mp fun hlt => h (.inr (.inl hlt))

/-- An accepted seek moves the position by the sizes of the slots below `writeCmd` and by
the offset. -/
theorem aesdAdjustFileOffset_fPos {k : Kernel} (ho : k.Owned) (hf : k.Fits) {filp : File}
    (hp : 0 ≤ filp.fPos) (hlt : filp.fPos.toNatClampNeg < 2 ^ 62) {writeCmd writeCmdOffset : UInt32}
    {beyond : UInt64} {interrupted : Bool}
    (h : ¬ SeekRefused k writeCmd writeCmdOffset beyond interrupted) :
    let fPos := (aesdAdjustFileOffset k filp writeCmd writeCmdOffset beyond interrupted).fPos
    0 ≤ fPos ∧ fPos.toNatClampNeg = filp.fPos.toNatClampNeg +
      (k.device.circleBuff.slotSizes writeCmd.toNat).sum + writeCmdOffset.toNat := by
  intro fPos
  have hsum := slotSizes_sum_le ho hf (SeekRefused.le_of_not h)
  have hoffset : writeCmdOffset.toUInt64.toNat = writeCmdOffset.toNat := UInt32.toNat_toUInt64 _
  have hsmall := writeCmdOffset.toNat_lt
  obtain ⟨h1, h2⟩ := foldl_advance (fun i => (k.device.circleBuff.slot i).size)
    (List.range writeCmd.toNat) hp
    (by change _ + (k.device.circleBuff.slotSizes writeCmd.toNat).sum < _; omega)
  change _ = _ + (k.device.circleBuff.slotSizes writeCmd.toNat).sum at h2
  obtain ⟨h3, h4⟩ := CInt.advance h1 (n := writeCmdOffset.toUInt64) (by rw [h2, hoffset]; omega)
  simp only [fPos, aesdAdjustFileOffset_accepted h]
  rw [h4, h2, hoffset]
  exact ⟨h3, rfl⟩

end Aesd
