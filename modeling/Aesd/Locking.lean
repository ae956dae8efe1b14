import Aesd.FileOps
import Aesd.Lib.Locked
import Mathlib.Data.Fintype.Basic

/-!
# The driver's lock

`aesd_read`, `aesd_write`, `aesd_llseek` and `aesd_ioctl` statement by statement, called by any
number of threads: `device->lock` makes each of them one step.
-/

namespace Aesd
open BlockHeap StepRuns LockedCode

/-- The calls that take `device->lock`. -/
inductive LockedOp where
  | transfer (c : Call)
  | llseek (file : ℕ) (offset : Int64) (whence : Int32) (interrupted : Bool)
  | ioctl (file : ℕ) (cmd : UInt32) (arg : SeektoArg) (beyond : UInt64) (interrupted : Bool)

def LockedOp.toFileOp : LockedOp → FileOp
  | .transfer c => .transfer c
  | .llseek file offset whence interrupted => .llseek file offset whence interrupted
  | .ioctl file cmd arg beyond interrupted => .ioctl file cmd arg beyond interrupted

def LockedOp.file : LockedOp → ℕ
  | .transfer (.write file ..) | .transfer (.read file ..) | .llseek file .. | .ioctl file .. => file

/-- The next statement between `mutex_lock_interruptible` and `mutex_unlock`, with the locals
it needs. -/
inductive Statement where
  /-- `aesd_circular_buffer_find_entry_offset_for_fpos`. -/
  | find (file room : ℕ) (count : UInt64)
  /-- `copy_to_user`. -/
  | copyToUser (file room : ℕ) (count : UInt64) (readEntry : ℕ) (readOffset : UInt64)
  /-- `*f_pos += retval`. -/
  | advance (file : ℕ) (retval : Int64) (bytes : List UInt8)
  /-- `kmalloc` or `krealloc`. -/
  | allocate (buf : List UInt8) (count : UInt64) (grant : Grant BlockId)
  /-- `copy_from_user`, and the new size. -/
  | copyFromUser (buf : List UInt8) (count : UInt64)
  /-- `memchr`. -/
  | search (retval : UInt64)
  /-- `aesd_circular_buffer_add_entry`. -/
  | addEntry (retval : UInt64)
  /-- `kfree(write_entry)`. -/
  | free (retval : UInt64) (writeEntry : Option BlockId)
  /-- `size = 0` and `buffptr = NULL`. -/
  | clear (retval : UInt64) (writeEntry : Option BlockId)
  /-- The test of `aesd_adjust_file_offset`. -/
  | test (file : ℕ) (writeCmd writeCmdOffset : UInt32) (beyond : UInt64)
  /-- Its loop. -/
  | addSize (file : ℕ) (writeCmd writeCmdOffset : UInt32) (beyond : UInt64) (position : ℕ)
  /-- `filp->f_pos += write_cmd_offset`. -/
  | addOffset (file : ℕ) (writeCmdOffset : UInt32)
  /-- The loop of `aesd_llseek`, and behind it `fixed_size_llseek`. -/
  | total (file : ℕ) (offset : Int64) (whence : Int32) (entryIndex : ℕ) (totalBufferSize : Int64)

/-- What comes before the lock; the right case has the lock and is at its first statement. -/
def LockedOp.before : LockedOp → Reply ⊕ Statement
  | .transfer (.write _ buf count env) =>
    match buf with
    | none => .inl ⟨-EFAULT, [], none⟩
    | some buf =>
      if count = 0 then .inl ⟨0, [], none⟩
      else if env.interrupted then .inl ⟨-ERESTARTSYS, [], none⟩
      else .inr (.allocate buf count env.grant)
  | .transfer (.read file buf count interrupted) =>
    match buf with
    | none => .inl ⟨-EFAULT, [], none⟩
    | some room =>
      if interrupted then .inl ⟨-ERESTARTSYS, [], none⟩ else .inr (.find file room count)
  | .llseek file offset whence interrupted =>
    if interrupted then .inl ⟨-ERESTARTSYS, [], none⟩ else .inr (.total file offset whence 0 0)
  | .ioctl file cmd arg beyond interrupted =>
    if iocType cmd ≠ aesdIocMagic ∨ iocNr cmd > aesdcharIocMaxnr then .inl ⟨-ENOTTY, [], none⟩
    else if iocDir cmd ≠ 0 ∧ ¬ arg.accessOk then .inl ⟨-EFAULT, [], none⟩
    else if cmd = aesdcharIocseekto then
      match arg.contents with
      | none => .inl ⟨-EFAULT, [], none⟩
      | some (writeCmd, writeCmdOffset) =>
        if interrupted then .inl ⟨-ERESTARTSYS, [], none⟩
        else .inr (.test file writeCmd writeCmdOffset beyond)
    else .inl ⟨-ENOTTY, [], none⟩

def System.setKernel (s : System) (k : Kernel) : System := { s with kernel := k }

def System.setPos (s : System) (file : ℕ) (p : Int64) : System :=
  { s with fPos := Function.update s.fPos file p }

def Statement.file : Statement → Option ℕ
  | .find file .. | .copyToUser file .. | .advance file .. | .test file .. | .addSize file .. |
    .addOffset file _ | .total file .. => some file
  | .allocate .. | .copyFromUser .. | .search _ | .addEntry _ | .free .. | .clear .. => none

/-- One statement under the lock. The `*f_pos` of a read is a copy, made before the call and put
back behind it; it is the position of the file itself as long as no other call is on that file. -/
def Statement.execute (fixedSizeLlseek : File → Int64 → Int32 → Int64 → Int64 × File) :
    Statement → System → Next Statement Reply × System
  | .find file room count, s =>
    match s.kernel.device.circleBuff.findEntryOffsetForFpos (s.fPos file).toUInt64 0 with
    | (none, _) => (.done ⟨0, [], none⟩, s)
    | (some readEntry, readOffset) => (.more (.copyToUser file room count readEntry readOffset), s)
  | .copyToUser file room count readEntry readOffset, s =>
    let entry := s.kernel.device.circleBuff.slot readEntry
    let count := if count > entry.size - readOffset then entry.size - readOffset else count
    let copied := min count.toNat room
    let unreadCount := count - UInt64.ofNat copied
    (.more (.advance file (count - unreadCount).toInt64
      (s.kernel.heap.contents entry.buffptr readOffset.toNat copied)), s)
  | .advance file retval bytes, s =>
    (.done ⟨retval, bytes, none⟩, s.setPos file (s.fPos file + retval))
  | .allocate buf count grant, s =>
    let k := allocPending s.kernel count grant
    if k.device.circleBuffEntry.buffptr = none then (.done ⟨-ENOMEM, [], none⟩, s.setKernel k)
    else (.more (.copyFromUser buf count), s.setKernel k)
  | .copyFromUser buf count, s =>
    let (retval, k) := copyPending s.kernel buf count
    (.more (.search retval), s.setKernel k)
  | .search retval, s =>
    let entry := s.kernel.device.circleBuffEntry
    if hasNewline s.kernel.heap entry.buffptr entry.size then (.more (.addEntry retval), s)
    else (.done ⟨retval.toInt64, [], none⟩, s)
  | .addEntry retval, s =>
    let (writeEntry, circleBuff) :=
      s.kernel.device.circleBuff.addEntry s.kernel.device.circleBuffEntry
    (.more (.free retval writeEntry), s.setKernel
      { s.kernel with device := { s.kernel.device with circleBuff } })
  | .free retval writeEntry, s =>
    (.more (.clear retval writeEntry), s.setKernel
      { s.kernel with heap := s.kernel.heap.kfree writeEntry })
  | .clear retval writeEntry, s =>
    (.done ⟨retval.toInt64, [], writeEntry⟩, s.setKernel
      { s.kernel with device := { s.kernel.device with circleBuffEntry := .zero } })
  | .test file writeCmd writeCmdOffset beyond, s =>
    let position := maxWriteOperationsSupported
    if writeCmd.toNat > position ∨
        writeCmdOffset.toUInt64 ≥ s.kernel.device.circleBuff.sizeAt beyond writeCmd.toNat ∨
        writeCmd.toNat > maxWriteOperationsSupported then (.done ⟨-EINVAL, [], none⟩, s)
    else if writeCmd = 0 then (.more (.addOffset file writeCmdOffset), s)
    else (.more (.addSize file writeCmd writeCmdOffset beyond 0), s)
  | .addSize file writeCmd writeCmdOffset beyond position, s =>
    if position < writeCmd.toNat then
      (.more (.addSize file writeCmd writeCmdOffset beyond (position + 1)),
        s.setPos file (s.fPos file + (s.kernel.device.circleBuff.sizeAt beyond position).toInt64))
    else (.more (.addOffset file writeCmdOffset), s)
  | .addOffset file writeCmdOffset, s =>
    (.done ⟨0, [], none⟩, s.setPos file (s.fPos file + writeCmdOffset.toUInt64.toInt64))
  | .total file offset whence entryIndex totalBufferSize, s =>
    if entryIndex < maxWriteOperationsSupported then
      (.more (.total file offset whence (entryIndex + 1)
        (totalBufferSize + (s.kernel.device.circleBuff.slot entryIndex).size.toInt64)), s)
    else
      let (seekPosition, filp) := fixedSizeLlseek ⟨s.fPos file⟩ offset whence totalBufferSize
      (.done ⟨seekPosition, [], none⟩, s.setPos file filp.fPos)

def driverCode (fixedSizeLlseek : File → Int64 → Int32 → Int64 → Int64 × File) :
    Code System LockedOp Statement Reply where
  before := LockedOp.before
  body := Statement.execute fixedSizeLlseek

section Implements

variable (fixedSizeLlseek : File → Int64 → Int32 → Int64 → Int64 × File)

def LockedOp.atomic (s : System) (op : LockedOp) : Reply × System :=
  s.operate fixedSizeLlseek op.toFileOp

@[simp] theorem setPos_kernel (s : System) (file : ℕ) (p : Int64) :
    (s.setPos file p).kernel = s.kernel := rfl

@[simp] theorem setPos_fPos (s : System) (file : ℕ) (p : Int64) :
    (s.setPos file p).fPos file = p := by
  simp [System.setPos]

@[simp] theorem setPos_setPos (s : System) (file : ℕ) (p q : Int64) :
    (s.setPos file p).setPos file q = s.setPos file q := by
  simp [System.setPos]

@[simp] theorem setPos_self (s : System) (file : ℕ) : s.setPos file (s.fPos file) = s := by
  simp [System.setPos]

theorem setPos_fPos_ne {s : System} {file j : ℕ} {p : Int64} (h : file ≠ j) :
    (s.setPos j p).fPos file = s.fPos file := Function.update_of_ne h ..

theorem setPos_comm {s : System} {file j : ℕ} {p q : Int64} (h : file ≠ j) :
    (s.setPos j p).setPos file q = (s.setPos file q).setPos j p := by
  simp only [System.setPos, Function.update_comm h.symm]

/-- A call is on its file at its first statement. -/
theorem before_file {op : LockedOp} {l : Statement} (h : op.before = .inr l) :
    l.file = op.toFileOp.file := by
  cases op with
  | transfer c =>
    cases c with
    | write file buf count env =>
      cases buf with
      | none => cases h
      | some buf =>
        simp only [LockedOp.before] at h
        split_ifs at h
        cases h
        rfl
    | read file buf count interrupted =>
      cases buf with
      | none => cases h
      | some room =>
        simp only [LockedOp.before] at h
        split_ifs at h
        cases h
        rfl
  | llseek file offset whence interrupted =>
    simp only [LockedOp.before] at h
    split_ifs at h
    cases h
    rfl
  | ioctl file cmd arg beyond interrupted =>
    simp only [LockedOp.before] at h
    cases hcontents : arg.contents with
    | none =>
      simp only [hcontents] at h
      split_ifs at h
    | some pair =>
      simp only [hcontents] at h
      split_ifs at h
      cases h
      rfl

theorem execute_file {l l' : Statement} {s s' : System}
    (h : (driverCode fixedSizeLlseek).body l s = (.more l', s')) : l'.file = l.file := by
  cases l with
  | find file room count =>
    simp only [driverCode, Statement.execute] at h
    split at h
    · cases h
    · obtain ⟨rfl, -⟩ : Statement.copyToUser file room count _ _ = l' ∧ _ := by simpa using h
      rfl
  | copyToUser file room count readEntry readOffset => cases h; rfl
  | advance file retval bytes => cases h
  | allocate buf count grant =>
    simp only [driverCode, Statement.execute] at h
    split at h <;> cases h
    rfl
  | copyFromUser buf count => cases h; rfl
  | search retval =>
    simp only [driverCode, Statement.execute] at h
    split at h <;> cases h
    rfl
  | addEntry retval => cases h; rfl
  | free retval writeEntry => cases h; rfl
  | clear retval writeEntry => cases h
  | test file writeCmd writeCmdOffset beyond =>
    simp only [driverCode, Statement.execute] at h
    split_ifs at h <;> cases h <;> rfl
  | addSize file writeCmd writeCmdOffset beyond position =>
    simp only [driverCode, Statement.execute] at h
    split_ifs at h <;> cases h <;> rfl
  | addOffset file writeCmdOffset => cases h
  | total file offset whence entryIndex totalBufferSize =>
    simp only [driverCode, Statement.execute] at h
    split_ifs at h <;> cases h
    rfl

theorem before_inl {op : LockedOp} {r : Reply} (h : op.before = .inl r) (s : System) :
    op.atomic fixedSizeLlseek s = (r, s) := by
  cases op with
  | transfer c =>
    cases c with
    | write file buf count env =>
      cases buf with
      | none =>
        obtain rfl := Sum.inl.inj h
        rfl
      | some buf =>
        simp only [LockedOp.before] at h
        split_ifs at h with hcount hintr
        · obtain rfl := Sum.inl.inj h
          simp [LockedOp.atomic, LockedOp.toFileOp, System.operate, System.step, aesdWrite, hcount]
        · obtain rfl := Sum.inl.inj h
          simp [LockedOp.atomic, LockedOp.toFileOp, System.operate, System.step, aesdWrite, hcount,
            hintr]
    | read file buf count interrupted =>
      cases buf with
      | none =>
        obtain rfl := Sum.inl.inj h
        simp [LockedOp.atomic, LockedOp.toFileOp, System.operate, System.step, aesdRead]
      | some room =>
        simp only [LockedOp.before] at h
        split_ifs at h with hintr
        obtain rfl := Sum.inl.inj h
        simp [LockedOp.atomic, LockedOp.toFileOp, System.operate, System.step, aesdRead, hintr]
  | llseek file offset whence interrupted =>
    simp only [LockedOp.before] at h
    split_ifs at h with hintr
    obtain rfl := Sum.inl.inj h
    simp [LockedOp.atomic, LockedOp.toFileOp, System.operate, aesdLlseek, hintr]
  | ioctl file cmd arg beyond interrupted =>
    simp only [LockedOp.before] at h
    simp only [LockedOp.atomic, LockedOp.toFileOp, System.operate, aesdIoctl]
    by_cases htype : iocType cmd ≠ aesdIocMagic ∨ iocNr cmd > aesdcharIocMaxnr
    · rw [if_pos htype] at h ⊢
      obtain rfl := Sum.inl.inj h
      simp
    rw [if_neg htype] at h ⊢
    by_cases haccess : iocDir cmd ≠ 0 ∧ ¬ arg.accessOk
    · rw [if_pos haccess] at h ⊢
      obtain rfl := Sum.inl.inj h
      simp
    rw [if_neg haccess] at h ⊢
    by_cases hcmd : cmd = aesdcharIocseekto
    · rw [if_pos hcmd] at h ⊢
      cases hcontents : arg.contents with
      | none =>
        rw [hcontents] at h
        obtain rfl := Sum.inl.inj h
        simp
      | some pair =>
        simp only [hcontents] at h
        split_ifs at h with hintr
        obtain rfl := Sum.inl.inj h
        simp [aesdAdjustFileOffset, hintr]
    · rw [if_neg hcmd] at h ⊢
      obtain rfl := Sum.inl.inj h
      simp

variable {fixedSizeLlseek}

theorem read_runs (s : System) (file room : ℕ) (count : UInt64) :
    (driverCode fixedSizeLlseek).Runs (.find file room count) s
      (s.step (.read file (some room) count false)).1
      (s.step (.read file (some room) count false)).2 := by
  cases hfind : s.kernel.device.circleBuff.findEntryOffsetForFpos (s.fPos file).toUInt64 0 with
  | mk entry readOffset =>
    cases entry with
    | none =>
      have hread : s.step (.read file (some room) count false) = (⟨0, [], none⟩, s) := by
        simp [System.step, aesdRead, hfind]
      rw [hread]
      exact .last (by simp [driverCode, Statement.execute, hfind])
    | some readEntry =>
      refine .to (.copyToUser file room count readEntry readOffset) s ?_
        (.next rfl (.last ?_))
      · simp [driverCode, Statement.execute, hfind]
      · simp [driverCode, Statement.execute, System.step, aesdRead, hfind, System.setPos]

theorem commit_runs (s : System) (retval : UInt64) :
    (driverCode fixedSizeLlseek).Runs (.search retval) s
      ⟨retval.toInt64, [], (commitPending s.kernel).1⟩
      (s.setKernel (commitPending s.kernel).2) := by
  by_cases hm : newline ∈ s.kernel.pending
  · have hfound := hasNewline_pending.mpr hm
    rw [commitPending_of_mem hm]
    have hsearch : (driverCode fixedSizeLlseek).body (.search retval) s =
        (.more (.addEntry retval), s) := by
      simp [driverCode, Statement.execute, hfound]
    exact .next hsearch (.next rfl (.next rfl (.last rfl)))
  · have hnone := mt hasNewline_pending.mp hm
    rw [commitPending_of_not_mem hm]
    exact .last (by simp [driverCode, Statement.execute, hnone, System.setKernel])

theorem write_runs (s : System) (buf : List UInt8) (count : UInt64) (g : Grant BlockId) :
    (driverCode fixedSizeLlseek).Runs (.allocate buf count g) s
      ⟨(writeLocked s.kernel buf count g).retval, [], (writeLocked s.kernel buf count g).freed⟩
      (s.setKernel (writeLocked s.kernel buf count g).kernel) := by
  cases hg : g.block with
  | none =>
    rw [writeLocked_refused hg]
    exact .last (by simp [driverCode, Statement.execute, hg])
  | some b =>
    rw [writeLocked_granted hg]
    have hallocate : (driverCode fixedSizeLlseek).body (.allocate buf count g) s =
        (.more (.copyFromUser buf count), s.setKernel (allocPending s.kernel count g)) := by
      simp [driverCode, Statement.execute, hg]
    have hcommit := @commit_runs fixedSizeLlseek (s.setKernel (filled s.kernel buf count g))
      (copyPending (allocPending s.kernel count g) buf count).1
    exact .next hallocate (.next rfl hcommit)

/-- The loop of a seek command from `position` on. -/
theorem addSize_runs (s : System) (file : ℕ) (writeCmd writeCmdOffset : UInt32) (beyond : UInt64)
    {position n : ℕ} (hn : position + n = writeCmd.toNat) :
    (driverCode fixedSizeLlseek).Runs (.addSize file writeCmd writeCmdOffset beyond position) s
      ⟨0, [], none⟩ (s.setPos file ((List.range' position n).foldl
        (fun fPos i => fPos + (s.kernel.device.circleBuff.sizeAt beyond i).toInt64) (s.fPos file) +
          writeCmdOffset.toUInt64.toInt64)) := by
  induction n generalizing s position with
  | zero =>
    refine .to (.addOffset file writeCmdOffset) s ?_ (.last rfl)
    simp [driverCode, Statement.execute, show ¬ position < writeCmd.toNat by omega]
  | succ n ih =>
    refine .to (.addSize file writeCmd writeCmdOffset beyond (position + 1))
      (s.setPos file (s.fPos file +
        (s.kernel.device.circleBuff.sizeAt beyond position).toInt64)) ?_ ?_
    · simp [driverCode, Statement.execute, show position < writeCmd.toNat by omega]
    · have hrest := ih (s.setPos file (s.fPos file +
        (s.kernel.device.circleBuff.sizeAt beyond position).toInt64))
        (show position + 1 + n = writeCmd.toNat by omega)
      simpa [List.range'_succ] using hrest

theorem adjust_runs (s : System) (file : ℕ) (writeCmd writeCmdOffset : UInt32) (beyond : UInt64) :
    let out := aesdAdjustFileOffset s.kernel ⟨s.fPos file⟩ writeCmd writeCmdOffset beyond false
    (driverCode fixedSizeLlseek).Runs (.test file writeCmd writeCmdOffset beyond) s
      ⟨out.result, [], none⟩ (s.setPos file out.fPos) := by
  intro out
  by_cases hr : SeekRefused s.kernel writeCmd writeCmdOffset beyond false
  · have htest : writeCmd.toNat > maxWriteOperationsSupported ∨
        writeCmdOffset.toUInt64 ≥ s.kernel.device.circleBuff.sizeAt beyond writeCmd.toNat ∨
        writeCmd.toNat > maxWriteOperationsSupported := by
      rcases hr with hr | hr | hr
      · cases hr
      · exact .inl hr
      · exact .inr (.inl hr)
    have hout : out = ⟨-EINVAL, s.fPos file, out.reads⟩ := by
      by_cases hcmd : writeCmd.toNat ≤ 10
      · have hoff := htest.resolve_left (Nat.not_lt.mpr hcmd)
        simp only [out, aesdAdjustFileOffset_outside hcmd
          (hoff.resolve_right (Nat.not_lt.mpr hcmd))]
      · simp only [out, aesdAdjustFileOffset_tooLarge (Nat.not_le.mp hcmd)]
    rw [hout]
    exact .last (by simp only [driverCode, Statement.execute, if_pos htest, setPos_self])
  · have htest : ¬ (writeCmd.toNat > maxWriteOperationsSupported ∨
        writeCmdOffset.toUInt64 ≥ s.kernel.device.circleBuff.sizeAt beyond writeCmd.toNat ∨
        writeCmd.toNat > maxWriteOperationsSupported) := by
      rintro (h | h | h)
      · exact hr (.inr (.inl h))
      · exact hr (.inr (.inr h))
      · exact hr (.inr (.inl h))
    have hcmd : ¬ writeCmd.toNat > maxWriteOperationsSupported := fun hgt => htest (.inl hgt)
    have hoff : ¬ (writeCmdOffset.toUInt64 ≥ s.kernel.device.circleBuff.sizeAt beyond
        writeCmd.toNat ∨ writeCmd.toNat > maxWriteOperationsSupported) := fun h => htest (.inr h)
    simp only [out, aesdAdjustFileOffset, Bool.false_eq_true, if_false, if_neg hcmd, if_neg hoff]
    by_cases hz : writeCmd = 0
    · rw [if_pos hz]
      refine .to (.addOffset file writeCmdOffset) s ?_ (.last rfl)
      simp only [driverCode, Statement.execute, if_neg htest, if_pos hz]
    · rw [if_neg hz]
      refine .to (.addSize file writeCmd writeCmdOffset beyond 0) s ?_ ?_
      · simp only [driverCode, Statement.execute, if_neg htest, if_neg hz]
      · rw [List.range_eq_range']
        exact addSize_runs s file writeCmd writeCmdOffset beyond (Nat.zero_add _)

theorem total_runs (s : System) (file : ℕ) (offset : Int64) (whence : Int32) {entryIndex n : ℕ}
    (hn : entryIndex + n = 10) (totalBufferSize : Int64) :
    let out := fixedSizeLlseek ⟨s.fPos file⟩ offset whence ((List.range' entryIndex n).foldl
      (fun total i => total + (s.kernel.device.circleBuff.slot i).size.toInt64) totalBufferSize)
    (driverCode fixedSizeLlseek).Runs (.total file offset whence entryIndex totalBufferSize) s
      ⟨out.1, [], none⟩ (s.setPos file out.2.fPos) := by
  induction n generalizing entryIndex totalBufferSize with
  | zero =>
    have hend : ¬ entryIndex < maxWriteOperationsSupported := Nat.not_lt.mpr (Nat.le_of_eq hn.symm)
    exact .last (by simp [driverCode, Statement.execute, hend])
  | succ n ih =>
    refine .to (.total file offset whence (entryIndex + 1)
      (totalBufferSize + (s.kernel.device.circleBuff.slot entryIndex).size.toInt64)) s ?_ ?_
    · have hlt : entryIndex < maxWriteOperationsSupported := show entryIndex < 10 by omega
      simp [driverCode, Statement.execute, hlt]
    · simpa [List.range'_succ] using ih (show entryIndex + 1 + n = 10 by omega)
        (totalBufferSize + (s.kernel.device.circleBuff.slot entryIndex).size.toInt64)

/-- The statements of every call do together what the call does as one step. -/
theorem driver_implements :
    (driverCode fixedSizeLlseek).Implements (LockedOp.atomic fixedSizeLlseek) where
  atOnce h s := before_inl fixedSizeLlseek h s
  locked := by
    intro op l h s
    cases op with
    | transfer c =>
      cases c with
      | write file buf count env =>
        cases buf with
        | none => simp [driverCode, LockedOp.before] at h
        | some buf =>
          simp only [driverCode, LockedOp.before] at h
          split_ifs at h with hcount hintr
          obtain rfl := Sum.inr.inj h
          have hreach : (Call.write file (some buf) count env).Reaches :=
            ⟨by simp, hcount, by simpa using hintr⟩
          have hatomic : LockedOp.atomic fixedSizeLlseek s
              (.transfer (.write file (some buf) count env)) = _ := step_of_reaches s hreach
          rw [hatomic]
          exact write_runs s buf count env.grant
      | read file buf count interrupted =>
        cases buf with
        | none => simp [driverCode, LockedOp.before] at h
        | some room =>
          cases interrupted with
          | true => simp [driverCode, LockedOp.before] at h
          | false =>
            obtain rfl := Sum.inr.inj h
            exact read_runs s file room count
    | llseek file offset whence interrupted =>
      cases interrupted with
      | true => simp [driverCode, LockedOp.before] at h
      | false =>
        obtain rfl := Sum.inr.inj h
        have hruns := @total_runs fixedSizeLlseek s file offset whence _ _
          (Nat.zero_add 10) 0
        rw [← List.range_eq_range'] at hruns
        exact hruns
    | ioctl file cmd arg beyond interrupted =>
      simp only [driverCode, LockedOp.before] at h
      by_cases htype : iocType cmd ≠ aesdIocMagic ∨ iocNr cmd > aesdcharIocMaxnr
      · rw [if_pos htype] at h
        cases h
      rw [if_neg htype] at h
      by_cases haccess : iocDir cmd ≠ 0 ∧ ¬ arg.accessOk
      · rw [if_pos haccess] at h
        cases h
      rw [if_neg haccess] at h
      by_cases hcmd : cmd = aesdcharIocseekto
      · cases hcontents : arg.contents with
        | none => simp [hcmd, hcontents] at h
        | some pair =>
          cases interrupted with
          | true => simp [hcmd, hcontents] at h
          | false =>
            simp only [hcmd, hcontents, if_true, Bool.false_eq_true, if_false] at h
            obtain rfl := Sum.inr.inj h
            let out := aesdAdjustFileOffset s.kernel ⟨s.fPos file⟩ pair.1 pair.2 beyond false
            have hatomic : LockedOp.atomic fixedSizeLlseek s (.ioctl file cmd arg beyond false) =
                (⟨out.result, [], none⟩, s.setPos file out.fPos) := by
              simp only [LockedOp.atomic, LockedOp.toFileOp, System.operate, aesdIoctl,
                if_neg htype, if_neg haccess, if_pos hcmd, hcontents]
              rfl
            rw [hatomic]
            exact adjust_runs s file pair.1 pair.2 beyond
      · rw [if_neg hcmd] at h
        cases h

theorem ite_setPos {P : Prop} [Decidable P] {x y x' y' : Next Statement Reply × System} {j : ℕ}
    {p : Int64} (hx : x' = (x.1, x.2.setPos j p)) (hy : y' = (y.1, y.2.setPos j p)) :
    (if P then x' else y') = ((if P then x else y).1, (if P then x else y).2.setPos j p) := by
  split_ifs
  · exact hx
  · exact hy

variable (fixedSizeLlseek) in
/-- A call takes no notice of another file's position. -/
theorem driver_frame (j : ℕ) (p : Int64) :
    (driverCode fixedSizeLlseek).Frame (·.setPos j p) (·.toFileOp.file ≠ some j)
      (·.file ≠ some j) where
  before := by
    intro op l hop hl
    rwa [before_file hl]
  body := by
    intro l hl s
    simp only [driverCode]
    cases l with
    | find file room count =>
      have hne : file ≠ j := fun heq => hl (congrArg some heq)
      simp only [Statement.execute, setPos_kernel, setPos_fPos_ne hne]
      split <;> rfl
    | copyToUser file room count readEntry readOffset => rfl
    | advance file retval bytes =>
      have hne : file ≠ j := fun heq => hl (congrArg some heq)
      simp only [Statement.execute, setPos_fPos_ne hne, setPos_comm hne]
    | allocate buf count grant =>
      simp only [Statement.execute]
      exact ite_setPos rfl rfl
    | copyFromUser buf count => rfl
    | search retval =>
      simp only [Statement.execute]
      exact ite_setPos rfl rfl
    | addEntry retval => rfl
    | free retval writeEntry => rfl
    | clear retval writeEntry => rfl
    | test file writeCmd writeCmdOffset beyond =>
      simp only [Statement.execute]
      exact ite_setPos rfl (ite_setPos rfl rfl)
    | addSize file writeCmd writeCmdOffset beyond position =>
      have hne : file ≠ j := fun heq => hl (congrArg some heq)
      simp only [Statement.execute, setPos_kernel, setPos_fPos_ne hne, setPos_comm hne]
      exact ite_setPos rfl rfl
    | addOffset file writeCmdOffset =>
      have hne : file ≠ j := fun heq => hl (congrArg some heq)
      simp only [Statement.execute, setPos_fPos_ne hne, setPos_comm hne]
    | total file offset whence entryIndex totalBufferSize =>
      have hne : file ≠ j := fun heq => hl (congrArg some heq)
      simp only [Statement.execute, setPos_kernel, setPos_fPos_ne hne, setPos_comm hne]
      exact ite_setPos rfl rfl
  next := by
    intro l l' s s' hl hbody
    rwa [execute_file fixedSizeLlseek hbody]

end Implements

section Threads

variable {T : Type*} [DecidableEq T]

def threads (T : Type*) (s : System) : Machine T System LockedOp Statement Reply := .init T _ _ _ s

/-- No other thread is in a call on the file. -/
def FreeFile (m : Machine T System LockedOp Statement Reply) : Event T LockedOp → Prop
  | .call _ op => ∀ t, ∀ op' ∈ (m.place t).call, op'.file ≠ op.file
  | .enter _ | .work _ | .unlock _ => True

instance [Fintype T] (m : Machine T System LockedOp Statement Reply) :
    (e : Event T LockedOp) → Decidable (FreeFile m e)
  | .call _ _ => inferInstanceAs (Decidable (∀ _, _))
  | .enter _ | .work _ | .unlock _ => isTrue trivial

/-- A thread takes its next step, one thread at a time on each open file. -/
def Proceeds (fixedSizeLlseek : File → Int64 → Int32 → Int64 → Int64 × File)
    (m : Machine T System LockedOp Statement Reply) (e : Event T LockedOp) : Prop :=
  m.Enabled (driverCode fixedSizeLlseek) e ∧ FreeFile m e

instance [Fintype T] (fixedSizeLlseek : File → Int64 → Int32 → Int64 → Int64 × File)
    (m : Machine T System LockedOp Statement Reply) (e : Event T LockedOp) :
    Decidable (Proceeds fixedSizeLlseek m e) := inferInstanceAs (Decidable (_ ∧ _))

/-- **One lock.** However the statements of any number of threads are interleaved, one thread at a
time on each open file, the calls get the answers of a serial run in the order in which they
return, and a free lock leaves the state of that run. One thread at most is behind the lock, some
thread can always go on, and who has the lock gives it back. -/
theorem driver_calls_serial (fixedSizeLlseek : File → Int64 → Int32 → Int64 → Int64 × File)
    (s : System) (es : List (Event T LockedOp))
    (h : Valid (Machine.step (driverCode fixedSizeLlseek)) (Proceeds fixedSizeLlseek)
      (threads T s) es) :
    let code := driverCode fixedSizeLlseek
    let m := exec (Machine.step code) (threads T s) es
    let calls := returned code (threads T s) es
    replies (LockedOp.atomic fixedSizeLlseek) s (calls.map Prod.fst) = calls.map Prod.snd ∧
      (m.lock = none →
        m.shared = exec (LockedOp.atomic fixedSizeLlseek) s (calls.map Prod.fst)) ∧
      (∀ t, (m.place t).Holds ↔ m.lock = some t) ∧
      (∀ t, m.place t ≠ .idle →
        ∃ u, m.Enabled code (.enter u) ∨ m.Enabled code (.work u) ∨ m.Enabled code (.unlock u)) ∧
      ∀ t, m.lock = some t →
        ∃ n, let m' := exec (Machine.step code) m (List.replicate n (.work t) ++ [.unlock t])
          m'.lock = none ∧ m'.place = Function.update m.place t .idle := by
  intro code m calls
  obtain ⟨hanswers, hend⟩ := serial_run (@driver_implements fixedSizeLlseek)
    (serial_init s) (h.mono fun _ _ hproceeds => hproceeds.1)
  exact ⟨hanswers, hend.free, hend.holds_iff, fun _ hbusy => exists_enabled hend hbusy,
    fun _ hl => gives_back hend hl⟩

/-- One thread writes a line while another waits to read it. -/
def writeAndRead : List (Event (Fin 2) LockedOp) :=
  [.call 0 (.transfer (.write 0 (some [97, 10]) 2 (grantOf 1))),
    .call 1 (.transfer (.read 1 (some 9) 9 false)), .enter 0] ++
  List.replicate 6 (.work 0) ++ [.unlock 0, .enter 1] ++ List.replicate 3 (.work 1) ++ [.unlock 1]

theorem driver_calls_serial_writeAndRead :
    let calls := returned (driverCode integerLlseek) (threads (Fin 2) .init) writeAndRead
    replies (LockedOp.atomic integerLlseek) .init (calls.map Prod.fst) = calls.map Prod.snd :=
  (driver_calls_serial integerLlseek .init writeAndRead (by decide +kernel)).1

/-- **Threads on the log.** Threads whose calls are interleaved statement by statement, one at a
time on each open file, are answered as by the log with a position for every file, which takes
each call as it returns. -/
theorem threads_refine_logDevice
    (fixedSizeLlseek : File → Int64 → Int32 → Int64 → Int64 × File)
    (hkernel : FixedSize fixedSizeLlseek) (es : List (Event T LockedOp))
    (h : Valid (Machine.step (driverCode fixedSizeLlseek)) (Proceeds fixedSizeLlseek)
      (threads T .init) es)
    (hops : Valid (System.operate fixedSizeLlseek) FileOp.Ok .init
      ((returned (driverCode fixedSizeLlseek) (threads T .init) es).map (·.1.toFileOp)))
    (hseeks : ((returned (driverCode fixedSizeLlseek) (threads T .init) es).map
      (·.1.toFileOp)).countP FileOp.seeks < 2 ^ 26) :
    let m := exec (Machine.step (driverCode fixedSizeLlseek)) (threads T .init) es
    let calls := returned (driverCode fixedSizeLlseek) (threads T .init) es
    let ops := calls.map (·.1.toFileOp)
    calls.map (·.2.answer) = replies LogDevice.operate .empty ops ∧
      (m.lock = none → m.shared.kernel.commands = (exec LogDevice.operate .empty ops).stored ∧
        ∀ file, (m.shared.fPos file).toInt = (exec LogDevice.operate .empty ops).pos file) := by
  intro m calls ops
  obtain ⟨hanswers, hend⟩ := serial_run (@driver_implements fixedSizeLlseek) (serial_init .init)
    (h.mono fun _ _ hproceeds => hproceeds.1)
  obtain ⟨hlog, hrepr⟩ := represents_init.run hkernel (n := 0) (fun _ => Nat.zero_le _)
    (by omega) hops
  have hops_eq : (calls.map Prod.fst).map LockedOp.toFileOp = ops := by
    rw [List.map_map]
    rfl
  have hreplies : replies (System.operate fixedSizeLlseek) .init ops = calls.map Prod.snd := by
    rw [← hops_eq, ← replies_map]
    exact hanswers
  have hexec : exec (LockedOp.atomic fixedSizeLlseek) .init (calls.map Prod.fst) =
      exec (System.operate fixedSizeLlseek) .init ops := by
    rw [← hops_eq]
    exact exec_map LockedOp.toFileOp System.init (calls.map Prod.fst)
  refine ⟨?_, fun hl => ?_⟩
  · rw [← hlog, hreplies, List.map_map]
    rfl
  · have hshared : m.shared = exec (System.operate fixedSizeLlseek) .init ops :=
      (hend.free hl).trans hexec
    rw [hshared]
    exact ⟨hrepr.commands_eq, hrepr.toInt_fPos⟩

theorem threads_refine_logDevice_writeAndRead :
    (returned (driverCode integerLlseek) (threads (Fin 2) .init) writeAndRead).map (·.2.answer) =
      replies LogDevice.operate .empty
        ((returned (driverCode integerLlseek) (threads (Fin 2) .init) writeAndRead).map
          (·.1.toFileOp)) :=
  (threads_refine_logDevice integerLlseek fixedSize_integerLlseek writeAndRead (by decide +kernel)
    (by decide +kernel) (by decide +kernel)).1

end Threads

end Aesd
