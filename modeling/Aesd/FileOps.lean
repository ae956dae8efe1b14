import Aesd.Llseek
import Mathlib.Data.List.GetD

/-!
# The whole driver

Every operation of `aesd_fops` on any number of open files. Seen from outside, the driver
is a log of lines with a position for each file.
-/

namespace Aesd
open BlockHeap StepRuns RingWalk Segments

/-- A call through `aesd_fops`. -/
inductive FileOp where
  /-- `aesd_open`, on a new file at position 0. -/
  | openFile (file : ℕ)
  | release (file : ℕ)
  | transfer (c : Call)
  | llseek (file : ℕ) (offset : Int64) (whence : Int32) (interrupted : Bool)
  | ioctl (file : ℕ) (cmd : UInt32) (arg : SeektoArg) (beyond : UInt64) (interrupted : Bool)

/-- One operation; `open` and `release` do no more than to set `private_data`. -/
def System.operate (fixedSizeLlseek : File → Int64 → Int32 → Int64 → Int64 × File) (s : System) :
    FileOp → Reply × System
  | .openFile file => (⟨0, [], none⟩, { s with fPos := Function.update s.fPos file 0 })
  | .release _ => (⟨0, [], none⟩, s)
  | .transfer c => s.step c
  | .llseek file offset whence interrupted =>
    let out := aesdLlseek fixedSizeLlseek s.kernel ⟨s.fPos file⟩ offset whence interrupted
    (⟨out.1, [], none⟩, { s with fPos := Function.update s.fPos file out.2.fPos })
  | .ioctl file cmd arg beyond interrupted =>
    let out := aesdIoctl s.kernel (some ⟨s.fPos file⟩) cmd arg beyond interrupted
    (⟨out.result, [], none⟩, { s with fPos := Function.update s.fPos file out.fPos })

def Reply.answer (r : Reply) : ℤ × List UInt8 := (r.retval.toInt, r.bytes)

/-- The lines written so far and a position for each file. -/
structure LogDevice where
  log : CommandLog
  pos : ℕ → ℕ

/-- The last of the lines whose number is `p` modulo ten. -/
def lastLine (lines : List (List UInt8)) (p : ℕ) : List UInt8 :=
  if p < lines.length then
    lines.getD (lines.length - 1 - (lines.length - 1 - p) % maxWriteOperationsSupported) []
  else []

namespace LogDevice

def empty : LogDevice := ⟨.empty, fun _ => 0⟩

def goto (d : LogDevice) (file p : ℕ) : LogDevice := { d with pos := Function.update d.pos file p }

@[simp] theorem goto_pos (d : LogDevice) (file p : ℕ) : (d.goto file p).pos file = p :=
  Function.update_self ..

def stored (d : LogDevice) : List (List UInt8) := d.log.stored maxWriteOperationsSupported

@[simp] theorem goto_stored (d : LogDevice) (file p : ℕ) : (d.goto file p).stored = d.stored := rfl

/-- A seek command adds the lengths of the lines in the slots before it, and fails outside the
line in its slot; behind the tenth slot it takes for a length what it finds. -/
def seekLength (d : LogDevice) (beyond : UInt64) (p : ℕ) : ℕ :=
  if p < maxWriteOperationsSupported then (lastLine d.log.history p).length else beyond.toNat

/-- How far a seek command moves a file, if it is accepted. -/
def seekMove (d : LogDevice) (writeCmd writeCmdOffset : ℕ) (beyond : UInt64) : Option ℕ :=
  if writeCmd ≤ maxWriteOperationsSupported ∧ writeCmdOffset < d.seekLength beyond writeCmd then
    some (((List.range writeCmd).map (d.seekLength beyond)).sum + writeCmdOffset)
  else none

def writeResult (buf : Option (List UInt8)) (count : UInt64) (env : WriteEnv) : ℤ :=
  match buf with
  | none => (-EFAULT).toInt
  | some buf =>
    if count = 0 then 0
    else if env.interrupted then (-ERESTARTSYS).toInt
    else if env.grant.block = none then (-ENOMEM).toInt
    else (copied buf count).length

def read (d : LogDevice) (file : ℕ) (buf : Option ℕ) (count : UInt64) (interrupted : Bool) :
    (ℤ × List UInt8) × LogDevice :=
  match buf with
  | none => (((-EFAULT).toInt, []), d)
  | some room =>
    if interrupted then (((-ERESTARTSYS).toInt, []), d)
    else
      let bytes := readAt d.stored (d.pos file) (min count.toNat room)
      ((bytes.length, bytes), d.goto file (d.pos file + bytes.length))

def llseekTarget (d : LogDevice) (file : ℕ) (offset : ℤ) (whence : Int32) : ℤ :=
  if whence = seekSet then offset
  else if whence = seekCur then d.pos file + offset
  else d.stored.flatten.length + offset

def llseek (d : LogDevice) (file : ℕ) (offset : Int64) (whence : Int32) (interrupted : Bool) :
    (ℤ × List UInt8) × LogDevice :=
  let target := d.llseekTarget file offset.toInt whence
  if interrupted then (((-ERESTARTSYS).toInt, []), d)
  else if whence = seekCur ∧ offset = 0 then ((d.pos file, []), d)
  else if 0 ≤ target ∧ target ≤ d.stored.flatten.length then
    ((target, []), d.goto file target.toNat)
  else (((-EINVAL).toInt, []), d)

def adjust (d : LogDevice) (file writeCmd writeCmdOffset : ℕ) (beyond : UInt64)
    (interrupted : Bool) : (ℤ × List UInt8) × LogDevice :=
  if interrupted then (((-ERESTARTSYS).toInt, []), d)
  else
    match d.seekMove writeCmd writeCmdOffset beyond with
    | none => (((-EINVAL).toInt, []), d)
    | some n => ((0, []), d.goto file (d.pos file + n))

def ioctl (d : LogDevice) (file : ℕ) (cmd : UInt32) (arg : SeektoArg) (beyond : UInt64)
    (interrupted : Bool) : (ℤ × List UInt8) × LogDevice :=
  if iocType cmd ≠ aesdIocMagic ∨ iocNr cmd > aesdcharIocMaxnr then (((-ENOTTY).toInt, []), d)
  else if iocDir cmd ≠ 0 ∧ ¬ arg.accessOk then (((-EFAULT).toInt, []), d)
  else if cmd = aesdcharIocseekto then
    match arg.contents with
    | none => (((-EFAULT).toInt, []), d)
    | some (writeCmd, writeCmdOffset) =>
      d.adjust file writeCmd.toNat writeCmdOffset.toNat beyond interrupted
  else (((-ENOTTY).toInt, []), d)

def operate (d : LogDevice) : FileOp → (ℤ × List UInt8) × LogDevice
  | .openFile file => ((0, []), d.goto file 0)
  | .release _ => ((0, []), d)
  | .transfer (.write file buf count env) =>
    ((writeResult buf count env, []),
      { d with log := d.log.write (Call.write file buf count env).data })
  | .transfer (.read file buf count interrupted) => d.read file buf count interrupted
  | .llseek file offset whence interrupted => d.llseek file offset whence interrupted
  | .ioctl file cmd arg beyond interrupted => d.ioctl file cmd arg beyond interrupted

end LogDevice

/-- The driver and the log are in step: the next line goes to the slot of its number, and no
position is negative. -/
structure Represents (s : System) (d : LogDevice) : Prop where
  refines : Refines s.kernel d.log
  inOffs_eq : s.kernel.device.circleBuff.inOffs = d.log.history.length % 10
  nonneg : ∀ file, 0 ≤ s.fPos file
  pos_eq : ∀ file, (s.fPos file).toNatClampNeg = d.pos file

theorem represents_init : Represents .init .empty where
  refines := refines_init
  inOffs_eq := rfl
  nonneg _ := Int64.le_refl 0
  pos_eq _ := rfl

section Represents

variable {s : System} {d : LogDevice} {file : ℕ}

theorem Represents.commands_eq (h : Represents s d) : s.kernel.commands = d.stored :=
  h.refines.commands

theorem Represents.toInt_fPos (h : Represents s d) (file : ℕ) : (s.fPos file).toInt = d.pos file := by
  rw [← Int64.cast_toNatClampNeg _ (h.nonneg file), h.pos_eq]

theorem Represents.goto (h : Represents s d) (file : ℕ) {p : Int64} (hp : 0 ≤ p) :
    Represents { s with fPos := Function.update s.fPos file p } (d.goto file p.toNatClampNeg) where
  refines := h.refines
  inOffs_eq := h.inOffs_eq
  nonneg f := by
    by_cases hf : f = file
    · subst hf
      simpa using hp
    · simpa [hf] using h.nonneg f
  pos_eq f := by
    by_cases hf : f = file
    · subst hf
      simp [LogDevice.goto]
    · simpa [LogDevice.goto, hf] using h.pos_eq f

theorem Represents.stay (h : Represents s d) :
    Represents { s with fPos := Function.update s.fPos file (s.fPos file) } d := by
  rwa [Function.update_eq_self]

/-- Slot `p` holds the last line whose number is `p` modulo ten. -/
theorem Represents.slot_size (h : Represents s d) {p : ℕ} (hp : p < 10) :
    (s.kernel.device.circleBuff.slot p).size.toNat = (lastLine d.log.history p).length := by
  set ring := s.kernel.device.circleBuff with hring
  have hwf : ring.WellFormed := h.refines.owned.ring
  have hcommands : s.kernel.commands = d.log.history.drop (d.log.history.length - 10) :=
    h.commands_eq
  have hcount : ring.count = d.log.history.length - (d.log.history.length - 10) := by
    have hlen := congrArg List.length hcommands
    rwa [Kernel.commands, List.length_map, AesdCircularBuffer.active_length, List.length_drop] at hlen
  have hin := hwf.inOffs_eq
  rw [h.inOffs_eq] at hin
  have hout := hwf.outOffs_lt
  obtain ⟨i, hi, hslot⟩ := RingWalk.exists_offset hout hp
  rcases Nat.lt_or_ge i ring.count with hic | hic
  -- the slot holds the `i`-th of the stored lines
  · have hlt : p < d.log.history.length := by omega
    have hlen : i < s.kernel.commands.length := by
      rwa [Kernel.commands, List.length_map, AesdCircularBuffer.active_length]
    have hline : s.kernel.commands[i] = s.kernel.bytesOf (ring.slot p) := by
      simp [Kernel.commands, AesdCircularBuffer.active, ← hring, hslot]
    have hnumber : d.log.history.length - 10 + i =
        d.log.history.length - 1 - (d.log.history.length - 1 - p) % 10 := by omega
    rw [← bytesOf_length s.kernel, ← hline, lastLine, if_pos hlt, ← hnumber]
    simp only [hcommands, List.getElem_drop]
    rw [List.getD_eq_getElem _ _ (by omega)]
  -- no line has this number yet
  · have hge : ¬ p < d.log.history.length := by omega
    rw [lastLine, if_neg hge, ← hslot, hwf.inactive i hic hi]
    rfl

theorem write_answer {buf : Option (List UInt8)} {count : UInt64} {env : WriteEnv}
    (hc : (Call.write file buf count env).KernelOk s) :
    (s.step (.write file buf count env)).1.answer = (LogDevice.writeResult buf count env, []) := by
  cases buf with
  | none => rfl
  | some buf =>
    by_cases hcount : count = 0
    · simp [System.step, aesdWrite, LogDevice.writeResult, Reply.answer, hcount]
    by_cases hintr : env.interrupted = true
    · simp [System.step, aesdWrite, LogDevice.writeResult, Reply.answer, hcount, hintr]
    have hreach : (Call.write file (some buf) count env).Reaches :=
      ⟨by simp, hcount, by simpa using hintr⟩
    rw [step_of_reaches s hreach]
    cases hg : env.grant.block with
    | none => simp [writeLocked_refused hg, LogDevice.writeResult, Reply.answer, hcount, hintr, hg]
    | some b =>
      have hlt := hc.2 (by simp [hg])
      have hn := copyPending_fst_toNat (allocPending s.kernel count env.grant) buf count
      have hle := copied_length_le buf count
      rw [writeLocked_granted hg]
      simp only [Reply.answer, LogDevice.writeResult, if_neg hcount, if_neg hintr, hg, reduceCtorEq,
        if_false]
      rw [CInt.toInt_toInt64 (by omega), hn]

theorem Represents.inOffs_granted (h : Represents s d) (hl : ¬ s.kernel.Lost) (buf : List UInt8)
    {count : UInt64} {g : Grant BlockId} (hcan : s.kernel.heap.CanGrant s.kernel.oldPointer g)
    {b : BlockId} (hg : g.block = some b) (hlim : BelowLimit s.kernel count g) :
    (writeLocked s.kernel buf count g).kernel.device.circleBuff.inOffs =
      (d.log.write (copied buf count)).history.length % 10 := by
  have hin := h.inOffs_eq
  have hpend : (filled s.kernel buf count g).pending = d.log.pending ++ copied buf count := by
    rw [pending_filled h.refines.owned h.refines.fits hl hcan hg (hlim (by simp [hg])),
      h.refines.pending hl]
  rw [writeLocked_granted hg]
  dsimp only
  by_cases hm : newline ∈ d.log.pending ++ copied buf count
  · have hlog := (LineLog.write_of_mem hm).1
    rw [commitPending_of_mem (by rwa [hpend]), hlog, List.length_append, List.length_singleton]
    simp only [AesdCircularBuffer.addEntry, filled_circleBuff, maxWriteOperationsSupported]
    omega
  · have hlog := (LineLog.write_of_notMem hm).1
    rw [commitPending_of_not_mem (by rwa [hpend]), hlog, filled_circleBuff, hin]

theorem Represents.write (h : Represents s d) {buf : Option (List UInt8)} {count : UInt64}
    {env : WriteEnv} (hc : (Call.write file buf count env).KernelOk s)
    (hs : (Call.write file buf count env).Safe s) :
    Represents (s.step (.write file buf count env)).2
      { d with log := d.log.write (Call.write file buf count env).data } where
  refines := refines_step h.refines hc hs
  inOffs_eq := by
    by_cases hr : (Call.write file buf count env).Reaches
    · obtain ⟨file, buf, count, env, heq⟩ := hr.exists_write
      rw [heq] at hc hs hr ⊢
      rw [step_of_reaches s hr]
      cases hg : env.grant.block with
      | none =>
        rw [writeLocked_refused hg]
        simpa [Call.data, hg, LineLog.write_nil] using h.inOffs_eq
      | some b =>
        have := h.inOffs_granted (hs hr (by simp [hg])) buf hc.1 hg hc.2
        simpa [Call.data, hg, hr.2.2] using this
    · rw [(step_of_not_reaches s hr).1, data_of_not_reaches hr, LineLog.write_nil]
      exact h.inOffs_eq
  nonneg := h.nonneg
  pos_eq := h.pos_eq

theorem Represents.read (h : Represents s d) (buf : Option ℕ) (count : UInt64) (interrupted : Bool) :
    (s.step (.read file buf count interrupted)).1.answer = (d.read file buf count interrupted).1 ∧
      Represents (s.step (.read file buf count interrupted)).2
        (d.read file buf count interrupted).2 := by
  cases buf with
  | none => exact ⟨rfl, by simpa [System.step, aesdRead, LogDevice.read] using h⟩
  | some room =>
    cases interrupted with
    | true => exact ⟨rfl, by simpa [System.step, aesdRead, LogDevice.read] using h⟩
    | false =>
      have hread := aesdRead_spec h.refines.owned h.refines.fits ⟨s.fPos file⟩ room count
        (h.nonneg file)
      obtain ⟨hret, hnonneg, hpos⟩ := position_advance h.refines.fits (h.nonneg file)
        (min count.toNat room)
      rw [h.commands_eq, h.pos_eq] at hread hret hnonneg hpos
      have hgoto := h.goto file hnonneg
      rw [hpos] at hgoto
      simp only [System.step, hread, LogDevice.read, Bool.false_eq_true, if_false, Reply.answer,
        Option.getD_some]
      exact ⟨by rw [hret], hgoto⟩

theorem LogDevice.seekTarget_eq (h : Represents s d) {offset : Int64} {whence : Int32}
    (hwhence : whence = seekSet ∨ whence = seekCur ∨ whence = seekEnd) :
    seekTarget (s.fPos file) offset (Int64.ofNat d.stored.flatten.length) whence =
      some (d.llseekTarget file offset.toInt whence) := by
  have htext := text_length_le h.refines.fits
  rw [h.commands_eq] at htext
  have hsize : (Int64.ofNat d.stored.flatten.length).toInt = d.stored.flatten.length :=
    Int64.toInt_ofNat_of_lt (by omega)
  have hcs : seekCur ≠ seekSet := by decide
  have hes : seekEnd ≠ seekSet := by decide
  have hec : seekEnd ≠ seekCur := by decide
  rcases hwhence with rfl | rfl | rfl
  · simp [seekTarget, llseekTarget]
  · simp [seekTarget, llseekTarget, hcs, h.toInt_fPos]
  · simp only [seekTarget, llseekTarget, if_neg hes, if_neg hec, if_true, hsize]

theorem Represents.llseek (h : Represents s d)
    {fixedSizeLlseek : File → Int64 → Int32 → Int64 → Int64 × File} (hk : FixedSize fixedSizeLlseek)
    (offset : Int64) {whence : Int32}
    (hwhence : whence = seekSet ∨ whence = seekCur ∨ whence = seekEnd) (interrupted : Bool) :
    let out := aesdLlseek fixedSizeLlseek s.kernel ⟨s.fPos file⟩ offset whence interrupted
    (out.1.toInt, []) = (d.llseek file offset whence interrupted).1 ∧
      Represents { s with fPos := Function.update s.fPos file out.2.fPos }
        (d.llseek file offset whence interrupted).2 := by
  intro out
  cases interrupted with
  | true => exact ⟨rfl, h.stay⟩
  | false =>
    have htext := text_length_le h.refines.fits
    have hout : out = _ := aesdLlseek_eq h.refines.owned h.refines.fits fixedSizeLlseek
      ⟨s.fPos file⟩ offset whence
    rw [h.commands_eq] at htext hout
    have hsize : (Int64.ofNat d.stored.flatten.length).toInt = d.stored.flatten.length :=
      Int64.toInt_ofNat_of_lt (by omega)
    rw [hk.answer (LogDevice.seekTarget_eq h hwhence), hsize] at hout
    simp only [LogDevice.llseek, Bool.false_eq_true, if_false]
    generalize d.llseekTarget file offset.toInt whence = target at hout ⊢
    split_ifs at hout ⊢ with hcur hin
    · rw [hout]
      exact ⟨by rw [h.toInt_fPos], h.stay⟩
    · have htarget : (Int64.ofInt target).toInt = target :=
        Int64.toInt_ofInt_of_le (by omega) (by omega)
      have hnonneg : 0 ≤ Int64.ofInt target := by
        rw [Int64.le_iff_toInt_le, htarget]
        exact hin.1
      have hclamp : (Int64.ofInt target).toNatClampNeg = target.toNat := by
        have hcast := Int64.cast_toNatClampNeg _ hnonneg
        omega
      have hgoto := h.goto file hnonneg
      rw [hclamp] at hgoto
      rw [hout]
      exact ⟨by rw [htarget], hgoto⟩
    · rw [hout]
      exact ⟨rfl, h.stay⟩

theorem Represents.sizeAt_eq (h : Represents s d) (beyond : UInt64) (p : ℕ) :
    (s.kernel.device.circleBuff.sizeAt beyond p).toNat = d.seekLength beyond p := by
  unfold AesdCircularBuffer.sizeAt LogDevice.seekLength
  split_ifs with hp
  · exact h.slot_size hp
  · rfl

theorem Represents.refused_iff (h : Represents s d) (writeCmd writeCmdOffset : UInt32)
    (beyond : UInt64) : SeekRefused s.kernel writeCmd writeCmdOffset beyond false ↔
      ¬ (writeCmd.toNat ≤ 10 ∧ writeCmdOffset.toNat < d.seekLength beyond writeCmd.toNat) := by
  rw [SeekRefused, UInt64.le_iff_toNat_le, h.sizeAt_eq, UInt32.toNat_toUInt64, not_and_or,
    Nat.not_le, Nat.not_lt]
  simp

theorem Represents.adjust (h : Represents s d) (hpos : d.pos file < 2 ^ 62)
    (writeCmd writeCmdOffset : UInt32) (beyond : UInt64) (interrupted : Bool) :
    let out := aesdAdjustFileOffset s.kernel ⟨s.fPos file⟩ writeCmd writeCmdOffset beyond interrupted
    let out' := d.adjust file writeCmd.toNat writeCmdOffset.toNat beyond interrupted
    (out.result.toInt, []) = out'.1 ∧
      Represents { s with fPos := Function.update s.fPos file out.fPos } out'.2 := by
  intro out out'
  cases interrupted with
  | true => exact ⟨rfl, h.stay⟩
  | false =>
    have hrefused := h.refused_iff writeCmd writeCmdOffset beyond
    by_cases hin : writeCmd.toNat ≤ 10 ∧ writeCmdOffset.toNat < d.seekLength beyond writeCmd.toNat
    · have hacc : ¬ SeekRefused s.kernel writeCmd writeCmdOffset beyond false := by
        rw [hrefused]
        exact not_not.mpr hin
      have hout : out = _ := aesdAdjustFileOffset_accepted hacc
      obtain ⟨hnonneg, hfPos⟩ : 0 ≤ out.fPos ∧ out.fPos.toNatClampNeg = (s.fPos file).toNatClampNeg +
          (s.kernel.device.circleBuff.slotSizes writeCmd.toNat).sum + writeCmdOffset.toNat :=
        aesdAdjustFileOffset_fPos h.refines.owned h.refines.fits
          (show 0 ≤ (File.mk (s.fPos file)).fPos from h.nonneg file) (by rw [h.pos_eq]; exact hpos) hacc
      have hsum : (s.kernel.device.circleBuff.slotSizes writeCmd.toNat).sum =
          ((List.range writeCmd.toNat).map (d.seekLength beyond)).sum := by
        congr 1
        apply List.map_congr_left
        intro p hp
        have hlt : p < 10 := (List.mem_range.mp hp).trans_le hin.1
        rw [h.slot_size hlt, LogDevice.seekLength, if_pos hlt]
      have hgoto := h.goto file hnonneg
      rw [hfPos, hsum, h.pos_eq, Nat.add_assoc] at hgoto
      simp only [out', LogDevice.adjust, LogDevice.seekMove, if_pos hin, Bool.false_eq_true, if_false]
      exact ⟨by rw [hout]; rfl, hgoto⟩
    · have hout : out = ⟨-EINVAL, s.fPos file, out.reads⟩ := by
        by_cases hcmd : writeCmd.toNat ≤ 10
        · have hoff : s.kernel.device.circleBuff.sizeAt beyond writeCmd.toNat ≤
              writeCmdOffset.toUInt64 := by
            rw [UInt64.le_iff_toNat_le, h.sizeAt_eq, UInt32.toNat_toUInt64]
            exact Nat.not_lt.mp fun hlt => hin ⟨hcmd, hlt⟩
          simp only [out, aesdAdjustFileOffset_outside hcmd hoff]
        · simp only [out, aesdAdjustFileOffset_tooLarge (Nat.not_le.mp hcmd)]
      simp only [out', LogDevice.adjust, LogDevice.seekMove, if_neg hin, Bool.false_eq_true, if_false]
      rw [hout]
      exact ⟨rfl, h.stay⟩

theorem Represents.ioctl (h : Represents s d) (hpos : d.pos file < 2 ^ 62) (cmd : UInt32)
    (arg : SeektoArg) (beyond : UInt64) (interrupted : Bool) :
    let out := aesdIoctl s.kernel (some ⟨s.fPos file⟩) cmd arg beyond interrupted
    (out.result.toInt, []) = (d.ioctl file cmd arg beyond interrupted).1 ∧
      Represents { s with fPos := Function.update s.fPos file out.fPos }
        (d.ioctl file cmd arg beyond interrupted).2 := by
  intro out
  simp only [out, aesdIoctl, LogDevice.ioctl]
  split_ifs with htype haccess hcmd
  · exact ⟨rfl, h.stay⟩
  · exact ⟨rfl, h.stay⟩
  · cases arg.contents with
    | none => exact ⟨rfl, h.stay⟩
    | some pair => exact h.adjust hpos pair.1 pair.2 beyond interrupted
  · exact ⟨rfl, h.stay⟩

/-- The environment's side of an operation: an allocator that does its part for a write, and
pending bytes that are still there; a seek of one of the three kinds. -/
def FileOp.Ok (s : System) : FileOp → Prop
  | .transfer c => c.KernelOk s ∧ c.Safe s
  | .llseek _ _ whence _ => whence = seekSet ∨ whence = seekCur ∨ whence = seekEnd
  | _ => True

instance (s : System) : (op : FileOp) → Decidable (op.Ok s)
  | .transfer _ => inferInstanceAs (Decidable (_ ∧ _))
  | .llseek .. => inferInstanceAs (Decidable (_ ∨ _ ∨ _))
  | .openFile _ | .release _ | .ioctl .. => isTrue trivial

def FileOp.seeks : FileOp → Bool
  | .ioctl .. => true
  | _ => false

theorem Represents.operate (h : Represents s d)
    {fixedSizeLlseek : File → Int64 → Int32 → Int64 → Int64 × File} (hk : FixedSize fixedSizeLlseek)
    {op : FileOp} (hop : op.Ok s) (hpos : ∀ file, d.pos file < 2 ^ 62) :
    (s.operate fixedSizeLlseek op).1.answer = (d.operate op).1 ∧
      Represents (s.operate fixedSizeLlseek op).2 (d.operate op).2 := by
  cases op with
  | openFile file => exact ⟨rfl, h.goto file (Int64.le_refl 0)⟩
  | release file => exact ⟨rfl, h⟩
  | transfer c =>
    cases c with
    | write file buf count env => exact ⟨write_answer hop.1, h.write hop.1 hop.2⟩
    | read file buf count interrupted => exact h.read buf count interrupted
  | llseek file offset whence interrupted => exact h.llseek hk offset hop interrupted
  | ioctl file cmd arg beyond interrupted => exact h.ioctl (hpos file) cmd arg beyond interrupted

theorem LogDevice.read_moves (d : LogDevice) (file : ℕ) (buf : Option ℕ) (count : UInt64)
    (interrupted : Bool) : (d.read file buf count interrupted).2 = d ∨
      ∃ p ≤ max (d.pos file) d.stored.flatten.length,
        (d.read file buf count interrupted).2 = d.goto file p := by
  cases buf with
  | none => exact .inl rfl
  | some room =>
    cases interrupted with
    | true => exact .inl rfl
    | false =>
      have hchunk := (readAt_isPrefix d.stored (d.pos file) (min count.toNat room)).length_le
      rw [List.length_drop] at hchunk
      refine .inr ⟨_, ?_, rfl⟩
      omega

theorem LogDevice.llseek_moves (d : LogDevice) (file : ℕ) (offset : Int64) (whence : Int32)
    (interrupted : Bool) : (d.llseek file offset whence interrupted).2 = d ∨
      ∃ p ≤ d.stored.flatten.length,
        (d.llseek file offset whence interrupted).2 = d.goto file p := by
  simp only [LogDevice.llseek]
  split_ifs with _ _ hin
  · exact .inl rfl
  · exact .inl rfl
  · refine .inr ⟨_, ?_, rfl⟩
    omega
  · exact .inl rfl

theorem LogDevice.ioctl_moves (d : LogDevice) (file : ℕ) (cmd : UInt32) (arg : SeektoArg)
    (beyond : UInt64) (interrupted : Bool) : (d.ioctl file cmd arg beyond interrupted).2 = d ∨
      ∃ (writeCmd writeCmdOffset : UInt32) (n : ℕ),
        d.seekMove writeCmd.toNat writeCmdOffset.toNat beyond = some n ∧
        (d.ioctl file cmd arg beyond interrupted).2 = d.goto file (d.pos file + n) := by
  unfold LogDevice.ioctl
  split_ifs
  · exact .inl rfl
  · exact .inl rfl
  · cases arg.contents with
    | none => exact .inl rfl
    | some pair =>
      cases hmove : d.seekMove pair.1.toNat pair.2.toNat beyond with
      | none =>
        cases interrupted <;> exact .inl (by simp [LogDevice.adjust, hmove])
      | some n =>
        cases interrupted with
        | true => exact .inl rfl
        | false => exact .inr ⟨_, _, n, hmove, by simp [LogDevice.adjust, hmove]⟩
  · exact .inl rfl

theorem LogDevice.read_log (d : LogDevice) (file : ℕ) (buf : Option ℕ) (count : UInt64)
    (interrupted : Bool) : (d.read file buf count interrupted).2.log = d.log := by
  rcases d.read_moves file buf count interrupted with heq | ⟨p, -, heq⟩
  · rw [heq]
  · rw [heq]
    rfl

theorem LogDevice.ioctl_log (d : LogDevice) (file : ℕ) (cmd : UInt32) (arg : SeektoArg)
    (beyond : UInt64) (interrupted : Bool) :
    (d.ioctl file cmd arg beyond interrupted).2.log = d.log := by
  rcases d.ioctl_moves file cmd arg beyond interrupted with heq | ⟨a, b, n, -, heq⟩
  · rw [heq]
  · rw [heq]
    rfl

theorem Represents.seekMove_le (h : Represents s d) {writeCmd : ℕ} (writeCmdOffset : UInt32)
    {beyond : UInt64} {n : ℕ} (hn : d.seekMove writeCmd writeCmdOffset.toNat beyond = some n) :
    n ≤ 2 ^ 35 := by
  unfold LogDevice.seekMove at hn
  split_ifs at hn with hin
  obtain rfl := Option.some.inj hn
  have hoffset := writeCmdOffset.toNat_lt
  have hsizes : (List.range writeCmd).map (d.seekLength beyond) =
      s.kernel.device.circleBuff.slotSizes writeCmd := by
    apply List.map_congr_left
    intro p hp
    have hlt : p < 10 := (List.mem_range.mp hp).trans_le hin.1
    rw [h.slot_size hlt, LogDevice.seekLength, if_pos hlt]
  have hsum := slotSizes_sum_le h.refines.owned h.refines.fits hin.1
  rw [hsizes]
  omega

/-- Only a seek command leads behind the stored text, and not far. -/
theorem Represents.pos_operate_le (h : Represents s d) (op : FileOp) (f : ℕ) :
    (d.operate op).2.pos f ≤ max (d.pos f) (2 ^ 35) + if op.seeks then 2 ^ 35 else 0 := by
  have htext := text_length_le h.refines.fits
  rw [h.commands_eq] at htext
  have hgoto (file p extra : ℕ) (hp : p ≤ max (d.pos file) (2 ^ 35) + extra) :
      (d.goto file p).pos f ≤ max (d.pos f) (2 ^ 35) + extra := by
    by_cases hf : f = file
    · subst hf
      simpa [LogDevice.goto] using hp
    · simp only [LogDevice.goto, Function.update_of_ne hf]
      omega
  have hstay (extra : ℕ) : d.pos f ≤ max (d.pos f) (2 ^ 35) + extra := by omega
  cases op with
  | openFile file => exact hgoto file 0 0 (Nat.zero_le _)
  | release file => exact hstay 0
  | transfer c =>
    cases c with
    | write file buf count env => exact hstay 0
    | read file buf count interrupted =>
      rcases d.read_moves file buf count interrupted with hsame | ⟨p, hp, hmove⟩
      · exact (congrArg (fun d' : LogDevice => d'.pos f) hsame).trans_le (hstay 0)
      · exact (congrArg (fun d' : LogDevice => d'.pos f) hmove).trans_le
          (hgoto file p 0 (by omega))
  | llseek file offset whence interrupted =>
    rcases d.llseek_moves file offset whence interrupted with hsame | ⟨p, hp, hmove⟩
    · exact (congrArg (fun d' : LogDevice => d'.pos f) hsame).trans_le (hstay 0)
    · exact (congrArg (fun d' : LogDevice => d'.pos f) hmove).trans_le
        (hgoto file p 0 (by omega))
  | ioctl file cmd arg beyond interrupted =>
    rcases d.ioctl_moves file cmd arg beyond interrupted with
      hsame | ⟨writeCmd, writeCmdOffset, n, hn, hmove⟩
    · exact (congrArg (fun d' : LogDevice => d'.pos f) hsame).trans_le (hstay _)
    · have hle := h.seekMove_le writeCmdOffset hn
      exact (congrArg (fun d' : LogDevice => d'.pos f) hmove).trans_le
        (hgoto file (d.pos file + n) (2 ^ 35) (by omega))

/-- Along a run the answers agree, while no more seek commands come than the positions bear. -/
theorem Represents.run {fixedSizeLlseek : File → Int64 → Int32 → Int64 → Int64 × File}
    (hk : FixedSize fixedSizeLlseek) (h : Represents s d) {n : ℕ}
    (hpos : ∀ file, d.pos file ≤ (n + 1) * 2 ^ 35) {ops : List FileOp}
    (hn : n + ops.countP FileOp.seeks < 2 ^ 26)
    (hv : Valid (System.operate fixedSizeLlseek) FileOp.Ok s ops) :
    (replies (System.operate fixedSizeLlseek) s ops).map Reply.answer =
        replies LogDevice.operate d ops ∧
      Represents (exec (System.operate fixedSizeLlseek) s ops) (exec LogDevice.operate d ops) := by
  induction ops generalizing s d n with
  | nil => exact ⟨rfl, h⟩
  | cons op ops ih =>
    rw [List.countP_cons] at hn
    obtain ⟨hanswer, hstep⟩ := h.operate hk hv.1 fun file => (hpos file).trans_lt (by omega)
    have hbound : ∀ file, (d.operate op).2.pos file ≤
        (n + (if op.seeks then 1 else 0) + 1) * 2 ^ 35 := by
      intro file
      have hle := h.pos_operate_le op file
      have hfile := hpos file
      split_ifs at hle ⊢ <;> omega
    obtain ⟨hrest, hend⟩ := ih hstep hbound (by omega) hv.2
    exact ⟨by rw [replies_cons, replies_cons, List.map_cons, hanswer, hrest], hend⟩

end Represents

/-- **The driver is a log.** In every run of operations on any number of files each answer is
that of the log with one position for every file, and at the end the stored commands, the
pending bytes and the positions are those of the log. -/
theorem driver_refines_logDevice
    (fixedSizeLlseek : File → Int64 → Int32 → Int64 → Int64 × File)
    (hkernel : FixedSize fixedSizeLlseek) (ops : List FileOp)
    (h : Valid (System.operate fixedSizeLlseek) FileOp.Ok .init ops)
    (hseeks : ops.countP FileOp.seeks < 2 ^ 26) :
    let s := exec (System.operate fixedSizeLlseek) .init ops
    let d := exec LogDevice.operate .empty ops
    (replies (System.operate fixedSizeLlseek) .init ops).map Reply.answer =
        replies LogDevice.operate .empty ops ∧
      s.kernel.commands = d.stored ∧ (¬ s.kernel.Lost → s.kernel.pending = d.log.pending) ∧
      ∀ file, (s.fPos file).toInt = d.pos file := by
  intro s d
  obtain ⟨hanswers, hend⟩ := represents_init.run hkernel (n := 0) (fun _ => Nat.zero_le _)
    (by omega) h
  exact ⟨hanswers, hend.commands_eq, hend.refines.pending, hend.toInt_fPos⟩

/-- Two lines are written through one file; another seeks into the second, reads, and goes back
by `lseek`. -/
def seekAndRead : List FileOp :=
  [.openFile 0, .transfer (.write 0 (some [97, 10]) 2 (grantOf 1)),
    .transfer (.write 0 (some [98, 99, 10]) 3 (grantOf 2)), .openFile 1,
    .ioctl 1 aesdcharIocseekto ⟨true, some (1, 1)⟩ 0 false, .transfer (.read 1 (some 9) 9 false),
    .llseek 1 1 seekSet false, .transfer (.read 1 (some 9) 9 false)]

theorem driver_refines_logDevice_seekAndRead :
    (replies (System.operate integerLlseek) .init seekAndRead).map Reply.answer =
      replies LogDevice.operate .empty seekAndRead :=
  (driver_refines_logDevice integerLlseek fixedSize_integerLlseek seekAndRead (by decide +kernel)
    (by decide)).1

/-- The read behind the seek brings the rest of the second line, the one behind the `lseek` the
rest of the first. -/
example : replies LogDevice.operate .empty seekAndRead =
    [(0, []), (2, []), (3, []), (0, []), (0, []), (2, [99, 10]), (1, []), (1, [10])] := by
  decide +kernel

/-- The file whose position an operation uses or moves; a write uses none. -/
def FileOp.file : FileOp → Option ℕ
  | .openFile file | .release file | .transfer (.read file ..) | .llseek file .. |
    .ioctl file .. => some file
  | .transfer (.write ..) => none

theorem LogDevice.pos_operate_ne (d : LogDevice) {op : FileOp} {k : ℕ} (h : op.file ≠ some k) :
    (d.operate op).2.pos k = d.pos k := by
  have hgoto {file p : ℕ} (hf : some file ≠ some k) : (d.goto file p).pos k = d.pos k :=
    Function.update_of_ne (fun heq => hf (congrArg some heq.symm)) ..
  cases op with
  | openFile file => exact hgoto h
  | release file => rfl
  | transfer c =>
    cases c with
    | write file buf count env => rfl
    | read file buf count interrupted =>
      rcases d.read_moves file buf count interrupted with hsame | ⟨p, -, hmove⟩
      · exact congrArg (fun d' : LogDevice => d'.pos k) hsame
      · exact (congrArg (fun d' : LogDevice => d'.pos k) hmove).trans (hgoto h)
  | llseek file offset whence interrupted =>
    rcases d.llseek_moves file offset whence interrupted with hsame | ⟨p, -, hmove⟩
    · exact congrArg (fun d' : LogDevice => d'.pos k) hsame
    · exact (congrArg (fun d' : LogDevice => d'.pos k) hmove).trans (hgoto h)
  | ioctl file cmd arg beyond interrupted =>
    rcases d.ioctl_moves file cmd arg beyond interrupted with hsame | ⟨_, _, n, -, hmove⟩
    · exact congrArg (fun d' : LogDevice => d'.pos k) hsame
    · exact (congrArg (fun d' : LogDevice => d'.pos k) hmove).trans (hgoto h)

def FileOp.within (mine : ℕ → Bool) (op : FileOp) : Bool := op.file.all mine

/-- The same kernel, and the same positions of these files. -/
structure SameOn (mine : ℕ → Bool) (s s' : System) : Prop where
  kernel : s.kernel = s'.kernel
  fPos : ∀ file, mine file = true → s.fPos file = s'.fPos file

section Apart

variable {mine : ℕ → Bool} {s s' : System}
  {fixedSizeLlseek : File → Int64 → Int32 → Int64 → Int64 × File}

theorem SameOn.move (h : SameOn mine s s') (file : ℕ) (p : Int64) :
    SameOn mine { s with fPos := Function.update s.fPos file p }
      { s' with fPos := Function.update s'.fPos file p } where
  kernel := h.kernel
  fPos f hf := by
    by_cases hff : f = file
    · simp [hff]
    · simpa [hff] using h.fPos f hf

theorem SameOn.leave (h : SameOn mine s s') {file : ℕ} (hfile : mine file = false) (p : Int64) :
    SameOn mine { s with fPos := Function.update s.fPos file p } s' where
  kernel := h.kernel
  fPos f hf := by
    have hff : f ≠ file := by
      intro heq
      rw [heq, hfile] at hf
      cases hf
    simpa [hff] using h.fPos f hf

theorem SameOn.operate (h : SameOn mine s s') {op : FileOp} (hop : op.within mine = true) :
    (s.operate fixedSizeLlseek op).1 = (s'.operate fixedSizeLlseek op).1 ∧
      SameOn mine (s.operate fixedSizeLlseek op).2 (s'.operate fixedSizeLlseek op).2 := by
  have hk := h.kernel
  cases op with
  | openFile file => exact ⟨rfl, h.move file 0⟩
  | release file => exact ⟨rfl, h⟩
  | transfer c =>
    cases c with
    | write file buf count env =>
      -- a write answers without looking at a position
      have hout : aesdWrite s.kernel (some ⟨s.fPos file⟩) buf count (some (s.fPos file)) env =
          aesdWrite s'.kernel (some ⟨s'.fPos file⟩) buf count (some (s'.fPos file)) env := by
        rw [hk]
        cases buf <;> rfl
      simp only [System.operate, System.step, hout, true_and]
      exact ⟨rfl, h.fPos⟩
    | read file buf count interrupted =>
      have hpos := h.fPos file hop
      simp only [System.operate, System.step, hk, hpos, true_and]
      exact ⟨rfl, (h.move file _).fPos⟩
  | llseek file offset whence interrupted =>
    have hpos := h.fPos file hop
    simp only [System.operate, hk, hpos, true_and]
    exact ⟨rfl, (h.move file _).fPos⟩
  | ioctl file cmd arg beyond interrupted =>
    have hpos := h.fPos file hop
    simp only [System.operate, hk, hpos, true_and]
    exact ⟨rfl, (h.move file _).fPos⟩

theorem SameOn.skip (h : SameOn mine s s') {op : FileOp} (hop : op.within mine = false) :
    SameOn mine (s.operate fixedSizeLlseek op).2 s' := by
  cases op with
  | openFile file => exact h.leave hop 0
  | release file => exact h
  | transfer c =>
    cases c with
    | write file buf count env => cases hop
    | read file buf count interrupted => exact h.leave hop _
  | llseek file offset whence interrupted => exact h.leave hop _
  | ioctl file cmd arg beyond interrupted => exact h.leave hop _

end Apart

/-- **Files apart.** What others open, read and seek is not seen: the answers to the writes and
to the operations on some files, the positions of these and the whole device are those of
the run without the operations on other files, whichever operations fail. -/
theorem files_independent (fixedSizeLlseek : File → Int64 → Int32 → Int64 → Int64 × File)
    (s : System) (mine : ℕ → Bool) (ops : List FileOp) :
    let step := System.operate fixedSizeLlseek
    let without := ops.filter (FileOp.within mine)
    seen (FileOp.within mine) step s ops = replies step s without ∧
      (exec step s ops).kernel = (exec step s without).kernel ∧
      ∀ file, mine file = true → (exec step s ops).fPos file = (exec step s without).fPos file := by
  intro step without
  obtain ⟨hanswers, hend⟩ := @seen_filter _ _ _ step _ (SameOn mine)
    (fun _ _ _ h hop => h.operate hop) (fun _ _ _ h hop => h.skip hop)
    s s ⟨rfl, fun _ _ => rfl⟩ ops
  exact ⟨hanswers, hend.kernel, hend.fPos⟩

end Aesd
