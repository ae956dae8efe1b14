import Aesd.CommandLog
import Aesd.Seek
import Aesd.SequentialRead

/-!
# Seeking by offset

`aesd_llseek` passes the size of what is stored to the kernel's `fixed_size_llseek`,
which is a parameter here.
-/

namespace Aesd
open StepRuns RingWalk

def seekSet : Int32 := 0
def seekCur : Int32 := 1
def seekEnd : Int32 := 2

/-- `aesd_llseek`: the position it returns, and the file after it. -/
def aesdLlseek (fixedSizeLlseek : File → Int64 → Int32 → Int64 → Int64 × File) (k : Kernel)
    (filp : File) (offset : Int64) (whence : Int32) (interrupted : Bool) : Int64 × File :=
  if interrupted then (-ERESTARTSYS, filp)
  else
    let totalBufferSize := (List.range maxWriteOperationsSupported).foldl
      (fun total entryIndex => total + (k.device.circleBuff.slot entryIndex).size.toInt64) 0
    fixedSizeLlseek filp offset whence totalBufferSize

def seekTarget (fPos offset size : Int64) (whence : Int32) : Option ℤ :=
  if whence = seekSet then some offset.toInt
  else if whence = seekCur then some (fPos.toInt + offset.toInt)
  else if whence = seekEnd then some (size.toInt + offset.toInt)
  else none

/-- What the driver relies on: targets from 0 to the size are reached, others are refused,
and asking for the position changes nothing. -/
structure FixedSize (llseek : File → Int64 → Int32 → Int64 → Int64 × File) : Prop where
  moves : ∀ {filp offset whence size target}, seekTarget filp.fPos offset size whence = some target →
    0 ≤ target → target ≤ size.toInt → ¬ (whence = seekCur ∧ offset = 0) →
    llseek filp offset whence size = (Int64.ofInt target, ⟨Int64.ofInt target⟩)
  refuses : ∀ {filp offset whence size target},
    seekTarget filp.fPos offset size whence = some target → target < 0 ∨ size.toInt < target →
    ¬ (whence = seekCur ∧ offset = 0) → llseek filp offset whence size = (-EINVAL, filp)
  stays : ∀ filp size, llseek filp 0 seekCur size = (filp.fPos, filp)

theorem slotSizes_ten {buffer : AesdCircularBuffer} (h : buffer.WellFormed) :
    (buffer.slotSizes 10).sum = buffer.sizes.sum := by
  have hperm := (h.slots_perm.map (·.size.toNat)).sum_eq
  rw [List.map_append, List.sum_append, List.map_replicate, List.sum_replicate, List.map_map]
    at hperm
  exact hperm

theorem aesdLlseek_eq {k : Kernel} (ho : k.Owned) (hf : k.Fits)
    (fixedSizeLlseek : File → Int64 → Int32 → Int64 → Int64 × File) (filp : File) (offset : Int64)
    (whence : Int32) :
    aesdLlseek fixedSizeLlseek k filp offset whence false =
      fixedSizeLlseek filp offset whence (Int64.ofNat k.commands.flatten.length) := by
  have htext := text_length_le hf
  have hsum : (k.device.circleBuff.slotSizes 10).sum = k.commands.flatten.length := by
    rw [slotSizes_ten ho.ring, sizes_eq, Segments.sum_map_length]
  obtain ⟨h0, htotal⟩ := foldl_advance (fun i => (k.device.circleBuff.slot i).size)
    (List.range 10) (Int64.le_refl 0) (by
      change 0 + (k.device.circleBuff.slotSizes 10).sum < _
      omega)
  have hlength : (List.range maxWriteOperationsSupported).foldl
      (fun total i => total + (k.device.circleBuff.slot i).size.toInt64) 0 =
        Int64.ofNat k.commands.flatten.length := by
    rw [← Int64.toInt_inj, ← Int64.cast_toNatClampNeg _ h0, htotal]
    change ((0 + (k.device.circleBuff.slotSizes 10).sum : ℕ) : ℤ) = _
    rw [hsum, Nat.zero_add, Int64.toInt_ofNat_of_lt (by omega)]
  simp only [aesdLlseek, Bool.false_eq_true, if_false, hlength]

section FixedSize

variable {llseek : File → Int64 → Int32 → Int64 → Int64 × File} {filp : File}

/-- All answers to a seek that has a target. -/
theorem FixedSize.answer (h : FixedSize llseek) {offset size : Int64} {whence : Int32} {target : ℤ}
    (htarget : seekTarget filp.fPos offset size whence = some target) :
    llseek filp offset whence size =
      if whence = seekCur ∧ offset = 0 then (filp.fPos, filp)
      else if 0 ≤ target ∧ target ≤ size.toInt then (Int64.ofInt target, ⟨Int64.ofInt target⟩)
      else (-EINVAL, filp) := by
  split_ifs with hcur hin
  · obtain ⟨rfl, rfl⟩ := hcur
    exact h.stays _ _
  · exact h.moves htarget hin.1 hin.2 hcur
  · exact h.refuses htarget (by omega) hcur

theorem FixedSize.fPos_seekEnd (h : FixedSize llseek) {len n : ℕ} (hlen : len < 2 ^ 63) (hn : n ≤ len) :
    0 ≤ (llseek filp (Int64.ofInt (-n)) seekEnd (Int64.ofNat len)).2.fPos ∧
      (llseek filp (Int64.ofInt (-n)) seekEnd (Int64.ofNat len)).2.fPos.toNatClampNeg = len - n := by
  have hsize : (Int64.ofNat len).toInt = len := Int64.toInt_ofNat_of_lt hlen
  have hoffset : (Int64.ofInt (-n)).toInt = -n := Int64.toInt_ofInt_of_le (by omega) (by omega)
  have htarget : seekTarget filp.fPos (Int64.ofInt (-n)) (Int64.ofNat len) seekEnd =
      some ((len - n : ℕ) : ℤ) := by
    have hcur : seekEnd ≠ seekCur := by decide
    have hset : seekEnd ≠ seekSet := by decide
    rw [seekTarget, if_neg hset, if_neg hcur, if_pos rfl, hsize, hoffset]
    congr 1
    omega
  have hmove := h.moves htarget (by omega) (by rw [hsize]; omega) (fun hc => by cases hc.1)
  have htoInt : (Int64.ofInt ((len - n : ℕ) : ℤ)).toInt = (len - n : ℕ) :=
    Int64.toInt_ofInt_of_le (by omega) (by omega)
  have h0 : 0 ≤ Int64.ofInt ((len - n : ℕ) : ℤ) := by
    rw [Int64.le_iff_toInt_le, htoInt]
    exact Int.natCast_nonneg _
  rw [hmove]
  refine ⟨h0, ?_⟩
  have hcast := Int64.cast_toNatClampNeg _ h0
  change (Int64.ofInt ((len - n : ℕ) : ℤ)).toNatClampNeg = len - n
  omega

end FixedSize

/-- **Seeks by offset.** In every state that successful writes reach, a seek is the kernel's
seek over the stored text, and reading from `n` bytes before its end brings these bytes. -/
theorem llseek_over_text (fixedSizeLlseek : File → Int64 → Int32 → Int64 → Int64 × File)
    (hkernel : FixedSize fixedSizeLlseek) (calls : List Call)
    (h : Valid System.step Call.Succeeds .init calls) :
    let k := (exec System.step .init calls).kernel
    let text := k.commands.flatten
    let llseek := aesdLlseek fixedSizeLlseek k
    (∀ filp offset whence, llseek filp offset whence false =
      fixedSizeLlseek filp offset whence (Int64.ofNat text.length)) ∧
    (∀ filp offset whence, llseek filp offset whence true = (-ERESTARTSYS, filp)) ∧
    (∀ filp offset whence target,
      seekTarget filp.fPos offset (Int64.ofNat text.length) whence = some target →
      llseek filp offset whence false =
        if whence = seekCur ∧ offset = 0 then (filp.fPos, filp)
        else if 0 ≤ target ∧ target ≤ text.length then
          (Int64.ofInt target, ⟨Int64.ofInt target⟩)
        else (-EINVAL, filp)) ∧
    ∀ n : ℕ, 1 ≤ n → n ≤ text.length → ∀ (filp : File) (s : System) (file : ℕ),
      s.kernel = k → s.fPos file = (llseek filp (Int64.ofInt (-n)) seekEnd false).2.fPos →
      ∀ reads : List Call, (∀ c ∈ reads, c.CompleteRead file) →
        ((∃ r ∈ replies System.step s reads, r.retval = 0) →
          ((replies System.step s reads).map (·.bytes)).flatten = text.drop (text.length - n)) ∧
        (n < reads.length → ∃ r ∈ replies System.step s reads, r.retval = 0) := by
  intro k text llseek
  have ho : k.Owned := (succeeds_run calls h).1.owned
  have hf : k.Fits := (succeeds_run calls h).1.fits
  have htext : text.length ≤ 10 * 2 ^ 31 := text_length_le hf
  have hsize : (Int64.ofNat text.length).toInt = text.length :=
    Int64.toInt_ofNat_of_lt (by omega)
  have hpass (filp : File) (offset : Int64) (whence : Int32) : llseek filp offset whence false =
      fixedSizeLlseek filp offset whence (Int64.ofNat text.length) :=
    aesdLlseek_eq ho hf fixedSizeLlseek filp offset whence
  refine ⟨hpass, fun _ _ _ => rfl, ?_, ?_⟩
  · intro filp offset whence target htarget
    rw [hpass, hkernel.answer htarget, hsize]
  · intro n _ hle filp s file hs hpos reads hr
    obtain ⟨h0, hclamp⟩ := @FixedSize.fPos_seekEnd _ filp hkernel text.length n (by omega) hle
    rw [hpass] at hpos
    rw [← hpos] at h0 hclamp
    have hto := reads_to_end (hs ▸ ho) (hs ▸ hf) h0 hr
    have hzero := zero_among_reads (hs ▸ ho) (hs ▸ hf) h0 hr
    rw [hs, hclamp] at hto hzero
    exact ⟨hto, fun hlong => hzero (by change text.length - _ < _; omega)⟩

/-- A kernel's seek, with its targets computed in the integers. -/
def integerLlseek (filp : File) (offset : Int64) (whence : Int32) (size : Int64) : Int64 × File :=
  match seekTarget filp.fPos offset size whence with
  | none => (-EINVAL, filp)
  | some target =>
    if whence = seekCur ∧ offset = 0 then (filp.fPos, filp)
    else if 0 ≤ target ∧ target ≤ size.toInt then (Int64.ofInt target, ⟨Int64.ofInt target⟩)
    else (-EINVAL, filp)

theorem fixedSize_integerLlseek : FixedSize integerLlseek where
  moves htarget h0 hle hcur := by
    simp only [integerLlseek, htarget, if_neg hcur]
    exact if_pos ⟨h0, hle⟩
  refuses htarget hout hcur := by
    simp only [integerLlseek, htarget, if_neg hcur]
    exact if_neg (by omega)
  stays filp size := by
    have hne : seekCur ≠ seekSet := by decide
    simp [integerLlseek, seekTarget, hne]

def nearEnd : System := ⟨(exec System.step .init twoWrites).kernel, fun _ => 2⟩

theorem llseek_over_text_nearEnd :
    ((replies System.step nearEnd twoReads).map (·.bytes)).flatten =
      nearEnd.kernel.commands.flatten.drop (nearEnd.kernel.commands.flatten.length - 1) :=
  ((llseek_over_text integerLlseek fixedSize_integerLlseek twoWrites (by decide)).2.2.2 1
    (by decide) (by decide) ⟨0⟩ nearEnd 0 rfl (by decide) twoReads
    (by simp [twoReads, Call.CompleteRead])).1 (by decide)

end Aesd
