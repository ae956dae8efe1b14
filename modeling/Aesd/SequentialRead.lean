import Aesd.Lib.Segments
import Aesd.CommandLog

/-!
# Sequential reads

A read returns a piece of one stored command; a sequence of reads delivers the
concatenation of the stored commands from its start position on.
-/

namespace Aesd
open BlockHeap RingWalk StepRuns Segments

theorem sizes_eq (k : Kernel) : k.device.circleBuff.sizes = k.commands.map List.length :=
  (commands_lengths k).symm

theorem commands_length_le (k : Kernel) : k.commands.length ≤ 10 := by
  simpa [Kernel.commands] using k.device.circleBuff.count_le

theorem text_length_le {k : Kernel} (hf : k.Fits) : k.commands.flatten.length ≤ 10 * 2 ^ 31 := by
  rw [← sum_map_length, ← sizes_eq]
  exact hf.ring.sum_le

theorem clamp_toNat (count : UInt64) {size off : UInt64} (h : off ≤ size) :
    (if count > size - off then size - off else count).toNat =
      min count.toNat (size.toNat - off.toNat) := by
  have hs := UInt64.toNat_sub_of_le size off h
  split_ifs with hc
  · rw [gt_iff_lt, UInt64.lt_iff_toNat_lt, hs] at hc
    omega
  · rw [gt_iff_lt, UInt64.lt_iff_toNat_lt, hs] at hc
    omega

/-- What one read delivers from a position of the stored text. -/
theorem aesdRead_spec {k : Kernel} (ho : k.Owned) (hf : k.Fits) (filp : File) (room : ℕ)
    (count : UInt64) {p : Int64} (hp : 0 ≤ p) :
    let chunk := readAt k.commands p.toNatClampNeg (min count.toNat room)
    aesdRead k (some filp) (some room) count (some p) false =
      ⟨(UInt64.ofNat chunk.length).toInt64, chunk,
        some (p + (UInt64.ofNat chunk.length).toInt64)⟩ := by
  intro chunk
  have hpos : p.toUInt64.toNat = p.toNatClampNeg := Int64.toNat_toUInt64_of_le hp
  have hfind := AesdCircularBuffer.find_spec ho.ring hf.ring p.toUInt64 0
  rw [sizes_eq, hpos] at hfind
  simp only [aesdRead, hfind, Bool.false_eq_true, if_false]
  cases hl : locate (k.commands.map List.length) p.toNatClampNeg with
  | none =>
    have hchunk : chunk = [] := by simp [chunk, readAt, hl]
    simp [AesdCircularBuffer.answer, hchunk]
  | some io =>
    obtain ⟨i, o⟩ := io
    obtain ⟨hi, hlt, _⟩ := locate_eq_some.mp hl
    have hi' : i < k.commands.length := by simpa using hi
    have hic : i < k.device.circleBuff.count := by simpa [Kernel.commands] using hi'
    -- the entry found is the `i`-th stored command
    have hcmd : k.commands[i] = k.bytesOf (k.device.circleBuff.slot
        ((k.device.circleBuff.outOffs + i) % 10)) := by
      simp [Kernel.commands, AesdCircularBuffer.active]
    have hsmall := hf.ring _ (AesdCircularBuffer.mem_active.mpr ⟨i, hic, rfl⟩)
    simp only [AesdCircularBuffer.answer]
    generalize k.device.circleBuff.slot ((k.device.circleBuff.outOffs + i) % 10) = e at hcmd hsmall
    have hsize : k.commands[i].length = e.size.toNat := by rw [hcmd, bytesOf_length]
    have hos : o < e.size.toNat := by simpa [hsize] using hlt
    have hon : (UInt64.ofNat o).toNat = o := UInt64.toNat_ofNat_of_lt' (by
      simp only [UInt64.size]
      omega)
    have hcount := clamp_toNat count (show UInt64.ofNat o ≤ e.size by
      rw [UInt64.le_iff_toNat_le, hon]
      omega)
    rw [hon] at hcount
    have hchunk : chunk = k.heap.contents e.buffptr o
        (min (min count.toNat (e.size.toNat - o)) room) := by
      have htake : chunk = (k.commands[i].drop o).take (min count.toNat room) := by
        simp [chunk, readAt, hl, List.getElem?_eq_getElem hi']
      rw [htake, hcmd, Kernel.bytesOf, List.take_eq_take_min, List.length_drop,
        Heap.contents_length,
        show min (min count.toNat room) (e.size.toNat - o) =
          min (min count.toNat (e.size.toNat - o)) room by omega,
        Heap.take_drop_contents _ _ (by omega), Nat.zero_add]
    rw [hcount, hon, CInt.sub_sub_cancel, hchunk, Heap.contents_length]

/-- A position moved by a piece of the stored text neither wraps nor turns negative. -/
theorem position_advance {k : Kernel} (hf : k.Fits) {p : Int64} (hp : 0 ≤ p) (n : ℕ) :
    let len := (readAt k.commands p.toNatClampNeg n).length
    (UInt64.ofNat len).toInt64.toInt = len ∧ 0 ≤ p + (UInt64.ofNat len).toInt64 ∧
      (p + (UInt64.ofNat len).toInt64).toNatClampNeg = p.toNatClampNeg + len := by
  intro len
  have hlen := (readAt_isPrefix k.commands p.toNatClampNeg n).length_le
  rw [List.length_drop] at hlen
  have htext := text_length_le hf
  have hclamp := p.toNatClampNeg_lt
  have hn : (UInt64.ofNat len).toNat = len :=
    UInt64.toNat_ofNat_of_lt' (by simp only [UInt64.size]; omega)
  have hadv := CInt.advance (n := UInt64.ofNat len) hp (by
    rw [hn]
    rcases Nat.eq_zero_or_pos len with h0 | h0 <;> omega)
  rw [hn] at hadv
  refine ⟨?_, hadv⟩
  rw [CInt.toInt_toInt64 (by rw [hn]; omega), hn]

def Call.readOn (file : ℕ) (s : System) (c : Call) : List UInt8 :=
  match c with
  | .read f _ _ _ => if f = file then (s.step c).1.bytes else []
  | .write .. => []

/-- Any call moves the position by what it reads on the file, a piece of the stored text. -/
theorem readOn_step {s : System} {file : ℕ} (ho : s.kernel.Owned) (hf : s.kernel.Fits)
    (hp : 0 ≤ s.fPos file) (c : Call) :
    (∃ n, c.readOn file s = readAt s.kernel.commands (s.fPos file).toNatClampNeg n) ∧
      0 ≤ (s.step c).2.fPos file ∧
      ((s.step c).2.fPos file).toNatClampNeg =
        (s.fPos file).toNatClampNeg + (c.readOn file s).length := by
  have hnothing : readAt s.kernel.commands (s.fPos file).toNatClampNeg 0 = [] :=
    List.eq_nil_of_length_eq_zero (Nat.le_zero.mp (readAt_length_le _ _ 0))
  cases c with
  | write f buf count env => exact ⟨⟨0, hnothing.symm⟩, hp, rfl⟩
  | read f buf count interrupted =>
    by_cases hfile : f = file
    · subst hfile
      rcases Option.eq_none_or_eq_some buf with rfl | ⟨room, rfl⟩
      · exact ⟨⟨0, by simp [System.step, Call.readOn, aesdRead, hnothing]⟩,
          by simp [System.step, Call.readOn, aesdRead, hp]⟩
      · cases interrupted
        · have hread := aesdRead_spec ho hf ⟨s.fPos f⟩ room count hp
          obtain ⟨_, hadv⟩ := position_advance hf hp (min count.toNat room)
          simp only [System.step, Call.readOn, hread, if_true, Option.getD_some,
            Function.update_self]
          exact ⟨⟨_, rfl⟩, hadv⟩
        · exact ⟨⟨0, by simp [System.step, Call.readOn, aesdRead, hnothing]⟩,
            by simp [System.step, Call.readOn, aesdRead, hp]⟩
    · simp only [System.step, Call.readOn, if_neg hfile, Function.update_of_ne (Ne.symm hfile)]
      exact ⟨⟨0, hnothing.symm⟩, hp, rfl⟩

/-- A read on `file` with a positive count that is copied in full. -/
def Call.CompleteRead (file : ℕ) : Call → Prop
  | .read f buf count interrupted =>
    f = file ∧ 0 < count ∧ (∃ room, buf = some room ∧ count.toNat ≤ room) ∧ interrupted = false
  | .write .. => False

def Call.count : Call → ℕ
  | .read _ _ count _ => count.toNat
  | .write .. => 0

variable {s : System} {file : ℕ}

/-- One complete read: its reply, the new position, and everything else unchanged. -/
theorem read_step (ho : s.kernel.Owned) (hf : s.kernel.Fits) (hp : 0 ≤ s.fPos file) {c : Call}
    (hc : c.CompleteRead file) :
    let chunk := readAt s.kernel.commands (s.fPos file).toNatClampNeg c.count
    (s.step c).1.bytes = chunk ∧ (s.step c).1.retval.toInt = chunk.length ∧
      (s.step c).2.kernel = s.kernel ∧ 0 ≤ (s.step c).2.fPos file ∧
      ((s.step c).2.fPos file).toNatClampNeg = (s.fPos file).toNatClampNeg + chunk.length := by
  intro chunk
  cases c with
  | write => exact hc.elim
  | read f buf count interrupted =>
    obtain ⟨rfl, hcount, ⟨room, rfl, hroom⟩, rfl⟩ := hc
    have hmin : min count.toNat room = count.toNat := by omega
    have hread := aesdRead_spec ho hf ⟨s.fPos f⟩ room count hp
    simp only [hmin] at hread
    have hchunk : chunk = readAt s.kernel.commands (s.fPos f).toNatClampNeg count.toNat := rfl
    rw [← hchunk] at hread
    obtain ⟨hret, hadv⟩ := position_advance hf hp count.toNat
    rw [← hchunk] at hret hadv
    simp only [System.step, hread, Option.getD_some, Function.update_self]
    exact ⟨trivial, hret, trivial, hadv⟩

/-- A complete read finds the end of the stored text, and only there it returns nothing. -/
theorem read_eq_zero_iff (ho : s.kernel.Owned) (hf : s.kernel.Fits) (hp : 0 ≤ s.fPos file) {c : Call}
    (hc : c.CompleteRead file) :
    (s.step c).1.retval = 0 ↔ s.kernel.commands.flatten.length ≤ (s.fPos file).toNatClampNeg := by
  obtain ⟨_, hret, _⟩ := read_step ho hf hp hc
  have hpos : 0 < c.count := by
    cases c with
    | write => exact hc.elim
    | read => simpa [Call.count, UInt64.lt_iff_toNat_lt] using hc.2.1
  rw [← readAt_eq_nil hpos, ← List.length_eq_zero_iff, ← Int64.toInt_inj, hret]
  simp

/-- A run of complete reads is a sequence of abstract reads, and only moves the position. -/
theorem reads_run (ho : s.kernel.Owned) (hf : s.kernel.Fits) (hp : 0 ≤ s.fPos file)
    (reads : List Call) (hr : ∀ c ∈ reads, c.CompleteRead file) :
    (replies System.step s reads).map (·.bytes) =
        readSeq s.kernel.commands (s.fPos file).toNatClampNeg (reads.map Call.count) ∧
      (exec System.step s reads).kernel = s.kernel ∧ 0 ≤ (exec System.step s reads).fPos file ∧
      ((exec System.step s reads).fPos file).toNatClampNeg = (s.fPos file).toNatClampNeg +
        ((replies System.step s reads).map (·.bytes)).flatten.length := by
  induction reads generalizing s with
  | nil => exact ⟨rfl, rfl, hp, by simp⟩
  | cons c reads ih =>
    obtain ⟨hbytes, _, hk, hp', hpos⟩ := read_step ho hf hp (hr c List.mem_cons_self)
    obtain ⟨h1, h2, h3, h4⟩ := ih (hk ▸ ho) (hk ▸ hf) hp' fun d hd => hr d (List.mem_cons_of_mem _ hd)
    refine ⟨?_, ?_, h3, ?_⟩
    · rw [replies_cons, List.map_cons, List.map_cons, hbytes, h1, hk, hpos]
      rfl
    · rw [exec_cons, h2, hk]
    · rw [exec_cons, h4, hpos, replies_cons, List.map_cons, List.flatten_cons, List.length_append,
        hbytes]
      omega

theorem retval_eq_zero_iff_bytes (ho : s.kernel.Owned) (hf : s.kernel.Fits) (hp : 0 ≤ s.fPos file)
    {reads : List Call} (hr : ∀ c ∈ reads, c.CompleteRead file) {r : Reply}
    (hmem : r ∈ replies System.step s reads) : r.retval = 0 ↔ r.bytes = [] := by
  obtain ⟨before, c, after, rfl, rfl⟩ := mem_replies hmem
  obtain ⟨_, hk, hp', _⟩ := reads_run ho hf hp before fun d hd => hr d (by simp [hd])
  obtain ⟨hbytes, hret, _⟩ := read_step (hk ▸ ho) (hk ▸ hf) hp' (hr c (by simp))
  rw [hbytes, ← List.length_eq_zero_iff, ← Int64.toInt_inj, hret]
  simp

theorem end_of_zero (ho : s.kernel.Owned) (hf : s.kernel.Fits) (hp : 0 ≤ s.fPos file)
    {reads : List Call} (hr : ∀ c ∈ reads, c.CompleteRead file) {r : Reply}
    (hmem : r ∈ replies System.step s reads) (hz : r.retval = 0) :
    s.kernel.commands.flatten.length ≤ (s.fPos file).toNatClampNeg +
      ((replies System.step s reads).map (·.bytes)).flatten.length := by
  obtain ⟨before, c, after, rfl, rfl⟩ := mem_replies hmem
  obtain ⟨_, hk, hp', hpos⟩ := reads_run ho hf hp before fun d hd => hr d (by simp [hd])
  have hend := (read_eq_zero_iff (hk ▸ ho) (hk ▸ hf) hp' (hr c (by simp))).mp hz
  rw [hk, hpos] at hend
  rw [replies_append, List.map_append, List.flatten_append, List.length_append]
  omega

theorem reads_append_drop (ho : s.kernel.Owned) (hf : s.kernel.Fits) (hp : 0 ≤ s.fPos file)
    {reads : List Call} (hr : ∀ c ∈ reads, c.CompleteRead file) :
    ((replies System.step s reads).map (·.bytes)).flatten ++
        s.kernel.commands.flatten.drop ((s.fPos file).toNatClampNeg +
          ((replies System.step s reads).map (·.bytes)).flatten.length) =
      s.kernel.commands.flatten.drop (s.fPos file).toNatClampNeg := by
  rw [(reads_run ho hf hp reads hr).1]
  exact readSeq_append_drop _ _ _

theorem reads_filter_length_le (ho : s.kernel.Owned) (hf : s.kernel.Fits) (hp : 0 ≤ s.fPos file)
    {reads : List Call} (hr : ∀ c ∈ reads, c.CompleteRead file) :
    (((replies System.step s reads).map (·.bytes)).filter (· ≠ [])).length ≤
      s.kernel.commands.flatten.length - (s.fPos file).toNatClampNeg := by
  have hlen := congrArg List.length (reads_append_drop ho hf hp hr)
  have hcount := countP_ne_nil_le ((replies System.step s reads).map (·.bytes))
  rw [List.length_append, List.length_drop, List.length_drop] at hlen
  omega

/-- Reads until 0 bring the rest of the text. -/
theorem reads_to_end (ho : s.kernel.Owned) (hf : s.kernel.Fits) (hp : 0 ≤ s.fPos file)
    {reads : List Call} (hr : ∀ c ∈ reads, c.CompleteRead file)
    (hz : ∃ r ∈ replies System.step s reads, r.retval = 0) :
    ((replies System.step s reads).map (·.bytes)).flatten =
      s.kernel.commands.flatten.drop (s.fPos file).toNatClampNeg := by
  obtain ⟨r, hmem, hz⟩ := hz
  have hend := end_of_zero ho hf hp hr hmem hz
  rw [← reads_append_drop ho hf hp hr, List.drop_of_length_le hend, List.append_nil]

/-- More reads than there are bytes left include one that returns 0. -/
theorem zero_among_reads (ho : s.kernel.Owned) (hf : s.kernel.Fits) (hp : 0 ≤ s.fPos file)
    {reads : List Call} (hr : ∀ c ∈ reads, c.CompleteRead file)
    (hlong : s.kernel.commands.flatten.length - (s.fPos file).toNatClampNeg < reads.length) :
    ∃ r ∈ replies System.step s reads, r.retval = 0 := by
  by_contra hne
  have hcount := reads_filter_length_le ho hf hp hr
  have hall : ((replies System.step s reads).map (·.bytes)).filter (· ≠ []) =
      (replies System.step s reads).map (·.bytes) := by
    rw [List.filter_eq_self]
    intro chunk hchunk
    obtain ⟨r, hmem, rfl⟩ := List.mem_map.mp hchunk
    have hnz : r.retval ≠ 0 := fun hz => hne ⟨r, hmem, hz⟩
    simpa [retval_eq_zero_iff_bytes ho hf hp hr hmem] using hnz
  rw [hall, List.length_map, replies_length] at hcount
  omega

/-- **Sequential reads.** In every reachable state, reads on one file deliver the
stored text from the file's position on, in pieces of single commands, and end
with 0 exactly at its end. -/
theorem reads_deliver_commands (calls : List Call) (h : Valid System.step Call.KernelOk .init calls)
    (s : System) (hs : s.kernel = (exec System.step .init calls).kernel) (file : ℕ)
    (hp : 0 ≤ s.fPos file) (reads : List Call) (hr : ∀ c ∈ reads, c.CompleteRead file) :
    let text := s.kernel.commands.flatten
    let p := (s.fPos file).toNatClampNeg
    let chunks := (replies System.step s reads).map (·.bytes)
    let s' := exec System.step s reads
    chunks.flatten <+: text.drop p ∧
    (chunks.filter (· ≠ [])).length ≤ text.length - p ∧
    ((∃ r ∈ replies System.step s reads, r.retval = 0) → chunks.flatten = text.drop p) ∧
    (text.length - p < reads.length → ∃ r ∈ replies System.step s reads, r.retval = 0) ∧
    s'.kernel = s.kernel ∧
    ∀ c : Call, c.CompleteRead file →
      let r := (s'.step c).1
      r.retval.toInt = r.bytes.length ∧ r.bytes.length ≤ c.count ∧
      ((s'.step c).2.fPos file).toInt = (s'.fPos file).toInt + r.bytes.length ∧
      (r.bytes = [] ∨ ∃ cmd ∈ s.kernel.commands, r.bytes <:+: cmd) ∧
      (r.retval = 0 ↔ text.length ≤ (s'.fPos file).toNatClampNeg) := by
  intro text p chunks s'
  obtain ⟨ho, hf⟩ : s.kernel.Owned ∧ s.kernel.Fits := by
    rw [hs]
    exact fits_run ⟨owned_init, fits_init⟩ h
  obtain ⟨_, hk, hp', _⟩ := reads_run ho hf hp reads hr
  refine ⟨⟨_, reads_append_drop ho hf hp hr⟩, reads_filter_length_le ho hf hp hr,
    reads_to_end ho hf hp hr, zero_among_reads ho hf hp hr, hk, ?_⟩
  · intro c hc
    have ho' : s'.kernel.Owned := by rw [hk]; exact ho
    have hf' : s'.kernel.Fits := by rw [hk]; exact hf
    obtain ⟨hbytes, hret, _, hp'', hadv⟩ := read_step ho' hf' hp' hc
    have hzero := read_eq_zero_iff ho' hf' hp' hc
    rw [hk] at hbytes hret hadv hzero
    refine ⟨by rw [hbytes, hret], ?_, ?_, ?_, hzero⟩
    · rw [hbytes]
      exact readAt_length_le _ _ _
    · rw [← Int64.cast_toNatClampNeg _ hp'', ← Int64.cast_toNatClampNeg _ hp', hbytes, hadv]
      push_cast
      rfl
    · rw [hbytes]
      rcases Nat.lt_or_ge (s'.fPos file).toNatClampNeg s.kernel.commands.flatten.length with hlt | hge
      · exact .inr (readAt_within hlt _)
      · exact .inl (readAt_of_length_le hge _)

/-- The two written lines, and a file whose position is on the second byte. -/
def afterTwoWrites : System := ⟨(exec System.step .init twoWrites).kernel, fun _ => 1⟩

def twoReads : List Call := [.read 0 (some 1) 1 false, .read 0 (some 1) 1 false]

theorem reads_deliver_commands_twoReads :
    ((replies System.step afterTwoWrites twoReads).map (·.bytes)).flatten <+:
      afterTwoWrites.kernel.commands.flatten.drop 1 :=
  (reads_deliver_commands twoWrites (by decide) afterTwoWrites rfl 0 (by decide) twoReads
    (by simp [twoReads, Call.CompleteRead])).1

end Aesd
