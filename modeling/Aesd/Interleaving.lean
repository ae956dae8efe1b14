import Aesd.SequentialRead
import Mathlib.Data.List.Infix

/-!
# One reader among writers

A file position counts from the oldest stored command, so what it means moves
with every eviction. A watched run records all commands committed and all bytes
that one file has read.
-/

namespace Aesd
open BlockHeap RingWalk StepRuns Segments

/-- What a call commits: `in_offs` moves by one with every commit, and the newest
stored command is then the committed one. -/
def Call.committed (s : System) (c : Call) : List (List UInt8) :=
  let k := (s.step c).2.kernel
  if k.device.circleBuff.inOffs = s.kernel.device.circleBuff.inOffs then []
  else k.commands.getLast?.toList

/-- The call hands a buffer to `kfree`: a command is evicted. -/
def Call.Evicts (s : System) (c : Call) : Prop := (s.step c).1.freed ≠ none

structure Watched where
  system : System
  /-- Every command ever committed. -/
  committed : List (List UInt8)
  /-- Every byte the watched file has read. -/
  received : List UInt8

def Watched.init : Watched := ⟨.init, [], []⟩

def watch (file : ℕ) (w : Watched) (c : Call) : Reply × Watched :=
  ((w.system.step c).1, ⟨(w.system.step c).2, w.committed ++ c.committed w.system,
    w.received ++ c.readOn file w.system⟩)

/-- The kernel's side of every call is in order; reads and copies may stop anywhere. -/
def Call.WatchOk (w : Watched) (c : Call) : Prop := c.KernelOk w.system

instance (w : Watched) (c : Call) : Decidable (c.WatchOk w) :=
  inferInstanceAs (Decidable (c.KernelOk _))

section Commits

variable {s : System} {c : Call}

theorem inOffs_commitPending_ne {k : Kernel} (ho : k.Owned) (hm : newline ∈ k.pending) :
    (commitPending k).2.device.circleBuff.inOffs ≠ k.device.circleBuff.inOffs := by
  have hlt := ho.ring.inOffs_lt
  rw [commitPending_of_mem hm]
  simp only [AesdCircularBuffer.addEntry, maxWriteOperationsSupported]
  omega

theorem length_lt_of_commit {k : Kernel} (ho : k.Owned) (hm : newline ∈ k.pending)
    (hfreed : (commitPending k).1 = none) : k.commands.length < 10 := by
  by_contra hfull
  have hlen : k.device.circleBuff.active.length = 10 := by
    have hle := commands_length_le k
    have hactive : k.commands.length = k.device.circleBuff.active.length := by
      simp [Kernel.commands]
    omega
  rw [commitPending_of_mem hm] at hfreed
  dsimp only at hfreed
  rw [AesdCircularBuffer.addEntry_fst ho.ring,
    if_pos (AesdCircularBuffer.full_iff_count.mpr (by simpa using hlen))] at hfreed
  obtain ⟨e, rest, he⟩ := List.exists_cons_of_length_eq_add_one hlen
  have hblock := (ho.active e (by simp [he])).1
  simp [he, hblock] at hfreed

/-- A call commits nothing, or one command that the ring takes in. -/
theorem committed_cases (ho : s.kernel.Owned) (hg : c.GrantOk s) :
    (c.committed s = [] ∧ (s.step c).2.kernel.commands = s.kernel.commands) ∨
    ∃ line, c.committed s = [line] ∧
      (s.step c).2.kernel.commands = (s.kernel.commands ++ [line]).rtake 10 ∧
      (¬ c.Evicts s → s.kernel.commands.length < 10) := by
  by_cases hr : c.Reaches
  · obtain ⟨file, buf, count, env, rfl⟩ := hr.exists_write
    have hstep := step_of_reaches s hr
    unfold Call.committed Call.Evicts
    rw [hstep]
    dsimp only
    cases hb : env.grant.block with
    | none =>
      rw [writeLocked_refused hb]
      exact .inl ⟨by simp, commands_allocPending ho hg⟩
    | some b =>
      rw [writeLocked_granted hb]
      dsimp only
      have hof : (filled s.kernel buf count env.grant).Owned := ho.filled hg
      by_cases hm : newline ∈ (filled s.kernel buf count env.grant).pending
      · have hcmd := commands_commitPending hof hm
        have hin := inOffs_commitPending_ne hof hm
        rw [commands_filled ho hg] at hcmd
        rw [filled_circleBuff] at hin
        refine .inr ⟨_, ?_, hcmd, fun hev => ?_⟩
        · -- the last stored command is the one just committed
          rw [if_neg hin, hcmd, List.rtake_concat_succ]
          simp
        · rw [← commands_filled ho hg]
          exact length_lt_of_commit hof hm (not_not.mp hev)
      · rw [commitPending_of_not_mem hm]
        refine .inl ⟨?_, commands_filled ho hg⟩
        rw [if_pos (by rw [filled_circleBuff])]
  · have hk := (step_of_not_reaches s hr).1
    exact .inl ⟨by simp [Call.committed, hk], by rw [hk]⟩

/-- The stored commands are the last ten ever committed. -/
theorem commands_of_committed (ho : s.kernel.Owned) (hg : c.GrantOk s) {K : List (List UInt8)}
    (hK : s.kernel.commands = K.rtake 10) :
    (s.step c).2.kernel.commands = (K ++ c.committed s).rtake 10 := by
  rcases committed_cases ho hg with ⟨hc, hk⟩ | ⟨line, hc, hk, _⟩
  · rw [hc, hk, hK, List.append_nil]
  · rw [hc, hk, hK, rtake_rtake_concat]

end Commits

def evictedBytes (K : List (List UInt8)) : ℕ := (K.rdrop 10).flatten.length

theorem drop_evictedBytes (K : List (List UInt8)) :
    K.flatten.drop (evictedBytes K) = (K.rtake 10).flatten := by
  have hsplit : K.flatten = (K.rdrop 10).flatten ++ (K.rtake 10).flatten := by
    rw [← List.flatten_append, List.rdrop, List.rtake, List.take_append_drop]
  rw [hsplit, evictedBytes, List.drop_left]

theorem evictedBytes_mono (K K' : List (List UInt8)) : evictedBytes K ≤ evictedBytes (K ++ K') := by
  have hfirst : K.rdrop 10 <+: (K ++ K').rdrop 10 := by
    have hK : K.rdrop 10 <+: K ++ K' := (List.take_prefix _ _).trans (List.prefix_append _ _)
    apply List.prefix_of_prefix_length_le hK (List.take_prefix _ _)
    simp only [List.rdrop, List.length_take, List.length_append]
    omega
  exact hfirst.flatten.length_le

section Reader

variable {file : ℕ} {w : Watched}

/-- The stored text is what remains of the stream, and the bytes read so far are
some of the stream's first bytes, in order. -/
structure Watched.Sound (file : ℕ) (w : Watched) : Prop where
  owned : w.system.kernel.Owned
  fits : w.system.kernel.Fits
  commands : w.system.kernel.commands = w.committed.rtake 10
  nonneg : 0 ≤ w.system.fPos file
  position : (w.system.fPos file).toNatClampNeg = w.received.length
  order : w.received.Sublist
    (w.committed.flatten.take (evictedBytes w.committed + w.received.length))

theorem sound_init : Watched.init.Sound file where
  owned := owned_init
  fits := fits_init
  commands := rfl
  nonneg := Int64.le_refl _
  position := rfl
  order := List.Sublist.refl _

/-- What a call reads comes next in the stream, behind the bytes evicted and the bytes read. -/
theorem Watched.Sound.readOn_prefix (h : w.Sound file) (c : Call) :
    c.readOn file w.system <+:
      w.committed.flatten.drop (evictedBytes w.committed + w.received.length) := by
  obtain ⟨⟨n, hn⟩, _⟩ := readOn_step h.owned h.fits h.nonneg c
  rw [hn, ← List.drop_drop, drop_evictedBytes, ← h.commands, ← h.position]
  exact readAt_isPrefix _ _ _

theorem sound_step (h : w.Sound file) {c : Call} (hc : c.WatchOk w) :
    (watch file w c).2.Sound file := by
  obtain ⟨ho, hf⟩ := fits_step ⟨h.owned, h.fits⟩ hc
  obtain ⟨_, hp, hpos⟩ := readOn_step h.owned h.fits h.nonneg c
  refine ⟨ho, hf, commands_of_committed h.owned hc.1 h.commands, hp, ?_, ?_⟩
  · simp only [watch, List.length_append]
    rw [hpos, h.position]
  · obtain ⟨rest, hrest⟩ := h.readOn_prefix c
    -- what was received lies before the evicted bytes and those read, what is read now behind
    have hold : (w.received ++ c.readOn file w.system).Sublist (w.committed.flatten.take
        (evictedBytes w.committed + (w.received ++ c.readOn file w.system).length)) := by
      rw [List.length_append, ← Nat.add_assoc, List.take_add, ← hrest, List.take_left]
      exact h.order.append (List.Sublist.refl _)
    -- later commits only make the part of the stream longer
    have hmono := evictedBytes_mono w.committed (c.committed w.system)
    have hstream : w.committed.flatten <+: (w.committed ++ c.committed w.system).flatten :=
      (List.prefix_append _ _).flatten
    exact hold.trans ((hstream.take _).sublist.trans
      (List.take_prefix_take_left (Nat.add_le_add_right hmono _)).sublist)

theorem sound_run {calls : List Call} (hv : Valid (watch file) Call.WatchOk .init calls) :
    (exec (watch file) .init calls).Sound file :=
  exec_invariant (Watched.Sound file) (fun _ _ h hc => sound_step h hc) sound_init hv

theorem committed_prefix (file : ℕ) (w : Watched) (calls : List Call) :
    w.committed <+: (exec (watch file) w calls).committed := by
  induction calls generalizing w with
  | nil => exact List.prefix_rfl
  | cons c calls ih => exact (List.prefix_append _ _).trans (ih (watch file w c).2)

/-- What has been read is the beginning of the stored text. -/
def Watched.AtFront (w : Watched) : Prop := w.received <+: w.system.kernel.commands.flatten

theorem atFront_step (h : w.Sound file) (hf : w.AtFront) {c : Call} (hc : c.WatchOk w)
    (hn : ¬ c.Evicts w.system) : (watch file w c).2.AtFront := by
  have hread : w.received ++ c.readOn file w.system <+: w.system.kernel.commands.flatten := by
    obtain ⟨⟨n, hbytes⟩, _⟩ := readOn_step h.owned h.fits h.nonneg c
    have hnext := readAt_isPrefix w.system.kernel.commands w.received.length n
    obtain ⟨rest, hrest⟩ := hf
    rw [← hrest, List.drop_left] at hnext
    rw [hbytes, h.position, ← hrest, List.prefix_append_right_inj]
    exact hnext
  -- without an eviction a commit only appends to the stored text
  have hgrow : w.system.kernel.commands.flatten <+:
      (w.system.step c).2.kernel.commands.flatten := by
    rcases committed_cases h.owned hc.1 with ⟨_, hk⟩ | ⟨line, _, hk, hlt⟩
    · rw [hk]
    · rw [hk, rtake_concat_of_lt line (hlt hn)]
      exact (List.prefix_append _ _).flatten
  exact hread.trans hgrow

theorem atFront_run (h : w.Sound file) (hf : w.AtFront) {calls : List Call}
    (hv : Valid (watch file) Call.WatchOk w calls)
    (hn : Valid (watch file) (fun v c => ¬ c.Evicts v.system) w calls) :
    (exec (watch file) w calls).Sound file ∧ (exec (watch file) w calls).AtFront :=
  exec_invariant (fun v : Watched => v.Sound file ∧ v.AtFront)
    (fun _ _ hv hc => ⟨sound_step hv.1 hc.1, atFront_step hv.1 hv.2 hc.1 hc.2⟩) ⟨h, hf⟩ (hv.and hn)

theorem Watched.AtFront.block (h : w.Sound file) (hf : w.AtFront) :
    w.received <:+: w.committed.flatten := by
  have hsuffix : w.system.kernel.commands.flatten <:+ w.committed.flatten := by
    rw [h.commands, ← drop_evictedBytes]
    exact List.drop_suffix _ _
  exact List.IsInfix.trans (List.IsPrefix.isInfix hf) hsuffix.isInfix

end Reader

/-- **Interleaved reads.** The bytes one file has read stand in the stream of all
committed bytes in the same order and none twice: each read takes up the stream behind
what is evicted and what was read. Between evictions they are one block. -/
theorem reader_order (file : ℕ) (calls : List Call)
    (h : Valid (watch file) Call.WatchOk .init calls) :
    let w := exec (watch file) .init calls
    w.received.Sublist w.committed.flatten ∧
    (∀ before c after, calls = before ++ c :: after →
      let v := exec (watch file) .init before
      c.readOn file v.system <+:
        v.committed.flatten.drop (evictedBytes v.committed + v.received.length)) ∧
    ∀ before mid after, calls = before ++ mid ++ after →
      (exec (watch file) .init before).received = [] →
      Valid (watch file) (fun v c => ¬ c.Evicts v.system) (exec (watch file) .init before) mid →
      (exec (watch file) .init (before ++ mid)).received = w.received →
      w.received <:+: w.committed.flatten := by
  intro w
  have hw : w.Sound file := sound_run h
  refine ⟨hw.order.trans (List.take_sublist _ _), ?_, ?_⟩
  · rintro before c after rfl v
    have hv : v.Sound file := sound_run ((valid_append _ _ _).mp h).1
    exact hv.readOn_prefix c
  · intro before mid after hcalls hnil hkeep hsame
    subst hcalls
    obtain ⟨hbm, hafter⟩ := (valid_append _ _ _).mp h
    obtain ⟨hbefore, hmid⟩ := (valid_append _ _ _).mp hbm
    have hstart : (exec (watch file) .init before).AtFront := by
      rw [Watched.AtFront, hnil]
      exact List.nil_prefix
    have hfront := atFront_run (sound_run hbefore) hstart hmid hkeep
    rw [← exec_append] at hfront
    have hlater := committed_prefix file (exec (watch file) .init (before ++ mid)) after
    rw [← exec_append] at hlater
    have hblock := Watched.AtFront.block hfront.1 hfront.2
    rw [hsame] at hblock
    exact hblock.trans hlater.flatten.isInfix

def writeLine (b : UInt8) : Call := .write 1 (some [b, 10]) 2 (grantOf b.toNat)

/-- Ten lines are stored, the reader takes the first, an eleventh line evicts it, and
the reader goes on to the end. -/
def evictingRun : List Call :=
  (List.range 10).map (fun i => writeLine (UInt8.ofNat (48 + i))) ++
    .read 0 (some 1024) 1024 false :: writeLine 97 ::
    List.replicate 10 (.read 0 (some 1024) 1024 false)

theorem reader_order_evictingRun :
    (exec (watch 0) .init evictingRun).received.Sublist
      (exec (watch 0) .init evictingRun).committed.flatten :=
  (reader_order 0 evictingRun (by decide +kernel)).1

/-- A whole read of the watched file, or a write through another one. -/
def Call.WithReader (file : ℕ) : Call → Prop
  | .read f (some room) count interrupted =>
    f = file ∧ 0 < count ∧ count.toNat ≤ room ∧ interrupted = false
  | .read _ none _ _ => False
  | .write f .. => f ≠ file

instance (file : ℕ) : (c : Call) → Decidable (c.WithReader file)
  | .read _ (some _) _ _ => inferInstanceAs (Decidable (_ ∧ _ ∧ _ ∧ _))
  | .read _ none _ _ => isFalse id
  | .write .. => inferInstanceAs (Decidable (_ ≠ _))

/-- The second line is skipped by a reader that goes on until it reads 0. -/
theorem reader_torn_by_eviction :
    ¬ ∀ (file : ℕ) (calls : List Call) (count : UInt64),
      Valid (watch file) Call.WatchOk .init (calls ++ [.read file (some count.toNat) count false]) →
      (∀ c ∈ calls, c.WithReader file) → 0 < count →
      (∀ reply ∈ replies (watch file) .init calls, reply.retval ≠ 0) →
      ((exec (watch file) .init calls).system.step
        (.read file (some count.toNat) count false)).1.retval = 0 →
      (exec (watch file) .init calls).received <:+:
        (exec (watch file) .init calls).committed.flatten := by
  intro h
  have hinfix := h 0 evictingRun.dropLast 1024 (by decide +kernel) (by decide +kernel) (by decide)
    (by decide +kernel) (by decide +kernel)
  revert hinfix
  decide +kernel

end Aesd
