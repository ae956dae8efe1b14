import Aesd.FileOps
import Aesd.Server.Echo

/-!
# Many clients at once

What the sessions ask of the driver, in any interleaving, and what the device makes of it:
whole packets in the order of their writes.
-/

namespace Aesd.Server
open CString StepRuns Segments

namespace World

variable (w : World) (l : ℕ × Env)

def packet : Option (List UInt8) :=
  match w.ended, w.phase l.1, (w.mem.buffers l.1).bind string with
  | none, .command, some str => if seekPrefix <+: str then none else some str
  | _, _, _ => none

def fileOp : Option FileOp :=
  match w.ended, w.phase l.1 with
  | none, .opening => if l.2.opens then some (.openFile l.1) else none
  | none, .command => (w.packet l).map fun str => .transfer (writeCall l.1 l.2 str)
  | none, .controlling writeCmd writeCmdOffset =>
    some (.ioctl l.1 aesdcharIocseekto ⟨true, some (writeCmd, writeCmdOffset)⟩ l.2.beyond
      l.2.interrupted)
  | none, .echoing _ => some (.transfer (readCall l.1 l.2))
  | none, .closing => some (.release l.1)
  | _, _ => none

end World

/-- The packets that a run writes, in order. -/
def packetsIn (w : World) (ls : List (ℕ × Env)) : List (List UInt8) :=
  along (fun w l => (w.packet l).toList) World.step w ls

def fileOpsIn (w : World) (ls : List (ℕ × Env)) : List FileOp :=
  along (fun w l => (w.fileOp l).toList) World.step w ls

section Step

variable {w : World} {k : ℕ} {env : Env}

theorem aesdIoctl_failed (kernel : Kernel) (filp : File) (a b : UInt32) (beyond : UInt64)
    (interrupted : Bool)
    (h : (aesdIoctl kernel (some filp) aesdcharIocseekto ⟨true, some (a, b)⟩ beyond
      interrupted).result ≠ 0) :
    (aesdIoctl kernel (some filp) aesdcharIocseekto ⟨true, some (a, b)⟩ beyond
      interrupted).fPos = filp.fPos := by
  rw [aesdIoctl_seekto] at h ⊢
  simp only [aesdAdjustFileOffset] at h ⊢
  split_ifs at h ⊢
  · rfl
  · rfl
  · rfl
  · exact absurd rfl h
  · exact absurd rfl h

/-- A step does to the device what its call asks of the driver. -/
theorem step_system (hi : w.Inv) (he : w.Enabled (k, env)) :
    (w.step (k, env)).2.system =
      exec (System.operate integerLlseek) w.system (w.fileOp (k, env)).toList := by
  by_cases hw : w.ended = none
  · rw [step_running hw]
    cases hp : w.phase k with
    | receiving =>
      simp only [World.threadFunc, hp, World.fileOp, hw, Option.toList_none, exec_nil]
      unfold World.receive
      split
      · rfl
      · split <;> rfl
    | opening =>
      simp only [World.threadFunc, hp, World.fileOp, hw, World.openFile]
      split_ifs <;> rfl
    | command =>
      simp only [World.threadFunc, hp, World.fileOp, hw, World.obey, World.packet]
      cases hb : (w.mem.buffers k).bind string with
      | none => rfl
      | some str =>
        by_cases hpre : seekPrefix <+: str
        · simp [hpre, World.goto]
        · have hsucceeds : (World.writeCall k env str).Succeeds w.system := by
            simpa [World.Enabled, hp, hb, hpre] using he
          have hret := (writeCall_step k env str hi.device hsucceeds).1
          simp only [if_neg hpre, if_neg hret]
          rfl
    | seeking stage =>
      simp only [World.threadFunc, hp, World.fileOp, hw, Option.toList_none, exec_nil]
      unfold World.parse
      split <;> rfl
    | controlling a b =>
      simp only [World.threadFunc, hp, World.fileOp, hw, World.control]
      by_cases hresult : (aesdIoctl w.system.kernel (some ⟨w.system.fPos k⟩) aesdcharIocseekto
          ⟨true, some (a, b)⟩ env.beyond env.interrupted).result ≠ 0
      · rw [if_pos hresult]
        have hfPos := aesdIoctl_failed _ _ _ _ _ _ hresult
        simp only [Option.toList_some, exec_cons, exec_nil, System.operate, hfPos,
          Function.update_eq_self]
        rfl
      · rw [if_neg hresult]
        rfl
    | echoing sendBuffer =>
      simp only [World.threadFunc, hp, World.fileOp, hw, World.echo]
      split_ifs <;> rfl
    | sending sendBuffer =>
      simp only [World.threadFunc, hp, World.fileOp, hw, Option.toList_none, exec_nil]
      unfold World.send
      split
      · rfl
      · split_ifs <;> rfl
    | closing =>
      simp only [World.threadFunc, hp, World.fileOp, hw]
      rfl
    | returned => simp [World.threadFunc, hp, World.fileOp, hw]
  · rw [step_ended hw]
    obtain ⟨ending, hending⟩ := Option.ne_none_iff_exists'.mp hw
    simp [World.fileOp, hending]

end Step

/-- No packet is larger than the block it was last reallocated to. -/
def World.Short (w : World) : Prop :=
  ∀ k buffer, w.mem.buffers k = some buffer → buffer.length ≤ bufferSize + 1

theorem receiveOnce_length {buffer buffer' : Region} {junk : ℕ → UInt8} {recv : Recv}
    (hrecv : ∀ bytes, recv = .data bytes → bytes.length ≤ bufferSize)
    (hb : buffer.length ≤ bufferSize + 1)
    (h : receiveOnce buffer junk recv = .next buffer' ∨
      receiveOnce buffer junk recv = .done buffer') : buffer'.length ≤ bufferSize + 1 := by
  cases recv with
  | failed => simp [receiveOnce] at h
  | closed =>
    obtain rfl : buffer = buffer' := by simpa [receiveOnce] using h
    exact hb
  | data bytes =>
    have hlen := received_length (hrecv bytes rfl)
    have hindex : (findNewline (received bytes)).1 ≤ bufferSize := by
      unfold findNewline
      split
      · rename_i index hfind
        have hlt := (List.findIdx?_eq_some_iff_getElem.mp hfind).1
        omega
      · exact le_rfl
    simp only [receiveOnce] at h
    cases hcat : strncat (realloc buffer ((findNewline (received bytes)).1 + 1) junk)
        (received bytes) ((findNewline (received bytes)).1 + 1) with
    | none => simp [hcat] at h
    | some m =>
      obtain rfl : m = buffer' := by
        simp only [hcat] at h
        split at h <;> simpa using h
      cases hstr : string (realloc buffer ((findNewline (received bytes)).1 + 1) junk) with
      | none => simp [strncat, hstr] at hcat
      | some str =>
        rw [(string_strncat hstr hcat).2, realloc_length]
        omega

theorem strtok_length {mem mem' : Memory ℕ} {p token : Option (Pointer ℕ)}
    (h : mem.strtok p = some (token, mem')) (j : ℕ) :
    (mem'.buffers j).map List.length = (mem.buffers j).map List.length := by
  unfold Memory.strtok at h
  cases hq : p.or mem.saved with
  | none => simp [hq] at h
  | some q =>
    obtain ⟨i, offset⟩ := q
    cases hm : mem.buffers i with
    | none => simp [hq, hm] at h
    | some m =>
      simp only [hq, hm, Option.map_eq_some_iff] at h
      obtain ⟨⟨t, m', saved⟩, hstrtok, hmem⟩ := h
      obtain ⟨-, rfl⟩ := Prod.mk.inj hmem
      have hlen : m'.length = m.length := by
        simp only [CString.strtok] at hstrtok
        split at hstrtok
        · cases hstrtok
        · split_ifs at hstrtok <;>
            obtain ⟨-, rfl, -⟩ : _ ∧ _ ∧ _ := by simpa using hstrtok
          · rfl
          · rfl
          · exact List.length_set
      by_cases hj : j = i
      · subst hj
        simp [hm, hlen]
      · simp [hj]

theorem parseStep_length {mem mem' : Memory ℕ} {k : ℕ} {stage stage' : Stage ℕ}
    (h : parseStep mem k stage = .stage stage' mem') (j : ℕ) :
    (mem'.buffers j).map List.length = (mem.buffers j).map List.length := by
  cases stage with
  | start | next _ =>
    simp only [parseStep] at h
    split at h
    · cases h
    · cases h
    · rename_i hs
      obtain ⟨-, rfl⟩ := Parsed.stage.inj h
      exact strtok_length hs j
  | writeCmd _ | writeCmdOffset _ _ =>
    simp only [parseStep] at h
    split at h
    · cases h
    · obtain ⟨-, rfl⟩ := Parsed.stage.inj h
      rfl
  | ready a b =>
    obtain ⟨-, rfl⟩ := Parsed.stage.inj h
    rfl

section Short

variable {w : World} {k : ℕ} {env : Env}

theorem World.Short.update (h : w.Short) {buffers : ℕ → Option Region}
    (hb : ∀ j, buffers j = w.mem.buffers j ∨ buffers j = none ∨
      ∃ buffer, buffers j = some buffer ∧ buffer.length ≤ bufferSize + 1) :
    ∀ j buffer, buffers j = some buffer → buffer.length ≤ bufferSize + 1 := by
  intro j buffer hj
  rcases hb j with heq | hnone | ⟨buffer', heq, hlen⟩
  · exact h j buffer (heq.symm.trans hj)
  · rw [hnone] at hj
    cases hj
  · rw [heq] at hj
    obtain rfl := Option.some.inj hj
    exact hlen

theorem short_step (h : w.Short) (he : w.Enabled (k, env)) : (w.step (k, env)).2.Short := by
  by_cases hw : w.ended = none
  · rw [step_running hw]
    cases hp : w.phase k with
    | receiving =>
      have hrecv : ∀ bytes, env.recv = .data bytes → bytes.length ≤ bufferSize := by
        intro bytes hbytes
        simp only [World.Enabled, hp, hbytes] at he
        exact he.2
      simp only [World.threadFunc, hp, World.receive]
      cases hb : w.mem.buffers k with
      | none => exact h
      | some buffer =>
        have hlen := h k buffer hb
        have hkeep {buffer' : Region} (hr : receiveOnce buffer env.junk env.recv = .next buffer' ∨
            receiveOnce buffer env.junk env.recv = .done buffer') :
            ∀ j b, Function.update w.mem.buffers k (some buffer') j = some b →
              b.length ≤ bufferSize + 1 := by
          apply h.update
          intro j
          by_cases hj : j = k
          · subst hj
            exact .inr (.inr ⟨buffer', by simp, receiveOnce_length hrecv hlen hr⟩)
          · exact .inl (by simp [hj])
        dsimp only
        cases hr : receiveOnce buffer env.junk env.recv with
        | next buffer' => exact hkeep (.inl hr)
        | done buffer' => exact hkeep (.inr hr)
        | exit => exact h
        | fault => exact h
    | opening =>
      simp only [World.threadFunc, hp, World.openFile]
      split_ifs <;> exact h
    | command =>
      simp only [World.threadFunc, hp, World.obey]
      split
      · exact h
      · split_ifs <;> exact h
    | seeking stage =>
      simp only [World.threadFunc, hp, World.parse]
      have hkeep {stage' : Stage ℕ} {mem : Memory ℕ}
          (hs : parseStep w.mem k stage = .stage stage' mem) :
          ∀ j b, mem.buffers j = some b → b.length ≤ bufferSize + 1 := by
        intro j b hb
        have hlen := parseStep_length hs j
        rw [hb, Option.map_some] at hlen
        obtain ⟨b', hb', heq⟩ := Option.map_eq_some_iff.mp hlen.symm
        rw [← heq]
        exact h j b' hb'
      split
      · rename_i hs
        exact hkeep hs
      · rename_i hs
        exact hkeep hs
      · exact h
      · exact h
    | controlling a b =>
      simp only [World.threadFunc, hp, World.control]
      split_ifs <;> exact h
    | echoing sendBuffer =>
      simp only [World.threadFunc, hp, World.echo]
      split_ifs <;> exact h
    | sending sendBuffer =>
      simp only [World.threadFunc, hp, World.send]
      split
      · exact h
      · split_ifs <;> exact h
    | closing =>
      simp only [World.threadFunc, hp, World.close]
      apply h.update
      intro j
      by_cases hj : j = k
      · subst hj
        exact .inr (.inl (Function.update_self ..))
      · exact .inl (Function.update_of_ne hj ..)
    | returned =>
      simp only [World.threadFunc, hp]
      exact h
  · rw [step_ended hw]
    exact h

theorem data_packet (h : w.Short) {str : List UInt8} (hstr : (w.mem.buffers k).bind string = some str)
    (hs : (World.writeCall k env str).Succeeds w.system) :
    (World.writeCall k env str).data = str := by
  obtain ⟨buffer, hbuffer, hb⟩ := Option.bind_eq_some_iff.mp hstr
  obtain ⟨-, rest, rfl⟩ := string_eq_some.mp hb
  have hlen := h k _ hbuffer
  rw [List.length_append, List.length_cons] at hlen
  have hsmall : bufferSize + 1 < 2 ^ 64 := by decide
  have hcount : (UInt64.ofNat str.length).toNat = str.length :=
    UInt64.toNat_ofNat_of_lt' (show str.length < 2 ^ 64 by omega)
  have hgrant : ¬ (env.write.interrupted = true ∨ env.write.grant.block = none) := by
    rw [not_or, hs.2.1]
    exact ⟨Bool.false_ne_true, hs.2.2.1⟩
  simp only [World.writeCall, Call.data, if_neg hgrant, copied, hcount, List.take_length]

end Short

/-- A server over the log: the log has the position of every session, and no position is far
behind the text. -/
structure World.OnLog (w : World) (d : LogDevice) : Prop where
  inv : w.Inv
  short : w.Short
  represents : Represents w.system d
  kept : ¬ w.system.kernel.Lost
  pos_le : ∀ j, d.pos j ≤ 2 ^ 36

theorem onLog_init : (World.init .init).OnLog .empty where
  inv := inv_init ⟨owned_init, fits_init⟩
  short := by
    intro k buffer hb
    obtain rfl := Option.some.inj hb
    rw [emptyBuffer, List.length_replicate]
    exact Nat.le_succ _
  represents := represents_init
  kept := not_lost_init
  pos_le _ := Nat.zero_le _

section OnLog

variable {w : World} {d : LogDevice} {k : ℕ} {env : Env}

/-- What a session asks of the driver. A seek command starts from the beginning of the text. -/
theorem fileOp_cases (hi : w.Inv) (he : w.Enabled (k, env)) {op : FileOp}
    (h : w.fileOp (k, env) = some op) :
    (∃ str, w.packet (k, env) = some str ∧ (w.mem.buffers k).bind string = some str ∧
      (World.writeCall k env str).Succeeds w.system ∧ op = .transfer (World.writeCall k env str)) ∨
    w.packet (k, env) = none ∧ (op = .openFile k ∨ op = .release k ∨
      op = .transfer (World.readCall k env) ∨ ∃ a b, w.system.fPos k = 0 ∧
        op = .ioctl k aesdcharIocseekto ⟨true, some (a, b)⟩ env.beyond env.interrupted) := by
  have hview := hi.sessions k
  cases hw : w.ended with
  | some ending => simp [World.fileOp, hw] at h
  | none =>
    cases hp : w.phase k with
    | receiving | seeking _ | sending _ | returned => simp [World.fileOp, hw, hp] at h
    | opening =>
      simp only [World.fileOp, hw, hp] at h
      split_ifs at h
      obtain rfl := Option.some.inj h
      exact .inr ⟨by simp [World.packet, hw, hp], .inl rfl⟩
    | command =>
      simp only [World.fileOp, hw, hp] at h
      obtain ⟨str, hpacket, rfl⟩ := Option.map_eq_some_iff.mp h
      simp only [World.packet, hw, hp] at hpacket
      cases hb : (w.mem.buffers k).bind string with
      | none => simp [hb] at hpacket
      | some str' =>
        simp only [hb] at hpacket
        split_ifs at hpacket with hpre
        obtain rfl := Option.some.inj hpacket
        have hsucceeds : (World.writeCall k env str').Succeeds w.system := by
          simpa [World.Enabled, hp, hb, hpre] using he
        exact .inl ⟨str', by simp [World.packet, hw, hp, hb, hpre], rfl, hsucceeds, rfl⟩
    | controlling a b =>
      simp only [World.fileOp, hw, hp] at h
      obtain rfl := Option.some.inj h
      simp only [View.Ok, World.view, hp] at hview
      exact .inr ⟨by simp [World.packet, hw, hp], .inr (.inr (.inr ⟨a, b, hview.2.2.2, rfl⟩))⟩
    | echoing sendBuffer =>
      simp only [World.fileOp, hw, hp] at h
      obtain rfl := Option.some.inj h
      exact .inr ⟨by simp [World.packet, hw, hp], .inr (.inr (.inl rfl))⟩
    | closing =>
      simp only [World.fileOp, hw, hp] at h
      obtain rfl := Option.some.inj h
      exact .inr ⟨by simp [World.packet, hw, hp], .inr (.inl rfl)⟩

theorem packet_of_fileOp (h : w.fileOp (k, env) = none) : w.packet (k, env) = none := by
  cases hw : w.ended with
  | some ending => simp [World.packet, hw]
  | none =>
    cases hp : w.phase k with
    | command =>
      simp only [World.fileOp, hw, hp] at h
      exact Option.map_eq_none_iff.mp h
    | _ => simp [World.packet, hw, hp]

theorem log_step (h : w.OnLog d) (he : w.Enabled (k, env)) :
    (exec LogDevice.operate d (w.fileOp (k, env)).toList).log =
      (w.packet (k, env)).toList.foldl LineLog.write d.log := by
  cases hop : w.fileOp (k, env) with
  | none =>
    rw [packet_of_fileOp hop]
    rfl
  | some op =>
    rcases fileOp_cases h.inv he hop with
      ⟨str, hpacket, hstr, hsucceeds, rfl⟩ | ⟨hpacket, rfl | rfl | rfl | ⟨a, b, -, rfl⟩⟩
    · rw [hpacket]
      exact congrArg d.log.write (data_packet h.short hstr hsucceeds)
    · rw [hpacket]
      rfl
    · rw [hpacket]
      rfl
    · rw [hpacket]
      exact LogDevice.read_log d ..
    · rw [hpacket]
      exact LogDevice.ioctl_log d ..

theorem onLog_step (h : w.OnLog d) (he : w.Enabled (k, env)) :
    (w.step (k, env)).2.OnLog (exec LogDevice.operate d (w.fileOp (k, env)).toList) := by
  have hsystem := step_system h.inv he
  cases hop : w.fileOp (k, env) with
  | none =>
    rw [hop] at hsystem
    exact ⟨inv_step h.inv he, short_step h.short he, hsystem ▸ h.represents, hsystem ▸ h.kept,
      h.pos_le⟩
  | some op =>
    rw [hop] at hsystem
    have hcases := fileOp_cases h.inv he hop
    have hok : op.Ok w.system := by
      rcases hcases with ⟨str, -, -, hsucceeds, rfl⟩ | ⟨-, rfl | rfl | rfl | ⟨a, b, -, rfl⟩⟩
      · exact ⟨hsucceeds.kernelOk, fun _ _ => h.kept⟩
      · trivial
      · trivial
      · exact ⟨⟨trivial, trivial⟩, trivial⟩
      · trivial
    have hpos : ∀ file, d.pos file < 2 ^ 62 := fun file => (h.pos_le file).trans_lt (by decide)
    have hrepr := (h.represents.operate fixedSize_integerLlseek hok hpos).2
    refine ⟨inv_step h.inv he, short_step h.short he, hsystem ▸ hrepr, ?_, ?_⟩
    · rw [hsystem]
      rcases hcases with ⟨str, -, -, hsucceeds, rfl⟩ | ⟨-, rfl | rfl | rfl | ⟨a, b, -, rfl⟩⟩
      · exact (succeeds_step ⟨h.represents.refines, h.kept⟩ hsucceeds).2
      · exact h.kept
      · exact h.kept
      · exact h.kept
      · exact h.kept
    · intro j
      have hle := h.represents.pos_operate_le op j
      have hj := h.pos_le j
      rcases hcases with ⟨str, -, -, -, rfl⟩ | ⟨-, rfl | rfl | rfl | ⟨a, b, hzero, rfl⟩⟩
      · exact hle.trans (by simp [FileOp.seeks]; omega)
      · exact hle.trans (by simp [FileOp.seeks]; omega)
      · exact hle.trans (by simp [FileOp.seeks]; omega)
      · exact hle.trans (by simp [FileOp.seeks]; omega)
      -- the one command of a session starts at position 0
      · have hstart : d.pos k = 0 := by
          rw [← h.represents.pos_eq, hzero]
          rfl
        rcases d.ioctl_moves k aesdcharIocseekto ⟨true, some (a, b)⟩ env.beyond env.interrupted with
          hsame | ⟨a', b', n, hn, hmove⟩
        · exact (congrArg (fun d' : LogDevice => d'.pos j) hsame).trans_le hj
        · have hfar := h.represents.seekMove_le b' hn
          refine (congrArg (fun d' : LogDevice => d'.pos j) hmove).trans_le ?_
          by_cases hjk : j = k
          · subst hjk
            simp only [LogDevice.goto, Function.update_self, hstart]
            omega
          · simpa [LogDevice.goto, hjk] using hj

/-- Along a run the server is over the log that takes what the run asks of the driver, and the
log holds the run's packets. -/
theorem onLog_run (h : w.OnLog d) {ls : List (ℕ × Env)}
    (hv : Valid World.step World.Enabled w ls) :
    (exec World.step w ls).OnLog (exec LogDevice.operate d (fileOpsIn w ls)) ∧
      (exec LogDevice.operate d (fileOpsIn w ls)).log =
        (packetsIn w ls).foldl LineLog.write d.log := by
  induction ls generalizing w d with
  | nil => exact ⟨h, rfl⟩
  | cons l ls ih =>
    obtain ⟨k, env⟩ := l
    have hlog := log_step h hv.1
    obtain ⟨hend, hrest⟩ := ih (onLog_step h hv.1) hv.2
    rw [fileOpsIn, along_cons, exec_append, packetsIn, along_cons, List.foldl_append, ← hlog]
    exact ⟨hend, hrest⟩

theorem whole_of_refines {kernel : Kernel} {packets : List (List UInt8)}
    (h : Refines kernel (packets.foldl LineLog.write .empty)) (hkept : ¬ kernel.Lost) :
    kernel.commands.flatten ++ kernel.pending <:+ packets.flatten ∧
      ((∀ packet ∈ packets, newline ∈ packet) →
        kernel.commands = packets.rtake 10 ∧ kernel.pending = []) := by
  rw [h.commands, h.pending hkept]
  constructor
  · have htext := LineLog.text_foldl (.empty : CommandLog) packets
    change _ = packets.flatten at htext
    rw [← htext, LineLog.text, LineLog.stored, List.rtake]
    set log := packets.foldl LineLog.write (.empty : CommandLog)
    refine ⟨(log.history.take (log.history.length - 10)).flatten, ?_⟩
    rw [← List.append_assoc, ← List.flatten_append, List.take_append_drop]
  · intro hlines
    obtain ⟨hhistory, hnone⟩ :=
      @LineLog.foldl_write_lines _ newline _ packets hlines (.empty : CommandLog) rfl
    exact ⟨congrArg (List.rtake · 10) hhistory, hnone⟩

theorem World.OnLog.whole {packets : List (List UInt8)} (h : w.OnLog d)
    (hlog : d.log = packets.foldl LineLog.write .empty) :
    w.system.kernel.commands.flatten ++ w.system.kernel.pending <:+ packets.flatten ∧
      ((∀ packet ∈ packets, newline ∈ packet) →
        w.system.kernel.commands = packets.rtake 10 ∧ w.system.kernel.pending = []) :=
  whole_of_refines (hlog ▸ h.represents.refines) h.kept

end OnLog

/-- **Packets stay whole.** However the sessions are interleaved, the device holds the end of
what they wrote, packet behind packet in the order of the writes; and if every packet has a
newline, then it holds the last ten packets, each a command of its own. -/
theorem packets_whole (ls : List (ℕ × Env))
    (h : Valid World.step World.Enabled (World.init .init) ls) :
    let kernel := (exec World.step (World.init .init) ls).system.kernel
    let packets := packetsIn (World.init .init) ls
    kernel.commands.flatten ++ kernel.pending <:+ packets.flatten ∧
      ((∀ packet ∈ packets, newline ∈ packet) →
        kernel.commands = packets.rtake 10 ∧ kernel.pending = []) := by
  obtain ⟨hend, hlog⟩ := onLog_run onLog_init h
  exact hend.whole hlog

def client (bytes : List UInt8) (block : BlockId) : Env :=
  { answer (.data bytes) with write := grantOf block }

def twoClients : List (ℕ × Env) :=
  [(0, client [97, 10] 1), (1, client [98, 10] 2), (0, client [] 1), (1, client [] 2)]

theorem packets_whole_twoClients :
    let run := twoClients ++ [(1, client [] 2), (0, client [] 1)]
    let kernel := (exec World.step (World.init .init) run).system.kernel
    kernel.commands = (packetsIn (World.init .init) run).rtake 10 ∧ kernel.pending = [] :=
  (packets_whole (twoClients ++ [(1, client [] 2), (0, client [] 1)]) (by decide +kernel)).2
    (by decide +kernel)

end Aesd.Server
