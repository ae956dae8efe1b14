import Aesd.Server.Endings

/-!
# Echoing the file

The last loop of `thread_func`: it reads into one `send_buffer` and sends the string it
finds there.
-/

namespace Aesd.Server
open CString StepRuns

def readInto (sendBuffer bytes : Region) : Region := bytes ++ sendBuffer.drop bytes.length

/-- What the loop gives to `send`, over the reads that bring something; the next read ends
the loop. A `strlen` that finds no end in `send_buffer` gives nothing. -/
def echoLoop : Region → List (List UInt8) → Option (List (List UInt8))
  | _, [] => some []
  | sendBuffer, bytes :: reads =>
    match string (readInto sendBuffer bytes) with
    | none => none
    | some str => (echoLoop (readInto sendBuffer bytes) reads).map fun sends => str :: sends

section Loop

variable {old bytes : List UInt8} {reads sends : List (List UInt8)}

/-- The bytes that the buffer holds before its zeros: a read leaves those behind it. -/
def overlay (old bytes : List UInt8) : List UInt8 := bytes ++ old.drop bytes.length

theorem overlay_length : (overlay old bytes).length = max old.length bytes.length := by
  simp [overlay]
  omega

theorem overlay_eq_iff : overlay old bytes = bytes ↔ old.length ≤ bytes.length := by
  rw [overlay, List.append_right_eq_self, List.drop_eq_nil_iff]

theorem notMem_overlay (hold : 0 ∉ old) (hc : Chunk bytes) : 0 ∉ overlay old bytes := by
  rw [overlay, List.mem_append, not_or]
  exact ⟨hc.notMem, fun hm => hold (List.mem_of_mem_drop hm)⟩

theorem readInto_received (hc : Chunk bytes) :
    readInto (received old) bytes = received (overlay old bytes) := by
  have hlen := hc.length_le
  have hzeros : bufferSize - old.length - (bytes.length - old.length) =
      bufferSize - (overlay old bytes).length := by
    rw [overlay_length]
    omega
  rw [readInto, received, received, List.drop_append, List.drop_replicate, hzeros, overlay,
    List.append_assoc]

theorem string_received (hold : 0 ∉ old) :
    string (received old) = if old.length < bufferSize then some old else none := by
  split_ifs with hlt
  · obtain ⟨n, hn⟩ : ∃ n, bufferSize - old.length = n + 1 := ⟨bufferSize - old.length - 1, by omega⟩
    rw [received, hn, List.replicate_succ]
    exact string_append hold _
  · rw [received, Nat.sub_eq_zero_of_le (Nat.not_lt.mp hlt), List.replicate_zero, List.append_nil,
      string, if_neg hold]

theorem echoLoop_cons (hold : 0 ∉ old) (hc : Chunk bytes) :
    echoLoop (received old) (bytes :: reads) =
      if (overlay old bytes).length < bufferSize then
        (echoLoop (received (overlay old bytes)) reads).map fun sends => overlay old bytes :: sends
      else none := by
  rw [echoLoop, readInto_received hc, string_received (notMem_overlay hold hc)]
  split_ifs <;> rfl

/-- From any contents the loop sends what it reads exactly when no read is shorter than the
contents or the read before it, and none fills the buffer. -/
theorem echoLoop_received (hold : 0 ∉ old) (h : ∀ bytes ∈ reads, Chunk bytes) :
    echoLoop (received old) reads = some reads ↔
      (∀ bytes ∈ reads, old.length ≤ bytes.length ∧ bytes.length < bufferSize) ∧
      (reads.map List.length).Pairwise (· ≤ ·) := by
  induction reads generalizing old with
  | nil => simp [echoLoop]
  | cons bytes reads ih =>
    have hc : Chunk bytes := h _ List.mem_cons_self
    have hrest : ∀ bytes ∈ reads, Chunk bytes := fun b hb => h b (List.mem_cons_of_mem _ hb)
    rw [echoLoop_cons hold hc, List.map_cons, List.pairwise_cons]
    by_cases hle : old.length ≤ bytes.length
    · -- the read covers what was there, and the loop goes on from it
      have hmap : (echoLoop (received bytes) reads).map (fun sends => bytes :: sends) =
          some (bytes :: reads) ↔ echoLoop (received bytes) reads = some reads := by
        cases echoLoop (received bytes) reads <;> simp
      rw [overlay_eq_iff.mpr hle]
      split_ifs with hlt
      · rw [hmap, ih hc.notMem hrest, List.forall_mem_map, List.forall_mem_cons]
        constructor
        · rintro ⟨hall, hsorted⟩
          exact ⟨⟨⟨hle, hlt⟩, fun b hb => ⟨hle.trans (hall b hb).1, (hall b hb).2⟩⟩,
            fun b hb => (hall b hb).1, hsorted⟩
        · rintro ⟨⟨_, hall⟩, hmin, hsorted⟩
          exact ⟨fun b hb => ⟨hmin b hb, (hall b hb).2⟩, hsorted⟩
      · simp only [false_iff]
        exact fun hcond => hlt (hcond.1 _ List.mem_cons_self).2
    -- the end of the old contents is sent once more
    · have hne : overlay old bytes ≠ bytes := fun he => hle (overlay_eq_iff.mp he)
      refine ⟨fun heq => ?_, fun hcond => absurd (hcond.1 _ List.mem_cons_self).1 hle⟩
      split_ifs at heq
      obtain ⟨sends, _, hcons⟩ := Option.map_eq_some_iff.mp heq
      exact absurd (List.cons.inj hcons).1 hne

theorem prefix_of_echoLoop (hold : 0 ∉ old) (h : ∀ bytes ∈ reads, Chunk bytes)
    (hsends : echoLoop (received old) reads = some sends) :
    List.Forall₂ (· <+: ·) reads sends := by
  induction reads generalizing old sends with
  | nil =>
    obtain rfl := Option.some.inj hsends
    exact .nil
  | cons bytes reads ih =>
    have hc : Chunk bytes := h _ List.mem_cons_self
    rw [echoLoop_cons hold hc] at hsends
    split_ifs at hsends
    obtain ⟨rest, hrest, rfl⟩ := Option.map_eq_some_iff.mp hsends
    refine .cons (List.prefix_append _ _) (ih (notMem_overlay hold hc) ?_ hrest)
    exact fun b hb => h b (List.mem_cons_of_mem _ hb)

theorem flatten_of_prefixes (h : List.Forall₂ (· <+: ·) reads sends) :
    reads.flatten.length ≤ sends.flatten.length ∧
      (sends.flatten = reads.flatten → sends = reads) := by
  induction h with
  | nil => exact ⟨le_rfl, fun _ => rfl⟩
  | cons hprefix _ ih =>
    rename_i bytes str reads sends _
    have hlen := hprefix.length_le
    simp only [List.flatten_cons, List.length_append]
    refine ⟨by omega, fun heq => ?_⟩
    -- no piece sent is shorter than what was read, so with equal totals none is longer
    have htotal := congrArg List.length heq
    rw [List.length_append, List.length_append] at htotal
    obtain rfl : bytes = str := hprefix.eq_of_length (by omega)
    rw [ih.2 (List.append_cancel_left heq)]

end Loop

section Session

variable {w : World} {k : ℕ} {env : Env}

/-- The session's next reads on its file bring these bytes, and the read behind them none. -/
def Delivers (k : ℕ) (env : Env) : System → List (List UInt8) → Prop
  | s, [] => (s.step (World.readCall k env)).1.retval ≤ 0
  | s, bytes :: reads => ¬ (s.step (World.readCall k env)).1.retval ≤ 0 ∧
      (s.step (World.readCall k env)).1.bytes = bytes ∧
      Delivers k env (s.step (World.readCall k env)).2 reads

theorem echo_step {sendBuffer : Region} (hw : w.ended = none)
    (hp : w.phase k = .echoing sendBuffer)
    (hret : ¬ (w.system.step (World.readCall k env)).1.retval ≤ 0) :
    (w.step (k, env)).2 = World.goto { w with system := (w.system.step (World.readCall k env)).2 } k
      (.sending (readInto sendBuffer (w.system.step (World.readCall k env)).1.bytes)) := by
  rw [step_running hw]
  simp only [World.threadFunc, hp, World.echo, if_neg hret]
  rfl

theorem send_step {sendBuffer : Region} {str : List UInt8} (hw : w.ended = none)
    (hp : w.phase k = .sending sendBuffer) (hreset : env.reset = false)
    (hs : string sendBuffer = some str) :
    (w.step (k, env)).2 = World.goto
      { w with sent := Function.update w.sent k (w.sent k ++ str) } k (.echoing sendBuffer) := by
  rw [step_running hw]
  simp [World.threadFunc, hp, World.send, hs, hreset]

theorem send_fault {sendBuffer : Region} (hw : w.ended = none)
    (hp : w.phase k = .sending sendBuffer) (hs : string sendBuffer = none) :
    (w.step (k, env)).2 = w.stop .fault := by
  rw [step_running hw]
  simp [World.threadFunc, hp, World.send, hs]

/-- Alone on a connection that stays, a session in its echo loop sends what the loop gives for
the reads of its file, and then closes. -/
theorem echo_run {sendBuffer : Region} {reads : List (List UInt8)} (hw : w.ended = none)
    (hp : w.phase k = .echoing sendBuffer) (hreset : env.reset = false)
    (hreads : Delivers k env w.system reads) :
    let w' := exec World.step w (List.replicate (2 * reads.length + 1) (k, env))
    (echoLoop sendBuffer reads = none → w'.ended = some .fault) ∧
    ∀ sends, echoLoop sendBuffer reads = some sends →
      w'.ended = none ∧ w'.phase k = .closing ∧ w'.sent k = w.sent k ++ sends.flatten := by
  induction reads generalizing w sendBuffer with
  | nil =>
    intro w'
    have hret : (w.system.step (World.readCall k env)).1.retval ≤ 0 := hreads
    have hstep : w' = World.goto { w with system := (w.system.step (World.readCall k env)).2 } k
        .closing := by
      change (w.step (k, env)).2 = _
      rw [step_running hw]
      simp only [World.threadFunc, hp, World.echo, if_pos hret]
    refine ⟨fun hnone => by simp [echoLoop] at hnone, fun sends hsends => ?_⟩
    obtain rfl := Option.some.inj hsends
    rw [hstep]
    simp [World.goto, hw]
  | cons bytes reads ih =>
    obtain ⟨hret, hbytes, hrest⟩ := hreads
    have hlen : 2 * (bytes :: reads).length + 1 = 2 * reads.length + 1 + 1 + 1 := by
      rw [List.length_cons]
      omega
    have hread := echo_step hw hp hret
    rw [hbytes] at hread
    have hw₁ : (w.step (k, env)).2.ended = none := by
      rw [hread]
      exact hw
    have hp₁ : (w.step (k, env)).2.phase k = .sending (readInto sendBuffer bytes) := by
      rw [hread]
      simp [World.goto]
    rw [hlen, List.replicate_succ, List.replicate_succ, exec_cons, exec_cons]
    cases hstr : string (readInto sendBuffer bytes) with
    | none =>
      have hsend : ((w.step (k, env)).2.step (k, env)).2 = _ := send_fault hw₁ hp₁ hstr
      rw [hsend, exec_of_ended (by simp [World.stop])]
      exact ⟨fun _ => rfl, fun sends hsends => by simp [echoLoop, hstr] at hsends⟩
    | some str =>
      have hsend := send_step hw₁ hp₁ hreset hstr
      have hnext := @ih ((w.step (k, env)).2.step (k, env)).2 (readInto sendBuffer bytes)
        (by rw [hsend]; exact hw₁) (by rw [hsend]; simp [World.goto])
        (by rw [hsend, hread]; exact hrest)
      refine ⟨fun hnone => hnext.1 ?_, fun sends hsends => ?_⟩
      · simpa [echoLoop, hstr] using hnone
      · simp only [echoLoop, hstr] at hsends
        obtain ⟨rest, hloop, rfl⟩ := Option.map_eq_some_iff.mp hsends
        obtain ⟨hended, hphase, hsent⟩ := hnext.2 rest hloop
        refine ⟨hended, hphase, ?_⟩
        rw [hsent, hsend, hread]
        simp [World.goto]

end Session

/-- **The echo.** For reads without zero bytes, every send is given exactly the read just
done, and so the client gets exactly what was read, if and only if no read is shorter than
the one before it and none fills the buffer. -/
theorem echo_exact_iff (reads : List (List UInt8)) (h : ∀ bytes ∈ reads, Chunk bytes) :
    ((∃ sends, echoLoop clearBuffer reads = some sends ∧ sends = reads ∧
        ∀ str ∈ sends, str.length ≤ bufferSize) ↔
      (∀ bytes ∈ reads, bytes.length < bufferSize) ∧
        (reads.map List.length).Pairwise (· ≤ ·)) ∧
    ((echoLoop clearBuffer reads).map List.flatten = some reads.flatten ↔
      (∀ bytes ∈ reads, bytes.length < bufferSize) ∧
        (reads.map List.length).Pairwise (· ≤ ·)) := by
  have hclear : clearBuffer = received [] := rfl
  have hiff := @echoLoop_received [] reads List.not_mem_nil h
  simp only [List.length_nil, Nat.zero_le, true_and] at hiff
  rw [hclear, ← hiff]
  refine ⟨⟨?_, fun hsends => ?_⟩, ⟨fun hflat => ?_, fun hsends => ?_⟩⟩
  · rintro ⟨sends, hsends, rfl, _⟩
    exact hsends
  · exact ⟨reads, hsends, rfl, fun str hstr => (h str hstr).length_le⟩
  · obtain ⟨sends, hsends, hsame⟩ := Option.map_eq_some_iff.mp hflat
    have hprefix := prefix_of_echoLoop List.not_mem_nil h hsends
    rw [hsends, (flatten_of_prefixes hprefix).2 hsame]
  · rw [hsends]
    rfl

/-- Lines of two, two and three bytes. -/
theorem echo_exact_iff_growing :
    (echoLoop clearBuffer [[97, 10], [98, 10], [99, 99, 10]]).map List.flatten =
      some [97, 10, 98, 10, 99, 99, 10] := by
  refine (echo_exact_iff [[97, 10], [98, 10], [99, 99, 10]] ?_).2.mpr (by decide)
  intro bytes hbytes
  simp only [List.mem_cons, List.not_mem_nil, or_false] at hbytes
  rcases hbytes with rfl | rfl | rfl <;> exact ⟨by decide, by decide, by decide⟩

/-- Behind a line of two bytes a line of one is sent with the last byte of the first. -/
theorem shorter_line_not_exact :
    ¬ ∀ reads : List (List UInt8), (∀ bytes ∈ reads, Chunk bytes) →
      ∃ sends, echoLoop clearBuffer reads = some sends ∧ sends = reads ∧
        ∀ str ∈ sends, str.length ≤ bufferSize := by
  intro h
  have hchunks : ∀ bytes ∈ [[97, 10], [10]], Chunk bytes := by
    intro bytes hbytes
    simp only [List.mem_cons, List.not_mem_nil, or_false] at hbytes
    rcases hbytes with rfl | rfl <;> exact ⟨by decide, by decide, by decide⟩
  obtain ⟨sends, hsends, rfl, _⟩ := h _ hchunks
  have hsorted := ((echoLoop_received List.not_mem_nil hchunks).mp hsends).2
  revert hsorted
  decide

end Aesd.Server
