import Aesd.Server.Concurrent

/-!
# What a client gets

The reads of one session and what it sends, while other sessions read, write and seek.
-/

namespace Aesd.Server
open CString StepRuns Segments

def World.piece (w : World) (l : ℕ × Env) (k : ℕ) : Option (List UInt8) :=
  match w.ended, w.phase l.1 with
  | none, .echoing _ =>
    let reply := (w.system.step (World.readCall l.1 l.2)).1
    if l.1 = k ∧ ¬ reply.retval ≤ 0 then some reply.bytes else none
  | _, _ => none

def piecesIn (k : ℕ) (w : World) (ls : List (ℕ × Env)) : List (List UInt8) :=
  along (fun w l => (w.piece l k).toList) World.step w ls

section Client

variable {w : World} {d : LogDevice} {j k : ℕ} {env : Env}

theorem pos_step_ne (h : w.OnLog d) (he : w.Enabled (j, env)) (hj : j ≠ k) :
    (exec LogDevice.operate d (w.fileOp (j, env)).toList).pos k = d.pos k := by
  cases hop : w.fileOp (j, env) with
  | none => rfl
  | some op =>
    apply LogDevice.pos_operate_ne
    have hne : some j ≠ some k := fun heq => hj (Option.some.inj heq)
    rcases fileOp_cases h.inv he hop with
      ⟨str, -, -, -, rfl⟩ | ⟨-, rfl | rfl | rfl | ⟨a, b, -, rfl⟩⟩
    · exact (Option.some_ne_none k).symm
    · exact hne
    · exact hne
    · exact hne
    · exact hne

/-- The echo loop is under way or over. -/
def Phase.Echoes : Phase → Prop
  | .echoing _ | .sending _ | .closing | .returned => True
  | _ => False

/-- What session `k` has read since position `start`: one read after the other, up to its
position. -/
structure HasRead (k start : ℕ) (w : World) (d : LogDevice) (pieces : List (List UInt8)) :
    Prop where
  onLog : w.OnLog d
  echoes : (w.phase k).Echoes
  reads_eq : readSeq d.stored start (List.replicate pieces.length bufferSize) = pieces
  ne_nil : ∀ bytes ∈ pieces, bytes ≠ []
  pos_eq : d.pos k = start + pieces.flatten.length

theorem read_on_log (h : w.OnLog d) :
    let reply := (w.system.step (World.readCall k env)).1
    let bytes := if env.interrupted then [] else readAt d.stored (d.pos k) bufferSize
    (reply.retval ≤ 0 ↔ bytes = []) ∧ reply.bytes = bytes ∧
      (d.operate (.transfer (World.readCall k env))).2 = d.goto k (d.pos k + bytes.length) := by
  intro reply bytes
  have hcount : (UInt64.ofNat bufferSize).toNat = bufferSize := by decide
  have hanswer : (reply.retval.toInt, reply.bytes) =
      (d.read k (some bufferSize) (UInt64.ofNat bufferSize) env.interrupted).1 :=
    (h.represents.read (some bufferSize) (UInt64.ofNat bufferSize) env.interrupted).1
  have hafter : (d.operate (.transfer (World.readCall k env))).2 =
      (d.read k (some bufferSize) (UInt64.ofNat bufferSize) env.interrupted).2 := rfl
  rw [hafter]
  simp only [LogDevice.read] at hanswer ⊢
  cases hintr : env.interrupted with
  | true =>
    have hbytes : bytes = [] := by simp [bytes, hintr]
    simp only [hintr, if_true] at hanswer ⊢
    obtain ⟨hret, hread⟩ := Prod.mk.inj hanswer
    rw [hbytes, Int64.le_iff_toInt_le, hret]
    refine ⟨by decide, hread, ?_⟩
    simp [LogDevice.goto]
  | false =>
    have hbytes : bytes = readAt d.stored (d.pos k) bufferSize := by simp [bytes, hintr]
    simp only [hintr, Bool.false_eq_true, if_false, hcount, min_self] at hanswer ⊢
    obtain ⟨hret, hread⟩ := Prod.mk.inj hanswer
    rw [hbytes, Int64.le_iff_toInt_le, hret, ← List.length_eq_zero_iff]
    refine ⟨?_, hread, rfl⟩
    change (_ : ℤ) ≤ 0 ↔ _
    omega

theorem echoes_step (hi : w.Inv) (he : w.Enabled (j, env)) (h : (w.phase k).Echoes) :
    ((w.step (j, env)).2.phase k).Echoes := by
  rcases view_step hi he k with ⟨hsame, -⟩ | ⟨-, hm⟩
  · have hphase : (w.step (j, env)).2.phase k = w.phase k := congrArg View.phase hsame
    rwa [hphase]
  · change ((w.step (j, env)).2.view k).phase.Echoes
    cases hp : w.phase k with
    | echoing sendBuffer =>
      simp only [View.Moves, World.view, hp] at hm
      rcases hm with ⟨_, hv⟩ | ⟨_, _, _, hv⟩ <;> exact (congrArg View.phase hv) ▸ trivial
    | sending sendBuffer =>
      simp only [View.Moves, World.view, hp] at hm
      exact (congrArg View.phase hm) ▸ trivial
    | closing =>
      simp only [View.Moves, World.view, hp] at hm
      exact (congrArg View.phase hm) ▸ trivial
    | returned =>
      simp only [View.Moves, World.view, hp] at hm
      exact (congrArg View.phase hm) ▸ trivial
    | _ => simp [Phase.Echoes, hp] at h

theorem piece_ne (hj : j ≠ k) : w.piece (j, env) k = none := by
  unfold World.piece
  split
  · simp [hj]
  · rfl

theorem HasRead.stay {start : ℕ} {pieces : List (List UInt8)} {w' : World} {d' : LogDevice}
    (h : HasRead k start w d pieces) (honLog : w'.OnLog d') (hechoes : (w'.phase k).Echoes)
    (hgrows : d.stored <+: d'.stored) (hpos : d'.pos k = d.pos k) :
    HasRead k start w' d' (pieces ++ []) := by
  rw [List.append_nil]
  refine ⟨honLog, hechoes, ?_, h.ne_nil, hpos.trans h.pos_eq⟩
  rw [readSeq_of_isPrefix hgrows, h.reads_eq]
  rw [h.reads_eq]
  exact h.ne_nil

theorem hasRead_step {start : ℕ} {pieces : List (List UInt8)} (h : HasRead k start w d pieces)
    (he : w.Enabled (j, env))
    (hfit : (exec LogDevice.operate d (w.fileOp (j, env)).toList).log.history.length ≤
      max 10 d.log.history.length) :
    HasRead k start (w.step (j, env)).2 (exec LogDevice.operate d (w.fileOp (j, env)).toList)
      (pieces ++ (w.piece (j, env) k).toList) := by
  have honLog := onLog_step h.onLog he
  have hechoes := echoes_step h.onLog.inv he h.echoes
  by_cases hj : j = k
  · subst hj
    cases hw : w.ended with
    | some ending =>
      have hop : w.fileOp (j, env) = none := by simp [World.fileOp, hw]
      have hpiece : w.piece (j, env) j = none := by simp [World.piece, hw]
      rw [hop] at honLog ⊢
      rw [hpiece]
      exact h.stay honLog hechoes (List.prefix_refl _) rfl
    | none =>
      cases hp : w.phase j with
      | echoing sendBuffer =>
        obtain ⟨hret, hbytes, hmove⟩ := @read_on_log w d j env h.onLog
        have hop : w.fileOp (j, env) = some (.transfer (World.readCall j env)) := by
          simp [World.fileOp, hw, hp]
        rw [hop, Option.toList_some, exec_cons, exec_nil, hmove] at honLog ⊢
        by_cases hle : (w.system.step (World.readCall j env)).1.retval ≤ 0
        -- the read brings nothing
        · have hpiece : w.piece (j, env) j = none := by simp [World.piece, hw, hp, hle]
          rw [hpiece]
          apply h.stay honLog hechoes (List.prefix_refl _)
          rw [LogDevice.goto_pos, hret.mp hle, List.length_nil, Nat.add_zero]
        · have hsome := mt hret.mpr hle
          have hintr : env.interrupted = false := by
            by_contra hintr
            exact hsome (if_pos (by simpa using hintr))
          have hpiece : w.piece (j, env) j = some (readAt d.stored (d.pos j) bufferSize) := by
            simp [World.piece, hw, hp, hle, hbytes, hintr]
          rw [hintr, if_neg Bool.false_ne_true] at hsome
          rw [hintr, if_neg Bool.false_ne_true] at honLog ⊢
          rw [hpiece, Option.toList_some]
          refine ⟨honLog, hechoes, ?_, ?_, ?_⟩
          · rw [List.length_append, List.length_singleton, List.replicate_succ', readSeq_concat,
              LogDevice.goto_stored, h.reads_eq, ← h.pos_eq]
          · intro bytes hb
            rcases List.mem_append.mp hb with hb | hb
            · exact h.ne_nil bytes hb
            · rw [List.mem_singleton.mp hb]
              exact hsome
          · rw [LogDevice.goto_pos, List.flatten_append, List.flatten_singleton,
              List.length_append, ← Nat.add_assoc, ← h.pos_eq]
      | closing =>
        have hop : w.fileOp (j, env) = some (.release j) := by simp [World.fileOp, hw, hp]
        have hpiece : w.piece (j, env) j = none := by simp [World.piece, hw, hp]
        rw [hop] at honLog ⊢
        rw [hpiece]
        exact h.stay honLog hechoes (List.prefix_refl _) rfl
      | sending _ | returned =>
        have hop : w.fileOp (j, env) = none := by simp [World.fileOp, hw, hp]
        have hpiece : w.piece (j, env) j = none := by simp [World.piece, hw, hp]
        rw [hop] at honLog ⊢
        rw [hpiece]
        exact h.stay honLog hechoes (List.prefix_refl _) rfl
      | _ =>
        have hout := h.echoes
        rw [hp] at hout
        exact hout.elim
  -- the text only grows at its end
  · have hgrows : d.stored <+:
        (exec LogDevice.operate d (w.fileOp (j, env)).toList).stored := by
      apply LineLog.stored_prefix _ hfit
      rw [log_step h.onLog he]
      exact LineLog.history_prefix_foldl _ _
    rw [piece_ne hj]
    exact h.stay honLog hechoes hgrows (pos_step_ne h.onLog he hj)

/-- While no line falls out of the store, session `k` reads one text, in any interleaving. -/
theorem hasRead_run {start : ℕ} {pieces : List (List UInt8)} (h : HasRead k start w d pieces)
    {ls : List (ℕ × Env)} (hv : Valid World.step World.Enabled w ls)
    (hfit : (exec LogDevice.operate d (fileOpsIn w ls)).log.history.length ≤
      max 10 d.log.history.length) :
    HasRead k start (exec World.step w ls) (exec LogDevice.operate d (fileOpsIn w ls))
      (pieces ++ piecesIn k w ls) := by
  induction ls generalizing w d pieces with
  | nil =>
    rw [show piecesIn k w [] = [] from rfl, List.append_nil]
    exact h
  | cons l ls ih =>
    obtain ⟨j, env⟩ := l
    have hstep := log_step h.onLog hv.1
    have hrest := (onLog_run (onLog_step h.onLog hv.1) hv.2).2
    have hmore := LineLog.history_prefix_foldl
      (exec LogDevice.operate d (w.fileOp (j, env)).toList).log
      (packetsIn (w.step (j, env)).2 ls)
    have hfirst := LineLog.history_prefix_foldl d.log (w.packet (j, env)).toList
    rw [← hrest] at hmore
    rw [← hstep] at hfirst
    rw [fileOpsIn, along_cons, exec_append] at hfit ⊢
    rw [piecesIn, along_cons, ← List.append_assoc]
    have hle := hmore.length_le
    have hle' := hfirst.length_le
    exact ih (hasRead_step h hv.1 (hle.trans hfit)) hv.2 (hfit.trans (by omega))

theorem echoLoop_concat (sendBuffer : Region) (reads : List (List UInt8)) (bytes : List UInt8) :
    echoLoop sendBuffer (reads ++ [bytes]) = (echoLoop sendBuffer reads).bind fun sends =>
      (string ((reads ++ [bytes]).foldl readInto sendBuffer)).map fun str => sends ++ [str] := by
  induction reads generalizing sendBuffer with
  | nil =>
    simp only [List.nil_append, echoLoop, Option.bind_some, List.foldl_cons, List.foldl_nil]
    cases string (readInto sendBuffer bytes) <;> rfl
  | cons first reads ih =>
    simp only [List.cons_append, echoLoop, List.foldl_cons, ih]
    cases string (readInto sendBuffer first) with
    | none => rfl
    | some str =>
      cases echoLoop (readInto sendBuffer first) reads with
      | none => rfl
      | some sends => simp [Option.map_map, Function.comp_def]

/-- Session `k` has been sent what the loop makes of these reads. -/
def World.SentFor (w : World) (k : ℕ) (reads : List (List UInt8)) : Prop :=
  ∃ sends, echoLoop clearBuffer reads = some sends ∧ w.sent k = sends.flatten

/-- The state of the echo loop after these reads; between a read and its send the last one is
in the buffer only. -/
def World.Echoed (w : World) (k : ℕ) (reads : List (List UInt8)) : Prop :=
  match w.phase k with
  | .echoing sendBuffer => reads.foldl readInto clearBuffer = sendBuffer ∧ w.SentFor k reads
  | .sending sendBuffer => reads.foldl readInto clearBuffer = sendBuffer ∧
      ∃ before bytes, reads = before ++ [bytes] ∧ w.SentFor k before
  | .closing | .returned => w.SentFor k reads
  | _ => reads = [] ∧ w.sent k = []

theorem sent_step (h : j ≠ k ∨ ∀ sendBuffer, w.phase k ≠ .sending sendBuffer) :
    (w.step (j, env)).2.sent k = w.sent k := by
  cases hw : w.ended with
  | some ending => rw [step_ended (by simp [hw])]
  | none =>
    rw [step_running hw]
    cases hp : w.phase j with
    | receiving =>
      simp only [World.threadFunc, hp, World.receive]
      split
      · rfl
      · split <;> rfl
    | opening =>
      simp only [World.threadFunc, hp, World.openFile]
      split_ifs <;> rfl
    | command =>
      simp only [World.threadFunc, hp, World.obey]
      split
      · rfl
      · split_ifs <;> rfl
    | seeking stage =>
      simp only [World.threadFunc, hp, World.parse]
      split <;> rfl
    | controlling a b =>
      simp only [World.threadFunc, hp, World.control]
      split_ifs <;> rfl
    | echoing sendBuffer =>
      simp only [World.threadFunc, hp, World.echo]
      split_ifs <;> rfl
    | sending sendBuffer =>
      have hj : j ≠ k := by
        rcases h with hj | hk
        · exact hj
        · rintro rfl
          exact hk _ hp
      simp only [World.threadFunc, hp, World.send]
      split
      · rfl
      · split_ifs
        · rfl
        · exact Function.update_of_ne (Ne.symm hj) ..
    | closing => simp only [World.threadFunc, hp]; rfl
    | returned => simp only [World.threadFunc, hp]

theorem World.Echoed.other {reads : List (List UInt8)} (h : w.Echoed k reads) (hi : w.Inv)
    (he : w.Enabled (j, env)) (hj : j ≠ k) :
    (w.step (j, env)).2.Echoed k (reads ++ (w.piece (j, env) k).toList) := by
  have hphase : (w.step (j, env)).2.phase k = w.phase k := by
    rcases view_step hi he k with ⟨hsame, -⟩ | ⟨hk, -⟩
    · exact congrArg View.phase hsame
    · exact absurd hk.symm hj
  rw [piece_ne hj, Option.toList_none, List.append_nil]
  simpa only [World.Echoed, World.SentFor, hphase, sent_step (.inl hj)] using h

theorem echoed_nil (hsent : w.sent k = [])
    (hp : ¬ (w.phase k).Echoes ∨ w.phase k = .echoing clearBuffer) : w.Echoed k [] := by
  rcases hp with hout | hp
  · cases hp : w.phase k with
    | echoing _ | sending _ | closing | returned =>
      rw [hp] at hout
      exact absurd trivial hout
    | _ =>
      simp only [World.Echoed, hp]
      exact ⟨trivial, hsent⟩
  · simp only [World.Echoed, hp]
    exact ⟨rfl, [], rfl, hsent⟩

/-- The phases in which a session goes on from one before its echo. -/
theorem View.Moves.before_echo {v v' : View} (hm : v.Moves v') (hout : ¬ v.phase.Echoes) :
    ¬ v'.phase.Echoes ∨ v'.phase = .echoing clearBuffer := by
  cases hp : v.phase with
  | receiving =>
    simp only [View.Moves, hp] at hm
    obtain ⟨_, _, rfl | rfl, rfl⟩ := hm
    · exact .inl id
    · exact .inl id
  | opening =>
    simp only [View.Moves, hp] at hm
    subst hm
    exact .inl id
  | command =>
    simp only [View.Moves, hp] at hm
    rcases hm with rfl | ⟨-, rfl⟩
    · exact .inr rfl
    · exact .inl id
  | seeking stage =>
    simp only [View.Moves, hp] at hm
    rcases hm with ⟨_, _, rfl⟩ | ⟨_, -, rfl⟩
    · exact .inl id
    · exact .inl id
  | controlling a b =>
    simp only [View.Moves, hp] at hm
    obtain ⟨_, -, rfl⟩ := hm
    exact .inr rfl
  | _ =>
    rw [hp] at hout
    exact absurd trivial hout

theorem World.Echoed.before {reads : List (List UInt8)} (h : w.Echoed k reads) (hi : w.Inv)
    (he : w.Enabled (k, env)) (hout : ¬ (w.phase k).Echoes) :
    (w.step (k, env)).2.Echoed k (reads ++ (w.piece (k, env) k).toList) := by
  obtain ⟨rfl, hsent⟩ : reads = [] ∧ w.sent k = [] := by
    cases hp : w.phase k with
    | echoing _ | sending _ | closing | returned =>
      rw [hp] at hout
      exact absurd trivial hout
    | _ => simpa only [World.Echoed, hp] using h
  have hpiece : w.piece (k, env) k = none := by
    cases hw : w.ended with
    | some ending => simp [World.piece, hw]
    | none =>
      cases hp : w.phase k with
      | echoing _ =>
        rw [hp] at hout
        exact absurd trivial hout
      | _ => simp [World.piece, hw, hp]
  have hnext : (w.step (k, env)).2.sent k = [] := by
    rw [sent_step (.inr ?_), hsent]
    intro sendBuffer hp
    rw [hp] at hout
    exact hout trivial
  rw [hpiece]
  apply echoed_nil hnext
  rcases view_step hi he k with ⟨hsame, -⟩ | ⟨-, hm⟩
  · have hphase : (w.step (k, env)).2.phase k = w.phase k := congrArg View.phase hsame
    rw [hphase]
    exact .inl hout
  · exact hm.before_echo hout

theorem World.Echoed.own {reads : List (List UInt8)} (h : w.Echoed k reads)
    (hin : (w.phase k).Echoes) :
    (w.step (k, env)).2.Echoed k (reads ++ (w.piece (k, env) k).toList) := by
  cases hw : w.ended with
  | some ending =>
    have hpiece : w.piece (k, env) k = none := by simp [World.piece, hw]
    rw [step_ended (by simp [hw]), hpiece, Option.toList_none, List.append_nil]
    exact h
  | none =>
    cases hp : w.phase k with
    | echoing sendBuffer =>
      simp only [World.Echoed, hp] at h
      obtain ⟨rfl, hsent⟩ := h
      by_cases hret : (w.system.step (World.readCall k env)).1.retval ≤ 0
      · have hpiece : w.piece (k, env) k = none := by simp [World.piece, hw, hp, hret]
        rw [hpiece, Option.toList_none, List.append_nil, step_running hw]
        simp only [World.threadFunc, hp, World.echo, if_pos hret, World.Echoed, World.goto,
          Function.update_self]
        exact hsent
      · have hpiece : w.piece (k, env) k =
            some (w.system.step (World.readCall k env)).1.bytes := by
          simp [World.piece, hw, hp, hret]
        rw [hpiece, echo_step hw hp hret]
        simp only [World.Echoed, World.goto, Function.update_self, Option.toList_some,
          List.foldl_append, List.foldl_cons, List.foldl_nil, true_and]
        exact ⟨reads, _, rfl, hsent⟩
    | sending sendBuffer =>
      have hpiece : w.piece (k, env) k = none := by simp [World.piece, hw, hp]
      have hstay : w.Echoed k reads := h
      simp only [World.Echoed, hp] at h
      obtain ⟨hbuffer, before, bytes, rfl, sends, hsends, hsent⟩ := h
      rw [hpiece, Option.toList_none, List.append_nil]
      cases hs : string sendBuffer with
      | none =>
        rw [send_fault hw hp hs]
        exact hstay
      | some str =>
        cases hreset : env.reset with
        | true =>
          have hstop : (w.step (k, env)).2 = w.stop .sigpipe := by
            rw [step_running hw]
            simp [World.threadFunc, hp, World.send, hs, hreset]
          rw [hstop]
          exact hstay
        | false =>
          rw [send_step hw hp hreset hs]
          simp only [World.Echoed, World.goto, Function.update_self]
          refine ⟨hbuffer, sends ++ [str], ?_, ?_⟩
          · rw [echoLoop_concat, hsends, hbuffer, hs]
            rfl
          · simp [hsent]
    | closing =>
      have hpiece : w.piece (k, env) k = none := by simp [World.piece, hw, hp]
      simp only [World.Echoed, hp] at h
      rw [hpiece, Option.toList_none, List.append_nil, step_running hw]
      simp only [World.threadFunc, hp, World.close, World.Echoed, World.goto,
        Function.update_self]
      exact h
    | returned =>
      have hpiece : w.piece (k, env) k = none := by simp [World.piece, hw, hp]
      rw [hpiece, Option.toList_none, List.append_nil, step_running hw]
      simp only [World.threadFunc, hp]
      exact h
    | _ =>
      rw [hp] at hin
      exact hin.elim

/-- What a client has been sent is what the echo loop makes of its own session's reads,
whatever the other sessions do in between. -/
theorem echoed_run {reads : List (List UInt8)} (h : w.Echoed k reads) (hi : w.Inv)
    {ls : List (ℕ × Env)} (hv : Valid World.step World.Enabled w ls) :
    (exec World.step w ls).Echoed k (reads ++ piecesIn k w ls) := by
  induction ls generalizing w reads with
  | nil => simpa [piecesIn] using h
  | cons l ls ih =>
    obtain ⟨j, env⟩ := l
    have hstep : (w.step (j, env)).2.Echoed k (reads ++ (w.piece (j, env) k).toList) := by
      by_cases hj : j = k
      · subst hj
        by_cases hin : (w.phase j).Echoes
        · exact h.own hin
        · exact h.before hi hv.1 hin
      · exact h.other hi hv.1 hj
    rw [piecesIn, along_cons, ← List.append_assoc]
    exact ih hstep (inv_step hi hv.1) hv.2

theorem phase_of_packet {packet : List UInt8} (hp : w.packet (k, env) = some packet) :
    w.ended = none ∧ w.phase k = .command := by
  cases hw : w.ended with
  | some ending => simp [World.packet, hw] at hp
  | none =>
    cases hphase : w.phase k with
    | command => exact ⟨rfl, rfl⟩
    | _ => simp [World.packet, hw, hphase] at hp

theorem write_starts_echo (h : w.OnLog d) (he : w.Enabled (k, env)) {packet : List UInt8}
    (hp : w.packet (k, env) = some packet) :
    HasRead k 0 (w.step (k, env)).2 (exec LogDevice.operate d (w.fileOp (k, env)).toList) [] := by
  obtain ⟨hw, hcommand⟩ := phase_of_packet hp
  have hzero : d.pos k = 0 := by
    have hview := h.inv.sessions k
    simp only [View.Ok, World.view, hcommand] at hview
    rw [← h.represents.pos_eq, hview.2.2.2]
    rfl
  have hop : w.fileOp (k, env) = some (.transfer (World.writeCall k env packet)) := by
    simp [World.fileOp, hw, hcommand, hp]
  have hpos : (exec LogDevice.operate d (w.fileOp (k, env)).toList).pos k = 0 := by
    rw [hop]
    exact hzero
  have hechoes : ((w.step (k, env)).2.phase k).Echoes := by
    simp only [World.packet, hw, hcommand] at hp
    cases hb : (w.mem.buffers k).bind string with
    | none => simp [hb] at hp
    | some str =>
      simp only [hb] at hp
      split_ifs at hp with hpre
      have hsucceeds : (World.writeCall k env str).Succeeds w.system := by
        simpa [World.Enabled, hcommand, hb, hpre] using he
      have hret := (writeCall_step k env str h.inv.device hsucceeds).1
      rw [step_running hw]
      simp only [World.threadFunc, hcommand, World.obey, hb, if_neg hpre, if_neg hret,
        World.goto, Function.update_self]
      trivial
  exact ⟨onLog_step h he, hechoes, rfl, by simp, hpos⟩

/-- The last read of a loop that comes to the end of the file. -/
theorem HasRead.all {start : ℕ} {pieces : List (List UInt8)} (h : HasRead k start w d pieces)
    {sendBuffer : Region} (hp : w.phase k = .echoing sendBuffer)
    (hlast : (w.step (k, env)).2.phase k = .closing)
    (hintr : env.interrupted = false) : pieces.flatten = d.stored.flatten.drop start := by
  have hw : w.ended = none := by
    by_contra hw
    rw [step_ended hw, hp] at hlast
    cases hlast
  obtain ⟨hret, -, -⟩ := @read_on_log w d k env h.onLog
  have hle : (w.system.step (World.readCall k env)).1.retval ≤ 0 := by
    by_contra hgt
    rw [echo_step hw hp hgt] at hlast
    simp [World.goto] at hlast
  have hnil := hret.mp hle
  rw [hintr, if_neg Bool.false_ne_true, readAt_eq_nil (by decide)] at hnil
  have hread := readSeq_append_drop d.stored start (List.replicate pieces.length bufferSize)
  rw [h.reads_eq, ← h.pos_eq, List.drop_of_length_le hnil, List.append_nil] at hread
  exact hread

/-- If every packet has a newline, the lines of the log are the packets. -/
theorem history_eq_packets {ls : List (ℕ × Env)}
    (hv : Valid World.step World.Enabled (World.init .init) ls)
    (hlines : ∀ packet ∈ packetsIn (World.init .init) ls, newline ∈ packet) :
    (exec LogDevice.operate .empty (fileOpsIn (World.init .init) ls)).log.history =
      packetsIn (World.init .init) ls := by
  rw [(onLog_run onLog_init hv).2]
  exact (@LineLog.foldl_write_lines _ newline _ _ hlines LogDevice.empty.log rfl).1

end Client

/-- A session that writes a packet and then echoes until a read finds the end of the file:
the run before its write, the write, what all sessions do in between, and the last read. -/
structure FullEcho (k : ℕ) (packet : List UInt8) (before : List (ℕ × Env)) (write : Env)
    (during : List (ℕ × Env)) (last : Env) : Prop where
  valid : Valid World.step World.Enabled (World.init .init)
    (before ++ (k, write) :: during ++ [(k, last)])
  writes : (exec World.step (World.init .init) before).packet (k, write) = some packet
  echoes : ∃ sendBuffer, (exec World.step (World.init .init)
    (before ++ (k, write) :: during)).phase k = .echoing sendBuffer
  closes : (exec World.step (World.init .init)
    (before ++ (k, write) :: during ++ [(k, last)])).phase k = .closing
  uninterrupted : last.interrupted = false

section FullEcho

variable {k : ℕ} {packet : List UInt8} {before during : List (ℕ × Env)} {write last : Env}

theorem FullEcho.valid_run (h : FullEcho k packet before write during last) :
    Valid World.step World.Enabled (World.init .init) (before ++ (k, write) :: during) :=
  ((valid_concat _ _ _).mp h.valid).1

theorem FullEcho.packets_eq (h : FullEcho k packet before write during last) :
    packetsIn (World.init .init) (before ++ (k, write) :: during) =
      packetsIn (World.init .init) before ++ packet ::
        packetsIn ((exec World.step (World.init .init) before).step (k, write)).2 during := by
  have happend : packetsIn (World.init .init) (before ++ (k, write) :: during) =
      packetsIn (World.init .init) before ++ _ := along_append ..
  rw [happend, along_cons, h.writes]
  rfl

/-- Such a session has read nothing before its write, and one text behind it. -/
theorem FullEcho.hasRead (h : FullEcho k packet before write during last)
    (hlines : ∀ packet ∈ packetsIn (World.init .init) (before ++ (k, write) :: during),
      newline ∈ packet)
    (hstay : (packetsIn (World.init .init) (before ++ (k, write) :: during)).length ≤
      max 10 ((packetsIn (World.init .init) before).length + 1)) :
    let run := before ++ (k, write) :: during
    HasRead k 0 (exec World.step (World.init .init) run)
      (exec LogDevice.operate .empty (fileOpsIn (World.init .init) run))
      (piecesIn k (World.init .init) run) := by
  intro run
  obtain ⟨hbefore, hrest⟩ := (valid_append _ _ _).mp h.valid_run
  set w := exec World.step (World.init .init) before with hw
  set d := exec LogDevice.operate .empty (fileOpsIn (World.init .init) before) with hd
  have honLog : w.OnLog d := (onLog_run onLog_init hbefore).1
  have hops : exec LogDevice.operate .empty (fileOpsIn (World.init .init) run) =
      exec LogDevice.operate (exec LogDevice.operate d (w.fileOp (k, write)).toList)
        (fileOpsIn (w.step (k, write)).2 during) := by
    have happend : fileOpsIn (World.init .init) run = fileOpsIn (World.init .init) before ++
        fileOpsIn w ((k, write) :: during) := along_append ..
    rw [happend, exec_append, ← exec_append d]
    rfl
  have hcommand : w.phase k = .command := (phase_of_packet h.writes).2
  have hreads : piecesIn k (World.init .init) run = piecesIn k (w.step (k, write)).2 during := by
    have hechoed : w.Echoed k (piecesIn k (World.init .init) before) :=
      echoed_run (echoed_nil rfl (.inl id)) onLog_init.inv hbefore
    simp only [World.Echoed, hcommand] at hechoed
    have happend : piecesIn k (World.init .init) run = piecesIn k (World.init .init) before ++
        piecesIn k w ((k, write) :: during) := along_append ..
    have hnone : w.piece (k, write) k = none := by
      cases hended : w.ended with
      | some ending => simp [World.piece, hended]
      | none => simp [World.piece, hended, hcommand]
    rw [happend, hechoed.1, List.nil_append, piecesIn, along_cons, hnone]
    rfl
  have hrun : exec World.step (World.init .init) run =
      exec World.step (w.step (k, write)).2 during := by
    rw [exec_append, exec_cons]
  -- the log in front of the write has the packets so far
  have hfirst : (exec LogDevice.operate d (w.fileOp (k, write)).toList).log.history.length =
      (packetsIn (World.init .init) before).length + 1 := by
    have hown : newline ∈ packet := by
      apply hlines
      rw [h.packets_eq]
      simp
    have hbeforeLog : d.log.history = packetsIn (World.init .init) before := by
      apply history_eq_packets hbefore
      intro data hdata
      apply hlines
      rw [h.packets_eq]
      exact List.mem_append_left _ hdata
    rw [log_step honLog hrest.1, h.writes, Option.toList_some, List.foldl_cons, List.foldl_nil,
      (LineLog.write_of_mem (List.mem_append_right d.log.pending hown)).1, List.length_append,
      hbeforeLog, List.length_singleton]
  have hfit : (exec LogDevice.operate (exec LogDevice.operate d (w.fileOp (k, write)).toList)
      (fileOpsIn (w.step (k, write)).2 during)).log.history.length ≤
      max 10 (exec LogDevice.operate d (w.fileOp (k, write)).toList).log.history.length := by
    rw [← hops, history_eq_packets h.valid_run hlines, hfirst]
    exact hstay
  rw [hrun, hops, hreads]
  exact hasRead_run (write_starts_echo honLog hrest.1 h.writes) hrest.2 hfit

theorem FullEcho.sentFor (h : FullEcho k packet before write during last) :
    let run := before ++ (k, write) :: during
    (exec World.step (World.init .init) run).SentFor k (piecesIn k (World.init .init) run) := by
  intro run
  obtain ⟨sendBuffer, hphase⟩ := h.echoes
  have hechoed : (exec World.step (World.init .init) run).Echoed k
      (piecesIn k (World.init .init) run) :=
    echoed_run (echoed_nil rfl (.inl id)) onLog_init.inv h.valid_run
  change (exec World.step (World.init .init) run).phase k = _ at hphase
  simp only [World.Echoed, hphase] at hechoed
  exact hechoed.2

theorem FullEcho.flatten_eq (h : FullEcho k packet before write during last)
    (hlines : ∀ packet ∈ packetsIn (World.init .init) (before ++ (k, write) :: during),
      newline ∈ packet)
    (hstay : (packetsIn (World.init .init) (before ++ (k, write) :: during)).length ≤
      max 10 ((packetsIn (World.init .init) before).length + 1)) :
    (piecesIn k (World.init .init) (before ++ (k, write) :: during)).flatten =
      ((packetsIn (World.init .init) (before ++ (k, write) :: during)).rtake 10).flatten := by
  obtain ⟨sendBuffer, hphase⟩ := h.echoes
  rw [(h.hasRead hlines hstay).all hphase (by rw [← exec_concat]; exact h.closes) h.uninterrupted,
    List.drop_zero, LogDevice.stored, LineLog.stored, history_eq_packets h.valid_run hlines]

end FullEcho

/-- **A client gets all lines.** Whatever other sessions do at the same time: a session that
echoes to the end of the file has read the last ten packets of all sessions, its own among
them, if every packet has a newline and none was evicted since its own was written; and its
client has been sent what the echo loop makes of these reads. -/
theorem client_gets_lines {k : ℕ} {packet : List UInt8} {before during : List (ℕ × Env)}
    {write last : Env} (h : FullEcho k packet before write during last)
    (hlines : ∀ packet ∈ packetsIn (World.init .init) (before ++ (k, write) :: during),
      newline ∈ packet)
    (hstay : (packetsIn (World.init .init) (before ++ (k, write) :: during)).length ≤
      max 10 ((packetsIn (World.init .init) before).length + 1)) :
    let run := before ++ (k, write) :: during
    let lines := (packetsIn (World.init .init) run).rtake 10
    let reads := piecesIn k (World.init .init) run
    packet ∈ lines ∧ reads.flatten = lines.flatten ∧
      (exec World.step (World.init .init) run).SentFor k reads := by
  intro run lines reads
  refine ⟨?_, h.flatten_eq hlines hstay, h.sentFor⟩
  have hlen := congrArg List.length h.packets_eq
  rw [List.length_append, List.length_cons] at hlen
  have hfront : (packetsIn (World.init .init) run).length - 10 ≤
      (packetsIn (World.init .init) before).length := by
    change (packetsIn (World.init .init) run).length ≤ _ at hstay
    omega
  change packet ∈ List.drop _ _
  rw [h.packets_eq] at hfront ⊢
  rw [List.drop_append_of_le_length hfront]
  simp

theorem fullEcho_twoClients : FullEcho 0 [97, 10] twoClients (client [] 1)
    ((1, client [] 2) :: List.replicate 4 (0, client [] 1)) (client [] 1) where
  valid := by decide +kernel
  writes := by decide +kernel
  echoes := ⟨readInto (readInto clearBuffer [97, 10]) [98, 10], by decide +kernel⟩
  closes := by decide +kernel
  uninterrupted := rfl

theorem client_gets_lines_twoClients :
    let run := twoClients ++ (0, client [] 1) :: (1, client [] 2) ::
      List.replicate 4 (0, client [] 1)
    (piecesIn 0 (World.init .init) run).flatten =
      ((packetsIn (World.init .init) run).rtake 10).flatten :=
  (client_gets_lines fullEcho_twoClients (by decide +kernel) (by decide +kernel)).2.1

end Aesd.Server
