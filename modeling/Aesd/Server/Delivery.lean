import Aesd.Server.SeekReads

/-!
# From client to client

What the clients have sent is what the sessions write, and what a client gets of it, over any
interleaving.
-/

namespace Aesd.Server
open CString StepRuns Segments

def World.arrival (w : World) (l : ℕ × Env) (k : ℕ) : List UInt8 :=
  match w.ended, w.phase l.1, l.2.recv with
  | none, .receiving, .data bytes => if l.1 = k then bytes else []
  | _, _, _ => []

def arrivalsIn (k : ℕ) (w : World) (ls : List (ℕ × Env)) : List UInt8 :=
  along (fun w l => w.arrival l k) World.step w ls

/-- The sessions that write in a run, in the order of their writes. -/
def writersIn (w : World) (ls : List (ℕ × Env)) : List ℕ :=
  along (fun w l => (w.packet l).toList.map fun _ => l.1) World.step w ls

def ZeroFree (ls : List (ℕ × Env)) : Prop :=
  ∀ l ∈ ls, ∀ bytes, l.2.recv = .data bytes → 0 ∉ bytes

/-- A line that leaves room for its terminator. -/
def IsLine (text : List UInt8) : Prop :=
  ∃ a, text = a ++ [newline] ∧ newline ∉ a ∧ text.length < bufferSize

/-- A session that has not yet looked at its packet. -/
def Phase.BeforeCommand : Phase → Prop
  | .receiving | .opening | .command => True
  | _ => False

/-- Session `k` has received `text`, and until it looks at its packet it has it in its buffer. -/
structure World.Received (w : World) (k : ℕ) (text : List UInt8) : Prop where
  plain : 0 ∉ text
  line : newline ∈ text → IsLine text
  waiting : w.phase k = .receiving → newline ∉ text ∧ text.length ≤ bufferSize
  string_eq : (w.phase k).BeforeCommand → (w.mem.buffers k).bind string = some text

section Received

variable {w : World} {j k : ℕ} {env : Env} {text : List UInt8}

theorem received_init (system : System) (k : ℕ) : (World.init system).Received k [] where
  plain := List.not_mem_nil
  line h := absurd h List.not_mem_nil
  waiting _ := ⟨List.not_mem_nil, Nat.zero_le _⟩
  string_eq _ := string_emptyBuffer

theorem View.Moves.afterCommand {v v' : View} (hm : v.Moves v')
    (h : ¬ v.phase.BeforeCommand ∨ v.phase = .command) : ¬ v'.phase.BeforeCommand := by
  cases hp : v.phase with
  | receiving | opening => simp [hp, Phase.BeforeCommand] at h
  | command =>
    simp only [View.Moves, hp] at hm
    rcases hm with rfl | ⟨-, rfl⟩ <;> exact id
  | seeking stage =>
    simp only [View.Moves, hp] at hm
    rcases hm with ⟨_, _, rfl⟩ | ⟨_, -, rfl⟩ <;> exact id
  | controlling a b =>
    simp only [View.Moves, hp] at hm
    obtain ⟨_, -, rfl⟩ := hm
    exact id
  | echoing _ =>
    simp only [View.Moves, hp] at hm
    rcases hm with ⟨_, rfl⟩ | ⟨_, _, _, rfl⟩ <;> exact id
  | sending _ | closing | returned =>
    simp only [View.Moves, hp] at hm
    subst hm
    simp [Phase.BeforeCommand, hp]

theorem afterCommand_step (hi : w.Inv) (he : w.Enabled (j, env)) (h : ¬ (w.phase k).BeforeCommand) :
    ¬ ((w.step (j, env)).2.phase k).BeforeCommand := by
  rcases view_step hi he k with ⟨hsame, -⟩ | ⟨-, hm⟩
  · rwa [show (w.step (j, env)).2.phase k = w.phase k from congrArg View.phase hsame]
  · exact hm.afterCommand (.inl h)

theorem arrival_eq_nil (h : j = k → w.phase k ≠ .receiving) : w.arrival (j, env) k = [] := by
  unfold World.arrival
  split
  · rename_i hp _
    split_ifs with hj
    · exact absurd (hj ▸ hp) (h hj)
    · rfl
  · rfl

theorem World.Received.other (h : w.Received k text) (hc : w.SavedByCaller) (hi : w.Inv)
    (he : w.Enabled (j, env)) (hj : j ≠ k) :
    (w.step (j, env)).2.Received k (text ++ w.arrival (j, env) k) := by
  have hphase : (w.step (j, env)).2.phase k = w.phase k := by
    rcases view_step hi he k with ⟨hsame, -⟩ | ⟨hk, -⟩
    · exact congrArg View.phase hsame
    · exact absurd hk.symm hj
  rw [arrival_eq_nil fun heq => absurd heq hj, List.append_nil]
  refine ⟨h.plain, h.line, hphase ▸ h.waiting, ?_⟩
  intro hbefore
  rw [hphase] at hbefore
  have hbuffer : (w.step (j, env)).2.mem.buffers k = w.mem.buffers k := by
    rcases mem_step w j env with ⟨-, hkeep⟩ | ⟨-, -, i, _, -, hkeep, hcase⟩
    · exact hkeep k (Ne.symm hj)
    · apply hkeep
      rcases hcase with ⟨-, rfl⟩ | ⟨-, offset, hsaved⟩
      · exact Ne.symm hj
      -- the saved pointer is in a packet that its session has looked at
      · rintro rfl
        have hcalled := hc k offset hsaved
        cases hp : w.phase k with
        | receiving | opening | command =>
          rw [hp] at hcalled
          exact hcalled
        | _ =>
          rw [hp] at hbefore
          exact hbefore
  rw [hbuffer]
  exact h.string_eq hbefore

theorem running_of_step (h : (w.step (j, env)).2.ended = none) : w.ended = none := by
  by_contra hw
  rw [step_ended hw] at h
  exact hw h

theorem World.Received.receives (h : w.Received k text) (he : w.Enabled (k, env))
    (hp : w.phase k = .receiving) (hzero : ∀ bytes, env.recv = .data bytes → 0 ∉ bytes)
    (hend : (w.step (k, env)).2.ended = none) :
    (w.step (k, env)).2.Received k (text ++ w.arrival (k, env) k) := by
  have hw := running_of_step hend
  obtain ⟨hnewline, hlen⟩ := h.waiting hp
  obtain ⟨buffer, hbuffer, hstring⟩ := Option.bind_eq_some_iff.mp (h.string_eq (hp ▸ trivial))
  simp only [World.Enabled, hp] at he
  rw [step_running hw] at hend ⊢
  simp only [World.threadFunc, hp, World.receive, hbuffer] at hend ⊢
  cases hrecv : env.recv with
  | data bytes =>
    rw [hrecv] at hend he
    have harrival : w.arrival (k, env) k = bytes := by simp [World.arrival, hw, hp, hrecv]
    have hchunk : Chunk bytes := ⟨he.1, he.2, hzero bytes hrecv⟩
    have hplain : 0 ∉ text ++ bytes := by
      rw [List.mem_append, not_or]
      exact ⟨h.plain, hchunk.notMem⟩
    rw [harrival]
    by_cases hm : newline ∈ bytes
    -- the last chunk of the packet, which is the first
    · obtain ⟨a, b, rfl, ha⟩ := List.eq_append_cons_of_mem hm
      rcases receiveOnce_of_mem env.junk hchunk hstring ha with
        ⟨rfl, rfl, hlt, m, hdone, hm'⟩ | ⟨-, hfault⟩
      · simp only [hdone]
        refine ⟨hplain, fun _ => ⟨a, rfl, ha, by simpa using hlt⟩, ?_, ?_⟩
        · simp [World.goto]
        · intro _
          simp [World.goto, hm']
      · simp [hfault, World.stop] at hend
    · rcases receiveOnce_of_notMem env.junk hchunk hstring hm with
        ⟨-, hle, m, hnext, hm'⟩ | ⟨-, hfault⟩
      · simp only [hnext]
        have hnone : newline ∉ text ++ bytes := by
          rw [List.mem_append, not_or]
          exact ⟨hnewline, hm⟩
        refine ⟨hplain, fun hin => absurd hin hnone, fun _ => ⟨hnone, by simpa using hle⟩, ?_⟩
        intro _
        simp [hm']
      · simp [hfault, World.stop] at hend
  | closed =>
    have harrival : w.arrival (k, env) k = [] := by simp [World.arrival, hw, hp, hrecv]
    rw [harrival, List.append_nil]
    simp only [receiveOnce]
    refine ⟨h.plain, h.line, ?_, ?_⟩
    · simp [World.goto]
    · intro _
      simp [World.goto, hstring]
  | failed => simp [hrecv, receiveOnce, World.stop] at hend

theorem World.Received.own (h : w.Received k text) (hi : w.Inv) (he : w.Enabled (k, env))
    (hzero : ∀ bytes, env.recv = .data bytes → 0 ∉ bytes)
    (hend : (w.step (k, env)).2.ended = none) :
    (w.step (k, env)).2.Received k (text ++ w.arrival (k, env) k) := by
  by_cases hp : w.phase k = .receiving
  · exact h.receives he hp hzero hend
  rw [arrival_eq_nil fun _ => hp, List.append_nil]
  by_cases hopening : w.phase k = .opening
  · have hw := running_of_step hend
    have hopens : env.opens = true := by simpa only [World.Enabled, hopening] using he
    rw [step_running hw]
    simp only [World.threadFunc, hopening, World.openFile, if_pos hopens]
    refine ⟨h.plain, h.line, ?_, fun _ => h.string_eq (hopening ▸ trivial)⟩
    simp [World.goto]
  -- behind its command the session has no packet any more
  · have hout : ¬ ((w.step (k, env)).2.phase k).BeforeCommand := by
      rcases view_step hi he k with ⟨-, hended | hne⟩ | ⟨-, hm⟩
      · exact absurd hend hended
      · exact absurd rfl hne
      · apply hm.afterCommand
        change ¬ (w.phase k).BeforeCommand ∨ w.phase k = .command
        cases hphase : w.phase k with
        | receiving => exact absurd hphase hp
        | opening => exact absurd hphase hopening
        | command => exact .inr rfl
        | _ => exact .inl id
    refine ⟨h.plain, h.line, ?_, fun hbefore => absurd hbefore hout⟩
    intro hreceiving
    rw [hreceiving] at hout
    exact absurd trivial hout

theorem received_step (h : w.Received k text) (hc : w.SavedByCaller) (hi : w.Inv)
    (he : w.Enabled (j, env)) (hzero : ∀ bytes, env.recv = .data bytes → 0 ∉ bytes)
    (hend : (w.step (j, env)).2.ended = none) :
    (w.step (j, env)).2.Received k (text ++ w.arrival (j, env) k) := by
  by_cases hj : j = k
  · subst hj
    exact h.own hi he hzero hend
  · exact h.other hc hi he hj

/-- A session behind its command receives nothing and writes nothing. -/
theorem afterCommand_run (hi : w.Inv) (h : ¬ (w.phase k).BeforeCommand) {ls : List (ℕ × Env)}
    (hv : Valid World.step World.Enabled w ls) :
    arrivalsIn k w ls = [] ∧ k ∉ writersIn w ls := by
  induction ls generalizing w with
  | nil => exact ⟨rfl, List.not_mem_nil⟩
  | cons l ls ih =>
    obtain ⟨j, env⟩ := l
    have harrival : w.arrival (j, env) k = [] := by
      apply arrival_eq_nil
      intro _ hp
      rw [hp] at h
      exact h trivial
    have hwriter : k ∉ (w.packet (j, env)).toList.map fun _ => j := by
      intro hk
      obtain ⟨packet, hpacket, rfl⟩ := List.mem_map.mp hk
      have hp := (phase_of_packet (Option.mem_toList.mp hpacket)).2
      rw [hp] at h
      exact h trivial
    obtain ⟨hrest, hout⟩ := ih (inv_step hi hv.1) (afterCommand_step hi hv.1 h) hv.2
    rw [arrivalsIn, along_cons, harrival, writersIn, along_cons, List.mem_append, not_or]
    exact ⟨hrest, hwriter, hout⟩

/-- The packets of a run are what their sessions have received, and each session writes at
most one. -/
theorem received_run {texts : ℕ → List UInt8} (h : ∀ k, w.Received k (texts k))
    (hc : w.SavedByCaller) (hi : w.Inv) {ls : List (ℕ × Env)}
    (hv : Valid World.step World.Enabled w ls) (hzero : ZeroFree ls)
    (hend : (exec World.step w ls).ended = none) :
    (∀ k, (exec World.step w ls).Received k (texts k ++ arrivalsIn k w ls)) ∧
      packetsIn w ls = (writersIn w ls).map (fun k => texts k ++ arrivalsIn k w ls) ∧
      (writersIn w ls).Nodup := by
  induction ls generalizing w texts with
  | nil =>
    refine ⟨fun k => ?_, rfl, List.nodup_nil⟩
    rw [arrivalsIn, along_nil, List.append_nil]
    exact h k
  | cons l ls ih =>
    obtain ⟨j, env⟩ := l
    have hrunning : (w.step (j, env)).2.ended = none := by
      by_contra hended
      rw [exec_cons, exec_of_ended hended] at hend
      exact hended hend
    have hi' := inv_step hi hv.1
    have hstep := fun k => received_step (h k) hc hi hv.1 (hzero _ List.mem_cons_self) hrunning
    obtain ⟨hreceived, hpackets, hnodup⟩ := ih hstep (savedByCaller_step hc) hi' hv.2
      (fun l hl => hzero l (List.mem_cons_of_mem _ hl)) hend
    simp only [List.append_assoc] at hreceived hpackets
    rw [packetsIn, along_cons, writersIn, along_cons]
    cases hpacket : w.packet (j, env) with
    | none => exact ⟨hreceived, hpackets, hnodup⟩
    -- session `j` writes, and never again
    | some packet =>
      obtain ⟨hw, hcommand⟩ := phase_of_packet hpacket
      have htext : packet = texts j := by
        have hstring := (h j).string_eq (hcommand ▸ trivial)
        simp only [World.packet, hw, hcommand, hstring] at hpacket
        split_ifs at hpacket
        exact (Option.some.inj hpacket).symm
      have hout : ¬ ((w.step (j, env)).2.phase j).BeforeCommand := by
        rcases view_step hi hv.1 j with ⟨-, hended | hne⟩ | ⟨-, hm⟩
        · exact absurd hrunning hended
        · exact absurd rfl hne
        · exact hm.afterCommand (.inr hcommand)
      obtain ⟨hnothing, hnever⟩ := afterCommand_run hi' hout hv.2
      refine ⟨hreceived, ?_, List.nodup_cons.mpr ⟨hnever, hnodup⟩⟩
      have hnone : arrivalsIn j w ((j, env) :: ls) = [] := by
        rw [arrivalsIn, along_cons, arrival_eq_nil fun _ => by simp [hcommand]]
        exact hnothing
      change packet :: packetsIn (w.step (j, env)).2 ls = (texts j ++ _) :: List.map _ _
      rw [hnone, htext, List.append_nil, hpackets]
      rfl

end Received

section FullEcho

variable {k : ℕ} {packet : List UInt8} {before during : List (ℕ × Env)} {write last : Env}

theorem FullEcho.running (h : FullEcho k packet before write during last) :
    (exec World.step (World.init .init) (before ++ (k, write) :: during)).ended = none := by
  obtain ⟨sendBuffer, hphase⟩ := h.echoes
  have hcloses := h.closes
  by_contra hended
  rw [exec_concat, step_ended hended, hphase] at hcloses
  cases hcloses

theorem FullEcho.received (h : FullEcho k packet before write during last)
    (hzero : ZeroFree (before ++ (k, write) :: during)) :
    let run := before ++ (k, write) :: during
    (∀ j, (exec World.step (World.init .init) run).Received j (arrivalsIn j (World.init .init) run)) ∧
      packetsIn (World.init .init) run =
        (writersIn (World.init .init) run).map (arrivalsIn · (World.init .init) run) := by
  intro run
  obtain ⟨hreceived, hpackets, -⟩ := received_run (received_init .init) savedByCaller_init
    onLog_init.inv h.valid_run hzero h.running
  exact ⟨hreceived, hpackets⟩

theorem FullEcho.writers_eq (h : FullEcho k packet before write during last) :
    writersIn (World.init .init) (before ++ (k, write) :: during) =
      writersIn (World.init .init) before ++ k ::
        writersIn ((exec World.step (World.init .init) before).step (k, write)).2 during := by
  have happend : writersIn (World.init .init) (before ++ (k, write) :: during) =
      writersIn (World.init .init) before ++ _ := along_append ..
  rw [happend, along_cons, h.writes]
  rfl

theorem writersIn_length (w : World) (ls : List (ℕ × Env)) :
    (writersIn w ls).length = (packetsIn w ls).length := by
  induction ls generalizing w with
  | nil => rfl
  | cons l ls ih =>
    rw [writersIn, along_cons, packetsIn, along_cons, List.length_append, List.length_append,
      List.length_map]
    exact congrArg _ (ih _)

/-- An echo to the end of the file is exact when the lines become no shorter. -/
theorem FullEcho.delivered (h : FullEcho k packet before write during last)
    (hzero : ZeroFree (before ++ (k, write) :: during))
    (hlines : ∀ j ∈ writersIn (World.init .init) (before ++ (k, write) :: during),
      newline ∈ arrivalsIn j (World.init .init) (before ++ (k, write) :: during))
    (hstay : (writersIn (World.init .init) (before ++ (k, write) :: during)).length ≤
      max 10 ((writersIn (World.init .init) before).length + 1)) :
    let run := before ++ (k, write) :: during
    let writers := (writersIn (World.init .init) run).rtake 10
    let lines := writers.map (arrivalsIn · (World.init .init) run)
    k ∈ writers ∧ ((exec World.step (World.init .init) run).sent k = lines.flatten ↔
      (lines.map List.length).Pairwise (· ≤ ·)) := by
  intro run writers lines
  obtain ⟨hreceived, hpackets⟩ := h.received hzero
  have hlast : lines = (packetsIn (World.init .init) run).rtake 10 := by
    rw [hpackets, List.rtake, List.length_map, ← List.map_drop]
    rfl
  have hwriter (line : List UInt8) (hline : line ∈ lines) :
      ∃ j ∈ writersIn (World.init .init) run, arrivalsIn j (World.init .init) run = line := by
    obtain ⟨j, hj, rfl⟩ := List.mem_map.mp hline
    exact ⟨j, List.mem_of_mem_drop hj, rfl⟩
  have hisLine (line : List UInt8) (hline : line ∈ lines) : IsLine line := by
    obtain ⟨j, hj, rfl⟩ := hwriter line hline
    exact (hreceived j).line (hlines j hj)
  have hchunk (line : List UInt8) (hline : line ∈ lines) : Chunk line := by
    obtain ⟨j, hj, rfl⟩ := hwriter line hline
    obtain ⟨a, heq, -, hlt⟩ := hisLine _ hline
    exact ⟨heq ▸ by simp, hlt.le, (hreceived j).plain⟩
  have hnewline : ∀ packet ∈ packetsIn (World.init .init) run, newline ∈ packet := by
    intro data hdata
    rw [hpackets] at hdata
    obtain ⟨j, hj, rfl⟩ := List.mem_map.mp hdata
    exact hlines j hj
  rw [writersIn_length, writersIn_length] at hstay
  -- every read of the loop brings one line
  have hreads : piecesIn k (World.init .init) run = lines := by
    have hread := h.hasRead hnewline hstay
    have hflatten := h.flatten_eq hnewline hstay
    have hstored : (exec LogDevice.operate .empty (fileOpsIn (World.init .init) run)).stored =
        lines := by
      rw [LogDevice.stored, LineLog.stored, history_eq_packets h.valid_run hnewline, hlast]
    rw [← hlast] at hflatten
    have hseq := hread.reads_eq
    rw [hstored] at hseq
    rw [← hseq]
    apply readSeq_eq_self
    · intro line hline
      exact ⟨(hchunk line hline).ne_nil, (hchunk line hline).length_le⟩
    · rw [hseq]
      exact hread.ne_nil
    · rw [hseq]
      exact hflatten
  obtain ⟨sends, hsends, hsent⟩ := h.sentFor
  rw [hreads] at hsends
  have hexact := @echoLoop_received [] lines List.not_mem_nil hchunk
  change echoLoop clearBuffer lines = some lines ↔ _ at hexact
  refine ⟨?_, ?_⟩
  · have hlen := congrArg List.length h.writers_eq
    rw [List.length_append, List.length_cons] at hlen
    rw [← writersIn_length, ← writersIn_length] at hstay
    change k ∈ List.drop _ _
    rw [h.writers_eq, List.drop_append_of_le_length (by rw [← h.writers_eq]; omega)]
    simp
  · rw [hsent]
    constructor
    · intro hsame
      have hprefix := prefix_of_echoLoop List.not_mem_nil hchunk hsends
      obtain rfl := (flatten_of_prefixes hprefix).2 hsame
      exact (hexact.mp hsends).2
    · intro hsorted
      have hall := hexact.mpr ⟨fun line hline => ⟨Nat.zero_le _, ?_⟩, hsorted⟩
      · rw [hsends] at hall
        rw [Option.some.inj hall]
      · obtain ⟨a, -, -, hlt⟩ := hisLine line hline
        exact hlt

/-- **From client to client.** Any number of clients send what they like, but no zero byte, and
each session that writes has received a newline. Then each writes once and has received one line
shorter than the buffer, whole; and the client of a session that echoes to the end of the file,
with no line evicted since its own, is sent exactly the last ten lines in the order of the
writes, if and only if no line is shorter than the one before it. -/
theorem lines_delivered_iff {run : List (ℕ × Env)}
    (h : Valid World.step World.Enabled (World.init .init) run)
    (hrunning : (exec World.step (World.init .init) run).ended = none) (hzero : ZeroFree run)
    (hlines : ∀ j ∈ writersIn (World.init .init) run,
      newline ∈ arrivalsIn j (World.init .init) run) :
    (writersIn (World.init .init) run).Nodup ∧
      (∀ j ∈ writersIn (World.init .init) run, IsLine (arrivalsIn j (World.init .init) run)) ∧
      ∀ {k : ℕ} {packet : List UInt8} {before during : List (ℕ × Env)} {write last : Env},
        run = before ++ (k, write) :: during → FullEcho k packet before write during last →
        (writersIn (World.init .init) run).length ≤
          max 10 ((writersIn (World.init .init) before).length + 1) →
        let writers := (writersIn (World.init .init) run).rtake 10
        let lines := writers.map (arrivalsIn · (World.init .init) run)
        k ∈ writers ∧ ((exec World.step (World.init .init) run).sent k = lines.flatten ↔
          (lines.map List.length).Pairwise (· ≤ ·)) := by
  obtain ⟨hreceived, -, hnodup⟩ :=
    received_run (received_init .init) savedByCaller_init onLog_init.inv h hzero hrunning
  refine ⟨hnodup, fun j hj => (hreceived j).line (hlines j hj), ?_⟩
  rintro k packet before during write last rfl hecho hstay
  exact hecho.delivered hzero hlines hstay

end FullEcho

theorem lines_delivered_iff_twoClients :
    (exec World.step (World.init .init) (twoClients ++ (0, client [] 1) :: (1, client [] 2) ::
      List.replicate 4 (0, client [] 1))).sent 0 = [97, 10, 98, 10] := by
  have hecho := fullEcho_twoClients
  have hdelivered := (lines_delivered_iff hecho.valid_run hecho.running
    (by simp [ZeroFree, twoClients, client, answer]) (by decide +kernel)).2.2 rfl hecho
    (by decide +kernel)
  refine (hdelivered.2.mpr (by decide +kernel)).trans ?_
  decide +kernel

end Aesd.Server
