import Aesd.Server.Session
import Aesd.SequentialRead

/-!
# What ends the server

Which steps of which sessions end the process, and that every other step moves its own
session only.
-/

namespace Aesd.Server
open CString StepRuns Segments

variable {w : World} {k : ℕ} {env : Env}

/-- What holds of a process that runs. -/
structure World.Inv (w : World) : Prop where
  device : w.system.kernel.Owned ∧ w.system.kernel.Fits
  behind : Behind w.mem
  sessions : ∀ k, (w.view k).Ok

/-- A step of session `k` that does not end the process. -/
structure World.Stepped (w w' : World) (k : ℕ) : Prop where
  running : w'.ended = w.ended
  own : (w.view k).Moves (w'.view k)
  others : ∀ j, j ≠ k → w'.view j = w.view j
  device : w'.system.kernel.Owned ∧ w'.system.kernel.Fits
  behind : Behind w'.mem

theorem World.Inv.stepped {w w' : World} (hi : w.Inv) (hs : w.Stepped w' k) : w'.Inv where
  device := hs.device
  behind := hs.behind
  sessions j := by
    by_cases hj : j = k
    · subst hj
      exact (hi.sessions j).moves hs.own
    · rw [hs.others j hj]
      exact hi.sessions j

def World.Rejects (w : World) (k : ℕ) (env : Env) : Prop :=
  match w.phase k with
  | .seeking stage => parseStep w.mem k stage = .invalid
  | .controlling writeCmd writeCmdOffset =>
    SeekRefused w.system.kernel writeCmd writeCmdOffset env.beyond env.interrupted
  | _ => False

/-- When the next step of session `k` ends the process so. A call leaves its buffer only
where it works on one. -/
def World.Cause (w : World) (k : ℕ) (env : Env) : Ending → Prop
  | .exit => w.phase k = .receiving ∧ env.recv = .failed
  | .exitSafely => w.Rejects k env
  | .sigpipe => ∃ sendBuffer str, w.phase k = .sending sendBuffer ∧ string sendBuffer = some str ∧
      env.reset = true
  | .fault => w.phase k = .receiving ∨ w.phase k = .command ∨ (∃ stage, w.phase k = .seeking stage) ∨
      ∃ sendBuffer, w.phase k = .sending sendBuffer

section Calls

theorem view_goto_self (phase : Phase) : (w.goto k phase).view k = { w.view k with phase } := by
  simp [World.goto, World.view]

theorem view_goto_ne {j : ℕ} (hj : j ≠ k) (phase : Phase) :
    (w.goto k phase).view j = w.view j := by
  simp [World.goto, World.view, hj]

/-- A call that has worked for session `k` only, and its move to the next phase. -/
theorem stepped_goto {w' : World} {phase : Phase} (hrunning : w'.ended = w.ended)
    (hown : (w.view k).Moves { w'.view k with phase })
    (hothers : ∀ j, j ≠ k → w'.view j = w.view j)
    (hdevice : w'.system.kernel.Owned ∧ w'.system.kernel.Fits) (hbehind : Behind w'.mem) :
    w.Stepped (w'.goto k phase) k where
  running := hrunning
  own := by
    rw [view_goto_self]
    exact hown
  others j hj := by
    rw [view_goto_ne hj]
    exact hothers j hj
  device := hdevice
  behind := hbehind

theorem headOf_ne_none {buffer : Option Region} (h : headOf buffer ≠ none) :
    ∃ m, buffer = some m := by
  cases buffer with
  | none => exact absurd rfl h
  | some m => exact ⟨m, rfl⟩

theorem receiveOnce_eq_exit {buffer : Region} {junk : ℕ → UInt8} {recv : Recv} :
    receiveOnce buffer junk recv = .exit ↔ recv = .failed := by
  cases recv with
  | data bytes =>
    simp only [receiveOnce, reduceCtorEq, iff_false]
    split
    · simp
    · split <;> simp
  | closed => simp [receiveOnce]
  | failed => simp [receiveOnce]

theorem receive_cases (hi : w.Inv) (hp : w.phase k = .receiving) :
    (∃ ending, w.receive k env = w.stop ending ∧ w.Cause k env ending) ∨
      w.Stepped (w.receive k env) k := by
  have hok := hi.sessions k
  simp only [View.Ok, World.view, hp] at hok
  obtain ⟨buffer, hb⟩ := headOf_ne_none hok.2.2
  simp only [World.receive, hb]
  cases hr : receiveOnce buffer env.junk env.recv with
  | next buffer' =>
    refine .inr ⟨rfl, ?_, fun j hj => ?_, hi.device, hi.behind⟩
    · simp [View.Moves, World.view, hp, headOf]
    · simp [World.view, hj]
  | done buffer' =>
    apply Or.inr
    refine stepped_goto rfl ?_ ?_ hi.device hi.behind
    · simp [View.Moves, World.view, hp, headOf]
    · intro j hj
      simp [World.view, hj]
  | exit => exact .inl ⟨.exit, rfl, hp, receiveOnce_eq_exit.mp hr⟩
  | fault => exact .inl ⟨.fault, rfl, .inl hp⟩

theorem receiveOnce_newline (buffer : Region) (junk : ℕ → UInt8) {bytes : List UInt8}
    (h : newline ∈ bytes) :
    receiveOnce buffer junk (.data bytes) = .fault ∨
      ∃ buffer', receiveOnce buffer junk (.data bytes) = .done buffer' := by
  have hsome : ((received bytes).findIdx? (· = newline)).isSome := by
    rw [List.findIdx?_isSome, List.any_eq_true]
    exact ⟨newline, List.mem_append_left _ h, by simp⟩
  obtain ⟨index, hindex⟩ := Option.isSome_iff_exists.mp hsome
  simp only [receiveOnce, findNewline, hindex]
  split
  · exact .inl rfl
  · exact .inr ⟨_, rfl⟩

theorem receive_last (hi : w.Inv) (hp : w.phase k = .receiving)
    (hrecv : env.recv = .closed ∨ ∃ bytes, env.recv = .data bytes ∧ newline ∈ bytes) :
    (w.receive k env).ended ≠ none ∨ (w.receive k env).phase k = .opening := by
  have hok := hi.sessions k
  simp only [View.Ok, World.view, hp] at hok
  obtain ⟨buffer, hb⟩ := headOf_ne_none hok.2.2
  have hends : receiveOnce buffer env.junk env.recv = .fault ∨
      ∃ buffer', receiveOnce buffer env.junk env.recv = .done buffer' := by
    rcases hrecv with hrecv | ⟨bytes, hrecv, hnewline⟩
    · rw [hrecv]
      exact .inr ⟨buffer, rfl⟩
    · rw [hrecv]
      exact receiveOnce_newline buffer env.junk hnewline
  rcases hends with hr | ⟨buffer', hr⟩
  · exact .inl (by simp [World.receive, hb, hr, World.stop])
  · exact .inr (by simp [World.receive, hb, hr, World.goto])

theorem openFile_cases (hi : w.Inv) (hp : w.phase k = .opening) (ho : env.opens = true) :
    w.Stepped (w.openFile k env) k := by
  rw [World.openFile, if_pos ho]
  refine stepped_goto rfl ?_ ?_ hi.device hi.behind
  · simp [View.Moves, World.view, hp]
  · intro j hj
    simp [World.view, hj]

theorem head_of_prefix {buffer : Option Region} {str : List UInt8} (h : buffer.bind string = some str)
    (hp : seekPrefix <+: str) : headOf buffer = some seekPrefix := by
  obtain ⟨m, rfl, hm⟩ := Option.bind_eq_some_iff.mp h
  obtain ⟨-, rest, rfl⟩ := string_eq_some.mp hm
  obtain ⟨s, rfl⟩ := hp
  rw [headOf, Option.map_some, List.append_assoc, List.take_left]

theorem writeCall_step (k : ℕ) (env : Env) (str : List UInt8) {s : System}
    (hd : s.kernel.Owned ∧ s.kernel.Fits) (hs : (World.writeCall k env str).Succeeds s) :
    ¬ (s.step (World.writeCall k env str)).1.retval < 0 ∧
      (s.step (World.writeCall k env str)).2.fPos = s.fPos ∧
      (s.step (World.writeCall k env str)).2.kernel.Owned ∧
      (s.step (World.writeCall k env str)).2.kernel.Fits := by
  refine ⟨?_, rfl, fits_step hd hs.kernelOk⟩
  rw [Int64.lt_iff_toInt_lt, retval_of_succeeds hs]
  simp

theorem obey_cases (hi : w.Inv) (hp : w.phase k = .command) (he : w.Enabled (k, env)) :
    (∃ ending, w.obey k env = w.stop ending ∧ w.Cause k env ending) ∨
      w.Stepped (w.obey k env) k := by
  cases hb : (w.mem.buffers k).bind string with
  | none => exact .inl ⟨.fault, by simp [World.obey, hb], .inr (.inl hp)⟩
  | some str =>
    simp only [World.obey, hb]
    split_ifs with hpre hret
    · have hhead : headOf (w.mem.buffers k) = some seekPrefix := head_of_prefix hb hpre
      apply Or.inr
      refine stepped_goto rfl ?_ (fun _ _ => rfl) hi.device hi.behind
      simp [View.Moves, World.view, hp, hhead]
    · have hsucceeds : (World.writeCall k env str).Succeeds w.system := by
        simpa [World.Enabled, hp, hb, hpre] using he
      exact absurd hret (writeCall_step k env str hi.device hsucceeds).1
    · have hsucceeds : (World.writeCall k env str).Succeeds w.system := by
        simpa [World.Enabled, hp, hb, hpre] using he
      obtain ⟨-, hfPos, hdevice⟩ := writeCall_step k env str hi.device hsucceeds
      apply Or.inr
      refine stepped_goto rfl ?_ ?_ hdevice hi.behind
      · simp [View.Moves, World.view, hp, hfPos]
      · intro j _
        simp [World.view, hfPos]

theorem parse_cases {stage : Stage ℕ} (hi : w.Inv) (hp : w.phase k = .seeking stage) :
    (∃ ending, w.parse k stage = w.stop ending ∧ w.Cause k env ending) ∨
      w.Stepped (w.parse k stage) k := by
  cases hs : parseStep w.mem k stage with
  | invalid =>
    have hrejects : w.Rejects k env := by simp [World.Rejects, hp, hs]
    exact .inl ⟨.exitSafely, by simp [World.parse, hs], hrejects⟩
  | fault => exact .inl ⟨.fault, by simp [World.parse, hs], .inr (.inr (.inl ⟨_, hp⟩))⟩
  | stage stage' mem =>
    obtain ⟨⟨hbehind, hhead⟩, hless⟩ := parseStep_stage hi.behind hs
    have hothers : ∀ j, World.view { w with mem } j = w.view j := by
      intro j
      simp [World.view, hhead]
    apply Or.inr
    cases stage' with
    | ready writeCmd writeCmdOffset =>
      simp only [World.parse, hs]
      refine stepped_goto rfl ?_ (fun j _ => hothers j) hi.device hbehind
      simp [View.Moves, World.view, hp, hhead]
    | _ =>
      have hless := hless.resolve_left (by simp)
      simp only [World.parse, hs]
      refine stepped_goto rfl ?_ (fun j _ => hothers j) hi.device hbehind
      simp [View.Moves, World.view, hp, hhead, hless]

theorem control_cases {writeCmd writeCmdOffset : UInt32} (hi : w.Inv)
    (hp : w.phase k = .controlling writeCmd writeCmdOffset) :
    (∃ ending, w.control k env writeCmd writeCmdOffset = w.stop ending ∧ w.Cause k env ending) ∨
      w.Stepped (w.control k env writeCmd writeCmdOffset) k := by
  have hresult := aesdAdjustFileOffset_result w.system.kernel ⟨w.system.fPos k⟩ writeCmd
    writeCmdOffset env.beyond env.interrupted
  simp only [World.control, aesdIoctl_seekto]
  split_ifs with hzero
  · have hrejects : w.Rejects k env := by simpa [World.Rejects, hp] using hresult.mp hzero
    exact .inl ⟨.exitSafely, rfl, hrejects⟩
  · have hfPos (h : w.system.fPos k = 0) :=
      (aesdAdjustFileOffset_fPos hi.device.1 hi.device.2 (show 0 ≤ (File.mk (w.system.fPos k)).fPos by
        simp [h]) (by simp [h]) (mt hresult.mpr hzero)).1
    apply Or.inr
    refine stepped_goto rfl ?_ ?_ hi.device hi.behind
    · simp only [View.Moves, World.view, hp]
      exact ⟨_, hfPos, by simp⟩
    · intro j hj
      simp [World.view, hj]

theorem readCall_step {s : System} (hd : s.kernel.Owned ∧ s.kernel.Fits) (hp : 0 ≤ s.fPos k)
    (hret : ¬ (s.step (World.readCall k env)).1.retval ≤ 0) :
    0 ≤ (s.step (World.readCall k env)).2.fPos k ∧
      (s.fPos k).toNatClampNeg < ((s.step (World.readCall k env)).2.fPos k).toNatClampNeg ∧
      (s.fPos k).toNatClampNeg < textLimit := by
  cases hintr : env.interrupted with
  | true => exact absurd (by simp [World.readCall, hintr, System.step, aesdRead]; decide) hret
  | false =>
    have hread : (World.readCall k env).CompleteRead k := ⟨rfl, by decide, ⟨_, rfl, by decide⟩, hintr⟩
    obtain ⟨_, hlen, _, hp', hpos⟩ := read_step hd.1 hd.2 hp hread
    rw [Int64.le_iff_toInt_le, hlen] at hret
    have htext := text_length_le hd.2
    have hdrop := (readAt_isPrefix s.kernel.commands (s.fPos k).toNatClampNeg
      (World.readCall k env).count).length_le
    rw [List.length_drop] at hdrop
    have hsome : 0 < (readAt s.kernel.commands (s.fPos k).toNatClampNeg
        (World.readCall k env).count).length := List.length_pos_iff.mpr (by simpa using hret)
    refine ⟨hp', by omega, ?_⟩
    unfold textLimit
    omega

theorem echo_cases {sendBuffer : Region} (hi : w.Inv) (hp : w.phase k = .echoing sendBuffer) :
    w.Stepped (w.echo k env sendBuffer) k := by
  have hok := hi.sessions k
  simp only [View.Ok, World.view, hp] at hok
  obtain ⟨hkernel, hothers⟩ : (w.system.step (World.readCall k env)).2.kernel = w.system.kernel ∧
      ∀ j, j ≠ k → (w.system.step (World.readCall k env)).2.fPos j = w.system.fPos j :=
    ⟨rfl, fun j hj => by simp [World.readCall, System.step, hj]⟩
  have hview : ∀ j, j ≠ k →
      World.view { w with system := (w.system.step (World.readCall k env)).2 } j = w.view j := by
    intro j hj
    simp [World.view, hothers j hj]
  simp only [World.echo]
  split_ifs with hret
  · refine stepped_goto rfl ?_ hview (hkernel ▸ hi.device) hi.behind
    simp only [View.Moves, World.view, hp]
    exact .inl ⟨_, rfl⟩
  · refine stepped_goto rfl ?_ hview (hkernel ▸ hi.device) hi.behind
    simp only [View.Moves, World.view, hp]
    exact .inr ⟨_, _, fun _ => readCall_step hi.device hok.2.2.2 hret, rfl⟩

theorem send_cases {sendBuffer : Region} (hi : w.Inv) (hp : w.phase k = .sending sendBuffer) :
    (∃ ending, w.send k env sendBuffer = w.stop ending ∧ w.Cause k env ending) ∨
      w.Stepped (w.send k env sendBuffer) k := by
  cases hs : string sendBuffer with
  | none => exact .inl ⟨.fault, by simp [World.send, hs], .inr (.inr (.inr ⟨_, hp⟩))⟩
  | some str =>
    simp only [World.send, hs]
    split_ifs with hreset
    · exact .inl ⟨.sigpipe, rfl, _, _, hp, hs, hreset⟩
    · apply Or.inr
      refine stepped_goto rfl ?_ (fun _ _ => rfl) hi.device hi.behind
      simp [View.Moves, World.view, hp]

theorem close_cases (hi : w.Inv) (hp : w.phase k = .closing) : w.Stepped (w.close k) k := by
  refine stepped_goto rfl ?_ ?_ hi.device hi.behind
  · simp [View.Moves, World.view, hp, headOf]
  · intro j hj
    simp [World.view, hj]

/-- Every step ends the process for its cause, or moves its own session only. -/
theorem threadFunc_cases (hi : w.Inv) (he : w.Enabled (k, env)) :
    (∃ ending, w.threadFunc k env = w.stop ending ∧ w.Cause k env ending) ∨
      w.Stepped (w.threadFunc k env) k := by
  cases hp : w.phase k with
  | receiving => simpa only [World.threadFunc, hp] using receive_cases hi hp
  | opening =>
    have ho : env.opens = true := by simpa only [World.Enabled, hp] using he
    simpa only [World.threadFunc, hp] using .inr (openFile_cases hi hp ho)
  | command => simpa only [World.threadFunc, hp] using obey_cases hi hp he
  | seeking stage => simpa only [World.threadFunc, hp] using parse_cases hi hp
  | controlling a b => simpa only [World.threadFunc, hp] using control_cases hi hp
  | echoing sendBuffer => simpa only [World.threadFunc, hp] using .inr (echo_cases hi hp)
  | sending sendBuffer => simpa only [World.threadFunc, hp] using send_cases hi hp
  | closing => simpa only [World.threadFunc, hp] using .inr (close_cases hi hp)
  | returned =>
    simp only [World.threadFunc, hp]
    exact .inr ⟨rfl, by simp [View.Moves, World.view, hp], fun _ _ => rfl, hi.device, hi.behind⟩

theorem threadFunc_of_cause (hi : w.Inv) {ending : Ending} (hc : w.Cause k env ending)
    (hne : ending ≠ .fault) : w.threadFunc k env = w.stop ending := by
  cases ending with
  | exit =>
    obtain ⟨hp, hfailed⟩ := hc
    have hok := hi.sessions k
    simp only [View.Ok, World.view, hp] at hok
    obtain ⟨buffer, hb⟩ := headOf_ne_none hok.2.2
    simp [World.threadFunc, hp, World.receive, hb, hfailed, receiveOnce]
  | exitSafely =>
    simp only [World.Cause, World.Rejects] at hc
    split at hc
    · rename_i stage hp
      simp [World.threadFunc, hp, World.parse, hc]
    · rename_i a b hp
      have hresult := (aesdAdjustFileOffset_result w.system.kernel ⟨w.system.fPos k⟩ a b env.beyond
        env.interrupted).mpr hc
      simp [World.threadFunc, hp, World.control, aesdIoctl_seekto, hresult]
    · exact hc.elim
  | sigpipe =>
    obtain ⟨sendBuffer, str, hp, hs, hreset⟩ := hc
    simp [World.threadFunc, hp, World.send, hs, hreset]
  | fault => exact absurd rfl hne

/-- The process ends in a step exactly for a cause of that step. -/
theorem ended_iff (hi : w.Inv) (hw : w.ended = none) (he : w.Enabled (k, env)) {ending : Ending}
    (hne : ending ≠ .fault) :
    (w.threadFunc k env).ended = some ending ↔ w.Cause k env ending := by
  constructor
  · intro h
    rcases threadFunc_cases hi he with ⟨ending', hstop, hc⟩ | hs
    · rw [hstop] at h
      obtain rfl := Option.some.inj h
      exact hc
    · simp [hs.running, hw] at h
  · intro hc
    rw [threadFunc_of_cause hi hc hne]
    rfl

end Calls

theorem step_running (hw : w.ended = none) (l : ℕ × Env) :
    w.step l = ((w.threadFunc l.1 l.2).ended, w.threadFunc l.1 l.2) := by
  simp [World.step, hw]

theorem step_ended (hw : w.ended ≠ none) (l : ℕ × Env) : w.step l = (none, w) := by
  obtain ⟨ending, he⟩ := Option.ne_none_iff_exists'.mp hw
  simp [World.step, he]

theorem inv_init {s : System} (h : s.kernel.Owned ∧ s.kernel.Fits) : (World.init s).Inv where
  device := h
  behind := by simp [World.init, Behind]
  sessions k := by simp [World.init, World.view, View.Ok, headOf]

theorem inv_step {l : ℕ × Env} (hi : w.Inv) (he : w.Enabled l) : (w.step l).2.Inv := by
  by_cases hw : w.ended = none
  · rw [step_running hw]
    rcases threadFunc_cases hi he with ⟨ending, hstop, -⟩ | hs
    · rw [hstop]
      exact ⟨hi.device, hi.behind, hi.sessions⟩
    · exact hi.stepped hs
  · rwa [step_ended hw]

theorem inv_run {ls : List (ℕ × Env)} (hi : w.Inv) (hv : Valid World.step World.Enabled w ls) :
    (exec World.step w ls).Inv :=
  exec_invariant World.Inv (fun _ _ hi he => inv_step hi he) hi hv

theorem cause_run {ls : List (ℕ × Env)} (hi : w.Inv) (hw : w.ended = none)
    (hv : Valid World.step World.Enabled w ls) {ending : Ending}
    (h : (exec World.step w ls).ended = some ending) :
    ∃ before k env after, ls = before ++ (k, env) :: after ∧
      (exec World.step w before).Cause k env ending := by
  revert h
  refine run_induction (fun ls => (exec World.step w ls).ended = some ending →
    ∃ before k env after, ls = before ++ (k, env) :: after ∧
      (exec World.step w before).Cause k env ending) ?_ ?_ hv
  · intro h
    simp [hw] at h
  · rintro ls ⟨k, env⟩ hls he ih h
    rw [exec_concat] at h
    by_cases hrun : (exec World.step w ls).ended = none
    · rw [step_running hrun] at h
      rcases threadFunc_cases (inv_run hi hls) he with ⟨ending', hstop, hc⟩ | hs
      · rw [hstop] at h
        obtain rfl := Option.some.inj h
        exact ⟨ls, k, env, [], rfl, hc⟩
      · simp [hs.running, hrun] at h
    · rw [step_ended hrun] at h
      obtain ⟨before, k', env', after, rfl, hc⟩ := ih h
      exact ⟨before, k', env', after ++ [(k, env)], by simp, hc⟩

theorem rank_le {v : View} (h : v.phase ≠ .receiving) : v.rank ≤ 2 * textLimit + 10 := by
  unfold View.rank
  split
  · exact absurd ‹_› h
  · exact le_rfl
  · omega
  · rename_i stage _
    cases stage <;> simp only [callsLeft] <;> omega
  all_goals omega

theorem View.Moves.ne_receiving {v v' : View} (h : v.Ok) (hm : v.Moves v')
    (hr : v.phase ≠ .receiving) : v'.phase ≠ .receiving := by
  by_cases hd : v.phase = .returned
  · simp only [View.Moves, hd] at hm
    rwa [hm]
  · intro hr'
    have hlt := h.rank_lt hm hr hd
    have hle := rank_le hr
    have htop : v'.rank = 2 * textLimit + 11 := by simp only [View.rank, hr']
    omega

/-- What a step leaves of a session: the process ends and it stays as it is, the session
moves, or it was another one's step. -/
theorem view_step {l : ℕ × Env} (hi : w.Inv) (he : w.Enabled l) (j : ℕ) :
    ((w.step l).2.view j = w.view j ∧ ((w.step l).2.ended ≠ none ∨ j ≠ l.1)) ∨
      (j = l.1 ∧ (w.view j).Moves ((w.step l).2.view j)) := by
  by_cases hw : w.ended = none
  · rw [step_running hw]
    rcases threadFunc_cases hi he with ⟨ending, hstop, -⟩ | hs
    · rw [hstop]
      exact .inl ⟨rfl, .inl (by simp [World.stop])⟩
    · by_cases hj : j = l.1
      · subst hj
        exact .inr ⟨rfl, hs.own⟩
      · exact .inl ⟨hs.others j hj, .inr hj⟩
  · rw [step_ended hw]
    exact .inl ⟨rfl, .inl hw⟩

/-- Behind its receive loop a session takes a bounded number of steps, whatever the other
sessions do in between. -/
theorem returned_run {ls : List (ℕ × Env)} (hi : w.Inv) (hr : w.phase k ≠ .receiving)
    (hv : Valid World.step World.Enabled w ls) (hn : 2 * textLimit + 11 ≤ ls.countP (·.1 = k)) :
    (exec World.step w ls).ended ≠ none ∨ (exec World.step w ls).phase k = .returned := by
  have hstart : (w.view k).rank ≤ 2 * textLimit + 10 := rank_le hr
  have hrun := stopped_or_countP_le (fun w : World => w.Inv ∧ (w.view k).phase ≠ .receiving)
    (fun w : World => w.ended ≠ none ∨ (w.view k).phase = .returned)
    (fun w : World => (w.view k).rank) (fun l => decide (l.1 = k)) ?_ ?_ ?_ ⟨hi, hr⟩ hv
  · apply hrun.resolve_right
    omega
  · rintro w l ⟨hi, hr⟩ he
    refine ⟨inv_step hi he, ?_⟩
    rcases view_step hi he k with ⟨hsame, -⟩ | ⟨-, hm⟩
    · rwa [hsame]
    · exact View.Moves.ne_receiving (hi.sessions k) hm hr
  · rintro w l ⟨hi, -⟩ he (hw | hd)
    · rw [step_ended hw]
      exact .inl hw
    · rcases view_step hi he k with ⟨hsame, -⟩ | ⟨-, hm⟩
      · exact .inr (by rwa [hsame])
      · simp only [View.Moves, hd] at hm
        exact .inr (by rwa [hm])
  · rintro w l ⟨hi, hr⟩ he hgo
    rcases view_step hi he k with ⟨hsame, hw | hne⟩ | ⟨hk, hm⟩
    · exact .inl (.inl hw)
    · exact .inr (by simp [hsame, Ne.symm hne])
    · have hlt := (hi.sessions k).rank_lt hm hr fun hd => hgo (.inr hd)
      refine .inr ?_
      split_ifs <;> omega

def Memory.At (mem : Memory ℕ) (p : Pointer ℕ) (s : List UInt8) : Prop :=
  0 ∉ s ∧ ∃ before rest, p.2 = before.length ∧ mem.buffers p.1 = some (before ++ s ++ 0 :: rest)

section Parse

variable {mem : Memory ℕ} {p : Option (Pointer ℕ)} {q : Pointer ℕ} {s : List UInt8}

theorem memory_strtok_none (hq : p.or mem.saved = some q) (hs : mem.At q s)
    (hf : field comma s = []) : ∃ mem', mem.strtok p = some (none, mem') := by
  obtain ⟨i, offset⟩ := q
  obtain ⟨h0, before, rest, rfl, hm⟩ := hs
  obtain ⟨m, saved, hs⟩ := strtok_string_none before rest h0 (by decide) hf
  refine ⟨⟨Function.update mem.buffers i (some m), some (i, saved)⟩, ?_⟩
  simp only [Memory.strtok, hq, hm, hs, Option.map_some, Option.map_none]

theorem memory_strtok_some (hq : p.or mem.saved = some q) (hs : mem.At q s)
    (hf : field comma s ≠ []) :
    ∃ token mem' q' next, mem.strtok p = some (some token, mem') ∧
      mem'.strtoul token = some (number (field comma s)) ∧
      mem'.saved = some q' ∧ mem'.At q' next ∧
      field comma next = field comma (afterField comma s) := by
  obtain ⟨i, offset⟩ := q
  obtain ⟨h0, before, rest, rfl, hm⟩ := hs
  obtain ⟨token, m, saved, before₁, rest₁, before₂, rest₂, next, hs, ⟨hm₁, rfl⟩, ⟨hm₂, rfl⟩, hnext,
    hfield⟩ :=
    strtok_string_some before rest h0 (by decide) hf
  refine ⟨(i, before₁.length), ⟨Function.update mem.buffers i (some m), some (i, before₂.length)⟩,
    (i, before₂.length), next, ?_, ?_, rfl, ⟨hnext, before₂, rest₂, rfl, ?_⟩, hfield⟩
  · simp only [Memory.strtok, hq, hm, hs, Option.map_some]
  · simp only [Memory.strtoul, Function.update_self, Option.bind_some, hm₁]
    exact strtoul_string before₁ rest₁ _
  · simp [hm₂]

end Parse

theorem exec_of_ended (hw : w.ended ≠ none) (ls : List (ℕ × Env)) : exec World.step w ls = w := by
  induction ls with
  | nil => rfl
  | cons l ls ih => rw [exec_cons, step_ended hw, ih]

/-- The phase behind a library call. -/
def afterCall : Stage ℕ → Phase
  | .ready writeCmd writeCmdOffset => .controlling writeCmd writeCmdOffset
  | stage => .seeking stage

theorem seeking_next {stage stage' : Stage ℕ} {mem : Memory ℕ} (hw : w.ended = none)
    (hp : w.phase k = .seeking stage) (hs : parseStep w.mem k stage = .stage stage' mem) (env : Env) :
    (w.step (k, env)).2.ended = none ∧ (w.step (k, env)).2.mem = mem ∧
      (w.step (k, env)).2.phase k = afterCall stage' := by
  rw [step_running hw]
  cases stage' <;> simp [World.threadFunc, hp, World.parse, hs, World.goto, hw, afterCall]

theorem seeking_rejects {stage : Stage ℕ} (hw : w.ended = none) (hp : w.phase k = .seeking stage)
    (hs : parseStep w.mem k stage = .invalid) (env : Env) :
    (w.step (k, env)).2.ended = some .exitSafely := by
  rw [step_running hw]
  simp [World.threadFunc, hp, World.parse, hs, World.stop]

/-- A token and its number, for either value of a command: `strtok` is called with `p` at
`stage` and `strtoul` on the token at `tok`, which leads to `next`. -/
theorem value_steps {stage : Stage ℕ} {tok : Pointer ℕ → Stage ℕ} {next : UInt32 → Stage ℕ}
    {p : Option (Pointer ℕ)} {q : Pointer ℕ} {s : List UInt8}
    (hcall : ∀ mem, (∀ mem', mem.strtok p = some (none, mem') → parseStep mem k stage = .invalid) ∧
      ∀ token mem', mem.strtok p = some (some token, mem') →
        parseStep mem k stage = .stage (tok token) mem')
    (hnumber : ∀ mem token n, mem.strtoul token = some n →
      parseStep mem k (tok token) = .stage (next n.toUInt32) mem)
    (htok : ∀ token, afterCall (tok token) = .seeking (tok token))
    (hw : w.ended = none) (hp : w.phase k = .seeking stage) (hq : p.or w.mem.saved = some q)
    (hs : w.mem.At q s) (b c : Env) :
    let w' := exec World.step w [(k, b), (k, c)]
    if field comma s = [] then w'.ended = some .exitSafely
    else w'.ended = none ∧ w'.phase k = afterCall (next (number (field comma s)).toUInt32) ∧
      ∃ q' t, w'.mem.saved = some q' ∧ w'.mem.At q' t ∧
        field comma t = field comma (afterField comma s) := by
  intro w'
  by_cases hf : field comma s = []
  · obtain ⟨mem, hnone⟩ := memory_strtok_none hq hs hf
    have hended := seeking_rejects hw hp ((hcall _).1 _ hnone) b
    rw [if_pos hf, show w' = exec World.step (w.step (k, b)).2 [(k, c)] from rfl,
      exec_of_ended (by simp [hended]), hended]
  · obtain ⟨token, mem, q', t, hsome, hnum, hsaved, ht, hfield⟩ := memory_strtok_some hq hs hf
    obtain ⟨hw₁, hm₁, hp₁⟩ := seeking_next hw hp ((hcall _).2 _ _ hsome) b
    rw [htok] at hp₁
    have hread := hnumber _ _ _ (hm₁.symm ▸ hnum)
    obtain ⟨hw₂, hm₂, hp₂⟩ := seeking_next hw₁ hp₁ hread c
    rw [if_neg hf]
    refine ⟨hw₂, hp₂, q', t, ?_, ?_, hfield⟩
    · exact (congrArg Memory.saved (hm₂.trans hm₁)).trans hsaved
    · exact (hm₂.trans hm₁).symm ▸ ht

/-- A command whose library calls no other session interrupts: it needs two non-empty
fields, and their numbers go to the driver. -/
theorem parse_alone {s : List UInt8} (hw : w.ended = none) (hp : w.phase k = .command)
    (hb : (w.mem.buffers k).bind string = some (seekPrefix ++ s)) (a b c d e : Env) :
    let w' := exec World.step w [(k, a), (k, b), (k, c), (k, d), (k, e)]
    if field comma s = [] ∨ field comma (afterField comma s) = [] then w'.ended = some .exitSafely
    else w'.ended = none ∧ w'.phase k = .controlling (number (field comma s)).toUInt32
      (number (field comma (afterField comma s))).toUInt32 := by
  obtain ⟨m, hm, hstr⟩ := Option.bind_eq_some_iff.mp hb
  obtain ⟨h0, rest, rfl⟩ := string_eq_some.mp hstr
  have hat : w.mem.At (k, seekPrefix.length) s :=
    ⟨fun h => h0 (List.mem_append_right _ h), seekPrefix, rest, rfl, hm⟩
  -- the test for the prefix
  have htest : (w.step (k, a)).2 = w.goto k (.seeking .start) := by
    simp [step_running hw, World.threadFunc, hp, World.obey, hb]
  have hfirst := @value_steps (w.goto k (.seeking .start)) k .start .writeCmd .next
    (some (k, seekPrefix.length)) (k, seekPrefix.length) s
    (fun mem => ⟨fun _ h => by simp [parseStep, h], fun _ _ h => by simp [parseStep, h]⟩)
    (fun mem _ _ h => by simp [parseStep, h]) (fun _ => rfl) hw (Function.update_self _ _ _) rfl
    hat b c
  intro w'
  rw [show w' = exec World.step (exec World.step (w.step (k, a)).2 [(k, b), (k, c)])
    [(k, d), (k, e)] from rfl, htest]
  generalize exec World.step (w.goto k (.seeking .start)) [(k, b), (k, c)] = w₁ at hfirst ⊢
  by_cases hf : field comma s = []
  · rw [if_pos hf] at hfirst
    rw [if_pos (.inl hf), exec_of_ended (by simp [hfirst]), hfirst]
  rw [if_neg hf] at hfirst
  obtain ⟨hw₁, hp₁, q, t, hsaved, ht, hfield⟩ := hfirst
  have hsecond := @value_steps w₁ k (.next (number (field comma s)).toUInt32)
    (.writeCmdOffset (number (field comma s)).toUInt32) (.ready (number (field comma s)).toUInt32)
    none q t
    (fun mem => ⟨fun _ h => by simp [parseStep, h], fun _ _ h => by simp [parseStep, h]⟩)
    (fun mem _ _ h => by simp [parseStep, h]) (fun _ => rfl) hw₁ hp₁ hsaved ht d e
  rw [hfield] at hsecond
  by_cases hg : field comma (afterField comma s) = []
  · rw [if_pos hg] at hsecond
    rw [if_pos (.inr hg)]
    exact hsecond
  · rw [if_neg hg] at hsecond
    rw [if_neg (not_or.mpr ⟨hf, hg⟩)]
    exact ⟨hsecond.1, hsecond.2.1⟩

theorem rejects_prefix (hi : w.Inv) (h : w.Rejects k env) :
    headOf (w.mem.buffers k) = some seekPrefix := by
  have hok := hi.sessions k
  simp only [World.Rejects] at h
  simp only [View.Ok, World.view] at hok
  split at h
  · rename_i stage hp
    simp only [hp] at hok
    exact hok.2.2.1
  · rename_i a b hp
    simp only [hp] at hok
    exact hok.2.2.1
  · exact h.elim

theorem connected_iff (hi : w.Inv) (k : ℕ) :
    (w.connected k = true ↔ w.phase k ≠ .returned) ∧
      (w.phase k = .returned → w.opened k = false ∧ w.mem.buffers k = none) := by
  have hok := hi.sessions k
  simp only [View.Ok, World.view] at hok
  cases hp : w.phase k with
  | returned =>
    simp only [hp] at hok
    refine ⟨by simp [hok.1], fun _ => ⟨hok.2.1, ?_⟩⟩
    simpa [headOf] using hok.2.2
  | _ =>
    simp only [hp] at hok
    simp [hok.1]

/-- **Endings.** The process ends in a step exactly when that step has a cause: `exit`
for a failed `recv`, `exit_safely` for a seek command without two fields or one that the
driver refuses, the signal for a `send` to a reset connection. No other step disturbs
another session. A newline or the end of the stream ends a session's receive loop, and then
it returns after a bounded number of its steps with its own connection closed. -/
theorem server_ends_iff {calls : List Call} (hc : Valid System.step Call.KernelOk .init calls)
    {ls : List (ℕ × Env)}
    (hv : Valid World.step World.Enabled (.init (exec System.step .init calls)) ls) :
    let start := World.init (exec System.step .init calls)
    let w := exec World.step start ls
    (∀ ending, w.ended = some ending → ∃ before k env after, ls = before ++ (k, env) :: after ∧
      (exec World.step start before).Cause k env ending) ∧
    (w.ended = none → ∀ k env, w.Enabled (k, env) →
      (∀ ending, ending ≠ .fault → ((w.step (k, env)).1 = some ending ↔ w.Cause k env ending)) ∧
      ∀ j, j ≠ k → (w.step (k, env)).2.view j = w.view j) ∧
    (∀ k env, w.Rejects k env → headOf (w.mem.buffers k) = some seekPrefix) ∧
    (w.ended = none → ∀ k s, w.phase k = .command →
      (w.mem.buffers k).bind string = some (seekPrefix ++ s) → ∀ a b c d e : Env,
      let w' := exec World.step w [(k, a), (k, b), (k, c), (k, d), (k, e)]
      if field comma s = [] ∨ field comma (afterField comma s) = [] then w'.ended = some .exitSafely
      else w'.ended = none ∧ w'.phase k = .controlling (number (field comma s)).toUInt32
        (number (field comma (afterField comma s))).toUInt32) ∧
    (∀ k, (w.connected k = true ↔ w.phase k ≠ .returned) ∧
      (w.phase k = .returned → w.opened k = false ∧ w.mem.buffers k = none)) ∧
    (w.ended = none → ∀ k env, w.phase k = .receiving →
      (env.recv = .closed ∨ ∃ bytes, env.recv = .data bytes ∧ newline ∈ bytes) →
      (w.step (k, env)).2.ended ≠ none ∨ (w.step (k, env)).2.phase k = .opening) ∧
    ∀ k before after, ls = before ++ after → (exec World.step start before).phase k ≠ .receiving →
      2 * textLimit + 11 ≤ after.countP (·.1 = k) → w.ended ≠ none ∨ w.phase k = .returned := by
  intro start w
  have hstart : start.Inv := inv_init (fits_run ⟨owned_init, fits_init⟩ hc)
  have hi : w.Inv := inv_run hstart hv
  refine ⟨fun ending h => cause_run hstart rfl hv h, fun hw k env he => ⟨fun ending hne => ?_, ?_⟩,
    fun k env h => rejects_prefix hi h, fun hw k s hp hb => parse_alone hw hp hb,
    fun k => connected_iff hi k, fun hw k env hp hrecv => ?_, ?_⟩
  · rw [step_running hw]
    exact ended_iff hi hw he hne
  · intro j hj
    rcases view_step hi he j with ⟨hsame, -⟩ | ⟨hk, -⟩
    · exact hsame
    · exact absurd hk hj
  · rw [step_running hw]
    simpa only [World.threadFunc, hp] using receive_last hi hp hrecv
  · intro k before after hls hr hn
    obtain ⟨hbefore, hafter⟩ := (valid_append _ before after).mp (hls ▸ hv)
    have hret := returned_run (inv_run hstart hbefore) hr hafter hn
    rwa [← exec_append, ← hls] at hret

/-- An answer of `recv` in a system where all else goes well. -/
def answer (recv : Recv) : Env := ⟨recv, fun _ => 0, true, grantOf 1, 0, false, false⟩

def servedRun : List (ℕ × Env) :=
  List.replicate 7 (0, answer (.data [97, 10]))

theorem server_ends_iff_servedRun :
    (exec World.step (.init (exec System.step .init [])) servedRun).connected 0 = false := by
  have hserved := @server_ends_iff [] trivial servedRun (by decide +kernel)
  obtain ⟨hopen, -⟩ := hserved.2.2.2.2.1 0
  rw [Bool.eq_false_iff, Ne, hopen, not_not]
  decide +kernel

/-- A reset connection ends the process by `exit`, and a well-formed seek command to an empty
device by `exit_safely`. -/
theorem client_ends_server :
    (¬ ∀ ls, Valid World.step World.Enabled (.init .init) ls →
      (exec World.step (.init .init) ls).ended ≠ some .exit) ∧
    ¬ ∀ ls, Valid World.step World.Enabled (.init .init) ls →
      (exec World.step (.init .init) ls).ended ≠ some .exitSafely := by
  constructor
  · intro h
    exact h [(0, answer .failed)] (by decide +kernel) (by decide +kernel)
  · intro h
    exact h (List.replicate 8 (0, answer (.data (seekPrefix ++ [48, 44, 48, 10]))))
      (by decide +kernel) (by decide +kernel)

end Aesd.Server
