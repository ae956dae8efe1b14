import Aesd.Locking
import Aesd.Server.SeekReads

/-!
# The server over the statements of the driver

The session threads with the driver's calls statement by statement: a thread in a call works
under `device->lock` while the others go on, and a call that is under way goes on when the
process is over.
-/

namespace Aesd.Server
open CString StepRuns LockedCode

def World.withSystem (w : World) (s : System) : World := { w with system := s }

section WithSystem

variable (w : World) (s t : System)

@[simp] theorem withSystem_system : (w.withSystem s).system = s := rfl

@[simp] theorem withSystem_phase : (w.withSystem s).phase = w.phase := rfl

@[simp] theorem withSystem_ended : (w.withSystem s).ended = w.ended := rfl

@[simp] theorem withSystem_withSystem : (w.withSystem s).withSystem t = w.withSystem t := rfl

end WithSystem

/-- What the next call of a session asks of the locked code of the driver. -/
def World.lockedOp (w : World) (l : ℕ × Env) : Option LockedOp :=
  match w.phase l.1, (w.mem.buffers l.1).bind string with
  | .command, some str =>
    if seekPrefix <+: str then none else some (.transfer (World.writeCall l.1 l.2 str))
  | .controlling writeCmd writeCmdOffset, _ =>
    some (.ioctl l.1 aesdcharIocseekto ⟨true, some (writeCmd, writeCmdOffset)⟩ l.2.beyond
      l.2.interrupted)
  | .echoing _, _ => some (.transfer (World.readCall l.1 l.2))
  | _, _ => none

/-- What a session does with the driver's answer. -/
def World.resume (w : World) (k : ℕ) (reply : Reply) : World :=
  match w.ended, w.phase k with
  | none, .command =>
    if reply.retval < 0 then w.stop .exit else w.goto k (.echoing clearBuffer)
  | none, .controlling .. =>
    if reply.retval ≠ 0 then w.stop .exitSafely else w.goto k (.echoing clearBuffer)
  | none, .echoing sendBuffer =>
    if reply.retval ≤ 0 then w.goto k .closing
    else w.goto k (.sending (reply.bytes ++ sendBuffer.drop reply.bytes.length))
  | _, _ => w

/-- The process and the threads in the driver. The `system` of its world is what the statements
have made of the device so far. -/
structure Process where
  world : World
  lock : Option ℕ
  place : ℕ → LockedCode.Place LockedOp Statement Reply
  /-- What is answered to the call under way. -/
  env : ℕ → Env

def Process.init (system : System) (env : Env) : Process :=
  ⟨World.init system, none, fun _ => .idle, fun _ => env⟩

inductive Act where
  /-- The next call of a session; one into the driver only begins. -/
  | next (k : ℕ) (env : Env)
  | enter (k : ℕ)
  | work (k : ℕ)
  | unlock (k : ℕ)

namespace Process

variable (fixedSizeLlseek : File → Int64 → Int32 → Int64 → Int64 × File) (p : Process)

def driver : Machine ℕ System LockedOp Statement Reply := ⟨p.world.system, p.lock, p.place⟩

def withDriver (m : Machine ℕ System LockedOp Statement Reply) : Process :=
  { p with world := p.world.withSystem m.shared, lock := m.lock, place := m.place }

/-- What a step completes: calls of the sessions, and what comes back from the driver to a
process that is over, or ends it. -/
structure Done where
  calls : List (ℕ × Env)
  late : List LockedOp

def driven (e : Event ℕ LockedOp) : Process :=
  p.withDriver (p.driver.step (driverCode fixedSizeLlseek) e).2

def drive (e : Event ℕ LockedOp) : Done × Process :=
  match (p.driver.step (driverCode fixedSizeLlseek) e).1 with
  | none => (⟨[], []⟩, p.driven fixedSizeLlseek e)
  | some (op, reply) =>
    let p := p.driven fixedSizeLlseek e
    let world := p.world.resume e.thread reply
    (⟨if p.world.ended = none then [(e.thread, p.env e.thread)] else [],
      if world.ended = none then [] else [op]⟩, { p with world })

def step : Act → Done × Process
  | .next k env =>
    match p.world.lockedOp (k, env) with
    | none => (⟨[(k, env)], []⟩, { p with world := (p.world.step (k, env)).2 })
    | some op =>
      (⟨[], []⟩,
        { p.driven fixedSizeLlseek (.call k op) with env := Function.update p.env k env })
  | .enter k => p.drive fixedSizeLlseek (.enter k)
  | .work k => p.drive fixedSizeLlseek (.work k)
  | .unlock k => p.drive fixedSizeLlseek (.unlock k)

/-- A session makes its next call when it is in none and the process runs; what is in the driver
goes on in any case. -/
def Enabled : Act → Prop
  | .next k _ => p.world.ended = none ∧ (p.place k).call.isNone = true
  | .enter k => p.driver.Enabled (driverCode fixedSizeLlseek) (.enter k)
  | .work k => p.driver.Enabled (driverCode fixedSizeLlseek) (.work k)
  | .unlock k => p.driver.Enabled (driverCode fixedSizeLlseek) (.unlock k)

instance : (a : Act) → Decidable (p.Enabled fixedSizeLlseek a)
  | .next _ _ => inferInstanceAs (Decidable (_ ∧ _))
  | .enter k =>
    inferInstanceAs (Decidable (p.driver.Enabled (driverCode fixedSizeLlseek) (.enter k)))
  | .work k =>
    inferInstanceAs (Decidable (p.driver.Enabled (driverCode fixedSizeLlseek) (.work k)))
  | .unlock k =>
    inferInstanceAs (Decidable (p.driver.Enabled (driverCode fixedSizeLlseek) (.unlock k)))

end Process

def callsIn (fixedSizeLlseek : File → Int64 → Int32 → Int64 → Int64 × File) (p : Process)
    (acts : List Act) : List (ℕ × Env) :=
  (replies (Process.step fixedSizeLlseek) p acts).flatMap Process.Done.calls

def lateIn (fixedSizeLlseek : File → Int64 → Int32 → Int64 → Int64 × File) (p : Process)
    (acts : List Act) : List LockedOp :=
  (replies (Process.step fixedSizeLlseek) p acts).flatMap Process.Done.late

section Call

variable {w w' : World} {j k : ℕ} {env env' : Env} {op : LockedOp}
  {fixedSizeLlseek : File → Int64 → Int32 → Int64 → Int64 × File}

/-- Opening a file sets its position, and no other call outside the lock touches the device. -/
def World.opensAt (w : World) (l : ℕ × Env) (s : System) : System :=
  if w.phase l.1 = .opening ∧ l.2.opens = true then s.setPos l.1 0 else s

/-- A call outside the lock does the same whatever the statements of others have done. -/
theorem own_step (hw : w.ended = none) (hop : w.lockedOp (k, env) = none) (s : System) :
    ((w.withSystem s).step (k, env)).2 =
      (w.step (k, env)).2.withSystem (w.opensAt (k, env) s) := by
  have hw' : (w.withSystem s).ended = none := hw
  rw [step_running hw, step_running hw']
  cases hp : w.phase k with
  | receiving =>
    simp only [World.threadFunc, withSystem_phase, hp]
    cases hb : w.mem.buffers k with
    | none => simp [World.receive, World.opensAt, World.withSystem, World.stop, hp, hb]
    | some buffer =>
      cases hr : receiveOnce buffer env.junk env.recv <;>
        simp [World.receive, World.opensAt, World.withSystem, World.stop, World.goto, hp, hb, hr]
  | opening =>
    simp only [World.threadFunc, withSystem_phase, hp]
    by_cases ho : env.opens = true
    · simp [World.openFile, World.opensAt, World.withSystem, World.goto, System.setPos, hp, ho]
    · simp [World.openFile, World.opensAt, World.withSystem, World.stop, hp, ho]
  | command =>
    simp only [World.threadFunc, withSystem_phase, hp]
    cases hb : (w.mem.buffers k).bind string with
    | none => simp [World.obey, World.opensAt, World.withSystem, World.stop, hp, hb]
    | some str =>
      have hpre : seekPrefix <+: str := by
        by_contra hno
        simp [World.lockedOp, hp, hb, hno] at hop
      simp [World.obey, World.opensAt, World.withSystem, World.goto, hp, hb, hpre]
  | seeking stage =>
    simp only [World.threadFunc, withSystem_phase, hp]
    cases hs : parseStep w.mem k stage with
    | stage stage mem =>
      cases stage <;> simp [World.parse, World.opensAt, World.withSystem, World.goto, hp, hs]
    | invalid => simp [World.parse, World.opensAt, World.withSystem, World.stop, hp, hs]
    | fault => simp [World.parse, World.opensAt, World.withSystem, World.stop, hp, hs]
  | controlling a b => simp [World.lockedOp, hp] at hop
  | echoing sendBuffer => simp [World.lockedOp, hp] at hop
  | sending sendBuffer =>
    simp only [World.threadFunc, withSystem_phase, hp]
    cases hs : string sendBuffer with
    | none => simp [World.send, World.opensAt, World.withSystem, World.stop, hp, hs]
    | some str =>
      by_cases hreset : env.reset = true
      · simp [World.send, World.opensAt, World.withSystem, World.stop, hp, hs, hreset]
      · simp [World.send, World.opensAt, World.withSystem, World.goto, hp, hs, hreset]
  | closing =>
    simp [World.threadFunc, World.close, World.opensAt, World.withSystem, World.goto, hp]
  | returned => simp [World.threadFunc, World.opensAt, World.withSystem, hp]

/-- A call is a write of the command, the `ioctl` of the seek or a read of the reply. -/
theorem lockedOp_eq_some (hop : w.lockedOp (k, env) = some op) :
    (∃ str, w.phase k = .command ∧ (w.mem.buffers k).bind string = some str ∧
      ¬ seekPrefix <+: str ∧ op = .transfer (World.writeCall k env str)) ∨
    (∃ writeCmd writeCmdOffset, w.phase k = .controlling writeCmd writeCmdOffset ∧
      op = .ioctl k aesdcharIocseekto ⟨true, some (writeCmd, writeCmdOffset)⟩ env.beyond
        env.interrupted) ∨
    ∃ sendBuffer, w.phase k = .echoing sendBuffer ∧ op = .transfer (World.readCall k env) := by
  cases hp : w.phase k with
  | command =>
    cases hb : (w.mem.buffers k).bind string with
    | none => simp [World.lockedOp, hp, hb] at hop
    | some str =>
      simp only [World.lockedOp, hp, hb] at hop
      split_ifs at hop with hpre
      exact .inl ⟨str, rfl, rfl, hpre, (Option.some.inj hop).symm⟩
  | controlling a b =>
    simp only [World.lockedOp, hp] at hop
    exact .inr (.inl ⟨a, b, rfl, (Option.some.inj hop).symm⟩)
  | echoing sendBuffer =>
    simp only [World.lockedOp, hp] at hop
    exact .inr (.inr ⟨sendBuffer, rfl, (Option.some.inj hop).symm⟩)
  | _ => simp [World.lockedOp, hp] at hop

variable (fixedSizeLlseek) in
/-- A call under the lock: the driver answers, and the session goes on with that. A process that
is over is left with the device as it was before the call. -/
theorem called_step (hw : w.ended = none) (hop : w.lockedOp (k, env) = some op) :
    let out := op.atomic fixedSizeLlseek w.system
    let w' := (w.withSystem out.2).resume k out.1
    (w.step (k, env)).2 = if w'.ended = none then w' else w'.withSystem w.system := by
  intro out w'
  rw [step_running hw]
  have hstops (ending : Ending) (hthread : w.threadFunc k env = w.stop ending)
      (hresume : w' = (w.withSystem out.2).stop ending) :
      w.threadFunc k env = if w'.ended = none then w' else w'.withSystem w.system := by
    rw [hthread, hresume, if_neg (by simp [World.stop])]
    rfl
  have hgoes (phase : Phase)
      (hthread : w.threadFunc k env = (w.withSystem out.2).goto k phase)
      (hresume : w' = (w.withSystem out.2).goto k phase) :
      w.threadFunc k env = if w'.ended = none then w' else w'.withSystem w.system := by
    rw [hthread, hresume, if_pos (by simpa [World.goto] using hw)]
  rcases lockedOp_eq_some hop with ⟨str, hp, hb, hpre, rfl⟩ | ⟨a, b, hp, rfl⟩ | ⟨sendBuffer, hp, rfl⟩
  · by_cases hret : out.1.retval < 0
    · apply hstops .exit
      · simp only [World.threadFunc, hp, World.obey, hb, if_neg hpre]
        exact if_pos hret
      · simp [w', World.resume, hw, hp, hret]
    · apply hgoes (.echoing clearBuffer)
      · simp only [World.threadFunc, hp, World.obey, hb, if_neg hpre]
        exact if_neg hret
      · simp [w', World.resume, hw, hp, hret]
  · by_cases hret : out.1.retval ≠ 0
    · apply hstops .exitSafely
      · simp only [World.threadFunc, hp, World.control]
        exact if_pos hret
      · simp [w', World.resume, hw, hp, hret]
    · apply hgoes (.echoing clearBuffer)
      · simp only [World.threadFunc, hp, World.control]
        exact if_neg hret
      · simp [w', World.resume, hw, hp, not_not.mp hret]
  · by_cases hret : out.1.retval ≤ 0
    · apply hgoes .closing
      · simp only [World.threadFunc, hp, World.echo]
        exact if_pos hret
      · simp [w', World.resume, hw, hp, hret]
    · apply hgoes (.sending (out.1.bytes ++ sendBuffer.drop out.1.bytes.length))
      · simp only [World.threadFunc, hp, World.echo]
        exact if_neg hret
      · simp [w', World.resume, hw, hp, hret]

/-- The driver's answer stops the process, moves its session or is not waited for, whatever the
device is by now. -/
theorem resume_cases (w : World) (k : ℕ) (reply : Reply) :
    (∃ ending, ∀ s, (w.withSystem s).resume k reply = (w.withSystem s).stop ending) ∨
    (∃ phase, ∀ s, (w.withSystem s).resume k reply = (w.withSystem s).goto k phase) ∨
    ∀ s, (w.withSystem s).resume k reply = w.withSystem s := by
  cases hw : w.ended with
  | some ending => exact .inr (.inr fun s => by simp [World.resume, hw])
  | none =>
    cases hp : w.phase k with
    | command =>
      by_cases hret : reply.retval < 0
      · exact .inl ⟨.exit, fun s => by simp [World.resume, hw, hp, hret]⟩
      · exact .inr (.inl ⟨.echoing clearBuffer, fun s => by simp [World.resume, hw, hp, hret]⟩)
    | controlling a b =>
      by_cases hret : reply.retval = 0
      · exact .inr (.inl ⟨.echoing clearBuffer, fun s => by simp [World.resume, hw, hp, hret]⟩)
      · exact .inl ⟨.exitSafely, fun s => by simp [World.resume, hw, hp, hret]⟩
    | echoing sendBuffer =>
      by_cases hret : reply.retval ≤ 0
      · exact .inr (.inl ⟨.closing, fun s => by simp [World.resume, hw, hp, hret]⟩)
      · exact .inr (.inl ⟨.sending (reply.bytes ++ sendBuffer.drop reply.bytes.length),
          fun s => by simp [World.resume, hw, hp, hret]⟩)
    | _ => exact .inr (.inr fun s => by simp [World.resume, hw, hp])

theorem resume_system (w : World) (k : ℕ) (reply : Reply) (s : System) :
    (w.withSystem s).resume k reply = (w.resume k reply).withSystem s := by
  rcases resume_cases w k reply with ⟨_, h⟩ | ⟨_, h⟩ | h
  · rw [h s, show w.resume k reply = _ from h w.system]
    rfl
  · rw [h s, show w.resume k reply = _ from h w.system]
    rfl
  · rw [h s, show w.resume k reply = _ from h w.system]
    rfl

theorem resume_ended (hw : w.ended ≠ none) (reply : Reply) : w.resume k reply = w := by
  obtain ⟨ending, he⟩ := Option.ne_none_iff_exists'.mp hw
  simp [World.resume, he]

theorem resume_stops (hw : w.ended = none) {reply : Reply} (h : (w.resume k reply).ended ≠ none) :
    ∃ ending, w.resume k reply = w.stop ending := by
  rcases resume_cases w k reply with ⟨ending, heq⟩ | ⟨phase, heq⟩ | heq
  · exact ⟨ending, heq w.system⟩
  · rw [show w.resume k reply = _ from heq w.system] at h
    exact absurd hw h
  · rw [show w.resume k reply = _ from heq w.system] at h
    exact absurd hw h

theorem lockedOp_congr (hphase : w'.phase k = w.phase k)
    (hbuffer : w'.mem.buffers k = w.mem.buffers k) :
    w'.lockedOp (k, env) = w.lockedOp (k, env) := by
  unfold World.lockedOp
  rw [hphase, hbuffer]

theorem lockedOp_file (hop : w.lockedOp (k, env) = some op) (hj : j ≠ k) :
    op.toFileOp.file ≠ some j := by
  rcases lockedOp_eq_some hop with ⟨_, -, -, -, rfl⟩ | ⟨_, _, -, rfl⟩ | ⟨_, -, rfl⟩
  · simp [LockedOp.toFileOp, World.writeCall, FileOp.file]
  · simpa [LockedOp.toFileOp, FileOp.file] using Ne.symm hj
  · simpa [LockedOp.toFileOp, World.readCall, FileOp.file] using Ne.symm hj

/-- A call under way stays what it is: no other session changes the bytes of a write. -/
theorem lockedOp_step (h : w.SavedByCaller) (hk : k ≠ j) (hop : w.lockedOp (k, env) = some op) :
    (w.step (j, env')).2.lockedOp (k, env) = some op := by
  have hphase : (w.step (j, env')).2.phase k = w.phase k := phase_step_ne hk
  cases hp : w.phase k with
  | command =>
    -- a session that has called `strtok` is not at its write
    have hbuffer : (w.step (j, env')).2.mem.buffers k = w.mem.buffers k := by
      rcases mem_step w j env' with
        ⟨-, hkeep⟩ | ⟨-, -, i, _, -, hkeep, ⟨-, rfl⟩ | ⟨-, offset, hsaved⟩⟩
      · exact hkeep k hk
      · exact hkeep k hk
      · apply hkeep k
        rintro rfl
        have hcalled := h k offset hsaved
        rw [hp] at hcalled
        exact hcalled
    rwa [lockedOp_congr hphase hbuffer]
  | controlling a b => simpa only [World.lockedOp, hphase, hp] using hop
  | echoing sendBuffer => simpa only [World.lockedOp, hphase, hp] using hop
  | _ => simp [World.lockedOp, hp] at hop

end Call

/-- The process against the world of a run of whole calls: they differ in the device only,
which is on the way from that of the run and the `late` calls. -/
structure Process.OnCalls (fixedSizeLlseek : File → Int64 → Int32 → Int64 → Int64 × File)
    (p : Process) (w : World) (late : List LockedOp) : Prop where
  world_eq : p.world = w.withSystem p.world.system
  serial : Serial (driverCode fixedSizeLlseek) (LockedOp.atomic fixedSizeLlseek) p.driver
    (exec (LockedOp.atomic fixedSizeLlseek) w.system late)
  late_nil : w.ended = none → late = []
  saved : w.SavedByCaller
  calls : ∀ k op, (p.place k).call = some op → w.lockedOp (k, p.env k) = some op
  file : ∀ j k op l, p.place k = .inside op l → op.toFileOp.file ≠ some j → l.file ≠ some j
  of_session : ∀ op ∈ late, ∃ k env, w.lockedOp (k, env) = some op

section OnCalls

variable {fixedSizeLlseek : File → Int64 → Int32 → Int64 → Int64 × File} {p : Process} {w : World}
  {late : List LockedOp} {k : ℕ} {env : Env}

variable (fixedSizeLlseek) in
theorem onCalls_init (system : System) (env : Env) :
    (Process.init system env).OnCalls fixedSizeLlseek (World.init system) [] where
  world_eq := rfl
  serial := serial_init system
  late_nil _ := rfl
  saved := by
    intro j offset h
    cases h
  calls k op h := by cases h
  file j k op l h := by cases h
  of_session := by simp

/-- The position of a new file changes between two statements of the others. -/
theorem Process.OnCalls.opensAt (h : p.OnCalls fixedSizeLlseek w late) (hlate : late = [])
    (hidle : (p.place k).call = none) :
    Serial (driverCode fixedSizeLlseek) (LockedOp.atomic fixedSizeLlseek)
      { p.driver with shared := w.opensAt (k, env) p.driver.shared }
      (w.opensAt (k, env) w.system) := by
  have hserial := h.serial
  rw [hlate] at hserial
  unfold World.opensAt
  split_ifs
  · refine hserial.frame driver_implements (driver_frame fixedSizeLlseek k 0) ?_ ?_
    · intro t op hcall
      refine lockedOp_file (h.calls t op hcall) ?_
      rintro rfl
      rw [show p.driver.place k = p.place k from rfl, hidle] at hcall
      cases hcall
    · intro t op l hp
      have hcall : (p.place t).call = some op := by
        rw [show p.place t = _ from hp]
        rfl
      refine h.file k t op l hp (lockedOp_file (h.calls t op hcall) ?_)
      rintro rfl
      rw [hidle] at hcall
      cases hcall
  · exact hserial

theorem Process.OnCalls.driven_world (h : p.OnCalls fixedSizeLlseek w late)
    (e : Event ℕ LockedOp) : (p.driven fixedSizeLlseek e).world =
      w.withSystem (p.driven fixedSizeLlseek e).world.system := by
  change p.world.withSystem _ = w.withSystem _
  rw [h.world_eq]
  rfl

theorem Process.OnCalls.own (h : p.OnCalls fixedSizeLlseek w late) (hw : w.ended = none)
    (hidle : (p.place k).call = none) (hop : w.lockedOp (k, env) = none) :
    Process.OnCalls fixedSizeLlseek { p with world := (p.world.step (k, env)).2 }
      (w.step (k, env)).2 late := by
  have hlate := h.late_nil hw
  have hworld : (p.world.step (k, env)).2 =
      (w.step (k, env)).2.withSystem (w.opensAt (k, env) p.world.system) := by
    rw [h.world_eq]
    exact own_step hw hop p.world.system
  have hsystem : (w.step (k, env)).2.system = w.opensAt (k, env) w.system :=
    congrArg World.system (own_step hw hop w.system)
  refine ⟨?_, ?_, fun _ => hlate, savedByCaller_step h.saved, ?_, h.file, by simp [hlate]⟩
  · rw [hworld]
    rfl
  · rw [hlate, exec_nil, hsystem]
    simp only [Process.driver, hworld]
    exact h.opensAt hlate hidle
  · intro j op hcall
    refine lockedOp_step h.saved ?_ (h.calls j op hcall)
    rintro rfl
    rw [show (p.place j).call = none from hidle] at hcall
    cases hcall

theorem Process.OnCalls.calls_in (h : p.OnCalls fixedSizeLlseek w late)
    (hidle : (p.place k).call = none) {op : LockedOp} (hop : w.lockedOp (k, env) = some op) :
    Process.OnCalls fixedSizeLlseek
      { p.driven fixedSizeLlseek (.call k op) with env := Function.update p.env k env } w late := by
  have hplace : p.place k = .idle := by
    cases hp : p.place k with
    | idle => rfl
    | _ => simp [hp, LockedCode.Place.call] at hidle
  have hserial := (serial_step driver_implements h.serial (e := .call k op)
    (by simp [Machine.Enabled, Process.driver, hplace])).1
  refine ⟨h.driven_world _, hserial, h.late_nil, h.saved, ?_, ?_, h.of_session⟩
  · intro j op' hcall
    by_cases hj : j = k
    · subst hj
      obtain rfl : op = op' := by
        simpa [Process.driven, Process.withDriver, Machine.step, Machine.goto,
          LockedCode.Place.call] using hcall
      simpa using hop
    · have hsame : (p.place j).call = some op' := by
        simpa [Process.driven, Process.withDriver, Machine.step, Machine.goto, Process.driver,
          hj] using hcall
      simpa [hj] using h.calls j op' hsame
  · intro j t op' l hp hfile
    exact (driver_frame fixedSizeLlseek j 0).locals_step (h.file j) (.call k op) t op' l hp hfile

theorem Process.OnCalls.works (h : p.OnCalls fixedSizeLlseek w late) {e : Event ℕ LockedOp}
    (he : p.driver.Enabled (driverCode fixedSizeLlseek) e) (hne : ∀ c, e ≠ .call e.thread c)
    (hr : (p.driver.step (driverCode fixedSizeLlseek) e).1 = none) :
    (p.driven fixedSizeLlseek e).OnCalls fixedSizeLlseek w late := by
  have hserial := (serial_step driver_implements h.serial he).1
  obtain ⟨hothers, -, hstays⟩ := place_step (driverCode fixedSizeLlseek) p.driver e
  rw [hr] at hserial
  refine ⟨h.driven_world _, hserial, h.late_nil, h.saved, ?_, fun j =>
    (driver_frame fixedSizeLlseek j 0).locals_step (m := p.driver) (h.file j) e, h.of_session⟩
  intro k op hcall
  change ((p.driver.step (driverCode fixedSizeLlseek) e).2.place k).call = some op at hcall
  by_cases hk : k = e.thread
  · subst hk
    rw [hstays hr hne] at hcall
    exact h.calls _ op hcall
  · rw [hothers k hk] at hcall
    exact h.calls k op hcall

section Returns

variable {e : Event ℕ LockedOp} {op : LockedOp} {reply : Reply}

/-- The calls still under way when one comes back. -/
theorem Process.OnCalls.others (h : p.OnCalls fixedSizeLlseek w late)
    (hr : (p.driver.step (driverCode fixedSizeLlseek) e).1 = some (op, reply)) {op' : LockedOp}
    (hk : ((p.driven fixedSizeLlseek e).place k).call = some op') :
    k ≠ e.thread ∧ w.lockedOp (k, p.env k) = some op' := by
  obtain ⟨hothers, hreturned, -⟩ := place_step (driverCode fixedSizeLlseek) p.driver e
  have hne : k ≠ e.thread := by
    rintro rfl
    have hidle : ((p.driven fixedSizeLlseek e).place e.thread).call = none :=
      (hreturned op reply hr).2
    rw [hidle] at hk
    cases hk
  refine ⟨hne, h.calls k op' ?_⟩
  rw [← hk]
  exact congrArg LockedCode.Place.call (hothers k hne).symm

theorem Process.OnCalls.resume (h : p.OnCalls fixedSizeLlseek w late) (k : ℕ) (reply : Reply) :
    (p.driven fixedSizeLlseek e).world.resume k reply =
      (w.resume k reply).withSystem (p.driven fixedSizeLlseek e).world.system := by
  rw [← resume_system]
  exact congrArg (World.resume · k reply) (h.driven_world _)

/-- A call comes back to a process that runs. The device of one that runs on takes in the call,
else it is the first late one. -/
theorem Process.OnCalls.returns (h : p.OnCalls fixedSizeLlseek w late) (hw : w.ended = none)
    (he : p.driver.Enabled (driverCode fixedSizeLlseek) e)
    (hr : (p.driver.step (driverCode fixedSizeLlseek) e).1 = some (op, reply)) :
    let p' := p.driven fixedSizeLlseek e
    let world := p'.world.resume e.thread reply
    Process.OnCalls fixedSizeLlseek { p' with world } (w.step (e.thread, p.env e.thread)).2
      (if world.ended = none then [] else [op]) := by
  intro p' world
  obtain rfl := h.late_nil hw
  obtain ⟨hserial, hanswer⟩ := serial_step driver_implements h.serial he
  have hreply := hanswer op reply hr
  have hop : w.lockedOp (e.thread, p.env e.thread) = some op :=
    h.calls _ op ((place_step (driverCode fixedSizeLlseek) p.driver e).2.1 op reply hr).1
  have hstep := called_step fixedSizeLlseek hw hop
  have hworld : world = (w.resume e.thread reply).withSystem p'.world.system := h.resume _ _
  rw [hr] at hserial
  rw [exec_nil] at hreply
  simp only [← hreply, resume_system, withSystem_ended, withSystem_withSystem] at hstep
  have hsystem : world.system = p'.world.system := by rw [hworld, withSystem_system]
  have hown : world = (w.resume e.thread reply).withSystem world.system := by rwa [hsystem]
  have hdriver : Process.driver { p' with world } =
      (p.driver.step (driverCode fixedSizeLlseek) e).2 := by
    simp only [Process.driver, hsystem]
    rfl
  have hcalls : ∀ k op', (p'.place k).call = some op' →
      (w.step (e.thread, p.env e.thread)).2.lockedOp (k, p.env k) = some op' := by
    intro k op' hk
    obtain ⟨hne, hsame⟩ := h.others hr hk
    exact lockedOp_step h.saved hne hsame
  have hfile (j : ℕ) := (driver_frame fixedSizeLlseek j 0).locals_step (m := p.driver) (h.file j) e
  have hsaved : (w.step (e.thread, p.env e.thread)).2.SavedByCaller := savedByCaller_step h.saved
  have hends : world.ended = (w.resume e.thread reply).ended := by rw [hworld, withSystem_ended]
  rw [hends]
  by_cases hruns : (w.resume e.thread reply).ended = none
  · rw [if_pos hruns] at hstep ⊢
    rw [hstep] at hcalls hsaved ⊢
    refine ⟨hown, ?_, fun _ => rfl, hsaved, hcalls, hfile, by simp⟩
    rw [hdriver]
    exact hserial
  · rw [if_neg hruns] at hstep ⊢
    rw [hstep] at hcalls hsaved ⊢
    refine ⟨hown, ?_, fun hnone => absurd hnone hruns, hsaved, hcalls, hfile, ?_⟩
    · rw [hdriver]
      exact hserial
    · -- the session stays at the call that has ended the process
      obtain ⟨ending, hstop⟩ := resume_stops hw hruns
      intro op' hop'
      obtain rfl := List.mem_singleton.mp hop'
      rw [hstop]
      exact ⟨_, _, hop⟩

theorem Process.OnCalls.returns_late (h : p.OnCalls fixedSizeLlseek w late) (hw : w.ended ≠ none)
    (he : p.driver.Enabled (driverCode fixedSizeLlseek) e)
    (hr : (p.driver.step (driverCode fixedSizeLlseek) e).1 = some (op, reply)) :
    (p.driven fixedSizeLlseek e).OnCalls fixedSizeLlseek w (late ++ [op]) := by
  have hserial := (serial_step driver_implements h.serial he).1
  rw [hr] at hserial
  refine ⟨h.driven_world _, ?_, fun hnone => absurd hnone hw, h.saved,
    fun k op' hk => (h.others hr hk).2,
    fun j => (driver_frame fixedSizeLlseek j 0).locals_step (m := p.driver) (h.file j) e, ?_⟩
  · rw [exec_concat]
    exact hserial
  · intro op' hop'
    rcases List.mem_append.mp hop' with hop' | hop'
    · exact h.of_session op' hop'
    · obtain rfl := List.mem_singleton.mp hop'
      exact ⟨_, _, h.calls _ op' ((place_step (driverCode fixedSizeLlseek) p.driver e).2.1 op' reply
        hr).1⟩

end Returns

theorem Process.OnCalls.drive (h : p.OnCalls fixedSizeLlseek w late) {e : Event ℕ LockedOp}
    (he : p.driver.Enabled (driverCode fixedSizeLlseek) e) (hne : ∀ c, e ≠ .call e.thread c) :
    (p.drive fixedSizeLlseek e).2.OnCalls fixedSizeLlseek
      (exec World.step w (p.drive fixedSizeLlseek e).1.calls)
      (late ++ (p.drive fixedSizeLlseek e).1.late) := by
  cases hr : (p.driver.step (driverCode fixedSizeLlseek) e).1 with
  | none =>
    have hworks := h.works he hne hr
    simpa only [Process.drive, hr, exec_nil, List.append_nil] using hworks
  | some answer =>
    obtain ⟨op, reply⟩ := answer
    have hended : (p.driven fixedSizeLlseek e).world.ended = w.ended := by
      rw [h.driven_world e, withSystem_ended]
    simp only [Process.drive, hr, hended]
    by_cases hw : w.ended = none
    · rw [if_pos hw, exec_cons, exec_nil, h.late_nil hw]
      exact h.returns hw he hr
    · have hworld : (p.driven fixedSizeLlseek e).world.resume e.thread reply =
          (p.driven fixedSizeLlseek e).world := resume_ended (by rwa [hended]) reply
      rw [if_neg hw, exec_nil, hworld, if_neg (by rwa [hended])]
      exact h.returns_late hw he hr

theorem onCalls_step (h : p.OnCalls fixedSizeLlseek w late) {a : Act}
    (ha : p.Enabled fixedSizeLlseek a) :
    (p.step fixedSizeLlseek a).2.OnCalls fixedSizeLlseek
      (exec World.step w (p.step fixedSizeLlseek a).1.calls)
      (late ++ (p.step fixedSizeLlseek a).1.late) := by
  cases a with
  | next k env =>
    obtain ⟨hended, hidle⟩ := ha
    have hidle : (p.place k).call = none := Option.isNone_iff_eq_none.mp hidle
    have hop : p.world.lockedOp (k, env) = w.lockedOp (k, env) := by
      rw [h.world_eq]
      rfl
    rw [h.world_eq, withSystem_ended] at hended
    cases hcall : w.lockedOp (k, env) with
    | none =>
      rw [hcall] at hop
      simp only [Process.step, hop, exec_cons, exec_nil, List.append_nil]
      exact h.own hended hidle hcall
    | some op =>
      rw [hcall] at hop
      simp only [Process.step, hop, exec_nil, List.append_nil]
      exact h.calls_in hidle hcall
  | enter k => exact h.drive (e := .enter k) ha (by simp)
  | work k => exact h.drive (e := .work k) ha (by simp)
  | unlock k => exact h.drive (e := .unlock k) ha (by simp)

theorem onCalls_run (h : p.OnCalls fixedSizeLlseek w late) {acts : List Act}
    (hv : Valid (Process.step fixedSizeLlseek) (Process.Enabled fixedSizeLlseek) p acts) :
    (exec (Process.step fixedSizeLlseek) p acts).OnCalls fixedSizeLlseek
      (exec World.step w (callsIn fixedSizeLlseek p acts))
      (late ++ lateIn fixedSizeLlseek p acts) := by
  induction acts generalizing p w late with
  | nil => simpa [callsIn, lateIn] using h
  | cons a acts ih =>
    have hrest := ih (onCalls_step h hv.1) hv.2
    rw [← exec_append, List.append_assoc] at hrest
    exact hrest

end OnCalls

/-- **Whole calls.** Sessions that are in the driver at the same time, statement by statement,
do what they do in a run of whole calls, each at its return. The devices agree whenever the lock
is free; when the process is over, the device takes in what was still in the driver. As long as
a call is in the driver, some thread in it can go on. -/
theorem sessions_over_statements
    (fixedSizeLlseek : File → Int64 → Int32 → Int64 → Int64 × File) (system : System) (env : Env)
    (acts : List Act)
    (h : Valid (Process.step fixedSizeLlseek) (Process.Enabled fixedSizeLlseek)
      (.init system env) acts) :
    let p := exec (Process.step fixedSizeLlseek) (.init system env) acts
    let w := exec World.step (World.init system) (callsIn fixedSizeLlseek (.init system env) acts)
    let late := lateIn fixedSizeLlseek (.init system env) acts
    p.world = w.withSystem p.world.system ∧
      (p.lock = none → p.world.system = exec (LockedOp.atomic fixedSizeLlseek) w.system late) ∧
      (w.ended = none → late = []) ∧
      (∀ k, (p.place k).call ≠ none → ∃ j, p.Enabled fixedSizeLlseek (.enter j) ∨
        p.Enabled fixedSizeLlseek (.work j) ∨ p.Enabled fixedSizeLlseek (.unlock j)) := by
  intro p w late
  have hend := onCalls_run (onCalls_init fixedSizeLlseek system env) h
  rw [List.nil_append] at hend
  refine ⟨hend.world_eq, hend.serial.free, hend.late_nil, fun k hk => ?_⟩
  refine exists_enabled hend.serial (t := k) ?_
  intro hidle
  exact hk (congrArg LockedCode.Place.call hidle)

/-- Session 1 fails to receive, which ends the process, while session 0 is in its write. -/
def exitDuringWrite : List Act :=
  List.replicate 3 (.next 0 (client [97, 10] 1)) ++ [.enter 0, .work 0, .work 0] ++
    [.next 1 (answer .failed)] ++ List.replicate 4 (.work 0) ++ [.unlock 0]

theorem sessions_over_statements_exitDuringWrite :
    let init := Process.init .init (answer .closed)
    let w := exec World.step (World.init .init) (callsIn integerLlseek init exitDuringWrite)
    (exec (Process.step integerLlseek) init exitDuringWrite).world.system =
      exec (LockedOp.atomic integerLlseek) w.system (lateIn integerLlseek init exitDuringWrite) :=
  (sessions_over_statements integerLlseek .init (answer .closed) exitDuringWrite
    (by decide +kernel)).2.1 (by decide +kernel)

/-- The line is stored, though its session is not told. -/
example :
    let init := Process.init .init (answer .closed)
    (exec (Process.step integerLlseek) init exitDuringWrite).world.system.kernel.commands =
        [[97, 10]] ∧
      (callsIn integerLlseek init exitDuringWrite).map Prod.fst = [0, 0, 1] := by
  decide +kernel

end Aesd.Server
