import Aesd.Server.Receive
import Aesd.Server.SeekCommand
import Aesd.CommandLog
import Aesd.Seek

/-!
# A session thread

`thread_func` from its first `recv` to its return, for any number of sessions in one
process over one device. Each call it makes is one step of its session.
-/

namespace Aesd.Server
open CString StepRuns

/-- What ends the process: `exit`, `exit_safely`, the signal of a `send` to a connection
that is gone, or a call that leaves its buffer. -/
inductive Ending where
  | exit
  | exitSafely
  | sigpipe
  | fault
  deriving DecidableEq

/-- The next call of a session. `echoing` is at the `read`, `sending` at the `send`. -/
inductive Phase where
  | receiving
  | opening
  | command
  | seeking (stage : Stage ℕ)
  | controlling (writeCmd writeCmdOffset : UInt32)
  | echoing (sendBuffer : Region)
  | sending (sendBuffer : Region)
  | closing
  | returned
  deriving DecidableEq

/-- The process and the device. A session has its own number in each field, also for its
open file; it is at `receiving` before its first call. -/
structure World where
  system : System
  mem : Memory ℕ
  phase : ℕ → Phase
  /-- `client_socket` is open. -/
  connected : ℕ → Bool
  /-- `data_file` is open. -/
  opened : ℕ → Bool
  /-- The bytes given to `send`. -/
  sent : ℕ → List UInt8
  ended : Option Ending

def World.init (system : System) : World where
  system := system
  mem := ⟨fun _ => some emptyBuffer, none⟩
  phase _ := .receiving
  connected _ := true
  opened _ := false
  sent _ := []
  ended := none

/-- What the client and the system answer; a call uses the fields that are about it. -/
structure Env where
  recv : Recv
  junk : ℕ → UInt8
  opens : Bool
  write : WriteEnv
  beyond : UInt64
  interrupted : Bool
  /-- The client has reset the connection. -/
  reset : Bool

def clearBuffer : Region := List.replicate bufferSize 0

namespace World

variable (w : World) (k : ℕ) (env : Env)

def stop (ending : Ending) : World := { w with ended := some ending }

def goto (phase : Phase) : World := { w with phase := Function.update w.phase k phase }

def receive : World :=
  match w.mem.buffers k with
  | none => w.stop .fault
  | some buffer =>
    let keep (buffer : Region) : World :=
      { w with mem := { w.mem with buffers := Function.update w.mem.buffers k (some buffer) } }
    match receiveOnce buffer env.junk env.recv with
    | .next buffer => keep buffer
    | .done buffer => (keep buffer).goto k .opening
    | .exit => w.stop .exit
    | .fault => w.stop .fault

/-- `open` of the device; the new file is at position 0. -/
def openFile : World :=
  if env.opens then
    { w with
      system := { w.system with fPos := Function.update w.system.fPos k 0 }
      opened := Function.update w.opened k true }.goto k .command
  else w.stop .exit

def writeCall (str : List UInt8) : Call := .write k (some str) (UInt64.ofNat str.length) env.write

/-- The test for the prefix and, without it, the write. -/
def obey : World :=
  match (w.mem.buffers k).bind string with
  | none => w.stop .fault
  | some str =>
    if seekPrefix <+: str then w.goto k (.seeking .start)
    else
      let (reply, system) := w.system.step (writeCall k env str)
      if reply.retval < 0 then w.stop .exit
      else { w with system := system }.goto k (.echoing clearBuffer)

def parse (stage : Stage ℕ) : World :=
  match parseStep w.mem k stage with
  | .stage (.ready writeCmd writeCmdOffset) mem =>
    { w with mem := mem }.goto k (.controlling writeCmd writeCmdOffset)
  | .stage stage mem => { w with mem := mem }.goto k (.seeking stage)
  | .invalid => w.stop .exitSafely
  | .fault => w.stop .fault

def control (writeCmd writeCmdOffset : UInt32) : World :=
  let out := aesdIoctl w.system.kernel (some ⟨w.system.fPos k⟩) aesdcharIocseekto
    ⟨true, some (writeCmd, writeCmdOffset)⟩ env.beyond env.interrupted
  if out.result ≠ 0 then w.stop .exitSafely
  else
    { w with
      system := { w.system with fPos := Function.update w.system.fPos k out.fPos } }.goto k
        (.echoing clearBuffer)

def readCall : Call := .read k (some bufferSize) (UInt64.ofNat bufferSize) env.interrupted

/-- The read of the echo loop, which ends at the end of the file or on an error. -/
def echo (sendBuffer : Region) : World :=
  let (reply, system) := w.system.step (readCall k env)
  let w := { w with system := system }
  if reply.retval ≤ 0 then w.goto k .closing
  else w.goto k (.sending (reply.bytes ++ sendBuffer.drop reply.bytes.length))

def send (sendBuffer : Region) : World :=
  match string sendBuffer with
  | none => w.stop .fault
  | some str =>
    if env.reset then w.stop .sigpipe
    else
      { w with sent := Function.update w.sent k (w.sent k ++ str) }.goto k (.echoing sendBuffer)

def close : World :=
  { w with
    mem := { w.mem with buffers := Function.update w.mem.buffers k none }
    connected := Function.update w.connected k false
    opened := Function.update w.opened k false }.goto k .returned

def threadFunc : World :=
  match w.phase k with
  | .receiving => w.receive k env
  | .opening => w.openFile k env
  | .command => w.obey k env
  | .seeking stage => w.parse k stage
  | .controlling writeCmd writeCmdOffset => w.control k env writeCmd writeCmdOffset
  | .echoing sendBuffer => w.echo k env sendBuffer
  | .sending sendBuffer => w.send k env sendBuffer
  | .closing => w.close k
  | .returned => w

/-- A step of some session; a process that has ended takes none. The answer is how the
step ended the process. -/
def step (l : ℕ × Env) : Option Ending × World :=
  match w.ended with
  | some _ => (none, w)
  | none =>
    let w := w.threadFunc l.1 l.2
    (w.ended, w)

/-- `recv` delivers at most a buffer, `open` and `write` succeed. -/
def Enabled (l : ℕ × Env) : Prop :=
  match w.phase l.1 with
  | .receiving =>
    match l.2.recv with
    | .data bytes => bytes ≠ [] ∧ bytes.length ≤ bufferSize
    | _ => True
  | .opening => l.2.opens = true
  | .command =>
    match (w.mem.buffers l.1).bind string with
    | some str => seekPrefix <+: str ∨ (writeCall l.1 l.2 str).Succeeds w.system
    | none => True
  | _ => True

instance (l : ℕ × Env) : Decidable (w.Enabled l) := by
  unfold Enabled
  split
  · split <;> infer_instance
  · infer_instance
  · split <;> infer_instance
  · infer_instance

end World

/-- What the library calls leave of a buffer: `strtok` writes behind the prefix only. -/
def headOf (buffer : Option Region) : Option (List UInt8) :=
  buffer.map (List.take seekPrefix.length)

/-- What one session sees of the world, apart from the device and the text of its packet. -/
structure View where
  phase : Phase
  fPos : Int64
  connected : Bool
  opened : Bool
  head : Option (List UInt8)

def World.view (w : World) (k : ℕ) : View :=
  ⟨w.phase k, w.system.fPos k, w.connected k, w.opened k, headOf (w.mem.buffers k)⟩

/-- The saved pointer is behind the prefix of some session's packet. -/
def Behind (mem : Memory ℕ) : Prop := ∀ p, mem.saved = some p → seekPrefix.length ≤ p.2

theorem strtok_head {mem mem' : Memory ℕ} {p : Option (Pointer ℕ)} {token : Option (Pointer ℕ)}
    (hp : ∀ q, p.or mem.saved = some q → seekPrefix.length ≤ q.2)
    (h : mem.strtok p = some (token, mem')) :
    Behind mem' ∧ ∀ j, headOf (mem'.buffers j) = headOf (mem.buffers j) := by
  unfold Memory.strtok at h
  cases hq : p.or mem.saved with
  | none => simp [hq] at h
  | some q =>
    obtain ⟨i, offset⟩ := q
    have hle := hp _ hq
    cases hm : mem.buffers i with
    | none => simp [hq, hm] at h
    | some m =>
      simp only [hq, hm, Option.map_eq_some_iff] at h
      obtain ⟨⟨t, m', saved⟩, hstrtok, hmem⟩ := h
      obtain ⟨hsaved, htake⟩ := strtok_take hstrtok
      obtain ⟨-, rfl⟩ := Prod.mk.inj hmem
      refine ⟨?_, fun j => ?_⟩
      · intro q hq
        obtain rfl := Option.some.inj hq
        exact hle.trans hsaved
      · by_cases hj : j = i
        · subst hj
          have hhead := congrArg (List.take seekPrefix.length) htake
          rw [List.take_take, List.take_take, Nat.min_eq_left hle] at hhead
          simp [headOf, hm, hhead]
        · simp [hj]

def callsLeft : Stage ℕ → ℕ
  | .start => 4
  | .writeCmd _ => 3
  | .next _ => 2
  | .writeCmdOffset .. => 1
  | .ready .. => 0

theorem parseStep_stage {mem mem' : Memory ℕ} {k : ℕ} {stage stage' : Stage ℕ} (hb : Behind mem)
    (h : parseStep mem k stage = .stage stage' mem') :
    (Behind mem' ∧ ∀ j, headOf (mem'.buffers j) = headOf (mem.buffers j)) ∧
      ((∃ writeCmd writeCmdOffset, stage' = .ready writeCmd writeCmdOffset) ∨
        callsLeft stage' < callsLeft stage) := by
  cases stage with
  | start =>
    simp only [parseStep] at h
    split at h
    · cases h
    · cases h
    · rename_i hs
      obtain ⟨rfl, rfl⟩ := Parsed.stage.inj h
      exact ⟨strtok_head (by rintro _ ⟨⟩; exact le_rfl) hs, .inr (by simp [callsLeft])⟩
  | writeCmd token =>
    simp only [parseStep] at h
    split at h
    · cases h
    · obtain ⟨rfl, rfl⟩ := Parsed.stage.inj h
      exact ⟨⟨hb, fun _ => rfl⟩, .inr (by simp [callsLeft])⟩
  | next writeCmd =>
    simp only [parseStep] at h
    split at h
    · cases h
    · cases h
    · rename_i hs
      obtain ⟨rfl, rfl⟩ := Parsed.stage.inj h
      have hnull : ∀ q, (none : Option (Pointer ℕ)).or mem.saved = some q → seekPrefix.length ≤ q.2 :=
        hb
      exact ⟨strtok_head hnull hs, .inr (by simp [callsLeft])⟩
  | writeCmdOffset writeCmd token =>
    simp only [parseStep] at h
    split at h
    · cases h
    · obtain ⟨rfl, rfl⟩ := Parsed.stage.inj h
      exact ⟨⟨hb, fun _ => rfl⟩, .inl ⟨_, _, rfl⟩⟩
  | ready a b =>
    obtain ⟨rfl, rfl⟩ := Parsed.stage.inj h
    exact ⟨⟨hb, fun _ => rfl⟩, .inl ⟨_, _, rfl⟩⟩

/-- No position reaches past ten commands of 2^31 bytes. -/
def textLimit : ℕ := 10 * 2 ^ 31

/-- What a call that does not end the process makes of its session. -/
def View.Moves (v v' : View) : Prop :=
  match v.phase with
  | .receiving =>
    ∃ phase head, (phase = .receiving ∨ phase = .opening) ∧ v' = { v with phase, head := some head }
  | .opening => v' = { v with phase := .command, fPos := 0, opened := true }
  | .command =>
    v' = { v with phase := .echoing clearBuffer } ∨
      v.head = some seekPrefix ∧ v' = { v with phase := .seeking .start }
  | .seeking stage =>
    (∃ writeCmd writeCmdOffset, v' = { v with phase := .controlling writeCmd writeCmdOffset }) ∨
      ∃ stage', callsLeft stage' < callsLeft stage ∧ v' = { v with phase := .seeking stage' }
  | .controlling .. =>
    ∃ fPos, (v.fPos = 0 → 0 ≤ fPos) ∧ v' = { v with phase := .echoing clearBuffer, fPos }
  | .echoing _ =>
    (∃ fPos, v' = { v with phase := .closing, fPos }) ∨
      ∃ sendBuffer fPos, (0 ≤ v.fPos → 0 ≤ fPos ∧ v.fPos.toNatClampNeg < fPos.toNatClampNeg ∧
        v.fPos.toNatClampNeg < textLimit) ∧ v' = { v with phase := .sending sendBuffer, fPos }
  | .sending sendBuffer => v' = { v with phase := .echoing sendBuffer }
  | .closing =>
    v' = { v with phase := .returned, connected := false, opened := false, head := none }
  | .returned => v' = v

def View.Ok (v : View) : Prop :=
  match v.phase with
  | .receiving | .opening => v.connected = true ∧ v.opened = false ∧ v.head ≠ none
  | .command => v.connected = true ∧ v.opened = true ∧ v.head ≠ none ∧ v.fPos = 0
  | .seeking _ | .controlling .. =>
    v.connected = true ∧ v.opened = true ∧ v.head = some seekPrefix ∧ v.fPos = 0
  | .echoing _ | .sending _ =>
    v.connected = true ∧ v.opened = true ∧ v.head ≠ none ∧ 0 ≤ v.fPos
  | .closing => v.connected = true ∧ v.opened = true ∧ v.head ≠ none
  | .returned => v.connected = false ∧ v.opened = false ∧ v.head = none

theorem View.Ok.moves {v v' : View} (h : v.Ok) (hm : v.Moves v') : v'.Ok := by
  cases hp : v.phase with
  | receiving =>
    simp only [View.Ok, View.Moves, hp] at h hm
    obtain ⟨_, head, rfl | rfl, rfl⟩ := hm
    · exact ⟨h.1, h.2.1, by simp⟩
    · exact ⟨h.1, h.2.1, by simp⟩
  | opening =>
    simp only [View.Ok, View.Moves, hp] at h hm
    subst hm
    exact ⟨h.1, rfl, h.2.2, rfl⟩
  | command =>
    simp only [View.Ok, View.Moves, hp] at h hm
    rcases hm with rfl | ⟨hhead, rfl⟩
    · exact ⟨h.1, h.2.1, h.2.2.1, by simp [h.2.2.2]⟩
    · exact ⟨h.1, h.2.1, hhead, h.2.2.2⟩
  | seeking stage =>
    simp only [View.Ok, View.Moves, hp] at h hm
    rcases hm with ⟨a, b, rfl⟩ | ⟨stage', _, rfl⟩
    · exact h
    · exact h
  | controlling a b =>
    simp only [View.Ok, View.Moves, hp] at h hm
    obtain ⟨fPos, hpos, rfl⟩ := hm
    exact ⟨h.1, h.2.1, by simp [h.2.2.1], hpos h.2.2.2⟩
  | echoing sendBuffer =>
    simp only [View.Ok, View.Moves, hp] at h hm
    rcases hm with ⟨fPos, rfl⟩ | ⟨sendBuffer', fPos, hpos, rfl⟩
    · exact ⟨h.1, h.2.1, h.2.2.1⟩
    · exact ⟨h.1, h.2.1, h.2.2.1, (hpos h.2.2.2).1⟩
  | sending sendBuffer =>
    simp only [View.Ok, View.Moves, hp] at h hm
    subst hm
    exact h
  | closing =>
    simp only [View.Moves, hp] at hm
    subst hm
    exact ⟨rfl, rfl, rfl⟩
  | returned =>
    simp only [View.Moves, hp] at hm
    rwa [hm]

/-- The calls a session behind its receive loop has left, if each read moves its position. -/
def View.rank (v : View) : ℕ :=
  match v.phase with
  | .receiving => 2 * textLimit + 11
  | .opening => 2 * textLimit + 10
  | .command => 2 * textLimit + 9
  | .seeking stage => 2 * textLimit + 4 + callsLeft stage
  | .controlling .. => 2 * textLimit + 3
  | .echoing _ => 2 * (textLimit - v.fPos.toNatClampNeg) + 2
  | .sending _ => 2 * (textLimit - v.fPos.toNatClampNeg) + 3
  | .closing => 1
  | .returned => 0

theorem View.Ok.rank_lt {v v' : View} (h : v.Ok) (hm : v.Moves v') (hr : v.phase ≠ .receiving)
    (hd : v.phase ≠ .returned) : v'.rank < v.rank := by
  cases hp : v.phase with
  | receiving => exact absurd hp hr
  | opening =>
    simp only [View.Moves, hp] at hm
    simp [View.rank, hp, hm]
  | command =>
    simp only [View.Moves, hp] at hm
    rcases hm with rfl | ⟨_, rfl⟩
    · simp only [View.rank, hp]
      omega
    · simp only [View.rank, hp, callsLeft]
      omega
  | seeking stage =>
    simp only [View.Moves, hp] at hm
    rcases hm with ⟨a, b, rfl⟩ | ⟨stage', hless, rfl⟩
    · simp only [View.rank, hp]
      omega
    · simp only [View.rank, hp]
      omega
  | controlling a b =>
    simp only [View.Moves, hp] at hm
    obtain ⟨fPos, _, rfl⟩ := hm
    simp only [View.rank, hp]
    omega
  | echoing sendBuffer =>
    simp only [View.Ok, View.Moves, hp] at h hm
    rcases hm with ⟨fPos, rfl⟩ | ⟨sendBuffer', fPos, hpos, rfl⟩
    · simp only [View.rank, hp]
      omega
    · obtain ⟨_, hlt, hlimit⟩ := hpos h.2.2.2
      simp only [View.rank, hp]
      omega
  | sending sendBuffer =>
    simp only [View.Moves, hp] at hm
    simp [View.rank, hp, hm]
  | closing =>
    simp only [View.Moves, hp] at hm
    simp [View.rank, hp, hm]
  | returned => exact absurd hp hd

end Aesd.Server
