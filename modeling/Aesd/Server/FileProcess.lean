import Aesd.Server.Echo

/-!
# The process of the file build

Without `USE_AESD_CHAR_DEVICE` a timer thread appends timestamps between the packets of the
sessions, all under one mutex, and `exit_safely` joins the timer thread. A `write` may bring
its bytes to the file in pieces.
-/

namespace Aesd.Server
open CString StepRuns

/-- `struct tm` as `localtime` fills it; the year counts from 1900. -/
structure Tm where
  sec : Fin 61
  min : Fin 60
  hour : Fin 24
  mday : Fin 32
  mon : Fin 12
  year : ℤ

def digit (n : ℕ) : UInt8 := 48 + UInt8.ofNat (n % 10)

def twoDigits (n : ℕ) : List UInt8 := [digit (n / 10), digit n]

/-- `%k`: a blank in place of a leading zero. -/
def blankPadded (n : ℕ) : List UInt8 := [if n < 10 then 32 else digit (n / 10), digit n]

def monthName : Fin 12 → List UInt8
  | 0 => [74, 97, 110]
  | 1 => [70, 101, 98]
  | 2 => [77, 97, 114]
  | 3 => [65, 112, 114]
  | 4 => [77, 97, 121]
  | 5 => [74, 117, 110]
  | 6 => [74, 117, 108]
  | 7 => [65, 117, 103]
  | 8 => [83, 101, 112]
  | 9 => [79, 99, 116]
  | 10 => [78, 111, 118]
  | 11 => [68, 101, 99]

def timestampHead : List UInt8 := [116, 105, 109, 101, 115, 116, 97, 109, 112, 58]

/-- The format `timestamp:%y %b %d\t%k:%M:%S\n`. -/
def timestamp (tm : Tm) : List UInt8 :=
  timestampHead ++ twoDigits (tm.year % 100).toNat ++ [32] ++ monthName tm.mon ++ [32] ++
    twoDigits tm.mday ++ [9] ++ blankPadded tm.hour ++ [58] ++ twoDigits tm.min ++ [58] ++
    twoDigits tm.sec ++ [newline]

/-- The length, zero when the text and its zero byte do not fit, and what is then in the buffer. -/
def strftime (max : ℕ) (tm : Tm) : ℕ × List UInt8 :=
  if (timestamp tm).length < max then ((timestamp tm).length, timestamp tm) else (0, [])

theorem monthName_length (mon : Fin 12) : (monthName mon).length = 3 := by
  revert mon
  decide

theorem timestamp_length (tm : Tm) : (timestamp tm).length = 29 := by
  simp [timestamp, timestampHead, twoDigits, blankPadded, monthName_length]

theorem strftime_timestamp (tm : Tm) : strftime 100 tm = (29, timestamp tm) := by
  rw [strftime, timestamp_length, if_pos (by decide)]

/-- The threads of the process; `main` is in the accept loop. -/
inductive Worker where
  | main
  | timer
  | session (k : ℕ)
  deriving DecidableEq

/-- The next call of a thread. `writing` is inside the `write`, with these many bytes in the file;
`joining` is before the `pthread_join` of `exit_safely`, and `waiting` inside it. -/
inductive FilePhase where
  | accepting
  | formatting
  | opening
  | testing
  | locking
  | writing (done : ℕ)
  | unlocking (failed : Bool)
  | checking (failed : Bool)
  | reading (sendBuffer : Region)
  | sending (sendBuffer : Region)
  | closing
  | returned
  | joining
  | waiting
  deriving DecidableEq

structure FileProcess where
  /-- The bytes of each file that `file_path` has named. -/
  files : ℕ → List UInt8
  created : ℕ
  /-- What `file_path` names. -/
  named : Option ℕ
  /-- The holder of `mutex_lock`. -/
  mutex : Option Worker
  phase : Worker → FilePhase
  /-- What the thread writes: `buffer` or `timestampBuffer`. -/
  text : Worker → List UInt8
  /-- The file and the offset of `data_file`. -/
  file : Worker → ℕ
  offset : Worker → ℕ
  /-- The bytes given to `send`. -/
  sent : Worker → List UInt8
  /-- The thread that waits for the timer thread. -/
  joiner : Option Worker
  ended : Option Ending

/-- After `creat`, with the timer thread started; a session is at its `open`, its packet
assembled. -/
def FileProcess.init (packet : ℕ → List UInt8) : FileProcess where
  files _ := []
  created := 1
  named := some 0
  mutex := none
  phase
    | .main => .accepting
    | .timer => .formatting
    | .session _ => .opening
  text
    | .session k => packet k
    | _ => []
  file _ := 0
  offset _ := 0
  sent _ := []
  joiner := none
  ended := none

/-- What goes on in a `write`: more bytes reach the file, it returns, or it fails. -/
inductive Writing where
  | more (n : ℕ)
  | returns
  | fails

/-- What the system answers; a call uses the field that is about it. -/
structure FileEnv where
  localtime : Option Tm
  opens : Bool
  write : Writing
  /-- How much a `read` brings at most; none if it fails. -/
  read : Option ℕ
  reset : Bool

/-- What a returned `write` has brought to the file. -/
structure Addition where
  worker : Worker
  file : ℕ
  bytes : List UInt8
  deriving DecidableEq

inductive Report where
  | nothing
  | added (addition : Addition)
  | read (t : Worker) (bytes : List UInt8)

inductive FileAction where
  | run (t : Worker) (env : FileEnv)
  /-- `SIGINT` or `SIGTERM`, handled in this thread. -/
  | signal (t : Worker)

namespace FileProcess

variable (w : FileProcess) (t : Worker)

def stop (ending : Ending) : FileProcess := { w with ended := some ending }

def goto (phase : FilePhase) : FileProcess := { w with phase := Function.update w.phase t phase }

/-- `exit_safely` up to its `pthread_join`. The closed descriptor 0 is none that the threads use. -/
def exitSafely : FileProcess := { w with named := none }.goto t .joining

/-- `pthread_join(timer_thread)`: the timer thread never returns. A thread that joins itself, or
that another one waits for, cannot be joined, and `exit(0)` comes next. -/
def join : FileProcess :=
  if t = .timer ∨ w.joiner.isSome = true then w.stop .exitSafely
  else { w with joiner := some t }.goto t .waiting

/-- `O_CREAT` makes a new file when the name is gone. -/
def openFile : FileProcess :=
  match w.named with
  | some i => { w with file := Function.update w.file t i, offset := Function.update w.offset t 0 }
  | none =>
    { w with
      created := w.created + 1
      named := some w.created
      file := Function.update w.file t w.created
      offset := Function.update w.offset t 0 }

/-- A piece of the `write` goes to the end of the file, and the offset behind it. -/
def append (piece : List UInt8) : FileProcess :=
  let bytes := w.files (w.file t) ++ piece
  { w with
    files := Function.update w.files (w.file t) bytes
    offset := Function.update w.offset t bytes.length }

def addition (done : ℕ) : Addition := ⟨t, w.file t, (w.text t).take done⟩

def run (env : FileEnv) : Report × FileProcess :=
  match w.phase t with
  | .accepting | .returned | .waiting => (.nothing, w)
  | .formatting =>
    match env.localtime with
    | none => (.nothing, w.stop .exit)
    | some tm =>
      let (timestampLength, timestampBuffer) := strftime 100 tm
      if timestampLength = 0 then (.nothing, w.stop .exit)
      else (.nothing, { w with
        text := Function.update w.text t (timestampBuffer.take timestampLength) }.goto t .opening)
  | .opening =>
    if env.opens then
      (.nothing, (w.openFile t).goto t (if t = .timer then .locking else .testing))
    else (.nothing, w.stop .exit)
  | .testing =>
    -- the `ioctl` fails on a regular file, so every seek command leads to `exit_safely`
    if seekPrefix <+: w.text t then (.nothing, w.exitSafely t) else (.nothing, w.goto t .locking)
  | .locking => (.nothing, { w with mutex := some t }.goto t (.writing 0))
  | .writing done =>
    match env.write with
    | .more n =>
      let piece := ((w.text t).drop done).take n
      (.nothing, (w.append t piece).goto t (.writing (done + piece.length)))
    | .returns => (.added (w.addition t done), w.goto t (.unlocking false))
    | .fails =>
      -- a session looks at the result before the unlock, the timer thread behind it
      if t = .timer then (.nothing, w.goto t (.unlocking true)) else (.nothing, w.stop .exit)
  | .unlocking failed =>
    let next : FilePhase := if t = .timer then .checking failed else .reading clearBuffer
    (.nothing, { w with mutex := none }.goto t next)
  | .checking failed =>
    if failed then (.nothing, w.stop .exit) else (.nothing, w.goto t .formatting)
  | .reading sendBuffer =>
    match env.read with
    | none => (.nothing, w.goto t .closing)
    | some n =>
      let bytes := ((w.files (w.file t)).drop (w.offset t)).take (min n bufferSize)
      if bytes = [] then (.nothing, w.goto t .closing)
      else (.read t bytes, { w with
        offset := Function.update w.offset t (w.offset t + bytes.length) }.goto t
          (.sending (readInto sendBuffer bytes)))
  | .sending sendBuffer =>
    match string sendBuffer with
    | none => (.nothing, w.stop .fault)
    | some str =>
      if env.reset then (.nothing, w.stop .sigpipe)
      else (.nothing, { w with
        sent := Function.update w.sent t (w.sent t ++ str) }.goto t (.reading sendBuffer))
  | .closing => (.nothing, w.goto t .returned)
  | .joining => (.nothing, w.join t)

/-- A signal in the midst of a `write` is handled when the `write` has returned. -/
def step : FileAction → Report × FileProcess
  | .run t env => w.run t env
  | .signal t =>
    match w.phase t with
    | .writing done => (.added (w.addition t done), w.exitSafely t)
    | _ => (.nothing, w.exitSafely t)

/-- A thread runs that has a next call and need not wait; a thread in `pthread_join` still handles
signals. -/
def Enabled : FileAction → Prop
  | .run t env =>
    w.ended = none ∧
      match w.phase t with
      | .accepting | .returned | .waiting => False
      | .locking => w.mutex = none
      | .writing done =>
        match env.write with
        | .more n => 0 < n ∧ done < (w.text t).length
        | .returns => True
        | .fails => done = 0
      | _ => True
  | .signal t => w.ended = none ∧ w.phase t ≠ .returned

instance (l : FileAction) : Decidable (w.Enabled l) := by
  cases l with
  | run t env =>
    refine @instDecidableAnd _ _ _ ?_
    split
    · infer_instance
    · infer_instance
    · infer_instance
    · infer_instance
    · split <;> infer_instance
    · infer_instance
  | signal t => exact inferInstanceAs (Decidable (_ ∧ _))

end FileProcess

def additionsOf (reports : List Report) : List Addition :=
  reports.filterMap fun
    | .added addition => some addition
    | _ => none

def readsOf (k : ℕ) (reports : List Report) : List (List UInt8) :=
  reports.filterMap fun
    | .read t bytes => if t = .session k then some bytes else none
    | _ => none

/-- What these bring to one file. -/
def bytesIn (i : ℕ) (additions : List Addition) : List UInt8 :=
  (additions.filter (·.file = i)).flatMap (·.bytes)

/-- A thread's own part of the process. -/
structure Own where
  phase : FilePhase
  text : List UInt8
  file : ℕ
  offset : ℕ

def FileProcess.own (w : FileProcess) (t : Worker) : Own :=
  ⟨w.phase t, w.text t, w.file t, w.offset t⟩

def Own.unfinished (v : Own) (i : ℕ) : List UInt8 :=
  match v.phase with
  | .writing done => if v.file = i then v.text.take done else []
  | _ => []

def FileProcess.unfinished (w : FileProcess) (i : ℕ) : List UInt8 :=
  match w.mutex with
  | none => []
  | some t => (w.own t).unfinished i

section Reports

variable (reports : List Report)

@[simp] theorem additionsOf_nothing : additionsOf (reports ++ [.nothing]) = additionsOf reports := by
  simp [additionsOf]

@[simp] theorem readsOf_nothing (k : ℕ) :
    readsOf k (reports ++ [.nothing]) = readsOf k reports := by
  simp [readsOf]

@[simp] theorem additionsOf_append (reports' : List Report) :
    additionsOf (reports ++ reports') = additionsOf reports ++ additionsOf reports' :=
  List.filterMap_append

@[simp] theorem readsOf_append (k : ℕ) (reports' : List Report) :
    readsOf k (reports ++ reports') = readsOf k reports ++ readsOf k reports' :=
  List.filterMap_append

@[simp] theorem bytesIn_append (i : ℕ) (additions additions' : List Addition) :
    bytesIn i (additions ++ additions') = bytesIn i additions ++ bytesIn i additions' := by
  simp [bytesIn]

theorem bytesIn_singleton (i : ℕ) (a : Addition) :
    bytesIn i [a] = if a.file = i then a.bytes else [] := by
  unfold bytesIn
  split_ifs with h <;> simp [h]

end Reports

end Aesd.Server
