import Aesd.Server.Statements

/-!
# What servers leave on the device

One server after another on the loaded device, each over at any statement of its threads. What is
in the driver then comes to its end there.
-/

namespace Aesd.Server
open CString StepRuns LockedCode

def writtenBy : LockedOp → Option (List UInt8)
  | .transfer (.write _ buf _ _) => buf
  | _ => none

def WriteSucceeds (s : System) : LockedOp → Prop
  | .transfer (.write file buf count env) => (Call.write file buf count env).Succeeds s
  | _ => True

instance (s : System) : (op : LockedOp) → Decidable (WriteSucceeds s op)
  | .transfer (.write file buf count env) =>
    inferInstanceAs (Decidable ((Call.write file buf count env).Succeeds s))
  | .transfer (.read ..) | .llseek .. | .ioctl .. => isTrue trivial

section Serve

variable (fixedSizeLlseek : File → Int64 → Int32 → Int64 → Int64 × File) (env : Env)

/-- A server finds the kernel as the last one has left it, and its files are new. -/
def Process.start (kernel : Kernel) : Process := .init ⟨kernel, fun _ => 0⟩ env

/-- What a server writes, also what it has in the driver when it is over, and the kernel it
leaves. -/
def serve (kernel : Kernel) (acts : List Act) : List (List UInt8) × Kernel :=
  let p := Process.start env kernel
  (packetsIn p.world (callsIn fixedSizeLlseek p acts) ++
      (lateIn fixedSizeLlseek p acts).filterMap writtenBy,
    (exec (Process.step fixedSizeLlseek) p acts).world.system.kernel)

/-- `recv` delivers at most a buffer, `open` and `write` succeed, and in the end nobody is behind
the lock. -/
def Serves (kernel : Kernel) (acts : List Act) : Prop :=
  let p := Process.start env kernel
  let calls := callsIn fixedSizeLlseek p acts
  Valid (Process.step fixedSizeLlseek) (Process.Enabled fixedSizeLlseek) p acts ∧
    Valid World.step World.Enabled p.world calls ∧
    Valid (LockedOp.atomic fixedSizeLlseek) WriteSucceeds (exec World.step p.world calls).system
      (lateIn fixedSizeLlseek p acts) ∧
    (exec (Process.step fixedSizeLlseek) p acts).lock.isNone = true

instance (kernel : Kernel) (acts : List Act) : Decidable (Serves fixedSizeLlseek env kernel acts) :=
  inferInstanceAs (Decidable (_ ∧ _ ∧ _ ∧ _))

end Serve

/-- The kernel and the log are in step, and no pending byte is lost. -/
structure KernelOnLog (kernel : Kernel) (log : CommandLog) : Prop where
  refines : Refines kernel log
  inOffs_eq : kernel.device.circleBuff.inOffs = log.history.length % 10
  kept : ¬ kernel.Lost

section Lives

variable {fixedSizeLlseek : File → Int64 → Int32 → Int64 → Int64 × File} {env : Env}
  {kernel : Kernel} {log : CommandLog} {s : System} {w : World} {op : LockedOp}

theorem World.OnLog.kernelOnLog {d : LogDevice} (h : w.OnLog d) :
    KernelOnLog w.system.kernel d.log :=
  ⟨h.represents.refines, h.represents.inOffs_eq, h.kept⟩

theorem KernelOnLog.represents (h : KernelOnLog kernel log) :
    Represents ⟨kernel, fun _ => 0⟩ ⟨log, fun _ => 0⟩ :=
  ⟨h.refines, h.inOffs_eq, fun _ => Int64.le_refl 0, fun _ => rfl⟩

theorem KernelOnLog.start (h : KernelOnLog kernel log) :
    (Process.start env kernel).world.OnLog ⟨log, fun _ => 0⟩ where
  inv := inv_init ⟨h.refines.owned, h.refines.fits⟩
  short := onLog_init.short
  represents := h.represents
  kept := h.kept
  pos_le _ := Nat.zero_le _

/-- A write does to the kernel what it does with all files at their beginning. -/
theorem write_kernel (s : System) (file : ℕ) (buf : Option (List UInt8)) (count : UInt64)
    (write : WriteEnv) : (s.step (.write file buf count write)).2.kernel =
      (System.step ⟨s.kernel, fun _ => 0⟩ (.write file buf count write)).2.kernel := by
  cases buf <;> rfl

theorem KernelOnLog.write (h : KernelOnLog s.kernel log) {file : ℕ} {buf : Option (List UInt8)}
    {count : UInt64} {write : WriteEnv} (hs : (Call.write file buf count write).Succeeds s) :
    KernelOnLog (s.step (.write file buf count write)).2.kernel
      (log.write (Call.write file buf count write).data) := by
  have hrepr : Represents (System.step ⟨s.kernel, fun _ => 0⟩ (.write file buf count write)).2 _ :=
    h.represents.write hs.kernelOk fun _ _ => h.kept
  have hkept := (succeeds_step (c := .write file buf count write) ⟨h.refines, h.kept⟩ hs).2
  refine ⟨?_, ?_, hkept⟩
  · rw [write_kernel]
    exact hrepr.refines
  · rw [write_kernel]
    exact hrepr.inOffs_eq

theorem KernelOnLog.late (h : KernelOnLog s.kernel log) (hs : WriteSucceeds s op)
    (hdata : ∀ file buf count write, op = .transfer (.write file buf count write) →
      buf = some (Call.write file buf count write).data) :
    KernelOnLog (op.atomic fixedSizeLlseek s).2.kernel
      ((writtenBy op).toList.foldl LineLog.write log) := by
  cases op with
  | transfer c =>
    cases c with
    | write file buf count write =>
      have hwrite : KernelOnLog (s.step (.write file buf count write)).2.kernel _ := h.write hs
      have hbuf := congrArg Option.toList (hdata file buf count write rfl)
      rw [writtenBy, hbuf]
      exact hwrite
    | read file buf count interrupted => exact h
  | llseek file offset whence interrupted => exact h
  | ioctl file cmd arg beyond interrupted => exact h

/-- The calls of sessions write strings that fit their buffers. -/
theorem data_of_session (h : w.Short) {k : ℕ} (hop : w.lockedOp (k, env) = some op)
    (hs : WriteSucceeds s op) (file : ℕ) (buf : Option (List UInt8)) (count : UInt64)
    (write : WriteEnv) (heq : op = .transfer (.write file buf count write)) :
    buf = some (Call.write file buf count write).data := by
  rcases lockedOp_eq_some hop with ⟨str, -, hstr, -, rfl⟩ | ⟨_, _, -, rfl⟩ | ⟨_, -, rfl⟩
  · have hcall := LockedOp.transfer.inj heq
    have hshort : (w.withSystem s).Short := h
    have hdata : (World.writeCall k env str).data = str := data_packet hshort hstr hs
    rw [← hcall, hdata]
    exact (Call.write.inj hcall).2.1.symm
  · cases heq
  · cases heq

theorem KernelOnLog.lates (h : KernelOnLog s.kernel log) (hw : w.Short) {late : List LockedOp}
    (hv : Valid (LockedOp.atomic fixedSizeLlseek) WriteSucceeds s late)
    (hop : ∀ op ∈ late, ∃ k env, w.lockedOp (k, env) = some op) :
    KernelOnLog (exec (LockedOp.atomic fixedSizeLlseek) s late).kernel
      ((late.filterMap writtenBy).foldl LineLog.write log) := by
  induction late generalizing s log with
  | nil => exact h
  | cons op late ih =>
    obtain ⟨k, env, hsession⟩ := hop op List.mem_cons_self
    have hfirst : KernelOnLog (op.atomic fixedSizeLlseek s).2.kernel _ :=
      h.late hv.1 (data_of_session hw hsession hv.1)
    have hrest := ih hfirst hv.2 fun op' hm => hop op' (List.mem_cons_of_mem _ hm)
    rw [exec_cons, List.filterMap_cons]
    cases hwritten : writtenBy op with
    | none => simpa [hwritten] using hrest
    | some packet => simpa [hwritten] using hrest

theorem KernelOnLog.serve (h : KernelOnLog kernel log) {acts : List Act}
    (hs : Serves fixedSizeLlseek env kernel acts) :
    KernelOnLog (serve fixedSizeLlseek env kernel acts).2
      ((serve fixedSizeLlseek env kernel acts).1.foldl LineLog.write log) := by
  obtain ⟨hacts, hcalls, hlate, hlock⟩ := hs
  have hstart : (Process.start env kernel).OnCalls fixedSizeLlseek (Process.start env kernel).world
      [] := onCalls_init fixedSizeLlseek _ env
  have hend := onCalls_run hstart hacts
  rw [List.nil_append] at hend
  have honStart : (Process.start env kernel).world.OnLog ⟨log, fun _ => 0⟩ := h.start
  obtain ⟨honLog, hlog⟩ := onLog_run honStart hcalls
  have hfree := hend.serial.free (Option.isNone_iff_eq_none.mp hlock)
  have hlates := honLog.kernelOnLog.lates honLog.short hlate hend.of_session
  rw [hlog, ← hfree] at hlates
  rw [Aesd.Server.serve, List.foldl_append]
  exact hlates

theorem KernelOnLog.serves (h : KernelOnLog kernel log) {lives : List (List Act)}
    (hv : Valid (Server.serve fixedSizeLlseek env) (Serves fixedSizeLlseek env) kernel lives) :
    KernelOnLog (exec (Server.serve fixedSizeLlseek env) kernel lives)
      ((replies (Server.serve fixedSizeLlseek env) kernel lives).flatten.foldl
        LineLog.write log) := by
  induction lives generalizing kernel log with
  | nil => exact h
  | cons acts lives ih =>
    rw [replies_cons, List.flatten_cons, List.foldl_append]
    exact ih (h.serve hv.1) hv.2

end Lives

/-- **Packets outlive their servers.** One server after another on the device, with its sessions
in the driver statement by statement, and each over at any moment: the device holds the end of
what all of them wrote, packet behind packet as the calls came back, also those that came back
when their server was over; if every packet has a newline, it holds the last ten packets, each as
one command. -/
theorem packets_outlive_servers
    (fixedSizeLlseek : File → Int64 → Int32 → Int64 → Int64 × File) (env : Env)
    (lives : List (List Act))
    (h : Valid (serve fixedSizeLlseek env) (Serves fixedSizeLlseek env) .init lives) :
    let kernel := exec (serve fixedSizeLlseek env) .init lives
    let packets := (replies (serve fixedSizeLlseek env) .init lives).flatten
    kernel.commands.flatten ++ kernel.pending <:+ packets.flatten ∧
      ((∀ packet ∈ packets, newline ∈ packet) →
        kernel.commands = packets.rtake 10 ∧ kernel.pending = []) := by
  intro kernel packets
  have hend := KernelOnLog.serves ⟨refines_init, rfl, not_lost_init⟩ h
  exact whole_of_refines hend.refines hend.kept

/-- A server that ends during a write, and a second one. -/
def twoLives : List (List Act) :=
  [exitDuringWrite, List.replicate 3 (.next 0 (client [98, 10] 2)) ++ [.enter 0] ++
    List.replicate 6 (.work 0) ++ [.unlock 0]]

theorem packets_outlive_servers_twoLives :
    let serve := serve integerLlseek (answer .closed)
    (exec serve .init twoLives).commands = (replies serve .init twoLives).flatten.rtake 10 ∧
      (exec serve .init twoLives).pending = [] :=
  (packets_outlive_servers integerLlseek (answer .closed) twoLives (by decide +kernel)).2
    (by decide +kernel)

/-- The line of the server that had ended is the first of the two. -/
example : (exec (serve integerLlseek (answer .closed)) .init twoLives).commands =
    [[97, 10], [98, 10]] := by
  decide +kernel

end Aesd.Server
