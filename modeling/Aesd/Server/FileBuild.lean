import Aesd.Server.Echo

/-!
# The two builds of the server

`thread_func` from its `open` on, for a packet that is not a seek command, over what the
build has at `file_path`: the character device or a regular file.
-/

namespace Aesd.Server
open CString StepRuns

/-- An assembled string in memory that ends with a newline and is not a seek command. -/
structure Packet where
  bytes : List UInt8
  zero_notMem : 0 ∉ bytes
  length_lt : bytes.length < 2 ^ 64
  getLast_eq : bytes.getLast? = some newline
  not_seek : ¬ seekPrefix <+: bytes

/-- A session with the number of its `data_file`. -/
structure Session where
  file : ℕ
  packet : Packet
  env : Env

/-- The calls on `data_file`. A write gives its return value, a read also the bytes. -/
structure Store (S : Type*) where
  openFile : S → ℕ → S
  write : S → ℕ → Env → List UInt8 → ℤ × S
  read : S → ℕ → Env → ℤ × List UInt8 × S

namespace Store

variable {S : Type*} (store : Store S)

/-- The read loop, up to the first `read` that brings nothing or fails. -/
def readLoop (k : ℕ) (env : Env) : ℕ → S → Option (List (List UInt8) × S)
  | 0, _ => none
  | fuel + 1, s =>
    let (readResult, bytes, s) := store.read s k env
    if readResult ≤ 0 then some ([], s)
    else (readLoop k env fuel s).map fun out => (bytes :: out.1, out.2)

def written (s : S) (l : Session) : ℤ × S :=
  store.write (store.openFile s l.file) l.file l.env l.packet.bytes

/-- `thread_func` behind its receive loop; the answer is what the reads bring. -/
def session (fuel : ℕ) (s : S) (l : Session) : Option (List UInt8) × S :=
  let (writeResult, s) := store.written s l
  if writeResult < 0 then (none, s)
  else
    match store.readLoop l.file l.env fuel s with
    | none => (none, s)
    | some (reads, s) => (some reads.flatten, s)

/-- While `Inv` holds, a read takes the next piece of the `rest`, and nothing only at its end. -/
structure Sequential (k : ℕ) (env : Env) (Inv : S → Prop) (rest : S → List UInt8) : Prop where
  result_eq : ∀ s, Inv s → (store.read s k env).1 = (store.read s k env).2.1.length
  append_rest : ∀ s, Inv s → (store.read s k env).2.1 ++ rest (store.read s k env).2.2 = rest s
  rest_eq_nil : ∀ s, Inv s → (store.read s k env).2.1 = [] → rest s = []
  inv_read : ∀ s, Inv s → Inv (store.read s k env).2.2

section Sequential

variable {store} {k : ℕ} {env : Env} {Inv : S → Prop} {rest : S → List UInt8} {s : S} {fuel : ℕ}

theorem readLoop_of_sequential (h : store.Sequential k env Inv rest) (hs : Inv s)
    (hfuel : (rest s).length < fuel) :
    ∃ reads s', store.readLoop k env fuel s = some (reads, s') ∧ reads.flatten = rest s ∧ Inv s' := by
  induction fuel generalizing s with
  | zero => exact absurd hfuel (Nat.not_lt_zero _)
  | succ fuel ih =>
    have hresult := h.result_eq s hs
    have happend := h.append_rest s hs
    simp only [readLoop]
    -- a piece makes the rest shorter, so the fuel suffices for the rest of the loop
    by_cases hnil : (store.read s k env).2.1 = []
    · have hstop : (store.read s k env).1 ≤ 0 := by simp [hresult, hnil]
      rw [if_pos hstop]
      exact ⟨[], _, rfl, (h.rest_eq_nil s hs hnil).symm, h.inv_read s hs⟩
    · have hpos : 0 < (store.read s k env).2.1.length := List.length_pos_iff.mpr hnil
      have hgo : ¬ (store.read s k env).1 ≤ 0 := by
        rw [hresult]
        omega
      have hlen := congrArg List.length happend
      rw [List.length_append] at hlen
      obtain ⟨reads, s', hloop, hflat, hs'⟩ := ih (h.inv_read s hs) (by omega)
      rw [if_neg hgo, hloop]
      refine ⟨_, s', rfl, ?_, hs'⟩
      rw [List.flatten_cons, hflat, happend]

theorem session_of_sequential {l : Session} (h : store.Sequential l.file l.env Inv rest)
    (hret : 0 ≤ (store.written s l).1) (hs : Inv (store.written s l).2)
    (hfuel : (rest (store.written s l).2).length < fuel) :
    (store.session fuel s l).1 = some (rest (store.written s l).2) ∧
      Inv (store.session fuel s l).2 := by
  obtain ⟨reads, s', hloop, hflat, hs'⟩ := readLoop_of_sequential h hs hfuel
  simp only [session, if_neg (not_lt.mpr hret), hloop]
  exact ⟨congrArg some hflat, hs'⟩

end Sequential

end Store

def device : Store System where
  openFile s k := { s with fPos := Function.update s.fPos k 0 }
  write s k env str :=
    let (reply, s) := s.step (World.writeCall k env str)
    (reply.retval.toInt, s)
  read s k env :=
    let (reply, s) := s.step (World.readCall k env)
    (reply.retval.toInt, reply.bytes, s)

def Session.Ok (s : System) (l : Session) : Prop :=
  (World.writeCall l.file l.env l.packet.bytes).Succeeds s ∧ l.env.interrupted = false

instance (s : System) (l : Session) : Decidable (l.Ok s) := inferInstanceAs (Decidable (_ ∧ _))

/-- The packets that the device has taken in, with nothing pending. -/
def Holds (s : System) (packets : List (List UInt8)) : Prop :=
  ∃ log : CommandLog, (Refines s.kernel log ∧ ¬ s.kernel.Lost) ∧
    log.history = packets ∧ log.pending = []

section Device

variable {s : System} {k : ℕ} {env : Env} {packets : List (List UInt8)}

theorem holds_init : Holds .init [] := ⟨.empty, ⟨refines_init, not_lost_init⟩, rfl, rfl⟩

theorem Holds.commands (h : Holds s packets) (hlen : packets.length ≤ 10) :
    s.kernel.commands = packets := by
  obtain ⟨log, hr, rfl, _⟩ := h
  rw [hr.1.commands, LineLog.stored, List.rtake, Nat.sub_eq_zero_of_le hlen, List.drop_zero]

theorem data_writeCall {l : Session} (hok : l.Ok s) :
    (World.writeCall l.file l.env l.packet.bytes).data = l.packet.bytes := by
  have hcount : (UInt64.ofNat l.packet.bytes.length).toNat = l.packet.bytes.length :=
    UInt64.toNat_ofNat_of_lt' l.packet.length_lt
  have hgrant : ¬ (l.env.write.interrupted = true ∨ l.env.write.grant.block = none) := by
    rw [not_or, hok.1.2.1]
    exact ⟨Bool.false_ne_true, hok.1.2.2.1⟩
  simp only [World.writeCall, Call.data, if_neg hgrant, copied, hcount, List.take_length]

theorem device_written (s : System) (l : Session) :
    device.written s l =
      (((device.openFile s l.file).step
          (World.writeCall l.file l.env l.packet.bytes)).1.retval.toInt,
        ((device.openFile s l.file).step (World.writeCall l.file l.env l.packet.bytes)).2) := rfl

theorem fPos_writeCall (s : System) (k : ℕ) (env : Env) (str : List UInt8) :
    (s.step (World.writeCall k env str)).2.fPos = s.fPos := rfl

theorem Holds.written (h : Holds s packets) {l : Session} (hok : l.Ok s) :
    0 ≤ (device.written s l).1 ∧
      Holds (device.written s l).2 (packets ++ [l.packet.bytes]) ∧
      (device.written s l).2.fPos l.file = 0 := by
  obtain ⟨log, hr, rfl, hpending⟩ := h
  have hsucceeds : (World.writeCall l.file l.env l.packet.bytes).Succeeds
      (device.openFile s l.file) := hok.1
  have hret := retval_of_succeeds hsucceeds
  have hstep := @succeeds_step (device.openFile s l.file) _ _ hr hsucceeds
  rw [data_writeCall hok] at hret hstep
  have hmem : newline ∈ log.pending ++ l.packet.bytes :=
    List.mem_append_right _ (List.mem_of_getLast? l.packet.getLast_eq)
  obtain ⟨hhistory, hnone⟩ := LineLog.write_of_mem hmem
  rw [hpending, List.nil_append] at hhistory
  rw [device_written, fPos_writeCall]
  refine ⟨?_, ⟨_, hstep, hhistory, hnone⟩, Function.update_self _ _ _⟩
  rw [hret]
  exact Int.natCast_nonneg _

theorem device_sequential {kernel : Kernel} (ho : kernel.Owned) (hf : kernel.Fits)
    (hi : env.interrupted = false) :
    device.Sequential k env (fun s => s.kernel = kernel ∧ 0 ≤ s.fPos k)
      (fun s => s.kernel.commands.flatten.drop (s.fPos k).toNatClampNeg) := by
  have hread : (World.readCall k env).CompleteRead k := ⟨rfl, by decide, ⟨_, rfl, by decide⟩, hi⟩
  have hcount : 0 < (World.readCall k env).count := show 0 < (UInt64.ofNat bufferSize).toNat by decide
  refine ⟨?_, ?_, ?_, ?_⟩
  · rintro s ⟨rfl, hp⟩
    obtain ⟨hbytes, hret, _⟩ := read_step ho hf hp hread
    exact hret.trans (congrArg (fun b : List UInt8 => (b.length : ℤ)) hbytes.symm)
  · rintro s ⟨rfl, hp⟩
    obtain ⟨hbytes, _, hkernel, _, hpos⟩ := read_step ho hf hp hread
    change (s.step (World.readCall k env)).1.bytes ++
      (s.step (World.readCall k env)).2.kernel.commands.flatten.drop
        ((s.step (World.readCall k env)).2.fPos k).toNatClampNeg = _
    rw [hbytes, hkernel, hpos]
    exact Segments.readAt_append_drop _ _ _
  · rintro s ⟨rfl, hp⟩ hnil
    obtain ⟨hbytes, _⟩ := read_step ho hf hp hread
    exact List.drop_of_length_le ((Segments.readAt_eq_nil hcount).mp (hbytes.symm.trans hnil))
  · rintro s ⟨rfl, hp⟩
    obtain ⟨_, _, hkernel, hp', _⟩ := read_step ho hf hp hread
    exact ⟨hkernel, hp'⟩

theorem device_session {l : Session} {fuel : ℕ} (h : Holds s packets) (hok : l.Ok s)
    (hlen : packets.length < 10) (hfuel : (packets.flatten ++ l.packet.bytes).length < fuel) :
    (device.session fuel s l).1 = some (packets.flatten ++ l.packet.bytes) ∧
      Holds (device.session fuel s l).2 (packets ++ [l.packet.bytes]) := by
  obtain ⟨hret, hholds, hpos⟩ := h.written hok
  have hcommands := hholds.commands (by rw [List.length_append, List.length_singleton]; omega)
  have hrest := hholds
  obtain ⟨log, ⟨hr, _⟩, _⟩ := hrest
  have hflat : (packets ++ [l.packet.bytes]).flatten = packets.flatten ++ l.packet.bytes := by simp
  rw [← hflat] at hfuel ⊢
  have hnonneg : 0 ≤ (device.written s l).2.fPos l.file := by
    rw [hpos]
    exact Int64.le_refl _
  have hsession := @Store.session_of_sequential _ device _ _ s fuel l
    (device_sequential hr.owned hr.fits hok.2) hret ⟨rfl, hnonneg⟩ (by
      rw [hcommands, hpos]
      exact hfuel)
  rw [hcommands, hpos] at hsession
  refine ⟨hsession.1, ?_⟩
  obtain ⟨log, hlog⟩ := hholds
  refine ⟨log, ?_⟩
  rw [hsession.2.1]
  exact hlog

/-- The pieces that the loop brings are those of a session thread in its echo loop. -/
theorem delivers_of_readLoop {fuel : ℕ} {reads : List (List UInt8)} {s' : System}
    (h : device.readLoop k env fuel s = some (reads, s')) : Delivers k env s reads := by
  induction fuel generalizing s reads with
  | zero => cases h
  | succ fuel ih =>
    have hle : (device.read s k env).1 ≤ 0 ↔ (s.step (World.readCall k env)).1.retval ≤ 0 := by
      rw [Int64.le_iff_toInt_le]
      rfl
    simp only [Store.readLoop] at h
    by_cases hstop : (device.read s k env).1 ≤ 0
    · rw [if_pos hstop] at h
      obtain ⟨rfl, _⟩ := Prod.mk.inj (Option.some.inj h)
      exact hle.mp hstop
    · rw [if_neg hstop] at h
      obtain ⟨out, hloop, heq⟩ := Option.map_eq_some_iff.mp h
      obtain ⟨rfl, rfl⟩ := Prod.mk.inj heq
      exact ⟨fun hret => hstop (hle.mpr hret), rfl, ih hloop⟩

theorem open_step {w : World} (hw : w.ended = none) (hp : w.phase k = .opening)
    (ho : env.opens = true) :
    (w.step (k, env)).2 = World.goto
      { w with
        system := device.openFile w.system k
        opened := Function.update w.opened k true } k .command := by
  rw [step_running hw]
  simp only [World.threadFunc, hp, World.openFile, ho, if_true]
  rfl

theorem write_step {w : World} {packet : Packet} (hw : w.ended = none) (hp : w.phase k = .command)
    (hb : (w.mem.buffers k).bind string = some packet.bytes)
    (hret : 0 ≤ (device.write w.system k env packet.bytes).1) :
    (w.step (k, env)).2 = World.goto
      { w with system := (device.write w.system k env packet.bytes).2 } k (.echoing clearBuffer) := by
  have hsuccess : ¬ (w.system.step (World.writeCall k env packet.bytes)).1.retval < 0 := by
    rw [Int64.lt_iff_toInt_lt]
    exact not_lt.mpr hret
  rw [step_running hw]
  simp only [World.threadFunc, hp, World.obey, hb, if_neg packet.not_seek, if_neg hsuccess]
  rfl

/-- A session thread with its packet assembled makes the same calls on the device, and sends
what its echo loop gives for these reads. -/
theorem session_in_world {w : World} {l : Session} (hw : w.ended = none)
    (hp : w.phase l.file = .opening)
    (hb : (w.mem.buffers l.file).bind string = some l.packet.bytes) (ho : l.env.opens = true)
    (hreset : l.env.reset = false) (hh : Holds w.system packets) (hok : l.Ok w.system) {fuel : ℕ}
    {reads sends : List (List UInt8)} {s' : System}
    (hloop : device.readLoop l.file l.env fuel (device.written w.system l).2 = some (reads, s'))
    (hsends : echoLoop clearBuffer reads = some sends) :
    let w' := exec World.step w (List.replicate (2 * reads.length + 3) (l.file, l.env))
    w'.ended = none ∧ w'.phase l.file = .closing ∧
      w'.sent l.file = w.sent l.file ++ sends.flatten := by
  have hopen := open_step hw hp ho
  have hwrite := @write_step l.file l.env (w.step (l.file, l.env)).2 l.packet
    (by rw [hopen]; exact hw) (by rw [hopen]; exact Function.update_self _ _ _)
    (by rw [hopen]; exact hb) (by rw [hopen]; exact (hh.written hok).1)
  rw [hopen] at hwrite
  intro w'
  have hsplit : w' = exec World.step ((w.step (l.file, l.env)).2.step (l.file, l.env)).2
      (List.replicate (2 * reads.length + 1) (l.file, l.env)) := rfl
  rw [hsplit, hopen, hwrite]
  exact (echo_run (by exact hw) (Function.update_self _ _ _) hreset
    (delivers_of_readLoop hloop)).2 sends hsends

end Device

structure RegularFile where
  bytes : List UInt8
  /-- The offset of each `data_file`. -/
  offset : ℕ → ℕ

def RegularFile.init : RegularFile := ⟨[], fun _ => 0⟩

/-- Without `USE_AESD_CHAR_DEVICE`. `O_APPEND` puts a write behind all bytes and leaves the
offset there. The lock around the write is free to a session that runs alone. -/
def regularFile : Store RegularFile where
  openFile f k := { f with offset := Function.update f.offset k 0 }
  write f k _ str :=
    (str.length, ⟨f.bytes ++ str, Function.update f.offset k (f.bytes ++ str).length⟩)
  read f k _ :=
    let bytes := (f.bytes.drop (f.offset k)).take bufferSize
    (bytes.length, bytes, { f with offset := Function.update f.offset k (f.offset k + bytes.length) })

theorem regularFile_sequential (k : ℕ) (env : Env) (text : List UInt8) :
    regularFile.Sequential k env (fun f => f.bytes = text)
      (fun f => f.bytes.drop (f.offset k)) where
  result_eq _ _ := rfl
  append_rest f _ := by
    set text := f.bytes.drop (f.offset k) with htext
    obtain ⟨rest, hrest⟩ := List.take_prefix bufferSize text
    calc
      text.take bufferSize ++ f.bytes.drop (Function.update f.offset k
          (f.offset k + (text.take bufferSize).length) k)
        = text.take bufferSize ++ text.drop (text.take bufferSize).length := by
          rw [Function.update_self, ← List.drop_drop]
      _ = text.take bufferSize ++ (text.take bufferSize ++ rest).drop
            (text.take bufferSize).length := by rw [hrest]
      _ = text := by rw [List.drop_left, hrest]
  rest_eq_nil f _ hnil := by
    rcases List.take_eq_nil_iff.mp hnil with hzero | hrest
    · cases hzero
    · exact hrest
  inv_read _ hf := hf

theorem regularFile_session (f : RegularFile) (l : Session) {fuel : ℕ} (hfuel : 0 < fuel) :
    (regularFile.session fuel f l).1 = some [] ∧
      (regularFile.session fuel f l).2.bytes = f.bytes ++ l.packet.bytes := by
  have hrest : ∀ text : List UInt8, text.drop (Function.update
      (regularFile.openFile f l.file).offset l.file text.length l.file) = [] := by
    intro text
    rw [Function.update_self, List.drop_length]
  have hsession := @Store.session_of_sequential _ regularFile _ _ f fuel l
    (regularFile_sequential l.file l.env (f.bytes ++ l.packet.bytes)) (Int.natCast_nonneg _) rfl
    ((congrArg List.length (hrest _)).trans_lt hfuel)
  exact ⟨hsession.1.trans (congrArg some (hrest _)), hsession.2⟩

/-- The text after each packet. -/
def soFar : List UInt8 → List (List UInt8) → List (List UInt8)
  | _, [] => []
  | text, packet :: packets => (text ++ packet) :: soFar (text ++ packet) packets

def packetsOf (sessions : List Session) : List (List UInt8) := sessions.map (·.packet.bytes)

theorem device_run {s : System} {packets : List (List UInt8)} {fuel : ℕ} {sessions : List Session}
    (h : Holds s packets) (hv : Valid (device.session fuel) Session.Ok s sessions)
    (hlen : packets.length + sessions.length ≤ 10)
    (hfuel : (packets ++ packetsOf sessions).flatten.length < fuel) :
    replies (device.session fuel) s sessions =
        (soFar packets.flatten (packetsOf sessions)).map some ∧
      Holds (exec (device.session fuel) s sessions) (packets ++ packetsOf sessions) := by
  induction sessions generalizing s packets with
  | nil => exact ⟨rfl, by simpa [packetsOf] using h⟩
  | cons l sessions ih =>
    rw [List.length_cons] at hlen
    have hflat : (packets ++ [l.packet.bytes]).flatten = packets.flatten ++ l.packet.bytes := by simp
    have hpackets : packets ++ packetsOf (l :: sessions) =
        packets ++ [l.packet.bytes] ++ packetsOf sessions := by simp [packetsOf]
    rw [hpackets] at hfuel ⊢
    have hone : (packets.flatten ++ l.packet.bytes).length < fuel := by
      rw [List.flatten_append, List.length_append, hflat] at hfuel
      omega
    obtain ⟨hanswer, hholds⟩ := device_session h hv.1 (by omega) hone
    obtain ⟨hrest, hend⟩ := ih hholds hv.2
      (by rw [List.length_append, List.length_singleton]; omega) hfuel
    refine ⟨?_, hend⟩
    rw [replies_cons, hanswer, hrest, hflat]
    rfl

theorem regularFile_run (f : RegularFile) (sessions : List Session) {fuel : ℕ} (hfuel : 0 < fuel) :
    replies (regularFile.session fuel) f sessions = sessions.map (fun _ => some []) ∧
      (exec (regularFile.session fuel) f sessions).bytes =
        f.bytes ++ (packetsOf sessions).flatten := by
  induction sessions generalizing f with
  | nil => exact ⟨rfl, by simp [packetsOf]⟩
  | cons l sessions ih =>
    obtain ⟨hanswer, hbytes⟩ := regularFile_session f l hfuel
    obtain ⟨hrest, hend⟩ := ih (regularFile.session fuel f l).2
    refine ⟨?_, ?_⟩
    · rw [replies_cons, hanswer, hrest]
      rfl
    · rw [exec_cons, hend, hbytes, List.append_assoc]
      rfl

/-- **The two builds.** Over the device each session is answered with all packets so far, over
the regular file with nothing, though both store the same text: the builds agree only where
there is no session at all. -/
theorem builds_agree_iff {sessions : List Session} (hlen : sessions.length ≤ 10) {fuel : ℕ}
    (hv : Valid (device.session fuel) Session.Ok .init sessions)
    (hfuel : (packetsOf sessions).flatten.length < fuel) :
    (replies (regularFile.session fuel) .init sessions =
      replies (device.session fuel) .init sessions ↔ sessions = []) ∧
    replies (device.session fuel) .init sessions = (soFar [] (packetsOf sessions)).map some ∧
    replies (regularFile.session fuel) .init sessions = sessions.map (fun _ => some []) ∧
    (exec (regularFile.session fuel) .init sessions).bytes =
      (exec (device.session fuel) .init sessions).kernel.commands.flatten := by
  have hpackets : (packetsOf sessions).length ≤ 10 := by rwa [packetsOf, List.length_map]
  obtain ⟨hdevice, hholds⟩ := device_run holds_init hv (by simpa using hlen) hfuel
  obtain ⟨hfile, hbytes⟩ := regularFile_run .init sessions (Nat.zero_lt_of_lt hfuel)
  refine ⟨?_, hdevice, hfile, ?_⟩
  · rw [hdevice, hfile]
    cases sessions with
    | nil => exact ⟨fun _ => rfl, fun _ => rfl⟩
    | cons l sessions =>
      -- the first packet is not empty
      have hne : l.packet.bytes ≠ [] := by
        intro hnil
        have hlast := l.packet.getLast_eq
        rw [hnil] at hlast
        cases hlast
      refine ⟨fun heq => ?_, fun hnil => absurd hnil (List.cons_ne_nil _ _)⟩
      have hhead := Option.some.inj (List.cons.inj heq).1
      exact absurd hhead.symm hne
  · rw [hbytes, hholds.commands hpackets]
    rfl

def letterPacket : Packet := ⟨[97, 10], by decide, by decide, rfl, by decide⟩

def letterSessions : List Session :=
  [⟨0, letterPacket, answer .closed⟩,
    ⟨1, letterPacket, { answer .closed with write := grantOf 2 }⟩]

theorem builds_agree_iff_letters :
    replies (device.session 5) .init letterSessions = [some [97, 10], some [97, 10, 97, 10]] :=
  (@builds_agree_iff letterSessions (by decide) 5 (by decide) (by decide)).2.1

/-- One session is answered over the device only. -/
theorem builds_disagree : ¬ ∀ (sessions : List Session) (fuel : ℕ), sessions.length ≤ 10 →
    Valid (device.session fuel) Session.Ok .init sessions →
    (packetsOf sessions).flatten.length < fuel →
    replies (regularFile.session fuel) .init sessions =
      replies (device.session fuel) .init sessions := by
  intro h
  have hsame := h [⟨0, letterPacket, answer .closed⟩] 3 (by decide) (by decide) (by decide)
  revert hsame
  decide

end Aesd.Server
