import Aesd.Module
import Aesd.Server.Concurrent

/-!
# Server after server

One machine over its loads of the module and the servers that run on it one after another.
`exit_safely` removes what is at `file_path`; `creat` of the next server then makes a regular
file there.
-/

namespace Aesd.Server
open BlockHeap StepRuns

inductive Node where
  | missing
  | device
  | regular
  deriving DecidableEq

/-- How a server ends: by a signal that `signal_handler` takes, by one that it does not, or as
a session ends it. -/
inductive Stop where
  | signal
  | killed
  | ending (ending : Ending)
  deriving DecidableEq

/-- The ends that lead through `exit_safely`, with its `remove(file_path)`. -/
def Stop.removes : Stop → Bool
  | .signal | .ending .exitSafely => true
  | .killed | .ending _ => false

def Node.creat : Node → Node
  | .missing => .regular
  | node => node

structure Site where
  system : System
  loaded : Bool
  node : Node

def Site.init : Site := ⟨.init, false, .missing⟩

inductive SiteOp where
  /-- `aesdchar_load`, which stops at an `insmod` that fails. -/
  | load
  /-- `aesdchar_unload`, when no server runs. -/
  | unload
  /-- A server with the calls of its sessions, and its end if these do not end it. -/
  | serve (calls : List (ℕ × Env)) (stop : Stop)

structure Lifetime where
  node : Node
  /-- What it wrote to the driver. -/
  packets : List (List UInt8)
  removed : Bool

/-- Sessions on a regular file make no call of the driver. -/
def Site.step (s : Site) : SiteOp → Option Lifetime × Site
  | .load =>
    if s.loaded then (none, s)
    else (none, ⟨{ s.system with kernel.device := ⟨.init, .zero⟩ }, true, .device⟩)
  | .unload =>
    if s.loaded then
      (none, ⟨{ s.system with kernel.heap := aesdCleanupModule s.system.kernel }, false, .missing⟩)
    else (none, s)
  | .serve calls stop =>
    match s.node.creat with
    | .device =>
      let w := exec World.step (World.init s.system) calls
      let removed := ((w.ended.map Stop.ending).getD stop).removes
      (some ⟨.device, packetsIn (World.init s.system) calls, removed⟩,
        { s with system := w.system, node := if removed then .missing else .device })
    | node =>
      (some ⟨node, [], stop.removes⟩, { s with node := if stop.removes then .missing else node })

/-- The calls of a server on the device are those of its sessions. -/
def SiteOp.Enabled (s : Site) : SiteOp → Prop
  | .serve calls _ => s.node = .device → Valid World.step World.Enabled (World.init s.system) calls
  | _ => True

instance SiteOp.decidableEnabled (s : Site) : (op : SiteOp) → Decidable (op.Enabled s)
  | .serve .. => inferInstanceAs (Decidable (_ → _))
  | .load | .unload => isTrue trivial

/-- The loaded device is that of a log, and no file has a position before or far behind the
text. -/
structure Site.Sound (s : Site) : Prop where
  heap : s.system.kernel.heap.Sound
  pos : ∀ file, 0 ≤ s.system.fPos file ∧ (s.system.fPos file).toNatClampNeg ≤ 2 ^ 36
  onLog : s.loaded = true → ∃ d, (World.init s.system).OnLog d
  node : s.node = .device → s.loaded = true

section Site

variable {s : Site} {w : World} {d : LogDevice}

theorem World.OnLog.restart (h : w.OnLog d) : (World.init w.system).OnLog d where
  inv := inv_init h.inv.device
  short := onLog_init.short
  represents := h.represents
  kept := h.kept
  pos_le := h.pos_le

theorem Site.Sound.fresh (h : s.Sound) :
    (World.init { s.system with kernel.device := ⟨.init, .zero⟩ }).OnLog
      ⟨.empty, fun file => (s.system.fPos file).toNatClampNeg⟩ where
  inv := inv_init ⟨owned_fresh h.heap, (refines_fresh h.heap).fits⟩
  short := onLog_init.short
  represents := ⟨refines_fresh h.heap, rfl, fun file => (h.pos file).1, fun _ => rfl⟩
  kept hlost := hlost.2 rfl
  pos_le file := (h.pos file).2

theorem sound_site_init : Site.init.Sound where
  heap := Heap.sound_empty
  pos _ := ⟨Int64.le_refl 0, Nat.zero_le _⟩
  onLog hl := by cases hl
  node hn := by cases hn

theorem serve_device (h : (World.init s.system).OnLog d) {calls : List (ℕ × Env)}
    (hv : Valid World.step World.Enabled (World.init s.system) calls) :
    let w := exec World.step (World.init s.system) calls
    ∃ d', (World.init w.system).OnLog d' ∧
      d'.log = (packetsIn (World.init s.system) calls).foldl LineLog.write d.log := by
  intro w
  obtain ⟨hend, hlog⟩ := onLog_run h hv
  exact ⟨_, hend.restart, hlog⟩

theorem Site.Sound.of_onLog (h : (World.init s.system).OnLog d) (hl : s.loaded = true) :
    s.Sound where
  heap := h.represents.refines.owned.sound
  pos file := ⟨h.represents.nonneg file, (h.represents.pos_eq file).trans_le (h.pos_le file)⟩
  onLog _ := ⟨d, h⟩
  node _ := hl

theorem Site.Sound.step (h : s.Sound) {op : SiteOp} (ho : op.Enabled s) : (s.step op).2.Sound := by
  cases op with
  | load =>
    rw [Site.step]
    split_ifs
    · exact h
    · exact .of_onLog h.fresh rfl
  | unload =>
    rw [Site.step]
    split_ifs with hl
    · obtain ⟨d, hd⟩ := h.onLog hl
      refine ⟨sound_cleanup hd.represents.refines.owned, h.pos, ?_, ?_⟩
      · intro hl
        cases hl
      · intro hn
        cases hn
    · exact h
  | serve calls stop =>
    cases hn : s.node with
    | device =>
      have hl := h.node hn
      obtain ⟨d, hd⟩ := h.onLog hl
      obtain ⟨d', hd', -⟩ := serve_device hd (ho hn)
      simp only [Site.step, hn, Node.creat]
      exact .of_onLog hd' hl
    | missing | regular =>
      simp only [Site.step, hn, Node.creat]
      refine ⟨h.heap, h.pos, h.onLog, ?_⟩
      intro hdevice
      split_ifs at hdevice

/-- After a load: the log holds what the servers since then have written to it, and the device
is in its place as long as none of them has removed it. -/
structure Serving (s : Site) (lives : List Lifetime) : Prop where
  loaded : s.loaded = true
  onLog : ∃ d, (World.init s.system).OnLog d ∧
    d.log = (lives.flatMap Lifetime.packets).foldl LineLog.write .empty
  node_iff : s.node = .device ↔ ∀ l ∈ lives, l.removed = false
  device_iff : ∀ early l late, lives = early ++ l :: late →
    (l.node = .device ↔ ∀ l' ∈ early, l'.removed = false) ∧ (l.node ≠ .device → l.packets = [])

theorem serving_load (h : s.Sound) (hl : s.loaded = false) : Serving (s.step .load).2 [] := by
  rw [Site.step, if_neg (by simp [hl])]
  exact ⟨rfl, ⟨_, h.fresh, rfl⟩, by simp, by simp⟩

theorem Serving.snoc {lives : List Lifetime} (h : Serving s lives) {s' : Site} {l : Lifetime}
    (hloaded : s'.loaded = true)
    (honLog : ∀ d, (World.init s.system).OnLog d →
      ∃ d', (World.init s'.system).OnLog d' ∧ d'.log = l.packets.foldl LineLog.write d.log)
    (hnode : s'.node = .device ↔ s.node = .device ∧ l.removed = false)
    (hdevice : l.node = .device ↔ s.node = .device) (hpackets : l.node ≠ .device → l.packets = []) :
    Serving s' (lives ++ [l]) where
  loaded := hloaded
  onLog := by
    obtain ⟨d, hd, hlog⟩ := h.onLog
    obtain ⟨d', hd', hlog'⟩ := honLog d hd
    refine ⟨d', hd', ?_⟩
    rw [hlog', hlog, List.flatMap_append, List.foldl_append, List.flatMap_singleton]
  node_iff := by
    rw [hnode, h.node_iff, List.forall_mem_append, List.forall_mem_singleton]
  device_iff := by
    intro early l' late heq
    rcases List.eq_nil_or_concat late with rfl | ⟨late', last, rfl⟩
    · obtain ⟨rfl, hlast⟩ := List.append_inj' heq rfl
      obtain rfl := List.singleton_inj.mp hlast
      exact ⟨hdevice.trans h.node_iff, hpackets⟩
    · rw [List.concat_eq_append, ← List.cons_append, ← List.append_assoc] at heq
      exact h.device_iff early l' late' (List.append_inj' heq rfl).1

theorem serving_step {lives : List Lifetime} (h : Serving s lives) {calls : List (ℕ × Env)}
    {stop : Stop} (ho : (SiteOp.serve calls stop).Enabled s) :
    Serving (s.step (.serve calls stop)).2 (lives ++ (s.step (.serve calls stop)).1.toList) := by
  cases hn : s.node with
  | device =>
    simp only [Site.step, hn, Node.creat, Option.toList_some]
    refine h.snoc h.loaded (fun d hd => serve_device hd (ho hn)) ?_ (by simp [hn]) (by simp)
    simp [hn]
  | missing | regular =>
    simp only [Site.step, hn, Node.creat, Option.toList_some]
    refine h.snoc h.loaded (fun d hd => ⟨d, hd, rfl⟩) ?_ (by simp [hn]) (fun _ => rfl)
    simp only [hn]
    split_ifs <;> simp

def livesIn (s : Site) (ops : List SiteOp) : List Lifetime :=
  along (fun s op => (s.step op).1.toList) Site.step s ops

theorem serving_run {lives : List Lifetime} (h : Serving s lives)
    {servers : List (List (ℕ × Env) × Stop)}
    (hv : Valid Site.step SiteOp.Enabled s (servers.map fun p => .serve p.1 p.2)) :
    Serving (exec Site.step s (servers.map fun p => .serve p.1 p.2))
      (lives ++ livesIn s (servers.map fun p => .serve p.1 p.2)) := by
  induction servers generalizing s lives with
  | nil =>
    rw [livesIn, List.map_nil, along_nil, List.append_nil]
    exact h
  | cons p servers ih =>
    rw [List.map_cons, livesIn, along_cons, ← List.append_assoc]
    exact ih (serving_step h hv.1) hv.2

end Site

/-- **The device until it is removed.** In any history of loads, unloads and servers, after a
load: a server works on the device exactly when no server before it has ended through
`exit_safely`, and writes nothing to it otherwise; and the device holds the end of what the
servers since the load have written to it, packet behind packet across restarts. -/
theorem device_until_removed (before : List SiteOp) (servers : List (List (ℕ × Env) × Stop))
    (h : Valid Site.step SiteOp.Enabled .init
      (before ++ .load :: servers.map fun p => .serve p.1 p.2))
    (hunloaded : (exec Site.step .init before).loaded = false) :
    let start := exec Site.step .init (before ++ [.load])
    let lives := livesIn start (servers.map fun p => .serve p.1 p.2)
    let kernel := (exec Site.step start (servers.map fun p => .serve p.1 p.2)).system.kernel
    let packets := lives.flatMap Lifetime.packets
    (∀ early l late, lives = early ++ l :: late →
      (l.node = .device ↔ ∀ l' ∈ early, l'.removed = false) ∧ (l.node ≠ .device → l.packets = [])) ∧
    kernel.commands.flatten ++ kernel.pending <:+ packets.flatten ∧
    ((∀ packet ∈ packets, newline ∈ packet) →
      kernel.commands = packets.rtake 10 ∧ kernel.pending = []) := by
  intro start lives kernel packets
  obtain ⟨hbefore, -, hservers⟩ := (valid_append _ _ _).mp h
  have hsound : (exec Site.step .init before).Sound :=
    exec_invariant Site.Sound (fun s op hs ho => hs.step ho) sound_site_init hbefore
  have hstart : start = ((exec Site.step .init before).step .load).2 := exec_concat ..
  have hserving := serving_run (serving_load hsound hunloaded) hservers
  rw [← hstart, List.nil_append] at hserving
  obtain ⟨d, hd, hlog⟩ := hserving.onLog
  exact ⟨hserving.device_iff, hd.whole hlog⟩

/-- The first server is stopped, and the second one finds no device. -/
def twoServers : List (List (ℕ × Env) × Stop) :=
  [(twoClients ++ [(0, client [] 1), (1, client [] 2)], .signal),
    (twoClients ++ [(0, client [] 1), (1, client [] 2)], .killed)]

theorem device_until_removed_twoServers :
    let start := exec Site.step .init ([.load, .serve [] .signal, .unload] ++ [.load])
    let servers := twoServers.map fun p => SiteOp.serve p.1 p.2
    (exec Site.step start servers).system.kernel.commands =
      ((livesIn start servers).flatMap Lifetime.packets).rtake 10 :=
  ((device_until_removed [.load, .serve [] .signal, .unload] twoServers
    (by decide +kernel) (by decide +kernel)).2.2 (by decide +kernel)).1

example : (livesIn (exec Site.step .init [.load]) (twoServers.map fun p => .serve p.1 p.2)).map
    Lifetime.node = [.device, .regular] := by decide +kernel

end Aesd.Server
