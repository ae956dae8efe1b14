import Aesd.Lib.SList
import Aesd.Server.AcceptLoop

/-!
# The session list in memory

The accept loop on the nodes themselves: `malloc` may hand out the address of a freed node
again, the list is what the `SLIST` macros leave in the nodes, and a thread has the address
of its own. It refines the loop on numbered sessions.
-/

namespace Aesd.Server
open StepRuns

variable {A : Type*}

/-- `struct thread_data`; a `pthread_t` is the number of the thread. -/
structure ThreadData where
  threadId : ℕ
  clientSocket : Int32
  threadComplete : Bool

/-- The place in the loop, with `connection_data`. -/
inductive Place (A : Type*) where
  | accepting
  | inserted (a : A)
  | initialised (a : A)
  | scanning (connectionData : Option A)
  | found (a : A)
  deriving DecidableEq

structure NodeState (A : Type*) where
  /-- `head` and the `entries` of the allocated nodes. -/
  list : SList A
  /-- Their `connection_data_node`. -/
  data : A → Option ThreadData
  /-- What `accept` has returned; the last is in `client_socket`. -/
  accepted : List Int32
  clientSocket : Int32
  /-- The number of threads created. -/
  created : ℕ
  thread : ℕ → Thread
  /-- `thread_func_args`. -/
  args : ℕ → Option A
  /-- The threads given to `pthread_join`. -/
  joined : List ℕ
  place : Place A

def NodeState.init : NodeState A :=
  ⟨⟨none, fun _ => none⟩, fun _ => none, [], 0, 0, fun _ => .absent, fun _ => none, [], .accepting⟩

inductive NodeAction (A : Type*) where
  /-- `accept`, `malloc` and `SLIST_INSERT_HEAD`; the node at `a` holds anything. -/
  | insert (socket : Int32) (a : A) (data : ThreadData) (next : Option A)
  | initialise (a : A)
  | create (a : A)
  | check (connectionData : Option A)
  /-- `pthread_join`, `SLIST_REMOVE` and `free`. -/
  | reap (a : A)
  | access (n : ℕ)
  | complete (n : ℕ)
  | finish (n : ℕ)

/-- What a step shows: the socket a thread reads, or an access outside the allocated nodes. -/
inductive Seen where
  | nothing
  | socket (socket : Int32)
  | fault
  deriving DecidableEq

namespace NodeState

variable [DecidableEq A] (c : NodeState A)

def setData (a : A) (d : ThreadData) : NodeState A :=
  { c with data := Function.update c.data a (some d) }

/-- `SLIST_REMOVE` passes each node once, so it takes no more turns than threads were created. -/
def reap (a : A) : Option (NodeState A) :=
  (c.data a).bind fun d => (c.list.remove c.created a).map fun list =>
    { c with
      joined := c.joined ++ [d.threadId]
      list := list.free a
      data := Function.update c.data a none
      place := .accepting }

/-- A step that has a result, and what the thread reads in it. -/
def next : NodeAction A → Option (NodeState A × Option Int32)
  | .insert socket a data junk =>
    ((c.list.malloc a junk).insertHead a).map fun list =>
      ({ c with
        list := list
        data := Function.update c.data a (some data)
        accepted := c.accepted ++ [socket]
        clientSocket := socket
        place := .inserted a }, none)
  | .initialise a => (c.data a).map fun d =>
    ({ c.setData a { d with clientSocket := c.clientSocket, threadComplete := false } with
      place := .initialised a }, none)
  | .create a => (c.data a).map fun d =>
    ({ c.setData a { d with threadId := c.created } with
      created := c.created + 1
      thread := Function.update c.thread c.created .running
      args := Function.update c.args c.created (some a)
      place := .scanning c.list.first }, none)
  | .check none => some ({ c with place := .accepting }, none)
  | .check (some a) => (c.data a).bind fun d => (c.list.next a).map fun p =>
    ({ c with place := if d.threadComplete then .found a else .scanning p }, none)
  | .reap a => (c.reap a).map fun c => (c, none)
  | .access n => ((c.args n).bind c.data).map fun d => (c, some d.clientSocket)
  | .complete n => (c.args n).bind fun a => (c.data a).map fun d =>
      ({ c.setData a { d with threadComplete := true } with
        thread := Function.update c.thread n .complete }, none)
  | .finish n => some ({ c with thread := Function.update c.thread n .exited }, none)

def step (e : NodeAction A) : Seen × NodeState A :=
  match c.next e with
  | none => (.fault, c)
  | some (c, none) => (.nothing, c)
  | some (c, some socket) => (.socket socket, c)

/-- `malloc` hands out an address that is not in use; `pthread_join` waits for the thread whose
number is in the node. -/
def Enabled : NodeAction A → Prop
  | .insert _ a _ _ => c.place = .accepting ∧ c.data a = none
  | .initialise a => c.place = .inserted a
  | .create a => c.place = .initialised a
  | .check connectionData => c.place = .scanning connectionData
  | .reap a => c.place = .found a ∧ (c.data a).all fun d => c.thread d.threadId = .exited
  | .access n | .complete n => c.thread n = .running
  | .finish n => c.thread n = .complete

instance : (e : NodeAction A) → Decidable (c.Enabled e)
  | .insert .. | .reap _ => inferInstanceAs (Decidable (_ ∧ _))
  | .initialise _ | .create _ | .check _ | .access _ | .complete _ | .finish _ =>
    inferInstanceAs (Decidable (_ = _))

end NodeState

def Loop.at (addr : ℕ → A) : Loop → Place A
  | .accepting => .accepting
  | .inserted n => .inserted (addr n)
  | .initialised n => .initialised (addr n)
  | .scanning cursor => .scanning (cursor.map addr)
  | .found n => .found (addr n)

/-- The nodes are those of the listed sessions; `addr` has their addresses. -/
structure Stands (c : NodeState A) (s : State) (addr : ℕ → A) : Prop where
  tracked : s.Tracked
  thread : c.thread = s.thread
  joined : c.joined = s.joined
  created : c.created = s.loop.starting.getD s.sessions
  accepted : c.accepted.length = s.sessions
  place : c.place = s.loop.at addr
  holds : c.list.Holds (s.head.map addr)
  nodup : (s.head.map addr).Nodup
  allocated : ∀ a, c.data a = none ↔ a ∉ s.head.map addr
  same : ∀ a, c.list.next a = none ↔ c.data a = none
  socket : ∀ n, s.loop = .inserted n → c.accepted[n]? = some c.clientSocket
  data : ∀ n ∈ s.head, ∃ d, c.data (addr n) = some d ∧ d.threadComplete = s.threadComplete n ∧
    (s.thread n ≠ .absent → d.threadId = n ∧ c.args n = some (addr n)) ∧
    (s.loop ≠ .inserted n → c.accepted[n]? = some d.clientSocket)

theorem stands_init [Inhabited A] : Stands (.init : NodeState A) .init fun _ => default where
  tracked := tracked_init
  thread := rfl
  joined := rfl
  created := rfl
  accepted := rfl
  place := rfl
  holds := .nil
  nodup := List.nodup_nil
  allocated := by simp [NodeState.init, State.init]
  same := by simp [NodeState.init]
  socket := by simp [State.init]
  data := by simp [State.init]

section Place

variable {addr : ℕ → A} {l : Loop} {a : A}

theorem at_accepting (h : l.at addr = .accepting) : l = .accepting := by
  cases l with
  | accepting => rfl
  | _ => cases h

theorem at_inserted (h : l.at addr = .inserted a) : ∃ n, l = .inserted n ∧ addr n = a := by
  cases l with
  | inserted n => exact ⟨n, rfl, Place.inserted.inj h⟩
  | _ => cases h

theorem at_initialised (h : l.at addr = .initialised a) :
    ∃ n, l = .initialised n ∧ addr n = a := by
  cases l with
  | initialised n => exact ⟨n, rfl, Place.initialised.inj h⟩
  | _ => cases h

theorem at_scanning {p : Option A} (h : l.at addr = .scanning p) :
    ∃ cursor, l = .scanning cursor ∧ cursor.map addr = p := by
  cases l with
  | scanning cursor => exact ⟨cursor, rfl, Place.scanning.inj h⟩
  | _ => cases h

theorem at_found (h : l.at addr = .found a) : ∃ n, l = .found n ∧ addr n = a := by
  cases l with
  | found n => exact ⟨n, rfl, Place.found.inj h⟩
  | _ => cases h

end Place

section Listed

variable {c : NodeState A} {s : State} {addr : ℕ → A} {n : ℕ}

theorem Stands.addr_ne (h : Stands c s addr) (hn : n ∈ s.head) {m : ℕ} (hm : m ∈ s.head)
    (hne : m ≠ n) : addr m ≠ addr n :=
  fun heq => hne (List.inj_on_of_nodup_map h.nodup hm hn heq)

theorem Stands.listed (h : Stands c s addr) (hlt : n < s.sessions) (hn : s.thread n ≠ .exited) :
    n ∈ s.head :=
  (h.tracked.mem_head n).mpr ⟨hlt, h.tracked.notMem_joined hn⟩

theorem Stands.listed_of_thread (h : Stands c s addr) (hn : s.thread n ≠ .absent)
    (hn' : s.thread n ≠ .exited) : n ∈ s.head := by
  apply h.listed _ hn'
  by_contra hge
  exact hn ((h.tracked.absent_iff n).mpr (.inl (Nat.not_lt.mp hge)))

theorem Stands.listed_starting (h : Stands c s addr) (hn : s.loop.starting = some n)
    (hlast : n + 1 = s.sessions) : n ∈ s.head ∧ s.thread n = .absent := by
  have habsent := h.tracked.starting hn
  exact ⟨h.listed (by omega) (by simp [habsent]), habsent⟩

theorem Stands.next_eq (h : Stands c s addr) (hn : n ∈ s.head) :
    c.list.next (addr n) = some ((slistNext s.head n).map addr) := by
  obtain ⟨front, rest, hhead⟩ := List.append_of_mem hn
  have hnodup := h.tracked.nodup
  have hholds := h.holds
  rw [hhead] at hnodup hholds ⊢
  have hfront : n ∉ front := fun hm => (List.nodup_append.mp hnodup).2.2 n hm n (by simp) rfl
  rw [List.map_append, List.map_cons] at hholds
  rw [slistNext_append hfront, ← List.head?_map]
  exact SList.Path.next_eq hholds

theorem Stands.own (h : Stands c s addr) (hrun : c.thread n = .running) :
    n ∈ s.head ∧ c.args n = some (addr n) ∧ ∃ d, c.data (addr n) = some d ∧ d.threadId = n ∧
      c.accepted[n]? = some d.clientSocket := by
  rw [h.thread] at hrun
  have hn := h.listed_of_thread (n := n) (by simp [hrun]) (by simp [hrun])
  obtain ⟨d, hd, -, hthread, hsocket⟩ := h.data n hn
  obtain ⟨hid, hargs⟩ := hthread (by simp [hrun])
  refine ⟨hn, hargs, d, hd, hid, hsocket fun hl => ?_⟩
  have habsent := h.tracked.starting (n := n) (by rw [hl]; rfl)
  rw [hrun] at habsent
  cases habsent

variable [DecidableEq A]

/-- Writing to a listed node allocates nothing. -/
theorem Stands.setData_none (h : Stands c s addr) (hn : n ∈ s.head) (d : ThreadData) (a : A) :
    (c.setData (addr n) d).data a = none ↔ c.data a = none := by
  obtain ⟨d', hd', -⟩ := h.data n hn
  by_cases ha : a = addr n
  · subst ha
    simp [NodeState.setData, hd']
  · simp [NodeState.setData, ha]

theorem Stands.setData_ne (h : Stands c s addr) (hn : n ∈ s.head) {m : ℕ} (hm : m ∈ s.head)
    (hne : m ≠ n) (d : ThreadData) : (c.setData (addr n) d).data (addr m) = c.data (addr m) :=
  Function.update_of_ne (h.addr_ne hn hm hne) ..

@[simp] theorem setData_self (a : A) (d : ThreadData) : (c.setData a d).data a = some d :=
  Function.update_self ..

theorem map_erase_of_nodup {f : ℕ → A} {l : List ℕ} (h : (l.map f).Nodup) (hn : n ∈ l) :
    (l.map f).erase (f n) = (l.erase n).map f := by
  obtain ⟨front, rest, rfl⟩ := List.append_of_mem hn
  rw [List.map_append, List.map_cons] at h ⊢
  have hmap : f n ∉ front.map f := fun hm => (List.nodup_append.mp h).2.2 _ hm _ (by simp) rfl
  have hfront : n ∉ front := fun hm => hmap (List.mem_map_of_mem hm)
  rw [List.erase_append_right _ hmap, List.erase_cons_head, List.erase_append_right _ hfront,
    List.erase_cons_head, List.map_append]

end Listed

section Step

variable [DecidableEq A] {c : NodeState A} {s : State} {addr : ℕ → A} {n : ℕ}

/-- A step of the nodes has a result and is a step of the numbered sessions; a thread reads the
socket that `accept` gave for its own session. -/
def Tracks (c : NodeState A) (s : State) (e : NodeAction A) : Prop :=
  ∃ (b : Action) (c' : NodeState A) (addr : ℕ → A) (socket : Option Int32),
    b.Enabled s ∧ c.next e = some (c', socket) ∧ Stands c' (s.after b) addr ∧
      ∀ n, e = .access n → socket ≠ none ∧ socket = c'.accepted[n]?

theorem Stands.insert (h : Stands c s addr) {socket : Int32} {a : A} {d : ThreadData}
    {junk : Option A} (he : c.Enabled (.insert socket a d junk)) :
    Tracks c s (.insert socket a d junk) := by
  obtain ⟨hplace, hfree⟩ := he
  have hloop : s.loop = .accepting := at_accepting (h.place.symm.trans hplace)
  have ha := (h.allocated a).mp hfree
  have hnew : s.sessions ∉ s.head := fun hm =>
    absurd ((h.tracked.mem_head _).mp hm).1 (Nat.lt_irrefl _)
  have haddr : ∀ m ∈ s.head, Function.update addr s.sessions a m = addr m := by
    intro m hm
    rw [Function.update_of_ne]
    rintro rfl
    exact hnew hm
  have hmap : s.head.map (Function.update addr s.sessions a) = s.head.map addr :=
    List.map_congr_left haddr
  obtain ⟨list, hlist, hholds, hnone⟩ := (SList.Holds.malloc h.holds ha junk).insertHead ha
    (by simp [SList.malloc])
  refine ⟨.insert d.threadComplete, _, Function.update addr s.sessions a, none, hloop,
    by rw [NodeState.next, hlist]; rfl, ?_, by rintro n ⟨⟩⟩
  refine ⟨h.tracked.insert _ hloop, h.thread, h.joined, ?_, ?_, ?_, ?_, ?_, fun b => ?_,
    fun b => ?_, fun n hn => ?_, fun n hn => ?_⟩
  · rw [h.created, hloop]
    rfl
  · simp [State.after, h.accepted]
  · simp [State.after, Loop.at]
  · simpa [State.after, hmap] using hholds
  · simpa [State.after, hmap] using ⟨by simpa using ha, h.nodup⟩
  · by_cases hb : b = a
    · subst hb
      simp [State.after]
    · have hb' := h.allocated b
      simpa [State.after, hmap, hb] using hb'
  · rw [hnone]
    by_cases hb : b = a
    · subst hb
      simp [SList.malloc]
    · simpa [SList.malloc, hb] using h.same b
  · obtain rfl := Loop.inserted.inj hn
    simp [← h.accepted]
  · rcases List.mem_cons.mp hn with rfl | hn
    · refine ⟨d, by simp, by simp [State.after], fun hthread => ?_, fun hl => absurd rfl hl⟩
      exact absurd ((h.tracked.absent_iff _).mpr (.inl (Nat.le_refl _))) hthread
    · have hne : n ≠ s.sessions := by
        rintro rfl
        exact hnew hn
      obtain ⟨d', hd', hflag, hthread, hsocket⟩ := h.data n hn
      have hna : addr n ≠ a := fun heq => ha (heq ▸ List.mem_map_of_mem hn)
      refine ⟨d', ?_, ?_, ?_, fun _ => ?_⟩
      · rw [haddr n hn]
        exact (Function.update_of_ne hna ..).trans hd'
      · simpa [State.after, hne] using hflag
      · rw [haddr n hn]
        exact hthread
      · have hold := hsocket (by simp [hloop])
        rw [List.getElem?_append_left (List.getElem?_eq_some_iff.mp hold).1]
        exact hold

theorem Stands.initialise (h : Stands c s addr) {a : A} (he : c.Enabled (.initialise a)) :
    Tracks c s (.initialise a) := by
  obtain ⟨n, hloop, rfl⟩ := at_inserted (h.place.symm.trans he)
  have hlast := h.tracked.loop
  rw [hloop] at hlast
  obtain ⟨hn, habsent⟩ := h.listed_starting (by rw [hloop]; rfl) hlast
  obtain ⟨d, hd, -⟩ := h.data n hn
  refine ⟨.initialise n, _, addr, none, hloop, by rw [NodeState.next, hd]; rfl, ?_,
    by rintro n ⟨⟩⟩
  refine ⟨h.tracked.initialise hloop, h.thread, h.joined, ?_, h.accepted, rfl, h.holds, h.nodup,
    fun b => (h.setData_none hn _ b).trans (h.allocated b),
    fun b => (h.same b).trans (h.setData_none hn _ b).symm, by rintro m ⟨⟩, fun m hm => ?_⟩
  · rw [show (s.after (.initialise n)).loop.starting = s.loop.starting by rw [hloop]; rfl]
    exact h.created
  · by_cases hmn : m = n
    · subst hmn
      refine ⟨_, setData_self .., by simp [State.after], fun hthread => absurd habsent hthread,
        fun _ => h.socket m hloop⟩
    · obtain ⟨d', hd', hflag, hthread, hsocket⟩ := h.data m hm
      refine ⟨d', (h.setData_ne hn hm hmn _).trans hd', ?_, hthread, fun _ => hsocket ?_⟩
      · simpa [State.after, hmn] using hflag
      · rw [hloop]
        exact fun heq => hmn (Loop.inserted.inj heq).symm

theorem Stands.create (h : Stands c s addr) {a : A} (he : c.Enabled (.create a)) :
    Tracks c s (.create a) := by
  obtain ⟨n, hloop, rfl⟩ := at_initialised (h.place.symm.trans he)
  have hlast := h.tracked.loop
  rw [hloop] at hlast
  obtain ⟨hn, habsent⟩ := h.listed_starting (by rw [hloop]; rfl) hlast.1
  obtain ⟨d, hd, hflag, -, hsocket⟩ := h.data n hn
  have hcreated : c.created = n := by
    rw [h.created, hloop]
    rfl
  refine ⟨.create n, _, addr, none, hloop, by rw [NodeState.next, hd]; rfl, ?_,
    by rintro n ⟨⟩⟩
  refine ⟨h.tracked.create hloop, ?_, h.joined, ?_, h.accepted, ?_, h.holds, h.nodup,
    fun b => (h.setData_none hn _ b).trans (h.allocated b),
    fun b => (h.same b).trans (h.setData_none hn _ b).symm, by rintro m ⟨⟩, fun m hm => ?_⟩
  · simp [State.after, hcreated, h.thread]
  · rw [hcreated]
    exact hlast.1
  · have hfirst := SList.Path.head?_eq h.holds
    simp [State.after, Loop.at, hfirst]
  · by_cases hmn : m = n
    · subst hmn
      refine ⟨_, setData_self .., hflag, fun _ => ⟨hcreated, ?_⟩, fun _ => hsocket ?_⟩
      · simp [hcreated]
      · rw [hloop]
        exact Loop.noConfusion
    · obtain ⟨d', hd', hflag', hthread, hsocket'⟩ := h.data m hm
      refine ⟨d', (h.setData_ne hn hm hmn _).trans hd', hflag', fun hm' => ?_, fun _ => hsocket' ?_⟩
      · have hold := hthread (by simpa [State.after, hmn] using hm')
        simpa [hcreated, hmn] using hold
      · rw [hloop]
        exact Loop.noConfusion

theorem Stands.check (h : Stands c s addr) {p : Option A} (he : c.Enabled (.check p)) :
    Tracks c s (.check p) := by
  obtain ⟨cursor, hloop, rfl⟩ := at_scanning (h.place.symm.trans he)
  have htracked := h.tracked.check hloop
  have hsound := h.tracked.loop
  rw [hloop] at hsound
  have hcreated : c.created = s.sessions := by
    rw [h.created, hloop]
    rfl
  have hold : ∀ m ∈ s.head, s.loop ≠ .inserted m := by
    intro m _
    rw [hloop]
    exact Loop.noConfusion
  cases cursor with
  | none =>
    refine ⟨.check none, _, addr, none, hloop, rfl, ?_, by rintro n ⟨⟩⟩
    refine ⟨htracked, h.thread, h.joined, hcreated, h.accepted, rfl, h.holds, h.nodup,
      h.allocated, h.same, by rintro m ⟨⟩, fun m hm => ?_⟩
    obtain ⟨d, hd, hflag, hthread, hsocket⟩ := h.data m hm
    exact ⟨d, hd, hflag, hthread, fun _ => hsocket (hold m hm)⟩
  | some n =>
    have hn := hsound n rfl
    obtain ⟨d, hd, hflag, -⟩ := h.data n hn
    refine ⟨.check (some n), _, addr, none, hloop,
      by simp only [NodeState.next, Option.map_some, hd, h.next_eq hn, Option.bind_some]; rfl, ?_,
      by rintro n ⟨⟩⟩
    have hplace : (s.after (.check (some n))).loop =
        if s.threadComplete n then .found n else .scanning (slistNext s.head n) := rfl
    refine ⟨htracked, h.thread, h.joined, ?_, h.accepted, ?_, h.holds, h.nodup,
      h.allocated, h.same, fun m hm => ?_, fun m hm => ?_⟩
    · rw [hplace, hcreated]
      split_ifs <;> rfl
    · rw [hplace, hflag]
      dsimp only
      split_ifs <;> rfl
    · rw [hplace] at hm
      split_ifs at hm
    · obtain ⟨d, hd, hflag, hthread, hsocket⟩ := h.data m hm
      exact ⟨d, hd, hflag, hthread, fun _ => hsocket (hold m hm)⟩

theorem Stands.reap (h : Stands c s addr) {a : A} (he : c.Enabled (.reap a)) :
    Tracks c s (.reap a) := by
  obtain ⟨hplace, hjoin⟩ := he
  obtain ⟨n, hloop, rfl⟩ := at_found (h.place.symm.trans hplace)
  have hsound := h.tracked.loop
  rw [hloop] at hsound
  have hn := hsound.1
  have hlt := ((h.tracked.mem_head n).mp hn).1
  have hcreated : c.created = s.sessions := by
    rw [h.created, hloop]
    rfl
  have hpresent : s.thread n ≠ .absent := by
    rw [Ne, h.tracked.absent_iff, hloop]
    rintro (hge | hstart)
    · exact absurd hlt (Nat.not_lt.mpr hge)
    · cases hstart
  obtain ⟨d, hd, -, hthread, -⟩ := h.data n hn
  obtain ⟨hid, -⟩ := hthread hpresent
  have hexited : s.thread n = .exited := by
    rw [hd, Option.all_some, decide_eq_true_eq, hid, h.thread] at hjoin
    exact hjoin
  -- the list has no more nodes than sessions were numbered
  have hfuel : (s.head.map addr).length ≤ c.created := by
    have hsub : s.head ⊆ List.range s.sessions := fun m hm =>
      List.mem_range.mpr ((h.tracked.mem_head m).mp hm).1
    have hle := (List.subperm_of_subset h.tracked.nodup hsub).length_le
    rwa [List.length_range, ← List.length_map (f := addr), ← hcreated] at hle
  obtain ⟨list, hlist, hholds, hnone⟩ := SList.Holds.remove h.holds h.nodup
    (List.mem_map_of_mem hn) hfuel
  have herase := map_erase_of_nodup h.nodup hn
  have hgone : addr n ∉ (s.head.map addr).erase (addr n) := h.nodup.not_mem_erase
  refine ⟨.reap n, _, addr, none, ⟨hloop, hexited⟩,
    by simp only [NodeState.next, NodeState.reap, hd, hlist, Option.bind_some, Option.map_some]; rfl,
    ?_, by rintro n ⟨⟩⟩
  refine ⟨h.tracked.reap hloop hexited, h.thread, ?_, hcreated, h.accepted, rfl, ?_, ?_,
    fun b => ?_, fun b => ?_, by rintro m ⟨⟩, fun m hm => ?_⟩
  · simp [State.after, h.joined, hid]
  · rw [show (s.after (.reap n)).head = s.head.erase n from rfl, ← herase]
    exact hholds.free hgone
  · rw [show (s.after (.reap n)).head = s.head.erase n from rfl, ← herase]
    exact h.nodup.erase _
  · rw [show (s.after (.reap n)).head = s.head.erase n from rfl, ← herase]
    by_cases hb : b = addr n
    · subst hb
      simp [hgone]
    · simp only [Function.update_of_ne hb, h.allocated, List.mem_erase_of_ne hb]
  · by_cases hb : b = addr n
    · subst hb
      simp [SList.free]
    · simp only [SList.free, Function.update_of_ne hb]
      exact (hnone b).trans (h.same b)
  · have hm' : m ∈ s.head ∧ m ≠ n := by
      have hmem : m ∈ s.head.erase n := hm
      rw [h.tracked.nodup.mem_erase_iff] at hmem
      exact ⟨hmem.2, hmem.1⟩
    obtain ⟨d', hd', hflag, hthread, hsocket⟩ := h.data m hm'.1
    refine ⟨d', (Function.update_of_ne (h.addr_ne hn hm'.1 hm'.2) ..).trans hd', hflag, hthread,
      fun _ => hsocket ?_⟩
    rw [hloop]
    exact Loop.noConfusion

theorem Stands.access (h : Stands c s addr) (he : c.Enabled (.access n)) :
    Tracks c s (.access n) := by
  obtain ⟨hn, hargs, d, hd, -, hsocket⟩ := h.own he
  have hrun : s.thread n = .running := by
    rw [← h.thread]
    exact he
  refine ⟨.access n, c, addr, some d.clientSocket, hrun,
    by simp only [NodeState.next, hargs, hd, Option.bind_some, Option.map_some], h, ?_⟩
  rintro m heq
  obtain rfl := NodeAction.access.inj heq
  exact ⟨by simp, hsocket.symm⟩

theorem Stands.complete (h : Stands c s addr) (he : c.Enabled (.complete n)) :
    Tracks c s (.complete n) := by
  obtain ⟨hn, hargs, d, hd, hid, hsocket⟩ := h.own he
  have hrun : s.thread n = .running := by
    rw [← h.thread]
    exact he
  refine ⟨.complete n, _, addr, none, hrun,
    by simp only [NodeState.next, hargs, hd, Option.bind_some, Option.map_some]; rfl, ?_,
    by rintro n ⟨⟩⟩
  refine ⟨tracked_step h.tracked (a := .complete n) hrun, ?_, h.joined, h.created, h.accepted, h.place, h.holds,
    h.nodup, fun b => (h.setData_none hn _ b).trans (h.allocated b),
    fun b => (h.same b).trans (h.setData_none hn _ b).symm, h.socket, fun m hm => ?_⟩
  · simp [State.after, h.thread]
  · by_cases hmn : m = n
    · subst hmn
      exact ⟨_, setData_self .., by simp [State.after], fun _ => ⟨hid, hargs⟩, fun _ => hsocket⟩
    · obtain ⟨d', hd', hflag, hthread, hsocket'⟩ := h.data m hm
      refine ⟨d', (h.setData_ne hn hm hmn _).trans hd', ?_, fun hm' => hthread ?_, hsocket'⟩
      · simpa [State.after, hmn] using hflag
      · simpa [State.after, hmn] using hm'

theorem Stands.finish (h : Stands c s addr) (he : c.Enabled (.finish n)) :
    Tracks c s (.finish n) := by
  have hcomplete : s.thread n = .complete := by
    rw [← h.thread]
    exact he
  refine ⟨.finish n, _, addr, none, hcomplete, rfl, ?_, by rintro n ⟨⟩⟩
  refine ⟨tracked_step h.tracked (a := .finish n) hcomplete, ?_, h.joined, h.created, h.accepted, h.place, h.holds,
    h.nodup, h.allocated, h.same, h.socket, fun m hm => ?_⟩
  · simp [State.after, h.thread]
  · obtain ⟨d, hd, hflag, hthread, hsocket⟩ := h.data m hm
    refine ⟨d, hd, hflag, fun hm' => hthread ?_, hsocket⟩
    by_cases hmn : m = n
    · subst hmn
      simp [hcomplete]
    · simpa [State.after, hmn] using hm'

theorem stands_step (h : Stands c s addr) {e : NodeAction A} (he : c.Enabled e) :
    Tracks c s e := by
  cases e with
  | insert socket a d junk => exact h.insert he
  | initialise a => exact h.initialise he
  | create a => exact h.create he
  | check p => exact h.check he
  | reap a => exact h.reap he
  | access n => exact h.access he
  | complete n => exact h.complete he
  | finish n => exact h.finish he

theorem Tracks.step {e : NodeAction A} (h : Tracks c s e) :
    ∃ (b : Action) (addr : ℕ → A), b.Enabled s ∧ Stands (c.step e).2 (s.after b) addr ∧
      (c.step e).1 ≠ .fault := by
  obtain ⟨b, c', addr, socket, hb, hnext, hstands, -⟩ := h
  refine ⟨b, addr, hb, ?_⟩
  cases socket with
  | none => simpa [NodeState.step, hnext] using hstands
  | some socket => simpa [NodeState.step, hnext] using hstands

theorem stands_run (h : Stands c s addr) {es : List (NodeAction A)}
    (hv : Valid NodeState.step NodeState.Enabled c es) :
    (∃ actions addr, Valid State.step Action.Enabled s actions ∧
      Stands (exec NodeState.step c es) (exec State.step s actions) addr) ∧
      ∀ seen ∈ replies NodeState.step c es, seen ≠ .fault := by
  induction es generalizing c s addr with
  | nil => exact ⟨⟨[], addr, trivial, h⟩, by simp⟩
  | cons e es ih =>
    obtain ⟨b, addr', hb, hstands, hseen⟩ := (stands_step h hv.1).step
    obtain ⟨⟨actions, addr'', hactions, hend⟩, hrest⟩ := ih hstands hv.2
    refine ⟨⟨b :: actions, addr'', ⟨hb, hactions⟩, hend⟩, fun seen hm => ?_⟩
    rcases List.mem_cons.mp hm with rfl | hm
    · exact hseen
    · exact hrest seen hm

end Step

/-- **Nodes.** Whatever addresses `malloc` hands out, and in every interleaving with the session
threads: no step touches a node that is not allocated, `SLIST_REMOVE` finds its node, and each
thread reads the socket of its own connection. The loop does what it does on numbered sessions:
the list is that of the sessions not joined, a node of its own for each, and nothing else is
allocated. -/
theorem nodes_refine_sessions [Inhabited A] [DecidableEq A] (es : List (NodeAction A))
    (h : Valid NodeState.step NodeState.Enabled (.init : NodeState A) es) :
    let c := exec NodeState.step (.init : NodeState A) es
    (∀ seen ∈ replies NodeState.step (.init : NodeState A) es, seen ≠ .fault) ∧
    (∀ before n after, es = before ++ .access n :: after →
      ∃ socket, ((exec NodeState.step .init before).step (.access n)).1 = .socket socket ∧
        (exec NodeState.step .init before).accepted[n]? = some socket) ∧
    ∃ (actions : List Action) (addr : ℕ → A),
      Valid State.step Action.Enabled .init actions ∧
      let s := exec State.step .init actions
      c.thread = s.thread ∧ c.joined = s.joined ∧ c.list.Holds (s.head.map addr) ∧
        (s.head.map addr).Nodup ∧ ∀ a, c.data a ≠ none ↔ a ∈ s.head.map addr := by
  intro c
  obtain ⟨⟨actions, addr, hactions, hend⟩, hseen⟩ := stands_run stands_init h
  refine ⟨hseen, ?_, actions, addr, hactions, hend.thread, hend.joined, hend.holds, hend.nodup,
    fun a => ?_⟩
  · rintro before n after rfl
    obtain ⟨hbefore, haccess, -⟩ := (valid_append _ _ _).mp h
    obtain ⟨⟨_, _, _, hstands⟩, -⟩ := stands_run stands_init hbefore
    obtain ⟨-, hargs, d, hd, -, hsocket⟩ := hstands.own haccess
    refine ⟨d.clientSocket, ?_, hsocket⟩
    simp [NodeState.step, NodeState.next, hargs, hd]
  · rw [Ne, hend.allocated, not_not]

/-- Two sessions, the second at the address of the first, which was freed. -/
def sameAddress : List (NodeAction ℕ) :=
  [.insert 4 7 ⟨9, 9, true⟩ (some 3), .initialise 7, .create 7, .access 0, .complete 0, .finish 0,
    .check (some 7), .reap 7, .insert 5 7 ⟨0, 4, true⟩ none, .initialise 7, .create 7,
    .check (some 7), .check none, .access 1]

theorem nodes_refine_sessions_sameAddress :
    .fault ∉ replies NodeState.step (.init : NodeState ℕ) sameAddress :=
  fun h => (nodes_refine_sessions sameAddress (by decide)).1 _ h rfl

end Aesd.Server
