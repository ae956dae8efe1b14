import Aesd.Lib.Runs
import Mathlib.Data.List.Nodup
import Mathlib.Data.List.Perm.Subperm

/-!
# The accept loop and its session threads

`socket_connection_operations` keeps one list node for every session. After each
accept it walks the list, and joins, removes and frees the first node whose thread
has set `thread_complete`. Sessions are numbered in the order of their nodes.
-/

namespace Aesd.Server
open StepRuns

/-- What a session thread is doing. It reads its node up to the moment it sets
`thread_complete`, then it returns. -/
inductive Thread where
  | absent
  | running
  | complete
  | exited
  deriving DecidableEq

/-- The place in the loop. `scanning` holds the cursor of `SLIST_FOREACH`, `found` is
past the test of `thread_complete`. -/
inductive Loop where
  | accepting
  | inserted (n : ℕ)
  | initialised (n : ℕ)
  | scanning (cursor : Option ℕ)
  | found (n : ℕ)
  deriving DecidableEq

structure State where
  /-- `head`, from the first node on. -/
  head : List ℕ
  threadComplete : ℕ → Bool
  thread : ℕ → Thread
  /-- The number of nodes made so far. -/
  sessions : ℕ
  joined : List ℕ
  freed : List ℕ
  loop : Loop

def State.init : State := ⟨[], fun _ => false, fun _ => .absent, 0, [], [], .accepting⟩

inductive Action where
  /-- `malloc` and `SLIST_INSERT_HEAD`; the fresh node holds anything. -/
  | insert (junk : Bool)
  | initialise (n : ℕ)
  | create (n : ℕ)
  | check (cursor : Option ℕ)
  /-- `pthread_join`, `SLIST_REMOVE` and `free`. -/
  | reap (n : ℕ)
  /-- The thread reads `client_socket` from its node. -/
  | access (n : ℕ)
  | complete (n : ℕ)
  | finish (n : ℕ)

def slistNext (head : List ℕ) (n : ℕ) : Option ℕ := (head.dropWhile (· ≠ n))[1]?

/-- The nodes an action reads or writes. -/
def Action.touches (s : State) : Action → List ℕ
  | .insert _ | .check none | .finish _ => []
  | .initialise n | .create n | .check (some n) | .access n | .complete n => [n]
  | .reap n => n :: s.head.takeWhile (· ≠ n)

def State.after (s : State) : Action → State
  | .insert junk =>
    { s with
      head := s.sessions :: s.head
      threadComplete := Function.update s.threadComplete s.sessions junk
      sessions := s.sessions + 1
      loop := .inserted s.sessions }
  | .initialise n =>
    { s with threadComplete := Function.update s.threadComplete n false, loop := .initialised n }
  | .create n =>
    { s with thread := Function.update s.thread n .running, loop := .scanning s.head.head? }
  | .check none => { s with loop := .accepting }
  | .check (some n) =>
    { s with loop := if s.threadComplete n then .found n else .scanning (slistNext s.head n) }
  | .reap n =>
    { s with head := s.head.erase n, joined := s.joined ++ [n], freed := s.freed ++ [n],
             loop := .accepting }
  | .access _ => s
  | .complete n =>
    { s with
      threadComplete := Function.update s.threadComplete n true
      thread := Function.update s.thread n .complete }
  | .finish n => { s with thread := Function.update s.thread n .exited }

/-- One step; the answer says whether it touched a freed node. -/
def State.step (s : State) (a : Action) : Bool × State :=
  ((a.touches s).any (· ∈ s.freed), s.after a)

def Action.Enabled (s : State) : Action → Prop
  | .insert _ => s.loop = .accepting
  | .initialise n => s.loop = .inserted n
  | .create n => s.loop = .initialised n
  | .check cursor => s.loop = .scanning cursor
  | .reap n => s.loop = .found n ∧ s.thread n = .exited
  | .access n | .complete n => s.thread n = .running
  | .finish n => s.thread n = .complete

def Action.inserts : Action → Bool
  | .insert _ => true
  | _ => false

instance (s : State) : (a : Action) → Decidable (a.Enabled s)
  | .insert _ | .initialise _ | .create _ | .check _ | .access _ | .complete _ | .finish _ =>
    inferInstanceAs (Decidable (_ = _))
  | .reap _ => inferInstanceAs (Decidable (_ ∧ _))

/-- The session whose node is in the list while its thread is not yet created. -/
def Loop.starting : Loop → Option ℕ
  | .inserted n | .initialised n => some n
  | _ => none

def State.running (s : State) : List ℕ := (List.range s.sessions).filter (s.thread · = .running)

/-- What each place in the loop knows about its node. -/
def Loop.Sound (s : State) : Loop → Prop
  | .accepting => True
  | .inserted n => n + 1 = s.sessions
  | .initialised n => n + 1 = s.sessions ∧ s.threadComplete n = false
  | .scanning cursor => ∀ n, cursor = some n → n ∈ s.head
  | .found n => n ∈ s.head ∧ s.threadComplete n = true

structure State.Tracked (s : State) : Prop where
  nodup : s.head.Nodup
  mem_head : ∀ n, n ∈ s.head ↔ n < s.sessions ∧ n ∉ s.joined
  joined_nodup : s.joined.Nodup
  freed_eq : s.freed = s.joined
  joined_exited : ∀ n ∈ s.joined, n < s.sessions ∧ s.thread n = .exited
  absent_iff : ∀ n, s.thread n = .absent ↔ s.sessions ≤ n ∨ s.loop.starting = some n
  running_iff : ∀ n, s.thread n ≠ .absent → (s.threadComplete n = false ↔ s.thread n = .running)
  loop : s.loop.Sound s

theorem tracked_init : State.init.Tracked where
  nodup := List.nodup_nil
  mem_head := by simp [State.init]
  joined_nodup := List.nodup_nil
  freed_eq := rfl
  joined_exited := by simp [State.init]
  absent_iff := by simp [State.init]
  running_iff := by simp [State.init]
  loop := trivial

section Step

variable {s : State} {n : ℕ}

theorem State.Tracked.notMem_joined (h : s.Tracked) (hn : s.thread n ≠ .exited) : n ∉ s.joined :=
  fun hj => hn (h.joined_exited n hj).2

theorem State.Tracked.starting (h : s.Tracked) (hn : s.loop.starting = some n) :
    s.thread n = .absent := (h.absent_iff n).mpr (.inr hn)

theorem State.Tracked.touches (h : s.Tracked) {a : Action} (ha : a.Enabled s) :
    ∀ m ∈ a.touches s, m ∉ s.freed := by
  have hhead : ∀ m ∈ s.head, m ∉ s.freed := by
    intro m hm
    rw [h.freed_eq]
    exact ((h.mem_head m).mp hm).2
  have hthread : ∀ m, s.thread m ≠ .exited → m ∉ s.freed := by
    intro m hm
    rw [h.freed_eq]
    exact h.notMem_joined hm
  have hloop := h.loop
  intro m hm
  cases a with
  | insert junk => simp [Action.touches] at hm
  | initialise n =>
    obtain rfl : m = n := by simpa [Action.touches] using hm
    exact hthread m (by rw [h.starting (n := m) (by rw [show s.loop = _ from ha]; rfl)]; decide)
  | create n =>
    obtain rfl : m = n := by simpa [Action.touches] using hm
    exact hthread m (by rw [h.starting (n := m) (by rw [show s.loop = _ from ha]; rfl)]; decide)
  | check cursor =>
    cases cursor with
    | none => simp [Action.touches] at hm
    | some n =>
      obtain rfl : m = n := by simpa [Action.touches] using hm
      rw [show s.loop = _ from ha] at hloop
      exact hhead m (hloop m rfl)
  | reap n =>
    rw [ha.1] at hloop
    simp only [Action.touches, List.mem_cons] at hm
    rcases hm with rfl | hm
    · exact hhead m hloop.1
    · exact hhead m ((List.takeWhile_sublist _).subset hm)
  | access n =>
    obtain rfl : m = n := by simpa [Action.touches] using hm
    exact hthread m (by rw [show s.thread m = _ from ha]; decide)
  | complete n =>
    obtain rfl : m = n := by simpa [Action.touches] using hm
    exact hthread m (by rw [show s.thread m = _ from ha]; decide)
  | finish n => simp [Action.touches] at hm

theorem mem_of_slistNext {head : List ℕ} {m : ℕ} (h : slistNext head n = some m) : m ∈ head :=
  (List.dropWhile_suffix _).subset (List.mem_of_getElem? h)

theorem State.Tracked.insert (h : s.Tracked) (junk : Bool) (ha : s.loop = .accepting) :
    (s.after (.insert junk)).Tracked where
  nodup := by
    refine List.nodup_cons.mpr ⟨fun hm => ?_, h.nodup⟩
    exact absurd ((h.mem_head _).mp hm).1 (Nat.lt_irrefl _)
  mem_head := by
    intro n
    have hnew : s.sessions ∉ s.joined := fun hj => absurd (h.joined_exited _ hj).1 (Nat.lt_irrefl _)
    simp only [State.after, List.mem_cons, h.mem_head]
    constructor
    · rintro (rfl | ⟨hn, hj⟩)
      · exact ⟨Nat.lt_succ_self _, hnew⟩
      · exact ⟨Nat.lt_succ_of_lt hn, hj⟩
    · rintro ⟨hn, hj⟩
      rcases Nat.lt_succ_iff_lt_or_eq.mp hn with hn | rfl
      · exact .inr ⟨hn, hj⟩
      · exact .inl rfl
  joined_nodup := h.joined_nodup
  freed_eq := h.freed_eq
  joined_exited n hn := ⟨Nat.lt_succ_of_lt (h.joined_exited n hn).1, (h.joined_exited n hn).2⟩
  absent_iff := by
    intro n
    have := h.absent_iff n
    simp only [ha, Loop.starting, reduceCtorEq, or_false] at this
    simp only [State.after, Loop.starting, Option.some.injEq, this]
    omega
  running_iff := by
    intro n hn
    have hlt : n < s.sessions := by
      by_contra hge
      exact hn ((h.absent_iff n).mpr (.inl (Nat.not_lt.mp hge)))
    simp only [State.after, Function.update_of_ne (Nat.ne_of_lt hlt)]
    exact h.running_iff n hn
  loop := rfl

theorem State.Tracked.initialise (h : s.Tracked) (ha : s.loop = .inserted n) :
    (s.after (.initialise n)).Tracked where
  nodup := h.nodup
  mem_head := h.mem_head
  joined_nodup := h.joined_nodup
  freed_eq := h.freed_eq
  joined_exited := h.joined_exited
  absent_iff := by
    have := h.absent_iff
    rwa [ha] at this
  running_iff := by
    intro m hm
    have hne : m ≠ n := by
      rintro rfl
      exact hm (h.starting (by rw [ha]; rfl))
    simp only [State.after, Function.update_of_ne hne]
    exact h.running_iff m hm
  loop := by
    have hn := h.loop
    rw [ha] at hn
    exact ⟨hn, Function.update_self _ _ _⟩

theorem State.Tracked.create (h : s.Tracked) (ha : s.loop = .initialised n) :
    (s.after (.create n)).Tracked := by
  have hloop := h.loop
  rw [ha] at hloop
  obtain ⟨hn, hflag⟩ := hloop
  have habsent : s.thread n = .absent := h.starting (by rw [ha]; rfl)
  refine ⟨h.nodup, h.mem_head, h.joined_nodup, h.freed_eq, fun m hm => ?_, fun m => ?_, fun m hm => ?_,
    fun m hm => List.mem_of_mem_head? hm⟩
  · have hex := h.joined_exited m hm
    have hne : m ≠ n := by
      rintro rfl
      rw [habsent] at hex
      cases hex.2
    simp only [State.after, Function.update_of_ne hne]
    exact hex
  · have hm := h.absent_iff m
    simp only [ha, Loop.starting, Option.some.injEq] at hm
    by_cases hmn : m = n
    · subst hmn
      simp [State.after, Loop.starting]
      omega
    · simp only [State.after, Function.update_of_ne hmn, Loop.starting, reduceCtorEq, or_false, hm]
      exact or_iff_left (Ne.symm hmn)
  · by_cases hmn : m = n
    · subst hmn
      simp [State.after, hflag]
    · simp only [State.after, Function.update_of_ne hmn] at hm ⊢
      exact h.running_iff m hm

theorem State.Tracked.check (h : s.Tracked) {cursor : Option ℕ} (ha : s.loop = .scanning cursor) :
    (s.after (.check cursor)).Tracked := by
  have habsent := h.absent_iff
  have hloop := h.loop
  rw [ha] at habsent hloop
  cases cursor with
  | none =>
    exact ⟨h.nodup, h.mem_head, h.joined_nodup, h.freed_eq, h.joined_exited, habsent, h.running_iff,
      trivial⟩
  | some n =>
    refine ⟨h.nodup, h.mem_head, h.joined_nodup, h.freed_eq, h.joined_exited, ?_, h.running_iff, ?_⟩
    · simp only [State.after]
      split_ifs
      · exact habsent
      · exact habsent
    · simp only [State.after]
      split_ifs with hflag
      · exact ⟨hloop n rfl, hflag⟩
      · exact fun m hm => mem_of_slistNext hm

theorem State.Tracked.reap (h : s.Tracked) (ha : s.loop = .found n) (hex : s.thread n = .exited) :
    (s.after (.reap n)).Tracked := by
  have habsent := h.absent_iff
  have hloop := h.loop
  rw [ha] at habsent hloop
  obtain ⟨hn, hj⟩ := (h.mem_head n).mp hloop.1
  refine ⟨h.nodup.erase n, fun m => ?_, ?_, ?_, ?_, habsent, h.running_iff, trivial⟩
  · change m ∈ s.head.erase n ↔ _ ∧ m ∉ s.joined ++ [n]
    rw [h.nodup.mem_erase_iff, h.mem_head, List.mem_append, List.mem_singleton]
    tauto
  · change (s.joined ++ [n]).Nodup
    rw [List.nodup_append]
    refine ⟨h.joined_nodup, List.nodup_singleton n, ?_⟩
    rintro a hm b hb rfl
    obtain rfl := List.mem_singleton.mp hb
    exact hj hm
  · change s.freed ++ [n] = s.joined ++ [n]
    rw [h.freed_eq]
  · intro m hm
    change m ∈ s.joined ++ [n] at hm
    rcases List.mem_append.mp hm with hm | hm
    · exact h.joined_exited m hm
    · obtain rfl := List.mem_singleton.mp hm
      exact ⟨hn, hex⟩

theorem State.Tracked.thread (h : s.Tracked) {t : Thread} (hp : s.thread n ≠ .absent)
    (he : s.thread n ≠ .exited) (ht : t ≠ .absent) (htr : t ≠ .running) :
    ({ s with threadComplete := Function.update s.threadComplete n true
              thread := Function.update s.thread n t } : State).Tracked := by
  refine ⟨h.nodup, h.mem_head, h.joined_nodup, h.freed_eq, fun m hm => ?_, fun m => ?_, fun m hm => ?_,
    ?_⟩
  -- a joined thread has exited, so it is another one
  · have hne : m ≠ n := by
      rintro rfl
      exact he (h.joined_exited m hm).2
    simp only [Function.update_of_ne hne]
    exact h.joined_exited m hm
  · by_cases hmn : m = n
    · subst hmn
      rw [← h.absent_iff m]
      simp [hp, ht]
    · simp only [Function.update_of_ne hmn]
      exact h.absent_iff m
  · by_cases hmn : m = n
    · subst hmn
      simp [htr]
    · simp only [Function.update_of_ne hmn] at hm ⊢
      exact h.running_iff m hm
  · have hloop := h.loop
    cases hl : s.loop with
    | initialised m =>
      rw [hl] at hloop
      have hne : m ≠ n := by
        rintro rfl
        exact hp (h.starting (by rw [hl]; rfl))
      exact ⟨hloop.1, (Function.update_of_ne hne _ _).trans hloop.2⟩
    | found m =>
      rw [hl] at hloop
      refine ⟨hloop.1, ?_⟩
      by_cases hmn : m = n
      · subst hmn
        exact Function.update_self _ _ _
      · exact (Function.update_of_ne hmn _ _).trans hloop.2
    | _ =>
      rw [hl] at hloop
      exact hloop

theorem tracked_step (h : s.Tracked) {a : Action} (ha : a.Enabled s) : (s.step a).2.Tracked := by
  cases a with
  | insert junk => exact h.insert junk ha
  | initialise n => exact h.initialise ha
  | create n => exact h.create ha
  | check cursor => exact h.check ha
  | reap n => exact h.reap ha.1 ha.2
  | access n => exact h
  | complete n =>
    have hrun : s.thread n = .running := ha
    exact h.thread (by simp [hrun]) (by simp [hrun]) (by decide) (by decide)
  | finish n =>
    have hcomplete : s.thread n = .complete := ha
    -- the flag is already set
    have hflag : Function.update s.threadComplete n true = s.threadComplete := by
      rw [Function.update_eq_self_iff]
      have := h.running_iff n (by simp [hcomplete])
      simpa [hcomplete] using this
    have hstep := h.thread (n := n) (t := .exited) (by simp [hcomplete]) (by simp [hcomplete])
      (by decide)
      (by decide)
    rwa [hflag] at hstep

theorem tracked_run {actions : List Action} (hv : Valid State.step Action.Enabled .init actions) :
    (exec State.step .init actions).Tracked :=
  exec_invariant State.Tracked (fun _ _ h ha => tracked_step h ha) tracked_init hv

end Step

/-- At some moment so far at least `k` session threads were running. -/
def Served (actions : List Action) (k : ℕ) : Prop :=
  ∃ before, before <+: actions ∧ k ≤ (exec State.step .init before).running.length

theorem Served.mono {actions : List Action} {k k' : ℕ} (h : Served actions k) (hk : k' ≤ k)
    (a : Action) : Served (actions ++ [a]) k' := by
  obtain ⟨before, hbefore, hle⟩ := h
  exact ⟨before, hbefore.trans (List.prefix_append _ _), Nat.le_trans hk hle⟩

/-- A scan that began in `start`: what runs now ran then, and so did the nodes passed. -/
structure Scan (s start : State) (cursor : Option ℕ) : Prop where
  still : ∀ m, s.thread m = .running → start.thread m = .running
  passed : ∃ passed rest, s.head = passed ++ rest ∧ cursor = rest.head? ∧
    ∀ m ∈ passed, start.thread m = .running

section Scan

variable {s start : State} {n : ℕ}

theorem slistNext_append {passed rest : List ℕ} (hn : n ∉ passed) :
    slistNext (passed ++ n :: rest) n = rest.head? := by
  have hne : ∀ m ∈ passed, (decide (m ≠ n)) = true := by
    intro m hm
    rw [decide_eq_true_eq]
    rintro rfl
    exact hn hm
  rw [slistNext, List.dropWhile_append_of_pos hne]
  simp [List.head?_eq_getElem?]

theorem Scan.next (h : Scan s start (some n)) (ht : s.Tracked) (hl : s.loop = .scanning (some n))
    (hflag : s.threadComplete n = false) : Scan s start (slistNext s.head n) := by
  obtain ⟨passed, rest, hhead, hcursor, hpassed⟩ := h.passed
  obtain ⟨rest, rfl⟩ : ∃ rest', rest = n :: rest' := by
    cases rest with
    | nil => simp at hcursor
    | cons m rest => exact ⟨rest, by simpa using hcursor.symm⟩
  have hmem : n ∈ s.head := by simp [hhead]
  have hpresent : s.thread n ≠ .absent := by
    rw [Ne, ht.absent_iff, hl]
    simpa [Loop.starting] using ((ht.mem_head n).mp hmem).1
  have hrun : s.thread n = .running := (ht.running_iff n hpresent).mp hflag
  have hnodup := ht.nodup
  rw [hhead] at hnodup
  have hn : n ∉ passed := fun hp =>
    (List.nodup_append.mp hnodup).2.2 n hp n List.mem_cons_self rfl
  refine ⟨h.still, passed ++ [n], rest, by simp [hhead], by rw [hhead, slistNext_append hn], ?_⟩
  intro m hm
  rcases List.mem_append.mp hm with hm | hm
  · exact hpassed m hm
  · obtain rfl := List.mem_singleton.mp hm
    exact h.still m hrun

/-- A scan that found nothing: every node's thread was running when it began. -/
theorem Scan.length_le (h : Scan s start none) (ht : s.Tracked) (hs : start.Tracked) :
    s.head.length ≤ start.running.length := by
  obtain ⟨passed, rest, hhead, hcursor, hpassed⟩ := h.passed
  obtain rfl : rest = [] := List.head?_eq_none_iff.mp hcursor.symm
  rw [List.append_nil] at hhead
  -- the list has no duplicates, so it is enough that its nodes are among those running
  apply (List.subperm_of_subset ht.nodup ?_).length_le
  intro m hm
  have hrun := hpassed m (hhead ▸ hm)
  have hlt : m < start.sessions := by
    by_contra hge
    rw [(hs.absent_iff m).mpr (.inl (Nat.not_lt.mp hge))] at hrun
    cases hrun
  simp [State.running, hlt, hrun]

theorem Scan.frame {s' : State} {cursor : Option ℕ} (h : Scan s start cursor)
    (hhead : s'.head = s.head)
    (hrun : ∀ m, s'.thread m = .running → s.thread m = .running) : Scan s' start cursor :=
  ⟨fun m hm => h.still m (hrun m hm), hhead ▸ h.passed⟩

end Scan

/-- The list is at most one longer than the most threads that ran at once, and not
longer when a scan is over. -/
structure Backlog (actions : List Action) : Prop where
  grown : ∃ k, Served actions k ∧ (exec State.step .init actions).head.length ≤ k + 1
  settled : (exec State.step .init actions).loop = .accepting →
    Served actions (exec State.step .init actions).head.length
  scan : ∀ cursor, (exec State.step .init actions).loop = .scanning cursor →
    ∃ before, before <+: actions ∧
      Scan (exec State.step .init actions) (exec State.step .init before) cursor

theorem backlog_init : Backlog [] where
  grown := ⟨0, ⟨[], List.prefix_rfl, Nat.zero_le _⟩, Nat.zero_le _⟩
  settled _ := ⟨[], List.prefix_rfl, Nat.zero_le _⟩
  scan cursor h := by cases h

section BacklogStep

variable {actions : List Action} {s s' : State} {a : Action} {n : ℕ}

/-- The list is no longer than the most threads that ran at once, and no scan is on. -/
theorem backlog_of_served (h : Served actions (exec State.step .init actions).head.length)
    (hl : ∀ cursor, (exec State.step .init actions).loop ≠ .scanning cursor) : Backlog actions where
  grown := ⟨_, h, Nat.le_succ _⟩
  settled _ := h
  scan cursor hs := absurd hs (hl cursor)

theorem Backlog.grown_of_length_le (h : Backlog actions)
    (hle : (exec State.step .init (actions ++ [a])).head.length ≤
      (exec State.step .init actions).head.length) :
    ∃ k, Served (actions ++ [a]) k ∧
      (exec State.step .init (actions ++ [a])).head.length ≤ k + 1 := by
  obtain ⟨k, hk, hk'⟩ := h.grown
  exact ⟨k, hk.mono (Nat.le_refl k) a, Nat.le_trans hle hk'⟩

theorem Backlog.thread (h : Backlog actions) (hs : exec State.step .init actions = s)
    (hs' : exec State.step .init (actions ++ [a]) = s') (hhead : s'.head = s.head)
    (hloop : s'.loop = s.loop) (hrun : ∀ m, s'.thread m = .running → s.thread m = .running) :
    Backlog (actions ++ [a]) := by
  subst hs
  refine ⟨h.grown_of_length_le (Nat.le_of_eq (by rw [hs', hhead])), fun hl => ?_,
    fun cursor hl => ?_⟩
  · rw [hs', hhead]
    rw [hs', hloop] at hl
    exact (h.settled hl).mono (Nat.le_refl _) a
  · rw [hs', hloop] at hl
    obtain ⟨before, hbefore, hscan⟩ := h.scan cursor hl
    rw [hs']
    exact ⟨before, hbefore.trans (List.prefix_append _ _), hscan.frame hhead hrun⟩

/-- A scan that comes to its end has found every node's thread running. -/
theorem Backlog.check_none (hv : Valid State.step Action.Enabled .init actions) (h : Backlog actions)
    (hs : exec State.step .init actions = s) (hl : s.loop = .scanning none)
    (hs' : exec State.step .init (actions ++ [.check none]) = s.after (.check none)) :
    Backlog (actions ++ [.check none]) := by
  obtain ⟨before, hbefore, hscan⟩ := h.scan none (hs ▸ hl)
  have hle : s.head.length ≤ (exec State.step .init before).running.length := by
    have ht := tracked_run hv
    rw [hs] at ht hscan
    obtain ⟨after, rfl⟩ := hbefore
    exact hscan.length_le ht (tracked_run ((valid_append _ _ _).mp hv).1)
  apply backlog_of_served
  · rw [hs']
    exact ⟨before, hbefore.trans (List.prefix_append _ _), hle⟩
  · rw [hs']
    rintro cursor ⟨⟩

/-- The scan goes on behind a node whose flag is not set, and stops at one whose flag is. -/
theorem Backlog.check_some (hv : Valid State.step Action.Enabled .init actions) (h : Backlog actions)
    (hs : exec State.step .init actions = s) (hl : s.loop = .scanning (some n))
    (hs' : exec State.step .init (actions ++ [.check (some n)]) = s.after (.check (some n))) :
    Backlog (actions ++ [.check (some n)]) := by
  obtain ⟨before, hbefore, hscan⟩ := h.scan (some n) (hs ▸ hl)
  have ht := tracked_run hv
  rw [hs] at ht hscan
  refine ⟨h.grown_of_length_le (by rw [hs', hs]; exact Nat.le_refl _), fun hl' => ?_,
    fun cursor hl' => ?_⟩
  · rw [hs'] at hl'
    simp only [State.after] at hl'
    split_ifs at hl'
  · rw [hs'] at hl' ⊢
    simp only [State.after] at hl'
    split_ifs at hl' with hflag
    obtain rfl := Loop.scanning.inj hl'
    have hnext := hscan.next ht hl (by simpa using hflag)
    exact ⟨before, hbefore.trans (List.prefix_append _ _), hnext.frame rfl fun m hm => hm⟩

theorem backlog_step (hv : Valid State.step Action.Enabled .init actions)
    (ha : a.Enabled (exec State.step .init actions)) (h : Backlog actions) :
    Backlog (actions ++ [a]) := by
  have ht := tracked_run hv
  have hs' : exec State.step .init (actions ++ [a]) = (exec State.step .init actions).after a :=
    exec_concat _ _ _
  have hgrown := h.grown_of_length_le (a := a)
  generalize hs : exec State.step .init actions = s at ha ht hs' hgrown
  rw [hs'] at hgrown
  cases a with
  | insert junk =>
    -- a node is inserted only when the last scan is over
    have hserved := h.settled (hs ▸ ha)
    rw [hs] at hserved
    refine ⟨⟨s.head.length, hserved.mono (Nat.le_refl _) _, by rw [hs']; exact Nat.le_refl _⟩, ?_, ?_⟩
    · rw [hs']
      rintro ⟨⟩
    · rw [hs']
      rintro cursor ⟨⟩
  | initialise n =>
    refine ⟨by rw [hs']; exact hgrown (Nat.le_refl _), ?_, ?_⟩
    · rw [hs']
      rintro ⟨⟩
    · rw [hs']
      rintro cursor ⟨⟩
  | create n =>
    refine ⟨by rw [hs']; exact hgrown (Nat.le_refl _), ?_, fun cursor hl => ?_⟩
    · rw [hs']
      rintro ⟨⟩
    · -- the scan begins here, with nothing passed
      refine ⟨_, List.prefix_rfl, fun m hm => hm, [], _, rfl, ?_, by simp⟩
      rw [hs'] at hl ⊢
      exact (Loop.scanning.inj hl).symm
  | check cursor =>
    cases cursor with
    | none => exact h.check_none hv hs ha hs'
    | some n => exact h.check_some hv hs ha hs'
  | reap n =>
    -- the list loses a node, so the one that it was longer by is gone
    have hloop := ht.loop
    rw [ha.1] at hloop
    obtain ⟨k, hk, hle⟩ := h.grown
    rw [hs] at hle
    have hlen : (s.head.erase n).length ≤ k := by
      rw [List.length_erase_of_mem hloop.1]
      omega
    apply backlog_of_served
    · rw [hs']
      exact hk.mono hlen (.reap n)
    · rw [hs']
      rintro cursor ⟨⟩
  | access n => exact h.thread hs hs' rfl rfl fun m hm => hm
  | complete n =>
    refine h.thread hs hs' rfl rfl fun m hm => ?_
    by_cases hmn : m = n
    · subst hmn
      exact ha
    · simpa [State.after, hmn] using hm
  | finish n =>
    refine h.thread hs hs' rfl rfl fun m hm => ?_
    by_cases hmn : m = n
    · subst hmn
      simp [State.after] at hm
    · simpa [State.after, hmn] using hm

end BacklogStep

theorem backlog_run {actions : List Action} (hv : Valid State.step Action.Enabled .init actions) :
    Backlog actions :=
  run_induction Backlog backlog_init (fun _ _ hv ha h => backlog_step hv ha h) hv

/-- Every session is one inserted node. -/
theorem sessions_run (s : State) (actions : List Action) :
    (exec State.step s actions).sessions = s.sessions + actions.countP Action.inserts := by
  induction actions generalizing s with
  | nil => rfl
  | cons a actions ih =>
    have hstep : (s.step a).2.sessions = s.sessions + if a.inserts then 1 else 0 := by
      cases a with
      | check cursor => cases cursor <;> rfl
      | _ => rfl
    rw [exec_cons, ih, hstep, List.countP_cons]
    omega

/-- **Sessions.** In every interleaving the list holds the sessions not yet joined, each
once; a session is joined and freed once, after its thread is done with its node, and
nothing touches a freed node; after a scan the list is not longer than the number of
threads that ran at once at some moment. -/
theorem sessions_tracked (actions : List Action)
    (h : Valid State.step Action.Enabled .init actions) :
    let s := exec State.step .init actions
    (s.sessions = actions.countP Action.inserts ∧ s.head.Nodup ∧
      (∀ n, n ∈ s.head ↔ n < s.sessions ∧ n ∉ s.joined) ∧
      ∀ n, s.thread n ≠ .absent ↔ n < s.sessions ∧ s.loop.starting ≠ some n) ∧
    (s.joined.Nodup ∧ s.freed = s.joined ∧
      (∀ before n after, actions = before ++ .reap n :: after →
        (exec State.step .init before).thread n = .exited ∧
        (exec State.step .init before).threadComplete n = true ∧
        n ∈ (exec State.step .init before).head) ∧
      ∀ touchesFreed ∈ replies State.step .init actions, touchesFreed = false) ∧
    (s.loop = .accepting → ∃ before, before <+: actions ∧
      s.head.length ≤ (exec State.step .init before).running.length) := by
  intro s
  have ht := tracked_run h
  have hsessions : s.sessions = actions.countP Action.inserts :=
    (sessions_run .init actions).trans (Nat.zero_add _)
  refine ⟨⟨hsessions, ht.nodup, ht.mem_head, fun n => ?_⟩, ⟨ht.joined_nodup, ht.freed_eq, ?_, ?_⟩,
    (backlog_run h).settled⟩
  · rw [Ne, ht.absent_iff, not_or, Nat.not_le]
  · rintro before n after rfl
    obtain ⟨hbefore, ha, _⟩ := (valid_append _ _ _).mp h
    have hbt := tracked_run hbefore
    have hloop := hbt.loop
    rw [ha.1] at hloop
    exact ⟨ha.2, hloop.2, hloop.1⟩
  · intro r hr
    obtain ⟨before, a, after, rfl, rfl⟩ := mem_replies hr
    obtain ⟨hbefore, ha, _⟩ := (valid_append _ _ _).mp h
    have htouch := (tracked_run hbefore).touches ha
    simpa [State.step] using htouch

/-- Two sessions; the first ends while the second is accepted, and is reaped. -/
def twoSessions : List Action :=
  [.insert true, .initialise 0, .create 0, .check (some 0), .check none, .insert false,
    .initialise 1, .access 0, .complete 0, .create 1, .check (some 1), .check (some 0), .finish 0,
    .reap 0]

theorem sessions_tracked_twoSessions : (exec State.step .init twoSessions).head.Nodup :=
  (sessions_tracked twoSessions (by decide)).1.2.1

end Aesd.Server
