import Aesd.Server.Additions

/-!
# Stopping the file build

`exit_safely` joins a thread that never returns.
-/

namespace Aesd.Server
open CString StepRuns

/-- The thread that calls `exit_safely` in a step. -/
def FileProcess.exits (w : FileProcess) : FileAction → Option Worker
  | .signal t => some t
  | .run t _ => if w.phase t = .testing ∧ seekPrefix <+: w.text t then some t else none

def exitsIn (w : FileProcess) (actions : List FileAction) : List Worker :=
  along (fun w l => (w.exits l).toList) FileProcess.step w actions

section Stop

variable {w : FileProcess} {t u : Worker} {l : FileAction}

/-- A thread outside `exit_safely` goes on to another phase, and only in its critical section, or
when it takes the lock, does it change the files or the mutex. -/
structure GoesOn (w : FileProcess) (t : Worker) (r : Report) (w' : FileProcess) : Prop where
  ended : w'.ended = w.ended
  joiner : w'.joiner = w.joiner
  others : ∀ u, u ≠ t → w'.own u = w.own u
  outside : ¬ (w.phase t).Stopping
  stays : ¬ (w'.phase t).Stopping
  critical : (w.phase t).Critical ∨ (w.phase t = .locking ∧ w.mutex = none) ∨
    (w'.files = w.files ∧ w'.mutex = w.mutex ∧ additionsOf [r] = [] ∧ ¬ (w'.phase t).Critical)

theorem goesOn_goto {w₁ : FileProcess} {r : Report} {phase : FilePhase}
    (hended : w₁.ended = w.ended) (hjoiner : w₁.joiner = w.joiner)
    (hothers : ∀ u, u ≠ t → w₁.own u = w.own u) (hout : ¬ (w.phase t).Stopping)
    (hphase : ¬ phase.Stopping)
    (hcritical : (w.phase t).Critical ∨ (w.phase t = .locking ∧ w.mutex = none) ∨
      (w₁.files = w.files ∧ w₁.mutex = w.mutex ∧ additionsOf [r] = [] ∧ ¬ phase.Critical)) :
    GoesOn w t r (w₁.goto t phase) := by
  refine ⟨hended, hjoiner, fun u hu => ?_, hout, ?_, ?_⟩
  · rw [own_goto_ne w₁ hu, hothers u hu]
  · rwa [goto_phase]
  · rwa [goto_phase]

theorem run_cases {env : FileEnv} (he : w.Enabled (.run t env)) :
    (∃ ending, ending ≠ .exitSafely ∧ w.run t env = (.nothing, w.stop ending)) ∨
      (w.phase t = .testing ∧ seekPrefix <+: w.text t ∧
        w.run t env = (.nothing, w.exitSafely t)) ∨
      (w.phase t = .joining ∧ w.run t env = (.nothing, w.join t)) ∨
      GoesOn w t (w.run t env).1 (w.run t env).2 := by
  cases hp : w.phase t with
  | accepting | returned | waiting =>
    simp only [FileProcess.Enabled, hp] at he
    exact he.2.elim
  | joining => exact .inr (.inr (.inl ⟨rfl, by simp only [FileProcess.run, hp]⟩))
  | formatting =>
    simp only [FileProcess.run, hp]
    cases env.localtime with
    | none => exact .inl ⟨.exit, by simp, rfl⟩
    | some tm =>
      simp only [strftime_timestamp, OfNat.ofNat_ne_zero, if_false]
      exact .inr (.inr (.inr (goesOn_goto rfl rfl (fun u hu => by simp [FileProcess.own, hu])
        (by rw [hp]; exact id) id (.inr (.inr ⟨rfl, rfl, rfl, id⟩)))))
  | opening =>
    simp only [FileProcess.run, hp]
    by_cases ho : env.opens = true
    · rw [if_pos ho]
      refine .inr (.inr (.inr (goesOn_goto ?_ ?_ (fun u hu => ?_) (by rw [hp]; exact id) ?_
        (.inr (.inr ⟨?_, ?_, rfl, ?_⟩)))))
      · unfold FileProcess.openFile
        cases w.named <;> rfl
      · unfold FileProcess.openFile
        cases w.named <;> rfl
      · unfold FileProcess.openFile
        cases w.named <;> simp [FileProcess.own, hu]
      · split_ifs <;> exact id
      · unfold FileProcess.openFile
        cases w.named <;> rfl
      · unfold FileProcess.openFile
        cases w.named <;> rfl
      · split_ifs <;> exact id
    · rw [if_neg ho]
      exact .inl ⟨.exit, by simp, rfl⟩
  | testing =>
    simp only [FileProcess.run, hp]
    by_cases hs : seekPrefix <+: w.text t
    · rw [if_pos hs]
      exact .inr (.inl ⟨trivial, hs, rfl⟩)
    · rw [if_neg hs]
      exact .inr (.inr (.inr (goesOn_goto rfl rfl (fun _ _ => rfl) (by rw [hp]; exact id) id
        (.inr (.inr ⟨rfl, rfl, rfl, id⟩)))))
  | locking =>
    simp only [FileProcess.Enabled, hp] at he
    simp only [FileProcess.run, hp]
    exact .inr (.inr (.inr (goesOn_goto rfl rfl (fun _ _ => rfl) (by rw [hp]; exact id) id
      (.inr (.inl ⟨hp, he.2⟩)))))
  | writing done =>
    have hcritical : (w.phase t).Critical := by
      rw [hp]
      trivial
    have hout : ¬ (w.phase t).Stopping := by
      rw [hp]
      exact id
    simp only [FileProcess.run, hp]
    cases env.write with
    | more n =>
      exact .inr (.inr (.inr (goesOn_goto rfl rfl
        (fun u hu => by simp [FileProcess.own, FileProcess.append, hu]) hout id (.inl hcritical))))
    | returns =>
      exact .inr (.inr (.inr (goesOn_goto rfl rfl (fun _ _ => rfl) hout id (.inl hcritical))))
    | fails =>
      dsimp only
      by_cases ht : t = Worker.timer
      · rw [if_pos ht]
        exact .inr (.inr (.inr (goesOn_goto rfl rfl (fun _ _ => rfl) hout id (.inl hcritical))))
      · rw [if_neg ht]
        exact .inl ⟨.exit, by simp, rfl⟩
  | unlocking failed =>
    have hcritical : (w.phase t).Critical := by
      rw [hp]
      trivial
    simp only [FileProcess.run, hp]
    exact .inr (.inr (.inr (goesOn_goto rfl rfl (fun _ _ => rfl) (by rw [hp]; exact id)
      (by split_ifs <;> exact id) (.inl hcritical))))
  | checking failed =>
    simp only [FileProcess.run, hp]
    cases failed with
    | true => exact .inl ⟨.exit, by simp, rfl⟩
    | false =>
      exact .inr (.inr (.inr (goesOn_goto rfl rfl (fun _ _ => rfl) (by rw [hp]; exact id) id
        (.inr (.inr ⟨rfl, rfl, rfl, id⟩)))))
  | reading sendBuffer =>
    simp only [FileProcess.run, hp]
    have hclose : GoesOn w t .nothing (w.goto t .closing) :=
      goesOn_goto rfl rfl (fun _ _ => rfl) (by rw [hp]; exact id) id
        (.inr (.inr ⟨rfl, rfl, rfl, id⟩))
    cases env.read with
    | none => exact .inr (.inr (.inr hclose))
    | some n =>
      dsimp only
      split
      · exact .inr (.inr (.inr hclose))
      · exact .inr (.inr (.inr (goesOn_goto rfl rfl (fun u hu => by simp [FileProcess.own, hu])
          (by rw [hp]; exact id) id (.inr (.inr ⟨rfl, rfl, rfl, id⟩)))))
  | sending sendBuffer =>
    simp only [FileProcess.run, hp]
    cases string sendBuffer with
    | none => exact .inl ⟨.fault, by simp, rfl⟩
    | some str =>
      dsimp only
      by_cases hr : env.reset = true
      · rw [if_pos hr]
        exact .inl ⟨.sigpipe, by simp, rfl⟩
      · rw [if_neg hr]
        exact .inr (.inr (.inr (goesOn_goto rfl rfl (fun _ _ => rfl) (by rw [hp]; exact id) id
          (.inr (.inr ⟨rfl, rfl, rfl, id⟩)))))
  | closing =>
    simp only [FileProcess.run, hp]
    exact .inr (.inr (.inr (goesOn_goto rfl rfl (fun _ _ => rfl) (by rw [hp]; exact id) id
      (.inr (.inr ⟨rfl, rfl, rfl, id⟩)))))

/-- A step ends the process elsewhere, calls `exit_safely`, is its `pthread_join`, or goes on
outside it. -/
theorem step_cases (hl : w.Enabled l) :
    (∃ ending, ending ≠ .exitSafely ∧ w.step l = (.nothing, w.stop ending)) ∨
      (∃ u, w.exits l = some u ∧ (w.step l).2 = w.exitSafely u ∧
        ((w.phase u).Critical ∨ additionsOf [(w.step l).1] = [])) ∨
      (∃ u, w.phase u = .joining ∧ w.step l = (.nothing, w.join u)) ∨
      ∃ u, GoesOn w u (w.step l).1 (w.step l).2 := by
  cases l with
  | run u env =>
    rcases run_cases hl with hstop | ⟨hp, hs, hrun⟩ | hjoin | hgoes
    · exact .inl hstop
    · refine .inr (.inl ⟨u, if_pos ⟨hp, hs⟩, ?_, .inr ?_⟩)
      · rw [FileProcess.step, hrun]
      · rw [FileProcess.step, hrun]
        rfl
    · exact .inr (.inr (.inl ⟨u, hjoin⟩))
    · exact .inr (.inr (.inr ⟨u, hgoes⟩))
  | signal u =>
    refine .inr (.inl ⟨u, rfl, ?_, ?_⟩)
    · simp only [FileProcess.step]
      split <;> rfl
    · cases hp : w.phase u with
      | writing done => exact .inl trivial
      | _ =>
        right
        simp only [FileProcess.step, hp]
        rfl

section Join

variable (w : FileProcess) (t : Worker)

theorem join_own_ne {t u : Worker} (hu : u ≠ t) : (w.join t).own u = w.own u := by
  unfold FileProcess.join
  split_ifs
  · rfl
  · exact own_goto_ne _ hu _

theorem join_files : (w.join t).files = w.files := by
  unfold FileProcess.join
  split_ifs <;> rfl

theorem join_mutex : (w.join t).mutex = w.mutex := by
  unfold FileProcess.join
  split_ifs <;> rfl

/-- With a thread that waits already, a join ends the process. -/
theorem join_of_joiner (h : w.joiner = some u) : w.join t = w.stop .exitSafely := by
  rw [FileProcess.join, if_pos (.inr (by rw [h]; rfl))]

end Join

theorem stopping_step (hs : (w.phase t).Stopping) (hl : w.Enabled l) :
    ((w.step l).2.phase t).Stopping := by
  rcases step_cases hl with ⟨ending, -, hstep⟩ | ⟨u, -, hstep, -⟩ | ⟨u, hp, hstep⟩ | ⟨u, hgoes⟩
  · rw [hstep]
    exact hs
  · rw [hstep]
    by_cases hu : t = u
    · rw [hu, exitSafely_phase]
      trivial
    · rwa [phase_of_own (exitSafely_own_ne w hu)]
  · rw [hstep]
    by_cases hu : t = u
    · subst hu
      unfold FileProcess.join
      split_ifs
      · exact hs
      · rw [goto_phase]
        trivial
    · rwa [phase_of_own (join_own_ne w hu)]
  · have hu : t ≠ u := by
      rintro rfl
      exact hgoes.outside hs
    rwa [phase_of_own (hgoes.others t hu)]

/-- A thread that waits is the one that joins the timer thread. -/
def Joined (w : FileProcess) : Prop := ∀ u, w.phase u = .waiting → w.joiner = some u

theorem joined_step (h : Joined w) (hl : w.Enabled l) : Joined (w.step l).2 := by
  intro v hv
  rcases step_cases hl with ⟨ending, -, hstep⟩ | ⟨u, -, hstep, -⟩ | ⟨u, hp, hstep⟩ | ⟨u, hgoes⟩
  · rw [hstep] at hv ⊢
    exact h v hv
  · rw [hstep] at hv ⊢
    have hne : v ≠ u := by
      rintro rfl
      rw [exitSafely_phase] at hv
      cases hv
    rw [phase_of_own (exitSafely_own_ne w hne)] at hv
    exact h v hv
  · rw [hstep] at hv ⊢
    cases hj : w.joiner with
    | some j =>
      rw [join_of_joiner w u hj] at hv ⊢
      exact h v hv
    | none =>
      -- nobody waits yet
      by_cases hu : v = u
      · subst hu
        unfold FileProcess.join at hv ⊢
        split_ifs at hv ⊢ with hself
        · rw [show (w.stop .exitSafely).phase v = .joining from hp] at hv
          cases hv
        · rfl
      · rw [phase_of_own (join_own_ne w hu)] at hv
        rw [h v hv] at hj
        cases hj
  · have hne : v ≠ u := by
      rintro rfl
      apply hgoes.stays
      rw [hv]
      trivial
    rw [phase_of_own (hgoes.others v hne)] at hv
    rw [hgoes.joiner]
    exact h v hv

theorem joiner_step (h : w.joiner = some t) (hl : w.Enabled l) : (w.step l).2.joiner = some t := by
  rcases step_cases hl with ⟨ending, -, hstep⟩ | ⟨u, -, hstep, -⟩ | ⟨u, -, hstep⟩ | ⟨u, hgoes⟩
  · rw [hstep]
    exact h
  · rw [hstep]
    exact h
  · rw [hstep, join_of_joiner w u h]
    exact h
  · rw [hgoes.joiner, h]

/-- A thread that waits goes on only with a signal, which calls `exit_safely` again. -/
theorem waiting_step (hp : w.phase t = .waiting) (hl : w.Enabled l) :
    (w.step l).2.phase t = .waiting ∨ w.exits l = some t := by
  rcases step_cases hl with ⟨ending, -, hstep⟩ | ⟨u, hexits, hstep, -⟩ | ⟨u, hu, hstep⟩ | ⟨u, hgoes⟩
  · rw [hstep]
    exact .inl hp
  · by_cases htu : t = u
    · rw [htu]
      exact .inr hexits
    · rw [hstep, phase_of_own (exitSafely_own_ne w htu)]
      exact .inl hp
  · have htu : t ≠ u := by
      rintro rfl
      rw [hp] at hu
      cases hu
    rw [hstep, phase_of_own (join_own_ne w htu)]
    exact .inl hp
  · have htu : t ≠ u := by
      rintro rfl
      apply hgoes.outside
      rw [hp]
      trivial
    rw [phase_of_own (hgoes.others t htu)]
    exact .inl hp

/-- Without a call of `exit_safely` nobody comes to its `pthread_join`, and so to `exit(0)`. -/
theorem noJoining_step (h : ∀ u, w.phase u ≠ .joining) (hended : w.ended ≠ some .exitSafely)
    (hl : w.Enabled l) (hexits : w.exits l = none) :
    (∀ u, (w.step l).2.phase u ≠ .joining) ∧ (w.step l).2.ended ≠ some .exitSafely := by
  rcases step_cases hl with ⟨ending, hending, hstep⟩ | ⟨u, hcalls, -⟩ | ⟨u, hu, -⟩ | ⟨u, hgoes⟩
  · rw [hstep]
    exact ⟨h, fun heq => hending (Option.some.inj heq)⟩
  · rw [hexits] at hcalls
    cases hcalls
  · exact absurd hu (h u)
  · refine ⟨fun v hv => ?_, by rwa [hgoes.ended]⟩
    by_cases hne : v = u
    · subst hne
      apply hgoes.stays
      rw [hv]
      trivial
    · rw [phase_of_own (hgoes.others v hne)] at hv
      exact h v hv

/-- The thread that holds the mutex is in `exit_safely`. -/
structure Jammed (w : FileProcess) (t : Worker) : Prop where
  mutex : w.mutex = some t
  stopping : (w.phase t).Stopping
  noneCritical : ∀ u, ¬ (w.phase u).Critical

theorem Jammed.of_step (h : Jammed w t) {w' : FileProcess} (hmutex : w'.mutex = w.mutex)
    (hstop : (w'.phase t).Stopping) (hother : ∀ v, v ≠ u → w'.own v = w.own v)
    (hu : ¬ (w'.phase u).Critical) : Jammed w' t where
  mutex := hmutex.trans h.mutex
  stopping := hstop
  noneCritical v := by
    by_cases hv : v = u
    · rwa [hv]
    · rw [phase_of_own (hother v hv)]
      exact h.noneCritical v

theorem Jammed.step (h : Jammed w t) (hl : w.Enabled l) :
    Jammed (w.step l).2 t ∧ (w.step l).2.files = w.files ∧ additionsOf [(w.step l).1] = [] := by
  have hstop := stopping_step h.stopping hl
  rcases step_cases hl with
    ⟨ending, -, hstep⟩ | ⟨u, -, hstep, hadded⟩ | ⟨u, hp, hstep⟩ | ⟨u, hgoes⟩
  · rw [hstep] at hstop ⊢
    exact ⟨⟨h.mutex, hstop, h.noneCritical⟩, rfl, rfl⟩
  · rw [hstep] at hstop ⊢
    refine ⟨h.of_step (u := u) (exitSafely_mutex w u) hstop
      (fun v hv => exitSafely_own_ne w hv) ?_,
      exitSafely_files w u, hadded.resolve_left (h.noneCritical u)⟩
    rw [exitSafely_phase]
    exact id
  · rw [hstep] at hstop ⊢
    refine ⟨h.of_step (u := u) (join_mutex w u) hstop (fun v hv => join_own_ne w hv) ?_,
      join_files w u, rfl⟩
    unfold FileProcess.join
    split_ifs
    · exact h.noneCritical u
    · rw [goto_phase]
      exact id
  · -- no lock and no unlock comes: the mutex is taken, and its holder waits
    rcases hgoes.critical with hcritical | ⟨-, hfree⟩ | ⟨hfiles, hmutex, hadded, hphase⟩
    · exact absurd hcritical (h.noneCritical u)
    · rw [h.mutex] at hfree
      cases hfree
    · exact ⟨h.of_step hmutex hstop hgoes.others hphase, hfiles, hadded⟩

theorem jammed_run (h : Jammed w t) {actions : List FileAction}
    (hv : Valid FileProcess.step FileProcess.Enabled w actions) :
    (exec FileProcess.step w actions).files = w.files ∧
      additionsOf (replies FileProcess.step w actions) = [] := by
  induction actions generalizing w with
  | nil => exact ⟨rfl, rfl⟩
  | cons l actions ih =>
    obtain ⟨hnext, hfiles, hadded⟩ := h.step hv.1
    obtain ⟨hend, hnone⟩ := ih hnext hv.2
    refine ⟨hend.trans hfiles, ?_⟩
    rw [replies_cons, ← List.singleton_append, additionsOf_append, hadded, hnone]
    rfl

theorem waiting_run (hp : w.phase t = .waiting) {actions : List FileAction}
    (hv : Valid FileProcess.step FileProcess.Enabled w actions) :
    (exec FileProcess.step w actions).phase t = .waiting ∨ t ∈ exitsIn w actions := by
  induction actions generalizing w with
  | nil => exact .inl hp
  | cons l actions ih =>
    rw [exitsIn, along_cons, List.mem_append]
    rcases waiting_step hp hv.1 with hnext | hexits
    · exact (ih hnext hv.2).imp_right .inr
    · rw [hexits]
      exact .inr (.inl List.mem_cons_self)

theorem noJoining_run (h : ∀ u, w.phase u ≠ .joining) (hended : w.ended ≠ some .exitSafely)
    {actions : List FileAction} (hv : Valid FileProcess.step FileProcess.Enabled w actions)
    (hexits : exitsIn w actions = []) :
    (exec FileProcess.step w actions).ended ≠ some .exitSafely := by
  induction actions generalizing w with
  | nil => exact hended
  | cons l actions ih =>
    rw [exitsIn, along_cons, List.append_eq_nil_iff] at hexits
    have hnone : w.exits l = none := Option.toList_eq_nil_iff.mp hexits.1
    obtain ⟨hnext, hended'⟩ := noJoining_step h hended hv.1 hnone
    exact ih hnext hended' hv.2 hexits.2

end Stop

/-- **A stop that hangs.** A thread in the `pthread_join` of `exit_safely` waits there until another
signal, and the process comes to `exit(0)` only if a thread is before its own `pthread_join` or
`exit_safely` is called once more, which then always gets there. If the waiting thread has the
mutex, no file gets another byte. -/
theorem exitSafely_hangs (packet : ℕ → List UInt8) {before after : List FileAction} {t : Worker}
    (h : Valid FileProcess.step FileProcess.Enabled (.init packet) (before ++ after))
    (hwait : (exec FileProcess.step (.init packet) before).phase t = .waiting) :
    let w := exec FileProcess.step (.init packet) before
    let w' := exec FileProcess.step w after
    (w'.phase t = .waiting ∨ t ∈ exitsIn w after) ∧
      (w'.ended = some .exitSafely →
        w.ended = some .exitSafely ∨ (∃ u, w.phase u = .joining) ∨ exitsIn w after ≠ []) ∧
      (∀ u env, w'.ended = none → w'.phase u = .joining →
        w'.Enabled (.run u env) ∧ (w'.step (.run u env)).2.ended = some .exitSafely) ∧
      (w.mutex = some t →
        w'.files = w.files ∧ additionsOf (replies FileProcess.step w after) = []) := by
  intro w w'
  obtain ⟨hbefore, hafter⟩ := (valid_append _ _ _).mp h
  have hjoined : Joined w :=
    exec_invariant Joined (fun _ _ hjoined hl => joined_step hjoined hl)
      (fun u hu => by cases u <;> cases hu) hbefore
  have hjoiner : w'.joiner = some t :=
    exec_invariant (fun w : FileProcess => w.joiner = some t)
      (fun _ _ hjoiner hl => joiner_step hjoiner hl) (hjoined t hwait) hafter
  refine ⟨waiting_run hwait hafter, fun hend => ?_, fun u env hended hu => ?_, fun hm => ?_⟩
  · by_contra hno
    push Not at hno
    exact noJoining_run hno.2.1 hno.1 hafter hno.2.2 hend
  · refine ⟨⟨hended, ?_⟩, ?_⟩
    · simp only [hu]
    · simp only [FileProcess.step, FileProcess.run, hu, join_of_joiner w' u hjoiner]
      rfl
  · have hstopping : (w.phase t).Stopping := by
      rw [hwait]
      trivial
    have hnone (u : Worker) : ¬ (w.phase u).Critical := by
      intro hu
      obtain rfl : t = u := Option.some.inj (hm.symm.trans ((kept_run hbefore).critical u hu))
      rw [hwait] at hu
      exact hu
    exact jammed_run ⟨hm, hstopping, hnone⟩ hafter

/-- Session 0 is in its `write` when the signal comes. -/
def stoppedWrite : List FileAction :=
  timedRun.take 5 ++ [.signal (.session 0), .run (.session 0) (goodEnv .returns)]

theorem exitSafely_hangs_stoppedWrite :
    (exec FileProcess.step (exec FileProcess.step (.init fun _ => [97, 10]) stoppedWrite)
      [.run .timer (goodEnv .returns), .signal .main]).files =
        (exec FileProcess.step (.init fun _ => [97, 10]) stoppedWrite).files :=
  ((@exitSafely_hangs (fun _ => [97, 10]) stoppedWrite
    [.run .timer (goodEnv .returns), .signal .main] (.session 0) (by decide +kernel)
    (by decide +kernel)).2.2.2 (by decide +kernel)).1

end Aesd.Server
