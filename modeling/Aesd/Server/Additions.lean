import Aesd.Server.FileProcess

/-!
# Additions to the file

What the mutex of the file build keeps: every addition stays in one piece, and a session reads
what comes behind its own.
-/

namespace Aesd.Server
open CString StepRuns

def FilePhase.Critical : FilePhase → Prop
  | .writing _ | .unlocking _ => True
  | _ => False

def FilePhase.Past : FilePhase → Prop
  | .unlocking _ | .reading _ | .sending _ | .closing | .returned => True
  | _ => False

def FilePhase.Stopping : FilePhase → Prop
  | .joining | .waiting => True
  | _ => False

def Own.Writes (packet : ℕ → List UInt8) (t : Worker) (v : Own) : Prop :=
  match t with
  | .main => v.phase = .accepting ∨ v.phase.Stopping
  | .timer => v.phase = .formatting ∨ v.phase.Stopping ∨ ∃ tm, v.text = timestamp tm
  | .session k => v.text = packet k

/-- Where an addition comes from. -/
def Addition.Of (packet : ℕ → List UInt8) (a : Addition) : Prop :=
  match a.worker with
  | .main => False
  | .timer => ∃ tm, a.bytes <+: timestamp tm
  | .session k => a.bytes <+: packet k

/-- Where the reads begin behind an addition of one's own: a `write` of nothing leaves the offset
at the start of the file. -/
def readStart (before : List Addition) (a : Addition) : ℕ :=
  if a.bytes = [] then 0 else (bytesIn a.file (before ++ [a])).length

/-- The offset of a session, and what its reads have brought. -/
def Own.Behind (files : ℕ → List UInt8) (additions : List Addition) (k : ℕ)
    (reads : List (List UInt8)) (v : Own) : Prop :=
  match v.phase with
  | .opening => reads = []
  | .testing | .locking => reads = [] ∧ v.offset = 0
  | .writing done => reads = [] ∧ done ≤ v.text.length ∧
      v.offset = if done = 0 then 0 else (files v.file).length
  | .unlocking _ | .reading _ | .sending _ | .closing | .returned =>
    ∃ before a after, additions = before ++ a :: after ∧ a.worker = .session k ∧ a.file = v.file ∧
      reads.flatten <+: (files a.file).drop (readStart before a) ∧
      v.offset = readStart before a + reads.flatten.length
  | .joining | .waiting => True
  | .accepting | .formatting | .checking _ => False

structure Kept (packet : ℕ → List UInt8) (reports : List Report) (w : FileProcess) : Prop where
  critical : ∀ t, (w.phase t).Critical → w.mutex = some t
  bytes : ∀ i, w.files i = bytesIn i (additionsOf reports) ++ w.unfinished i
  writes : ∀ t, (w.own t).Writes packet t
  additions : ∀ a ∈ additionsOf reports, a.Of packet
  behind : ∀ k, (w.own (.session k)).Behind w.files (additionsOf reports) k (readsOf k reports)

theorem kept_init (packet : ℕ → List UInt8) : Kept packet [] (.init packet) where
  critical t h := by cases t <;> exact h.elim
  bytes _ := rfl
  writes t := by
    cases t with
    | main => exact .inl rfl
    | timer => exact .inl rfl
    | session k => rfl
  additions _ h := by cases h
  behind _ := rfl

section Kept

variable {packet : ℕ → List UInt8} {reports : List Report} {w w' : FileProcess} {t : Worker}

/-- Bytes behind what was there change nothing for a session that is not writing. -/
theorem Own.Behind.grow {files files' : ℕ → List UInt8} {additions more : List Addition} {k : ℕ}
    {reads : List (List UInt8)} {v : Own} (h : v.Behind files additions k reads)
    (hfiles : ∀ i, files i <+: files' i)
    (hv : (∃ done, v.phase = .writing done) → files' v.file = files v.file) :
    v.Behind files' (additions ++ more) k reads := by
  have hpast (h : ∃ before a after, additions = before ++ a :: after ∧ a.worker = .session k ∧
      a.file = v.file ∧ reads.flatten <+: (files a.file).drop (readStart before a) ∧
      v.offset = readStart before a + reads.flatten.length) :
      ∃ before a after, additions ++ more = before ++ a :: after ∧ a.worker = .session k ∧
        a.file = v.file ∧ reads.flatten <+: (files' a.file).drop (readStart before a) ∧
        v.offset = readStart before a + reads.flatten.length := by
    obtain ⟨before, a, after, rfl, hworker, hfile, hreads, hoffset⟩ := h
    refine ⟨before, a, after ++ more, by simp, hworker, hfile, hreads.trans ?_, hoffset⟩
    exact (hfiles a.file).drop _
  unfold Own.Behind at h ⊢
  cases hp : v.phase with
  | writing done =>
    rw [hp] at h
    simp only [hv ⟨done, hp⟩]
    exact h
  | unlocking | reading | sending | closing | returned =>
    rw [hp] at h
    exact hpast h
  | _ =>
    rw [hp] at h
    exact h

theorem Kept.holder (h : Kept packet reports w) {u : Worker} (ht : (w.phase t).Critical)
    (hu : (w.phase u).Critical) : u = t :=
  Option.some.inj ((h.critical u hu).symm.trans (h.critical t ht))

theorem Own.unfinished_eq_nil {v : Own} (h : ∀ done, v.phase ≠ .writing done) (i : ℕ) :
    v.unfinished i = [] := by
  unfold Own.unfinished
  cases hp : v.phase with
  | writing done => exact absurd hp (h done)
  | _ => rfl

theorem unfinished_of_holder (hm : w.mutex = some t) (i : ℕ) :
    w.unfinished i = (w.own t).unfinished i := by
  rw [FileProcess.unfinished, hm]

/-- The unfinished `write` is that of the holder, so another thread's step leaves it. -/
theorem unfinished_congr (hmutex : w'.mutex = w.mutex) (hother : ∀ u, u ≠ t → w'.own u = w.own u)
    {i : ℕ} (ht : (w'.own t).unfinished i = (w.own t).unfinished i) :
    w'.unfinished i = w.unfinished i := by
  unfold FileProcess.unfinished
  rw [hmutex]
  cases hm : w.mutex with
  | none => rfl
  | some u =>
    by_cases hu : u = t
    · subst hu
      exact ht
    · exact congrArg (Own.unfinished · i) (hother u hu)

/-- What is to be shown of a step of one thread: the mutex and the files, and what the thread
itself goes on with. -/
theorem Kept.of_step (h : Kept packet reports w) {r : Report}
    (hother : ∀ u, u ≠ t → w'.own u = w.own u)
    (hcritical : ∀ u, (w'.phase u).Critical → w'.mutex = some u)
    (hbytes : ∀ i, w'.files i = bytesIn i (additionsOf (reports ++ [r])) ++ w'.unfinished i)
    (hgrow : ∀ i, w.files i <+: w'.files i)
    (hsame : ∀ u, u ≠ t → (∃ done, w.phase u = .writing done) → w'.files = w.files)
    (hadditions : ∀ a ∈ additionsOf [r], a.Of packet)
    (hread : ∀ k, t ≠ .session k → readsOf k [r] = [])
    (hwrites : (w'.own t).Writes packet t)
    (hbehind : ∀ k, t = .session k → (w'.own t).Behind w'.files (additionsOf (reports ++ [r])) k
      (readsOf k (reports ++ [r]))) : Kept packet (reports ++ [r]) w' := by
  refine ⟨hcritical, hbytes, fun u => ?_, fun a ha => ?_, fun k => ?_⟩
  · by_cases hu : u = t
    · rw [hu]
      exact hwrites
    · rw [hother u hu]
      exact h.writes u
  · rw [additionsOf_append, List.mem_append] at ha
    exact ha.elim (h.additions a) (hadditions a)
  · by_cases hk : t = .session k
    · rw [← hk]
      exact hbehind k hk
    · have hne := Ne.symm hk
      rw [additionsOf_append, readsOf_append, hread k hk, List.append_nil, hother _ hne]
      exact (h.behind k).grow hgrow fun hp => congrFun (hsame _ hne hp) _

theorem phase_of_own {u : Worker} (h : w'.own u = w.own u) : w'.phase u = w.phase u :=
  congrArg Own.phase h

/-- A step of one thread outside its `write`. -/
theorem Kept.move (h : Kept packet reports w) {r : Report} (hfiles : w'.files = w.files)
    (hmutex : w'.mutex = w.mutex) (hother : ∀ u, u ≠ t → w'.own u = w.own u)
    (hout : ∀ done, w.phase t ≠ .writing done) (hout' : ¬ (w'.phase t).Critical)
    (hadded : additionsOf (reports ++ [r]) = additionsOf reports)
    (hread : ∀ k, t ≠ .session k → readsOf k [r] = [])
    (hwrites : (w'.own t).Writes packet t)
    (hbehind : ∀ k, t = .session k → (w'.own t).Behind w.files (additionsOf reports) k
      (readsOf k (reports ++ [r]))) : Kept packet (reports ++ [r]) w' := by
  refine h.of_step hother (fun u hu => ?_) (fun i => ?_) (fun i => ?_) (fun _ _ _ => hfiles)
    (fun a ha => ?_) hread hwrites fun k hk => ?_
  · have hne : u ≠ t := by
      rintro rfl
      exact hout' hu
    rw [hmutex]
    rw [phase_of_own (hother u hne)] at hu
    exact h.critical u hu
  · have hnone : ∀ done, (w'.own t).phase ≠ .writing done := by
      intro done hp
      apply hout'
      rw [show w'.phase t = .writing done from hp]
      trivial
    rw [hfiles, h.bytes i, hadded, unfinished_congr hmutex hother]
    rw [Own.unfinished_eq_nil hnone, Own.unfinished_eq_nil hout]
  · rw [hfiles]
  · rw [additionsOf_append, List.append_right_eq_self] at hadded
    rw [hadded] at ha
    cases ha
  · rw [hfiles, hadded]
    exact hbehind k hk

theorem Kept.stop (h : Kept packet reports w) (ending : Ending) :
    Kept packet (reports ++ [.nothing]) (w.stop ending) where
  critical := h.critical
  bytes i := by
    rw [additionsOf_nothing]
    exact h.bytes i
  writes := h.writes
  additions := by
    rw [additionsOf_nothing]
    exact h.additions
  behind k := by
    rw [additionsOf_nothing, readsOf_nothing]
    exact h.behind k

theorem Kept.joiner (h : Kept packet reports w) (joiner : Option Worker) :
    Kept packet reports { w with joiner } :=
  ⟨h.critical, h.bytes, h.writes, h.additions, h.behind⟩

theorem own_goto (w : FileProcess) (t : Worker) (phase : FilePhase) :
    (w.goto t phase).own t = { w.own t with phase } := by
  simp [FileProcess.own, FileProcess.goto]

theorem own_goto_ne (w : FileProcess) {t u : Worker} (hu : u ≠ t) (phase : FilePhase) :
    (w.goto t phase).own u = w.own u := by
  simp [FileProcess.own, FileProcess.goto, hu]

theorem goto_phase (w : FileProcess) (t : Worker) (phase : FilePhase) :
    (w.goto t phase).phase t = phase := Function.update_self ..

/-- A thread that goes on to another phase, with nothing else changed. -/
theorem Kept.goto (h : Kept packet reports w) {phase : FilePhase}
    (hout : ∀ done, w.phase t ≠ .writing done) (hphase : ¬ phase.Critical)
    (hwrites : Own.Writes packet t { w.own t with phase })
    (hbehind : ∀ k, t = .session k →
      Own.Behind w.files (additionsOf reports) k (readsOf k reports) { w.own t with phase }) :
    Kept packet (reports ++ [.nothing]) (w.goto t phase) := by
  refine h.move rfl rfl (fun u hu => own_goto_ne w hu phase) hout ?_ (additionsOf_nothing _)
    (fun _ _ => rfl) ?_ fun k hk => ?_
  · rwa [goto_phase]
  · rwa [own_goto]
  · rw [own_goto, readsOf_nothing]
    exact hbehind k hk

@[simp] theorem exitSafely_own (w : FileProcess) (t u : Worker) :
    (w.exitSafely t).own u = (w.goto t .joining).own u := rfl

@[simp] theorem exitSafely_files (w : FileProcess) (t : Worker) : (w.exitSafely t).files = w.files := rfl

@[simp] theorem exitSafely_mutex (w : FileProcess) (t : Worker) : (w.exitSafely t).mutex = w.mutex := rfl

theorem exitSafely_phase (w : FileProcess) (t : Worker) : (w.exitSafely t).phase t = .joining :=
  goto_phase ..

theorem exitSafely_own_ne (w : FileProcess) {t u : Worker} (hu : u ≠ t) :
    (w.exitSafely t).own u = w.own u := by
  rw [exitSafely_own, own_goto_ne w hu]

theorem writes_stopping (h : (w.own t).Writes packet t) {phase : FilePhase}
    (hphase : phase.Stopping) : Own.Writes packet t { w.own t with phase } := by
  cases t with
  | main => exact .inr hphase
  | timer => exact .inr (.inl hphase)
  | session k => exact h

theorem Kept.exitSafely (h : Kept packet reports w) (hout : ∀ done, w.phase t ≠ .writing done) :
    Kept packet (reports ++ [.nothing]) (w.exitSafely t) := by
  refine h.move (exitSafely_files w t) (exitSafely_mutex w t) (fun u hu => exitSafely_own_ne w hu)
    hout ?_ (additionsOf_nothing _) (fun _ _ => rfl) ?_ fun k hk => ?_
  · rw [exitSafely_phase]
    exact id
  · rw [exitSafely_own, own_goto]
    exact writes_stopping (h.writes t) trivial
  · rw [exitSafely_own, own_goto]
    trivial

theorem Kept.addition_of (h : Kept packet reports w) {done : ℕ} (hp : w.phase t = .writing done) :
    (w.addition t done).Of packet := by
  have hw := h.writes t
  have htake := List.take_prefix done (w.text t)
  have hout : ¬ (w.phase t).Stopping := by
    rw [hp]
    exact id
  cases t with
  | main =>
    rcases hw with hw | hw
    · exact absurd (hp.symm.trans hw) (by simp)
    · exact absurd hw hout
  | timer =>
    rcases hw with hw | hw | ⟨tm, htm⟩
    · exact absurd (hp.symm.trans hw) (by simp)
    · exact absurd hw hout
    · exact ⟨tm, htm ▸ htake⟩
  | session k =>
    have htext : w.text (.session k) = packet k := hw
    change (w.text (.session k)).take done <+: packet k
    rwa [htext] at htake ⊢

theorem Kept.add (h : Kept packet reports w) {done : ℕ} (hp : w.phase t = .writing done)
    (hfiles : w'.files = w.files) (hmutex : w'.mutex = w.mutex)
    (hother : ∀ u, u ≠ t → w'.own u = w.own u) (hout' : ∀ done, w'.phase t ≠ .writing done)
    (hwrites : (w'.own t).Writes packet t)
    (hbehind : ∀ k, t = .session k → (w'.own t).Behind w.files
      (additionsOf reports ++ [w.addition t done]) k (readsOf k reports)) :
    Kept packet (reports ++ [.added (w.addition t done)]) w' := by
  have hcritical : (w.phase t).Critical := by
    rw [hp]
    trivial
  have hm := h.critical t hcritical
  have hadded : additionsOf (reports ++ [.added (w.addition t done)]) =
      additionsOf reports ++ [w.addition t done] := by simp [additionsOf]
  have hreads (k : ℕ) : readsOf k (reports ++ [.added (w.addition t done)]) = readsOf k reports := by
    simp [readsOf]
  refine h.of_step hother (fun u hu => ?_) (fun i => ?_) (fun i => ?_) (fun _ _ _ => hfiles)
    (fun a ha => ?_) (fun _ _ => rfl) hwrites fun k hk => ?_
  · rw [hmutex]
    by_cases hut : u = t
    · rw [hut]
      exact hm
    · rw [phase_of_own (hother u hut)] at hu
      exact h.critical u hu
  · have hnone : w'.unfinished i = [] := by
      rw [unfinished_of_holder (hmutex.trans hm)]
      exact Own.unfinished_eq_nil hout' i
    have hsome : w.unfinished i = bytesIn i [w.addition t done] := by
      rw [bytesIn_singleton, unfinished_of_holder hm]
      simp only [Own.unfinished, FileProcess.own, hp, FileProcess.addition]
      rfl
    rw [hfiles, h.bytes i, hnone, hsome, hadded, bytesIn_append, List.append_nil]
  · rw [hfiles]
  · obtain rfl := List.mem_singleton.mp ha
    exact h.addition_of hp
  · rw [hadded, hreads, hfiles]
    exact hbehind k hk

/-- With its text at hand a thread has it to write in all its phases. -/
theorem writes_of_text (h : (w.own t).Writes packet t) (hmain : w.phase t ≠ .accepting)
    (hstop : ¬ (w.phase t).Stopping) (hformat : w.phase t ≠ .formatting) {v : Own}
    (hv : v.text = w.text t) : v.Writes packet t := by
  cases t with
  | main => exact (h.elim hmain hstop).elim
  | timer =>
    refine .inr (.inr ?_)
    rw [hv]
    exact h.elim (absurd · hformat) fun h => h.elim (absurd · hstop) id
  | session k => exact hv.trans h

theorem Kept.lock (h : Kept packet reports w) (hp : w.phase t = .locking) (hfree : w.mutex = none) :
    Kept packet (reports ++ [.nothing]) ({ w with mutex := some t }.goto t (.writing 0)) := by
  have hnone (u : Worker) : ¬ (w.phase u).Critical := by
    intro hu
    have hm := h.critical u hu
    rw [hfree] at hm
    cases hm
  have hown : ({ w with mutex := some t }.goto t (.writing 0)).own t =
      { w.own t with phase := .writing 0 } := own_goto w t _
  refine h.of_step (fun u hu => own_goto_ne w hu _) (fun u hu => ?_) (fun i => ?_)
    (fun _ => List.prefix_rfl) (fun _ _ _ => rfl) (fun _ ha => by cases ha) (fun _ _ => rfl) ?_
    fun k hk => ?_
  · by_cases hut : u = t
    · rw [hut]
      rfl
    · exact absurd (by simpa [FileProcess.goto, hut] using hu) (hnone u)
  · have hbefore : w.unfinished i = [] := by
      unfold FileProcess.unfinished
      rw [hfree]
    have hafter : ({ w with mutex := some t }.goto t (.writing 0)).unfinished i = [] := by
      change Own.unfinished (({ w with mutex := some t }.goto t (.writing 0)).own t) i = []
      rw [hown]
      simp [Own.unfinished]
    rw [additionsOf_nothing, hafter, ← hbefore]
    exact h.bytes i
  · rw [hown]
    exact writes_of_text (h.writes t) (by simp [hp]) (by rw [hp]; exact id) (by simp [hp]) rfl
  · have hb := h.behind k
    rw [← hk] at hb
    simp only [Own.Behind, FileProcess.own, hp] at hb
    rw [hown, readsOf_nothing]
    exact ⟨hb.1, Nat.zero_le _, hb.2⟩

theorem Kept.unlock (h : Kept packet reports w) {failed : Bool} (hp : w.phase t = .unlocking failed) :
    Kept packet (reports ++ [.nothing]) ({ w with mutex := none }.goto t
      (if t = Worker.timer then .checking failed else .reading clearBuffer)) := by
  have hcritical : (w.phase t).Critical := by
    rw [hp]
    trivial
  set next : FilePhase := if t = Worker.timer then .checking failed else .reading clearBuffer with hnext
  have hnext' : ¬ next.Critical := by
    rw [hnext]
    split_ifs <;> exact id
  have hown : ({ w with mutex := none }.goto t next).own t = { w.own t with phase := next } :=
    own_goto w t _
  refine h.of_step (fun u hu => own_goto_ne w hu _) (fun u hu => ?_) (fun i => ?_)
    (fun _ => List.prefix_rfl) (fun _ _ _ => rfl) (fun _ ha => by cases ha) (fun _ _ => rfl) ?_
    fun k hk => ?_
  · by_cases hut : u = t
    · subst hut
      exact absurd (by simpa [FileProcess.goto] using hu) hnext'
    · have hu' : (w.phase u).Critical := by simpa [FileProcess.goto, hut] using hu
      exact absurd (h.holder hcritical hu') hut
  · have hbefore : w.unfinished i = [] := by
      rw [unfinished_of_holder (h.critical t hcritical)]
      exact Own.unfinished_eq_nil (by simp [FileProcess.own, hp]) i
    have hbytes := h.bytes i
    rw [hbefore] at hbytes
    rw [additionsOf_nothing]
    exact hbytes
  · rw [hown]
    exact writes_of_text (h.writes t) (by simp [hp]) (by rw [hp]; exact id) (by simp [hp]) rfl
  · have hb := h.behind k
    rw [← hk] at hb
    simp only [Own.Behind, FileProcess.own, hp] at hb
    rw [hown, readsOf_nothing, additionsOf_nothing, hnext, if_neg (by simp [hk])]
    exact hb

theorem Kept.append (h : Kept packet reports w) {done : ℕ} (hp : w.phase t = .writing done) {n : ℕ}
    (hn : 0 < n) (hdone : done < (w.text t).length) :
    let piece := ((w.text t).drop done).take n
    Kept packet (reports ++ [.nothing])
      ((w.append t piece).goto t (.writing (done + piece.length))) := by
  intro piece
  have hcritical : (w.phase t).Critical := by
    rw [hp]
    trivial
  have hm := h.critical t hcritical
  have hlen : 0 < piece.length ∧ done + piece.length ≤ (w.text t).length := by
    simp only [piece, List.length_take, List.length_drop]
    omega
  have htake : (w.text t).take (done + piece.length) = (w.text t).take done ++ piece := by
    rw [List.take_add]
    congr 1
    simp [piece]
  have hown : ((w.append t piece).goto t (.writing (done + piece.length))).own t =
      ⟨.writing (done + piece.length), w.text t, w.file t, (w.files (w.file t) ++ piece).length⟩ := by
    rw [own_goto]
    simp [FileProcess.own, FileProcess.append]
  have hfiles : ((w.append t piece).goto t (.writing (done + piece.length))).files =
      Function.update w.files (w.file t) (w.files (w.file t) ++ piece) := rfl
  refine h.of_step (t := t) (fun u hu => ?_) (fun u hu => ?_) (fun i => ?_) (fun i => ?_)
    (fun u hu hw => ?_) (fun _ ha => by cases ha) (fun _ _ => rfl) ?_ fun k hk => ?_
  · rw [own_goto_ne _ hu]
    simp [FileProcess.own, FileProcess.append, hu]
  · by_cases hut : u = t
    · rw [hut]
      exact hm
    · exact h.critical u (by simpa [FileProcess.goto, FileProcess.append, hut] using hu)
  · have hbefore : w.unfinished i = if w.file t = i then (w.text t).take done else [] := by
      unfold FileProcess.unfinished
      rw [hm]
      simp only [Own.unfinished, FileProcess.own, hp]
    have hafter : ((w.append t piece).goto t (.writing (done + piece.length))).unfinished i =
        if w.file t = i then (w.text t).take done ++ piece else [] := by
      have hholder : ((w.append t piece).goto t (.writing (done + piece.length))).mutex = some t := hm
      rw [unfinished_of_holder hholder, hown]
      simp only [Own.unfinished, htake]
    rw [hfiles, hafter, additionsOf_nothing]
    have hbytes := h.bytes i
    rw [hbefore] at hbytes
    by_cases hi : w.file t = i
    · subst hi
      rw [if_pos rfl] at hbytes ⊢
      rw [Function.update_self, hbytes, List.append_assoc]
    · rw [if_neg hi] at hbytes ⊢
      rw [Function.update_of_ne (Ne.symm hi), hbytes]
  · rw [hfiles]
    by_cases hi : i = w.file t
    · subst hi
      rw [Function.update_self]
      exact List.prefix_append _ _
    · rw [Function.update_of_ne hi]
  · obtain ⟨done', hw⟩ := hw
    have hwc : (w.phase u).Critical := by
      rw [hw]
      trivial
    exact absurd (h.holder hcritical hwc) hu
  · rw [hown]
    exact writes_of_text (h.writes t) (by simp [hp]) (by rw [hp]; exact id) (by simp [hp]) rfl
  · have hb := h.behind k
    rw [← hk] at hb
    simp only [Own.Behind, FileProcess.own, hp] at hb
    rw [hown, readsOf_nothing, hfiles]
    refine ⟨hb.1, hlen.2, ?_⟩
    rw [if_neg (by omega), Function.update_self]

theorem Kept.openFile (h : Kept packet reports w) (hp : w.phase t = .opening) :
    Kept packet (reports ++ [.nothing])
      ((w.openFile t).goto t (if t = Worker.timer then .locking else .testing)) := by
  set next : FilePhase := if t = Worker.timer then .locking else .testing with hnext
  have hopened : ∃ i created named, w.openFile t =
      { w with
        created := created
        named := named
        file := Function.update w.file t i
        offset := Function.update w.offset t 0 } := by
    unfold FileProcess.openFile
    cases hnamed : w.named with
    | none => exact ⟨_, _, _, rfl⟩
    | some i => exact ⟨i, w.created, w.named, by rw [hnamed]⟩
  obtain ⟨i, created, named, hopened⟩ := hopened
  rw [hopened]
  refine h.move (t := t) rfl rfl (fun u hu => ?_) (by simp [hp]) ?_ (additionsOf_nothing _)
    (fun _ _ => rfl) ?_ fun k hk => ?_
  · rw [own_goto_ne _ hu]
    simp [FileProcess.own, hu]
  · rw [show FileProcess.phase _ t = next from Function.update_self .., hnext]
    split_ifs <;> exact id
  · rw [own_goto]
    exact writes_of_text (h.writes t) (by simp [hp]) (by rw [hp]; exact id) (by simp [hp]) rfl
  · have hb := h.behind k
    rw [← hk] at hb
    simp only [Own.Behind, FileProcess.own, hp] at hb
    rw [own_goto, readsOf_nothing, hb, hnext, if_neg (by simp [hk])]
    exact ⟨rfl, Function.update_self ..⟩

theorem Kept.read (h : Kept packet reports w) {sendBuffer : Region}
    (hp : w.phase t = .reading sendBuffer) (n : ℕ) (sendBuffer' : Region) :
    let bytes := ((w.files (w.file t)).drop (w.offset t)).take n
    Kept packet (reports ++ [.read t bytes]) ({ w with
      offset := Function.update w.offset t (w.offset t + bytes.length) }.goto t
        (.sending sendBuffer')) := by
  intro bytes
  have hadded : additionsOf (reports ++ [.read t bytes]) = additionsOf reports := by
    simp [additionsOf]
  refine h.move (t := t) rfl rfl (fun u hu => ?_) (by simp [hp]) ?_ hadded (fun k hk => ?_) ?_
    fun k hk => ?_
  · rw [own_goto_ne _ hu]
    simp [FileProcess.own, hu]
  · rw [show FileProcess.phase _ t = .sending sendBuffer' from Function.update_self ..]
    exact id
  · simp [readsOf, hk]
  · rw [own_goto]
    exact writes_of_text (h.writes t) (by simp [hp]) (by rw [hp]; exact id) (by simp [hp]) rfl
  · have hb := h.behind k
    rw [← hk] at hb
    simp only [Own.Behind, FileProcess.own, hp] at hb
    obtain ⟨before, a, after, hadditions, hworker, hfile, ⟨rest, hrest⟩, hoffset⟩ := hb
    have hreads : readsOf k (reports ++ [.read t bytes]) = readsOf k reports ++ [bytes] := by
      simp [readsOf, hk]
    have hbytes : bytes = rest.take n := by
      simp only [bytes]
      rw [hoffset, ← hfile, ← List.drop_drop, ← hrest, List.drop_left]
    rw [own_goto, hreads]
    refine ⟨before, a, after, hadditions, hworker, hfile, ?_, ?_⟩
    · rw [List.flatten_append, List.flatten_singleton, ← hrest, hbytes]
      exact (List.prefix_append_right_inj _).mpr (List.take_prefix n rest)
    · rw [List.flatten_append, List.flatten_singleton, List.length_append, ← Nat.add_assoc, ← hoffset]
      exact Function.update_self ..

/-- What a session has when its `write` returns. -/
theorem Kept.returns (h : Kept packet reports w) {done : ℕ} (hp : w.phase t = .writing done) :
    Kept packet (reports ++ [.added (w.addition t done)]) (w.goto t (.unlocking false)) := by
  have hphase : (w.goto t (.unlocking false)).phase t = .unlocking false := goto_phase ..
  refine h.add hp rfl rfl (fun u hu => own_goto_ne w hu _) (by simp [hphase]) ?_ fun k hk => ?_
  · rw [own_goto]
    exact writes_of_text (h.writes t) (by simp [hp]) (by rw [hp]; exact id) (by simp [hp]) rfl
  · have hb := h.behind k
    rw [← hk] at hb
    simp only [Own.Behind, FileProcess.own, hp] at hb
    obtain ⟨hreads, hle, hoffset⟩ := hb
    have hbytes := h.bytes (w.file t)
    have hcritical : (w.phase t).Critical := by
      rw [hp]
      trivial
    have hunfinished : w.unfinished (w.file t) = (w.text t).take done := by
      rw [unfinished_of_holder (h.critical t hcritical)]
      simp [Own.unfinished, FileProcess.own, hp]
    have hstart : w.offset t = readStart (additionsOf reports) (w.addition t done) := by
      have hnil : (w.text t).take done = [] ↔ done = 0 := by
        rw [List.take_eq_nil_iff]
        constructor
        · rintro (hzero | htext)
          · exact hzero
          · rw [htext] at hle
            exact Nat.le_zero.mp hle
        · exact .inl
      rw [hoffset, readStart]
      simp only [FileProcess.addition, hnil]
      rw [hbytes, hunfinished, bytesIn_append, bytesIn_singleton, if_pos rfl]
    rw [own_goto, hreads]
    exact ⟨additionsOf reports, w.addition t done, [], rfl, hk, rfl, List.nil_prefix, hstart⟩

theorem Kept.format (h : Kept packet reports w) (hp : w.phase t = .formatting) (tm : Tm) :
    Kept packet (reports ++ [.nothing]) ({ w with
      text := Function.update w.text t (timestamp tm) }.goto t .opening) := by
  have hsession (k : ℕ) (hk : t = .session k) : False := by
    have hb := h.behind k
    rw [← hk] at hb
    simp only [Own.Behind, FileProcess.own, hp] at hb
  refine h.move (t := t) rfl rfl (fun u hu => ?_) (by simp [hp]) ?_ (additionsOf_nothing _)
    (fun _ _ => rfl) ?_ fun k hk => (hsession k hk).elim
  · rw [own_goto_ne _ hu]
    simp [FileProcess.own, hu]
  · rw [show FileProcess.phase _ t = .opening from Function.update_self ..]
    exact id
  · rw [own_goto]
    cases t with
    | main =>
      rcases h.writes .main with hmain | hstop
      · exact absurd (hp.symm.trans hmain) (by simp)
      · rw [show (w.own .main).phase = .formatting from hp] at hstop
        exact hstop.elim
    | timer => exact .inr (.inr ⟨tm, by simp [FileProcess.own]⟩)
    | session k => exact (hsession k rfl).elim

theorem Kept.sent (h : Kept packet reports w) (sent : Worker → List UInt8) :
    Kept packet reports { w with sent := sent } :=
  ⟨h.critical, h.bytes, h.writes, h.additions, h.behind⟩

theorem Kept.fail (h : Kept packet reports w) (hp : w.phase t = .writing 0)
    (ht : ∀ k, t ≠ .session k) :
    Kept packet (reports ++ [.nothing]) (w.goto t (.unlocking true)) := by
  have hcritical : (w.phase t).Critical := by
    rw [hp]
    trivial
  have hm := h.critical t hcritical
  refine h.of_step (t := t) (fun u hu => own_goto_ne w hu _) (fun u hu => ?_) (fun i => ?_)
    (fun _ => List.prefix_rfl) (fun _ _ _ => rfl) (fun _ ha => by cases ha) (fun _ _ => rfl) ?_
    fun k hk => absurd hk (ht k)
  · by_cases hut : u = t
    · rw [hut]
      exact hm
    · rw [phase_of_own (own_goto_ne w hut _)] at hu
      exact h.critical u hu
  · have hunfinished := @unfinished_congr w (w.goto t (.unlocking true)) t rfl
      (fun u hu => own_goto_ne w hu _) i (by
        rw [own_goto]
        simp [Own.unfinished, FileProcess.own, hp])
    rw [additionsOf_nothing, hunfinished]
    exact h.bytes i
  · rw [own_goto]
    exact writes_of_text (h.writes t) (by simp [hp]) (by rw [hp]; exact id) (by simp [hp]) rfl

theorem Kept.run (h : Kept packet reports w) {env : FileEnv} (he : w.Enabled (.run t env)) :
    Kept packet (reports ++ [(w.run t env).1]) (w.run t env).2 := by
  have hb (k : ℕ) (hk : t = .session k) :
      (w.own t).Behind w.files (additionsOf reports) k (readsOf k reports) := by
    rw [hk]
    exact h.behind k
  have hwrites (hmain : w.phase t ≠ .accepting) (hstop : ¬ (w.phase t).Stopping)
      (hformat : w.phase t ≠ .formatting) (phase : FilePhase) :
      Own.Writes packet t { w.own t with phase } := writes_of_text (h.writes t) hmain hstop hformat rfl
  cases hp : w.phase t with
  | accepting | returned | waiting =>
    simp only [FileProcess.Enabled, hp] at he
    exact he.2.elim
  | formatting =>
    simp only [FileProcess.run, hp]
    cases env.localtime with
    | none => exact h.stop _
    | some tm =>
      simp only [strftime_timestamp, OfNat.ofNat_ne_zero, if_false]
      rw [← timestamp_length tm, List.take_length]
      exact h.format hp tm
  | opening =>
    simp only [FileProcess.run, hp]
    by_cases ho : env.opens = true
    · rw [if_pos ho]
      exact h.openFile hp
    · rw [if_neg ho]
      exact h.stop _
  | testing =>
    simp only [FileProcess.run, hp]
    by_cases hs : seekPrefix <+: w.text t
    · rw [if_pos hs]
      exact h.exitSafely (by simp [hp])
    · rw [if_neg hs]
      refine h.goto (by simp [hp]) id (hwrites (by simp [hp]) (by rw [hp]; exact id) (by simp [hp]) _)
        fun k hk => ?_
      simpa [Own.Behind, FileProcess.own, hp] using hb k hk
  | locking =>
    simp only [FileProcess.Enabled, hp] at he
    simp only [FileProcess.run, hp]
    exact h.lock hp he.2
  | writing done =>
    simp only [FileProcess.Enabled, hp] at he
    simp only [FileProcess.run, hp]
    cases hw : env.write with
    | more n =>
      rw [hw] at he
      exact h.append hp he.2.1 he.2.2
    | returns => exact h.returns hp
    | fails =>
      rw [hw] at he
      by_cases ht : t = Worker.timer
      · simp only [if_pos ht]
        exact h.fail (he.2 ▸ hp) fun k hk => by cases ht.symm.trans hk
      · simp only [if_neg ht]
        exact h.stop _
  | unlocking failed =>
    simp only [FileProcess.run, hp]
    exact h.unlock hp
  | checking failed =>
    simp only [FileProcess.run, hp]
    cases failed with
    | true => exact h.stop _
    | false =>
      refine h.goto (by simp [hp]) id (hwrites (by simp [hp]) (by rw [hp]; exact id) (by simp [hp]) _)
        fun k hk => ?_
      have hfalse := hb k hk
      simp only [Own.Behind, FileProcess.own, hp] at hfalse
  | reading sendBuffer =>
    simp only [FileProcess.run, hp]
    have hclose : Kept packet (reports ++ [.nothing]) (w.goto t .closing) := by
      refine h.goto (by simp [hp]) id (hwrites (by simp [hp]) (by rw [hp]; exact id) (by simp [hp]) _)
        fun k hk => ?_
      simpa [Own.Behind, FileProcess.own, hp] using hb k hk
    cases env.read with
    | none => exact hclose
    | some n =>
      dsimp only
      split
      · exact hclose
      · exact h.read hp _ _
  | sending sendBuffer =>
    simp only [FileProcess.run, hp]
    cases string sendBuffer with
    | none => exact h.stop _
    | some str =>
      dsimp only
      by_cases hr : env.reset = true
      · rw [if_pos hr]
        exact h.stop _
      · rw [if_neg hr]
        refine (h.sent _).goto (by simp [hp]) id
          (hwrites (by simp [hp]) (by rw [hp]; exact id) (by simp [hp]) _) fun k hk => ?_
        simpa [Own.Behind, FileProcess.own, hp] using hb k hk
  | closing =>
    simp only [FileProcess.run, hp]
    refine h.goto (by simp [hp]) id (hwrites (by simp [hp]) (by rw [hp]; exact id) (by simp [hp]) _)
      fun k hk => ?_
    simpa [Own.Behind, FileProcess.own, hp] using hb k hk
  | joining =>
    simp only [FileProcess.run, hp, FileProcess.join]
    split_ifs
    · exact h.stop _
    · refine (h.joiner (some t)).goto (by simp [hp]) id (writes_stopping (h.writes t) trivial)
        fun k hk => ?_
      trivial

theorem Kept.signal (h : Kept packet reports w) (t : Worker) :
    Kept packet (reports ++ [(w.step (.signal t)).1]) (w.step (.signal t)).2 := by
  by_cases hw : ∃ done, w.phase t = .writing done
  · obtain ⟨done, hp⟩ := hw
    simp only [FileProcess.step, hp]
    refine h.add hp (exitSafely_files w t) (exitSafely_mutex w t) (fun u hu => ?_)
      (by simp [exitSafely_phase]) ?_ fun k hk => ?_
    · rw [exitSafely_own, own_goto_ne w hu]
    · rw [exitSafely_own, own_goto]
      exact writes_stopping (h.writes t) trivial
    · rw [exitSafely_own, own_goto]
      trivial
  · rw [not_exists] at hw
    have hstep : w.step (.signal t) = (.nothing, w.exitSafely t) := by
      cases hp : w.phase t with
      | writing done => exact absurd hp (hw done)
      | _ => simp only [FileProcess.step, hp]
    rw [hstep]
    exact h.exitSafely hw

theorem kept_step (h : Kept packet reports w) {l : FileAction} (hl : w.Enabled l) :
    Kept packet (reports ++ [(w.step l).1]) (w.step l).2 := by
  cases l with
  | run t env => exact h.run hl
  | signal t => exact h.signal t

theorem kept_run {actions : List FileAction}
    (hv : Valid FileProcess.step FileProcess.Enabled (.init packet) actions) :
    Kept packet (replies FileProcess.step (.init packet) actions)
      (exec FileProcess.step (.init packet) actions) := by
  apply run_induction (fun actions => Kept packet (replies FileProcess.step (.init packet) actions)
    (exec FileProcess.step (.init packet) actions)) (kept_init packet) ?_ hv
  intro before l _ hl h
  rw [replies_append, exec_concat, replies_cons, replies_nil]
  exact kept_step h hl

end Kept

/-- **The mutex keeps additions whole.** In every interleaving of the sessions with the timer
thread and with signals, one thread at most is between its lock and its unlock; a file holds one
addition behind the other, each the beginning of its packet or of a timestamp, and then what an
unfinished `write` has brought. A session reads what was added behind its own packet; if it
wrote nothing, it reads the file from its start. -/
theorem additions_whole (packet : ℕ → List UInt8) (actions : List FileAction)
    (h : Valid FileProcess.step FileProcess.Enabled (.init packet) actions) :
    let w := exec FileProcess.step (.init packet) actions
    let reports := replies FileProcess.step (.init packet) actions
    let additions := additionsOf reports
    (∀ t u, (w.phase t).Critical → (w.phase u).Critical → t = u) ∧
      (∀ i, w.files i = bytesIn i additions ++ w.unfinished i) ∧
      (∀ a ∈ additions, a.Of packet) ∧
      ∀ k, (w.phase (.session k)).Past → ∃ before a after, additions = before ++ a :: after ∧
        a.worker = .session k ∧ (readsOf k reports).flatten <+:
          if a.bytes = [] then w.files a.file else bytesIn a.file after ++ w.unfinished a.file := by
  intro w reports additions
  have hkept : Kept packet reports w := kept_run h
  refine ⟨fun t u ht hu => hkept.holder hu ht, hkept.bytes, hkept.additions, fun k hpast => ?_⟩
  have hb := hkept.behind k
  have hreads : ∃ before a after, additions = before ++ a :: after ∧ a.worker = .session k ∧
      (readsOf k reports).flatten <+: (w.files a.file).drop (readStart before a) := by
    unfold Own.Behind FileProcess.own at hb
    cases hp : w.phase (.session k) with
    | unlocking | reading | sending | closing | returned =>
      simp only [hp] at hb
      obtain ⟨before, a, after, hadditions, hworker, -, hprefix, -⟩ := hb
      exact ⟨before, a, after, hadditions, hworker, hprefix⟩
    | _ =>
      rw [hp] at hpast
      exact hpast.elim
  obtain ⟨before, a, after, hadditions, hworker, hprefix⟩ := hreads
  refine ⟨before, a, after, hadditions, hworker, ?_⟩
  unfold readStart at hprefix
  split_ifs at hprefix ⊢ with hnil
  · exact hprefix
  · have hfile : w.files a.file =
        bytesIn a.file (before ++ [a]) ++ (bytesIn a.file after ++ w.unfinished a.file) := by
      calc
        w.files a.file = bytesIn a.file additions ++ w.unfinished a.file := hkept.bytes a.file
        _ = _ := by rw [hadditions, ← List.append_assoc, ← bytesIn_append]; simp
    rwa [hfile, List.drop_left] at hprefix

def goodEnv (write : Writing) : FileEnv := ⟨some ⟨0, 0, 0, 1, 0, 100⟩, true, write, some bufferSize, false⟩

/-- Session 0 writes its line in two pieces while the timer thread waits, and then reads the
timestamp. -/
def timedRun : List FileAction :=
  [.run (.session 0) (goodEnv .returns), .run (.session 0) (goodEnv .returns),
    .run (.session 0) (goodEnv .returns), .run .timer (goodEnv .returns),
    .run (.session 0) (goodEnv (.more 1)), .run .timer (goodEnv .returns),
    .run (.session 0) (goodEnv (.more 1)), .run (.session 0) (goodEnv .returns),
    .run (.session 0) (goodEnv .returns), .run .timer (goodEnv .returns),
    .run .timer (goodEnv (.more 29)), .run .timer (goodEnv .returns),
    .run (.session 0) (goodEnv .returns)]

theorem additions_whole_timedRun :
    (exec FileProcess.step (.init fun _ => [97, 10]) timedRun).files 0 =
      [97, 10] ++ timestamp ⟨0, 0, 0, 1, 0, 100⟩ :=
  ((additions_whole (fun _ => [97, 10]) timedRun (by decide +kernel)).2.1 0).trans
    (by decide +kernel)

end Aesd.Server
