import Mathlib.Data.List.Basic
import Mathlib.Data.List.Induction

/-!
# Runs of a machine that answers every label

A machine is a function `step : S → L → R × S`. The environment's freedom is in
the labels, and `ok` says which labels the environment may choose in a state.
-/

namespace StepRuns

variable {S L R A : Type*}

/-- The state after a list of labels. -/
def exec (step : S → L → R × S) (s : S) (ls : List L) : S :=
  ls.foldl (fun s l => (step s l).2) s

/-- The answers given on the way, in order. -/
def replies (step : S → L → R × S) : S → List L → List R
  | _, [] => []
  | s, l :: ls => (step s l).1 :: replies step (step s l).2 ls

/-- Every label is allowed in the state in which it is taken. -/
def Valid (step : S → L → R × S) (ok : S → L → Prop) : S → List L → Prop
  | _, [] => True
  | s, l :: ls => ok s l ∧ Valid step ok (step s l).2 ls

instance Valid.decidable (step : S → L → R × S) (ok : S → L → Prop) [∀ s l, Decidable (ok s l)] :
    (s : S) → (ls : List L) → Decidable (Valid step ok s ls)
  | _, [] => isTrue trivial
  | s, l :: ls =>
    haveI := Valid.decidable step ok (step s l).2 ls
    inferInstanceAs (Decidable (ok s l ∧ Valid step ok (step s l).2 ls))

variable {step : S → L → R × S} {ok ok' : S → L → Prop}

@[simp] theorem exec_nil (s : S) : exec step s [] = s := rfl

@[simp] theorem exec_cons (s : S) (l : L) (ls : List L) :
    exec step s (l :: ls) = exec step (step s l).2 ls := rfl

theorem exec_append (s : S) (ls ls' : List L) :
    exec step s (ls ++ ls') = exec step (exec step s ls) ls' := by
  simp [exec]

theorem exec_concat (s : S) (ls : List L) (l : L) :
    exec step s (ls ++ [l]) = (step (exec step s ls) l).2 := by
  simp [exec_append]

@[simp] theorem replies_nil (s : S) : replies step s [] = [] := rfl

@[simp] theorem replies_cons (s : S) (l : L) (ls : List L) :
    replies step s (l :: ls) = (step s l).1 :: replies step (step s l).2 ls := rfl

theorem replies_append (s : S) (ls ls' : List L) :
    replies step s (ls ++ ls') = replies step s ls ++ replies step (exec step s ls) ls' := by
  induction ls generalizing s with
  | nil => rfl
  | cons l ls ih => simp [ih]

@[simp] theorem replies_length (s : S) (ls : List L) : (replies step s ls).length = ls.length := by
  induction ls generalizing s with
  | nil => rfl
  | cons l ls ih => simp [ih]

/-- An answer of a run is the answer to some label, in the state reached before it. -/
theorem mem_replies {s : S} {ls : List L} {r : R} (h : r ∈ replies step s ls) :
    ∃ before l after, ls = before ++ l :: after ∧ r = (step (exec step s before) l).1 := by
  induction ls generalizing s with
  | nil => simp at h
  | cons l ls ih =>
    rcases List.mem_cons.mp h with rfl | h
    · exact ⟨[], l, ls, rfl, rfl⟩
    · obtain ⟨before, l', after, rfl, rfl⟩ := ih h
      exact ⟨l :: before, l', after, rfl, rfl⟩

@[simp] theorem valid_nil (s : S) : Valid step ok s [] := trivial

@[simp] theorem valid_cons (s : S) (l : L) (ls : List L) :
    Valid step ok s (l :: ls) ↔ ok s l ∧ Valid step ok (step s l).2 ls := Iff.rfl

theorem valid_append (s : S) (ls ls' : List L) :
    Valid step ok s (ls ++ ls') ↔ Valid step ok s ls ∧ Valid step ok (exec step s ls) ls' := by
  induction ls generalizing s with
  | nil => simp
  | cons l ls ih => simp [ih, and_assoc]

theorem valid_concat (s : S) (ls : List L) (l : L) :
    Valid step ok s (ls ++ [l]) ↔ Valid step ok s ls ∧ ok (exec step s ls) l := by
  simp [valid_append]

theorem Valid.mono (h : ∀ s l, ok s l → ok' s l) {s : S} {ls : List L}
    (hv : Valid step ok s ls) : Valid step ok' s ls := by
  induction ls generalizing s with
  | nil => trivial
  | cons l ls ih => exact ⟨h s l hv.1, ih hv.2⟩

theorem valid_of_forall (h : ∀ s l, ok s l) (s : S) (ls : List L) : Valid step ok s ls := by
  induction ls generalizing s with
  | nil => trivial
  | cons l ls ih => exact ⟨h s l, ih _⟩

theorem Valid.and {s : S} {ls : List L} (h : Valid step ok s ls) (h' : Valid step ok' s ls) :
    Valid step (fun s l => ok s l ∧ ok' s l) s ls := by
  induction ls generalizing s with
  | nil => trivial
  | cons l ls ih => exact ⟨⟨h.1, h'.1⟩, ih h.2 h'.2⟩

/-- What every allowed step preserves, every allowed run preserves. -/
theorem exec_invariant (Inv : S → Prop) (hstep : ∀ s l, Inv s → ok s l → Inv (step s l).2)
    {s : S} (hs : Inv s) {ls : List L} (hv : Valid step ok s ls) : Inv (exec step s ls) := by
  induction ls generalizing s with
  | nil => exact hs
  | cons l ls ih => exact ih (hstep s l hs hv.1) hv.2

/-- What holds of the empty run and of a run made longer by an allowed step holds of
every allowed run: an invariant that may speak about the run so far. -/
theorem run_induction {s : S} (P : List L → Prop) (hnil : P [])
    (hstep : ∀ ls l, Valid step ok s ls → ok (exec step s ls) l → P ls → P (ls ++ [l]))
    {ls : List L} (hv : Valid step ok s ls) : P ls := by
  induction ls using List.reverseRecOn with
  | nil => exact hnil
  | append_singleton ls l ih =>
    obtain ⟨hls, hl⟩ := (valid_concat s ls l).mp hv
    exact hstep ls l hls hl (ih hls)

/-- The labels of `mine` lower the rank and no label raises it, until the machine has
stopped: a run has no more of them than the rank it starts with. -/
theorem stopped_or_countP_le (Inv stopped : S → Prop) (rank : S → ℕ) (mine : L → Bool)
    (hinv : ∀ s l, Inv s → ok s l → Inv (step s l).2)
    (hstopped : ∀ s l, Inv s → ok s l → stopped s → stopped (step s l).2)
    (hrank : ∀ s l, Inv s → ok s l → ¬ stopped s → stopped (step s l).2 ∨
      rank (step s l).2 + (if mine l then 1 else 0) ≤ rank s)
    {s : S} (hs : Inv s) {ls : List L} (hv : Valid step ok s ls) :
    stopped (exec step s ls) ∨ rank (exec step s ls) + ls.countP mine ≤ rank s := by
  have hstays : ∀ {s : S}, Inv s → stopped s → ∀ {ls : List L}, Valid step ok s ls →
      stopped (exec step s ls) := fun hs hdone _ hv =>
    (exec_invariant (fun s => Inv s ∧ stopped s)
      (fun s l h hl => ⟨hinv s l h.1 hl, hstopped s l h.1 hl h.2⟩) ⟨hs, hdone⟩ hv).2
  induction ls generalizing s with
  | nil => exact .inr (by simp)
  | cons l ls ih =>
    -- the rank is spent only while the machine runs
    by_cases hdone : stopped s
    · exact .inl (hstays hs hdone hv)
    have hs' := hinv s l hs hv.1
    rcases hrank s l hs hv.1 hdone with h | hle
    · exact .inl (hstays hs' h hv.2)
    · apply (ih hs' hv.2).imp_right
      intro h
      rw [exec_cons, List.countP_cons]
      omega

theorem exec_simulation (Rel : S → A → Prop) {astep : A → L → A}
    (hstep : ∀ s a l, Rel s a → ok s l → Rel (step s l).2 (astep a l))
    {s : S} {a : A} (hs : Rel s a) {ls : List L} (hv : Valid step ok s ls) :
    Rel (exec step s ls) (ls.foldl astep a) := by
  induction ls generalizing s a with
  | nil => exact hs
  | cons l ls ih => exact ih (hstep s a l hs hv.1) hv.2

/-- Two machines in lockstep over related labels give the same answers. -/
theorem replies_eq_of_lockstep {S' L' : Type*} {step' : S' → L' → R × S'} {lab : L → L' → Prop}
    (Rel : S → S' → Prop)
    (hstep : ∀ s s' l l', Rel s s' → lab l l' → ok s l →
      (step s l).1 = (step' s' l').1 ∧ Rel (step s l).2 (step' s' l').2)
    {s : S} {s' : S'} (hs : Rel s s') {ls : List L} {ls' : List L'} (hl : List.Forall₂ lab ls ls')
    (hv : Valid step ok s ls) : replies step s ls = replies step' s' ls' := by
  induction hl generalizing s s' with
  | nil => rfl
  | cons hlab _ ih =>
    obtain ⟨hr, hs'⟩ := hstep _ _ _ _ hs hlab hv.1
    rw [replies_cons, replies_cons, hr, ih hs' hv.2]

theorem replies_map {L' : Type*} (f : L' → L) (s : S) (ls : List L') :
    replies (fun s l => step s (f l)) s ls = replies step s (ls.map f) := by
  induction ls generalizing s with
  | nil => rfl
  | cons l ls ih => rw [replies_cons, List.map_cons, replies_cons, ih]

theorem exec_map {L' : Type*} (f : L' → L) (s : S) (ls : List L') :
    exec (fun s l => step s (f l)) s ls = exec step s (ls.map f) := by
  simp [exec, List.foldl_map]

/-- A machine whose every step answers as `f` of a step of another has the other's runs. -/
theorem run_of_refines {S' R' : Type*} {step' : S' → L → R' × S'} (f : R' → R)
    (Rel : S → S' → Prop)
    (hstep : ∀ s s' l, Rel s s' → ok s l →
      (step s l).1 = f (step' s' l).1 ∧ Rel (step s l).2 (step' s' l).2)
    {s : S} {s' : S'} (hs : Rel s s') {ls : List L} (hv : Valid step ok s ls) :
    replies step s ls = (replies step' s' ls).map f ∧
      Rel (exec step s ls) (exec step' s' ls) := by
  induction ls generalizing s s' with
  | nil => exact ⟨rfl, hs⟩
  | cons l ls ih =>
    obtain ⟨hanswer, hs'⟩ := hstep _ _ _ hs hv.1
    obtain ⟨hrest, hend⟩ := ih hs' hv.2
    exact ⟨by rw [replies_cons, replies_cons, List.map_cons, hanswer, hrest], hend⟩

/-- The answers to the labels of `keep`. -/
def seen (keep : L → Bool) (step : S → L → R × S) : S → List L → List R
  | _, [] => []
  | s, l :: ls =>
    if keep l then (step s l).1 :: seen keep step (step s l).2 ls
    else seen keep step (step s l).2 ls

/-- Labels that change nothing for those of `keep` may be left out. -/
theorem seen_filter {keep : L → Bool} (Same : S → S → Prop)
    (hkeep : ∀ s s' l, Same s s' → keep l = true →
      (step s l).1 = (step s' l).1 ∧ Same (step s l).2 (step s' l).2)
    (hleave : ∀ s s' l, Same s s' → keep l = false → Same (step s l).2 s')
    {s s' : S} (hs : Same s s') (ls : List L) :
    seen keep step s ls = replies step s' (ls.filter keep) ∧
      Same (exec step s ls) (exec step s' (ls.filter keep)) := by
  induction ls generalizing s s' with
  | nil => exact ⟨rfl, hs⟩
  | cons l ls ih =>
    cases hl : keep l with
    | true =>
      obtain ⟨hanswer, hnext⟩ := hkeep s s' l hs hl
      obtain ⟨hrest, hend⟩ := ih hnext
      rw [List.filter_cons_of_pos hl, replies_cons, exec_cons, exec_cons]
      exact ⟨by simp [seen, hl, hanswer, hrest], hend⟩
    | false =>
      have hnext := hleave s s' l hs hl
      rw [List.filter_cons_of_neg (by simp [hl]), exec_cons]
      simpa [seen, hl] using ih hnext

/-- What the steps of a run contribute, in order. -/
def along (f : S → L → List A) (step : S → L → R × S) : S → List L → List A
  | _, [] => []
  | s, l :: ls => f s l ++ along f step (step s l).2 ls

@[simp] theorem along_nil (f : S → L → List A) (s : S) : along f step s [] = [] := rfl

@[simp] theorem along_cons (f : S → L → List A) (s : S) (l : L) (ls : List L) :
    along f step s (l :: ls) = f s l ++ along f step (step s l).2 ls := rfl

theorem along_append (f : S → L → List A) (s : S) (ls ls' : List L) :
    along f step s (ls ++ ls') = along f step s ls ++ along f step (exec step s ls) ls' := by
  induction ls generalizing s with
  | nil => rfl
  | cons l ls ih => simp [ih]

end StepRuns
