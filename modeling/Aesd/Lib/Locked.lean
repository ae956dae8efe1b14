import Aesd.Lib.Runs
import Mathlib.Data.List.ReduceOption
import Mathlib.Logic.Function.Basic

/-!
# Code under one lock

Threads call into code over a shared state. A call answers at once or takes the lock, works
in small steps, and gives the lock back. Any interleaving of the steps has the answers of a
serial run, in the order in which the calls return.
-/

namespace LockedCode
open StepRuns

variable {T S C L R : Type*}

/-- What is left of a body after a step. -/
inductive Next (L R : Type*) where
  | more (l : L)
  | done (r : R)

/-- The code of a call: what comes before the lock, which does not look at the state, and one
step of the body, which holds the lock. -/
structure Code (S C L R : Type*) where
  before : C → R ⊕ L
  body : L → S → Next L R × S

/-- From these locals the body comes to its end, with this answer and in this state. -/
inductive Code.Runs (code : Code S C L R) : L → S → R → S → Prop
  | last {l s r s'} (h : code.body l s = (.done r, s')) : Runs code l s r s'
  | next {l s l' s' r t} (h : code.body l s = (.more l', s')) (hrest : Runs code l' s' r t) :
    Runs code l s r t

theorem Code.Runs.to {code : Code S C L R} (l' : L) (s' : S) {l : L} {s t : S} {r : R}
    (h : code.body l s = (.more l', s')) (hrest : code.Runs l' s' r t) : code.Runs l s r t :=
  .next h hrest

/-- Run alone, every call does what one step of `atomic` does. -/
structure Code.Implements (code : Code S C L R) (atomic : S → C → R × S) : Prop where
  atOnce : ∀ {c r}, code.before c = .inl r → ∀ s, atomic s c = (r, s)
  locked : ∀ {c l}, code.before c = .inr l → ∀ s, code.Runs l s (atomic s c).1 (atomic s c).2

/-- A body comes to one end only. -/
theorem Code.Runs.unique {code : Code S C L R} {l : L} {s t t' : S} {r r' : R}
    (h : code.Runs l s r t) (h' : code.Runs l s r' t') : r = r' ∧ t = t' := by
  induction h with
  | last hbody =>
    cases h' with
    | last hbody' =>
      rw [hbody] at hbody'
      obtain ⟨hr, rfl⟩ := Prod.mk.inj hbody'
      exact ⟨Next.done.inj hr, rfl⟩
    | next hbody' _ =>
      rw [hbody] at hbody'
      cases hbody'
  | next hbody _ ih =>
    cases h' with
    | last hbody' =>
      rw [hbody] at hbody'
      cases hbody'
    | next hbody' hrest' =>
      rw [hbody] at hbody'
      obtain ⟨hl, rfl⟩ := Prod.mk.inj hbody'
      obtain rfl := Next.more.inj hl
      exact ih hrest'

/-- These calls, with these locals, neither see what `f` changes nor change it. -/
structure Code.Frame (code : Code S C L R) (f : S → S) (calls : C → Prop) (locals : L → Prop) :
    Prop where
  before : ∀ {c l}, calls c → code.before c = .inr l → locals l
  body : ∀ {l}, locals l → ∀ s, code.body l (f s) = ((code.body l s).1, f (code.body l s).2)
  next : ∀ {l l' s s'}, locals l → code.body l s = (.more l', s') → locals l'

section Frame

variable {code : Code S C L R} {f : S → S} {calls : C → Prop} {locals : L → Prop}

theorem Code.Runs.frame (hf : code.Frame f calls locals) {l : L} {s t : S} {r : R}
    (h : code.Runs l s r t) (hl : locals l) : code.Runs l (f s) r (f t) := by
  induction h with
  | last hbody =>
    have hframe := hf.body hl
    exact .last (by rw [hframe, hbody])
  | next hbody _ ih =>
    have hframe := hf.body hl
    exact .next (by rw [hframe, hbody]) (ih (hf.next hl hbody))

/-- What the statements do not see, the whole call does not see. -/
theorem Code.Frame.atomic_eq (hf : code.Frame f calls locals) {atomic : S → C → R × S}
    (hcode : code.Implements atomic) {c : C} (hc : calls c) (s : S) :
    atomic (f s) c = ((atomic s c).1, f (atomic s c).2) := by
  cases hb : code.before c with
  | inl r => rw [hcode.atOnce hb, hcode.atOnce hb]
  | inr l =>
    have hruns := (hcode.locked hb s).frame hf (hf.before hc hb)
    obtain ⟨hr, hs⟩ := (hcode.locked hb (f s)).unique hruns
    exact Prod.ext hr hs

end Frame

/-- What a thread is doing. It holds the lock `inside` and while `leaving`. -/
inductive Place (C L R : Type*) where
  | idle
  | called (c : C)
  | inside (c : C) (l : L)
  | leaving (c : C) (r : R)

def Place.Holds : Place C L R → Prop
  | .inside .. | .leaving .. => True
  | .idle | .called _ => False

/-- The call under way. -/
def Place.call : Place C L R → Option C
  | .idle => none
  | .called c | .inside c _ | .leaving c _ => some c

structure Machine (T S C L R : Type*) where
  shared : S
  lock : Option T
  place : T → Place C L R

def Machine.init (T C L R : Type*) (s : S) : Machine T S C L R := ⟨s, none, fun _ => .idle⟩

inductive Event (T C : Type*) where
  | call (t : T) (c : C)
  /-- The call answers at once or takes the lock. -/
  | enter (t : T)
  | work (t : T)
  | unlock (t : T)

def Event.thread : Event T C → T
  | .call t _ | .enter t | .work t | .unlock t => t

variable (code : Code S C L R)

section Machine

variable [DecidableEq T]

namespace Machine

variable {code} (m : Machine T S C L R)

def goto (t : T) (p : Place C L R) : Machine T S C L R :=
  { m with place := Function.update m.place t p }

variable (code)

/-- One step of a thread; the answer is that of a call that returns in it. -/
def step : Event T C → Option (C × R) × Machine T S C L R
  | .call t c => (none, m.goto t (.called c))
  | .enter t =>
    match m.place t with
    | .called c =>
      match code.before c with
      | .inl r => (some (c, r), m.goto t .idle)
      | .inr l => (none, { m with lock := some t }.goto t (.inside c l))
    | _ => (none, m)
  | .work t =>
    match m.place t with
    | .inside c l =>
      match code.body l m.shared with
      | (.more l, s) => (none, { m with shared := s }.goto t (.inside c l))
      | (.done r, s) => (none, { m with shared := s }.goto t (.leaving c r))
    | _ => (none, m)
  | .unlock t =>
    match m.place t with
    | .leaving c r => (some (c, r), { m with lock := none }.goto t .idle)
    | _ => (none, m)

/-- A thread calls when it is idle, takes a free lock only, works while it is inside and unlocks
when its body is done. -/
def Enabled : Event T C → Prop
  | .call t _ => match m.place t with
    | .idle => True
    | _ => False
  | .enter t => match m.place t with
    | .called c => (code.before c).isLeft = true ∨ m.lock = none
    | _ => False
  | .work t => match m.place t with
    | .inside .. => True
    | _ => False
  | .unlock t => match m.place t with
    | .leaving .. => True
    | _ => False

instance : (e : Event T C) → Decidable (m.Enabled code e)
  | .call t _ | .enter t | .work t | .unlock t => by
    unfold Enabled
    dsimp only
    split <;> infer_instance

end Machine

/-- The calls that return in a run and their answers, in the order in which they return. -/
def returned (m : Machine T S C L R) (es : List (Event T C)) : List (C × R) :=
  (replies (Machine.step code) m es).reduceOption

end Machine

/-- The machine against the state `a` of a serial run: they agree while the lock is free, and
who holds it is on the way from `a` to what `atomic` makes of it. -/
structure Serial (atomic : S → C → R × S) (m : Machine T S C L R) (a : S) : Prop where
  free : m.lock = none → m.shared = a
  holds_iff : ∀ t, (m.place t).Holds ↔ m.lock = some t
  inside : ∀ {t c l}, m.place t = .inside c l → code.Runs l m.shared (atomic a c).1 (atomic a c).2
  leaving : ∀ {t c r}, m.place t = .leaving c r → atomic a c = (r, m.shared)

variable {code} {atomic : S → C → R × S} {m : Machine T S C L R} {a : S}

theorem serial_init (s : S) : Serial code atomic (Machine.init T C L R s) s where
  free _ := rfl
  holds_iff t := by simp [Machine.init, Place.Holds]
  inside h := by cases h
  leaving h := by cases h

section Step

variable {t : T}

theorem Serial.not_holds (h : Serial code atomic m a) (hl : m.lock = some t) {u : T} (hu : u ≠ t) :
    ¬ (m.place u).Holds := by
  rw [h.holds_iff, hl, Option.some.injEq]
  exact Ne.symm hu

theorem Serial.not_holds_of_free (h : Serial code atomic m a) (hl : m.lock = none) (u : T) :
    ¬ (m.place u).Holds := by
  rw [h.holds_iff, hl]
  simp

/-- While some call is under way, some thread can go on with its own. -/
theorem exists_enabled (h : Serial code atomic m a) (hbusy : m.place t ≠ .idle) :
    ∃ u, m.Enabled code (.enter u) ∨ m.Enabled code (.work u) ∨ m.Enabled code (.unlock u) := by
  cases hl : m.lock with
  | none =>
    -- nobody holds the lock, so `t` is in front of it
    have hout := h.not_holds_of_free hl t
    cases hp : m.place t with
    | idle => exact absurd hp hbusy
    | called c => exact ⟨t, .inl (by simp [Machine.Enabled, hp, hl])⟩
    | inside c l =>
      rw [hp] at hout
      exact absurd trivial hout
    | leaving c r =>
      rw [hp] at hout
      exact absurd trivial hout
  | some u =>
    have hhold := (h.holds_iff u).mpr hl
    cases hp : m.place u with
    | idle =>
      rw [hp] at hhold
      exact hhold.elim
    | called c =>
      rw [hp] at hhold
      exact hhold.elim
    | inside c l => exact ⟨u, .inr (.inl (by simp [Machine.Enabled, hp]))⟩
    | leaving c r => exact ⟨u, .inr (.inr (by simp [Machine.Enabled, hp]))⟩

/-- A step that no call sees, between two statements of the calls under way. -/
theorem Serial.frame (h : Serial code atomic m a) (hcode : code.Implements atomic) {f : S → S}
    {calls : C → Prop} {locals : L → Prop} (hf : code.Frame f calls locals)
    (hcalls : ∀ t c, (m.place t).call = some c → calls c)
    (hlocals : ∀ t c l, m.place t = .inside c l → locals l) :
    Serial code atomic { m with shared := f m.shared } (f a) where
  free hl := congrArg f (h.free hl)
  holds_iff := h.holds_iff
  inside := by
    intro t c l hp
    rw [hf.atomic_eq hcode (hcalls t c (by rw [hp]; rfl))]
    exact (h.inside hp).frame hf (hlocals t c l hp)
  leaving := by
    intro t c r hp
    rw [hf.atomic_eq hcode (hcalls t c (by rw [hp]; rfl)), h.leaving hp]

variable [DecidableEq T]

theorem Serial.outside (h : Serial code atomic m a) {p : Place C L R} (hp : ¬ (m.place t).Holds)
    (hp' : ¬ p.Holds) : Serial code atomic (m.goto t p) a where
  free := h.free
  holds_iff u := by
    by_cases hu : u = t
    · subst hu
      have hlock := h.holds_iff u
      simp only [Machine.goto, Function.update_self]
      tauto
    · simpa [Machine.goto, hu] using h.holds_iff u
  inside := by
    intro u c l hu
    by_cases hut : u = t
    · subst hut
      simp only [Machine.goto, Function.update_self] at hu
      exact absurd (by simp [hu, Place.Holds]) hp'
    · exact h.inside (by simpa [Machine.goto, hut] using hu)
  leaving := by
    intro u c r hu
    by_cases hut : u = t
    · subst hut
      simp only [Machine.goto, Function.update_self] at hu
      exact absurd (by simp [hu, Place.Holds]) hp'
    · exact h.leaving (by simpa [Machine.goto, hut] using hu)

/-- A machine in which `t` has the lock, from what is known of `t`. -/
theorem serial_of_holder {p : Place C L R} (hl : m.lock = some t)
    (hothers : ∀ u, u ≠ t → ¬ (m.place u).Holds) (hp : p.Holds)
    (hinside : ∀ c l, p = .inside c l → code.Runs l m.shared (atomic a c).1 (atomic a c).2)
    (hleaving : ∀ c r, p = .leaving c r → atomic a c = (r, m.shared)) :
    Serial code atomic (m.goto t p) a where
  free hfree := by
    rw [show (m.goto t p).lock = m.lock from rfl, hl] at hfree
    cases hfree
  holds_iff u := by
    change _ ↔ m.lock = some u
    rw [hl, Option.some.injEq]
    by_cases hu : u = t
    · subst hu
      simpa [Machine.goto] using hp
    · simpa [Machine.goto, hu, Ne.symm hu] using hothers u hu
  inside := by
    intro u c l hu
    by_cases hut : u = t
    · subst hut
      exact hinside c l (by simpa [Machine.goto] using hu)
    · simp only [Machine.goto, Function.update_of_ne hut] at hu
      exact absurd (by simp [hu, Place.Holds]) (hothers u hut)
  leaving := by
    intro u c r hu
    by_cases hut : u = t
    · subst hut
      exact hleaving c r (by simpa [Machine.goto] using hu)
    · simp only [Machine.goto, Function.update_of_ne hut] at hu
      exact absurd (by simp [hu, Place.Holds]) (hothers u hut)

theorem serial_of_unlocked (hothers : ∀ u, u ≠ t → ¬ (m.place u).Holds) :
    Serial code atomic ({ m with lock := none }.goto t .idle) m.shared where
  free _ := rfl
  holds_iff u := by
    change _ ↔ none = some u
    by_cases hu : u = t
    · subst hu
      simp [Machine.goto, Place.Holds]
    · simpa [Machine.goto, hu] using hothers u hu
  inside := by
    intro u c l hu
    by_cases hut : u = t
    · subst hut
      simp [Machine.goto] at hu
    · simp only [Machine.goto, Function.update_of_ne hut] at hu
      exact absurd (by simp [hu, Place.Holds]) (hothers u hut)
  leaving := by
    intro u c r hu
    by_cases hut : u = t
    · subst hut
      simp [Machine.goto] at hu
    · simp only [Machine.goto, Function.update_of_ne hut] at hu
      exact absurd (by simp [hu, Place.Holds]) (hothers u hut)

/-- The serial run makes the step of a call when the call returns. -/
def serialStep (atomic : S → C → R × S) (a : S) : Option (C × R) → S
  | none => a
  | some (c, _) => (atomic a c).2

theorem serial_step (hcode : code.Implements atomic) (h : Serial code atomic m a) {e : Event T C}
    (he : m.Enabled code e) :
    Serial code atomic (m.step code e).2 (serialStep atomic a (m.step code e).1) ∧
      ∀ c r, (m.step code e).1 = some (c, r) → r = (atomic a c).1 := by
  cases e with
  | call t c =>
    have hidle : m.place t = .idle := by
      simp only [Machine.Enabled] at he
      split at he
      · assumption
      · exact he.elim
    exact ⟨h.outside (by simp [hidle, Place.Holds]) (by simp [Place.Holds]), by simp [Machine.step]⟩
  | enter t =>
    cases hp : m.place t with
    | called c =>
      have hout : ¬ (m.place t).Holds := by simp [hp, Place.Holds]
      cases hb : code.before c with
      | inl r =>
        simp only [Machine.step, hp, hb, serialStep, hcode.atOnce hb a]
        refine ⟨h.outside hout (by simp [Place.Holds]), ?_⟩
        rintro c' r' heq
        obtain ⟨rfl, rfl⟩ := Prod.mk.inj (Option.some.inj heq)
        rw [hcode.atOnce hb]
      | inr l =>
        have hfree : m.lock = none := by simpa [Machine.Enabled, hp, hb] using he
        simp only [Machine.step, hp, hb, serialStep]
        refine ⟨serial_of_holder rfl (fun u _ => h.not_holds_of_free hfree u) trivial ?_ ?_, by simp⟩
        · rintro c l ⟨⟩
          rw [show ({ m with lock := some t } : Machine T S C L R).shared = m.shared from rfl,
            h.free hfree]
          exact hcode.locked hb a
        · rintro c r ⟨⟩
    | idle => simp [Machine.Enabled, hp] at he
    | inside c l => simp [Machine.Enabled, hp] at he
    | leaving c r => simp [Machine.Enabled, hp] at he
  | work t =>
    cases hp : m.place t with
    | inside c l =>
      have hl : m.lock = some t := (h.holds_iff t).mp (by simp [hp, Place.Holds])
      have hruns := h.inside hp
      cases hruns with
      | last hbody =>
        simp only [Machine.step, hp, hbody, serialStep]
        refine ⟨serial_of_holder hl (fun u hu => h.not_holds hl hu) trivial ?_ ?_, by simp⟩
        · rintro c l ⟨⟩
        · rintro c r ⟨⟩
          rfl
      | next hbody hrest =>
        simp only [Machine.step, hp, hbody, serialStep]
        refine ⟨serial_of_holder hl (fun u hu => h.not_holds hl hu) trivial ?_ ?_, by simp⟩
        · rintro c l ⟨⟩
          exact hrest
        · rintro c r ⟨⟩
    | idle => simp [Machine.Enabled, hp] at he
    | called c => simp [Machine.Enabled, hp] at he
    | leaving c r => simp [Machine.Enabled, hp] at he
  | unlock t =>
    cases hp : m.place t with
    | leaving c r =>
      have hl : m.lock = some t := (h.holds_iff t).mp (by simp [hp, Place.Holds])
      have hatomic := h.leaving hp
      simp only [Machine.step, hp, serialStep, hatomic]
      refine ⟨serial_of_unlocked fun u hu => h.not_holds hl hu, ?_⟩
      rintro c' r' heq
      obtain ⟨rfl, rfl⟩ := Prod.mk.inj (Option.some.inj heq)
      rw [hatomic]
    | idle => simp [Machine.Enabled, hp] at he
    | called c => simp [Machine.Enabled, hp] at he
    | inside c l => simp [Machine.Enabled, hp] at he

variable (code) in
/-- Where a step leaves the threads: the others stay, and the call of its own thread is over
if it answers. -/
theorem place_step (m : Machine T S C L R) (e : Event T C) :
    (∀ u, u ≠ e.thread → (m.step code e).2.place u = m.place u) ∧
    (∀ c r, (m.step code e).1 = some (c, r) → (m.place e.thread).call = some c ∧
      ((m.step code e).2.place e.thread).call = none) ∧
    ((m.step code e).1 = none → (∀ c, e ≠ .call e.thread c) →
      ((m.step code e).2.place e.thread).call = (m.place e.thread).call) := by
  cases e with
  | call t c =>
    refine ⟨fun u hu => Function.update_of_ne hu .., by simp [Machine.step], ?_⟩
    intro _ hne
    exact absurd rfl (hne c)
  | enter t =>
    simp only [Machine.step, Event.thread]
    split
    · rename_i c hp
      split
      · exact ⟨fun u hu => Function.update_of_ne hu .., by simp [hp, Place.call, Machine.goto], by simp⟩
      · exact ⟨fun u hu => Function.update_of_ne hu .., by simp, by simp [hp, Place.call, Machine.goto]⟩
    · exact ⟨fun _ _ => rfl, by simp, fun _ _ => rfl⟩
  | work t =>
    simp only [Machine.step, Event.thread]
    split
    · rename_i c l hp
      split <;>
        exact ⟨fun u hu => Function.update_of_ne hu .., by simp, by simp [hp, Place.call, Machine.goto]⟩
    · exact ⟨fun _ _ => rfl, by simp, fun _ _ => rfl⟩
  | unlock t =>
    simp only [Machine.step, Event.thread]
    split
    · rename_i c r hp
      exact ⟨fun u hu => Function.update_of_ne hu .., by simp [hp, Place.call, Machine.goto], by simp⟩
    · exact ⟨fun _ _ => rfl, by simp, fun _ _ => rfl⟩

theorem Code.Frame.locals_step {f : S → S} {calls : C → Prop} {locals : L → Prop}
    (hf : code.Frame f calls locals) (h : ∀ t c l, m.place t = .inside c l → calls c → locals l)
    (e : Event T C) :
    ∀ t c l, (m.step code e).2.place t = .inside c l → calls c → locals l := by
  intro t c l hp hc
  by_cases ht : t = e.thread
  · subst ht
    cases e with
    | call t c' => simp [Machine.step, Machine.goto, Event.thread] at hp
    | enter t =>
      simp only [Machine.step, Event.thread] at hp
      split at hp
      · rename_i c' hcalled
        split at hp
        · simp [Machine.goto] at hp
        · rename_i l' hb
          obtain ⟨rfl, rfl⟩ : c' = c ∧ l' = l := by simpa [Machine.goto] using hp
          exact hf.before hc hb
      · exact h t c l hp hc
    | work t =>
      simp only [Machine.step, Event.thread] at hp
      split at hp
      · rename_i c' l' hinside
        split at hp
        · rename_i l'' s' hb
          obtain ⟨rfl, rfl⟩ : c' = c ∧ l'' = l := by simpa [Machine.goto] using hp
          exact hf.next (h t c' l' hinside hc) hb
        · simp [Machine.goto] at hp
      · exact h t c l hp hc
    | unlock t =>
      simp only [Machine.step, Event.thread] at hp
      split at hp
      · simp [Machine.goto] at hp
      · exact h t c l hp hc
  · rw [(place_step code m e).1 t ht] at hp
    exact h t c l hp hc

/-- Every interleaving has the answers of the serial run of its calls, in the order in which
they return. -/
theorem serial_run (hcode : code.Implements atomic) (h : Serial code atomic m a)
    {es : List (Event T C)} (hv : Valid (Machine.step code) (Machine.Enabled code) m es) :
    replies atomic a ((returned code m es).map Prod.fst) = (returned code m es).map Prod.snd ∧
      Serial code atomic (exec (Machine.step code) m es)
        (exec atomic a ((returned code m es).map Prod.fst)) := by
  induction es generalizing m a with
  | nil => exact ⟨rfl, h⟩
  | cons e es ih =>
    obtain ⟨hstep, hanswer⟩ := serial_step hcode h hv.1
    obtain ⟨hrest, hend⟩ := ih hstep hv.2
    cases hr : (m.step code e).1 with
    | none =>
      rw [hr] at hrest hend
      have hreturned : returned code m (e :: es) = returned code (m.step code e).2 es := by
        simp [returned, hr]
      rw [hreturned]
      exact ⟨hrest, hend⟩
    | some cr =>
      obtain ⟨c, r⟩ := cr
      rw [hr] at hrest hend
      have hreturned : returned code m (e :: es) =
          (c, r) :: returned code (m.step code e).2 es := by
        simp [returned, hr]
      rw [hreturned, List.map_cons, List.map_cons, replies_cons, exec_cons, hanswer c r hr]
      exact ⟨congrArg _ hrest, hend⟩

theorem works_to_end {c : C} {l : L} {s s' : S} {r : R} (hruns : code.Runs l s r s')
    (hs : m.shared = s) (hp : m.place t = .inside c l) :
    ∃ n, exec (Machine.step code) m (List.replicate n (.work t)) =
      { m with shared := s' }.goto t (.leaving c r) := by
  induction hruns generalizing m with
  | last hbody =>
    refine ⟨1, ?_⟩
    rw [← hs] at hbody
    simp [Machine.step, hp, hbody]
  | next hbody hrest ih =>
    rename_i l s l' s' r t'
    rw [← hs] at hbody
    obtain ⟨n, hn⟩ := @ih ({ m with shared := s' }.goto t (.inside c l')) rfl
      (by simp [Machine.goto])
    refine ⟨n + 1, ?_⟩
    rw [List.replicate_succ, exec_cons]
    have hstep : (m.step code (.work t)).2 = { m with shared := s' }.goto t (.inside c l') := by
      simp [Machine.step, hp, hbody]
    rw [hstep, hn]
    simp [Machine.goto]

/-- Who has the lock gives it back after steps of its own, and the other threads stay where
they are. -/
theorem gives_back (h : Serial code atomic m a) (hl : m.lock = some t) :
    ∃ n, let m' := exec (Machine.step code) m (List.replicate n (.work t) ++ [.unlock t])
      m'.lock = none ∧ m'.place = Function.update m.place t .idle := by
  have hhold := (h.holds_iff t).mpr hl
  cases hp : m.place t with
  | idle =>
    rw [hp] at hhold
    exact hhold.elim
  | called c =>
    rw [hp] at hhold
    exact hhold.elim
  | inside c l =>
    obtain ⟨n, hn⟩ := works_to_end (h.inside hp) rfl hp
    refine ⟨n, ?_⟩
    rw [exec_append, hn]
    simp [Machine.step, Machine.goto]
  | leaving c r =>
    refine ⟨0, ?_⟩
    simp [Machine.step, hp, Machine.goto]

end Step

end LockedCode
