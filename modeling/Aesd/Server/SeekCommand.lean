import Aesd.Lib.Tokens
import Aesd.Lib.Runs
import Aesd.Device
import Mathlib.Data.Bool.Count

/-!
# Parsing a seek command

`thread_func` splits the packet with `strtok`, whose saved pointer is one for the
whole process. Each library call is one step.
-/

namespace Aesd.Server
open CString StepRuns

def seekPrefix : List UInt8 :=
  ['A', 'E', 'S', 'D', 'C', 'H', 'A', 'R', '_', 'I', 'O', 'C', 'S', 'E', 'E', 'K', 'T', 'O', ':'].map
    fun c => UInt8.ofNat c.toNat

def comma : UInt8 := 44

variable {σ : Type*} [DecidableEq σ]

/-- A place in some session's buffer. -/
abbrev Pointer (σ : Type*) := σ × ℕ

/-- The sessions' buffers and the pointer that `strtok` saves. A freed buffer is `none`. -/
structure Memory (σ : Type*) where
  buffers : σ → Option Region
  saved : Option (Pointer σ)

/-- `strtok(p, ",")`; NULL continues at the saved pointer. -/
def Memory.strtok (mem : Memory σ) (p : Option (Pointer σ)) :
    Option (Option (Pointer σ) × Memory σ) :=
  match p.or mem.saved with
  | none => none
  | some (k, offset) =>
    match mem.buffers k with
    | none => none
    | some m =>
      (CString.strtok comma m offset).map fun (token, m, saved) =>
        (token.map fun offset => (k, offset),
          ⟨Function.update mem.buffers k (some m), some (k, saved)⟩)

def Memory.strtoul (mem : Memory σ) (p : Pointer σ) : Option UInt64 :=
  (mem.buffers p.1).bind fun m => CString.strtoul m p.2

/-- How far a session is with its command. -/
inductive Stage (σ : Type*) where
  | start
  | writeCmd (token : Pointer σ)
  | next (writeCmd : UInt32)
  | writeCmdOffset (writeCmd : UInt32) (token : Pointer σ)
  | ready (writeCmd writeCmdOffset : UInt32)
  deriving DecidableEq

inductive Parsed (σ : Type*) where
  | stage (stage : Stage σ) (mem : Memory σ)
  /-- A call of `strtok` found no token. -/
  | invalid
  | fault

def parseStep (mem : Memory σ) (k : σ) : Stage σ → Parsed σ
  | .start =>
    match mem.strtok (some (k, seekPrefix.length)) with
    | none => .fault
    | some (none, _) => .invalid
    | some (some token, mem) => .stage (.writeCmd token) mem
  | .writeCmd token =>
    match mem.strtoul token with
    | none => .fault
    | some value => .stage (.next value.toUInt32) mem
  | .next writeCmd =>
    match mem.strtok none with
    | none => .fault
    | some (none, _) => .invalid
    | some (some token, mem) => .stage (.writeCmdOffset writeCmd token) mem
  | .writeCmdOffset writeCmd token =>
    match mem.strtoul token with
    | none => .fault
    | some value => .stage (.ready writeCmd value.toUInt32) mem
  | .ready writeCmd writeCmdOffset => .stage (.ready writeCmd writeCmdOffset) mem

/-- Two session threads between the assembly of their commands and the `ioctl`. -/
structure Duo where
  mem : Memory Bool
  stage : Bool → Stage Bool
  /-- The values a thread gave to its `ioctl`. -/
  issued : Bool → Option (UInt32 × UInt32)
  /-- A thread took the invalid-command exit, or left a buffer. -/
  ended : Bool

/-- The next step of thread `t`: a library call, or the `ioctl`. -/
def Duo.step (d : Duo) (t : Bool) : Duo :=
  if d.ended then d
  else match d.stage t with
    | .ready writeCmd writeCmdOffset =>
      { d with issued := Function.update d.issued t (some (writeCmd, writeCmdOffset)) }
    | stage =>
      match parseStep d.mem t stage with
      | .stage stage mem => { d with mem := mem, stage := Function.update d.stage t stage }
      | _ => { d with ended := true }

/-- The assembled string of a seek command, and what is behind it in the buffer. -/
def seekBuffer (x y rest : List UInt8) : Region :=
  seekPrefix ++ x ++ comma :: (y ++ newline :: 0 :: rest)

def Duo.init (x y rest : Bool → List UInt8) : Duo where
  mem := ⟨fun t => some (seekBuffer (x t) (y t) (rest t)), none⟩
  stage _ := .start
  issued _ := none
  ended := false

/-- The decimal digits of a 32-bit value. -/
structure Digits (ds : List UInt8) : Prop where
  ne_nil : ds ≠ []
  digit : ∀ b ∈ ds, isDigit b = true
  small : decimal ds < 2 ^ 32

def value (ds : List UInt8) : UInt32 := UInt32.ofNat (decimal ds)

/-- The threads in the order of their `strtok` calls, their first and their third step;
`n` counts the steps each has taken. -/
def strtokCalls : (Bool → ℕ) → List Bool → List Bool
  | _, [] => []
  | n, t :: sched =>
    let rest := strtokCalls (Function.update n t (n t + 1)) sched
    if n t = 0 ∨ n t = 2 then t :: rest else rest

theorem Duo.step_parse {d : Duo} {t : Bool} {stage stage' : Stage Bool} {mem : Memory Bool}
    (hd : d.ended = false) (hp : parseStep d.mem t stage = .stage stage' mem)
    (hs : d.stage t = stage) (hr : ∀ a b, stage ≠ .ready a b) :
    d.step t = { d with mem := mem, stage := Function.update d.stage t stage' } := by
  cases stage with
  | ready a b => exact absurd rfl (hr a b)
  | _ => simp [Duo.step, hd, hs, hp]

theorem Duo.step_invalid {d : Duo} {t : Bool} {stage : Stage Bool} (hd : d.ended = false)
    (hp : parseStep d.mem t stage = .invalid) (hs : d.stage t = stage) :
    d.step t = { d with ended := true } := by
  cases stage with
  | ready a b => simp [parseStep] at hp
  | _ => simp [Duo.step, hd, hs, hp]

theorem Duo.step_ready {d : Duo} {t : Bool} {a b : UInt32} (hd : d.ended = false)
    (hs : d.stage t = .ready a b) :
    d.step t = { d with issued := Function.update d.issued t (some (a, b)) } := by
  rw [Duo.step, hd, hs]
  rfl

/-- What the order of the `strtok` calls decides. -/
structure Cursor where
  /-- Whose buffer the saved pointer is in, and whether it is at the end. -/
  saved : Option (Bool × Bool)
  called : Bool → Bool
  /-- Whose second value a thread was given. -/
  owner : Bool → Bool
  dead : Bool

def Cursor.init : Cursor := ⟨none, fun _ => false, id, false⟩

/-- The first call of a thread moves the pointer to its own buffer; the second takes
what is left where the pointer is. -/
def Cursor.call (c : Cursor) (t : Bool) : Cursor :=
  if c.dead then c
  else if c.called t then
    match c.saved with
    | some (k, false) => { c with saved := some (k, true), owner := Function.update c.owner t k }
    | _ => { c with dead := true }
  else { c with saved := some (t, false), called := Function.update c.called t true }

def Cursor.step (cn : Cursor × (Bool → ℕ)) (t : Bool) : Cursor × (Bool → ℕ) :=
  (if cn.2 t = 0 ∨ cn.2 t = 2 then cn.1.call t else cn.1, Function.update cn.2 t (cn.2 t + 1))

section CursorStep

variable {c : Cursor} {n : Bool → ℕ} {t k : Bool}

theorem Cursor.step_call (c : Cursor) (h : n t = 0 ∨ n t = 2) :
    Cursor.step (c, n) t = (c.call t, Function.update n t (n t + 1)) := by
  rw [Cursor.step, if_pos h]

theorem Cursor.step_idle (c : Cursor) (h : ¬ (n t = 0 ∨ n t = 2)) :
    Cursor.step (c, n) t = (c, Function.update n t (n t + 1)) := by
  rw [Cursor.step, if_neg h]

theorem Cursor.call_first (hc : c.dead = false) (ht : c.called t = false) :
    c.call t = { c with saved := some (t, false), called := Function.update c.called t true } := by
  simp [Cursor.call, hc, ht]

theorem Cursor.call_next (hc : c.dead = false) (ht : c.called t = true)
    (hs : c.saved = some (k, false)) :
    c.call t = { c with saved := some (k, true), owner := Function.update c.owner t k } := by
  simp [Cursor.call, hc, ht, hs]

theorem Cursor.call_over (hc : c.dead = false) (ht : c.called t = true)
    (hs : c.saved = some (k, true)) : c.call t = { c with dead := true } := by
  simp [Cursor.call, hc, ht, hs]

end CursorStep

theorem foldl_cursor_step (c : Cursor) (n : Bool → ℕ) (sched : List Bool) :
    sched.foldl Cursor.step (c, n) =
      ((strtokCalls n sched).foldl Cursor.call c, fun t => n t + sched.count t) := by
  induction sched generalizing c n with
  | nil => rfl
  | cons t sched ih =>
    rw [List.foldl_cons, Cursor.step, ih]
    refine Prod.ext ?_ ?_
    · simp only [strtokCalls]
      split_ifs <;> rfl
    · funext u
      by_cases hu : u = t
      · subst hu
        simp
        omega
      · simp [Function.update_of_ne hu, Ne.symm hu]

/-- The `strtok` calls among the first `m` steps of a thread. -/
def callsWithin (m : ℕ) : ℕ := (if 0 < m then 1 else 0) + if 2 < m then 1 else 0

theorem count_strtokCalls (n : Bool → ℕ) (sched : List Bool) (t : Bool) :
    callsWithin (n t) + (strtokCalls n sched).count t = callsWithin (n t + sched.count t) := by
  induction sched generalizing n with
  | nil => rfl
  | cons u sched ih =>
    have hrest := ih (Function.update n u (n u + 1))
    simp only [strtokCalls]
    by_cases hu : t = u
    · subst hu
      rw [Function.update_self] at hrest
      rw [List.count_cons_self, show n t + (sched.count t + 1) = n t + 1 + sched.count t by omega,
        ← hrest]
      unfold callsWithin
      split_ifs <;> simp <;> omega
    · rw [Function.update_of_ne hu] at hrest
      rw [List.count_cons_of_ne (Ne.symm hu), ← hrest]
      split_ifs
      · rw [List.count_cons_of_ne (Ne.symm hu)]
      · rfl

/-- With two calls of each thread, the calls end well exactly when the first thread's
second call comes before the other's first, and then each gets its own value. -/
theorem cursor_calls (calls : List Bool) (h : ∀ t, calls.count t = 2) :
    ((calls.foldl Cursor.call .init).dead = false ↔ ∃ t, calls = [t, t, !t, !t]) ∧
      ((calls.foldl Cursor.call .init).dead = false →
        ∀ t, (calls.foldl Cursor.call .init).owner t = t) := by
  have hlen : calls.length = 4 := by
    have hcount := List.count_not_add_count calls true
    rw [h, h] at hcount
    exact hcount.symm
  -- sixteen orders are left
  obtain ⟨a, b, c, d, rfl⟩ := List.length_eq_four.mp hlen
  revert a b c d
  decide

def cutBuffer (x y rest : List UInt8) : Region :=
  seekPrefix ++ x ++ 0 :: (y ++ newline :: 0 :: rest)

/-- Where the second value begins, or where the string ends. -/
def fieldAt (x y : List UInt8) (atEnd : Bool) : ℕ :=
  seekPrefix.length + x.length + 1 + if atEnd then y.length + 1 else 0

section Calls

variable {mem : Memory σ} {t k : σ} {x y rest : List UInt8}

theorem Digits.plain (h : Digits x) : Plain comma x := by
  intro b hb
  obtain ⟨_, _, _, hcomma, hzero⟩ := isDigit_plain (h.digit b hb)
  exact ⟨hcomma, hzero⟩

theorem Digits.toUInt32 (h : Digits x) : (UInt64.ofNat (decimal x)).toUInt32 = value x := by
  have := h.small
  apply UInt32.toNat_inj.mp
  rw [value, UInt64.toNat_toUInt32, UInt64.toNat_ofNat_of_lt' (by simp only [UInt64.size]; omega),
    UInt32.toNat_ofNat_of_lt' (by simp only [UInt32.size]; omega)]
  omega

theorem strtok_first (hx : Digits x) (hb : mem.buffers t = some (seekBuffer x y rest)) :
    mem.strtok (some (t, seekPrefix.length)) = some (some (t, seekPrefix.length),
      ⟨Function.update mem.buffers t (some (cutBuffer x y rest)), some (t, fieldAt x y false)⟩) := by
  have hcut := strtok_cut seekPrefix (y ++ newline :: 0 :: rest) hx.ne_nil hx.plain (by decide)
  simp only [Memory.strtok, Option.some_or, hb, seekBuffer, hcut]
  rfl

theorem cutBuffer_eq : cutBuffer x y rest =
    (seekPrefix ++ x ++ [0]) ++ (y ++ [newline]) ++ 0 :: rest := by
  simp [cutBuffer]

theorem fieldAt_eq (x y : List UInt8) : (seekPrefix ++ x ++ [0]).length = fieldAt x y false := by
  simp [fieldAt]
  omega

theorem strtok_next (hy : Digits y) (hb : mem.buffers k = some (cutBuffer x y rest))
    (hs : mem.saved = some (k, fieldAt x y false)) :
    mem.strtok none = some (some (k, fieldAt x y false),
      ⟨Function.update mem.buffers k (some (cutBuffer x y rest)), some (k, fieldAt x y true)⟩) := by
  have hplain : Plain comma (y ++ [newline]) := by
    intro b hb
    rcases List.mem_append.mp hb with hb | hb
    · exact hy.plain b hb
    · rw [List.mem_singleton.mp hb]
      decide
  have hlast := strtok_last (seekPrefix ++ x ++ [0]) rest (by simp) hplain
  have hend : fieldAt x y false + (y ++ [newline]).length = fieldAt x y true := by
    simp [fieldAt]
  rw [fieldAt_eq x y, hend, ← cutBuffer_eq] at hlast
  simp only [Memory.strtok, hs, Option.none_or, hb, hlast]
  rfl

theorem strtok_over (hb : mem.buffers k = some (cutBuffer x y rest))
    (hs : mem.saved = some (k, fieldAt x y true)) :
    ∃ mem', mem.strtok none = some (none, mem') := by
  have hend := strtok_end (seekPrefix ++ x ++ 0 :: (y ++ [newline])) rest (show comma ≠ 0 by decide)
  have hlen : (seekPrefix ++ x ++ 0 :: (y ++ [newline])).length = fieldAt x y true := by
    simp [fieldAt]
    omega
  have hbuf : cutBuffer x y rest = seekPrefix ++ x ++ 0 :: (y ++ [newline]) ++ 0 :: rest := by
    simp [cutBuffer]
  rw [hlen, ← hbuf] at hend
  simp only [Memory.strtok, hs, Option.none_or, hb, hend]
  exact ⟨_, rfl⟩

omit [DecidableEq σ] in
theorem strtoul_first (hx : Digits x)
    (hb : mem.buffers t = some (seekBuffer x y rest) ∨ mem.buffers t = some (cutBuffer x y rest)) :
    mem.strtoul (t, seekPrefix.length) = some (UInt64.ofNat (decimal x)) := by
  have hsmall : decimal x < 2 ^ 64 := by
    have := hx.small
    omega
  rcases hb with hb | hb
  · simp only [Memory.strtoul, hb, seekBuffer, Option.bind_some]
    exact strtoul_digits seekPrefix _ hx.ne_nil hx.digit (by decide) hsmall
  · simp only [Memory.strtoul, hb, cutBuffer, Option.bind_some]
    exact strtoul_digits seekPrefix _ hx.ne_nil hx.digit (by decide) hsmall

omit [DecidableEq σ] in
theorem strtoul_second (hy : Digits y) (hb : mem.buffers k = some (cutBuffer x y rest)) :
    mem.strtoul (k, fieldAt x y false) = some (UInt64.ofNat (decimal y)) := by
  have hsmall : decimal y < 2 ^ 64 := by
    have := hy.small
    omega
  have hdigits := strtoul_digits (seekPrefix ++ x ++ [0]) (0 :: rest) hy.ne_nil hy.digit
    (show isDigit newline = false by decide) hsmall
  have hbuf : cutBuffer x y rest = (seekPrefix ++ x ++ [0]) ++ y ++ newline :: 0 :: rest := by
    simp [cutBuffer]
  rw [fieldAt_eq x y, ← hbuf] at hdigits
  simp only [Memory.strtoul, hb, Option.bind_some, hdigits]

theorem parse_start (hx : Digits x) (hb : mem.buffers t = some (seekBuffer x y rest)) :
    parseStep mem t .start = .stage (.writeCmd (t, seekPrefix.length))
      ⟨Function.update mem.buffers t (some (cutBuffer x y rest)), some (t, fieldAt x y false)⟩ := by
  simp only [parseStep, strtok_first hx hb]

theorem parse_writeCmd (hx : Digits x)
    (hb : mem.buffers t = some (seekBuffer x y rest) ∨ mem.buffers t = some (cutBuffer x y rest)) :
    parseStep mem t (.writeCmd (t, seekPrefix.length)) = .stage (.next (value x)) mem := by
  simp only [parseStep, strtoul_first hx hb, hx.toUInt32]

theorem parse_next (hy : Digits y) (hb : mem.buffers k = some (cutBuffer x y rest))
    (hs : mem.saved = some (k, fieldAt x y false)) (v : UInt32) :
    parseStep mem t (.next v) = .stage (.writeCmdOffset v (k, fieldAt x y false))
      ⟨Function.update mem.buffers k (some (cutBuffer x y rest)), some (k, fieldAt x y true)⟩ := by
  simp only [parseStep, strtok_next hy hb hs]

theorem parse_over (hb : mem.buffers k = some (cutBuffer x y rest))
    (hs : mem.saved = some (k, fieldAt x y true)) (v : UInt32) :
    parseStep mem t (.next v) = .invalid := by
  obtain ⟨mem', hover⟩ := strtok_over hb hs
  simp only [parseStep, hover]

theorem parse_writeCmdOffset (hy : Digits y) (hb : mem.buffers k = some (cutBuffer x y rest))
    (v : UInt32) :
    parseStep mem t (.writeCmdOffset v (k, fieldAt x y false)) = .stage (.ready v (value y)) mem := by
  simp only [parseStep, strtoul_second hy hb, hy.toUInt32]

end Calls

/-- The stage of thread `t` after `n` steps, when it was given the second value of `owner`. -/
def stageOf (x y : Bool → List UInt8) (t owner : Bool) : ℕ → Stage Bool
  | 0 => .start
  | 1 => .writeCmd (t, seekPrefix.length)
  | 2 => .next (value (x t))
  | 3 => .writeCmdOffset (value (x t)) (owner, fieldAt (x owner) (y owner) false)
  | _ => .ready (value (x t)) (value (y owner))

structure Follows (x y rest : Bool → List UInt8) (d : Duo) (c : Cursor) (n : Bool → ℕ) : Prop where
  running : d.ended = false
  buffers : ∀ k, d.mem.buffers k = some (if c.called k then cutBuffer (x k) (y k) (rest k)
    else seekBuffer (x k) (y k) (rest k))
  saved : d.mem.saved = c.saved.map fun s => (s.1, fieldAt (x s.1) (y s.1) s.2)
  stage : ∀ t, d.stage t = stageOf x y t (c.owner t) (n t)
  issued : ∀ t, d.issued t = if 5 ≤ n t then some (value (x t), value (y (c.owner t))) else none
  called : ∀ t, c.called t = decide (1 ≤ n t)
  saved_called : ∀ k b, c.saved = some (k, b) → c.called k = true
  saved_ne_none : ∀ t, c.called t = true → c.saved ≠ none
  owner_called : ∀ t, 3 ≤ n t → c.called (c.owner t) = true

section Follows

variable {x y rest : Bool → List UInt8} {d : Duo} {c : Cursor} {n : Bool → ℕ}

theorem follows_init (x y rest : Bool → List UInt8) :
    Follows x y rest (.init x y rest) .init (fun _ => 0) where
  running := rfl
  buffers _ := rfl
  saved := rfl
  stage _ := rfl
  issued _ := rfl
  called _ := rfl
  saved_called _ _ h := by cases h
  saved_ne_none _ h := by cases h
  owner_called _ h := by omega

theorem Follows.issued_advance (h : Follows x y rest d c n) {t : Bool} (h4 : n t < 4)
    {owner : Bool → Bool} (ho : ∀ u, u ≠ t → owner u = c.owner u) (u : Bool) :
    d.issued u = if 5 ≤ Function.update n t (n t + 1) u then
      some (value (x u), value (y (owner u))) else none := by
  by_cases hu : u = t
  · subst hu
    rw [h.issued u, Function.update_self, if_neg (by omega), if_neg (by omega)]
  · rw [h.issued u, Function.update_of_ne hu, ho u hu]

theorem Follows.called_advance (h : Follows x y rest d c n) {t : Bool} (h1 : 1 ≤ n t) (u : Bool) :
    c.called u = decide (1 ≤ Function.update n t (n t + 1) u) := by
  by_cases hu : u = t
  · subst hu
    rw [h.called u, Function.update_self, decide_eq_true h1, decide_eq_true (by omega)]
  · rw [h.called u, Function.update_of_ne hu]

theorem Follows.owner_advance (h : Follows x y rest d c n) {t : Bool} (h2 : n t ≠ 2) (u : Bool)
    (hu : 3 ≤ Function.update n t (n t + 1) u) : c.called (c.owner u) = true := by
  by_cases hut : u = t
  · subst hut
    rw [Function.update_self] at hu
    exact h.owner_called u (by omega)
  · rw [Function.update_of_ne hut] at hu
    exact h.owner_called u hu

theorem Follows.advance (h : Follows x y rest d c n) {t : Bool} (h1 : 1 ≤ n t) (h2 : n t ≠ 2)
    {stage : Stage Bool} (hs : stage = stageOf x y t (c.owner t) (n t + 1)) (h5 : n t + 1 < 5) :
    Follows x y rest { d with stage := Function.update d.stage t stage } c
      (Function.update n t (n t + 1)) where
  running := h.running
  buffers := h.buffers
  saved := h.saved
  stage u := by
    by_cases hu : u = t
    · subst hu
      simp [hs]
    · simp [hu, h.stage u]
  issued := h.issued_advance (by omega) fun _ _ => rfl
  called := h.called_advance h1
  saved_called := h.saved_called
  saved_ne_none := h.saved_ne_none
  owner_called := h.owner_advance h2

theorem Follows.first (h : Follows x y rest d c n) {t : Bool} (hn : n t = 0) :
    Follows x y rest
      { d with
        mem := ⟨Function.update d.mem.buffers t (some (cutBuffer (x t) (y t) (rest t))),
          some (t, fieldAt (x t) (y t) false)⟩
        stage := Function.update d.stage t (.writeCmd (t, seekPrefix.length)) }
      { c with saved := some (t, false), called := Function.update c.called t true }
      (Function.update n t (n t + 1)) where
  running := h.running
  buffers k := by
    by_cases hk : k = t
    · subst hk
      simp
    · simp [hk, h.buffers k]
  saved := rfl
  stage u := by
    by_cases hu : u = t
    · subst hu
      simp [hn, stageOf]
    · simp [hu, h.stage u]
  issued := h.issued_advance (by omega) fun _ _ => rfl
  called u := by
    by_cases hu : u = t
    · subst hu
      simp
    · simp only [Function.update_of_ne hu]
      exact h.called u
  saved_called k b hk := by
    obtain ⟨rfl, _⟩ := Prod.mk.inj (Option.some.inj hk)
    exact Function.update_self _ _ _
  saved_ne_none _ _ := by simp
  owner_called u hu := by
    have hut : u ≠ t := by
      rintro rfl
      rw [Function.update_self] at hu
      omega
    rw [Function.update_of_ne hut] at hu
    by_cases ho : c.owner u = t
    · rw [ho]
      exact Function.update_self _ _ _
    · exact (Function.update_of_ne ho _ _).trans (h.owner_called u hu)

theorem Follows.next (h : Follows x y rest d c n) {t k : Bool} (hn : n t = 2)
    (hs : c.saved = some (k, false)) :
    Follows x y rest
      { d with
        mem := ⟨Function.update d.mem.buffers k (some (cutBuffer (x k) (y k) (rest k))),
          some (k, fieldAt (x k) (y k) true)⟩
        stage := Function.update d.stage t
          (.writeCmdOffset (value (x t)) (k, fieldAt (x k) (y k) false)) }
      { c with saved := some (k, true), owner := Function.update c.owner t k }
      (Function.update n t (n t + 1)) where
  running := h.running
  buffers j := by
    by_cases hj : j = k
    · subst hj
      simp [h.saved_called j false hs]
    · simp [hj, h.buffers j]
  saved := rfl
  stage u := by
    by_cases hu : u = t
    · subst hu
      simp [hn, stageOf]
    · simp [hu, h.stage u]
  issued := h.issued_advance (by omega) fun u hu => Function.update_of_ne hu _ _
  called := h.called_advance (by omega)
  saved_called j b hj := by
    obtain ⟨rfl, _⟩ := Prod.mk.inj (Option.some.inj hj)
    exact h.saved_called k false hs
  saved_ne_none _ _ := by simp
  owner_called u hu := by
    change c.called (Function.update c.owner t k u) = true
    by_cases hut : u = t
    · subst hut
      rw [Function.update_self]
      exact h.saved_called k false hs
    · rw [Function.update_of_ne hut] at hu ⊢
      exact h.owner_called u hu

theorem Follows.ioctl (h : Follows x y rest d c n) {t : Bool} (hn : 4 ≤ n t) :
    Follows x y rest
      { d with issued := Function.update d.issued t (some (value (x t), value (y (c.owner t)))) } c
      (Function.update n t (n t + 1)) where
  running := h.running
  buffers := h.buffers
  saved := h.saved
  stage u := by
    by_cases hu : u = t
    · subst hu
      obtain ⟨m, hm⟩ : ∃ m, n u = m + 4 := ⟨n u - 4, by omega⟩
      rw [h.stage u, Function.update_self, hm]
      rfl
    · rw [h.stage u, Function.update_of_ne hu]
  issued u := by
    change Function.update d.issued t _ u = _
    by_cases hu : u = t
    · subst hu
      rw [Function.update_self, Function.update_self, if_pos (by omega)]
    · rw [Function.update_of_ne hu, Function.update_of_ne hu, h.issued u]
  called := h.called_advance (by omega)
  saved_called := h.saved_called
  saved_ne_none := h.saved_ne_none
  owner_called := h.owner_advance (by omega)

/-- One step: both end, or the threads still follow. -/
theorem follows_step (hx : ∀ t, Digits (x t)) (hy : ∀ t, Digits (y t)) (h : Follows x y rest d c n)
    (hc : c.dead = false) (t : Bool) :
    ((Cursor.step (c, n) t).1.dead = true ∧ (d.step t).ended = true) ∨
      ((Cursor.step (c, n) t).1.dead = false ∧
        Follows x y rest (d.step t) (Cursor.step (c, n) t).1 (Cursor.step (c, n) t).2) := by
  have hbuf := h.buffers t
  have hstage := h.stage t
  have hcalled := h.called t
  -- a thread's steps so far say which call is next
  have hcases : n t = 0 ∨ n t = 1 ∨ n t = 2 ∨ n t = 3 ∨ 4 ≤ n t := by omega
  rcases hcases with hn | hn | hn | hn | hn
  · -- the first `strtok`
    rw [hn] at hstage hcalled
    rw [hcalled] at hbuf
    have hparse := parse_start (hx t) hbuf
    rw [Duo.step_parse h.running hparse hstage (by nofun), Cursor.step_call _ (.inl hn),
      Cursor.call_first hc hcalled]
    exact .inr ⟨hc, h.first hn⟩
  · rw [hn] at hstage hcalled
    rw [hcalled] at hbuf
    have hparse := parse_writeCmd (hx t) (.inr hbuf)
    rw [Duo.step_parse h.running hparse hstage (by nofun), Cursor.step_idle _ (by omega)]
    exact .inr ⟨hc, h.advance (by omega) (by omega) (by rw [hn]; rfl) (by omega)⟩
  · -- the second `strtok` goes on where the saved pointer is, in the buffer of `k`
    rw [hn] at hstage hcalled
    obtain ⟨⟨k, atEnd⟩, hsaved⟩ := Option.ne_none_iff_exists'.mp (h.saved_ne_none t hcalled)
    have hmem := h.saved
    have hk := h.buffers k
    rw [h.saved_called k atEnd hsaved] at hk
    rw [hsaved] at hmem
    rw [Cursor.step_call _ (.inr hn)]
    cases atEnd with
    | false =>
      have hparse := parse_next (t := t) (hy k) hk hmem (value (x t))
      rw [Duo.step_parse h.running hparse hstage (by nofun), Cursor.call_next hc hcalled hsaved]
      exact .inr ⟨hc, h.next hn hsaved⟩
    | true =>
      have hparse := parse_over (t := t) hk hmem (value (x t))
      rw [Duo.step_invalid h.running hparse hstage, Cursor.call_over hc hcalled hsaved]
      exact .inl ⟨rfl, rfl⟩
  · -- the second `strtoul` reads the buffer the token is in
    rw [hn] at hstage
    have hk := h.buffers (c.owner t)
    rw [h.owner_called t (by omega)] at hk
    have hparse := parse_writeCmdOffset (t := t) (hy (c.owner t)) hk (value (x t))
    rw [Duo.step_parse h.running hparse hstage (by nofun), Cursor.step_idle _ (by omega)]
    exact .inr ⟨hc, h.advance (by omega) (by omega) (by rw [hn]; rfl) (by omega)⟩
  · -- the `ioctl`, given once or again
    obtain ⟨m, hm⟩ : ∃ m, n t = m + 4 := ⟨n t - 4, by omega⟩
    rw [hm] at hstage
    rw [Duo.step_ready h.running hstage, Cursor.step_idle _ (by omega)]
    exact .inr ⟨hc, h.ioctl hn⟩

theorem step_of_ended (hd : d.ended = true) (t : Bool) : d.step t = d := by
  rw [Duo.step, if_pos hd]

theorem call_of_dead (hc : c.dead = true) (t : Bool) : c.call t = c := by
  rw [Cursor.call, if_pos hc]

theorem follows_run (hx : ∀ t, Digits (x t)) (hy : ∀ t, Digits (y t)) (sched : List Bool)
    (h : (c.dead = true ∧ d.ended = true) ∨ (c.dead = false ∧ Follows x y rest d c n)) :
    let cn := sched.foldl Cursor.step (c, n)
    (cn.1.dead = true ∧ (sched.foldl Duo.step d).ended = true) ∨
      (cn.1.dead = false ∧ Follows x y rest (sched.foldl Duo.step d) cn.1 cn.2) := by
  induction sched generalizing d c n with
  | nil => exact h
  | cons t sched ih =>
    rw [List.foldl_cons, List.foldl_cons]
    apply ih
    rcases h with ⟨hc, hd⟩ | ⟨hc, hf⟩
    · refine .inl ⟨?_, by rw [step_of_ended hd, hd]⟩
      change (if n t = 0 ∨ n t = 2 then c.call t else c).dead = true
      split_ifs
      · rw [call_of_dead hc, hc]
      · exact hc
    · exact follows_step hx hy hf hc t

end Follows

/-- **Two seek commands.** Whatever their values, two sessions that parse their commands at
the same time both issue their own pair exactly when one of them has made both its
`strtok` calls before the other makes its first. -/
theorem seeks_own_iff (x y rest : Bool → List UInt8) (hx : ∀ t, Digits (x t)) (hy : ∀ t, Digits (y t))
    (sched : List Bool) (h : ∀ t, sched.count t = 5) :
    ((sched.foldl Duo.step (.init x y rest)).ended = false ∧
      ∀ t, (sched.foldl Duo.step (.init x y rest)).issued t = some (value (x t), value (y t))) ↔
    ∃ t, strtokCalls (fun _ => 0) sched = [t, t, !t, !t] := by
  have hrun := follows_run hx hy sched (.inr ⟨rfl, follows_init x y rest⟩)
  rw [foldl_cursor_step] at hrun
  have hcount (t : Bool) : (strtokCalls (fun _ => 0) sched).count t = 2 := by
    have := count_strtokCalls (fun _ => 0) sched t
    rw [h t] at this
    simpa [callsWithin] using this
  obtain ⟨hserial, hown⟩ := cursor_calls _ hcount
  rw [← hserial]
  rcases hrun with ⟨hdead, hended⟩ | ⟨halive, hf⟩
  · constructor
    · rintro ⟨hno, _⟩
      rw [hended] at hno
      cases hno
    · intro hno
      rw [hdead] at hno
      cases hno
  · refine ⟨fun _ => halive, fun _ => ⟨hf.running, fun t => ?_⟩⟩
    rw [hf.issued t, if_pos (by simp [h t]), hown halive t]

def sampleX : Bool → List UInt8 := fun t => if t then [50] else [48]

def sampleY : Bool → List UInt8 := fun t => if t then [51] else [49]

theorem digits_singleton {b : UInt8} (h : isDigit b = true) : Digits [b] where
  ne_nil := List.cons_ne_nil _ _
  digit c hc := by
    rw [List.mem_singleton.mp hc]
    exact h
  small := by
    have := b.toNat_lt
    simp only [decimal, List.foldl_cons, List.foldl_nil]
    omega

theorem digits_sampleX (t : Bool) : Digits (sampleX t) := by
  cases t <;> exact digits_singleton (by decide)

theorem digits_sampleY (t : Bool) : Digits (sampleY t) := by
  cases t <;> exact digits_singleton (by decide)

theorem seeks_own_iff_serial :
    (([false, false, false, true, true, true, true, true, false, false].foldl Duo.step
      (.init sampleX sampleY fun _ => [])).ended = false ∧
      ∀ t, ([false, false, false, true, true, true, true, true, false, false].foldl Duo.step
        (.init sampleX sampleY fun _ => [])).issued t = some (value (sampleX t), value (sampleY t))) :=
  (seeks_own_iff sampleX sampleY (fun _ => [])
    digits_sampleX digits_sampleY
    [false, false, false, true, true, true, true, true, false, false] (by decide)).mpr
    ⟨false, by decide⟩

/-- Both threads make their first call before either makes its second. -/
theorem interleaved_seeks_mix :
    ¬ ∀ (x y rest : Bool → List UInt8), (∀ t, Digits (x t)) → (∀ t, Digits (y t)) →
      ∀ sched : List Bool, (∀ t, sched.count t = 5) →
        (sched.foldl Duo.step (.init x y rest)).ended = false ∧
          ∀ t, (sched.foldl Duo.step (.init x y rest)).issued t = some (value (x t), value (y t)) := by
  intro h
  have hown := (h sampleX sampleY (fun _ => [])
    digits_sampleX digits_sampleY
    [false, true, false, false, false, false, true, true, true, true] (by decide)).1
  revert hown
  decide

end Aesd.Server
