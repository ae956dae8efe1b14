import Aesd.Server.ClientReads
import Aesd.Server.Grammar

/-!
# What a client gets that seeks

A session with a seek command among any number of others: what its `strtok` calls find, what
its `ioctl` moves, and what it reads from there.
-/

namespace Aesd.Server
open CString StepRuns Segments

def Phase.HasCalled : Phase → Prop
  | .receiving | .opening | .command | .seeking .start => False
  | _ => True

/-- The saved pointer is in the buffer of a session that has called `strtok`. -/
def World.SavedByCaller (w : World) : Prop :=
  ∀ j offset, w.mem.saved = some (j, offset) → (w.phase j).HasCalled

def World.callsStrtok (w : World) (j : ℕ) : Bool :=
  match w.phase j with
  | .seeking .start | .seeking (.next _) => true
  | _ => false

/-- Session `k` is between its two calls of `strtok`. -/
def World.betweenCalls (w : World) (k : ℕ) : Bool :=
  match w.phase k with
  | .seeking (.writeCmd _) | .seeking (.next _) => true
  | _ => false

/-- No other session calls `strtok` between the two calls of session `k`. -/
def World.Undisturbed (k : ℕ) (w : World) (l : ℕ × Env) : Prop :=
  w.betweenCalls k = true → l.1 ≠ k → w.callsStrtok l.1 = false

instance (k : ℕ) (w : World) (l : ℕ × Env) : Decidable (w.Undisturbed k l) :=
  inferInstanceAs (Decidable (_ → _ → _))

section Memory

variable {w : World} {j k : ℕ} {env : Env}

/-- `strtok` writes to the buffer it is called for, and the saved pointer stays there. -/
theorem strtok_keeps {mem mem' : Memory ℕ} {p token : Option (Pointer ℕ)}
    (h : mem.strtok p = some (token, mem')) :
    ∃ i offset offset', p.or mem.saved = some (i, offset) ∧ mem'.saved = some (i, offset') ∧
      ∀ k, k ≠ i → mem'.buffers k = mem.buffers k := by
  unfold Memory.strtok at h
  cases hq : p.or mem.saved with
  | none => simp [hq] at h
  | some q =>
    obtain ⟨i, offset⟩ := q
    cases hm : mem.buffers i with
    | none => simp [hq, hm] at h
    | some m =>
      simp only [hq, hm, Option.map_eq_some_iff] at h
      obtain ⟨⟨t, m', saved⟩, -, hmem⟩ := h
      obtain ⟨-, rfl⟩ := Prod.mk.inj hmem
      exact ⟨i, offset, saved, rfl, rfl, fun k hk => Function.update_of_ne hk ..⟩

theorem parseStep_keeps {mem mem' : Memory ℕ} {stage stage' : Stage ℕ}
    (h : parseStep mem j stage = .stage stage' mem') :
    mem' = mem ∨
      ∃ i offset', mem'.saved = some (i, offset') ∧ (∀ k, k ≠ i → mem'.buffers k = mem.buffers k) ∧
        (stage = .start ∧ i = j ∨
          (∃ writeCmd, stage = .next writeCmd) ∧ ∃ offset, mem.saved = some (i, offset)) := by
  cases stage with
  | start =>
    simp only [parseStep] at h
    split at h
    · cases h
    · cases h
    · rename_i hs
      obtain ⟨-, rfl⟩ := Parsed.stage.inj h
      obtain ⟨i, offset, offset', hq, hsaved, hkeep⟩ := strtok_keeps hs
      obtain ⟨rfl, -⟩ := Prod.mk.inj (Option.some.inj hq)
      exact .inr ⟨_, offset', hsaved, hkeep, .inl ⟨rfl, rfl⟩⟩
  | next writeCmd =>
    simp only [parseStep] at h
    split at h
    · cases h
    · cases h
    · rename_i hs
      obtain ⟨-, rfl⟩ := Parsed.stage.inj h
      obtain ⟨i, offset, offset', hq, hsaved, hkeep⟩ := strtok_keeps hs
      exact .inr ⟨i, offset', hsaved, hkeep, .inr ⟨⟨_, rfl⟩, offset, hq⟩⟩
  | writeCmd _ | writeCmdOffset _ _ =>
    simp only [parseStep] at h
    split at h
    · cases h
    · obtain ⟨-, rfl⟩ := Parsed.stage.inj h
      exact .inl rfl
  | ready a b =>
    obtain ⟨-, rfl⟩ := Parsed.stage.inj h
    exact .inl rfl

/-- What a step of session `j` does to the memory: outside `strtok` it works on the buffer of
its own session. -/
theorem mem_step (w : World) (j : ℕ) (env : Env) :
    (w.step (j, env)).2.mem.saved = w.mem.saved ∧
        (∀ k, k ≠ j → (w.step (j, env)).2.mem.buffers k = w.mem.buffers k) ∨
      w.callsStrtok j = true ∧ (w.step (j, env)).2.ended = none ∧ ∃ i offset',
        (w.step (j, env)).2.mem.saved = some (i, offset') ∧
        (∀ k, k ≠ i → (w.step (j, env)).2.mem.buffers k = w.mem.buffers k) ∧
        (w.phase j = .seeking .start ∧ i = j ∨
          (∃ writeCmd, w.phase j = .seeking (.next writeCmd)) ∧
            ∃ offset, w.mem.saved = some (i, offset)) := by
  cases hw : w.ended with
  | some ending =>
    rw [step_ended (by simp [hw])]
    exact .inl ⟨rfl, fun _ _ => rfl⟩
  | none =>
    rw [step_running hw]
    cases hp : w.phase j with
    | receiving =>
      simp only [World.threadFunc, hp, World.receive]
      split
      · exact .inl ⟨rfl, fun _ _ => rfl⟩
      · split
        · exact .inl ⟨rfl, fun k hk => Function.update_of_ne hk ..⟩
        · exact .inl ⟨rfl, fun k hk => Function.update_of_ne hk ..⟩
        · exact .inl ⟨rfl, fun _ _ => rfl⟩
        · exact .inl ⟨rfl, fun _ _ => rfl⟩
    | opening =>
      simp only [World.threadFunc, hp, World.openFile]
      split_ifs <;> exact .inl ⟨rfl, fun _ _ => rfl⟩
    | command =>
      simp only [World.threadFunc, hp, World.obey]
      split
      · exact .inl ⟨rfl, fun _ _ => rfl⟩
      · split_ifs <;> exact .inl ⟨rfl, fun _ _ => rfl⟩
    | seeking stage =>
      have hcase {stage' : Stage ℕ} {mem : Memory ℕ}
          (hs : parseStep w.mem j stage = .stage stage' mem) :
          mem.saved = w.mem.saved ∧ (∀ k, k ≠ j → mem.buffers k = w.mem.buffers k) ∨
            w.callsStrtok j = true ∧ w.ended = none ∧ ∃ i offset', mem.saved = some (i, offset') ∧
              (∀ k, k ≠ i → mem.buffers k = w.mem.buffers k) ∧
              (Phase.seeking stage = .seeking .start ∧ i = j ∨
                (∃ writeCmd, Phase.seeking stage = .seeking (.next writeCmd)) ∧
                  ∃ offset, w.mem.saved = some (i, offset)) := by
        rcases parseStep_keeps hs with
          rfl | ⟨i, offset', hsaved, hkeep, ⟨rfl, hi⟩ | ⟨⟨a, rfl⟩, hsome⟩⟩
        · exact .inl ⟨rfl, fun _ _ => rfl⟩
        · exact .inr ⟨by simp [World.callsStrtok, hp], hw, i, offset', hsaved, hkeep, .inl ⟨rfl, hi⟩⟩
        · exact .inr ⟨by simp [World.callsStrtok, hp], hw, i, offset', hsaved, hkeep,
            .inr ⟨⟨a, rfl⟩, hsome⟩⟩
      simp only [World.threadFunc, hp, World.parse]
      split
      · rename_i hs
        exact hcase hs
      · rename_i hs
        exact hcase hs
      · exact .inl ⟨rfl, fun _ _ => rfl⟩
      · exact .inl ⟨rfl, fun _ _ => rfl⟩
    | controlling a b =>
      simp only [World.threadFunc, hp, World.control]
      split_ifs <;> exact .inl ⟨rfl, fun _ _ => rfl⟩
    | echoing sendBuffer =>
      simp only [World.threadFunc, hp, World.echo]
      split_ifs <;> exact .inl ⟨rfl, fun _ _ => rfl⟩
    | sending sendBuffer =>
      simp only [World.threadFunc, hp, World.send]
      split
      · exact .inl ⟨rfl, fun _ _ => rfl⟩
      · split_ifs <;> exact .inl ⟨rfl, fun _ _ => rfl⟩
    | closing =>
      simp only [World.threadFunc, hp, World.close]
      exact .inl ⟨rfl, fun k hk => Function.update_of_ne hk ..⟩
    | returned =>
      simp only [World.threadFunc, hp]
      exact .inl ⟨trivial, fun _ _ => trivial⟩

theorem phase_step_ne (hk : k ≠ j) : (w.step (j, env)).2.phase k = w.phase k := by
  by_cases hw : w.ended = none
  · rw [step_running hw]
    cases hp : w.phase j with
    | receiving =>
      simp only [World.threadFunc, hp, World.receive]
      split
      · rfl
      · split
        · rfl
        · exact Function.update_of_ne hk ..
        · rfl
        · rfl
    | opening =>
      simp only [World.threadFunc, hp, World.openFile]
      split_ifs
      · exact Function.update_of_ne hk ..
      · rfl
    | command =>
      simp only [World.threadFunc, hp, World.obey]
      split
      · rfl
      · split_ifs
        · exact Function.update_of_ne hk ..
        · rfl
        · exact Function.update_of_ne hk ..
    | seeking stage =>
      simp only [World.threadFunc, hp, World.parse]
      split
      · exact Function.update_of_ne hk ..
      · exact Function.update_of_ne hk ..
      · rfl
      · rfl
    | controlling a b =>
      simp only [World.threadFunc, hp, World.control]
      split_ifs
      · rfl
      · exact Function.update_of_ne hk ..
    | echoing sendBuffer =>
      simp only [World.threadFunc, hp, World.echo]
      split_ifs <;> exact Function.update_of_ne hk ..
    | sending sendBuffer =>
      simp only [World.threadFunc, hp, World.send]
      split
      · rfl
      · split_ifs
        · rfl
        · exact Function.update_of_ne hk ..
    | closing =>
      simp only [World.threadFunc, hp]
      exact Function.update_of_ne hk ..
    | returned => simp only [World.threadFunc, hp]
  · rw [step_ended hw]

/-- Behind a call of `strtok` the parser does not begin again. -/
theorem parseStep_ne_start {mem mem' : Memory ℕ} {stage : Stage ℕ} :
    parseStep mem j stage ≠ .stage .start mem' := by
  cases stage with
  | start | next _ =>
    simp only [parseStep]
    split <;> simp
  | writeCmd _ | writeCmdOffset _ _ =>
    simp only [parseStep]
    split <;> simp
  | ready a b => simp [parseStep]

theorem hasCalled_parse {stage : Stage ℕ} (hw : w.ended = none) (hp : w.phase j = .seeking stage)
    (h : (w.step (j, env)).2.ended = none) : ((w.step (j, env)).2.phase j).HasCalled := by
  rw [step_running hw] at h ⊢
  simp only [World.threadFunc, hp] at h ⊢
  cases hs : parseStep w.mem j stage with
  | stage stage' mem' =>
    cases stage' with
    | start => exact absurd hs parseStep_ne_start
    | _ => simp [World.parse, hs, World.goto, Phase.HasCalled]
  | invalid => simp [World.parse, hs, World.stop] at h
  | fault => simp [World.parse, hs, World.stop] at h

theorem hasCalled_step (h : (w.phase k).HasCalled) : ((w.step (j, env)).2.phase k).HasCalled := by
  by_cases hw : w.ended = none
  · by_cases hk : k = j
    · subst hk
      cases hp : w.phase k with
      | receiving | opening | command => exact absurd h (by simp [hp, Phase.HasCalled])
      | seeking stage =>
        by_cases hend : (w.step (k, env)).2.ended = none
        · exact hasCalled_parse hw hp hend
        · -- a call that ends the process leaves its session where it is
          rw [hp] at h
          rw [step_running hw] at hend ⊢
          simp only [World.threadFunc, hp] at hend ⊢
          cases hs : parseStep w.mem k stage with
          | stage stage' mem' => cases stage' <;> simp [World.parse, hs, World.goto, hw] at hend
          | invalid => simpa [World.parse, hs, World.stop, hp] using h
          | fault => simpa [World.parse, hs, World.stop, hp] using h
      | controlling a b =>
        rw [step_running hw]
        simp only [World.threadFunc, hp, World.control]
        split_ifs
        · exact h
        · simp [World.goto, Phase.HasCalled]
      | echoing sendBuffer =>
        rw [step_running hw]
        simp only [World.threadFunc, hp, World.echo]
        split_ifs <;> simp [World.goto, Phase.HasCalled]
      | sending sendBuffer =>
        rw [step_running hw]
        simp only [World.threadFunc, hp, World.send]
        split
        · exact h
        · split_ifs
          · exact h
          · simp [World.goto, Phase.HasCalled]
      | closing =>
        rw [step_running hw]
        simp [World.threadFunc, hp, World.close, World.goto, Phase.HasCalled]
      | returned =>
        rw [step_running hw]
        simpa only [World.threadFunc, hp] using h
    · rwa [phase_step_ne hk]
  · rwa [step_ended hw]

theorem savedByCaller_step (h : w.SavedByCaller) : (w.step (j, env)).2.SavedByCaller := by
  intro i offset hsaved
  rcases mem_step w j env with
    ⟨hsame, -⟩ | ⟨-, hended, i', _, hsaved', -, ⟨hp, rfl⟩ | ⟨-, offset', hbefore⟩⟩
  · rw [hsame] at hsaved
    exact hasCalled_step (h i offset hsaved)
  -- the first call of session `j`, which goes on behind it
  · obtain ⟨rfl, -⟩ := Prod.mk.inj (Option.some.inj (hsaved'.symm.trans hsaved))
    by_cases hw : w.ended = none
    · exact hasCalled_parse hw hp hended
    · rw [step_ended hw] at hended
      exact absurd hended hw
  · obtain ⟨rfl, -⟩ := Prod.mk.inj (Option.some.inj (hsaved'.symm.trans hsaved))
    exact hasCalled_step (h i' offset' hbefore)

theorem savedByCaller_run (h : w.SavedByCaller) (ls : List (ℕ × Env)) :
    (exec World.step w ls).SavedByCaller := by
  induction ls generalizing w with
  | nil => exact h
  | cons l ls ih => exact ih (savedByCaller_step h)

end Memory

/-- How far session `k` is with the command `x,y`: what is left of its string, and where the
next token begins. -/
def World.Parses (w : World) (k : ℕ) (x y rest : List UInt8) : Prop :=
  match w.phase k with
  | .command | .seeking .start =>
    w.mem.buffers k = some (seekBuffer x y rest) ∧ ∀ offset, w.mem.saved ≠ some (k, offset)
  | .seeking (.writeCmd token) =>
    token = (k, seekPrefix.length) ∧ w.mem.buffers k = some (cutBuffer x y rest) ∧
      w.mem.saved = some (k, fieldAt x y false)
  | .seeking (.next writeCmd) =>
    writeCmd = value x ∧ w.mem.buffers k = some (cutBuffer x y rest) ∧
      w.mem.saved = some (k, fieldAt x y false)
  | .seeking (.writeCmdOffset writeCmd token) =>
    writeCmd = value x ∧ token = (k, fieldAt x y false) ∧
      w.mem.buffers k = some (cutBuffer x y rest) ∧
      ∀ offset, w.mem.saved = some (k, offset) → offset = fieldAt x y true
  | .controlling writeCmd writeCmdOffset => writeCmd = value x ∧ writeCmdOffset = value y
  | .receiving | .opening | .seeking (.ready ..) => False
  | .echoing _ | .sending _ | .closing | .returned => True

section Parses

variable {w : World} {j k : ℕ} {env : Env} {x y rest : List UInt8}

theorem string_seekBuffer (hx : Digits x) (hy : Digits y) (rest : List UInt8) :
    string (seekBuffer x y rest) = some (seekPrefix ++ (x ++ comma :: (y ++ [newline]))) := by
  refine string_eq_some.mpr ⟨?_, rest, by simp [seekBuffer]⟩
  intro hzero
  simp only [List.mem_append, List.mem_cons, List.not_mem_nil, or_false] at hzero
  rcases hzero with hzero | hzero | hzero | hzero | hzero
  · exact absurd hzero (by decide)
  · exact (hx.plain 0 hzero).2 rfl
  · exact absurd hzero (by decide)
  · exact (hy.plain 0 hzero).2 rfl
  · exact absurd hzero (by decide)

theorem World.parses_of_echoes (h : (w.phase k).Echoes) : w.Parses k x y rest := by
  unfold World.Parses
  cases hp : w.phase k with
  | echoing _ | sending _ | closing | returned => trivial
  | _ => simp [Phase.Echoes, hp] at h

theorem World.Parses.own (h : w.Parses k x y rest) (hx : Digits x) (hy : Digits y)
    (hi : w.Inv) (he : w.Enabled (k, env)) : (w.step (k, env)).2.Parses k x y rest := by
  cases hw : w.ended with
  | some ending => rwa [step_ended (by simp [hw])]
  | none =>
    cases hp : w.phase k with
    | receiving | opening => simp [World.Parses, hp] at h
    | command =>
      simp only [World.Parses, hp] at h
      have hstring : (w.mem.buffers k).bind string =
          some (seekPrefix ++ (x ++ comma :: (y ++ [newline]))) := by
        rw [h.1]
        exact string_seekBuffer hx hy rest
      have htest : (w.step (k, env)).2 = w.goto k (.seeking .start) := by
        simp [step_running hw, World.threadFunc, hp, World.obey, hstring]
      rw [htest]
      simpa [World.Parses, World.goto] using h
    | seeking stage =>
      cases stage with
      | start =>
        simp only [World.Parses, hp] at h
        obtain ⟨-, hmem, hphase⟩ := seeking_next hw hp (parse_start hx h.1) env
        simp only [World.Parses, hphase, hmem, afterCall, Function.update_self, and_self]
      | writeCmd token =>
        simp only [World.Parses, hp] at h
        obtain ⟨rfl, hbuffer, hsaved⟩ := h
        obtain ⟨-, hmem, hphase⟩ := seeking_next hw hp (parse_writeCmd hx (.inr hbuffer)) env
        simp only [World.Parses, hphase, hmem, afterCall]
        exact ⟨trivial, hbuffer, hsaved⟩
      | next writeCmd =>
        simp only [World.Parses, hp] at h
        obtain ⟨rfl, hbuffer, hsaved⟩ := h
        obtain ⟨-, hmem, hphase⟩ := seeking_next hw hp (parse_next hy hbuffer hsaved _) env
        simp only [World.Parses, hphase, hmem, afterCall, Function.update_self]
        simp
      | writeCmdOffset writeCmd token =>
        simp only [World.Parses, hp] at h
        obtain ⟨rfl, rfl, hbuffer, -⟩ := h
        obtain ⟨-, hmem, hphase⟩ := seeking_next hw hp (parse_writeCmdOffset hy hbuffer _) env
        simp only [World.Parses, hphase, afterCall, and_self]
      | ready a b => simp [World.Parses, hp] at h
    | controlling a b =>
      rcases view_step hi he k with ⟨hsame, -⟩ | ⟨-, hm⟩
      · have hphase : (w.step (k, env)).2.phase k = .controlling a b :=
          (congrArg View.phase hsame).trans hp
        simp only [World.Parses, hp, hphase] at h ⊢
        exact h
      · simp only [View.Moves, World.view, hp] at hm
        obtain ⟨_, -, hv⟩ := hm
        have hphase : (w.step (k, env)).2.phase k = .echoing clearBuffer := congrArg View.phase hv
        exact parses_of_echoes (hphase ▸ trivial)
    | echoing _ | sending _ | closing | returned =>
      exact parses_of_echoes (echoes_step hi he (hp ▸ trivial))

/-- A step of another session, which does not call `strtok` between the two calls of session
`k`; before them the saved pointer is elsewhere. -/
theorem World.Parses.other (h : w.Parses k x y rest) (hi : w.Inv) (he : w.Enabled (j, env))
    (hj : j ≠ k) (hd : w.Undisturbed k (j, env)) : (w.step (j, env)).2.Parses k x y rest := by
  have hphase : (w.step (j, env)).2.phase k = w.phase k := by
    rcases view_step hi he k with ⟨hsame, -⟩ | ⟨hk, -⟩
    · exact congrArg View.phase hsame
    · exact absurd hk.symm hj
  unfold World.Parses at h ⊢
  rw [hphase]
  rcases mem_step w j env with ⟨hsaved, hkeep⟩ | ⟨hcalls, hended, i, _, hsaved, hkeep, hcase⟩
  · rw [hsaved, hkeep k (Ne.symm hj)]
    exact h
  -- a call of `strtok`, which is not for the buffer of session `k`
  · have helse (hik : i ≠ k) (offset : ℕ) :
        (w.step (j, env)).2.mem.saved ≠ some (k, offset) := by
      rw [hsaved]
      exact fun heq => hik (Prod.mk.inj (Option.some.inj heq)).1
    have hbetween : w.betweenCalls k = false := by
      by_contra hb
      rw [hd (by simpa using hb) hj] at hcalls
      cases hcalls
    have hfar (h : ∀ offset, w.mem.saved ≠ some (k, offset)) : i ≠ k := by
      rcases hcase with ⟨-, rfl⟩ | ⟨-, offset, hbefore⟩
      · exact hj
      · rintro rfl
        exact h offset hbefore
    cases hp : w.phase k with
    | command =>
      simp only [hp] at h ⊢
      have hik := hfar h.2
      exact ⟨(hkeep k (Ne.symm hik)).trans h.1, helse hik⟩
    | seeking stage =>
      cases stage with
      | start =>
        simp only [hp] at h ⊢
        have hik := hfar h.2
        exact ⟨(hkeep k (Ne.symm hik)).trans h.1, helse hik⟩
      | writeCmd _ | next _ => simp [World.betweenCalls, hp] at hbetween
      | writeCmdOffset writeCmd token =>
        simp only [hp] at h ⊢
        obtain ⟨hvalue, htoken, hbuffer, hend⟩ := h
        have hik : i ≠ k := by
          rcases hcase with ⟨-, rfl⟩ | ⟨⟨a, ha⟩, offset, hbefore⟩
          · exact hj
          -- behind the last token `strtok` finds none, which would end the process
          · rintro rfl
            have hw : w.ended = none := by
              by_contra hw
              rw [step_ended hw] at hended
              exact hw hended
            have hover : parseStep w.mem j (.next a) = .invalid :=
              parse_over hbuffer (hend offset hbefore ▸ hbefore) a
            rw [seeking_rejects hw ha hover] at hended
            cases hended
        exact ⟨hvalue, htoken, (hkeep k (Ne.symm hik)).trans hbuffer,
          fun offset hs => absurd hs (helse hik offset)⟩
      | ready a b => simp only [hp] at h
    | receiving | opening => simp only [hp] at h
    | controlling _ _ =>
      simp only [hp] at h ⊢
      exact h
    | echoing _ | sending _ | closing | returned => trivial

theorem savedByCaller_init : (World.init .init).SavedByCaller := by
  intro j offset hsaved
  cases hsaved

theorem parses_of_command (hp : w.phase k = .command)
    (hb : (w.mem.buffers k).bind string = some (seekPrefix ++ (x ++ comma :: (y ++ [newline]))))
    (hc : w.SavedByCaller) : ∃ rest, w.Parses k x y rest := by
  obtain ⟨m, hm, hstring⟩ := Option.bind_eq_some_iff.mp hb
  obtain ⟨-, rest, rfl⟩ := string_eq_some.mp hstring
  refine ⟨rest, ?_⟩
  simp only [World.Parses, hp]
  refine ⟨by simp [hm, seekBuffer], ?_⟩
  intro offset hsaved
  have hcalled := hc k offset hsaved
  rw [hp] at hcalled
  exact hcalled

theorem parses_run (h : w.Parses k x y rest) (hx : Digits x) (hy : Digits y) (hi : w.Inv)
    {ls : List (ℕ × Env)} (hv : Valid World.step World.Enabled w ls)
    (hd : Valid World.step (World.Undisturbed k) w ls) :
    (exec World.step w ls).Parses k x y rest := by
  induction ls generalizing w with
  | nil => exact h
  | cons l ls ih =>
    obtain ⟨j, env⟩ := l
    have hstep : (w.step (j, env)).2.Parses k x y rest := by
      by_cases hj : j = k
      · subst hj
        exact h.own hx hy hi hv.1
      · exact h.other hi hv.1 hj hd.1
    exact ih hstep (inv_step hi hv.1) hv.2 hd.2

end Parses

/-- While the log has no more than ten lines, each is in the slot of its number. -/
theorem lastLine_eq_getD {lines : List (List UInt8)} (h : lines.length ≤ 10) (p : ℕ) :
    lastLine lines p = lines.getD p [] := by
  unfold lastLine
  split_ifs with hp
  · rw [Nat.mod_eq_of_lt (show _ < maxWriteOperationsSupported by
      change _ < 10
      omega)]
    congr 1
    omega
  · rw [List.getD_eq_default _ _ (Nat.not_lt.mp hp)]

theorem seekMove_line {d : LogDevice} {writeCmd writeCmdOffset n : ℕ} {beyond : UInt64}
    (hten : d.log.history.length ≤ 10) (hcmd : writeCmd < 10)
    (h : d.seekMove writeCmd writeCmdOffset beyond = some n) :
    ∃ line, d.log.history[writeCmd]? = some line ∧ writeCmdOffset < line.length ∧
      n = (d.log.history.take writeCmd).flatten.length + writeCmdOffset := by
  have hlength (p : ℕ) (hp : p < 10) :
      d.seekLength beyond p = (d.log.history.getD p []).length := by
    rw [LogDevice.seekLength, if_pos (show p < maxWriteOperationsSupported from hp),
      lastLine_eq_getD hten]
  unfold LogDevice.seekMove at h
  split_ifs at h with hin
  rw [hlength _ hcmd] at hin
  have hlt : writeCmd < d.log.history.length := by
    by_contra hge
    rw [List.getD_eq_default _ _ (Nat.not_lt.mp hge)] at hin
    exact absurd hin.2 (Nat.not_lt_zero _)
  have hsizes : (List.range writeCmd).map (d.seekLength beyond) =
      (d.log.history.take writeCmd).map List.length := by
    apply List.ext_getElem
    · simp
      omega
    · intro p hp hp'
      rw [List.length_map, List.length_range] at hp
      simp only [List.getElem_map, List.getElem_range, List.getElem_take]
      rw [hlength p (hp.trans hcmd), List.getD_eq_getElem _ _ (hp.trans hlt)]
  rw [List.getD_eq_getElem _ _ hlt] at hin
  refine ⟨_, List.getElem?_eq_getElem hlt, hin.2, ?_⟩
  rw [hsizes, sum_map_length] at h
  exact (Option.some.inj h).symm

section Control

variable {w : World} {d : LogDevice} {k : ℕ} {env : Env} {writeCmd writeCmdOffset : UInt32}

/-- An `ioctl` after which the session goes on moves its file from the beginning of the text. -/
theorem control_moves (h : w.OnLog d) (hp : w.phase k = .controlling writeCmd writeCmdOffset)
    (hgo : (w.step (k, env)).2.phase k ≠ .controlling writeCmd writeCmdOffset) :
    (w.step (k, env)).2.phase k = .echoing clearBuffer ∧ ∃ n,
      d.seekMove writeCmd.toNat writeCmdOffset.toNat env.beyond = some n ∧
      exec LogDevice.operate d (w.fileOp (k, env)).toList = d.goto k n := by
  have hw : w.ended = none := by
    by_contra hw
    rw [step_ended hw] at hgo
    exact hgo hp
  have hview := h.inv.sessions k
  simp only [View.Ok, World.view, hp] at hview
  have hzero : d.pos k = 0 := by
    rw [← h.represents.pos_eq, hview.2.2.2]
    rfl
  have hop : w.fileOp (k, env) = some (.ioctl k aesdcharIocseekto
      ⟨true, some (writeCmd, writeCmdOffset)⟩ env.beyond env.interrupted) := by
    simp [World.fileOp, hw, hp]
  have hanswer := (@Represents.ioctl _ _ k h.represents ((h.pos_le k).trans_lt (by decide))
    aesdcharIocseekto ⟨true, some (writeCmd, writeCmdOffset)⟩ env.beyond env.interrupted).1
  have hioctl : d.ioctl k aesdcharIocseekto ⟨true, some (writeCmd, writeCmdOffset)⟩ env.beyond
      env.interrupted =
        d.adjust k writeCmd.toNat writeCmdOffset.toNat env.beyond env.interrupted := by
    have htype : iocType aesdcharIocseekto = aesdIocMagic := by decide
    have hnr : ¬ iocNr aesdcharIocseekto > aesdcharIocMaxnr := by decide
    simp [LogDevice.ioctl, htype, hnr]
  rw [step_running hw] at hgo ⊢
  simp only [World.threadFunc, hp, World.control] at hgo ⊢
  split_ifs at hgo ⊢ with hresult
  · exact absurd hp hgo
  · refine ⟨Function.update_self .., ?_⟩
    have hzero' : (d.adjust k writeCmd.toNat writeCmdOffset.toNat env.beyond env.interrupted).1.1 =
        0 := by
      rw [← hioctl, ← hanswer, not_not.mp hresult]
      rfl
    rw [hop]
    change ∃ n, _ ∧ (d.ioctl ..).2 = _
    rw [hioctl]
    simp only [LogDevice.adjust] at hzero' ⊢
    cases hintr : env.interrupted with
    | true =>
      rw [hintr] at hzero'
      exact absurd (show (-ERESTARTSYS).toInt = 0 from hzero') (by decide)
    | false =>
      cases hmove : d.seekMove writeCmd.toNat writeCmdOffset.toNat env.beyond with
      | none =>
        rw [hintr, hmove] at hzero'
        exact absurd (show (-EINVAL).toInt = 0 from hzero') (by decide)
      | some n => exact ⟨n, rfl, by simp [hzero]⟩

theorem control_starts_echo (h : w.OnLog d) (he : w.Enabled (k, env))
    (hp : w.phase k = .controlling writeCmd writeCmdOffset)
    (hgo : (w.step (k, env)).2.phase k ≠ .controlling writeCmd writeCmdOffset)
    (hten : d.log.history.length ≤ 10) (hcmd : writeCmd.toNat < 10) :
    ∃ line, d.log.history[writeCmd.toNat]? = some line ∧ writeCmdOffset.toNat < line.length ∧
      HasRead k ((d.log.history.take writeCmd.toNat).flatten.length + writeCmdOffset.toNat)
        (w.step (k, env)).2 (exec LogDevice.operate d (w.fileOp (k, env)).toList) [] := by
  obtain ⟨hphase, n, hmove, hd⟩ := control_moves h hp hgo
  obtain ⟨line, hline, hoffset, rfl⟩ := seekMove_line hten hcmd hmove
  have honLog := onLog_step h he
  rw [hd] at honLog ⊢
  refine ⟨line, hline, hoffset, honLog, hphase ▸ trivial, rfl, by simp, ?_⟩
  rw [LogDevice.goto_pos]
  rfl

end Control

/-- A session that seeks and then echoes until a read finds the end of the file: the run
before its command, its test for the prefix, what all sessions do until its `ioctl`, the
`ioctl`, what all sessions do until the last read, and this read. -/
structure SeekEcho (k : ℕ) (s : List UInt8) (before : List (ℕ × Env)) (test : Env)
    (parsing : List (ℕ × Env)) (control : Env) (during : List (ℕ × Env)) (last : Env) : Prop where
  valid : Valid World.step World.Enabled (World.init .init)
    (before ++ (k, test) :: parsing ++ (k, control) :: during ++ [(k, last)])
  commands : (exec World.step (World.init .init) before).phase k = .command
  string_eq : ((exec World.step (World.init .init) before).mem.buffers k).bind string =
    some (seekPrefix ++ s)
  undisturbed : Valid World.step (World.Undisturbed k) (exec World.step (World.init .init) before)
    ((k, test) :: parsing)
  controls : ∃ writeCmd writeCmdOffset, (exec World.step (World.init .init)
    (before ++ (k, test) :: parsing)).phase k = .controlling writeCmd writeCmdOffset
  echoes : ∃ sendBuffer, (exec World.step (World.init .init)
    (before ++ (k, test) :: parsing ++ (k, control) :: during)).phase k = .echoing sendBuffer
  closes : (exec World.step (World.init .init)
    (before ++ (k, test) :: parsing ++ (k, control) :: during ++ [(k, last)])).phase k = .closing
  uninterrupted : last.interrupted = false

section SeekEcho

variable {k : ℕ} {s : List UInt8} {before parsing during : List (ℕ × Env)}
  {test control last : Env} {writeCmd writeCmdOffset : UInt32}

/-- Whatever other sessions do: the `ioctl` is given the values of its own command, and the
session goes on behind it. -/
theorem SeekEcho.own_values (h : SeekEcho k s before test parsing control during last)
    (hs : Grammar s writeCmd writeCmdOffset) :
    let w := exec World.step (World.init .init) (before ++ (k, test) :: parsing)
    w.phase k = .controlling writeCmd writeCmdOffset ∧
      (w.step (k, control)).2.phase k ≠ .controlling writeCmd writeCmdOffset := by
  intro w
  obtain ⟨hrun, -⟩ := (valid_append _ _ _).mp h.valid
  obtain ⟨hcommand, hrest⟩ := (valid_append _ _ _).mp hrun
  obtain ⟨hbefore, hparsing⟩ := (valid_append _ _ _).mp hcommand
  have hi := (onLog_run onLog_init hbefore).1.inv
  have hi' : w.Inv := (onLog_run onLog_init hcommand).1.inv
  obtain ⟨x, y, hx, hy, rfl, rfl, rfl⟩ := hs
  obtain ⟨rest, hparses⟩ := parses_of_command h.commands h.string_eq
    (savedByCaller_run savedByCaller_init before)
  have hend := parses_run hparses hx hy hi hparsing h.undisturbed
  rw [← exec_append] at hend
  obtain ⟨a, b, hcontrol⟩ := h.controls
  change w.phase k = _ at hcontrol
  change w.Parses k x y rest at hend
  simp only [World.Parses, hcontrol] at hend
  obtain ⟨rfl, rfl⟩ := hend
  refine ⟨hcontrol, ?_⟩
  intro hsame
  obtain ⟨sendBuffer, hechoing⟩ := h.echoes
  rw [exec_append, exec_cons] at hechoing
  rcases view_step hi' hrest.1 k with ⟨-, hended | hne⟩ | ⟨-, hm⟩
  · rw [exec_of_ended hended] at hechoing
    rw [hsame] at hechoing
    cases hechoing
  · exact absurd rfl hne
  · simp only [View.Moves, World.view, hcontrol] at hm
    obtain ⟨_, -, hv⟩ := hm
    have hphase : (w.step (k, control)).2.phase k = .echoing clearBuffer := congrArg View.phase hv
    rw [hphase] at hsame
    cases hsame

/-- **A client that seeks gets the rest.** Among any number of sessions, none of which calls
`strtok` between the two calls of this one: its `ioctl` is given the values of its own command,
and if all sessions write no more than ten packets, each with a newline, then the session reads
the line with the number of its command from the offset in it on, and all lines behind it; and
its client is sent what the echo loop makes of these reads. -/
theorem client_gets_rest (h : SeekEcho k s before test parsing control during last)
    (hs : Grammar s writeCmd writeCmdOffset) (hcmd : writeCmd.toNat < 10)
    (hlines : ∀ packet ∈ packetsIn (World.init .init)
      (before ++ (k, test) :: parsing ++ (k, control) :: during), newline ∈ packet)
    (hten : (packetsIn (World.init .init)
      (before ++ (k, test) :: parsing ++ (k, control) :: during)).length ≤ 10) :
    let run := before ++ (k, test) :: parsing ++ (k, control) :: during
    let lines := packetsIn (World.init .init) run
    let reads := piecesIn k (World.init .init) run
    ∃ line, lines[writeCmd.toNat]? = some line ∧ writeCmdOffset.toNat < line.length ∧
      reads.flatten = line.drop writeCmdOffset.toNat ++ (lines.drop (writeCmd.toNat + 1)).flatten ∧
      (exec World.step (World.init .init) run).SentFor k reads := by
  intro run lines reads
  obtain ⟨hcontrol, hgo⟩ := h.own_values hs
  obtain ⟨sendBuffer, hphase⟩ := h.echoes
  have hvalid : Valid World.step World.Enabled (World.init .init) run :=
    ((valid_concat _ _ _).mp h.valid).1
  obtain ⟨hcommand, hrest⟩ := (valid_append _ _ _).mp hvalid
  set w := exec World.step (World.init .init) (before ++ (k, test) :: parsing) with hw
  set d := exec LogDevice.operate .empty
    (fileOpsIn (World.init .init) (before ++ (k, test) :: parsing)) with hd
  have honLog : w.OnLog d := (onLog_run onLog_init hcommand).1
  have hpackets : lines = packetsIn (World.init .init) (before ++ (k, test) :: parsing) ++
      packetsIn w ((k, control) :: during) := along_append ..
  have hops : fileOpsIn (World.init .init) run =
      fileOpsIn (World.init .init) (before ++ (k, test) :: parsing) ++
        fileOpsIn w ((k, control) :: during) := along_append ..
  -- the lines of the log in front of the `ioctl` and at the end
  have hhistory : (exec LogDevice.operate d (fileOpsIn w ((k, control) :: during))).log.history =
      lines := by
    rw [hd, ← exec_append, ← hops]
    exact history_eq_packets hvalid hlines
  have hearlier : d.log.history =
      packetsIn (World.init .init) (before ++ (k, test) :: parsing) := by
    apply history_eq_packets hcommand
    intro packet hpacket
    apply hlines
    change packet ∈ lines
    rw [hpackets]
    exact List.mem_append_left _ hpacket
  have hgrows : d.log.history <+: lines := by
    rw [hearlier, hpackets]
    exact List.prefix_append ..
  obtain ⟨line, hline, hoffset, hstart⟩ := control_starts_echo honLog hrest.1 hcontrol hgo
    (hgrows.length_le.trans hten) hcmd
  obtain ⟨hlt, rfl⟩ := List.getElem?_eq_some_iff.mp hline
  have hlt' := hlt.trans_le hgrows.length_le
  have hsame : d.log.history[writeCmd.toNat] = lines[writeCmd.toNat] := hgrows.getElem hlt
  have htake : d.log.history.take writeCmd.toNat = lines.take writeCmd.toNat := by
    obtain ⟨more, hmore⟩ := hgrows
    rw [← hmore, List.take_append_of_le_length hlt.le]
  rw [hsame] at hoffset
  rw [htake] at hstart
  -- nothing is read before the `ioctl`
  have hreads : reads = piecesIn k (w.step (k, control)).2 during := by
    have hechoed : w.Echoed k (piecesIn k (World.init .init) (before ++ (k, test) :: parsing)) :=
      echoed_run (echoed_nil rfl (.inl id)) onLog_init.inv hcommand
    simp only [World.Echoed, hcontrol] at hechoed
    have happend : reads = piecesIn k (World.init .init) (before ++ (k, test) :: parsing) ++
      piecesIn k w ((k, control) :: during) := along_append ..
    have hnone : w.piece (k, control) k = none := by
      cases hended : w.ended with
      | some ending => simp [World.piece, hended]
      | none => simp [World.piece, hended, hcontrol]
    rw [happend, hechoed.1, List.nil_append, piecesIn, along_cons, hnone]
    rfl
  refine ⟨lines[writeCmd.toNat], List.getElem?_eq_getElem hlt', hoffset, ?_, ?_⟩
  · have hrun : exec World.step (w.step (k, control)).2 during =
        exec World.step (World.init .init) run := by
      rw [← exec_cons, hw, ← exec_append]
    have hafter : exec LogDevice.operate (exec LogDevice.operate d (w.fileOp (k, control)).toList)
        (fileOpsIn (w.step (k, control)).2 during) =
          exec LogDevice.operate d (fileOpsIn w ((k, control) :: during)) := by
      rw [← exec_append]
      rfl
    have hread := hasRead_run hstart hrest.2 (by
      rw [hafter, hhistory]
      exact hten.trans (Nat.le_max_left ..))
    rw [hafter, hrun, List.nil_append, ← hreads] at hread
    have hall := hread.all hphase (by rw [← exec_concat]; exact h.closes) h.uninterrupted
    have hstored : (exec LogDevice.operate d (fileOpsIn w ((k, control) :: during))).stored = lines := by
      rw [LogDevice.stored, LineLog.stored, hhistory, List.rtake,
        Nat.sub_eq_zero_of_le (show _ ≤ maxWriteOperationsSupported from hten), List.drop_zero]
    have hlocate : locate (lines.map List.length)
        ((lines.take writeCmd.toNat).flatten.length + writeCmdOffset.toNat) =
          some (writeCmd.toNat, writeCmdOffset.toNat) := by
      refine locate_eq_some.mpr ⟨by simpa using hlt', by simpa using hoffset, ?_⟩
      rw [← List.map_take, sum_map_length]
    rw [hall, hstored, drop_flatten hlt' hlocate]
  · have hechoed : (exec World.step (World.init .init) run).Echoed k reads :=
      echoed_run (echoed_nil rfl (.inl id)) onLog_init.inv hvalid
    have hphase' : (exec World.step (World.init .init) run).phase k = .echoing sendBuffer := hphase
    simp only [World.Echoed, hphase'] at hechoed
    exact hechoed.2

end SeekEcho

/-- A session in front of the command `0,1`, and another one that has written `ab\n`. -/
def seekBehindWrite : List (ℕ × Env) :=
  [(0, client (seekPrefix ++ [48, 44, 49, 10]) 1), (0, client [] 1), (1, client [97, 98, 10] 2),
    (1, client [] 2), (1, client [] 2)]

theorem seekEcho_behindWrite : SeekEcho 0 [48, 44, 49, 10] seekBehindWrite (client [] 1)
    [(0, client [] 1), (1, client [] 2), (0, client [] 1), (1, client [] 2), (0, client [] 1),
      (0, client [] 1)] (client [] 1) (List.replicate 2 (0, client [] 1)) (client [] 1) where
  valid := by decide +kernel
  commands := by decide +kernel
  string_eq := by decide +kernel
  undisturbed := by decide +kernel
  controls := ⟨0, 1, by decide +kernel⟩
  echoes := ⟨readInto clearBuffer [98, 10], by decide +kernel⟩
  closes := by decide +kernel
  uninterrupted := rfl

theorem client_gets_rest_behindWrite :
    let run := seekBehindWrite ++ (0, client [] 1) :: [(0, client [] 1), (1, client [] 2),
      (0, client [] 1), (1, client [] 2), (0, client [] 1), (0, client [] 1)] ++
        (0, client [] 1) :: List.replicate 2 (0, client [] 1)
    ∃ line, (packetsIn (World.init .init) run)[0]? = some line ∧
      (piecesIn 0 (World.init .init) run).flatten =
        line.drop 1 ++ ((packetsIn (World.init .init) run).drop 1).flatten := by
  obtain ⟨line, hline, -, hreads, -⟩ := @client_gets_rest _ _ _ _ _ _ _ _ 0 1 seekEcho_behindWrite
    ⟨[48], [49], digits_singleton rfl, digits_singleton rfl, rfl, by decide, by decide⟩
    (by decide) (by decide +kernel) (by decide +kernel)
  exact ⟨line, hline, hreads⟩

end Aesd.Server
