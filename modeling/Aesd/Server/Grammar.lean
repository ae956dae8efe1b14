import Aesd.Server.Endings

/-!
# What the seek parser takes

The text behind the prefix, and the pair of values that the session gives to its `ioctl`.
-/

namespace Aesd.Server
open CString StepRuns

/-- The command as it is meant: `X,Y` and a newline. -/
def Grammar (s : List UInt8) (writeCmd writeCmdOffset : UInt32) : Prop :=
  ∃ x y, Digits x ∧ Digits y ∧ s = x ++ comma :: (y ++ [newline]) ∧
    writeCmd = value x ∧ writeCmdOffset = value y

/-- The two fields that `strtok` finds; one that is missing is empty. -/
def firstField (s : List UInt8) : List UInt8 := field comma s

def secondField (s : List UInt8) : List UInt8 := field comma (afterField comma s)

def World.Issues (w : World) (k : ℕ) (writeCmd writeCmdOffset : UInt32) : Prop :=
  w.ended = none ∧ w.phase k = .controlling writeCmd writeCmdOffset

theorem number_toUInt32 (s : List UInt8) :
    (number s).toUInt32.toNat = numeral s % 2 ^ 32 := by
  rw [UInt64.toNat_toUInt32, number_toNat]

theorem Digits.toUInt32_number {x rest : List UInt8} (h : Digits x)
    (hr : ∀ b, rest.head? = some b → isDigit b = false) :
    (number (x ++ rest)).toUInt32 = value x := by
  have hsmall : decimal x < 2 ^ 64 := h.small.trans (by decide)
  rw [← h.toUInt32]
  apply congrArg
  apply UInt64.toNat_inj.mp
  rw [number_toNat, numeral_digits h.ne_nil h.digit hr hsmall, UInt64.toNat_ofNat_of_lt' hsmall]

theorem fields_of_digits {x y : List UInt8} (hx : Digits x) (hy : Digits y) :
    firstField (x ++ comma :: (y ++ [newline])) = x ∧
      secondField (x ++ comma :: (y ++ [newline])) = y ++ [newline] := by
  have hplain : ∀ b ∈ y ++ [newline], b ≠ comma := by
    intro b hb
    rcases List.mem_append.mp hb with hb | hb
    · exact (hy.plain b hb).1
    · rw [List.mem_singleton.mp hb]
      decide
  have hfirst := @field_token comma x (comma :: (y ++ [newline])) hx.ne_nil
    (fun b hb => (hx.plain b hb).1) (fun b hb => (Option.some.inj hb).symm)
  have hsecond := @field_token comma (y ++ [newline]) [] (by simp) hplain (by simp)
  rw [List.append_nil] at hsecond
  exact ⟨hfirst.1, by rw [secondField, hfirst.2, field_cons_delim, hsecond.1]⟩

/-- **The seek parser.** A command whose library calls no other session interrupts goes to
the `ioctl` exactly when it has two non-empty fields, with the low 32 bits of what `strtoul`
makes of them, and takes the invalid-command exit otherwise. A well-formed command gives its
own two values. -/
theorem seek_issued_iff {w : World} {k : ℕ} {s : List UInt8} (hw : w.ended = none)
    (hp : w.phase k = .command) (hb : (w.mem.buffers k).bind string = some (seekPrefix ++ s))
    (a b c d e : Env) :
    let w' := exec World.step w [(k, a), (k, b), (k, c), (k, d), (k, e)]
    ((∃ writeCmd writeCmdOffset, w'.Issues k writeCmd writeCmdOffset) ↔
      firstField s ≠ [] ∧ secondField s ≠ []) ∧
    (∀ writeCmd writeCmdOffset, w'.Issues k writeCmd writeCmdOffset →
      writeCmd.toNat = numeral (firstField s) % 2 ^ 32 ∧
      writeCmdOffset.toNat = numeral (secondField s) % 2 ^ 32) ∧
    (firstField s = [] ∨ secondField s = [] → w'.ended = some .exitSafely) ∧
    ∀ writeCmd writeCmdOffset, Grammar s writeCmd writeCmdOffset →
      w'.Issues k writeCmd writeCmdOffset := by
  intro w'
  have hparse := parse_alone hw hp hb a b c d e
  change (if firstField s = [] ∨ secondField s = [] then w'.ended = some .exitSafely
    else w'.ended = none ∧ w'.phase k = .controlling (number (firstField s)).toUInt32
      (number (secondField s)).toUInt32) at hparse
  -- a well-formed command has both fields, so it is never on the first side
  by_cases hf : firstField s = [] ∨ secondField s = []
  · rw [if_pos hf] at hparse
    have hno : ∀ x y, ¬ w'.Issues k x y := by
      intro x y hi
      have hnone := hi.1
      rw [hparse] at hnone
      cases hnone
    refine ⟨⟨?_, fun hboth => absurd hf (not_or.mpr hboth)⟩, fun x y hi => absurd hi (hno x y),
      fun _ => hparse, ?_⟩
    · rintro ⟨x, y, hi⟩
      exact absurd hi (hno x y)
    · rintro _ _ ⟨x, y, hx, hy, rfl, _⟩
      obtain ⟨hfirst, hsecond⟩ := fields_of_digits hx hy
      rw [hfirst, hsecond] at hf
      exact absurd hf (not_or.mpr ⟨hx.ne_nil, by simp⟩)
  · rw [if_neg hf] at hparse
    refine ⟨⟨fun _ => not_or.mp hf, fun _ => ⟨_, _, hparse⟩⟩, ?_, fun h => absurd h hf, ?_⟩
    · rintro x y ⟨_, hphase⟩
      rw [hparse.2] at hphase
      obtain ⟨rfl, rfl⟩ := Phase.controlling.inj hphase
      exact ⟨number_toUInt32 _, number_toUInt32 _⟩
    · rintro _ _ ⟨x, y, hx, hy, rfl, rfl, rfl⟩
      obtain ⟨hfirst, hsecond⟩ := fields_of_digits hx hy
      rw [hfirst, hsecond] at hparse
      have hvalue := @Digits.toUInt32_number x [] hx (by simp)
      rw [List.append_nil] at hvalue
      rw [hvalue, hy.toUInt32_number (by simp; decide)] at hparse
      exact hparse

def commandAt (s : List UInt8) : World :=
  exec World.step (.init .init) (List.replicate 2 (0, answer (.data (seekPrefix ++ s))))

/-- The command `0,1`. -/
theorem seek_issued_iff_digits :
    (exec World.step (commandAt [48, 44, 49, 10])
      (List.replicate 5 (0, answer .closed))).Issues 0 0 1 := by
  have hissued := seek_issued_iff (w := commandAt [48, 44, 49, 10]) (k := 0) (s := [48, 44, 49, 10])
    (by decide +kernel) (by decide +kernel) (by decide +kernel) (answer .closed) (answer .closed)
    (answer .closed) (answer .closed) (answer .closed)
  exact hissued.2.2.2 0 1
    ⟨[48], [49], digits_singleton rfl, digits_singleton rfl, rfl, by decide, by decide⟩

/-- The command `0,1x` is taken for `0,1`. -/
theorem junk_behind_digits_issued :
    ¬ ∀ ls, Valid World.step World.Enabled (.init .init) ls → ∀ k s,
      (exec World.step (.init .init) ls).ended = none →
      (exec World.step (.init .init) ls).phase k = .command →
      ((exec World.step (.init .init) ls).mem.buffers k).bind string = some (seekPrefix ++ s) →
      ∀ env writeCmd writeCmdOffset,
        (exec World.step (exec World.step (.init .init) ls) (List.replicate 5 (k, env))).Issues k
          writeCmd writeCmdOffset ↔ Grammar s writeCmd writeCmdOffset := by
  intro h
  have hiff := h (List.replicate 2 (0, answer (.data (seekPrefix ++ [48, 44, 49, 120, 10]))))
    (by decide +kernel) 0 [48, 44, 49, 120, 10] (by decide +kernel) (by decide +kernel)
    (by decide +kernel) (answer .closed) 0 1
  obtain ⟨x, y, hx, hy, hs, _⟩ := hiff.mp ⟨by decide +kernel, by decide +kernel⟩
  have hmem : (120 : UInt8) ∈ x ++ comma :: (y ++ [newline]) := hs ▸ by decide
  rcases List.mem_append.mp hmem with hm | hm
  · exact absurd (hx.digit _ hm) (by decide)
  rcases List.mem_cons.mp hm with hm | hm
  · exact absurd hm (by decide)
  rcases List.mem_append.mp hm with hm | hm
  · exact absurd (hy.digit _ hm) (by decide)
  · exact absurd (List.mem_singleton.mp hm) (by decide)

end Aesd.Server
