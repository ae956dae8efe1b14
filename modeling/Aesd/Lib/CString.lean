import Mathlib.Data.List.TakeWhile
import Mathlib.Data.List.Basic

/-!
# Strings in memory regions

A region is the list of its bytes, and a function that would leave the region has
no result. The string of a region ends at its first zero byte.
-/

namespace CString

abbrev Region := List UInt8

/-- The string that starts a region, if it is terminated inside. -/
def string (m : Region) : Option (List UInt8) :=
  if 0 ∈ m then some (m.takeWhile (· ≠ 0)) else none

/-- `realloc` keeps the common prefix; new bytes hold anything. -/
def realloc (m : Region) (size : ℕ) (junk : ℕ → UInt8) : Region :=
  m.take size ++ (List.range (size - m.length)).map junk

/-- `strncat`: at most `n` bytes of `src`, then a zero byte. -/
def strncat (dst src : Region) (n : ℕ) : Option Region :=
  let tail := (src.take n).takeWhile (· ≠ 0)
  match string dst with
  | none => none
  | some str =>
    if (src.length < n ∧ 0 ∉ src) ∨ dst.length < str.length + tail.length + 1 then none
    else some (str ++ tail ++ 0 :: dst.drop (str.length + tail.length + 1))

theorem string_append {str : List UInt8} (h : 0 ∉ str) (rest : Region) :
    string (str ++ 0 :: rest) = some str := by
  have hne : ∀ b ∈ str, decide (b ≠ 0) = true := by
    intro b hb
    rw [decide_eq_true_eq]
    rintro rfl
    exact h hb
  rw [string, if_pos (by simp), List.takeWhile_append_of_pos hne]
  simp

theorem string_eq_some {m : Region} {str : List UInt8} :
    string m = some str ↔ 0 ∉ str ∧ ∃ rest, m = str ++ 0 :: rest := by
  constructor
  · intro h
    have hm : 0 ∈ m := by
      by_contra hm
      simp [string, hm] at h
    obtain ⟨s, rest, rfl, h0⟩ := List.eq_append_cons_of_mem hm
    obtain rfl := Option.some.inj ((string_append h0 rest).symm.trans h)
    exact ⟨h0, rest, rfl⟩
  · rintro ⟨h, rest, rfl⟩
    exact string_append h rest

theorem string_realloc {m : Region} {str : List UInt8} (h : string m = some str) {size : ℕ}
    (hs : str.length < size) (junk : ℕ → UInt8) : string (realloc m size junk) = some str := by
  obtain ⟨h0, rest, rfl⟩ := string_eq_some.mp h
  obtain ⟨k, rfl⟩ : ∃ k, size = str.length + (k + 1) := ⟨size - str.length - 1, by omega⟩
  rw [realloc, List.take_length_add_append, List.take_succ_cons, List.append_assoc, List.cons_append]
  exact string_append h0 _

/-- A shorter block cuts the terminator off. -/
theorem string_realloc_eq_none {m : Region} {str : List UInt8} (h : string m = some str) {size : ℕ}
    (hs : size ≤ str.length) (junk : ℕ → UInt8) : string (realloc m size junk) = none := by
  obtain ⟨h0, rest, rfl⟩ := string_eq_some.mp h
  have hgrow : size - (str ++ 0 :: rest).length = 0 := by
    simp only [List.length_append]
    omega
  rw [realloc, hgrow, List.take_append_of_le_length hs, string, if_neg]
  simpa using fun hm => h0 (List.mem_of_mem_take hm)

@[simp] theorem realloc_length (m : Region) (size : ℕ) (junk : ℕ → UInt8) :
    (realloc m size junk).length = size := by
  simp [realloc]
  omega

theorem strncat_eq_none {dst src : Region} {str : List UInt8} (h : string dst = some str) {n : ℕ} :
    strncat dst src n = none ↔ (src.length < n ∧ 0 ∉ src) ∨
      dst.length < str.length + ((src.take n).takeWhile (· ≠ 0)).length + 1 := by
  simp only [strncat, h, ite_eq_left_iff, reduceCtorEq, imp_false, not_not]

theorem string_strncat {dst src m : Region} {str : List UInt8} (h : string dst = some str) {n : ℕ}
    (hm : strncat dst src n = some m) :
    string m = some (str ++ (src.take n).takeWhile (· ≠ 0)) ∧ m.length = dst.length := by
  simp only [strncat, h] at hm
  split_ifs at hm with hbad
  obtain rfl := Option.some.inj hm
  have h0 : 0 ∉ str ++ (src.take n).takeWhile (· ≠ 0) := by
    rw [List.mem_append, not_or]
    exact ⟨(string_eq_some.mp h).1, fun hm => by simpa using List.mem_takeWhile_imp hm⟩
  refine ⟨string_append h0 _, ?_⟩
  simp only [List.length_append, List.length_cons, List.length_drop]
  omega

end CString
