import Mathlib.Data.List.DropRight
import Mathlib.Data.List.Rotate
import Mathlib.Data.Nat.ModEq
import Mathlib.Logic.Function.Basic

/-!
# Walking a ring of slots

`walk N slot start len` reads `len` slots of a ring of `N` slots, from `start`
on. A bounded log keeps the last `N` items, `List.rtake`.
-/

namespace RingWalk

variable {α β : Type*} {N : ℕ}

def walk (N : ℕ) (slot : ℕ → α) (start len : ℕ) : List α :=
  (List.range len).map fun i => slot ((start + i) % N)

@[simp] theorem walk_length (slot : ℕ → α) (start len : ℕ) :
    (walk N slot start len).length = len := by
  simp [walk]

@[simp] theorem walk_zero (slot : ℕ → α) (start : ℕ) : walk N slot start 0 = [] := rfl

@[simp] theorem getElem_walk (slot : ℕ → α) (start len i : ℕ)
    (h : i < (walk N slot start len).length) :
    (walk N slot start len)[i] = slot ((start + i) % N) := by
  simp [walk]

theorem mem_walk {slot : ℕ → α} {start len : ℕ} {a : α} :
    a ∈ walk N slot start len ↔ ∃ i < len, slot ((start + i) % N) = a := by
  simp [walk]

theorem walk_congr {slot slot' : ℕ → α} {start len : ℕ}
    (h : ∀ i < len, slot ((start + i) % N) = slot' ((start + i) % N)) :
    walk N slot start len = walk N slot' start len := by
  apply List.map_congr_left
  intro i hi
  exact h i (List.mem_range.mp hi)

theorem walk_succ (slot : ℕ → α) (start len : ℕ) :
    walk N slot start (len + 1) = walk N slot start len ++ [slot ((start + len) % N)] := by
  simp [walk, List.range_succ]

theorem walk_append (slot : ℕ → α) (start len len' : ℕ) :
    walk N slot start (len + len') =
      walk N slot start len ++ (List.range len').map fun i => slot ((start + (len + i)) % N) := by
  simp [walk, List.range_add, Function.comp_def]

/-- One revolution reads every slot once. -/
theorem walk_eq_rotate (slot : ℕ → α) (start : ℕ) :
    walk N slot start N = ((List.range N).map slot).rotate start := by
  apply List.ext_getElem
  · simp
  · intro i _ _
    simp [List.getElem_rotate, Nat.add_comm]

theorem walk_succ_front (slot : ℕ → α) {start : ℕ} (hs : start < N) (len : ℕ) :
    walk N slot start (len + 1) = slot start :: walk N slot ((start + 1) % N) len := by
  simp only [walk, List.range_succ_eq_map, List.map_cons, List.map_map, Nat.add_zero,
    Nat.mod_eq_of_lt hs, List.cons.injEq, true_and]
  apply List.map_congr_left
  intro i _
  simp only [Function.comp, Nat.mod_add_mod]
  congr 2
  omega

theorem offset_inj {start i j : ℕ} (hi : i < N) (hj : j < N)
    (h : (start + i) % N = (start + j) % N) : i = j := by
  have hm : i ≡ j [MOD N] := Nat.ModEq.add_left_cancel' start h
  exact hm.eq_of_lt_of_lt hi hj

theorem offset_ne {start i j : ℕ} (hij : i < j) (hj : j < N) :
    (start + i) % N ≠ (start + j) % N :=
  fun h => hij.ne (offset_inj (hij.trans hj) hj h)

/-- Every slot of the ring is some offset away from the start. -/
theorem exists_offset {start k : ℕ} (hs : start < N) (hk : k < N) :
    ∃ i < N, (start + i) % N = k := by
  refine ⟨(k + N - start) % N, Nat.mod_lt _ (by omega), ?_⟩
  rw [Nat.add_mod_mod, show start + (k + N - start) = k + N by omega, Nat.add_mod_right,
    Nat.mod_eq_of_lt hk]

theorem walk_push (slot : ℕ → α) (start len : ℕ) (x : α) (h : len < N) :
    walk N (Function.update slot ((start + len) % N) x) start (len + 1) =
      walk N slot start len ++ [x] := by
  rw [walk_succ, Function.update_self]
  congr 1
  apply walk_congr
  intro i hi
  exact Function.update_of_ne (offset_ne hi h) _ _

/-- Overwriting the oldest slot of a full ring drops the oldest item and appends. -/
theorem walk_overwrite (slot : ℕ → α) {start : ℕ} (hs : start < N) (x : α) :
    walk N (Function.update slot start x) ((start + 1) % N) N =
      (walk N slot start N).tail ++ [x] := by
  obtain ⟨M, rfl⟩ : ∃ M, N = M + 1 := ⟨N - 1, by omega⟩
  have hlast : ((start + 1) % (M + 1) + M) % (M + 1) = start := by
    rw [Nat.mod_add_mod, show start + 1 + M = start + (M + 1) by omega, Nat.add_mod_right,
      Nat.mod_eq_of_lt hs]
  rw [walk_succ _ ((start + 1) % (M + 1)), hlast, Function.update_self, walk_succ_front _ hs,
    List.tail_cons]
  congr 1
  apply walk_congr
  intro i hi
  apply Function.update_of_ne
  have hne : ((start + 1) % (M + 1) + i) % (M + 1) ≠ ((start + 1) % (M + 1) + M) % (M + 1) :=
    offset_ne hi (Nat.lt_succ_self M)
  rwa [hlast] at hne

theorem rtake_eq_self {l : List α} {n : ℕ} (h : l.length ≤ n) : l.rtake n = l := by
  simp [List.rtake, Nat.sub_eq_zero_of_le h]

/-- A bounded log can forget the old items before or after an append. -/
theorem rtake_rtake_concat (l : List α) (n : ℕ) (x : α) :
    (l.rtake n ++ [x]).rtake n = (l ++ [x]).rtake n := by
  cases n with
  | zero => simp
  | succ n =>
    rw [List.rtake_concat_succ, List.rtake_concat_succ]
    congr 1
    simp only [List.rtake, List.drop_drop, List.length_drop]
    congr 1
    omega

theorem rtake_concat_of_lt {l : List α} {n : ℕ} (x : α) (h : l.length < n) :
    (l ++ [x]).rtake n = l ++ [x] := by
  apply rtake_eq_self
  simp
  omega

theorem rtake_concat_of_length {l : List α} {n : ℕ} (x : α) (h : l.length = n) :
    (l ++ [x]).rtake n = (l ++ [x]).tail := by
  subst h
  simp [List.rtake, List.drop_one]

theorem map_rtake (f : α → β) (l : List α) (n : ℕ) : (l.rtake n).map f = (l.map f).rtake n := by
  simp [List.rtake, List.map_drop]

end RingWalk
