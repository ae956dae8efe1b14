import Aesd.Lib.Runs
import Aesd.Lib.Walk

/-!
# A queue of bounded length

Items are appended, and the oldest is handed back when there are too many.
-/

namespace BoundedQueue
open StepRuns RingWalk

variable {α : Type*} {N : ℕ} {queue : List α}

/-- The item that falls out, and the queue after it. -/
def push (N : ℕ) (queue : List α) (x : α) : Option α × List α :=
  if (queue ++ [x]).length ≤ N then (none, queue ++ [x])
  else ((queue ++ [x]).head?, (queue ++ [x]).tail)

theorem push_of_lt (h : queue.length < N) (x : α) : push N queue x = (none, queue ++ [x]) := by
  rw [push, if_pos (by rw [List.length_append, List.length_singleton]; exact h)]

theorem push_of_length (h : queue.length = N) (x : α) :
    push N queue x = ((queue ++ [x]).head?, (queue ++ [x]).tail) := by
  rw [push, if_neg (by simp [h])]

theorem push_snd (h : queue.length ≤ N) (x : α) : (push N queue x).2 = (queue ++ [x]).rtake N := by
  rcases Nat.lt_or_eq_of_le h with hlt | heq
  · rw [push_of_lt hlt, rtake_concat_of_lt x hlt]
  · rw [push_of_length heq, rtake_concat_of_length x heq]

theorem length_rtake_le (l : List α) (N : ℕ) : (l.rtake N).length ≤ N := by
  rw [List.rtake, List.length_drop]
  omega

theorem exec_push (xs : List α) : exec (push N) [] xs = xs.rtake N := by
  induction xs using List.reverseRecOn with
  | nil => simp
  | append_singleton xs x ih =>
    rw [exec_concat, ih, push_snd (length_rtake_le xs N), rtake_rtake_concat]

/-- What push number `n` hands back: from the `N`-th on, item number `n - N`. -/
theorem push_rtake_fst (xs : List α) (x : α) :
    (push N (xs.rtake N) x).1 =
      if xs.length < N then none else (xs ++ [x])[xs.length - N]? := by
  split_ifs with h
  · rw [rtake_eq_self h.le, push_of_lt h]
  · have hlen : (xs.rtake N).length = N := by
      rw [List.rtake, List.length_drop]
      omega
    rw [push_of_length hlen, List.rtake, ← List.drop_append_of_le_length (Nat.sub_le _ _),
      List.head?_drop]

/-- The first `N` pushes hand nothing back, the others the first items in order. -/
theorem replies_push (xs : List α) : replies (push N) [] xs =
    List.replicate (min xs.length N) none ++ (xs.take (xs.length - N)).map some := by
  induction xs using List.reverseRecOn with
  | nil => simp
  | append_singleton xs x ih =>
    rw [replies_append, ih, exec_push, replies_cons, replies_nil, push_rtake_fst,
      List.length_append, List.length_singleton]
    split_ifs with h
    · have htake : xs.length + 1 - N = 0 := by omega
      have htake' : xs.length - N = 0 := by omega
      rw [htake, htake', Nat.min_eq_left h, Nat.min_eq_left h.le, List.take_zero, List.take_zero,
        List.map_nil, List.append_nil, List.append_nil, List.replicate_succ']
    · have hlt : xs.length - N < (xs ++ [x]).length := by
        rw [List.length_append, List.length_singleton]
        omega
      have hmin : min (xs.length + 1) N = min xs.length N := by omega
      rw [hmin, Nat.succ_sub (Nat.not_lt.mp h), List.take_succ_eq_append_getElem hlt,
        List.take_append_of_le_length (Nat.sub_le _ _), List.map_append, List.append_assoc,
        List.getElem?_eq_getElem hlt]
      rfl

end BoundedQueue
