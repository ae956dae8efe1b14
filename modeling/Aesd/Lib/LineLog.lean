import Mathlib.Data.List.DropRight
import Mathlib.Data.List.Flatten

/-!
# A log of delimited lines

Items arrive in pieces. They are pending until a piece brings the delimiter;
then everything pending becomes one line of the history.
-/

variable {α : Type*}

/-- Every line of the history has the delimiter in it and the pending text does not. -/
structure LineLog (delim : α) where
  history : List (List α)
  pending : List α
  delim_mem : ∀ l ∈ history, delim ∈ l
  delim_notMem : delim ∉ pending

namespace LineLog

variable {delim : α}

def empty : LineLog delim := ⟨[], [], by simp, by simp⟩

def text (log : LineLog delim) : List α := log.history.flatten ++ log.pending

def stored (log : LineLog delim) (n : ℕ) : List (List α) := log.history.rtake n

@[simp] theorem text_empty : (empty : LineLog delim).text = [] := rfl

/-- Until a line falls out of the last `n`, these only grow at their end. -/
theorem stored_prefix {log log' : LineLog delim} (h : log.history <+: log'.history) {n : ℕ}
    (hn : log'.history.length ≤ max n log.history.length) : log.stored n <+: log'.stored n := by
  obtain ⟨extra, hextra⟩ := h
  have hlen := congrArg List.length hextra
  rw [List.length_append] at hlen
  have hdrop : log'.history.length - n = log.history.length - n ∨ extra = [] := by
    by_cases he : extra = []
    · exact .inr he
    · have := List.length_pos_iff.mpr he
      omega
  rw [stored, stored, List.rtake, List.rtake, ← hextra]
  rcases hdrop with hdrop | rfl
  · rw [hextra, hdrop, ← hextra, List.drop_append_of_le_length (Nat.sub_le _ _)]
    exact List.prefix_append _ _
  · simp

variable [DecidableEq α]

def write (log : LineLog delim) (data : List α) : LineLog delim :=
  if h : delim ∈ log.pending ++ data then
    { history := log.history ++ [log.pending ++ data]
      pending := []
      delim_mem := by
        intro l hl
        rcases List.mem_append.mp hl with hl | hl
        · exact log.delim_mem l hl
        · rwa [List.mem_singleton.mp hl]
      delim_notMem := by simp }
  else { log with pending := log.pending ++ data, delim_notMem := h }

theorem write_of_mem {log : LineLog delim} {data : List α} (h : delim ∈ log.pending ++ data) :
    (log.write data).history = log.history ++ [log.pending ++ data] ∧
      (log.write data).pending = [] := by
  simp only [write, dif_pos h, and_self]

theorem write_of_notMem {log : LineLog delim} {data : List α} (h : delim ∉ log.pending ++ data) :
    (log.write data).history = log.history ∧
      (log.write data).pending = log.pending ++ data := by
  simp only [write, dif_neg h, and_self]

/-- Nothing is lost, repeated or moved. -/
theorem text_write (log : LineLog delim) (data : List α) :
    (log.write data).text = log.text ++ data := by
  unfold text
  by_cases h : delim ∈ log.pending ++ data
  · simp [write_of_mem h]
  · simp [write_of_notMem h]

theorem text_foldl (log : LineLog delim) (pieces : List (List α)) :
    (pieces.foldl write log).text = log.text ++ pieces.flatten := by
  induction pieces generalizing log with
  | nil => simp
  | cons data pieces ih => simp [ih, text_write]

theorem write_nil (log : LineLog delim) : log.write [] = log := by
  have h : delim ∉ log.pending ++ [] := by simpa using log.delim_notMem
  simp [write, log.delim_notMem]

theorem foldl_write_lines {pieces : List (List α)} (h : ∀ data ∈ pieces, delim ∈ data)
    {log : LineLog delim} (hp : log.pending = []) :
    (pieces.foldl write log).history = log.history ++ pieces ∧
      (pieces.foldl write log).pending = [] := by
  induction pieces generalizing log with
  | nil => simp [hp]
  | cons data pieces ih =>
    have hdata := write_of_mem (List.mem_append_right log.pending (h data List.mem_cons_self))
    obtain ⟨hhistory, hpending⟩ := ih (fun d hd => h d (List.mem_cons_of_mem _ hd)) hdata.2
    rw [List.foldl_cons, hhistory, hdata.1, hp, List.nil_append, List.append_assoc]
    exact ⟨rfl, hpending⟩

theorem history_prefix_write (log : LineLog delim) (data : List α) :
    log.history <+: (log.write data).history := by
  by_cases h : delim ∈ log.pending ++ data
  · rw [(write_of_mem h).1]
    exact List.prefix_append _ _
  · simp [(write_of_notMem h).1]

theorem history_prefix_foldl (log : LineLog delim) (pieces : List (List α)) :
    log.history <+: (pieces.foldl write log).history := by
  induction pieces generalizing log with
  | nil => exact List.prefix_rfl
  | cons data pieces ih => exact (history_prefix_write log data).trans (ih _)

end LineLog
