import Mathlib.Algebra.BigOperators.Group.List.Basic
import Mathlib.Algebra.Order.Ring.Nat
import Mathlib.Data.List.Flatten

/-!
# Positions in a concatenation of segments

`locate` finds the segment and the offset in it of a position in the
concatenation, from the segments' lengths alone.
-/

namespace Segments

variable {α : Type*}

def locate : List ℕ → ℕ → Option (ℕ × ℕ)
  | [], _ => none
  | s :: ss, p => if p < s then some (0, p) else (locate ss (p - s)).map fun io => (io.1 + 1, io.2)

theorem locate_eq_none {ss : List ℕ} {p : ℕ} : locate ss p = none ↔ ss.sum ≤ p := by
  induction ss generalizing p with
  | nil => simp [locate]
  | cons s ss ih =>
    simp only [locate, List.sum_cons]
    split_ifs with h
    · simp
      omega
    · rw [Option.map_eq_none_iff, ih]
      omega

theorem locate_eq_some {ss : List ℕ} {p i o : ℕ} :
    locate ss p = some (i, o) ↔ ∃ h : i < ss.length, o < ss[i] ∧ (ss.take i).sum + o = p := by
  induction ss generalizing p i with
  | nil => simp [locate]
  | cons s ss ih =>
    simp only [locate]
    split_ifs with h
    · constructor
      · rintro ⟨⟩
        exact ⟨by simp, by simpa using h, by simp⟩
      · rintro ⟨hi, ho, hp⟩
        cases i with
        | zero => simp_all
        | succ i => simp at hp; omega
    · rw [Option.map_eq_some_iff]
      constructor
      · rintro ⟨⟨j, q⟩, hj, he⟩
        obtain ⟨rfl, rfl⟩ := Prod.mk.inj he
        obtain ⟨hj, hq, hp⟩ := ih.mp hj
        exact ⟨by simpa using hj, by simpa using hq, by simp; omega⟩
      · rintro ⟨hi, ho, hp⟩
        cases i with
        | zero => simp at ho hp; omega
        | succ i =>
          refine ⟨(i, o), ih.mpr ⟨by simpa using hi, by simpa using ho, ?_⟩, rfl⟩
          simp at hp
          omega

/-- The text from a position on is the rest of its segment and the later segments. -/
theorem drop_flatten {L : List (List α)} {p i o : ℕ} (hi : i < L.length)
    (h : locate (L.map List.length) p = some (i, o)) :
    L.flatten.drop p = L[i].drop o ++ (L.drop (i + 1)).flatten := by
  induction L generalizing p i with
  | nil => simp at hi
  | cons l L ih =>
    simp only [locate, List.map_cons] at h
    split_ifs at h with hp
    · obtain ⟨rfl, rfl⟩ := Prod.mk.inj (Option.some.inj h)
      simp [List.drop_append_of_le_length (Nat.le_of_lt hp)]
    · obtain ⟨⟨j, q⟩, hj, he⟩ := Option.map_eq_some_iff.mp h
      obtain ⟨rfl, rfl⟩ := Prod.mk.inj he
      have hl : l.drop p = [] := List.drop_of_length_le (Nat.not_lt.mp hp)
      simpa [List.drop_append, hl] using ih (by simpa using hi) hj

theorem sum_map_length (L : List (List α)) : (L.map List.length).sum = L.flatten.length := by
  rw [List.length_flatten]

/-- There are at most as many non-empty segments as there are items. -/
theorem countP_ne_nil_le [DecidableEq α] (L : List (List α)) :
    (L.filter (· ≠ [])).length ≤ L.flatten.length := by
  induction L with
  | nil => simp
  | cons l L ih =>
    rw [List.filter_cons, List.flatten_cons, List.length_append]
    cases l with
    | nil => simpa using ih
    | cons a l =>
      simp only [ne_eq, reduceCtorEq, not_false_eq_true, decide_true, if_true, List.length_cons]
      simp only [ne_eq] at ih
      omega

/-- At most `n` items from position `p` on, never past the end of a segment. -/
def readAt (L : List (List α)) (p n : ℕ) : List α :=
  match locate (L.map List.length) p with
  | none => []
  | some (i, o) => ((L.getD i []).drop o).take n

theorem readAt_length_le (L : List (List α)) (p n : ℕ) : (readAt L p n).length ≤ n := by
  unfold readAt
  split
  · simp
  · exact List.length_take_le _ _

theorem readAt_of_length_le {L : List (List α)} {p : ℕ} (h : L.flatten.length ≤ p) (n : ℕ) :
    readAt L p n = [] := by
  rw [← sum_map_length] at h
  simp [readAt, locate_eq_none.mpr h]

/-- Inside the text, a read is a piece of one segment that starts at the position. -/
theorem readAt_of_lt {L : List (List α)} {p : ℕ} (h : p < L.flatten.length) (n : ℕ) :
    ∃ i o, ∃ hi : i < L.length, o < L[i].length ∧ readAt L p n = (L[i].drop o).take n ∧
      L.flatten.drop p = L[i].drop o ++ (L.drop (i + 1)).flatten := by
  cases hl : locate (L.map List.length) p with
  | none =>
    have := locate_eq_none.mp hl
    rw [sum_map_length] at this
    omega
  | some io =>
    obtain ⟨i, o⟩ := io
    obtain ⟨hi, ho, _⟩ := locate_eq_some.mp hl
    have hi' : i < L.length := by simpa using hi
    refine ⟨i, o, hi', by simpa using ho, ?_, drop_flatten hi' hl⟩
    simp [readAt, hl, List.getElem?_eq_getElem hi']

/-- A read that asks for something begins with the item at the position. -/
theorem head?_readAt {L : List (List α)} {p i o n : ℕ}
    (h : locate (L.map List.length) p = some (i, o)) (hn : 0 < n) :
    (readAt L p n).head? = (L[i]?).bind (·[o]?) := by
  obtain ⟨hi, _⟩ := locate_eq_some.mp h
  have hi' : i < L.length := by simpa using hi
  simp only [readAt, h]
  rw [List.head?_take, if_neg hn.ne', List.head?_drop, List.getD_eq_getElem?_getD,
    List.getElem?_eq_getElem hi']
  rfl

theorem readAt_isPrefix (L : List (List α)) (p n : ℕ) : readAt L p n <+: L.flatten.drop p := by
  rcases Nat.lt_or_ge p L.flatten.length with h | h
  -- inside the text the segment's rest comes first
  · obtain ⟨i, o, hi, _, hr, hd⟩ := readAt_of_lt h n
    rw [hr, hd]
    exact (List.take_prefix _ _).trans (List.prefix_append _ _)
  · rw [readAt_of_length_le h]
    exact List.nil_prefix

theorem readAt_append_drop (L : List (List α)) (p n : ℕ) :
    readAt L p n ++ L.flatten.drop (p + (readAt L p n).length) = L.flatten.drop p := by
  obtain ⟨rest, hrest⟩ := readAt_isPrefix L p n
  rw [← List.drop_drop, ← hrest, List.drop_left]

theorem readAt_within {L : List (List α)} {p : ℕ} (h : p < L.flatten.length) (n : ℕ) :
    ∃ l ∈ L, readAt L p n <:+: l := by
  obtain ⟨i, o, hi, _, hr, _⟩ := readAt_of_lt h n
  refine ⟨L[i], List.getElem_mem hi, ?_⟩
  rw [hr]
  exact (List.take_prefix _ _).isInfix.trans (List.drop_suffix _ _).isInfix

theorem readAt_eq_nil {L : List (List α)} {p n : ℕ} (hn : 0 < n) :
    readAt L p n = [] ↔ L.flatten.length ≤ p := by
  constructor
  · intro h
    by_contra hlt
    obtain ⟨i, o, hi, ho, hr, _⟩ := readAt_of_lt (Nat.lt_of_not_le hlt) n
    rw [h] at hr
    have := congrArg List.length hr
    simp only [List.length_nil, List.length_take, List.length_drop] at this
    omega
  · intro h
    exact readAt_of_length_le h n

theorem readAt_start {L : List (List α)} {i : ℕ} (hi : i < L.length) (hne : L[i] ≠ []) (n : ℕ) :
    readAt L (L.take i).flatten.length n = L[i].take n := by
  have hlocate : locate (L.map List.length) (L.take i).flatten.length = some (i, 0) := by
    refine locate_eq_some.mpr ⟨by simpa using hi, ?_, ?_⟩
    · simpa using List.length_pos_iff.mpr hne
    · rw [← List.map_take, sum_map_length, Nat.add_zero]
  simp only [readAt, hlocate]
  rw [List.getD_eq_getElem?_getD, List.getElem?_eq_getElem hi, Option.getD_some, List.drop_zero]

/-- Reads one after the other, each from where the one before ended. -/
def readSeq (L : List (List α)) : ℕ → List ℕ → List (List α)
  | _, [] => []
  | p, n :: ns => readAt L p n :: readSeq L (p + (readAt L p n).length) ns

theorem readSeq_append_drop (L : List (List α)) (p : ℕ) (ns : List ℕ) :
    (readSeq L p ns).flatten ++ L.flatten.drop (p + (readSeq L p ns).flatten.length) =
      L.flatten.drop p := by
  induction ns generalizing p with
  | nil => simp [readSeq]
  | cons n ns ih =>
    have h := ih (p + (readAt L p n).length)
    simp only [readSeq, List.flatten_cons, List.append_assoc, List.length_append,
      ← Nat.add_assoc]
    rw [h, readAt_append_drop]

theorem readSeq_concat (L : List (List α)) (p : ℕ) (ns : List ℕ) (n : ℕ) :
    readSeq L p (ns ++ [n]) =
      readSeq L p ns ++ [readAt L (p + (readSeq L p ns).flatten.length) n] := by
  induction ns generalizing p with
  | nil => simp [readSeq]
  | cons m ns ih =>
    simp only [List.cons_append, readSeq, List.flatten_cons, List.length_append, ih, Nat.add_assoc]

/-- Reads that bring something are the same when later segments are there too. -/
theorem readAt_of_isPrefix {L L' : List (List α)} (h : L <+: L') {p : ℕ}
    (hp : p < L.flatten.length) (n : ℕ) : readAt L' p n = readAt L p n := by
  cases hl : locate (L.map List.length) p with
  | none =>
    rw [locate_eq_none, sum_map_length] at hl
    exact absurd hp (Nat.not_lt.mpr hl)
  | some io =>
    obtain ⟨i, o⟩ := io
    obtain ⟨hi, ho, hsum⟩ := locate_eq_some.mp hl
    obtain ⟨more, rfl⟩ := h
    have hl' : locate ((L ++ more).map List.length) p = some (i, o) := by
      refine locate_eq_some.mpr ⟨?_, ?_, ?_⟩
      · rw [List.map_append, List.length_append]
        omega
      · simpa only [List.map_append, List.getElem_append_left hi] using ho
      · rw [List.map_append, List.take_append_of_le_length hi.le, hsum]
    rw [List.length_map] at hi
    simp only [readAt, hl, hl']
    rw [List.getD_eq_getElem?_getD, List.getElem?_append_left hi, ← List.getD_eq_getElem?_getD]

theorem readSeq_of_isPrefix {L L' : List (List α)} (h : L <+: L') {p : ℕ} {ns : List ℕ}
    (hne : ∀ l ∈ readSeq L p ns, l ≠ []) : readSeq L' p ns = readSeq L p ns := by
  induction ns generalizing p with
  | nil => rfl
  | cons n ns ih =>
    rw [readSeq, List.forall_mem_cons] at hne
    have hp : p < L.flatten.length := by
      by_contra hge
      exact hne.1 (readAt_of_length_le (Nat.not_lt.mp hge) n)
    rw [readSeq, readSeq, readAt_of_isPrefix h hp, ih hne.2]

/-- Reads at least as large as every segment bring the segments, one each, and then nothing. -/
theorem readSeq_segments {L : List (List α)} {n : ℕ} (h : ∀ l ∈ L, l ≠ [] ∧ l.length ≤ n)
    (m i : ℕ) : readSeq L (L.take i).flatten.length (List.replicate m n) =
      (L.drop i).take m ++ List.replicate (m - (L.length - i)) [] := by
  induction m generalizing i with
  | zero => simp [readSeq]
  | succ m ih =>
    rw [List.replicate_succ, readSeq]
    rcases Nat.lt_or_ge i L.length with hi | hi
    · obtain ⟨hne, hle⟩ := h _ (List.getElem_mem hi)
      have hnext : (L.take i).flatten.length + L[i].length = (L.take (i + 1)).flatten.length := by
        rw [List.take_add_one, List.getElem?_eq_getElem hi, Option.toList_some,
          List.flatten_append, List.flatten_singleton, List.length_append]
      rw [readAt_start hi hne, List.take_of_length_le hle, hnext, ih,
        List.drop_eq_getElem_cons hi, List.take_succ_cons, List.cons_append]
      congr 3
      omega
    · have hall : L.take i = L.take (i + 1) := by
        rw [List.take_of_length_le hi, List.take_of_length_le (by omega)]
      have hnil : readAt L (L.take i).flatten.length n = [] := by
        apply readAt_of_length_le
        rw [List.take_of_length_le hi]
      rw [hnil, List.length_nil, Nat.add_zero, hall, ih, List.drop_of_length_le hi,
        List.drop_of_length_le (by omega), Nat.sub_eq_zero_of_le hi,
        Nat.sub_eq_zero_of_le (show L.length ≤ i + 1 by omega)]
      simp [List.replicate_succ]

/-- Such reads are the segments themselves when each brings something and together they bring
all. -/
theorem readSeq_eq_self {L : List (List α)} {n m : ℕ} (h : ∀ l ∈ L, l ≠ [] ∧ l.length ≤ n)
    (hne : ∀ l ∈ readSeq L 0 (List.replicate m n), l ≠ [])
    (hall : (readSeq L 0 (List.replicate m n)).flatten = L.flatten) :
    readSeq L 0 (List.replicate m n) = L := by
  have hreads : readSeq L 0 (List.replicate m n) = L.take m ++ List.replicate (m - L.length) [] :=
    readSeq_segments h m 0
  have hle : m ≤ L.length := by
    by_contra hlt
    apply hne []
    · rw [hreads, List.mem_append, List.mem_replicate]
      exact .inr ⟨by omega, rfl⟩
    · rfl
  rw [hreads, Nat.sub_eq_zero_of_le hle, List.replicate_zero, List.append_nil] at hall ⊢
  have hrest : (L.drop m).flatten = [] := by
    have hsplit := congrArg List.flatten (List.take_append_drop m L)
    rwa [List.flatten_append, ← hall, List.append_right_eq_self] at hsplit
  have hnone : L.drop m = [] := by
    rw [List.eq_nil_iff_forall_not_mem]
    intro l hl
    exact (h l (List.mem_of_mem_drop hl)).1 (List.flatten_eq_nil_iff.mp hrest l hl)
  rw [List.take_of_length_le (List.drop_eq_nil_iff.mp hnone)]

end Segments
