import Mathlib.Data.List.Nodup
import Mathlib.Logic.Function.Basic

/-!
# Singly linked lists in memory

A head pointer and the `next` field of every node that is allocated. An operation that
follows a null pointer, or touches a node that is not allocated, has no result.
-/

variable {A : Type*}

/-- `next a` is `none` where no node is allocated. -/
structure SList (A : Type*) where
  first : Option A
  next : A → Option (Option A)

namespace SList

/-- The nodes from a pointer on, up to a null pointer. -/
inductive Path (next : A → Option (Option A)) : Option A → List A → Prop
  | nil : Path next none []
  | cons {a : A} {p : Option A} {xs : List A} (h : next a = some p) (hrest : Path next p xs) :
    Path next (some a) (a :: xs)

def Holds (l : SList A) (xs : List A) : Prop := Path l.next l.first xs

section Path

variable {next next' : A → Option (Option A)} {p : Option A} {a : A} {xs : List A}

/-- A path looks at the fields of its own nodes only. -/
theorem Path.congr (h : Path next p xs) (heq : ∀ b ∈ xs, next' b = next b) : Path next' p xs := by
  induction h with
  | nil => exact .nil
  | cons hn _ ih =>
    refine .cons ((heq _ List.mem_cons_self).trans hn) (ih fun b hb => ?_)
    exact heq b (List.mem_cons_of_mem _ hb)

theorem Path.head?_eq (h : Path next p xs) : p = xs.head? := by
  cases h <;> rfl

theorem Path.allocated (h : Path next p xs) (ha : a ∈ xs) : next a ≠ none := by
  induction h with
  | nil => cases ha
  | cons hn _ ih =>
    rcases List.mem_cons.mp ha with rfl | ha
    · simp [hn]
    · exact ih ha

theorem Path.next_eq {before after : List A} (h : Path next p (before ++ a :: after)) :
    next a = some after.head? := by
  induction before generalizing p with
  | nil =>
    cases h with
    | cons hn hrest => rw [hn, hrest.head?_eq]
  | cons b before ih =>
    cases h with
    | cons _ hrest => exact ih hrest

theorem Path.tail (h : Path next p (a :: xs)) : Path next xs.head? xs := by
  cases h with
  | cons _ hrest => exact hrest.head?_eq ▸ hrest

variable [DecidableEq A]

theorem Path.update (h : Path next p xs) (ha : a ∉ xs) (field : Option (Option A)) :
    Path (Function.update next a field) p xs := by
  apply h.congr
  intro b hb
  rw [Function.update_of_ne]
  rintro rfl
  exact ha hb

/-- A node is left out of the path when the one in front of it points behind it. -/
theorem Path.skip {front after : List A} {c : A} (h : Path next p (front ++ c :: a :: after))
    (hfront : c ∉ front) (hafter : c ∉ after) :
    Path (Function.update next c (some after.head?)) p (front ++ c :: after) := by
  induction front generalizing p with
  | nil =>
    have htail := h.tail.tail
    cases h with
    | cons hn _ => exact .cons (Function.update_self ..) (htail.update hafter _)
  | cons b front ih =>
    rw [List.mem_cons, not_or] at hfront
    cases h with
    | cons hn hrest =>
      refine .cons ?_ (ih hrest hfront.2)
      rwa [Function.update_of_ne (Ne.symm hfront.1)]

end Path

variable [DecidableEq A] (l : SList A)

/-- `malloc`: the field of a fresh node holds anything. -/
def malloc (a : A) (junk : Option A) : SList A :=
  { l with next := Function.update l.next a (some junk) }

def free (a : A) : SList A := { l with next := Function.update l.next a none }

def insertHead (a : A) : Option (SList A) :=
  (l.next a).map fun _ => ⟨some a, Function.update l.next a (some l.first)⟩

def removeHead : Option (SList A) :=
  l.first.bind fun a => (l.next a).map fun p => { l with first := p }

/-- The element behind `a` is taken out. -/
def removeAfter (a : A) : Option (SList A) :=
  match l.next a with
  | some (some b) => (l.next b).map fun p => { l with next := Function.update l.next a (some p) }
  | _ => none

/-- The walk to the element in front of `elm`. -/
def before (next : A → Option (Option A)) (elm : A) : ℕ → Option A → Option A
  | 0, _ | _ + 1, none => none
  | fuel + 1, some cur =>
    match next cur with
    | none => none
    | some p => if p = some elm then some cur else before next elm fuel p

def remove (fuel : ℕ) (elm : A) : Option (SList A) :=
  if l.first = some elm then l.removeHead
  else (before l.next elm fuel l.first).bind l.removeAfter

section Holds

variable {l} {a : A} {xs : List A}

theorem Holds.malloc (h : l.Holds xs) (ha : a ∉ xs) (junk : Option A) :
    (l.malloc a junk).Holds xs := Path.update h ha _

theorem Holds.free (h : l.Holds xs) (ha : a ∉ xs) : (l.free a).Holds xs := Path.update h ha _

theorem Holds.insertHead (h : l.Holds xs) (ha : a ∉ xs) (halloc : l.next a ≠ none) :
    ∃ l', l.insertHead a = some l' ∧ l'.Holds (a :: xs) ∧
      ∀ b, l'.next b = none ↔ l.next b = none := by
  obtain ⟨junk, hjunk⟩ := Option.ne_none_iff_exists'.mp halloc
  refine ⟨⟨some a, Function.update l.next a (some l.first)⟩, by simp [SList.insertHead, hjunk],
    .cons (Function.update_self ..) (Path.update h ha _), fun b => ?_⟩
  · by_cases hb : b = a
    · subst hb
      simp [hjunk]
    · simp [hb]

/-- The walk ends at the element in front. -/
theorem before_eq {next : A → Option (Option A)} {p : Option A} {elm : A} {front : List A}
    {after : List A} (h : Path next p (front ++ a :: elm :: after))
    (hfront : elm ∉ front) (ha : a ≠ elm) {fuel : ℕ} (hfuel : front.length < fuel) :
    before next elm fuel p = some a := by
  induction front generalizing p fuel with
  | nil =>
    obtain ⟨fuel, rfl⟩ := Nat.exists_eq_succ_of_ne_zero (Nat.ne_zero_of_lt hfuel)
    have hnext := h.next_eq
    cases h with
    | cons hn hrest => simp [before, hnext]
  | cons b front ih =>
    obtain ⟨fuel, rfl⟩ := Nat.exists_eq_succ_of_ne_zero (Nat.ne_zero_of_lt hfuel)
    rw [List.mem_cons, not_or] at hfront
    cases h with
    | cons hn hrest =>
      rename_i p'
      have hp : p' ≠ some elm := by
        rw [hrest.head?_eq]
        cases front with
        | nil => simpa using ha
        | cons c front =>
          rw [List.mem_cons, not_or] at hfront
          simpa using Ne.symm hfront.2.1
      simp only [before, hn, if_neg hp]
      exact ih hrest hfront.2 (by simpa using hfuel)

theorem Holds.remove (h : l.Holds xs) (hnodup : xs.Nodup) (ha : a ∈ xs) {fuel : ℕ}
    (hfuel : xs.length ≤ fuel) :
    ∃ l', l.remove fuel a = some l' ∧ l'.Holds (xs.erase a) ∧
      ∀ b, l'.next b = none ↔ l.next b = none := by
  obtain ⟨front, after, rfl⟩ := List.append_of_mem ha
  have hnext : l.next a = some after.head? := Path.next_eq h
  rcases List.eq_nil_or_concat front with rfl | ⟨front, c, rfl⟩
  -- the first element
  · have hfirst : l.first = some a := Path.head?_eq h
    refine ⟨{ l with first := after.head? }, by simp [SList.remove, SList.removeHead, hfirst, hnext],
      ?_, fun _ => Iff.rfl⟩
    rw [List.nil_append, List.erase_cons_head]
    exact Path.tail h
  -- an element behind another one
  · rw [List.concat_eq_append, List.append_assoc, List.singleton_append] at h hnodup hfuel
    have hdisj := List.nodup_append.mp hnodup
    have hfront : a ∉ front := fun hm => hdisj.2.2 a hm a (by simp) rfl
    have hca : c ≠ a := by
      have hc := (List.nodup_cons.mp hdisj.2.1).1
      rintro rfl
      exact hc List.mem_cons_self
    have hc : c ∉ front ∧ c ∉ after := by
      refine ⟨fun hm => hdisj.2.2 c hm c List.mem_cons_self rfl, fun hm => ?_⟩
      exact (List.nodup_cons.mp hdisj.2.1).1 (List.mem_cons_of_mem _ hm)
    have hfirst : l.first ≠ some a := by
      rw [Path.head?_eq h]
      cases front with
      | nil => simpa using hca
      | cons b front =>
        rw [List.mem_cons, not_or] at hfront
        simpa using Ne.symm hfront.1
    have hlt : front.length < fuel := by
      rw [List.length_append, List.length_cons] at hfuel
      omega
    have hwalk := before_eq h hfront hca hlt
    have hcnext : l.next c = some (some a) := Path.next_eq h
    refine ⟨{ l with next := Function.update l.next c (some after.head?) }, ?_, ?_, fun b => ?_⟩
    · simp [SList.remove, hfirst, hwalk, SList.removeAfter, hcnext, hnext]
    · rw [List.concat_eq_append, List.append_assoc, List.singleton_append,
        List.erase_append_right _ hfront, List.erase_cons_tail (by simpa using hca),
        List.erase_cons_head]
      exact Path.skip h hc.1 hc.2
    · by_cases hb : b = c
      · subst hb
        simp [hcnext]
      · simp [hb]

end Holds

end SList
