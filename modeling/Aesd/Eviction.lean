import Aesd.CircularBuffer
import Aesd.Lib.BoundedQueue
import Mathlib.Data.List.ReduceOption

/-!
# What `add_entry` hands back

Any number of calls on a buffer fresh from `aesd_circular_buffer_init`, against a queue of
ten entries.
-/

namespace Aesd.AesdCircularBuffer
open RingWalk StepRuns BoundedQueue

/-- The pointer of an entry that falls out of the queue; NULL when none does. -/
def evictedPointer (out : Option AesdBufferEntry) : Option BlockId := out.bind (·.buffptr)

/-- One call is a push to the queue of active entries, which hands back its oldest entry. -/
theorem addEntry_push {buffer : AesdCircularBuffer} (h : buffer.WellFormed) (e : AesdBufferEntry) :
    (buffer.addEntry e).1 = evictedPointer (push 10 buffer.active e).1 ∧
      (buffer.addEntry e).2.active = (push 10 buffer.active e).2 := by
  have hlen : buffer.active.length = buffer.count := active_length buffer
  refine ⟨?_, ?_⟩
  · rw [addEntry_fst h]
    split_ifs with hfull
    · have hten : buffer.active.length = 10 := hlen.trans (full_iff_count.mp hfull)
      have hne : buffer.active ≠ [] := List.ne_nil_of_length_eq_add_one hten
      rw [push_of_length hten, List.head?_append_of_ne_nil _ hne]
      rfl
    · have hlt : buffer.active.length < 10 := hlen.trans_lt (count_lt_of_not_full hfull)
      rw [push_of_lt hlt]
      rfl
  · rw [(addEntry_spec h e).2, push_snd (hlen.trans_le buffer.count_le)]

section Run

variable (entries : List AesdBufferEntry)

theorem addEntry_run :
    replies addEntry init entries =
        (replies (push 10) [] entries).map evictedPointer ∧
      (exec addEntry init entries).WellFormed ∧
      (exec addEntry init entries).active = exec (push 10) [] entries := by
  have hvalid : Valid addEntry (fun _ _ => True) init entries := valid_of_forall (fun _ _ => trivial) _ _
  refine run_of_refines evictedPointer
    (fun (buffer : AesdCircularBuffer) queue => buffer.WellFormed ∧ buffer.active = queue) ?_
    ⟨wellFormed_init, active_init⟩ hvalid
  rintro buffer _ e ⟨h, rfl⟩ _
  obtain ⟨hptr, hactive⟩ := addEntry_push h e
  exact ⟨hptr, (addEntry_spec h e).1, hactive⟩

theorem wellFormed_exec : (exec addEntry init entries).WellFormed := (addEntry_run entries).2.1

theorem active_exec : (exec addEntry init entries).active = entries.rtake 10 := by
  rw [(addEntry_run entries).2.2, exec_push]

theorem count_exec : (exec addEntry init entries).count = min entries.length 10 := by
  rw [← active_length, active_exec, List.rtake, List.length_drop]
  omega

theorem replies_addEntry : replies addEntry init entries =
    List.replicate (min entries.length 10) none ++
      (entries.take (entries.length - 10)).map (·.buffptr) := by
  rw [(addEntry_run entries).1, replies_push, List.map_append, List.map_replicate, List.map_map]
  rfl

theorem inOffs_exec : (exec addEntry init entries).inOffs = entries.length % 10 := by
  induction entries using List.reverseRecOn with
  | nil => rfl
  | append_singleton entries e ih =>
    rw [exec_concat, List.length_append, List.length_singleton]
    change ((exec addEntry init entries).inOffs + 1) % 10 = _
    rw [ih, Nat.mod_add_mod]

/-- The oldest active entry was added as number `n - 10`, or it is the first. -/
theorem outOffs_exec : (exec addEntry init entries).outOffs = (entries.length - 10) % 10 := by
  have hin := (wellFormed_exec entries).inOffs_eq
  have hout := (wellFormed_exec entries).outOffs_lt
  rw [inOffs_exec, count_exec] at hin
  omega

/-- An entry stays in the slot of its number until the tenth call behind it. -/
theorem slot_exec {i : ℕ} (hi : i < entries.length) (hlast : entries.length ≤ i + 10) :
    (exec addEntry init entries).slot (i % 10) = entries[i] := by
  have hlt : i - (entries.length - 10) < (exec addEntry init entries).active.length := by
    rw [active_length, count_exec]
    omega
  have hget : (exec addEntry init entries).active[i - (entries.length - 10)] =
      (exec addEntry init entries).slot
        (((exec addEntry init entries).outOffs + (i - (entries.length - 10))) % 10) :=
    getElem_walk _ _ _ _ hlt
  have hoffset : ((entries.length - 10) % 10 + (i - (entries.length - 10))) % 10 = i % 10 := by omega
  rw [outOffs_exec, hoffset] at hget
  rw [← hget]
  simp only [active_exec, List.rtake, List.getElem_drop]
  congr 1
  omega

end Run

/-- The pointers in the ten slots. -/
def pointers (buffer : AesdCircularBuffer) : List (Option BlockId) :=
  (List.range maxWriteOperationsSupported).map fun i => (buffer.slot i).buffptr

/-- The pointers handed back and those in the slots are the pointers added. -/
theorem returned_append_pointers (entries : List AesdBufferEntry) :
    (replies addEntry init entries ++ (exec addEntry init entries).pointers).reduceOption.Perm
      (entries.map (·.buffptr)).reduceOption := by
  have hslots : (exec addEntry init entries).pointers.reduceOption.Perm
      ((entries.drop (entries.length - 10)).map (·.buffptr)).reduceOption := by
    have hperm := ((wellFormed_exec entries).slots_perm.map (·.buffptr)).filterMap id
    rw [List.map_map, List.map_append, List.map_replicate, active_exec] at hperm
    change (exec addEntry init entries).pointers.reduceOption.Perm (List.reduceOption
      ((entries.drop (entries.length - 10)).map (·.buffptr) ++ List.replicate _ none)) at hperm
    rwa [List.reduceOption_append, List.reduceOption_replicate_none, List.append_nil] at hperm
  have hsplit : entries.map (·.buffptr) = (entries.take (entries.length - 10)).map (·.buffptr) ++
      (entries.drop (entries.length - 10)).map (·.buffptr) := by
    rw [← List.map_append, List.take_append_drop]
  rw [replies_addEntry, hsplit, List.append_assoc, List.reduceOption_append,
    List.reduceOption_replicate_none, List.nil_append, List.reduceOption_append,
    List.reduceOption_append]
  exact hslots.append_left _

/-- **Handed back once.** After any number of calls the ring holds the last ten entries, each
in the slot of its number, and all other slots are zero. The first ten calls return NULL and
each call behind them the pointer added ten calls before, so that the pointers returned and
those in the slots are together the pointers added, each as often as it was added. -/
theorem addEntry_hands_back (entries : List AesdBufferEntry) :
    let buffer := exec addEntry init entries
    let returned := replies addEntry init entries
    (buffer.inOffs < 10 ∧ buffer.outOffs < 10) ∧
    (buffer.full = true ↔ 10 ≤ entries.length) ∧
    returned = List.replicate (min entries.length 10) none ++
      (entries.take (entries.length - 10)).map (·.buffptr) ∧
    (∀ i, buffer.count ≤ i → i < 10 → buffer.slot ((buffer.outOffs + i) % 10) = .zero) ∧
    buffer.active = entries.rtake 10 ∧
    (∀ i (hi : i < entries.length),
      if entries.length ≤ i + 10 then buffer.slot (i % 10) = entries[i]
      else returned[i + 10]? = some entries[i].buffptr) ∧
    (returned ++ buffer.pointers).reduceOption.Perm (entries.map (·.buffptr)).reduceOption := by
  intro buffer returned
  have h : buffer.WellFormed := wellFormed_exec entries
  have hreturned : returned = _ := replies_addEntry entries
  refine ⟨⟨h.inOffs_lt, h.outOffs_lt⟩, ?_, hreturned, h.inactive, active_exec entries, ?_,
    returned_append_pointers entries⟩
  · have hcount : buffer.count = min entries.length 10 := count_exec entries
    rw [full_iff_count, hcount]
    omega
  · intro i hi
    split_ifs with hlast
    · exact slot_exec entries hi hlast
    · -- ten calls returned NULL, and call number `i + 10` is the `i`-th behind them
      have hten : min entries.length 10 = 10 := by omega
      have hlt : i < entries.length - 10 := by omega
      rw [hreturned, hten, List.getElem?_append_right (by simp), List.length_replicate,
        Nat.add_sub_cancel, List.getElem?_map, List.getElem?_take_of_lt hlt,
        List.getElem?_eq_getElem hi]
      rfl

/-- Of eleven entries the first is handed back. -/
example : replies addEntry init ((List.range 11).map fun n => ⟨some n, 1⟩) =
    List.replicate 10 none ++ [some 0] := by
  decide

end Aesd.AesdCircularBuffer
