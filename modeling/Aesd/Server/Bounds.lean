import Aesd.Server.Receive

/-!
# The bounds of packet assembly

Every `realloc` and `strncat` of the receive loop, with the sizes that they must keep to.
-/

namespace Aesd.Server
open CString

/-- One `realloc` of `buffer` to `size` bytes and the `strncat` behind it, which takes `size`
bytes of `buff` at most. -/
structure Append where
  buffer : Region
  size : ℕ
  buff : Region

/-- The string and its terminator survive the `realloc`, they and the appended bytes fit in
the block, and `strncat` finds a zero byte before it leaves `buff`. -/
def Append.InBounds (a : Append) : Prop :=
  ∃ str, string a.buffer = some str ∧ str.length + 1 ≤ a.size ∧
    str.length + ((a.buff.take a.size).takeWhile (· ≠ 0)).length + 1 ≤ a.size ∧
    (a.buff.length < a.size → 0 ∈ a.buff)

def appendOf (buffer : Region) (bytes : List UInt8) : Append :=
  ⟨buffer, (findNewline (received bytes)).1 + 1, received bytes⟩

/-- The appends of the loop over these chunks. One that leaves its buffers is the last. -/
def appends : Region → List (List UInt8 × (ℕ → UInt8)) → List Append
  | _, [] => []
  | buffer, (bytes, junk) :: rest =>
    match receiveOnce buffer junk (.data bytes) with
    | .next buffer' => appendOf buffer bytes :: appends buffer' rest
    | _ => [appendOf buffer bytes]

section Bounds

variable {buffer : Region} {str bytes : List UInt8} {junk : ℕ → UInt8}

theorem inBounds_iff (h : Chunk bytes) (hb : string buffer = some str) :
    (appendOf buffer bytes).InBounds ↔
      Fits str bytes ((findNewline (received bytes)).1 + 1) := by
  unfold Append.InBounds Fits
  simp only [appendOf, take_received h, received_length h.length_le, zero_mem_received h]
  constructor
  · rintro ⟨str', hb', _, hlt, hread⟩
    obtain rfl := Option.some.inj (hb.symm.trans hb')
    exact ⟨hread, by omega⟩
  · rintro ⟨hread, hlt⟩
    exact ⟨str, hb, by omega, by omega, hread⟩

theorem appends_framed (hb : string buffer = some str) (hs : str.length ≤ bufferSize)
    (results : List (List UInt8 × (ℕ → UInt8))) (h : ∀ r ∈ results, Chunk r.1) :
    (∀ a ∈ appends buffer results, a.InBounds) ↔ Framed str (results.map Prod.fst) := by
  induction results generalizing buffer str with
  | nil => simp [appends, Framed, hs]
  | cons r results ih =>
    obtain ⟨chunk, junk⟩ := r
    have hc : Chunk chunk := h _ List.mem_cons_self
    have hrest : ∀ r ∈ results, Chunk r.1 := fun r hr => h r (List.mem_cons_of_mem _ hr)
    rw [List.map_cons]
    by_cases hn : newline ∈ chunk
    · -- the last append, whether it ends well or not
      obtain ⟨a, b, rfl, ha⟩ := List.eq_append_cons_of_mem hn
      have honly : appends buffer ((a ++ newline :: b, junk) :: results) =
          [appendOf buffer (a ++ newline :: b)] := by
        rcases receiveOnce_of_mem junk hc hb ha with ⟨_, _, _, m, hm, _⟩ | ⟨_, hfault⟩
        · simp only [appends, hm]
        · simp only [appends, hfault]
      rw [honly, List.forall_mem_singleton, inBounds_iff hc hb, findNewline_of_mem ha,
        framed_cons_of_mem ha]
      exact fits_of_mem hc
    · have hfits : (appendOf buffer chunk).InBounds ↔
          chunk.length < bufferSize ∧ str.length + chunk.length ≤ bufferSize := by
        rw [inBounds_iff hc hb, findNewline_of_notMem hn]
        exact fits_of_notMem hc
      rw [framed_cons_of_notMem hc.ne_nil hn]
      rcases receiveOnce_of_notMem junk hc hb hn with ⟨hlt, hle, m, hm, hm'⟩ | ⟨hno, hfault⟩
      · have hnext := ih hm' (by rw [List.length_append]; exact hle) hrest
        simp only [appends, hm]
        rw [List.forall_mem_cons, hfits, hnext]
      · simp only [appends, hfault]
        rw [List.forall_mem_singleton, hfits]
        simp only [hno, false_and]

end Bounds

/-- **Assembly in bounds.** Every append of the receive loop keeps to its buffers if and only
if the first chunk ends with the only newline of its own, or there is no newline and the
chunks fit in one buffer together; in both cases no chunk fills `buff`. -/
theorem appends_inBounds_iff (results : List (List UInt8 × (ℕ → UInt8)))
    (h : ∀ r ∈ results, Chunk r.1) :
    (∀ a ∈ appends emptyBuffer results, a.InBounds) ↔
      (∃ packet rest, results.map Prod.fst = (packet ++ [newline]) :: rest ∧ newline ∉ packet ∧
        packet.length + 1 < bufferSize) ∨
      (newline ∉ (results.map Prod.fst).flatten ∧
        (∀ chunk ∈ results.map Prod.fst, chunk.length < bufferSize) ∧
        (results.map Prod.fst).flatten.length ≤ bufferSize) := by
  have hloop := appends_framed string_emptyBuffer (Nat.zero_le _) results h
  simpa [Framed] using hloop

theorem appends_inBounds_iff_split :
    (appends emptyBuffer [([97], fun _ => 170), ([98], fun _ => 170)]).Forall Append.InBounds := by
  rw [List.forall_iff_forall_mem]
  refine (appends_inBounds_iff [([97], fun _ => 170), ([98], fun _ => 170)] ?_).mpr
    (.inr ⟨by decide, by decide, by decide⟩)
  intro r hr
  simp only [List.mem_cons, List.not_mem_nil, or_false] at hr
  rcases hr with rfl | rfl <;> exact ⟨by decide, by decide, by decide⟩

/-- The newline comes alone behind two bytes: `buffer` shrinks to two bytes, which cuts the
terminator off. -/
theorem split_line_out_of_bounds :
    ¬ ∀ results : List (List UInt8 × (ℕ → UInt8)), (∀ r ∈ results, Chunk r.1) →
      ∀ a ∈ appends emptyBuffer results, a.InBounds := by
  intro h
  have hchunks : ∀ r ∈ [([97, 98], fun _ => 0), ([newline], fun _ => 0)],
      Chunk (Prod.fst (r : List UInt8 × (ℕ → UInt8))) := by
    intro r hr
    simp only [List.mem_cons, List.not_mem_nil, or_false] at hr
    rcases hr with rfl | rfl <;> exact ⟨by decide, by decide, by decide⟩
  -- neither way of being framed is open: the newline comes second, and it comes
  have hframed := (appends_framed string_emptyBuffer (Nat.zero_le _) _ hchunks).mp (h _ hchunks)
  rcases hframed with ⟨_, packet, rest, hfirst, _⟩ | ⟨hnewline, _⟩
  · have hlast := congrArg List.getLast? (List.cons.inj hfirst).1
    rw [List.getLast?_concat] at hlast
    revert hlast
    decide
  · exact hnewline (by decide)

end Aesd.Server
