import Aesd.Lib.CString
import Aesd.Device
import Mathlib.Data.List.Flatten

/-!
# Receiving a packet

The receive loop of `thread_func`: each `recv` fills `buff`, the loop looks for a
newline, reallocates `buffer` and appends.
-/

namespace Aesd.Server
open CString

def bufferSize : ℕ := 1024

/-- What `recv` answers. -/
inductive Recv where
  | data (bytes : List UInt8)
  | closed
  | failed

inductive Iteration where
  | next (buffer : Region)
  | done (buffer : Region)
  | exit
  | fault

def emptyBuffer : Region := List.replicate bufferSize 0

/-- `buff` after a `recv`; it was all zeros before. -/
def received (bytes : List UInt8) : Region := bytes ++ List.replicate (bufferSize - bytes.length) 0

/-- The search for the newline: `extended_index`, and whether the packet is complete. -/
def findNewline (buff : Region) : ℕ × Bool :=
  match buff.findIdx? (· = newline) with
  | some index => (index + 1, true)
  | none => (bufferSize, false)

/-- One iteration. `junk` is what a larger block holds in its new bytes. -/
def receiveOnce (buffer : Region) (junk : ℕ → UInt8) : Recv → Iteration
  | .failed => .exit
  | .closed => .done buffer
  | .data bytes =>
    let buff := received bytes
    let (extendedIndex, isPacketComplete) := findNewline buff
    match strncat (realloc buffer (extendedIndex + 1) junk) buff (extendedIndex + 1) with
    | none => .fault
    | some buffer => if isPacketComplete then .done buffer else .next buffer

/-- The loop, over the answers of `recv`. It may be left waiting for one more. -/
def receiveLoop : Region → List (Recv × (ℕ → UInt8)) → Iteration
  | buffer, [] => .next buffer
  | buffer, (recv, junk) :: rest =>
    match receiveOnce buffer junk recv with
    | .next buffer => receiveLoop buffer rest
    | outcome => outcome

theorem receiveLoop_of_fault {buffer : Region} {junk : ℕ → UInt8} {recv : Recv}
    (h : receiveOnce buffer junk recv = .fault) (rest : List (Recv × (ℕ → UInt8))) :
    receiveLoop buffer ((recv, junk) :: rest) = .fault := by
  rw [receiveLoop, h]

/-- What a client can make `recv` deliver without a zero byte. -/
structure Chunk (bytes : List UInt8) : Prop where
  ne_nil : bytes ≠ []
  length_le : bytes.length ≤ bufferSize
  notMem : 0 ∉ bytes

section Iteration

variable {buffer : Region} {str bytes : List UInt8} (junk : ℕ → UInt8)

theorem received_length (h : bytes.length ≤ bufferSize) : (received bytes).length = bufferSize := by
  simp [received]
  omega

theorem zero_mem_received (h : Chunk bytes) : 0 ∈ received bytes ↔ bytes.length < bufferSize := by
  simp only [received, List.mem_append, h.notMem, List.mem_replicate, and_true, false_or]
  omega

theorem take_received (h : Chunk bytes) (n : ℕ) :
    ((received bytes).take n).takeWhile (· ≠ 0) = bytes.take n := by
  have hne : ∀ b ∈ bytes.take n, decide (b ≠ 0) = true := by
    intro b hb
    rw [decide_eq_true_eq]
    rintro rfl
    exact h.notMem (List.mem_of_mem_take hb)
  rw [received, List.take_append, List.takeWhile_append_of_pos hne, List.take_replicate]
  cases min (n - bytes.length) (bufferSize - bytes.length) <;> simp [List.replicate_succ]

/-- `strncat` of at most `n` bytes stays in a block of `n` bytes that holds `str`. -/
def Fits (str bytes : List UInt8) (n : ℕ) : Prop :=
  (bufferSize < n → bytes.length < bufferSize) ∧ str.length + (bytes.take n).length < n

theorem strncat_received (h : Chunk bytes) (hb : string buffer = some str) {n : ℕ}
    (hfits : Fits str bytes n) :
    ∃ m, strncat (realloc buffer n junk) (received bytes) n = some m ∧
      string m = some (str ++ bytes.take n) := by
  have hs : string (realloc buffer n junk) = some str :=
    string_realloc hb (by have := hfits.2; omega) junk
  have hne : strncat (realloc buffer n junk) (received bytes) n ≠ none := by
    rw [Ne, strncat_eq_none hs, zero_mem_received h, received_length h.length_le, realloc_length,
      take_received h, not_or, not_and, not_not]
    exact ⟨hfits.1, by have := hfits.2; omega⟩
  obtain ⟨m, hm⟩ := Option.ne_none_iff_exists'.mp hne
  refine ⟨m, hm, ?_⟩
  rw [← take_received h]
  exact (string_strncat hs hm).1

theorem strncat_received_eq_none (h : Chunk bytes) (hb : string buffer = some str) {n : ℕ}
    (hfits : ¬ Fits str bytes n) : strncat (realloc buffer n junk) (received bytes) n = none := by
  rcases Nat.lt_or_ge str.length n with hlt | hge
  · have hs := string_realloc hb hlt junk
    rw [strncat_eq_none hs, zero_mem_received h, received_length h.length_le, realloc_length,
      take_received h]
    by_contra hno
    obtain ⟨hread, hwrite⟩ := not_or.mp hno
    exact hfits ⟨fun hn => not_not.mp fun hl => hread ⟨hn, hl⟩, by omega⟩
  · rw [strncat, string_realloc_eq_none hb hge]

theorem findIdx_of_notMem {l : List UInt8} (h : newline ∉ l) :
    l.findIdx? (· = newline) = none := by
  rw [List.findIdx?_eq_none_iff]
  intro b hb
  rw [decide_eq_false_iff_not]
  rintro rfl
  exact h hb

theorem findNewline_of_notMem (hn : newline ∉ bytes) :
    findNewline (received bytes) = (bufferSize, false) := by
  rw [findNewline, findIdx_of_notMem]
  rw [received, List.mem_append, List.mem_replicate]
  exact fun hm => hm.elim hn fun h0 => absurd h0.2 (by decide)

theorem findNewline_of_mem {a : List UInt8} (ha : newline ∉ a) (b : List UInt8) :
    findNewline (received (a ++ newline :: b)) = (a.length + 1, true) := by
  rw [findNewline, received, List.append_assoc, List.cons_append, List.findIdx?_append,
    findIdx_of_notMem ha, List.findIdx?_cons]
  simp

/-- Without a newline `extended_index` is 1024, so `strncat` may read one byte behind `buff`. -/
theorem take_chunk (h : Chunk bytes) : bytes.take (bufferSize + 1) = bytes :=
  List.take_of_length_le (by have := h.length_le; omega)

theorem fits_of_notMem (h : Chunk bytes) : Fits str bytes (bufferSize + 1) ↔
    bytes.length < bufferSize ∧ str.length + bytes.length ≤ bufferSize := by
  rw [Fits, take_chunk h]
  simp only [Nat.lt_succ_self, true_implies]
  omega

/-- The block has one byte more than the line, and `strncat` takes one byte more of the chunk. -/
theorem fits_of_mem {a b : List UInt8} (h : Chunk (a ++ newline :: b)) :
    Fits str (a ++ newline :: b) (a.length + 2) ↔
      str = [] ∧ b = [] ∧ a.length + 1 < bufferSize := by
  have hlen := h.length_le
  simp only [List.length_append, List.length_cons] at hlen
  have htake : ((a ++ newline :: b).take (a.length + 2)).length = a.length + 1 + min 1 b.length := by
    simp only [List.length_take, List.length_append, List.length_cons]
    omega
  rw [Fits, htake, ← List.length_eq_zero_iff, ← List.length_eq_zero_iff, List.length_append,
    List.length_cons]
  omega

theorem receiveOnce_of_notMem (h : Chunk bytes) (hb : string buffer = some str)
    (hn : newline ∉ bytes) :
    (bytes.length < bufferSize ∧ str.length + bytes.length ≤ bufferSize ∧
      ∃ m, receiveOnce buffer junk (.data bytes) = .next m ∧ string m = some (str ++ bytes)) ∨
    (¬ (bytes.length < bufferSize ∧ str.length + bytes.length ≤ bufferSize) ∧
      receiveOnce buffer junk (.data bytes) = .fault) := by
  have hfind := findNewline_of_notMem hn
  by_cases hf : Fits str bytes (bufferSize + 1)
  · obtain ⟨m, hm, hstr⟩ := strncat_received junk h hb hf
    rw [take_chunk h] at hstr
    obtain ⟨hlt, hle⟩ := (fits_of_notMem h).mp hf
    refine .inl ⟨hlt, hle, m, ?_, hstr⟩
    simp only [receiveOnce, hfind, hm, Bool.false_eq_true, if_false]
  · refine .inr ⟨fun hc => hf ((fits_of_notMem h).mpr hc), ?_⟩
    simp only [receiveOnce, hfind, strncat_received_eq_none junk h hb hf]

/-- With a newline the loop ends well only if nothing was there before and nothing follows. -/
theorem receiveOnce_of_mem {a b : List UInt8} (h : Chunk (a ++ newline :: b))
    (hb : string buffer = some str) (ha : newline ∉ a) :
    (str = [] ∧ b = [] ∧ a.length + 1 < bufferSize ∧
      ∃ m, receiveOnce buffer junk (.data (a ++ newline :: b)) = .done m ∧
        string m = some (a ++ [newline])) ∨
    (¬ (str = [] ∧ b = [] ∧ a.length + 1 < bufferSize) ∧
      receiveOnce buffer junk (.data (a ++ newline :: b)) = .fault) := by
  have hfind := findNewline_of_mem ha b
  by_cases hf : Fits str (a ++ newline :: b) (a.length + 2)
  · obtain ⟨m, hm, hstr⟩ := strncat_received junk h hb hf
    obtain ⟨rfl, rfl, hlt⟩ := (fits_of_mem h).mp hf
    rw [List.nil_append, List.take_of_length_le (by simp)] at hstr
    refine .inl ⟨rfl, rfl, hlt, m, ?_, hstr⟩
    simp only [receiveOnce, hfind, hm, if_true]
  · refine .inr ⟨fun hc => hf ((fits_of_mem h).mpr hc), ?_⟩
    simp only [receiveOnce, hfind, strncat_received_eq_none junk h hb hf]

end Iteration

/-- The packet a stream begins with: up to the first newline, or all of it. -/
def packetOf (stream : List UInt8) : List UInt8 :=
  match stream.findIdx? (· = newline) with
  | some i => stream.take (i + 1)
  | none => stream

theorem packetOf_of_notMem {a : List UInt8} (ha : newline ∉ a) (b : List UInt8) :
    packetOf (a ++ b) = a ++ packetOf b := by
  rw [packetOf, List.findIdx?_append, findIdx_of_notMem ha, packetOf]
  cases b.findIdx? (· = newline) with
  | none => rfl
  | some i =>
    simp only [Option.map_some, Option.none_or]
    rw [Nat.add_right_comm, Nat.add_comm, List.take_length_add_append]

theorem packetOf_newline (b : List UInt8) : packetOf (newline :: b) = [newline] := by
  simp [packetOf, List.findIdx?_cons]

def answers (results : List (List UInt8 × (ℕ → UInt8))) (junk : ℕ → UInt8) :
    List (Recv × (ℕ → UInt8)) :=
  results.map (fun r => (.data r.1, r.2)) ++ [(.closed, junk)]

/-- The loop ends with `str` and the packet of these chunks behind it. -/
def Assembles (buffer : Region) (str : List UInt8) (results : List (List UInt8 × (ℕ → UInt8)))
    (junk : ℕ → UInt8) : Prop :=
  ∃ m, receiveLoop buffer (answers results junk) = .done m ∧
    string m = some (str ++ packetOf (results.map Prod.fst).flatten)

/-- The loop copes with: one chunk that ends with the only newline, or chunks without a
newline that fit in one buffer together; in both cases no chunk fills `buff`. -/
def Framed (str : List UInt8) (chunks : List (List UInt8)) : Prop :=
  (str = [] ∧ ∃ packet rest, chunks = (packet ++ [newline]) :: rest ∧ newline ∉ packet ∧
      packet.length + 1 < bufferSize) ∨
    (newline ∉ chunks.flatten ∧ (∀ chunk ∈ chunks, chunk.length < bufferSize) ∧
      str.length + chunks.flatten.length ≤ bufferSize)

theorem framed_cons_of_notMem {str chunk : List UInt8} {chunks : List (List UInt8)}
    (hne : chunk ≠ []) (hn : newline ∉ chunk) :
    Framed str (chunk :: chunks) ↔
      (chunk.length < bufferSize ∧ str.length + chunk.length ≤ bufferSize) ∧
      Framed (str ++ chunk) chunks := by
  unfold Framed
  constructor
  · rintro (⟨rfl, packet, rest, heq, _⟩ | ⟨hnl, hlt, hle⟩)
    · obtain ⟨rfl, rfl⟩ := List.cons.inj heq
      exact absurd (by simp) hn
    · simp only [List.flatten_cons, List.mem_append, not_or, List.length_append] at hnl hle
      refine ⟨⟨hlt _ List.mem_cons_self, by omega⟩, .inr ⟨hnl.2, fun c hc => hlt c (by simp [hc]), ?_⟩⟩
      rw [List.length_append]
      omega
  · rintro ⟨⟨hlt, _⟩, ⟨hnil, _⟩ | ⟨hnl, hall, hle⟩⟩
    · exact absurd (List.append_eq_nil_iff.mp hnil).2 hne
    · refine .inr ⟨?_, ?_, ?_⟩
      · simp [hn, hnl]
      · intro c hc
        rcases List.mem_cons.mp hc with rfl | hc
        · exact hlt
        · exact hall c hc
      · simp only [List.flatten_cons, List.length_append] at hle ⊢
        omega

theorem framed_cons_of_mem {str a b : List UInt8} {chunks : List (List UInt8)} (ha : newline ∉ a) :
    Framed str ((a ++ newline :: b) :: chunks) ↔
      str = [] ∧ b = [] ∧ a.length + 1 < bufferSize := by
  unfold Framed
  constructor
  · rintro (⟨rfl, packet, rest, heq, hp, hlt⟩ | ⟨hnl, _⟩)
    -- both cuts are at the first newline of the chunk
    · obtain ⟨hchunk, rfl⟩ := List.cons.inj heq
      have hpacket := congrArg packetOf hchunk
      rw [packetOf_of_notMem ha, packetOf_of_notMem hp, packetOf_newline, packetOf_newline] at hpacket
      obtain rfl : a = packet := List.append_cancel_right hpacket
      exact ⟨rfl, (List.cons.inj (List.append_cancel_left hchunk)).2, hlt⟩
    · exact absurd (by simp) hnl
  · rintro ⟨rfl, rfl, hlt⟩
    exact .inl ⟨rfl, a, chunks, rfl, ha, hlt⟩

theorem receiveLoop_assembles {buffer : Region} {str : List UInt8} (hb : string buffer = some str)
    (hs : str.length ≤ bufferSize) (results : List (List UInt8 × (ℕ → UInt8))) (junk : ℕ → UInt8)
    (h : ∀ r ∈ results, Chunk r.1) :
    Assembles buffer str results junk ↔ Framed str (results.map Prod.fst) := by
  induction results generalizing buffer str with
  | nil => simp [Assembles, answers, receiveLoop, receiveOnce, hb, packetOf, Framed, hs]
  | cons r results ih =>
    obtain ⟨chunk, junk'⟩ := r
    have hc : Chunk chunk := h _ List.mem_cons_self
    have hrest : ∀ r ∈ results, Chunk r.1 := fun r hr => h r (List.mem_cons_of_mem _ hr)
    unfold Assembles
    simp only [answers, List.map_cons, List.cons_append, receiveLoop, List.flatten_cons]
    by_cases hn : newline ∈ chunk
    -- a newline ends the loop, in this iteration or in a fault
    · obtain ⟨a, b, rfl, ha⟩ := List.eq_append_cons_of_mem hn
      rw [framed_cons_of_mem ha]
      rcases receiveOnce_of_mem junk' hc hb ha with
        ⟨hstr, hb', hlt, m, hm, hm'⟩ | ⟨hno, hfault⟩
      · subst hstr hb'
        simp [hm, hm', packetOf_of_notMem ha, packetOf_newline, hlt]
      · simp [hfault, hno]
    · rw [framed_cons_of_notMem hc.ne_nil hn]
      rcases receiveOnce_of_notMem junk' hc hb hn with ⟨hlt, hle, m, hm, hm'⟩ | ⟨hno, hfault⟩
      · have hnext := ih hm' (by rw [List.length_append]; exact hle) hrest
        rw [← hnext, packetOf_of_notMem hn, ← List.append_assoc]
        simp [hm, hlt, hle, Assembles, answers]
      · simp [hfault, hno]

theorem string_emptyBuffer : string emptyBuffer = some [] :=
  string_append List.not_mem_nil (List.replicate 1023 0)

/-- **Framing.** The string assembled from a client's chunks is its packet exactly when the
loop copes with how the stream was cut. -/
theorem receiveLoop_framed_iff (results : List (List UInt8 × (ℕ → UInt8))) (junk : ℕ → UInt8)
    (h : ∀ r ∈ results, Chunk r.1) :
    (∃ buffer, receiveLoop emptyBuffer (answers results junk) = .done buffer ∧
      string buffer = some (packetOf (results.map Prod.fst).flatten)) ↔
    (∃ packet rest, results.map Prod.fst = (packet ++ [newline]) :: rest ∧ newline ∉ packet ∧
      packet.length + 1 < bufferSize) ∨
    (newline ∉ (results.map Prod.fst).flatten ∧
      (∀ chunk ∈ results.map Prod.fst, chunk.length < bufferSize) ∧
      (results.map Prod.fst).flatten.length ≤ bufferSize) := by
  have hloop := receiveLoop_assembles string_emptyBuffer (Nat.zero_le _) results junk h
  simpa [Assembles, Framed] using hloop

theorem receiveLoop_framed_iff_twoChunks :
    ∃ buffer,
      receiveLoop emptyBuffer
        (answers [([97], fun _ => 170), ([98, 99], fun _ => 170)] fun _ => 170) = .done buffer ∧
      string buffer = some [97, 98, 99] :=
  (receiveLoop_framed_iff [([97], fun _ => 170), ([98, 99], fun _ => 170)] (fun _ => 170)
    (by
      intro r hr
      rcases List.mem_pair.mp hr with rfl | rfl
      · exact ⟨by decide, by decide, by decide⟩
      · exact ⟨by decide, by decide, by decide⟩)).mpr (.inr ⟨by decide, by decide, by decide⟩)

/-- One byte behind the newline, in the same `recv`. -/
theorem byte_after_newline_not_framed :
    ¬ ∀ (results : List (List UInt8 × (ℕ → UInt8))) (junk : ℕ → UInt8), (∀ r ∈ results, Chunk r.1) →
      ∃ buffer, receiveLoop emptyBuffer (answers results junk) = .done buffer ∧
        string buffer = some (packetOf (results.map Prod.fst).flatten) := by
  intro h
  have hchunk : Chunk ([97] ++ newline :: [98]) := ⟨by decide, by decide, by decide⟩
  obtain ⟨buffer, hloop, _⟩ := h [([97] ++ newline :: [98], fun _ => 0)] (fun _ => 0)
    (by intro r hr; obtain rfl := List.mem_singleton.mp hr; exact hchunk)
  rcases receiveOnce_of_mem (fun _ => 0) hchunk string_emptyBuffer (by decide) with
    ⟨_, hb, _⟩ | ⟨_, hfault⟩
  · cases hb
  · have hend := (receiveLoop_of_fault hfault [(.closed, fun _ => 0)]).symm.trans hloop
    cases hend

end Aesd.Server
