import Mathlib.Data.List.Basic
import Mathlib.Data.List.Count
import Mathlib.Logic.Function.Basic

/-!
# A heap of blocks with a free-form allocator

Which block an allocation returns, whether it succeeds and what a fresh block
holds is the allocator's choice, a `Grant`. The heap logs every allocation and
every free, and a free of a block that is not live is logged as a fault.
-/

namespace BlockHeap

variable {β : Type*}

/-- A block: the size it was asked for, and its bytes. -/
structure Block where
  size : ℕ
  bytes : ℕ → UInt8

inductive Event (β : Type*) where
  | alloc (b : β)
  | free (b : β)
  | badFree (b : β)
  deriving DecidableEq

structure Heap (β : Type*) where
  blocks : β → Option Block
  log : List (Event β)

/-- One answer of the allocator: a block or NULL, and what its memory holds. -/
structure Grant (β : Type*) where
  block : Option β
  junk : ℕ → UInt8

namespace Heap

def empty : Heap β := ⟨fun _ => none, []⟩

def Live (h : Heap β) (b : β) : Prop := (h.blocks b).isSome

instance (h : Heap β) (b : β) : Decidable (h.Live b) := inferInstanceAs (Decidable (_ = true))

def byteAt (h : Heap β) (p : Option β) (i : ℕ) : UInt8 :=
  match p.bind h.blocks with
  | some blk => blk.bytes i
  | none => 0

def contents (h : Heap β) (p : Option β) (start n : ℕ) : List UInt8 :=
  (List.range n).map fun i => h.byteAt p (start + i)

@[simp] theorem contents_length (h : Heap β) (p : Option β) (start n : ℕ) :
    (h.contents p start n).length = n := by
  simp [contents]

theorem contents_congr {h h' : Heap β} {p p' : Option β} {start n : ℕ}
    (hb : ∀ i < n, h.byteAt p (start + i) = h'.byteAt p' (start + i)) :
    h.contents p start n = h'.contents p' start n := by
  apply List.map_congr_left
  intro i hi
  exact hb i (List.mem_range.mp hi)

theorem contents_add (h : Heap β) (p : Option β) (start n m : ℕ) :
    h.contents p start (n + m) = h.contents p start n ++ h.contents p (start + n) m := by
  simp [contents, List.range_add, List.map_map, Function.comp_def, Nat.add_assoc]

theorem take_drop_contents (h : Heap β) (p : Option β) {start n k m : ℕ} (hkm : k + m ≤ n) :
    ((h.contents p start n).drop k).take m = h.contents p (start + k) m := by
  apply List.ext_getElem
  · simp
    omega
  · intro i h1 h2
    simp [contents, Nat.add_assoc]

theorem byteAt_of_blocks {h h' : Heap β} {b : β} (hb : h.blocks b = h'.blocks b) (i : ℕ) :
    h.byteAt (some b) i = h'.byteAt (some b) i := by
  simp [byteAt, hb]

variable [DecidableEq β]

def store (h : Heap β) (p : Option β) (start : ℕ) (data : List UInt8) : Heap β :=
  match p with
  | none => h
  | some b => { h with blocks := Function.update h.blocks b ((h.blocks b).map fun blk =>
      { blk with bytes := fun i =>
          if start ≤ i then (data[i - start]?).getD (blk.bytes i) else blk.bytes i }) }

def kmalloc (h : Heap β) (size : ℕ) (g : Grant β) : Option β × Heap β :=
  match g.block with
  | none => (none, h)
  | some b => (some b, ⟨Function.update h.blocks b (some ⟨size, g.junk⟩), h.log ++ [.alloc b]⟩)

/-- Freeing NULL does nothing. -/
def kfree (h : Heap β) (p : Option β) : Heap β :=
  match p with
  | none => h
  | some b =>
    if h.Live b then ⟨Function.update h.blocks b none, h.log ++ [.free b]⟩
    else { h with log := h.log ++ [.badFree b] }

/-- The bytes of a block after a change of size. -/
def kept (h : Heap β) (o : β) (size : ℕ) (junk : ℕ → UInt8) (i : ℕ) : UInt8 :=
  match h.blocks o with
  | some blk => if i < min blk.size size then blk.bytes i else junk i
  | none => junk i

/-- NULL is allocated afresh, a failure leaves the old block alone, and a
success keeps the common prefix, in place or in a new block. -/
def krealloc (h : Heap β) (old : Option β) (size : ℕ) (g : Grant β) : Option β × Heap β :=
  match old, g.block with
  | none, _ => h.kmalloc size g
  | some _, none => (none, h)
  | some o, some b =>
    let blocks := Function.update h.blocks b (some ⟨size, h.kept o size g.junk⟩)
    if b = o then (some b, { h with blocks := blocks })
    else (some b, kfree ⟨blocks, h.log ++ [.alloc b]⟩ (some o))

/-- What the allocator may answer: a block that is not in use, or for
`krealloc` the old one. -/
def CanGrant (h : Heap β) (old : Option β) (g : Grant β) : Prop :=
  ∀ b, g.block = some b → old = some b ∨ ¬ h.Live b

instance (h : Heap β) (old : Option β) (g : Grant β) : Decidable (h.CanGrant old g) :=
  match hg : g.block with
  | none => isTrue (by simp [CanGrant, hg])
  | some b => decidable_of_iff (old = some b ∨ ¬ h.Live b) (by simp [CanGrant, hg])

@[simp] theorem live_store (h : Heap β) (p : Option β) (start : ℕ) (data : List UInt8) (b : β) :
    (h.store p start data).Live b ↔ h.Live b := by
  cases p with
  | none => rfl
  | some c =>
    by_cases hbc : b = c
    · subst hbc
      simp [Live, store]
    · simp [Live, store, Function.update_of_ne hbc]

@[simp] theorem log_store (h : Heap β) (p : Option β) (start : ℕ) (data : List UInt8) :
    (h.store p start data).log = h.log := by
  cases p <;> rfl

theorem blocks_store_ne (h : Heap β) {p : Option β} (start : ℕ) (data : List UInt8) {b : β}
    (hb : p ≠ some b) : (h.store p start data).blocks b = h.blocks b := by
  cases p with
  | none => rfl
  | some c => exact Function.update_of_ne (fun hbc => hb (by rw [hbc])) _ _

theorem byteAt_store (h : Heap β) {b : β} (hb : h.Live b) (start : ℕ) (data : List UInt8) (i : ℕ) :
    (h.store (some b) start data).byteAt (some b) i =
      if start ≤ i then (data[i - start]?).getD (h.byteAt (some b) i) else h.byteAt (some b) i := by
  obtain ⟨blk, hblk⟩ := Option.isSome_iff_exists.mp hb
  simp [store, byteAt, hblk]

theorem contents_store_append (h : Heap β) {b : β} (hb : h.Live b) (n : ℕ) (data : List UInt8) :
    (h.store (some b) n data).contents (some b) 0 (n + data.length) =
      h.contents (some b) 0 n ++ data := by
  rw [contents_add]
  congr 1
  · apply contents_congr
    intro i hi
    rw [byteAt_store h hb, if_neg (by omega)]
  · apply List.ext_getElem
    · simp
    · intro i h1 h2
      simp [contents, byteAt_store h hb, h2]

@[simp] theorem kmalloc_fst (h : Heap β) (size : ℕ) (g : Grant β) :
    (h.kmalloc size g).1 = g.block := by
  unfold kmalloc
  cases g.block <;> rfl

@[simp] theorem krealloc_fst (h : Heap β) (old : Option β) (size : ℕ) (g : Grant β) :
    (h.krealloc old size g).1 = g.block := by
  unfold krealloc
  cases old with
  | none => simp
  | some o => cases g.block with
    | none => rfl
    | some b => dsimp only; split_ifs <;> rfl

theorem kmalloc_fail {g : Grant β} (hg : g.block = none) (h : Heap β) (size : ℕ) :
    (h.kmalloc size g).2 = h := by
  simp [kmalloc, hg]

theorem krealloc_fail {g : Grant β} (hg : g.block = none) (h : Heap β) (old : Option β) (size : ℕ) :
    (h.krealloc old size g).2 = h := by
  cases old <;> simp [krealloc, kmalloc, hg]

theorem live_kmalloc {g : Grant β} {b : β} (hg : g.block = some b) (h : Heap β) (size : ℕ) (c : β) :
    (h.kmalloc size g).2.Live c ↔ c = b ∨ h.Live c := by
  by_cases hc : c = b
  · subst hc
    simp [kmalloc, hg, Live]
  · simp [kmalloc, hg, Live, hc]

theorem kfree_of_live {h : Heap β} {b : β} (hb : h.Live b) :
    h.kfree (some b) = ⟨Function.update h.blocks b none, h.log ++ [.free b]⟩ := if_pos hb

theorem live_kfree (h : Heap β) (p : Option β) (c : β) :
    (h.kfree p).Live c ↔ h.Live c ∧ p ≠ some c := by
  cases p with
  | none => simp [kfree]
  | some b =>
    by_cases hb : h.Live b
    · rw [kfree_of_live hb]
      by_cases hc : c = b
      · subst hc
        simp [Live]
      · simp [Live, Function.update_of_ne hc, Ne.symm hc]
    · have hne : h.Live c → b ≠ c := fun hc he => hb (he ▸ hc)
      simp only [kfree, if_neg hb, ne_eq, Option.some.injEq]
      exact ⟨fun hc => ⟨hc, hne hc⟩, fun hc => hc.1⟩

/-- The live blocks after a successful `krealloc` of `old` (NULL included). -/
theorem live_krealloc {g : Grant β} {b : β} (hg : g.block = some b) (h : Heap β) (old : Option β)
    (size : ℕ) (c : β) :
    (h.krealloc old size g).2.Live c ↔ c = b ∨ (h.Live c ∧ old ≠ some c) := by
  cases old with
  | none => simp [krealloc, live_kmalloc hg]
  | some o =>
    by_cases hbo : b = o
    · subst hbo
      by_cases hc : c = b
      · subst hc
        simp [krealloc, hg, Live]
      · simp [krealloc, hg, Live, hc, Ne.symm hc]
    · simp only [krealloc, hg, if_neg hbo, live_kfree, ne_eq, Option.some.injEq]
      by_cases hc : c = b
      · subst hc
        simp [Live, Ne.symm hbo]
      · simp [Live, hc]

theorem blocks_kmalloc_ne {g : Grant β} {c : β} (hc : g.block ≠ some c) (h : Heap β) (size : ℕ) :
    (h.kmalloc size g).2.blocks c = h.blocks c := by
  unfold kmalloc
  cases hg : g.block with
  | none => rfl
  | some b => exact Function.update_of_ne (fun he => hc (by rw [hg, he])) _ _

theorem blocks_kfree_ne {p : Option β} {c : β} (hc : p ≠ some c) (h : Heap β) :
    (h.kfree p).blocks c = h.blocks c := by
  cases p with
  | none => rfl
  | some b =>
    unfold kfree
    dsimp only
    split_ifs
    · exact Function.update_of_ne (fun he => hc (by rw [he])) _ _
    · rfl

theorem blocks_krealloc_ne {g : Grant β} {old : Option β} {c : β} (hc : g.block ≠ some c)
    (ho : old ≠ some c) (h : Heap β) (size : ℕ) :
    (h.krealloc old size g).2.blocks c = h.blocks c := by
  cases old with
  | none => exact blocks_kmalloc_ne hc h size
  | some o =>
    cases hg : g.block with
    | none => rw [krealloc_fail hg]
    | some b =>
      have hcb : c ≠ b := fun he => hc (by rw [hg, he])
      simp only [krealloc, hg]
      split_ifs
      · exact Function.update_of_ne hcb _ _
      · rw [blocks_kfree_ne ho]
        exact Function.update_of_ne hcb _ _

theorem byteAt_krealloc {g : Grant β} {b o : β} (hg : g.block = some b) (h : Heap β) (size i : ℕ) :
    (h.krealloc (some o) size g).2.byteAt (some b) i = h.kept o size g.junk i := by
  simp only [krealloc, hg]
  split_ifs with hbo
  · simp [byteAt]
  · rw [byteAt_of_blocks (blocks_kfree_ne (by simpa using Ne.symm hbo) _)]
    simp [byteAt]

theorem blocks_krealloc {g : Grant β} {b : β} (hg : g.block = some b) (h : Heap β) (old : Option β)
    (size : ℕ) : ∃ bytes, (h.krealloc old size g).2.blocks b = some ⟨size, bytes⟩ := by
  cases old with
  | none => exact ⟨g.junk, by simp [krealloc, kmalloc, hg]⟩
  | some o =>
    refine ⟨h.kept o size g.junk, ?_⟩
    simp only [krealloc, hg]
    split_ifs with hbo
    · exact Function.update_self _ _ _
    · rw [blocks_kfree_ne (by simpa using Ne.symm hbo)]
      exact Function.update_self _ _ _

theorem contents_krealloc {g : Grant β} {b o : β} (hg : g.block = some b) (h : Heap β) {blk : Block}
    (ho : h.blocks o = some blk) {size n : ℕ} (hn : n ≤ blk.size) (hs : n ≤ size) :
    (h.krealloc (some o) size g).2.contents (some b) 0 n = h.contents (some o) 0 n := by
  apply contents_congr
  intro i hi
  rw [byteAt_krealloc hg]
  simp only [kept, byteAt, ho, Option.bind_some, Nat.zero_add]
  rw [if_pos (by omega)]

def allocCount (h : Heap β) (b : β) : ℕ := h.log.count (.alloc b)

def freeCount (h : Heap β) (b : β) : ℕ := h.log.count (.free b)

/-- No block that was not live was ever freed, and every block was allocated
as often as it was freed, once more while it is live. -/
structure Sound (h : Heap β) : Prop where
  noBadFree : ∀ b, Event.badFree b ∉ h.log
  balance : ∀ b, h.allocCount b = h.freeCount b + if h.Live b then 1 else 0

theorem sound_empty : (empty : Heap β).Sound where
  noBadFree := by simp [empty]
  balance := by simp [empty, allocCount, freeCount, Live]

theorem Sound.store {h : Heap β} (hs : h.Sound) (p : Option β) (start : ℕ) (data : List UInt8) :
    (h.store p start data).Sound where
  noBadFree := by simpa using hs.noBadFree
  balance b := by simpa [allocCount, freeCount] using hs.balance b

theorem Sound.kmalloc {h : Heap β} (hs : h.Sound) {g : Grant β} (hg : h.CanGrant none g) (size : ℕ) :
    (h.kmalloc size g).2.Sound := by
  cases hb : g.block with
  | none => rwa [kmalloc_fail hb]
  | some b =>
    have hfresh : ¬ h.Live b := by simpa [hb] using hg b hb
    constructor
    · intro c
      simpa [Heap.kmalloc, hb] using hs.noBadFree c
    · intro c
      have hbal := hs.balance c
      simp only [live_kmalloc hb]
      simp only [Heap.kmalloc, hb, allocCount, freeCount, List.count_append] at hbal ⊢
      by_cases hc : c = b
      · subst hc
        simp [hfresh] at hbal ⊢
        omega
      · simpa [hc, Ne.symm hc] using hbal

theorem Sound.kfree {h : Heap β} (hs : h.Sound) {p : Option β} (hp : ∀ b, p = some b → h.Live b) :
    (h.kfree p).Sound := by
  cases p with
  | none => exact hs
  | some b =>
    have hb := hp b rfl
    constructor
    · intro c
      simpa [Heap.kfree, hb] using hs.noBadFree c
    · intro c
      have hbal := hs.balance c
      simp only [live_kfree]
      simp only [Heap.kfree, if_pos hb, allocCount, freeCount, List.count_append] at hbal ⊢
      by_cases hc : c = b
      · subst hc
        simp [hb] at hbal ⊢
        omega
      · simpa [hc, Ne.symm hc] using hbal

theorem Sound.krealloc {h : Heap β} (hs : h.Sound) {old : Option β} {g : Grant β}
    (hg : h.CanGrant old g) (ho : ∀ b, old = some b → h.Live b) (size : ℕ) :
    (h.krealloc old size g).2.Sound := by
  cases old with
  | none => exact hs.kmalloc hg size
  | some o =>
    cases hb : g.block with
    | none => rwa [krealloc_fail hb]
    | some b =>
      have hol := ho o rfl
      by_cases hbo : b = o
      · -- in place: the live blocks and the two logs stay as they are
        subst hbo
        have hlive (c : β) : (h.krealloc (some b) size g).2.Live c ↔ h.Live c := by
          rw [live_krealloc hb]
          by_cases hc : c = b
          · simp [hc, hol]
          · simp [hc, Ne.symm hc]
        constructor
        · simpa [Heap.krealloc, hb] using hs.noBadFree
        · intro c
          simp only [hlive]
          simpa [Heap.krealloc, hb, allocCount, freeCount] using hs.balance c
      · -- moving is allocating the new block and then freeing the old one
        have hnew : ¬ h.Live b := (hg b hb).resolve_left (by simpa using Ne.symm hbo)
        let g' : Grant β := ⟨some b, h.kept o size g.junk⟩
        have hmove : (h.krealloc (some o) size g).2 = (h.kmalloc size g').2.kfree (some o) := by
          simp [Heap.krealloc, Heap.kmalloc, hb, hbo, g']
        rw [hmove]
        apply (hs.kmalloc (g := g') (fun c hc => .inr (by simp_all [g'])) size).kfree
        intro c hc
        rw [live_kmalloc (b := b) rfl]
        exact .inr (ho c hc)

def kfreeAll (h : Heap β) (ps : List (Option β)) : Heap β := ps.foldl kfree h

theorem live_kfreeAll (h : Heap β) (ps : List (Option β)) (c : β) :
    (h.kfreeAll ps).Live c ↔ h.Live c ∧ some c ∉ ps := by
  induction ps generalizing h with
  | nil => simp [kfreeAll]
  | cons p ps ih =>
    have := ih (h.kfree p)
    simp only [kfreeAll, List.foldl_cons, List.mem_cons, not_or] at this ⊢
    rw [this, live_kfree, ne_comm, and_assoc]

theorem Sound.kfreeAll {h : Heap β} (hs : h.Sound) {ps : List (Option β)}
    (hlive : ∀ b, some b ∈ ps → h.Live b) (hnodup : (ps.filterMap id).Nodup) :
    (h.kfreeAll ps).Sound := by
  induction ps generalizing h with
  | nil => exact hs
  | cons p ps ih =>
    apply ih (hs.kfree (fun b hb => hlive b (by simp [hb])))
    · intro b hb
      rw [live_kfree]
      refine ⟨hlive b (by simp [hb]), ?_⟩
      rintro rfl
      simp only [List.filterMap_cons_some (f := id) (b := b) rfl, List.nodup_cons] at hnodup
      exact hnodup.1 (List.mem_filterMap.mpr ⟨some b, hb, rfl⟩)
    · cases p with
      | none => simpa using hnodup
      | some c => exact (List.nodup_cons.mp (by simpa using hnodup)).2

end Heap

end BlockHeap
