import Aesd.FileOps
import Aesd.Leaks

/-!
# Loading and unloading

`aesd_init_module` and `aesd_cleanup_module` over any number of loads, failed ones among them,
with any use of the device in between. The kernel keeps a module loaded while a file of it is
open, hands out device numbers that are free, and calls nothing of a module that is not loaded.
-/

namespace Aesd
open BlockHeap StepRuns

/-- `MKDEV` and `MAJOR`: a minor number has 20 bits. -/
def mkdev (major minor : UInt32) : UInt32 := major <<< 20 ||| minor
def majorOf (dev : UInt32) : UInt32 := dev >>> 20

def aesdMinor : UInt32 := 0

/-- The kernel around the module, and the module's variables. -/
structure Host where
  system : System
  aesdMajor : UInt32
  /-- The device numbers that are taken, by this driver or another. -/
  regions : List UInt32
  /-- The number under which `aesd_device.cdev` is found. -/
  cdev : Option UInt32
  loaded : Bool
  /-- The open files. -/
  opened : List ℕ

namespace Host

/-- Nothing is loaded; other drivers have their device numbers. -/
def init (others : List UInt32) : Host := ⟨.init, 0, others, none, false, []⟩

variable (h : Host)

def allocChrdevRegion : Except Int32 UInt32 → Int32 × UInt32 × Host
  | .error e => (e, 0, h)
  | .ok dev => (0, dev, { h with regions := dev :: h.regions })

def unregisterChrdevRegion (dev : UInt32) : Host := { h with regions := h.regions.erase dev }

def aesdSetupCdev (err : Int32) : Int32 × Host :=
  let devno := mkdev h.aesdMajor aesdMinor
  (err, if err = 0 then { h with cdev := some devno } else h)

def aesdInitModule (region : Except Int32 UInt32) (cdevAdd : Int32) : Int32 × Host :=
  let (result, dev, h) := h.allocChrdevRegion region
  let h := { h with aesdMajor := majorOf dev }
  if result < 0 then (result, h)
  else
    -- `memset` and `aesd_circular_buffer_init`
    let h := { h with system.kernel.device := ⟨.init, .zero⟩ }
    let (result, h) := h.aesdSetupCdev cdevAdd
    (result, if result ≠ 0 then h.unregisterChrdevRegion dev else h)

def cleanup : Host :=
  let devno := mkdev h.aesdMajor aesdMinor
  let h := { h with cdev := none }
  let h := { h with system.kernel.heap := aesdCleanupModule h.system.kernel }
  h.unregisterChrdevRegion devno

end Host

inductive HostOp where
  /-- `image` is what the module's memory holds for `aesd_device`. -/
  | load (image : AesdDev) (region : Except Int32 UInt32) (cdevAdd : Int32)
  | unload
  | operate (op : FileOp)

/-- The file an operation is called on. -/
def FileOp.target : FileOp → ℕ
  | .openFile file | .release file | .transfer (.write file ..) | .transfer (.read file ..) |
    .llseek file .. | .ioctl file .. => file

def FileOp.opens (op : FileOp) (opened : List ℕ) : List ℕ :=
  match op with
  | .openFile file => file :: opened
  | .release file => opened.erase file
  | _ => opened

/-- A module whose start fails is not loaded. -/
def Host.step (fixedSizeLlseek : File → Int64 → Int32 → Int64 → Int64 × File) (h : Host) :
    HostOp → Reply × Host
  | .load image region cdevAdd =>
    let (result, h) := Host.aesdInitModule { h with system.kernel.device := image } region cdevAdd
    (⟨result.toInt64, [], none⟩, { h with loaded := result = 0 })
  | .unload => (⟨0, [], none⟩, { h.cleanup with loaded := false })
  | .operate op =>
    let (reply, system) := h.system.operate fixedSizeLlseek op
    (reply, { h with system, opened := op.opens h.opened })

/-- `open` reaches a loaded module only, and the other operations an open file. -/
def FileOp.Reaches (h : Host) : FileOp → Prop
  | .openFile file => h.loaded = true ∧ file ∉ h.opened
  | op => op.target ∈ h.opened

instance (h : Host) : (op : FileOp) → Decidable (op.Reaches h)
  | .openFile _ => inferInstanceAs (Decidable (_ ∧ _))
  | .release _ | .transfer _ | .llseek .. | .ioctl .. => inferInstanceAs (Decidable (_ ∈ _))

/-- The kernel's side: results are zero or negative, a new device number is free and has the
minor number asked for, and a module in use stays. -/
def HostOp.Enabled (h : Host) : HostOp → Prop
  | .load _ (.error e) _ => h.loaded = false ∧ e < 0
  | .load _ (.ok dev) cdevAdd =>
    h.loaded = false ∧ cdevAdd ≤ 0 ∧ dev ∉ h.regions ∧ mkdev (majorOf dev) aesdMinor = dev
  | .unload => h.loaded = true ∧ h.opened = []
  | .operate op => op.Reaches h ∧ op.Ok h.system

instance (h : Host) : (op : HostOp) → Decidable (op.Enabled h)
  | .load _ (.error _) _ => inferInstanceAs (Decidable (_ ∧ _))
  | .load _ (.ok _) _ => inferInstanceAs (Decidable (_ ∧ _ ∧ _ ∧ _))
  | .unload => inferInstanceAs (Decidable (_ ∧ _))
  | .operate _ => inferInstanceAs (Decidable (_ ∧ _))

def HostOp.seeks : HostOp → Bool
  | .operate op => op.seeks
  | _ => false

/-- A log that is there or not; the positions are those of the files. -/
structure Service where
  loaded : Bool
  device : LogDevice

def Service.empty : Service := ⟨false, .empty⟩

/-- Whether a load succeeds; it then starts with nothing written. -/
def Service.step (a : Service) : HostOp → (ℤ × List UInt8) × Service
  | .load _ (.error e) _ => ((e.toInt, []), a)
  | .load _ (.ok _) cdevAdd =>
    ((cdevAdd.toInt, []), if cdevAdd = 0 then ⟨true, { a.device with log := .empty }⟩ else a)
  | .unload => ((0, []), { a with loaded := false })
  | .operate op =>
    let (answer, device) := a.device.operate op
    (answer, { a with device })

section Fresh

variable {heap : KHeap}

theorem pointer_fresh {i : ℕ} : Kernel.pointer ⟨⟨.init, .zero⟩, heap⟩ i = none := by
  simp only [Kernel.pointer, AesdCircularBuffer.slot_init, AesdBufferEntry.zero, ite_self]

/-- The cleared device owns nothing, whatever others have allocated. -/
theorem owned_fresh (h : heap.Sound) : Kernel.Owned ⟨⟨.init, .zero⟩, heap⟩ where
  ring := AesdCircularBuffer.wellFormed_init
  live _ hb := by
    rw [pointer_fresh] at hb
    cases hb
  distinct _ _ hb := by
    rw [pointer_fresh] at hb
    cases hb
  active e he := by simp at he
  sound := h

theorem refines_fresh (h : heap.Sound) : Refines ⟨⟨.init, .zero⟩, heap⟩ .empty where
  owned := owned_fresh h
  fits := ⟨fits_init.ring, fits_init.pending, by simp [AesdBufferEntry.zero]⟩
  commands := by
    rw [Kernel.commands, AesdCircularBuffer.active_init]
    rfl
  pending _ := by
    simp [Kernel.pending, Kernel.bytesOf, AesdBufferEntry.zero, Heap.contents, LineLog.empty]

theorem leaked_fresh (b : BlockId) : Kernel.Leaked ⟨⟨.init, .zero⟩, heap⟩ b ↔ heap.Live b := by
  rw [Kernel.Leaked, mem_pointers]
  simp [pointer_fresh]

end Fresh

section Host

variable {h : Host} {fixedSizeLlseek : File → Int64 → Int32 → Int64 → Int64 × File}

theorem Host.step_load (image : AesdDev) (dev : UInt32) :
    h.step fixedSizeLlseek (.load image (.ok dev) 0) = (⟨0, [], none⟩, { h with
      system.kernel.device := ⟨.init, .zero⟩
      aesdMajor := majorOf dev
      regions := dev :: h.regions
      cdev := some (mkdev (majorOf dev) aesdMinor)
      loaded := true }) := rfl

theorem Host.step_load_error (hl : h.loaded = false) (image : AesdDev) {e : Int32} (he : e < 0)
    (cdevAdd : Int32) : h.step fixedSizeLlseek (.load image (.error e) cdevAdd) =
      (⟨e.toInt64, [], none⟩, { h with system.kernel.device := image, aesdMajor := majorOf 0 }) := by
  have hne : e ≠ 0 := by
    rintro rfl
    exact absurd he (by decide)
  simp [Host.step, Host.aesdInitModule, Host.allocChrdevRegion, he, hne, hl]

theorem Host.step_load_noCdev (hl : h.loaded = false) (image : AesdDev) (dev : UInt32)
    {cdevAdd : Int32} (hne : cdevAdd ≠ 0) :
    h.step fixedSizeLlseek (.load image (.ok dev) cdevAdd) = (⟨cdevAdd.toInt64, [], none⟩,
      { h with system.kernel.device := ⟨.init, .zero⟩, aesdMajor := majorOf dev }) := by
  simp [Host.step, Host.aesdInitModule, Host.allocChrdevRegion, Host.aesdSetupCdev,
    Host.unregisterChrdevRegion, hne, hl]

/-- The loaded device owns its blocks; every block was freed once at most; and files are open
only while the module is loaded. -/
structure Host.Sound (h : Host) : Prop where
  owned : h.loaded = true → h.system.kernel.Owned
  heap : h.system.kernel.heap.Sound
  inUse : h.opened ≠ [] → h.loaded = true

theorem sound_host_init (others : List UInt32) : (Host.init others).Sound where
  owned hl := by cases hl
  heap := Heap.sound_empty
  inUse hne := absurd rfl hne

theorem Host.Sound.loaded (hs : h.Sound) {op : FileOp} (hr : op.Reaches h) : h.loaded = true := by
  cases op with
  | openFile file => exact hr.1
  | release | transfer | llseek | ioctl => exact hs.inUse (List.ne_nil_of_mem hr)

theorem Host.Sound.stay (hs : h.Sound) (hl : h.loaded = false) (device : AesdDev)
    (major : UInt32) : Host.Sound { h with system.kernel.device := device, aesdMajor := major } where
  owned ha := by
    rw [hl] at ha
    cases ha
  heap := hs.heap
  inUse := hs.inUse

theorem owned_operate {s : System} (ho : s.kernel.Owned) {op : FileOp} (hop : op.Ok s) :
    (s.operate fixedSizeLlseek op).2.kernel.Owned := by
  cases op with
  | transfer c => exact owned_step ho hop.1.1
  | openFile | release | llseek | ioctl => exact ho

theorem Host.Sound.step (hs : h.Sound) {op : HostOp} (hop : op.Enabled h) :
    (h.step fixedSizeLlseek op).2.Sound := by
  cases op with
  | load image region cdevAdd =>
    cases region with
    | error e =>
      rw [Host.step_load_error hop.1 image hop.2]
      exact hs.stay hop.1 _ _
    | ok dev =>
      by_cases hz : cdevAdd = 0
      · subst hz
        rw [Host.step_load]
        exact ⟨fun _ => owned_fresh hs.heap, hs.heap, fun _ => rfl⟩
      · rw [Host.step_load_noCdev hop.1 image dev hz]
        exact hs.stay hop.1 _ _
  | unload =>
    refine ⟨fun hl => ?_, sound_cleanup (hs.owned hop.1), fun hne => absurd hop.2 hne⟩
    cases hl
  | operate op =>
    have hl := hs.loaded hop.1
    have ho := @owned_operate fixedSizeLlseek _ (hs.owned hl) _ hop.2
    exact ⟨fun _ => ho, ho.sound, fun _ => hl⟩

end Host

/-- The host serves as the log says, and has no more registered than the loaded module. -/
structure Serves (others : List UInt32) (h : Host) (a : Service) : Prop where
  loaded : h.loaded = a.loaded
  sound : h.Sound
  refines : a.loaded = true → Represents h.system a.device
  nonneg : ∀ file, 0 ≤ h.system.fPos file
  pos_eq : ∀ file, (h.system.fPos file).toNatClampNeg = a.device.pos file
  regions : h.regions = if h.loaded then mkdev h.aesdMajor aesdMinor :: others else others
  cdev : h.cdev = if h.loaded then some (mkdev h.aesdMajor aesdMinor) else none

section Serves

variable {others : List UInt32} {h : Host} {a : Service}
  {fixedSizeLlseek : File → Int64 → Int32 → Int64 → Int64 × File}

theorem serves_init (others : List UInt32) : Serves others (.init others) .empty where
  loaded := rfl
  sound := sound_host_init others
  refines hl := by cases hl
  nonneg _ := Int64.le_refl 0
  pos_eq _ := rfl
  regions := rfl
  cdev := rfl

theorem Serves.load (hs : Serves others h a) (image : AesdDev) {dev : UInt32}
    (hop : (HostOp.load image (.ok dev) 0).Enabled h) :
    Serves others (h.step fixedSizeLlseek (.load image (.ok dev) 0)).2
      (a.step (.load image (.ok dev) 0)).2 where
  loaded := rfl
  sound := hs.sound.step hop
  refines _ := ⟨refines_fresh hs.sound.heap, rfl, hs.nonneg, hs.pos_eq⟩
  nonneg := hs.nonneg
  pos_eq := hs.pos_eq
  regions := by
    have hothers := hs.regions
    rw [if_neg (by simp [hop.1])] at hothers
    change dev :: h.regions = mkdev (majorOf dev) aesdMinor :: others
    rw [hop.2.2.2, hothers]
  cdev := rfl

/-- A host that is not loaded again serves as before, whatever it holds for the module. -/
theorem Serves.stay (hs : Serves others h a) (hl : h.loaded = false) (device : AesdDev)
    (major : UInt32) : Serves others
      { h with system.kernel.device := device, aesdMajor := major } a where
  loaded := hs.loaded
  sound := hs.sound.stay hl device major
  refines ha := by
    rw [← hs.loaded, hl] at ha
    cases ha
  nonneg := hs.nonneg
  pos_eq := hs.pos_eq
  regions := by
    have hothers := hs.regions
    rw [if_neg (by simp [hl])] at hothers
    rw [if_neg (by simp [hl])]
    exact hothers
  cdev := by
    have hcdev := hs.cdev
    rw [if_neg (by simp [hl])] at hcdev
    rw [if_neg (by simp [hl])]
    exact hcdev

theorem Serves.unload (hs : Serves others h a) (hop : HostOp.unload.Enabled h) :
    Serves others (h.step fixedSizeLlseek .unload).2 (a.step .unload).2 where
  loaded := rfl
  sound := hs.sound.step hop
  refines ha := by cases ha
  nonneg := hs.nonneg
  pos_eq := hs.pos_eq
  regions := by
    have hothers := hs.regions
    rw [if_pos hop.1] at hothers
    change h.regions.erase (mkdev h.aesdMajor aesdMinor) = others
    rw [hothers, List.erase_cons_head]
  cdev := rfl

theorem Serves.operate (hs : Serves others h a) (hk : FixedSize fixedSizeLlseek) {op : FileOp}
    (hop : (HostOp.operate op).Enabled h) (hpos : ∀ file, a.device.pos file < 2 ^ 62) :
    (h.step fixedSizeLlseek (.operate op)).1.answer = (a.step (.operate op)).1 ∧
      Serves others (h.step fixedSizeLlseek (.operate op)).2 (a.step (.operate op)).2 := by
  have hrefines := hs.refines (hs.loaded ▸ hs.sound.loaded hop.1)
  obtain ⟨hanswer, hrepr⟩ := hrefines.operate hk hop.2 hpos
  exact ⟨hanswer, hs.loaded, hs.sound.step hop, fun _ => hrepr, hrepr.nonneg, hrepr.pos_eq,
    hs.regions, hs.cdev⟩

theorem Serves.step (hs : Serves others h a) (hk : FixedSize fixedSizeLlseek) {op : HostOp}
    (hop : op.Enabled h) (hpos : ∀ file, a.device.pos file < 2 ^ 62) :
    (h.step fixedSizeLlseek op).1.answer = (a.step op).1 ∧
      Serves others (h.step fixedSizeLlseek op).2 (a.step op).2 := by
  cases op with
  | load image region cdevAdd =>
    cases region with
    | error e =>
      rw [Host.step_load_error hop.1 image hop.2]
      exact ⟨by simp [Reply.answer, Service.step], hs.stay hop.1 image (majorOf 0)⟩
    | ok dev =>
      by_cases hz : cdevAdd = 0
      · subst hz
        exact ⟨rfl, hs.load image hop⟩
      · rw [Host.step_load_noCdev hop.1 image dev hz, Service.step, if_neg hz]
        exact ⟨by simp [Reply.answer], hs.stay hop.1 _ _⟩
  | unload => exact ⟨rfl, hs.unload hop⟩
  | operate op => exact hs.operate hk hop hpos

theorem Serves.pos_step_le (hs : Serves others h a) {op : HostOp} (hop : op.Enabled h) (f : ℕ) :
    (a.step op).2.device.pos f ≤
      max (a.device.pos f) (2 ^ 35) + if op.seeks then 2 ^ 35 else 0 := by
  cases op with
  | load image region cdevAdd =>
    cases region with
    | error e => exact Nat.le_add_right_of_le (Nat.le_max_left ..)
    | ok dev =>
      have hpos : (a.step (.load image (.ok dev) cdevAdd)).2.device.pos f = a.device.pos f := by
        by_cases hz : cdevAdd = 0
        · rw [Service.step, if_pos hz]
        · rw [Service.step, if_neg hz]
      rw [hpos]
      exact Nat.le_add_right_of_le (Nat.le_max_left ..)
  | unload => exact Nat.le_add_right_of_le (Nat.le_max_left ..)
  | operate op => exact (hs.refines (hs.loaded ▸ hs.sound.loaded hop.1)).pos_operate_le op f

theorem Serves.run (hs : Serves others h a) (hk : FixedSize fixedSizeLlseek) {n : ℕ}
    (hpos : ∀ file, a.device.pos file ≤ (n + 1) * 2 ^ 35) {ops : List HostOp}
    (hn : n + ops.countP HostOp.seeks < 2 ^ 26)
    (hv : Valid (Host.step fixedSizeLlseek) HostOp.Enabled h ops) :
    (replies (Host.step fixedSizeLlseek) h ops).map Reply.answer = replies Service.step a ops ∧
      Serves others (exec (Host.step fixedSizeLlseek) h ops) (exec Service.step a ops) := by
  induction ops generalizing h a n with
  | nil => exact ⟨rfl, hs⟩
  | cons op ops ih =>
    rw [List.countP_cons] at hn
    obtain ⟨hanswer, hstep⟩ := hs.step hk hv.1 fun file => (hpos file).trans_lt (by omega)
    have hbound : ∀ file, (a.step op).2.device.pos file ≤
        (n + (if op.seeks then 1 else 0) + 1) * 2 ^ 35 := by
      intro file
      have hle := hs.pos_step_le hv.1 file
      have hfile := hpos file
      split_ifs at hle ⊢ <;> omega
    obtain ⟨hrest, hend⟩ := ih hstep hbound (by omega) hv.2
    exact ⟨by rw [replies_cons, replies_cons, List.map_cons, hanswer, hrest], hend⟩

end Serves

/-- **Loads.** Over any number of loads and unloads, failed loads among them, each answer is that
of a log that starts empty with every load; no more than the loaded module's number and `cdev`
are registered, and other drivers keep theirs; and no block is freed twice. -/
theorem module_refines_logDevice
    (fixedSizeLlseek : File → Int64 → Int32 → Int64 → Int64 × File)
    (hkernel : FixedSize fixedSizeLlseek) (others : List UInt32) (ops : List HostOp)
    (h : Valid (Host.step fixedSizeLlseek) HostOp.Enabled (.init others) ops)
    (hseeks : ops.countP HostOp.seeks < 2 ^ 26) :
    let s := exec (Host.step fixedSizeLlseek) (.init others) ops
    let a := exec Service.step .empty ops
    (replies (Host.step fixedSizeLlseek) (.init others) ops).map Reply.answer =
        replies Service.step .empty ops ∧
      s.loaded = a.loaded ∧
      (a.loaded = true → s.system.kernel.commands = a.device.stored) ∧
      s.regions = (if a.loaded then mkdev s.aesdMajor aesdMinor :: others else others) ∧
      s.cdev = (if a.loaded then some (mkdev s.aesdMajor aesdMinor) else none) ∧
      ∀ b, .badFree b ∉ s.system.kernel.heap.log := by
  intro s a
  have hstart : ∀ file, Service.empty.device.pos file ≤ (0 + 1) * 2 ^ 35 := fun _ => Nat.zero_le _
  obtain ⟨hanswers, hend⟩ := (serves_init others).run hkernel hstart (by omega) h
  refine ⟨hanswers, hend.loaded, fun ha => (hend.refines ha).commands_eq, ?_, ?_,
    hend.sound.heap.noBadFree⟩
  · rw [← hend.loaded]
    exact hend.regions
  · rw [← hend.loaded]
    exact hend.cdev

/-- A line is written; after the unload one load fails, and the next finds the pointers of the
first in its memory. -/
def twoLoads : List HostOp :=
  [.load ⟨.init, .zero⟩ (.ok (mkdev 240 0)) 0, .operate (.openFile 0),
    .operate (.transfer (.write 0 (some [97, 10]) 2 (grantOf 1))), .operate (.release 0), .unload,
    .load ⟨.init, .zero⟩ (.ok (mkdev 241 0)) (-12),
    .load ⟨.init, ⟨some 1, 2⟩⟩ (.ok (mkdev 241 0)) 0, .operate (.openFile 0),
    .operate (.transfer (.read 0 (some 9) 9 false))]

theorem module_refines_logDevice_twoLoads :
    (replies (Host.step integerLlseek) (.init [mkdev 10 1]) twoLoads).map Reply.answer =
      replies Service.step .empty twoLoads :=
  (module_refines_logDevice integerLlseek fixedSize_integerLlseek [mkdev 10 1] twoLoads
    (by decide +kernel) (by decide)).1

/-- The line is gone. -/
example : replies Service.step .empty twoLoads =
    [(0, []), (0, []), (2, []), (0, []), (0, []), (-12, []), (0, []), (0, []), (0, [])] := by
  decide +kernel

def HostOp.Granted (h : Host) (op : HostOp) : Prop :=
  op.Enabled h ∧ match op with
    | .operate (.transfer c) => c.Granted h.system
    | _ => True

instance (h : Host) : (op : HostOp) → Decidable (op.Granted h)
  | .operate (.transfer _) => inferInstanceAs (Decidable (_ ∧ Call.Granted _ _))
  | .operate (.openFile _) | .operate (.release _) | .operate (.llseek ..) |
    .operate (.ioctl ..) | .load .. | .unload => inferInstanceAs (Decidable (_ ∧ True))

def HostOp.Fresh (h : Host) : HostOp → Prop
  | .operate (.transfer c) => c.Fresh h.system
  | _ => True

instance (h : Host) : (op : HostOp) → Decidable (op.Fresh h)
  | .operate (.transfer _) => inferInstanceAs (Decidable (Call.Fresh _ _))
  | .operate (.openFile _) | .operate (.release _) | .operate (.llseek ..) |
    .operate (.ioctl ..) | .load .. | .unload => isTrue trivial

/-- A block that no unload will free. -/
def Host.Left (h : Host) (b : BlockId) : Prop :=
  if h.loaded then h.system.kernel.Leaked b else h.system.kernel.heap.Live b

section Left

variable {h : Host} {fixedSizeLlseek : File → Int64 → Int32 → Int64 → Int64 × File} {b : BlockId}

theorem left_of_loaded (hl : h.loaded = true) : h.Left b ↔ h.system.kernel.Leaked b := by
  rw [Host.Left, if_pos hl]

theorem left_of_not_loaded (hl : h.loaded = false) :
    h.Left b ↔ h.system.kernel.heap.Live b := by
  rw [Host.Left, if_neg (by simp [hl])]

theorem left_stay (hl : h.loaded = false) (device : AesdDev) (major : UInt32) :
    Host.Left { h with system.kernel.device := device, aesdMajor := major } b ↔ h.Left b := by
  simp [Host.Left, hl]

/-- Only a write over a blank entry leaves a block behind; a load or an unload leaves those that
were left before. -/
theorem left_step (hs : h.Sound) {op : HostOp} (hop : op.Granted h) :
    (∃ b, (h.step fixedSizeLlseek op).2.Left b) ↔ (∃ b, h.Left b) ∨ ¬ op.Fresh h := by
  obtain ⟨hen, hgrant⟩ := hop
  cases op with
  | load image region cdevAdd =>
    simp only [HostOp.Fresh, not_true_eq_false, or_false]
    apply exists_congr
    intro b
    cases region with
    | error e =>
      rw [Host.step_load_error hen.1 image hen.2]
      exact left_stay hen.1 _ _
    | ok dev =>
      by_cases hz : cdevAdd = 0
      · subst hz
        rw [Host.step_load, left_of_loaded rfl, left_of_not_loaded hen.1]
        exact leaked_fresh b
      · rw [Host.step_load_noCdev hen.1 image dev hz]
        exact left_stay hen.1 _ _
  | unload =>
    simp only [HostOp.Fresh, not_true_eq_false, or_false]
    apply exists_congr
    intro b
    rw [left_of_loaded hen.1, left_of_not_loaded rfl]
    exact live_cleanup _ b
  | operate op =>
    have hl := hs.loaded hen.1
    simp only [left_of_loaded hl]
    have hafter (b : BlockId) : (h.step fixedSizeLlseek (.operate op)).2.Left b ↔
        (h.system.operate fixedSizeLlseek op).2.kernel.Leaked b := left_of_loaded hl
    simp only [hafter]
    cases op with
    | transfer c => exact leaked_step (hs.owned hl) hgrant
    | openFile | release | llseek | ioctl =>
      simp only [HostOp.Fresh, not_true_eq_false, or_false]
      rfl

theorem left_run (hs : h.Sound) {ops : List HostOp}
    (hv : Valid (Host.step fixedSizeLlseek) HostOp.Granted h ops) :
    (∃ b, (exec (Host.step fixedSizeLlseek) h ops).Left b) ↔
      (∃ b, h.Left b) ∨ ¬ Valid (Host.step fixedSizeLlseek) HostOp.Fresh h ops := by
  induction ops generalizing h with
  | nil => simp
  | cons op ops ih =>
    rw [exec_cons, ih (hs.step hv.1.1) hv.2, left_step hs hv.1, valid_cons, or_assoc,
      Classical.not_and_iff_not_or_not]

end Left

/-- **Nothing stays.** If every allocation succeeds, then nothing of any load is still allocated
when the module is not loaded, exactly when no write has allocated over a blank entry. -/
theorem unloaded_heap_empty_iff
    (fixedSizeLlseek : File → Int64 → Int32 → Int64 → Int64 × File) (others : List UInt32)
    (ops : List HostOp) (h : Valid (Host.step fixedSizeLlseek) HostOp.Granted (.init others) ops)
    (hunloaded : (exec (Host.step fixedSizeLlseek) (.init others) ops).loaded = false) :
    (∀ b, ¬ (exec (Host.step fixedSizeLlseek) (.init others) ops).system.kernel.heap.Live b) ↔
      Valid (Host.step fixedSizeLlseek) HostOp.Fresh (.init others) ops := by
  have hrun := left_run (sound_host_init others) h
  have hnone (b : BlockId) : ¬ (Host.init others).Left b := by
    rw [left_of_not_loaded rfl]
    exact fun hb => by cases hb
  simp only [left_of_not_loaded hunloaded, hnone, exists_false, false_or] at hrun
  rw [← not_exists, hrun, not_not]

/-- The run above up to the load that fails. -/
theorem unloaded_heap_empty_iff_twoLoads :
    ¬ (exec (Host.step integerLlseek) (.init []) (twoLoads.take 6)).system.kernel.heap.Live 1 :=
  (unloaded_heap_empty_iff integerLlseek [] (twoLoads.take 6) (by decide +kernel) rfl).mpr
    (by decide +kernel) 1

end Aesd
