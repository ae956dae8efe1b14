import Aesd.CircularBuffer
import Aesd.Lib.Heap
import Aesd.Lib.Runs

/-!
# The character device

`main.c`: the device, its read and write calls, and the module's start and end.
A system call holds the device's lock throughout, so it is one step. The
environment decides whether the lock is interrupted, what the allocator answers
and how much of a user buffer is accessible.
-/

namespace Aesd
open BlockHeap

abbrev KHeap := Heap BlockId

structure AesdDev where
  circleBuff : AesdCircularBuffer
  circleBuffEntry : AesdBufferEntry

/-- The one device and the kernel's heap. -/
structure Kernel where
  device : AesdDev
  heap : KHeap

/-- `struct file`; `private_data` is always the one device. -/
structure File where
  fPos : Int64

def EFAULT : Int64 := 14
def ENOMEM : Int64 := 12
def ERESTARTSYS : Int64 := 512

def newline : UInt8 := 10

/-- The state `aesd_init_module` leaves. -/
def Kernel.init : Kernel := ⟨⟨.init, .zero⟩, .empty⟩

/-- What the kernel answers during one `aesd_write`. -/
structure WriteEnv where
  interrupted : Bool
  grant : Grant BlockId

structure WriteOutcome where
  retval : Int64
  kernel : Kernel
  /-- The argument of `kfree`. -/
  freed : Option BlockId

/-- `copy_from_user` of `count` bytes from a buffer of which `buf` is accessible:
the count of bytes not copied, and the heap. -/
def copyFromUser (heap : KHeap) (dst : Option BlockId) (start : ℕ) (buf : List UInt8)
    (count : UInt64) : UInt64 × KHeap :=
  let data := buf.take count.toNat
  (count - UInt64.ofNat data.length, heap.store dst start data)

def hasNewline (heap : KHeap) (ptr : Option BlockId) (size : UInt64) : Bool :=
  (heap.contents ptr 0 size.toNat).contains newline

/-- Memory for `count` more bytes of the pending command: `kmalloc` when its size is
zero, else `krealloc`. -/
def allocPending (k : Kernel) (count : UInt64) (g : Grant BlockId) : Kernel :=
  let entry := k.device.circleBuffEntry
  let (buffptr, heap) :=
    if 0 = entry.size then k.heap.kmalloc count.toNat g
    else k.heap.krealloc entry.buffptr (entry.size + count).toNat g
  ⟨{ k.device with circleBuffEntry := { entry with buffptr } }, heap⟩

/-- The user's bytes go behind the pending ones. -/
def copyPending (k : Kernel) (buf : List UInt8) (count : UInt64) : UInt64 × Kernel :=
  let entry := k.device.circleBuffEntry
  let (unwrittenCount, heap) := copyFromUser k.heap entry.buffptr entry.size.toNat buf count
  let retval := count - unwrittenCount
  (retval, ⟨{ k.device with circleBuffEntry := { entry with size := entry.size + retval } }, heap⟩)

/-- A pending command with a newline in it goes to the circular buffer, and the
evicted command's memory is freed. -/
def commitPending (k : Kernel) : Option BlockId × Kernel :=
  let entry := k.device.circleBuffEntry
  if hasNewline k.heap entry.buffptr entry.size then
    let (writeEntry, circleBuff) := k.device.circleBuff.addEntry entry
    (writeEntry, ⟨⟨circleBuff, .zero⟩, k.heap.kfree writeEntry⟩)
  else (none, k)

/-- `aesd_write` from the allocation to the unlock. -/
def writeLocked (k : Kernel) (buf : List UInt8) (count : UInt64) (g : Grant BlockId) : WriteOutcome :=
  let k := allocPending k count g
  if k.device.circleBuffEntry.buffptr = none then ⟨-ENOMEM, k, none⟩
  else
    let (retval, k) := copyPending k buf count
    let (freed, k) := commitPending k
    ⟨retval.toInt64, k, freed⟩

def aesdWrite (k : Kernel) (filp : Option File) (buf : Option (List UInt8)) (count : UInt64)
    (fPos : Option Int64) (env : WriteEnv) : WriteOutcome :=
  match filp, buf, fPos with
  | some _, some buf, some _ =>
    if count = 0 then ⟨0, k, none⟩
    else if env.interrupted then ⟨-ERESTARTSYS, k, none⟩
    else writeLocked k buf count env.grant
  | _, _, _ => ⟨-EFAULT, k, none⟩

structure ReadOutcome where
  retval : Int64
  /-- The bytes that reached the user. -/
  bytes : List UInt8
  fPos : Option Int64

/-- `aesd_read` into a user buffer of which `buf` bytes are accessible. -/
def aesdRead (k : Kernel) (filp : Option File) (buf : Option ℕ) (count : UInt64)
    (fPos : Option Int64) (interrupted : Bool) : ReadOutcome :=
  match filp, buf, fPos with
  | some _, some room, some pos =>
    if interrupted then ⟨-ERESTARTSYS, [], pos⟩
    else
      match k.device.circleBuff.findEntryOffsetForFpos pos.toUInt64 0 with
      | (none, _) => ⟨0, [], pos⟩
      | (some idx, readOffset) =>
        let readEntry := k.device.circleBuff.slot idx
        let count :=
          if count > readEntry.size - readOffset then readEntry.size - readOffset else count
        let copied := min count.toNat room
        let unreadCount := count - UInt64.ofNat copied
        let retval := (count - unreadCount).toInt64
        ⟨retval, k.heap.contents readEntry.buffptr readOffset.toNat copied, some (pos + retval)⟩
  | _, _, _ => ⟨-EFAULT, [], fPos⟩

def aesdCleanupModule (k : Kernel) : KHeap :=
  (List.range maxWriteOperationsSupported).foldl
    (fun heap index =>
      let entry := k.device.circleBuff.slot index
      if entry.buffptr ≠ none then heap.kfree entry.buffptr else heap)
    (k.heap.kfree k.device.circleBuffEntry.buffptr)

/-- The kernel and the position of every open file. -/
structure System where
  kernel : Kernel
  fPos : ℕ → Int64

inductive Call where
  | write (file : ℕ) (buf : Option (List UInt8)) (count : UInt64) (env : WriteEnv)
  | read (file : ℕ) (buf : Option ℕ) (count : UInt64) (interrupted : Bool)

structure Reply where
  retval : Int64
  bytes : List UInt8
  freed : Option BlockId

def System.init : System := ⟨.init, fun _ => 0⟩

/-- A system call on an open file: the kernel passes the file and its position. -/
def System.step (s : System) : Call → Reply × System
  | .write file buf count env =>
    let out := aesdWrite s.kernel (some ⟨s.fPos file⟩) buf count (some (s.fPos file)) env
    (⟨out.retval, [], out.freed⟩, { s with kernel := out.kernel })
  | .read file buf count interrupted =>
    let out := aesdRead s.kernel (some ⟨s.fPos file⟩) buf count (some (s.fPos file)) interrupted
    (⟨out.retval, out.bytes, none⟩,
      { s with fPos := Function.update s.fPos file (out.fPos.getD (s.fPos file)) })

/-- The pointer a write hands to `krealloc`; a fresh `kmalloc` has none. -/
def Kernel.oldPointer (k : Kernel) : Option BlockId :=
  if k.device.circleBuffEntry.size = 0 then none else k.device.circleBuffEntry.buffptr

/-- The allocator answers this call with a block that is free to be used. -/
def Call.GrantOk (s : System) : Call → Prop
  | .write _ _ _ env => s.kernel.heap.CanGrant s.kernel.oldPointer env.grant
  | .read .. => True

def Kernel.bytesOf (k : Kernel) (e : AesdBufferEntry) : List UInt8 :=
  k.heap.contents e.buffptr 0 e.size.toNat

def Kernel.commands (k : Kernel) : List (List UInt8) := k.device.circleBuff.active.map k.bytesOf

def Kernel.pending (k : Kernel) : List UInt8 := k.bytesOf k.device.circleBuffEntry

@[simp] theorem bytesOf_length (k : Kernel) (e : AesdBufferEntry) :
    (k.bytesOf e).length = e.size.toNat := by
  simp [Kernel.bytesOf]

theorem commands_lengths (k : Kernel) :
    k.commands.map List.length = k.device.circleBuff.active.map (·.size.toNat) := by
  simp [Kernel.commands, List.map_map, Function.comp_def]

end Aesd
