import DiffCar.Lib.Segments

/-!
# Mem — the heap of the kernel

`rt-thread/src/mem.c` on a machine of 32 bits with `RT_ALIGN_SIZE` 4 and
without `RT_USING_MEMTRACE`: a `struct heap_mem` of 12 bytes in front of each
block, linked to the next and to the previous one by offsets from `heap_ptr`.
Pointers into the heap are such offsets here. The semaphore `heap_sem` keeps
the threads apart, so a call is one step.

The loops take a bound on their rounds; they have no result when it runs out.
`RT_ASSERT` stops the system, so there is no result either when one fails.
-/

namespace DiffCar

/-- `HEAP_MAGIC` -/
def heapMagic : ℕ := 0x1ea0

/-- `struct heap_mem` -/
structure HeapMem where
  magic : ℕ
  used : Bool
  next : ℕ
  prev : ℕ

/-- The headers by their offsets, and the variables of `mem.c`. -/
structure Heap where
  mem : ℕ → HeapMem
  lfree : ℕ
  memSizeAligned : ℕ
  usedMem : ℕ
  maxMem : ℕ

/-- `SIZEOF_STRUCT_MEM` -/
def sizeofStructMem : ℕ := 12

/-- `MIN_SIZE_ALIGNED` -/
def minSizeAligned : ℕ := 12

/-- `RT_ALIGN(size, RT_ALIGN_SIZE)`, in 32 bits. -/
def rtAlignWord (size : ℕ) : ℕ := (size + 3) % 2 ^ 32 / 4 * 4

/-- `a - b` in 32 bits. -/
def sub32 (a b : ℕ) : ℕ := (a + 2 ^ 32 - b) % 2 ^ 32

namespace Heap

/-- `heap_end`, as an offset. -/
def heapEnd (h : Heap) : ℕ := h.memSizeAligned + sizeofStructMem

/-- A store to a header. -/
def set (h : Heap) (ptr : ℕ) (m : HeapMem) : Heap :=
  { h with mem := Function.update h.mem ptr m }

def setNext (h : Heap) (ptr next : ℕ) : Heap := h.set ptr { h.mem ptr with next := next }

def setPrev (h : Heap) (ptr prev : ℕ) : Heap := h.set ptr { h.mem ptr with prev := prev }

def setUsed (h : Heap) (ptr : ℕ) (used : Bool) : Heap :=
  h.set ptr { h.mem ptr with magic := heapMagic, used := used }

/-- `used_mem += size` and what is made of `max_mem`. -/
def addUsed (h : Heap) (size : ℕ) : Heap :=
  { h with usedMem := h.usedMem + size, maxMem := max h.maxMem (h.usedMem + size) }

end Heap

/-- `rt_system_heap_init`, `none` when the memory is too small. -/
def rtSystemHeapInit (beginAddr endAddr : ℕ) : Option Heap :=
  let beginAlign := rtAlignWord beginAddr
  let endAlign := endAddr / 4 * 4
  if 2 * sizeofStructMem < endAlign ∧ beginAlign ≤ endAlign - 2 * sizeofStructMem then
    let size := endAlign - beginAlign - 2 * sizeofStructMem
    let mem : ℕ → HeapMem := fun ptr =>
      if ptr = 0 then ⟨heapMagic, false, size + sizeofStructMem, 0⟩
      else ⟨heapMagic, true, size + sizeofStructMem, size + sizeofStructMem⟩
    some ⟨mem, 0, size, 0, 0⟩
  else none

/-! ## `rt_malloc` -/

/-- The loop of `rt_malloc`: the block it takes, if there is one. -/
def findBlock (h : Heap) (size : ℕ) : ℕ → ℕ → Option (Option ℕ)
  | 0, _ => none
  | fuel + 1, ptr =>
      if ptr < sub32 h.memSizeAligned size then
        let mem := h.mem ptr
        if !mem.used && decide (size ≤ sub32 mem.next (ptr + sizeofStructMem)) then
          some (some ptr)
        else findBlock h size fuel mem.next
      else some none

/-- What `rt_malloc` does to the block it takes. -/
def takeBlock (h : Heap) (size ptr : ℕ) : Heap :=
  let mem := h.mem ptr
  if size + sizeofStructMem + minSizeAligned ≤ sub32 mem.next (ptr + sizeofStructMem) then
    let ptr2 := ptr + sizeofStructMem + size
    let h := h.set ptr2 ⟨heapMagic, false, mem.next, ptr⟩
    let h := (h.setNext ptr ptr2).setUsed ptr true
    let h := if mem.next ≠ h.heapEnd then h.setPrev mem.next ptr2 else h
    h.addUsed (size + sizeofStructMem)
  else (h.setUsed ptr true).addUsed (sub32 mem.next ptr)

/-- "Find next free block after mem". -/
def nextFree (h : Heap) : ℕ → ℕ → Option ℕ
  | 0, _ => none
  | fuel + 1, ptr =>
      if (h.mem ptr).used && decide (ptr ≠ h.heapEnd) then nextFree h fuel (h.mem ptr).next
      else some ptr

/-- `rt_malloc`: the heap and the pointer it returns. -/
def rtMalloc (h : Heap) (size : ℕ) : Option (Heap × Option ℕ) :=
  if size = 0 then some (h, none)
  else
    let size := rtAlignWord size
    if h.memSizeAligned < size then some (h, none)
    else
      let size := if size < minSizeAligned then minSizeAligned else size
      (findBlock h size (h.heapEnd + 1) h.lfree).bind fun
        | none => some (h, none)
        | some ptr =>
            let t := takeBlock h size ptr
            -- the assertions, `heap_ptr` itself being aligned
            if ptr + sizeofStructMem + size ≤ t.heapEnd ∧ ptr % 4 = 0 then
              if ptr = t.lfree then
                (nextFree t (t.heapEnd + 1) t.lfree).map fun lfree =>
                  ({ t with lfree := lfree }, some (ptr + sizeofStructMem))
              else some (t, some (ptr + sizeofStructMem))
            else none

/-- `rt_memset(s, 0, count)`: headers that begin among the bytes are lost. It
does not return when the bytes go over the end of the heap; `rt_calloc` asks
for that only with nearly all there are of addresses. -/
def rtMemset (h : Heap) (s count : ℕ) : Option Heap :=
  if s + count ≤ h.heapEnd then
    some { h with
      mem := fun ptr => if s ≤ ptr ∧ ptr < s + count then ⟨0, false, 0, 0⟩ else h.mem ptr }
  else none

/-- `rt_calloc` -/
def rtCalloc (h : Heap) (count size : ℕ) : Option (Heap × Option ℕ) :=
  (rtMalloc h (count * size % 2 ^ 32)).bind fun
    | (h, none) => some (h, none)
    | (h, some p) => (rtMemset h p (count * size % 2 ^ 32)).map fun h => (h, some p)

/-! ## `rt_free` -/

/-- `plug_holes` forward. -/
def plugForward (h : Heap) (mem : ℕ) : Heap :=
  let nmem := (h.mem mem).next
  if mem ≠ nmem ∧ (h.mem nmem).used = false ∧ nmem ≠ h.heapEnd then
    let h := if h.lfree = nmem then { h with lfree := mem } else h
    let next := (h.mem nmem).next
    (h.setNext mem next).setPrev next mem
  else h

/-- `plug_holes` backward. -/
def plugBackward (h : Heap) (mem : ℕ) : Heap :=
  let pmem := (h.mem mem).prev
  if pmem ≠ mem ∧ (h.mem pmem).used = false then
    let h := if h.lfree = mem then { h with lfree := pmem } else h
    let next := (h.mem mem).next
    (h.setNext pmem next).setPrev next pmem
  else h

/-- `plug_holes` -/
def plugHoles (h : Heap) (mem : ℕ) : Heap := plugBackward (plugForward h mem) mem

/-- `rt_free` -/
def rtFree (h : Heap) (rmem : ℕ) : Option Heap :=
  let mem := rmem - sizeofStructMem
  -- the assertions, those of `plug_holes` among them
  if rmem % 4 = 0 ∧ rmem < h.heapEnd ∧ (h.mem mem).used = true
      ∧ (h.mem mem).magic = heapMagic ∧ sizeofStructMem ≤ rmem then
    let h := h.setUsed mem false
    let h := if mem < h.lfree then { h with lfree := mem } else h
    let h := { h with usedMem := sub32 h.usedMem (sub32 (h.mem mem).next mem) }
    some (plugHoles h mem)
  else none

end DiffCar
