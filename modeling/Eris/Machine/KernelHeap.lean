import Eris.Library.Blocks
import Eris.Machine.Operations

namespace Eris.Machine

open Library.Blocks Mm Mm.Memory

def alignment : ℕ := 16

def alignUp (value : ℕ) : ℕ := (value + alignment - 1) / alignment * alignment

/-- The heap with its blocks. The headers are read by address, and zero stands for the null pointer. -/
structure KernelHeap extends Heap where
  headers : ℕ → Header
  head : ℕ
  tail : ℕ
  used : ℕ

namespace KernelHeap

def write (block : ℕ) (f : Header → Header) (k : KernelHeap) : KernelHeap :=
  { k with headers := Function.update k.headers block (f (k.headers block)) }

/-- The neighbour of `block` on the right is told where its left neighbour lies now. -/
def relink (right block : ℕ) (k : KernelHeap) : KernelHeap :=
  if right ≠ 0 then k.write right fun x ↦ { x with prev := block } else { k with tail := block }

def split (block size : ℕ) (k : KernelHeap) : KernelHeap :=
  let remaining := (k.headers block).size - size
  if remaining < blockHeaderSize + alignment then k
  else
    let next := block + blockHeaderSize + size
    let right := (k.headers block).next
    ((k.write next fun _ ↦ ⟨remaining - blockHeaderSize, true, right, block⟩).relink right next).write block
      fun x ↦ { x with next := next, size := size }

/-- Both halves of `merge` let a block swallow the one after it. -/
def swallow (block victim : ℕ) (k : KernelHeap) : KernelHeap :=
  let right := (k.headers victim).next
  (k.write block fun x ↦ { x with size := x.size + (blockHeaderSize + (k.headers victim).size), next := right }).relink
    right block

def mergeNext (block : ℕ) (k : KernelHeap) : KernelHeap :=
  let next := (k.headers block).next
  if next ≠ 0 ∧ (k.headers next).free = true then k.swallow block next else k

def mergePrev (block : ℕ) (k : KernelHeap) : KernelHeap :=
  let previous := (k.headers block).prev
  if previous ≠ 0 ∧ (k.headers previous).free = true then k.swallow previous block else k

def merge (block : ℕ) (k : KernelHeap) : KernelHeap := (k.mergeNext block).mergePrev block

/-- The block that `grow` makes of the bytes it commits. -/
def append (block step : ℕ) (k : KernelHeap) : KernelHeap :=
  let k := { k with
    headers := Function.update k.headers block ⟨step - blockHeaderSize, true, 0, k.tail⟩ }
  let k := if k.tail ≠ 0 then k.write k.tail fun x ↦ { x with next := block } else k
  { k with tail := block, head := if k.head = 0 then block else k.head }

/-- The rest of `grow`, once the pages are mapped or could not be. -/
def grown (wanted : ℕ) (k : KernelHeap) : Heap × Memory × Bool → KernelHeap × Memory × Bool
  | (_, m, false) => (k, m, false)
  | (heap, m, true) =>
    let block := k.base + k.committed
    (merge block { k.append block (growth wanted) with toHeap := heap }, m, true)

def grow (wanted : ℕ) (m : Memory) (k : KernelHeap) : KernelHeap × Memory × Bool :=
  k.grown wanted (Machine.grow wanted k.toHeap m)

def empty (base : ℕ) : KernelHeap := ⟨⟨base, 0⟩, fun _ ↦ ⟨0, false, 0, 0⟩, 0, 0, 0⟩

/-- `none` where the kernel panics. -/
def heapInit (m : Memory) : Option (KernelHeap × Memory) :=
  let reserved := m.vmalloc.reserve heapReserved
  let out := (empty reserved.2).grow pageSize { m with vmalloc := reserved.1 }
  if reserved.2 = 0 ∨ out.2.2 = false then none else some (out.1, out.2.1)

/-- The loop of `kmalloc` over the blocks. The first argument bounds the number of rounds. -/
def firstFit (headers : ℕ → Header) (wanted : ℕ) : ℕ → ℕ → Option ℕ
  | 0, _ => none
  | rounds + 1, block =>
    if block = 0 then none
    else if (headers block).free = false ∨ (headers block).size < wanted then
      firstFit headers wanted rounds (headers block).next
    else some block

/-- One attempt. Every block takes part of the committed bytes, so that there are no more rounds than bytes. -/
def attempt (wanted : ℕ) (k : KernelHeap) : Option (KernelHeap × ℕ) :=
  (firstFit k.headers wanted k.committed k.head).map fun block ↦
    let k := (k.split block wanted).write block fun x ↦ { x with free := false }
    ({ k with used := k.used + (k.headers block).size }, block + blockHeaderSize)

def kmalloc (size : ℕ) (m : Memory) (k : KernelHeap) : KernelHeap × Memory × ℕ :=
  if size = 0 ∨ heapReserved < size then (k, m, 0)
  else
    match k.attempt (alignUp size) with
    | some (k, pointer) => (k, m, pointer)
    | none =>
      match k.grow (alignUp size) m with
      | (k, m, false) => (k, m, 0)
      | (k, m, true) =>
        match k.attempt (alignUp size) with
        | some (k, pointer) => (k, m, pointer)
        | none =>
          let grown := k.grow (alignUp size) m
          (grown.1, grown.2.1, 0)

def kfree (pointer : ℕ) (k : KernelHeap) : KernelHeap :=
  if pointer = 0 then k
  else
    let block := pointer - blockHeaderSize
    if (k.headers block).free = true then k
    else
      let used := k.used - (k.headers block).size
      merge block { k.write block fun x ↦ { x with free := true } with used := used }

end KernelHeap

end Eris.Machine
