import Eris.Fs.Vfs
import Eris.Proc.Sharing

namespace Eris.Proc

open Mm Fs Function

def maxProgramBytes : ℕ := 2 ^ 20

def maxOpenFiles : ℕ := 8

def maxUserString : ℕ := 1024

structure OpenFile where
  used : Bool := false
  offset : ℕ := 0
  path : List UInt8 := []

/-- The process in whose address space a call is served. -/
structure Caller where
  id : ℕ
  space : Memory

/-- What a system call works on. -/
structure System where
  process : Option Caller
  openFiles : Fin maxOpenFiles → OpenFile
  files : Files
  monotonicNs : ℕ

/-- An access of the kernel to a byte at an address that a program handed to it. -/
structure Access where
  address : ℕ
  store : Bool
  deriving DecidableEq

/-- The end of a call: what the program finds in `number`, the open files, and the bytes at addresses of
the program that the kernel has touched. -/
structure Answer where
  number : ℕ
  openFiles : Fin maxOpenFiles → OpenFile
  touched : List Access

/-- The calls that the kernel answers, by their numbers. -/
inductive Syscall
  | exit
  | write
  | read
  | getPid
  | sleep
  | open
  | close
  | time
  deriving DecidableEq

def Syscall.ofNumber (number : ℕ) : Option Syscall :=
  [exit, write, read, getPid, sleep, .open, close, time][number]?

structure SyscallFrame where
  number : BitVec 64
  first : BitVec 64
  second : BitVec 64
  third : BitVec 64

/-- `Process::owns`. -/
def Caller.owns (process : Caller) (address length : ℕ) : Bool :=
  userBase ≤ address ∧ length ≤ maxProgramBytes ∧ process.space.translate address ≠ 0 ∧
    process.space.translate ((address + length - 1) % 2 ^ 64) ≠ 0

namespace System

variable (s : System)

def userRangeOk (address length : ℕ) : Bool :=
  s.process.any fun process ↦ length ≤ maxUserString ∧ process.owns address length

def userByte (address : ℕ) : UInt8 :=
  match s.process with
  | none => 0
  | some process => process.space.bytes (process.space.translate (address % 2 ^ 64))

def slot (handle : ℕ) : Option (Fin maxOpenFiles) :=
  let index := (2 ^ 64 - 3 + handle) % 2 ^ 64
  if h : index < maxOpenFiles then
    if (s.openFiles ⟨index, h⟩).used then some ⟨index, h⟩ else none
  else none

def accesses (store : Bool) (address n : ℕ) : List Access :=
  (List.range n).map fun i ↦ ⟨(address + i) % 2 ^ 64, store⟩

def failed (touched : List Access) : Answer := ⟨2 ^ 64 - 1, s.openFiles, touched⟩

def writes (handle length : ℕ) : ℤ × ℕ :=
  if handle = 1 ∨ handle = 2 then (length, length)
  else
    match s.slot handle with
    | none => (-1, 0)
    | some index => writeFile s.files (s.openFiles index).path length

def sysWrite (handle buffer length : ℕ) : Answer :=
  if s.userRangeOk buffer length then
    ⟨((s.writes handle length).1 % 2 ^ 64).toNat, s.openFiles, accesses false buffer (s.writes handle length).2⟩
  else s.failed []

/-- The slot and the result of a read, and the number of bytes that it stores into the buffer. -/
def reads (handle length : ℕ) : Option (Fin maxOpenFiles × ℤ × ℕ) := do
  let index ← if handle < 3 then none else s.slot handle
  let node ← (resolve (kernelText (s.openFiles index).path) s.files).1
  return (index, s.files.read node (s.openFiles index).offset length)

def sysRead (handle buffer length : ℕ) : Answer :=
  if s.userRangeOk buffer length then
    match s.reads handle length with
    | none => s.failed []
    | some (index, result, n) =>
      let file := s.openFiles index
      let offset := if 0 < result then (file.offset + result.toNat) % 2 ^ 64 else file.offset
      ⟨(result % 2 ^ 64).toNat, update s.openFiles index { file with offset := offset },
        accesses true buffer n⟩
  else s.failed []

def copyName (text : ℕ → UInt8) : ℕ → ℕ → List UInt8 → List ℕ → List UInt8 × List ℕ
  | 0, _, name, seen => (name, seen)
  | room + 1, i, name, seen =>
    if text i ≠ 0 then copyName text room (i + 1) (name ++ [text i]) (i :: seen) else (name, i :: seen)

/-- The slot that a name goes to, the name in it, and the bytes of the name that have been looked at. -/
def names (text : ℕ → UInt8) : Option (Fin maxOpenFiles × List UInt8) × List ℕ :=
  match resolve text s.files with
  | (none, seen) => (none, seen)
  | (some _, seen) =>
    match (List.finRange maxOpenFiles).find? fun i ↦ !(s.openFiles i).used with
    | none => (none, seen)
    | some index =>
      let (name, seen) := copyName text 127 0 [] seen
      (some (index, name), seen)

def sysOpen (path : ℕ) : Answer :=
  if s.userRangeOk path 1 then
    let (found, seen) := s.names fun i ↦ s.userByte (path + i)
    let touched := seen.map fun i ↦ ⟨(path + i) % 2 ^ 64, false⟩
    match found with
    | none => s.failed touched
    | some (index, name) => ⟨index + 3, update s.openFiles index ⟨true, 0, name⟩, touched⟩
  else s.failed []

def sysClose (handle : ℕ) : Answer :=
  match if handle < 3 then none else s.slot handle with
  | none => s.failed []
  | some index => ⟨0, update s.openFiles index { s.openFiles index with used := false }, []⟩

/-- `syscall_dispatch`. A call of exit does not come back to the program. -/
def syscallDispatch (frame : SyscallFrame) : Answer :=
  match Syscall.ofNumber frame.number.toNat with
  | some .exit => ⟨frame.number.toNat, s.openFiles, []⟩
  | some .write => s.sysWrite frame.first.toNat frame.second.toNat frame.third.toNat
  | some .read => s.sysRead frame.first.toNat frame.second.toNat frame.third.toNat
  | some .getPid => ⟨(s.process.map (·.id)).getD 0, s.openFiles, []⟩
  | some .sleep => ⟨0, s.openFiles, []⟩
  | some .open => s.sysOpen frame.first.toNat
  | some .close => s.sysClose frame.first.toNat
  | some .time => ⟨s.monotonicNs, s.openFiles, []⟩
  | none => s.failed []

end System

def canonical (a : ℕ) : Prop := a < 2 ^ 47 ∨ 2 ^ 64 - 2 ^ 47 ≤ a

def permits (m : Memory) (store : Bool) (a : ℕ) : Bool := (m.rights a).any fun r ↦ !store || r.write

def Access.Allowed (x : Access) (m : Memory) : Prop :=
  canonical x.address ∧ userBase ≤ x.address ∧ permits m x.store x.address = true

/-- Some bytes lie in one half of the address space, with no address between the halves. -/
def canonicalRange (a n : ℕ) : Prop := a + n ≤ 2 ^ 47 ∨ 2 ^ 64 - 2 ^ 47 ≤ a ∧ a + n ≤ 2 ^ 64

def permitsAfter (m : Memory) (store : Bool) (a n : ℕ) : Prop :=
  ∀ p, a < p * pageSize → p * pageSize < a + n → permits m store (p * pageSize) = true

section

variable {m : Memory} {a b n : ℕ} {store : Bool}

theorem indexOf_congr (h : a / pageSize = b / pageSize) (level : ℕ) : indexOf a level = indexOf b level := by
  have hsplit : ∀ x, x / 2 ^ (12 + 9 * level) = x / pageSize / 2 ^ (9 * level) := fun x ↦ by
    rw [pow_add, ← Nat.div_div_eq_div_mul]
    rfl
  rw [indexOf, indexOf, hsplit, hsplit, h]

theorem rights_eq_of_page (h : a / pageSize = b / pageSize) (m : Memory) : m.rights a = m.rights b := by
  have hfrom : ∀ level f r, m.rightsFrom a level f r = m.rightsFrom b level f r := by
    intro level
    induction level with
    | zero =>
      intro f r
      rw [Memory.rightsFrom, Memory.rightsFrom, indexOf_congr h]
    | succ level ih =>
      intro f r
      rw [Memory.rightsFrom, Memory.rightsFrom, indexOf_congr h]
      simp only [ih]
  exact hfrom 3 _ _

theorem permits_congr (h : a / pageSize = b / pageSize) : permits m store a = permits m store b := by
  rw [permits, permits, rights_eq_of_page h]

theorem permits_of_translate (h : m.translate a ≠ 0) : permits m false a = true := by
  have hfrom : ∀ level f r, m.translateFrom a level f ≠ 0 → (m.rightsFrom a level f r).isSome = true := by
    intro level
    induction level with
    | zero =>
      intro f r hne
      rw [Memory.rightsFrom]
      by_cases hp : (m.entry f (indexOf a 0)).present
      · rw [if_pos hp]
        rfl
      · exact absurd (if_neg hp) hne
    | succ level ih =>
      intro f r hne
      rw [Memory.translateFrom] at hne
      rw [Memory.rightsFrom]
      by_cases hp : (m.entry f (indexOf a (level + 1))).present
      · simp only [if_pos hp] at hne ⊢
        split
        · rfl
        · rename_i hh
          rw [if_neg hh] at hne
          exact ih _ _ hne
      · exact absurd (if_neg hp) hne
  obtain ⟨r, hr⟩ := Option.isSome_iff_exists.mp (hfrom 3 m.root ⟨true, true, false⟩ h)
  rw [permits, Memory.rights, hr]
  rfl

theorem permits_within {i : ℕ} (hfirst : permits m store a = true) (hafter : permitsAfter m store a n) (hi : i < n) :
    permits m store (a + i) = true := by
  by_cases hsame : (a + i) / pageSize = a / pageSize
  · rwa [permits_congr hsame]
  · have hle := Nat.div_mul_le_self (a + i) pageSize
    have hnext : (a + i) / pageSize * pageSize / pageSize = (a + i) / pageSize :=
      Nat.mul_div_cancel _ (by decide)
    rw [← permits_congr hnext]
    refine hafter _ ?_ (by omega)
    have hlt := lt_of_le_of_ne (Nat.div_le_div_right (Nat.le_add_right a i)) (Ne.symm hsame)
    exact (Nat.div_lt_iff_lt_mul (by decide)).mp hlt

theorem accesses_allowed_iff (ha : a < 2 ^ 64) (hn : n ≠ 0) :
    (∀ i < n, Access.Allowed ⟨(a + i) % 2 ^ 64, store⟩ m) ↔
      userBase ≤ a ∧ canonicalRange a n ∧ permits m store a = true ∧ permitsAfter m store a n := by
  constructor
  · intro h
    obtain ⟨-, hbase, hfirst⟩ := h 0 (by omega)
    simp only [Nat.add_zero, Nat.mod_eq_of_lt ha] at hbase hfirst
    -- an address past the last one is one of the kernel's
    have hend : a + n ≤ 2 ^ 64 := by
      by_contra hlt
      obtain ⟨-, hlow, -⟩ := h (2 ^ 64 - a) (by omega)
      simp only [userBase] at hlow
      omega
    have hmod : ∀ i < n, (a + i) % 2 ^ 64 = a + i := fun i hi ↦ Nat.mod_eq_of_lt (by omega)
    refine ⟨hbase, ?_, hfirst, fun p hlo hhi ↦ ?_⟩
    · obtain ⟨hcan, -, -⟩ := h 0 (by omega)
      simp only [hmod 0 (by omega)] at hcan
      rcases hcan with hlow | hhigh
      · left
        by_contra hlt
        obtain ⟨hmid, -, -⟩ := h (2 ^ 47 - a) (by omega)
        simp only [hmod (2 ^ 47 - a) (by omega), canonical] at hmid
        omega
      · exact .inr ⟨hhigh, hend⟩
    · obtain ⟨-, -, hp⟩ := h (p * pageSize - a) (by omega)
      simp only [hmod (p * pageSize - a) (by omega)] at hp
      rwa [Nat.add_sub_cancel' hlo.le] at hp
  · rintro ⟨hbase, hrange, hfirst, hafter⟩ i hi
    have hmod : (a + i) % 2 ^ 64 = a + i := by
      apply Nat.mod_eq_of_lt
      rcases hrange with h | h <;> omega
    refine ⟨?_, ?_, ?_⟩ <;> simp only [hmod]
    · rcases hrange with h | h
      · exact .inl (by omega)
      · exact .inr (by omega)
    · omega
    · exact permits_within hfirst hafter hi

end

namespace System

variable {s : System} {a n length : ℕ}

theorem mem_accesses {store : Bool} {x : Access} :
    x ∈ accesses store a n ↔ ∃ i < n, x = ⟨(a + i) % 2 ^ 64, store⟩ := by
  simp [accesses, eq_comm]

theorem userRangeOk_spec (h : s.userRangeOk a length = true) :
    ∃ process, s.process = some process ∧ userBase ≤ a ∧ permits process.space false a = true ∧
      ∀ n ≤ length, canonicalRange a n → permitsAfter process.space false a n := by
  obtain ⟨process, hprocess, hok⟩ := (Option.any_eq_true _ _).mp h
  obtain ⟨hlen, hbase, -, hfirst, hlast⟩ : length ≤ maxUserString ∧ userBase ≤ a ∧ length ≤ maxProgramBytes ∧
      process.space.translate a ≠ 0 ∧ process.space.translate ((a + length - 1) % 2 ^ 64) ≠ 0 := by
    simpa [Caller.owns] using hok
  refine ⟨process, hprocess, hbase, permits_of_translate hfirst, fun n hn hrange p hlo hhi ↦ ?_⟩
  rw [← permits_of_translate hlast]
  apply permits_congr
  unfold canonicalRange maxUserString pageSize at *
  omega

theorem copyName_front (text : ℕ → UInt8) {seen : List ℕ} {i : ℕ} (room : ℕ) (name : List UInt8) (h : Front seen n)
    (hi : i ≤ n) : ∃ n' ≥ n, Front (copyName text room i name seen).2 n' := by
  fun_induction copyName text room i name seen generalizing n with
  | case1 i name seen => exact ⟨n, le_rfl, h⟩
  | case2 room i name seen hmore ih =>
    exact exists_ge_mono (le_max_left _ _) (ih (h.look hi) (le_max_right _ _))
  | case3 room i name seen hend => exact ⟨_, le_max_left _ _, h.look hi⟩

theorem names_front (s : System) (text : ℕ → UInt8) : ∃ n ≥ 1, Front (s.names text).2 n := by
  obtain ⟨n, hn, hfront⟩ := resolve_front text s.files
  rw [names]
  split
  · rename_i seen heq
    rw [heq] at hfront
    exact ⟨n, hn, hfront⟩
  · rename_i node seen heq
    rw [heq] at hfront
    split
    · exact ⟨n, hn, hfront⟩
    · obtain ⟨n', hn', hrest⟩ := copyName_front text 127 [] hfront (Nat.zero_le n)
      exact ⟨n', by omega, hrest⟩

/-- The number of bytes of a name that `open` looks at. -/
def nameExtent (s : System) (path : ℕ) : ℕ := extent (s.names fun i ↦ s.userByte (path + i)).2

theorem mem_touched_sysOpen {x : Access} (h : s.userRangeOk a 1 = true) :
    x ∈ (s.sysOpen a).touched ↔ x ∈ accesses false a (s.nameExtent a) := by
  have htouched : (s.sysOpen a).touched =
      (s.names fun i ↦ s.userByte (a + i)).2.map fun i ↦ ⟨(a + i) % 2 ^ 64, false⟩ := by
    rw [sysOpen, if_pos h]
    cases hnames : s.names fun i ↦ s.userByte (a + i) with
    | mk found seen => cases found <;> rfl
  obtain ⟨n, -, hfront⟩ := s.names_front fun i ↦ s.userByte (a + i)
  rw [htouched, mem_accesses, nameExtent, hfront.extent_eq]
  simp [hfront _, eq_comm]

/-- A frame for which the kernel keeps to the bytes of the program. The check of a range forgets the halves of
the address space and, for a store, the right to write; the check of a name ends after its first byte. -/
def Sound (s : System) (frame : SyscallFrame) : Prop :=
  match Syscall.ofNumber frame.number.toNat with
  | some .write => s.userRangeOk frame.second.toNat frame.third.toNat = true →
    (s.writes frame.first.toNat frame.third.toNat).2 = 0 ∨
      canonicalRange frame.second.toNat (s.writes frame.first.toNat frame.third.toNat).2
  | some .read => ∀ process ∈ s.process, ∀ read ∈ s.reads frame.first.toNat frame.third.toNat,
    s.userRangeOk frame.second.toNat frame.third.toNat = true → read.2.2 = 0 ∨
      canonicalRange frame.second.toNat read.2.2 ∧ permits process.space true frame.second.toNat = true ∧
        permitsAfter process.space true frame.second.toNat read.2.2
  | some .open => ∀ process ∈ s.process, s.userRangeOk frame.first.toNat 1 = true →
    canonicalRange frame.first.toNat (s.nameExtent frame.first.toNat) ∧
      permitsAfter process.space false frame.first.toNat (s.nameExtent frame.first.toNat)
  | _ => True

def Allowed (s : System) (answer : Answer) : Prop :=
  ∀ x ∈ answer.touched, ∃ process ∈ s.process, x.Allowed process.space

theorem allowed_accesses {process : Caller} (hprocess : s.process = some process) (ha : a < 2 ^ 64)
    (hbase : userBase ≤ a) (store : Bool) :
    (∀ x ∈ accesses store a n, ∃ process ∈ s.process, x.Allowed process.space) ↔
      n = 0 ∨ canonicalRange a n ∧ permits process.space store a = true ∧ permitsAfter process.space store a n := by
  have hall : (∀ x ∈ accesses store a n, ∃ process ∈ s.process, x.Allowed process.space) ↔
      ∀ i < n, Access.Allowed ⟨(a + i) % 2 ^ 64, store⟩ process.space := by
    simp only [mem_accesses, hprocess, Option.mem_some_iff, exists_eq_left']
    constructor
    · exact fun h i hi ↦ h _ ⟨i, hi, rfl⟩
    · rintro h x ⟨i, hi, rfl⟩
      exact h i hi
  rw [hall]
  by_cases hn : n = 0
  · simp [hn]
  · rw [accesses_allowed_iff ha hn]
    simp [hn, hbase]

theorem writeFile_le (files : Files) (path : List UInt8) (length : ℕ) : (writeFile files path length).2 ≤ length := by
  rw [writeFile]
  split
  · exact Nat.zero_le _
  · split
    · exact Nat.zero_le _
    · exact files.write_le _ _ _

theorem writes_le (s : System) (handle length : ℕ) : (s.writes handle length).2 ≤ length := by
  rw [writes]
  split
  · exact le_rfl
  · split
    · exact Nat.zero_le _
    · exact writeFile_le _ _ _

theorem sysWrite_allowed_iff (s : System) (handle : ℕ) (ha : a < 2 ^ 64) (length : ℕ) :
    s.Allowed (s.sysWrite handle a length) ↔ (s.userRangeOk a length = true →
      (s.writes handle length).2 = 0 ∨ canonicalRange a (s.writes handle length).2) := by
  rw [sysWrite]
  by_cases hok : s.userRangeOk a length = true
  · obtain ⟨process, hprocess, hbase, hfirst, hafter⟩ := userRangeOk_spec hok
    rw [if_pos hok, Allowed, allowed_accesses hprocess ha hbase]
    simp only [hok, hfirst, true_and, true_implies]
    exact or_congr_right (and_iff_left_of_imp (hafter _ (s.writes_le handle length)))
  · simp [Allowed, failed, hok]

theorem sysRead_allowed_iff (s : System) (handle : ℕ) (ha : a < 2 ^ 64) (length : ℕ) :
    s.Allowed (s.sysRead handle a length) ↔ ∀ process ∈ s.process, ∀ read ∈ s.reads handle length,
      s.userRangeOk a length = true → read.2.2 = 0 ∨ canonicalRange a read.2.2 ∧
        permits process.space true a = true ∧ permitsAfter process.space true a read.2.2 := by
  rw [sysRead]
  by_cases hok : s.userRangeOk a length = true
  · obtain ⟨process, hprocess, hbase, -⟩ := userRangeOk_spec hok
    rw [if_pos hok]
    cases hread : s.reads handle length with
    | none => simp [Allowed, failed]
    | some read =>
      rw [Allowed, allowed_accesses hprocess ha hbase]
      simp [hprocess, hok]
  · simp [Allowed, failed, hok]

theorem sysOpen_allowed_iff (s : System) (ha : a < 2 ^ 64) :
    s.Allowed (s.sysOpen a) ↔ ∀ process ∈ s.process, s.userRangeOk a 1 = true →
      canonicalRange a (s.nameExtent a) ∧ permitsAfter process.space false a (s.nameExtent a) := by
  by_cases hok : s.userRangeOk a 1 = true
  · obtain ⟨process, hprocess, hbase, hfirst, -⟩ := userRangeOk_spec hok
    have hpos : s.nameExtent a ≠ 0 := by
      obtain ⟨n, hn, hfront⟩ := s.names_front fun i ↦ s.userByte (a + i)
      rw [nameExtent, hfront.extent_eq]
      omega
    simp only [Allowed, mem_touched_sysOpen hok]
    rw [allowed_accesses hprocess ha hbase]
    simp [hprocess, hok, hfirst, hpos]
  · simp [Allowed, sysOpen, failed, hok]

/-- A program of one read only page whose last byte is a slash, the type of a segment that is not loaded. -/
def slashProgram : Program :=
  .ofSegments [{ type := 1, flags := 5, offset := 120, virtualAddress := userBase + 0x1fff, fileSize := 1, memorySize := 1 },
    { type := 0x2F, flags := 0, offset := 0, virtualAddress := 0, fileSize := 0, memorySize := 0 }]

def slashCaller : Caller where
  id := 1
  space := (load slashProgram Memory.booted {}).1.under (load slashProgram Memory.booted {}).2.1.root

def slashSystem : System where
  process := some slashCaller
  openFiles index := if index.val = 0 then { used := true, path := [slash, 0x61] } else {}
  files :=
    { mounts := [⟨[slash], some 0⟩]
      type := fun node ↦ if node = 0 then .directory else .file
      lookup := fun _ name ↦ if name = [0x61] then some 1 else none
      read := fun _ _ length ↦ (length, length)
      write := fun _ _ length ↦ (length, length)
      read_le := fun _ _ _ ↦ le_rfl
      write_le := fun _ _ _ ↦ le_rfl }
  monotonicNs := 0

theorem userRangeOk_mapped (hend : a + length ≤ 2 ^ 47) (h : s.userRangeOk a length = true) :
    ∃ process, s.process = some process ∧
      ∀ b, a ≤ b → b < a + length → (process.space.rights b).isSome = true := by
  obtain ⟨process, hprocess, -, hfirst, hafter⟩ := userRangeOk_spec h
  refine ⟨process, hprocess, fun b hlo hhi ↦ ?_⟩
  obtain ⟨i, rfl⟩ := Nat.exists_eq_add_of_le hlo
  have hpage := permits_within hfirst (hafter length le_rfl (.inl hend)) (Nat.lt_of_add_lt_add_left hhi)
  exact Option.isSome_of_any hpage

theorem userRangeOk_mapped_slash : slashSystem.userRangeOk 0x8000001c00 1024 = true ∧
    ∃ process, slashSystem.process = some process ∧
      ∀ b, 0x8000001c00 ≤ b → b < 0x8000001c00 + 1024 → (process.space.rights b).isSome = true := by
  have hok : slashSystem.userRangeOk 0x8000001c00 1024 = true := by decide +kernel
  exact ⟨hok, userRangeOk_mapped (by decide) hok⟩

end System

end Eris.Proc
