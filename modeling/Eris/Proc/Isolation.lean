import Eris.Proc.Syscall

namespace Eris.Proc

open Mm Fs Function Option

/-- What a call asks of the file systems. -/
inductive Request
  | stat (text : ℕ → UInt8)
  | read (path : List UInt8) (offset length : ℕ)
  | write (path text : List UInt8)

def System.request (s : System) (frame : SyscallFrame) : Option Request :=
  let first := frame.first.toNat
  let second := frame.second.toNat
  let third := frame.third.toNat
  match Syscall.ofNumber frame.number.toNat with
  | some .write =>
    if s.userRangeOk second third ∧ first ≠ 1 ∧ first ≠ 2 then
      (s.slot first).map fun i ↦ .write (s.openFiles i).path ((List.range third).map fun k ↦ s.userByte (second + k))
    else none
  | some .read =>
    if s.userRangeOk second third ∧ 3 ≤ first then
      (s.slot first).map fun i ↦ .read (s.openFiles i).path (s.openFiles i).offset third
    else none
  | some .open => if s.userRangeOk first 1 then some (.stat fun k ↦ s.userByte (first + k)) else none
  | _ => none

/-- The file systems with a state of their own: what they answer, the bytes that a request puts into the buffer,
and what it leaves behind. -/
structure Storage (σ : Type) where
  files : σ → Files
  stored : σ → Request → List UInt8
  after : σ → Request → σ

def Storage.Alike {σ : Type} (fs : Storage σ) (a b : σ) : Prop :=
  ∀ requests : List Request, fs.files (requests.foldl fs.after a) = fs.files (requests.foldl fs.after b) ∧
    fs.stored (requests.foldl fs.after a) = fs.stored (requests.foldl fs.after b)

/-- What stays in the kernel when a program is gone. -/
structure Kernel (σ : Type) where
  openFiles : Fin maxOpenFiles → OpenFile
  storage : σ

/-- What a program gets back from a call. -/
structure Reply where
  number : ℕ
  stored : List UInt8
  deriving DecidableEq

/-- A program goes by the replies that it has got. It has some memory when it makes its next call, or it is gone. -/
abbrev Behaviour := List Reply → Option (Memory × SyscallFrame)

namespace Kernel

variable {σ : Type} (fs : Storage σ)

def system (k : Kernel σ) (process : Caller) (now : ℕ) : System := ⟨some process, k.openFiles, fs.files k.storage, now⟩

def serve (process : Caller) (now : ℕ) (frame : SyscallFrame) (k : Kernel σ) : Reply × Kernel σ :=
  let s := k.system fs process now
  (⟨(s.syscallDispatch frame).number, ((s.request frame).map (fs.stored k.storage)).getD []⟩,
    ⟨(s.syscallDispatch frame).openFiles, (s.request frame).elim k.storage (fs.after k.storage)⟩)

/-- The replies to the calls of a program, `n` at most, and the kernel after them. -/
def run (id : ℕ) (clock : ℕ → ℕ) (program : Behaviour) : ℕ → Kernel σ → List Reply × Kernel σ
  | 0, k => ([], k)
  | n + 1, k =>
    let (seen, k) := run id clock program n k
    match program seen with
    | none => (seen, k)
    | some (space, frame) =>
      if Syscall.ofNumber frame.number.toNat = some .exit then (seen, k)
      else
        let (reply, k) := k.serve fs ⟨id, space⟩ (clock n) frame
        (seen ++ [reply], k)

/-- A new process has no valid handle: there is none that it can close. -/
def NoHandle (k : Kernel σ) : Prop :=
  ∀ process now handle, (k.serve fs process now ⟨6, handle, 0, 0⟩).1.number = 2 ^ 64 - 1

/-- No program can tell two kernels apart, and it finds no handle in either. -/
structure Isolated (k k' : Kernel σ) : Prop where
  replies : ∀ id clock program n, (k.run fs id clock program n).1 = (k'.run fs id clock program n).1
  noHandle : k.NoHandle fs
  noHandle' : k'.NoHandle fs

end Kernel

def SameOpen (t t' : Fin maxOpenFiles → OpenFile) : Prop :=
  ∀ i, (t i).used = (t' i).used ∧ ((t i).used = true → t i = t' i)

section Same

variable {t t' : Fin maxOpenFiles → OpenFile}

theorem SameOpen.update (h : SameOpen t t') (i : Fin maxOpenFiles) (file : OpenFile) :
    SameOpen (Function.update t i file) (Function.update t' i file) := by
  intro j
  by_cases hj : j = i
  · rw [hj, update_self, update_self]
    exact ⟨rfl, fun _ ↦ rfl⟩
  · rw [update_of_ne hj, update_of_ne hj]
    exact h j

end Same

namespace System

variable {s : System} {t : Fin maxOpenFiles → OpenFile} {handle : ℕ} {i : Fin maxOpenFiles}

theorem used_of_slot (h : s.slot handle = some i) : (s.openFiles i).used = true := by
  obtain ⟨hlt, hslot⟩ := dite_none_right_eq_some.mp h
  obtain ⟨hused, hi⟩ := ite_none_right_eq_some.mp hslot
  rwa [← Option.some.inj hi]

theorem slot_eq_some (hused : (s.openFiles i).used = true) : s.slot (i + 3) = some i := by
  have hindex : (2 ^ 64 - 3 + (i.val + 3)) % 2 ^ 64 = i.val := by
    have := i.isLt
    unfold maxOpenFiles at this
    omega
  rw [slot]
  simp only [hindex, i.isLt, dif_pos, Fin.eta, hused, if_true]

def withOpen (s : System) (t : Fin maxOpenFiles → OpenFile) : System := { s with openFiles := t }

theorem userRangeOk_withOpen (address length : ℕ) : (s.withOpen t).userRangeOk address length = s.userRangeOk address length :=
  rfl

theorem userByte_withOpen (address : ℕ) : (s.withOpen t).userByte address = s.userByte address := rfl

variable (h : SameOpen s.openFiles t)

include h

theorem slot_withOpen (handle : ℕ) : (s.withOpen t).slot handle = s.slot handle := by
  rw [slot, slot, withOpen]
  simp only [fun i ↦ (h i).1]

theorem file_withOpen (hslot : s.slot handle = some i) : t i = s.openFiles i := ((h i).2 (used_of_slot hslot)).symm

theorem request_withOpen (frame : SyscallFrame) : (s.withOpen t).request frame = s.request frame := by
  have hmap : ∀ (handle : ℕ) (f : OpenFile → Request),
      ((s.withOpen t).slot handle).map (fun i ↦ f (t i)) = (s.slot handle).map fun i ↦ f (s.openFiles i) := by
    intro handle f
    rw [slot_withOpen h]
    cases hslot : s.slot handle with
    | none => rfl
    | some i => exact congrArg (fun file ↦ some (f file)) (file_withOpen h hslot)
  unfold request
  cases Syscall.ofNumber frame.number.toNat with
  | none => rfl
  | some call =>
    cases call with
    | write => exact congrArg (ite _ · none) (hmap _ fun file ↦ .write file.path _)
    | read => exact congrArg (ite _ · none) (hmap _ fun file ↦ .read file.path file.offset _)
    | exit | getPid | sleep | «open» | close | time => rfl

theorem writes_withOpen (handle length : ℕ) : (s.withOpen t).writes handle length = s.writes handle length := by
  rw [writes, writes, slot_withOpen h]
  cases hslot : s.slot handle with
  | none => rfl
  | some i =>
    dsimp only [withOpen]
    rw [file_withOpen h hslot]

theorem reads_withOpen (handle length : ℕ) : (s.withOpen t).reads handle length = s.reads handle length := by
  rw [reads, reads, slot_withOpen h]
  split
  · rfl
  · cases hslot : s.slot handle with
    | none => rfl
    | some i =>
      dsimp only [withOpen, bind_eq_bind, bind_some]
      rw [file_withOpen h hslot]

theorem names_withOpen (text : ℕ → UInt8) : (s.withOpen t).names text = s.names text := by
  rw [names, names, withOpen]
  simp only [fun i ↦ (h i).1]

theorem file_of_reads {length : ℕ} {r : ℤ × ℕ} (hreads : s.reads handle length = some (i, r)) : t i = s.openFiles i := by
  rw [reads] at hreads
  split at hreads
  · cases hreads
  · obtain ⟨j, hslot, hrest⟩ := bind_eq_some_iff.mp hreads
    obtain ⟨node, -, hsome⟩ := bind_eq_some_iff.mp hrest
    cases hsome
    exact file_withOpen h hslot

theorem syscallDispatch_withOpen (frame : SyscallFrame) :
    (s.syscallDispatch frame).number = ((s.withOpen t).syscallDispatch frame).number ∧
      SameOpen (s.syscallDispatch frame).openFiles ((s.withOpen t).syscallDispatch frame).openFiles := by
  unfold syscallDispatch
  cases Syscall.ofNumber frame.number.toNat with
  | none => exact ⟨rfl, h⟩
  | some call =>
    cases call with
    | write =>
      dsimp only
      rw [sysWrite, sysWrite, writes_withOpen h, userRangeOk_withOpen]
      split
      · exact ⟨rfl, h⟩
      · exact ⟨rfl, h⟩
    | read =>
      dsimp only
      rw [sysRead, sysRead, reads_withOpen h, userRangeOk_withOpen]
      split
      · cases hreads : s.reads frame.first.toNat frame.third.toNat with
        | none => exact ⟨rfl, h⟩
        | some r =>
          obtain ⟨i, result, n⟩ := r
          dsimp only [withOpen]
          rw [file_of_reads h hreads]
          exact ⟨rfl, h.update i _⟩
      · exact ⟨rfl, h⟩
    | «open» =>
      dsimp only
      rw [sysOpen, sysOpen, userRangeOk_withOpen]
      split
      · simp only [names_withOpen h, userByte_withOpen]
        cases s.names fun i ↦ s.userByte (frame.first.toNat + i) with
        | mk found seen =>
          cases found with
          | none => exact ⟨rfl, h⟩
          | some r => exact ⟨rfl, h.update r.1 _⟩
      · exact ⟨rfl, h⟩
    | close =>
      dsimp only
      rw [sysClose, sysClose, slot_withOpen h]
      split
      · exact ⟨rfl, h⟩
      · rename_i i hslot
        have hopen : s.slot frame.first.toNat = some i := by
          split at hslot
          · cases hslot
          · exact hslot
        dsimp only [withOpen]
        rw [file_withOpen h hopen]
        exact ⟨rfl, h.update i _⟩
    | exit | getPid | sleep | time => exact ⟨rfl, h⟩

end System

theorem Storage.Alike.after {σ : Type} {fs : Storage σ} {a b : σ} (h : fs.Alike a b) (request : Request) :
    fs.Alike (fs.after a request) (fs.after b request) := fun requests ↦ h (request :: requests)

namespace Kernel

variable {σ : Type} {fs : Storage σ} {k k' : Kernel σ}

/-- Two kernels that programs cannot tell apart. -/
structure Same (fs : Storage σ) (k k' : Kernel σ) : Prop where
  openFiles : SameOpen k.openFiles k'.openFiles
  storage : fs.Alike k.storage k'.storage

theorem Same.serve (h : k.Same fs k') (process : Caller) (now : ℕ) (frame : SyscallFrame) :
    (k.serve fs process now frame).1 = (k'.serve fs process now frame).1 ∧
      (k.serve fs process now frame).2.Same fs (k'.serve fs process now frame).2 := by
  obtain ⟨hfiles, hstored⟩ := h.storage []
  have hsystem : k'.system fs process now = (k.system fs process now).withOpen k'.openFiles := by
    rw [system, system, System.withOpen]
    exact congrArg (System.mk _ _ · _) hfiles.symm
  have hopen : SameOpen (k.system fs process now).openFiles k'.openFiles := h.openFiles
  obtain ⟨hnumber, hafter⟩ := System.syscallDispatch_withOpen hopen frame
  rw [Kernel.serve, Kernel.serve, hsystem, System.request_withOpen hopen]
  refine ⟨?_, hafter, ?_⟩
  · rw [hnumber]
    exact congrArg (fun stored ↦ Reply.mk _ (((k.system fs process now).request frame).map stored |>.getD [])) hstored
  · cases (k.system fs process now).request frame with
    | none => exact h.storage
    | some request => exact h.storage.after request

theorem Same.run (h : k.Same fs k') (id : ℕ) (clock : ℕ → ℕ) (program : Behaviour) (n : ℕ) :
    (k.run fs id clock program n).1 = (k'.run fs id clock program n).1 ∧
      (k.run fs id clock program n).2.Same fs (k'.run fs id clock program n).2 := by
  induction n with
  | zero => exact ⟨rfl, h⟩
  | succ n ih =>
    rw [Kernel.run, Kernel.run]
    cases hrun : k.run fs id clock program n with
    | mk seen k₁ =>
      cases hrun' : k'.run fs id clock program n with
      | mk seen' k₁' =>
        rw [hrun, hrun'] at ih
        obtain ⟨rfl, hsame⟩ := ih
        dsimp only
        cases program seen with
        | none => exact ⟨rfl, hsame⟩
        | some call =>
          obtain ⟨space, frame⟩ := call
          obtain ⟨hreply, hafter⟩ := hsame.serve ⟨id, space⟩ (clock n) frame
          dsimp only
          split
          · exact ⟨rfl, hsame⟩
          · exact ⟨congrArg (fun reply ↦ seen ++ [reply]) hreply, hafter⟩

theorem serve_close (k : Kernel σ) (process : Caller) (now : ℕ) (handle : BitVec 64) :
    (k.serve fs process now ⟨6, handle, 0, 0⟩).1.number = ((k.system fs process now).sysClose handle.toNat).number := rfl

theorem noHandle_iff (k : Kernel σ) : k.NoHandle fs ↔ ∀ i, (k.openFiles i).used = false := by
  constructor
  · intro h i
    by_contra hused
    have hslot : (k.system fs ⟨0, Memory.booted⟩ 0).slot (i + 3) = some i :=
      System.slot_eq_some (Bool.eq_true_of_not_eq_false hused)
    have hhandle : (BitVec.ofNat 64 (i + 3)).toNat = i + 3 := by
      have := i.isLt
      unfold maxOpenFiles at this
      rw [BitVec.toNat_ofNat]
      omega
    have hclose := h ⟨0, Memory.booted⟩ 0 (BitVec.ofNat 64 (i + 3))
    rw [serve_close, hhandle, System.sysClose, if_neg (by omega), hslot] at hclose
    cases hclose
  · intro h process now handle
    rw [serve_close, System.sysClose]
    split
    · rfl
    · rename_i i hslot
      split at hslot
      · cases hslot
      · exact absurd ((h i).symm.trans (System.used_of_slot hslot)) (by decide)

/-- A program finds nothing of those before it exactly if these have left no file open. -/
theorem isolated_iff (h : fs.Alike k.storage k'.storage) :
    k.Isolated fs k' ↔ ∀ i, (k.openFiles i).used = false ∧ (k'.openFiles i).used = false := by
  constructor
  · intro hisolated i
    exact ⟨k.noHandle_iff.mp hisolated.noHandle i, k'.noHandle_iff.mp hisolated.noHandle' i⟩
  · intro hunused
    have hopen : SameOpen k.openFiles k'.openFiles := by
      intro i
      obtain ⟨hi, hi'⟩ := hunused i
      exact ⟨hi.trans hi'.symm, fun hused ↦ absurd (hi.symm.trans hused) (by decide)⟩
    have hsame : k.Same fs k' := ⟨hopen, h⟩
    exact ⟨fun id clock program n ↦ (hsame.run id clock program n).1, k.noHandle_iff.mpr fun i ↦ (hunused i).1,
      k'.noHandle_iff.mpr fun i ↦ (hunused i).2⟩

/-- All the pages of a program are one page, which begins with the name of the root. -/
def rootSpace : Memory :=
  { Memory.booted with
    root := 1
    tables := fun _ _ ↦ { present := true, user := true, frame := 1 }
    bytes := fun a ↦ if a % pageSize = 0 then slash else 0 }

def stateless : Storage Unit := ⟨fun _ ↦ System.slashSystem.files, fun _ _ ↦ [], fun _ _ ↦ ()⟩

def opener (n : ℕ) : Behaviour := fun seen ↦ if seen.length < n then some (rootSpace, ⟨5, 0x8000001000, 0, 0⟩) else none

def closer : Behaviour := fun seen ↦ if seen = [] then some (rootSpace, ⟨6, 3, 0, 0⟩) else none

def fresh : Kernel Unit := ⟨fun _ ↦ {}, ()⟩

/-- The kernel after a program that has opened the root some times. -/
def left (n : ℕ) : Kernel Unit := (fresh.run stateless 1 (fun _ ↦ 0) (opener n) n).2

/-- The kernel after a program that has read a byte of a file and closed it. -/
def closed : Kernel Unit := ⟨fun i ↦ if i.val = 0 then ⟨false, 1, [slash, 0x61]⟩ else {}, ()⟩

theorem isolated_closed : fresh.Isolated stateless closed := by
  have halike : stateless.Alike fresh.storage closed.storage := fun _ ↦ ⟨rfl, rfl⟩
  exact (isolated_iff halike).mpr (by decide)

/-- A program closes what another one has opened, and it cannot open the root after another one has, too often. -/
theorem handles_outlive : (fresh.run stateless 2 (fun _ ↦ 0) closer 1).1 = [⟨2 ^ 64 - 1, []⟩] ∧
    ((left 1).run stateless 2 (fun _ ↦ 0) closer 1).1 = [⟨0, []⟩] ∧
    (fresh.run stateless 2 (fun _ ↦ 0) (opener 1) 1).1 = [⟨3, []⟩] ∧
    ((left 8).run stateless 2 (fun _ ↦ 0) (opener 1) 1).1 = [⟨2 ^ 64 - 1, []⟩] := by
  decide +kernel

end Kernel

end Eris.Proc
