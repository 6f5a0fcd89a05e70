import Eris.Machine.Regions
import Eris.Proc.Syscall
import Eris.Virtio.Queue

namespace Eris.Virtio

open Mm Memory

def physToVirt (address : ℕ) : ℕ := address

def virtToPhys (address : ℕ) : ℕ := address

/-- The calls of the loop of `read_bytes`, while the device answers. -/
def readCalls (bounce : ℕ) : ℕ → ℕ → ℕ → List Arguments
  | 0, _, _ => []
  | fuel + 1, offset, length =>
    if length = 0 then []
    else
      let inside := offset % sectorSize
      let chunk := if length < sectorSize - inside then length else sectorSize - inside
      (virtioBlkRead (offset / sectorSize) (virtToPhys bounce) 1).toList ++
        readCalls bounce fuel ((offset + chunk) % 2 ^ 64) (length - chunk)

/-- The call of `BlockNode::write`. -/
def writeCalls (offset buffer length : ℕ) : List Arguments :=
  if offset % sectorSize ≠ 0 ∨ length % sectorSize ≠ 0 then []
  else (virtioBlkWrite (offset / sectorSize) (virtToPhys buffer) (length / sectorSize)).toList

/-- The ways to the queue. -/
inductive Request
  | readBytes (offset length : ℕ)
  | nodeWrite (offset buffer length : ℕ)
  | sysWrite (handle buffer length : ℕ)

/-- The memory when `submit` is called, the buffer and the calls. The nodes are those of the device under `/dev`. -/
def Request.calls (nodes : ℕ → Bool) (s : Proc.System) (m : Memory) : Request → Memory × ℕ × List Arguments
  | readBytes offset length =>
    let (m, frame) := m.allocPage
    (m, physToVirt frame, if frame = 0 then [] else readCalls (physToVirt frame) length offset length)
  | nodeWrite offset buffer length => (m, buffer, writeCalls offset buffer length)
  | sysWrite handle buffer length =>
    (m, buffer, if s.userRangeOk buffer length ∧ handle ≠ 1 ∧ handle ≠ 2 then
        match s.slot handle with
        | none => []
        | some index =>
          match (Fs.resolve (Fs.kernelText (s.openFiles index).path) s.files).1 with
          | none => []
          | some node => if nodes node then writeCalls 0 buffer length else []
      else [])

def Backed (m : Memory) (buffer : ℕ) (args : Arguments) : Prop :=
  ∀ page size first, ((Job.mk args page).descriptor size first 1).length = args.length ∧
    ∀ k < args.length, ((Job.mk args page).descriptor size first 1).address + k = m.translate (buffer + k)

/-- An address space of the kernel: the first gigabyte is mapped to itself where it is mapped, as what
the allocator hands out always is. -/
structure Layout (m : Memory) : Prop where
  wf : m.Wf
  direct : ∀ a < vmallocBase, ∀ f, m.frameAt a = some f → f = a / pageSize
  free : ∀ f < managedPages, m.frames.bitmap f = false → m.frameAt (f * pageSize) = some f

/-- A buffer in the first gigabyte, or in the window of a device that happens to stand at the address of the device. -/
def Direct (m : Memory) (buffer length : ℕ) : Prop :=
  length < 2 ^ 32 ∧ ∀ a, buffer ≤ a → a < buffer + length →
    ∃ f, m.frameAt a = some f ∧ (a < vmallocBase ∨ managedPages ≤ f ∧ f = a / pageSize)

def Request.bounces : Request → Bool
  | readBytes _ _ => true
  | _ => false

variable {m : Memory} {nodes : ℕ → Bool} {s : Proc.System} {request : Request} {args : Arguments} {a buffer f : ℕ}

theorem backed_iff : Backed m buffer args ↔
    args.length < 2 ^ 32 ∧ ∀ k < args.length, args.payload + k = m.translate (buffer + k) := by
  constructor
  · intro h
    obtain ⟨hlength, haddress⟩ := h 0 0 0
    exact ⟨hlength ▸ Nat.mod_lt _ (by decide), haddress⟩
  · intro ⟨hlength, haddress⟩ _ _ _
    exact ⟨Nat.mod_eq_of_lt hlength, haddress⟩

theorem mem_readCalls {bounce fuel offset length : ℕ} (h : args ∈ readCalls bounce fuel offset length) :
    args.payload = bounce ∧ args.length = sectorSize := by
  induction fuel generalizing offset length with
  | zero => cases h
  | succ fuel ih =>
    rw [readCalls] at h
    split at h
    · cases h
    · rcases List.mem_append.mp h with hhere | hlater
      · obtain rfl := List.mem_singleton.mp hhere
        exact ⟨rfl, rfl⟩
      · exact ih hlater

theorem mem_writeCalls {offset length : ℕ} (h : args ∈ writeCalls offset buffer length) :
    args.payload = buffer ∧ args.length % sectorSize = 0 := by
  rw [writeCalls, virtioBlkWrite] at h
  split at h
  · cases h
  · split at h
    · cases h
    · obtain rfl := List.mem_singleton.mp h
      refine ⟨rfl, ?_⟩
      dsimp only
      rw [show sectorSize = 512 from rfl]
      omega

theorem mem_calls (hbounce : request.bounces = false) (h : args ∈ (request.calls nodes s m).2.2) :
    (request.calls nodes s m).1 = m ∧ args.payload = (request.calls nodes s m).2.1 ∧ args.length % sectorSize = 0 := by
  cases request with
  | readBytes offset length => cases hbounce
  | nodeWrite offset buffer length => exact ⟨rfl, mem_writeCalls h⟩
  | sysWrite handle buffer length =>
    refine ⟨rfl, ?_⟩
    simp only [Request.calls] at h ⊢
    split at h
    · split at h
      · cases h
      · split at h
        · cases h
        · split at h
          · exact mem_writeCalls h
          · cases h
    · cases h

theorem translate_eq_self_iff (hm : m.Wf) (ha : a ≠ 0) : a = m.translate a ↔ m.frameAt a = some (a / pageSize) := by
  cases hf : m.frameAt a with
  | none =>
    rw [translate_of_frameAt_none hm hf]
    exact ⟨fun h ↦ absurd h ha, nofun⟩
  | some f =>
    rw [translate_of_frameAt hm hf, Option.some_inj]
    unfold pageSize
    omega

theorem Layout.frameAt_free (h : Layout m) (hf : f < managedPages) (hfree : m.frames.bitmap f = false)
    {k : ℕ} (hk : k < pageSize) : m.frameAt (f * pageSize + k) = some f := by
  rw [← h.free f hf hfree]
  apply frameAt_congr
  unfold pageOf pageSize at *
  omega

theorem backed_iff_direct (h : Layout m) (hpayload : args.payload = buffer) (hlength : args.length % sectorSize = 0) :
    Backed m buffer args ↔ Direct m buffer args.length := by
  rw [backed_iff, hpayload, Direct, and_congr_right_iff]
  intro _
  have hnull : args.length = 0 ∨ 1 < args.length := by
    unfold sectorSize at hlength
    omega
  constructor
  · intro hall a hlo hhi
    have hself : ∀ b, buffer ≤ b → b < buffer + args.length → b ≠ 0 → m.frameAt b = some (b / pageSize) := by
      intro b hb hb' hne
      have heq := hall (b - buffer) (by omega)
      rw [Nat.add_sub_cancel' hb] at heq
      exact (translate_eq_self_iff h.wf hne).mp heq
    have ha : m.frameAt a = some (a / pageSize) := by
      by_cases hne : a = 0
      · subst hne
        exact (frameAt_congr (by decide) m).trans (hself 1 (by omega) (by omega) (by decide))
      · exact hself a hlo hhi hne
    refine ⟨_, ha, ?_⟩
    unfold vmallocBase managedPages pageSize
    omega
  · intro hall k hk
    obtain ⟨f, hf, hwhere⟩ := hall (buffer + k) (by omega) (by omega)
    have hown := hwhere.elim (fun hlow ↦ h.direct _ hlow f hf) And.right
    rw [translate_of_frameAt h.wf hf, hown, Nat.div_add_mod']

theorem backed_readBytes {offset length : ℕ} (h : Layout m) (hcall : args ∈ ((Request.readBytes offset length).calls nodes s m).2.2) :
    Backed ((Request.readBytes offset length).calls nodes s m).1 ((Request.readBytes offset length).calls nodes s m).2.1 args := by
  simp only [Request.calls] at hcall ⊢
  rcases allocPage_cases h.wf.low with ⟨hnone, -⟩ | ⟨f, hf, -, hfree, hsome⟩
  · rw [hnone] at hcall
    cases hcall
  · rw [hsome] at hcall ⊢
    split at hcall
    · cases hcall
    · obtain ⟨hpayload, hlength⟩ := mem_readCalls hcall
      rw [backed_iff, hpayload, hlength]
      refine ⟨by decide, fun k hk ↦ ?_⟩
      have hkept : Kept m { m with frames := m.frames.markUsed f } := ⟨rfl, fun _ _ _ ↦ rfl⟩
      have hpage : k < pageSize := Nat.lt_trans hk (by decide)
      rw [physToVirt, hkept.translate, translate_of_frameAt h.wf (h.frameAt_free hf hfree hpage)]
      unfold pageSize at *
      omega

theorem frameAt_of_directMap {pdpt directory : ℕ} (h : DirectMap m pdpt directory) (ha : a < vmallocBase) :
    m.frameAt a = some (a / pageSize) := by
  have hpath : pathTo a 2 = 0 := by
    unfold pathTo vmallocBase at *
    omega
  rw [frameAt, h.leaf, if_pos hpath]
  change some (indexOf a 1 * (hugePageSize / pageSize) + indexOf a 0) = _
  rw [Option.some_inj]
  unfold vmallocBase at ha
  norm_num [indexOf, hugePageSize, pageSize, entriesPerTable]
  omega

theorem layout_of_directMap {pdpt directory : ℕ} (h : DirectMap m pdpt directory) : Layout m where
  wf := h.wf
  direct a ha f hf := Option.some.inj (hf.symm.trans (frameAt_of_directMap h ha))
  free f hf _ := by
    rw [frameAt_of_directMap h (by unfold vmallocBase managedPages pageSize at *; omega), Nat.mul_div_cancel _ (by decide)]

theorem Layout.mapPages (h : Layout m) {pages address : ℕ} (frame : ℕ) (flags : PageFlags) (hu : flags.user = false)
    (hlo : vmallocBase ≤ address) (hhi : address + pages * pageSize ≤ 2 ^ 48) (hpage : address % pageSize = 0) :
    Layout (m.mapPages flags pages address frame).1 := by
  obtain ⟨m', ok, hrun, hgrow, hremaps, -⟩ := Machine.mapPages_spec h.wf flags hu pages address frame
  rw [hrun]
  have hlow : ∀ a < vmallocBase, m'.frameAt a = m.frameAt a := by
    intro a ha
    apply hremaps.others
    have hend : (address + pages * pageSize) % pageSize = 0 := by rwa [Nat.add_mul_mod_self_right]
    exact Machine.beyond_of_outside hpage hend le_rfl le_rfl hhi (by unfold vmallocBase at ha; omega) fun hin ↦ by omega
  refine ⟨hgrow.wf, fun a ha f hf ↦ h.direct a ha f (hlow a ha ▸ hf), fun f hf hfree ↦ ?_⟩
  rw [hlow _ (by unfold vmallocBase managedPages pageSize at *; omega)]
  apply h.free f hf
  cases hb : m.frames.bitmap f with
  | false => rfl
  | true =>
    rw [hgrow.used f hb] at hfree
    cases hfree

def heapSpace : Memory :=
  ((bareMemory.pagingTables.getD bareMemory).mapPages { write := true, noExecute := true } 1 vmallocBase (600 * pageSize)).1

theorem bareMemory_directMap : ∃ pdpt directory, DirectMap (bareMemory.pagingTables.getD bareMemory) pdpt directory := by
  obtain ⟨m, hm, -⟩ := Option.map_eq_some_iff.mp pagingInit_bareMemory
  rw [hm]
  exact pagingTables_spec rfl hm

theorem payload_backed_iff (h : Layout m) (hcall : args ∈ (request.calls nodes s m).2.2) :
    Backed (request.calls nodes s m).1 (request.calls nodes s m).2.1 args ↔
      request.bounces = true ∨ Direct m (request.calls nodes s m).2.1 args.length := by
  cases hbounce : request.bounces with
  | false =>
    obtain ⟨hsame, hpayload, hlength⟩ := mem_calls hbounce hcall
    rw [hsame, backed_iff_direct h hpayload hlength]
    exact (or_iff_right nofun).symm
  | true =>
    cases request with
    | readBytes offset length => exact iff_of_true (backed_readBytes h hcall) (.inl rfl)
    | _ => cases hbounce

theorem payload_backed_low : ∃ m, Layout m ∧
    ∃ args ∈ ((Request.nodeWrite 0 0x200000 512).calls (fun _ ↦ true) Proc.System.slashSystem m).2.2,
      Backed m 0x200000 args := by
  obtain ⟨m, pdpt, directory, hm⟩ : ∃ m pdpt directory, DirectMap m pdpt directory := ⟨_, bareMemory_directMap⟩
  have hlayout := layout_of_directMap hm
  have hcall : ⟨requestOut, 0, 0x200000, 512, true⟩ ∈
      ((Request.nodeWrite 0 0x200000 512).calls (fun _ ↦ true) Proc.System.slashSystem m).2.2 :=
    List.mem_singleton.mpr rfl
  refine ⟨m, hlayout, _, hcall, (payload_backed_iff hlayout hcall).mpr (.inr ⟨by decide, fun a _ hhi ↦ ?_⟩)⟩
  have ha := Nat.lt_trans hhi (show 0x200000 + 512 < vmallocBase by decide)
  exact ⟨_, frameAt_of_directMap hm ha, .inl ha⟩

theorem payload_not_backed : Layout heapSpace ∧ heapSpace.translate vmallocBase = 600 * pageSize ∧
    ∃ args ∈ ((Request.nodeWrite 0 vmallocBase 512).calls (fun _ ↦ true) Proc.System.slashSystem heapSpace).2.2,
      ¬ Backed heapSpace vmallocBase args := by
  obtain ⟨pdpt, directory, hm⟩ := bareMemory_directMap
  have htranslate : heapSpace.translate vmallocBase = 600 * pageSize := by decide +kernel
  refine ⟨(layout_of_directMap hm).mapPages _ _ rfl le_rfl (by decide) rfl, htranslate,
    ⟨requestOut, 0, vmallocBase, 512, true⟩, List.mem_singleton.mpr rfl, fun hbacked ↦ ?_⟩
  have hfirst := (backed_iff.mp hbacked).2 0 (by decide)
  rw [Nat.add_zero, htranslate] at hfirst
  exact absurd hfirst (by decide)

end Eris.Virtio
