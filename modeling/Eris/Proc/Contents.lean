import Eris.Library.Layers
import Eris.Proc.Sharing

namespace Eris.Proc

open Mm Mm.Memory Library.Layers List

/-- What a program finds at an address. -/
structure Cell where
  rights : Rights
  byte : UInt8

def look (m : Memory) (r a : ℕ) : Option Cell :=
  if ((m.under r).leaf a).present then
    some ⟨((m.under r).leaf a).rights, m.bytes (((m.under r).leaf a).frame * pageSize + a % pageSize)⟩
  else none

def UserAddress (a : ℕ) : Prop := userBase ≤ a ∧ a < 2 ^ 48

theorem UserAddress.index {a : ℕ} (h : UserAddress a) : indexOf a 3 ≠ 0 := by
  rw [indexOf_three_ne_zero_iff, Nat.mod_eq_of_lt h.2]
  exact h.1

/-- An address space in which every page has a frame of its own and the tables leave the rights to the last one. -/
structure Separate (m : Memory) (ps : List ℕ) (r : ℕ) : Prop where
  spaces : Spaces m ps
  mem : r ∈ ps
  plain : (m.under r).Plain
  sealed : (m.under r).Sealed
  injective : ∀ a b, indexOf a 3 ≠ 0 → indexOf b 3 ≠ 0 → ((m.under r).leaf a).present = true →
    ((m.under r).leaf b).present = true → ((m.under r).leaf a).frame = ((m.under r).leaf b).frame → pageOf a = pageOf b
  nonzero : ∀ a, indexOf a 3 ≠ 0 → ((m.under r).leaf a).present = true → ((m.under r).leaf a).frame ≠ 0

/-- A segment in the user half that brings no more bytes than it takes. -/
structure ProgramHeader.Fits (segment : ProgramHeader) : Prop where
  base : userBase ≤ segment.virtualAddress
  top : segment.virtualAddress + segment.memorySize ≤ 2 ^ 48
  file : segment.fileSize ≤ segment.memorySize

namespace ProgramHeader

variable (segment : ProgramHeader)

def rights : Rights := ⟨segment.writes, true, !segment.executes⟩

def byte (program : Program) (a : ℕ) : UInt8 :=
  if segment.virtualAddress ≤ a ∧ a < segment.virtualAddress + segment.fileSize then
    program.bytes ((segment.offset + (a - segment.virtualAddress)) % 2 ^ 64)
  else 0

def layer (program : Program) : Layer ℕ Cell where
  has a := segment.start ≤ a ∧ a < segment.start + segment.pages * pageSize
  value a := ⟨segment.rights, segment.byte program a⟩

variable {segment}

theorem Fits.span (h : segment.Fits) :
    segment.start % pageSize = 0 ∧ userBase ≤ segment.start ∧ segment.start ≤ segment.virtualAddress ∧
      segment.virtualAddress + segment.memorySize ≤ segment.start + segment.pages * pageSize ∧
      segment.start + segment.pages * pageSize ≤ 2 ^ 48 := by
  obtain ⟨hbase, htop, -⟩ := h
  unfold pages start
  unfold userBase pageSize at *
  omega

end ProgramHeader

def Program.segments (program : Program) : List ProgramHeader :=
  ((List.range program.programHeaderCount).map program.programHeader).filter ProgramHeader.loads

namespace Separate

variable {m m' : Memory} {ps : List ℕ} {r a b g : ℕ}

section

variable (h : Separate m ps r)

include h

theorem of_kept (hs : Spaces m' ps) (hk : Kept (m.under r) (m'.under r)) : Separate m' ps r where
  spaces := hs
  mem := h.mem
  plain := hk.plain h.plain
  sealed := hk.sealed h.sealed
  injective a b := by
    rw [hk.leaf, hk.leaf]
    exact h.injective a b
  nonzero a := by
    rw [hk.leaf]
    exact h.nonzero a

theorem translate (a : ℕ) : (m.under r).translate a = if ((m.under r).leaf a).present then
      ((m.under r).leaf a).frame * pageSize + a % pageSize else 0 :=
  translate_eq (h.spaces.view r h.mem) a

theorem of_look {c : Cell} (ha : indexOf a 3 ≠ 0) (hc : look m r a = some c) :
    (m.under r).rights a = some c.rights ∧ (m.under r).translate a ≠ 0 ∧ m.bytes ((m.under r).translate a) = c.byte := by
  unfold look at hc
  split at hc
  · rename_i hpres
    have hframe : 0 < ((m.under r).leaf a).frame * pageSize :=
      Nat.mul_pos (Nat.pos_of_ne_zero (h.nonzero a ha hpres)) (by decide)
    obtain rfl := Option.some.inj hc
    rw [rights_eq (h.spaces.view r h.mem) h.plain h.sealed, h.translate a, if_pos hpres, if_pos hpres]
    exact ⟨rfl, by omega, rfl⟩
  · cases hc

theorem rights_of_look_none (hc : look m r a = none) : (m.under r).rights a = none := by
  unfold look at hc
  split at hc
  · cases hc
  · rename_i hpres
    rw [rights_eq (h.spaces.view r h.mem) h.plain h.sealed, if_neg hpres]

theorem call (c : Call) (hc : ∀ a ∈ c.span, indexOf a 3 ≠ 0) :
    (within r c.run m).1.under r = (c.run (m.under r)).1 ∧ ((within r c.run m).1.under r).Plain ∧
      ((within r c.run m).1.under r).Sealed ∧ (within r c.run m).1.bytes = m.bytes ∧
      ∃ done, (m.under r).Rewritten c.user c.new (pagesOf c.length) c.address ((within r c.run m).1.under r)
        (within r c.run m).2 done ∧ ∀ b, pageOf b ∉ Set.image pageOf (span c.address done) →
        ((within r c.run m).1.under r).leaf b = (m.under r).leaf b := by
  have hm := h.spaces.view r h.mem
  have hcareful : Careful (m.under r) c := fun _ a ha ↦ h.spaces.small r h.mem a (hc a ha)
  obtain ⟨done, hdone⟩ := c.run_spec hm
  have hroot := hdone.edit.grow.root
  have hself : (within r c.run m).1.under r = (c.run (m.under r)).1 := by
    conv_rhs => rw [← under_self (m := (c.run (m.under r)).1), hroot]
    rfl
  rw [hself]
  refine ⟨rfl, hdone.edit.plain h.plain, hcareful.sealed hm h.sealed, hdone.edit.grow.bytes, done, hdone, fun b hb ↦ ?_⟩
  refine (hdone.edit.leaf b hb).resolve_right ?_
  rintro ⟨hu, ⟨a, ha, hh, -⟩, -⟩
  exact hcareful hu a ha hh

theorem mapPage (flags : PageFlags) {address : ℕ} (hg : g < managedPages) (hg0 : g ≠ 0)
    (hfree : m.frames.bitmap g = false) (haddress : indexOf address 3 ≠ 0)
    (hok : Proc.mapPage r flags address g m = (m', true)) : Separate m' ps r ∧
      (∀ b, (m'.under r).leaf b = if pageOf b = pageOf address then encode flags g else (m.under r).leaf b) ∧
      (∀ x, m'.bytes x = if x / pageSize = g then 0 else m.bytes x) ∧
      ∀ b, indexOf b 3 ≠ 0 → ((m.under r).leaf b).present = true → ((m.under r).leaf b).frame ≠ g := by
  obtain ⟨hspaces, -, -⟩ := mapPage_spec hg h.spaces h.mem flags hfree haddress
  obtain ⟨hspaces₁, hkept₁, hdata₁, hunmapped⟩ := h.spaces.alloc hg hfree
  obtain ⟨hspaces₂, hkept₂, -⟩ := hspaces₁.write hdata₁
    (show (clearFrame g { m with frames := m.frames.markUsed g }).root = m.root from rfl) rfl fun f hf ↦ entry_clearFrame hf
  have hkept := (hkept₁ r (mem_cons_of_mem _ h.mem)).trans (hkept₂ r (mem_cons_of_mem _ h.mem))
  obtain ⟨-, hplain, hsealed, hbytes, done, hdone, hothers⟩ := (h.of_kept hspaces₂ hkept).call
    (.map address (g * pageSize) pageSize flags) (page_span haddress)
  rw [Proc.mapPage] at hok hspaces
  rw [hok] at hspaces hplain hsealed hbytes hdone hothers
  obtain rfl := (hdone.finished rfl).trans pages_page
  have hleaf : ∀ b, (m'.under r).leaf b =
      if pageOf b = pageOf address then encode flags g else (m.under r).leaf b := by
    intro b
    by_cases hb : pageOf b ∈ Set.image pageOf (span address 1)
    · obtain ⟨k, hk, hpage, e, he⟩ := hdone.written b hb
      obtain rfl : k = 0 := by omega
      replace hpage : pageOf b = pageOf address := by simpa [Call.address] using hpage
      rw [if_pos hpage, ← Option.some.inj he, frame_of_page hg]
    · rw [if_neg fun hpage ↦ hb ⟨address, ⟨0, Nat.one_pos, by rw [Nat.zero_mul, Nat.add_zero]⟩, hpage.symm⟩]
      exact (hothers b hb).trans (hkept.leaf b)
  have hnew : ∀ b, indexOf b 3 ≠ 0 → ((m.under r).leaf b).present = true → ((m.under r).leaf b).frame ≠ g := by
    intro b hb hpres
    exact hunmapped r h.mem b hb hpres
  refine ⟨⟨hspaces, h.mem, hplain, hsealed, fun a b ha hb ↦ ?_, fun a ha ↦ ?_⟩, hleaf, fun x ↦ ?_, hnew⟩
  · rw [hleaf a, hleaf b]
    split
    · rename_i hpa
      split
      · rename_i hpb
        exact fun _ _ _ ↦ hpa.trans hpb.symm
      · exact fun _ hpres hframe ↦ absurd hframe.symm (hnew b hb hpres)
    · split
      · exact fun hpres _ hframe ↦ absurd hframe (hnew a ha hpres)
      · exact h.injective a b ha hb
  · rw [hleaf a]
    split
    · exact fun _ ↦ hg0
    · exact h.nonzero a ha
  · exact congrFun hbytes x

end

end Separate

section Operations

variable {m m' : Memory} {ps : List ℕ} {r a address left : ℕ} {process process' : Process} {flags : PageFlags}
  {program : Program} {segment : ProgramHeader}

theorem pageOf_eq_iff_mem (haddress : address % pageSize = 0) (hroom : address + pageSize ≤ 2 ^ 48) (ha : a < 2 ^ 48) :
    pageOf a = pageOf address ↔ address ≤ a ∧ a < address + pageSize := by
  unfold pageOf pageSize at *
  omega

theorem frame_of_cell (f a : ℕ) : (f * pageSize + a % pageSize) / pageSize = f := by
  unfold pageSize
  omega

theorem look_fresh {g : ℕ} (hleaf : (m'.under r).leaf a = if pageOf a = pageOf address then encode flags g else (m.under r).leaf a)
    (hbytes : ∀ x, m'.bytes x = if x / pageSize = g then 0 else m.bytes x)
    (hnew : ((m.under r).leaf a).present = true → ((m.under r).leaf a).frame ≠ g) :
    look m' r a = if pageOf a = pageOf address then some ⟨flags.rights, 0⟩ else look m r a := by
  unfold look
  rw [hleaf]
  by_cases hpage : pageOf a = pageOf address
  · rw [if_pos hpage, if_pos hpage, hbytes, frame_of_cell, if_pos (show (encode flags g).frame = g from rfl)]
    rfl
  · rw [if_neg hpage, if_neg hpage]
    split
    · rename_i hpres
      rw [hbytes, frame_of_cell, if_neg (hnew hpres)]
    · rfl

theorem mapFresh_look (h : Separate m ps process.root) (hrun : mapFresh flags left address m process = (m', process', true))
    (haddress : address % pageSize = 0) (hbase : userBase ≤ address) (hroom : address + left * pageSize ≤ 2 ^ 48) :
    Separate m' ps process.root ∧ process' = { process with pageCount := process.pageCount + left } ∧
      ∀ a, UserAddress a → look m' process.root a =
        if address ≤ a ∧ a < address + left * pageSize then some ⟨flags.rights, 0⟩ else look m process.root a := by
  induction left generalizing m address process with
  | zero =>
    obtain ⟨rfl, hp⟩ := Prod.mk.inj hrun
    obtain ⟨rfl, -⟩ := Prod.mk.inj hp
    refine ⟨h, rfl, fun a _ ↦ ?_⟩
    rw [if_neg (by omega)]
  | succ left ih =>
    rw [Nat.add_mul, Nat.one_mul] at hroom ⊢
    rcases mapFresh_succ h.spaces.wf.low flags left address process with hnone | ⟨g, hg, hg0, hfree, hsome⟩
    · rw [hnone] at hrun
      cases hrun
    · have hlow := UserAddress.index ⟨hbase, by unfold pageSize at *; omega⟩
      rw [hsome] at hrun
      rcases hout : mapPage process.root flags address g m with ⟨m₃, _ | _⟩
      · rw [hout] at hrun
        cases hrun
      · rw [hout] at hrun
        obtain ⟨h₃, hleaf, hbytes, hnew⟩ := h.mapPage flags hg hg0 hfree hlow hout
        obtain ⟨h', hprocess, hlook⟩ := ih (by exact h₃) hrun
          (by unfold pageSize at *; omega) (by unfold pageSize at *; omega) (by omega)
        refine ⟨h', ?_, fun a ha ↦ ?_⟩
        · rw [hprocess]
          simp only [Nat.add_assoc, Nat.add_comm 1]
        · have hfirst := look_fresh (hleaf a) hbytes (hnew a ha.index)
          rw [hlook a ha, hfirst]
          have hmem := pageOf_eq_iff_mem haddress (by omega) ha.2
          by_cases hrest : address + pageSize ≤ a ∧ a < address + pageSize + left * pageSize
          · rw [if_pos hrest, if_pos (by omega)]
          · rw [if_neg hrest]
            exact if_congr (by rw [hmem]; omega) rfl rfl

theorem look_store (h : Separate m ps r) (haddress : UserAddress address) (ha : UserAddress a)
    (hne : (m.under r).translate address ≠ 0) (v : UInt8) :
    Separate (m.store ((m.under r).translate address) v) ps r ∧ look (m.store ((m.under r).translate address) v) r a =
        if a = address then (look m r a).map fun c ↦ { c with byte := v } else look m r a := by
  obtain ⟨hspaces, hkept, -⟩ := copyByte_spec h.spaces h.mem haddress.index hne v
  have hview := hkept r (mem_cons_of_mem _ h.mem)
  refine ⟨h.of_kept hspaces hview, ?_⟩
  have hpresent : ((m.under r).leaf address).present = true := by
    by_contra hpres
    rw [h.translate, if_neg hpres] at hne
    exact hne rfl
  have hx := h.translate address
  rw [if_pos hpresent] at hx
  unfold look
  rw [hview.leaf]
  by_cases hpres : ((m.under r).leaf a).present = true
  · rw [if_pos hpres]
    by_cases heq : a = address
    · subst heq
      rw [if_pos rfl, hx]
      simp [store, hpres]
    · have hcell : ((m.under r).leaf a).frame * pageSize + a % pageSize ≠ (m.under r).translate address := by
        rw [hx]
        intro hcell
        have hframe := congrArg (· / pageSize) hcell
        simp only [frame_of_cell] at hframe
        have hpage := h.injective a address ha.index haddress.index hpres hpresent hframe
        obtain ⟨-, ha'⟩ := ha
        obtain ⟨-, haddress'⟩ := haddress
        unfold pageOf pageSize at *
        omega
      rw [if_neg heq]
      simp [store, hcell, hpres]
  · simp [hpres]

theorem copyBytes_look {source : ℕ} (h : Separate m ps r)
    (hrun : copyBytes program r left source address m = (m', true)) (hbase : userBase ≤ address)
    (hroom : address + left ≤ 2 ^ 48) :
    Separate m' ps r ∧ ∀ a, UserAddress a → look m' r a = if address ≤ a ∧ a < address + left then
      (look m r a).map fun c ↦ { c with byte := program.bytes ((source + (a - address)) % 2 ^ 64) } else look m r a := by
  induction left generalizing m source address with
  | zero =>
    obtain ⟨rfl, -⟩ := Prod.mk.inj hrun
    refine ⟨h, fun a _ ↦ ?_⟩
    rw [if_neg (by omega)]
  | succ left ih =>
    rw [copyBytes] at hrun
    by_cases hzero : (m.under r).translate address = 0
    · simp [hzero] at hrun
    · simp only [hzero, if_false] at hrun
      have haddress : UserAddress address := ⟨hbase, by omega⟩
      obtain ⟨h₁, -⟩ := look_store h haddress haddress hzero (program.bytes (source % 2 ^ 64))
      obtain ⟨h', hlook⟩ := ih h₁ hrun (by omega) (by omega)
      refine ⟨h', fun a ha ↦ ?_⟩
      rw [hlook a ha, (look_store h haddress ha hzero _).2]
      by_cases heq : a = address
      · subst heq
        rw [if_neg (by omega), if_pos rfl, if_pos (by omega), Nat.sub_self, Nat.add_zero]
      · rw [if_neg heq]
        by_cases hin : address + 1 ≤ a ∧ a < address + 1 + left
        · rw [if_pos hin, if_pos (by omega), show source + 1 + (a - (address + 1)) = source + (a - address) by omega]
        · rw [if_neg hin, if_neg (by omega)]

theorem mem_pages_iff {pages : ℕ} (haddress : address % pageSize = 0) (hroom : address + pages * pageSize ≤ 2 ^ 48)
    (ha : a < 2 ^ 48) :
    pageOf a ∈ Set.image pageOf (span address pages) ↔ address ≤ a ∧ a < address + pages * pageSize := by
  constructor
  · rintro ⟨_, ⟨k, hk, rfl⟩, hpage⟩
    have hmul := Nat.mul_le_mul_right pageSize (Nat.succ_le_of_lt hk)
    rw [Nat.succ_mul] at hmul
    have haligned : (address + k * pageSize) % pageSize = 0 := by rwa [Nat.add_mul_mod_self_right]
    have hin := (pageOf_eq_iff_mem haligned (by omega) ha).mp hpage.symm
    omega
  · rintro ⟨hlo, hhi⟩
    refine ⟨_, ⟨(a - address) / pageSize, Nat.div_lt_of_lt_mul (by rw [Nat.mul_comm]; omega), rfl⟩, ?_⟩
    unfold pageOf pageSize at *
    omega

theorem protect_look {pages : ℕ} (h : Separate m ps r) (flags : PageFlags) (haddress : address % pageSize = 0)
    (hbase : userBase ≤ address) (hroom : address + pages * pageSize ≤ 2 ^ 48)
    (hmapped : ∀ a, address ≤ a → a < address + pages * pageSize → look m r a ≠ none) :
    Separate (within r (Call.protect address (pages * pageSize) flags).run m).1 ps r ∧
      ∀ a, UserAddress a → look (within r (Call.protect address (pages * pageSize) flags).run m).1 r a =
        if address ≤ a ∧ a < address + pages * pageSize then
          (look m r a).map fun c ↦ { c with rights := flags.rights } else look m r a := by
  have hm := h.spaces.view r h.mem
  have hpages : pagesOf (Call.protect address (pages * pageSize) flags).length = pages := by
    rw [Call.length]
    unfold pagesOf pageSize
    omega
  have hin : ∀ k < pages, UserAddress (address + k * pageSize) ∧ look m r (address + k * pageSize) ≠ none := by
    intro k hk
    have hmul := Nat.mul_le_mul_right pageSize (Nat.succ_le_of_lt hk)
    rw [Nat.succ_mul] at hmul
    have hpos : 0 < pageSize := by decide
    exact ⟨⟨by omega, by omega⟩, hmapped _ (by omega) (by omega)⟩
  have hspan : ∀ a ∈ (Call.protect address (pages * pageSize) flags).span, indexOf a 3 ≠ 0 := by
    rintro a ⟨k, hk, rfl⟩
    exact (hin k (hpages ▸ hk)).1.index
  obtain ⟨hspaces, -⟩ := within_spec h.spaces h.mem _ hspan fun a ha hpres ↦ protect_data h.spaces h.mem _ _ _ ha hpres
  obtain ⟨hself, hplain, hsealed, hbytes, done, hdone, hothers⟩ := h.call _ hspan
  have hok : (within r (Call.protect address (pages * pageSize) flags).run m).2 = true := by
    have hall := protectPages_ok hm flags pages address fun k hk ↦ by
      obtain ⟨hu, hl⟩ := hin k hk
      refine ⟨h.spaces.small r h.mem _ hu.index, ?_⟩
      by_contra hpres
      exact hl (if_neg hpres)
    rw [← hpages] at hall
    exact hall
  obtain rfl := (hdone.finished hok).trans hpages
  set out := (within r (Call.protect address (done * pageSize) flags).run m).1 with hout
  have hkeep : ∀ b, ((out.under r).leaf b).present = ((m.under r).leaf b).present ∧
      ((out.under r).leaf b).frame = ((m.under r).leaf b).frame := by
    intro b
    obtain ⟨m₁, ok, heq, -, hleaf⟩ := protectPages_spec hm flags (pagesOf (done * pageSize)) address
    have hrun := hself.trans (congrArg Prod.fst heq)
    rw [hrun]
    exact hleaf b
  refine ⟨⟨hspaces, h.mem, hplain, hsealed, fun a b ↦ ?_, fun a ↦ ?_⟩, fun a ha ↦ ?_⟩
  · rw [(hkeep a).1, (hkeep b).1, (hkeep a).2, (hkeep b).2]
    exact h.injective a b
  · rw [(hkeep a).1, (hkeep a).2]
    exact h.nonzero a
  · unfold look
    rw [(hkeep a).1, (hkeep a).2, hbytes]
    by_cases hpage : pageOf a ∈ Set.image pageOf (span address done)
    · have hmem := (mem_pages_iff haddress hroom ha.2).mp hpage
      obtain ⟨k, -, -, e, he⟩ := hdone.written a hpage
      have hrights : ((out.under r).leaf a).rights = flags.rights := by
        simp only [Call.new] at he
        split at he
        · rw [← Option.some.inj he]
          rfl
        · cases he
      rw [if_pos hmem, hrights]
      split
      · rfl
      · rfl
    · rw [if_neg fun hmem ↦ hpage ((mem_pages_iff haddress hroom ha.2).mpr hmem), hothers a hpage]

theorem loadSegment_look (h : Separate m ps process.root) (hfits : segment.Fits)
    (hrun : loadSegment program segment m process = (m', process', true)) :
    Separate m' ps process.root ∧ process'.root = process.root ∧
      process'.pageCount = process.pageCount + segment.pages ∧
      ∀ a, UserAddress a → look m' process.root a = (segment.layer program).onto (look m process.root) a := by
  obtain ⟨haligned, hbase, hle, hend, hroom⟩ := hfits.span
  have hfile := hfits.file
  unfold loadSegment at hrun
  rw [if_neg (Nat.not_lt.mpr hfits.base)] at hrun
  rcases hmap : mapFresh segment.mapFlags segment.pages segment.start m process with ⟨m₁, process₁, _ | _⟩
  · rw [hmap] at hrun
    cases hrun
  obtain ⟨h₁, hprocess, hlook₁⟩ := mapFresh_look h hmap haligned hbase hroom
  rw [hmap, hprocess] at hrun
  simp only at hrun
  rcases hcopy : copyBytes program process.root segment.fileSize segment.offset segment.virtualAddress m₁ with ⟨m₂, _ | _⟩
  · rw [hcopy] at hrun
    cases hrun
  obtain ⟨h₂, hlook₂⟩ := copyBytes_look h₁ hcopy hfits.base (by omega)
  rw [hcopy] at hrun
  simp only at hrun
  have hfilled : ∀ a, UserAddress a → look m₂ process.root a =
      if segment.start ≤ a ∧ a < segment.start + segment.pages * pageSize then
        some ⟨segment.mapFlags.rights, segment.byte program a⟩ else look m process.root a := by
    intro a ha
    rw [hlook₂ a ha, hlook₁ a ha, ProgramHeader.byte]
    by_cases hbytes : segment.virtualAddress ≤ a ∧ a < segment.virtualAddress + segment.fileSize
    · rw [if_pos hbytes, if_pos (by omega), if_pos (by omega), if_pos hbytes]
      rfl
    · rw [if_neg hbytes, if_neg hbytes]
  have honto : ∀ a, (segment.layer program).onto (look m process.root) a =
      if segment.start ≤ a ∧ a < segment.start + segment.pages * pageSize then
        some ⟨segment.rights, segment.byte program a⟩ else look m process.root a := by
    intro a
    simp [Layer.onto, ProgramHeader.layer]
  by_cases hw : segment.writes = true
  · rw [if_pos hw] at hrun
    obtain ⟨rfl, hp⟩ := Prod.mk.inj hrun
    obtain ⟨rfl, -⟩ := Prod.mk.inj hp
    refine ⟨h₂, rfl, rfl, fun a ha ↦ ?_⟩
    have hrights : segment.mapFlags.rights = segment.rights := by
      rw [ProgramHeader.rights, hw]
      rfl
    rw [hfilled a ha, honto, hrights]
  · rw [if_neg hw] at hrun
    obtain ⟨rfl, hp⟩ := Prod.mk.inj hrun
    obtain ⟨rfl, -⟩ := Prod.mk.inj hp
    obtain ⟨h₃, hlook₃⟩ := protect_look h₂ segment.finalFlags haligned hbase hroom fun a hlo hhi ↦ by
      rw [hfilled a ⟨by omega, by omega⟩, if_pos ⟨hlo, hhi⟩]
      exact Option.some_ne_none _
    refine ⟨h₃, rfl, rfl, fun a ha ↦ ?_⟩
    have hrights : segment.finalFlags.rights = segment.rights := by
      rw [ProgramHeader.rights, Bool.eq_false_iff.mpr hw]
      rfl
    refine (hlook₃ a ha).trans ?_
    rw [honto, hfilled a ha]
    by_cases hin : segment.start ≤ a ∧ a < segment.start + segment.pages * pageSize
    · rw [if_pos hin, if_pos hin, if_pos hin, ← hrights]
      rfl
    · rw [if_neg hin, if_neg hin, if_neg hin]

theorem loadSegments_look {i : ℕ} (h : Separate m ps process.root)
    (hfits : ∀ k, i ≤ k → k < i + left → (program.programHeader k).loads = true → (program.programHeader k).Fits)
    (hrun : loadSegments program left i m process = (m', process', true)) :
    let segments := ((List.range' i left).map program.programHeader).filter ProgramHeader.loads
    Separate m' ps process.root ∧ process'.root = process.root ∧
      process'.pageCount = process.pageCount + (segments.map ProgramHeader.pages).sum ∧
      ∀ a, UserAddress a → look m' process.root a = pile (segments.map (·.layer program)) (look m process.root) a := by
  induction left generalizing m i process with
  | zero =>
    obtain ⟨rfl, hp⟩ := Prod.mk.inj hrun
    obtain ⟨rfl, -⟩ := Prod.mk.inj hp
    exact ⟨h, rfl, rfl, fun _ _ ↦ rfl⟩
  | succ left ih =>
    intro segments
    have hrest : ∀ k, i + 1 ≤ k → k < i + 1 + left → (program.programHeader k).loads = true →
        (program.programHeader k).Fits := fun k hlo hhi ↦ hfits k (by omega) (by omega)
    rw [loadSegments] at hrun
    by_cases hl : (program.programHeader i).loads = true
    · have hsegments : segments = program.programHeader i ::
          ((List.range' (i + 1) left).map program.programHeader).filter ProgramHeader.loads := by
        simp [segments, range'_succ, hl]
      rw [if_pos hl] at hrun
      rcases hseg : loadSegment program (program.programHeader i) m process with ⟨m₁, process₁, _ | _⟩
      · rw [hseg] at hrun
        cases hrun
      · rw [hseg] at hrun
        obtain ⟨h₁, hroot₁, hcount₁, hlook₁⟩ := loadSegment_look h (hfits i le_rfl (by omega) hl) hseg
        rw [← hroot₁] at h₁
        obtain ⟨h₂, hroot₂, hcount₂, hlook₂⟩ := ih h₁ hrest hrun
        rw [hroot₁] at h₂ hlook₂
        refine ⟨h₂, hroot₂.trans hroot₁, ?_, fun a ha ↦ ?_⟩
        · rw [hcount₂, hcount₁, hsegments, map_cons, sum_cons, Nat.add_assoc]
        · rw [hlook₂ a ha, hsegments, map_cons, pile_cons]
          exact pile_congr (hlook₁ a ha) _
    · have hsegments : segments =
          ((List.range' (i + 1) left).map program.programHeader).filter ProgramHeader.loads := by
        simp [segments, range'_succ, hl]
      rw [if_neg hl] at hrun
      rw [hsegments]
      exact ih h hrest hrun

end Operations

section Load

variable {m m' : Memory} {ps : List ℕ} {a g : ℕ} {process process' : Process} {program : Program}
  {allowed : Program → Memory → Prop}

theorem newRoot_look (h : Spaces m ps) (hplain : m.Plain) (hsealed : m.Sealed) (hg : g < managedPages)
    (hfree : m.frames.bitmap g = false) :
    let m₂ := clearFrame g { m with frames := m.frames.markUsed g }
    let m₃ := m₂.setEntry g 0 (m₂.entry m₂.root 0)
    Separate m₃ (g :: ps) g ∧ ∀ a, indexOf a 3 ≠ 0 → look m₃ g a = none := by
  intro m₂ m₃
  obtain ⟨h₃, -, -⟩ := newRoot_spec h hg hfree
  obtain ⟨h₁, -, hdata, -⟩ := h.alloc hg hfree
  set m₁ : Memory := { m with frames := m.frames.markUsed g } with hm₁
  have hnot : ¬ m₁.IsTable g := fun ht ↦ hdata.2 (.inl ht)
  have hroot : m.root ≠ g := fun he ↦ hnot (he ▸ m₁.root_isTable)
  have hkept : Kept (m₁.sharedRoot g) (m₃.under g) := by
    refine ⟨rfl, fun f _ i ↦ ?_⟩
    rw [under_entry, entry_setEntry]
    by_cases hf : f = g
    · subst hf
      have hshared : (m₁.sharedRoot f).entry f i = if i = 0 then m₁.entry m₁.root 0 else {} := by
        simp [sharedRoot, entry]
      rw [hshared]
      by_cases hi : i = 0
      · rw [if_pos ⟨rfl, hi⟩, if_pos hi]
        exact entry_clearFrame hroot 0
      · rw [if_neg fun he ↦ hi he.2, if_neg hi]
        exact entry_clearFrame_self f i
    · rw [if_neg fun he ↦ hf he.1]
      refine (entry_clearFrame hf i).trans ?_
      simp [sharedRoot, entry, hf, hm₁]
  have hcases := sharedRoot_cases h₁.wf hg hdata.1 hnot
  have hplain₁ := Kept.plain ⟨rfl, fun _ _ _ ↦ rfl⟩ hplain
  have hsealed₁ := Kept.sealed ⟨rfl, fun _ _ _ ↦ rfl⟩ hsealed
  have habsent : ∀ a, indexOf a 3 ≠ 0 → ((m₃.under g).leaf a).present = false := by
    intro a ha
    obtain ⟨-, -, hnone⟩ := sharedRoot_spec h₁.wf hg hdata.1 hnot
    rw [hkept.leaf, leaf_eq, if_neg, hnone 3 le_rfl a ha]
    rw [InHuge, hnone 2 (by omega) a ha]
    exact fun hh ↦ by cases hh.1
  refine ⟨⟨h₃, mem_cons_self, hkept.plain (hplain₁.of_cases hcases), hkept.sealed (hsealed₁.of_cases hcases),
    fun a b ha _ hpres ↦ ?_, fun a ha hpres ↦ ?_⟩, fun a ha ↦ ?_⟩
  · rw [habsent a ha] at hpres
    cases hpres
  · rw [habsent a ha] at hpres
    cases hpres
  · exact if_neg (by simp [habsent a ha])

theorem load_look (h : Spaces m ps) (hplain : m.Plain) (hsealed : m.Sealed) (hfits : ∀ s ∈ program.segments, s.Fits)
    (hrun : load program m process = (m', process', true)) :
    Separate m' (process'.root :: ps) process'.root ∧
      process'.pageCount = process.pageCount + (program.segments.map ProgramHeader.pages).sum ∧
      ∀ a, UserAddress a → look m' process'.root a = pile (program.segments.map (·.layer program)) (fun _ ↦ none) a := by
  unfold load at hrun
  split at hrun
  · rcases allocPage_cases h.wf.low with ⟨hnone, -⟩ | ⟨g, hg, hg0, hfree, hsome⟩
    · simp [hnone] at hrun
    · have hpage : g * pageSize ≠ 0 := Nat.mul_ne_zero hg0 (by decide)
      have hdiv : g * pageSize / pageSize = g := Nat.mul_div_cancel g (by decide)
      simp only [hsome, hpage, if_false, hdiv] at hrun
      obtain ⟨h₃, hempty⟩ := newRoot_look h hplain hsealed hg hfree
      have hall : ∀ k, 0 ≤ k → k < 0 + program.programHeaderCount → (program.programHeader k).loads = true →
          (program.programHeader k).Fits := by
        intro k _ hk hl
        exact hfits _ (mem_filter.mpr ⟨mem_map_of_mem (mem_range.mpr (by omega)), hl⟩)
      obtain ⟨h', hroot, hcount, hlook⟩ := loadSegments_look (by exact h₃) hall hrun
      rw [← range_eq_range'] at hcount hlook
      rw [hroot]
      refine ⟨h', hcount, fun a ha ↦ (hlook a ha).trans ?_⟩
      exact pile_congr (hempty a ha.index) _
  · cases hrun

theorem Reachable.plain_sealed (h : Reachable allowed m ps) (hallowed : ∀ program m, allowed program m → program.Confined m) :
    m.Plain ∧ m.Sealed := by
  induction h with
  | @boot m m' image hlow hinit =>
    have hbuilt : Built Careful m' := .init hlow hinit
    exact hbuilt.plain_sealed
  | @kernel m ps c hm huser _ ih =>
    have hwf := (hm.spaces hallowed).wf
    have hcareful : Careful m c := fun hu ↦ by rw [huser] at hu; cases hu
    obtain ⟨done, hdone⟩ := c.run_spec hwf
    exact ⟨hdone.edit.plain ih.1, hcareful.sealed hwf ih.2⟩
  | @load m ps program hm hp ih =>
    obtain ⟨m', process', ok, hrun, hroot, hkept, -⟩ := load_spec (hm.spaces hallowed) (hallowed program m hp)
    rw [hrun]
    have hkernel : Kept m m' := by
      have hk := hkept m.root mem_cons_self
      rwa [under_self, ← hroot, under_self] at hk
    exact ⟨hkernel.plain ih.1, hkernel.sealed ih.2⟩
  | stack process hm hr ih =>
    obtain ⟨m₁, process₁, ok, hrun, -, hquiet, -⟩ := mapFresh_spec (hm.spaces hallowed) hr
      { write := true, user := true, noExecute := true } userStackPages (userStackTop - userStackPages * pageSize)
      fun k hk _ ↦ indexOf_three_ne_zero_iff.mpr (by
        unfold userStackPages userStackTop userBase pageSize at *
        omega)
    rw [mapStack, hrun]
    exact ⟨hquiet.kernel.plain ih.1, hquiet.kernel.sealed ih.2⟩
  | @elsewhere m m' ps hm hroot hlow hentry htable hdata ih =>
    have hkernel : Kept m m' := ⟨hroot, fun f hf i ↦ hentry f (.inl hf) i⟩
    exact ⟨hkernel.plain ih.1, hkernel.sealed ih.2⟩

end Load

end Eris.Proc
