import Eris.Library.Outcome
import Eris.Loader.Access

namespace Eris.Loader

open Library.Words Library.Outcome Mm Modules List

namespace LoadedImage

def Holds (loaded : LoadedImage) (a : ℕ) : Prop :=
  loaded.base ≤ a ∧ a < loaded.base + loaded.pages * pageSize

/-- The pages are there, and no two addresses in them share a byte. -/
structure Backed (loaded : LoadedImage) (m : Memory) : Prop where
  mapped : ∀ a, loaded.Holds a → m.translate a ≠ 0
  apart : m.Apart loaded.base (loaded.pages * pageSize)

def Confines (loaded : LoadedImage) (m : Memory) (bytes : ℕ → UInt8) : Prop :=
  ∀ p, (∀ a, loaded.Holds a → m.translate a ≠ p) → bytes p = m.bytes p

end LoadedImage

def Symbols.Clear (exports : Symbols) (loaded : LoadedImage) (m : Memory) : Prop :=
  ∀ bytes, loaded.Confines m bytes → ∀ name, 0 ∉ name →
    exports.lookup { m with bytes := bytes } name = exports.lookup m name

namespace RelocationType

def width : RelocationType → ℕ
  | .r64 | .pc64 => 8
  | .pc32 | .plt32 | .r32 | .r32s => 4

/-- `S + A` or `S + A - P`, in 64 bits. -/
def value (s a p : ℕ) : RelocationType → ℕ
  | .r64 | .r32 | .r32s => (s + a) % 2 ^ 64
  | .pc32 | .plt32 | .pc64 => (s + a + (2 ^ 64 - p)) % 2 ^ 64

/-- The number a field stands for in the processor's ABI: `R_X86_64_32` is extended with
zeros, the other fields of 32 bits with the sign. -/
def decode (n : ℕ) : RelocationType → ℤ
  | .r64 | .pc64 | .r32 => n
  | .pc32 | .plt32 | .r32s => signed 32 n

def exact (v : ℕ) : RelocationType → ℤ
  | .r64 | .pc64 | .r32 => v
  | .pc32 | .plt32 | .r32s => signed 64 v

def Fits (type : RelocationType) (v : ℕ) : Prop :=
  ∃ n < 256 ^ type.width, type.decode n = type.exact v

def asSigned : RelocationType → RelocationType
  | .r32 => .r32s
  | t => t

end RelocationType

/-- A relocation with its operands. -/
structure Reloc where
  place : ℕ
  type : ℕ
  symbol : Except Refusal ℕ
  addend : ℕ
  deriving DecidableEq

namespace Reloc

def Sound (r : Reloc) : Prop :=
  ∃ s t, r.symbol = .ok s ∧ RelocationType.ofCode r.type = some t ∧ t.Fits (t.value s r.addend r.place)

/-- The relocation is sound once `R_X86_64_32` is taken for `R_X86_64_32S`. -/
def SoundAsSigned (r : Reloc) : Prop :=
  ∃ s t, r.symbol = .ok s ∧ RelocationType.ofCode r.type = some t ∧ t.asSigned.Fits (t.value s r.addend r.place)

def data (r : Reloc) : Except Refusal (List UInt8) := do
  let symbol ← r.symbol
  match RelocationType.ofCode r.type with
  | none => .error (.typeNotHandled r.type)
  | some type => relocate symbol r.addend r.place type

def InRange (loaded : LoadedImage) (r : Reloc) : Prop :=
  ∀ t, RelocationType.ofCode r.type = some t →
    loaded.base ≤ r.place ∧ r.place + t.width ≤ loaded.base + loaded.pages * pageSize

def Agrees (r q : Reloc) : Prop :=
  ∀ d e, r.data = .ok d → q.data = .ok e → ∀ i j b c, r.place + i = q.place + j →
    d[i]? = some b → e[j]? = some c → b = c

end Reloc

section

variable (s : Sections) (loaded : LoadedImage) (exports : Symbols) (m : Memory)

def relocAt (target symbols strings entry : ℕ) : Except Fault Reloc := do
  let info ← s.image.word 8 (entry + 8)
  let symbol ← symbolAddress s loaded exports m symbols strings (relaSymbol info)
  let address ← loaded.addressOf target
  let offset ← s.image.word 8 entry
  let addend ← s.image.word 8 (entry + 16)
  return ⟨(address + offset) % 2 ^ 64, relaType info, symbol, addend⟩

def relocsFrom (target symbols strings : ℕ) : ℕ → ℕ → Except Fault (List Reloc)
  | 0, _ => .ok []
  | left + 1, entry => do
    let r ← relocAt s loaded exports m target symbols strings entry
    let rs ← relocsFrom target symbols strings left (entry + relaSize)
    return r :: rs

def relocsIn (i : ℕ) : Except Fault (List Reloc) := do
  if (← s.type i) ≠ sectionRela then return []
  let target ← s.info i
  if !(← s.allocated target) then return []
  let symbols ← s.link i
  let strings ← s.link symbols
  let entries ← s.offset i
  let size ← s.size i
  relocsFrom s loaded exports m target symbols strings (size / relaSize) entries

def relocsOf : List ℕ → Except Fault (List Reloc)
  | [] => .ok []
  | i :: rest => do
    let rs ← relocsIn s loaded exports m i
    let rs' ← relocsOf rest
    return rs ++ rs'

def relocs : Except Fault (List Reloc) := relocsOf s loaded exports m (List.range s.count)

end

def applyAll : List Reloc → Memory → Memory × Option Refusal
  | [], m => (m, none)
  | r :: rs, m =>
    match r.data with
    | .error e => (m, some e)
    | .ok d => applyAll rs (m.write d r.place)

section Arithmetic

variable {s a p v n : ℕ} {t : RelocationType} {d : List UInt8}

theorem fits32_iff (hv : v < 2 ^ 64) :
    fits32 (signed 64 v) = true ↔ v < 2 ^ 31 ∨ 2 ^ 64 - 2 ^ 31 ≤ v := by
  unfold fits32 signed
  norm_num at hv ⊢
  split <;> omega

theorem fits_r32s (hv : v < 2 ^ 64) : RelocationType.r32s.Fits v ↔ fits32 (signed 64 v) = true := by
  rw [fits32_iff hv]
  simp only [RelocationType.Fits, RelocationType.width, RelocationType.decode, RelocationType.exact, signed]
  constructor
  · rintro ⟨n, hn, heq⟩
    split at heq <;> split at heq <;> omega
  · intro h
    refine ⟨v % 4294967296, Nat.mod_lt v (by decide), ?_⟩
    split <;> split <;> omega

theorem fits_r32 : RelocationType.r32.Fits v ↔ v < 2 ^ 32 := by
  simp only [RelocationType.Fits, RelocationType.width, RelocationType.decode, RelocationType.exact, Int.natCast_inj]
  constructor
  · rintro ⟨n, hn, rfl⟩
    exact hn
  · exact fun h ↦ ⟨v, h, rfl⟩

theorem value_lt (t : RelocationType) (s a p : ℕ) : t.value s a p < 2 ^ 64 := by
  cases t <;> exact Nat.mod_lt _ (by decide)

theorem fits_of_width (ht : t.width = 8) (hv : v < 2 ^ 64) : t.Fits v := by
  cases t with
  | r64 => exact ⟨v, hv, rfl⟩
  | pc64 => exact ⟨v, hv, rfl⟩
  | _ => cases ht

theorem relocate_spec (t : RelocationType) (s a p : ℕ) :
    t.asSigned.Fits (t.value s a p) ∧ relocate s a p t = .ok (toBytes t.width (t.value s a p)) ∨
    ¬ t.asSigned.Fits (t.value s a p) ∧ ∃ e, relocate s a p t = .error e := by
  have hv := value_lt t s a p
  have h32 : ∀ e, (t.asSigned.Fits (t.value s a p) ↔ fits32 (signed 64 (t.value s a p)) = true) →
      relocate s a p t = (if fits32 (signed 64 (t.value s a p)) then
        .ok (toBytes t.width (t.value s a p)) else .error e) →
      t.asSigned.Fits (t.value s a p) ∧ relocate s a p t = .ok (toBytes t.width (t.value s a p)) ∨
      ¬ t.asSigned.Fits (t.value s a p) ∧ ∃ e, relocate s a p t = .error e := by
    intro e hfits heq
    by_cases h : fits32 (signed 64 (t.value s a p)) = true
    · exact .inl ⟨hfits.mpr h, heq.trans (if_pos h)⟩
    · exact .inr ⟨fun hf ↦ h (hfits.mp hf), e, heq.trans (if_neg h)⟩
  cases t with
  | r64 => exact .inl ⟨fits_of_width rfl hv, rfl⟩
  | pc64 => exact .inl ⟨fits_of_width rfl hv, rfl⟩
  | pc32 => exact h32 .doesNotReach (fits_r32s hv) rfl
  | plt32 => exact h32 .doesNotReach (fits_r32s hv) rfl
  | r32 => exact h32 .doesNotFit (fits_r32s hv) rfl
  | r32s => exact h32 .doesNotFit (fits_r32s hv) rfl

theorem decode_injective {n' : ℕ} (hn : n < 256 ^ t.width) (hn' : n' < 256 ^ t.width)
    (h : t.decode n = t.decode n') : n = n' := by
  cases t <;> simp only [RelocationType.decode, RelocationType.width, signed] at hn hn' h <;>
    norm_num at hn hn' h <;> omega

theorem decode_toBytes (hv : v < 2 ^ 64) (hf : t.Fits v) (hs : t.asSigned.Fits v) :
    t.decode (fromBytes (toBytes t.width v)) = t.exact v := by
  have hsigned : fits32 (signed 64 v) = true → signed 32 (v % 256 ^ 4) = signed 64 v := by
    intro h
    rw [fits32_iff hv] at h
    unfold signed
    split <;> split <;> omega
  rw [fromBytes_toBytes]
  cases t with
  | r64 => exact congrArg Int.ofNat (Nat.mod_eq_of_lt hv)
  | pc64 => exact congrArg Int.ofNat (Nat.mod_eq_of_lt hv)
  | r32 => exact congrArg Int.ofNat (Nat.mod_eq_of_lt (fits_r32.mp hf))
  | pc32 => exact hsigned ((fits_r32s hv).mp hs)
  | plt32 => exact hsigned ((fits_r32s hv).mp hs)
  | r32s => exact hsigned ((fits_r32s hv).mp hs)

end Arithmetic

namespace Reloc

variable {r : Reloc} {d : List UInt8} {t : RelocationType} {s : ℕ}

theorem data_of_type (hs : r.symbol = .ok s) (ht : RelocationType.ofCode r.type = some t) :
    r.data = relocate s r.addend r.place t := by
  rw [data, hs]
  simp only [bind, Except.bind, ht]

theorem data_eq_ok (h : r.data = .ok d) : ∃ s t, r.symbol = .ok s ∧
    RelocationType.ofCode r.type = some t ∧ t.asSigned.Fits (t.value s r.addend r.place) ∧
    d = toBytes t.width (t.value s r.addend r.place) := by
  obtain ⟨s, hs, h⟩ := bind_eq_ok.mp h
  split at h
  · cases h
  · rename_i t ht
    rcases relocate_spec t s r.addend r.place with ⟨hf, heq⟩ | ⟨-, e, heq⟩
    · exact ⟨s, t, hs, ht, hf, Except.ok.inj (h.symm.trans heq)⟩
    · rw [heq] at h
      cases h

theorem soundAsSigned_iff : r.SoundAsSigned ↔ ∃ d, r.data = .ok d := by
  constructor
  · rintro ⟨s, t, hs, ht, hf⟩
    rcases relocate_spec t s r.addend r.place with ⟨-, heq⟩ | ⟨hn, -⟩
    · exact ⟨_, (data_of_type hs ht).trans heq⟩
    · exact absurd hf hn
  · rintro ⟨d, hd⟩
    obtain ⟨s, t, hs, ht, hf, -⟩ := data_eq_ok hd
    exact ⟨s, t, hs, ht, hf⟩

theorem InRange.data {loaded : LoadedImage} (h : r.InRange loaded) (hd : r.data = .ok d) :
    loaded.base ≤ r.place ∧ r.place + d.length ≤ loaded.base + loaded.pages * pageSize := by
  obtain ⟨s, t, -, ht, -, rfl⟩ := data_eq_ok hd
  rw [length_toBytes]
  exact h t ht

end Reloc

section Link

variable {s : Sections} {loaded : LoadedImage} {exports : Symbols} {m m' : Memory}
  {target symbols strings entry left i : ℕ} {r : Reloc} {rs rs' : List Reloc}

theorem applyAll_append (rs rs' : List Reloc) (m : Memory) :
    applyAll (rs ++ rs') m =
      match applyAll rs m with
      | (m, some e) => (m, some e)
      | (m, none) => applyAll rs' m := by
  induction rs generalizing m with
  | nil => rfl
  | cons r rs ih =>
    rw [cons_append, applyAll, applyAll]
    cases r.data with
    | error e => rfl
    | ok d => exact ih _

theorem applyAll_eq (rs : List Reloc) (m : Memory) :
    (applyAll rs m).1 = { m with bytes := (applyAll rs m).1.bytes } := by
  induction rs generalizing m with
  | nil => rfl
  | cons r rs ih =>
    rw [applyAll]
    cases r.data with
    | error e => rfl
    | ok d =>
      simp only
      rw [ih, Memory.write_eq]

theorem confines_write {a : ℕ} {data : List UInt8} {bytes : ℕ → UInt8}
    (h : loaded.Confines m bytes) (hlo : loaded.base ≤ a)
    (hhi : a + data.length ≤ loaded.base + loaded.pages * pageSize) :
    loaded.Confines m ({ m with bytes := bytes }.write data a).bytes := by
  intro p hp
  refine (Memory.bytes_write_of_ne data fun c hc hlt ↦ ?_).trans (h p hp)
  rw [Memory.translate_bytes]
  exact hp c ⟨by omega, by omega⟩

theorem confines_applyAll (hr : ∀ r ∈ rs, r.InRange loaded) {bytes : ℕ → UInt8}
    (h : loaded.Confines m bytes) :
    loaded.Confines m (applyAll rs { m with bytes := bytes }).1.bytes := by
  induction rs generalizing bytes with
  | nil => exact h
  | cons r rs ih =>
    rw [applyAll]
    cases hd : r.data with
    | error e => exact h
    | ok d =>
      obtain ⟨hlo, hhi⟩ := (hr r mem_cons_self).data hd
      have hw := confines_write h hlo hhi
      simp only
      rw [Memory.write_eq]
      exact ih (fun q hq ↦ hr q (mem_cons_of_mem r hq)) hw

theorem length_slice {image : Image} {offset width : ℕ} {data : List UInt8}
    (h : image.slice offset width = .ok data) : data.length = width := by
  unfold Image.slice at h
  split at h
  · cases h
    rw [length_take, length_drop]
    omega
  · cases h

theorem word_lt {image : Image} {width offset n : ℕ} (h : image.word width offset = .ok n) :
    n < 256 ^ width := by
  unfold Image.word at h
  cases hs : image.slice offset width with
  | error e =>
    rw [hs] at h
    cases h
  | ok bs =>
    rw [hs] at h
    cases h
    rw [← length_slice hs]
    exact fromBytes_lt bs

theorem stringFrom_terminated {image : Image} {bound offset : ℕ} {name : CString}
    (h : image.stringFrom bound offset = .ok name) : 0 ∉ name := by
  induction bound generalizing offset name with
  | zero => cases h
  | succ bound ih =>
    obtain ⟨b, hb, h⟩ := bind_eq_ok.mp h
    split at h
    · cases h
      exact not_mem_nil
    · rename_i h0
      obtain ⟨bs, hbs, h⟩ := bind_eq_ok.mp h
      cases h
      rw [mem_cons, not_or]
      refine ⟨fun hzero ↦ h0 ?_, ih hbs⟩
      have hlt : b < 2 ^ 8 := word_lt hb
      have hnat := congrArg UInt8.toNat hzero
      rw [Nat.toUInt8_eq, UInt8.toNat_ofNat', Nat.mod_eq_of_lt hlt] at hnat
      exact hnat.symm

theorem symbolAddress_congr {m' : Memory} (s : Sections) (loaded : LoadedImage)
    (h : ∀ name, 0 ∉ name → exports.lookup m' name = exports.lookup m name)
    (symbols strings index : ℕ) :
    symbolAddress s loaded exports m' symbols strings index =
      symbolAddress s loaded exports m symbols strings index := by
  refine bind_congr_ok fun table _ ↦ bind_congr_ok fun size _ ↦ ?_
  split
  · rfl
  · refine bind_congr_ok fun section' _ ↦ ?_
    split
    · refine bind_congr_ok fun names _ ↦ bind_congr_ok fun offset _ ↦ bind_congr_ok fun name hname ↦ ?_
      rw [h name (stringFrom_terminated hname)]
    · rfl

section

variable (hc : exports.Clear loaded m)

include hc

theorem applyEntry_eq {bytes : ℕ → UInt8} (hb : loaded.Confines m bytes)
    (h : relocAt s loaded exports m target symbols strings entry = .ok r) (hr : r.InRange loaded) :
    applyEntry s loaded exports target symbols strings { m with bytes := bytes } entry =
      .ok (applyAll [r] { m with bytes := bytes }) := by
  have hsym := symbolAddress_congr s loaded (hc bytes hb) symbols strings
  obtain ⟨info, hinfo, h⟩ := bind_eq_ok.mp h
  obtain ⟨symbol, hsymbol, h⟩ := bind_eq_ok.mp h
  obtain ⟨address, haddress, h⟩ := bind_eq_ok.mp h
  obtain ⟨offset, hoffset, h⟩ := bind_eq_ok.mp h
  obtain ⟨addend, haddend, h⟩ := bind_eq_ok.mp h
  obtain rfl := Except.ok.inj h
  simp only [applyEntry, hinfo, hsym, hsymbol, haddress, hoffset, haddend, bind, Except.bind, pure,
    Except.pure, applyAll, Reloc.data]
  cases symbol with
  | error e => rfl
  | ok symbol =>
    simp only
    cases ht : RelocationType.ofCode (relaType info) with
    | none => rfl
    | some t =>
      simp only
      cases hd : relocate symbol addend ((address + offset) % 2 ^ 64) t with
      | error e => rfl
      | ok data =>
        have hdata := (Reloc.data_of_type (r := ⟨(address + offset) % 2 ^ 64, relaType info,
          .ok symbol, addend⟩) rfl ht).trans hd
        have hin := hr.data hdata
        simp only [LoadedImage.store]
        rw [if_pos hin]

theorem applyEntries_eq {bytes : ℕ → UInt8} (hb : loaded.Confines m bytes)
    (h : relocsFrom s loaded exports m target symbols strings left entry = .ok rs) (hr : ∀ r ∈ rs, r.InRange loaded) :
    applyEntries s loaded exports target symbols strings left entry { m with bytes := bytes } =
      .ok (applyAll rs { m with bytes := bytes }) := by
  induction left generalizing entry bytes rs with
  | zero =>
    cases h
    rfl
  | succ left ih =>
    obtain ⟨r, hat, h⟩ := bind_eq_ok.mp h
    obtain ⟨rs', hfrom, h⟩ := bind_eq_ok.mp h
    cases h
    have hr' := fun q hq ↦ hr q (mem_cons_of_mem r hq)
    have hentry := applyEntry_eq hc hb hat (hr r mem_cons_self)
    rw [applyEntries, hentry]
    simp only [bind, Except.bind, applyAll]
    cases hd : r.data with
    | error e => rfl
    | ok d =>
      obtain ⟨hlo, hhi⟩ := (hr r mem_cons_self).data hd
      have hw := confines_write hb hlo hhi
      simp only
      rw [Memory.write_eq]
      exact ih hw hfrom hr'

theorem applySection_eq {bytes : ℕ → UInt8} (hb : loaded.Confines m bytes)
    (h : relocsIn s loaded exports m i = .ok rs) (hr : ∀ r ∈ rs, r.InRange loaded) :
    applySection s loaded exports { m with bytes := bytes } i = .ok (applyAll rs { m with bytes := bytes }) := by
  obtain ⟨type, htype, h⟩ := bind_eq_ok.mp h
  rw [applySection, htype]
  simp only [bind, Except.bind]
  split at h
  · rename_i hne
    cases h
    rw [if_pos hne]
    rfl
  · rename_i hne
    rw [if_neg hne]
    obtain ⟨target, htarget, h⟩ := bind_eq_ok.mp h
    obtain ⟨allocated, hallocated, h⟩ := bind_eq_ok.mp h
    simp only [htarget, hallocated]
    split at h
    · rename_i hno
      cases h
      rw [if_pos hno]
      rfl
    · rename_i hno
      rw [if_neg hno]
      obtain ⟨symbols, hsymbols, h⟩ := bind_eq_ok.mp h
      obtain ⟨strings, hstrings, h⟩ := bind_eq_ok.mp h
      obtain ⟨entries, hentries, h⟩ := bind_eq_ok.mp h
      obtain ⟨size, hsize, h⟩ := bind_eq_ok.mp h
      simp only [hsymbols, hstrings, hentries, hsize]
      exact applyEntries_eq hc hb h hr

theorem applySections_eq {is : List ℕ} {bytes : ℕ → UInt8} (hb : loaded.Confines m bytes)
    (h : relocsOf s loaded exports m is = .ok rs) (hr : ∀ r ∈ rs, r.InRange loaded) :
    applySections s loaded exports is { m with bytes := bytes } = .ok (applyAll rs { m with bytes := bytes }) := by
  induction is generalizing bytes rs with
  | nil =>
    cases h
    rfl
  | cons i is ih =>
    obtain ⟨rs₁, hin, h⟩ := bind_eq_ok.mp h
    obtain ⟨rs₂, hof, h⟩ := bind_eq_ok.mp h
    cases h
    have hr₁ := fun q hq ↦ hr q (mem_append_left rs₂ hq)
    have hr₂ := fun q hq ↦ hr q (mem_append_right rs₁ hq)
    have hw := confines_applyAll hr₁ hb
    rw [applySections, applySection_eq hc hb hin hr₁, applyAll_append]
    rcases hall : applyAll rs₁ { m with bytes := bytes } with ⟨m₁, _ | e⟩
    · have hm₁ := applyAll_eq rs₁ { m with bytes := bytes }
      rw [hall] at hm₁ hw
      simp only at hm₁ hw ⊢
      rw [hm₁]
      exact ih hw hof hr₂
    · rfl

theorem applyRelocations_eq (h : relocs s loaded exports m = .ok rs) (hr : ∀ r ∈ rs, r.InRange loaded) :
    applyRelocations s loaded exports m = .ok (applyAll rs m) :=
  applySections_eq hc (fun _ _ ↦ rfl) h hr

end

end Link

end Eris.Loader
