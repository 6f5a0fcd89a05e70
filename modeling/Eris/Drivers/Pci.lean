import Mathlib

namespace Eris.Drivers.Pci

open List

structure Address where
  bus : Fin 256
  slot : Fin 32
  function : Fin 8
  deriving DecidableEq

structure PciDevice where
  address : Address
  vendor : UInt16
  device : UInt16
  classCode : UInt8
  subclass : UInt8
  progIf : UInt8
  deriving DecidableEq

def maxDevices : ℕ := 64

/-- The configuration space of every function, by registers of 32 bits. -/
abbrev Space := Address → ℕ → UInt32

namespace Space

variable (space : Space)

def read32 (address : Address) (offset : ℕ) : UInt32 := space address (offset % 256 / 4)

def read16 (address : Address) (offset : ℕ) : UInt16 :=
  (space.read32 address offset >>> UInt32.ofNat (offset % 4 / 2 * 16)).toUInt16

def read8 (address : Address) (offset : ℕ) : UInt8 :=
  (space.read32 address offset >>> UInt32.ofNat (offset % 4 * 8)).toUInt8

def Answers (address : Address) : Prop := space.read16 address 0x00 ≠ 0xFFFF

def deviceAt (address : Address) : PciDevice :=
  let revision := space.read32 address 0x08
  { address, vendor := space.read16 address 0x00, device := space.read16 address 0x02,
    classCode := (revision >>> 24).toUInt8, subclass := (revision >>> 16).toUInt8, progIf := (revision >>> 8).toUInt8 }

def secondary (address : Address) : Fin 256 := ⟨(space.read8 address 0x19).toNat, UInt8.toNat_lt _⟩

/-- A bridge that the scan follows. -/
def Follows (address : Address) : Prop :=
  ((space.deviceAt address).classCode = 0x06 ∧ (space.deviceAt address).subclass = 0x04) ∧
    space.secondary address ≠ address.bus

def Multifunction (address : Address) : Prop := space.read8 address 0x0E &&& 0x80 ≠ 0

instance : DecidablePred space.Answers := fun _ ↦ inferInstanceAs (Decidable (_ ≠ _))
instance : DecidablePred space.Follows := fun _ ↦ inferInstanceAs (Decidable (_ ∧ _))
instance : DecidablePred space.Multifunction := fun _ ↦ inferInstanceAs (Decidable (_ ≠ _))

def scanFunction (scanBus : Fin 256 → List PciDevice → Option (List PciDevice)) (devices : List PciDevice)
    (address : Address) : Option (List PciDevice) :=
  if space.Answers address then
    let devices := if devices.length < maxDevices then devices ++ [space.deviceAt address] else devices
    if space.Follows address then scanBus (space.secondary address) devices else some devices
  else some devices

def scanSlot (scanBus : Fin 256 → List PciDevice → Option (List PciDevice)) (bus : Fin 256) (devices : List PciDevice)
    (slot : Fin 32) : Option (List PciDevice) :=
  if space.Answers ⟨bus, slot, 0⟩ then do
    let devices ← space.scanFunction scanBus devices ⟨bus, slot, 0⟩
    if space.Multifunction ⟨bus, slot, 0⟩ then
      [1, 2, 3, 4, 5, 6, 7].foldlM (fun devices function ↦ space.scanFunction scanBus devices ⟨bus, slot, function⟩) devices
    else some devices
  else some devices

/-- With so many calls of `scan_bus` that may be nested. -/
def scanBus : ℕ → Fin 256 → List PciDevice → Option (List PciDevice)
  | 0, _, _ => none
  | depth + 1, bus, devices => (finRange 32).foldlM (space.scanSlot (scanBus depth) bus) devices

/-- There are 256 buses: a call nested deeper is made within one for the same bus, and makes the same calls again. -/
def init : Option (List PciDevice) := space.scanBus 256 0 []

def Present (address : Address) : Prop :=
  space.Answers { address with function := 0 } ∧
    (address.function = 0 ∨ space.Multifunction { address with function := 0 } ∧ space.Answers address)

instance : DecidablePred space.Present := fun _ ↦ inferInstanceAs (Decidable (_ ∧ _))

/-- The bridges, the last one first, over which a bus is reached from bus 0. -/
inductive Route : Fin 256 → List Address → Prop
  | root : Route 0 []
  | bridge {address : Address} {bridges : List Address} : Route address.bus bridges → space.Present address →
      space.Follows address → Route (space.secondary address) (address :: bridges)

/-- The functions on a bus, in the order of the scan. -/
def onBus (bus : Fin 256) : List Address :=
  (finRange 32).flatMap fun slot ↦ ((finRange 8).map (Address.mk bus slot)).filter (space.Present ·)

/-- The functions on a bus and behind its bridges, each with the bridges over which it is reached. -/
def listing : ℕ → Fin 256 → List Address → List (Address × List Address)
  | 0, _, _ => []
  | depth + 1, bus, bridges => (space.onBus bus).flatMap fun address ↦
      (address, bridges) ::
        if space.Follows address then listing depth (space.secondary address) (address :: bridges) else []

variable {space} {bus : Fin 256} {address a b : Address} {bridges : List Address} {depth : ℕ} {devices : List PciDevice}

theorem mem_onBus : address ∈ space.onBus bus ↔ address.bus = bus ∧ space.Present address := by
  obtain ⟨bus', slot, function⟩ := address
  simp only [onBus, mem_flatMap, mem_finRange, true_and, mem_filter, mem_map, decide_eq_true_eq, Address.mk.injEq]
  exact ⟨fun ⟨_, ⟨_, hbus, _, _⟩, hpresent⟩ ↦ ⟨hbus.symm, hpresent⟩, fun ⟨hbus, hpresent⟩ ↦
    ⟨slot, ⟨function, hbus.symm, rfl, rfl⟩, hpresent⟩⟩

theorem nodup_onBus (space : Space) (bus : Fin 256) : (space.onBus bus).Nodup := by
  refine nodup_flatMap.mpr ⟨fun slot _ ↦ ?_, (nodup_finRange 32).imp fun {slot slot'} hne a ha ha' ↦ hne ?_⟩
  · exact ((nodup_finRange 8).map fun _ _ h ↦ (Address.mk.inj h).2.2).filter _
  · obtain ⟨_, -, rfl⟩ := mem_map.mp (mem_filter.mp ha).1
    obtain ⟨_, -, h⟩ := mem_map.mp (mem_filter.mp ha').1
    exact (Address.mk.inj h).2.1.symm

theorem scanSlot_eq {scan : Fin 256 → List PciDevice → Option (List PciDevice)} {slot : Fin 32} :
    space.scanSlot scan bus devices slot =
      (((finRange 8).map (Address.mk bus slot)).filter (space.Present ·)).foldlM (space.scanFunction scan) devices := by
  rw [foldlM_filter, foldlM_map, scanSlot]
  change _ = foldlM _ devices [0, 1, 2, 3, 4, 5, 6, 7]
  by_cases hfirst : space.Answers ⟨bus, slot, 0⟩
  · by_cases hmulti : space.Multifunction ⟨bus, slot, 0⟩
    · have hstep : ∀ devices function, (if space.Present ⟨bus, slot, function⟩ then
          space.scanFunction scan devices ⟨bus, slot, function⟩ else pure devices) =
          space.scanFunction scan devices ⟨bus, slot, function⟩ := by
        intro devices function
        by_cases hanswers : space.Answers ⟨bus, slot, function⟩
        · exact if_pos ⟨hfirst, .inr ⟨hmulti, hanswers⟩⟩
        · rw [scanFunction, if_neg hanswers]
          exact ite_self _
      simp only [decide_eq_true_eq, hstep, hfirst, hmulti, if_true]
      rfl
    · simp [Present, hmulti]
  · simp [Present, hfirst]

theorem scanBus_succ : space.scanBus (depth + 1) bus devices =
    (space.onBus bus).foldlM (space.scanFunction (space.scanBus depth)) devices := by
  rw [scanBus, onBus]
  induction finRange 32 generalizing devices with
  | nil => rfl
  | cons slot slots ih =>
    rw [foldlM_cons, flatMap_cons, foldlM_append, scanSlot_eq]
    exact bind_congr fun devices ↦ ih

theorem Present.answers (h : space.Present address) : space.Answers address := by
  obtain ⟨bus, slot, function⟩ := address
  obtain ⟨hfirst, rfl | ⟨-, hanswers⟩⟩ := h
  · exact hfirst
  · exact hanswers

theorem take_append_take {α : Type} (n : ℕ) (l l' : List α) : (l.take n ++ l').take n = (l ++ l').take n := by
  rw [take_append, take_append, take_take, min_self, length_take]
  congr 2
  omega

theorem scanFunction_eq {scan : Fin 256 → List PciDevice → Option (List PciDevice)} {behind : List PciDevice}
    (hpresent : space.Present address) (hroom : devices.length ≤ maxDevices)
    (hscan : space.Follows address → ∀ devices, devices.length ≤ maxDevices →
      scan (space.secondary address) devices = some ((devices ++ behind).take maxDevices))
    (hend : ¬ space.Follows address → behind = []) :
    space.scanFunction scan devices address = some ((devices ++ space.deviceAt address :: behind).take maxDevices) := by
  have hrecord : (if devices.length < maxDevices then devices ++ [space.deviceAt address] else devices) =
      (devices ++ [space.deviceAt address]).take maxDevices := by
    split
    · rw [take_of_length_le (by simpa)]
    · rw [take_append_of_le_length (by omega), take_of_length_le hroom]
  rw [scanFunction, if_pos hpresent.answers, hrecord]
  by_cases hfollows : space.Follows address
  · rw [if_pos hfollows, hscan hfollows _ (length_take_le ..), take_append_take, append_assoc, singleton_append]
  · rw [if_neg hfollows, hend hfollows]

/-- No chain of bridges that begins on bus 0 is longer than the buses allow. -/
def Bounded (space : Space) : Prop := ∀ bus bridges, space.Route bus bridges → bridges.length < 256

theorem scanBus_eq (hbound : space.Bounded) (hroute : space.Route bus bridges) (hdepth : 256 ≤ bridges.length + depth)
    (hroom : devices.length ≤ maxDevices) : space.scanBus depth bus devices =
      some ((devices ++ (space.listing depth bus bridges).map fun met ↦ space.deviceAt met.1).take maxDevices) := by
  induction depth generalizing bus bridges devices with
  | zero => exact absurd (hbound _ _ hroute) (by omega)
  | succ depth ih =>
    have hbus : ∀ address ∈ space.onBus bus, address.bus = bus ∧ space.Present address := fun _ h ↦ mem_onBus.mp h
    rw [scanBus_succ, listing]
    generalize space.onBus bus = functions at hbus
    induction functions generalizing devices with
    | nil =>
      rw [flatMap_nil, map_nil, append_nil, take_of_length_le hroom]
      rfl
    | cons address rest ihrest =>
      obtain ⟨⟨rfl, hpresent⟩, hrest⟩ := forall_mem_cons.mp hbus
      generalize hbehind : (if space.Follows address then
        space.listing depth (space.secondary address) (address :: bridges) else []) = behind
      have hfirst : space.scanFunction (space.scanBus depth) devices address =
          some ((devices ++ space.deviceAt address :: behind.map fun met ↦ space.deviceAt met.1).take maxDevices) := by
        refine scanFunction_eq hpresent hroom (fun hfollows devices hroom ↦ ?_) fun hend ↦ ?_
        · rw [if_pos hfollows] at hbehind
          rw [← hbehind]
          exact ih (hroute.bridge hpresent hfollows) (by rw [length_cons]; omega) hroom
        · rw [← hbehind, if_neg hend, map_nil]
      rw [foldlM_cons, hfirst, Option.bind_eq_bind, Option.bind_some, ihrest (length_take_le ..) hrest, take_append_take,
        append_assoc, flatMap_cons, hbehind, map_append]
      rfl

theorem Route.split {front : List Address} (h : space.Route bus (front ++ address :: bridges)) :
    space.Route address.bus bridges ∧ space.Present address ∧ space.Follows address := by
  induction front generalizing bus with
  | nil =>
    obtain _ | ⟨hroute, hpresent, hfollows⟩ := h
    exact ⟨hroute, hpresent, hfollows⟩
  | cons b front ih =>
    obtain _ | ⟨hroute, -, -⟩ := h
    exact ih hroute

theorem Route.target {bus' : Fin 256} (h : space.Route bus bridges) (h' : space.Route bus' bridges) : bus = bus' := by
  cases h <;> cases h' <;> rfl

theorem exists_of_foldlM {α β : Type} {f : β → α → Option β} {l : List α} {x y : β} (h : l.foldlM f x = some y) {a : α}
    (ha : a ∈ l) : ∃ x' y', f x' a = some y' := by
  induction l generalizing x with
  | nil => cases ha
  | cons c l ih =>
    obtain ⟨z, hz, h⟩ := Option.bind_eq_some_iff.mp h
    obtain rfl | ha := mem_cons.mp ha
    · exact ⟨x, z, hz⟩
    · exact ih h ha

theorem length_lt_of_scanBus {front : List Address} {bus' : Fin 256} {result : List PciDevice}
    (h : space.scanBus depth bus devices = some result) (hroute : space.Route bus bridges)
    (hfront : space.Route bus' (front ++ bridges)) : front.length < depth := by
  induction depth generalizing bus bridges devices front result with
  | zero => cases h
  | succ depth ih =>
    obtain rfl | ⟨front, address, rfl⟩ := eq_nil_or_concat front
    · exact Nat.succ_pos depth
    · rw [concat_eq_append, append_assoc, singleton_append] at hfront
      obtain ⟨hroute', hpresent, hfollows⟩ := hfront.split
      rw [scanBus_succ] at h
      obtain ⟨before, result, hscan⟩ := exists_of_foldlM h (mem_onBus.mpr ⟨hroute'.target hroute, hpresent⟩)
      rw [scanFunction, if_pos hpresent.answers] at hscan
      rw [if_pos hfollows] at hscan
      rw [concat_eq_append, length_append]
      exact Nat.succ_lt_succ (ih hscan (hroute'.bridge hpresent hfollows) hfront)

theorem of_mem_listing {met : Address × List Address} (hroute : space.Route bus bridges)
    (h : met ∈ space.listing depth bus bridges) :
    (∃ front, met.2 = front ++ bridges) ∧ space.Route met.1.bus met.2 ∧ space.Present met.1 := by
  induction depth generalizing bus bridges with
  | zero => cases h
  | succ depth ih =>
    obtain ⟨address, haddress, hmet⟩ := mem_flatMap.mp h
    obtain ⟨rfl, hpresent⟩ := mem_onBus.mp haddress
    obtain rfl | hmet := mem_cons.mp hmet
    · exact ⟨⟨[], rfl⟩, hroute, hpresent⟩
    · obtain ⟨hfollows, hmet⟩ := mem_ite_nil_right.mp hmet
      obtain ⟨⟨front, hfront⟩, hmet⟩ := ih (hroute.bridge hpresent hfollows) hmet
      exact ⟨⟨front ++ [address], by rw [hfront, append_assoc]; rfl⟩, hmet⟩

theorem mem_listing {front : List Address} (hbound : space.Bounded) (hroute : space.Route bus bridges)
    (hdepth : 256 ≤ bridges.length + depth) (hfront : space.Route address.bus (front ++ bridges))
    (hpresent : space.Present address) : (address, front ++ bridges) ∈ space.listing depth bus bridges := by
  induction depth generalizing bus bridges front with
  | zero => exact absurd (hbound _ _ hroute) (by omega)
  | succ depth ih =>
    obtain rfl | ⟨front, b, rfl⟩ := eq_nil_or_concat front
    · exact mem_flatMap.mpr ⟨address, mem_onBus.mpr ⟨hfront.target hroute, hpresent⟩, mem_cons_self⟩
    · rw [concat_eq_append, append_assoc, singleton_append] at hfront ⊢
      obtain ⟨hroute', hb, hfollows⟩ := hfront.split
      refine mem_flatMap.mpr ⟨b, mem_onBus.mpr ⟨hroute'.target hroute, hb⟩, mem_cons_of_mem _ ?_⟩
      rw [if_pos hfollows]
      exact ih (hroute'.bridge hb hfollows) (by rw [length_cons]; omega) hfront

theorem ne_append_cons (front bridges : List Address) (address : Address) : bridges ≠ front ++ address :: bridges := by
  intro h
  have hlength := congrArg length h
  rw [length_append, length_cons] at hlength
  omega

theorem nodup_listing (hroute : space.Route bus bridges) (depth : ℕ) : (space.listing depth bus bridges).Nodup := by
  induction depth generalizing bus bridges with
  | zero => exact nodup_nil
  | succ depth ih =>
    have hbehind : ∀ a ∈ space.onBus bus, ∀ met ∈ (if space.Follows a then
        space.listing depth (space.secondary a) (a :: bridges) else []), ∃ front, met.2 = front ++ a :: bridges := by
      intro a ha met hmet
      obtain ⟨rfl, hpresent⟩ := mem_onBus.mp ha
      obtain ⟨hfollows, hmet⟩ := mem_ite_nil_right.mp hmet
      exact (of_mem_listing (hroute.bridge hpresent hfollows) hmet).1
    refine nodup_flatMap.mpr ⟨fun a ha ↦ nodup_cons.mpr ⟨fun hself ↦ ?_, ?_⟩,
      (space.nodup_onBus bus).imp_of_mem fun {a b} ha hb hne met hmet hmet' ↦ ?_⟩
    · obtain ⟨front, hfront⟩ := hbehind a ha _ hself
      exact ne_append_cons _ _ _ hfront
    · obtain ⟨rfl, hpresent⟩ := mem_onBus.mp ha
      split
      case isTrue hfollows => exact ih (hroute.bridge hpresent hfollows)
      case isFalse => exact nodup_nil
    · obtain rfl | hmet := mem_cons.mp hmet
      · obtain hsame | hmet' := mem_cons.mp hmet'
        · exact hne (Prod.mk.inj hsame).1
        · obtain ⟨front, hfront⟩ := hbehind b hb _ hmet'
          exact ne_append_cons _ _ _ hfront
      · obtain ⟨front, hfront⟩ := hbehind a ha _ hmet
        obtain rfl | hmet' := mem_cons.mp hmet'
        · exact ne_append_cons _ _ _ hfront
        · obtain ⟨front', hfront'⟩ := hbehind b hb _ hmet'
          exact hne (cons.inj (append_inj' (hfront.symm.trans hfront') rfl).2).1

/-- The scan ends without recording a function twice exactly if no chain of bridges comes back to a bus and the first
functions it meets, as many as the table holds, are all met over one chain each. -/
theorem init_nodup_iff (space : Space) :
    (∃ devices, space.init = some devices ∧ (devices.map (·.address)).Nodup) ↔ space.Bounded ∧
      ∀ met ∈ (space.listing 256 0 []).take maxDevices, ∀ met' ∈ (space.listing 256 0 []).take maxDevices,
        met.1 = met'.1 → met = met' := by
  have hnodup : ((space.listing 256 0 []).take maxDevices).Nodup := (take_sublist ..).nodup (nodup_listing .root 256)
  have hinit (hbound : space.Bounded) : space.init = some _ := scanBus_eq hbound .root (Nat.le_add_left ..) (Nat.zero_le _)
  have haddress : ((((space.listing 256 0 []).map fun met ↦ space.deviceAt met.1).take maxDevices).map (·.address)) =
      ((space.listing 256 0 []).take maxDevices).map Prod.fst := by
    rw [← map_take, map_map]
    rfl
  rw [← nodup_map_iff_inj_on hnodup, ← haddress]
  constructor
  · rintro ⟨devices, hdevices, honce⟩
    have hbound : space.Bounded := fun bus bridges hroute ↦ by
      rw [← append_nil bridges] at hroute
      exact length_lt_of_scanBus hdevices .root hroute
    rw [hinit hbound, nil_append] at hdevices
    cases hdevices
    exact ⟨hbound, honce⟩
  · rintro ⟨hbound, honce⟩
    exact ⟨_, hinit hbound, honce⟩

end Space

open Space

def bridgeTo (secondary : UInt32) (register : ℕ) : UInt32 :=
  if register = 2 then 0x06040000 else if register = 6 then secondary <<< 8 else 0x8086

/-- Buses 0 and 1, each with a bridge to the other one. -/
def looped : Space := fun address register ↦
  if address = ⟨0, 0, 0⟩ then bridgeTo 1 register else if address = ⟨1, 0, 0⟩ then bridgeTo 0 register else 0xFFFFFFFF

/-- Two bridges to bus 1, with one function on it. -/
def doubled : Space := fun address register ↦
  if address = ⟨0, 0, 0⟩ ∨ address = ⟨0, 1, 0⟩ then bridgeTo 1 register
  else if address = ⟨1, 0, 0⟩ then 0x8086 else 0xFFFFFFFF

theorem looped_endless : (¬ ∃ depth devices, looped.scanBus depth 0 [] = some devices) ∧
    doubled.init = some [doubled.deviceAt ⟨0, 0, 0⟩, doubled.deviceAt ⟨1, 0, 0⟩, doubled.deviceAt ⟨0, 1, 0⟩,
      doubled.deviceAt ⟨1, 0, 0⟩] := by
  refine ⟨?_, by decide +kernel⟩
  rintro ⟨depth, devices, h⟩
  have hfirst : looped.Present ⟨0, 0, 0⟩ ∧ looped.Follows ⟨0, 0, 0⟩ := by decide
  have hsecond : looped.Present ⟨1, 0, 0⟩ ∧ looped.Follows ⟨1, 0, 0⟩ := by decide
  have hroutes : ∀ n, ∃ bridges : List Address, n ≤ bridges.length ∧ looped.Route 0 bridges := by
    intro n
    induction n with
    | zero => exact ⟨[], Nat.le_refl 0, .root⟩
    | succ n ih =>
      obtain ⟨bridges, hn, hroute⟩ := ih
      have hthere : looped.Route 1 _ := .bridge hroute hfirst.1 hfirst.2
      have hback : looped.Route 0 _ := .bridge hthere hsecond.1 hsecond.2
      exact ⟨_, by simp only [length_cons]; omega, hback⟩
  obtain ⟨bridges, hlength, hroute⟩ := hroutes depth
  rw [← append_nil bridges] at hroute
  exact absurd (length_lt_of_scanBus h .root hroute) (Nat.not_lt.mpr hlength)

namespace Space

variable {space : Space} {bus : Fin 256} {bridges bridges' : List Address}

/-- The function is there, on a bus that is reached over bridges. -/
def Reached (space : Space) (address : Address) : Prop := space.Present address ∧ ∃ bridges, space.Route address.bus bridges

structure Tree (space : Space) : Prop where
  unique : ∀ a b, space.Reached a → space.Reached b → space.Follows a → space.Follows b →
    space.secondary a = space.secondary b → a = b
  root : ∀ a, space.Reached a → space.Follows a → space.secondary a ≠ 0

theorem Tree.route_unique (htree : space.Tree) (h : space.Route bus bridges) (h' : space.Route bus bridges') :
    bridges = bridges' := by
  induction h generalizing bridges' with
  | root =>
    generalize hzero : (0 : Fin 256) = bus at h'
    obtain _ | ⟨hroute, hpresent, hfollows⟩ := h'
    · rfl
    · exact absurd hzero.symm (htree.root _ ⟨hpresent, _, hroute⟩ hfollows)
  | @bridge address bridges hroute hpresent hfollows ih =>
    generalize hbus : space.secondary address = bus at h'
    obtain _ | ⟨hroute', hpresent', hfollows'⟩ := h'
    · exact absurd hbus (htree.root _ ⟨hpresent, _, hroute⟩ hfollows)
    · obtain rfl := htree.unique _ _ ⟨hpresent, _, hroute⟩ ⟨hpresent', _, hroute'⟩ hfollows hfollows' hbus
      rw [ih hroute']

theorem Tree.nodup_route (htree : space.Tree) (h : space.Route bus bridges) : (bus :: bridges.map (·.bus)).Nodup := by
  induction h with
  | root => exact nodup_singleton _
  | @bridge address bridges hroute hpresent hfollows ih =>
    refine nodup_cons.mpr ⟨fun hmem ↦ ?_, ih⟩
    obtain ⟨b, hb, hbus⟩ := mem_map.mp hmem
    obtain ⟨front, rest, hsplit⟩ := append_of_mem hb
    have hthere := hroute.bridge hpresent hfollows
    have hrest := (hsplit ▸ hthere).split.1
    rw [hbus] at hrest
    exact ne_append_cons _ _ _ ((htree.route_unique hrest hthere).trans hsplit)

theorem Tree.bounded (htree : space.Tree) : space.Bounded := by
  intro bus bridges hroute
  have hlength := (htree.nodup_route hroute).length_le_card
  rw [length_cons, length_map, Fintype.card_fin] at hlength
  omega

instance : Finite Address :=
  Finite.of_injective (fun a ↦ (a.bus, a.slot, a.function)) fun ⟨_, _, _⟩ ⟨_, _, _⟩ h ↦ by cases h; rfl

/-- A bridge to bus 1, with one function on it. -/
def bridged : Space := fun address register ↦
  if address = ⟨0, 0, 0⟩ then bridgeTo 1 register else if address = ⟨1, 0, 0⟩ then 0x8086 else 0xFFFFFFFF

end Space

end Eris.Drivers.Pci
