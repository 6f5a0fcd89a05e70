import Eris.Library.Slots
import Eris.Library.Transition

namespace Eris.Drivers

open Library Library.Slots List

def maxDevices : ℕ := 64

def maxDrivers : ℕ := 32

/-- A bus device was offered to a driver: what the driver made of it, and whether that
started. -/
structure Attempt (Bus Driver Device : Type) where
  bus : Bus
  driver : Driver
  probed : Option Device
  started : Bool
  deriving DecidableEq

variable {Bus Driver Device Id : Type}

def Attempt.binds (a : Attempt Bus Driver Device) : Bool := a.probed.isSome && a.started

/-- The virtual functions of buses, drivers and devices. What `probe` and `start` return may
depend on everything that was tried before. -/
structure Methods (Bus Driver Device Id : Type) where
  id : Bus → Id
  accepts : Driver → Id → Bool
  probe : List (Attempt Bus Driver Device) → Driver → Bus → Option Device
  start : List (Attempt Bus Driver Device) → Device → Bool

/-- The two tables, and all that was tried so far, the latest at the end. -/
structure Registry (Bus Driver Device : Type) where
  devices : List Bus
  drivers : List Driver
  attempts : List (Attempt Bus Driver Device)
  devices_fit : devices.length ≤ maxDevices
  drivers_fit : drivers.length ≤ maxDrivers

namespace Registry

def boot : Registry Bus Driver Device := ⟨[], [], [], Nat.zero_le _, Nat.zero_le _⟩

variable (v : Methods Bus Driver Device Id)

/-- The loop of `device_probe` over the drivers that are left. -/
def offer (bus : Bus) : List Driver → List (Attempt Bus Driver Device) →
    List (Attempt Bus Driver Device) × Option Device
  | [], tried => (tried, none)
  | driver :: rest, tried =>
    if v.accepts driver (v.id bus) then
      match v.probe tried driver bus with
      | none => offer bus rest (tried ++ [⟨bus, driver, none, false⟩])
      | some device =>
        if v.start tried device then (tried ++ [⟨bus, driver, some device, true⟩], some device)
        else offer bus rest (tried ++ [⟨bus, driver, some device, false⟩])
    else offer bus rest tried

def deviceProbe (r : Registry Bus Driver Device) (bus : Bus) :
    Registry Bus Driver Device × Option Device :=
  let (attempts, device) := offer v bus r.drivers r.attempts
  ({ r with attempts := attempts }, device)

/-- The loop of `driver_register` over the devices that are left. -/
def replayDevices (driver : Driver) :
    List Bus → Registry Bus Driver Device → Registry Bus Driver Device
  | [], r => r
  | bus :: rest, r =>
    replayDevices driver rest
      (if v.accepts driver (v.id bus) then (r.deviceProbe v bus).1 else r)

def driverRegister (r : Registry Bus Driver Device) : Option Driver → Registry Bus Driver Device
  | none => r
  | some driver =>
    if h : r.drivers.length < maxDrivers then
      replayDevices v driver r.devices
        { r with
          drivers := r.drivers ++ [driver]
          drivers_fit := by rw [length_append]; exact h }
    else r

def driverUnregister [DecidableEq Driver] (r : Registry Bus Driver Device) :
    Option Driver → Registry Bus Driver Device
  | none => r
  | some driver =>
    match r.drivers.findIdx? (· == driver) with
    | none => r
    | some i =>
      { r with
        drivers := swapRemove r.drivers i
        drivers_fit := by
          rw [length_swapRemove]
          exact (Nat.sub_le _ _).trans r.drivers_fit }

def deviceAnnounce (r : Registry Bus Driver Device) : Option Bus → Registry Bus Driver Device
  | none => r
  | some bus =>
    if h : r.devices.length < maxDevices then
      (deviceProbe v { r with
          devices := r.devices ++ [bus]
          devices_fit := by rw [length_append]; exact h } bus).1
    else r

end Registry

/-- The calls of buses and of drivers, with null pointers as well. -/
inductive Call (Bus Driver : Type)
  | announce (bus : Option Bus)
  | register (driver : Option Driver)
  | unregister (driver : Option Driver)

namespace Registry

variable [DecidableEq Driver]

def call (v : Methods Bus Driver Device Id) (r : Registry Bus Driver Device) :
    Call Bus Driver → Registry Bus Driver Device
  | .announce bus => r.deviceAnnounce v bus
  | .register driver => r.driverRegister v driver
  | .unregister driver => r.driverUnregister driver

def system (v : Methods Bus Driver Device Id) :
    System (Registry Bus Driver Device) (Call Bus Driver) where
  init r := r = boot
  enabled _ _ := True
  step r c := some (r.call v c)

end Registry

section Holding

variable {v : Methods Bus Driver Device Id} {driver : Driver} {drivers : List Driver} {bus : Bus}
  {tried : List (Attempt Bus Driver Device)} {r : Registry Bus Driver Device}

def Held (tried : List (Attempt Bus Driver Device)) (bus : Bus) : Prop :=
  ∃ a ∈ tried, a.bus = bus ∧ a.binds = true

def Undisturbed (tried : List (Attempt Bus Driver Device)) : Prop :=
  tried.Pairwise fun a b ↦ a.binds = true → b.bus ≠ a.bus

def holders [DecidableEq Bus] (tried : List (Attempt Bus Driver Device)) (bus : Bus) :
    List (Driver × Option Device) :=
  (tried.filter fun a ↦ a.bus = bus && a.binds).map fun a ↦ (a.driver, a.probed)

theorem Undisturbed.length_holders [DecidableEq Bus] (h : Undisturbed tried) (bus : Bus) :
    (holders tried bus).length ≤ 1 := by
  have hnone : (tried.filter fun a ↦ a.bus = bus && a.binds).Pairwise fun _ _ ↦ False := by
    refine (List.Pairwise.filter _ h).imp_of_mem ?_
    intro a b ha hb hab
    simp only [mem_filter, Bool.and_eq_true, decide_eq_true_eq] at ha hb
    exact hab ha.2.2 (hb.2.1.trans ha.2.1.symm)
  rw [holders, length_map]
  cases hl : tried.filter fun a ↦ a.bus = bus && a.binds with
  | nil => exact Nat.zero_le _
  | cons a rest =>
    rw [hl] at hnone
    cases rest with
    | nil => exact Nat.le_refl _
    | cons b rest => exact absurd (rel_of_pairwise_cons hnone mem_cons_self) id

theorem offer_spec (bus : Bus) (drivers : List Driver) (tried : List (Attempt Bus Driver Device)) :
    ∃ new, (Registry.offer v bus drivers tried).1 = tried ++ new ∧ (∀ a ∈ new, a.bus = bus) ∧
      (new.Pairwise fun a _ ↦ a.binds = false) ∧
      (new = [] ↔ ∀ driver ∈ drivers, v.accepts driver (v.id bus) = false) := by
  induction drivers generalizing tried with
  | nil => exact ⟨[], (List.append_nil _).symm, nofun, .nil, by simp⟩
  | cons driver rest ih =>
    have hgo (a : Attempt Bus Driver Device) (ha : a.bus = bus) (hb : a.binds = false)
        (hacc : v.accepts driver (v.id bus) = true) :
        ∃ new, (Registry.offer v bus rest (tried ++ [a])).1 = tried ++ new ∧
          (∀ a ∈ new, a.bus = bus) ∧ (new.Pairwise fun a _ ↦ a.binds = false) ∧
          (new = [] ↔ ∀ d ∈ driver :: rest, v.accepts d (v.id bus) = false) := by
      obtain ⟨new, hnew, hbus, hpair, -⟩ := ih (tried ++ [a])
      refine ⟨a :: new, by rw [hnew]; simp, ?_, ?_, by simp [hacc]⟩
      · exact forall_mem_cons.mpr ⟨ha, hbus⟩
      · exact pairwise_cons.mpr ⟨fun _ _ ↦ hb, hpair⟩
    rw [Registry.offer]
    split
    · rename_i hacc
      split
      · exact hgo _ rfl rfl hacc
      · rename_i device _
        split
        · exact ⟨[⟨bus, driver, some device, true⟩], rfl, by simp, by simp, by simp [hacc]⟩
        · exact hgo _ rfl rfl hacc
    · rename_i hacc
      obtain ⟨new, hnew, hbus, hpair, hnil⟩ := ih tried
      exact ⟨new, hnew, hbus, hpair, by simpa [hacc] using hnil⟩

theorem Undisturbed.deviceProbe (h : Undisturbed r.attempts)
    (hfree : Held r.attempts bus → ∀ driver ∈ r.drivers, v.accepts driver (v.id bus) = false) :
    Undisturbed (r.deviceProbe v bus).1.attempts := by
  obtain ⟨new, hnew, hbus, hpair, hnil⟩ := offer_spec bus r.drivers r.attempts
  change Undisturbed (Registry.offer v bus r.drivers r.attempts).1
  rw [hnew]
  refine pairwise_append.mpr ⟨h, ?_, ?_⟩
  · refine hpair.imp ?_
    intro a b ha hbinds
    exact absurd (ha.symm.trans hbinds) (by decide)
  · intro a ha b hb hbinds heq
    have hheld : Held r.attempts bus := ⟨a, ha, heq.symm.trans (hbus b hb), hbinds⟩
    rw [hnil.mpr (hfree hheld)] at hb
    cases hb

theorem held_deviceProbe {other : Bus} (h : Held (r.deviceProbe v bus).1.attempts other) :
    Held r.attempts other ∨ other = bus := by
  obtain ⟨new, hnew, hbus, -, -⟩ := offer_spec (v := v) bus r.drivers r.attempts
  change Held (Registry.offer v bus r.drivers r.attempts).1 other at h
  rw [hnew] at h
  obtain ⟨a, ha, heq, hbinds⟩ := h
  rcases mem_append.mp ha with ha | ha
  · exact .inl ⟨a, ha, heq, hbinds⟩
  · exact .inr (heq.symm.trans (hbus a ha))

theorem Undisturbed.replayDevices {devices : List Bus} (h : Undisturbed r.attempts)
    (hfree : ∀ bus ∈ devices, v.accepts driver (v.id bus) = true → ¬ Held r.attempts bus)
    (hnodup : (devices.filter fun bus ↦ v.accepts driver (v.id bus)).Nodup) :
    Undisturbed (Registry.replayDevices v driver devices r).attempts := by
  induction devices generalizing r with
  | nil => exact h
  | cons bus rest ih =>
    rw [Registry.replayDevices]
    split
    · rename_i hacc
      rw [filter_cons, if_pos hacc, nodup_cons] at hnodup
      have hunheld := hfree bus mem_cons_self hacc
      refine ih (h.deviceProbe fun hheld ↦ absurd hheld hunheld) ?_ hnodup.2
      intro other hother hacc' hheld
      rcases held_deviceProbe hheld with hheld | rfl
      · exact hfree other (mem_cons_of_mem _ hother) hacc' hheld
      · exact hnodup.1 (mem_filter.mpr ⟨hother, hacc'⟩)
    · rename_i hacc
      rw [filter_cons, if_neg hacc] at hnodup
      exact ih h (fun other hother ↦ hfree other (mem_cons_of_mem _ hother)) hnodup

end Holding

section Runs

variable [DecidableEq Driver] {v : Methods Bus Driver Device Id} {r r' : Registry Bus Driver Device}

/-- A new driver matches no recorded device that is held and none that is recorded twice, and
a device that is held is announced again only where no driver matches it. -/
def Spared (v : Methods Bus Driver Device Id) (r : Registry Bus Driver Device) :
    Call Bus Driver → Prop
  | .announce (some bus) => r.devices.length < maxDevices → Held r.attempts bus →
      ∀ driver ∈ r.drivers, v.accepts driver (v.id bus) = false
  | .register (some driver) => r.drivers.length < maxDrivers →
      (∀ bus ∈ r.devices, v.accepts driver (v.id bus) = true → ¬ Held r.attempts bus) ∧
      (r.devices.filter fun bus ↦ v.accepts driver (v.id bus)).Nodup
  | _ => True

theorem attempts_driverUnregister (driver : Option Driver) :
    (r.driverUnregister driver).attempts = r.attempts := by
  cases driver with
  | none => rfl
  | some driver =>
    rw [Registry.driverUnregister]
    split <;> rfl

theorem Undisturbed.call {c : Call Bus Driver} (h : Undisturbed r.attempts) (hok : Spared v r c) :
    Undisturbed (r.call v c).attempts := by
  cases c with
  | announce bus =>
    cases bus with
    | none => exact h
    | some bus =>
      rw [Registry.call, Registry.deviceAnnounce]
      split
      · rename_i hroom
        exact Undisturbed.deviceProbe h (hok hroom)
      · exact h
  | register driver =>
    cases driver with
    | none => exact h
    | some driver =>
      rw [Registry.call, Registry.driverRegister]
      split
      · rename_i hroom
        exact Undisturbed.replayDevices h (hok hroom).1 (hok hroom).2
      · exact h
  | unregister driver =>
    rw [Registry.call, attempts_driverUnregister]
    exact h

/-- In every run of such calls each device has at most one holder, and is left alone from
then on. -/
theorem reached_holders [DecidableEq Bus] (h : (Registry.system v).Reached (Spared v) r) :
    (∀ bus, (holders r.attempts bus).length ≤ 1) ∧ Undisturbed r.attempts := by
  have hundisturbed : Undisturbed r.attempts := by
    refine h.invariant (I := fun r ↦ Undisturbed r.attempts) ?_ ?_
    · rintro r rfl
      exact List.Pairwise.nil
    · intro r r' c hr _ hok hstep
      cases hstep
      exact hr.call hok
  exact ⟨hundisturbed.length_holders, hundisturbed⟩

end Runs

section Overlap

/-- Two drivers that both take every device, and make a new instance of it each time. -/
def eager : Methods ℕ Bool ℕ Unit where
  id _ := ()
  accepts _ _ := true
  probe tried _ _ := some tried.length
  start _ _ := true

theorem reached_holders_eager : ∃ r, (Registry.system eager).Reached (Spared eager) r ∧
    holders r.attempts 7 = [(false, some 0)] ∧ (holders r.attempts 7).length ≤ 1 := by
  have hstart : (Registry.system eager).Reached (Spared eager) Registry.boot := .init rfl
  have hfirst : (Registry.system eager).Reached (Spared eager) _ :=
    .step (.register (some false)) hstart trivial (fun _ ↦ ⟨nofun, by decide⟩) rfl
  have hsecond : (Registry.system eager).Reached (Spared eager) _ :=
    .step (.register (some true)) hfirst trivial (fun _ ↦ ⟨nofun, by decide⟩) rfl
  have hfree : Spared eager (((Registry.boot).call eager (.register (some false))).call eager
      (.register (some true))) (.announce (some 7)) := by
    rintro _ ⟨a, ha, -⟩
    cases ha
  have hlast : (Registry.system eager).Reached (Spared eager) _ :=
    .step (.announce (some 7)) hsecond trivial hfree rfl
  exact ⟨_, hlast, by decide, (reached_holders hlast).1 7⟩

/-- The second driver makes the first one probe and start the device it holds once more. -/
theorem register_disturbs : ∃ r, (Registry.system eager).Reached (fun _ _ ↦ True) r ∧
    holders r.attempts 7 = [(false, some 0), (false, some 1)] ∧ ¬ Undisturbed r.attempts := by
  have hstart : (Registry.system eager).Reached (fun _ _ ↦ True) Registry.boot := .init rfl
  have hfirst : (Registry.system eager).Reached (fun _ _ ↦ True) _ :=
    .step (.register (some false)) hstart trivial trivial rfl
  have hsecond : (Registry.system eager).Reached (fun _ _ ↦ True) _ :=
    .step (.announce (some 7)) hfirst trivial trivial rfl
  have hlast : (Registry.system eager).Reached (fun _ _ ↦ True) _ :=
    .step (.register (some true)) hsecond trivial trivial rfl
  refine ⟨_, hlast, by decide, ?_⟩
  intro h
  exact absurd (h.length_holders 7) (by decide)

end Overlap

end Eris.Drivers
