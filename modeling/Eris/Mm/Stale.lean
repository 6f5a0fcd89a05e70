import Eris.Mm.Shootdown

namespace Eris.Mm

open Library Function Editor

namespace Memory

variable {m : Memory} {a : ℕ}

theorem pageMap_congr {m' : Memory} {p : Fin (2 ^ 36)} (h : m'.leaf (p * pageSize) = m.leaf (p * pageSize)) :
    m'.pageMap p = m.pageMap p := by
  rw [pageMap, pageMap, h]

theorem unmap_page (hm : m.Wf) (a : ℕ) :
    (∀ p, m.pageMap p = none → (m.unmap a pageSize).1.pageMap p = none) ∧
    ((m.unmap a pageSize).2 = true → (m.unmap a pageSize).1.pageMap (pageAt a) = none) := by
  obtain ⟨done, h⟩ := Call.run_spec hm (.unmap a pageSize)
  have hnone : ∀ p : Fin (2 ^ 36), pageOf (p * pageSize) ∈ Set.image pageOf (span a done) →
      (m.unmap a pageSize).1.pageMap p = none := by
    intro p hp
    obtain ⟨k, -, -, e, he⟩ := h.written _ hp
    have hleaf : (m.unmap a pageSize).1.leaf (p * pageSize) = {} := (Option.some.inj he).symm
    rw [pageMap, hleaf]
    rfl
  refine ⟨fun p hp ↦ ?_, fun hok ↦ ?_⟩
  · by_cases hin : pageOf (p * pageSize) ∈ Set.image pageOf (span a done)
    · exact hnone p hin
    · rcases h.edit.leaf _ hin with he | ⟨hu, -⟩
      · rw [← hp]
        exact pageMap_congr he
      · cases hu
  · have hdone := (h.finished hok).trans (show pagesOf pageSize = 1 by decide)
    refine hnone _ ⟨a, ⟨0, by omega, by simp⟩, ?_⟩
    exact (pageOf_mul (pageAt a).2).symm

end Memory

/-- The pages that the loop of an `unmap` has written, and those it has thrown out of the cache as well. -/
def Place.written (n : ℕ) : Place → ℕ
  | .write k => k
  | .invalidate k => k + 1
  | .broadcast => n
  | .leave => n
  | _ => 0

def Place.invalidated (n : ℕ) : Place → ℕ
  | .write k => k
  | .invalidate k => k
  | .broadcast => n
  | .leave => n
  | _ => 0

def Place.Inside : Place → Prop
  | .outside => False
  | .lock => False
  | _ => True

namespace Editor

def pages (e : Editor) : ℕ := Memory.pagesOf e.call.length

/-- One of the first pages of an `unmap`. -/
def Covers (e : Editor) (n : ℕ) (p : Fin (2 ^ 36)) : Prop :=
  e.call.flags = none ∧ ∃ k < n, p = pageAt (e.call.address + k * pageSize)

def written (e : Editor) : ℕ := e.place.written e.pages

def invalidated (e : Editor) : ℕ := e.place.invalidated e.pages

variable {e : Editor} {n n' : ℕ} {p : Fin (2 ^ 36)}

theorem Covers.mono (h : e.Covers n p) (hle : n ≤ n') : e.Covers n' p := by
  obtain ⟨hflags, k, hk, hp⟩ := h
  exact ⟨hflags, k, Nat.lt_of_lt_of_le hk hle, hp⟩

theorem Covers.of_call {e' : Editor} (h : e.Covers n p) (hcall : e.call = e'.call) (hle : n ≤ n') : e'.Covers n' p := by
  rw [Covers, hcall] at h
  exact Covers.mono h hle

theorem invalidated_le (e : Editor) : e.invalidated ≤ e.written := by
  unfold invalidated written
  cases e.place with
  | invalidate k => exact Nat.le_succ k
  | _ => exact Nat.le_refl _

theorem not_covers_of_outside (h : ¬ e.place.Inside) : ¬ e.Covers e.written p := by
  rintro ⟨-, k, hk, -⟩
  unfold written at hk
  cases hplace : e.place with
  | outside => rw [hplace] at hk; cases hk
  | lock => rw [hplace] at hk; cases hk
  | _ => rw [hplace] at h; exact h trivial

end Editor

namespace Cores

variable {ι : Type} {s s' : Cores ι} {boot i j : ι} {e : Editor} {p : Fin (2 ^ 36)}

/-- What the caches can hold while a page is being unmapped. -/
structure Sound (boot : ι) (s : Cores ι) : Prop where
  wf : s.memory.Wf
  off : ∀ i p, s.life i = .off → s.cached i p = none
  lapic : ∀ i, s.life i ≠ .off → i = boot ∨ s.lapic = true
  running : ∀ i, (s.editors i).place ≠ .outside → s.life i ≠ .off
  lock : ∀ i, (s.editors i).place.Inside → s.tableLock = some i
  unmapped : ∀ i p, (s.editors i).Covers (s.editors i).written p → s.memory.pageMap p = none
  dropped : ∀ i p, (s.editors i).Covers (s.editors i).invalidated p → s.cached i p = none
  flushed : ∀ i j p, (s.editors i).place = .leave → j ≠ i → (s.editors i).Covers (s.editors i).pages p →
    s.cached j p = none ∨ 0 < s.flight i j

/-- A call that comes to its broadcast has seen that there are others, if there are, and all of them take interrupts.
An `unmap` returns when all of its interrupts were handled. -/
def Acknowledged (s : Cores ι) : Action ι → Prop
  | .advance i =>
    match (s.editors i).place with
    | .broadcast => (s.editors i).call.flags = none → ∀ j ≠ i, s.life j ≠ .off → s.life j = .listening ∧ (s.editors i).shared
    | .leave => ∀ j, s.flight i j = 0
    | _ => True
  | _ => True

section

variable (h : Sound boot s)

include h

theorem Sound.alone (hin : (s.editors i).place.Inside) (hj : j ≠ i) : ¬ (s.editors j).place.Inside := by
  intro hj'
  have hlock := h.lock j hj'
  rw [h.lock i hin, Option.some.injEq] at hlock
  exact hj hlock.symm

theorem Sound.running_of_inside (hin : (s.editors i).place.Inside) : s.life i ≠ .off := by
  refine h.running i fun hout ↦ ?_
  rw [hout] at hin
  exact hin

/-- The caches change, and interrupts come to their end, while the calls rest. -/
theorem Sound.recache {cached : ι → Fin (2 ^ 36) → Option ℕ} {flight : ι → ι → ℕ}
    (hcached : ∀ i p, cached i p = none ∨ cached i p = s.cached i p ∨ s.life i ≠ .off ∧ s.memory.pageMap p ≠ none)
    (hflight : ∀ i j, s.flight i j ≤ flight i j ∨ ∀ p, cached j p = none) :
    Sound boot { s with cached := cached, flight := flight } := by
  refine { h with off := fun i p hi ↦ ?_, dropped := fun i p hc ↦ ?_, flushed := fun i j p hplace hne hc ↦ ?_ }
  · have := h.off i p hi
    grind
  · have := h.unmapped i p (hc.mono (invalidated_le _))
    have := h.dropped i p hc
    grind
  · have := h.unmapped i p (by rw [Editor.written, hplace]; exact hc)
    have := h.flushed i j p hplace hne hc
    grind

variable [DecidableEq ι]

theorem Sound.forget : Sound boot (s.uncache i p) := by
  refine h.recache (fun j q ↦ ?_) fun _ _ ↦ .inl (Nat.le_refl _)
  simp only [update_apply]
  grind

theorem Sound.fill (hon : s.life i ≠ .off) (hs : s.fill i p = some s') : Sound boot s' := by
  unfold Cores.fill at hs
  split at hs
  · cases hs
  · cases hs
    refine h.recache (fun j q ↦ ?_) fun _ _ ↦ .inl (Nat.le_refl _)
    simp only [update_apply]
    grind

theorem Sound.handle (hs : s.handle i j = some s') : Sound boot s' := by
  unfold Cores.handle at hs
  split at hs
  · cases hs
    refine h.recache (fun k q ↦ ?_) (fun k l ↦ ?_)
    · simp only [update_apply, ite_apply]
      grind
    · simp only [update_apply, ite_apply]
      grind
  · cases hs

theorem Sound.setLife {life : Life} (hlife : life ≠ .off) (hon : s.life i ≠ .off ∨ s.lapic = true) :
    Sound boot (s.setLife i life) := by
  have hnew := update_apply s.life i life
  unfold Cores.setLife
  generalize update s.life i life = lives at hnew
  have ⟨_, _, _, _, _, _, _, _⟩ := h
  exact { h with off := by grind, lapic := by grind, running := by grind }

/-- A step of one call. -/
theorem Sound.put {m : Memory} {lock : Option ι} (hrunning : e.place ≠ .outside → s.life i ≠ .off) (hwf : m.Wf)
    (hmemory : m = s.memory ∨ (s.editors i).place.Inside)
    (hothers : ∀ j ≠ i, (s.editors j).place.Inside → lock = some j) (hself : e.place.Inside → lock = some i)
    (hunmapped : ∀ p, e.Covers e.written p → m.pageMap p = none)
    (hdropped : ∀ p, e.Covers e.invalidated p → s.cached i p = none)
    (hflushed : e.place = .leave → ∀ j p, j ≠ i → e.Covers e.pages p → s.cached j p = none ∨ 0 < s.flight i j) :
    Sound boot { s.put i e with memory := m, tableLock := lock } := by
  have hkept : ∀ j ≠ i, ∀ p, (s.editors j).Covers (s.editors j).written p → m.pageMap p = none := by
    intro j hj p hc
    rcases hmemory with rfl | hin
    · exact h.unmapped j p hc
    · exact absurd hc (not_covers_of_outside (h.alone hin hj))
  have heditors := update_apply s.editors i e
  unfold Cores.put
  generalize update s.editors i e = editors at heditors
  have ⟨_, _, _, _, _, _, _, _⟩ := h
  exact { h with wf := hwf, running := by grind, lock := by grind, unmapped := by grind, dropped := by grind, flushed := by grind }

theorem Sound.outside {m : Memory} (hwf : m.Wf) (hmemory : m = s.memory ∨ (s.editors i).place.Inside)
    (he : ¬ e.place.Inside) (hrunning : e.place ≠ .outside → s.life i ≠ .off) {lock : Option ι}
    (hothers : ∀ j ≠ i, (s.editors j).place.Inside → lock = some j) :
    Sound boot { s.put i e with memory := m, tableLock := lock } :=
  h.put hrunning hwf hmemory hothers (fun hj ↦ absurd hj he) (fun _ hc ↦ absurd hc (not_covers_of_outside he))
    (fun _ hc ↦ absurd (hc.mono (invalidated_le _)) (not_covers_of_outside he))
    fun hleave ↦ absurd (hleave ▸ trivial) he

theorem Sound.release (hin : (s.editors i).place.Inside) {m : Memory} (hwf : m.Wf) (he : e.place = .outside) :
    Sound boot { s.put i e with memory := m, tableLock := none } :=
  h.outside hwf (.inr hin) (by rw [he]; exact id) (fun hne ↦ absurd he hne) fun _ hj hj' ↦ absurd hj' (h.alone hin hj)

theorem Sound.inside (hin : (s.editors i).place.Inside) {m : Memory} (hwf : m.Wf)
    (hunmapped : ∀ p, e.Covers e.written p → m.pageMap p = none)
    (hdropped : ∀ p, e.Covers e.invalidated p → s.cached i p = none)
    (hflushed : e.place = .leave → ∀ j p, j ≠ i → e.Covers e.pages p → s.cached j p = none ∨ 0 < s.flight i j) :
    Sound boot { s.put i e with memory := m } :=
  h.put (fun _ ↦ h.running_of_inside hin) hwf (.inr hin) (fun _ hj hj' ↦ absurd hj' (h.alone hin hj))
    (fun _ ↦ h.lock i hin) hunmapped hdropped hflushed

theorem Sound.lockTaken (hfree : s.tableLock = none) (hrunning : s.life i ≠ .off) (he : e.place = .write 0) :
    Sound boot { s.put i e with tableLock := some i } := by
  have hzero : ∀ p, ¬ e.Covers e.written p := by
    rintro p ⟨-, k, hk, -⟩
    rw [Editor.written, he] at hk
    cases hk
  refine h.put (fun _ ↦ hrunning) h.wf (.inl rfl) (fun j _ hj ↦ ?_) (fun _ ↦ rfl) (fun p hc ↦ absurd hc (hzero p))
    (fun p hc ↦ absurd (hc.mono (invalidated_le _)) (hzero p)) (fun hleave ↦ ?_)
  · rw [h.lock j hj] at hfree
    cases hfree
  · rw [he] at hleave
    cases hleave

theorem Sound.write {k : ℕ} (hplace : (s.editors i).place = .write k) (hcall : e.call = (s.editors i).call)
    (he : e.place = .invalidate k) (hok : (((s.editors i).call.page k).run s.memory).2 = true) :
    Sound boot { s.put i e with memory := (((s.editors i).call.page k).run s.memory).1 } := by
  refine h.inside (hplace ▸ trivial) (Call.run_wf h.wf _) (fun p hc ↦ ?_) (fun p hc ↦ ?_) (fun hleave ↦ ?_)
  · obtain ⟨hflags, l, hl, rfl⟩ := hc
    rw [Editor.written, he] at hl
    rw [hcall] at hflags ⊢
    have hold : l < k → s.memory.pageMap (pageAt ((s.editors i).call.address + l * pageSize)) = none := by
      intro hlk
      exact h.unmapped i _ ⟨hflags, l, by rw [Editor.written, hplace]; exact hlk, rfl⟩
    generalize (s.editors i).call = c at hflags hok hold
    cases c with
    | unmap address length =>
      obtain ⟨hkeep, hnew⟩ := Memory.unmap_page h.wf (address + k * pageSize)
      by_cases hlk : l = k
      · rw [hlk]
        exact hnew hok
      · exact hkeep _ (hold (by have : l < k + 1 := hl; omega))
    | map => cases hflags
    | protect => cases hflags
  · exact h.dropped i p (hc.of_call hcall (by rw [Editor.invalidated, he, Editor.invalidated, hplace]; exact Nat.le_refl k))
  · rw [he] at hleave
    cases hleave

theorem Sound.invalidate {k : ℕ} (hplace : (s.editors i).place = .invalidate k) (hcall : e.call = (s.editors i).call)
    (he : e.place = .write (k + 1)) :
    Sound boot ((s.uncache i (pageAt ((s.editors i).call.address + k * pageSize))).put i e) := by
  refine h.forget.inside (hplace ▸ trivial) h.wf (fun p hc ↦ ?_) (fun p hc ↦ ?_) (fun hleave ↦ ?_)
  · exact h.unmapped i p (hc.of_call hcall (by rw [Editor.written, he, Editor.written, hplace]; exact Nat.le_refl _))
  · obtain ⟨hflags, l, hl, rfl⟩ := hc
    rw [Editor.invalidated, he] at hl
    rw [hcall] at hflags ⊢
    simp only [uncache, update_self, update_apply]
    split
    · rfl
    · rename_i hne
      have hlk : l ≠ k := fun heq ↦ hne (by rw [heq])
      have hlt : l < k + 1 := hl
      exact h.dropped i _ ⟨hflags, l, by rw [Editor.invalidated, hplace]; exact (by omega : l < k), rfl⟩
  · rw [he] at hleave
    cases hleave

theorem Sound.lapicBroadcastIpi : Sound boot (s.lapicBroadcastIpi i) := by
  unfold Cores.lapicBroadcastIpi
  split
  · refine h.recache (fun _ _ ↦ .inr (.inl rfl)) (fun k j ↦ .inl ?_)
    simp only [update_apply, ite_apply]
    grind
  · exact h

theorem Sound.broadcast (hplace : (s.editors i).place = .broadcast) (hcall : e.call = (s.editors i).call)
    (he : e.place = .leave)
    (hok : (s.editors i).call.flags = none → ∀ j ≠ i, s.life j ≠ .off → s.life j = .listening ∧ (s.editors i).shared) :
    Sound boot ((if (s.editors i).shared then s.lapicBroadcastIpi i else s).put i e) := by
  have hin : (s.editors i).place.Inside := hplace ▸ trivial
  have hpages : e.pages = (s.editors i).pages := by
    rw [Editor.pages, Editor.pages, hcall]
  have hwritten : e.written ≤ (s.editors i).written := by
    rw [Editor.written, he, Editor.written, hplace, hpages]
    exact Nat.le_refl _
  have hinvalidated : e.invalidated ≤ (s.editors i).invalidated := by
    rw [Editor.invalidated, he, Editor.invalidated, hplace, hpages]
    exact Nat.le_refl _
  have hunmapped : ∀ p, e.Covers e.written p → s.memory.pageMap p = none :=
    fun p hc ↦ h.unmapped i p (hc.of_call hcall hwritten)
  have hdropped : ∀ p, e.Covers e.invalidated p → s.cached i p = none :=
    fun p hc ↦ h.dropped i p (hc.of_call hcall hinvalidated)
  have hflags : ∀ p, e.Covers e.pages p → (s.editors i).call.flags = none := by
    rintro p ⟨hflags, -⟩
    rwa [hcall] at hflags
  by_cases hshared : (s.editors i).shared = true
  · have hipi := h.lapicBroadcastIpi (i := i)
    rw [if_pos hshared]
    unfold Cores.lapicBroadcastIpi at hipi ⊢
    split at hipi
    · rename_i hlapic
      rw [if_pos hlapic]
      refine hipi.inside hin h.wf hunmapped hdropped (fun _ j p hj hc ↦ ?_)
      by_cases hon : s.life j = .off
      · exact .inl (h.off j p hon)
      · refine .inr ?_
        simp only [update_self]
        rw [if_pos ⟨hj, (hok (hflags p hc) j hj hon).1⟩]
        exact Nat.succ_pos _
    · rename_i hlapic
      rw [if_neg hlapic]
      refine h.inside hin h.wf hunmapped hdropped (fun _ j p hj _ ↦ .inl (h.off j p ?_))
      have hi := h.lapic i (h.running_of_inside hin)
      have := h.lapic j
      grind
  · rw [if_neg hshared]
    refine h.inside hin h.wf hunmapped hdropped (fun _ j p hj hc ↦ .inl (h.off j p ?_))
    by_contra hon
    exact hshared (hok (hflags p hc) j hj hon).2

end

variable [DecidableEq ι]

theorem Sound.aloneOn {lapic : Bool} {m : Memory} (hm : m.Wf) : Sound boot (aloneOn boot lapic m) := by
  refine ⟨hm, fun _ _ _ ↦ rfl, fun i hi ↦ ?_, fun i hi ↦ absurd rfl hi, nofun, fun i q hc ↦ ?_, fun _ _ _ ↦ rfl, nofun⟩
  · simp only [Mm.aloneOn, update_apply] at hi
    grind
  · exact absurd hc (not_covers_of_outside id)

theorem Sound.advance (h : Sound boot s) (hok : s.Acknowledged (.advance i)) (hs : s.advance i = some s') : Sound boot s' := by
  simp only [Acknowledged] at hok
  cases hplace : (s.editors i).place with
  | outside =>
    simp only [Cores.advance, hplace] at hs
    cases hs
  | lock =>
    simp only [Cores.advance, hplace] at hs
    split at hs
    · rename_i hfree
      cases hs
      exact h.lockTaken hfree (h.running i (by rw [hplace]; nofun)) rfl
    · cases hs
      exact h
  | write k =>
    have hin : (s.editors i).place.Inside := hplace ▸ trivial
    simp only [Cores.advance, hplace] at hs
    split at hs
    · split at hs
      · rename_i hwritten
        cases hs
        exact h.write hplace rfl rfl hwritten
      · cases hs
        exact h.release hin (Call.run_wf h.wf _) rfl
    · rename_i hlast
      cases hs
      refine h.inside hin h.wf (fun p hc ↦ ?_) (fun p hc ↦ ?_) nofun
      · exact h.unmapped i p (hc.of_call rfl (by rw [Editor.written, Editor.written, hplace]; exact Nat.le_of_not_lt hlast))
      · exact h.dropped i p
          (hc.of_call rfl (by rw [Editor.invalidated, Editor.invalidated, hplace]; exact Nat.le_of_not_lt hlast))
  | invalidate k =>
    simp only [Cores.advance, hplace] at hs
    cases hs
    exact h.invalidate hplace rfl rfl
  | broadcast =>
    rw [hplace] at hok
    simp only [Cores.advance, hplace] at hs
    cases hs
    exact h.broadcast hplace rfl rfl hok
  | leave =>
    simp only [Cores.advance, hplace] at hs
    cases hs
    exact h.release (hplace ▸ trivial) h.wf rfl

variable [Fintype ι]

theorem Sound.begin (h : Sound boot s) {c : Call} (hon : s.Enabled (.call i c)) : Sound boot (s.begin i c) :=
  h.outside h.wf (.inl rfl) id (fun _ ↦ hon.2) fun j _ hj' ↦ h.lock j hj'

theorem Sound.step (h : Sound boot s) {a : Action ι} (hon : s.Enabled a) (hok : s.Acknowledged a) (hs : s.step a = some s') :
    Sound boot s' := by
  cases a with
  | call i c =>
    cases hs
    exact h.begin hon
  | advance i => exact h.advance hok hs
  | fill i p => exact h.fill hon hs
  | forget i p =>
    cases hs
    exact h.forget
  | handle i j => exact h.handle hs
  | start i =>
    cases hs
    exact h.setLife nofun (.inr hon.1)
  | count i =>
    cases hs
    refine h.setLife nofun (.inl ?_)
    rw [show s.life i = .paging from hon]
    nofun
  | listen i =>
    cases hs
    refine h.setLife nofun (.inl ?_)
    rw [show s.life i = .counted from hon]
    nofun
  | others frames =>
    cases hs
    exact { h with wf := Memory.Kept.wf (m := s.memory) ⟨rfl, fun _ _ _ ↦ rfl⟩ h.wf hon.1 hon.2 }

end Cores

section Check

variable {ι : Type} {s : Cores ι}

def Cores.plain (s : Cores ι) : Action ι → Bool
  | .call i _ => (s.editors i).place = .outside ∧ s.life i ≠ .off
  | .fill i _ => s.life i ≠ .off
  | .start i => s.lapic = true ∧ s.life i = .off
  | .count i => s.life i = .paging
  | .listen i => s.life i = .counted
  | .others _ => false
  | _ => true

theorem plain_enabled {a : Action ι} (h : s.plain a = true) : s.Enabled a := by
  cases a with
  | call i c => exact of_decide_eq_true (p := (s.editors i).place = .outside ∧ s.life i ≠ .off) h
  | fill i q => exact of_decide_eq_true (p := s.life i ≠ .off) h
  | start i => exact of_decide_eq_true (p := s.lapic = true ∧ s.life i = .off) h
  | count i => exact of_decide_eq_true (p := s.life i = .paging) h
  | listen i => exact of_decide_eq_true (p := s.life i = .counted) h
  | others => cases h
  | _ => exact trivial

end Check

section Main

open Cores

variable {ι : Type} [DecidableEq ι] [Fintype ι] {boot i : ι} {s s' : Cores ι} {address length : ℕ}

theorem reached_sound (h : (coresOn boot).Reached Cores.Acknowledged s) : s.Sound boot := by
  refine h.invariant ?_ ?_
  · rintro s ⟨m, m', image, lapic, hlow, hinit, rfl⟩
    have hbuilt : Memory.Built (fun _ _ ↦ True) m' := .init hlow hinit
    exact Sound.aloneOn hbuilt.wf
  · intro s s' a hsound hon hok hs
    exact hsound.step hon hok hs

theorem pageAt_of_range (haligned : pageSize ∣ address) {b : ℕ} (hb : address ≤ b) (hb' : b < address + length) :
    ∃ k < Memory.pagesOf length, pageAt b = pageAt (address + k * pageSize) := by
  obtain ⟨q, rfl⟩ := haligned
  refine ⟨(b - pageSize * q) / pageSize, ?_, Fin.ext ?_⟩
  · unfold Memory.pagesOf pageSize at *
    omega
  · simp only [pageAt, pageOf, pageSize] at *
    omega

/-- When an `unmap` returns after its interrupts were handled, no CPU has a translation of its range any more. -/
theorem reached_flushed (h : (coresOn boot).Reached Cores.Acknowledged s) (haligned : pageSize ∣ address)
    (hcall : (s.editors i).call = .unmap address length) (hplace : (s.editors i).place = .leave)
    (hok : s.Acknowledged (.advance i)) (hs : s.step (.advance i) = some s') (j : ι) {b : ℕ} (hb : address ≤ b)
    (hb' : b < address + length) : s'.cached j (pageAt b) = none := by
  have hsound := reached_sound h
  simp only [Cores.Acknowledged, hplace] at hok
  have hcached : s'.cached = s.cached := by
    simp only [Cores.step, Cores.advance, hplace] at hs
    cases hs
    rfl
  obtain ⟨k, hk, hpage⟩ := pageAt_of_range haligned hb hb'
  have hcovers : (s.editors i).Covers (s.editors i).pages (pageAt b) := by
    refine ⟨by rw [hcall]; rfl, k, by rw [Editor.pages, hcall]; exact hk, ?_⟩
    rw [hpage, hcall]
    rfl
  rw [hcached]
  by_cases hj : j = i
  · rw [hj]
    refine hsound.dropped i _ ?_
    rw [Editor.invalidated, hplace]
    exact hcovers
  · rcases hsound.flushed i j _ hplace hj hcovers with hnone | hpos
    · exact hnone
    · rw [hok j] at hpos
      cases hpos

def Cores.checked (s : Cores ι) : Action ι → Bool
  | .advance i =>
    match (s.editors i).place with
    | .broadcast => ∀ j ≠ i, s.life j ≠ .off → s.life j = .listening ∧ (s.editors i).shared
    | .leave => ∀ j, s.flight i j = 0
    | _ => true
  | a => s.plain a

theorem checked_spec {a : Action ι} (h : s.checked a = true) : s.Enabled a ∧ s.Acknowledged a := by
  cases a with
  | advance i =>
    refine ⟨trivial, ?_⟩
    simp only [Cores.checked] at h
    simp only [Cores.Acknowledged]
    cases hplace : (s.editors i).place <;> simp only [hplace] at h ⊢
    case broadcast => exact fun _ ↦ of_decide_eq_true h
    case leave => exact of_decide_eq_true h
  | _ => exact ⟨plain_enabled h, trivial⟩

def unmapSeen (up : List (Action (Fin 2))) : List (Action (Fin 2)) :=
  up ++ [.fill 1 (pageAt 0x200000), .call 0 (.unmap 0x200000 4096)] ++ List.replicate 5 (.advance 0)

theorem reached_flushed_two : ∃ s s' : Cores (Fin 2), (coresOn 0).Reached Cores.Acknowledged s ∧
    (s.editors 0).call = .unmap 0x200000 4096 ∧ s.step (.advance 0) = some s' ∧
    s'.cached 1 (pageAt 0x200000) = none := by
  have hstart : (coresOn (0 : Fin 2)).Reached Cores.Acknowledged (aloneOn 0 true Memory.booted) :=
    .init ⟨Memory.bareMemory, Memory.booted, Memory.smallKernel, true, rfl, Memory.pagingInit_bareMemory, rfl⟩
  obtain ⟨s, hs, hplace, hcall, hflight, hsome⟩ := hstart.exists_of_replay (fun s a ↦ checked_spec)
    (l := unmapSeen [.start 1, .count 1, .listen 1] ++ [.handle 1 0])
    (P := fun s ↦ (s.editors 0).place = .leave ∧ (s.editors 0).call = .unmap 0x200000 4096 ∧ (∀ j, s.flight 0 j = 0) ∧
      (s.step (.advance 0)).isSome = true) (by decide +kernel)
  obtain ⟨s', hs'⟩ := Option.isSome_iff_exists.mp hsome
  refine ⟨s, s', hs, hcall, hs', reached_flushed hs (by decide) hcall hplace ?_ hs' 1 (Nat.le_refl _) (by decide)⟩
  simp only [Cores.Acknowledged, hplace]
  exact hflight

/-- `unmap` returns while the interrupt to the other CPU is under way. And no interrupt is sent to a CPU that was not
counted yet when `unmap` asked. -/
theorem unmap_leaves_stale :
    (∃ s s' : Cores (Fin 2), (coresOn 0).Reached (fun _ _ ↦ True) s ∧ (s.editors 0).call = .unmap 0x200000 4096 ∧
      (s.editors 0).place = .leave ∧ s.step (.advance 0) = some s' ∧
      s'.memory.pageMap (pageAt 0x200000) = none ∧ s'.cached 1 (pageAt 0x200000) = some 0x200) ∧
    ∃ s s' : Cores (Fin 2), (coresOn 0).Reached (fun _ _ ↦ True) s ∧ (s.editors 0).call = .unmap 0x200000 4096 ∧
      (s.editors 0).place = .leave ∧ s.step (.advance 0) = some s' ∧ s'.flight 0 1 = 0 ∧
      s'.cached 1 (pageAt 0x200000) = some 0x200 := by
  have hstart : (coresOn (0 : Fin 2)).Reached (fun _ _ ↦ True) (aloneOn 0 true Memory.booted) :=
    .init ⟨Memory.bareMemory, Memory.booted, Memory.smallKernel, true, rfl, Memory.pagingInit_bareMemory, rfl⟩
  have hcheck := fun (s : Cores (Fin 2)) (a : Action (Fin 2)) (ha : s.plain a = true) ↦ And.intro (plain_enabled ha) trivial
  refine ⟨?_, ?_⟩
  · obtain ⟨s, hs, hcall, hplace, hnext⟩ := hstart.exists_of_replay hcheck
      (l := unmapSeen [.start 1, .count 1, .listen 1])
      (P := fun s ↦ (s.editors 0).call = .unmap 0x200000 4096 ∧ (s.editors 0).place = .leave ∧
        (s.step (.advance 0)).any (fun s' ↦ s'.memory.pageMap (pageAt 0x200000) = none ∧
          s'.cached 1 (pageAt 0x200000) = some 0x200) = true) (by decide +kernel)
    obtain ⟨s', hs', hstale⟩ := (Option.any_eq_true _ _).mp hnext
    exact ⟨s, s', hs, hcall, hplace, hs', of_decide_eq_true hstale⟩
  · obtain ⟨s, hs, hcall, hplace, hnext⟩ := hstart.exists_of_replay hcheck (l := unmapSeen [.start 1])
      (P := fun s ↦ (s.editors 0).call = .unmap 0x200000 4096 ∧ (s.editors 0).place = .leave ∧
        (s.step (.advance 0)).any (fun s' ↦ s'.flight 0 1 = 0 ∧ s'.cached 1 (pageAt 0x200000) = some 0x200) = true)
      (by decide +kernel)
    obtain ⟨s', hs', hstale⟩ := (Option.any_eq_true _ _).mp hnext
    exact ⟨s, s', hs, hcall, hplace, hs', of_decide_eq_true hstale⟩

end Main

end Eris.Mm
