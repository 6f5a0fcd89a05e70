import Eris.Virtio.Steps

namespace Eris.Virtio.State

open Library Mm Function

variable {ι : Type} {s : State ι} {i : ι} {c : Caller} {entries : ℕ → Entry ι}

section Completions

theorem Completions.caller_injective (h : Completions s) {p q : ℕ} (hp : s.accepted ≤ p) (hp' : p < s.completed)
    (hq : s.accepted ≤ q) (hq' : q < s.completed) (heq : (s.log (s.order p)).caller = (s.log (s.order q)).caller) :
    p = q := by
  apply h.injective p q hp hp' hq hq'
  rw [← (h.answered p hp hp').2.2.2, ← (h.answered q hq hq').2.2.2, heq]

theorem Completions.pending_lt [Fintype ι] (h : Completions s) (hfits : Fits ι s.size) :
    s.completed - s.accepted < indexSize := by
  refine Nat.lt_of_le_of_lt ?_ hfits.callers
  exact Ring.length_le_card fun k l hk hk' hl hl' heq ↦ h.caller_injective hk hk' hl hl' heq

theorem Completions.moved_iff [Fintype ι] (h : Completions s) (hfits : Fits ι s.size) :
    s.usedIndex = s.lastUsed ↔ s.accepted = s.completed := by
  rw [h.used, h.lastUsed]
  constructor
  · intro heq
    exact Ring.eq_of_wrap h.le (h.pending_lt hfits) heq.symm
  · intro heq
    rw [heq]

theorem Completions.own [Fintype ι] (h : Completions s) (hfits : Fits ι s.size)
    (hone : s.usedIndex = (s.lastUsed + 1) % indexSize) (hi : (s.callers i).rank = 11 ∨ (s.callers i).rank = 12)
    (hanswer : (s.log (s.callers i).ticket).status ≠ none) :
    s.completed = s.accepted + 1 ∧ s.order s.accepted = (s.callers i).ticket := by
  obtain ⟨p, hp, hp', hticket⟩ := h.waits i hi hanswer
  have hlt := h.pending_lt hfits
  rw [h.used, h.lastUsed, Nat.mod_add_mod] at hone
  have hcount := Ring.eq_of_wrap (by omega) (by omega) hone.symm
  obtain rfl : p = s.accepted := by omega
  exact ⟨hcount.symm, hticket⟩

theorem Completions.complete [Fintype ι] (h : Completions s) (hoffers : Offers s) (hfits : Fits ι s.size) {k : ℕ}
    {v : UInt8} (hk : k < s.offered) (hnone : (s.log k).status = none) :
    Completions { s with
      usedRing := update s.usedRing (s.usedIndex % s.size) ⟨(s.log k).first, 1⟩
      usedIndex := (s.usedIndex + 1) % indexSize
      completed := s.completed + 1
      order := update s.order s.completed k
      log := update s.log k { s.log k with status := some v } } := by
  obtain ⟨hrank, hticket⟩ := hoffers.outstanding k hk hnone
  have hold : ∀ p, s.accepted ≤ p → p < s.completed → s.order p ≠ k := by
    intro p hp hp' heq
    exact (h.answered p hp hp').2.1 (heq ▸ hnone)
  have hpending : s.completed - s.accepted < Fintype.card ι := by
    refine Ring.length_lt_card (i := (s.log k).caller) (fun p q hp hp' hq hq' heq ↦ h.caller_injective hp hp' hq hq' heq)
      fun p hp hp' heq ↦ hold p hp hp' ?_
    rw [← (h.answered p hp hp').2.2.2, heq, hticket]
  have hslots : ∀ p, s.accepted ≤ p → p < s.completed → s.slot p ≠ s.slot s.completed := fun p hp hp' ↦
    hfits.slots p s.completed hp' (by omega)
  rw [show s.usedIndex % s.size = s.slot s.completed by rw [h.used]; rfl]
  have hring := update_apply s.usedRing (s.slot s.completed) ⟨(s.log k).first, 1⟩
  have horder := update_apply s.order s.completed k
  have hlog := update_apply s.log k { s.log k with status := some v }
  generalize update s.usedRing _ _ = ring at hring
  generalize update s.order _ _ = order at horder
  generalize update s.log _ _ = entries at hlog
  have ⟨_, _, _, _, _, _, _, _, _⟩ := h
  refine { h with
    used := ?_, le := Nat.le_succ_of_le h.le, ring := by grind [slot], answered := by grind, injective := by grind,
    waits := fun j hj hanswer ↦ ?_, done := by grind, ok := by grind }
  · rw [h.used, Nat.mod_add_mod]
  · dsimp only at hj hanswer ⊢
    by_cases hjk : (s.callers j).ticket = k
    · exact ⟨s.completed, h.le, Nat.lt_succ_self _, by rw [horder, if_pos rfl, hjk]⟩
    · obtain ⟨p, hp, hp', hpt⟩ := h.waits j hj (by grind)
      exact ⟨p, hp, Nat.lt_succ_of_lt hp', by rw [horder, if_neg hp'.ne, hpt]⟩

theorem Completions.log (h : Completions s) (hoffers : Offers s) {offered : ℕ} (hoffered : s.offered ≤ offered)
    (hlog : ∀ k < s.offered, (entries k).status = (s.log k).status ∧ (entries k).caller = (s.log k).caller ∧
      (entries k).first = (s.log k).first) : Completions { s with offered := offered, log := entries } := by
  have hflight := hoffers.flight
  have ⟨_, _, _, _, _, _, _, _, _⟩ := h
  exact { h with
    ring := by grind [slot], answered := by grind, waits := by grind, done := by grind, ok := by grind }

variable [DecidableEq ι]

theorem Completions.put (h : Completions s)
    (hwait : (s.callers i).rank = 11 ∨ (s.callers i).rank = 12 →
      (c.rank = 11 ∨ c.rank = 12) ∧ c.ticket = (s.callers i).ticket)
    (hnew : c.rank = 11 ∨ c.rank = 12 → (s.log c.ticket).status ≠ none →
      ((s.callers i).rank = 11 ∨ (s.callers i).rank = 12) ∧ c.ticket = (s.callers i).ticket)
    (hdone : 12 ≤ c.rank → (s.log c.ticket).status ≠ none)
    (hok : c.rank = 14 → (c.ok = true ↔ (s.log c.ticket).status = some 0)) : Completions (s.put i c) := by
  have hcallers := update_apply s.callers i c
  unfold State.put
  generalize update s.callers i c = callers at hcallers
  have ⟨_, _, _, _, _, _, _, _, _⟩ := h
  exact { h with answered := by grind, waits := by grind, done := by grind, ok := by grind }

theorem Completions.accept (h : Completions s) (hoffers : Offers s) (hold : (s.callers i).rank = 12) (hrank : c.rank = 13)
    (hticket : c.ticket = (s.callers i).ticket) (hone : s.completed = s.accepted + 1)
    (hown : s.order s.accepted = (s.callers i).ticket) :
    Completions { s.put i c with lastUsed := s.usedIndex, accepted := s.completed } := by
  have hflight := hoffers.flight
  have hcallers := update_apply s.callers i c
  unfold State.put
  generalize update s.callers i c = callers at hcallers
  have ⟨_, _, _, _, _, _, _, _, _⟩ := h
  exact { h with
    lastUsed := h.used, le := le_rfl, ring := by grind, answered := by grind, injective := by grind, waits := by grind,
    done := by grind, ok := by grind }

end Completions

section Values

theorem Values.log (h : Values s) (hlog : ∀ k, (entries k).caller = (s.log k).caller ∧
    ((s.log k).status ≠ none → (entries k).status = (s.log k).status)) : Values { s with log := entries } := by
  have ⟨_, _, _, hknown, hvalue⟩ := h
  refine { h with known := by grind, value := fun i b hi ↦ (hvalue i b hi).trans ?_ }
  refine exists_congr fun l ↦ and_congr_right fun hl ↦ ?_
  rw [(hlog l).2 (hknown i l (by rw [hi]; nofun) hl).2.2]

variable [DecidableEq ι]

theorem Values.put (h : Values s) (hinside : 1 ≤ c.rank → 1 ≤ (s.callers i).rank)
    (hpending : 1 ≤ c.rank → c.rank ≤ 10 → (s.callers i).rank ≤ 10)
    (hflight : 11 ≤ c.rank → 11 ≤ (s.callers i).rank ∧ c.ticket = (s.callers i).ticket) : Values (s.put i c) := by
  have hcallers := update_apply s.callers i c
  unfold State.put
  generalize update s.callers i c = callers at hcallers
  have ⟨_, _, _, _, _⟩ := h
  exact { h with inside := by grind, pending := by grind, last := by grind }

theorem Values.submit (h : Values s) {v : Option Bool} (hrank : c.rank ≤ 1)
    (hcase : v = none ∨ c.rank = 0 ∧ v = some false) :
    Values { s.put i c with value := update s.value i v, last := update s.last i none } := by
  have hcallers := update_apply s.callers i c
  have hvalue := update_apply s.value i v
  have hlast := update_apply s.last i none
  unfold State.put
  generalize update s.callers i c = callers at hcallers
  generalize update s.value i v = value at hvalue
  generalize update s.last i none = last at hlast
  have ⟨_, _, _, _, _⟩ := h
  exact ⟨by grind, by grind, by grind, by grind, by grind⟩

theorem Values.publish (h : Values s) (hold : (s.callers i).rank = 10) (hrank : c.rank = 11) (hticket : c.ticket = s.offered)
    {e : Entry ι} :
    Values { s.put i c with
      offered := s.offered + 1
      log := update s.log s.offered e
      last := update s.last i (some s.offered) } := by
  have hcallers := update_apply s.callers i c
  have hlast := update_apply s.last i (some s.offered)
  have hlog := update_apply s.log s.offered e
  unfold State.put
  generalize update s.callers i c = callers at hcallers
  generalize update s.last i _ = last at hlast
  generalize update s.log s.offered e = entries at hlog
  have ⟨_, _, _, _, _⟩ := h
  exact ⟨by grind, by grind, by grind, by grind, by grind⟩

theorem Values.finish (h : Values s) {b : Bool} (hrank : c.rank = 0) (hold : 11 ≤ (s.callers i).rank)
    (hticket : (s.callers i).ticket < s.offered ∧ (s.log (s.callers i).ticket).caller = i)
    (hanswer : (s.log (s.callers i).ticket).status ≠ none)
    (hb : b = true ↔ (s.log (s.callers i).ticket).status = some 0) :
    Values { s.put i c with value := update s.value i (some b) } := by
  have hcallers := update_apply s.callers i c
  have hvalue := update_apply s.value i (some b)
  unfold State.put
  generalize update s.callers i c = callers at hcallers
  generalize update s.value i _ = value at hvalue
  have ⟨_, _, _, _, _⟩ := h
  exact ⟨by grind, by grind, by grind, by grind, by grind⟩

end Values

end Eris.Virtio.State
