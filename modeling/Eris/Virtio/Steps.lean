import Eris.Virtio.Invariant

namespace Eris.Virtio.State

open Library Mm List Function

variable {ι : Type} {s : State ι} {i : ι} {c : Caller} {entries : ℕ → Entry ι}

theorem put_callers [DecidableEq ι] (s : State ι) (i : ι) (c : Caller) (j : ι) :
    (s.put i c).callers j = if j = i then c else s.callers j := update_apply ..

theorem reported_congr {s' : State ι} (h : 11 ≤ c.rank → (s'.log c.ticket).status = (s.log c.ticket).status) :
    s'.reported c = s.reported c := by
  unfold reported
  split
  · rfl
  · rw [h (by omega)]

section Pages

theorem Pages.log (h : Pages s) (hlog : ∀ j, 11 ≤ (s.callers j).rank →
    (entries (s.callers j).ticket).status = (s.log (s.callers j).ticket).status) : Pages { s with log := entries } :=
  { h with status := fun j hj ↦ (h.status j hj).trans (reported_congr fun hr ↦ (hlog j hr).symm) }

theorem Pages.frames {frames : Frames} (h : Pages s) (hlow : frames.bitmap 0 = true)
    (hframes : ∀ j f, 1 ≤ (s.callers j).rank → (s.callers j).job.page = f * pageSize → s.frames.bitmap f = true →
      frames.bitmap f = true) : Pages { s with frames := frames } := by
  refine { h with low := hlow, inside := fun j hj ↦ ?_ }
  obtain ⟨hsize, f, hf, hpage, hf0, hused⟩ := h.inside j hj
  exact ⟨hsize, f, hf, hpage, hf0, hframes j f hj hpage hused⟩

theorem Pages.complete (h : Pages s) {v : UInt8} (hi : (s.callers i).rank = 11)
    (hlog : ∀ k, (entries k).status = if k = (s.callers i).ticket then some v else (s.log k).status)
    (htickets : ∀ j ≠ i, 11 ≤ (s.callers j).rank → (s.callers j).ticket ≠ (s.callers i).ticket) :
    Pages { s with statuses := update s.statuses ((s.callers i).job.page + statusOffset) v, log := entries } := by
  refine { h with status := fun j hj ↦ ?_ }
  dsimp only at hj ⊢
  by_cases hji : j = i
  · subst hji
    rw [update_self, reported, if_neg (by omega), hlog, if_pos rfl]
    rfl
  · have hne : (s.callers j).job.page + statusOffset ≠ (s.callers i).job.page + statusOffset := fun heq ↦
      hji (h.apart j i (by omega) (by omega) (Nat.add_right_cancel heq))
    rw [update_of_ne hne, h.status j hj]
    exact reported_congr fun hr ↦ by rw [hlog, if_neg (htickets j hji hr)]

variable [DecidableEq ι]

theorem Pages.put (h : Pages s)
    (hrank : 1 ≤ c.rank → 1 ≤ (s.callers i).rank ∧ (2 ≤ c.rank → 2 ≤ (s.callers i).rank) ∧ c.job = (s.callers i).job)
    (hsame : 2 ≤ c.rank → s.reported c = s.reported (s.callers i)) : Pages (s.put i c) := by
  obtain ⟨hlow, hinside, hapart, hheader, hstatus⟩ := h
  have hcallers := update_apply s.callers i c
  unfold State.put
  generalize update s.callers i c = callers at hcallers
  exact ⟨hlow, by grind, by grind, by grind, by grind [reported]⟩

theorem Pages.submit (h : Pages s) (hsize : 3 ≤ s.size) {f : ℕ} (hf : f < managedPages)
    (hfree : s.frames.bitmap f = false) {frames : Frames} (hframes : frames.bitmap = update s.frames.bitmap f true)
    (hrank : c.rank = 1) (hpage : c.job.page = f * pageSize) : Pages { s.put i c with frames := frames } := by
  obtain ⟨hlow, hinside, hapart, hheader, hstatus⟩ := h
  have hbitmap : ∀ g, frames.bitmap g = if g = f then true else s.frames.bitmap g := fun g ↦ by
    rw [hframes, update_apply]
  have hfresh : ∀ j, 1 ≤ (s.callers j).rank → (s.callers j).job.page ≠ f * pageSize := by
    intro j hj heq
    obtain ⟨-, g, -, hg, -, hused⟩ := hinside j hj
    have hgf := Nat.eq_of_mul_eq_mul_right (by decide) (hg.symm.trans heq)
    grind
  have hcallers := update_apply s.callers i c
  unfold State.put
  generalize update s.callers i c = callers at hcallers
  exact ⟨by grind, by grind, by grind, by grind, by grind [reported]⟩

theorem Pages.fill (h : Pages s) (hold : (s.callers i).rank = 1) (hrank : c.rank = 2) (hjob : c.job = (s.callers i).job) :
    Pages { s.put i c with
      headers := update s.headers c.job.page c.job.header
      statuses := update s.statuses (c.job.page + statusOffset) 0xff } := by
  obtain ⟨hlow, hinside, hapart, hheader, hstatus⟩ := h
  have hne : ∀ j ≠ i, 2 ≤ (s.callers j).rank → (s.callers j).job.page ≠ c.job.page := by
    intro j hji hj heq
    refine hji (hapart j i (by omega) (by omega) ?_)
    rw [heq, hjob]
  have hcallers := update_apply s.callers i c
  have hheaders := update_apply s.headers c.job.page c.job.header
  have hstatuses := update_apply s.statuses (c.job.page + statusOffset) 0xff
  unfold State.put
  generalize update s.callers i c = callers at hcallers
  generalize update s.headers _ _ = headers at hheaders
  generalize update s.statuses _ _ = statuses at hstatuses
  exact ⟨hlow, by grind, by grind, by grind, by grind [reported]⟩

end Pages

section Chains

theorem Chains.log (h : Chains s) (huses : ∀ j, Uses { s with log := entries } j → s.Uses j) :
    Chains { s with log := entries } :=
  { h with
    apart := fun a b ha hb ↦ h.apart a b (huses a ha) (huses b hb)
    written := fun a ha ↦ h.written a (huses a ha) }

variable [DecidableEq ι]

theorem Chains.put (h : Chains s) {next : ℕ} (hnext : 3 ≤ s.size → next < s.size)
    (hbuilding : c.Building → (s.callers i).Building)
    (hfirst : 3 ≤ c.rank → 3 ≤ (s.callers i).rank ∧ c.first = (s.callers i).first)
    (huses : 3 ≤ c.rank → c.rank ≤ 10 ∨ (s.log c.ticket).status = none →
      s.Uses i ∧ c.job = (s.callers i).job ∧ ∀ l < 3, l + 4 < c.rank → l + 4 < (s.callers i).rank) :
    Chains { s.put i c with nextDescriptor := next } := by
  obtain ⟨hsingle, -, hf, hapart, hwritten⟩ := h
  have hcallers := update_apply s.callers i c
  unfold State.put
  generalize update s.callers i c = callers at hcallers
  exact ⟨by grind, hnext, by grind, by grind [Uses], by grind [Uses]⟩

theorem Chains.take (h : Chains s) (hsize : 3 ≤ s.size) (hrank : c.rank = 3) (hfirst : c.first = s.nextDescriptor)
    (hfree : ∀ j, ¬ (s.callers j).Building)
    (hunused : ∀ j, s.Uses j → ∀ l < 3, ∀ l' < 3, (s.nextDescriptor + l) % s.size ≠ ((s.callers j).first + l') % s.size) :
    Chains (s.put i c) := by
  obtain ⟨hsingle, hn, hf, hapart, hwritten⟩ := h
  have hself : ∀ l < 3, ∀ l' < 3, (s.nextDescriptor + l) % s.size = (s.nextDescriptor + l') % s.size → l = l' := by
    intro l hl l' hl' heq
    rcases Nat.lt_trichotomy l l' with hlt | heq' | hlt
    · exact absurd heq (Ring.mod_ne_of_lt (by omega) (by omega))
    · exact heq'
    · exact absurd heq.symm (Ring.mod_ne_of_lt (by omega) (by omega))
  have hcallers := update_apply s.callers i c
  unfold State.put
  generalize update s.callers i c = callers at hcallers
  have hkeep : ∀ j ≠ i, Uses { s with callers := callers } j → s.Uses j := by grind [Uses]
  exact ⟨by grind, hn, by grind, by grind, by grind⟩

theorem Chains.write (h : Chains s) {l : ℕ} (hl : l < 3) (hold : (s.callers i).rank = l + 4) (hrank : c.rank = l + 5)
    (hsame : c = { s.callers i with stage := c.stage }) :
    Chains { s.put i c with
      descriptors := update s.descriptors (((s.callers i).first + l) % s.size)
        ((s.callers i).job.descriptor s.size (s.callers i).first l) } := by
  obtain ⟨hsingle, hn, hf, hapart, hwritten⟩ := h
  have hi : s.Uses i := ⟨by omega, .inl (by omega)⟩
  have hdescriptors := update_apply s.descriptors (((s.callers i).first + l) % s.size)
    ((s.callers i).job.descriptor s.size (s.callers i).first l)
  have hcallers := update_apply s.callers i c
  unfold State.put
  generalize update s.callers i c = callers at hcallers
  generalize update s.descriptors _ _ = descriptors at hdescriptors
  have hkeep : ∀ j, Uses { s with callers := callers, descriptors := descriptors } j → s.Uses j := by grind [Uses]
  exact ⟨by grind [Caller.Building], hn, by grind, by grind, by grind⟩

end Chains

section Offers

theorem Offers.waiting (h : Offers s) {k : ℕ} (hk : s.fetched ≤ k) (hk' : k < s.offered) :
    (s.callers (s.log k).caller).rank = 11 ∧ (s.callers (s.log k).caller).ticket = k :=
  h.outstanding k hk' (h.unfetched k hk hk')

theorem Offers.pending_lt [Fintype ι] (h : Offers s) (hi : (s.callers i).rank ≠ 11) :
    s.offered - s.fetched < Fintype.card ι := by
  refine Ring.length_lt_card (f := fun k ↦ (s.log k).caller) (i := i) ?_ ?_
  · intro k l hk hk' hl hl' heq
    rw [← (h.waiting hk hk').2, ← (h.waiting hl hl').2]
    exact congrArg (fun j ↦ (s.callers j).ticket) heq
  · rintro k hk hk' rfl
    exact hi (h.waiting hk hk').1

theorem readChain_eq {size first : ℕ} {job : Job} {descriptors : ℕ → Descriptor} (hsize : 3 ≤ size)
    (hfirst : first < size) (h : ∀ l < 3, descriptors ((first + l) % size) = job.descriptor size first l) :
    readChain descriptors size first = [(first, job.descriptor size first 0),
      ((first + 1) % size, job.descriptor size first 1), ((first + 2) % size, job.descriptor size first 2)] := by
  have h0 := h 0 (by omega)
  rw [Nat.add_zero, Nat.mod_eq_of_lt hfirst] at h0
  have h1 := h 1 (by omega)
  have h2 := h 2 (by omega)
  obtain ⟨left, rfl⟩ : ∃ left, size = left + 3 := ⟨size - 3, by omega⟩
  have hflag : (job.descriptor (left + 3) first 1).flags % 2 = 1 := by
    simp only [Job.descriptor]
    cases job.args.write <;> rfl
  have hlast : ¬ (job.descriptor (left + 3) first 2).flags % 2 = 1 := by
    simp [Job.descriptor, descriptorWrite]
  rw [readChain, h0, if_pos (by rfl), readChain]
  simp only [Job.descriptor] at h1 h2 hflag hlast ⊢
  rw [h1, if_pos hflag, readChain, h2, if_neg hlast]

theorem seen_eq (hpages : Pages s) (hchains : Chains s) (h : Offers s) (hlt : s.fetched < s.offered) :
    s.availableRing (s.lastAvailable % s.size) = (s.log s.fetched).first ∧
      (⟨s.headers (s.descriptors (s.log s.fetched).first).address,
        readChain s.descriptors s.size (s.log s.fetched).first⟩ : Seen) = (s.log s.fetched).view s.size := by
  obtain ⟨hr, ht⟩ := h.waiting le_rfl hlt
  generalize hi : (s.log s.fetched).caller = i at hr ht
  obtain ⟨-, -, hjob, hfirst⟩ := h.flight i (by omega)
  rw [ht] at hjob hfirst
  have huses : s.Uses i := ⟨by omega, .inr (by rw [ht]; exact h.unfetched _ le_rfl hlt)⟩
  have hwritten := fun l hl ↦ hchains.written i huses l hl (by omega)
  have hsize := (hpages.inside i (by omega)).1
  have hlt' := hchains.first i (by omega)
  refine ⟨?_, ?_⟩
  · rw [h.lastAvailable]
    exact h.ring _ le_rfl hlt
  · rw [Entry.view, hjob, hfirst, readChain_eq hsize hlt' hwritten, ← hpages.header i (by omega)]
    have h0 := hwritten 0 (by omega)
    rw [Nat.add_zero, Nat.mod_eq_of_lt hlt'] at h0
    rw [h0]
    rfl

theorem Offers.fetch (h : Offers s) (hlt : s.fetched < s.offered) :
    Offers { s with
      lastAvailable := (s.lastAvailable + 1) % indexSize
      held := ⟨s.fetched, (s.log s.fetched).first, (s.log s.fetched).view s.size⟩ :: s.held
      fetched := s.fetched + 1
      log := update s.log s.fetched { s.log s.fetched with seen := some ((s.log s.fetched).view s.size) } } := by
  have hlog := update_apply s.log s.fetched { s.log s.fetched with seen := some ((s.log s.fetched).view s.size) }
  generalize update s.log s.fetched _ = entries at hlog
  have hview : ∀ k, (entries k).view s.size = (s.log k).view s.size := by grind [Entry.view]
  have ⟨_, _, _, _, _, _, _, _, _, _, _, _⟩ := h
  refine { h with
    flight := by grind, outstanding := by grind, lastAvailable := ?_, le := hlt, ring := by grind [slot],
    unfetched := by grind, seen := by grind, held := by grind, nodup := ?_ }
  · rw [h.lastAvailable, Nat.mod_add_mod]
  · rw [map_cons, nodup_cons]
    refine ⟨fun hmem ↦ ?_, h.nodup⟩
    obtain ⟨x, hx, heq⟩ := mem_map.mp hmem
    exact absurd heq (Nat.ne_of_lt (h.held x hx).1)

theorem Offers.ticket_ne (h : Offers s) {n : ℕ} {x y : Held} (hx : s.held[n]? = some x) (hy : y ∈ s.held.eraseIdx n) :
    y.ticket ≠ x.ticket := by
  intro heq
  have hperm := getElem_cons_eraseIdx_perm (List.getElem?_eq_some_iff.mp hx).1
  have hnodup := (hperm.map Held.ticket).nodup_iff.mpr h.nodup
  rw [(List.getElem?_eq_some_iff.mp hx).2, map_cons, nodup_cons] at hnodup
  exact hnodup.1 (heq ▸ mem_map_of_mem hy)

theorem Offers.complete (h : Offers s) {n : ℕ} {x : Held} {v : UInt8} (hx : s.held[n]? = some x) :
    Offers { s with
      held := s.held.eraseIdx n
      log := update s.log x.ticket { s.log x.ticket with status := some v } } := by
  have hlog := update_apply s.log x.ticket { s.log x.ticket with status := some v }
  generalize update s.log x.ticket _ = entries at hlog
  have hview : ∀ k, (entries k).view s.size = (s.log k).view s.size := by grind [Entry.view]
  have hother : ∀ y ∈ s.held.eraseIdx n, y ∈ s.held ∧ y.ticket ≠ x.ticket := fun y hy ↦
    ⟨mem_of_mem_eraseIdx hy, h.ticket_ne hx hy⟩
  have hsub := eraseIdx_sublist s.held n
  have ⟨_, _, _, _, _, _, _, _, _, _, _, _⟩ := h
  exact { h with
    flight := by grind, outstanding := by grind, ring := by grind [slot], unfetched := by grind, seen := by grind,
    held := by grind, nodup := h.nodup.sublist (hsub.map _) }

theorem Offers.store [Fintype ι] (h : Offers s) (hfits : Fits ι s.size) (hsingle : ∀ j, (s.callers j).Building → j = i)
    (hold : (s.callers i).rank = 8) :
    Offers { s with availableRing := update s.availableRing (s.slot s.offered) (s.callers i).first } := by
  have hpending := h.pending_lt (i := i) (by omega)
  refine { h with stored := fun j hj ↦ ?_, ring := fun k hk hk' ↦ ?_ }
  · dsimp only at hj
    obtain rfl := hsingle j ⟨by omega, by omega⟩
    omega
  · dsimp only at hk hk'
    have hne := hfits.slots k s.offered hk' (by omega)
    exact (update_of_ne hne _ _).trans (h.ring k hk hk')

variable [DecidableEq ι]

theorem Offers.put (h : Offers s) (hread : c.rank = 8 ∨ c.rank = 10 → c.index = s.availableIndex)
    (hstored : c.rank = 9 ∨ c.rank = 10 → s.availableRing (s.slot s.offered) = c.first)
    (hflight : 11 ≤ c.rank → 11 ≤ (s.callers i).rank ∧ c.ticket = (s.callers i).ticket ∧
      c.job = (s.callers i).job ∧ c.first = (s.callers i).first)
    (hstay : (s.callers i).rank = 11 → (s.log (s.callers i).ticket).status = none →
      c.rank = 11 ∧ c.ticket = (s.callers i).ticket) : Offers (s.put i c) := by
  have hcallers := update_apply s.callers i c
  unfold State.put
  generalize update s.callers i c = callers at hcallers
  have ⟨_, _, _, _, _, _, _, _, _, _, _, _⟩ := h
  exact { h with index := by grind, stored := by grind [slot], flight := by grind, outstanding := by grind }

theorem Offers.publish (h : Offers s) (hsingle : ∀ j, (s.callers j).Building → j = i)
    (hold : (s.callers i).rank = 10) (hrank : c.rank = 11) (hticket : c.ticket = s.offered)
    (hfirst : c.first = (s.callers i).first) :
    Offers { s.put i c with
      availableIndex := ((s.callers i).index + 1) % indexSize
      offered := s.offered + 1
      log := update s.log s.offered ⟨i, c.job, c.first, none, none⟩ } := by
  have hcallers := update_apply s.callers i c
  have hlog := update_apply s.log s.offered ⟨i, c.job, c.first, none, none⟩
  unfold State.put
  generalize update s.callers i c = callers at hcallers
  generalize update s.log s.offered _ = entries at hlog
  have hindex := h.index i (.inr hold)
  have ⟨_, _, _, _, _, _, _, _, _, _, _, _⟩ := h
  refine { h with
    index := by grind [Caller.Building], stored := by grind [Caller.Building], flight := by grind,
    outstanding := by grind, available := ?_, le := Nat.le_succ_of_le h.le, ring := by grind [slot], unfetched := by grind,
    seen := by grind, held := by grind }
  rw [hindex, h.available, Nat.mod_add_mod]

end Offers

end Eris.Virtio.State
