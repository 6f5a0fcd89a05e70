import Eris.Virtio.Returns

namespace Eris.Virtio

open Library Mm Function Option

namespace State

variable {ι : Type} {s s' : State ι} {i : ι} {c : Caller}

/-- The used index has moved once since it was set aside, and the chain of the caller is completed. -/
def Own (s : State ι) (i : ι) : Prop :=
  s.usedIndex = (s.lastUsed + 1) % indexSize ∧ (s.log (s.callers i).ticket).status ≠ none

def Unused (s : State ι) : Prop :=
  ∀ j, s.Uses j → ∀ l < 3, ∀ l' < 3, (s.nextDescriptor + l) % s.size ≠ ((s.callers j).first + l') % s.size

/-- Callers keep out of each other's way: one builds its chain at a time, from descriptors that are not in use, and
the used index is seen to move by the caller that it moved for. -/
def Orderly (s : State ι) : Action ι → Prop
  | .advance i =>
    match (s.callers i).stage with
    | .take => (∀ j, ¬ (s.callers j).Building) ∧ s.Unused
    | .poll => s.usedIndex = s.lastUsed ∨ s.Own i
    | .accept => s.Own i
    | _ => True
  | _ => True

def Prompt (s : State ι) : Action ι → Prop
  | .timeout i => (s.log (s.callers i).ticket).status ≠ none
  | _ => True

/-- The check of an action in a run in which the rest of the kernel does nothing and calls may or may not give up. -/
def plain (s : State ι) (late : Bool) : Action ι → Bool
  | .submit i _ => (s.callers i).stage = .outside
  | .timeout _ => late
  | .others _ => false
  | _ => true

theorem plain_enabled {late : Bool} {a : Action ι} (h : s.plain late a = true) : s.Enabled a := by
  cases a with
  | submit i args =>
    have hstage := of_decide_eq_true h
    exact hstage
  | others => cases h
  | _ => exact trivial

theorem plain_prompt {a : Action ι} (h : s.plain false a = true) : s.Prompt a := by
  cases a with
  | timeout => cases h
  | _ => exact trivial

theorem Chains.only (h : Chains s) (hi : (s.callers i).Building) (j : ι) (hj : (s.callers j).Building) : j = i :=
  h.single j i hj hi

theorem Sound.setup [Inhabited ι] {size : ℕ} {frames : Frames} (h : frames.bitmap 0 = true) :
    Sound (setup size frames : State ι) := by
  generalize hs : (Virtio.setup size frames : State ι) = s
  have hrank : ∀ i, (s.callers i).rank = 0 := fun i ↦ by rw [← hs]; rfl
  have hvalue : ∀ i, s.value i = none := fun i ↦ by rw [← hs]; rfl
  have hoffered : s.offered = 0 := by rw [← hs]; rfl
  have hfetched : s.fetched = 0 := by rw [← hs]; rfl
  have hcompleted : s.completed = 0 := by rw [← hs]; rfl
  have haccepted : s.accepted = 0 := by rw [← hs]; rfl
  have hheld : s.held = [] := by rw [← hs]; rfl
  refine ⟨?_, ?_, ?_, ?_, ?_⟩
  · exact ⟨by rw [← hs]; exact h, by grind, by grind, by grind, by grind⟩
  · have hnext : 3 ≤ s.size → s.nextDescriptor < s.size := by
      have hzero : s.nextDescriptor = 0 := by rw [← hs]; rfl
      omega
    exact ⟨by grind [Caller.Building], hnext, by grind, by grind [Uses], by grind [Uses]⟩
  · exact ⟨by grind, by grind, by grind, by grind, by rw [← hs]; rfl, by rw [← hs]; rfl, by omega, by grind, by grind,
      by grind, by grind, by rw [hheld]; exact List.nodup_nil⟩
  · exact ⟨by rw [← hs]; rfl, by rw [← hs]; rfl, by omega, by grind, by grind, by grind, by grind, by grind, by grind⟩
  · exact ⟨by grind, by grind, by grind, by grind, by grind⟩

theorem Sound.others (h : Sound s) {frames : Frames} (hon : s.Enabled (.others frames)) :
    Sound { s with frames := frames } := by
  obtain ⟨hlow, hkeep⟩ := hon
  refine ⟨h.pages.frames hlow fun j f hr hpage _ ↦ ?_, { h.chains with }, { h.offers with }, { h.completions with },
    { h.values with }⟩
  have hout : (s.callers j).stage ≠ .outside := by
    intro hstage
    rw [Caller.rank, hstage] at hr
    cases hr
  have hj := hkeep j hout
  rwa [hpage, Nat.mul_div_cancel f (by decide)] at hj

theorem Completions.own_of_subsingleton [Subsingleton ι] [Fintype ι] (h : Completions s) (hlt : s.accepted < s.completed) :
    s.Own i := by
  have hle := Ring.length_le_card fun k l hk hk' hl hl' heq ↦ h.caller_injective hk hk' hl hl' heq
  have hone : s.completed = s.accepted + 1 := by
    have := Fintype.card_le_one_iff_subsingleton.mpr (inferInstance : Subsingleton ι)
    omega
  obtain ⟨-, hstatus, -, hticket⟩ := h.answered s.accepted le_rfl hlt
  rw [Subsingleton.elim (s.log (s.order s.accepted)).caller i] at hticket
  refine ⟨?_, ?_⟩
  · rw [h.used, h.lastUsed, hone, Nat.mod_add_mod]
  · rw [hticket]
    exact hstatus

theorem Sound.orderly [Subsingleton ι] [Fintype ι] (h : Sound s) (a : Action ι) : s.Orderly a := by
  cases a with
  | advance i =>
    simp only [Orderly]
    cases hstage : (s.callers i).stage with
    | take =>
      have hrank : ∀ j, (s.callers j).rank = 2 := by
        intro j
        rw [Subsingleton.elim j i, Caller.rank, hstage]
        rfl
      refine ⟨fun j hb ↦ ?_, fun j hu ↦ ?_⟩
      · have := hb.1
        have := hrank j
        omega
      · have := hu.1
        have := hrank j
        omega
    | poll =>
      by_cases hmoved : s.usedIndex = s.lastUsed
      · exact .inl hmoved
      · refine .inr (h.completions.own_of_subsingleton (Nat.lt_of_le_of_ne h.completions.le fun heq ↦ hmoved ?_))
        rw [h.completions.used, h.completions.lastUsed, heq]
    | accept =>
      have hrank : (s.callers i).rank = 12 := by
        rw [Caller.rank, hstage]
        rfl
      obtain ⟨p, hp, hp', -⟩ := h.completions.waits i (.inr hrank) (h.completions.done i (by omega))
      exact h.completions.own_of_subsingleton (Nat.lt_of_le_of_lt hp hp')
    | _ => exact trivial
  | _ => exact trivial

theorem Sound.fetch (h : Sound s) (hs : s.fetch = some s') : Sound s' := by
  simp only [State.fetch] at hs
  split at hs
  · cases hs
  · rename_i hne
    have hlt : s.fetched < s.offered := by
      refine Nat.lt_of_le_of_ne h.offers.le fun heq ↦ hne ?_
      rw [h.offers.lastAvailable, h.offers.available, heq]
    obtain ⟨hhead, hview⟩ := seen_eq h.pages h.chains h.offers hlt
    rw [hhead, hview] at hs
    cases hs
    have hoffers := h.offers.fetch hlt
    have hlog := update_apply s.log s.fetched { s.log s.fetched with seen := some ((s.log s.fetched).view s.size) }
    generalize update s.log s.fetched _ = entries at *
    have hsame : ∀ k, (entries k).status = (s.log k).status ∧ (entries k).caller = (s.log k).caller ∧
        (entries k).first = (s.log k).first := by grind
    have hpages := h.pages.log fun j _ ↦ (hsame (s.callers j).ticket).1
    have hchains : Chains { s with log := entries } := h.chains.log (by grind [Uses])
    have hcompletions := h.completions.log h.offers le_rfl fun k _ ↦ hsame k
    have hvalues := h.values.log fun k ↦ ⟨(hsame k).2.1, fun _ ↦ (hsame k).1⟩
    exact ⟨{ hpages with }, { hchains with }, { hoffers with }, { hcompletions with }, { hvalues with }⟩

theorem Sound.complete [Fintype ι] (h : Sound s) (hfits : Fits ι s.size) {n : ℕ} {v : UInt8} (hs : s.complete n v = some s') :
    Sound s' := by
  obtain ⟨x, hx, hs⟩ := bind_eq_some_iff.mp hs
  obtain ⟨final, hfinal, hs⟩ := bind_eq_some_iff.mp hs
  obtain ⟨hlt, hnone, hhead, hseen⟩ := h.offers.held x (List.mem_of_getElem? hx)
  have hoffered := Nat.lt_of_lt_of_le hlt h.offers.le
  obtain ⟨hrank, hticket⟩ := h.offers.outstanding x.ticket hoffered hnone
  have hcompletions := h.completions.complete h.offers hfits (v := v) hoffered hnone
  generalize hi : (s.log x.ticket).caller = i at hrank hticket
  have hjob := (h.offers.flight i (by omega)).2.2.1
  rw [hticket] at hjob
  have haddress : final.2.address = (s.callers i).job.page + statusOffset := by
    rw [hseen] at hfinal
    cases hfinal
    rw [← hjob]
    rfl
  rw [haddress, hhead] at hs
  cases hs
  have hoffers := h.offers.complete (v := v) hx
  have hlog := update_apply s.log x.ticket { s.log x.ticket with status := some v }
  generalize update s.log x.ticket _ = entries at *
  have hpages : Pages { s with
      statuses := update s.statuses ((s.callers i).job.page + statusOffset) v, log := entries } := by
    refine h.pages.complete hrank (by grind) fun j hj hr heq ↦ hj ?_
    have hj' := (h.offers.flight j hr).2.1
    rw [heq, hticket, hi] at hj'
    exact hj'.symm
  have hchains : Chains { s with log := entries } := h.chains.log (by grind [Uses])
  have hvalues : Values { s with log := entries } := h.values.log (by grind)
  exact ⟨{ hpages with }, { hchains with }, { hoffers with }, { hcompletions with }, { hvalues with }⟩

variable [DecidableEq ι]

theorem Sound.building (h : Sound s) {next : ℕ} {descriptors : ℕ → Descriptor} {ring : ℕ → ℕ}
    (hlow : 2 ≤ (s.callers i).rank) (hhigh : (s.callers i).rank ≤ 9) (hrank : c.rank = (s.callers i).rank + 1)
    (hjob : c.job = (s.callers i).job)
    (hchains : Chains { s.put i c with nextDescriptor := next, descriptors := descriptors })
    (hoffers : Offers { s.put i c with availableRing := ring }) :
    Sound { s.put i c with nextDescriptor := next, descriptors := descriptors, availableRing := ring } := by
  have hpages : Pages (s.put i c) := by
    refine h.pages.put (fun _ ↦ ⟨by omega, fun _ ↦ hlow, hjob⟩) fun _ ↦ ?_
    rw [reported, reported, if_pos (by omega), if_pos (by omega)]
  have hcompletions : Completions (s.put i c) :=
    h.completions.put (fun _ ↦ by omega) (fun _ ↦ by omega) (fun _ ↦ by omega) fun _ ↦ by omega
  have hvalues : Values (s.put i c) := h.values.put (fun _ ↦ by omega) (fun _ _ ↦ by omega) fun _ ↦ by omega
  exact ⟨{ hpages with }, { hchains with }, { hoffers with }, { hcompletions with }, { hvalues with }⟩

theorem Offers.early (h : Offers s) (hold : (s.callers i).rank ≠ 11) (hrank : c.rank ≤ 7) : Offers (s.put i c) :=
  h.put (fun _ ↦ by omega) (fun _ ↦ by omega) (fun _ ↦ by omega) fun _ ↦ by omega

theorem Sound.outer (h : Sound s) {frames : Frames} {headers : ℕ → RequestHeader} {statuses : ℕ → UInt8}
    {value : ι → Option Bool} {last : ι → Option ℕ} {calls : List Arguments}
    (hold : (s.callers i).rank ≤ 1 ∨ (s.callers i).rank = 14) (hrank : c.rank ≤ 2)
    (hpages : Pages { s.put i c with frames := frames, headers := headers, statuses := statuses })
    (hvalues : Values { s.put i c with value := value, last := last }) :
    Sound { s.put i c with
      frames := frames, headers := headers, statuses := statuses, value := value, last := last, calls := calls } := by
  have hchains : Chains (s.put i c) := by
    refine h.chains.put h.chains.next (fun hb ↦ ?_) (fun _ ↦ by omega) fun _ ↦ by omega
    have := hb.1
    omega
  have hoffers : Offers (s.put i c) := h.offers.early (by omega) (by omega)
  have hcompletions : Completions (s.put i c) :=
    h.completions.put (fun _ ↦ by omega) (fun _ ↦ by omega) (fun _ ↦ by omega) fun _ ↦ by omega
  exact ⟨{ hpages with }, { hchains with }, { hoffers with }, { hcompletions with }, { hvalues with }⟩

section Advance

variable (h : Sound s)

include h

theorem Sound.write {l : ℕ} (hl : l < 3) (hold : (s.callers i).rank = l + 4) (hrank : c.rank = l + 5)
    (hsame : c = { s.callers i with stage := c.stage }) :
    Sound { s.put i c with
      descriptors := update s.descriptors (((s.callers i).first + l) % s.size)
        ((s.callers i).job.descriptor s.size (s.callers i).first l) } :=
  h.building (by omega) (by omega) (by omega) (by rw [hsame]) (h.chains.write hl hold hrank hsame)
    (h.offers.early (by omega) (by omega))

theorem Sound.leave (hold : (s.callers i).rank = 14) (hrank : c.rank = 0) :
    Sound { s.put i c with
      frames := s.frames.freePages (s.callers i).job.page 1
      value := update s.value i (some (s.callers i).ok) } := by
  obtain ⟨hticket, hcaller, -, -⟩ := h.offers.flight i (by omega)
  obtain ⟨-, f, hf, hpage, hf0, -⟩ := h.pages.inside i (by omega)
  have hbitmap : (s.frames.freePages (s.callers i).job.page 1).bitmap = update s.frames.bitmap f false := by
    rw [hpage]
    exact Frames.bitmap_freePage hf
  refine h.outer (by omega) (by omega) ?_
    (h.values.finish hrank (by omega) ⟨hticket, hcaller⟩ (h.completions.done i (by omega)) (h.completions.ok i hold))
  have hpages : Pages (s.put i c) := h.pages.put (fun _ ↦ by omega) fun _ ↦ by omega
  refine hpages.frames ?_ fun j g hj hg hused ↦ ?_
  · rw [hbitmap, update_of_ne hf0.symm]
    exact h.pages.low
  · rw [put_callers] at hj hg
    split at hj
    · omega
    · rename_i hji
      rw [if_neg hji] at hg
      have hgf : g ≠ f := fun heq ↦ hji (h.pages.apart j i hj (by omega) (by rw [hg, hpage, heq]))
      rw [hbitmap, update_of_ne hgf]
      exact hused

variable (hjob : c.job = (s.callers i).job)

include hjob

theorem Sound.fill (hold : (s.callers i).rank = 1) (hrank : c.rank = 2) :
    Sound { s.put i c with
      headers := update s.headers c.job.page c.job.header
      statuses := update s.statuses (c.job.page + statusOffset) 0xff } := by
  refine h.outer (by omega) (by omega) (h.pages.fill hold hrank hjob) ?_
  exact h.values.put (fun _ ↦ by omega) (fun _ _ ↦ by omega) fun _ ↦ by omega

theorem Sound.take (hold : (s.callers i).rank = 2) (hrank : c.rank = 3) (hfirst : c.first = s.nextDescriptor)
    (hfree : ∀ j, ¬ (s.callers j).Building) (hunused : s.Unused) : Sound (s.put i c) :=
  h.building (by omega) (by omega) (by omega) hjob
    (h.chains.take (h.pages.inside i (by omega)).1 hrank hfirst hfree hunused) (h.offers.early (by omega) (by omega))

variable (hfirst : c.first = (s.callers i).first)

include hfirst

theorem Sound.keep {next : ℕ} {ring : ℕ → ℕ} (hold : (s.callers i).rank = 3 ∨ 7 ≤ (s.callers i).rank)
    (hhigh : (s.callers i).rank ≤ 9) (hrank : c.rank = (s.callers i).rank + 1) (hnext : 3 ≤ s.size → next < s.size)
    (hoffers : Offers { s.put i c with availableRing := ring }) :
    Sound { s.put i c with nextDescriptor := next, availableRing := ring } := by
  refine h.building (by omega) hhigh hrank hjob ?_ hoffers
  exact h.chains.put hnext (fun _ ↦ ⟨by omega, by omega⟩) (fun _ ↦ ⟨by omega, hfirst⟩)
    fun _ _ ↦ ⟨⟨by omega, .inl (by omega)⟩, hjob, fun l _ _ ↦ by omega⟩

theorem Sound.bump (hold : (s.callers i).rank = 3) (hrank : c.rank = 4) :
    Sound { s.put i c with nextDescriptor := ((s.callers i).first + 3) % s.size } :=
  h.keep hjob hfirst (by omega) (by omega) (by omega) (fun _ ↦ Nat.mod_lt _ (by omega))
    (h.offers.early (by omega) (by omega))

theorem Sound.offer (hold : (s.callers i).rank = 7) (hrank : c.rank = 8)
    (hindex : c.index = s.availableIndex) : Sound (s.put i c) :=
  h.keep hjob hfirst (by omega) (by omega) (by omega) h.chains.next
    (h.offers.put (fun _ ↦ hindex) (fun _ ↦ by omega) (fun _ ↦ by omega) fun _ ↦ by omega)

theorem Sound.store [Fintype ι] (hfits : Fits ι s.size) (hold : (s.callers i).rank = 8) (hrank : c.rank = 9) :
    Sound { s.put i c with
      availableRing := update s.availableRing ((s.callers i).index % s.size) (s.callers i).first } := by
  have hslot : (s.callers i).index % s.size = s.slot s.offered := by
    rw [h.offers.index i (.inl hold), h.offers.available]
    rfl
  rw [hslot]
  have hring := h.offers.store hfits (h.chains.only ⟨by omega, by omega⟩) hold
  refine h.keep hjob hfirst (by omega) (by omega) (by omega) h.chains.next ?_
  exact hring.put (fun _ ↦ by omega) (fun _ ↦ (update_self ..).trans hfirst.symm) (fun _ ↦ by omega)
    fun _ ↦ by dsimp only at *; omega

theorem Sound.count (hold : (s.callers i).rank = 9) (hrank : c.rank = 10)
    (hindex : c.index = s.availableIndex) : Sound (s.put i c) := by
  refine h.keep hjob hfirst (by omega) (by omega) (by omega) h.chains.next
    (h.offers.put (fun _ ↦ hindex) (fun _ ↦ ?_) (fun _ ↦ by omega) fun _ ↦ by omega)
  rw [hfirst]
  exact h.offers.stored i (.inl hold)

theorem Sound.publish (hold : (s.callers i).rank = 10) (hrank : c.rank = 11) (hticket : c.ticket = s.offered) :
    Sound { s.put i c with
      availableIndex := ((s.callers i).index + 1) % indexSize
      offered := s.offered + 1
      log := update s.log s.offered ⟨i, c.job, c.first, none, none⟩
      last := update s.last i (some s.offered) } := by
  have hbuilding : (s.callers i).Building := ⟨by omega, by omega⟩
  have hoffers := h.offers.publish (h.chains.only hbuilding) hold hrank hticket hfirst
  have hvalues := h.values.publish hold hrank hticket (e := ⟨i, c.job, c.first, none, none⟩)
  have hlog : ∀ k < s.offered, update s.log s.offered ⟨i, c.job, c.first, none, none⟩ k = s.log k := fun k hk ↦
    update_of_ne hk.ne _ _
  have hnew : (update s.log s.offered ⟨i, c.job, c.first, none, none⟩ c.ticket).status = none := by
    rw [hticket, update_self]
  generalize update s.log s.offered _ = entries at *
  have hstatus : ∀ j, 11 ≤ (s.callers j).rank →
      (entries (s.callers j).ticket).status = (s.log (s.callers j).ticket).status := fun j hj ↦ by
    rw [hlog _ (h.offers.flight j hj).1]
  have hrank₂ : 2 ≤ (s.callers i).rank := by omega
  have hpages : Pages ({ s with log := entries }.put i c) := by
    refine (h.pages.log hstatus).put (fun _ ↦ ⟨hrank₂.trans' (by decide), fun _ ↦ hrank₂, hjob⟩) fun _ ↦ ?_
    rw [reported, reported, if_neg (by omega), if_pos hbuilding.2, hnew]
    rfl
  have hchains : Chains ({ s with log := entries }.put i c) := by
    have huses : ∀ j, Uses { s with log := entries } j → s.Uses j := by grind [Uses]
    exact (h.chains.log huses).put h.chains.next (fun _ ↦ hbuilding) (fun _ ↦ ⟨hbuilding.1, hfirst⟩)
      fun _ _ ↦ ⟨⟨hbuilding.1, .inl hbuilding.2⟩, hjob, fun l _ _ ↦ by dsimp only; omega⟩
  have hcompletions : Completions ({ s with offered := s.offered + 1, log := entries }.put i c) := by
    refine (h.completions.log h.offers (Nat.le_succ _) fun k hk ↦ ?_).put (fun _ ↦ by dsimp only at *; omega)
      (fun _ hstatus ↦ absurd hnew hstatus) (fun _ ↦ by omega) fun _ ↦ by omega
    rw [hlog k hk]
    exact ⟨rfl, rfl, rfl⟩
  exact ⟨{ hpages with }, { hchains with }, { hoffers with }, { hcompletions with }, { hvalues with }⟩

variable (hticket : c.ticket = (s.callers i).ticket)

include hticket

theorem Sound.late {lastUsed accepted : ℕ} (hold : 11 ≤ (s.callers i).rank) (hrank : 12 ≤ c.rank)
    (hanswer : (s.log (s.callers i).ticket).status ≠ none)
    (hcompletions : Completions { s.put i c with lastUsed := lastUsed, accepted := accepted }) :
    Sound { s.put i c with lastUsed := lastUsed, accepted := accepted } := by
  have hpages : Pages (s.put i c) := by
    refine h.pages.put (fun _ ↦ ⟨by omega, fun _ ↦ by omega, hjob⟩) fun _ ↦ ?_
    rw [reported, reported, if_neg (by omega), if_neg (by omega), hticket]
  have hchains : Chains (s.put i c) := by
    refine h.chains.put h.chains.next (fun hb ↦ ?_) (fun _ ↦ ⟨by omega, hfirst⟩) fun _ hu ↦ ?_
    · have := hb.2
      omega
    · rw [hticket] at hu
      exact absurd (hu.resolve_left (by omega)) hanswer
  have hoffers := h.offers.put (fun _ ↦ by omega) (fun _ ↦ by omega)
    (fun _ ↦ ⟨hold, hticket, hjob, hfirst⟩) fun _ hnone ↦ absurd hnone hanswer
  have hvalues := h.values.put (fun _ ↦ by omega) (fun _ _ ↦ by omega) fun _ ↦ ⟨hold, hticket⟩
  exact ⟨{ hpages with }, { hchains with }, { hoffers with }, hcompletions, { hvalues with }⟩

theorem Sound.poll (hold : (s.callers i).rank = 11) (hown : s.Own i) (hrank : c.rank = 12) : Sound (s.put i c) := by
  refine h.late hjob hfirst hticket (by omega) (by omega) hown.2 ?_
  refine h.completions.put (fun _ ↦ ⟨.inr hrank, hticket⟩) (fun _ _ ↦ ⟨.inl hold, hticket⟩) (fun _ ↦ ?_) fun _ ↦ by omega
  rw [hticket]
  exact hown.2

theorem Sound.accept [Fintype ι] (hfits : Fits ι s.size) (hold : (s.callers i).rank = 12) (hown : s.Own i)
    (hrank : c.rank = 13) : Sound { s.put i c with lastUsed := s.usedIndex, accepted := s.completed } := by
  obtain ⟨hone, hfront⟩ := h.completions.own hfits hown.1 (.inr hold) hown.2
  exact h.late hjob hfirst hticket (by omega) (by omega) hown.2
    (h.completions.accept h.offers hold hrank hticket hone hfront)

theorem Sound.judge (hold : (s.callers i).rank = 13) (hrank : c.rank = 14)
    (hok : c.ok = decide (s.statuses ((s.callers i).job.page + statusOffset) = 0)) : Sound (s.put i c) := by
  have hanswer := h.completions.done i (by omega)
  rw [h.pages.status i (by omega), reported, if_neg (by omega)] at hok
  refine h.late hjob hfirst hticket (by omega) (by omega) hanswer ?_
  refine h.completions.put (fun _ ↦ by omega) (fun _ ↦ by omega) (fun _ ↦ ?_) fun _ ↦ ?_
  · rw [hticket]
    exact hanswer
  · obtain ⟨v, hv⟩ := ne_none_iff_exists'.mp hanswer
    rw [hok, hticket, hv]
    simp

end Advance

theorem Sound.not_timeout [Fintype ι] (h : Sound s) (hfits : Fits ι s.size)
    (hanswer : (s.log (s.callers i).ticket).status ≠ none) : s.timeout i = none := by
  refine if_neg fun ⟨hstage, hmoved⟩ ↦ ?_
  obtain ⟨p, hp, hp', -⟩ := h.completions.waits i (.inl (by rw [Caller.rank, hstage]; rfl)) hanswer
  have := (h.completions.moved_iff hfits).mp hmoved
  omega

theorem put_self (s : State ι) (i : ι) : s.put i (s.callers i) = s := by rw [State.put, update_eq_self]

theorem Sound.refuse (h : Sound s) (hold : (s.callers i).rank = 0) {args : Arguments} :
    Sound { s with
      last := update s.last i none
      calls := s.calls ++ [args]
      value := update s.value i (some false) } := by
  have hvalues := h.values.submit (i := i) (by omega) (.inr ⟨hold, rfl⟩)
  rw [put_self] at hvalues
  exact ⟨{ h.pages with }, { h.chains with }, { h.offers with }, { h.completions with }, { hvalues with }⟩

theorem Sound.submit (h : Sound s) (hstage : (s.callers i).stage = .outside) (args : Arguments) : Sound (s.submit i args) := by
  have hold : (s.callers i).rank = 0 := congrArg Stage.rank hstage
  unfold State.submit
  simp only
  split
  · exact h.refuse hold
  · rename_i hsize
    rcases s.frames.allocPages_cases Nat.one_pos with ⟨hnone, -⟩ | ⟨f, hsome, hrun, -⟩
    · rw [hnone, if_pos rfl]
      exact h.refuse hold
    · have hfree := hrun.2 f (Nat.le_refl f) (Nat.lt_succ_self f)
      have hf := hrun.1
      have hf0 : f ≠ 0 := by
        intro heq
        rw [heq, h.pages.low] at hfree
        cases hfree
      rw [hsome, if_neg (Nat.mul_ne_zero hf0 (by decide))]
      exact h.outer (by omega) (Nat.le_succ 1)
        (h.pages.submit (by omega) hf hfree (Frames.bitmap_markUsed hf) rfl rfl) (h.values.submit le_rfl (.inl rfl))

theorem Sound.advance [Fintype ι] (h : Sound s) (hfits : Fits ι s.size) (horderly : s.Orderly (.advance i))
    (hs : s.advance i = some s') : Sound s' := by
  simp only [Orderly] at horderly
  cases hstage : (s.callers i).stage <;> simp only [State.advance, hstage] at hs horderly
  case outside => cases hs
  case poll =>
    split at hs
    · cases hs
      exact h
    · rename_i hmoved
      cases hs
      exact h.poll rfl rfl rfl (congrArg Stage.rank hstage) (horderly.resolve_left hmoved) rfl
  all_goals cases hs
  case fill => exact h.fill rfl (congrArg Stage.rank hstage) rfl
  case take => exact h.take rfl (congrArg Stage.rank hstage) rfl rfl horderly.1 horderly.2
  case bump => exact h.bump rfl rfl (congrArg Stage.rank hstage) rfl
  case header =>
    have hold : (s.callers i).rank = 0 + 4 := congrArg Stage.rank hstage
    have hfirst : ((s.callers i).first + 0) % s.size = (s.callers i).first :=
      Nat.mod_eq_of_lt (h.chains.first i (by omega))
    have := h.write (c := { s.callers i with stage := .payload }) (by omega) hold rfl rfl
    rwa [hfirst] at this
  case payload => exact h.write (by omega) (congrArg Stage.rank hstage) rfl rfl
  case status => exact h.write (by omega) (congrArg Stage.rank hstage) rfl rfl
  case offer => exact h.offer rfl rfl (congrArg Stage.rank hstage) rfl rfl
  case store => exact h.store rfl rfl hfits (congrArg Stage.rank hstage) rfl
  case count => exact h.count rfl rfl (congrArg Stage.rank hstage) rfl rfl
  case publish => exact h.publish rfl rfl (congrArg Stage.rank hstage) rfl rfl
  case accept => exact h.accept rfl rfl rfl hfits (congrArg Stage.rank hstage) horderly rfl
  case judge => exact h.judge rfl rfl rfl (congrArg Stage.rank hstage) rfl rfl
  case leave => exact h.leave (congrArg Stage.rank hstage) rfl

theorem Sound.step [Fintype ι] (h : Sound s) (hfits : Fits ι s.size) {a : Action ι} (hon : s.Enabled a)
    (horderly : s.Orderly a) (hprompt : s.Prompt a) (hs : s.step a = some s') : Sound s' := by
  cases a with
  | submit i args =>
    cases hs
    exact h.submit hon args
  | advance i => exact h.advance hfits horderly hs
  | timeout i =>
    rw [State.step, h.not_timeout hfits hprompt] at hs
    cases hs
  | fetch => exact h.fetch hs
  | complete n v => exact h.complete hfits hs
  | others frames =>
    cases hs
    exact h.others hon

theorem advance_size (hs : s.advance i = some s') : s'.size = s.size := by
  unfold advance at hs
  cases hstage : (s.callers i).stage <;> simp only [hstage] at hs
  case outside => cases hs
  case poll =>
    split at hs
    · cases hs
      rfl
    · cases hs
      rfl
  all_goals
    cases hs
    rfl

theorem step_size {a : Action ι} (hs : s.step a = some s') : s'.size = s.size := by
  cases a with
  | submit i args =>
    cases hs
    simp only [submit]
    split
    · rfl
    · split
      · rfl
      · rfl
  | advance i => exact advance_size hs
  | timeout i =>
    simp only [State.step, timeout] at hs
    split at hs
    · cases hs
      rfl
    · cases hs
  | fetch =>
    simp only [State.step, fetch] at hs
    split at hs
    · cases hs
    · cases hs
      rfl
  | complete n v =>
    obtain ⟨x, -, hs⟩ := bind_eq_some_iff.mp hs
    obtain ⟨final, -, hs⟩ := bind_eq_some_iff.mp hs
    cases hs
    rfl
  | others frames =>
    cases hs
    rfl

end State

open State

variable {ι : Type} [Fintype ι] {size : ℕ}

theorem fits_of_subsingleton [Subsingleton ι] : Fits ι size := by
  have hcard := Fintype.card_le_one_iff_subsingleton.mpr (inferInstance : Subsingleton ι)
  refine ⟨Nat.lt_of_le_of_lt hcard (by decide), fun a b hlt hle ↦ ?_⟩
  omega

variable [DecidableEq ι] [Inhabited ι] {s : State ι}

theorem reached_sound (hfits : Fits ι size)
    (h : (system ι size).Reached (fun s a ↦ s.Orderly a ∧ s.Prompt a) s) : s.size = size ∧ s.Sound := by
  refine h.invariant (I := fun s ↦ s.size = size ∧ s.Sound) ?_ ?_
  · rintro s ⟨frames, hlow, rfl⟩
    exact ⟨rfl, Sound.setup hlow⟩
  · intro s s' a hI hon hok hs
    have hfits' : Fits ι s.size := by rwa [hI.1]
    exact ⟨(step_size hs).trans hI.1, hI.2.step hfits' hon hok.1 hok.2 hs⟩

theorem reached_sound_alone [Subsingleton ι] (h : (system ι size).Reached State.Prompt s) : s.Sound := by
  refine (reached_sound fits_of_subsingleton (h.strengthen (fun s hs ↦ reached_sound fits_of_subsingleton hs) ?_)).2
  intro s a hI _ hok
  exact ⟨hI.2.orderly a, hok⟩

end Eris.Virtio
