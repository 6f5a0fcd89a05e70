import Eris.Virtio.Runs

namespace Eris.Virtio

open Library Mm List Function

def Arguments.Transfer (args : Arguments) : Prop :=
  ∃ sector payload sectors, 1 ≤ sectors ∧ sectors < 2 ^ 23 ∧
    (virtioBlkRead sector payload sectors = some args ∨ virtioBlkWrite sector payload sectors = some args)

def Descriptor.writable (d : Descriptor) : Prop := d.flags / descriptorWrite % 2 = 1

/-- What the device is to see of a call. -/
structure Seen.Describes (seen : Seen) (args : Arguments) : Prop where
  header : seen.header = ⟨args.type, 0, args.sector⟩
  chain : ∃ header payload status, seen.chain = [header, payload, status] ∧ [header.1, payload.1, status.1].Nodup ∧
    header.2.length = headerSize ∧ ¬ header.2.writable ∧
    payload.2.address = args.payload ∧ payload.2.length = args.length ∧ (payload.2.writable ↔ args.type = requestIn) ∧
    status.2.length = 1 ∧ status.2.writable

def Caller.pending (c : Caller) : List Arguments := if 1 ≤ c.rank ∧ c.rank ≤ 10 then [c.job.args] else []

theorem Caller.rank_le (c : Caller) : c.rank ≤ 14 := by
  unfold Caller.rank
  cases c.stage <;> decide

theorem Caller.rank_pos {c : Caller} (h : c.stage ≠ .outside) : 1 ≤ c.rank := by
  cases hstage : c.stage with
  | outside => exact absurd hstage h
  | _ => simp [Caller.rank, hstage, Stage.rank]

theorem Arguments.Transfer.length_lt {args : Arguments} (h : args.Transfer) : args.length < 2 ^ 32 := by
  obtain ⟨sector, payload, sectors, hpos, hlt, hread | hwrite⟩ := h
  · rw [virtioBlkRead, if_neg (by omega)] at hread
    cases hread
    simp only [sectorSize]
    omega
  · rw [virtioBlkWrite, if_neg (by omega)] at hwrite
    cases hwrite
    simp only [sectorSize]
    omega

theorem Arguments.Transfer.write_iff {args : Arguments} (h : args.Transfer) : args.write = false ↔ args.type = requestIn := by
  obtain ⟨sector, payload, sectors, hpos, hlt, hread | hwrite⟩ := h
  · rw [virtioBlkRead, if_neg (by omega)] at hread
    cases hread
    exact iff_of_true rfl rfl
  · rw [virtioBlkWrite, if_neg (by omega)] at hwrite
    cases hwrite
    exact iff_of_false Bool.true_eq_false.mp Nat.one_ne_zero

theorem Entry.view_describes {ι : Type} (e : Entry ι) {size : ℕ} (hsize : 3 ≤ size) (hfirst : e.first < size)
    (h : e.job.args.Transfer) : (e.view size).Describes e.job.args := by
  refine ⟨rfl, _, _, _, rfl, ?_, rfl, ?_, rfl, Nat.mod_eq_of_lt h.length_lt, ?_, rfl, ?_⟩
  · have h01 : e.first % size ≠ (e.first + 1) % size := Ring.mod_ne_of_lt (by omega) (by omega)
    have h02 : e.first % size ≠ (e.first + 2) % size := Ring.mod_ne_of_lt (by omega) (by omega)
    have h12 : (e.first + 1) % size ≠ (e.first + 2) % size := Ring.mod_ne_of_lt (by omega) (by omega)
    rw [Nat.mod_eq_of_lt hfirst] at h01 h02
    simp [h01, h02, h12]
  · simp [Descriptor.writable, Job.descriptor, descriptorNext, descriptorWrite]
  · rw [← h.write_iff]
    cases hw : e.job.args.write with
    | true => simp [Descriptor.writable, Job.descriptor, hw, descriptorNext, descriptorWrite]
    | false => simp [Descriptor.writable, Job.descriptor, hw, descriptorNext, descriptorWrite]
  · simp [Descriptor.writable, Job.descriptor, descriptorWrite]

namespace State

section Advance

variable {ι : Type} [DecidableEq ι] {s s' : State ι} {i : ι}

/-- What a step of a caller leaves alone unless it publishes its chain or returns. -/
structure Silent (s s' : State ι) : Prop where
  offered : s'.offered = s.offered
  log : s'.log = s.log
  calls : s'.calls = s.calls
  value : s'.value = s.value
  last : s'.last = s.last

theorem advance_cases (hs : s.advance i = some s') :
    s' = s ∧ (s.callers i).rank = 11 ∧ s.usedIndex = s.lastUsed ∨
    Silent s s' ∧ (s.callers i).rank ≠ 0 ∧ (s.callers i).rank ≠ 10 ∧ (s.callers i).rank ≠ 14 ∧
      (s'.callers i).rank = (s.callers i).rank + 1 ∧ (s'.callers i).job = (s.callers i).job ∧
      (s'.callers i).ticket = (s.callers i).ticket ∨
    (s.callers i).rank = 10 ∧ (s'.callers i).rank = 11 ∧ (s'.callers i).ticket = s.offered ∧ s'.offered = s.offered + 1 ∧
      s'.log = update s.log s.offered ⟨i, (s.callers i).job, (s.callers i).first, none, none⟩ ∧
      s'.calls = s.calls ∧ s'.value = s.value ∨
    (s.callers i).rank = 14 ∧ (s'.callers i).rank = 0 ∧ s'.offered = s.offered ∧ s'.log = s.log ∧
      s'.calls = s.calls ∧ s'.last = s.last ∧ s'.value i = some (s.callers i).ok := by
  unfold advance at hs
  cases hstage : (s.callers i).stage <;> simp only [hstage] at hs
  case outside => cases hs
  case poll =>
    split at hs
    · rename_i hmoved
      cases hs
      exact .inl ⟨rfl, congrArg Stage.rank hstage, hmoved⟩
    · cases hs
      simp [Caller.rank, hstage, Stage.rank, State.put, Silent.mk]
  case publish =>
    cases hs
    simp [Caller.rank, hstage, Stage.rank, State.put]
  case leave =>
    cases hs
    simp [Caller.rank, hstage, Stage.rank, State.put, finish]
  all_goals
    cases hs
    simp [Caller.rank, hstage, Stage.rank, State.put, Silent.mk]

theorem advance_eq_some (h : (s.callers i).rank ≠ 0) : ∃ s', s.advance i = some s' := by
  unfold advance
  cases hstage : (s.callers i).stage <;> simp only [hstage]
  case outside =>
    rw [Caller.rank, hstage] at h
    exact absurd rfl h
  case poll =>
    split
    · exact ⟨_, rfl⟩
    · exact ⟨_, rfl⟩
  all_goals exact ⟨_, rfl⟩

def advances (i : ι) : ℕ → State ι → Option (State ι)
  | 0, s => some s
  | n + 1, s => (s.advance i).bind (advances i n)

theorem advances_publish {n : ℕ} (hn : n < 10) (h : (s.callers i).rank = 10 - n) :
    ∃ s', s.advances i (n + 1) = some s' ∧ s'.offered = s.offered + 1 := by
  induction n generalizing s with
  | zero =>
    obtain ⟨s', hs'⟩ := s.advance_eq_some (i := i) (by omega)
    refine ⟨s', by rw [advances, hs']; rfl, ?_⟩
    rcases advance_cases hs' with ⟨-, hr, -⟩ | ⟨-, -, hr, -⟩ | ⟨-, -, -, hoffered, -⟩ | ⟨hr, -⟩
    · omega
    · omega
    · exact hoffered
    · omega
  | succ n ih =>
    obtain ⟨s₁, hs₁⟩ := s.advance_eq_some (i := i) (by omega)
    rcases advance_cases hs₁ with ⟨-, hr, -⟩ | ⟨hsilent, -, -, -, hrank, -⟩ | ⟨hr, -⟩ | ⟨hr, -⟩
    · omega
    · obtain ⟨s', hs', hoffered⟩ := ih (s := s₁) (by omega) (by omega)
      refine ⟨s', by rw [advances, hs₁]; exact hs', ?_⟩
      rw [hoffered, hsilent.offered]
    · omega
    · omega

theorem Sound.advances_return [Subsingleton ι] [Fintype ι] {v : UInt8} {n : ℕ} (hn : n < 4) (h : Sound s)
    (hrank : (s.callers i).rank = 14 - n) (hanswer : (s.log (s.callers i).ticket).status = some v) :
    ∃ s', s.advances i (n + 1) = some s' ∧ s'.value i = some (decide (v = 0)) := by
  have hstatus : (s.log (s.callers i).ticket).status ≠ none := by
    rw [hanswer]
    nofun
  induction n generalizing s with
  | zero =>
    obtain ⟨s', hs'⟩ := s.advance_eq_some (i := i) (by omega)
    refine ⟨s', by rw [advances, hs']; rfl, ?_⟩
    rcases advance_cases hs' with ⟨-, hr, -⟩ | ⟨-, -, -, hr, -⟩ | ⟨hr, -⟩ | ⟨-, -, -, -, -, -, hvalue⟩
    · omega
    · omega
    · omega
    · have hok := h.completions.ok i (by omega)
      rw [hanswer, Option.some.injEq] at hok
      rw [hvalue, Option.some.injEq, ← Bool.coe_iff_coe, hok, decide_eq_true_eq]
  | succ n ih =>
    obtain ⟨s₁, hs₁⟩ := s.advance_eq_some (i := i) (by omega)
    rcases advance_cases hs₁ with ⟨-, hr, hmoved⟩ | ⟨hsilent, -, -, -, hr, -, hticket⟩ | ⟨hr, -⟩ | ⟨hr, -⟩
    · obtain ⟨p, hp, hp', -⟩ := h.completions.waits i (.inl hr) hstatus
      have := (h.completions.moved_iff fits_of_subsingleton).mp hmoved
      omega
    · have hsound := h.step fits_of_subsingleton (a := .advance i) trivial (h.orderly _) trivial hs₁
      have hsame : (s₁.log (s₁.callers i).ticket).status = (s.log (s.callers i).ticket).status := by
        rw [hticket, hsilent.log]
      obtain ⟨s', hs', hvalue⟩ := ih (by omega) hsound (by omega) (hsame.trans hanswer) (by rwa [hsame])
      exact ⟨s', by rw [advances, hs₁]; exact hs', hvalue⟩
    · omega
    · omega

end Advance

variable {s s' : State Unit} {c : Caller}

/-- The calls of one caller and the entries they made. -/
structure Counted (s : State Unit) : Prop where
  calls : s.calls = (List.range s.offered).map (fun k ↦ (s.log k).job.args) ++ (s.callers ()).pending
  transfers : ∀ args ∈ s.calls, args.Transfer
  firsts : ∀ k < s.offered, (s.log k).first < s.size
  ticket : 11 ≤ (s.callers ()).rank → (s.callers ()).ticket + 1 = s.offered
  last : s.value () ≠ none → ∃ k, s.last () = some k ∧ k + 1 = s.offered

theorem Counted.keep (h : Counted s) (hpending : (s'.callers ()).pending = (s.callers ()).pending)
    (hticket : 11 ≤ (s'.callers ()).rank → 11 ≤ (s.callers ()).rank ∧ (s'.callers ()).ticket = (s.callers ()).ticket)
    (hsize : s'.size = s.size) (hoffered : s'.offered = s.offered) (hcalls : s'.calls = s.calls)
    (hlog : ∀ k, (s'.log k).job = (s.log k).job ∧ (s'.log k).first = (s.log k).first)
    (hlast : s'.value () ≠ none → ∃ k, s'.last () = some k ∧ k + 1 = s.offered) : Counted s' := by
  refine ⟨?_, by rw [hcalls]; exact h.transfers, fun k hk ↦ ?_, fun hrank ↦ ?_, by rwa [hoffered]⟩
  · rw [hcalls, h.calls, hpending, hoffered]
    congr 1
    exact map_congr_left fun k _ ↦ by rw [(hlog k).1]
  · rw [hoffered] at hk
    rw [(hlog k).2, hsize]
    exact h.firsts k hk
  · obtain ⟨hold, hsame⟩ := hticket hrank
    rw [hsame, hoffered]
    exact h.ticket hold

theorem pending_of_advance {c c' : Caller} (hlow : c.rank ≠ 0) (hne : c.rank ≠ 10) (hrank : c'.rank = c.rank + 1)
    (hjob : c'.job = c.job) : c'.pending = c.pending := by
  unfold Caller.pending
  rw [hjob]
  refine if_congr ?_ rfl rfl
  omega

theorem Counted.advance (h : Counted s) (hsound : Sound s) (hs : s.advance () = some s') : Counted s' := by
  have hsize := advance_size hs
  obtain ⟨rfl, -, -⟩ | ⟨hsilent, hlow, hne, -, hrank, hjob, hticket⟩ |
    ⟨hold, hrank, hticket, hoffered, hlog, hcalls, hvalue⟩ |
    ⟨hold, hrank, hoffered, hlog, hcalls, hlast, hvalue⟩ := advance_cases hs
  · exact h
  · refine h.keep (pending_of_advance hlow hne hrank hjob) (fun hr ↦ ⟨by omega, hticket⟩) hsize hsilent.offered
      hsilent.calls (fun k ↦ ?_) ?_
    · rw [hsilent.log]
      exact ⟨rfl, rfl⟩
    · rw [hsilent.value, hsilent.last]
      exact h.last
  · have hpending : (s.callers ()).pending = [(s.callers ()).job.args] := if_pos ⟨by omega, by omega⟩
    have hpending' : (s'.callers ()).pending = [] := if_neg (by omega)
    have hnew : s'.log s.offered = ⟨(), (s.callers ()).job, (s.callers ()).first, none, none⟩ := by
      rw [hlog, update_self]
    have hsame : ∀ k < s.offered, s'.log k = s.log k := by
      intro k hk
      rw [hlog, update_of_ne (by omega)]
    refine ⟨?_, by rw [hcalls]; exact h.transfers, fun k hk ↦ ?_, fun _ ↦ by rw [hticket, hoffered], ?_⟩
    · rw [hcalls, h.calls, hpending, hpending', hoffered, range_succ, map_append, List.append_nil]
      refine congrArg₂ _ (map_congr_left fun k hk ↦ ?_) ?_
      · rw [hsame k (mem_range.mp hk)]
      · rw [map_singleton, hnew]
    · rw [hsize]
      by_cases hk' : k = s.offered
      · rw [hk', hnew]
        exact hsound.chains.first () (by omega)
      · rw [hsame k (by omega)]
        exact h.firsts k (by omega)
    · rw [hvalue, hsound.values.inside () (by omega)]
      exact fun hne ↦ absurd rfl hne
  · refine h.keep ?_ (fun hr ↦ by omega) hsize hoffered hcalls (fun k ↦ ?_) (fun _ ↦ ?_)
    · unfold Caller.pending
      rw [if_neg (by omega), if_neg (by omega)]
    · rw [hlog]
      exact ⟨rfl, rfl⟩
    · exact ⟨_, by rw [hlast]; exact hsound.values.last () (by omega), h.ticket (by omega)⟩

/-- The device answers in time, and the calls are reads and writes that find a free frame. -/
def Served (s : State Unit) : Action Unit → Prop
  | .submit _ args => args.Transfer ∧ ∃ f < managedPages, s.frames.bitmap f = false
  | a => s.Prompt a

theorem Served.prompt {a : Action Unit} (h : s.Served a) : s.Prompt a := by
  cases a with
  | submit => exact trivial
  | _ => exact h

theorem Counted.submit (h : Counted s) (hsize : 3 ≤ s.size) (hlow : s.frames.bitmap 0 = true)
    (hstage : (s.callers ()).stage = .outside) {args : Arguments} (hargs : args.Transfer)
    (hfree : ∃ f < managedPages, s.frames.bitmap f = false) : Counted (s.submit () args) := by
  have hpending : (s.callers ()).pending = [] := by
    unfold Caller.pending
    rw [Caller.rank, hstage]
    rfl
  unfold State.submit
  simp only
  rw [if_neg (by omega)]
  rcases s.frames.allocPages_cases Nat.one_pos with ⟨-, hall⟩ | ⟨f, hsome, hrun, -⟩
  · obtain ⟨f, hf, hbit⟩ := hfree
    refine absurd ⟨hf, fun i hlo hhi ↦ ?_⟩ (hall f)
    rwa [show i = f by omega]
  · have hf0 : f ≠ 0 := by
      intro heq
      have := hrun.2 f le_rfl (Nat.lt_succ_self f)
      rw [heq, hlow] at this
      cases this
    rw [hsome, if_neg (Nat.mul_ne_zero hf0 (by decide))]
    refine ⟨?_, ?_, h.firsts, ?_, ?_⟩
    · rw [show s.calls = _ from h.calls, hpending, List.append_nil]
      rfl
    · intro a ha
      rcases mem_append.mp ha with ha | ha
      · exact h.transfers a ha
      · rwa [mem_singleton.mp ha]
    · intro hr
      exact absurd (show 11 ≤ 1 from hr) (by decide)
    · intro hne
      exact absurd rfl hne

theorem Counted.step (h : Counted s) (hsound : Sound s) (hsize : 3 ≤ s.size) {a : Action Unit} (hon : s.Enabled a)
    (hok : s.Served a) (hs : s.step a = some s') : Counted s' := by
  cases a with
  | submit i args =>
    cases hs
    exact h.submit hsize hsound.pages.low hon hok.1 hok.2
  | advance i => exact h.advance hsound hs
  | timeout i =>
    rw [State.step, hsound.not_timeout fits_of_subsingleton hok] at hs
    cases hs
  | fetch =>
    simp only [State.step, fetch] at hs
    split at hs
    · cases hs
    · cases hs
      refine h.keep rfl (fun hr ↦ ⟨hr, rfl⟩) rfl rfl rfl (fun k ↦ ?_) h.last
      simp only [update_apply]
      split <;> simp [*]
  | complete n v =>
    obtain ⟨x, -, hs⟩ := Option.bind_eq_some_iff.mp hs
    obtain ⟨final, -, hs⟩ := Option.bind_eq_some_iff.mp hs
    cases hs
    refine h.keep rfl (fun hr ↦ ⟨hr, rfl⟩) rfl rfl rfl (fun k ↦ ?_) h.last
    simp only [update_apply]
    split <;> simp [*]
  | others frames =>
    cases hs
    exact { h with }

end State

open State

variable {size : ℕ} {s : State Unit}

theorem reached_counted (hsize : 3 ≤ size) (h : (system Unit size).Reached State.Served s) :
    s.size = size ∧ s.Sound ∧ s.Counted := by
  refine h.invariant (I := fun s ↦ s.size = size ∧ s.Sound ∧ s.Counted) ?_ ?_
  · rintro s ⟨frames, hlow, rfl⟩
    exact ⟨rfl, Sound.setup hlow, rfl, nofun, nofun, fun hr ↦ absurd (show 11 ≤ 0 from hr) (by decide), fun hne ↦ absurd rfl hne⟩
  · intro s s' a ⟨hs₁, hsound, hcounted⟩ hon hok hs
    have hsize' : 3 ≤ s.size := by omega
    exact ⟨(step_size hs).trans hs₁, hsound.step fits_of_subsingleton hon (hsound.orderly a) hok.prompt hs,
      hcounted.step hsound hsize' hon hok hs⟩

def readOnce (args : Arguments) : List (Action Unit) :=
  .submit () args :: List.replicate 10 (.advance ()) ++ [.fetch, .complete 0 0] ++ List.replicate 4 (.advance ())

def readable (s : State Unit) : Action Unit → Bool
  | .submit _ args => (s.callers ()).stage = .outside ∧ args = ⟨requestIn, 7, 20480, 512, false⟩ ∧ s.frames.bitmap 1 = false
  | .timeout _ => false
  | .others _ => false
  | _ => true

end Eris.Virtio
