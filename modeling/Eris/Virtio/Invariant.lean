import Eris.Virtio.Queue

namespace Eris.Virtio

open Library Mm

variable {ι : Type} [DecidableEq ι]

def Caller.rank (c : Caller) : ℕ := c.stage.rank

def Caller.Building (c : Caller) : Prop := 3 ≤ c.rank ∧ c.rank ≤ 10

def Entry.view (size : ℕ) (e : Entry ι) : Seen :=
  ⟨e.job.header, [(e.first, e.job.descriptor size e.first 0),
    ((e.first + 1) % size, e.job.descriptor size e.first 1), ((e.first + 2) % size, e.job.descriptor size e.first 2)]⟩

/-- There are fewer callers than the indices can count, and as many slots as callers. -/
structure Fits (ι : Type) [Fintype ι] (size : ℕ) : Prop where
  callers : Fintype.card ι < indexSize
  slots : ∀ a b, a < b → b - a < Fintype.card ι → Ring.slot indexSize size a ≠ Ring.slot indexSize size b

namespace State

/-- A caller with descriptors in use: it is about to offer them, or the device has not completed them. -/
def Uses (s : State ι) (i : ι) : Prop :=
  3 ≤ (s.callers i).rank ∧ ((s.callers i).rank ≤ 10 ∨ (s.log (s.callers i).ticket).status = none)

def reported (s : State ι) (c : Caller) : UInt8 :=
  if c.rank ≤ 10 then 0xff else (s.log c.ticket).status.getD 0xff

def slot (s : State ι) (k : ℕ) : ℕ := Ring.slot indexSize s.size k

/-- The pages of the headers. -/
structure Pages (s : State ι) : Prop where
  low : s.frames.bitmap 0 = true
  inside : ∀ i, 1 ≤ (s.callers i).rank → 3 ≤ s.size ∧ ∃ f < managedPages,
    (s.callers i).job.page = f * pageSize ∧ f ≠ 0 ∧ s.frames.bitmap f = true
  apart : ∀ i j, 1 ≤ (s.callers i).rank → 1 ≤ (s.callers j).rank →
    (s.callers i).job.page = (s.callers j).job.page → i = j
  header : ∀ i, 2 ≤ (s.callers i).rank → s.headers (s.callers i).job.page = (s.callers i).job.header
  status : ∀ i, 2 ≤ (s.callers i).rank → s.statuses ((s.callers i).job.page + statusOffset) = s.reported (s.callers i)

/-- The descriptors. -/
structure Chains (s : State ι) : Prop where
  single : ∀ i j, (s.callers i).Building → (s.callers j).Building → i = j
  next : 3 ≤ s.size → s.nextDescriptor < s.size
  first : ∀ i, 3 ≤ (s.callers i).rank → (s.callers i).first < s.size
  apart : ∀ i j, s.Uses i → s.Uses j → ∀ l < 3, ∀ l' < 3,
    ((s.callers i).first + l) % s.size = ((s.callers j).first + l') % s.size → i = j ∧ l = l'
  written : ∀ i, s.Uses i → ∀ l < 3, l + 4 < (s.callers i).rank →
    s.descriptors (((s.callers i).first + l) % s.size) = (s.callers i).job.descriptor s.size (s.callers i).first l

/-- The available ring. -/
structure Offers (s : State ι) : Prop where
  index : ∀ i, (s.callers i).rank = 8 ∨ (s.callers i).rank = 10 → (s.callers i).index = s.availableIndex
  stored : ∀ i, (s.callers i).rank = 9 ∨ (s.callers i).rank = 10 → s.availableRing (s.slot s.offered) = (s.callers i).first
  flight : ∀ i, 11 ≤ (s.callers i).rank → (s.callers i).ticket < s.offered ∧
    (s.log (s.callers i).ticket).caller = i ∧ (s.log (s.callers i).ticket).job = (s.callers i).job ∧
    (s.log (s.callers i).ticket).first = (s.callers i).first
  outstanding : ∀ k < s.offered, (s.log k).status = none →
    (s.callers (s.log k).caller).rank = 11 ∧ (s.callers (s.log k).caller).ticket = k
  available : s.availableIndex = s.offered % indexSize
  lastAvailable : s.lastAvailable = s.fetched % indexSize
  le : s.fetched ≤ s.offered
  ring : ∀ k, s.fetched ≤ k → k < s.offered → s.availableRing (s.slot k) = (s.log k).first
  unfetched : ∀ k, s.fetched ≤ k → k < s.offered → (s.log k).status = none
  seen : ∀ k < s.fetched, (s.log k).seen = some ((s.log k).view s.size)
  held : ∀ x ∈ s.held, x.ticket < s.fetched ∧ (s.log x.ticket).status = none ∧ x.head = (s.log x.ticket).first ∧
    x.seen = (s.log x.ticket).view s.size
  nodup : (s.held.map Held.ticket).Nodup

/-- The used ring. -/
structure Completions (s : State ι) : Prop where
  used : s.usedIndex = s.completed % indexSize
  lastUsed : s.lastUsed = s.accepted % indexSize
  le : s.accepted ≤ s.completed
  ring : ∀ p, s.accepted ≤ p → p < s.completed → (s.usedRing (s.slot p)).id = (s.log (s.order p)).first
  answered : ∀ p, s.accepted ≤ p → p < s.completed → s.order p < s.offered ∧ (s.log (s.order p)).status ≠ none ∧
    ((s.callers (s.log (s.order p)).caller).rank = 11 ∨ (s.callers (s.log (s.order p)).caller).rank = 12) ∧
    (s.callers (s.log (s.order p)).caller).ticket = s.order p
  injective : ∀ p q, s.accepted ≤ p → p < s.completed → s.accepted ≤ q → q < s.completed → s.order p = s.order q → p = q
  waits : ∀ i, (s.callers i).rank = 11 ∨ (s.callers i).rank = 12 → (s.log (s.callers i).ticket).status ≠ none →
    ∃ p, s.accepted ≤ p ∧ p < s.completed ∧ s.order p = (s.callers i).ticket
  done : ∀ i, 12 ≤ (s.callers i).rank → (s.log (s.callers i).ticket).status ≠ none
  ok : ∀ i, (s.callers i).rank = 14 → ((s.callers i).ok = true ↔ (s.log (s.callers i).ticket).status = some 0)

/-- What the calls return. -/
structure Values (s : State ι) : Prop where
  inside : ∀ i, 1 ≤ (s.callers i).rank → s.value i = none
  pending : ∀ i, 1 ≤ (s.callers i).rank → (s.callers i).rank ≤ 10 → s.last i = none
  last : ∀ i, 11 ≤ (s.callers i).rank → s.last i = some (s.callers i).ticket
  known : ∀ i k, s.value i ≠ none → s.last i = some k → k < s.offered ∧ (s.log k).caller = i ∧ (s.log k).status ≠ none
  value : ∀ i b, s.value i = some b → (b = true ↔ ∃ k, s.last i = some k ∧ (s.log k).status = some 0)

structure Sound (s : State ι) : Prop where
  pages : Pages s
  chains : Chains s
  offers : Offers s
  completions : Completions s
  values : Values s

end State

end Eris.Virtio
