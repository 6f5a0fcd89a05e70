import Eris.Machine.HeapBlocks
import Eris.Mm.Reservations
import Eris.Mm.Supply

namespace Eris.Machine.KernelHeap

open Library.Blocks Mm
open List hiding span

variable {k k' : KernelHeap} {m m' : Memory} {bs pre post : List Block} {a wanted size : ℕ}

/-- A pointer that was handed out and not freed, with the size it was asked for. -/
structure Allocation where
  pointer : ℕ
  size : ℕ
  deriving DecidableEq

def payloads (k : KernelHeap) (bs : List Block) : List (ℕ × ℕ) :=
  (inUse blockHeaderSize k.base bs).map fun x ↦ (x.1 + blockHeaderSize, x.2)

/-- The representation of the heap, and the allocations that it stands for. -/
structure Sound (k : KernelHeap) (bs : List Block) (live : List Allocation) : Prop where
  represents : Represents k bs
  aligned : alignment ∣ k.base
  sizes : ∀ b ∈ bs, alignment ∣ b.size
  coalesced : Coalesced bs
  used : k.used = ((k.payloads bs).map Prod.snd).sum
  owned : (live.map Allocation.pointer).Perm ((k.payloads bs).map Prod.fst)
  enough : ∀ x ∈ live, ∃ s, (x.pointer, s) ∈ k.payloads bs ∧ x.size ≤ s

section Payloads

theorem payloads_congr (h : k'.base = k.base) : k'.payloads bs = k.payloads bs := by rw [payloads, h, payloads]

theorem payloads_middle (k : KernelHeap) (pre post : List Block) {b : Block} (hb : b.free = false) :
    k.payloads (pre ++ b :: post) = k.payloads pre ++ (k.place pre + blockHeaderSize, b.size) ::
      ((inUse blockHeaderSize (k.place pre + (blockHeaderSize + b.size)) post).map fun x ↦
        (x.1 + blockHeaderSize, x.2)) := by
  rw [payloads, inUse_append, inUse_taken hb, map_append, map_cons, payloads]
  rfl

theorem payloads_middle_free (k : KernelHeap) (pre post : List Block) {b : Block} (hb : b.free = true) :
    k.payloads (pre ++ b :: post) = k.payloads pre ++
      ((inUse blockHeaderSize (k.place pre + (blockHeaderSize + b.size)) post).map fun x ↦
        (x.1 + blockHeaderSize, x.2)) := by
  rw [payloads, inUse_append, inUse_free hb, map_append, payloads]
  rfl

theorem payloads_sorted : (k.payloads bs).Pairwise fun x y ↦ x.1 + x.2 + blockHeaderSize ≤ y.1 := by
  refine pairwise_map.mpr (inUse_sorted.imp fun {x y} h ↦ ?_)
  simp only
  omega

theorem mem_payloads {x s : ℕ} :
    (x, s) ∈ k.payloads bs ↔ ∃ pre post, bs = pre ++ ⟨s, false⟩ :: post ∧ x = k.place pre + blockHeaderSize := by
  constructor
  · intro h
    obtain ⟨⟨y, t⟩, hy, heq⟩ := mem_map.mp h
    cases heq
    obtain ⟨pre, post, hbs, hplace⟩ := mem_inUse.mp hy
    exact ⟨pre, post, hbs, by rw [place, ← hplace]⟩
  · rintro ⟨pre, post, hbs, hx⟩
    rw [hbs, payloads_middle k pre post rfl, hx]
    exact mem_append_right _ mem_cons_self

end Payloads

section Search

theorem firstFit_cases (wanted : ℕ) {headers : ℕ → Header} {prev rounds : ℕ} (ha : 0 < a)
    (h : Laid blockHeaderSize headers 0 prev a bs) (hrounds : bs.length ≤ rounds) :
    firstFit headers wanted rounds (link 0 a bs) = none ∧ (∀ b ∈ bs, b.free = true → b.size < wanted) ∨
    ∃ pre b post, bs = pre ++ b :: post ∧ b.free = true ∧ wanted ≤ b.size ∧
      firstFit headers wanted rounds (link 0 a bs) = some (a + span blockHeaderSize pre) := by
  induction bs generalizing prev a rounds with
  | nil =>
    refine .inl ⟨?_, nofun⟩
    cases rounds with
    | zero => rfl
    | succ rounds => rfl
  | cons b bs ih =>
    cases rounds with
    | zero => exact absurd hrounds (Nat.not_succ_le_zero _)
    | succ rounds =>
      rw [link, firstFit, if_neg (Nat.ne_of_gt ha), h.1]
      by_cases hskip : b.free = false ∨ b.size < wanted
      · rw [if_pos hskip]
        rcases ih (by omega) h.2 (Nat.le_of_succ_le_succ hrounds) with ⟨hnone, hall⟩ | ⟨pre, c, post, rfl, hc, hle, hsome⟩
        · refine .inl ⟨hnone, forall_mem_cons.mpr ⟨fun hfree ↦ ?_, hall⟩⟩
          exact hskip.resolve_left (by simp [hfree])
        · refine .inr ⟨b :: pre, c, post, rfl, hc, hle, ?_⟩
          rw [hsome, span_cons, Nat.add_assoc]
      · rw [if_neg hskip]
        exact .inr ⟨[], b, bs, rfl, by simpa using fun h ↦ hskip (.inl h), by omega, rfl⟩

theorem length_le_span (bs : List Block) : bs.length ≤ span blockHeaderSize bs := by
  have hpos : 0 < blockHeaderSize := by decide
  induction bs with
  | nil => exact Nat.le_refl _
  | cons b bs ih =>
    rw [length_cons, span_cons]
    omega

end Search

section Calls

variable {live : List Allocation} {x : Allocation}

@[simp]
theorem split_toHeap (block : ℕ) : (k.split block size).toHeap = k.toHeap := by
  unfold split
  simp only
  split
  · rfl
  · rw [write_toHeap, relink_kept.1, write_toHeap]

@[simp]
theorem split_used (block : ℕ) : (k.split block size).used = k.used := by
  unfold split
  simp only
  split
  · rfl
  · rw [write_used, relink_kept.2.2, write_used]

theorem Coalesced.left (h : Coalesced (pre ++ post)) : Coalesced pre := (isChain_append.mp h).1

theorem Coalesced.right {b : Block} (h : Coalesced (pre ++ b :: post)) : Coalesced post :=
  (isChain_cons.mp (isChain_append.mp h).2.1).2

theorem coalesced_taken {s : ℕ} (hpre : Coalesced pre) (hpost : Coalesced post) :
    Coalesced (pre ++ ⟨s, false⟩ :: post) := by
  refine isChain_append.mpr ⟨hpre, isChain_cons.mpr ⟨fun c _ hboth ↦ ?_, hpost⟩, fun b _ c hc hboth ↦ ?_⟩
  · cases hboth.1
  · cases hc
    cases hboth.2

theorem Sound.take {s : ℕ} (h : Sound k bs live) (hk' : Represents k' (pre ++ ⟨s, false⟩ :: post))
    (hbase : k'.base = k.base) (hused : k'.used = k.used + s)
    (hpayloads : k.payloads (pre ++ ⟨s, true⟩ :: post) = k.payloads bs)
    (hsizes : ∀ b ∈ pre ++ ⟨s, false⟩ :: post, alignment ∣ b.size) (hpre : Coalesced pre) (hpost : Coalesced post)
    (hsize : size ≤ s) :
    Sound k' (pre ++ ⟨s, false⟩ :: post) (⟨k.place pre + blockHeaderSize, size⟩ :: live) := by
  rw [payloads_middle_free k pre post rfl] at hpayloads
  have hnew := (payloads_congr hbase).trans (payloads_middle k pre post (b := ⟨s, false⟩) rfl)
  refine ⟨hk', ?_, hsizes, coalesced_taken hpre hpost, ?_, ?_, ?_⟩
  · rw [hbase]
    exact h.aligned
  · rw [hnew, hused, h.used, ← hpayloads]
    simp only [map_append, map_cons, sum_append, sum_cons]
    omega
  · have howned := h.owned
    rw [← hpayloads, map_append] at howned
    rw [hnew, map_cons, map_append, map_cons]
    exact (howned.cons _).trans perm_middle.symm
  · rw [hnew]
    refine forall_mem_cons.mpr ⟨⟨s, mem_append_right _ mem_cons_self, hsize⟩, fun y hy ↦ ?_⟩
    obtain ⟨t, ht, hle⟩ := h.enough y hy
    rw [← hpayloads] at ht
    refine ⟨t, ?_, hle⟩
    rcases mem_append.mp ht with ht | ht
    · exact mem_append_left _ ht
    · exact mem_append_right _ (mem_cons_of_mem _ ht)

theorem Sound.split {s : ℕ} (h : Sound k (pre ++ ⟨s, true⟩ :: post) live) (hwanted : alignment ∣ wanted)
    (hle : wanted ≤ s) :
    ∃ t rest, Represents (k.split (k.place pre) wanted) (pre ++ ⟨t, true⟩ :: rest) ∧
      k.payloads (pre ++ ⟨t, true⟩ :: rest) = k.payloads (pre ++ ⟨s, true⟩ :: post) ∧
      (∀ b ∈ pre ++ ⟨t, true⟩ :: rest, alignment ∣ b.size) ∧ Coalesced rest ∧ wanted ≤ t := by
  by_cases hroom : blockHeaderSize + alignment ≤ s - wanted
  · refine ⟨wanted, ⟨s - wanted - blockHeaderSize, true⟩ :: post, h.represents.split hroom, ?_, ?_, ?_, Nat.le_refl _⟩
    · have hjoin : (⟨s, true⟩ : Block) = ⟨wanted + (blockHeaderSize + (s - wanted - blockHeaderSize)), true⟩ := by
        congr
        omega
      rw [hjoin, payloads, payloads, inUse_append, inUse_append]
      congr 2
      exact (inUse_join rfl rfl).symm
    · have hsizes := h.sizes
      rw [forall_mem_append, forall_mem_cons] at hsizes ⊢
      refine ⟨hsizes.1, hwanted, forall_mem_cons.mpr ⟨?_, hsizes.2.2⟩⟩
      exact Nat.dvd_sub (Nat.dvd_sub hsizes.2.1 hwanted) (by decide)
    · obtain ⟨hhead, htail⟩ := isChain_cons.mp (isChain_append.mp h.coalesced).2.1
      exact isChain_cons.mpr ⟨fun c hc hboth ↦ hhead c hc ⟨rfl, hboth.2⟩, htail⟩
  · have hsame : k.split (k.place pre) wanted = k := by
      unfold KernelHeap.split
      rw [h.represents.middle.1]
      exact if_pos (Nat.lt_of_not_le hroom)
    rw [hsame]
    exact ⟨s, post, h.represents, rfl, h.sizes, h.coalesced.right, hle⟩

theorem Sound.attempt (h : Sound k bs live) (hwanted : alignment ∣ wanted) (hsize : size ≤ wanted) :
    k.attempt wanted = none ∧ (∀ b ∈ bs, b.free = true → b.size < wanted) ∨
    ∃ k' bs' pointer, k.attempt wanted = some (k', pointer) ∧ pointer ≠ 0 ∧ k'.toHeap = k.toHeap ∧
      Sound k' bs' (⟨pointer, size⟩ :: live) := by
  have hrep := h.represents
  have hrounds : bs.length ≤ k.committed := by
    rw [hrep.committed]
    exact length_le_span bs
  unfold KernelHeap.attempt
  rw [hrep.head]
  rcases firstFit_cases wanted hrep.base hrep.laid hrounds with ⟨hnone, hall⟩ | ⟨pre, b, post, rfl, hb, hle, hsome⟩
  · exact .inl ⟨by rw [hnone]; rfl, hall⟩
  · obtain ⟨s, free⟩ := b
    obtain rfl := hb
    obtain ⟨t, rest, hsplit, hpayloads, hsizes, hrest, hfits⟩ := h.split hwanted hle
    have hplace : (k.split (k.place pre) wanted).place pre = k.place pre := by rw [place, split_toHeap, place]
    have htaken := hsplit.setFree false
    rw [hplace] at htaken
    have hheader : (((k.split (k.place pre) wanted).write (k.place pre) fun x ↦
        { x with free := false }).headers (k.place pre)).size = t := by
      rw [write_headers_self]
      have hmiddle := hsplit.middle.1
      rw [hplace] at hmiddle
      rw [hmiddle]
    have hne : k.place pre + blockHeaderSize ≠ 0 := by
      have hpos : 0 < blockHeaderSize := by decide
      omega
    rw [show firstFit _ _ _ _ = some (k.place pre) from hsome]
    refine .inr ⟨_, pre ++ ⟨t, false⟩ :: rest, _, rfl, hne, ?_, h.take ?_ ?_ ?_ hpayloads ?_ h.coalesced.left hrest
      (Nat.le_trans hsize hfits)⟩
    · exact split_toHeap (k.place pre)
    · exact ⟨htaken.base, htaken.laid, htaken.head, htaken.tail, htaken.committed⟩
    · exact congrArg Heap.base (split_toHeap (k.place pre))
    · simp only [hheader, write_used, split_used]
    · rw [forall_mem_append, forall_mem_cons] at hsizes ⊢
      exact hsizes

theorem Sound.pointers_nodup (h : Sound k bs live) : (live.map Allocation.pointer).Nodup := by
  refine h.owned.nodup_iff.mpr (pairwise_map.mpr (payloads_sorted.imp fun {x y} hxy heq ↦ ?_))
  have hpos : 0 < blockHeaderSize := by decide
  omega

theorem Sound.kfree (h : Sound k bs live) (hx : x ∈ live) :
    ∃ bs', Sound (k.kfree x.pointer) bs' (live.erase x) ∧ (k.kfree x.pointer).toHeap = k.toHeap := by
  have hpos : 0 < blockHeaderSize := by decide
  obtain ⟨s, hs, hle⟩ := h.enough x hx
  obtain ⟨pre, post, rfl, hpointer⟩ := mem_payloads.mp hs
  have hblock : x.pointer - blockHeaderSize = k.place pre := by omega
  have hsize : (k.headers (k.place pre)).size = s := by rw [h.represents.middle.1]
  have htaken : ¬ (k.headers (k.place pre)).free = true := by simp [h.represents.middle.1]
  obtain ⟨k₁, hk₁⟩ : ∃ k₁, k₁ = { k.write (k.place pre) fun x ↦ { x with free := true } with
      used := k.used - s } := ⟨_, rfl⟩
  have hkfree : k.kfree x.pointer = k₁.merge (k.place pre) := by
    unfold KernelHeap.kfree
    rw [if_neg (by omega), hblock, hk₁]
    simp only [if_neg htaken, hsize]
  have hbase : k₁.base = k.base := by rw [hk₁]; rfl
  have hused : k₁.used = k.used - s := by rw [hk₁]
  have hplace : k₁.place pre = k.place pre := by rw [place, hbase, place]
  have hfree : Represents k₁ (pre ++ ⟨s, true⟩ :: post) := by
    obtain ⟨hb, hlaid, hhead, htail, hcommitted⟩ := h.represents.setFree true
    rw [hk₁]
    exact ⟨hb, hlaid, hhead, htail, hcommitted⟩
  obtain ⟨bs', hrep, hcoalesced, hjoined⟩ := hfree.merge rfl h.coalesced.left h.coalesced.right
  rw [hplace] at hrep
  have hpayloads : (k₁.merge (k.place pre)).payloads bs' = k.payloads pre ++
      ((inUse blockHeaderSize (k.place pre + (blockHeaderSize + s)) post).map fun x ↦ (x.1 + blockHeaderSize, x.2)) := by
    rw [← payloads_middle_free k pre post (b := ⟨s, true⟩) rfl, payloads, merge_kept.1, hbase, ← hbase, hjoined.inUse,
      hbase, payloads]
  have hold := payloads_middle k pre post (b := ⟨s, false⟩) rfl
  have hperm := perm_cons_erase hx
  have hnodup := (hperm.map Allocation.pointer).nodup_iff.mp h.pointers_nodup
  refine ⟨bs', ?_, ?_⟩
  · rw [hkfree]
    refine ⟨hrep, ?_, hjoined.sizes ?_, hcoalesced, ?_, ?_, fun y hy ↦ ?_⟩
    · rw [merge_kept.1, hbase]
      exact h.aligned
    · have hsizes := h.sizes
      rw [forall_mem_append, forall_mem_cons] at hsizes ⊢
      exact hsizes
    · rw [merge_kept.2, hused, hpayloads, h.used, hold]
      simp only [map_append, map_cons, sum_append, sum_cons]
      omega
    · have howned := ((hperm.map Allocation.pointer).symm.trans h.owned)
      rw [hold, map_cons, map_append, map_cons, hpointer] at howned
      rw [hpayloads, map_append]
      exact (howned.trans perm_middle).cons_inv
    · obtain ⟨t, ht, hyle⟩ := h.enough y (mem_of_mem_erase hy)
      refine ⟨t, ?_, hyle⟩
      rw [hold] at ht
      rw [hpayloads]
      rcases mem_append.mp ht with ht | ht
      · exact mem_append_left _ ht
      · rcases mem_cons.mp ht with heq | ht
        · have hsame := (congrArg Prod.fst heq).trans hpointer.symm
          have hnot := (nodup_cons.mp hnodup).1
          rw [← hsame] at hnot
          exact absurd (mem_map_of_mem hy) hnot
        · exact mem_append_right _ ht
  · rw [hkfree, merge_kept.1, hk₁]
    rfl

theorem growth_spec (wanted : ℕ) : wanted + blockHeaderSize ≤ growth wanted ∧ alignment ∣ growth wanted := by
  constructor
  · unfold growth heapGrowthStep
    omega
  · exact Dvd.dvd.mul_right (by decide) _

theorem grow_cases (wanted : ℕ) (heap : Heap) (m : Memory) :
    (∃ m', Machine.grow wanted heap m = (heap, m', false)) ∨
    ∃ m', Machine.grow wanted heap m = (⟨heap.base, heap.committed + growth wanted⟩, m', true) := by
  unfold Machine.grow
  split
  · exact .inl ⟨m, rfl⟩
  · split
    · exact .inl ⟨_, rfl⟩
    · exact .inr ⟨_, rfl⟩

theorem Sound.append {step : ℕ} (h : Sound k bs live) (hstep : blockHeaderSize ≤ step) (hdvd : alignment ∣ step)
    (hk' : k' = { k.append (k.base + k.committed) step with toHeap := ⟨k.base, k.committed + step⟩ }) :
    ∃ bs', Sound (k'.merge (k.base + k.committed)) bs' live ∧
      ∃ b ∈ bs', b.free = true ∧ step - blockHeaderSize ≤ b.size := by
  have happend := h.represents.append hstep
  rw [← hk'] at happend
  have hbase : k'.base = k.base := by rw [hk']
  have hused : k'.used = k.used := by
    rw [hk', KernelHeap.append]
    simp only
    split <;> rfl
  have hplace : k'.place bs = k.base + k.committed := by rw [place, hbase, h.represents.committed]
  obtain ⟨bs', hrep, hcoalesced, hjoined⟩ := happend.merge rfl h.coalesced .nil
  rw [hplace] at hrep
  have hpayloads : (k'.merge (k.base + k.committed)).payloads bs' = k.payloads bs := by
    rw [payloads, merge_kept.1, hjoined.inUse, hbase, inUse_append, inUse_free rfl, inUse, List.append_nil, payloads]
  refine ⟨bs', ⟨hrep, ?_, hjoined.sizes ?_, hcoalesced, ?_, ?_, ?_⟩, hjoined.large⟩
  · rw [merge_kept.1, hbase]
    exact h.aligned
  · refine forall_mem_append.mpr ⟨h.sizes, forall_mem_singleton.mpr (Nat.dvd_sub hdvd (by decide))⟩
  · rw [merge_kept.2, hused, hpayloads]
    exact h.used
  · rw [hpayloads]
    exact h.owned
  · rw [hpayloads]
    exact h.enough

theorem Sound.grow (h : Sound k bs live) (wanted : ℕ) (m : Memory) :
    (∃ m', k.grow wanted m = (k, m', false)) ∨
    ∃ k' m' bs', k.grow wanted m = (k', m', true) ∧ Sound k' bs' live ∧ (∃ b ∈ bs', b.free = true ∧ wanted ≤ b.size) := by
  obtain ⟨hgrowth, hdvd⟩ := growth_spec wanted
  rcases grow_cases wanted k.toHeap m with ⟨m', hm⟩ | ⟨m', hm⟩
  · exact .inl ⟨m', by rw [KernelHeap.grow, hm, grown]⟩
  · rw [KernelHeap.grow, hm, grown]
    generalize growth wanted = step at hgrowth hdvd
    obtain ⟨bs', hsound, b, hb, hfree, hle⟩ := h.append (Nat.le_trans (Nat.le_add_left _ _) hgrowth) hdvd rfl
    exact .inr ⟨_, m', bs', rfl, hsound, b, hb, hfree, by omega⟩

theorem le_alignUp (size : ℕ) : size ≤ alignUp size ∧ alignment ∣ alignUp size := by
  constructor
  · unfold alignUp alignment
    omega
  · exact Nat.dvd_mul_left _ _

theorem Sound.kmalloc (h : Sound k bs live) (size : ℕ) (m : Memory) :
    (∃ bs', Sound (k.kmalloc size m).1 bs' (⟨(k.kmalloc size m).2.2, size⟩ :: live) ∧ (k.kmalloc size m).2.2 ≠ 0) ∨
    (k.kmalloc size m).2.2 = 0 ∧ (k.kmalloc size m).1 = k ∧ (size = 0 ∨ heapReserved < size ∨
        (∀ b ∈ bs, b.free = true → b.size < alignUp size) ∧ (k.grow (alignUp size) m).2.2 = false) := by
  obtain ⟨hle, hdvd⟩ := le_alignUp size
  unfold KernelHeap.kmalloc
  by_cases hargs : size = 0 ∨ heapReserved < size
  · rw [if_pos hargs]
    exact .inr ⟨rfl, rfl, hargs.imp_right .inl⟩
  · rw [if_neg hargs]
    rcases h.attempt hdvd hle with ⟨hnone, hall⟩ | ⟨k', bs', pointer, hsome, hne, -, hsound⟩
    · rw [hnone]
      rcases h.grow (alignUp size) m with ⟨m', hgrow⟩ | ⟨k', m', bs', hgrow, hsound, b, hb, hfree, hfits⟩
      · rw [hgrow]
        exact .inr ⟨rfl, rfl, .inr (.inr ⟨hall, rfl⟩)⟩
      · rw [hgrow]
        rcases hsound.attempt hdvd hle with ⟨-, hnone'⟩ | ⟨k'', bs'', pointer, hsome, hne, -, hsound'⟩
        · exact absurd (hnone' b hb hfree) (Nat.not_lt.mpr hfits)
        · simp only [hsome]
          exact .inl ⟨bs'', hsound', hne⟩
    · rw [hsome]
      exact .inl ⟨bs', hsound, hne⟩

theorem sound_heapInit {reservations : List Vmalloc.Reservation} (hv : Vmalloc.Runs m.vmalloc reservations)
    (h : heapInit m = some (k, m')) : ∃ bs, Sound k bs [] ∧ bs ≠ [] := by
  unfold heapInit at h
  simp only at h
  split at h
  · cases h
  · rename_i hok
    obtain ⟨hne, hgrown⟩ := not_or.mp hok
    have hk := congrArg Prod.fst (Option.some.inj h)
    simp only at hk
    rw [← hk]
    obtain ⟨v', w, hres⟩ : ∃ v' w, m.vmalloc.reserve heapReserved = (v', w) := ⟨_, _, rfl⟩
    simp only [hres] at hne hgrown ⊢
    obtain ⟨-, -, -, hpage, -⟩ := Vmalloc.reserve_taken hv.accounted.wf hres hne
    have hstart : Sound (empty w) [] [] := by
      refine ⟨⟨Nat.pos_of_ne_zero hne, trivial, rfl, rfl, rfl⟩, ?_, nofun, .nil, rfl, .refl _, nofun⟩
      exact Nat.dvd_trans (by decide) (Nat.dvd_of_mod_eq_zero hpage)
    rcases hstart.grow pageSize { m with vmalloc := v' } with ⟨m', hgrow⟩ | ⟨k', m', bs, hgrow, hsound, b, hb, -⟩
    · rw [hgrow] at hgrown
      exact absurd rfl hgrown
    · rw [hgrow]
      exact ⟨bs, hsound, ne_nil_of_mem hb⟩

end Calls

/-- The heaps that the calls lead to after `heap_init`, with the allocations that are live. Other users of memory run
between the calls, so that a growth finds any memory. -/
inductive Runs : KernelHeap → List Allocation → Prop
  | init {m m' : Memory} {k : KernelHeap} {reservations : List Vmalloc.Reservation} :
      Vmalloc.Runs m.vmalloc reservations → heapInit m = some (k, m') → Runs k []
  | refused {k : KernelHeap} {live : List Allocation} {size : ℕ} {m : Memory} : Runs k live →
      (k.kmalloc size m).2.2 = 0 → Runs (k.kmalloc size m).1 live
  | kmalloc {k : KernelHeap} {live : List Allocation} {size : ℕ} {m : Memory} : Runs k live →
      (k.kmalloc size m).2.2 ≠ 0 → Runs (k.kmalloc size m).1 (⟨(k.kmalloc size m).2.2, size⟩ :: live)
  | kfree {k : KernelHeap} {live : List Allocation} {x : Allocation} : Runs k live → x ∈ live →
      Runs (k.kfree x.pointer) (live.erase x)

theorem Sound.ne_nil {live : List Allocation} (h : Sound k bs live) : 0 < k.committed ↔ bs ≠ [] := by
  have hpos : 0 < blockHeaderSize := by decide
  rw [h.represents.committed]
  cases bs with
  | nil => exact ⟨fun h0 ↦ absurd h0 (Nat.lt_irrefl 0), fun hne ↦ absurd rfl hne⟩
  | cons b bs =>
    rw [span_cons]
    exact ⟨fun _ ↦ cons_ne_nil b bs, fun _ ↦ by omega⟩

theorem Runs.sound {live : List Allocation} (h : Runs k live) : ∃ bs, Sound k bs live ∧ bs ≠ [] := by
  induction h with
  | init hv hinit => exact sound_heapInit hv hinit
  | @refused k live size m _ hnone ih =>
    obtain ⟨bs, hsound, hbs⟩ := ih
    rcases hsound.kmalloc size m with ⟨-, -, hne⟩ | ⟨-, hsame, -⟩
    · exact absurd hnone hne
    · rw [hsame]
      exact ⟨bs, hsound, hbs⟩
  | @kmalloc k live size m _ hsome ih =>
    obtain ⟨bs, hsound, -⟩ := ih
    rcases hsound.kmalloc size m with ⟨bs', hsound', -⟩ | ⟨hnone, -⟩
    · obtain ⟨s, hs, -⟩ := hsound'.enough _ mem_cons_self
      obtain ⟨pre, post, hbs', -⟩ := mem_payloads.mp hs
      exact ⟨bs', hsound', by simp [hbs']⟩
    · exact absurd hnone hsome
  | kfree _ hx ih =>
    obtain ⟨bs, hsound, hbs⟩ := ih
    obtain ⟨bs', hsound', hheap⟩ := hsound.kfree hx
    refine ⟨bs', hsound', hsound'.ne_nil.mp ?_⟩
    rw [hheap]
    exact hsound.ne_nil.mpr hbs

theorem Sound.single (h : Sound k bs []) (hbs : bs ≠ []) : ∃ s, bs = [⟨s, true⟩] := by
  have hfree : ∀ b ∈ bs, b.free = true := by
    intro b hb
    obtain ⟨pre, post, rfl⟩ := append_of_mem hb
    cases hb' : b.free with
    | true => rfl
    | false =>
      have howned := h.owned.length_eq
      rw [payloads_middle k pre post hb'] at howned
      simp at howned
  cases bs with
  | nil => exact absurd rfl hbs
  | cons b bs =>
    cases bs with
    | nil =>
      have hb := hfree b mem_cons_self
      exact ⟨b.size, by rw [← hb]⟩
    | cons c bs =>
      have hchain := (isChain_cons_cons.mp h.coalesced).1
      exact absurd ⟨hfree b mem_cons_self, hfree c (mem_cons_of_mem b mem_cons_self)⟩ hchain

def Allocation.Apart (x y : Allocation) : Prop := x.pointer + x.size ≤ y.pointer ∨ y.pointer + y.size ≤ x.pointer

theorem Sound.placed {live : List Allocation} {x : Allocation} (h : Sound k bs live) (hx : x ∈ live) :
    alignment ∣ x.pointer ∧ k.base ≤ x.pointer ∧ x.pointer + x.size ≤ k.base + k.committed := by
  obtain ⟨s, hs, hle⟩ := h.enough x hx
  obtain ⟨pre, post, rfl, hpointer⟩ := mem_payloads.mp hs
  have hcommitted := h.represents.committed
  rw [span_append, span_cons] at hcommitted
  have hsizes : ∀ bs : List Block, (∀ b ∈ bs, alignment ∣ b.size) → alignment ∣ span blockHeaderSize bs := by
    intro bs hbs
    induction bs with
    | nil => exact Nat.dvd_zero _
    | cons b bs ih =>
      obtain ⟨hb, hbs⟩ := forall_mem_cons.mp hbs
      rw [span_cons]
      exact Nat.dvd_add (Nat.dvd_add (by decide) hb) (ih hbs)
  have hpre := hsizes pre (forall_mem_append.mp h.sizes).1
  unfold place at hpointer
  refine ⟨?_, ?_, ?_⟩
  · rw [hpointer]
    exact Nat.dvd_add (Nat.dvd_add h.aligned hpre) (by decide)
  · omega
  · simp only at hcommitted
    omega

theorem Sound.apart {live : List Allocation} (h : Sound k bs live) : live.Pairwise Allocation.Apart := by
  refine (pairwise_map.mp h.pointers_nodup).imp_of_mem fun {x y} hx hy hne ↦ ?_
  obtain ⟨s, hs, hsle⟩ := h.enough x hx
  obtain ⟨t, ht, htle⟩ := h.enough y hy
  have hapart : (k.payloads bs).Pairwise fun u v ↦ u.1 + u.2 ≤ v.1 ∨ v.1 + v.2 ≤ u.1 :=
    payloads_sorted.imp fun {u v} huv ↦ .inl (Nat.le_of_add_right_le huv)
  have hsymm : Std.Symm fun u v : ℕ × ℕ ↦ u.1 + u.2 ≤ v.1 ∨ v.1 + v.2 ≤ u.1 := ⟨fun _ _ ↦ Or.symm⟩
  rcases hapart.forall hs ht fun heq ↦ hne (congrArg Prod.fst heq) with hle | hle
  · exact .inl (Nat.le_trans (Nat.add_le_add_left hsle _) hle)
  · exact .inr (Nat.le_trans (Nat.add_le_add_left htle _) hle)

theorem supplied_mapImage {n left : ℕ} (h : Memory.Supplied (n + 7 * left) m) (address : ℕ) :
    ∃ m', Loader.mapImage left address m = (m', true) ∧ Memory.Supplied n m' := by
  induction left generalizing m address with
  | zero => exact ⟨m, rfl, h⟩
  | succ left ih =>
    obtain ⟨hne, hrest⟩ := Memory.Supplied.allocPage h
    obtain ⟨m₂, hmap, h₂⟩ := Memory.Supplied.mapPages 1 hrest { write := true, noExecute := true }
      address m.allocPage.2
    rw [Loader.mapImage, if_neg hne]
    rw [show m.allocPage.1.map address m.allocPage.2 pageSize { write := true, noExecute := true } = (m₂, true) from hmap]
    exact ih h₂ _

theorem grow_of_supplied {n : ℕ} (heap : Heap) (h : Memory.Supplied (n + 7 * (growth wanted / pageSize)) m)
    (hroom : heap.committed + growth wanted ≤ heapReserved) :
    ∃ m', Machine.grow wanted heap m = (⟨heap.base, heap.committed + growth wanted⟩, m', true) ∧
      Memory.Supplied n m' := by
  obtain ⟨m', hmap, hsupply⟩ := supplied_mapImage h (heap.base + heap.committed)
  refine ⟨m', ?_, hsupply⟩
  unfold Machine.grow
  rw [if_neg (Nat.not_lt.mpr hroom), hmap]

theorem heapInit_of_supplied {n : ℕ} (h : Memory.Supplied (n + 3584) m)
    (hroom : (m.vmalloc.reserve heapReserved).2 ≠ 0) :
    ∃ k m', heapInit m = some (k, m') ∧ Memory.Supplied n m' := by
  have hpages : 7 * (growth pageSize / pageSize) = 3584 := by decide
  have hsupply : Memory.Supplied (n + 7 * (growth pageSize / pageSize))
      { m with vmalloc := (m.vmalloc.reserve heapReserved).1 } := by
    rw [hpages]
    exact h.congr rfl
  have hfits : 0 + growth pageSize ≤ heapReserved := by decide
  obtain ⟨m', hgrow, hleft⟩ := grow_of_supplied (empty (m.vmalloc.reserve heapReserved).2).toHeap hsupply hfits
  have hout : ((empty (m.vmalloc.reserve heapReserved).2).grow pageSize
      { m with vmalloc := (m.vmalloc.reserve heapReserved).1 }).2 = (m', true) := by
    rw [KernelHeap.grow, hgrow, grown]
  unfold heapInit
  simp only [hout]
  exact ⟨_, m', if_neg (by simp [hroom]), hleft⟩

end Eris.Machine.KernelHeap
