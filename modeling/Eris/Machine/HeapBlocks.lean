import Eris.Machine.KernelHeap

namespace Eris.Machine.KernelHeap

open Library.Blocks Mm Mm.Memory Function
open List hiding span

variable {k : KernelHeap} {bs cs pre post : List Block} {b c : Block} {a s block right prev : ℕ} {f : Header → Header}

section Writes

@[simp]
theorem write_toHeap : (k.write block f).toHeap = k.toHeap := rfl

@[simp]
theorem write_tail : (k.write block f).tail = k.tail := rfl

@[simp]
theorem write_used : (k.write block f).used = k.used := rfl

theorem write_headers_self : (k.write block f).headers block = f (k.headers block) := update_self ..

theorem write_headers_of_ne (h : a ≠ block) : (k.write block f).headers a = k.headers a := update_of_ne h ..

@[simp]
theorem relink_kept : (k.relink right block).toHeap = k.toHeap ∧ (k.relink right block).head = k.head ∧
    (k.relink right block).used = k.used := by
  unfold relink
  split <;> exact ⟨rfl, rfl, rfl⟩

theorem relink_laid (block : ℕ) (ha : 0 < a) (h : Laid blockHeaderSize k.headers 0 prev a post)
    (htail : post ≠ [] → k.tail = last blockHeaderSize prev a post) :
    Laid blockHeaderSize (k.relink (link 0 a post) block).headers 0 block a post ∧
      (∀ x < a, (k.relink (link 0 a post) block).headers x = k.headers x) ∧
      (k.relink (link 0 a post) block).tail = last blockHeaderSize block a post := by
  cases post with
  | nil => exact ⟨trivial, fun x _ ↦ rfl, rfl⟩
  | cons c post =>
    have hright : k.relink (link 0 a (c :: post)) block = k.write a fun x ↦ { x with prev := block } :=
      if_pos (Nat.ne_of_gt ha)
    rw [hright]
    refine ⟨h.setPrev (by decide) (cons_ne_nil c post) write_headers_self fun x hlo _ ↦ ?_, fun x hx ↦ ?_, ?_⟩
    · exact write_headers_of_ne (Nat.ne_of_gt hlo)
    · exact write_headers_of_ne (Nat.ne_of_lt hx)
    · exact htail (cons_ne_nil c post)

end Writes

/-- The blocks tile the committed part of the heap, and each header names its neighbours. -/
structure Represents (k : KernelHeap) (bs : List Block) : Prop where
  base : 0 < k.base
  laid : Laid blockHeaderSize k.headers 0 0 k.base bs
  head : k.head = link 0 k.base bs
  tail : k.tail = last blockHeaderSize 0 k.base bs
  committed : k.committed = span blockHeaderSize bs

def place (k : KernelHeap) (pre : List Block) : ℕ := k.base + span blockHeaderSize pre

theorem place_concat : k.place (pre ++ [b]) = k.place pre + (blockHeaderSize + b.size) := by
  simp [place, Nat.add_assoc]

section

variable (h : Represents k (pre ++ b :: post))

include h

theorem Represents.middle :
    k.headers (k.place pre) = ⟨b.size, b.free, link 0 (k.place pre + (blockHeaderSize + b.size)) post,
        last blockHeaderSize 0 k.base pre⟩ ∧
      Laid blockHeaderSize k.headers 0 (k.place pre) (k.place pre + (blockHeaderSize + b.size)) post :=
  (laid_middle.mp h.laid).2

theorem Represents.tail_middle :
    k.tail = last blockHeaderSize (k.place pre) (k.place pre + (blockHeaderSize + b.size)) post := by
  rw [h.tail, last_append]
  rfl

theorem Represents.replace {k' : KernelHeap} {bs' : List Block} (hheap : k'.toHeap = k.toHeap)
    (hhead : k'.head = k.head) (hbs : bs' ≠ []) (hspan : span blockHeaderSize bs' = span blockHeaderSize (b :: post))
    (hbelow : ∀ x < k.place pre, k'.headers x = k.headers x)
    (hlaid : Laid blockHeaderSize k'.headers 0 (last blockHeaderSize 0 k.base pre) (k.place pre) bs')
    (htail : k'.tail = last blockHeaderSize (last blockHeaderSize 0 k.base pre) (k.place pre) bs') :
    Represents k' (pre ++ bs') := by
  have hbase := congrArg Heap.base hheap
  have hcommitted := congrArg Heap.committed hheap
  have hlink : ∀ x y, link x y bs' = y := by
    intro x y
    cases bs' with
    | nil => exact absurd rfl hbs
    | cons c cs => rfl
  refine ⟨?_, ?_, ?_, ?_, ?_⟩
  · rw [hbase]
    exact h.base
  · rw [hbase, laid_append, hlink]
    exact ⟨(laid_middle.mp h.laid).1.congr (by decide) fun x _ hx ↦ hbelow x hx, hlaid⟩
  · rw [hhead, h.head, hbase, link_append, link_append, hlink]
    rfl
  · rw [htail, hbase, last_append]
    rfl
  · rw [hcommitted, h.committed, span_append, span_append, hspan]

theorem Represents.setFree (free : Bool) :
    Represents (k.write (k.place pre) fun x ↦ { x with free := free }) (pre ++ ⟨b.size, free⟩ :: post) := by
  have hpos : 0 < blockHeaderSize := by decide
  obtain ⟨hb, hpost⟩ := h.middle
  refine h.replace rfl rfl (cons_ne_nil _ _) rfl (fun x hx ↦ write_headers_of_ne (Nat.ne_of_lt hx)) ⟨?_, ?_⟩ ?_
  · rw [write_headers_self, hb]
  · exact hpost.congr hpos fun x hlo _ ↦ write_headers_of_ne (by omega)
  · exact h.tail_middle

end

theorem Represents.swallow (h : Represents k (pre ++ b :: c :: post)) :
    Represents (k.swallow (k.place pre) (k.place pre + (blockHeaderSize + b.size)))
      (pre ++ ⟨b.size + (blockHeaderSize + c.size), b.free⟩ :: post) := by
  have hpos : 0 < blockHeaderSize := by decide
  obtain ⟨hb, hc, hpost⟩ := h.middle
  have hend : k.place pre + (blockHeaderSize + b.size) + (blockHeaderSize + c.size) =
      k.place pre + (blockHeaderSize + (b.size + (blockHeaderSize + c.size))) := by omega
  rw [hend] at hc hpost
  obtain ⟨k₁, hk₁⟩ : ∃ k₁, k₁ = k.write (k.place pre) fun x ↦ { x with
      size := x.size + (blockHeaderSize + c.size)
      next := link 0 (k.place pre + (blockHeaderSize + (b.size + (blockHeaderSize + c.size)))) post } := ⟨_, rfl⟩
  have hswallow : k.swallow (k.place pre) (k.place pre + (blockHeaderSize + b.size)) =
      k₁.relink (link 0 (k.place pre + (blockHeaderSize + (b.size + (blockHeaderSize + c.size)))) post)
        (k.place pre) := by
    unfold KernelHeap.swallow
    rw [hc, hk₁]
  have hold : ∀ x, x ≠ k.place pre → k₁.headers x = k.headers x := fun x hx ↦ hk₁ ▸ write_headers_of_ne hx
  obtain ⟨hlaid, hbelow, hlast⟩ := relink_laid (k.place pre) (by omega)
    (hpost.congr hpos fun x hlo _ ↦ hold x (by omega)) fun _ ↦ by rw [hk₁, write_tail, h.tail_middle, last, hend]
  rw [hswallow]
  refine h.replace (relink_kept.1.trans (hk₁ ▸ rfl)) (relink_kept.2.1.trans (hk₁ ▸ rfl)) (cons_ne_nil _ _) ?_
    (fun x hx ↦ (hbelow x (by omega)).trans (hold x (Nat.ne_of_lt hx))) ⟨?_, hlaid⟩ hlast
  · simp only [span_cons]
    omega
  · rw [hbelow _ (by omega), hk₁, write_headers_self, hb]

theorem Represents.split {size : ℕ} (h : Represents k (pre ++ b :: post))
    (hroom : blockHeaderSize + alignment ≤ b.size - size) :
    Represents (k.split (k.place pre) size)
      (pre ++ ⟨size, b.free⟩ :: ⟨b.size - size - blockHeaderSize, true⟩ :: post) := by
  have hpos : 0 < blockHeaderSize := by decide
  obtain ⟨hb, hpost⟩ := h.middle
  have hend : k.place pre + (blockHeaderSize + b.size) =
      k.place pre + (blockHeaderSize + size) + (blockHeaderSize + (b.size - size - blockHeaderSize)) := by omega
  rw [hend] at hb hpost
  obtain ⟨k₁, hk₁⟩ : ∃ k₁, k₁ = k.write (k.place pre + (blockHeaderSize + size)) fun _ ↦
      ⟨b.size - size - blockHeaderSize, true, link 0 (k.place pre + (blockHeaderSize + size) +
        (blockHeaderSize + (b.size - size - blockHeaderSize))) post, k.place pre⟩ := ⟨_, rfl⟩
  have hsplit : k.split (k.place pre) size = (k₁.relink (link 0 (k.place pre + (blockHeaderSize + size) +
        (blockHeaderSize + (b.size - size - blockHeaderSize))) post) (k.place pre + (blockHeaderSize + size))).write
        (k.place pre) fun x ↦ { x with next := k.place pre + (blockHeaderSize + size), size := size } := by
    unfold KernelHeap.split
    rw [hb, hk₁]
    simp only
    rw [if_neg (by omega), Nat.add_assoc (k.place pre)]
  have hold : ∀ x, x ≠ k.place pre + (blockHeaderSize + size) → k₁.headers x = k.headers x :=
    fun x hx ↦ hk₁ ▸ write_headers_of_ne hx
  obtain ⟨hlaid, hbelow, hlast⟩ := relink_laid (k.place pre + (blockHeaderSize + size)) (by omega)
    (hpost.congr hpos fun x hlo _ ↦ hold x (by omega)) fun _ ↦ by rw [hk₁, write_tail, h.tail_middle, hend]
  rw [hsplit]
  refine h.replace (relink_kept.1.trans (hk₁ ▸ rfl)) (relink_kept.2.1.trans (hk₁ ▸ rfl)) (cons_ne_nil _ _) ?_
    (fun x hx ↦ ?_) ⟨?_, ?_, ?_⟩ hlast
  · simp only [span_cons]
    omega
  · rw [write_headers_of_ne (Nat.ne_of_lt hx), hbelow x (by omega), hold x (by omega)]
  · rw [write_headers_self, hbelow _ (by omega), hold _ (by omega), hb]
    rfl
  · simp only
    rw [write_headers_of_ne (by omega), hbelow _ (by omega), hk₁, write_headers_self]
  · refine hlaid.congr hpos fun x hlo _ ↦ write_headers_of_ne ?_
    simp only at hlo
    omega

theorem Represents.append {step : ℕ} (h : Represents k bs) (hstep : blockHeaderSize ≤ step) :
    Represents { k.append (k.base + k.committed) step with toHeap := ⟨k.base, k.committed + step⟩ }
      (bs ++ [⟨step - blockHeaderSize, true⟩]) := by
  have hpos : 0 < blockHeaderSize := by decide
  have hbase := h.base
  rw [h.committed]
  obtain ⟨headers, hheaders⟩ : ∃ headers, headers = (k.append (k.base + span blockHeaderSize bs) step).headers :=
    ⟨_, rfl⟩
  have hnew : headers (k.base + span blockHeaderSize bs) = ⟨step - blockHeaderSize, true, 0, k.tail⟩ ∧
      Laid blockHeaderSize headers (k.base + span blockHeaderSize bs) 0 k.base bs := by
    by_cases hbs : bs = []
    · subst hbs
      have htail : k.tail = 0 := h.tail
      rw [hheaders]
      refine ⟨?_, trivial⟩
      simp [KernelHeap.append, htail]
    · obtain ⟨hlo, hhi⟩ := last_lt 0 k.base hpos hbs
      rw [← h.tail] at hlo hhi
      have hheads : headers = Function.update (Function.update k.headers (k.base + span blockHeaderSize bs)
          ⟨step - blockHeaderSize, true, 0, k.tail⟩) k.tail
          { k.headers k.tail with next := k.base + span blockHeaderSize bs } := by
        rw [hheaders, KernelHeap.append]
        simp only
        rw [if_pos (by omega)]
        simp only [write]
        rw [update_of_ne (by omega)]
      rw [hheads]
      refine ⟨?_, h.laid.setNext hpos hbs ?_ fun x _ hx ↦ ?_⟩
      · rw [update_of_ne (by omega), update_self]
      · rw [← h.tail, update_self]
      · rw [← h.tail] at hx
        rw [update_of_ne (by omega), update_of_ne (by omega)]
  refine ⟨hbase, ?_, ?_, ?_, ?_⟩
  · rw [← hheaders]
    refine laid_middle.mpr ⟨hnew.2, ?_, trivial⟩
    rw [hnew.1, h.tail]
    rfl
  · have hhead : (k.append (k.base + span blockHeaderSize bs) step).head =
        if k.head = 0 then k.base + span blockHeaderSize bs else k.head := by
      unfold KernelHeap.append
      simp only
      split <;> rfl
    rw [hhead, h.head]
    cases bs with
    | nil => rfl
    | cons b bs => exact if_neg (Nat.ne_of_gt hbase)
  · rw [last_concat]
    rfl
  · rw [span_append, span_cons, span_nil]
    simp only
    omega

def joinNext (b : Block) : List Block → List Block
  | [] => [b]
  | c :: post => if c.free then ⟨b.size + (blockHeaderSize + c.size), b.free⟩ :: post else b :: c :: post

theorem Represents.mergeNext (h : Represents k (pre ++ b :: post)) :
    Represents (k.mergeNext (k.place pre)) (pre ++ joinNext b post) := by
  have hbase := h.base
  obtain ⟨hb, hpost⟩ := h.middle
  have hnext : (k.headers (k.place pre)).next = link 0 (k.place pre + (blockHeaderSize + b.size)) post := by rw [hb]
  unfold KernelHeap.mergeNext
  simp only [hnext]
  cases post with
  | nil => exact h
  | cons c post =>
    have hne : k.place pre + (blockHeaderSize + b.size) ≠ 0 := by
      unfold place
      omega
    have hfree : (k.headers (k.place pre + (blockHeaderSize + b.size))).free = c.free := by rw [hpost.1]
    rw [link, joinNext, hfree]
    by_cases hc : c.free = true
    · rw [if_pos ⟨hne, hc⟩, if_pos hc]
      exact h.swallow
    · rw [if_neg fun hboth ↦ hc hboth.2, if_neg hc]
      exact h

def joinPrev (pre : List Block) (b : Block) (post : List Block) : List Block :=
  match pre.getLast? with
  | none => b :: post
  | some c =>
    if c.free then pre.dropLast ++ ⟨c.size + (blockHeaderSize + b.size), c.free⟩ :: post else pre ++ b :: post

theorem joinPrev_concat :
    joinPrev (pre ++ [c]) b post =
      if c.free then pre ++ ⟨c.size + (blockHeaderSize + b.size), c.free⟩ :: post else pre ++ [c] ++ b :: post := by
  simp [joinPrev]

theorem Represents.mergePrev (h : Represents k (pre ++ b :: post)) :
    Represents (k.mergePrev (k.place pre)) (joinPrev pre b post) := by
  have hbase := h.base
  have hprev : (k.headers (k.place pre)).prev = last blockHeaderSize 0 k.base pre := by rw [h.middle.1]
  unfold KernelHeap.mergePrev
  simp only [hprev]
  obtain rfl | ⟨pre, c, rfl⟩ := eq_nil_or_concat' pre
  · exact h
  · rw [last_concat, joinPrev_concat]
    have h' : Represents k (pre ++ c :: b :: post) := by
      rwa [append_assoc] at h
    have hfree : (k.headers (k.base + span blockHeaderSize pre)).free = c.free := by
      have hc := h'.middle.1
      unfold place at hc
      rw [hc]
    rw [hfree]
    by_cases hc : c.free = true
    · rw [if_pos ⟨by omega, hc⟩, if_pos hc, place_concat]
      exact h'.swallow
    · rw [if_neg fun hboth ↦ hc hboth.2, if_neg hc]
      exact h

theorem swallow_kept : (k.swallow block right).toHeap = k.toHeap ∧ (k.swallow block right).used = k.used :=
  ⟨relink_kept.1, relink_kept.2.2⟩

@[simp]
theorem mergeNext_kept : (k.mergeNext block).toHeap = k.toHeap ∧ (k.mergeNext block).used = k.used := by
  unfold KernelHeap.mergeNext
  simp only
  split
  · exact swallow_kept
  · exact ⟨rfl, rfl⟩

@[simp]
theorem merge_kept : (k.merge block).toHeap = k.toHeap ∧ (k.merge block).used = k.used := by
  unfold KernelHeap.merge KernelHeap.mergePrev
  simp only
  split
  · exact ⟨swallow_kept.1.trans mergeNext_kept.1, swallow_kept.2.trans mergeNext_kept.2⟩
  · exact mergeNext_kept

def Coalesced (bs : List Block) : Prop := bs.IsChain fun b c ↦ ¬ (b.free = true ∧ c.free = true)

theorem coalesced_joinNext (h : Coalesced post) : Coalesced (joinNext b post) := by
  cases post with
  | nil => exact isChain_singleton b
  | cons c post =>
    rw [joinNext]
    split
    · rename_i hc
      refine isChain_cons.mpr ⟨fun d hd hboth ↦ ?_, (isChain_cons.mp h).2⟩
      exact (isChain_cons.mp h).1 d hd ⟨hc, hboth.2⟩
    · rename_i hc
      exact isChain_cons_cons.mpr ⟨fun hboth ↦ hc hboth.2, h⟩

theorem coalesced_joinPrev (hb : b.free = true) (hpre : Coalesced pre) (hpost : Coalesced (b :: post)) :
    Coalesced (joinPrev pre b post) := by
  obtain rfl | ⟨pre, c, rfl⟩ := eq_nil_or_concat' pre
  · exact hpost
  · rw [joinPrev_concat]
    obtain ⟨hinit, -, hlast⟩ := isChain_append.mp hpre
    obtain ⟨hhead, htail⟩ := isChain_cons.mp hpost
    split
    · rename_i hc
      refine isChain_append.mpr ⟨hinit, isChain_cons.mpr ⟨fun d hd hboth ↦ hhead d hd ⟨hb, hboth.2⟩, htail⟩,
        fun d hd e he hboth ↦ ?_⟩
      exact hlast d hd c rfl ⟨hboth.1, hc⟩
    · rename_i hc
      refine isChain_append.mpr ⟨hpre, hpost, fun d hd e he hboth ↦ ?_⟩
      rw [getLast?_concat] at hd
      cases hd
      exact hc hboth.1

/-- What joining free blocks keeps and what it leaves. -/
structure Joined (a s : ℕ) (bs bs' : List Block) : Prop where
  inUse : inUse blockHeaderSize a bs' = inUse blockHeaderSize a bs
  sizes : (∀ b ∈ bs, alignment ∣ b.size) → ∀ b ∈ bs', alignment ∣ b.size
  large : ∃ b ∈ bs', b.free = true ∧ s ≤ b.size

theorem alignment_dvd_join {m n : ℕ} (hm : alignment ∣ m) (hn : alignment ∣ n) :
    alignment ∣ m + (blockHeaderSize + n) :=
  Nat.dvd_add hm (Nat.dvd_add (by decide) hn)

theorem joined_pair (a : ℕ) (pre post : List Block) (hb : b.free = true) (hc : c.free = true)
    (hs : s ≤ b.size + (blockHeaderSize + c.size)) :
    Joined a s (pre ++ b :: c :: post) (pre ++ ⟨b.size + (blockHeaderSize + c.size), b.free⟩ :: post) := by
  refine ⟨?_, fun h ↦ ?_, _, mem_append_right pre mem_cons_self, hb, hs⟩
  · rw [inUse_append, inUse_append, inUse_join hb hc]
  · rw [forall_mem_append, forall_mem_cons, forall_mem_cons] at h
    obtain ⟨hpre, hsize, hnext, hpost⟩ := h
    exact forall_mem_append.mpr ⟨hpre, forall_mem_cons.mpr ⟨alignment_dvd_join hsize hnext, hpost⟩⟩

theorem joined_self (a : ℕ) (pre post : List Block) (hb : b.free = true) :
    Joined a b.size (pre ++ b :: post) (pre ++ b :: post) :=
  ⟨rfl, id, b, mem_append_right pre mem_cons_self, hb, Nat.le_refl _⟩

theorem joined_joinNext (a : ℕ) (pre post : List Block) (hb : b.free = true) : Joined a b.size (pre ++ b :: post) (pre ++ joinNext b post) := by
  cases post with
  | nil => exact joined_self a pre [] hb
  | cons c post =>
    rw [joinNext]
    split
    · rename_i hc
      exact joined_pair a pre post hb hc (Nat.le_add_right _ _)
    · exact joined_self a pre _ hb

theorem joined_joinPrev (a : ℕ) (pre post : List Block) (hb : b.free = true) : Joined a b.size (pre ++ b :: post) (joinPrev pre b post) := by
  obtain rfl | ⟨pre, c, rfl⟩ := eq_nil_or_concat' pre
  · exact joined_self a [] post hb
  · rw [joinPrev_concat]
    split
    · rename_i hc
      rw [append_assoc]
      exact joined_pair a pre post hc hb (by omega)
    · exact joined_self a _ post hb

theorem Represents.merge (h : Represents k (pre ++ b :: post)) (hb : b.free = true) (hpre : Coalesced pre)
    (hpost : Coalesced post) :
    ∃ bs, Represents (k.merge (k.place pre)) bs ∧ Coalesced bs ∧ Joined k.base b.size (pre ++ b :: post) bs := by
  obtain ⟨c, cs, hjoin, hc, hle⟩ : ∃ c cs, joinNext b post = c :: cs ∧ c.free = true ∧ b.size ≤ c.size := by
    cases post with
    | nil => exact ⟨b, [], rfl, hb, Nat.le_refl _⟩
    | cons c post =>
      rw [joinNext]
      split
      · exact ⟨_, _, rfl, hb, Nat.le_add_right _ _⟩
      · exact ⟨_, _, rfl, hb, Nat.le_refl _⟩
  have hnext := h.mergeNext
  have hcoalesced := coalesced_joinNext (b := b) hpost
  have hjoined := joined_joinNext k.base pre post hb
  rw [hjoin] at hnext hcoalesced hjoined
  have hplace : (k.mergeNext (k.place pre)).place pre = k.place pre := by rw [place, mergeNext_kept.1, place]
  have hprev := hnext.mergePrev
  rw [hplace] at hprev
  have hjoined' := joined_joinPrev k.base pre cs hc
  obtain ⟨d, hd, hdfree, hdle⟩ := hjoined'.large
  exact ⟨_, hprev, coalesced_joinPrev hc hpre hcoalesced, hjoined'.inUse.trans hjoined.inUse,
    fun hsizes ↦ hjoined'.sizes (hjoined.sizes hsizes), d, hd, hdfree, Nat.le_trans hle hdle⟩

end Eris.Machine.KernelHeap
