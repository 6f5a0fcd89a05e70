import Eris.Library.Bytes
import Eris.Library.Words

namespace Eris.Fs

open Library.Bytes Library.Words List Option

def isize (n : ℕ) : ℤ := signed 64 n

/-- A file with its block of memory, if it has one. -/
structure RamFile where
  data : Option (List UInt8) := none
  size : ℕ := 0
  capacity : ℕ := 0

namespace RamFile

section

variable (f : RamFile)

def block : List UInt8 := f.data.getD []

def read (offset length : ℕ) : Option (ℤ × List UInt8) :=
  if f.size ≤ offset then some (0, [])
  else do
    let available := f.size - offset
    let chunk := if length < available then length else available
    let bytes ← slice f.block offset chunk
    return (isize chunk, bytes)

/-- The loop of `grow`. A word that has been doubled as often as it has bits is zero and stays so. -/
def doubled (wanted : ℕ) : ℕ → ℕ → Option ℕ
  | 0, _ => none
  | fuel + 1, target => if target < wanted then doubled wanted fuel (target * 2 % 2 ^ 64) else some target

/-- Whether `kzalloc` succeeds is up to the heap. -/
def grow (kzalloc : Bool) (wanted : ℕ) : Option (RamFile × Bool) := do
  let target ← doubled wanted 65 (if f.capacity = 0 then 512 else f.capacity)
  if kzalloc then
    let fresh := List.replicate target 0
    match f.data with
    | none => return ({ f with data := some fresh, capacity := target }, true)
    | some data =>
      let old ← slice data 0 f.size
      let fresh ← overwrite fresh 0 old
      return ({ f with data := some fresh, capacity := target }, true)
  else return (f, false)

/-- The end of `write`, when there is room. -/
def store (offset : ℕ) (bytes : List UInt8) : Option (RamFile × ℤ) := do
  let block ← overwrite f.block offset bytes
  let last := (offset + bytes.length) % 2 ^ 64
  return ({ f with data := f.data.map fun _ ↦ block, size := if f.size < last then last else f.size },
    isize bytes.length)

def write (kzalloc : Bool) (offset : ℕ) (bytes : List UInt8) : Option (RamFile × ℤ) :=
  let last := (offset + bytes.length) % 2 ^ 64
  if f.capacity < last then do
    let (f, ok) ← f.grow kzalloc last
    if ok then f.store offset bytes else return (f, -1)
  else f.store offset bytes

end

/-- A call of `write`, with the answer of the heap in case it is asked. -/
structure Write where
  offset : ℕ
  bytes : List UInt8
  kzalloc : Bool

def writes : List Write → RamFile → Option (RamFile × List ℤ)
  | [], f => some (f, [])
  | w :: ws, f => do
    let (f, result) ← f.write w.kzalloc w.offset w.bytes
    let (f, results) ← writes ws f
    return (f, result :: results)

/-- An array of bytes after some of them have been set. It ends where it did, or with the last byte that was set; what
has come between is zero. -/
def written (content : List UInt8) (offset : ℕ) (bytes : List UInt8) : List UInt8 :=
  (List.range (max content.length (offset + bytes.length))).map fun i ↦
    if offset ≤ i ∧ i < offset + bytes.length then bytes.getD (i - offset) 0 else content.getD i 0

def outcome (content : List UInt8) (w : Write × ℤ) : List UInt8 :=
  if w.2 = -1 then content else written content w.1.offset w.1.bytes

theorem length_written (content : List UInt8) (offset : ℕ) (bytes : List UInt8) :
    (written content offset bytes).length = max content.length (offset + bytes.length) := by
  rw [written, length_map, length_range]

theorem getD_written (content : List UInt8) (offset : ℕ) (bytes : List UInt8) (i : ℕ) :
    (written content offset bytes).getD i 0 =
      if offset ≤ i ∧ i < offset + bytes.length then bytes.getD (i - offset) 0 else content.getD i 0 := by
  by_cases hi : i < max content.length (offset + bytes.length)
  · simp [written, getElem?_range hi]
  · have hout : ¬ (offset ≤ i ∧ i < offset + bytes.length) := by omega
    rw [if_neg hout, getD_eq_default _ _ (by rw [length_written]; omega), getD_eq_default _ _ (by omega)]

/-- The block holds the bytes of an array, and zeros after them. -/
structure Represents (f : RamFile) (content : List UInt8) : Prop where
  size : f.size = content.length
  room : content.length ≤ f.capacity
  length : f.block.length = f.capacity
  bytes : ∀ i, f.block.getD i 0 = content.getD i 0
  null : f.data = none → f.capacity = 0
  power : f.capacity = 0 ∨ ∃ k ≤ 54, f.capacity = 512 * 2 ^ k

variable {f f' : RamFile} {content : List UInt8}

theorem represents_fresh : Represents {} [] :=
  ⟨rfl, le_rfl, rfl, fun _ ↦ rfl, fun _ ↦ rfl, .inl rfl⟩

theorem doubled_spec {wanted : ℕ} (hwanted : wanted ≤ 2 ^ 63) (fuel k : ℕ) (hk : k ≤ 54) (hfuel : 55 ≤ fuel + k) :
    ∃ m ≤ 54, doubled wanted fuel (512 * 2 ^ k) = some (512 * 2 ^ m) ∧ wanted ≤ 512 * 2 ^ m := by
  induction fuel generalizing k with
  | zero => omega
  | succ fuel ih =>
    rw [doubled]
    split
    · rename_i hlt
      have hlast : k ≠ 54 := by
        rintro rfl
        omega
      have hnext : 512 * 2 ^ k * 2 % 2 ^ 64 = 512 * 2 ^ (k + 1) := by
        rw [Nat.mul_assoc, ← Nat.pow_succ]
        exact Nat.mod_eq_of_lt (by omega)
      rw [hnext]
      exact ih (k + 1) (by omega) (by omega)
    · rename_i hge
      exact ⟨k, hk, rfl, by omega⟩

theorem Represents.grow (h : Represents f content) {wanted : ℕ} (hwanted : wanted ≤ 2 ^ 63) (hmore : f.capacity < wanted)
    (kzalloc : Bool) : ∃ f', f.grow kzalloc wanted = some (f', kzalloc) ∧ Represents f' content ∧
      (kzalloc = true → wanted ≤ f'.capacity) ∧ (kzalloc = false → f' = f) := by
  obtain ⟨k, hk, hcapacity⟩ : ∃ k ≤ 54, (if f.capacity = 0 then 512 else f.capacity) = 512 * 2 ^ k := by
    rcases h.power with hzero | ⟨k, hk, hpow⟩
    · exact ⟨0, by omega, by rw [if_pos hzero]; rfl⟩
    · refine ⟨k, hk, ?_⟩
      rw [if_neg, hpow]
      rw [hpow]
      positivity
  obtain ⟨m, hm, hdoubled, hle⟩ := doubled_spec hwanted 65 k hk (by omega)
  unfold RamFile.grow
  rw [hcapacity, hdoubled]
  cases kzalloc with
  | false => exact ⟨f, rfl, h, nofun, fun _ ↦ rfl⟩
  | true =>
    cases hdata : f.data with
    | none =>
      have hzero := h.null hdata
      have hnil : content = [] := eq_nil_of_length_eq_zero (by have := h.room; omega)
      refine ⟨_, rfl, ⟨h.size, ?_, ?_, ?_, nofun, .inr ⟨m, hm, rfl⟩⟩, fun _ ↦ hle, nofun⟩
      · simp [hnil]
      · simp [block]
      · intro i
        simp [block, hnil]
    | some data =>
      have hblock : f.block = data := by rw [block, hdata, getD_some]
      have hlength := h.length
      have hbytes := h.bytes
      have hroom := h.room
      rw [hblock] at hlength hbytes
      have hold : slice data 0 f.size = some (data.take f.size) := by
        rw [slice, if_pos (by rw [h.size]; omega), drop_zero]
      obtain ⟨fresh, hfresh⟩ : ∃ fresh, overwrite (List.replicate (512 * 2 ^ m) 0) 0 (data.take f.size) = some fresh :=
        ⟨_, if_pos (by rw [length_take, length_replicate, h.size]; omega)⟩
      have hlen := length_overwrite hfresh
      rw [length_replicate] at hlen
      refine ⟨{ f with data := some fresh, capacity := 512 * 2 ^ m }, ?_, ⟨h.size, ?_, hlen, fun i ↦ ?_, nofun, .inr ⟨m, hm, rfl⟩⟩,
        fun _ ↦ hle, nofun⟩
      · simp [hold, hfresh]
      · exact hroom.trans (hmore.le.trans hle)
      · rw [block, getD_some, getD_overwrite hfresh, getD_replicate_zero, length_take, h.size, ← hbytes]
        have hmin : min content.length data.length = content.length := by omega
        rw [hmin]
        split
        · rename_i hi
          rw [getD_eq_getElem?_getD, Nat.sub_zero, getElem?_take, if_pos (by omega),
            getD_eq_getElem?_getD]
        · rename_i hi
          rw [hbytes, getD_eq_default _ _ (by omega)]

theorem Represents.store (h : Represents f content) {offset : ℕ} {bytes : List UInt8}
    (hroom : offset + bytes.length ≤ f.capacity) (hsmall : offset + bytes.length ≤ 2 ^ 63) :
    ∃ f', f.store offset bytes = some (f', isize bytes.length) ∧ Represents f' (written content offset bytes) := by
  obtain ⟨block', hcopy⟩ : ∃ block', overwrite f.block offset bytes = some block' := ⟨_, if_pos (by rw [h.length]; exact hroom)⟩
  have hlast : (offset + bytes.length) % 2 ^ 64 = offset + bytes.length := Nat.mod_eq_of_lt (by omega)
  have hlen := length_overwrite hcopy
  have hblock : (f.data.map fun _ ↦ block').getD [] = block' := by
    cases hdata : f.data with
    | none =>
      have hzero := h.null hdata
      rw [h.length, hzero] at hlen
      rw [eq_nil_of_length_eq_zero hlen]
      rfl
    | some data => rfl
  refine ⟨{ f with
    data := f.data.map fun _ ↦ block'
    size := if f.size < offset + bytes.length then offset + bytes.length else f.size }, ?_,
    ⟨?_, ?_, ?_, fun i ↦ ?_, fun hnull ↦ ?_, h.power⟩⟩
  · simp only [RamFile.store, hcopy, hlast]
    rfl
  · rw [length_written]
    dsimp only
    rw [h.size]
    split <;> omega
  · rw [length_written]
    exact max_le h.room hroom
  · exact (congrArg List.length hblock).trans (hlen.trans h.length)
  · rw [getD_written, ← h.bytes, ← getD_overwrite hcopy]
    exact congrArg (fun b ↦ b.getD i 0) hblock
  · exact h.null (map_eq_none_iff.mp hnull)

theorem isize_ne {n : ℕ} (hn : n ≤ 2 ^ 63) : isize n ≠ -1 := by
  rw [isize, signed]
  split <;> omega

theorem Represents.write (h : Represents f content) {w : Write} (hsmall : w.offset + w.bytes.length ≤ 2 ^ 63) :
    ∃ f' result, f.write w.kzalloc w.offset w.bytes = some (f', result) ∧
      (result = -1 ∧ f' = f ∨ result = isize w.bytes.length) ∧ Represents f' (outcome content (w, result)) := by
  have hlast : (w.offset + w.bytes.length) % 2 ^ 64 = w.offset + w.bytes.length := Nat.mod_eq_of_lt (by omega)
  have hne : isize w.bytes.length ≠ -1 := isize_ne (by omega)
  unfold RamFile.write
  dsimp only
  rw [hlast]
  split
  · rename_i hmore
    obtain ⟨f₁, hgrow, hf₁, hroom, hsame⟩ := h.grow hsmall hmore w.kzalloc
    rw [hgrow]
    cases hk : w.kzalloc with
    | false => exact ⟨f₁, -1, rfl, .inl ⟨rfl, hsame hk⟩, hf₁⟩
    | true =>
      obtain ⟨f', hstore, hf'⟩ := hf₁.store (hroom hk) hsmall
      refine ⟨f', _, hstore, .inr rfl, ?_⟩
      rw [outcome, if_neg hne]
      exact hf'
  · rename_i hroom
    obtain ⟨f', hstore, hf'⟩ := h.store (Nat.not_lt.mp hroom) hsmall
    refine ⟨f', _, hstore, .inr rfl, ?_⟩
    rw [outcome, if_neg hne]
    exact hf'

theorem Represents.read (h : Represents f content) (offset length : ℕ) :
    f.read offset length = some (isize (min length (content.length - offset)), (content.drop offset).take length) := by
  rw [RamFile.read, h.size]
  split
  · rename_i hpast
    rw [Nat.sub_eq_zero_of_le hpast, Nat.min_zero, drop_eq_nil_of_le hpast, take_nil]
    rfl
  · rename_i hinside
    have hchunk : (if length < content.length - offset then length else content.length - offset) =
        min length (content.length - offset) := by
      split <;> omega
    have hroom := h.room
    have hread : slice f.block offset (min length (content.length - offset)) =
        some ((content.drop offset).take length) := by
      rw [slice, if_pos (by rw [h.length]; omega)]
      congr 1
      apply ext_getElem?
      intro i
      have hbyte := h.bytes (offset + i)
      rw [getD_eq_getElem?_getD, getD_eq_getElem?_getD] at hbyte
      rw [getElem?_take, getElem?_take, getElem?_drop, getElem?_drop]
      by_cases hi : i < min length (content.length - offset)
      · rw [if_pos hi, if_pos (by omega)]
        rw [getElem?_eq_getElem (by rw [h.length]; omega), getElem?_eq_getElem (by omega)] at hbyte ⊢
        exact congrArg some hbyte
      · rw [if_neg hi]
        split
        · exact (getElem?_eq_none (by omega)).symm
        · rfl
    dsimp only
    rw [hchunk, hread]
    rfl

/-- Every sequence of writes comes back. A write fails or sets its bytes, and what is read is the array that those that
did not fail have made. -/
theorem writes_refine (ws : List Write) (hsmall : ∀ w ∈ ws, w.offset + w.bytes.length ≤ 2 ^ 63) :
    ∃ f results, writes ws {} = some (f, results) ∧
      List.Forall₂ (fun w result ↦ result = -1 ∨ result = isize w.bytes.length) ws results ∧
      f.size = ((ws.zip results).foldl outcome []).length ∧ ∀ offset length, f.read offset length =
        some (isize (min length (f.size - offset)), (((ws.zip results).foldl outcome []).drop offset).take length) := by
  have hrun : ∀ {f : RamFile} {content : List UInt8}, Represents f content → ∃ f' results, writes ws f = some (f', results) ∧
      List.Forall₂ (fun w result ↦ result = -1 ∨ result = isize w.bytes.length) ws results ∧
      Represents f' ((ws.zip results).foldl outcome content) := by
    induction ws with
    | nil => exact fun h ↦ ⟨_, [], rfl, .nil, h⟩
    | cons w ws ih =>
      intro f content h
      obtain ⟨f₁, result, hwrite, hresult, h₁⟩ := h.write (hsmall w mem_cons_self)
      obtain ⟨f', results, hwrites, hresults, h'⟩ := ih (fun w hw ↦ hsmall w (mem_cons_of_mem _ hw)) h₁
      refine ⟨f', result :: results, ?_, .cons (hresult.imp_left And.left) hresults, h'⟩
      rw [writes, hwrite]
      change (writes ws f₁).bind _ = _
      rw [hwrites]
      rfl
  obtain ⟨f, results, hwrites, hresults, h⟩ := hrun represents_fresh
  refine ⟨f, results, hwrites, hresults, h.size, fun offset length ↦ ?_⟩
  rw [h.size]
  exact h.read offset length

/-- A write behind the end, and one for which there is no memory. -/
theorem writes_refine_gap : ∃ f, writes [⟨2, [7], true⟩, ⟨600, [1], false⟩] {} = some (f, [1, -1]) ∧
    f.size = 3 ∧ f.read 0 9 = some (3, [0, 0, 7]) := by
  obtain ⟨f, results, hwrites, -, hsize, hread⟩ := writes_refine [⟨2, [7], true⟩, ⟨600, [1], false⟩] (by decide)
  have hresults : (writes [⟨2, [7], true⟩, ⟨600, [1], false⟩] {}).map Prod.snd = some [1, -1] := by decide +kernel
  rw [hwrites] at hresults
  cases hresults
  have hthree : f.size = 3 := hsize.trans (by decide)
  refine ⟨f, hwrites, hthree, ?_⟩
  rw [hread, hthree]
  decide

/-- A write comes back. It fails and changes nothing, or it stays inside the block and sets no byte but its own. -/
def Contained (f : RamFile) (w : Write) : Prop :=
  ∃ f' result, f.write w.kzalloc w.offset w.bytes = some (f', result) ∧
    (result = -1 ∧ f' = f ∨ w.offset + w.bytes.length ≤ f'.block.length ∧
      ∀ i, i < w.offset ∨ w.offset + w.bytes.length ≤ i → f'.block.getD i 0 = f.block.getD i 0)

theorem doubled_endless {wanted : ℕ} (hwanted : 2 ^ 63 < wanted) (fuel : ℕ) {target : ℕ}
    (htarget : target = 0 ∨ ∃ k ≤ 54, target = 512 * 2 ^ k) : doubled wanted fuel target = none := by
  induction fuel generalizing target with
  | zero => rfl
  | succ fuel ih =>
    obtain rfl | ⟨k, hk, rfl⟩ := htarget
    · rw [doubled, if_pos (by omega)]
      exact ih (.inl rfl)
    · have hpow : 512 * 2 ^ k ≤ 2 ^ 63 := by
        calc 512 * 2 ^ k ≤ 512 * 2 ^ 54 := Nat.mul_le_mul_left _ (Nat.pow_le_pow_right (by decide) hk)
          _ = 2 ^ 63 := by norm_num
      rw [doubled, if_pos (by omega)]
      apply ih
      obtain rfl | hlt := Nat.eq_or_lt_of_le hk
      · exact .inl (by norm_num)
      · have hnext : 512 * 2 ^ (k + 1) ≤ 512 * 2 ^ 54 :=
          Nat.mul_le_mul_left _ (Nat.pow_le_pow_right (by decide) hlt)
        refine .inr ⟨k + 1, hlt, ?_⟩
        rw [Nat.mul_assoc, ← Nat.pow_succ]
        exact Nat.mod_eq_of_lt (hnext.trans_lt (by norm_num))

theorem Represents.capacity_le (h : Represents f content) : f.capacity ≤ 2 ^ 63 := by
  obtain hzero | ⟨k, hk, hpow⟩ := h.power
  · rw [hzero]
    exact Nat.zero_le _
  · calc f.capacity = 512 * 2 ^ k := hpow
      _ ≤ 512 * 2 ^ 54 := Nat.mul_le_mul_left _ (Nat.pow_le_pow_right (by decide) hk)
      _ = 2 ^ 63 := by norm_num

theorem Represents.store_far (h : Represents f content) {offset : ℕ} {bytes : List UInt8}
    (hfar : 2 ^ 63 < offset + bytes.length) : f.store offset bytes = none := by
  have hroom := h.capacity_le
  have hcopy : overwrite f.block offset bytes = none := if_neg (by rw [h.length]; omega)
  rw [RamFile.store, hcopy]
  rfl

theorem Represents.write_far (h : Represents f content) {w : Write} (hfar : 2 ^ 63 < w.offset + w.bytes.length) :
    f.write w.kzalloc w.offset w.bytes =
      if f.capacity < (w.offset + w.bytes.length) % 2 ^ 64 ∧ (w.offset + w.bytes.length) % 2 ^ 64 ≤ 2 ^ 63 ∧
        w.kzalloc = false then some (f, -1) else none := by
  rw [RamFile.write]
  generalize (w.offset + w.bytes.length) % 2 ^ 64 = last
  by_cases hmore : f.capacity < last
  · rw [if_pos hmore]
    by_cases hlast : last ≤ 2 ^ 63
    · obtain ⟨f₁, hgrow, hf₁, -, hsame⟩ := h.grow hlast hmore w.kzalloc
      rw [hgrow]
      cases hk : w.kzalloc with
      | false =>
        rw [if_pos ⟨hmore, hlast, rfl⟩, hsame hk]
        rfl
      | true =>
        rw [if_neg (by simp)]
        exact hf₁.store_far hfar
    · have hnone : f.grow w.kzalloc last = none := by
        rw [RamFile.grow, doubled_endless (Nat.not_le.mp hlast)]
        · rfl
        · split
          · exact .inr ⟨0, by decide, rfl⟩
          · exact h.power
      rw [hnone, if_neg fun hfails ↦ hlast hfails.2.1]
      rfl
  · rw [if_neg hmore, if_neg fun hfails ↦ hmore hfails.1]
    exact h.store_far hfar

theorem exists_represents {ws : List Write} {results : List ℤ} (h : Represents f content)
    (hws : writes ws f = some (f', results)) : ∃ content', Represents f' content' := by
  induction ws generalizing f content results with
  | nil =>
    cases hws
    exact ⟨content, h⟩
  | cons w ws ih =>
    obtain ⟨⟨f₁, result⟩, hwrite, hws⟩ := bind_eq_some_iff.mp hws
    obtain ⟨⟨f₂, results'⟩, hrest, hlast⟩ := bind_eq_some_iff.mp hws
    cases hlast
    by_cases hsmall : w.offset + w.bytes.length ≤ 2 ^ 63
    · obtain ⟨_, _, hwrite', -, h₁⟩ := h.write hsmall
      cases hwrite.symm.trans hwrite'
      exact ih h₁ hrest
    · rw [h.write_far (Nat.not_le.mp hsmall)] at hwrite
      obtain ⟨-, hwrite⟩ := ite_none_right_eq_some.mp hwrite
      cases hwrite
      exact ih h hrest

/-- A write comes back and stays inside the block, exactly if it ends in the lower half of the words, or if its end has
wrapped to one that a new block would be needed for and there is none. -/
theorem write_contained_iff {ws : List Write} {results : List ℤ} (hf : writes ws {} = some (f, results)) {w : Write}
    (hoffset : w.offset < 2 ^ 64) (hlength : w.bytes.length < 2 ^ 64) :
    Contained f w ↔ w.offset + w.bytes.length ≤ 2 ^ 63 ∨ (2 ^ 64 ≤ w.offset + w.bytes.length ∧
      f.capacity < w.offset + w.bytes.length - 2 ^ 64 ∧ w.offset + w.bytes.length - 2 ^ 64 ≤ 2 ^ 63 ∧
      w.kzalloc = false) := by
  obtain ⟨content, h⟩ := exists_represents represents_fresh hf
  by_cases hsmall : w.offset + w.bytes.length ≤ 2 ^ 63
  · refine iff_of_true ?_ (.inl hsmall)
    obtain ⟨f', result, hwrite, hresult, h'⟩ := h.write hsmall
    refine ⟨f', result, hwrite, hresult.imp_right fun hresult ↦ ?_⟩
    have hout : outcome content (w, result) = written content w.offset w.bytes :=
      if_neg (hresult.trans_ne (isize_ne (by omega)))
    rw [hout] at h'
    have hroom := h'.room
    rw [length_written] at hroom
    refine ⟨by rw [h'.length]; omega, fun i hi ↦ ?_⟩
    rw [h'.bytes, h.bytes, getD_written, if_neg (by omega)]
  · rw [Contained, h.write_far (Nat.not_le.mp hsmall)]
    constructor
    · rintro ⟨f', result, hwrite, -⟩
      obtain ⟨⟨hmore, hlast, hk⟩, -⟩ := ite_none_right_eq_some.mp hwrite
      by_cases hwraps : 2 ^ 64 ≤ w.offset + w.bytes.length
      · rw [Nat.mod_eq_sub_mod hwraps, Nat.mod_eq_of_lt (by omega)] at hmore hlast
        exact .inr ⟨hwraps, hmore, hlast, hk⟩
      · rw [Nat.mod_eq_of_lt (by omega)] at hlast
        exact absurd hlast hsmall
    · rintro (hsmall' | ⟨hwraps, hmore, hlast, hk⟩)
      · exact absurd hsmall' hsmall
      · rw [Nat.mod_eq_sub_mod hwraps, Nat.mod_eq_of_lt (by omega), if_pos ⟨hmore, hlast, hk⟩]
        exact ⟨f, -1, rfl, .inl ⟨rfl, rfl⟩⟩

/-- Nothing is written for want of memory. -/
theorem write_contained_full : Contained {} ⟨600, [1], false⟩ := by
  have hf : writes [] {} = some ({}, []) := rfl
  exact (write_contained_iff hf (by decide) (by decide)).mpr (.inl (by decide))

/-- A size beyond the middle of the words is never reached by doubling, and a byte is put before the block. -/
theorem write_leaves : ¬ Contained {} ⟨2 ^ 63 + 1, [], true⟩ ∧ ¬ Contained {} ⟨2 ^ 64 - 1, [7], true⟩ := by
  constructor
  · rintro ⟨f', result, hwrite, -⟩
    have hnone : (write {} true (2 ^ 63 + 1) []).isNone = true := by decide +kernel
    rw [hwrite] at hnone
    cases hnone
  · rintro ⟨f', result, hwrite, -⟩
    have hnone : (write {} true (2 ^ 64 - 1) [7]).isNone = true := by decide +kernel
    rw [hwrite] at hnone
    cases hnone

end RamFile

end Eris.Fs
