import Eris.Boot.Cmdline

namespace Eris.Boot

open Modules List

/-- The string that a pointer into the buffer of the words points to. -/
def stringAt (words : List UInt8) (p : ℕ) : CString := (words.drop p).takeWhile (· ≠ 0)

/-- `split` as it works on the buffer, with room for so many more words: the buffer it leaves and the pointers it
stores. -/
def splitIn : ℕ → List UInt8 → ℕ → List UInt8 × List ℕ
  | 0, words, _ => (words, [])
  | room + 1, words, i =>
    let first := i + ((words.drop i).takeWhile (· = blank)).length
    if words.getD first 0 = 0 then (words, [])
    else
      let last := first + ((words.drop first).takeWhile fun c ↦ c ≠ 0 ∧ c ≠ blank).length
      let (words, table) :=
        if words.getD last 0 = blank then splitIn room (words.set last 0) (last + 1) else splitIn room words last
      (words, first :: table)

/-- The buffer and the table after `cmdline_init`, with the memory that the boot loader points to. -/
def cmdlineInit (source : List UInt8) : List UInt8 × List ℕ :=
  let line := (stringAt source 0).take (cmdlineCapacity - 1)
  splitIn maxWords (line ++ replicate (cmdlineCapacity - line.length) 0) 0

/-- The maximal runs of characters that are no blanks. -/
def runs (line : CString) : List CString := (line.splitOn blank).filter (· ≠ [])

/-- The word is the key, or the key and its value. -/
def Names (key word : CString) : Prop := word = key ∨ key ++ [equalsSign] <+: word

instance (key word : CString) : Decidable (Names key word) := inferInstanceAs (Decidable (_ ∨ _))

variable {line word tail blanks front : CString} {room : ℕ}

section

variable {p : UInt8 → Bool} {run tail : CString}

theorem exists_run (p : UInt8 → Bool) (line : CString) :
    ∃ run tail, line = run ++ tail ∧ (∀ c ∈ run, p c = true) ∧ ∀ c ∈ tail.head?, p c = false := by
  refine ⟨_, _, takeWhile_append_dropWhile.symm, fun c hc ↦ mem_takeWhile_imp hc, fun c hc ↦ ?_⟩
  have hnot := head?_dropWhile_not p line
  rw [hc] at hnot
  exact hnot

theorem takeWhile_run (hrun : ∀ c ∈ run, p c = true) (htail : ∀ c ∈ tail.head?, p c = false) :
    (run ++ tail).takeWhile p = run := by
  rw [takeWhile_append_of_pos hrun]
  cases tail with
  | nil => exact append_nil run
  | cons c tail => rw [takeWhile_cons_of_neg (by simp [htail c rfl]), append_nil]

theorem dropWhile_run (hrun : ∀ c ∈ run, p c = true) (htail : ∀ c ∈ tail.head?, p c = false) :
    (run ++ tail).dropWhile p = tail := by
  rw [dropWhile_append_of_pos hrun]
  cases tail with
  | nil => rfl
  | cons c tail => exact dropWhile_cons_of_neg (by simp [htail c rfl])

end

theorem line_cases (line : CString) : (∀ c ∈ line, c = blank) ∨ ∃ blanks c word tail, line = blanks ++ (c :: word ++ tail) ∧
    (∀ c ∈ blanks, c = blank) ∧ (∀ d ∈ c :: word, d ≠ blank) ∧ ∀ d ∈ tail.head?, d = blank := by
  obtain ⟨blanks, tail, rfl, hblanks, hhead⟩ := exists_run (· = blank) line
  cases tail with
  | nil => exact .inl (by simpa using hblanks)
  | cons c tail =>
    obtain ⟨word, tail, rfl, hword, hend⟩ := exists_run (· ≠ blank) tail
    refine .inr ⟨blanks, c, word, tail, rfl, by simpa using hblanks, ?_, by simpa using hend⟩
    exact forall_mem_cons.mpr ⟨by simpa using hhead, by simpa using hword⟩

theorem runs_blanks (h : ∀ c ∈ blanks, c = blank) (line : CString) : runs (blanks ++ line) = runs line := by
  induction blanks with
  | nil => rfl
  | cons c blanks ih =>
    obtain ⟨rfl, hblanks⟩ := forall_mem_cons.mp h
    rw [← ih hblanks, runs, cons_append, splitOn, splitOnP_cons_eq_if_modifyHead, if_pos (by decide)]
    rfl

theorem runs_blank (line : CString) : runs ([blank] ++ line) = runs line := runs_blanks (by simp) line

theorem runs_word {c : UInt8} (h : ∀ d ∈ c :: word, d ≠ blank) (htail : ∀ d ∈ tail.head?, d = blank) :
    runs (c :: word ++ tail) = (c :: word) :: runs tail := by
  have hword : ∀ d ∈ c :: word, (d == blank) = false := fun d hd ↦ beq_eq_false_iff_ne.mpr (h d hd)
  cases tail with
  | nil =>
    rw [append_nil, runs, splitOn, splitOnP_eq_singleton hword]
    rfl
  | cons d rest =>
    obtain rfl := htail d rfl
    rw [runs, splitOn, splitOnP_append_cons_of_forall_mem hword _ (by decide)]
    exact congrArg _ (runs_blank rest).symm

theorem split_eq (room : ℕ) (line : CString) : split room line = (runs line).take room := by
  induction room generalizing line with
  | zero => rfl
  | succ room ih =>
    obtain hblank | ⟨blanks, c, word, tail, rfl, hblanks, hword, htail⟩ := line_cases line
    · have hruns := runs_blanks hblank []
      rw [append_nil] at hruns
      rw [split, dropWhile_eq_nil_iff.mpr (by simpa using hblank), hruns]
      rfl
    · have hstart : ∀ d ∈ (c :: word ++ tail).head?, decide (d = blank) = false := by simpa using hword c mem_cons_self
      have hinside : ∀ d ∈ c :: word, decide (d ≠ blank) = true := fun d hd ↦ decide_eq_true (hword d hd)
      have hbehind : ∀ d ∈ tail.head?, decide (d ≠ blank) = false := by simpa using htail
      rw [runs_blanks hblanks, runs_word hword htail, split, dropWhile_run (by simpa using hblanks) hstart]
      change takeWhile _ (c :: word ++ tail) :: split room (dropWhile _ (c :: word ++ tail)) = _
      rw [takeWhile_run hinside hbehind, dropWhile_run hinside hbehind, ih, take_succ_cons]

theorem getD_length (l rest : List UInt8) (c : UInt8) : (l ++ c :: rest).getD l.length 0 = c := by simp

theorem stringAt_length {rest : List UInt8} (h : ∀ c ∈ word, c ≠ 0) (front : List UInt8) :
    stringAt (front ++ (word ++ 0 :: rest)) front.length = word := by
  rw [stringAt, drop_left, takeWhile_run (fun c hc ↦ decide_eq_true (h c hc)) (by simp)]

theorem splitIn_succ {words : List UInt8} {i first last : ℕ} (out : List UInt8 × List ℕ)
    (hfirst : i + ((words.drop i).takeWhile (· = blank)).length = first) (hne : words.getD first 0 ≠ 0)
    (hlast : first + ((words.drop first).takeWhile fun c ↦ c ≠ 0 ∧ c ≠ blank).length = last)
    (hout : (if words.getD last 0 = blank then splitIn room (words.set last 0) (last + 1) else splitIn room words last) = out) :
    splitIn (room + 1) words i = (out.1, first :: out.2) := by
  subst hfirst hlast hout
  rw [splitIn]
  exact if_neg hne

/-- The loop changes the buffer only between the place where it is and the end of the line. -/
theorem splitIn_spec (room : ℕ) {rest : List UInt8} (tail : List UInt8) (hrest : ∀ c ∈ rest, c ≠ 0) (front : List UInt8) :
    ∃ rest' table, rest'.length = rest.length ∧
      splitIn room (front ++ (rest ++ 0 :: tail)) front.length = (front ++ (rest' ++ 0 :: tail), table) ∧
      table.map (stringAt (front ++ (rest' ++ 0 :: tail))) = (runs rest).take room := by
  induction room generalizing front rest with
  | zero => exact ⟨rest, [], rfl, rfl, rfl⟩
  | succ room ih =>
    obtain hblank | ⟨blanks, c, word, more, rfl, hblanks, hword, hmore⟩ := line_cases rest
    · refine ⟨rest, [], rfl, ?_, ?_⟩
      · rw [splitIn, drop_left, takeWhile_run (by simpa using hblank) (by simp [blank]), ← length_append, ← append_assoc]
        rw [getD_length, if_pos rfl]
      · have hruns := runs_blanks hblank []
        rw [append_nil] at hruns
        rw [hruns]
        rfl
    · simp only [forall_mem_append] at hrest
      obtain ⟨-, hnonzero, hrest⟩ := hrest
      have hstart : ∀ d ∈ (c :: word ++ (more ++ 0 :: tail)).head?, decide (d = blank) = false := by
        simpa using hword c mem_cons_self
      have hinside : ∀ d ∈ c :: word, decide (d ≠ 0 ∧ d ≠ blank) = true :=
        fun d hd ↦ decide_eq_true ⟨hnonzero d hd, hword d hd⟩
      have hbehind : ∀ d ∈ (more ++ 0 :: tail).head?, decide (d ≠ 0 ∧ d ≠ blank) = false := by
        cases more with
        | nil => simp
        | cons d more => simpa using fun _ ↦ hmore d rfl
      generalize hwords : front ++ (blanks ++ (c :: word ++ more) ++ 0 :: tail) = words
      have hfirst : front.length + ((words.drop front.length).takeWhile (· = blank)).length = (front ++ blanks).length := by
        rw [← hwords, drop_left, append_assoc, append_assoc, takeWhile_run (by simpa using hblanks) hstart, length_append]
      replace hwords : words = front ++ blanks ++ (c :: word ++ (more ++ 0 :: tail)) := by simp [← hwords]
      have hne : words.getD (front ++ blanks).length 0 ≠ 0 := by
        rw [hwords, cons_append, getD_length]
        exact hnonzero c mem_cons_self
      have hlast : (front ++ blanks).length + ((words.drop (front ++ blanks).length).takeWhile
          fun c ↦ c ≠ 0 ∧ c ≠ blank).length = (front ++ blanks ++ c :: word).length := by
        rw [hwords, drop_left, takeWhile_run hinside hbehind, ← length_append]
      have hstring : ∀ rest', stringAt (front ++ blanks ++ (c :: word ++ 0 :: rest')) (front ++ blanks).length = c :: word :=
        fun rest' ↦ stringAt_length hnonzero _
      rw [← append_assoc] at hwords
      rw [runs_blanks hblanks, runs_word hword hmore, take_succ_cons]
      cases more with
      | nil =>
        obtain ⟨rest', table, hlength, hsplit, htable⟩ := ih (forall_mem_nil _) (front ++ blanks ++ c :: word)
        obtain rfl := length_eq_zero_iff.mp hlength
        refine ⟨blanks ++ c :: word, (front ++ blanks).length :: table, by simp, ?_, ?_⟩
        · rw [splitIn_succ (words, table) hfirst hne hlast ?_, hwords]
          · simp
          · rw [hwords, nil_append, getD_length, if_neg (by decide)]
            exact hsplit
        · rw [map_cons, ← htable]
          simpa using hstring tail
      | cons d more =>
        obtain rfl := hmore d rfl
        obtain ⟨rest', table, hlength, hsplit, htable⟩ :=
          ih (fun c hc ↦ hrest c (mem_cons_of_mem _ hc)) (front ++ blanks ++ c :: word ++ [0])
        refine ⟨blanks ++ c :: word ++ 0 :: rest', (front ++ blanks).length :: table, by simp [hlength], ?_, ?_⟩
        · rw [splitIn_succ (_, table) hfirst hne hlast ?_]
          rw [hwords, cons_append, getD_length, if_pos rfl]
          simpa [Nat.add_assoc] using hsplit
        · rw [map_cons, show runs (blank :: more) = runs more from runs_blank more, ← htable]
          simpa using hstring (rest' ++ 0 :: tail)

theorem names_iff {key word : CString} : Names key word ↔ key.isPrefixOf word ∧
    (word.drop key.length = [] ∨ (word.drop key.length).head? = some equalsSign) := by
  rw [ isPrefixOf_iff_prefix, Names]
  constructor
  · rintro (rfl | ⟨value, rfl⟩)
    · simp
    · simp
  · rintro ⟨⟨rest, rfl⟩, hrest⟩
    rw [drop_left] at hrest
    obtain rfl | hrest := hrest
    · simp
    · obtain ⟨value, rfl⟩ := head?_eq_some_iff.mp hrest
      exact .inr ⟨value, by simp⟩

theorem find_eq (key line : CString) :
    find key line = ((wordTable line).find? (Names key ·)).map (·.drop key.length) := by
  rw [find]
  induction wordTable line with
  | nil => rfl
  | cons word words ih =>
    rw [findSome?_cons]
    by_cases hnames : Names key word
    · rw [if_pos (names_iff.mp hnames), find?_cons_of_pos (by simpa using hnames)]
      rfl
    · rw [if_neg (mt names_iff.mpr hnames), find?_cons_of_neg (by simpa using hnames)]
      exact ih

/-- The words of the command line, and what a key finds among them. -/
theorem cmdline_words (source : List UInt8) :
    (cmdlineInit source).2.map (stringAt (cmdlineInit source).1) = wordTable (stringAt source 0) ∧
    wordTable (stringAt source 0) = (runs ((stringAt source 0).take 511)).take 32 ∧
    ∀ key, (cmdlineHas key (stringAt source 0) = true ↔ ∃ word ∈ wordTable (stringAt source 0), Names key word) ∧
      cmdlineValue key (stringAt source 0) = ((wordTable (stringAt source 0)).find? (Names key ·)).bind fun word ↦
        if word = key then none else some (word.drop (key.length + 1)) := by
  have htable : wordTable (stringAt source 0) = (runs ((stringAt source 0).take 511)).take 32 := split_eq ..
  refine ⟨?_, htable, fun key ↦ ⟨?_, ?_⟩⟩
  · have hlength : ((stringAt source 0).take 511).length ≤ 511 := length_take_le ..
    have hnonzero : ∀ c ∈ (stringAt source 0).take 511, c ≠ 0 :=
      fun c hc ↦ by simpa using mem_takeWhile_imp (mem_of_mem_take hc)
    obtain ⟨rest', table, -, hsplit, hstrings⟩ := splitIn_spec 32
      (replicate (511 - ((stringAt source 0).take 511).length) 0) hnonzero []
    rw [← replicate_succ, ← Nat.sub_add_comm hlength] at hsplit hstrings
    have hinit : cmdlineInit source = _ := hsplit
    rw [htable, hinit, ← hstrings]
  · rw [cmdlineHas, find_eq]
    simp
  · rw [cmdlineValue, find_eq]
    cases hfind : (wordTable (stringAt source 0)).find? (Names key ·) with
    | none => rfl
    | some word =>
      obtain rfl | ⟨value, rfl⟩ : Names key word := by simpa using find?_some hfind
      · simp
      · simp

/-- Words that are written with blanks between them are the words of the line again. -/
theorem wordTable_intercalate {words : List CString} (hwords : ∀ word ∈ words, blank ∉ word ∧ word ≠ [])
    (hcount : words.length ≤ 32) (hroom : ([blank].intercalate words).length ≤ 511) :
    wordTable ([blank].intercalate words) = words := by
  rw [wordTable, cmdlineCapacity, take_of_length_le hroom, split_eq, runs]
  cases words with
  | nil => rfl
  | cons word words =>
    rw [splitOn_intercalate _ (fun word hword ↦ (hwords word hword).1) (cons_ne_nil word words),
      filter_eq_self.mpr fun word hword ↦ decide_eq_true (hwords word hword).2]
    exact take_of_length_le hcount

theorem wordTable_intercalate_two : wordTable [113, 32, 97, 61, 98] = [[113], [97, 61, 98]] :=
  @wordTable_intercalate [[113], [97, 61, 98]] (by decide) (by decide) (by decide)

end Eris.Boot
