import DataRace.Proofs.Text.Line

/-!
# DataRace.Proofs.Text.Grammar

How a text is put together from lines, words and numbers, apart from the
functions that take it apart.

* `LinesOf` are the lines of a text; there is exactly one list of them
  (`exists_linesOf`, `LinesOf.unique`), and up to blanks at their ends reading
  finds it (`LinesOf.map_trim`);
* `WordsOf` are the words of a line, which reading finds (`words_eq_iff`);
* `Trimmed` is what trimming leaves (`trim_eq_iff`);
* `Denotes` is the meaning of a numeral, which reading computes
  (`readWord_eq_some_iff`).
-/

namespace DataRace

namespace Text

/-- Nothing but blanks. -/
def Blank (cs : List Char) : Prop := ∀ c ∈ cs, isBlank c = true

instance (cs : List Char) : Decidable (Blank cs) :=
  inferInstanceAs (Decidable (∀ c ∈ cs, isBlank c = true))

/-- What is left of a text without the blanks at its ends. -/
def Trimmed (cs t : List Char) : Prop :=
  ∃ a b, cs = a ++ t ++ b ∧ Blank a ∧ Blank b ∧
    (∀ c ∈ t.head?, isBlank c = false) ∧ ∀ c ∈ t.getLast?, isBlank c = false

/-- The words of a text: runs of other characters with blanks between them. -/
inductive WordsOf : List Char → List (List Char) → Prop where
  | blank {cs} : Blank cs → WordsOf cs []
  | word {a w rest ws} : Blank a → w ≠ [] → (∀ c ∈ w, isBlank c = false) →
      (∀ c ∈ rest.head?, isBlank c = true) → WordsOf rest ws → WordsOf (a ++ w ++ rest) (w :: ws)

/-- The meaning of a numeral of at most 64 bits: an optional plus sign and decimal digits, at least
one of them. -/
def Denotes (cs : List Char) (n : Nat) : Prop :=
  ∃ sign digits, cs = sign ++ digits ∧ (sign = [] ∨ sign = ['+']) ∧ digits ≠ [] ∧
    (∀ c ∈ digits, c.isDigit = true) ∧ Nat.ofDigitChars 10 digits 0 = n ∧ n < UInt64.size

/-- A line without a carriage return at its end. -/
def dropReturn (l : List Char) : List Char := if l.getLast? = some '\r' then l.dropLast else l

/-- The lines of a text.  A line ends with a line feed, or with a carriage return and a line feed,
which do not belong to it; the last line may end with the text. -/
inductive LinesOf : List Char → List (List Char) → Prop where
  | nil : LinesOf [] []
  | last {l} : l ≠ [] → '\n' ∉ l → LinesOf l [l]
  | feed {l rest ls} : '\n' ∉ l → LinesOf rest ls → LinesOf (l ++ '\n' :: rest) (dropReturn l :: ls)

/-! ## trimming -/

/-- The first character that is left is no blank. -/
theorem head_dropWhile (cs : List Char) :
    ∀ c ∈ (cs.dropWhile isBlank).head?, isBlank c = false := by
  have hhead := List.head?_dropWhile_not isBlank cs
  intro c hc
  rwa [Option.mem_def.1 hc] at hhead

theorem blank_takeWhile (cs : List Char) : Blank (cs.takeWhile isBlank) :=
  List.all_eq_true.1 List.all_takeWhile

theorem trimmed_trim (cs : List Char) : Trimmed cs (trim cs) := by
  let front := cs.dropWhile isBlank
  have hfront : front = trim cs ++ (front.reverse.takeWhile isBlank).reverse := by
    rw [trim, ← List.reverse_append, List.takeWhile_append_dropWhile, List.reverse_reverse]
  refine ⟨cs.takeWhile isBlank, (front.reverse.takeWhile isBlank).reverse, ?_, blank_takeWhile cs,
    ?_, ?_, ?_⟩
  · rw [List.append_assoc, ← hfront, List.takeWhile_append_dropWhile]
  · exact fun c hc => blank_takeWhile _ c (List.mem_reverse.1 hc)
  · intro c hc
    refine head_dropWhile cs c ?_
    rw [show cs.dropWhile isBlank = front from rfl, hfront]
    exact List.mem_head?_append_of_mem_head? hc
  · intro c hc
    rw [trim, List.getLast?_reverse] at hc
    exact head_dropWhile _ c hc

theorem Trimmed.trim_eq {cs t : List Char} (h : Trimmed cs t) : trim cs = t := by
  obtain ⟨a, b, rfl, ha, hb, hhead, hlast⟩ := h
  have hrest : (b.reverse ++ t.reverse).dropWhile isBlank = t.reverse := by
    rw [List.dropWhile_append_of_pos fun c hc => hb c (List.mem_reverse.1 hc)]
    exact dropWhile_of_head (by rwa [List.head?_reverse])
  rw [trim, List.append_assoc, List.dropWhile_append_of_pos ha]
  cases t with
  | nil =>
    have hempty : (b ++ []).dropWhile isBlank = [] := List.dropWhile_append_of_pos hb
    rw [List.append_nil] at hempty
    rw [List.nil_append, hempty]
    rfl
  | cons c t =>
    have hkept : (c :: t ++ b).dropWhile isBlank = c :: t ++ b := dropWhile_of_head hhead
    rw [hkept, List.reverse_append, hrest, List.reverse_reverse]

theorem trim_eq_iff {cs t : List Char} : trim cs = t ↔ Trimmed cs t :=
  ⟨fun h => h ▸ trimmed_trim cs, Trimmed.trim_eq⟩

/-- Trimming leaves nothing of blanks only. -/
theorem trim_eq_nil_iff {cs : List Char} : trim cs = [] ↔ Blank cs := by
  rw [trim_eq_iff]
  constructor
  · rintro ⟨a, b, rfl, ha, hb, -, -⟩ c hc
    rcases List.mem_append.1 hc with hc | hc
    · exact ha c ((List.append_nil a).symm ▸ hc)
    · exact hb c hc
  · exact fun h => ⟨cs, [], by simp, h, nofun, nofun, nofun⟩

/-! ## words -/

/-- A blank before a text adds no word. -/
theorem WordsOf.cons_blank {cs : List Char} {ws : List (List Char)} {c : Char}
    (hc : isBlank c = true) (h : WordsOf cs ws) : WordsOf (c :: cs) ws := by
  have hcons {a : List Char} (ha : Blank a) : Blank (c :: a) := List.forall_mem_cons.2 ⟨hc, ha⟩
  cases h with
  | blank h => exact .blank (hcons h)
  | word ha hne hw hrest h => exact .word (hcons ha) hne hw hrest h

/-- A character before a word lengthens it. -/
theorem WordsOf.cons_word {cs w : List Char} {ws : List (List Char)} {c d : Char}
    (hc : isBlank c = false) (hd : isBlank d = false) (h : WordsOf (d :: cs) (w :: ws)) :
    WordsOf (c :: d :: cs) ((c :: w) :: ws) := by
  generalize htext : d :: cs = text at h
  cases h with
  | @word a w rest ws ha hne hw hrest h =>
    cases a with
    | cons b a =>
      obtain ⟨rfl, -⟩ := List.cons.inj htext
      exact absurd (ha d List.mem_cons_self) (by simp [hd])
    | nil =>
      exact .word (a := []) nofun (List.cons_ne_nil c w) (List.forall_mem_cons.2 ⟨hc, hw⟩) hrest h

/-- Where there is no word there are only blanks. -/
theorem WordsOf.blank_of_nil {cs : List Char} (h : WordsOf cs []) : Blank cs := by
  generalize hws : [] = ws at h
  cases h with
  | blank h => exact h
  | word => cases hws

theorem wordsOf_words (cs : List Char) : WordsOf cs (words cs) := by
  induction cs with
  | nil => exact .blank nofun
  | cons c cs ih =>
    cases hc : isBlank c with
    | true =>
      rw [words_cons_of_isBlank hc]
      exact ih.cons_blank hc
    | false =>
      by_cases hhead : ∀ d ∈ cs.head?, isBlank d = true
      · rw [words_cons_of_head hc hhead]
        exact .word (a := []) (w := [c]) nofun (List.cons_ne_nil c [])
          (List.forall_mem_singleton.2 hc) hhead ih
      · cases cs with
        | nil => exact absurd nofun hhead
        | cons d cs =>
          have hd : isBlank d = false := by simpa using hhead
          cases hwords : words (d :: cs) with
          | nil =>
            have hblank := (hwords ▸ ih).blank_of_nil
            exact absurd (hblank d List.mem_cons_self) (by simp [hd])
          | cons w ws =>
            rw [words_cons_cons hc hd hwords]
            exact WordsOf.cons_word hc hd (hwords ▸ ih)

/-- Blanks before a text are skipped. -/
theorem words_blank_append {a : List Char} (ha : Blank a) (cs : List Char) :
    words (a ++ cs) = words cs := by
  induction a with
  | nil => rfl
  | cons c a ih =>
    obtain ⟨hc, ha⟩ := List.forall_mem_cons.1 ha
    rw [List.cons_append, words_cons_of_isBlank hc, ih ha]

theorem WordsOf.words_eq {cs : List Char} {ws : List (List Char)} (h : WordsOf cs ws) :
    words cs = ws := by
  induction h with
  | blank h =>
    have hwords := words_blank_append h []
    rwa [List.append_nil] at hwords
  | word ha hne hw hrest _ ih =>
    rw [List.append_assoc, words_blank_append ha, words_append hne hw hrest, ih]

theorem words_eq_iff {cs : List Char} {ws : List (List Char)} : words cs = ws ↔ WordsOf cs ws :=
  ⟨fun h => h ▸ wordsOf_words cs, WordsOf.words_eq⟩

/-- Blanks behind a text add no word. -/
theorem WordsOf.append_blank {cs b : List Char} {ws : List (List Char)} (hb : Blank b)
    (h : WordsOf cs ws) : WordsOf (cs ++ b) ws := by
  induction h with
  | blank h => exact .blank (List.forall_mem_append.2 ⟨h, hb⟩)
  | @word a w rest ws ha hne hw hrest _ ih =>
    rw [List.append_assoc]
    refine .word ha hne hw (fun c hc => ?_) ih
    cases rest with
    | nil => exact hb c (List.mem_of_head? hc)
    | cons d rest => exact hrest c hc

/-- A line has the words that it has after trimming. -/
theorem words_trim (cs : List Char) : words (trim cs) = words cs := by
  obtain ⟨a, b, hcs, ha, hb, -⟩ := trimmed_trim cs
  have hwords := ((wordsOf_words (trim cs)).append_blank hb).words_eq
  conv_rhs => rw [hcs, List.append_assoc, words_blank_append ha, hwords]

/-! ## numbers -/

theorem digitsValue_eq_some_iff {cs : List Char} {acc n : Nat} : digitsValue acc cs = some n ↔
    (∀ c ∈ cs, c.isDigit = true) ∧ Nat.ofDigitChars 10 cs acc = n := by
  constructor
  · intro h
    have hdigit : ∀ c ∈ cs, c.isDigit = true := by
      induction cs generalizing acc with
      | nil => nofun
      | cons c cs ih =>
        obtain ⟨hc, h⟩ := Option.ite_none_right_eq_some.1 h
        exact List.forall_mem_cons.2 ⟨hc, ih h⟩
    exact ⟨hdigit, Option.some.inj ((digitsValue_eq_some hdigit acc).symm.trans h)⟩
  · rintro ⟨hdigit, rfl⟩
    exact digitsValue_eq_some hdigit acc

/-- Digits without a sign are read by their value. -/
theorem readDigits_eq_some_iff {cs : List Char} {n : Nat} :
    (if cs.isEmpty then none else (digitsValue 0 cs).filter (· < UInt64.size)) = some n ↔
      cs ≠ [] ∧ (∀ c ∈ cs, c.isDigit = true) ∧ Nat.ofDigitChars 10 cs 0 = n ∧ n < UInt64.size := by
  rw [Option.ite_none_left_eq_some, List.isEmpty_iff, Option.filter_eq_some_iff,
    digitsValue_eq_some_iff, decide_eq_true_iff, and_assoc]

theorem readWord_eq_some_iff {cs : List Char} {n : Nat} : readWord cs = some n ↔ Denotes cs n := by
  unfold readWord
  split
  · next r =>
    refine readDigits_eq_some_iff.trans ⟨?_, ?_⟩
    · exact fun h => ⟨['+'], r, rfl, .inr rfl, h⟩
    · rintro ⟨_, digits, hr, rfl | rfl, h⟩
      · have hplus : '+' ∈ digits := (List.nil_append digits ▸ hr) ▸ List.mem_cons_self
        exact absurd (h.2.1 '+' hplus) (by decide)
      · exact (List.cons.inj hr).2 ▸ h
  · next hsign =>
    refine readDigits_eq_some_iff.trans ⟨?_, ?_⟩
    · exact fun h => ⟨[], cs, rfl, .inl rfl, h⟩
    · rintro ⟨_, digits, rfl, rfl | rfl, h⟩
      · exact h
      · exact absurd rfl (hsign digits)

/-! ## lines -/

theorem trim_dropReturn (l : List Char) : trim (dropReturn l) = trim l := by
  unfold dropReturn
  split
  · next h =>
    obtain ⟨init, rfl⟩ := List.getLast?_eq_some_iff.1 h
    obtain ⟨a, b, hinit, ha, hb, hends⟩ := trimmed_trim init
    rw [List.dropLast_concat]
    refine (Trimmed.trim_eq ⟨a, b ++ ['\r'], ?_, ha, ?_, hends⟩).symm
    · rw [← List.append_assoc, ← hinit]
    · exact List.forall_mem_append.2 ⟨hb, List.forall_mem_singleton.2 rfl⟩
  · rfl

theorem lines_of_notMem {l : List Char} (h : '\n' ∉ l) (hne : l ≠ []) : lines l = [l] := by
  induction l with
  | nil => exact absurd rfl hne
  | cons c l ih =>
    obtain ⟨hc, hl⟩ := not_or.1 (mt List.mem_cons.2 h)
    rw [lines, if_neg (Ne.symm hc)]
    cases l with
    | nil => rfl
    | cons d l => rw [ih hl (List.cons_ne_nil d l)]

theorem LinesOf.map_trim {cs : List Char} {ls : List (List Char)} (h : LinesOf cs ls) :
    (lines cs).map trim = ls.map trim := by
  induction h with
  | nil => rfl
  | last hne h => rw [lines_of_notMem h hne]
  | feed h _ ih => rw [lines_append h, List.map_cons, List.map_cons, trim_dropReturn, ih]

theorem exists_linesOf (cs : List Char) : ∃ ls, LinesOf cs ls := by
  -- on the length: what is left behind a line feed is shorter
  induction hn : cs.length using Nat.strongRecOn generalizing cs with
  | ind n ih =>
    by_cases hfeed : '\n' ∈ cs
    · obtain ⟨l, rest, rfl, hl⟩ := List.eq_append_cons_of_mem hfeed
      have hlt : rest.length < n := by
        rw [← hn, List.length_append, List.length_cons]
        omega
      obtain ⟨ls, hls⟩ := ih _ hlt rest rfl
      exact ⟨_, .feed hl hls⟩
    · by_cases hne : cs = []
      · exact ⟨[], hne ▸ .nil⟩
      · exact ⟨[cs], .last hne hfeed⟩

theorem LinesOf.unique {cs : List Char} {ls ls' : List (List Char)} (h : LinesOf cs ls)
    (h' : LinesOf cs ls') : ls = ls' := by
  induction h generalizing ls' with
  | nil =>
    generalize hcs : [] = cs at h'
    cases h' with
    | nil => rfl
    | last hne => exact absurd hcs.symm hne
    | @feed l => exact absurd hcs.symm (List.append_ne_nil_of_right_ne_nil l (List.cons_ne_nil _ _))
  | @last l hne hl =>
    cases h' with
    | nil => exact absurd rfl hne
    | last => rfl
    | feed => exact absurd (List.mem_append_right _ List.mem_cons_self) hl
  | @feed l rest ls hl _ ih =>
    generalize hcs : l ++ '\n' :: rest = cs at h'
    cases h' with
    | nil => exact absurd hcs (List.append_ne_nil_of_right_ne_nil l (List.cons_ne_nil _ _))
    | last _ hl' => exact absurd (hcs ▸ List.mem_append_right _ List.mem_cons_self) hl'
    | @feed l' rest' ls' hl' h' =>
      -- both texts have the same first line
      have hlines := congrArg lines hcs
      rw [lines_append hl, lines_append hl'] at hlines
      obtain ⟨rfl, -⟩ := List.cons.inj hlines
      obtain rfl := (List.cons.inj (List.append_cancel_left hcs)).2
      rw [ih h']

end Text

end DataRace
