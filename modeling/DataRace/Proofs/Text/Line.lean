import DataRace.Text.Line
import Mathlib.Data.List.Basic

/-!
# DataRace.Proofs.Text.Line

Taking a text apart that was put together from lines and words.

* `lines_append`: a line is read back up to its line feed;
* `trim_eq_self`: a text that neither begins nor ends with a blank is not trimmed;
* `words_append`: a word is read back up to the blank behind it, so that two words are read back
  (`words_pair`);
* `readWord_toDigits`: so is a number, if it fits into a word.
-/

namespace DataRace

namespace Text

/-! ## lines -/

theorem lines_append {l : List Char} (h : '\n' ∉ l) (rest : List Char) :
    lines (l ++ '\n' :: rest) = l :: lines rest := by
  induction l with
  | nil => simp [lines]
  | cons c l ih =>
    have hc : c ≠ '\n' := fun heq => h (heq ▸ List.mem_cons_self)
    rw [List.cons_append, lines, if_neg hc, ih fun hl => h (List.mem_cons_of_mem c hl)]

/-! ## blanks -/

/-- Nothing is dropped from a text that does not begin with a blank. -/
theorem dropWhile_of_head {cs : List Char} (h : ∀ c ∈ cs.head?, isBlank c = false) :
    cs.dropWhile isBlank = cs := by
  cases cs with
  | nil => rfl
  | cons c cs => rw [List.dropWhile_cons, h c rfl, if_neg Bool.false_ne_true]

theorem trim_eq_self {cs : List Char} (hhead : ∀ c ∈ cs.head?, isBlank c = false)
    (hlast : ∀ c ∈ cs.getLast?, isBlank c = false) : trim cs = cs := by
  rw [trim, dropWhile_of_head hhead, dropWhile_of_head (by rwa [List.head?_reverse]),
    List.reverse_reverse]

/-- A digit is no blank. -/
theorem isBlank_of_isDigit {c : Char} (h : c.isDigit = true) : isBlank c = false := by
  have hlow : 48 ≤ c.toNat := by
    have hval := (Bool.and_eq_true _ _ ▸ h).1
    exact of_decide_eq_true hval
  have hhigh : c.toNat ≤ 57 := by
    have hval := (Bool.and_eq_true _ _ ▸ h).2
    exact of_decide_eq_true hval
  rw [← Bool.not_eq_true]
  intro hblank
  simp only [isBlank, Bool.or_eq_true, Bool.and_eq_true, decide_eq_true_eq, beq_iff_eq] at hblank
  omega

/-! ## words -/

theorem words_cons_of_isBlank {c : Char} (h : isBlank c = true) (cs : List Char) :
    words (c :: cs) = words cs := by
  rw [words.eq_def]
  exact if_pos h

/-- A word ends at a blank or with the text. -/
theorem words_cons_of_head {c : Char} (hc : isBlank c = false) {cs : List Char}
    (h : ∀ d ∈ cs.head?, isBlank d = true) : words (c :: cs) = [c] :: words cs := by
  rw [words.eq_def]
  cases cs with
  | nil =>
    have hnil : words [] = [] := rfl
    simp [hc, hnil]
  | cons d cs => simp [hc, h d rfl]

/-- A word goes on with the next character. -/
theorem words_cons_cons {c d : Char} (hc : isBlank c = false) (hd : isBlank d = false)
    {cs w : List Char} {ws : List (List Char)} (h : words (d :: cs) = w :: ws) :
    words (c :: d :: cs) = (c :: w) :: ws := by
  rw [words.eq_def]
  simp [hc, hd, h]

theorem words_append {w : List Char} (hne : w ≠ []) (h : ∀ c ∈ w, isBlank c = false)
    {rest : List Char} (hrest : ∀ d ∈ rest.head?, isBlank d = true) :
    words (w ++ rest) = w :: words rest := by
  induction w with
  | nil => exact absurd rfl hne
  | cons c w ih =>
    have hc := h c List.mem_cons_self
    cases w with
    | nil => exact words_cons_of_head hc hrest
    | cons d w =>
      have hd := h d (List.mem_cons_of_mem c List.mem_cons_self)
      exact words_cons_cons hc hd
        (ih (List.cons_ne_nil d w) fun e he => h e (List.mem_cons_of_mem c he))

/-- Two words with a blank between them. -/
theorem words_pair {v w : List Char} (hv : v ≠ []) (hw : w ≠ []) (hvs : ∀ c ∈ v, isBlank c = false)
    (hws : ∀ c ∈ w, isBlank c = false) {b : Char} (hb : isBlank b = true) :
    words (v ++ b :: w) = [v, w] := by
  have hlast : words w = [w] := by
    have hone := words_append hw hws (fun d (hd : d ∈ [].head?) => (by cases hd))
    rwa [List.append_nil] at hone
  have hrest : ∀ d ∈ (b :: w).head?, isBlank d = true := by
    intro d hd
    cases hd
    exact hb
  rw [words_append hv hvs hrest, words_cons_of_isBlank hb, hlast]

/-! ## numbers -/

/-- Reading digits onto a number is what the digits denote. -/
theorem digitsValue_eq_some {cs : List Char} (h : ∀ c ∈ cs, c.isDigit = true) (acc : Nat) :
    digitsValue acc cs = some (Nat.ofDigitChars 10 cs acc) := by
  induction cs generalizing acc with
  | nil => rfl
  | cons c cs ih =>
    rw [digitsValue, if_pos (h c List.mem_cons_self), Nat.ofDigitChars_cons]
    exact ih (fun d hd => h d (List.mem_cons_of_mem c hd)) _

theorem isDigit_of_mem_toDigits {n : Nat} {c : Char} (h : c ∈ Nat.toDigits 10 n) :
    c.isDigit = true := Nat.isDigit_of_mem_toDigits (by omega) (by omega) h

theorem isBlank_of_mem_toDigits {n : Nat} {c : Char} (h : c ∈ Nat.toDigits 10 n) :
    isBlank c = false := isBlank_of_isDigit (isDigit_of_mem_toDigits h)

/-- A number that fits into a word is read back. -/
theorem readWord_toDigits {n : Nat} (h : n < UInt64.size) :
    readWord (Nat.toDigits 10 n) = some n := by
  have hdigit {c : Char} (hc : c ∈ Nat.toDigits 10 n) := isDigit_of_mem_toDigits hc
  have hvalue : digitsValue 0 (Nat.toDigits 10 n) = some n := by
    rw [digitsValue_eq_some (fun c => hdigit), Nat.ofDigitChars_ten_toDigits]
  have hempty : ¬(Nat.toDigits 10 n).isEmpty = true := by
    rw [List.isEmpty_iff]
    exact Nat.toDigits_ne_nil
  unfold readWord
  split
  · next r heq =>
    have hplus := hdigit (c := '+') (by rw [heq]; exact List.mem_cons_self)
    exact absurd hplus (by decide)
  · refine (if_neg hempty).trans ?_
    rw [hvalue, Option.filter_some, if_pos (decide_eq_true h)]

end Text

end DataRace
