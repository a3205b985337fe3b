import DataRace.Report.PairFile
import DataRace.Proofs.Success
import DataRace.Proofs.Text.Grammar
import Mathlib.Data.List.Forall2

/-!
# DataRace.Proofs.Report.PairFormat

The format of a pair file, and that reading accepts exactly it.

A line `Holds` a pair if it has two words, which denote the numbers of the pair.
A line that holds none is malformed unless it is blank.

* `readLine_trim_eq_some_iff`: reading a line finds the pair that it holds;
* `readLines_cases`: reading lines finds the pairs of all of them or the first
  malformed one;
* `parse_exact` — from every text the pairs of its lines are read, in order, or
  an error with the first malformed line.
-/

namespace DataRace

namespace PairFile

/-- A line that holds a pair: two words, which denote the numbers. -/
def Holds (l : List Char) (q : IdPair) : Prop :=
  ∃ u w, Text.WordsOf l [u, w] ∧ Text.Denotes u q.1 ∧ Text.Denotes w q.2

/-- A line that is neither blank nor holds a pair. -/
def Malformed (l : List Char) : Prop := ¬Text.Blank l ∧ ∀ q, ¬Holds l q

/-- The line at place `k` is the first malformed one. -/
def FirstMalformed (ls : List (List Char)) (k : Nat) (l : List Char) : Prop :=
  ls[k]? = some l ∧ Malformed l ∧ ∀ j < k, ∀ m ∈ ls[j]?, ¬Malformed m

/-- The lines that are not blank. -/
def written (ls : List (List Char)) : List (List Char) := ls.filter fun l => ¬Text.Blank l

/-- What has to be read from lines, the first of which has number `n`. -/
structure Reading (n : Nat) (ls : List (List Char))
    (answer : Except Error (List IdPair)) : Prop where
  /-- There are pairs if every line that is not blank holds one. -/
  isOk_iff : (∃ ps, answer = .ok ps) ↔ ∀ l ∈ ls, ¬Text.Blank l → ∃ q, Holds l q
  /-- The pairs are those of the lines that are not blank, in their order. -/
  ok_iff : ∀ ps, answer = .ok ps ↔ List.Forall₂ Holds (written ls) ps
  /-- An error tells the number of the first malformed line and its trimmed content. -/
  error_iff : ∀ e, answer = .error e ↔ ∃ k l t, FirstMalformed ls k l ∧ Text.Trimmed l t ∧
    e = .pairFormat (n + k) (String.ofList t)

/-! ## one line -/

theorem readLine_eq_some_iff {l : List Char} {q : IdPair} : readLine l = some q ↔ Holds l q := by
  simp only [Holds, ← Text.words_eq_iff, ← Text.readWord_eq_some_iff]
  unfold readLine
  split
  · next u w hwords =>
    constructor
    · intro h
      obtain ⟨a, ha, h⟩ := Option.bind_eq_some_iff.1 h
      obtain ⟨b, hb, h⟩ := Option.bind_eq_some_iff.1 h
      cases h
      exact ⟨u, w, hwords, ha, hb⟩
    · rintro ⟨u', w', heq, ha, hb⟩
      cases hwords.symm.trans heq
      simp [ha, hb]
  · next hwords => exact ⟨nofun, fun ⟨u, w, heq, _⟩ => absurd heq (hwords u w)⟩

theorem readLine_trim_eq_some_iff {l : List Char} {q : IdPair} :
    readLine (Text.trim l) = some q ↔ Holds l q := by
  have htrim : readLine (Text.trim l) = readLine l := by rw [readLine, Text.words_trim, readLine]
  rw [htrim, readLine_eq_some_iff]

/-- A line holds one pair at most. -/
theorem Holds.unique {l : List Char} {q r : IdPair} (hq : Holds l q) (hr : Holds l r) : q = r :=
  Option.some.inj ((readLine_eq_some_iff.2 hq).symm.trans (readLine_eq_some_iff.2 hr))

/-! ## lines -/

theorem written_cons_of_blank {l : List Char} (h : Text.Blank l) (ls : List (List Char)) :
    written (l :: ls) = written ls := List.filter_cons_of_neg (by simpa using h)

theorem written_cons {l : List Char} (h : ¬Text.Blank l) (ls : List (List Char)) :
    written (l :: ls) = l :: written ls := List.filter_cons_of_pos (by simpa using h)

/-- A first line that is not malformed moves the others by one. -/
theorem FirstMalformed.cons {l m : List Char} {ls : List (List Char)} {k : Nat} (hm : ¬Malformed m)
    (h : FirstMalformed ls k l) : FirstMalformed (m :: ls) (k + 1) l := by
  obtain ⟨hl, hmal, hbefore⟩ := h
  refine ⟨hl, hmal, fun j hj r hr => ?_⟩
  cases j with
  | zero => exact Option.some.inj hr ▸ hm
  | succ j => exact hbefore j (Nat.lt_of_succ_lt_succ hj) r hr

/-- Reading lines finds the pairs of all of them, or the first malformed one. -/
theorem readLines_cases (n : Nat) (ls : List (List Char)) :
    (∃ ps, readLines n ls = .ok ps ∧ List.Forall₂ Holds (written ls) ps) ∨
      ∃ k l, FirstMalformed ls k l ∧
        readLines n ls = .error (.pairFormat (n + k) (String.ofList (Text.trim l))) := by
  induction ls generalizing n with
  | nil => exact .inl ⟨[], rfl, .nil⟩
  | cons l ls ih =>
    rw [readLines]
    split
    · next hempty =>
      have hblank := Text.trim_eq_nil_iff.1 (List.isEmpty_iff.1 hempty)
      rw [written_cons_of_blank hblank]
      refine (ih (n + 1)).imp_right fun ⟨k, m, hm, hread⟩ => ⟨k + 1, m, hm.cons (·.1 hblank), ?_⟩
      rwa [Nat.add_assoc, Nat.add_comm 1 k] at hread
    · next hempty =>
      have hblank : ¬Text.Blank l := fun h => hempty (List.isEmpty_iff.2 (Text.trim_eq_nil_iff.2 h))
      rw [written_cons hblank]
      split
      · next hnone =>
        refine .inr ⟨0, l, ⟨rfl, ⟨hblank, fun q hq => ?_⟩, nofun⟩, rfl⟩
        cases hnone.symm.trans (readLine_trim_eq_some_iff.2 hq)
      · next q hsome =>
        have hq := readLine_trim_eq_some_iff.1 hsome
        rcases ih (n + 1) with ⟨ps, hread, hps⟩ | ⟨k, m, hm, hread⟩
        · exact .inl ⟨q :: ps, by rw [hread]; rfl, .cons hq hps⟩
        · refine .inr ⟨k + 1, m, hm.cons fun hmal => hmal.2 q hq, ?_⟩
          rw [hread, Nat.add_assoc, Nat.add_comm 1 k]
          rfl

/-- Where the pairs of all lines are found no line is malformed. -/
theorem not_malformed_of_forall₂ {ls : List (List Char)} {ps : List IdPair}
    (h : List.Forall₂ Holds (written ls) ps) {l : List Char} (hl : l ∈ ls) : ¬Malformed l := by
  rintro ⟨hblank, hnone⟩
  have hmem : l ∈ written ls := List.mem_filter.2 ⟨hl, by simpa using hblank⟩
  obtain ⟨k, hk, rfl⟩ := List.getElem_of_mem hmem
  exact hnone _ (h.get hk (h.length_eq ▸ hk))

theorem FirstMalformed.unique {ls : List (List Char)} {j k : Nat} {l m : List Char}
    (hl : FirstMalformed ls j l) (hm : FirstMalformed ls k m) : j = k ∧ l = m := by
  obtain rfl : j = k := by
    rcases Nat.lt_trichotomy j k with hlt | heq | hlt
    · exact absurd hl.2.1 (hm.2.2 j hlt l hl.1)
    · exact heq
    · exact absurd hm.2.1 (hl.2.2 k hlt m hm.1)
  exact ⟨rfl, Option.some.inj (hl.1.symm.trans hm.1)⟩

theorem reading_readLines (n : Nat) (ls : List (List Char)) : Reading n ls (readLines n ls) := by
  rcases readLines_cases n ls with ⟨ps, hread, hps⟩ | ⟨k, l, hl, hread⟩
  · have hnone {l : List Char} (hl : l ∈ ls) := not_malformed_of_forall₂ hps hl
    rw [hread]
    refine ⟨iff_of_true ⟨ps, rfl⟩ fun l hl hblank => ?_, fun ps' => ?_, fun e => ?_⟩
    · by_contra hq
      exact hnone hl ⟨hblank, not_exists.1 hq⟩
    · rw [Except.ok.injEq]
      have hunique : Relator.RightUnique Holds := fun _ _ _ => Holds.unique
      exact ⟨fun h => h ▸ hps, hunique.forall₂ hps⟩
    · refine iff_of_false nofun ?_
      rintro ⟨k, l, t, hl, -⟩
      exact hnone (List.mem_of_getElem? hl.1) hl.2.1
  · rw [hread]
    have hmem := List.mem_of_getElem? hl.1
    refine ⟨iff_of_false nofun fun hall => ?_, fun ps => iff_of_false nofun fun hps => ?_,
      fun e => ?_⟩
    · obtain ⟨q, hq⟩ := hall l hmem hl.2.1.1
      exact hl.2.1.2 q hq
    · exact not_malformed_of_forall₂ hps hmem hl.2.1
    · rw [Except.error.injEq]
      constructor
      · rintro rfl
        exact ⟨k, l, _, hl, Text.trimmed_trim l, rfl⟩
      · rintro ⟨k', l', t, hl', ht, rfl⟩
        obtain ⟨rfl, rfl⟩ := hl.unique hl'
        rw [ht.trim_eq]

/-! ## texts -/

/-- Reading sees the lines as they are after trimming. -/
theorem readLines_congr {ls ls' : List (List Char)} (h : ls.map Text.trim = ls'.map Text.trim)
    (n : Nat) : readLines n ls = readLines n ls' := by
  induction ls generalizing ls' n with
  | nil => rw [List.map_eq_nil_iff.1 h.symm]
  | cons l ls ih =>
    obtain ⟨l', ls', rfl, hl, hls⟩ := List.map_eq_cons_iff.1 h.symm
    rw [readLines, readLines, hl, ih hls.symm]

/-- **The format is accepted exactly.**  From every text the pairs of its lines are read if every
line that is not blank holds one; otherwise the error tells the first malformed line.  Lines are
counted from 1, the blank ones with the others. -/
theorem parse_exact (text : String) : ∃ ls, (∀ ls', Text.LinesOf text.toList ls' ↔ ls' = ls) ∧
    Reading 1 ls (parse text) := by
  obtain ⟨ls, hls⟩ := Text.exists_linesOf text.toList
  refine ⟨ls, fun ls' => ⟨fun h => h.unique hls, fun h => h ▸ hls⟩, ?_⟩
  rw [parse, readLines_congr hls.map_trim]
  exact reading_readLines 1 ls

example : parse "0 1\r\n\n 7\t+08 \n 4 -5 \n6" = .error (.pairFormat 4 "4 -5") := by
  decide +kernel

end PairFile

end DataRace
