import DataRace.Proofs.Report.PairOrder
import DataRace.Proofs.Text.Line
import DataRace.Proofs.Report.CheckPlan
import DataRace.Proofs.Program.Script

/-!
# DataRace.Proofs.Report.PairFile

Pair files hold what was written to them.

* `parse_render`: the pairs of a file are the pairs it was made from, as long as
  their numbers fit into a word;
* `Directory.Takes` are the names under which a file can be written, and
  `Takes.exists_write` says what writing one does;
* `PairFile.round_trip` — pairs that are written, ordered in a file and read
  back are the ordered pairs, those of a check plan among them.
-/

namespace DataRace

open Std

namespace PairFile

/-! ## lines of pairs -/

/-- Both numbers fit into a word. -/
def Fits (q : IdPair) : Prop := q.1 < UInt64.size ∧ q.2 < UInt64.size

/-- The line of a pair. -/
def line (q : IdPair) : List Char := Nat.toDigits 10 q.1 ++ ' ' :: Nat.toDigits 10 q.2

theorem toList_render_cons (q : IdPair) (ps : List IdPair) :
    (render (q :: ps)).toList = line q ++ '\n' :: (render ps).toList := by
  have hblank : (toString " ").toList = [' '] := rfl
  have hfeed : (toString "\n").toList = ['\n'] := rfl
  simp [render, line, String.toList_join, Nat.toList_repr, hblank, hfeed]

/-- A line has a digit at either end, and no line feed in it. -/
theorem line_spec (q : IdPair) : '\n' ∉ line q ∧ Text.trim (line q) = line q ∧ line q ≠ [] := by
  have hends : Nat.toDigits 10 q.1 ≠ [] ∧ Nat.toDigits 10 q.2 ≠ [] :=
    ⟨Nat.toDigits_ne_nil, Nat.toDigits_ne_nil⟩
  refine ⟨fun hmem => ?_, Text.trim_eq_self (fun c hc => ?_) fun c hc => ?_, ?_⟩
  · have hfeed (n : Nat) : '\n' ∉ Nat.toDigits 10 n := fun h =>
      absurd (Text.isDigit_of_mem_toDigits h) (by decide)
    obtain hmem | hmem := List.mem_append.1 hmem
    · exact hfeed q.1 hmem
    · exact hfeed q.2 ((List.mem_cons.1 hmem).resolve_left (by decide))
  · rw [line, List.head?_append_of_ne_nil _ hends.1] at hc
    exact Text.isBlank_of_mem_toDigits (List.mem_of_head? hc)
  · rw [line, List.append_cons, List.getLast?_append_of_ne_nil _ hends.2] at hc
    exact Text.isBlank_of_mem_toDigits (List.mem_of_getLast? hc)
  · exact List.append_ne_nil_of_left_ne_nil hends.1 _

theorem readLine_line {q : IdPair} (h : Fits q) : readLine (line q) = some q := by
  have hwords : Text.words (line q) = [Nat.toDigits 10 q.1, Nat.toDigits 10 q.2] :=
    Text.words_pair Nat.toDigits_ne_nil Nat.toDigits_ne_nil
      (fun _ => Text.isBlank_of_mem_toDigits) (fun _ => Text.isBlank_of_mem_toDigits) (by decide)
  rw [readLine, hwords]
  simp [Text.readWord_toDigits h.1, Text.readWord_toDigits h.2]

theorem readLines_lines_render {ps : List IdPair} (h : ∀ q ∈ ps, Fits q) (n : Nat) :
    readLines n (Text.lines (render ps).toList) = .ok ps := by
  induction ps generalizing n with
  | nil => rfl
  | cons q ps ih =>
    obtain ⟨hfeed, htrim, hne⟩ := line_spec q
    have hrest := ih (fun q' hq' => h q' (List.mem_cons_of_mem q hq')) (n + 1)
    rw [toList_render_cons, Text.lines_append hfeed, readLines, htrim]
    simp [hne, readLine_line (h q List.mem_cons_self), hrest]

/-- The pairs of a file are the pairs it was made from. -/
theorem parse_render {ps : List IdPair} (h : ∀ q ∈ ps, Fits q) : parse (render ps) = .ok ps :=
  readLines_lines_render h 1

end PairFile

/-! ## files -/

namespace Directory

variable {d : Directory} {name : String}

/-- A file can be written under the name. -/
def Takes (d : Directory) (name : String) : Prop :=
  fault? name = none ∧ d.entry? name ≠ some .folder

/-- What is written under a name is read there, and every name takes files as before. -/
theorem Takes.exists_write (h : d.Takes name) (text : String) : ∃ d', d.write name text = .ok d' ∧
    d'.read name = .ok text ∧ ∀ other, d.Takes other → d'.Takes other := by
  have hname : name ≠ "." := fun heq => h.2 (if_pos heq)
  have hentry (other : String) : entry? ⟨d.entries.insert name (.file text)⟩ other =
      if name = other then some (.file text) else d.entry? other := by
    unfold entry?
    simp only [TreeMap.getElem?_insert, LawfulEqCmp.compare_eq_iff_eq]
    grind
  refine ⟨⟨d.entries.insert name (.file text)⟩, ?_, ?_, fun other hother => ⟨hother.1, ?_⟩⟩
  · unfold write
    rw [h.1]
    dsimp only
    split
    · next hfolder => exact absurd hfolder h.2
    · rfl
  · rw [read, h.1, hentry, if_pos rfl]
  · rw [hentry]
    split
    · intro hfile
      cases hfile
    · exact hother.2

/-- A pair file holds the pairs that were written. -/
theorem Takes.exists_writePairs (h : d.Takes name) {ps : List IdPair}
    (hps : ∀ q ∈ ps, PairFile.Fits q) : ∃ d', d.writePairs name ps = .ok d' ∧
      d'.readPairs name = .ok ps ∧ ∀ other, d.Takes other → d'.Takes other := by
  obtain ⟨d', hwrite, hread, htakes⟩ := h.exists_write (PairFile.render ps)
  refine ⟨d', hwrite, ?_, htakes⟩
  rw [readPairs, hread]
  exact PairFile.parse_render hps

end Directory

namespace PairFile

/-- Written to one file, ordered into another and read back, the pairs come out in order. -/
def Survives (ps : List IdPair) : Prop :=
  ∀ (d : Directory) (input output : String), d.Takes input → d.Takes output →
    ∃ d₁ d₂, d.writePairs input ps = .ok d₁ ∧ d₁.reorderPairs input output = .ok (ps.length, d₂) ∧
      d₂.readPairs output = .ok (order ps)

theorem survives {ps : List IdPair} (h : ∀ q ∈ ps, Fits q) : Survives ps := by
  intro d input output hin hout
  obtain ⟨d₁, hwrite, hread, htakes⟩ := hin.exists_writePairs h
  have hordered : ∀ q ∈ order ps, Fits q := fun q hq => h q ((order_perm ps).subset hq)
  obtain ⟨d₂, hwrite₂, hread₂, -⟩ := (htakes output hout).exists_writePairs hordered
  refine ⟨d₁, d₂, hwrite, ?_, hread₂⟩
  rw [Directory.reorderPairs, hread]
  dsimp only [bind, Except.bind]
  rw [hwrite₂, (order_perm ps).length_eq]
  rfl

/-- Any pairs whose numbers fit into a word are read back from their text, and they survive being
written and ordered.  So do the pairs of a check plan, whose numbers count instructions. -/
theorem round_trip :
    (∀ ps : List IdPair, (∀ q ∈ ps, Fits q) → parse (render ps) = .ok ps ∧ Survives ps) ∧
    ∀ (p : Program) (r : RaceReport), p.Linked → p.insts.size ≤ UInt64.size →
      Survives (CheckPlan.ofReport p r).pairs := by
  refine ⟨fun ps h => ⟨parse_render h, survives h⟩, fun p r hp hsize => survives fun q hq => ?_⟩
  obtain ⟨hfst, hsnd⟩ := CheckPlan.lt_of_mem_pairs hp hq
  exact ⟨Nat.lt_of_lt_of_le hfst hsize, Nat.lt_of_lt_of_le hsnd hsize⟩

/-- A store and a load of a global, in a race. -/
def storeAndLoad : List Command :=
  [.global "g" 0, .const 1, .declare "main" 0, .body 0, .append 0 0 (.store 0 1),
    .append 0 0 (.load 0), .append 0 0 (.ret none)]

theorem round_trip_storeAndLoad :
    parse (render [(0, 18446744073709551615), (1, 0)]) = .ok [(0, 18446744073709551615), (1, 0)] ∧
    ∃ r d₁ d₂, (CheckPlan.ofReport (Builder.ofScript storeAndLoad) r).pairs = [(0, 1)] ∧
      Directory.writePairs {} "pairs" [(0, 1)] = .ok d₁ ∧
      d₁.reorderPairs "pairs" "ordered" = .ok (1, d₂) ∧
      d₂.readPairs "ordered" = .ok (order [(0, 1)]) := by
  have hp : (Builder.ofScript storeAndLoad).Linked :=
    (Builder.finished_ofScript (by decide +kernel)).linked
  have hfits : ∀ q ∈ [(0, 18446744073709551615), (1, 0)], Fits q := by
    unfold Fits
    decide
  have hsize : "pairs".utf8ByteSize ≤ 255 ∧ "ordered".utf8ByteSize ≤ 255 := by decide
  have hin : Directory.Takes {} "pairs" :=
    ⟨by simp [Directory.fault?, hsize], by unfold Directory.entry?; simp⟩
  have hout : Directory.Takes {} "ordered" :=
    ⟨by simp [Directory.fault?, hsize], by unfold Directory.entry?; simp⟩
  let r : RaceReport := { warnings := [⟨0, [], [], none, [0, 1], [(0, 1)], false⟩] }
  have hpairs : (CheckPlan.ofReport (Builder.ofScript storeAndLoad) r).pairs = [(0, 1)] := by
    decide +kernel
  obtain ⟨d₁, d₂, hwrite, horder, hread⟩ :=
    round_trip.2 _ r hp (by decide +kernel) {} "pairs" "ordered" hin hout
  rw [hpairs] at hwrite horder hread
  exact ⟨(round_trip.1 _ hfits).1, r, d₁, d₂, hpairs, hwrite, horder, hread⟩

end PairFile

end DataRace
