import DataRace.Proofs.Barrier.Sites
import DataRace.Proofs.PointsTo.Casts
import DataRace.Proofs.PointsTo.Denote
import DataRace.Proofs.PointsTo.Params

/-!
# DataRace.Proofs.Barrier.Single

Which barrier object separates two instructions.

The sides of a barrier belong to the pointer that some wait is called with.  All
calls of a function that waits at its parameter bring that pointer, though each
may pass another barrier.  So the two sides are those of one barrier only if the
pointer denotes one object.

* `PointsTo.denotes_param_iff` — when the parameter of a wrapper does;
* `separates_single_iff` — when instructions are separated by one barrier object;
* `mustAlias_of_denotes` — waits at one object each are enough, however many calls
  are in between;
* `not_forall_separates_single` — two barriers that one function waits at.
-/

namespace DataRace

open Std

namespace PointsTo

variable {t : PointsTo} {v o : Nat}

/-- Casts around a pointer do not change what it denotes. -/
theorem denotes_stripCasts_iff {p : Program} {variableIndex : Bool} (hp : p.Finished)
    (h : analyze p variableIndex = .ok t) (hv : v < p.values.size) :
    t.Denotes (p.stripCasts v) o ↔ t.Denotes v o := by
  have hmem {x : Nat} : x ∈ t.of (p.stripCasts v) ↔ x ∈ t.of v := mem_of_stripCasts_iff hp h hv
  constructor
  · exact fun hd => ⟨hmem.symm.trans hd.mem_iff, hd.once⟩
  · exact fun hd => ⟨hmem.trans hd.mem_iff, hd.once⟩

/-- A parameter denotes an object exactly if all that is passed for it together points to that
object and to nothing else. -/
theorem denotes_param_iff {p : Program} {variableIndex : Bool} {f : FuncId} (hp : p.Finished)
    (h : analyze p variableIndex = .ok t) (hv : v ∈ (p.func f).params) : t.Denotes v o ↔
      t.ExistsOnce o ∧ (∃ a, Passes p t a v ∧ o ∈ t.of a) ∧
        ∀ a, Passes p t a v → ∀ x ∈ t.of a, x = o := by
  have hmem {x : Nat} := mem_of_param_iff (o := x) hp h hv
  constructor
  · intro hd
    refine ⟨hd.once, hmem.1 (hd.mem_iff.2 rfl), fun a ha x hx => ?_⟩
    exact hd.mem_iff.1 (hmem.2 ⟨a, ha, hx⟩)
  · rintro ⟨honce, hpassed, hall⟩
    refine ⟨fun {x} => ⟨fun hx => ?_, fun heq => heq ▸ hmem.2 hpassed⟩, honce⟩
    obtain ⟨a, ha, hx⟩ := hmem.1 hx
    exact hall a ha x hx

end PointsTo

namespace Barriers

variable {s : Subject} {p : Program} {c : Config} {i j : InstId}

/-- The sides of a barrier separate two instructions. -/
def SeparatedBy (s : Subject) (x : ValueId) (i j : InstId) : Prop :=
  ∃ y, (analyze s).sides[x]? = some y ∧ y.separates s.program i j = true

theorem separates_iff : (analyze s).separates s.program i j = true ↔ ∃ x, SeparatedBy s x i j := by
  rw [separates, IdMap.any_iff]
  rfl

/-- A wait in a function that is analysed, with the pointer it is called with. -/
structure LiveWait (s : Subject) (w : InstId) (ptr : ValueId) : Prop where
  visited : ∃ f, s.Visits f ∧ w ∈ s.program.funcInsts f
  isWait : s.program.isBarrierWait w = true
  pointer : s.program.barrierPtr w = some ptr

theorem exists_liveWait_of_separatedBy {x : ValueId} (h : SeparatedBy s x i j) :
    ∃ w ptr, LiveWait s w ptr ∧ s.program.stripCasts ptr = x := by
  obtain ⟨y, hy, -⟩ := h
  obtain ⟨f, w, hf, hw, hwait, ptr, hptr, rfl⟩ :=
    waitedFor_of_mem_sides (IdMap.mem_iff_exists_getElem?.2 ⟨y, hy⟩)
  exact ⟨w, ptr, ⟨⟨f, hf, hw⟩, hwait, hptr⟩, rfl⟩

/-- The name of a barrier must alias itself exactly if the pointer of the wait denotes one
object. -/
theorem mustAlias_stripCasts_iff (hp : p.Finished) (h : s.Prepared p c) {w : InstId} {ptr : ValueId}
    (hw : LiveWait s w ptr) : s.pointers.mustAlias (s.program.stripCasts ptr)
      (s.program.stripCasts ptr) = true ↔ ∃ o, s.pointers.Denotes ptr o := by
  obtain rfl := h.program
  have hlt : ptr < s.program.values.size := Program.entryArg_lt hp.wellFormed hw.pointer
  rw [PointsTo.mustAlias_self_iff]
  exact exists_congr fun o => PointsTo.denotes_stripCasts_iff hp h.pointers hlt

/-- **One barrier separates**: instructions that are separated at all are separated by the sides of
a barrier that must alias itself exactly if one of the waits whose sides separate them is called
with a pointer that denotes one object. -/
theorem separates_single_iff (hp : p.Finished) (hs : Subject.prepare p c = .ok s) :
    ((analyze s).separates s.program i j = true →
      ∃ x, SeparatedBy s x i j ∧ s.pointers.mustAlias x x = true) ↔
    ((analyze s).separates s.program i j = true → ∃ w ptr o, LiveWait s w ptr ∧
      SeparatedBy s (s.program.stripCasts ptr) i j ∧ s.pointers.Denotes ptr o) := by
  have h := Subject.prepared hs
  refine imp_congr_right fun _ => ?_
  constructor
  · rintro ⟨x, hx, halias⟩
    obtain ⟨w, ptr, hw, rfl⟩ := exists_liveWait_of_separatedBy hx
    obtain ⟨o, ho⟩ := (mustAlias_stripCasts_iff hp h hw).1 halias
    exact ⟨w, ptr, o, hw, hx, ho⟩
  · rintro ⟨w, ptr, o, hw, hx, ho⟩
    exact ⟨_, hx, (mustAlias_stripCasts_iff hp h hw).2 ⟨o, ho⟩⟩

/-- Where each wait is called with a pointer that denotes one object, every barrier that separates
instructions must alias itself, however many calls are between it and them. -/
theorem mustAlias_of_denotes (hp : p.Finished) (h : s.Prepared p c)
    (hwaits : ∀ w ptr, LiveWait s w ptr → ∃ o, s.pointers.Denotes ptr o) {x : ValueId}
    (hx : SeparatedBy s x i j) : s.pointers.mustAlias x x = true := by
  obtain ⟨w, ptr, hw, rfl⟩ := exists_liveWait_of_separatedBy hx
  exact (mustAlias_stripCasts_iff hp h hw).2 (hwaits w ptr hw)

/-- Two threads wait through one function, `main` at the barrier with the given address. -/
def waitThroughCall (second : ValueId) : Program := Builder.ofScript
  [.global "t" 0, .global "g" 0, .global "a" 0, .global "b" 0, .declare "sync" 1,
    .declare "worker" 1, .declare "main" 0, .declare "thread_create" 3, .declare "barrier_wait" 1,
    .const 1, .null, .body 0, .append 0 0 (.call (.direct 4) [5]), .append 0 0 (.ret none),
    .body 1, .append 1 1 (.call (.direct 0) [2]), .append 1 1 (.load 1), .append 1 1 (.ret none),
    .body 2, .append 2 2 (.call (.direct 3) [0, 6, 16]), .append 2 2 (.store 1 15),
    .append 2 2 (.call (.direct 0) [second]), .append 2 2 (.ret none)]

/-- When both wait at the same barrier, its sides separate the write from the read. -/
theorem separates_single_waitThroughCall : ∃ s, Subject.prepare (waitThroughCall 2) {} = .ok s ∧
    (analyze s).separates s.program 3 6 = true ∧
    ∃ x, SeparatedBy s x 3 6 ∧ s.pointers.mustAlias x x = true := by
  have heval : (Subject.prepare (waitThroughCall 2) {}).toOption.any (fun s =>
      (analyze s).separates s.program 3 6 &&
        (analyze s).sides[5]?.any (·.separates s.program 3 6) && s.program.stripCasts 5 == 5 &&
        s.bottomUp.any (fun k => (s.components.get k).members.contains 0) &&
        (s.program.funcInsts 0).contains 0 && s.program.isBarrierWait 0 &&
        s.program.barrierPtr 0 == some 5 && s.pointers.only? 5 == some 2 &&
        !(s.pointers.obj 2).isUnknown && !(s.pointers.obj 2).isHeap &&
        !(s.pointers.obj 2).isFunction && !s.pointers.objs.isArray 2) = true := by
    decide +kernel
  obtain ⟨s, hs, heval⟩ := exists_of_any_toOption heval
  simp only [Bool.and_eq_true, Bool.not_eq_true', beq_iff_eq, List.any_eq_true,
    List.contains_iff_mem, Option.any_eq_true] at heval
  obtain ⟨⟨⟨⟨⟨⟨⟨⟨⟨⟨⟨hsep, y, hy, hsides⟩, hstrip⟩, k, hk, hf⟩, hw⟩, hwait⟩, hptr⟩, hone⟩, hknown⟩,
    hheap⟩, hfun⟩, harray⟩ := heval
  refine ⟨s, hs, hsep, (separates_single_iff (Builder.finished_ofScript (by decide +kernel)) hs).2
    (fun _ => ⟨0, 5, 2, ⟨⟨0, ⟨k, hk, hf⟩, hw⟩, hwait, hptr⟩, ?_, ?_⟩) hsep⟩
  · rw [hstrip]
    exact ⟨y, hy, hsides⟩
  · exact ⟨PointsTo.only?_eq_some_iff.1 hone, ⟨hknown, hheap, hfun, harray⟩⟩

/-- The sides of the parameter that two barriers are passed for separate what no barrier does. -/
theorem not_forall_separates_single : ¬∀ (p : Program) (c : Config) (s : Subject) (i j : InstId),
    p.Finished → Subject.prepare p c = .ok s → (analyze s).separates s.program i j = true →
      ∃ x, SeparatedBy s x i j ∧ s.pointers.mustAlias x x = true := by
  intro hall
  have heval : (Subject.prepare (waitThroughCall 3) {}).toOption.any (fun s =>
      (analyze s).separates s.program 3 6 &&
        (analyze s).sides.keys.all fun x => !s.pointers.mustAlias x x) = true := by
    decide +kernel
  obtain ⟨s, hs, heval⟩ := exists_of_any_toOption heval
  simp only [Bool.and_eq_true, List.all_eq_true, Bool.not_eq_true'] at heval
  obtain ⟨x, ⟨y, hy, -⟩, halias⟩ :=
    hall _ _ s 3 6 (Builder.finished_ofScript (by decide +kernel)) hs heval.1
  have hkey : x ∈ (analyze s).sides.keys :=
    TreeMap.mem_keys.2 (IdMap.mem_iff_exists_getElem?.2 ⟨y, hy⟩)
  rw [heval.2 x hkey] at halias
  cases halias

end Barriers

end DataRace
