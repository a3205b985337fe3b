import DataRace.Guard.Basic
import DataRace.Proofs.Flow.BlockPath
import DataRace.Proofs.Subject

/-!
# DataRace.Proofs.Guard.Outcome

When a guard holds on every path.

A guard is read off a branch of which one successor dominates the guarded block.
That every path there leaves the branch for the last time towards this successor
means that control gets to the successor from the branch only, or from blocks
behind the successor.  The test of the frontier excludes that the other
successor merges there, but not that further ways around the branch do.

* `Program.EnteredBy` — the way from a branch to its successor is the way in;
* `Program.Linked.forall_leavesBy_iff` — this is what it takes to leave the branch
  on every path;
* `Session.guard_forced_iff` — so a guard holds on every path exactly then;
* `Session.not_forall_guard_forced` — a store behind a nested conditional is guarded
  although one path goes around the branch.
-/

namespace DataRace

namespace Program

/-- A path leaves a block for the last time towards another one. -/
def LeavesBy (w : List BlockId) (b d : BlockId) : Prop :=
  ∃ pre post, w = pre ++ b :: d :: post ∧ b ∉ (d :: post).dropLast

/-- Control gets to a block that is not the entry from another one, or from behind it. -/
structure EnteredBy (p : Program) (f : FuncId) (b d : BlockId) : Prop where
  not_entry : (p.func f).entry ≠ some d
  pred : ∀ a ∈ (p.block d).preds, (∃ w, p.EntryPath f w a) → a = b ∨ PathDom (p.EntryPath f) d a

variable {p : Program} {f : FuncId} {u v w : List BlockId} {a b c d : Nat}

theorem mem_dropLast : b ∈ (u ++ b :: d :: v).dropLast := by
  rw [List.dropLast_append_cons, List.dropLast_cons_cons]
  exact List.mem_append_right _ List.mem_cons_self

/-- A block that a path leaves is left for a last time. -/
theorem exists_leave (h : b ∈ w.dropLast) :
    ∃ pre x post, w = pre ++ b :: x :: post ∧ b ∉ (x :: post).dropLast := by
  induction w with
  | nil => cases h
  | cons a w ih =>
    cases w with
    | nil => cases h
    | cons x post =>
      by_cases hlater : b ∈ (x :: post).dropLast
      · obtain ⟨pre, y, rest, heq, hnot⟩ := ih hlater
        exact ⟨a :: pre, y, rest, congrArg (a :: ·) heq, hnot⟩
      · rw [List.dropLast_cons_cons] at h
        obtain rfl := (List.mem_cons.1 h).resolve_right hlater
        exact ⟨[], x, post, rfl, hlater⟩

/-- A path that first gets to such a block comes from the other one. -/
theorem EnteredBy.getLast?_eq (hp : p.Linked) (h : p.EnteredBy f b d)
    (hw : p.EntryPath f (u ++ d :: v) c) (hd : d ∉ u) : u.getLast? = some b := by
  rcases u.eq_nil_or_concat' with rfl | ⟨u, a, rfl⟩
  · exact absurd hw.starts.symm h.not_entry
  · rw [List.append_assoc, List.singleton_append] at hw
    obtain ⟨hto, hfrom⟩ := entryPath_append_cons_iff.1 hw
    have hedge := (List.isChain_cons_cons.1 hfrom.chain).1
    rcases h.pred a (hp.mem_preds_iff.2 hedge) ⟨_, hto⟩ with rfl | hdom
    · exact List.getLast?_concat
    · exact absurd (hdom.mem _ hto) hd

namespace Linked

variable (hp : p.Linked)
include hp

/-- If control gets to a block from a branch, what the block dominates is reached from there. -/
theorem leavesBy_of_enteredBy (h : p.EnteredBy f b d) (hw : p.EntryPath f w c)
    (hd : ∀ w, p.EntryPath f w c → d ∈ w) : LeavesBy w b d := by
  -- `b` is left towards `d` at least once, and a path to `b` avoids `d`
  obtain ⟨u, v, hsplit, hnot⟩ := List.eq_append_cons_of_mem (hd w hw)
  obtain ⟨pre, rfl⟩ := List.getLast?_eq_some_iff.1 (h.getLast?_eq hp (hsplit ▸ hw) hnot)
  rw [List.append_assoc, List.singleton_append] at hsplit
  have hto := (entryPath_append_cons_iff.1 (hsplit ▸ hw)).1
  obtain ⟨first, x, post, hlast, hafter⟩ := exists_leave (hsplit ▸ mem_dropLast : b ∈ w.dropLast)
  suffices heq : x = d from ⟨first, post, heq ▸ hlast, heq ▸ hafter⟩
  by_contra hne
  -- go on from the first visit of `b` as from the last one
  have hfrom := (entryPath_append_cons_iff.1 (hlast ▸ hw)).2
  have hpath := entryPath_append_cons_iff.2 ⟨hto, hfrom⟩
  have hmem : d ∈ x :: post := by
    refine (List.mem_append.1 (?_ : d ∈ (pre ++ [b]) ++ x :: post)).resolve_left hnot
    rw [List.append_assoc]
    exact hd _ hpath
  obtain ⟨u, v, hrest, hd⟩ := List.eq_append_cons_of_mem hmem
  have hu : u ≠ [] := by
    rintro rfl
    exact hne (List.cons.inj hrest).1
  have hback : ((pre ++ [b]) ++ u).getLast? = some b := by
    refine h.getLast?_eq hp (v := v) (c := c) ?_ ?_
    · rw [List.append_assoc, ← hrest, List.append_assoc]
      exact hpath
    · exact fun h => (List.mem_append.1 h).elim hnot hd
  rw [List.getLast?_append_of_ne_nil _ hu] at hback
  rw [hrest, List.dropLast_append_cons] at hafter
  exact hafter (List.mem_append_left _ (List.mem_of_getLast? hback))

/-- If every path leaves a branch for the last time towards a block, control gets there from the
branch. -/
theorem enteredBy_of_leavesBy (hw : p.EntryPath f w c)
    (hall : ∀ w, p.EntryPath f w c → LeavesBy w b d) : p.EnteredBy f b d := by
  obtain ⟨pre, post, rfl, hnot⟩ := hall w hw
  rw [List.append_cons] at hw
  obtain ⟨hto, hfrom⟩ := entryPath_append_cons_iff.1 hw
  constructor
  case not_entry =>
    intro hentry
    obtain ⟨pre', post', heq, -⟩ := hall (d :: post) ⟨hfrom.chain, hentry.symm, hfrom.ends⟩
    exact hnot (heq ▸ mem_dropLast)
  case pred =>
    intro a ha hreach
    by_contra hother
    obtain ⟨hne, hdom⟩ := not_or.1 hother
    obtain ⟨u, hu, hd⟩ : ∃ u, p.EntryPath f u a ∧ d ∉ u := by
      by_contra hpaths
      push Not at hpaths
      exact hdom ⟨⟨_, hto⟩, hreach, hpaths⟩
    -- a path around the branch, continued as before
    obtain ⟨pre', post', heq, hnot'⟩ := hall _ (hu.append (hp.mem_preds_iff.1 ha) hfrom)
    rcases List.append_eq_append_iff.1 heq with ⟨rest, -, hrest⟩ | ⟨rest, rfl, hrest⟩
    · exact hnot (hrest ▸ mem_dropLast)
    · match rest with
      | [] =>
        rw [List.nil_append] at hrest
        exact hnot (hrest ▸ List.dropLast_cons_cons ▸ List.mem_cons_self)
      | [x] =>
        obtain ⟨rfl, -⟩ := List.cons.inj hrest
        exact hne (Option.some.inj (hu.ends.symm.trans List.getLast?_concat))
      | x :: y :: rest =>
        obtain ⟨-, hrest⟩ := List.cons.inj hrest
        obtain ⟨rfl, -⟩ := List.cons.inj hrest
        exact hd (List.mem_append_right _ (List.mem_cons_of_mem x List.mem_cons_self))

/-- **Every path to a block leaves a branch for the last time towards a dominator** exactly if
control gets to the dominator from the branch. -/
theorem forall_leavesBy_iff (hd : PathDom (p.EntryPath f) d c) :
    (∀ w, p.EntryPath f w c → LeavesBy w b d) ↔ p.EnteredBy f b d := by
  refine ⟨fun hall => ?_, fun h w hw => hp.leavesBy_of_enteredBy h hw hd.mem⟩
  obtain ⟨w, hw⟩ := hd.right
  exact hp.enteredBy_of_leavesBy hw hall

end Linked

/-- The block where a branch goes by its condition. -/
def takenAt (p : Program) (b : BlockId) (hold : Bool) : Option BlockId :=
  match (p.block b).terminator.map p.op with
  | some (.branch _ whenTrue whenFalse) => some (if hold then whenTrue else whenFalse)
  | _ => none

end Program

/-! ## the branches of guards -/

namespace Subject

variable {φ ε : Type} {p : Program} {c : Config} {s : Subject} {read : Guard.Reader φ ε}
  {dst b : Nat} {hold : Bool} {cond : ValueId} {g : Guard φ ε}

/-- A guard of a block is read off the branch at the end of another block, as its condition holds or
not. -/
def GuardFrom (s : Subject) (read : Guard.Reader φ ε) (dst b : BlockId) (hold : Bool)
    (g : Guard φ ε) : Prop :=
  b ∈ s.blocksTo dst ∧ ∃ cond, s.outcomeBefore? dst b = some (cond, hold) ∧ read cond hold = some g

theorem mem_guardsAt_iff : g ∈ s.guardsAt read dst ↔ ∃ b hold, s.GuardFrom read dst b hold g := by
  simp only [guardsAt, outcomesTo, List.mem_filterMap, GuardFrom]
  constructor
  · rintro ⟨⟨cond, hold⟩, ⟨b, hb, hout⟩, hread⟩
    exact ⟨b, hold, hb, cond, hout, hread⟩
  · rintro ⟨b, hold, hb, cond, hout, hread⟩
    exact ⟨(cond, hold), ⟨b, hb, hout⟩, hread⟩

/-- The outcome of a branch leads to a dominator of the guarded block. -/
theorem dominates_of_outcomeBefore (h : s.outcomeBefore? dst b = some (cond, hold)) :
    ∃ d, s.program.takenAt b hold = some d ∧
      (s.flow (s.program.block dst).func).dom.dominates d dst = true := by
  rw [outcomeBefore?] at h
  split at h
  · next cond' whenTrue whenFalse hterm =>
    rw [Option.ite_none_left_eq_some, Bool.or_eq_true, not_or, beq_iff_eq] at h
    obtain ⟨⟨hne, -⟩, heq⟩ := h
    obtain ⟨-, rfl⟩ := Prod.mk.inj (Option.some.inj heq)
    refine ⟨_, by rw [Program.takenAt, hterm], ?_⟩
    split
    · assumption
    · next hfalse =>
      rw [Bool.not_eq_true] at hfalse
      rw [hfalse] at hne
      exact Bool.eq_true_of_not_eq_false (Ne.symm hne)
  · cases h

/-- The function of a guarded block has an entry. -/
theorem func_lt_of_mem_blocksTo (h : b ∈ s.blocksTo dst) :
    (s.program.block dst).func < s.program.funcs.size := by
  rw [blocksTo] at h
  by_contra hle
  have hnone : (s.program.func (s.program.block dst).func).entry = none := by
    rw [Program.func, Array.getD_eq_getD_getElem?, Array.getElem?_eq_none (Nat.le_of_not_lt hle)]
    rfl
  rw [hnone] at h
  cases h

theorem Prepared.pathDom_of_guardFrom (hs : s.Prepared p c) (hp : p.Linked)
    (h : s.GuardFrom read dst b hold g) :
    ∃ d, p.takenAt b hold = some d ∧ PathDom (p.EntryPath (p.block dst).func) d dst := by
  obtain ⟨hb, cond, hout, -⟩ := h
  obtain ⟨d, htaken, hdom⟩ := dominates_of_outcomeBefore hout
  have hlt := func_lt_of_mem_blocksTo hb
  rw [hs.program] at htaken hdom hlt
  rw [hs.flow hlt] at hdom
  exact ⟨d, htaken, hp.pathDom_iff.2 (hp.dominates_iff.1 hdom)⟩

end Subject

namespace Session

/-- **A guard holds on every path** to a block, which leaves the branch for the last time as the
guard says, exactly if control gets to where it then goes from the branch. -/
theorem guard_forced_iff {calls : List Call} {p : Program} {c : Config} {s : Subject}
    (h : build calls = .ok p) (hs : Subject.prepare p c = .ok s) {φ ε : Type}
    (read : Guard.Reader φ ε) (dst : BlockId) (g : Guard φ ε) :
    (g ∈ s.guardsAt read dst ↔ ∃ b hold, s.GuardFrom read dst b hold g) ∧
    ∀ b hold, s.GuardFrom read dst b hold g → ∃ d, p.takenAt b hold = some d ∧
      ((∀ w, p.EntryPath (p.block dst).func w dst → Program.LeavesBy w b d) ↔
        p.EnteredBy (p.block dst).func b d) := by
  have hp := linked_of_build h
  refine ⟨Subject.mem_guardsAt_iff, fun b hold hfrom => ?_⟩
  obtain ⟨d, htaken, hdom⟩ := (Subject.prepared hs).pathDom_of_guardFrom hp hfrom
  exact ⟨d, htaken, hp.forall_leavesBy_iff hdom⟩

/-- A conditional that may return from within, before a store. -/
def earlyReturn : List Call :=
  [.global "n" 0 none, .declare "main" 0, .const 0, .const 1, .body 0, .newBlock, .newBlock,
    .newBlock, .append (.load 0), .append (.compare .eq 4 2), .append (.branch 5 1 2),
    .positionAt 1, .append (.load 0), .append (.compare .eq 6 3), .append (.branch 7 2 3),
    .positionAt 2, .append (.store 0 3), .append (.jump 3), .positionAt 3, .append (.ret none)]

/-- The outer branch guards what is within, the inner one the store. -/
theorem exists_earlyReturn : ∃ p s, build earlyReturn = .ok p ∧ Subject.prepare p {} = .ok s ∧
    ((p.func 0).entry = some 0 ∧ (p.block 1).func = 0 ∧ (p.block 2).func = 0) ∧
    ((p.block 1).preds = [0] ∧ 0 ∈ (p.block 2).preds) ∧
    (p.takenAt 0 true = some 1 ∧ ∃ g, s.GuardFrom (Comparison.read p) 1 0 true g) ∧
    (p.takenAt 1 true = some 2 ∧ ∃ g, s.GuardFrom (Comparison.read p) 2 1 true g) := by
  obtain ⟨p, h, hp⟩ := exists_of_any_toOption (x := build earlyReturn)
    (P := fun p =>
      decide (((p.func 0).entry = some 0 ∧ (p.block 1).func = 0 ∧ (p.block 2).func = 0) ∧
        ((p.block 1).preds = [0] ∧ 0 ∈ (p.block 2).preds) ∧
        p.takenAt 0 true = some 1 ∧ p.takenAt 1 true = some 2 ∧
        (Comparison.read p 5 true).isSome ∧ (Comparison.read p 7 true).isSome) &&
      (Subject.prepare p {}).toOption.any fun s : Subject => decide (
        0 ∈ s.blocksTo 1 ∧ 1 ∈ s.blocksTo 2 ∧ s.outcomeBefore? 1 0 = some (5, true) ∧
        s.outcomeBefore? 2 1 = some (7, true)))
    (by decide +kernel)
  rw [Bool.and_eq_true, decide_eq_true_eq] at hp
  obtain ⟨⟨hfunc, hpreds, htaken, htaken', hread, hread'⟩, hs⟩ := hp
  obtain ⟨s, hs, hfrom⟩ := exists_of_any_toOption hs
  rw [decide_eq_true_eq] at hfrom
  obtain ⟨hb, hb', hout, hout'⟩ := hfrom
  obtain ⟨g, hg⟩ := Option.isSome_iff_exists.1 hread
  obtain ⟨g', hg'⟩ := Option.isSome_iff_exists.1 hread'
  exact ⟨p, s, h, hs, hfunc, hpreds, ⟨htaken, g, hb, 5, hout, hg⟩, htaken', g', hb', 7, hout', hg'⟩

theorem guard_forced_earlyReturn : ∃ p s, build earlyReturn = .ok p ∧ Subject.prepare p {} = .ok s ∧
    (∃ g ∈ s.guardsAt (Comparison.read p) 1, s.GuardFrom (Comparison.read p) 1 0 true g ∧
      ∀ w, p.EntryPath 0 w 1 → Program.LeavesBy w 0 1) ∧
    ∃ g ∈ s.guardsAt (Comparison.read p) 2, s.GuardFrom (Comparison.read p) 2 1 true g ∧
      ¬∀ w, p.EntryPath 0 w 2 → Program.LeavesBy w 1 2 := by
  obtain ⟨p, s, h, hs, ⟨hentry, hfunc, hfunc'⟩, ⟨hpreds, hpred⟩, ⟨htaken, g, hg⟩,
    htaken', g', hg'⟩ :=
    exists_earlyReturn
  have hpath : p.EntryPath 0 [0] 0 := ⟨List.isChain_singleton 0, hentry.symm, rfl⟩
  obtain ⟨hiff, hforced⟩ := guard_forced_iff h hs (Comparison.read p) 1 g
  obtain ⟨hiff', hforced'⟩ := guard_forced_iff h hs (Comparison.read p) 2 g'
  refine ⟨p, s, h, hs, ⟨g, hiff.2 ⟨0, true, hg⟩, hg, ?_⟩, g', hiff'.2 ⟨1, true, hg'⟩, hg', ?_⟩
  · obtain ⟨d, hd, hleaves⟩ := hforced 0 true hg
    obtain rfl := Option.some.inj (htaken.symm.trans hd)
    rw [hfunc] at hleaves
    refine hleaves.2 ⟨by rw [hentry]; decide, fun a ha _ => .inl ?_⟩
    exact List.mem_singleton.1 (hpreds ▸ ha)
  · obtain ⟨d, hd, hleaves⟩ := hforced' 1 true hg'
    obtain rfl := Option.some.inj (htaken'.symm.trans hd)
    rw [hfunc'] at hleaves
    intro hall
    rcases (hleaves.1 hall).pred 0 hpred ⟨_, hpath⟩ with heq | hdom
    · cases heq
    · cases List.mem_singleton.1 (hdom.mem _ hpath)

/-- The store is guarded by the branch before the return, and a path goes around that branch. -/
theorem not_forall_guard_forced :
    ¬∀ calls p c s, build calls = .ok p → Subject.prepare p c = .ok s →
    ∀ dst, (∃ w, p.EntryPath (p.block dst).func w dst) → ∀ b hold g,
      s.GuardFrom (Comparison.read p) dst b hold g → ∃ d, p.takenAt b hold = some d ∧
        ∀ w, p.EntryPath (p.block dst).func w dst → Program.LeavesBy w b d := by
  intro hall
  obtain ⟨p, s, h, hs, ⟨hentry, -, hfunc⟩, ⟨-, hpred⟩, -, -, g, hg⟩ := exists_earlyReturn
  have hedge := (linked_of_build h).mem_preds_iff.1 hpred
  have hpath : p.EntryPath (p.block 2).func [0, 2] 2 :=
    ⟨List.isChain_pair.2 hedge, by rw [hfunc, hentry]; rfl, rfl⟩
  obtain ⟨d, -, hleaves⟩ := hall earlyReturn p {} s h hs 2 ⟨_, hpath⟩ 1 true g hg
  obtain ⟨pre, post, heq, -⟩ := hleaves _ hpath
  have hmem : 1 ∈ [0, 2] := heq ▸ List.mem_append_right pre List.mem_cons_self
  revert hmem
  decide

end Session

end DataRace
