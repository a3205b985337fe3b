import DataRace.Proofs.Program.Finished

/-!
# DataRace.Proofs.Program.Script

Programs written down as the calls that build them.

`Builder.run` performs a list of calls and stops at a call with a handle that
was not handed out.  What it reaches is built (`built_of_foldlM`), so that a
program is finished is decided by running its script (`finished_ofScript`).
-/

namespace DataRace

/-- A call of the building interface. -/
inductive Command where
  | const (c : Int64)
  | null
  | global (name : String) (fields : Nat)
  | declare (name : String) (params : Nat)
  | body (f : FuncId)
  | block (f : FuncId)
  | append (f : FuncId) (b : BlockId) (op : Operation)
  | incoming (phi val : ValueId) (source : BlockId)
deriving DecidableEq, Inhabited

namespace Builder

instance (p : Program) (op : Operation) : Decidable (Knows p op) :=
  decidable_of_iff ((∀ v ∈ op.operands, v < p.values.size) ∧
      (∀ b ∈ op.successors, b < p.blocks.size) ∧
      op.callee?.all (fun f => decide (f < p.funcs.size)) = true) <| by
    simp only [Option.all_eq_true, decide_eq_true_eq]
    exact ⟨fun h => ⟨h.1, h.2.1, h.2.2⟩, fun h => ⟨h.operands, h.successors, h.callee⟩⟩

/-- Perform a call, unless a handle in it was not handed out. -/
def perform (b : Builder) : Command → Option Builder
  | .const c => some (Build.const c b).2
  | .null => some (Build.null b).2
  | .global name fields => some (Build.addGlobal name fields none b).2
  | .declare name params => some (Build.declare name params b).2
  | .body f => if f < b.program.funcs.size then some (Build.beginBody f b).2 else none
  | .block f => if f < b.program.funcs.size then some (Build.newBlock f b).2 else none
  | .append f bl op =>
    if (b.program.func f).blocks ≠ [] ∧ bl < b.program.blocks.size ∧ Knows b.program op then
      some (Build.append { func := f, block := bl } op b).2
    else
      none
  | .incoming phi val source =>
    if phi < b.program.values.size ∧ val < b.program.values.size then
      (b.addIncoming phi val source).toOption
    else
      none

/-- Perform calls one after the other. -/
def run (script : List Command) : Option Builder := script.foldlM perform {}

theorem Built.perform {b b' : Builder} (h : b.Built) {c : Command} (hb : b.perform c = some b') :
    b'.Built := by
  cases c with
  | const c => exact Option.some.inj hb ▸ h.const c
  | null => exact Option.some.inj hb ▸ h.null
  | global name fields => exact Option.some.inj hb ▸ h.addGlobal name fields none
  | declare name params => exact Option.some.inj hb ▸ h.declare name params
  | body f =>
    obtain ⟨hf, heq⟩ := Option.ite_none_right_eq_some.1 hb
    exact Option.some.inj heq ▸ h.beginBody f hf
  | block f =>
    obtain ⟨hf, heq⟩ := Option.ite_none_right_eq_some.1 hb
    exact Option.some.inj heq ▸ h.newBlock f hf
  | append f bl op =>
    obtain ⟨⟨hf, hbl, hop⟩, heq⟩ := Option.ite_none_right_eq_some.1 hb
    exact Option.some.inj heq ▸ h.append { func := f, block := bl } op hf hbl hop
  | incoming phi val source =>
    obtain ⟨⟨hphi, hval⟩, heq⟩ := Option.ite_none_right_eq_some.1 hb
    cases hadd : b.addIncoming phi val source with
    | error e => simp [hadd, Except.toOption] at heq
    | ok b'' =>
      simp only [hadd, Except.toOption, Option.some.injEq] at heq
      exact h.addIncoming phi val source hphi hval (heq ▸ hadd)

theorem built_of_foldlM {script : List Command} {b b' : Builder} (h : b.Built)
    (hrun : script.foldlM Builder.perform b = some b') : b'.Built := by
  induction script generalizing b with
  | nil => exact Option.some.inj hrun ▸ h
  | cons c script ih =>
    rw [List.foldlM_cons] at hrun
    obtain ⟨b'', hfirst, hrest⟩ := Option.bind_eq_some_iff.1 hrun
    exact ih (h.perform hfirst) hrest

/-- Whether a script builds a program without a defect. -/
def completes (script : List Command) : Bool :=
  (run script).any fun b => (b.defect <|> tableDefect b.program).isNone

/-- The program a script builds. -/
def ofScript (script : List Command) : Program :=
  ((run script).map fun b => link b.program).getD default

theorem finished_ofScript {script : List Command} (h : completes script = true) :
    (ofScript script).Finished := by
  unfold completes at h
  cases hrun : run script with
  | none => simp [hrun] at h
  | some b =>
    rw [hrun, Option.any_some, Option.isNone_iff_eq_none] at h
    refine ⟨b, built_of_foldlM .start hrun, ?_⟩
    rw [finish, h, ofScript, hrun]
    rfl

end Builder

/-- A result that was evaluated. -/
theorem exists_of_any_toOption {ε α : Type} {x : Except ε α} {P : α → Bool}
    (h : x.toOption.any P = true) : ∃ a, x = .ok a ∧ P a = true := by
  cases x with
  | error e => cases h
  | ok a => exact ⟨a, rfl, h⟩

end DataRace
