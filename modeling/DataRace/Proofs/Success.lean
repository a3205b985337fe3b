import Mathlib.Tactic.Common

/-!
# DataRace.Proofs.Success

Computations that succeed.

`Succeeds P x` says of a computation that may fail that it does not, and that
its result has a property.  A chain of computations succeeds when each of them
does wherever the one before leads.
-/

namespace DataRace

variable {ε α β : Type}

/-- A computation that succeeds does so step by step. -/
theorem exists_of_bind_eq_ok {x : Except ε α} {f : α → Except ε β} {b : β}
    (h : x >>= f = .ok b) : ∃ a, x = .ok a ∧ f a = .ok b := by
  cases x with
  | error e => cases h
  | ok a => exact ⟨a, rfl, h⟩

/-- A computation returns a result with a property. -/
def Succeeds (P : α → Prop) (x : Except ε α) : Prop := ∃ a, x = .ok a ∧ P a

namespace Succeeds

variable {P : α → Prop} {Q : β → Prop} {x : Except ε α} {f : α → Except ε β}

theorem ok {a : α} (h : P a) : Succeeds P (.ok a : Except ε α) := ⟨a, rfl, h⟩

theorem imp {P' : α → Prop} (h : Succeeds P x) (hP : ∀ a, P a → P' a) : Succeeds P' x := by
  obtain ⟨a, hx, ha⟩ := h
  exact ⟨a, hx, hP a ha⟩

theorem bind (hx : Succeeds P x) (hf : ∀ a, P a → Succeeds Q (f a)) : Succeeds Q (x >>= f) := by
  obtain ⟨a, rfl, ha⟩ := hx
  exact hf a ha

theorem foldlM {g : β → α → Except ε β} {xs : List α} {b : β} (hb : Q b)
    (hg : ∀ b, ∀ x ∈ xs, Q b → Succeeds Q (g b x)) : Succeeds Q (xs.foldlM g b) := by
  induction xs generalizing b with
  | nil => exact ok hb
  | cons x xs ih =>
    rw [List.foldlM_cons]
    exact (hg b x List.mem_cons_self hb).bind fun c hc =>
      ih hc fun c y hy => hg c y (List.mem_cons_of_mem x hy)

theorem mapM {xs : List α} (hf : ∀ x ∈ xs, Succeeds Q (f x)) :
    Succeeds (∀ y ∈ ·, Q y) (xs.mapM f) := by
  induction xs with
  | nil => exact ok nofun
  | cons x xs ih =>
    rw [List.mapM_cons]
    refine (hf x List.mem_cons_self).bind fun y hy => ?_
    refine (ih fun z hz => hf z (List.mem_cons_of_mem x hz)).bind fun ys hys => ok fun z hz => ?_
    exact (List.mem_cons.1 hz).elim (fun heq => heq ▸ hy) (hys z)

theorem filterMapM {g : α → Except ε (Option β)} {xs : List α}
    (hg : ∀ x ∈ xs, Succeeds (fun _ => True) (g x)) :
    Succeeds (fun _ => True) (xs.filterMapM g) := by
  induction xs with
  | nil => exact ok trivial
  | cons x xs ih =>
    rw [List.filterMapM_cons]
    refine (hg x List.mem_cons_self).bind fun o _ => ?_
    have hrest := ih fun y hy => hg y (List.mem_cons_of_mem x hy)
    cases o with
    | none => exact hrest
    | some y => exact hrest.bind fun _ _ => ok trivial

end Succeeds

end DataRace
