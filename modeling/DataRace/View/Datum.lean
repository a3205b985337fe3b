import DataRace.Flow.Induction
import DataRace.Log
import DataRace.Parallel.Point
import DataRace.PointsTo.Graph
import DataRace.Program.CodeSet
import DataRace.Statistics

/-!
# DataRace.View.Datum

Results as plain data, for tools that read them: numbers, texts, lists and
records.

Handles are their numbers, locations and predicates their texts.  Sets and
maps are lists in ascending order, tuples are lists, and a relation on a list
is shown as rows of bits.
-/

namespace DataRace

/-- Plain data. -/
inductive Datum where
  | null
  | bool (b : Bool)
  | int (n : Int)
  | text (s : String)
  | list (xs : List Datum)
  | record (fields : List (String × Datum))
deriving Inhabited

/-- Types with a form as plain data. -/
class View (α : Type) where
  view : α → Datum

export View (view)

/-- Types whose values can end a tuple; a tuple contributes all its components. -/
class ViewTail (α : Type) where
  viewTail : α → List Datum

namespace View

variable {α β : Type}

instance : View Datum := ⟨id⟩

instance : View Nat := ⟨fun n => .int n⟩

instance : View Int := ⟨.int⟩

instance : View Int64 := ⟨fun n => .int n.toInt⟩

instance : View Bool := ⟨.bool⟩

instance : View String := ⟨.text⟩

instance : View Unit := ⟨fun _ => .null⟩

instance [View α] : View (Option α) := ⟨fun
  | some a => view a
  | none => .null⟩

instance [View α] : View (List α) := ⟨fun xs => .list (xs.map view)⟩

instance [View α] : View (Array α) := ⟨fun xs => .list (xs.toList.map view)⟩

instance (priority := low) [View α] : ViewTail α := ⟨fun a => [view a]⟩

instance [View α] [ViewTail β] : ViewTail (α × β) :=
  ⟨fun (a, b) => view a :: ViewTail.viewTail b⟩

instance [View α] [ViewTail β] : View (α × β) :=
  ⟨fun (a, b) => .list (view a :: ViewTail.viewTail b)⟩

instance {c : α → α → Ordering} [View α] : View (Std.TreeSet α c) := ⟨fun s => view s.toList⟩

instance [View β] : View (IdMap β) := ⟨fun m => view m.toList⟩

instance : View Location := ⟨fun l => .text l.text⟩

instance : View Predicate := ⟨fun p => .text p.mnemonic⟩

instance : View Level := ⟨fun l => .text l.tag⟩

instance : View Phase := ⟨fun p => .text p.name⟩

instance : View Point := ⟨fun p => view (p.spawn, p.side.text)⟩

instance : View CodeSet := ⟨fun c =>
  .record [("f", view c.funcs), ("b", view c.blocks), ("i", view c.insts)]⟩

instance : View Term := ⟨fun
  | .const c => view ("c", c)
  | .value v => view ("v", v)⟩

instance : View Recurrence := ⟨fun r =>
  .record [("header", view r.header), ("start", view r.start), ("step", view r.step)]⟩

instance : View ExitCondition := ⟨fun c =>
  .record [("cmp", view c.cmp), ("indvar", view c.indvar), ("bound", view c.bound),
    ("pred", view c.pred)]⟩

instance : View EdgeKind := ⟨fun
  | .addr => .text "addr"
  | .copy => .text "copy"
  | .load => .text "load"
  | .store => .text "store"
  | .index => .text "vgep"
  | .field k => view ("gep", k)
  | .call s => view ("call", s)
  | .ret s => view ("ret", s)
  | .fork s => view ("fork", s)
  | .join s => view ("join", s)⟩

instance : View Edge := ⟨fun e => view (e.src, e.dst, e.kind)⟩

end View

/-- One bit for each element. -/
def bits (bs : List Bool) : Datum := .text (String.ofList (bs.map fun b => if b then '1' else '0'))

/-- A relation on a list, a row of bits for each element. -/
def bitMatrix (xs : List α) (r : α → α → Bool) : Datum :=
  .list (xs.map fun a => bits (xs.map (r a)))

end DataRace
