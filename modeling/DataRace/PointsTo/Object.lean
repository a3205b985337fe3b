import DataRace.Error
import DataRace.Program.Basic

/-!
# DataRace.PointsTo.Object

Abstract memory objects.

An aggregate is a base object followed in the table by one object for each of
its fields.  Projecting by a constant moves inside that block of fields and
falls back to the base when it leaves it.
-/

namespace DataRace

/-- A memory object, by its position in the object table. -/
abbrev ObjId := Nat

/-- The part of memory an object lies in. -/
inductive Region where
  | heap
  | global
  | stack
  | function
  /-- Memory nothing is known about. -/
  | unknown
deriving DecidableEq, Inhabited

/-- Where an object comes from. -/
inductive Origin where
  | alloc (i : InstId)
  | global (g : GlobalId)
  | function (f : FuncId)
  | unknown
deriving DecidableEq, Inhabited

/-- An abstract memory object. -/
structure MemObject where
  region : Region
  origin : Origin
  /-- The object it is a field of; a base object is its own base. -/
  base : ObjId
  /-- The field it is, for objects inside an aggregate. -/
  field : Option Nat := none
  /-- The number of fields of a base object. -/
  fieldCount : Nat := 0
  /-- The function that allocates it. -/
  func : Option FuncId := none
  loc : Option Location := none
  name : String
  /-- Indexed with a variable somewhere. -/
  array : Bool := false
deriving Inhabited

namespace MemObject

def isHeap (o : MemObject) : Bool := o.region = .heap

def isGlobal (o : MemObject) : Bool := o.region = .global

def isUnknown (o : MemObject) : Bool := o.region = .unknown

def isFunction (o : MemObject) : Bool := o.region = .function

/-- Whether the object starts where its base does: it is the base or the field at offset 0. -/
def isFirstField (o : MemObject) : Bool := o.field.all (· = 0)

/-- The classification as a number: one bit for the region, one for a field, one for an array. -/
def flags (o : MemObject) : Nat :=
  (match o.region with
    | .heap => 1
    | .global => 2
    | .stack => 4
    | .function => 8
    | .unknown => 16) +
  (if o.field.isSome then 32 else 0) + (if o.array then 64 else 0)

end MemObject

/-- All memory objects. -/
structure ObjectTable where
  objs : Array MemObject := #[]
  /-- The object that stands for unknown memory, once it is asked for. -/
  unknown? : Option ObjId := none
deriving Inhabited

namespace ObjectTable

def size (t : ObjectTable) : Nat := t.objs.size

def get (t : ObjectTable) (o : ObjId) : MemObject := t.objs.getD o default

/-- Add a base object and its fields; answers the base. -/
def add (t : ObjectTable) (region : Region) (origin : Origin) (fields : Nat) (func : Option FuncId)
    (loc : Option Location) (name : String) : ObjId × ObjectTable :=
  let base := t.objs.size
  let root : MemObject := { region, origin, base, fieldCount := fields, func, loc, name }
  let field (k : Nat) : MemObject :=
    { region, origin, base, field := some k, func, loc, name := s!"{name}.{k}" }
  (base, { t with
    objs := (List.range fields).foldl (fun objs k => objs.push (field k)) (t.objs.push root) })

/-- The object for unknown memory, added on first use. -/
def unknown (t : ObjectTable) : ObjId × ObjectTable :=
  match t.unknown? with
  | some o => (o, t)
  | none =>
    let (o, t) := t.add .unknown .unknown 0 none none "<unknown>"
    (o, { t with unknown? := some o })

/-- The base of an object. -/
def baseOf (t : ObjectTable) (o : ObjId) : ObjId := (t.get o).base

/-- Note that the aggregate of an object is indexed with a variable. -/
def markArray (t : ObjectTable) (o : ObjId) : ObjectTable :=
  { t with objs := t.objs.modify (t.baseOf o) fun b => { b with array := true } }

/-- The field objects of the aggregate of an object. -/
def fieldsOf (t : ObjectTable) (o : ObjId) : List ObjId :=
  let base := t.baseOf o
  (List.range (t.get base).fieldCount).map (base + 1 + ·)

/-- The base of an object and all its fields. -/
def allFields (t : ObjectTable) (o : ObjId) : List ObjId := t.baseOf o :: t.fieldsOf o

/-- Whether the aggregate of an object is indexed with a variable. -/
def isArray (t : ObjectTable) (o : ObjId) : Bool := (t.get (t.baseOf o)).array

/-- The object reached by projecting by a constant.  Functions and unknown memory have no inside;
a projection out of the aggregate falls back to its base.  The offset is a 32-bit word. -/
def project (t : ObjectTable) (o : ObjId) (offset : Nat) : Except Error ObjId :=
  let obj := t.get o
  if obj.isUnknown || obj.isFunction then
    .ok o
  else
    let target := obj.field.getD 0 + offset
    if target ≥ UInt32.size then
      .error .outOfRange
    else if target < (t.get obj.base).fieldCount then
      .ok (obj.base + 1 + target)
    else
      .ok obj.base

end ObjectTable

end DataRace
