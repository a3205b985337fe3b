import DataRace.Program.Basic

/-!
# DataRace.Program.Library

Calls to the thread and memory library.

A call is recognised by the name of the declaration it calls directly.  Short
names and POSIX names differ only in where the arguments stand.
-/

namespace DataRace

/-- What a library call does. -/
inductive LibraryCall where
  /-- Start a thread. -/
  | spawn
  /-- Wait for a thread to end. -/
  | join
  | lock
  | unlock
  | barrierWait
  /-- Run a routine in parallel and wait for it. -/
  | parallelFor
  | memCopy
  | memSet
  | free
deriving DecidableEq, Inhabited

/-- A library function and where its arguments stand. -/
structure LibraryEntry where
  name : String
  kind : LibraryCall
  /-- The thread id, lock, barrier or destination. -/
  ptr : Option Nat := some 0
  /-- The routine to start. -/
  routine : Option Nat := none
  /-- The argument handed to the routine. -/
  arg : Option Nat := none

/-- The library. -/
def library : List LibraryEntry :=
  [{ name := "thread_create", kind := .spawn, routine := some 1, arg := some 2 },
    { name := "pthread_create", kind := .spawn, routine := some 2, arg := some 3 },
    { name := "parallel_for", kind := .parallelFor, ptr := none, routine := some 0, arg := some 1 },
    { name := "thread_join", kind := .join },
    { name := "pthread_join", kind := .join },
    { name := "mutex_lock", kind := .lock },
    { name := "pthread_mutex_lock", kind := .lock },
    { name := "spin_lock", kind := .lock },
    { name := "pthread_spin_lock", kind := .lock },
    { name := "mutex_unlock", kind := .unlock },
    { name := "pthread_mutex_unlock", kind := .unlock },
    { name := "spin_unlock", kind := .unlock },
    { name := "pthread_spin_unlock", kind := .unlock },
    { name := "barrier_wait", kind := .barrierWait },
    { name := "pthread_barrier_wait", kind := .barrierWait },
    { name := "memcpy", kind := .memCopy },
    { name := "memmove", kind := .memCopy },
    { name := "memset", kind := .memSet },
    { name := "free", kind := .free }]

namespace Program

/-- The library entry of a declared function. -/
def libraryEntry? (p : Program) (f : FuncId) : Option LibraryEntry :=
  if (p.func f).isDeclaration then library.find? (·.name == (p.func f).name) else none

/-- What a declared function does, if it is in the library. -/
def libraryFunc? (p : Program) (f : FuncId) : Option LibraryCall := (p.libraryEntry? f).map (·.kind)

/-- The library entry a call names. -/
def callEntry? (p : Program) (i : InstId) : Option LibraryEntry :=
  (p.directCallee i).bind p.libraryEntry?

/-- What a call does, if it names a library function. -/
def libraryCall? (p : Program) (i : InstId) : Option LibraryCall := (p.callEntry? i).map (·.kind)

def isSpawn (p : Program) (i : InstId) : Bool := p.libraryCall? i == some .spawn

def isJoin (p : Program) (i : InstId) : Bool := p.libraryCall? i == some .join

def isLock (p : Program) (i : InstId) : Bool := p.libraryCall? i == some .lock

def isUnlock (p : Program) (i : InstId) : Bool := p.libraryCall? i == some .unlock

def isBarrierWait (p : Program) (i : InstId) : Bool := p.libraryCall? i == some .barrierWait

def isParallelFor (p : Program) (i : InstId) : Bool := p.libraryCall? i == some .parallelFor

/-- Whether a call starts threads. -/
def isThreadStart (p : Program) (i : InstId) : Bool := p.isSpawn i || p.isParallelFor i

/-- Whether a call copies, sets or frees memory. -/
def isMemoryCall (p : Program) (i : InstId) : Bool :=
  match p.libraryCall? i with
  | some .memCopy | some .memSet | some .free => true
  | _ => false

/-- The argument at a position that the library entry of a call gives. -/
def entryArg (p : Program) (i : InstId) (pick : LibraryEntry → Option Nat) : Option ValueId := do
  (p.callArgs i)[← pick (← p.callEntry? i)]?

/-- The main argument of a call of one of the kinds. -/
def mainArg (p : Program) (i : InstId) (kinds : List LibraryCall) : Option ValueId :=
  p.entryArg i fun e => if kinds.contains e.kind then e.ptr else none

/-- The pointer to the thread id of a spawn, or the thread id of a join. -/
def threadId (p : Program) (i : InstId) : Option ValueId := p.mainArg i [.spawn, .join]

/-- The routine a call starts. -/
def routine (p : Program) (i : InstId) : Option ValueId := p.entryArg i (·.routine)

/-- The argument of the routine a call starts. -/
def routineArg (p : Program) (i : InstId) : Option ValueId := p.entryArg i (·.arg)

/-- The lock that a call takes or releases. -/
def lockPtr (p : Program) (i : InstId) : Option ValueId := p.mainArg i [.lock, .unlock]

/-- The barrier a call waits at. -/
def barrierPtr (p : Program) (i : InstId) : Option ValueId := p.mainArg i [.barrierWait]

/-- The memory that a call writes or frees. -/
def destPtr (p : Program) (i : InstId) : Option ValueId := p.mainArg i [.memCopy, .memSet, .free]

/-- The memory that a copying call reads. -/
def srcPtr (p : Program) (i : InstId) : Option ValueId :=
  p.entryArg i fun e => if e.kind = .memCopy then some 1 else none

end Program

end DataRace
