import DataRace.Guard.Basic
import DataRace.Proofs.Call.Component
import Mathlib.Data.Finset.Card
import Mathlib.Data.Finset.Range
import Mathlib.Data.Set.Insert

/-!
# DataRace.Proofs.Guard.Table

Guards do not depend on what was asked for before.

The table of guards is filled while it is read, and the guards that the calls of
a function share count as none while they are being found.  Among functions of
which no two lead to each other this is never seen: a look-up asks for the blocks
of callers only, along which a *rank* falls, and a block that calls its own
function states what all calls share by its own guards.  So every look-up of a
block of theirs returns the guards by definition (`guardsIn`), whatever is kept of
other functions.  The number of functions whose guards have not been looked for
bounds the recursion.

* `Ensures`, `Returns` — a computation with a state whose result has a property, and
  one whose result does not depend on the state;
* `ensures_guards_of_layeredOn`, `returns_guards` — the guards of a block are such a
  result;
* `Subject.Prepared.exists_layeredOn` — functions of which no two lead to each other
  have a rank;
* `Subject.Prepared.layered` — without recursion all functions have one, if calls
  stand in blocks of their function.
-/

namespace DataRace

open Std Relation

/-! ## results with a property -/

/-- From every state with one property, a computation leaves a state with another one, and its
result has a property. -/
def Ensures {σ α : Type} (I J : σ → Prop) (m : StateM σ α) (Q : α → Prop) : Prop :=
  ∀ s, I s → Q (m.run s).1 ∧ J (m.run s).2

namespace Ensures

variable {σ α β : Type} {I J K : σ → Prop} {Q : α → Prop} {R : β → Prop}

theorem pure {a : α} (ha : Q a) : Ensures I I (pure a) Q := fun _ hs => ⟨ha, hs⟩

theorem modify {f : σ → σ} (hf : ∀ s, I s → J (f s)) : Ensures I J (modify f) fun _ => True :=
  fun s hs => ⟨trivial, hf s hs⟩

theorem bind {m : StateM σ α} {f : α → StateM σ β} (hm : Ensures I J m Q)
    (hf : ∀ a, Q a → Ensures J K (f a) R) : Ensures I K (m >>= f) R :=
  fun s hs => hf _ (hm s hs).1 _ (hm s hs).2

/-- What depends on the state is judged state by state. -/
theorem get_bind {f : σ → StateM σ β} (hf : ∀ s, I s → Ensures (s = ·) J (f s) R) :
    Ensures I J (get >>= f) R :=
  fun s hs => hf s hs s rfl

theorem get : Ensures I I get I := fun _ hs => ⟨hs, hs⟩

theorem imp {m : StateM σ α} (h : Ensures J K m Q) (hI : ∀ s, I s → J s) : Ensures I K m Q :=
  fun s hs => h s (hI s hs)

theorem consequence {m : StateM σ α} {Q' : α → Prop} (h : Ensures I J m Q) (hQ : ∀ a, Q a → Q' a) :
    Ensures I J m Q' :=
  fun s hs => (h s hs).imp_left (hQ _)

/-- What holds of a start and is carried on by each element holds at the end. -/
theorem foldlM {f : β → α → StateM σ β} {R : List α → β → Prop} {l : List α}
    (hf : ∀ done b, ∀ x ∈ l, R done b → Ensures I I (f b x) (R (done ++ [x])))
    (done : List α) {b : β} (hb : R done b) : Ensures I I (l.foldlM f b) (R (done ++ l)) := by
  induction l generalizing done b with
  | nil =>
    rw [List.append_nil]
    exact pure hb
  | cons x l ih =>
    rw [List.foldlM_cons]
    refine (hf done b x List.mem_cons_self hb).bind fun b' hb' => ?_
    rw [List.append_cons]
    exact ih (fun done b y hy => hf done b y (List.mem_cons_of_mem x hy)) _ hb'

end Ensures

/-- From every state with one property, a computation returns the same result and leaves a state
with another property. -/
def Returns {σ α : Type} (I J : σ → Prop) (m : StateM σ α) (a : α) : Prop := Ensures I J m (· = a)

namespace Returns

variable {σ α β : Type} {I J K : σ → Prop}

theorem pure (a : α) : Returns I I (pure a) a := Ensures.pure rfl

theorem modify {f : σ → σ} (hf : ∀ s, I s → J (f s)) : Returns I J (modify f) () :=
  fun s hs => ⟨rfl, hf s hs⟩

theorem bind {m : StateM σ α} {a : α} {f : α → StateM σ β} {b : β} (hm : Returns I J m a)
    (hf : Returns J K (f a) b) : Returns I K (m >>= f) b :=
  Ensures.bind hm fun _ ha => ha ▸ hf

theorem mapM {f : α → StateM σ β} {g : α → β} (hf : ∀ x, Returns I I (f x) (g x)) (xs : List α) :
    Returns I I (xs.mapM f) (xs.map g) := by
  induction xs with
  | nil =>
    rw [List.mapM_nil]
    exact pure []
  | cons x xs ih =>
    rw [List.mapM_cons]
    exact (hf x).bind (ih.bind (pure _))

theorem filterM {f : α → StateM σ Bool} {g : α → Bool} (hf : ∀ x, Returns I I (f x) (g x))
    (xs : List α) : Returns I I (xs.filterM f) (xs.filter g) := by
  have haux (xs acc : List α) :
      Returns I I (xs.filterAuxM f acc) ((xs.filter g).reverse ++ acc) := by
    induction xs generalizing acc with
    | nil => exact pure acc
    | cons x xs ih =>
      refine (hf x).bind ?_
      have hrest := ih (cond (g x) (x :: acc) acc)
      cases hx : g x <;> simpa [hx] using hrest
  refine (haux xs []).bind ?_
  rw [List.append_nil, List.reverse_reverse]
  exact pure _

end Returns

/-! ## the guards by definition -/

namespace GuardTable

variable {φ ε : Type} [DecidableEq φ]

/-- The blocks with a call of a function. -/
def callBlocks (s : Subject) (f : FuncId) : IdSet := .ofList ((s.callSites f).map s.program.blockOf)

/-- What is common to some blocks and another one, if there are any before. -/
def narrow (guards : BlockId → List (Guard φ ε)) (common : Option (List (Guard φ ε)))
    (b : BlockId) :
    Option (List (Guard φ ε)) :=
  some (match common with
    | none => guards b
    | some hs => hs.filter (Guard.states (guards b)))

/-- The guards that all calls of a function share, by the guards of every block. -/
def sharedBy (s : Subject) (guards : BlockId → List (Guard φ ε)) (f : FuncId) :
    List (Guard φ ε) :=
  ((callBlocks s f).toList.foldl (narrow guards) none).getD []

/-- The guards of a block with others that are not among them. -/
def inherit (own outer : List (Guard φ ε)) : List (Guard φ ε) :=
  outer.foldl (fun gs g => if Guard.states gs g then gs else gs ++ [g]) own

/-- The guards of a block with those of its callers, some calls up. -/
def unfolded (s : Subject) (read : Guard.Reader φ ε) : Nat → BlockId → List (Guard φ ε)
  | 0, b => s.guardsAt read b
  | depth + 1, b =>
    inherit (s.guardsAt read b) (sharedBy s (unfolded s read depth) (s.program.block b).func)

/-- The guards of a block with those of its callers. -/
def guardsIn (s : Subject) (read : Guard.Reader φ ε) (b : BlockId) : List (Guard φ ε) :=
  unfolded s read (s.program.funcs.size + 1) b

end GuardTable

/-- A rank of some functions that falls from each of them to the others whose blocks call it, and
these are among them. -/
structure Subject.LayeredOn (s : Subject) (U : Set FuncId) (rank : FuncId → Nat) : Prop where
  mem_of_mem_callSites : ∀ f ∈ U, ∀ i ∈ s.callSites f,
    (s.program.block (s.program.blockOf i)).func ∈ U
  lt_of_mem_callSites : ∀ f ∈ U, ∀ i ∈ s.callSites f,
    (s.program.block (s.program.blockOf i)).func ≠ f →
      rank (s.program.block (s.program.blockOf i)).func < rank f
  le_size : ∀ f ∈ U, rank f ≤ s.program.funcs.size
  /-- What is called is a function of the program. -/
  lt_size : ∀ f, s.callSites f ≠ [] → f < s.program.funcs.size

/-- A rank of all functions. -/
abbrev Subject.Layered (s : Subject) (rank : FuncId → Nat) : Prop := s.LayeredOn .univ rank

namespace GuardTable

variable {φ ε : Type} [DecidableEq φ] {s : Subject} {read : Guard.Reader φ ε} {U : Set FuncId}
  {rank : FuncId → Nat}

theorem sharedBy_congr {guards guards' : BlockId → List (Guard φ ε)} {f : FuncId}
    (h : ∀ b ∈ callBlocks s f, guards b = guards' b) :
    sharedBy s guards f = sharedBy s guards' f := by
  unfold sharedBy
  congr 1
  refine List.foldl_ext _ _ _ fun common b hb => ?_
  unfold narrow
  rw [h b (TreeSet.mem_toList.1 hb)]

/-- What the calls of a function share is stated at each of them. -/
theorem states_of_mem_sharedBy {guards : BlockId → List (Guard φ ε)} {f : FuncId} {g : Guard φ ε}
    (hg : g ∈ sharedBy s guards f) {b : BlockId} (hb : b ∈ callBlocks s f) :
    Guard.states (guards b) g = true := by
  have hfold (bs : List BlockId) : (bs.foldl (narrow guards) none = none → bs = []) ∧
      ∀ g ∈ (bs.foldl (narrow guards) none).getD [], ∀ b ∈ bs,
        Guard.states (guards b) g = true := by
    induction bs using List.reverseRecOn with
    | nil => exact ⟨fun _ => rfl, by simp⟩
    | append_singleton bs b ih =>
      rw [List.foldl_append, List.foldl_cons, List.foldl_nil]
      refine ⟨fun h => absurd h (Option.some_ne_none _), fun g hg c hc => ?_⟩
      cases hcommon : bs.foldl (narrow guards) none with
      | none =>
        obtain rfl := ih.1 hcommon
        obtain rfl := List.mem_singleton.1 hc
        exact List.any_eq_true.2 ⟨g, hg, decide_eq_true rfl⟩
      | some hs =>
        rw [hcommon] at hg ih
        obtain ⟨hg, hstates⟩ := List.mem_filter.1 hg
        rcases List.mem_append.1 hc with hc | hc
        · exact ih.2 g hg c hc
        · exact List.mem_singleton.1 hc ▸ hstates
  exact (hfold _).2 g hg b (TreeSet.mem_toList.2 hb)

/-- Nothing is added that is stated already. -/
theorem inherit_eq_self {own outer : List (Guard φ ε)}
    (h : ∀ g ∈ outer, Guard.states own g = true) : inherit own outer = own := by
  induction outer with
  | nil => rfl
  | cons g outer ih =>
    rw [inherit, List.foldl_cons, if_pos (h g List.mem_cons_self)]
    exact ih fun g' hg' => h g' (List.mem_cons_of_mem g hg')

/-- A block that calls its own function has no other guards than its own. -/
theorem unfolded_of_self {b : BlockId} (hb : b ∈ callBlocks s (s.program.block b).func) (d : Nat) :
    unfolded s read d b = s.guardsAt read b := by
  induction d with
  | zero => rfl
  | succ d ih => exact inherit_eq_self fun g hg => ih ▸ states_of_mem_sharedBy hg hb

/-! ### the definition as an equation -/

section LayeredOn

variable (hl : s.LayeredOn U rank) {f : FuncId} (hf : f ∈ U) {b : BlockId} (hb : b ∈ callBlocks s f)
include hl

omit hl in
theorem exists_callSite (hb : b ∈ callBlocks s f) :
    ∃ i ∈ s.callSites f, s.program.blockOf i = b := by
  simpa only [callBlocks, TreeSet.mem_ofList, List.contains_iff_mem, List.mem_map] using hb

include hf hb in
theorem mem_of_mem_callBlocks : (s.program.block b).func ∈ U := by
  obtain ⟨i, hi, rfl⟩ := exists_callSite hb
  exact hl.mem_of_mem_callSites f hf i hi

include hf hb in
theorem rank_lt_of_mem_callBlocks (hne : (s.program.block b).func ≠ f) :
    rank (s.program.block b).func < rank f := by
  obtain ⟨i, hi, rfl⟩ := exists_callSite hb
  exact hl.lt_of_mem_callSites f hf i hi hne

include hb in
theorem lt_size_of_mem_callBlocks : f < s.program.funcs.size := by
  obtain ⟨i, hi, -⟩ := exists_callSite hb
  exact hl.lt_size f (List.ne_nil_of_mem hi)

/-- Going further up than the rank of a function finds nothing more. -/
theorem unfolded_eq {d d' : Nat} {b : BlockId} (hb : (s.program.block b).func ∈ U)
    (hd : rank (s.program.block b).func < d) (hd' : rank (s.program.block b).func < d') :
    unfolded s read d b = unfolded s read d' b := by
  induction d generalizing d' b with
  | zero => omega
  | succ d ih =>
    obtain ⟨d', rfl⟩ : ∃ k, d' = k + 1 := ⟨d' - 1, by omega⟩
    rw [unfolded, unfolded, sharedBy_congr]
    intro b' hb'
    by_cases hself : (s.program.block b').func = (s.program.block b).func
    · rw [unfolded_of_self (hself ▸ hb'), unfolded_of_self (hself ▸ hb')]
    · have hlt := rank_lt_of_mem_callBlocks hl hb hb' hself
      exact ih (mem_of_mem_callBlocks hl hb hb') (by omega) (by omega)

theorem guardsIn_eq {b : BlockId} (hb : (s.program.block b).func ∈ U) : guardsIn s read b =
    inherit (s.guardsAt read b) (sharedBy s (guardsIn s read) (s.program.block b).func) := by
  rw [guardsIn, unfolded, sharedBy_congr]
  intro b' hb'
  by_cases hself : (s.program.block b').func = (s.program.block b).func
  · rw [guardsIn, unfolded_of_self (hself ▸ hb'), unfolded_of_self (hself ▸ hb')]
  · have hlt := rank_lt_of_mem_callBlocks hl hb hb' hself
    have hle := hl.le_size _ hb
    exact unfolded_eq hl (mem_of_mem_callBlocks hl hb hb') (by omega) (by omega)

end LayeredOn

/-! ## the table -/

/-- The functions whose guards have not been looked for. -/
def unsought (s : Subject) (t : GuardTable φ ε) : Finset FuncId :=
  (Finset.range s.program.funcs.size).filter (· ∉ t.byFunc)

/-- What is kept of some functions is right, except where their guards are being found, and those of
no more than a number of functions have not been looked for. -/
structure Sound (s : Subject) (read : Guard.Reader φ ε) (U : Set FuncId) (n : Nat)
    (pending : Set FuncId) (t : GuardTable φ ε) : Prop where
  inherits : t.inherits = true
  byBlock : ∀ b gs, (s.program.block b).func ∈ U → t.byBlock[b]? = some gs → gs = guardsIn s read b
  byFunc : ∀ f gs, f ∈ U → f ∉ pending → t.byFunc[f]? = some gs →
    gs = sharedBy s (guardsIn s read) f
  pending : ∀ f ∈ pending, t.byFunc[f]? = some []
  card_le : (unsought s t).card ≤ n

namespace Sound

variable {n : Nat} {pending pending' : Set FuncId} {t : GuardTable φ ε} {b : BlockId} {f : FuncId}
  {gs : List (Guard φ ε)}

theorem insertBlock (h : Sound s read U n pending t)
    (hgs : (s.program.block b).func ∈ U → gs = guardsIn s read b) :
    Sound s read U n pending { t with byBlock := t.byBlock.insert b gs } where
  inherits := h.inherits
  byBlock b' gs' hb' hgs' := by
    rw [TreeMap.getElem?_insert] at hgs'
    split at hgs'
    · next heq =>
      obtain rfl := LawfulEqCmp.compare_eq_iff_eq.1 heq
      exact (Option.some.inj hgs').symm.trans (hgs hb')
    · exact h.byBlock b' gs' hb' hgs'
  byFunc := h.byFunc
  pending := h.pending
  card_le := h.card_le

omit [DecidableEq φ] in
theorem unsought_insert :
    unsought s { t with byFunc := t.byFunc.insert f gs } = (unsought s t).erase f := by
  ext g
  simp only [unsought, Finset.mem_filter, Finset.mem_erase, TreeMap.mem_insert,
    LawfulEqCmp.compare_eq_iff_eq, not_or, eq_comm (a := f)]
  tauto

/-- What is noted for a function is none while its guards are being found, and right afterwards. -/
theorem insertFunc (h : Sound s read U n pending t)
    (hsame : ∀ g, g ≠ f → (g ∈ pending' ↔ g ∈ pending)) (hpending : f ∈ pending' → gs = [])
    (hright : f ∈ U → f ∉ pending' → gs = sharedBy s (guardsIn s read) f) :
    Sound s read U n pending' { t with byFunc := t.byFunc.insert f gs } where
  inherits := h.inherits
  byBlock := h.byBlock
  byFunc g gs' hg hnot hgs' := by
    rw [TreeMap.getElem?_insert] at hgs'
    split at hgs'
    · next heq =>
      obtain rfl := LawfulEqCmp.compare_eq_iff_eq.1 heq
      exact (Option.some.inj hgs').symm.trans (hright hg hnot)
    · next hne =>
      have hne : g ≠ f := fun heq => hne (LawfulEqCmp.compare_eq_iff_eq.2 heq.symm)
      exact h.byFunc g gs' hg (fun hmem => hnot ((hsame g hne).2 hmem)) hgs'
  pending g hg := by
    rw [TreeMap.getElem?_insert]
    split
    · next heq =>
      obtain rfl := LawfulEqCmp.compare_eq_iff_eq.1 heq
      rw [hpending hg]
    · next hne =>
      have hne : g ≠ f := fun heq => hne (LawfulEqCmp.compare_eq_iff_eq.2 heq.symm)
      exact h.pending g ((hsame g hne).1 hg)
  card_le := by
    rw [unsought_insert]
    exact (Finset.card_erase_le).trans h.card_le

/-- Where the guards of a function begin to be found, fewer functions are left for its callers. -/
theorem start (hl : s.LayeredOn U rank) (h : Sound s read U n pending t)
    (hnew : t.byFunc[f]? = none)
    (hsame : ∀ g, g ≠ f → (g ∈ pending' ↔ g ∈ pending)) (hin : f ∈ pending' ↔ f ∈ U) :
    ∃ m ≤ n, (∀ b ∈ callBlocks s f, m < n) ∧
      Sound s read U m pending' { t with byFunc := t.byFunc.insert f [] } := by
  have hsound := h.insertFunc hsame (fun _ => rfl) fun hU hnot => absurd (hin.2 hU) hnot
  refine ⟨_, hsound.card_le, fun b hb => ?_, { hsound with card_le := Nat.le_refl _ }⟩
  have hmem : f ∈ unsought s t := by
    refine Finset.mem_filter.2 ⟨Finset.mem_range.2 (lt_size_of_mem_callBlocks hl hb), ?_⟩
    rw [← TreeMap.isSome_getElem?_iff_mem, hnew]
    exact Bool.false_ne_true
  rw [unsought_insert]
  exact (Finset.card_erase_lt_of_mem hmem).trans_le h.card_le

theorem mono {m : Nat} (h : Sound s read U m pending t) (hmn : m ≤ n) :
    Sound s read U n pending t :=
  { h with card_le := h.card_le.trans hmn }

end Sound

theorem sound_new (s : Subject) (read : Guard.Reader φ ε) (U : Set FuncId) :
    Sound s read U s.program.funcs.size ∅ { inherits := true } where
  inherits := rfl
  byBlock := by simp
  byFunc := by simp
  pending := by simp
  card_le := (Finset.card_filter_le _ _).trans_eq (Finset.card_range _)

section LayeredOn

variable (hl : s.LayeredOn U rank) {n : Nat} {pending pending' : Set FuncId} {f : FuncId}
  {b : BlockId}

include hl in
/-- What the calls of a function share is found when each of them is answered. -/
theorem ensures_shared_of_layeredOn {ask : BlockId → StateM (GuardTable φ ε) (List (Guard φ ε))}
    (hf : f ∉ pending) (hsame : ∀ g, g ≠ f → (g ∈ pending' ↔ g ∈ pending))
    (hin : f ∈ pending' ↔ f ∈ U)
    (hask : ∀ m < n, ∀ b ∈ callBlocks s f, Ensures (Sound s read U m pending')
      (Sound s read U m pending') (ask b) fun gs =>
        (s.program.block b).func ∈ U → gs = guardsIn s read b) :
    Ensures (Sound s read U n pending) (Sound s read U n pending) (shared s ask f)
      fun gs => f ∈ U → gs = sharedBy s (guardsIn s read) f := by
  refine .get_bind fun t ht => ?_
  cases hfound : t.byFunc[f]? with
  | some gs => exact (Ensures.pure fun hU => ht.byFunc f gs hU hf hfound).imp fun _ h => h ▸ ht
  | none =>
    obtain ⟨m, hmn, hlt, hstart⟩ := ht.start hl hfound hsame hin
    refine (Ensures.modify fun u hu => hu ▸ hstart).bind fun _ _ => ?_
    refine (Ensures.foldlM
      (R := fun done common => f ∈ U → common = done.foldl (narrow (guardsIn s read)) none)
      (fun done common b hb hdone => ?_) [] fun _ => rfl).bind fun common hcommon => ?_
    · have hb := TreeSet.mem_toList.1 hb
      refine (hask m (hlt b hb) b hb).bind fun gs hgs => .pure fun hU => ?_
      rw [List.foldl_append, List.foldl_cons, List.foldl_nil, ← hdone hU,
        hgs (mem_of_mem_callBlocks hl hU hb)]
      rfl
    · have hgs (hU : f ∈ U) : common.getD [] = sharedBy s (guardsIn s read) f := by
        rw [hcommon hU]
        rfl
      refine (Ensures.modify fun u hu => ?_).bind fun _ _ => .pure hgs
      exact (hu.insertFunc (fun g hne => (hsame g hne).symm) (fun h => absurd h hf)
        fun hU _ => hgs hU).mono hmn

/-- A look-up is right if what it adds is. -/
theorem ensures_find_succ {depth : Nat}
    (h : Ensures (Sound s read U n pending) (Sound s read U n pending)
      (shared s (find s read depth) (s.program.block b).func) fun outer =>
        (s.program.block b).func ∈ U → inherit (s.guardsAt read b) outer = guardsIn s read b) :
    Ensures (Sound s read U n pending) (Sound s read U n pending) (find s read (depth + 1) b)
      fun gs => (s.program.block b).func ∈ U → gs = guardsIn s read b := by
  refine .get_bind fun t ht => ?_
  cases hfound : t.byBlock[b]? with
  | some gs => exact (Ensures.pure fun hU => ht.byBlock b gs hU hfound).imp fun _ h => h ▸ ht
  | none =>
    refine .get_bind fun u hu => ?_
    subst hu
    simp only [ht.inherits, if_true]
    refine (h.imp (I := (t = ·)) fun _ h => h ▸ ht).bind fun outer houter => ?_
    exact (Ensures.modify fun v hv => hv.insertBlock houter).bind fun _ _ => .pure houter

/-- A block that calls its own function while the guards of that are being found is answered by its
own guards, which is right. -/
theorem ensures_find_self (hb : b ∈ callBlocks s (s.program.block b).func)
    (hpending : (s.program.block b).func ∈ pending) (depth : Nat) :
    Ensures (Sound s read U n pending) (Sound s read U n pending) (find s read depth b)
      fun gs => (s.program.block b).func ∈ U → gs = guardsIn s read b := by
  have hown : s.guardsAt read b = guardsIn s read b := (unfolded_of_self hb _).symm
  cases depth with
  | zero => exact .pure fun _ => hown
  | succ depth =>
    refine ensures_find_succ (.get_bind fun t ht => ?_)
    rw [ht.pending _ hpending]
    exact (Ensures.pure fun _ => hown).imp fun _ h => h ▸ ht

include hl in
theorem ensures_find_of_layeredOn {depth : Nat} (hn : n < depth)
    (hpending : ∀ f ∈ pending,
      (s.program.block b).func ∈ U ∧ rank (s.program.block b).func < rank f) :
    Ensures (Sound s read U n pending) (Sound s read U n pending) (find s read depth b)
      fun gs => (s.program.block b).func ∈ U → gs = guardsIn s read b := by
  induction depth generalizing b n pending with
  | zero => omega
  | succ depth ih =>
    have hnot : (s.program.block b).func ∉ pending := fun hmem =>
      Nat.lt_irrefl _ (hpending _ hmem).2
    refine ensures_find_succ (Ensures.consequence (Q := fun outer => (s.program.block b).func ∈ U →
      outer = sharedBy s (guardsIn s read) (s.program.block b).func) ?_ fun outer houter hU => ?_)
    · by_cases hU : (s.program.block b).func ∈ U
      · have hsame (g : FuncId) (hne : g ≠ (s.program.block b).func) :
            g ∈ insert (s.program.block b).func pending ↔ g ∈ pending :=
          Set.mem_insert_iff.trans (or_iff_right hne)
        refine ensures_shared_of_layeredOn hl hnot hsame (iff_of_true (Set.mem_insert _ _) hU)
          fun m hm b' hb' => ?_
        by_cases hself : (s.program.block b').func = (s.program.block b).func
        · exact ensures_find_self (hself ▸ hb') (hself ▸ Set.mem_insert _ _) depth
        · have hlt := rank_lt_of_mem_callBlocks hl hU hb' hself
          refine ih (by omega) fun f hf => ⟨mem_of_mem_callBlocks hl hU hb', ?_⟩
          rcases hf with rfl | hf
          · exact hlt
          · exact hlt.trans (hpending f hf).2
      · -- nothing is being found that matters
        refine ensures_shared_of_layeredOn hl hnot (fun _ _ => Iff.rfl) (iff_of_false hnot hU)
          fun m hm b' _ => ?_
        exact ih (by omega) fun f hf => absurd (hpending f hf).1 hU
    · rw [houter hU]
      exact (guardsIn_eq hl hU).symm

include hl in
/-- **A look-up returns the guards of a block** of one of the functions, whatever was looked up
before. -/
theorem ensures_guards_of_layeredOn (b : BlockId) :
    Ensures (Sound s read U s.program.funcs.size ∅) (Sound s read U s.program.funcs.size ∅)
      (guards s read b) fun gs => (s.program.block b).func ∈ U → gs = guardsIn s read b :=
  ensures_find_of_layeredOn hl (Nat.lt_succ_self _) fun _ hf => hf.elim

end LayeredOn

/-- Where all functions have a rank, a look-up returns the guards of a block. -/
theorem returns_guards (hl : s.Layered rank) (b : BlockId) :
    Returns (Sound s read .univ s.program.funcs.size ∅) (Sound s read .univ s.program.funcs.size ∅)
      (guards s read b) (guardsIn s read b) :=
  (ensures_guards_of_layeredOn hl b).consequence fun _ h => h trivial

end GuardTable

/-! ## ranks -/

/-- A block of one function calls another one. -/
def Subject.Calls (s : Subject) (g f : FuncId) : Prop :=
  ∃ i ∈ s.callSites f, (s.program.block (s.program.blockOf i)).func = g

/-- Calls lead from one function to another. -/
abbrev Subject.LeadsTo (s : Subject) : FuncId → FuncId → Prop := ReflTransGen s.Calls

namespace Subject.Prepared

variable {p : Program} {c : Config} {s : Subject} {U : Set FuncId}

/-- The number of functions that lead to a function is a rank of some functions, if no two of them
lead to each other. -/
theorem exists_layeredOn (h : s.Prepared p c) (hclosed : ∀ f ∈ U, ∀ g, s.Calls g f → g ∈ U)
    (hcycle : ∀ f ∈ U, ∀ g, s.LeadsTo f g → s.LeadsTo g f → g = f) :
    ∃ rank, s.LayeredOn U rank := by
  classical
  have hlt (f : FuncId) (hne : s.callSites f ≠ []) : f < p.funcs.size := by
    obtain ⟨i, hi⟩ := List.exists_mem_of_ne_nil _ hne
    obtain ⟨e, he, rfl, -⟩ := mem_callSites_iff.1 hi
    exact Program.lt_of_defined (h.defined e he)
  refine ⟨fun f => ((Finset.range p.funcs.size).filter (s.LeadsTo · f)).card,
    fun f hf i hi => hclosed f hf _ ⟨i, hi, rfl⟩, fun f hf i hi hne => ?_, fun f _ => ?_, ?_⟩
  · have hcall : s.Calls (s.program.block (s.program.blockOf i)).func f := ⟨i, hi, rfl⟩
    -- what leads to the caller leads to the callee, and the callee itself does not lead to the
    -- caller
    refine Finset.card_lt_card ((Finset.ssubset_iff_of_subset fun g hg => ?_).2 ⟨f, ?_, ?_⟩)
    · rw [Finset.mem_filter] at hg ⊢
      exact ⟨hg.1, hg.2.tail hcall⟩
    · rw [Finset.mem_filter, Finset.mem_range]
      exact ⟨hlt f (List.ne_nil_of_mem hi), .refl⟩
    · rw [Finset.mem_filter]
      exact fun hmem => hne (hcycle f hf _ hmem.2 (.single hcall))
  · rw [h.program]
    exact (Finset.card_filter_le _ _).trans_eq (Finset.card_range _)
  · rw [h.program]
    exact hlt

/-- Without recursion all functions have a rank, if calls stand in blocks of their function. -/
theorem layered (h : s.Prepared p c)
    (hplaced : ∀ i, p.isCall i = true → (p.block (p.blockOf i)).func = p.funcOf i)
    (hrec : ∀ k ∈ s.components.list, k.recursive = false) : ∃ rank, s.Layered rank := by
  have hedge {g f : FuncId} (hcall : s.Calls g f) :
      ∃ e ∈ s.calls.edges, e.caller = g ∧ e.callee = f := by
    obtain ⟨i, hi, rfl⟩ := hcall
    obtain ⟨e, he, rfl, -, rfl, -⟩ := mem_callSites_iff.1 hi
    obtain ⟨-, hcall, hcaller⟩ := h.edge_spec he
    exact ⟨e, he, by rw [h.program, hplaced _ hcall, hcaller], rfl⟩
  refine h.exists_layeredOn (fun _ _ _ _ => trivial) fun f _ g hfg hgf => ?_
  rcases hgf.cases_tail with heq | ⟨b, hgb, hbf⟩
  · exact heq.symm
  · obtain ⟨e, he, rfl, rfl⟩ := hedge hbf
    exact absurd ((hfg.trans hgb).lift id fun _ _ => hedge) (h.not_reaches_caller hrec he)

end Subject.Prepared

end DataRace
